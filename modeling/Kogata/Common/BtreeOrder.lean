import Kogata.Common.Btree
import Mathlib.Data.List.Sort

/-!
# The ordered index is a sorted list

Rotations keep the list of bindings (`Item.to_list_equilibrate`), whatever heights are stored.
On a list sorted by key, insertion is `List.orderedInsert` (`Item.to_list_insert`), the removal
of a key and value is a filter (`Item.to_list_remove_aux_v`), and the lower and upper lookups
find the nearest keys (`Item.lower_aux_spec` and `Item.upper_aux_spec`).
-/

namespace Kogata.Common

variable {κ ν : Type}

/-- The order of bindings by key. -/
def KeyLE (cf : κ → κ → Ordering) (a b : κ × ν) : Prop :=
  (cf a.1 b.1).isLE

instance (cf : κ → κ → Ordering) : DecidableRel (KeyLE cf (ν := ν)) :=
  fun _ _ => inferInstanceAs (Decidable (_ = true))

/-- The bindings come in the order of their keys. -/
def Sorted (cf : κ → κ → Ordering) (bindings : List (κ × ν)) : Prop :=
  bindings.Pairwise (KeyLE cf)

namespace Item

@[simp] theorem to_list_nil : (nil : Item κ ν).toList = [] := rfl

@[simp] theorem to_list_node (key : κ) (val : ν) (h : Nat) (left right : Item κ ν) :
    (node key val h left right).toList = left.toList ++ (key, val) :: right.toList := rfl

@[simp] theorem to_list_recalc_height (key : κ) (val : ν) (left right : Item κ ν) :
    (recalcHeight key val left right).toList = left.toList ++ (key, val) :: right.toList := rfl

theorem to_list_rotate_left_while (key : κ) (val : ν) (h : Nat) (left right : Item κ ν) :
    (rotateLeftWhile key val h left right).toList =
      left.toList ++ (key, val) :: right.toList := by
  induction left generalizing key val h right with
  | nil => rfl
  | node xkey xval xh a b iha ihb =>
      unfold rotateLeftWhile
      split
      · simp [iha]
      · rfl

theorem to_list_rotate_right_while (key : κ) (val : ν) (h : Nat) (left right : Item κ ν) :
    (rotateRightWhile key val h left right).toList =
      left.toList ++ (key, val) :: right.toList := by
  induction right generalizing key val h left with
  | nil => rfl
  | node ykey yval yh a b iha ihb =>
      unfold rotateRightWhile
      split
      · simp [ihb]
      · rfl

@[simp] theorem to_list_lean_left (i : Item κ ν) : i.leanLeft.toList = i.toList := by
  cases i with
  | nil => rfl
  | node key val h left right => exact to_list_rotate_left_while key val h left right

@[simp] theorem to_list_lean_right (i : Item κ ν) : i.leanRight.toList = i.toList := by
  cases i with
  | nil => rfl
  | node key val h left right => exact to_list_rotate_right_while key val h left right

/-- Rotations keep the order of the bindings. -/
@[simp] theorem to_list_equilibrate (i : Item κ ν) : i.equilibrate.toList = i.toList := by
  simp [equilibrate]

/-- The smallest binding is the first one. -/
theorem to_list_extract_smallest (key : κ) (val : ν) (left right : Item κ ν) :
    (extractSmallest key val left right).1 :: (extractSmallest key val left right).2.toList =
      left.toList ++ (key, val) :: right.toList := by
  induction left generalizing key val right with
  | nil => rfl
  | node lkey lval lh a b iha ihb =>
      simp only [extractSmallest, to_list_equilibrate, to_list_recalc_height, to_list_node]
      rw [← List.cons_append, iha]

/-- The children of a removed node keep their order. -/
@[simp] theorem to_list_join_children (left right : Item κ ν) :
    (joinChildren left right).toList = left.toList ++ right.toList := by
  cases left with
  | nil => cases right <;> simp [joinChildren]
  | node lkey lval lh a b =>
      cases right with
      | nil => simp [joinChildren]
      | node rkey rval rh c d =>
          have hsmallest := to_list_extract_smallest rkey rval c d
          simp only [joinChildren, to_list_equilibrate, to_list_recalc_height, Prod.eta]
          rw [hsmallest]
          rfl

theorem mem_node {key : κ} {val : ν} {h : Nat} {left right : Item κ ν} {b : κ × ν} :
    b ∈ (node key val h left right).toList ↔
      b ∈ left.toList ∨ b = (key, val) ∨ b ∈ right.toList := by
  simp

/-- The tree with its sides exchanged. -/
def mirror : Item κ ν → Item κ ν
  | nil => nil
  | node key val h left right => node key val h right.mirror left.mirror

@[simp] theorem to_list_mirror (i : Item κ ν) : i.mirror.toList = i.toList.reverse := by
  induction i with
  | nil => rfl
  | node key val h left right ihl ihr => simp [mirror, ihl, ihr]

section Order

variable {cf : κ → κ → Ordering}

/-- The three parts of a sorted node. -/
theorem sorted_node {key : κ} {val : ν} {h : Nat} {left right : Item κ ν}
    (hs : Sorted cf (node key val h left right).toList) :
    Sorted cf left.toList ∧ Sorted cf right.toList ∧
      (∀ b ∈ left.toList, (cf b.1 key).isLE) ∧ ∀ b ∈ right.toList, (cf key b.1).isLE := by
  obtain ⟨hleft, hcons, hcross⟩ := List.pairwise_append.mp hs
  obtain ⟨hright, hsorted⟩ := List.pairwise_cons.mp hcons
  exact ⟨hleft, hsorted, fun b hb => hcross b hb (key, val) (by simp), hright⟩

/-- Insertion into an append, when it stops at or before the middle binding. -/
theorem ordered_insert_left {xs ys : List (κ × ν)} {x y : κ × ν} (h : KeyLE cf x y) :
    (xs ++ y :: ys).orderedInsert (KeyLE cf) x = xs.orderedInsert (KeyLE cf) x ++ y :: ys := by
  induction xs with
  | nil => simp [List.orderedInsert_cons, h]
  | cons z zs ih =>
      simp only [List.cons_append, List.orderedInsert_cons, ih]
      split <;> rfl

/-- Insertion into an append, when it passes the middle binding. -/
theorem ordered_insert_right {xs ys : List (κ × ν)} {x y : κ × ν}
    (hxs : ∀ z ∈ xs, ¬ KeyLE cf x z) (hy : ¬ KeyLE cf x y) :
    (xs ++ y :: ys).orderedInsert (KeyLE cf) x = xs ++ y :: ys.orderedInsert (KeyLE cf) x := by
  induction xs with
  | nil => simp [List.orderedInsert_cons, hy]
  | cons z zs ih =>
      simp only [List.cons_append, List.orderedInsert_cons, if_neg (hxs z (by simp))]
      rw [ih fun w hw => hxs w (by simp [hw])]

/-- The bindings that `btree_remove_v` keeps. -/
def keeps [DecidableEq ν] (cf : κ → κ → Ordering) (key : κ) (val : ν) (b : κ × ν) : Bool :=
  !(cf key b.1 == .eq && b.2 == val)

/-- A part of the tree in which no key compares equal is kept whole. -/
theorem filter_keeps_eq_self [DecidableEq ν] {key : κ} {val : ν} {bindings : List (κ × ν)}
    (h : ∀ b ∈ bindings, cf key b.1 ≠ .eq) :
    bindings.filter (keeps cf key val) = bindings :=
  List.filter_eq_self.mpr fun b hb => by simp [keeps, h b hb]

variable [Std.TransCmp cf]

/-- Adding a binding inserts it before the first one with a key at least as large. -/
theorem to_list_insert {key : κ} {val : ν} {i : Item κ ν} (hs : Sorted cf i.toList) :
    (insert cf key val i).toList = i.toList.orderedInsert (KeyLE cf) (key, val) := by
  induction i with
  | nil => rfl
  | node rkey rval h left right ihl ihr =>
      obtain ⟨hleft, hright, hbelow, habove⟩ := sorted_node hs
      unfold insert
      by_cases hle : (cf key rkey).isLE
      · rw [if_pos hle, to_list_equilibrate, to_list_recalc_height, ihl hleft, to_list_node,
          ordered_insert_left (x := (key, val)) (y := (rkey, rval)) hle]
      · have hlt : cf rkey key = .lt := Std.OrientedCmp.lt_of_not_isLE hle
        rw [if_neg hle, to_list_equilibrate, to_list_recalc_height, ihr hright, to_list_node,
          ordered_insert_right (x := (key, val)) (y := (rkey, rval)) ?_ hle]
        intro b hb hble
        have hblt : cf b.1 key = .lt := Std.TransCmp.lt_of_isLE_of_lt (hbelow b hb) hlt
        exact Std.OrientedCmp.not_isLE_of_lt hblt hble

/-- Adding a binding keeps the order. -/
theorem sorted_insert {key : κ} {val : ν} {i : Item κ ν} (hs : Sorted cf i.toList) :
    Sorted cf (insert cf key val i).toList := by
  rw [to_list_insert hs]
  have : Std.Total (KeyLE cf (ν := ν)) :=
    ⟨fun a b => by
      unfold KeyLE
      cases h : cf a.1 b.1 with
      | gt => simp [Std.OrientedCmp.lt_of_gt h]
      | lt => simp
      | eq => simp⟩
  have : IsTrans (κ × ν) (KeyLE cf) :=
    ⟨fun _ _ _ hab hbc => Std.TransCmp.isLE_trans hab hbc⟩
  exact List.Pairwise.orderedInsert _ _ hs

omit [Std.TransCmp cf] in
/-- Joining the children of a node of a sorted tree gives a sorted tree. -/
theorem sorted_join_children {key : κ} {val : ν} {h : Nat} {left right : Item κ ν}
    (hs : Sorted cf (node key val h left right).toList) :
    Sorted cf (joinChildren left right).toList := by
  rw [to_list_join_children]
  exact hs.sublist (by simp)

/-- Removing the bindings of a key to a value keeps the others and their order. -/
theorem to_list_remove_aux_v [DecidableEq ν] {key : κ} {val : ν} {i : Item κ ν}
    (hs : Sorted cf i.toList) :
    (removeAuxV cf key val i).1.toList = i.toList.filter (keeps cf key val) := by
  fun_induction removeAuxV cf key val i with
  | case1 => rfl
  | case2 ikey ival h left right hlt left' released heq ih =>
      obtain ⟨hleft, -, -, habove⟩ := sorted_node hs
      have hkept : right.toList.filter (keeps cf key val) = right.toList :=
        filter_keeps_eq_self fun b hb => by
          rw [Std.TransCmp.lt_of_lt_of_isLE hlt (habove b hb)]
          decide
      have hself : keeps cf key val (ikey, ival) = true := by simp [keeps, hlt]
      rw [heq] at ih
      rw [to_list_equilibrate, to_list_node, to_list_node, List.filter_append,
        List.filter_cons_of_pos hself, hkept, ih hleft]
  | case3 ikey ival h left right hgt right' released heq ih =>
      obtain ⟨-, hright, hbelow, -⟩ := sorted_node hs
      have hkept : left.toList.filter (keeps cf key val) = left.toList :=
        filter_keeps_eq_self fun b hb => by
          rw [Std.OrientedCmp.gt_of_lt (Std.TransCmp.lt_of_isLE_of_lt (hbelow b hb)
            (Std.OrientedCmp.lt_of_gt hgt))]
          decide
      have hself : keeps cf key val (ikey, ival) = true := by simp [keeps, hgt]
      rw [heq] at ih
      rw [to_list_equilibrate, to_list_node, to_list_node, List.filter_append,
        List.filter_cons_of_pos hself, hkept, ih hright]
  | case4 ikey h left right heq rest released hrest ih =>
      have hself : keeps cf key val (ikey, val) = false := by simp [keeps, heq]
      rw [hrest] at ih
      rw [ih (sorted_join_children hs), to_list_join_children, to_list_node, List.filter_append,
        List.filter_append, List.filter_cons_of_neg (by simp [hself])]
  | case5 ikey ival h left right heq hval left' released hl right' released' hr ihl ihr =>
      obtain ⟨hleft, hright, -, -⟩ := sorted_node hs
      have hself : keeps cf key val (ikey, ival) = true := by simp [keeps, hval]
      rw [hl] at ihl
      rw [hr] at ihr
      rw [to_list_equilibrate, to_list_recalc_height, to_list_node, List.filter_append,
        List.filter_cons_of_pos hself, ihl hleft, ihr hright]

/-- `btree_lower` finds nothing only when all keys are larger, else a largest key that is not. -/
theorem lower_aux_spec (key : κ) {i : Item κ ν} (hs : Sorted cf i.toList) :
    (lowerAux cf key i = none → ∀ b ∈ i.toList, cf key b.1 = .lt) ∧
      ∀ found, lowerAux cf key i = some found → found ∈ i.toList ∧ (cf found.1 key).isLE ∧
        ∀ b ∈ i.toList, (cf b.1 key).isLE → (cf b.1 found.1).isLE := by
  induction i with
  | nil => simp [lowerAux]
  | node ikey ival h left right ihl ihr =>
      obtain ⟨hleft, hright, hbelow, habove⟩ := sorted_node hs
      unfold lowerAux
      cases hc : cf key ikey with
      | eq =>
          have hsymm : cf ikey key = .eq := Std.OrientedCmp.eq_symm hc
          refine ⟨by simp, fun found hfound => ?_⟩
          obtain rfl := Option.some.inj hfound
          refine ⟨by simp, by simp [hsymm], fun b _ hle => ?_⟩
          exact Std.TransCmp.isLE_trans hle (by simp [hc])
      | lt =>
          have hgt : ∀ b : κ × ν, (cf ikey b.1).isLE → cf key b.1 = .lt :=
            fun b hle => Std.TransCmp.lt_of_lt_of_isLE hc hle
          refine ⟨fun hnone b hb => ?_, fun found hfound => ?_⟩
          · rcases mem_node.mp hb with hb | rfl | hb
            · exact (ihl hleft).1 hnone b hb
            · exact hc
            · exact hgt b (habove b hb)
          · obtain ⟨hmem, hle, hmax⟩ := (ihl hleft).2 found hfound
            refine ⟨mem_node.mpr (.inl hmem), hle, fun b hb hble => ?_⟩
            rcases mem_node.mp hb with hb | rfl | hb
            · exact hmax b hb hble
            · exact absurd hble (Std.OrientedCmp.not_isLE_of_lt hc)
            · exact absurd hble (Std.OrientedCmp.not_isLE_of_lt (hgt b (habove b hb)))
      | gt =>
          have hlt : cf ikey key = .lt := Std.OrientedCmp.lt_of_gt hc
          simp only
          cases hr : lowerAux cf key right with
          | none =>
              refine ⟨by simp, fun found hfound => ?_⟩
              obtain rfl : (ikey, ival) = found := by simpa using hfound
              refine ⟨by simp, by simp [hlt], fun b hb hble => ?_⟩
              rcases mem_node.mp hb with hb | rfl | hb
              · exact hbelow b hb
              · exact Std.ReflCmp.isLE_rfl
              · have hblt := (ihr hright).1 hr b hb
                exact absurd hble (Std.OrientedCmp.not_isLE_of_lt hblt)
          | some best =>
              refine ⟨by simp, fun found hfound => ?_⟩
              obtain rfl : best = found := by simpa using hfound
              obtain ⟨hmem, hle, hmax⟩ := (ihr hright).2 best hr
              refine ⟨mem_node.mpr (.inr (.inr hmem)), hle, fun b hb hble => ?_⟩
              rcases mem_node.mp hb with hb | rfl | hb
              · exact Std.TransCmp.isLE_trans (hbelow b hb) (habove best hmem)
              · exact habove best hmem
              · exact hmax b hb hble

/-- `btree_upper` is `btree_lower` on the tree with its sides and the order exchanged. -/
theorem upper_aux_mirror (key : κ) (i : Item κ ν) :
    upperAux cf key i = lowerAux (fun a b => cf b a) key i.mirror := by
  induction i with
  | nil => rfl
  | node ikey ival h left right ihl ihr =>
      have hswap : cf ikey key = (cf key ikey).swap := Std.OrientedCmp.eq_swap
      unfold upperAux mirror lowerAux
      rw [hswap, ihl, ihr]
      cases cf key ikey <;> rfl

/-- `btree_upper` finds nothing only when all keys are smaller, else a smallest key that is
not. -/
theorem upper_aux_spec (key : κ) {i : Item κ ν} (hs : Sorted cf i.toList) :
    (upperAux cf key i = none → ∀ b ∈ i.toList, cf b.1 key = .lt) ∧
      ∀ found, upperAux cf key i = some found → found ∈ i.toList ∧ (cf key found.1).isLE ∧
        ∀ b ∈ i.toList, (cf key b.1).isLE → (cf found.1 b.1).isLE := by
  have hmirror : Sorted (fun a b => cf b a) i.mirror.toList := by
    rw [to_list_mirror]
    exact List.pairwise_reverse.mpr hs
  have hspec := lower_aux_spec key hmirror
  rw [← upper_aux_mirror, to_list_mirror] at hspec
  simpa only [List.mem_reverse] using hspec

end Order

end Item

/-- Unsigned comparison, read on the values. -/
theorem id_key_cmp_fun_eq (a b : UInt32) : idKeyCmpFun a b = compare a.toNat b.toNat := by
  simp only [idKeyCmpFun, ← UInt32.toNat_inj, UInt32.lt_iff_toNat_lt, Nat.compare_eq_ite_lt]
  split <;> split <;> try split
  all_goals first | rfl | omega

/-- Unsigned comparison is a total order. -/
instance : Std.TransCmp idKeyCmpFun where
  eq_swap := by
    intro a b
    rw [id_key_cmp_fun_eq, id_key_cmp_fun_eq]
    exact Std.OrientedCmp.eq_swap
  isLE_trans := by
    intro a b c hab hbc
    rw [id_key_cmp_fun_eq] at hab hbc ⊢
    exact Std.TransCmp.isLE_trans hab hbc

@[simp] theorem id_key_cmp_fun_is_le {a b : UInt32} : (idKeyCmpFun a b).isLE ↔ a ≤ b := by
  rw [id_key_cmp_fun_eq, Nat.isLE_compare, UInt32.le_iff_toNat_le]

@[simp] theorem id_key_cmp_fun_lt {a b : UInt32} : idKeyCmpFun a b = .lt ↔ a < b := by
  rw [id_key_cmp_fun_eq, Nat.compare_eq_lt, UInt32.lt_iff_toNat_lt]

@[simp] theorem id_key_cmp_fun_eq_eq {a b : UInt32} : idKeyCmpFun a b = .eq ↔ a = b := by
  rw [id_key_cmp_fun_eq, Nat.compare_eq_eq, UInt32.toNat_inj]

end Kogata.Common
