import Kogata.Common.BtreeOrder
import Kogata.Lib.Bag

/-!
# The ordered index is a multiset of bindings

`Refines` relates an index to the multiset of the bindings that have been added and not removed.
Every call keeps it (`refines_run`), and under it the lookups find what their comments promise
(`Refines.lookups`), whatever shape the tree has.
-/

namespace Kogata.Common

open Lib.Bag

variable {κ ν : Type}

namespace Item

/-- The binding's key compares equal. -/
def hits (cf : κ → κ → Ordering) (key : κ) (b : κ × ν) : Bool :=
  cf key b.1 == .eq

section Order

variable {cf : κ → κ → Ordering}

/-- In a part of the tree in which no key compares equal, nothing is visited or removed. -/
theorem filter_hits_eq_nil {key : κ} {bindings : List (κ × ν)}
    (h : ∀ b ∈ bindings, cf key b.1 ≠ .eq) : bindings.filter (hits cf key) = [] :=
  List.filter_eq_nil_iff.mpr fun b hb => by simp [hits, h b hb]

theorem filter_misses_eq_self {key : κ} {bindings : List (κ × ν)}
    (h : ∀ b ∈ bindings, cf key b.1 ≠ .eq) :
    bindings.filter (fun b => !hits cf key b) = bindings :=
  List.filter_eq_self.mpr fun b hb => by simp [hits, h b hb]

variable [Std.TransCmp cf]

/-- Below a node whose key is larger, on the right, no key compares equal. -/
theorem ne_eq_of_lt {key ikey : κ} {right : Item κ ν} (hlt : cf key ikey = .lt)
    (habove : ∀ b ∈ right.toList, (cf ikey b.1).isLE) :
    ∀ b ∈ right.toList, cf key b.1 ≠ .eq := by
  intro b hb
  rw [Std.TransCmp.lt_of_lt_of_isLE hlt (habove b hb)]
  decide

/-- Below a node whose key is smaller, on the left, no key compares equal. -/
theorem ne_eq_of_gt {key ikey : κ} {left : Item κ ν} (hgt : cf key ikey = .gt)
    (hbelow : ∀ b ∈ left.toList, (cf b.1 ikey).isLE) :
    ∀ b ∈ left.toList, cf key b.1 ≠ .eq := by
  intro b hb
  rw [Std.OrientedCmp.gt_of_lt (Std.TransCmp.lt_of_isLE_of_lt (hbelow b hb)
    (Std.OrientedCmp.lt_of_gt hgt))]
  decide

/-- `btree_iter_on` visits the bindings of the key, in order. -/
theorem iter_on_aux_eq (key : κ) {i : Item κ ν} (hs : Sorted cf i.toList) :
    iterOnAux cf key i = i.toList.filter (hits cf key) := by
  induction i with
  | nil => rfl
  | node ikey ival h left right ihl ihr =>
      obtain ⟨hleft, hright, hbelow, habove⟩ := sorted_node hs
      unfold iterOnAux
      cases hc : cf key ikey with
      | eq =>
          have hself : hits cf key (ikey, ival) = true := by simp [hits, hc]
          simp only
          rw [ihl hleft, ihr hright, to_list_node, List.filter_append,
            List.filter_cons_of_pos hself]
      | lt =>
          have hself : ¬ hits cf key (ikey, ival) = true := by simp [hits, hc]
          simp only
          rw [ihl hleft, to_list_node, List.filter_append, List.filter_cons_of_neg hself,
            filter_hits_eq_nil (ne_eq_of_lt hc habove), List.append_nil]
      | gt =>
          have hself : ¬ hits cf key (ikey, ival) = true := by simp [hits, hc]
          simp only
          rw [ihr hright, to_list_node, List.filter_append, List.filter_cons_of_neg hself,
            filter_hits_eq_nil (ne_eq_of_gt hc hbelow), List.nil_append]

/-- `btree_find` finds a binding of the key, if there is one. -/
theorem find_aux_spec (key : κ) {i : Item κ ν} (hs : Sorted cf i.toList) :
    (findAux cf key i = none → ∀ b ∈ i.toList, cf key b.1 ≠ .eq) ∧
      ∀ found, findAux cf key i = some found → found ∈ i.toList ∧ cf key found.1 = .eq := by
  induction i with
  | nil => simp [findAux]
  | node ikey ival h left right ihl ihr =>
      obtain ⟨hleft, hright, hbelow, habove⟩ := sorted_node hs
      unfold findAux
      cases hc : cf key ikey with
      | eq =>
          refine ⟨by simp, fun found hfound => ?_⟩
          obtain rfl := Option.some.inj hfound
          exact ⟨by simp, hc⟩
      | lt =>
          refine ⟨fun hnone b hb => ?_, fun found hfound => ?_⟩
          · rcases mem_node.mp hb with hb | rfl | hb
            · exact (ihl hleft).1 hnone b hb
            · simp [hc]
            · exact ne_eq_of_lt hc habove b hb
          · obtain ⟨hmem, heq⟩ := (ihl hleft).2 found hfound
            exact ⟨mem_node.mpr (.inl hmem), heq⟩
      | gt =>
          refine ⟨fun hnone b hb => ?_, fun found hfound => ?_⟩
          · rcases mem_node.mp hb with hb | rfl | hb
            · exact ne_eq_of_gt hc hbelow b hb
            · simp [hc]
            · exact (ihr hright).1 hnone b hb
          · obtain ⟨hmem, heq⟩ := (ihr hright).2 found hfound
            exact ⟨mem_node.mpr (.inr (.inr hmem)), heq⟩

/-- Removing a key keeps the other bindings and their order, and releases those of the key. -/
theorem remove_aux_spec {key : κ} {i : Item κ ν} (hs : Sorted cf i.toList) :
    (removeAux cf key i).1.toList = i.toList.filter (fun b => !hits cf key b) ∧
      (removeAux cf key i).2.Perm (i.toList.filter (hits cf key)) := by
  fun_induction removeAux cf key i with
  | case1 => exact ⟨rfl, .refl _⟩
  | case2 ikey ival h left right hlt left' released heq ih =>
      obtain ⟨hleft, -, -, habove⟩ := sorted_node hs
      have hself : ¬ hits cf key (ikey, ival) = true := by simp [hits, hlt]
      have hother := ne_eq_of_lt hlt habove
      rw [heq] at ih
      obtain ⟨hrest, hreleased⟩ := ih hleft
      constructor
      · rw [to_list_equilibrate, to_list_node, to_list_node, List.filter_append,
          List.filter_cons_of_pos (by simpa using hself), filter_misses_eq_self hother, hrest]
      · rw [to_list_node, List.filter_append, List.filter_cons_of_neg hself,
          filter_hits_eq_nil hother, List.append_nil]
        exact hreleased
  | case3 ikey ival h left right hgt right' released heq ih =>
      obtain ⟨-, hright, hbelow, -⟩ := sorted_node hs
      have hself : ¬ hits cf key (ikey, ival) = true := by simp [hits, hgt]
      have hother := ne_eq_of_gt hgt hbelow
      rw [heq] at ih
      obtain ⟨hrest, hreleased⟩ := ih hright
      constructor
      · rw [to_list_equilibrate, to_list_node, to_list_node, List.filter_append,
          List.filter_cons_of_pos (by simpa using hself), filter_misses_eq_self hother, hrest]
      · rw [to_list_node, List.filter_append, List.filter_cons_of_neg hself,
          filter_hits_eq_nil hother, List.nil_append]
        exact hreleased
  | case4 ikey ival h left right heq rest released hrest ih =>
      have hself : hits cf key (ikey, ival) = true := by simp [hits, heq]
      rw [hrest] at ih
      obtain ⟨hkept, hreleased⟩ := ih (sorted_join_children hs)
      rw [to_list_join_children, List.filter_append] at hkept hreleased
      constructor
      · rw [hkept, to_list_node, List.filter_append, List.filter_cons_of_neg (by simpa using hself)]
      · rw [to_list_node, List.filter_append, List.filter_cons_of_pos hself]
        exact (hreleased.cons _).trans List.perm_middle.symm

/-- What the removal of a key and value releases. -/
theorem remove_aux_v_released [DecidableEq ν] {key : κ} {val : ν} {i : Item κ ν}
    (hs : Sorted cf i.toList) :
    (removeAuxV cf key val i).2.Perm (i.toList.filter fun b => !keeps cf key val b) := by
  have hnone : ∀ bindings : List (κ × ν), (∀ b ∈ bindings, cf key b.1 ≠ .eq) →
      bindings.filter (fun b => !keeps cf key val b) = [] := fun bindings h =>
    List.filter_eq_nil_iff.mpr fun b hb => by simp [keeps, h b hb]
  fun_induction removeAuxV cf key val i with
  | case1 => exact .refl _
  | case2 ikey ival h left right hlt left' released heq ih =>
      obtain ⟨hleft, -, -, habove⟩ := sorted_node hs
      have hself : keeps cf key val (ikey, ival) = true := by simp [keeps, hlt]
      rw [heq] at ih
      rw [to_list_node, List.filter_append, List.filter_cons_of_neg (by simp [hself]),
        hnone _ (ne_eq_of_lt hlt habove), List.append_nil]
      exact ih hleft
  | case3 ikey ival h left right hgt right' released heq ih =>
      obtain ⟨-, hright, hbelow, -⟩ := sorted_node hs
      have hself : keeps cf key val (ikey, ival) = true := by simp [keeps, hgt]
      rw [heq] at ih
      rw [to_list_node, List.filter_append, List.filter_cons_of_neg (by simp [hself]),
        hnone _ (ne_eq_of_gt hgt hbelow), List.nil_append]
      exact ih hright
  | case4 ikey h left right heq rest released hrest ih =>
      have hself : keeps cf key val (ikey, val) = false := by simp [keeps, heq]
      rw [hrest] at ih
      have hreleased := ih (sorted_join_children hs)
      rw [to_list_join_children, List.filter_append] at hreleased
      rw [to_list_node, List.filter_append, List.filter_cons_of_pos (by simp [hself])]
      exact (hreleased.cons _).trans List.perm_middle.symm
  | case5 ikey ival h left right heq hval left' released hl right' released' hr ihl ihr =>
      obtain ⟨hleft, hright, -, -⟩ := sorted_node hs
      have hself : keeps cf key val (ikey, ival) = true := by simp [keeps, hval]
      rw [hl] at ihl
      rw [hr] at ihr
      rw [to_list_node, List.filter_append, List.filter_cons_of_neg (by simp [hself])]
      exact (ihl hleft).append (ihr hright)

end Order

end Item

open Item

/-- A call that changes an index; `allocated` is the answer of `malloc`. -/
inductive BtreeCall (κ ν : Type) where
  | add (allocated : Bool) (key : κ) (val : ν)
  | remove (key : κ)
  | removeV (key : κ) (val : ν)
  deriving DecidableEq

section Runs

variable [DecidableEq ν] {cf : κ → κ → Ordering}

/-- The call on an index, with the bindings that it releases. -/
def BtreeCall.run (t : Btree cf ν) : BtreeCall κ ν → Btree cf ν × List (κ × ν)
  | .add allocated key val => ((t.add allocated key val).getD t, [])
  | .remove key => t.remove key
  | .removeV key val => t.removeV key val

/-- The call on the multiset of the bindings, with those that it removes. -/
def BtreeCall.spec (cf : κ → κ → Ordering) (bindings : Multiset (κ × ν)) :
    BtreeCall κ ν → Multiset (κ × ν) × Multiset (κ × ν)
  | .add allocated key val => (if allocated then (key, val) ::ₘ bindings else bindings, 0)
  | .remove key =>
      (bindings.filter fun b => cf key b.1 ≠ .eq, bindings.filter fun b => cf key b.1 = .eq)
  | .removeV key val =>
      (bindings.filter fun b => ¬ (cf key b.1 = .eq ∧ b.2 = val),
        bindings.filter fun b => cf key b.1 = .eq ∧ b.2 = val)

/-- A sequence of calls, with what each of them releases. -/
def runCalls (t : Btree cf ν) : List (BtreeCall κ ν) → Btree cf ν × List (List (κ × ν))
  | [] => (t, [])
  | call :: rest =>
      let (t, released) := call.run t
      let (t, others) := runCalls t rest
      (t, released :: others)

/-- The same sequence on the multiset. -/
def specCalls (cf : κ → κ → Ordering) (bindings : Multiset (κ × ν)) :
    List (BtreeCall κ ν) → Multiset (κ × ν) × List (Multiset (κ × ν))
  | [] => (bindings, [])
  | call :: rest =>
      let (bindings, removed) := call.spec cf bindings
      let (bindings, others) := specCalls cf bindings rest
      (bindings, removed :: others)

/-- The index holds exactly the bindings, sorted by key, and counts them. -/
structure Refines (t : Btree cf ν) (bindings : Multiset (κ × ν)) : Prop where
  sorted : Sorted cf t.toList
  contents : (t.toList : Multiset (κ × ν)) = bindings
  count : t.count = t.toList.length

variable [Std.TransCmp cf]

/-- One call keeps the relation and releases exactly what it removes. -/
theorem refines_call {t : Btree cf ν} {bindings : Multiset (κ × ν)} (h : Refines t bindings)
    (call : BtreeCall κ ν) : Refines (call.run t).1 (call.spec cf bindings).1 ∧
      ((call.run t).2 : Multiset (κ × ν)) = (call.spec cf bindings).2 := by
  obtain ⟨hs, rfl, hcount⟩ := h
  cases call with
  | add allocated key val =>
      refine ⟨?_, rfl⟩
      cases allocated with
      | false => exact ⟨hs, rfl, hcount⟩
      | true =>
          have hlist : (t.root.insert cf key val).toList = _ := to_list_insert hs
          have hperm := List.perm_orderedInsert (KeyLE cf) (key, val) t.root.toList
          refine ⟨sorted_insert hs, ?_, ?_⟩
          · show ((t.root.insert cf key val).toList : Multiset (κ × ν)) = _
            rw [hlist]
            exact Multiset.coe_eq_coe.mpr hperm
          · show t.nitems + 1 = ((t.root.insert cf key val).toList.length : Int)
            rw [hlist, hperm.length_eq]
            change t.nitems = (t.root.toList.length : Int) at hcount
            rw [hcount, List.length_cons]
            rfl
  | remove key =>
      have hspec : (t.root.removeAux cf key).1.toList = _ ∧ _ := remove_aux_spec hs
      obtain ⟨hkept, hreleased⟩ := hspec
      refine ⟨⟨?_, ?_, ?_⟩, ?_⟩
      · show Sorted cf (t.root.removeAux cf key).1.toList
        rw [hkept]
        exact hs.filter _
      · show ((t.root.removeAux cf key).1.toList : Multiset (κ × ν)) = _
        rw [hkept]
        exact coe_filter fun b => by simp [hits]
      · show t.nitems - ((t.root.removeAux cf key).2.length : Int) =
          ((t.root.removeAux cf key).1.toList.length : Int)
        change t.nitems = (t.root.toList.length : Int) at hcount
        rw [hcount]
        exact length_of_released hkept (by simpa using hreleased)
      · show ((t.root.removeAux cf key).2 : Multiset (κ × ν)) = _
        rw [Multiset.coe_eq_coe.mpr hreleased]
        exact coe_filter fun b => by simp [hits]
  | removeV key val =>
      have hkept : (t.root.removeAuxV cf key val).1.toList = _ := to_list_remove_aux_v hs
      have hreleased : (t.root.removeAuxV cf key val).2.Perm _ := remove_aux_v_released hs
      refine ⟨⟨?_, ?_, ?_⟩, ?_⟩
      · show Sorted cf (t.root.removeAuxV cf key val).1.toList
        rw [hkept]
        exact hs.filter _
      · show ((t.root.removeAuxV cf key val).1.toList : Multiset (κ × ν)) = _
        rw [hkept]
        exact coe_filter fun b => by simp [keeps, imp_iff_not_or]
      · show t.nitems - ((t.root.removeAuxV cf key val).2.length : Int) =
          ((t.root.removeAuxV cf key val).1.toList.length : Int)
        change t.nitems = (t.root.toList.length : Int) at hcount
        rw [hcount]
        exact length_of_released hkept hreleased
      · show ((t.root.removeAuxV cf key val).2 : Multiset (κ × ν)) = _
        rw [Multiset.coe_eq_coe.mpr hreleased]
        exact coe_filter fun b => by simp [keeps]

/-- Every sequence of calls keeps the relation, and each call releases exactly what it
removes. -/
theorem refines_run {t : Btree cf ν} {bindings : Multiset (κ × ν)} (h : Refines t bindings)
    (calls : List (BtreeCall κ ν)) :
    Refines (runCalls t calls).1 (specCalls cf bindings calls).1 ∧
      (runCalls t calls).2.map Multiset.ofList =
        (specCalls cf bindings calls).2 := by
  induction calls generalizing t bindings with
  | nil => exact ⟨h, rfl⟩
  | cons call rest ih =>
      obtain ⟨hcall, hreleased⟩ := refines_call h call
      obtain ⟨hrest, hothers⟩ := ih hcall
      exact ⟨hrest, congrArg₂ List.cons hreleased hothers⟩

omit [DecidableEq ν] [Std.TransCmp cf] in
/-- What the comments of `btree.h` promise of the lookups. -/
structure Lookups (t : Btree cf ν) (bindings : Multiset (κ × ν)) : Prop where
  find : ∀ key, (∃ b ∈ bindings, cf key b.1 = .eq) →
    ∃ b ∈ bindings, cf key b.1 = .eq ∧ t.find key = some b.2
  findNone : ∀ key, (∀ b ∈ bindings, cf key b.1 ≠ .eq) → t.find key = none
  lower : ∀ key, (∃ b ∈ bindings, cf key b.1 = .eq) →
    ∃ b ∈ bindings, cf key b.1 = .eq ∧ t.lower key = some b
  lowerNear : ∀ key b, (∀ b ∈ bindings, cf key b.1 ≠ .eq) → t.lower key = some b →
    b ∈ bindings ∧ cf b.1 key = .lt ∧ ∀ c ∈ bindings, cf c.1 key = .lt → (cf c.1 b.1).isLE
  lowerNone : ∀ key, t.lower key = none ↔ ∀ b ∈ bindings, cf key b.1 = .lt
  upper : ∀ key, (∃ b ∈ bindings, cf key b.1 = .eq) →
    ∃ b ∈ bindings, cf key b.1 = .eq ∧ t.upper key = some b
  upperNear : ∀ key b, (∀ b ∈ bindings, cf key b.1 ≠ .eq) → t.upper key = some b →
    b ∈ bindings ∧ cf key b.1 = .lt ∧ ∀ c ∈ bindings, cf key c.1 = .lt → (cf b.1 c.1).isLE
  upperNone : ∀ key, t.upper key = none ↔ ∀ b ∈ bindings, cf b.1 key = .lt
  iterOn : ∀ key, (t.iterOn key : Multiset (κ × ν)) = bindings.filter fun b => cf key b.1 = .eq

omit [DecidableEq ν] in
/-- A key that is at most and at least another one compares equal to it. -/
theorem cmp_eq_of_le {a b : κ} (hab : (cf a b).isLE) (hba : (cf b a).isLE) : cf a b = .eq := by
  cases h : cf a b with
  | eq => rfl
  | lt => exact absurd hba (Std.OrientedCmp.not_isLE_of_lt h)
  | gt => simp [h] at hab

omit [DecidableEq ν] in
/-- Under the relation the lookups keep their promises. -/
theorem Refines.lookups {t : Btree cf ν} {bindings : Multiset (κ × ν)} (h : Refines t bindings) :
    Lookups t bindings := by
  obtain ⟨hs, rfl, -⟩ := h
  have hmem : ∀ b, b ∈ (t.toList : Multiset (κ × ν)) ↔ b ∈ t.root.toList := fun b => Iff.rfl
  constructor
  · rintro key ⟨b, hb, heq⟩
    obtain ⟨hnone, hsome⟩ := find_aux_spec key hs
    cases hfind : t.root.findAux cf key with
    | none => exact absurd heq (hnone hfind b hb)
    | some found =>
        obtain ⟨hfound, hkey⟩ := hsome found hfind
        exact ⟨found, hfound, hkey, congrArg (Option.map Prod.snd) hfind⟩
  · intro key hnone
    cases hfind : t.root.findAux cf key with
    | none => exact congrArg (Option.map Prod.snd) hfind
    | some found =>
        obtain ⟨hfound, hkey⟩ := (find_aux_spec key hs).2 found hfind
        exact absurd hkey (hnone found hfound)
  · rintro key ⟨b, hb, heq⟩
    obtain ⟨hnone, hsome⟩ := lower_aux_spec key hs
    cases hfind : t.root.lowerAux cf key with
    | none =>
        rw [hnone hfind b hb] at heq
        cases heq
    | some found =>
        obtain ⟨hfound, hle, hmax⟩ := hsome found hfind
        have hsymm : cf b.1 key = .eq := Std.OrientedCmp.eq_symm heq
        have hge : (cf key found.1).isLE :=
          Std.TransCmp.isLE_trans (by simp [heq]) (hmax b hb (by simp [hsymm]))
        exact ⟨found, hfound, cmp_eq_of_le hge hle, hfind⟩
  · intro key b hnone hfind
    obtain ⟨hfound, hle, hmax⟩ := (lower_aux_spec key hs).2 b hfind
    refine ⟨hfound, ?_, fun c hc hlt => hmax c hc (by simp [hlt])⟩
    cases hcmp : cf b.1 key with
    | lt => rfl
    | eq => exact absurd (Std.OrientedCmp.eq_symm hcmp) (hnone b hfound)
    | gt => simp [hcmp] at hle
  · intro key
    refine ⟨(lower_aux_spec key hs).1, fun hall => ?_⟩
    cases hfind : t.root.lowerAux cf key with
    | none => exact hfind
    | some found =>
        obtain ⟨hfound, hle, -⟩ := (lower_aux_spec key hs).2 found hfind
        exact absurd hle (Std.OrientedCmp.not_isLE_of_lt (hall found hfound))
  · rintro key ⟨b, hb, heq⟩
    obtain ⟨hnone, hsome⟩ := upper_aux_spec key hs
    have hsymm : cf b.1 key = .eq := Std.OrientedCmp.eq_symm heq
    cases hfind : t.root.upperAux cf key with
    | none =>
        rw [hnone hfind b hb] at hsymm
        cases hsymm
    | some found =>
        obtain ⟨hfound, hle, hmin⟩ := hsome found hfind
        have hge : (cf found.1 key).isLE :=
          Std.TransCmp.isLE_trans (hmin b hb (by simp [heq])) (by simp [hsymm])
        exact ⟨found, hfound, cmp_eq_of_le hle hge, hfind⟩
  · intro key b hnone hfind
    obtain ⟨hfound, hle, hmin⟩ := (upper_aux_spec key hs).2 b hfind
    refine ⟨hfound, ?_, fun c hc hlt => hmin c hc (by simp [hlt])⟩
    cases hcmp : cf key b.1 with
    | lt => rfl
    | eq => exact absurd hcmp (hnone b hfound)
    | gt => simp [hcmp] at hle
  · intro key
    refine ⟨(upper_aux_spec key hs).1, fun hall => ?_⟩
    cases hfind : t.root.upperAux cf key with
    | none => exact hfind
    | some found =>
        obtain ⟨hfound, hle, -⟩ := (upper_aux_spec key hs).2 found hfind
        exact absurd hle (Std.OrientedCmp.not_isLE_of_lt (hall found hfound))
  · intro key
    show ((t.root.iterOnAux cf key : List (κ × ν)) : Multiset (κ × ν)) = _
    rw [iter_on_aux_eq key hs]
    exact coe_filter fun b => by simp [hits]

/-- After every sequence of calls on a new index, it holds the bindings that have been added and
not removed, sorted by key; each call has released exactly what it removed; and the lookups keep
the promises of `btree.h`. -/
theorem btree_refines (calls : List (BtreeCall κ ν)) :
    Refines (runCalls (.create : Btree cf ν) calls).1 (specCalls cf 0 calls).1 ∧
      (runCalls (.create : Btree cf ν) calls).2.map Multiset.ofList =
        (specCalls cf 0 calls).2 ∧
      Lookups (runCalls (.create : Btree cf ν) calls).1 (specCalls cf 0 calls).1 := by
  have hnew : Refines (Btree.create : Btree cf ν) 0 := ⟨List.Pairwise.nil, rfl, rfl⟩
  obtain ⟨hrefines, hreleased⟩ := refines_run hnew calls
  exact ⟨hrefines, hreleased, hrefines.lookups⟩

/-- Of three bindings, two of one key, removing the key releases two and keeps one. -/
theorem btree_refines_two_equal :
    Refines (runCalls (.create : Btree idKeyCmpFun Nat)
        [.add true 1 10, .add true 2 20, .add true 1 11, .remove 1]).1 {(2, 20)} := by
  have hrun := (@btree_refines UInt32 Nat _ idKeyCmpFun _
    [.add true 1 10, .add true 2 20, .add true 1 11, .remove 1]).1
  have hspec : (specCalls idKeyCmpFun (0 : Multiset (UInt32 × Nat))
      [.add true 1 10, .add true 2 20, .add true 1 11, .remove 1]).1 = {(2, 20)} := by
    decide
  rwa [hspec] at hrun

end Runs

end Kogata.Common
