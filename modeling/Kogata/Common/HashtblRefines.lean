import Kogata.Common.Hashtbl
import Kogata.Lib.Bag
import Mathlib.Data.List.Pairwise

/-!
# The hash table is a finite map

`WellFormed` is the invariant of the chains: a binding lies in the slot of its key, and no two
bindings have equal keys. Under it, each call does to the list of all bindings (`Hashtbl.iter`)
what a reference map says, up to the order; resizing only reorders it.
-/

namespace Kogata.Common

open Hashtbl Lib.Bag

variable {κ ν : Type}

/-- The equality function is an equivalence and the hash function is constant on its classes. -/
class LawfulKeys (funs : KeyFuns κ) : Prop where
  refl : ∀ a, funs.ef a a = true
  symm : ∀ a b, funs.ef a b = true → funs.ef b a = true
  trans : ∀ a b c, funs.ef a b = true → funs.ef b c = true → funs.ef a c = true
  hash : ∀ a b, funs.ef a b = true → funs.hf a = funs.hf b

/-- Keys that are compared as they are. -/
theorem LawfulKeys.of_beq [BEq κ] [LawfulBEq κ] (hf : κ → UInt32) :
    LawfulKeys { ef := fun a b => a == b, hf := hf } where
  refl := fun _ => beq_self_eq_true _
  symm := fun _ _ h => beq_iff_eq.mpr (eq_of_beq h).symm
  trans := fun _ _ _ hab hbc => beq_iff_eq.mpr ((eq_of_beq hab).trans (eq_of_beq hbc))
  hash := fun _ _ h => congrArg hf (eq_of_beq h)

/-- The bindings have unequal keys. -/
def Distinct (funs : KeyFuns κ) (bindings : List (κ × ν)) : Prop :=
  bindings.Pairwise fun a b => funs.ef a.1 b.1 = false

/-- The invariant of a table. -/
structure WellFormed {funs : KeyFuns κ} (t : Hashtbl funs ν) : Prop where
  size_pos : 0 < t.size
  slots : ∀ s, ∀ b ∈ t.items s, s = slot funs b.1 t.size
  distinct : Distinct funs t.iter
  count : t.nitems = t.iter.length

section Chains

variable {funs : KeyFuns κ}

theorem slot_lt (funs : KeyFuns κ) (key : κ) {nslots : Nat} (h : 0 < nslots) :
    slot funs key nslots < nslots :=
  Nat.mod_lt _ h

theorem mem_iter {t : Hashtbl funs ν} {b : κ × ν} :
    b ∈ t.iter ↔ ∃ s < t.size, b ∈ t.items s := by
  simp [Hashtbl.iter]

/-- One more binding in a chain is one more binding in all chains. -/
theorem flat_map_update_cons {n s : Nat} (items : Nat → List (κ × ν)) (x : κ × ν) (hs : s < n) :
    ((List.range n).flatMap (Function.update items s (x :: items s))).Perm
      (x :: (List.range n).flatMap items) := by
  induction n with
  | zero => exact absurd hs (Nat.not_lt_zero s)
  | succ n ih =>
      rw [List.range_succ, List.flatMap_append, List.flatMap_append]
      simp only [List.flatMap_cons, List.flatMap_nil, List.append_nil]
      by_cases hlast : s = n
      · subst hlast
        have hsame : (List.range s).flatMap (Function.update items s (x :: items s)) =
            (List.range s).flatMap items := by
          refine List.flatMap_congr fun i hi => ?_
          rw [Function.update_of_ne (Nat.ne_of_lt (List.mem_range.mp hi))]
        rw [hsame, Function.update_self]
        exact List.perm_middle
      · rw [Function.update_of_ne (Ne.symm hlast)]
        exact (ih (by omega)).append_right _

/-- Moving the bindings into new chains keeps them all. -/
theorem rehash_perm (funs : KeyFuns κ) {nsize : Nat} (hsize : 0 < nsize) (bindings : List (κ × ν))
    (items : Nat → List (κ × ν)) :
    ((List.range nsize).flatMap (rehash funs nsize bindings items)).Perm
      (bindings ++ (List.range nsize).flatMap items) := by
  induction bindings generalizing items with
  | nil => exact .refl _
  | cons x rest ih =>
      unfold rehash
      refine (ih _).trans ?_
      refine ((flat_map_update_cons items x (slot_lt funs x.1 hsize)).append_left rest).trans ?_
      exact List.perm_middle

/-- Every binding lands in the slot of its key. -/
theorem rehash_slots {nsize : Nat} (bindings : List (κ × ν)) {items : Nat → List (κ × ν)}
    (h : ∀ s, ∀ b ∈ items s, s = slot funs b.1 nsize) :
    ∀ s, ∀ b ∈ rehash funs nsize bindings items s, s = slot funs b.1 nsize := by
  induction bindings generalizing items with
  | nil => exact h
  | cons x rest ih =>
      unfold rehash
      refine ih fun s b hb => ?_
      by_cases hs : s = slot funs x.1 nsize
      · rw [hs, Function.update_self] at hb
        rcases List.mem_cons.mp hb with rfl | hb
        · exact hs
        · rw [hs]
          exact h _ b hb
      · rw [Function.update_of_ne hs] at hb
        exact h s b hb

variable [LawfulKeys funs]

theorem ef_comm (a b : κ) : funs.ef a b = funs.ef b a :=
  Bool.eq_iff_iff.mpr ⟨LawfulKeys.symm a b, LawfulKeys.symm b a⟩

/-- The order does not matter. -/
theorem Distinct.perm {xs ys : List (κ × ν)} (h : Distinct funs xs) (hperm : xs.Perm ys) :
    Distinct funs ys :=
  (hperm.pairwise_iff fun {a b} hab => by rw [ef_comm]; exact hab).mp h

/-- Bindings of equal keys lie in the same slot. -/
theorem slot_eq_of_ef {a b : κ} (h : funs.ef a b = true) (nslots : Nat) :
    slot funs a nslots = slot funs b nslots :=
  congrArg (slotOfHash · nslots) (LawfulKeys.hash a b h)

omit [LawfulKeys funs] in
/-- `hashtbl_check_size` leaves the table, or moves all bindings to another number of chains. -/
theorem check_size_cases (t : Hashtbl funs ν) (allocated : Bool) :
    t.checkSize allocated = t ∨ ∃ nsize, 0 < nsize ∧ t.checkSize allocated =
      { t with size := nsize, items := rehash funs nsize t.iter fun _ => [] } := by
  unfold checkSize
  generalize (if 4 * t.nitems > 3 * t.size then t.size * 2
    else if 4 * t.nitems < t.size then t.size / 2 else 0) = nsize
  by_cases hsize : nsize ≠ 0 ∧ nsize ≥ defaultHtInitSize
  · cases allocated with
    | true => exact .inr ⟨nsize, Nat.pos_of_ne_zero hsize.1, if_pos hsize⟩
    | false => exact .inl (if_pos hsize)
  · exact .inl (if_neg hsize)

/-- `hashtbl_check_size` keeps the invariant and reorders the bindings. -/
theorem check_size_spec {t : Hashtbl funs ν} (h : WellFormed t) (allocated : Bool) :
    WellFormed (t.checkSize allocated) ∧ (t.checkSize allocated).iter.Perm t.iter := by
  rcases check_size_cases t allocated with hsame | ⟨nsize, hsize, hresized⟩
  · rw [hsame]
    exact ⟨h, .refl _⟩
  · rw [hresized]
    have hperm : ((List.range nsize).flatMap (rehash funs nsize t.iter fun _ => [])).Perm
        t.iter := by
      have hmoved := rehash_perm funs hsize t.iter fun _ => []
      have hempty : (List.range nsize).flatMap (fun _ => ([] : List (κ × ν))) = [] := by simp
      rwa [hempty, List.append_nil] at hmoved
    refine ⟨⟨hsize, ?_, h.distinct.perm hperm.symm, ?_⟩, hperm⟩
    · exact rehash_slots t.iter fun s b hb => by cases hb
    · exact h.count.trans hperm.length_eq.symm

omit [LawfulKeys funs] in
/-- The bindings of a chain have unequal keys. -/
theorem WellFormed.chain {t : Hashtbl funs ν} (h : WellFormed t) {s : Nat} (hs : s < t.size) :
    Distinct funs (t.items s) := by
  have hmem : t.items s ∈ (List.range t.size).map t.items :=
    List.mem_map.mpr ⟨s, List.mem_range.mpr hs, rfl⟩
  exact h.distinct.sublist (List.sublist_flatten_of_mem hmem)

/-- A binding of the key is in the key's chain. -/
theorem WellFormed.slot_of_ef {t : Hashtbl funs ν} (h : WellFormed t) {key : κ} {s : Nat}
    {b : κ × ν} (hb : b ∈ t.items s) (hef : funs.ef b.1 key = true) : s = slot funs key t.size :=
  (h.slots s b hb).trans (slot_eq_of_ef hef t.size)

/-- Behind a binding of the key no other has it. -/
theorem ef_behind {key : κ} {x : κ × ν} {rest : List (κ × ν)}
    (hhead : ∀ b ∈ rest, funs.ef x.1 b.1 = false) (hx : funs.ef x.1 key = true) :
    ∀ b ∈ rest, funs.ef b.1 key = false := by
  intro b hb
  by_contra htrue
  have hb' : funs.ef x.1 b.1 = true :=
    LawfulKeys.trans _ _ _ hx (LawfulKeys.symm _ _ (by simpa using htrue))
  rw [hhead b hb] at hb'
  cases hb'

/-- Unlinking removes all bindings of the key, which are at most one. -/
theorem unlink_spec (key : κ) {chain : List (κ × ν)} (h : Distinct funs chain) :
    (unlink funs key chain).2 = chain.filter (fun b => !funs.ef b.1 key) ∧
      (unlink funs key chain).1.toList = chain.filter (fun b => funs.ef b.1 key) := by
  induction chain with
  | nil => exact ⟨rfl, rfl⟩
  | cons x rest ih =>
      obtain ⟨hhead, hrest⟩ := List.pairwise_cons.mp h
      unfold unlink
      cases hx : funs.ef x.1 key with
      | true =>
          have hothers := ef_behind hhead hx
          have hkept : rest.filter (fun b => !funs.ef b.1 key) = rest :=
            List.filter_eq_self.mpr fun b hb => by simp [hothers b hb]
          have hnone : rest.filter (fun b => funs.ef b.1 key) = [] :=
            List.filter_eq_nil_iff.mpr fun b hb => by simp [hothers b hb]
          have hself : (x :: rest).filter (fun b => funs.ef b.1 key) =
              x :: rest.filter (fun b => funs.ef b.1 key) := List.filter_cons_of_pos hx
          rw [List.filter_cons_of_neg (by simp [hx]), hself, hkept, hnone]
          exact ⟨rfl, rfl⟩
      | false =>
          obtain ⟨hkept, hfound⟩ := ih hrest
          rw [List.filter_cons_of_pos (by simp [hx]), List.filter_cons_of_neg (by simp [hx]),
            ← hkept, ← hfound]
          exact ⟨rfl, rfl⟩

end Chains

section Calls

variable {funs : KeyFuns κ} [LawfulKeys funs] {t : Hashtbl funs ν}

/-- Removing the key from its chain removes it from all chains. -/
theorem update_filter (h : WellFormed t) (key : κ) :
    Function.update t.items (slot funs key t.size)
        ((t.items (slot funs key t.size)).filter fun b => !funs.ef b.1 key) =
      fun s => (t.items s).filter fun b => !funs.ef b.1 key := by
  funext s
  by_cases hs : s = slot funs key t.size
  · rw [hs, Function.update_self]
  · rw [Function.update_of_ne hs]
    refine (List.filter_eq_self.mpr fun b hb => ?_).symm
    by_contra hef
    exact hs (h.slot_of_ef hb (by simpa using hef))

omit [LawfulKeys funs] in
/-- Of lists that are all empty but one, that one remains. -/
theorem flat_map_single {n s : Nat} (f : Nat → List (κ × ν)) (hs : s < n)
    (h : ∀ i, i ≠ s → f i = []) : (List.range n).flatMap f = f s := by
  induction n with
  | zero => exact absurd hs (Nat.not_lt_zero s)
  | succ n ih =>
      rw [List.range_succ, List.flatMap_append]
      simp only [List.flatMap_cons, List.flatMap_nil, List.append_nil]
      by_cases hlast : s = n
      · subst hlast
        have hbefore : (List.range s).flatMap f = [] :=
          List.flatMap_eq_nil_iff.mpr fun i hi => h i (Nat.ne_of_lt (List.mem_range.mp hi))
        rw [hbefore, List.nil_append]
      · rw [ih (by omega), h n (Ne.symm hlast), List.append_nil]

/-- The bindings of the key are those of its chain. -/
theorem filter_iter (h : WellFormed t) (key : κ) :
    t.iter.filter (fun b => funs.ef b.1 key) =
      (t.items (slot funs key t.size)).filter fun b => funs.ef b.1 key := by
  rw [Hashtbl.iter, List.filter_flatMap]
  refine flat_map_single _ (slot_lt funs key h.size_pos) fun s hs => ?_
  refine List.filter_eq_nil_iff.mpr fun b hb hef => hs (h.slot_of_ef hb hef)

omit [LawfulKeys funs] in
/-- The number of items after a removal. -/
theorem nitems_of_unlink {key : κ} {found : Option (κ × ν)} {all : List (κ × ν)}
    (hfound : found.toList = all.filter fun b => funs.ef b.1 key) :
    (if found.isSome then all.length - 1 else all.length) =
      (all.filter fun b => !funs.ef b.1 key).length := by
  have hsplit := List.length_eq_length_filter_add (l := all) fun b => funs.ef b.1 key
  rw [← hfound] at hsplit
  cases found with
  | none =>
      simp at hsplit ⊢
      omega
  | some x =>
      simp at hsplit ⊢
      omega

/-- `hashtbl_remove` keeps the other bindings and releases those of the key. -/
theorem remove_spec (h : WellFormed t) (allocated : Bool) (key : κ) :
    WellFormed (t.remove allocated key).1 ∧
      (t.remove allocated key).1.iter.Perm (t.iter.filter fun b => !funs.ef b.1 key) ∧
      (t.remove allocated key).2 = t.iter.filter fun b => funs.ef b.1 key := by
  have hchain := filter_iter h key
  unfold remove
  simp only
  split
  · next hempty =>
      rw [List.isEmpty_iff] at hempty
      rw [hempty, List.filter_nil] at hchain
      have hkept : t.iter.filter (fun b => !funs.ef b.1 key) = t.iter :=
        List.filter_eq_self.mpr fun b hb => by
          simpa using List.filter_eq_nil_iff.mp hchain b hb
      rw [hchain, hkept]
      exact ⟨h, .refl _, rfl⟩
  · obtain ⟨hrest, hfound⟩ :=
      unlink_spec key (h.chain (slot_lt funs key h.size_pos))
    rw [← hchain] at hfound
    have hitems := update_filter h key
    rw [← hrest] at hitems
    have hiter : (List.range t.size).flatMap (Function.update t.items (slot funs key t.size)
        (unlink funs key (t.items (slot funs key t.size))).2) =
        t.iter.filter fun b => !funs.ef b.1 key := by
      rw [hitems, Hashtbl.iter, List.filter_flatMap]
    have hwell : WellFormed ({ t with
        nitems := if (unlink funs key (t.items (slot funs key t.size))).1.isSome then t.nitems - 1
          else t.nitems
        items := Function.update t.items (slot funs key t.size)
          (unlink funs key (t.items (slot funs key t.size))).2 } : Hashtbl funs ν) := by
      refine ⟨h.size_pos, fun s b hb => ?_, ?_, ?_⟩
      · change b ∈ Function.update t.items _ _ s at hb
        rw [hitems] at hb
        exact h.slots s b (List.mem_filter.mp hb).1
      · show Distinct funs ((List.range t.size).flatMap _)
        rw [hiter]
        exact h.distinct.filter _
      · show (if _ then t.nitems - 1 else t.nitems) = ((List.range t.size).flatMap _).length
        rw [hiter, h.count]
        exact nitems_of_unlink hfound
    obtain ⟨hresized, hperm⟩ := check_size_spec hwell allocated
    refine ⟨hresized, hperm.trans ?_, hfound⟩
    show ((List.range t.size).flatMap _).Perm _
    rw [hiter]

/-- A new binding at the head of its chain. -/
theorem insert_spec (h : WellFormed t) {key : κ} (v : ν)
    (hfresh : ∀ b ∈ t.iter, funs.ef b.1 key = false) :
    let s := slot funs key t.size
    let t' : Hashtbl funs ν := { t with
      nitems := t.nitems + 1
      items := Function.update t.items s ((key, v) :: t.items s) }
    WellFormed t' ∧ t'.iter.Perm ((key, v) :: t.iter) := by
  have hperm := flat_map_update_cons t.items (key, v) (slot_lt funs key h.size_pos)
  refine ⟨⟨h.size_pos, fun s b hb => ?_, ?_, ?_⟩, hperm⟩
  · change b ∈ Function.update t.items _ _ s at hb
    by_cases hs : s = slot funs key t.size
    · rw [hs, Function.update_self] at hb
      rcases List.mem_cons.mp hb with rfl | hb
      · exact hs
      · rw [hs]
        exact h.slots _ b hb
    · rw [Function.update_of_ne hs] at hb
      exact h.slots s b hb
  · have hcons : Distinct funs ((key, v) :: t.iter) := by
      refine List.pairwise_cons.mpr ⟨fun b hb => ?_, h.distinct⟩
      rw [ef_comm]
      exact hfresh b hb
    exact hcons.perm hperm.symm
  · show t.nitems + 1 = ((List.range t.size).flatMap _).length
    rw [hperm.length_eq, List.length_cons, h.count]
    rfl

/-- `hashtbl_add` replaces the binding of the key, which it releases. -/
theorem add_spec (h : WellFormed t) (shrunk grown : Bool) (key : κ) (v : ν) :
    WellFormed (t.add true shrunk grown key v).2.1 ∧
      (t.add true shrunk grown key v).2.1.iter.Perm
        ((key, v) :: t.iter.filter fun b => !funs.ef b.1 key) ∧
      (t.add true shrunk grown key v).2.2 = t.iter.filter fun b => funs.ef b.1 key := by
  obtain ⟨hremoved, hrest, hreleased⟩ := remove_spec h shrunk key
  have hfresh : ∀ b ∈ (t.remove shrunk key).1.iter, funs.ef b.1 key = false := by
    intro b hb
    have hmem := (List.mem_filter.mp (hrest.subset hb)).2
    simpa using hmem
  obtain ⟨hinserted, hperm⟩ := insert_spec hremoved v hfresh
  obtain ⟨hresized, hreordered⟩ := check_size_spec hinserted grown
  exact ⟨hresized, (hreordered.trans hperm).trans (hrest.cons _), hreleased⟩

/-- The binding with a new value, if its key is the one that is changed. -/
def rebind (funs : KeyFuns κ) (key : κ) (newval : ν) (b : κ × ν) : κ × ν :=
  if funs.ef b.1 key then (b.1, newval) else b

omit [LawfulKeys funs] in
theorem rebind_fst (key : κ) (newval : ν) (b : κ × ν) : (rebind funs key newval b).1 = b.1 := by
  unfold rebind
  split <;> rfl

omit [LawfulKeys funs] in
/-- Without a binding of the key, nothing changes. -/
theorem map_rebind_of_forall {key : κ} {newval : ν} {bindings : List (κ × ν)}
    (h : ∀ b ∈ bindings, funs.ef b.1 key = false) :
    bindings.map (rebind funs key newval) = bindings := by
  have hsame : bindings.map (rebind funs key newval) = bindings.map id :=
    List.map_congr_left fun b hb => by
      unfold rebind
      rw [h b hb]
      rfl
  rw [hsame, List.map_id]

/-- Changing the first binding of the key changes all of them, which are at most one. -/
theorem change_first_spec {key : κ} (newval : ν) {chain : List (κ × ν)}
    (h : Distinct funs chain) :
    (changeFirst funs key newval chain = none ∧ ∀ b ∈ chain, funs.ef b.1 key = false) ∨
      changeFirst funs key newval chain = some (chain.map (rebind funs key newval)) ∧
        ∃ b ∈ chain, funs.ef b.1 key = true := by
  induction chain with
  | nil => exact .inl ⟨rfl, by simp⟩
  | cons x rest ih =>
      obtain ⟨hhead, hrest⟩ := List.pairwise_cons.mp h
      unfold changeFirst
      cases hx : funs.ef x.1 key with
      | true =>
          have hothers := ef_behind hhead hx
          have hself : rebind funs key newval x = (x.1, newval) := if_pos hx
          rw [List.map_cons, map_rebind_of_forall hothers, hself]
          exact .inr ⟨rfl, x, by simp, hx⟩
      | false =>
          have hself : rebind funs key newval x = x := by
            unfold rebind
            rw [hx]
            rfl
          rcases ih hrest with ⟨hnone, hall⟩ | ⟨hsome, b, hb, hef⟩
          · refine .inl ⟨?_, fun b hb => ?_⟩
            · rw [hnone]
              rfl
            · rcases List.mem_cons.mp hb with rfl | hb
              · exact hx
              · exact hall b hb
          · refine .inr ⟨?_, b, by simp [hb], hef⟩
            rw [hsome, List.map_cons, hself]
            rfl

/-- `hashtbl_change` gives the binding of the key its new value, and says if there is one. -/
theorem change_spec (h : WellFormed t) (key : κ) (newval : ν) :
    WellFormed (t.change key newval).2 ∧
      (t.change key newval).2.iter = t.iter.map (rebind funs key newval) ∧
      ((t.change key newval).1 = true ↔ ∃ b ∈ t.iter, funs.ef b.1 key = true) := by
  have hslot := slot_lt funs key h.size_pos
  unfold change
  simp only
  rcases change_first_spec newval (h.chain hslot) with ⟨hnone, hall⟩ | ⟨hsome, b, hb, hef⟩
  · rw [hnone]
    have hnobody : ∀ b ∈ t.iter, funs.ef b.1 key = false := by
      intro b hb
      obtain ⟨s, -, hb⟩ := mem_iter.mp hb
      by_contra hef
      have hs := h.slot_of_ef hb (by simpa using hef)
      rw [hs] at hb
      exact hef (hall b hb)
    refine ⟨h, (map_rebind_of_forall hnobody).symm, by simp, ?_⟩
    rintro ⟨b, hb, hef⟩
    rw [hnobody b hb] at hef
    cases hef
  · rw [hsome]
    have hitems : Function.update t.items (slot funs key t.size)
        ((t.items (slot funs key t.size)).map (rebind funs key newval)) =
        fun s => (t.items s).map (rebind funs key newval) := by
      funext s
      by_cases hs : s = slot funs key t.size
      · rw [hs, Function.update_self]
      · rw [Function.update_of_ne hs]
        refine (map_rebind_of_forall fun b hb => ?_).symm
        by_contra htrue
        exact hs (h.slot_of_ef hb (by simpa using htrue))
    have hiter : (List.range t.size).flatMap (fun s => (t.items s).map (rebind funs key newval)) =
        t.iter.map (rebind funs key newval) := by
      rw [Hashtbl.iter, List.map_flatMap]
    change WellFormed ({ t with items := Function.update t.items _ _ } : Hashtbl funs ν) ∧
      Hashtbl.iter ({ t with items := Function.update t.items _ _ } : Hashtbl funs ν) = _ ∧
      (true = true ↔ _)
    rw [hitems]
    refine ⟨⟨h.size_pos, fun s c hc => ?_, ?_, ?_⟩, hiter, fun _ => ?_, fun _ => rfl⟩
    · obtain ⟨b, hb, rfl⟩ := List.mem_map.mp hc
      rw [rebind_fst]
      exact h.slots s b hb
    · show Distinct funs ((List.range t.size).flatMap _)
      rw [hiter]
      refine List.pairwise_map.mpr (h.distinct.imp fun {a b} hab => ?_)
      rw [rebind_fst, rebind_fst]
      exact hab
    · show t.nitems = ((List.range t.size).flatMap _).length
      rw [hiter, List.length_map]
      exact h.count
    · exact ⟨b, mem_iter.mpr ⟨_, hslot, hb⟩, hef⟩

/-- `hashtbl_find` gives the value of the binding of the key. -/
theorem find_iff (h : WellFormed t) (key : κ) (v : ν) :
    t.find key = some v ↔ ∃ b ∈ t.iter, funs.ef b.1 key = true ∧ b.2 = v := by
  have hslot := slot_lt funs key h.size_pos
  have hchain := h.chain hslot
  unfold find
  constructor
  · intro hfind
    obtain ⟨b, hb, rfl⟩ := Option.map_eq_some_iff.mp hfind
    exact ⟨b, mem_iter.mpr ⟨_, hslot, List.mem_of_find?_eq_some hb⟩,
      by simpa using List.find?_some hb, rfl⟩
  · rintro ⟨b, hb, hef, rfl⟩
    obtain ⟨s, -, hb⟩ := mem_iter.mp hb
    rw [h.slot_of_ef hb hef] at hb
    cases hfind : (t.items (slot funs key t.size)).find? fun c => funs.ef c.1 key with
    | none =>
        have hnone := List.find?_eq_none.mp hfind b hb
        exact absurd hef hnone
    | some c =>
        have hc := List.mem_of_find?_eq_some hfind
        have hcef : funs.ef c.1 key = true := by simpa using List.find?_some hfind
        have hsame : funs.ef c.1 b.1 = true :=
          LawfulKeys.trans _ _ _ hcef (LawfulKeys.symm _ _ hef)
        have heq : c = b := by
          have : Std.Symm fun a b : κ × ν => funs.ef a.1 b.1 = false :=
            ⟨fun a b hab => by rw [ef_comm]; exact hab⟩
          by_contra hne
          rw [hchain.forall hc hb hne] at hsame
          cases hsame
        rw [heq]
        rfl

end Calls

/-- A call that changes a table, with the answers of its `malloc`s. -/
inductive HashtblCall (κ ν : Type) where
  | add (allocated shrunk grown : Bool) (key : κ) (v : ν)
  | remove (allocated : Bool) (key : κ)
  | change (key : κ) (newval : ν)
  deriving DecidableEq

section Runs

variable {funs : KeyFuns κ}

/-- The call on a table, with the bindings that it releases. -/
def HashtblCall.run (t : Hashtbl funs ν) : HashtblCall κ ν → Hashtbl funs ν × List (κ × ν)
  | .add allocated shrunk grown key v => (t.add allocated shrunk grown key v).2
  | .remove allocated key => t.remove allocated key
  | .change key newval => ((t.change key newval).2, [])

/-- The call on the multiset of the bindings, with those that it replaces or removes. -/
def HashtblCall.spec (funs : KeyFuns κ) (bindings : Multiset (κ × ν)) :
    HashtblCall κ ν → Multiset (κ × ν) × Multiset (κ × ν)
  | .add allocated _ _ key v =>
      if allocated then
        ((key, v) ::ₘ bindings.filter fun b => ¬ funs.ef b.1 key,
          bindings.filter fun b => funs.ef b.1 key)
      else (bindings, 0)
  | .remove _ key =>
      (bindings.filter fun b => ¬ funs.ef b.1 key, bindings.filter fun b => funs.ef b.1 key)
  | .change key newval => (bindings.map (rebind funs key newval), 0)

/-- The call on the reference map: what was added or changed last counts. -/
def HashtblCall.map (funs : KeyFuns κ) (m : κ → Option ν) : HashtblCall κ ν → κ → Option ν
  | .add allocated _ _ key v => fun k => if allocated ∧ funs.ef key k then some v else m k
  | .remove _ key => fun k => if funs.ef key k then none else m k
  | .change key newval => fun k => if funs.ef key k then (m k).map fun _ => newval else m k

/-- A sequence of calls, with what each of them releases. -/
def runTable (t : Hashtbl funs ν) : List (HashtblCall κ ν) → Hashtbl funs ν × List (List (κ × ν))
  | [] => (t, [])
  | call :: rest =>
      let (t, released) := call.run t
      let (t, others) := runTable t rest
      (t, released :: others)

/-- The same sequence on the multiset of the bindings. -/
def specTable (funs : KeyFuns κ) (bindings : Multiset (κ × ν)) :
    List (HashtblCall κ ν) → Multiset (κ × ν) × List (Multiset (κ × ν))
  | [] => (bindings, [])
  | call :: rest =>
      let (bindings, removed) := call.spec funs bindings
      let (bindings, others) := specTable funs bindings rest
      (bindings, removed :: others)

/-- The table holds the bindings, and the map gives their values. -/
structure TableRefines (t : Hashtbl funs ν) (bindings : Multiset (κ × ν)) (m : κ → Option ν) :
    Prop where
  well : WellFormed t
  contents : (t.iter : Multiset (κ × ν)) = bindings
  find : ∀ key, t.find key = m key

variable [LawfulKeys funs]

/-- The value of a key in a list of bindings, where the key of a call is another one. -/
theorem ef_of_ne {key k : κ} {b : κ × ν} (hk : ¬ funs.ef key k = true)
    (hb : funs.ef b.1 k = true) : funs.ef b.1 key = false := by
  by_contra htrue
  exact hk (LawfulKeys.trans _ _ _ (LawfulKeys.symm _ _ (by simpa using htrue)) hb)

/-- The value of a key in a list of bindings, where the key of a call is the same. -/
theorem ef_of_eq {key k : κ} {b : κ × ν} (hk : funs.ef key k = true) :
    funs.ef b.1 k = funs.ef b.1 key :=
  Bool.eq_iff_iff.mpr ⟨fun h => LawfulKeys.trans _ _ _ h (LawfulKeys.symm _ _ hk),
    fun h => LawfulKeys.trans _ _ _ h hk⟩

/-- A value that is found among the bindings of the other keys. -/
theorem others_iff {t : Hashtbl funs ν} (h : WellFormed t) (key k : κ) (v : ν) :
    (∃ b ∈ t.iter.filter (fun b => !funs.ef b.1 key), funs.ef b.1 k = true ∧ b.2 = v) ↔
      ¬ funs.ef key k = true ∧ t.find k = some v := by
  rw [find_iff h]
  constructor
  · rintro ⟨b, hb, hef, rfl⟩
    obtain ⟨hb, hne⟩ := List.mem_filter.mp hb
    refine ⟨fun hk => ?_, b, hb, hef, rfl⟩
    rw [ef_of_eq hk] at hef
    simp [hef] at hne
  · rintro ⟨hk, b, hb, hef, rfl⟩
    exact ⟨b, List.mem_filter.mpr ⟨hb, by simp [ef_of_ne hk hef]⟩, hef, rfl⟩

/-- After `hashtbl_remove`. -/
theorem find_remove {t : Hashtbl funs ν} (h : WellFormed t) (allocated : Bool) (key k : κ) :
    (t.remove allocated key).1.find k = if funs.ef key k then none else t.find k := by
  obtain ⟨hwell, hperm, -⟩ := remove_spec h allocated key
  ext v
  rw [find_iff hwell]
  simp only [hperm.mem_iff]
  rw [others_iff h]
  split
  · next hk => exact iff_of_false (fun hfound => hfound.1 hk) nofun
  · next hk => exact and_iff_right hk

/-- After a `hashtbl_add` that succeeds. -/
theorem find_add {t : Hashtbl funs ν} (h : WellFormed t) (shrunk grown : Bool) (key k : κ) (v : ν) :
    (t.add true shrunk grown key v).2.1.find k = if funs.ef key k then some v else t.find k := by
  obtain ⟨hwell, hperm, -⟩ := add_spec h shrunk grown key v
  ext w
  rw [find_iff hwell]
  simp only [hperm.mem_iff, List.mem_cons, or_and_right, exists_or, exists_eq_left]
  rw [others_iff h]
  by_cases hk : funs.ef key k = true
  · rw [if_pos hk, Option.some_inj]
    exact ⟨fun hfound => hfound.elim (·.2) fun hother => absurd hk hother.1, fun hv => .inl ⟨hk, hv⟩⟩
  · rw [if_neg hk]
    exact ⟨fun hfound => hfound.elim (fun hself => absurd hself.1 hk) (·.2), fun hv => .inr ⟨hk, hv⟩⟩

/-- After `hashtbl_change`. -/
theorem find_change {t : Hashtbl funs ν} (h : WellFormed t) (key k : κ) (newval : ν) :
    (t.change key newval).2.find k =
      if funs.ef key k then (t.find k).map fun _ => newval else t.find k := by
  obtain ⟨hwell, hiter, -⟩ := change_spec h key newval
  ext w
  rw [find_iff hwell, hiter]
  constructor
  · rintro ⟨c, hc, hef, rfl⟩
    obtain ⟨b, hb, rfl⟩ := List.mem_map.mp hc
    rw [rebind_fst] at hef
    have hfind := (find_iff h k b.2).mpr ⟨b, hb, hef, rfl⟩
    by_cases hk : funs.ef key k = true
    · have hself : rebind funs key newval b = (b.1, newval) := if_pos ((ef_of_eq hk) ▸ hef)
      rw [if_pos hk, hfind, hself]
      rfl
    · have hself : rebind funs key newval b = b := if_neg (by simp [ef_of_ne hk hef])
      rw [if_neg hk, hfind, hself]
  · intro hfind
    split at hfind
    · next hk =>
        obtain ⟨v, hv, rfl⟩ := Option.map_eq_some_iff.mp hfind
        obtain ⟨b, hb, hef, rfl⟩ := (find_iff h k v).mp hv
        have hself : rebind funs key newval b = (b.1, newval) := if_pos ((ef_of_eq hk) ▸ hef)
        exact ⟨_, List.mem_map.mpr ⟨b, hb, rfl⟩, by rw [hself]; exact hef, by rw [hself]⟩
    · next hk =>
        obtain ⟨b, hb, hef, rfl⟩ := (find_iff h k w).mp hfind
        have hself : rebind funs key newval b = b := if_neg (by simp [ef_of_ne hk hef])
        exact ⟨_, List.mem_map.mpr ⟨b, hb, rfl⟩, by rw [hself]; exact hef, by rw [hself]⟩

/-- One call keeps the relation and releases exactly what it replaces or removes. -/
theorem table_refines_call {t : Hashtbl funs ν} {bindings : Multiset (κ × ν)} {m : κ → Option ν}
    (h : TableRefines t bindings m) (call : HashtblCall κ ν) :
    TableRefines (call.run t).1 (call.spec funs bindings).1 (call.map funs m) ∧
      ((call.run t).2 : Multiset (κ × ν)) = (call.spec funs bindings).2 := by
  obtain ⟨hwell, rfl, hfind⟩ := h
  cases call with
  | add allocated shrunk grown key v =>
      cases allocated with
      | false => exact ⟨⟨hwell, rfl, fun k => (hfind k).trans (by simp [HashtblCall.map])⟩, rfl⟩
      | true =>
          obtain ⟨hadded, hperm, hreleased⟩ := add_spec hwell shrunk grown key v
          refine ⟨⟨hadded, ?_, fun k => ?_⟩, ?_⟩
          · refine (Multiset.coe_eq_coe.mpr hperm).trans ?_
            rw [← Multiset.cons_coe]
            exact congrArg _ (coe_filter fun b => by simp)
          · refine (find_add hwell shrunk grown key k v).trans ?_
            rw [hfind k]
            simp [HashtblCall.map]
          · refine (congrArg _ hreleased).trans ?_
            exact coe_filter fun b => by simp
  | remove allocated key =>
      obtain ⟨hremoved, hperm, hreleased⟩ := remove_spec hwell allocated key
      refine ⟨⟨hremoved, ?_, fun k => ?_⟩, ?_⟩
      · refine (Multiset.coe_eq_coe.mpr hperm).trans ?_
        exact coe_filter fun b => by simp
      · refine (find_remove hwell allocated key k).trans ?_
        rw [hfind k]
        rfl
      · refine (congrArg _ hreleased).trans ?_
        exact coe_filter fun b => by simp
  | change key newval =>
      obtain ⟨hchanged, hiter, -⟩ := change_spec hwell key newval
      refine ⟨⟨hchanged, congrArg _ hiter, fun k => ?_⟩, rfl⟩
      refine (find_change hwell key k newval).trans ?_
      rw [hfind k]
      rfl

/-- The same for every sequence of calls. -/
theorem table_refines_run {t : Hashtbl funs ν} {bindings : Multiset (κ × ν)} {m : κ → Option ν}
    (h : TableRefines t bindings m) (calls : List (HashtblCall κ ν)) :
    TableRefines (runTable t calls).1 (specTable funs bindings calls).1
        (calls.foldl (fun m call => call.map funs m) m) ∧
      (runTable t calls).2.map Multiset.ofList = (specTable funs bindings calls).2 := by
  induction calls generalizing t bindings m with
  | nil => exact ⟨h, rfl⟩
  | cons call rest ih =>
      obtain ⟨hcall, hreleased⟩ := table_refines_call h call
      obtain ⟨hrest, hothers⟩ := ih hcall
      exact ⟨hrest, congrArg₂ List.cons hreleased hothers⟩

/-- What a table shows of the bindings that it holds, and of a reference map. -/
structure TableShows (t : Hashtbl funs ν) (bindings : Multiset (κ × ν)) (m : κ → Option ν) :
    Prop where
  find : ∀ key, t.find key = m key
  iter : (t.iter : Multiset (κ × ν)) = bindings
  distinct : Distinct funs t.iter
  count : t.count = bindings.card
  delete : (t.delete : Multiset (κ × ν)) = bindings
  addFails : ∀ allocated shrunk grown key v,
    (t.add allocated shrunk grown key v).1 = false → t.add allocated shrunk grown key v =
      (false, t, [])

omit [LawfulKeys funs] in
theorem create_iter : (.create : Hashtbl funs ν).iter = [] := by
  simp [Hashtbl.iter, Hashtbl.create]

omit [LawfulKeys funs] in
/-- A new table is well formed. -/
theorem create_well_formed : WellFormed (.create : Hashtbl funs ν) := by
  refine ⟨Nat.zero_lt_succ _, fun s b hb => (by cases hb), ?_, ?_⟩
  · rw [create_iter]
    exact List.Pairwise.nil
  · rw [create_iter]
    rfl

/-- After every sequence of calls on a new table, with any answers of `malloc`: lookups agree with
the reference map, iterating visits the bindings that are left, each once, with unequal keys,
the count is their number, deleting the table releases each of them once, an addition that fails
changes nothing, and each call has released exactly what it replaced or removed. -/
theorem hashtbl_refines (calls : List (HashtblCall κ ν)) :
    TableShows (runTable (.create : Hashtbl funs ν) calls).1 (specTable funs 0 calls).1
        (calls.foldl (fun m call => call.map funs m) fun _ => none) ∧
      (runTable (.create : Hashtbl funs ν) calls).2.map Multiset.ofList =
        (specTable funs 0 calls).2 := by
  have hnew : TableRefines (.create : Hashtbl funs ν) 0 fun _ => none := by
    refine ⟨create_well_formed, ?_, fun _ => rfl⟩
    rw [create_iter]
    rfl
  obtain ⟨⟨hwell, hcontents, hfind⟩, hreleased⟩ := table_refines_run hnew calls
  refine ⟨⟨hfind, hcontents, hwell.distinct, ?_, hcontents, ?_⟩, hreleased⟩
  · rw [← hcontents]
    exact hwell.count
  · intro allocated shrunk grown key v hfails
    cases allocated with
    | false => rfl
    | true => cases hfails

end Runs

/-- `id_key_eq_fun` and `id_hash_fun`. -/
def idKeys : KeyFuns UInt32 where
  ef := fun a b => a == b
  hf := fun v => v

instance : LawfulKeys idKeys := .of_beq _

/-- After a replacement and a removal, the replaced and the removed binding have been released. -/
theorem hashtbl_refines_replaced :
    (runTable (.create : Hashtbl idKeys Nat)
        [.add true true true 12 1, .add true true true 12 2, .add true true true 28 3,
          .remove true 28]).2.map Multiset.ofList = [0, {(12, 1)}, 0, {(28, 3)}] := by
  refine (@hashtbl_refines UInt32 Nat idKeys _ [.add true true true 12 1,
    .add true true true 12 2, .add true true true 28 3, .remove true 28]).2.trans ?_
  decide

end Kogata.Common
