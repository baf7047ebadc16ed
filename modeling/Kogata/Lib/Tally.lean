import Mathlib.Data.Nat.Count

/-!
# Counting below a bound

`Nat.count p n` is the number of the naturals below `n` that satisfy `p`. Changing `p` at one
place changes the count by one. Taking the bindings of a key out of a list of bindings takes at
least one away from the count of the value that the key is bound to.
-/

namespace Lib.Tally

variable {p q : Nat → Prop} [DecidablePred p] [DecidablePred q]

/-- Predicates that agree below the bound have the same count. -/
theorem count_congr {n : Nat} (h : ∀ i < n, p i ↔ q i) : Nat.count p n = Nat.count q n :=
  Nat.le_antisymm (Nat.count_mono_left fun i hi => (h i hi).mp)
    (Nat.count_mono_left fun i hi => (h i hi).mpr)

/-- One more place that satisfies the predicate. -/
theorem count_insert {n c : Nat} (hc : c < n) (hp : ¬ p c) (hq : q c)
    (h : ∀ i, i ≠ c → (p i ↔ q i)) : Nat.count q n = Nat.count p n + 1 := by
  induction n with
  | zero => exact absurd hc (Nat.not_lt_zero c)
  | succ n ih =>
      rw [Nat.count_succ, Nat.count_succ]
      rcases Nat.lt_succ_iff_lt_or_eq.mp hc with hlt | rfl
      · rw [ih hlt, if_congr (h n (Nat.ne_of_gt hlt)) rfl rfl]
        omega
      · have hsame : Nat.count p c = Nat.count q c :=
          count_congr fun i hi => h i (Nat.ne_of_lt hi)
        rw [if_neg hp, if_pos hq, hsame]

/-- A run of places more that satisfy the predicate. -/
theorem count_insert_run {total r n : Nat} (hle : r + n ≤ total)
    (hp : ∀ i, r ≤ i → i < r + n → ¬ p i) (h : ∀ i, q i ↔ p i ∨ r ≤ i ∧ i < r + n) :
    Nat.count q total = Nat.count p total + n := by
  classical
  induction n generalizing q with
  | zero => exact count_congr fun i _ => (h i).trans ⟨fun hor => hor.elim id (by omega), .inl⟩
  | succ n ih =>
      have hrest := ih (q := fun i => p i ∨ r ≤ i ∧ i < r + n) (by omega)
        (fun i hri hin => hp i hri (by omega)) fun _ => Iff.rfl
      have hlast : ¬ (p (r + n) ∨ r ≤ r + n ∧ r + n < r + n) := fun hor =>
        hor.elim (hp (r + n) (by omega) (by omega)) (by omega)
      have hone : Nat.count q total =
          Nat.count (fun i => p i ∨ r ≤ i ∧ i < r + n) total + 1 := by
        refine count_insert (c := r + n) (by omega) hlast ((h _).mpr (.inr ⟨by omega, by omega⟩))
          fun i hi => ?_
        rw [h i]
        exact or_congr_right ⟨fun hin => ⟨hin.1, by omega⟩, fun hin => ⟨hin.1, by omega⟩⟩
      rw [hone, hrest, Nat.add_assoc]

/-- A bound above which nothing satisfies the predicate may be raised. -/
theorem count_succ_of_not {n : Nat} (h : ¬ p n) : Nat.count p (n + 1) = Nat.count p n := by
  rw [Nat.count_succ, if_neg h, Nat.add_zero]

/-- Above which nothing satisfies the predicate, any bound gives the same count. -/
theorem count_of_not_above {n m : Nat} (hle : n ≤ m) (h : ∀ i, n ≤ i → ¬ p i) :
    Nat.count p m = Nat.count p n := by
  induction m, hle using Nat.le_induction with
  | base => rfl
  | succ m hm ih => rw [count_succ_of_not (h m hm), ih]

section Bindings

variable {κ α : Type} [BEq κ] [LawfulBEq κ] [BEq α] [LawfulBEq α] {bindings : List (κ × α)}
  {key : κ} {value : α}

omit [BEq α] [LawfulBEq α] in
theorem mem_of_lookup (h : bindings.lookup key = some value) : (key, value) ∈ bindings := by
  obtain ⟨l₁, l₂, hsplit, -⟩ := List.lookup_eq_some_iff.mp h
  rw [hsplit]
  exact List.mem_append_right l₁ List.mem_cons_self

omit [BEq α] [LawfulBEq α] in
/-- Where the keys are distinct, a binding is found under its key. -/
theorem lookup_of_mem (hkeys : (bindings.map Prod.fst).Nodup) (h : (key, value) ∈ bindings) :
    bindings.lookup key = some value := by
  induction bindings with
  | nil => cases h
  | cons e rest ih =>
      rw [List.map_cons, List.nodup_cons] at hkeys
      rw [List.lookup_cons]
      cases hkey : key == e.1 with
      | true =>
          rcases List.mem_cons.mp h with rfl | hmem
          · rfl
          · exact absurd (eq_of_beq hkey ▸ List.mem_map_of_mem hmem) hkeys.1
      | false =>
          rcases List.mem_cons.mp h with rfl | hmem
          · rw [beq_self_eq_true] at hkey
            cases hkey
          · exact ih hkeys.2 hmem

omit [LawfulBEq κ] in
/-- A value that a key is bound to is counted. -/
theorem countP_pos_of_lookup (h : bindings.lookup key = some value) :
    0 < bindings.countP fun e => e.2 == value := by
  induction bindings with
  | nil => cases h
  | cons e rest ih =>
      rw [List.countP_cons]
      cases hkey : key == e.1 with
      | true =>
          rw [List.lookup_cons, hkey] at h
          obtain rfl : e.2 = value := Option.some.inj h
          rw [if_pos (beq_self_eq_true e.2)]
          exact Nat.succ_pos _
      | false =>
          rw [List.lookup_cons, hkey] at h
          exact Nat.add_pos_left (ih h) _

/-- Without the bindings of a key there is one less of its value, at least. -/
theorem countP_filter_lookup (h : bindings.lookup key = some value) (other : α) :
    (bindings.filter fun e => e.1 != key).countP (fun e => e.2 == other) +
      (if other == value then 1 else 0) ≤ bindings.countP fun e => e.2 == other := by
  induction bindings with
  | nil => cases h
  | cons e rest ih =>
      have hrest : (rest.filter fun e => e.1 != key).countP (fun e => e.2 == other) ≤
          rest.countP fun e => e.2 == other := List.filter_sublist.countP_le
      rw [List.lookup_cons] at h
      rw [List.filter_cons, List.countP_cons]
      cases hkey : key == e.1 with
      | true =>
          rw [hkey] at h
          obtain rfl : e.2 = value := Option.some.inj h
          have hdrop : (e.1 != key) = false := by
            rw [eq_of_beq hkey]
            simp
          have hsame : (other == e.2) = (e.2 == other) := Bool.eq_iff_iff.mpr
            ⟨fun heq => beq_iff_eq.mpr (eq_of_beq heq).symm,
              fun heq => beq_iff_eq.mpr (eq_of_beq heq).symm⟩
          rw [hdrop, hsame]
          exact Nat.add_le_add_right hrest _
      | false =>
          rw [hkey] at h
          have hkeep : (e.1 != key) = true := by
            rw [bne_iff_ne]
            intro heq
            rw [heq, beq_self_eq_true] at hkey
            cases hkey
          rw [hkeep]
          show List.countP _ (e :: _) + _ ≤ _
          rw [List.countP_cons]
          have hle := ih h
          omega

end Bindings

end Lib.Tally
