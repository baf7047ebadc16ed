import Mathlib.Logic.Function.Basic
import Mathlib.Tactic.Common

/-!
# Tokens in the custody of slots

Tokens are taken from a pool and given back to it, and in between each is kept in one slot. `owed`
counts how often a token has been taken and not given back. `Balanced` says that a token is owed
once when a slot holds it, or when it is the loose one, on its way between the pool and a slot, and
that no other token is owed. There is one rule for each movement: `take`, `put`, `remove` and
`give`.
-/

namespace Lib.Custody

variable {τ κ : Type} {owed owed' : τ → Int} {holds holds' : κ → Option τ} {loose : Option τ}

/-- Every token that is owed is in one place, and is owed once. -/
structure Balanced (owed : τ → Int) (holds : κ → Option τ) (loose : Option τ) : Prop where
  held : ∀ k t, holds k = some t → owed t = 1
  once : ∀ k k' t, holds k = some t → holds k' = some t → k = k'
  moving : ∀ t, loose = some t → owed t = 1 ∧ ∀ k, holds k ≠ some t
  settled : ∀ t, loose ≠ some t → (∀ k, holds k ≠ some t) → owed t = 0

/-- Where no token is on its way, it is settled, or it is owed once and one slot holds it. -/
theorem Balanced.settled_or_held (h : Balanced owed holds none) (t : τ) :
    (owed t = 0 ∧ ∀ k, holds k ≠ some t) ∨ owed t = 1 ∧ ∃! k, holds k = some t := by
  by_cases hheld : ∃ k, holds k = some t
  · obtain ⟨k, hk⟩ := hheld
    exact .inr ⟨h.held k t hk, k, hk, fun k' hk' => h.once k' k t hk' hk⟩
  · have hnone : ∀ k, holds k ≠ some t := fun k hk => hheld ⟨k, hk⟩
    exact .inl ⟨h.settled t (by simp) hnone, hnone⟩

/-- A token that is not owed is taken. -/
theorem Balanced.take (h : Balanced owed holds none) {t : τ} (ht : owed t = 0)
    (hself : owed' t = owed t + 1) (hother : ∀ t', t' ≠ t → owed' t' = owed t') :
    Balanced owed' holds (some t) := by
  have hfree : ∀ k, holds k ≠ some t := fun k hk => by
    have hone := h.held k t hk
    omega
  have hne : ∀ k t', holds k = some t' → t' ≠ t := fun k t' hk heq => hfree k (heq ▸ hk)
  refine ⟨fun k t' hk => ?_, h.once, fun t' ht' => ?_, fun t' ht' hnone => ?_⟩
  · rw [hother t' (hne k t' hk)]
    exact h.held k t' hk
  · cases ht'
    exact ⟨by omega, hfree⟩
  · rw [hother t' fun heq => ht' (by rw [heq])]
    exact h.settled t' (by simp) hnone

/-- The token on its way is given back. -/
theorem Balanced.give {t : τ} (h : Balanced owed holds (some t)) (hself : owed' t = owed t - 1)
    (hother : ∀ t', t' ≠ t → owed' t' = owed t') : Balanced owed' holds none := by
  obtain ⟨hone, hfree⟩ := h.moving t rfl
  refine ⟨fun k t' hk => ?_, h.once, nofun, fun t' _ hnone => ?_⟩
  · rw [hother t' fun heq => hfree k (heq ▸ hk)]
    exact h.held k t' hk
  · by_cases heq : t' = t
    · rw [heq]
      omega
    · rw [hother t' heq]
      exact h.settled t' (fun hloose => heq (Option.some.inj hloose).symm) hnone

/-- The token on its way is put into an empty slot. -/
theorem Balanced.put {t : τ} (h : Balanced owed holds (some t)) {k : κ} (hk : holds k = none)
    (hself : holds' k = some t) (hother : ∀ k', k' ≠ k → holds' k' = holds k') :
    Balanced owed holds' none := by
  obtain ⟨hone, hfree⟩ := h.moving t rfl
  have hcases : ∀ k' t', holds' k' = some t' → k' = k ∧ t' = t ∨ k' ≠ k ∧ holds k' = some t' := by
    intro k' t' hk'
    by_cases heq : k' = k
    · rw [heq, hself] at hk'
      exact .inl ⟨heq, (Option.some.inj hk').symm⟩
    · exact .inr ⟨heq, (hother k' heq).symm.trans hk'⟩
  refine ⟨fun k' t' hk' => ?_, fun k₁ k₂ t' h₁ h₂ => ?_, nofun, fun t' _ hnone => ?_⟩
  · rcases hcases k' t' hk' with ⟨-, rfl⟩ | ⟨-, hold⟩
    · exact hone
    · exact h.held k' t' hold
  · rcases hcases k₁ t' h₁ with ⟨rfl, rfl⟩ | ⟨-, hold₁⟩
    · rcases hcases k₂ t' h₂ with ⟨rfl, -⟩ | ⟨-, hold₂⟩
      · rfl
      · exact absurd hold₂ (hfree k₂)
    · rcases hcases k₂ t' h₂ with ⟨-, rfl⟩ | ⟨-, hold₂⟩
      · exact absurd hold₁ (hfree k₁)
      · exact h.once k₁ k₂ t' hold₁ hold₂
  · refine h.settled t' (fun hloose => ?_) fun k' hk' => ?_
    · exact hnone k (hself.trans hloose)
    · have hne : k' ≠ k := fun heq => by
        rw [heq, hk] at hk'
        cases hk'
      exact hnone k' ((hother k' hne).trans hk')

/-- A slot is emptied, and its token is on its way. -/
theorem Balanced.remove (h : Balanced owed holds none) {k : κ} {t : τ} (hk : holds k = some t)
    (hself : holds' k = none) (hother : ∀ k', k' ≠ k → holds' k' = holds k') :
    Balanced owed holds' (some t) := by
  have hold : ∀ k' t', holds' k' = some t' → k' ≠ k ∧ holds k' = some t' := by
    intro k' t' hk'
    have hne : k' ≠ k := fun heq => by
      rw [heq, hself] at hk'
      cases hk'
    exact ⟨hne, (hother k' hne).symm.trans hk'⟩
  refine ⟨fun k' t' hk' => h.held k' t' (hold k' t' hk').2,
    fun k₁ k₂ t' h₁ h₂ => h.once k₁ k₂ t' (hold k₁ t' h₁).2 (hold k₂ t' h₂).2,
    fun t' ht' => ?_, fun t' ht' hnone => ?_⟩
  · cases ht'
    refine ⟨h.held k t hk, fun k' hk' => ?_⟩
    obtain ⟨hne, hk''⟩ := hold k' t hk'
    exact hne (h.once k' k t hk'' hk)
  · refine h.settled t' (by simp) fun k' hk' => ?_
    by_cases heq : k' = k
    · rw [heq, hk] at hk'
      exact ht' hk'
    · exact hnone k' ((hother k' heq).trans hk')

/-- What is owed and what the slots hold may be known under another name. -/
theorem Balanced.congr (h : Balanced owed holds loose) (howed : ∀ t, owed' t = owed t)
    (hholds : ∀ k, holds' k = holds k) : Balanced owed' holds' loose := by
  obtain rfl : owed' = owed := funext howed
  obtain rfl : holds' = holds := funext hholds
  exact h

end Lib.Custody
