import Mathlib.Logic.Relation
import Mathlib.Tactic.Common

/-!
# Cycles of waiting

A relation says who waits for whom. Where the waiting goes up from some on, never down again, and
goes down before, nobody waits for himself through others.
-/

namespace Lib.Waits

open Relation

variable {α : Type} {waits : α → α → Prop} {rank : α → Nat} {up : α → Prop} {a b : α}

section

variable (hup : ∀ a b c, waits a b → waits b c → up a → up b ∧ rank a < rank b)

include hup

/-- From one that goes up, the waiting goes up. -/
theorem rank_lt_of_up
    (h : TransGen waits a b) {c : α} (hc : waits b c) (ha : up a) : up b ∧ rank a < rank b := by
  induction h generalizing c with
  | single hab => exact hup _ _ c hab hc ha
  | tail hab hbd ih =>
      obtain ⟨hupb, hlt⟩ := ih hbd
      obtain ⟨hupd, hlt'⟩ := hup _ _ c hbd hc hupb
      exact ⟨hupd, Nat.lt_trans hlt hlt'⟩

/-- From one that does not, it goes down until it goes up. -/
theorem up_or_rank_lt (hdown : ∀ a b c, waits a b → waits b c → ¬ up a → up b ∨ rank b < rank a)
    (h : TransGen waits a b) {c : α} (hc : waits b c) (ha : ¬ up a) : up b ∨ rank b < rank a := by
  induction h generalizing c with
  | single hab => exact hdown _ _ c hab hc ha
  | @tail b d hab hbd ih =>
      by_cases hupb : up b
      · exact .inl (hup _ _ c hbd hc hupb).1
      · have hlt := (ih hbd).resolve_left hupb
        exact (hdown _ _ c hbd hc hupb).imp_right fun hlt' => Nat.lt_trans hlt' hlt

/-- Nobody waits for himself. -/
theorem no_cycle
    (hdown : ∀ a b c, waits a b → waits b c → ¬ up a → up b ∨ rank b < rank a) (a : α) :
    ¬ TransGen waits a a := by
  intro h
  obtain ⟨c, hc, -⟩ := TransGen.head'_iff.mp h
  by_cases ha : up a
  · exact Nat.lt_irrefl _ (rank_lt_of_up hup h hc ha).2
  · exact Nat.lt_irrefl _ ((up_or_rank_lt hup hdown h hc ha).resolve_left ha)

end

end Lib.Waits
