import Mathlib.Data.Multiset.Filter

/-!
# Lists as multisets

A container whose order does not matter is specified by the multiset of what it holds.
-/

namespace Lib.Bag

variable {α : Type}

/-- A filter of a list, as a multiset; the test of the code is a `Bool`. -/
theorem coe_filter {all : List α} {p : α → Bool} {q : α → Prop} [DecidablePred q]
    (h : ∀ a, p a = true ↔ q a) :
    ((all.filter p : List α) : Multiset α) = (all : Multiset α).filter q := by
  rw [Multiset.filter_coe]
  refine congrArg _ (List.filter_congr fun a _ => ?_)
  rw [Bool.eq_iff_iff, h a, decide_eq_true_iff]

/-- The number of what is kept, when the rest has been released. -/
theorem length_of_released {kept released all : List α} {p : α → Bool}
    (hkept : kept = all.filter p) (hreleased : released.Perm (all.filter fun a => !p a)) :
    (all.length : Int) - released.length = kept.length := by
  have hsplit := List.length_eq_length_filter_add (l := all) p
  rw [hkept, hreleased.length_eq]
  omega

end Lib.Bag
