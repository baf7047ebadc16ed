import Mathlib.Data.Nat.Digits.Lemmas

/-!
# Numerals

A number written down with its first digit in front: all of its digits (`numeral`), or as many as
a field has room for (`fixed`). What a field shows behind its leading zeros is the numeral of a
number that fits into it.
-/

namespace Lib.Digits

variable {b k n : Nat}

/-- The last `k` digits. -/
def fixed (b : Nat) : Nat → Nat → List Nat
  | 0, _ => []
  | k + 1, n => fixed b k (n / b) ++ [n % b]

/-- The digits, and a `0` for zero. -/
def numeral (b n : Nat) : List Nat := if n = 0 then [0] else (Nat.digits b n).reverse

theorem fixed_zero (b k : Nat) : fixed b k 0 = List.replicate k 0 := by
  induction k with
  | zero => rfl
  | succ k ih => rw [fixed, Nat.zero_div, Nat.zero_mod, ih, List.replicate_succ']

/-- The digits from the first one on. -/
theorem fixed_succ (b k n : Nat) : fixed b (k + 1) n = n / b ^ k % b :: fixed b k n := by
  induction k generalizing n with
  | zero => simp [fixed]
  | succ k ih =>
      rw [fixed, ih, Nat.div_div_eq_div_mul, ← pow_succ', List.cons_append]
      rfl

/-- The digits by their place. -/
theorem fixed_eq_map (b k n : Nat) :
    fixed b k n = (List.range k).map fun j => n / b ^ (k - 1 - j) % b := by
  induction k with
  | zero => rfl
  | succ k ih =>
      rw [fixed_succ, ih, List.range_succ_eq_map, List.map_cons, List.map_map]
      congr 1
      refine List.map_congr_left fun j _ => ?_
      show _ = n / b ^ (k + 1 - 1 - (j + 1)) % b
      rw [show k + 1 - 1 - (j + 1) = k - 1 - j by omega]

/-- The digits depend on what fits into the field only. -/
theorem fixed_mod (b k n : Nat) : fixed b k (n % b ^ k) = fixed b k n := by
  induction k generalizing n with
  | zero => rfl
  | succ k ih =>
      rw [fixed, fixed, pow_succ', Nat.mod_mul_right_div_self, ih, Nat.mod_mul_right_mod]

/-- Behind the leading zeros of a field stand the digits of a number that fits. -/
theorem drop_zeros_fixed (hb : 1 < b) (hn : n < b ^ k) :
    (fixed b k n).dropWhile (· = 0) = (Nat.digits b n).reverse := by
  induction k generalizing n with
  | zero =>
      rw [pow_zero, Nat.lt_one_iff] at hn
      rw [hn, Nat.digits_zero]
      rfl
  | succ k ih =>
      have hdiv : n / b < b ^ k := Nat.div_lt_of_lt_mul (by rwa [← pow_succ'])
      rw [fixed]
      by_cases hzero : n = 0
      · subst hzero
        rw [Nat.zero_div, fixed_zero, Nat.zero_mod, Nat.digits_zero]
        simp
      rw [Nat.digits_def' hb (Nat.pos_of_ne_zero hzero), List.reverse_cons, ← ih hdiv]
      by_cases hsmall : n / b = 0
      · -- all digits but the last one are zero
        have hlast : n % b ≠ 0 := fun hmod => hzero (by
          rw [← Nat.div_add_mod n b, hsmall, hmod, Nat.mul_zero])
        rw [hsmall, fixed_zero, List.dropWhile_append_of_pos (by simp)]
        simp [hlast]
      · have hsome : (fixed b k (n / b)).dropWhile (· = 0) ≠ [] := by
          rw [ih hdiv]
          simpa using Nat.digits_ne_nil_iff_ne_zero.mpr hsmall
        rw [List.dropWhile_append, if_neg (by simpa using hsome)]

/-- A number has more digits than the powers of the base that it reaches. -/
theorem lt_length_numeral (hb : 1 < b) (hn : b ^ k ≤ n) : k < (numeral b n).length := by
  have hpos : n ≠ 0 := fun h => absurd hn (by rw [h]; exact not_le.mpr (Nat.pow_pos (by omega)))
  rw [numeral, if_neg hpos, List.length_reverse]
  exact (Nat.lt_digits_length_iff hb n).mpr hn

theorem length_numeral_le (hb : 1 < b) (hk : 0 < k) (hn : n < b ^ k) :
    (numeral b n).length ≤ k := by
  rw [numeral]
  split
  · exact hk
  · rw [List.length_reverse]
    exact (Nat.digits_length_le_iff hb n).mpr hn

end Lib.Digits
