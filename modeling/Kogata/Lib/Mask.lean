import Mathlib.Tactic.Common
import Mathlib.Algebra.GroupWithZero.Nat

/-!
# Sets of flags in a word

The flags of a 32-bit word as a set of bits: one set within another, flags that are set and
cleared, and the flags that this leaves alone.
-/

namespace Lib.Mask

variable {a b c r : UInt32}

/-- Every flag of `a` is one of `b`. -/
def Within (a b : UInt32) : Prop :=
  a &&& ~~~b = 0

instance : DecidableRel Within :=
  fun a b => inferInstanceAs (Decidable (a &&& ~~~b = 0))

/-- Words with the same bits are equal. -/
theorem ext_bits (h : ∀ i, i < 32 → a.toBitVec.getLsbD i = b.toBitVec.getLsbD i) : a = b := by
  rw [← UInt32.toBitVec_inj]
  exact BitVec.eq_of_getLsbD_eq h

theorem within_iff_bits :
    Within a b ↔ ∀ i, i < 32 → a.toBitVec.getLsbD i = true → b.toBitVec.getLsbD i = true := by
  constructor
  · intro h i hi ha
    have hbit := congrArg (fun x : UInt32 => x.toBitVec.getLsbD i) h
    simpa [ha, hi] using hbit
  · intro h
    refine ext_bits fun i hi => ?_
    have hbit := h i hi
    cases ha : a.toBitVec.getLsbD i <;> simp_all

theorem Within.refl (a : UInt32) : Within a a :=
  within_iff_bits.mpr fun _ _ => id

theorem Within.trans (hab : Within a b) (hbc : Within b c) : Within a c := by
  rw [within_iff_bits] at hab hbc ⊢
  exact fun i hi ha => hbc i hi (hab i hi ha)

theorem and_within_left (a b : UInt32) : Within (a &&& b) a := by
  rw [within_iff_bits]
  intro i hi h
  rw [UInt32.toBitVec_and, BitVec.getLsbD_and, Bool.and_eq_true] at h
  exact h.1

theorem and_within_right (a b : UInt32) : Within (a &&& b) b := by
  rw [UInt32.and_comm]
  exact and_within_left b a

theorem within_or_left (a b : UInt32) : Within a (a ||| b) := by
  rw [within_iff_bits]
  intro i _ h
  rw [UInt32.toBitVec_or, BitVec.getLsbD_or, h, Bool.true_or]

theorem within_or_right (a b : UInt32) : Within b (a ||| b) := by
  rw [UInt32.or_comm]
  exact within_or_left b a

/-- A flag of a set is a flag of every larger set. -/
theorem Within.any (h : Within a b) (ha : a &&& r ≠ 0) : b &&& r ≠ 0 := by
  intro hb
  refine ha (ext_bits fun i hi => ?_)
  have hmem := within_iff_bits.mp h i hi
  have hbit := congrArg (fun x : UInt32 => x.toBitVec.getLsbD i) hb
  simp only [UInt32.toBitVec_and, BitVec.getLsbD_and] at hbit ⊢
  cases hab : a.toBitVec.getLsbD i with
  | false => simp
  | true => rw [hmem hab] at hbit; simpa using hbit

/-- Flags that are set are not seen where they are masked. -/
theorem or_and_not (a b : UInt32) : (a ||| b) &&& ~~~b = a &&& ~~~b := by
  refine ext_bits fun i hi => ?_
  simp only [UInt32.toBitVec_and, UInt32.toBitVec_or, UInt32.toBitVec_not, BitVec.getLsbD_and,
    BitVec.getLsbD_or, BitVec.getLsbD_not]
  cases b.toBitVec.getLsbD i <;> simp

/-- Flags that are cleared are not seen where they are masked. -/
theorem and_not_and_not (a b : UInt32) : (a &&& ~~~b) &&& ~~~b = a &&& ~~~b := by
  rw [UInt32.and_assoc, UInt32.and_self]

/-- Setting flags leaves the others alone. -/
theorem or_and_of_disjoint (h : b &&& r = 0) : (a ||| b) &&& r = a &&& r := by
  refine ext_bits fun i hi => ?_
  have hbit := congrArg (fun x : UInt32 => x.toBitVec.getLsbD i) h
  simp only [UInt32.toBitVec_and, UInt32.toBitVec_or, BitVec.getLsbD_and, BitVec.getLsbD_or]
    at hbit ⊢
  cases hr : r.toBitVec.getLsbD i <;> simp_all

/-- Flags that have been set are set. -/
theorem or_and_self (a b : UInt32) : (a ||| b) &&& b = b := by
  refine ext_bits fun i _ => ?_
  simp only [UInt32.toBitVec_and, UInt32.toBitVec_or, BitVec.getLsbD_and, BitVec.getLsbD_or]
  cases b.toBitVec.getLsbD i <;> simp

/-- Toggling flags leaves the others alone. -/
theorem xor_and_of_disjoint (h : b &&& r = 0) : (a ^^^ b) &&& r = a &&& r := by
  refine ext_bits fun i hi => ?_
  have hbit := congrArg (fun x : UInt32 => x.toBitVec.getLsbD i) h
  simp only [UInt32.toBitVec_and, UInt32.toBitVec_xor, BitVec.getLsbD_and, BitVec.getLsbD_xor]
    at hbit ⊢
  cases hr : r.toBitVec.getLsbD i <;> simp_all

/-- Flags that are toggled together, when they were all set or all cleared. -/
theorem xor_and_self (h : a &&& b = 0 ∨ a &&& b = b) (hb : b ≠ 0) :
    (a ^^^ b) &&& b ≠ 0 ↔ a &&& b = 0 := by
  have hxor : (a ^^^ b) &&& b = (a &&& b) ^^^ b := by
    refine ext_bits fun i _ => ?_
    simp only [UInt32.toBitVec_and, UInt32.toBitVec_xor, BitVec.getLsbD_and, BitVec.getLsbD_xor]
    cases a.toBitVec.getLsbD i <;> cases b.toBitVec.getLsbD i <;> rfl
  rw [hxor]
  rcases h with hnone | hall
  · rw [hnone, UInt32.zero_xor]
    exact iff_of_true hb rfl
  · rw [hall, UInt32.xor_self]
    exact iff_of_false (fun hne => hne rfl) hb

/-- A single flag is set or cleared. -/
theorem and_one_flag (a : UInt32) {i : Nat} (hb : b.toNat = 2 ^ i) :
    a &&& b = 0 ∨ a &&& b = b := by
  have hbits : ∀ j, (a &&& b).toNat.testBit j = (a.toNat.testBit j && decide (i = j)) := by
    intro j
    rw [UInt32.toNat_and, hb, Nat.testBit_and, Nat.testBit_two_pow]
  cases hbit : a.toNat.testBit i with
  | false =>
      refine .inl (UInt32.toNat_inj.mp (Nat.eq_of_testBit_eq fun j => ?_))
      rw [hbits, UInt32.toNat_zero, Nat.zero_testBit]
      by_cases hj : i = j
      · rw [← hj, hbit, Bool.false_and]
      · rw [decide_eq_false hj, Bool.and_false]
  | true =>
      refine .inr (UInt32.toNat_inj.mp (Nat.eq_of_testBit_eq fun j => ?_))
      rw [hbits, hb, Nat.testBit_two_pow]
      by_cases hj : i = j
      · rw [← hj, hbit, Bool.true_and]
      · rw [decide_eq_false hj, Bool.and_false]

/-- Clearing flags leaves the others alone. -/
theorem and_not_and_of_disjoint (h : b &&& r = 0) : (a &&& ~~~b) &&& r = a &&& r := by
  refine ext_bits fun i hi => ?_
  have hbit := congrArg (fun x : UInt32 => x.toBitVec.getLsbD i) h
  simp only [UInt32.toBitVec_and, UInt32.toBitVec_not, BitVec.getLsbD_and, BitVec.getLsbD_not]
    at hbit ⊢
  cases hr : r.toBitVec.getLsbD i <;> simp_all

/-- A word is the sum of what a mask keeps and what it clears. -/
theorem and_add_and_not (x mask : UInt32) : (x &&& mask) + (x &&& ~~~mask) = x := by
  apply UInt32.eq_of_toBitVec_eq
  rw [UInt32.toBitVec_add, BitVec.add_eq_or_of_and_eq_zero]
  · rw [UInt32.toBitVec_and, UInt32.toBitVec_and, UInt32.toBitVec_not,
      ← BitVec.and_or_distrib_left, BitVec.or_not_self, BitVec.and_allOnes]
  · rw [UInt32.toBitVec_and, UInt32.toBitVec_and, UInt32.toBitVec_not]
    calc (x.toBitVec &&& mask.toBitVec) &&& (x.toBitVec &&& ~~~mask.toBitVec)
      _ = (x.toBitVec &&& x.toBitVec) &&& (mask.toBitVec &&& ~~~mask.toBitVec) := by ac_rfl
      _ = 0#32 := by
        rw [BitVec.and_not_self]
        exact BitVec.and_zero

end Lib.Mask
