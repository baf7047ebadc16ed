import Kogata.Lib.Mask
import Kogata.Lib.Tally
import Mathlib.Logic.Function.Basic

/-!
# Bits in an array of words

An array of 32-bit words as an array of bits, with the masks for one bit and for a run of bits in
a word: what a test of a mask says, and which bits change when a mask is set or cleared.
-/

namespace Lib.Bitset

open Lib.Mask

/-- A bit of the array. -/
def bit (words : Nat → UInt32) (f : Nat) : Bool :=
  (words (f / 32)).toBitVec.getLsbD (f % 32)

/-- The mask of one bit of a word. -/
def single (ofs : Nat) : UInt32 :=
  1 <<< UInt32.ofNat ofs

/-- The mask of `n` bits of a word from `j` on. -/
def run (n j : Nat) : UInt32 :=
  (0xFFFFFFFF >>> UInt32.ofNat (32 - n)) <<< UInt32.ofNat j

variable {words : Nat → UInt32} {w : UInt32} {n j k : Nat}

theorem single_bit (hj : j < 32) (hk : k < 32) :
    (single j).toBitVec.getLsbD k = decide (k = j) := by
  have hshift : (UInt32.ofNat j).toBitVec % 32 = BitVec.ofNat 32 j := by
    apply BitVec.eq_of_toNat_eq
    simp
    omega
  unfold single
  rw [UInt32.toBitVec_shiftLeft, hshift, BitVec.shiftLeft_eq', BitVec.getLsbD_shiftLeft,
    BitVec.toNat_ofNat, Nat.mod_eq_of_lt (by omega)]
  by_cases heq : k = j
  · subst heq
    simp [hk]
  · by_cases hlt : k < j
    · simp [hlt, heq]
    · have hpos : k - j ≠ 0 := by omega
      simp [heq, BitVec.getLsbD_one, hpos]

theorem run_bit (hn : 0 < n) (hle : n ≤ 32) (hj : j < 32) (hk : k < 32) :
    (run n j).toBitVec.getLsbD k = decide (j ≤ k ∧ k < j + n) := by
  have hleft : (UInt32.ofNat j).toBitVec % 32 = BitVec.ofNat 32 j := by
    apply BitVec.eq_of_toNat_eq
    simp
    omega
  have hright : (UInt32.ofNat (32 - n)).toBitVec % 32 = BitVec.ofNat 32 (32 - n) := by
    apply BitVec.eq_of_toNat_eq
    simp
    omega
  unfold run
  rw [UInt32.toBitVec_shiftLeft, hleft, BitVec.shiftLeft_eq', BitVec.getLsbD_shiftLeft,
    UInt32.toBitVec_shiftRight, hright, BitVec.ushiftRight_eq', BitVec.getLsbD_ushiftRight,
    BitVec.toNat_ofNat, BitVec.toNat_ofNat, Nat.mod_eq_of_lt (by omega),
    Nat.mod_eq_of_lt (by omega)]
  have hones : ∀ i, (0xFFFFFFFF : UInt32).toBitVec.getLsbD i = decide (i < 32) := fun i => by
    show (BitVec.allOnes 32).getLsbD i = _
    exact BitVec.getLsbD_allOnes
  rw [hones, Bool.eq_iff_iff]
  simp only [Bool.and_eq_true, Bool.not_eq_true', decide_eq_true_eq, decide_eq_false_iff_not]
  omega

/-- No bit of the run is set in a word that has none of its mask. -/
theorem and_run_eq_zero (hn : 0 < n) (hle : j + n ≤ 32) :
    w &&& run n j = 0 ↔ ∀ k, j ≤ k → k < j + n → w.toBitVec.getLsbD k = false := by
  constructor
  · intro h k hjk hkn
    have hbit := congrArg (fun x : UInt32 => x.toBitVec.getLsbD k) h
    simp only [UInt32.toBitVec_and, BitVec.getLsbD_and] at hbit
    rw [run_bit hn (by omega) (by omega) (by omega), decide_eq_true ⟨hjk, hkn⟩] at hbit
    simpa using hbit
  · intro h
    refine ext_bits fun k hk => ?_
    rw [UInt32.toBitVec_and, BitVec.getLsbD_and, run_bit hn (by omega) (by omega) hk]
    by_cases hin : j ≤ k ∧ k < j + n
    · rw [h k hin.1 hin.2]
      simp
    · rw [decide_eq_false hin]
      simp

/-- The test of one bit. -/
theorem and_single_ne_zero (f : Nat) :
    words (f / 32) &&& single (f % 32) ≠ 0 ↔ bit words f = true := by
  have hlt : f % 32 < 32 := Nat.mod_lt f (by decide)
  constructor
  · intro hne
    by_contra hbit
    refine hne (ext_bits fun k hk => ?_)
    rw [UInt32.toBitVec_and, BitVec.getLsbD_and, single_bit hlt hk]
    by_cases heq : k = f % 32
    · have hclear : (words (f / 32)).toBitVec.getLsbD (f % 32) = false := by simpa [bit] using hbit
      rw [heq, hclear]
      simp
    · simp [heq]
  · intro hbit heq
    have hzero := congrArg (fun x : UInt32 => x.toBitVec.getLsbD (f % 32)) heq
    simp only [UInt32.toBitVec_and, BitVec.getLsbD_and] at hzero
    rw [single_bit hlt hlt] at hzero
    have hset : (words (f / 32)).toBitVec.getLsbD (f % 32) = true := hbit
    rw [hset] at hzero
    simp at hzero

/-- A word of ones has all its bits set. -/
theorem eq_ones_iff (i : Nat) :
    words i = 0xFFFFFFFF ↔ ∀ k < 32, bit words (i * 32 + k) = true := by
  have hplace : ∀ k < 32, bit words (i * 32 + k) = (words i).toBitVec.getLsbD k := fun k hk => by
    unfold bit
    rw [show (i * 32 + k) / 32 = i by omega, show (i * 32 + k) % 32 = k by omega]
  constructor
  · intro h k hk
    rw [hplace k hk, h]
    show (BitVec.allOnes 32).getLsbD k = true
    rw [BitVec.getLsbD_allOnes]
    exact decide_eq_true hk
  · intro h
    refine ext_bits fun k hk => ?_
    rw [← hplace k hk, h k hk]
    show true = (BitVec.allOnes 32).getLsbD k
    rw [BitVec.getLsbD_allOnes]
    exact (decide_eq_true hk).symm

/-- Setting one bit. -/
theorem bit_set (f g : Nat) :
    bit (Function.update words (f / 32) (words (f / 32) ||| single (f % 32))) g =
      (bit words g || decide (g = f)) := by
  have hlt : f % 32 < 32 := Nat.mod_lt f (by decide)
  have hgt : g % 32 < 32 := Nat.mod_lt g (by decide)
  unfold bit
  by_cases hword : g / 32 = f / 32
  · rw [hword, Function.update_self, UInt32.toBitVec_or, BitVec.getLsbD_or, single_bit hlt hgt]
    refine congrArg _ (decide_eq_decide.mpr ⟨fun h => ?_, fun h => ?_⟩)
    · omega
    · rw [h]
  · rw [Function.update_of_ne hword, decide_eq_false (fun h => hword (by rw [h])), Bool.or_false]

/-- Clearing one bit. -/
theorem bit_clear (f g : Nat) :
    bit (Function.update words (f / 32) (words (f / 32) &&& ~~~single (f % 32))) g =
      (bit words g && decide (g ≠ f)) := by
  have hlt : f % 32 < 32 := Nat.mod_lt f (by decide)
  have hgt : g % 32 < 32 := Nat.mod_lt g (by decide)
  unfold bit
  by_cases hword : g / 32 = f / 32
  · rw [hword, Function.update_self, UInt32.toBitVec_and, UInt32.toBitVec_not, BitVec.getLsbD_and,
      BitVec.getLsbD_not, single_bit hlt hgt]
    have hsame : (g % 32 = f % 32) ↔ g = f := ⟨fun h => by omega, fun h => by rw [h]⟩
    by_cases heq : g = f
    · simp [heq]
    · simp [hgt, heq, mt hsame.mp heq]
  · have hne : g ≠ f := fun h => hword (by rw [h])
    rw [Function.update_of_ne hword]
    simp [hne]

/-- Setting a run of bits in a word. -/
theorem bit_set_run (i : Nat) (hn : 0 < n) (hle : j + n ≤ 32) (g : Nat) :
    bit (Function.update words i (words i ||| run n j)) g =
      (bit words g || decide (i * 32 + j ≤ g ∧ g < i * 32 + j + n)) := by
  have hgt : g % 32 < 32 := Nat.mod_lt g (by decide)
  unfold bit
  by_cases hword : g / 32 = i
  · subst hword
    rw [Function.update_self, UInt32.toBitVec_or, BitVec.getLsbD_or,
      run_bit hn (by omega) (by omega) hgt]
    refine congrArg _ (decide_eq_decide.mpr ?_)
    omega
  · have hout : ¬ (i * 32 + j ≤ g ∧ g < i * 32 + j + n) := by omega
    rw [Function.update_of_ne hword, decide_eq_false hout, Bool.or_false]

end Lib.Bitset
