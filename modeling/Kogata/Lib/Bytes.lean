import Mathlib.Tactic.Common
import Mathlib.Algebra.GroupWithZero.Nat

/-!
# A memory of bytes

A memory is a function from addresses to bytes. A word is four bytes with the least significant
one first. `Same` says that two memories agree on a range, and `same_store32` is the frame rule of
a store.
-/

namespace Lib.Bytes

/-- The contents of a memory. -/
abbrev Mem := Nat → UInt8

/-- The word at `x`. -/
def load32 (m : Mem) (x : Nat) : Nat :=
  (m x).toNat + (m (x + 1)).toNat * 2 ^ 8 + (m (x + 2)).toNat * 2 ^ 16 +
    (m (x + 3)).toNat * 2 ^ 24

/-- The memory with the word at `x` replaced. -/
def store32 (m : Mem) (x v : Nat) : Mem := fun y =>
  if y = x then UInt8.ofNat v
  else if y = x + 1 then UInt8.ofNat (v / 2 ^ 8)
  else if y = x + 2 then UInt8.ofNat (v / 2 ^ 16)
  else if y = x + 3 then UInt8.ofNat (v / 2 ^ 24)
  else m y

/-- The memories agree on the `n` bytes from `x` on. -/
def Same (x n : Nat) (m m' : Mem) : Prop := ∀ y, x ≤ y → y < x + n → m' y = m y

variable {m m' : Mem} {x y v n : Nat} {b : UInt8}

theorem Same.load32 (h : Same x n m m') (hle : x ≤ y) (hn : y + 4 ≤ x + n) :
    load32 m' y = load32 m y := by
  unfold Bytes.load32
  rw [h y (by omega) (by omega), h (y + 1) (by omega) (by omega), h (y + 2) (by omega) (by omega),
    h (y + 3) (by omega) (by omega)]

theorem same_store32 (h : x + n ≤ y ∨ y + 4 ≤ x) : Same x n m (store32 m y v) := by
  intro z hz hn
  unfold store32
  rw [if_neg (by omega), if_neg (by omega), if_neg (by omega), if_neg (by omega)]

/-- What has been stored is read back. -/
theorem load32_store32 (hv : v < 2 ^ 32) : load32 (store32 m x v) x = v := by
  have h0 : store32 m x v x = UInt8.ofNat v := by simp [store32]
  have h1 : store32 m x v (x + 1) = UInt8.ofNat (v / 2 ^ 8) := by simp [store32]
  have h2 : store32 m x v (x + 2) = UInt8.ofNat (v / 2 ^ 16) := by simp [store32]
  have h3 : store32 m x v (x + 3) = UInt8.ofNat (v / 2 ^ 24) := by simp [store32]
  unfold load32
  rw [h0, h1, h2, h3]
  simp only [UInt8.toNat_ofNat']
  omega

end Lib.Bytes
