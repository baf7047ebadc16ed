import Mathlib.Data.UInt
import Mathlib.Tactic.Common

/-!
# The pseudo-random generator

`kernel/core/prng.c`. The product of a step wraps before it is reduced, and a word is the low half
of what is left. Of the upper half of `x` only a carry of at most two gets into the next word:
`near_of_bytes_eq` says how close the low halves of two states lie that give the same bytes.
-/

namespace Kogata.Kernel

/-- `EPOOLSIZE`. -/
abbrev ePoolSize : Nat := 2048

/-- The static variables of `prng.c`; of `entropy` the first `entropy_count` bytes, the last one
first. -/
structure Prng where
  x : UInt32
  n : Nat
  entropy : List Int8
  deriving DecidableEq

namespace Prng

/-- The constant `a`. -/
abbrev a : UInt32 := 16807

/-- The constant `m`. -/
abbrev m : UInt32 := 0x7FFFFFFF

/-- The initial values. -/
def initial : Prng where
  x := 211
  n := 0
  entropy := []

/-- The first part of `prng_word`: every hundredth time a byte of entropy is added. -/
def stir (p : Prng) : Prng :=
  if p.n + 1 ≥ 100 then
    match p.entropy with
    | [] => { p with n := 0 }
    | e :: entropy => { x := p.x + e.toInt32.toUInt32, n := 0, entropy := entropy }
  else { p with n := p.n + 1 }

/-- `prng_word`. -/
def prngWord (p : Prng) : UInt16 × Prng :=
  let p := p.stir
  let x := (p.x * a) % m
  (x.toUInt16, { p with x := x })

/-- The loop of `prng_bytes`. -/
def words : Nat → Prng → List UInt16 × Prng
  | 0, p => ([], p)
  | n + 1, p =>
      let (d, p) := p.prngWord
      let (rest, p) := words n p
      (d :: rest, p)

/-- The two bytes of a `uint16_t`. -/
def halves (d : UInt16) : List UInt8 := [d.toUInt8, (d >>> 8).toUInt8]

/-- `prng_bytes`. -/
def prngBytes (p : Prng) (nbytes : Nat) : List UInt8 × Prng :=
  let (d, p) := words (nbytes / 2) p
  let out := d.flatMap halves
  if nbytes % 2 = 1 then
    let (d, p) := p.prngWord
    (out ++ [d.toUInt8], p)
  else (out, p)

/-- `prng_add_entropy`. -/
def prngAddEntropy (p : Prng) : List UInt8 → Prng
  | [] => p
  | b :: rest =>
      if p.entropy.length < ePoolSize - 1 then
        prngAddEntropy { p with entropy := b.toInt8 :: p.entropy } rest
      else p

/-- 16807 times what lies between the low halves of `x`, with the byte of entropy that is due added
to it, is at most two. -/
def Near (p q : Prng) : Prop :=
  (p.stir.x.toUInt16 - q.stir.x.toUInt16) * 16807 ≤ 2 ∨
    (q.stir.x.toUInt16 - p.stir.x.toUInt16) * 16807 ≤ 2

instance (p q : Prng) : Decidable (Near p q) := inferInstanceAs (Decidable (_ ∨ _))

variable {p q : Prng}

/-- Since `m` is -1 in sixteen bits, each subtraction of it adds one. -/
theorem low_mod (x : UInt32) : (x % m).toUInt16 = x.toUInt16 + (x / m).toUInt16 := by
  apply UInt16.toNat_inj.mp
  rw [UInt16.toNat_add, UInt32.toNat_toUInt16, UInt32.toNat_toUInt16, UInt32.toNat_toUInt16,
    UInt32.toNat_mod, UInt32.toNat_div]
  have hm : m.toNat = 2147483647 := rfl
  rw [hm]
  omega

/-- A word is 16807 times the low half of `x`, and a carry. -/
theorem prng_word_low (p : Prng) :
    ∃ carry : UInt16, carry ≤ 2 ∧ p.prngWord.1 = p.stir.x.toUInt16 * 16807 + carry := by
  refine ⟨(p.stir.x * a / m).toUInt16, UInt16.le_iff_toNat_le.mpr ?_, ?_⟩
  · have hm : m.toNat = 2147483647 := rfl
    have hlt := (p.stir.x * a).toNat_lt
    rw [UInt32.toNat_toUInt16, UInt32.toNat_div, hm]
    change _ ≤ 2
    omega
  · change (p.stir.x * a % m).toUInt16 = _
    rw [low_mod, UInt32.toUInt16_mul]
    rfl

/-- The carries are all that can make up for different low halves. -/
theorem near_of_word_eq (hword : p.prngWord.1 = q.prngWord.1) : Near p q := by
  obtain ⟨c, hc, hp⟩ := prng_word_low p
  obtain ⟨d, hd, hq⟩ := prng_word_low q
  rw [hp, hq] at hword
  have hpq : (p.stir.x.toUInt16 - q.stir.x.toUInt16) * 16807 = d - c := by
    rw [UInt16.sub_mul]
    grind
  have hqp : (q.stir.x.toUInt16 - p.stir.x.toUInt16) * 16807 = c - d := by
    rw [UInt16.sub_mul]
    grind
  unfold Near
  rw [hpq, hqp]
  rcases UInt16.le_total c d with h | h
  · exact .inl (UInt16.le_trans (UInt16.sub_le h) hd)
  · exact .inr (UInt16.le_trans (UInt16.sub_le h) hc)

theorem length_words (n : Nat) (p : Prng) : (words n p).1.length = n := by
  induction n generalizing p with
  | zero => rfl
  | succ n ih => exact congrArg Nat.succ (ih p.prngWord.2)

/-- Two words of the same bytes are the same. -/
theorem halves_inj {d d' : UInt16} (h : halves d = halves d') : d = d' := by
  have hlow := congrArg UInt8.toNat (List.cons.inj h).1
  have hhigh := congrArg UInt8.toNat (List.cons.inj (List.cons.inj h).2).1
  apply UInt16.toNat_inj.mp
  rw [UInt16.toNat_toUInt8, UInt16.toNat_toUInt8] at hlow hhigh
  rw [UInt16.toNat_shiftRight, UInt16.toNat_shiftRight, Nat.shiftRight_eq_div_pow,
    Nat.shiftRight_eq_div_pow] at hhigh
  have hd := d.toNat_lt
  have hd' := d'.toNat_lt
  have height : (8 : UInt16).toNat % 16 = 8 := rfl
  rw [height] at hhigh
  omega

/-- States that give the same sixteen bytes are near. -/
theorem near_of_bytes_eq (h : (p.prngBytes 16).1 = (q.prngBytes 16).1) : Near p q := by
  have hwords : ∀ p : Prng, (words 8 p).1 = p.prngWord.1 :: (words 7 p.prngWord.2).1 :=
    fun _ => rfl
  change (words 8 p).1.flatMap halves = (words 8 q).1.flatMap halves at h
  rw [hwords, hwords, List.flatMap_cons, List.flatMap_cons] at h
  have hlen : ∀ d d', (halves d).length = (halves d').length := fun _ _ => rfl
  exact near_of_word_eq (halves_inj (List.append_inj_left h (hlen ..)))

theorem length_prng_bytes (p : Prng) : (p.prngBytes 16).1.length = 16 := by
  have htwo : (words 8 p).1.map (fun d => (halves d).length) =
      (words 8 p).1.map fun _ => 2 := rfl
  change ((words 8 p).1.flatMap halves).length = 16
  rw [List.length_flatMap, htwo, List.map_const', List.sum_replicate_nat, length_words]

end Prng

end Kogata.Kernel
