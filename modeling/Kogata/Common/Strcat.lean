import Mathlib.Logic.Function.Basic
import Mathlib.Tactic.Common

/-!
# `strcat`

The function of `common/libc/string.c`. It goes on one byte in front of the end of the first string,
so that its first store is always outside of the bytes that are its to write.
-/

namespace Kogata.Common

/-- A memory of characters, with the addresses that have been written. -/
structure CharMemory where
  data : Int → UInt8
  writes : List Int

/-- `*p = c`. -/
def CharMemory.put (m : CharMemory) (p : Int) (c : UInt8) : CharMemory where
  data := Function.update m.data p c
  writes := m.writes ++ [p]

/-- The loop of `strlen`, for at most so many turns. -/
def strlenFrom (data : Int → UInt8) (str : Int) : Nat → Nat → Option Nat
  | 0, _ => none
  | turns + 1, ret =>
      if data (str + ret) ≠ 0 then strlenFrom data str turns (ret + 1) else some ret

/-- `strlen`. -/
def strlen (data : Int → UInt8) (str : Int) (turns : Nat) : Option Nat :=
  strlenFrom data str turns 0

/-- The loop of `strcat`, and the store behind it. -/
def strcatLoop : Nat → Int → Int → CharMemory → Option CharMemory
  | 0, _, _, _ => none
  | turns + 1, dest2, src, m =>
      if m.data src ≠ 0 then strcatLoop turns (dest2 + 1) (src + 1) (m.put dest2 (m.data src))
      else some (m.put dest2 0)

/-- `strcat`, where no loop takes more turns. The difference wraps around for an empty string, and
the sum once more: `dest2` is the address in front of `dest` then. -/
def strcat (dest src : Int) (turns : Nat) (m : CharMemory) : Option CharMemory := do
  let len ← strlen m.data dest turns
  strcatLoop turns (dest + (len - 1)) src m

/-- The characters of the string are at the address, and behind them the NUL. -/
def HoldsString (data : Int → UInt8) (p : Int) : List UInt8 → Prop
  | [] => data p = 0
  | c :: s => data p = c ∧ c ≠ 0 ∧ HoldsString data (p + 1) s

/-- `b` has been appended to the string `a` at `dest`, and nothing else has been written. -/
structure Concatenates (dest : Int) (a b : List UInt8) (m m' : CharMemory) : Prop where
  result : HoldsString m'.data dest (a ++ b)
  inside : ∃ new, m'.writes = m.writes ++ new ∧
    ∀ p ∈ new, dest + a.length ≤ p ∧ p ≤ dest + a.length + b.length

section Loops

variable {data : Int → UInt8} {a b : List UInt8} {m m' : CharMemory} {dest dest2 src p str : Int}
  {turns ret len : Nat}

theorem strlen_from_eq (ha : HoldsString data (str + ret) a)
    (hlen : strlenFrom data str turns ret = some len) : len = ret + a.length := by
  induction a generalizing turns ret with
  | nil =>
      cases turns with
      | zero => cases hlen
      | succ turns =>
          rw [strlenFrom, if_neg fun h => h ha] at hlen
          exact (Option.some.inj hlen).symm
  | cons c a ih =>
      obtain ⟨hc, hne, ha⟩ := ha
      cases turns with
      | zero => cases hlen
      | succ turns =>
          rw [strlenFrom, if_pos (hc ▸ hne)] at hlen
          have hnext : (str + ret + 1 : Int) = str + (ret + 1 : Nat) := by
            push_cast
            omega
          rw [ih (hnext ▸ ha) hlen, List.length_cons]
          omega

/-- The loop writes at the address where it begins. -/
theorem strcat_loop_writes (h : strcatLoop turns dest2 src m = some m') :
    ∃ rest, m'.writes = m.writes ++ dest2 :: rest := by
  induction turns generalizing dest2 src m with
  | zero => cases h
  | succ turns ih =>
      rw [strcatLoop] at h
      split at h
      · obtain ⟨rest, hrest⟩ := ih h
        refine ⟨(dest2 + 1) :: rest, hrest.trans ?_⟩
        exact List.append_assoc ..
      · cases h
        exact ⟨[], rfl⟩

/-- The first store of `strcat` is in front of the end of the string. -/
theorem strcat_first_write (ha : HoldsString m.data dest a)
    (h : strcat dest src turns m = some m') :
    ∃ rest, m'.writes = m.writes ++ (dest + (a.length - 1)) :: rest := by
  obtain ⟨len, hlen, hloop⟩ := Option.bind_eq_some_iff.mp h
  have hcount : len = 0 + a.length :=
    strlen_from_eq (by rwa [Int.natCast_zero, Int.add_zero]) hlen
  rw [Nat.zero_add] at hcount
  subst hcount
  exact strcat_loop_writes hloop

/-- That byte is not one that may be written. -/
theorem not_concatenates {rest : List Int}
    (hwrites : m'.writes = m.writes ++ (dest + (a.length - 1)) :: rest) :
    ¬ Concatenates dest a b m m' := by
  intro h
  obtain ⟨new, hnew, hinside⟩ := h.inside
  have hsame := List.append_cancel_left (hwrites.symm.trans hnew)
  have hfirst := hinside (dest + (a.length - 1)) (hsame ▸ List.mem_cons_self)
  omega

/-- `strcat` appends no string to another one. -/
theorem strcat_never_concatenates (src : Int) (b : List UInt8) (ha : HoldsString m.data dest a) :
    ¬ ∃ turns m', strcat dest src turns m = some m' ∧ Concatenates dest a b m m' := by
  rintro ⟨turns, m', hrun, hconcat⟩
  obtain ⟨rest, hwrites⟩ := strcat_first_write ha hrun
  exact not_concatenates hwrites hconcat

/-- The characters `x` of the strings are lost. -/
theorem strcat_never_concatenates_xs :
    ¬ ∃ turns m', strcat 0 8 turns ⟨fun p => if p % 8 = 0 then 120 else 0, []⟩ = some m' ∧
      Concatenates 0 [120] [120] ⟨fun p => if p % 8 = 0 then 120 else 0, []⟩ m' :=
  strcat_never_concatenates 8 [120] ⟨rfl, by decide, rfl⟩

end Loops

/-- The string `a` at the address 0, followed by nothing, and `b` at the address 8. -/
theorem strcat_overwrites : ¬ ∀ (m : CharMemory) (dest src : Int) (a b : List UInt8),
    HoldsString m.data dest a → HoldsString m.data src b →
      src + b.length < dest ∨ dest + (a.length + b.length) < src →
      ∃ turns m', strcat dest src turns m = some m' ∧ Concatenates dest a b m m' := by
  intro hclaim
  let m : CharMemory := ⟨fun p => if p = 0 then 97 else if p = 8 then 98 else 0, []⟩
  have ha : HoldsString m.data 0 [97] := ⟨rfl, by decide, rfl⟩
  obtain ⟨turns, m', hrun, hconcat⟩ := hclaim m 0 8 [97] [98] ha ⟨rfl, by decide, rfl⟩
    (by decide)
  obtain ⟨rest, hwrites⟩ := strcat_first_write ha hrun
  exact not_concatenates hwrites hconcat

end Kogata.Common
