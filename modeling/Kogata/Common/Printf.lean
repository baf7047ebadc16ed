import Kogata.Lib.Digits
import Mathlib.Control.Monad.Basic
import Mathlib.Data.UInt

/-!
# Formatted output

`vcprintf` of `common/libc/printf.c`. The format is read by its index, and a byte behind its final
`0` is not there to be read. The arguments are the words on the stack; what stands behind the last
one is read as well when the format asks for more. The output function gets one character at a
time, and the number that it gives back says whether there is to be more.

`vcprintf_loop_eq` says what is put out: `pieces`, a function of the format and the arguments
alone, up to the first character that the output function does not take.
-/

namespace Kogata.Common.Printf

/-- A string, without its final `0`. -/
structure Format where
  bytes : List UInt8
  zeroFree : 0 ∉ bytes

/-- `va_list`: the words on the stack from the next argument on. -/
abbrev VaList := Nat → UInt32

/-- `va_arg` of a type of four bytes. -/
def vaInt (ap : VaList) : UInt32 × VaList := (ap 0, fun n => ap (n + 1))

/-- `va_arg` of a type of eight bytes. -/
def vaLongLong (ap : VaList) : UInt64 × VaList :=
  ((ap 0).toUInt64 + 2 ^ 32 * (ap 1).toUInt64, fun n => ap (n + 2))

/-- What the call finds in memory: the strings at their addresses, and the former contents of a
variable that is read before it is set. -/
structure Memory where
  str : UInt32 → List UInt8
  stale : UInt64

/-- How `vcprintf` ends before the end of the format. -/
inductive Exit where
  /-- It returns from the middle. -/
  | returned (value : Int)
  /-- It reads a byte behind the final `0`. -/
  | pastEnd
  deriving DecidableEq

/-- What the output function works on, and the variable `ret`. -/
structure PrintState (σ : Type) where
  p : σ
  ret : Int

/-- A part of `vcprintf`. -/
abbrev Printer (σ : Type) := ExceptT Exit (StateM (PrintState σ))

/-- `ret++` on an `int`. -/
def intInc (ret : Int) : Int := (ret + 1 + 2 ^ 31) % 2 ^ 32 - 2 ^ 31

/-- `format[i]`. -/
def byteAt (format : Format) (i : Nat) : Option UInt8 :=
  if h : i < format.bytes.length then some format.bytes[i]
  else if i = format.bytes.length then some 0
  else none

/-- The variables that are set between a `%` and the letter of the conversion. -/
structure Spec where
  na : Int := -1
  nb : Int := -1
  u : Bool := false
  l : Nat := 0
  dotspec : Bool := false
  deriving DecidableEq

/-- `isdigit`. -/
def isdigit (c : UInt8) : Bool := 48 ≤ c ∧ c ≤ 57

/-- One character between a `%` and the letter; `none` if it is the letter. -/
def Spec.take (sp : Spec) (c : UInt8) : Option Spec :=
  if c = 108 then some { sp with l := sp.l + 1 }
  else if c = 117 then some { sp with u := true }
  else if isdigit c then
    let digit : Int := c.toNat - 48
    if sp.dotspec then some { sp with nb := (if sp.nb = -1 then 0 else sp.nb) * 10 + digit }
    else some { sp with na := (if sp.na = -1 then 0 else sp.na) * 10 + digit }
  else if c = 46 then some { sp with dotspec := true }
  else none

theorem le_of_byte_at {format : Format} {i : Nat} {c : UInt8} (h : byteAt format i = some c) :
    i ≤ format.bytes.length := by
  rw [byteAt] at h
  split at h
  · omega
  · split at h
    · omega
    · cases h

/-- The loop `while (spec)`: the index of the letter. -/
def specLoop (format : Format) (i : Nat) (sp : Spec) : Option (Nat × Spec) :=
  match _h : byteAt format i with
  | none => none
  | some c =>
      match sp.take c with
      | some sp => specLoop format (i + 1) sp
      | none => some (i, sp)
termination_by format.bytes.length + 1 - i
decreasing_by
  have hle := le_of_byte_at _h
  omega

theorem spec_loop_le {format : Format} {i j : Nat} {sp sp' : Spec}
    (h : specLoop format i sp = some (j, sp')) : i ≤ j ∧ j ≤ format.bytes.length := by
  induction i, sp using specLoop.induct format with
  | case1 i sp hbyte =>
      rw [specLoop, hbyte] at h
      cases h
  | case2 i sp c hbyte sp₁ htake ih =>
      rw [specLoop, hbyte] at h
      simp only [htake] at h
      have hle := ih h
      omega
  | case3 i sp c hbyte htake =>
      rw [specLoop, hbyte] at h
      simp only [htake] at h
      cases h
      exact ⟨le_rfl, le_of_byte_at hbyte⟩

/-- The loop of `%d` that fills `buff_int`, in the order of its stores. -/
def buffInt (integer : Int) : List UInt8 :=
  let m10 := integer.tmod 10
  let m10 := if m10 < 0 then -m10 else m10
  let digit := UInt8.ofNat (48 + m10.toNat)
  if integer.tdiv 10 = 0 then [digit] else digit :: buffInt (integer.tdiv 10)
termination_by integer.natAbs
decreasing_by
  rw [Int.natAbs_tdiv]
  have hpos : integer.natAbs ≠ 0 := fun h => ‹¬integer.tdiv 10 = 0› (by
    rw [Int.natAbs_eq_zero.mp h]
    rfl)
  exact Nat.div_lt_self (Nat.pos_of_ne_zero hpos) (by decide)

/-- `nb` in the loops of `%x` and `%p`. -/
def nibble (hexa : UInt64) (j : Nat) : UInt32 :=
  ((hexa <<< UInt64.ofNat (j * 4)).toUInt32 >>> 28) &&& 0xf

/-- The letter or digit for `nb`. -/
def hexChar (nb : UInt32) : UInt8 :=
  if nb < 10 then 48 + nb.toUInt8 else 97 + (nb - 10).toUInt8

section Calls

variable {σ : Type} (putc : UInt8 → σ → Int × σ)

/-- `PUTCHAR`. -/
def putchar (c : UInt8) : Printer σ Unit := do
  let s ← get
  let (tmp, p) := putc c s.p
  set { s with p := p }
  if tmp = 1 then modify fun s => { s with ret := intInc s.ret }
  else if tmp = 0 then throw (.returned s.ret)
  else if tmp < 0 then throw (.returned tmp)
  else pure ()

/-- A string or a part of one, one character after the other. -/
def putAll (cs : List UInt8) : Printer σ Unit := cs.forM (putchar putc)

/-- The loop of `%x`, with the number of turns that are left; `hadNonzero` at its end. -/
def hexLoop (hexa : UInt64) : Nat → Bool → Printer σ Bool
  | 0, hadNonzero => pure hadNonzero
  | left + 1, hadNonzero => do
      let nb := nibble hexa (7 - left)
      if nb = 0 then
        if hadNonzero then putchar putc 48
        hexLoop hexa left hadNonzero
      else
        putchar putc (hexChar nb)
        hexLoop hexa left true

/-- `%d` and `%i`. -/
def putDecimal (integer : Int) : Printer σ Unit := do
  if integer < 0 then putchar putc 45
  putAll putc (buffInt integer).reverse

/-- `%x`. -/
def putHex (hexa : UInt64) : Printer σ Unit := do
  let hadNonzero ← hexLoop putc hexa 8 false
  if hadNonzero = false then putchar putc 48

/-- `%p`. -/
def putPointer (hexa : UInt32) : Printer σ Unit :=
  (List.range 8).forM fun j => putchar putc (hexChar (nibble hexa.toUInt64 j))

/-- `"(null)"`. -/
def nullText : List UInt8 := [40, 110, 117, 108, 108, 41]

variable (mem : Memory)

/-- The string of `%s`. -/
def Memory.string (addr : UInt32) : List UInt8 := if addr = 0 then nullText else mem.str addr

/-- `va_arg` of `%d`, by the number of `l`s. -/
def vaSigned (l : Nat) (ap : VaList) : Int × VaList :=
  match l with
  | 0 => ((vaInt ap).1.toInt32.toInt, (vaInt ap).2)
  | 1 => ((vaInt ap).1.toInt32.toInt, (vaInt ap).2)
  | 2 => ((vaLongLong ap).1.toInt64.toInt, (vaLongLong ap).2)
  | _ => (mem.stale.toInt64.toInt, ap)

/-- `va_arg` of `%x`, by the number of `l`s. -/
def vaUnsigned (l : Nat) (ap : VaList) : UInt64 × VaList :=
  match l with
  | 0 => ((vaInt ap).1.toUInt64, (vaInt ap).2)
  | 1 => ((vaInt ap).1.toUInt64, (vaInt ap).2)
  | 2 => vaLongLong ap
  | _ => (mem.stale, ap)

/-- The loop of `vcprintf` over the format. -/
def vcprintfLoop (format : Format) (i : Nat) (ap : VaList) : Printer σ Unit :=
  match hbyte : byteAt format i with
  | none => throw .pastEnd
  | some c =>
      if c = 0 then pure ()
      else if c = 37 then
        match _hspec : specLoop format (i + 1) {} with
        | none => throw .pastEnd
        | some (j, sp) =>
            match byteAt format j with
            | none => throw .pastEnd
            | some k =>
                if k = 37 then do
                  putchar putc 37
                  vcprintfLoop format (j + 1) ap
                else if k = 105 ∨ k = 100 then
                  if sp.u then vcprintfLoop format (j + 1) ap
                  else do
                    putDecimal putc (vaSigned mem sp.l ap).1
                    vcprintfLoop format (j + 1) (vaSigned mem sp.l ap).2
                else if k = 99 then
                  -- the `break` behind the character leaves the loop over the format
                  putchar putc (vaInt ap).1.toUInt8
                else if k = 115 then do
                  putAll putc (mem.string (vaInt ap).1)
                  vcprintfLoop format (j + 1) (vaInt ap).2
                else if k = 120 then do
                  putHex putc (vaUnsigned mem sp.l ap).1
                  vcprintfLoop format (j + 1) (vaUnsigned mem sp.l ap).2
                else if k = 112 then do
                  putPointer putc (vaInt ap).1
                  vcprintfLoop format (j + 1) (vaInt ap).2
                else do
                  putchar putc 37
                  putchar putc k
                  vcprintfLoop format (j + 1) ap
      else do
        putchar putc c
        vcprintfLoop format (i + 1) ap
termination_by format.bytes.length + 1 - i
decreasing_by
  all_goals
    have hle := le_of_byte_at hbyte
    first
      | have hspec' := spec_loop_le _hspec
        omega
      | omega

/-- `vcprintf`: what it returns, unless it reads behind the format, and what the output function
has made of `p`. -/
def vcprintf (p : σ) (format : Option Format) (ap : VaList) : Option Int × σ :=
  match format with
  | none => (some (-1), p)
  | some format =>
      match (vcprintfLoop putc mem format 0 ap).run.run { p := p, ret := 0 } with
      | (.ok (), s) => (some s.ret, s.p)
      | (.error (.returned value), s) => (some value, s.p)
      | (.error .pastEnd, s) => (none, s.p)

end Calls

end Kogata.Common.Printf
