import Mathlib.Data.List.Range
import Mathlib.Logic.Function.Basic
import Mathlib.Tactic.Common

/-!
# `memmove`

The function of `common/libc/string.c`. Where the destination is not below the source the loop
counts its index down from `count` and not from `count - 1`, so that it moves the blocks that begin
one byte further.
-/

namespace Kogata.Common

/-- A memory, with the addresses of the bytes that have been read or written. -/
structure ByteMemory where
  data : Nat → UInt8
  accesses : List Nat

/-- `*dest = *src`. -/
def ByteMemory.copyByte (m : ByteMemory) (dest src : Nat) : ByteMemory where
  data := Function.update m.data dest (m.data src)
  accesses := m.accesses ++ [src, dest]

/-- `memmove`. -/
def memmove (dest src count : Nat) (m : ByteMemory) : ByteMemory :=
  if dest < src then
    (List.range count).foldl (fun m i => m.copyByte (dest + i) (src + i)) m
  else
    (List.range count).foldl (fun m i => m.copyByte (dest + (count - i)) (src + (count - i))) m

/-- The block has been moved, and nothing else has been changed or accessed. -/
structure Moved (dest src count : Nat) (m m' : ByteMemory) : Prop where
  copied : ∀ i < count, m'.data (dest + i) = m.data (src + i)
  frame : ∀ a, a < dest ∨ dest + count ≤ a → m'.data a = m.data a
  inside : ∃ new, m'.accesses = m.accesses ++ new ∧
    ∀ a ∈ new, dest ≤ a ∧ a < dest + count ∨ src ≤ a ∧ a < src + count

section Loops

variable {dest src count a : Nat} {m m' : ByteMemory}

theorem copy_byte_self : (m.copyByte dest src).data dest = m.data src :=
  Function.update_self ..

theorem copy_byte_of_ne (h : a ≠ dest) : (m.copyByte dest src).data a = m.data a :=
  Function.update_of_ne h ..

theorem moved_nothing : Moved dest src 0 m m :=
  ⟨fun i hi => absurd hi (Nat.not_lt_zero i), fun _ _ => rfl, [], (List.append_nil _).symm,
    fun _ ha => by cases ha⟩

/-- A block that begins below its source is moved upwards: the next byte of the source has not been
overwritten. -/
theorem Moved.next (hbelow : dest < src) (h : Moved dest src count m m') :
    Moved dest src (count + 1) m (m'.copyByte (dest + count) (src + count)) := by
  obtain ⟨hcopied, hframe, new, haccesses, hinside⟩ := h
  refine ⟨fun i hi => ?_, fun a ha => ?_, new ++ [src + count, dest + count], ?_, fun a ha => ?_⟩
  · by_cases hlast : i = count
    · rw [hlast, copy_byte_self]
      exact hframe _ (.inr (by omega))
    · rw [copy_byte_of_ne (by omega)]
      exact hcopied i (by omega)
  · rw [copy_byte_of_ne (by omega)]
    exact hframe a (by omega)
  · show m'.accesses ++ _ = _
    rw [haccesses, List.append_assoc]
  · rcases List.mem_append.mp ha with hold | hnew
    · have hold := hinside a hold
      omega
    · have hnew : a = src + count ∨ a = dest + count := by simpa using hnew
      omega

/-- The loop for a destination below the source. -/
theorem memmove_up (hbelow : dest < src) : Moved dest src count m (memmove dest src count m) := by
  rw [memmove, if_pos hbelow]
  induction count with
  | zero => exact moved_nothing
  | succ count ih =>
      rw [List.range_succ, List.foldl_append]
      exact ih.next hbelow

/-- Its first turn writes behind the destination. -/
theorem memmove_down_overruns (habove : src ≤ dest) (hcount : 0 < count) :
    ∃ rest, (memmove dest src count m).accesses =
      m.accesses ++ ([src + count, dest + count] ++ rest) := by
  rw [memmove, if_neg (Nat.not_lt_of_le habove)]
  have hkeeps : ∀ (l : List Nat) (m : ByteMemory), ∃ rest, (l.foldl
      (fun m i => m.copyByte (dest + (count - i)) (src + (count - i))) m).accesses =
        m.accesses ++ rest := by
    intro l
    induction l with
    | nil => exact fun m => ⟨[], (List.append_nil _).symm⟩
    | cons i l ih =>
        intro m
        obtain ⟨rest, hrest⟩ := ih (m.copyByte (dest + (count - i)) (src + (count - i)))
        exact ⟨_, hrest.trans (List.append_assoc ..)⟩
  obtain ⟨n, rfl⟩ : ∃ n, count = n + 1 := ⟨count - 1, by omega⟩
  rw [List.range_succ_eq_map, List.foldl_cons]
  obtain ⟨rest, hrest⟩ := hkeeps ((List.range n).map Nat.succ)
    (m.copyByte (dest + (n + 1 - 0)) (src + (n + 1 - 0)))
  exact ⟨rest, hrest.trans (List.append_assoc ..)⟩

/-- `memmove` moves the block and touches nothing else if and only if the destination is below the
source, or nothing is to be moved. -/
theorem memmove_moves_iff :
    Moved dest src count m (memmove dest src count m) ↔ dest < src ∨ count = 0 := by
  constructor
  · intro hmoved
    by_contra hneither
    obtain ⟨habove, hcount⟩ := not_or.mp hneither
    obtain ⟨rest, hrest⟩ :=
      memmove_down_overruns (m := m) (Nat.le_of_not_lt habove) (Nat.pos_of_ne_zero hcount)
    obtain ⟨new, haccesses, hinside⟩ := hmoved.inside
    have hnew := List.append_cancel_left (hrest.symm.trans haccesses)
    have hbehind := hinside (dest + count) (by rw [← hnew]; simp)
    omega
  · rintro (hbelow | rfl)
    · exact memmove_up hbelow
    · unfold memmove
      split
      · exact moved_nothing
      · exact moved_nothing

end Loops

/-- One byte, to the next address. -/
theorem memmove_misses_byte :
    ¬∀ (m : ByteMemory) (dest src count : Nat),
      Moved dest src count m (memmove dest src count m) := by
  intro hclaim
  have hbyte := (hclaim ⟨fun a => UInt8.ofNat a, []⟩ 1 0 1).copied 0 (by decide)
  exact absurd hbyte (by decide)

end Kogata.Common
