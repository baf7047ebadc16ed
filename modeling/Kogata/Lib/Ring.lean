import Mathlib.Data.List.Range
import Mathlib.Tactic.Common

/-!
# Bounds-checked block copies and circular buffers

`load` and `store` copy a block out of and into a fixed array and fail when the block leaves
it. `contents cells first used` lists the `used` cells of a circular buffer that starts at
`first`. The main lemmas say that the queue splits at any length (`contents_add`), that a block
which does not wrap is a plain slice (`contents_eq_slice`), and that a store behind the last
used cell appends (`contents_overwrite`, `contents_overwrite_wrapped` and
`contents_overwrite_pieces`).
-/

namespace Lib.Ring

variable {α : Type*} [Inhabited α] {size : Nat}

/-- The `len` cells of the array from `pos` on. -/
def slice (cells : Vector α size) (pos len : Nat) : List α :=
  (List.range len).map fun i => cells[pos + i]!

/-- Copy `len` cells out of the array from `pos`; `none` when the block leaves the array. -/
def load (cells : Vector α size) (pos len : Nat) : Option (List α) :=
  if pos + len ≤ size then some (slice cells pos len) else none

/-- Overwrite the cells of the array from `pos` on with the block. -/
def overwrite (cells : Vector α size) (pos : Nat) (block : List α) : Vector α size :=
  Vector.ofFn fun i =>
    if pos ≤ i.val ∧ i.val < pos + block.length then block[i.val - pos]! else cells[i.val]!

/-- Copy a block into the array at `pos`; `none` when the block leaves the array. -/
def store (cells : Vector α size) (pos : Nat) (block : List α) : Option (Vector α size) :=
  if pos + block.length ≤ size then some (overwrite cells pos block) else none

/-- The queue held by a circular buffer: `used` cells from `first` on, wrapping at the end. -/
def contents (cells : Vector α size) (first used : Nat) : List α :=
  (List.range used).map fun i => cells[(first + i) % size]!

@[simp] theorem length_slice (cells : Vector α size) (pos len : Nat) :
    (slice cells pos len).length = len := by
  simp [slice]

@[simp] theorem length_contents (cells : Vector α size) (first used : Nat) :
    (contents cells first used).length = used := by
  simp [contents]

@[simp] theorem contents_zero (cells : Vector α size) (first : Nat) :
    contents cells first 0 = [] := rfl

/-- A load inside the array succeeds. -/
theorem load_eq (cells : Vector α size) {pos len : Nat} (h : pos + len ≤ size) :
    load cells pos len = some (slice cells pos len) :=
  if_pos h

/-- A store inside the array succeeds. -/
theorem store_eq (cells : Vector α size) {pos : Nat} {block : List α}
    (h : pos + block.length ≤ size) :
    store cells pos block = some (overwrite cells pos block) :=
  if_pos h

/-- An overwritten array, cell by cell. -/
theorem getElem!_overwrite (cells : Vector α size) (pos : Nat) (block : List α) {i : Nat}
    (hi : i < size) :
    (overwrite cells pos block)[i]! =
      if pos ≤ i ∧ i < pos + block.length then block[i - pos]! else cells[i]! := by
  rw [getElem!_pos _ i hi, getElem!_pos cells i hi]
  simp [overwrite]

/-- A queue is a shorter queue followed by the queue that starts where it ends. -/
theorem contents_add (cells : Vector α size) (first m n : Nat) :
    contents cells first (m + n) = contents cells first m ++ contents cells (first + m) n := by
  simp [contents, List.range_add, Nat.add_assoc]

/-- Only the position of the first cell modulo the size matters. -/
theorem contents_mod (cells : Vector α size) (first used : Nat) :
    contents cells (first % size) used = contents cells first used := by
  simp [contents]

/-- A queue that does not reach past the end is a plain slice. -/
theorem contents_eq_slice (cells : Vector α size) {first used : Nat} (h : first + used ≤ size) :
    contents cells first used = slice cells first used := by
  refine List.map_congr_left fun i hi => ?_
  have hlt : first + i < size := by
    have := List.mem_range.mp hi
    omega
  rw [Nat.mod_eq_of_lt hlt]

/-- A queue that wraps is the slice up to the end followed by a slice from the start. -/
theorem contents_eq_slices (cells : Vector α size) {first used : Nat} (hfirst : first ≤ size)
    (hwrap : size ≤ first + used) (hused : first + used ≤ size + size) :
    contents cells first used =
      slice cells first (size - first) ++ slice cells 0 (first + used - size) := by
  have hsplit : used = (size - first) + (first + used - size) := by omega
  have hend : first + (size - first) = size := by omega
  conv_lhs => rw [hsplit, contents_add, hend]
  rw [contents_eq_slice cells (by omega), ← contents_mod cells size, Nat.mod_self,
    contents_eq_slice cells (by omega)]

/-- Two arrays that agree on the used cells hold the same queue. -/
theorem contents_congr {cells other : Vector α size} {first used : Nat}
    (h : ∀ i < used, cells[(first + i) % size]! = other[(first + i) % size]!) :
    contents cells first used = contents other first used :=
  List.map_congr_left fun i hi => h i (List.mem_range.mp hi)

/-- The block just written reads back. -/
theorem slice_overwrite (cells : Vector α size) {pos : Nat} {block : List α}
    (h : pos + block.length ≤ size) :
    slice (overwrite cells pos block) pos block.length = block := by
  refine List.ext_getElem (by simp) fun i hi hib => ?_
  simp only [slice, List.getElem_map, List.getElem_range]
  rw [getElem!_overwrite cells pos block (by omega), if_pos (by omega), Nat.add_sub_cancel_left,
    getElem!_pos block i hib]

/-- A store that misses the used cells leaves the queue alone. -/
theorem contents_overwrite_disjoint (cells : Vector α size) {first used pos : Nat}
    {block : List α} (hsize : 0 < size)
    (h : ∀ i < used, (first + i) % size < pos ∨ pos + block.length ≤ (first + i) % size) :
    contents (overwrite cells pos block) first used = contents cells first used := by
  refine contents_congr fun i hi => ?_
  rw [getElem!_overwrite cells pos block (Nat.mod_lt _ hsize), if_neg (by have := h i hi; omega)]

/-- A block stored right behind the last used cell, without wrapping, is appended. -/
theorem contents_overwrite (cells : Vector α size) (first used : Nat) (block : List α)
    (hsize : 0 < size) (hend : first + used + block.length ≤ size) :
    contents (overwrite cells (first + used) block) first (used + block.length) =
      contents cells first used ++ block := by
  have hblock : contents (overwrite cells (first + used) block) (first + used) block.length =
      block := (contents_eq_slice _ hend).trans (slice_overwrite cells hend)
  rw [contents_add, hblock, contents_overwrite_disjoint cells hsize]
  intro i hi
  left
  rw [Nat.mod_eq_of_lt (by omega)]
  omega

/-- A block stored behind the last used cell of a queue that already wraps is appended. -/
theorem contents_overwrite_wrapped (cells : Vector α size) (first used : Nat) (block : List α)
    (hfirst : first < size) (hwrap : size ≤ first + used) (hroom : used + block.length ≤ size) :
    contents (overwrite cells (first + used - size) block) first (used + block.length) =
      contents cells first used ++ block := by
  have hmod : (first + used) % size = first + used - size := by
    rw [Nat.mod_eq_sub_mod hwrap, Nat.mod_eq_of_lt (by omega)]
  have hend : first + used - size + block.length ≤ size := by omega
  have hblock : contents (overwrite cells (first + used - size) block) (first + used - size)
      block.length = block := (contents_eq_slice _ hend).trans (slice_overwrite cells hend)
  rw [contents_add, ← contents_mod _ (first + used), hmod, hblock,
    contents_overwrite_disjoint cells (by omega)]
  intro i hi
  rcases Nat.lt_or_ge (first + i) size with hlt | hge
  · rw [Nat.mod_eq_of_lt hlt]
    omega
  · rw [Nat.mod_eq_sub_mod hge, Nat.mod_eq_of_lt (by omega)]
    omega

/-- A block stored in two pieces, up to the end of the array and from its start, is appended. -/
theorem contents_overwrite_pieces (cells : Vector α size) (first used : Nat)
    (block0 block1 : List α) (hfirst : first < size)
    (hend : first + used + block0.length = size)
    (hroom : used + block0.length + block1.length ≤ size) :
    contents (overwrite (overwrite cells (first + used) block0) 0 block1) first
      (used + block0.length + block1.length) = contents cells first used ++ block0 ++ block1 := by
  have hwrapped := contents_overwrite_wrapped (overwrite cells (first + used) block0) first
    (used + block0.length) block1 hfirst (by omega) hroom
  have hzero : first + (used + block0.length) - size = 0 := by omega
  rw [hzero] at hwrapped
  rw [hwrapped, contents_overwrite cells first used block0 (by omega) (by omega)]

end Lib.Ring
