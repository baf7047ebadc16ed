import Mathlib.Tactic.Common

/-!
# Arrays that grow

A list as an array that is written at any index: a write behind the end first extends it with a
fill value. `getD_write` says what every index holds after a write, also behind the end, and
`slice_eq_map` what a slice is in these terms.
-/

namespace Lib.Growing

variable {α : Type}

/-- The array with `block` written at an index, with the fill value between its end and there. -/
def write (fill : α) (array : List α) (start : Nat) (block : List α) : List α :=
  (array ++ List.replicate (start - array.length) fill).take start ++ block ++
    array.drop (start + block.length)

/-- The elements from an index on, as many as there are up to a number of them. -/
def slice (array : List α) (start count : Nat) : List α :=
  (array.drop start).take count

variable {fill : α} {array block : List α} {start count i : Nat}

theorem length_write :
    (write fill array start block).length = max array.length (start + block.length) := by
  simp only [write, List.length_append, List.length_take, List.length_replicate, List.length_drop]
  omega

theorem length_slice : (slice array start count).length = min count (array.length - start) := by
  simp only [slice, List.length_take, List.length_drop]

/-- A slice that begins behind the end is empty. -/
theorem slice_of_le (h : array.length ≤ start) : slice array start count = [] := by
  rw [slice, List.drop_of_length_le h, List.take_nil]

/-- What the array is extended with is what is read behind its end. -/
theorem getD_extend : (array ++ List.replicate count fill).getD i fill = array.getD i fill := by
  simp only [List.getD_eq_getElem?_getD, List.getElem?_append, List.getElem?_replicate]
  by_cases hi : i < array.length
  · rw [if_pos hi]
  · rw [if_neg hi, List.getElem?_eq_none (by omega)]
    split <;> rfl

/-- After a write every index holds what was written there, or what it held before. -/
theorem getD_write : (write fill array start block).getD i fill =
    if start ≤ i ∧ i < start + block.length then block.getD (i - start) fill else array.getD i fill := by
  have hfront : ((array ++ List.replicate (start - array.length) fill).take start).length = start := by
    simp only [List.length_take, List.length_append, List.length_replicate]
    omega
  rw [write, List.append_assoc, List.getD_eq_getElem?_getD, List.getElem?_append, hfront]
  by_cases hbefore : i < start
  · rw [if_pos hbefore, if_neg (by omega), List.getElem?_take_of_lt hbefore,
      ← List.getD_eq_getElem?_getD, getD_extend]
  · rw [if_neg hbefore, List.getElem?_append]
    by_cases hinside : i < start + block.length
    · rw [if_pos (by omega), if_pos (by omega), List.getD_eq_getElem?_getD]
    · rw [if_neg (by omega), if_neg (by omega), List.getElem?_drop, List.getD_eq_getElem?_getD]
      exact congrArg (fun k => array[k]?.getD fill) (by omega)

/-- Arrays of one length that hold the same at every index are the same. -/
theorem ext_getD {other : List α} (hlength : array.length = other.length)
    (h : ∀ i, array.getD i fill = other.getD i fill) : array = other := by
  refine List.ext_getElem hlength fun i hi hi' => ?_
  have hsame := h i
  rwa [List.getD_eq_getElem?_getD, List.getD_eq_getElem?_getD, List.getElem?_eq_getElem hi,
    List.getElem?_eq_getElem hi', Option.getD_some, Option.getD_some] at hsame

/-- It makes no difference whether the array is extended before it is written. -/
theorem write_extend (h : array.length + count ≤ start + block.length) :
    write fill (array ++ List.replicate count fill) start block = write fill array start block := by
  refine ext_getD ?_ fun i => (?_ : _ = List.getD _ i fill)
  · simp only [length_write, List.length_append, List.length_replicate]
    omega
  · simp only [getD_write, getD_extend]

/-- Writing nothing inside of the array changes nothing. -/
theorem write_nil (h : start ≤ array.length) : write fill array start [] = array := by
  rw [write, Nat.sub_eq_zero_of_le h, List.replicate_zero, List.append_nil, List.append_nil,
    List.length_nil, Nat.add_zero, List.take_append_drop]

/-- Two blocks that are written one behind the other are one block. -/
theorem write_append {next : List α} : write fill array start (block ++ next) =
    write fill (write fill array start block) (start + block.length) next := by
  refine ext_getD ?_ fun i => (?_ : _ = List.getD _ i fill)
  · simp only [length_write, List.length_append]
    omega
  · simp only [getD_write, List.length_append]
    by_cases hbefore : i < start + block.length
    · rw [if_neg (show ¬(start + block.length ≤ i ∧ i < start + block.length + next.length) by omega)]
      by_cases hinside : start ≤ i
      · rw [if_pos ⟨hinside, by omega⟩, if_pos ⟨hinside, hbefore⟩, List.getD_eq_getElem?_getD,
          List.getElem?_append_left (by omega), ← List.getD_eq_getElem?_getD]
      · rw [if_neg (by omega), if_neg (by omega)]
    · by_cases hnext : i < start + block.length + next.length
      · rw [if_pos ⟨by omega, by omega⟩, if_pos ⟨by omega, hnext⟩, List.getD_eq_getElem?_getD,
          List.getElem?_append_right (by omega), ← List.getD_eq_getElem?_getD]
        exact congrArg (fun k => next.getD k fill) (by omega)
      · rw [if_neg (by omega), if_neg (by omega), if_neg (by omega)]

/-- A slice, index by index. -/
theorem slice_eq_map : slice array start count =
    (List.range (min count (array.length - start))).map fun i => array.getD (start + i) fill := by
  refine List.ext_getElem (by simp [length_slice]) fun i hi _ => ?_
  rw [length_slice] at hi
  rw [List.getElem_map, List.getElem_range, List.getD_eq_getElem?_getD,
    List.getElem?_eq_getElem (by omega), Option.getD_some]
  simp only [slice, List.getElem_take, List.getElem_drop]

end Lib.Growing
