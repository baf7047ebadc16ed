import Mathlib.Logic.Function.Basic
import Mathlib.Tactic.Common

/-!
# The hash table

`common/libkogata/hashtbl.c`. A chain of `hashtbl_item_t` is the list of its bindings, and
`items` gives the chain of every slot. A call takes the answers of its `malloc`s, in the order of
the code, and gives the bindings that it hands to `releasef`, in the order of the calls.
-/

namespace Kogata.Common

/-- `key_eq_fun_t` and `hash_fun_t`. -/
structure KeyFuns (κ : Type) where
  ef : κ → κ → Bool
  hf : κ → UInt32

/-- `DEFAULT_HT_INIT_SIZE`. -/
abbrev defaultHtInitSize : Nat := 16

/-- `SLOT_OF_HASH`. -/
def slotOfHash (hash : UInt32) (nslots : Nat) : Nat :=
  (hash * 21179).toNat % nslots

/-- `hashtbl_t`. -/
structure Hashtbl {κ : Type} (funs : KeyFuns κ) (ν : Type) where
  size : Nat
  nitems : Nat
  items : Nat → List (κ × ν)

namespace Hashtbl

variable {κ ν : Type} {funs : KeyFuns κ}

/-- `create_hashtbl`, where both `malloc`s succeed. -/
def create : Hashtbl funs ν where
  size := defaultHtInitSize
  nitems := 0
  items := fun _ => []

/-- The slot of a key in a table of the given size. -/
def slot (funs : KeyFuns κ) (key : κ) (nslots : Nat) : Nat :=
  slotOfHash (funs.hf key) nslots

/-- The bindings in the order of `hashtbl_iter`. -/
def iter (t : Hashtbl funs ν) : List (κ × ν) :=
  (List.range t.size).flatMap t.items

/-- The loop of `hashtbl_check_size` that moves the bindings, one after the other, to the head of
their new chain. -/
def rehash (funs : KeyFuns κ) (nsize : Nat) :
    List (κ × ν) → (Nat → List (κ × ν)) → Nat → List (κ × ν)
  | [], nitems => nitems
  | x :: rest, nitems =>
      let s := slot funs x.1 nsize
      rehash funs nsize rest (Function.update nitems s (x :: nitems s))

/-- `hashtbl_check_size`; `allocated` is the answer of its `malloc`. -/
def checkSize (t : Hashtbl funs ν) (allocated : Bool) : Hashtbl funs ν :=
  let nsize :=
    if 4 * t.nitems > 3 * t.size then t.size * 2
    else if 4 * t.nitems < t.size then t.size / 2
    else 0
  if nsize ≠ 0 ∧ nsize ≥ defaultHtInitSize then
    if allocated then { t with size := nsize, items := rehash funs nsize t.iter fun _ => [] }
    else t
  else t

/-- The chain without its first binding of the key, at the head or behind it, and that
binding. -/
def unlink (funs : KeyFuns κ) (key : κ) : List (κ × ν) → Option (κ × ν) × List (κ × ν)
  | [] => (none, [])
  | x :: rest =>
      if funs.ef x.1 key then (some x, rest)
      else
        let (found, rest) := unlink funs key rest
        (found, x :: rest)

/-- `hashtbl_remove`, with what it releases. -/
def remove (t : Hashtbl funs ν) (allocated : Bool) (key : κ) : Hashtbl funs ν × List (κ × ν) :=
  let s := slot funs key t.size
  if (t.items s).isEmpty then (t, [])
  else
    let (x, chain) := unlink funs key (t.items s)
    let t := { t with
      nitems := if x.isSome then t.nitems - 1 else t.nitems
      items := Function.update t.items s chain }
    (t.checkSize allocated, x.toList)

/-- `hashtbl_add`: its result, the table, and what it releases. The answers are those of its own
`malloc`, of the one in `hashtbl_remove` and of the last one. -/
def add (t : Hashtbl funs ν) (allocated shrunk grown : Bool) (key : κ) (v : ν) :
    Bool × Hashtbl funs ν × List (κ × ν) :=
  if allocated then
    let (t, released) := t.remove shrunk key
    let s := slot funs key t.size
    let t := { t with
      nitems := t.nitems + 1
      items := Function.update t.items s ((key, v) :: t.items s) }
    (true, t.checkSize grown, released)
  else (false, t, [])

/-- `hashtbl_find`. -/
def find (t : Hashtbl funs ν) (key : κ) : Option ν :=
  ((t.items (slot funs key t.size)).find? fun b => funs.ef b.1 key).map Prod.snd

/-- The chain with a new value in its first binding of the key. -/
def changeFirst (funs : KeyFuns κ) (key : κ) (newval : ν) :
    List (κ × ν) → Option (List (κ × ν))
  | [] => none
  | x :: rest =>
      if funs.ef x.1 key then some ((x.1, newval) :: rest)
      else (changeFirst funs key newval rest).map (x :: ·)

/-- `hashtbl_change`: its result and the table. It releases nothing. -/
def change (t : Hashtbl funs ν) (key : κ) (newval : ν) : Bool × Hashtbl funs ν :=
  let s := slot funs key t.size
  match changeFirst funs key newval (t.items s) with
  | none => (false, t)
  | some chain => (true, { t with items := Function.update t.items s chain })

/-- `hashtbl_count`. -/
def count (t : Hashtbl funs ν) : Nat :=
  t.nitems

/-- `delete_hashtbl`: what it releases. It takes the chains from the head, slot by slot. -/
def delete (t : Hashtbl funs ν) : List (κ × ν) :=
  t.iter

end Hashtbl

end Kogata.Common
