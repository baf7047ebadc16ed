import Mathlib.Tactic.Common

/-!
# The ordered index

`common/libkogata/btree.c`: a binary search tree that may hold several bindings of one key.
`Item` is a pointer to a `btree_item_t`, with `nil` for the null pointer. Every node carries the
`height` field that the C code stores there, which is what the rotations test, and not the
height that the tree really has. The functions that remove bindings also give the list of
bindings that they hand to `releasef`, in the order of the calls.
-/

namespace Kogata.Common

/-- `btree_item_t *`. -/
inductive Item (κ ν : Type) where
  | nil
  | node (key : κ) (val : ν) (height : Nat) (left right : Item κ ν)
  deriving DecidableEq

namespace Item

variable {κ ν : Type}

/-- The static `height`: zero on the null pointer. -/
def height : Item κ ν → Nat
  | nil => 0
  | node _ _ h _ _ => h

/-- A node whose stored height is the one `btree_recalc_height` computes. -/
def recalcHeight (key : κ) (val : ν) (left right : Item κ ν) : Item κ ν :=
  node key val (max left.height right.height + 1) left right

/-- The first loop of `btree_equilibrate`: rotate left while the left child is stored as more
than one higher. The node before a rotation is given by its fields. -/
def rotateLeftWhile (key : κ) (val : ν) (h : Nat) : Item κ ν → Item κ ν → Item κ ν
  | nil, right => node key val h nil right
  | node xkey xval xh a b, right =>
      if xh ≥ right.height + 2 then
        let i := recalcHeight key val b right
        rotateLeftWhile xkey xval (max a.height i.height + 1) a i
      else node key val h (node xkey xval xh a b) right

/-- The second loop of `btree_equilibrate`, on the right child. -/
def rotateRightWhile (key : κ) (val : ν) (h : Nat) (left : Item κ ν) : Item κ ν → Item κ ν
  | nil => node key val h left nil
  | node ykey yval yh a b =>
      if yh ≥ left.height + 2 then
        let i := recalcHeight key val left a
        rotateRightWhile ykey yval (max i.height b.height + 1) i b
      else node key val h left (node ykey yval yh a b)

/-- The first loop on an item. -/
def leanLeft : Item κ ν → Item κ ν
  | nil => nil
  | node key val h left right => rotateLeftWhile key val h left right

/-- The second loop on an item. -/
def leanRight : Item κ ν → Item κ ν
  | nil => nil
  | node key val h left right => rotateRightWhile key val h left right

/-- `btree_equilibrate`. -/
def equilibrate (i : Item κ ν) : Item κ ν :=
  i.leanLeft.leanRight

/-- `_btree_insert` of a new item: to the left of the items with an equal key on its way. -/
def insert (cf : κ → κ → Ordering) (key : κ) (val : ν) : Item κ ν → Item κ ν
  | nil => recalcHeight key val nil nil
  | node rkey rval _ left right =>
      if (cf key rkey).isLE then
        equilibrate (recalcHeight rkey rval (insert cf key val left) right)
      else
        equilibrate (recalcHeight rkey rval left (insert cf key val right))

/-- `_btree_extract_smallest` (and its copy for `_btree_remove_aux_v`) on the node with the
given fields: the smallest binding, and the tree without it. -/
def extractSmallest (key : κ) (val : ν) : Item κ ν → Item κ ν → (κ × ν) × Item κ ν
  | nil, right => ((key, val), right)
  | node lkey lval _ a b, right =>
      let (smallest, left) := extractSmallest lkey lval a b
      (smallest, equilibrate (recalcHeight key val left right))

/-- What `_btree_remove_aux` and `_btree_remove_aux_v` put in the place of a removed node. -/
def joinChildren : Item κ ν → Item κ ν → Item κ ν
  | left, nil => left
  | nil, right => right
  | left, node rkey rval _ a b =>
      let (smallest, right) := extractSmallest rkey rval a b
      equilibrate (recalcHeight smallest.1 smallest.2 left right)

/-- The number of items, for the termination of the removals. -/
def count : Item κ ν → Nat
  | nil => 0
  | node _ _ _ left right => left.count + 1 + right.count

@[simp] theorem count_recalc_height (key : κ) (val : ν) (left right : Item κ ν) :
    (recalcHeight key val left right).count = left.count + 1 + right.count := rfl

theorem count_rotate_left_while (key : κ) (val : ν) (h : Nat) (left right : Item κ ν) :
    (rotateLeftWhile key val h left right).count = left.count + 1 + right.count := by
  induction left generalizing key val h right with
  | nil => rfl
  | node xkey xval xh a b iha ihb =>
      unfold rotateLeftWhile
      split
      · rw [iha]
        simp only [count_recalc_height, count]
        omega
      · rfl

theorem count_rotate_right_while (key : κ) (val : ν) (h : Nat) (left right : Item κ ν) :
    (rotateRightWhile key val h left right).count = left.count + 1 + right.count := by
  induction right generalizing key val h left with
  | nil => rfl
  | node ykey yval yh a b iha ihb =>
      unfold rotateRightWhile
      split
      · rw [ihb]
        simp only [count_recalc_height, count]
        omega
      · rfl

@[simp] theorem count_lean_left (i : Item κ ν) : i.leanLeft.count = i.count := by
  cases i with
  | nil => rfl
  | node key val h left right => exact count_rotate_left_while key val h left right

@[simp] theorem count_lean_right (i : Item κ ν) : i.leanRight.count = i.count := by
  cases i with
  | nil => rfl
  | node key val h left right => exact count_rotate_right_while key val h left right

/-- Rotations keep the number of items. -/
@[simp] theorem count_equilibrate (i : Item κ ν) : i.equilibrate.count = i.count := by
  simp [equilibrate]

theorem count_extract_smallest (key : κ) (val : ν) (left right : Item κ ν) :
    (extractSmallest key val left right).2.count = left.count + right.count := by
  induction left generalizing key val right with
  | nil => simp [extractSmallest, count]
  | node lkey lval lh a b iha ihb =>
      simp only [extractSmallest, count_equilibrate, count_recalc_height, iha, count]
      omega

/-- Joining the children of a node takes that node away. -/
@[simp] theorem count_join_children (left right : Item κ ν) :
    (joinChildren left right).count = left.count + right.count := by
  cases left with
  | nil => cases right <;> simp [joinChildren, count]
  | node lkey lval lh a b =>
      cases right with
      | nil => simp [joinChildren, count]
      | node rkey rval rh c d =>
          simp only [joinChildren, count_equilibrate, count_recalc_height,
            count_extract_smallest, count]
          omega

/-- `_btree_remove_aux`: the tree without the bindings of the key, and the released ones. -/
def removeAux (cf : κ → κ → Ordering) (key : κ) (i : Item κ ν) : Item κ ν × List (κ × ν) :=
  match i with
  | nil => (nil, [])
  | node ikey ival h left right =>
      match cf key ikey with
      | .lt =>
          let (left, released) := removeAux cf key left
          (equilibrate (node ikey ival h left right), released)
      | .gt =>
          let (right, released) := removeAux cf key right
          (equilibrate (node ikey ival h left right), released)
      | .eq =>
          let (rest, released) := removeAux cf key (joinChildren left right)
          (rest, (ikey, ival) :: released)
termination_by i.count
decreasing_by all_goals simp [count]; try omega

/-- `_btree_remove_aux_v`: the tree without the bindings of the key to the value. -/
def removeAuxV [DecidableEq ν] (cf : κ → κ → Ordering) (key : κ) (val : ν) (i : Item κ ν) :
    Item κ ν × List (κ × ν) :=
  match i with
  | nil => (nil, [])
  | node ikey ival h left right =>
      match cf key ikey with
      | .lt =>
          let (left, released) := removeAuxV cf key val left
          (equilibrate (node ikey ival h left right), released)
      | .gt =>
          let (right, released) := removeAuxV cf key val right
          (equilibrate (node ikey ival h left right), released)
      | .eq =>
          if ival = val then
            let (rest, released) := removeAuxV cf key val (joinChildren left right)
            (rest, (ikey, ival) :: released)
          else
            let (left, released) := removeAuxV cf key val left
            let (right, released') := removeAuxV cf key val right
            (equilibrate (recalcHeight ikey ival left right), released ++ released')
termination_by i.count
decreasing_by all_goals simp [count]; try omega

/-- `_btree_find_aux`. -/
def findAux (cf : κ → κ → Ordering) (key : κ) : Item κ ν → Option (κ × ν)
  | nil => none
  | node ikey ival _ left right =>
      match cf key ikey with
      | .eq => some (ikey, ival)
      | .lt => findAux cf key left
      | .gt => findAux cf key right

/-- `_btree_lower_aux`. -/
def lowerAux (cf : κ → κ → Ordering) (key : κ) : Item κ ν → Option (κ × ν)
  | nil => none
  | node ikey ival _ left right =>
      match cf key ikey with
      | .eq => some (ikey, ival)
      | .lt => lowerAux cf key left
      | .gt => (lowerAux cf key right).or (some (ikey, ival))

/-- `_btree_upper_aux`. -/
def upperAux (cf : κ → κ → Ordering) (key : κ) : Item κ ν → Option (κ × ν)
  | nil => none
  | node ikey ival _ left right =>
      match cf key ikey with
      | .eq => some (ikey, ival)
      | .lt => (upperAux cf key left).or (some (ikey, ival))
      | .gt => upperAux cf key right

/-- `_btree_iter_on_aux`: the bindings that it visits. -/
def iterOnAux (cf : κ → κ → Ordering) (key : κ) : Item κ ν → List (κ × ν)
  | nil => []
  | node ikey ival _ left right =>
      match cf key ikey with
      | .eq => iterOnAux cf key left ++ (ikey, ival) :: iterOnAux cf key right
      | .lt => iterOnAux cf key left
      | .gt => iterOnAux cf key right

/-- The bindings in the order of `_btree_iter_aux`. -/
def toList : Item κ ν → List (κ × ν)
  | nil => []
  | node key val _ left right => left.toList ++ (key, val) :: right.toList

end Item

/-- `btree_t` with comparison function `cf`. -/
structure Btree {κ : Type} (cf : κ → κ → Ordering) (ν : Type) where
  root : Item κ ν
  nitems : Int

namespace Btree

variable {κ ν : Type} {cf : κ → κ → Ordering}

/-- `create_btree`. -/
def create : Btree cf ν :=
  { root := .nil, nitems := 0 }

/-- `btree_add`; `allocated` is the answer of its `malloc`, and `none` the result `false`. -/
def add (t : Btree cf ν) (allocated : Bool) (key : κ) (val : ν) : Option (Btree cf ν) :=
  if allocated then some { root := t.root.insert cf key val, nitems := t.nitems + 1 } else none

/-- `btree_remove`. -/
def remove (t : Btree cf ν) (key : κ) : Btree cf ν × List (κ × ν) :=
  let (root, released) := t.root.removeAux cf key
  ({ root := root, nitems := t.nitems - released.length }, released)

/-- `btree_remove_v`. -/
def removeV [DecidableEq ν] (t : Btree cf ν) (key : κ) (val : ν) :
    Btree cf ν × List (κ × ν) :=
  let (root, released) := t.root.removeAuxV cf key val
  ({ root := root, nitems := t.nitems - released.length }, released)

/-- `btree_find`. -/
def find (t : Btree cf ν) (key : κ) : Option ν :=
  (t.root.findAux cf key).map Prod.snd

/-- `btree_lower`: the value and the `actual_key`. -/
def lower (t : Btree cf ν) (key : κ) : Option (κ × ν) :=
  t.root.lowerAux cf key

/-- `btree_upper`: the value and the `actual_key`. -/
def upper (t : Btree cf ν) (key : κ) : Option (κ × ν) :=
  t.root.upperAux cf key

/-- The bindings that `btree_iter_on` visits. -/
def iterOn (t : Btree cf ν) (key : κ) : List (κ × ν) :=
  t.root.iterOnAux cf key

/-- `btree_count`. -/
def count (t : Btree cf ν) : Int :=
  t.nitems

/-- The bindings in the order of `btree_iter`. -/
def toList (t : Btree cf ν) : List (κ × ν) :=
  t.root.toList

end Btree

/-- `id_key_cmp_fun`: pointers compare as unsigned integers. -/
def idKeyCmpFun (a b : UInt32) : Ordering :=
  if a = b then .eq else if a < b then .lt else .gt

end Kogata.Common
