import Kogata.Common.BtreeRefines
import Mathlib.Tactic.Common
import Mathlib.Algebra.GroupWithZero.Nat

/-!
# The height of the index

`btree_equilibrate` makes single rotations only, and puts a node right when the side that has
become too high is higher on its outer side. When it is higher on its inner side, the first loop
moves the excess to the other side and the second loop moves it back. `_btree_remove_aux`, on its
way down, leaves the stored height of a node as it was before the removal.

`Level` is what the code aims at: the stored heights are the real ones and the two sides of every
node differ by at most one. `Straight` and `Sheds` say of a tree that adding or removing a key in
it meets neither of the two faults.
-/

namespace Kogata.Common

namespace Item

variable {κ ν : Type}

/-- The true height. -/
def depth : Item κ ν → Nat
  | nil => 0
  | node _ _ _ left right => max left.depth right.depth + 1

/-- The true heights of the two subtrees of every node differ by at most one. -/
def Balanced : Item κ ν → Prop
  | nil => True
  | node _ _ _ left right => left.depth ≤ right.depth + 1 ∧ right.depth ≤ left.depth + 1 ∧
      left.Balanced ∧ right.Balanced

instance decidableBalanced : (i : Item κ ν) → Decidable i.Balanced
  | nil => isTrue trivial
  | node _ _ _ left right =>
      have := decidableBalanced left
      have := decidableBalanced right
      inferInstanceAs (Decidable (_ ∧ _ ∧ _ ∧ _))

/-- Two heights that a node may have below it. -/
def Close (m n : Nat) : Prop := m ≤ n + 1 ∧ n ≤ m + 1

/-- The stored heights are exact, and those of the two sides of every node are close. -/
def Level : Item κ ν → Prop
  | nil => True
  | node _ _ h left right => h = max left.height right.height + 1 ∧
      Close left.height right.height ∧ left.Level ∧ right.Level

@[simp] theorem height_nil : (nil : Item κ ν).height = 0 := rfl

@[simp] theorem height_node (key : κ) (val : ν) (h : Nat) (left right : Item κ ν) :
    (node key val h left right).height = h := rfl

@[simp] theorem height_recalc_height (key : κ) (val : ν) (left right : Item κ ν) :
    (recalcHeight key val left right).height = max left.height right.height + 1 := rfl

theorem level_recalc_height {key : κ} {val : ν} {left right : Item κ ν} (hl : left.Level)
    (hr : right.Level) (hclose : Close left.height right.height) :
    (recalcHeight key val left right).Level :=
  ⟨rfl, hclose, hl, hr⟩

theorem Level.depth {i : Item κ ν} (hi : i.Level) : i.depth = i.height := by
  induction i with
  | nil => rfl
  | node key val h left right ihl ihr =>
      obtain ⟨rfl, -, hl, hr⟩ := hi
      rw [Item.depth, ihl hl, ihr hr]
      rfl

theorem Level.balanced {i : Item κ ν} (hi : i.Level) : i.Balanced := by
  induction i with
  | nil => exact trivial
  | node key val h left right ihl ihr =>
      obtain ⟨-, hclose, hl, hr⟩ := hi
      refine ⟨?_, ?_, ihl hl, ihr hr⟩ <;> rw [hl.depth, hr.depth]
      · exact hclose.1
      · exact hclose.2

/-- A balanced tree holds exponentially many bindings in its height. -/
theorem Balanced.two_pow_le {i : Item κ ν} (hi : i.Balanced) :
    2 ^ (i.depth / 2) ≤ i.toList.length + 1 := by
  induction i with
  | nil => simp [depth]
  | node key val h left right ihl ihr =>
      obtain ⟨hleft, hright, hl, hr⟩ := hi
      -- Each side is at most two lower than the node.
      have hside : ∀ {s : Item κ ν}, 2 ^ (s.depth / 2) ≤ s.toList.length + 1 →
          max left.depth right.depth ≤ s.depth + 1 →
          2 ^ ((max left.depth right.depth + 1) / 2) ≤ 2 * (s.toList.length + 1) := by
        intro s hs hlow
        calc 2 ^ ((max left.depth right.depth + 1) / 2) ≤ 2 ^ (s.depth / 2 + 1) :=
              Nat.pow_le_pow_right (by omega) (by omega)
          _ = 2 * 2 ^ (s.depth / 2) := by rw [Nat.pow_succ, Nat.mul_comm]
          _ ≤ 2 * (s.toList.length + 1) := Nat.mul_le_mul_left 2 hs
      have hl' := hside (ihl hl) (by omega)
      have hr' := hside (ihr hr) (by omega)
      rw [depth, to_list_node, List.length_append, List.length_cons]
      omega

theorem Balanced.depth_le {i : Item κ ν} (hi : i.Balanced) :
    i.depth ≤ 2 * Nat.log2 (i.toList.length + 1) + 1 := by
  have hlog : i.depth / 2 ≤ Nat.log2 (i.toList.length + 1) :=
    (Nat.le_log2 (Nat.succ_ne_zero _)).mpr hi.two_pow_le
  omega

section Rotations

/-- The node of the given fields, as `btree_equilibrate` returns it when it stops after at most
one rotation with everything in order. -/
inductive Settled (key : κ) (val : ν) (h : Nat) : Item κ ν → Item κ ν → Item κ ν → Prop where
  | still {left right} : Close left.height right.height →
      h = max left.height right.height + 1 →
      Settled key val h left right (node key val h left right)
  | turnLeft {xkey xval xh a b right} : right.height + 2 ≤ xh →
      Close b.height right.height → Close a.height (max b.height right.height + 1) →
      Settled key val h (node xkey xval xh a b) right
        (recalcHeight xkey xval a (recalcHeight key val b right))
  | turnRight {ykey yval yh a b left} : left.height + 2 ≤ yh →
      Close left.height a.height → Close (max left.height a.height + 1) b.height →
      Settled key val h left (node ykey yval yh a b)
        (recalcHeight ykey yval (recalcHeight key val left a) b)

variable {key : κ} {val : ν} {h : Nat} {left right j : Item κ ν}

theorem lean_left_of_lt (hlow : left.height < right.height + 2) :
    (node key val h left right).leanLeft = node key val h left right := by
  cases left with
  | nil => rfl
  | node xkey xval xh a b => exact if_neg (Nat.not_le_of_lt hlow)

theorem lean_right_of_lt (hlow : right.height < left.height + 2) :
    (node key val h left right).leanRight = node key val h left right := by
  cases right with
  | nil => rfl
  | node ykey yval yh a b => exact if_neg (Nat.not_le_of_lt hlow)

theorem equilibrate_of_close (hclose : Close left.height right.height) :
    (node key val h left right).equilibrate = node key val h left right := by
  obtain ⟨hleft, hright⟩ := hclose
  rw [equilibrate, lean_left_of_lt (by omega), lean_right_of_lt (by omega)]

/-- `btree_equilibrate` returns the settled node. -/
theorem Settled.equilibrate (hs : Settled key val h left right j) :
    (node key val h left right).equilibrate = j := by
  cases hs with
  | still hclose _ => exact equilibrate_of_close hclose
  | @turnLeft xkey xval xh a b right hhigh _ hclose =>
      have hturn : (node key val h (node xkey xval xh a b) right).leanLeft =
          (recalcHeight xkey xval a (recalcHeight key val b right)).leanLeft :=
        if_pos hhigh
      rw [Item.equilibrate, hturn]
      exact equilibrate_of_close hclose
  | @turnRight ykey yval yh a b left hhigh _ hclose =>
      have hturn : (node key val h left (node ykey yval yh a b)).leanRight =
          (recalcHeight ykey yval (recalcHeight key val left a) b).leanRight :=
        if_pos hhigh
      have hlow : left.height < (node ykey yval yh a b).height + 2 := by
        rw [height_node]
        omega
      rw [Item.equilibrate, lean_left_of_lt hlow, hturn]
      refine lean_right_of_lt ?_
      have := hclose.2
      rw [height_recalc_height]
      omega

/-- A settled node is in order when its two sides are. -/
theorem Settled.level (hs : Settled key val h left right j) (hl : left.Level) (hr : right.Level) :
    j.Level := by
  cases hs with
  | still hclose hh => exact ⟨hh, hclose, hl, hr⟩
  | turnLeft _ hinner hclose =>
      obtain ⟨-, -, ha, hb⟩ := hl
      exact level_recalc_height ha (level_recalc_height hb hr hinner) hclose
  | turnRight _ hinner hclose =>
      obtain ⟨-, -, ha, hb⟩ := hr
      exact level_recalc_height (level_recalc_height hl ha hinner) hb hclose

end Rotations

section Insertion

variable {cf : κ → κ → Ordering} {key : κ} {val : ν}

/-- A new item of the key goes to the left of the root. -/
def EntersLeft (cf : κ → κ → Ordering) (key : κ) : Item κ ν → Prop
  | nil => False
  | node rkey _ _ _ _ => (cf key rkey).isLE

/-- Both sides are equally high on the whole way of a new item of the key. -/
def Grows (cf : κ → κ → Ordering) (key : κ) : Item κ ν → Prop
  | nil => True
  | node rkey _ _ left right => left.height = right.height ∧
      if (cf key rkey).isLE then left.Grows cf key else right.Grows cf key

/-- On its way, a new item of the key makes no side that is the higher one already higher still on
its inner side. -/
def Straight (cf : κ → κ → Ordering) (key : κ) : Item κ ν → Prop
  | nil => True
  | node rkey _ _ left right =>
      if (cf key rkey).isLE then
        left.Straight cf key ∧
          (right.height < left.height → left.Grows cf key → left.EntersLeft cf key)
      else
        right.Straight cf key ∧
          (left.height < right.height → right.Grows cf key → ¬right.EntersLeft cf key)

instance decidableEntersLeft (cf : κ → κ → Ordering) (key : κ) :
    (i : Item κ ν) → Decidable (i.EntersLeft cf key)
  | nil => isFalse id
  | node rkey _ _ _ _ => inferInstanceAs (Decidable ((cf key rkey).isLE = true))

instance decidableGrows (cf : κ → κ → Ordering) (key : κ) :
    (i : Item κ ν) → Decidable (i.Grows cf key)
  | nil => isTrue trivial
  | node _ _ _ left right =>
      have := decidableGrows cf key left
      have := decidableGrows cf key right
      inferInstanceAs (Decidable (_ ∧ ite _ _ _))

instance decidableStraight (cf : κ → κ → Ordering) (key : κ) :
    (i : Item κ ν) → Decidable (i.Straight cf key)
  | nil => isTrue trivial
  | node _ _ _ left right =>
      have := decidableStraight cf key left
      have := decidableStraight cf key right
      inferInstanceAs (Decidable (ite _ (_ ∧ _) (_ ∧ _)))

/-- What `_btree_insert` makes of a tree that is straight for the key. One that grows is not turned
at its root, and the side that the item has entered is the higher one. -/
structure Inserted (cf : κ → κ → Ordering) (key : κ) (val : ν) (i : Item κ ν) : Prop where
  level : (i.insert cf key val).Level
  height : (i.insert cf key val).height = i.height + if i.Grows cf key then 1 else 0
  shape : i.Grows cf key → i ≠ nil → ∃ rkey rval left right,
    i.insert cf key val = recalcHeight rkey rval left right ∧
      if i.EntersLeft cf key then left.height = right.height + 1
      else right.height = left.height + 1

/-- A side grows that was not the higher one: the other one is still close to it. -/
theorem close_grown {x x' y : Nat} {grows : Prop} [Decidable grows] (hclose : Close x y)
    (hx : x' = x + if grows then 1 else 0) (hturn : ¬(y < x ∧ grows)) :
    Close x' y ∧ max x' y = max x y + if x = y ∧ grows then 1 else 0 := by
  obtain ⟨hlow, hhigh⟩ := hclose
  by_cases hg : grows
  · have hnot : ¬y < x := fun h => hturn ⟨h, hg⟩
    rw [if_pos hg] at hx
    refine ⟨⟨by omega, by omega⟩, ?_⟩
    by_cases hsame : x = y
    · rw [if_pos ⟨hsame, hg⟩]
      omega
    · rw [if_neg fun h => hsame h.1]
      omega
  · rw [if_neg hg] at hx
    rw [hx, if_neg fun h => hg h.2]
    exact ⟨⟨hlow, hhigh⟩, rfl⟩

theorem inserted_left {rkey : κ} {rval : ν} {h : Nat} {left right : Item κ ν}
    (hi : (node rkey rval h left right).Level) (hle : (cf key rkey).isLE)
    (hleft : Inserted cf key val left)
    (houter : right.height < left.height → left.Grows cf key → left.EntersLeft cf key) :
    Inserted cf key val (node rkey rval h left right) := by
  obtain ⟨rfl, ⟨hlow, hhigh⟩, -, hr⟩ := hi
  have hinsert : (node rkey rval (max left.height right.height + 1) left right).insert cf key val =
      (recalcHeight rkey rval (left.insert cf key val) right).equilibrate := by
    rw [insert, if_pos hle]
  have hgrows : (node rkey rval (max left.height right.height + 1) left right).Grows cf key ↔
      left.height = right.height ∧ left.Grows cf key := by
    rw [Grows, if_pos hle]
  have hheight := hleft.height
  by_cases hturn : right.height < left.height ∧ left.Grows cf key
  · -- The higher side grows: it has grown on its outer side, and one rotation settles the node.
    obtain ⟨hlt, hg⟩ := hturn
    rw [if_pos hg] at hheight
    have hne : left ≠ nil := by
      rintro rfl
      exact Nat.not_lt_zero _ hlt
    obtain ⟨xkey, xval, a, b, hshape, hentered⟩ := hleft.shape hg hne
    rw [if_pos (houter hlt hg)] at hentered
    rw [hshape, height_recalc_height] at hheight
    have hsettled : Settled rkey rval (max (left.insert cf key val).height right.height + 1)
        (left.insert cf key val) right
        (recalcHeight xkey xval a (recalcHeight rkey rval b right)) := by
      rw [hshape]
      exact .turnLeft (by omega) ⟨by omega, by omega⟩ ⟨by omega, by omega⟩
    have hresult := hinsert.trans hsettled.equilibrate
    have hnot : ¬(node rkey rval (max left.height right.height + 1) left right).Grows cf key :=
      fun h => by have := (hgrows.mp h).1; omega
    refine ⟨hresult ▸ hsettled.level hleft.level hr, ?_, fun h => absurd h hnot⟩
    rw [hresult, if_neg hnot]
    simp only [height_recalc_height, height_node]
    omega
  · obtain ⟨hclose, hmax⟩ := close_grown ⟨hlow, hhigh⟩ hheight hturn
    have hresult := hinsert.trans (equilibrate_of_close hclose)
    refine ⟨hresult ▸ level_recalc_height hleft.level hr hclose, ?_, fun h _ => ?_⟩
    · rw [hresult, height_node, height_node, hmax, Nat.add_right_comm]
      simp only [hgrows]
    · obtain ⟨hsame, hg⟩ := hgrows.mp h
      refine ⟨rkey, rval, _, _, hresult, ?_⟩
      rw [if_pos (show EntersLeft cf key (node ..) from hle), hheight, if_pos hg, hsame]

theorem inserted_right {rkey : κ} {rval : ν} {h : Nat} {left right : Item κ ν}
    (hi : (node rkey rval h left right).Level) (hgt : ¬(cf key rkey).isLE)
    (hright : Inserted cf key val right)
    (houter : left.height < right.height → right.Grows cf key → ¬right.EntersLeft cf key) :
    Inserted cf key val (node rkey rval h left right) := by
  obtain ⟨rfl, ⟨hlow, hhigh⟩, hl, -⟩ := hi
  have hinsert : (node rkey rval (max left.height right.height + 1) left right).insert cf key val =
      (recalcHeight rkey rval left (right.insert cf key val)).equilibrate := by
    rw [insert, if_neg hgt]
  have hgrows : (node rkey rval (max left.height right.height + 1) left right).Grows cf key ↔
      left.height = right.height ∧ right.Grows cf key := by
    rw [Grows, if_neg hgt]
  have hheight := hright.height
  by_cases hturn : left.height < right.height ∧ right.Grows cf key
  · obtain ⟨hlt, hg⟩ := hturn
    rw [if_pos hg] at hheight
    have hne : right ≠ nil := by
      rintro rfl
      exact Nat.not_lt_zero _ hlt
    obtain ⟨ykey, yval, a, b, hshape, hentered⟩ := hright.shape hg hne
    rw [if_neg (houter hlt hg)] at hentered
    rw [hshape, height_recalc_height] at hheight
    have hsettled : Settled rkey rval (max left.height (right.insert cf key val).height + 1)
        left (right.insert cf key val)
        (recalcHeight ykey yval (recalcHeight rkey rval left a) b) := by
      rw [hshape]
      exact .turnRight (by omega) ⟨by omega, by omega⟩ ⟨by omega, by omega⟩
    have hresult := hinsert.trans hsettled.equilibrate
    have hnot : ¬(node rkey rval (max left.height right.height + 1) left right).Grows cf key :=
      fun h => by have := (hgrows.mp h).1; omega
    refine ⟨hresult ▸ hsettled.level hl hright.level, ?_, fun h => absurd h hnot⟩
    rw [hresult, if_neg hnot]
    simp only [height_recalc_height, height_node]
    omega
  · obtain ⟨hclose, hmax⟩ := close_grown ⟨hhigh, hlow⟩ hheight hturn
    replace hclose : Close left.height (right.insert cf key val).height := hclose.symm
    have hresult := hinsert.trans (equilibrate_of_close hclose)
    refine ⟨hresult ▸ level_recalc_height hl hright.level hclose, ?_, fun h _ => ?_⟩
    · rw [hresult, height_node, height_node, Nat.max_comm, hmax, Nat.max_comm, Nat.add_right_comm]
      simp only [hgrows, eq_comm]
    · obtain ⟨hsame, hg⟩ := hgrows.mp h
      refine ⟨rkey, rval, _, _, hresult, ?_⟩
      rw [if_neg (show ¬EntersLeft cf key (node ..) from hgt), hheight, if_pos hg, hsame]

/-- `_btree_insert` keeps a tree in order that is straight for the key. -/
theorem inserted {i : Item κ ν} (hi : i.Level) (hs : i.Straight cf key) :
    Inserted cf key val i := by
  induction i with
  | nil => exact ⟨⟨rfl, ⟨by simp, by simp⟩, trivial, trivial⟩, rfl, fun _ hne => absurd rfl hne⟩
  | node rkey rval h left right ihl ihr =>
      obtain ⟨-, -, hl, hr⟩ := id hi
      rw [Straight] at hs
      by_cases hle : (cf key rkey).isLE
      · rw [if_pos hle] at hs
        exact inserted_left hi hle (ihl hl hs.1) hs.2
      · rw [if_neg hle] at hs
        exact inserted_right hi hle (ihr hr hs.1) hs.2

end Insertion

section Removal

variable {cf : κ → κ → Ordering} {key : κ}

/-- How the left side of the root compares with the right one. -/
def lean : Item κ ν → Ordering
  | nil => .eq
  | node _ _ _ left right => compare left.height right.height

/-- The stored height, and the side to which the tree leans. -/
def outline (i : Item κ ν) : Nat × Ordering := (i.height, i.lean)

@[simp] theorem outline_fst (i : Item κ ν) : i.outline.1 = i.height := rfl

@[simp] theorem outline_snd (i : Item κ ν) : i.outline.2 = i.lean := rfl

/-- No side is more than one higher than the other, except for one that is two higher and not
higher on its inner side, or three higher and higher on its outer side. -/
def OneTurn (left right : Nat × Ordering) : Prop :=
  (right.1 ≤ left.1 + 1 ∨ right.1 = left.1 + 2 ∧ right.2 ≠ .gt ∨
    right.1 = left.1 + 3 ∧ right.2 = .lt) ∧
  (left.1 ≤ right.1 + 1 ∨ left.1 = right.1 + 2 ∧ left.2 ≠ .lt ∨
    left.1 = right.1 + 3 ∧ left.2 = .gt)

/-- The outline of a node with such sides once it has been turned, if it has to be. -/
def turned (left right : Nat × Ordering) : Nat × Ordering :=
  if left.1 + 2 ≤ right.1 then if right.2 = .lt then (right.1, .eq) else (right.1 + 1, .gt)
  else if right.1 + 2 ≤ left.1 then if left.2 = .gt then (left.1, .eq) else (left.1 + 1, .lt)
  else (max left.1 right.1 + 1, compare left.1 right.1)

/-- Drawing the smallest binding of a node with these sides takes a level off it. -/
def Thins : Item κ ν → Item κ ν → Prop
  | nil, _ => True
  | node _ _ h a b, right => Thins a b ∧
      (right.height < h ∨ h < right.height ∧ right.lean = .lt)

/-- On the way to the smallest binding no side gets lower whose other side is higher already, and
that on its inner side. -/
def Draws : Item κ ν → Item κ ν → Prop
  | nil, _ => True
  | node _ _ h a b, right => Draws a b ∧
      (Thins a b → h < right.height → right.lean ≠ .gt)

/-- The same of the node that takes the place of a removed one with these sides. -/
def Joins (left : Item κ ν) : Item κ ν → Prop
  | nil => True
  | node _ _ h a b => left = nil ∨ Draws a b ∧
      (Thins a b → h < left.height → left.lean ≠ .lt)

/-- The removal of the bindings of the key to values that are to go finds every node such that at
most one turn puts it right, and turns a node that it passes on its way when the higher side has
become lower; the outline of what it leaves. Behind a binding that goes, the removal of the others
is one of its own on the tree that it finds; of the last one it asks nothing (`Sheds.of_absent`). -/
inductive Sheds (cf : κ → κ → Ordering) (key : κ) (dies : ν → Prop) :
    Item κ ν → Nat × Ordering → Prop where
  | nil : Sheds cf key dies nil (0, .eq)
  | left {ikey ival h left right l} : cf key ikey = .lt → Sheds cf key dies left l →
      OneTurn l right.outline →
      (l.1 < left.height → right.height < left.height → l.1 + 2 ≤ right.height) →
      Sheds cf key dies (node ikey ival h left right) (turned l right.outline)
  | right {ikey ival h left right r} : cf key ikey = .gt → Sheds cf key dies right r →
      OneTurn left.outline r →
      (r.1 < right.height → left.height < right.height → r.1 + 2 ≤ left.height) →
      Sheds cf key dies (node ikey ival h left right) (turned left.outline r)
  | here {ikey ival h left right o} : cf key ikey = .eq → dies ival → Joins left right →
      Sheds cf key dies (joinChildren left right) o →
      Sheds cf key dies (node ikey ival h left right) o
  | both {ikey ival h left right l r} : cf key ikey = .eq → ¬dies ival →
      Sheds cf key dies left l → Sheds cf key dies right r → OneTurn l r →
      Sheds cf key dies (node ikey ival h left right) (turned l r)

/-- The tree is in order, has the outline and is at most as high as the other one. -/
structure Leaves (i : Item κ ν) (o : Nat × Ordering) (j : Item κ ν) : Prop where
  level : j.Level
  outline : j.outline = o
  low : o.1 ≤ i.height

theorem turned_of_close {left right : Item κ ν} (hclose : Close left.height right.height) :
    (turned left.outline right.outline).1 = max left.height right.height + 1 := by
  obtain ⟨hleft, hright⟩ := hclose
  rw [turned, if_neg (by rw [outline_fst, outline_fst]; omega),
    if_neg (by rw [outline_fst, outline_fst]; omega), outline_fst, outline_fst]

theorem turned_of_high {left right : Item κ ν} (hhigh : left.height + 2 ≤ right.height) :
    (turned left.outline right.outline).1 =
      if right.lean = .lt then right.height else right.height + 1 := by
  rw [turned, if_pos (by rw [outline_fst, outline_fst]; exact hhigh), outline_snd]
  split <;> rfl

/-- Where no binding is to go, nothing is asked of a tree in order. -/
theorem Sheds.of_absent {i : Item κ ν} (hi : i.Level)
    (habsent : ∀ b ∈ i.toList, cf key b.1 = .eq → ¬dies b.2) : Sheds cf key dies i i.outline := by
  induction i with
  | nil => exact .nil
  | node ikey ival h left right ihl ihr =>
      obtain ⟨rfl, ⟨hlow, hhigh⟩, hl, hr⟩ := hi
      have hone : OneTurn left.outline right.outline := ⟨.inl hhigh, .inl hlow⟩
      have hout : turned left.outline right.outline =
          (node ikey ival (max left.height right.height + 1) left right).outline :=
        (if_neg (by rw [outline_fst, outline_fst]; omega)).trans
          (if_neg (by rw [outline_fst, outline_fst]; omega))
      have hleft := ihl hl fun b hb => habsent b (List.mem_append_left _ hb)
      have hright := ihr hr fun b hb =>
        habsent b (List.mem_append_right _ (List.mem_cons_of_mem _ hb))
      rw [← hout]
      cases hcf : cf key ikey with
      | lt => exact .left hcf hleft hone fun hlt => absurd hlt (Nat.lt_irrefl _)
      | gt => exact .right hcf hright hone fun hlt => absurd hlt (Nat.lt_irrefl _)
      | eq => exact .both hcf (habsent (ikey, ival) (by simp [toList]) hcf) hleft hright hone

theorem turned_le (left right : Nat × Ordering) :
    (turned left right).1 ≤ max left.1 right.1 + 1 := by
  unfold turned
  split_ifs <;> simp only [] <;> omega

/-- One turn puts a node right whose right side is two or three higher, and not on its inner
side. -/
theorem one_turn_right {ikey ykey : κ} {ival yval : ν} {h yh : Nat} {left a b : Item κ ν}
    (hr : (node ykey yval yh a b).Level) (hhigh : left.height + 2 ≤ yh)
    (hone : OneTurn left.outline (node ykey yval yh a b).outline) :
    Settled ikey ival h left (node ykey yval yh a b)
        (recalcHeight ykey yval (recalcHeight ikey ival left a) b) ∧
      (recalcHeight ykey yval (recalcHeight ikey ival left a) b).outline =
        turned left.outline (node ykey yval yh a b).outline := by
  obtain ⟨rfl, ⟨hab, hba⟩, -, -⟩ := hr
  obtain ⟨hone, -⟩ := hone
  simp only [outline, lean, height_node, Nat.compare_ne_gt, Nat.compare_eq_lt] at hone
  have hturned : turned left.outline (node ykey yval (max a.height b.height + 1) a b).outline =
      if compare a.height b.height = .lt then (max a.height b.height + 1, .eq)
      else (max a.height b.height + 1 + 1, .gt) := if_pos hhigh
  rw [hturned]
  change _ ∧ (max (max left.height a.height + 1) b.height + 1,
    compare (max left.height a.height + 1) b.height) = _
  rcases Nat.lt_or_ge a.height b.height with hlt | hge
  · refine ⟨.turnRight hhigh ⟨by omega, by omega⟩ ⟨by omega, by omega⟩, ?_⟩
    rw [if_pos (Nat.compare_eq_lt.mpr hlt), Nat.compare_eq_eq.mpr (by omega)]
    exact congrArg (·, _) (by omega)
  · refine ⟨.turnRight hhigh ⟨by omega, by omega⟩ ⟨by omega, by omega⟩, ?_⟩
    rw [if_neg (Nat.compare_ne_lt.mpr hge), Nat.compare_eq_gt.mpr (by omega)]
    exact congrArg (·, _) (by omega)

/-- The same of a node whose left side is the higher one. -/
theorem one_turn_left {ikey xkey : κ} {ival xval : ν} {h xh : Nat} {a b right : Item κ ν}
    (hl : (node xkey xval xh a b).Level) (hhigh : right.height + 2 ≤ xh)
    (hone : OneTurn (node xkey xval xh a b).outline right.outline) :
    Settled ikey ival h (node xkey xval xh a b) right
        (recalcHeight xkey xval a (recalcHeight ikey ival b right)) ∧
      (recalcHeight xkey xval a (recalcHeight ikey ival b right)).outline =
        turned (node xkey xval xh a b).outline right.outline := by
  obtain ⟨rfl, ⟨hab, hba⟩, -, -⟩ := hl
  obtain ⟨-, hone⟩ := hone
  simp only [outline, lean, height_node, Nat.compare_ne_lt, Nat.compare_eq_gt] at hone
  have hlow : ¬max a.height b.height + 1 + 2 ≤ right.height := by omega
  have hturned : turned (node xkey xval (max a.height b.height + 1) a b).outline right.outline =
      if compare a.height b.height = .gt then (max a.height b.height + 1, .eq)
      else (max a.height b.height + 1 + 1, .lt) := (if_neg hlow).trans (if_pos hhigh)
  rw [hturned]
  change _ ∧ (max a.height (max b.height right.height + 1) + 1,
    compare a.height (max b.height right.height + 1)) = _
  rcases Nat.lt_or_ge b.height a.height with hlt | hge
  · refine ⟨.turnLeft hhigh ⟨by omega, by omega⟩ ⟨by omega, by omega⟩, ?_⟩
    rw [if_pos (Nat.compare_eq_gt.mpr hlt), Nat.compare_eq_eq.mpr (by omega)]
    exact congrArg (·, _) (by omega)
  · refine ⟨.turnLeft hhigh ⟨by omega, by omega⟩ ⟨by omega, by omega⟩, ?_⟩
    rw [if_neg (Nat.compare_ne_gt.mpr hge), Nat.compare_eq_lt.mpr (by omega)]
    exact congrArg (·, _) (by omega)

/-- At most one turn puts a node right whose sides are in order, if its stored height is right or
it is turned. -/
theorem equilibrate_one_turn (ikey : κ) (ival : ν) {h : Nat} {left right : Item κ ν}
    (hl : left.Level) (hr : right.Level) (hone : OneTurn left.outline right.outline)
    (hh : h = max left.height right.height + 1 ∨ left.height + 2 ≤ right.height ∨
      right.height + 2 ≤ left.height) :
    (node ikey ival h left right).equilibrate.Level ∧
      (node ikey ival h left right).equilibrate.outline =
        turned left.outline right.outline := by
  obtain ⟨j, hsettled, houtline⟩ : ∃ j, Settled ikey ival h left right j ∧
      j.outline = turned left.outline right.outline := by
    by_cases hright : left.height + 2 ≤ right.height
    · cases right with
      | nil => exact absurd hright (Nat.not_succ_le_zero _)
      | node => exact ⟨_, one_turn_right hr hright hone⟩
    · by_cases hleft : right.height + 2 ≤ left.height
      · cases left with
        | nil => exact absurd hleft (Nat.not_succ_le_zero _)
        | node => exact ⟨_, one_turn_left hl hleft hone⟩
      · obtain rfl : h = max left.height right.height + 1 := by omega
        exact ⟨_, .still ⟨by omega, by omega⟩ rfl, ((if_neg hright).trans (if_neg hleft)).symm⟩
  rw [hsettled.equilibrate]
  exact ⟨hsettled.level hl hr, houtline⟩

/-- What `_btree_extract_smallest` leaves is in order, and lower by one level or not at all. -/
structure Drawn (left right j : Item κ ν) : Prop where
  level : j.Level
  thin : Thins left right → j.height = max left.height right.height
  same : ¬Thins left right → j.height = max left.height right.height + 1

/-- `_btree_extract_smallest`. -/
theorem drawn (lkey : κ) (lval : ν) {left right : Item κ ν} (hl : left.Level) (hr : right.Level)
    (hclose : Close left.height right.height) (hd : Draws left right) :
    Drawn left right (extractSmallest lkey lval left right).2 := by
  induction left generalizing lkey lval right with
  | nil => exact ⟨hr, fun _ => (Nat.zero_max _).symm, fun h => absurd trivial h⟩
  | node xkey xval xh a b iha _ =>
      obtain ⟨rfl, hab, ha, hb⟩ := hl
      obtain ⟨hd, hinner⟩ := hd
      obtain ⟨hlevel, hthin, hsame⟩ := iha xkey xval ha hb hab hd
      obtain ⟨hlow, hhigh⟩ := hclose
      change Drawn _ right (equilibrate (recalcHeight lkey lval _ right))
      generalize (extractSmallest xkey xval a b).2 = left at hlevel hthin hsame ⊢
      rw [height_node] at hlow hhigh
      have hone : OneTurn left.outline right.outline := by
        unfold OneTurn
        simp only [outline_fst, outline_snd]
        by_cases ht : Thins a b
        · have hleft := hthin ht
          by_cases hlt : max a.height b.height + 1 < right.height
          · exact ⟨.inr (.inl ⟨by omega, hinner ht hlt⟩), .inl (by omega)⟩
          · exact ⟨.inl (by omega), .inl (by omega)⟩
        · have hleft := hsame ht
          exact ⟨.inl (by omega), .inl (by omega)⟩
      obtain ⟨hj, hout⟩ := equilibrate_one_turn lkey lval hlevel hr hone
        (.inl rfl)
      have hheight : (equilibrate (recalcHeight lkey lval left right)).height = _ :=
        congrArg Prod.fst hout
      refine ⟨hj, fun h => ?_, fun hnot => ?_⟩ <;> rw [hheight, height_node]
      · obtain ⟨ht, h⟩ := h
        have hleft := hthin ht
        rcases h with hlt | ⟨hlt, hlean⟩
        · rw [turned_of_close ⟨by omega, by omega⟩]
          omega
        · rw [turned_of_high (by omega), if_pos hlean]
          omega
      · by_cases hturn : left.height + 2 ≤ right.height
        · have ht : Thins a b := by
            by_contra hnot
            have hleft := hsame hnot
            omega
          have hleft := hthin ht
          rw [turned_of_high hturn, if_neg fun hlean => hnot ⟨ht, .inr ⟨by omega, hlean⟩⟩]
          omega
        · by_cases ht : Thins a b
          · have hleft := hthin ht
            have hge : ¬right.height < max a.height b.height + 1 := fun h => hnot ⟨ht, .inl h⟩
            rw [turned_of_close ⟨by omega, by omega⟩]
            omega
          · have hleft := hsame ht
            rw [turned_of_close ⟨by omega, by omega⟩]
            omega

/-- What takes the place of a removed node is in order, and no higher. -/
theorem joined {left right : Item κ ν} (hl : left.Level) (hr : right.Level)
    (hclose : Close left.height right.height) (hj : Joins left right) :
    (joinChildren left right).Level ∧
      (joinChildren left right).height ≤ max left.height right.height + 1 := by
  cases right with
  | nil =>
      have hleft : joinChildren left nil = left := by cases left <;> rfl
      rw [hleft]
      exact ⟨hl, by omega⟩
  | node rkey rval rh a b =>
      by_cases hnil : left = nil
      · subst hnil
        exact ⟨hr, Nat.le_succ_of_le (Nat.le_max_right ..)⟩
      · obtain ⟨hd, hinner⟩ := hj.resolve_left hnil
        obtain ⟨rfl, hab, ha, hb⟩ := hr
        obtain ⟨hlevel, hthin, hsame⟩ := drawn rkey rval ha hb hab hd
        obtain ⟨hlow, hhigh⟩ := hclose
        have hjoin : joinChildren left (node rkey rval (max a.height b.height + 1) a b) =
            equilibrate (recalcHeight (extractSmallest rkey rval a b).1.1
              (extractSmallest rkey rval a b).1.2 left (extractSmallest rkey rval a b).2) := by
          cases left with
          | nil => exact absurd rfl hnil
          | node => rfl
        rw [hjoin]
        generalize (extractSmallest rkey rval a b).2 = right at hlevel hthin hsame ⊢
        rw [height_node] at hlow hhigh
        have hright : right.height ≤ max a.height b.height + 1 := by
          by_cases ht : Thins a b
          · exact (hthin ht).trans_le (Nat.le_succ _)
          · exact (hsame ht).le
        have hone : OneTurn left.outline right.outline := by
          unfold OneTurn
          simp only [outline_fst, outline_snd]
          by_cases ht : Thins a b
          · have hright := hthin ht
            by_cases hlt : max a.height b.height + 1 < left.height
            · exact ⟨.inl (by omega), .inr (.inl ⟨by omega, hinner ht hlt⟩)⟩
            · exact ⟨.inl (by omega), .inl (by omega)⟩
          · have hright := hsame ht
            exact ⟨.inl (by omega), .inl (by omega)⟩
        obtain ⟨hj, hout⟩ := equilibrate_one_turn _ _ hl hlevel hone (.inl rfl)
        refine ⟨hj, (congrArg Prod.fst hout).trans_le ((turned_le ..).trans ?_)⟩
        simp only [outline_fst, height_node]
        omega

/-- A turned node is no higher than the node over sides that were no lower. -/
theorem Leaves.of_sides {ikey : κ} {ival : ν} {left right j : Item κ ν}
    {l r : Nat × Ordering} (hl : l.1 ≤ left.height) (hr : r.1 ≤ right.height)
    (hj : j.Level ∧ j.outline = turned l r) :
    Leaves (node ikey ival (max left.height right.height + 1) left right) (turned l r) j := by
  refine ⟨hj.1, hj.2, (turned_le ..).trans ?_⟩
  rw [height_node]
  omega

/-- A node that has been passed on the left is put right. -/
theorem Leaves.passed_left {ikey : κ} {ival : ν} {h : Nat} {left right j : Item κ ν}
    {l : Nat × Ordering} (hi : (node ikey ival h left right).Level) (hj : Leaves left l j)
    (hone : OneTurn l right.outline)
    (hturned : l.1 < left.height → right.height < left.height → l.1 + 2 ≤ right.height) :
    Leaves (node ikey ival h left right) (turned l right.outline)
      (equilibrate (node ikey ival h j right)) := by
  obtain ⟨rfl, -, -, hr⟩ := hi
  obtain ⟨hlevel, rfl, hlow⟩ := hj
  rw [outline_fst] at hturned hlow
  exact .of_sides hlow le_rfl (equilibrate_one_turn ikey ival hlevel hr hone (by omega))

/-- So is one that has been passed on the right. -/
theorem Leaves.passed_right {ikey : κ} {ival : ν} {h : Nat} {left right j : Item κ ν}
    {r : Nat × Ordering} (hi : (node ikey ival h left right).Level) (hj : Leaves right r j)
    (hone : OneTurn left.outline r)
    (hturned : r.1 < right.height → left.height < right.height → r.1 + 2 ≤ left.height) :
    Leaves (node ikey ival h left right) (turned left.outline r)
      (equilibrate (node ikey ival h left j)) := by
  obtain ⟨rfl, -, hl, -⟩ := hi
  obtain ⟨hlevel, rfl, hlow⟩ := hj
  rw [outline_fst] at hturned hlow
  exact .of_sides le_rfl hlow (equilibrate_one_turn ikey ival hl hlevel hone (by omega))

/-- So is one with another value, which has been passed on both sides. -/
theorem Leaves.passed_both {ikey : κ} {ival : ν} {h : Nat} {left right left' right' : Item κ ν}
    {l r : Nat × Ordering} (hi : (node ikey ival h left right).Level) (hl : Leaves left l left')
    (hr : Leaves right r right') (hone : OneTurn l r) :
    Leaves (node ikey ival h left right) (turned l r)
      (equilibrate (recalcHeight ikey ival left' right')) := by
  obtain ⟨rfl, -⟩ := hi
  obtain ⟨hllevel, rfl, hllow⟩ := hl
  obtain ⟨hrlevel, rfl, hrlow⟩ := hr
  exact .of_sides hllow hrlow (equilibrate_one_turn ikey ival hllevel hrlevel hone (.inl rfl))

/-- What a removed node leaves to the rest of the removal. -/
theorem Leaves.joined {ikey : κ} {ival : ν} {h : Nat} {left right j : Item κ ν}
    {o : Nat × Ordering} (hi : (node ikey ival h left right).Level) (hjoin : Joins left right)
    (hj : (joinChildren left right).Level → Leaves (joinChildren left right) o j) :
    Leaves (node ikey ival h left right) o j := by
  obtain ⟨rfl, hclose, hl, hr⟩ := hi
  obtain ⟨hlevel, hlow⟩ := Item.joined hl hr hclose hjoin
  obtain ⟨hj, hout, hle⟩ := hj hlevel
  exact ⟨hj, hout, hle.trans hlow⟩

/-- `_btree_remove_aux` leaves a tree in order, with the outline that `Sheds` tells. -/
theorem Sheds.remove_aux {i : Item κ ν} {o : Nat × Ordering}
    (hs : Sheds cf key (fun _ => True) i o) (hi : i.Level) : Leaves i o (i.removeAux cf key).1 := by
  induction hs with
  | nil =>
      rw [removeAux]
      exact ⟨trivial, rfl, le_rfl⟩
  | left hlt _ hone hturned ih =>
      rw [removeAux, hlt]
      exact .passed_left hi (ih hi.2.2.1) hone hturned
  | right hgt _ hone hturned ih =>
      rw [removeAux, hgt]
      exact .passed_right hi (ih hi.2.2.2) hone hturned
  | here heq _ hjoin _ ih =>
      rw [removeAux, heq]
      exact .joined hi hjoin ih
  | both _ hlives => exact absurd trivial hlives

/-- So does `_btree_remove_aux_v`. -/
theorem Sheds.remove_aux_v [DecidableEq ν] {val : ν} {i : Item κ ν} {o : Nat × Ordering}
    (hs : Sheds cf key (· = val) i o) (hi : i.Level) :
    Leaves i o (i.removeAuxV cf key val).1 := by
  induction hs with
  | nil =>
      rw [removeAuxV]
      exact ⟨trivial, rfl, le_rfl⟩
  | left hlt _ hone hturned ih =>
      rw [removeAuxV, hlt]
      exact .passed_left hi (ih hi.2.2.1) hone hturned
  | right hgt _ hone hturned ih =>
      rw [removeAuxV, hgt]
      exact .passed_right hi (ih hi.2.2.2) hone hturned
  | here heq hdies hjoin _ ih =>
      rw [removeAuxV, heq]
      simp only [if_pos hdies]
      exact .joined hi hjoin ih
  | both heq hlives _ _ hone ihl ihr =>
      rw [removeAuxV, heq]
      simp only [if_neg hlives]
      exact .passed_both hi (ihl hi.2.2.1) (ihr hi.2.2.2) hone

end Removal

end Item

open Item

section Runs

variable {κ ν : Type} [DecidableEq ν] {cf : κ → κ → Ordering}

/-- The call meets no fault of the rebalancing in the index. -/
def BtreeCall.Settles (t : Btree cf ν) : BtreeCall κ ν → Prop
  | .add allocated key _ => allocated → t.root.Straight cf key
  | .remove key => ∃ o, Sheds cf key (fun _ => True) t.root o
  | .removeV key val => ∃ o, Sheds cf key (· = val) t.root o

/-- So does each call of the sequence, in the index that it is made on. -/
def Settle (t : Btree cf ν) : List (BtreeCall κ ν) → Prop
  | [] => True
  | call :: rest => call.Settles t ∧ Settle (call.run t).1 rest

theorem level_call {t : Btree cf ν} (ht : t.root.Level) {call : BtreeCall κ ν}
    (hc : call.Settles t) : (call.run t).1.root.Level := by
  cases call with
  | add allocated key val =>
      cases allocated with
      | false => exact ht
      | true => exact (inserted ht (hc rfl)).level
  | remove key =>
      obtain ⟨o, hs⟩ := hc
      exact (hs.remove_aux ht).level
  | removeV key val =>
      obtain ⟨o, hs⟩ := hc
      exact (hs.remove_aux_v ht).level

theorem level_run {t : Btree cf ν} (ht : t.root.Level) {calls : List (BtreeCall κ ν)}
    (hc : Settle t calls) : (runCalls t calls).1.root.Level := by
  induction calls generalizing t with
  | nil => exact ht
  | cons call rest ih => exact ih (level_call ht hc.1) hc.2

/-- In every run whose calls meet no fault of the rebalancing, every index reached is balanced, and
its depth is at most logarithmic in the number of its bindings. -/
theorem btree_balanced {calls : List (BtreeCall κ ν)}
    (hc : Settle (.create : Btree cf ν) calls) :
    (runCalls (.create : Btree cf ν) calls).1.root.Balanced ∧
      (runCalls (.create : Btree cf ν) calls).1.root.depth ≤
        2 * Nat.log2 ((runCalls (.create : Btree cf ν) calls).1.toList.length + 1) + 1 := by
  have hlevel : (runCalls (.create : Btree cf ν) calls).1.root.Level :=
    level_run (show (Btree.create : Btree cf ν).root.Level from trivial) hc
  exact ⟨hlevel.balanced, hlevel.balanced.depth_le⟩

/-- Bindings whose keys come in order are turned once, and once more when the first is removed. -/
theorem btree_balanced_turned :
    (runCalls (.create : Btree idKeyCmpFun Nat)
      [.add true 1 0, .add true 2 0, .add true 3 0, .add true 4 0, .remove 1]).1.root.Balanced := by
  have hshed : ∃ o, Sheds idKeyCmpFun 1 (fun _ => True)
      (node (2 : UInt32) (0 : Nat) 3 (node 1 0 1 nil nil)
        (node 3 0 2 nil (node 4 0 1 nil nil))) o :=
    ⟨_, .left rfl (.here rfl trivial trivial .nil)
      ⟨.inr (.inl ⟨rfl, by decide⟩), .inl (by decide)⟩ (by decide)⟩
  exact (@btree_balanced UInt32 Nat _ idKeyCmpFun
    [.add true 1 0, .add true 2 0, .add true 3 0, .add true 4 0, .remove 1]
    ⟨fun _ => by decide, fun _ => by decide, fun _ => by decide, fun _ => by decide, hshed,
      trivial⟩).1

/-- The middle of three keys, added last, is on the inner side of the higher side of the root. -/
theorem inner_side_stays :
    ¬∀ calls : List (BtreeCall UInt32 Nat),
      (runCalls (.create : Btree idKeyCmpFun Nat) calls).1.root.Balanced := by
  intro h
  exact absurd (h [.add true 3 0, .add true 1 0, .add true 2 0]) (by decide)

end Runs

end Kogata.Common
