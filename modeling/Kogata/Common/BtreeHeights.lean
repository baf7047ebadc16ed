import Kogata.Common.BtreeBalance

/-!
# The stored heights of the index

`btree_equilibrate` keeps the stored heights right, and so does `btree_add`, whatever it makes of
the balance. `_btree_remove_aux` and `_btree_remove_aux_v` do not recompute the height of a node
that they pass on their way down. `removeRecalc` is the removal that does, and `Passes` says of a
tree that the removal without it comes to the same.
-/

namespace Kogata.Common

namespace Item

variable {κ ν : Type}

/-- The stored height of every node is one plus the true height of its higher side. -/
def Exact : Item κ ν → Prop
  | nil => True
  | node _ _ h left right => h = max left.depth right.depth + 1 ∧ left.Exact ∧ right.Exact

instance decidableExact : (i : Item κ ν) → Decidable i.Exact
  | nil => isTrue trivial
  | node _ _ _ left right =>
      have := decidableExact left
      have := decidableExact right
      inferInstanceAs (Decidable (_ ∧ _ ∧ _))

section Rotations

variable {key : κ} {val : ν} {h : Nat} {i left right : Item κ ν}

theorem Exact.height (hi : i.Exact) : i.height = i.depth := by
  cases i with
  | nil => rfl
  | node key val h left right => exact hi.1

theorem exact_node (hl : left.Exact) (hr : right.Exact)
    (hh : h = max left.height right.height + 1) : (node key val h left right).Exact := by
  rw [hl.height, hr.height] at hh
  exact ⟨hh, hl, hr⟩

theorem exact_recalc_height (hl : left.Exact) (hr : right.Exact) :
    (recalcHeight key val left right).Exact :=
  exact_node hl hr rfl

theorem rotate_left_while_exact (hl : left.Exact) (hr : right.Exact)
    (hh : h = max left.height right.height + 1) :
    (rotateLeftWhile key val h left right).Exact := by
  induction left generalizing key val h right with
  | nil => exact exact_node trivial hr hh
  | node xkey xval xh a b iha _ =>
      obtain ⟨-, ha, hb⟩ := id hl
      unfold rotateLeftWhile
      split
      · exact iha ha (exact_recalc_height hb hr) rfl
      · exact exact_node hl hr hh

theorem rotate_right_while_exact (hl : left.Exact) (hr : right.Exact)
    (hh : h = max left.height right.height + 1) :
    (rotateRightWhile key val h left right).Exact := by
  induction right generalizing key val h left with
  | nil => exact exact_node hl trivial hh
  | node ykey yval yh a b _ ihb =>
      obtain ⟨-, ha, hb⟩ := id hr
      unfold rotateRightWhile
      split
      · exact ihb (exact_recalc_height hl ha) hb rfl
      · exact exact_node hl hr hh

/-- `btree_equilibrate` keeps the heights right. -/
theorem Exact.equilibrate (hi : i.Exact) : i.equilibrate.Exact := by
  have hleft : i.leanLeft.Exact := by
    cases i with
    | nil => exact trivial
    | node key val h left right =>
        obtain ⟨hh, hl, hr⟩ := hi
        exact rotate_left_while_exact hl hr (by rw [hl.height, hr.height, hh])
  unfold Item.equilibrate
  cases hlean : i.leanLeft with
  | nil => exact trivial
  | node key val h left right =>
      obtain ⟨hh, hl, hr⟩ := hlean ▸ hleft
      exact rotate_right_while_exact hl hr (by rw [hl.height, hr.height, hh])

/-- The stored height is the one that `btree_recalc_height` computes, or the node is turned. -/
def Timely (h : Nat) (left right : Item κ ν) : Prop :=
  h = max left.height right.height + 1 ∨ right.height + 2 ≤ left.height ∨
    left.height + 2 ≤ right.height

/-- Then it makes no difference to `btree_equilibrate` whether the height is recomputed: a
rotation forgets it. -/
theorem Timely.equilibrate (hh : Timely h left right) :
    (node key val h left right).equilibrate = (recalcHeight key val left right).equilibrate := by
  rcases hh with rfl | hhigh | hhigh
  · rfl
  · cases left with
    | nil => exact absurd hhigh (Nat.not_succ_le_zero _)
    | node xkey xval xh a b =>
        have hturn : ∀ h', (node key val h' (node xkey xval xh a b) right).leanLeft =
            rotateLeftWhile xkey xval (max a.height (recalcHeight key val b right).height + 1) a
              (recalcHeight key val b right) :=
          fun _ => if_pos hhigh
        exact congrArg leanRight ((hturn h).trans (hturn _).symm)
  · cases right with
    | nil => exact absurd hhigh (Nat.not_succ_le_zero _)
    | node ykey yval yh a b =>
        have hturn : ∀ h', (node key val h' left (node ykey yval yh a b)).equilibrate =
            rotateRightWhile ykey yval (max (recalcHeight key val left a).height b.height + 1)
              (recalcHeight key val left a) b := by
          intro h'
          rw [Item.equilibrate, lean_left_of_lt (by omega)]
          exact if_pos hhigh
        exact (hturn h).trans (hturn _).symm

end Rotations

section Insertion

theorem insert_exact {i : Item κ ν} (hi : i.Exact) (cf : κ → κ → Ordering) (key : κ) (val : ν) :
    (i.insert cf key val).Exact := by
  induction i with
  | nil => exact exact_recalc_height trivial trivial
  | node rkey rval h left right ihl ihr =>
      obtain ⟨-, hl, hr⟩ := hi
      unfold insert
      split
      · exact (exact_recalc_height (ihl hl) hr).equilibrate
      · exact (exact_recalc_height hl (ihr hr)).equilibrate

end Insertion

section Removal

variable {cf : κ → κ → Ordering} {key : κ} {dies : ν → Bool}

theorem extract_smallest_exact {lkey : κ} {lval : ν} {left right : Item κ ν} (hl : left.Exact)
    (hr : right.Exact) : (extractSmallest lkey lval left right).2.Exact := by
  induction left generalizing lkey lval right with
  | nil => exact hr
  | node xkey xval xh a b iha _ =>
      obtain ⟨-, ha, hb⟩ := hl
      exact (exact_recalc_height (iha ha hb) hr).equilibrate

theorem join_children_exact {left right : Item κ ν} (hl : left.Exact) (hr : right.Exact) :
    (joinChildren left right).Exact := by
  cases right with
  | nil => cases left <;> exact hl
  | node rkey rval rh a b =>
      cases left with
      | nil => exact hr
      | node lkey lval lh c d =>
          obtain ⟨-, ha, hb⟩ := hr
          exact (exact_recalc_height hl (extract_smallest_exact ha hb)).equilibrate

/-- The removal of the bindings of the key to values that are to go, with `btree_recalc_height` on
every node a side of which has changed. -/
def removeRecalc (cf : κ → κ → Ordering) (key : κ) (dies : ν → Bool) (i : Item κ ν) : Item κ ν :=
  match i with
  | nil => nil
  | node ikey ival _ left right =>
      match cf key ikey with
      | .lt => equilibrate (recalcHeight ikey ival (removeRecalc cf key dies left) right)
      | .gt => equilibrate (recalcHeight ikey ival left (removeRecalc cf key dies right))
      | .eq =>
          if dies ival then removeRecalc cf key dies (joinChildren left right)
          else equilibrate (recalcHeight ikey ival (removeRecalc cf key dies left)
            (removeRecalc cf key dies right))
termination_by i.count
decreasing_by all_goals simp [count]; try omega

theorem remove_recalc_exact {i : Item κ ν} (hi : i.Exact) :
    (i.removeRecalc cf key dies).Exact := by
  fun_induction removeRecalc cf key dies i with
  | case1 => exact trivial
  | case2 ikey ival h left right _ ih =>
      exact (exact_recalc_height (ih hi.2.1) hi.2.2).equilibrate
  | case3 ikey ival h left right _ ih =>
      exact (exact_recalc_height hi.2.1 (ih hi.2.2)).equilibrate
  | case4 ikey ival h left right _ _ ih => exact ih (join_children_exact hi.2.1 hi.2.2)
  | case5 ikey ival h left right _ _ ihl ihr =>
      exact (exact_recalc_height (ihl hi.2.1) (ihr hi.2.2)).equilibrate

/-- Every node that the removal passes on its way down has the right height when the side below has
been taken care of, or is turned. -/
inductive Passes (cf : κ → κ → Ordering) (key : κ) (dies : ν → Bool) : Item κ ν → Prop where
  | nil : Passes cf key dies nil
  | left {ikey ival h left right} : cf key ikey = .lt → Passes cf key dies left →
      Timely h (left.removeRecalc cf key dies) right →
      Passes cf key dies (node ikey ival h left right)
  | right {ikey ival h left right} : cf key ikey = .gt → Passes cf key dies right →
      Timely h left (right.removeRecalc cf key dies) →
      Passes cf key dies (node ikey ival h left right)
  | here {ikey ival h left right} : cf key ikey = .eq → dies ival →
      Passes cf key dies (joinChildren left right) →
      Passes cf key dies (node ikey ival h left right)
  | both {ikey ival h left right} : cf key ikey = .eq → ¬dies ival → Passes cf key dies left →
      Passes cf key dies right → Passes cf key dies (node ikey ival h left right)

/-- `_btree_remove_aux` comes to the removal that recomputes all heights. -/
theorem Passes.remove_aux {i : Item κ ν} (hp : Passes cf key (fun _ => true) i) :
    (i.removeAux cf key).1 = i.removeRecalc cf key fun _ => true := by
  induction hp with
  | nil => rw [removeAux, removeRecalc]
  | left hlt _ htimely ih =>
      rw [removeAux, removeRecalc, hlt]
      dsimp only
      rw [ih, htimely.equilibrate]
  | right hgt _ htimely ih =>
      rw [removeAux, removeRecalc, hgt]
      dsimp only
      rw [ih, htimely.equilibrate]
  | here heq _ _ ih =>
      rw [removeAux, removeRecalc, heq]
      exact ih
  | both _ hlives => exact absurd rfl hlives

/-- So does `_btree_remove_aux_v`. -/
theorem Passes.remove_aux_v [DecidableEq ν] {val : ν} {i : Item κ ν}
    (hp : Passes cf key (fun v => decide (v = val)) i) :
    (i.removeAuxV cf key val).1 = i.removeRecalc cf key fun v => decide (v = val) := by
  induction hp with
  | nil => rw [removeAuxV, removeRecalc]
  | left hlt _ htimely ih =>
      rw [removeAuxV, removeRecalc, hlt]
      dsimp only
      rw [ih, htimely.equilibrate]
  | right hgt _ htimely ih =>
      rw [removeAuxV, removeRecalc, hgt]
      dsimp only
      rw [ih, htimely.equilibrate]
  | here heq hdies _ ih =>
      rw [removeAuxV, removeRecalc, heq]
      dsimp only
      rw [if_pos (of_decide_eq_true hdies), if_pos hdies]
      exact ih
  | both heq hlives _ _ ihl ihr =>
      rw [removeAuxV, removeRecalc, heq]
      dsimp only
      rw [if_neg fun h => hlives (decide_eq_true h), if_neg hlives, ihl, ihr]

end Removal

end Item

open Item

section Runs

variable {κ ν : Type} [DecidableEq ν] {cf : κ → κ → Ordering}

/-- The call is no removal, or one that passes its nodes with the heights right. -/
def BtreeCall.KeepsHeights (t : Btree cf ν) : BtreeCall κ ν → Prop
  | .add _ _ _ => True
  | .remove key => t.root.Passes cf key fun _ => true
  | .removeV key val => t.root.Passes cf key fun v => decide (v = val)

/-- So is each call of the sequence, in the index that it is made on. -/
def KeepHeights (t : Btree cf ν) : List (BtreeCall κ ν) → Prop
  | [] => True
  | call :: rest => call.KeepsHeights t ∧ KeepHeights (call.run t).1 rest

theorem exact_call {t : Btree cf ν} (ht : t.root.Exact) {call : BtreeCall κ ν}
    (hc : call.KeepsHeights t) : (call.run t).1.root.Exact := by
  cases call with
  | add allocated key val =>
      cases allocated with
      | false => exact ht
      | true => exact insert_exact ht cf key val
  | remove key =>
      show (t.root.removeAux cf key).1.Exact
      rw [hc.remove_aux]
      exact remove_recalc_exact ht
  | removeV key val =>
      show (t.root.removeAuxV cf key val).1.Exact
      rw [hc.remove_aux_v]
      exact remove_recalc_exact ht

theorem exact_run {t : Btree cf ν} (ht : t.root.Exact) {calls : List (BtreeCall κ ν)}
    (hc : KeepHeights t calls) : (runCalls t calls).1.root.Exact := by
  induction calls generalizing t with
  | nil => exact ht
  | cons call rest ih => exact ih (exact_call ht hc.1) hc.2

/-- In every run whose removals pass their nodes with the heights right, the stored heights are
exact in every index reached. -/
theorem btree_heights_exact {calls : List (BtreeCall κ ν)}
    (hc : KeepHeights (.create : Btree cf ν) calls) :
    (runCalls (.create : Btree cf ν) calls).1.root.Exact :=
  exact_run (show (Btree.create : Btree cf ν).root.Exact from trivial) hc

/-- The removal below a node whose other side is as high. -/
theorem btree_heights_exact_leaf :
    (runCalls (.create : Btree idKeyCmpFun Nat)
      [.add true 2 0, .add true 1 0, .add true 3 0, .remove 1]).1.root.Exact := by
  have hpasses : Passes idKeyCmpFun 1 (fun _ => true)
      (node (2 : UInt32) (0 : Nat) 2 (node 1 0 1 nil nil) (node 3 0 1 nil nil)) := by
    refine .left rfl (.here rfl rfl .nil) (.inl ?_)
    simp [removeRecalc, idKeyCmpFun, joinChildren]
  exact @btree_heights_exact UInt32 Nat _ idKeyCmpFun
    [.add true 2 0, .add true 1 0, .add true 3 0, .remove 1]
    ⟨trivial, trivial, trivial, hpasses, trivial⟩

/-- The node above a removed leaf keeps the height that it had. -/
theorem passed_height_stale :
    ¬∀ calls : List (BtreeCall UInt32 Nat),
      (runCalls (.create : Btree idKeyCmpFun Nat) calls).1.root.Exact := by
  intro h
  have hroot : (removeAux idKeyCmpFun 2
      (node (1 : UInt32) (0 : Nat) 2 nil (node 2 0 1 nil nil))).1 = node 1 0 2 nil nil := by
    simp [removeAux, idKeyCmpFun, joinChildren]
    rfl
  have hstale : (removeAux idKeyCmpFun 2
      (node (1 : UInt32) (0 : Nat) 2 nil (node 2 0 1 nil nil))).1.Exact :=
    h [.add true 1 0, .add true 2 0, .remove 2]
  rw [hroot] at hstale
  exact absurd hstale (by decide)

end Runs

end Kogata.Common
