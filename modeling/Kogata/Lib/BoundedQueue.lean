import Mathlib.Data.List.TakeDrop
import Mathlib.Tactic.Common

/-!
# Bounded queues

A queue of bounded length, which drops an item where there is no room for it. `Passage` follows a
queue through offers and takings: what has been taken and what waits is a sublist of what has been
offered (`run_sublist`), and all of it exactly when every offer finds room (`run_all_iff`). `decode`
is a stream whose items take one or more symbols each.
-/

namespace Lib.BoundedQueue

variable {α : Type} {limit : Nat}

/-- At most `limit` items. -/
structure Queue (α : Type) (limit : Nat) where
  items : List α
  fits : items.length ≤ limit

namespace Queue

/-- An item behind the last one, if there is room for it. -/
def push (q : Queue α limit) (a : α) : Queue α limit :=
  if h : q.items.length < limit then
    { items := q.items ++ [a], fits := by rw [List.length_append]; exact h }
  else q

/-- The queue without its first items. -/
def drop (q : Queue α limit) (n : Nat) : Queue α limit where
  items := q.items.drop n
  fits := by
    rw [List.length_drop]
    exact Nat.le_trans (Nat.sub_le ..) q.fits

theorem items_push (q : Queue α limit) (a : α) :
    (q.push a).items = if q.items.length < limit then q.items ++ [a] else q.items := by
  unfold push
  split <;> rfl

end Queue

/-- How many items a reader gets who has room for `len` bytes, `size` for each, of a queue of
`waiting` items: the turns of a loop that takes one item after the other. -/
def drained (size : Nat) : Nat → Nat → Nat
  | 0, _ => 0
  | waiting + 1, len => if size ≤ len then drained size waiting (len - size) + 1 else 0

/-- A reader gets as many of the first items as there is room for. -/
theorem take_drained {size : Nat} (hsize : 0 < size) (l : List α) (len : Nat) :
    l.take (drained size l.length len) = l.take (len / size) ∧
      l.drop (drained size l.length len) = l.drop (len / size) := by
  induction l generalizing len with
  | nil => simp
  | cons a l ih =>
      rw [List.length_cons, drained]
      by_cases hroom : size ≤ len
      · rw [if_pos hroom, Nat.div_eq_sub_div hsize hroom, List.take_succ_cons, List.drop_succ_cons,
          List.take_succ_cons, List.drop_succ_cons, (ih (len - size)).1, (ih (len - size)).2]
        exact ⟨rfl, rfl⟩
      · rw [if_neg hroom, Nat.div_eq_of_lt (Nat.not_le.mp hroom)]
        exact ⟨rfl, rfl⟩

section Passage

/-- What happens to a queue. -/
inductive Event (α : Type) where
  | offer (a : α)
  | take (n : Nat)

/-- The items that have been taken from a queue, and those that wait in it. -/
structure Passage (α : Type) where
  taken : List α
  waiting : List α

/-- The items that are offered. -/
def offered : List (Event α) → List α
  | [] => []
  | .offer a :: rest => a :: offered rest
  | .take _ :: rest => offered rest

/-- An event of a queue of at most `limit` items. -/
def Passage.step (limit : Nat) (s : Passage α) : Event α → Passage α
  | .offer a =>
      { s with waiting := if s.waiting.length < limit then s.waiting ++ [a] else s.waiting }
  | .take n => { taken := s.taken ++ s.waiting.take n, waiting := s.waiting.drop n }

def Passage.run (limit : Nat) : Passage α → List (Event α) → Passage α
  | s, [] => s
  | s, e :: rest => (s.step limit e).run limit rest

/-- Every offer finds room. -/
def Passage.Roomy (limit : Nat) : Passage α → List (Event α) → Prop
  | _, [] => True
  | s, .offer a :: rest => s.waiting.length < limit ∧ (s.step limit (.offer a)).Roomy limit rest
  | s, .take n :: rest => (s.step limit (.take n)).Roomy limit rest

/-- The items that have come through, with those that wait behind them. -/
def Passage.all (s : Passage α) : List α := s.taken ++ s.waiting

variable {s : Passage α} {events : List (Event α)}

theorem all_step_take (n : Nat) : (s.step limit (.take n)).all = s.all := by
  simp [Passage.step, Passage.all]

theorem all_step_offer {a : α} (hroom : s.waiting.length < limit) :
    (s.step limit (.offer a)).all = s.all ++ [a] := by
  simp [Passage.step, Passage.all, hroom]

theorem step_offer_full {a : α} (hfull : ¬ s.waiting.length < limit) :
    s.step limit (.offer a) = s := by
  simp [Passage.step, hfull]

/-- Nothing comes twice, in another order or from elsewhere. -/
theorem run_sublist : (s.run limit events).all.Sublist (s.all ++ offered events) := by
  induction events generalizing s with
  | nil => simp [Passage.run, offered]
  | cons e rest ih =>
      cases e with
      | offer a =>
          by_cases hroom : s.waiting.length < limit
          · refine ih.trans ?_
            rw [all_step_offer hroom, List.append_assoc]
            exact List.Sublist.refl _
          · refine ih.trans ?_
            rw [step_offer_full hroom]
            exact List.Sublist.append_left (List.sublist_cons_self ..) _
      | take n =>
          refine ih.trans ?_
          rw [all_step_take]
          exact List.Sublist.refl _

/-- Everything comes through exactly when every offer finds room. -/
theorem run_all_iff : (s.run limit events).all = s.all ++ offered events ↔
    s.Roomy limit events := by
  induction events generalizing s with
  | nil => simp [Passage.run, offered, Passage.Roomy]
  | cons e rest ih =>
      cases e with
      | offer a =>
          by_cases hroom : s.waiting.length < limit
          · have hrest := ih (s := s.step limit (.offer a))
            rw [all_step_offer hroom, List.append_assoc] at hrest
            exact hrest.trans (and_iff_right hroom).symm
          · refine ⟨fun hall => ?_, fun h => absurd h.1 hroom⟩
            have hlost : (s.run limit rest).all.length ≤ (s.all ++ offered rest).length :=
              run_sublist.length_le
            rw [Passage.run, step_offer_full hroom] at hall
            rw [hall] at hlost
            simp only [offered, List.length_append, List.length_cons] at hlost
            omega
      | take n =>
          have hrest := ih (s := s.step limit (.take n))
          rw [all_step_take] at hrest
          exact hrest

end Passage

section Decode

variable {σ β : Type} {feed : σ → β → σ × Option α} {s : σ}

/-- The items of a stream of symbols, for a decoder that keeps a state between them. -/
def decode (feed : σ → β → σ × Option α) : σ → List β → List α
  | _, [] => []
  | s, b :: rest => (feed s b).2.toList ++ decode feed (feed s b).1 rest

theorem decode_cons_none {b : β} {s' : σ} (h : feed s b = (s', none)) (rest : List β) :
    decode feed s (b :: rest) = decode feed s' rest := by
  simp [decode, h]

theorem decode_cons_some {b : β} {s' : σ} {a : α} (h : feed s b = (s', some a)) (rest : List β) :
    decode feed s (b :: rest) = a :: decode feed s' rest := by
  simp [decode, h]

end Decode

end Lib.BoundedQueue
