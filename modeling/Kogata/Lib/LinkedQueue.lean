import Kogata.Lib.Links

/-!
# Queues threaded through memory

A chain with a second pointer to its last cell, which is null where the chain is empty. A cell may
be put at either end, and the first one taken off.
-/

namespace Lib.Links

variable {ω α : Type} [Zero α] {read read' : ω → α} {link : α → ω} {first : ω} {last a b : α}
  {l : List α}

/-- The cells `l` are threaded from the pointer word `first`, and `last` points to the last one. -/
structure Queue (read : ω → α) (link : α → ω) (first : ω) (last : α) (l : List α) : Prop where
  chain : Chain read link first l
  last : last = l.getLast?.getD 0

theorem Queue.eq_nil_iff (h : Queue read link first last l) : l = [] ↔ read first = 0 := by
  constructor
  · rintro rfl
    exact h.chain
  · intro hzero
    cases l with
    | nil => rfl
    | cons b l => exact absurd (h.chain.1.symm.trans hzero) h.chain.2.1

/-- The first cell of an empty queue. -/
theorem Queue.single (ha : a ≠ 0) (hfirst : read first = a) (hlink : read (link a) = 0) :
    Queue read link first a [a] :=
  ⟨⟨hfirst, ha, hlink⟩, rfl⟩

/-- A cell put in front of a queue that is not empty. -/
theorem Queue.push_front (h : Queue read link first last l) (hl : l ≠ []) (ha : a ≠ 0)
    (hfirst : read' first = a) (hlink : read' (link a) = read first)
    (hother : ∀ c ∈ l, read' (link c) = read (link c)) : Queue read' link first last (a :: l) := by
  refine ⟨h.chain.push ha hfirst hlink hother, ?_⟩
  rw [List.getLast?_cons_of_ne_nil hl]
  exact h.last

/-- A cell put behind a queue that is not empty. -/
theorem Queue.push_back (h : Queue read link first last l) (hl : l ≠ []) (ha : a ≠ 0)
    (hinj : Function.Injective link) (hhead : ∀ c ∈ l, link c ≠ first)
    (hlast : read' (link last) = a) (hlink : read' (link a) = 0)
    (hother : ∀ v, v ≠ link last → (v = first ∨ ∃ c ∈ l, v = link c) → read' v = read v) :
    Queue read' link first a (l ++ [a]) := by
  obtain ⟨pre, b, rfl⟩ := (List.eq_nil_or_concat l).resolve_left hl
  rw [List.concat_eq_append] at *
  have hb : last = b := by
    rw [h.last, List.getLast?_concat]
    rfl
  have hword : linkOf link first (pre ++ [b]) = link last := by
    rw [link_of_append, hb]
    rfl
  have hchain : Chain read link first ((pre ++ [b]) ++ []) := by
    rw [List.append_nil]
    exact h.chain
  refine ⟨?_, by rw [List.getLast?_concat]; rfl⟩
  refine hchain.splice hinj hhead ?_ fun v hv hmem => ?_
  · rw [hword]
    exact ⟨hlast, ha, hlink⟩
  · rw [hword] at hv
    exact hother v hv hmem

/-- The first cell taken off a queue. -/
theorem Queue.pop (h : Queue read link first last (a :: l)) (hfirst : read' first = read (link a))
    (hother : ∀ c ∈ l, read' (link c) = read (link c)) {last' : α}
    (hempty : read (link a) = 0 → last' = 0) (hmore : read (link a) ≠ 0 → last' = last) :
    Queue read' link first last' l := by
  refine ⟨h.chain.pop hfirst hother, ?_⟩
  cases l with
  | nil => exact hempty h.chain.2.2
  | cons b l =>
      have hne : read (link a) ≠ 0 := by
        rw [h.chain.2.2.1]
        exact h.chain.2.2.2.1
      rw [hmore hne, h.last, List.getLast?_cons_cons]

end Lib.Links
