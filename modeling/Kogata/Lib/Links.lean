import Mathlib.Algebra.Group.Defs
import Mathlib.Tactic.Common
import Mathlib.Data.List.Nodup
import Mathlib.Data.List.Perm.Subperm

/-!
# Lists threaded through memory

A chain starts at a pointer word. The word holds null, or a cell whose link is the pointer word at
which the rest of the chain starts. Head pointer and links are treated alike, so that inserting
or unlinking a cell is one new value of one pointer word.
-/

namespace Lib.Links

variable {ω α : Type}

/-- The pointer word behind the first cells of a chain. -/
def linkOf (link : α → ω) : ω → List α → ω
  | w, [] => w
  | _, a :: l => linkOf link (link a) l

section

variable {link : α → ω} {w : ω} {l l' : List α}

theorem link_of_mem (link : α → ω) (w : ω) (l : List α) :
    linkOf link w l = w ∨ ∃ c ∈ l, linkOf link w l = link c := by
  induction l generalizing w with
  | nil => exact .inl rfl
  | cons b l ih =>
      right
      rcases ih (link b) with h | ⟨c, hc, h⟩
      · exact ⟨b, List.mem_cons_self, h⟩
      · exact ⟨c, List.mem_cons_of_mem _ hc, h⟩

@[simp] theorem link_of_append :
    linkOf link w (l ++ l') = linkOf link (linkOf link w l) l' := by
  induction l generalizing w with
  | nil => rfl
  | cons b l ih => exact ih

end

variable [Zero α]

/-- The cells `l` are threaded from the pointer word `w`. -/
def Chain (read : ω → α) (link : α → ω) : ω → List α → Prop
  | w, [] => read w = 0
  | w, a :: l => read w = a ∧ a ≠ 0 ∧ Chain read link (link a) l

/-- The cell is found by following the links from the pointer word. -/
inductive Linked (read : ω → α) (link : α → ω) : ω → α → Prop
  | here {w : ω} : read w ≠ 0 → Linked read link w (read w)
  | next {w : ω} {a : α} : read w ≠ 0 → Linked read link (link (read w)) a →
      Linked read link w a

variable {read read' : ω → α} {link : α → ω} {w : ω} {a b : α} {l l' pre post : List α}

theorem Chain.unique (h : Chain read link w l) (h' : Chain read link w l') : l = l' := by
  induction l generalizing w l' with
  | nil =>
      cases l' with
      | nil => rfl
      | cons b l' => exact absurd (h'.1.symm.trans h) h'.2.1
  | cons a l ih =>
      cases l' with
      | nil => exact absurd (h.1.symm.trans h') h.2.1
      | cons b l' =>
          obtain rfl := h.1.symm.trans h'.1
          rw [ih h.2.2 h'.2.2]

theorem Chain.ne_zero (h : Chain read link w l) (ha : a ∈ l) : a ≠ 0 := by
  induction l generalizing w with
  | nil => cases ha
  | cons b l ih =>
      rcases List.mem_cons.mp ha with rfl | ha
      · exact h.2.1
      · exact ih h.2.2 ha

/-- A chain goes on from each of its cells. -/
theorem Chain.suffix (h : Chain read link w (pre ++ a :: post)) :
    Chain read link (link a) post := by
  induction pre generalizing w with
  | nil => exact h.2.2
  | cons b pre ih => exact ih h.2.2

section

variable (h : Chain read link w l)

include h

/-- A chain meets a cell once. -/
theorem Chain.nodup : l.Nodup := by
  induction l generalizing w with
  | nil => exact List.nodup_nil
  | cons a l ih =>
      refine List.nodup_cons.mpr ⟨fun ha => ?_, ih h.2.2⟩
      obtain ⟨pre, post, rfl⟩ := List.append_of_mem ha
      -- what follows the first `a` is also what follows the second one
      have hlen := congrArg List.length (h.2.2.unique h.2.2.suffix)
      simp only [List.length_append, List.length_cons] at hlen
      omega

theorem Chain.linked_iff : Linked read link w a ↔ a ∈ l := by
  constructor
  · intro ha
    induction ha generalizing l with
    | here hne =>
        cases l with
        | nil => exact absurd h hne
        | cons b l => exact h.1 ▸ List.mem_cons_self
    | next hne _ ih =>
        cases l with
        | nil => exact absurd h hne
        | cons b l => exact List.mem_cons_of_mem _ (ih (h.1.symm ▸ h.2.2))
  · intro ha
    induction l generalizing w with
    | nil => cases ha
    | cons b l ih =>
        obtain ⟨rfl, hne, hrest⟩ := h
        rcases List.mem_cons.mp ha with rfl | ha
        · exact .here hne
        · exact .next hne (ih hrest ha)

/-- A chain is there in every memory with the same pointer words. -/
theorem Chain.congr (hw : read' w = read w)
    (hl : ∀ c ∈ l, read' (link c) = read (link c)) : Chain read' link w l := by
  induction l generalizing w with
  | nil => exact hw.trans h
  | cons b l ih =>
      exact ⟨hw.trans h.1, h.2.1, ih h.2.2 (hl b List.mem_cons_self)
        fun c hc => hl c (List.mem_cons_of_mem _ hc)⟩

/-- A chain that starts at another pointer word with the same value. -/
theorem Chain.move {w' : ω} (hw : read' w' = read w)
    (hl : ∀ c ∈ l, read' (link c) = read (link c)) : Chain read' link w' l := by
  cases l with
  | nil => exact hw.trans h
  | cons b l =>
      exact ⟨hw.trans h.1, h.2.1, h.2.2.congr (hl b List.mem_cons_self)
        fun c hc => hl c (List.mem_cons_of_mem _ hc)⟩

/-- A cell put in front of a chain. -/
theorem Chain.push (hne : a ≠ 0) (hw : read' w = a)
    (ha : read' (link a) = read w) (hl : ∀ c ∈ l, read' (link c) = read (link c)) :
    Chain read' link w (a :: l) :=
  ⟨hw, hne, h.move ha hl⟩

end

/-- The first cell taken off a chain. -/
theorem Chain.pop (h : Chain read link w (a :: l)) (hw : read' w = read (link a))
    (hl : ∀ c ∈ l, read' (link c) = read (link c)) : Chain read' link w l :=
  h.2.2.move hw hl

/-- A new value of the word behind the first cells changes what follows them. -/
theorem Chain.splice (h : Chain read link w (pre ++ l)) (hinj : Function.Injective link)
    (hhead : ∀ c ∈ pre, link c ≠ w) (hl' : Chain read' link (linkOf link w pre) l')
    (hother : ∀ v, v ≠ linkOf link w pre → (v = w ∨ ∃ c ∈ pre, v = link c) →
      read' v = read v) : Chain read' link w (pre ++ l') := by
  induction pre generalizing w with
  | nil => exact hl'
  | cons b pre ih =>
      -- the words in front of the changed one are those of other cells
      have hnodup := (List.nodup_cons.mp (List.nodup_append.mp h.nodup).1).1
      have hb : ∀ c ∈ pre, link c ≠ link b := fun c hc heq =>
        hnodup (hinj heq ▸ hc)
      refine ⟨(hother w (fun heq => ?_) (.inl rfl)).trans h.1, h.2.1,
        ih h.2.2 hb hl' fun v hv hmem => hother v hv (.inr ?_)⟩
      · rcases link_of_mem link (link b) pre with hlast | ⟨c, hc, hlast⟩
        · exact hhead b List.mem_cons_self (hlast.symm.trans heq.symm)
        · exact hhead c (List.mem_cons_of_mem _ hc) (hlast.symm.trans heq.symm)
      · rcases hmem with rfl | ⟨c, hc, rfl⟩
        · exact ⟨b, List.mem_cons_self, rfl⟩
        · exact ⟨c, List.mem_cons_of_mem _ hc, rfl⟩

/-- A cell taken out of a chain. -/
theorem Chain.unlink (h : Chain read link w (pre ++ b :: post)) (hinj : Function.Injective link)
    (hhead : ∀ c ∈ pre, link c ≠ w) (hlast : read' (linkOf link w pre) = read (link b))
    (hpost : ∀ c ∈ post, read' (link c) = read (link c))
    (hother : ∀ v, v ≠ linkOf link w pre → (v = w ∨ ∃ c ∈ pre, v = link c) →
      read' v = read v) : Chain read' link w (pre ++ post) :=
  h.splice hinj hhead (h.suffix.move hlast hpost) hother

end Lib.Links
