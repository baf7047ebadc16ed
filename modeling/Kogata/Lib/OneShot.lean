import Mathlib.Tactic.Common

/-!
# Items that are used once

Items are made, used at most once and freed, and a log has an entry for each use and each release.
`InOrder` says what a log must look like: of two entries for one item the first is its use and the
second its release, so that an item is used at most once, freed at most once, and not used after
that. `Books` is the invariant behind it, with a rule for each of the three movements.
-/

namespace Lib.OneShot

variable {ι : Type}

/-- An entry of the log. -/
inductive Note (ι : Type)
  | use (i : ι)
  | free (i : ι)
  deriving DecidableEq

/-- The item that an entry is about. -/
def Note.item : Note ι → ι
  | .use i | .free i => i

/-- Of two entries for items that `name` takes to the same, the first is a use and the second a
release. -/
def InOrder {κ : Type} (name : ι → κ) (notes : List (Note ι)) : Prop :=
  notes.Pairwise fun a b => name a.item = name b.item → (∃ i, a = .use i) ∧ ∃ i, b = .free i

/-- The items that have been made, those that have not been freed, and those in use. -/
structure Books (made live busy : ι → Prop) (notes : List (Note ι)) : Prop where
  order : InOrder id notes
  known : ∀ n ∈ notes, made n.item
  kept : ∀ i, live i ↔ made i ∧ .free i ∉ notes
  used : ∀ i, .use i ∈ notes → .free i ∈ notes ∨ busy i
  held : ∀ i, busy i → live i

variable {made made' live live' busy busy' : ι → Prop} {notes : List (Note ι)} {i : ι}

/-- Items with different names are different. -/
theorem InOrder.rename {κ : Type} {name : ι → κ} (h : InOrder id notes)
    (hname : ∀ a ∈ notes, ∀ b ∈ notes, name a.item = name b.item → a.item = b.item) :
    InOrder name notes :=
  h.imp_of_mem fun ha hb hab heq => hab (hname _ ha _ hb heq)

theorem InOrder.snoc {n : Note ι} (h : InOrder id notes)
    (hlast : ∀ a ∈ notes, a.item = n.item → (∃ i, a = .use i) ∧ ∃ i, n = .free i) :
    InOrder id (notes ++ [n]) := by
  refine List.pairwise_append.mpr ⟨h, List.pairwise_singleton _ _, fun a ha b hb => ?_⟩
  rw [List.mem_singleton.mp hb]
  exact hlast a ha

namespace Books

theorem of_nothing (hmade : ∀ i, ¬ made i) (hlive : ∀ i, ¬ live i) (hbusy : ∀ i, ¬ busy i) :
    Books made live busy [] where
  order := .nil
  known := nofun
  kept := fun i => ⟨fun h => absurd h (hlive i), fun h => absurd h.1 (hmade i)⟩
  used := nofun
  held := fun i h => absurd h (hbusy i)

section

variable (h : Books made live busy notes)

include h

/-- A new item. -/
theorem make (hnew : ¬ made i)
    (hmade : ∀ j, made' j ↔ made j ∨ j = i) (hlive : ∀ j, live' j ↔ live j ∨ j = i) :
    Books made' live' busy notes where
  order := h.order
  known := fun n hn => (hmade _).mpr (.inl (h.known n hn))
  kept := fun j => by
    rw [hlive, hmade, h.kept]
    constructor
    · rintro (⟨hj, hfree⟩ | rfl)
      · exact ⟨.inl hj, hfree⟩
      · exact ⟨.inr rfl, fun hfree => hnew (h.known _ hfree)⟩
    · rintro ⟨hj | rfl, hfree⟩
      · exact .inl ⟨hj, hfree⟩
      · exact .inr rfl
  used := h.used
  held := fun j hj => (hlive j).mpr (.inl (h.held j hj))

/-- An item is used that is live and has not been used. -/
theorem use (hi : live i) (hidle : ¬ busy i)
    (hbusy : ∀ j, busy' j ↔ busy j ∨ j = i) : Books made live busy' (notes ++ [.use i]) := by
  obtain ⟨hmade, hkept⟩ := (h.kept i).mp hi
  have hunused : .use i ∉ notes := fun huse => (h.used i huse).elim hkept hidle
  refine ⟨h.order.snoc fun a ha heq => ?_, fun n hn => ?_, fun j => ?_, fun j hj => ?_,
    fun j hj => ?_⟩
  · change a.item = i at heq
    cases a with
    | use j => exact absurd (heq ▸ ha) hunused
    | free j => exact absurd (heq ▸ ha) hkept
  · rcases List.mem_append.mp hn with hn | hn
    · exact h.known n hn
    · rw [List.mem_singleton.mp hn]
      exact hmade
  · rw [h.kept, List.mem_append, List.mem_singleton]
    simp
  · rcases List.mem_append.mp hj with hj | hj
    · exact (h.used j hj).imp (List.mem_append_left _) fun hb => (hbusy j).mpr (.inl hb)
    · cases List.mem_singleton.mp hj
      exact .inr ((hbusy _).mpr (.inr rfl))
  · rcases (hbusy j).mp hj with hj | rfl
    · exact h.held j hj
    · exact hi

/-- An item is freed that is live. -/
theorem free (hi : live i)
    (hlive : ∀ j, live' j ↔ live j ∧ j ≠ i) (hbusy : ∀ j, busy' j ↔ busy j ∧ j ≠ i) :
    Books made live' busy' (notes ++ [.free i]) := by
  obtain ⟨hmade, hkept⟩ := (h.kept i).mp hi
  refine ⟨h.order.snoc fun a ha heq => ?_, fun n hn => ?_, fun j => ?_, fun j hj => ?_,
    fun j hj => ?_⟩
  · change a.item = i at heq
    cases a with
    | use j => exact ⟨⟨j, rfl⟩, i, rfl⟩
    | free j => exact absurd (heq ▸ ha) hkept
  · rcases List.mem_append.mp hn with hn | hn
    · exact h.known n hn
    · rw [List.mem_singleton.mp hn]
      exact hmade
  · rw [hlive, h.kept, List.mem_append, List.mem_singleton, not_or, and_assoc]
    simp
  · have huse : .use j ∈ notes := by simpa using hj
    by_cases heq : j = i
    · exact .inl (by simp [heq])
    · exact (h.used j huse).imp (List.mem_append_left _) fun hb => (hbusy j).mpr ⟨hb, heq⟩
  · obtain ⟨hb, hne⟩ := (hbusy j).mp hj
    exact (hlive j).mpr ⟨h.held j hb, hne⟩

/-- An item that is made and freed at once. -/
theorem make_free (hnew : ¬ made i)
    (hmade : ∀ j, made' j ↔ made j ∨ j = i) : Books made' live busy (notes ++ [.free i]) := by
  have hother : ∀ j, live j → j ≠ i := fun j hj heq => hnew (heq ▸ ((h.kept j).mp hj).1)
  have hmid : Books made' (fun j => live j ∨ j = i) busy notes :=
    h.make hnew hmade fun _ => Iff.rfl
  exact hmid.free (.inr rfl)
    (fun j => ⟨fun hj => ⟨.inl hj, hother j hj⟩, fun hj => hj.1.resolve_right hj.2⟩)
    fun j => ⟨fun hj => ⟨hj, hother j (h.held j hj)⟩, And.left⟩

/-- All items that are left are freed, and then every item has been. -/
theorem free_all (items : List ι) (hnodup : items.Nodup)
    (hitems : ∀ i, i ∈ items ↔ live i) (hidle : ∀ i, ¬ busy i) :
    InOrder id (notes ++ items.map .free) ∧
      ∀ i, made i → .free i ∈ notes ++ items.map .free := by
  induction items generalizing live notes with
  | nil =>
      rw [List.map_nil, List.append_nil]
      refine ⟨h.order, fun i hi => by_contra fun hkept => ?_⟩
      exact List.not_mem_nil ((hitems i).mpr ((h.kept i).mpr ⟨hi, hkept⟩))
  | cons x rest ih =>
      obtain ⟨hx, hrest⟩ := List.nodup_cons.mp hnodup
      have hlive : ∀ j, j ∈ rest ↔ live j ∧ j ≠ x := fun j => by
        rw [← hitems j, List.mem_cons]
        constructor
        · exact fun hj => ⟨.inr hj, fun heq => hx (heq ▸ hj)⟩
        · exact fun hj => hj.1.resolve_left hj.2
      have hmid : Books made (· ∈ rest) busy (notes ++ [.free x]) :=
        h.free ((hitems x).mp (List.mem_cons_self ..)) hlive
          fun j => ⟨fun hj => absurd hj (hidle j), And.left⟩
      have hend := ih hmid hrest fun _ => Iff.rfl
      rwa [List.append_assoc] at hend

end

end Books

end Lib.OneShot
