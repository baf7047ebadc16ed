import Mathlib.Tactic.Common

/-!
# Page directories that map themselves

An address is translated in two levels: the directory gives a table, and the table a frame. Where
the last entry of a directory gives the directory itself, the pages behind that entry are the tables
of the directory, and the last one of them is the directory.
-/

namespace Lib.PageTable

variable {F : Type} {entry : F → Nat → Option F} {d f : F} {last pt page : Nat}

/-- The frame that a directory gives for a page of a table. -/
def translate (entry : F → Nat → Option F) (d : F) (pt page : Nat) : Option F :=
  (entry d pt).bind fun table => entry table page

theorem translate_eq_some :
    translate entry d pt page = some f ↔ ∃ table, entry d pt = some table ∧
      entry table page = some f :=
  Option.bind_eq_some_iff

/-- Behind the mirror are the tables. -/
theorem translate_mirror (h : entry d last = some d) (pt : Nat) :
    translate entry d last pt = entry d pt := by
  unfold translate
  rw [h]
  rfl

/-- The last one of them is the directory. -/
theorem translate_self (h : entry d last = some d) : translate entry d last last = some d :=
  (translate_mirror h last).trans h

end Lib.PageTable
