import Kogata.User.WindowPainting

/-!
# Operations on rectangles

What `region_inter`, `region_diff` and `region_union` of `syslua/lx/tk.lua` return: pieces with
points, no two of which overlap, of the points of the intersection, the difference or the union.
The corner of the intersection lies in one cell of the grid only (`region_inter_length`).
-/

namespace Kogata.User

open Lib.Tiling

variable {reg1 reg2 r : Region} {pieces : List Region} {S : Set (Int × Int)}

/-- The pieces have points, no two of them overlap, and together they have the points of the
set. -/
structure Region.Pieces (pieces : List Region) (S : Set (Int × Int)) : Prop where
  positive : ∀ r ∈ pieces, r.Positive
  disjoint : pieces.Pairwise fun r r' => ∀ p, ¬ (r.has p ∧ r'.has p)
  points : ∀ p, (∃ r ∈ pieces, r.has p) ↔ p ∈ S

theorem Region.Pieces.of_tiles (h : (∀ r ∈ pieces, r.Positive) ∧ Tiles Region.has pieces S) :
    Pieces pieces S :=
  ⟨h.1, h.2.pairwise, h.2.covers⟩

theorem region_union (reg1 reg2 : Region) : (∀ r ∈ regionUnion reg1 reg2, r.Positive) ∧
    Tiles Region.has (regionUnion reg1 reg2) {p | reg1.has p ∨ reg2.has p} := by
  have hsel : Selects reg1 reg2 (· || ·) _ := ⟨fun _ _ _ _ => rfl, rfl⟩
  obtain ⟨hpositive, htiles⟩ := region_operation hsel
  exact ⟨hpositive, htiles.congr fun p => Bool.or_eq_true_iff⟩

/-- The cells that the test of `region_inter` selects. -/
def interCells (reg1 reg2 : Region) : List Region :=
  selected (sorted reg1.x (reg1.x + reg1.w) reg2.x (reg2.x + reg2.w))
    (sorted reg1.y (reg1.y + reg1.h) reg2.y (reg2.y + reg2.h))
    fun x0 _ y0 _ => reg1.has (x0, y0) && reg2.has (x0, y0)

/-- Of the edges only the greater one of the two left edges is inside both regions, and likewise
of the upper ones. -/
theorem inter_cell_corner (hr : r ∈ interCells reg1 reg2) :
    r.x = max reg1.x reg2.x ∧ r.y = max reg1.y reg2.y := by
  obtain ⟨⟨x0, x1⟩, hcx, hr⟩ := List.mem_flatMap.mp hr
  obtain ⟨⟨y0, y1⟩, hcy, hr⟩ := List.mem_flatMap.mp hr
  dsimp only at hr
  split at hr
  · next hcell =>
      cases List.mem_singleton.mp hr
      obtain ⟨h1, h2⟩ := Bool.and_eq_true_iff.mp hcell.2.2
      have hx := mem_sorted.mp (intervals_mem hcx).1
      have hy := mem_sorted.mp (intervals_mem hcy).1
      rw [Region.has_iff] at h1 h2
      dsimp only at h1 h2 hx hy ⊢
      omega
  · exact absurd hr List.not_mem_nil

/-- All selected cells have that corner, and no two cells have a common point. -/
theorem inter_cells_length (reg1 reg2 : Region) : (interCells reg1 reg2).length ≤ 1 := by
  have hpositive : ∀ r ∈ interCells reg1 reg2, r.Positive := selected_positive
  have hcorner : ∀ r ∈ interCells reg1 reg2, r.has (max reg1.x reg2.x, max reg1.y reg2.y) := by
    intro r hr
    obtain ⟨hx, hy⟩ := inter_cell_corner hr
    obtain ⟨hwidth, hheight⟩ := hpositive r hr
    rw [Region.has_iff]
    dsimp only
    omega
  have hcount := (add_regions hpositive (List.forall_mem_nil _)).2
    (max reg1.x reg2.x, max reg1.y reg2.y)
  rw [List.countP_nil, Nat.add_zero] at hcount
  calc (interCells reg1 reg2).length
      = (interCells reg1 reg2).countP (·.has (max reg1.x reg2.x, max reg1.y reg2.y)) :=
        (List.countP_eq_length.mpr hcorner).symm
    _ = (regionInter reg1 reg2).countP (·.has (max reg1.x reg2.x, max reg1.y reg2.y)) :=
        hcount.symm
    _ ≤ 1 := (region_inter reg1 reg2).2.count_le_one _

theorem region_inter_length (reg1 reg2 : Region) : (regionInter reg1 reg2).length ≤ 1 := by
  have hlength := inter_cells_length reg1 reg2
  show ((interCells reg1 reg2).foldl addRegion []).length ≤ 1
  match hcells : interCells reg1 reg2 with
  | [] => exact Nat.zero_le 1
  | [r] => exact Nat.le_refl 1
  | r :: r' :: rest =>
      rw [hcells, List.length_cons, List.length_cons] at hlength
      omega

example : regionUnion ⟨0, 0, 20, 10⟩ ⟨10, 0, 20, 10⟩ = [⟨0, 0, 30, 10⟩] := by
  decide

end Kogata.User
