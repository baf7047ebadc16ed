import Kogata.User.WindowManager

/-!
# Painting and hit testing

A redraw paints each point of its rectangle in one call, which is for the window that `find_win`
finds there. The pieces that remain after the windows from the top down to one tile the part of
the rectangle where none of these windows is.
-/

namespace Kogata.User

open Lib.Tiling

section Regions

variable {reg reg1 reg2 r new joined : Region} {pieces rest : List Region} {p : Int × Int}
  {x y : Int} {cx cy : Int × Int}

theorem Region.has_iff : reg.has p ↔
    reg.x ≤ p.1 ∧ p.1 < reg.x + reg.w ∧ reg.y ≤ p.2 ∧ p.2 < reg.y + reg.h := by
  simp only [Region.has, Bool.and_eq_true, decide_eq_true_iff, ge_iff_le, and_assoc]

/-- The region has points. -/
structure Region.Positive (reg : Region) : Prop where
  width : 0 < reg.w
  height : 0 < reg.h

theorem merge_positive (h : merge r new = some joined) (hr : r.Positive) (hnew : new.Positive) :
    joined.Positive := by
  obtain ⟨hwidth, hheight⟩ := hr
  obtain ⟨hwidth', hheight'⟩ := hnew
  simp only [merge] at h
  split at h
  · cases h
    exact ⟨by dsimp only; omega, hheight⟩
  split at h
  · cases h
    exact ⟨hwidth, by dsimp only; omega⟩
  · cases h

/-- Two pieces that are joined have no common point. -/
theorem merge_count (h : merge r new = some joined) (hr : r.Positive) (hnew : new.Positive) :
    [joined].countP (·.has p) = [r, new].countP (·.has p) := by
  obtain ⟨hwidth, hheight⟩ := hr
  obtain ⟨hwidth', hheight'⟩ := hnew
  simp only [merge] at h
  simp only [List.countP_cons, List.countP_nil, Region.has_iff]
  split at h
  · cases h
    dsimp only
    split_ifs <;> omega
  split at h
  · cases h
    dsimp only
    split_ifs <;> omega
  · cases h

section

variable (h : takeMerge new pieces = some (joined, rest))

include h

theorem take_merge_length :
    rest.length + 1 = pieces.length := by
  induction pieces generalizing rest with
  | nil => cases h
  | cons r pieces ih =>
      simp only [takeMerge] at h
      split at h
      · cases h
        rfl
      · obtain ⟨found, hfound, heq⟩ := Option.map_eq_some_iff.mp h
        cases heq
        rw [List.length_cons, List.length_cons, ih hfound]

theorem take_merge_positive (hpieces : ∀ r ∈ pieces, r.Positive) (hnew : new.Positive) :
    joined.Positive ∧ ∀ r ∈ rest, r.Positive := by
  induction pieces generalizing rest with
  | nil => cases h
  | cons r pieces ih =>
      obtain ⟨hr, hrest⟩ := List.forall_mem_cons.mp hpieces
      simp only [takeMerge] at h
      split at h
      · next hmerge =>
          cases h
          exact ⟨merge_positive hmerge hr hnew, hrest⟩
      · obtain ⟨found, hfound, heq⟩ := Option.map_eq_some_iff.mp h
        cases heq
        obtain ⟨hjoined, hleft⟩ := ih hfound hrest
        exact ⟨hjoined, List.forall_mem_cons.mpr ⟨hr, hleft⟩⟩

theorem take_merge_count (hpieces : ∀ r ∈ pieces, r.Positive) (hnew : new.Positive) :
    (joined :: rest).countP (·.has p) = (new :: pieces).countP (·.has p) := by
  induction pieces generalizing rest with
  | nil => cases h
  | cons r pieces ih =>
      obtain ⟨hr, hrest⟩ := List.forall_mem_cons.mp hpieces
      simp only [takeMerge] at h
      split at h
      · next hmerge =>
          cases h
          have hcount := merge_count (p := p) hmerge hr hnew
          simp only [List.countP_cons, List.countP_nil] at hcount ⊢
          omega
      · obtain ⟨found, hfound, heq⟩ := Option.map_eq_some_iff.mp h
        cases heq
        have hcount := ih hfound hrest
        simp only [List.countP_cons] at hcount ⊢
        omega

end

/-- The bound on the calls is never met. -/
theorem add_region_eq (pieces : List Region) (new : Region) : addRegion pieces new =
    match takeMerge new pieces with
    | some (joined, rest) => addRegion rest joined
    | none => pieces ++ [new] := by
  cases pieces with
  | nil => rfl
  | cons r pieces =>
      simp only [addRegion, List.length_cons, addRegionWithin]
      rcases hfound : takeMerge new (r :: pieces) with _ | ⟨joined, rest⟩
      · rfl
      · have hlength := take_merge_length hfound
        rw [List.length_cons, Nat.add_right_cancel_iff] at hlength
        dsimp only
        rw [hlength]

theorem add_region_positive (hpieces : ∀ r ∈ pieces, r.Positive) (hnew : new.Positive) :
    ∀ r ∈ addRegion pieces new, r.Positive := by
  induction hn : pieces.length generalizing pieces new with
  | zero =>
      rw [List.length_eq_zero_iff.mp hn, add_region_eq]
      exact List.forall_mem_cons.mpr ⟨hnew, nofun⟩
  | succ n ih =>
      rw [add_region_eq]
      split
      · next hfound =>
          obtain ⟨hjoined, hrest⟩ := take_merge_positive hfound hpieces hnew
          exact ih hrest hjoined (Nat.succ_injective ((take_merge_length hfound).trans hn))
      · exact List.forall_mem_append.mpr ⟨hpieces, List.forall_mem_cons.mpr ⟨hnew, nofun⟩⟩

/-- A piece is added to what is covered, whatever it is joined to. -/
theorem add_region_count (hpieces : ∀ r ∈ pieces, r.Positive) (hnew : new.Positive) :
    (addRegion pieces new).countP (·.has p) = (new :: pieces).countP (·.has p) := by
  induction hn : pieces.length generalizing pieces new with
  | zero => rw [List.length_eq_zero_iff.mp hn, add_region_eq]; rfl
  | succ n ih =>
      rw [add_region_eq]
      split
      · next hfound =>
          obtain ⟨hjoined, hrest⟩ := take_merge_positive hfound hpieces hnew
          rw [ih hrest hjoined (Nat.succ_injective ((take_merge_length hfound).trans hn)),
            take_merge_count hfound hpieces hnew]
      · rw [List.countP_append, List.countP_singleton, List.countP_cons]

theorem add_regions {added : List Region} (hadded : ∀ r ∈ added, r.Positive)
    (hpieces : ∀ r ∈ pieces, r.Positive) :
    (∀ r ∈ added.foldl addRegion pieces, r.Positive) ∧ ∀ p,
      (added.foldl addRegion pieces).countP (·.has p) =
        added.countP (·.has p) + pieces.countP (·.has p) := by
  induction added generalizing pieces with
  | nil => exact ⟨hpieces, fun p => (Nat.zero_add _).symm⟩
  | cons new added ih =>
      obtain ⟨hnew, hadded⟩ := List.forall_mem_cons.mp hadded
      obtain ⟨hpositive, hcount⟩ := ih hadded (add_region_positive hpieces hnew)
      refine ⟨hpositive, fun p => (hcount p).trans ?_⟩
      rw [add_region_count hpieces hnew, List.countP_cons, List.countP_cons]
      omega

theorem mem_sorted {a b c d v : Int} : v ∈ sorted a b c d ↔ v = a ∨ v = b ∨ v = c ∨ v = d := by
  rw [sorted, List.mem_insertionSort]
  simp only [List.mem_cons, List.not_mem_nil, or_false]

theorem pairwise_sorted (a b c d : Int) : (sorted a b c d).Pairwise (· ≤ ·) :=
  List.pairwise_insertionSort _ _

/-- A cell of the grid has the points of a column and of a row. -/
theorem cell_has : Region.has ⟨cx.1, cy.1, cx.2 - cx.1, cy.2 - cy.1⟩ p ↔
    between cx p.1 ∧ between cy p.2 := by
  rw [Region.has_iff, between_iff, between_iff]
  dsimp only
  omega

/-- No edge of the region goes through the cell, so that all of the cell is as its corner is. -/
theorem has_corner (hleft : reg.x ≤ cx.1 ∨ cx.2 ≤ reg.x)
    (hright : reg.x + reg.w ≤ cx.1 ∨ cx.2 ≤ reg.x + reg.w)
    (htop : reg.y ≤ cy.1 ∨ cy.2 ≤ reg.y) (hbottom : reg.y + reg.h ≤ cy.1 ∨ cy.2 ≤ reg.y + reg.h)
    (hx : between cx p.1) (hy : between cy p.2) : reg.has (cx.1, cy.1) = reg.has p := by
  rw [Bool.eq_iff_iff, Region.has_iff, Region.has_iff]
  obtain ⟨hlow, hhigh⟩ := between_iff.mp hx
  obtain ⟨hlow', hhigh'⟩ := between_iff.mp hy
  dsimp only
  omega

theorem selected_positive {xs ys : List Int} {selFun : Int → Int → Int → Int → Bool} :
    ∀ r ∈ selected xs ys selFun, r.Positive := by
  intro r hr
  obtain ⟨⟨x0, x1⟩, -, hr⟩ := List.mem_flatMap.mp hr
  obtain ⟨⟨y0, y1⟩, -, hr⟩ := List.mem_flatMap.mp hr
  dsimp only at hr
  split at hr
  · next hcell =>
      cases List.mem_singleton.mp hr
      exact ⟨by dsimp only; omega, by dsimp only; omega⟩
  · exact absurd hr List.not_mem_nil

section Operation

variable {f : Bool → Bool → Bool} {selFun : Int → Int → Int → Int → Bool}

/-- A test of the corner that says for each of the two regions whether the corner is in it. -/
structure Selects (reg1 reg2 : Region) (f : Bool → Bool → Bool)
    (selFun : Int → Int → Int → Int → Bool) : Prop where
  corner : ∀ x0 x1 y0 y1, selFun x0 x1 y0 y1 = f (reg1.has (x0, y0)) (reg2.has (x0, y0))
  neither : f false false = false

/-- In which cells a point is, and whether the cell is selected. -/
theorem selected_cell (hsel : Selects reg1 reg2 f selFun)
    (hcx : cx ∈ intervals (sorted reg1.x (reg1.x + reg1.w) reg2.x (reg2.x + reg2.w)))
    (hcy : cy ∈ intervals (sorted reg1.y (reg1.y + reg1.h) reg2.y (reg2.y + reg2.h))) :
    (if cx.2 > cx.1 ∧ cy.2 > cy.1 ∧ selFun cx.1 cx.2 cy.1 cy.2 then
        [(⟨cx.1, cy.1, cx.2 - cx.1, cy.2 - cy.1⟩ : Region)] else []).countP (·.has p) =
      if (f (reg1.has p) (reg2.has p) && between cx p.1) && between cy p.2 then 1 else 0 := by
  have hgap : ∀ b, _ → b ≤ cx.1 ∨ cx.2 ≤ b := fun b hb =>
    intervals_gap (pairwise_sorted ..) (mem_sorted.mpr hb) hcx
  have hgap' : ∀ b, _ → b ≤ cy.1 ∨ cy.2 ≤ b := fun b hb =>
    intervals_gap (pairwise_sorted ..) (mem_sorted.mpr hb) hcy
  by_cases hin : between cx p.1 ∧ between cy p.2
  · obtain ⟨hx, hy⟩ := hin
    have h1 : reg1.has (cx.1, cy.1) = reg1.has p :=
      has_corner (hgap _ (.inl rfl)) (hgap _ (.inr (.inl rfl))) (hgap' _ (.inl rfl))
        (hgap' _ (.inr (.inl rfl))) hx hy
    have h2 : reg2.has (cx.1, cy.1) = reg2.has p :=
      has_corner (hgap _ (.inr (.inr (.inl rfl)))) (hgap _ (.inr (.inr (.inr rfl))))
        (hgap' _ (.inr (.inr (.inl rfl)))) (hgap' _ (.inr (.inr (.inr rfl)))) hx hy
    have hwidth := between_iff.mp hx
    have hheight := between_iff.mp hy
    rw [hsel.corner, h1, h2, hx, hy, Bool.and_true, Bool.and_true]
    by_cases hf : f (reg1.has p) (reg2.has p)
    · rw [if_pos ⟨by omega, by omega, hf⟩, if_pos hf, List.countP_singleton,
        if_pos (cell_has.mpr ⟨hx, hy⟩)]
    · rw [if_neg fun hcell => hf hcell.2.2, if_neg hf, List.countP_nil]
  · have hnot : ¬ ((f (reg1.has p) (reg2.has p) && between cx p.1) && between cy p.2) := by
      rw [Bool.and_eq_true, Bool.and_eq_true]
      exact fun hall => hin ⟨hall.1.2, hall.2⟩
    rw [if_neg hnot]
    split
    · exact List.countP_eq_zero.mpr (List.forall_mem_cons.mpr
        ⟨fun hhas => hin (cell_has.mp hhas), nofun⟩)
    · rfl

/-- The pieces tile what the test selects. -/
theorem region_operation (hsel : Selects reg1 reg2 f selFun) :
    (∀ r ∈ regionOperation reg1 reg2 selFun, r.Positive) ∧
      Tiles Region.has (regionOperation reg1 reg2 selFun) {p | f (reg1.has p) (reg2.has p)} := by
  obtain ⟨hpositive, hcount⟩ := add_regions selected_positive (List.forall_mem_nil _)
  have hgrid : ∀ p : Int × Int, (regionOperation reg1 reg2 selFun).countP (·.has p) = _ :=
    fun p => (hcount p).trans
      (count_grid fun cx hcx cy hcy => selected_cell (p := p) hsel hcx hcy)
  refine ⟨hpositive, fun p hp => ?_, fun p hp => ?_⟩ <;> rw [hgrid]
  · have hp : f (reg1.has p) (reg2.has p) := hp
    have hin : reg1.has p ∨ reg2.has p := by
      by_contra hout
      obtain ⟨h1, h2⟩ := not_or.mp hout
      rw [Bool.eq_false_iff.mpr h1, Bool.eq_false_iff.mpr h2, hsel.neither] at hp
      exact Bool.false_ne_true hp
    simp only [hp, Bool.true_and]
    rw [count_intervals (pairwise_sorted ..), count_intervals (pairwise_sorted ..)]
    all_goals
      simp only [mem_sorted, or_and_right, exists_or, exists_eq_left]
      rw [Region.has_iff, Region.has_iff] at hin
      omega
  · rw [List.countP_eq_zero.mpr fun cx _ hcx => ?_, Nat.zero_mul]
    exact hp (Bool.and_eq_true_iff.mp hcx).1

end Operation

/-- What `region_diff` and `region_inter` leave of the first region. -/
theorem region_inter (reg1 reg2 : Region) : (∀ r ∈ regionInter reg1 reg2, r.Positive) ∧
    Tiles Region.has (regionInter reg1 reg2) {p | reg1.has p ∧ reg2.has p} := by
  have hsel : Selects reg1 reg2 (· && ·) _ := ⟨fun _ _ _ _ => rfl, rfl⟩
  obtain ⟨hpositive, htiles⟩ := region_operation hsel
  exact ⟨hpositive, htiles.congr fun p => Bool.and_eq_true_iff⟩

theorem region_diff (reg1 reg2 : Region) : (∀ r ∈ regionDiff reg1 reg2, r.Positive) ∧
    Tiles Region.has (regionDiff reg1 reg2) {p | reg1.has p ∧ ¬ reg2.has p} := by
  have hsel : Selects reg1 reg2 (fun a b => a && !b) _ := ⟨fun _ _ _ _ => rfl, rfl⟩
  obtain ⟨hpositive, htiles⟩ := region_operation hsel
  refine ⟨hpositive, htiles.congr fun p => ?_⟩
  rw [Set.mem_ofPred_eq, Set.mem_ofPred_eq, Bool.and_eq_true, Bool.not_eq_true', Bool.not_eq_true]

end Regions

section Surfaces

variable {x0 y0 : Int} {buf : FbRegion} {reg : Region} {p q : Int × Int}

/-- The rectangle of a redraw, on the screen. -/
def screenOf (x0 y0 : Int) (buf : FbRegion) : Region := ⟨x0, y0, buf.w, buf.h⟩

/-- Where a point of the screen is in the framebuffer. -/
def place (x0 y0 : Int) (buf : FbRegion) (p : Int × Int) : Int × Int :=
  (buf.x + (p.1 - x0), buf.y + (p.2 - y0))

/-- The surface for a piece of the rectangle. -/
def surfaceOf (x0 y0 : Int) (buf : FbRegion) (reg : Region) : FbRegion :=
  ⟨buf.x + (reg.x - x0), buf.y + (reg.y - y0), reg.w, reg.h⟩

/-- The second surface is a part of the first. -/
structure FbRegion.Holds (buf sub : FbRegion) : Prop where
  left : buf.x ≤ sub.x
  right : sub.x + sub.w ≤ buf.x + buf.w
  top : buf.y ≤ sub.y
  bottom : sub.y + sub.h ≤ buf.y + buf.h

/-- A piece of the rectangle, which may be empty. -/
structure Fits (x0 y0 : Int) (buf : FbRegion) (reg : Region) : Prop where
  width : 0 ≤ reg.w
  height : 0 ≤ reg.h
  left : x0 ≤ reg.x
  right : reg.x + reg.w ≤ x0 + buf.w
  top : y0 ≤ reg.y
  bottom : reg.y + reg.h ≤ y0 + buf.h

/-- A region with points, all of them in the rectangle, is inside the rectangle. -/
theorem Region.Positive.fits (hreg : reg.Positive)
    (hin : ∀ p, reg.has p → (screenOf x0 y0 buf).has p) : Fits x0 y0 buf reg := by
  obtain ⟨hwidth, hheight⟩ := hreg
  have hfirst := Region.has_iff.mp (hin (reg.x, reg.y) (Region.has_iff.mpr (by dsimp only; omega)))
  have hlast := Region.has_iff.mp (hin (reg.x + reg.w - 1, reg.y + reg.h - 1)
    (Region.has_iff.mpr (by dsimp only; omega)))
  simp only [screenOf] at hfirst hlast
  exact ⟨by omega, by omega, by omega, by omega, by omega, by omega⟩

theorem Fits.part (h : Fits x0 y0 buf reg) :
    partOf x0 y0 buf reg = some (surfaceOf x0 y0 buf reg) := by
  obtain ⟨hwidth, hheight, hleft, hright, htop, hbottom⟩ := h
  simp only [partOf, surfaceSub]
  rw [if_neg (by omega), if_neg (by omega), if_neg (by omega), if_neg (by omega), surfaceOf]

theorem Fits.holds (h : Fits x0 y0 buf reg) : buf.Holds (surfaceOf x0 y0 buf reg) := by
  obtain ⟨hwidth, hheight, hleft, hright, htop, hbottom⟩ := h
  refine ⟨?_, ?_, ?_, ?_⟩ <;> simp only [surfaceOf] <;> omega

/-- The surface for a piece has the places of the points of the piece. -/
theorem surface_has : Region.has ⟨(surfaceOf x0 y0 buf reg).x, (surfaceOf x0 y0 buf reg).y,
    (surfaceOf x0 y0 buf reg).w, (surfaceOf x0 y0 buf reg).h⟩ (place x0 y0 buf p) =
      reg.has p := by
  rw [Bool.eq_iff_iff, Region.has_iff, Region.has_iff]
  simp only [surfaceOf, place]
  omega

end Surfaces

section Background

variable {x0 y0 : Int} {sub : FbRegion} {first last v : Int} {q : Int × Int}

/-- A value between the bounds of the loop is in one of its steps. -/
theorem count_for_step (hfirst : first ≤ v) (hlast : v ≤ last) :
    (forStep first last 32).countP (fun x => between (x, x + 32) v) = 1 := by
  have hstep : ∀ k : Nat, between (first + 32 * k, first + 32 * k + 32) v ↔
      k = ((v - first) / 32).toNat := by
    intro k
    rw [between_iff]
    dsimp only
    omega
  have hrange : ((v - first) / 32).toNat < ((last - first) / 32 + 1).toNat := by omega
  rw [forStep, List.countP_map, ← (List.count_range.trans (if_pos hrange)), List.count]
  exact List.countP_congr fun k _ => (hstep k).trans beq_iff_eq.symm

/-- The four rectangles of a step tile the square of the step, as far as it is in the surface. -/
theorem count_background_tile (x0 y0 x y : Int)
    (hq : Region.has ⟨sub.x, sub.y, sub.w, sub.h⟩ q) :
    (backgroundTile x0 y0 sub x y).countP (·.covers q) =
      if between (x, x + 32) (q.1 - sub.x + x0) && between (y, y + 32) (q.2 - sub.y + y0)
        then 1 else 0 := by
  simp only [backgroundTile, List.countP_cons, List.countP_nil, Paint.covers, Paint.buf, hq,
    Bool.true_and, Region.has_iff, Bool.and_eq_true, between_iff]
  split_ifs <;> omega

theorem covers_in_buf {paint : Paint} (h : paint.covers q) :
    Region.has ⟨paint.buf.x, paint.buf.y, paint.buf.w, paint.buf.h⟩ q := by
  cases paint with
  | window win x y buf => exact h
  | fillrect buf x y w h rgb => exact (Bool.and_eq_true_iff.mp h).1

theorem background_buf : ∀ paint ∈ drawBackground x0 y0 sub,
    paint.buf = sub ∧ ∀ q, paint.shows q = none := by
  intro paint hpaint
  obtain ⟨x, -, hpaint⟩ := List.mem_flatMap.mp hpaint
  obtain ⟨y, -, hpaint⟩ := List.mem_flatMap.mp hpaint
  simp only [backgroundTile, List.mem_cons, List.not_mem_nil, or_false] at hpaint
  rcases hpaint with rfl | rfl | rfl | rfl <;> exact ⟨rfl, fun _ => rfl⟩

/-- The background is painted once in all of its surface. -/
theorem background_tiles : Tiles Paint.covers (drawBackground x0 y0 sub)
    {q | Region.has ⟨sub.x, sub.y, sub.w, sub.h⟩ q} := by
  refine ⟨fun q hq => ?_, fun q hq => ?_⟩
  · rw [drawBackground]
    refine (count_grid fun x _ y _ => count_background_tile x0 y0 x y hq).trans ?_
    obtain ⟨hleft, hright, htop, hbottom⟩ := Region.has_iff.mp hq
    dsimp only at hleft hright htop hbottom
    rw [count_for_step (by omega) (by omega), count_for_step (by omega) (by omega)]
  · refine List.countP_eq_zero.mpr fun paint hpaint hcovers => hq ?_
    have hin := covers_in_buf hcovers
    rwa [(background_buf paint hpaint).1] at hin

end Background

section Redraw

variable {x0 y0 : Int} {buf : FbRegion} {windows : List Window} {win : Window} {S : Set (Int × Int)}
  {pieces remaining left : List Region} {paints : List Paint} {p : Int × Int}

/-- The top one of the windows, which are listed from the top on, at a point. -/
def hit (windows : List Window) (p : Int × Int) : Option Window :=
  windows.find? (·.under p.1 p.2)

theorem under_iff : win.under p.1 p.2 ↔ win.visible ∧ win.region.has p := by
  rw [Region.has_iff]
  simp only [Window.under, Window.region, Bool.and_eq_true, decide_eq_true_iff, ge_iff_le]
  exact ⟨fun ⟨⟨⟨⟨hvisible, hleft⟩, htop⟩, hright⟩, hbottom⟩ =>
      ⟨hvisible, hleft, hright, htop, hbottom⟩,
    fun ⟨hvisible, hleft, hright, htop, hbottom⟩ =>
      ⟨⟨⟨⟨hvisible, hleft⟩, htop⟩, hright⟩, hbottom⟩⟩

theorem mapM_eq_map {α β : Type} {f : α → Option β} {g : α → β} {l : List α}
    (h : ∀ a ∈ l, f a = some (g a)) : l.mapM f = some (l.map g) := by
  induction l with
  | nil => rfl
  | cons a l ih =>
      obtain ⟨ha, hl⟩ := List.forall_mem_cons.mp h
      rw [List.mapM_cons, ha, ih hl]
      rfl

/-- The call for a piece of a window. -/
def windowPaint (x0 y0 : Int) (buf : FbRegion) (win : Window) (reg : Region) : Paint :=
  .window win (reg.x - win.x) (reg.y - win.y) (surfaceOf x0 y0 buf reg)

/-- Each call is given a part of the surface and shows the windows as `find_win` finds them. -/
structure PaintFaithful (x0 y0 : Int) (buf : FbRegion) (windows : List Window)
    (paints : List Paint) : Prop where
  holds : ∀ paint ∈ paints, buf.Holds paint.buf
  shows : ∀ paint ∈ paints, ∀ p, paint.covers (place x0 y0 buf p) →
    paint.shows (place x0 y0 buf p) =
      (hit windows p).map fun win => (win, p.1 - win.x, p.2 - win.y)

/-- The calls of `paints` paint the part of the set where there is a window, and `left` is the
rest of the set. -/
structure StackPainted (x0 y0 : Int) (buf : FbRegion) (windows : List Window) (S : Set (Int × Int))
    (paints : List Paint) (left : List Region) : Prop where
  faithful : PaintFaithful x0 y0 buf windows paints
  tiles : Tiles (fun paint p => paint.covers (place x0 y0 buf p)) paints
    {p | p ∈ S ∧ (hit windows p).isSome}
  fits : ∀ reg ∈ left, Fits x0 y0 buf reg
  rest : Tiles Region.has left {p | p ∈ S ∧ hit windows p = none}

/-- The piece is in the rectangle that what it is a piece of is in. -/
theorem pieces_fit {f : Region → List Region} (hfits : ∀ reg ∈ remaining, Fits x0 y0 buf reg)
    (hpositive : ∀ reg, ∀ r ∈ f reg, r.Positive)
    (hin : ∀ reg, ∀ r ∈ f reg, ∀ p, r.has p → reg.has p) :
    ∀ r ∈ remaining.flatMap f, Fits x0 y0 buf r := by
  intro r hr
  obtain ⟨reg, hreg, hr⟩ := List.mem_flatMap.mp hr
  refine (hpositive reg r hr).fits fun p hp => ?_
  obtain ⟨hwidth, hheight, hleft, hright, htop, hbottom⟩ := hfits reg hreg
  have hhas := Region.has_iff.mp (hin reg r hr p hp)
  rw [Region.has_iff]
  simp only [screenOf]
  omega

theorem hit_cons_of_not (h : ¬ win.under p.1 p.2) : hit (win :: windows) p = hit windows p :=
  List.find?_cons_of_neg h

theorem hit_cons_of_under (h : win.under p.1 p.2) : hit (win :: windows) p = some win :=
  List.find?_cons_of_pos h

/-- The pieces of a window are painted by it, where no window above it is. -/
theorem draw_window (windows : List Window) (hvisible : win.visible)
    (hfits : ∀ reg ∈ remaining, Fits x0 y0 buf reg)
    (htiles : Tiles Region.has remaining S) :
    ∃ paints, (remaining.flatMap fun reg => regionInter reg win.region).mapM
        (drawWindow x0 y0 buf win) = some paints ∧
      PaintFaithful x0 y0 buf (win :: windows) paints ∧
      Tiles (fun paint p => paint.covers (place x0 y0 buf p)) paints
        (S ∩ {p | win.region.has p}) := by
  have hpieces : ∀ reg, ∀ r ∈ regionInter reg win.region, ∀ p, r.has p →
      reg.has p ∧ win.region.has p := fun reg r hr p => (region_inter reg win.region).2.mem hr
  have hall := pieces_fit hfits (fun reg => (region_inter reg win.region).1)
    fun reg r hr p hp => (hpieces reg r hr p hp).1
  have hrun : ∀ r ∈ remaining.flatMap fun reg => regionInter reg win.region,
      drawWindow x0 y0 buf win r = some (windowPaint x0 y0 buf win r) := fun r hr => by
    rw [drawWindow, (hall r hr).part, Option.map_some, windowPaint]
  refine ⟨_, mapM_eq_map hrun, ⟨fun paint hpaint => ?_, fun paint hpaint p hp => ?_⟩, ?_⟩
  · obtain ⟨r, hr, rfl⟩ := List.mem_map.mp hpaint
    exact (hall r hr).holds
  · obtain ⟨r, hr, rfl⟩ := List.mem_map.mp hpaint
    obtain ⟨reg, hreg, hr⟩ := List.mem_flatMap.mp hr
    have hhas : r.has p := surface_has.symm.trans hp
    rw [hit_cons_of_under (under_iff.mpr ⟨hvisible, (hpieces reg r hr p hhas).2⟩)]
    simp only [windowPaint, Paint.shows, surfaceOf, place, Option.map_some]
    congr 3 <;> omega
  · exact (htiles.flatMap fun reg _ => (region_inter reg win.region).2).map
      fun r _ p => surface_has

theorem PaintFaithful.append {more : List Paint} (h : PaintFaithful x0 y0 buf windows paints)
    (hmore : PaintFaithful x0 y0 buf windows more) :
    PaintFaithful x0 y0 buf windows (paints ++ more) :=
  ⟨List.forall_mem_append.mpr ⟨h.holds, hmore.holds⟩,
    List.forall_mem_append.mpr ⟨h.shows, hmore.shows⟩⟩

/-- What is painted below a window, where the window is not. -/
theorem StackPainted.below (h : StackPainted x0 y0 buf windows S paints left)
    (hnot : ∀ p ∈ S, ¬ win.under p.1 p.2) :
    StackPainted x0 y0 buf (win :: windows) S paints left := by
  have hsame : ∀ p ∈ S, hit (win :: windows) p = hit windows p := fun p hp =>
    hit_cons_of_not (hnot p hp)
  refine ⟨⟨h.faithful.holds, fun paint hpaint p hp => ?_⟩, h.tiles.congr fun p => ?_, h.fits,
    h.rest.congr fun p => ?_⟩
  · rw [h.faithful.shows paint hpaint p hp, hsame p (h.tiles.mem hpaint hp).1]
  · exact and_congr_right fun hp => by rw [hsame p hp]
  · exact and_congr_right fun hp => by rw [hsame p hp]

/-- What the window and those below it paint. -/
theorem StackPainted.under {draws : List Paint} (hvisible : win.visible)
    (hfaithful : PaintFaithful x0 y0 buf (win :: windows) draws)
    (hdrawn : Tiles (fun paint p => paint.covers (place x0 y0 buf p)) draws
      (S ∩ {p | win.region.has p}))
    (h : StackPainted x0 y0 buf windows (S ∩ {p | ¬ win.region.has p}) paints left) :
    StackPainted x0 y0 buf (win :: windows) S (draws ++ paints) left := by
  have hbelow := h.below fun p hp hunder => hp.2 (under_iff.mp hunder).2
  have htop : ∀ p, win.region.has p → hit (win :: windows) p = some win := fun p hhas =>
    hit_cons_of_under (under_iff.mpr ⟨hvisible, hhas⟩)
  refine ⟨hfaithful.append hbelow.faithful, ?_, h.fits, hbelow.rest.congr fun p => ?_⟩
  · refine (hdrawn.append hbelow.tiles fun p hp hin => hin.1.2 hp.2).congr fun p => ?_
    constructor
    · rintro (⟨hp, hhas⟩ | ⟨⟨hp, -⟩, hsome⟩)
      · exact ⟨hp, by rw [htop p hhas]; rfl⟩
      · exact ⟨hp, hsome⟩
    · rintro ⟨hp, hsome⟩
      by_cases hhas : win.region.has p
      · exact .inl ⟨hp, hhas⟩
      · exact .inr ⟨⟨hp, hhas⟩, hsome⟩
  · refine ⟨fun hp => ⟨hp.1.1, hp.2⟩, fun hp => ⟨⟨hp.1, fun hhas => ?_⟩, hp.2⟩⟩
    exact Option.some_ne_none win ((htop p hhas).symm.trans hp.2)

/-- The loop over the windows, by induction on the windows from the top on. -/
theorem redraw_windows (windows : List Window) (hfits : ∀ reg ∈ remaining, Fits x0 y0 buf reg)
    (htiles : Tiles Region.has remaining S) :
    ∃ paints left, redrawWindows x0 y0 buf windows remaining = some (paints, left) ∧
      StackPainted x0 y0 buf windows S paints left := by
  induction windows generalizing remaining S with
  | nil =>
      refine ⟨[], remaining, rfl,
        ⟨⟨List.forall_mem_nil _, List.forall_mem_nil _⟩, ?_, hfits, ?_⟩⟩
      · exact Tiles.nil.congr fun p => ⟨nofun, fun h => absurd h.2 Bool.false_ne_true⟩
      · exact htiles.congr fun p => ⟨fun hp => ⟨hp, rfl⟩, And.left⟩
  | cons win below ih =>
      rw [redrawWindows]
      by_cases hvisible : win.visible
      · rw [if_pos hvisible]
        obtain ⟨draws, hdraws, hfaithful, hdrawn⟩ :=
          draw_window below hvisible hfits htiles
        have hrest := pieces_fit hfits (fun reg => (region_diff reg win.region).1)
          fun reg r hr p hp => ((region_diff reg win.region).2.mem hr hp).1
        obtain ⟨paints, left, hrun, hpainted⟩ :=
          ih hrest (htiles.flatMap fun reg _ => (region_diff reg win.region).2)
        refine ⟨draws ++ paints, left, ?_, hpainted.under hvisible hfaithful hdrawn⟩
        simp only [hdraws, hrun, Option.bind_eq_bind, Option.bind_some]
      · rw [if_neg hvisible]
        obtain ⟨paints, left, hrun, hpainted⟩ := ih hfits htiles
        exact ⟨paints, left, hrun, hpainted.below fun p _ h => hvisible (under_iff.mp h).1⟩

/-- The background is painted in all that remains after the windows. -/
theorem draw_remaining (hfits : ∀ reg ∈ remaining, Fits x0 y0 buf reg)
    (htiles : Tiles Region.has remaining S) :
    ∃ background, (remaining.mapM fun reg =>
        (partOf x0 y0 buf reg).map (drawBackground reg.x reg.y)) = some background ∧
      (∀ paint ∈ background.flatten, buf.Holds paint.buf ∧ ∀ q, paint.shows q = none) ∧
      Tiles (fun paint p => paint.covers (place x0 y0 buf p)) background.flatten S := by
  have hrun : ∀ reg ∈ remaining, (partOf x0 y0 buf reg).map (drawBackground reg.x reg.y) =
      some (drawBackground reg.x reg.y (surfaceOf x0 y0 buf reg)) := fun reg hreg => by
    rw [(hfits reg hreg).part, Option.map_some]
  refine ⟨_, mapM_eq_map hrun, fun paint hpaint => ?_, ?_⟩ <;> rw [← List.flatMap_def] at *
  · obtain ⟨reg, hreg, hpaint⟩ := List.mem_flatMap.mp hpaint
    obtain ⟨hbuf, hshows⟩ := background_buf paint hpaint
    exact ⟨hbuf ▸ (hfits reg hreg).holds, hshows⟩
  · have hpiece : ∀ reg ∈ remaining, Tiles (fun paint p => paint.covers (place x0 y0 buf p))
        (drawBackground reg.x reg.y (surfaceOf x0 y0 buf reg))
        {p | reg.has p ∧ p ∈ Set.univ} := fun reg _ =>
      (background_tiles.preimage (place x0 y0 buf)).congr fun p => by
        rw [Set.mem_preimage, Set.mem_ofPred_eq, surface_has]
        exact (and_iff_left trivial).symm
    exact (htiles.flatMap hpiece).congr fun p => and_iff_left trivial

end Redraw

end Kogata.User
