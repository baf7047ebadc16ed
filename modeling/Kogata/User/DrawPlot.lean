import Kogata.User.DrawBounds

/-!
# Lines and rectangles as points

`g_hline`, `g_vline` and `g_fillrect` have loops of their own for each depth, in the place of a
call of `g_plot` for each point. `figure_plotted_iff` says when the memory is the same: `g_vline`
compares the end of a line with the width, and `g_hline` makes a colour of 32 bits opaque.
-/

namespace Kogata.User

open Lib.Stores

/-- What is drawn without `g_plot`. -/
inductive Figure
  | hline (x y w : Int)
  | vline (x y h : Int)
  | fillrect (x y w h : Int)

namespace Figure

/-- The function for the figure. -/
def run (fb : FbInfo) (c : Color) : Figure → Board → Board
  | hline x y w => gHline fb x y w c
  | vline x y h => gVline fb x y h c
  | fillrect x y w h => gFillrect fb x y w h c

/-- `g_plot` on every point of the figure. -/
def plot (fb : FbInfo) (c : Color) : Figure → Board → Board
  | hline x y w => forRange x (x + w) fun u => gPlot fb u y c
  | vline x y h => forRange y (y + h) fun v => gPlot fb x v c
  | fillrect x y w h => forRange y (y + h) fun v => forRange x (x + w) fun u => gPlot fb u v c

/-- A colour of 32 bits is opaque if any of a horizontal line is drawn. A vertical line that ends
beyond the width ends at the bottom or below it, and one that does not ends there or above it;
but when all lines are one, the line that is drawn below the bottom is not seen. -/
def Plotted (fb : FbInfo) (c : Color) : Figure → Prop
  | hline x y w => fb.bpp = 32 → 0 ≤ y → y < fb.height → max x 0 < min (x + w) fb.width →
      c ||| 0xFF000000 = c
  | vline x y h => 0 ≤ x → x < fb.width → max y 0 < fb.height →
      ((fb.width < y + h → fb.height ≤ y + h) ∧ (y + h ≤ fb.width → y + h ≤ fb.height)) ∨
        fb.pitch = 0 ∧ 0 < y + h ∧ 0 < h
  | fillrect .. => True

end Figure

section Plotting

variable {fb : FbInfo} {x y w h : Int} {c : Color}

theorem plot_outside (hout : x < 0 ∨ y < 0 ∨ x ≥ fb.width ∨ y ≥ fb.height) (s : Board) :
    gPlot fb x y c s = s := if_pos hout

theorem plot_inside (hx : 0 ≤ x) (hx' : x < fb.width) (hy : 0 ≤ y) (hy' : y < fb.height) :
    gPlot fb x y c = putPixel fb x y c := by
  funext s
  exact if_neg (by omega)

/-- The points of a row that are in the framebuffer. -/
theorem plot_row_eq (hy : 0 ≤ y) (hy' : y < fb.height) (s : Board) :
    forRange x (x + w) (fun u => gPlot fb u y c) s =
      forRange (max x 0) (min (x + w) fb.width) (fun u => putPixel fb u y c) s :=
  for_range_clip (fun _ hu => plot_outside (by omega))
    (fun _ hlo hhi => plot_inside hlo hhi hy hy') s

/-- The points of a column that are in the framebuffer. -/
theorem plot_column_eq (hx : 0 ≤ x) (hx' : x < fb.width) (s : Board) :
    forRange y (y + h) (fun v => gPlot fb x v c) s =
      forRange (max y 0) (min (y + h) fb.height) (fun v => putPixel fb x v c) s :=
  for_range_clip (fun _ hv => plot_outside (by omega))
    (fun _ hlo hhi => plot_inside hx hx' hlo hhi) s

theorem fillrect_plotted (s : Board) :
    gFillrect fb x y w h c s = (Figure.fillrect x y w h).plot fb c s := by
  rw [g_fillrect_eq]
  refine (for_range_clip (fun v hv => for_range_id fun u _ _ => plot_outside (by omega))
    (fun v hlo hhi => ?_) s).symm
  exact funext (plot_row_eq hlo hhi)

theorem opaque_of_alpha (h : ((c ||| 0xFF000000) >>> 24).toUInt8 = (c >>> 24).toUInt8) :
    c ||| 0xFF000000 = c := by
  have hbits : ∀ i < 8, ((c.toBitVec ||| 0xFF000000#32) >>> 24).getLsbD i =
      (c.toBitVec >>> 24).getLsbD i := by
    intro i hi
    have hbit := congrArg (fun b : UInt8 => b.toBitVec.getLsbD i) h
    simpa [hi] using hbit
  refine UInt32.toBitVec_inj.mp (BitVec.eq_of_getLsbD_eq fun i hi => ?_)
  change (c.toBitVec ||| 0xFF000000#32).getLsbD i = _
  rcases Nat.lt_or_ge i 24 with hlow | hhigh
  · have hzero : ∀ i < 24, (0xFF000000#32).getLsbD i = false := by decide
    rw [BitVec.getLsbD_or, hzero i hlow, Bool.or_false]
  · have hbit := hbits (i - 24) (by omega)
    rwa [BitVec.getLsbD_ushiftRight, BitVec.getLsbD_ushiftRight, Nat.add_sub_cancel' hhigh] at hbit

/-- The last byte of a pixel of 32 bits. -/
theorem alpha_data (hbpp : fb.bpp = 32) (s : Board) :
    (putPixel fb x y c s).data (y * fb.pitch + x * 4 + 3) = (c >>> 24).toUInt8 := by
  have hsize : fb.pixelSize = 4 := by
    rw [FbInfo.pixelSize, hbpp]
    rfl
  have hbytes : colorBytes fb c =
      [c.toUInt8, (c >>> 8).toUInt8, (c >>> 16).toUInt8, (c >>> 24).toUInt8] := by
    rw [colorBytes, hsize]
    rfl
  rw [put_pixel_eq (.inr (.inr (.inr (.inr hbpp)))), hsize, hbytes]
  exact store_bytes_data (k := 3) (by simp) s

theorem hline_plotted_iff : (∀ data, ((Figure.hline x y w).run fb c ⟨data, []⟩).data =
    ((Figure.hline x y w).plot fb c ⟨data, []⟩).data) ↔ (Figure.hline x y w).Plotted fb c := by
  unfold Figure.run Figure.plot Figure.Plotted
  simp only [g_hline_eq]
  by_cases hy : 0 ≤ y ∧ y < fb.height
  · simp only [hy, and_self, if_true, true_imp_iff, plot_row_eq hy.1 hy.2]
    constructor
    · intro hsame hbpp hsome
      have hlast := congrFun (hsame fun _ => 0)
        (y * fb.pitch + (min (x + w) fb.width - 1) * 4 + 3)
      rw [for_range_last hsome, for_range_last hsome, alpha_data hbpp, alpha_data hbpp,
        if_pos hbpp] at hlast
      exact opaque_of_alpha hlast
    · intro hopaque data
      rcases Int.lt_or_le (max x 0) (min (x + w) fb.width) with hsome | hnone
      · have hcolor : (if fb.bpp = 32 then c ||| 0xFF000000 else c) = c := by
          split
          · next hbpp => exact hopaque hbpp hsome
          · rfl
        rw [hcolor]
      · rw [for_range_empty hnone, for_range_empty hnone]
  · refine iff_of_true (fun data => ?_) fun _ hlo hhi => absurd ⟨hlo, hhi⟩ hy
    rw [if_neg hy, for_range_id fun u _ _ => plot_outside (by omega)]

/-- Where the pixels of some rows of a column are stored: the last byte of the last row, or the
first if the lines go upwards, is in no other row. -/
theorem last_row_alone (hdepth : fb.HasDepth) {m v : Int} (hpitch : fb.pitch ≠ 0 ∨ m ≤ max y 0)
    (hm : m ≤ v) : ∃ k : Nat, k < fb.pixelSize ∧
      ∀ v', max y 0 ≤ v' → v' < m → ¬fb.OfPixel x v' (v * fb.pitch + x * fb.pixelSize + k) := by
  have hpos : 0 < fb.pixelSize := by
    rcases hdepth.depths with ⟨-, h⟩ | ⟨-, h⟩ | ⟨-, h⟩ | ⟨-, h⟩ | ⟨-, h⟩ <;> omega
  rcases Int.lt_trichotomy fb.pitch 0 with hup | hzero | hdown
  · refine ⟨0, hpos, ?_⟩
    rintro v' - hv' ⟨j, hj, hj', haddress⟩
    have hbelow : v * fb.pitch < v' * fb.pitch := Int.mul_lt_mul_of_neg_right (by omega) hup
    omega
  · refine ⟨0, hpos, fun v' hlo hhi => ?_⟩
    omega
  · refine ⟨(fb.pixelSize - 1).toNat, by omega, ?_⟩
    rintro v' - hv' ⟨j, hj, hj', haddress⟩
    have hbelow : v' * fb.pitch < v * fb.pitch := Int.mul_lt_mul_of_pos_right (by omega) hdown
    omega

/-- A line that is drawn further than its points is seen, for some memory. -/
theorem further_seen (hdepth : fb.HasDepth) {m e : Int} (hpitch : fb.pitch ≠ 0 ∨ m ≤ max y 0)
    (hstart : max y 0 < e) (hm : m < e) :
    ∃ data, (forRange (max y 0) e (fun v => putPixel fb x v c) ⟨data, []⟩).data ≠
      (forRange (max y 0) m (fun v => putPixel fb x v c) ⟨data, []⟩).data := by
  obtain ⟨k, hk, halone⟩ := last_row_alone (x := x) hdepth hpitch (show m ≤ e - 1 by omega)
  have hlength := color_bytes_length (c := c) hdepth
  have hk' : k < (colorBytes fb c).length := by omega
  refine ⟨fun _ => (colorBytes fb c)[k] + 1, fun hsame => ?_⟩
  have hbyte := congrFun hsame ((e - 1) * fb.pitch + x * fb.pixelSize + k)
  have hrows : Writes (fun a => a ≠ (e - 1) * fb.pitch + x * fb.pixelSize + k)
      (forRange (max y 0) m fun v => putPixel fb x v c) := by
    refine Writes.forRange fun v hlo hhi => ?_
    rw [put_pixel_eq hdepth]
    refine writes_store_bytes fun a ha ha' heq => halone v hlo hhi ?_
    rw [hlength] at ha'
    exact ⟨a - (v * fb.pitch + x * fb.pixelSize), by omega, by omega, by omega⟩
  rw [for_range_last hstart, put_pixel_eq hdepth, store_bytes_data hk',
    hrows.data_of_not_mem fun hmem => hrows.mem hmem rfl] at hbyte
  have hvalue := congrArg UInt8.toNat hbyte
  rw [UInt8.toNat_add] at hvalue
  have hlt := (colorBytes fb c)[k].toNat_lt
  change _ = (_ + 1) % 2 ^ 8 at hvalue
  omega

/-- When all lines are one, the rows of a column are stored on top of each other. -/
theorem rows_of_no_pitch (hdepth : fb.HasDepth) (hpitch : fb.pitch = 0) {lo hi : Int}
    (h : lo < hi) (s : Board) : (forRange lo hi (fun v => putPixel fb x v c) s).data =
      (putPixel fb x 0 c s).data := by
  have hrow : ∀ v, putPixel fb x v c = putPixel fb x 0 c := by
    intro v
    rw [put_pixel_eq hdepth, put_pixel_eq hdepth, hpitch, Int.mul_zero, Int.mul_zero]
  simp only [hrow]
  refine for_range_again (fun s => ?_) h s
  rw [put_pixel_eq hdepth]
  exact store_bytes_again _ _ _

/-- A vertical line ends where its points do, or further down. -/
theorem vline_end_eq_iff (_ : max y 0 < fb.height) :
    vlineEnd fb (y + h) = min (y + h) fb.height ↔
      (fb.width < y + h → fb.height ≤ y + h) ∧ (y + h ≤ fb.width → y + h ≤ fb.height) := by
  unfold vlineEnd
  split <;> omega

theorem vline_end_ge (_ : max y 0 < fb.height) :
    min (y + h) fb.height ≤ vlineEnd fb (y + h) := by
  unfold vlineEnd
  split <;> omega

theorem vline_plotted_iff (hdepth : fb.HasDepth) :
    (∀ data, ((Figure.vline x y h).run fb c ⟨data, []⟩).data =
      ((Figure.vline x y h).plot fb c ⟨data, []⟩).data) ↔ (Figure.vline x y h).Plotted fb c := by
  unfold Figure.run Figure.plot Figure.Plotted
  simp only [g_vline_eq]
  by_cases hx : 0 ≤ x ∧ x < fb.width
  · simp only [plot_column_eq hx.1 hx.2]
    by_cases hy : max y 0 < fb.height
    · simp only [hx, hy, and_self, if_true, true_imp_iff, ← vline_end_eq_iff hy]
      have hend := vline_end_ge (h := h) hy
      rcases Int.lt_or_eq_of_le hend with hfurther | hsame
      · have hdrawn : max y 0 < vlineEnd fb (y + h) := by
          unfold vlineEnd at hfurther ⊢
          split at hfurther <;> omega
        constructor
        · intro hall
          by_contra hno
          rw [not_or] at hno
          obtain ⟨data, hne⟩ := further_seen (x := x) (c := c) (m := min (y + h) fb.height) hdepth
            (by omega) hdrawn hfurther
          exact hne (hall data)
        · rintro (heq | ⟨hpitch, hpos, hlong⟩) data
          · rw [heq]
          · rw [rows_of_no_pitch hdepth hpitch hdrawn,
              rows_of_no_pitch hdepth hpitch (by omega)]
      · exact iff_of_true (fun data => by rw [hsame]) (.inl hsame.symm)
    · refine iff_of_true (fun data => ?_) fun _ _ h => absurd h hy
      rw [if_neg (fun h => hy h.2.2), for_range_empty (by omega)]
  · refine iff_of_true (fun data => ?_) fun hlo hhi => absurd ⟨hlo, hhi⟩ hx
    rw [if_neg (fun h => hx ⟨h.1, h.2.1⟩), for_range_id fun v _ _ => plot_outside (by omega)]

/-- A figure is as if it had been plotted exactly when its colour and its end are right. -/
theorem figure_plotted_iff (hdepth : fb.HasDepth) (f : Figure) :
    (∀ data, (f.run fb c ⟨data, []⟩).data = (f.plot fb c ⟨data, []⟩).data) ↔ f.Plotted fb c := by
  cases f with
  | hline x y w => exact hline_plotted_iff
  | vline x y h => exact vline_plotted_iff hdepth
  | fillrect x y w h =>
      exact iff_of_true (fun data => congrArg Board.data (fillrect_plotted _)) trivial

/-- A horizontal line of an opaque colour over the left edge of a framebuffer. -/
theorem figure_plotted_opaque :
    (∀ data, ((Figure.hline (-1) 0 3).run ⟨4, 2, 16, 32, fbMmRgb32⟩ 0xFF000001 ⟨data, []⟩).data =
      ((Figure.hline (-1) 0 3).plot ⟨4, 2, 16, 32, fbMmRgb32⟩ 0xFF000001 ⟨data, []⟩).data) ↔
      (Figure.hline (-1) 0 3).Plotted ⟨4, 2, 16, 32, fbMmRgb32⟩ 0xFF000001 :=
  figure_plotted_iff (.inr (.inr (.inr (.inr rfl)))) _

/-- A line of two points, in a framebuffer of one column and three rows, is drawn to the bottom. -/
theorem vline_not_plotted :
    ¬ ∀ (fb : FbInfo) (c : Color) (f : Figure) (data : Int → UInt8), fb.HasDepth →
      (f.run fb c ⟨data, []⟩).data = (f.plot fb c ⟨data, []⟩).data := by
  intro h
  have hsame := congrFun (h ⟨1, 3, 1, 8, fbMmGrey8⟩ 7 (.vline 0 0 2) (fun _ => 0) (.inl rfl)) 2
  exact absurd hsame (by decide)

end Plotting

end Kogata.User
