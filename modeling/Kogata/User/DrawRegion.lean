import Kogata.User.DrawBounds

/-!
# Drawing in a region

A region of a framebuffer is a framebuffer of its own, with the same lines, that begins at the
first pixel of the region. What a `g_region_` function should do is what the `g_` function does on
that framebuffer. `region_draw_iff` says when it does so and stays in the region.
-/

namespace Kogata.User

open Lib.Stores

namespace FbInfo

/-- The region alone. -/
def view (fb : FbInfo) (reg : FbRegion) : FbInfo := { fb with width := reg.w, height := reg.h }

/-- Where the first pixel of the region is. -/
def viewOffset (fb : FbInfo) (reg : FbRegion) : Int := reg.y * fb.pitch + reg.x * fb.pixelSize

/-- The region is inside the framebuffer. -/
structure Inside (fb : FbInfo) (reg : FbRegion) : Prop where
  left : 0 ≤ reg.x
  top : 0 ≤ reg.y
  width : 0 ≤ reg.w
  height : 0 ≤ reg.h
  right : reg.x + reg.w ≤ fb.width
  bottom : reg.y + reg.h ≤ fb.height

/-- The address is that of a byte of a pixel of the region. -/
def RegionByte (fb : FbInfo) (reg : FbRegion) (a : Int) : Prop :=
  ∃ x y, reg.x ≤ x ∧ x < reg.x + reg.w ∧ reg.y ≤ y ∧ y < reg.y + reg.h ∧ fb.OfPixel x y a

end FbInfo

namespace Drawing

/-- The call of the function for a region. -/
def regionRun (fb : FbInfo) (reg : FbRegion) : Drawing → Board → Board
  | plot x y c => gRegionPlot fb reg x y c
  | hline x y w c => gRegionHline fb reg x y w c
  | vline x y h c => gRegionVline fb reg x y h c
  | rect x y w h c => gRegionRect fb reg x y w h c
  | fillrect x y w h c => gRegionFillrect fb reg x y w h c
  | blit x y src => gRegionBlit fb reg x y src
  | blitRegion x y src r => gRegionBlitRegion fb reg x y src r
  | write x y text font size c => gRegionWrite fb reg x y text font size c

end Drawing

section View

variable {fb : FbInfo} {reg : FbRegion} {x y w h a : Int} {c : Color}

theorem FbInfo.Valid.view (hfb : fb.Valid) (hreg : fb.Inside reg) : (fb.view reg).Valid := by
  refine ⟨hfb.supported, ?_⟩
  have hwidth : reg.w ≤ fb.width := by
    have hleft := hreg.left
    have hright := hreg.right
    omega
  exact Int.le_trans (Int.mul_le_mul_of_nonneg_right hwidth (Int.le_of_lt hfb.supported.size_pos))
    hfb.pitch

theorem of_pixel_view : fb.OfPixel (x + reg.x) (y + reg.y) a ↔
    (fb.view reg).OfPixel x y (a - fb.viewOffset reg) := by
  have haddress : ∀ k, a = (y + reg.y) * fb.pitch + (x + reg.x) * fb.pixelSize + k ↔
      a - fb.viewOffset reg = y * fb.pitch + x * fb.pixelSize + k := by
    intro k
    rw [FbInfo.viewOffset, Int.add_mul, Int.add_mul]
    omega
  exact exists_congr fun k => and_congr_right fun _ => and_congr_right fun _ => haddress k

theorem region_byte_iff : fb.RegionByte reg a ↔
    (fb.view reg).PixelByte (a - fb.viewOffset reg) := by
  constructor
  · rintro ⟨x, y, hx, hx', hy, hy', hof⟩
    have hxy : fb.OfPixel (x - reg.x + reg.x) (y - reg.y + reg.y) a := by
      rwa [Int.sub_add_cancel, Int.sub_add_cancel]
    refine ⟨x - reg.x, y - reg.y, by omega, ?_, by omega, ?_, of_pixel_view.mp hxy⟩
    · change x - reg.x < reg.w
      omega
    · change y - reg.y < reg.h
      omega
  · rintro ⟨x, y, hx, hx', hy, hy', hof⟩
    change x < reg.w at hx'
    change y < reg.h at hy'
    exact ⟨x + reg.x, y + reg.y, by omega, by omega, by omega, by omega, of_pixel_view.mpr hof⟩

theorem moves_put_pixel (hfb : fb.Supported) : Moves (fb.viewOffset reg)
    (putPixel fb (x + reg.x) (y + reg.y) c) (putPixel (fb.view reg) x y c) := by
  have haddress : (y + reg.y) * fb.pitch + (x + reg.x) * fb.pixelSize =
      y * fb.pitch + x * fb.pixelSize + fb.viewOffset reg := by
    rw [FbInfo.viewOffset, Int.add_mul, Int.add_mul]
    omega
  have hview : (fb.view reg).Supported := hfb
  rw [put_pixel_eq hfb.hasDepth, put_pixel_eq hview.hasDepth, haddress]
  exact moves_store_bytes

theorem moves_plot (hfb : fb.Supported) (hreg : fb.Inside reg) : Moves (fb.viewOffset reg)
    (gRegionPlot fb reg x y c) (gPlot (fb.view reg) x y c) := by
  obtain ⟨hleft, htop, -, -, hright, hbottom⟩ := hreg
  refine Moves.ite (fun _ => moves_id) fun hclip => ?_
  unfold gPlot
  have hinside : ¬(x + reg.x < 0 ∨ y + reg.y < 0 ∨ x + reg.x ≥ fb.width ∨
    y + reg.y ≥ fb.height) := by omega
  simp only [if_neg hinside]
  exact moves_put_pixel hfb

theorem g_region_hline_eq (fb : FbInfo) (reg : FbRegion) (x y w : Int) (c : Color) (s : Board) :
    gRegionHline fb reg x y w c s =
      if (0 ≤ y ∧ y < reg.h) ∧ max x 0 < min (x + w) reg.w then
        gHline fb (reg.x + max x 0) (reg.y + y) (min (x + w) reg.w - max x 0) c s
      else s :=
  clip_line x w reg.w y reg.h (fun x w => gHline fb (reg.x + x) (reg.y + y) w c) s

theorem g_region_vline_eq (fb : FbInfo) (reg : FbRegion) (x y h : Int) (c : Color) (s : Board) :
    gRegionVline fb reg x y h c s =
      if (0 ≤ x ∧ x < reg.w) ∧ max y 0 < min (y + h) reg.h then
        gVline fb (reg.x + x) (reg.y + max y 0) (min (y + h) reg.h - max y 0) c s
      else s :=
  clip_line y h reg.h x reg.w (fun y h => gVline fb (reg.x + x) (reg.y + y) h c) s

/-- A horizontal line that is clipped to the region is in the framebuffer. -/
theorem region_hline_inside (hreg : fb.Inside reg) (s : Board) : gRegionHline fb reg x y w c s =
    if 0 ≤ y ∧ y < reg.h then
      forRange (reg.x + max x 0) (reg.x + min (x + w) reg.w)
        (fun u => putPixel fb u (reg.y + y) (if fb.bpp = 32 then c ||| 0xFF000000 else c)) s
    else s := by
  obtain ⟨hleft, htop, -, -, hright, hbottom⟩ := hreg
  rw [g_region_hline_eq]
  by_cases hy : 0 ≤ y ∧ y < reg.h
  · rw [if_pos hy]
    by_cases hsome : max x 0 < min (x + w) reg.w
    · rw [if_pos ⟨hy, hsome⟩, g_hline_eq, if_pos (by omega)]
      congr 1 <;> omega
    · rw [if_neg (fun h => hsome h.2), for_range_empty (by omega)]
  · rw [if_neg hy, if_neg (fun h => hy h.1)]

/-- A vertical line that is clipped to the region may be drawn down to the bottom. -/
theorem region_vline_inside (hreg : fb.Inside reg) (s : Board) : gRegionVline fb reg x y h c s =
    if (0 ≤ x ∧ x < reg.w) ∧ max y 0 < min (y + h) reg.h then
      forRange (reg.y + max y 0) (vlineEnd fb (reg.y + min (y + h) reg.h))
        (fun v => putPixel fb (reg.x + x) v c) s
    else s := by
  obtain ⟨hleft, htop, -, -, hright, hbottom⟩ := hreg
  rw [g_region_vline_eq]
  split
  · have hfirst : max (reg.y + max y 0) 0 = reg.y + max y 0 := by omega
    have hlast : reg.y + max y 0 + (min (y + h) reg.h - max y 0) = reg.y + min (y + h) reg.h := by
      omega
    rw [g_vline_eq, hfirst, hlast, if_pos (by omega)]
  · rfl

theorem moves_hline (hfb : fb.Supported) (hreg : fb.Inside reg) : Moves (fb.viewOffset reg)
    (gRegionHline fb reg x y w c) (gHline (fb.view reg) x y w c) := by
  rw [funext (region_hline_inside hreg), funext (g_hline_eq (fb.view reg) x y w c)]
  refine Moves.ite (fun _ => Moves.forRange fun u _ _ => ?_) fun _ => moves_id
  rw [Int.add_comm reg.x, Int.add_comm reg.y]
  exact moves_put_pixel hfb

/-- A vertical line ends in the region, and where it ends on the region alone. -/
structure VlineFits (fb : FbInfo) (reg : FbRegion) (y h : Int) : Prop where
  empty : y + h ≤ max y 0 → y + h ≤ reg.w
  alone : max y 0 < y + h → y + h ≤ reg.w → y + h ≤ reg.h
  cut : max y 0 < y + h → reg.w < y + h → reg.y + min (y + h) reg.h ≤ fb.width → reg.h ≤ y + h
  bottom : max y 0 < y + h → fb.width < reg.y + min (y + h) reg.h →
    reg.y + reg.h = fb.height ∧ (y + h ≤ reg.w → y + h = reg.h)

/-- A vertical line that begins in the region fits. -/
def VlineConfined (fb : FbInfo) (reg : FbRegion) (x y h : Int) : Prop :=
  0 ≤ x → x < reg.w → max y 0 < reg.h → VlineFits fb reg y h

/-- How many rows a vertical line for a region is stored in. -/
def vlineRows (fb : FbInfo) (reg : FbRegion) (y h : Int) : Int :=
  if max y 0 < min (y + h) reg.h then
    vlineEnd fb (reg.y + min (y + h) reg.h) - (reg.y + max y 0)
  else 0

theorem vline_fits_iff (hreg : fb.Inside reg) (hy : max y 0 < reg.h) : VlineFits fb reg y h ↔
    (vlineRows fb reg y h).toNat = (vlineEnd (fb.view reg) (y + h) - max y 0).toNat ∧
      vlineRows fb reg y h ≤ reg.h - max y 0 := by
  obtain ⟨hleft, htop, -, -, hright, hbottom⟩ := hreg
  have hview : vlineEnd (fb.view reg) (y + h) = if y + h > reg.w then reg.h else y + h := rfl
  rw [hview]
  unfold vlineRows vlineEnd
  constructor
  · rintro ⟨hempty, halone, hcut, hlow⟩
    split <;> split <;> omega
  · intro hrows
    constructor <;> intros <;> split_ifs at hrows <;> omega

theorem moves_vline (hfb : fb.Supported) (hreg : fb.Inside reg)
    (hconfined : VlineConfined fb reg x y h) : Moves (fb.viewOffset reg)
      (gRegionVline fb reg x y h c) (gVline (fb.view reg) x y h c) := by
  rw [funext (region_vline_inside hreg), funext (g_vline_eq (fb.view reg) x y h c)]
  change Moves _ _ fun s => if 0 ≤ x ∧ x < reg.w ∧ max y 0 < reg.h then _ else s
  by_cases hdrawn : 0 ≤ x ∧ x < reg.w ∧ max y 0 < reg.h
  · obtain ⟨hx, hx', hy⟩ := hdrawn
    have hrows := (vline_fits_iff hreg hy).mp (hconfined hx hx' hy)
    unfold vlineRows at hrows
    simp only [hx, hx', hy, and_self, true_and, if_true]
    by_cases hsome : max y 0 < min (y + h) reg.h
    · have hend : vlineEnd fb (reg.y + min (y + h) reg.h) =
          reg.y + vlineEnd (fb.view reg) (y + h) := by
        rw [if_pos hsome] at hrows
        have hbelow : reg.y + min (y + h) reg.h ≤ vlineEnd fb (reg.y + min (y + h) reg.h) := by
          have hbottom := hreg.bottom
          unfold vlineEnd
          split <;> omega
        omega
      simp only [hsome, if_true, hend]
      refine Moves.forRange fun v _ _ => ?_
      rw [Int.add_comm reg.x, Int.add_comm reg.y]
      exact moves_put_pixel hfb
    · rw [if_neg hsome] at hrows
      simp only [hsome, if_false]
      intro s
      exact (for_range_empty (by omega) _).symm
  · have hnone : ¬((0 ≤ x ∧ x < reg.w) ∧ max y 0 < min (y + h) reg.h) := by omega
    simp only [hdrawn, hnone, if_false]
    exact moves_id

theorem VlineConfined.stays (hconfined : VlineConfined fb reg x y h) :
    VlineStays (fb.view reg) x y h := by
  intro hx hx' hy hbelow
  change reg.h < y + h at hbelow
  change reg.w < y + h
  change max y 0 < reg.h at hy
  by_contra huncut
  have hend := (hconfined hx hx' hy).alone (by omega) (by omega)
  omega

theorem g_region_fillrect_eq (fb : FbInfo) (reg : FbRegion) (x y w h : Int) (c : Color)
    (s : Board) : gRegionFillrect fb reg x y w h c s =
      if max x 0 < min (x + w) reg.w ∧ max y 0 < min (y + h) reg.h then
        gFillrect fb (max x 0 + reg.x) (max y 0 + reg.y) (min (x + w) reg.w - max x 0)
          (min (y + h) reg.h - max y 0) c s
      else s := by
  have hend : ∀ x w : Int, max x 0 + (x + w - max x 0) = x + w := fun x w => by omega
  have hcut : ∀ x w b : Int, (if x + w > b then b - max x 0 else x + w - max x 0) =
      min (x + w) b - max x 0 := fun x w b => by split <;> omega
  unfold gRegionFillrect
  rw [clip_low_eq, clip_low_eq]
  dsimp only
  rw [hend, hend, hcut, hcut]
  split
  · rw [if_neg (by omega)]
  · rw [if_pos (by omega)]

theorem moves_fillrect (hfb : fb.Supported) (hreg : fb.Inside reg) : Moves (fb.viewOffset reg)
    (gRegionFillrect fb reg x y w h c) (gFillrect (fb.view reg) x y w h c) := by
  obtain ⟨hleft, htop, -, -, hright, hbottom⟩ := hreg
  rw [funext (g_region_fillrect_eq fb reg x y w h c),
    funext (g_fillrect_eq (fb.view reg) x y w h c)]
  change Moves _ _ fun s => forRange (max y 0) (min (y + h) reg.h)
    (fun v => forRange (max x 0) (min (x + w) reg.w) fun u => putPixel (fb.view reg) u v c) s
  by_cases hsome : max x 0 < min (x + w) reg.w ∧ max y 0 < min (y + h) reg.h
  · simp only [hsome, and_self, if_true]
    rw [funext (g_fillrect_eq fb _ _ _ _ c)]
    have hcolumns : max (max x 0 + reg.x) 0 = reg.x + max x 0 ∧
        min (max x 0 + reg.x + (min (x + w) reg.w - max x 0)) fb.width =
          reg.x + min (x + w) reg.w := by omega
    have hrows : max (max y 0 + reg.y) 0 = reg.y + max y 0 ∧
        min (max y 0 + reg.y + (min (y + h) reg.h - max y 0)) fb.height =
          reg.y + min (y + h) reg.h := by omega
    rw [hcolumns.1, hcolumns.2, hrows.1, hrows.2]
    refine Moves.forRange fun v _ _ => Moves.forRange fun u _ _ => ?_
    rw [Int.add_comm reg.x, Int.add_comm reg.y]
    exact moves_put_pixel hfb
  · simp only [hsome, if_false]
    intro s
    rcases Int.lt_or_le (max y 0) (min (y + h) reg.h) with hrows | hnone
    · exact (for_range_id (fun v _ _ s => for_range_empty (by omega) s) _).symm
    · exact (for_range_empty hnone _).symm

theorem moves_rect (hfb : fb.Supported) (hreg : fb.Inside reg)
    (hconfined : VlineConfined fb reg x y h) (hconfined' : VlineConfined fb reg (x + w - 1) y h) :
    Moves (fb.viewOffset reg) (gRegionRect fb reg x y w h c) (gRect (fb.view reg) x y w h c) :=
  (((moves_hline hfb hreg).comp (moves_hline hfb hreg)).comp (moves_vline hfb hreg hconfined)).comp
    (moves_vline hfb hreg hconfined')

end View

section Text

variable {fb : FbInfo} {reg : FbRegion} {x y size p off : Int} {a : UInt8} {c : Color}

theorem moves_three {r g b : UInt8} : Moves off
    (fun s => ((s.store (p + off) r).store (p + off + 1) g).store (p + off + 2) b)
    (fun s => ((s.store p r).store (p + 1) g).store (p + 2) b) := by
  rw [Int.add_right_comm p off, Int.add_right_comm p off]
  exact (moves_store.comp moves_store).comp moves_store

theorem moves_mix_pixel {px : Int → UInt8} :
    Moves off (mixPixel a (p + off) px) (mixPixel a p px) := by
  intro s
  unfold mixPixel
  have hfirst : (s.shift off).data (p + 1) = s.data (p + off + 1) :=
    congrArg s.data (Int.add_right_comm p 1 off)
  have hsecond : (s.shift off).data (p + 2) = s.data (p + off + 2) :=
    congrArg s.data (Int.add_right_comm p 2 off)
  rw [hfirst, hsecond]
  exact moves_three s

theorem moves_glyph_pixel : Moves off (glyphPixel a (p + off) c) (glyphPixel a p c) :=
  Moves.ite (fun _ => moves_three) fun _ => Moves.ite (fun _ => moves_mix_pixel) fun _ => moves_id

theorem moves_write_glyph (hfb : fb.Supported) (hreg : fb.Inside reg) {g : Glyph} :
    Moves (fb.viewOffset reg) (writeGlyph fb reg x y size c g)
      (writeGlyph (fb.view reg) ⟨0, 0, reg.w, reg.h⟩ x y size c g) := by
  obtain ⟨hleft, htop, -, -, hright, hbottom⟩ := hreg
  refine Moves.ite (fun hmodel => ?_) fun _ => moves_id
  refine Moves.for_range_same fun i _ _ => Moves.ite_of_iff ?_ (fun _ => moves_id) fun _ => ?_
  · change _ ↔ (_ ∨ y + size + g.y0 + i ≥ reg.h ∨ y + size + g.y0 + i + 0 < 0 ∨
      y + size + g.y0 + i + 0 ≥ reg.h)
    omega
  refine Moves.for_range_same fun j _ _ => Moves.ite_of_iff ?_ (fun _ => moves_id) fun _ => ?_
  · change _ ↔ (_ ∨ x + g.x0 + j ≥ reg.w ∨ x + g.x0 + j + 0 < 0 ∨ x + g.x0 + j + 0 ≥ reg.w)
    omega
  have hsize : (if fb.memoryModel = fbMmRgb32 then (4 : Int) else 3) = fb.pixelSize := by
    rcases hmodel with hmodel | hmodel
    · rw [if_pos hmodel, hfb.rgb32 hmodel]
    · rw [if_neg (by rw [hmodel]; decide), hfb.rgb24 hmodel]
  have haddress : (y + size + g.y0 + i + reg.y) * fb.pitch +
      fb.pixelSize * (x + g.x0 + j + reg.x) =
      (y + size + g.y0 + i + 0) * fb.pitch + fb.pixelSize * (x + g.x0 + j + 0) +
        fb.viewOffset reg := by
    rw [FbInfo.viewOffset, Int.add_mul, Int.mul_add, Int.mul_comm fb.pixelSize reg.x, Int.add_zero,
      Int.add_zero]
    omega
  change Moves _ (glyphPixel _ ((y + size + g.y0 + i + reg.y) * fb.pitch +
    (if fb.memoryModel = fbMmRgb32 then (4 : Int) else 3) * (x + g.x0 + j + reg.x)) c)
    (glyphPixel _ ((y + size + g.y0 + i + 0) * fb.pitch +
      (if fb.memoryModel = fbMmRgb32 then (4 : Int) else 3) * (x + g.x0 + j + 0)) c)
  rw [hsize, haddress]
  exact moves_glyph_pixel

/-- The dots of a character of a bitmap font that the framebuffer shows are not left of the region
or above it. -/
def CharConfined (reg : FbRegion) (x y : Int) (d : Int → UInt8) (ch : UInt8) : Prop :=
  ∀ r j : Int, 0 ≤ r → r < ch.toNat → 0 ≤ j → j < 8 → (d r).toNat.testBit (7 - j).toNat →
    x + j < reg.w → y + r < reg.h → 0 ≤ x + reg.x + j → 0 ≤ y + reg.y + r → 0 ≤ x + j ∧ 0 ≤ y + r

/-- This holds of every character of a text. -/
def TextConfined (reg : FbRegion) (y : Int) (data : List UInt8) (cw ch : UInt8) (nchars : UInt32) :
    Int → List UInt8 → Prop
  | _, [] => True
  | x, id :: text =>
      (id.toNat < nchars.toNat → CharConfined reg x y
        (fun r => data.getD (id.toNat * ch.toNat + r.toNat) 0) ch) ∧
      TextConfined reg y data cw ch nchars (x + cw.toNat) text

variable {d : Int → UInt8} {ch : UInt8}

theorem moves_write_char (hfb : fb.Supported) (hreg : fb.Inside reg)
    (hconfined : CharConfined reg x y d ch) : Moves (fb.viewOffset reg)
      (writeChar fb reg x y d ch c)
      (writeChar (fb.view reg) ⟨0, 0, reg.w, reg.h⟩ x y d ch c) := by
  obtain ⟨hleft, htop, -, -, hright, hbottom⟩ := hreg
  refine Moves.for_range_same fun r hr hr' => Moves.ite_of_iff ?_ (fun _ => moves_id) fun hy => ?_
  · change _ ↔ (y + r ≥ reg.h ∨ y + 0 + r ≥ reg.h)
    omega
  refine Moves.for_range_same fun j hj hj' => Moves.ite_of_iff ?_ (fun _ => moves_id) fun hx => ?_
  · change _ ↔ (x + j ≥ reg.w ∨ x + 0 + j ≥ reg.w)
    omega
  refine Moves.ite (fun hdot => ?_) fun _ => moves_id
  have hdot := hconfined r j hr hr' hj hj' hdot (by omega) (by omega)
  refine Moves.ite_of_iff ?_ (fun _ => moves_id) fun hinside => ?_
  · change _ ↔ (x + 0 + j < 0 ∨ y + 0 + r < 0 ∨ x + 0 + j ≥ reg.w ∨ y + 0 + r ≥ reg.h)
    omega
  · rw [Int.add_right_comm x reg.x, Int.add_right_comm y reg.y, Int.add_zero, Int.add_zero]
    exact moves_put_pixel hfb

theorem moves_write_bitmap (hfb : fb.Supported) (hreg : fb.Inside reg) {data : List UInt8}
    {cw : UInt8} {nchars : UInt32} {text : List UInt8}
    (hconfined : TextConfined reg y data cw ch nchars x text) : Moves (fb.viewOffset reg)
      (writeBitmap fb reg y data cw ch nchars c x text)
      (writeBitmap (fb.view reg) ⟨0, 0, reg.w, reg.h⟩ y data cw ch nchars c x text) := by
  induction text generalizing x with
  | nil => exact moves_id
  | cons id text ih =>
      exact (Moves.ite (fun hid => moves_write_char hfb hreg (hconfined.1 hid))
        fun _ => moves_id).comp (ih hconfined.2)

theorem hits_write_char (hfb : fb.Supported) (hreg : fb.Inside reg) {r j : Int} (hr : 0 ≤ r)
    (hr' : r < ch.toNat) (hj : 0 ≤ j) (hj' : j < 8) (hdot : (d r).toNat.testBit (7 - j).toNat)
    (hx : x + j < reg.w) (hy : y + r < reg.h) (hleft : 0 ≤ x + reg.x + j)
    (htop : 0 ≤ y + reg.y + r) :
    Hits ((y + reg.y + r) * fb.pitch + (x + reg.x + j) * fb.pixelSize)
      (writeChar fb reg x y d ch c) := by
  obtain ⟨-, -, -, -, hright, hbottom⟩ := hreg
  have htrue : ∀ {x y : Int}, Writes fb.PixelByte (gPlot fb x y c) := writes_plot hfb
  have hline : ∀ {r j : Int}, Writes fb.PixelByte (fun s =>
      if x + j ≥ reg.w ∨ x + reg.x + j ≥ fb.width then s
      else if (d r).toNat.testBit (7 - j).toNat then gPlot fb (x + reg.x + j) (y + reg.y + r) c s
      else s) :=
    Writes.ite (fun _ => writes_id) fun _ => Writes.ite (fun _ => htrue) fun _ => writes_id
  refine Hits.forRange (fun r => Writes.ite (fun _ => writes_id) fun _ =>
    Writes.forRange fun j _ _ => hline) hr hr' fun s => ?_
  dsimp only
  rw [if_neg (by omega)]
  refine Hits.forRange (fun j => hline) hj hj' (fun s => ?_) s
  dsimp only
  rw [if_neg (by omega), if_pos hdot, gPlot, if_neg (by omega)]
  exact hits_put_pixel hfb s

/-- A character that draws only in the region is confined to it. -/
theorem char_confined (hfb : fb.Valid) (hreg : fb.Inside reg)
    (hall : ∀ a, Hits a (writeChar fb reg x y d ch c) → fb.RegionByte reg a) :
    CharConfined reg x y d ch := by
  intro r j hr hr' hj hj' hdot hx hy hleft htop
  have hright := hreg.right
  obtain ⟨px, py, hpx, hpx', hpy, hpy', hof⟩ :=
    hall _ (hits_write_char hfb.supported hreg hr hr' hj hj' hdot hx hy hleft htop)
  have hleft' := hreg.left
  have hself : fb.OfPixel (x + reg.x + j) (y + reg.y + r)
      ((y + reg.y + r) * fb.pitch + (x + reg.x + j) * fb.pixelSize) :=
    ⟨0, Int.le_refl 0, hfb.supported.size_pos, (Int.add_zero _).symm⟩
  have hplace := hfb.place (by omega) (by omega) hof
  have hplace' := hfb.place (by omega) (by omega) hself
  have hcolumn := hplace.2.1.symm.trans hplace'.2.1
  have hline := hplace.1.symm.trans hplace'.1
  omega

theorem text_confined (hfb : fb.Valid) (hreg : fb.Inside reg) {data : List UInt8} {cw : UInt8}
    {nchars : UInt32} {text : List UInt8}
    (hall : ∀ a, Hits a (writeBitmap fb reg y data cw ch nchars c x text) → fb.RegionByte reg a) :
    TextConfined reg y data cw ch nchars x text := by
  induction text generalizing x with
  | nil => trivial
  | cons id text ih =>
      refine ⟨fun hid => char_confined (c := c) hfb hreg fun a ha => hall a ?_,
        ih fun a ha => hall a ?_⟩
      · have hchar : Hits a fun s => if id.toNat < nchars.toNat then
            writeChar fb reg x y (fun r => data.getD (id.toNat * ch.toNat + r.toNat) 0) ch c s
          else s := by
          simpa only [if_pos hid] using ha
        exact hchar.comp_left (writes_write_bitmap hfb.supported)
      · exact ha.comp_right

end Text

section Blit

variable {fb dst dst' : FbInfo} {reg r : FbRegion} {src : Fb} {x y dx dy p off n : Int}

/-- The bytes that `g_blit_region` counts for each pixel left of the first that is drawn. -/
def blitScale (dst src : FbInfo) : Int := if Copies dst src then dst.bpp / 8 else 4

/-- A pixel of a region of `src` is drawn. -/
def Painted (dst : FbInfo) (src : Fb) (reg : FbRegion) (i j : Int) : Prop :=
  Copies dst src.geom ∨ (src.geom.memoryModel = fbMmRgba32 ∧
    (dst.memoryModel = fbMmRgb32 ∨ dst.memoryModel = fbMmRgb24) ∧ blitAlpha src reg i j ≠ 0)

theorem moves_memcpy_to {bytes : Int → UInt8} :
    Moves off (memcpyTo (p + off) n bytes) (memcpyTo p n bytes) := by
  refine Moves.for_range_same fun k _ _ => ?_
  rw [Int.add_right_comm]
  exact moves_store

theorem moves_blit_pixel {px : Int → UInt8} :
    Moves off (blitPixel n (p + off) px) (blitPixel n p px) :=
  Moves.ite (fun _ => moves_memcpy_to) fun _ =>
    Moves.ite (fun _ => moves_mix_pixel) fun _ => moves_id

theorem moves_blit_lines (hpitch : dst'.pitch = dst.pitch) (hbpp : dst'.bpp = dst.bpp)
    (hmodel : dst'.memoryModel = dst.memoryModel) :
    Moves (dy * dst.pitch + dx * blitScale dst src.geom)
      (blitLines dst (x + dx) (y + dy) src reg) (blitLines dst' x y src reg) := by
  have hline : ∀ i, (y + dy + i) * dst.pitch = (y + i) * dst.pitch + dy * dst.pitch := by
    intro i
    rw [Int.add_right_comm, Int.add_mul]
  have hiff : Copies dst src.geom ↔ Copies dst' src.geom := by
    unfold Copies
    rw [hmodel]
  unfold blitLines blitScale
  rw [hpitch, hbpp, hmodel]
  refine Moves.ite_of_iff hiff (fun hcopies => ?_) fun hcopies => Moves.ite (fun _ => ?_) fun _ =>
    Moves.ite (fun _ => ?_) fun _ => moves_id
  · rw [if_pos hcopies]
    refine Moves.for_range_same fun i _ _ => ?_
    have haddress : (y + dy + i) * dst.pitch + (x + dx) * (dst.bpp / 8) =
        (y + i) * dst.pitch + x * (dst.bpp / 8) + (dy * dst.pitch + dx * (dst.bpp / 8)) := by
      rw [hline, Int.add_mul x]
      omega
    rw [haddress]
    exact moves_memcpy_to
  all_goals
    rw [if_neg hcopies]
    refine Moves.for_range_same fun i _ _ => Moves.for_range_same fun j _ _ => ?_
  · have haddress : (y + dy + i) * dst.pitch + (x + dx) * 4 + 4 * j =
        (y + i) * dst.pitch + x * 4 + 4 * j + (dy * dst.pitch + dx * 4) := by
      rw [hline]
      omega
    rw [haddress]
    exact moves_blit_pixel
  · have haddress : (y + dy + i) * dst.pitch + (x + dx) * 4 + 3 * j =
        (y + i) * dst.pitch + x * 4 + 3 * j + (dy * dst.pitch + dx * 4) := by
      rw [hline]
      omega
    rw [haddress]
    exact moves_blit_pixel

theorem blind_mix_pixel {a : UInt8} {px : Int → UInt8} : Blind (mixPixel a p px) :=
  fun _ _ h => congrArg (fun l => ((l ++ [p]) ++ [p + 1]) ++ [p + 2]) h

theorem blind_memcpy_to {bytes : Int → UInt8} : Blind (memcpyTo p n bytes) :=
  Blind.forRange fun _ => blind_store

theorem blind_blit_pixel {px : Int → UInt8} : Blind (blitPixel n p px) :=
  Blind.ite blind_memcpy_to (Blind.ite blind_mix_pixel blind_id)

theorem blind_blit_lines : Blind (blitLines dst x y src reg) := by
  refine Blind.ite (Blind.forRange fun _ => blind_memcpy_to) (Blind.ite ?_ (Blind.ite ?_ blind_id))
  · exact Blind.forRange fun _ => Blind.forRange fun _ => blind_blit_pixel
  · exact Blind.forRange fun _ => Blind.forRange fun _ => blind_blit_pixel

/-- A pixel that is drawn is stored somewhere. -/
theorem hits_blit_lines (hsrc : src.geom.Supported) {i j : Int} (hi : 0 ≤ i)
    (hi' : i < reg.h) (hj : 0 ≤ j) (hj' : j < reg.w) (hpainted : Painted dst src reg i j) :
    ∃ a, Hits a (blitLines dst x y src reg) := by
  rcases hpainted with hcopies | ⟨hrgba, hrgb32 | hrgb24, halpha⟩
  · have hbytes : 0 < reg.w * (src.geom.bpp / 8) := by
      refine Int.mul_pos (by omega) ?_
      rcases hsrc.depths with ⟨hd, -⟩ | ⟨hd, -⟩ | ⟨hd, -⟩ | ⟨hd, -⟩ | ⟨hd, -⟩ <;> omega
    refine ⟨(y + i) * dst.pitch + x * (dst.bpp / 8) + 0, fun s => ?_⟩
    rw [blitLines, if_pos hcopies]
    exact Hits.forRange (P := fun _ => True)
      (fun _ => writes_memcpy_to fun _ _ _ => trivial) hi hi'
      (hits_memcpy_to (Int.le_refl 0) hbytes) s
  · have htrue : ∀ {p px}, Writes (fun _ => True) (blitPixel 4 p px) :=
      (writes_blit_pixel (by omega)).mono fun _ _ => trivial
    refine ⟨(y + i) * dst.pitch + x * 4 + 4 * j + 0, fun s => ?_⟩
    rw [blitLines, if_neg (fun h => h.2.1 hrgba), if_pos ⟨hrgba, hrgb32⟩]
    refine Hits.forRange (fun _ => Writes.forRange fun _ _ _ => htrue) hi hi' ?_ s
    exact Hits.forRange (fun _ => htrue) hj hj'
      (hits_blit_pixel (by omega) halpha (Int.le_refl 0) (by omega))
  · exact ⟨_, hits_blit_lines24 hrgba hrgb24
      ⟨i, j, 0, hi, hi', hj, hj', Int.le_refl 0, by omega, halpha, rfl⟩⟩

theorem blit_pixel_transparent {px : Int → UInt8} (h : px 3 = 0) (s : Board) :
    blitPixel n p px s = s := by
  unfold blitPixel
  rw [h]
  rfl

theorem blit_lines_nothing (hw : 0 < reg.w)
    (h : ∀ i j, 0 ≤ i → i < reg.h → 0 ≤ j → j < reg.w → ¬Painted dst src reg i j) (s : Board) :
    blitLines dst x y src reg s = s := by
  unfold blitLines
  split_ifs with hcopies hrgb32 hrgb24
  · exact for_range_id (fun i hi hi' => absurd (.inl hcopies) (h i 0 hi hi' (Int.le_refl 0) hw)) s
  · refine for_range_id (fun i hi hi' => for_range_id fun j hj hj' => blit_pixel_transparent ?_) s
    by_contra halpha
    exact h i j hi hi' hj hj' (.inr ⟨hrgb32.1, .inl hrgb32.2, halpha⟩)
  · refine for_range_id (fun i hi hi' => for_range_id fun j hj hj' => blit_pixel_transparent ?_) s
    by_contra halpha
    exact h i j hi hi' hj hj' (.inr ⟨hrgb24.1, .inr hrgb24.2, halpha⟩)
  · rfl

/-- A blit at a place of a region draws something. -/
def RegionBlits (fb : FbInfo) (reg : FbRegion) (x y : Int) (src : FbInfo) (r : FbRegion) : Prop :=
  0 ≤ x + reg.x ∧ 0 ≤ y + reg.y ∧ 0 ≤ r.x ∧ 0 ≤ r.y ∧
    0 < (blitPart (fb.view reg) x y src r).w ∧ 0 < (blitPart (fb.view reg) x y src r).h

instance (fb : FbInfo) (reg : FbRegion) (x y : Int) (src : FbInfo) (r : FbRegion) :
    Decidable (RegionBlits fb reg x y src r) := inferInstanceAs (Decidable (_ ∧ _))

theorem g_region_blit_region_eq (hreg : fb.Inside reg) (s : Board) :
    gRegionBlitRegion fb reg x y src r s =
      if RegionBlits fb reg x y src.geom r then
        blitLines fb (x + reg.x) (y + reg.y) src (blitPart (fb.view reg) x y src.geom r) s
      else s := by
  obtain ⟨hleft, htop, -, -, hright, hbottom⟩ := hreg
  obtain ⟨rx, ry, w, h⟩ := r
  have hpart : blitPart fb (x + reg.x) (y + reg.y) src.geom
      ⟨rx, ry, min w (reg.w - x), min h (reg.h - y)⟩ =
        blitPart (fb.view reg) x y src.geom ⟨rx, ry, w, h⟩ := by
    unfold blitPart FbInfo.view
    dsimp only
    congr 1 <;> omega
  unfold gRegionBlitRegion
  simp only [clip_width, clip_height]
  rw [g_blit_region_eq, hpart]
  by_cases hblits : RegionBlits fb reg x y src.geom ⟨rx, ry, w, h⟩
  · rw [if_pos hblits, if_pos (by unfold Blits; rw [hpart]; exact hblits)]
  · rw [if_neg hblits, if_neg (by unfold Blits; rw [hpart]; exact hblits)]

/-- When a blit in a region draws something, it is not left of the region or above it, the bytes
are counted as many for each pixel as a pixel has or the region is at the left edge, and the blit
on the region alone stays in it. -/
def BlitConfined (fb : FbInfo) (reg : FbRegion) (x y : Int) (src : Fb) (r : FbRegion) : Prop :=
  RegionBlits fb reg x y src.geom r →
    (∃ i j, 0 ≤ i ∧ i < (blitPart (fb.view reg) x y src.geom r).h ∧ 0 ≤ j ∧
      j < (blitPart (fb.view reg) x y src.geom r).w ∧ Painted fb src r i j) →
    0 ≤ x ∧ 0 ≤ y ∧ (blitScale fb src.geom = fb.pixelSize ∨ reg.x = 0) ∧
      BlitStays (fb.view reg) x y src r

/-- A function for a region stores bytes of pixels of the region, and those that `g` stores on the
region alone. -/
def RegionFaithful (fb : FbInfo) (reg : FbRegion) (f g : Board → Board) (data : Int → UInt8) :
    Prop :=
  (∀ a ∈ (f ⟨data, []⟩).written, fb.RegionByte reg a) ∧
    (f ⟨data, []⟩).shift (fb.viewOffset reg) = g ((Board.mk data []).shift (fb.viewOffset reg))

theorem faithful_of_moves {f g : Board → Board} {data : Int → UInt8}
    (h : Moves (fb.viewOffset reg) f g) : RegionFaithful fb reg f g data ↔
      ∀ a ∈ (g ⟨fun a => data (a + fb.viewOffset reg), []⟩).written, (fb.view reg).PixelByte a := by
  have hsame : (f ⟨data, []⟩).written.map (· - fb.viewOffset reg) =
      (g ⟨fun a => data (a + fb.viewOffset reg), []⟩).written :=
    congrArg Board.written (h ⟨data, []⟩)
  rw [← hsame]
  constructor
  · rintro ⟨hinside, -⟩ a ha
    obtain ⟨b, hb, rfl⟩ := List.mem_map.mp ha
    exact region_byte_iff.mp (hinside b hb)
  · intro hall
    exact ⟨fun a ha => region_byte_iff.mpr (hall _ (List.mem_map_of_mem ha)), h ⟨data, []⟩⟩

/-- A blit that draws nothing is the same on the region alone. -/
theorem blit_nothing (hreg : fb.Inside reg)
    (hnone : RegionBlits fb reg x y src.geom r → ∀ i j, 0 ≤ i →
      i < (blitPart (fb.view reg) x y src.geom r).h → 0 ≤ j →
      j < (blitPart (fb.view reg) x y src.geom r).w → ¬Painted fb src r i j) (s : Board) :
    gRegionBlitRegion fb reg x y src r s = s ∧ gBlitRegion (fb.view reg) x y src r s = s := by
  rw [g_region_blit_region_eq hreg, g_blit_region_eq]
  refine ⟨?_, ?_⟩
  · split
    · next hblits => exact blit_lines_nothing hblits.2.2.2.2.1 (hnone hblits) s
    · rfl
  · split
    · next hblits =>
        obtain ⟨hx, hy, hrx, hry, hw, hh⟩ := hblits
        exact blit_lines_nothing hw (hnone ⟨Int.add_nonneg hx hreg.left,
          Int.add_nonneg hy hreg.top, hrx, hry, hw, hh⟩) s
    · rfl

theorem blit_faithful_iff (hfb : fb.Valid) (hreg : fb.Inside reg) (hsrc : src.geom.Supported)
    {data : Int → UInt8} :
    RegionFaithful fb reg (gRegionBlitRegion fb reg x y src r) (gBlitRegion (fb.view reg) x y src r)
      data ↔ BlitConfined fb reg x y src r := by
  by_cases hdraws : RegionBlits fb reg x y src.geom r ∧ ∃ i j, 0 ≤ i ∧
      i < (blitPart (fb.view reg) x y src.geom r).h ∧ 0 ≤ j ∧
      j < (blitPart (fb.view reg) x y src.geom r).w ∧ Painted fb src r i j
  · obtain ⟨hblits, hpainted⟩ := hdraws
    have hmoves : Moves (reg.y * fb.pitch + reg.x * blitScale fb src.geom)
        (blitLines fb (x + reg.x) (y + reg.y) src (blitPart (fb.view reg) x y src.geom r))
        (blitLines (fb.view reg) x y src (blitPart (fb.view reg) x y src.geom r)) :=
      moves_blit_lines rfl rfl rfl
    have hregion : gRegionBlitRegion fb reg x y src r =
        blitLines fb (x + reg.x) (y + reg.y) src (blitPart (fb.view reg) x y src.geom r) := by
      funext s
      rw [g_region_blit_region_eq hreg, if_pos hblits]
    have halone : 0 ≤ x → 0 ≤ y → gBlitRegion (fb.view reg) x y src r =
        blitLines (fb.view reg) x y src (blitPart (fb.view reg) x y src.geom r) := by
      intro hx hy
      funext s
      rw [g_blit_region_eq, if_pos ⟨hx, hy, hblits.2.2⟩]
    -- When as many bytes are counted, the lines are moved as the region is.
    have hstays : 0 ≤ x → 0 ≤ y →
        reg.y * fb.pitch + reg.x * blitScale fb src.geom = fb.viewOffset reg →
        (RegionFaithful fb reg (gRegionBlitRegion fb reg x y src r)
          (gBlitRegion (fb.view reg) x y src r) data ↔ BlitStays (fb.view reg) x y src r) := by
      intro hx hy hoffset
      rw [hoffset, ← hregion, ← halone hx hy] at hmoves
      exact (faithful_of_moves hmoves).trans (blit_stays_iff (hfb.view hreg) hsrc)
    constructor
    · intro hfaithful _ _
      obtain ⟨i, j, hi, hi', hj, hj', hdot⟩ := hpainted
      have hhits : ∃ a, Hits a (blitLines fb (x + reg.x) (y + reg.y) src
          (blitPart (fb.view reg) x y src.geom r)) :=
        hits_blit_lines hsrc hi hi' hj hj' hdot
      obtain ⟨a, ha⟩ := hhits
      have hstored := ha ⟨data, []⟩
      have hsame := congrArg Board.written hfaithful.2
      rw [hregion] at hsame
      have hxy : 0 ≤ x ∧ 0 ≤ y := by
        by_contra hneg
        rw [g_blit_region_eq, if_neg (fun h => hneg ⟨h.1, h.2.1⟩)] at hsame
        exact List.not_mem_nil (List.map_eq_nil_iff.mp hsame ▸ hstored)
      obtain ⟨hx, hy⟩ := hxy
      rw [halone hx hy] at hsame
      have hoffset := blind_blit_lines.displacement hmoves hstored hsame
      refine ⟨hx, hy, ?_, (hstays hx hy hoffset).mp hfaithful⟩
      by_contra hne
      rw [not_or] at hne
      exact hne.1 (Int.eq_of_mul_eq_mul_left hne.2 (Int.add_left_cancel hoffset))
    · intro hconfined
      obtain ⟨hx, hy, hscale, hstays'⟩ := hconfined hblits hpainted
      refine (hstays hx hy ?_).mpr hstays'
      unfold FbInfo.viewOffset
      rcases hscale with hscale | hleft
      · rw [hscale]
      · rw [hleft, Int.zero_mul, Int.zero_mul]
  · have hnone : RegionBlits fb reg x y src.geom r → ∀ i j, 0 ≤ i →
        i < (blitPart (fb.view reg) x y src.geom r).h → 0 ≤ j →
        j < (blitPart (fb.view reg) x y src.geom r).w → ¬Painted fb src r i j :=
      fun hblits i j hi hi' hj hj' hdot => hdraws ⟨hblits, i, j, hi, hi', hj, hj', hdot⟩
    refine iff_of_true ⟨?_, ?_⟩ fun hblits hpainted => absurd ⟨hblits, hpainted⟩ hdraws
    · rw [(blit_nothing hreg hnone _).1]
      exact nofun
    · rw [(blit_nothing hreg hnone _).1, (blit_nothing hreg hnone _).2]

end Blit

section Lines

variable {fb : FbInfo} {reg : FbRegion} {x y w h : Int} {c : Color} {data : Int → UInt8}

theorem counts_put_pixel (hfb : fb.Supported) :
    Counts fb.pixelSize.toNat (putPixel fb x y c) := by
  have hlength := color_bytes_length (c := c) hfb.hasDepth
  rw [put_pixel_eq hfb.hasDepth, ← hlength]
  exact counts_store_bytes

/-- How often a column of the region is stored in. -/
def columnCount (reg : FbRegion) (x rows size : Int) : Nat :=
  if 0 ≤ x ∧ x < reg.w then rows.toNat * size.toNat else 0

theorem counts_region_vline (hfb : fb.Supported) (hreg : fb.Inside reg) :
    Counts (columnCount reg x (vlineRows fb reg y h) fb.pixelSize)
      (gRegionVline fb reg x y h c) := by
  rw [funext (region_vline_inside hreg)]
  unfold columnCount vlineRows
  by_cases hx : 0 ≤ x ∧ x < reg.w
  · by_cases hsome : max y 0 < min (y + h) reg.h
    · simp only [hx, hsome, and_self, if_true]
      exact Counts.forRange fun v => counts_put_pixel hfb
    · simp only [hx, hsome, and_false, and_self, if_true, if_false]
      rw [Int.toNat_zero, Nat.zero_mul]
      exact counts_id
  · simp only [hx, false_and, if_false]
    exact counts_id

theorem counts_view_vline (hfb : fb.Supported) (hy : max y 0 < reg.h) :
    Counts (columnCount reg x (vlineEnd (fb.view reg) (y + h) - max y 0) fb.pixelSize)
      (gVline (fb.view reg) x y h c) := by
  have hview : (fb.view reg).Supported := hfb
  rw [funext (g_vline_eq (fb.view reg) x y h c)]
  change Counts _ fun s => if 0 ≤ x ∧ x < reg.w ∧ max y 0 < reg.h then _ else s
  unfold columnCount
  by_cases hx : 0 ≤ x ∧ x < reg.w
  · simp only [hx, hy, and_self, if_true]
    exact Counts.forRange fun v => counts_put_pixel hview
  · have hnone : ¬(0 ≤ x ∧ x < reg.w ∧ max y 0 < reg.h) := fun h => hx ⟨h.1, h.2.1⟩
    simp only [hx, hnone, if_false]
    exact counts_id

/-- A vertical line that is stored in the region only, and in as many rows as on the region alone,
is confined. -/
theorem vline_confined (hfb : fb.Valid) (hreg : fb.Inside reg)
    (hall : ∀ a, Hits a (gRegionVline fb reg x y h c) → fb.RegionByte reg a)
    (hrows : 0 ≤ x → x < reg.w → max y 0 < reg.h →
      (vlineRows fb reg y h).toNat = (vlineEnd (fb.view reg) (y + h) - max y 0).toNat) :
    VlineConfined fb reg x y h := by
  intro hx hx' hy
  refine (vline_fits_iff hreg hy).mpr ⟨hrows hx hx' hy, ?_⟩
  by_contra hbelow
  have hsome : max y 0 < min (y + h) reg.h := by
    by_contra hnone
    rw [vlineRows, if_neg hnone] at hbelow
    omega
  rw [vlineRows, if_pos hsome] at hbelow
  obtain ⟨px, py, hpx, hpx', hpy, hpy', hof⟩ :=
      hall ((reg.y + reg.h) * fb.pitch + (reg.x + x) * fb.pixelSize) fun s => by
    rw [region_vline_inside hreg, if_pos ⟨⟨hx, hx'⟩, hsome⟩]
    refine Hits.forRange (P := fun _ => True) (fun v => ?_) (by omega) (by omega)
      (hits_put_pixel hfb.supported) s
    exact (writes_put_pixel hfb.supported).mono fun _ _ => trivial
  have hleft := hreg.left
  have hright := hreg.right
  have hrow := (hfb.place (by omega) (by omega) hof).1
  rw [(hfb.place (by omega) (by omega) (of_pixel_first hfb.supported)).1] at hrow
  omega

theorem writes_region_vline (hfb : fb.Supported) :
    Writes (fun _ => True) (gRegionVline fb reg x y h c) := by
  rw [funext (g_region_vline_eq fb reg x y h c)]
  exact Writes.ite (fun _ => writes_vline_anywhere hfb) fun _ => writes_id

theorem writes_region_hline (hfb : fb.Supported) :
    Writes (fun _ => True) (gRegionHline fb reg x y w c) := by
  rw [funext (g_region_hline_eq fb reg x y w c)]
  exact Writes.ite (fun _ => (writes_hline hfb).mono fun _ _ => trivial) fun _ => writes_id

theorem vline_faithful_iff (hfb : fb.Valid) (hreg : fb.Inside reg) :
    RegionFaithful fb reg (gRegionVline fb reg x y h c) (gVline (fb.view reg) x y h c) data ↔
      VlineConfined fb reg x y h := by
  constructor
  · rintro ⟨hinside, hsame⟩
    refine vline_confined (c := c) hfb hreg (fun a ha => hinside a (ha _)) fun hx hx' hy => ?_
    have hlength := congrArg (fun s => s.written.length) hsame
    simp only [Board.shift, List.length_map, counts_region_vline hfb.supported hreg _,
      counts_view_vline hfb.supported hy _, columnCount, hx, hx', and_self, if_true] at hlength
    exact Nat.eq_of_mul_eq_mul_right (Int.pos_iff_toNat_pos.mp hfb.supported.size_pos)
      (Nat.add_left_cancel hlength)
  · intro hconfined
    exact (faithful_of_moves (moves_vline hfb.supported hreg hconfined)).mpr fun a ha =>
      (writes_vline (hfb.view hreg).supported hconfined.stays).mem ha

theorem rect_faithful_iff (hfb : fb.Valid) (hreg : fb.Inside reg) :
    RegionFaithful fb reg (gRegionRect fb reg x y w h c) (gRect (fb.view reg) x y w h c) data ↔
      VlineConfined fb reg x y h ∧ VlineConfined fb reg (x + w - 1) y h := by
  have hview := (hfb.view hreg).supported
  constructor
  · rintro ⟨hinside, hsame⟩
    have hsides := (moves_hline (x := x) (y := y) (w := w) (c := c) hfb.supported hreg).comp
      (moves_hline (x := x) (y := y + h - 1) (w := w) (c := c) hfb.supported hreg)
    -- The horizontal sides are the same, so that the vertical ones store as often.
    have hcount : max y 0 < reg.h →
        columnCount reg x (vlineRows fb reg y h) fb.pixelSize +
            columnCount reg (x + w - 1) (vlineRows fb reg y h) fb.pixelSize =
          columnCount reg x (vlineEnd (fb.view reg) (y + h) - max y 0) fb.pixelSize +
            columnCount reg (x + w - 1) (vlineEnd (fb.view reg) (y + h) - max y 0)
              fb.pixelSize := by
      intro hy
      have hstart := congrArg (fun s => s.written.length) (hsides ⟨data, []⟩)
      have hlength := congrArg (fun s => s.written.length) hsame
      unfold gRegionRect gRect at hlength
      simp only [Board.shift, List.length_map, counts_region_vline hfb.supported hreg _,
        counts_view_vline hfb.supported hy _] at hlength hstart
      omega
    have hpos := Int.pos_iff_toNat_pos.mp hfb.supported.size_pos
    constructor
    · refine vline_confined (c := c) hfb hreg
        (fun a ha => hinside a ((ha.comp_left (writes_region_vline hfb.supported)) _))
        fun hx hx' hy => Nat.eq_of_mul_eq_mul_right hpos ?_
      have hsum := hcount hy
      unfold columnCount at hsum
      split_ifs at hsum <;> omega
    · refine vline_confined (c := c) hfb hreg (fun a ha => hinside a (ha _))
        fun hx hx' hy => Nat.eq_of_mul_eq_mul_right hpos ?_
      have hsum := hcount hy
      unfold columnCount at hsum
      split_ifs at hsum <;> omega
  · rintro ⟨hleft, hright⟩
    refine (faithful_of_moves (moves_rect hfb.supported hreg hleft hright)).mpr fun a ha => ?_
    exact ((((writes_hline hview).comp (writes_hline hview)).comp
      (writes_vline hview hleft.stays)).comp (writes_vline hview hright.stays)).mem ha

end Lines

namespace Drawing

/-- A vertical line, a blit and a text in a bitmap font are confined to the region. -/
def Confined (fb : FbInfo) (reg : FbRegion) : Drawing → Prop
  | vline x y h _ => VlineConfined fb reg x y h
  | rect x y w h _ => VlineConfined fb reg x y h ∧ VlineConfined fb reg (x + w - 1) y h
  | blit x y src => BlitConfined fb reg x y src ⟨0, 0, src.geom.width, src.geom.height⟩
  | blitRegion x y src r => BlitConfined fb reg x y src r
  | write x y text (.asciiBitmap data cw ch nchars) _ _ =>
      TextConfined reg y data cw ch nchars x text
  | _ => True

end Drawing

section Regions

variable {fb : FbInfo} {reg : FbRegion} {d : Drawing} {data : Int → UInt8}

theorem writes_region_drawing (hfb : fb.Supported) (hsrc : d.SrcSupported) :
    Writes (fun _ => True) (d.regionRun fb reg) := by
  have htrue : ∀ {f}, Writes fb.PixelByte f → Writes (fun _ => True) f := fun h =>
    h.mono fun _ _ => trivial
  cases d with
  | plot x y c => exact Writes.ite (fun _ => writes_id) fun _ => htrue (writes_plot hfb)
  | hline x y w c => exact writes_region_hline hfb
  | vline x y h c => exact writes_region_vline hfb
  | rect x y w h c =>
      exact (((writes_region_hline hfb).comp (writes_region_hline hfb)).comp
        (writes_region_vline hfb)).comp (writes_region_vline hfb)
  | fillrect x y w h c =>
      rw [Drawing.regionRun, funext (g_region_fillrect_eq fb reg x y w h c)]
      exact Writes.ite (fun _ => htrue (writes_fillrect hfb)) fun _ => writes_id
  | blit x y src => exact writes_blit_region hfb hsrc
  | blitRegion x y src r => exact writes_blit_region hfb hsrc
  | write x y text font size c => exact htrue (writes_region_write hfb)

/-- A call for a region changes only what it stores; and it stores in the region what the call on
the region alone stores there, exactly when it is confined to the region. -/
theorem region_draw_iff (hfb : fb.Valid) (hreg : fb.Inside reg) (hsrc : d.SrcSupported) :
    (∀ a, a ∉ (d.regionRun fb reg ⟨data, []⟩).written →
      (d.regionRun fb reg ⟨data, []⟩).data a = data a) ∧
    (RegionFaithful fb reg (d.regionRun fb reg) (d.run (fb.view reg)) data ↔
      d.Confined fb reg) := by
  refine ⟨fun a ha => (writes_region_drawing hfb.supported hsrc).data_of_not_mem ha, ?_⟩
  have halways : Moves (fb.viewOffset reg) (d.regionRun fb reg) (d.run (fb.view reg)) →
      Writes (fb.view reg).PixelByte (d.run (fb.view reg)) →
      RegionFaithful fb reg (d.regionRun fb reg) (d.run (fb.view reg)) data :=
    fun hmoves hwrites => (faithful_of_moves hmoves).mpr fun a ha => hwrites.mem ha
  have hview : (fb.view reg).Supported := hfb.supported
  cases d with
  | plot x y c =>
      exact iff_of_true (halways (moves_plot hfb.supported hreg) (writes_plot hview)) trivial
  | hline x y w c =>
      exact iff_of_true (halways (moves_hline hfb.supported hreg) (writes_hline hview)) trivial
  | vline x y h c => exact vline_faithful_iff hfb hreg
  | rect x y w h c => exact rect_faithful_iff hfb hreg
  | fillrect x y w h c =>
      exact iff_of_true (halways (moves_fillrect hfb.supported hreg) (writes_fillrect hview))
        trivial
  | blit x y src => exact blit_faithful_iff hfb hreg hsrc
  | blitRegion x y src r => exact blit_faithful_iff hfb hreg hsrc
  | write x y text font size c =>
      cases font with
      | asciiBitmap bits cw ch nchars =>
          constructor
          · intro hfaithful
            exact text_confined hfb hreg fun a ha => hfaithful.1 a (ha _)
          · intro hconfined
            exact halways (moves_write_bitmap hfb.supported hreg hconfined)
              (writes_region_write hview)
      | stbtt glyphs =>
          have hfold : ∀ gs : List Glyph, Moves (fb.viewOffset reg)
              (fun s => gs.foldl (fun s g => writeGlyph fb reg x y size c g s) s)
              fun s => gs.foldl (fun s g =>
                writeGlyph (fb.view reg) ⟨0, 0, reg.w, reg.h⟩ x y size c g s) s := by
            intro gs
            induction gs with
            | nil => exact moves_id
            | cons g gs ih => exact (moves_write_glyph hfb.supported hreg).comp ih
          exact iff_of_true (halways (hfold _) (writes_region_write hview)) trivial

/-- A rectangle over the upper left corner of a region of two pixels. -/
theorem region_draw_rectangle :
    RegionFaithful ⟨4, 1, 4, 8, fbMmGrey8⟩ ⟨2, 0, 2, 1⟩
      ((Drawing.fillrect (-1) (-1) 2 2 7).regionRun ⟨4, 1, 4, 8, fbMmGrey8⟩ ⟨2, 0, 2, 1⟩)
      ((Drawing.fillrect (-1) (-1) 2 2 7).run
        (FbInfo.view ⟨4, 1, 4, 8, fbMmGrey8⟩ ⟨2, 0, 2, 1⟩)) fun _ => 0 := by
  have hvalid : FbInfo.Valid ⟨4, 1, 4, 8, fbMmGrey8⟩ :=
    ⟨by unfold FbInfo.Supported; decide, by decide⟩
  have hinside : FbInfo.Inside ⟨4, 1, 4, 8, fbMmGrey8⟩ ⟨2, 0, 2, 1⟩ := by
    constructor <;> decide
  exact (region_draw_iff (d := .fillrect (-1) (-1) 2 2 7) hvalid hinside trivial).2.mpr trivial

/-- A pixel that is blitted one pixel left of a region is stored there. -/
theorem region_blit_leaves_region :
    ¬ RegionFaithful ⟨4, 1, 4, 8, fbMmGrey8⟩ ⟨2, 0, 2, 1⟩
      ((Drawing.blit (-1) 0 ⟨⟨1, 1, 1, 8, fbMmGrey8⟩, fun _ => 0xFF⟩).regionRun
        ⟨4, 1, 4, 8, fbMmGrey8⟩ ⟨2, 0, 2, 1⟩)
      ((Drawing.blit (-1) 0 ⟨⟨1, 1, 1, 8, fbMmGrey8⟩, fun _ => 0xFF⟩).run
        (FbInfo.view ⟨4, 1, 4, 8, fbMmGrey8⟩ ⟨2, 0, 2, 1⟩)) fun _ => 0 := by
  rintro ⟨hinside, -⟩
  have hwritten : ((Drawing.blit (-1) 0 ⟨⟨1, 1, 1, 8, fbMmGrey8⟩, fun _ => 0xFF⟩).regionRun
      ⟨4, 1, 4, 8, fbMmGrey8⟩ ⟨2, 0, 2, 1⟩ ⟨fun _ => 0, []⟩).written = [1] := rfl
  rw [hwritten] at hinside
  obtain ⟨x, y, hx, hx', hy, hy', k, hk, hk', ha⟩ := hinside 1 (List.mem_singleton_self 1)
  change 2 ≤ x at hx
  change 0 ≤ y at hy
  change k < 1 at hk'
  change 1 = y * 4 + x * 1 + k at ha
  omega

end Regions

end Kogata.User
