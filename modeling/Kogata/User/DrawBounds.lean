import Kogata.User.Draw

/-!
# Where drawing stores

Which bytes the drawing functions store at. They stay in the pixels of the framebuffer, but for two
cases: `g_vline` cuts a line at the bottom when it ends beyond the width, not the height; and
`g_blit_region` from RGBA32 to RGB24 starts a line four bytes for each pixel from the left edge,
where a pixel has three. `draw_stays_iff` says when that goes wrong.
-/

namespace Kogata.User

open Lib.Stores

namespace FbInfo

/-- The bytes of a pixel. -/
def pixelSize (fb : FbInfo) : Int := (fb.bpp + 7) / 8

/-- The depth of each memory model. -/
def models : List (Int × Int) :=
  [(fbMmRgb15, 15), (fbMmBgr15, 15), (fbMmRgb16, 16), (fbMmBgr16, 16), (fbMmRgb24, 24),
    (fbMmBgr24, 24), (fbMmRgb32, 32), (fbMmBgr32, 32), (fbMmGrey8, 8), (fbMmRgba32, 32),
    (fbMmGa16, 16)]

/-- The depth is that of the memory model. -/
def Supported (fb : FbInfo) : Prop := (fb.memoryModel, fb.bpp) ∈ models

/-- The depth is one that the functions know. -/
def HasDepth (fb : FbInfo) : Prop :=
  fb.bpp = 8 ∨ fb.bpp = 15 ∨ fb.bpp = 16 ∨ fb.bpp = 24 ∨ fb.bpp = 32

/-- A framebuffer that can be drawn on. -/
structure Valid (fb : FbInfo) : Prop where
  supported : fb.Supported
  pitch : fb.width * fb.pixelSize ≤ fb.pitch

/-- The address is that of a byte of the pixel `(x, y)`. -/
def OfPixel (fb : FbInfo) (x y a : Int) : Prop :=
  ∃ k, 0 ≤ k ∧ k < fb.pixelSize ∧ a = y * fb.pitch + x * fb.pixelSize + k

/-- The address is that of a byte of a pixel. -/
def PixelByte (fb : FbInfo) (a : Int) : Prop :=
  ∃ x y, 0 ≤ x ∧ x < fb.width ∧ 0 ≤ y ∧ y < fb.height ∧ fb.OfPixel x y a

end FbInfo

section Pixels

variable {fb : FbInfo} {x y a t w k : Int} {c : Color}

theorem FbInfo.HasDepth.depths (h : fb.HasDepth) :
    (fb.bpp = 8 ∧ fb.pixelSize = 1) ∨ (fb.bpp = 15 ∧ fb.pixelSize = 2) ∨
      (fb.bpp = 16 ∧ fb.pixelSize = 2) ∨ (fb.bpp = 24 ∧ fb.pixelSize = 3) ∨
      (fb.bpp = 32 ∧ fb.pixelSize = 4) := by
  unfold FbInfo.HasDepth at h
  unfold FbInfo.pixelSize
  omega

theorem FbInfo.Supported.hasDepth (h : fb.Supported) : fb.HasDepth := by
  have hmem : fb.bpp ∈ FbInfo.models.map Prod.snd := List.mem_map_of_mem h
  simpa [FbInfo.models, FbInfo.HasDepth, or_comm, or_left_comm] using hmem

theorem FbInfo.Supported.depths (h : fb.Supported) :
    (fb.bpp = 8 ∧ fb.pixelSize = 1) ∨ (fb.bpp = 15 ∧ fb.pixelSize = 2) ∨
      (fb.bpp = 16 ∧ fb.pixelSize = 2) ∨ (fb.bpp = 24 ∧ fb.pixelSize = 3) ∨
      (fb.bpp = 32 ∧ fb.pixelSize = 4) :=
  h.hasDepth.depths

/-- The bytes of a colour, in a pixel. -/
def colorBytes (fb : FbInfo) (c : Color) : List UInt8 :=
  [c.toUInt8, (c >>> 8).toUInt8, (c >>> 16).toUInt8, (c >>> 24).toUInt8].take fb.pixelSize.toNat

theorem put_pixel_eq (h : fb.HasDepth) :
    putPixel fb x y c = storeBytes (y * fb.pitch + x * fb.pixelSize) (colorBytes fb c) := by
  funext s
  unfold putPixel plot16 plot32 gPlot24 colorBytes
  rcases h.depths with ⟨hbpp, hsize⟩ | ⟨hbpp, hsize⟩ | ⟨hbpp, hsize⟩ | ⟨hbpp, hsize⟩ | ⟨hbpp, hsize⟩
  all_goals
    rw [hbpp, hsize]
    simp [storeBytes, Int.mul_comm x, Int.add_assoc]

theorem color_bytes_length (h : fb.HasDepth) : (colorBytes fb c).length = fb.pixelSize := by
  unfold colorBytes
  rw [List.length_take]
  rcases h.depths with ⟨-, hsize⟩ | ⟨-, hsize⟩ | ⟨-, hsize⟩ | ⟨-, hsize⟩ | ⟨-, hsize⟩
  all_goals
    rw [hsize]
    rfl

/-- What is stored to draw a pixel. -/
theorem writes_put_pixel (h : fb.Supported) : Writes (fb.OfPixel x y) (putPixel fb x y c) := by
  rw [put_pixel_eq h.hasDepth]
  refine writes_store_bytes fun a hlo hhi => ⟨a - (y * fb.pitch + x * fb.pixelSize), ?_⟩
  rw [color_bytes_length h.hasDepth] at hhi
  omega

theorem pixel_inside (hx : 0 ≤ x) (hx' : x < fb.width) (hy : 0 ≤ y) (hy' : y < fb.height)
    (h : fb.OfPixel x y a) : fb.PixelByte a := ⟨x, y, hx, hx', hy, hy', h⟩

theorem writes_inside (h : fb.Supported) (hx : 0 ≤ x) (hx' : x < fb.width) (hy : 0 ≤ y)
    (hy' : y < fb.height) : Writes fb.PixelByte (putPixel fb x y c) :=
  (writes_put_pixel h).mono fun _ => pixel_inside hx hx' hy hy'

end Pixels

section Clipping

theorem clip_low_eq (x w : Int) : clipLow x w = (max x 0, x + w - max x 0) := by
  unfold clipLow
  split
  · rw [Int.max_eq_right (by omega), Int.sub_zero, Int.add_comm]
  · rw [Int.max_eq_left (by omega)]
    congr 1
    omega

/-- What is left of a width that is cut at `b` when the end is beyond `a`. -/
theorem cut_end (x e a b : Int) :
    x + (if e > a then b - x else e - x) = if e > a then b else e := by
  split <;> omega

theorem cut_eq_min (a b : Int) : (if a > b then b else a) = min a b := by
  split <;> omega

/-- A line is clipped on both sides, and drawn in its row or column. -/
theorem clip_line (x w W y H : Int) (draw : Int → Int → Board → Board) (s : Board) :
    (let (x, w) := clipLow x w
     if x ≥ W then s
     else if x + w < 0 then s
     else
       let w := if x + w > W then W - x else w
       if y < 0 ∨ y ≥ H then s else if w ≤ 0 then s else draw x w s) =
      if (0 ≤ y ∧ y < H) ∧ max x 0 < min (x + w) W then
        draw (max x 0) (min (x + w) W - max x 0) s
      else s := by
  have hend : max x 0 + (x + w - max x 0) = x + w := by omega
  have hcut := cut_end (max x 0) (x + w) W W
  rw [cut_eq_min] at hcut
  rw [clip_low_eq]
  dsimp only
  rw [hend]
  generalize (if x + w > W then W - max x 0 else x + w - max x 0) = w' at hcut ⊢
  have hwidth : w' = min (x + w) W - max x 0 := by omega
  rw [hwidth]
  by_cases hdrawn : (0 ≤ y ∧ y < H) ∧ max x 0 < min (x + w) W
  · have hleft : ¬max x 0 ≥ W := by omega
    have hright : ¬x + w < 0 := by omega
    have hrow : ¬(y < 0 ∨ y ≥ H) := by omega
    have hsome : ¬min (x + w) W - max x 0 ≤ 0 := by omega
    rw [if_pos hdrawn, if_neg hleft, if_neg hright, if_neg hrow, if_neg hsome]
  · rw [if_neg hdrawn]
    by_cases hrow : y < 0 ∨ y ≥ H
    · rw [if_pos hrow, ite_self, ite_self]
    · have hnone : min (x + w) W - max x 0 ≤ 0 := by omega
      rw [if_pos hnone, ite_self, ite_self, ite_self]

/-- What `g_hline` draws. -/
theorem g_hline_eq (fb : FbInfo) (x y w : Int) (c : Color) (s : Board) : gHline fb x y w c s =
    if 0 ≤ y ∧ y < fb.height then
      forRange (max x 0) (min (x + w) fb.width)
        (fun u => putPixel fb u y (if fb.bpp = 32 then c ||| 0xFF000000 else c)) s
    else s := by
  refine (clip_line x w fb.width y fb.height (fun x w => forRange x (x + w) fun u =>
    putPixel fb u y (if fb.bpp = 32 then c ||| 0xFF000000 else c)) s).trans ?_
  have hend : max x 0 + (min (x + w) fb.width - max x 0) = min (x + w) fb.width := by omega
  rw [hend]
  by_cases hsome : max x 0 < min (x + w) fb.width
  · simp only [hsome, and_true]
  · rw [if_neg (fun h => hsome h.2), for_range_empty (by omega), ite_self]

/-- The row where `g_vline` ends, when the line ends at the row `b`. -/
def vlineEnd (fb : FbInfo) (b : Int) : Int := if b > fb.width then fb.height else b

/-- What `g_vline` draws. -/
theorem g_vline_eq (fb : FbInfo) (x y h : Int) (c : Color) (s : Board) : gVline fb x y h c s =
    if 0 ≤ x ∧ x < fb.width ∧ max y 0 < fb.height then
      forRange (max y 0) (vlineEnd fb (y + h)) (fun v => putPixel fb x v c) s
    else s := by
  have hend : max y 0 + (y + h - max y 0) = y + h := by omega
  have hcut := cut_end (max y 0) (y + h) fb.width fb.height
  change _ = vlineEnd fb (y + h) at hcut
  have hlow : y + h < 0 → 0 ≤ fb.width → vlineEnd fb (y + h) ≤ max y 0 := by
    intro hneg hwidth
    rw [vlineEnd, if_neg (by omega)]
    omega
  unfold gVline
  rw [clip_low_eq]
  dsimp only
  rw [hend, hcut]
  by_cases hdrawn : 0 ≤ x ∧ x < fb.width ∧ max y 0 < fb.height
  · have hy : ¬max y 0 ≥ fb.height := by omega
    have hx : ¬(x < 0 ∨ x ≥ fb.width) := by omega
    rw [if_pos hdrawn, if_neg hy, if_neg hx]
    rcases Int.lt_or_le (max y 0) (vlineEnd fb (y + h)) with hsome | hnone
    · have hend : ¬y + h < 0 := fun hneg => absurd (hlow hneg (by omega)) (by omega)
      rw [if_neg hend, if_neg (by omega)]
    · rw [for_range_empty hnone, ite_self, ite_self]
  · rw [if_neg hdrawn]
    by_cases hx : x < 0 ∨ x ≥ fb.width
    · rw [if_pos hx, ite_self, ite_self]
    · rw [if_pos (show max y 0 ≥ fb.height by omega)]

/-- What `g_fillrect` draws. -/
theorem g_fillrect_eq (fb : FbInfo) (x y w h : Int) (c : Color) (s : Board) :
    gFillrect fb x y w h c s =
      forRange (max y 0) (min (y + h) fb.height) (fun v =>
        forRange (max x 0) (min (x + w) fb.width) fun u => putPixel fb u v c) s := by
  have hend : ∀ x w : Int, max x 0 + (x + w - max x 0) = x + w := fun x w => by omega
  have hcut := cut_end (max x 0) (x + w) fb.width fb.width
  have hcut' := cut_end (max y 0) (y + h) fb.height fb.height
  unfold gFillrect
  rw [clip_low_eq, clip_low_eq]
  dsimp only
  rw [hend, hend, hcut, hcut', cut_eq_min, cut_eq_min]
  rw [cut_eq_min] at hcut hcut'
  rcases Int.lt_or_le (max y 0) (min (y + h) fb.height) with hrows | hnone
  · rcases Int.lt_or_le (max x 0) (min (x + w) fb.width) with hsome | hempty
    · rw [if_neg (by omega)]
    · rw [for_range_id fun v _ _ s => for_range_empty hempty s, ite_self]
  · rw [for_range_empty hnone, ite_self]

end Clipping

section Primitives

variable {fb : FbInfo} {x y w h : Int} {c : Color}

theorem writes_plot (hfb : fb.Supported) : Writes fb.PixelByte (gPlot fb x y c) := by
  unfold gPlot
  refine Writes.ite (fun _ => writes_id) fun hclip => ?_
  exact writes_inside hfb (by omega) (by omega) (by omega) (by omega)

theorem writes_hline (hfb : fb.Supported) : Writes fb.PixelByte (gHline fb x y w c) := by
  rw [funext (g_hline_eq fb x y w c)]
  refine Writes.ite (fun hy => ?_) fun _ => writes_id
  exact Writes.forRange fun u hlo hhi =>
    writes_inside hfb (by omega) (by omega) (by omega) (by omega)

theorem writes_fillrect (hfb : fb.Supported) : Writes fb.PixelByte (gFillrect fb x y w h c) := by
  rw [funext (g_fillrect_eq fb x y w h c)]
  exact Writes.forRange fun v hv hv' => Writes.forRange fun u hu hu' =>
    writes_inside hfb (by omega) (by omega) (by omega) (by omega)

/-- A line that is drawn and ends below the bottom ends beyond the width too. -/
def VlineStays (fb : FbInfo) (x y h : Int) : Prop :=
  0 ≤ x → x < fb.width → max y 0 < fb.height → fb.height < y + h → fb.width < y + h

theorem writes_vline (hfb : fb.Supported) (hstays : VlineStays fb x y h) :
    Writes fb.PixelByte (gVline fb x y h c) := by
  rw [funext (g_vline_eq fb x y h c)]
  refine Writes.ite (fun hdrawn => ?_) fun _ => writes_id
  refine Writes.forRange fun v hlo hhi => writes_inside hfb (by omega) (by omega) (by omega) ?_
  have hcut := hstays hdrawn.1 hdrawn.2.1 hdrawn.2.2
  unfold vlineEnd at hhi
  split at hhi <;> omega

theorem writes_vline_anywhere (hfb : fb.Supported) :
    Writes (fun _ => True) (gVline fb x y h c) := by
  rw [funext (g_vline_eq fb x y h c)]
  exact Writes.ite (fun _ => Writes.forRange fun v _ _ =>
    (writes_put_pixel hfb).mono fun _ _ => trivial) fun _ => writes_id

end Primitives

section Text

variable {fb : FbInfo} {reg : FbRegion} {x y size : Int} {text : List UInt8} {font : Font}
  {c : Color}

theorem writes_write_char (hfb : fb.Supported) {d : Int → UInt8} {ch : UInt8} :
    Writes fb.PixelByte (writeChar fb reg x y d ch c) := by
  refine Writes.forRange fun r _ _ => Writes.ite (fun _ => writes_id) fun _ => ?_
  refine Writes.forRange fun j _ _ => Writes.ite (fun _ => writes_id) fun _ => ?_
  exact Writes.ite (fun _ => writes_plot hfb) fun _ => writes_id

theorem writes_write_bitmap (hfb : fb.Supported) {data : List UInt8} {cw ch : UInt8}
    {nchars : UInt32} : Writes fb.PixelByte (writeBitmap fb reg y data cw ch nchars c x text) := by
  induction text generalizing x with
  | nil => exact writes_id
  | cons id text ih =>
      exact (Writes.ite (fun _ => writes_write_char hfb) fun _ => writes_id).comp ih

theorem writes_mix_pixel {P : Int → Prop} {p : Int} {a : UInt8} {px : Int → UInt8}
    (hP : ∀ k, 0 ≤ k → k < 3 → P (p + k)) : Writes P (mixPixel a p px) := by
  have hfirst : P p := by
    have hzero := hP 0 (by omega) (by omega)
    rwa [Int.add_zero] at hzero
  intro s
  exact (((writes_store hfirst).comp (writes_store (hP 1 (by omega) (by omega)))).comp
    (writes_store (hP 2 (by omega) (by omega)))) s

theorem writes_plot24 {P : Int → Prop} {p : Int} (hP : ∀ k, 0 ≤ k → k < 3 → P (p + k)) :
    Writes P (gPlot24 p c) := by
  have hfirst : P p := by
    have hzero := hP 0 (by omega) (by omega)
    rwa [Int.add_zero] at hzero
  exact ((writes_store hfirst).comp (writes_store (hP 1 (by omega) (by omega)))).comp
    (writes_store (hP 2 (by omega) (by omega)))

theorem writes_glyph_pixel {P : Int → Prop} {p : Int} {a : UInt8}
    (hP : ∀ k, 0 ≤ k → k < 3 → P (p + k)) : Writes P (glyphPixel a p c) :=
  Writes.ite (fun _ => writes_plot24 hP) fun _ =>
    Writes.ite (fun _ => writes_mix_pixel hP) fun _ => writes_id

/-- A memory model has one depth. -/
theorem models_depth : ∀ p ∈ FbInfo.models, ∀ q ∈ FbInfo.models, p.1 = q.1 → p.2 = q.2 := by
  decide

theorem FbInfo.Supported.depth_of_model (h : fb.Supported) {m b : Int}
    (hmem : (m, b) ∈ FbInfo.models) (hmodel : fb.memoryModel = m) : fb.bpp = b :=
  models_depth _ h _ hmem hmodel

theorem FbInfo.Supported.rgb32 (h : fb.Supported) (hmodel : fb.memoryModel = fbMmRgb32) :
    fb.pixelSize = 4 := by
  rw [FbInfo.pixelSize, h.depth_of_model (b := 32) (by simp [FbInfo.models]) hmodel]
  rfl

theorem FbInfo.Supported.rgb24 (h : fb.Supported) (hmodel : fb.memoryModel = fbMmRgb24) :
    fb.pixelSize = 3 := by
  rw [FbInfo.pixelSize, h.depth_of_model (b := 24) (by simp [FbInfo.models]) hmodel]
  rfl

theorem writes_write_glyph (hfb : fb.Supported) {g : Glyph} :
    Writes fb.PixelByte (writeGlyph fb reg x y size c g) := by
  refine Writes.ite (fun hmodel => ?_) fun _ => writes_id
  refine Writes.forRange fun i _ _ => Writes.ite (fun _ => writes_id) fun hyy => ?_
  refine Writes.forRange fun j _ _ => Writes.ite (fun _ => writes_id) fun hxx => ?_
  have hsize : (if fb.memoryModel = fbMmRgb32 then (4 : Int) else 3) = fb.pixelSize := by
    rcases hmodel with hmodel | hmodel
    · rw [if_pos hmodel, hfb.rgb32 hmodel]
    · rw [if_neg (by rw [hmodel]; decide), hfb.rgb24 hmodel]
  have hthree : 3 ≤ fb.pixelSize := by
    rw [← hsize]
    split <;> omega
  refine writes_glyph_pixel fun k hk hk' => ?_
  refine pixel_inside (x := x + g.x0 + j + reg.x) (y := y + size + g.y0 + i + reg.y) (by omega)
    (by omega) (by omega) (by omega) ⟨k, hk, by omega, ?_⟩
  rw [hsize, Int.mul_comm fb.pixelSize]

theorem writes_region_write (hfb : fb.Supported) :
    Writes fb.PixelByte (gRegionWrite fb reg x y text font size c) := by
  cases font with
  | asciiBitmap data cw ch nchars => exact writes_write_bitmap hfb
  | stbtt glyphs =>
      have hfold : ∀ gs : List Glyph, Writes fb.PixelByte
          fun s => gs.foldl (fun s g => writeGlyph fb reg x y size c g s) s := by
        intro gs
        induction gs with
        | nil => exact writes_id
        | cons g gs ih => exact (writes_write_glyph hfb).comp ih
      exact hfold _

end Text

section Blit

variable {dst : FbInfo} {src : Fb} {reg : FbRegion} {x y : Int}

/-- The part of a region of `src` that is drawn at `(x, y)`. -/
def blitPart (dst : FbInfo) (x y : Int) (src : FbInfo) (reg : FbRegion) : FbRegion :=
  { reg with
    w := min reg.w (min (src.width - reg.x) (dst.width - x))
    h := min reg.h (min (src.height - reg.y) (dst.height - y)) }

/-- Something is drawn. -/
def Blits (dst : FbInfo) (x y : Int) (src : FbInfo) (reg : FbRegion) : Prop :=
  0 ≤ x ∧ 0 ≤ y ∧ 0 ≤ reg.x ∧ 0 ≤ reg.y ∧ 0 < (blitPart dst x y src reg).w ∧
    0 < (blitPart dst x y src reg).h

instance (dst : FbInfo) (x y : Int) (src : FbInfo) (reg : FbRegion) :
    Decidable (Blits dst x y src reg) := inferInstanceAs (Decidable (_ ∧ _))

theorem clip_width (rx ry w h x W : Int) :
    (if x + w > W then (⟨rx, ry, W - x, h⟩ : FbRegion) else ⟨rx, ry, w, h⟩) =
      ⟨rx, ry, min w (W - x), h⟩ := by
  split
  · rw [Int.min_eq_right (by omega)]
  · rw [Int.min_eq_left (by omega)]

theorem clip_height (rx ry w h y H : Int) :
    (if y + h > H then (⟨rx, ry, w, H - y⟩ : FbRegion) else ⟨rx, ry, w, h⟩) =
      ⟨rx, ry, w, min h (H - y)⟩ := by
  split
  · rw [Int.min_eq_right (by omega)]
  · rw [Int.min_eq_left (by omega)]

theorem g_blit_region_eq (s : Board) : gBlitRegion dst x y src reg s =
    if Blits dst x y src.geom reg then
      blitLines dst x y src (blitPart dst x y src.geom reg) s
    else s := by
  obtain ⟨rx, ry, w, h⟩ := reg
  have hblits : Blits dst x y src.geom ⟨rx, ry, w, h⟩ ↔ 0 ≤ x ∧ 0 ≤ y ∧ 0 ≤ rx ∧ 0 ≤ ry ∧
      0 < min w (min (src.geom.width - rx) (dst.width - x)) ∧
      0 < min h (min (src.geom.height - ry) (dst.height - y)) := Iff.rfl
  unfold gBlitRegion
  simp only [clip_width, clip_height, Int.min_assoc]
  split
  · rw [if_neg (mt hblits.mp (by omega))]
  · split
    · rw [if_neg (mt hblits.mp (by omega))]
    · split
      · rw [if_neg (mt hblits.mp (by omega))]
      · rw [if_pos (hblits.mpr (by omega))]
        rfl

theorem writes_memcpy_to {P : Int → Prop} {a n : Int} {bytes : Int → UInt8}
    (h : ∀ k, 0 ≤ k → k < n → P (a + k)) : Writes P (memcpyTo a n bytes) :=
  Writes.forRange fun k hk hk' => writes_store (h k hk hk')

theorem hits_memcpy_to {a n k : Int} {bytes : Int → UInt8} (hk : 0 ≤ k) (hk' : k < n) :
    Hits (a + k) (memcpyTo a n bytes) :=
  Hits.forRange (P := fun _ => True) (fun _ => writes_store trivial) hk hk' hits_store

theorem hits_mix_pixel {p k : Int} {a : UInt8} {px : Int → UInt8} (hk : 0 ≤ k) (hk' : k < 3) :
    Hits (p + k) (mixPixel a p px) := by
  have htrue : ∀ {a v}, Writes (fun _ => True) (Board.store a v) := writes_store trivial
  have hcases : k = 0 ∨ k = 1 ∨ k = 2 := by omega
  intro s
  rcases hcases with rfl | rfl | rfl
  · rw [Int.add_zero]
    exact ((hits_store.comp_left htrue).comp_left htrue) s
  · exact ((hits_store.comp_right).comp_left htrue) s
  · exact hits_store _

/-- The bytes of a pixel are stored if it is not transparent. -/
theorem writes_blit_pixel {n p : Int} {px : Int → UInt8} (hn : 3 ≤ n) :
    Writes (fun a => px 3 ≠ 0 ∧ ∃ k, 0 ≤ k ∧ k < n ∧ a = p + k) (blitPixel n p px) := by
  refine Writes.ite (fun hsolid => ?_) fun _ => Writes.ite (fun hpos => ?_) fun _ => writes_id
  · have hne : px 3 ≠ 0 := by
      rw [hsolid]
      nofun
    exact writes_memcpy_to fun k hk hk' => ⟨hne, k, hk, hk', rfl⟩
  · exact writes_mix_pixel fun k hk hk' =>
      ⟨UInt8.pos_iff_ne_zero.mp hpos, k, hk, by omega, rfl⟩

theorem hits_blit_pixel {n p k : Int} {px : Int → UInt8} (hn : 3 ≤ n) (hne : px 3 ≠ 0)
    (hk : 0 ≤ k) (hk' : k < 3) : Hits (p + k) (blitPixel n p px) := by
  intro s
  unfold blitPixel
  dsimp only
  split
  · exact hits_memcpy_to hk (by omega) s
  · rw [if_pos (UInt8.pos_iff_ne_zero.mpr hne)]
    exact hits_mix_pixel hk hk' s

theorem FbInfo.Supported.size_pos (h : dst.Supported) : 0 < dst.pixelSize := by
  rcases h.depths with ⟨-, hsize⟩ | ⟨-, hsize⟩ | ⟨-, hsize⟩ | ⟨-, hsize⟩ | ⟨-, hsize⟩ <;> omega

/-- The bytes of a line. -/
theorem pixel_byte_of_offset (hdst : dst.Supported) {t : Int} (hy : 0 ≤ y) (hy' : y < dst.height)
    (ht : 0 ≤ t) (ht' : t < dst.width * dst.pixelSize) : dst.PixelByte (y * dst.pitch + t) := by
  have hpos := hdst.size_pos
  refine ⟨t / dst.pixelSize, y, Int.ediv_nonneg ht (Int.le_of_lt hpos),
    Int.ediv_lt_of_lt_mul hpos ht', hy, hy', t % dst.pixelSize,
    Int.emod_nonneg _ (Int.ne_of_gt hpos), Int.emod_lt_of_pos _ hpos, ?_⟩
  rw [Int.add_assoc, Int.mul_comm (t / dst.pixelSize), Int.mul_ediv_add_emod]

/-- The line and the column of a pixel are read off its addresses. -/
theorem FbInfo.Valid.place (hdst : dst.Valid) {a : Int} (hx : 0 ≤ x) (hx' : x < dst.width)
    (h : dst.OfPixel x y a) : a / dst.pitch = y ∧ a % dst.pitch / dst.pixelSize = x ∧
      a % dst.pitch < dst.width * dst.pixelSize := by
  obtain ⟨k, hk, hk', rfl⟩ := h
  have hpos := hdst.supported.size_pos
  have hpitch := hdst.pitch
  have hnonneg : 0 ≤ x * dst.pixelSize := Int.mul_nonneg hx (Int.le_of_lt hpos)
  have hoffset : x * dst.pixelSize + k < dst.width * dst.pixelSize := by
    have hle := Int.mul_le_mul_of_nonneg_right (show x + 1 ≤ dst.width by omega)
      (Int.le_of_lt hpos)
    rw [Int.add_mul, Int.one_mul] at hle
    omega
  have hmod : (y * dst.pitch + x * dst.pixelSize + k) % dst.pitch = x * dst.pixelSize + k := by
    rw [Int.add_assoc, Int.add_comm, Int.add_mul_emod_self_right]
    exact Int.emod_eq_of_lt (by omega) (by omega)
  refine ⟨?_, ?_, hmod ▸ hoffset⟩
  · rw [Int.add_assoc, Int.mul_comm y, Int.mul_add_ediv_left _ _ (by omega),
      Int.ediv_eq_zero_of_lt (by omega) (by omega), Int.add_zero]
  · rw [hmod, Int.mul_comm x, Int.mul_add_ediv_left _ _ (by omega),
      Int.ediv_eq_zero_of_lt hk hk', Int.add_zero]

/-- An address in or after a line is that of a byte of a pixel when it is at such a place of the
line where it falls. -/
theorem pixel_byte_iff (hdst : dst.Valid) (hwidth : 0 < dst.width) {t : Int} (hy : 0 ≤ y)
    (ht : 0 ≤ t) : dst.PixelByte (y * dst.pitch + t) ↔
      t % dst.pitch < dst.width * dst.pixelSize ∧ y + t / dst.pitch < dst.height := by
  have hpos := hdst.supported.size_pos
  have hpitch : 0 < dst.pitch := Int.lt_of_lt_of_le (Int.mul_pos hwidth hpos) hdst.pitch
  have hline : y * dst.pitch + t = (y + t / dst.pitch) * dst.pitch + t % dst.pitch := by
    rw [Int.add_mul, Int.add_assoc, Int.mul_comm (t / dst.pitch), Int.mul_ediv_add_emod]
  constructor
  · rintro ⟨px, py, hpx, hpx', hpy, hpy', hof⟩
    obtain ⟨hdiv, -, hmod⟩ := hdst.place hpx hpx' hof
    rw [Int.add_comm, Int.add_mul_emod_self_right] at hmod
    rw [Int.mul_comm y, Int.mul_add_ediv_left _ _ (by omega)] at hdiv
    exact ⟨hmod, by omega⟩
  · rintro ⟨hmod, hdiv⟩
    rw [hline]
    exact pixel_byte_of_offset hdst.supported
      (Int.add_nonneg hy (Int.ediv_nonneg ht (Int.le_of_lt hpitch))) hdiv
      (Int.emod_nonneg _ (Int.ne_of_gt hpitch)) hmod

/-- The opacity of a pixel of a region of `src`. -/
def blitAlpha (src : Fb) (reg : FbRegion) (i j : Int) : UInt8 :=
  src.data ((reg.y + i) * src.geom.pitch + reg.x * 4 + 4 * j + 3)

/-- From RGBA32 to RGB24, the line that is stored in has bytes of pixels where the pixels of `src`
that are not transparent go. -/
def BlitStays (dst : FbInfo) (x y : Int) (src : Fb) (reg : FbRegion) : Prop :=
  src.geom.memoryModel = fbMmRgba32 → dst.memoryModel = fbMmRgb24 → Blits dst x y src.geom reg →
    ∀ i j k, 0 ≤ i → i < (blitPart dst x y src.geom reg).h → 0 ≤ j →
      j < (blitPart dst x y src.geom reg).w → 0 ≤ k → k < 3 → blitAlpha src reg i j ≠ 0 →
      (x * 4 + 3 * j + k) % dst.pitch < dst.width * 3 ∧
        y + i + (x * 4 + 3 * j + k) / dst.pitch < dst.height

/-- The addresses of the stores from RGBA32 to RGB24. -/
def BlitByte24 (dst : FbInfo) (x y : Int) (src : Fb) (reg : FbRegion) (a : Int) : Prop :=
  ∃ i j k, 0 ≤ i ∧ i < reg.h ∧ 0 ≤ j ∧ j < reg.w ∧ 0 ≤ k ∧ k < 3 ∧ blitAlpha src reg i j ≠ 0 ∧
    a = (y + i) * dst.pitch + (x * 4 + 3 * j + k)

section

variable (hsrc : src.geom.memoryModel = fbMmRgba32)

include hsrc

theorem blit_lines24 (hdst : dst.memoryModel = fbMmRgb24) : blitLines dst x y src reg =
      forRange 0 reg.h fun i => forRange 0 reg.w fun j =>
        blitPixel 3 ((y + i) * dst.pitch + x * 4 + 3 * j) fun k =>
          src.data ((reg.y + i) * src.geom.pitch + reg.x * 4 + 4 * j + k) := by
  funext s
  have hrgb32 : ¬(src.geom.memoryModel = fbMmRgba32 ∧ dst.memoryModel = fbMmRgb32) := fun h =>
    absurd (hdst.symm.trans h.2) (by decide)
  rw [blitLines, if_neg (fun h => h.2.1 hsrc), if_neg hrgb32, if_pos ⟨hsrc, hdst⟩]

theorem writes_blit_lines24 (hdst : dst.memoryModel = fbMmRgb24) :
    Writes (BlitByte24 dst x y src reg) (blitLines dst x y src reg) := by
  rw [blit_lines24 hsrc hdst]
  refine Writes.forRange fun i hi hi' => Writes.forRange fun j hj hj' => ?_
  refine (writes_blit_pixel (Int.le_refl 3)).mono fun a ha => ?_
  obtain ⟨halpha, k, hk, hk', rfl⟩ := ha
  exact ⟨i, j, k, hi, hi', hj, hj', hk, hk', halpha, by omega⟩

theorem hits_blit_lines24
    (hdst : dst.memoryModel = fbMmRgb24) {a : Int} (ha : BlitByte24 dst x y src reg a) :
    Hits a (blitLines dst x y src reg) := by
  have htrue : ∀ {p px}, Writes (fun _ => True) (blitPixel 3 p px) :=
    (writes_blit_pixel (Int.le_refl 3)).mono fun _ _ => trivial
  obtain ⟨i, j, k, hi, hi', hj, hj', hk, hk', halpha, rfl⟩ := ha
  rw [blit_lines24 hsrc hdst]
  refine Hits.forRange (fun _ => Writes.forRange fun _ _ _ => htrue) hi hi' ?_
  refine Hits.forRange (fun _ => htrue) hj hj' ?_
  have haddress : (y + i) * dst.pitch + (x * 4 + 3 * j + k) =
      (y + i) * dst.pitch + x * 4 + 3 * j + k := by omega
  rw [haddress]
  exact hits_blit_pixel (Int.le_refl 3) halpha hk hk'

end

/-- In every other case the stores stay in the pixels. -/
theorem writes_blit_lines (hdst : dst.Supported) (hsrc : src.geom.Supported)
    (hother : ¬(src.geom.memoryModel = fbMmRgba32 ∧ dst.memoryModel = fbMmRgb24)) (hx : 0 ≤ x)
    (hy : 0 ≤ y) (hw : x + reg.w ≤ dst.width) (hh : y + reg.h ≤ dst.height) :
    Writes dst.PixelByte (blitLines dst x y src reg) := by
  refine Writes.ite (fun hmodel => ?_) fun _ => Writes.ite (fun hmodel => ?_) fun _ =>
    Writes.ite (fun hmodel => absurd hmodel hother) fun _ => writes_id
  · have hbpp : src.geom.bpp = dst.bpp := models_depth _ hsrc _ hdst hmodel.1
    refine Writes.forRange fun i hi hi' => writes_memcpy_to fun k hk hk' => ?_
    rw [hbpp] at hk'
    rw [Int.add_assoc]
    refine pixel_byte_of_offset hdst (by omega) (by omega) ?_ ?_
    all_goals
      rcases hdst.depths with ⟨hd, hsize⟩ | ⟨hd, hsize⟩ | ⟨hd, hsize⟩ | ⟨hd, hsize⟩ | ⟨hd, hsize⟩
      all_goals
        rw [hd] at hk'
        rw [hd]
        try rw [hsize]
        omega
  · refine Writes.forRange fun i hi hi' => Writes.forRange fun j hj hj' => ?_
    refine (writes_blit_pixel (show (3 : Int) ≤ 4 by omega)).mono fun a ha => ?_
    obtain ⟨-, k, hk, hk', rfl⟩ := ha
    rw [Int.add_assoc, Int.add_assoc]
    refine pixel_byte_of_offset hdst (by omega) (by omega) (by omega) ?_
    rw [hdst.rgb32 hmodel.2]
    omega

theorem blit_part_inside (dst : FbInfo) (x y : Int) (src : FbInfo) (reg : FbRegion) :
    x + (blitPart dst x y src reg).w ≤ dst.width ∧
      y + (blitPart dst x y src reg).h ≤ dst.height := by
  unfold blitPart
  dsimp only
  omega

theorem blit_stays_iff (hdst : dst.Valid) (hsrc : src.geom.Supported) {data : Int → UInt8} :
    (∀ a ∈ (gBlitRegion dst x y src reg ⟨data, []⟩).written, dst.PixelByte a) ↔
      BlitStays dst x y src reg := by
  rw [g_blit_region_eq]
  by_cases hblits : Blits dst x y src.geom reg
  · rw [if_pos hblits]
    have hpart := hblits
    obtain ⟨hx, hy, -, -, hw, hh⟩ := hpart
    obtain ⟨hwidth, hheight⟩ := blit_part_inside dst x y src.geom reg
    by_cases hmodels : src.geom.memoryModel = fbMmRgba32 ∧ dst.memoryModel = fbMmRgb24
    · have hbyte : ∀ i j k, 0 ≤ i → 0 ≤ j → 0 ≤ k →
          (dst.PixelByte ((y + i) * dst.pitch + (x * 4 + 3 * j + k)) ↔
            (x * 4 + 3 * j + k) % dst.pitch < dst.width * 3 ∧
              y + i + (x * 4 + 3 * j + k) / dst.pitch < dst.height) := by
        intro i j k hi hj hk
        rw [pixel_byte_iff hdst (by omega) (by omega) (by omega), hdst.supported.rgb24 hmodels.2]
      constructor
      · intro hall _ _ _ i j k hi hi' hj hj' hk hk' halpha
        refine (hbyte i j k hi hj hk).mp (hall _ ?_)
        exact hits_blit_lines24 hmodels.1 hmodels.2
          ⟨i, j, k, hi, hi', hj, hj', hk, hk', halpha, rfl⟩ _
      · intro hstays a ha
        obtain ⟨i, j, k, hi, hi', hj, hj', hk, hk', halpha, rfl⟩ :=
          (writes_blit_lines24 hmodels.1 hmodels.2).mem ha
        exact (hbyte i j k hi hj hk).mpr
          (hstays hmodels.1 hmodels.2 hblits i j k hi hi' hj hj' hk hk' halpha)
    · refine iff_of_true (fun a ha => ?_) fun hrgba hrgb => absurd ⟨hrgba, hrgb⟩ hmodels
      exact (writes_blit_lines hdst.supported hsrc hmodels hx hy hwidth hheight).mem ha
  · rw [if_neg hblits]
    exact iff_of_true nofun fun _ _ h => absurd h hblits

theorem writes_blit_region (hdst : dst.Supported) (hsrc : src.geom.Supported) :
    Writes (fun _ => True) (gBlitRegion dst x y src reg) := by
  intro s
  rw [g_blit_region_eq]
  by_cases hblits : Blits dst x y src.geom reg
  · rw [if_pos hblits]
    by_cases hmodels : src.geom.memoryModel = fbMmRgba32 ∧ dst.memoryModel = fbMmRgb24
    · exact ((writes_blit_lines24 hmodels.1 hmodels.2).mono fun _ _ => trivial) s
    · obtain ⟨hwidth, hheight⟩ := blit_part_inside dst x y src.geom reg
      exact ((writes_blit_lines hdst hsrc hmodels hblits.1 hblits.2.1 hwidth hheight).mono
        fun _ _ => trivial) s
  · rw [if_neg hblits]
    exact writes_id s

end Blit

section Lines

variable {fb : FbInfo} {x y w h : Int} {c : Color}

theorem hits_put_pixel (hfb : fb.Supported) :
    Hits (y * fb.pitch + x * fb.pixelSize) (putPixel fb x y c) := by
  have hpos := hfb.size_pos
  rw [put_pixel_eq hfb.hasDepth]
  exact hits_store_bytes (Int.le_refl _) (by rw [color_bytes_length hfb.hasDepth]; omega)

theorem of_pixel_first (hfb : fb.Supported) :
    fb.OfPixel x y (y * fb.pitch + x * fb.pixelSize) :=
  ⟨0, Int.le_refl 0, hfb.size_pos, (Int.add_zero _).symm⟩

/-- A line that is not cut is stored in the row below the bottom. -/
theorem vline_leaves (hfb : fb.Valid) (hleaves : ¬VlineStays fb x y h) :
    ∃ a, ¬fb.PixelByte a ∧ Hits a (gVline fb x y h c) := by
  simp only [VlineStays, not_forall, Int.not_lt] at hleaves
  obtain ⟨hx, hx', hy, hbelow, huncut⟩ := hleaves
  refine ⟨fb.height * fb.pitch + x * fb.pixelSize, ?_, ?_⟩
  · rintro ⟨px, py, hpx, hpx', hpy, hpy', hof⟩
    have hrow := (hfb.place hpx hpx' hof).1
    rw [(hfb.place hx hx' (of_pixel_first hfb.supported)).1] at hrow
    omega
  · rw [funext (g_vline_eq fb x y h c)]
    intro s
    dsimp only
    rw [if_pos ⟨hx, hx', hy⟩, vlineEnd, if_neg (by omega)]
    refine Hits.forRange (P := fun _ => True) (fun v => ?_) (by omega) hbelow
      (hits_put_pixel hfb.supported) s
    exact (writes_put_pixel hfb.supported).mono fun _ _ => trivial

theorem vline_stays_iff (hfb : fb.Valid) {data : Int → UInt8} :
    (∀ a ∈ (gVline fb x y h c ⟨data, []⟩).written, fb.PixelByte a) ↔ VlineStays fb x y h := by
  constructor
  · intro hall
    by_contra hleaves
    obtain ⟨a, hout, hhits⟩ := vline_leaves (c := c) hfb hleaves
    exact hout (hall a (hhits _))
  · exact fun hstays a ha => (writes_vline hfb.supported hstays).mem ha

/-- Of a rectangle it is the two vertical sides that can leave the pixels. -/
theorem rect_stays_iff (hfb : fb.Valid) {data : Int → UInt8} :
    (∀ a ∈ (gRect fb x y w h c ⟨data, []⟩).written, fb.PixelByte a) ↔
      VlineStays fb x y h ∧ VlineStays fb (x + w - 1) y h := by
  have hline : ∀ {y}, Writes fb.PixelByte (gHline fb x y w c) := writes_hline hfb.supported
  constructor
  · intro hall
    constructor
    · by_contra hleaves
      obtain ⟨a, hout, hhits⟩ := vline_leaves (c := c) hfb hleaves
      exact hout (hall a ((hhits.comp_left (writes_vline_anywhere hfb.supported)) _))
    · by_contra hleaves
      obtain ⟨a, hout, hhits⟩ := vline_leaves (c := c) hfb hleaves
      exact hout (hall a (hhits _))
  · rintro ⟨hleft, hright⟩ a ha
    have hsides := (writes_vline hfb.supported (c := c) hleft).comp
      (writes_vline hfb.supported (c := c) hright)
    exact ((hline.comp hline).comp hsides).mem ha

theorem writes_rect_anywhere (hfb : fb.Supported) :
    Writes (fun _ => True) (gRect fb x y w h c) := by
  have hline : ∀ {y}, Writes (fun _ => True) (gHline fb x y w c) :=
    (writes_hline hfb).mono fun _ _ => trivial
  exact ((hline.comp hline).comp (writes_vline_anywhere hfb)).comp (writes_vline_anywhere hfb)

end Lines

/-- A call of one of the drawing functions. -/
inductive Drawing
  | plot (x y : Int) (c : Color)
  | hline (x y w : Int) (c : Color)
  | vline (x y h : Int) (c : Color)
  | rect (x y w h : Int) (c : Color)
  | fillrect (x y w h : Int) (c : Color)
  | blit (x y : Int) (src : Fb)
  | blitRegion (x y : Int) (src : Fb) (reg : FbRegion)
  | write (x y : Int) (text : List UInt8) (font : Font) (size : Int) (c : Color)

namespace Drawing

/-- The call, on a framebuffer. -/
def run (fb : FbInfo) : Drawing → Board → Board
  | plot x y c => gPlot fb x y c
  | hline x y w c => gHline fb x y w c
  | vline x y h c => gVline fb x y h c
  | rect x y w h c => gRect fb x y w h c
  | fillrect x y w h c => gFillrect fb x y w h c
  | blit x y src => gBlit fb x y src
  | blitRegion x y src reg => gBlitRegion fb x y src reg
  | write x y text font size c => gWrite fb x y text font size c

/-- A framebuffer that is read from has a supported depth. -/
def SrcSupported : Drawing → Prop
  | blit _ _ src => src.geom.Supported
  | blitRegion _ _ src _ => src.geom.Supported
  | _ => True

/-- A vertical line and a blit stay in the pixels. -/
def Stays (fb : FbInfo) : Drawing → Prop
  | vline x y h _ => VlineStays fb x y h
  | rect x y w h _ => VlineStays fb x y h ∧ VlineStays fb (x + w - 1) y h
  | blit x y src => BlitStays fb x y src ⟨0, 0, src.geom.width, src.geom.height⟩
  | blitRegion x y src reg => BlitStays fb x y src reg
  | _ => True

end Drawing

section Drawings

variable {fb : FbInfo} {d : Drawing} {data : Int → UInt8}

theorem writes_drawing (hfb : fb.Supported) (hsrc : d.SrcSupported) :
    Writes (fun _ => True) (d.run fb) := by
  have htrue : ∀ {f}, Writes fb.PixelByte f → Writes (fun _ => True) f := fun h =>
    h.mono fun _ _ => trivial
  cases d with
  | plot x y c => exact htrue (writes_plot hfb)
  | hline x y w c => exact htrue (writes_hline hfb)
  | vline x y h c => exact writes_vline_anywhere hfb
  | rect x y w h c => exact writes_rect_anywhere hfb
  | fillrect x y w h c => exact htrue (writes_fillrect hfb)
  | blit x y src => exact writes_blit_region hfb hsrc
  | blitRegion x y src reg => exact writes_blit_region hfb hsrc
  | write x y text font size c => exact htrue (writes_region_write hfb)

/-- A call changes only what it stores, and it stores only bytes of pixels exactly when the vertical
lines in it and a blit from RGBA32 to RGB24 stay in them. -/
theorem draw_stays_iff (hfb : fb.Valid) (hsrc : d.SrcSupported) :
    (∀ a, a ∉ (d.run fb ⟨data, []⟩).written → (d.run fb ⟨data, []⟩).data a = data a) ∧
      ((∀ a ∈ (d.run fb ⟨data, []⟩).written, fb.PixelByte a) ↔ d.Stays fb) := by
  refine ⟨fun a ha => (writes_drawing hfb.supported hsrc).data_of_not_mem ha, ?_⟩
  have halways : Writes fb.PixelByte (d.run fb) →
      ∀ a ∈ (d.run fb ⟨data, []⟩).written, fb.PixelByte a := fun hwrites a ha => hwrites.mem ha
  cases d with
  | plot x y c => exact iff_of_true (halways (writes_plot hfb.supported)) trivial
  | hline x y w c => exact iff_of_true (halways (writes_hline hfb.supported)) trivial
  | vline x y h c => exact vline_stays_iff hfb
  | rect x y w h c => exact rect_stays_iff hfb
  | fillrect x y w h c => exact iff_of_true (halways (writes_fillrect hfb.supported)) trivial
  | blit x y src => exact blit_stays_iff hfb hsrc
  | blitRegion x y src reg => exact blit_stays_iff hfb hsrc
  | write x y text font size c =>
      exact iff_of_true (halways (writes_region_write hfb.supported)) trivial

/-- A rectangle over the upper left corner of four by two pixels. -/
theorem draw_stays_rectangle :
    ((Drawing.fillrect (-1) (-1) 3 2 0).run ⟨4, 2, 16, 32, fbMmRgb32⟩ ⟨fun _ => 0xFF, []⟩).data 20 =
        0xFF ∧
      ((∀ a ∈ ((Drawing.fillrect (-1) (-1) 3 2 0).run ⟨4, 2, 16, 32, fbMmRgb32⟩
        ⟨fun _ => 0xFF, []⟩).written, FbInfo.PixelByte ⟨4, 2, 16, 32, fbMmRgb32⟩ a) ↔ True) := by
  have hvalid : FbInfo.Valid ⟨4, 2, 16, 32, fbMmRgb32⟩ :=
    ⟨by unfold FbInfo.Supported; decide, by decide⟩
  obtain ⟨hkept, hstays⟩ := @draw_stays_iff ⟨4, 2, 16, 32, fbMmRgb32⟩
    (.fillrect (-1) (-1) 3 2 0) (fun _ => 0xFF) hvalid trivial
  refine ⟨hkept 20 fun hmem => ?_, hstays⟩
  have hwritten : ((Drawing.fillrect (-1) (-1) 3 2 0).run ⟨4, 2, 16, 32, fbMmRgb32⟩
      ⟨fun _ => 0xFF, []⟩).written = [0, 1, 2, 3, 4, 5, 6, 7] := rfl
  rw [hwritten] at hmem
  exact absurd hmem (by simp)

/-- One opaque pixel at the right edge of a framebuffer of two pixels, which has six bytes: the
last of its channels is stored at the seventh. -/
theorem blit_leaves_framebuffer :
    ¬ ∀ a ∈ ((Drawing.blit 1 0 ⟨⟨1, 1, 4, 32, fbMmRgba32⟩, fun _ => 0xFF⟩).run
      ⟨2, 1, 6, 24, fbMmRgb24⟩ ⟨fun _ => 0, []⟩).written,
      FbInfo.PixelByte ⟨2, 1, 6, 24, fbMmRgb24⟩ a := by
  intro hall
  have hwritten : ((Drawing.blit 1 0 ⟨⟨1, 1, 4, 32, fbMmRgba32⟩, fun _ => 0xFF⟩).run
      ⟨2, 1, 6, 24, fbMmRgb24⟩ ⟨fun _ => 0, []⟩).written = [4, 5, 6] := rfl
  rw [hwritten] at hall
  obtain ⟨x, y, hx, hx', hy, hy', k, hk, hk', ha⟩ := hall 6 (by simp)
  change x < 2 at hx'
  change y < 1 at hy'
  change k < 3 at hk'
  change 6 = y * 6 + x * 3 + k at ha
  omega

end Drawings

end Kogata.User
