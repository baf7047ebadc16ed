import Kogata.Lib.Stores

/-!
# Drawing

The drawing functions of `lib/libkogata/draw.c`. A function is given the geometry of a framebuffer
and stores bytes at addresses that are counted from the framebuffer's `data`. Coordinates are
integers without a bound.
-/

namespace Kogata.User

open Lib.Stores

/-- `fb_info_t`. -/
structure FbInfo where
  width : Int
  height : Int
  pitch : Int
  bpp : Int
  memoryModel : Int
  deriving DecidableEq

/-- `fb_region_t`. -/
structure FbRegion where
  x : Int
  y : Int
  w : Int
  h : Int
  deriving DecidableEq

/-- A framebuffer that is read from. -/
structure Fb where
  geom : FbInfo
  data : Int → UInt8

abbrev fbMmRgb15 : Int := 1
abbrev fbMmBgr15 : Int := 2
abbrev fbMmRgb16 : Int := 3
abbrev fbMmBgr16 : Int := 4
abbrev fbMmRgb24 : Int := 5
abbrev fbMmBgr24 : Int := 6
abbrev fbMmRgb32 : Int := 7
abbrev fbMmBgr32 : Int := 8
abbrev fbMmGrey8 : Int := 10
abbrev fbMmRgba32 : Int := 20
abbrev fbMmGa16 : Int := 21

/-- `color_t`. -/
abbrev Color : Type := UInt32

/-- A store of the two low bytes of a colour. -/
def plot16 (a : Int) (c : Color) (s : Board) : Board :=
  (s.store a c.toUInt8).store (a + 1) (c >>> 8).toUInt8

/-- `g_plot24`. -/
def gPlot24 (a : Int) (c : Color) (s : Board) : Board :=
  ((s.store a c.toUInt8).store (a + 1) (c >>> 8).toUInt8).store (a + 2) (c >>> 16).toUInt8

/-- A store of the four bytes of a colour. -/
def plot32 (a : Int) (c : Color) (s : Board) : Board :=
  (gPlot24 a c s).store (a + 3) (c >>> 24).toUInt8

/-- What each primitive does with a pixel, by the depth. -/
def putPixel (fb : FbInfo) (x y : Int) (c : Color) (s : Board) : Board :=
  if fb.bpp = 8 then s.store (y * fb.pitch + x) c.toUInt8
  else if fb.bpp = 15 ∨ fb.bpp = 16 then plot16 (y * fb.pitch + 2 * x) c s
  else if fb.bpp = 24 then gPlot24 (y * fb.pitch + 3 * x) c s
  else if fb.bpp = 32 then plot32 (y * fb.pitch + 4 * x) c s
  else s

/-- `g_plot`. -/
def gPlot (fb : FbInfo) (x y : Int) (c : Color) (s : Board) : Board :=
  if x < 0 ∨ y < 0 ∨ x ≥ fb.width ∨ y ≥ fb.height then s else putPixel fb x y c s

/-- `g_region_plot`. -/
def gRegionPlot (fb : FbInfo) (reg : FbRegion) (x y : Int) (c : Color) (s : Board) : Board :=
  if x < 0 ∨ y < 0 ∨ x ≥ reg.w ∨ y ≥ reg.h then s else gPlot fb (x + reg.x) (y + reg.y) c s

/-- `if (x < 0) w = w + x, x = 0;` -/
def clipLow (x w : Int) : Int × Int := if x < 0 then (0, w + x) else (x, w)

/-- `g_hline`. -/
def gHline (fb : FbInfo) (x y w : Int) (c : Color) (s : Board) : Board :=
  let (x, w) := clipLow x w
  if x ≥ fb.width then s
  else if x + w < 0 then s
  else
    let w := if x + w > fb.width then fb.width - x else w
    if y < 0 ∨ y ≥ fb.height then s
    else if w ≤ 0 then s
    else forRange x (x + w)
      (fun u => putPixel fb u y (if fb.bpp = 32 then c ||| 0xFF000000 else c)) s

/-- `g_region_hline`. -/
def gRegionHline (fb : FbInfo) (reg : FbRegion) (x y w : Int) (c : Color) (s : Board) : Board :=
  let (x, w) := clipLow x w
  if x ≥ reg.w then s
  else if x + w < 0 then s
  else
    let w := if x + w > reg.w then reg.w - x else w
    if y < 0 ∨ y ≥ reg.h then s
    else if w ≤ 0 then s
    else gHline fb (reg.x + x) (reg.y + y) w c s

/-- `g_vline`. The end of the line is compared with the width. -/
def gVline (fb : FbInfo) (x y h : Int) (c : Color) (s : Board) : Board :=
  let (y, h) := clipLow y h
  if y ≥ fb.height then s
  else if y + h < 0 then s
  else
    let h := if y + h > fb.width then fb.height - y else h
    if x < 0 ∨ x ≥ fb.width then s
    else if h ≤ 0 then s
    else forRange y (y + h) (fun v => putPixel fb x v c) s

/-- `g_region_vline`. -/
def gRegionVline (fb : FbInfo) (reg : FbRegion) (x y h : Int) (c : Color) (s : Board) : Board :=
  let (y, h) := clipLow y h
  if y ≥ reg.h then s
  else if y + h < 0 then s
  else
    let h := if y + h > reg.h then reg.h - y else h
    if x < 0 ∨ x ≥ reg.w then s
    else if h ≤ 0 then s
    else gVline fb (reg.x + x) (reg.y + y) h c s

/-- `g_rect`. -/
def gRect (fb : FbInfo) (x y w h : Int) (c : Color) (s : Board) : Board :=
  let s := gHline fb x y w c s
  let s := gHline fb x (y + h - 1) w c s
  let s := gVline fb x y h c s
  gVline fb (x + w - 1) y h c s

/-- `g_region_rect`. -/
def gRegionRect (fb : FbInfo) (reg : FbRegion) (x y w h : Int) (c : Color) (s : Board) : Board :=
  let s := gRegionHline fb reg x y w c s
  let s := gRegionHline fb reg x (y + h - 1) w c s
  let s := gRegionVline fb reg x y h c s
  gRegionVline fb reg (x + w - 1) y h c s

/-- `g_fillrect`. -/
def gFillrect (fb : FbInfo) (x y w h : Int) (c : Color) (s : Board) : Board :=
  let (x, w) := clipLow x w
  let (y, h) := clipLow y h
  let w := if x + w > fb.width then fb.width - x else w
  let h := if y + h > fb.height then fb.height - y else h
  if w ≤ 0 ∨ h ≤ 0 then s
  else forRange y (y + h) (fun v => forRange x (x + w) fun u => putPixel fb u v c) s

/-- `g_region_fillrect`. -/
def gRegionFillrect (fb : FbInfo) (reg : FbRegion) (x y w h : Int) (c : Color) (s : Board) :
    Board :=
  let (x, w) := clipLow x w
  let (y, h) := clipLow y h
  let w := if x + w > reg.w then reg.w - x else w
  let h := if y + h > reg.h then reg.h - y else h
  if w ≤ 0 ∨ h ≤ 0 then s else gFillrect fb (x + reg.x) (y + reg.y) w h c s

/-- `memcpy` of `n` bytes that are read from another framebuffer. -/
def memcpyTo (a n : Int) (bytes : Int → UInt8) (s : Board) : Board :=
  forRange 0 n (fun k s => s.store (a + k) (bytes k)) s

/-- A channel of a pixel that is drawn over another with the opacity `a`. -/
def mixChannel (a old new : UInt8) : UInt8 :=
  UInt8.ofNat (((0x100 - a.toNat) * old.toNat + a.toNat * new.toNat) % 65536 / 256)

/-- The three channels at `p` are mixed with those of a pixel. -/
def mixPixel (a : UInt8) (p : Int) (px : Int → UInt8) (s : Board) : Board :=
  let r := mixChannel a (s.data p) (px 0)
  let g := mixChannel a (s.data (p + 1)) (px 1)
  let b := mixChannel a (s.data (p + 2)) (px 2)
  ((s.store p r).store (p + 1) g).store (p + 2) b

/-- A pixel of `g_blit_region` from RGBA32 to a framebuffer with `n` bytes for each pixel. -/
def blitPixel (n p : Int) (px : Int → UInt8) (s : Board) : Board :=
  let a := px 3
  if a = 0xFF then memcpyTo p n px s
  else if a > 0 then mixPixel a p px s
  else s

/-- The memory models between which `g_blit_region` copies. -/
def Copies (dst src : FbInfo) : Prop :=
  src.memoryModel = dst.memoryModel ∧ src.memoryModel ≠ fbMmRgba32 ∧ src.memoryModel ≠ fbMmGa16

instance (dst src : FbInfo) : Decidable (Copies dst src) := inferInstanceAs (Decidable (_ ∧ _))

/-- `g_blit_region`, after the clipping. -/
def blitLines (dst : FbInfo) (x y : Int) (src : Fb) (reg : FbRegion) (s : Board) : Board :=
  if Copies dst src.geom then
    forRange 0 reg.h (fun i =>
      memcpyTo ((y + i) * dst.pitch + x * (dst.bpp / 8)) (reg.w * (src.geom.bpp / 8)) fun k =>
        src.data ((reg.y + i) * src.geom.pitch + reg.x * (src.geom.bpp / 8) + k)) s
  else if src.geom.memoryModel = fbMmRgba32 ∧ dst.memoryModel = fbMmRgb32 then
    forRange 0 reg.h (fun i => forRange 0 reg.w fun j =>
      blitPixel 4 ((y + i) * dst.pitch + x * 4 + 4 * j) fun k =>
        src.data ((reg.y + i) * src.geom.pitch + reg.x * 4 + 4 * j + k)) s
  else if src.geom.memoryModel = fbMmRgba32 ∧ dst.memoryModel = fbMmRgb24 then
    forRange 0 reg.h (fun i => forRange 0 reg.w fun j =>
      blitPixel 3 ((y + i) * dst.pitch + x * 4 + 3 * j) fun k =>
        src.data ((reg.y + i) * src.geom.pitch + reg.x * 4 + 4 * j + k)) s
  else s

/-- `g_blit_region`. -/
def gBlitRegion (dst : FbInfo) (x y : Int) (src : Fb) (reg : FbRegion) (s : Board) : Board :=
  if x < 0 ∨ y < 0 ∨ reg.x < 0 ∨ reg.y < 0 ∨ reg.w < 0 ∨ reg.h < 0 then s
  else
    let reg := if reg.x + reg.w > src.geom.width then { reg with w := src.geom.width - reg.x }
      else reg
    let reg := if reg.y + reg.h > src.geom.height then { reg with h := src.geom.height - reg.y }
      else reg
    if reg.w ≤ 0 ∨ reg.h ≤ 0 then s
    else
      let reg := if x + reg.w > dst.width then { reg with w := dst.width - x } else reg
      let reg := if y + reg.h > dst.height then { reg with h := dst.height - y } else reg
      if reg.w ≤ 0 ∨ reg.h ≤ 0 then s else blitLines dst x y src reg s

/-- `g_blit`. -/
def gBlit (dst : FbInfo) (x y : Int) (src : Fb) (s : Board) : Board :=
  gBlitRegion dst x y src ⟨0, 0, src.geom.width, src.geom.height⟩ s

/-- `g_region_blit_region`. -/
def gRegionBlitRegion (dst : FbInfo) (reg : FbRegion) (x y : Int) (src : Fb) (r : FbRegion)
    (s : Board) : Board :=
  let r := if x + r.w > reg.w then { r with w := reg.w - x } else r
  let r := if y + r.h > reg.h then { r with h := reg.h - y } else r
  gBlitRegion dst (x + reg.x) (y + reg.y) src r s

/-- `g_region_blit`. -/
def gRegionBlit (dst : FbInfo) (reg : FbRegion) (x y : Int) (src : Fb) (s : Board) : Board :=
  gRegionBlitRegion dst reg x y src ⟨0, 0, src.geom.width, src.geom.height⟩ s

/-- `g_scroll_up`. -/
def gScrollUp (dst : FbInfo) (l : Int) (s : Board) : Board :=
  forRange 0 (dst.height - l) (fun y s =>
    memcpyTo (y * dst.pitch) dst.pitch (fun k => s.data ((y + l) * dst.pitch + k)) s) s

/-- A glyph as `stb_truetype` gives it: its place from the start of the line and the opacities of
`w` times `h` pixels. -/
structure Glyph where
  x0 : Int
  y0 : Int
  w : Int
  h : Int
  tmp : Int → UInt8

/-- `font_t`. The glyphs of a text at a size are what `stb_truetype` answers. -/
inductive Font
  | asciiBitmap (data : List UInt8) (cw ch : UInt8) (nchars : UInt32)
  | stbtt (glyphs : List UInt8 → Int → List Glyph)

/-- A character of a bitmap font. -/
def writeChar (fb : FbInfo) (reg : FbRegion) (x y : Int) (d : Int → UInt8) (ch : UInt8) (c : Color)
    (s : Board) : Board :=
  forRange 0 ch.toNat (fun r s =>
    let yy := y + reg.y + r
    if y + r ≥ reg.h ∨ yy ≥ fb.height then s
    else forRange 0 8 (fun j s =>
      let xx := x + reg.x + j
      if x + j ≥ reg.w ∨ xx ≥ fb.width then s
      else if (d r).toNat.testBit (7 - j).toNat then gPlot fb xx yy c s
      else s) s) s

/-- A text in a bitmap font. -/
def writeBitmap (fb : FbInfo) (reg : FbRegion) (y : Int) (data : List UInt8) (cw ch : UInt8)
    (nchars : UInt32) (c : Color) : Int → List UInt8 → Board → Board
  | _, [], s => s
  | x, id :: text, s =>
      let s := if id.toNat < nchars.toNat then
          writeChar fb reg x y (fun r => data.getD (id.toNat * ch.toNat + r.toNat) 0) ch c s
        else s
      writeBitmap fb reg y data cw ch nchars c (x + cw.toNat) text s

/-- A pixel of a glyph. -/
def glyphPixel (a : UInt8) (p : Int) (c : Color) (s : Board) : Board :=
  if a = 0xFF then gPlot24 p c s
  else if a > 0 then
    mixPixel a p (fun k => if k = 0 then c.toUInt8 else if k = 1 then (c >>> 8).toUInt8
      else (c >>> 16).toUInt8) s
  else s

/-- A glyph. -/
def writeGlyph (fb : FbInfo) (reg : FbRegion) (x y size : Int) (c : Color) (g : Glyph) (s : Board) :
    Board :=
  if fb.memoryModel = fbMmRgb32 ∨ fb.memoryModel = fbMmRgb24 then
    let sx := if fb.memoryModel = fbMmRgb32 then 4 else 3
    forRange 0 g.h (fun i s =>
      let yy := y + size + g.y0 + i
      if yy < 0 ∨ yy ≥ reg.h ∨ yy + reg.y < 0 ∨ yy + reg.y ≥ fb.height then s
      else forRange 0 g.w (fun j s =>
        let xx := x + g.x0 + j
        if xx < 0 ∨ xx ≥ reg.w ∨ xx + reg.x < 0 ∨ xx + reg.x ≥ fb.width then s
        else
          glyphPixel (g.tmp (i * g.w + j)) ((yy + reg.y) * fb.pitch + sx * (xx + reg.x)) c s) s) s
  else s

/-- `g_region_write`. -/
def gRegionWrite (fb : FbInfo) (reg : FbRegion) (x y : Int) (text : List UInt8) (font : Font)
    (size : Int) (c : Color) (s : Board) : Board :=
  match font with
  | .asciiBitmap data cw ch nchars => writeBitmap fb reg y data cw ch nchars c x text s
  | .stbtt glyphs => (glyphs text size).foldl (fun s g => writeGlyph fb reg x y size c g s) s

/-- `g_write`. -/
def gWrite (fb : FbInfo) (x y : Int) (text : List UInt8) (font : Font) (size : Int) (c : Color)
    (s : Board) : Board :=
  gRegionWrite fb ⟨0, 0, fb.width, fb.height⟩ x y text font size c s

end Kogata.User
