import Kogata.User.DrawBounds

/-!
# Blits, pixel by pixel

`g_blit_region` as a copy of pixels. What becomes of every byte of the destination is `BlitChange`,
which the code meets but in two cases: it takes two pixels of 15 bits for as many bytes as one has,
and for a destination of RGB24 it multiplies the column by four (`blit_region_iff`).
-/

namespace Kogata.User

open Lib.Stores

/-- A byte of a pixel. -/
def Fb.pixel (src : Fb) (u v k : Int) : UInt8 :=
  src.data (v * src.geom.pitch + u * src.geom.pixelSize + k)

/-- The memory models between which `g_blit_region` draws. -/
def BlitModels (dst src : FbInfo) : Prop :=
  Copies dst src ∨ src.memoryModel = fbMmRgba32 ∧
    (dst.memoryModel = fbMmRgb32 ∨ dst.memoryModel = fbMmRgb24)

/-- What becomes of a byte of a pixel on which another pixel is drawn: it is that of the other one,
or it is mixed with it by the opacity. -/
def blitByte (dst src : FbInfo) (px : Int → UInt8) (k : Int) (old : UInt8) : UInt8 :=
  if Copies dst src ∨ px 3 = 0xFF then px k
  else if 0 < px 3 ∧ k < 3 then mixChannel (px 3) old (px k)
  else old

/-- The bytes of the pixels at `(x, y)` on which those of a region of `src` are drawn. -/
def BlitChange (dst : FbInfo) (x y : Int) (src : Fb) (reg : FbRegion) (a : Int)
    (e : UInt8 → UInt8) : Prop :=
  ∃ i, 0 ≤ i ∧ i < reg.h ∧ ∃ j, 0 ≤ j ∧ j < reg.w ∧ ∃ k, 0 ≤ k ∧ k < dst.pixelSize ∧
    a = (y + i) * dst.pitch + (x + j) * dst.pixelSize + k ∧
      e = blitByte dst src.geom (src.pixel (reg.x + j) (reg.y + i)) k

/-- The pixels of the clipped rectangle are drawn, and nothing else changes. -/
def BlitRight (dst : FbInfo) (x y : Int) (src : Fb) (reg : FbRegion) : Prop :=
  Maps (BlitChange dst x y src (blitPart dst x y src.geom reg)) (gBlitRegion dst x y src reg)

/-- Nothing depends on bytes that are not of the image that is drawn. -/
def BlitReads (dst : FbInfo) (x y : Int) (src : FbInfo) (reg : FbRegion) : Prop :=
  ∀ data data' : Int → UInt8, (∀ a, src.PixelByte a → data a = data' a) →
    gBlitRegion dst x y ⟨src, data⟩ reg = gBlitRegion dst x y ⟨src, data'⟩ reg

/-- If anything is drawn, it is not between framebuffers of 15 bits, and to RGB24 only from the
first column on. -/
def BlitExact (dst : FbInfo) (x y : Int) (src : FbInfo) (reg : FbRegion) : Prop :=
  Blits dst x y src reg → (Copies dst src → dst.bpp ≠ 15) ∧
    (src.memoryModel = fbMmRgba32 → dst.memoryModel = fbMmRgb24 → x = 0)

section Pieces

variable {p n : Int} {bytes bytes' px px' : Int → UInt8}

theorem maps_memcpy_to : Maps (fun a e => ∃ k, 0 ≤ k ∧ k < n ∧ a = p + k ∧ e = fun _ => bytes k)
    (memcpyTo p n bytes) := by
  refine Maps.forRange (fun k _ _ => maps_store) ?_
  rintro u u' b e e' hne - - - - ⟨rfl, -⟩ ⟨hb, -⟩
  omega

/-- Three channels are mixed with what they were. -/
theorem maps_mix_pixel (a : UInt8) : Maps
    (fun b e => ∃ k, 0 ≤ k ∧ k < 3 ∧ b = p + k ∧ e = fun old => mixChannel a old (px k))
    (mixPixel a p px) := by
  intro s b
  have hdata : (mixPixel a p px s).data b =
      if b = p + 2 then mixChannel a (s.data (p + 2)) (px 2)
      else if b = p + 1 then mixChannel a (s.data (p + 1)) (px 1)
      else if b = p then mixChannel a (s.data p) (px 0) else s.data b := by
    simp only [mixPixel, Board.store, Function.update_apply]
  rw [hdata]
  constructor
  · rintro e ⟨k, hk, hk', rfl, rfl⟩
    have hcases : k = 0 ∨ k = 1 ∨ k = 2 := by omega
    rcases hcases with rfl | rfl | rfl
    · rw [if_neg (by omega), if_neg (by omega), if_pos (Int.add_zero p), Int.add_zero]
    · rw [if_neg (by omega), if_pos rfl]
    · rw [if_pos rfl]
  · intro hnot
    have hout : ∀ k, 0 ≤ k → k < 3 → b ≠ p + k := fun k hk hk' heq =>
      hnot _ ⟨k, hk, hk', heq, rfl⟩
    rw [if_neg (hout 2 (by omega) (by omega)), if_neg (hout 1 (by omega) (by omega)),
      if_neg fun heq => hout 0 (by omega) (by omega) (heq.trans (Int.add_zero p).symm)]

/-- A pixel of RGBA32 is drawn on one of `n` bytes. -/
theorem maps_blit_pixel {dst src : FbInfo} (hmodels : ¬Copies dst src) (hn : 3 ≤ n) :
    Maps (fun a e => ∃ k, 0 ≤ k ∧ k < n ∧ a = p + k ∧ e = blitByte dst src px k)
      (blitPixel n p px) := by
  intro s b
  unfold blitPixel
  dsimp only
  by_cases hsolid : px 3 = 0xFF
  · rw [if_pos hsolid]
    have hcopy : ∀ k, blitByte dst src px k = fun _ => px k :=
      fun k => funext fun _ => if_pos (.inr hsolid)
    simp only [hcopy]
    exact maps_memcpy_to s b
  · rw [if_neg hsolid]
    have hneither : ¬(Copies dst src ∨ px 3 = 0xFF) := not_or.mpr ⟨hmodels, hsolid⟩
    by_cases hpos : 0 < px 3
    · rw [if_pos hpos]
      obtain ⟨hmix, hother⟩ := (maps_mix_pixel (px 3) : Maps _ (mixPixel (px 3) p px)) s b
      have hchannel : ∀ k, k < 3 →
          blitByte dst src px k = fun old => mixChannel (px 3) old (px k) :=
        fun k hk => funext fun _ => by rw [blitByte, if_neg hneither, if_pos ⟨hpos, hk⟩]
      constructor
      · rintro e ⟨k, hk, hk', rfl, rfl⟩
        by_cases hlow : k < 3
        · rw [hchannel k hlow]
          exact hmix _ ⟨k, hk, hlow, rfl, rfl⟩
        · rw [hother fun e ⟨k', _, hk', heq, _⟩ => hlow (by omega), blitByte, if_neg hneither,
            if_neg fun h => hlow h.2]
      · intro hnot
        refine hother fun e ⟨k, hk, hk', heq, _⟩ => ?_
        exact hnot _ ⟨k, hk, by omega, heq, rfl⟩
    · rw [if_neg hpos]
      refine ⟨?_, fun _ => rfl⟩
      rintro e ⟨k, -, -, -, rfl⟩
      rw [blitByte, if_neg hneither, if_neg fun h => hpos h.1]

end Pieces

section Rows

variable {dst : FbInfo} {x y : Int} {src : Fb} {reg : FbRegion}

/-- The part of a region that is drawn lies in the image. -/
theorem blit_part_source (dst : FbInfo) (x y : Int) (src : FbInfo) (reg : FbRegion) :
    reg.x + (blitPart dst x y src reg).w ≤ src.width ∧
      reg.y + (blitPart dst x y src reg).h ≤ src.height := by
  unfold blitPart
  dsimp only
  omega

/-- A change on one line of the region. -/
def BlitLine (dst : FbInfo) (x y : Int) (src : Fb) (reg : FbRegion) (i a : Int)
    (e : UInt8 → UInt8) : Prop :=
  ∃ j, 0 ≤ j ∧ j < reg.w ∧ ∃ k, 0 ≤ k ∧ k < dst.pixelSize ∧
    a = (y + i) * dst.pitch + (x + j) * dst.pixelSize + k ∧
      e = blitByte dst src.geom (src.pixel (reg.x + j) (reg.y + i)) k

/-- Line for line. -/
theorem maps_rows (hdst : dst.Valid) (hx : 0 ≤ x) (hw : x + reg.w ≤ dst.width)
    {row : Int → Board → Board} (hrow : ∀ i, 0 ≤ i → i < reg.h →
      Maps (BlitLine dst x y src reg i) (row i)) :
    Maps (BlitChange dst x y src reg) (forRange 0 reg.h row) := by
  refine Maps.forRange hrow ?_
  rintro u u' b e e' hne - - - - ⟨j, hj, hj', k, hk, hk', hb, -⟩ ⟨l, hl, hl', m, hm, hm', hb', -⟩
  have hline := (hdst.place (y := y + u) (x := x + j) (by omega) (by omega) ⟨k, hk, hk', hb⟩).1
  have hother := (hdst.place (y := y + u') (x := x + l) (by omega) (by omega) ⟨m, hm, hm', hb'⟩).1
  omega

/-- Pixel for pixel. -/
theorem maps_pixels (hdst : dst.Valid) (hx : 0 ≤ x) (hw : x + reg.w ≤ dst.width) {i : Int}
    {pixel : Int → Board → Board} (hpixel : ∀ j, 0 ≤ j → j < reg.w →
      Maps (fun a e => ∃ k, 0 ≤ k ∧ k < dst.pixelSize ∧
        a = (y + i) * dst.pitch + (x + j) * dst.pixelSize + k ∧
          e = blitByte dst src.geom (src.pixel (reg.x + j) (reg.y + i)) k) (pixel j)) :
    Maps (BlitLine dst x y src reg i)
      (forRange 0 reg.w pixel) := by
  refine Maps.forRange hpixel ?_
  rintro u u' b e e' hne hu hu' hv hv' ⟨k, hk, hk', hb, -⟩ ⟨m, hm, hm', hb', -⟩
  have hcolumn := (hdst.place (y := y + i) (x := x + u) (by omega) (by omega) ⟨k, hk, hk', hb⟩).2.1
  have hother := (hdst.place (y := y + i) (x := x + u') (by omega) (by omega) ⟨m, hm, hm', hb'⟩).2.1
  omega

/-- A line that is copied, where a pixel has as many bytes as `bpp / 8` says. -/
theorem maps_copied_row (hmodels : Copies dst src.geom) (hsize : 0 < dst.pixelSize)
    (hsrc : src.geom.pixelSize = dst.pixelSize) (i : Int) :
    Maps (BlitLine dst x y src reg i)
      (memcpyTo ((y + i) * dst.pitch + x * dst.pixelSize) (reg.w * dst.pixelSize) fun k =>
        src.data ((reg.y + i) * src.geom.pitch + reg.x * dst.pixelSize + k)) := by
  have hcopy : ∀ j k, blitByte dst src.geom (src.pixel (reg.x + j) (reg.y + i)) k = fun _ =>
      src.data ((reg.y + i) * src.geom.pitch + reg.x * dst.pixelSize +
        (j * dst.pixelSize + k)) := by
    intro j k
    funext old
    rw [blitByte, if_pos (.inl hmodels), Fb.pixel, hsrc, Int.add_mul reg.x j]
    exact congrArg src.data (by omega)
  refine maps_memcpy_to.congr fun a e => ⟨?_, ?_⟩
  · rintro ⟨t, ht, ht', rfl, rfl⟩
    have hdivide := Int.mul_ediv_add_emod t dst.pixelSize
    rw [Int.mul_comm] at hdivide
    refine ⟨t / dst.pixelSize, Int.ediv_nonneg ht (Int.le_of_lt hsize),
      Int.ediv_lt_of_lt_mul hsize ht', t % dst.pixelSize, Int.emod_nonneg _ (Int.ne_of_gt hsize),
      Int.emod_lt_of_pos _ hsize, ?_, ?_⟩
    · rw [Int.add_mul x (t / dst.pixelSize)]
      omega
    · rw [hcopy, hdivide]
  · rintro ⟨j, hj, hj', k, hk, hk', rfl, rfl⟩
    have hfront := Int.mul_nonneg hj (Int.le_of_lt hsize)
    have hend := Int.mul_le_mul_of_nonneg_right (show j + 1 ≤ reg.w by omega) (Int.le_of_lt hsize)
    rw [Int.add_mul, Int.one_mul] at hend
    refine ⟨j * dst.pixelSize + k, by omega, by omega, ?_, hcopy j k⟩
    rw [Int.add_mul x j]
    omega

/-- A line of pixels of RGBA32, where the column is at as many bytes for each pixel as there are. -/
theorem maps_mixed_row (hdst : dst.Valid) (hx : 0 ≤ x) (hw : x + reg.w ≤ dst.width)
    (hmodels : ¬Copies dst src.geom) (hsrc : src.geom.pixelSize = 4) (hsize : 3 ≤ dst.pixelSize)
    (hcolumn : x * 4 = x * dst.pixelSize) (i : Int) :
    Maps (BlitLine dst x y src reg i)
      (forRange 0 reg.w fun j =>
        blitPixel dst.pixelSize ((y + i) * dst.pitch + x * 4 + dst.pixelSize * j) fun k =>
          src.data ((reg.y + i) * src.geom.pitch + reg.x * 4 + 4 * j + k)) := by
  refine maps_pixels hdst hx hw fun j _ _ => ?_
  have hread : (fun k => src.data ((reg.y + i) * src.geom.pitch + reg.x * 4 + 4 * j + k)) =
      src.pixel (reg.x + j) (reg.y + i) := by
    funext k
    rw [Fb.pixel, hsrc]
    exact congrArg src.data (by omega)
  have hplace : (y + i) * dst.pitch + x * 4 + dst.pixelSize * j =
      (y + i) * dst.pitch + (x + j) * dst.pixelSize := by
    rw [hcolumn, Int.add_mul x j, Int.mul_comm dst.pixelSize j, Int.add_assoc]
  rw [hread, hplace]
  exact maps_blit_pixel hmodels hsize

end Rows

section Right

variable {dst : FbInfo} {x y : Int} {src : Fb} {reg : FbRegion}

theorem FbInfo.Supported.rgba32 {fb : FbInfo} (h : fb.Supported)
    (hmodel : fb.memoryModel = fbMmRgba32) : fb.pixelSize = 4 := by
  have hmem : (fbMmRgba32, (32 : Int)) ∈ FbInfo.models := by simp [FbInfo.models]
  rw [FbInfo.pixelSize, h.depth_of_model hmem hmodel]
  rfl

/-- The lines are drawn right. -/
theorem maps_blit_lines (hdst : dst.Valid) (hsrc : src.geom.Supported)
    (hmodels : BlitModels dst src.geom) (hx : 0 ≤ x) (hw : x + reg.w ≤ dst.width)
    (hdepth : Copies dst src.geom → dst.bpp ≠ 15)
    (hleft : src.geom.memoryModel = fbMmRgba32 → dst.memoryModel = fbMmRgb24 → x = 0) :
    Maps (BlitChange dst x y src reg) (blitLines dst x y src reg) := by
  rcases hmodels with hcopies | ⟨hrgba, hrgb⟩
  · have hbpp : src.geom.bpp = dst.bpp := models_depth _ hsrc _ hdst.supported hcopies.1
    have hsize : dst.bpp / 8 = dst.pixelSize := by
      have hnot := hdepth hcopies
      rcases hdst.supported.depths with h | h | h | h | h <;> omega
    have hsame : src.geom.pixelSize = dst.pixelSize := by
      rw [FbInfo.pixelSize, FbInfo.pixelSize, hbpp]
    have hlines : blitLines dst x y src reg = forRange 0 reg.h fun i =>
        memcpyTo ((y + i) * dst.pitch + x * dst.pixelSize) (reg.w * dst.pixelSize) fun k =>
          src.data ((reg.y + i) * src.geom.pitch + reg.x * dst.pixelSize + k) := by
      funext s
      rw [blitLines, if_pos hcopies, hbpp, hsize]
    rw [hlines]
    exact maps_rows hdst hx hw fun i _ _ =>
      maps_copied_row hcopies hdst.supported.size_pos hsame i
  · have hno : ¬Copies dst src.geom := fun h => h.2.1 hrgba
    rcases hrgb with hrgb32 | hrgb24
    · have hsize := hdst.supported.rgb32 hrgb32
      have hlines : blitLines dst x y src reg = forRange 0 reg.h fun i => forRange 0 reg.w fun j =>
          blitPixel dst.pixelSize ((y + i) * dst.pitch + x * 4 + dst.pixelSize * j) fun k =>
            src.data ((reg.y + i) * src.geom.pitch + reg.x * 4 + 4 * j + k) := by
        funext s
        rw [blitLines, if_neg hno, if_pos ⟨hrgba, hrgb32⟩, hsize]
      rw [hlines]
      exact maps_rows hdst hx hw fun i _ _ =>
        maps_mixed_row hdst hx hw hno (hsrc.rgba32 hrgba) (by omega) (by rw [hsize]) i
    · have hsize := hdst.supported.rgb24 hrgb24
      have hlines : blitLines dst x y src reg = forRange 0 reg.h fun i => forRange 0 reg.w fun j =>
          blitPixel dst.pixelSize ((y + i) * dst.pitch + x * 4 + dst.pixelSize * j) fun k =>
            src.data ((reg.y + i) * src.geom.pitch + reg.x * 4 + 4 * j + k) := by
        rw [blit_lines24 hrgba hrgb24, hsize]
      rw [hlines]
      exact maps_rows hdst hx hw fun i _ _ =>
        maps_mixed_row hdst hx hw hno (hsrc.rgba32 hrgba) (by omega)
          (by rw [hleft hrgba hrgb24, Int.zero_mul, Int.zero_mul]) i

theorem blit_region_drawn (hblits : Blits dst x y src.geom reg) :
    gBlitRegion dst x y src reg = blitLines dst x y src (blitPart dst x y src.geom reg) :=
  funext fun s => (g_blit_region_eq s).trans (if_pos hblits)

theorem blit_region_empty (hblits : ¬Blits dst x y src.geom reg) :
    gBlitRegion dst x y src reg = id :=
  funext fun s => (g_blit_region_eq s).trans (if_neg hblits)

theorem blit_right_of_exact (hdst : dst.Valid) (hsrc : src.geom.Supported)
    (hmodels : BlitModels dst src.geom) (hx : 0 ≤ x) (hy : 0 ≤ y) (hrx : 0 ≤ reg.x)
    (hry : 0 ≤ reg.y) (hexact : BlitExact dst x y src.geom reg) : BlitRight dst x y src reg := by
  unfold BlitRight
  by_cases hblits : Blits dst x y src.geom reg
  · rw [blit_region_drawn hblits]
    exact maps_blit_lines hdst hsrc hmodels hx (blit_part_inside dst x y src.geom reg).1
      (hexact hblits).1 (hexact hblits).2
  · rw [blit_region_empty hblits]
    intro s a
    refine ⟨?_, fun _ => rfl⟩
    rintro e ⟨i, hi, hi', j, hj, hj', -⟩
    exact absurd ⟨hx, hy, hrx, hry, Int.lt_of_le_of_lt hj hj', Int.lt_of_le_of_lt hi hi'⟩ hblits

end Right

section Wrong

variable {dst : FbInfo} {x y : Int} {geom : FbInfo} {reg : FbRegion}

/-- A white opaque image, of which a byte that should be drawn is not stored. -/
theorem blit_wrong {P : Int → Prop} {i j k : Int}
    (hwrites : Writes P (gBlitRegion dst x y ⟨geom, fun _ => 255⟩ reg)) (hi : 0 ≤ i)
    (hi' : i < (blitPart dst x y geom reg).h) (hj : 0 ≤ j)
    (hj' : j < (blitPart dst x y geom reg).w) (hk : 0 ≤ k) (hk' : k < dst.pixelSize)
    (hout : ¬P ((y + i) * dst.pitch + (x + j) * dst.pixelSize + k)) :
    ¬BlitRight dst x y ⟨geom, fun _ => 255⟩ reg := by
  intro hright
  have hdrawn := (hright ⟨fun _ => 0, []⟩ _).1 _ ⟨i, hi, hi', j, hj, hj', k, hk, hk', rfl, rfl⟩
  rw [hwrites.data_outside hout, blitByte, if_pos (.inr rfl)] at hdrawn
  cases hdrawn

/-- Of pixels of 15 bits half the bytes of a line are copied. -/
theorem blit_wrong15 (hdst : dst.Valid) (hsrc : geom.Supported) (hblits : Blits dst x y geom reg)
    (hcopies : Copies dst geom) (hdepth : dst.bpp = 15) :
    ¬BlitRight dst x y ⟨geom, fun _ => 255⟩ reg := by
  have hpart := hblits
  obtain ⟨hx, hy, -, -, hw, hh⟩ := hpart
  have hright := (blit_part_inside dst x y geom reg).1
  have hsize : dst.pixelSize = 2 := by
    rw [FbInfo.pixelSize, hdepth]
    rfl
  have hbpp : geom.bpp = 15 := (models_depth _ hsrc _ hdst.supported hcopies.1).trans hdepth
  have hwrites : Writes (fun a => ∃ i k, 0 ≤ k ∧ k < (blitPart dst x y geom reg).w ∧
      a = (y + i) * dst.pitch + (x + k)) (gBlitRegion dst x y ⟨geom, fun _ => 255⟩ reg) := by
    have hdrawn : gBlitRegion dst x y ⟨geom, fun _ => 255⟩ reg = _ := blit_region_drawn hblits
    rw [hdrawn]
    refine Writes.ite (fun _ => ?_) fun hno => absurd hcopies hno
    refine Writes.forRange fun i hi hi' => writes_memcpy_to fun k hk hk' => ?_
    dsimp only at hk'
    rw [hbpp] at hk'
    rw [hdepth]
    exact ⟨i, k, hk, by omega, by omega⟩
  refine blit_wrong hwrites (Int.le_refl 0) hh (show 0 ≤ (blitPart dst x y geom reg).w - 1 by omega)
    (by omega) (show (0 : Int) ≤ 1 by omega) (by omega) ?_
  rintro ⟨i, k, hk, hk', heq⟩
  rw [hsize] at heq
  -- the two addresses are in the same line, and the one that is stored is too far to the left
  have hcolumn : 0 ≤ x + ((blitPart dst x y geom reg).w - 1) := by omega
  have hline := (hdst.place (y := y + 0) hcolumn (by omega) ⟨1, by omega, by omega, rfl⟩).1
  have hhalf := (hdst.place (y := y + i) (show 0 ≤ (x + k) / 2 by omega) (by omega)
    ⟨(x + k) % 2, by omega, by omega, rfl⟩).1
  have hsame : (y + i) * dst.pitch + (x + k) / 2 * dst.pixelSize + (x + k) % 2 =
      (y + i) * dst.pitch + (x + k) := by
    rw [hsize]
    omega
  rw [hsame, ← heq] at hhalf
  rw [hsize] at hline
  have hrow : y + i = y + 0 := hhalf.symm.trans hline
  rw [hrow] at heq
  omega

/-- The first byte of a line that starts too far to the right is not stored. -/
theorem blit_wrong24 (hdst : dst.Valid) (hblits : Blits dst x y geom reg)
    (hrgba : geom.memoryModel = fbMmRgba32) (hrgb : dst.memoryModel = fbMmRgb24) (hx : x ≠ 0) :
    ¬BlitRight dst x y ⟨geom, fun _ => 255⟩ reg := by
  have hpart := hblits
  obtain ⟨hx', -, -, -, hw, hh⟩ := hpart
  have hsize := hdst.supported.rgb24 hrgb
  have hright := (blit_part_inside dst x y geom reg).1
  have hpitch := hdst.pitch
  rw [hsize] at hpitch
  have hwrites : Writes (BlitByte24 dst x y ⟨geom, fun _ => 255⟩ (blitPart dst x y geom reg))
      (gBlitRegion dst x y ⟨geom, fun _ => 255⟩ reg) := by
    have hdrawn : gBlitRegion dst x y ⟨geom, fun _ => 255⟩ reg = _ := blit_region_drawn hblits
    rw [hdrawn]
    exact writes_blit_lines24 hrgba hrgb
  refine blit_wrong hwrites (Int.le_refl 0) hh (Int.le_refl 0) hw (Int.le_refl 0) (by omega) ?_
  rintro ⟨i, j, k, hi, -, hj, -, hk, -, -, heq⟩
  have hbelow := Int.mul_nonneg hi (show 0 ≤ dst.pitch by omega)
  rw [hsize, Int.add_mul y i, Int.add_zero y] at heq
  omega

end Wrong

section Reads

variable {dst : FbInfo} {x y p n : Int} {geom : FbInfo} {reg : FbRegion}
  {data data' bytes bytes' px px' : Int → UInt8}

theorem memcpy_to_congr (h : ∀ k, 0 ≤ k → k < n → bytes k = bytes' k) :
    memcpyTo p n bytes = memcpyTo p n bytes' := by
  funext s
  exact for_range_congr (fun k hk hk' => by rw [h k hk hk']) s

theorem blit_pixel_congr (hn : n ≤ 4) (h : ∀ k, 0 ≤ k → k < 4 → px k = px' k) :
    blitPixel n p px = blitPixel n p px' := by
  have hcopy : memcpyTo p n px = memcpyTo p n px' :=
    memcpy_to_congr fun k hk hk' => h k hk (by omega)
  have hmix : mixPixel (px' 3) p px = mixPixel (px' 3) p px' := by
    funext s
    rw [mixPixel, mixPixel, h 0 (by omega) (by omega), h 1 (by omega) (by omega),
      h 2 (by omega) (by omega)]
  funext s
  unfold blitPixel
  dsimp only
  rw [hcopy, h 3 (by omega) (by omega), hmix]

/-- What is drawn of an image that has the region depends on bytes of the image only. -/
theorem blit_lines_congr (hsrc : geom.Supported) (hrx : 0 ≤ reg.x) (hry : 0 ≤ reg.y)
    (hw : reg.x + reg.w ≤ geom.width) (hh : reg.y + reg.h ≤ geom.height)
    (h : ∀ a, geom.PixelByte a → data a = data' a) (s : Board) :
    blitLines dst x y ⟨geom, data⟩ reg s = blitLines dst x y ⟨geom, data'⟩ reg s := by
  -- a place of a line, counted from its start
  have hline : ∀ i t, 0 ≤ i → i < reg.h → 0 ≤ t → t < geom.width * geom.pixelSize →
      data ((reg.y + i) * geom.pitch + t) = data' ((reg.y + i) * geom.pitch + t) :=
    fun i t hi hi' ht ht' => h _ (pixel_byte_of_offset hsrc (by omega) (by omega) ht ht')
  have hpixel : geom.memoryModel = fbMmRgba32 → ∀ i j n p, 0 ≤ i → i < reg.h → 0 ≤ j → j < reg.w →
      n ≤ 4 → blitPixel n p (fun k => data ((reg.y + i) * geom.pitch + reg.x * 4 + 4 * j + k)) =
        blitPixel n p fun k => data' ((reg.y + i) * geom.pitch + reg.x * 4 + 4 * j + k) := by
    intro hrgba i j n p hi hi' hj hj' hn
    refine blit_pixel_congr hn fun k hk hk' => ?_
    have hplace : (reg.y + i) * geom.pitch + reg.x * 4 + 4 * j + k =
        (reg.y + i) * geom.pitch + (reg.x * 4 + 4 * j + k) := by omega
    rw [hplace]
    exact hline i _ hi hi' (by omega) (by rw [hsrc.rgba32 hrgba]; omega)
  unfold blitLines
  dsimp only
  split
  · refine for_range_congr (fun i hi hi' => memcpy_to_congr fun k hk hk' => ?_) s
    rw [Int.add_assoc]
    refine hline i _ hi hi' ?_ ?_
    all_goals
      rcases hsrc.depths with ⟨hd, hsize⟩ | ⟨hd, hsize⟩ | ⟨hd, hsize⟩ | ⟨hd, hsize⟩ | ⟨hd, hsize⟩
      all_goals
        rw [hd] at hk'
        rw [hd]
        try rw [hsize]
        omega
  · split
    · next hmodels =>
        refine for_range_congr (fun i hi hi' => funext fun s => ?_) s
        exact for_range_congr (fun j hj hj' =>
          hpixel hmodels.1 i j 4 _ hi hi' hj hj' (Int.le_refl 4)) s
    · split
      · next hmodels =>
          refine for_range_congr (fun i hi hi' => funext fun s => ?_) s
          exact for_range_congr (fun j hj hj' =>
            hpixel hmodels.1 i j 3 _ hi hi' hj hj' (by omega)) s
      · rfl

theorem blit_reads (hsrc : geom.Supported) : BlitReads dst x y geom reg := by
  intro data data' h
  funext s
  rw [g_blit_region_eq, g_blit_region_eq]
  dsimp only
  split
  · next hblits =>
      obtain ⟨-, -, hrx, hry, -, -⟩ := hblits
      obtain ⟨hw, hh⟩ := blit_part_source dst x y geom reg
      exact blit_lines_congr hsrc (show 0 ≤ (blitPart dst x y geom reg).x from hrx) hry hw hh h s
  · rfl

end Reads

end Kogata.User
