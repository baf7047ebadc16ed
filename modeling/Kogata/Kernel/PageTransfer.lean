import Kogata.Kernel.PageData

/-!
# Copying between a buffer and the pages of a pager

What `pager_do_rw` does inside the pager, on a board: a read gives the bytes that the pages hold, a
write changes just these, and both return whatever fails (`yields_pager_do_rw`).
-/

namespace Kogata.Kernel

open Lib.Effect Lib.Mask Lib.Word

variable {W : Type}

/-- The pages in which a range of bytes lies. -/
abbrev spanPages (offset len : UInt32) : List UInt32 :=
  pagesOf (pageAlignDown offset) (offset + len - pageAlignDown offset)

/-- A range of bytes inside a pager. -/
structure Stretch (offset len size : UInt32) : Prop where
  inside : offset.toNat + len.toNat ≤ size.toNat
  whole : size.toNat ≤ 0xFFFFF000

namespace Stretch

variable {offset len size : UInt32} (h : Stretch offset len size)

include h

theorem region_len_toNat :
    (offset + len - pageAlignDown offset).toNat = offset.toNat % 4096 + len.toNat := by
  have hdown := page_align_down_toNat offset
  have hinside := h.inside
  have hwhole := h.whole
  rw [UInt32.toNat_sub, UInt32.toNat_add, hdown]
  omega

theorem end_toNat : (pageAlignDown offset + (offset + len - pageAlignDown offset)).toNat =
    offset.toNat + len.toNat := by
  have hinside := h.inside
  have hwhole := h.whole
  rw [UInt32.add_comm, UInt32.sub_add_cancel, UInt32.toNat_add]
  omega

theorem steps_eq : pageSteps (pageAlignDown offset) (offset + len - pageAlignDown offset) =
    (offset.toNat % 4096 + len.toNat + 4095) / 4096 := by
  unfold pageSteps
  rw [h.end_toNat, page_align_down_toNat]
  omega

theorem wrap_eq :
    pagesWrap (pageAlignDown offset) (offset + len - pageAlignDown offset) = false := by
  have hinside := h.inside
  have hwhole := h.whole
  have hdown := page_align_down_toNat offset
  simp only [pagesWrap, h.steps_eq, decide_eq_false_iff_not, hdown]
  omega

/-- The page at an index of the range. -/
theorem page_toNat {k : Nat} (hk : k < (offset.toNat % 4096 + len.toNat + 4095) / 4096) :
    (pageAlignDown offset + UInt32.ofNat k * pageSize).toNat =
      offset.toNat / 4096 * 4096 + k * 4096 := by
  have hinside := h.inside
  have hwhole := h.whole
  have hsize : pageSize.toNat = 4096 := rfl
  rw [UInt32.toNat_add, UInt32.toNat_mul, UInt32.toNat_ofNat', page_align_down_toNat, hsize]
  omega

/-- The pages of the range, by their index. -/
theorem mem_pages {page : UInt32} :
    page ∈ spanPages offset len ↔
      ∃ k < (offset.toNat % 4096 + len.toNat + 4095) / 4096,
        page = pageAlignDown offset + UInt32.ofNat k * pageSize := by
  simp only [pagesOf, h.steps_eq, List.mem_map, List.mem_range]
  exact exists_congr fun k => and_congr_right fun _ => eq_comm

/-- The pages of the range begin inside the pager. -/
theorem page_inside {page : UInt32}
    (hpage : page ∈ spanPages offset len) :
    page < size ∧ page.toNat + 4096 < 2 ^ 32 := by
  obtain ⟨k, hk, rfl⟩ := h.mem_pages.mp hpage
  have hinside := h.inside
  have hwhole := h.whole
  rw [UInt32.lt_iff_toNat_lt, h.page_toNat hk]
  omega

/-- A page with a byte of the range is among them. -/
theorem mem_of_byte {page : UInt32} {j : Nat} (haligned : pageAligned page = true) (hj : j < 4096)
    (hle : offset.toNat ≤ page.toNat + j) (hlt : page.toNat + j < offset.toNat + len.toNat) :
    page ∈ spanPages offset len := by
  have hdown := page_align_down_toNat offset
  have hpage := page_aligned_iff.mp haligned
  refine mem_pages_of_aligned (page_align_down_aligned offset) haligned ?_ ?_
  · rw [UInt32.le_iff_toNat_le, hdown]
    omega
  · rw [UInt32.lt_iff_toNat_lt, h.end_toNat]
    omega

end Stretch

/-- A range of bytes inside a pager, and a region that its pages fit into. -/
structure Span (offset len size region : UInt32) : Prop extends Stretch offset len size where
  fits : fitsKernel region (pageAlignUp (offset + len - pageAlignDown offset)) = true

namespace Span

variable {offset len size region : UInt32} (h : Span offset len size region)

include h

/-- The region is made of whole pages of the kernel half. -/
theorem region_fits : region.toNat % 4096 = 0 ∧
    region.toNat + (offset.toNat % 4096 + len.toNat + 4095) / 4096 * 4096 ≤ 0xFFC00000 := by
  have hlen := h.region_len_toNat
  have hinside := h.inside
  have hwhole := h.whole
  have hfits := h.fits
  simp only [fitsKernel, Bool.and_eq_true, decide_eq_true_eq, page_aligned_iff,
    page_align_up_toNat, hlen] at hfits
  obtain ⟨⟨haligned, -⟩, hbound⟩ := hfits
  change _ ≤ 0xFFC00000 at hbound
  exact ⟨haligned, by omega⟩

/-- The page of the region at an index. -/
theorem region_page {k : Nat} (hk : k < (offset.toNat % 4096 + len.toNat + 4095) / 4096) :
    pageNo (region + (pageAlignDown offset + UInt32.ofNat k * pageSize) - pageAlignDown offset) =
      pageNo region + k := by
  obtain ⟨haligned, hfits⟩ := h.region_fits
  have hpage := h.page_toNat hk
  have hdown := page_align_down_toNat offset
  have hlt := offset.toNat_lt
  have hinside := h.inside
  have hwhole := h.whole
  unfold pageNo
  rw [UInt32.toNat_sub, UInt32.toNat_add, hpage, hdown]
  omega

theorem region_pages_nodup :
    ((spanPages offset len).map fun page =>
      pageNo (region + page - pageAlignDown offset)).Nodup := by
  rw [spanPages, pagesOf, List.map_map]
  refine List.Nodup.map_on (fun k hk k' hk' heq => ?_) List.nodup_range
  rw [List.mem_range, h.steps_eq] at hk hk'
  have hleft := h.region_page hk
  have hright := h.region_page hk'
  simp only [Function.comp_apply] at heq
  omega

/-- Where the bytes are in the region. -/
theorem start_toNat :
    (region + offset - pageAlignDown offset).toNat = region.toNat + offset.toNat % 4096 := by
  obtain ⟨haligned, hfits⟩ := h.region_fits
  have hdown := page_align_down_toNat offset
  have hlt := offset.toNat_lt
  rw [UInt32.toNat_sub, UInt32.toNat_add, hdown]
  omega

end Span

section Transfer

variable {p : PagerId} {content : Nat → UInt8} {s t s' : Vm (Board W)} {m : Machine W}
  {d : Backing W} {offset len size region : UInt32}

/-- The pages of a range have their frames in the region. -/
def SpanMapped (p : PagerId) (offset len region : UInt32) (s t : Vm (Board W)) : Prop :=
  ∀ page ∈ spanPages offset len,
    (s.pager p).pages page ≠ 0 ∧
      t.world.MapsTo (pageNo (region + page - pageAlignDown offset)) (s.frameAt p page)

/-- The page at an index of a range. -/
def spanPage (offset : UInt32) (k : Nat) : UInt32 :=
  pageAlignDown offset + UInt32.ofNat k * pageSize

/-- The bytes of the range are a window on the frames of its pages. -/
theorem SpanMapped.window (h : SpanMapped p offset len region s t) (hspan : Span offset len size region)
    (hs : Holds p content s) : Window t.world (region + offset - pageAlignDown offset) len.toNat
      fun no => s.frameAt p (spanPage offset (no - pageNo region)) := by
  obtain ⟨haligned, hfits⟩ := hspan.region_fits
  have hstart := hspan.start_toNat
  -- The page of a byte, by its index.
  have hindex : ∀ i < len.toNat,
      ((region + offset - pageAlignDown offset).toNat + i) / 4096 - pageNo region =
        (offset.toNat % 4096 + i) / 4096 ∧
      ((region + offset - pageAlignDown offset).toNat + i) / 4096 =
        pageNo region + (offset.toNat % 4096 + i) / 4096 ∧
      (offset.toNat % 4096 + i) / 4096 < (offset.toNat % 4096 + len.toNat + 4095) / 4096 := by
    intro i hi
    unfold pageNo
    omega
  have hmem : ∀ i < len.toNat, spanPage offset ((offset.toNat % 4096 + i) / 4096) ∈
      spanPages offset len :=
    fun i hi => hspan.mem_pages.mpr ⟨_, (hindex i hi).2.2, rfl⟩
  refine ⟨by omega, fun i hi => ?_, fun i hi k hk heq => ?_⟩
  · rw [(hindex i hi).1, (hindex i hi).2.1]
    have hmaps := (h _ (hmem i hi)).2
    rwa [spanPage, hspan.region_page (hindex i hi).2.2] at hmaps
  · rw [(hindex i hi).1, (hindex k hk).1] at heq
    have hpage := congrArg UInt32.toNat
      (hs.distinct _ _ (h _ (hmem i hi)).1 (h _ (hmem k hk)).1 heq)
    rw [spanPage, spanPage, hspan.page_toNat (hindex i hi).2.2, hspan.page_toNat (hindex k hk).2.2]
      at hpage
    rw [(hindex i hi).2.1, (hindex k hk).2.1]
    omega

/-- What is read through the region. -/
theorem SpanMapped.load (h : SpanMapped p offset len region s t) (hspan : Span offset len size region)
    (hs : Holds p content s) (hram : t.world.ram = s.world.ram) :
    (board m d).loadBytes (region + offset - pageAlignDown offset) len t.world =
      (List.range len.toNat).map fun i => content (offset.toNat + i) := by
  obtain ⟨haligned, hfits⟩ := hspan.region_fits
  have hstart := hspan.start_toNat
  refine List.map_congr_left fun i hi => ?_
  rw [List.mem_range] at hi
  refine ((h.window hspan hs).byte_at hi).trans ?_
  have hk : (offset.toNat % 4096 + i) / 4096 < (offset.toNat % 4096 + len.toNat + 4095) / 4096 := by
    omega
  have hindex : ((region + offset - pageAlignDown offset).toNat + i) / 4096 - pageNo region =
      (offset.toNat % 4096 + i) / 4096 := by
    unfold pageNo
    omega
  have hthere := (h _ (hspan.mem_pages.mpr ⟨_, hk, rfl⟩)).1
  rw [hram, hindex, spanPage, hs.bytes _ hthere _ (Nat.mod_lt _ (by decide)), hspan.page_toNat hk]
  congr 1
  omega

/-- Bytes with a part of them written over. -/
def overwrite (content : Nat → UInt8) (offset : Nat) (buf : List UInt8) : Nat → UInt8 :=
  fun x => if offset ≤ x ∧ x < offset + buf.length then buf.getD (x - offset) 0 else content x

/-- What is written through the region. -/
theorem SpanMapped.store {buf : List UInt8} (call : MachineCall) (world : W)
    (h : SpanMapped p offset len region s t) (hspan : Span offset len size region)
    (hs : Holds p content s) (ht : t.pager = s.pager) (hram : t.world.ram = s.world.ram)
    (hbits : t.world.frameBitset = s.world.frameBitset) (hbuf : buf.length = len.toNat) :
    Holds p (overwrite content offset.toNat buf)
      (t.withStore (region + offset - pageAlignDown offset) buf call world) := by
  obtain ⟨haligned, hfits⟩ := hspan.region_fits
  have hstart := hspan.start_toNat
  have hwindow := h.window hspan hs
  rw [← hbuf] at hwindow
  have hindex : ∀ i < len.toNat,
      ((region + offset - pageAlignDown offset).toNat + i) / 4096 - pageNo region =
        (offset.toNat % 4096 + i) / 4096 ∧
      (offset.toNat % 4096 + i) / 4096 < (offset.toNat % 4096 + len.toNat + 4095) / 4096 := by
    intro i hi
    unfold pageNo
    omega
  have hpages : ((t.withStore (region + offset - pageAlignDown offset) buf call world).pager p).pages =
      (s.pager p).pages := congrArg (fun pg => (pg p).pages) ht
  have hat := Vm.frame_at_congr hpages
  refine ⟨fun page hpage => ?_, fun page hpage j hj => ?_, fun page page' hpage hpage' => ?_⟩
  · rw [hpages] at hpage
    rw [hat]
    change _ ∧ _ ∧ t.world.frameBitset _ = true
    rw [hbits]
    exact hs.entry page hpage
  · rw [hpages] at hpage
    rw [hat]
    change (t.world.storeAt _ buf).ram _ j = _
    have haligned' := page_aligned_iff.mp (hs.entry page hpage).1
    unfold overwrite
    split
    · next hin =>
        have hi : page.toNat + j - offset.toNat < len.toNat := by omega
        obtain ⟨hno, hk⟩ := hindex _ hi
        have hhit := hwindow.ram_store (show page.toNat + j - offset.toNat < buf.length by omega)
        have hpage' : spanPage offset ((offset.toNat % 4096 +
            (page.toNat + j - offset.toNat)) / 4096) = page := by
          rw [← UInt32.toNat_inj, spanPage, hspan.page_toNat hk]
          omega
        have hoffset : ((region + offset - pageAlignDown offset).toNat +
            (page.toNat + j - offset.toNat)) % 4096 = j := by omega
        rw [hno, hpage', hoffset] at hhit
        exact hhit
    · next hout =>
        rw [hwindow.ram_other fun k hk hframe hoffset => ?_, hram]
        · exact hs.bytes page hpage j hj
        refine hout ?_
        rw [hbuf] at hk
        obtain ⟨hno, hk'⟩ := hindex k hk
        rw [hno] at hframe
        have hthere := (h _ (hspan.mem_pages.mpr ⟨_, hk', rfl⟩)).1
        obtain rfl := hs.distinct _ _ hthere hpage hframe
        rw [hspan.page_toNat hk', hbuf]
        omega
  · rw [hpages] at hpage hpage'
    rw [hat, hat]
    exact hs.distinct page page' hpage hpage'

/-- The same pages are resident, in the same frames. -/
structure SameResident (p : PagerId) (s s' : Vm W) : Prop where
  resident : ∀ page, (s'.pager p).pages page ≠ 0 ↔ (s.pager p).pages page ≠ 0
  frame : ∀ page, s'.frameAt p page = s.frameAt p page
  world : s'.world = s.world
  only : PagesOnly p s s'

theorem SameResident.trans {t : Vm W} {s s' : Vm W} (h : SameResident p s t)
    (h' : SameResident p t s') : SameResident p s s' where
  resident := fun page => (h'.resident page).trans (h.resident page)
  frame := fun page => (h'.frame page).trans (h.frame page)
  world := h'.world.trans h.world
  only := trans_of (PagesOnly p) h.only h'.only

theorem Holds.same_resident (h : Holds p content s) (hsame : SameResident p s s') :
    Holds p content s' := by
  refine ⟨fun page hpage => ?_, fun page hpage => ?_, fun page page' hpage hpage' => ?_⟩
  · rw [hsame.frame, hsame.world]
    exact h.entry page ((hsame.resident page).mp hpage)
  · rw [hsame.frame, hsame.world]
    exact h.bytes page ((hsame.resident page).mp hpage)
  · rw [hsame.frame, hsame.frame]
    exact h.distinct page page' ((hsame.resident page).mp hpage) ((hsame.resident page').mp hpage')

/-- Marking an entry. -/
theorem same_resident_mark {s : Vm W} {page flag : UInt32} (hflag : flag.toNat < 4096)
    (hthere : (s.pager p).pages page ≠ 0) :
    SameResident p s (s.withEntry p page ((s.pager p).pages page ||| flag)) := by
  refine ⟨fun x => ?_, fun x => ?_, rfl, rfl, rfl, rfl,
    fun q hq => Function.update_of_ne hq _ _, by simp [Vm.withEntry]⟩
  · rw [Vm.with_entry_pages]
    split
    · next hslot =>
        obtain ⟨-, rfl⟩ := hslot
        simp [hthere]
    · rfl
  · unfold Vm.frameAt
    rw [Vm.with_entry_pages]
    split
    · next hslot =>
        obtain ⟨-, rfl⟩ := hslot
        exact frame_or_flag hflag
    · rfl

/-- The loop of a write that marks the pages as accessed. -/
theorem yields_mark_accessed {first len : UInt32} {s : Vm W} (hwrap : pagesWrap first len = false)
    (hthere : ∀ page ∈ pagesOf first len, (s.pager p).pages page ≠ 0) :
    Yields (forPages first len fun page => do
      let v ← findPage p page
      assert (v ≠ 0)
      putPage p page (v ||| pageAccessed) : Call W Unit) s fun _ s' => SameResident p s s' := by
  have hloop : ∀ pages : List UInt32, ∀ t : Vm W, SameResident p s t →
      (∀ page ∈ pages, (s.pager p).pages page ≠ 0) →
      Yields (pages.forM fun page => do
        let v ← findPage p page
        assert (v ≠ 0)
        putPage p page (v ||| pageAccessed) : Call W Unit) t fun _ s' => SameResident p s s' := by
    intro pages
    induction pages with
    | nil => exact fun t ht _ => yields_pure ht
    | cons page rest ih =>
        intro t ht hpages
        have hpage := (ht.resident page).mpr (hpages page (by simp))
        have hrun : (do
            let v ← findPage p page
            assert (v ≠ 0)
            putPage p page (v ||| pageAccessed) : Call W Unit) t =
              .ok ((), t.withEntry p page ((t.pager p).pages page ||| pageAccessed)) := by
          rw [run_bind_of_ok (show findPage p page t = .ok ((t.pager p).pages page, t) from rfl),
            decide_eq_true hpage]
          rfl
        have hmark := ht.trans (same_resident_mark (show pageAccessed.toNat < 4096 by decide) hpage)
        exact (yields_of_run hrun hmark).bind
          fun _ t' ht' => ih t' ht' fun x hx => hpages x (by simp [hx])
  refine (hloop _ s ⟨fun _ => Iff.rfl, fun _ => rfl, rfl, refl_of (PagesOnly p) s⟩ hthere).bind
    fun _ t ht => ?_
  rw [hwrap, if_neg (by decide)]
  exact yields_pure ht

/-- What a copy has done: it gives `want` and leaves `content'` in the pages, or it gives nothing,
because an allocation failed, and leaves what was there. -/
structure Transferred (p : PagerId) (offset len : UInt32) (content content' : Nat → UInt8)
    (want bytes : List UInt8) (s s' : Vm (Board W)) : Prop where
  grows : ∀ x, (s.pager p).pages x ≠ 0 → (s'.pager p).pages x ≠ 0
  only : PagesOnly p s s'
  calls : ∃ new, s'.world.calls = new ++ s.world.calls ∧
    (bytes = want ∧ Holds p content' s' ∧
        (∀ page ∈ spanPages offset len,
          (s'.pager p).pages page ≠ 0) ∨
      bytes = [] ∧ Holds p content s' ∧ ¬ AllGiven new)

/-- Pages are brought in as the file has them. -/
def PagesIn (m : Machine W) (d : Backing W) (p : PagerId) (content : Nat → UInt8)
    (offset len : UInt32) (s : Vm (Board W)) : Prop :=
  Yields (pageIn (board m d) p (pageAlignDown offset) (offset + len - pageAlignDown offset)) s
    fun _ s' => Loaded p content
      (spanPages offset len) s s'

/-- `vfs_page_in` brings the pages of a range in, when the driver reads what the file has. -/
theorem vfs_pages_in {v : VfsPager} (hs : Holds p content s) (hops : (s.pager p).ops = .vfs v)
    (hread : v.canRead = true) (hrange : Stretch offset len (s.pager p).size)
    (hfills : ∀ page, pageAligned page = true → page < (s.pager p).size →
      Fills d v.node content (s.pager p).size page) : PagesIn m d p content offset len s := by
  have hfirst := page_align_down_aligned offset
  refine yields_bind_of_run (run_the_pager p s) ?_
  rw [hops]
  exact yields_vfs_page_in hs hread hfirst hrange.wrap_eq (fun page => hrange.page_inside)
    fun page hpage => hfills page (aligned_of_mem_pages_of hpage hfirst) (hrange.page_inside hpage).1

/-- The pages of a range are in the table and in the region, or something failed. -/
theorem yields_in_and_map {write : Bool} (hspan : Span offset len size region)
    (hin : PagesIn m d p content offset len s) :
    Yields (do
      pageIn (board m d) p (pageAlignDown offset) (offset + len - pageAlignDown offset)
      mapPages (board m d) p region (pageAlignDown offset) write
        (spanPages offset len) :
          Call (Board W) Bool) s fun ok t => ∃ mid new new',
      Holds p content mid ∧ Still new' mid t ∧
        (∀ x, (s.pager p).pages x ≠ 0 → (t.pager p).pages x ≠ 0) ∧ PagesOnly p s t ∧
        t.world.calls = new ++ s.world.calls ∧
        (ok = true → SpanMapped p offset len region mid t) ∧ (AllGiven new → ok = true) := by
  refine hin.bind fun _ mid hmid => ?_
  refine (yields_map_pages hmid.holds hspan.region_pages_nodup).mono
    fun ok t ⟨new', hstill, hmaps, _, hall⟩ => ?_
  obtain ⟨new, hnew, hthere⟩ := hmid.calls
  have honly : PagesOnly p s t := trans_of (PagesOnly p) hmid.only
    ⟨hstill.region, hstill.proc, hstill.next, fun q _ => by rw [hstill.pager], by rw [hstill.pager]⟩
  refine ⟨mid, new' ++ new, new', hmid.holds, hstill, fun x hx => ?_, honly, ?_, hmaps,
    fun hgiven => ?_⟩
  · rw [hstill.pager, hmid.grows x hx]
    exact hx
  · rw [hstill.calls, hnew, List.append_assoc]
  obtain ⟨hgiven', hgiven⟩ := all_given_append.mp hgiven
  exact hall hgiven' (hthere hgiven)

theorem transfer_eq (data : Option (List UInt8)) :
    transfer (board m d) p offset len (pageAlignDown offset) (offset + len - pageAlignDown offset)
      region data = ((do
        pageIn (board m d) p (pageAlignDown offset) (offset + len - pageAlignDown offset)
        mapPages (board m d) p region (pageAlignDown offset) data.isSome
          (spanPages offset len) :
            Call (Board W) Bool) >>= fun mapped => if mapped then
              if pagesWrap (pageAlignDown offset) (offset + len - pageAlignDown offset) then
                throw .diverge
              else match data with
                | some buf => do
                    let block := buf.take len.toNat
                    tell ((board m d).store (region + offset - pageAlignDown offset) block)
                    forPages (pageAlignDown offset) (offset + len - pageAlignDown offset)
                      fun page => do
                        let v ← findPage p page
                        assert (v ≠ 0)
                        putPage p page (v ||| pageAccessed)
                    return block
                | none => do
                    let world := (← get).world
                    return (board m d).loadBytes (region + offset - pageAlignDown offset) len world
            else return []) := by
  funext s
  unfold transfer
  simp only [run_bind]
  cases pageIn (board m d) p (pageAlignDown offset) (offset + len - pageAlignDown offset) s with
  | error stop => rfl
  | ok r => rfl

theorem yields_transfer_read (hspan : Span offset len size region)
    (hin : PagesIn m d p content offset len s) :
    Yields (transfer (board m d) p offset len (pageAlignDown offset)
      (offset + len - pageAlignDown offset) region none) s fun bytes s' =>
        Transferred p offset len content content
          ((List.range len.toNat).map fun i => content (offset.toNat + i)) bytes s s' := by
  rw [transfer_eq]
  refine (yields_in_and_map hspan hin).bind
    fun ok t ⟨mid, new, _, hmid, hstill, hgrows, honly, hcalls, hmaps, hall⟩ => ?_
  have hholds := hmid.still hstill
  cases ok with
  | false =>
      exact yields_pure ⟨hgrows, honly, _, hcalls, .inr ⟨rfl, hholds, fun hgiven => by
        cases hall hgiven⟩⟩
  | true =>
      rw [if_pos rfl, hspan.wrap_eq, if_neg (by decide)]
      have hload := (hmaps rfl).load (m := m) (d := d) hspan hmid hstill.ram
      refine yields_of_run (show _ = Except.ok (_, t) from rfl) ⟨hgrows, honly, _, hcalls,
        .inl ⟨hload, hholds, fun page hpage => ?_⟩⟩
      rw [hstill.pager]
      exact (hmaps rfl page hpage).1

/-- What a copy into the pages writes. -/
theorem yields_transfer_write {buf : List UInt8} (hbuf : buf.length = len.toNat)
    (hspan : Span offset len size region) (hin : PagesIn m d p content offset len s) :
    Yields (transfer (board m d) p offset len (pageAlignDown offset)
      (offset + len - pageAlignDown offset) region (some buf)) s fun bytes s' =>
        Transferred p offset len content (overwrite content offset.toNat buf) buf bytes s s' := by
  rw [transfer_eq]
  refine (yields_in_and_map hspan hin).bind
    fun ok t ⟨mid, new, _, hmid, hstill, hgrows, honly, hcalls, hmaps, hall⟩ => ?_
  cases ok with
  | false =>
      exact yields_pure ⟨hgrows, honly, _, hcalls, .inr ⟨rfl, hmid.still hstill,
        fun hgiven => by cases hall hgiven⟩⟩
  | true =>
      rw [if_pos rfl, hspan.wrap_eq, if_neg (by decide)]
      have htake : buf.take len.toNat = buf := List.take_of_length_le (Nat.le_of_eq hbuf)
      dsimp only
      rw [htake]
      let call : MachineCall := .store (region + offset - pageAlignDown offset) buf.length
      have hrun : tell ((board m d).store (region + offset - pageAlignDown offset) buf) t = .ok ((),
          t.withStore (region + offset - pageAlignDown offset) buf call t.world.world) := rfl
      refine yields_bind_of_run hrun ?_
      have hholds := (hmaps rfl).store call t.world.world hspan hmid hstill.pager hstill.ram
        hstill.bits hbuf
      have hthere : ∀ page ∈ spanPages offset len,
          (t.pager p).pages page ≠ 0 := fun page hpage => by
        rw [hstill.pager]
        exact (hmaps rfl page hpage).1
      have hmark := yields_mark_accessed
        (s := t.withStore (region + offset - pageAlignDown offset) buf call t.world.world)
        hspan.wrap_eq hthere
      refine hmark.bind fun _ t' hsame => yields_pure ?_
      refine ⟨fun x hx => (hsame.resident x).mpr (hgrows x hx), ?_, call :: new, ?_,
        .inl ⟨rfl, hholds.same_resident hsame, fun page hpage =>
          (hsame.resident page).mpr (hthere page hpage)⟩⟩
      · have hstored : PagesOnly p s
            (t.withStore (region + offset - pageAlignDown offset) buf call t.world.world) :=
          ⟨honly.region, honly.proc, honly.next, honly.others, honly.same⟩
        exact trans_of (PagesOnly p) hstored hsame.only
      · rw [hsame.world]
        change call :: t.world.calls = _
        rw [hcalls]
        rfl

/-- Giving the region back leaves the pages alone. -/
theorem yields_drop_region (hspan : Span offset len size region) :
    Yields (dropRegion (board m d) region (offset + len - pageAlignDown offset)) s
      fun _ s' => Still [] s s' := by
  obtain ⟨haligned, hfits⟩ := hspan.region_fits
  have hlen := hspan.region_len_toNat
  have hwrap : pagesWrap region (offset + len - pageAlignDown offset) = false := by
    simp only [pagesWrap, pageSteps, decide_eq_false_iff_not, UInt32.toNat_add, hlen]
    omega
  have hloop : ∀ pages : List UInt32, ∀ t : Vm (Board W), Still [] s t →
      Yields (pages.forM fun x => do
        let entry ← ask ((board m d).pdGetEntry .kernel x)
        if entry >>> entFrameShift ≠ 0 then tell ((board m d).pdUnmapPage .kernel x)) t
        fun _ s' => Still [] s s' := by
    intro pages
    induction pages with
    | nil => exact fun t ht => yields_pure ht
    | cons x rest ih =>
        intro t ht
        have hbody : Yields (do
            let entry ← ask ((board m d).pdGetEntry .kernel x)
            if entry >>> entFrameShift ≠ 0 then tell ((board m d).pdUnmapPage .kernel x)) t
            fun _ s' => Still [] s s' :=
          (yields_pd_get_entry .kernel x).bind fun entry t₁ hget => yields_ite
            (fun _ => (yields_pd_unmap_page .kernel x).mono fun _ t₂ hunmap =>
              (ht.trans hget).trans hunmap)
            fun _ => yields_pure (ht.trans hget)
        exact hbody.bind fun _ t' ht' => ih t' ht'
  have hpages : Yields (forPages region (offset + len - pageAlignDown offset) fun x => do
      let entry ← ask ((board m d).pdGetEntry .kernel x)
      if entry >>> entFrameShift ≠ 0 then tell ((board m d).pdUnmapPage .kernel x)) s
      fun _ s' => Still [] s s' := by
    refine (hloop _ s (.refl s)).bind fun _ t ht => ?_
    rw [hwrap, if_neg (by decide)]
    exact yields_pure ht
  exact hpages.bind fun _ t ht => (yields_region_free region).mono fun _ s' hfree =>
    ht.trans hfree.1

/-- The bytes that a read gives, or a write takes, and the file afterwards. -/
def copyOutcome (content : Nat → UInt8) (offset len : UInt32) :
    Option (List UInt8) → (Nat → UInt8) × List UInt8
  | none => (content, (List.range len.toNat).map fun i => content (offset.toNat + i))
  | some buf => (overwrite content offset.toNat buf, buf)

theorem yields_transfer {data : Option (List UInt8)}
    (hbuf : ∀ buf, data = some buf → buf.length = len.toNat)
    (hspan : Span offset len size region) (hin : PagesIn m d p content offset len s) :
    Yields (transfer (board m d) p offset len (pageAlignDown offset)
      (offset + len - pageAlignDown offset) region data) s fun bytes s' =>
        Transferred p offset len content (copyOutcome content offset len data).1
          (copyOutcome content offset len data).2 bytes s s' := by
  cases data with
  | none => exact yields_transfer_read hspan hin
  | some buf => exact yields_transfer_write (hbuf buf rfl) hspan hin

section Transferred

variable {content' : Nat → UInt8} {want bytes : List UInt8}

theorem Still.pages_only {new : List MachineCall} (h : Still new s s') : PagesOnly p s s' :=
  ⟨h.region, h.proc, h.next, fun q _ => by rw [h.pager], by rw [h.pager]⟩

theorem Transferred.after {new : List MachineCall} (hstill : Still new s t)
    (h : Transferred p offset len content content' want bytes t s') :
    Transferred p offset len content content' want bytes s s' where
  grows := fun x hx => h.grows x (by rwa [hstill.pager])
  only := trans_of (PagesOnly p) hstill.pages_only h.only
  calls := by
    obtain ⟨new', hnew', hout⟩ := h.calls
    refine ⟨new' ++ new, by rw [hnew', hstill.calls, List.append_assoc], hout.imp_right ?_⟩
    exact fun ⟨hbytes, hholds, hnot⟩ => ⟨hbytes, hholds, fun hgiven =>
      hnot (all_given_append.mp hgiven).1⟩

theorem Transferred.before (h : Transferred p offset len content content' want bytes s t)
    (hstill : Still [] t s') : Transferred p offset len content content' want bytes s s' where
  grows := fun x hx => by
    rw [hstill.pager]
    exact h.grows x hx
  only := trans_of (PagesOnly p) h.only hstill.pages_only
  calls := by
    obtain ⟨new, hnew, hout⟩ := h.calls
    refine ⟨new, by rw [hstill.calls, hnew]; rfl, ?_⟩
    rcases hout with ⟨hbytes, hholds, hthere⟩ | ⟨hbytes, hholds, hnot⟩
    · exact .inl ⟨hbytes, hholds.still hstill, by rw [hstill.pager]; exact hthere⟩
    · exact .inr ⟨hbytes, hholds.still hstill, hnot⟩

theorem Vm.with_pager_lock_pages (s : Vm W) (p q : PagerId) (held : Bool) :
    ((s.withPagerLock p held).pager q).pages = (s.pager q).pages := by
  unfold Vm.withPagerLock
  by_cases hq : q = p
  · simp [hq]
  · simp [hq]

theorem Holds.with_lock (h : Holds p content s) (held : Bool) :
    Holds p content (s.withPagerLock p held) :=
  h.of_same (Vm.with_pager_lock_pages s p p held) (fun _ _ => rfl) fun _ _ _ _ => rfl

/-- A copy between taking and releasing the mutex. -/
theorem Transferred.unlock (hfree : (s.pager p).lock = false)
    (h : Transferred p offset len content content' want bytes (s.withPagerLock p true) t) :
    Transferred p offset len content content' want bytes s (t.withPagerLock p false) where
  grows := fun x hx => by
    rw [Vm.with_pager_lock_pages]
    exact h.grows x (by rwa [Vm.with_pager_lock_pages])
  only := by
    have hsame := h.only.same
    refine ⟨h.only.region, h.only.proc, h.only.next, fun q hq => ?_, ?_⟩
    · refine (Function.update_of_ne hq _ _).trans ((h.only.others q hq).trans ?_)
      exact Function.update_of_ne hq _ _
    · simp only [Vm.withPagerLock, Function.update_self] at hsame ⊢
      rw [hsame, ← hfree]
  calls := by
    obtain ⟨new, hnew, hout⟩ := h.calls
    refine ⟨new, hnew, ?_⟩
    rcases hout with ⟨hbytes, hholds, hthere⟩ | ⟨hbytes, hholds, hnot⟩
    · exact .inl ⟨hbytes, hholds.with_lock false, fun page hpage => by
        rw [Vm.with_pager_lock_pages]
        exact hthere page hpage⟩
    · exact .inr ⟨hbytes, hholds.with_lock false, hnot⟩

end Transferred

/-- The length that the pager works with. -/
theorem transfer_len_toNat {size offset len : UInt32} (hstart : offset ≤ size)
    (hends : offset.toNat + len.toNat < 2 ^ 32) :
    (transferLen size offset len).toNat = min len.toNat (size.toNat - offset.toNat) := by
  rw [UInt32.le_iff_toNat_le] at hstart
  have hend : (offset + len).toNat = offset.toNat + len.toNat := toNat_add_of_lt hends
  unfold transferLen
  split
  · next h =>
      rw [gt_iff_lt, UInt32.lt_iff_toNat_lt, hend] at h
      rw [toNat_sub_of_le hstart]
      omega
  · next h =>
      rw [gt_iff_lt, UInt32.lt_iff_toNat_lt, hend] at h
      omega

/-- `pager_do_rw` inside the pager. -/
theorem yields_pager_do_rw {data : Option (List UInt8)} {asked : UInt32} (hs : Holds p content s)
    (hfree : (s.pager p).lock = false) (hcut : transferLen (s.pager p).size offset asked = len)
    (hstart : offset < (s.pager p).size) (hbuf : ∀ buf, data = some buf → buf.length = len.toNat)
    (hlen : offset.toNat + len.toNat ≤ (s.pager p).size.toNat)
    (hwhole : (s.pager p).size.toNat ≤ 0xFFFFF000)
    (hin : ∀ t, Holds p content t → t.pager = (s.withPagerLock p true).pager →
      PagesIn m d p content offset len t) :
    Yields (pagerDoRw (board m d) p offset asked data) s fun bytes s' =>
      Transferred p offset len content (copyOutcome content offset len data).1
        (copyOutcome content offset len data).2 bytes s s' := by
  refine yields_bind_of_run (run_lock_pager hfree) ?_
  refine yields_bind_of_run (run_the_pager p _) ?_
  rw [Vm.with_pager_lock_size, if_neg (show ¬ offset ≥ (s.pager p).size from UInt32.not_le.mpr hstart)]
  dsimp only
  rw [hcut]
  have hlocked : Holds p content (s.withPagerLock p true) := hs.with_lock true
  refine (yields_region_alloc _).bind fun region t ⟨halloc, _, hfits⟩ => ?_
  have hinner : Yields (if region = 0 then pure [] else do
      let ret ← transfer (board m d) p offset len (pageAlignDown offset)
        (offset + len - pageAlignDown offset) region data
      dropRegion (board m d) region (offset + len - pageAlignDown offset)
      return ret) t fun bytes s' =>
        Transferred p offset len content (copyOutcome content offset len data).1
          (copyOutcome content offset len data).2 bytes (s.withPagerLock p true) s' := by
    refine yields_ite (fun hzero => yields_pure ?_) fun hne => ?_
    · rw [hzero] at halloc
      refine ⟨fun x hx => by rwa [halloc.pager], halloc.pages_only, _, halloc.calls,
        .inr ⟨rfl, hlocked.still halloc, ?_⟩⟩
      exact not_all_given _ rfl List.mem_cons_self
    · have hspan : Span offset len (s.pager p).size region := ⟨⟨hlen, hwhole⟩, hfits hne⟩
      refine (yields_transfer hbuf hspan (hin t (hlocked.still halloc) halloc.pager)).bind
        fun bytes t₁ hcopied => (yields_drop_region hspan).bind fun _ t₂ hdrop => yields_pure ?_
      exact (hcopied.after halloc).before hdrop
  refine hinner.bind fun bytes t₁ hcopied => ?_
  exact yields_of_run (show _ = Except.ok (bytes, t₁.withPagerLock p false) from rfl)
    (hcopied.unlock hfree)

end Transfer

end Kogata.Kernel
