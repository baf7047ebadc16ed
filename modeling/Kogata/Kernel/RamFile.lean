import Kogata.Kernel.PageTransfer
import Kogata.Lib.Growing

/-!
# A RAM file is a byte array

The regular files of `nullfs.c` keep their bytes in a swap pager that may be resized. Over runs of
`file_write`, `file_read` and of opening the file with `FM_TRUNC`, what is read is what a byte array
holds that a write extends with zeros, as long as no write ends in the last page of the address
space (`ram_file_is_byte_array`).
-/

namespace Kogata.Kernel

open Lib.Effect Lib.Run Lib.Word Lib.Growing

variable {W : Type}

/-- `nullfs_f_open` on a file of the pager `p`, without the mutex of the file. -/
def nullfsFOpen (m : Machine W) (p : PagerId) (okModes mode : UInt32) : Call W Bool := do
  if mode &&& ~~~okModes ≠ 0 then return false
  else
    if mode &&& fmTrunc ≠ 0 then
      let _ ← pagerResize m p 0
    return true

section Resize

variable {m : Machine W} {d : Backing W} {p : PagerId} {content : Nat → UInt8}
  {s t : Vm (Board W)}

/-- `pager_resize` of a swap pager that may be resized. -/
theorem pager_resize_swap {newSize : UInt32} (hops : (s.pager p).ops = .swap true)
    (hfree : (s.pager p).lock = false) : pagerResize (board m d) p newSize s =
      (do
        shrinkPager (board m d) p newSize
        unlockPager p
        return true : Call (Board W) Bool) (s.withPagerLock p true) := by
  rw [pagerResize, run_bind_of_ok (run_the_pager p s), hops]
  dsimp only [resizeOp]
  rw [run_bind_of_ok (run_lock_pager hfree)]
  rfl

/-- The state after a resident page has been given back. -/
def Vm.withReleased (m : Machine W) (d : Backing W) (s : Vm (Board W)) (p : PagerId)
    (page : UInt32) : Vm (Board W) :=
  let world := (board m d).frameFree (s.frameAt p page) s.world
  { s.withEntry p page 0 with world := world }

theorem Vm.with_released_pages (p : PagerId) (page x : UInt32) :
    ((s.withReleased m d p page).pager p).pages x = if x = page then 0 else (s.pager p).pages x := by
  have hentry := Vm.with_entry_pages s p p page 0 x
  simp only [true_and] at hentry
  exact hentry

theorem Vm.with_released_only (p : PagerId) (page : UInt32) :
    PagesOnly p s (s.withReleased m d p page) := by
  refine ⟨rfl, rfl, rfl, fun q hq => ?_, ?_⟩
  · exact Function.update_of_ne hq _ _
  · unfold Vm.withReleased Vm.withEntry
    simp

/-- The bytes of the other pages stay in place when a resident page is given back. -/
theorem Holds.release (h : Holds p content s) {page : UInt32} (hpage : (s.pager p).pages page ≠ 0) :
    Holds p content (s.withReleased m d p page) := by
  have hkept : ∀ x, ((s.withReleased m d p page).pager p).pages x ≠ 0 →
      x ≠ page ∧ (s.pager p).pages x ≠ 0 ∧
        (s.withReleased m d p page).frameAt p x = s.frameAt p x := by
    intro x hx
    rw [Vm.frameAt, Vm.frameAt]
    rw [Vm.with_released_pages] at hx ⊢
    by_cases heq : x = page
    · rw [if_pos heq] at hx
      exact absurd rfl hx
    · rw [if_neg heq] at hx ⊢
      exact ⟨heq, hx, rfl⟩
  refine ⟨fun x hx => ?_, fun x hx j hj => ?_, fun x x' hx hx' heq => ?_⟩
  · obtain ⟨hne, hthere, hframe⟩ := hkept x hx
    obtain ⟨haligned, hzero, hbit⟩ := h.entry x hthere
    rw [hframe]
    refine ⟨haligned, hzero, ?_⟩
    have hapart : s.frameAt p x ≠ s.frameAt p page :=
      fun heq => hne (h.distinct x page hthere hpage heq)
    exact (Function.update_of_ne hapart _ _).trans hbit
  · obtain ⟨-, hthere, hframe⟩ := hkept x hx
    rw [hframe]
    exact h.bytes x hthere j hj
  · obtain ⟨-, hthere, hframe⟩ := hkept x hx
    obtain ⟨-, hthere', hframe'⟩ := hkept x' hx'
    rw [hframe, hframe'] at heq
    exact h.distinct x x' hthere hthere' heq

/-- `swap_page_release` gives the pages of a range back, and leaves the others as they are. -/
theorem yields_swap_page_release {first len : UInt32} (hs : Holds p content s)
    (hfirst : pageAligned first = true) (hwrap : pagesWrap first len = false) :
    Yields (swapPageRelease (board m d) p first len) s fun _ s' => Holds p content s' ∧
      PagesOnly p s s' ∧ (∀ x ∈ pagesOf first len, (s'.pager p).pages x = 0) ∧
        ∃ new, s'.world.calls = new ++ s.world.calls := by
  unfold swapPageRelease
  rw [hfirst]
  refine yields_bind_of_run (show assert true s = .ok ((), s) from rfl) ?_
  let motive : List UInt32 → Vm (Board W) → Prop := fun done t => Holds p content t ∧
    PagesOnly p s t ∧ (∀ x ∈ done, (t.pager p).pages x = 0) ∧
      ∃ new, t.world.calls = new ++ s.world.calls
  refine yields_for_pages (motive := motive) hwrap (fun done page _ t ht => ?_)
    ⟨hs, refl_of (PagesOnly p) s, nofun, [], rfl⟩
  obtain ⟨hholds, honly, hgone, new, hnew⟩ := ht
  refine yields_bind_of_run (show findPage p page t = .ok ((t.pager p).pages page, t) from rfl) ?_
  refine yields_ite (fun hne => ?_) fun hzero => ?_
  · have hpage : (t.pager p).pages page ≠ 0 := fun hzero => hne (by rw [hzero]; rfl)
    refine yields_of_run (show _ = Except.ok ((), t.withReleased m d p page) from rfl)
      ⟨hholds.release hpage, trans_of (PagesOnly p) honly (Vm.with_released_only p page),
        fun x hx => ?_, .frameFree (t.frameAt p page) :: new, ?_⟩
    · rw [Vm.with_released_pages]
      rcases List.mem_append.mp hx with hx | hx
      · rw [hgone x hx, ite_self]
      · rw [if_pos (List.mem_singleton.mp hx)]
    · exact congrArg (List.cons (.frameFree (t.frameAt p page))) hnew
  · refine yields_pure ⟨hholds, honly, fun x hx => ?_, new, hnew⟩
    rcases List.mem_append.mp hx with hx | hx
    · exact hgone x hx
    · rw [List.mem_singleton.mp hx]
      by_contra hthere
      exact (hholds.entry page hthere).2.1 (not_not.mp hzero)

end Resize

/-- The pager of a regular file that holds a byte array. -/
structure RamFile (p : PagerId) (ref : List UInt8) (s : Vm (Board W)) : Prop where
  ops : (s.pager p).ops = .swap true
  maps : (s.pager p).maps = []
  size : (s.pager p).size.toNat = ref.length
  fits : ref.length ≤ 0xFFFFF000
  holds : Holds p (fun x => ref.getD x 0) s
  zeros : ∀ page, pageAligned page = true → (s.pager p).pages page = 0 →
    ∀ j < 4096, ref.getD (page.toNat + j) 0 = 0

section RamFile

variable {m : Machine W} {d : Backing W} {p : PagerId} {ref : List UInt8} {s t s' : Vm (Board W)}
  {offset len : UInt32}

section

variable (h : RamFile p ref s)

include h

/-- Whatever leaves the pager alone apart from its mutex, and the memory as it is. -/
theorem RamFile.with_lock (held : Bool) :
    RamFile p ref (s.withPagerLock p held) := by
  have hpager : (s.withPagerLock p held).pager p = { s.pager p with lock := held } :=
    Function.update_self _ _ _
  refine ⟨?_, ?_, ?_, h.fits, h.holds.with_lock held, fun page haligned hpage => ?_⟩
  · rw [hpager]
    exact h.ops
  · rw [hpager]
    exact h.maps
  · rw [hpager]
    exact h.size
  · rw [hpager] at hpage
    exact h.zeros page haligned hpage

/-- Whatever leaves the pager alone, and the bytes of its pages. -/
theorem RamFile.of_pager (hpager : s'.pager = s.pager)
    (hholds : Holds p (fun x => ref.getD x 0) s') : RamFile p ref s' := by
  refine ⟨?_, ?_, ?_, h.fits, hholds, ?_⟩
  · rw [hpager]
    exact h.ops
  · rw [hpager]
    exact h.maps
  · rw [hpager]
    exact h.size
  · rw [hpager]
    exact h.zeros

/-- The file is extended with zeros. -/
theorem RamFile.extend {newSize : UInt32}
    (hgrow : ref.length ≤ newSize.toNat) (hfits : newSize.toNat ≤ 0xFFFFF000)
    (hworld : s'.world = s.world) (hpager : s'.pager p = { s.pager p with size := newSize }) :
    RamFile p (ref ++ List.replicate (newSize.toNat - ref.length) 0) s' := by
  have hlength : (ref ++ List.replicate (newSize.toNat - ref.length) 0).length = newSize.toNat := by
    simp only [List.length_append, List.length_replicate]
    omega
  have hsame : Holds p (fun x => ref.getD x 0) s' :=
    h.holds.of_same (by rw [hpager]) (fun _ _ => by rw [hworld]) fun _ _ _ _ => by rw [hworld]
  refine ⟨?_, ?_, ?_, by rw [hlength]; exact hfits, ?_, fun page haligned hpage j hj => ?_⟩
  · rw [hpager]
    exact h.ops
  · rw [hpager]
    exact h.maps
  · rw [hpager, hlength]
  · simpa only [getD_extend] using hsame
  · rw [hpager] at hpage
    rw [getD_extend]
    exact h.zeros page haligned hpage j hj

/-- The pages of a range are brought in as the file has them. -/
theorem RamFile.pages_in (hrange : Stretch offset len (s.pager p).size) :
    PagesIn m d p (fun x => ref.getD x 0) offset len s := by
  have hfirst := page_align_down_aligned offset
  refine yields_bind_of_run (run_the_pager p s) ?_
  rw [h.ops]
  exact yields_swap_page_in h.holds hfirst hrange.wrap_eq
    fun page hpage => h.zeros page (aligned_of_mem_pages_of hpage hfirst)

/-- Paging in leaves the file as it is. -/
theorem RamFile.of_pages (honly : PagesOnly p s s')
    (hgrows : ∀ x, (s.pager p).pages x ≠ 0 → (s'.pager p).pages x ≠ 0)
    (hholds : Holds p (fun x => ref.getD x 0) s') : RamFile p ref s' := by
  refine ⟨?_, ?_, ?_, h.fits, hholds, fun page haligned hpage => ?_⟩
  · rw [honly.same]
    exact h.ops
  · rw [honly.same]
    exact h.maps
  · rw [honly.same]
    exact h.size
  · by_contra hnot
    exact hnot (h.zeros page haligned (not_not.mp fun hthere => hgrows page hthere hpage))

/-- `pager_read` gives a slice of the array. -/
theorem RamFile.read (hfree : (s.pager p).lock = false)
    (hends : offset.toNat + len.toNat < 2 ^ 32) :
    Yields (pagerRead (board m d) p offset len) s fun bytes s' => ∃ new,
      s'.world.calls = new ++ s.world.calls ∧
        (AllGiven new → RamFile p ref s' ∧ bytes = slice ref offset.toNat len.toNat) := by
  have hsize := h.size
  have hfits := h.fits
  by_cases hstart : offset < (s.pager p).size
  · have hbelow := UInt32.lt_iff_toNat_lt.mp hstart
    have hlen := transfer_len_toNat (UInt32.le_of_lt hstart) hends
    have hrange : Stretch offset (transferLen (s.pager p).size offset len) (s.pager p).size :=
      ⟨by omega, by omega⟩
    refine (yields_pager_do_rw h.holds hfree rfl hstart (fun _ h => by cases h) hrange.inside
      hrange.whole fun t ht hlocked => ?_).mono fun bytes s' hdone => ?_
    · have hfile : RamFile p ref t := (h.with_lock true).of_pager hlocked ht
      refine hfile.pages_in ?_
      rw [hlocked, Vm.with_pager_lock_size]
      exact hrange
    · obtain ⟨new, hnew, hdone'⟩ := hdone.calls
      refine ⟨new, hnew, fun hgiven => ?_⟩
      obtain ⟨hbytes, hholds, -⟩ := hdone'.resolve_right fun hfail => hfail.2.2 hgiven
      refine ⟨h.of_pages hdone.only hdone.grows hholds, ?_⟩
      rw [hbytes, slice_eq_map, ← hsize, ← hlen]
      rfl
  · have hrun : pagerRead (board m d) p offset len s = .ok ([], s.withPagerLock p true) := by
      rw [pagerRead, pagerDoRw, run_bind_of_ok (run_lock_pager hfree),
        run_bind_of_ok (run_the_pager p _), Vm.with_pager_lock_size,
        if_pos (UInt32.not_lt.mp hstart)]
      rfl
    rw [UInt32.lt_iff_toNat_lt] at hstart
    refine yields_of_run hrun ⟨[], rfl, fun _ => ⟨h.with_lock true, ?_⟩⟩
    rw [slice_of_le (by omega)]

/-- `pager_write` inside the file. -/
theorem RamFile.write {buf : List UInt8} (hfree : (s.pager p).lock = false)
    (hpos : 0 < buf.length) (hin : offset.toNat + buf.length ≤ ref.length) :
    Yields (pagerWrite (board m d) p offset buf) s fun bytes s' => ∃ new,
      s'.world.calls = new ++ s.world.calls ∧
        (AllGiven new → RamFile p (write 0 ref offset.toNat buf) s' ∧ bytes = buf) := by
  have hsize := h.size
  have hfits := h.fits
  have hlength : (UInt32.ofNat buf.length).toNat = buf.length :=
    UInt32.toNat_ofNat_of_lt' (show buf.length < 2 ^ 32 by omega)
  have hstart : offset < (s.pager p).size := UInt32.lt_iff_toNat_lt.mpr (by omega)
  have hcut : transferLen (s.pager p).size offset (UInt32.ofNat buf.length) =
      UInt32.ofNat buf.length := by
    refine UInt32.toNat_inj.mp ?_
    rw [transfer_len_toNat (UInt32.le_of_lt hstart) (by omega)]
    omega
  have hrange : Stretch offset (UInt32.ofNat buf.length) (s.pager p).size :=
    ⟨by omega, by omega⟩
  refine (yields_pager_do_rw h.holds hfree hcut hstart (fun _ heq => ?_) hrange.inside
    hrange.whole fun t ht hlocked => ?_).mono fun bytes s' hdone => ?_
  · rw [← Option.some.inj heq, hlength]
  · have hfile : RamFile p ref t := (h.with_lock true).of_pager hlocked ht
    refine hfile.pages_in ?_
    rw [hlocked, Vm.with_pager_lock_size]
    exact hrange
  · obtain ⟨new, hnew, hdone'⟩ := hdone.calls
    refine ⟨new, hnew, fun hgiven => ?_⟩
    obtain ⟨hbytes, hholds, hthere⟩ := hdone'.resolve_right fun hfail => hfail.2.2 hgiven
    have hbytes' : overwrite (fun x => ref.getD x 0) offset.toNat buf =
        fun x => (Lib.Growing.write 0 ref offset.toNat buf).getD x 0 := by
      funext x
      rw [getD_write]
      rfl
    refine ⟨⟨?_, ?_, ?_, ?_, hbytes' ▸ hholds, fun page haligned hpage j hj => ?_⟩, hbytes⟩
    · rw [hdone.only.same]
      exact h.ops
    · rw [hdone.only.same]
      exact h.maps
    · rw [hdone.only.same, length_write]
      exact hsize.trans (by omega)
    · rw [length_write]
      omega
    · rw [getD_write, if_neg fun hwritten => ?_]
      · by_contra hnot
        exact hnot (h.zeros page haligned (not_not.mp fun hres => hdone.grows page hres hpage) j hj)
      · -- A page with a byte that was written has been brought in.
        exact hthere page (hrange.mem_of_byte haligned hj hwritten.1 (by omega)) hpage

/-- `pager_resize` to a greater size changes the size alone, unless the end of the file would be
in the last page of the address space. -/
theorem RamFile.grow (hfree : (s.pager p).lock = false) {newSize : UInt32}
    (hgrow : ref.length < newSize.toNat) (hfits : newSize.toNat ≤ 0xFFFFF000) :
    Yields (pagerResize (board m d) p newSize) s fun _ s' =>
      s'.world = s.world ∧ s'.pager p = { s.pager p with size := newSize } := by
  have hsize := h.size
  have hup := page_align_up_toNat newSize
  have hnot : ¬ pageAlignUp newSize < (s.pager p).size := by
    rw [UInt32.lt_iff_toNat_lt]
    omega
  have hrun : shrinkPager (board m d) p newSize (s.withPagerLock p true) =
      setPager p (fun pg => { pg with size := newSize }) (s.withPagerLock p true) := by
    rw [shrinkPager, run_bind_of_ok (run_the_pager p _), Vm.with_pager_lock_size, if_neg hnot]
  refine ⟨true, _, (pager_resize_swap h.ops hfree).trans (run_bind_of_ok hrun), rfl, ?_⟩
  simp [Vm.withPagerLock, ← hfree]

/-- An empty file, whose resident pages hold nothing but zeros. -/
theorem RamFile.emptied (honly : PagesOnly p s t)
    (hholds : Holds p (fun x => ref.getD x 0) t)
    (hgone : ∀ page ∈ pagesOf 0 (s.pager p).size, (t.pager p).pages page = 0)
    (hworld : s'.world = t.world) (hpager : s'.pager p = { t.pager p with size := 0 }) :
    RamFile p [] s' := by
  have hframe := Vm.frame_at_congr (show (s'.pager p).pages = (t.pager p).pages by rw [hpager])
  refine ⟨?_, ?_, ?_, by simp, ⟨fun page hpage => ?_, fun page hpage j hj => ?_,
    fun page page' hpage hpage' heq => ?_⟩, fun _ _ _ _ _ => rfl⟩
  · rw [hpager, honly.same]
    exact h.ops
  · rw [hpager, honly.same]
    exact h.maps
  · rw [hpager]
    rfl
  · rw [hpager] at hpage
    rw [hframe, hworld]
    exact hholds.entry page hpage
  · rw [hpager] at hpage
    rw [hframe, hworld, hholds.bytes page hpage j hj]
    -- Such a page lies behind the end of what the file was.
    have hbehind : ¬ page < (s.pager p).size := fun hlt =>
      hpage (hgone page (mem_pages_of_zero (hholds.entry page hpage).1 hlt))
    rw [UInt32.lt_iff_toNat_lt, h.size] at hbehind
    rw [List.getD_eq_getElem?_getD, List.getElem?_eq_none (by omega)]
    rfl
  · rw [hpager] at hpage hpage'
    rw [hframe, hframe] at heq
    exact hholds.distinct page page' hpage hpage' heq

end

/-- Without mappings there is nothing to unmap. -/
theorem run_pager_unmap_none (hmaps : (s.pager p).maps = []) (offset len : UInt32) :
    pagerUnmap (board m d) p offset len s = .ok ((), s) := by
  rw [pagerUnmap, run_bind_of_ok (run_the_pager p s), hmaps]
  rfl

/-- `pager_resize` to nothing gives all pages of the file back. -/
theorem RamFile.truncate (h : RamFile p ref s) (hfree : (s.pager p).lock = false) :
    Yields (pagerResize (board m d) p 0) s fun _ s' => RamFile p [] s' ∧
      ∃ new, s'.world.calls = new ++ s.world.calls := by
  have hsize := h.size
  have hfits := h.fits
  have hlocked := h.with_lock true
  have hwrap : pagesWrap 0 (s.pager p).size = false := by
    simp only [pagesWrap, pageSteps, UInt32.zero_add, UInt32.toNat_zero, decide_eq_false_iff_not]
    omega
  have hset : ∀ t : Vm (Board W), PagesOnly p (s.withPagerLock p true) t →
      Holds p (fun x => ref.getD x 0) t →
      (∀ page ∈ pagesOf 0 ((s.withPagerLock p true).pager p).size, (t.pager p).pages page = 0) →
      (∃ new, t.world.calls = new ++ s.world.calls) →
      Yields (setPager p fun pg => { pg with size := 0 }) t fun _ s' => RamFile p [] s' ∧
        ∃ new, s'.world.calls = new ++ s.world.calls :=
    fun t honly hholds hgone hcalls =>
      ⟨(), _, rfl, hlocked.emptied honly hholds hgone rfl (Function.update_self _ _ _), hcalls⟩
  have hshrink : Yields (shrinkPager (board m d) p 0) (s.withPagerLock p true) fun _ s' =>
      RamFile p [] s' ∧ ∃ new, s'.world.calls = new ++ s.world.calls := by
    rw [shrinkPager]
    refine yields_bind_of_run (run_the_pager p _) ?_
    rw [Vm.with_pager_lock_size, show pageAlignUp 0 = 0 by decide]
    dsimp only
    rw [UInt32.sub_zero]
    refine yields_ite (fun hpos => ?_) fun hnone => ?_
    · refine yields_bind_of_run (run_pager_unmap_none hlocked.maps _ _) ?_
      have hrelease : Yields (pageRelease (board m d) p 0 (s.pager p).size)
          (s.withPagerLock p true) fun _ t => Holds p (fun x => ref.getD x 0) t ∧
            PagesOnly p (s.withPagerLock p true) t ∧
            (∀ x ∈ pagesOf 0 (s.pager p).size, (t.pager p).pages x = 0) ∧
            ∃ new, t.world.calls = new ++ (s.withPagerLock p true).world.calls := by
        refine yields_bind_of_run (run_the_pager p _) ?_
        rw [hlocked.ops]
        exact yields_swap_page_release hlocked.holds (by decide) hwrap
      refine hrelease.bind fun _ t ht => ?_
      obtain ⟨hholds, honly, hgone, hcalls⟩ := ht
      exact hset t honly hholds (by rw [Vm.with_pager_lock_size]; exact hgone) hcalls
    · have hnil : (s.pager p).size = 0 := by
        rw [UInt32.lt_iff_toNat_lt, UInt32.toNat_zero] at hnone
        exact UInt32.toNat_inj.mp (by rw [UInt32.toNat_zero]; omega)
      refine hset _ (refl_of (PagesOnly p) _) hlocked.holds (fun page hpage => ?_) ⟨[], rfl⟩
      rw [Vm.with_pager_lock_size, hnil] at hpage
      cases hpage
  obtain ⟨_, t, hrun, hempty, hcalls⟩ := hshrink
  refine ⟨true, t.withPagerLock p false, ?_, hempty.with_lock false, hcalls⟩
  exact (pager_resize_swap h.ops hfree).trans (run_bind_of_ok hrun)

end RamFile

/-- The calls on a regular file. -/
inductive RamCall where
  | write (f : FsHandle) (offset : UInt32) (buf : List UInt8)
  | read (f : FsHandle) (offset len : UInt32)
  | openFile (mode : UInt32)

/-- What a call does, with the bytes that it gives or has taken. -/
def RamCall.perform (m : Machine W) (p : PagerId) (okModes : UInt32) :
    RamCall → Call W (List UInt8)
  | .write f offset buf => fileWrite m f offset buf
  | .read f offset len => fileRead m f offset len
  | .openFile mode => do
      let _ ← nullfsFOpen m p okModes mode
      return []

/-- The bytes that a call on a byte array gives or takes. -/
def RamCall.answer (ref : List UInt8) : RamCall → List UInt8
  | .write f _ buf => if f.mode &&& fmWrite = 0 then [] else buf
  | .read f offset len =>
      if f.mode &&& fmRead = 0 then [] else slice ref offset.toNat len.toNat
  | .openFile _ => []

/-- The byte array after a call. -/
def RamCall.reference (okModes : UInt32) (ref : List UInt8) : RamCall → List UInt8
  | .write f offset buf =>
      if f.mode &&& fmWrite = 0 then ref else Lib.Growing.write 0 ref offset.toNat buf
  | .read _ _ _ => ref
  | .openFile mode =>
      if mode &&& ~~~okModes = 0 ∧ mode &&& fmTrunc ≠ 0 then [] else ref

/-- A call on the file of the pager `p`, of some bytes that lie in the address space. -/
def RamCall.InDomain (p : PagerId) : RamCall → Prop
  | .write f offset buf =>
      f.pager = some p ∧ 0 < buf.length ∧ offset.toNat + buf.length < 2 ^ 32
  | .read f offset len => f.pager = some p ∧ 0 < len ∧ offset.toNat + len.toNat < 2 ^ 32
  | .openFile _ => True

/-- A write does not end in the last page of the address space. -/
def RamCall.EndsBelowTop : RamCall → Prop
  | .write _ offset buf => offset.toNat + buf.length ≤ 0xFFFFF000
  | _ => True

section Calls

variable {m : Machine W} {d : Backing W} {p : PagerId} {ref : List UInt8} {s s' : Vm (Board W)}

/-- What a call does to a file, unless an allocation fails. -/
def Follows (p : PagerId) (ref answer : List UInt8) (s s' : Vm (Board W)) (bytes : List UInt8) :
    Prop :=
  ∃ new, s'.world.calls = new ++ s.world.calls ∧
    (AllGiven new → RamFile p ref s' ∧ bytes = answer)

/-- A write extends the file first where it has to. -/
theorem RamFile.write_through {f : FsHandle} {offset : UInt32} {buf : List UInt8}
    (h : RamFile p ref s) (hfree : (s.pager p).lock = false) (hpager : f.pager = some p)
    (hpos : 0 < buf.length) (hends : offset.toNat + buf.length ≤ 0xFFFFF000) :
    Yields (fsWriteToPager (board m d) f offset buf) s fun bytes s' =>
      Follows p (Lib.Growing.write 0 ref offset.toNat buf) buf s s' bytes := by
  have hsize := h.size
  have hlength : (UInt32.ofNat buf.length).toNat = buf.length :=
    UInt32.toNat_ofNat_of_lt' (show buf.length < 2 ^ 32 by omega)
  have hstop : (offset + UInt32.ofNat buf.length).toNat = offset.toNat + buf.length := by
    rw [toNat_add_of_lt (by omega), hlength]
  rw [fsWriteToPager, hpager]
  refine yields_bind_of_run (run_the_pager p s) ?_
  by_cases hgrow : offset + UInt32.ofNat buf.length > (s.pager p).size
  · dsimp only
    rw [if_pos hgrow]
    rw [gt_iff_lt, UInt32.lt_iff_toNat_lt] at hgrow
    refine (h.grow hfree (by omega) (by omega)).bind fun _ t ht => ?_
    obtain ⟨hworld, hgrown⟩ := ht
    have hfile := h.extend (by omega) (by omega) hworld hgrown
    have hfree' : (t.pager p).lock = false := by
      rw [hgrown]
      exact hfree
    have hinside : offset.toNat + buf.length ≤ (ref ++ List.replicate
        ((offset + UInt32.ofNat buf.length).toNat - ref.length) 0).length := by
      simp only [List.length_append, List.length_replicate]
      omega
    refine (hfile.write hfree' hpos hinside).mono fun bytes s' hs' => ?_
    obtain ⟨new, hnew, hdone⟩ := hs'
    refine ⟨new, by rw [hnew, hworld], fun hgiven => ?_⟩
    have hextend : ref.length + ((offset + UInt32.ofNat buf.length).toNat - ref.length) ≤
        offset.toNat + buf.length := by omega
    rw [← write_extend hextend]
    exact hdone hgiven
  · dsimp only
    rw [if_neg hgrow]
    rw [gt_iff_lt, UInt32.lt_iff_toNat_lt] at hgrow
    exact h.write hfree hpos (by omega)

/-- Each call does to the file what it does to the byte array. -/
theorem RamFile.serves {okModes : UInt32} {call : RamCall} (h : RamFile p ref s)
    (hfree : (s.pager p).lock = false) (hdomain : call.InDomain p) (hends : call.EndsBelowTop) :
    Yields (call.perform (board m d) p okModes) s fun bytes s' =>
      Follows p (call.reference okModes ref) (call.answer ref) s s' bytes := by
  cases call with
  | write f offset buf =>
      obtain ⟨hpager, hpos, hsmall⟩ := hdomain
      have hsome : UInt32.ofNat buf.length ≠ 0 := by
        intro hzero
        have hlength : (UInt32.ofNat buf.length).toNat = buf.length :=
          UInt32.toNat_ofNat_of_lt' (show buf.length < 2 ^ 32 by omega)
        rw [hzero, UInt32.toNat_zero] at hlength
        omega
      simp only [RamCall.perform, fileWrite, RamCall.reference, RamCall.answer]
      rw [if_neg hsome]
      refine yields_ite (fun hmode => ?_) fun hmode => ?_
      · rw [if_pos hmode, if_pos hmode]
        exact yields_pure ⟨[], rfl, fun _ => ⟨h, rfl⟩⟩
      · rw [if_neg hmode, if_neg hmode]
        exact h.write_through hfree hpager hpos hends
  | read f offset len =>
      obtain ⟨hpager, hpos, hsmall⟩ := hdomain
      have hsome : len ≠ 0 := fun hzero => absurd (hzero ▸ hpos) (by decide)
      simp only [RamCall.perform, fileRead, fsReadFromPager, hpager, RamCall.reference,
        RamCall.answer]
      rw [if_neg hsome]
      refine yields_ite (fun hmode => ?_) fun hmode => ?_
      · rw [if_pos hmode]
        exact yields_pure ⟨[], rfl, fun _ => ⟨h, rfl⟩⟩
      · rw [if_neg hmode]
        exact h.read hfree hsmall
  | openFile mode =>
      simp only [RamCall.perform, nullfsFOpen, RamCall.reference, RamCall.answer]
      have hopen : Yields (do
          if mode &&& ~~~okModes ≠ 0 then return false
          else
            if mode &&& fmTrunc ≠ 0 then
              let _ ← pagerResize (board m d) p 0
            return true : Call (Board W) Bool) s fun _ s' =>
              Follows p (if mode &&& ~~~okModes = 0 ∧ mode &&& fmTrunc ≠ 0 then [] else ref) [] s
                s' [] := by
        refine yields_ite (fun hrefused => ?_) fun hallowed => ?_
        · rw [if_neg fun hand => hrefused hand.1]
          exact yields_pure ⟨[], rfl, fun _ => ⟨h, rfl⟩⟩
        · refine yields_ite (fun htrunc => ?_) fun hkeep => ?_
          · rw [if_pos ⟨not_not.mp hallowed, htrunc⟩]
            refine (h.truncate hfree).bind fun _ s' hs' => ?_
            obtain ⟨hfile, new, hnew⟩ := hs'
            exact yields_pure ⟨new, hnew, fun _ => ⟨hfile, rfl⟩⟩
          · rw [if_neg fun hand => hkeep hand.2]
            exact yields_pure ⟨[], rfl, fun _ => ⟨h, rfl⟩⟩
      exact hopen.bind fun _ s' hs' => yields_pure hs'

end Calls

/-- A machine with a regular file, and the byte array that the file is to be. -/
structure RamRun (W : Type) where
  vm : Vm (Board W)
  ref : List UInt8

section Runs

variable (m : Machine W) (d : Backing W) (p : PagerId) (okModes : UInt32)

/-- A call, for which the mutex of the pager is available. -/
def RamRun.call (c : RamRun W) (call : RamCall) : Except Halt (List UInt8 × Vm (Board W)) :=
  call.perform (board m d) p okModes (c.vm.withPagerLock p false)

/-- One call that returns. -/
def RamRun.next (c : RamRun W) (call : RamCall) : Option (RamRun W) :=
  match c.call m d p okModes call with
  | .ok (_, vm) => some { vm := vm, ref := call.reference okModes c.ref }
  | .error _ => none

/-- No allocation fails in the call. -/
def RamRun.given (c : RamRun W) (call : RamCall) : Bool :=
  match c.call m d p okModes call with
  | .ok (_, vm) => (newCalls c.vm.world.calls vm.world.calls).all MachineCall.given
  | .error _ => true

/-- The file has just been made, with a number of zeros in it. -/
def RamRun.Made (c : RamRun W) : Prop :=
  ∃ size, c.vm.pager p =
      { ops := .swap true, size := size, pages := fun _ => 0, lock := false, maps := [] } ∧
    size.toNat ≤ 0xFFFFF000 ∧ c.ref = List.replicate size.toNat 0

/-- The runs of calls on the file of which each lets `may` pass, without a failed allocation. -/
def ramRuns (may : RamCall → Prop) : System (RamRun W) :=
  eventRuns (RamRun.Made p) (RamRun.next m d p okModes) fun c call =>
    call.InDomain p ∧ may call ∧ c.given m d p okModes call = true

/-- The calls return and, as long as no allocation fails, answer as those on the byte array. -/
def IsByteArray (may : RamCall → Prop) (c : RamRun W) : Prop :=
  ∀ call : RamCall, call.InDomain p → may call → ∃ bytes vm,
    c.call m d p okModes call = .ok (bytes, vm) ∧
      (c.given m d p okModes call = true → bytes = call.answer c.ref)

variable {m d p okModes} {c c' : RamRun W} {call : RamCall}

theorem RamRun.made_file (h : c.Made p) : RamFile p c.ref c.vm := by
  obtain ⟨size, hpager, hfits, href⟩ := h
  have hzero : ∀ x, c.ref.getD x 0 = 0 := by
    intro x
    rw [href, ← List.nil_append (List.replicate _ _), getD_extend]
    rfl
  refine ⟨by rw [hpager], by rw [hpager], ?_, ?_, ?_, fun _ _ _ _ _ => hzero _⟩
  · rw [hpager, href, List.length_replicate]
  · rw [href, List.length_replicate]
    exact hfits
  · have hnone : ∀ page, (c.vm.pager p).pages page = 0 := fun page => by rw [hpager]
    exact ⟨fun page h => absurd (hnone page) h, fun page h => absurd (hnone page) h,
      fun page _ h => absurd (hnone page) h⟩

/-- What a call on a file does, in terms of the run. -/
theorem RamRun.call_spec (hfile : RamFile p c.ref c.vm) (hdomain : call.InDomain p)
    (hends : call.EndsBelowTop) : ∃ bytes vm, c.call m d p okModes call = .ok (bytes, vm) ∧
      (c.given m d p okModes call = true →
        RamFile p (call.reference okModes c.ref) vm ∧ bytes = call.answer c.ref) := by
  have hserved : Yields (call.perform (board m d) p okModes) (c.vm.withPagerLock p false)
      fun bytes vm => Follows p (call.reference okModes c.ref) (call.answer c.ref)
        (c.vm.withPagerLock p false) vm bytes :=
    (hfile.with_lock false).serves (Vm.with_pager_lock_lock c.vm p false) hdomain hends
  obtain ⟨bytes, vm, hrun, new, hnew, hdone⟩ := hserved
  have hcall : c.call m d p okModes call = .ok (bytes, vm) := hrun
  refine ⟨bytes, vm, hcall, fun hgiven => hdone ?_⟩
  rw [RamRun.given, hcall] at hgiven
  have hcalls : newCalls c.vm.world.calls vm.world.calls = new := by
    rw [hnew]
    exact new_calls_append _ _
  simp only [hcalls, List.all_eq_true] at hgiven
  exact hgiven

/-- A regular file is a byte array, as long as no write ends in the last page of the address
space. -/
theorem ram_file_is_byte_array (hc : Reachable (ramRuns m d p okModes RamCall.EndsBelowTop) c) :
    IsByteArray m d p okModes RamCall.EndsBelowTop c := by
  have hfile : RamFile p c.ref c.vm := by
    refine hc.induct (fun _ => RamRun.made_file) fun c c' hfile hstep => ?_
    obtain ⟨call, ⟨hdomain, hends, hgiven⟩, hnext⟩ := hstep
    obtain ⟨bytes, vm, hcall, hdone⟩ := RamRun.call_spec hfile hdomain hends
    rw [RamRun.next, hcall] at hnext
    obtain rfl := Option.some.inj hnext
    exact (hdone hgiven).1
  intro call hdomain hends
  obtain ⟨bytes, vm, hcall, hdone⟩ := RamRun.call_spec hfile hdomain hends
  exact ⟨bytes, vm, hcall, fun hgiven => (hdone hgiven).2⟩

end Runs

section Examples

/-- An empty file on a blank board. -/
def emptyFile : RamRun UInt32 :=
  let blank := Vm.boardBlank
  { vm := { blank with pager := fun _ => { blank.pager 0 with ops := .swap true, size := 0 } }
    ref := [] }

theorem empty_file_made : emptyFile.Made 0 :=
  ⟨0, rfl, by decide, rfl⟩

/-- A handle for reading and writing. -/
def ramHandle : FsHandle :=
  ⟨3, fmRead ||| fmWrite, some 0⟩

/-- Bytes are written, the file is truncated, and a byte is written behind where they were. -/
def regrown : List RamCall :=
  [.write ramHandle 0x10 [1, 2, 3], .openFile fmTrunc, .write ramHandle 0x18 [7]]

/-- The guard of the runs, evaluated. -/
def RamRun.guard (c : RamRun UInt32) : RamCall → Bool
  | .write f offset buf => f.pager = some 0 && 0 < buf.length &&
      offset.toNat + buf.length ≤ 0xFFFFF000 &&
        c.given Machine.counting Backing.zeros 0 fmTrunc (.write f offset buf)
  | .read f offset len => f.pager = some 0 && 0 < len &&
      offset.toNat + len.toNat < 2 ^ 32 &&
        c.given Machine.counting Backing.zeros 0 fmTrunc (.read f offset len)
  | .openFile mode => c.given Machine.counting Backing.zeros 0 fmTrunc (.openFile mode)

theorem ram_guard_allows {c : RamRun UInt32} {call : RamCall} (h : c.guard call = true) :
    call.InDomain 0 ∧ call.EndsBelowTop ∧
      c.given Machine.counting Backing.zeros 0 fmTrunc call = true := by
  cases call with
  | write f offset buf =>
      simp only [RamRun.guard, Bool.and_eq_true, decide_eq_true_eq] at h
      obtain ⟨⟨⟨hpager, hpos⟩, hends⟩, hgiven⟩ := h
      exact ⟨⟨hpager, hpos, by omega⟩, hends, hgiven⟩
  | read f offset len =>
      simp only [RamRun.guard, Bool.and_eq_true, decide_eq_true_eq] at h
      obtain ⟨⟨⟨hpager, hpos⟩, hends⟩, hgiven⟩ := h
      exact ⟨⟨hpager, hpos, hends⟩, trivial, hgiven⟩
  | openFile mode => exact ⟨trivial, trivial, h⟩

/-- What was in the file before it was truncated is not there any more. -/
theorem ram_file_is_byte_array_regrown : ∃ c : RamRun UInt32,
    c.ref = List.replicate 24 0 ++ [7] ∧
      IsByteArray Machine.counting Backing.zeros 0 fmTrunc RamCall.EndsBelowTop c := by
  have hrun : (runEvents (RamRun.next Machine.counting Backing.zeros 0 fmTrunc) RamRun.guard
      regrown emptyFile).map (fun c => c.ref) = some (List.replicate 24 0 ++ [7]) := by
    decide +kernel
  obtain ⟨c, hrun, href⟩ := Option.map_eq_some_iff.mp hrun
  exact ⟨c, href, ram_file_is_byte_array
    (Reachable.run_events (fun _ _ => ram_guard_allows) (.init empty_file_made) hrun)⟩

/-- A write at the end of the address space never returns. -/
theorem ram_write_at_top_diverges : ¬ ∀ c : RamRun UInt32,
    Reachable (ramRuns Machine.counting Backing.zeros 0 fmTrunc fun _ => True) c →
      IsByteArray Machine.counting Backing.zeros 0 fmTrunc (fun _ => True) c := by
  intro hclaim
  have hdomain : RamCall.InDomain 0 (.write ramHandle 0xFFFFF800 [1, 2, 3]) :=
    ⟨rfl, by decide, by decide⟩
  obtain ⟨bytes, vm, hcall, -⟩ := hclaim emptyFile (.init empty_file_made) _ hdomain trivial
  have hrun : (match emptyFile.call Machine.counting Backing.zeros 0 fmTrunc
      (.write ramHandle 0xFFFFF800 [1, 2, 3]) with
    | .ok _ => true
    | .error _ => false) = false := by
    decide +kernel
  rw [hcall] at hrun
  cases hrun

end Examples

end Kogata.Kernel
