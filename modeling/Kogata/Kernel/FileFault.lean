import Kogata.Kernel.DeviceTable

/-!
# Page faults at and beyond the end of a file

A fault in a mapped file asks `pager_get_frame` for the page until there is one. The machine is
watched for what `vfs_page_in` does with its loading window. `fault_harmless_iff` says for which
pages nothing outside the window is touched and the loop ends, when memory comes back in the end:
those that are loaded, and those that begin at the end of the file or before it, are not the last
page of the address space, and are delivered by the driver.
-/

namespace Kogata.Kernel

open Lib.Effect Lib.Word

variable {W : Type}

/-- What a VFS pager does with its loading window. -/
inductive WindowCall where
  | alloc (region : UInt32)
  | clear (addr : UInt32) (len : Nat)
  | read (offset len addr : UInt32)
  deriving DecidableEq

/-- The call stays inside the page at `region`. -/
def InWindow (region : UInt32) : WindowCall → Prop
  | .alloc window => window = region
  | .clear addr len => region.toNat ≤ addr.toNat ∧ addr.toNat + len ≤ region.toNat + 4096
  | .read _ len addr => addr = region ∧ len ≤ pageSize

/-- The machine, with its window calls on record, the last one first. -/
def watch (m : Machine W) : Machine (W × List WindowCall) where
  malloc := fun (w, log) => ((m.malloc w).1, (m.malloc w).2, log)
  mallocRegion := fun (w, log) => ((m.mallocRegion w).1, (m.mallocRegion w).2, log)
  regionAlloc := fun len (w, log) =>
    ((m.regionAlloc len w).1, (m.regionAlloc len w).2, .alloc (m.regionAlloc len w).1 :: log)
  regionFree := fun addr (w, log) => (m.regionFree addr w, log)
  frameAlloc := fun (w, log) => ((m.frameAlloc w).1, (m.frameAlloc w).2, log)
  frameFree := fun frame (w, log) => (m.frameFree frame w, log)
  freeSomeMemory := fun (w, log) => (m.freeSomeMemory w, log)
  pdGetEntry := fun space addr (w, log) =>
    ((m.pdGetEntry space addr w).1, (m.pdGetEntry space addr w).2, log)
  pdMapPage := fun space addr frame rw (w, log) =>
    ((m.pdMapPage space addr frame rw w).1, (m.pdMapPage space addr frame rw w).2, log)
  pdUnmapPage := fun space addr (w, log) => (m.pdUnmapPage space addr w, log)
  load := fun addr (w, _) => m.load addr w
  store := fun addr bytes (w, log) => (m.store addr bytes w, .clear addr bytes.length :: log)
  vfsRead := fun node offset len addr (w, log) =>
    ((m.vfsRead node offset len addr w).1, (m.vfsRead node offset len addr w).2,
      .read offset len addr :: log)
  vfsWrite := fun node offset len addr (w, log) =>
    ((m.vfsWrite node offset len addr w).1, (m.vfsWrite node offset len addr w).2, log)
  vfsResize := fun node newSize (w, log) =>
    ((m.vfsResize node newSize w).1, (m.vfsResize node newSize w).2, log)
  refFile := fun f (w, log) => (m.refFile f w, log)
  unrefFile := fun f (w, log) => (m.unrefFile f w, log)

/-- Memory comes back: `short` is how often `free_some_memory` has to be called before
allocations succeed. Windows lie inside the address space, and frames inside physical memory. -/
structure MemoryComes (m : Machine W) (short : W → Nat) : Prop where
  window : ∀ w, (m.regionAlloc pageSize w).1.toNat + 4096 ≤ 2 ^ 32
  frame : ∀ w, (m.frameAlloc w).1.toNat < 2 ^ 20
  regionThere : ∀ w, short w = 0 → (m.regionAlloc pageSize w).1 ≠ 0
  frameThere : ∀ w, short w = 0 → (m.frameAlloc w).1 ≠ 0
  tableThere : ∀ region frame w, short w = 0 → (m.pdMapPage .kernel region frame true w).1 = true
  mallocThere : ∀ w, short w = 0 → (m.malloc w).1 = true
  regionAlloc : ∀ w, short (m.regionAlloc pageSize w).2 ≤ short w
  regionFree : ∀ region w, short (m.regionFree region w) ≤ short w
  frameAlloc : ∀ w, short (m.frameAlloc w).2 ≤ short w
  frameFree : ∀ frame w, short (m.frameFree frame w) ≤ short w
  pdMapPage : ∀ region frame w, short (m.pdMapPage .kernel region frame true w).2 ≤ short w
  pdUnmapPage : ∀ region w, short (m.pdUnmapPage .kernel region w) ≤ short w
  store : ∀ addr bytes w, short (m.store addr bytes w) ≤ short w
  vfsRead : ∀ node offset len addr w, short (m.vfsRead node offset len addr w).2 ≤ short w
  malloc : ∀ w, short (m.malloc w).2 ≤ short w
  freed : ∀ w, short (m.freeSomeMemory w) ≤ short w - 1

/-- The state in which `proc_usermem_pf` asks again, after attempts that gave no frame. -/
inductive Retries (m : Machine W) (p : PagerId) (page : UInt32) (s : Vm W) : Vm W → Prop
  | first : Retries m p page s s
  | again {t t' : Vm W} : Retries m p page s t → pagerGetFrame m p page t = .ok (0, t') →
      Retries m p page s { t' with world := m.freeSomeMemory t'.world }

/-- A fault on a page is harmless: however often the pager is asked for its frame, nothing
outside the loading window is touched, and the loop that asks for it ends. -/
structure Harmless (m : Machine W) (p : PagerId) (page : UInt32) (s : Vm (W × List WindowCall)) :
    Prop where
  inside : ∀ t frame t', Retries (watch m) p page s t →
    pagerGetFrame (watch m) p page t = .ok (frame, t') →
    ∃ region new, t'.world.2 = new ++ t.world.2 ∧ ∀ call ∈ new, InWindow region call
  ends : ∃ tries frame s', frameLoop (watch m) p page tries s = .ok (frame, s')

/-- What of a pager does not change while a page of it is asked for. -/
structure Asked (p : PagerId) (page size : UInt32) (v : VfsPager) (s : Vm W) : Prop where
  ops : (s.pager p).ops = .vfs v
  canRead : v.canRead = true
  size : (s.pager p).size = size
  missing : (s.pager p).pages page = 0

/-- The frame of an entry that has just been made. -/
theorem frame_shift_shift {frame : UInt32} (h : frame.toNat < 2 ^ 20) :
    (frame <<< entFrameShift) >>> entFrameShift = frame := by
  rw [← UInt32.toNat_inj, frame_toNat, UInt32.toNat_shiftLeft]
  change (frame.toNat <<< 12) % 2 ^ 32 / 4096 = frame.toNat
  rw [Nat.shiftLeft_eq]
  omega

section Attempt

variable {m : Machine W} {short : W → Nat} {delivered : UInt32 → UInt32 → UInt32} {p : PagerId}
  {page size : UInt32} {v : VfsPager} {s : Vm (W × List WindowCall)}

/-- What `vfs_page_in` does with the window for one page, the last call first. -/
def windowCalls (size page region : UInt32) : List WindowCall :=
  .read page (expectLen size page) region ::
    if page + pageSize > size then
      [.clear (region + expectLen size page) (pageSize - expectLen size page).toNat] else []

/-- What has been done for a page between taking a frame and having an entry for it: nothing as
long as memory is short, or the driver has been asked. -/
structure PageAsked (short : W → Nat) (delivered : UInt32 → UInt32 → UInt32)
    (p : PagerId) (page size region frame : UInt32) (done : Bool)
    (s s' : Vm (W × List WindowCall)) : Prop where
  less : short s'.world.1 ≤ short s.world.1
  pager : s'.pager = if done then Function.update s.pager p
    { s.pager p with pages := Function.update (s.pager p).pages page (frame <<< entFrameShift) }
    else s.pager
  delivers : done = true → delivered page (expectLen size page) = expectLen size page
  calls : (s'.world.2 = s.world.2 ∧ done = false ∧ short s.world.1 ≠ 0) ∨
    s'.world.2 = windowCalls size page region ++ s.world.2 ∧
      (short s.world.1 = 0 → delivered page (expectLen size page) = expectLen size page →
        done = true)

/-- The driver delivers the same at every attempt. -/
abbrev DeliversSame (m : Machine W) (delivered : UInt32 → UInt32 → UInt32) : Prop :=
  ∀ node offset len addr w, (m.vfsRead node offset len addr w).1 = delivered offset len

/-- The body of `vfs_page_in` from the driver's `read` on. -/
theorem vfs_read_asked (hmem : MemoryComes m short) (hread : DeliversSame m delivered)
    (region frame : UInt32) {t : Vm (W × List WindowCall)} (hpager : t.pager = s.pager)
    (hless : short t.world.1 ≤ short s.world.1)
    (hcalls : .read page (expectLen size page) region :: t.world.2 =
      windowCalls size page region ++ s.world.2) :
    Yields (do
      let readLen ← ask ((watch m).vfsRead v.node page (expectLen size page) region)
      tell ((watch m).pdUnmapPage .kernel region)
      if readLen ≠ expectLen size page then return false
      else addPage (watch m) p page (frame <<< entFrameShift)) t
      fun done s' => PageAsked short delivered p page size region frame done s s' := by
  generalize hexpect : expectLen size page = expect at hcalls ⊢
  refine yields_bind_of_run (show _ = Except.ok ((m.vfsRead v.node page expect region t.world.1).1,
    { t with world := ((m.vfsRead v.node page expect region t.world.1).2,
      .read page expect region :: t.world.2) }) from rfl) ?_
  rw [hread, hcalls]
  have hlessRead := hmem.vfsRead v.node page expect region t.world.1
  generalize (m.vfsRead v.node page expect region t.world.1).2 = w at *
  refine yields_bind_of_run (show _ = Except.ok ((), { t with
    world := (m.pdUnmapPage .kernel region w, windowCalls size page region ++ s.world.2) })
    from rfl) ?_
  have hlessUnmap := hmem.pdUnmapPage region w
  generalize m.pdUnmapPage .kernel region w = w at *
  refine yields_ite (fun hne => yields_pure ?_) fun heq => ?_
  · refine ⟨?_, hpager, nofun, .inr ⟨rfl, fun _ h => absurd h (hexpect ▸ hne)⟩⟩
    change short w ≤ _
    omega
  · have hdelivers : delivered page (expectLen size page) = expectLen size page := by
      rw [hexpect]
      exact not_not.mp heq
    refine yields_bind_of_run (show _ = Except.ok ((m.malloc w).1, { t with
      world := ((m.malloc w).2, windowCalls size page region ++ s.world.2) }) from rfl) ?_
    have hlessMalloc := hmem.malloc w
    refine yields_ite (fun hmalloc => ?_) fun hmalloc => yields_pure ?_
    · refine yields_of_run rfl ⟨?_, ?_, fun _ => hdelivers, .inr ⟨rfl, fun _ _ => rfl⟩⟩
      · change short (m.malloc w).2 ≤ _
        omega
      · rw [if_pos rfl, ← hpager]
    · refine ⟨?_, hpager, nofun, .inr ⟨rfl, fun hzero _ => ?_⟩⟩
      · change short (m.malloc w).2 ≤ _
        omega
      · exact absurd (hmem.mallocThere w (by omega)) hmalloc

theorem vfs_load_page_asked (hmem : MemoryComes m short) (hread : DeliversSame m delivered)
    (hsize : (s.pager p).size = size) (region frame : UInt32) :
    Yields (vfsLoadPage (watch m) p v region page frame) s
      fun done s' => PageAsked short delivered p page size region frame done s s' := by
  subst hsize
  have hless := hmem.pdMapPage region frame s.world.1
  refine yields_bind_of_run (show _ = Except.ok
    ((m.pdMapPage .kernel region frame true s.world.1).1,
      { s with world := ((m.pdMapPage .kernel region frame true s.world.1).2, s.world.2) })
    from rfl) ?_
  have htable := hmem.tableThere region frame s.world.1
  generalize (m.pdMapPage .kernel region frame true s.world.1).1 = mapped at *
  generalize (m.pdMapPage .kernel region frame true s.world.1).2 = w at *
  refine yields_ite (fun _ => ?_) fun hmap => yields_pure ?_
  · refine yields_bind_of_run (run_the_pager p _) (yields_ite (fun hpast => ?_) fun hpast => ?_)
    · -- The file ends before the page does.
      have hstore := hmem.store (region + expectLen (s.pager p).size page)
        (List.replicate (pageSize - expectLen (s.pager p).size page).toNat 0) w
      refine yields_bind_of_run (show _ = Except.ok ((), { s with world := ((watch m).clear
        (region + expectLen (s.pager p).size page) (pageSize - expectLen (s.pager p).size page)
          (w, s.world.2)) }) from rfl) ?_
      refine vfs_read_asked hmem hread region frame rfl (Nat.le_trans hstore hless) ?_
      rw [windowCalls, if_pos (by exact hpast)]
      simp [watch, Machine.clear]
    · refine vfs_read_asked hmem hread region frame (t := { s with world := (w, s.world.2) }) rfl
        hless ?_
      rw [windowCalls, if_neg (by exact hpast)]
      rfl
  · exact ⟨hless, rfl, nofun, .inl ⟨rfl, rfl, fun hzero => hmap (htable hzero)⟩⟩

/-- What asking for a page that has no entry comes to: the frame that the page has been given, if
it has. -/
structure PageLoaded (short : W → Nat) (delivered : UInt32 → UInt32 → UInt32) (p : PagerId)
    (page size : UInt32) (loaded : Option UInt32) (s s' : Vm (W × List WindowCall)) : Prop where
  less : short s'.world.1 ≤ short s.world.1
  pager : s'.pager = match loaded with
    | none => s.pager
    | some frame => Function.update s.pager p
        { s.pager p with pages := Function.update (s.pager p).pages page (frame <<< entFrameShift) }
  frame : ∀ frame, loaded = some frame → frame ≠ 0 ∧ frame.toNat < 2 ^ 20 ∧
    delivered page (expectLen size page) = expectLen size page
  calls : ∃ region, region.toNat + 4096 ≤ 2 ^ 32 ∧
    (s'.world.2 = .alloc region :: s.world.2 ∧ loaded = none ∧ short s.world.1 ≠ 0 ∨
      s'.world.2 = windowCalls size page region ++ .alloc region :: s.world.2 ∧
        (short s.world.1 = 0 → delivered page (expectLen size page) = expectLen size page →
          loaded ≠ none))

theorem pages_of_one (h : page.toNat + 4096 < 2 ^ 32) :
    pagesOf page pageSize = [page] ∧ pagesWrap page pageSize = false := by
  have hsteps : pageSteps page pageSize = 1 := by
    rw [pageSteps, toNat_add_of_lt (by exact h)]
    change (page.toNat + 4096 - page.toNat + 4095) / 4096 = 1
    omega
  constructor
  · rw [pagesOf, hsteps]
    simp
  · rw [pagesWrap, hsteps, Nat.one_mul]
    exact decide_eq_false (by omega)

/-- The loop over a single page. -/
theorem for_one_page (h : page.toNat + 4096 < 2 ^ 32) {W : Type} (body : UInt32 → Call W Unit) :
    forPages page pageSize body = body page := by
  obtain ⟨hpages, hwrap⟩ := pages_of_one h
  rw [forPages, hpages, hwrap]
  simp

theorem vfs_page_in_loads (hmem : MemoryComes m short) (hread : DeliversSame m delivered)
    (h : Asked p page size v s) (haligned : pageAligned page = true)
    (hlast : page.toNat + 4096 < 2 ^ 32) :
    Yields (vfsPageIn (watch m) p v page pageSize) s
      fun _ s' => ∃ loaded, PageLoaded short delivered p page size loaded s s' := by
  simp only [vfsPageIn, haligned, h.canRead, for_one_page hlast]
  refine yields_bind_of_run rfl (yields_bind_of_run rfl ?_)
  have hwindow := hmem.window s.world.1
  have hregion := hmem.regionThere s.world.1
  have hless := hmem.regionAlloc s.world.1
  refine yields_bind_of_run (show _ = Except.ok ((m.regionAlloc pageSize s.world.1).1, { s with
    world := ((m.regionAlloc pageSize s.world.1).2,
      .alloc (m.regionAlloc pageSize s.world.1).1 :: s.world.2) }) from rfl) ?_
  generalize (m.regionAlloc pageSize s.world.1).1 = region at *
  generalize (m.regionAlloc pageSize s.world.1).2 = w at *
  refine yields_ite (fun hzero => yields_pure ?_) fun _ => ?_
  · exact ⟨none, hless, rfl, nofun, region, hwindow, .inl ⟨rfl, rfl, fun h => hregion h hzero⟩⟩
  -- The rest is about a window that is there.
  have hbody : Yields (do
      if (← findPage p page) = 0 then
        let frame ← ask (watch m).frameAlloc
        if frame ≠ 0 then
          if !(← vfsLoadPage (watch m) p v region page frame) then
            tell ((watch m).frameFree frame) : Call (W × List WindowCall) Unit)
      { s with world := (w, .alloc region :: s.world.2) }
      fun _ s' => ∃ loaded, PageLoaded short delivered p page size loaded s s' := by
    refine yields_bind_of_run rfl (yields_ite (fun _ => ?_) fun hne => absurd h.missing hne)
    have hframe := hmem.frameThere w
    have hsmall := hmem.frame w
    have hlessFrame := hmem.frameAlloc w
    refine yields_bind_of_run (show _ = Except.ok ((m.frameAlloc w).1, { s with
      world := ((m.frameAlloc w).2, .alloc region :: s.world.2) }) from rfl) ?_
    generalize (m.frameAlloc w).1 = frame at *
    generalize (m.frameAlloc w).2 = w' at *
    refine yields_ite (fun hne => ?_) fun hzero => yields_pure ?_
    · refine (vfs_load_page_asked hmem hread (v := v) (s := { s with
        world := (w', .alloc region :: s.world.2) }) h.size region frame).bind fun done t ht => ?_
      have hlessT : short t.world.1 ≤ short s.world.1 :=
        Nat.le_trans ht.less (Nat.le_trans hlessFrame hless)
      cases done with
      | true =>
          refine yields_pure ⟨some frame, hlessT, ht.pager, fun f hf => ?_, region, hwindow, ?_⟩
          · cases hf
            exact ⟨hne, hsmall, ht.delivers rfl⟩
          · rcases ht.calls with ⟨-, hdone, -⟩ | ⟨hcalls, -⟩
            · cases hdone
            · exact .inr ⟨hcalls, fun _ _ => nofun⟩
      | false =>
          have hfree := hmem.frameFree frame t.world.1
          refine yields_of_run rfl ⟨none, Nat.le_trans hfree hlessT, ht.pager, nofun, region,
            hwindow, ?_⟩
          rcases ht.calls with ⟨hcalls, -, hshort⟩ | ⟨hcalls, hdone⟩
          · have hbefore : short w' ≠ 0 := hshort
            exact .inl ⟨hcalls, rfl, by omega⟩
          · refine .inr ⟨hcalls, fun hzero hdelivers => ?_⟩
            have hnow : short w' = 0 := by omega
            exact absurd (hdone hnow hdelivers) (by decide)
    · refine ⟨none, Nat.le_trans hlessFrame hless, rfl, nofun, region, hwindow,
        .inl ⟨rfl, rfl, fun hshort => hzero (hframe (by omega))⟩⟩
  refine hbody.bind fun _ t ht => ?_
  obtain ⟨loaded, ht⟩ := ht
  have hfree := hmem.regionFree region t.world.1
  exact yields_of_run rfl ⟨loaded, Nat.le_trans hfree ht.less, ht.pager, ht.frame, ht.calls⟩

/-- What `pager_get_frame` comes to, for a page that has no entry. -/
structure FrameAsked (short : W → Nat) (delivered : UInt32 → UInt32 → UInt32) (p : PagerId)
    (page size : UInt32) (v : VfsPager) (frame : UInt32) (s s' : Vm (W × List WindowCall)) :
    Prop where
  less : short s'.world.1 ≤ short s.world.1
  free : (s'.pager p).lock = false
  asked : frame = 0 → Asked p page size v s'
  delivers : frame ≠ 0 → delivered page (expectLen size page) = expectLen size page
  calls : ∃ region, region.toNat + 4096 ≤ 2 ^ 32 ∧
    (s'.world.2 = .alloc region :: s.world.2 ∧ frame = 0 ∧ short s.world.1 ≠ 0 ∨
      s'.world.2 = windowCalls size page region ++ .alloc region :: s.world.2 ∧
        (short s.world.1 = 0 → delivered page (expectLen size page) = expectLen size page →
          frame ≠ 0))

theorem get_frame_asked (hmem : MemoryComes m short) (hread : DeliversSame m delivered)
    (h : Asked p page size v s) (hfree : (s.pager p).lock = false)
    (haligned : pageAligned page = true) (hlast : page.toNat + 4096 < 2 ^ 32) :
    Yields (pagerGetFrame (watch m) p page) s
      fun frame s' => FrameAsked short delivered p page size v frame s s' := by
  rw [pagerGetFrame, haligned]
  refine yields_bind_of_run (run_lock_pager hfree) (yields_bind_of_run rfl ?_)
  have hlocked : Asked p page size v (s.withPagerLock p true) := by
    constructor <;> simp [Vm.withPagerLock, h.ops, h.canRead, h.size, h.missing]
  refine yields_bind_of_run rfl (yields_ite (fun _ => ?_) fun hne => absurd hlocked.missing hne)
  have hin : Yields (pageIn (watch m) p page pageSize) (s.withPagerLock p true)
      fun _ s' => ∃ loaded, PageLoaded short delivered p page size loaded
        (s.withPagerLock p true) s' := by
    refine yields_bind_of_run (run_the_pager p _) ?_
    rw [hlocked.ops]
    exact vfs_page_in_loads hmem hread hlocked haligned hlast
  refine hin.bind fun _ t ht => ?_
  obtain ⟨loaded, ht⟩ := ht
  refine yields_bind_of_run rfl (yields_bind_of_run rfl (yields_pure ?_))
  obtain ⟨hless, hpager, hframe, region, hwindow, hcalls⟩ := ht
  cases loaded with
  | none =>
      have hpages : (t.pager p).pages page = 0 := by
        rw [hpager]
        exact hlocked.missing
      rw [hpages]
      refine ⟨hless, by simp, fun _ => ?_, fun hne => absurd rfl hne, region, hwindow, ?_⟩
      · have hasked : Asked p page size v t := ⟨by rw [hpager]; exact hlocked.ops, h.canRead,
          by rw [hpager]; exact hlocked.size, hpages⟩
        constructor <;> simp [hasked.ops, hasked.canRead, hasked.size, hasked.missing]
      · exact hcalls.imp (fun h => ⟨h.1, rfl, h.2.2⟩)
          fun h => ⟨h.1, fun hzero hdelivers => absurd rfl (h.2 hzero hdelivers)⟩
  | some frame =>
      obtain ⟨hne, hsmall, hdelivers⟩ := hframe frame rfl
      have hpages : (t.pager p).pages page >>> entFrameShift = frame := by
        rw [hpager]
        simp only [Function.update_self]
        exact frame_shift_shift hsmall
      rw [hpages]
      refine ⟨hless, by simp, fun hzero => absurd hzero hne, fun _ => hdelivers, region, hwindow,
        ?_⟩
      rcases hcalls with ⟨-, hno, -⟩ | ⟨hcalls, -⟩
      · cases hno
      · exact .inr ⟨hcalls, fun _ _ => hne⟩

section

variable (hlast : page.toNat + 4096 < 2 ^ 32)

include hlast

theorem expect_len_toNat (hle : page ≤ size) :
    (expectLen size page).toNat = min 4096 (size.toNat - page.toNat) := by
  rw [UInt32.le_iff_toNat_le] at hle
  have hend : (page + pageSize).toNat = page.toNat + 4096 := toNat_add_of_lt hlast
  unfold expectLen
  split
  · next h =>
      rw [gt_iff_lt, UInt32.lt_iff_toNat_lt, hend] at h
      rw [toNat_sub_of_le hle]
      omega
  · next h =>
      rw [gt_iff_lt, UInt32.lt_iff_toNat_lt, hend] at h
      change 4096 = _
      omega

theorem expect_len_inside (hle : page ≤ size) :
    (expectLen size page).toNat ≤ 4096 := by
  rw [expect_len_toNat hlast hle]
  exact Nat.min_le_left _ _

/-- Beyond the end of the file the length wraps around. -/
theorem expect_len_past_end (hpast : size < page) :
    4096 < (expectLen size page).toNat := by
  rw [UInt32.lt_iff_toNat_lt] at hpast
  have hend : (page + pageSize).toNat = page.toNat + 4096 := toNat_add_of_lt hlast
  have hsize := size.toNat_lt
  unfold expectLen
  rw [if_pos (by rw [gt_iff_lt, UInt32.lt_iff_toNat_lt, hend]; omega), UInt32.toNat_sub]
  omega

theorem window_calls_inside (hle : page ≤ size)
    {region : UInt32} (hwindow : region.toNat + 4096 ≤ 2 ^ 32) :
    ∀ call ∈ windowCalls size page region, InWindow region call := by
  have hexpect := expect_len_inside hlast hle
  have hread : InWindow region (.read page (expectLen size page) region) :=
    ⟨rfl, UInt32.le_iff_toNat_le.mpr hexpect⟩
  have hrest : (pageSize - expectLen size page).toNat = 4096 - (expectLen size page).toNat :=
    toNat_sub_of_le hexpect
  intro call hcall
  unfold windowCalls at hcall
  split at hcall
  · next hpast =>
      simp only [List.mem_cons, List.not_mem_nil, or_false] at hcall
      rcases hcall with rfl | rfl
      · exact hread
      · -- The file ends inside the page, so that the sum does not wrap around.
        have hlt : (expectLen size page).toNat < 4096 := by
          rw [gt_iff_lt, UInt32.lt_iff_toNat_lt] at hpast
          have hend : (page + pageSize).toNat = page.toNat + 4096 := toNat_add_of_lt hlast
          rw [UInt32.le_iff_toNat_le] at hle
          rw [expectLen, if_pos (by rw [gt_iff_lt, UInt32.lt_iff_toNat_lt]; exact hpast),
            toNat_sub_of_le hle]
          omega
        have hsum : (region + expectLen size page).toNat =
            region.toNat + (expectLen size page).toNat := toNat_add_of_lt (by omega)
        exact ⟨by omega, by omega⟩
  · obtain rfl := List.mem_singleton.mp hcall
    exact hread

end

/-- The loop goes on as long as the pager gives no frame. -/
theorem frame_loop_diverges {W : Type} {m : Machine W} {motive : Vm W → Prop}
    (hstep : ∀ t, motive t → ∃ t', pagerGetFrame m p page t = .ok (0, t') ∧
      motive { t' with world := m.freeSomeMemory t'.world })
    (tries : Nat) {s : Vm W} (hs : motive s) : frameLoop m p page tries s = .error .diverge := by
  induction tries generalizing s with
  | zero => rfl
  | succ tries ih =>
      obtain ⟨t, hrun, ht⟩ := hstep s hs
      rw [frameLoop, run_bind_of_ok hrun, if_pos rfl]
      exact ih ht

theorem Asked.freed (h : Asked p page size v s) :
    Asked p page size v { s with world := (watch m).freeSomeMemory s.world } :=
  ⟨h.ops, h.canRead, h.size, h.missing⟩

section Loop

variable (hmem : MemoryComes m short) (hread : DeliversSame m delivered)
  (hlast : page.toNat + 4096 < 2 ^ 32) (haligned : pageAligned page = true)

include hmem hread hlast haligned

/-- The state that is asked again is like the first one. -/
theorem Retries.asked {t : Vm (W × List WindowCall)} (ht : Retries (watch m) p page s t)
    (h : Asked p page size v s) (hfree : (s.pager p).lock = false) :
    Asked p page size v t ∧ (t.pager p).lock = false := by
  induction ht with
  | first => exact ⟨h, hfree⟩
  | again _ hrun ih =>
      obtain ⟨frame, t', hrun', hframe⟩ := get_frame_asked hmem hread ih.1 ih.2 haligned hlast
      cases hrun.symm.trans hrun'
      exact ⟨(hframe.asked rfl).freed, hframe.free⟩

/-- The loop ends when the driver delivers the page. -/
theorem frame_loop_ends (hdelivers : delivered page (expectLen size page) = expectLen size page)
    (h : Asked p page size v s) (hfree : (s.pager p).lock = false) :
    ∃ tries frame s', frameLoop (watch m) p page tries s = .ok (frame, s') := by
  induction hn : short s.world.1 using Nat.strong_induction_on generalizing s with
  | h n ih =>
      obtain ⟨frame, t, hrun, hframe⟩ := get_frame_asked hmem hread h hfree haligned hlast
      by_cases hzero : frame = 0
      · have hshort : short s.world.1 ≠ 0 := by
          obtain ⟨region, -, ⟨-, -, hshort⟩ | ⟨-, hthere⟩⟩ := hframe.calls
          · exact hshort
          · exact fun hnone => hthere hnone hdelivers hzero
        have hless := hframe.less
        have hfreed := hmem.freed t.world.1
        obtain ⟨tries, frame', s', hloop⟩ := ih (short (m.freeSomeMemory t.world.1)) (by omega)
          (s := { t with world := (watch m).freeSomeMemory t.world }) (hframe.asked hzero).freed
          hframe.free rfl
        refine ⟨tries + 1, frame', s', ?_⟩
        rw [frameLoop, run_bind_of_ok hrun, if_pos hzero]
        exact hloop
      · refine ⟨1, frame, t, ?_⟩
        rw [frameLoop, run_bind_of_ok hrun, if_neg hzero]
        rfl

/-- Sooner or later the driver is asked. -/
theorem asks_driver (h : Asked p page size v s) (hfree : (s.pager p).lock = false) :
    ∃ t frame t' region, Retries (watch m) p page s t ∧
      pagerGetFrame (watch m) p page t = .ok (frame, t') ∧
      t'.world.2 = windowCalls size page region ++ .alloc region :: t.world.2 := by
  induction hn : short s.world.1 using Nat.strong_induction_on generalizing s with
  | h n ih =>
      obtain ⟨frame, t, hrun, hframe⟩ := get_frame_asked hmem hread h hfree haligned hlast
      obtain ⟨region, -, ⟨-, hzero, hshort⟩ | ⟨hcalls, -⟩⟩ := hframe.calls
      · have hless := hframe.less
        have hfreed := hmem.freed t.world.1
        subst hzero
        obtain ⟨u, frame', u', region', hretries, hrest⟩ :=
          ih (short (m.freeSomeMemory t.world.1)) (by omega)
            (s := { t with world := (watch m).freeSomeMemory t.world }) (hframe.asked rfl).freed
          hframe.free rfl
        refine ⟨u, frame', u', region', ?_, hrest⟩
        clear hrest
        induction hretries with
        | first => exact .again .first hrun
        | again _ hrun' ih => exact .again ih hrun'
      · exact ⟨s, frame, t, region, .first, hrun, hcalls⟩

end Loop

/-- A page that has an entry is not asked for. -/
theorem get_frame_resident {W : Type} {m : Machine W} {s : Vm W}
    (hfree : (s.pager p).lock = false) (haligned : pageAligned page = true)
    (hthere : (s.pager p).pages page ≠ 0) :
    pagerGetFrame m p page s = .ok ((s.pager p).pages page >>> entFrameShift, s) := by
  have hpages : ((s.withPagerLock p true).pager p).pages page = (s.pager p).pages page := by
    simp [Vm.withPagerLock]
  have hcancel : (s.withPagerLock p true).withPagerLock p false = s := by
    have hself : { s.pager p with lock := false } = s.pager p := by rw [← hfree]
    simp [Vm.withPagerLock, hself]
  rw [pagerGetFrame, haligned, run_bind_of_ok (run_lock_pager hfree)]
  have hfind : findPage p page (s.withPagerLock p true) =
      .ok ((s.pager p).pages page, s.withPagerLock p true) := by
    rw [← hpages]
    rfl
  have hassert : assert true (s.withPagerLock p true) = .ok ((), s.withPagerLock p true) := rfl
  rw [run_bind_of_ok hassert, run_bind_of_ok hfind, if_neg hthere]
  refine (run_bind_of_ok hfind).trans ?_
  change Except.ok ((s.pager p).pages page >>> entFrameShift,
    (s.withPagerLock p true).withPagerLock p false) = _
  rw [hcancel]

/-- When the first attempt gives a frame, there is no other. -/
theorem Retries.only_first {W : Type} {m : Machine W} {s s' t : Vm W} {frame : UInt32}
    (ht : Retries m p page s t) (hrun : pagerGetFrame m p page s = .ok (frame, s'))
    (hne : frame ≠ 0) : t = s := by
  induction ht with
  | first => rfl
  | again _ hzero ih =>
      rw [ih] at hzero
      exact absurd (congrArg Prod.fst (Except.ok.inj (hrun.symm.trans hzero))) hne

/-- The last page of the address space is never loaded: the end of the range wraps around. -/
theorem get_frame_last_page {W : Type} {m : Machine W} {s : Vm W}
    (h : Asked p page size v s) (hfree : (s.pager p).lock = false)
    (haligned : pageAligned page = true) (hlast : ¬ page.toNat + 4096 < 2 ^ 32) :
    ∃ s', pagerGetFrame m p page s = .ok (0, s') ∧ Asked p page size v s' ∧
      (s'.pager p).lock = false := by
  have hend : (page + pageSize).toNat = 0 := by
    have hlt := page.toNat_lt
    rw [page_aligned_iff] at haligned
    rw [UInt32.toNat_add]
    change (page.toNat + 4096) % 2 ^ 32 = 0
    omega
  have hsteps : pageSteps page pageSize = 0 := by
    rw [pageSteps, hend]
    omega
  have hpages : pagesOf page pageSize = [] := by
    rw [pagesOf, hsteps]
    rfl
  have hwrap : pagesWrap page pageSize = false := by
    have hlt := page.toNat_lt
    rw [pagesWrap, hsteps, Nat.zero_mul]
    exact decide_eq_false (by omega)
  have hlocked : Asked p page size v (s.withPagerLock p true) := by
    constructor <;> simp [Vm.withPagerLock, h.ops, h.canRead, h.size, h.missing]
  have hin : Yields (pageIn m p page pageSize) (s.withPagerLock p true)
      fun _ s' => s'.pager = (s.withPagerLock p true).pager := by
    refine yields_bind_of_run (run_the_pager p _) ?_
    rw [hlocked.ops]
    simp only [vfsPageIn, haligned, h.canRead, forPages, hpages, hwrap]
    refine yields_bind_of_run rfl (yields_bind_of_run rfl (yields_bind_of_run rfl ?_))
    exact yields_ite (fun _ => yields_pure rfl) fun _ => yields_of_run rfl rfl
  obtain ⟨_, t, hrun, hpager⟩ := hin
  have hmissing : (t.pager p).pages page = 0 := by rw [hpager]; exact hlocked.missing
  have hfind : ∀ u : Vm W, (u.pager p).pages page = 0 → findPage p page u = .ok (0, u) := by
    intro u hu
    rw [← hu]
    rfl
  have hassert : assert true (s.withPagerLock p true) = .ok ((), s.withPagerLock p true) := rfl
  refine ⟨t.withPagerLock p false, ?_, ?_, by simp⟩
  · rw [pagerGetFrame, haligned, run_bind_of_ok (run_lock_pager hfree), run_bind_of_ok hassert,
      run_bind_of_ok (hfind _ hlocked.missing), if_pos rfl, run_bind_of_ok hrun]
    exact run_bind_of_ok (hfind t hmissing)
  · constructor <;> simp [Vm.withPagerLock, hpager, h.ops, h.canRead, h.size, h.missing]

end Attempt

/-- A region as `mmap_file` makes it, on a pager. -/
structure FileMapping (p : PagerId) (reg : UserRegion) : Prop where
  addr : pageAligned reg.addr = true
  offset : pageAligned reg.offset = true
  pager : reg.pager = some p

theorem fault_offset_aligned {p : PagerId} {reg : UserRegion} (h : FileMapping p reg)
    (addr : UInt32) : pageAligned (faultOffset reg addr) = true := by
  have hdown : (addr &&& pageMask).toNat % 4096 = 0 := by
    have hmask : (addr &&& pageMask) &&& ~~~pageMask = 0 := by
      rw [UInt32.and_assoc]
      have hzero : pageMask &&& ~~~pageMask = 0 := by decide
      rw [hzero, UInt32.and_zero]
    exact page_aligned_iff.mp (beq_iff_eq.mpr hmask)
  have haddr := page_aligned_iff.mp h.addr
  have hoffset := page_aligned_iff.mp h.offset
  rw [page_aligned_iff, faultOffset, UInt32.toNat_add, UInt32.toNat_sub]
  omega

/-- The page is loaded; or it begins at the end of the file or before it, is not the last page of
the address space, and the driver delivers what the file has of it. -/
def FaultServed (delivered : UInt32 → UInt32 → UInt32) (pg : Pager) (page : UInt32) : Prop :=
  pg.pages page >>> entFrameShift ≠ 0 ∨
    pg.pages page = 0 ∧ page ≤ pg.size ∧ page.toNat + 4096 < 2 ^ 32 ∧
      delivered page (expectLen pg.size page) = expectLen pg.size page

section Faults

variable {m : Machine W} {short : W → Nat} {delivered : UInt32 → UInt32 → UInt32} {p : PagerId}
  {v : VfsPager} {s : Vm (W × List WindowCall)} {page : UInt32}
  (hmem : MemoryComes m short) (hread : DeliversSame m delivered)
  (hops : (s.pager p).ops = .vfs v) (hcan : v.canRead = true)
  (hfree : (s.pager p).lock = false) (haligned : pageAligned page = true)

include hmem hread hops hcan hfree haligned

theorem harmless_of_served (h : FaultServed delivered (s.pager p) page) : Harmless m p page s := by
  rcases h with hthere | ⟨hmissing, hle, hlast, hdelivers⟩
  · have hne : (s.pager p).pages page ≠ 0 := fun hzero => hthere (by rw [hzero]; rfl)
    have hrun := get_frame_resident (m := watch m) hfree haligned hne
    refine ⟨fun t frame t' ht hrun' => ?_, 1, (s.pager p).pages page >>> entFrameShift, s, ?_⟩
    · obtain rfl := ht.only_first hrun hthere
      cases hrun.symm.trans hrun'
      exact ⟨0, [], rfl, nofun⟩
    · rw [frameLoop, run_bind_of_ok hrun, if_neg hthere]
      rfl
  · have hasked : Asked p page (s.pager p).size v s := ⟨hops, hcan, rfl, hmissing⟩
    refine ⟨fun t frame t' ht hrun => ?_,
      frame_loop_ends hmem hread hlast haligned hdelivers hasked hfree⟩
    obtain ⟨hasked', hfree'⟩ := ht.asked hmem hread hlast haligned hasked hfree
    obtain ⟨frame', u, hrun', hframe⟩ := get_frame_asked hmem hread hasked' hfree' haligned hlast
    cases hrun.symm.trans hrun'
    obtain ⟨region, hwindow, ⟨hcalls, -⟩ | ⟨hcalls, -⟩⟩ := hframe.calls
    · exact ⟨region, [.alloc region], hcalls, by simp [InWindow]⟩
    · refine ⟨region, windowCalls (s.pager p).size page region ++ [.alloc region], ?_, ?_⟩
      · rw [hcalls]
        simp
      · intro call hcall
        rcases List.mem_append.mp hcall with hwin | halloc
        · exact window_calls_inside hlast hle hwindow call hwin
        · rw [List.mem_singleton.mp halloc]
          exact rfl

theorem served_of_harmless (h : Harmless m p page s) : FaultServed delivered (s.pager p) page := by
  by_contra hno
  have hzero : (s.pager p).pages page >>> entFrameShift = 0 := by
    by_contra hthere
    exact hno (.inl hthere)
  obtain ⟨tries, frame, s', hends⟩ := h.ends
  -- A loop that keeps on going ends for no number of attempts.
  have hdiverges : ∀ motive : Vm (W × List WindowCall) → Prop, motive s →
      ¬ ∀ t, motive t → ∃ t', pagerGetFrame (watch m) p page t = .ok (0, t') ∧
        motive { t' with world := (watch m).freeSomeMemory t'.world } := fun motive hs hstep => by
    cases hends.symm.trans (frame_loop_diverges hstep tries hs)
  by_cases hmissing : (s.pager p).pages page = 0
  · have hasked : Asked p page (s.pager p).size v s := ⟨hops, hcan, rfl, hmissing⟩
    by_cases hlast : page.toNat + 4096 < 2 ^ 32
    · by_cases hle : page ≤ (s.pager p).size
      · refine hdiverges (fun t => Asked p page (s.pager p).size v t ∧ (t.pager p).lock = false)
          ⟨hasked, hfree⟩ fun t ht => ?_
        obtain ⟨frame, t', hrun, hframe⟩ := get_frame_asked hmem hread ht.1 ht.2 haligned hlast
        have hframeZero : frame = 0 := by
          by_contra hne
          exact hno (.inr ⟨hmissing, hle, hlast, hframe.delivers hne⟩)
        subst hframeZero
        exact ⟨t', hrun, (hframe.asked rfl).freed, hframe.free⟩
      · obtain ⟨t, frame, t', region, hretries, hrun, hcalls⟩ :=
          asks_driver hmem hread hlast haligned hasked hfree
        obtain ⟨window, new, hnew, hinside⟩ := h.inside t frame t' hretries hrun
        rw [hcalls] at hnew
        have hnew : windowCalls (s.pager p).size page region ++ [.alloc region] = new :=
          List.append_cancel_right (by simpa using hnew)
        have hread : WindowCall.read page (expectLen (s.pager p).size page) region ∈ new := by
          simp [← hnew, windowCalls]
        have hlen : expectLen (s.pager p).size page ≤ pageSize := (hinside _ hread).2
        have hlong := expect_len_past_end hlast (UInt32.not_le.mp hle)
        rw [UInt32.le_iff_toNat_le] at hlen
        exact absurd hlen (Nat.not_le.mpr hlong)
    · refine hdiverges (fun t => Asked p page (s.pager p).size v t ∧ (t.pager p).lock = false)
        ⟨hasked, hfree⟩ fun t ht => ?_
      obtain ⟨t', hrun, hasked', hfree'⟩ :=
        get_frame_last_page (m := watch m) ht.1 ht.2 haligned hlast
      exact ⟨t', hrun, hasked'.freed, hfree'⟩
  · refine hdiverges (fun t => t.pager = s.pager) rfl fun t ht => ⟨t, ?_, ht⟩
    have hrun := get_frame_resident (m := watch m) (s := t) (by rw [ht]; exact hfree) haligned
      (by rw [ht]; exact hmissing)
    rw [hrun, ht, hzero]

end Faults

/-- A page fault in a file mapping touches nothing outside the loading window, and the loop that
asks for the frame ends, exactly when the page is loaded, or begins at the end of the file or
before it, is not the last page of the address space, and is delivered by the driver. Memory comes
back in the end, and the driver delivers the same at every attempt. -/
theorem fault_harmless_iff {m : Machine W} {short : W → Nat} {delivered : UInt32 → UInt32 → UInt32}
    (hmem : MemoryComes m short)
    (hread : ∀ node offset len addr w, (m.vfsRead node offset len addr w).1 = delivered offset len)
    {s : Vm (W × List WindowCall)} {r : RegionId} {p : PagerId} {v : VfsPager}
    (hregion : FileMapping p (s.region r)) (hops : (s.pager p).ops = .vfs v)
    (hcan : v.canRead = true) (hfree : (s.pager p).lock = false) (addr : UInt32) :
    Harmless m p (faultOffset (s.region r) addr) s ↔
      FaultServed delivered (s.pager p) (faultOffset (s.region r) addr) :=
  have haligned := fault_offset_aligned hregion addr
  ⟨served_of_harmless hmem hread hops hcan hfree haligned,
    harmless_of_served hmem hread hops hcan hfree haligned⟩

/-- What the driver of a file of one page delivers. -/
def onePageDelivered (offset len : UInt32) : UInt32 :=
  if offset ≥ 0x1000 then 0 else if offset + len > 0x1000 then 0x1000 - offset else len

/-- A machine with enough memory, and the driver of a file of one page. -/
def Machine.onePageDriver : Machine Unit :=
  { Machine.steady with vfsRead := fun _ offset len _ w => (onePageDelivered offset len, w) }

/-- Four pages have been mapped from a file of one page. -/
def Vm.longMapping : Vm (Unit × List WindowCall) where
  world := ((), [])
  region := fun _ => { proc := 0, addr := 0x400000, size := 0x4000
                       file := some { id := 0, mode := 0xFFFF, pager := some 0 }, pager := some 0
                       offset := 0, ownPager := false, mode := mmRead }
  pager := fun _ => { ops := .vfs { node := 0, canRead := true, canWrite := false
                                    canResize := false }
                      size := 0x1000, pages := fun _ => 0, lock := false, maps := [0] }
  proc := fun _ => Process.new
  next := 1

theorem one_page_driver_memory_comes : MemoryComes Machine.onePageDriver fun _ => 0 where
  window := fun _ => by
    change (0xC1000000 : UInt32).toNat + 4096 ≤ 2 ^ 32
    decide
  frame := fun _ => by
    change (0x100 : UInt32).toNat < 2 ^ 20
    decide
  regionThere := fun _ _ => by
    change (0xC1000000 : UInt32) ≠ 0
    decide
  frameThere := fun _ _ => by
    change (0x100 : UInt32) ≠ 0
    decide
  tableThere := fun _ _ _ _ => rfl
  mallocThere := fun _ _ => rfl
  regionAlloc := fun _ => Nat.le_refl 0
  regionFree := fun _ _ => Nat.le_refl 0
  frameAlloc := fun _ => Nat.le_refl 0
  frameFree := fun _ _ => Nat.le_refl 0
  pdMapPage := fun _ _ _ => Nat.le_refl 0
  pdUnmapPage := fun _ _ => Nat.le_refl 0
  store := fun _ _ _ => Nat.le_refl 0
  vfsRead := fun _ _ _ _ _ => Nat.le_refl 0
  malloc := fun _ => Nat.le_refl 0
  freed := fun _ => Nat.le_refl 0

/-- `fault_harmless_iff` on the first page of a long mapping. -/
theorem fault_harmless_iff_first_page :
    Harmless Machine.onePageDriver 0 (faultOffset (Vm.longMapping.region 0) 0x400010)
        Vm.longMapping ↔
      FaultServed onePageDelivered (Vm.longMapping.pager 0)
        (faultOffset (Vm.longMapping.region 0) 0x400010) :=
  fault_harmless_iff one_page_driver_memory_comes (fun _ _ _ _ _ => rfl)
    ⟨by decide, by decide, rfl⟩ rfl rfl rfl 0x400010

/-- A fault on the third page of a long mapping asks the driver for almost the whole address
space, and the loop that asks for the frame never ends. -/
theorem fault_past_end_harms :
    expectLen 0x1000 0x2000 = 0xFFFFF000 ∧
      ¬ Harmless Machine.onePageDriver 0 (faultOffset (Vm.longMapping.region 0) 0x402010)
        Vm.longMapping ∧
      ∀ tries, frameLoop (watch Machine.onePageDriver) 0 0x2000 tries Vm.longMapping =
        .error .diverge := by
  refine ⟨by decide, fun h => ?_, fun tries => ?_⟩
  · have hserved := served_of_harmless one_page_driver_memory_comes (fun _ _ _ _ _ => rfl)
      (s := Vm.longMapping) rfl rfl rfl (by decide) h
    rcases hserved with hthere | ⟨-, hle, -⟩
    · exact hthere rfl
    · exact absurd hle (by decide)
  · refine frame_loop_diverges (motive := fun t => Asked 0 0x2000 0x1000
      { node := 0, canRead := true, canWrite := false, canResize := false } t ∧
        (t.pager 0).lock = false) (fun t ht => ?_) tries ⟨⟨rfl, rfl, rfl, rfl⟩, rfl⟩
    obtain ⟨frame, t', hrun, hframe⟩ := get_frame_asked one_page_driver_memory_comes
      (fun _ _ _ _ _ => rfl) ht.1 ht.2 (by decide) (by decide)
    have hzero : frame = 0 := by
      by_contra hne
      exact absurd (hframe.delivers hne) (by decide)
    subst hzero
    exact ⟨t', hrun, (hframe.asked rfl).freed, hframe.free⟩

end Kogata.Kernel
