import Kogata.Kernel.Board
import Kogata.Kernel.DeviceTable

/-!
# Which page-table entries `pager_unmap` clears

For each map of the pager, `pager_unmap` clears one entry: that of the page at the start of the
range, in the directory of the process that the map's block names (`pager_unmap_entry`). So a
`pager_resize` or a `change_device_pager` clears what it should exactly when the entries that are
looked up are, of those that are present, the ones of the released pages (`unmaps_released_iff`).
-/

namespace Kogata.Kernel

open Lib.Effect

variable {W : Type}

/-- The slot of the page table that is looked up for an address. -/
def slotOf (space : Space) (addr : UInt32) : Space × Nat :=
  (space.seenAt addr, pageNo addr)

/-- The slots that `pager_unmap` looks up for some maps. -/
def LooksUp (s : Vm W) (maps : List RegionId) (offset : UInt32) (slot : Space × Nat) : Prop :=
  ∃ r ∈ maps, slot =
    slotOf (.user (s.region r).proc) ((s.region r).addr + offset - (s.region r).offset)

/-- The table after the present entries among some slots have been cleared. -/
def Cleared (slots : Space × Nat → Prop) (before after : Space → Nat → UInt32) : Prop :=
  ∀ space page,
    (slots (space, page) ∧ before space page &&& ptePresent ≠ 0 → after space page = 0) ∧
    (¬ (slots (space, page) ∧ before space page &&& ptePresent ≠ 0) →
      after space page = before space page)

section Cleared

variable {slots more : Space × Nat → Prop} {before mid after : Space → Nat → UInt32}

theorem cleared_none (before : Space → Nat → UInt32) : Cleared (fun _ => False) before before :=
  fun _ _ => ⟨fun h => h.1.elim, fun _ => rfl⟩

theorem Cleared.trans (h : Cleared slots before mid) (h' : Cleared more mid after) :
    Cleared (fun slot => slots slot ∨ more slot) before after := by
  intro space page
  obtain ⟨hclear, hsame⟩ := h space page
  obtain ⟨hclear', hsame'⟩ := h' space page
  by_cases hfirst : slots (space, page) ∧ before space page &&& ptePresent ≠ 0
  · have hmid : mid space page = 0 := hclear hfirst
    have hafter : after space page = 0 := by
      rw [hsame' fun hnext => hnext.2 (by rw [hmid]; rfl), hmid]
    exact ⟨fun _ => hafter, fun hno => absurd ⟨.inl hfirst.1, hfirst.2⟩ hno⟩
  · have hmid : mid space page = before space page := hsame hfirst
    rw [hmid] at hclear' hsame'
    refine ⟨fun hnext => hclear' ⟨?_, hnext.2⟩,
      fun hno => hsame' fun hnext => hno ⟨.inr hnext.1, hnext.2⟩⟩
    exact hnext.1.resolve_left fun hslot => hfirst ⟨hslot, hnext.2⟩

/-- The same slots under another name. -/
theorem Cleared.congr (h : Cleared slots before after) (hslots : ∀ slot, slots slot ↔ more slot) :
    Cleared more before after := by
  obtain rfl : slots = more := funext fun slot => propext (hslots slot)
  exact h

end Cleared

section Board

variable (b : Board W) (space : Space) (addr : UInt32)

theorem entry_set_entry (entry : UInt32) (other : Space) (page : Nat) :
    (b.setEntry space addr entry).entry other page =
      if (other, page) = slotOf space addr then entry else b.entry other page := by
  unfold Board.setEntry slotOf
  by_cases hspace : other = space.seenAt addr
  · subst hspace
    by_cases hpage : page = pageNo addr
    · simp [hpage]
    · simp [hpage]
  · simp [hspace]

/-- `pd_unmap_page` clears the slot of its address. -/
theorem cleared_pd_unmap_page (m : Machine W) (d : Backing W) :
    Cleared (· = slotOf space addr) b.entry (((board m d).pdUnmapPage space addr b).entry) := by
  intro other page
  change (_ → (if b.present space addr then b.setEntry space addr 0 else b).entry other page = 0) ∧
    (_ → (if b.present space addr then b.setEntry space addr 0 else b).entry other page = _)
  have hpresent : b.present space addr = true ↔
      b.entry (slotOf space addr).1 (slotOf space addr).2 &&& ptePresent ≠ 0 := by
    simp [Board.present, Board.entryAt, slotOf]
  by_cases hslot : (other, page) = slotOf space addr
  · rw [← hslot] at hpresent
    by_cases hthere : b.entry other page &&& ptePresent ≠ 0
    · rw [if_pos (hpresent.mpr hthere), entry_set_entry, if_pos hslot]
      exact ⟨fun _ => rfl, fun hno => absurd ⟨hslot, hthere⟩ hno⟩
    · rw [if_neg fun h => hthere (hpresent.mp h)]
      exact ⟨fun h => absurd h.2 hthere, fun _ => rfl⟩
  · refine ⟨fun h => absurd h.1 hslot, fun _ => ?_⟩
    split
    · rw [entry_set_entry, if_neg hslot]
    · rfl

end Board

variable {m : Machine W} {d : Backing W}

/-- Nothing but the world has changed. -/
structure WorldOnly (s s' : Vm W) : Prop where
  region : s'.region = s.region
  pager : s'.pager = s.pager
  proc : s'.proc = s.proc
  next : s'.next = s.next

/-- What `pager_unmap` does for one page of the range. -/
theorem unmap_page_run {space : Space} {addr : UInt32} {s s' : Vm (Board W)} {u : Unit}
    (h : (do
      let entry ← ask ((board m d).pdGetEntry space addr)
      if entry &&& ptePresent ≠ 0 then tell ((board m d).pdUnmapPage space addr) :
        Call (Board W) Unit) s = .ok (u, s')) :
    s' = { s with world := (board m d).pdUnmapPage space addr s.world } := by
  have hask : ask ((board m d).pdGetEntry space addr) s = .ok
      (if s.world.present space addr then s.world.entryAt space addr else 0, s) := rfl
  rw [run_bind_of_ok hask] at h
  by_cases hpresent : s.world.present space addr = true
  · rw [if_pos hpresent, if_pos (by simpa [Board.present] using hpresent)] at h
    cases h
    rfl
  · rw [if_neg hpresent, if_neg (by decide)] at h
    cases h
    change s = { s with world := if s.world.present space addr then _ else s.world }
    rw [if_neg hpresent]

/-- What `pager_unmap` does for one map. -/
theorem unmap_region_run {space : Space} {addr first len : UInt32} {s s' : Vm (Board W)} {u : Unit}
    (h : forPages first len (fun _ => do
      let entry ← ask ((board m d).pdGetEntry space addr)
      if entry &&& ptePresent ≠ 0 then tell ((board m d).pdUnmapPage space addr)) s = .ok (u, s')) :
    WorldOnly s s' ∧ Cleared (fun slot => pagesOf first len ≠ [] ∧ slot = slotOf space addr)
      s.world.entry s'.world.entry := by
  obtain ⟨_, mid, hloop, hend⟩ := run_bind_eq_ok h
  have hmid : mid = s' := by
    rw [run_ite] at hend
    split at hend
    · cases hend
    · cases hend
      rfl
  subst hmid
  clear h hend
  generalize pagesOf first len = pages at hloop ⊢
  induction pages generalizing s with
  | nil =>
      cases hloop
      exact ⟨⟨rfl, rfl, rfl, rfl⟩, (cleared_none _).congr (by simp)⟩
  | cons page pages ih =>
      obtain ⟨_, s₁, hbody, hloop⟩ := run_bind_eq_ok hloop
      rw [unmap_page_run hbody] at hloop
      obtain ⟨hworld, hcleared⟩ := ih hloop
      refine ⟨⟨hworld.region, hworld.pager, hworld.proc, hworld.next⟩, ?_⟩
      refine ((cleared_pd_unmap_page s.world space addr m d).trans hcleared).congr fun slot => ?_
      simp only [ne_eq, reduceCtorEq, not_false_eq_true, true_and]
      exact or_iff_left_of_imp And.right

/-- `pager_unmap` looks up one slot for each map, and clears it. -/
theorem pager_unmap_entry {p : PagerId} {offset len : UInt32} {s s' : Vm (Board W)} {u : Unit}
    (h : pagerUnmap (board m d) p offset len s = .ok (u, s')) :
    WorldOnly s s' ∧ Cleared (fun slot => pagesOf offset len ≠ [] ∧
      LooksUp s (s.pager p).maps offset slot) s.world.entry s'.world.entry := by
  rw [pagerUnmap, run_bind_of_ok (run_the_pager p s)] at h
  generalize (s.pager p).maps = maps at h ⊢
  induction maps generalizing s with
  | nil =>
      cases h
      exact ⟨⟨rfl, rfl, rfl, rfl⟩, (cleared_none _).congr (by simp [LooksUp])⟩
  | cons it maps ih =>
      obtain ⟨_, s₁, hbody, h⟩ := run_bind_eq_ok h
      replace hbody := (run_bind_of_ok (run_the_region it s)).symm.trans hbody
      obtain ⟨hworld₁, hcleared₁⟩ := unmap_region_run hbody
      obtain ⟨hworld, hcleared⟩ := ih h
      refine ⟨⟨hworld.region.trans hworld₁.region, hworld.pager.trans hworld₁.pager,
        hworld.proc.trans hworld₁.proc, hworld.next.trans hworld₁.next⟩, ?_⟩
      refine (hcleared₁.trans hcleared).congr fun slot => ?_
      simp only [LooksUp, hworld₁.region, List.mem_cons, exists_eq_or_imp]
      tauto

/-- The page tables are as before. -/
def SameTables (s s' : Vm (Board W)) : Prop :=
  s'.world.entry = s.world.entry

instance : Std.Refl (SameTables (W := W)) :=
  ⟨fun _ => rfl⟩

instance : IsTrans (Vm (Board W)) SameTables :=
  ⟨fun _ _ _ h h' => h'.trans h⟩

theorem same_tables_put_page (p : PagerId) (page entry : UInt32) :
    Keeps SameTables (putPage p page entry : Call (Board W) Unit) :=
  keeps_modify fun _ => rfl

theorem same_tables_find_page (p : PagerId) (page : UInt32) :
    Keeps SameTables (findPage p page : Call (Board W) UInt32) :=
  keeps_get.bind fun _ => keeps_pure _

theorem same_tables_frame_free (frame : UInt32) :
    Keeps SameTables (tell ((board m d).frameFree frame)) :=
  keeps_modify fun _ => rfl

theorem same_tables_assert (c : Bool) : Keeps SameTables (assert c : Call (Board W) Unit) :=
  keeps_ite (fun _ => keeps_pure _) fun _ => keeps_throw _

theorem same_tables_for_pages {first len : UInt32} {body : UInt32 → Call (Board W) Unit}
    (h : ∀ page, Keeps SameTables (body page)) : Keeps SameTables (forPages first len body) :=
  (keeps_for_m fun page _ => h page).bind fun _ =>
    keeps_ite (fun _ => keeps_throw _) fun _ => keeps_pure _

/-- Releasing pages of a pager does not touch a page table. -/
theorem same_tables_page_release (p : PagerId) (offset len : UInt32) :
    Keeps SameTables (pageRelease (board m d) p offset len) := by
  refine (keeps_get.bind fun _ => keeps_pure _).bind fun pg => ?_
  cases pg.ops with
  | swap allowResize =>
      refine (same_tables_assert _).bind fun _ => same_tables_for_pages fun page => ?_
      refine (same_tables_find_page p page).bind fun _ =>
        keeps_ite (fun _ => ?_) fun _ => keeps_pure _
      exact (same_tables_put_page p page 0).bind fun _ => same_tables_frame_free _
  | vfs v =>
      refine (same_tables_assert _).bind fun _ => (same_tables_assert _).bind fun _ =>
        same_tables_for_pages fun page => ?_
      refine (same_tables_find_page p page).bind fun _ =>
        keeps_ite (fun _ => ?_) fun _ => keeps_pure _
      exact (same_tables_put_page p page 0).bind fun _ => same_tables_frame_free _
  | device physOffset =>
      exact (same_tables_assert _).bind fun _ => same_tables_for_pages fun page =>
        same_tables_put_page p page 0

section Resize

variable {W : Type} {m : Machine W} {p : PagerId} {newSize : UInt32} {s s' : Vm W}

/-- A mutex that is taken was free. -/
theorem lock_pager_ok {u : Unit} (h : lockPager p s = .ok (u, s')) :
    (s.pager p).lock = false ∧ s' = s.withPagerLock p true := by
  cases hfree : (s.pager p).lock with
  | true =>
      simp only [lockPager, run_bind, run_the_pager, run_ite, hfree, if_true] at h
      cases h
  | false =>
      rw [run_lock_pager hfree] at h
      cases h
      exact ⟨rfl, rfl⟩

/-- The driver has been asked, and the pager has been given its size under its mutex. -/
def Granted (m : Machine W) (p : PagerId) (newSize : UInt32) (s s' : Vm W) : Prop :=
  ∃ world t, (world = s.world ∨ ∃ node, world = (m.vfsResize node newSize s.world).2) ∧
    shrinkPager m p newSize (Vm.withPagerLock { s with world := world } p true) = .ok ((), t) ∧
    s' = t.withPagerLock p false

/-- A `pager_resize` that succeeds has done so. -/
theorem pager_resize_granted (h : pagerResize m p newSize s = .ok (true, s')) :
    Granted m p newSize s s' := by
  rw [pagerResize, run_bind_of_ok (run_the_pager p s)] at h
  -- The part that all kinds of pagers have in common.
  have hlocked : ∀ resize : Call W Bool,
      (∀ t t' : Vm W, resize t = .ok (true, t') → ∃ world, t' = { t with world := world } ∧
        (world = t.world ∨ ∃ node, world = (m.vfsResize node newSize t.world).2)) →
      (do
        lockPager p
        let ret ← resize
        if ret then shrinkPager m p newSize
        unlockPager p
        return ret : Call W Bool) s = .ok (true, s') → Granted m p newSize s s' := by
    intro resize hresize hrun
    obtain ⟨_, s₁, hlock, hrun⟩ := run_bind_eq_ok hrun
    obtain ⟨-, rfl⟩ := lock_pager_ok hlock
    obtain ⟨ret, s₂, hdriver, hrun⟩ := run_bind_eq_ok hrun
    cases ret with
    | false => cases hrun
    | true =>
        obtain ⟨world, rfl, hworld⟩ := hresize _ _ hdriver
        obtain ⟨_, t, hshrink, hrun⟩ := run_bind_eq_ok hrun
        cases hrun
        exact ⟨world, t, hworld, hshrink, rfl⟩
  cases hops : (s.pager p).ops with
  | swap allowResize =>
      rw [hops] at h
      refine hlocked _ (fun t t' hrun => ?_) h
      obtain ⟨-, rfl⟩ := run_pure_eq_ok hrun
      exact ⟨_, rfl, .inl rfl⟩
  | vfs v =>
      rw [hops] at h
      refine hlocked _ (fun t t' hrun => ?_) h
      rw [run_ite] at hrun
      split at hrun
      · have hask : ask (m.vfsResize v.node newSize) t = .ok
            ((m.vfsResize v.node newSize t.world).1,
              { t with world := (m.vfsResize v.node newSize t.world).2 }) := rfl
        rw [hask] at hrun
        obtain ⟨-, rfl⟩ := Prod.mk.inj (Except.ok.inj hrun)
        exact ⟨_, rfl, .inr ⟨v.node, rfl⟩⟩
      · cases hrun
  | device physOffset =>
      rw [hops] at h
      cases h

end Resize

/-- What a shrinking `pager_resize` does to the page tables. -/
theorem pager_resize_cleared {p : PagerId} {newSize : UInt32} {s s' : Vm (Board W)}
    (hshrinks : pageAlignUp newSize < (s.pager p).size)
    (h : pagerResize (board m d) p newSize s = .ok (true, s')) :
    Cleared (fun slot =>
      pagesOf (pageAlignUp newSize) ((s.pager p).size - pageAlignUp newSize) ≠ [] ∧
        LooksUp s (s.pager p).maps (pageAlignUp newSize) slot)
      s.world.entry s'.world.entry := by
  obtain ⟨world, t, hworld, hshrink, rfl⟩ := pager_resize_granted h
  have hentry : world.entry = s.world.entry := by
    rcases hworld with rfl | ⟨node, rfl⟩
    · rfl
    · rfl
  have hpager : ((Vm.withPagerLock { s with world := world } p true).pager p).maps =
        (s.pager p).maps ∧
      ((Vm.withPagerLock { s with world := world } p true).pager p).size = (s.pager p).size := by
    simp [Vm.withPagerLock]
  rw [shrinkPager, run_bind_of_ok (run_the_pager p _), hpager.2, if_pos hshrinks] at hshrink
  obtain ⟨_, s₁, hunmap, hshrink⟩ := run_bind_eq_ok hshrink
  obtain ⟨-, hcleared⟩ := pager_unmap_entry hunmap
  obtain ⟨_, s₂, hrelease, hshrink⟩ := run_bind_eq_ok hshrink
  have hsame : s₂.world.entry = s₁.world.entry := same_tables_page_release p _ _ _ _ _ hrelease
  cases hshrink
  change Cleared _ s.world.entry s₂.world.entry
  rw [hsame, ← hentry]
  rw [hpager.1] at hcleared
  exact hcleared

/-- What `change_device_pager` does to the page tables. -/
theorem change_device_pager_cleared {p : PagerId} {base newSize newBase : UInt32}
    {s s' : Vm (Board W)} {u : Unit} (hdevice : (s.pager p).ops = .device base)
    (h : changeDevicePager (board m d) p newSize newBase s = .ok (u, s')) :
    Cleared (fun slot => pagesOf 0 (s.pager p).size ≠ [] ∧ LooksUp s (s.pager p).maps 0 slot)
      s.world.entry s'.world.entry := by
  rw [changeDevicePager, run_bind_of_ok (run_the_pager p s), hdevice] at h
  obtain ⟨_, s₁, hlock, h⟩ := run_bind_eq_ok h
  obtain ⟨-, rfl⟩ := lock_pager_ok hlock
  rw [run_bind_of_ok (run_the_pager p _)] at h
  obtain ⟨_, s₂, hunmap, h⟩ := run_bind_eq_ok h
  obtain ⟨-, hcleared⟩ := pager_unmap_entry hunmap
  obtain ⟨_, s₃, hrelease, h⟩ := run_bind_eq_ok h
  have hsame : Keeps SameTables
      (devicePageRelease p 0 ((s.withPagerLock p true).pager p).size : Call (Board W) Unit) :=
    (same_tables_assert _).bind fun _ => same_tables_for_pages fun page =>
      same_tables_put_page p page 0
  cases h
  change Cleared _ s.world.entry s₃.world.entry
  have hentry : s₃.world.entry = s₂.world.entry := hsame _ _ _ hrelease
  rw [hentry]
  refine hcleared.congr fun slot => ?_
  simp only [Vm.with_pager_lock_size]
  have hmaps : ((s.withPagerLock p true).pager p).maps = (s.pager p).maps := by
    simp [Vm.withPagerLock]
  rw [hmaps]
  rfl

/-- A page of a region on the pager, by the process that has the region and its address there,
whose offset into the pager is released. -/
def ReleasedPage (s : Vm W) (p : PagerId) (released : UInt32 → Prop) (q : ProcId)
    (addr : UInt32) : Prop :=
  ∃ r ∈ (s.pager p).maps, r ∈ (s.proc q).regions ∧ (s.region r).addr ≤ addr ∧
    addr < (s.region r).addr + (s.region r).size ∧
    released (addr - (s.region r).addr + (s.region r).offset)

/-- Every process whose page directory is switched to for a map has a region on the pager. -/
def SwitchesToOwners (s : Vm W) (p : PagerId) : Prop :=
  ∀ r ∈ (s.pager p).maps, ∃ r' ∈ (s.pager p).maps, r' ∈ (s.proc (s.region r).proc).regions

/-- After pages have been released, no process has one of them mapped; all other entries are as
before, and only directories of processes with a region on the pager have been switched to. -/
structure ReleasedUnmapped (s s' : Vm (Board W)) (p : PagerId) (released : UInt32 → Prop) :
    Prop where
  gone : ∀ q addr, pageAligned addr = true → ReleasedPage s p released q addr →
    s'.world.present (.user q) addr = false
  rest : ∀ q addr, pageAligned addr = true → ¬ ReleasedPage s p released q addr →
    s'.world.entryAt (.user q) addr = s.world.entryAt (.user q) addr
  switches : SwitchesToOwners s p

/-- Of the present entries, those that `pager_unmap` looks up for a range are the ones of the
released pages. -/
structure LooksUpReleased (s : Vm (Board W)) (p : PagerId) (offset len : UInt32)
    (released : UInt32 → Prop) : Prop where
  slots : ∀ q addr, pageAligned addr = true → s.world.present (.user q) addr = true →
    (pagesOf offset len ≠ [] ∧ LooksUp s (s.pager p).maps offset (slotOf (.user q) addr) ↔
      ReleasedPage s p released q addr)
  switches : SwitchesToOwners s p

theorem present_iff (b : Board W) (space : Space) (addr : UInt32) :
    b.present space addr = true ↔
      b.entry (slotOf space addr).1 (slotOf space addr).2 &&& ptePresent ≠ 0 := by
  simp [Board.present, Board.entryAt, slotOf]

/-- Clearing the slots that are looked up unmaps the released pages exactly when these are the
slots of the released pages. -/
theorem released_unmapped_iff {s s' : Vm (Board W)} {p : PagerId} {offset len : UInt32}
    {released : UInt32 → Prop}
    (h : Cleared (fun slot => pagesOf offset len ≠ [] ∧ LooksUp s (s.pager p).maps offset slot)
      s.world.entry s'.world.entry) :
    ReleasedUnmapped s s' p released ↔ LooksUpReleased s p offset len released := by
  have hclear : ∀ q addr, s.world.present (.user q) addr = true →
      (pagesOf offset len ≠ [] ∧ LooksUp s (s.pager p).maps offset (slotOf (.user q) addr)) →
      s'.world.entryAt (.user q) addr = 0 := fun q addr hpresent hlooks =>
    (h _ _).1 ⟨hlooks, (present_iff _ _ _).mp hpresent⟩
  have hkeep : ∀ q addr, ¬ (s.world.present (.user q) addr = true ∧ pagesOf offset len ≠ [] ∧
      LooksUp s (s.pager p).maps offset (slotOf (.user q) addr)) →
      s'.world.entryAt (.user q) addr = s.world.entryAt (.user q) addr := fun q addr hno =>
    (h _ _).2 fun hboth => hno ⟨(present_iff _ _ _).mpr hboth.2, hboth.1⟩
  have hpresent_of_eq : ∀ q addr, s'.world.entryAt (.user q) addr = s.world.entryAt (.user q) addr →
      s'.world.present (.user q) addr = s.world.present (.user q) addr := by
    intro q addr heq
    rw [Board.present, heq]
    rfl
  constructor
  · rintro ⟨hgone, hrest, hswitches⟩
    refine ⟨fun q addr haligned hpresent => ⟨fun hlooks => ?_, fun hreleased => ?_⟩, hswitches⟩
    · by_contra hno
      have hsame := hrest q addr haligned hno
      rw [hclear q addr hpresent hlooks] at hsame
      rw [Board.present, ← hsame] at hpresent
      cases hpresent
    · by_contra hno
      have hsame := hpresent_of_eq q addr (hkeep q addr fun hboth => hno hboth.2)
      rw [hgone q addr haligned hreleased, hpresent] at hsame
      cases hsame
  · rintro ⟨hslots, hswitches⟩
    refine ⟨fun q addr haligned hreleased => ?_, fun q addr haligned hno => ?_, hswitches⟩
    · cases hpresent : s.world.present (.user q) addr with
      | false =>
          rw [← hpresent]
          exact hpresent_of_eq q addr (hkeep q addr fun hboth => by simp [hpresent] at hboth)
      | true =>
          have hzero := hclear q addr hpresent ((hslots q addr haligned hpresent).mpr hreleased)
          rw [Board.present, hzero]
          rfl
    · exact hkeep q addr fun hboth => hno ((hslots q addr haligned hboth.1).mp hboth.2)

/-- A shrinking `pager_resize` and a `change_device_pager` leave no released page mapped and
every other entry alone exactly when the present entries that `pager_unmap` looks up, one for each
map, are those of the released pages, and each map's block names a process with a region on the
pager. -/
theorem unmaps_released_iff (m : Machine W) (d : Backing W) (p : PagerId) :
    (∀ (s s' : Vm (Board W)) (newSize : UInt32), pageAlignUp newSize < (s.pager p).size →
      pagerResize (board m d) p newSize s = .ok (true, s') →
      (ReleasedUnmapped s s' p (pageAlignUp newSize ≤ ·) ↔
        LooksUpReleased s p (pageAlignUp newSize) ((s.pager p).size - pageAlignUp newSize)
          (pageAlignUp newSize ≤ ·))) ∧
    ∀ (s s' : Vm (Board W)) (base newSize newBase : UInt32), (s.pager p).ops = .device base →
      changeDevicePager (board m d) p newSize newBase s = .ok ((), s') →
      (ReleasedUnmapped s s' p (fun _ => True) ↔
        LooksUpReleased s p 0 (s.pager p).size fun _ => True) :=
  ⟨fun _ _ _ hshrinks h => released_unmapped_iff (pager_resize_cleared hshrinks h),
    fun _ _ _ _ _ hdevice h => released_unmapped_iff (change_device_pager_cleared hdevice h)⟩

/-- A pager of one page, which the first process has mapped. -/
def Vm.onePageMapped (ops : PagerOps) : Vm (Board UInt32) :=
  let blank := Vm.boardBlank
  { blank with
    world := blank.world.setEntry (.user 0) 0x400000 (Board.mappedEntry 0x400000 0x100 true)
    region := fun _ => { blank.region 0 with size := 0x1000, addr := 0x400000 }
    pager := fun _ => { blank.pager 0 with ops := ops, size := 0x1000, maps := [0] }
    proc := fun _ => { Process.new with regions := [0] }
    next := 1 }

/-- `unmaps_released_iff` on a pager of one page. -/
theorem unmaps_released_iff_one_page :
    (∃ s', pagerResize (board Machine.counting Backing.zeros) 0 0 (Vm.onePageMapped (.swap true)) =
        .ok (true, s') ∧
      (ReleasedUnmapped (Vm.onePageMapped (.swap true)) s' 0 (pageAlignUp 0 ≤ ·) ↔
        LooksUpReleased (Vm.onePageMapped (.swap true)) 0 (pageAlignUp 0) (0x1000 - pageAlignUp 0)
          (pageAlignUp 0 ≤ ·))) ∧
    ∃ s', changeDevicePager (board Machine.counting Backing.zeros) 0 0 0
        (Vm.onePageMapped (.device 0)) = .ok ((), s') ∧
      (ReleasedUnmapped (Vm.onePageMapped (.device 0)) s' 0 (fun _ => True) ↔
        LooksUpReleased (Vm.onePageMapped (.device 0)) 0 0 0x1000 fun _ => True) := by
  obtain ⟨hresize, hdevice⟩ := unmaps_released_iff Machine.counting Backing.zeros 0
  exact ⟨⟨_, rfl, hresize _ _ 0 (by decide) rfl⟩, _, rfl, hdevice _ _ 0 0 0 rfl rfl⟩

/-- A RAM file of two pages has been mapped, and both pages have been written to. -/
def mapTwoPages : Call (Board UInt32) Unit := do
  let m := board Machine.counting Backing.zeros
  let p ← newSwapPager m 0x2000 true
  let f : FsHandle := { id := 0, mode := fmRead ||| fmWrite ||| fmMmap, pager := p }
  let _ ← mmapFile m 0 f 0 0x400000 0x2000 (mmRead ||| mmWrite).toUInt32
  let _ ← procUsermemPf m 1 0 false true 0x400000
  let _ ← procUsermemPf m 1 0 false true 0x401000

/-- What is seen of the second page before and after the file is emptied. -/
def secondPage (s s' : Vm (Board UInt32)) : Bool × Bool × Bool × Bool :=
  ((s.pager 0).maps == [1], (s.proc 0).regions == [1],
    decide ((s.region 1).addr = 0x400000 ∧ (s.region 1).size = 0x2000 ∧ (s.region 1).offset = 0 ∧
      (s.pager 0).size = 0x2000),
    s'.world.present (.user 0) 0x401000)

/-- A file that is emptied keeps its second page mapped. -/
theorem resize_keeps_second_page :
    ∃ s s', mapTwoPages Vm.boardBlank = .ok ((), s) ∧
      pagerResize (board Machine.counting Backing.zeros) 0 0 s = .ok (true, s') ∧
      ¬ ReleasedUnmapped s s' 0 (pageAlignUp 0 ≤ ·) := by
  have hseen : (do
      let (_, s) ← mapTwoPages Vm.boardBlank
      let (done, s') ← pagerResize (board Machine.counting Backing.zeros) 0 0 s
      return (done, secondPage s s') : Except Halt _) = .ok (true, true, true, true, true) := by
    decide +kernel
  obtain ⟨⟨_, s⟩, hmap, hseen⟩ := bind_eq_ok hseen
  obtain ⟨⟨done, s'⟩, hresize, hseen⟩ := bind_eq_ok hseen
  simp only [secondPage, pure_eq_ok, Except.ok.injEq, Prod.mk.injEq, beq_iff_eq,
    decide_eq_true_eq] at hseen
  obtain ⟨rfl, hmaps, hregions, ⟨haddr, hsize, hoffset, -⟩, hpresent⟩ := hseen
  refine ⟨s, s', hmap, hresize, fun h => ?_⟩
  have hgone := h.gone 0 0x401000 (by decide) ⟨1, by simp [hmaps], by simp [hregions], by
    rw [haddr]
    decide, by
    rw [haddr, hsize]
    decide, by
    rw [haddr, hoffset]
    decide⟩
  rw [hpresent] at hgone
  cases hgone

end Kogata.Kernel
