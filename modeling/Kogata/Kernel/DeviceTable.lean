import Kogata.Kernel.PagerLock
import Kogata.Kernel.Regions
import Kogata.Kernel.Vesa

/-!
# What is in the page table of a device pager

`DeviceTable p base size allowed` says that `p` is a device pager, that it has entries for
allowed pages only, and that each entry names the frame of the physical base plus the page. All
that `pager.c`, the mapping calls and the VESA driver do keeps it, as long as no page outside
`allowed` is paged in (`table_page_in`); `change_device_pager` empties a table whose entries lie
below the size of the pager (`device_table_changed`).
-/

namespace Kogata.Kernel

open Kogata.Common Lib.Effect

variable {W : Type}

theorem page_aligned_iff {x : UInt32} : pageAligned x = true ↔ x.toNat % 4096 = 0 := by
  have hmask : (x &&& ~~~pageMask).toNat = x.toNat % 4096 := by
    show x.toNat &&& (2 ^ 12 - 1) = x.toNat % 2 ^ 12
    exact Nat.and_two_pow_sub_one_eq_mod _ _
  rw [pageAligned, beq_iff_eq, ← UInt32.toNat_inj, hmask]
  rfl

theorem frame_toNat (x : UInt32) : (x >>> entFrameShift).toNat = x.toNat / 4096 := by
  rw [UInt32.toNat_shiftRight]
  exact Nat.shiftRight_eq_div_pow _ _

/-- The counter of a loop over pages stays below the bound. -/
theorem mem_pages_of {first len x : UInt32} (h : x ∈ pagesOf first len) :
    ∃ i, x.toNat = first.toNat + i * 4096 ∧ x.toNat < (first + len).toNat := by
  obtain ⟨i, hi, rfl⟩ := List.mem_map.mp h
  rw [List.mem_range, pageSteps] at hi
  have hlt := (first + len).toNat_lt
  have hvalue : (first + UInt32.ofNat i * pageSize).toNat = first.toNat + i * 4096 := by
    rw [UInt32.toNat_add, UInt32.toNat_mul, UInt32.toNat_ofNat']
    have hsize : pageSize.toNat = 4096 := rfl
    rw [hsize]
    omega
  exact ⟨i, hvalue, by omega⟩

/-- A loop that starts on a page boundary stays on page boundaries. -/
theorem aligned_of_mem_pages_of {first len x : UInt32} (h : x ∈ pagesOf first len)
    (hfirst : pageAligned first = true) : pageAligned x = true := by
  obtain ⟨i, hx, -⟩ := mem_pages_of h
  rw [page_aligned_iff] at hfirst ⊢
  omega

/-- A loop from `0` reaches every page below the bound. -/
theorem mem_pages_of_zero {len x : UInt32} (haligned : pageAligned x = true) (hlt : x < len) :
    x ∈ pagesOf 0 len := by
  rw [page_aligned_iff] at haligned
  rw [UInt32.lt_iff_toNat_lt] at hlt
  have hx := x.toNat_lt
  refine List.mem_map.mpr ⟨x.toNat / 4096, ?_, ?_⟩
  · rw [List.mem_range, pageSteps, UInt32.zero_add, UInt32.toNat_zero]
    omega
  · rw [← UInt32.toNat_inj, UInt32.toNat_add, UInt32.toNat_mul, UInt32.toNat_ofNat']
    have hsize : pageSize.toNat = 4096 := rfl
    rw [hsize, UInt32.toNat_zero]
    omega

/-- The pager is a device pager over the physical base, and its table has entries only for
allowed pages, each with the frame that is the base plus the page. -/
structure DeviceTable (p : PagerId) (base size : UInt32) (allowed : UInt32 → Prop) (s : Vm W) :
    Prop where
  made : p < s.next
  device : (s.pager p).ops = .device base
  size_eq : (s.pager p).size = size
  entry : ∀ page, (s.pager p).pages page ≠ 0 → pageAligned page = true ∧ allowed page ∧
    (s.pager p).pages page >>> entFrameShift = (base + page) >>> entFrameShift

/-- More pages may be allowed. -/
theorem DeviceTable.mono {p : PagerId} {base size : UInt32} {allowed more : UInt32 → Prop}
    {s : Vm W} (h : DeviceTable p base size allowed s) (hmore : ∀ page, allowed page → more page) :
    DeviceTable p base size more s where
  made := h.made
  device := h.device
  size_eq := h.size_eq
  entry := fun page hpage => by
    obtain ⟨haligned, hallowed, hframe⟩ := h.entry page hpage
    exact ⟨haligned, hmore page hallowed, hframe⟩

/-- The table is as described, if it was before. -/
def TableStep (p : PagerId) (base size : UInt32) (allowed : UInt32 → Prop) (s s' : Vm W) : Prop :=
  DeviceTable p base size allowed s → DeviceTable p base size allowed s'

section Rules

variable {p q : PagerId} {base size : UInt32} {allowed : UInt32 → Prop} {α : Type}

instance : Std.Refl (TableStep (W := W) p base size allowed) :=
  ⟨fun _ h => h⟩

instance : IsTrans (Vm W) (TableStep p base size allowed) :=
  ⟨fun _ _ _ h h' ht => h' (h ht)⟩

/-- Whatever leaves the pager alone keeps its table. -/
theorem DeviceTable.same {s s' : Vm W} (h : DeviceTable p base size allowed s)
    (hpager : s'.pager p = s.pager p) (hnext : s.next ≤ s'.next) :
    DeviceTable p base size allowed s' where
  made := Nat.lt_of_lt_of_le h.made hnext
  device := by rw [hpager]; exact h.device
  size_eq := by rw [hpager]; exact h.size_eq
  entry := by rw [hpager]; exact h.entry

/-- The inside of an operation on another pager. -/
theorem Inner.table {program : Call W α} (h : Inner q program) (hq : p ≠ q) :
    Keeps (TableStep p base size allowed) program := by
  intro s a s' hrun ht
  have hpages := h.keeps s a s' hrun
  exact ht.same (hpages.others p hq) hpages.next.ge

/-- A program that touches the table of no pager. -/
theorem table_of_inner {program : Call W α} (h : ∀ q, Inner q program) :
    Keeps (TableStep p base size allowed) program :=
  (h (p + 1)).table (Nat.ne_of_lt (Nat.lt_succ_self p))

theorem table_ask (question : W → α × W) :
    Keeps (TableStep p base size allowed) (ask question) :=
  table_of_inner fun _ => inner_ask question

theorem table_tell (change : W → W) : Keeps (TableStep p base size allowed) (tell change) :=
  table_of_inner fun _ => inner_tell change

theorem table_the_region (r : RegionId) :
    Keeps (TableStep p base size allowed) (theRegion r : Call W UserRegion) :=
  table_of_inner fun _ => inner_the_region r

theorem table_set_proc (proc : ProcId) (change : Process → Process) :
    Keeps (TableStep p base size allowed) (setProc proc change : Call W Unit) :=
  keeps_modify fun _ ht => ht.same rfl (Nat.le_refl _)

theorem table_set_region (r : RegionId) (change : UserRegion → UserRegion) :
    Keeps (TableStep p base size allowed) (setRegion r change : Call W Unit) :=
  keeps_modify fun _ ht => ht.same rfl (Nat.le_refl _)

theorem table_the_proc (proc : ProcId) :
    Keeps (TableStep p base size allowed) (theProc proc : Call W Process) :=
  keeps_get.bind fun _ => keeps_pure _

/-- An assertion holds in what comes after it. -/
theorem table_assert {c : Bool} {rest : Unit → Call W α}
    (h : c = true → Keeps (TableStep p base size allowed) (rest ())) :
    Keeps (TableStep p base size allowed) (assert c >>= rest) := by
  intro s a s' hrun
  cases hc : c with
  | false =>
      rw [hc] at hrun
      cases hrun
  | true =>
      rw [hc] at hrun
      exact h hc s a s' hrun

/-- What is read of the pager itself is known. -/
theorem table_the_pager {rest : Pager → Call W α}
    (h : ∀ pg, (q = p → pg.ops = .device base ∧ pg.size = size) →
      Keeps (TableStep p base size allowed) (rest pg)) :
    Keeps (TableStep p base size allowed) (thePager q >>= rest) := by
  intro s a s' hrun ht
  rw [run_bind_of_ok (run_the_pager q s)] at hrun
  refine h _ (fun hq => ?_) s a s' hrun ht
  rw [hq]
  exact ⟨ht.device, ht.size_eq⟩

/-- An entry that is found is known. -/
theorem table_find_page {page : UInt32} {rest : UInt32 → Call W α}
    (h : ∀ v, (q = p → v ≠ 0 → pageAligned page = true ∧ allowed page ∧
        v >>> entFrameShift = (base + page) >>> entFrameShift) →
      Keeps (TableStep p base size allowed) (rest v)) :
    Keeps (TableStep p base size allowed) (findPage q page >>= rest) := by
  intro s a s' hrun ht
  have hfind : findPage q page s = .ok ((s.pager q).pages page, s) := rfl
  rw [run_bind_of_ok hfind] at hrun
  refine h _ (fun hq hv => ?_) s a s' hrun ht
  rw [hq] at hv ⊢
  exact ht.entry page hv

/-- Changes of other pagers, and changes of the lock and the maps. -/
theorem table_set_pager {change : Pager → Pager}
    (h : q = p → ∀ pg, (change pg).ops = pg.ops ∧ (change pg).size = pg.size ∧
      (change pg).pages = pg.pages) :
    Keeps (TableStep p base size allowed) (setPager q change : Call W Unit) := by
  refine keeps_modify fun s ht => ?_
  by_cases hq : q = p
  · subst hq
    obtain ⟨hops, hsize, hpages⟩ := h rfl (s.pager q)
    constructor
    · exact ht.made
    · simpa only [Function.update_self, hops] using ht.device
    · simpa only [Function.update_self, hsize] using ht.size_eq
    · simpa only [Function.update_self, hpages] using ht.entry
  · exact ht.same (Function.update_of_ne (Ne.symm hq) _ _) (Nat.le_refl _)

/-- A new entry must be one that the table may have. -/
theorem table_put_page {page entry : UInt32}
    (h : q = p → entry ≠ 0 → pageAligned page = true ∧ allowed page ∧
      entry >>> entFrameShift = (base + page) >>> entFrameShift) :
    Keeps (TableStep p base size allowed) (putPage q page entry : Call W Unit) := by
  refine keeps_modify fun s ht => ?_
  by_cases hq : q = p
  · subst hq
    constructor
    · exact ht.made
    · simpa only [Function.update_self] using ht.device
    · simpa only [Function.update_self] using ht.size_eq
    · intro x hx
      simp only [Function.update_self] at hx ⊢
      by_cases hpage : x = page
      · subst hpage
        rw [Function.update_self] at hx ⊢
        exact h rfl hx
      · rw [Function.update_of_ne hpage] at hx ⊢
        exact ht.entry x hx
  · exact ht.same (Function.update_of_ne (Ne.symm hq) _ _) (Nat.le_refl _)

theorem table_for_pages {first len : UInt32} {body : UInt32 → Call W Unit}
    (h : ∀ page ∈ pagesOf first len, Keeps (TableStep p base size allowed) (body page)) :
    Keeps (TableStep p base size allowed) (forPages first len body) :=
  (keeps_for_m h).bind fun _ => keeps_ite (fun _ => keeps_throw _) fun _ => keeps_pure _

/-- A new identity is not the one of the pager. -/
theorem table_fresh {rest : Nat → Call W α}
    (h : ∀ r, r ≠ p → Keeps (TableStep p base size allowed) (rest r)) :
    Keeps (TableStep p base size allowed) (fresh >>= rest) := by
  intro s a s' hrun ht
  have hfresh : (fresh : Call W Nat) s = .ok (s.next, { s with next := s.next + 1 }) := rfl
  rw [run_bind_of_ok hfresh] at hrun
  exact h s.next (Nat.ne_of_gt ht.made) _ a s' hrun (ht.same rfl (Nat.le_succ _))

end Rules

section PagerOperations

variable {p : PagerId} {base size : UInt32} {allowed : UInt32 → Prop} (m : Machine W) (q : PagerId)

theorem table_lock_pager : Keeps (TableStep p base size allowed) (lockPager q : Call W Unit) :=
  table_the_pager fun _ _ => keeps_ite (fun _ => keeps_throw _) fun _ =>
    table_set_pager fun _ _ => ⟨rfl, rfl, rfl⟩

theorem table_unlock_pager : Keeps (TableStep p base size allowed) (unlockPager q : Call W Unit) :=
  table_set_pager fun _ _ => ⟨rfl, rfl, rfl⟩

/-- Adding a flag to an entry does not change its frame. -/
theorem frame_or_flag {v flag : UInt32} (h : flag.toNat < 4096) :
    (v ||| flag) >>> entFrameShift = v >>> entFrameShift := by
  have hflag : flag >>> entFrameShift = 0 := by
    rw [← UInt32.toNat_inj, frame_toNat]
    exact Nat.div_eq_of_lt h
  rw [UInt32.shiftRight_or, hflag, UInt32.or_zero]

theorem table_pager_access (offset len : UInt32) (accessed dirty : Bool) :
    Keeps (TableStep p base size allowed)
      (pagerAccess q offset len accessed dirty : Call W Unit) := by
  refine (table_lock_pager q).bind fun _ => table_assert fun _ =>
    .bind (table_for_pages fun page _ => ?_) fun _ => table_unlock_pager q
  refine table_find_page fun v hv => keeps_ite (fun hne => ?_) fun _ => keeps_pure _
  refine table_put_page fun hq _ => ?_
  obtain ⟨haligned, hallowed, hframe⟩ := hv hq hne
  refine ⟨haligned, hallowed, ?_⟩
  rw [frame_or_flag (by split <;> decide), frame_or_flag (by split <;> decide)]
  exact hframe

theorem table_pager_add_map (r : RegionId) :
    Keeps (TableStep p base size allowed) (pagerAddMap q r : Call W Unit) := by
  refine (table_lock_pager q).bind fun _ => .bind ?_ fun _ => table_unlock_pager q
  exact table_set_pager fun _ _ => ⟨rfl, rfl, rfl⟩

theorem table_pager_rm_map (r : RegionId) :
    Keeps (TableStep p base size allowed) (pagerRmMap q r : Call W Unit) := by
  refine (table_lock_pager q).bind fun _ => table_the_pager fun _ _ => keeps_ite
    (fun _ => (keeps_throw _).bind fun _ => table_unlock_pager q) fun _ => .bind ?_ fun _ =>
      table_unlock_pager q
  exact table_set_pager fun _ _ => ⟨rfl, rfl, rfl⟩

theorem table_new_pager (ops : PagerOps) (length : UInt32) :
    Keeps (TableStep p base size allowed) (newPager m ops length) := by
  refine (table_ask _).bind fun _ => keeps_ite (fun _ => ?_) fun _ => keeps_pure _
  refine (table_ask _).bind fun _ => keeps_ite (fun _ => ?_) fun _ => keeps_pure _
  refine table_fresh fun r hr => .bind (table_set_pager fun heq => ?_) fun _ => keeps_pure _
  exact absurd heq hr

/-- Only pages that may have an entry are paged in. -/
theorem table_page_in {offset len : UInt32}
    (h : q = p → pageAligned offset = true → ∀ page ∈ pagesOf offset len, allowed page) :
    Keeps (TableStep p base size allowed) (pageIn m q offset len) := by
  by_cases hq : q = p
  · refine table_the_pager fun pg hpg => ?_
    rw [(hpg hq).1]
    refine table_assert fun haligned => table_for_pages fun page hpage => ?_
    refine table_find_page fun v _ => keeps_ite (fun _ => ?_) fun _ => keeps_pure _
    have hput : Keeps (TableStep p base size allowed)
        (putPage q page (base + page) : Call W Unit) :=
      table_put_page fun _ _ => ⟨aligned_of_mem_pages_of hpage haligned, h hq haligned page hpage, rfl⟩
    refine .bind ((table_ask _).bind fun _ => ?_) fun _ => keeps_pure _
    exact keeps_ite (fun _ => hput.bind fun _ => keeps_pure _) fun _ => keeps_pure _
  · exact (inner_page_in m q offset len).table (Ne.symm hq)

theorem table_page_release (offset len : UInt32) :
    Keeps (TableStep p base size allowed) (pageRelease m q offset len) := by
  by_cases hq : q = p
  · refine table_the_pager fun pg hpg => ?_
    rw [(hpg hq).1]
    refine table_assert fun _ => table_for_pages fun page _ => ?_
    exact table_put_page fun _ hzero => absurd rfl hzero
  · exact (inner_page_release m q offset len).table (Ne.symm hq)

theorem table_delete_pager : Keeps (TableStep p base size allowed) (deletePager m q) := by
  refine table_the_pager fun _ _ => table_assert fun _ => (table_lock_pager q).bind fun _ =>
    table_the_pager fun pg hpg => ?_
  have hrelease : Keeps (TableStep p base size allowed) (pageRelease m q 0 pg.size) :=
    table_page_release m q 0 pg.size
  by_cases hq : q = p
  · rw [(hpg hq).1]
    exact hrelease
  · cases pg.ops with
    | swap allowResize => exact hrelease
    | vfs v =>
        exact ((inner_vfs_page_commit m q v 0 pg.size).table (Ne.symm hq)).bind fun _ => hrelease
    | device physOffset => exact hrelease

theorem table_pager_get_frame {offset : UInt32}
    (h : q = p → pageAligned offset = true → ∀ page ∈ pagesOf offset pageSize, allowed page) :
    Keeps (TableStep p base size allowed) (pagerGetFrame m q offset) := by
  have hend : Keeps (TableStep p base size allowed) (do
      let ret := (← findPage q offset) >>> entFrameShift
      unlockPager q
      return ret : Call W UInt32) :=
    table_find_page fun _ _ => (table_unlock_pager q).bind fun _ => keeps_pure _
  refine (table_lock_pager q).bind fun _ => table_assert fun _ => table_find_page fun v _ =>
    keeps_ite (fun _ => ?_) fun _ => hend
  exact (table_page_in m q h).bind fun _ => hend

theorem table_frame_loop {offset : UInt32}
    (h : q = p → pageAligned offset = true → ∀ page ∈ pagesOf offset pageSize, allowed page)
    (tries : Nat) : Keeps (TableStep p base size allowed) (frameLoop m q offset tries) := by
  induction tries with
  | zero => exact keeps_throw _
  | succ tries ih =>
      refine (table_pager_get_frame m q h).bind fun frame => keeps_ite (fun _ => ?_) fun _ =>
        keeps_pure frame
      exact (table_tell _).bind fun _ => ih

theorem inner_map_loop (r : PagerId) (proc : ProcId) (addr frame : UInt32) (rw : Bool)
    (tries : Nat) : Inner r (mapLoop m proc addr frame rw tries) := by
  induction tries with
  | zero => exact inner_throw (by decide)
  | succ tries ih =>
      refine (inner_ask _).bind fun _ => inner_ite (inner_pure ()) ?_
      exact .bind (inner_tell _) fun _ => ih

theorem table_pager_resize (newSize : UInt32) :
    Keeps (TableStep p base size allowed) (pagerResize m q newSize) := by
  refine table_the_pager fun pg hpg => ?_
  by_cases hq : q = p
  · rw [(hpg hq).1]
    exact keeps_pure false
  have hset : Keeps (TableStep p base size allowed)
      (setPager q fun pg => { pg with size := newSize } : Call W Unit) :=
    table_set_pager fun heq => absurd heq hq
  have hshrink : Keeps (TableStep p base size allowed) (shrinkPager m q newSize) := by
    refine table_the_pager fun pg _ => keeps_ite (fun _ => ?_) fun _ => hset
    exact (table_of_inner fun _ => inner_pager_unmap m _ q _ _).bind fun _ =>
      (table_page_release m q _ _).bind fun _ => hset
  have hend : ∀ ret, Keeps (TableStep p base size allowed) (do
      unlockPager q
      return ret : Call W Bool) := fun ret =>
    (table_unlock_pager q).bind fun _ => keeps_pure ret
  have hresize : ∀ resize, (∀ r, Inner r resize) → Keeps (TableStep p base size allowed) (do
      lockPager q
      let ret ← resize
      if ret then shrinkPager m q newSize
      unlockPager q
      return ret : Call W Bool) := by
    intro resize hinner
    refine (table_lock_pager q).bind fun _ => (table_of_inner hinner).bind fun ret => keeps_ite
      (fun _ => ?_) fun _ => hend ret
    exact hshrink.bind fun _ => hend ret
  cases pg.ops with
  | swap allowResize => exact hresize _ fun _ => inner_pure allowResize
  | vfs v => exact hresize _ fun _ => inner_ite (inner_ask _) (inner_pure false)
  | device physOffset => exact keeps_pure false

/-- The pages of a transfer lie below the size of the pager. -/
theorem transfer_page_lt {offset len page : UInt32}
    (h : page ∈ pagesOf (pageAlignDown offset)
      (offset + transferLen size offset len - pageAlignDown offset)) : page < size := by
  obtain ⟨i, -, hlt⟩ := mem_pages_of h
  rw [UInt32.add_comm, UInt32.sub_add_cancel] at hlt
  refine UInt32.lt_of_lt_of_le (UInt32.lt_iff_toNat_lt.mpr hlt) ?_
  unfold transferLen
  split
  · rw [UInt32.add_comm, UInt32.sub_add_cancel]
    exact UInt32.le_refl size
  · next hle => exact UInt32.not_lt.mp hle

theorem table_transfer {offset len firstPage regionLen region : UInt32}
    {data : Option (List UInt8)}
    (h : q = p → ∀ page ∈ pagesOf firstPage regionLen, allowed page) :
    Keeps (TableStep p base size allowed)
      (transfer m q offset len firstPage regionLen region data) := by
  refine (table_page_in m q fun hq _ => h hq).bind fun _ =>
    (table_of_inner fun _ => inner_map_pages m _ q _ _ _ _).bind fun _ => ?_
  refine keeps_ite (fun _ => keeps_ite (fun _ => keeps_throw _) fun _ => ?_) fun _ => keeps_pure _
  cases data with
  | none => exact keeps_get.bind fun _ => keeps_pure _
  | some buf =>
      refine (table_tell _).bind fun _ => .bind (table_for_pages fun page _ => ?_) fun _ =>
        keeps_pure _
      refine table_find_page fun v hv => table_assert fun hne => table_put_page fun hq _ => ?_
      obtain ⟨haligned, hallowed, hframe⟩ := hv hq (by simpa using hne)
      refine ⟨haligned, hallowed, ?_⟩
      rw [frame_or_flag (by decide)]
      exact hframe

/-- A read or a write pages in pages below the size only. -/
theorem table_pager_do_rw (offset len : UInt32) (data : Option (List UInt8))
    (h : ∀ page, page < size → allowed page) :
    Keeps (TableStep p base size allowed) (pagerDoRw m q offset len data) := by
  refine (table_lock_pager q).bind fun _ => table_the_pager fun pg hpg =>
    keeps_ite (fun _ => keeps_pure _) fun _ => (table_ask _).bind fun region => ?_
  refine .bind (keeps_ite (fun _ => keeps_pure _) fun _ => ?_) fun _ =>
    (table_unlock_pager q).bind fun _ => keeps_pure _
  refine (table_transfer m q fun hq page hpage => h page ?_).bind fun _ =>
    (table_of_inner fun _ => inner_drop_region m _ _ _).bind fun _ => keeps_pure _
  obtain ⟨-, rfl⟩ := hpg hq
  exact transfer_page_lt hpage

theorem table_file_read (f : FsHandle) (offset len : UInt32)
    (h : ∀ page, page < size → allowed page) :
    Keeps (TableStep p base size allowed) (fileRead m f offset len) := by
  refine keeps_ite (fun _ => keeps_pure _) fun _ => keeps_ite (fun _ => keeps_pure _) fun _ => ?_
  unfold fsReadFromPager
  cases f.pager with
  | none => exact keeps_throw _
  | some q => exact table_pager_do_rw m q offset len none h

theorem table_file_write (f : FsHandle) (offset : UInt32) (buf : List UInt8)
    (h : ∀ page, page < size → allowed page) :
    Keeps (TableStep p base size allowed) (fileWrite m f offset buf) := by
  refine keeps_ite (fun _ => keeps_pure _) fun _ => keeps_ite (fun _ => keeps_pure _) fun _ => ?_
  unfold fsWriteToPager
  cases f.pager with
  | none => exact keeps_throw _
  | some q =>
      have hwrite : Keeps (TableStep p base size allowed) (pagerWrite m q offset buf) :=
        table_pager_do_rw m q offset _ (some buf) h
      refine table_the_pager fun _ _ => keeps_ite (fun _ => ?_) fun _ => hwrite
      exact (table_pager_resize m q _).bind fun _ => hwrite

end PagerOperations

section RegionCalls

variable {p : PagerId} {base size : UInt32} {allowed : UInt32 → Prop} (m : Machine W)
variable (proc : ProcId)

theorem table_find_user_region (addr : UInt32) :
    Keeps (TableStep p base size allowed) (findUserRegion proc addr : Call W _) := by
  intro s found s' hrun
  obtain ⟨-, -, rfl⟩ := find_user_region_ok hrun
  exact refl_of (TableStep p base size allowed) s'

theorem table_lock_proc : Keeps (TableStep p base size allowed) (lockProc proc : Call W Unit) :=
  (table_the_proc proc).bind fun _ => keeps_ite (fun _ => keeps_throw _) fun _ =>
    table_set_proc proc _

theorem table_unlock_proc : Keeps (TableStep p base size allowed) (unlockProc proc : Call W Unit) :=
  table_set_proc proc _

theorem table_mmap_error (pager : Option PagerId) :
    Keeps (TableStep p base size allowed) (mmapError m proc pager) := by
  have hend : Keeps (TableStep p base size allowed) (do
      unlockProc proc
      return false : Call W Bool) :=
    (table_unlock_proc proc).bind fun _ => keeps_pure false
  cases pager with
  | none => exact hend
  | some q => exact (table_delete_pager m q).bind fun _ => hend

theorem table_mmap (addr length mode : UInt32) :
    Keeps (TableStep p base size allowed) (mmap m proc addr length mode) := by
  refine (table_find_user_region proc addr).bind fun _ => keeps_ite (fun _ => keeps_pure _)
    fun _ => keeps_ite (fun _ => keeps_pure _) fun _ => keeps_ite (fun _ => keeps_pure _)
    fun _ => (table_ask _).bind fun block => ?_
  cases block with
  | none => exact keeps_pure _
  | some stale =>
      refine (table_lock_proc proc).bind fun _ => (table_the_proc proc).bind fun pr => ?_
      cases pr.regionsIdx with
      | none => exact table_mmap_error m proc stale.pager
      | some idx =>
          refine (table_new_pager m _ _).bind fun pager => ?_
          cases pager with
          | none => exact table_mmap_error m proc none
          | some q =>
              refine (table_ask _).bind fun allocated => table_fresh fun r _ => ?_
              cases idx.add allocated addr r with
              | none => exact table_mmap_error m proc (some q)
              | some idx' =>
                  exact (table_set_region r _).bind fun _ => .bind (table_set_proc proc _)
                    fun _ => (table_pager_add_map q r).bind fun _ =>
                    (table_unlock_proc proc).bind fun _ => keeps_pure true

theorem table_mmap_file (f : FsHandle) (offset addr length mode : UInt32) :
    Keeps (TableStep p base size allowed) (mmapFile m proc f offset addr length mode) := by
  refine (table_find_user_region proc addr).bind fun _ => keeps_ite (fun _ => keeps_pure _)
    fun _ => keeps_ite (fun _ => keeps_pure _) fun _ => keeps_ite (fun _ => keeps_pure _)
    fun _ => keeps_ite (fun _ => keeps_pure _) fun _ => ?_
  have hrefuse : Keeps (TableStep p base size allowed) (do
      unlockProc proc
      return false : Call W Bool) :=
    (table_unlock_proc proc).bind fun _ => keeps_pure false
  cases f.pager with
  | none => exact keeps_throw _
  | some q =>
      refine keeps_ite (fun _ => keeps_pure _) fun _ => (table_ask _).bind fun block => ?_
      cases block with
      | none => exact keeps_pure _
      | some stale =>
          refine (table_lock_proc proc).bind fun _ => (table_the_proc proc).bind fun pr => ?_
          cases pr.regionsIdx with
          | none => exact hrefuse
          | some idx =>
              refine (table_ask _).bind fun allocated => table_fresh fun r _ => ?_
              cases idx.add allocated addr r with
              | none => exact hrefuse
              | some idx' =>
                  exact (table_tell _).bind fun _ => (table_set_region r _).bind fun _ =>
                    (table_pager_add_map q r).bind fun _ => .bind (table_set_proc proc _)
                    fun _ => (table_unlock_proc proc).bind fun _ => keeps_pure true

theorem table_region_pager (reg : UserRegion) :
    Keeps (TableStep p base size allowed) (regionPager reg : Call W PagerId) := by
  unfold regionPager
  cases reg.pager with
  | none => exact keeps_throw _
  | some q => exact keeps_pure q

theorem table_release_region (r : RegionId) (reg : UserRegion) :
    Keeps (TableStep p base size allowed) (releaseRegion m proc r reg) := by
  have hend : ∀ q, Keeps (TableStep p base size allowed) (do
      if reg.ownPager then deletePager m q : Call W Unit) := fun q =>
    keeps_ite (fun _ => table_delete_pager m q) fun _ => keeps_pure _
  refine (table_region_pager reg).bind fun q => .bind (table_for_pages fun it _ => ?_) fun _ =>
    (table_pager_rm_map q r).bind fun _ => ?_
  · refine (table_ask _).bind fun ent => keeps_ite (fun _ => ?_) fun _ => keeps_pure _
    exact (table_pager_access q _ _ _ _).bind fun _ => table_tell _
  · cases reg.file with
    | none => exact hend q
    | some f => exact .bind (table_tell _) fun _ => hend q

theorem table_munmap (addr : UInt32) :
    Keeps (TableStep p base size allowed) (munmap m proc addr) := by
  refine (table_find_user_region proc addr).bind fun found => ?_
  cases found with
  | none => exact keeps_pure _
  | some r =>
      refine (table_lock_proc proc).bind fun _ => .bind ?_ fun _ =>
        (table_unlock_proc proc).bind fun _ => keeps_pure true
      refine (table_the_region r).bind fun reg => .bind ?_ fun _ => table_release_region m proc r reg
      refine (table_the_proc proc).bind fun pr => ?_
      cases pr.regionsIdx with
      | none => exact keeps_throw _
      | some idx => exact table_set_proc proc _

theorem table_mchmap (addr mode : UInt32) :
    Keeps (TableStep p base size allowed) (mchmap m proc addr mode) := by
  refine (table_find_user_region proc addr).bind fun found => ?_
  cases found with
  | none => exact keeps_pure _
  | some r =>
      refine (table_the_region r).bind fun reg => keeps_ite (fun _ => keeps_pure _) fun _ =>
        (table_lock_proc proc).bind fun _ => (table_set_region r _).bind fun _ =>
        .bind (table_for_pages fun it _ => ?_) fun _ =>
        (table_unlock_proc proc).bind fun _ => keeps_pure true
      refine (table_ask _).bind fun ent => keeps_ite (fun _ => ?_) fun _ => keeps_pure _
      exact keeps_ite (fun _ => (table_ask _).bind fun _ => keeps_pure _) fun _ => keeps_pure _

end RegionCalls

end Kogata.Kernel
