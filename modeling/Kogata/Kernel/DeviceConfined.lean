import Kogata.Kernel.DeviceTable
import Kogata.Kernel.RegionIndex

/-!
# Which physical memory a device pager hands out

No test on the way from `mmap_file` through the page-fault handler and `pager_get_frame` to
`device_page_in` compares the offset of a fault with the size of the device. As long as every
fault stays below that size, a device pager only hands out frames of its device
(`device_memory_confined`), and for a device at a page-aligned base this is exact. The VESA
driver gives its pager `pitch * width` bytes, which is the size of the framebuffer for modes as
wide as they are high only.
-/

namespace Kogata.Kernel

open Kogata.Common Lib.Effect Lib.Run

variable {W : Type}

section Change

variable {m : Machine W} {p q : PagerId} {base size : UInt32}

/-- Changing another device does nothing to this one. -/
theorem table_change_device_pager {allowed : UInt32 → Prop} (hq : q ≠ p)
    (newSize newPhysOffset : UInt32) :
    Keeps (TableStep p base size allowed) (changeDevicePager m q newSize newPhysOffset) := by
  refine table_the_pager fun pg _ => ?_
  cases pg.ops with
  | swap allowResize => exact keeps_pure ()
  | vfs v => exact keeps_pure ()
  | device physOffset =>
      refine (table_lock_pager q).bind fun _ => table_the_pager fun pg _ => ?_
      refine (table_of_inner fun _ => inner_pager_unmap m _ q _ _).bind fun _ => ?_
      refine ((inner_device_page_release q 0 _).table (Ne.symm hq)).bind fun _ => ?_
      exact .bind (table_set_pager fun heq => absurd heq hq) fun _ => table_unlock_pager q

/-- The loop of `device_page_release` empties the entries of its pages. -/
theorem pages_of_release {pages : List UInt32} {s s' : Vm W} {u : PUnit}
    (h : (pages.forM fun page => putPage p page 0 : Call W PUnit) s = .ok (u, s')) :
    ∀ page, (s'.pager p).pages page ≠ 0 →
      page ∉ pages ∧ (s'.pager p).pages page = (s.pager p).pages page := by
  induction pages generalizing s with
  | nil =>
      cases h
      exact fun page _ => ⟨by simp, rfl⟩
  | cons first rest ih =>
      obtain ⟨_, mid, hput, hrest⟩ := run_bind_eq_ok h
      cases hput
      intro page hpage
      obtain ⟨hnot, hsame⟩ := ih hrest page hpage
      rw [hsame] at hpage ⊢
      simp only [Function.update_self] at hpage ⊢
      by_cases hfirst : page = first
      · subst hfirst
        rw [Function.update_self] at hpage
        exact absurd rfl hpage
      · rw [Function.update_of_ne hfirst]
        exact ⟨by simp [hfirst, hnot], rfl⟩

/-- `change_device_pager` on a device whose entries lie below its size leaves an empty table, for
the new size and the new base. -/
theorem device_table_changed {newSize newPhysOffset : UInt32} {s s' : Vm W} {u : Unit}
    (h : DeviceTable p base size (· < size) s)
    (hrun : changeDevicePager m p newSize newPhysOffset s = .ok (u, s')) :
    DeviceTable p newPhysOffset newSize (· < newSize) s' := by
  unfold changeDevicePager at hrun
  rw [run_bind_of_ok (run_the_pager p s), h.device] at hrun
  obtain ⟨_, s1, hlock, hrun⟩ := run_bind_eq_ok hrun
  have h1 := table_lock_pager p s _ s1 hlock h
  rw [run_bind_of_ok (run_the_pager p s1), h1.size_eq] at hrun
  obtain ⟨_, s2, hunmap, hrun⟩ := run_bind_eq_ok hrun
  have h2 := table_of_inner (fun q => inner_pager_unmap m q p _ _) s1 _ s2 hunmap h1
  obtain ⟨_, s3, hrelease, hrun⟩ := run_bind_eq_ok hrun
  have hframe := (inner_device_page_release p 0 size).keeps s2 _ s3 hrelease
  cases hrun
  -- Every entry was below the size, so none is left.
  have hempty : ∀ page, (s3.pager p).pages page = 0 := by
    intro page
    by_contra hpage
    obtain ⟨_, mid, hassert, hloop⟩ := run_bind_eq_ok hrelease
    cases hassert
    obtain ⟨_, mid, hloop, hend⟩ := run_bind_eq_ok hloop
    have hmid : s3 = mid := by
      rw [run_ite] at hend
      split at hend
      · cases hend
      · exact (run_pure_eq_ok hend).2
    subst hmid
    obtain ⟨hnot, hsame⟩ := pages_of_release hloop page hpage
    rw [hsame] at hpage
    obtain ⟨haligned, hlt, -⟩ := h2.entry page hpage
    exact hnot (mem_pages_of_zero haligned hlt)
  constructor
  · show p < s3.next
    rw [hframe.next]
    exact h2.made
  · simp
  · simp
  · intro page hpage
    simp [hempty page] at hpage

end Change

section SetMode

variable {m : Machine W} {v : V86 W} {p : PagerId}

/-- A mode that was set has given its pager to `change_device_pager`, and painting the
framebuffer has touched no pager. -/
theorem vesa_set_mode_ok {d d' : VesaDriver} {n : Nat} {ret : Bool} {s s' : Vm W}
    (h : vesaSetMode m v d n s = .ok ((ret, d'), s')) :
    ∃ mode, d.modes[n]? = some mode ∧ ∃ s1, s1.pager = s.pager ∧ s1.next = s.next ∧
      (ret = false ∧ s' = s1 ∨ ret = true ∧ ∃ u s2,
        changeDevicePager m d.pager (mode.info.pitch * mode.info.width) mode.physFbAddr s1 =
          .ok (u, s2) ∧ s'.pager = s2.pager ∧ s'.next = s2.next) := by
  unfold vesaSetMode at h
  cases hmode : d.modes[n]? with
  | none =>
      rw [hmode] at h
      cases h
  | some mode =>
      refine ⟨mode, rfl, ?_⟩
      rw [hmode] at h
      obtain ⟨begun, s1, hbegin, h⟩ := run_bind_eq_ok h
      have h1 : s1.pager = s.pager ∧ s1.next = s.next := by
        cases hbegin
        exact ⟨rfl, rfl⟩
      rw [run_ite] at h
      split at h
      · obtain ⟨ok, s2, hset, h⟩ := run_bind_eq_ok h
        obtain ⟨_, s3, hend, h⟩ := run_bind_eq_ok h
        have h3 : s3.pager = s.pager ∧ s3.next = s.next := by
          cases hset
          cases hend
          exact h1
        rw [run_ite] at h
        split at h
        · obtain ⟨u, s4, hchange, h⟩ := run_bind_eq_ok h
          obtain ⟨_, s5, hclear, h⟩ := run_bind_eq_ok h
          cases h
          refine ⟨s3, h3.1, h3.2, .inr ⟨rfl, u, s4, hchange, ?_, ?_⟩⟩
          · funext q
            exact ((inner_vesa_clear m v (q + 1) _).keeps _ _ _ hclear).others q
              (Nat.ne_of_lt (Nat.lt_succ_self q))
          · exact ((inner_vesa_clear m v 0 _).keeps _ _ _ hclear).next
        · cases h
          exact ⟨_, h3.1, h3.2, .inl ⟨rfl, rfl⟩⟩
      · cases h
        exact ⟨_, h1.1, h1.2, .inl ⟨rfl, rfl⟩⟩

end SetMode

/-- The physical page of a frame lies in the pages that the device `[base, base + size)`
touches. -/
def InDevice (base size frame : UInt32) : Prop :=
  base.toNat / 4096 ≤ frame.toNat ∧ frame.toNat * 4096 < base.toNat + size.toNat

instance (base size frame : UInt32) : Decidable (InDevice base size frame) :=
  inferInstanceAs (Decidable (_ ∧ _))

/-- The offset is one of the device, and the physical address does not wrap around. -/
def OffsetInside (base size offset : UInt32) : Prop :=
  offset < size ∧ base.toNat + offset.toNat < 2 ^ 32

instance (base size offset : UInt32) : Decidable (OffsetInside base size offset) :=
  inferInstanceAs (Decidable (_ ∧ _))

/-- The frame of an offset inside the device is in the device. -/
theorem in_device_of_inside {base size offset : UInt32} (h : OffsetInside base size offset) :
    InDevice base size ((base + offset) >>> entFrameShift) := by
  obtain ⟨hlt, hfits⟩ := h
  rw [UInt32.lt_iff_toNat_lt] at hlt
  unfold InDevice
  rw [frame_toNat, Lib.Word.toNat_add_of_lt hfits]
  omega

/-- For a device at a page-aligned base, no other offset has a frame in the device. -/
theorem inside_of_in_device {base size offset : UInt32} (hbase : pageAligned base = true)
    (hoffset : pageAligned offset = true)
    (h : InDevice base size ((base + offset) >>> entFrameShift)) :
    OffsetInside base size offset := by
  rw [page_aligned_iff] at hbase hoffset
  obtain ⟨hlow, hhigh⟩ := h
  rw [frame_toNat, UInt32.toNat_add] at hlow hhigh
  have hb := base.toNat_lt
  have ho := offset.toNat_lt
  refine ⟨UInt32.lt_iff_toNat_lt.mpr ?_, ?_⟩ <;> omega

section Fault

variable {m : Machine W} {p : PagerId} {base size offset : UInt32}

/-- The frame that `pager_get_frame` gives is the one of the base plus the offset. -/
theorem device_get_frame {s s' : Vm W} {frame : UInt32}
    (h : DeviceTable p base size (fun _ => True) s)
    (hrun : pagerGetFrame m p offset s = .ok (frame, s')) (hframe : frame ≠ 0) :
    pageAligned offset = true ∧ frame = (base + offset) >>> entFrameShift := by
  obtain ⟨_, s1, hlock, hrun⟩ := run_bind_eq_ok hrun
  have h1 := table_lock_pager p s _ s1 hlock h
  obtain ⟨_, s2, hassert, hrun⟩ := run_bind_eq_ok hrun
  have hend : ∀ t : Vm W, DeviceTable p base size (fun _ => True) t →
      (do
        let ret := (← findPage p offset) >>> entFrameShift
        unlockPager p
        return ret : Call W UInt32) t = .ok (frame, s') →
      pageAligned offset = true ∧ frame = (base + offset) >>> entFrameShift := by
    intro t ht hrest
    cases hrest
    have hne : (t.pager p).pages offset ≠ 0 := by
      intro hzero
      rw [hzero, UInt32.zero_shiftRight] at hframe
      exact hframe rfl
    obtain ⟨haligned, -, heq⟩ := ht.entry offset hne
    exact ⟨haligned, heq⟩
  have h2 : DeviceTable p base size (fun _ => True) s2 := by
    have hkeep := inner_assert (W := W) (p := p + 1) (pageAligned offset)
    exact hkeep.table (Nat.ne_of_lt (Nat.lt_succ_self p)) s1 _ s2 hassert h1
  obtain ⟨found, s3, hfind, hrun⟩ := run_bind_eq_ok hrun
  cases hfind
  rw [run_ite] at hrun
  split at hrun
  · obtain ⟨_, s4, hin, hrun⟩ := run_bind_eq_ok hrun
    exact hend s4 (table_page_in m p (fun _ _ _ _ => trivial) s2 _ s4 hin h2) hrun
  · exact hend s2 h2 hrun

/-- The loop of the fault handler gives a frame that `pager_get_frame` gave. -/
theorem device_frame_loop {tries : Nat} {s s' : Vm W} {frame : UInt32}
    (h : DeviceTable p base size (fun _ => True) s)
    (hrun : frameLoop m p offset tries s = .ok (frame, s')) :
    pageAligned offset = true ∧ frame = (base + offset) >>> entFrameShift := by
  induction tries generalizing s with
  | zero => cases hrun
  | succ tries ih =>
      obtain ⟨found, s1, hget, hrun⟩ := run_bind_eq_ok hrun
      rw [run_ite] at hrun
      split at hrun
      · obtain ⟨_, s2, hfree, hrun⟩ := run_bind_eq_ok hrun
        have h1 := table_pager_get_frame m p (fun _ _ _ _ => trivial) s _ s1 hget h
        exact ih (table_tell _ s1 _ s2 hfree h1) hrun
      · next hne =>
        cases hrun
        exact device_get_frame h hget hne

/-- A fault that comes back has found a region and asked its pager for the frame. -/
theorem fault_ok {tries : Nat} {proc : ProcId} {present write : Bool} {addr frame : UInt32}
    {s s' : Vm W} (h : procUsermemPf m tries proc present write addr s = .ok (frame, s')) :
    ∃ r q s1, s.lookup proc addr = some r ∧ (s.region r).pager = some q ∧
      frameLoop m q (faultOffset (s.region r) addr) tries s = .ok (frame, s1) ∧
      ∃ u, mapLoop m proc (addr &&& pageMask) frame ((s.region r).mode &&& mmWrite != 0) tries
        s1 = .ok (u, s') := by
  obtain ⟨found, s1, hfind, h⟩ := run_bind_eq_ok h
  obtain ⟨-, rfl, rfl⟩ := find_user_region_ok hfind
  cases hfound : s1.lookup proc addr with
  | none =>
      rw [hfound] at h
      cases h
  | some r =>
      rw [hfound] at h
      obtain ⟨reg, s2, hreg, h⟩ := run_bind_eq_ok h
      cases hreg
      rw [run_ite] at h
      split at h
      · cases h
      rw [run_ite] at h
      split at h
      · cases h
      obtain ⟨q, s3, hpager, h⟩ := run_bind_eq_ok h
      obtain ⟨hq, rfl⟩ : (s1.region r).pager = some q ∧ s3 = s1 := by
        unfold regionPager at hpager
        cases hp : (s1.region r).pager with
        | none =>
            rw [hp] at hpager
            cases hpager
        | some q' =>
            rw [hp] at hpager
            cases hpager
            exact ⟨rfl, rfl⟩
      obtain ⟨found, s4, hloop, h⟩ := run_bind_eq_ok h
      obtain ⟨u, s5, hmap, h⟩ := run_bind_eq_ok h
      cases h
      exact ⟨r, q, s4, rfl, hq, hloop, u, hmap⟩

end Fault

/-- What the system does while a device pager exists: mapping calls, file reads and writes,
changes of a device, mode settings, and page faults with a bound on the tries. -/
inductive DeviceCall where
  | region (proc : ProcId) (call : RegionCall)
  | file (f : FsHandle) (call : FileCall)
  | change (q : PagerId) (newSize newPhysOffset : UInt32)
  | setMode (d : VesaDriver) (n : Nat)
  | fault (tries : Nat) (proc : ProcId) (present write : Bool) (addr : UInt32)

/-- The call; its result is dropped. -/
def DeviceCall.perform (m : Machine W) (v : V86 W) : DeviceCall → Call W Unit
  | .region proc call => do let _ ← call.perform m proc
  | .file f call => call.perform m f
  | .change q newSize newPhysOffset => changeDevicePager m q newSize newPhysOffset
  | .setMode d n => do let _ ← vesaSetMode m v d n
  | .fault tries proc present write addr => do
      let _ ← procUsermemPf m tries proc present write addr

/-- A fault in a region of the pager is at an offset below its size. -/
def DeviceCall.Inside (p : PagerId) (s : Vm W) : DeviceCall → Prop
  | .fault _ proc _ _ addr => ∀ r, s.lookup proc addr = some r → (s.region r).pager = some p →
      faultOffset (s.region r) addr < (s.pager p).size
  | .region _ _ | .file _ _ | .change _ _ _ | .setMode _ _ => True

/-- The runs of the system from the moment that a driver has made the device pager. -/
def deviceRuns (m : Machine W) (v : V86 W) (p : PagerId) (allowed : Vm W → DeviceCall → Prop) :
    System (Vm W) where
  init := fun s => ∃ size base start, newDevicePager m size base start = .ok (some p, s)
  step := fun s s' => ∃ call u, allowed s call ∧ call.perform m v s = .ok (u, s')

section Runs

variable {m : Machine W} {v : V86 W} {p : PagerId} {s s' : Vm W}

/-- The pager is a device pager whose entries lie below its size. -/
def DeviceReady (p : PagerId) (s : Vm W) : Prop :=
  ∃ base, DeviceTable p base (s.pager p).size (· < (s.pager p).size) s

theorem DeviceTable.ready {base size : UInt32} (h : DeviceTable p base size (· < size) s) :
    DeviceReady p s :=
  ⟨base, by rw [h.size_eq]; exact h⟩

/-- A program that keeps the table keeps the pager ready. -/
theorem DeviceReady.keeps {α : Type} {program : Call W α} {a : α} (h : DeviceReady p s)
    (hrun : program s = .ok (a, s'))
    (hkeeps : ∀ base size, Keeps (TableStep p base size (· < size)) program) :
    DeviceReady p s' := by
  obtain ⟨base, ht⟩ := h
  exact (hkeeps base _ s a s' hrun ht).ready

/-- A device pager starts with an empty table. -/
theorem device_ready_new {size base : UInt32} {start : Vm W}
    (h : newDevicePager m size base start = .ok (some p, s)) : DeviceReady p s := by
  obtain ⟨_, s1, -, h⟩ := run_bind_eq_ok h
  obtain ⟨first, s2, -, h⟩ := run_bind_eq_ok h
  rw [run_ite] at h
  split at h
  · obtain ⟨second, s3, -, h⟩ := run_bind_eq_ok h
    rw [run_ite] at h
    split at h
    · obtain ⟨q, s4, hfresh, h⟩ := run_bind_eq_ok h
      cases hfresh
      obtain ⟨_, s5, hset, h⟩ := run_bind_eq_ok h
      cases hset
      cases h
      refine ⟨base, Nat.lt_succ_self _, ?_, rfl, ?_⟩
      · simp
      · intro page hpage
        simp at hpage
    · cases h
  · cases h

/-- Changing a device keeps every device pager ready. -/
theorem device_ready_change {q : PagerId} {newSize newPhysOffset : UInt32} {u : Unit}
    (h : DeviceReady p s) (hrun : changeDevicePager m q newSize newPhysOffset s = .ok (u, s')) :
    DeviceReady p s' := by
  by_cases hq : q = p
  · subst hq
    obtain ⟨base, ht⟩ := h
    exact (device_table_changed ht hrun).ready
  · exact h.keeps hrun fun _ _ => table_change_device_pager hq _ _

/-- A page fault that is not beyond the end of the device keeps the pager ready. -/
theorem device_ready_fault {tries : Nat} {proc : ProcId} {present write : Bool}
    {addr frame : UInt32} (h : DeviceReady p s)
    (hinside : DeviceCall.Inside p s (.fault tries proc present write addr))
    (hrun : procUsermemPf m tries proc present write addr s = .ok (frame, s')) :
    DeviceReady p s' := by
  obtain ⟨r, q, s1, hr, hq, hloop, u, hmap⟩ := fault_ok hrun
  have hs1 : DeviceReady p s1 := by
    obtain ⟨base, ht⟩ := h
    refine DeviceTable.ready (table_frame_loop m q ?_ tries s _ s1 hloop ht)
    intro heq haligned page hpage
    obtain ⟨i, hvalue, hlt⟩ := mem_pages_of hpage
    have hoffset := UInt32.lt_iff_toNat_lt.mp (hinside r hr (heq ▸ hq))
    rw [page_aligned_iff] at haligned
    rw [UInt32.toNat_add] at hlt
    have hsize : pageSize.toNat = 4096 := rfl
    refine UInt32.lt_iff_toNat_lt.mpr ?_
    omega
  exact hs1.keeps hmap fun _ _ => table_of_inner fun _ => inner_map_loop m _ _ _ _ _ tries

/-- Every step keeps the pager ready. -/
theorem device_ready_step {call : DeviceCall} {u : Unit} (h : DeviceReady p s)
    (hinside : call.Inside p s) (hrun : call.perform m v s = .ok (u, s')) : DeviceReady p s' := by
  cases call with
  | region proc call =>
      obtain ⟨done, hrun⟩ := run_drop_ok.mp hrun
      refine h.keeps hrun fun _ _ => ?_
      cases call with
      | mmap addr size mode => exact table_mmap m proc addr size mode
      | mmapFile f offset addr size mode => exact table_mmap_file m proc f offset addr size mode
      | munmap addr => exact table_munmap m proc addr
      | mchmap addr mode => exact table_mchmap m proc addr mode
  | file f call =>
      refine h.keeps hrun fun _ _ => ?_
      cases call with
      | read offset len =>
          exact (table_file_read m f offset len fun _ hpage => hpage).bind fun _ => keeps_pure ()
      | write offset buf =>
          exact (table_file_write m f offset buf fun _ hpage => hpage).bind fun _ => keeps_pure ()
  | change q newSize newPhysOffset => exact device_ready_change h hrun
  | setMode d n =>
      obtain ⟨⟨ret, d'⟩, hrun⟩ := run_drop_ok.mp hrun
      obtain ⟨mode, -, s1, hpager, hnext, hset⟩ := vesa_set_mode_ok hrun
      obtain ⟨base, ht⟩ := h
      have hs1 : DeviceReady p s1 := (ht.same (congrFun hpager p) hnext.ge).ready
      rcases hset with ⟨-, rfl⟩ | ⟨-, u, s2, hchange, hpager2, hnext2⟩
      · exact hs1
      · obtain ⟨base2, ht2⟩ := device_ready_change hs1 hchange
        exact (ht2.same (congrFun hpager2 p) hnext2.ge).ready
  | fault tries proc present write addr =>
      obtain ⟨frame, hrun⟩ := run_drop_ok.mp hrun
      exact device_ready_fault h hinside hrun

/-- The pager stays ready in every run whose faults are not beyond its end. -/
theorem device_ready_of_reachable (h : Reachable (deviceRuns m v p (DeviceCall.Inside p)) s) :
    DeviceReady p s := by
  refine Reachable.induct (fun s hinit => ?_) (fun s s' hready hstep => ?_) h
  · obtain ⟨size, base, start, hnew⟩ := hinit
    exact device_ready_new hnew
  · obtain ⟨call, u, hinside, hrun⟩ := hstep
    exact device_ready_step hready hinside hrun

/-- What `change_device_pager` leaves in a device pager. -/
theorem change_device_pager_ok {base newSize newPhysOffset : UInt32} {u : Unit}
    (hops : (s.pager p).ops = .device base)
    (hrun : changeDevicePager m p newSize newPhysOffset s = .ok (u, s')) :
    (s'.pager p).ops = .device newPhysOffset ∧ (s'.pager p).size = newSize := by
  unfold changeDevicePager at hrun
  rw [run_bind_of_ok (run_the_pager p s), hops] at hrun
  obtain ⟨_, s1, -, hrun⟩ := run_bind_eq_ok hrun
  rw [run_bind_of_ok (run_the_pager p s1)] at hrun
  obtain ⟨_, s2, -, hrun⟩ := run_bind_eq_ok hrun
  obtain ⟨_, s3, -, hrun⟩ := run_bind_eq_ok hrun
  cases hrun
  exact ⟨by simp, by simp⟩

/-- Setting a mode of the list that `vesa_detect` made gives the pager the base of the mode's
framebuffer and `pitch * width` bytes. -/
theorem vesa_mode_range {base : UInt32} {d d' : VesaDriver} {n : Nat} {start mid : Vm W}
    (hops : (s.pager d.pager).ops = .device base)
    (hmodes : vesaDetect m v start = .ok (some d.modes, mid))
    (hrun : vesaSetMode m v d n s = .ok ((true, d'), s')) :
    ∃ mode, d.modes[n]? = some mode ∧ (s'.pager d.pager).ops = .device mode.physFbAddr ∧
      (s'.pager d.pager).size.toNat = mode.info.pitch.toNat * mode.info.width.toNat := by
  obtain ⟨mode, hmode, s1, hpager, -, hset⟩ := vesa_set_mode_ok hrun
  obtain ⟨hfalse, -⟩ | ⟨-, u, s2, hchange, hpager2, -⟩ := hset
  · cases hfalse
  · rw [← hpager] at hops
    obtain ⟨hnew, hsize⟩ := change_device_pager_ok hops hchange
    obtain ⟨id, mi, hmi⟩ := mem_vesa_detect hmodes mode (List.mem_of_getElem? hmode)
    obtain ⟨hwidth, -, hpitch⟩ := vesa_mode_of_spec hmi
    rw [hpager2]
    refine ⟨mode, hmode, hnew, ?_⟩
    have hproduct : mode.info.pitch.toNat * mode.info.width.toNat < 4294967296 :=
      Nat.mul_lt_mul'' hpitch hwidth
    rw [hsize, UInt32.toNat_mul]
    exact Nat.mod_eq_of_lt hproduct

end Runs

/-- A fault in a region of the pager hands out a frame. -/
structure FaultFrame (m : Machine W) (p : PagerId) (s : Vm W) (offset frame : UInt32) : Prop where
  fault : ∃ tries proc present write addr s' r, s.lookup proc addr = some r ∧
    (s.region r).pager = some p ∧ faultOffset (s.region r) addr = offset ∧
    procUsermemPf m tries proc present write addr s = .ok (frame, s')

/-- The driver of the pager has set the mode, which is one of the list made by `vesa_detect`. -/
structure ModeSet (m : Machine W) (v : V86 W) (p : PagerId) (s s' : Vm W) (mode : VesaMode) :
    Prop where
  driver : ∃ d d' n start mid, d.pager = p ∧ vesaDetect m v start = .ok (some d.modes, mid) ∧
    d.modes[n]? = some mode ∧ vesaSetMode m v d n s = .ok ((true, d'), s')

/-- In every state of a run whose faults stay below the size of the device: a fault gets a frame
inside the device when its offset is inside and its address does not wrap around, and only then
if the base is page-aligned; and a mode of the VESA driver gives the pager exactly its
framebuffer when its lines are empty or it is as wide as it is high, and only then. -/
theorem device_memory_confined (m : Machine W) (v : V86 W) (p : PagerId) {s : Vm W}
    (h : Reachable (deviceRuns m v p (DeviceCall.Inside p)) s) :
    ∃ base size, (s.pager p).ops = .device base ∧ (s.pager p).size = size ∧
      (∀ offset frame, FaultFrame m p s offset frame →
        (OffsetInside base size offset → InDevice base size frame) ∧
          (pageAligned base = true → InDevice base size frame → OffsetInside base size offset)) ∧
      ∀ s' mode, ModeSet m v p s s' mode → (s'.pager p).ops = .device mode.physFbAddr ∧
        ((s'.pager p).size.toNat = mode.info.pitch.toNat * mode.info.height.toNat ↔
          mode.info.pitch = 0 ∨ mode.info.width = mode.info.height) := by
  obtain ⟨base, ht⟩ := device_ready_of_reachable h
  refine ⟨base, _, ht.device, rfl, fun offset frame hfault => ?_, fun s' mode hset => ?_⟩
  · obtain ⟨tries, proc, present, write, addr, s', r, hr, hp, rfl, hrun⟩ := hfault.fault
    obtain ⟨r', q, s1, hr', hq, hloop, -⟩ := fault_ok hrun
    obtain rfl : r' = r := Option.some.inj (hr'.symm.trans hr)
    obtain rfl : q = p := Option.some.inj (hq.symm.trans hp)
    obtain ⟨haligned, rfl⟩ := device_frame_loop (ht.mono fun _ _ => trivial) hloop
    exact ⟨in_device_of_inside, fun hbase => inside_of_in_device hbase haligned⟩
  · obtain ⟨d, d', n, start, mid, rfl, hdetect, hmode, hrun⟩ := hset.driver
    obtain ⟨found, hfound, hops, hsize⟩ := vesa_mode_range ht.device hdetect hrun
    obtain rfl : mode = found := Option.some.inj (hmode.symm.trans hfound)
    refine ⟨hops, ?_⟩
    by_cases hpitch : mode.info.pitch = 0
    · simp [hsize, hpitch]
    · rw [hsize, Nat.mul_right_inj fun hzero => hpitch (Lib.Word.eq_zero_iff.mpr hzero),
        UInt32.toNat_inj]
      simp [hpitch]

/-- A BIOS with one mode, of 800 by 600 pixels of 32 bits. -/
def V86.oneMode : V86 Unit where
  beginSession := fun w => (true, w)
  endSession := fun w => w
  videoModes := fun w => (some [0x115], w)
  modeInfo := fun _ w =>
    (some { attributes := 0x9B, pitch := 3200, xres := 800, yres := 600, bpp := 32
            memoryModel := 6, redMaskSz := 8, redPosition := 16, greenMaskSz := 8
            greenPosition := 8, blueMaskSz := 8, bluePosition := 0
            physbase := 0xE0000000 }, w)
  setMode := fun _ w => (true, w)
  nullfsAddNode := fun w => (true, w)
  drawLogo := fun _ _ w => w

/-- A machine without kernel addresses for the driver to paint through. -/
def Machine.crowded : Machine Unit :=
  { Machine.steady with regionAlloc := fun _ w => (0, w) }

/-- A handle of the node of the device pager. -/
def FsHandle.device : FsHandle :=
  { id := 0, mode := 0xB, pager := some 0 }

/-- A one-page device at `0x10000`, and a process that has mapped two pages of it at `0x1000`. -/
theorem device_mapped : ∃ s : Vm Unit,
    Reachable (deviceRuns Machine.steady V86.oneMode 0 (DeviceCall.Inside 0)) s ∧
      (s.pager 0).ops = .device 0x10000 ∧ (s.pager 0).size = 0x1000 ∧
      FaultFrame Machine.steady 0 s 0 0x10 ∧ FaultFrame Machine.steady 0 s 0x1000 0x11 := by
  obtain ⟨s, hnew, t, hmap, hrest⟩ : ∃ s : Vm Unit,
      newDevicePager Machine.steady 0x1000 0x10000 Vm.blank = .ok (some 0, s) ∧
      ∃ t, DeviceCall.perform Machine.steady V86.oneMode
        (.region 0 (.mmapFile FsHandle.device 0 0x1000 0x2000 3)) s = .ok ((), t) ∧
      (t.pager 0).ops = .device 0x10000 ∧ (t.pager 0).size = 0x1000 ∧
      FaultFrame Machine.steady 0 t 0 0x10 ∧ FaultFrame Machine.steady 0 t 0x1000 0x11 :=
    ⟨_, rfl, _, rfl, rfl, rfl, ⟨1, 0, false, false, 0x1000, _, 1, rfl, rfl, rfl, rfl⟩,
      ⟨1, 0, false, false, 0x2000, _, 1, rfl, rfl, rfl, rfl⟩⟩
  exact ⟨t, .step (.init ⟨_, _, _, hnew⟩) ⟨.region 0 _, (), trivial, hmap⟩, hrest⟩

/-- `device_memory_confined` on that device, for the fault in its only page. -/
theorem device_memory_confined_one_page : ∃ s : Vm Unit, InDevice 0x10000 0x1000 0x10 ∧
    Reachable (deviceRuns Machine.steady V86.oneMode 0 (DeviceCall.Inside 0)) s := by
  obtain ⟨s, hrun, hops, hsize, hfault, -⟩ := device_mapped
  obtain ⟨base, size, hbase, rfl, hframes, -⟩ :=
    device_memory_confined Machine.steady V86.oneMode 0 hrun
  obtain rfl : base = 0x10000 := PagerOps.device.inj (hbase.symm.trans hops)
  rw [hsize] at hframes
  exact ⟨s, (hframes 0 0x10 hfault).1 (by decide), hrun⟩

/-- A fault in the second page of a mapping of a one-page device gets the frame behind the
device; and the mode of 800 by 600 pixels gets 800 lines of physical memory. -/
theorem device_memory_leaks :
    (¬ ∀ s, Reachable (deviceRuns Machine.steady V86.oneMode 0 fun _ _ => True) s →
      ∀ base, (s.pager 0).ops = .device base →
        ∀ offset frame, FaultFrame Machine.steady 0 s offset frame →
          InDevice base (s.pager 0).size frame) ∧
      ¬ ∀ s s' mode, Reachable (deviceRuns Machine.crowded V86.oneMode 0 fun _ _ => True) s →
        ModeSet Machine.crowded V86.oneMode 0 s s' mode →
          (s'.pager 0).size.toNat = mode.info.pitch.toNat * mode.info.height.toNat := by
  have hmore : ∀ s, Reachable (deviceRuns Machine.steady V86.oneMode 0 (DeviceCall.Inside 0)) s →
      Reachable (deviceRuns Machine.steady V86.oneMode 0 fun _ _ => True) s := by
    intro s hrun
    refine Reachable.mono ?_ ?_ hrun
    · exact fun _ hinit => hinit
    intro t t' hstep
    obtain ⟨call, u, -, hcall⟩ := hstep
    exact ⟨call, u, trivial, hcall⟩
  obtain ⟨s, hrun, hops, hsize, -, hfault⟩ := device_mapped
  refine ⟨fun hclaim => ?_, fun hclaim => ?_⟩
  · have hinside := hclaim s (hmore s hrun) 0x10000 hops 0x1000 0x11 hfault
    rw [hsize] at hinside
    exact absurd hinside (by decide)
  · obtain ⟨s, s', mode, hnew, hset, hwrong⟩ : ∃ (s s' : Vm Unit) (mode : VesaMode),
        newDevicePager Machine.crowded 0 0 Vm.blank = .ok (some 0, s) ∧
        ModeSet Machine.crowded V86.oneMode 0 s s' mode ∧
        (s'.pager 0).size.toNat ≠ mode.info.pitch.toNat * mode.info.height.toNat :=
      ⟨_, _, ⟨⟨800, 600, 3200, 32, 7⟩, 0x115, 0xE0000000⟩, rfl,
        ⟨⟨[⟨⟨800, 600, 3200, 32, 7⟩, 0x115, 0xE0000000⟩], none, 0⟩, _, 0, Vm.blank, _, rfl, rfl, rfl,
          rfl⟩, by decide⟩
    exact hwrong (hclaim s s' mode (.init ⟨_, _, _, hnew⟩) hset)

end Kogata.Kernel
