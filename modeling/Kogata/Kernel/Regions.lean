import Kogata.Common.BtreeOrder
import Kogata.Kernel.PagerFrame
import Kogata.Kernel.Process
import Kogata.Lib.Run
import Kogata.Lib.Word

/-!
# What the mapping calls do to a process's regions

`findUserRegion` is a pure lookup (`find_user_region_ok`), and one lemma for each mapping call
says what it does to the list and the index of the calling process: `mmap` and `mmap_file` add
one region that was not mapped at its first byte (`mmap_cases`, `mmap_file_cases`), `munmap`
removes one (`munmap_cases`), and `mchmap` changes a mode (`mchmap_cases`).
-/

namespace Kogata.Kernel

open Kogata.Common Lib.Effect

variable {W : Type}

/-- Region structures and processes are as before; identities are only used up. -/
structure RegionFrame (s s' : Vm W) : Prop where
  region : s'.region = s.region
  proc : s'.proc = s.proc
  next : s.next ≤ s'.next

instance : Std.Refl (RegionFrame (W := W)) :=
  ⟨fun _ => ⟨rfl, rfl, Nat.le_refl _⟩⟩

instance : IsTrans (Vm W) RegionFrame :=
  ⟨fun _ _ _ h h' => ⟨h'.region.trans h.region, h'.proc.trans h.proc, h.next.trans h'.next⟩⟩

/-- The inside of a pager operation leaves regions and processes alone. -/
theorem Inner.region_frame {α : Type} {p : PagerId} {program : Call W α}
    (h : Inner p program) : Keeps RegionFrame program :=
  h.keeps.mono fun _ _ hs => ⟨hs.region, hs.proc, hs.next.ge⟩

theorem frame_set_pager (p : PagerId) (change : Pager → Pager) :
    Keeps RegionFrame (setPager p change : Call W Unit) :=
  keeps_modify fun _ => ⟨rfl, rfl, Nat.le_refl _⟩

theorem frame_the_pager (p : PagerId) : Keeps RegionFrame (thePager p : Call W Pager) :=
  (inner_the_pager p).region_frame (p := p)

theorem frame_ask {α : Type} (question : W → α × W) : Keeps RegionFrame (ask question) :=
  (inner_ask question).region_frame (p := 0)

theorem frame_tell (change : W → W) : Keeps RegionFrame (tell change) :=
  (inner_tell change).region_frame (p := 0)

theorem frame_fresh : Keeps RegionFrame (fresh : Call W Nat) := by
  intro s r s' h
  cases h
  exact ⟨rfl, rfl, Nat.le_succ _⟩

theorem frame_lock_pager (p : PagerId) : Keeps RegionFrame (lockPager p : Call W Unit) :=
  (frame_the_pager p).bind fun _ => keeps_ite (fun _ => keeps_throw _) fun _ =>
    frame_set_pager p _

theorem frame_new_pager (m : Machine W) (ops : PagerOps) (size : UInt32) :
    Keeps RegionFrame (newPager m ops size) := by
  refine (frame_ask _).bind fun _ => keeps_ite (fun _ => ?_) fun _ => keeps_pure _
  refine (frame_ask _).bind fun _ => keeps_ite (fun _ => ?_) fun _ => keeps_pure _
  exact frame_fresh.bind fun p => (frame_set_pager p _).bind fun _ => keeps_pure _

theorem frame_delete_pager (m : Machine W) (p : PagerId) :
    Keeps RegionFrame (deletePager m p) := by
  refine (frame_the_pager p).bind fun _ => .bind ((inner_assert _).region_frame (p := p))
    fun _ => (frame_lock_pager p).bind fun _ => (frame_the_pager p).bind fun pg => ?_
  have hrelease : Keeps RegionFrame (pageRelease m p 0 pg.size) :=
    (inner_page_release m p 0 pg.size).region_frame
  cases pg.ops with
  | swap allowResize => exact hrelease
  | vfs v => exact ((inner_vfs_page_commit m p v 0 pg.size).region_frame).bind fun _ => hrelease
  | device physOffset => exact hrelease

theorem frame_pager_access (p : PagerId) (offset len : UInt32) (accessed dirty : Bool) :
    Keeps RegionFrame (pagerAccess p offset len accessed dirty : Call W Unit) := by
  refine (frame_lock_pager p).bind fun _ => .bind ((inner_assert _).region_frame (p := p))
    fun _ => .bind ?_ fun _ => frame_set_pager p _
  refine (inner_for_pages (p := p) fun page => ?_).region_frame
  exact (inner_find_page p page).bind fun v => inner_when (inner_put_page p page _)

theorem frame_pager_add_map (p : PagerId) (r : RegionId) :
    Keeps RegionFrame (pagerAddMap p r : Call W Unit) :=
  (frame_lock_pager p).bind fun _ => (frame_set_pager p _).bind fun _ => frame_set_pager p _

theorem frame_pager_rm_map (p : PagerId) (r : RegionId) :
    Keeps RegionFrame (pagerRmMap p r : Call W Unit) := by
  refine (frame_lock_pager p).bind fun _ => (frame_the_pager p).bind fun pg => ?_
  exact keeps_ite (fun _ => (keeps_throw _).bind fun _ => frame_set_pager p _) fun _ =>
    (frame_set_pager p _).bind fun _ => frame_set_pager p _

theorem run_the_proc (proc : ProcId) (s : Vm W) : theProc proc s = .ok (s.proc proc, s) := rfl

theorem run_the_region (r : RegionId) (s : Vm W) : theRegion r s = .ok (s.region r, s) := rfl

theorem run_assert (c : Bool) (s : Vm W) :
    assert c s = if c then .ok ((), s) else .error .panic := by
  cases c <;> rfl

/-- The state with the mutex of a process taken or free. -/
def Vm.withLock (s : Vm W) (proc : ProcId) (held : Bool) : Vm W :=
  { s with proc := Function.update s.proc proc { s.proc proc with lock := held } }

@[simp] theorem Vm.with_lock_region (s : Vm W) (proc : ProcId) (held : Bool) :
    (s.withLock proc held).region = s.region := rfl

@[simp] theorem Vm.with_lock_regions_idx (s : Vm W) (proc : ProcId) (held : Bool) :
    ((s.withLock proc held).proc proc).regionsIdx = (s.proc proc).regionsIdx := by
  simp [Vm.withLock]

/-- Taking and releasing a free mutex changes nothing. -/
theorem Vm.with_lock_cancel {s : Vm W} {proc : ProcId} (h : (s.proc proc).lock = false) :
    (s.withLock proc true).withLock proc false = s := by
  have hself : { s.proc proc with lock := false } = s.proc proc := by rw [← h]
  simp [Vm.withLock, hself]

theorem run_lock_proc (proc : ProcId) (s : Vm W) : lockProc proc s =
    if (s.proc proc).lock then .error .deadlock else .ok ((), s.withLock proc true) := by
  simp only [lockProc, run_bind, run_the_proc, run_ite, run_throw]
  rfl

theorem run_unlock_proc (proc : ProcId) (s : Vm W) :
    unlockProc proc s = .ok ((), s.withLock proc false) := rfl

/-- The region at the greatest start address that is not above the address. -/
def Vm.lower (s : Vm W) (proc : ProcId) (addr : UInt32) : Option RegionId :=
  ((s.proc proc).regionsIdx.bind fun idx => idx.lower addr).map Prod.snd

/-- The region that `find_user_region` gives. -/
def Vm.lookup (s : Vm W) (proc : ProcId) (addr : UInt32) : Option RegionId :=
  (s.lower proc addr).filter fun r => addr < (s.region r).addr + (s.region r).size

/-- `find_user_region` looks a region up and changes nothing. -/
theorem run_find_user_region (proc : ProcId) (addr : UInt32) (s : Vm W) :
    findUserRegion proc addr s =
      if (s.proc proc).lock then .error .deadlock
      else if ∀ r, s.lower proc addr = some r → (s.region r).addr ≤ addr then
        .ok (s.lookup proc addr, s)
      else .error .panic := by
  simp only [findUserRegion, run_bind, run_lock_proc, run_the_proc]
  cases hlock : (s.proc proc).lock with
  | true => rfl
  | false =>
      simp only [Bool.false_eq_true, if_false, Vm.with_lock_regions_idx, Vm.lookup]
      rw [← Vm.lower]
      cases s.lower proc addr with
      | none => simp [run_pure, run_unlock_proc, Vm.with_lock_cancel hlock]
      | some r =>
          by_cases hle : (s.region r).addr ≤ addr
          · simp only [run_bind, run_the_region, run_assert, Vm.with_lock_region, run_pure,
              run_unlock_proc, Option.some.injEq, forall_eq', decide_eq_true_eq, ge_iff_le,
              if_pos hle, Vm.with_lock_cancel hlock, Option.filter_some]
            by_cases hlt : addr < (s.region r).addr + (s.region r).size
            · rw [if_neg (UInt32.not_le.mpr hlt), if_pos hlt]
            · rw [if_pos (UInt32.not_lt.mp hlt), if_neg hlt]
          · simp only [run_bind, run_the_region, run_assert, Vm.with_lock_region,
              Option.some.injEq, forall_eq', decide_eq_true_eq, ge_iff_le, if_neg hle]
/-- A region has been put into the list and the index of a process that had no region at its
first byte. -/
structure Added (proc : ProcId) (r : RegionId) (reg : UserRegion) (s s' : Vm W) : Prop where
  old : s.next ≤ r
  new : r < s'.next
  region : s'.region = Function.update s.region r reg
  linked : ∃ idx, (s.proc proc).regionsIdx = some idx ∧
    s'.proc = Function.update s.proc proc
      { regions := r :: (s.proc proc).regions
        regionsIdx := some ⟨idx.root.insert idKeyCmpFun reg.addr r, idx.nitems + 1⟩
        lock := false }

/-- A lookup that comes back. -/
theorem find_user_region_ok {proc : ProcId} {addr : UInt32} {s s' : Vm W}
    {found : Option RegionId} (h : findUserRegion proc addr s = .ok (found, s')) :
    (s.proc proc).lock = false ∧ found = s.lookup proc addr ∧ s' = s := by
  rw [run_find_user_region] at h
  split at h
  · cases h
  · next hlock =>
    split at h
    · cases h
      exact ⟨by simpa using hlock, rfl, rfl⟩
    · cases h

/-- Releasing the mutex after work that left the regions alone. -/
theorem frame_unlock {proc : ProcId} {s t : Vm W} (hlock : (s.proc proc).lock = false)
    (h : RegionFrame (s.withLock proc true) t) : RegionFrame s (t.withLock proc false) where
  region := h.region
  proc := by
    have hcancel := congrArg Vm.proc (Vm.with_lock_cancel hlock)
    rw [← hcancel]
    simp only [Vm.withLock, h.proc]
  next := h.next

variable {m : Machine W}

/-- The error path of `mmap` gives the regions back as they were. -/
theorem mmap_error_ok {proc : ProcId} {pager : Option PagerId} {s t s' : Vm W} {done : Bool}
    (hlock : (s.proc proc).lock = false) (ht : RegionFrame (s.withLock proc true) t)
    (h : mmapError m proc pager t = .ok (done, s')) : done = false ∧ RegionFrame s s' := by
  have hdelete : ∀ u : Vm W, RegionFrame (s.withLock proc true) u →
      (do unlockProc proc; return false : Call W Bool) u = .ok (done, s') →
      done = false ∧ RegionFrame s s' := by
    intro u hu hrun
    cases hrun
    exact ⟨rfl, frame_unlock hlock hu⟩
  cases pager with
  | none => exact hdelete t ht h
  | some p =>
      obtain ⟨_, u, hrun, h⟩ := run_bind_eq_ok h
      exact hdelete u (trans_of RegionFrame ht (frame_delete_pager m p _ _ _ hrun)) h

/-- `linkRegion` and the release of the mutex, after a new region has been filled in. -/
theorem added_of_linked {proc : ProcId} {s t : Vm W} {idx idx' : Btree idKeyCmpFun RegionId}
    {allocated : Bool} {r : RegionId} {reg : UserRegion}
    (hidx : (s.proc proc).regionsIdx = some idx)
    (hadd : idx.add allocated reg.addr r = some idx') (hold : s.next ≤ r) (hnew : r < t.next)
    (hregion : t.region = Function.update s.region r reg)
    (hproc : t.proc = Function.update s.proc proc
      { regions := r :: (s.proc proc).regions, regionsIdx := some idx', lock := false }) :
    Added proc r reg s t := by
  refine ⟨hold, hnew, hregion, idx, hidx, ?_⟩
  rw [hproc]
  cases allocated with
  | false => cases hadd
  | true =>
      cases hadd
      rfl

/-- `mmap` with the mutex either leaves the regions alone or adds one. -/
theorem mmap_locked_cases {proc : ProcId} {addr size mode : UInt32} {stale : UserRegion}
    {s s' : Vm W} {done : Bool} (hlock : (s.proc proc).lock = false)
    (h : mmapLocked m proc addr size mode stale s = .ok (done, s')) :
    (done = false ∧ RegionFrame s s') ∨
      done = true ∧ ∃ r reg, Added proc r reg s s' ∧ reg.addr = addr ∧ reg.size = size ∧
        reg.file = none := by
  simp only [mmapLocked, run_bind, run_lock_proc, hlock, run_the_proc, Bool.false_eq_true,
    if_false, Vm.with_lock_regions_idx] at h
  cases hidx : (s.proc proc).regionsIdx with
  | none =>
      rw [hidx] at h
      exact .inl (mmap_error_ok hlock (refl_of RegionFrame _) h)
  | some idx =>
      simp only [hidx] at h
      obtain ⟨pager, s1, hpager, h⟩ := run_bind_eq_ok h
      have hs1 : RegionFrame (s.withLock proc true) s1 := frame_new_pager m _ size _ _ _ hpager
      cases pager with
      | none => exact .inl (mmap_error_ok hlock hs1 h)
      | some p =>
          obtain ⟨allocated, s2, hmalloc, h⟩ := run_bind_eq_ok h
          have hs2 := trans_of RegionFrame hs1 (frame_ask m.malloc _ _ _ hmalloc)
          obtain ⟨r, s3, hfresh, h⟩ := run_bind_eq_ok h
          cases hfresh
          cases hadd : idx.add allocated addr s2.next with
          | none =>
              simp only [hadd] at h
              have hs3 : RegionFrame s2 { s2 with next := s2.next + 1 } :=
                ⟨rfl, rfl, Nat.le_succ _⟩
              exact .inl (mmap_error_ok hlock (trans_of RegionFrame hs2 hs3) h)
          | some idx' =>
              simp only [hadd] at h
              obtain ⟨_, s4, hset, h⟩ := run_bind_eq_ok h
              cases hset
              obtain ⟨_, s5, hlink, h⟩ := run_bind_eq_ok h
              cases hlink
              obtain ⟨_, s6, hmap, h⟩ := run_bind_eq_ok h
              have hs6 := frame_pager_add_map p _ _ _ _ hmap
              cases h
              refine .inr ⟨rfl, s2.next, { stale with
                proc := proc, addr := addr, size := size, ownPager := true
                pager := some p, offset := 0, mode := mode.toUInt16, file := none },
                added_of_linked hidx hadd hs2.next (Nat.lt_of_lt_of_le (Nat.lt_succ_self _)
                  hs6.next) ?_ ?_, rfl, rfl, rfl⟩
              · exact hs6.region.trans (congrArg (Function.update · _ _) hs2.region)
              · simp [Vm.withLock, hs6.proc, hs2.proc]

/-- `mmap_file` with the mutex either leaves the regions alone or adds one. -/
theorem mmap_file_locked_cases {proc : ProcId} {f : FsHandle} {p : PagerId}
    {offset addr size mode : UInt32} {stale : UserRegion} {s s' : Vm W} {done : Bool}
    (hlock : (s.proc proc).lock = false)
    (h : mmapFileLocked m proc f p offset addr size mode stale s = .ok (done, s')) :
    (done = false ∧ RegionFrame s s') ∨
      done = true ∧ ∃ r reg, Added proc r reg s s' ∧ reg.addr = addr ∧ reg.size = size ∧
        reg.offset = offset ∧ reg.pager = some p ∧ reg.file = some f ∧
        reg.mode = mode.toUInt16 := by
  simp only [mmapFileLocked, run_bind, run_lock_proc, hlock, run_the_proc, Bool.false_eq_true,
    if_false, Vm.with_lock_regions_idx] at h
  cases hidx : (s.proc proc).regionsIdx with
  | none =>
      simp only [hidx] at h
      cases h
      exact .inl ⟨rfl, frame_unlock hlock (refl_of RegionFrame _)⟩
  | some idx =>
      simp only [hidx] at h
      obtain ⟨allocated, s2, hmalloc, h⟩ := run_bind_eq_ok h
      have hs2 : RegionFrame (s.withLock proc true) s2 := frame_ask m.malloc _ _ _ hmalloc
      obtain ⟨r, s3, hfresh, h⟩ := run_bind_eq_ok h
      cases hfresh
      have hs3 : RegionFrame s2 { s2 with next := s2.next + 1 } := ⟨rfl, rfl, Nat.le_succ _⟩
      cases hadd : idx.add allocated addr s2.next with
      | none =>
          simp only [hadd] at h
          cases h
          exact .inl ⟨rfl, frame_unlock hlock (trans_of RegionFrame hs2 hs3)⟩
      | some idx' =>
          simp only [hadd] at h
          obtain ⟨_, s4, hset, h⟩ := run_bind_eq_ok h
          cases hset
          obtain ⟨_, s5, hset, h⟩ := run_bind_eq_ok h
          cases hset
          obtain ⟨_, s6, hmap, h⟩ := run_bind_eq_ok h
          have hs6 := frame_pager_add_map p _ _ _ _ hmap
          obtain ⟨_, s7, hlink, h⟩ := run_bind_eq_ok h
          cases hlink
          cases h
          refine .inr ⟨rfl, s2.next, { stale with
            addr := addr, size := size, file := some f, mode := mode.toUInt16
            offset := offset, pager := some p, ownPager := false },
            added_of_linked hidx hadd hs2.next (Nat.lt_of_lt_of_le (Nat.lt_succ_self _)
              hs6.next) ?_ ?_, rfl, rfl, rfl, rfl, rfl, rfl⟩
          · exact hs6.region.trans (congrArg (Function.update · _ _) hs2.region)
          · simp [Vm.withLock, hs6.proc, hs2.proc]

/-- Work that left the regions alone may come before. -/
theorem Added.after {proc : ProcId} {r : RegionId} {reg : UserRegion} {s t s' : Vm W}
    (h : Added proc r reg t s') (ht : RegionFrame s t) : Added proc r reg s s' where
  old := Nat.le_trans ht.next h.old
  new := h.new
  region := by rw [h.region, ht.region]
  linked := by rw [← ht.proc]; exact h.linked

/-- A region that `mmap` or `mmap_file` made after its tests. -/
structure Mapped (proc : ProcId) (r : RegionId) (reg : UserRegion) (s s' : Vm W) : Prop
    extends Added proc r reg s s' where
  unmapped : s.lookup proc reg.addr = none
  aligned : pageAligned reg.addr = true
  range : badRange reg.addr reg.size = false

/-- A mapping call that refuses after work that left the regions alone. -/
theorem refused {s t s' : Vm W} {done : Bool} (ht : RegionFrame s t)
    (h : (pure false : Call W Bool) t = .ok (done, s')) : done = false ∧ RegionFrame s s' := by
  obtain ⟨rfl, rfl⟩ := run_pure_eq_ok h
  exact ⟨rfl, ht⟩

/-- A test that refuses the call, or lets it go on. -/
theorem guard_cases {c : Prop} [Decidable c] {rest : Call W Bool} {s s' : Vm W} {done : Bool}
    (h : (if c then pure false else rest) s = .ok (done, s')) :
    (done = false ∧ RegionFrame s s') ∨ ¬ c ∧ rest s = .ok (done, s') := by
  rw [run_ite] at h
  split at h
  · exact .inl (refused (refl_of RegionFrame s) h)
  · next hc => exact .inr ⟨hc, h⟩

/-- `mmap` leaves the regions alone or adds one that passes its tests. -/
theorem mmap_cases {proc : ProcId} {addr size mode : UInt32} {s s' : Vm W} {done : Bool}
    (h : mmap m proc addr size mode s = .ok (done, s')) :
    (done = false ∧ RegionFrame s s') ∨
      done = true ∧ ∃ r reg, Mapped proc r reg s s' ∧ reg.addr = addr ∧ reg.size = size ∧
        reg.file = none := by
  obtain ⟨found, s1, hfind, hrun⟩ := run_bind_eq_ok h
  obtain ⟨hlock, rfl, rfl⟩ := find_user_region_ok hfind
  rcases guard_cases hrun with hdone | ⟨hunmapped, hrun⟩
  · exact .inl hdone
  rcases guard_cases hrun with hdone | ⟨haligned, hrun⟩
  · exact .inl hdone
  rcases guard_cases hrun with hdone | ⟨hrange, hrun⟩
  · exact .inl hdone
  obtain ⟨block, s2, halloc, hrun⟩ := run_bind_eq_ok hrun
  have hs2 : RegionFrame s1 s2 := frame_ask _ _ _ _ halloc
  cases block with
  | none => exact .inl (refused hs2 hrun)
  | some stale =>
      rcases mmap_locked_cases (by rw [hs2.proc, hlock]) hrun with ⟨hdone, hframe⟩ | hmade
      · exact .inl ⟨hdone, trans_of RegionFrame hs2 hframe⟩
      · obtain ⟨rfl, r, reg, hadded, rfl, rfl, hfile⟩ := hmade
        exact .inr ⟨rfl, r, reg, ⟨hadded.after hs2, by simpa using hunmapped,
          by simpa using haligned, by simpa using hrange⟩, rfl, rfl, hfile⟩

/-- `mmap_file` leaves the regions alone or adds one that passes its tests. -/
theorem mmap_file_cases {proc : ProcId} {f : FsHandle} {offset addr size mode : UInt32}
    {s s' : Vm W} {done : Bool} (h : mmapFile m proc f offset addr size mode s = .ok (done, s')) :
    (done = false ∧ RegionFrame s s') ∨
      done = true ∧ pageAligned offset = true ∧ modeRefused f mode = false ∧
        ∃ r reg, Mapped proc r reg s s' ∧ reg.addr = addr ∧ reg.size = size ∧
          reg.offset = offset ∧ reg.pager = f.pager ∧ reg.file = some f ∧
          reg.mode = mode.toUInt16 := by
  obtain ⟨found, s1, hfind, hrun⟩ := run_bind_eq_ok h
  obtain ⟨hlock, rfl, rfl⟩ := find_user_region_ok hfind
  rcases guard_cases hrun with hdone | ⟨hunmapped, hrun⟩
  · exact .inl hdone
  rcases guard_cases hrun with hdone | ⟨haligned, hrun⟩
  · exact .inl hdone
  rcases guard_cases hrun with hdone | ⟨hoffset, hrun⟩
  · exact .inl hdone
  rcases guard_cases hrun with hdone | ⟨hmode, hrun⟩
  · exact .inl hdone
  cases hp : f.pager with
  | none =>
      rw [hp] at hrun
      cases hrun
  | some p =>
      rw [hp] at hrun
      rcases guard_cases hrun with hdone | ⟨hrange, hrun⟩
      · exact .inl hdone
      obtain ⟨block, s2, halloc, hrun⟩ := run_bind_eq_ok hrun
      have hs2 : RegionFrame s1 s2 := frame_ask _ _ _ _ halloc
      cases block with
      | none => exact .inl (refused hs2 hrun)
      | some stale =>
          rcases mmap_file_locked_cases (by rw [hs2.proc, hlock]) hrun with ⟨hdone, hframe⟩ | hmade
          · exact .inl ⟨hdone, trans_of RegionFrame hs2 hframe⟩
          · obtain ⟨rfl, r, reg, hadded, rfl, rfl, rfl, hpager, hfile⟩ := hmade
            exact .inr ⟨rfl, by simpa using hoffset, by simpa using hmode, r, reg,
              ⟨hadded.after hs2, by simpa using hunmapped, by simpa using haligned,
                by simpa using hrange⟩, rfl, rfl, rfl, hpager, hfile⟩

/-- A region has been taken out of the list and the index of its process. -/
structure Unmapped (proc : ProcId) (r : RegionId) (s s' : Vm W) : Prop where
  next : s.next ≤ s'.next
  region : s'.region = s.region
  unlinked : ∃ idx, (s.proc proc).regionsIdx = some idx ∧
    s'.proc = Function.update s.proc proc
      { regions := (s.proc proc).regions.erase r
        regionsIdx := some (idx.removeV (s.region r).addr r).1
        lock := false }

theorem frame_region_pager (reg : UserRegion) :
    Keeps RegionFrame (regionPager reg : Call W PagerId) := by
  unfold regionPager
  cases reg.pager with
  | none => exact keeps_throw _
  | some p => exact keeps_pure p

theorem frame_for_pages {first len : UInt32} {body : UInt32 → Call W Unit}
    (h : ∀ page, Keeps RegionFrame (body page)) : Keeps RegionFrame (forPages first len body) :=
  (keeps_for_m fun page _ => h page).bind fun _ =>
    keeps_ite (fun _ => keeps_throw _) fun _ => keeps_pure _

theorem frame_release_region (proc : ProcId) (r : RegionId) (reg : UserRegion) :
    Keeps RegionFrame (releaseRegion m proc r reg) := by
  have hend : ∀ pager, Keeps RegionFrame (do
      if reg.ownPager then deletePager m pager : Call W Unit) := fun pager =>
    keeps_ite (fun _ => frame_delete_pager m pager) fun _ => keeps_pure _
  refine (frame_region_pager reg).bind fun pager => .bind (frame_for_pages fun it => ?_) fun _ =>
    (frame_pager_rm_map pager r).bind fun _ => ?_
  · refine (frame_ask _).bind fun ent => keeps_ite (fun _ => ?_) fun _ => keeps_pure _
    exact (frame_pager_access pager _ _ _ _).bind fun _ => frame_tell _
  · cases reg.file with
    | none => exact hend pager
    | some f => exact .bind (frame_tell _) fun _ => hend pager

/-- `munmap` leaves the regions alone or takes out the one it has looked up. -/
theorem munmap_cases {proc : ProcId} {addr : UInt32} {s s' : Vm W} {done : Bool}
    (h : munmap m proc addr s = .ok (done, s')) :
    (done = false ∧ RegionFrame s s') ∨
      done = true ∧ ∃ r, s.lookup proc addr = some r ∧ Unmapped proc r s s' := by
  obtain ⟨found, s1, hfind, hrun⟩ := run_bind_eq_ok h
  obtain ⟨hlock, hfound, rfl⟩ := find_user_region_ok hfind
  cases found with
  | none => exact .inl (refused (refl_of RegionFrame s1) hrun)
  | some r =>
      obtain ⟨_, s2, hlocked, hrun⟩ := run_bind_eq_ok hrun
      obtain ⟨_, s5, hinner, hrun⟩ := run_bind_eq_ok hrun
      cases hrun
      rw [run_lock_proc, hlock] at hlocked
      cases hlocked
      simp only [munmapInner, unlinkRegion, run_bind, run_the_region, run_the_proc,
        Vm.with_lock_regions_idx] at hinner
      cases hidx : (s1.proc proc).regionsIdx with
      | none =>
          rw [hidx] at hinner
          cases hinner
      | some idx =>
          rw [hidx] at hinner
          have hs5 := frame_release_region proc r _ _ _ _ hinner
          refine .inr ⟨rfl, r, hfound.symm, hs5.next, hs5.region, idx, hidx, ?_⟩
          simp [Vm.withLock, hs5.proc]

/-- The mode of one region of the process has changed. -/
structure Remoded (r : RegionId) (mode : UInt16) (s s' : Vm W) : Prop where
  next : s.next ≤ s'.next
  region : s'.region = Function.update s.region r { s.region r with mode := mode }
  proc : s'.proc = s.proc

/-- `mchmap` leaves the regions alone or changes the mode of the one it has looked up, which does
not become writable where its handle is not. -/
theorem mchmap_cases {proc : ProcId} {addr mode : UInt32} {s s' : Vm W} {done : Bool}
    (h : mchmap m proc addr mode s = .ok (done, s')) :
    (done = false ∧ RegionFrame s s') ∨
      done = true ∧ ∃ r, s.lookup proc addr = some r ∧ Remoded r mode.toUInt16 s s' ∧
        ∀ f, (s.region r).file = some f → mode.toUInt16 &&& mmWrite ≠ 0 →
          f.mode &&& fmWrite ≠ 0 := by
  obtain ⟨found, s1, hfind, hrun⟩ := run_bind_eq_ok h
  obtain ⟨hlock, hfound, rfl⟩ := find_user_region_ok hfind
  cases found with
  | none => exact .inl (refused (refl_of RegionFrame s1) hrun)
  | some r =>
      obtain ⟨reg, s2, hreg, hrun⟩ := run_bind_eq_ok hrun
      cases hreg
      rcases guard_cases hrun with hdone | ⟨hallowed, hrun⟩
      · exact .inl hdone
      have hwrite : ∀ f, (s1.region r).file = some f → mode.toUInt16 &&& mmWrite ≠ 0 →
          f.mode &&& fmWrite ≠ 0 := fun f hfile hmode hno =>
        hallowed (by simp [hfile, hmode, hno])
      obtain ⟨_, s2, hlocked, hrun⟩ := run_bind_eq_ok hrun
      rw [run_lock_proc, hlock] at hlocked
      cases hlocked
      obtain ⟨_, s3, hset, hrun⟩ := run_bind_eq_ok hrun
      cases hset
      obtain ⟨_, s4, hpages, hrun⟩ := run_bind_eq_ok hrun
      cases hrun
      have hs4 : RegionFrame _ s4 := frame_for_pages (fun it => (frame_ask _).bind fun ent =>
        keeps_ite (fun _ => keeps_ite (fun _ => (frame_ask _).bind fun _ => keeps_pure _)
          fun _ => keeps_pure _) fun _ => keeps_pure _) _ _ _ hpages
      refine .inr ⟨rfl, r, hfound.symm, ⟨hs4.next, hs4.region, ?_⟩, hwrite⟩
      have hcancel := congrArg Vm.proc (Vm.with_lock_cancel hlock)
      rw [← hcancel]
      simp only [Vm.withLock, hs4.proc]

end Kogata.Kernel
