import Kogata.Kernel.Descriptors
import Kogata.Kernel.DeviceConfined
import Kogata.Kernel.Probe

/-!
# Arguments that change under a system call

`vesa_ioctl` from `kernel/dev/vesa.c` reads the mode number from the user's block three times:
for the two halves of its range check, and for the index. As for the pair of descriptors of
`make_channel_sc`, each read gives an arbitrary value. `user_reads_iff` says for both calls which
values do no harm.
-/

namespace Kogata.Kernel

open Lib.Effect Lib.Run

variable {W : Type}

/-- `IOCTL_FB_GET_INFO`. -/
abbrev ioctlFbGetInfo : Int := 1
/-- `IOCTL_FBDEV_GET_MODE_INFO`. -/
abbrev ioctlFbdevGetModeInfo : Int := 10
/-- `IOCTL_FBDEV_SET_MODE`. -/
abbrev ioctlFbdevSetMode : Int := 11
/-- `sizeof(fb_info_t)`. -/
abbrev fbInfoSize : UInt32 := 20
/-- `sizeof(fbdev_mode_info_t)`. -/
abbrev fbdevModeInfoSize : UInt32 := 24

/-- What the reads of `m->mode_number` give, in the order of the code: against zero, against
`nmodes`, and as the index. -/
structure ModeReads where
  low : Int
  high : Int
  index : Int
  deriving DecidableEq

/-- `&d->modes[n]`, inside the table. -/
def VesaDriver.modeAt (d : VesaDriver) (n : Int) : Option VesaMode :=
  if n < 0 then none else d.modes[n.toNat]?

/-- `m->mode_number >= 0 && m->mode_number < d->nmodes`. -/
def VesaDriver.checks (d : VesaDriver) (reads : ModeReads) : Bool :=
  decide (0 ≤ reads.low) && decide (reads.high < d.modes.length)

variable (m : Machine W) (v : V86 W)

/-- `vesa_set_mode` for any number; outside the table its `ASSERT` fails. -/
def vesaSetModeNumber (d : VesaDriver) (n : Int) : Call W (Bool × VesaDriver) :=
  if n < 0 then throw .panic else vesaSetMode m v d n.toNat

/-- A probe that is made for an address below the kernel half only. -/
def probeBelowKernel (need : UInt16) (proc : ProcId) (data len : UInt32) : Call W Unit :=
  if data < kHighhalfAddr then probe need proc data len else return ()

/-- `vesa_ioctl`: what it returns, and the driver. What is copied to the user's block is left
out, as the next read may give anything. -/
def vesaIoctl (proc : ProcId) (d : VesaDriver) (command : Int) (data : UInt32)
    (reads : ModeReads) : Call W (Int × VesaDriver) := do
  if command = ioctlFbdevGetModeInfo then
    probeBelowKernel mmWrite proc data fbdevModeInfoSize
    if d.checks reads then
      match d.modeAt reads.index with
      | none => throw .wild
      | some _ => return (1, d)
    else return (0, d)
  else if command = ioctlFbdevSetMode then
    probeBelowKernel mmRead proc data fbdevModeInfoSize
    if d.checks reads then
      let (ok, d) ← vesaSetModeNumber m v d reads.index
      return (if ok then 1 else 0, d)
    else return (0, d)
  else if command = ioctlFbGetInfo then
    match d.currentMode with
    | none => return (0, d)
    | some n => do
        probeBelowKernel mmWrite proc data fbInfoSize
        match d.modes[n]? with
        | none => throw .wild
        | some _ => return (1, d)
  else return (0, d)

/-- The program reads nothing outside an object and fails no assertion. -/
def Orderly {α : Type} (program : Call W α) (s : Vm W) : Prop :=
  program s ≠ .error .wild ∧ program s ≠ .error .panic

section Orderly

variable {m v} {α β : Type} {program : Call W α} {s : Vm W}

/-- A program that stops in neither way in any state. -/
structure Calm (program : Call W α) : Prop where
  wild : Avoids .wild program
  panic : Avoids .panic program

theorem calm_pure (a : α) : Calm (pure a : Call W α) :=
  ⟨avoids_pure a, avoids_pure a⟩

theorem calm_throw {stop : Halt} (hwild : stop ≠ .wild) (hpanic : stop ≠ .panic) :
    Calm (throw stop : Call W α) :=
  ⟨avoids_throw hwild, avoids_throw hpanic⟩

theorem calm_modify_get (change : Vm W → α × Vm W) : Calm (modifyGet change : Call W α) :=
  ⟨avoids_modify_get change, avoids_modify_get change⟩

theorem Calm.bind {rest : α → Call W β} (h : Calm program) (hrest : ∀ a, Calm (rest a)) :
    Calm (program >>= rest) :=
  ⟨h.wild.bind fun a => (hrest a).wild, h.panic.bind fun a => (hrest a).panic⟩

theorem calm_ite {c : Prop} [Decidable c] {other : Call W α} (h : Calm program)
    (hother : Calm other) : Calm (if c then program else other) :=
  ⟨avoids_ite (fun _ => h.wild) fun _ => hother.wild,
    avoids_ite (fun _ => h.panic) fun _ => hother.panic⟩

theorem calm_for_m {items : List β} {body : β → Call W PUnit} (h : ∀ b, Calm (body b)) :
    Calm (items.forM body) :=
  ⟨avoids_for_m fun b _ => (h b).wild, avoids_for_m fun b _ => (h b).panic⟩

theorem calm_foldl_m {items : List β} {body : α → β → Call W α} {start : α}
    (h : ∀ a b, Calm (body a b)) : Calm (items.foldlM body start) := by
  induction items generalizing start with
  | nil => exact calm_pure start
  | cons b items ih => exact (h start b).bind fun _ => ih

theorem calm_for_pages {first len : UInt32} {body : UInt32 → Call W Unit}
    (h : ∀ page, Calm (body page)) : Calm (forPages first len body) :=
  (calm_for_m h).bind fun _ =>
    calm_ite (calm_throw (by decide) (by decide)) (calm_pure _)

theorem calm_ask (question : W → α × W) : Calm (ask question) :=
  calm_modify_get _

theorem calm_tell (change : W → W) : Calm (tell change) :=
  calm_modify_get _

theorem calm_get : Calm (get : Call W (Vm W)) :=
  calm_modify_get _

theorem calm_the_pager (p : PagerId) : Calm (thePager p : Call W Pager) :=
  calm_get.bind fun _ => calm_pure _

theorem calm_the_region (r : RegionId) : Calm (theRegion r : Call W UserRegion) :=
  calm_get.bind fun _ => calm_pure _

theorem calm_set_pager (p : PagerId) (change : Pager → Pager) :
    Calm (setPager p change : Call W Unit) :=
  calm_modify_get _

theorem calm_pager_unmap (p : PagerId) (offset len : UInt32) :
    Calm (pagerUnmap m p offset len) :=
  (calm_the_pager p).bind fun _ => calm_for_m fun it => (calm_the_region it).bind fun _ =>
    calm_for_pages fun _ => (calm_ask _).bind fun _ => calm_ite (calm_tell _) (calm_pure _)

/-- The assertion of `device_page_release` holds for the offset `0`. -/
theorem calm_change_device_pager (p : PagerId) (newSize newPhysOffset : UInt32) :
    Calm (changeDevicePager m p newSize newPhysOffset) := by
  have hrelease : ∀ size, Calm (devicePageRelease p 0 size : Call W Unit) := fun size =>
    (calm_pure ()).bind fun _ => calm_for_pages fun _ => calm_set_pager p _
  refine (calm_the_pager p).bind fun pg => ?_
  cases pg.ops with
  | swap allowResize => exact calm_pure _
  | vfs node => exact calm_pure _
  | device physOffset =>
      have hlock : Calm (lockPager p : Call W Unit) := (calm_the_pager p).bind fun _ =>
        calm_ite (calm_throw (by decide) (by decide)) (calm_set_pager p _)
      exact hlock.bind fun _ => (calm_the_pager p).bind fun _ =>
        (calm_pager_unmap p _ _).bind fun _ => (hrelease _).bind fun _ =>
          (calm_set_pager p _).bind fun _ => calm_set_pager p _

theorem calm_vesa_clear (d : VesaDriver) : Calm (vesaClear m v d) := by
  unfold vesaClear
  cases d.currentMode.bind fun n => d.modes[n]? with
  | none => exact calm_pure ()
  | some mode =>
      refine (calm_ask _).bind fun region => calm_ite (calm_pure ()) (.bind ?_ fun ok => ?_)
      · exact calm_foldl_m fun ok x => (calm_ask _).bind fun _ => calm_pure _
      have hend : Calm (do
          forPages region (mode.info.pitch * mode.info.width) fun x =>
            tell (m.pdUnmapPage .kernel x)
          tell (m.regionFree region)) :=
        .bind (calm_for_pages fun _ => calm_tell _) fun _ => calm_tell _
      have hpaint : Calm (do
          tell (m.store region (List.replicate (mode.info.pitch * mode.info.width).toNat 255))
          if ← ask m.malloc then tell (v.drawLogo mode.info region)
          forPages region (mode.info.pitch * mode.info.width) fun x =>
            tell (m.pdUnmapPage .kernel x)
          tell (m.regionFree region)) :=
        .bind (calm_tell _) fun _ => (calm_ask _).bind fun _ =>
          calm_ite (.bind (calm_tell _) fun _ => hend) hend
      exact calm_ite (.bind (calm_throw (by decide) (by decide)) fun _ => calm_ite hpaint hend)
        (calm_ite hpaint hend)

/-- `vesa_set_mode` for a mode of the list. -/
theorem calm_vesa_set_mode {d : VesaDriver} {n : Nat} (hn : n < d.modes.length) :
    Calm (vesaSetMode m v d n) := by
  unfold vesaSetMode
  rw [List.getElem?_eq_getElem hn]
  refine (calm_ask _).bind fun begun => calm_ite ?_ (calm_pure _)
  refine (calm_ask _).bind fun ok => (calm_tell _).bind fun _ => calm_ite ?_ (calm_pure _)
  exact (calm_change_device_pager _ _ _).bind fun _ => (calm_vesa_clear _).bind fun _ =>
    calm_pure _

/-- A first part that comes back leaves it to the rest. -/
theorem orderly_bind_of_ok {rest : α → Call W β} {a : α} {mid : Vm W}
    (hrun : program s = .ok (a, mid)) : Orderly (program >>= rest) s ↔ Orderly (rest a) mid := by
  unfold Orderly
  rw [run_bind_of_ok hrun]

/-- A first part that ends the process ends the call. -/
theorem orderly_bind_of_exited {rest : α → Call W β} {status code : Int}
    (hrun : program s = .error (.exited status code)) : Orderly (program >>= rest) s := by
  unfold Orderly
  rw [run_bind_of_error hrun]
  exact ⟨(by simp), by simp⟩

theorem Calm.orderly (h : Calm program) : Orderly program s :=
  ⟨h.wild s, h.panic s⟩

end Orderly

section Ioctl

variable {m v} {s : Vm W} {proc : ProcId} {d : VesaDriver} {data : UInt32} {reads : ModeReads}

/-- The block is probed, and the probe ends the process. -/
def ProbeRefuses (need : UInt16) (s : Vm W) (proc : ProcId) (data len : UInt32) : Prop :=
  data < kHighhalfAddr ∧ ∀ r, s.lookup proc data = some r → (s.region r).mode &&& need ≠ 0 →
    (s.region r).addr + (s.region r).size < data + len

/-- A probe either ends the process or changes nothing. -/
theorem probe_below_kernel_cases (h : Indexed s proc) (need : UInt16) (data len : UInt32) :
    (ProbeRefuses need s proc data len ∧
        probeBelowKernel need proc data len s = .error (.exited psFailure failScSegfault)) ∨
      (¬ ProbeRefuses need s proc data len ∧ probeBelowKernel need proc data len s = .ok ((), s)) := by
  unfold ProbeRefuses probeBelowKernel
  by_cases hlow : data < kHighhalfAddr
  · simp only [if_pos hlow, probe, run_bind, find_user_region_indexed h, hlow, true_and]
    cases s.lookup proc data with
    | none => simp [run_throw]
    | some r =>
        simp only [run_bind, run_the_region, run_ite, run_throw, run_pure, Option.some.injEq,
          forall_eq', Bool.or_eq_true, decide_eq_true_eq, beq_iff_eq]
        by_cases hmode : (s.region r).mode &&& need = 0
        · simp [hmode]
        · by_cases hpast : data + len > (s.region r).addr + (s.region r).size
          · simp [hpast]
          · simp [hpast, hmode]
  · right
    rw [if_neg hlow]
    exact ⟨fun h => hlow h.1, rfl⟩

/-- A call that probes its block is orderly when the probe ends the process, or the rest is. -/
theorem orderly_probe_iff {α : Type} {need : UInt16} {len : UInt32} {rest : Unit → Call W α}
    (h : Indexed s proc) : Orderly (probeBelowKernel need proc data len >>= rest) s ↔
      ProbeRefuses need s proc data len ∨ Orderly (rest ()) s := by
  obtain ⟨hrefuses, hrun⟩ | ⟨hpasses, hrun⟩ := probe_below_kernel_cases h need data len
  · simp only [hrefuses, true_or, iff_true]
    exact orderly_bind_of_exited hrun
  · simp only [hpasses, false_or]
    exact orderly_bind_of_ok hrun

/-- The number is in the table. -/
def VesaDriver.InTable (d : VesaDriver) (n : Int) : Prop :=
  0 ≤ n ∧ n < d.modes.length

/-- What another thread must not do to the block while `vesa_ioctl` runs: where the range check
passed, the index that is read after it is in the table. -/
def IndexKept (s : Vm W) (proc : ProcId) (d : VesaDriver) (command : Int) (data : UInt32)
    (reads : ModeReads) : Prop :=
  ∀ need, command = ioctlFbdevGetModeInfo ∧ need = mmWrite ∨
      command = ioctlFbdevSetMode ∧ need = mmRead →
    ProbeRefuses need s proc data fbdevModeInfoSize ∨
      (d.checks reads = true → d.InTable reads.index)

theorem mode_at_eq_none_iff (d : VesaDriver) (n : Int) : d.modeAt n = none ↔ ¬ d.InTable n := by
  unfold VesaDriver.modeAt VesaDriver.InTable
  split
  · next hneg => simp [Int.not_le.mpr hneg]
  · next hnonneg =>
      rw [List.getElem?_eq_none_iff]
      omega

/-- `IOCTL_FBDEV_GET_MODE_INFO` behind the probe. -/
theorem orderly_get_mode_iff : Orderly (W := W) (if d.checks reads then
      match d.modeAt reads.index with
      | none => throw .wild
      | some _ => return ((1 : Int), d)
    else return (0, d)) s ↔ (d.checks reads = true → d.InTable reads.index) := by
  cases hchecks : d.checks reads with
  | false => simpa using (calm_pure _).orderly
  | true =>
      simp only [if_true, true_implies]
      cases hmode : d.modeAt reads.index with
      | none =>
          simp only [(mode_at_eq_none_iff d _).mp hmode, iff_false]
          exact fun h => h.1 rfl
      | some mode =>
          have hin : d.InTable reads.index := by
            by_contra hout
            rw [(mode_at_eq_none_iff d _).mpr hout] at hmode
            cases hmode
          simp only [hin, iff_true]
          exact (calm_pure _).orderly

/-- `IOCTL_FBDEV_SET_MODE` behind the probe. -/
theorem orderly_set_mode_iff : Orderly (W := W) (if d.checks reads then do
      let (ok, d) ← vesaSetModeNumber m v d reads.index
      return ((if ok then 1 else 0 : Int), d)
    else return (0, d)) s ↔ (d.checks reads = true → d.InTable reads.index) := by
  cases hchecks : d.checks reads with
  | false => simpa using (calm_pure _).orderly
  | true =>
      simp only [if_true, true_implies]
      by_cases hin : d.InTable reads.index
      · simp only [hin, iff_true]
        have hset : Calm (vesaSetModeNumber m v d reads.index) := by
          unfold vesaSetModeNumber
          rw [if_neg (Int.not_lt.mpr hin.1)]
          exact calm_vesa_set_mode (by have := hin.2; have := hin.1; omega)
        exact (hset.bind fun _ => calm_pure _).orderly
      · simp only [hin, iff_false]
        have hpanic : vesaSetModeNumber m v d reads.index s = .error .panic := by
          unfold vesaSetModeNumber
          split
          · rfl
          · next hnonneg =>
              have hnone : d.modes[reads.index.toNat]? = none := by
                rw [List.getElem?_eq_none_iff]
                unfold VesaDriver.InTable at hin
                omega
              unfold vesaSetMode
              rw [hnone]
              rfl
        exact fun h => h.2 (run_bind_of_error hpanic)

/-- For all values that the reads of the block give: `vesa_ioctl` stays inside the table and fails
no assertion just when the index was not changed after the check in a way that matters. -/
theorem vesa_ioctl_iff (h : Indexed s proc)
    (hcurrent : ∀ n, d.currentMode = some n → n < d.modes.length) (command : Int) :
    Orderly (vesaIoctl m v proc d command data reads) s ↔
      IndexKept s proc d command data reads := by
  unfold vesaIoctl IndexKept
  by_cases hget : command = ioctlFbdevGetModeInfo
  · rw [if_pos hget, orderly_probe_iff h, orderly_get_mode_iff]
    have hne : command ≠ ioctlFbdevSetMode := by
      rw [hget]
      decide
    exact ⟨fun hkept need hneed => by
        obtain ⟨-, rfl⟩ | ⟨hset, -⟩ := hneed
        · exact hkept
        · exact absurd hset hne,
      fun hkept => hkept _ (.inl ⟨hget, rfl⟩)⟩
  · rw [if_neg hget]
    by_cases hset : command = ioctlFbdevSetMode
    · rw [if_pos hset, orderly_probe_iff h, orderly_set_mode_iff]
      exact ⟨fun hkept need hneed => by
          obtain ⟨heq, -⟩ | ⟨-, rfl⟩ := hneed
          · exact absurd heq hget
          · exact hkept,
        fun hkept => hkept _ (.inr ⟨hset, rfl⟩)⟩
    · rw [if_neg hset]
      simp only [hget, hset, false_and, or_self, false_implies, implies_true, iff_true]
      by_cases hinfo : command = ioctlFbGetInfo
      · rw [if_pos hinfo]
        cases hmode : d.currentMode with
        | none => exact (calm_pure _).orderly
        | some n =>
            refine (orderly_probe_iff h).mpr (.inr ?_)
            rw [List.getElem?_eq_getElem (hcurrent n hmode)]
            exact (calm_pure _).orderly
      · rw [if_neg hinfo]
        exact (calm_pure _).orderly

/-- The current mode stays one of the list, whatever the reads give. -/
theorem vesa_ioctl_current (h : d.Current) (command : Int) :
    Ensures (vesaIoctl m v proc d command data reads) s fun r _ => r.2.Current := by
  have hsame : ∀ {t : Vm W} {n : Int}, Ensures (return (n, d) : Call W (Int × VesaDriver)) t
      fun r _ => r.2.Current := ensures_pure h
  unfold vesaIoctl
  refine ensures_ite (fun _ => ?_) fun _ => ensures_ite (fun _ => ?_) fun _ =>
    ensures_ite (fun _ => ?_) fun _ => hsame
  · refine ensures_behind fun _ _ => ensures_ite (fun _ => ?_) fun _ => hsame
    split
    · exact ensures_throw _
    · exact hsame
  · refine ensures_behind fun _ t => ensures_ite (fun _ => ?_) fun _ => hsame
    have hset : Ensures (vesaSetModeNumber m v d reads.index) t fun r _ => r.2.Current :=
      ensures_ite (fun _ => ensures_throw _) fun _ => vesa_set_mode_current h _
    exact hset.bind fun r _ hr => ensures_pure hr
  · split
    · exact hsame
    · refine ensures_behind fun _ _ => ?_
      split
      · exact ensures_throw _
      · exact hsame

end Ioctl

/-- For all values that the reads of the user's blocks give: `make_channel_sc` keeps the references
of every handle exact just when `PairKept` holds of the reads, and `vesa_ioctl` stays inside the
mode table and fails no assertion just when `IndexKept` does. -/
theorem user_reads_iff {fds : Descriptors} (hfds : fds.Sound) (made addedA addedB : Bool)
    (pair : FdPairReads) {s : Vm W} {proc : ProcId} (hs : Indexed s proc) {d : VesaDriver}
    (hcurrent : ∀ n, d.currentMode = some n → n < d.modes.length) (command : Int)
    (data : UInt32) (reads : ModeReads) :
    (MakesChannelExactly made addedA addedB pair fds ↔
        (made = true → PairKept (fds.files.isSome && addedA) (fds.files.isSome && addedB) pair)) ∧
      (Orderly (vesaIoctl m v proc d command data reads) s ↔
        IndexKept s proc d command data reads) :=
  ⟨make_channel_sc_iff hfds made addedA addedB pair, vesa_ioctl_iff hs hcurrent command⟩

/-- A process with an empty descriptor table. -/
def Descriptors.blank : Descriptors where
  refs := fun _ => none
  files := some []
  nextFd := 1
  nextHandle := 0

theorem blank_sound : Descriptors.blank.Sound where
  live := fun _ h => by cases h
  keys := List.nodup_nil
  covered := fun _ => Int.le_refl 0
  fresh := fun _ h => by cases h
  positive := Int.one_pos
  handles := fun _ h => absurd rfl h

/-- A driver with one mode, which is not set. -/
def VesaDriver.oneMode : VesaDriver where
  modes := [{ info := { width := 800, height := 600, pitch := 3200, bpp := 32, memoryModel := 7 }
              vesaModeId := 0x115
              physFbAddr := 0xE0000000 }]
  currentMode := none
  pager := 0

/-- Reads that give what the code has written there, and an index that stays in the table. -/
theorem user_reads_iff_kept :
    MakesChannelExactly true true true ⟨1, 2, 1, 1, 2, 2⟩ Descriptors.blank ∧ ∃ s : Vm Unit,
      RegionCall.perform Machine.steady 0 (.mmap 0x1000 0x1000 3) Vm.blank = .ok (true, s) ∧
      Orderly (vesaIoctl Machine.steady V86.oneMode 0 VesaDriver.oneMode ioctlFbdevSetMode 0x1000
        ⟨0, 0, 0⟩) s := by
  obtain ⟨s, hrun⟩ : ∃ s : Vm Unit, RegionCall.perform Machine.steady 0
    (.mmap 0x1000 0x1000 3) Vm.blank = .ok (true, s) := ⟨_, rfl⟩
  have hreach : Reachable (regionRuns Machine.steady 0 fun _ _ => True) s :=
    .step (.init (s := Vm.blank) rfl) ⟨_, true, trivial, hrun⟩
  obtain ⟨hpair, hindex⟩ := user_reads_iff Machine.steady V86.oneMode blank_sound true true true
    ⟨1, 2, 1, 1, 2, 2⟩ (indexed_of_reachable hreach) (d := .oneMode) (fun _ h => by cases h)
    ioctlFbdevSetMode 0x1000 ⟨0, 0, 0⟩
  exact ⟨hpair.mpr fun _ => ⟨by decide, by decide⟩, s, hrun,
    hindex.mpr fun _ _ => .inr fun _ => ⟨Int.le_refl 0, by decide⟩⟩

/-- Another thread clears the pair once both descriptors are in it, and `make_channel_sc` frees
two handles that have a descriptor; or it changes the mode number after the check, and
`vesa_ioctl` reads behind the table, or fails its assertion. -/
theorem user_reads_changed :
    ¬ MakesChannelExactly true true true ⟨1, 0, 0, 0, 0, 0⟩ Descriptors.blank ∧
      ∃ s, Reachable (regionRuns Machine.steady 0 fun _ _ => True) s ∧
        ¬ Orderly (vesaIoctl Machine.steady V86.oneMode 0 VesaDriver.oneMode
          ioctlFbdevGetModeInfo 0x1000 ⟨0, 0, 7⟩) s ∧
        ¬ Orderly (vesaIoctl Machine.steady V86.oneMode 0 VesaDriver.oneMode
          ioctlFbdevSetMode 0x1000 ⟨0, 0, -1⟩) s := by
  refine ⟨fun ⟨r, s', hrun, hexact⟩ => ?_, ?_⟩
  · have hblank : RefsExact Descriptors.blank 0 := rfl
    cases hrun
    exact absurd (hexact 0 hblank) (by unfold RefsExact; decide)
  · obtain ⟨s, hrun, hget, hset⟩ : ∃ s : Vm Unit,
        RegionCall.perform Machine.steady 0 (.mmap 0x1000 0x1000 3) Vm.blank = .ok (true, s) ∧
        vesaIoctl Machine.steady V86.oneMode 0 VesaDriver.oneMode ioctlFbdevGetModeInfo 0x1000
          ⟨0, 0, 7⟩ s = .error .wild ∧
        vesaIoctl Machine.steady V86.oneMode 0 VesaDriver.oneMode ioctlFbdevSetMode 0x1000
          ⟨0, 0, -1⟩ s = .error .panic := ⟨_, rfl, rfl, rfl⟩
    exact ⟨s, .step (.init (s := Vm.blank) rfl) ⟨_, true, trivial, hrun⟩,
      fun h => h.1 hget, fun h => h.2 hset⟩

end Kogata.Kernel
