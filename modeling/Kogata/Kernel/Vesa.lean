import Kogata.Kernel.PagerFrame

/-!
# The VESA framebuffer driver

`kernel/dev/vesa.c`: the modes that `vesa_detect` collects, and the device pager that
`vesa_set_mode` resizes to a mode's framebuffer. The BIOS behind `v86.c` is a parameter, as is
what the logo paints into the framebuffer.
-/

namespace Kogata.Kernel

open Lib.Effect

variable {W : Type}

/-- `fb_info_t`. All fields are made from words of 8 or 16 bits, so none is negative. -/
structure FbInfo where
  width : UInt32
  height : UInt32
  pitch : UInt32
  bpp : UInt32
  memoryModel : UInt32
  deriving DecidableEq

/-- `vesa_mode_t`. -/
structure VesaMode where
  info : FbInfo
  vesaModeId : UInt16
  physFbAddr : UInt32
  deriving DecidableEq

/-- `vesa_driver_t`; `none` stands for the mode `-1`. -/
structure VesaDriver where
  modes : List VesaMode
  currentMode : Option Nat
  pager : PagerId
  deriving DecidableEq

/-- The fields of `vbe_mode_info_block_t` that `vesa_detect` reads. -/
structure VbeModeInfo where
  attributes : UInt16
  pitch : UInt16
  xres : UInt16
  yres : UInt16
  bpp : UInt8
  memoryModel : UInt8
  redMaskSz : UInt8
  redPosition : UInt8
  greenMaskSz : UInt8
  greenPosition : UInt8
  blueMaskSz : UInt8
  bluePosition : UInt8
  physbase : UInt32
  deriving DecidableEq

/-- `struct fb_memory_model`. -/
structure FbMemoryModel where
  bpp : UInt8
  rp : UInt8
  gp : UInt8
  bp : UInt8
  rs : UInt8
  gs : UInt8
  bs : UInt8
  mm : UInt32

/-- `fb_memory_models`. -/
def fbMemoryModels : List FbMemoryModel :=
  [⟨15, 10, 5, 0, 5, 5, 5, 1⟩, ⟨15, 0, 5, 10, 5, 5, 5, 2⟩,
    ⟨16, 10, 5, 0, 5, 5, 5, 3⟩, ⟨16, 0, 5, 10, 5, 5, 5, 4⟩,
    ⟨24, 16, 8, 0, 8, 8, 8, 5⟩, ⟨24, 0, 8, 16, 8, 8, 8, 6⟩,
    ⟨32, 16, 8, 0, 8, 8, 8, 7⟩, ⟨32, 0, 8, 16, 8, 8, 8, 8⟩]

/-- The BIOS and the rest of the kernel that the driver calls. A question to the BIOS is
answered when `v86_bios_int` succeeds and leaves `0x4F` in `ax`. -/
structure V86 (W : Type) where
  beginSession : W → Bool × W
  endSession : W → W
  /-- `int 0x10` with `ax = 0x4F00`: the mode numbers before the `0xFFFF` of the list. -/
  videoModes : W → Option (List UInt16) × W
  /-- `int 0x10` with `ax = 0x4F01`. -/
  modeInfo : UInt16 → W → Option VbeModeInfo × W
  /-- `int 0x10` with `ax = 0x4F02`. -/
  setMode : UInt16 → W → Bool × W
  nullfsAddNode : W → Bool × W
  /-- The logo, decoded in a block and copied to the middle of the framebuffer. -/
  drawLogo : FbInfo → UInt32 → W → W

/-- The memory model of a mode: the last entry of `fb_memory_models` that agrees, or `0`. -/
def memoryModelOf (mi : VbeModeInfo) : UInt32 :=
  fbMemoryModels.foldl (fun found m =>
    if mi.bpp = m.bpp ∧ mi.redMaskSz = m.rs ∧ mi.redPosition = m.rp ∧
        mi.greenMaskSz = m.gs ∧ mi.greenPosition = m.gp ∧
        mi.blueMaskSz = m.bs ∧ mi.bluePosition = m.bp then m.mm
    else found) 0

/-- What `vesa_detect` keeps of one mode: nothing without a linear framebuffer, without direct
colours, or in a pixel format that it does not know. -/
def vesaModeOf (id : UInt16) (mi : VbeModeInfo) : Option VesaMode :=
  if mi.attributes &&& 0x90 ≠ 0x90 then none
  else if mi.memoryModel ≠ 6 then none
  else if memoryModelOf mi = 0 then none
  else some
    { info := { width := mi.xres.toUInt32, height := mi.yres.toUInt32
                pitch := mi.pitch.toUInt32, bpp := mi.bpp.toUInt32
                memoryModel := memoryModelOf mi }
      vesaModeId := id
      physFbAddr := mi.physbase }

variable (m : Machine W) (v : V86 W)

/-- The loop of `vesa_detect` over the mode numbers. -/
def collectModes : List UInt16 → Call W (List VesaMode)
  | [] => return []
  | id :: rest => do
      let mode := (← ask (v.modeInfo id)).bind (vesaModeOf id)
      return mode.toList ++ (← collectModes rest)

/-- `vesa_detect` up to the call of `vesa_init_driver`: `mode_data`, or `none` where that is
null. -/
def vesaDetect : Call W (Option (List VesaMode)) := do
  if ← ask v.beginSession then
    let modeData ← (do
      match ← ask v.videoModes with
      | none | some [] => return none
      | some modes =>
          if ← ask m.malloc then return some (← collectModes v modes)
          else return none)
    tell v.endSession
    return modeData
  else return none

/-- `vesa_clear`. -/
def vesaClear (d : VesaDriver) : Call W Unit := do
  match d.currentMode.bind fun n => d.modes[n]? with
  | none => return ()
  | some mode => do
      let fbSize := mode.info.pitch * mode.info.width
      let region ← ask (m.regionAlloc fbSize)
      if region = 0 then return ()
      else
        let ok ← (pagesOf region fbSize).foldlM (fun ok x => do
          let mapped ← ask (m.pdMapPage .kernel x
            ((mode.physFbAddr + (x - region)) / pageSize) true)
          return ok && mapped) true
        if pagesWrap region fbSize then throw .diverge
        if ok then
          tell (m.store region (List.replicate fbSize.toNat 255))
          if ← ask m.malloc then tell (v.drawLogo mode.info region)
        forPages region fbSize fun x => tell (m.pdUnmapPage .kernel x)
        tell (m.regionFree region)

/-- `vesa_set_mode` for a mode of the list: whether it was set, and the driver. -/
def vesaSetMode (d : VesaDriver) (n : Nat) : Call W (Bool × VesaDriver) := do
  match d.modes[n]? with
  | none => throw .panic
  | some mode => do
      if ← ask v.beginSession then
        let ok ← ask (v.setMode mode.vesaModeId)
        tell v.endSession
        if ok then
          let fbSize := mode.info.pitch * mode.info.width
          let d := { d with currentMode := some n }
          changeDevicePager m d.pager fbSize mode.physFbAddr
          vesaClear m v d
          return (true, d)
        else return (false, d)
      else return (false, d)

/-- The loop of `vesa_init_driver` that sets the first mode it can. -/
def setFirstMode (d : VesaDriver) : List Nat → Call W VesaDriver
  | [] => return d
  | i :: rest => do
      if d.modes[i]?.any fun mode => mode.info.bpp == 32 && mode.info.width == 800 then
        let (ok, d) ← vesaSetMode m v d i
        if ok then return d else setFirstMode d rest
      else setFirstMode d rest

/-- `vesa_init_driver`. -/
def vesaInitDriver (modes : List VesaMode) : Call W (Option VesaDriver) := do
  if ← ask m.malloc then
    match ← newDevicePager m 0 0 with
    | none => return none
    | some p =>
        if ← ask v.nullfsAddNode then
          return some (← setFirstMode m v { modes := modes, currentMode := none, pager := p }
            (List.range modes.length))
        else
          deletePager m p
          return none
  else return none

/-- What is kept of a mode is the mode's own resolution and pitch, and these are words of 16
bits. -/
theorem vesa_mode_of_spec {id : UInt16} {mi : VbeModeInfo} {mode : VesaMode}
    (h : vesaModeOf id mi = some mode) :
    mode.info.width.toNat < 2 ^ 16 ∧ mode.info.height.toNat < 2 ^ 16 ∧
      mode.info.pitch.toNat < 2 ^ 16 := by
  unfold vesaModeOf at h
  split at h
  · cases h
  · split at h
    · cases h
    · split at h
      · cases h
      · cases h
        exact ⟨mi.xres.toNat_lt, mi.yres.toNat_lt, mi.pitch.toNat_lt⟩

/-- The modes that the loop collects come from what the BIOS says of one number each. -/
theorem mem_collect_modes {v : V86 W} {ids : List UInt16} {s s' : Vm W} {modes : List VesaMode}
    (h : collectModes v ids s = .ok (modes, s')) :
    ∀ mode ∈ modes, ∃ id mi, vesaModeOf id mi = some mode := by
  induction ids generalizing s modes with
  | nil =>
      cases h
      simp
  | cons id rest ih =>
      obtain ⟨answer, mid, hask, h⟩ := run_bind_eq_ok h
      obtain ⟨others, last, hrest, h⟩ := run_bind_eq_ok h
      cases h
      intro mode hmode
      rcases List.mem_append.mp hmode with hfirst | hother
      · obtain ⟨mi, -, hmi⟩ := Option.bind_eq_some_iff.mp (Option.mem_toList.mp hfirst)
        exact ⟨id, mi, hmi⟩
      · exact ih hrest mode hother

/-- The same for the list that `vesa_detect` passes on. -/
theorem mem_vesa_detect {m : Machine W} {v : V86 W} {s s' : Vm W} {modes : List VesaMode}
    (h : vesaDetect m v s = .ok (some modes, s')) :
    ∀ mode ∈ modes, ∃ id mi, vesaModeOf id mi = some mode := by
  obtain ⟨begun, s1, -, h⟩ := run_bind_eq_ok h
  rw [run_ite] at h
  split at h
  · obtain ⟨modeData, s2, hdata, h⟩ := run_bind_eq_ok h
    cases h
    obtain ⟨answer, s3, -, hdata⟩ := run_bind_eq_ok hdata
    cases answer with
    | none => cases hdata
    | some ids =>
        cases ids with
        | nil => cases hdata
        | cons id rest =>
            obtain ⟨allocated, s4, -, hdata⟩ := run_bind_eq_ok hdata
            rw [run_ite] at hdata
            split at hdata
            · obtain ⟨found, s5, hcollect, hdata⟩ := run_bind_eq_ok hdata
              cases hdata
              exact mem_collect_modes hcollect
            · cases hdata
  · cases h

/-- Painting the framebuffer touches no pager. -/
theorem inner_vesa_clear (q : PagerId) (d : VesaDriver) : Inner q (vesaClear m v d) := by
  unfold vesaClear
  cases d.currentMode.bind fun n => d.modes[n]? with
  | none => exact inner_pure ()
  | some mode =>
      refine (inner_ask _).bind fun region => inner_ite (inner_pure ()) (.bind ?_ fun ok => ?_)
      · exact inner_foldl_m fun ok x => (inner_ask _).bind fun _ => inner_pure _
      have hend : Inner q (do
          forPages region (mode.info.pitch * mode.info.width) fun x =>
            tell (m.pdUnmapPage .kernel x)
          tell (m.regionFree region)) :=
        .bind (inner_for_pages fun _ => inner_tell _) fun _ => inner_tell _
      refine inner_ite (.bind (inner_throw (by decide)) fun _ => ?_) (inner_ite ?_ hend)
      · exact inner_ite (.bind (inner_tell _) fun _ => (inner_ask _).bind fun _ =>
          inner_ite (.bind (inner_tell _) fun _ => hend) hend) hend
      · exact .bind (inner_tell _) fun _ => (inner_ask _).bind fun _ =>
          inner_ite (.bind (inner_tell _) fun _ => hend) hend

section Current

variable {m v} {d : VesaDriver} {s : Vm W}

/-- The current mode is one of the list. -/
def VesaDriver.Current (d : VesaDriver) : Prop :=
  ∀ n, d.currentMode = some n → n < d.modes.length

theorem vesa_set_mode_current (h : d.Current) (n : Nat) :
    Ensures (vesaSetMode m v d n) s fun r _ => r.2.Current := by
  unfold vesaSetMode
  cases hmode : d.modes[n]? with
  | none => exact ensures_throw _
  | some mode =>
      have hset : ({ d with currentMode := some n } : VesaDriver).Current := fun k hk =>
        Option.some.inj hk ▸ (List.getElem?_eq_some_iff.mp hmode).1
      refine ensures_behind fun _ _ => ensures_ite (fun _ => ?_) fun _ => ensures_pure h
      refine ensures_behind fun _ _ => ensures_behind fun _ _ => ensures_ite (fun _ => ?_)
        fun _ => ensures_pure h
      exact ensures_behind fun _ _ => ensures_behind fun _ _ => ensures_pure hset

theorem set_first_mode_current (h : d.Current) (numbers : List Nat) :
    Ensures (setFirstMode m v d numbers) s fun r _ => r.Current := by
  induction numbers generalizing d s with
  | nil => exact ensures_pure h
  | cons i rest ih =>
      unfold setFirstMode
      refine ensures_ite (fun _ => ?_) fun _ => ih h
      exact (vesa_set_mode_current h i).bind fun r _ hr =>
        ensures_ite (fun _ => ensures_pure hr) fun _ => ih hr

/-- The current mode of the driver that `vesa_init_driver` makes is one of its list. -/
theorem vesa_init_driver_current (modes : List VesaMode) :
    Ensures (vesaInitDriver m v modes) s fun r _ => ∀ d, r = some d → d.Current := by
  have hnone : ∀ {t : Vm W}, Ensures (return none : Call W (Option VesaDriver)) t fun r _ =>
      ∀ d, r = some d → d.Current := ensures_pure fun d hd => by cases hd
  refine ensures_behind fun _ _ => ensures_ite (fun _ => ?_) fun _ => hnone
  refine ensures_behind fun pager _ => ?_
  cases pager with
  | none => exact hnone
  | some p =>
      refine ensures_behind fun _ _ => ensures_ite (fun _ => ?_) fun _ =>
        ensures_behind fun _ _ => hnone
      refine (set_first_mode_current (fun n hn => by cases hn) _).bind fun d _ hd => ?_
      exact ensures_pure fun d' hd' => Option.some.inj hd' ▸ hd

end Current

end Kogata.Kernel
