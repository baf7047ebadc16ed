import Kogata.Kernel.Pager

/-!
# User memory regions

The memory half of `kernel/user/process.c`: the user regions of a process, kept in a list and
in an ordered index by start address, the calls that change them, the page-fault handler, and
the probes by which system calls check a buffer.
-/

namespace Kogata.Kernel

open Kogata.Common

/-- `PS_FAILURE`. -/
abbrev psFailure : Int := 4
/-- `FAIL_ZEROPTR`. -/
abbrev failZeroptr : Int := 2
/-- `FAIL_SEGFAULT`. -/
abbrev failSegfault : Int := 3
/-- `FAIL_SC_SEGFAULT`. -/
abbrev failScSegfault : Int := 4

variable {W : Type}

/-- `mutex_lock(&proc->lock)`. -/
def lockProc (proc : ProcId) : Call W Unit := do
  if (← theProc proc).lock then throw .deadlock
  else setProc proc fun p => { p with lock := true }

/-- `mutex_unlock(&proc->lock)`. -/
def unlockProc (proc : ProcId) : Call W Unit :=
  setProc proc fun p => { p with lock := false }

/-- `find_user_region`. -/
def findUserRegion (proc : ProcId) (addr : UInt32) : Call W (Option RegionId) := do
  lockProc proc
  let found := ((← theProc proc).regionsIdx.bind fun idx => idx.lower addr).map Prod.snd
  let ret ← (match found with
    | none => return none
    | some r => do
        let reg ← theRegion r
        assert (addr ≥ reg.addr)
        return if addr ≥ reg.addr + reg.size then none else some r)
  unlockProc proc
  return ret

/-- The test that `mmap` and `mmap_file` share: the range is empty, wraps around, or is not
below the kernel half. -/
def badRange (addr size : UInt32) : Bool :=
  addr ≥ kHighhalfAddr || addr + size > kHighhalfAddr || addr + size ≤ addr || size == 0

variable (m : Machine W)

/-- The label `error` of `mmap`: give back the pager, if there is one, and the region. -/
def mmapError (proc : ProcId) (pager : Option PagerId) : Call W Bool := do
  match pager with
  | none => pure ()
  | some p => deletePager m p
  unlockProc proc
  return false

/-- Put the region into the index `idx`, which has it already, and into the list. -/
def linkRegion (proc : ProcId) (idx : Btree idKeyCmpFun RegionId) (r : RegionId) :
    Call W Unit :=
  setProc proc fun p => { p with regionsIdx := some idx, regions := r :: p.regions }

/-- `mmap` from `mutex_lock` on, with the block that `malloc` returned. When the process has
already lost its index, the pager that the error path deletes is the stale one of the block. -/
def mmapLocked (proc : ProcId) (addr size mode : UInt32) (stale : UserRegion) :
    Call W Bool := do
  lockProc proc
  match (← theProc proc).regionsIdx with
  | none => mmapError m proc stale.pager
  | some idx => do
      match ← newSwapPager m size false with
      | none => mmapError m proc none
      | some p => do
          let allocated ← ask m.malloc
          let r ← fresh
          match idx.add allocated addr r with
          | none => mmapError m proc (some p)
          | some idx => do
              setRegion r fun _ => { stale with
                proc := proc, addr := addr, size := size, ownPager := true
                pager := some p, offset := 0, mode := mode.toUInt16, file := none }
              linkRegion proc idx r
              pagerAddMap p r
              unlockProc proc
              return true

/-- `mmap`. -/
def mmap (proc : ProcId) (addr size mode : UInt32) : Call W Bool := do
  if (← findUserRegion proc addr) ≠ none then return false
  else if !pageAligned addr then return false
  else if badRange addr size then return false
  else
    match ← ask m.mallocRegion with
    | none => return false
    | some stale => mmapLocked m proc addr size mode stale

/-- The tests of the handle's mode in `mmap_file`. -/
def modeRefused (h : FsHandle) (mode : UInt32) : Bool :=
  h.mode &&& fmMmap == 0 || h.mode &&& fmRead == 0 ||
    (mode.toUInt16 &&& mmWrite != 0 && h.mode &&& fmWrite == 0)

/-- `mmap_file` from `mutex_lock` on. The region keeps the stale `proc` of its block. -/
def mmapFileLocked (proc : ProcId) (h : FsHandle) (p : PagerId) (offset addr size mode : UInt32)
    (stale : UserRegion) : Call W Bool := do
  lockProc proc
  match (← theProc proc).regionsIdx with
  | none =>
      unlockProc proc
      return false
  | some idx => do
      let allocated ← ask m.malloc
      let r ← fresh
      match idx.add allocated addr r with
      | none =>
          unlockProc proc
          return false
      | some idx => do
          tell (m.refFile h.id)
          setRegion r fun _ => { stale with
            addr := addr, size := size, file := some h, mode := mode.toUInt16
            offset := offset, pager := some p, ownPager := false }
          pagerAddMap p r
          linkRegion proc idx r
          unlockProc proc
          return true

/-- `mmap_file`. -/
def mmapFile (proc : ProcId) (h : FsHandle) (offset addr size mode : UInt32) :
    Call W Bool := do
  if (← findUserRegion proc addr) ≠ none then return false
  else if !pageAligned addr then return false
  else if !pageAligned offset then return false
  else if modeRefused h mode then return false
  else
    match h.pager with
    | none => throw .panic
    | some p =>
        if badRange addr size then return false
        else
          match ← ask m.mallocRegion with
          | none => return false
          | some stale => mmapFileLocked m proc h p offset addr size mode stale

/-- `mchmap`. -/
def mchmap (proc : ProcId) (addr : UInt32) (mode : UInt32) : Call W Bool := do
  match ← findUserRegion proc addr with
  | none => return false
  | some r => do
      let reg ← theRegion r
      if reg.file.any fun h => mode.toUInt16 &&& mmWrite != 0 && h.mode &&& fmWrite == 0 then
        return false
      else
        lockProc proc
        setRegion r fun reg => { reg with mode := mode.toUInt16 }
        forPages reg.addr reg.size fun it => do
          let ent ← ask (m.pdGetEntry (.user proc) it)
          if ent &&& ptePresent ≠ 0 then
            let canW : Bool := ent &&& pteRw != 0
            let shouldW : Bool := mode.toUInt16 &&& mmWrite != 0
            if canW ≠ shouldW then
              let _ ← ask (m.pdMapPage (.user proc) it (ent >>> entFrameShift) shouldW)
        unlockProc proc
        return true

/-- A use of `r->pager`. -/
def regionPager (reg : UserRegion) : Call W PagerId :=
  match reg.pager with
  | none => throw .wild
  | some p => return p

/-- The first half of `munmap_inner`: out of the list and the index. It is only called while
the process has its index. -/
def unlinkRegion (proc : ProcId) (r : RegionId) (reg : UserRegion) : Call W Unit := do
  match (← theProc proc).regionsIdx with
  | none => throw .wild
  | some idx =>
      setProc proc fun p =>
        { p with regions := p.regions.erase r, regionsIdx := some (idx.removeV reg.addr r).1 }

/-- The second half of `munmap_inner`: unmap the pages, leave the pager and drop the file. -/
def releaseRegion (proc : ProcId) (r : RegionId) (reg : UserRegion) : Call W Unit := do
  let pager ← regionPager reg
  forPages reg.addr reg.size fun it => do
    let ent ← ask (m.pdGetEntry (.user proc) it)
    if ent &&& ptePresent ≠ 0 then
      pagerAccess pager (it - reg.addr + reg.offset) pageSize
        (ent &&& pteAccessed != 0) (ent &&& pteDirty != 0)
      tell (m.pdUnmapPage (.user proc) it)
  pagerRmMap pager r
  match reg.file with
  | none => pure ()
  | some h => tell (m.unrefFile h.id)
  if reg.ownPager then deletePager m pager

/-- `munmap_inner`. -/
def munmapInner (proc : ProcId) (r : RegionId) : Call W Unit := do
  let reg ← theRegion r
  unlinkRegion proc r reg
  releaseRegion m proc r reg

/-- `munmap`. -/
def munmap (proc : ProcId) (addr : UInt32) : Call W Bool := do
  match ← findUserRegion proc addr with
  | none => return false
  | some r => do
      lockProc proc
      munmapInner m proc r
      unlockProc proc
      return true

/-- `current_process_exit` from the page-fault handler. -/
def segfault {α : Type} (addr : UInt32) : Call W α :=
  throw (.exited psFailure (if addr < pageSize then failZeroptr else failSegfault))

/-- The loop of `proc_usermem_pf` that asks the pager for the frame, at most `tries` times. -/
def frameLoop (pager : PagerId) (offset : UInt32) : Nat → Call W UInt32
  | 0 => throw .diverge
  | tries + 1 => do
      let frame ← pagerGetFrame m pager offset
      if frame = 0 then
        tell m.freeSomeMemory
        frameLoop pager offset tries
      else return frame

/-- The loop of `proc_usermem_pf` that maps the frame, at most `tries` times. -/
def mapLoop (proc : ProcId) (addr frame : UInt32) (rw : Bool) : Nat → Call W Unit
  | 0 => throw .diverge
  | tries + 1 => do
      if ← ask (m.pdMapPage (.user proc) addr frame rw) then return ()
      else
        tell m.freeSomeMemory
        mapLoop proc addr frame rw tries

/-- The offset into its pager of the page that a fault asks a region for. -/
def faultOffset (reg : UserRegion) (addr : UInt32) : UInt32 :=
  (addr &&& pageMask) - reg.addr + reg.offset

/-- `proc_usermem_pf`, with the two bits of the error code that it reads. The result is the
frame that `pager_get_frame` gave. -/
def procUsermemPf (tries : Nat) (proc : ProcId) (present write : Bool) (addr : UInt32) :
    Call W UInt32 := do
  match ← findUserRegion proc addr with
  | none => segfault addr
  | some r => do
      let reg ← theRegion r
      let canW : Bool := reg.mode &&& mmWrite != 0
      if write && !canW then segfault addr
      else if present then throw .panic
      else
        let pager ← regionPager reg
        let frame ← frameLoop m pager (faultOffset reg addr) tries
        mapLoop m proc (addr &&& pageMask) frame canW tries
        return frame

/-- `probe_for_read` (with `MM_READ`) and `probe_for_write` (with `MM_WRITE`). -/
def probe (need : UInt16) (proc : ProcId) (addr len : UInt32) : Call W Unit := do
  match ← findUserRegion proc addr with
  | none => throw (.exited psFailure failScSegfault)
  | some r => do
      let reg ← theRegion r
      if addr + len > reg.addr + reg.size || reg.mode &&& need == 0 then
        throw (.exited psFailure failScSegfault)
      else return ()

/-- `probe_for_read`. -/
def probeForRead (proc : ProcId) (addr len : UInt32) : Call W Unit :=
  probe mmRead proc addr len

/-- `probe_for_write`. -/
def probeForWrite (proc : ProcId) (addr len : UInt32) : Call W Unit :=
  probe mmWrite proc addr len

end Kogata.Kernel
