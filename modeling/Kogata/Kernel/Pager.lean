import Kogata.Kernel.FileMode
import Kogata.Kernel.Memory

/-!
# Pagers

`kernel/user/pager.c`: the swap, VFS and device pagers, and the operations that are common to
them. A `page_commit`, `page_release` or `resize` that is null in the table of a kind of pager
is missing from the match on that kind. Loops over the pages of a range are `forPages`, except
the one in `pager_do_rw` that jumps out.
-/

namespace Kogata.Kernel

/-- `PAGE_ACCESSED`. -/
abbrev pageAccessed : UInt32 := 0x02
/-- `PAGE_DIRTY`. -/
abbrev pageDirty : UInt32 := 0x04
/-- `ENT_FRAME_SHIFT`. -/
abbrev entFrameShift : UInt32 := 12

variable {W : Type}

/-- `mutex_lock(&p->lock)`. -/
def lockPager (p : PagerId) : Call W Unit := do
  if (← thePager p).lock then throw .deadlock
  else setPager p fun pg => { pg with lock := true }

/-- `mutex_unlock(&p->lock)`. -/
def unlockPager (p : PagerId) : Call W Unit :=
  setPager p fun pg => { pg with lock := false }

/-- `hashtbl_find(p->pages, page)`. -/
def findPage (p : PagerId) (page : UInt32) : Call W UInt32 := do
  return (← thePager p).pages page

/-- `hashtbl_change`, or a `hashtbl_add` or `hashtbl_remove` (with `0`) that does not fail. -/
def putPage (p : PagerId) (page entry : UInt32) : Call W Unit :=
  setPager p fun pg => { pg with pages := Function.update pg.pages page entry }

variable (m : Machine W)

/-- `hashtbl_add(p->pages, page, entry)`. -/
def addPage (p : PagerId) (page entry : UInt32) : Call W Bool := do
  if ← ask m.malloc then
    putPage p page entry
    return true
  else return false

/-- `new_swap_pager`, `new_vfs_pager` and `new_device_pager` after their assertion: the pager,
or `none` when one of the two allocations fails. -/
def newPager (ops : PagerOps) (size : UInt32) : Call W (Option PagerId) := do
  if ← ask m.malloc then
    if ← ask m.malloc then
      let p ← fresh
      setPager p fun _ =>
        { ops := ops, size := size, pages := fun _ => 0, lock := false, maps := [] }
      return some p
    else return none
  else return none

/-- `new_swap_pager`. -/
def newSwapPager (size : UInt32) (allowResize : Bool) : Call W (Option PagerId) :=
  newPager m (.swap allowResize) size

/-- `new_vfs_pager`. -/
def newVfsPager (size : UInt32) (vfsPager : VfsPager) : Call W (Option PagerId) :=
  newPager m (.vfs vfsPager) size

/-- `new_device_pager`. -/
def newDevicePager (size physOffset : UInt32) : Call W (Option PagerId) := do
  assert (pageAligned physOffset)
  newPager m (.device physOffset) size

/-- The body of the loop of `swap_page_in`. -/
def swapLoadPage (p : PagerId) (region page : UInt32) : Call W Unit := do
  if (← findPage p page) = 0 then
    let frame ← ask m.frameAlloc
    if frame ≠ 0 then
      if ← ask (m.pdMapPage .kernel region frame true) then
        tell (m.clear region pageSize)
        tell (m.pdUnmapPage .kernel region)
        if !(← addPage m p page (frame <<< entFrameShift)) then
          tell (m.frameFree frame)

/-- `swap_page_in`. -/
def swapPageIn (p : PagerId) (offset len : UInt32) : Call W Unit := do
  assert (pageAligned offset)
  let region ← ask (m.regionAlloc pageSize)
  if region = 0 then return ()
  else
    forPages offset len fun page => swapLoadPage m p region page
    tell (m.regionFree region)

/-- `swap_page_release`. -/
def swapPageRelease (p : PagerId) (offset len : UInt32) : Call W Unit := do
  assert (pageAligned offset)
  forPages offset len fun page => do
    let frame := (← findPage p page) >>> entFrameShift
    if frame ≠ 0 then
      putPage p page 0
      tell (m.frameFree frame)

/-- How many bytes of a page the file has: `expect_len` in the VFS pager. -/
def expectLen (size page : UInt32) : UInt32 :=
  if page + pageSize > size then size - page else pageSize

/-- The body of `vfs_page_in` between taking a frame for a page and the label `end`: whether
the page is in the table. -/
def vfsLoadPage (p : PagerId) (v : VfsPager) (region page frame : UInt32) : Call W Bool := do
  if ← ask (m.pdMapPage .kernel region frame true) then
    let size := (← thePager p).size
    let expect := expectLen size page
    if page + pageSize > size then
      tell (m.clear (region + expect) (pageSize - expect))
    let readLen ← ask (m.vfsRead v.node page expect region)
    tell (m.pdUnmapPage .kernel region)
    if readLen ≠ expect then return false
    else addPage m p page (frame <<< entFrameShift)
  else return false

/-- `vfs_page_in`. -/
def vfsPageIn (p : PagerId) (v : VfsPager) (offset len : UInt32) : Call W Unit := do
  assert (pageAligned offset)
  assert v.canRead
  let region ← ask (m.regionAlloc pageSize)
  if region = 0 then return ()
  else
    forPages offset len fun page => do
      if (← findPage p page) = 0 then
        let frame ← ask m.frameAlloc
        if frame ≠ 0 then
          if !(← vfsLoadPage m p v region page frame) then
            tell (m.frameFree frame)
    tell (m.regionFree region)

/-- `vfs_page_commit`. -/
def vfsPageCommit (p : PagerId) (v : VfsPager) (offset len : UInt32) : Call W Unit := do
  assert (pageAligned offset)
  assert v.canRead
  let region ← ask (m.regionAlloc pageSize)
  if region = 0 then return ()
  else
    forPages offset len fun page => do
      let ent ← findPage p page
      if ent ≠ 0 ∧ ent &&& pageDirty ≠ 0 then
        let expect := expectLen (← thePager p).size page
        if ← ask (m.pdMapPage .kernel region (ent >>> entFrameShift) true) then
          if v.canWrite then
            let writeLen ← ask (m.vfsWrite v.node page expect region)
            if writeLen = expect then putPage p page (ent &&& ~~~pageDirty)
          tell (m.pdUnmapPage .kernel region)
    tell (m.regionFree region)

/-- `vfs_page_release`. -/
def vfsPageRelease (p : PagerId) (v : VfsPager) (offset len : UInt32) : Call W Unit := do
  assert (pageAligned offset)
  assert v.canRead
  forPages offset len fun page => do
    let ent ← findPage p page
    if ent ≠ 0 then
      putPage p page 0
      tell (m.frameFree (ent >>> entFrameShift))

/-- `device_page_in`. -/
def devicePageIn (p : PagerId) (physOffset offset len : UInt32) : Call W Unit := do
  assert (pageAligned offset)
  forPages offset len fun page => do
    if (← findPage p page) = 0 then
      let _ ← addPage m p page (physOffset + page)

/-- `device_page_release`. -/
def devicePageRelease (p : PagerId) (offset len : UInt32) : Call W Unit := do
  assert (pageAligned offset)
  forPages offset len fun page => putPage p page 0

/-- `p->ops->page_in(p, offset, len)`. -/
def pageIn (p : PagerId) (offset len : UInt32) : Call W Unit := do
  match (← thePager p).ops with
  | .swap _ => swapPageIn m p offset len
  | .vfs v => vfsPageIn m p v offset len
  | .device physOffset => devicePageIn m p physOffset offset len

/-- `p->ops->page_release(p, offset, len)`, which no table lacks. -/
def pageRelease (p : PagerId) (offset len : UInt32) : Call W Unit := do
  match (← thePager p).ops with
  | .swap _ => swapPageRelease m p offset len
  | .vfs v => vfsPageRelease m p v offset len
  | .device _ => devicePageRelease p offset len

/-- `pager_unmap`. The address that is looked up does not depend on the page. -/
def pagerUnmap (p : PagerId) (offset len : UInt32) : Call W Unit := do
  (← thePager p).maps.forM fun it => do
    let r ← theRegion it
    forPages offset len fun _ => do
      let addr := r.addr + offset - r.offset
      let entry ← ask (m.pdGetEntry (.user r.proc) addr)
      if entry &&& ptePresent ≠ 0 then tell (m.pdUnmapPage (.user r.proc) addr)

/-- `change_device_pager`. -/
def changeDevicePager (p : PagerId) (newSize newPhysOffset : UInt32) : Call W Unit := do
  match (← thePager p).ops with
  | .device _ =>
      lockPager p
      let size := (← thePager p).size
      pagerUnmap m p 0 size
      devicePageRelease p 0 size
      setPager p fun pg => { pg with size := newSize, ops := .device newPhysOffset }
      unlockPager p
  | _ => return ()

/-- `delete_pager`: the pager is left locked, as it is freed. -/
def deletePager (p : PagerId) : Call W Unit := do
  assert ((← thePager p).maps == [])
  lockPager p
  let pg ← thePager p
  match pg.ops with
  | .vfs v => vfsPageCommit m p v 0 pg.size
  | _ => pure ()
  pageRelease m p 0 pg.size

/-- What `pager_resize` does with the lock held, after the driver has agreed. -/
def shrinkPager (p : PagerId) (newSize : UInt32) : Call W Unit := do
  let size := (← thePager p).size
  if pageAlignUp newSize < size then
    pagerUnmap m p (pageAlignUp newSize) (size - pageAlignUp newSize)
    pageRelease m p (pageAlignUp newSize) (size - pageAlignUp newSize)
  setPager p fun pg => { pg with size := newSize }

/-- `p->ops->resize(p, new_size)`; `none` when the table has none. -/
def resizeOp (ops : PagerOps) (newSize : UInt32) : Option (Call W Bool) :=
  match ops with
  | .swap allowResize => some (pure allowResize)
  | .vfs v => some (if v.canResize then ask (m.vfsResize v.node newSize) else pure false)
  | .device _ => none

/-- `pager_resize`. -/
def pagerResize (p : PagerId) (newSize : UInt32) : Call W Bool := do
  match resizeOp m (← thePager p).ops newSize with
  | none => return false
  | some resize =>
      lockPager p
      let ret ← resize
      if ret then shrinkPager m p newSize
      unlockPager p
      return ret

/-- `pager_access`. -/
def pagerAccess (p : PagerId) (offset len : UInt32) (accessed dirty : Bool) : Call W Unit := do
  lockPager p
  assert (pageAligned offset)
  forPages offset len fun page => do
    let v ← findPage p page
    if v ≠ 0 then
      putPage p page
        (v ||| (if accessed then pageAccessed else 0) ||| (if dirty then pageDirty else 0))
  unlockPager p

/-- `pager_commit_dirty`. -/
def pagerCommitDirty (p : PagerId) : Call W Unit := do
  match (← thePager p).ops with
  | .vfs v =>
      lockPager p
      vfsPageCommit m p v 0 (← thePager p).size
      unlockPager p
  | _ => return ()

/-- `pager_get_frame`. -/
def pagerGetFrame (p : PagerId) (offset : UInt32) : Call W UInt32 := do
  lockPager p
  assert (pageAligned offset)
  if (← findPage p offset) = 0 then pageIn m p offset pageSize
  let ret := (← findPage p offset) >>> entFrameShift
  unlockPager p
  return ret

/-- The mapping loop of `pager_do_rw`: whether it reached its end instead of jumping out. -/
def mapPages (p : PagerId) (region firstPage : UInt32) (write : Bool) :
    List UInt32 → Call W Bool
  | [] => return true
  | i :: rest => do
      let frame := (← findPage p i) >>> entFrameShift
      if frame = 0 then return false
      else
        if ← ask (m.pdMapPage .kernel (region + i - firstPage) frame write) then
          mapPages p region firstPage write rest
        else return false

/-- `pager_do_rw` once it has a region: the bytes read, or the number of bytes written, as a
list of that length. `data` is the caller's buffer of a write. -/
def transfer (p : PagerId) (offset len firstPage regionLen region : UInt32)
    (data : Option (List UInt8)) : Call W (List UInt8) := do
  pageIn m p firstPage regionLen
  if ← mapPages m p region firstPage data.isSome (pagesOf firstPage regionLen) then
    if pagesWrap firstPage regionLen then throw .diverge
    else
      match data with
      | some buf =>
          let block := buf.take len.toNat
          tell (m.store (region + offset - firstPage) block)
          forPages firstPage regionLen fun page => do
            let v ← findPage p page
            assert (v ≠ 0)
            putPage p page (v ||| pageAccessed)
          return block
      | none =>
          let world := (← get).world
          return m.loadBytes (region + offset - firstPage) len world
  else return []

/-- The part of `pager_do_rw` behind the label `end_read` that gives the region back. -/
def dropRegion (region regionLen : UInt32) : Call W Unit := do
  forPages region regionLen fun x => do
    let entry ← ask (m.pdGetEntry .kernel x)
    if entry >>> entFrameShift ≠ 0 then tell (m.pdUnmapPage .kernel x)
  tell (m.regionFree region)

/-- The length that `pager_do_rw` works with. -/
def transferLen (size offset len : UInt32) : UInt32 :=
  if offset + len > size then size - offset else len

/-- The part of `pager_do_rw` behind its early return. -/
def doRwInside (p : PagerId) (offset len firstPage regionLen : UInt32)
    (data : Option (List UInt8)) : Call W (List UInt8) := do
  let region ← ask (m.regionAlloc (pageAlignUp regionLen))
  let ret ← (if region = 0 then return [] else do
    let ret ← transfer m p offset len firstPage regionLen region data
    dropRegion m region regionLen
    return ret)
  unlockPager p
  return ret

/-- `pager_do_rw`. The early return at and beyond the end leaves the mutex locked. -/
def pagerDoRw (p : PagerId) (offset len : UInt32) (data : Option (List UInt8)) :
    Call W (List UInt8) := do
  lockPager p
  let size := (← thePager p).size
  if offset ≥ size then return []
  else
    let len := transferLen size offset len
    let firstPage := pageAlignDown offset
    doRwInside m p offset len firstPage (offset + len - firstPage) data

/-- `pager_read`: the bytes copied to the buffer. -/
def pagerRead (p : PagerId) (offset len : UInt32) : Call W (List UInt8) :=
  pagerDoRw m p offset len none

/-- `pager_write`: the bytes taken from the buffer. -/
def pagerWrite (p : PagerId) (offset : UInt32) (buf : List UInt8) : Call W (List UInt8) :=
  pagerDoRw m p offset (UInt32.ofNat buf.length) (some buf)

/-- `pager_add_map`. -/
def pagerAddMap (p : PagerId) (r : RegionId) : Call W Unit := do
  lockPager p
  setPager p fun pg => { pg with maps := r :: pg.maps }
  unlockPager p

/-- `pager_rm_map`; the loop reads through a null pointer when there is no map at all. -/
def pagerRmMap (p : PagerId) (r : RegionId) : Call W Unit := do
  lockPager p
  if (← thePager p).maps = [] then throw .wild
  else setPager p fun pg => { pg with maps := pg.maps.erase r }
  unlockPager p

/-- `fs_read_from_pager`. -/
def fsReadFromPager (f : FsHandle) (offset len : UInt32) : Call W (List UInt8) :=
  match f.pager with
  | none => throw .panic
  | some p => pagerRead m p offset len

/-- `fs_write_to_pager`. -/
def fsWriteToPager (f : FsHandle) (offset : UInt32) (buf : List UInt8) :
    Call W (List UInt8) :=
  match f.pager with
  | none => throw .panic
  | some p => do
      let stop := offset + UInt32.ofNat buf.length
      if stop > (← thePager p).size then
        let _ ← pagerResize m p stop
      pagerWrite m p offset buf

/-- `file_read` on a node whose `read` is `fs_read_from_pager`. -/
def fileRead (f : FsHandle) (offset len : UInt32) : Call W (List UInt8) := do
  if len = 0 then return []
  else if f.mode &&& fmRead = 0 then return []
  else fsReadFromPager m f offset len

/-- `file_write` on a node whose `write` is `fs_write_to_pager`. -/
def fileWrite (f : FsHandle) (offset : UInt32) (buf : List UInt8) : Call W (List UInt8) := do
  if UInt32.ofNat buf.length = 0 then return []
  else if f.mode &&& fmWrite = 0 then return []
  else fsWriteToPager m f offset buf

end Kogata.Kernel
