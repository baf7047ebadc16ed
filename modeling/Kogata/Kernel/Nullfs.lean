import Kogata.Common.Hashtbl
import Kogata.Kernel.Vfs
import Kogata.Lib.Links

/-!
# The RAM file system

`kernel/user/nullfs.c`: directories whose items are kept in a linked list and in a hash table, and
the calls of `vfs.c` that work on paths, for one file system and one caller at a time. Between two
calls no node of the file system is in memory but the root, so that every node of a path comes
from `nullfs_d_walk`. Addresses are never given out twice; `0` is the null pointer. A call takes
the answers of its `malloc`s.
-/

namespace Kogata.Kernel.Nullfs

open Common

/-- The address of a `nullfs_item_t`. -/
abbrev ItemAddr := Nat
/-- The address of a `nullfs_dir_t`. -/
abbrev DirAddr := Nat
/-- The address of a `nullfs_file_t`. -/
abbrev RamFileAddr := Nat
/-- The address of a `pager_t`. -/
abbrev PagerAddr := Nat
/-- The operations and the data of a node of a driver, as of a disk or a keyboard. -/
abbrev DevAddr := Nat

/-- `str_hash_fun`; a `char` is signed. -/
def strHashFun (v : Name) : UInt32 :=
  v.foldl (fun h c => h * 101 + c.toInt8.toInt32.toUInt32) 712

/-- `str_key_eq_fun` and `str_hash_fun`. -/
def strKeys : KeyFuns Name where
  ef := fun a b => a == b
  hf := strHashFun

/-- The operations of a node and its data: `nullfs_d_ops` with a `nullfs_dir_t`, `nullfs_f_ops`
with a `nullfs_file_t`, or those of a driver. -/
inductive NodeData where
  | dir (d : DirAddr)
  | file (f : RamFileAddr)
  | special (dev : DevAddr)
  deriving DecidableEq

/-- `nullfs_item_t`. -/
structure Item where
  name : Name
  data : NodeData
  pager : PagerAddr
  next : ItemAddr
  deriving DecidableEq

/-- `nullfs_dir_t`. -/
structure Dir where
  itemsList : ItemAddr
  itemsIdx : Hashtbl strKeys ItemAddr
  lock : Bool

/-- `nullfs_file_t`. -/
structure RamFile where
  pager : PagerAddr
  okModes : UInt32
  lock : Bool
  deriving DecidableEq

/-- `stat_t`. -/
structure Stat where
  type : UInt32
  access : UInt32
  size : Nat
  deriving DecidableEq

/-- The fields of a directory that is created. -/
def Dir.new : Dir where
  itemsList := 0
  itemsIdx := Hashtbl.create
  lock := false

/-- `nullfs_t`, the `ok_modes` of its `fs_t`, and the heap: what has been freed is `none`, and
addresses from `next` on have not been given out. A pager is its size, and the node of a driver what
its `stat` answers. -/
structure Heap where
  okModes : UInt32
  canCreate : Bool
  canMove : Bool
  canDelete : Bool
  item : ItemAddr → Option Item
  dir : DirAddr → Option Dir
  file : RamFileAddr → Option RamFile
  pager : PagerAddr → Option Nat
  dev : DevAddr → Option Stat
  next : Nat

/-- The data of the root node. -/
abbrev rootDir : DirAddr := 1

/-- `nullfs_fs_make`, called by `make_fs`, where the `malloc`s succeed. -/
def nullfsFsMake (okModes : UInt32) (canCreate canMove canDelete : Bool) : Heap where
  okModes := okModes
  canCreate := canCreate
  canMove := canMove
  canDelete := canDelete
  item := fun _ => none
  dir := Function.update (fun _ => none) rootDir (some Dir.new)
  file := fun _ => none
  pager := fun _ => none
  dev := fun _ => none
  next := 2

/-- A call of the code. -/
abbrev NullfsM := StateT Heap (Except Halt)

/-- The fields of a directory. -/
def theDir (d : DirAddr) : NullfsM Dir := do
  match (← get).dir d with
  | none => throw .wild
  | some dir => return dir

/-- Write the fields of a directory, or free it. -/
def putDir (d : DirAddr) (dir : Option Dir) : NullfsM Unit :=
  modify fun s => { s with dir := Function.update s.dir d dir }

/-- The fields of an item. -/
def theItem (i : ItemAddr) : NullfsM Item := do
  match (← get).item i with
  | none => throw .wild
  | some item => return item

/-- Write the fields of an item, or free it. -/
def putItem (i : ItemAddr) (item : Option Item) : NullfsM Unit :=
  modify fun s => { s with item := Function.update s.item i item }

/-- The fields of a file. -/
def theRamFile (f : RamFileAddr) : NullfsM RamFile := do
  match (← get).file f with
  | none => throw .wild
  | some file => return file

/-- Write the fields of a file, or free it. -/
def putRamFile (f : RamFileAddr) (file : Option RamFile) : NullfsM Unit :=
  modify fun s => { s with file := Function.update s.file f file }

/-- `p->size`. -/
def pagerSize (p : PagerAddr) : NullfsM Nat := do
  match (← get).pager p with
  | none => throw .wild
  | some size => return size

/-- Write the fields of a pager, or free it. -/
def putPager (p : PagerAddr) (size : Option Nat) : NullfsM Unit :=
  modify fun s => { s with pager := Function.update s.pager p size }

/-- `delete_pager`. -/
def deletePager (p : PagerAddr) : NullfsM Unit := do
  let _ ← pagerSize p
  putPager p none

/-- What the `stat` of a driver answers. -/
def devStat (dev : DevAddr) : NullfsM Stat := do
  match (← get).dev dev with
  | none => throw .wild
  | some st => return st

/-- The address that `malloc` gives. -/
def newAddr : NullfsM Nat :=
  modifyGet fun s => (s.next, { s with next := s.next + 1 })

/-- `mutex_lock(&d->lock)`. -/
def lockDir (d : DirAddr) : NullfsM Unit := do
  let dir ← theDir d
  if dir.lock then throw .deadlock
  else putDir d (some { dir with lock := true })

/-- `mutex_unlock(&d->lock)`. -/
def unlockDir (d : DirAddr) : NullfsM Unit := do
  let dir ← theDir d
  putDir d (some { dir with lock := false })

/-- `FT_DIR`. -/
abbrev ftDir : UInt32 := 1

/-- `nullfs_d_stat`. -/
def nullfsDStat (d : DirAddr) : NullfsM Stat := do
  lockDir d
  let s ← get
  let dir ← theDir d
  let st : Stat :=
    { type := ftDir
      access := fmReaddir ||| (if s.canCreate then fmDcreate else 0) |||
        (if s.canMove then fmDmove else 0) ||| (if s.canDelete then fmDdelete else 0)
      size := dir.itemsIdx.count }
  unlockDir d
  return st

/-- `nullfs_f_stat`. -/
def nullfsFStat (f : RamFileAddr) : NullfsM Stat := do
  let file ← theRamFile f
  if file.lock then throw .deadlock
  else
    putRamFile f (some { file with lock := true })
    let size ← pagerSize file.pager
    putRamFile f (some file)
    return { type := ftRegular, access := file.okModes, size := size }

/-- `n->ops->stat(n, st)`. -/
def statNode : NodeData → NullfsM Stat
  | .dir d => nullfsDStat d
  | .file f => nullfsFStat f
  | .special dev => devStat dev

/-- What `nullfs_d_walk` writes to a node. -/
structure NodeFields where
  data : NodeData
  pager : PagerAddr
  deriving DecidableEq

/-- `nullfs_d_walk`. -/
def nullfsDWalk (d : DirAddr) (file : Name) : NullfsM (Option NodeFields) := do
  lockDir d
  match (← theDir d).itemsIdx.find file with
  | none => do
      unlockDir d
      return none
  | some x => do
      let item ← theItem x
      unlockDir d
      return some { data := item.data, pager := item.pager }

/-- The item that the loop of `nullfs_d_readdir` stops at, `0` when it comes to the end. -/
def itemAt : Nat → ItemAddr → NullfsM ItemAddr
  | _, 0 => return 0
  | 0, i + 1 => return i + 1
  | n + 1, i + 1 => do itemAt n (← theItem (i + 1)).next

/-- `nullfs_d_readdir`, the `dirent_t` where it answers `true`. -/
def nullfsDReaddir (d : DirAddr) (entNo : Nat) : NullfsM (Option (Name × Stat)) := do
  lockDir d
  let i ← itemAt entNo (← theDir d).itemsList
  if i = 0 then
    unlockDir d
    return none
  else
    let item ← theItem i
    let st ← statNode item.data
    unlockDir d
    return some (item.name.take (dirMax - 1), st)

/-- The answers of the `malloc`s in `nullfs_d_create`: that of the file or directory, the one in
`new_swap_pager` or `create_hashtbl`, that of the item, the one in `strdup`, and those in
`hashtbl_add`. `leftover` is what the block of the item holds in its field `pager`. -/
structure CreateMem where
  data : Bool
  part : Bool
  item : Bool
  name : Bool
  binding : Bool
  shrunk : Bool
  grown : Bool
  leftover : PagerAddr
  deriving DecidableEq

/-- All that `nullfs_d_create` needs is there. -/
def CreateMem.enough (mem : CreateMem) : Bool :=
  mem.data && mem.part && mem.item && mem.name && mem.binding

/-- The part of `nullfs_d_create` that allocates the item, binds it and makes it the first of the
list. -/
def addItem (mem : CreateMem) (d : DirAddr) (item : Item) : NullfsM Bool :=
  if mem.item && mem.name then do
    let i ← newAddr
    let dir ← theDir d
    let (ok, idx, _) := dir.itemsIdx.add mem.binding mem.shrunk mem.grown item.name i
    if ok then
      putItem i (some { item with next := dir.itemsList })
      putDir d (some { dir with itemsIdx := idx, itemsList := i })
      return true
    else return false
  else return false

/-- The fields of a file that is created. -/
def RamFile.new (p : PagerAddr) : RamFile where
  pager := p
  okModes := fmRead ||| fmWrite ||| fmTrunc ||| fmAppend
  lock := false

/-- `nullfs_d_create` for `FT_REGULAR`. At `f_error` it frees what it has allocated. -/
def createRamFile (mem : CreateMem) (d : DirAddr) (file : Name) : NullfsM Bool := do
  lockDir d
  if !mem.data then
    unlockDir d
    return false
  else
    let f ← newAddr
    if !mem.part then
      unlockDir d
      return false
    else
      let p ← newAddr
      putPager p (some 0)
      putRamFile f (some (RamFile.new p))
      if ← addItem mem d { name := file, data := .file f, pager := p, next := 0 } then
        unlockDir d
        return true
      else
        putRamFile f none
        deletePager p
        unlockDir d
        return false

/-- `nullfs_d_create` for `FT_DIR`. At `d_error` it frees what it has allocated. -/
def createDir (mem : CreateMem) (d : DirAddr) (file : Name) : NullfsM Bool := do
  lockDir d
  if !mem.data || !mem.part then
    unlockDir d
    return false
  else
    let x ← newAddr
    putDir x (some Dir.new)
    -- the field `pager` of the item is not written
    if ← addItem mem d { name := file, data := .dir x, pager := mem.leftover, next := 0 } then
      unlockDir d
      return true
    else
      putDir x none
      unlockDir d
      return false

/-- `nullfs_d_create`. -/
def nullfsDCreate (mem : CreateMem) (d : DirAddr) (file : Name) (type : UInt32) : NullfsM Bool :=
  if type = ftRegular then createRamFile mem d file
  else if type = ftDir then createDir mem d file
  else return false

/-- The part of `nullfs_d_delete` that takes the item out of the list. Where the first item is not
the one in front of it, `it++` leaves the first item. -/
def unlinkItem (d : DirAddr) (i : ItemAddr) (item : Item) : NullfsM Unit := do
  let dir ← theDir d
  if dir.itemsList = i then putDir d (some { dir with itemsList := item.next })
  else if dir.itemsList = 0 then return
  else
    let it ← theItem dir.itemsList
    if it.next = i then putItem dir.itemsList (some { it with next := item.next })
    else throw .wild

/-- The part of `nullfs_d_delete` behind the tests. `shrunk` is the answer of the `malloc` in
`hashtbl_remove`. -/
def removeItem (shrunk : Bool) (d : DirAddr) (i : ItemAddr) (item : Item) : NullfsM Bool := do
  let dir ← theDir d
  putDir d (some { dir with itemsIdx := (dir.itemsIdx.remove shrunk item.name).1 })
  unlinkItem d i item
  putItem i none
  unlockDir d
  return true

/-- `nullfs_d_delete`. -/
def nullfsDDelete (shrunk : Bool) (d : DirAddr) (file : Name) : NullfsM Bool := do
  lockDir d
  if !(← get).canDelete then
    unlockDir d
    return false
  else
    match (← theDir d).itemsIdx.find file with
    | none => do
        unlockDir d
        return false
    | some i => do
        let item ← theItem i
        match item.data with
        | .dir x => do
            let sd ← theDir x
            if sd.lock then
              unlockDir d
              return false
            else
              putDir x (some { sd with lock := true })
              if sd.itemsList ≠ 0 then
                unlockDir d
                return false
              else
                putDir x none
                removeItem shrunk d i item
        | .file f => do
            let rf ← theRamFile f
            if rf.lock then
              unlockDir d
              return false
            else
              deletePager rf.pager
              putRamFile f none
              removeItem shrunk d i item
        | .special _ => do
            unlockDir d
            return false

/-- The answers of the `malloc`s of one `fs_walk_one`, in front of the driver's `walk` and behind
it. -/
structure NodeMem where
  node : Bool
  binding : Bool
  deriving DecidableEq

/-- `fs_walk_one`; only a directory has a `walk`. -/
def fsWalkOne (mem : NodeMem) (base : NodeData) (file : Name) : NullfsM (Option NodeData) :=
  match base with
  | .file _ | .special _ => return none
  | .dir d =>
      if !mem.node then return none
      else do
        match ← nullfsDWalk d file with
        | none => return none
        | some n => return if mem.binding then some n.data else none

/-- The loop of `fs_walk_path` over the items of the path. -/
def walkItems (mem : Nat → NodeMem) (n : NodeData) : List Name → NullfsM (Option NodeData)
  | [] => return some n
  | [last] => if last = [] then return some n else fsWalkOne (mem 0) n last
  | item :: rest =>
      if item = [] ∨ item.length ≥ dirMax - 1 then return none
      else do
        match ← fsWalkOne (mem 0) n item with
        | none => return none
        | some n2 => walkItems (fun k => mem (k + 1)) n2 rest

/-- `fs_walk_path` from the root. -/
def fsWalkPath (mem : Nat → NodeMem) (path : Name) : NullfsM (Option NodeData) :=
  walkItems mem (.dir rootDir) (pathItems path)

/-- The loop of `fs_walk_path_except_last`; a last item that is empty is a trailing slash. -/
def walkItemsExceptLast (mem : Nat → NodeMem) (n : NodeData) :
    List Name → NullfsM (Option (NodeData × Name))
  | [] => return some (n, [])
  | [last] => if last.length ≥ dirMax - 1 then return none else return some (n, last)
  | item :: rest =>
      if item = [] ∨ item.length ≥ dirMax - 1 then return none
      else if rest = [[]] then return some (n, item)
      else do
        match ← fsWalkOne (mem 0) n item with
        | none => return none
        | some n2 => walkItemsExceptLast (fun k => mem (k + 1)) n2 rest

/-- `fs_walk_path_except_last` from the root. -/
def fsWalkPathExceptLast (mem : Nat → NodeMem) (path : Name) :
    NullfsM (Option (NodeData × Name)) :=
  if pathItems path = [[]] then return none
  else walkItemsExceptLast mem (.dir rootDir) (pathItems path)

/-- `fs_create`; only a directory has a `create`. -/
def fsCreate (mem : Nat → NodeMem) (create : CreateMem) (file : Name) (type : UInt32) :
    NullfsM Bool := do
  if (← get).okModes &&& fmDcreate = 0 then return false
  else
    match ← fsWalkPathExceptLast mem file with
    | some (.dir d, name) => nullfsDCreate create d name type
    | _ => return false

/-- `fs_delete`; only a directory has a `delete`, and no node below one is in memory. -/
def fsDelete (mem : Nat → NodeMem) (shrunk : Bool) (file : Name) : NullfsM Bool := do
  if (← get).okModes &&& fmDdelete = 0 then return false
  else
    match ← fsWalkPathExceptLast mem file with
    | some (.dir d, name) => nullfsDDelete shrunk d name
    | _ => return false

/-- `fs_stat`, the `stat_t` where it answers `true`. -/
def fsStat (mem : Nat → NodeMem) (file : Name) : NullfsM (Option Stat) := do
  match ← fsWalkPath mem file with
  | none => return none
  | some n => return some (← statNode n)

end Kogata.Kernel.Nullfs
