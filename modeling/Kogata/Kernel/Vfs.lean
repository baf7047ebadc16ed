import Kogata.Kernel.FileMode
import Kogata.Kernel.Halt
import Mathlib.Logic.Function.Basic

/-!
# The virtual file system

`kernel/user/vfs.c` for one file system made by `make_fs`: the tree of the nodes that are in
memory, their reference counts, and the handles. Memory allocation succeeds; `hashtbl_t` with
string keys is a list of bindings with one binding for each key. The driver behind the file
system is a parameter that answers as it likes.
-/

namespace Kogata.Kernel

/-- A C string, without its final `0`. -/
abbrev Name := List UInt8
/-- The identity of an `fs_node_t`. -/
abbrev NodeId := Nat
/-- The identity of an `fs_handle_t`. -/
abbrev HandleId := Nat

/-- `'/'`. -/
abbrev slash : UInt8 := 47
/-- `DIR_MAX`. -/
abbrev dirMax : Nat := 128
/-- `FT_REGULAR`. -/
abbrev ftRegular : UInt32 := 0

/-- `fs_node_t`, without the fields that the driver fills in. -/
structure FsNode where
  refs : Int
  lock : Bool
  name : Name
  children : Option (List (Name × NodeId))
  parent : Option NodeId
  deriving DecidableEq

/-- `fs_handle_t`. Its file system is the one that is modelled. -/
structure OpenFile where
  refs : Int
  lock : Bool
  node : NodeId
  mode : UInt32
  deriving DecidableEq

/-- `fs_t`. -/
structure Fs where
  refs : Int
  lock : Bool
  okModes : UInt32
  deriving DecidableEq

/-- The operations of the nodes of a file system, on the driver's own state. An operation that is
null in a node's table answers `false` or does nothing. -/
structure Driver (D : Type) where
  walk : NodeId → Name → NodeId → D → Bool × D
  openNode : NodeId → UInt32 → D → Bool × D
  create : NodeId → Name → UInt32 → D → Bool × D
  stat : NodeId → D → Bool × D
  close : HandleId → D → D
  dispose : NodeId → D → D
  shutdown : D → D

/-- The driver's state and the heaps. Identities below `nextNode` and `nextHandle` have been
given out; what has been freed is `none`. -/
structure Vfs (D : Type) where
  driver : D
  fs : Option Fs
  node : NodeId → Option FsNode
  handle : HandleId → Option OpenFile
  nextNode : Nat
  nextHandle : Nat

/-- `fs->root`. -/
abbrev fsRoot : NodeId := 0

/-- The file system that `make_fs` returns, with what `malloc` left in the mutex of the root. -/
def makeFs {D : Type} (driver : D) (okModes : UInt32) (rootLock : Bool) (rootName : Name) :
    Vfs D where
  driver := driver
  fs := some { refs := 1, lock := false, okModes := okModes }
  node := Function.update (fun _ => none) fsRoot
    (some { refs := 1, lock := rootLock, name := rootName, children := none, parent := none })
  handle := fun _ => none
  nextNode := 1
  nextHandle := 0

/-- A call of the file system code. -/
abbrev VfsCall (D α : Type) := StateT (Vfs D) (Except Halt) α

variable {D : Type}

/-- Ask the driver. -/
def askDriver {α : Type} (question : D → α × D) : VfsCall D α :=
  modifyGet fun s => let (answer, driver) := question s.driver; (answer, { s with driver := driver })

/-- Tell the driver. -/
def tellDriver (change : D → D) : VfsCall D Unit :=
  modify fun s => { s with driver := change s.driver }

/-- `ASSERT(cond)`. -/
def assertVfs (cond : Bool) : VfsCall D Unit :=
  if cond then pure () else throw .panic

/-- The fields of a node. -/
def theNode (n : NodeId) : VfsCall D FsNode := do
  match (← get).node n with
  | none => throw .wild
  | some nd => return nd

/-- Write the fields of a node. -/
def putNode (n : NodeId) (nd : Option FsNode) : VfsCall D Unit :=
  modify fun s => { s with node := Function.update s.node n nd }

/-- Change the fields of a node. -/
def changeNode (n : NodeId) (change : FsNode → FsNode) : VfsCall D Unit := do
  let nd ← theNode n
  putNode n (some (change nd))

/-- The fields of a handle. -/
def theFile (h : HandleId) : VfsCall D OpenFile := do
  match (← get).handle h with
  | none => throw .wild
  | some file => return file

/-- Write the fields of a handle. -/
def putFile (h : HandleId) (file : Option OpenFile) : VfsCall D Unit :=
  modify fun s => { s with handle := Function.update s.handle h file }

/-- The fields of the file system. -/
def theFs : VfsCall D Fs := do
  match (← get).fs with
  | none => throw .wild
  | some fs => return fs

/-- Write the fields of the file system. -/
def putFs (fs : Option Fs) : VfsCall D Unit :=
  modify fun s => { s with fs := fs }

/-- `mutex_lock(&n->lock)`. -/
def lockNode (n : NodeId) : VfsCall D Unit := do
  if (← theNode n).lock then throw .deadlock
  else changeNode n fun nd => { nd with lock := true }

/-- `mutex_unlock(&n->lock)`. -/
def unlockNode (n : NodeId) : VfsCall D Unit :=
  changeNode n fun nd => { nd with lock := false }

/-- `mutex_lock(&fs->lock)`. -/
def lockFs : VfsCall D Unit := do
  let fs ← theFs
  if fs.lock then throw .deadlock
  else putFs (some { fs with lock := true })

/-- `mutex_unlock(&fs->lock)`. -/
def unlockFs : VfsCall D Unit := do
  let fs ← theFs
  putFs (some { fs with lock := false })

/-- `mutex_lock(&file->lock)`. -/
def lockFile (h : HandleId) : VfsCall D Unit := do
  let file ← theFile h
  if file.lock then throw .deadlock
  else putFile h (some { file with lock := true })

/-- `mutex_unlock(&file->lock)`. -/
def unlockFile (h : HandleId) : VfsCall D Unit := do
  let file ← theFile h
  putFile h (some { file with lock := false })

/-- The bindings of `n->children`, none when there is no table. -/
def FsNode.entries (nd : FsNode) : List (Name × NodeId) :=
  nd.children.getD []

/-- `hashtbl_find(n->children, name)`, where a table that is null has nothing. -/
def FsNode.find (nd : FsNode) (name : Name) : Option NodeId :=
  nd.entries.lookup name

/-- `hashtbl_add(n->children, name, c)`, after the table has been made where there was none. -/
def FsNode.bind (nd : FsNode) (name : Name) (c : NodeId) : FsNode :=
  { nd with children := some ((name, c) :: nd.entries.filter fun e => e.1 != name) }

/-- `hashtbl_remove(n->children, name)`. -/
def removeChild (n : NodeId) (name : Name) : VfsCall D Unit := do
  let nd ← theNode n
  match nd.children with
  | none => throw .wild
  | some entries =>
      putNode n (some { nd with children := some (entries.filter fun e => e.1 != name) })

variable (d : Driver D)

/-- `ref_fs`. -/
def refFs : VfsCall D Unit := do
  lockFs
  let fs ← theFs
  putFs (some { fs with refs := fs.refs + 1 })
  unlockFs

/-- `unref_fs`. -/
def unrefFs : VfsCall D Unit := do
  lockFs
  let fs ← theFs
  putFs (some { fs with refs := fs.refs - 1 })
  if fs.refs - 1 = 0 then
    assertVfs ((← theNode fsRoot).refs == 1)
    tellDriver (d.dispose fsRoot)
    tellDriver d.shutdown
    putFs none
  else unlockFs

/-- `ref_fs_node`. -/
def refFsNode (n : NodeId) : VfsCall D Unit := do
  lockNode n
  changeNode n fun nd => { nd with refs := nd.refs + 1 }
  unlockNode n

/-- `unref_fs_node` with a bound on the depth of the recursion through the parents. -/
def unrefUpTo : Nat → NodeId → VfsCall D Unit
  | 0, _ => throw .diverge
  | depth + 1, n => do
      lockNode n
      changeNode n fun nd => { nd with refs := nd.refs - 1 }
      let nd ← theNode n
      if nd.refs = 0 then
        assertVfs (n != fsRoot)
        match nd.parent with
        | none => throw .panic
        | some p => do
            lockNode p
            removeChild p nd.name
            tellDriver (d.dispose n)
            unlockNode p
            unrefUpTo depth p
            unrefFs d
            assertVfs ((← theNode n).entries.isEmpty)
            putNode n none
      else unlockNode n

/-- `unref_fs_node`: each call inside it has the lock of a node of its own, so that there are not
more of them than identities that have been given out. -/
def unrefFsNode (n : NodeId) : VfsCall D Unit := do
  unrefUpTo d ((← get).nextNode + 1) n

/-- The block that `fs_walk_one` allocates for a new node. -/
def newNode (nd : FsNode) : VfsCall D NodeId :=
  modifyGet fun s => (s.nextNode,
    { s with node := Function.update s.node s.nextNode (some nd), nextNode := s.nextNode + 1 })

/-- The block that `fs_open` allocates for a new handle. -/
def newFile (file : OpenFile) : VfsCall D HandleId :=
  modifyGet fun s => (s.nextHandle,
    { s with handle := Function.update s.handle s.nextHandle (some file)
             nextHandle := s.nextHandle + 1 })

/-- `fs_walk_one`. -/
def fsWalkOne (base : NodeId) (file : Name) : VfsCall D (Option NodeId) := do
  lockNode base
  match (← theNode base).find file with
  | some n => do
      refFsNode n
      unlockNode base
      return some n
  | none => do
      let n ← newNode
        { refs := 1, lock := false, name := file, children := none, parent := some base }
      if ← askDriver (d.walk base file n) then
        changeNode base fun nd => nd.bind file n
        unlockNode base
        refFsNode base
        refFs
        return some n
      else
        putNode n none
        unlockNode base
        return none

/-- The items of a path, behind a first slash: an item that is empty stands where two slashes
meet, or at the end of the path. -/
def pathItems (path : Name) : List Name :=
  (if path.head? = some slash then path.tail else path).splitOn slash

/-- The loop of `fs_walk_path` over the items of the path. -/
def walkItems (n : NodeId) : List Name → VfsCall D (Option NodeId)
  | [] => return some n
  | [last] => do
      if last = [] then return some n
      else
        let n2 ← fsWalkOne d n last
        unrefFsNode d n
        return n2
  | item :: rest => do
      if item = [] then
        unrefFsNode d n
        return none
      else if item.length ≥ dirMax - 1 then
        unrefFsNode d n
        return none
      else
        let n2 ← fsWalkOne d n item
        unrefFsNode d n
        match n2 with
        | none => return none
        | some n2 => walkItems n2 rest

/-- `fs_walk_path`. -/
def fsWalkPath (base : NodeId) (path : Name) : VfsCall D (Option NodeId) := do
  refFsNode base
  walkItems d base (pathItems path)

/-- The loop of `fs_walk_path_except_last`; a last item that is empty is a trailing slash. -/
def walkItemsExceptLast (n : NodeId) : List Name → VfsCall D (Option (NodeId × Name))
  | [] => return some (n, [])
  | [last] => do
      if last.length ≥ dirMax - 1 then
        unrefFsNode d n
        return none
      else return some (n, last)
  | item :: rest => do
      if item = [] then
        unrefFsNode d n
        return none
      else if item.length ≥ dirMax - 1 then
        unrefFsNode d n
        return none
      else if rest = [[]] then return some (n, item)
      else
        let n2 ← fsWalkOne d n item
        unrefFsNode d n
        match n2 with
        | none => return none
        | some n2 => walkItemsExceptLast n2 rest

/-- `fs_walk_path_except_last`. -/
def fsWalkPathExceptLast (base : NodeId) (path : Name) : VfsCall D (Option (NodeId × Name)) := do
  if pathItems path = [[]] then return none
  else
    refFsNode base
    walkItemsExceptLast d base (pathItems path)

/-- `fs_create` on a file system with these rights and this root. -/
def createFile (okModes : UInt32) (root : NodeId) (file : Name) (type : UInt32) :
    VfsCall D Bool := do
  if okModes &&& fmDcreate = 0 then return false
  else
    match ← fsWalkPathExceptLast d root file with
    | none => return false
    | some (n, name) => do
        lockNode n
        let ret ← askDriver (d.create n name type)
        unlockNode n
        unrefFsNode d n
        return ret

/-- `fs_create`. -/
def fsCreate (file : Name) (type : UInt32) : VfsCall D Bool := do
  createFile d (← theFs).okModes fsRoot file type

/-- `fs_stat` on a file system with this root. -/
def statFile (root : NodeId) (file : Name) : VfsCall D Bool := do
  match ← fsWalkPath d root file with
  | none => return false
  | some n => do
      lockNode n
      let ret ← askDriver (d.stat n)
      unlockNode n
      unrefFsNode d n
      return ret

/-- `fs_stat`. -/
def fsStat (file : Name) : VfsCall D Bool := statFile d fsRoot file

/-- The node that `fs_open` opens, which `FM_CREATE` makes where it is missing. -/
def nodeToOpen (okModes : UInt32) (root : NodeId) (file : Name) (mode : UInt32) :
    VfsCall D (Option NodeId) := do
  match ← fsWalkPath d root file with
  | some n => return some n
  | none => do
      if mode &&& fmCreate ≠ 0 then
        if ← createFile d okModes root file ftRegular then fsWalkPath d root file
        else return none
      else return none

/-- The handle that `fs_open` makes for the node, if the driver opens it. -/
def openFound (n : NodeId) (mode : UInt32) : VfsCall D (Option HandleId) := do
  lockNode n
  if ← askDriver (d.openNode n mode) then
    let h ← newFile { refs := 1, lock := false, node := n, mode := mode }
    unlockNode n
    return some h
  else
    unlockNode n
    unrefFsNode d n
    return none

/-- `fs_open`. -/
def fsOpen (file : Name) (mode : UInt32) : VfsCall D (Option HandleId) := do
  let okModes := (← theFs).okModes
  if mode &&& ~~~okModes ≠ 0 then return none
  else
    match ← nodeToOpen d okModes fsRoot file mode with
    | none => return none
    | some n => do
        match ← openFound d n (mode &&& ~~~fmCreate) with
        | none => return none
        | some h => do
            refFs
            return some h

/-- `ref_file`. -/
def refFile (h : HandleId) : VfsCall D Unit := do
  lockFile h
  let file ← theFile h
  putFile h (some { file with refs := file.refs + 1 })
  unlockFile h

/-- `unref_file`. -/
def unrefFile (h : HandleId) : VfsCall D Unit := do
  lockFile h
  let file ← theFile h
  putFile h (some { file with refs := file.refs - 1 })
  if file.refs - 1 = 0 then
    tellDriver (d.close h)
    unrefFsNode d file.node
    unrefFs d
    putFile h none
  else unlockFile h

end Kogata.Kernel
