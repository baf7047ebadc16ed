import Kogata.Kernel.VfsMove

/-!
# File systems made from file systems

The calls of `kernel/user/vfs.c` on a file system that `make_fs` has made and on those that
`fs_subfs` has made from it or from one another. They share one tree of nodes: a file system of
`fs_subfs` has a root in the tree of the other. A reference to a file system is dropped in
`unref_fs`, which for one of `fs_subfs` drops the reference to the root.
-/

namespace Kogata.Kernel

/-- `fs_t *`. -/
inductive FsRef where
  | made
  | sub (k : Nat)
  deriving DecidableEq

/-- `fs_t` as `fs_subfs` fills it in. -/
structure SubFs where
  refs : Int
  lock : Bool
  okModes : UInt32
  root : NodeId
  deriving DecidableEq

/-- The tree with the file system that was made first, the others, and `file->fs` of the handles.
Numbers below `nextSub` have been given out; what has been freed is `none`. -/
structure FileSystems (D : Type) where
  vfs : Vfs D
  sub : Nat → Option SubFs
  nextSub : Nat
  fileFs : HandleId → FsRef

/-- A driver with `move` and `delete`. -/
structure FsDriver (D : Type) extends MoveDriver D where
  delete : NodeId → Name → D → Bool × D

/-- A call of the code on one of the file systems. -/
abbrev FsCall (D α : Type) := StateT (FileSystems D) (Except Halt) α

variable {D α : Type}

/-- Only the tree and its first file system change. -/
def onTree (call : VfsCall D α) : FsCall D α := fun s => do
  let (a, vfs) ← call s.vfs
  return (a, { s with vfs := vfs })

/-- The fields of a file system of `fs_subfs`. -/
def theSub (k : Nat) : FsCall D SubFs := do
  match (← get).sub k with
  | none => throw .wild
  | some fs => return fs

/-- Write the fields of a file system of `fs_subfs`. -/
def putSub (k : Nat) (fs : Option SubFs) : FsCall D Unit :=
  modify fun s => { s with sub := Function.update s.sub k fs }

/-- `mutex_lock(&fs->lock)`. -/
def lockSub (k : Nat) : FsCall D Unit := do
  let fs ← theSub k
  if fs.lock then throw .deadlock
  else putSub k (some { fs with lock := true })

/-- `mutex_unlock(&fs->lock)`. -/
def unlockSub (k : Nat) : FsCall D Unit := do
  let fs ← theSub k
  putSub k (some { fs with lock := false })

/-- `fs->ok_modes` and `fs->root`. -/
def modesAndRoot : FsRef → FsCall D (UInt32 × NodeId)
  | .made => do return ((← onTree theFs).okModes, fsRoot)
  | .sub k => do
      let fs ← theSub k
      return (fs.okModes, fs.root)

/-- `ref_fs`. -/
def refFsOf : FsRef → FsCall D Unit
  | .made => onTree refFs
  | .sub k => do
      lockSub k
      let fs ← theSub k
      putSub k (some { fs with refs := fs.refs + 1 })
      unlockSub k

section Calls

variable (d : FsDriver D)

/-- `unref_fs`. The file systems of `fs_subfs` have no `shutdown`. -/
def unrefFsOf : FsRef → FsCall D Unit
  | .made => onTree (unrefFs d.toDriver)
  | .sub k => do
      lockSub k
      let fs ← theSub k
      putSub k (some { fs with refs := fs.refs - 1 })
      if fs.refs - 1 = 0 then
        onTree (unrefFsNode d.toDriver fs.root)
        putSub k none
      else unlockSub k

/-- `fs_delete`. A name that is in memory is refused without `unref_fs_node`. -/
def deleteFile (okModes : UInt32) (root : NodeId) (file : Name) : VfsCall D Bool := do
  if okModes &&& fmDdelete = 0 then return false
  else
    match ← fsWalkPathExceptLast d.toDriver root file with
    | none => return false
    | some (n, name) => do
        if ((← theNode n).find name).isSome then return false
        else
          lockNode n
          let ret ← askDriver (d.delete n name)
          unlockNode n
          unrefFsNode d.toDriver n
          return ret

/-- `fs_open`. -/
def openFile (fs : FsRef) (file : Name) (mode : UInt32) : FsCall D (Option HandleId) := do
  let (okModes, root) ← modesAndRoot fs
  if mode &&& ~~~okModes ≠ 0 then return none
  else
    match ← onTree (nodeToOpen d.toDriver okModes root file mode) with
    | none => return none
    | some n => do
        match ← onTree (openFound d.toDriver n (mode &&& ~~~fmCreate)) with
        | none => return none
        | some h => do
            modify fun s => { s with fileFs := Function.update s.fileFs h fs }
            refFsOf fs
            return some h

/-- `fs_subfs`. -/
def makeSubfs (fs : FsRef) (root : Name) (okModes : UInt32) : FsCall D (Option Nat) := do
  let (fsModes, start) ← modesAndRoot fs
  match ← onTree (fsWalkPath d.toDriver start root) with
  | none => return none
  | some newRoot => do
      let k := (← get).nextSub
      putSub k (some { refs := 1, lock := false, okModes := okModes &&& fsModes, root := newRoot })
      modify fun s => { s with nextSub := s.nextSub + 1 }
      return some k

/-- `unref_file`. -/
def unrefFileOf (h : HandleId) : FsCall D Unit := do
  onTree (lockFile h)
  let file ← onTree (theFile h)
  onTree (putFile h (some { file with refs := file.refs - 1 }))
  if file.refs - 1 = 0 then
    onTree (tellDriver (d.close h))
    onTree (unrefFsNode d.toDriver file.node)
    unrefFsOf d ((← get).fileFs h)
    onTree (putFile h none)
  else onTree (unlockFile h)

end Calls

/-- A call, with what `strdup` and `malloc` find in `fs_move`. -/
inductive FsOp where
  | open (fs : FsRef) (file : Name) (mode : UInt32)
  | create (fs : FsRef) (file : Name) (type : UInt32)
  | delete (fs : FsRef) (file : Name)
  | move (mem : MoveMemory) (fs : FsRef) (old new : Name)
  | stat (fs : FsRef) (file : Name)
  | subfs (fs : FsRef) (root : Name) (okModes : UInt32)
  | ref (h : HandleId)
  | unref (h : HandleId)
  | refFs (fs : FsRef)
  | unrefFs (fs : FsRef)
  deriving DecidableEq

/-- The call, without its result. -/
def FsOp.run (d : FsDriver D) : FsOp → FsCall D Unit
  | .open fs file mode => do let _ ← openFile d fs file mode
  | .create fs file type => do
      let (okModes, root) ← modesAndRoot fs
      let _ ← onTree (createFile d.toDriver okModes root file type)
  | .delete fs file => do
      let (okModes, root) ← modesAndRoot fs
      let _ ← onTree (deleteFile d okModes root file)
  | .move mem fs old new => do
      let (okModes, root) ← modesAndRoot fs
      let _ ← onTree (fsMove d.toMoveDriver mem okModes root old new)
  | .stat fs file => do
      let (_, root) ← modesAndRoot fs
      let _ ← onTree (statFile d.toDriver root file)
  | .subfs fs root okModes => do let _ ← makeSubfs d fs root okModes
  | .ref h => onTree (refFile h)
  | .unref h => unrefFileOf d h
  | .refFs fs => refFsOf fs
  | .unrefFs fs => unrefFsOf d fs

end Kogata.Kernel
