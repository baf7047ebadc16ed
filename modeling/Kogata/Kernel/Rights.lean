import Kogata.Kernel.RegionIndex
import Mathlib.Logic.Relation

/-!
# Rights on file systems and files

The system calls of `kernel/user/syscall.c` that make and hand on file systems and file handles,
for any number of processes: `fs_subfs`, `fs_open`, `fs_create`, `fs_delete` and `fs_move` of
`kernel/user/vfs.c` with the tests of their modes, `fctl`, and the mapping calls on the memory of
the processes. What a walk finds, what the driver answers and whether memory is left are
parameters of a call. An object that has been freed keeps its entry.
-/

namespace Kogata.Kernel.Rights

open Lib.Run

/-- `FM_ALL_MODES`. -/
abbrev fmAllModes : UInt32 := 0xFFFF

/-- The identity of an `fs_t`: its place in the list of file systems. -/
abbrev FsNo := Nat
/-- The identity of an `fs_handle_t`: its place in the list of handles. -/
abbrev HandleNo := Nat

/-- The fields of an `fs_t` that the tests read. -/
structure Filesystem where
  okModes : UInt32
  fromFs : Option FsNo
  deriving DecidableEq

/-- The fields of an `fs_handle_t`, with the pager of its node. A handle of `kernel/user/ipc.c` has
no file system. -/
structure OpenHandle where
  mode : UInt32
  fs : Option FsNo
  pager : Option PagerId
  deriving DecidableEq

/-- What a driver is asked to do to a directory. -/
inductive DirOp where
  | create
  | delete
  | move
  deriving DecidableEq

/-- The mode that the file system must grant. -/
def DirOp.right : DirOp → UInt32
  | .create => fmDcreate
  | .delete => fmDdelete
  | .move => fmDmove

/-- File systems, handles, and for each process its memory, its file systems and its files.
`asked` are the calls of `create`, `delete` and `move` that have come to a driver, each with the
file system that it was made on. -/
structure Kern (N W : Type) where
  vm : Vm W
  fss : List Filesystem
  handles : List OpenHandle
  filesystems : ProcId → N → Option FsNo
  files : ProcId → Int32 → Option HandleNo
  nextFd : ProcId → Int32
  asked : List (DirOp × FsNo)

variable {N W : Type} [DecidableEq N]

section Vfs

omit [DecidableEq N]

/-- `make_fs`, with whether the driver has made the file system. -/
def makeFs (s : Kern N W) (made : Bool) : Option FsNo × Kern N W :=
  if made then
    (some s.fss.length, { s with fss := s.fss ++ [{ okModes := fmAllModes, fromFs := none }] })
  else (none, s)

/-- `fs_subfs`, with whether the walk comes to a node and memory is left. -/
def fsSubfs (s : Kern N W) (fs : FsNo) (okModes : UInt32) (walked : Bool) :
    Option FsNo × Kern N W :=
  match s.fss[fs]? with
  | none => (none, s)
  | some orig =>
      if walked then
        (some s.fss.length,
          { s with fss := s.fss ++ [{ okModes := okModes &&& orig.okModes, fromFs := some fs }] })
      else (none, s)

/-- What `fs_create`, `fs_delete` and `fs_move` share: the test of the mode, the walks, and the
driver's operation, if it has one. -/
def dirCall (op : DirOp) (s : Kern N W) (fs : FsNo) (walked answer : Bool) : Bool × Kern N W :=
  match s.fss[fs]? with
  | none => (false, s)
  | some fsys =>
      if fsys.okModes &&& op.right = 0 then (false, s)
      else if walked then (answer, { s with asked := (op, fs) :: s.asked })
      else (false, s)

/-- `fs_create`. -/
def fsCreate (s : Kern N W) (fs : FsNo) (walked answer : Bool) : Bool × Kern N W :=
  dirCall .create s fs walked answer

/-- `fs_delete`. -/
def fsDelete (s : Kern N W) (fs : FsNo) (walked answer : Bool) : Bool × Kern N W :=
  dirCall .delete s fs walked answer

/-- `fs_move`. -/
def fsMove (s : Kern N W) (fs : FsNo) (walked answer : Bool) : Bool × Kern N W :=
  dirCall .move s fs walked answer

/-- What happens in `fs_open`: whether the first walk finds the file; in `fs_create`, whether its
walk comes to a directory and what the driver answers; whether the second walk finds the file; and
whether memory is left and the driver opens the node, which has this pager. -/
structure OpenAnswers where
  found : Bool
  walked : Bool
  created : Bool
  foundAgain : Bool
  opened : Bool
  pager : Option PagerId
  deriving DecidableEq

/-- The walk of `fs_open`, with `fs_create` where it finds nothing. -/
def findOrCreate (s : Kern N W) (fs : FsNo) (mode : UInt32) (a : OpenAnswers) :
    Bool × Kern N W :=
  if a.found then (true, s)
  else if mode &&& fmCreate ≠ 0 then
    let (made, s) := fsCreate s fs a.walked a.created
    (made && a.foundAgain, s)
  else (false, s)

/-- `fs_open`. -/
def fsOpen (s : Kern N W) (fs : FsNo) (mode : UInt32) (a : OpenAnswers) :
    Option HandleNo × Kern N W :=
  match s.fss[fs]? with
  | none => (none, s)
  | some fsys =>
      if mode &&& ~~~fsys.okModes ≠ 0 then (none, s)
      else
        let (there, s) := findOrCreate s fs mode a
        if there && a.opened then
          (some s.handles.length,
            { s with
              handles := s.handles ++
                [{ mode := mode &&& ~~~fmCreate, fs := some fs, pager := a.pager }] })
        else (none, s)

end Vfs

section Tables

/-- `proc_add_fs`, with whether memory is left and the process has not ended. -/
def procAddFs (s : Kern N W) (p : ProcId) (fs : FsNo) (name : N) (added : Bool) : Kern N W :=
  if (s.filesystems p name).isSome || !added then s
  else
    { s with
      filesystems := Function.update s.filesystems p
        (Function.update (s.filesystems p) name (some fs)) }

/-- `proc_rm_fs`. -/
def procRmFs (s : Kern N W) (p : ProcId) (name : N) : Kern N W :=
  { s with
    filesystems := Function.update s.filesystems p
      (Function.update (s.filesystems p) name none) }

omit [DecidableEq N]

/-- `proc_add_fd`. -/
def procAddFd (s : Kern N W) (p : ProcId) (h : HandleNo) (added : Bool) : Kern N W :=
  let fd := s.nextFd p
  { s with
    nextFd := Function.update s.nextFd p (fd + 1)
    files := if added then Function.update s.files p (Function.update (s.files p) fd (some h))
             else s.files }

/-- `proc_add_fd_as`. -/
def procAddFdAs (s : Kern N W) (p : ProcId) (h : HandleNo) (fd : Int32) (added : Bool) :
    Kern N W :=
  if fd ≤ 0 || (s.files p fd).isSome then s
  else
    { s with
      nextFd := if fd ≥ s.nextFd p then Function.update s.nextFd p (fd + 1) else s.nextFd
      files := if added then Function.update s.files p (Function.update (s.files p) fd (some h))
               else s.files }

/-- `proc_close_fd`. -/
def procCloseFd (s : Kern N W) (p : ProcId) (fd : Int32) : Kern N W :=
  { s with files := Function.update s.files p (Function.update (s.files p) fd none) }

end Tables

section Modes

/-- `h->mode = mode`, where `h` is the handle of the region. -/
def setFileMode (h : HandleNo) (mode : UInt32) (reg : UserRegion) : UserRegion :=
  { reg with file := reg.file.map fun f => if f.id = h then { f with mode := mode } else f }

omit [DecidableEq N]

/-- `h->mode = mode`. A region has the handle itself, so that it sees the new mode. -/
def setMode (s : Kern N W) (h : HandleNo) (mode : UInt32) : Kern N W :=
  { s with
    handles := s.handles.modify h fun hd => { hd with mode := mode }
    vm := { s.vm with region := fun r => setFileMode h mode (s.vm.region r) } }

/-- `FC_GET_MODE`, `FC_SET_BLOCKING` and `FC_SET_NONBLOCKING`. -/
inductive Fctl where
  | getMode
  | setBlocking
  | setNonblocking
  deriving DecidableEq

/-- `fctl_sc` on a handle. -/
def fctl (s : Kern N W) (h : HandleNo) (hd : OpenHandle) : Fctl → Kern N W
  | .getMode => s
  | .setBlocking => setMode s h (hd.mode ||| fmBlocking)
  | .setNonblocking => setMode s h (hd.mode &&& ~~~fmBlocking)

/-- A mapping call of a process, which may halt the machine. -/
def mapping (m : Machine W) (s : Kern N W) (p : ProcId) (call : RegionCall) :
    Option (Kern N W) :=
  match call.perform m p s.vm with
  | .ok (_, vm) => some { s with vm := vm }
  | .error _ => none

end Modes

/-- A system call. `added` says that the new entry of a table has found memory, and that the
process has not ended. Whom a process may bind to, and what it may get by a token, is not asked. -/
inductive Event (N : Type) where
  | makeFs (target : ProcId) (name : N) (made added : Bool)
  | subfs (caller target : ProcId) (fromFs newName : N) (okModes : UInt32) (walked added : Bool)
  | bindFs (caller child : ProcId) (oldName newName : N) (added : Bool)
  | rmFs (caller : ProcId) (name : N)
  | dirCall (caller : ProcId) (name : N) (op : DirOp) (walked answer : Bool)
  | openFile (caller : ProcId) (name : N) (mode : UInt32) (answers : OpenAnswers) (added : Bool)
  | makeIpc (caller : ProcId) (mode : UInt32) (pager : Option PagerId) (added : Bool)
  | useToken (caller : ProcId) (h : HandleNo) (added : Bool)
  | bindFd (caller child : ProcId) (newFd fd : Int32) (added : Bool)
  | closeFd (caller : ProcId) (fd : Int32)
  | fctl (caller : ProcId) (fd : Int32) (command : Fctl)
  | mmap (caller : ProcId) (addr size mode : UInt32)
  | mmapFile (caller : ProcId) (fd : Int32) (offset addr size mode : UInt32)
  | mchmap (caller : ProcId) (addr mode : UInt32)
  | munmap (caller : ProcId) (addr : UInt32)
  deriving DecidableEq

/-- The object that a call has made goes into a table, or is dropped. -/
def keepNew {α : Type} (add : Kern N W → α → Kern N W) : Option α × Kern N W → Kern N W
  | (none, s) => s
  | (some a, s) => add s a

/-- The state after a system call, if the machine has not halted. -/
def step (m : Machine W) (s : Kern N W) : Event N → Option (Kern N W)
  | .makeFs target name made added =>
      some (keepNew (fun s fs => procAddFs s target fs name added) (makeFs s made))
  | .subfs caller target fromFs newName okModes walked added =>
      match s.filesystems caller fromFs with
      | none => some s
      | some fs =>
          some (keepNew (fun s fs => procAddFs s target fs newName added)
            (fsSubfs s fs okModes walked))
  | .bindFs caller child oldName newName added =>
      match s.filesystems caller oldName with
      | none => some s
      | some fs => some (procAddFs s child fs newName added)
  | .rmFs caller name => some (procRmFs s caller name)
  | .dirCall caller name op walked answer =>
      match s.filesystems caller name with
      | none => some s
      | some fs =>
          match op with
          | .create => some (fsCreate s fs walked answer).2
          | .delete => some (fsDelete s fs walked answer).2
          | .move => some (fsMove s fs walked answer).2
  | .openFile caller name mode answers added =>
      match s.filesystems caller name with
      | none => some s
      | some fs =>
          some (keepNew (fun s h => procAddFd s caller h added) (fsOpen s fs mode answers))
  | .makeIpc caller mode pager added =>
      some (procAddFd
        { s with handles := s.handles ++ [{ mode := mode, fs := none, pager := pager }] }
        caller s.handles.length added)
  | .useToken caller h added => some (procAddFd s caller h added)
  | .bindFd caller child newFd fd added =>
      match s.files caller fd with
      | none => some s
      | some h => some (procAddFdAs s child h newFd added)
  | .closeFd caller fd => some (procCloseFd s caller fd)
  | .fctl caller fd command =>
      match s.files caller fd with
      | none => some s
      | some h =>
          match s.handles[h]? with
          | none => none
          | some hd => some (fctl s h hd command)
  | .mmap caller addr size mode => mapping m s caller (.mmap addr size mode)
  | .mmapFile caller fd offset addr size mode =>
      match s.files caller fd with
      | none => some s
      | some h =>
          match s.handles[h]? with
          | none => none
          | some hd =>
              mapping m s caller
                (.mmapFile { id := h, mode := hd.mode, pager := hd.pager } offset addr size mode)
  | .mchmap caller addr mode => mapping m s caller (.mchmap addr mode)
  | .munmap caller addr => mapping m s caller (.munmap addr)

/-- Nothing has been made, and every process is new. -/
structure Kern.Initial (s : Kern N W) : Prop where
  fss : s.fss = []
  handles : s.handles = []
  asked : s.asked = []
  proc : ∀ p, s.vm.proc p = Process.new

/-- The runs of system calls. -/
abbrev runs (m : Machine W) : System (Kern N W) :=
  eventRuns Kern.Initial (step m) fun _ _ => True

end Kogata.Kernel.Rights
