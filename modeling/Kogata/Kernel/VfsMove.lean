import Kogata.Kernel.VfsRefs

/-!
# Moving files

`fs_move` of `kernel/user/vfs.c` on the tree of the nodes in memory, for any file system: its root
is some live node, and references that others have to nodes are allowed for. Here the two calls
that allocate memory, `strdup` and `hashtbl_add`, may fail. The calls of the driver's `move` are
logged in the driver's state.
-/

namespace Kogata.Kernel

open Lib.Effect

/-- What the driver gets as its first argument: a node, or the `data` of one. -/
inductive MoveSource where
  | node (n : NodeId)
  | data (n : NodeId)
  deriving DecidableEq

/-- The arguments of the driver's `move`. -/
structure MoveCall where
  source : MoveSource
  oldName : Name
  newParent : NodeId
  newName : Name
  deriving DecidableEq

/-- A driver with `move`, which a node may lack. -/
structure MoveDriver (D : Type) extends Driver D where
  canMove : NodeId → D → Bool
  move : MoveCall → D → Bool × D

/-- What `strdup` and the `malloc` of `hashtbl_add` find. -/
structure MoveMemory where
  strdup : Bool
  item : Bool
  deriving DecidableEq

variable {D : Type}

/-- The driver on its state with a log of the calls of `move`, the last first. -/
def MoveDriver.logged (d : MoveDriver D) : MoveDriver (D × List MoveCall) where
  walk := fun base file n s => let (b, x) := d.walk base file n s.1; (b, x, s.2)
  openNode := fun n mode s => let (b, x) := d.openNode n mode s.1; (b, x, s.2)
  create := fun n name type s => let (b, x) := d.create n name type s.1; (b, x, s.2)
  stat := fun n s => let (b, x) := d.stat n s.1; (b, x, s.2)
  close := fun h s => (d.close h s.1, s.2)
  dispose := fun n s => (d.dispose n s.1, s.2)
  shutdown := fun s => (d.shutdown s.1, s.2)
  canMove := fun n s => d.canMove n s.1
  move := fun call s => let (b, x) := d.move call s.1; (b, x, call :: s.2)

section Model

variable (d : MoveDriver D) (mem : MoveMemory)

/-- `hashtbl_add(n->children, name, c)`. -/
def addChild (n : NodeId) (name : Name) (c : NodeId) (item : Bool) : VfsCall D Bool := do
  if !item then return false
  else
    let nd ← theNode n
    match nd.children with
    | none => throw .wild
    | some _ => do
        putNode n (some (nd.bind name c))
        return true

/-- `fs_move` with the lock of the node that is moved. -/
def moveNode (oldParent : NodeId) (oldName : Name) (newParent : NodeId) (newName : Name)
    (theNode : NodeId) : VfsCall D Bool := do
  if !mem.strdup then return false
  else if !(← addChild newParent newName theNode mem.item) then return false
  else
    let ret ← askDriver (d.move { source := .node oldParent, oldName := oldName
                                  newParent := newParent, newName := newName })
    if ret then
      removeChild oldParent oldName
      changeNode theNode fun nd => { nd with name := newName, parent := some newParent }
    else removeChild newParent newName
    return ret

/-- `fs_move` between the locks of the two directories. A node that is not in memory is moved by
the driver alone, which gets `old_parent->data`. -/
def moveLocked (oldParent : NodeId) (oldName : Name) (newParent : NodeId) (newName : Name) :
    VfsCall D Bool := do
  lockNode oldParent
  lockNode newParent
  let ret ← (match (← theNode oldParent).find oldName with
    | some theNode => do
        lockNode theNode
        let ret ← moveNode d mem oldParent oldName newParent newName theNode
        unlockNode theNode
        return ret
    | none => askDriver (d.move { source := .data oldParent, oldName := oldName
                                  newParent := newParent, newName := newName }))
  unlockNode oldParent
  unlockNode newParent
  return ret

/-- `old_parent->ops->move` is not null. -/
def hasMove (n : NodeId) : VfsCall D Bool := do
  return d.canMove n (← get).driver

/-- `fs_move` behind the two walks. -/
def moveBetween (oldParent : NodeId) (oldName : Name) (newParent : NodeId) (newName : Name) :
    VfsCall D Bool := do
  let ret ← (do
    if ← hasMove d oldParent then moveLocked d mem oldParent oldName newParent newName
    else return false)
  unrefFsNode d.toDriver oldParent
  unrefFsNode d.toDriver newParent
  return ret

/-- `fs_move` on a file system with these modes and this root. -/
def fsMove (okModes : UInt32) (root : NodeId) (old new : Name) : VfsCall D Bool := do
  if okModes &&& fmDmove = 0 then return false
  else
    match ← fsWalkPathExceptLast d.toDriver root old with
    | none => return false
    | some (oldParent, oldName) => do
        match ← fsWalkPathExceptLast d.toDriver root new with
        | none => do
            unrefFsNode d.toDriver oldParent
            return false
        | some (newParent, newName) => moveBetween d mem oldParent oldName newParent newName

end Model

/-- The nodes in memory have the counts, the names, the parents and the bindings that they had, and
no other node is in memory. -/
def SameTree (s s' : Vfs D) : Prop :=
  ∀ n, (s.node n = none ∧ s'.node n = none) ∨ ∃ nd nd', s.node n = some nd ∧ s'.node n = some nd' ∧
    nd'.refs = nd.refs ∧ nd'.name = nd.name ∧ nd'.parent = nd.parent ∧
    ∀ name, nd'.find name = nd.find name

/-- Every node but the root is bound under its own name in the table of its parent, tables bind
nothing else, and the reference counts are exact. -/
structure Consistent (s : Vfs D) (held : NodeId → Nat) : Prop where
  bound : ∀ c cd, s.node c = some cd → c ≠ fsRoot →
    ∃ p pd, cd.parent = some p ∧ s.node p = some pd ∧ pd.find cd.name = some c
  entry : ∀ p pd name c, s.node p = some pd → pd.find name = some c →
    ∃ cd, s.node c = some cd ∧ cd.parent = some p ∧ cd.name = name
  exact : ∀ n nd, s.node n = some nd →
    nd.refs = s.childCount n + s.handleCount n + held n + if n = fsRoot then 1 else 0

/-- The node is bound in the directory under the name and nowhere else, and its fields say so. -/
def MovedTo (s : Vfs D) (c p : NodeId) (name : Name) : Prop :=
  (∃ cd, s.node c = some cd ∧ cd.name = name ∧ cd.parent = some p) ∧
    ∀ q qd name', s.node q = some qd → (qd.find name' = some c ↔ q = p ∧ name' = name)

/-- The outcome of `fs_move`: it comes back; the driver has been asked at most once, with the right
arguments; nothing has changed where the answer is `false`; and where it is `true`, the moved node
is in its new place in a consistent tree. -/
def Transaction (held : NodeId → Nat) (oldParent : NodeId) (oldName : Name) (newParent : NodeId)
    (newName : Name) (moved : Option NodeId) (s : Vfs (D × List MoveCall))
    (outcome : Except Halt (Bool × Vfs (D × List MoveCall))) : Prop :=
  ∃ ret s', outcome = .ok (ret, s') ∧
    (s'.driver.2 = s.driver.2 ∨ s'.driver.2 =
      { source := .node oldParent, oldName := oldName
        newParent := newParent, newName := newName } :: s.driver.2) ∧
    (ret = false → SameTree s s') ∧
    (ret = true → Consistent s' held ∧ ∀ c, moved = some c → MovedTo s' c newParent newName)

/-- The directory binds the name. -/
def Vfs.childOf (s : Vfs D) (n : NodeId) (name : Name) : Option NodeId :=
  (s.node n).bind fun nd => nd.find name

/-- The directory has a table. -/
def Vfs.hasTable (s : Vfs D) (n : NodeId) : Prop :=
  ∃ nd, s.node n = some nd ∧ nd.children ≠ none

/-- The driver answers that the node may not be moved. -/
def MoveDriver.refuses (d : MoveDriver D) (oldParent : NodeId) (oldName : Name)
    (newParent : NodeId) (newName : Name) (driver : D) : Prop :=
  (d.move { source := .node oldParent, oldName := oldName
            newParent := newParent, newName := newName } driver).1 = false

/-- Behind the walks the move is refused, before the driver is asked or by the driver: the node is
in memory and not the new directory itself, and where memory is left, the new directory has a
table that does not bind the new name. -/
def MoveRefused (d : MoveDriver D) (mem : MoveMemory) (s : Vfs (D × List MoveCall))
    (oldParent : NodeId) (oldName : Name) (newParent : NodeId) (newName : Name) : Prop :=
  d.canMove oldParent s.driver.1 = false ∨
    ∃ c, s.childOf oldParent oldName = some c ∧ c ≠ newParent ∧
      (mem.strdup = false ∨ mem.item = false ∨
        s.hasTable newParent ∧ s.childOf newParent newName = none ∧
          d.refuses oldParent oldName newParent newName s.driver.1)

end Kogata.Kernel
