import Kogata.Common.Btree
import Kogata.Kernel.Halt
import Mathlib.Logic.Function.Basic
import Mathlib.Algebra.GroupWithZero.Nat

/-!
# The state of the virtual memory code

The objects of `kernel/user/pager.c` and of the memory half of `kernel/user/process.c`: pagers,
user regions and processes, in heaps addressed by identities. `Machine` is everything below and
around that code: the allocators, the page directories, the bytes behind mapped pages, and the
file system drivers. Each of its answers is an arbitrary function of a world that only the
machine reads, so that a result about every machine holds however allocations fail.
-/

namespace Kogata.Kernel

open Kogata.Common

/-- `PAGE_SIZE`. -/
abbrev pageSize : UInt32 := 0x1000
/-- `PAGE_MASK`. -/
abbrev pageMask : UInt32 := 0xFFFFF000
/-- `K_HIGHHALF_ADDR`. -/
abbrev kHighhalfAddr : UInt32 := 0xC0000000

/-- `PAGE_ALIGNED(x)`. -/
def pageAligned (x : UInt32) : Bool :=
  x &&& ~~~pageMask == 0

/-- `PAGE_ALIGN_DOWN(x)`. -/
def pageAlignDown (x : UInt32) : UInt32 :=
  x &&& pageMask

/-- `PAGE_ALIGN_UP(x)`. -/
def pageAlignUp (x : UInt32) : UInt32 :=
  if x &&& ~~~pageMask = 0 then x else (x &&& pageMask) + pageSize

/-- `MM_READ`. -/
abbrev mmRead : UInt16 := 0x01
/-- `MM_WRITE`. -/
abbrev mmWrite : UInt16 := 0x02

/-- `PTE_PRESENT`. -/
abbrev ptePresent : UInt32 := 0x01
/-- `PTE_RW`. -/
abbrev pteRw : UInt32 := 0x02
/-- `PTE_ACCESSED`. -/
abbrev pteAccessed : UInt32 := 0x20
/-- `PTE_DIRTY`. -/
abbrev pteDirty : UInt32 := 0x40

/-- The identity of a `user_region_t`. -/
abbrev RegionId := Nat
/-- The identity of a `pager_t`. -/
abbrev PagerId := Nat
/-- The identity of a `process_t` and of its page directory. -/
abbrev ProcId := Nat

/-- The fields of an `fs_handle_t` that the memory code reads: the handle's identity, its mode
and the pager of its node. -/
structure FsHandle where
  id : Nat
  mode : UInt32
  pager : Option PagerId
  deriving DecidableEq

/-- `user_region_t`, without its two list links: the lists are lists of identities here. -/
structure UserRegion where
  proc : ProcId
  addr : UInt32
  size : UInt32
  file : Option FsHandle
  pager : Option PagerId
  offset : UInt32
  ownPager : Bool
  mode : UInt16
  deriving DecidableEq

/-- The memory fields of a `process_t`. -/
structure Process where
  regions : List RegionId
  regionsIdx : Option (Btree idKeyCmpFun RegionId)
  lock : Bool

/-- The node behind a VFS pager and which of the driver's operations are not null. -/
structure VfsPager where
  node : Nat
  canRead : Bool
  canWrite : Bool
  canResize : Bool
  deriving DecidableEq

/-- `pager_t.ops` together with the part of the union that goes with it. -/
inductive PagerOps where
  | swap (allowResize : Bool)
  | vfs (vfsPager : VfsPager)
  | device (physOffset : UInt32)
  deriving DecidableEq

/-- `pager_t`. The hash table `pages` is a function, with `0` where `hashtbl_find` gives `0`. -/
structure Pager where
  ops : PagerOps
  size : UInt32
  pages : UInt32 → UInt32
  lock : Bool
  maps : List RegionId

/-- Where an address is looked up: in the kernel half, or in a process's page directory. -/
inductive Space where
  | kernel
  | user (proc : ProcId)
  deriving DecidableEq

/-- What the memory code calls and does not contain. `0` is the null answer of `regionAlloc`
and `frameAlloc`. -/
structure Machine (W : Type) where
  /-- Whether a `malloc` of the C code succeeds, also inside `hashtbl_add` and `btree_add`. -/
  malloc : W → Bool × W
  /-- The stale contents of a block that becomes a `user_region_t`. -/
  mallocRegion : W → Option UserRegion × W
  regionAlloc : UInt32 → W → UInt32 × W
  regionFree : UInt32 → W → W
  frameAlloc : W → UInt32 × W
  frameFree : UInt32 → W → W
  freeSomeMemory : W → W
  pdGetEntry : Space → UInt32 → W → UInt32 × W
  pdMapPage : Space → UInt32 → UInt32 → Bool → W → Bool × W
  pdUnmapPage : Space → UInt32 → W → W
  /-- The byte at an address of the kernel half. -/
  load : UInt32 → W → UInt8
  store : UInt32 → List UInt8 → W → W
  /-- The driver's `read` into the kernel half: node, offset, length, destination. -/
  vfsRead : Nat → UInt32 → UInt32 → UInt32 → W → UInt32 × W
  vfsWrite : Nat → UInt32 → UInt32 → UInt32 → W → UInt32 × W
  vfsResize : Nat → UInt32 → W → Bool × W
  refFile : Nat → W → W
  unrefFile : Nat → W → W

/-- A machine on which nothing fails and no answer but the frame that is taken changes. -/
def Machine.quiet (frameAlloc : W → UInt32 × W) : Machine W where
  malloc := fun w => (true, w)
  mallocRegion := fun w =>
    (some { proc := 0, addr := 0, size := 0, file := none, pager := none, offset := 0,
            ownPager := false, mode := 0 }, w)
  regionAlloc := fun _ w => (0xC1000000, w)
  regionFree := fun _ w => w
  frameAlloc := frameAlloc
  frameFree := fun _ w => w
  freeSomeMemory := fun w => w
  pdGetEntry := fun _ _ w => (0, w)
  pdMapPage := fun _ _ _ _ w => (true, w)
  pdUnmapPage := fun _ _ w => w
  load := fun _ _ => 0
  store := fun _ _ w => w
  vfsRead := fun _ _ len _ w => (len, w)
  vfsWrite := fun _ _ len _ w => (len, w)
  vfsResize := fun _ _ w => (true, w)
  refFile := fun _ w => w
  unrefFile := fun _ w => w

/-- A machine on which nothing fails and every answer stays the same. -/
def Machine.steady : Machine Unit := .quiet fun w => (0x100, w)

/-- The machine's world and the heaps. Identities below `next` have been allocated. -/
structure Vm (W : Type) where
  world : W
  region : RegionId → UserRegion
  pager : PagerId → Pager
  proc : ProcId → Process
  next : Nat

/-- The memory fields of a process that `new_process` has made. -/
def Process.new : Process :=
  { regions := [], regionsIdx := some Btree.create, lock := false }

/-- A state in which every process is new and nothing has been allocated. -/
def Vm.blank : Vm Unit where
  world := ()
  region := fun _ => { proc := 0, addr := 0, size := 0, file := none, pager := none, offset := 0,
                       ownPager := false, mode := 0 }
  pager := fun _ => { ops := .swap false, size := 0, pages := fun _ => 0, lock := false, maps := [] }
  proc := fun _ => Process.new
  next := 0

/-- A call of the memory code. -/
abbrev Call (W α : Type) := StateT (Vm W) (Except Halt) α

variable {W : Type}

/-- Ask the machine. -/
def ask {α : Type} (question : W → α × W) : Call W α :=
  modifyGet fun s => let (answer, world) := question s.world; (answer, { s with world := world })

/-- Tell the machine. -/
def tell (change : W → W) : Call W Unit :=
  modify fun s => { s with world := change s.world }

/-- The `len` bytes at an address of the kernel half. -/
def Machine.loadBytes (m : Machine W) (addr len : UInt32) (world : W) : List UInt8 :=
  (List.range len.toNat).map fun i => m.load (addr + UInt32.ofNat i) world

/-- `memset(addr, 0, len)` in the kernel half. -/
def Machine.clear (m : Machine W) (addr len : UInt32) : W → W :=
  m.store addr (List.replicate len.toNat 0)

/-- `ASSERT(cond)`. -/
def assert (cond : Bool) : Call W Unit :=
  if cond then pure () else throw .panic

/-- The fields of a pager. -/
def thePager (p : PagerId) : Call W Pager := do
  return (← get).pager p

/-- Write the fields of a pager. -/
def setPager (p : PagerId) (change : Pager → Pager) : Call W Unit :=
  modify fun s => { s with pager := Function.update s.pager p (change (s.pager p)) }

/-- The fields of a region. -/
def theRegion (r : RegionId) : Call W UserRegion := do
  return (← get).region r

/-- Write the fields of a region. -/
def setRegion (r : RegionId) (change : UserRegion → UserRegion) : Call W Unit :=
  modify fun s => { s with region := Function.update s.region r (change (s.region r)) }

/-- The fields of a process. -/
def theProc (p : ProcId) : Call W Process := do
  return (← get).proc p

/-- Write the fields of a process. -/
def setProc (p : ProcId) (change : Process → Process) : Call W Unit :=
  modify fun s => { s with proc := Function.update s.proc p (change (s.proc p)) }

/-- An identity for a block just allocated. -/
def fresh : Call W Nat :=
  modifyGet fun s => (s.next, { s with next := s.next + 1 })

/-- How often the body of `for (x = first; x < first + len; x += PAGE_SIZE)` runs before the
counter reaches the bound or wraps around. -/
def pageSteps (first len : UInt32) : Nat :=
  ((first + len).toNat - first.toNat + 4095) / 4096

/-- The values that the counter of that loop takes before it wraps around. -/
def pagesOf (first len : UInt32) : List UInt32 :=
  (List.range (pageSteps first len)).map fun i => first + UInt32.ofNat i * pageSize

/-- The counter of that loop wraps around, so that it never reaches the bound. -/
def pagesWrap (first len : UInt32) : Bool :=
  first.toNat + pageSteps first len * 4096 ≥ 2 ^ 32

/-- `for (x = first; x < first + len; x += PAGE_SIZE) body`, for a body without a jump out. -/
def forPages (first len : UInt32) (body : UInt32 → Call W Unit) : Call W Unit := do
  (pagesOf first len).forM body
  if pagesWrap first len then throw .diverge

end Kogata.Kernel
