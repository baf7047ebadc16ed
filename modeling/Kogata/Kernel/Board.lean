import Kogata.Kernel.Process
import Kogata.Lib.Word

/-!
# A machine with page tables and memory

`Board` is a machine under the memory code whose page tables, frame bitmap and memory are there to
look at. An entry is kept by its page number, the kernel half is shared by all page directories,
and a byte of memory by its frame and its offset in it. Whether an allocation succeeds, and which
free range or frame it gives, is still the answer of an arbitrary machine: `board` turns down an
answer that `region.c` or `frame.c` cannot give. Every call is recorded, with its answer.
-/

namespace Kogata.Kernel

/-- `PD_MIRROR_ADDR`. -/
abbrev pdMirrorAddr : UInt32 := 0xFFC00000
/-- `PTE_USER`. -/
abbrev pteUser : UInt32 := 0x04
/-- `PTE_GLOBAL`. -/
abbrev pteGlobal : UInt32 := 0x100

/-- The driver behind VFS pagers: what its `read` puts into the buffer, and how much its `write`
takes. -/
structure Backing (W : Type) where
  read : Nat → UInt32 → UInt32 → W → List UInt8 × W
  write : Nat → UInt32 → List UInt8 → W → UInt32 × W

/-- A call of the machine, with its answer. -/
inductive MachineCall where
  | malloc (ok : Bool)
  | regionAlloc (len region : UInt32)
  | frameAlloc (frame : UInt32)
  | frameFree (frame : UInt32)
  | mapPage (space : Space) (addr frame : UInt32) (ok : Bool)
  | store (addr : UInt32) (len : Nat)
  | read (node : Nat) (offset len : UInt32) (bytes : List UInt8)
  | write (node : Nat) (offset : UInt32) (bytes : List UInt8) (count : UInt32)
  deriving DecidableEq

/-- The calls that have been added to a record. -/
def newCalls (before after : List MachineCall) : List MachineCall :=
  after.take (after.length - before.length)

/-- The calls of an operation that are not on the record before it are the new ones. -/
theorem new_calls_append (new calls : List MachineCall) : newCalls calls (new ++ calls) = new := by
  simp [newCalls]

/-- The world of a machine, the frame bitmap, the page tables, the memory, and the calls so far
with the last one first. -/
structure Board (W : Type) where
  world : W
  frameBitset : UInt32 → Bool
  entry : Space → Nat → UInt32
  ram : UInt32 → Nat → UInt8
  calls : List MachineCall

/-- The number of the page of an address. -/
def pageNo (addr : UInt32) : Nat :=
  addr.toNat / 4096

/-- The page directory that an address is looked up in: the kernel half is the same in all. -/
def Space.seenAt (space : Space) (addr : UInt32) : Space :=
  if addr ≥ kHighhalfAddr then .kernel else space

/-- A range that `region_alloc` may give: whole pages of the kernel half, below the mirror of the
page directory. -/
def fitsKernel (region len : UInt32) : Bool :=
  pageAligned region && kHighhalfAddr ≤ region &&
    decide (region.toNat + len.toNat ≤ pdMirrorAddr.toNat)

variable {W : Type}

namespace Board

variable (b : Board W)

/-- The entry of an address, as it stands in its page table. -/
def entryAt (space : Space) (addr : UInt32) : UInt32 :=
  b.entry (space.seenAt addr) (pageNo addr)

/-- The address is mapped. -/
def present (space : Space) (addr : UInt32) : Bool :=
  b.entryAt space addr &&& ptePresent != 0

/-- The frame and the offset of an address of the kernel half. -/
def locates (addr frame : UInt32) (offset : Nat) : Bool :=
  b.present .kernel addr && b.entryAt .kernel addr >>> 12 == frame &&
    addr.toNat % 4096 == offset

/-- The byte at an address of the kernel half. -/
def byteAt (addr : UInt32) : UInt8 :=
  b.ram (b.entryAt .kernel addr >>> 12) (addr.toNat % 4096)

/-- Write an entry. -/
def setEntry (space : Space) (addr entry : UInt32) : Board W :=
  let table := Function.update (b.entry (space.seenAt addr)) (pageNo addr) entry
  { b with entry := Function.update b.entry (space.seenAt addr) table }

/-- Write bytes to the kernel half. Pages that are not mapped take nothing. -/
def storeAt (addr : UInt32) (bytes : List UInt8) : Board W :=
  { b with ram := fun frame offset =>
      match (List.range bytes.length).find? fun i =>
        b.locates (addr + UInt32.ofNat i) frame offset with
      | some i => bytes.getD i 0
      | none => b.ram frame offset }

/-- Put a call on the record. -/
def record (call : MachineCall) : Board W :=
  { b with calls := call :: b.calls }

/-- Ask the machine below. -/
def lift {α : Type} (question : W → α × W) : α × Board W :=
  ((question b.world).1, { b with world := (question b.world).2 })

/-- The entry that `pd_map_page` writes. -/
def mappedEntry (addr frame : UInt32) (rw : Bool) : UInt32 :=
  (frame <<< 12) ||| ptePresent ||| (if addr < kHighhalfAddr then pteUser else pteGlobal) |||
    (if rw then pteRw else 0)

/-- A frame that the bitmap may give. -/
def mayGive (frame : UInt32) : Bool :=
  frame != 0 && decide (frame.toNat < 2 ^ 20) && !b.frameBitset frame

end Board

variable (m : Machine W) (d : Backing W)

/-- The machine on a board. -/
def board : Machine (Board W) where
  malloc := fun b =>
    let (ok, b) := b.lift m.malloc
    (ok, b.record (.malloc ok))
  mallocRegion := fun b => b.lift m.mallocRegion
  regionAlloc := fun len b =>
    let (answer, b) := b.lift (m.regionAlloc len)
    let region := if fitsKernel answer len then answer else 0
    (region, b.record (.regionAlloc len region))
  regionFree := fun addr b => { b with world := m.regionFree addr b.world }
  frameAlloc := fun b =>
    let (answer, b) := b.lift m.frameAlloc
    let frame := if b.mayGive answer then answer else 0
    (frame, { b with
      frameBitset := if frame = 0 then b.frameBitset else Function.update b.frameBitset frame true
      calls := .frameAlloc frame :: b.calls })
  frameFree := fun frame b =>
    { b with world := m.frameFree frame b.world
             frameBitset := Function.update b.frameBitset frame false
             calls := .frameFree frame :: b.calls }
  freeSomeMemory := fun b => { b with world := m.freeSomeMemory b.world }
  pdGetEntry := fun space addr b => (if b.present space addr then b.entryAt space addr else 0, b)
  pdMapPage := fun space addr frame rw b =>
    let (ok, b) := b.lift (m.pdMapPage space addr frame rw)
    (ok, (if ok then b.setEntry space addr (Board.mappedEntry addr frame rw) else b).record
      (.mapPage space addr frame ok))
  pdUnmapPage := fun space addr b =>
    if b.present space addr then b.setEntry space addr 0 else b
  load := fun addr b => b.byteAt addr
  store := fun addr bytes b => (b.storeAt addr bytes).record (.store addr bytes.length)
  vfsRead := fun node offset len addr b =>
    let (bytes, b) := b.lift (d.read node offset len)
    (UInt32.ofNat bytes.length, (b.storeAt addr bytes).record (.read node offset len bytes))
  vfsWrite := fun node offset len addr b =>
    let bytes := (List.range len.toNat).map fun i => b.byteAt (addr + UInt32.ofNat i)
    let (count, b) := b.lift (d.write node offset bytes)
    (count, b.record (.write node offset bytes count))
  vfsResize := fun node newSize b => b.lift (m.vfsResize node newSize)
  refFile := fun f b => { b with world := m.refFile f b.world }
  unrefFile := fun f b => { b with world := m.unrefFile f b.world }

/-- A machine that gives one frame after another, and on which nothing fails. -/
def Machine.counting : Machine UInt32 := .quiet fun w => (w, w + 1)

/-- A driver that reads zeros and takes everything. -/
def Backing.zeros : Backing UInt32 where
  read := fun _ _ len w => (List.replicate len.toNat 0, w)
  write := fun _ _ bytes w => (UInt32.ofNat bytes.length, w)

/-- A state in which every process is new, no page is mapped and no frame has been given. -/
def Vm.boardBlank : Vm (Board UInt32) where
  world := { world := 0x100, frameBitset := fun _ => false, entry := fun _ _ => 0
             ram := fun _ _ => 0, calls := [] }
  region := fun _ => { proc := 0, addr := 0, size := 0, file := none, pager := none, offset := 0,
                       ownPager := false, mode := 0 }
  pager := fun _ => { ops := .swap false, size := 0, pages := fun _ => 0, lock := false
                      maps := [] }
  proc := fun _ => Process.new
  next := 0

end Kogata.Kernel
