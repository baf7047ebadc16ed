import Kogata.Kernel.Memory
import Kogata.Lib.PageTable
import Kogata.Lib.Run
import Kogata.Lib.Word

/-!
# Page directories

`kernel/core/paging.c`, step by step in any number of threads. The tables are words of page frames,
and `current_pt` and `current_pd` are translated through the directory in `cr3` as the processor
does, with `page_fault_handler` where an entry is not present. A frame is used as a directory or as
a table of one from `frame_alloc` to `frame_free`; `State.use` keeps account of that.
-/

namespace Kogata.Kernel.PageDirectory

open Lib.PageTable Lib.Run

/-- `PTE_USER`. -/
abbrev pteUser : UInt32 := 0x04
/-- `PTE_GLOBAL`. -/
abbrev pteGlobal : UInt32 := 0x100
/-- `FIRST_KERNEL_PT`. -/
abbrev firstKernelPt : Nat := 768
/-- `N_PAGES_IN_PT - 1`. -/
abbrev mirrorPt : Nat := 1023
/-- `PD_MIRROR_ADDR`. -/
abbrev pdMirrorAddr : UInt32 := 0xFFC00000

/-- `PT_OF_ADDR`. -/
def ptOfAddr (vaddr : UInt32) : Nat :=
  (vaddr >>> 22).toNat

/-- `PAGE_OF_ADDR`. -/
def pageOfAddr (vaddr : UInt32) : Nat :=
  ((vaddr >>> 12) % 1024).toNat

/-- An entry without the flags. -/
def frameOf (entry : UInt32) : UInt32 :=
  entry >>> 12

/-- An entry of a directory or a table. -/
def entryOf (frame flags : UInt32) : UInt32 :=
  (frame <<< 12) ||| flags

/-- The entry of a page directory for a table. -/
def tableEntry (frame : UInt32) (vaddr : UInt32) : UInt32 :=
  entryOf frame (ptePresent ||| pteRw ||| if vaddr < kHighhalfAddr then pteUser else 0)

/-- The entry of a table for a page. -/
def pageEntry (frame : UInt32) (vaddr : UInt32) (rw : Bool) : UInt32 :=
  entryOf frame (ptePresent ||| (if vaddr < kHighhalfAddr then pteUser else pteGlobal) |||
    if rw then pteRw else 0)

/-- What a frame is used for. -/
inductive Use where
  | free
  | other
  | makes
  | dir
  | kernelTable
  | userTable (pd : UInt32)
  deriving DecidableEq

/-- The arguments of `pd_map_page`, and whether `create_pagedir` has called it. -/
structure MapCall where
  vaddr : UInt32
  frameId : UInt32
  rw : Bool
  creates : Bool
  deriving DecidableEq

/-- The argument of `pd_unmap_page`, and the directory that `create_pagedir` returns behind it. -/
structure UnmapCall where
  vaddr : UInt32
  created : Option UInt32
  deriving DecidableEq

/-- Where a thread is: before the test of the table, before the test of the page and before the last
access of `pd_get_entry` and `pd_unmap_page`; before the test of the table in `pd_map_page`, in its
`frame_alloc`, which waits for a mutex, and before the entry of the page is stored; and before a
store of `create_pagedir` into the new directory. -/
inductive Pc where
  | idle
  | getTest (vaddr : UInt32)
  | getLook (vaddr : UInt32)
  | getLoad (vaddr : UInt32)
  | unmapTest (call : UnmapCall)
  | unmapLook (call : UnmapCall)
  | unmapClear (call : UnmapCall)
  | mapTest (call : MapCall)
  | mapAlloc (call : MapCall)
  | mapStore (call : MapCall)
  | fill (pdPhys temp : UInt32) (i : Nat)
  deriving DecidableEq

/-- The page frames, the directories and the threads. -/
structure State (T : Type) where
  kernelPd : UInt32
  ram : UInt32 → Nat → UInt32
  use : UInt32 → Use
  cr3 : T → UInt32
  thread : T → Pc

namespace State

variable {T : Type}

/-- The frame in an entry that is present. -/
def entry (s : State T) (frame : UInt32) (i : Nat) : Option UInt32 :=
  if s.ram frame i &&& ptePresent ≠ 0 then some (frameOf (s.ram frame i)) else none

/-- A store. -/
def store (s : State T) (frame : UInt32) (i : Nat) (word : UInt32) : State T :=
  { s with ram := Function.update s.ram frame (Function.update (s.ram frame) i word) }

/-- `memset` of a page to 0. -/
def clear (s : State T) (frame : UInt32) : State T :=
  { s with ram := Function.update s.ram frame fun _ => 0 }

/-- The frame is used for something else. -/
def setUse (s : State T) (frame : UInt32) (use : Use) : State T :=
  { s with use := Function.update s.use frame use }

/-- The thread is at another place. -/
def goto [DecidableEq T] (s : State T) (t : T) (pc : Pc) : State T :=
  { s with thread := Function.update s.thread t pc }

/-- `page_fault_handler` at an address of the kernel. Where it finds nothing to copy it ends in a
`PANIC`. -/
def pageFaultHandler (s : State T) (d : UInt32) (pt : Nat) : Option (State T) :=
  (translate s.entry d mirrorPt mirrorPt).bind fun currentPd =>
    if s.ram currentPd pt ≠ s.ram s.kernelPd pt then
      some (s.store currentPd pt (s.ram s.kernelPd pt))
    else none

/-- An access to a page of the kernel: the frame that it comes to, after a page fault if need be.
After a second one there is nothing to copy. -/
def access (s : State T) (d : UInt32) (pt page : Nat) : Option (UInt32 × State T) :=
  match translate s.entry d pt page with
  | some frame => some (frame, s)
  | none => (s.pageFaultHandler d pt).bind fun s =>
      (translate s.entry d pt page).map fun frame => (frame, s)

/-- `current_pd`. -/
def currentPd (s : State T) (d : UInt32) : Option (UInt32 × State T) :=
  s.access d mirrorPt mirrorPt

/-- `current_pt[pt]`. -/
def currentPt (s : State T) (d : UInt32) (pt : Nat) : Option (UInt32 × State T) :=
  s.access d mirrorPt pt

/-- `pd` in the three functions: `kernel_pd` is in the data of the kernel, which every directory
maps. -/
def pdOf (s : State T) (d vaddr : UInt32) : Option (UInt32 × State T) :=
  if vaddr ≥ kHighhalfAddr then some (s.kernelPd, s) else s.currentPd d

end State

section Steps

variable {T : Type} [DecidableEq T]

/-- The test of the table: `pd->page[pt] & PTE_PRESENT`. -/
def testTable (t : T) (s : State T) (vaddr : UInt32) (absent : State T → State T) (next : Pc) :
    Option (State T) :=
  (s.pdOf (s.cr3 t) vaddr).map fun (pd, s) =>
    if s.ram pd (ptOfAddr vaddr) &&& ptePresent = 0 then absent s else s.goto t next

/-- The test of the page: `current_pt[pt].page[page] & PTE_PRESENT`. -/
def testPage (t : T) (s : State T) (vaddr : UInt32) (absent : State T → State T) (next : Pc) :
    Option (State T) :=
  (s.currentPt (s.cr3 t) (ptOfAddr vaddr)).map fun (table, s) =>
    if s.ram table (pageOfAddr vaddr) &&& ptePresent = 0 then absent s else s.goto t next

/-- The end of `pd_unmap_page`. -/
def unmapDone (t : T) (call : UnmapCall) (s : State T) : State T :=
  match call.created with
  | none => s.goto t .idle
  | some pd => (s.setUse pd .dir).goto t .idle

/-- The end of a `pd_map_page` that fails. -/
def mapFails (t : T) (call : MapCall) (s : State T) : State T :=
  if call.creates then (s.setUse call.frameId .free).goto t .idle else s.goto t .idle

/-- `frame_alloc` in `pd_map_page` returns. -/
def mapAllocated (t : T) (call : MapCall) (newPtFrame : UInt32) (s : State T) :
    Option (State T) :=
  if newPtFrame = 0 then some (mapFails t call s)
  else do
    let pt := ptOfAddr call.vaddr
    let word := tableEntry newPtFrame call.vaddr
    let use := if call.vaddr < kHighhalfAddr then .userTable (s.cr3 t) else .kernelTable
    let (pd, s) ← s.pdOf (s.cr3 t) call.vaddr
    let (currentPd, s) ← (s.store pd pt word).currentPd (s.cr3 t)
    let (table, s) ← (s.store currentPd pt word).currentPt (s.cr3 t) pt
    return ((s.clear table).setUse newPtFrame use).goto t (.mapStore call)

/-- The stores of `create_pagedir` into the new directory, in their order: the zeroes, the tables of
the kernel and the mirror. -/
def fillWord (s : State T) (pdPhys : UInt32) (i : Nat) : Nat × UInt32 :=
  if i < 1024 then (i, 0)
  else if i < 1279 then (i - 256, s.ram s.kernelPd (i - 256))
  else (mirrorPt, entryOf pdPhys (ptePresent ||| pteRw))

/-- The next step of a thread. -/
def threadStep (t : T) (s : State T) : Option (State T) :=
  match s.thread t with
  | .idle | .mapAlloc _ => none
  | .getTest vaddr => testTable t s vaddr (·.goto t .idle) (.getLook vaddr)
  | .getLook vaddr => testPage t s vaddr (·.goto t .idle) (.getLoad vaddr)
  | .getLoad vaddr => (s.currentPt (s.cr3 t) (ptOfAddr vaddr)).map fun (_, s) => s.goto t .idle
  | .unmapTest call => testTable t s call.vaddr (unmapDone t call) (.unmapLook call)
  | .unmapLook call => testPage t s call.vaddr (unmapDone t call) (.unmapClear call)
  | .unmapClear call => (s.currentPt (s.cr3 t) (ptOfAddr call.vaddr)).map fun (table, s) =>
      unmapDone t call (s.store table (pageOfAddr call.vaddr) 0)
  | .mapTest call => testTable t s call.vaddr (·.goto t (.mapAlloc call)) (.mapStore call)
  | .mapStore call => (s.currentPt (s.cr3 t) (ptOfAddr call.vaddr)).map fun (table, s) =>
      (s.store table (pageOfAddr call.vaddr) (pageEntry call.frameId call.vaddr call.rw)).goto t
        (if call.creates then .fill call.frameId call.vaddr 0 else .idle)
  | .fill pdPhys temp i =>
      (s.access (s.cr3 t) (ptOfAddr temp) (pageOfAddr temp)).map fun (page, s) =>
        (s.store page (fillWord s pdPhys i).1 (fillWord s pdPhys i).2).goto t
          (if i + 1 < 1280 then .fill pdPhys temp (i + 1)
          else .unmapTest { vaddr := temp, created := some pdPhys })

/-- The entries that `delete_pagedir` copies. -/
def backup (s : State T) (pd : UInt32) : Option ((Nat → UInt32) × State T) :=
  (s.currentPd pd).map fun (currentPd, s) => (s.ram currentPd, s)

/-- The assertion of `delete_pagedir`. -/
def deleteAsserts (s : State T) (pd : UInt32) : Prop :=
  ∃ words s', backup s pd = some (words, s') ∧ pd = frameOf (words mirrorPt)

/-- `delete_pagedir`. No other thread is under the directory. -/
def deletePagedir (t : T) (pd : UInt32) (s : State T) : Option (State T) :=
  (backup s pd).bind fun (words, s) =>
    if pd = frameOf (words mirrorPt) then
      some { s with
        cr3 := Function.update s.cr3 t (if s.cr3 t = pd then s.kernelPd else s.cr3 t)
        use := fun f =>
          if f = pd ∨ (List.range firstKernelPt).any (fun i =>
              words i &&& ptePresent ≠ 0 ∧ frameOf (words i) = f) then .free
          else s.use f }
    else none

/-- A thread begins an operation or makes its next step. `create` comes with the answers of
`frame_alloc` and `region_alloc`, and `frameAlloc` is the answer that `pd_map_page` waits for;
`touch` is an access to the memory of the kernel outside of the mirror. -/
inductive Event (T : Type) where
  | getEntry (t : T) (vaddr : UInt32)
  | unmapPage (t : T) (vaddr : UInt32)
  | mapPage (t : T) (vaddr frameId : UInt32) (rw : Bool)
  | create (t : T) (pdPhys temp : UInt32)
  | switch (t : T) (pd : UInt32)
  | delete (t : T) (pd : UInt32)
  | touch (t : T) (vaddr : UInt32)
  | frameAlloc (t : T) (newPtFrame : UInt32)
  | step (t : T)
  deriving DecidableEq

/-- The state after an event. -/
def eventStep (s : State T) : Event T → Option (State T)
  | .getEntry t vaddr => some (s.goto t (.getTest vaddr))
  | .unmapPage t vaddr => some (s.goto t (.unmapTest { vaddr := vaddr, created := none }))
  | .mapPage t vaddr frameId rw => some (s.goto t (.mapTest
      { vaddr := vaddr, frameId := frameId, rw := rw, creates := false }))
  | .create t pdPhys temp => some ((s.setUse pdPhys .makes).goto t (.mapTest
      { vaddr := temp, frameId := pdPhys, rw := true, creates := true }))
  | .switch t pd => some { s with cr3 := Function.update s.cr3 t pd }
  | .delete t pd => deletePagedir t pd s
  | .touch t vaddr => (s.access (s.cr3 t) (ptOfAddr vaddr) (pageOfAddr vaddr)).map Prod.snd
  | .frameAlloc t newPtFrame =>
      match s.thread t with
      | .mapAlloc call => mapAllocated t call newPtFrame s
      | _ => none
  | .step t => threadStep t s

end Steps

section Runs

variable {T : Type}

/-- The page of the kernel that the thread maps, fills or unmaps. -/
def Pc.kernelPage : Pc → Option (Nat × Nat)
  | .unmapTest call | .unmapLook call | .unmapClear call =>
      if call.vaddr ≥ kHighhalfAddr then some (ptOfAddr call.vaddr, pageOfAddr call.vaddr) else none
  | .mapTest call | .mapAlloc call | .mapStore call =>
      if call.vaddr ≥ kHighhalfAddr then some (ptOfAddr call.vaddr, pageOfAddr call.vaddr) else none
  | .fill _ temp _ => some (ptOfAddr temp, pageOfAddr temp)
  | .idle | .getTest _ | .getLook _ | .getLoad _ => none

/-- The address whose table the next step accesses in `current_pt`. -/
def Pc.looksAt : Pc → Option UInt32
  | .getLook vaddr | .getLoad vaddr => some vaddr
  | .unmapLook call | .unmapClear call => some call.vaddr
  | .mapStore call => some call.vaddr
  | _ => none

/-- Nobody else maps or unmaps the page, as `paging.h` expects. -/
def State.Unshared (s : State T) (t : T) (vaddr : UInt32) : Prop :=
  ∀ u, u ≠ t → (s.thread u).kernelPage ≠ some (ptOfAddr vaddr, pageOfAddr vaddr)

/-- What the callers and the allocators promise. -/
def Event.Promised (s : State T) : Event T → Prop
  | .getEntry t vaddr => s.thread t = .idle ∧ vaddr < pdMirrorAddr
  | .unmapPage t vaddr => s.thread t = .idle ∧ vaddr < pdMirrorAddr ∧ s.Unshared t vaddr
  | .mapPage t vaddr _ _ => s.thread t = .idle ∧ vaddr < pdMirrorAddr ∧ s.Unshared t vaddr
  | .create t pdPhys temp => s.thread t = .idle ∧ kHighhalfAddr ≤ temp ∧ temp < pdMirrorAddr ∧
      s.Unshared t temp ∧ s.use pdPhys = .free ∧ pdPhys.toNat < 2 ^ 20
  | .switch t pd => s.thread t = .idle ∧ s.use pd = .dir
  | .delete t pd => s.thread t = .idle ∧ s.use pd = .dir ∧ pd ≠ s.kernelPd ∧
      ∀ u, u ≠ t → s.cr3 u ≠ pd
  | .touch _ vaddr => kHighhalfAddr ≤ vaddr ∧ vaddr < pdMirrorAddr
  | .frameAlloc _ newPtFrame =>
      newPtFrame = 0 ∨ s.use newPtFrame = .free ∧ newPtFrame.toNat < 2 ^ 20
  | .step _ => True

/-- The step accesses a table that the directory in `cr3` lacks, and faults in the mirror. -/
def MirrorFaults (s : State T) : Event T → Prop
  | .step t => ∃ vaddr, (s.thread t).looksAt = some vaddr ∧
      s.entry (s.cr3 t) (ptOfAddr vaddr) = none
  | _ => False

/-- A table is about to be added to the kernel where there is one by now. -/
def Readds (s : State T) : Event T → Prop
  | .frameAlloc t newPtFrame => newPtFrame ≠ 0 ∧ ∃ call, s.thread t = .mapAlloc call ∧
      call.vaddr ≥ kHighhalfAddr ∧ s.entry s.kernelPd (ptOfAddr call.vaddr) ≠ none
  | _ => False

/-- The tables that the directories of the system are made of. -/
structure State.Tables (s : State T) : Prop where
  kernel : s.use s.kernelPd = .dir
  own : ∀ d, s.use d = .dir → s.entry d mirrorPt = some d
  users : ∀ d, s.use d = .dir → ∀ i < firstKernelPt, ∀ f, s.entry d i = some f →
    s.use f = .userTable d
  kernels : ∀ d, s.use d = .dir → ∀ i, firstKernelPt ≤ i → i < mirrorPt → ∀ f,
    s.entry d i = some f → s.ram d i = s.ram s.kernelPd i
  tables : ∀ i, firstKernelPt ≤ i → i < mirrorPt → ∀ f, s.entry s.kernelPd i = some f →
    s.use f = .kernelTable
  apart : ∀ i j, firstKernelPt ≤ i → i < mirrorPt → firstKernelPt ≤ j → j < mirrorPt → ∀ f,
    s.entry s.kernelPd i = some f → s.entry s.kernelPd j = some f → i = j

/-- Directories as `paging_setup` and `create_pagedir` leave them, with tables of their own for
pages of the user half, and no operation under way. A directory may lack tables that the kernel has
by now. -/
structure State.Initial (s : State T) : Prop extends s.Tables where
  current : ∀ t, s.use (s.cr3 t) = .dir
  idle : ∀ t, s.thread t = .idle

/-- The runs in which every event is allowed where it happens. -/
def pagingRuns [DecidableEq T] (allowed : State T → Event T → Prop) : System (State T) :=
  eventRuns State.Initial eventStep fun s event => event.Promised s ∧ allowed s event

/-- The thread of an event. -/
def Event.thread : Event T → T
  | .getEntry t _ | .unmapPage t _ | .mapPage t _ _ _ | .create t _ _ | .switch t _ | .delete t _
  | .touch t _ | .frameAlloc t _ | .step t => t

/-- The mirror of every directory holds its own frame, the assertion of `delete_pagedir` holds for
it, and no event changes the user half of another directory than that of its thread. -/
structure Mirrored [DecidableEq T] (allowed : State T → Event T → Prop) (s : State T) : Prop where
  own : ∀ d, s.use d = .dir → s.entry d mirrorPt = some d
  asserts : ∀ d, s.use d = .dir → deleteAsserts s d
  others : ∀ event s', event.Promised s → allowed s event → eventStep s event = some s' →
    ∀ d, s.use d = .dir → d ≠ s.cr3 event.thread → ∀ i < firstKernelPt, s'.ram d i = s.ram d i

end Runs

end Kogata.Kernel.PageDirectory
