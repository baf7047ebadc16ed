import Kogata.Lib.Effect
import Kogata.Lib.SkipLinks
import Mathlib.Data.Nat.Basic
import Mathlib.Logic.Function.Basic

/-!
# The region allocator

`common/libkogata/region_alloc.c`. A list of descriptors is a list, in the order of its links, but
`first_bigger` is a field. The address and the size of a free region and of a used one are the same
words of a descriptor. Addresses and sizes are 32-bit words. What `region_alloc_map_page_fun`
answers is an argument of the call.
-/

namespace Kogata.Common.RegionAlloc

open Lib.Effect Lib.SkipLinks

/-- A descriptor: one of `base_descriptors`, or one in a page of descriptors. -/
inductive Desc where
  | base (k : Nat)
  | inPage (page : Nat) (k : Nat)
  deriving DecidableEq

/-- The state of the allocator. -/
structure Allocator where
  unused : List Desc
  nUnused : Nat
  bySize : List Desc
  byAddr : List Desc
  used : List Desc
  addr : Desc → Nat
  size : Desc → Nat
  firstBigger : Desc → Option Desc
  type : Desc → String
  lock : Bool

/-- Why a call does not return. -/
inductive Stop where
  /-- `mutex_lock(&ra_mutex)` where it is taken. -/
  | deadlock
  /-- The loop of `region_alloc_inner` does not end. -/
  | diverge
  /-- `ASSERT(r != 0)` in `get_unused_region_descriptor`. -/
  | noUnused
  /-- An `ASSERT` in `_region_alloc_rec_check_first_bigger`. -/
  | firstBigger
  /-- An `ASSERT` on the two lists in `add_free_region`. -/
  | freeLists
  /-- An `ASSERT` in `add_used_region`. -/
  | usedList
  /-- `ASSERT(descriptor_region != 0)` in `region_alloc`. -/
  | noDescriptorRegion
  /-- `ASSERT(PAGE_ALIGNED(..))` in `region_allocator_init`. -/
  | notAligned
  deriving DecidableEq

/-- A function of the allocator. -/
abbrev RegionM := StateT Allocator (Except Stop)

/-- `PAGE_SIZE`. -/
abbrev pageSize : Nat := 0x1000

/-- Arithmetic on 32-bit words. -/
def wrap32 (n : Nat) : Nat := n % 0x100000000

/-- `PAGE_ALIGN_UP`. -/
def pageAlignUp (size : Nat) : Nat :=
  if size % pageSize = 0 then size else wrap32 (size - size % pageSize + pageSize)

/-- `N_RESERVE_DESCRIPTORS`. -/
abbrev nReserveDescriptors : Nat := 2

/-- `N_BASE_DESCRIPTORS`. -/
abbrev nBaseDescriptors : Nat := 12

/-- `sizeof(descriptor_t)`: five words. -/
abbrev descriptorSize : Nat := 20

/-- `add_unused_region_descriptor`. -/
def Allocator.addUnused (s : Allocator) (d : Desc) : Allocator :=
  { s with nUnused := s.nUnused + 1, unused := d :: s.unused }

/-- `get_unused_region_descriptor`. -/
def getUnused : RegionM Desc := do
  match (← get).unused with
  | [] => throw .noUnused
  | r :: rest => do
      modify fun s => { s with unused := rest, nUnused := s.nUnused - 1 }
      return r

/-- What is behind a descriptor in a list. -/
def nextOf (d : Desc) : List Desc → Option Desc
  | [] => none
  | i :: rest => if i = d then rest.head? else nextOf d rest

/-- The loop of `remove_free_region` over the list by size. -/
def unlinkBySize (d : Desc) (next : Option Desc) :
    List Desc → (Desc → Option Desc) → List Desc × (Desc → Option Desc)
  | [], firstBigger => ([], firstBigger)
  | i :: rest, firstBigger =>
      let firstBigger :=
        if firstBigger i = some d then Function.update firstBigger i next else firstBigger
      if rest.head? = some d then (i :: rest.tail, firstBigger)
      else
        let (rest', firstBigger') := unlinkBySize d next rest firstBigger
        (i :: rest', firstBigger')

/-- The loop of `remove_free_region` over the list by address. -/
def unlinkByAddr (d : Desc) : List Desc → List Desc
  | [] => []
  | i :: rest => if rest.head? = some d then i :: rest.tail else i :: unlinkByAddr d rest

/-- `remove_free_region`. -/
def Allocator.removeFree (s : Allocator) (d : Desc) : Allocator :=
  let bySize :=
    if s.bySize.head? = some d then (s.bySize.tail, s.firstBigger)
    else unlinkBySize d (nextOf d s.bySize) s.bySize s.firstBigger
  { s with
    bySize := bySize.1
    firstBigger := bySize.2
    byAddr := if s.byAddr.head? = some d then s.byAddr.tail else unlinkByAddr d s.byAddr }

/-- The loop of `_region_alloc_rec_check_first_bigger`, with the size `sz` of the descriptor in
front. -/
def checkFirstBigger (size : Desc → Nat) (firstBigger : Desc → Option Desc) (sz : Nat)
    (supposed : Option Desc) : List Desc → Bool
  | [] => supposed = none
  | it :: rest =>
      if size it = sz then
        firstBigger it = supposed && checkFirstBigger size firstBigger sz supposed rest
      else if size it > sz then
        some it = supposed && checkFirstBigger size firstBigger (size it) (firstBigger it) rest
      else false

/-- `_region_alloc_rec_check_first_bigger`. -/
def Allocator.checked (s : Allocator) : Bool :=
  match s.bySize with
  | [] => false
  | it :: rest =>
      checkFirstBigger s.size s.firstBigger (s.size it) (s.firstBigger it) rest

/-- The region that the new one is put together with. -/
inductive Neighbour where
  | prev (it : Desc)
  | next (it : Desc)
  deriving DecidableEq

/-- The first loop of `add_free_region`. -/
def neighbour (addr size : Desc → Nat) (d : Desc) : List Desc → Option Neighbour
  | [] => none
  | it :: rest =>
      if wrap32 (addr it + size it) = addr d then some (.prev it)
      else if addr it = wrap32 (addr d + size d) then some (.next it)
      else if addr it > addr d then none
      else neighbour addr size d rest

/-- The loop of `add_free_region` over the list by address. -/
def insertByAddr (addr : Desc → Nat) (d : Desc) : List Desc → List Desc
  | [] => []
  | it :: rest =>
      if rest.head?.all (fun next => addr next > addr d) then it :: d :: rest
      else it :: insertByAddr addr d rest

/-- The loop of `add_free_region` over the list by size; `none` where an `ASSERT` fails. -/
def insertBySize (size : Desc → Nat) (d : Desc) :
    List Desc → (Desc → Option Desc) → Option (List Desc × (Desc → Option Desc))
  | [], firstBigger => some ([], firstBigger)
  | it :: rest, firstBigger =>
      if size it < size d then
        let firstBigger :=
          if (firstBigger it).all (fun b => size d ≤ size b) then
            Function.update firstBigger it (some d)
          else firstBigger
        if rest.head?.all (fun next => size d ≤ size next) then
          some (it :: d :: rest, Function.update firstBigger d
            (linkBefore size firstBigger (size d) rest.head?))
        else
          (insertBySize size d rest firstBigger).map fun (rest', firstBigger') =>
            (it :: rest', firstBigger')
      else none

/-- The part of `add_free_region` that inserts the region in the two lists. -/
def insertFree (d : Desc) : RegionM Unit := do
  let s ← get
  match s.byAddr with
  | [] =>
      if s.bySize ≠ [] then throw .freeLists
      else
        set { s with
          byAddr := [d]
          bySize := [d]
          firstBigger := Function.update s.firstBigger d none }
  | first :: _ => do
      let byAddr :=
        if s.addr first > s.addr d then d :: s.byAddr else insertByAddr s.addr d s.byAddr
      match s.bySize with
      | [] => throw .freeLists
      | smallest :: _ => do
          let bySize :=
            if s.size d ≤ s.size smallest then
              some (d :: s.bySize, Function.update s.firstBigger d
                (linkBefore s.size s.firstBigger (s.size d) (some smallest)))
            else insertBySize s.size d s.bySize s.firstBigger
          match bySize with
          | none => throw .freeLists
          | some (bySize, firstBigger) => do
              let s' := { s with byAddr := byAddr, bySize := bySize, firstBigger := firstBigger }
              if s'.checked then set s' else throw .firstBigger

/-- `add_free_region`, which calls itself with one free region less. -/
def addFreeFrom : Nat → Desc → RegionM Unit
  | 0, d => insertFree d
  | n + 1, d => do
      let s ← get
      match neighbour s.addr s.size d s.byAddr with
      | some (.prev it) => do
          let s' := s.removeFree it
          let s' := { s' with size := Function.update s'.size it (wrap32 (s'.size it + s'.size d)) }
          set (s'.addUnused d)
          addFreeFrom n it
      | some (.next it) => do
          let s' := s.removeFree it
          let s' := { s' with size := Function.update s'.size d (wrap32 (s'.size d + s'.size it)) }
          set (s'.addUnused it)
          addFreeFrom n d
      | none => insertFree d

/-- `add_free_region`. -/
def addFreeRegion (d : Desc) : RegionM Unit := do
  addFreeFrom (← get).byAddr.length d

/-- The loop of `find_used_region`. -/
def findUsed (addr size : Desc → Nat) (a : Nat) : List Desc → Option Desc
  | [] => none
  | i :: rest =>
      if addr i ≤ a ∧ a < wrap32 (addr i + size i) then some i
      else if addr i > a then none
      else findUsed addr size a rest

/-- The loop of `add_used_region`; `none` where an `ASSERT` fails. -/
def insertUsed (addr : Desc → Nat) (d : Desc) : List Desc → Option (List Desc)
  | [] => none
  | i :: rest =>
      if addr i < addr d then
        if rest.head?.all (fun next => addr next > addr d) then some (i :: d :: rest)
        else (insertUsed addr d rest).map (i :: ·)
      else none

/-- `add_used_region`. -/
def addUsedRegion (d : Desc) : RegionM Unit := do
  let s ← get
  if s.used.head?.all (fun first => s.addr d < s.addr first) then
    set { s with used := d :: s.used }
  else
    match insertUsed s.addr d s.used with
    | none => throw .usedList
    | some used => set { s with used := used }

/-- The loop of `remove_used_region`. -/
def unlinkUsed (addr : Desc → Nat) (d : Desc) : List Desc → List Desc
  | [] => []
  | i :: rest =>
      if addr i > addr d then i :: rest
      else if rest.head? = some d then i :: rest.tail
      else i :: unlinkUsed addr d rest

/-- `remove_used_region`. -/
def Allocator.removeUsed (s : Allocator) (d : Desc) : Allocator :=
  { s with used := if s.used.head? = some d then s.used.tail else unlinkUsed s.addr d s.used }

/-- `region_free_inner`. -/
def regionFreeInner (a : Nat) : RegionM Unit := do
  let s ← get
  match findUsed s.addr s.size a s.used with
  | none => return
  | some d => do
      set (s.removeUsed d)
      addFreeRegion d

/-- The end of `region_alloc_inner`: the region becomes a used one. -/
def useRegion (i : Desc) (size : Nat) (type : String) : RegionM Nat := do
  modify fun s => { s with
    size := Function.update s.size i size
    type := Function.update s.type i type }
  addUsedRegion i
  return (← get).addr i

/-- `region_alloc_inner`. -/
def regionAllocInner (size : Nat) (type : String) (useReserve : Bool) : RegionM Nat := do
  let size := pageAlignUp size
  let s ← get
  match seek s.size s.firstBigger size s.bySize.length s.bySize.head? with
  | none => throw .diverge
  | some none => return 0
  | some (some i) =>
      if s.size i > size then
        if s.nUnused ≤ nReserveDescriptors ∧ useReserve = false then return 0
        else do
          let x ← getUnused
          let rest := s.size i - size
          if size ≥ 0x4000 then
            modify fun s => { s with
              size := Function.update s.size x rest
              addr := Function.update s.addr x (wrap32 (s.addr i + size)) }
          else
            modify fun s => { s with
              size := Function.update s.size x rest
              addr := Function.update (Function.update s.addr x (s.addr i)) i
                (wrap32 (s.addr i + rest)) }
          modify fun s => s.removeFree i
          addFreeRegion x
          useRegion i size type
      else do
        modify fun s => s.removeFree i
        useRegion i size type

/-- The descriptors of a page. -/
def Allocator.addDescriptors (s : Allocator) (page : Nat) : Allocator :=
  (List.range (pageSize / descriptorSize)).foldl (fun s k => s.addUnused (.inPage page k)) s

/-- `mutex_lock(&ra_mutex)`. -/
def lockRegions : RegionM Unit := do
  if (← get).lock then throw .deadlock
  else modify fun s => { s with lock := true }

/-- `mutex_unlock(&ra_mutex)`. -/
def unlockRegions : RegionM Unit :=
  modify fun s => { s with lock := false }

/-- The part of `region_alloc` that keeps up the reserve of descriptors. `mapOk` is what
`region_alloc_map_page_fun` answers. -/
def refill (mapOk : Bool) : RegionM Unit := do
  if (← get).nUnused ≤ nReserveDescriptors then
    let page ← regionAllocInner pageSize "Region descriptors" true
    if page = 0 then throw .noDescriptorRegion
    else if mapOk then modify fun s => s.addDescriptors page
    else regionFreeInner page

/-- `region_alloc`. -/
def regionAlloc (mapOk : Bool) (size : Nat) (type : String) : RegionM Nat := do
  lockRegions
  refill mapOk
  let result ← regionAllocInner size type false
  unlockRegions
  return result

/-- `region_free`. -/
def regionFree (a : Nat) : RegionM Unit := do
  lockRegions
  regionFreeInner a
  unlockRegions

/-- The allocator in front of `region_allocator_init`. -/
def Allocator.zero : Allocator where
  unused := []
  nUnused := 0
  bySize := []
  byAddr := []
  used := []
  addr := fun _ => 0
  size := fun _ => 0
  firstBigger := fun _ => none
  type := fun _ => ""
  lock := false

/-- `region_allocator_init`. -/
def regionAllocatorInit (start rsvdEnd stop : Nat) : RegionM Unit := do
  modify fun s => { s with nUnused := 0, unused := [] }
  modify fun s => (List.range nBaseDescriptors).foldl (fun s k => s.addUnused (.base k)) s
  if start % pageSize ≠ 0 ∨ rsvdEnd % pageSize ≠ 0 ∨ stop % pageSize ≠ 0 then throw .notAligned
  else
    let f0 ← getUnused
    modify fun s => { s with
      addr := Function.update s.addr f0 rsvdEnd
      size := Function.update s.size f0 (stop - rsvdEnd)
      bySize := []
      byAddr := [] }
    addFreeRegion f0
    if rsvdEnd > start then
      let u0 ← getUnused
      modify fun s => { s with
        addr := Function.update s.addr u0 start
        size := Function.update s.size u0 (rsvdEnd - start)
        type := Function.update s.type u0 "Reserved"
        used := [u0] }
    else modify fun s => { s with used := [] }

end Kogata.Common.RegionAlloc
