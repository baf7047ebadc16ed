import Kogata.Lib.Blocks
import Kogata.Lib.Run

/-!
# The slab allocator

`common/libkogata/slab_alloc.c`: caches of objects of one size, and regions for what is larger. The
lists of the allocator (the objects of a cache that are free, the caches of a slab, the regions, the
descriptors that are free) are lists here; in memory they go through the free objects and the
descriptors themselves, which no block that is handed out touches (`slab_live_apart`). Addresses are
numbers: no block reaches the end of the address space.
-/

namespace Kogata.Common.SlabAlloc

open Lib.Blocks

/-- `PAGE_SIZE`. -/
abbrev pageSize : Nat := 0x1000
/-- `sizeof(descriptor_t)`. -/
abbrev sizeofDescriptor : Nat := 16
/-- `sizeof(mem_allocator_t)`. -/
abbrev sizeofMemAllocator : Nat := 24
/-- `sizeof(slab_t)`. -/
abbrev sizeofSlab : Nat := 4

/-- `slab_type_t`. -/
structure SlabType where
  objSize : Nat
  pagesPerCache : Nat
  deriving DecidableEq

/-- `pages_per_cache * PAGE_SIZE`. -/
def SlabType.cacheSize (t : SlabType) : Nat := t.pagesPerCache * pageSize

/-- `cache_t`, with the address of its descriptor. -/
structure Cache where
  descriptor : Nat
  regionAddr : Nat
  nFreeObjs : Nat
  freeObjs : List Nat
  deriving DecidableEq

/-- `region_t`, with the address of its descriptor. -/
structure Region where
  descriptor : Nat
  regionAddr : Nat
  regionSize : Nat
  containsDescriptors : Bool
  deriving DecidableEq

/-- `slab_t`, with the type that belongs to it. -/
structure Slab where
  type : SlabType
  caches : List Cache
  deriving DecidableEq

/-- `mem_allocator_t`, on the page that `alloc_fun` has given first; and the blocks that it has
given and not got back, with the number of its calls. -/
structure MemAllocator where
  slabs : List Slab
  freeDescriptors : List Nat
  allRegions : List Region
  held : List Block
  calls : Nat
  deriving DecidableEq

/-- `page_alloc_fun_t`: what the call of that number answers. -/
abbrev PageAllocFun := Nat → List Block → Nat → Option Nat

section Code

variable (af : PageAllocFun)

/-- `a->alloc_fun`. -/
def allocFun (a : MemAllocator) (bytes : Nat) : Option Nat × MemAllocator :=
  match af a.calls a.held bytes with
  | none => (none, { a with calls := a.calls + 1 })
  | some p => (some p, { a with calls := a.calls + 1, held := (p, bytes) :: a.held })

/-- `a->free_fun`. -/
def freeFun (a : MemAllocator) (p : Nat) : MemAllocator :=
  { a with held := a.held.eraseP (·.1 == p) }

/-- `add_free_descriptor`. -/
def addFreeDescriptor (a : MemAllocator) (d : Nat) : MemAllocator :=
  { a with freeDescriptors := d :: a.freeDescriptors }

/-- A loop that puts `n` pieces of `stride` bytes in front of a list. -/
def stack (stride p : Nat) : Nat → List Nat → List Nat
  | 0, l => l
  | n + 1, l => stack stride (p + stride) n (p :: l)

/-- `take_descriptor`; nothing comes back where an assertion fails. -/
def takeDescriptor (a : MemAllocator) : Option (Option Nat × MemAllocator) :=
  match a.freeDescriptors with
  | x :: free => some (some x, { a with freeDescriptors := free })
  | [] =>
      match allocFun af a pageSize with
      | (none, a) => some (none, a)
      | (some p, a) =>
          match stack sizeofDescriptor p (pageSize / sizeofDescriptor) [] with
          | dd :: x :: free =>
              -- The page is registered with a descriptor of its own.
              some (some x, { a with
                freeDescriptors := free
                allRegions := ⟨dd, p, pageSize, true⟩ :: a.allRegions })
          | _ => none

/-- `create_slab_allocator`. -/
def createSlabAllocator (types : List SlabType) : Option (Option MemAllocator) :=
  match af 0 [] pageSize with
  | none => some none
  | some p =>
      if types.all (4 ≤ ·.objSize) then
        let header := sizeofMemAllocator + sizeofSlab * types.length
        some (some {
          slabs := types.map (⟨·, []⟩)
          freeDescriptors :=
            stack sizeofDescriptor (p + header) ((pageSize - header) / sizeofDescriptor) []
          allRegions := []
          held := [(p, pageSize)]
          calls := 1 })
      else none

/-- A new cache: the loop puts all of its objects on the list. -/
def newCache (t : SlabType) (fcd p : Nat) : Cache where
  descriptor := fcd
  regionAddr := p
  nFreeObjs := t.cacheSize / t.objSize
  freeObjs := stack t.objSize p (t.cacheSize / t.objSize) []

/-- The end of `slab_alloc`, where a cache with a free object has been found. -/
def Cache.take (fc : Cache) : Option (Nat × Cache) :=
  match fc.freeObjs with
  | x :: free =>
      if 0 < fc.nFreeObjs ∧ (fc.nFreeObjs - 1 = 0 ↔ free = []) then
        some (x, { fc with nFreeObjs := fc.nFreeObjs - 1, freeObjs := free })
      else none
  | [] => none

/-- `slab_alloc`. -/
def slabAlloc (a : MemAllocator) (sz : Nat) : Option (Option Nat × MemAllocator) :=
  let small := a.slabs.takeWhile (·.type.objSize < sz)
  match a.slabs.dropWhile (·.type.objSize < sz) with
  | slab :: rest =>
      let full := slab.caches.takeWhile (·.nFreeObjs = 0)
      if full.all (·.freeObjs = []) then
        match slab.caches.dropWhile (·.nFreeObjs = 0) with
        | fc :: more =>
            fc.take.map fun taken => (some taken.1, { a with
              slabs := small ++ ⟨slab.type, full ++ taken.2 :: more⟩ :: rest })
        | [] =>
            match takeDescriptor af a with
            | none => none
            | some (none, a) => some (none, a)
            | some (some fcd, a) =>
                match allocFun af a slab.type.cacheSize with
                | (none, a) => some (none, addFreeDescriptor a fcd)
                | (some p, a) =>
                    (newCache slab.type fcd p).take.map fun taken => (some taken.1, { a with
                      slabs := small ++ ⟨slab.type, taken.2 :: slab.caches⟩ :: rest })
      else none
  | [] =>
      match takeDescriptor af a with
      | none => none
      | some (none, a) => some (none, a)
      | some (some rd, a) =>
          match allocFun af a sz with
          | (none, a) => some (none, addFreeDescriptor a rd)
          | (some p, a) =>
              some (some p, { a with allRegions := ⟨rd, p, sz, false⟩ :: a.allRegions })

end Code

/-- The region of a cache. -/
def Cache.block (t : SlabType) (c : Cache) : Block := (c.regionAddr, t.cacheSize)

/-- `slab_free`. -/
def slabFree (a : MemAllocator) (addr : Nat) : Option MemAllocator :=
  let elsewhere := fun (t : SlabType) (c : Cache) => decide (¬ Holds (c.block t) addr)
  let before := a.slabs.takeWhile fun slab => slab.caches.all (elsewhere slab.type)
  match a.slabs.dropWhile fun slab => slab.caches.all (elsewhere slab.type) with
  | slab :: rest =>
      let others := slab.caches.takeWhile (elsewhere slab.type)
      match slab.caches.dropWhile (elsewhere slab.type) with
      | r :: more =>
          if (addr - r.regionAddr) % slab.type.objSize = 0 ∧
              ∀ i ∈ r.freeObjs, Holds (r.block slab.type) i ∧ addr ≠ i then
            let freed : Cache :=
              { r with nFreeObjs := r.nFreeObjs + 1, freeObjs := addr :: r.freeObjs }
            if freed.nFreeObjs = slab.type.cacheSize / slab.type.objSize then
              let a := { a with slabs := before ++ ⟨slab.type, others ++ more⟩ :: rest }
              some (addFreeDescriptor (freeFun a r.regionAddr) r.descriptor)
            else some { a with slabs := before ++ ⟨slab.type, others ++ freed :: more⟩ :: rest }
          else none
      | [] => none
  | [] =>
      let others := a.allRegions.takeWhile (·.regionAddr ≠ addr)
      match a.allRegions.dropWhile (·.regionAddr ≠ addr) with
      | r :: more =>
          -- The assertion is not there for the first region.
          if others ≠ [] ∧ r.containsDescriptors then none
          else
            let a := { a with allRegions := others ++ more }
            some (addFreeDescriptor (freeFun a addr) r.descriptor)
      | [] => none

end Kogata.Common.SlabAlloc
