import Kogata.Common.SlabAlloc
import Mathlib.Data.List.TakeWhile

/-!
# Runs of the slab allocator

`Books` says how the memory of the allocator is divided: the objects of the caches and the regions
are what is handed out or free, the slots of the descriptor pages are the descriptors in use and the
free ones, and all of it lies in the blocks that `alloc_fun` has given. Each movement keeps the
books, and so does every call (`slab_alloc_sound`, `slab_free_sound`).
-/

namespace Kogata.Common.SlabAlloc

open Lib.Blocks Lib.Run

/-- A cache with the type of its slab. -/
abbrev TypedCache := SlabType × Cache

/-- The caches of all slabs. -/
def cachesOf (slabs : List Slab) : List TypedCache :=
  slabs.flatMap fun slab => slab.caches.map (slab.type, ·)

def TypedCache.block (x : TypedCache) : Block := x.2.block x.1

/-- The objects of a cache. -/
def TypedCache.objects (x : TypedCache) : List Block :=
  slots x.1.objSize x.2.regionAddr (x.1.cacheSize / x.1.objSize)

/-- The objects that are free. -/
def TypedCache.free (x : TypedCache) : List Block := x.2.freeObjs.map (·, x.1.objSize)

def Region.block (r : Region) : Block := (r.regionAddr, r.regionSize)

/-- What a region is handed out as, if it has no descriptors. -/
def Region.direct (r : Region) : List Block := if r.containsDescriptors then [] else [r.block]

/-- The descriptors of a page. -/
def pageDescriptors (p : Nat) : List Nat :=
  (slots sizeofDescriptor p (pageSize / sizeofDescriptor)).map (·.1)

/-- The descriptors that a region has. -/
def Region.descriptors (r : Region) : List Nat :=
  if r.containsDescriptors then pageDescriptors r.regionAddr else []

/-- An object fits in a cache. -/
def SlabType.Good (t : SlabType) : Prop := 0 < t.objSize ∧ t.objSize ≤ t.cacheSize

/-- The list of free objects has as many as the number says. -/
structure TypedCache.Sound (x : TypedCache) : Prop where
  good : x.1.Good
  count : x.2.nFreeObjs = x.2.freeObjs.length
  objects : ∀ b ∈ x.free, b ∈ x.objects

/-- How the memory is divided: `own` is the page of the allocator itself, and `base` are the
descriptors on it. -/
structure Books (own : Block) (base : List Nat) (cs : List TypedCache) (regions : List Region)
    (free : List Nat) (held live : List Block) : Prop where
  objs : (live ++ cs.flatMap TypedCache.free).Perm
    (cs.flatMap TypedCache.objects ++ regions.flatMap Region.direct)
  sound : ∀ x ∈ cs, x.Sound
  descs : (free ++ (cs.map (·.2.descriptor) ++ regions.map (·.descriptor))).Perm
    (base ++ regions.flatMap Region.descriptors)
  blocks : held.Perm (own :: (cs.map TypedCache.block ++ regions.map Region.block))
  apart : held.Pairwise Apart
  pos : ∀ b ∈ held, 0 < b.2

/-- A cache whose first object has been taken. -/
def Cache.taken (c : Cache) (objs : List Nat) : Cache :=
  { c with nFreeObjs := c.nFreeObjs - 1, freeObjs := objs }

/-- A cache to which an object has come back. -/
def Cache.freed (c : Cache) (addr : Nat) : Cache :=
  { c with nFreeObjs := c.nFreeObjs + 1, freeObjs := addr :: c.freeObjs }

variable {own : Block} {base free free' : List Nat} {cs cs' : List TypedCache}
  {regions regions' : List Region} {held live : List Block} {x y : TypedCache} {b : Block}

theorem stack_perm (stride p n : Nat) (l : List Nat) :
    (stack stride p n l).Perm ((slots stride p n).map (·.1) ++ l) := by
  induction n generalizing p l with
  | zero => exact .refl _
  | succ n ih =>
      refine (ih (p + stride) (p :: l)).trans ?_
      rw [slots, List.map_cons, List.cons_append]
      exact List.perm_middle

theorem stack_length (stride p n : Nat) : (stack stride p n []).length = n := by
  rw [(stack_perm stride p n []).length_eq, List.append_nil, List.length_map, slots_length]

/-- A part of one cache list, and the others. -/
theorem caches_of_mid (before rest : List Slab) (t : SlabType) (others mid more : List Cache) :
    (cachesOf (before ++ ⟨t, others ++ (mid ++ more)⟩ :: rest)).Perm
      (mid.map (t, ·) ++ cachesOf (before ++ ⟨t, others ++ more⟩ :: rest)) := by
  rw [List.perm_iff_count]
  intro y
  simp only [cachesOf, List.flatMap_append, List.flatMap_cons, List.map_append, List.count_append]
  omega

theorem TypedCache.inside (hb : b ∈ x.objects) : Inside b x.block := by
  have hin := (mem_slots hb).2.1
  have hle := Nat.div_mul_le_self x.1.cacheSize x.1.objSize
  unfold Inside at *
  simp only [TypedCache.block, Cache.block] at hin ⊢
  omega

theorem TypedCache.Sound.holds (h : x.Sound) (hb : b ∈ x.objects) : Holds x.block b.1 :=
  Holds.mono ⟨Nat.le_refl _, Nat.lt_add_of_pos_right ((mem_slots hb).1 ▸ h.good.1)⟩
    (TypedCache.inside hb)

namespace Books

section

variable (h : Books own base cs regions free held live)

include h

theorem perm (hcs : cs.Perm cs')
    (hregions : regions.Perm regions') : Books own base cs' regions' free held live where
  objs := (((hcs.flatMap_right _).append_left live).symm.trans h.objs).trans
    ((hcs.flatMap_right _).append (hregions.flatMap_right _))
  sound := fun y hy => h.sound y (hcs.mem_iff.mpr hy)
  descs := ((((hcs.map _).append (hregions.map _)).append_left free).symm.trans h.descs).trans
    ((hregions.flatMap_right _).append_left base)
  blocks := h.blocks.trans (((hcs.map _).append (hregions.map _)).cons own)
  apart := h.apart
  pos := h.pos

theorem blocks_apart :
    (own :: (cs.map TypedCache.block ++ regions.map Region.block)).Pairwise Apart :=
  h.blocks.pairwise h.apart fun hab => hab.symm

/-- The objects of all caches and the regions that are handed out. -/
theorem pieces_apart :
    (cs.flatMap TypedCache.objects ++ regions.flatMap Region.direct).Pairwise Apart := by
  have hblocks := List.pairwise_append.mp (List.pairwise_cons.mp h.blocks_apart).2
  have hdirect : ∀ r ∈ regions, ∀ d ∈ r.direct, d = r.block := fun r _ d hd => by
    unfold Region.direct at hd
    split at hd
    · cases hd
    · exact List.mem_singleton.mp hd
  refine List.pairwise_append.mpr ⟨?_, ?_, fun d hd e he => ?_⟩
  · exact pairwise_pieces hblocks.1 (fun y _ d hd => TypedCache.inside hd)
      fun y _ => slots_pairwise
  · refine pairwise_pieces hblocks.2.1 (fun r hr d hd => hdirect r hr d hd ▸ inside_refl d)
      fun r _ => ?_
    unfold Region.direct
    split
    · exact .nil
    · exact List.pairwise_singleton ..
  · obtain ⟨y, hy, hd⟩ := List.mem_flatMap.mp hd
    obtain ⟨r, hr, he⟩ := List.mem_flatMap.mp he
    rw [hdirect r hr e he]
    exact (hblocks.2.2 _ (List.mem_map_of_mem hy) _ (List.mem_map_of_mem hr)).mono
      (TypedCache.inside hd) (inside_refl _)

theorem piece_pos
    (hb : b ∈ cs.flatMap TypedCache.objects ++ regions.flatMap Region.direct) : 0 < b.2 := by
  rcases List.mem_append.mp hb with hb | hb
  · obtain ⟨y, hy, hb⟩ := List.mem_flatMap.mp hb
    rw [(mem_slots hb).1]
    exact (h.sound y hy).good.1
  · obtain ⟨r, hr, hb⟩ := List.mem_flatMap.mp hb
    unfold Region.direct at hb
    split at hb
    · cases hb
    · rw [List.mem_singleton.mp hb]
      exact h.pos _ (h.blocks.mem_iff.mpr (List.mem_cons_of_mem _ (List.mem_append_right _
        (List.mem_map_of_mem hr))))

/-- What is handed out and what is free. -/
theorem live_apart :
    (live ++ cs.flatMap TypedCache.free).Pairwise Apart :=
  h.objs.symm.pairwise h.pieces_apart fun hab => hab.symm

theorem live_nodup :
    (live ++ cs.flatMap TypedCache.free).Nodup :=
  nodup_of_apart h.live_apart fun _ hb => h.piece_pos (h.objs.mem_iff.mp hb)

end

variable {t : SlabType} {c : Cache} {d p addr sz : Nat} {objs : List Nat} {r : Region}

section

variable (h : Books own base ((t, c) :: cs) regions free held live)

include h

/-- The first free object is handed out. -/
theorem take (hobjs : c.freeObjs = addr :: objs) :
    Books own base ((t, c.taken objs) :: cs) regions free held ((addr, t.objSize) :: live) where
  objs := by
    have hobj := h.objs
    rw [List.flatMap_cons, TypedCache.free, hobjs, List.map_cons, List.cons_append] at hobj
    exact List.perm_middle.symm.trans hobj
  sound := by
    obtain ⟨hc, hrest⟩ := List.forall_mem_cons.mp h.sound
    refine List.forall_mem_cons.mpr ⟨⟨hc.good, ?_, fun e he => hc.objects e ?_⟩, hrest⟩
    · have hcount := hc.count
      rw [hobjs, List.length_cons] at hcount
      exact Nat.sub_eq_of_eq_add hcount
    · rw [TypedCache.free, hobjs]
      exact List.mem_cons_of_mem _ he
  descs := h.descs
  blocks := h.blocks
  apart := h.apart
  pos := h.pos

/-- An object comes back. -/
theorem put
    (hlive : (addr, t.objSize) ∈ live) (hobj : (addr, t.objSize) ∈ TypedCache.objects (t, c)) :
    Books own base ((t, c.freed addr) :: cs) regions free held (live.erase (addr, t.objSize)) where
  objs := by
    refine List.Perm.trans ?_ h.objs
    rw [List.flatMap_cons]
    exact List.perm_middle.trans ((List.perm_cons_erase hlive).symm.append_right _)
  sound := by
    obtain ⟨hc, hrest⟩ := List.forall_mem_cons.mp h.sound
    refine List.forall_mem_cons.mpr ⟨⟨hc.good, ?_, ?_⟩, hrest⟩
    · exact congrArg (· + 1) hc.count
    · exact List.forall_mem_cons.mpr ⟨hobj, hc.objects⟩
  descs := h.descs
  blocks := h.blocks
  apart := h.apart
  pos := h.pos

/-- A cache all of whose objects are free is given back. -/
theorem drop_cache (hall : c.freeObjs.length = t.cacheSize / t.objSize) :
    Books own base cs regions (c.descriptor :: free) (held.erase (c.block t)) live where
  objs := by
    -- There are as many free objects as there are objects, so none is handed out.
    have hnodup : (TypedCache.free (t, c)).Nodup :=
      (List.nodup_append.mp (List.nodup_append.mp h.live_nodup).2.1).1
    have hperm : (TypedCache.free (t, c)).Perm (TypedCache.objects (t, c)) := by
      refine (List.subperm_of_subset hnodup fun e he =>
        (h.sound _ (List.mem_cons_self ..)).objects e he).perm_of_length_le ?_
      rw [TypedCache.objects, slots_length, TypedCache.free, List.length_map]
      exact Nat.le_of_eq hall.symm
    have hobjs := h.objs
    rw [List.perm_iff_count] at hobjs hperm ⊢
    intro e
    have hsum := hobjs e
    have hsame := hperm e
    simp only [List.flatMap_cons, List.count_append] at hsum ⊢
    omega
  sound := fun y hy => h.sound y (List.mem_cons_of_mem _ hy)
  descs := List.perm_middle.symm.trans h.descs
  blocks := by
    refine (h.blocks.erase (TypedCache.block (t, c))).trans ?_
    refine (List.Perm.erase _ (List.Perm.swap ..)).trans ?_
    rw [List.erase_cons_head]
    exact .refl _
  apart := h.apart.sublist List.erase_sublist
  pos := fun e he => h.pos e (List.mem_of_mem_erase he)

end

/-- A new cache. -/
theorem add_cache (h : Books own base cs regions (d :: free) held live) (hgood : t.Good)
    (hfresh : ∀ e ∈ held, Apart (p, t.cacheSize) e) :
    Books own base ((t, newCache t d p) :: cs) regions free ((p, t.cacheSize) :: held) live where
  objs := by
    have hall : (TypedCache.free (t, newCache t d p)).Perm
        (TypedCache.objects (t, newCache t d p)) := by
      refine ((stack_perm t.objSize p (t.cacheSize / t.objSize) []).map _).trans ?_
      rw [List.append_nil, List.map_map]
      refine List.Perm.of_eq ((List.map_congr_left fun e he => ?_).trans (List.map_id _))
      exact Prod.ext rfl (mem_slots he).1.symm
    have hobjs := h.objs
    rw [List.perm_iff_count] at hobjs hall ⊢
    intro e
    have hsum := hobjs e
    have hsame := hall e
    simp only [List.flatMap_cons, List.count_append] at hsum ⊢
    omega
  sound := List.forall_mem_cons.mpr ⟨⟨hgood, (stack_length ..).symm, fun e he => by
    obtain ⟨i, hi, rfl⟩ := List.mem_map.mp he
    have hslot := (stack_perm t.objSize p (t.cacheSize / t.objSize) []).mem_iff.mp hi
    rw [List.append_nil] at hslot
    obtain ⟨⟨i, n⟩, hmem, rfl⟩ := List.mem_map.mp hslot
    obtain rfl : n = t.objSize := (mem_slots hmem).1
    exact hmem⟩, h.sound⟩
  descs := List.perm_middle.trans h.descs
  blocks := (h.blocks.cons _).trans (List.Perm.swap ..)
  apart := .cons hfresh h.apart
  pos := List.forall_mem_cons.mpr ⟨Nat.lt_of_lt_of_le hgood.1 hgood.2, h.pos⟩

/-- A block for a large request. -/
theorem add_region (h : Books own base cs regions (d :: free) held live) (hsz : 0 < sz)
    (hfresh : ∀ e ∈ held, Apart (p, sz) e) :
    Books own base cs (⟨d, p, sz, false⟩ :: regions) free ((p, sz) :: held) ((p, sz) :: live) where
  objs := (h.objs.cons (p, sz)).trans List.perm_middle.symm
  sound := h.sound
  descs := (List.perm_middle.append_left free).trans (List.perm_middle.trans h.descs)
  blocks := ((h.blocks.cons _).trans (List.Perm.swap ..)).trans (List.perm_middle.symm.cons own)
  apart := .cons hfresh h.apart
  pos := List.forall_mem_cons.mpr ⟨hsz, h.pos⟩

/-- A block of a large request is given back. -/
theorem drop_region (h : Books own base cs (r :: regions) free held live)
    (hdirect : r.containsDescriptors = false) (hlive : r.block ∈ live) :
    Books own base cs regions (r.descriptor :: free) (held.erase r.block)
      (live.erase r.block) where
  objs := by
    have hobjs := h.objs
    rw [List.flatMap_cons, Region.direct, if_neg (by simp [hdirect])] at hobjs
    exact (((List.perm_cons_erase hlive).append_right _).symm.trans
      (hobjs.trans List.perm_middle)).cons_inv
  sound := h.sound
  descs := by
    have hdescs := h.descs
    rw [List.flatMap_cons, Region.descriptors, if_neg (by simp [hdirect])] at hdescs
    refine List.Perm.trans ?_ hdescs
    exact List.perm_middle.symm.trans (List.perm_middle.symm.append_left free)
  blocks := by
    have hblocks := h.blocks.trans ((List.perm_middle.cons own).trans (List.Perm.swap ..))
    have herase := hblocks.erase r.block
    rwa [List.erase_cons_head] at herase
  apart := h.apart.sublist List.erase_sublist
  pos := fun e he => h.pos e (List.mem_of_mem_erase he)

/-- A page of descriptors, one of which it takes itself. -/
theorem add_page (h : Books own base cs regions [] held live)
    (hfresh : ∀ e ∈ held, Apart (p, pageSize) e)
    (hstack : stack sizeofDescriptor p (pageSize / sizeofDescriptor) [] = d :: free) :
    Books own base cs (⟨d, p, pageSize, true⟩ :: regions) free ((p, pageSize) :: held) live where
  objs := h.objs
  sound := h.sound
  descs := by
    have hpage : (d :: free).Perm (pageDescriptors p) := by
      have hperm := stack_perm sizeofDescriptor p (pageSize / sizeofDescriptor) []
      rwa [hstack, List.append_nil] at hperm
    have hdescs := h.descs
    rw [List.perm_iff_count] at hdescs hpage ⊢
    intro e
    have hsum := hdescs e
    have hsame := hpage e
    simp only [List.map_cons, List.flatMap_cons, Region.descriptors, if_true, List.count_append,
      List.count_cons, List.nil_append] at hsum hsame ⊢
    omega
  blocks := ((h.blocks.cons _).trans (List.Perm.swap ..)).trans (List.perm_middle.symm.cons own)
  apart := .cons hfresh h.apart
  pos := List.forall_mem_cons.mpr ⟨Nat.succ_pos _, h.pos⟩

end Books

/-- What is known of an answer of `alloc_fun`: the block is apart from those that are held. -/
def Fresh (af : PageAllocFun) : Prop :=
  ∀ calls held bytes p, af calls held bytes = some p → ∀ e ∈ held, Apart (p, bytes) e

/-- The state of an allocator with the types `types`. -/
structure MemAllocator.Sound (own : Block) (base : List Nat) (types : List SlabType)
    (a : MemAllocator) (live : List Block) : Prop where
  books : Books own base (cachesOf a.slabs) a.allRegions a.freeDescriptors a.held live
  used : ∀ x ∈ cachesOf a.slabs, x.2.freeObjs.length < x.1.cacheSize / x.1.objSize
  kinds : a.slabs.map (·.type) = types
  good : ∀ t ∈ types, t.Good

namespace MemAllocator.Sound

variable {types : List SlabType} {a a' : MemAllocator} {live' : List Block} {t : SlabType}
  {before rest : List Slab} {more : List Cache}

section

variable (h : a.Sound own base types live)

include h

theorem of_books (hslabs : a'.slabs = a.slabs)
    (hbooks : Books own base (cachesOf a.slabs) a'.allRegions a'.freeDescriptors a'.held live') :
    a'.Sound own base types live' :=
  ⟨hslabs ▸ hbooks, hslabs ▸ h.used, hslabs ▸ h.kinds, h.good⟩

/-- The books, with some caches of one slab in front. -/
theorem mid_books {others : List Cache} (mid : List Cache)
    (hslabs : a.slabs = before ++ ⟨t, others ++ (mid ++ more)⟩ :: rest) :
    Books own base (mid.map (t, ·) ++ cachesOf (before ++ ⟨t, others ++ more⟩ :: rest))
      a.allRegions a.freeDescriptors a.held live :=
  (hslabs ▸ h.books).perm (caches_of_mid ..) (.refl _)

/-- These caches are replaced. -/
theorem of_mid (others mid mid' : List Cache)
    (hslabs : a.slabs = before ++ ⟨t, others ++ (mid ++ more)⟩ :: rest)
    (hslabs' : a'.slabs = before ++ ⟨t, others ++ (mid' ++ more)⟩ :: rest)
    (hbooks : Books own base (mid'.map (t, ·) ++ cachesOf (before ++ ⟨t, others ++ more⟩ :: rest))
      a'.allRegions a'.freeDescriptors a'.held live')
    (hused : ∀ c ∈ mid', c.freeObjs.length < t.cacheSize / t.objSize) :
    a'.Sound own base types live' where
  books := hslabs' ▸ hbooks.perm (caches_of_mid ..).symm (.refl _)
  used := fun x hx => by
    rw [hslabs'] at hx
    rcases List.mem_append.mp ((caches_of_mid ..).mem_iff.mp hx) with hx | hx
    · obtain ⟨c, hc, rfl⟩ := List.mem_map.mp hx
      exact hused c hc
    · refine h.used x ?_
      rw [hslabs]
      exact (caches_of_mid ..).mem_iff.mpr (List.mem_append_right _ hx)
  kinds := by
    rw [hslabs', ← h.kinds, hslabs]
    simp
  good := h.good

theorem good_of_mem {slab : Slab} (hslab : slab ∈ a.slabs) :
    slab.type.Good :=
  h.good _ (h.kinds ▸ List.mem_map_of_mem hslab)

theorem sound_of_mem {slab : Slab} (hslab : slab ∈ a.slabs)
    {c : Cache} (hc : c ∈ slab.caches) : TypedCache.Sound (slab.type, c) :=
  h.books.sound _ (List.mem_flatMap.mpr ⟨slab, hslab, List.mem_map_of_mem hc⟩)

end

end MemAllocator.Sound

section Calls

variable {af : PageAllocFun} {types : List SlabType} {a : MemAllocator} {t : SlabType}
  {sz n addr : Nat}

theorem take_descriptor_spec (hf : Fresh af)
    (h : Books own base cs a.allRegions a.freeDescriptors a.held live) :
    ∃ r a', takeDescriptor af a = some (r, a') ∧ a'.slabs = a.slabs ∧
      Books own base cs a'.allRegions (r.toList ++ a'.freeDescriptors) a'.held live := by
  unfold takeDescriptor
  cases hfree : a.freeDescriptors with
  | cons d rest =>
      refine ⟨some d, _, rfl, rfl, ?_⟩
      rwa [hfree] at h
  | nil =>
      rw [hfree] at h
      unfold allocFun
      cases hp : af a.calls a.held pageSize with
      | none => exact ⟨none, _, rfl, rfl, hfree ▸ h⟩
      | some p =>
          have hlen := stack_length sizeofDescriptor p (pageSize / sizeofDescriptor)
          obtain ⟨dd, x, rest, hstack⟩ : ∃ dd x rest,
              stack sizeofDescriptor p (pageSize / sizeofDescriptor) [] = dd :: x :: rest := by
            generalize stack sizeofDescriptor p (pageSize / sizeofDescriptor) [] = l at hlen
            cases l with
            | nil => cases hlen
            | cons dd l =>
                cases l with
                | nil => cases hlen
                | cons x rest => exact ⟨dd, x, rest, rfl⟩
          simp only [hstack]
          exact ⟨some x, _, rfl, rfl, h.add_page (hf _ _ _ _ hp) hstack⟩

/-- What `slab_alloc` hands out for a request. -/
def slotSize (slabs : List Slab) (sz : Nat) : Nat :=
  match slabs.dropWhile (·.type.objSize < sz) with
  | slab :: _ => slab.type.objSize
  | [] => sz

theorem Cache.take_spec {c : Cache} {i : Nat} {objs : List Nat} (hobjs : c.freeObjs = i :: objs)
    (hcount : c.nFreeObjs = c.freeObjs.length) :
    c.take = some (i, c.taken objs) := by
  unfold Cache.take
  simp only [hobjs]
  rw [hobjs, List.length_cons] at hcount
  rw [if_pos ⟨by omega, by rw [hcount, Nat.add_sub_cancel, List.length_eq_zero_iff]⟩]
  rfl

theorem slab_alloc_large (hf : Fresh af) (h : a.Sound own base types live) (hsz : 0 < sz)
    (hlarge : a.slabs.dropWhile (·.type.objSize < sz) = []) :
    ∃ r a', slabAlloc af a sz = some (r, a') ∧
      a'.Sound own base types (r.toList.map (·, sz) ++ live) := by
  obtain ⟨r, mid, htake, hslabs, hbooks⟩ := take_descriptor_spec hf h.books
  unfold slabAlloc
  simp only [hlarge, htake]
  cases r with
  | none => exact ⟨none, mid, rfl, h.of_books hslabs hbooks⟩
  | some rd =>
      simp only [allocFun]
      cases hp : af mid.calls mid.held sz with
      | none => exact ⟨none, _, rfl, h.of_books hslabs hbooks⟩
      | some p => exact ⟨some p, _, rfl, h.of_books hslabs (hbooks.add_region hsz (hf _ _ _ _ hp))⟩

/-- No cache has a free object. -/
theorem slab_alloc_new (hf : Fresh af) (h : a.Sound own base types live) {slab : Slab}
    {small rest : List Slab} (hslabs : a.slabs = small ++ slab :: rest)
    (hsmall : a.slabs.takeWhile (·.type.objSize < sz) = small)
    (hslab : a.slabs.dropWhile (·.type.objSize < sz) = slab :: rest)
    (hassert : (slab.caches.takeWhile (·.nFreeObjs = 0)).all (·.freeObjs = []) = true)
    (hfull : slab.caches.dropWhile (·.nFreeObjs = 0) = []) :
    ∃ r a', slabAlloc af a sz = some (r, a') ∧
      a'.Sound own base types (r.toList.map (·, slab.type.objSize) ++ live) := by
  obtain ⟨r, mid, htake, hsame, hbooks⟩ := take_descriptor_spec hf h.books
  have hgood : slab.type.Good := h.good_of_mem (hslabs ▸ List.mem_append_right _ (.head _))
  unfold slabAlloc
  simp only [hslab, hsmall, hassert, hfull, htake, if_true]
  cases r with
  | none => exact ⟨none, mid, rfl, h.of_books hsame hbooks⟩
  | some fcd =>
      simp only [allocFun]
      cases hp : af mid.calls mid.held slab.type.cacheSize with
      | none => exact ⟨none, _, rfl, h.of_books hsame hbooks⟩
      | some p =>
          have hcount := stack_length slab.type.objSize p (slab.type.cacheSize / slab.type.objSize)
          have hpos : 0 < slab.type.cacheSize / slab.type.objSize := Nat.div_pos hgood.2 hgood.1
          obtain ⟨i, objs, hobjs⟩ := List.exists_cons_of_length_pos (hcount ▸ hpos)
          have hnew := hbooks.add_cache hgood (hf _ _ _ _ hp)
          have htaken : (newCache slab.type fcd p).take = _ := Cache.take_spec hobjs hcount.symm
          simp only [htaken]
          refine ⟨some i, _, rfl, h.of_mid [] [] [(newCache slab.type fcd p).taken objs]
            hslabs rfl ?_ ?_⟩
          · exact (hslabs ▸ hnew).take hobjs
          · refine List.forall_mem_singleton.mpr ?_
            rw [hobjs, List.length_cons] at hcount
            exact hcount ▸ Nat.lt_succ_self _

/-- `slab_alloc` returns, and hands out a block or nothing. -/
theorem slab_alloc_sound (hf : Fresh af) (h : a.Sound own base types live)
    (hsz : 0 < sz ∨ a.slabs ≠ []) :
    ∃ r a', slabAlloc af a sz = some (r, a') ∧
      a'.Sound own base types (r.toList.map (·, slotSize a.slabs sz) ++ live) := by
  unfold slotSize
  cases hslab : a.slabs.dropWhile (·.type.objSize < sz) with
  | nil =>
      refine slab_alloc_large hf h (hsz.elim id fun hne => ?_) hslab
      obtain ⟨slab, hmem⟩ := List.exists_mem_of_ne_nil _ hne
      exact Nat.zero_lt_of_lt (of_decide_eq_true (List.dropWhile_eq_nil_iff.mp hslab slab hmem))
  | cons slab rest =>
      have hslabs := List.takeWhile_append_dropWhile (p := (·.type.objSize < sz)) (l := a.slabs)
      have hcaches := List.takeWhile_append_dropWhile (p := (·.nFreeObjs = 0)) (l := slab.caches)
      rw [hslab] at hslabs
      have hmem : slab ∈ a.slabs := hslabs ▸ List.mem_append_right _ (.head _)
      have hassert : (slab.caches.takeWhile (·.nFreeObjs = 0)).all (·.freeObjs = []) = true := by
        refine List.all_eq_true.mpr fun c hc => ?_
        have hzero := List.mem_takeWhile_imp hc
        have hcount := (h.sound_of_mem hmem ((List.takeWhile_subset _) hc)).count
        simpa [← List.length_eq_zero_iff, ← hcount] using hzero
      cases hfull : slab.caches.dropWhile (·.nFreeObjs = 0) with
      | nil => exact slab_alloc_new hf h hslabs.symm rfl hslab hassert hfull
      | cons fc more =>
          rw [hfull] at hcaches
          have hfc : fc ∈ slab.caches := hcaches ▸ List.mem_append_right _ (.head _)
          have hcount := (h.sound_of_mem hmem hfc).count
          have hfree : fc.nFreeObjs ≠ 0 := by
            have hhead := List.head_dropWhile_not (fun c : Cache => decide (c.nFreeObjs = 0))
              (l := slab.caches) (by simp [hfull])
            simpa [hfull] using hhead
          obtain ⟨i, objs, hobjs⟩ := List.exists_cons_of_length_pos
            (show 0 < fc.freeObjs.length from hcount ▸ Nat.pos_of_ne_zero hfree)
          have hsplit : a.slabs = a.slabs.takeWhile (·.type.objSize < sz) ++
              ⟨slab.type, slab.caches.takeWhile (·.nFreeObjs = 0) ++ ([fc] ++ more)⟩ :: rest := by
            rw [List.singleton_append, hcaches, hslabs]
          have hused := h.used (slab.type, fc)
            (List.mem_flatMap.mpr ⟨slab, hmem, List.mem_map_of_mem hfc⟩)
          unfold slabAlloc
          simp only [hslab, hassert, hfull, Cache.take_spec hobjs hcount, if_true]
          refine ⟨some i, _, rfl, h.of_mid _ [fc] [fc.taken objs] hsplit rfl
            ((h.mid_books [fc] hsplit).take hobjs) ?_⟩
          refine List.forall_mem_singleton.mpr ?_
          rw [hobjs, List.length_cons] at hused
          exact Nat.lt_of_succ_lt hused

/-- A search that ends at an element. -/
theorem dropWhile_found {α : Type} {p : α → Bool} {l : List α} (h : ∃ x ∈ l, p x = false) :
    ∃ y rest, l.dropWhile p = y :: rest ∧ p y = false ∧ l = l.takeWhile p ++ y :: rest := by
  have hsplit := (List.takeWhile_append_dropWhile (p := p) (l := l)).symm
  cases hdrop : l.dropWhile p with
  | nil =>
      obtain ⟨x, hx, hpx⟩ := h
      exact absurd (List.dropWhile_eq_nil_iff.mp hdrop x hx) (by simp [hpx])
  | cons y rest =>
      have hhead := List.head_dropWhile_not p (l := l) (by simp [hdrop])
      exact ⟨y, rest, rfl, by simpa [hdrop] using hhead, hdrop ▸ hsplit⟩

/-- An object that is handed out comes back to its cache. -/
theorem slab_free_object (h : a.Sound own base types live) (hlive : (addr, n) ∈ live)
    (hx : x ∈ cachesOf a.slabs) (hobj : (addr, n) ∈ x.objects) :
    ∃ a', slabFree a addr = some a' ∧ a'.Sound own base types (live.erase (addr, n)) := by
  have hsize : n = x.1.objSize := (mem_slots hobj).1
  have hsound := h.books.sound x hx
  have hholds : Holds x.block addr := hsound.holds hobj
  obtain ⟨slab₀, hslab₀, hcache⟩ := List.mem_flatMap.mp hx
  obtain ⟨c₀, hc₀, rfl⟩ := List.mem_map.mp hcache
  -- The two searches end at this cache, as no other one has the address.
  obtain ⟨slab, rest, hslab, hany, hslabs⟩ := dropWhile_found
    (p := fun slab : Slab => slab.caches.all fun c => decide (¬ Holds (c.block slab.type) addr))
    ⟨slab₀, hslab₀, List.all_eq_false.mpr
      ⟨c₀, hc₀, fun h => of_decide_eq_true h hholds⟩⟩
  obtain ⟨r, more, hr, hhas, hcaches⟩ := dropWhile_found
    (p := fun c : Cache => decide (¬ Holds (c.block slab.type) addr)) (l := slab.caches) (by
      obtain ⟨c, hc, hno⟩ := List.all_eq_false.mp hany
      exact ⟨c, hc, by simpa using hno⟩)
  have hmem : (slab.type, r) ∈ cachesOf a.slabs := List.mem_flatMap.mpr
    ⟨slab, hslabs ▸ List.mem_append_right _ (.head _),
      List.mem_map_of_mem (hcaches ▸ List.mem_append_right _ (.head _))⟩
  have hblocks := (List.pairwise_append.mp (List.pairwise_cons.mp h.books.blocks_apart).2).1
  have hsame : (slab.type, r) = (slab₀.type, c₀) :=
    eq_of_holds hblocks hmem hx (not_not.mp (of_decide_eq_false hhas)) hholds
  rw [← hsame] at hobj hsize hsound hx
  subst hsize
  have hassert : (addr - r.regionAddr) % slab.type.objSize = 0 ∧
      ∀ i ∈ r.freeObjs, Holds (r.block slab.type) i ∧ addr ≠ i := by
    refine ⟨(mem_slots hobj).2.2, fun i hi => ?_⟩
    have hfree : (i, slab.type.objSize) ∈ TypedCache.free (slab.type, r) := List.mem_map_of_mem hi
    refine ⟨hsound.holds (hsound.objects _ hfree), ?_⟩
    rintro rfl
    exact (List.nodup_append.mp h.books.live_nodup).2.2 _ hlive _
      (List.mem_flatMap.mpr ⟨_, hx, hfree⟩) rfl
  have hsplit := hslabs
  rw [show slab = ⟨slab.type, slab.caches⟩ from rfl, hcaches] at hsplit
  have hput := (h.mid_books [r] hsplit).put hlive hobj
  have hused := h.used _ hx
  have hcount := hsound.count
  unfold slabFree
  simp only [hslab, hr, if_pos hassert]
  by_cases hfull : r.nFreeObjs + 1 = slab.type.cacheSize / slab.type.objSize
  · -- It was the last one that was handed out, and the cache goes.
    rw [if_pos hfull]
    have hall : (r.freed addr).freeObjs.length = slab.type.cacheSize / slab.type.objSize :=
      (congrArg (· + 1) hcount).symm.trans hfull
    have hheld : a.held.eraseP (·.1 == r.regionAddr) = a.held.erase (r.block slab.type) :=
      eraseP_addr (b := r.block slab.type) h.books.apart h.books.pos (h.books.blocks.mem_iff.mpr
        (.tail _ (List.mem_append_left _ (List.mem_map_of_mem (f := TypedCache.block) hx))))
    refine ⟨_, rfl, h.of_mid _ [r] [] hsplit rfl ?_ (List.forall_mem_nil _)⟩
    show Books own base _ a.allRegions _ (a.held.eraseP (·.1 == r.regionAddr)) _
    rw [hheld]
    exact hput.drop_cache hall
  · rw [if_neg hfull]
    refine ⟨_, rfl, h.of_mid _ [r] [r.freed addr] hsplit rfl hput
      (List.forall_mem_singleton.mpr ?_)⟩
    show r.freeObjs.length + 1 < _
    simp only at hused hcount
    omega

/-- A block of a large request comes back to its region. -/
theorem slab_free_region (h : a.Sound own base types live) (hlive : (addr, n) ∈ live) {r : Region}
    (hr : r ∈ a.allRegions) (hdirect : (addr, n) ∈ r.direct) :
    ∃ a', slabFree a addr = some a' ∧ a'.Sound own base types (live.erase (addr, n)) := by
  obtain ⟨hno, hblock⟩ : r.containsDescriptors = false ∧ (addr, n) = r.block := by
    unfold Region.direct at hdirect
    split at hdirect
    · cases hdirect
    · next hno => exact ⟨by simpa using hno, List.mem_singleton.mp hdirect⟩
  obtain ⟨hcaches, hregions, hcross⟩ :=
    List.pairwise_append.mp (List.pairwise_cons.mp h.books.blocks_apart).2
  have hheld : ∀ r' ∈ a.allRegions, r'.block ∈ a.held := fun r' hr' =>
    h.books.blocks.mem_iff.mpr (.tail _ (List.mem_append_right _ (List.mem_map_of_mem hr')))
  have hholds : ∀ r' ∈ a.allRegions, r'.regionAddr = addr → Holds r'.block addr :=
    fun r' hr' heq => ⟨Nat.le_of_eq heq,
      heq ▸ Nat.lt_add_of_pos_right (h.books.pos _ (hheld r' hr'))⟩
  have haddr : r.regionAddr = addr := (congrArg Prod.fst hblock).symm
  have hnone : a.slabs.dropWhile (fun slab : Slab =>
      slab.caches.all fun c => decide (¬ Holds (c.block slab.type) addr)) = [] := by
    refine List.dropWhile_eq_nil_iff.mpr fun slab hslab => List.all_eq_true.mpr fun c hc => ?_
    refine decide_eq_true fun hcontains => ?_
    exact not_apart_of_holds hcontains (hholds r hr haddr)
      (hcross _ (List.mem_map_of_mem (f := TypedCache.block)
        (List.mem_flatMap.mpr ⟨slab, hslab, List.mem_map_of_mem hc⟩)) _ (List.mem_map_of_mem hr))
  obtain ⟨r', more, hfound, heq, hsplit⟩ := dropWhile_found
    (p := fun r : Region => decide (r.regionAddr ≠ addr)) ⟨r, hr, by simpa using haddr⟩
  have hr' : r' ∈ a.allRegions := hsplit ▸ List.mem_append_right _ (.head _)
  obtain rfl : r' = r := eq_of_holds hregions hr' hr
    (hholds r' hr' (not_not.mp (of_decide_eq_false heq))) (hholds r hr haddr)
  have hdrop := (h.books.perm (.refl _) (hsplit ▸ List.perm_middle)).drop_region hno
    (hblock ▸ hlive)
  unfold slabFree
  simp only [hnone, hfound, hno, Bool.false_eq_true, and_false, if_false]
  have hback : a.held.eraseP (·.1 == addr) = a.held.erase r'.block :=
    haddr ▸ eraseP_addr h.books.apart h.books.pos (hheld r' hr)
  refine ⟨_, rfl, h.of_books rfl ?_⟩
  rw [hblock]
  show Books own base _ _ _ (a.held.eraseP (·.1 == addr)) _
  rw [hback]
  exact hdrop

/-- `slab_free` of a block that is handed out returns. -/
theorem slab_free_sound (h : a.Sound own base types live) (hlive : b ∈ live) :
    ∃ a', slabFree a b.1 = some a' ∧ a'.Sound own base types (live.erase b) := by
  rcases List.mem_append.mp (h.books.objs.mem_iff.mp (List.mem_append_left _ hlive)) with hb | hb
  · obtain ⟨y, hy, hb⟩ := List.mem_flatMap.mp hb
    exact slab_free_object h hlive hy hb
  · obtain ⟨r, hr, hb⟩ := List.mem_flatMap.mp hb
    exact slab_free_region h hlive hr hb

end Calls

/-- The types fit their caches, and the slabs the first page. -/
structure TypeTable (types : List SlabType) : Prop where
  fits : sizeofMemAllocator + sizeofSlab * types.length ≤ pageSize
  types : ∀ t ∈ types, 4 ≤ t.objSize ∧ t.objSize ≤ t.cacheSize

/-- An allocator, and the blocks that it has handed out and not got back. -/
structure State where
  allocator : MemAllocator
  live : List Block
  deriving DecidableEq

inductive Request where
  | alloc (sz : Nat)
  | free (b : Block)

/-- A block that is freed has been handed out, and where there is a slab, any size is asked for. -/
def Request.Valid (s : State) : Request → Prop
  | .alloc sz => 0 < sz ∨ s.allocator.slabs ≠ []
  | .free b => b ∈ s.live

def State.next (af : PageAllocFun) (s : State) : Request → Option State
  | .alloc sz => (slabAlloc af s.allocator sz).map fun x =>
      ⟨x.2, x.1.toList.map (·, slotSize s.allocator.slabs sz) ++ s.live⟩
  | .free b => (slabFree s.allocator b.1).map (⟨·, s.live.erase b⟩)

/-- The runs of an allocator whose own page is at `p`. -/
def slabRuns (af : PageAllocFun) (types : List SlabType) : System State :=
  eventRuns (fun s => createSlabAllocator af types = some (some s.allocator) ∧ s.live = [])
    (State.next af) Request.Valid

section Runs

variable {af : PageAllocFun} {types : List SlabType} {s : State}

theorem next_sound (hf : Fresh af) (h : s.allocator.Sound own base types s.live) {q : Request}
    (hq : q.Valid s) :
    ∃ s', s.next af q = some s' ∧ s'.allocator.Sound own base types s'.live := by
  cases q with
  | alloc sz =>
      obtain ⟨r, a', hrun, hsound⟩ := slab_alloc_sound hf h hq
      exact ⟨_, by rw [State.next, hrun]; rfl, hsound⟩
  | free b =>
      obtain ⟨a', hrun, hsound⟩ := slab_free_sound h hq
      exact ⟨_, by rw [State.next, hrun]; rfl, hsound⟩

theorem sound_of_reachable (hf : Fresh af) (htypes : TypeTable types)
    (h : Reachable (slabRuns af types) s) : ∃ p base, af 0 [] pageSize = some p ∧
      s.allocator.Sound (p, pageSize) base types s.live := by
  refine h.induct (motive := fun s => ∃ p base, af 0 [] pageSize = some p ∧
      s.allocator.Sound (p, pageSize) base types s.live) (fun s hs => ?_) fun s s' hs hstep => ?_
  · obtain ⟨hcreate, hlive⟩ := hs
    unfold createSlabAllocator at hcreate
    cases hp : af 0 [] pageSize with
    | none => simp [hp] at hcreate
    | some p =>
        simp only [hp, Option.ite_none_right_eq_some, Option.some.injEq] at hcreate
        obtain ⟨-, ha⟩ := hcreate
        have hnone : cachesOf (types.map (⟨·, []⟩)) = [] := by simp [cachesOf, List.flatMap_map]
        have hkinds : (types.map (Slab.mk · [])).map (·.type) = types := by
          rw [List.map_map]
          exact List.map_id _
        refine ⟨p, s.allocator.freeDescriptors, rfl, ?_⟩
        rw [hlive, ← ha]
        refine ⟨?_, ?_, hkinds, fun t ht => ?_⟩
        · rw [hnone]
          exact ⟨.refl _, List.forall_mem_nil _, .refl _, .refl _, List.pairwise_singleton ..,
            List.forall_mem_singleton.mpr (Nat.succ_pos _)⟩
        · rw [hnone]
          exact List.forall_mem_nil _
        · exact ⟨Nat.lt_of_lt_of_le (Nat.succ_pos 3) (htypes.types t ht).1, (htypes.types t ht).2⟩
  · obtain ⟨p, base, hp, hsound⟩ := hs
    obtain ⟨q, hq, hnext⟩ := hstep
    obtain ⟨s₁, hs₁, hsound'⟩ := next_sound hf hsound hq
    obtain rfl : s₁ = s' := Option.some.inj (hs₁.symm.trans hnext)
    exact ⟨p, base, hp, hsound'⟩

/-- No assertion fails: every request of every run comes back. -/
theorem slab_calls_return (hf : Fresh af) (htypes : TypeTable types)
    (h : Reachable (slabRuns af types) s) {q : Request} (hq : q.Valid s) :
    ∃ s', s.next af q = some s' := by
  obtain ⟨p, base, -, hsound⟩ := sound_of_reachable hf htypes h
  obtain ⟨s', hnext, -⟩ := next_sound hf hsound hq
  exact ⟨s', hnext⟩

/-- The blocks that are handed out do not overlap each other, a free object or a page with
descriptors, and lie in the blocks that `alloc_fun` has given. -/
theorem slab_live_apart (hf : Fresh af) (htypes : TypeTable types)
    (h : Reachable (slabRuns af types) s) :
    (s.live ++ (cachesOf s.allocator.slabs).flatMap TypedCache.free).Pairwise Apart ∧
      ∀ b ∈ s.live, (∃ d ∈ s.allocator.held, Inside b d) ∧
        (∀ p, af 0 [] pageSize = some p → Apart b (p, pageSize)) ∧
        ∀ r ∈ s.allocator.allRegions, r.containsDescriptors → Apart b r.block := by
  obtain ⟨p, base, hp, hsound⟩ := sound_of_reachable hf htypes h
  have hbooks := hsound.books
  refine ⟨hbooks.live_apart, fun b hb => ?_⟩
  obtain ⟨hown, hblocks⟩ := List.pairwise_cons.mp hbooks.blocks_apart
  obtain ⟨-, hregions, hcross⟩ := List.pairwise_append.mp hblocks
  -- The block `d` that it lies in is that of a cache or of a region without descriptors.
  obtain ⟨d, hd, hin, hpages⟩ : ∃ d ∈ (cachesOf s.allocator.slabs).map TypedCache.block ++
      s.allocator.allRegions.map Region.block, Inside b d ∧
      ∀ r ∈ s.allocator.allRegions, r.containsDescriptors → Apart d r.block := by
    rcases List.mem_append.mp (hbooks.objs.mem_iff.mp (List.mem_append_left _ hb)) with hb | hb
    · obtain ⟨y, hy, hb⟩ := List.mem_flatMap.mp hb
      exact ⟨_, List.mem_append_left _ (List.mem_map_of_mem hy), TypedCache.inside hb,
        fun r hr _ => hcross _ (List.mem_map_of_mem hy) _ (List.mem_map_of_mem hr)⟩
    · obtain ⟨e, he, hb⟩ := List.mem_flatMap.mp hb
      unfold Region.direct at hb
      split at hb
      · cases hb
      · next hno =>
          rw [List.mem_singleton.mp hb]
          refine ⟨_, List.mem_append_right _ (List.mem_map_of_mem he), inside_refl _,
            fun r hr hyes => ?_⟩
          have hsymm : Std.Symm fun e r : Region => Apart e.block r.block :=
            ⟨fun _ _ h => h.symm⟩
          exact (List.pairwise_map.mp hregions).forall he hr fun heq => hno (heq ▸ hyes)
  refine ⟨⟨d, hbooks.blocks.mem_iff.mpr (.tail _ hd), hin⟩, fun p' hp' => ?_, fun r hr hyes =>
    (hpages r hr hyes).mono hin (inside_refl _)⟩
  obtain rfl : p = p' := Option.some.inj (hp.symm.trans hp')
  exact ((hown d hd).mono (inside_refl _) hin).symm

/-- Every cache has an object that is handed out; when nothing is, only the page of the allocator
and those with descriptors are held. -/
theorem slab_gives_back (hf : Fresh af) (htypes : TypeTable types)
    (h : Reachable (slabRuns af types) s) :
    (∀ x ∈ cachesOf s.allocator.slabs, ∃ b ∈ s.live, b ∈ x.objects) ∧
      (s.live = [] → ∀ d ∈ s.allocator.held, af 0 [] pageSize = some d.1 ∨
        ∃ r ∈ s.allocator.allRegions, r.containsDescriptors ∧ d = r.block) := by
  obtain ⟨p, base, hp, hsound⟩ := sound_of_reachable hf htypes h
  have hbooks := hsound.books
  have hblocks := (List.pairwise_append.mp (List.pairwise_cons.mp hbooks.blocks_apart).2).1
  have hcaches : ∀ x ∈ cachesOf s.allocator.slabs, ∃ b ∈ s.live, b ∈ x.objects := by
    intro x hx
    obtain ⟨b, hb, hused⟩ : ∃ b ∈ x.objects, b ∉ x.free := by
      by_contra hall
      push Not at hall
      have hnodup : x.objects.Nodup := nodup_of_apart slots_pairwise fun b hb =>
        (mem_slots hb).1 ▸ (hbooks.sound x hx).good.1
      have hle := (List.subperm_of_subset hnodup hall).length_le
      rw [TypedCache.objects, slots_length, TypedCache.free, List.length_map] at hle
      exact absurd (hsound.used x hx) (Nat.not_lt.mpr hle)
    refine ⟨b, ?_, hb⟩
    have hpiece := hbooks.objs.mem_iff.mpr
      (List.mem_append_left _ (List.mem_flatMap.mpr ⟨x, hx, hb⟩))
    refine (List.mem_append.mp hpiece).resolve_right fun hfree => ?_
    obtain ⟨y, hy, hfree⟩ := List.mem_flatMap.mp hfree
    have hy' := hbooks.sound y hy
    obtain rfl := eq_of_holds hblocks hy hx (hy'.holds (hy'.objects b hfree))
      ((hbooks.sound x hx).holds hb)
    exact hused hfree
  refine ⟨hcaches, fun hnone d hd => ?_⟩
  have hno : ∀ x, x ∉ cachesOf s.allocator.slabs := fun x hx => by
    obtain ⟨b, hb, -⟩ := hcaches x hx
    rw [hnone] at hb
    cases hb
  rcases List.mem_cons.mp (hbooks.blocks.mem_iff.mp hd) with rfl | hd
  · exact .inl hp
  rcases List.mem_append.mp hd with hd | hd
  · obtain ⟨x, hx, -⟩ := List.mem_map.mp hd
    exact (hno x hx).elim
  · obtain ⟨r, hr, rfl⟩ := List.mem_map.mp hd
    refine .inr ⟨r, hr, ?_, rfl⟩
    by_contra hdirect
    have hpiece := hbooks.objs.mem_iff.mpr (List.mem_append_right _
      (List.mem_flatMap.mpr ⟨r, hr, by rw [Region.direct, if_neg hdirect]; exact .head _⟩))
    rw [hnone, List.nil_append] at hpiece
    obtain ⟨y, hy, -⟩ := List.mem_flatMap.mp hpiece
    exact hno y hy

end Runs

section Examples

/-- Each block behind the ones that are held. -/
def behind : PageAllocFun := fun _ held _ =>
  some (held.foldr (fun b e => max e (b.1 + b.2)) pageSize)

theorem behind_fresh : Fresh behind := by
  intro calls held bytes p hp e he
  obtain rfl := Option.some.inj hp
  refine .inr ?_
  clear hp
  induction held with
  | nil => cases he
  | cons b held ih =>
      rw [List.foldr_cons]
      rcases List.mem_cons.mp he with rfl | he
      · exact Nat.le_max_right ..
      · exact Nat.le_trans (ih he) (Nat.le_max_left ..)

/-- Two objects to a page. -/
def halves : List SlabType := [⟨2048, 1⟩]

theorem halves_table : TypeTable halves := ⟨by decide, by decide⟩

/-- The allocator as it has been created. -/
def fresh : State :=
  ⟨((createSlabAllocator behind halves).bind id).getD ⟨[], [], [], [], 0⟩, []⟩

/-- One object has been handed out. -/
def oneObject : State := (fresh.next behind (.alloc 8)).getD fresh

theorem one_object_reachable : Reachable (slabRuns behind halves) oneObject := by
  have hcreate : createSlabAllocator behind halves = some (some fresh.allocator) := by
    decide +kernel
  have hnext : fresh.next behind (.alloc 8) = some oneObject := by decide +kernel
  exact .step (.init ⟨hcreate, rfl⟩) ⟨.alloc 8, .inl (Nat.succ_pos 7), hnext⟩

theorem slab_calls_return_one : ∃ s', oneObject.next behind (.alloc 8) = some s' :=
  slab_calls_return behind_fresh halves_table one_object_reachable (.inl (Nat.succ_pos 7))

theorem slab_live_apart_one :
    (oneObject.live ++ (cachesOf oneObject.allocator.slabs).flatMap TypedCache.free).Pairwise
      Apart :=
  (slab_live_apart behind_fresh halves_table one_object_reachable).1

theorem slab_gives_back_one : oneObject.live ≠ [] ∧
    ∀ x ∈ cachesOf oneObject.allocator.slabs, ∃ b ∈ oneObject.live, b ∈ x.objects :=
  ⟨List.cons_ne_nil _ _, (slab_gives_back behind_fresh halves_table one_object_reachable).1⟩

end Examples

end Kogata.Common.SlabAlloc
