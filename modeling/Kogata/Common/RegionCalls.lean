import Kogata.Common.RegionTiling

/-!
# What a call of the region allocator does

`Took` says what `region_alloc_inner` does where it finds a region, and `Released` what
`region_free_inner` does with one. The descriptors are counted over the three lists: `Books` says
that each is in one of them, and that the page of a descriptor is a used region.
-/

namespace Kogata.Common.RegionAlloc

open Lib.Effect Lib.Intervals Lib.SkipLinks

/-- The descriptors of the three lists. -/
def Allocator.ids (s : Allocator) : List Desc := s.unused ++ s.byAddr ++ s.used

/-- Each descriptor is in one list, and the page that it lies in is in use. -/
structure Books (s : Allocator) : Prop where
  distinct : s.ids.Nodup
  count : s.nUnused = s.unused.length
  own : ∀ page k, .inPage page k ∈ s.ids → ∃ u ∈ s.used, s.addr u = page ∧ s.size u = pageSize

/-- The words of a used region are as they were. -/
def SameRegion (s s' : Allocator) (u : Desc) : Prop :=
  s'.addr u = s.addr u ∧ s'.size u = s.size u ∧ s'.type u = s.type u

/-- The free region is the smallest one that is large enough. -/
structure BestFit (s : Allocator) (size : Nat) (i : Desc) : Prop where
  free : i ∈ s.byAddr
  enough : size ≤ s.size i
  least : ∀ b ∈ s.byAddr, size ≤ s.size b → s.size i ≤ s.size b
  found : firstFrom s.size size s.bySize = some i

/-- A part of the best free region has become the used region `i`. -/
structure Took (s s' : Allocator) (size : Nat) (type : String) (i : Desc) : Prop where
  best : BestFit s size i
  place : s'.addr i = s.addr i + if size ≥ 0x4000 then 0 else s.size i - size
  inside : ∀ x, Holds s'.addr s'.size i x → Holds s.addr s.size i x
  used : s'.used.Perm (i :: s.used)
  length : s'.size i = size
  named : s'.type i = type
  free : ∀ x, Covers s'.addr s'.size s'.byAddr x ↔
    Covers s.addr s.size s.byAddr x ∧ ¬ Holds s'.addr s'.size i x
  others : ∀ u ∈ s.used, SameRegion s s' u
  ids : s'.ids.Perm s.ids
  count : s'.nUnused + s.unused.length = s.nUnused + s'.unused.length
  spare : s.nUnused ≤ s'.nUnused + 1
  exact : s.size i = size → s'.nUnused = s.nUnused

section Alloc

variable {lo hi n : Nat} {hole : Nat → Prop} {s s' : Allocator} {i x : Desc} {type : String}

/-- The end of `region_alloc_inner`, for a part of the hole. -/
theorem use_region_yields (h : Tiles lo hi hole s) (hn : 0 < n)
    (hpage : s.addr i % pageSize = 0 ∧ n % pageSize = 0)
    (hin : ∀ y, s.addr i ≤ y ∧ y < s.addr i + n → hole y) :
    Yields (useRegion i n type) s fun r s' => r = s.addr i ∧ ∃ used,
      s' = { s with
        size := Function.update s.size i n, type := Function.update s.type i type, used := used } ∧
      used.Perm (i :: s.used) ∧
      Tiles lo hi (fun y => hole y ∧ ¬ (s.addr i ≤ y ∧ y < s.addr i + n)) s' := by
  obtain ⟨hfree, hused⟩ := h.not_listed (hin _ ⟨Nat.le_refl _, by omega⟩)
  set mid : Allocator := { s with
    size := Function.update s.size i n, type := Function.update s.type i type } with hmid
  have hself : mid.size i = n := Function.update_self ..
  have hkept : ∀ e, e ≠ i → mid.addr e = s.addr e ∧ mid.size e = s.size e := fun e he =>
    ⟨rfl, Function.update_of_ne he ..⟩
  have htiles : Tiles lo hi hole mid := h.congr rfl rfl rfl rfl
    (fun e he => hkept e fun heq => hfree (heq ▸ he))
    fun e he => hkept e fun heq => hused (heq ▸ he)
  have hholds : ∀ y, Holds mid.addr mid.size i y ↔ s.addr i ≤ y ∧ y < s.addr i + n := fun y => by
    unfold Holds
    rw [hself]
  have hset : (modify fun s : Allocator => { s with
      size := Function.update s.size i n
      type := Function.update s.type i type } : RegionM PUnit) s = .ok ((), mid) := rfl
  refine yields_bind_of_run hset ((htiles.fill_used (d := i) (hself ▸ hn)
    ⟨hpage.1, hself ▸ hpage.2⟩ fun y hy => hin y ((hholds y).mp hy)).bind fun _ s' hfilled => ?_)
  obtain ⟨used, rfl, hperm, htiles'⟩ := hfilled
  refine yields_of_run rfl ⟨rfl, used, rfl, hperm, htiles'.congr_hole fun y => ?_⟩
  rw [hholds]

/-- A part of the best free region is in neither list: `i` has its address, and `n` is its size. -/
structure Cut (lo hi : Nat) (s t : Allocator) (n : Nat) (i : Desc) : Prop where
  tiles : Tiles lo hi (fun y => t.addr i ≤ y ∧ y < t.addr i + n) t
  place : t.addr i = s.addr i + if n ≥ 0x4000 then 0 else s.size i - n
  page : t.addr i % pageSize = 0 ∧ n % pageSize = 0
  inside : ∀ y, t.addr i ≤ y ∧ y < t.addr i + n → Holds s.addr s.size i y
  free : ∀ y, Covers t.addr t.size t.byAddr y ↔
    Covers s.addr s.size s.byAddr y ∧ ¬ (t.addr i ≤ y ∧ y < t.addr i + n)
  used : t.used = s.used
  others : ∀ u ∈ s.used, SameRegion s t u
  ids : (i :: (t.unused ++ t.byAddr)).Perm (s.unused ++ s.byAddr)
  count : t.nUnused + s.unused.length = s.nUnused + t.unused.length
  spare : s.nUnused ≤ t.nUnused + 1
  exact : s.size i = n → t.nUnused = s.nUnused
  lock : t.lock = s.lock

/-- The part becomes a used region. -/
theorem Cut.use {t : Allocator} (h : Cut lo hi s t n i) (hbest : BestFit s n i) (hn : 0 < n) :
    Yields (useRegion i n type) t fun r s' =>
      r = s'.addr i ∧ Took s s' n type i ∧ Tiles lo hi (fun _ => False) s' ∧
        s'.lock = s.lock := by
  refine (use_region_yields h.tiles hn h.page fun y hy => hy).mono fun r s' hused => ?_
  obtain ⟨rfl, used, rfl, hused, htiles⟩ := hused
  obtain ⟨hfree, hnot⟩ := h.tiles.not_listed (d := i) ⟨Nat.le_refl _, by omega⟩
  have hself : ∀ y, Holds t.addr (Function.update t.size i n) i y ↔
      t.addr i ≤ y ∧ y < t.addr i + n := fun y => by
    unfold Holds
    rw [Function.update_self]
  have hcongr : ∀ y, Covers t.addr (Function.update t.size i n) t.byAddr y ↔
      Covers t.addr t.size t.byAddr y := fun y => covers_congr fun e he =>
    ⟨rfl, Function.update_of_ne (fun heq : e = i => hfree (heq ▸ he)) ..⟩
  refine ⟨rfl, ⟨hbest, h.place, fun y hy => h.inside y ((hself y).mp hy), h.used ▸ hused,
    Function.update_self .., Function.update_self .., fun y => ?_, fun u hu => ?_, ?_, h.count,
    h.spare, h.exact⟩, htiles.congr_hole fun y => by tauto, h.lock⟩
  · exact (hcongr y).trans ((h.free y).trans (and_congr_right fun _ => not_congr (hself y).symm))
  · have hne : u ≠ i := fun heq => hnot (h.used ▸ heq ▸ hu)
    obtain ⟨haddr, hsize, htype⟩ := h.others u hu
    exact ⟨haddr, (Function.update_of_ne hne ..).trans hsize,
      (Function.update_of_ne hne ..).trans htype⟩
  · show (t.unused ++ t.byAddr ++ used).Perm (s.unused ++ s.byAddr ++ s.used)
    refine (hused.append_left _).trans (List.perm_middle.trans ?_)
    rw [h.used]
    exact h.ids.append_right s.used

/-- What is left in the lists when a free region is taken out. -/
theorem remove_perm (h : FreeOk s) (hfree : i ∈ s.byAddr) :
    s.byAddr.Perm (i :: (s.removeFree i).byAddr) := by
  obtain ⟨-, pre, post, hsplit, hby⟩ := h.remove hfree
  rw [hby, hsplit]
  exact List.perm_middle

/-- The whole of the best free region is taken. -/
theorem cut_whole (h : Tiles lo hi (fun _ => False) s) (hbest : BestFit s n i)
    (hsize : s.size i = n) : Cut lo hi s (s.removeFree i) n i := by
  have htaken := h.take_free hbest.free
  have hperm := remove_perm h.free hbest.free
  have hholds : ∀ y, (s.removeFree i).addr i ≤ y ∧ y < (s.removeFree i).addr i + n ↔
      Holds s.addr s.size i y := fun y => by
    rw [← hsize]
    exact Iff.rfl
  refine ⟨htaken.congr_hole fun y => ?_, ?_, hsize ▸ h.freePages i hbest.free,
    fun y hy => (hholds y).mp hy, fun y => ?_, rfl, fun _ _ => ⟨rfl, rfl, rfl⟩, ?_, rfl,
    Nat.le_succ _, fun _ => rfl, rfl⟩
  · rw [hholds]
    tauto
  · rw [hsize, Nat.sub_self, ite_self]
    rfl
  · show Covers s.addr s.size (s.removeFree i).byAddr y ↔ _
    rw [hholds, covers_perm hperm, covers_cons]
    have hclear : Holds s.addr s.size i y → ¬ Covers s.addr s.size (s.removeFree i).byAddr y :=
      fun hy => (htaken.clear y (.inr hy)).1
    tauto
  · exact List.perm_middle.symm.trans (hperm.append_left s.unused).symm

/-- The allocator when a descriptor `x` has been taken for the part of `i` that stays free. -/
def Allocator.split (s : Allocator) (i x : Desc) (rest : List Desc) (addr : Desc → Nat)
    (size : Nat) : Allocator :=
  { s.removeFree i with
    unused := rest
    nUnused := s.nUnused - 1
    size := Function.update s.size x (s.size i - size)
    addr := addr }

theorem Books.apart (h : Books s) {rest : List Desc} (hunused : s.unused = x :: rest) :
    x ∉ s.byAddr ∧ x ∉ s.used := by
  have hdistinct := h.distinct
  rw [Allocator.ids, hunused, List.cons_append, List.cons_append] at hdistinct
  have hx := (List.nodup_cons.mp hdistinct).1
  exact ⟨fun hmem => hx (List.mem_append_left _ (List.mem_append_right _ hmem)),
    fun hmem => hx (List.mem_append_right _ hmem)⟩

section Split

variable {rest : List Desc} {addr : Desc → Nat}

/-- The regions in the lists are as they were when `x` has the words of the rest. -/
theorem split_tiles (n : Nat) (rest : List Desc) (h : Tiles lo hi (fun _ => False) s)
    (hfree : i ∈ s.byAddr) (hxfree : x ∉ s.byAddr) (hxused : x ∉ s.used)
    (haddr : ∀ e, e ≠ x → e ≠ i → addr e = s.addr e) :
    Tiles lo hi (fun y => Holds s.addr s.size i y) (s.split i x rest addr n) ∧
    (∀ e ∈ (s.removeFree i).byAddr, (s.split i x rest addr n).addr e = s.addr e ∧
      (s.split i x rest addr n).size e = s.size e) ∧
    ∀ e ∈ s.used, (s.split i x rest addr n).addr e = s.addr e ∧
      (s.split i x rest addr n).size e = s.size e := by
  have htaken := h.take_free hfree
  have hperm := remove_perm h.free hfree
  obtain ⟨hifree, hiused⟩ := htaken.not_listed (d := i)
    (.inr (holds_first (h.free.positive i hfree)))
  have hsame : ∀ e, e ≠ x → e ≠ i → (s.split i x rest addr n).addr e = s.addr e ∧
      (s.split i x rest addr n).size e = s.size e :=
    fun e hex hei => ⟨haddr e hex hei, Function.update_of_ne hex ..⟩
  have hsameFree : ∀ e ∈ (s.removeFree i).byAddr, (s.split i x rest addr n).addr e = s.addr e ∧
      (s.split i x rest addr n).size e = s.size e := fun e he =>
    hsame e (fun heq => hxfree (heq ▸ hperm.mem_iff.mpr (List.mem_cons_of_mem i he)))
      fun heq => hifree (heq ▸ he)
  have hsameUsed : ∀ e ∈ s.used, (s.split i x rest addr n).addr e = s.addr e ∧
      (s.split i x rest addr n).size e = s.size e := fun e he =>
    hsame e (fun heq => hxused (heq ▸ he)) fun heq => hiused (heq ▸ he)
  have htiles : Tiles lo hi (fun y => False ∨ Holds s.addr s.size i y)
      (s.split i x rest addr n) := htaken.congr rfl rfl rfl rfl hsameFree hsameUsed
  exact ⟨htiles.congr_hole fun y => by tauto, hsameFree, hsameUsed⟩

/-- The two parts of a region, the one that stays free and the one that is cut out. -/
theorem split_parts (hless : n < s.size i)
    (hparts : addr x = s.addr i ∧ addr i = s.addr i + (s.size i - n) ∨
      addr x = s.addr i + n ∧ addr i = s.addr i) (y : Nat) :
    (Holds s.addr s.size i y ↔ Holds addr (Function.update s.size x (s.size i - n)) x y ∨
      (addr i ≤ y ∧ y < addr i + n)) ∧
    ¬ (Holds addr (Function.update s.size x (s.size i - n)) x y ∧
      addr i ≤ y ∧ y < addr i + n) := by
  unfold Holds
  rw [Function.update_self]
  omega

theorem split_pages (hfree : PageRange s.addr s.size i) (hpage : n % pageSize = 0)
    (hparts : addr x = s.addr i ∧ addr i = s.addr i + (s.size i - n) ∨
      addr x = s.addr i + n ∧ addr i = s.addr i) :
    PageRange addr (Function.update s.size x (s.size i - n)) x ∧ addr i % pageSize = 0 := by
  have hdiff : (s.size i - n) % pageSize = 0 := Nat.mod_eq_zero_of_dvd
    (Nat.dvd_sub (Nat.dvd_of_mod_eq_zero hfree.2) (Nat.dvd_of_mod_eq_zero hpage))
  rw [PageRange, Function.update_self]
  rcases hparts with ⟨hx, hend⟩ | ⟨hx, hend⟩
  · exact ⟨⟨hx ▸ hfree.1, hdiff⟩, hend ▸ page_add hfree.1 hdiff⟩
  · exact ⟨⟨hx ▸ page_add hfree.1 hpage, hdiff⟩, hend ▸ hfree.1⟩

/-- A part of the best free region is taken, and the rest of it stays free. -/
theorem cut_part_yields (h : Tiles lo hi (fun _ => False) s) (hbooks : Books s)
    (hbest : BestFit s n i) (hpage : n % pageSize = 0) (hless : n < s.size i)
    (hunused : s.unused = x :: rest) (haddr : ∀ e, e ≠ x → e ≠ i → addr e = s.addr e)
    (hparts : addr x = s.addr i ∧ addr i = s.addr i + (s.size i - n) ∨
      addr x = s.addr i + n ∧ addr i = s.addr i)
    (hplace : addr i = s.addr i + if n ≥ 0x4000 then 0 else s.size i - n) :
    Yields (addFreeRegion x) (s.split i x rest addr n) fun _ t => Cut lo hi s t n i := by
  obtain ⟨hxfree, hxused⟩ := hbooks.apart hunused
  have hxi : i ≠ x := fun heq => hxfree (heq ▸ hbest.free)
  have hperm := remove_perm h.free hbest.free
  obtain ⟨hifree, -⟩ := (h.take_free hbest.free).not_listed (d := i)
    (.inr (holds_first (h.free.positive i hbest.free)))
  obtain ⟨htiles, hsameFree, hsameUsed⟩ :=
    split_tiles n rest h hbest.free hxfree hxused haddr
  obtain ⟨hxpage, hipage⟩ := split_pages (h.freePages i hbest.free) hpage hparts
  have hcut := split_parts (x := x) hless hparts
  have hxsize : (s.split i x rest addr n).size x = s.size i - n := Function.update_self ..
  refine (htiles.fill_free (d := x) (by omega) hxpage
    fun y hy => (hcut y).1.mpr (.inl hy)).mono fun _ t hfilled => ?_
  obtain ⟨hfreed, htiles'⟩ := hfilled
  have hiaddr : t.addr i = addr i := (hfreed.others i hxi hifree).1
  refine ⟨htiles'.congr_hole fun y => ?_, hiaddr.trans hplace, ⟨hiaddr ▸ hipage, hpage⟩,
    fun y hy => ?_, fun y => ?_, hfreed.used, fun u hu => ?_, ?_, ?_, ?_, fun heq => by omega,
    hfreed.lock⟩
  · rw [hiaddr, (hcut y).1]
    have hnot := (hcut y).2
    change _ ↔ (_ ∨ _) ∧ ¬ Holds addr (Function.update s.size x (s.size i - n)) x y
    tauto
  · exact (hcut y).1.mpr (.inr (hiaddr ▸ hy))
  · have hrest : Covers addr (Function.update s.size x (s.size i - n)) (s.removeFree i).byAddr y ↔
        Covers s.addr s.size (s.removeFree i).byAddr y := covers_congr hsameFree
    rw [hfreed.covers, hiaddr, covers_perm hperm, covers_cons, (hcut y).1]
    have hclear : Holds s.addr s.size i y → ¬ Covers s.addr s.size (s.removeFree i).byAddr y :=
      fun hy => ((h.take_free hbest.free).clear y (.inr hy)).1
    rw [(hcut y).1] at hclear
    have hnot := (hcut y).2
    change Holds addr (Function.update s.size x (s.size i - n)) x y ∨
      Covers addr (Function.update s.size x (s.size i - n)) (s.removeFree i).byAddr y ↔ _
    tauto
  · have hux : u ≠ x := fun heq => hxused (heq ▸ hu)
    have hnot : u ∉ (s.removeFree i).byAddr := fun hmem =>
      h.not_free hu (hperm.mem_iff.mpr (List.mem_cons_of_mem i hmem))
    obtain ⟨haddr', hsize'⟩ := hfreed.others u hux hnot
    exact ⟨haddr'.trans (hsameUsed u hu).1, hsize'.trans (hsameUsed u hu).2,
      congrFun hfreed.type u⟩
  · have hids : (t.unused ++ t.byAddr).Perm (x :: (rest ++ (s.removeFree i).byAddr)) := hfreed.ids
    rw [hunused]
    have hmove : (i :: (rest ++ (s.removeFree i).byAddr)).Perm (rest ++ s.byAddr) :=
      List.perm_middle.symm.trans (hperm.append_left rest).symm
    exact (hids.cons i).trans ((List.Perm.swap x i _).trans (hmove.cons x))
  · have hcount : t.nUnused + rest.length = s.nUnused - 1 + t.unused.length := hfreed.count
    have hpos : s.nUnused = rest.length + 1 := by rw [hbooks.count, hunused, List.length_cons]
    rw [hunused, List.length_cons]
    omega
  · have hmore : s.nUnused - 1 ≤ t.nUnused := hfreed.more
    omega

end Split

/-- `region_alloc_inner` takes nothing. -/
def Refused (s : Allocator) (size : Nat) (useReserve : Bool) : Prop :=
  (∀ d ∈ s.byAddr, s.size d < size) ∨
    ∃ i, BestFit s size i ∧ size < s.size i ∧ s.nUnused ≤ nReserveDescriptors ∧ useReserve = false

/-- `region_alloc_inner`, for a size that is not rounded to zero. -/
theorem alloc_inner_yields (size : Nat) (type : String) (useReserve : Bool)
    (h : Tiles lo hi (fun _ => False) s) (hbooks : Books s) (hsize : pageAlignUp size = n)
    (hn : 0 < n) (hpage : n % pageSize = 0) (hreserve : useReserve = true → 0 < s.nUnused) :
    Yields (regionAllocInner size type useReserve) s fun r s' =>
      (r = 0 ∧ s' = s ∧ Refused s n useReserve) ∨
      (¬ Refused s n useReserve ∧ ∃ i, r = s'.addr i ∧ Took s s' n type i ∧
        Tiles lo hi (fun _ => False) s' ∧ s'.lock = s.lock) := by
  unfold regionAllocInner
  rw [hsize]
  refine yields_bind_of_run (a := s) rfl ?_
  rw [seek_eq h.free.sorted h.free.skips (Nat.le_refl _)]
  cases hfound : firstFrom s.size n s.bySize with
  | none =>
      refine yields_pure (.inl ⟨rfl, rfl, .inl fun d hd => ?_⟩)
      exact first_from_none.mp hfound d (h.free.same.mem_iff.mpr hd)
  | some i =>
      obtain ⟨hmem, henough⟩ := first_from_some hfound
      have hbest : BestFit s n i := ⟨h.free.same.mem_iff.mp hmem, henough, fun b hb =>
        first_from_least h.free.sorted hfound b (h.free.same.mem_iff.mpr hb), hfound⟩
      have hsome : ¬ ∀ d ∈ s.byAddr, s.size d < n := fun hall =>
        absurd (hall i hbest.free) (Nat.not_lt.mpr henough)
      refine yields_ite (fun hmore => yields_ite (fun hfew => ?_) fun henoughleft => ?_)
        fun hexact => ?_
      · exact yields_pure (.inl ⟨rfl, rfl, .inr ⟨i, hbest, hmore, hfew⟩⟩)
      · have hnot : ¬ Refused s n useReserve := by
          rintro (hall | ⟨j, hj, hless, hfew⟩)
          · exact hsome hall
          · exact henoughleft hfew
        have hpos : 0 < s.nUnused := by
          by_cases huse : useReserve = true
          · exact hreserve huse
          · have hreal : ¬ s.nUnused ≤ 2 := fun hfew =>
              henoughleft ⟨hfew, Bool.eq_false_iff.mpr huse⟩
            omega
        obtain ⟨x, rest, hunused⟩ : ∃ x rest, s.unused = x :: rest := by
          cases hlist : s.unused with
          | nil =>
              rw [hbooks.count, hlist] at hpos
              cases hpos
          | cons x rest => exact ⟨x, rest, rfl⟩
        have hget : getUnused s = .ok (x, { s with unused := rest, nUnused := s.nUnused - 1 }) := by
          rw [getUnused, run_get_bind, hunused]
          rfl
        refine yields_bind_of_run hget ?_
        have hxi : x ≠ i := fun heq => (hbooks.apart hunused).1 (heq ▸ hbest.free)
        have hbelow := h.free.below i hbest.free
        have hcase : ∀ addr : Desc → Nat, (∀ e, e ≠ x → e ≠ i → addr e = s.addr e) →
            (addr x = s.addr i ∧ addr i = s.addr i + (s.size i - n) ∨
              addr x = s.addr i + n ∧ addr i = s.addr i) →
            (addr i = s.addr i + if n ≥ 0x4000 then 0 else s.size i - n) →
            Yields (do
                addFreeRegion x
                useRegion i n type) (s.split i x rest addr n) fun r s' =>
              (r = 0 ∧ s' = s ∧ Refused s n useReserve) ∨
              (¬ Refused s n useReserve ∧ ∃ i, r = s'.addr i ∧ Took s s' n type i ∧
                Tiles lo hi (fun _ => False) s' ∧ s'.lock = s.lock) :=
          fun addr haddr hparts hplace =>
            (cut_part_yields h hbooks hbest hpage hmore hunused haddr hparts hplace).bind
              fun _ t hcut => (hcut.use hbest hn).mono fun r s' htook => .inr ⟨hnot, i, htook⟩
        by_cases hlarge : n ≥ 0x4000
        · simp only [hlarge, if_true]
          refine yields_bind_of_run (a := ()) rfl (yields_bind_of_run (a := ()) rfl (hcase
            (Function.update s.addr x (wrap32 (s.addr i + n)))
            (fun e hex _ => Function.update_of_ne hex ..) (.inr ⟨?_, ?_⟩) ?_))
          · rw [Function.update_self, wrap_of_lt (by omega)]
          · rw [Function.update_of_ne fun heq => hxi heq.symm]
          · rw [Function.update_of_ne fun heq => hxi heq.symm, if_pos hlarge, Nat.add_zero]
        · simp only [hlarge, if_false]
          refine yields_bind_of_run (a := ()) rfl (yields_bind_of_run (a := ()) rfl (hcase
            (Function.update (Function.update s.addr x (s.addr i)) i
              (wrap32 (s.addr i + (s.size i - n)))) (fun e hex hei => ?_) (.inl ⟨?_, ?_⟩) ?_))
          · rw [Function.update_of_ne hei, Function.update_of_ne hex]
          · rw [Function.update_of_ne hxi, Function.update_self]
          · rw [Function.update_self, wrap_of_lt (by omega)]
          · rw [Function.update_self, wrap_of_lt (by omega), if_neg hlarge]
      · have heq : s.size i = n := by omega
        refine yields_bind_of_run (a := ()) rfl ?_
        refine ((cut_whole h hbest heq).use hbest hn).mono fun r s' htook => .inr ⟨?_, i, htook⟩
        rintro (hall | ⟨j, hj, hless, -⟩)
        · exact hsome hall
        · have hleast := hj.least i hbest.free henough
          omega

theorem Took.books (h : Took s s' n type i) (hbooks : Books s) : Books s' where
  distinct := h.ids.nodup_iff.mpr hbooks.distinct
  count := by
    have hcount := h.count
    rw [hbooks.count] at hcount
    omega
  own := fun page k hk => by
    obtain ⟨u, hu, haddr, hsize⟩ := hbooks.own page k (h.ids.mem_iff.mp hk)
    obtain ⟨haddr', hsize', -⟩ := h.others u hu
    exact ⟨u, h.used.mem_iff.mpr (List.mem_cons_of_mem i hu), haddr'.trans haddr,
      hsize'.trans hsize⟩

end Alloc

/-- The used region `d` has become free. -/
structure Released (s s' : Allocator) (d : Desc) : Prop where
  used : s.used.Perm (d :: s'.used)
  free : ∀ x, Covers s'.addr s'.size s'.byAddr x ↔
    Holds s.addr s.size d x ∨ Covers s.addr s.size s.byAddr x
  others : ∀ u ∈ s'.used, SameRegion s s' u
  ids : s'.ids.Perm s.ids
  count : s'.nUnused + s.unused.length = s.nUnused + s'.unused.length
  more : s.nUnused ≤ s'.nUnused

section Free

variable {lo hi : Nat} {s s' : Allocator} {d : Desc} {a : Nat}

theorem find_used_none {addr size : Desc → Nat} {l : List Desc}
    (hbelow : ∀ d ∈ l, addr d + size d < 0x100000000) (h : ∀ d ∈ l, ¬ Holds addr size d a) :
    findUsed addr size a l = none := by
  induction l with
  | nil => rfl
  | cons d l ih =>
      have hnot : ¬ (addr d ≤ a ∧ a < addr d + size d) := h d List.mem_cons_self
      rw [findUsed, wrap_of_lt (hbelow d List.mem_cons_self), if_neg hnot]
      split
      · rfl
      · exact ih (fun e he => hbelow e (List.mem_cons_of_mem d he))
          fun e he => h e (List.mem_cons_of_mem d he)

theorem Tiles.used_below {hole : Nat → Prop} (h : Tiles lo hi hole s) :
    ∀ u ∈ s.used, s.addr u + s.size u < 0x100000000 := by
  intro u hu
  have hpos := h.positive u hu
  have hlast : Holds s.addr s.size u (s.addr u + s.size u - 1) := ⟨by omega, by omega⟩
  have hend := ((h.whole _).mp (.inr (.inl ⟨u, hu, hlast⟩))).2
  have hshort := h.short
  omega

/-- `region_free_inner`, of any address. -/
theorem free_inner_yields (h : Tiles lo hi (fun _ => False) s) (a : Nat) :
    Yields (regionFreeInner a) s fun _ s' =>
      (s' = s ∧ ∀ d ∈ s.used, ¬ Holds s.addr s.size d a) ∨
      ∃ d ∈ s.used, Holds s.addr s.size d a ∧ Released s s' d ∧
        Tiles lo hi (fun _ => False) s' ∧ s'.lock = s.lock := by
  unfold regionFreeInner
  refine yields_bind_of_run (a := s) rfl ?_
  by_cases hheld : ∃ d ∈ s.used, Holds s.addr s.size d a
  · obtain ⟨d, hd, hda⟩ := hheld
    rw [find_used_eq h.apart h.positive h.used_below hd hda]
    obtain ⟨hperm, htaken⟩ := h.take_used hd
    refine yields_bind_of_run (a := ()) rfl ((htaken.fill_free (d := d) (h.positive d hd)
      (h.usedPages d hd) fun y hy => .inr hy).mono fun _ s' hfilled => ?_)
    obtain ⟨hfreed, htiles⟩ := hfilled
    have hnodup := h.apart.nodup h.positive
    have hnot : d ∉ (s.removeUsed d).used :=
      (List.nodup_cons.mp (hperm.nodup_iff.mp hnodup)).1
    refine .inr ⟨d, hd, hda, ⟨hfreed.used ▸ hperm, hfreed.covers, fun u hu => ?_, ?_, hfreed.count,
      hfreed.more⟩, htiles.congr_hole fun y => ?_, hfreed.lock⟩
    · rw [hfreed.used] at hu
      have hused : u ∈ s.used := hperm.mem_iff.mpr (List.mem_cons_of_mem d hu)
      obtain ⟨haddr, hsize⟩ := hfreed.others u (fun heq => hnot (heq ▸ hu)) (h.not_free hused)
      exact ⟨haddr, hsize, congrFun hfreed.type u⟩
    · show (s'.unused ++ s'.byAddr ++ s'.used).Perm (s.unused ++ s.byAddr ++ s.used)
      rw [hfreed.used]
      refine (hfreed.ids.append_right _).trans (List.perm_middle.symm.trans ?_)
      exact hperm.symm.append_left _
    · show False ↔ (False ∨ Holds s.addr s.size d y) ∧ ¬ Holds s.addr s.size d y
      tauto
  · have hnone : ∀ d ∈ s.used, ¬ Holds s.addr s.size d a := fun d hd hda => hheld ⟨d, hd, hda⟩
    rw [find_used_none h.used_below hnone]
    exact yields_pure (.inl ⟨rfl, hnone⟩)

/-- The books after a region has become free that is no page of descriptors. -/
theorem Released.books (h : Released s s' d) (hbooks : Books s)
    (hpage : ∀ page k, .inPage page k ∈ s.ids → s.addr d ≠ page) : Books s' where
  distinct := h.ids.nodup_iff.mpr hbooks.distinct
  count := by
    have hcount := h.count
    rw [hbooks.count] at hcount
    omega
  own := fun page k hk => by
    have hold := h.ids.mem_iff.mp hk
    obtain ⟨u, hu, haddr, hsize⟩ := hbooks.own page k hold
    rcases List.mem_cons.mp (h.used.mem_iff.mp hu) with rfl | hu'
    · exact absurd haddr (hpage page k hold)
    · obtain ⟨haddr', hsize', -⟩ := h.others u hu'
      exact ⟨u, hu', haddr'.trans haddr, hsize'.trans hsize⟩

end Free

end Kogata.Common.RegionAlloc
