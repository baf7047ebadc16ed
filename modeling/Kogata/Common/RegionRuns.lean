import Kogata.Common.RegionRefill

/-!
# Runs of the region allocator

`regionRuns` are the runs of `region_alloc` and `region_free` behind `region_allocator_init`, on any
memory and with any answers of the page mapping. `RegionsOk` holds between the calls
(`regions_ok_of_reachable`), where no size is rounded to zero and no page of descriptors is freed
from outside. What can stop a call is the assertion on the page for descriptors
(`region_alloc_within`).
-/

namespace Kogata.Common.RegionAlloc

open Lib.Effect Lib.Intervals Lib.Run Lib.SkipLinks

/-- What holds between two calls. -/
structure RegionsOk (lo hi : Nat) (s : Allocator) : Prop where
  ready : Ready lo hi s
  unlocked : s.lock = false

/-- `region_alloc_inner` has answered. -/
def Answer (s s' : Allocator) (n : Nat) (type : String) (r : Nat) : Prop :=
  (r = 0 ∧ s' = s ∧ Refused s n false) ∨
    (¬ Refused s n false ∧ ∃ i, r = s'.addr i ∧ Took s s' n type i)

/-- The address is in no page of descriptors. -/
def MayFree (s : Allocator) (a : Nat) : Prop :=
  ∀ page k, .inPage page k ∈ s.ids → ¬ (page ≤ a ∧ a < page + pageSize)

section Locks

variable {lo hi n r : Nat} {s s' : Allocator} {d i : Desc} {type : String} (b : Bool)

theorem Tiles.set_lock {hole : Nat → Prop} (h : Tiles lo hi hole s) :
    Tiles lo hi hole { s with lock := b } :=
  h.congr rfl rfl rfl rfl (fun _ _ => ⟨rfl, rfl⟩) fun _ _ => ⟨rfl, rfl⟩

theorem Ready.set_lock (h : Ready lo hi s) : Ready lo hi { s with lock := b } where
  tiles := h.tiles.set_lock b
  books := ⟨h.books.distinct, h.books.count, h.books.own⟩
  reserve := h.reserve

theorem BestFit.set_lock (h : BestFit s n i) : BestFit { s with lock := b } n i :=
  ⟨h.free, h.enough, h.least, h.found⟩

theorem Took.set_lock (h : Took s s' n type i) :
    Took { s with lock := b } { s' with lock := b } n type i where
  best := h.best.set_lock b
  place := h.place
  inside := h.inside
  used := h.used
  length := h.length
  named := h.named
  free := h.free
  others := h.others
  ids := h.ids
  count := h.count
  spare := h.spare
  exact := h.exact

theorem refused_set_lock {useReserve : Bool} :
    Refused { s with lock := b } n useReserve ↔ Refused s n useReserve :=
  or_congr Iff.rfl (exists_congr fun _ => and_congr_left fun _ =>
    ⟨fun h => ⟨h.free, h.enough, h.least, h.found⟩, BestFit.set_lock b⟩)

end Locks

section Calls

variable {lo hi n : Nat} {s s' : Allocator} {size : Nat} {type : String}

theorem Answer.ready {r : Nat} (h : Answer s s' n type r) (hs : Ready lo hi s)
    (htiles : Tiles lo hi (fun _ => False) s') : Ready lo hi s' := by
  rcases h with ⟨-, rfl, -⟩ | ⟨hnot, i, -, htook⟩
  · exact hs
  · refine ⟨htiles, htook.books hs.books, ?_⟩
    by_cases hexact : s.size i = n
    · exact htook.exact hexact ▸ hs.reserve
    · have hless : n < s.size i := Nat.lt_of_le_of_ne htook.best.enough fun heq => hexact heq.symm
      have hmany : nReserveDescriptors < s.nUnused := by
        by_contra hfew
        exact hnot (.inr ⟨i, htook.best, hless, Nat.not_lt.mp hfew, rfl⟩)
      have hspare := htook.spare
      show nReserveDescriptors ≤ s'.nUnused
      omega

/-- `region_alloc`, for a size that is not rounded to zero. -/
theorem region_alloc_within (hs : RegionsOk lo hi s) (mapOk : Bool) (type : String)
    (hsize : pageAlignUp size = n) (hn : 0 < n) (hpage : n % pageSize = 0) :
    Within (fun stop => stop = .noDescriptorRegion ∧ ¬ CanRefill s) (regionAlloc mapOk size type) s
      fun r s' => RegionsOk lo hi s' ∧
        ∃ mid, RegionsOk lo hi mid ∧ UpToPage s mid ∧ Answer mid s' n type r := by
  have hlock : lockRegions s = .ok ((), { s with lock := true }) := by
    show (if s.lock = true then _ else _ : RegionM Unit) s = _
    rw [hs.unlocked]
    rfl
  unfold regionAlloc
  refine within_bind_of_run hlock ((refill_within (hs.ready.set_lock true) mapOk).bind
    fun _ mid hmid => ?_)
  obtain ⟨hready, hsame, -⟩ := hmid
  refine (alloc_inner_yields size type false hready.tiles hready.books hsize hn hpage
    (fun hfalse => by cases hfalse)).within.bind fun r t hpost => within_of_run rfl ?_
  have hsame' : UpToPage s { mid with lock := false } :=
    ⟨hsame.others, hsame.page⟩
  have hmid : RegionsOk lo hi { mid with lock := false } := ⟨hready.set_lock false, rfl⟩
  have hanswer : Answer { mid with lock := false } { t with lock := false } n type r ∧
      Tiles lo hi (fun _ => False) { t with lock := false } := by
    rcases hpost with ⟨rfl, rfl, hrefused⟩ | ⟨hnot, i, hr, htook, htiles, -⟩
    · exact ⟨.inl ⟨rfl, rfl, (refused_set_lock false).mpr hrefused⟩, hmid.ready.tiles⟩
    · exact ⟨.inr ⟨fun hrefused => hnot ((refused_set_lock false).mp hrefused), i, hr,
        htook.set_lock false⟩, htiles.set_lock false⟩
  exact ⟨⟨hanswer.1.ready hmid.ready hanswer.2, rfl⟩, _, hmid, hsame', hanswer.1⟩

/-- A region that holds an address outside of the pages of descriptors is no such page. -/
theorem MayFree.no_page {a : Nat} {d : Desc} (h : MayFree s a) (hs : Ready lo hi s)
    (hd : d ∈ s.used) (hda : Holds s.addr s.size d a) :
    ∀ page k, .inPage page k ∈ s.ids → s.addr d ≠ page := by
  intro page k hk heq
  obtain ⟨u, hu, haddr, hsize⟩ := hs.books.own page k hk
  have hfirst : Holds s.addr s.size u (s.addr d) := by
    rw [heq, ← haddr]
    exact holds_first (hs.tiles.positive u hu)
  obtain rfl := hs.tiles.apart.eq_of_holds hu hd hfirst (holds_first (hs.tiles.positive d hd))
  refine h page k hk ?_
  rw [← haddr, ← hsize]
  exact hda

/-- `region_free`. -/
theorem region_free_yields {a : Nat} (hs : RegionsOk lo hi s) (ha : MayFree s a) :
    Yields (regionFree a) s fun _ s' => RegionsOk lo hi s' ∧
      ((s' = s ∧ ∀ d ∈ s.used, ¬ Holds s.addr s.size d a) ∨
        ∃ d ∈ s.used, Holds s.addr s.size d a ∧ Released s s' d) := by
  have hlock : lockRegions s = .ok ((), { s with lock := true }) := by
    show (if s.lock = true then _ else _ : RegionM Unit) s = _
    rw [hs.unlocked]
    rfl
  have hready := hs.ready.set_lock true
  unfold regionFree
  refine yields_bind_of_run hlock ((free_inner_yields hready.tiles a).bind
    fun _ t hpost => yields_of_run rfl ?_)
  rcases hpost with ⟨rfl, hnone⟩ | ⟨d, hd, hda, hback, htiles, -⟩
  · have hself : { s with lock := false } = s := by
      rw [← hs.unlocked]
    show RegionsOk lo hi { s with lock := false } ∧ (({ s with lock := false } = s ∧ _) ∨ _)
    rw [hself]
    exact ⟨hs, .inl ⟨rfl, hnone⟩⟩
  · have hback' : Released s { t with lock := false } d :=
      ⟨hback.used, hback.free, hback.others, hback.ids, hback.count, hback.more⟩
    refine ⟨⟨⟨htiles.set_lock false, hback'.books hs.ready.books (ha.no_page hs.ready hd hda),
      hs.ready.reserve.trans hback.more⟩, rfl⟩, .inr ⟨d, hd, hda, hback'⟩⟩

end Calls

/-- The arguments that `region_allocator_init` is meant for. -/
structure RangeOk (start rsvdEnd stop : Nat) : Prop where
  aligned : start % pageSize = 0 ∧ rsvdEnd % pageSize = 0 ∧ stop % pageSize = 0
  ordered : start ≤ rsvdEnd ∧ rsvdEnd < stop
  short : stop < 0x100000000

/-- The descriptors in front of the first region. -/
def baseDescriptors (n : Nat) : List Desc := ((List.range n).map Desc.base).reverse

section Init

variable {start rsvdEnd stop : Nat}

/-- The allocator behind `region_allocator_init`. -/
def initial (start rsvdEnd stop : Nat) (s : Allocator) : Allocator :=
  let free := { s with
    unused := baseDescriptors 11
    nUnused := 11
    addr := Function.update s.addr (.base 11) rsvdEnd
    size := Function.update s.size (.base 11) (stop - rsvdEnd)
    bySize := [.base 11]
    byAddr := [.base 11]
    firstBigger := Function.update s.firstBigger (.base 11) none }
  if rsvdEnd > start then
    { free with
      unused := baseDescriptors 10
      nUnused := 10
      addr := Function.update free.addr (.base 10) start
      size := Function.update free.size (.base 10) (rsvdEnd - start)
      type := Function.update free.type (.base 10) "Reserved"
      used := [.base 10] }
  else { free with used := [] }

theorem init_eq (h : RangeOk start rsvdEnd stop) (s : Allocator) :
    regionAllocatorInit start rsvdEnd stop s = .ok ((), initial start rsvdEnd stop s) := by
  have haligned : ¬ (start % pageSize ≠ 0 ∨ rsvdEnd % pageSize ≠ 0 ∨ stop % pageSize ≠ 0) := by
    have hall := h.aligned
    tauto
  unfold regionAllocatorInit initial
  simp only [haligned, if_false]
  by_cases hmore : rsvdEnd > start
  · simp only [hmore, if_true]
    rfl
  · simp only [hmore, if_false]
    rfl

theorem covers_single {addr size : Desc → Nat} {d : Desc} {x : Nat} :
    Covers addr size [d] x ↔ Holds addr size d x := by
  rw [covers_cons, or_iff_left covers_nil]

/-- One free region. -/
theorem free_single {s : Allocator} {d : Desc} (hby : s.byAddr = [d]) (hlist : s.bySize = [d])
    (hfirst : s.firstBigger d = none) (hpos : 0 < s.size d)
    (hbelow : s.addr d + s.size d < 0x100000000) : FreeOk s where
  same := by rw [hby, hlist]
  gapped := by rw [hby]; exact List.pairwise_singleton _ _
  positive := by rw [hby]; exact fun e he => List.mem_singleton.mp he ▸ hpos
  below := by rw [hby]; exact fun e he => List.mem_singleton.mp he ▸ hbelow
  sorted := by rw [hlist]; exact List.pairwise_singleton _ _
  skips := by rw [hlist]; exact ⟨hfirst, trivial⟩

/-- The free regions behind `region_allocator_init`, and those of the used list. -/
theorem initial_tiles (h : RangeOk start rsvdEnd stop) {s : Allocator} {d : Desc}
    (hby : s.byAddr = [d]) (hlist : s.bySize = [d]) (hfirst : s.firstBigger d = none)
    (haddr : s.addr d = rsvdEnd) (hsize : s.size d = stop - rsvdEnd)
    (hused : s.used = [] ∧ rsvdEnd = start ∨ ∃ u, s.used = [u] ∧ start < rsvdEnd ∧
      s.addr u = start ∧ s.size u = rsvdEnd - start) :
    Tiles start stop (fun _ => False) s := by
  obtain ⟨hstart, hrsvd, hstop⟩ := h.aligned
  obtain ⟨hle, hlt⟩ := h.ordered
  have hshort := h.short
  have hsub : ∀ {a b : Nat}, a % pageSize = 0 → b % pageSize = 0 → (a - b) % pageSize = 0 :=
    fun ha hb => Nat.mod_eq_zero_of_dvd
      (Nat.dvd_sub (Nat.dvd_of_mod_eq_zero ha) (Nat.dvd_of_mod_eq_zero hb))
  have hfree : ∀ x, Covers s.addr s.size s.byAddr x ↔ rsvdEnd ≤ x ∧ x < stop := by
    intro x
    rw [hby, covers_single, Holds, haddr, hsize, Nat.add_sub_of_le (Nat.le_of_lt hlt)]
  have hpos : 0 < s.size d := hsize ▸ Nat.sub_pos_of_lt hlt
  have hbelow : s.addr d + s.size d < 0x100000000 := by
    rwa [haddr, hsize, Nat.add_sub_of_le (Nat.le_of_lt hlt)]
  have hok : FreeOk s := free_single hby hlist hfirst hpos hbelow
  have hpages : ∀ e ∈ s.byAddr, PageRange s.addr s.size e := by
    rw [hby]
    intro e he
    obtain rfl := List.mem_singleton.mp he
    exact ⟨haddr.symm ▸ hrsvd, hsize.symm ▸ hsub hstop hrsvd⟩
  rcases hused with ⟨hnil, heq⟩ | ⟨u, hone, hless, huaddr, husize⟩
  · refine ⟨hshort, hok, ?_, ?_, hpages, ?_, fun x => ?_, fun x _ => ?_, fun _ hx => hx.elim⟩
    · rw [hnil]
      exact List.Pairwise.nil
    · rw [hnil]
      exact fun _ he => absurd he List.not_mem_nil
    · rw [hnil]
      exact fun _ he => absurd he List.not_mem_nil
    · rw [hfree, hnil, heq]
      have hnone : ¬ Covers s.addr s.size [] x := covers_nil
      tauto
    · rw [hnil]
      exact covers_nil
  · have hcovers : ∀ x, Covers s.addr s.size s.used x ↔ start ≤ x ∧ x < rsvdEnd := by
      intro x
      rw [hone, covers_single, Holds, huaddr, husize]
      omega
    refine ⟨hshort, hok, ?_, ?_, hpages, ?_, fun x => ?_, fun x hx => ?_, fun _ hx => hx.elim⟩
    · rw [hone]
      exact List.pairwise_singleton _ _
    · rw [hone]
      intro e he
      obtain rfl := List.mem_singleton.mp he
      omega
    · rw [hone]
      intro e he
      obtain rfl := List.mem_singleton.mp he
      exact ⟨huaddr.symm ▸ hstart, husize.symm ▸ hsub hrsvd hstart⟩
    · rw [hfree, hcovers]
      show (rsvdEnd ≤ x ∧ x < stop) ∨ (start ≤ x ∧ x < rsvdEnd) ∨ False ↔ start ≤ x ∧ x < stop
      rw [or_false]
      omega
    · rw [hcovers]
      have hx' := (hfree x).mp hx
      omega

/-- The allocator behind `region_allocator_init`. -/
theorem initial_ok (h : RangeOk start rsvdEnd stop) {s : Allocator} (hlock : s.lock = false) :
    RegionsOk start stop (initial start rsvdEnd stop s) := by
  have hne : Desc.base 11 ≠ Desc.base 10 := by decide
  unfold initial
  by_cases hmore : rsvdEnd > start
  · rw [if_pos hmore]
    refine ⟨⟨initial_tiles (d := .base 11) h rfl rfl ?_ ?_ ?_
      (.inr ⟨.base 10, rfl, hmore, ?_, ?_⟩), ⟨?_, rfl, ?_⟩, ?_⟩, hlock⟩
    · show Function.update s.firstBigger (Desc.base 11) none (Desc.base 11) = none
      rw [Function.update_self]
    · show Function.update (Function.update s.addr (Desc.base 11) rsvdEnd) (Desc.base 10) start
        (Desc.base 11) = rsvdEnd
      rw [Function.update_of_ne hne, Function.update_self]
    · show Function.update (Function.update s.size (Desc.base 11) (stop - rsvdEnd)) (Desc.base 10)
        (rsvdEnd - start) (Desc.base 11) = stop - rsvdEnd
      rw [Function.update_of_ne hne, Function.update_self]
    · show Function.update (Function.update s.addr (Desc.base 11) rsvdEnd) (Desc.base 10) start
        (Desc.base 10) = start
      rw [Function.update_self]
    · show Function.update (Function.update s.size (Desc.base 11) (stop - rsvdEnd)) (Desc.base 10)
        (rsvdEnd - start) (Desc.base 10) = rsvdEnd - start
      rw [Function.update_self]
    · show (baseDescriptors 10 ++ [Desc.base 11] ++ [Desc.base 10]).Nodup
      decide
    · intro page k hk
      change .inPage page k ∈ baseDescriptors 10 ++ [Desc.base 11] ++ [Desc.base 10] at hk
      simp [baseDescriptors] at hk
    · show nReserveDescriptors ≤ 10
      decide
  · rw [if_neg hmore]
    refine ⟨⟨initial_tiles (d := .base 11) h rfl rfl ?_ ?_ ?_ (.inl ⟨rfl, ?_⟩),
      ⟨?_, rfl, ?_⟩, ?_⟩, hlock⟩
    · show Function.update s.firstBigger (Desc.base 11) none (Desc.base 11) = none
      rw [Function.update_self]
    · show Function.update s.addr (Desc.base 11) rsvdEnd (Desc.base 11) = rsvdEnd
      rw [Function.update_self]
    · show Function.update s.size (Desc.base 11) (stop - rsvdEnd) (Desc.base 11) = stop - rsvdEnd
      rw [Function.update_self]
    · exact Nat.le_antisymm (Nat.not_lt.mp hmore) h.ordered.1
    · show (baseDescriptors 11 ++ [Desc.base 11] ++ []).Nodup
      decide
    · intro page k hk
      change .inPage page k ∈ baseDescriptors 11 ++ [Desc.base 11] ++ [] at hk
      simp [baseDescriptors] at hk
    · show nReserveDescriptors ≤ 11
      decide

end Init

/-- A call of the allocator, with what the page mapping answers. -/
inductive Call where
  | alloc (mapOk : Bool) (size : Nat) (type : String)
  | free (a : Nat)

/-- The allocator behind a call. -/
def runCall (s : Allocator) : Call → Option Allocator
  | .alloc mapOk size type => (regionAlloc mapOk size type s).toOption.map Prod.snd
  | .free a => (regionFree a s).toOption.map Prod.snd

/-- The size is not rounded to zero, and no page of descriptors is freed. -/
def Fair (s : Allocator) : Call → Prop
  | .alloc _ size _ => 0 < size ∧ size ≤ 0xFFFFF000
  | .free a => MayFree s a

/-- The runs of the allocator on an address range. -/
def regionRuns (start rsvdEnd stop : Nat) (allowed : Allocator → Call → Prop) : System Allocator :=
  eventRuns (fun s => ∃ s₀, s₀.lock = false ∧
    regionAllocatorInit start rsvdEnd stop s₀ = .ok ((), s)) runCall allowed

/-- What `PAGE_ALIGN_UP` does where it does not overflow. -/
theorem page_align_up {size : Nat} (hpos : 0 < size) (hsize : size ≤ 0xFFFFF000) :
    size ≤ pageAlignUp size ∧ 0 < pageAlignUp size ∧ pageAlignUp size % pageSize = 0 := by
  unfold pageAlignUp pageSize
  split
  · next hpage => exact ⟨Nat.le_refl _, hpos, hpage⟩
  · next hpage =>
      rw [wrap_of_lt (by omega)]
      refine ⟨by omega, by omega, by omega⟩

theorem ok_of_to_option {ε α : Type} {x : Except ε α} {a : α} (h : x.toOption = some a) :
    x = .ok a := by
  cases x with
  | error e => cases h
  | ok b => exact congrArg Except.ok (Option.some.inj h)

section Runs

variable {start rsvdEnd stop : Nat} {allowed : Allocator → Call → Prop} {s s' : Allocator}

/-- A call keeps the invariant. -/
theorem call_keeps {lo hi : Nat} {c : Call} (hs : RegionsOk lo hi s) (hfair : Fair s c)
    (hrun : runCall s c = some s') : RegionsOk lo hi s' := by
  cases c with
  | alloc mapOk size type =>
      obtain ⟨⟨r, t⟩, hcall, rfl⟩ := Option.map_eq_some_iff.mp hrun
      obtain ⟨-, hpos, hpage⟩ := page_align_up hfair.1 hfair.2
      exact ((region_alloc_within hs mapOk type rfl hpos hpage).ensures r t
        (ok_of_to_option hcall)).1
  | free a =>
      obtain ⟨⟨r, t⟩, hcall, rfl⟩ := Option.map_eq_some_iff.mp hrun
      exact ((region_free_yields hs hfair).ensures r t (ok_of_to_option hcall)).1

theorem regions_ok_of_reachable (h : RangeOk start rsvdEnd stop)
    (hallowed : ∀ s c, allowed s c → Fair s c)
    (hs : Reachable (regionRuns start rsvdEnd stop allowed) s) : RegionsOk start stop s := by
  refine Reachable.induct (motive := fun s => RegionsOk start stop s) ?_ ?_ hs
  · rintro s ⟨s₀, hlock, hinit⟩
    rw [init_eq h] at hinit
    cases hinit
    exact initial_ok h hlock
  · rintro s s' hok ⟨c, hc, hrun⟩
    exact call_keeps hok (hallowed s c hc) hrun

end Runs

end Kogata.Common.RegionAlloc
