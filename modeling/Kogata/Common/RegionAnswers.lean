import Kogata.Common.RegionRuns

/-!
# What holds in every run of the region allocator

The regions tile the range and the free ones are the gaps between the used ones (`regions_tile`).
The search is a best fit (`region_alloc_inner_best_fit`), and the descriptors suffice
(`enough_descriptors`). A size that `PAGE_ALIGN_UP` rounds to zero and a range without a free page
are the cases in which a call goes wrong (`region_alloc_every_size`, `region_alloc_exhausted`).
-/

namespace Kogata.Common.RegionAlloc

open Lib.Effect Lib.Intervals Lib.Run Lib.SkipLinks

section Gaps

variable {lo hi : Nat} {s : Allocator} {d : Desc} {a b : Nat}

/-- What is next to a free region is used, or outside of the range. -/
theorem free_is_maximal (h : Tiles lo hi (fun _ => False) s) (hd : d ∈ s.byAddr) :
    (s.addr d = lo ∨ Covers s.addr s.size s.used (s.addr d - 1)) ∧
      (s.addr d + s.size d = hi ∨ Covers s.addr s.size s.used (s.addr d + s.size d)) := by
  have hpos := h.free.positive d hd
  have hin : ∀ x, Holds s.addr s.size d x → lo ≤ x ∧ x < hi := fun x hx =>
    (h.whole x).mp (.inl ⟨d, hd, hx⟩)
  have hfirst := hin _ (holds_first hpos)
  have hlast := hin (s.addr d + s.size d - 1) ⟨by omega, by omega⟩
  have hapart : ∀ e ∈ s.byAddr, e ≠ d →
      s.addr d + s.size d < s.addr e ∨ s.addr e + s.size e < s.addr d := by
    intro e he hne
    have hsym : Std.Symm fun c e : Desc =>
        s.addr c + s.size c < s.addr e ∨ s.addr e + s.size e < s.addr c :=
      ⟨fun _ _ hor => hor.symm⟩
    have hpairs : s.byAddr.Pairwise fun c e =>
        s.addr c + s.size c < s.addr e ∨ s.addr e + s.size e < s.addr c :=
      List.Pairwise.imp Or.inl h.free.gapped
    exact hpairs.forall hd he fun heq => hne heq.symm
  have hused : ∀ x, lo ≤ x → x < hi → ¬ Holds s.addr s.size d x →
      (∀ e ∈ s.byAddr, e ≠ d → ¬ Holds s.addr s.size e x) → Covers s.addr s.size s.used x := by
    intro x hlo hhi hx hother
    rcases (h.whole x).mpr ⟨hlo, hhi⟩ with ⟨e, he, hex⟩ | hx' | hx'
    · by_cases hed : e = d
      · exact absurd (hed ▸ hex) hx
      · exact absurd hex (hother e he hed)
    · exact hx'
    · exact hx'.elim
  constructor
  · by_cases heq : s.addr d = lo
    · exact .inl heq
    · refine .inr (hused _ (by omega) (by omega) (fun hx => ?_) fun e he hne hx => ?_)
      · have hle := hx.1
        omega
      · have hex := hx
        unfold Holds at hex
        rcases hapart e he hne with hlt | hlt
        · omega
        · omega
  · by_cases heq : s.addr d + s.size d = hi
    · exact .inl heq
    · refine .inr (hused _ (by omega) (by omega) (fun hx => ?_) fun e he hne hx => ?_)
      · exact absurd hx.2 (Nat.lt_irrefl _)
      · have hex := hx
        unfold Holds at hex
        rcases hapart e he hne with hlt | hlt
        · omega
        · omega

/-- The free regions are the gaps between the used ones. -/
theorem free_iff_gap (h : Tiles lo hi (fun _ => False) s) :
    (∃ d ∈ s.byAddr, s.addr d = a ∧ s.addr d + s.size d = b) ↔
      a < b ∧ lo ≤ a ∧ b ≤ hi ∧ (∀ x, a ≤ x → x < b → ¬ Covers s.addr s.size s.used x) ∧
        (a = lo ∨ Covers s.addr s.size s.used (a - 1)) ∧
        (b = hi ∨ Covers s.addr s.size s.used b) := by
  constructor
  · rintro ⟨d, hd, rfl, rfl⟩
    have hpos := h.free.positive d hd
    obtain ⟨hbefore, hbehind⟩ := free_is_maximal h hd
    have hfirst := (h.whole _).mp (.inl ⟨d, hd, holds_first hpos⟩)
    have hlast := (h.whole (s.addr d + s.size d - 1)).mp (.inl ⟨d, hd, by omega, by omega⟩)
    exact ⟨by omega, hfirst.1, by omega, fun x hle hlt => h.disjoint x ⟨d, hd, hle, hlt⟩, hbefore,
      hbehind⟩
  · rintro ⟨hlt, hlo, hhi, hclear, hbefore, hbehind⟩
    have hfree : ∀ x, a ≤ x → x < b → Covers s.addr s.size s.byAddr x := by
      intro x hax hxb
      rcases (h.whole x).mpr ⟨by omega, by omega⟩ with hx | hx | hx
      · exact hx
      · exact absurd hx (hclear x hax hxb)
      · exact hx.elim
    obtain ⟨d, hd, hda⟩ := hfree a (Nat.le_refl _) hlt
    have hin : ∀ x, Holds s.addr s.size d x → ¬ Covers s.addr s.size s.used x ∧ lo ≤ x ∧ x < hi :=
      fun x hx => ⟨h.disjoint x ⟨d, hd, hx⟩, (h.whole x).mp (.inl ⟨d, hd, hx⟩)⟩
    have hpos := h.free.positive d hd
    obtain ⟨hbeforeD, hbehindD⟩ := free_is_maximal h hd
    obtain ⟨hle, hend⟩ := hda
    have haddr : s.addr d = a := by
      rcases Nat.lt_or_eq_of_le hle with hless | heq
      · have hprev := hin (a - 1) ⟨by omega, by omega⟩
        rcases hbefore with rfl | hused
        · have hfirst := (hin _ (holds_first hpos)).2.1
          omega
        · exact absurd hused hprev.1
      · exact heq
    refine ⟨d, hd, haddr, ?_⟩
    rcases Nat.lt_trichotomy (s.addr d + s.size d) b with hless | heq | hless
    · rcases hbehindD with heq | hused
      · omega
      · exact absurd hused (hclear _ (by omega) hless)
    · exact heq
    · have hnext := hin b ⟨by omega, by omega⟩
      rcases hbehind with rfl | hused
      · exact absurd hnext.2.2 (Nat.lt_irrefl _)
      · exact absurd hused hnext.1

end Gaps

section Claims

variable {start rsvdEnd stop : Nat} {s : Allocator}

/-- In every run the free and the used regions tile the range, the two lists of free regions are in
order, and the free regions are the gaps between the used ones. -/
theorem regions_tile (h : RangeOk start rsvdEnd stop)
    (hs : Reachable (regionRuns start rsvdEnd stop Fair) s) :
    (∀ x, Covers s.addr s.size s.byAddr x ∨ Covers s.addr s.size s.used x ↔
      start ≤ x ∧ x < stop) ∧
    (∀ x, ¬ (Covers s.addr s.size s.byAddr x ∧ Covers s.addr s.size s.used x)) ∧
    Apart s.addr s.size s.used ∧ Gapped s.addr s.size s.byAddr ∧
    s.bySize.Perm s.byAddr ∧ s.byAddr.Nodup ∧ Lib.SkipLinks.Sorted s.size s.bySize ∧
    ∀ a b, (∃ d ∈ s.byAddr, s.addr d = a ∧ s.addr d + s.size d = b) ↔
      a < b ∧ start ≤ a ∧ b ≤ stop ∧ (∀ x, a ≤ x → x < b → ¬ Covers s.addr s.size s.used x) ∧
        (a = start ∨ Covers s.addr s.size s.used (a - 1)) ∧
        (b = stop ∨ Covers s.addr s.size s.used b) := by
  have htiles := (regions_ok_of_reachable h (fun _ _ hc => hc) hs).ready.tiles
  refine ⟨fun x => ?_, fun x hx => htiles.disjoint x hx.1 hx.2, htiles.apart, htiles.free.gapped,
    htiles.free.same, htiles.free.gapped.apart.nodup htiles.free.positive, htiles.free.sorted,
    fun a b => free_iff_gap htiles⟩
  rw [← htiles.whole x, or_false]

/-- In every run the number of unused descriptors is right, and there are always enough: taking one
never fails, and `region_free` takes none. -/
theorem enough_descriptors (h : RangeOk start rsvdEnd stop)
    (hs : Reachable (regionRuns start rsvdEnd stop Fair) s) :
    s.nUnused = s.unused.length ∧ nReserveDescriptors ≤ s.nUnused ∧
    (∀ mapOk size type, 0 < size → size ≤ 0xFFFFF000 →
      regionAlloc mapOk size type s ≠ .error .noUnused) ∧
    ∀ a, MayFree s a → ∃ s', regionFree a s = .ok ((), s') ∧ s.nUnused ≤ s'.nUnused := by
  have hok := regions_ok_of_reachable h (fun _ _ hc => hc) hs
  refine ⟨hok.ready.books.count, hok.ready.reserve, fun mapOk size type hpos hsize hrun => ?_,
    fun a ha => ?_⟩
  · obtain ⟨-, hpos', hpage⟩ := page_align_up hpos hsize
    cases ((region_alloc_within hok mapOk type rfl hpos' hpage).allows hrun).1
  · obtain ⟨_, s', hrun, -, hpost⟩ := region_free_yields hok ha
    refine ⟨s', hrun, ?_⟩
    rcases hpost with ⟨rfl, -⟩ | ⟨d, -, -, hback⟩
    · exact Nat.le_refl _
    · exact hback.more

/-- In every run the links by size are right, so that the checks on them never fail, and
`region_alloc_inner` takes the smallest region that is large enough. -/
theorem region_alloc_inner_best_fit (h : RangeOk start rsvdEnd stop)
    (hs : Reachable (regionRuns start rsvdEnd stop Fair) s) :
    Skips s.size s.firstBigger s.bySize ∧ (s.bySize ≠ [] → s.checked = true) ∧
    (∀ c, Fair s c → match c with
      | .alloc mapOk size type => regionAlloc mapOk size type s ≠ .error .firstBigger
      | .free a => regionFree a s ≠ .error .firstBigger) ∧
    ∀ n type useReserve, 0 < n → n % pageSize = 0 →
      ∃ r s', regionAllocInner n type useReserve s = .ok (r, s') ∧
        (Refused s n useReserve → r = 0 ∧ s' = s) ∧
        (¬ Refused s n useReserve → ∃ i, BestFit s n i ∧ r = s'.addr i ∧ s'.size i = n ∧
          s'.used.Perm (i :: s.used) ∧ (∀ u ∈ s.used, SameRegion s s' u) ∧
          (∀ x, r ≤ x ∧ x < r + n → Covers s.addr s.size s.byAddr x) ∧
          (∀ x, Covers s'.addr s'.size s'.byAddr x ↔
            Covers s.addr s.size s.byAddr x ∧ ¬ (r ≤ x ∧ x < r + n)) ∧
          (∀ x, Covers s'.addr s'.size s'.used x ↔
            Covers s.addr s.size s.used x ∨ (r ≤ x ∧ x < r + n))) ∧
        (0 < start → (r = 0 ↔ Refused s n useReserve)) := by
  have hok := regions_ok_of_reachable h (fun _ _ hc => hc) hs
  refine ⟨hok.ready.tiles.free.skips, hok.ready.tiles.free.checked, fun c hc => ?_,
    fun n type useReserve hn hpage => ?_⟩
  · cases c with
    | alloc mapOk size type =>
        intro hrun
        obtain ⟨-, hpos, hpage⟩ := page_align_up hc.1 hc.2
        cases ((region_alloc_within hok mapOk type rfl hpos hpage).allows hrun).1
    | free a =>
        intro hrun
        obtain ⟨_, s', hrun', -⟩ := region_free_yields hok hc
        cases hrun.symm.trans hrun'
  · have hround : pageAlignUp n = n := if_pos hpage
    obtain ⟨r, s', hrun, hpost⟩ := alloc_inner_yields n type useReserve hok.ready.tiles
      hok.ready.books hround hn hpage fun _ => Nat.lt_of_lt_of_le (by decide) hok.ready.reserve
    refine ⟨r, s', hrun, fun hrefused => ?_, fun hnot => ?_, fun hstart => ⟨fun hzero => ?_,
      fun hrefused => ?_⟩⟩
    · rcases hpost with ⟨hr, hs', -⟩ | ⟨hnot, -⟩
      · exact ⟨hr, hs'⟩
      · exact absurd hrefused hnot
    · rcases hpost with ⟨-, -, hrefused⟩ | ⟨-, i, rfl, htook, -, -⟩
      · exact absurd hrefused hnot
      · have hholds : ∀ x, Holds s'.addr s'.size i x ↔ s'.addr i ≤ x ∧ x < s'.addr i + n := by
          intro x
          rw [Holds, htook.length]
        refine ⟨i, htook.best, rfl, htook.length, htook.used, htook.others, fun x hx => ?_,
          fun x => ?_, fun x => ?_⟩
        · exact ⟨i, htook.best.free, htook.inside x ((hholds x).mpr hx)⟩
        · rw [htook.free, hholds]
        · rw [covers_perm htook.used, covers_cons, hholds,
            covers_congr fun u hu => ⟨(htook.others u hu).1, (htook.others u hu).2.1⟩]
          tauto
    · rcases hpost with ⟨-, -, hrefused⟩ | ⟨-, i, rfl, htook, htiles, -⟩
      · exact hrefused
      · have hself : i ∈ s'.used := htook.used.mem_iff.mpr List.mem_cons_self
        have hin := (htiles.whole (s'.addr i)).mp
          (.inr (.inl ⟨i, hself, holds_first (htiles.positive i hself)⟩))
        omega
    · rcases hpost with ⟨hr, -⟩ | ⟨hnot, -⟩
      · exact hr
      · exact absurd hrefused hnot

/-- The size is not rounded to zero, there is a page for descriptors where one is needed, and no
page of descriptors is freed. -/
def Sound (s : Allocator) : Call → Prop
  | .alloc _ size _ => 0 < size ∧ size ≤ 0xFFFFF000 ∧ CanRefill s
  | .free a => MayFree s a

theorem Sound.fair {c : Call} (h : Sound s c) : Fair s c := by
  cases c with
  | alloc mapOk size type => exact ⟨h.1, h.2.1⟩
  | free a => exact h

/-- The answer is 0 and the regions are the same, or it is the address of a region that was free and
is now used, apart from the others and large enough. -/
def Granted (s s' : Allocator) (size r : Nat) : Prop :=
  (r = 0 ∧ UpToPage s s') ∨
    (r % pageSize = 0 ∧ ∃ i ∈ s'.used, s'.addr i = r ∧ size ≤ s'.size i ∧
      (∀ x, Holds s'.addr s'.size i x →
        Covers s.addr s.size s.byAddr x ∧ ¬ Covers s'.addr s'.size s'.byAddr x) ∧
      ∀ u ∈ s'.used, u ≠ i → ∀ x, Holds s'.addr s'.size u x → ¬ Holds s'.addr s'.size i x)

theorem region_alloc_yields {lo hi size : Nat} (hok : RegionsOk lo hi s) (mapOk : Bool)
    (type : String) (hpos : 0 < size) (hsize : size ≤ 0xFFFFF000) (hcan : CanRefill s) :
    Yields (regionAlloc mapOk size type) s fun r s' => RegionsOk lo hi s' ∧
      ∃ mid, RegionsOk lo hi mid ∧ UpToPage s mid ∧ Answer mid s' (pageAlignUp size) type r := by
  obtain ⟨-, hpos', hpage⟩ := page_align_up hpos hsize
  have hwithin := region_alloc_within hok mapOk type rfl hpos' hpage
  cases hrun : regionAlloc mapOk size type s with
  | ok x => exact yields_of_run hrun (hwithin.ensures x.1 x.2 hrun)
  | error stop => exact absurd hcan (hwithin.allows hrun).2

theorem UpToPage.free_before {s' : Allocator} (h : UpToPage s s') {x : Nat}
    (hx : Covers s'.addr s'.size s'.byAddr x) : Covers s.addr s.size s.byAddr x := by
  rcases h.page with ⟨-, hcovers⟩ | ⟨d, -, -, -, hcovers⟩
  · exact (hcovers x).mp hx
  · exact ((hcovers x).mp hx).1

theorem granted_of_answer {lo hi size r : Nat} {mid s' : Allocator} {type : String}
    (hok : RegionsOk lo hi s') (hsame : UpToPage s mid)
    (hanswer : Answer mid s' (pageAlignUp size) type r) (hsize : size ≤ pageAlignUp size) :
    Granted s s' size r := by
  rcases hanswer with ⟨rfl, rfl, -⟩ | ⟨-, i, rfl, htook⟩
  · exact .inl ⟨rfl, hsame⟩
  · have htiles := hok.ready.tiles
    have hself : i ∈ s'.used := htook.used.mem_iff.mpr List.mem_cons_self
    refine .inr ⟨(htiles.usedPages i hself).1, i, hself, rfl, htook.length ▸ hsize,
      fun x hx => ⟨hsame.free_before ⟨i, htook.best.free, htook.inside x hx⟩, fun hfree => ?_⟩,
      fun u hu hne x hux hix => hne (htiles.apart.eq_of_holds hu hself hux hix)⟩
    exact htiles.disjoint x hfree ⟨i, hself, hx⟩

/-- In every run of such calls, `region_alloc` grants what it answers, and no call stops. -/
theorem region_alloc_every_size (h : RangeOk start rsvdEnd stop)
    (hs : Reachable (regionRuns start rsvdEnd stop Sound) s) :
    (∀ mapOk size type, Sound s (.alloc mapOk size type) →
      ∃ r s', regionAlloc mapOk size type s = .ok (r, s') ∧ Granted s s' size r) ∧
    ∀ a, MayFree s a → ∃ s', regionFree a s = .ok ((), s') := by
  have hok := regions_ok_of_reachable h (fun _ _ hc => hc.fair) hs
  refine ⟨fun mapOk size type hsound => ?_, fun a ha => ?_⟩
  · obtain ⟨hpos, hsize, hcan⟩ := hsound
    obtain ⟨r, s', hrun, hok', mid, -, hsame, hanswer⟩ :=
      region_alloc_yields hok mapOk type hpos hsize hcan
    exact ⟨r, s', hrun, granted_of_answer hok' hsame hanswer (page_align_up hpos hsize).1⟩
  · obtain ⟨_, s', hrun, -⟩ := region_free_yields hok ha
    exact ⟨s', hrun⟩

/-- In every run of such calls, `region_alloc` comes back, and where it answers 0, the used regions
are as they were. -/
theorem region_alloc_exhausted (h : RangeOk start rsvdEnd stop)
    (hs : Reachable (regionRuns start rsvdEnd stop Sound) s) (mapOk : Bool) (size : Nat)
    (type : String) (hc : Sound s (.alloc mapOk size type)) :
    ∃ r s', regionAlloc mapOk size type s = .ok (r, s') ∧
      (r = 0 → ∀ u ∈ s.used, u ∈ s'.used ∧ SameRegion s s' u) := by
  have hok := regions_ok_of_reachable h (fun _ _ hc => hc.fair) hs
  obtain ⟨hpos, hsize, hcan⟩ := hc
  obtain ⟨r, s', hrun, -, mid, -, hsame, hanswer⟩ :=
    region_alloc_yields hok mapOk type hpos hsize hcan
  refine ⟨r, s', hrun, fun _ u hu => ?_⟩
  obtain ⟨humid, haddr, hsize', htype⟩ := hsame.others u hu
  rcases hanswer with ⟨-, rfl, -⟩ | ⟨-, i, -, htook⟩
  · exact ⟨humid, haddr, hsize', htype⟩
  · obtain ⟨haddr', hsize'', htype'⟩ := htook.others u humid
    exact ⟨htook.used.mem_iff.mpr (List.mem_cons_of_mem i humid), haddr'.trans haddr,
      hsize''.trans hsize', htype'.trans htype⟩

end Claims

section Cases

theorem user_range : RangeOk 0x40000000 0x40000000 0xB0000000 where
  aligned := ⟨rfl, rfl, rfl⟩
  ordered := ⟨Nat.le_refl _, Nat.lt_of_sub_pos (Nat.zero_lt_succ _)⟩
  short := Nat.lt_of_sub_pos (Nat.zero_lt_succ _)

/-- The regions of a process behind `region_allocator_init`. -/
def userRegions : Allocator := initial 0x40000000 0x40000000 0xB0000000 Allocator.zero

theorem user_reachable (allowed : Allocator → Call → Prop) :
    Reachable (regionRuns 0x40000000 0x40000000 0xB0000000 allowed) userRegions :=
  .init ⟨Allocator.zero, rfl, init_eq user_range Allocator.zero⟩

theorem user_can_refill : CanRefill userRegions := .inl (Nat.lt_of_sub_pos (Nat.zero_lt_succ _))

theorem page_fair : 0 < 0x1000 ∧ 0x1000 ≤ 0xFFFFF000 :=
  ⟨Nat.zero_lt_succ _, Nat.le_of_sub_eq_zero rfl⟩

theorem regions_tile_one_page : ∃ s, runCall userRegions (.alloc true 0x1000 "a") = some s ∧
    s.used.map s.addr = [0xAFFFF000] ∧
    ∀ x, Covers s.addr s.size s.byAddr x ∨ Covers s.addr s.size s.used x ↔
      0x40000000 ≤ x ∧ x < 0xB0000000 :=
  ⟨_, rfl, rfl, (regions_tile user_range (.step (user_reachable Fair)
    ⟨.alloc true 0x1000 "a", page_fair, rfl⟩)).1⟩

theorem enough_descriptors_one_page : ∃ s, runCall userRegions (.alloc true 0x1000 "a") = some s ∧
    s.nUnused = 10 ∧ s.nUnused = s.unused.length :=
  ⟨_, rfl, rfl, (enough_descriptors user_range (.step (user_reachable Fair)
    ⟨.alloc true 0x1000 "a", page_fair, rfl⟩)).1⟩

/-- Two pages are taken, and then one. -/
def takenPages : Option Allocator :=
  (runCall userRegions (.alloc true 0x2000 "a")).bind (runCall · (.alloc true 0x1000 "b"))

/-- The two pages are freed, and are the best for one page. -/
theorem best_fit_freed_pages : ∃ s₂ s s' i, takenPages = some s₂ ∧
    runCall s₂ (.free 0xAFFFE000) = some s ∧ BestFit s 0x1000 i ∧ s'.addr i = 0xAFFFF000 ∧
    regionAllocInner 0x1000 "c" false s = .ok (0xAFFFF000, s') := by
  have hview : (takenPages.bind fun s₂ => (runCall s₂ (.free 0xAFFFE000)).bind fun s =>
      (regionAllocInner 0x1000 "c" false s).toOption.map fun x =>
        (decide (∀ d ∈ s₂.ids, d ∈ baseDescriptors 12), x.1)) = some (true, 0xAFFFF000) := by
    decide +kernel
  obtain ⟨s₂, htaken, hview⟩ := Option.bind_eq_some_iff.mp hview
  obtain ⟨s, hfree, hview⟩ := Option.bind_eq_some_iff.mp hview
  obtain ⟨⟨r, s'⟩, hrun, hpair⟩ := Option.map_eq_some_iff.mp hview
  obtain ⟨hids, rfl⟩ := Prod.mk.inj hpair
  obtain ⟨s₁, hfirst, hsecond⟩ := Option.bind_eq_some_iff.mp htaken
  have hmay : MayFree s₂ 0xAFFFE000 := fun page k hk => by
    simpa [baseDescriptors] using of_decide_eq_true hids _ hk
  have hs := Reachable.step (.step (.step (user_reachable Fair)
    ⟨.alloc true 0x2000 "a", ⟨Nat.zero_lt_succ _, Nat.le_of_sub_eq_zero rfl⟩, hfirst⟩)
    ⟨.alloc true 0x1000 "b", page_fair, hsecond⟩)
    ⟨.free 0xAFFFE000, hmay, hfree⟩
  obtain ⟨-, -, -, hcall⟩ := region_alloc_inner_best_fit user_range hs
  obtain ⟨r, t, hcall, -, hbest, hzero⟩ := hcall 0x1000 "c" false page_fair.1 rfl
  rw [hcall] at hrun
  cases hrun
  obtain ⟨i, hfit, haddr, -⟩ := hbest fun hrefused =>
    absurd ((hzero (Nat.zero_lt_succ _)).mpr hrefused) (Nat.succ_ne_zero _)
  exact ⟨s₂, s, s', i, htaken, hfree, hfit, haddr.symm, hcall⟩

theorem page_sound : Sound userRegions (.alloc true 0x1000 "a") :=
  ⟨page_fair.1, page_fair.2, user_can_refill⟩

theorem every_size_second_call : ∃ s, runCall userRegions (.alloc true 0x1000 "a") = some s ∧
    ∃ r s', regionAlloc true 1 "b" s = .ok (r, s') ∧ Granted s s' 1 r :=
  ⟨_, rfl, (region_alloc_every_size user_range (.step (user_reachable Sound)
    ⟨.alloc true 0x1000 "a", page_sound, rfl⟩)).1 true 1 "b"
    ⟨Nat.one_pos, Nat.le_of_sub_eq_zero rfl, .inl (Nat.lt_of_sub_pos (Nat.zero_lt_succ _))⟩⟩

/-- More than the range has. -/
theorem exhausted_second_call : ∃ s, runCall userRegions (.alloc true 0x1000 "a") = some s ∧
    ∃ s', regionAlloc true 0x80000000 "b" s = .ok (0, s') ∧
      ∀ u ∈ s.used, u ∈ s'.used ∧ SameRegion s s' u := by
  refine ⟨_, rfl, _, rfl, ?_⟩
  obtain ⟨r, s', hrun, hkept⟩ := region_alloc_exhausted user_range (.step (user_reachable Sound)
    ⟨.alloc true 0x1000 "a", page_sound, rfl⟩) true 0x80000000 "b"
    ⟨Nat.zero_lt_succ _, Nat.le_of_sub_eq_zero rfl, .inl (Nat.lt_of_sub_pos (Nat.zero_lt_succ _))⟩
  cases hrun
  exact hkept rfl

/-- A size that is rounded to zero is answered with a region of no bytes, and the next such call
fails an assertion. -/
theorem rounded_to_zero : ∃ r s', regionAlloc true 0xFFFFFFFF "a" userRegions = .ok (r, s') ∧
    ¬ Granted userRegions s' 0xFFFFFFFF r ∧ regionAlloc true 0 "a" s' = .error .usedList := by
  refine ⟨0xB0000000, _, rfl, ?_, rfl⟩
  rintro (⟨hzero, -⟩ | ⟨-, i, hi, -, hsize, -⟩)
  · cases hzero
  · obtain rfl := List.mem_singleton.mp hi
    exact absurd hsize (Nat.not_le.mpr (Nat.lt_of_sub_pos (Nat.zero_lt_succ _)))

/-- A range of ten pages. -/
def tenPages : Allocator := initial 0x1000 0x1000 0xB000 Allocator.zero

/-- Whether the call is one of `region_alloc` with a size that is not rounded to zero. -/
def allocates : Allocator → Call → Bool
  | _, .alloc _ size _ => decide (0 < size) && decide (size ≤ 0xFFFFF000)
  | _, .free _ => false

/-- Ten calls take a page each, and no page is mapped for descriptors; the next call fails an
assertion. -/
theorem no_page_for_descriptors : ∃ s, Reachable (regionRuns 0x1000 0x1000 0xB000 Fair) s ∧
    regionAlloc false 0x1000 "a" s = .error .noDescriptorRegion := by
  have hrange : RangeOk 0x1000 0x1000 0xB000 :=
    ⟨⟨rfl, rfl, rfl⟩, ⟨Nat.le_refl _, Nat.lt_of_sub_pos (Nat.zero_lt_succ _)⟩,
      Nat.lt_of_sub_pos (Nat.zero_lt_succ _)⟩
  have hfair : ∀ s c, allocates s c = true → Fair s c := by
    intro s c hc
    cases c with
    | alloc mapOk size type =>
        rw [allocates, Bool.and_eq_true, decide_eq_true_eq, decide_eq_true_eq] at hc
        exact hc
    | free a => cases hc
  have hinit : Reachable (regionRuns 0x1000 0x1000 0xB000 Fair) tenPages :=
    .init ⟨Allocator.zero, rfl, init_eq hrange Allocator.zero⟩
  have hstops : (match runEvents runCall allocates (List.replicate 10 (.alloc false 0x1000 "a"))
      tenPages with
      | none => none
      | some s => match regionAlloc false 0x1000 "a" s with
        | .error stop => some stop
        | .ok _ => none) = some Stop.noDescriptorRegion := by decide +kernel
  cases hrun : runEvents runCall allocates (List.replicate 10 (.alloc false 0x1000 "a"))
      tenPages with
  | none =>
      rw [hrun] at hstops
      cases hstops
  | some s =>
      rw [hrun] at hstops
      refine ⟨s, Reachable.run_events hfair hinit hrun, ?_⟩
      cases hcall : regionAlloc false 0x1000 "a" s with
      | ok x =>
          simp only [hcall] at hstops
          cases hstops
      | error stop =>
          simp only [hcall] at hstops
          exact congrArg Except.error (Option.some.inj hstops)

end Cases

end Kogata.Common.RegionAlloc
