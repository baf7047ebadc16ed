import Kogata.Common.RegionCalls

/-!
# The reserve of descriptors

`refill` takes a page for descriptors where few are left, and gives it back where it can not be
mapped. The lists of free regions are then known from what they cover, so that as many descriptors
are left as before (`refill_within`). The only assertion that can fail is the one on the page.
-/

namespace Kogata.Common.RegionAlloc

open Lib.Effect Lib.Intervals Lib.SkipLinks

/-- The allocator between two calls, but for the mutex. -/
structure Ready (lo hi : Nat) (s : Allocator) : Prop where
  tiles : Tiles lo hi (fun _ => False) s
  books : Books s
  reserve : nReserveDescriptors ≤ s.nUnused

/-- There is a page for descriptors, or no need for one. -/
def CanRefill (s : Allocator) : Prop :=
  nReserveDescriptors < s.nUnused ∨
    ∃ i, s.bySize.head? = some i ∧ (0 < s.addr i ∨ pageSize < s.size i)

/-- The regions are the same, but that a page of descriptors may have become a used region. -/
structure UpToPage (s s' : Allocator) : Prop where
  others : ∀ u ∈ s.used, u ∈ s'.used ∧ SameRegion s s' u
  page : s'.used.Perm s.used ∧
      (∀ x, Covers s'.addr s'.size s'.byAddr x ↔ Covers s.addr s.size s.byAddr x) ∨
    ∃ d, s'.used.Perm (d :: s.used) ∧ s'.size d = pageSize ∧ s'.type d = "Region descriptors" ∧
      ∀ x, Covers s'.addr s'.size s'.byAddr x ↔
        Covers s.addr s.size s.byAddr x ∧ ¬ Holds s'.addr s'.size d x

theorem UpToPage.refl (s : Allocator) : UpToPage s s where
  others := fun _ hu => ⟨hu, rfl, rfl, rfl⟩
  page := .inl ⟨.refl _, fun _ => Iff.rfl⟩

/-- The descriptors that a loop adds. -/
theorem add_unused_loop (f : Nat → Desc) (n : Nat) (s : Allocator) :
    (List.range n).foldl (fun s k => s.addUnused (f k)) s =
      { s with
        unused := ((List.range n).map f).reverse ++ s.unused
        nUnused := s.nUnused + n } := by
  induction n with
  | zero => rfl
  | succ n ih =>
      rw [List.range_succ, List.foldl_append, ih, List.map_append, List.reverse_append]
      rfl

section Refill

variable {lo hi n : Nat} {s s' : Allocator} {i : Desc} {type : String}

/-- The region that has been taken is no page of descriptors. -/
theorem Took.new_page (h : Took s s' n type i) (htiles : Tiles lo hi (fun _ => False) s)
    (hbooks : Books s) (hn : 0 < n) : ∀ page k, .inPage page k ∈ s.ids → s'.addr i ≠ page := by
  intro page k hk heq
  obtain ⟨u, hu, haddr, hsize⟩ := hbooks.own page k hk
  have hfirst : Holds s'.addr s'.size i (s'.addr i) := holds_first (h.length.symm ▸ hn)
  refine htiles.disjoint _ ⟨i, h.best.free, h.inside _ hfirst⟩ ⟨u, hu, ?_⟩
  rw [heq, ← haddr]
  exact holds_first (hsize.symm ▸ by decide)

/-- The page with its descriptors. -/
theorem Took.add_descriptors (h : Took s s' pageSize "Region descriptors" i)
    (hs : Ready lo hi s) (htiles : Tiles lo hi (fun _ => False) s') :
    Ready lo hi (s'.addDescriptors (s'.addr i)) ∧
      UpToPage s (s'.addDescriptors (s'.addr i)) := by
  have hbooks := h.books hs.books
  have hnew := h.new_page hs.tiles hs.books (by decide)
  set page := s'.addr i with hpage
  have hloop : s'.addDescriptors page = { s' with
      unused := ((List.range 204).map (Desc.inPage page)).reverse ++ s'.unused
      nUnused := s'.nUnused + 204 } := add_unused_loop (Desc.inPage page) 204 s'
  have hmem : ∀ d, d ∈ ((List.range 204).map (Desc.inPage page)).reverse →
      ∃ k, d = .inPage page k := fun d hd => by
    obtain ⟨k, -, rfl⟩ := List.mem_map.mp (List.mem_reverse.mp hd)
    exact ⟨k, rfl⟩
  have hids : (s'.addDescriptors page).ids =
      ((List.range 204).map (Desc.inPage page)).reverse ++ s'.ids := by
    rw [hloop, Allocator.ids, Allocator.ids]
    simp only [List.append_assoc]
  have hself : i ∈ s'.used := h.used.mem_iff.mpr List.mem_cons_self
  refine ⟨⟨?_, ⟨?_, ?_, ?_⟩, ?_⟩, ?_⟩
  · rw [hloop]
    exact htiles.congr rfl rfl rfl rfl (fun _ _ => ⟨rfl, rfl⟩) fun _ _ => ⟨rfl, rfl⟩
  · rw [hids]
    refine List.nodup_append.mpr ⟨List.nodup_reverse.mpr ?_, hbooks.distinct, ?_⟩
    · exact List.nodup_range.map fun a b hab => (Desc.inPage.inj hab).2
    · intro a ha b hb heq
      obtain ⟨k, rfl⟩ := hmem a ha
      exact hnew page k (h.ids.mem_iff.mp (heq ▸ hb)) rfl
  · rw [hloop]
    show s'.nUnused + 204 = (_ ++ s'.unused).length
    rw [List.length_append, List.length_reverse, List.length_map, List.length_range, hbooks.count,
      Nat.add_comm]
  · intro page' k hk
    rw [hids] at hk
    rw [hloop]
    rcases List.mem_append.mp hk with hk | hk
    · obtain ⟨k', heq⟩ := hmem _ hk
      obtain rfl := (Desc.inPage.inj heq).1
      exact ⟨i, hself, hpage.symm, h.length⟩
    · exact hbooks.own page' k hk
  · rw [hloop]
    exact Nat.le_add_left_of_le (by decide)
  · rw [hloop]
    exact ⟨fun u hu => ⟨h.used.mem_iff.mpr (List.mem_cons_of_mem i hu), h.others u hu⟩,
      .inr ⟨i, h.used, h.length, h.named, h.free⟩⟩

/-- The page has been given back. -/
theorem Took.undo {t : Allocator} (h : Took s t n type i) (hs : Ready lo hi s) (hn : 0 < n)
    (hback : Released t s' i) (htiles : Tiles lo hi (fun _ => False) s') :
    Ready lo hi s' ∧ UpToPage s s' := by
  have hmid := h.books hs.books
  have hused : s'.used.Perm s.used := (hback.used.symm.trans h.used).cons_inv
  have hids : s'.ids.Perm s.ids := hback.ids.trans h.ids
  have hcovers : ∀ x, Covers s'.addr s'.size s'.byAddr x ↔ Covers s.addr s.size s.byAddr x := by
    intro x
    rw [hback.free, h.free]
    have hin : Holds t.addr t.size i x → Covers s.addr s.size s.byAddr x := fun hx =>
      ⟨i, h.best.free, h.inside x hx⟩
    tauto
  have hbooks : Books s' := hback.books hmid fun page k hk =>
    h.new_page hs.tiles hs.books hn page k (h.ids.mem_iff.mp hk)
  -- The list by address is known from what it covers, so as many descriptors are left.
  have hfree : s'.byAddr.length = s.byAddr.length := by
    have hmap := htiles.free.gapped.eq_of_covers hs.tiles.free.gapped htiles.free.positive
      hs.tiles.free.positive hcovers
    have hlength := congrArg List.length hmap
    rwa [List.length_map, List.length_map] at hlength
  have hunused : s'.nUnused = s.nUnused := by
    have hlength := hids.length_eq
    have husedLength := hused.length_eq
    rw [Allocator.ids, Allocator.ids, List.length_append, List.length_append, List.length_append,
      List.length_append] at hlength
    rw [hbooks.count, hs.books.count]
    omega
  refine ⟨⟨htiles, hbooks, hunused ▸ hs.reserve⟩, fun u hu => ?_, .inl ⟨hused, hcovers⟩⟩
  have hu' : u ∈ s'.used := hused.mem_iff.mpr hu
  obtain ⟨haddr, hsize, htype⟩ := h.others u hu
  obtain ⟨haddr', hsize', htype'⟩ := hback.others u hu'
  exact ⟨hu', haddr'.trans haddr, hsize'.trans hsize, htype'.trans htype⟩

/-- Where there is a page for descriptors, `region_alloc_inner` finds one. -/
theorem not_refused (hs : Ready lo hi s) (hne : s.byAddr ≠ []) : ¬ Refused s pageSize true := by
  rintro (hsmall | ⟨-, -, -, -, huse⟩)
  · obtain ⟨d, hd⟩ := List.exists_mem_of_ne_nil _ hne
    have hpos := hs.tiles.free.positive d hd
    have hpage := (hs.tiles.freePages d hd).2
    have hless := hsmall d hd
    rw [Nat.mod_eq_of_lt hless] at hpage
    omega
  · cases huse

/-- The region that is taken for a page is the first of the list by size. -/
theorem best_page (hs : Ready lo hi s) (h : BestFit s pageSize i) :
    s.bySize.head? = some i := by
  have hfound := h.found
  cases hlist : s.bySize with
  | nil =>
      rw [hlist] at hfound
      cases hfound
  | cons j l =>
      rw [hlist, first_from_cons] at hfound
      have hj : j ∈ s.byAddr := hs.tiles.free.same.mem_iff.mp (hlist ▸ List.mem_cons_self)
      have hpos := hs.tiles.free.positive j hj
      have hpage := (hs.tiles.freePages j hj).2
      rw [if_pos] at hfound
      · exact hfound
      · by_contra hless
        rw [Nat.mod_eq_of_lt (Nat.not_le.mp hless)] at hpage
        omega

/-- The part of `region_alloc` that keeps up the reserve. -/
theorem refill_within (hs : Ready lo hi s) (mapOk : Bool) :
    Within (fun stop => stop = .noDescriptorRegion ∧ ¬ CanRefill s) (refill mapOk) s fun _ s' =>
      Ready lo hi s' ∧ UpToPage s s' ∧ s'.lock = s.lock := by
  unfold refill
  show Within _ (if s.nUnused ≤ nReserveDescriptors then _ else _ : RegionM Unit) s _
  refine within_ite (fun hfew => ?_) fun _ => within_pure ⟨hs, .refl s, rfl⟩
  have hround : pageAlignUp pageSize = pageSize := rfl
  obtain ⟨r, mid, hrun, hpost⟩ := alloc_inner_yields pageSize "Region descriptors" true hs.tiles
    hs.books hround (by decide) rfl fun _ => Nat.lt_of_lt_of_le (by decide) hs.reserve
  refine within_bind_of_run hrun ?_
  rcases hpost with ⟨rfl, rfl, hrefused⟩ | ⟨-, i, rfl, htook, htiles, hlock⟩
  · refine within_throw ⟨rfl, fun hcan => ?_⟩
    rcases hcan with hmany | ⟨i, hfirst, -⟩
    · exact absurd hfew (Nat.not_le.mpr hmany)
    · refine not_refused hs (fun hnil => ?_) hrefused
      have hmem := hs.tiles.free.same.mem_iff.mp (List.mem_of_mem_head? hfirst)
      rw [hnil] at hmem
      cases hmem
  · refine within_ite (fun hzero => within_throw ⟨rfl, fun hcan => ?_⟩) fun _ =>
      within_ite (fun _ => ?_) fun _ => ?_
    · rcases hcan with hmany | ⟨j, hfirst, hplace⟩
      · exact absurd hfew (Nat.not_le.mpr hmany)
      · obtain rfl := Option.some.inj ((best_page hs htook.best).symm.trans hfirst)
        have haddr := htook.place
        rw [if_neg (by decide), hzero] at haddr
        omega
    · obtain ⟨hready, hsame⟩ := htook.add_descriptors hs htiles
      have hlock' : (mid.addDescriptors (mid.addr i)).lock = mid.lock := by
        rw [Allocator.addDescriptors, add_unused_loop]
      exact within_of_run rfl ⟨hready, hsame, hlock'.trans hlock⟩
    · refine (free_inner_yields htiles (mid.addr i)).within.mono fun _ s' hfreed => ?_
      have hself : i ∈ mid.used := htook.used.mem_iff.mpr List.mem_cons_self
      have hfirst : Holds mid.addr mid.size i (mid.addr i) := holds_first (htiles.positive i hself)
      rcases hfreed with ⟨-, hnone⟩ | ⟨d, hd, hda, hback, htiles', hlock'⟩
      · exact absurd hfirst (hnone i hself)
      · obtain rfl := htiles.apart.eq_of_holds hd hself hda hfirst
        obtain ⟨hready, hsame⟩ := htook.undo hs (by decide) hback htiles'
        exact ⟨hready, hsame, hlock'.trans hlock⟩

end Refill

end Kogata.Common.RegionAlloc
