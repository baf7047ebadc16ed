import Kogata.Common.RegionLists
import Kogata.Lib.Run

/-!
# The regions of an address range

`RegionsOk` says that the free and the used regions tile the range. Between two states in which it
holds, an operation passes through one with a hole, a region that is in neither list
(`HoleOk`): the hole is taken out of the free or of the used regions, made smaller, and filled again
by a free or by a used region.
-/

namespace Kogata.Common.RegionAlloc

open Lib.Effect Lib.Intervals Lib.SkipLinks

section Used

variable {s : Allocator} {d : Desc} {l pre post : List Desc} {addr size : Desc → Nat}

/-- The loop of `add_used_region` puts the region behind those in front of it. -/
theorem insert_used_eq (addr : Desc → Nat) (d : Desc) (l : List Desc)
    (hfirst : ∀ a ∈ l.head?, addr a ≤ addr d) (hne : l ≠ [])
    (hother : ∀ a ∈ l, addr a ≠ addr d) :
    insertUsed addr d l = some (insertByAddr addr d l) := by
  induction l with
  | nil => exact absurd rfl hne
  | cons a l ih =>
      have ha := Nat.lt_of_le_of_ne (hfirst a rfl) (hother a List.mem_cons_self)
      rw [insertUsed, if_pos ha, insertByAddr]
      split
      · rfl
      · next hlast =>
        have hl : l ≠ [] := by
          rintro rfl
          exact hlast rfl
        rw [ih (fun b hb => ?_) hl fun b hb => hother b (List.mem_cons_of_mem a hb)]
        · rfl
        · rw [Option.mem_def] at hb
          rw [hb] at hlast
          simpa using hlast

/-- `add_used_region`, for a region that overlaps none in use. -/
theorem add_used_yields (h : Apart s.addr s.size s.used) (hpos : ∀ a ∈ s.used, 0 < s.size a)
    (hd : 0 < s.size d)
    (hclear : ∀ x, Holds s.addr s.size d x → ¬ Covers s.addr s.size s.used x) :
    Yields (addUsedRegion d) s fun _ s' => ∃ pre post, s.used = pre ++ post ∧
      s' = { s with used := pre ++ d :: post } ∧ Apart s.addr s.size (pre ++ d :: post) := by
  have hother : ∀ a ∈ s.used, s.addr a ≠ s.addr d := fun a ha heq =>
    hclear (s.addr d) (holds_first hd) ⟨a, ha, heq ▸ holds_first (hpos a ha)⟩
  have hplaced : ∀ {pre post : List Desc}, s.used = pre ++ post →
      (∀ a ∈ pre, s.addr a ≤ s.addr d) → (∀ a ∈ post.head?, s.addr d < s.addr a) →
      Apart s.addr s.size (pre ++ d :: post) := by
    intro pre post hsplit hpre hpost
    rw [hsplit] at h hpos hclear
    refine h.insert hd hpos hclear hpre fun a ha => ?_
    cases post with
    | nil => cases ha
    | cons b post =>
        have hb := hpost b rfl
        rcases List.mem_cons.mp ha with rfl | ha
        · exact Nat.le_of_lt hb
        · have hab := (List.pairwise_cons.mp (List.pairwise_append.mp h).2.1).1 a ha
          omega
  unfold addUsedRegion
  refine yields_bind_of_run (a := s) rfl (yields_ite (fun hfirst => ?_) fun hfirst => ?_)
  · refine yields_of_run (a := ()) rfl ⟨[], s.used, rfl, rfl, hplaced rfl (by simp) fun a ha => ?_⟩
    rw [Option.mem_def] at ha
    rw [ha] at hfirst
    simpa using hfirst
  · have hne : s.used ≠ [] := by
      intro hnil
      rw [hnil] at hfirst
      exact hfirst rfl
    have hle : ∀ a ∈ s.used.head?, s.addr a ≤ s.addr d := fun a ha => by
      rw [Option.mem_def] at ha
      rw [ha] at hfirst
      simpa using hfirst
    obtain ⟨pre, post, hsplit, hrun, hpre, hpost⟩ := insert_by_addr_eq s.addr d s.used hle hne
    rw [insert_used_eq s.addr d s.used hle hne hother, hrun]
    exact yields_of_run (a := ()) rfl ⟨pre, post, hsplit, rfl, hplaced hsplit hpre hpost⟩

/-- The list of used regions without a region of it. -/
theorem unlink_used (h : Apart addr size (pre ++ d :: post))
    (hpos : ∀ a ∈ pre ++ d :: post, 0 < size a) :
    (if (pre ++ d :: post).head? = some d then (pre ++ d :: post).tail
      else unlinkUsed addr d (pre ++ d :: post)) = pre ++ post := by
  have hnodup := h.nodup hpos
  have hpre : d ∉ pre := fun hmem =>
    (List.nodup_append.mp hnodup).2.2 d hmem d List.mem_cons_self rfl
  have hloop : ∀ {pre : List Desc}, d ∉ pre → pre ≠ [] → (∀ a ∈ pre, addr a ≤ addr d) →
      unlinkUsed addr d (pre ++ d :: post) = pre ++ post := by
    intro pre
    induction pre with
    | nil => exact fun _ hne => absurd rfl hne
    | cons a pre ih =>
        intro hnot _ hle
        have hrest : d ∉ pre := fun hd => hnot (List.mem_cons_of_mem a hd)
        rw [List.cons_append, unlinkUsed, if_neg (Nat.not_lt.mpr (hle a List.mem_cons_self))]
        by_cases hnil : pre = []
        · subst hnil
          rw [if_pos (by rfl)]
          rfl
        · rw [if_neg (head_ne hrest hnil), ih hrest hnil
            fun b hb => hle b (List.mem_cons_of_mem a hb), List.cons_append]
  by_cases hnil : pre = []
  · subst hnil
    exact if_pos rfl
  · rw [if_neg (head_ne hpre hnil)]
    refine hloop hpre hnil fun a ha => ?_
    have hle := (List.pairwise_append.mp h).2.2 a ha d List.mem_cons_self
    omega

/-- `find_used_region` finds the region that has the address. -/
theorem find_used_eq (h : Apart addr size l) (hpos : ∀ a ∈ l, 0 < size a)
    (hbelow : ∀ a ∈ l, addr a + size a < 0x100000000) {x : Nat} (hd : d ∈ l)
    (hx : Holds addr size d x) : findUsed addr size x l = some d := by
  induction l with
  | nil => cases hd
  | cons a l ih =>
      have hall := h
      obtain ⟨hbehind, hrest⟩ := List.pairwise_cons.mp h
      rw [findUsed, wrap_of_lt (hbelow a List.mem_cons_self)]
      by_cases hax : addr a ≤ x ∧ x < addr a + size a
      · rw [if_pos hax, hall.eq_of_holds List.mem_cons_self hd hax hx]
      · rw [if_neg hax]
        rcases List.mem_cons.mp hd with rfl | hd
        · exact absurd hx hax
        · have hle := hbehind d hd
          have hdx := hx.1
          rw [if_neg (by omega)]
          exact ih hrest (fun b hb => hpos b (List.mem_cons_of_mem a hb))
            (fun b hb => hbelow b (List.mem_cons_of_mem a hb)) hd

end Used

/-- The free regions, the used ones and the addresses of `hole` make up the range. -/
structure Tiles (lo hi : Nat) (hole : Nat → Prop) (s : Allocator) : Prop where
  short : hi < 0x100000000
  free : FreeOk s
  apart : Apart s.addr s.size s.used
  positive : ∀ d ∈ s.used, 0 < s.size d
  freePages : ∀ d ∈ s.byAddr, PageRange s.addr s.size d
  usedPages : ∀ d ∈ s.used, PageRange s.addr s.size d
  whole : ∀ x, Covers s.addr s.size s.byAddr x ∨ Covers s.addr s.size s.used x ∨ hole x ↔
    lo ≤ x ∧ x < hi
  disjoint : ∀ x, Covers s.addr s.size s.byAddr x → ¬ Covers s.addr s.size s.used x
  clear : ∀ x, hole x → ¬ Covers s.addr s.size s.byAddr x ∧ ¬ Covers s.addr s.size s.used x

section Holes

variable {lo hi : Nat} {hole hole' : Nat → Prop} {s s' : Allocator} {d : Desc}

section

variable (h : Tiles lo hi hole s)

include h

theorem Tiles.congr_hole (heq : ∀ x, hole' x ↔ hole x) :
    Tiles lo hi hole' s where
  short := h.short
  free := h.free
  apart := h.apart
  positive := h.positive
  freePages := h.freePages
  usedPages := h.usedPages
  whole := fun x => by rw [heq]; exact h.whole x
  disjoint := h.disjoint
  clear := fun x hx => h.clear x ((heq x).mp hx)

/-- Other words in descriptors that are in neither list. -/
theorem Tiles.congr (hby : s'.byAddr = s.byAddr)
    (hlist : s'.bySize = s.bySize) (hfirst : s'.firstBigger = s.firstBigger)
    (hused : s'.used = s.used)
    (hfree : ∀ e ∈ s.byAddr, s'.addr e = s.addr e ∧ s'.size e = s.size e)
    (heq : ∀ e ∈ s.used, s'.addr e = s.addr e ∧ s'.size e = s.size e) : Tiles lo hi hole s' := by
  have hcoversFree : ∀ x, Covers s'.addr s'.size s'.byAddr x ↔ Covers s.addr s.size s.byAddr x :=
    fun x => by rw [hby]; exact covers_congr hfree
  have hcoversUsed : ∀ x, Covers s'.addr s'.size s'.used x ↔ Covers s.addr s.size s.used x :=
    fun x => by rw [hused]; exact covers_congr heq
  refine ⟨h.short, h.free.congr hby hlist hfirst hfree, ?_, ?_, ?_, ?_, fun x => ?_, fun x => ?_,
    fun x => ?_⟩
  · rw [hused]
    exact h.apart.congr heq
  · rw [hused]
    exact fun e he => (heq e he).2 ▸ h.positive e he
  · rw [hby]
    intro e he
    rw [PageRange, (hfree e he).1, (hfree e he).2]
    exact h.freePages e he
  · rw [hused]
    intro e he
    rw [PageRange, (heq e he).1, (heq e he).2]
    exact h.usedPages e he
  · rw [hcoversFree, hcoversUsed]
    exact h.whole x
  · rw [hcoversFree, hcoversUsed]
    exact h.disjoint x
  · rw [hcoversFree, hcoversUsed]
    exact h.clear x

theorem Tiles.not_free (hd : d ∈ s.used) : d ∉ s.byAddr := by
  intro hmem
  have hself : Holds s.addr s.size d (s.addr d) := holds_first (h.positive d hd)
  exact h.disjoint _ ⟨d, hmem, hself⟩ ⟨d, hd, hself⟩

/-- A descriptor whose address is in the hole is in neither list. -/
theorem Tiles.not_listed (hd : hole (s.addr d)) :
    d ∉ s.byAddr ∧ d ∉ s.used := by
  obtain ⟨hfree, hused⟩ := h.clear _ hd
  exact ⟨fun hmem => hfree ⟨d, hmem, holds_first (h.free.positive d hmem)⟩,
    fun hmem => hused ⟨d, hmem, holds_first (h.positive d hmem)⟩⟩

/-- A region that lies in the hole is in neither list and ends below the end of the range. -/
theorem Tiles.in_hole (hpos : 0 < s.size d)
    (hd : ∀ x, Holds s.addr s.size d x → hole x) :
    d ∉ s.byAddr ∧ d ∉ s.used ∧ s.addr d + s.size d < 0x100000000 := by
  obtain ⟨hfree, hused⟩ := h.not_listed (hd _ (holds_first hpos))
  refine ⟨hfree, hused, ?_⟩
  have hlast : Holds s.addr s.size d (s.addr d + s.size d - 1) := ⟨by omega, by omega⟩
  have hend := ((h.whole _).mp (.inr (.inr (hd _ hlast)))).2
  have hshort := h.short
  omega

/-- A free region is taken out of the lists. -/
theorem Tiles.take_free (hd : d ∈ s.byAddr) :
    Tiles lo hi (fun x => hole x ∨ Holds s.addr s.size d x) (s.removeFree d) := by
  obtain ⟨hok, pre, post, hsplit, hby⟩ := h.free.remove hd
  have hperm : s.byAddr.Perm (d :: (s.removeFree d).byAddr) := by
    rw [hby, hsplit]
    exact List.perm_middle
  have hcovers : ∀ x, Covers s.addr s.size s.byAddr x ↔
      Holds s.addr s.size d x ∨ Covers s.addr s.size (s.removeFree d).byAddr x := fun x => by
    rw [covers_perm hperm, covers_cons]
  have hself : ∀ x, Holds s.addr s.size d x →
      ¬ Covers s.addr s.size (s.removeFree d).byAddr x := fun x hx => by
    have happart := h.free.gapped.apart
    have hposAll := h.free.positive
    rw [hsplit] at happart hposAll
    rw [hby]
    exact happart.not_covers hx hposAll
  refine ⟨h.short, hok, h.apart, h.positive,
    fun e he => h.freePages e (hperm.mem_iff.mpr (List.mem_cons_of_mem d he)), h.usedPages,
    fun x => ?_, fun x hx => h.disjoint x ((hcovers x).mpr (.inr hx)), fun x hx => ?_⟩
  · rw [← h.whole x, hcovers x]
    show Covers s.addr s.size (s.removeFree d).byAddr x ∨ Covers s.addr s.size s.used x ∨ _ ↔ _
    tauto
  · rcases hx with hx | hx
    · obtain ⟨hfree, hused⟩ := h.clear x hx
      exact ⟨fun hmem => hfree ((hcovers x).mpr (.inr hmem)), hused⟩
    · exact ⟨hself x hx, h.disjoint x ((hcovers x).mpr (.inl hx))⟩

/-- A used region is taken out of the list. -/
theorem Tiles.take_used (hd : d ∈ s.used) :
    s.used.Perm (d :: (s.removeUsed d).used) ∧
      Tiles lo hi (fun x => hole x ∨ Holds s.addr s.size d x) (s.removeUsed d) := by
  obtain ⟨pre, post, hsplit⟩ := List.append_of_mem hd
  have happart := h.apart
  have hpos := h.positive
  rw [hsplit] at happart hpos
  have hused : (s.removeUsed d).used = pre ++ post := by
    show (if s.used.head? = some d then s.used.tail else unlinkUsed s.addr d s.used) = _
    rw [hsplit]
    exact unlink_used happart hpos
  have hperm : s.used.Perm (d :: (s.removeUsed d).used) := by
    rw [hused, hsplit]
    exact List.perm_middle
  have hcovers : ∀ x, Covers s.addr s.size s.used x ↔
      Holds s.addr s.size d x ∨ Covers s.addr s.size (s.removeUsed d).used x := fun x => by
    rw [covers_perm hperm, covers_cons]
  have hself : ∀ x, Holds s.addr s.size d x →
      ¬ Covers s.addr s.size (s.removeUsed d).used x := fun x hx => by
    rw [hused]
    exact happart.not_covers hx hpos
  have hsub : ∀ e ∈ (s.removeUsed d).used, e ∈ s.used := fun e he =>
    hperm.mem_iff.mpr (List.mem_cons_of_mem d he)
  refine ⟨hperm, h.short, h.free.congr rfl rfl rfl fun _ _ => ⟨rfl, rfl⟩, ?_,
    fun e he => h.positive e (hsub e he), h.freePages, fun e he => h.usedPages e (hsub e he),
    fun x => ?_, fun x hx hmem => h.disjoint x hx ((hcovers x).mpr (.inr hmem)), fun x hx => ?_⟩
  · show Apart s.addr s.size (s.removeUsed d).used
    rw [hused]
    exact happart.sublist (List.Sublist.append (List.Sublist.refl pre)
      (List.sublist_cons_self d post))
  · rw [← h.whole x, hcovers x]
    show Covers s.addr s.size s.byAddr x ∨ Covers s.addr s.size (s.removeUsed d).used x ∨ _ ↔ _
    tauto
  · rcases hx with hx | hx
    · obtain ⟨hfree, hnot⟩ := h.clear x hx
      exact ⟨hfree, fun hmem => hnot ((hcovers x).mpr (.inr hmem))⟩
    · exact ⟨fun hfree => h.disjoint x hfree ((hcovers x).mpr (.inl hx)), hself x hx⟩

/-- A region of the hole becomes free. -/
theorem Tiles.fill_free (hpos : 0 < s.size d)
    (hpage : PageRange s.addr s.size d) (hd : ∀ x, Holds s.addr s.size d x → hole x) :
    Yields (addFreeRegion d) s fun _ s' => Freed s s' d ∧
      Tiles lo hi (fun x => hole x ∧ ¬ Holds s.addr s.size d x) s' := by
  obtain ⟨hnotfree, hnotused, hbelow⟩ := h.in_hole hpos hd
  refine (add_free_yields h.free hnotfree hpos hbelow
    fun x hx => (h.clear x (hd x hx)).1).mono fun _ s' hfreed => ⟨hfreed, ?_⟩
  have hkept : ∀ e ∈ s.used, s'.addr e = s.addr e ∧ s'.size e = s.size e := fun e he =>
    hfreed.others e (fun heq => hnotused (heq ▸ he)) (h.not_free he)
  have hcoversUsed : ∀ x, Covers s'.addr s'.size s'.used x ↔ Covers s.addr s.size s.used x :=
    fun x => by rw [hfreed.used]; exact covers_congr hkept
  refine ⟨h.short, hfreed.ok, ?_, ?_, hfreed.pages hpage h.freePages, ?_, fun x => ?_,
    fun x hx => ?_, fun x hx => ?_⟩
  · rw [hfreed.used]
    exact h.apart.congr hkept
  · rw [hfreed.used]
    exact fun e he => (hkept e he).2 ▸ h.positive e he
  · rw [hfreed.used]
    intro e he
    rw [PageRange, (hkept e he).1, (hkept e he).2]
    exact h.usedPages e he
  · rw [← h.whole x, hfreed.covers, hcoversUsed]
    have hx := hd x
    tauto
  · rw [hcoversUsed]
    rcases (hfreed.covers x).mp hx with hx | hx
    · exact (h.clear x (hd x hx)).2
    · exact h.disjoint x hx
  · rw [hfreed.covers, hcoversUsed]
    obtain ⟨hfree, hused⟩ := h.clear x hx.1
    exact ⟨fun hor => hor.elim hx.2 hfree, hused⟩

/-- A region of the hole becomes a used one. -/
theorem Tiles.fill_used (hpos : 0 < s.size d)
    (hpage : PageRange s.addr s.size d) (hd : ∀ x, Holds s.addr s.size d x → hole x) :
    Yields (addUsedRegion d) s fun _ s' => ∃ used, s' = { s with used := used } ∧
      used.Perm (d :: s.used) ∧
      Tiles lo hi (fun x => hole x ∧ ¬ Holds s.addr s.size d x) s' := by
  refine (add_used_yields h.apart h.positive hpos fun x hx => (h.clear x (hd x hx)).2).mono
    fun _ s' hadded => ?_
  obtain ⟨pre, post, hsplit, rfl, happart⟩ := hadded
  have hperm : (pre ++ d :: post).Perm (d :: s.used) := hsplit ▸ List.perm_middle
  have hcovers : ∀ x, Covers s.addr s.size (pre ++ d :: post) x ↔
      Holds s.addr s.size d x ∨ Covers s.addr s.size s.used x := fun x => by
    rw [covers_perm hperm, covers_cons]
  refine ⟨_, rfl, hperm, h.short, h.free.congr rfl rfl rfl fun _ _ => ⟨rfl, rfl⟩, happart,
    fun e he => ?_, h.freePages, fun e he => ?_, fun x => ?_, fun x hx => ?_, fun x hx => ?_⟩
  · rcases List.mem_cons.mp (hperm.mem_iff.mp he) with rfl | he
    · exact hpos
    · exact h.positive e he
  · rcases List.mem_cons.mp (hperm.mem_iff.mp he) with rfl | he
    · exact hpage
    · exact h.usedPages e he
  · rw [← h.whole x, hcovers]
    have hx := hd x
    show Covers s.addr s.size s.byAddr x ∨ _ ↔ _
    tauto
  · rw [hcovers]
    rintro (hdx | hused)
    · exact (h.clear x (hd x hdx)).1 hx
    · exact h.disjoint x hx hused
  · rw [hcovers]
    obtain ⟨hfree, hused⟩ := h.clear x hx.1
    exact ⟨hfree, fun hor => hor.elim hx.2 hused⟩

end

end Holes

end Kogata.Common.RegionAlloc
