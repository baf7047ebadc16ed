import Kogata.Common.RegionAlloc
import Kogata.Lib.Intervals
import Mathlib.Data.List.Nodup

/-!
# The lists of free regions

The invariant of the two lists of free regions, `FreeOk`: one is in the order of the addresses,
with room between any two regions, the other in the order of the sizes, with its links to the first
bigger region. `FreeOk.remove` takes a region out of both, and `add_free_yields` puts one in,
together with the regions that it touches; no assertion fails.
-/

namespace Kogata.Common.RegionAlloc

open Lib.Effect Lib.Intervals Lib.SkipLinks

/-- The free regions are in both lists, which are in order; each link by size is right. -/
structure FreeOk (s : Allocator) : Prop where
  same : s.bySize.Perm s.byAddr
  gapped : Gapped s.addr s.size s.byAddr
  positive : ∀ d ∈ s.byAddr, 0 < s.size d
  below : ∀ d ∈ s.byAddr, s.addr d + s.size d < 0x100000000
  sorted : Lib.SkipLinks.Sorted s.size s.bySize
  skips : Skips s.size s.firstBigger s.bySize

theorem wrap_of_lt {n : Nat} (h : n < 0x100000000) : wrap32 n = n :=
  Nat.mod_eq_of_lt h

section Remove

variable {s : Allocator} {d : Desc} {l pre post : List Desc}

theorem next_of_middle (hpre : d ∉ pre) : nextOf d (pre ++ d :: post) = post.head? := by
  induction pre with
  | nil => exact if_pos rfl
  | cons a pre ih =>
      have ha : a ≠ d := fun heq => hpre (heq ▸ List.mem_cons_self)
      exact (if_neg ha).trans (ih fun hd => hpre (List.mem_cons_of_mem a hd))

theorem head_ne (hpre : d ∉ pre) (hne : pre ≠ []) : (pre ++ l).head? ≠ some d := by
  cases pre with
  | nil => exact absurd rfl hne
  | cons a pre => exact fun heq => hpre (Option.some.inj heq ▸ List.mem_cons_self)

theorem unlink_by_addr_eq (hpre : d ∉ pre) (hne : pre ≠ []) :
    unlinkByAddr d (pre ++ d :: post) = pre ++ post := by
  induction pre with
  | nil => exact absurd rfl hne
  | cons a pre ih =>
      have hrest : d ∉ pre := fun hd => hpre (List.mem_cons_of_mem a hd)
      rw [List.cons_append, unlinkByAddr]
      by_cases hnil : pre = []
      · subst hnil
        rw [if_pos (by rfl)]
        rfl
      · rw [if_neg (head_ne hrest hnil), ih hrest hnil, List.cons_append]

/-- The list by address without a region of it. -/
theorem unlink_by_addr (hpre : d ∉ pre) :
    (if (pre ++ d :: post).head? = some d then (pre ++ d :: post).tail
      else unlinkByAddr d (pre ++ d :: post)) = pre ++ post := by
  by_cases hnil : pre = []
  · subst hnil
    exact if_pos rfl
  · rw [if_neg (head_ne hpre hnil), unlink_by_addr_eq hpre hnil]

theorem unlink_by_size_eq (next : Option Desc) (hnodup : (pre ++ d :: post).Nodup)
    (hne : pre ≠ []) (firstBigger : Desc → Option Desc) :
    ∃ firstBigger',
      unlinkBySize d next (pre ++ d :: post) firstBigger = (pre ++ post, firstBigger') ∧
      ∀ a, firstBigger' a =
        if a ∈ pre ∧ firstBigger a = some d then next else firstBigger a := by
  induction pre generalizing firstBigger with
  | nil => exact absurd rfl hne
  | cons a pre ih =>
      obtain ⟨ha, hrest⟩ := List.nodup_cons.mp hnodup
      have hpre : d ∉ pre := fun hd =>
        (List.nodup_append.mp hrest).2.2 d hd d List.mem_cons_self rfl
      have ha' : a ∉ pre := fun hmem => ha (List.mem_append_left _ hmem)
      set changed := if firstBigger a = some d then Function.update firstBigger a next
        else firstBigger with hchanged
      have hat : ∀ b, changed b = if b = a ∧ firstBigger a = some d then next
          else firstBigger b := by
        intro b
        rw [hchanged]
        by_cases hlink : firstBigger a = some d
        · by_cases hba : b = a
          · subst hba
            rw [if_pos hlink, Function.update_self, if_pos ⟨rfl, hlink⟩]
          · rw [if_pos hlink, Function.update_of_ne hba, if_neg fun h => hba h.1]
        · rw [if_neg hlink, if_neg fun h => hlink h.2]
      rw [List.cons_append, unlinkBySize]
      by_cases hnil : pre = []
      · subst hnil
        refine ⟨changed, if_pos rfl, fun b => (hat b).trans ?_⟩
        by_cases hba : b = a
        · subst hba
          simp
        · simp [hba]
      · obtain ⟨firstBigger', hrun, hlinks⟩ := ih hrest hnil changed
        refine ⟨firstBigger', ?_, fun b => ?_⟩
        · show (if (pre ++ d :: post).head? = some d then _ else _) = _
          rw [if_neg (head_ne hpre hnil)]
          show (a :: (unlinkBySize d next (pre ++ d :: post) changed).1,
            (unlinkBySize d next (pre ++ d :: post) changed).2) = _
          rw [hrun, List.cons_append]
        · rw [hlinks, hat]
          by_cases hba : b = a
          · subst hba
            simp [ha']
          · simp [hba]

/-- A region is taken out of the lists of free regions. -/
theorem FreeOk.remove (h : FreeOk s) (hd : d ∈ s.byAddr) :
    FreeOk (s.removeFree d) ∧ ∃ pre post, s.byAddr = pre ++ d :: post ∧
      (s.removeFree d).byAddr = pre ++ post := by
  have hnodup := h.gapped.apart.nodup h.positive
  obtain ⟨pre, post, hsplit⟩ := List.append_of_mem hd
  have hpre : d ∉ pre := by
    intro hmem
    rw [hsplit] at hnodup
    exact (List.nodup_append.mp hnodup).2.2 d hmem d List.mem_cons_self rfl
  have hby : (s.removeFree d).byAddr = pre ++ post := by
    show (if s.byAddr.head? = some d then _ else _) = _
    rw [hsplit]
    exact unlink_by_addr hpre
  obtain ⟨pre', post', hsplit'⟩ := List.append_of_mem (h.same.mem_iff.mpr hd)
  have hnodup' : (pre' ++ d :: post').Nodup := hsplit' ▸ h.same.nodup_iff.mpr hnodup
  have hpre' : d ∉ pre' := fun hmem =>
    (List.nodup_append.mp hnodup').2.2 d hmem d List.mem_cons_self rfl
  have hsize : ∃ firstBigger',
      (if s.bySize.head? = some d then (s.bySize.tail, s.firstBigger)
        else unlinkBySize d (nextOf d s.bySize) s.bySize s.firstBigger) =
          (pre' ++ post', firstBigger') ∧
      ∀ a, firstBigger' a = if a ∈ pre' ∧ s.firstBigger a = some d then post'.head?
        else s.firstBigger a := by
    rw [hsplit', next_of_middle hpre']
    by_cases hnil : pre' = []
    · subst hnil
      exact ⟨s.firstBigger, if_pos rfl, by simp⟩
    · rw [if_neg (head_ne hpre' hnil)]
      exact unlink_by_size_eq _ hnodup' hnil s.firstBigger
  obtain ⟨firstBigger', hrun, hlinks⟩ := hsize
  have hlist : (s.removeFree d).bySize = pre' ++ post' := congrArg Prod.fst hrun
  have hfirst : (s.removeFree d).firstBigger = firstBigger' := congrArg Prod.snd hrun
  have hsub : (pre ++ post).Sublist s.byAddr := by
    rw [hsplit]
    exact List.Sublist.append (List.Sublist.refl pre) (List.sublist_cons_self d post)
  refine ⟨⟨?_, ?_, ?_, ?_, ?_, ?_⟩, pre, post, hsplit, hby⟩
  · rw [hlist, hby]
    have hperm := h.same
    rw [hsplit, hsplit'] at hperm
    exact (List.perm_middle.symm.trans (hperm.trans List.perm_middle)).cons_inv
  · rw [hby]
    exact h.gapped.sublist hsub
  · rw [hby]
    exact fun e he => h.positive e (hsub.subset he)
  · rw [hby]
    exact fun e he => h.below e (hsub.subset he)
  · rw [hlist]
    have hsorted := h.sorted
    rw [hsplit'] at hsorted
    exact hsorted.sublist (List.Sublist.append (List.Sublist.refl pre')
      (List.sublist_cons_self d post'))
  · rw [hlist, hfirst]
    have hskips := h.skips
    have hsorted := h.sorted
    rw [hsplit'] at hskips hsorted
    refine hskips.unlink hsorted hnodup' (fun a ha => ?_) fun a ha => ?_
    · rw [hlinks]
      simp [ha]
    · rw [hlinks, if_neg fun hmem => ?_]
      exact (List.nodup_append.mp hnodup').2.2 a hmem.1 a (List.mem_cons_of_mem d ha) rfl

/-- Other words in descriptors that are not free regions. -/
theorem FreeOk.congr (h : FreeOk s) {s' : Allocator} (hby : s'.byAddr = s.byAddr)
    (hlist : s'.bySize = s.bySize) (hfirst : s'.firstBigger = s.firstBigger)
    (heq : ∀ e ∈ s.byAddr, s'.addr e = s.addr e ∧ s'.size e = s.size e) : FreeOk s' := by
  have hsize : ∀ e ∈ s.bySize, s'.size e = s.size e := fun e he => (heq e (h.same.mem_iff.mp he)).2
  refine ⟨?_, ?_, ?_, ?_, ?_, ?_⟩
  · rw [hby, hlist]
    exact h.same
  · rw [hby]
    exact h.gapped.congr heq
  · rw [hby]
    exact fun e he => (heq e he).2 ▸ h.positive e he
  · rw [hby]
    intro e he
    rw [(heq e he).1, (heq e he).2]
    exact h.below e he
  · rw [hlist]
    refine List.Pairwise.imp_of_mem (fun {a b} ha hb hab => ?_) h.sorted
    rw [hsize a ha, hsize b hb]
    exact hab
  · rw [hlist, hfirst]
    exact h.skips.congr_key hsize

end Remove

section Insert

variable {s : Allocator} {d : Desc} {l rest : List Desc} {addr size : Desc → Nat}
  {firstBigger : Desc → Option Desc}

/-- The loop by address puts the region behind those in front of it. -/
theorem insert_by_addr_eq (addr : Desc → Nat) (d : Desc) (l : List Desc)
    (hfirst : ∀ a ∈ l.head?, addr a ≤ addr d) (hne : l ≠ []) :
    ∃ pre post, l = pre ++ post ∧ insertByAddr addr d l = pre ++ d :: post ∧
      (∀ a ∈ pre, addr a ≤ addr d) ∧ ∀ a ∈ post.head?, addr d < addr a := by
  induction l with
  | nil => exact absurd rfl hne
  | cons a l ih =>
      have ha : addr a ≤ addr d := hfirst a rfl
      rw [insertByAddr]
      by_cases hlast : l.head?.all (fun next => addr next > addr d) = true
      · rw [if_pos hlast]
        refine ⟨[a], l, rfl, rfl, by simpa using ha, fun b hb => ?_⟩
        rw [Option.mem_def] at hb
        rw [hb] at hlast
        simpa using hlast
      · rw [if_neg hlast]
        have hl : l ≠ [] := by
          rintro rfl
          exact hlast rfl
        obtain ⟨pre, post, rfl, hrun, hpre, hpost⟩ := ih (fun b hb => by
          rw [Option.mem_def] at hb
          rw [hb] at hlast
          simpa using hlast) hl
        exact ⟨a :: pre, post, rfl, by rw [hrun, List.cons_append],
          List.forall_mem_cons.mpr ⟨ha, hpre⟩, hpost⟩

/-- The list by address with a region in its place. -/
theorem insert_by_addr {first : Desc} {rest : List Desc} (hl : l = first :: rest)
    (hsorted : l.Pairwise fun a b => addr a ≤ addr b) :
    ∃ pre post, l = pre ++ post ∧
      (if addr first > addr d then d :: l else insertByAddr addr d l) = pre ++ d :: post ∧
      (∀ a ∈ pre, addr a ≤ addr d) ∧ ∀ a ∈ post, addr d ≤ addr a := by
  have hbehind : ∀ {post : List Desc}, post.Pairwise (fun a b => addr a ≤ addr b) →
      (∀ a ∈ post.head?, addr d < addr a) → ∀ a ∈ post, addr d ≤ addr a := by
    intro post hpost hhead a ha
    cases post with
    | nil => cases ha
    | cons b post =>
        have hb := hhead b rfl
        rcases List.mem_cons.mp ha with rfl | ha
        · exact Nat.le_of_lt hb
        · exact (Nat.le_of_lt hb).trans ((List.pairwise_cons.mp hpost).1 a ha)
  by_cases hfirst : addr first > addr d
  · rw [if_pos hfirst]
    refine ⟨[], l, rfl, rfl, by simp, hbehind hsorted fun a ha => ?_⟩
    rw [hl] at ha
    obtain rfl := Option.some.inj ha
    exact hfirst
  · rw [if_neg hfirst]
    obtain ⟨pre, post, rfl, hrun, hpre, hpost⟩ := insert_by_addr_eq addr d l
      (fun a ha => by
        rw [hl] at ha
        obtain rfl := Option.some.inj ha
        exact Nat.not_lt.mp hfirst) (hl ▸ List.cons_ne_nil _ _)
    exact ⟨pre, post, rfl, hrun, hpre, hbehind (List.pairwise_append.mp hsorted).2.1 hpost⟩

/-- The region stands behind the smaller ones, and the links pass it where they have to. -/
def PlacedBySize (size : Desc → Nat) (d : Desc) (l : List Desc) (firstBigger : Desc → Option Desc)
    (result : Option (List Desc × (Desc → Option Desc))) : Prop :=
  ∃ pre post firstBigger', l = pre ++ post ∧ result = some (pre ++ d :: post, firstBigger') ∧
    (∀ a ∈ pre, size a < size d) ∧ (∀ a ∈ post, size d ≤ size a) ∧
    (∀ a ∈ pre, firstBigger' a =
      if (firstBigger a).all (fun b => size d ≤ size b) then some d else firstBigger a) ∧
    firstBigger' d = linkBefore size firstBigger (size d) post.head? ∧
    ∀ a, a ∉ pre → a ≠ d → firstBigger' a = firstBigger a

/-- The loop by size puts the region behind the smaller ones, and no assertion fails. -/
theorem insert_by_size_eq (firstBigger : Desc → Option Desc) (hsorted : Lib.SkipLinks.Sorted size l)
    (hnodup : l.Nodup) (hd : d ∉ l)
    (hfirst : ∀ a ∈ l.head?, size a < size d) (hne : l ≠ []) :
    PlacedBySize size d l firstBigger (insertBySize size d l firstBigger) := by
  induction l generalizing firstBigger with
  | nil => exact absurd rfl hne
  | cons it rest ih =>
      have hit : size it < size d := hfirst it rfl
      obtain ⟨hle, hrest⟩ := List.pairwise_cons.mp hsorted
      obtain ⟨hnot, hnodup'⟩ := List.nodup_cons.mp hnodup
      have hditem : it ≠ d := fun heq => hd (heq ▸ List.mem_cons_self)
      set changed := if (firstBigger it).all (fun b => size d ≤ size b) then
        Function.update firstBigger it (some d) else firstBigger with hchanged
      have hself : changed it =
          if (firstBigger it).all (fun b => size d ≤ size b) then some d else firstBigger it := by
        rw [hchanged]
        split
        · rw [Function.update_self]
        · rfl
      have hother : ∀ a, a ≠ it → changed a = firstBigger a := by
        intro a ha
        rw [hchanged]
        split
        · rw [Function.update_of_ne ha]
        · rfl
      rw [insertBySize, if_pos hit]
      by_cases hlast : rest.head?.all (fun next => size d ≤ size next) = true
      · refine ⟨[it], rest, Function.update changed d
          (linkBefore size changed (size d) rest.head?), rfl, if_pos hlast, by simpa using hit,
          ?_, ?_, ?_, ?_⟩
        · cases rest with
          | nil => simp
          | cons next rest =>
              have hnext : size d ≤ size next := by simpa using hlast
              exact List.forall_mem_cons.mpr ⟨hnext, fun a ha =>
                hnext.trans ((List.pairwise_cons.mp hrest).1 a ha)⟩
        · intro a ha
          obtain rfl := List.mem_singleton.mp ha
          rw [Function.update_of_ne hditem, hself]
        · rw [Function.update_self]
          cases rest with
          | nil => rfl
          | cons next rest =>
              have hne' : next ≠ it := fun heq => hnot (heq ▸ List.mem_cons_self)
              show (if size d < size next then some next else changed next) = _
              rw [hother next hne']
              rfl
        · intro a ha had
          rw [Function.update_of_ne had, hother a fun heq => ha (heq ▸ List.mem_singleton_self it)]
      · have hrest' : rest ≠ [] := by
          rintro rfl
          exact hlast rfl
        obtain ⟨pre, post, firstBigger', rfl, hrun, hpre, hpost, hlinks, hlink, hkept⟩ :=
          ih changed hrest hnodup' (fun hmem => hd (List.mem_cons_of_mem it hmem))
            (fun a ha => by
              rw [Option.mem_def] at ha
              rw [ha] at hlast
              simpa using hlast) hrest'
        have hitpre : it ∉ pre := fun hmem => hnot (List.mem_append_left _ hmem)
        have hsame : ∀ a ∈ pre ++ post, changed a = firstBigger a :=
          fun a ha => hother a fun heq => hnot (heq ▸ ha)
        refine ⟨it :: pre, post, firstBigger', rfl, ?_, List.forall_mem_cons.mpr ⟨hit, hpre⟩, hpost,
          List.forall_mem_cons.mpr ⟨?_, fun a ha => ?_⟩, ?_, fun a ha had => ?_⟩
        · show (if (pre ++ post).head?.all _ = true then _ else _) = _
          rw [if_neg hlast, hrun]
          rfl
        · rw [hkept it hitpre hditem, hself]
        · rw [hlinks a ha, hsame a (List.mem_append_left _ ha)]
        · rw [hlink]
          cases post with
          | nil => rfl
          | cons next post =>
              show (if size d < size next then some next else changed next) = _
              rw [hsame next (List.mem_append_right _ List.mem_cons_self)]
              rfl
        · have haitem : a ≠ it := fun heq => ha (heq ▸ List.mem_cons_self)
          rw [hkept a (fun hmem => ha (List.mem_cons_of_mem it hmem)) had, hother a haitem]

/-- The list by size with a region in its place, and its links. -/
theorem insert_by_size {smallest : Desc} (hl : l = smallest :: rest)
    (hsorted : Lib.SkipLinks.Sorted size l)
    (hskips : Skips size firstBigger l) (hnodup : l.Nodup) (hd : d ∉ l) :
    ∃ pre post firstBigger', l = pre ++ post ∧
      (if size d ≤ size smallest then
        some (d :: l, Function.update firstBigger d
          (linkBefore size firstBigger (size d) (some smallest)))
      else insertBySize size d l firstBigger) = some (pre ++ d :: post, firstBigger') ∧
      Lib.SkipLinks.Sorted size (pre ++ d :: post) ∧
      Skips size firstBigger' (pre ++ d :: post) := by
  have hparts : PlacedBySize size d l firstBigger (if size d ≤ size smallest then
      some (d :: l, Function.update firstBigger d
        (linkBefore size firstBigger (size d) (some smallest)))
      else insertBySize size d l firstBigger) := by
    by_cases hsmall : size d ≤ size smallest
    · refine ⟨[], l, _, rfl, if_pos hsmall, by simp, ?_, by simp, ?_, fun a _ had =>
        Function.update_of_ne had ..⟩
      · rw [hl]
        exact List.forall_mem_cons.mpr ⟨hsmall, fun a ha =>
          hsmall.trans ((List.pairwise_cons.mp (hl ▸ hsorted)).1 a ha)⟩
      · rw [Function.update_self, hl]
        rfl
    · rw [if_neg hsmall]
      refine insert_by_size_eq firstBigger hsorted hnodup hd (fun a ha => ?_)
        (hl ▸ List.cons_ne_nil _ _)
      rw [hl] at ha
      obtain rfl := Option.some.inj ha
      exact Nat.not_le.mp hsmall
  obtain ⟨pre, post, firstBigger', rfl, hrun, hpre, hpost, hlinks, hlink, hkept⟩ := hparts
  refine ⟨pre, post, firstBigger', rfl, hrun, ?_, ?_⟩
  · obtain ⟨hleft, hright, hcross⟩ := List.pairwise_append.mp hsorted
    refine List.pairwise_append.mpr ⟨hleft, List.pairwise_cons.mpr ⟨hpost, hright⟩,
      fun a ha b hb => ?_⟩
    rcases List.mem_cons.mp hb with rfl | hb
    · exact Nat.le_of_lt (hpre a ha)
    · exact hcross a ha b hb
  · refine hskips.insert hpre hpost hlinks hlink fun a ha => hkept a (fun hmem => ?_) fun heq => ?_
    · exact (List.nodup_append.mp hnodup).2.2 a hmem a ha rfl
    · exact hd (heq ▸ List.mem_append_right _ ha)

/-- The checks on the links succeed where the links are right. -/
theorem check_first_bigger (hsorted : Lib.SkipLinks.Sorted size l)
    (hskips : Skips size firstBigger l) {sz : Nat}
    (hsz : ∀ a ∈ l, sz ≤ size a) :
    checkFirstBigger size firstBigger sz (firstAbove size sz l) l = true := by
  induction l generalizing sz with
  | nil => rfl
  | cons it rest ih =>
      obtain ⟨hle, hrest⟩ := List.pairwise_cons.mp hsorted
      have hit := hsz it List.mem_cons_self
      rw [checkFirstBigger, first_above_cons]
      by_cases heq : size it = sz
      · have hlink : firstBigger it = firstAbove size sz rest := heq ▸ hskips.1
        rw [if_pos heq, if_neg (by omega), hlink]
        simp [ih hrest hskips.2 fun a ha => hsz a (List.mem_cons_of_mem it ha)]
      · rw [if_neg heq, if_pos (by omega), if_pos (by omega), hskips.1]
        simp [ih hrest hskips.2 hle]

theorem FreeOk.checked (h : FreeOk s) (hne : s.bySize ≠ []) : s.checked = true := by
  have hsorted := h.sorted
  have hskips := h.skips
  unfold Allocator.checked
  cases hl : s.bySize with
  | nil => exact absurd hl hne
  | cons it rest =>
      rw [hl] at hsorted hskips
      show checkFirstBigger s.size s.firstBigger (s.size it) (s.firstBigger it) rest = true
      rw [hskips.1]
      exact check_first_bigger (List.pairwise_cons.mp hsorted).2 hskips.2
        (List.pairwise_cons.mp hsorted).1

end Insert

section Add

variable {s s' : Allocator} {d it : Desc} {l : List Desc} {addr size : Desc → Nat}

/-- Nothing but the lists of free regions has changed. -/
structure OnlyLists (s s' : Allocator) : Prop where
  unused : s'.unused = s.unused
  nUnused : s'.nUnused = s.nUnused
  used : s'.used = s.used
  addr : s'.addr = s.addr
  size : s'.size = s.size
  type : s'.type = s.type
  lock : s'.lock = s.lock

/-- A region that touches no free one comes into the lists. -/
theorem insert_free_yields (h : FreeOk s) (hd : d ∉ s.byAddr) (hpos : 0 < s.size d)
    (hbelow : s.addr d + s.size d < 0x100000000)
    (hclear : ∀ x, Holds s.addr s.size d x → ¬ Covers s.addr s.size s.byAddr x)
    (htouch : ∀ a ∈ s.byAddr, s.addr a + s.size a ≠ s.addr d ∧ s.addr d + s.size d ≠ s.addr a) :
    Yields (insertFree d) s fun _ s' => FreeOk s' ∧ s'.byAddr.Perm (d :: s.byAddr) ∧
      OnlyLists s s' := by
  unfold insertFree
  refine yields_bind_of_run (a := s) rfl ?_
  cases hby : s.byAddr with
  | nil =>
      have hlist : s.bySize = [] := (hby ▸ h.same).eq_nil
      refine yields_ite (fun hne => absurd hlist hne) fun _ => yields_of_run (a := ()) rfl
        ⟨⟨.refl _, List.pairwise_singleton .., ?_, ?_, List.pairwise_singleton .., ?_⟩,
          .refl _, rfl, rfl, rfl, rfl, rfl, rfl, rfl⟩
      · exact fun e he => List.mem_singleton.mp he ▸ hpos
      · exact fun e he => List.mem_singleton.mp he ▸ hbelow
      · exact ⟨Function.update_self .., trivial⟩
  | cons first rest =>
      have hnodup := h.gapped.apart.nodup h.positive
      have horder : s.byAddr.Pairwise fun a b => s.addr a ≤ s.addr b :=
        List.Pairwise.imp (fun hab => by omega) h.gapped
      obtain ⟨pre, post, hsplit, hrun, hpre, hpost⟩ := insert_by_addr (d := d) hby horder
      cases hlist : s.bySize with
      | nil =>
          have hnil := (hlist ▸ h.same).nil_eq
          rw [hby] at hnil
          cases hnil
      | cons smallest sizes =>
          obtain ⟨pre', post', firstBigger', hsplit', hrun', hsorted, hskips⟩ :=
            insert_by_size hlist h.sorted h.skips (h.same.nodup_iff.mpr hnodup)
              fun hmem => hd (h.same.mem_iff.mp hmem)
          set s' : Allocator := { s with
            byAddr := pre ++ d :: post, bySize := pre' ++ d :: post',
            firstBigger := firstBigger' } with hs'
          have hperm : (pre ++ d :: post).Perm (d :: s.byAddr) := hsplit ▸ List.perm_middle
          have hmem : ∀ e ∈ pre ++ d :: post, e = d ∨ e ∈ s.byAddr := fun e he =>
            List.mem_cons.mp (hperm.mem_iff.mp he)
          have hok : FreeOk s' := by
            refine ⟨?_, ?_, fun e he => ?_, fun e he => ?_, hsorted, hskips⟩
            · have hall : (d :: s.bySize).Perm (d :: s.byAddr) := h.same.cons d
              rw [hsplit'] at hall
              exact List.perm_middle.trans (hall.trans hperm.symm)
            · have hgapped := h.gapped
              rw [hsplit] at hgapped
              refine hgapped.insert hpos (fun a ha => h.positive a (hsplit ▸ ha))
                (fun x hx => hsplit ▸ hclear x hx) (fun a ha => htouch a (hsplit ▸ ha)) hpre hpost
            · rcases hmem e he with rfl | he
              · exact hpos
              · exact h.positive e he
            · rcases hmem e he with rfl | he
              · exact hbelow
              · exact h.below e he
          have hrunSize : (if s.size d ≤ s.size smallest then
              some (d :: (smallest :: sizes), Function.update s.firstBigger d
                (linkBefore s.size s.firstBigger (s.size d) (some smallest)))
            else insertBySize s.size d (smallest :: sizes) s.firstBigger) =
              some (pre' ++ d :: post', firstBigger') := hlist ▸ hrun'
          have hrunAddr : (if s.addr first > s.addr d then d :: (first :: rest)
            else insertByAddr s.addr d (first :: rest)) = pre ++ d :: post := hby ▸ hrun
          simp only [hrunSize, hrunAddr]
          refine yields_ite (fun _ => yields_of_run (a := ()) rfl
            ⟨hok, hby ▸ hperm, rfl, rfl, rfl, rfl, rfl, rfl, rfl⟩) fun hcheck => ?_
          exact absurd (hok.checked (by simp [hs'])) hcheck

theorem neighbour_prev (h : neighbour addr size d l = some (.prev it)) :
    it ∈ l ∧ wrap32 (addr it + size it) = addr d := by
  induction l with
  | nil => cases h
  | cons a l ih =>
      rw [neighbour] at h
      split at h
      · next hend =>
          cases h
          exact ⟨List.mem_cons_self, hend⟩
      · split at h
        · cases h
        · split at h
          · cases h
          · exact (ih h).imp (List.mem_cons_of_mem a) id

theorem neighbour_next (h : neighbour addr size d l = some (.next it)) :
    it ∈ l ∧ addr it = wrap32 (addr d + size d) := by
  induction l with
  | nil => cases h
  | cons a l ih =>
      rw [neighbour] at h
      split at h
      · cases h
      · split at h
        · next hend =>
            cases h
            exact ⟨List.mem_cons_self, hend⟩
        · split at h
          · cases h
          · exact (ih h).imp (List.mem_cons_of_mem a) id

/-- Where the loop finds nothing, the region touches none; behind the first region of a greater
address the loop need not look. -/
theorem neighbour_none (h : neighbour addr size d l = none) (hgapped : Gapped addr size l)
    (hpos : ∀ a ∈ l, 0 < size a) (hbelow : ∀ a ∈ l, addr a + size a < 0x100000000)
    (hd : addr d + size d < 0x100000000)
    (hclear : ∀ x, Holds addr size d x → ¬ Covers addr size l x) :
    ∀ a ∈ l, addr a + size a ≠ addr d ∧ addr d + size d ≠ addr a := by
  induction l with
  | nil => simp
  | cons a l ih =>
      obtain ⟨hbehind, hrest⟩ := List.pairwise_cons.mp hgapped
      have ha := hpos a List.mem_cons_self
      have hprev := wrap_of_lt (hbelow a List.mem_cons_self)
      have hnext := wrap_of_lt hd
      rw [neighbour, hprev, hnext] at h
      split at h
      · cases h
      · next hnotprev =>
          split at h
          · cases h
          · next hnotnext =>
              split at h
              · next hgreater =>
                  have hend : addr d + size d < addr a := by
                    by_contra hover
                    refine hclear (addr a) ⟨Nat.le_of_lt hgreater, by omega⟩
                      ⟨a, List.mem_cons_self, holds_first ha⟩
                  refine List.forall_mem_cons.mpr ⟨⟨by omega, by omega⟩, fun b hb => ?_⟩
                  have hab := hbehind b hb
                  exact ⟨by omega, by omega⟩
              · refine List.forall_mem_cons.mpr ⟨⟨hnotprev, fun heq => hnotnext heq.symm⟩, ?_⟩
                exact ih h hrest (fun b hb => hpos b (List.mem_cons_of_mem a hb))
                  (fun b hb => hbelow b (List.mem_cons_of_mem a hb))
                  fun x hx hcovers => hclear x hx (covers_cons.mpr (.inr hcovers))

theorem page_add {a b : Nat} (ha : a % pageSize = 0) (hb : b % pageSize = 0) :
    (a + b) % pageSize = 0 := by
  rw [Nat.add_mod, ha, hb]
  rfl

/-- The address and the size are multiples of the size of a page. -/
def PageRange (addr size : Desc → Nat) (d : Desc) : Prop :=
  addr d % pageSize = 0 ∧ size d % pageSize = 0

/-- A region has become free: what `add_free_region` does to the allocator. -/
structure Freed (s s' : Allocator) (d : Desc) : Prop where
  ok : FreeOk s'
  covers : ∀ x, Covers s'.addr s'.size s'.byAddr x ↔
    Holds s.addr s.size d x ∨ Covers s.addr s.size s.byAddr x
  ids : (s'.unused ++ s'.byAddr).Perm (d :: (s.unused ++ s.byAddr))
  count : s'.nUnused + s.unused.length = s.nUnused + s'.unused.length
  more : s.nUnused ≤ s'.nUnused
  others : ∀ e, e ≠ d → e ∉ s.byAddr → s'.addr e = s.addr e ∧ s'.size e = s.size e
  pages : PageRange s.addr s.size d → (∀ e ∈ s.byAddr, PageRange s.addr s.size e) →
    ∀ e ∈ s'.byAddr, PageRange s'.addr s'.size e
  used : s'.used = s.used
  type : s'.type = s.type
  lock : s'.lock = s.lock

/-- A region that touches no free one has become free. -/
theorem freed_of_inserted (hok : FreeOk s') (hperm : s'.byAddr.Perm (d :: s.byAddr))
    (hsame : OnlyLists s s') : Freed s s' d where
  ok := hok
  covers := fun x => by rw [hsame.addr, hsame.size, covers_perm hperm, covers_cons]
  ids := by
    rw [hsame.unused]
    exact (hperm.append_left s.unused).trans List.perm_middle
  count := by rw [hsame.nUnused, hsame.unused]
  more := Nat.le_of_eq hsame.nUnused.symm
  others := fun e _ _ => by rw [hsame.addr, hsame.size]; exact ⟨rfl, rfl⟩
  pages := fun hd hall e he => by
    rw [hsame.addr, hsame.size]
    rcases List.mem_cons.mp (hperm.mem_iff.mp he) with rfl | he
    · exact hd
    · exact hall e he
  used := hsame.used
  type := hsame.type
  lock := hsame.lock

/-- A free region and the new one become one region, with one of the two descriptors. -/
def Allocator.join (s : Allocator) (it keep gone : Desc) (n : Nat) : Allocator :=
  { s.removeFree it with size := Function.update s.size keep n }.addUnused gone

/-- The two regions that are put together cover what the new one does, and what becomes free with it
is what becomes free with the joined region. -/
theorem join_ok (keep gone : Desc) {n : Nat} (h : FreeOk s) (hit : it ∈ s.byAddr)
    (hd : d ∉ s.byAddr) (hkeep : keep = it ∧ gone = d ∨ keep = d ∧ gone = it)
    (hn : n = s.size it + s.size d) (hpos : 0 < s.size d)
    (hholds : ∀ x, Holds s.addr (Function.update s.size keep n) keep x ↔
      Holds s.addr s.size it x ∨ Holds s.addr s.size d x)
    (hclear : ∀ x, Holds s.addr s.size d x → ¬ Covers s.addr s.size s.byAddr x)
    (hkeeppage : PageRange s.addr s.size it → PageRange s.addr s.size d →
      PageRange s.addr (Function.update s.size keep n) keep) :
    FreeOk (s.join it keep gone n) ∧ keep ∉ (s.join it keep gone n).byAddr ∧
      (s.join it keep gone n).byAddr.length + 1 = s.byAddr.length ∧
      (∀ x, Holds s.addr (Function.update s.size keep n) keep x →
        ¬ Covers s.addr (Function.update s.size keep n) (s.join it keep gone n).byAddr x) ∧
      ∀ s', Freed (s.join it keep gone n) s' keep → Freed s s' d := by
  obtain ⟨hok, pre, post, hsplit, hby⟩ := h.remove hit
  have hnodup := h.gapped.apart.nodup h.positive
  have hperm : s.byAddr.Perm (it :: (pre ++ post)) := hsplit ▸ List.perm_middle
  have hnotit : it ∉ pre ++ post := (List.nodup_cons.mp (hperm.nodup_iff.mp hnodup)).1
  have hsub : ∀ e ∈ pre ++ post, e ∈ s.byAddr := fun e he =>
    hperm.mem_iff.mpr (List.mem_cons_of_mem it he)
  have hnotkeep : keep ∉ pre ++ post := by
    rcases hkeep with ⟨rfl, -⟩ | ⟨rfl, -⟩
    · exact hnotit
    · exact fun hmem => hd (hsub _ hmem)
  have hsame : ∀ e ∈ pre ++ post, Function.update s.size keep n e = s.size e := by
    intro e he
    have hne : e ≠ keep := by
      rintro rfl
      exact hnotkeep he
    exact Function.update_of_ne hne ..
  have hcoversRest : ∀ x, Covers s.addr (Function.update s.size keep n) (pre ++ post) x ↔
      Covers s.addr s.size (pre ++ post) x := fun x =>
    covers_congr fun e he => ⟨rfl, hsame e he⟩
  have hcoversAll : ∀ x, Covers s.addr s.size s.byAddr x ↔
      Holds s.addr s.size it x ∨ Covers s.addr s.size (pre ++ post) x := fun x => by
    rw [covers_perm hperm, covers_cons]
  refine ⟨hok.congr rfl rfl rfl fun e he => ⟨rfl, hsame e (hby ▸ he)⟩, hby ▸ hnotkeep, ?_,
    fun x hx hcovers => ?_, fun s' hfreed => ?_⟩
  · rw [hperm.length_eq]
    show (s.removeFree it).byAddr.length + 1 = _
    rw [hby, List.length_cons]
  · change Covers s.addr _ (s.removeFree it).byAddr x at hcovers
    rw [hby, hcoversRest] at hcovers
    rcases (hholds x).mp hx with hx | hx
    · have happart := h.gapped.apart
      have hposAll := h.positive
      rw [hsplit] at happart hposAll
      exact happart.not_covers hx hposAll hcovers
    · exact hclear x hx ((hcoversAll x).mpr (.inr hcovers))
  · refine ⟨hfreed.ok, fun x => ?_, ?_, ?_, ?_, fun e hed hee => ?_, fun hdp hall => ?_,
      hfreed.used, hfreed.type, hfreed.lock⟩
    · rw [hfreed.covers x]
      show Holds s.addr (Function.update s.size keep n) keep x ∨
        Covers s.addr (Function.update s.size keep n) (s.removeFree it).byAddr x ↔ _
      rw [hholds, hby, hcoversRest, hcoversAll]
      tauto
    · refine hfreed.ids.trans ?_
      show (keep :: (gone :: s.unused ++ (s.removeFree it).byAddr)).Perm _
      rw [hby]
      have hswap : ([keep, gone] : List Desc).Perm [it, d] := by
        rcases hkeep with ⟨rfl, rfl⟩ | ⟨rfl, rfl⟩
        · exact .refl _
        · exact .swap ..
      have hmove : (s.unused ++ s.byAddr).Perm (it :: (s.unused ++ (pre ++ post))) :=
        (hperm.append_left _).trans List.perm_middle
      exact (hswap.append_right _).trans ((List.Perm.swap d it _).trans (hmove.symm.cons d))
    · have hcount := hfreed.count
      change s'.nUnused + (s.unused.length + 1) = s.nUnused + 1 + s'.unused.length at hcount
      omega
    · exact (Nat.le_succ _).trans hfreed.more
    · have hek : e ≠ keep := by
        rcases hkeep with ⟨rfl, -⟩ | ⟨rfl, -⟩
        · exact fun heq => hee (heq ▸ hit)
        · exact hed
      obtain ⟨haddr, hsize⟩ := hfreed.others e hek fun hmem => hee (hsub e (hby ▸ hmem))
      exact ⟨haddr, hsize.trans (Function.update_of_ne hek ..)⟩
    · refine hfreed.pages (hkeeppage (hall it hit) hdp) fun e he => ?_
      have he' : e ∈ pre ++ post := hby ▸ he
      show s.addr e % pageSize = 0 ∧ Function.update s.size keep n e % pageSize = 0
      rw [hsame e he']
      exact hall e (hsub e he')

/-- `add_free_region`: the region becomes free, together with those that it touches. -/
theorem add_free_from_yields (n : Nat) (h : FreeOk s) (hn : s.byAddr.length = n)
    (hd : d ∉ s.byAddr) (hpos : 0 < s.size d) (hbelow : s.addr d + s.size d < 0x100000000)
    (hclear : ∀ x, Holds s.addr s.size d x → ¬ Covers s.addr s.size s.byAddr x) :
    Yields (addFreeFrom n d) s fun _ s' => Freed s s' d := by
  induction n generalizing s d with
  | zero =>
      have hnil : s.byAddr = [] := List.length_eq_zero_iff.mp hn
      refine (insert_free_yields h hd hpos hbelow hclear (by simp [hnil])).mono ?_
      exact fun _ s' hpost => freed_of_inserted hpost.1 hpost.2.1 hpost.2.2
  | succ n ih =>
      refine yields_bind_of_run (a := s) rfl ?_
      cases hfound : neighbour s.addr s.size d s.byAddr with
      | none =>
          refine (insert_free_yields h hd hpos hbelow hclear
            (neighbour_none hfound h.gapped h.positive h.below hbelow hclear)).mono ?_
          exact fun _ s' hpost => freed_of_inserted hpost.1 hpost.2.1 hpost.2.2
      | some found =>
          cases found with
          | prev it =>
              obtain ⟨hit, hend⟩ := neighbour_prev hfound
              rw [wrap_of_lt (h.below it hit)] at hend
              have hne : it ≠ d := fun heq => hd (heq ▸ hit)
              have hsum : wrap32 (s.size it + s.size d) = s.size it + s.size d :=
                wrap_of_lt (by omega)
              have hself : Function.update s.size it (wrap32 (s.size it + s.size d)) it =
                  s.size it + s.size d := (Function.update_self ..).trans hsum
              obtain ⟨hok, hnot, hlength, hclear', hfreed⟩ := join_ok it d h hit
                hd (.inl ⟨rfl, rfl⟩) hsum hpos
                (fun x => by
                  unfold Holds
                  rw [hself]
                  omega) hclear
                (fun hpage hpage' => ⟨hpage.1, (congrArg (· % pageSize) hself).trans
                  (page_add hpage.2 hpage'.2)⟩)
              refine yields_bind_of_run (a := ()) rfl ((ih hok (by omega) hnot ?_ ?_ hclear').mono
                fun _ s' => hfreed s')
              · show 0 < Function.update s.size it _ it
                rw [hself]
                omega
              · show s.addr it + Function.update s.size it _ it < _
                rw [hself]
                omega
          | next it =>
              obtain ⟨hit, hend⟩ := neighbour_next hfound
              rw [wrap_of_lt hbelow] at hend
              have hbound := h.below it hit
              have hsum : wrap32 (s.size d + s.size it) = s.size it + s.size d :=
                (wrap_of_lt (by omega)).trans (Nat.add_comm _ _)
              have hself : Function.update s.size d (wrap32 (s.size d + s.size it)) d =
                  s.size it + s.size d := (Function.update_self ..).trans hsum
              obtain ⟨hok, hnot, hlength, hclear', hfreed⟩ := join_ok d it h hit
                hd (.inr ⟨rfl, rfl⟩) hsum hpos
                (fun x => by
                  unfold Holds
                  rw [hself]
                  omega) hclear
                (fun hpage hpage' => ⟨hpage'.1, (congrArg (· % pageSize) hself).trans
                  (page_add hpage.2 hpage'.2)⟩)
              refine yields_bind_of_run (a := ()) rfl ((ih hok (by omega) hnot ?_ ?_ hclear').mono
                fun _ s' => hfreed s')
              · show 0 < Function.update s.size d _ d
                rw [hself]
                omega
              · show s.addr d + Function.update s.size d _ d < _
                rw [hself]
                omega

theorem add_free_yields (h : FreeOk s) (hd : d ∉ s.byAddr) (hpos : 0 < s.size d)
    (hbelow : s.addr d + s.size d < 0x100000000)
    (hclear : ∀ x, Holds s.addr s.size d x → ¬ Covers s.addr s.size s.byAddr x) :
    Yields (addFreeRegion d) s fun _ s' => Freed s s' d :=
  yields_bind_of_run (a := s) rfl (add_free_from_yields _ h rfl hd hpos hbelow hclear)

end Add

end Kogata.Common.RegionAlloc
