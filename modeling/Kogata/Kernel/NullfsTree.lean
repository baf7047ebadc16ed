import Kogata.Common.HashtblRefines
import Kogata.Kernel.Nullfs
import Mathlib.Algebra.GroupWithZero.Nat

/-!
# The directories of the RAM file system

The invariant that the items of a directory in its list and those in its table are the same, and
what adding and removing a file, a directory or an item does to it.
-/

namespace Kogata.Kernel.Nullfs

open Common Lib.Links

instance : LawfulKeys strKeys := .of_beq _

/-- What the list of a directory starts with, or what is behind an item. -/
def Heap.word (s : Heap) : DirAddr ⊕ ItemAddr → ItemAddr
  | .inl d => (s.dir d).elim 0 Dir.itemsList
  | .inr i => (s.item i).elim 0 Item.next

/-- An item without its place in the list. -/
def Heap.body (s : Heap) (i : ItemAddr) : Option Item :=
  (s.item i).map fun item => { item with next := 0 }

/-- The name of an item. -/
def Heap.nameOf (s : Heap) (i : ItemAddr) : Name :=
  (s.body i).elim [] Item.name

/-- What an item of the directory `d` refers to: a directory that is not `d`, or a file and its
pager. A directory has no pager. -/
def Heap.DataLive (s : Heap) (d : DirAddr) (item : Item) : Prop :=
  match item.data with
  | .dir x => x ≠ d ∧ x ≠ rootDir ∧ (∃ sd, s.dir x = some sd) ∧ item.pager = 0
  | .file f => ∃ rf, s.file f = some rf ∧ item.pager = rf.pager
  | .special dev => ∃ st, s.dev dev = some st

/-- The list and the table of a directory have the same items, and no name twice. -/
structure DirOk (s : Heap) (d : DirAddr) (dir : Dir) (l : List ItemAddr) : Prop where
  chain : Chain s.word Sum.inr (Sum.inl d) l
  wellFormed : WellFormed dir.itemsIdx
  index : dir.itemsIdx.iter.Perm (l.map fun i => (s.nameOf i, i))

/-- The directories have the items `L` and are a tree, in which each file and each directory but
the root is that of one item at most. The locks that are taken are those of `held`. -/
structure Tree (s : Heap) (L : DirAddr → List ItemAddr) (held : DirAddr → Bool) : Prop where
  root : ∃ dir, s.dir rootDir = some dir
  fresh : ∀ a, s.next ≤ a → s.item a = none ∧ s.dir a = none ∧ s.file a = none ∧ s.pager a = none
  above : rootDir < s.next
  lock : ∀ d dir, s.dir d = some dir → dir.lock = held d
  dirs : ∀ d dir, s.dir d = some dir → DirOk s d dir (L d)
  items : ∀ d dir, s.dir d = some dir → ∀ i ∈ L d,
    ∃ item, s.body i = some item ∧ s.DataLive d item ∧ item.name.length < dirMax - 1
  files : ∀ f rf, s.file f = some rf → rf.lock = false ∧ ∃ size, s.pager rf.pager = some size
  owner : ∀ d dir d' dir', s.dir d = some dir → s.dir d' = some dir' → ∀ i ∈ L d, ∀ i' ∈ L d',
    (s.body i).map Item.data = (s.body i').map Item.data → d = d' ∧ i = i'
  pagers : ∀ f rf f' rf', s.file f = some rf → s.file f' = some rf' → rf.pager = rf'.pager → f = f'

section Dirs

variable {s : Heap} {d : DirAddr} {dir : Dir} {l : List ItemAddr}

/-- `hashtbl_find` finds the item with the name. -/
theorem DirOk.find_iff (h : DirOk s d dir l) (name : Name) (i : ItemAddr) :
    dir.itemsIdx.find name = some i ↔ i ∈ l ∧ s.nameOf i = name := by
  rw [Common.find_iff h.wellFormed]
  constructor
  · intro hbound
    obtain ⟨b, hb, hef, rfl⟩ := hbound
    obtain ⟨j, hj, rfl⟩ := List.mem_map.mp (h.index.subset hb)
    exact ⟨hj, eq_of_beq hef⟩
  · intro hlisted
    obtain ⟨hi, rfl⟩ := hlisted
    exact ⟨(s.nameOf i, i), h.index.symm.subset (List.mem_map.mpr ⟨i, hi, rfl⟩),
      beq_self_eq_true _, rfl⟩

/-- No two items have the same name. -/
theorem DirOk.names_nodup (h : DirOk s d dir l) : (l.map s.nameOf).Nodup := by
  have hdistinct := h.wellFormed.distinct.perm h.index
  have hpairs : (l.map s.nameOf).Pairwise (· ≠ ·) := by
    rw [List.pairwise_map]
    refine (List.pairwise_map.mp hdistinct).imp fun hne heq => ?_
    rw [show strKeys.ef _ _ = (_ == _) from rfl] at hne
    exact beq_eq_false_iff_ne.mp hne heq
  exact hpairs

theorem DirOk.count (h : DirOk s d dir l) : dir.itemsIdx.count = l.length := by
  show dir.itemsIdx.nitems = l.length
  rw [h.wellFormed.count, h.index.length_eq, List.length_map]

/-- A directory is as it was where its words and its items are. -/
theorem DirOk.of_same {s' : Heap} {dir' : Dir} (h : DirOk s d dir l)
    (hidx : dir'.itemsIdx = dir.itemsIdx) (hword : s'.word (.inl d) = s.word (.inl d))
    (hitem : ∀ i ∈ l, s'.item i = s.item i) : DirOk s' d dir' l where
  chain := h.chain.congr hword fun i hi => by
    show (s'.item i).elim 0 Item.next = (s.item i).elim 0 Item.next
    rw [hitem i hi]
  wellFormed := hidx ▸ h.wellFormed
  index := by
    rw [hidx, List.map_congr_left fun i hi => ?_]
    · exact h.index
    · show (((s'.item i).map _).elim [] Item.name, i) = (((s.item i).map _).elim [] Item.name, i)
      rw [hitem i hi]

end Dirs

section Changes

variable {s : Heap} {L : DirAddr → List ItemAddr} {held : DirAddr → Bool} {d x : DirAddr}
  {dir : Dir} {f : RamFileAddr} {p : PagerAddr} {i : ItemAddr}

/-- An item that is listed is a block in use. -/
theorem Tree.item_some (h : Tree s L held) (hd : s.dir d = some dir) (hi : i ∈ L d) :
    ∃ item, s.item i = some item ∧ s.DataLive d { item with next := 0 } ∧
      item.name.length < dirMax - 1 := by
  obtain ⟨item, hbody, hlive, hlength⟩ := h.items d dir hd i hi
  obtain ⟨full, hfull, rfl⟩ := Option.map_eq_some_iff.mp hbody
  exact ⟨full, hfull, hlive, hlength⟩

/-- What an item refers to is there in every heap that has its directory or its file. -/
theorem Heap.DataLive.mono {s' : Heap} {item : Item} (h : s.DataLive d item)
    (hdir : ∀ x, item.data = .dir x → (∃ sd, s.dir x = some sd) → ∃ sd, s'.dir x = some sd)
    (hfile : ∀ f, item.data = .file f → s'.file f = s.file f) (hdev : s'.dev = s.dev) :
    s'.DataLive d item := by
  unfold Heap.DataLive at h ⊢
  cases hdata : item.data with
  | dir x =>
      rw [hdata] at h
      exact ⟨h.1, h.2.1, hdir x hdata h.2.2.1, h.2.2.2⟩
  | file f =>
      rw [hdata] at h
      obtain ⟨rf, hrf, hpager⟩ := h
      exact ⟨rf, (hfile f hdata).trans hrf, hpager⟩
  | special dev =>
      rw [hdata] at h
      rw [hdev]
      exact h

/-- The heap with new fields of a directory, or without it. -/
def Heap.setDir (s : Heap) (d : DirAddr) (dir : Option Dir) : Heap :=
  { s with dir := Function.update s.dir d dir }

@[simp] theorem set_dir_self (dir : Option Dir) : (s.setDir d dir).dir d = dir :=
  Function.update_self ..

theorem set_dir_of_ne {e : DirAddr} (hne : e ≠ d) (dir : Option Dir) :
    (s.setDir d dir).dir e = s.dir e :=
  Function.update_of_ne hne ..

/-- The lock of a directory is taken or given back. -/
theorem Tree.set_lock (h : Tree s L held) (hd : s.dir d = some dir) (b : Bool) :
    Tree (s.setDir d (some { dir with lock := b })) L (Function.update held d b) := by
  have hback : ∀ e dir', (s.setDir d (some { dir with lock := b })).dir e = some dir' →
      ∃ old, s.dir e = some old ∧ dir'.itemsIdx = old.itemsIdx ∧
        dir'.itemsList = old.itemsList ∧ dir'.lock = Function.update held d b e := by
    intro e dir' he
    by_cases hne : e = d
    · subst hne
      rw [set_dir_self] at he
      cases he
      exact ⟨dir, hd, rfl, rfl, by rw [Function.update_self]⟩
    · rw [set_dir_of_ne hne] at he
      exact ⟨dir', he, rfl, rfl, (h.lock e dir' he).trans (Function.update_of_ne hne _ _).symm⟩
  have hforth : ∀ e, (∃ dir', s.dir e = some dir') →
      ∃ dir', (s.setDir d (some { dir with lock := b })).dir e = some dir' := by
    intro e he
    by_cases hne : e = d
    · subst hne
      exact ⟨_, set_dir_self _⟩
    · rw [set_dir_of_ne hne]
      exact he
  constructor
  · exact hforth _ h.root
  · intro a ha
    obtain ⟨hitem, hdir, hrest⟩ := h.fresh a ha
    refine ⟨hitem, (set_dir_of_ne ?_ _).trans hdir, hrest⟩
    intro heq
    rw [heq, hd] at hdir
    cases hdir
  · exact h.above
  · intro e dir' he
    obtain ⟨-, -, -, -, hlock⟩ := hback e dir' he
    exact hlock
  · intro e dir' he
    obtain ⟨old, hold, hidx, hlist, -⟩ := hback e dir' he
    refine (h.dirs e old hold).of_same hidx ?_ fun _ _ => rfl
    show ((s.setDir d _).dir e).elim 0 Dir.itemsList = (s.dir e).elim 0 Dir.itemsList
    rw [he, hold]
    exact hlist
  · intro e dir' he i hi
    obtain ⟨old, hold, -⟩ := hback e dir' he
    obtain ⟨item, hbody, hlive, hlength⟩ := h.items e old hold i hi
    exact ⟨item, hbody, hlive.mono (fun x _ => hforth x) (fun _ _ => rfl) rfl, hlength⟩
  · exact h.files
  · intro e dir' e' dir'' he he'
    obtain ⟨old, hold, -⟩ := hback e dir' he
    obtain ⟨old', hold', -⟩ := hback e' dir'' he'
    exact h.owner e old e' old' hold hold'
  · exact h.pagers

theorem Tree.new_addr (h : Tree s L held) : Tree { s with next := s.next + 1 } L held where
  root := h.root
  fresh := fun a ha => h.fresh a (Nat.le_of_succ_le ha)
  above := Nat.lt_succ_of_lt h.above
  lock := h.lock
  dirs := fun e dir' he => (h.dirs e dir' he).of_same rfl rfl fun _ _ => rfl
  items := h.items
  files := h.files
  owner := h.owner
  pagers := h.pagers

/-- The heap with other fields of a file and of a pager. -/
def Heap.setFile (s : Heap) (f : RamFileAddr) (rf : Option RamFile) (p : PagerAddr)
    (size : Option Nat) : Heap :=
  { s with file := Function.update s.file f rf, pager := Function.update s.pager p size }

/-- A file that no item refers to comes or goes, together with its pager. -/
theorem Tree.set_file (h : Tree s L held) (rf : Option RamFile) (size : Option Nat)
    (hf : f < s.next) (hp : p < s.next)
    (howner : ∀ e dir, s.dir e = some dir → ∀ i ∈ L e, (s.body i).map Item.data ≠ some (.file f))
    (hother : ∀ f' rf', s.file f' = some rf' → f' ≠ f → rf'.pager ≠ p)
    (hnew : ∀ rf', rf = some rf' → rf'.lock = false ∧ rf'.pager = p ∧ ∃ n, size = some n) :
    Tree (s.setFile f rf p size) L held := by
  have hback : ∀ f' rf', (s.setFile f rf p size).file f' = some rf' →
      f' = f ∧ rf = some rf' ∨ f' ≠ f ∧ s.file f' = some rf' := by
    intro f' rf' hf'
    change Function.update s.file f rf f' = some rf' at hf'
    by_cases hne : f' = f
    · rw [hne, Function.update_self] at hf'
      exact .inl ⟨hne, hf'⟩
    · rw [Function.update_of_ne hne] at hf'
      exact .inr ⟨hne, hf'⟩
  constructor
  · exact h.root
  · intro a ha
    obtain ⟨hitem, hdir, hfile, hpager⟩ := h.fresh a ha
    have haf : a ≠ f := Nat.ne_of_gt (Nat.lt_of_lt_of_le hf ha)
    have hap : a ≠ p := Nat.ne_of_gt (Nat.lt_of_lt_of_le hp ha)
    exact ⟨hitem, hdir, (Function.update_of_ne haf ..).trans hfile,
      (Function.update_of_ne hap ..).trans hpager⟩
  · exact h.above
  · exact h.lock
  · exact fun e dir' he => (h.dirs e dir' he).of_same rfl rfl fun _ _ => rfl
  · intro e dir' he i hi
    obtain ⟨item, hbody, hlive, hlength⟩ := h.items e dir' he i hi
    refine ⟨item, hbody, hlive.mono (fun _ _ => id) (fun f' hdata => ?_) rfl, hlength⟩
    have hne : f' ≠ f := fun heq => howner e dir' he i hi (by rw [hbody, ← heq, ← hdata]; rfl)
    exact Function.update_of_ne hne ..
  · intro f' rf' hf'
    rcases hback f' rf' hf' with ⟨-, heq⟩ | ⟨hne, hold⟩
    · obtain ⟨hlock, hpager, hsize⟩ := hnew rf' heq
      exact ⟨hlock, by rw [hpager]; exact hsize.imp fun n hn => (Function.update_self ..).trans hn⟩
    · obtain ⟨hlock, n, hn⟩ := h.files f' rf' hold
      exact ⟨hlock, n, (Function.update_of_ne (hother f' rf' hold hne) ..).trans hn⟩
  · exact h.owner
  · intro f₁ rf₁ f₂ rf₂ hf₁ hf₂ hpager
    rcases hback f₁ rf₁ hf₁ with ⟨h₁, hnew₁⟩ | ⟨h₁, hold₁⟩ <;>
      rcases hback f₂ rf₂ hf₂ with ⟨h₂, hnew₂⟩ | ⟨h₂, hold₂⟩
    · exact h₁.trans h₂.symm
    · exact absurd (hpager.symm.trans (hnew rf₁ hnew₁).2.1) (hother f₂ rf₂ hold₂ h₂)
    · exact absurd (hpager.trans (hnew rf₂ hnew₂).2.1) (hother f₁ rf₁ hold₁ h₁)
    · exact h.pagers f₁ rf₁ f₂ rf₂ hold₁ hold₂ hpager

/-- A directory that no item refers to comes, without items, or goes. -/
theorem Tree.set_dir (h : Tree s L held) (dir : Option Dir) (hx : x < s.next)
    (hroot : x ≠ rootDir) (howner : ∀ e dir, s.dir e = some dir → e ≠ x → ∀ i ∈ L e,
      (s.body i).map Item.data ≠ some (.dir x))
    (hnew : ∀ dir', dir = some dir' → dir'.lock = held x ∧ dir'.itemsList = 0 ∧
      dir'.itemsIdx = .create) :
    Tree (s.setDir x dir) (Function.update L x []) held := by
  have hback : ∀ e dir', (s.setDir x dir).dir e = some dir' →
      e = x ∧ dir = some dir' ∧ Function.update L x [] e = [] ∨
        e ≠ x ∧ s.dir e = some dir' ∧ Function.update L x [] e = L e := by
    intro e dir' he
    by_cases hne : e = x
    · rw [hne, set_dir_self] at he
      exact .inl ⟨hne, he, hne ▸ Function.update_self ..⟩
    · rw [set_dir_of_ne hne] at he
      exact .inr ⟨hne, he, Function.update_of_ne hne ..⟩
  constructor
  · rw [set_dir_of_ne hroot.symm]
    exact h.root
  · intro a ha
    obtain ⟨hitem, hdir, hrest⟩ := h.fresh a ha
    exact ⟨hitem, (set_dir_of_ne (Nat.ne_of_gt (Nat.lt_of_lt_of_le hx ha)) _).trans hdir, hrest⟩
  · exact h.above
  · intro e dir' he
    rcases hback e dir' he with ⟨rfl, heq, -⟩ | ⟨hne, hold, -⟩
    · exact (hnew dir' heq).1
    · exact h.lock e dir' hold
  · intro e dir' he
    rcases hback e dir' he with ⟨rfl, heq, hl⟩ | ⟨hne, hold, hl⟩
    · obtain ⟨-, hlist, hidx⟩ := hnew dir' heq
      rw [hl]
      refine ⟨?_, hidx ▸ create_well_formed, by rw [hidx, create_iter]; exact .refl _⟩
      show ((s.setDir e dir).dir e).elim 0 Dir.itemsList = 0
      rw [he]
      exact hlist
    · rw [hl]
      refine (h.dirs e dir' hold).of_same rfl ?_ fun _ _ => rfl
      show ((s.setDir x dir).dir e).elim 0 Dir.itemsList = (s.dir e).elim 0 Dir.itemsList
      rw [he, hold]
  · intro e dir' he i hi
    rcases hback e dir' he with ⟨-, -, hl⟩ | ⟨hne, hold, hl⟩
    · rw [hl] at hi
      cases hi
    · rw [hl] at hi
      obtain ⟨item, hbody, hlive, hlength⟩ := h.items e dir' hold i hi
      refine ⟨item, hbody, hlive.mono (fun y hdata hy => ?_) (fun _ _ => rfl) rfl, hlength⟩
      have hyx : y ≠ x := fun heq =>
        howner e dir' hold hne i hi (by rw [hbody, ← heq, ← hdata]; rfl)
      rw [set_dir_of_ne hyx]
      exact hy
  · exact h.files
  · intro e dir' e' dir'' he he' i hi i' hi'
    rcases hback e dir' he with ⟨-, -, hl⟩ | ⟨-, hold, hl⟩
    · rw [hl] at hi
      cases hi
    · rcases hback e' dir'' he' with ⟨-, -, hl'⟩ | ⟨-, hold', hl'⟩
      · rw [hl'] at hi'
        cases hi'
      · exact h.owner e dir' e' dir'' hold hold' i (hl ▸ hi) i' (hl' ▸ hi')
  · exact h.pagers

/-- The directory with a new first item. -/
def Heap.addItem (s : Heap) (d : DirAddr) (dir : Dir) (i : ItemAddr) (item : Item)
    (idx : Hashtbl strKeys ItemAddr) : Heap :=
  { s with
    item := Function.update s.item i (some { item with next := dir.itemsList })
    dir := Function.update s.dir d (some { dir with itemsIdx := idx, itemsList := i }) }

/-- An item with a name that the directory does not have becomes its first one. -/
theorem Tree.add_item (h : Tree s L held) (hd : s.dir d = some dir) (hi : i < s.next)
    (hne : i ≠ 0) (hfresh : s.item i = none) {item : Item} (hlive : s.DataLive d item)
    (hlength : item.name.length < dirMax - 1) (hname : dir.itemsIdx.find item.name = none)
    (howner : ∀ e dir, s.dir e = some dir → ∀ j ∈ L e,
      (s.body j).map Item.data ≠ some item.data) (shrunk grown : Bool) :
    Tree (s.addItem d dir i item (dir.itemsIdx.add true shrunk grown item.name i).2.1)
      (Function.update L d (i :: L d)) held := by
  set s' := s.addItem d dir i item (dir.itemsIdx.add true shrunk grown item.name i).2.1 with hs'
  have hself : s'.dir d = some { dir with
      itemsIdx := (dir.itemsIdx.add true shrunk grown item.name i).2.1, itemsList := i } :=
    Function.update_self ..
  have hother : ∀ e, e ≠ d → s'.dir e = s.dir e := fun e he => Function.update_of_ne he ..
  have hunlisted : ∀ e dir', s.dir e = some dir' → ∀ j ∈ L e, j ≠ i := by
    intro e dir' he j hj heq
    obtain ⟨full, hfull, -⟩ := h.item_some he hj
    rw [heq, hfresh] at hfull
    cases hfull
  have hitem : ∀ j, j ≠ i → s'.item j = s.item j := fun j hj => Function.update_of_ne hj ..
  have hbody : s'.body i = some { item with next := 0 } := by
    show (Function.update s.item i _ i).map _ = _
    rw [Function.update_self]
    rfl
  have hbody' : ∀ j, j ≠ i → s'.body j = s.body j := fun j hj =>
    congrArg (Option.map _) (hitem j hj)
  have hdir : ∀ e dir', s'.dir e = some dir' → ∃ old, s.dir e = some old ∧ dir'.lock = old.lock ∧
      (e ≠ d → dir' = old) := by
    intro e dir' he
    by_cases hed : e = d
    · subst hed
      rw [hself] at he
      cases he
      exact ⟨dir, hd, rfl, fun hne => absurd rfl hne⟩
    · rw [hother e hed] at he
      exact ⟨dir', he, rfl, fun _ => rfl⟩
  have hforth : ∀ e, (∃ dir', s.dir e = some dir') → ∃ dir', s'.dir e = some dir' := by
    intro e he
    by_cases hed : e = d
    · exact ⟨_, hed ▸ hself⟩
    · rw [hother e hed]
      exact he
  have hlist : ∀ e, ∀ j ∈ Function.update L d (i :: L d) e, e = d ∧ j = i ∨ j ∈ L e := by
    intro e j hj
    by_cases hed : e = d
    · rw [hed, Function.update_self] at hj
      rcases List.mem_cons.mp hj with heq | hj
      · exact .inl ⟨hed, heq⟩
      · exact .inr (hed ▸ hj)
    · rw [Function.update_of_ne hed] at hj
      exact .inr hj
  constructor
  · exact hforth _ h.root
  · intro a ha
    obtain ⟨ha₁, ha₂, ha₃⟩ := h.fresh a ha
    refine ⟨(hitem a (Nat.ne_of_gt (Nat.lt_of_lt_of_le hi ha))).trans ha₁,
      (hother a fun heq => ?_).trans ha₂, ha₃⟩
    rw [heq, hd] at ha₂
    cases ha₂
  · exact h.above
  · intro e dir' he
    obtain ⟨old, hold, hlock, -⟩ := hdir e dir' he
    exact hlock.trans (h.lock e old hold)
  · intro e dir' he
    by_cases hed : e = d
    · subst hed
      rw [hself] at he
      cases he
      have hdok := h.dirs e dir hd
      have hword : s'.word (.inl e) = i := by
        show (s'.dir e).elim 0 Dir.itemsList = i
        rw [hself]
        rfl
      have hnext : s'.word (.inr i) = s.word (.inl e) := by
        show (Function.update s.item i _ i).elim 0 Item.next = (s.dir e).elim 0 Dir.itemsList
        rw [Function.update_self, hd]
        rfl
      rw [Function.update_self]
      obtain ⟨hwell, hperm, -⟩ := add_spec hdok.wellFormed shrunk grown item.name i
      refine ⟨hdok.chain.push hne hword hnext fun j hj => ?_, hwell, hperm.trans ?_⟩
      · show (s'.item j).elim 0 Item.next = (s.item j).elim 0 Item.next
        rw [hitem j (hunlisted e dir hd j hj)]
      · -- the name is new, so that nothing is replaced
        have hkept : (dir.itemsIdx.iter.filter fun b => !strKeys.ef b.1 item.name) =
            dir.itemsIdx.iter := by
          refine List.filter_eq_self.mpr fun b hb => ?_
          have hnone : ¬ strKeys.ef b.1 item.name = true := fun heq => by
            have hfound := (Common.find_iff hdok.wellFormed item.name b.2).mpr ⟨b, hb, heq, rfl⟩
            rw [hname] at hfound
            cases hfound
          simpa using hnone
        rw [hkept, List.map_cons]
        have hnameOf : s'.nameOf i = item.name := by
          show (s'.body i).elim [] Item.name = item.name
          rw [hbody]
          rfl
        rw [hnameOf]
        refine (hdok.index.trans (.of_eq ?_)).cons _
        refine List.map_congr_left fun j hj => ?_
        show ((s.body j).elim [] Item.name, j) = ((s'.body j).elim [] Item.name, j)
        rw [hbody' j (hunlisted e dir hd j hj)]
    · obtain ⟨old, hold, -, hsame⟩ := hdir e dir' he
      obtain rfl := hsame hed
      rw [Function.update_of_ne hed]
      refine (h.dirs e dir' hold).of_same rfl ?_ fun j hj => hitem j (hunlisted e dir' hold j hj)
      show (s'.dir e).elim 0 Dir.itemsList = (s.dir e).elim 0 Dir.itemsList
      rw [hother e hed]
  · intro e dir' he j hj
    obtain ⟨old, hold, -⟩ := hdir e dir' he
    rcases hlist e j hj with ⟨rfl, rfl⟩ | hj
    · have hlive' : s.DataLive e { item with next := 0 } := hlive
      exact ⟨_, hbody, hlive'.mono (fun x _ => hforth x) (fun _ _ => rfl) rfl, hlength⟩
    · obtain ⟨item', hb, hlive', hlength'⟩ := h.items e old hold j hj
      exact ⟨item', (hbody' j (hunlisted e old hold j hj)).trans hb,
        hlive'.mono (fun x _ => hforth x) (fun _ _ => rfl) rfl, hlength'⟩
  · exact h.files
  · intro e dir₁ e' dir₂ he he' j hj j' hj' hdata
    obtain ⟨old, hold, -⟩ := hdir e dir₁ he
    obtain ⟨old', hold', -⟩ := hdir e' dir₂ he'
    rcases hlist e j hj with ⟨he₁, hj₁⟩ | hmem <;> rcases hlist e' j' hj' with ⟨he₂, hj₂⟩ | hmem'
    · exact ⟨he₁.trans he₂.symm, hj₁.trans hj₂.symm⟩
    · rw [hj₁, hbody, hbody' j' (hunlisted e' old' hold' j' hmem')] at hdata
      exact absurd hdata.symm (howner e' old' hold' j' hmem')
    · rw [hj₂, hbody, hbody' j (hunlisted e old hold j hmem)] at hdata
      exact absurd hdata (howner e old hold j hmem)
    · rw [hbody' j (hunlisted e old hold j hmem),
        hbody' j' (hunlisted e' old' hold' j' hmem')] at hdata
      exact h.owner e old e' old' hold hold' j hmem j' hmem' hdata
  · exact h.pagers

/-- An item is taken out of the list and the table of its directory and freed. The pointer to it
gets the value of its own. -/
theorem Tree.remove_item (h : Tree s L held) (hd : s.dir d = some dir) {pre post : List ItemAddr}
    (hl : L d = pre ++ i :: post) {dir' : Dir} {s' : Heap} (shrunk : Bool)
    (hself : s'.dir d = some dir') (hother : ∀ e, e ≠ d → s'.dir e = s.dir e)
    (hlock : dir'.lock = dir.lock)
    (hidx : dir'.itemsIdx = (dir.itemsIdx.remove shrunk (s.nameOf i)).1)
    (hbody : ∀ j, j ≠ i → s'.body j = s.body j) (hgone : s'.item i = none)
    (hlast : s'.word (linkOf Sum.inr (.inl d) pre) = s.word (.inr i))
    (hword : ∀ v, v ≠ linkOf Sum.inr (.inl d) pre → v ≠ .inr i → s'.word v = s.word v)
    (hfile : s'.file = s.file) (hpager : s'.pager = s.pager) (hdev : s'.dev = s.dev)
    (hnext : s'.next = s.next) :
    Tree s' (Function.update L d (pre ++ post)) held := by
  have hdok := h.dirs d dir hd
  have hnodup : (pre ++ i :: post).Nodup := hl ▸ hdok.chain.nodup
  have hi : i ∈ L d := hl ▸ List.mem_append_right _ List.mem_cons_self
  have hnew : ∀ j ∈ pre ++ post, j ∈ L d ∧ j ≠ i := by
    intro j hj
    have hperm : (i :: (pre ++ post)).Nodup := List.perm_middle.nodup_iff.mp hnodup
    refine ⟨hl ▸ List.perm_middle.mem_iff.mpr (List.mem_cons_of_mem i hj), fun heq => ?_⟩
    exact (List.nodup_cons.mp hperm).1 (heq ▸ hj)
  have hdir : ∀ e dir₁, s'.dir e = some dir₁ → ∃ old, s.dir e = some old ∧
      dir₁.lock = old.lock ∧ (e ≠ d → dir₁ = old) := by
    intro e dir₁ he
    by_cases hed : e = d
    · subst hed
      rw [hself] at he
      cases he
      exact ⟨dir, hd, hlock, fun hne => absurd rfl hne⟩
    · rw [hother e hed] at he
      exact ⟨dir₁, he, rfl, fun _ => rfl⟩
  have hforth : ∀ e, (∃ dir₁, s.dir e = some dir₁) → ∃ dir₁, s'.dir e = some dir₁ := by
    intro e he
    by_cases hed : e = d
    · exact ⟨dir', hed ▸ hself⟩
    · rw [hother e hed]
      exact he
  have hlist : ∀ e dir₁, s.dir e = some dir₁ → ∀ j ∈ Function.update L d (pre ++ post) e,
      j ∈ L e ∧ j ≠ i := by
    intro e dir₁ he j hj
    by_cases hed : e = d
    · rw [hed, Function.update_self] at hj
      exact hed ▸ hnew j hj
    · rw [Function.update_of_ne hed] at hj
      refine ⟨hj, fun heq => hed ?_⟩
      exact (h.owner e dir₁ d dir he hd j hj i hi (by rw [heq])).1
  constructor
  · exact hforth _ h.root
  · intro a ha
    rw [hnext] at ha
    obtain ⟨ha₁, ha₂, ha₃, ha₄⟩ := h.fresh a ha
    refine ⟨?_, (hother a fun heq => ?_).trans ha₂, hfile ▸ ha₃, hpager ▸ ha₄⟩
    · by_cases hai : a = i
      · exact hai ▸ hgone
      · have hnone := hbody a hai
        unfold Heap.body at hnone
        rw [ha₁] at hnone
        exact Option.map_eq_none_iff.mp hnone
    · rw [heq, hd] at ha₂
      cases ha₂
  · exact hnext ▸ h.above
  · intro e dir₁ he
    obtain ⟨old, hold, hsame, -⟩ := hdir e dir₁ he
    exact hsame.trans (h.lock e old hold)
  · intro e dir₁ he
    obtain ⟨old, hold, -, hsame⟩ := hdir e dir₁ he
    -- the words of the other items are those of other pointers
    have hkept : ∀ j, j ∈ L e → j ≠ i → (e = d → j ∉ pre) → s'.word (.inr j) = s.word (.inr j) := by
      intro j hj hne hpre
      refine hword _ (fun heq => ?_) fun heq => hne (Sum.inr.inj heq)
      rcases link_of_mem Sum.inr (Sum.inl d : DirAddr ⊕ ItemAddr) pre with hhead | ⟨c, hc, hlast'⟩
      · exact absurd (heq.trans hhead) (by simp)
      · obtain rfl := Sum.inr.inj (heq.trans hlast')
        have hcd : j ∈ L d := hl ▸ List.mem_append_left _ hc
        exact hpre (h.owner e old d dir hold hd j hj j hcd rfl).1 hc
    by_cases hed : e = d
    · subst hed
      obtain rfl := Option.some.inj (hself.symm.trans he)
      rw [Function.update_self]
      obtain ⟨hwell, hperm, -⟩ := remove_spec hdok.wellFormed shrunk (s.nameOf i)
      refine ⟨?_, hidx ▸ hwell, ?_⟩
      · refine (hl ▸ hdok.chain).unlink Sum.inr_injective (by simp) hlast (fun j hj => ?_)
          fun v hv hmem => hword v hv ?_
        · obtain ⟨hj', hne⟩ := hnew j (List.mem_append_right _ hj)
          refine hkept j hj' hne fun _ hpre => ?_
          exact (List.nodup_append.mp hnodup).2.2 j hpre j (List.mem_cons_of_mem i hj) rfl
        · rcases hmem with rfl | ⟨c, hc, rfl⟩
          · simp
          · exact fun heq => (hnew c (List.mem_append_left _ hc)).2 (Sum.inr.inj heq)
      · -- the item is the only one with its name
        have hsplit : (L e).map (fun j => (s.nameOf j, j)) =
            pre.map (fun j => (s.nameOf j, j)) ++
              (s.nameOf i, i) :: post.map fun j => (s.nameOf j, j) := by
          rw [hl, List.map_append, List.map_cons]
        have hnames : ∀ j ∈ pre ++ post, s.nameOf j ≠ s.nameOf i := by
          intro j hj heq
          obtain ⟨hj', hne⟩ := hnew j hj
          exact hne (List.inj_on_of_nodup_map hdok.names_nodup hj' hi heq)
        rw [hidx]
        refine hperm.trans ((hdok.index.filter _).trans (.of_eq ?_))
        have hfilter : ∀ l : List ItemAddr, (∀ j ∈ l, s.nameOf j ≠ s.nameOf i) →
            (l.map fun j => (s.nameOf j, j)).filter (fun b => !strKeys.ef b.1 (s.nameOf i)) =
              l.map fun j => (s.nameOf j, j) := by
          intro l hall
          refine List.filter_eq_self.mpr fun b hb => ?_
          obtain ⟨j, hj, rfl⟩ := List.mem_map.mp hb
          simpa [strKeys] using hall j hj
        have hdrop : (!strKeys.ef (s.nameOf i) (s.nameOf i)) = false := by simp [strKeys]
        have hsame' : ((pre ++ post).map fun j => (s'.nameOf j, j)) =
            (pre ++ post).map fun j => (s.nameOf j, j) := by
          refine List.map_congr_left fun j hj => ?_
          show ((s'.body j).elim [] Item.name, j) = ((s.body j).elim [] Item.name, j)
          rw [hbody j (hnew j hj).2]
        rw [hsame', hsplit, List.filter_append, List.filter_cons_of_neg (by simp [hdrop]),
          hfilter pre fun j hj => hnames j (List.mem_append_left _ hj),
          hfilter post fun j hj => hnames j (List.mem_append_right _ hj), List.map_append]
    · obtain rfl := hsame hed
      rw [Function.update_of_ne hed]
      have hsame' := h.dirs e dir₁ hold
      have hne : ∀ j ∈ L e, j ≠ i := fun j hj =>
        (hlist e dir₁ hold j (by rw [Function.update_of_ne hed]; exact hj)).2
      refine ⟨hsame'.chain.congr ?_ fun j hj => hkept j hj (hne j hj) fun heq => absurd heq hed,
        hsame'.wellFormed, hsame'.index.trans (.of_eq (List.map_congr_left fun j hj => ?_))⟩
      · show (s'.dir e).elim 0 Dir.itemsList = (s.dir e).elim 0 Dir.itemsList
        rw [hother e hed]
      · show ((s.body j).elim [] Item.name, j) = ((s'.body j).elim [] Item.name, j)
        rw [hbody j (hne j hj)]
  · intro e dir₁ he j hj
    obtain ⟨old, hold, -⟩ := hdir e dir₁ he
    obtain ⟨hj', hne⟩ := hlist e old hold j hj
    obtain ⟨item, hb, hlive, hlength⟩ := h.items e old hold j hj'
    exact ⟨item, (hbody j hne).trans hb, hlive.mono (fun x _ => hforth x) (fun _ _ => by rw [hfile]) hdev,
      hlength⟩
  · intro f rf hf
    rw [hfile] at hf
    rw [hpager]
    exact h.files f rf hf
  · intro e dir₁ e' dir₂ he he' j hj j' hj' hdata
    obtain ⟨old, hold, -⟩ := hdir e dir₁ he
    obtain ⟨old', hold', -⟩ := hdir e' dir₂ he'
    obtain ⟨hmem, hne⟩ := hlist e old hold j hj
    obtain ⟨hmem', hne'⟩ := hlist e' old' hold' j' hj'
    rw [hbody j hne, hbody j' hne'] at hdata
    exact h.owner e old e' old' hold hold' j hmem j' hmem' hdata
  · rw [hfile]
    exact h.pagers

end Changes

end Kogata.Kernel.Nullfs
