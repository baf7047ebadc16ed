import Kogata.Kernel.NullfsTree
import Kogata.Lib.Effect
import Kogata.Lib.Run

/-!
# The RAM file system stays consistent

The calls on paths keep the invariant of the directories, but for three: one that creates a name
that is there, one that deletes an item behind the second of its directory, and one that deletes a
directory that has items.
-/

namespace Kogata.Kernel.Nullfs

open Common Lib.Effect Lib.Links Lib.Run

/-- Nobody has a lock. -/
abbrev unheld : DirAddr → Bool := fun _ => false

section Runs

variable {s : Heap} {L : DirAddr → List ItemAddr} {d : DirAddr} {dir : Dir} {i : ItemAddr}
  {item : Item} {f : RamFileAddr} {rf : RamFile}

theorem the_dir_run (hd : s.dir d = some dir) : theDir d s = .ok (dir, s) := by
  rw [theDir, run_get_bind, hd]
  rfl

theorem the_item_run (hi : s.item i = some item) : theItem i s = .ok (item, s) := by
  rw [theItem, run_get_bind, hi]
  rfl

theorem the_ram_file_run (hf : s.file f = some rf) : theRamFile f s = .ok (rf, s) := by
  rw [theRamFile, run_get_bind, hf]
  rfl

theorem pager_size_run {p : PagerAddr} {size : Nat} (hp : s.pager p = some size) :
    pagerSize p s = .ok (size, s) := by
  rw [pagerSize, run_get_bind, hp]
  rfl

@[simp] theorem set_dir_set_dir (first second : Option Dir) :
    (s.setDir d first).setDir d second = s.setDir d second := by
  unfold Heap.setDir
  simp

theorem set_dir_same {x : Option Dir} (hd : s.dir d = x) : s.setDir d x = s := by
  subst hd
  unfold Heap.setDir
  rw [Function.update_eq_self]

theorem lock_dir_run (hd : s.dir d = some dir) (hlock : dir.lock = false) :
    lockDir d s = .ok ((), s.setDir d (some { dir with lock := true })) := by
  unfold lockDir
  rw [run_bind_of_ok (the_dir_run hd), hlock]
  rfl

theorem unlock_dir_run (hd : s.dir d = some dir) :
    unlockDir d s = .ok ((), s.setDir d (some { dir with lock := false })) := by
  unfold unlockDir
  rw [run_bind_of_ok (the_dir_run hd)]
  rfl

/-- The lock is given back as it was taken. -/
theorem unlock_locked_run (hd : s.dir d = some dir) (hlock : dir.lock = false) :
    unlockDir d (s.setDir d (some { dir with lock := true })) = .ok ((), s) := by
  rw [unlock_dir_run (set_dir_self _), set_dir_set_dir]
  have hsame : ({ dir with lock := false } : Dir) = dir := by rw [← hlock]
  rw [hsame, set_dir_same hd]

/-- `nullfs_d_walk` finds what the table has. -/
theorem walk_run (h : Tree s L unheld) (hd : s.dir d = some dir) (name : Name) :
    nullfsDWalk d name s = .ok ((dir.itemsIdx.find name).bind fun i =>
      (s.item i).map fun item => { data := item.data, pager := item.pager }, s) := by
  have hlock := h.lock d dir hd
  unfold nullfsDWalk
  rw [run_bind_of_ok (lock_dir_run hd hlock), run_bind_of_ok (the_dir_run (set_dir_self _))]
  dsimp only
  cases hfind : dir.itemsIdx.find name with
  | none =>
      simp only
      rw [run_bind_of_ok (unlock_locked_run hd hlock)]
      rfl
  | some i =>
      have hi := (((h.dirs d dir hd).find_iff name i).mp hfind).1
      obtain ⟨item, hitem, -⟩ := h.item_some hd hi
      have hitem' : (s.setDir d (some { dir with lock := true })).item i = some item := hitem
      simp only
      rw [run_bind_of_ok (the_item_run hitem'), run_bind_of_ok (unlock_locked_run hd hlock)]
      simp only [Option.bind_some, hitem, Option.map_some]
      rfl

/-- What `nullfs_d_stat` says of a directory. -/
def Heap.dirStat (s : Heap) (dir : Dir) : Stat where
  type := ftDir
  access := fmReaddir ||| (if s.canCreate then fmDcreate else 0) |||
    (if s.canMove then fmDmove else 0) ||| (if s.canDelete then fmDdelete else 0)
  size := dir.itemsIdx.count

theorem dir_stat_run (hd : s.dir d = some dir) (hlock : dir.lock = false) :
    nullfsDStat d s = .ok (s.dirStat dir, s) := by
  unfold nullfsDStat
  rw [run_bind_of_ok (lock_dir_run hd hlock),
    run_bind_of_ok (a := s.setDir d (some { dir with lock := true })) rfl,
    run_bind_of_ok (the_dir_run (set_dir_self _))]
  show (unlockDir d >>= fun _ => pure _ : NullfsM Stat) _ = _
  rw [run_bind_of_ok (unlock_locked_run hd hlock)]
  rfl

/-- `nullfs_f_stat` of a file whose lock is free. -/
theorem file_stat_run (hf : s.file f = some rf) (hlock : rf.lock = false) {size : Nat}
    (hp : s.pager rf.pager = some size) : ∃ st, nullfsFStat f s = .ok (st, s) := by
  unfold nullfsFStat
  rw [run_bind_of_ok (the_ram_file_run hf), hlock]
  refine ⟨{ type := ftRegular, access := rf.okModes, size := size }, ?_⟩
  show ((do
    let size ← pagerSize rf.pager
    putRamFile f (some rf)
    return { type := ftRegular, access := rf.okModes, size := size }) : NullfsM Stat)
    { s with file := Function.update s.file f (some { rf with lock := true }) } = _
  have hp' : ({ s with file := Function.update s.file f (some { rf with lock := true }) } :
      Heap).pager rf.pager = some size := hp
  rw [run_bind_of_ok (pager_size_run hp')]
  show Except.ok (_, { s with
    file := Function.update (Function.update s.file f _) f (some rf) }) = _
  rw [Function.update_idem, ← hf, Function.update_eq_self]

/-- The loop of `nullfs_d_readdir` comes to the item with the number. -/
theorem item_at_run {v : DirAddr ⊕ ItemAddr} {l : List ItemAddr}
    (h : Chain s.word Sum.inr v l) (hl : ∀ i ∈ l, ∃ item, s.item i = some item) (n : Nat) :
    itemAt n (s.word v) s = .ok (l[n]?.getD 0, s) := by
  induction l generalizing v n with
  | nil =>
      rw [show s.word v = 0 from h]
      cases n <;> rfl
  | cons i l ih =>
      obtain ⟨hi, hne, hrest⟩ := h
      obtain ⟨item, hitem⟩ := hl i List.mem_cons_self
      obtain ⟨k, rfl⟩ := Nat.exists_eq_succ_of_ne_zero hne
      rw [hi]
      cases n with
      | zero => rfl
      | succ n =>
          show (theItem (k + 1) >>= fun item => itemAt n item.next) s = _
          rw [run_bind_of_ok (the_item_run hitem)]
          have hnext : s.word (.inr (k + 1)) = item.next := by
            show (s.item (k + 1)).elim 0 Item.next = item.next
            rw [hitem]
            rfl
          have hgo := ih hrest (fun j hj => hl j (List.mem_cons_of_mem _ hj)) n
          rw [hnext] at hgo
          exact hgo

theorem dev_stat_run {dev : DevAddr} {st : Stat} (hdev : s.dev dev = some st) :
    devStat dev s = .ok (st, s) := by
  rw [devStat, run_get_bind, hdev]
  rfl

/-- `stat` of a node whose data is there and whose lock is free. -/
theorem stat_node_run (data : NodeData)
    (hdir : ∀ x, data = .dir x → ∃ sd, s.dir x = some sd ∧ sd.lock = false)
    (hfile : ∀ f, data = .file f → ∃ rf, s.file f = some rf ∧ rf.lock = false ∧
      ∃ size, s.pager rf.pager = some size)
    (hdev : ∀ dev, data = .special dev → ∃ st, s.dev dev = some st) :
    ∃ st, statNode data s = .ok (st, s) := by
  cases data with
  | dir x =>
      obtain ⟨sd, hsd, hlock⟩ := hdir x rfl
      exact ⟨_, dir_stat_run hsd hlock⟩
  | file f =>
      obtain ⟨rf, hrf, hlock, size, hp⟩ := hfile f rfl
      exact file_stat_run hrf hlock hp
  | special dev =>
      obtain ⟨st, hst⟩ := hdev dev rfl
      exact ⟨st, dev_stat_run hst⟩

/-- The node's data is there. -/
def Heap.NodeLive (s : Heap) : NodeData → Prop
  | .dir x => ∃ sd, s.dir x = some sd
  | .file f => ∃ rf, s.file f = some rf
  | .special dev => ∃ st, s.dev dev = some st

theorem Tree.stat_node (h : Tree s L unheld) {data : NodeData} (hlive : s.NodeLive data) :
    ∃ st, statNode data s = .ok (st, s) := by
  refine stat_node_run data (fun x hdata => ?_) (fun f hdata => ?_) fun dev hdata => ?_
  · subst hdata
    obtain ⟨sd, hsd⟩ := hlive
    exact ⟨sd, hsd, h.lock x sd hsd⟩
  · subst hdata
    obtain ⟨rf, hrf⟩ := hlive
    exact ⟨rf, hrf, h.files f rf hrf⟩
  · subst hdata
    exact hlive

/-- An entry of `nullfs_d_readdir` is the item with the number, under its name. -/
theorem readdir_run (h : Tree s L unheld) (hd : s.dir d = some dir) (n : Nat) :
    ∃ answer, nullfsDReaddir d n s = .ok (answer, s) ∧
      answer.map Prod.fst = ((L d).map s.nameOf)[n]? := by
  have hlock := h.lock d dir hd
  have hdok := h.dirs d dir hd
  set s₁ := s.setDir d (some { dir with lock := true }) with hs₁
  have htree := h.set_lock hd true
  have hdok₁ := htree.dirs d _ (set_dir_self _)
  have hword : s₁.word (.inl d) = dir.itemsList := by
    show (s₁.dir d).elim 0 Dir.itemsList = dir.itemsList
    rw [hs₁, set_dir_self]
    rfl
  have hat := item_at_run hdok₁.chain (fun i hi => by
    obtain ⟨item, hitem, -⟩ := h.item_some hd hi
    exact ⟨item, hitem⟩) n
  rw [hword] at hat
  unfold nullfsDReaddir
  rw [run_bind_of_ok (lock_dir_run hd hlock), run_bind_of_ok (the_dir_run (set_dir_self _))]
  show ∃ answer, (itemAt n dir.itemsList >>= _) s₁ = _ ∧ _
  rw [run_bind_of_ok hat]
  cases hn : (L d)[n]? with
  | none =>
      refine ⟨none, ?_, by simp [hn]⟩
      show (unlockDir d >>= fun _ => pure none : NullfsM (Option (Name × Stat))) s₁ = _
      rw [run_bind_of_ok (unlock_locked_run hd hlock)]
      rfl
  | some i =>
      have hi := List.mem_of_getElem? hn
      obtain ⟨item, hitem, hlive, hlength⟩ := h.item_some hd hi
      have hne : i ≠ 0 := hdok.chain.ne_zero hi
      obtain ⟨st, hst⟩ := stat_node_run (s := s₁) item.data
        (fun x hdata => by
          unfold Heap.DataLive at hlive
          simp only [hdata] at hlive
          obtain ⟨hxd, -, ⟨sd, hsd⟩, -⟩ := hlive
          exact ⟨sd, (set_dir_of_ne hxd _).trans hsd, h.lock x sd hsd⟩)
        (fun f hdata => by
          unfold Heap.DataLive at hlive
          simp only [hdata] at hlive
          obtain ⟨rf, hrf, -⟩ := hlive
          exact ⟨rf, hrf, h.files f rf hrf⟩)
        (fun dev hdata => by
          unfold Heap.DataLive at hlive
          simp only [hdata] at hlive
          exact hlive)
      have hname : s.nameOf i = item.name := by
        show ((s.item i).map _).elim [] Item.name = item.name
        rw [hitem]
        rfl
      refine ⟨some (item.name.take (dirMax - 1), st), ?_, ?_⟩
      · show (if i = 0 then _ else _ : NullfsM (Option (Name × Stat))) s₁ = _
        have hitem₁ : s₁.item i = some item := hitem
        rw [if_neg hne]
        show (theItem i >>= _) s₁ = _
        rw [run_bind_of_ok (the_item_run hitem₁), run_bind_of_ok hst,
          run_bind_of_ok (unlock_locked_run hd hlock)]
        rfl
      · rw [List.getElem?_map, hn, Option.map_some, Option.map_some, hname,
          List.take_of_length_le (Nat.le_of_lt hlength)]

end Runs

section Walks

variable {s : Heap} {L : DirAddr → List ItemAddr}

/-- `fs_walk_one` comes to a node whose data is there. -/
theorem walk_one_run (h : Tree s L unheld) {base : NodeData} (hlive : s.NodeLive base)
    (mem : NodeMem) (file : Name) : ∃ answer, fsWalkOne mem base file s = .ok (answer, s) ∧
      ∀ n, answer = some n → s.NodeLive n := by
  cases base with
  | file f => exact ⟨none, rfl, by simp⟩
  | special dev => exact ⟨none, rfl, by simp⟩
  | dir d =>
      obtain ⟨dir, hd⟩ := hlive
      unfold fsWalkOne
      cases hnode : mem.node with
      | false => exact ⟨none, rfl, by simp⟩
      | true =>
          show ∃ answer, (nullfsDWalk d file >>= _) s = _ ∧ _
          rw [run_bind_of_ok (walk_run h hd file)]
          cases hfind : dir.itemsIdx.find file with
          | none => exact ⟨none, rfl, by simp⟩
          | some i =>
              have hi := (((h.dirs d dir hd).find_iff file i).mp hfind).1
              obtain ⟨item, hitem, hdata, -⟩ := h.item_some hd hi
              rw [Option.bind_some, hitem, Option.map_some]
              refine ⟨if mem.binding then some item.data else none, rfl, fun n hn => ?_⟩
              have hn : item.data = n := by
                split at hn
                · exact Option.some.inj hn
                · cases hn
              subst hn
              unfold Heap.DataLive at hdata
              unfold Heap.NodeLive
              split at hdata
              · next x hx =>
                  rw [show item.data = .dir x from hx]
                  exact hdata.2.2.1
              · next f hf =>
                  rw [show item.data = .file f from hf]
                  exact hdata.imp fun rf hrf => hrf.1
              · next dev hdev =>
                  rw [show item.data = .special dev from hdev]
                  exact hdata

theorem walk_items_run (h : Tree s L unheld) (items : List Name) {base : NodeData}
    (hlive : s.NodeLive base) (mem : Nat → NodeMem) :
    ∃ answer, walkItems mem base items s = .ok (answer, s) ∧
      ∀ n, answer = some n → s.NodeLive n := by
  induction items generalizing base mem with
  | nil => exact ⟨some base, rfl, fun n hn => Option.some.inj hn ▸ hlive⟩
  | cons item rest ih =>
      cases rest with
      | nil =>
          show ∃ answer, (if item = [] then _ else _ : NullfsM (Option NodeData)) s = _ ∧ _
          split
          · exact ⟨some base, rfl, fun n hn => Option.some.inj hn ▸ hlive⟩
          · exact walk_one_run h hlive (mem 0) item
      | cons second rest =>
          show ∃ answer, (if item = [] ∨ item.length ≥ dirMax - 1 then _ else _ :
            NullfsM (Option NodeData)) s = _ ∧ _
          split
          · exact ⟨none, rfl, by simp⟩
          · obtain ⟨answer, hrun, hanswer⟩ := walk_one_run h hlive (mem 0) item
            rw [run_bind_of_ok hrun]
            cases answer with
            | none => exact ⟨none, rfl, by simp⟩
            | some n => exact ih (hanswer n rfl) fun k => mem (k + 1)

theorem walk_items_except_last_run (h : Tree s L unheld) (items : List Name) {base : NodeData}
    (hlive : s.NodeLive base) (mem : Nat → NodeMem) :
    ∃ answer, walkItemsExceptLast mem base items s = .ok (answer, s) ∧
      ∀ n name, answer = some (n, name) → s.NodeLive n ∧ name.length < dirMax - 1 := by
  induction items generalizing base mem with
  | nil =>
      refine ⟨some (base, []), rfl, fun n name hn => ?_⟩
      cases hn
      exact ⟨hlive, by decide⟩
  | cons item rest ih =>
      cases rest with
      | nil =>
          show ∃ answer, (if item.length ≥ dirMax - 1 then _ else _ :
            NullfsM (Option (NodeData × Name))) s = _ ∧ _
          split
          · exact ⟨none, rfl, by simp⟩
          · next hlength =>
              refine ⟨some (base, item), rfl, fun n name hn => ?_⟩
              cases hn
              exact ⟨hlive, Nat.lt_of_not_le hlength⟩
      | cons second rest =>
          show ∃ answer, (if item = [] ∨ item.length ≥ dirMax - 1 then _
            else if second :: rest = [[]] then _ else _ :
            NullfsM (Option (NodeData × Name))) s = _ ∧ _
          split
          · exact ⟨none, rfl, by simp⟩
          · next hitem =>
              split
              · refine ⟨some (base, item), rfl, fun n name hn => ?_⟩
                cases hn
                exact ⟨hlive, Nat.lt_of_not_le fun hle => hitem (.inr hle)⟩
              · obtain ⟨answer, hrun, hanswer⟩ := walk_one_run h hlive (mem 0) item
                rw [run_bind_of_ok hrun]
                cases answer with
                | none => exact ⟨none, rfl, by simp⟩
                | some n => exact ih (hanswer n rfl) fun k => mem (k + 1)

theorem walk_path_except_last_run (h : Tree s L unheld) (mem : Nat → NodeMem) (path : Name) :
    ∃ answer, fsWalkPathExceptLast mem path s = .ok (answer, s) ∧
      ∀ n name, answer = some (n, name) → s.NodeLive n ∧ name.length < dirMax - 1 := by
  unfold fsWalkPathExceptLast
  split
  · exact ⟨none, rfl, by simp⟩
  · have hroot : s.NodeLive (.dir rootDir) := h.root
    exact walk_items_except_last_run h _ hroot mem

end Walks

section Create

variable {s : Heap} {L : DirAddr → List ItemAddr} {held : DirAddr → Bool} {d : DirAddr} {dir : Dir}

/-- The end of a call: the lock is given back. -/
theorem unlock_yields (h : Tree s L (Function.update unheld d true)) (hd : s.dir d = some dir)
    (b : Bool) : Yields (unlockDir d >>= fun _ => pure b : NullfsM Bool) s
      fun _ s' => ∃ L', Tree s' L' unheld := by
  refine yields_bind_of_run (unlock_dir_run hd) (yields_pure ⟨L, ?_⟩)
  have htree := h.set_lock hd false
  rw [Function.update_idem, show Function.update unheld d false = unheld from
    Function.update_eq_self d unheld] at htree
  exact htree

/-- The item is added, or nothing but the next address has changed. -/
theorem add_item_yields (h : Tree s L held) (hd : s.dir d = some dir) (mem : CreateMem)
    (item : Item) (hlength : item.name.length < dirMax - 1)
    (hnew : mem.item = true → mem.name = true → mem.binding = true →
      s.DataLive d item ∧ dir.itemsIdx.find item.name = none)
    (howner : ∀ e dir, s.dir e = some dir → ∀ j ∈ L e,
      (s.body j).map Item.data ≠ some item.data) :
    Yields (addItem mem d item) s fun ok s' => (∃ dir', s'.dir d = some dir') ∧
      if ok then ∃ L', Tree s' L' held
      else s' = s ∨ s' = { s with next := s.next + 1 } := by
  unfold addItem
  split
  · next hmem =>
      obtain ⟨hitem, hname'⟩ := Bool.and_eq_true_iff.mp hmem
      refine yields_bind_of_run (show newAddr s = .ok (s.next, { s with next := s.next + 1 })
        from rfl) (yields_bind_of_run (the_dir_run hd) ?_)
      cases hbinding : mem.binding with
      | false =>
          exact yields_pure ⟨⟨dir, hd⟩, .inr rfl⟩
      | true =>
          obtain ⟨hlive, hname⟩ := hnew hitem hname' hbinding
          have htree := h.new_addr.add_item hd (Nat.lt_succ_self s.next)
            (Nat.ne_of_gt (Nat.lt_of_le_of_lt (Nat.zero_le _) h.above))
            (h.fresh s.next (Nat.le_refl _)).1 hlive hlength hname howner mem.shrunk mem.grown
          exact yields_of_run rfl ⟨⟨_, Function.update_self ..⟩, _, htree⟩
  · exact yields_pure ⟨⟨dir, hd⟩, .inl rfl⟩

/-- What is new is not that of an item. -/
theorem Tree.data_ne (h : Tree s L held) (data : NodeData)
    (hnew : (∀ x, data = .dir x → s.dir x = none) ∧ (∀ f, data = .file f → s.file f = none) ∧
      ∀ dev, data ≠ .special dev) :
    ∀ e dir, s.dir e = some dir → ∀ j ∈ L e, (s.body j).map Item.data ≠ some data := by
  intro e dir he j hj heq
  obtain ⟨item, hitem, hlive, -⟩ := h.items e dir he j hj
  rw [hitem] at heq
  unfold Heap.DataLive at hlive
  cases hdata : item.data with
  | dir x =>
      rw [hdata] at hlive
      obtain ⟨-, -, ⟨sd, hsd⟩, -⟩ := hlive
      rw [hnew.1 x ((Option.some.inj heq).symm.trans hdata)] at hsd
      cases hsd
  | file f =>
      rw [hdata] at hlive
      obtain ⟨rf, hrf, -⟩ := hlive
      rw [hnew.2.1 f ((Option.some.inj heq).symm.trans hdata)] at hrf
      cases hrf
  | special dev => exact hnew.2.2 dev ((Option.some.inj heq).symm.trans hdata)

/-- The end of `nullfs_d_create` at `f_error`, where no item refers to the file. -/
theorem f_error_yields (h : Tree s L (Function.update unheld d true)) (hd : s.dir d = some dir)
    {f : RamFileAddr} {p : PagerAddr} (hf : f < s.next) (hp : p < s.next)
    (howner : ∀ e dir, s.dir e = some dir → ∀ i ∈ L e, (s.body i).map Item.data ≠ some (.file f))
    (hother : ∀ f' rf', s.file f' = some rf' → f' ≠ f → rf'.pager ≠ p) {size : Nat}
    (hpager : s.pager p = some size) :
    Yields (do
      putRamFile f none
      deletePager p
      unlockDir d
      return false : NullfsM Bool) s fun _ s' => ∃ L', Tree s' L' unheld := by
  have hgone := h.set_file none none hf hp howner hother (by simp)
  have hpager' : ({ s with file := Function.update s.file f none } : Heap).pager p = some size :=
    hpager
  refine yields_bind_of_run (a := ()) rfl
    (yields_bind_of_run (run_bind_of_ok (pager_size_run hpager')) ?_)
  exact unlock_yields hgone hd false

/-- `nullfs_d_create` for a file whose name the directory does not have. -/
theorem create_ram_file_yields (h : Tree s L unheld) (hd : s.dir d = some dir) (mem : CreateMem)
    {file : Name} (hlength : file.length < dirMax - 1)
    (hname : mem.enough = true → dir.itemsIdx.find file = none) :
    Yields (createRamFile mem d file) s fun _ s' => ∃ L', Tree s' L' unheld := by
  have hlock := h.lock d dir hd
  unfold createRamFile
  refine yields_bind_of_run (lock_dir_run hd hlock) ?_
  have hlocked := h.set_lock hd true
  cases hdata : mem.data with
  | false => exact unlock_yields hlocked (set_dir_self _) false
  | true =>
      refine yields_bind_of_run (show newAddr _ = .ok (s.next, _) from rfl) ?_
      cases hpart : mem.part with
      | false => exact unlock_yields hlocked.new_addr (set_dir_self _) false
      | true =>
          -- the addresses of the file and of its pager
          obtain ⟨-, hdfresh, hffresh, -⟩ := h.fresh s.next (Nat.le_refl _)
          have hpfresh := (h.fresh (s.next + 1) (Nat.le_succ _)).2.2.2
          have htree := hlocked.new_addr.new_addr
          have hunowned := htree.data_ne (.file s.next)
            ⟨fun x hx => (by cases hx), fun f hf => (by cases hf; exact hffresh),
              fun dev hdev => (by cases hdev)⟩
          have hother : ∀ f' rf', s.file f' = some rf' → f' ≠ s.next → rf'.pager ≠ s.next + 1 := by
            intro f' rf' hf' _ heq
            obtain ⟨-, n, hn⟩ := h.files f' rf' hf'
            rw [heq, hpfresh] at hn
            cases hn
          have hfile := htree.set_file (some (RamFile.new (s.next + 1))) (some 0)
            (Nat.lt_succ_of_lt (Nat.lt_succ_self s.next)) (Nat.lt_succ_self (s.next + 1)) hunowned
            hother (fun rf' hrf' => by
              cases hrf'
              exact ⟨rfl, rfl, 0, rfl⟩)
          refine yields_bind_of_run (show newAddr _ = .ok (s.next + 1, _) from rfl)
            (yields_bind_of_run (a := ()) rfl (yields_bind_of_run (a := ()) rfl ?_))
          refine (add_item_yields hfile (set_dir_self _) mem
            { name := file, data := .file s.next, pager := s.next + 1, next := 0 }
            hlength ?_ hunowned).bind ?_
          · intro hitem hname' hbinding
            exact ⟨⟨RamFile.new (s.next + 1), Function.update_self .., rfl⟩,
              hname (by simp [CreateMem.enough, hdata, hpart, hitem, hname', hbinding])⟩
          · intro ok s' hok
            obtain ⟨⟨dir', hd'⟩, hok⟩ := hok
            cases ok with
            | true =>
                obtain ⟨L', htree'⟩ := hok
                exact unlock_yields htree' hd' true
            | false =>
                have hother' : ∀ f' rf', Function.update s.file s.next
                    (some (RamFile.new (s.next + 1))) f' = some rf' → f' ≠ s.next →
                    rf'.pager ≠ s.next + 1 := fun f' rf' hf' hne =>
                  hother f' rf' ((Function.update_of_ne hne ..).symm.trans hf') hne
                rcases hok with rfl | rfl
                · exact f_error_yields hfile hd' (Nat.lt_succ_of_lt (Nat.lt_succ_self _))
                    (Nat.lt_succ_self _) hunowned hother' (Function.update_self ..)
                · exact f_error_yields hfile.new_addr hd'
                    (Nat.lt_succ_of_lt (Nat.lt_succ_of_lt (Nat.lt_succ_self _)))
                    (Nat.lt_succ_of_lt (Nat.lt_succ_self _)) hunowned hother'
                    (Function.update_self ..)

/-- `nullfs_d_create` for a directory whose name the directory does not have, where the memory of
its item has no pager in it. -/
theorem create_dir_yields (h : Tree s L unheld) (hd : s.dir d = some dir) (mem : CreateMem)
    {file : Name} (hlength : file.length < dirMax - 1)
    (hname : mem.enough = true → dir.itemsIdx.find file = none ∧ mem.leftover = 0) :
    Yields (createDir mem d file) s fun _ s' => ∃ L', Tree s' L' unheld := by
  have hlock := h.lock d dir hd
  unfold createDir
  refine yields_bind_of_run (lock_dir_run hd hlock) ?_
  have hlocked := h.set_lock hd true
  cases hpart : mem.data && mem.part with
  | false =>
      have hnot : (!mem.data || !mem.part) = true := by rw [← Bool.not_and, hpart]; rfl
      rw [if_pos hnot]
      exact unlock_yields hlocked (set_dir_self _) false
  | true =>
      have hnot : ¬ (!mem.data || !mem.part) = true := by rw [← Bool.not_and, hpart]; simp
      rw [if_neg hnot]
      refine yields_bind_of_run (show newAddr _ = .ok (s.next, _) from rfl) ?_
      obtain ⟨-, hdfresh, hffresh, -⟩ := h.fresh s.next (Nat.le_refl _)
      have hne : d ≠ s.next := fun heq => by
        rw [← heq, hd] at hdfresh
        cases hdfresh
      have hroot : s.next ≠ rootDir := Nat.ne_of_gt h.above
      have hunowned := hlocked.new_addr.data_ne (.dir s.next)
        ⟨fun x hx => (by cases hx; exact (set_dir_of_ne hne.symm _).trans hdfresh),
          fun f hf => (by cases hf), fun dev hdev => (by cases hdev)⟩
      have hdir := hlocked.new_addr.set_dir (some Dir.new) (Nat.lt_succ_self s.next) hroot
        (fun e dir he _ => hunowned e dir he) (fun dir' hdir' => by
          cases hdir'
          refine ⟨?_, rfl, rfl⟩
          rw [Function.update_of_ne hne.symm]
          rfl)
      have hd₁ := (set_dir_of_ne hne (some Dir.new)).trans
        (set_dir_self (s := s) (some { dir with lock := true }))
      -- the new directory has no items
      have hunowned' : ∀ b e dir₁,
          ((s.setDir d (some { dir with lock := true })).setDir s.next b).dir e = some dir₁ →
          ∀ j ∈ Function.update L s.next [] e,
          (s.body j).map Item.data ≠ some (.dir s.next) := by
        intro b e dir₁ he j hj
        by_cases hex : e = s.next
        · rw [hex, Function.update_self] at hj
          cases hj
        · rw [set_dir_of_ne hex] at he
          rw [Function.update_of_ne hex] at hj
          exact hunowned e dir₁ he j hj
      refine yields_bind_of_run (a := ()) rfl ?_
      refine (add_item_yields hdir hd₁ mem
        { name := file, data := .dir s.next, pager := mem.leftover, next := 0 }
        hlength ?_ (hunowned' _)).bind ?_
      · intro hitem hname' hbinding
        obtain ⟨hdata', hpart'⟩ := Bool.and_eq_true_iff.mp hpart
        obtain ⟨hfree, hleft⟩ :=
          hname (by simp [CreateMem.enough, hdata', hpart', hitem, hname', hbinding])
        exact ⟨⟨hne.symm, hroot, ⟨Dir.new, Function.update_self ..⟩, hleft⟩, hfree⟩
      · intro ok s' hok
        obtain ⟨⟨dir', hd'⟩, hok⟩ := hok
        cases ok with
        | true =>
            obtain ⟨L', htree'⟩ := hok
            exact unlock_yields htree' hd' true
        | false =>
            refine yields_bind_of_run (a := ()) rfl ?_
            rcases hok with rfl | rfl
            · have hgone := hdir.set_dir none (Nat.lt_succ_self s.next) hroot
                (fun e dir₁ he _ => hunowned' _ e dir₁ he) (by simp)
              exact unlock_yields hgone ((set_dir_of_ne hne _).trans hd') false
            · have hgone := hdir.new_addr.set_dir none
                (Nat.lt_succ_of_lt (Nat.lt_succ_self s.next)) hroot
                (fun e dir₁ he _ => hunowned' _ e dir₁ he) (by simp)
              exact unlock_yields hgone ((set_dir_of_ne hne _).trans hd') false

end Create

section Delete

variable {s : Heap} {L : DirAddr → List ItemAddr} {held : DirAddr → Bool} {d : DirAddr} {dir : Dir}
  {i : ItemAddr} {item : Item}

/-- The item is the first of its directory, or the one behind it. -/
def Heap.Reached (s : Heap) (dir : Dir) (i : ItemAddr) : Prop :=
  dir.itemsList = i ∨ ∃ first, s.item dir.itemsList = some first ∧ first.next = i

/-- The directory when `nullfs_d_delete` has taken an item out of its list and its table. -/
def Dir.unlinked (dir : Dir) (shrunk : Bool) (i : ItemAddr) (item : Item) : Dir :=
  { dir with
    itemsIdx := (dir.itemsIdx.remove shrunk item.name).1
    itemsList := if dir.itemsList = i then item.next else dir.itemsList }

/-- The items then. -/
def Heap.unlinkedItems (s : Heap) (dir : Dir) (i : ItemAddr) (item : Item) :
    ItemAddr → Option Item :=
  Function.update
    (if dir.itemsList = i then s.item
      else Function.update s.item dir.itemsList
        ((s.item dir.itemsList).map fun first => { first with next := item.next })) i none

/-- The heap then. -/
def Heap.unlink (s : Heap) (shrunk : Bool) (d : DirAddr) (dir : Dir) (i : ItemAddr) (item : Item) :
    Heap :=
  { s with
    dir := Function.update s.dir d (some (dir.unlinked shrunk i item))
    item := s.unlinkedItems dir i item }

theorem remove_item_run (hd : s.dir d = some dir) (hplace : s.Reached dir i)
    (hlist : dir.itemsList ≠ 0) (shrunk : Bool) (item : Item) : removeItem shrunk d i item s =
      (unlockDir d >>= fun _ => pure true : NullfsM Bool) (s.unlink shrunk d dir i item) := by
  set s₁ := s.setDir d (some { dir with itemsIdx := (dir.itemsIdx.remove shrunk item.name).1 })
    with hs₁
  have hd₁ : s₁.dir d = some { dir with itemsIdx := (dir.itemsIdx.remove shrunk item.name).1 } :=
    set_dir_self _
  unfold removeItem
  rw [run_bind_of_ok (the_dir_run hd)]
  show (unlinkItem d i item >>= fun _ => putItem i none >>= fun _ =>
    unlockDir d >>= fun _ => pure true : NullfsM Bool) s₁ = _
  by_cases hhead : dir.itemsList = i
  · have hrun : unlinkItem d i item s₁ =
        .ok ((), s₁.setDir d (some (dir.unlinked shrunk i item))) := by
      unfold unlinkItem
      rw [run_bind_of_ok (the_dir_run hd₁)]
      show (if dir.itemsList = i then _ else _ : NullfsM Unit) s₁ = _
      rw [if_pos hhead]
      unfold Dir.unlinked
      rw [if_pos hhead]
      rfl
    rw [run_bind_of_ok hrun, hs₁, set_dir_set_dir]
    unfold Heap.unlink Heap.unlinkedItems
    rw [if_pos hhead]
    rfl
  · obtain ⟨first, hfirst, hnext⟩ := hplace.resolve_left hhead
    have hfirst₁ : s₁.item dir.itemsList = some first := hfirst
    have hrun : unlinkItem d i item s₁ = .ok ((), { s₁ with
        item := Function.update s.item dir.itemsList
          (some { first with next := item.next }) }) := by
      unfold unlinkItem
      rw [run_bind_of_ok (the_dir_run hd₁)]
      show (if dir.itemsList = i then _ else if dir.itemsList = 0 then _ else
        theItem dir.itemsList >>= _ : NullfsM Unit) s₁ = _
      rw [if_neg hhead, if_neg hlist, run_bind_of_ok (the_item_run hfirst₁), if_pos hnext]
      rfl
    rw [run_bind_of_ok hrun]
    unfold Heap.unlink Heap.unlinkedItems Dir.unlinked
    rw [if_neg hhead, if_neg hhead, hfirst]
    rfl

/-- The list up to the item that is deleted. -/
theorem Heap.Reached.split (hplace : s.Reached dir i) (hdok : DirOk s d dir (L d))
    (hd : s.dir d = some dir) (hi : i ∈ L d) : ∃ pre post, L d = pre ++ i :: post ∧
      (dir.itemsList = i ∧ pre = [] ∨ dir.itemsList ≠ i ∧ pre = [dir.itemsList]) := by
  have hchain := hdok.chain
  cases hl : L d with
  | nil =>
      rw [hl] at hi
      cases hi
  | cons a l =>
      rw [hl] at hchain hi
      obtain ⟨ha, hne, hrest⟩ := hchain
      have hlist : dir.itemsList = a := by
        rw [← ha]
        show _ = (s.dir d).elim 0 Dir.itemsList
        rw [hd]
        rfl
      by_cases hhead : dir.itemsList = i
      · exact ⟨[], l, by rw [← hhead, hlist]; rfl, .inl ⟨hhead, rfl⟩⟩
      · obtain ⟨first, hfirst, hnext⟩ := hplace.resolve_left hhead
        have hword : s.word (.inr a) = i := by
          show (s.item a).elim 0 Item.next = i
          rw [← hlist, hfirst]
          exact hnext
        cases l with
        | nil =>
            rcases List.mem_cons.mp hi with heq | hi
            · exact absurd (hlist.trans heq.symm) hhead
            · cases hi
        | cons b post =>
            obtain rfl : i = b := hword.symm.trans hrest.1
            exact ⟨[a], post, rfl, .inr ⟨hhead, by rw [hlist]⟩⟩

theorem unlink_dir (shrunk : Bool) :
    (s.unlink shrunk d dir i item).dir d = some (dir.unlinked shrunk i item) :=
  Function.update_self ..

theorem unlink_body {shrunk : Bool} {j : ItemAddr} (hj : j ≠ i) :
    (s.unlink shrunk d dir i item).body j = s.body j := by
  show (s.unlinkedItems dir i item j).map _ = (s.item j).map _
  unfold Heap.unlinkedItems
  rw [Function.update_of_ne hj]
  split
  · rfl
  · by_cases hjl : j = dir.itemsList
    · rw [hjl, Function.update_self, Option.map_map]
      rfl
    · rw [Function.update_of_ne hjl]

/-- Taking out an item that is reached keeps the invariant. -/
theorem Tree.unlink (h : Tree s L held) (hd : s.dir d = some dir) (hi : i ∈ L d)
    (hitem : s.item i = some item) (hplace : s.Reached dir i) (shrunk : Bool) :
    ∃ pre post, L d = pre ++ i :: post ∧
      Tree (s.unlink shrunk d dir i item) (Function.update L d (pre ++ post)) held := by
  obtain ⟨pre, post, hl, hpre⟩ := hplace.split (h.dirs d dir hd) hd hi
  have hname : s.nameOf i = item.name := by
    show ((s.item i).map _).elim [] Item.name = item.name
    rw [hitem]
    rfl
  refine ⟨pre, post, hl, h.remove_item hd hl shrunk (unlink_dir shrunk)
    (fun e he => Function.update_of_ne he ..) rfl (by rw [hname]; rfl)
    (fun j hj => unlink_body hj) (Function.update_self ..) ?_ (fun v hv hvi => ?_) rfl rfl rfl rfl⟩
  · have hnext : s.word (.inr i) = item.next := by
      show (s.item i).elim 0 Item.next = item.next
      rw [hitem]
      rfl
    rw [hnext]
    rcases hpre with ⟨hhead, rfl⟩ | ⟨hhead, rfl⟩
    · show ((s.unlink shrunk d dir i item).dir d).elim 0 Dir.itemsList = item.next
      rw [unlink_dir, Option.elim_some, Dir.unlinked, if_pos hhead]
    · obtain ⟨first, hfirst, -⟩ := hplace.resolve_left hhead
      show (s.unlinkedItems dir i item dir.itemsList).elim 0 Item.next = item.next
      unfold Heap.unlinkedItems
      rw [Function.update_of_ne hhead, if_neg hhead, Function.update_self, hfirst]
      rfl
  · cases v with
    | inl e =>
        show ((s.unlink shrunk d dir i item).dir e).elim 0 Dir.itemsList =
          (s.dir e).elim 0 Dir.itemsList
        by_cases hed : e = d
        · subst hed
          rcases hpre with ⟨-, rfl⟩ | ⟨hhead, rfl⟩
          · exact absurd rfl hv
          · rw [unlink_dir, hd, Option.elim_some, Option.elim_some, Dir.unlinked, if_neg hhead]
        · exact congrArg (fun x => Option.elim x 0 Dir.itemsList) (Function.update_of_ne hed ..)
    | inr j =>
        have hji : j ≠ i := fun heq => hvi (by rw [heq])
        show (s.unlinkedItems dir i item j).elim 0 Item.next = (s.item j).elim 0 Item.next
        unfold Heap.unlinkedItems
        rw [Function.update_of_ne hji]
        rcases hpre with ⟨hhead, rfl⟩ | ⟨hhead, rfl⟩
        · rw [if_pos hhead]
        · rw [if_neg hhead, Function.update_of_ne fun heq => hv (by rw [heq]; rfl)]

/-- No other item refers to what the item that is taken out refers to. -/
theorem Tree.unlinked_data (h : Tree s L held) (hd : s.dir d = some dir)
    (hitem : s.item i = some item) {pre post : List ItemAddr} (hl : L d = pre ++ i :: post)
    (shrunk : Bool) (e : DirAddr) (dir₁ : Dir)
    (he : (s.unlink shrunk d dir i item).dir e = some dir₁) (j : ItemAddr)
    (hj : j ∈ Function.update L d (pre ++ post) e) :
    ((s.unlink shrunk d dir i item).body j).map Item.data ≠ some item.data := by
  have hi : i ∈ L d := hl ▸ List.mem_append_right _ List.mem_cons_self
  have hnodup : (i :: (pre ++ post)).Nodup :=
    List.perm_middle.nodup_iff.mp (hl ▸ (h.dirs d dir hd).chain.nodup)
  have hold : ∃ old, s.dir e = some old := by
    by_cases hed : e = d
    · exact ⟨dir, hed ▸ hd⟩
    · exact ⟨dir₁, (Function.update_of_ne hed ..).symm.trans he⟩
  obtain ⟨old, hold⟩ := hold
  have hmem : j ∈ L e ∧ (e = d → j ≠ i) := by
    by_cases hed : e = d
    · rw [hed, Function.update_self] at hj
      rw [hed, hl]
      refine ⟨List.perm_middle.mem_iff.mpr (List.mem_cons_of_mem i hj), fun _ heq => ?_⟩
      exact (List.nodup_cons.mp hnodup).1 (heq ▸ hj)
    · rw [Function.update_of_ne hed] at hj
      exact ⟨hj, fun heq => absurd heq hed⟩
  have hbody : s.body i = some { item with next := 0 } := by
    show (s.item i).map _ = _
    rw [hitem]
    rfl
  intro hdata
  have hji : j ≠ i := fun heq => by
    have hgone : (s.unlink shrunk d dir i item).body i = none :=
      Option.map_eq_none_iff.mpr (Function.update_self ..)
    rw [heq, hgone] at hdata
    cases hdata
  rw [unlink_body hji] at hdata
  obtain ⟨hed, heq⟩ := h.owner e old d dir hold hd j hmem.1 i hi (by rw [hdata, hbody]; rfl)
  exact hmem.2 hed heq

/-- What is freed is a block in use. -/
theorem Tree.dir_lt (h : Tree s L held) {x : DirAddr} {sd : Dir} (hx : s.dir x = some sd) :
    x < s.next := by
  refine Nat.lt_of_not_le fun hle => ?_
  rw [(h.fresh x hle).2.1] at hx
  cases hx

theorem Tree.file_lt (h : Tree s L held) {f : RamFileAddr} {rf : RamFile}
    (hf : s.file f = some rf) : f < s.next ∧ rf.pager < s.next := by
  obtain ⟨-, size, hsize⟩ := h.files f rf hf
  refine ⟨Nat.lt_of_not_le fun hle => ?_, Nat.lt_of_not_le fun hle => ?_⟩
  · rw [(h.fresh f hle).2.2.1] at hf
    cases hf
  · rw [(h.fresh _ hle).2.2.2] at hsize
    cases hsize

/-- `nullfs_d_delete` for an item that is reached, and is no directory with items. -/
theorem delete_yields (h : Tree s L unheld) (hd : s.dir d = some dir) (shrunk : Bool) (file : Name)
    (hok : s.canDelete = true → ∀ i item, dir.itemsIdx.find file = some i → s.item i = some item →
      s.Reached dir i ∧ ∀ x sd, item.data = .dir x → s.dir x = some sd → sd.itemsList = 0) :
    Yields (nullfsDDelete shrunk d file) s fun _ s' => ∃ L', Tree s' L' unheld := by
  have hlock := h.lock d dir hd
  have hlocked := h.set_lock hd true
  set s₁ := s.setDir d (some { dir with lock := true }) with hs₁
  have hd₁ : s₁.dir d = some { dir with lock := true } := set_dir_self _
  unfold nullfsDDelete
  refine yields_bind_of_run (lock_dir_run hd hlock) (yields_bind_of_run (a := s₁) rfl ?_)
  cases hcan : s₁.canDelete with
  | false => exact unlock_yields hlocked hd₁ false
  | true =>
      refine yields_bind_of_run (the_dir_run hd₁) ?_
      dsimp only
      cases hfind : dir.itemsIdx.find file with
      | none => exact unlock_yields hlocked hd₁ false
      | some i =>
          have hi := (((h.dirs d dir hd).find_iff file i).mp hfind).1
          obtain ⟨item, hitem, hlive, -⟩ := h.item_some hd hi
          obtain ⟨hplace, hempty⟩ := hok hcan i item hfind hitem
          have hitem₁ : s₁.item i = some item := hitem
          have hplace₁ : s₁.Reached { dir with lock := true } i := hplace
          have hlist : dir.itemsList ≠ 0 := by
            intro hzero
            have hchain := (h.dirs d dir hd).chain
            have hword : s.word (.inl d) = 0 := by
              show (s.dir d).elim 0 Dir.itemsList = 0
              rw [hd]
              exact hzero
            cases hl : L d with
            | nil =>
                rw [hl] at hi
                cases hi
            | cons a l =>
                rw [hl] at hchain
                exact hchain.2.1 (hchain.1.symm.trans hword)
          obtain ⟨pre, post, hl, htree⟩ := hlocked.unlink hd₁ hi hitem₁ hplace₁ shrunk
          have hunowned := hlocked.unlinked_data hd₁ hitem₁ hl shrunk
          refine yields_bind_of_run (the_item_run hitem₁) ?_
          unfold Heap.DataLive at hlive
          cases hdata : item.data with
          | dir x =>
              simp only [hdata] at hlive hunowned
              obtain ⟨hxd, hroot, ⟨sd, hsd⟩, -⟩ := hlive
              have hsd₁ : s₁.dir x = some sd := (set_dir_of_ne hxd _).trans hsd
              have hfree : sd.lock = false := h.lock x sd hsd
              refine yields_bind_of_run (the_dir_run hsd₁) ?_
              rw [hfree]
              refine yields_bind_of_run (a := ()) rfl ?_
              show Yields (if sd.itemsList ≠ 0 then _ else _ : NullfsM Bool) _ _
              rw [if_neg (not_not.mpr (hempty x sd hdata hsd))]
              refine yields_bind_of_run (a := ()) rfl ?_
              -- the directory is freed before the item leaves the list
              have hrun := remove_item_run (s := s₁.setDir x none)
                ((set_dir_of_ne hxd.symm _).trans hd₁) hplace₁ hlist shrunk item
              have hcomm : (s₁.setDir x none).unlink shrunk d { dir with lock := true } i item =
                  (s₁.unlink shrunk d { dir with lock := true } i item).setDir x none := by
                unfold Heap.unlink Heap.setDir
                simp only
                rw [Function.update_comm hxd]
                rfl
              have hgone := htree.set_dir none (hlocked.dir_lt hsd₁) hroot
                (fun e dir₁ he _ => hunowned e dir₁ he) (by simp)
              obtain ⟨b, s', hend, hpost⟩ := unlock_yields hgone
                ((set_dir_of_ne hxd.symm none).trans (unlink_dir shrunk)) true
              refine ⟨b, s', ?_, hpost⟩
              show removeItem shrunk d i item ((s₁.setDir x _).setDir x none) = _
              rw [set_dir_set_dir, hrun, hcomm, hend]
          | file f =>
              simp only [hdata] at hlive hunowned
              obtain ⟨rf, hrf, -⟩ := hlive
              have hrf₁ : s₁.file f = some rf := hrf
              obtain ⟨hfree, size, hsize⟩ := h.files f rf hrf
              have hsize₁ : s₁.pager rf.pager = some size := hsize
              obtain ⟨hflt, hplt⟩ := hlocked.file_lt hrf₁
              refine yields_bind_of_run (the_ram_file_run hrf₁) ?_
              rw [hfree]
              refine yields_bind_of_run (run_bind_of_ok (pager_size_run hsize₁))
                (yields_bind_of_run (a := ()) rfl ?_)
              have hgone := htree.set_file none none hflt hplt hunowned
                (fun f' rf' hf' hne heq => hne (h.pagers f' rf' f rf hf' hrf heq)) (by simp)
              have hrun := remove_item_run (s := s₁.setFile f none rf.pager none)
                hd₁ hplace₁ hlist shrunk item
              obtain ⟨b, s', hend, hpost⟩ := unlock_yields hgone (unlink_dir shrunk) true
              exact ⟨b, s', hrun.trans hend, hpost⟩
          | special dev => exact unlock_yields hlocked hd₁ false

end Delete

/-- A call on the file system, with the answers of its `malloc`s. -/
inductive NullfsCall where
  | create (file : Name) (type : UInt32) (mem : Nat → NodeMem) (answers : CreateMem)
  | delete (file : Name) (mem : Nat → NodeMem) (shrunk : Bool)
  | stat (file : Name) (mem : Nat → NodeMem)

/-- Run the call. -/
def NullfsCall.run : NullfsCall → NullfsM Unit
  | .create file type mem answers => do
      let _ ← fsCreate mem answers file type
  | .delete file mem shrunk => do
      let _ ← fsDelete mem shrunk file
  | .stat file mem => do
      let _ ← fsStat mem file

/-- The heap after a call that comes back. -/
def nullfsStep (s : Heap) (call : NullfsCall) : Option Heap :=
  match call.run s with
  | .ok (_, s') => some s'
  | .error _ => none

/-- The runs in which every call is allowed where it is made, from a new file system. -/
abbrev nullfsRuns (allowed : Heap → NullfsCall → Prop) : System Heap :=
  eventRuns (fun s => ∃ okModes canCreate canMove canDelete,
    s = nullfsFsMake okModes canCreate canMove canDelete) nullfsStep allowed

/-- The directory `d`, with the items `l`: those reachable through `items_list` and those bound in
`items_idx` are the same, each under its own name and no two under one; what they refer to is
there; and `walk`, `readdir` and `stat` say so. -/
structure Shows (s : Heap) (d : DirAddr) (dir : Dir) (l : List ItemAddr) : Prop where
  listed : ∀ i, Linked s.word Sum.inr (.inl d) i ↔ i ∈ l
  bound : ∀ name i, (name, i) ∈ dir.itemsIdx.iter ↔ i ∈ l ∧ s.nameOf i = name
  names : (l.map s.nameOf).Nodup
  live : ∀ i ∈ l, ∃ item, s.item i = some item ∧ s.NodeLive item.data ∧
    match item.data with
    | .dir _ => item.pager = 0
    | .file f => ∃ rf size, s.file f = some rf ∧ rf.pager = item.pager ∧
        s.pager item.pager = some size
    | .special _ => True
  walk : ∀ name, ∃ answer, nullfsDWalk d name s = .ok (answer, s) ∧
    (answer.isSome ↔ name ∈ l.map s.nameOf)
  readdir : ∀ entNo, ∃ answer, nullfsDReaddir d entNo s = .ok (answer, s) ∧
    answer.map Prod.fst = (l.map s.nameOf)[entNo]?
  stat : ∃ st, nullfsDStat d s = .ok (st, s) ∧ st.size = l.length

/-- Every directory is consistent. -/
def Consistent (s : Heap) : Prop :=
  ∀ d dir, s.dir d = some dir → ∃ l, Shows s d dir l

/-- The call creates, with all the memory that it needs, a name that its directory has, or a
directory in whose item `malloc` has left a pager; or it deletes an item behind the second of its
directory, or a directory that has items. -/
def Overlooks (s : Heap) : NullfsCall → Prop
  | .create file type mem answers =>
      s.okModes &&& fmDcreate ≠ 0 ∧ answers.enough = true ∧
        ∃ d dir name, fsWalkPathExceptLast mem file s = .ok (some (.dir d, name), s) ∧
          s.dir d = some dir ∧
          ((type = ftRegular ∨ type = ftDir) ∧ dir.itemsIdx.find name ≠ none ∨
            type = ftDir ∧ answers.leftover ≠ 0)
  | .delete file mem _ =>
      s.okModes &&& fmDdelete ≠ 0 ∧ s.canDelete = true ∧
        ∃ d dir name i item, fsWalkPathExceptLast mem file s = .ok (some (.dir d, name), s) ∧
          s.dir d = some dir ∧ dir.itemsIdx.find name = some i ∧ s.item i = some item ∧
          (¬ s.Reached dir i ∨
            ∃ x sd, item.data = .dir x ∧ s.dir x = some sd ∧ sd.itemsList ≠ 0)
  | .stat _ _ => False

section Calls

variable {s s' : Heap} {L : DirAddr → List ItemAddr}

section

variable (h : Tree s L unheld)

include h

theorem Tree.shows {d : DirAddr} {dir : Dir} (hd : s.dir d = some dir) :
    Shows s d dir (L d) where
  listed := fun i => (h.dirs d dir hd).chain.linked_iff
  bound := fun name i => by
    have hdok := h.dirs d dir hd
    rw [hdok.index.mem_iff]
    constructor
    · intro hmem
      obtain ⟨j, hj, heq⟩ := List.mem_map.mp hmem
      cases heq
      exact ⟨hj, rfl⟩
    · intro hi
      obtain ⟨hi, rfl⟩ := hi
      exact List.mem_map.mpr ⟨i, hi, rfl⟩
  names := (h.dirs d dir hd).names_nodup
  live := fun i hi => by
    obtain ⟨item, hitem, hlive, -⟩ := h.item_some hd hi
    refine ⟨item, hitem, ?_⟩
    unfold Heap.DataLive at hlive
    unfold Heap.NodeLive
    cases hdata : item.data with
    | dir x =>
        simp only [hdata] at hlive
        exact ⟨hlive.2.2.1, hlive.2.2.2⟩
    | file f =>
        simp only [hdata] at hlive
        obtain ⟨rf, hrf, hpager⟩ := hlive
        obtain ⟨-, size, hsize⟩ := h.files f rf hrf
        exact ⟨⟨rf, hrf⟩, rf, size, hrf, hpager.symm, by rw [hpager]; exact hsize⟩
    | special dev =>
        simp only [hdata] at hlive
        exact ⟨hlive, trivial⟩
  walk := fun name => by
    refine ⟨_, walk_run h hd name, ?_⟩
    rw [List.mem_map]
    constructor
    · intro hsome
      cases hfind : dir.itemsIdx.find name with
      | none =>
          rw [hfind] at hsome
          cases hsome
      | some i => exact ⟨i, ((h.dirs d dir hd).find_iff name i).mp hfind⟩
    · intro hmem
      obtain ⟨i, hi⟩ := hmem
      obtain ⟨item, hitem, -⟩ := h.item_some hd hi.1
      rw [((h.dirs d dir hd).find_iff name i).mpr hi, Option.bind_some, hitem]
      rfl
  readdir := fun entNo => readdir_run h hd entNo
  stat := ⟨_, dir_stat_run hd (h.lock d dir hd), (h.dirs d dir hd).count⟩

theorem create_call_yields (mem : Nat → NodeMem) (create : CreateMem)
    (file : Name) (type : UInt32) (hallowed : ¬ Overlooks s (.create file type mem create)) :
    Yields (fsCreate mem create file type) s fun _ s' => ∃ L', Tree s' L' unheld := by
  unfold fsCreate
  refine yields_bind_of_run (a := s) rfl (yields_ite (fun _ => yields_pure ⟨L, h⟩) fun hmodes => ?_)
  obtain ⟨answer, hrun, hanswer⟩ := walk_path_except_last_run h mem file
  refine yields_bind_of_run hrun ?_
  match answer with
  | none => exact yields_pure ⟨L, h⟩
  | some (.file f, name) => exact yields_pure ⟨L, h⟩
  | some (.special dev, name) => exact yields_pure ⟨L, h⟩
  | some (.dir d, name) =>
      obtain ⟨⟨dir, hd⟩, hlength⟩ := hanswer _ _ rfl
      unfold nullfsDCreate
      have hover := fun hcase henough => hallowed ⟨hmodes, henough, d, dir, name, hrun, hd, hcase⟩
      refine yields_ite (fun htype => ?_) fun _ => yields_ite (fun htype => ?_)
        fun _ => yields_pure ⟨L, h⟩
      · refine create_ram_file_yields h hd create hlength fun henough => ?_
        by_contra hbound
        exact hover (.inl ⟨.inl htype, hbound⟩) henough
      · refine create_dir_yields h hd create hlength fun henough => ⟨?_, ?_⟩
        · by_contra hbound
          exact hover (.inl ⟨.inr htype, hbound⟩) henough
        · by_contra hleft
          exact hover (.inr ⟨htype, hleft⟩) henough

theorem delete_call_yields (mem : Nat → NodeMem) (shrunk : Bool)
    (file : Name) (hallowed : ¬ Overlooks s (.delete file mem shrunk)) :
    Yields (fsDelete mem shrunk file) s fun _ s' => ∃ L', Tree s' L' unheld := by
  unfold fsDelete
  refine yields_bind_of_run (a := s) rfl (yields_ite (fun _ => yields_pure ⟨L, h⟩) fun hmodes => ?_)
  obtain ⟨answer, hrun, hanswer⟩ := walk_path_except_last_run h mem file
  refine yields_bind_of_run hrun ?_
  match answer with
  | none => exact yields_pure ⟨L, h⟩
  | some (.file f, name) => exact yields_pure ⟨L, h⟩
  | some (.special dev, name) => exact yields_pure ⟨L, h⟩
  | some (.dir d, name) =>
      obtain ⟨⟨dir, hd⟩, -⟩ := hanswer _ _ rfl
      refine delete_yields h hd shrunk name fun hcan i item hfind hitem => ?_
      have hover := fun hcase =>
        hallowed ⟨hmodes, hcan, d, dir, name, i, item, hrun, hd, hfind, hitem, hcase⟩
      refine ⟨?_, fun x sd hdata hsd => ?_⟩
      · by_contra hplace
        exact hover (.inl hplace)
      · by_contra hlist
        exact hover (.inr ⟨x, sd, hdata, hsd, hlist⟩)

theorem stat_call_yields (mem : Nat → NodeMem) (file : Name) :
    Yields (fsStat mem file) s fun _ s' => s' = s := by
  have hroot : s.NodeLive (.dir rootDir) := h.root
  obtain ⟨answer, hrun, hanswer⟩ := walk_items_run h (pathItems file) hroot mem
  unfold fsStat fsWalkPath
  refine yields_bind_of_run hrun ?_
  cases answer with
  | none => exact yields_pure rfl
  | some n =>
      obtain ⟨st, hst⟩ := h.stat_node (hanswer n rfl)
      exact yields_bind_of_run hst (yields_pure rfl)

/-- A call that overlooks nothing comes back and keeps the invariant. -/
theorem call_yields (call : NullfsCall) (hallowed : ¬ Overlooks s call) :
    Yields call.run s fun _ s' => ∃ L', Tree s' L' unheld := by
  cases call with
  | create file type mem answers =>
      show Yields (fsCreate mem answers file type >>= fun _ => pure ()) s _
      refine (create_call_yields h mem answers file type hallowed).bind fun _ _ hpost => ?_
      exact yields_pure hpost
  | delete file mem shrunk =>
      show Yields (fsDelete mem shrunk file >>= fun _ => pure ()) s _
      refine (delete_call_yields h mem shrunk file hallowed).bind fun _ _ hpost => ?_
      exact yields_pure hpost
  | stat file mem =>
      show Yields (fsStat mem file >>= fun _ => pure ()) s _
      refine (stat_call_yields h mem file).bind fun _ s' hsame => ?_
      subst hsame
      exact yields_pure ⟨L, h⟩

end

theorem make_tree (okModes : UInt32) (canCreate canMove canDelete : Bool) :
    Tree (nullfsFsMake okModes canCreate canMove canDelete) (fun _ => []) unheld := by
  have hdir : ∀ d dir, (nullfsFsMake okModes canCreate canMove canDelete).dir d = some dir →
      d = rootDir ∧ dir = Dir.new := by
    intro d dir hd
    change Function.update (fun _ => none) rootDir (some Dir.new) d = some dir at hd
    by_cases hroot : d = rootDir
    · rw [hroot, Function.update_self] at hd
      exact ⟨hroot, (Option.some.inj hd).symm⟩
    · rw [Function.update_of_ne hroot] at hd
      cases hd
  refine ⟨⟨Dir.new, rfl⟩, fun a ha => ?_, Nat.lt_succ_self 1, fun d dir hd => ?_,
    fun d dir hd => ?_, fun _ _ _ i hi => (by cases hi), fun f rf hf => (by cases hf),
    fun _ _ _ _ _ _ i hi => (by cases hi), fun f rf f' rf' hf => (by cases hf)⟩
  · have hroot : a ≠ rootDir := Nat.ne_of_gt ha
    refine ⟨rfl, ?_, rfl, rfl⟩
    show Function.update (fun _ => none) rootDir (some Dir.new) a = none
    rw [Function.update_of_ne hroot]
  · rw [(hdir d dir hd).2]
    rfl
  · obtain ⟨hroot, hnew⟩ := hdir d dir hd
    subst hroot hnew
    refine ⟨rfl, create_well_formed, ?_⟩
    rw [show Dir.new.itemsIdx = .create from rfl, create_iter]
    exact .refl _

/-- In every run from a new file system whose calls overlook nothing, every directory is
consistent, and every call that overlooks nothing comes back. -/
theorem nullfs_consistent
    (h : Reachable (nullfsRuns fun s call => ¬ Overlooks s call) s) :
    Consistent s ∧ ∀ call, ¬ Overlooks s call → ∃ s', nullfsStep s call = some s' := by
  have htree : ∃ L, Tree s L unheld := by
    refine Reachable.induct (motive := fun s => ∃ L, Tree s L unheld) (fun s hinit => ?_)
      (fun s s' hs hstep => ?_) h
    · obtain ⟨okModes, canCreate, canMove, canDelete, rfl⟩ := hinit
      exact ⟨_, make_tree okModes canCreate canMove canDelete⟩
    · obtain ⟨L, htree⟩ := hs
      obtain ⟨call, hallowed, hstep⟩ := hstep
      obtain ⟨a, s'', hrun, hpost⟩ := call_yields htree call hallowed
      unfold nullfsStep at hstep
      rw [hrun] at hstep
      exact Option.some.inj hstep ▸ hpost
  obtain ⟨L, htree⟩ := htree
  refine ⟨fun d dir hd => ⟨L d, htree.shows hd⟩, fun call hallowed => ?_⟩
  obtain ⟨a, s', hrun, -⟩ := call_yields htree call hallowed
  exact ⟨s', by unfold nullfsStep; rw [hrun]⟩

end Calls

section Examples

/-- A file system in which everything is allowed. -/
def allAllowed : Heap :=
  nullfsFsMake 0xFFFF true true true

/-- `malloc` never fails. -/
def ample : CreateMem where
  data := true
  part := true
  item := true
  name := true
  binding := true
  shrunk := true
  grown := true
  leftover := 0

/-- The file `/a` is created. -/
def createA : NullfsCall :=
  .create [slash, 97] ftRegular (fun _ => { node := true, binding := true }) ample

theorem all_allowed_walk : fsWalkPathExceptLast (fun _ => { node := true, binding := true })
    [slash, 97] allAllowed = .ok (some (.dir rootDir, [97]), allAllowed) := by
  have hitems : pathItems [slash, 97] = [[97]] := by decide +kernel
  unfold fsWalkPathExceptLast
  rw [hitems]
  rfl

/-- A file is created in the root directory. -/
theorem nullfs_consistent_create : ∃ s, s.word (.inl rootDir) = 4 ∧ Consistent s := by
  have hrun : (nullfsStep allAllowed createA).map (fun s => s.word (.inl rootDir)) = some 4 := by
    decide +kernel
  obtain ⟨s, hstep, hword⟩ := Option.map_eq_some_iff.mp hrun
  refine ⟨s, hword, (nullfs_consistent (.step (.init ⟨_, _, _, _, rfl⟩)
    ⟨createA, fun hover => ?_, hstep⟩)).1⟩
  obtain ⟨-, -, d, dir, name, hwalk, hd, hcase⟩ := hover
  obtain ⟨hpair, -⟩ := Prod.mk.inj (Except.ok.inj (hwalk.symm.trans all_allowed_walk))
  cases hpair
  have hroot : allAllowed.dir rootDir = some Dir.new := rfl
  obtain rfl := Option.some.inj (hd.symm.trans hroot)
  rcases hcase with ⟨-, hbound⟩ | ⟨htype, -⟩
  · exact hbound rfl
  · exact absurd htype (by decide)

/-- The same name is created twice: the list has both items, and the table the second one. -/
theorem nullfs_name_twice : ¬ ∀ s, Reachable (nullfsRuns fun _ _ => True) s → Consistent s := by
  intro hclaim
  have hrun : ((nullfsStep allAllowed createA).bind fun s => nullfsStep s createA).map (fun s =>
      (s.dir rootDir |>.isSome, s.word (.inl rootDir), s.word (.inr 7), s.nameOf 7, s.nameOf 4)) =
        some (true, 7, 4, [97], [97]) := by
    decide +kernel
  obtain ⟨s, hsteps, hview⟩ := Option.map_eq_some_iff.mp hrun
  obtain ⟨mid, hfirst, hsecond⟩ := Option.bind_eq_some_iff.mp hsteps
  simp only [Prod.mk.injEq] at hview
  obtain ⟨hroot, hhead, hnext, hname, hname'⟩ := hview
  obtain ⟨dir, hd⟩ := Option.isSome_iff_exists.mp hroot
  obtain ⟨l, hshows⟩ := hclaim s (.step (.step (.init ⟨_, _, _, _, rfl⟩)
    ⟨createA, trivial, hfirst⟩) ⟨createA, trivial, hsecond⟩) rootDir dir hd
  have hlast : Linked s.word Sum.inr (.inl rootDir) 7 := by
    have hhere : Linked s.word Sum.inr (.inl rootDir) (s.word (.inl rootDir)) :=
      .here (by rw [hhead]; decide)
    rwa [hhead] at hhere
  have hfirst' : Linked s.word Sum.inr (.inl rootDir) 4 := by
    refine .next (by rw [hhead]; decide) ?_
    rw [hhead]
    have hhere : Linked s.word Sum.inr (.inr 7) (s.word (.inr 7)) :=
      .here (by rw [hnext]; decide)
    rwa [hnext] at hhere
  have hsame := List.inj_on_of_nodup_map hshows.names ((hshows.listed 7).mp hlast)
    ((hshows.listed 4).mp hfirst') (hname.trans hname'.symm)
  cases hsame

end Examples

end Kogata.Kernel.Nullfs
