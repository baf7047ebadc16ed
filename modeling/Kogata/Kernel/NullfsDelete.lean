import Kogata.Kernel.NullfsRights

/-!
# Refused deletions in the RAM file system

The calls on the nodes of a RAM file system, with those by which the kernel adds the nodes of
drivers and the files of the boot modules. A deletion that is refused changes nothing unless it is
that of a directory that has items.
-/

namespace Kogata.Kernel.Nullfs

open Common Lib.Effect Lib.Run

/-- `nullfs_d_open`. -/
def nullfsDOpen (mode : UInt32) : NullfsM Bool :=
  return mode = fmReaddir

/-- `nullfs_f_open`. -/
def nullfsFOpen (f : RamFileAddr) (mode : UInt32) : NullfsM Bool := do
  let file ← theRamFile f
  if mode &&& ~~~file.okModes ≠ 0 then return false
  else if mode &&& fmTrunc = 0 then return true
  else if file.lock then throw .deadlock
  else
    putRamFile f (some { file with lock := true })
    let _ ← pagerSize file.pager
    putPager file.pager (some 0)
    putRamFile f (some file)
    return true

/-- What `fs_write_to_pager` does to the size of the file. -/
def nullfsFWrite (f : RamFileAddr) (offset len : UInt32) : NullfsM Unit := do
  let file ← theRamFile f
  let size ← pagerSize file.pager
  if (offset + len).toNat > size then putPager file.pager (some (offset + len).toNat)

/-- `nullfs_add_node`. -/
def nullfsAddNode (mem : Nat → NodeMem) (answers : CreateMem) (name : Name) (data : NodeData)
    (pager : PagerAddr) : NullfsM Bool := do
  match ← fsWalkPathExceptLast mem name with
  | some (.dir d, fileName) => do
      lockDir d
      let added ← addItem answers d { name := fileName, data := data, pager := pager, next := 0 }
      unlockDir d
      return added
  | _ => return false

/-- `nullfs_add_ram_file`. -/
def nullfsAddRamFile (mem : Nat → NodeMem) (answers : CreateMem) (name : Name) (initSz : Nat)
    (okModes : UInt32) : NullfsM Bool := do
  if !answers.data then return false
  else
    let f ← newAddr
    if !answers.part then return false
    else
      let p ← newAddr
      putPager p (some initSz)
      putRamFile f (some
        { pager := p, okModes := okModes &&& (fmMmap ||| fmTrunc ||| fmRead ||| fmWrite),
          lock := false })
      if ← nullfsAddNode mem answers name (.file f) p then return true
      else
        deletePager p
        putRamFile f none
        return false

/-- A call on a node, or one by which the kernel or a driver adds a node. -/
inductive NodeCall where
  | create (d : DirAddr) (file : Name) (type : UInt32) (answers : CreateMem)
  | delete (d : DirAddr) (file : Name) (shrunk : Bool)
  | walk (d : DirAddr) (file : Name)
  | stat (n : NodeData)
  | readdir (d : DirAddr) (entNo : Nat)
  | openDir (mode : UInt32)
  | openFile (f : RamFileAddr) (mode : UInt32)
  | write (f : RamFileAddr) (offset len : UInt32)
  | addNode (mem : Nat → NodeMem) (answers : CreateMem) (name : Name) (dev : DevAddr)
      (pager : PagerAddr)
  | addRamFile (mem : Nat → NodeMem) (answers : CreateMem) (name : Name) (initSz : Nat)
      (okModes : UInt32)
  -- from now on the `stat` of the driver answers `st`
  | driver (dev : DevAddr) (st : Stat)

/-- Run the call. -/
def NodeCall.run : NodeCall → NullfsM Unit
  | .create d file type answers => do
      let _ ← nullfsDCreate answers d file type
  | .delete d file shrunk => do
      let _ ← nullfsDDelete shrunk d file
  | .walk d file => do
      let _ ← nullfsDWalk d file
  | .stat n => do
      let _ ← statNode n
  | .readdir d entNo => do
      let _ ← nullfsDReaddir d entNo
  | .openDir mode => do
      let _ ← nullfsDOpen mode
  | .openFile f mode => do
      let _ ← nullfsFOpen f mode
  | .write f offset len => nullfsFWrite f offset len
  | .addNode mem answers name dev pager => do
      let _ ← nullfsAddNode mem answers name (.special dev) pager
  | .addRamFile mem answers name initSz okModes => do
      let _ ← nullfsAddRamFile mem answers name initSz okModes
  | .driver dev st => modify fun s => { s with dev := Function.update s.dev dev (some st) }

/-- The heap after a call that comes back. -/
def nodeStep (s : Heap) (call : NodeCall) : Option Heap :=
  match call.run s with
  | .ok (_, s') => some s'
  | .error _ => none

/-- The runs in which every call is allowed where it is made, from a new file system. -/
abbrev nodeRuns (allowed : Heap → NodeCall → Prop) : System Heap :=
  eventRuns (fun s => ∃ okModes opts, s = makeNullfs okModes opts) nodeStep allowed

/-- All locks of directories and files are free. -/
structure Heap.AllFree (s : Heap) : Prop where
  dir : ∀ d dir, s.dir d = some dir → dir.lock = false
  file : ∀ f rf, s.file f = some rf → rf.lock = false

/-- In the directory `d`, which allows deletions, the name is that of another directory, one that
has items. -/
def Heap.NamesFullDir (s : Heap) (d : DirAddr) (file : Name) : Prop :=
  s.canDelete = true ∧ ∃ dir i item x sd, s.dir d = some dir ∧ dir.itemsIdx.find file = some i ∧
    s.item i = some item ∧ item.data = .dir x ∧ x ≠ d ∧ s.dir x = some sd ∧ sd.itemsList ≠ 0

/-- The call deletes a directory that has items. -/
def NodeCall.DeletesFullDir (s : Heap) : NodeCall → Prop
  | .delete d file _ => s.NamesFullDir d file
  | _ => False

section Locks

variable {α : Type} {s : Heap} {d : DirAddr} {held : Option DirAddr}

theorem the_ram_file_eq_ok {s' : Heap} {f : RamFileAddr} {rf : RamFile}
    (hrun : theRamFile f s = .ok (rf, s')) : s.file f = some rf ∧ s' = s := by
  rw [theRamFile, run_get_bind] at hrun
  cases hf : s.file f with
  | none =>
      rw [hf] at hrun
      cases hrun
  | some found =>
      rw [hf] at hrun
      obtain ⟨rfl, rfl⟩ := run_pure_eq_ok hrun
      exact ⟨rfl, rfl⟩

theorem pager_size_same {s' : Heap} {p : PagerAddr} {size : Nat}
    (hrun : pagerSize p s = .ok (size, s')) : s' = s := by
  rw [pagerSize, run_get_bind] at hrun
  cases hp : s.pager p with
  | none =>
      rw [hp] at hrun
      cases hrun
  | some found =>
      rw [hp] at hrun
      exact (run_pure_eq_ok hrun).2

/-- All locks are free, but that of the directory `held` may be taken. -/
structure Heap.FreeBut (s : Heap) (held : Option DirAddr) : Prop where
  dir : ∀ e dir, s.dir e = some dir → some e ≠ held → dir.lock = false
  file : ∀ f rf, s.file f = some rf → rf.lock = false

theorem Heap.AllFree.but (h : s.AllFree) (held : Option DirAddr) : s.FreeBut held :=
  ⟨fun e dir he _ => h.dir e dir he, h.file⟩

theorem Heap.FreeBut.all (h : s.FreeBut none) : s.AllFree :=
  ⟨fun e dir he => h.dir e dir he (Option.some_ne_none e), h.file⟩

section

variable (h : s.FreeBut held)

include h

theorem free_put_dir {e : DirAddr} {dir : Option Dir}
    (hdir : ∀ dir', dir = some dir' → some e ≠ held → dir'.lock = false) :
    Ensures (putDir e dir) s fun _ s' => s'.FreeBut held := by
  refine (yields_of_run (a := ()) rfl ⟨fun e' dir' he' hne => ?_, h.file⟩ :
    Yields (putDir e dir) s fun _ s' => s'.FreeBut held).ensures
  change (s.setDir e dir).dir e' = some dir' at he'
  by_cases heq : e' = e
  · subst heq
    rw [set_dir_self] at he'
    exact hdir dir' he' hne
  · rw [set_dir_of_ne heq] at he'
    exact h.dir e' dir' he' hne

theorem free_put_ram_file {f : RamFileAddr} {rf : Option RamFile}
    (hfile : ∀ rf', rf = some rf' → rf'.lock = false) :
    Ensures (putRamFile f rf) s fun _ s' => s'.FreeBut held := by
  refine (yields_of_run (a := ()) rfl ⟨h.dir, fun f' rf' hf' => ?_⟩ :
    Yields (putRamFile f rf) s fun _ s' => s'.FreeBut held).ensures
  change Function.update s.file f rf f' = some rf' at hf'
  by_cases heq : f' = f
  · subst heq
    rw [Function.update_self] at hf'
    exact hfile rf' hf'
  · rw [Function.update_of_ne heq] at hf'
    exact h.file f' rf' hf'

theorem free_no_dir (x : DirAddr) :
    Ensures (putDir x none) s fun _ s' => s'.FreeBut held :=
  free_put_dir h fun _ hnone => by cases hnone

theorem free_no_ram_file (f : RamFileAddr) :
    Ensures (putRamFile f none) s fun _ s' => s'.FreeBut held :=
  free_put_ram_file h fun _ hnone => by cases hnone

theorem free_put_item (i : ItemAddr) (item : Option Item) :
    Ensures (putItem i item) s fun _ s' => s'.FreeBut held :=
  (yields_of_run rfl ⟨h.dir, h.file⟩ :
    Yields (putItem i item) s fun _ s' => s'.FreeBut held).ensures

theorem free_put_pager (p : PagerAddr) (size : Option Nat) :
    Ensures (putPager p size) s fun _ s' => s'.FreeBut held :=
  (yields_of_run rfl ⟨h.dir, h.file⟩ :
    Yields (putPager p size) s fun _ s' => s'.FreeBut held).ensures

theorem free_new_addr : Ensures newAddr s fun _ s' => s'.FreeBut held :=
  (yields_of_run rfl ⟨h.dir, h.file⟩ : Yields newAddr s fun _ s' => s'.FreeBut held).ensures

end

/-- Other fields of the directory whose lock is taken. -/
theorem free_put_own (h : s.FreeBut (some d)) (dir : Option Dir) :
    Ensures (putDir d dir) s fun _ s' => s'.FreeBut (some d) :=
  free_put_dir h fun _ _ hne => absurd rfl hne

theorem free_delete_pager (h : s.FreeBut held) (p : PagerAddr) :
    Ensures (deletePager p) s fun _ s' => s'.FreeBut held := by
  intro _ s' hrun
  obtain ⟨size, mid, hsize, hput⟩ := run_bind_eq_ok hrun
  obtain rfl := pager_size_same hsize
  exact free_put_pager h p none _ _ hput

theorem free_lock (h : s.AllFree) (d : DirAddr) :
    Ensures (lockDir d) s fun _ s' => s'.FreeBut (some d) := by
  intro _ s' hrun
  obtain ⟨dir, hd, -, rfl⟩ := lock_dir_eq_ok hrun
  exact free_put_own (h.but _) _ () _ rfl

/-- The lock of the directory is given back at the end of a call. -/
theorem free_unlock (h : s.FreeBut (some d)) (answer : α) :
    Ensures (unlockDir d >>= fun _ => pure answer) s fun _ s' => s'.AllFree := by
  refine Ensures.bind (fun _ s' hrun => ?_) fun _ s' h' => ensures_pure h'
  obtain ⟨dir, mid, hdir, hput⟩ := run_bind_eq_ok hrun
  obtain ⟨hd, rfl⟩ := the_dir_eq_ok hdir
  cases hput
  refine ⟨fun e dir' he => ?_, h.file⟩
  change (mid.setDir d (some { dir with lock := false })).dir e = some dir' at he
  by_cases hed : e = d
  · subst hed
    rw [set_dir_self] at he
    rw [← Option.some.inj he]
  · rw [set_dir_of_ne hed] at he
    exact h.dir e dir' he fun heq => hed (Option.some.inj heq)

theorem free_add_item (h : s.FreeBut (some d)) (answers : CreateMem) (item : Item) :
    Ensures (addItem answers d item) s fun _ s' => s'.FreeBut (some d) := by
  unfold addItem
  refine ensures_ite (fun _ => (free_new_addr h).bind fun i s₁ h₁ => ?_) fun _ => ensures_pure h
  refine Ensures.bind (fun _ _ => the_dir_eq_ok) fun dir s₂ hfound => ?_
  obtain ⟨-, rfl⟩ := hfound
  refine ensures_ite (fun _ => ?_) fun _ => ensures_pure h₁
  refine (free_put_item h₁ _ _).bind fun _ s₃ h₃ => ?_
  exact (free_put_own h₃ _).bind fun _ s₄ h₄ => ensures_pure h₄

/-- `nullfs_d_create` gives back the lock that it takes. -/
theorem free_create (h : s.AllFree) (answers : CreateMem) (file : Name) (type : UInt32) :
    Ensures (nullfsDCreate answers d file type) s fun _ s' => s'.AllFree := by
  unfold nullfsDCreate createRamFile createDir
  refine ensures_ite (fun _ => ?_) fun _ => ensures_ite (fun _ => ?_) fun _ => ensures_pure h
  · refine (free_lock h d).bind fun _ s₁ h₁ => ?_
    refine ensures_ite (fun _ => free_unlock h₁ _) fun _ => ?_
    refine (free_new_addr h₁).bind fun f s₂ h₂ => ?_
    refine ensures_ite (fun _ => free_unlock h₂ _) fun _ => ?_
    refine (free_new_addr h₂).bind fun p s₃ h₃ => ?_
    refine (free_put_pager h₃ p _).bind fun _ s₄ h₄ => ?_
    refine (free_put_ram_file h₄ fun rf' hrf => ?_).bind fun _ s₅ h₅ => ?_
    · rw [← Option.some.inj hrf]
      rfl
    refine (free_add_item h₅ answers _).bind fun added s₆ h₆ => ?_
    refine ensures_ite (fun _ => free_unlock h₆ _) fun _ => ?_
    refine (free_no_ram_file h₆ f).bind fun _ s₇ h₇ => ?_
    exact (free_delete_pager h₇ p).bind fun _ s₈ h₈ => free_unlock h₈ _
  · refine (free_lock h d).bind fun _ s₁ h₁ => ?_
    refine ensures_ite (fun _ => free_unlock h₁ _) fun _ => ?_
    refine (free_new_addr h₁).bind fun x s₂ h₂ => ?_
    refine (free_put_dir h₂ fun dir' hdir _ => ?_).bind fun _ s₃ h₃ => ?_
    · rw [← Option.some.inj hdir]
      rfl
    refine (free_add_item h₃ answers _).bind fun added s₄ h₄ => ?_
    refine ensures_ite (fun _ => free_unlock h₄ _) fun _ => ?_
    exact (free_no_dir h₄ x).bind fun _ s₅ h₅ => free_unlock h₅ _

theorem free_unlink_item (h : s.FreeBut (some d)) (i : ItemAddr) (item : Item) :
    Ensures (unlinkItem d i item) s fun _ s' => s'.FreeBut (some d) := by
  refine Ensures.bind (fun _ _ => the_dir_eq_ok) fun dir s₁ hfound => ?_
  obtain ⟨-, rfl⟩ := hfound
  refine ensures_ite (fun _ => free_put_own h _) fun _ =>
    ensures_ite (fun _ => ensures_pure h) fun _ => ?_
  refine Ensures.bind (fun _ _ => the_item_eq_ok) fun it s₁ hfound => ?_
  obtain ⟨-, rfl⟩ := hfound
  exact ensures_ite (fun _ => free_put_item h _ _) fun _ => ensures_throw _

theorem free_remove_item (h : s.FreeBut (some d)) (shrunk : Bool) (i : ItemAddr) (item : Item) :
    Ensures (removeItem shrunk d i item) s fun _ s' => s'.AllFree := by
  refine Ensures.bind (fun _ _ => the_dir_eq_ok) fun dir s₁ hfound => ?_
  obtain ⟨-, rfl⟩ := hfound
  refine (free_put_own h _).bind fun _ s₂ h₂ => (free_unlink_item h₂ i item).bind fun _ s₃ h₃ => ?_
  exact (free_put_item h₃ i none).bind fun _ s₄ h₄ => free_unlock h₄ _

end Locks

section Delete

variable {s : Heap} {d : DirAddr} {dir : Dir}

theorem remove_item_true (shrunk : Bool) (i : ItemAddr) (item : Item) :
    Ensures (removeItem shrunk d i item) s fun removed _ => removed = true := by
  intro removed s' hrun
  obtain ⟨dir, mid, -, hrest⟩ := run_bind_eq_ok hrun
  obtain ⟨-, mid, -, hrest⟩ := run_bind_eq_ok hrest
  obtain ⟨-, mid, -, hrest⟩ := run_bind_eq_ok hrest
  obtain ⟨-, mid, -, hrest⟩ := run_bind_eq_ok hrest
  obtain ⟨-, mid, -, hrest⟩ := run_bind_eq_ok hrest
  exact (run_pure_eq_ok hrest).1

/-- A refusal that has taken no other lock leaves everything as it was. -/
theorem refuse_same (hfree : s.AllFree) (hd : s.dir d = some dir) (hlock : dir.lock = false) :
    Ensures (unlockDir d >>= fun _ => pure false) (s.setDir d (some { dir with lock := true }))
      fun deleted s' => s'.AllFree ∧ (deleted = false → s' = s) :=
  ensures_bind_of_run (unlock_locked_run hd hlock) (ensures_pure ⟨hfree, fun _ => rfl⟩)

/-- A deletion that is not that of a directory with items gives back the locks that it takes, or
frees them, and changes nothing if it is refused. -/
theorem delete_same (hfree : s.AllFree) (shrunk : Bool) (file : Name)
    (hfull : ¬ s.NamesFullDir d file) :
    Ensures (nullfsDDelete shrunk d file) s
      fun deleted s' => s'.AllFree ∧ (deleted = false → s' = s) := by
  have hremoved : ∀ {s₁ : Heap} {i : ItemAddr} {item : Item}, s₁.FreeBut (some d) →
      Ensures (removeItem shrunk d i item) s₁
        fun deleted s' => s'.AllFree ∧ (deleted = false → s' = s) := by
    intro s₁ i item h₁
    refine ((free_remove_item h₁ shrunk i item).and (remove_item_true shrunk i item)).mono ?_
    intro deleted s' hend
    exact ⟨hend.1, fun hfalse => absurd (hend.2.symm.trans hfalse) (by simp)⟩
  refine Ensures.bind ((free_lock hfree d).and fun _ _ => lock_dir_eq_ok) fun _ s₁ hlocked => ?_
  obtain ⟨hbut, dir, hd, hlock, rfl⟩ := hlocked
  refine ensures_bind_of_run (a := s.setDir d (some { dir with lock := true })) rfl
    (ensures_ite (fun _ => refuse_same hfree hd hlock) fun hcan => ?_)
  refine ensures_bind_of_run (the_dir_run (set_dir_self _)) ?_
  split
  · exact refuse_same hfree hd hlock
  · next i hfind =>
      refine Ensures.bind (fun _ _ => the_item_eq_ok) fun item s₁ hfound => ?_
      obtain ⟨hitem, rfl⟩ := hfound
      split
      · next x hdata =>
          refine Ensures.bind (fun _ _ => the_dir_eq_ok) fun sd s₁ hfound => ?_
          obtain ⟨hx, rfl⟩ := hfound
          refine ensures_ite (fun _ => refuse_same hfree hd hlock) fun hopen => ?_
          have hxd : x ≠ d := by
            intro heq
            subst heq
            rw [set_dir_self] at hx
            exact hopen (by rw [← Option.some.inj hx])
          have hsd : s.dir x = some sd := (set_dir_of_ne hxd _).symm.trans hx
          refine ensures_bind_of_run (a := ()) rfl (ensures_ite (fun hlist => ?_) fun _ => ?_)
          · exact absurd ⟨by simpa [Heap.setDir] using hcan, dir, i, item, x, sd, hd, hfind, hitem,
              hdata, hxd, hsd, hlist⟩ hfull
          · -- the directory whose lock has been taken is freed
            refine ensures_bind_of_run (a := ()) rfl (hremoved ?_)
            show (((s.setDir d _).setDir x _).setDir x none).FreeBut (some d)
            rw [set_dir_set_dir]
            exact free_no_dir hbut x () _ rfl
      · next f hdata =>
          refine Ensures.bind (fun _ _ => the_ram_file_eq_ok) fun rf s₁ hfound => ?_
          obtain ⟨-, rfl⟩ := hfound
          refine ensures_ite (fun _ => refuse_same hfree hd hlock) fun _ => ?_
          refine (free_delete_pager hbut rf.pager).bind fun _ s₂ h₂ => ?_
          exact (free_no_ram_file h₂ f).bind fun _ s₃ h₃ => hremoved h₃
      · exact refuse_same hfree hd hlock

/-- The deletion of a directory that has items fails, and leaves its lock taken. -/
theorem full_dir_stays_locked (hfree : s.AllFree) (shrunk : Bool) {file : Name}
    (hfull : s.NamesFullDir d file) :
    ∃ s', nullfsDDelete shrunk d file s = .ok (false, s') ∧ ∃ x sd,
      s.dir x = some sd ∧ s'.dir x = some { sd with lock := true } := by
  obtain ⟨hcan, dir, i, item, x, sd, hd, hfind, hitem, hdata, hxd, hx, hlist⟩ := hfull
  have hlock := hfree.dir d dir hd
  set s₁ := s.setDir d (some { dir with lock := true }) with hs₁
  have hitem₁ : s₁.item i = some item := hitem
  have hx₁ : s₁.dir x = some sd := (set_dir_of_ne hxd _).trans hx
  have hd₂ : (s₁.setDir x (some { sd with lock := true })).dir d =
      some { dir with lock := true } := (set_dir_of_ne hxd.symm _).trans (set_dir_self _)
  refine ⟨(s₁.setDir x (some { sd with lock := true })).setDir d (some { dir with lock := false }),
    ?_, x, sd, hx, (set_dir_of_ne hxd _).trans (set_dir_self _)⟩
  unfold nullfsDDelete
  rw [run_bind_of_ok (lock_dir_run hd hlock), run_bind_of_ok (a := s₁) rfl, run_ite,
    if_neg (by rw [show s₁.canDelete = true from hcan]; simp),
    run_bind_of_ok (the_dir_run (set_dir_self _))]
  dsimp only
  rw [hfind]
  show (theItem i >>= _) s₁ = _
  rw [run_bind_of_ok (the_item_run hitem₁), hdata]
  show (theDir x >>= _) s₁ = _
  rw [run_bind_of_ok (the_dir_run hx₁), hfree.dir x sd hx]
  show (if sd.itemsList ≠ 0 then _ else _ : NullfsM Bool)
    (s₁.setDir x (some { sd with lock := true })) = _
  rw [if_pos hlist, run_bind_of_ok (unlock_dir_run hd₂)]
  rfl

/-- Where all locks are free, a deletion that is refused changes nothing exactly when it is not
that of a directory with items. -/
theorem refused_same_iff (hfree : s.AllFree) (shrunk : Bool) (file : Name) :
    (∀ s', nullfsDDelete shrunk d file s = .ok (false, s') → s' = s) ↔
      ¬ s.NamesFullDir d file := by
  refine ⟨fun hsame hfull => ?_, fun hfull s' hrun =>
    (delete_same hfree shrunk file hfull _ _ hrun).2 rfl⟩
  obtain ⟨s', hrun, x, sd, hx, hx'⟩ := full_dir_stays_locked hfree shrunk hfull
  obtain rfl := hsame s' hrun
  have htaken := hfree.dir x _ hx'
  cases htaken

end Delete

section Calls

variable {s s' : Heap} {d : DirAddr}

theorem dir_stat_same {st : Stat} (hrun : nullfsDStat d s = .ok (st, s')) : s' = s := by
  obtain ⟨u, mid, hlock, hrest⟩ := run_bind_eq_ok hrun
  obtain ⟨dir, hd, hfree, rfl⟩ := lock_dir_eq_ok hlock
  rw [run_bind_of_ok (a := s.setDir d (some { dir with lock := true })) rfl] at hrest
  obtain ⟨dir', mid, hdir, hrest⟩ := run_bind_eq_ok hrest
  obtain ⟨-, rfl⟩ := the_dir_eq_ok hdir
  rw [run_bind_of_ok (unlock_locked_run hd hfree)] at hrest
  exact (run_pure_eq_ok hrest).2

theorem file_stat_same {f : RamFileAddr} {st : Stat} (hrun : nullfsFStat f s = .ok (st, s')) :
    s' = s := by
  obtain ⟨rf, mid, hfile, hrest⟩ := run_bind_eq_ok hrun
  obtain ⟨hf, rfl⟩ := the_ram_file_eq_ok hfile
  rw [run_ite] at hrest
  split at hrest
  · cases hrest
  · rw [run_bind_of_ok (a := ()) rfl] at hrest
    obtain ⟨size, last, hsize, hrest⟩ := run_bind_eq_ok hrest
    obtain rfl := pager_size_same hsize
    cases hrest
    show { mid with file := Function.update (Function.update mid.file f _) f (some rf) } = mid
    rw [Function.update_idem, ← hf, Function.update_eq_self]

theorem stat_node_same {n : NodeData} {st : Stat} (hrun : statNode n s = .ok (st, s')) :
    s' = s := by
  cases n with
  | dir x => exact dir_stat_same hrun
  | file f => exact file_stat_same hrun
  | special dev =>
      rw [statNode, devStat, run_get_bind] at hrun
      cases hdev : s.dev dev with
      | none =>
          rw [hdev] at hrun
          cases hrun
      | some found =>
          rw [hdev] at hrun
          exact (run_pure_eq_ok hrun).2

theorem item_at_same {n : Nat} {i j : ItemAddr} (hrun : itemAt n i s = .ok (j, s')) : s' = s := by
  induction n generalizing i with
  | zero => cases i <;> exact (run_pure_eq_ok hrun).2
  | succ n ih =>
      cases i with
      | zero => exact (run_pure_eq_ok hrun).2
      | succ i =>
          obtain ⟨item, mid, hitem, hrest⟩ := run_bind_eq_ok hrun
          obtain ⟨-, rfl⟩ := the_item_eq_ok hitem
          exact ih hrest

theorem readdir_same {n : Nat} {entry : Option (Name × Stat)}
    (hrun : nullfsDReaddir d n s = .ok (entry, s')) : s' = s := by
  obtain ⟨u, mid, hlock, hrest⟩ := run_bind_eq_ok hrun
  obtain ⟨dir, hd, hfree, rfl⟩ := lock_dir_eq_ok hlock
  rw [run_bind_of_ok (the_dir_run (set_dir_self _))] at hrest
  obtain ⟨i, mid, hat, hrest⟩ := run_bind_eq_ok hrest
  obtain rfl := item_at_same hat
  rw [run_ite] at hrest
  split at hrest
  · rw [run_bind_of_ok (unlock_locked_run hd hfree)] at hrest
    exact (run_pure_eq_ok hrest).2
  · obtain ⟨item, mid, hitem, hrest⟩ := run_bind_eq_ok hrest
    obtain ⟨-, rfl⟩ := the_item_eq_ok hitem
    obtain ⟨st, mid, hstat, hrest⟩ := run_bind_eq_ok hrest
    obtain rfl := stat_node_same hstat
    rw [run_bind_of_ok (unlock_locked_run hd hfree)] at hrest
    exact (run_pure_eq_ok hrest).2

section

variable (h : s.AllFree)

include h

theorem free_open (f : RamFileAddr) (mode : UInt32) :
    Ensures (nullfsFOpen f mode) s fun _ s' => s'.AllFree := by
  refine Ensures.bind (fun _ _ => the_ram_file_eq_ok) fun rf s₁ hfound => ?_
  obtain ⟨hf, rfl⟩ := hfound
  refine ensures_ite (fun _ => ensures_pure h) fun _ => ensures_ite (fun _ => ensures_pure h)
    fun _ => ensures_ite (fun _ => ensures_throw _) fun _ => ensures_bind_of_run (a := ()) rfl ?_
  intro opened s' hrun
  obtain ⟨size, mid, hsize, hrest⟩ := run_bind_eq_ok hrun
  obtain rfl := pager_size_same hsize
  cases hrest
  refine ⟨h.dir, fun f' rf' hf' => ?_⟩
  change Function.update (Function.update s₁.file f _) f (some rf) f' = some rf' at hf'
  rw [Function.update_idem, ← hf, Function.update_eq_self] at hf'
  exact h.file f' rf' hf'

theorem free_write (f : RamFileAddr) (offset len : UInt32) :
    Ensures (nullfsFWrite f offset len) s fun _ s' => s'.AllFree := by
  refine Ensures.bind (fun _ _ => the_ram_file_eq_ok) fun rf s₁ hfound => ?_
  obtain ⟨-, rfl⟩ := hfound
  refine Ensures.bind (fun _ _ => pager_size_same) fun size s₁ hsame => ?_
  subst hsame
  exact ensures_ite (fun _ => (free_put_pager (h.but none) _ _).mono fun _ _ => Heap.FreeBut.all)
    fun _ => ensures_pure h

theorem free_add_node (mem : Nat → NodeMem) (answers : CreateMem) (name : Name)
    (data : NodeData) (pager : PagerAddr) :
    Ensures (nullfsAddNode mem answers name data pager) s fun _ s' => s'.AllFree := by
  refine Ensures.bind (fun _ _ => walk_except_last_same) fun found s₁ hsame => ?_
  subst hsame
  split
  · next d fileName =>
      refine (free_lock h d).bind fun _ s₁ h₁ => ?_
      exact (free_add_item h₁ answers _).bind fun added s₂ h₂ => free_unlock h₂ added
  · exact ensures_pure h

theorem free_add_ram_file (mem : Nat → NodeMem) (answers : CreateMem)
    (name : Name) (initSz : Nat) (okModes : UInt32) :
    Ensures (nullfsAddRamFile mem answers name initSz okModes) s fun _ s' => s'.AllFree := by
  refine ensures_ite (fun _ => ensures_pure h) fun _ => ?_
  refine (free_new_addr (h.but none)).bind fun f s₁ h₁ => ?_
  refine ensures_ite (fun _ => ensures_pure h₁.all) fun _ => ?_
  refine (free_new_addr h₁).bind fun p s₂ h₂ => (free_put_pager h₂ p _).bind fun _ s₃ h₃ => ?_
  refine (free_put_ram_file h₃ fun rf' hrf => ?_).bind fun _ s₄ h₄ => ?_
  · rw [← Option.some.inj hrf]
  refine (free_add_node h₄.all mem answers name _ p).bind fun added s₅ h₅ => ?_
  refine ensures_ite (fun _ => ensures_pure h₅) fun _ => ?_
  refine (free_delete_pager (h₅.but none) p).bind fun _ s₆ h₆ => ?_
  exact (free_no_ram_file h₆ f).bind fun _ s₇ h₇ => ensures_pure h₇.all

/-- A call that does not delete a directory with items leaves all locks free. -/
theorem free_call {call : NodeCall} (hfull : ¬ call.DeletesFullDir s) :
    Ensures call.run s fun _ s' => s'.AllFree := by
  have hdone : ∀ {α : Type} {program : NullfsM α}, Ensures program s (fun _ s' => s'.AllFree) →
      Ensures (program >>= fun _ => pure ()) s fun _ s' => s'.AllFree :=
    fun hprogram => hprogram.bind fun _ _ h' => ensures_pure h'
  have hsame : ∀ {α : Type} {program : NullfsM α},
      (∀ a s', program s = .ok (a, s') → s' = s) →
      Ensures (program >>= fun _ => pure ()) s fun _ s' => s'.AllFree :=
    fun hkept => hdone fun a s' hrun => hkept a s' hrun ▸ h
  cases call with
  | create d file type answers => exact hdone (free_create h answers file type)
  | delete d file shrunk =>
      exact hdone ((delete_same h shrunk file hfull).mono fun _ _ hend => hend.1)
  | walk d file => exact hsame fun _ _ => walk_same
  | stat n => exact hsame fun _ _ => stat_node_same
  | readdir d entNo => exact hsame fun _ _ => readdir_same
  | openDir mode => exact hsame fun _ _ hrun => (run_pure_eq_ok hrun).2
  | openFile f mode => exact hdone (free_open h f mode)
  | write f offset len => exact free_write h f offset len
  | addNode mem answers name dev pager => exact hdone (free_add_node h mem answers name _ pager)
  | addRamFile mem answers name initSz okModes =>
      exact hdone (free_add_ram_file h mem answers name initSz okModes)
  | driver dev st =>
      intro _ s' hrun
      cases hrun
      exact ⟨h.dir, h.file⟩

theorem free_step {call : NodeCall} (hfull : ¬ call.DeletesFullDir s)
    (hstep : nodeStep s call = some s') : s'.AllFree := by
  unfold nodeStep at hstep
  cases hrun : call.run s with
  | error stop =>
      rw [hrun] at hstep
      cases hstep
  | ok x =>
      rw [hrun] at hstep
      exact Option.some.inj hstep ▸ free_call h hfull x.1 x.2 hrun

end

theorem make_free (okModes : UInt32) (opts : Name) : (makeNullfs okModes opts).AllFree where
  dir := fun d dir hd => by
    change Function.update (fun _ => none) rootDir (some Dir.new) d = some dir at hd
    by_cases heq : d = rootDir
    · rw [heq, Function.update_self] at hd
      rw [← Option.some.inj hd]
      rfl
    · rw [Function.update_of_ne heq] at hd
      cases hd
  file := fun f rf hf => by cases hf

/-- Where all locks are free, a deletion that is refused changes nothing exactly when it is not
that of a directory with items. In a run without such deletions all locks are free between two
calls. -/
theorem refused_delete_changes_nothing (s : Heap) :
    (Reachable (nodeRuns fun _ _ => True) s → s.AllFree → ∀ shrunk d file,
      (∀ s', nullfsDDelete shrunk d file s = .ok (false, s') → s' = s) ↔
        ¬ s.NamesFullDir d file) ∧
    (Reachable (nodeRuns fun s call => ¬ call.DeletesFullDir s) s → s.AllFree) := by
  refine ⟨fun _ hfree shrunk d file => refused_same_iff hfree shrunk file, fun hs => ?_⟩
  refine Reachable.induct (motive := fun s => s.AllFree) (fun s hinit => ?_)
    (fun s s' hfree hstep => ?_) hs
  · obtain ⟨okModes, opts, rfl⟩ := hinit
    exact make_free okModes opts
  · obtain ⟨call, hfull, hstep⟩ := hstep
    exact free_step hfree hfull hstep

/-- In a new file system the directory `/a` and in it the file `b` are created. -/
def fullA : Option Heap :=
  (nodeStep (makeNullfs 0xFFFF [99, 100]) (.create rootDir [97] ftDir ample)).bind
    fun s => nodeStep s (.create 2 [98] ftRegular ample)

/-- Beside the directory `/a`, an unknown name is refused. -/
theorem unknown_delete_changes_nothing :
    ∃ s s', fullA = some s ∧ nullfsDDelete true rootDir [120] s = .ok (false, s') ∧ s' = s := by
  have hlook : (fullA.bind fun s => (s.dir rootDir).map fun dir => dir.itemsIdx.find [120]) =
      some none ∧
      (fullA.map fun s => (nullfsDDelete true rootDir [120] s).toOption.map Prod.fst) =
        some (some false) := by
    decide +kernel
  obtain ⟨s, hfull, hview⟩ := Option.map_eq_some_iff.mp hlook.2
  obtain ⟨mid, hfirst, hsecond⟩ := Option.bind_eq_some_iff.mp hfull
  have hreach := (refused_delete_changes_nothing s).1
    (.step (.step (.init ⟨_, _, rfl⟩) ⟨_, trivial, hfirst⟩) ⟨_, trivial, hsecond⟩)
  have hfree := (refused_delete_changes_nothing s).2
    (.step (.step (.init ⟨_, _, rfl⟩) ⟨_, id, hfirst⟩) ⟨_, id, hsecond⟩)
  cases hdelete : nullfsDDelete true rootDir [120] s with
  | error stop =>
      rw [hdelete] at hview
      cases hview
  | ok x =>
      obtain ⟨deleted, s'⟩ := x
      rw [hdelete] at hview
      obtain rfl : deleted = false := Option.some.inj hview
      refine ⟨s, s', hfull, hdelete, (hreach hfree true rootDir [120]).mpr ?_ s' hdelete⟩
      rintro ⟨-, dir, i, -, -, -, hd, hfind, -⟩
      have hnone := hlook.1
      rw [hfull] at hnone
      simp [hd, hfind] at hnone

/-- The directory `/a` cannot be deleted, and its lock stays taken. -/
theorem refused_delete_keeps_lock : ¬ ∀ s, Reachable (nodeRuns fun _ _ => True) s → s.AllFree →
    ∀ shrunk d file s', nullfsDDelete shrunk d file s = .ok (false, s') → s' = s := by
  intro hclaim
  have hrun : (fullA.bind fun s => match nullfsDDelete true rootDir [97] s with
      | .ok (deleted, s') => some (deleted, (s'.dir 2).map Dir.lock)
      | .error _ => none) = some (false, some true) := by
    decide +kernel
  obtain ⟨s, hfull, hview⟩ := Option.bind_eq_some_iff.mp hrun
  obtain ⟨mid, hfirst, hsecond⟩ := Option.bind_eq_some_iff.mp hfull
  have hfree : s.AllFree := free_step (free_step (make_free _ _) id hfirst) id hsecond
  cases hdelete : nullfsDDelete true rootDir [97] s with
  | error stop =>
      rw [hdelete] at hview
      cases hview
  | ok x =>
      obtain ⟨deleted, s'⟩ := x
      simp only [hdelete, Option.some.injEq, Prod.mk.injEq] at hview
      obtain ⟨rfl, hlock⟩ := hview
      obtain ⟨sd, hsd, htaken⟩ := Option.map_eq_some_iff.mp hlock
      have hsame := hclaim s (.step (.step (.init ⟨_, _, rfl⟩) ⟨_, trivial, hfirst⟩)
        ⟨_, trivial, hsecond⟩) hfree true rootDir [97] s' hdelete
      have hopen := hfree.dir 2 sd (hsame ▸ hsd)
      rw [htaken] at hopen
      cases hopen

end Calls

end Kogata.Kernel.Nullfs
