import Kogata.Kernel.NullfsConsistent

/-!
# The rights of the RAM file system

The letters of the option string are the rights of every directory: the root has the `nullfs_t` of
the file system, a directory that is created has that of its parent, and nothing writes to it
later. `stat` reports them and `nullfs_d_delete` asks for its own. `nullfs_d_create` does not, and
`nullfs_d_move` always fails.
-/

namespace Kogata.Kernel.Nullfs

open Common Lib.Effect Lib.Run

/-- `make_fs` with the option string; `strchr` looks for the letters `c`, `m` and `d`. -/
def makeNullfs (okModes : UInt32) (opts : Name) : Heap :=
  nullfsFsMake okModes (opts.contains 99) (opts.contains 109) (opts.contains 100)

/-- `nullfs_d_move`. -/
def nullfsDMove (_d : DirAddr) (_oldName : Name) (_newParent : NodeData) (_newName : Name) :
    NullfsM Bool :=
  return false

/-- The items of a path that `fs_walk_path_except_last` walks through. -/
def walkedItems : List Name → List Name
  | [] | [_] => []
  | item :: rest => if rest = [[]] then [] else item :: walkedItems rest

/-- `fs_move`; only a directory has a `move`. The nodes in memory are those on the way to the two
parents, so that two ways to one node take its lock twice. A node of the old name is in memory
when the way to the new parent leads through it; its lock is taken third, and the new parent has no
`children`. `named` is the answer of the `malloc` in `strdup`. -/
def fsMove (mem memTo : Nat → NodeMem) (named : Bool) (src dst : Name) : NullfsM Bool := do
  if (← get).okModes &&& fmDmove = 0 then return false
  else
    match ← fsWalkPathExceptLast mem src with
    | none => return false
    | some (oldParent, oldName) => do
        match ← fsWalkPathExceptLast memTo dst with
        | none => return false
        | some (newParent, newName) =>
            match oldParent with
            | .file _ | .special _ => return false
            | .dir d => do
                let way := walkedItems (pathItems src)
                let wayTo := walkedItems (pathItems dst)
                if way = wayTo ∨ way ++ [oldName] = wayTo then throw .deadlock
                else if way ++ [oldName] <+: wayTo then
                  if named then throw .wild else return false
                else nullfsDMove d oldName newParent newName

/-- A call that changes the file system, or asks for what it says of itself. -/
inductive DirCall where
  | create (file : Name) (type : UInt32) (mem : Nat → NodeMem) (answers : CreateMem)
  | delete (file : Name) (mem : Nat → NodeMem) (shrunk : Bool)
  | move (src dst : Name) (mem memTo : Nat → NodeMem) (named : Bool)

/-- Run the call; the answer of the function. -/
def DirCall.run : DirCall → NullfsM Bool
  | .create file type mem answers => fsCreate mem answers file type
  | .delete file mem shrunk => fsDelete mem shrunk file
  | .move src dst mem memTo named => fsMove mem memTo named src dst

/-- The file `/a` is created, and `malloc` never fails. -/
def createOnRoot : DirCall :=
  .create [slash, 97] ftRegular (fun _ => { node := true, binding := true }) ample

/-- The walk to the directory that the call is about. -/
def DirCall.walk : DirCall → NullfsM (Option (NodeData × Name))
  | .create file _ mem _ => fsWalkPathExceptLast mem file
  | .delete file mem _ => fsWalkPathExceptLast mem file
  | .move src _ mem _ _ => fsWalkPathExceptLast mem src

/-- The right that the call needs. -/
def DirCall.right : DirCall → UInt32
  | .create .. => fmDcreate
  | .delete .. => fmDdelete
  | .move .. => fmDmove

/-- Its letter in the option string. -/
def DirCall.letter : DirCall → UInt8
  | .create .. => 99
  | .delete .. => 100
  | .move .. => 109

/-- The runs of a file system with the given modes and option string. -/
def rightsRuns (okModes : UInt32) (opts : Name) : System Heap where
  init := fun s => s = makeNullfs okModes opts
  step := fun s s' => ∃ (call : DirCall) (answer : Bool), call.run s = .ok (answer, s')

/-- If the call succeeds, `stat` of its directory reports the right that it needs, and the option
string has its letter. -/
def Honest (opts : Name) (s : Heap) (call : DirCall) : Prop :=
  ∀ s', call.run s = .ok (true, s') → ∃ d name st,
    call.walk s = .ok (some (.dir d, name), s) ∧ nullfsDStat d s = .ok (st, s) ∧
      st.access &&& call.right ≠ 0 ∧ call.letter ∈ opts

section Flags

/-- What `nullfs_fs_make` and `make_fs` have written. -/
def Heap.rights (s : Heap) : UInt32 × Bool × Bool × Bool :=
  (s.okModes, s.canCreate, s.canMove, s.canDelete)

/-- The rights are what they were. -/
def SameRights (s s' : Heap) : Prop := s'.rights = s.rights

instance : Std.Refl SameRights := ⟨fun _ => rfl⟩

instance : IsTrans Heap SameRights := ⟨fun _ _ _ h h' => Eq.trans h' h⟩

variable {α : Type}

theorem keeps_the_dir (d : DirAddr) : Keeps SameRights (theDir d) := by
  refine keeps_get.bind fun s => ?_
  split
  · exact keeps_throw _
  · exact keeps_pure _

theorem keeps_the_item (i : ItemAddr) : Keeps SameRights (theItem i) := by
  refine keeps_get.bind fun s => ?_
  split
  · exact keeps_throw _
  · exact keeps_pure _

theorem keeps_the_ram_file (f : RamFileAddr) : Keeps SameRights (theRamFile f) := by
  refine keeps_get.bind fun s => ?_
  split
  · exact keeps_throw _
  · exact keeps_pure _

theorem keeps_pager_size (p : PagerAddr) : Keeps SameRights (pagerSize p) := by
  refine keeps_get.bind fun s => ?_
  split
  · exact keeps_throw _
  · exact keeps_pure _

theorem keeps_put_dir (d : DirAddr) (dir : Option Dir) : Keeps SameRights (putDir d dir) :=
  keeps_modify fun _ => rfl

theorem keeps_put_item (i : ItemAddr) (item : Option Item) : Keeps SameRights (putItem i item) :=
  keeps_modify fun _ => rfl

theorem keeps_put_ram_file (f : RamFileAddr) (file : Option RamFile) :
    Keeps SameRights (putRamFile f file) :=
  keeps_modify fun _ => rfl

theorem keeps_put_pager (p : PagerAddr) (size : Option Nat) : Keeps SameRights (putPager p size) :=
  keeps_modify fun _ => rfl

theorem keeps_delete_pager (p : PagerAddr) : Keeps SameRights (deletePager p) :=
  (keeps_pager_size p).bind fun _ => keeps_put_pager p none

theorem keeps_new_addr : Keeps SameRights newAddr := by
  intro s a s' hrun
  cases hrun
  rfl

theorem keeps_lock_dir (d : DirAddr) : Keeps SameRights (lockDir d) :=
  (keeps_the_dir d).bind fun _ =>
    keeps_ite (fun _ => keeps_throw _) fun _ => keeps_put_dir d _

theorem keeps_unlock_dir (d : DirAddr) : Keeps SameRights (unlockDir d) :=
  (keeps_the_dir d).bind fun _ => keeps_put_dir d _

/-- A function unlocks its directory and answers. -/
theorem keeps_unlock_return (d : DirAddr) (a : α) :
    Keeps SameRights (unlockDir d >>= fun _ => pure a) :=
  (keeps_unlock_dir d).bind fun _ => keeps_pure a

theorem keeps_add_item (mem : CreateMem) (d : DirAddr) (item : Item) :
    Keeps SameRights (addItem mem d item) := by
  unfold addItem
  refine keeps_ite (fun _ => ?_) fun _ => keeps_pure _
  refine keeps_new_addr.bind fun i => (keeps_the_dir d).bind fun dir => keeps_ite (fun _ => ?_)
    fun _ => keeps_pure _
  exact (keeps_put_item _ _).bind fun _ => (keeps_put_dir _ _).bind fun _ => keeps_pure _

theorem keeps_create (mem : CreateMem) (d : DirAddr) (file : Name) (type : UInt32) :
    Keeps SameRights (nullfsDCreate mem d file type) := by
  unfold nullfsDCreate
  refine keeps_ite (fun _ => ?_) fun _ => keeps_ite (fun _ => ?_) fun _ => keeps_pure _
  · refine (keeps_lock_dir d).bind fun _ => keeps_ite (fun _ => keeps_unlock_return d _) fun _ => ?_
    refine keeps_new_addr.bind fun f => keeps_ite (fun _ => keeps_unlock_return d _) fun _ => ?_
    refine keeps_new_addr.bind fun p => (keeps_put_pager p _).bind fun _ =>
      (keeps_put_ram_file f _).bind fun _ => (keeps_add_item mem d _).bind fun _ =>
      keeps_ite (fun _ => keeps_unlock_return d _) fun _ => ?_
    exact (keeps_put_ram_file f none).bind fun _ => (keeps_delete_pager p).bind fun _ =>
      keeps_unlock_return d _
  · refine (keeps_lock_dir d).bind fun _ => keeps_ite (fun _ => keeps_unlock_return d _) fun _ => ?_
    refine keeps_new_addr.bind fun x => (keeps_put_dir x _).bind fun _ =>
      (keeps_add_item mem d _).bind fun _ =>
      keeps_ite (fun _ => keeps_unlock_return d _) fun _ => ?_
    exact (keeps_put_dir x none).bind fun _ => keeps_unlock_return d _

theorem keeps_remove_item (shrunk : Bool) (d : DirAddr) (i : ItemAddr) (item : Item) :
    Keeps SameRights (removeItem shrunk d i item) := by
  unfold removeItem unlinkItem
  refine (keeps_the_dir d).bind fun _ => (keeps_put_dir d _).bind fun _ => Keeps.bind ?_ fun _ =>
    (keeps_put_item i none).bind fun _ => keeps_unlock_return d true
  refine (keeps_the_dir d).bind fun dir => keeps_ite (fun _ => keeps_put_dir d _) fun _ =>
    keeps_ite (fun _ => keeps_pure _) fun _ => ?_
  exact (keeps_the_item _).bind fun _ => keeps_ite (fun _ => keeps_put_item _ _)
    fun _ => keeps_throw _

theorem keeps_delete (shrunk : Bool) (d : DirAddr) (file : Name) :
    Keeps SameRights (nullfsDDelete shrunk d file) := by
  unfold nullfsDDelete
  refine (keeps_lock_dir d).bind fun _ => keeps_get.bind fun _ =>
    keeps_ite (fun _ => keeps_unlock_return d _) fun _ => (keeps_the_dir d).bind fun _ => ?_
  split
  · exact keeps_unlock_return d _
  · next i _ =>
      refine (keeps_the_item i).bind fun item => ?_
      split
      · next x _ =>
          refine (keeps_the_dir x).bind fun _ => keeps_ite (fun _ => keeps_unlock_return d _)
            fun _ => (keeps_put_dir x _).bind fun _ =>
            keeps_ite (fun _ => keeps_unlock_return d _) fun _ => ?_
          exact (keeps_put_dir x none).bind fun _ => keeps_remove_item shrunk d i item
      · next f _ =>
          refine (keeps_the_ram_file f).bind fun rf =>
            keeps_ite (fun _ => keeps_unlock_return d _) fun _ => ?_
          exact (keeps_delete_pager rf.pager).bind fun _ =>
            (keeps_put_ram_file f none).bind fun _ => keeps_remove_item shrunk d i item
      · exact keeps_unlock_return d _

end Flags

section Walk

variable {s s' : Heap} {d : DirAddr}

theorem the_dir_eq_ok {dir : Dir} (hrun : theDir d s = .ok (dir, s')) :
    s.dir d = some dir ∧ s' = s := by
  rw [theDir, run_get_bind] at hrun
  cases hd : s.dir d with
  | none =>
      rw [hd] at hrun
      cases hrun
  | some found =>
      rw [hd] at hrun
      obtain ⟨rfl, rfl⟩ := run_pure_eq_ok hrun
      exact ⟨rfl, rfl⟩

theorem the_item_eq_ok {i : ItemAddr} {item : Item} (hrun : theItem i s = .ok (item, s')) :
    s.item i = some item ∧ s' = s := by
  rw [theItem, run_get_bind] at hrun
  cases hi : s.item i with
  | none =>
      rw [hi] at hrun
      cases hrun
  | some found =>
      rw [hi] at hrun
      obtain ⟨rfl, rfl⟩ := run_pure_eq_ok hrun
      exact ⟨rfl, rfl⟩

/-- A directory that has been locked was there and was free. -/
theorem lock_dir_eq_ok {u : Unit} (hrun : lockDir d s = .ok (u, s')) :
    ∃ dir, s.dir d = some dir ∧ dir.lock = false ∧
      s' = s.setDir d (some { dir with lock := true }) := by
  obtain ⟨dir, mid, hfirst, hrest⟩ := run_bind_eq_ok hrun
  obtain ⟨hd, rfl⟩ := the_dir_eq_ok hfirst
  rw [run_ite] at hrest
  split at hrest
  · cases hrest
  · next hlock =>
      cases hrest
      exact ⟨dir, hd, by simpa using hlock, rfl⟩

/-- `nullfs_d_walk` leaves everything as it was. -/
theorem walk_same {name : Name} {answer : Option NodeFields}
    (hrun : nullfsDWalk d name s = .ok (answer, s')) : s' = s := by
  obtain ⟨u, mid, hlock, hrest⟩ := run_bind_eq_ok hrun
  obtain ⟨dir, hd, hfree, rfl⟩ := lock_dir_eq_ok hlock
  obtain ⟨dir', mid, hdir, hrest⟩ := run_bind_eq_ok hrest
  obtain ⟨-, rfl⟩ := the_dir_eq_ok hdir
  have hback : ∀ {answer' : Option NodeFields},
      (unlockDir d >>= fun _ => pure answer' : NullfsM _)
        (s.setDir d (some { dir with lock := true })) = .ok (answer, s') → s' = s := by
    intro answer' h
    rw [run_bind_of_ok (unlock_locked_run hd hfree)] at h
    exact (run_pure_eq_ok h).2
  cases hfind : dir'.itemsIdx.find name with
  | none =>
      rw [hfind] at hrest
      exact hback hrest
  | some i =>
      rw [hfind] at hrest
      obtain ⟨item, mid, hitem, hrest⟩ := run_bind_eq_ok hrest
      obtain ⟨-, rfl⟩ := the_item_eq_ok hitem
      exact hback hrest

theorem walk_one_same {mem : NodeMem} {base : NodeData} {file : Name} {answer : Option NodeData}
    (hrun : fsWalkOne mem base file s = .ok (answer, s')) : s' = s := by
  unfold fsWalkOne at hrun
  split at hrun
  · exact (run_pure_eq_ok hrun).2
  · exact (run_pure_eq_ok hrun).2
  · rw [run_ite] at hrun
    split at hrun
    · exact (run_pure_eq_ok hrun).2
    · obtain ⟨found, mid, hwalk, hrest⟩ := run_bind_eq_ok hrun
      obtain rfl := walk_same hwalk
      cases found with
      | none => exact (run_pure_eq_ok hrest).2
      | some n => exact (run_pure_eq_ok hrest).2

theorem walk_items_same {items : List Name} {mem : Nat → NodeMem} {n : NodeData}
    {answer : Option (NodeData × Name)}
    (hrun : walkItemsExceptLast mem n items s = .ok (answer, s')) : s' = s := by
  induction items generalizing mem n with
  | nil => exact (run_pure_eq_ok hrun).2
  | cons item rest ih =>
      cases rest with
      | nil =>
          rw [walkItemsExceptLast, run_ite] at hrun
          split at hrun <;> exact (run_pure_eq_ok hrun).2
      | cons next rest =>
          rw [walkItemsExceptLast, run_ite, run_ite] at hrun
          · split at hrun
            · exact (run_pure_eq_ok hrun).2
            · split at hrun
              · exact (run_pure_eq_ok hrun).2
              · obtain ⟨found, mid, hone, hrest⟩ := run_bind_eq_ok hrun
                obtain rfl := walk_one_same hone
                cases found with
                | none => exact (run_pure_eq_ok hrest).2
                | some n2 => exact ih hrest
          · nofun

/-- A walk to the directory of a path leaves everything as it was. -/
theorem walk_except_last_same {mem : Nat → NodeMem} {path : Name}
    {answer : Option (NodeData × Name)}
    (hrun : fsWalkPathExceptLast mem path s = .ok (answer, s')) : s' = s := by
  unfold fsWalkPathExceptLast at hrun
  rw [run_ite] at hrun
  split at hrun
  · exact (run_pure_eq_ok hrun).2
  · exact walk_items_same hrun

end Walk

section Calls

variable {s s' : Heap} {okModes : UInt32} {opts : Name}

theorem keeps_walk_except_last (mem : Nat → NodeMem) (path : Name) :
    Keeps SameRights (fsWalkPathExceptLast mem path) := by
  intro s a s' hrun
  obtain rfl := walk_except_last_same hrun
  rfl

/-- No call changes the rights. -/
theorem keeps_call (call : DirCall) : Keeps SameRights call.run := by
  cases call with
  | create file type mem answers =>
      refine keeps_get.bind fun _ => keeps_ite (fun _ => keeps_pure _) fun _ =>
        (keeps_walk_except_last mem file).bind fun found => ?_
      split
      · exact keeps_create answers _ _ type
      · exact keeps_pure _
  | delete file mem shrunk =>
      refine keeps_get.bind fun _ => keeps_ite (fun _ => keeps_pure _) fun _ =>
        (keeps_walk_except_last mem file).bind fun found => ?_
      split
      · exact keeps_delete shrunk _ _
      · exact keeps_pure _
  | move src dst mem memTo named =>
      refine keeps_get.bind fun _ => keeps_ite (fun _ => keeps_pure _) fun _ =>
        (keeps_walk_except_last mem src).bind fun found => ?_
      split
      · exact keeps_pure _
      · refine (keeps_walk_except_last memTo dst).bind fun foundTo => ?_
        split
        · exact keeps_pure _
        · split
          · exact keeps_pure _
          · exact keeps_pure _
          · exact keeps_ite (fun _ => keeps_throw _) fun _ =>
              keeps_ite (fun _ => keeps_ite (fun _ => keeps_throw _) fun _ => keeps_pure _)
                fun _ => keeps_pure _

/-- Every state of a run has the rights of the option string. -/
theorem rights_run (hs : Reachable (rightsRuns okModes opts) s) :
    s.rights = (makeNullfs okModes opts).rights := by
  refine Reachable.induct (motive := fun s => s.rights = (makeNullfs okModes opts).rights)
    ?_ ?_ hs
  · rintro s rfl
    rfl
  · rintro s s' hs ⟨call, answer, hrun⟩
    exact (keeps_call call s answer s' hrun).trans hs

/-- A call that has changed a directory has taken its lock. -/
theorem create_locks {mem : CreateMem} {d : DirAddr} {file : Name} {type : UInt32}
    (hrun : nullfsDCreate mem d file type s = .ok (true, s')) :
    ∃ dir, s.dir d = some dir ∧ dir.lock = false := by
  unfold nullfsDCreate at hrun
  rw [run_ite, run_ite] at hrun
  split at hrun
  · obtain ⟨u, mid, hlock, -⟩ := run_bind_eq_ok hrun
    obtain ⟨dir, hd, hfree, -⟩ := lock_dir_eq_ok hlock
    exact ⟨dir, hd, hfree⟩
  · split at hrun
    · obtain ⟨u, mid, hlock, -⟩ := run_bind_eq_ok hrun
      obtain ⟨dir, hd, hfree, -⟩ := lock_dir_eq_ok hlock
      exact ⟨dir, hd, hfree⟩
    · cases hrun

/-- One that has deleted an item has also seen the right to do so. -/
theorem delete_locks {shrunk : Bool} {d : DirAddr} {file : Name}
    (hrun : nullfsDDelete shrunk d file s = .ok (true, s')) :
    s.canDelete = true ∧ ∃ dir, s.dir d = some dir ∧ dir.lock = false := by
  obtain ⟨u, mid, hlock, hrest⟩ := run_bind_eq_ok hrun
  obtain ⟨dir, hd, hfree, rfl⟩ := lock_dir_eq_ok hlock
  refine ⟨?_, dir, hd, hfree⟩
  rw [run_bind_of_ok (a := s.setDir d (some { dir with lock := true })) rfl, run_ite] at hrest
  split at hrest
  · obtain ⟨u', last, -, hrest⟩ := run_bind_eq_ok hrest
    cases hrest
  · next hcan =>
      cases hright : s.canDelete with
      | true => rfl
      | false => exact absurd (show (!s.canDelete) = true by rw [hright]; rfl) hcan

/-- `nullfs_d_move` fails, and so does whatever asks it. -/
theorem move_fails {mem memTo : Nat → NodeMem} {named : Bool} {src dst : Name} :
    fsMove mem memTo named src dst s ≠ .ok (true, s') := by
  intro hrun
  obtain ⟨_, mid, -, hrest⟩ := run_bind_eq_ok hrun
  rw [run_ite] at hrest
  split at hrest
  · cases hrest
  · obtain ⟨found, mid, -, hrest⟩ := run_bind_eq_ok hrest
    match found, hrest with
    | none, hrest => cases hrest
    | some (oldParent, oldName), hrest =>
        obtain ⟨foundTo, mid, -, hrest⟩ := run_bind_eq_ok hrest
        match foundTo, oldParent, hrest with
        | none, _, hrest => cases hrest
        | some _, .file _, hrest => cases hrest
        | some _, .special _, hrest => cases hrest
        | some (newParent, newName), .dir d, hrest =>
            simp only [run_ite] at hrest
            split at hrest
            · cases hrest
            · split at hrest
              · split at hrest <;> cases hrest
              · cases hrest

theorem stat_create {dir : Dir} (h : s.canCreate = true) :
    (s.dirStat dir).access &&& fmDcreate ≠ 0 := by
  simp only [Heap.dirStat, h]
  cases s.canMove <;> cases s.canDelete <;> decide

theorem stat_delete {dir : Dir} (h : s.canDelete = true) :
    (s.dirStat dir).access &&& fmDdelete ≠ 0 := by
  simp only [Heap.dirStat, h]
  cases s.canCreate <;> cases s.canMove <;> decide

/-- A call succeeds only with its right, where creating needs none or the string grants it. -/
theorem honest_of_rights (hs : s.rights = (makeNullfs okModes opts).rights)
    (h : 99 ∈ opts ∨ okModes &&& fmDcreate = 0) (call : DirCall) : Honest opts s call := by
  obtain ⟨hmodes, hcreate, hmove, hdelete⟩ : s.okModes = okModes ∧
      s.canCreate = opts.contains 99 ∧ s.canMove = opts.contains 109 ∧
      s.canDelete = opts.contains 100 := by
    simpa [Heap.rights, makeNullfs, nullfsFsMake] using hs
  intro s' hrun
  cases call with
  | create file type mem answers =>
      rw [DirCall.run, fsCreate, run_get_bind, run_ite] at hrun
      split at hrun
      · cases hrun
      · next hgranted =>
          have hletter : 99 ∈ opts := h.resolve_right (hmodes ▸ hgranted)
          obtain ⟨found, mid, hwalk, hrest⟩ := run_bind_eq_ok hrun
          obtain rfl := walk_except_last_same hwalk
          rcases found with _ | ⟨d | f | dev, name⟩
          · cases hrest
          · obtain ⟨dir, hd, hfree⟩ := create_locks hrest
            refine ⟨d, name, _, hwalk, dir_stat_run hd hfree, stat_create ?_, hletter⟩
            rw [hcreate]
            simpa using hletter
          · cases hrest
          · cases hrest
  | delete file mem shrunk =>
      rw [DirCall.run, fsDelete, run_get_bind, run_ite] at hrun
      split at hrun
      · cases hrun
      · obtain ⟨found, mid, hwalk, hrest⟩ := run_bind_eq_ok hrun
        obtain rfl := walk_except_last_same hwalk
        rcases found with _ | ⟨d | f | dev, name⟩
        · cases hrest
        · obtain ⟨hcan, dir, hd, hfree⟩ := delete_locks hrest
          refine ⟨d, name, _, hwalk, dir_stat_run hd hfree, stat_delete hcan, ?_⟩
          rw [hdelete] at hcan
          simpa [DirCall.letter] using hcan
        · cases hrest
        · cases hrest
  | move src dst mem memTo named => exact absurd hrun move_fails

/-- In a new file system, the creation of a file succeeds whatever the option string says. -/
theorem create_succeeds (opts : Name) (hgranted : okModes &&& fmDcreate ≠ 0) :
    ∃ s', createOnRoot.run (makeNullfs okModes opts) = .ok (true, s') := by
  have hitems : pathItems [slash, 97] = [[97]] := by decide +kernel
  have hmodes : ¬(makeNullfs okModes opts).okModes &&& fmDcreate = 0 := hgranted
  show ∃ s', fsCreate (fun _ => { node := true, binding := true }) ample [slash, 97] ftRegular
    (makeNullfs okModes opts) = .ok (true, s')
  unfold fsCreate fsWalkPathExceptLast
  rw [hitems, run_bind_of_ok (a := makeNullfs okModes opts) rfl, if_neg hmodes]
  exact ⟨_, rfl⟩

/-- In every run on a file system, a call succeeds only when `stat` of its directory reports the
right and the option string grants it: exactly if the string grants creation, or the modes of the
file system rule it out. -/
theorem nullfs_rights (okModes : UInt32) (opts : Name) :
    (∀ s, Reachable (rightsRuns okModes opts) s → ∀ call, Honest opts s call) ↔
      99 ∈ opts ∨ okModes &&& fmDcreate = 0 := by
  constructor
  · intro hhonest
    by_contra hnot
    obtain ⟨hletter, hgranted⟩ := not_or.mp hnot
    obtain ⟨s', hrun⟩ := create_succeeds opts hgranted
    obtain ⟨-, -, -, -, -, -, hmem⟩ := hhonest _ (.init rfl) createOnRoot s' hrun
    exact hletter hmem
  · intro h s hs call
    exact honest_of_rights (rights_run hs) h call

/-- A file system made with an empty option string lets a file be created. -/
theorem created_without_right :
    ¬∀ opts s, Reachable (rightsRuns 0xFFFF opts) s → ∀ call, Honest opts s call := by
  intro hclaim
  obtain ⟨s', hrun⟩ := @create_succeeds 0xFFFF [] (by decide)
  obtain ⟨-, -, -, -, -, -, hmem⟩ := hclaim [] _ (.init rfl) createOnRoot s' hrun
  exact List.not_mem_nil hmem

end Calls

end Kogata.Kernel.Nullfs
