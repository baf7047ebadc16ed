import Kogata.Kernel.VfsRefs
import Kogata.Lib.Run

/-!
# The counts after each call

Runs of the calls on one file system. Between two calls nothing is on its way out and the code
holds no references, so that the counts are those of the children and handles in memory, and the
tables bind exactly the nodes in memory.
-/

namespace Kogata.Kernel

open Lib.Effect Lib.Run Lib.Tally

variable {D : Type} {s s' : Vfs D}

/-- The node `c` is in memory as a child of `p`. -/
def Vfs.ChildIn (s : Vfs D) (p c : NodeId) : Prop :=
  ∃ cd, s.node c = some cd ∧ cd.parent = some p

/-- The handle `h` is in memory as a handle of the node `n`. -/
def Vfs.HandleIn (s : Vfs D) (n : NodeId) (h : HandleId) : Prop :=
  ∃ file, s.handle h = some file ∧ file.node = n

instance (s : Vfs D) (p c : NodeId) : Decidable (s.ChildIn p c) :=
  decidable_of_iff ((s.node c).any (fun cd => cd.parent == some p) = true)
    (by simp [Vfs.ChildIn, Option.any_eq_true])

instance (s : Vfs D) (n : NodeId) (h : HandleId) : Decidable (s.HandleIn n h) :=
  decidable_of_iff ((s.handle h).any (fun file => file.node == n) = true)
    (by simp [Vfs.HandleIn, Option.any_eq_true])

/-- The tables bind exactly the nodes in memory, and the reference counts are exact. -/
structure Exact (s : Vfs D) : Prop where
  nodeRange : ∀ n nd, s.node n = some nd → n < s.nextNode
  handleRange : ∀ h file, s.handle h = some file → h < s.nextHandle
  bound : ∀ c cd, s.node c = some cd → c ≠ fsRoot → ∃ p pd, cd.parent = some p ∧
    s.node p = some pd ∧ (cd.name, c) ∈ pd.entries
  only : ∀ p pd, s.node p = some pd → ∀ e ∈ pd.entries, ∃ cd, s.node e.2 = some cd ∧
    e.2 ≠ fsRoot ∧ cd.parent = some p ∧ cd.name = e.1
  distinct : ∀ c cd c' cd', s.node c = some cd → s.node c' = some cd' → c ≠ fsRoot →
    cd.parent = cd'.parent → cd.name = cd'.name → c = c'
  nodeRefs : ∀ n nd, s.node n = some nd → nd.refs = Nat.count (s.ChildIn n) s.nextNode +
    Nat.count (s.HandleIn n) s.nextHandle + if n = fsRoot then 1 else 0
  fsRefs : ∃ fs, s.fs = some fs ∧ fs.refs = 1 + (Nat.count s.Below s.nextNode : Int) +
    Nat.count s.Held s.nextHandle
  root : (s.node fsRoot).isSome
  onlyRoot : (∀ h, s.handle h = none) → ∀ n, n ≠ fsRoot → s.node n = none

section Between

variable (hs : Counted s fun _ => 0) (hsettled : Settled s)

include hsettled in
theorem child_in_iff (p c : NodeId) : s.ChildIn p c ↔ s.Child p c := by
  constructor
  · rintro ⟨cd, hc, hparent⟩
    exact ⟨cd, hc, hsettled.nodes c cd hc, hparent⟩
  · rintro ⟨cd, hc, -, hparent⟩
    exact ⟨cd, hc, hparent⟩

include hsettled in
theorem handle_in_iff (n : NodeId) (h : HandleId) : s.HandleIn n h ↔ s.Opens n h := by
  constructor
  · rintro ⟨file, hf, hnode⟩
    exact ⟨file, hf, hsettled.handles h file hf, hnode⟩
  · rintro ⟨file, hf, -, hnode⟩
    exact ⟨file, hf, hnode⟩

include hs hsettled in
/-- Without handles, a node other than the root would have a younger child, which is impossible
for the youngest. -/
theorem only_root (hnone : ∀ h, s.handle h = none) {n : NodeId} (hroot : n ≠ fsRoot) :
    s.node n = none := by
  induction hk : s.nextNode - n using Nat.strong_induction_on generalizing n with
  | _ k ih =>
    by_contra hsome
    obtain ⟨nd, hn⟩ := Option.ne_none_iff_exists'.mp hsome
    have hlive := hsettled.nodes n nd hn
    have hold := hs.old n nd hn
    obtain ⟨-, hexact⟩ := hs.exact n nd hn hlive
    have hhandles : s.handleCount n = 0 := by
      refine Nat.count_iff_forall_not.mpr fun h _ => ?_
      rintro ⟨file, hf, -⟩
      rw [hnone h] at hf
      cases hf
    have hchildren : s.childCount n ≠ 0 := by
      intro hzero
      rw [hzero, hhandles, if_neg hroot] at hexact
      omega
    obtain ⟨c, hc, cd, hcd, hclive, hparent⟩ : ∃ c, c < s.nextNode ∧ s.Child n c := by
      by_contra hno
      exact hchildren (Nat.count_iff_forall_not.mpr fun c hc hchild => hno ⟨c, hc, hchild⟩)
    have hcroot : c ≠ fsRoot := by
      rintro rfl
      obtain ⟨rd, hrd, -, hnoparent⟩ := hs.root
      obtain rfl : rd = cd := Option.some.inj (hrd.symm.trans hcd)
      rw [hnoparent] at hparent
      cases hparent
    obtain ⟨p, pd, hp, hlt, -⟩ := hs.bound c cd hcd hclive hcroot
    obtain rfl : n = p := Option.some.inj (hparent.symm.trans hp)
    have hgone := ih (s.nextNode - c) (hk ▸ Nat.sub_lt_sub_left hold hlt) hcroot rfl
    rw [hgone] at hcd
    cases hcd

include hs hsettled in
/-- Between two calls the counts are exact. -/
theorem exact_of_counted : Exact s where
  nodeRange := hs.old
  handleRange := fun h file hf => (hs.files h file hf).1
  bound := fun c cd hc hroot => by
    obtain ⟨p, pd, hparent, -, hp, -, hentry⟩ := hs.bound c cd hc (hsettled.nodes c cd hc) hroot
    exact ⟨p, pd, hparent, hp, hentry⟩
  only := fun p pd hp e he => by
    obtain ⟨cd, hc, -, hparent, hname⟩ := hs.entry p pd hp e he
    refine ⟨cd, hc, fun hroot => ?_, hparent, hname⟩
    obtain ⟨rd, hrd, -, hnoparent⟩ := hs.root
    obtain rfl : rd = cd := Option.some.inj (hrd.symm.trans (hroot ▸ hc))
    rw [hnoparent] at hparent
    cases hparent
  distinct := fun c cd c' cd' hc hc' hroot hparent hname => by
    obtain ⟨p, pd, hp, -, hpd, -, hentry⟩ := hs.bound c cd hc (hsettled.nodes c cd hc) hroot
    have hroot' : c' ≠ fsRoot := by
      rintro rfl
      obtain ⟨rd, hrd, -, hnoparent⟩ := hs.root
      obtain rfl : rd = cd' := Option.some.inj (hrd.symm.trans hc')
      rw [hp, hnoparent] at hparent
      cases hparent
    obtain ⟨p', pd', hp', -, hpd', -, hentry'⟩ :=
      hs.bound c' cd' hc' (hsettled.nodes c' cd' hc') hroot'
    rw [hp, hp'] at hparent
    cases hparent
    obtain rfl : pd = pd' := Option.some.inj (hpd.symm.trans hpd')
    exact entry_unique (hs.keys p pd hpd) hentry (hname ▸ hentry')
  nodeRefs := fun n nd hn => by
    obtain ⟨-, hexact⟩ := hs.exact n nd hn (hsettled.nodes n nd hn)
    have hchildren : Nat.count (s.ChildIn n) s.nextNode = s.childCount n :=
      count_congr fun c _ => child_in_iff hsettled n c
    have hhandles : Nat.count (s.HandleIn n) s.nextHandle = s.handleCount n :=
      count_congr fun h _ => handle_in_iff hsettled n h
    rw [hchildren, hhandles, hexact]
    simp
  fsRefs := by
    obtain ⟨fs, hfs, -, hcount⟩ := hs.fsExact
    exact ⟨fs, hfs, hcount⟩
  root := by
    obtain ⟨rd, hrd, -⟩ := hs.root
    rw [hrd]
    rfl
  onlyRoot := fun hnone n hroot => only_root hs hsettled hnone hroot

end Between

/-- A call on the file system, and the handles that a caller may name. -/
inductive FsRequest where
  | open (file : Name) (mode : UInt32)
  | stat (file : Name)
  | create (file : Name) (type : UInt32)
  | ref (h : HandleId)
  | unref (h : HandleId)
  deriving DecidableEq

/-- The call, without its result. -/
def FsRequest.run (d : Driver D) : FsRequest → VfsCall D Unit
  | .open file mode => do let _ ← fsOpen d file mode
  | .stat file => do let _ ← fsStat d file
  | .create file type => do let _ ← fsCreate d file type
  | .ref h => refFile h
  | .unref h => unrefFile d h

/-- The handle that the call names, if any, has not been freed. -/
def FsRequest.Valid (s : Vfs D) : FsRequest → Prop
  | .ref h => (s.handle h).isSome
  | .unref h => (s.handle h).isSome
  | _ => True

/-- What the call does to the references of a handle. -/
def FsRequest.change : FsRequest → HandleId → Int
  | .ref h, f => if h = f then 1 else 0
  | .unref h, f => if h = f then -1 else 0
  | _, _ => 0

/-- The runs of the calls on the file system that `make_fs` made. -/
def vfsRuns (d : Driver D) (init : Vfs D) : System (Vfs D) where
  init := fun s => s = init
  step := fun s s' => ∃ request : FsRequest, request.Valid s ∧ request.run d s = .ok ((), s')

section Made

variable (d : Driver D) (driver : D) (okModes : UInt32) (rootLock : Bool) (rootName : Name)

/-- Only the root is in memory in a new file system. -/
theorem make_fs_node {n : NodeId} {nd : FsNode}
    (hn : (makeFs driver okModes rootLock rootName).node n = some nd) : n = fsRoot ∧
      nd = { refs := 1, lock := rootLock, name := rootName, children := none, parent := none } := by
  change Function.update (fun _ => none) fsRoot _ n = some nd at hn
  by_cases hroot : n = fsRoot
  · rw [hroot, Function.update_self] at hn
    exact ⟨hroot, (Option.some.inj hn).symm⟩
  · rw [Function.update_of_ne hroot] at hn
    cases hn

/-- The root of a new file system. -/
theorem make_fs_root : (makeFs driver okModes rootLock rootName).node fsRoot =
    some { refs := 1, lock := rootLock, name := rootName, children := none, parent := none } := by
  simp [makeFs]

/-- A new file system, whose root has a free lock, has exact counts. -/
theorem make_fs_counted :
    Counted (makeFs driver okModes false rootName) fun _ => 0 := by
  have hnode := @make_fs_node D driver okModes false rootName
  have hroot := make_fs_root driver okModes false rootName
  refine ⟨⟨⟨_, hroot, Int.zero_lt_one, rfl⟩, ?_, ?_, ?_, ?_⟩, ⟨_, rfl, rfl, ?_⟩, ?_, ?_, ?_⟩
  · intro n nd hn
    rw [(hnode hn).1]
    exact Nat.zero_lt_one
  · intro c cd hc _ hne
    exact absurd (hnode hc).1 hne
  · intro p pd hp e he
    rw [(hnode hp).2] at he
    cases he
  · intro p pd hp
    rw [(hnode hp).2]
    exact List.nodup_nil
  · have hnodes : (makeFs driver okModes false rootName).nodeTotal = 0 :=
      Nat.count_iff_forall_not.mpr fun n hn hbelow => hbelow.1 (Nat.lt_one_iff.mp hn)
    have hhandles : (makeFs driver okModes false rootName).handleTotal = 0 := rfl
    rw [hnodes, hhandles]
    rfl
  · intro n nd hn _
    obtain ⟨rfl, rfl⟩ := hnode hn
    have hchildren : (makeFs driver okModes false rootName).childCount fsRoot = 0 := by
      refine Nat.count_iff_forall_not.mpr fun c _ => ?_
      rintro ⟨cd, hc, -, hparent⟩
      rw [(hnode hc).2] at hparent
      cases hparent
    have hhandles : (makeFs driver okModes false rootName).handleCount fsRoot = 0 := rfl
    rw [hchildren, hhandles]
    exact ⟨rfl, rfl⟩
  · intro n hn
    exact absurd hn (Nat.lt_irrefl 0)
  · intro h file hf
    cases hf

theorem make_fs_settled : Settled (makeFs driver okModes rootLock rootName) where
  nodes := fun n nd hn => by
    rw [(make_fs_node driver okModes rootLock rootName hn).2]
    exact Int.zero_lt_one
  handles := fun h file hf => by cases hf

/-- A new file system has exact counts whatever `malloc` left in the lock of the root. -/
theorem make_fs_exact : Exact (makeFs driver okModes rootLock rootName) := by
  have hnode := @make_fs_node D driver okModes rootLock rootName
  have hroot := make_fs_root driver okModes rootLock rootName
  constructor
  · intro n nd hn
    rw [(hnode hn).1]
    exact Nat.zero_lt_one
  · intro h file hf
    cases hf
  · intro c cd hc hne
    exact absurd (hnode hc).1 hne
  · intro p pd hp e he
    rw [(hnode hp).2] at he
    cases he
  · intro c cd c' cd' hc _ hne
    exact absurd (hnode hc).1 hne
  · intro n nd hn
    obtain ⟨rfl, rfl⟩ := hnode hn
    have hchildren : Nat.count ((makeFs driver okModes rootLock rootName).ChildIn fsRoot) 1 = 0 := by
      refine Nat.count_iff_forall_not.mpr fun c _ => ?_
      rintro ⟨cd, hc, hparent⟩
      rw [(hnode hc).2] at hparent
      cases hparent
    show (1 : Int) = Nat.count _ 1 + Nat.count _ 0 + 1
    rw [hchildren, Nat.count_zero]
    rfl
  · have hnodes : Nat.count (makeFs driver okModes rootLock rootName).Below 1 = 0 :=
      Nat.count_iff_forall_not.mpr fun n hn hbelow => hbelow.1 (Nat.lt_one_iff.mp hn)
    refine ⟨_, rfl, ?_⟩
    show (1 : Int) = 1 + Nat.count _ 1 + Nat.count _ 0
    rw [hnodes, Nat.count_zero]
    rfl
  · rw [hroot]
    rfl
  · intro _ n hne
    by_contra hsome
    obtain ⟨nd, hn⟩ := Option.ne_none_iff_exists'.mp hsome
    exact hne (hnode hn).1

/-- Where the lock of the root looks taken, no walk comes back. -/
theorem ref_root_stuck : refFsNode fsRoot (makeFs driver okModes true rootName) =
    .error .deadlock := by
  have hlock : lockNode fsRoot (makeFs driver okModes true rootName) = .error .deadlock := by
    unfold lockNode
    rw [run_bind_of_ok (the_node_run (make_fs_root driver okModes true rootName))]
    rfl
  unfold refFsNode
  exact run_bind_of_error hlock

theorem walk_path_stuck (path : Name) :
    fsWalkPath d fsRoot path (makeFs driver okModes true rootName) = .error .deadlock := by
  unfold fsWalkPath
  exact run_bind_of_error (ref_root_stuck driver okModes rootName)

/-- There the calls that come back change nothing. -/
theorem locked_run (request : FsRequest) {s' : Vfs D}
    (hrun : request.run d (makeFs driver okModes true rootName) = .ok ((), s')) :
    s' = makeFs driver okModes true rootName := by
  cases request with
  | «open» file mode =>
      obtain ⟨_, mid, hopen, hrest⟩ := run_bind_eq_ok hrun
      cases hrest
      unfold fsOpen at hopen
      rw [run_bind_of_ok (the_fs_run rfl), run_ite] at hopen
      split at hopen
      · cases hopen
        rfl
      · have hfind : nodeToOpen d okModes fsRoot file mode (makeFs driver okModes true rootName) =
            .error .deadlock := by
          unfold nodeToOpen
          exact run_bind_of_error (walk_path_stuck d driver okModes rootName file)
        rw [run_bind_of_error hfind] at hopen
        cases hopen
  | stat file =>
      obtain ⟨_, mid, hstat, -⟩ := run_bind_eq_ok hrun
      unfold fsStat statFile at hstat
      rw [run_bind_of_error (walk_path_stuck d driver okModes rootName file)] at hstat
      cases hstat
  | create file type =>
      obtain ⟨_, mid, hcreate, hrest⟩ := run_bind_eq_ok hrun
      cases hrest
      unfold fsCreate createFile at hcreate
      rw [run_bind_of_ok (the_fs_run rfl), run_ite] at hcreate
      split at hcreate
      · cases hcreate
        rfl
      · unfold fsWalkPathExceptLast at hcreate
        split at hcreate
        · cases hcreate
          rfl
        · rw [run_bind_of_error (run_bind_of_error (ref_root_stuck driver okModes rootName))]
            at hcreate
          cases hcreate
  | ref h =>
      unfold FsRequest.run refFile at hrun
      obtain ⟨_, mid, hlock, -⟩ := run_bind_eq_ok hrun
      cases hlock
  | unref h =>
      unfold FsRequest.run unrefFile at hrun
      obtain ⟨_, mid, hlock, -⟩ := run_bind_eq_ok hrun
      cases hlock

end Made

/-- On exact counts every valid call comes back, and keeps them. -/
theorem request_yields (d : Driver D) (request : FsRequest) (hs : Counted s fun _ => 0)
    (hsettled : Settled s) (hvalid : request.Valid s) :
    Yields (request.run d) s fun _ s' =>
      (Counted s' fun _ => 0) ∧ Settled s' ∧ Referred request.change s s' := by
  cases request with
  | «open» file mode =>
      exact (fs_open_yields d file mode hs).bind fun _ s' h =>
        yields_pure ⟨h.1, h.2.1 hsettled, h.2.2⟩
  | stat file =>
      exact (fs_stat_yields d file hs).bind fun _ s' h =>
        yields_pure ⟨h.1, h.2.settled hsettled, h.2.referred⟩
  | create file type =>
      exact (fs_create_yields d file type hs).bind fun _ s' h =>
        yields_pure ⟨h.1, h.2.settled hsettled, h.2.referred⟩
  | ref h =>
      obtain ⟨file, hf⟩ := Option.isSome_iff_exists.mp hvalid
      exact (ref_file_yields hs hf (hsettled.handles h file hf)).mono fun _ s' h =>
        ⟨h.1, h.2.1 hsettled, h.2.2⟩
  | unref h =>
      obtain ⟨file, hf⟩ := Option.isSome_iff_exists.mp hvalid
      exact (unref_file_yields d hs hf (hsettled.handles h file hf)).mono fun _ s' h =>
        ⟨h.1, h.2.1 hsettled, h.2.2⟩

section Runs

variable {d : Driver D} {driver : D} {okModes : UInt32} {rootLock : Bool} {rootName : Name}

/-- A reachable state has exact counts, or the root could not be locked and nothing happened. -/
theorem counted_of_reachable
    (h : Reachable (vfsRuns d (makeFs driver okModes rootLock rootName)) s) :
    ((Counted s fun _ => 0) ∧ Settled s) ∨
      rootLock = true ∧ s = makeFs driver okModes true rootName := by
  refine Reachable.induct (motive := fun s => ((Counted s fun _ => 0) ∧ Settled s) ∨
    rootLock = true ∧ s = makeFs driver okModes true rootName) (fun s hinit => ?_)
    (fun s s' hinv hstep => ?_) h
  · subst hinit
    cases rootLock with
    | false =>
        exact .inl ⟨make_fs_counted driver okModes rootName,
          make_fs_settled driver okModes false rootName⟩
    | true => exact .inr ⟨rfl, rfl⟩
  · obtain ⟨request, hvalid, hrun⟩ := hstep
    rcases hinv with ⟨hs, hsettled⟩ | ⟨hlock, rfl⟩
    · obtain ⟨_, t, hrun', hs', hsettled', -⟩ := request_yields d request hs hsettled hvalid
      obtain rfl : t = s' := (Prod.mk.inj (Except.ok.inj (hrun'.symm.trans hrun))).2
      exact .inl ⟨hs', hsettled'⟩
    · exact .inr ⟨hlock, locked_run d driver okModes rootName request hrun⟩

/-- A call that comes back has named no freed handle. -/
theorem FsRequest.valid_of_run {request : FsRequest} (hrun : request.run d s = .ok ((), s')) :
    request.Valid s := by
  have hlive : ∀ {h mid}, lockFile h s = .ok ((), mid) → (s.handle h).isSome := by
    intro h mid hlock
    obtain ⟨file, _, hfile, -⟩ := run_bind_eq_ok hlock
    rw [theFile, run_get_bind] at hfile
    cases hh : s.handle h with
    | none =>
        rw [hh] at hfile
        cases hfile
    | some file => rfl
  cases request with
  | ref h | unref h =>
      obtain ⟨_, mid, hlock, -⟩ := run_bind_eq_ok hrun
      exact hlive hlock
  | _ => trivial

/-- Over a run a handle gets a reference for each `ref_file` and loses one for each `unref_file`,
and it is freed with the last one. -/
theorem handle_refs_run {requests : List FsRequest} {h : HandleId}
    (hs : Reachable (vfsRuns d (makeFs driver okModes rootLock rootName)) s)
    (hrun : requests.forM (·.run d) s = .ok ((), s')) (hh : h < s.nextHandle) :
    s'.refsOf h = s.refsOf h + requests.foldr (fun request k => request.change h + k) 0 := by
  induction requests generalizing s with
  | nil =>
      cases hrun
      exact (Int.add_zero _).symm
  | cons request rest ih =>
      obtain ⟨_, mid, hfirst, hrest⟩ := run_bind_eq_ok hrun
      have hvalid := FsRequest.valid_of_run hfirst
      rcases counted_of_reachable hs with ⟨hcounted, hsettled⟩ | ⟨-, rfl⟩
      · obtain ⟨_, t, hrun', -, -, href⟩ := request_yields d request hcounted hsettled hvalid
        obtain rfl : t = mid := (Prod.mk.inj (Except.ok.inj (hrun'.symm.trans hfirst))).2
        rw [ih (.step hs ⟨request, hvalid, hfirst⟩) hrest (Nat.lt_of_lt_of_le hh href.next),
          href.refs h hh, List.foldr_cons, Int.add_assoc]
      · exact absurd hh (Nat.not_lt_zero _)

/-- After every call of every run, the tables bind exactly the nodes in memory and the reference
counts are exact. -/
theorem vfs_refs_exact
    (h : Reachable (vfsRuns d (makeFs driver okModes rootLock rootName)) s) : Exact s := by
  rcases counted_of_reachable h with ⟨hs, hsettled⟩ | ⟨-, rfl⟩
  · exact exact_of_counted hs hsettled
  · exact make_fs_exact driver okModes true rootName

end Runs

/-- A driver whose directories have every name. -/
def Driver.generous : Driver Unit where
  walk := fun _ _ _ _ => (true, ())
  openNode := fun _ _ _ => (true, ())
  create := fun _ _ _ _ => (true, ())
  stat := fun _ _ => (true, ())
  close := fun _ _ => ()
  dispose := fun _ _ => ()
  shutdown := fun _ => ()

/-- Opening `a/b` leaves two nodes and a handle. -/
theorem vfs_refs_exact_one_open :
    ∃ s, Reachable (vfsRuns .generous (makeFs () fmRead false [])) s ∧ s.nextNode = 3 ∧
      s.nextHandle = 1 ∧ Exact s := by
  have hrun : ∃ s, (FsRequest.open [97, slash, 98] fmRead).run .generous
      (makeFs () fmRead false []) = .ok ((), s) ∧ s.nextNode = 3 ∧ s.nextHandle = 1 :=
    ⟨_, rfl, rfl, rfl⟩
  obtain ⟨s, hrun, hnodes, hhandles⟩ := hrun
  have hreach : Reachable (vfsRuns .generous (makeFs () fmRead false [])) s :=
    .step (.init rfl) ⟨.open [97, slash, 98] fmRead, trivial, hrun⟩
  exact ⟨s, hreach, hnodes, hhandles, vfs_refs_exact hreach⟩

end Kogata.Kernel
