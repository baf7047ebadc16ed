import Kogata.Lib.Mask
import Kogata.Kernel.Rights

/-!
# Rights only shrink

A sub-filesystem grants no more than the file system it comes from, a handle no more than its file
system, and a mapping that is writable has a handle with `FM_WRITE`.
-/

namespace Kogata.Kernel.Rights

open Lib.Run Lib.Mask

variable {N W : Type} [DecidableEq N]

/-- `fs->from_fs` is `base`. -/
def FromFs (s : Kern N W) (fs base : FsNo) : Prop :=
  ∃ fsys : Filesystem, s.fss[fs]? = some fsys ∧ fsys.fromFs = some base

/-- The file system itself, and those that it comes from. -/
def OnChain (s : Kern N W) : FsNo → FsNo → Prop :=
  Relation.ReflTransGen (FromFs s)

/-- Every right has been granted along the whole chain. -/
structure Attenuated (s : Kern N W) : Prop where
  /-- A handle has no mode, but `FM_BLOCKING`, that a file system on its chain does not have. -/
  handles : ∀ (h : HandleNo) (hd : OpenHandle) (fs anc : FsNo), s.handles[h]? = some hd →
    hd.fs = some fs → OnChain s fs anc →
    ∃ fsys : Filesystem, s.fss[anc]? = some fsys ∧ Within (hd.mode &&& ~~~fmBlocking) fsys.okModes
  /-- A driver is asked only where every file system on the chain grants it. -/
  asked : ∀ (op : DirOp) (fs anc : FsNo), (op, fs) ∈ s.asked → OnChain s fs anc →
    ∃ fsys : Filesystem, s.fss[anc]? = some fsys ∧ fsys.okModes &&& op.right ≠ 0
  /-- A writable region of a process that is backed by a file has a handle with `FM_WRITE`. -/
  regions : ∀ p, ∀ r ∈ (s.vm.proc p).regions, ∀ f, (s.vm.region r).file = some f →
    (s.vm.region r).mode &&& mmWrite ≠ 0 →
      ∃ hd : OpenHandle, s.handles[f.id]? = some hd ∧ hd.mode &&& fmWrite ≠ 0

/-- The region has the mode of its handle, and is writable only with `FM_WRITE`. -/
def BackedBy (handles : List OpenHandle) (reg : UserRegion) : Prop :=
  ∀ f, reg.file = some f → (∃ hd : OpenHandle, handles[f.id]? = some hd ∧ hd.mode = f.mode) ∧
    (reg.mode &&& mmWrite ≠ 0 → f.mode &&& fmWrite ≠ 0)

/-- What the tests of the code keep, from one file system to the next. -/
structure Granted (s : Kern N W) : Prop where
  chain : ∀ (fs : FsNo) (fsys : Filesystem) (base : FsNo), s.fss[fs]? = some fsys →
    fsys.fromFs = some base → ∃ orig : Filesystem,
      s.fss[base]? = some orig ∧ Within fsys.okModes orig.okModes
  handles : ∀ (h : HandleNo) (hd : OpenHandle) (fs : FsNo), s.handles[h]? = some hd → hd.fs = some fs →
    ∃ fsys : Filesystem, s.fss[fs]? = some fsys ∧ Within (hd.mode &&& ~~~fmBlocking) fsys.okModes
  asked : ∀ (op : DirOp) (fs : FsNo), (op, fs) ∈ s.asked →
    ∃ fsys : Filesystem, s.fss[fs]? = some fsys ∧ fsys.okModes &&& op.right ≠ 0
  regions : ∀ p, ∀ r ∈ (s.vm.proc p).regions, BackedBy s.handles (s.vm.region r)

section Chain

omit [DecidableEq N]

variable {s : Kern N W}

/-- The modes shrink along a chain. -/
theorem Granted.within (h : Granted s) {fs anc : FsNo} {fsys : Filesystem}
    (hfs : s.fss[fs]? = some fsys) (hchain : OnChain s fs anc) :
    ∃ orig : Filesystem, s.fss[anc]? = some orig ∧ Within fsys.okModes orig.okModes := by
  induction hchain with
  | refl => exact ⟨fsys, hfs, Within.refl _⟩
  | tail _ hfrom ih =>
      obtain ⟨mid, hmid, hwithin⟩ := ih
      obtain ⟨mid', hmid', hbase⟩ := hfrom
      obtain rfl := Option.some.inj (hmid.symm.trans hmid')
      obtain ⟨orig, horig, hstep⟩ := h.chain _ _ _ hmid hbase
      exact ⟨orig, horig, hwithin.trans hstep⟩

theorem Granted.attenuated (h : Granted s) : Attenuated s where
  handles := fun n hd fs anc hn hfs hchain => by
    obtain ⟨fsys, hfsys, hmode⟩ := h.handles n hd fs hn hfs
    obtain ⟨orig, horig, hwithin⟩ := h.within hfsys hchain
    exact ⟨orig, horig, hmode.trans hwithin⟩
  asked := fun op fs anc hmem hchain => by
    obtain ⟨fsys, hfsys, hright⟩ := h.asked op fs hmem
    obtain ⟨orig, horig, hwithin⟩ := h.within hfsys hchain
    exact ⟨orig, horig, hwithin.any hright⟩
  regions := fun p r hr f hfile hwrite => by
    obtain ⟨⟨hd, hhd, hmode⟩, hallowed⟩ := h.regions p r hr f hfile
    exact ⟨hd, hhd, hmode ▸ hallowed hwrite⟩

theorem Kern.Initial.granted (h : s.Initial) : Granted s where
  chain := fun fs fsys base hfs => by
    rw [h.fss] at hfs
    cases hfs
  handles := fun n hd fs hn => by
    rw [h.handles] at hn
    cases hn
  asked := fun op fs hmem => by
    rw [h.asked] at hmem
    cases hmem
  regions := fun p r hr => by
    rw [h.proc] at hr
    cases hr

end Chain

section Steps

omit [DecidableEq N]

variable {s s' : Kern N W}

/-- An element stays where it is when the list grows. -/
theorem getElem?_append_of_some {α : Type} {l : List α} {i : Nat} {a b : α} (h : l[i]? = some a) :
    (l ++ [b])[i]? = some a := by
  obtain ⟨hi, -⟩ := List.getElem?_eq_some_iff.mp h
  rw [List.getElem?_append_left hi, h]

/-- An element of a list that has grown is old or the new one. -/
theorem getElem?_append_cases {α : Type} {l : List α} {i : Nat} {a b : α}
    (h : (l ++ [b])[i]? = some a) : l[i]? = some a ∨ a = b := by
  rw [List.getElem?_append] at h
  split at h
  · exact .inl h
  · right
    obtain ⟨hi, heq⟩ := List.getElem?_eq_some_iff.mp h
    rw [← heq, List.getElem_singleton]

/-- Only tables of processes have changed. -/
theorem Granted.tables (h : Granted s) (hfss : s'.fss = s.fss) (hhandles : s'.handles = s.handles)
    (hasked : s'.asked = s.asked) (hvm : s'.vm = s.vm) : Granted s' := by
  obtain ⟨h₁, h₂, h₃, h₄⟩ := h
  constructor
  · rw [hfss]
    exact h₁
  · rw [hfss, hhandles]
    exact h₂
  · rw [hfss, hasked]
    exact h₃
  · rw [hvm, hhandles]
    exact h₄

/-- A new file system comes from none, or grants no more than the one it comes from. -/
theorem Granted.add_fs (h : Granted s) {new : Filesystem}
    (hnew : ∀ base, new.fromFs = some base →
      ∃ orig : Filesystem, s.fss[base]? = some orig ∧ Within new.okModes orig.okModes) :
    Granted { s with fss := s.fss ++ [new] } where
  chain := fun fs fsys base hfs hbase => by
    have horig : ∃ orig : Filesystem, s.fss[base]? = some orig ∧ Within fsys.okModes orig.okModes := by
      rcases getElem?_append_cases hfs with hold | rfl
      · exact h.chain fs fsys base hold hbase
      · exact hnew base hbase
    exact horig.imp fun orig ho => ho.imp_left getElem?_append_of_some
  handles := fun n hd fs hn hfs =>
    (h.handles n hd fs hn hfs).imp fun fsys hf => hf.imp_left getElem?_append_of_some
  asked := fun op fs hmem =>
    (h.asked op fs hmem).imp fun fsys hf => hf.imp_left getElem?_append_of_some
  regions := h.regions

theorem BackedBy.append {handles : List OpenHandle} {reg : UserRegion} (h : BackedBy handles reg)
    (new : OpenHandle) : BackedBy (handles ++ [new]) reg := by
  intro f hfile
  obtain ⟨⟨hd, hhd, hmode⟩, hwrite⟩ := h f hfile
  exact ⟨⟨hd, getElem?_append_of_some hhd, hmode⟩, hwrite⟩

/-- A new handle has no file system, or no more modes than its file system. -/
theorem Granted.add_handle (h : Granted s) {new : OpenHandle}
    (hnew : ∀ fs, new.fs = some fs →
      ∃ fsys : Filesystem, s.fss[fs]? = some fsys ∧ Within (new.mode &&& ~~~fmBlocking) fsys.okModes) :
    Granted { s with handles := s.handles ++ [new] } where
  chain := h.chain
  handles := fun n hd fs hn hfs => by
    rcases getElem?_append_cases hn with hold | rfl
    · exact h.handles n hd fs hold hfs
    · exact hnew fs hfs
  asked := h.asked
  regions := fun p r hr => (h.regions p r hr).append new

theorem Granted.dir_call (h : Granted s) (op : DirOp) (fs : FsNo) (walked answer : Bool) :
    Granted (dirCall op s fs walked answer).2 := by
  unfold dirCall
  split
  · exact h
  · next fsys hfs =>
      split
      · exact h
      · next hright =>
          split
          · refine ⟨h.chain, h.handles, fun op' fs' hmem => ?_, h.regions⟩
            rcases List.mem_cons.mp hmem with heq | hmem
            · cases heq
              exact ⟨fsys, hfs, hright⟩
            · exact h.asked op' fs' hmem
          · exact h

theorem dir_call_fss (op : DirOp) (s : Kern N W) (fs : FsNo) (walked answer : Bool) :
    (dirCall op s fs walked answer).2.fss = s.fss := by
  unfold dirCall
  split
  · rfl
  · split
    · rfl
    · split <;> rfl

theorem Granted.find_or_create (h : Granted s) (fs : FsNo) (mode : UInt32) (a : OpenAnswers) :
    Granted (findOrCreate s fs mode a).2 ∧ (findOrCreate s fs mode a).2.fss = s.fss := by
  unfold findOrCreate
  split
  · exact ⟨h, rfl⟩
  · split
    · exact ⟨h.dir_call .create fs a.walked a.created, dir_call_fss .create s fs _ _⟩
    · exact ⟨h, rfl⟩

theorem Granted.open_file (h : Granted s) (fs : FsNo) (mode : UInt32) (a : OpenAnswers) :
    Granted (fsOpen s fs mode a).2 := by
  unfold fsOpen
  split
  · exact h
  · next fsys hfs =>
      split
      · exact h
      · next hmode =>
          obtain ⟨hfound, hfss⟩ := h.find_or_create fs mode a
          simp only
          split
          · refine hfound.add_handle fun fs' heq => ?_
            cases heq
            refine ⟨fsys, by rw [hfss, hfs], ?_⟩
            have hwithin : Within mode fsys.okModes := Decidable.not_not.mp hmode
            exact ((and_within_left _ _).trans (and_within_left _ _)).trans hwithin
          · exact hfound

theorem Granted.make_fs (h : Granted s) (made : Bool) : Granted (makeFs s made).2 := by
  unfold makeFs
  split
  · exact h.add_fs fun base heq => by cases heq
  · exact h

theorem Granted.subfs (h : Granted s) (fs : FsNo) (okModes : UInt32) (walked : Bool) :
    Granted (fsSubfs s fs okModes walked).2 := by
  unfold fsSubfs
  split
  · exact h
  · next orig hfs =>
      split
      · refine h.add_fs fun base heq => ?_
        cases heq
        exact ⟨orig, hfs, and_within_right _ _⟩
      · exact h

end Steps

section Modes

omit [DecidableEq N]

variable {s : Kern N W}

/-- A mode that differs in `FM_BLOCKING` only grants the same. -/
theorem Granted.set_mode (h : Granted s) {n : HandleNo} {hd : OpenHandle} {mode : UInt32}
    (hn : s.handles[n]? = some hd) (hmasked : mode &&& ~~~fmBlocking = hd.mode &&& ~~~fmBlocking)
    (hwrite : mode &&& fmWrite = hd.mode &&& fmWrite) : Granted (setMode s n mode) where
  chain := h.chain
  handles := fun k kd fs hk hfs => by
    have hk' := hk
    simp only [setMode, List.getElem?_modify] at hk'
    obtain ⟨old, hold, heq⟩ := Option.map_eq_some_iff.mp hk'
    by_cases hkn : n = k
    · subst hkn
      obtain rfl := Option.some.inj (hold.symm.trans hn)
      rw [if_pos rfl] at heq
      subst heq
      rw [hmasked]
      exact h.handles n old fs hold hfs
    · rw [if_neg hkn] at heq
      exact h.handles k kd fs (heq ▸ hold) hfs
  asked := h.asked
  regions := fun p r hr f hfile => by
    obtain ⟨old, hold, heq⟩ := Option.map_eq_some_iff.mp hfile
    obtain ⟨⟨kd, hkd, hmode⟩, hallowed⟩ := h.regions p r hr old hold
    by_cases hid : old.id = n
    · rw [if_pos hid] at heq
      subst heq
      rw [hid] at hkd
      obtain rfl := Option.some.inj (hkd.symm.trans hn)
      refine ⟨⟨{ kd with mode := mode }, ?_, rfl⟩, fun hw => ?_⟩
      · simp [setMode, hid, hn]
      · rw [hwrite, hmode]
        exact hallowed hw
    · rw [if_neg hid] at heq
      subst heq
      refine ⟨⟨kd, ?_, hmode⟩, hallowed⟩
      simp [setMode, hkd, Ne.symm hid]

theorem Granted.fctl (h : Granted s) {n : HandleNo} {hd : OpenHandle}
    (hn : s.handles[n]? = some hd) (command : Fctl) : Granted (fctl s n hd command) := by
  cases command with
  | getMode => exact h
  | setBlocking => exact h.set_mode hn (or_and_not _ _) (or_and_of_disjoint (by decide))
  | setNonblocking =>
      exact h.set_mode hn (and_not_and_not _ _) (and_not_and_of_disjoint (by decide))

end Modes

section Mapping

variable {m : Machine W} {s s' : Vm W} {p : ProcId} {handles : List OpenHandle}

/-- The regions of the processes are backed by these handles. -/
def Backed (handles : List OpenHandle) (s : Vm W) : Prop :=
  ∀ p, ∀ r ∈ (s.proc p).regions, BackedBy handles (s.region r)

section

variable (h : Backed handles s)

include h

theorem Backed.frame (hframe : RegionFrame s s') : Backed handles s' := by
  intro q r hr
  rw [hframe.region]
  rw [hframe.proc] at hr
  exact h q r hr

theorem Backed.added {r : RegionId} {reg : UserRegion}
    (hadded : Added p r reg s s') (hreg : BackedBy handles reg) : Backed handles s' := by
  intro q r' hr'
  by_cases heq : r' = r
  · rw [heq, hadded.region_self]
    exact hreg
  · rw [hadded.region_of_ne heq]
    refine h q r' ?_
    obtain ⟨idx, hidx, hproc⟩ := hadded.linked
    rw [hproc] at hr'
    by_cases hq : q = p
    · rw [hq, Function.update_self] at hr'
      exact hq ▸ (List.mem_cons.mp hr').resolve_left heq
    · rw [Function.update_of_ne hq] at hr'
      exact hr'

theorem Backed.unmapped {r : RegionId} (hunmapped : Unmapped p r s s') :
    Backed handles s' := by
  intro q r' hr'
  rw [hunmapped.region]
  refine h q r' ?_
  obtain ⟨idx, hidx, hproc⟩ := hunmapped.unlinked
  rw [hproc] at hr'
  by_cases hq : q = p
  · rw [hq, Function.update_self] at hr'
    exact hq ▸ List.mem_of_mem_erase hr'
  · rw [Function.update_of_ne hq] at hr'
    exact hr'

/-- `mchmap` makes a region writable only where its handle is. -/
theorem Backed.remoded {r : RegionId} {mode : UInt16}
    (hmode : Remoded r mode s s')
    (hwrite : ∀ f, (s.region r).file = some f → mode &&& mmWrite ≠ 0 → f.mode &&& fmWrite ≠ 0) :
    Backed handles s' := by
  intro q r' hr'
  rw [hmode.proc] at hr'
  have hold := h q r' hr'
  rw [hmode.region]
  by_cases heq : r' = r
  · rw [heq, Function.update_self]
    subst heq
    exact fun f hfile => ⟨(hold f hfile).1, hwrite f hfile⟩
  · rw [Function.update_of_ne heq]
    exact hold

/-- A mapping call keeps the regions backed, where the handle of `mmap_file` is one of these. -/
theorem Backed.perform {call : RegionCall} {done : Bool}
    (hfile : ∀ f offset addr size mode, call = .mmapFile f offset addr size mode →
      ∃ hd : OpenHandle, handles[f.id]? = some hd ∧ hd.mode = f.mode)
    (hrun : call.perform m p s = .ok (done, s')) : Backed handles s' := by
  cases call with
  | mmap addr size mode =>
      rcases mmap_cases hrun with ⟨-, hframe⟩ | ⟨-, r, reg, hmap, -, -, hnone⟩
      · exact h.frame hframe
      · exact h.added hmap.toAdded fun f hf => by
          rw [hnone] at hf
          cases hf
  | mmapFile f offset addr size mode =>
      rcases mmap_file_cases hrun with
        ⟨-, hframe⟩ | ⟨-, -, hmode, r, reg, hmap, -, -, -, -, hsome, hregmode⟩
      · exact h.frame hframe
      · refine h.added hmap.toAdded fun f' hf => ?_
        rw [hsome] at hf
        cases hf
        refine ⟨hfile f offset addr size mode rfl, fun hw hno => ?_⟩
        rw [hregmode] at hw
        simp [modeRefused, hw, hno] at hmode
  | munmap addr =>
      rcases munmap_cases hrun with ⟨-, hframe⟩ | ⟨-, r, -, hunmapped⟩
      · exact h.frame hframe
      · exact h.unmapped hunmapped
  | mchmap addr mode =>
      rcases mchmap_cases hrun with ⟨-, hframe⟩ | ⟨-, r, -, hmode, hwrite⟩
      · exact h.frame hframe
      · exact h.remoded hmode hwrite

end

end Mapping

section Run

variable {m : Machine W} {s s' : Kern N W}

omit [DecidableEq N] in
theorem Granted.mapping (h : Granted s) {p : ProcId} {call : RegionCall}
    (hfile : ∀ f offset addr size mode, call = .mmapFile f offset addr size mode →
      ∃ hd : OpenHandle, s.handles[f.id]? = some hd ∧ hd.mode = f.mode)
    (hstep : mapping m s p call = some s') : Granted s' := by
  unfold Rights.mapping at hstep
  split at hstep
  · next done vm hrun =>
      cases hstep
      exact ⟨h.chain, h.handles, h.asked, Backed.perform h.regions hfile hrun⟩
  · cases hstep

theorem Granted.proc_add_fs (h : Granted s) (p : ProcId) (fs : FsNo) (name : N) (added : Bool) :
    Granted (procAddFs s p fs name added) := by
  unfold procAddFs
  split
  · exact h
  · exact h.tables rfl rfl rfl rfl

omit [DecidableEq N] in
theorem Granted.proc_add_fd_as (h : Granted s) (p : ProcId) (n : HandleNo) (fd : Int32)
    (added : Bool) : Granted (procAddFdAs s p n fd added) := by
  unfold procAddFdAs
  split
  · exact h
  · exact h.tables rfl rfl rfl rfl

omit [DecidableEq N] in
theorem Granted.keep_new {α : Type} {add : Kern N W → α → Kern N W} {made : Option α × Kern N W}
    (h : Granted made.2) (hadd : ∀ s a, Granted s → Granted (add s a)) :
    Granted (keepNew add made) := by
  obtain ⟨a, s⟩ := made
  cases a with
  | none => exact h
  | some a => exact hadd s a h

/-- Every system call keeps what has been granted. -/
theorem Granted.step (h : Granted s) {event : Event N} (hstep : step m s event = some s') :
    Granted s' := by
  cases event with
  | makeFs target name made added =>
      cases hstep
      exact (h.make_fs made).keep_new fun s fs hs => hs.proc_add_fs target fs name added
  | subfs caller target fromFs newName okModes walked added =>
      simp only [Rights.step] at hstep
      split at hstep <;> cases hstep
      · exact h
      · next fs _ =>
          exact (h.subfs fs okModes walked).keep_new fun s fs hs =>
            hs.proc_add_fs target fs newName added
  | bindFs caller child oldName newName added =>
      simp only [Rights.step] at hstep
      split at hstep <;> cases hstep
      · exact h
      · exact h.proc_add_fs child _ newName added
  | rmFs caller name =>
      cases hstep
      exact h.tables rfl rfl rfl rfl
  | dirCall caller name op walked answer =>
      simp only [Rights.step] at hstep
      split at hstep
      · cases hstep
        exact h
      · next fs _ =>
          cases op with
          | create =>
              cases hstep
              exact h.dir_call .create fs walked answer
          | delete =>
              cases hstep
              exact h.dir_call .delete fs walked answer
          | move =>
              cases hstep
              exact h.dir_call .move fs walked answer
  | openFile caller name mode answers added =>
      simp only [Rights.step] at hstep
      split at hstep <;> cases hstep
      · exact h
      · next fs _ =>
          exact (h.open_file fs mode answers).keep_new fun s n hs => hs.tables rfl rfl rfl rfl
  | makeIpc caller mode pager added =>
      cases hstep
      have hnew : Granted { s with
          handles := s.handles ++ [{ mode := mode, fs := none, pager := pager }] } :=
        h.add_handle fun fs heq => by cases heq
      exact hnew.tables rfl rfl rfl rfl
  | useToken caller n added =>
      cases hstep
      exact h.tables rfl rfl rfl rfl
  | bindFd caller child newFd fd added =>
      simp only [Rights.step] at hstep
      split at hstep <;> cases hstep
      · exact h
      · exact h.proc_add_fd_as child _ newFd added
  | closeFd caller fd =>
      cases hstep
      exact h.tables rfl rfl rfl rfl
  | fctl caller fd command =>
      simp only [Rights.step] at hstep
      split at hstep
      · cases hstep
        exact h
      · split at hstep
        · cases hstep
        · next hn =>
            cases hstep
            exact h.fctl hn command
  | mmap caller addr size mode =>
      exact h.mapping (fun f offset addr size mode heq => by cases heq) hstep
  | mmapFile caller fd offset addr size mode =>
      simp only [Rights.step] at hstep
      split at hstep
      · cases hstep
        exact h
      · split at hstep
        · cases hstep
        · next hd hn =>
            refine h.mapping (fun f offset addr size mode heq => ?_) hstep
            cases heq
            exact ⟨hd, hn, rfl⟩
  | mchmap caller addr mode =>
      exact h.mapping (fun f offset addr size mode heq => by cases heq) hstep
  | munmap caller addr =>
      exact h.mapping (fun f offset addr size mode heq => by cases heq) hstep

/-- Rights only shrink, in every state that system calls lead to. -/
theorem rights_attenuated (hs : Reachable (runs m) s) : Attenuated s := by
  have hgranted : Granted s := by
    refine Reachable.induct (motive := Granted) ?_ ?_ hs
    · intro s hinit
      exact Kern.Initial.granted hinit
    · intro s s' h hnext
      obtain ⟨event, -, hstep⟩ := hnext
      exact h.step hstep
  exact hgranted.attenuated

end Run

section Example

/-- Nothing has been made yet, with numbers for names. -/
def start : Kern Nat Unit where
  vm := Vm.blank
  fss := []
  handles := []
  filesystems := fun _ _ => none
  files := fun _ _ => none
  nextFd := fun _ => 1
  asked := []

/-- The file is created, and opened with its pager. -/
def createdAnswers : OpenAnswers :=
  { found := false, walked := true, created := true, foundAgain := true, opened := true
    pager := some 0 }

/-- A process makes a file system, gives its child a part of it for creating and mapping files,
and the child creates a file there, maps it and asks for a writable mapping. -/
def sandboxed : List (Event Nat) :=
  [.makeFs 1 10 true true, .subfs 1 2 10 20 0x1019 true true,
   .openFile 2 20 0x19 createdAnswers true, .fctl 2 1 .setBlocking,
   .mmapFile 2 1 0 0x1000 0x1000 1, .mchmap 2 0x1000 3]

/-- The driver was asked through the part, and the region stays read-only like its handle. -/
theorem rights_attenuated_sandboxed : ∃ s : Kern Nat Unit,
    s.handles = [{ mode := 0x209, fs := some 1, pager := some 0 }] ∧ s.asked = [(.create, 1)] ∧
    (s.vm.proc 2).regions.map (fun r => (s.vm.region r).mode) = [1] ∧ Attenuated s := by
  have hrun : (runEvents (step Machine.steady) (fun _ _ => true) sandboxed start).map
      (fun s => (s.handles, s.asked, (s.vm.proc 2).regions.map fun r => (s.vm.region r).mode)) =
      some ([{ mode := 0x209, fs := some 1, pager := some 0 }], [(.create, 1)], [1]) := by
    decide +kernel
  obtain ⟨s, hs, heq⟩ := Option.map_eq_some_iff.mp hrun
  obtain ⟨hhandles, hrest⟩ := Prod.mk.inj heq
  obtain ⟨hasked, hmodes⟩ := Prod.mk.inj hrest
  refine ⟨s, hhandles, hasked, hmodes, rights_attenuated (m := Machine.steady) ?_⟩
  exact Reachable.run_events (fun _ _ _ => trivial)
    (.init ⟨rfl, rfl, rfl, fun _ => rfl⟩) hs

end Example

end Kogata.Kernel.Rights
