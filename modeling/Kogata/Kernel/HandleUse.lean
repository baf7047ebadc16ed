import Kogata.Kernel.Vfs
import Kogata.Lib.Run
import Kogata.Lib.Tally

/-!
# Handles in system calls

The threads of one process at its table of descriptors and its table of file systems.
`proc_read_fd` and `proc_find_fs` release the mutex of the process and hand out a pointer without
a reference of its own, so a `close_sc` or an `rm_fs_sc` of another thread may free what a system
call is working with (`handles_outlive_use`). Each section that a mutex protects is one step.
-/

namespace Kogata.Kernel

open Lib.Run Lib.Tally

/-- The address of an `fs_t`. -/
abbrev FsId := Nat

/-- The fields of `fs_handle_t` that matter for its lifetime. -/
structure HandleRefs where
  fs : Option FsId
  refs : Nat
  deriving DecidableEq

/-- The system calls. -/
inductive Syscall where
  | read (fd : Int)
  | write (fd : Int)
  | select (fds : List Int)
  | mmapFile (fd : Int)
  | close (fd : Int)
  | open (fs : Name)
  | rmFs (fs : Name)
  deriving DecidableEq

/-- Where a thread is: outside, in `file_read` or `file_write`, in front of the next descriptor of
`select_sc`, in front of its `file_poll`, in `mmap_file` before `ref_file`, in `fs_open` before
`ref_fs`, before `proc_add_fd`, and between the two sections of `proc_rm_fs`. -/
inductive SyscallPc where
  | outside
  | transfer (h : HandleId)
  | select (fds rest : List Int)
  | poll (h : HandleId) (fds rest : List Int)
  | map (h : HandleId)
  | open (fs : FsId)
  | add (h : HandleId)
  | remove (name : Name) (fs : FsId)
  deriving DecidableEq

/-- The handle that the thread has from `proc_read_fd` and has not finished with. -/
def SyscallPc.handle : SyscallPc → Option HandleId
  | .transfer h | .poll h _ _ | .map h => some h
  | _ => none

/-- The file system that the thread has from `proc_find_fs` and has not finished with. -/
def SyscallPc.fs : SyscallPc → Option FsId
  | .open fs | .remove _ fs => some fs
  | _ => none

/-- The tables of the process, the handles and file systems in memory, and the threads. -/
structure HandleState (T : Type) where
  files : List (Int × HandleId)
  nextFd : Int
  filesystems : List (Name × FsId)
  handle : HandleId → Option HandleRefs
  nextHandle : HandleId
  /-- `refs` of the file systems in memory. -/
  fs : FsId → Option Nat
  /-- The references among these that the nodes in memory have. -/
  nodes : FsId → Nat
  thread : T → SyscallPc

namespace HandleState

variable {T : Type}

/-- `unref_fs`. -/
def unrefFs (s : HandleState T) (fs : FsId) : Option (HandleState T) :=
  (s.fs fs).map fun refs =>
    { s with fs := Function.update s.fs fs (if refs - 1 = 0 then none else some (refs - 1)) }

/-- `unref_file`. The node of the handle has its own references, which go in steps of their own. -/
def unrefFile (s : HandleState T) (h : HandleId) : Option (HandleState T) :=
  match s.handle h with
  | none => none
  | some file =>
      if file.refs - 1 = 0 then
        let s := { s with handle := Function.update s.handle h none }
        match file.fs with
        | none => some s
        | some fs => s.unrefFs fs
      else some { s with
        handle := Function.update s.handle h (some { file with refs := file.refs - 1 }) }

variable [DecidableEq T]

/-- The thread is at another place. -/
def goto (s : HandleState T) (t : T) (pc : SyscallPc) : HandleState T :=
  { s with thread := Function.update s.thread t pc }

/-- `proc_read_fd`, and where the thread goes with the handle. -/
def procReadFd (s : HandleState T) (t : T) (fd : Int) (use : HandleId → SyscallPc)
    (none : SyscallPc) : HandleState T :=
  s.goto t ((s.files.lookup fd).elim none use)

/-- `proc_close_fd`. -/
def procCloseFd (s : HandleState T) (fd : Int) : Option (HandleState T) :=
  match s.files.lookup fd with
  | none => some s
  | some h => (s.unrefFile h).map fun s =>
      { s with files := s.files.filter fun e => e.1 != fd }

/-- The second section of `proc_rm_fs`. -/
def procRmFs (s : HandleState T) (name : Name) (fs : FsId) : Option (HandleState T) :=
  (s.unrefFs fs).map fun s =>
    { s with filesystems := s.filesystems.filter fun e => e.1 != name }

/-- A system call begins. -/
def enter (s : HandleState T) (t : T) : Syscall → Option (HandleState T)
  | .read fd | .write fd => some (s.procReadFd t fd .transfer .outside)
  | .select fds => some (s.goto t (.select fds fds))
  | .mmapFile fd => some (s.procReadFd t fd .map .outside)
  | .close fd => s.procCloseFd fd
  | .open name => some (s.goto t ((s.filesystems.lookup name).elim .outside .open))
  | .rmFs name => some (s.goto t ((s.filesystems.lookup name).elim .outside (.remove name)))

/-- The next step of a system call. `go` says whether the file operation or the loop of
`select_sc` goes on, whether `mmap_file` and `fs_open` succeed, and whether `hashtbl_add` does. -/
def callStep (s : HandleState T) (t : T) (go : Bool) : Option (HandleState T) :=
  match s.thread t with
  | .outside => none
  | .transfer h => some (s.goto t (if go then .transfer h else .outside))
  | .select fds [] => some (s.goto t (if go then .select fds fds else .outside))
  | .select fds (fd :: rest) =>
      some (s.procReadFd t fd (fun h => .poll h fds rest) (.select fds rest))
  | .poll _ fds rest => some (s.goto t (.select fds rest))
  | .map h =>
      if go then
        (s.handle h).map fun file => { s.goto t .outside with
          handle := Function.update s.handle h (some { file with refs := file.refs + 1 }) }
      else some (s.goto t .outside)
  | .open fs =>
      if go then
        (s.fs fs).map fun refs => { s.goto t (.add s.nextHandle) with
          handle := Function.update s.handle s.nextHandle (some { fs := some fs, refs := 1 })
          nextHandle := s.nextHandle + 1
          fs := Function.update s.fs fs (some (refs + 1)) }
      else some (s.goto t .outside)
  | .add h =>
      if go then some { s.goto t .outside with
        files := (s.nextFd, h) :: s.files
        nextFd := s.nextFd + 1 }
      else (s.unrefFile h).map fun s => { s.goto t .outside with nextFd := s.nextFd + 1 }
  | .remove name fs => (s.procRmFs name fs).map fun s => s.goto t .outside

end HandleState

/-- What may happen next: a thread enters a system call or goes on with it, or a node of a file
system comes into memory or is freed. -/
inductive HandleEvent (T : Type) where
  | enter (t : T) (call : Syscall)
  | step (t : T) (go : Bool)
  | grab (fs : FsId)
  | release (fs : FsId)
  deriving DecidableEq

/-- The state after an event. -/
def handleStep {T : Type} [DecidableEq T] (s : HandleState T) :
    HandleEvent T → Option (HandleState T)
  | .enter t call => if s.thread t = .outside then s.enter t call else none
  | .step t go => s.callStep t go
  | .grab fs => (s.fs fs).map fun refs => { s with
      fs := Function.update s.fs fs (some (refs + 1))
      nodes := Function.update s.nodes fs (s.nodes fs + 1) }
  | .release fs =>
      if s.nodes fs = 0 then none
      else HandleState.unrefFs { s with
        nodes := Function.update s.nodes fs (s.nodes fs - 1) } fs

section Use

variable {T : Type}

/-- The descriptors that are bound to a handle. -/
def HandleState.bound (s : HandleState T) (h : HandleId) : Nat :=
  s.files.countP fun e => e.2 == h

/-- The names that are bound to a file system. -/
def HandleState.mounted (s : HandleState T) (fs : FsId) : Nat :=
  s.filesystems.countP fun e => e.2 == fs

/-- The handles of a file system. -/
def HandleState.opened (s : HandleState T) (fs : FsId) : Nat :=
  Nat.count (fun h => (s.handle h).bind HandleRefs.fs = some fs) s.nextHandle

/-- `refs` of a handle, `0` when there is none. -/
def HandleState.refs (s : HandleState T) (h : HandleId) : Nat :=
  ((s.handle h).map HandleRefs.refs).getD 0

/-- `refs` of a file system, `0` when there is none. -/
def HandleState.fsRefs (s : HandleState T) (fs : FsId) : Nat :=
  (s.fs fs).getD 0

/-- A process between two system calls: handles and file systems have the references of the tables
at least, and those in memory have some. -/
structure HandleState.Initial (s : HandleState T) : Prop where
  handles : ∀ h, s.bound h ≤ s.refs h
  filesystems : ∀ fs, s.mounted fs + s.opened fs + s.nodes fs ≤ s.fsRefs fs
  live : ∀ h file, s.handle h = some file → file.refs ≠ 0
  liveFs : ∀ fs, s.fs fs ≠ some 0
  fresh : ∀ h, s.nextHandle ≤ h → s.handle h = none
  outside : ∀ t, s.thread t = .outside

/-- What every system call in progress has from the tables is still in memory. -/
def UseAlive (s : HandleState T) : Prop :=
  ∀ t, (∀ h, (s.thread t).handle = some h → s.handle h ≠ none) ∧
    ∀ fs, (s.thread t).fs = some fs → s.fs fs ≠ none

/-- One reference of a file system is left, and a thread other than `t` is using it. -/
def LastFs (s : HandleState T) (t : Option T) (fs : FsId) : Prop :=
  s.fs fs = some 1 ∧ ∃ u, some u ≠ t ∧ (s.thread u).fs = some fs

/-- One reference of a handle is left, and a thread other than `t` is using it, or its file system
which it is the last to refer to. -/
def LastHandle (s : HandleState T) (t : T) (h : HandleId) : Prop :=
  s.refs h = 1 ∧ ((∃ u, u ≠ t ∧ (s.thread u).handle = some h) ∨
    ∃ fs, (s.handle h).bind HandleRefs.fs = some fs ∧ LastFs s (some t) fs)

/-- The event drops the last reference of something that another thread is using: by closing the
descriptor, by removing the file system, by taking back a handle that could not be added, or with
a node. So does the second of two threads that remove the same name: the reference of the table
has gone with the first. -/
def PullsAway (s : HandleState T) : HandleEvent T → Prop
  | .enter t (.close fd) => ∃ h, s.files.lookup fd = some h ∧ LastHandle s t h
  | .step t go =>
      match s.thread t with
      | .add h => go = false ∧ LastHandle s t h
      | .remove name fs => LastFs s (some t) fs ∨ s.filesystems.lookup name ≠ some fs
      | _ => False
  | .release fs => LastFs s none fs
  | _ => False

/-- The references in memory cover what is owed to the tables and to the handles. -/
structure Accounts (s : HandleState T) (owed : HandleId → Nat) (owedFs : FsId → Nat) : Prop where
  handles : ∀ h, owed h ≤ s.refs h
  filesystems : ∀ fs, owedFs fs + s.opened fs ≤ s.fsRefs fs
  live : ∀ h file, s.handle h = some file → file.refs ≠ 0
  liveFs : ∀ fs, s.fs fs ≠ some 0
  fresh : ∀ h, s.nextHandle ≤ h → s.handle h = none

variable {s s' : HandleState T} {owed owed' : HandleId → Nat} {owedFs owedFs' : FsId → Nat}

theorem Accounts.mono (h : Accounts s owed owedFs) (hle : ∀ k, owed' k ≤ owed k)
    (hleFs : ∀ fs, owedFs' fs ≤ owedFs fs) : Accounts s owed' owedFs' where
  handles := fun k => Nat.le_trans (hle k) (h.handles k)
  filesystems := fun fs => Nat.le_trans (Nat.add_le_add_right (hleFs fs) _) (h.filesystems fs)
  live := h.live
  liveFs := h.liveFs
  fresh := h.fresh

/-- The accounts are kept over the handles and file systems in memory. -/
theorem Accounts.congr (h : Accounts s owed owedFs) (hhandle : s'.handle = s.handle)
    (hnext : s'.nextHandle = s.nextHandle) (hfs : s'.fs = s.fs) : Accounts s' owed owedFs := by
  obtain ⟨files, nextFd, filesystems, handle, nextHandle, fs, nodes, thread⟩ := s'
  cases hhandle
  cases hnext
  cases hfs
  exact ⟨h.handles, h.filesystems, h.live, h.liveFs, h.fresh⟩

/-- What `unref_fs` changes. -/
theorem unref_fs_eq {fs : FsId} (h : s.unrefFs fs = some s') : ∃ refs, s.fs fs = some refs ∧
    s' = { s with
      fs := Function.update s.fs fs (if refs - 1 = 0 then none else some (refs - 1)) } := by
  obtain ⟨refs, hrefs, rfl⟩ := Option.map_eq_some_iff.mp h
  exact ⟨refs, hrefs, rfl⟩

/-- `unref_fs` gives back one reference. -/
theorem Accounts.unref_fs {fs : FsId}
    (h : Accounts s owed fun k => owedFs k + if k = fs then 1 else 0)
    (hstep : s.unrefFs fs = some s') : Accounts s' owed owedFs := by
  obtain ⟨refs, hrefs, rfl⟩ := unref_fs_eq hstep
  refine ⟨h.handles, fun k => ?_, h.live, fun k => ?_, h.fresh⟩
  · have hle := h.filesystems k
    show owedFs k + s.opened k ≤ (Function.update s.fs fs _ k).getD 0
    by_cases hk : k = fs
    · subst hk
      rw [if_pos rfl, HandleState.fsRefs, hrefs] at hle
      change owedFs k + 1 + s.opened k ≤ refs at hle
      rw [Function.update_self]
      split
      · show _ ≤ 0
        omega
      · show _ ≤ refs - 1
        omega
    · rw [Function.update_of_ne hk]
      rw [if_neg hk] at hle
      exact hle
  · show Function.update s.fs fs _ k ≠ some 0
    by_cases hk : k = fs
    · rw [hk, Function.update_self]
      split
      · exact nofun
      · next hne => exact fun heq => hne (Option.some.inj heq)
    · rw [Function.update_of_ne hk]
      exact h.liveFs k

/-- A handle leaves the memory: its reference of the file system is to be given back. -/
theorem Accounts.free (h : Accounts s owed owedFs) {x : HandleId} {file : HandleRefs}
    (hx : s.handle x = some file) (howed : owed x = 0) :
    Accounts { s with handle := Function.update s.handle x none } owed
      fun k => owedFs k + if some k = file.fs then 1 else 0 := by
  have hlt : x < s.nextHandle := by
    by_contra hge
    rw [h.fresh x (Nat.le_of_not_lt hge)] at hx
    cases hx
  refine ⟨fun k => ?_, fun k => ?_, fun k file' hk => ?_, h.liveFs, fun k hk => ?_⟩
  · show owed k ≤ ((Function.update s.handle x none k).map HandleRefs.refs).getD 0
    by_cases hkx : k = x
    · rw [hkx, howed]
      exact Nat.zero_le _
    · rw [Function.update_of_ne hkx]
      exact h.handles k
  · have hle := h.filesystems k
    have hself : ¬ ((Function.update s.handle x none x).bind HandleRefs.fs = some k) := by
      rw [Function.update_self]
      exact nofun
    have hother : ∀ i, i ≠ x → ((Function.update s.handle x none i).bind HandleRefs.fs = some k ↔
        (s.handle i).bind HandleRefs.fs = some k) := by
      intro i hi
      rw [Function.update_of_ne hi]
    show _ + Nat.count (fun i => (Function.update s.handle x none i).bind HandleRefs.fs = some k)
      s.nextHandle ≤ s.fsRefs k
    by_cases hk : some k = file.fs
    · have hcount := count_insert hlt hself (by rw [hx]; exact hk.symm) hother
      rw [if_pos hk]
      change owedFs k + Nat.count (fun i => (s.handle i).bind HandleRefs.fs = some k)
        s.nextHandle ≤ s.fsRefs k at hle
      omega
    · have hcount : Nat.count (fun i => (Function.update s.handle x none i).bind
          HandleRefs.fs = some k) s.nextHandle = s.opened k := by
        refine count_congr fun i _ => ?_
        by_cases hi : i = x
        · rw [hi, hx]
          exact ⟨fun heq => absurd heq hself, fun heq => absurd heq.symm hk⟩
        · exact hother i hi
      rw [if_neg hk, hcount]
      exact hle
  · change Function.update s.handle x none k = some file' at hk
    by_cases hkx : k = x
    · rw [hkx, Function.update_self] at hk
      cases hk
    · rw [Function.update_of_ne hkx] at hk
      exact h.live k file' hk
  · show Function.update s.handle x none k = none
    by_cases hkx : k = x
    · rw [hkx, Function.update_self]
    · rw [Function.update_of_ne hkx]
      exact h.fresh k hk

/-- The number of references of a handle changes to one that covers what is owed. -/
theorem Accounts.set_refs (h : Accounts s owed owedFs) {x : HandleId} {file : HandleRefs}
    {refs : Nat} (hx : s.handle x = some file) (hne : refs ≠ 0)
    (hle : ∀ k, k ≠ x → owed' k ≤ owed k) (hself : owed' x ≤ refs) :
    Accounts { s with handle := Function.update s.handle x (some { file with refs := refs }) }
      owed' owedFs := by
  refine ⟨fun k => ?_, fun k => ?_, fun k file' hk => ?_, h.liveFs, fun k hk => ?_⟩
  · show owed' k ≤ ((Function.update s.handle x _ k).map HandleRefs.refs).getD 0
    by_cases hkx : k = x
    · rw [hkx, Function.update_self]
      exact hself
    · rw [Function.update_of_ne hkx]
      exact Nat.le_trans (hle k hkx) (h.handles k)
  · have hcount : Nat.count (fun i => (Function.update s.handle x
        (some { file with refs := refs }) i).bind HandleRefs.fs = some k) s.nextHandle =
          s.opened k := by
      refine count_congr fun i _ => ?_
      by_cases hi : i = x
      · rw [hi, Function.update_self, hx]
        rfl
      · rw [Function.update_of_ne hi]
    show _ + Nat.count _ s.nextHandle ≤ s.fsRefs k
    rw [hcount]
    exact h.filesystems k
  · change Function.update s.handle x _ k = some file' at hk
    by_cases hkx : k = x
    · rw [hkx, Function.update_self] at hk
      cases hk
      exact hne
    · rw [Function.update_of_ne hkx] at hk
      exact h.live k file' hk
  · show Function.update s.handle x _ k = none
    by_cases hkx : k = x
    · have hgone := h.fresh k hk
      rw [hkx, hx] at hgone
      cases hgone
    · rw [Function.update_of_ne hkx]
      exact h.fresh k hk

/-- `unref_file` gives back one reference. -/
theorem Accounts.unref_file {x : HandleId}
    (h : Accounts s (fun k => owed k + if k = x then 1 else 0) owedFs)
    (hstep : s.unrefFile x = some s') : Accounts s' owed owedFs := by
  have hle := h.handles x
  rw [if_pos rfl] at hle
  unfold HandleState.unrefFile at hstep
  split at hstep
  · cases hstep
  · next file hx =>
      rw [HandleState.refs, hx] at hle
      change owed x + 1 ≤ file.refs at hle
      split at hstep
      · next hlast =>
          have hwithout : Accounts s owed owedFs :=
            h.mono (fun k => Nat.le_add_right ..) fun _ => Nat.le_refl _
          have hfree := hwithout.free hx (by omega)
          split at hstep
          · next hnofs =>
              cases hstep
              exact hfree.mono (fun _ => Nat.le_refl _) fun _ => Nat.le_add_right ..
          · next fs hfs =>
              refine Accounts.unref_fs (hfree.mono (fun _ => Nat.le_refl _) fun k => ?_) hstep
              rw [hfs]
              by_cases hk : k = fs
              · rw [if_pos hk, if_pos (congrArg some hk)]
              · rw [if_neg hk, if_neg fun heq => hk (Option.some.inj heq)]
      · next hmore =>
          cases hstep
          refine h.set_refs hx hmore (fun k hk => ?_) (by omega)
          rw [if_neg hk]
          exact Nat.le_refl _

/-- `unref_fs` frees a file system only with its last reference. -/
theorem unref_fs_gone (h : Accounts s owed owedFs) {fs k : FsId}
    (hstep : s.unrefFs fs = some s') (hgone : s'.fs k = none) (hbefore : s.fs k ≠ none) :
    k = fs ∧ s.fs fs = some 1 := by
  obtain ⟨refs, hrefs, rfl⟩ := unref_fs_eq hstep
  change Function.update s.fs fs _ k = none at hgone
  by_cases hk : k = fs
  · rw [hk, Function.update_self] at hgone
    split at hgone
    · next hlast =>
        have hne : refs ≠ 0 := fun hzero => h.liveFs fs (hzero ▸ hrefs)
        exact ⟨hk, by rw [hrefs]; congr 1; omega⟩
    · cases hgone
  · rw [Function.update_of_ne hk] at hgone
    exact absurd hgone hbefore

/-- `unref_file` changes only the handles and file systems in memory, and it frees a handle with its
last reference, and the file system with this. -/
structure Unreferenced (x : HandleId) (s s' : HandleState T) : Prop where
  frame : s' = { s with handle := s'.handle, fs := s'.fs }
  handle : ∀ k, s'.handle k = none → s.handle k ≠ none → k = x ∧ s.refs x = 1
  fs : ∀ k, s'.fs k = none → s.fs k ≠ none →
    s.refs x = 1 ∧ (s.handle x).bind HandleRefs.fs = some k ∧ s.fs k = some 1

theorem unref_file_unreferenced (h : Accounts s owed owedFs) {x : HandleId}
    (hstep : s.unrefFile x = some s') : Unreferenced x s s' := by
  unfold HandleState.unrefFile at hstep
  split at hstep
  · cases hstep
  · next file hx =>
      have hold : ∀ {value : Option HandleRefs} {k : HandleId}, k ≠ x →
          Function.update s.handle x value k = s.handle k := fun hk => Function.update_of_ne hk ..
      split at hstep
      · next hlast =>
          have hone : s.refs x = 1 := by
            have hne := h.live x file hx
            rw [HandleState.refs, hx]
            show file.refs = 1
            omega
          have hgone : ∀ k, Function.update s.handle x none k = none → s.handle k ≠ none →
              k = x ∧ s.refs x = 1 := by
            intro k hk hbefore
            by_cases hkx : k = x
            · exact ⟨hkx, hone⟩
            · rw [hold hkx] at hk
              exact absurd hk hbefore
          split at hstep
          · cases hstep
            exact ⟨rfl, hgone, fun k hk hbefore => absurd hk hbefore⟩
          · next fs hfs =>
              obtain ⟨refs, hrefs, rfl⟩ := unref_fs_eq hstep
              refine ⟨rfl, hgone, fun k hk hbefore => ?_⟩
              obtain ⟨rfl, hlastFs⟩ := unref_fs_gone (s := s) h
                (Option.map_eq_some_iff.mpr ⟨refs, hrefs, rfl⟩) hk hbefore
              exact ⟨hone, by rw [hx]; exact hfs, hlastFs⟩
      · cases hstep
        refine ⟨rfl, fun k hk hbefore => ?_, fun k hk hbefore => absurd hk hbefore⟩
        by_cases hkx : k = x
        · rw [hkx] at hk
          change Function.update s.handle x _ x = none at hk
          rw [Function.update_self] at hk
          cases hk
        · exact absurd ((hold hkx).symm.trans hk) hbefore

/-- What the other threads use outlives an `unref_file` that is not the last. -/
theorem UseAlive.unref_file (h : UseAlive s) {x : HandleId} {t u : T}
    (hunref : Unreferenced x s s') (hlast : ¬ LastHandle s t x) (hu : u ≠ t) :
    (∀ k, (s.thread u).handle = some k → s'.handle k ≠ none) ∧
      ∀ fs, (s.thread u).fs = some fs → s'.fs fs ≠ none := by
  constructor
  · intro k hk hgone
    obtain ⟨rfl, hone⟩ := hunref.handle k hgone ((h u).1 k hk)
    exact hlast ⟨hone, .inl ⟨u, hu, hk⟩⟩
  · intro fs hfs hgone
    obtain ⟨hone, hof, hlastFs⟩ := hunref.fs fs hgone ((h u).2 fs hfs)
    exact hlast ⟨hone, .inr ⟨fs, hof, hlastFs, u, fun heq => hu (Option.some.inj heq), hfs⟩⟩

/-- The same for `unref_fs`. -/
theorem UseAlive.unref_fs (h : UseAlive s) (hacc : Accounts s owed owedFs) {fs : FsId}
    {t : Option T} {u : T} (hstep : s.unrefFs fs = some s') (hlast : ¬ LastFs s t fs)
    (hu : some u ≠ t) : (∀ k, (s.thread u).handle = some k → s'.handle k ≠ none) ∧
      ∀ k, (s.thread u).fs = some k → s'.fs k ≠ none := by
  have hgone := fun k => unref_fs_gone hacc (k := k) hstep
  obtain ⟨refs, hrefs, rfl⟩ := unref_fs_eq hstep
  refine ⟨(h u).1, fun k hk hnone => ?_⟩
  obtain ⟨rfl, hone⟩ := hgone k hnone ((h u).2 k hk)
  exact hlast ⟨hone, u, hu, hk⟩

open Classical in
/-- The thread that is about to add the handle to the table has a reference of it. -/
noncomputable def HandleState.adders (s : HandleState T) (h : HandleId) : Nat :=
  if ∃ t, s.thread t = .add h then 1 else 0

theorem adders_of_add {t : T} {x : HandleId} (h : s.thread t = .add x) : s.adders x = 1 :=
  if_pos ⟨t, h⟩

theorem adders_le {k : HandleId} (h : ∀ t, s'.thread t = .add k → ∃ u, s.thread u = .add k) :
    s'.adders k ≤ s.adders k := by
  unfold HandleState.adders
  split
  · next hex =>
      obtain ⟨t, ht⟩ := hex
      rw [if_pos (h t ht)]
  · exact Nat.zero_le _

/-- What holds along a run in which nothing is pulled away. -/
structure UseInv (s : HandleState T) : Prop extends
    Accounts s (fun h => s.bound h + s.adders h) (fun fs => s.mounted fs + s.nodes fs) where
  single : ∀ t u h, s.thread t = .add h → s.thread u = .add h → t = u
  alive : UseAlive s

/-- A descriptor that is bound leads to a handle in memory. -/
theorem UseInv.read_fd (h : UseInv s) {fd : Int} {x : HandleId}
    (hx : s.files.lookup fd = some x) : s.handle x ≠ none := by
  intro hnone
  have hpos : 0 < s.bound x := countP_pos_of_lookup hx
  have hle := h.handles x
  rw [HandleState.refs, hnone] at hle
  change s.bound x + s.adders x ≤ 0 at hle
  omega

/-- A name that is bound leads to a file system in memory. -/
theorem UseInv.find_fs (h : UseInv s) {name : Name} {fs : FsId}
    (hfs : s.filesystems.lookup name = some fs) : s.fs fs ≠ none := by
  intro hnone
  have hpos : 0 < s.mounted fs := countP_pos_of_lookup hfs
  have hle := h.filesystems fs
  rw [HandleState.fsRefs, hnone] at hle
  change s.mounted fs + s.nodes fs + s.opened fs ≤ 0 at hle
  omega

end Use

section Steps

variable {T : Type} [DecidableEq T] {s s' : HandleState T} {t : T}

theorem goto_thread (u : T) (pc : SyscallPc) :
    (s.goto t pc).thread u = if u = t then pc else s.thread u := by
  show Function.update s.thread t pc u = _
  rw [Function.update_apply]

/-- A thread that is not adding a handle goes where it is not adding one either. -/
theorem adders_goto_le {pc : SyscallPc} (hpc : ∀ x, pc ≠ .add x) (k : HandleId) :
    (s.goto t pc).adders k ≤ s.adders k := by
  refine adders_le fun u hu => ⟨u, ?_⟩
  rw [goto_thread] at hu
  split at hu
  · exact absurd hu (hpc k)
  · exact hu

/-- A thread leaves `proc_add_fd`. -/
theorem adders_leave (hsingle : ∀ t u h, s.thread t = .add h → s.thread u = .add h → t = u)
    {x : HandleId} (hat : s.thread t = .add x) (k : HandleId) :
    (s.goto t .outside).adders k + (if k = x then 1 else 0) ≤ s.adders k := by
  by_cases hk : k = x
  · have hnone : ¬ ∃ u, (s.goto t .outside).thread u = .add x := by
      rintro ⟨u, hu⟩
      rw [goto_thread] at hu
      split at hu
      · cases hu
      · next hne => exact hne (hsingle u t x hu hat)
    rw [hk, if_pos rfl, adders_of_add hat, HandleState.adders, if_neg hnone]
  · rw [if_neg hk]
    exact adders_goto_le (fun _ heq => by cases heq) k

section

variable (h : UseInv s)

include h

/-- A thread goes to a place where it uses something that is in memory. -/
theorem UseInv.goto {pc : SyscallPc} (hpc : ∀ x, pc ≠ .add x)
    (hhandle : ∀ x, pc.handle = some x → s.handle x ≠ none)
    (hfs : ∀ fs, pc.fs = some fs → s.fs fs ≠ none) : UseInv (s.goto t pc) where
  toAccounts := by
    have hsame : Accounts (s.goto t pc) (fun k => s.bound k + s.adders k)
        fun fs => s.mounted fs + s.nodes fs := h.toAccounts.congr rfl rfl rfl
    exact hsame.mono (fun k => Nat.add_le_add_left (adders_goto_le hpc k) _)
      fun _ => Nat.le_refl _
  single := by
    intro u v x hu hv
    rw [goto_thread] at hu hv
    split at hu
    · exact absurd hu (hpc x)
    · split at hv
      · exact absurd hv (hpc x)
      · exact h.single u v x hu hv
  alive := by
    intro u
    rw [goto_thread]
    split
    · exact ⟨hhandle, hfs⟩
    · exact h.alive u

theorem UseInv.leave : UseInv (s.goto t .outside) :=
  h.goto (fun _ heq => by cases heq) (fun _ heq => by cases heq) fun _ heq => by cases heq

/-- `proc_read_fd` in a system call that goes on with the handle, or without one. -/
theorem UseInv.proc_read_fd {fd : Int} {use : HandleId → SyscallPc}
    {other : SyscallPc} (huse : ∀ x, (use x).handle = some x ∧ (use x).fs = none)
    (hother : other.handle = none ∧ other.fs = none) (hadd : ∀ y, other ≠ .add y) :
    UseInv (s.procReadFd t fd use other) := by
  unfold HandleState.procReadFd
  cases hx : s.files.lookup fd with
  | none =>
      refine h.goto hadd (fun x heq => ?_) fun fs heq => ?_
      · exact nomatch hother.1.symm.trans heq
      · exact nomatch hother.2.symm.trans heq
  | some x =>
      refine h.goto (fun y heq => ?_) (fun y heq => ?_) fun fs heq => ?_
      · have hhandle := (huse x).1
        rw [show use x = .add y from heq] at hhandle
        cases hhandle
      · obtain rfl : x = y := Option.some.inj ((huse x).1.symm.trans heq)
        exact h.read_fd hx
      · exact nomatch (huse x).2.symm.trans heq

/-- `proc_close_fd`, called by a thread that uses nothing. -/
theorem UseInv.close_fd {fd : Int} (hout : s.thread t = .outside)
    (hallowed : ¬ PullsAway s (.enter t (.close fd))) (hstep : s.procCloseFd fd = some s') :
    UseInv s' := by
  unfold HandleState.procCloseFd at hstep
  split at hstep
  · cases hstep
    exact h
  · next x hx =>
      obtain ⟨mid, hmid, rfl⟩ := Option.map_eq_some_iff.mp hstep
      have hunref := unref_file_unreferenced h.toAccounts hmid
      -- What is owed for the descriptor pays for the reference that goes.
      have hacc : Accounts mid
          (fun k => (s.files.filter fun e => e.1 != fd).countP (fun e => e.2 == k) + s.adders k)
          fun fs => s.mounted fs + s.nodes fs := by
        refine Accounts.unref_file (h.toAccounts.mono (fun k => ?_) fun _ => Nat.le_refl _) hmid
        have hfilter := countP_filter_lookup hx k
        simp only [beq_iff_eq] at hfilter
        change _ ≤ List.countP _ s.files + _
        omega
      have halive : UseAlive { mid with files := mid.files.filter fun e => e.1 != fd } := by
        intro u
        show (∀ k, (mid.thread u).handle = some k → mid.handle k ≠ none) ∧
          ∀ k, (mid.thread u).fs = some k → mid.fs k ≠ none
        have hthread : mid.thread = s.thread := by rw [hunref.frame]
        rw [hthread]
        by_cases hu : u = t
        · rw [hu, hout]
          exact ⟨fun _ heq => (by cases heq), fun _ heq => (by cases heq)⟩
        · exact h.alive.unref_file hunref (fun hlast => hallowed ⟨x, hx, hlast⟩) hu
      rw [hunref.frame] at hacc halive ⊢
      exact ⟨hacc.congr rfl rfl rfl, h.single, halive⟩

/-- `proc_add_fd`. -/
theorem UseInv.add_fd {x : HandleId} (hat : s.thread t = .add x) :
    UseInv { s.goto t .outside with
      files := (s.nextFd, x) :: s.files
      nextFd := s.nextFd + 1 } := by
  have hleave := h.leave (t := t)
  refine ⟨⟨fun k => ?_, h.filesystems, h.live, h.liveFs, h.fresh⟩, hleave.single, hleave.alive⟩
  have hle := h.handles k
  have hadders := adders_leave h.single hat k
  show List.countP _ ((s.nextFd, x) :: s.files) + (s.goto t .outside).adders k ≤ s.refs k
  rw [List.countP_cons]
  change List.countP _ s.files + _ ≤ _ at hle
  by_cases hk : k = x
  · rw [if_pos hk] at hadders
    rw [if_pos (beq_iff_eq.mpr hk.symm)]
    omega
  · rw [if_neg hk] at hadders
    rw [if_neg fun heq => hk (beq_iff_eq.mp heq).symm]
    omega

/-- A handle that could not be added is given back. -/
theorem UseInv.drop_fd {x : HandleId} (hat : s.thread t = .add x)
    (hlast : ¬ LastHandle s t x) {mid : HandleState T} (hmid : s.unrefFile x = some mid) :
    UseInv { mid.goto t .outside with nextFd := mid.nextFd + 1 } := by
  have hunref := unref_file_unreferenced h.toAccounts hmid
  have hleave := h.leave (t := t)
  have hacc : Accounts mid (fun k => s.bound k + (s.goto t .outside).adders k)
      fun fs => s.mounted fs + s.nodes fs := by
    refine Accounts.unref_file (h.toAccounts.mono (fun k => ?_) fun _ => Nat.le_refl _) hmid
    have hadders := adders_leave h.single hat k
    show s.bound k + _ + _ ≤ s.bound k + s.adders k
    omega
  have halive : UseAlive (mid.goto t .outside) := by
    intro u
    rw [goto_thread]
    show (∀ k, _ → mid.handle k ≠ none) ∧ ∀ k, _ → mid.fs k ≠ none
    split
    · exact ⟨fun _ heq => (by cases heq), fun _ heq => (by cases heq)⟩
    · next hu =>
        have hthread : mid.thread = s.thread := by rw [hunref.frame]
        rw [hthread]
        exact h.alive.unref_file hunref hlast hu
  rw [hunref.frame] at hacc halive ⊢
  exact ⟨hacc.congr rfl rfl rfl, hleave.single, halive⟩

/-- `ref_file` in `mmap_file`. -/
theorem UseInv.ref_file {x : HandleId} {file : HandleRefs}
    (hx : s.handle x = some file) : UseInv { s.goto t .outside with
      handle := Function.update s.handle x (some { file with refs := file.refs + 1 }) } := by
  have hleave := h.leave (t := t)
  have hle := hleave.handles x
  change _ ≤ ((s.handle x).map HandleRefs.refs).getD 0 at hle
  rw [hx] at hle
  refine ⟨hleave.toAccounts.set_refs hx (Nat.succ_ne_zero _) (fun _ _ => Nat.le_refl _)
    (Nat.le_succ_of_le hle), hleave.single, fun u => ⟨fun k hk hgone => ?_, (hleave.alive u).2⟩⟩
  change Function.update s.handle x _ k = none at hgone
  by_cases hkx : k = x
  · rw [hkx, Function.update_self] at hgone
    cases hgone
  · rw [Function.update_of_ne hkx] at hgone
    exact (hleave.alive u).1 k hk hgone

/-- `fs_open` gives a new handle, with a reference of its file system. -/
theorem UseInv.open_file {fs : FsId} {refs : Nat} (hrefs : s.fs fs = some refs) :
    UseInv { s.goto t (.add s.nextHandle) with
      handle := Function.update s.handle s.nextHandle (some { fs := some fs, refs := 1 })
      nextHandle := s.nextHandle + 1
      fs := Function.update s.fs fs (some (refs + 1)) } := by
  have hnew : s.handle s.nextHandle = none := h.fresh _ (Nat.le_refl _)
  have hnone : s.bound s.nextHandle = 0 ∧ s.adders s.nextHandle = 0 := by
    have hle := h.handles s.nextHandle
    rw [HandleState.refs, hnew] at hle
    change _ ≤ 0 at hle
    omega
  have hadd : ∀ u, s.thread u ≠ .add s.nextHandle := by
    intro u hu
    have hone := adders_of_add hu
    omega
  refine ⟨⟨fun k => ?_, fun k => ?_, fun k file hk => ?_, fun k => ?_, fun k hk => ?_⟩,
    fun u v x hu hv => ?_, fun u => ⟨fun k hk hgone => ?_, fun k hk hgone => ?_⟩⟩
  · show s.bound k + (s.goto t (.add s.nextHandle)).adders k ≤
      ((Function.update s.handle s.nextHandle _ k).map HandleRefs.refs).getD 0
    by_cases hk : k = s.nextHandle
    · rw [hk, Function.update_self, hnone.1, Nat.zero_add]
      show _ ≤ 1
      unfold HandleState.adders
      split
      · exact Nat.le_refl 1
      · exact Nat.zero_le 1
    · rw [Function.update_of_ne hk]
      refine Nat.le_trans (Nat.add_le_add_left (adders_le fun u hu => ⟨u, ?_⟩) _) (h.handles k)
      rw [goto_thread] at hu
      split at hu
      · exact absurd (SyscallPc.add.inj hu).symm hk
      · exact hu
  · have hle := h.filesystems k
    have hcount : Nat.count (fun i => (Function.update s.handle s.nextHandle
        (some { fs := some fs, refs := 1 }) i).bind HandleRefs.fs = some k) s.nextHandle =
          s.opened k :=
      count_congr fun i hi => by rw [Function.update_of_ne (Nat.ne_of_lt hi)]
    show s.mounted k + s.nodes k + Nat.count (fun i => (Function.update s.handle s.nextHandle
        (some { fs := some fs, refs := 1 }) i).bind HandleRefs.fs = some k) (s.nextHandle + 1) ≤
      (Function.update s.fs fs _ k).getD 0
    rw [Nat.count_succ, hcount, Function.update_self]
    change s.mounted k + s.nodes k + (s.opened k + if some fs = some k then 1 else 0) ≤ _
    change s.mounted k + s.nodes k + s.opened k ≤ (s.fs k).getD 0 at hle
    by_cases hk : k = fs
    · subst hk
      rw [hrefs] at hle
      rw [Function.update_self, if_pos (show some k = some k from rfl)]
      change _ ≤ refs at hle
      show _ ≤ refs + 1
      omega
    · rw [Function.update_of_ne hk,
        if_neg (show ¬ some fs = some k from fun heq => hk (Option.some.inj heq).symm)]
      omega
  · change Function.update s.handle s.nextHandle _ k = some file at hk
    by_cases hkn : k = s.nextHandle
    · rw [hkn, Function.update_self] at hk
      cases hk
      exact Nat.one_ne_zero
    · rw [Function.update_of_ne hkn] at hk
      exact h.live k file hk
  · show Function.update s.fs fs _ k ≠ some 0
    by_cases hk : k = fs
    · rw [hk, Function.update_self]
      exact fun heq => Nat.succ_ne_zero refs (Option.some.inj heq)
    · rw [Function.update_of_ne hk]
      exact h.liveFs k
  · change s.nextHandle + 1 ≤ k at hk
    show Function.update s.handle s.nextHandle _ k = none
    rw [Function.update_of_ne (Nat.ne_of_gt hk)]
    exact h.fresh k (Nat.le_of_succ_le hk)
  · change (s.goto t _).thread u = _ at hu
    change (s.goto t _).thread v = _ at hv
    rw [goto_thread] at hu hv
    split at hu
    · next hut =>
        split at hv
        · next hvt => rw [hut, hvt]
        · exact absurd (SyscallPc.add.inj hu ▸ hv) (hadd v)
    · split at hv
      · exact absurd (SyscallPc.add.inj hv ▸ hu) (hadd u)
      · exact h.single u v x hu hv
  · change ((s.goto t _).thread u).handle = _ at hk
    change Function.update s.handle s.nextHandle _ k = none at hgone
    by_cases hkn : k = s.nextHandle
    · rw [hkn, Function.update_self] at hgone
      cases hgone
    · rw [Function.update_of_ne hkn] at hgone
      rw [goto_thread] at hk
      split at hk
      · cases hk
      · exact (h.alive u).1 k hk hgone
  · change ((s.goto t _).thread u).fs = _ at hk
    change Function.update s.fs fs _ k = none at hgone
    by_cases hkf : k = fs
    · rw [hkf, Function.update_self] at hgone
      cases hgone
    · rw [Function.update_of_ne hkf] at hgone
      rw [goto_thread] at hk
      split at hk
      · cases hk
      · exact (h.alive u).2 k hk hgone

/-- The second section of `proc_rm_fs`. -/
theorem UseInv.rm_fs {name : Name} {fs : FsId} {mid : HandleState T}
    (hfs : s.filesystems.lookup name = some fs) (hlast : ¬ LastFs s (some t) fs)
    (hmid : s.procRmFs name fs = some mid) : UseInv (mid.goto t .outside) := by
  obtain ⟨after, hafter, rfl⟩ := Option.map_eq_some_iff.mp hmid
  have hleave := h.leave (t := t)
  have hacc : Accounts after (fun k => s.bound k + (s.goto t .outside).adders k) fun k =>
      (s.filesystems.filter fun e => e.1 != name).countP (fun e => e.2 == k) + s.nodes k := by
    refine Accounts.unref_fs (h.toAccounts.mono (fun k => ?_) fun k => ?_) hafter
    · exact Nat.add_le_add_left (adders_goto_le (fun _ heq => by cases heq) k) _
    · have hfilter := countP_filter_lookup hfs k
      simp only [beq_iff_eq] at hfilter
      change _ ≤ List.countP _ s.filesystems + _
      omega
  have halive : ∀ u, u ≠ t → (∀ k, (s.thread u).handle = some k → after.handle k ≠ none) ∧
      ∀ k, (s.thread u).fs = some k → after.fs k ≠ none :=
    fun u hu => h.alive.unref_fs h.toAccounts hafter hlast fun heq => hu (Option.some.inj heq)
  obtain ⟨refs, hrefs, rfl⟩ := unref_fs_eq hafter
  refine ⟨hacc.congr rfl rfl rfl, hleave.single, fun u => ?_⟩
  rw [goto_thread]
  split
  · exact ⟨fun _ heq => (by cases heq), fun _ heq => (by cases heq)⟩
  · next hu => exact halive u hu

omit [DecidableEq T] in
/-- A node comes into memory. -/
theorem UseInv.grab {fs : FsId} {refs : Nat} (hrefs : s.fs fs = some refs) :
    UseInv { s with
      fs := Function.update s.fs fs (some (refs + 1))
      nodes := Function.update s.nodes fs (s.nodes fs + 1) } := by
  refine ⟨⟨h.handles, fun k => ?_, h.live, fun k => ?_, h.fresh⟩, h.single,
    fun u => ⟨(h.alive u).1, fun k hk hgone => ?_⟩⟩
  · have hle := h.filesystems k
    show s.mounted k + Function.update s.nodes fs _ k + s.opened k ≤
      (Function.update s.fs fs _ k).getD 0
    by_cases hk : k = fs
    · subst hk
      change _ ≤ (s.fs k).getD 0 at hle
      rw [hrefs] at hle
      rw [Function.update_self, Function.update_self]
      change s.mounted k + s.nodes k + s.opened k ≤ refs at hle
      show _ ≤ refs + 1
      omega
    · rw [Function.update_of_ne hk, Function.update_of_ne hk]
      exact hle
  · show Function.update s.fs fs _ k ≠ some 0
    by_cases hk : k = fs
    · rw [hk, Function.update_self]
      exact fun heq => Nat.succ_ne_zero refs (Option.some.inj heq)
    · rw [Function.update_of_ne hk]
      exact h.liveFs k
  · change Function.update s.fs fs _ k = none at hgone
    by_cases hkf : k = fs
    · rw [hkf, Function.update_self] at hgone
      cases hgone
    · rw [Function.update_of_ne hkf] at hgone
      exact (h.alive u).2 k hk hgone

omit [DecidableEq T] in
/-- A node is freed. -/
theorem UseInv.release {fs : FsId} (hnode : s.nodes fs ≠ 0)
    (hlast : ¬ LastFs s none fs)
    (hstep : HandleState.unrefFs { s with
      nodes := Function.update s.nodes fs (s.nodes fs - 1) } fs = some s') : UseInv s' := by
  have hmid : Accounts { s with nodes := Function.update s.nodes fs (s.nodes fs - 1) }
      (fun k => s.bound k + s.adders k) fun k =>
        s.mounted k + Function.update s.nodes fs (s.nodes fs - 1) k + if k = fs then 1 else 0 := by
    refine (h.toAccounts.mono (fun _ => Nat.le_refl _) fun k => ?_).congr rfl rfl rfl
    by_cases hk : k = fs
    · rw [if_pos hk, hk, Function.update_self]
      omega
    · rw [if_neg hk, Function.update_of_ne hk]
      exact Nat.le_refl _
  have hacc := hmid.unref_fs hstep
  have hbefore : UseAlive { s with nodes := Function.update s.nodes fs (s.nodes fs - 1) } := h.alive
  have halive := fun u : T => hbefore.unref_fs (u := u) hmid hstep hlast nofun
  obtain ⟨refs, hrefs, rfl⟩ := unref_fs_eq hstep
  exact ⟨hacc, h.single, halive⟩

/-- A system call begins. -/
theorem UseInv.enter {call : Syscall} (hallowed : ¬ PullsAway s (.enter t call))
    (hstep : handleStep s (.enter t call) = some s') : UseInv s' := by
  change (if s.thread t = .outside then s.enter t call else none) = some s' at hstep
  split at hstep
  · next hout =>
      have hread : ∀ {fd : Int} {use : HandleId → SyscallPc},
          (∀ x, (use x).handle = some x ∧ (use x).fs = none) →
          UseInv (s.procReadFd t fd use .outside) :=
        fun huse => h.proc_read_fd huse ⟨rfl, rfl⟩ fun _ heq => by cases heq
      have hfind : ∀ {name : Name} {use : FsId → SyscallPc},
          (∀ fs, (use fs).handle = none ∧ (use fs).fs = some fs) →
          (∀ fs x, use fs ≠ .add x) →
          UseInv (s.goto t ((s.filesystems.lookup name).elim .outside use)) := by
        intro name use huse hadd
        cases hfs : s.filesystems.lookup name with
        | none => exact h.leave
        | some fs =>
            refine h.goto (hadd fs) (fun x heq => ?_) fun k heq => ?_
            · exact nomatch (huse fs).1.symm.trans heq
            · obtain rfl : fs = k := Option.some.inj ((huse fs).2.symm.trans heq)
              exact h.find_fs hfs
      cases call with
      | read fd | write fd | mmapFile fd =>
          cases hstep
          exact hread fun _ => ⟨rfl, rfl⟩
      | select fds =>
          cases hstep
          exact h.goto (fun _ heq => by cases heq) (fun _ heq => by cases heq)
            fun _ heq => by cases heq
      | close fd => exact h.close_fd hout hallowed hstep
      | «open» name =>
          cases hstep
          exact hfind (fun _ => ⟨rfl, rfl⟩) fun _ _ heq => by cases heq
      | rmFs name =>
          cases hstep
          exact hfind (fun _ => ⟨rfl, rfl⟩) fun _ _ heq => by cases heq
  · cases hstep

/-- A system call goes on. -/
theorem UseInv.call_step {go : Bool} (hallowed : ¬ PullsAway s (.step t go))
    (hstep : handleStep s (.step t go) = some s') : UseInv s' := by
  change s.callStep t go = some s' at hstep
  unfold HandleState.callStep at hstep
  cases hat : s.thread t with
  | outside =>
      rw [hat] at hstep
      cases hstep
  | transfer x =>
      rw [hat] at hstep
      cases hstep
      split
      · have halive := h.alive t
        rw [hat] at halive
        exact h.goto (fun _ heq => by cases heq) halive.1 halive.2
      · exact h.leave
  | select fds rest =>
      rw [hat] at hstep
      cases rest with
      | nil =>
          cases hstep
          split
          · exact h.goto (fun _ heq => by cases heq) (fun _ heq => by cases heq)
              fun _ heq => by cases heq
          · exact h.leave
      | cons fd rest =>
          cases hstep
          exact h.proc_read_fd (fun _ => ⟨rfl, rfl⟩) ⟨rfl, rfl⟩ fun _ heq => by cases heq
  | poll x fds rest =>
      rw [hat] at hstep
      cases hstep
      exact h.goto (fun _ heq => by cases heq) (fun _ heq => by cases heq)
        fun _ heq => by cases heq
  | map x =>
      rw [hat] at hstep
      simp only at hstep
      split at hstep
      · obtain ⟨file, hx, rfl⟩ := Option.map_eq_some_iff.mp hstep
        exact h.ref_file hx
      · cases hstep
        exact h.leave
  | «open» fs =>
      rw [hat] at hstep
      simp only at hstep
      split at hstep
      · obtain ⟨refs, hrefs, rfl⟩ := Option.map_eq_some_iff.mp hstep
        exact h.open_file hrefs
      · cases hstep
        exact h.leave
  | add x =>
      rw [hat] at hstep
      simp only at hstep
      split at hstep
      · cases hstep
        exact h.add_fd hat
      · next hgo =>
          obtain ⟨mid, hmid, rfl⟩ := Option.map_eq_some_iff.mp hstep
          refine h.drop_fd hat (fun hlast => hallowed ?_) hmid
          show match s.thread t with | .add h => _ | .remove _ _ => _ | _ => _
          rw [hat]
          exact ⟨Bool.eq_false_iff.mpr hgo, hlast⟩
  | remove name fs =>
      rw [hat] at hstep
      obtain ⟨mid, hmid, rfl⟩ := Option.map_eq_some_iff.mp hstep
      have hnot : ¬ (LastFs s (some t) fs ∨ s.filesystems.lookup name ≠ some fs) := by
        intro hpulls
        refine hallowed ?_
        show match s.thread t with | .add h => _ | .remove _ _ => _ | _ => _
        rw [hat]
        exact hpulls
      obtain ⟨hlast, hbound⟩ := not_or.mp hnot
      exact h.rm_fs (not_not.mp hbound) hlast hmid

/-- Every event that pulls nothing away keeps the invariant. -/
theorem UseInv.step {event : HandleEvent T} (hallowed : ¬ PullsAway s event)
    (hstep : handleStep s event = some s') : UseInv s' := by
  cases event with
  | enter t call => exact h.enter hallowed hstep
  | step t go => exact h.call_step hallowed hstep
  | grab fs =>
      obtain ⟨refs, hrefs, rfl⟩ := Option.map_eq_some_iff.mp hstep
      exact h.grab hrefs
  | release fs =>
      change (if s.nodes fs = 0 then none else _) = some s' at hstep
      split at hstep
      · cases hstep
      · next hnode => exact h.release hnode hallowed hstep

end

end Steps

section Runs

variable {T : Type}

theorem UseInv.of_initial {s : HandleState T} (h : s.Initial) : UseInv s where
  handles := by
    intro k
    have hnone : ¬ ∃ t, s.thread t = .add k := by
      rintro ⟨t, ht⟩
      rw [h.outside t] at ht
      cases ht
    rw [HandleState.adders, if_neg hnone]
    exact h.handles k
  filesystems := by
    intro fs
    have hle := h.filesystems fs
    omega
  live := h.live
  liveFs := h.liveFs
  fresh := h.fresh
  single := by
    intro t u x ht
    rw [h.outside t] at ht
    cases ht
  alive := by
    intro t
    rw [h.outside t]
    exact ⟨fun _ heq => (by cases heq), fun _ heq => (by cases heq)⟩

/-- The runs in which every event is allowed where it happens. -/
def handleRuns [DecidableEq T] (allowed : HandleState T → HandleEvent T → Prop) :
    System (HandleState T) :=
  eventRuns HandleState.Initial handleStep allowed

/-- In every run in which no last reference is dropped under another thread, every handle from
`proc_read_fd` and every file system from `proc_find_fs` is in memory until the system call that
has it is through with it. -/
theorem handles_outlive_use [DecidableEq T] {s : HandleState T}
    (h : Reachable (handleRuns fun s event => ¬ PullsAway s event) s) : UseAlive s := by
  refine (Reachable.induct (motive := UseInv) (fun _ hinit => .of_initial hinit)
    (fun s s' hs hstep => ?_) h).alive
  obtain ⟨event, hallowed, hstep⟩ := hstep
  exact hs.step hallowed hstep

end Runs

section Examples

/-- A process with two threads and one descriptor, of a channel. -/
def HandleState.oneDescriptor : HandleState (Fin 2) where
  files := [(1, 0)]
  nextFd := 2
  filesystems := []
  handle := fun h => if h = 0 then some { fs := none, refs := 1 } else none
  nextHandle := 1
  fs := fun _ => none
  nodes := fun _ => 0
  thread := fun _ => .outside

theorem one_descriptor_initial : HandleState.oneDescriptor.Initial where
  handles := by
    intro h
    by_cases hh : h = 0
    · subst hh
      decide
    · have hbound : HandleState.oneDescriptor.bound h = 0 :=
        List.countP_eq_zero.mpr fun e he heq => hh (by
          rw [List.mem_singleton.mp he] at heq
          exact (eq_of_beq heq).symm)
      rw [hbound]
      exact Nat.zero_le _
  filesystems := fun _ => Nat.le_of_eq rfl
  live := by
    intro h file hfile
    change (if h = 0 then _ else _) = some file at hfile
    split at hfile
    · cases hfile
      exact Nat.one_ne_zero
    · cases hfile
  liveFs := fun _ => nofun
  fresh := fun h hh => if_neg (Nat.ne_of_gt hh)
  outside := fun _ => rfl

/-- A thread closes the descriptor when the other one has finished reading. -/
theorem handles_outlive_use_read : ∃ s : HandleState (Fin 2), s.handle 0 = none ∧ UseAlive s := by
  have hrun : (runEvents handleStep (fun (s : HandleState (Fin 2)) event =>
        match event with
        | .enter _ _ => decide (∀ u, s.thread u = .outside)
        | .step t _ => (s.thread t).handle.isSome
        | .grab _ | .release _ => false)
      [.enter 0 (.read 1), .step 0 true, .step 0 false, .enter 1 (.close 1)]
      HandleState.oneDescriptor).map (fun s => s.handle 0) = some none := by
    decide +kernel
  obtain ⟨s, hrun, hnone⟩ := Option.map_eq_some_iff.mp hrun
  refine ⟨s, hnone, handles_outlive_use (Reachable.run_events (fun s event hpass => ?_)
    (.init one_descriptor_initial) hrun)⟩
  cases event with
  | enter t call =>
      have hout := of_decide_eq_true hpass
      cases call with
      | read | write | select | mmapFile | «open» | rmFs => exact id
      | close fd =>
          rintro ⟨h, -, -, ⟨u, -, hu⟩ | ⟨fs, -, -, u, -, hu⟩⟩
          · rw [hout u] at hu
            cases hu
          · rw [hout u] at hu
            cases hu
  | step t go =>
      intro hpulls
      change match s.thread t with
        | .add h => go = false ∧ LastHandle s t h
        | .remove name fs => LastFs s (some t) fs ∨ s.filesystems.lookup name ≠ some fs
        | _ => False at hpulls
      change (s.thread t).handle.isSome = true at hpass
      split at hpulls
      · next hat =>
          rw [hat] at hpass
          cases hpass
      · next hat =>
          rw [hat] at hpass
          cases hpass
      · exact hpulls
  | grab | release => cases hpass

/-- A thread closes the descriptor while the other one is parked in `channel_read`. -/
theorem handle_freed_in_use : ¬ ∀ s : HandleState (Fin 2),
    Reachable (handleRuns fun _ _ => True) s → UseAlive s := by
  intro hclaim
  have hrun : (runEvents handleStep (fun _ _ => true)
      [.enter 0 (.read 1), .enter 1 (.close 1)] HandleState.oneDescriptor).map
      (fun s => (s.handle 0, s.thread 0)) = some (none, .transfer 0) := by
    decide +kernel
  obtain ⟨s, hrun, hstate⟩ := Option.map_eq_some_iff.mp hrun
  have halive := hclaim s (Reachable.run_events (fun _ _ _ => trivial)
    (.init one_descriptor_initial) hrun) 0
  refine halive.1 0 ?_ (Prod.mk.inj hstate).1
  rw [(Prod.mk.inj hstate).2]
  rfl

end Examples

end Kogata.Kernel
