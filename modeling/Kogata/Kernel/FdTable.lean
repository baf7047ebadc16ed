import Kogata.Common.HashtblRefines
import Kogata.Lib.Run

/-!
# The numbers of file descriptors

`proc_add_fd`, `proc_add_fd_as`, `proc_read_fd` and `proc_close_fd` of `kernel/user/process.c` on
the hash table of a process, with the counter `next_fd` as an `int`. The kernel is compiled without
optimisation, so that the counter wraps at `INT_MAX`. As long as it has not, a new descriptor is
above all that are open.
-/

namespace Kogata.Kernel

open Kogata.Common Lib.Run

/-- `id_key_eq_fun` and `id_hash_fun` on descriptors, which are cast to pointers. -/
def fdKeys : KeyFuns Int32 where
  ef := fun a b => a == b
  hf := fun fd => fd.toUInt32

instance : LawfulKeys fdKeys := .of_beq _

/-- `files` and `next_fd` of a `process_t`; `files` is null once the process has ended. -/
structure FdTable (H : Type) where
  files : Option (Hashtbl fdKeys H)
  nextFd : Int32

/-- The answers of the `malloc`s of a `hashtbl_add`. -/
structure AddAnswers where
  allocated : Bool
  shrunk : Bool
  grown : Bool
  deriving DecidableEq

namespace FdTable

variable {H : Type}

/-- The descriptors of a `new_process`. -/
def newProcess : FdTable H where
  files := some Hashtbl.create
  nextFd := 1

/-- `proc_add_fd`. -/
def procAddFd (p : FdTable H) (m : AddAnswers) (f : H) : Int32 × FdTable H :=
  let fd := p.nextFd
  let p := { p with nextFd := p.nextFd + 1 }
  match p.files with
  | none => (0, p)
  | some files =>
      let (addOk, files, _) := files.add m.allocated m.shrunk m.grown fd f
      (if addOk then fd else 0, { p with files := some files })

/-- `proc_add_fd_as`. -/
def procAddFdAs (p : FdTable H) (m : AddAnswers) (f : H) (fd : Int32) : Bool × FdTable H :=
  if fd ≤ 0 then (false, p)
  else
    match p.files with
    | none => (false, p)
    | some files =>
        if (files.find fd).isSome then (false, p)
        else
          let p := if fd ≥ p.nextFd then { p with nextFd := fd + 1 } else p
          let (addOk, files, _) := files.add m.allocated m.shrunk m.grown fd f
          (addOk, { p with files := some files })

/-- `proc_read_fd`. -/
def procReadFd (p : FdTable H) (fd : Int32) : Option H :=
  match p.files with
  | none => none
  | some files => files.find fd

/-- `proc_close_fd`: the handle whose reference it drops, and the table; `shrunk` is the answer of
the `malloc` in `hashtbl_remove`. -/
def procCloseFd (p : FdTable H) (shrunk : Bool) (fd : Int32) : Option H × FdTable H :=
  match p.files with
  | none => (none, p)
  | some files =>
      match files.find fd with
      | none => (none, p)
      | some x => (some x, { p with files := some (files.remove shrunk fd).1 })

end FdTable

/-- A call on the descriptors of a process. -/
inductive FdTableCall (H : Type) where
  | add (m : AddAnswers) (f : H)
  | addAs (m : AddAnswers) (f : H) (fd : Int32)
  | close (shrunk : Bool) (fd : Int32)

/-- The table after a call. -/
def FdTableCall.after {H : Type} (p : FdTable H) : FdTableCall H → FdTable H
  | .add m f => (p.procAddFd m f).2
  | .addAs m f fd => (p.procAddFdAs m f fd).2
  | .close shrunk fd => (p.procCloseFd shrunk fd).2

namespace FdTable

variable {H : Type}

/-- A descriptor is fresh: it is positive, was not open, has the handle afterwards, and the other
descriptors keep theirs. -/
structure Fresh (before after : FdTable H) (f : H) (fd : Int32) : Prop where
  positive : 0 < fd
  unopened : before.procReadFd fd = none
  bound : after.procReadFd fd = some f
  others : ∀ other, other ≠ fd → after.procReadFd other = before.procReadFd other

/-- `proc_add_fd` returns only fresh descriptors; 0 says that it has failed. -/
def AddsFresh (p : FdTable H) : Prop :=
  ∀ m f, (p.procAddFd m f).1 ≠ 0 → Fresh p (p.procAddFd m f).2 f (p.procAddFd m f).1

/-- `proc_add_fd_as` binds only a fresh descriptor, and changes nothing where it fails. -/
def BindsFresh (p : FdTable H) : Prop :=
  ∀ m f fd,
    if (p.procAddFdAs m f fd).1 then Fresh p (p.procAddFdAs m f fd).2 f fd
    else ∀ other, (p.procAddFdAs m f fd).2.procReadFd other = p.procReadFd other

/-- The counter has not run over the largest `int`. -/
def InRange (p : FdTable H) : Prop :=
  0 < p.nextFd

instance (p : FdTable H) : Decidable p.InRange :=
  inferInstanceAs (Decidable (0 < p.nextFd))

/-- The runs of the calls in which the counter has not run over when a descriptor is added; one may
be closed at any time. -/
def fdRuns : System (FdTable H) :=
  eventRuns (fun p => p = newProcess) (fun p (call : FdTableCall H) => some (call.after p))
    fun p call =>
      match call with
      | .add _ _ => p.InRange
      | .addAs _ _ _ => p.InRange
      | .close _ _ => True

/-- What holds of the table in these runs. -/
structure Numbered (p : FdTable H) (files : Hashtbl fdKeys H) : Prop where
  files_eq : p.files = some files
  formed : WellFormed files
  positive : ∀ fd h, files.find fd = some h → 0 < fd
  below : p.InRange → ∀ fd h, files.find fd = some h → fd < p.nextFd
  top : ¬ p.InRange → p.nextFd = Int32.minValue

/-- One more than a counter is the next number, or the counter has run over. -/
theorem next_fd_cases (fd : Int32) : fd + 1 = Int32.minValue ∨ fd < fd + 1 := by
  have hsum : (fd + 1).toInt = (fd.toInt + 1).bmod (2 ^ 32) := Int32.toInt_add fd 1
  by_cases htop : fd.toInt = 2147483647
  · left
    apply Int32.toInt_inj.mp
    rw [hsum, htop]
    rfl
  · right
    have hlt := Int32.toInt_lt fd
    have hle := Int32.le_toInt fd
    rw [Int32.lt_iff_toInt_lt, hsum, Int.bmod_eq_of_le (by omega) (by omega)]
    omega

/-- A counter one above a positive number is in range, or at the other end. -/
theorem raised_top {fd : Int32} (hpos : 0 < fd) (hrange : ¬ 0 < fd + 1) :
    fd + 1 = Int32.minValue := by
  rcases next_fd_cases fd with htop | hlt
  · exact htop
  · exact absurd (Int32.lt_trans hpos hlt) hrange

/-- A counter that is in range after it was raised is above what it was raised over. -/
theorem lt_raised {fd : Int32} (hrange : 0 < fd + 1) : fd < fd + 1 := by
  rcases next_fd_cases fd with htop | hlt
  · rw [htop] at hrange
    exact absurd hrange (by decide)
  · exact hlt

section Tables

variable {p : FdTable H} {files : Hashtbl fdKeys H}

/-- What a successful `hashtbl_add` of a new descriptor does. -/
theorem fresh_of_add (hfiles : p.files = some files) (hformed : WellFormed files)
    {fd next : Int32} (hpos : 0 < fd) (hnew : files.find fd = none) (shrunk grown : Bool) (f : H) :
    Fresh p ⟨some (files.add true shrunk grown fd f).2.1, next⟩ f fd where
  positive := hpos
  unopened := by
    unfold procReadFd
    rw [hfiles]
    exact hnew
  bound := by
    show (files.add true shrunk grown fd f).2.1.find fd = some f
    rw [find_add hformed]
    exact if_pos (beq_self_eq_true fd)
  others := fun other hother => by
    unfold procReadFd
    rw [hfiles]
    show (files.add true shrunk grown fd f).2.1.find other = files.find other
    rw [find_add hformed]
    exact if_neg fun heq => hother (eq_of_beq heq).symm

/-- A table in which a descriptor may have been bound, with a counter that was raised over it. -/
theorem Numbered.bind (h : Numbered p files) {fd next : Int32} (hpos : 0 < fd)
    (habove : 0 < next → fd < next ∧ (0 < p.nextFd → p.nextFd ≤ next))
    (hrange : p.InRange) (htop : ¬ 0 < next → next = Int32.minValue) (m : AddAnswers) (f : H) :
    Numbered ⟨some (files.add m.allocated m.shrunk m.grown fd f).2.1, next⟩
      (files.add m.allocated m.shrunk m.grown fd f).2.1 := by
  have hraised : 0 < next → ∀ other x, files.find other = some x → other < next :=
    fun hnext other x hfind => by
      have hlt := h.below hrange other x hfind
      have hle := (habove hnext).2 hrange
      rw [Int32.lt_iff_toInt_lt] at hlt ⊢
      rw [Int32.le_iff_toInt_le] at hle
      omega
  cases hallocated : m.allocated with
  | false => exact ⟨rfl, h.formed, h.positive, hraised, htop⟩
  | true =>
      have hfind : ∀ other x, (files.add true m.shrunk m.grown fd f).2.1.find other = some x →
          other = fd ∨ files.find other = some x := fun other x hx => by
        rw [find_add h.formed] at hx
        split at hx
        · next heq => exact .inl (eq_of_beq heq).symm
        · exact .inr hx
      refine ⟨rfl, (add_spec h.formed m.shrunk m.grown fd f).1, fun other x hx => ?_,
        fun hnext other x hx => ?_, htop⟩
      · rcases hfind other x hx with rfl | hold
        · exact hpos
        · exact h.positive other x hold
      · rcases hfind other x hx with rfl | hold
        · exact (habove hnext).1
        · exact hraised hnext other x hold

theorem proc_add_fd_run (hfiles : p.files = some files) (m : AddAnswers) (f : H) :
    p.procAddFd m f =
      (if m.allocated then p.nextFd else 0,
        ⟨some (files.add m.allocated m.shrunk m.grown p.nextFd f).2.1, p.nextFd + 1⟩) := by
  unfold procAddFd
  rw [hfiles]
  cases m.allocated <;> rfl

/-- `proc_add_fd_as` refuses the number, or binds it with the counter above it. -/
theorem proc_add_fd_as_cases (hfiles : p.files = some files) (m : AddAnswers) (f : H)
    (fd : Int32) :
    p.procAddFdAs m f fd = (false, p) ∨
      0 < fd ∧ files.find fd = none ∧
        p.procAddFdAs m f fd =
          (m.allocated, ⟨some (files.add m.allocated m.shrunk m.grown fd f).2.1,
            if fd ≥ p.nextFd then fd + 1 else p.nextFd⟩) := by
  unfold procAddFdAs
  by_cases hpos : fd ≤ 0
  · exact .inl (if_pos hpos)
  · rw [if_neg hpos, hfiles]
    cases hfind : files.find fd with
    | some x => exact .inl (by simp [hfind])
    | none =>
        refine .inr ⟨Int32.not_le.mp hpos, rfl, ?_⟩
        simp only [hfind, Option.isSome_none, Bool.false_eq_true, if_false]
        cases m.allocated <;> split <;> rfl

/-- `proc_close_fd` leaves the table, or takes a binding out of it. -/
theorem proc_close_fd_cases (hfiles : p.files = some files) (shrunk : Bool) (fd : Int32) :
    (p.procCloseFd shrunk fd).2 = p ∨
      (p.procCloseFd shrunk fd).2 = ⟨some (files.remove shrunk fd).1, p.nextFd⟩ := by
  unfold procCloseFd
  rw [hfiles]
  cases hfind : files.find fd with
  | none => exact .inl (by simp [hfind])
  | some x => exact .inr (by simp [hfind])

/-- In range, `proc_add_fd` returns fresh descriptors. -/
theorem Numbered.adds_fresh (h : Numbered p files) (hrange : p.InRange) : p.AddsFresh := by
  intro m f hreturned
  have hnew : files.find p.nextFd = none := by
    cases hfind : files.find p.nextFd with
    | none => rfl
    | some x => exact absurd (h.below hrange p.nextFd x hfind) Int32.lt_irrefl
  rw [proc_add_fd_run h.files_eq] at hreturned ⊢
  cases hallocated : m.allocated with
  | false =>
      rw [hallocated] at hreturned
      exact absurd rfl hreturned
  | true => exact fresh_of_add h.files_eq h.formed hrange hnew m.shrunk m.grown f

/-- `proc_add_fd_as` keeps the open descriptors in any case. -/
theorem Numbered.binds_fresh (h : Numbered p files) : p.BindsFresh := by
  intro m f fd
  rcases proc_add_fd_as_cases h.files_eq m f fd with hrefused | ⟨hpos, hnew, hrun⟩
  · rw [hrefused]
    exact fun _ => rfl
  · rw [hrun]
    cases hallocated : m.allocated with
    | false =>
        intro other
        unfold procReadFd
        rw [h.files_eq]
        rfl
    | true => exact fresh_of_add h.files_eq h.formed hpos hnew m.shrunk m.grown f

/-- Once the counter has run over, `proc_add_fd` returns the least `int`. -/
theorem Numbered.not_adds_fresh (h : Numbered p files) (hrange : ¬ p.InRange) (f : H) :
    ¬ p.AddsFresh := by
  intro hfresh
  have hreturned := hfresh ⟨true, true, true⟩ f
  rw [proc_add_fd_run h.files_eq] at hreturned
  have htop := h.top hrange
  have hpos := (hreturned (by
    show p.nextFd ≠ 0
    rw [htop]
    decide)).positive
  exact hrange hpos

/-- One call, made while the counter is in range. -/
theorem Numbered.step (h : Numbered p files) (call : FdTableCall H)
    (hrange : p.InRange ∨ ∃ shrunk fd, call = .close shrunk fd) :
    ∃ files, Numbered (call.after p) files := by
  cases call with
  | add m f =>
      rcases hrange with hrange | ⟨shrunk, fd, heq⟩
      · show ∃ files, Numbered (p.procAddFd m f).2 files
        rw [proc_add_fd_run h.files_eq]
        exact ⟨_, h.bind hrange
          (fun hnext => ⟨lt_raised hnext, fun _ => Int32.le_of_lt (lt_raised hnext)⟩) hrange
          (raised_top hrange) m f⟩
      · cases heq
  | addAs m f fd =>
      rcases hrange with hrange | ⟨shrunk, fd, heq⟩
      · show ∃ files, Numbered (p.procAddFdAs m f fd).2 files
        rcases proc_add_fd_as_cases h.files_eq m f fd with hrefused | ⟨hpos, -, hrun⟩
        · rw [hrefused]
          exact ⟨files, h⟩
        · rw [hrun]
          refine ⟨_, h.bind hpos (fun hnext => ?_) hrange (fun hnext => ?_) m f⟩
          · split at hnext
            · next hge =>
                rw [if_pos hge]
                exact ⟨lt_raised hnext,
                  fun _ => Int32.le_trans hge (Int32.le_of_lt (lt_raised hnext))⟩
            · next hlt =>
                rw [if_neg hlt]
                exact ⟨Int32.not_le.mp hlt, fun _ => Int32.le_refl _⟩
          · split at hnext
            · next hge =>
                rw [if_pos hge]
                exact raised_top hpos hnext
            · exact absurd hrange hnext
      · cases heq
  | close shrunk fd =>
      show ∃ files, Numbered (p.procCloseFd shrunk fd).2 files
      rcases proc_close_fd_cases h.files_eq shrunk fd with hsame | hrun
      · rw [hsame]
        exact ⟨files, h⟩
      · rw [hrun]
        have hfind : ∀ other x, (files.remove shrunk fd).1.find other = some x →
            files.find other = some x := fun other x hx => by
          rw [find_remove h.formed] at hx
          split at hx
          · cases hx
          · exact hx
        exact ⟨_, rfl, (remove_spec h.formed shrunk fd).1,
          fun other x hx => h.positive other x (hfind other x hx),
          fun hrange other x hx => h.below hrange other x (hfind other x hx), h.top⟩

end Tables

/-- A new process has no descriptors, and the next one is 1. -/
theorem numbered_new_process : Numbered (newProcess : FdTable H) Hashtbl.create where
  files_eq := rfl
  formed := create_well_formed
  positive := fun fd x hfind => by cases hfind
  below := fun _ fd x hfind => by cases hfind
  top := fun hrange => absurd (by decide : (0 : Int32) < 1) hrange

/-- In a run in which no descriptor is added after the counter has run over, the open descriptors
are positive and below the counter. -/
theorem fd_runs_numbered {p : FdTable H} (hp : Reachable fdRuns p) :
    ∃ files, Numbered p files := by
  refine Reachable.induct (motive := fun p => ∃ files, Numbered p files) (fun s hs => ?_)
    (fun s s' ⟨files, h⟩ ⟨call, hallowed, hstep⟩ => ?_) hp
  · obtain rfl : s = newProcess := hs
    exact ⟨_, numbered_new_process⟩
  · obtain rfl : call.after s = s' := Option.some.inj hstep
    refine h.step call ?_
    cases call with
    | add m f => exact .inl hallowed
    | addAs m f fd => exact .inl hallowed
    | close shrunk fd => exact .inr ⟨shrunk, fd, rfl⟩

/-- `proc_add_fd` and `proc_add_fd_as` give fresh descriptors as long as the counter has not run
over the largest `int`, and no longer. -/
theorem fds_fresh_iff [Inhabited H] {p : FdTable H} (hp : Reachable fdRuns p) :
    p.AddsFresh ∧ p.BindsFresh ↔ p.InRange := by
  obtain ⟨files, h⟩ := fd_runs_numbered hp
  constructor
  · rintro ⟨hfresh, -⟩
    by_contra hrange
    exact h.not_adds_fresh hrange default hfresh
  · exact fun hrange => ⟨h.adds_fresh hrange, h.binds_fresh⟩

/-- Descriptors behind a 5 that was bound. -/
theorem sixth_fd_fresh :
    ((newProcess : FdTable Nat).procAddFdAs ⟨true, true, true⟩ 10 5).2.AddsFresh ∧
    ((newProcess : FdTable Nat).procAddFdAs ⟨true, true, true⟩ 10 5).2.BindsFresh :=
  (fds_fresh_iff (.step (.init rfl) ⟨.addAs ⟨true, true, true⟩ 10 5, by decide, rfl⟩)).mpr
    (by decide)

/-- A parent binds 5, the largest `int` and 4, in this order: the counter runs over, and 4 puts it
back to 5. -/
def overrun : FdTable Nat :=
  let m := ⟨true, true, true⟩
  [FdTableCall.addAs m 10 5, .addAs m 11 Int32.maxValue, .addAs m 12 4].foldl
    FdTableCall.after newProcess

/-- The child's next descriptor is then 5, which is open, and loses its handle. -/
theorem open_fd_replaced :
    overrun.procReadFd 5 = some 10 ∧
      (overrun.procAddFd ⟨true, true, true⟩ 13).1 = 5 ∧
      (overrun.procAddFd ⟨true, true, true⟩ 13).2.procReadFd 5 = some 13 ∧
      ¬ overrun.AddsFresh := by
  refine ⟨by decide, by decide, by decide, fun hfresh => ?_⟩
  have hreused := (hfresh ⟨true, true, true⟩ 13 (by decide)).unopened
  exact absurd hreused (by decide)

end FdTable

end Kogata.Kernel
