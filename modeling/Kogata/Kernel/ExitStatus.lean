import Kogata.Kernel.Process
import Kogata.Kernel.Worker

/-!
# The exit status of a process

How `current_process_exit`, the worker threads and `process_wait` work together. The thread that
ends its process queues a task that calls `process_exit`, and `exit` queues another one that
cleans the thread up, which calls `process_exit` too when it was the last thread. The tasks are
queued in an ordered index by the time they are due, and the workers take them from there in an
order of their own.
-/

namespace Kogata.Kernel

open Kogata.Common Lib.Run

/-- `PS_LOADING`. -/
abbrev psLoading : Int := 1
/-- `PS_RUNNING`. -/
abbrev psRunning : Int := 2
/-- `PS_FINISHED`. -/
abbrev psFinished : Int := 3

/-- The tasks in the queue: `current_process_exit_task`, `exit_cleanup_task` of the thread, and
those of others. -/
inductive Task where
  | exitTask
  | cleanup
  | other (n : Nat)
  deriving DecidableEq

/-- Where the thread is that calls `current_process_exit`. In `worker_push_in` it has read the time
before it has put the task into the queue. -/
inductive ExitingPc where
  | running
  | pushing (due : UInt64)
  | exiting
  | pushingCleanup (due : UInt64)
  | finished
  deriving DecidableEq

/-- Where a worker thread is: behind `btree_remove_v`, before `mutex_lock` in `process_exit` or in
`process_thread_exited`, and inside the first of these between two writes that others can see.
The calls of `process_exit` are told apart by the task that makes them. -/
inductive WorkerPc where
  | idle
  | taken (task : Task)
  | exitLock (byCleanup : Bool)
  | recording (exitCode : Int)
  | killing
  | waiting
  | cleanupLock
  deriving DecidableEq

/-- Where the parent is in `process_wait`. -/
inductive ParentPc where
  | waiting
  | reading
  | done
  deriving DecidableEq

/-- The queue of `worker.c`, the threads, and the fields of the process that they share. The parent
goes on running, and nobody else ends the process. -/
structure ExitState where
  time : UInt64
  tasks : Btree Worker.uint64KeyCmpFun Task
  exiting : ExitingPc
  workers : Nat → WorkerPc
  parent : ParentPc
  status : Int
  exitCode : Int
  lock : Bool
  /-- The thread is in `p->threads`. -/
  listed : Bool
  /-- The thread has been deleted. -/
  deleted : Bool
  /-- What `process_wait` has given to its caller. -/
  reported : Option (Int × Int)

/-- The test of `process_exit` for a process that has not ended. -/
def ExitState.alive (s : ExitState) : Bool :=
  s.status == psRunning || s.status == psLoading

/-- The worker is at another place. -/
def ExitState.goto (s : ExitState) (i : Nat) (pc : WorkerPc) : ExitState :=
  { s with workers := Function.update s.workers i pc }

/-- The arguments of a call of `process_exit`. -/
def exitArgs (given : Int × Int) (byCleanup : Bool) : Int × Int :=
  if byCleanup then (psFinished, 0) else given

/-- `btree_add` in `worker_push_in`, which does not look at its result. -/
def ExitState.push (s : ExitState) (allocated : Bool) (due : UInt64) (task : Task) : ExitState :=
  { s with tasks := (s.tasks.add allocated due task).getD s.tasks }

/-- The thread's next step. The loops that repeat a failed `malloc` stay where they are; `exit`
does not look at the result of its `worker_push`. -/
def threadStep (allocated : Bool) (s : ExitState) : Option ExitState :=
  match s.exiting with
  | .running => some { s with exiting := .pushing s.time }
  | .pushing due => some { s.push allocated due .exitTask with exiting := .exiting }
  | .exiting => some { s with exiting := if allocated then .pushingCleanup s.time else .finished }
  | .pushingCleanup due => some { s.push allocated due .cleanup with exiting := .finished }
  | .finished => none

/-- The next step of a worker. A cleanup task of a thread that has been deleted reads a block that
has been freed: by then the process has ended, so that it finds nothing to do. -/
def workerStep (given : Int × Int) (i : Nat) (s : ExitState) : Option ExitState :=
  match s.workers i with
  | .idle =>
      match s.tasks.upper 0 with
      | none => none
      | some (due, task) =>
          if due ≤ s.time then
            some { s.goto i (.taken task) with tasks := (s.tasks.removeV due task).1 }
          else none
  | .taken (.other _) => some (s.goto i .idle)
  | .taken .exitTask => some (s.goto i (.exitLock false))
  | .taken .cleanup =>
      if s.deleted || s.status != psRunning then some (s.goto i .idle)
      else some (s.goto i .cleanupLock)
  | .cleanupLock =>
      if s.lock then none
      else if s.status = psRunning then
        some { s.goto i (.exitLock true) with listed := false, deleted := true }
      else some (s.goto i .idle)
  | .exitLock byCleanup =>
      if s.lock then none
      else if s.alive then
        some { s.goto i (.recording (exitArgs given byCleanup).2) with
          lock := true
          status := (exitArgs given byCleanup).1 }
      else some (s.goto i .idle)
  | .recording exitCode => some { s.goto i .killing with exitCode := exitCode }
  | .killing =>
      if s.listed then some { s.goto i .waiting with listed := false }
      else some { s.goto i .idle with lock := false }
  | .waiting =>
      if s.exiting = .finished then some { s.goto i .killing with deleted := true } else none

/-- The parent's next step in `process_wait`: it sees that the process has ended, and
`process_get_status` reads the two fields with the lock held. -/
def parentStep (s : ExitState) : Option ExitState :=
  match s.parent with
  | .waiting => if s.alive then none else some { s with parent := .reading }
  | .reading =>
      if s.lock then none
      else some { s with parent := .done, reported := some (s.status, s.exitCode) }
  | .done => none

/-- What may happen next: the clock goes on, another task is queued, or one of the threads makes a
step. -/
inductive ExitEvent where
  | tick (usecs : UInt64)
  | push (allocated : Bool) (due : UInt64) (n : Nat)
  | thread (allocated : Bool)
  | worker (i : Nat)
  | parent
  deriving DecidableEq

/-- The state after an event. -/
def exitStep (given : Int × Int) (s : ExitState) : ExitEvent → Option ExitState
  | .tick usecs => some { s with time := s.time + usecs }
  | .push allocated due n => some (s.push allocated due (.other n))
  | .thread allocated => threadStep allocated s
  | .worker i => workerStep given i s
  | .parent => parentStep s

/-- A process with one thread that is about to call `current_process_exit`. -/
structure ExitState.Initial (s : ExitState) : Prop where
  tasks : ∀ e ∈ s.tasks.root.toList, ∃ n, e.2 = .other n
  exiting : s.exiting = .running
  workers : ∀ i, s.workers i = .idle ∨ ∃ n, s.workers i = .taken (.other n)
  parent : s.parent = .waiting
  status : s.status = psRunning
  lock : s.lock = false
  listed : s.listed = true
  deleted : s.deleted = false
  reported : s.reported = none

/-- The runs in which every event is allowed where it happens. -/
abbrev exitRuns (given : Int × Int) (allowed : ExitState → ExitEvent → Prop) :
    System ExitState :=
  eventRuns ExitState.Initial (exitStep given) allowed

/-- What is recorded once the process has ended and its lock is free, and what `process_wait` has
reported, is what was given. -/
def StatusKept (given : Int × Int) (s : ExitState) : Prop :=
  (s.alive = false → s.lock = false → (s.status, s.exitCode) = given) ∧
    ∀ r, s.reported = some r → r = given

/-- The `process_exit` that the cleanup task calls finds that the process has not ended. -/
def overtakes (s : ExitState) : ExitEvent → Bool
  | .worker i => s.workers i == .exitLock true && !s.lock && s.alive
  | _ => false

section Invariant

variable {given : Int × Int} {s s' : ExitState}

/-- The worker has the lock of the process. -/
def WorkerPc.Holds : WorkerPc → Prop
  | .recording _ | .killing | .waiting => True
  | _ => False

/-- What holds along a run in which the exit task is not overtaken. -/
structure ExitInv (given : Int × Int) (s : ExitState) : Prop where
  holder : ∀ i j, (s.workers i).Holds → (s.workers j).Holds → i = j
  locked : ∀ i, (s.workers i).Holds → s.lock = true
  recording : ∀ i exitCode, s.workers i = .recording exitCode → exitCode = given.2
  ended : s.alive = false → s.status = given.1 ∧
    (s.exitCode = given.2 ∨ ∃ i, s.workers i = .recording given.2)
  reading : s.parent = .reading → s.alive = false
  reported : ∀ r, s.reported = some r → r = given

/-- The fields of the process that the threads share are the same. -/
structure SameFields (s s' : ExitState) : Prop where
  parent : s'.parent = s.parent
  status : s'.status = s.status
  exitCode : s'.exitCode = s.exitCode
  lock : s'.lock = s.lock
  reported : s'.reported = s.reported

/-- What a step of a worker does to the lock and to what is recorded. -/
inductive WorkerMove (given : Int × Int) (i : Nat) (s s' : ExitState) : Prop
  /-- Outside the section that the lock protects, or from one place in it to another. -/
  | quiet (pc : WorkerPc) (hsame : SameFields s s')
      (hworkers : s'.workers = Function.update s.workers i pc)
      (hholds : pc.Holds ↔ (s.workers i).Holds) (hfrom : ∀ c, s.workers i ≠ .recording c)
      (hto : ∀ c, pc ≠ .recording c)
  /-- `process_exit` finds that the process has not ended. -/
  | record (byCleanup : Bool) (hat : s.workers i = .exitLock byCleanup) (hlock : s.lock = false)
      (halive : s.alive = true)
      (hs' : s' = { s.goto i (.recording (exitArgs given byCleanup).2) with
        lock := true
        status := (exitArgs given byCleanup).1 })
  | recordCode (exitCode : Int) (hat : s.workers i = .recording exitCode)
      (hs' : s' = { s.goto i .killing with exitCode := exitCode })
  | unlock (hat : s.workers i = .killing) (hs' : s' = { s.goto i .idle with lock := false })

/-- A step to a place that is on the same side of the lock. -/
theorem WorkerMove.of_same {i : Nat} {old pc : WorkerPc} (hat : s.workers i = old)
    (hsame : SameFields s s') (hworkers : s'.workers = Function.update s.workers i pc)
    (hplaces : (pc.Holds ↔ old.Holds) ∧ (∀ c, old ≠ .recording c) ∧ ∀ c, pc ≠ .recording c) :
    WorkerMove given i s s' := by
  subst hat
  exact .quiet pc hsame hworkers hplaces.1 hplaces.2.1 hplaces.2.2

theorem worker_step_move {i : Nat} (h : workerStep given i s = some s') :
    WorkerMove given i s s' := by
  unfold workerStep at h
  cases hat : s.workers i with
  | idle =>
      rw [hat] at h
      simp only at h
      split at h
      · cases h
      · split at h <;> cases h
        exact .of_same hat ⟨rfl, rfl, rfl, rfl, rfl⟩ rfl (by simp [WorkerPc.Holds])
  | taken task =>
      rw [hat] at h
      cases task with
      | cleanup =>
          simp only at h
          split at h <;> cases h <;>
            exact .of_same hat ⟨rfl, rfl, rfl, rfl, rfl⟩ rfl (by simp [WorkerPc.Holds])
      | _ =>
          cases h
          exact .of_same hat ⟨rfl, rfl, rfl, rfl, rfl⟩ rfl (by simp [WorkerPc.Holds])
  | exitLock byCleanup =>
      rw [hat] at h
      simp only at h
      split at h
      · cases h
      · next hlock =>
          split at h
          · next halive =>
              cases h
              exact .record byCleanup hat (by simpa using hlock) halive rfl
          · cases h
            exact .of_same hat ⟨rfl, rfl, rfl, rfl, rfl⟩ rfl (by simp [WorkerPc.Holds])
  | recording exitCode =>
      rw [hat] at h
      cases h
      exact .recordCode exitCode hat rfl
  | killing =>
      rw [hat] at h
      simp only at h
      split at h
      · cases h
        exact .of_same hat ⟨rfl, rfl, rfl, rfl, rfl⟩ rfl (by simp [WorkerPc.Holds])
      · cases h
        exact .unlock hat rfl
  | waiting =>
      rw [hat] at h
      simp only at h
      split at h <;> cases h
      exact .of_same hat ⟨rfl, rfl, rfl, rfl, rfl⟩ rfl (by simp [WorkerPc.Holds])
  | cleanupLock =>
      rw [hat] at h
      simp only at h
      split at h
      · cases h
      · split at h <;> cases h <;>
          exact .of_same hat ⟨rfl, rfl, rfl, rfl, rfl⟩ rfl (by simp [WorkerPc.Holds])

/-- A step that leaves the workers and the fields alone. -/
theorem ExitInv.same (h : ExitInv given s) (hsame : SameFields s s')
    (hworkers : s'.workers = s.workers) : ExitInv given s' := by
  have halive : s'.alive = s.alive := by
    unfold ExitState.alive
    rw [hsame.status]
  constructor
  · rw [hworkers]
    exact h.holder
  · rw [hworkers, hsame.lock]
    exact h.locked
  · rw [hworkers]
    exact h.recording
  · rw [halive, hsame.status, hsame.exitCode, hworkers]
    exact h.ended
  · rw [halive, hsame.parent]
    exact h.reading
  · rw [hsame.reported]
    exact h.reported

/-- A step outside the section that the lock protects, or from one place in it to another. -/
theorem ExitInv.quiet {i : Nat} {pc : WorkerPc} (h : ExitInv given s) (hsame : SameFields s s')
    (hworkers : s'.workers = Function.update s.workers i pc)
    (hholds : pc.Holds ↔ (s.workers i).Holds) (hfrom : ∀ c, s.workers i ≠ .recording c)
    (hto : ∀ c, pc ≠ .recording c) : ExitInv given s' := by
  have halive : s'.alive = s.alive := by
    unfold ExitState.alive
    rw [hsame.status]
  have hsome : ∀ j, (s'.workers j).Holds ↔ (s.workers j).Holds := by
    intro j
    rw [hworkers]
    by_cases hji : j = i
    · rw [hji, Function.update_self, hholds]
    · rw [Function.update_of_ne hji]
  have hrecording : ∀ j c, s'.workers j = .recording c ↔ s.workers j = .recording c := by
    intro j c
    rw [hworkers]
    by_cases hji : j = i
    · rw [hji, Function.update_self]
      exact ⟨fun heq => absurd heq (hto c), fun heq => absurd heq (hfrom c)⟩
    · rw [Function.update_of_ne hji]
  constructor
  · intro j k hj hk
    exact h.holder j k ((hsome j).mp hj) ((hsome k).mp hk)
  · intro j hj
    rw [hsame.lock]
    exact h.locked j ((hsome j).mp hj)
  · intro j c hj
    exact h.recording j c ((hrecording j c).mp hj)
  · intro hended
    rw [halive] at hended
    obtain ⟨hstatus, hcode⟩ := h.ended hended
    rw [hsame.status, hsame.exitCode]
    exact ⟨hstatus, hcode.imp id fun ⟨j, hj⟩ => ⟨j, (hrecording j _).mpr hj⟩⟩
  · rw [halive, hsame.parent]
    exact h.reading
  · rw [hsame.reported]
    exact h.reported

/-- What was given is recorded, and the lock is taken. -/
theorem ExitInv.record {i : Nat} (h : ExitInv given s) (hlock : s.lock = false)
    (halive : s.alive = true) : ExitInv given { s.goto i (.recording given.2) with
      lock := true
      status := given.1 } := by
  have hfree : ∀ j, ¬ (s.workers j).Holds := by
    intro j hj
    have hheld := h.locked j hj
    rw [hlock] at hheld
    cases hheld
  have hother : ∀ {j}, j ≠ i →
      (s.goto i (.recording given.2)).workers j = s.workers j :=
    fun hji => Function.update_of_ne hji _ _
  have hself : (s.goto i (.recording given.2)).workers i = .recording given.2 :=
    Function.update_self ..
  constructor
  · intro j k hj hk
    have hone : ∀ l, ((s.goto i (.recording given.2)).workers l).Holds → l = i := by
      intro l hl
      by_contra hli
      rw [hother hli] at hl
      exact hfree l hl
    rw [hone j hj, hone k hk]
  · exact fun _ _ => rfl
  · intro j c hj
    by_cases hji : j = i
    · rw [hji] at hj
      exact (WorkerPc.recording.inj (hself.symm.trans hj)).symm
    · exact h.recording j c ((hother hji).symm.trans hj)
  · exact fun _ => ⟨rfl, .inr ⟨i, hself⟩⟩
  · intro hreading
    have hended := h.reading hreading
    rw [halive] at hended
    cases hended
  · exact h.reported

theorem ExitInv.record_code {i : Nat} {exitCode : Int} (h : ExitInv given s)
    (hat : s.workers i = .recording exitCode) :
    ExitInv given { s.goto i .killing with exitCode := exitCode } := by
  have hgiven := h.recording i exitCode hat
  subst hgiven
  have hholds : (s.workers i).Holds := by
    rw [hat]
    trivial
  have hsome : ∀ j, ((s.goto i .killing).workers j).Holds → (s.workers j).Holds := by
    intro j hj
    by_cases hji : j = i
    · rw [hji]
      exact hholds
    · change (Function.update s.workers i .killing j).Holds at hj
      rwa [Function.update_of_ne hji] at hj
  constructor
  · exact fun j k hj hk => h.holder j k (hsome j hj) (hsome k hk)
  · exact fun j hj => h.locked j (hsome j hj)
  · intro j c hj
    by_cases hji : j = i
    · subst hji
      change Function.update s.workers j .killing j = _ at hj
      rw [Function.update_self] at hj
      cases hj
    · change Function.update s.workers i .killing j = _ at hj
      rw [Function.update_of_ne hji] at hj
      exact h.recording j c hj
  · exact fun hended => ⟨(h.ended hended).1, .inl rfl⟩
  · exact h.reading
  · exact h.reported

theorem ExitInv.unlock {i : Nat} (h : ExitInv given s) (hat : s.workers i = .killing) :
    ExitInv given { s.goto i .idle with lock := false } := by
  have hholds : (s.workers i).Holds := by
    rw [hat]
    trivial
  have hnone : ∀ j, ¬ ((s.goto i .idle).workers j).Holds := by
    intro j hj
    by_cases hji : j = i
    · subst hji
      change (Function.update s.workers j WorkerPc.idle j).Holds at hj
      rw [Function.update_self] at hj
      exact hj
    · change (Function.update s.workers i WorkerPc.idle j).Holds at hj
      rw [Function.update_of_ne hji] at hj
      exact hji (h.holder j i hj hholds)
  constructor
  · exact fun j _ hj _ => absurd hj (hnone j)
  · exact fun j hj => absurd hj (hnone j)
  · intro j c hj
    exact absurd (by rw [hj]; trivial) (hnone j)
  · intro hended
    obtain ⟨hstatus, hcode⟩ := h.ended hended
    refine ⟨hstatus, hcode.imp id fun ⟨j, hj⟩ => ?_⟩
    -- Nobody else is between the two writes.
    have hji : j = i := h.holder j i (by rw [hj]; trivial) hholds
    rw [hji, hat] at hj
    cases hj
  · exact h.reading
  · exact h.reported

/-- A step of a worker keeps the invariant, unless the cleanup task overtakes the exit task with
something else to say. -/
theorem ExitInv.worker {i : Nat} (h : ExitInv given s) (hmove : WorkerMove given i s s')
    (hallowed : overtakes s (.worker i) = false ∨ given = (psFinished, 0)) : ExitInv given s' := by
  cases hmove with
  | quiet pc hsame hworkers hholds hfrom hto => exact h.quiet hsame hworkers hholds hfrom hto
  | record byCleanup hat hlock halive hs' =>
      -- Whoever records, it is with what was given.
      have hargs : exitArgs given byCleanup = given := by
        cases byCleanup with
        | false => rfl
        | true =>
            rcases hallowed with hnot | hgiven
            · simp [overtakes, hat, hlock, halive] at hnot
            · rw [hgiven]
              rfl
      rw [hs', hargs]
      exact h.record hlock halive
  | recordCode exitCode hat hs' => exact hs' ▸ h.record_code hat
  | unlock hat hs' => exact hs' ▸ h.unlock hat

theorem ExitInv.parent (h : ExitInv given s) (hstep : parentStep s = some s') :
    ExitInv given s' := by
  unfold parentStep at hstep
  cases hat : s.parent with
  | waiting =>
      rw [hat] at hstep
      simp only at hstep
      split at hstep
      · cases hstep
      · next halive =>
          cases hstep
          exact ⟨h.holder, h.locked, h.recording, h.ended,
            fun _ => Bool.eq_false_iff.mpr halive, h.reported⟩
  | reading =>
      rw [hat] at hstep
      simp only at hstep
      split at hstep
      · cases hstep
      · next hlock =>
          cases hstep
          refine ⟨h.holder, h.locked, h.recording, h.ended, fun hdone => (by cases hdone),
            fun r hr => ?_⟩
          cases hr
          obtain ⟨hstatus, hcode | ⟨j, hj⟩⟩ := h.ended (h.reading hat)
          · exact Prod.ext hstatus hcode
          · exact absurd (h.locked j (by rw [hj]; trivial)) hlock
  | done =>
      rw [hat] at hstep
      cases hstep

theorem same_fields_push (allocated : Bool) (due : UInt64) (task : Task) :
    SameFields s (s.push allocated due task) :=
  ⟨rfl, rfl, rfl, rfl, rfl⟩

/-- Every event that does not let the cleanup task overtake keeps the invariant. -/
theorem ExitInv.step {event : ExitEvent} (h : ExitInv given s)
    (hallowed : overtakes s event = false ∨ given = (psFinished, 0))
    (hstep : exitStep given s event = some s') : ExitInv given s' := by
  cases event with
  | tick usecs =>
      cases hstep
      exact h.same ⟨rfl, rfl, rfl, rfl, rfl⟩ rfl
  | push allocated due n =>
      cases hstep
      exact h.same (same_fields_push ..) rfl
  | thread allocated =>
      change threadStep allocated s = some s' at hstep
      unfold threadStep at hstep
      cases hat : s.exiting with
      | finished =>
          rw [hat] at hstep
          cases hstep
      | running | pushing | exiting | pushingCleanup =>
          rw [hat] at hstep
          cases hstep
          exact h.same ⟨rfl, rfl, rfl, rfl, rfl⟩ rfl
  | worker i => exact h.worker (worker_step_move hstep) hallowed
  | parent => exact h.parent hstep

theorem ExitInv.of_initial (h : s.Initial) : ExitInv given s := by
  have hfree : ∀ i, ¬ (s.workers i).Holds := by
    intro i hi
    rcases h.workers i with heq | ⟨n, heq⟩
    · rw [heq] at hi
      exact hi
    · rw [heq] at hi
      exact hi
  have halive : s.alive = true := by
    unfold ExitState.alive
    rw [h.status]
    rfl
  constructor
  · exact fun i _ hi _ => absurd hi (hfree i)
  · exact fun i hi => absurd hi (hfree i)
  · intro i c hi
    exact absurd (by rw [hi]; trivial) (hfree i)
  · intro hended
    rw [halive] at hended
    cases hended
  · intro hreading
    rw [h.parent] at hreading
    cases hreading
  · intro r hr
    rw [h.reported] at hr
    cases hr

theorem ExitInv.kept (h : ExitInv given s) : StatusKept given s := by
  refine ⟨fun hended hlock => ?_, h.reported⟩
  obtain ⟨hstatus, hcode | ⟨i, hi⟩⟩ := h.ended hended
  · exact Prod.ext hstatus hcode
  · have hheld := h.locked i (by rw [hi]; trivial)
    rw [hlock] at hheld
    cases hheld

end Invariant

/-- In every run in which no `process_exit` of the cleanup task finds the process running, or the
status and the code are the ones that it gives, what is recorded and reported is what was given. -/
theorem exit_status_kept {given : Int × Int} {s : ExitState}
    (h : Reachable (exitRuns given fun s event =>
      overtakes s event = false ∨ given = (psFinished, 0)) s) : StatusKept given s := by
  refine (Reachable.induct (motive := ExitInv given) (fun _ hinit => .of_initial hinit)
    (fun s s' hs hstep => ?_) h).kept
  obtain ⟨event, hallowed, hstep⟩ := hstep
  exact hs.step hallowed hstep

/-- A process that is about to fail with the code `1`, ten milliseconds after the start. -/
def ExitState.aboutToFail : ExitState where
  time := 10000
  tasks := .create
  exiting := .running
  workers := fun _ => .idle
  parent := .waiting
  status := psRunning
  exitCode := 0
  lock := false
  listed := true
  deleted := false
  reported := none

theorem about_to_fail_initial : ExitState.aboutToFail.Initial where
  tasks := fun _ h => by cases h
  exiting := rfl
  workers := fun _ => .inl rfl
  parent := rfl
  status := rfl
  lock := rfl
  listed := rfl
  deleted := rfl
  reported := rfl

/-- A worker takes the exit task before the thread has queued the other one. -/
theorem exit_status_kept_first : ∃ s, s.reported = some (psFailure, 1) ∧
    StatusKept (psFailure, 1) s := by
  have hrun : (runEvents (exitStep (psFailure, 1)) (fun s event => !overtakes s event)
      [.thread true, .thread true, .worker 0, .worker 0, .worker 0, .worker 0, .worker 0,
        .thread true, .thread true, .worker 0, .worker 0, .parent, .parent] .aboutToFail).map
      ExitState.reported = some (some (psFailure, 1)) := by
    decide +kernel
  obtain ⟨s, hrun, hreported⟩ := Option.map_eq_some_iff.mp hrun
  exact ⟨s, hreported, exit_status_kept (.run_events
    (fun s event hpass => .inl (by simpa using hpass)) (.init about_to_fail_initial) hrun)⟩

/-- The two tasks are due at the same time, and the worker takes the one that was queued last. -/
theorem exit_status_lost : ¬ ∀ s, Reachable (exitRuns (psFailure, 1) fun _ _ => True) s →
    StatusKept (psFailure, 1) s := by
  intro hclaim
  have hrun : (runEvents (exitStep (psFailure, 1)) (fun _ _ => true)
      [.thread true, .thread true, .thread true, .thread true, .worker 0, .worker 0, .worker 0,
        .worker 0, .worker 0, .worker 0, .parent, .parent] .aboutToFail).map
      ExitState.reported = some (some (psFinished, 0)) := by
    decide +kernel
  obtain ⟨s, hrun, hreported⟩ := Option.map_eq_some_iff.mp hrun
  have hkept := hclaim s (.run_events (fun _ _ _ => trivial)
    (.init about_to_fail_initial) hrun)
  exact absurd (hkept.2 _ hreported) (by decide)

end Kogata.Kernel
