import Kogata.Lib.Run
import Mathlib.Logic.Function.Basic
import Mathlib.Tactic.Common

/-!
# Ending a process while its threads run

`process_exit` of `kernel/user/process.c` against the threads of the process. `process_exit` keeps
`p->lock` from its first test to its end, and in between `kill_thread` waits for each thread until
it has finished. A thread that is being killed goes on in the kernel until it is about to return
to user mode, and `mutex_lock` does not look at `must_exit`.
-/

namespace Kogata.Kernel.Teardown

open Lib.Run

/-- The functions of `process.c` that a system call runs and that take `p->lock`. -/
inductive ProcFun where
  | procReadFd
  | procFindFs
  | findUserRegion
  | procAddFd
  | mmap
  | munmap
  deriving DecidableEq

/-- How often the function takes `p->lock` after the first time: `mmap` and `munmap` call
`find_user_region` before they take the lock themselves. -/
def ProcFun.more : ProcFun → Nat
  | .mmap | .munmap => 1
  | _ => 0

/-- Where a thread of the process is: not created, in front of its first instruction in user mode,
in user mode, in a system call, in a function that takes the lock `more` times yet, in the loop of
`mutex_lock`, behind it, in `wait_on`, and finished. -/
inductive Place where
  | absent
  | starting
  | user
  | kernel
  | inCall (more : Nat)
  | locking (more : Nat)
  | holding (more : Nat)
  | paused
  | finished
  deriving DecidableEq

/-- Where a thread of another process is that may end this one: outside, in the loop of
`mutex_lock` in `process_exit`, at the head of the loop over the threads, in `kill_thread`, behind
the loop, and in the loop of `mutex_lock` in `process_thread_exited`. -/
inductive EnderPlace (T : Type) where
  | outside
  | exitLock
  | neutralize
  | killing (t : T)
  | releasing
  | cleanupLock (t : T)
  deriving DecidableEq

/-- The process, its threads and those that end it. -/
structure State (T E : Type) where
  lock : Bool
  /-- `p->status` is `PS_RUNNING` or `PS_LOADING`. -/
  alive : Bool
  threads : List T
  place : T → Place
  mustExit : T → Bool
  ender : E → EnderPlace T

/-- What a thread of the process may do next. -/
inductive ThreadAct (T : Type) where
  | start
  | trap
  | call (f : ProcFun)
  | lock
  | unlock
  | again
  | giveUp
  | wait
  | resume
  | leave
  | exit
  | spawn (u : T)
  deriving DecidableEq

/-- What a thread of another process may do next. -/
inductive EnderAct (T : Type) where
  | exit
  | cleanup (t : T)
  | step
  deriving DecidableEq

/-- A step of one of the threads. -/
inductive Event (T E : Type) where
  | thread (t : T) (act : ThreadAct T)
  | ender (e : E) (act : EnderAct T)
  deriving DecidableEq

variable {T E : Type} [DecidableEq T] [DecidableEq E]

/-- The thread is at another place. -/
def State.goto (s : State T E) (t : T) (place : Place) : State T E :=
  { s with place := Function.update s.place t place }

/-- The ender is at another place. -/
def State.move (s : State T E) (e : E) (place : EnderPlace T) : State T E :=
  { s with ender := Function.update s.ender e place }

/-- A step of a thread of the process. A thread that has been interrupted in user mode looks at
`must_exit` before it goes on there; one that starts does not. -/
def threadStep (s : State T E) (t : T) : ThreadAct T → Option (State T E)
  | .start => if s.place t = .starting then some (s.goto t .user) else none
  | .trap =>
      if s.place t = .starting ∨ (s.place t = .user ∧ s.mustExit t = false) then
        some (s.goto t .kernel)
      else none
  | .call f => if s.place t = .kernel then some (s.goto t (.locking f.more)) else none
  | .lock =>
      match s.place t with
      | .locking more => if s.lock then none else some { s.goto t (.holding more) with lock := true }
      | _ => none
  | .unlock =>
      match s.place t with
      | .holding more => some { s.goto t (.inCall more) with lock := false }
      | _ => none
  | .again =>
      match s.place t with
      | .inCall (more + 1) => some (s.goto t (.locking more))
      | _ => none
  | .giveUp =>
      match s.place t with
      | .inCall _ => some (s.goto t .kernel)
      | _ => none
  | .wait => if s.place t = .kernel then some (s.goto t .paused) else none
  | .resume => if s.place t = .paused then some (s.goto t .kernel) else none
  | .leave =>
      if s.place t = .kernel then some (s.goto t (if s.mustExit t then .finished else .user))
      else if s.place t = .user ∧ s.mustExit t = true then some (s.goto t .finished)
      else none
  | .exit => if s.place t = .kernel then some (s.goto t .finished) else none
  | .spawn u =>
      match s.place t with
      | .holding _ =>
          if s.place u = .absent then some { s.goto u .starting with threads := u :: s.threads }
          else none
      | _ => none

/-- A step of a thread of another process in `process_exit` or `process_thread_exited`. -/
def enderStep (s : State T E) (e : E) : EnderAct T → Option (State T E)
  | .exit => if s.ender e = .outside then some (s.move e .exitLock) else none
  | .cleanup t =>
      if s.ender e = .outside ∧ s.place t = .finished then some (s.move e (.cleanupLock t))
      else none
  | .step =>
      match s.ender e with
      | .outside => none
      | .exitLock =>
          if s.lock then none
          else if s.alive then some { s.move e .neutralize with lock := true, alive := false }
          else some (s.move e .outside)
      | .neutralize =>
          match s.threads with
          | [] => some (s.move e .releasing)
          | t :: rest =>
              some { s.move e (.killing t) with
                threads := rest
                mustExit := Function.update s.mustExit t true }
      | .killing t =>
          if s.place t = .finished then some (s.move e .neutralize)
          else if s.place t = .paused then some (s.goto t .kernel)
          else none
      | .releasing => some { s.move e .outside with lock := false }
      | .cleanupLock t =>
          if s.lock then none
          else if s.alive then
            some { s.move e (if s.threads.erase t = [] then .exitLock else .outside) with
              threads := s.threads.erase t }
          else some (s.move e .outside)

/-- The state after an event. -/
def step (s : State T E) : Event T E → Option (State T E)
  | .thread t act => threadStep s t act
  | .ender e act => enderStep s e act

/-- A process whose threads are in user mode. -/
structure State.Initial (s : State T E) : Prop where
  lock : s.lock = false
  place : ∀ t, s.place t = .user ∨ s.place t = .absent
  ender : ∀ e, s.ender e = .outside

/-- The runs in which every event is allowed where it happens. -/
abbrev runs (allowed : State T E → Event T E → Prop) : System (State T E) :=
  eventRuns State.Initial step allowed

/-- `process_exit` waits in `kill_thread` for a thread that waits in `mutex_lock` for the lock that
`process_exit` has. -/
def Deadlock (s : State T E) (e : E) (t : T) : Prop :=
  s.ender e = .killing t ∧ ∃ more, s.place t = .locking more

/-- The thread is in the loop of `mutex_lock`. -/
def Place.isLocking : Place → Bool
  | .locking _ => true
  | _ => false

/-- The ender is in the loop of `process_exit` over the threads. -/
def EnderPlace.inLoop : EnderPlace T → Bool
  | .neutralize | .killing _ => true
  | _ => false

/-- `process_exit` gets the lock while a thread of the process waits for it, or a thread of the
process calls `mutex_lock` during the loop over the threads. -/
def Collides (s : State T E) : Event T E → Prop
  | .ender e .step =>
      s.ender e = .exitLock ∧ s.lock = false ∧ s.alive = true ∧ ∃ t, (s.place t).isLocking
  | .thread _ (.call _) | .thread _ .again => ∃ e, (s.ender e).inLoop
  | _ => False

section Safe

variable {s s' : State T E}

/-- During the loop over the threads none of them waits for the lock. -/
def LoopClear (s : State T E) : Prop :=
  ∀ e, (s.ender e).inLoop = true → ∀ t, (s.place t).isLocking = false

omit [DecidableEq E] in
/-- A thread goes to a place that is not in `mutex_lock`. -/
theorem LoopClear.goto (h : LoopClear s) {t : T} {place : Place}
    (hplace : place.isLocking = false) {s' : State T E} (hender : s'.ender = s.ender)
    (hs' : s'.place = Function.update s.place t place) : LoopClear s' := by
  intro e he u
  rw [hs']
  by_cases hu : u = t
  · rw [hu, Function.update_self]
    exact hplace
  · rw [Function.update_of_ne hu]
    exact h e (hender ▸ he) u

omit [DecidableEq E] in
theorem LoopClear.thread_step (h : LoopClear s) {t : T} {act : ThreadAct T}
    (hallowed : ¬ Collides s (.thread t act)) (hstep : threadStep s t act = some s') :
    LoopClear s' := by
  -- outside the loop over the threads there is nothing to show
  have hoff : (∀ e, (s.ender e).inLoop = false) → s'.ender = s.ender → LoopClear s' :=
    fun hnone hsame e he => absurd (hsame ▸ he) (by simp [hnone e])
  have hnone : ¬ (∃ e, (s.ender e).inLoop = true) → ∀ e, (s.ender e).inLoop = false :=
    fun hno e => Bool.eq_false_iff.mpr fun he => hno ⟨e, he⟩
  cases act with
  | call f =>
      simp only [threadStep] at hstep
      split at hstep <;> cases hstep
      exact hoff (hnone hallowed) rfl
  | again =>
      simp only [threadStep] at hstep
      split at hstep <;> cases hstep
      exact hoff (hnone hallowed) rfl
  | start | wait | resume | exit | trap =>
      simp only [threadStep] at hstep
      split at hstep <;> cases hstep
      exact h.goto rfl rfl rfl
  | unlock | giveUp =>
      simp only [threadStep] at hstep
      split at hstep <;> cases hstep
      exact h.goto rfl rfl rfl
  | lock =>
      simp only [threadStep] at hstep
      split at hstep
      · split at hstep <;> cases hstep
        exact h.goto rfl rfl rfl
      · cases hstep
  | leave =>
      simp only [threadStep] at hstep
      split at hstep
      · cases hstep
        exact h.goto (by split <;> rfl) rfl rfl
      · split at hstep <;> cases hstep
        exact h.goto rfl rfl rfl
  | spawn u =>
      simp only [threadStep] at hstep
      split at hstep
      · split at hstep <;> cases hstep
        exact h.goto rfl rfl rfl
      · cases hstep

omit [DecidableEq T] in
/-- An ender goes to a place, in the loop only from the loop. -/
theorem LoopClear.move (h : LoopClear s) {e : E} {place : EnderPlace T}
    (hloop : place.inLoop = true → (s.ender e).inLoop = true) {s' : State T E}
    (hs' : s'.ender = Function.update s.ender e place) (hplace : s'.place = s.place) :
    LoopClear s' := by
  intro e' he' t
  rw [hplace]
  rw [hs'] at he'
  by_cases heq : e' = e
  · rw [heq, Function.update_self] at he'
    exact h e (hloop he') t
  · rw [Function.update_of_ne heq] at he'
    exact h e' he' t

theorem LoopClear.ender_step (h : LoopClear s) {e : E} {act : EnderAct T}
    (hallowed : ¬ Collides s (.ender e act)) (hstep : enderStep s e act = some s') :
    LoopClear s' := by
  cases act with
  | exit =>
      simp only [enderStep] at hstep
      split at hstep <;> cases hstep
      exact h.move (by simp [EnderPlace.inLoop]) rfl rfl
  | cleanup t =>
      simp only [enderStep] at hstep
      split at hstep <;> cases hstep
      exact h.move (by simp [EnderPlace.inLoop]) rfl rfl
  | step =>
      simp only [enderStep] at hstep
      cases hat : s.ender e with
      | outside =>
          rw [hat] at hstep
          cases hstep
      | exitLock =>
          rw [hat] at hstep
          simp only at hstep
          split at hstep
          · cases hstep
          · next hfree =>
              split at hstep
              · next halive =>
                  cases hstep
                  -- the loop begins, and nobody waits for the lock
                  intro e' _ t
                  refine Bool.eq_false_iff.mpr fun hlocking => hallowed ?_
                  exact ⟨hat, Bool.eq_false_iff.mpr hfree, halive, t, hlocking⟩
              · cases hstep
                exact h.move (by simp [EnderPlace.inLoop]) rfl rfl
      | neutralize =>
          rw [hat] at hstep
          simp only at hstep
          split at hstep
          · cases hstep
            exact h.move (by simp [EnderPlace.inLoop]) rfl rfl
          · cases hstep
            exact h.move (fun _ => by rw [hat]; rfl) rfl rfl
      | killing t =>
          rw [hat] at hstep
          simp only at hstep
          split at hstep
          · cases hstep
            exact h.move (fun _ => by rw [hat]; rfl) rfl rfl
          · split at hstep <;> cases hstep
            exact h.goto rfl rfl rfl
      | releasing =>
          rw [hat] at hstep
          cases hstep
          exact h.move (by simp [EnderPlace.inLoop]) rfl rfl
      | cleanupLock t =>
          rw [hat] at hstep
          simp only at hstep
          split at hstep
          · cases hstep
          · split at hstep
            · cases hstep
              exact h.move (by split <;> simp [EnderPlace.inLoop]) rfl rfl
            · cases hstep
              exact h.move (by simp [EnderPlace.inLoop]) rfl rfl

/-- In every run in which `process_exit` gets the lock when no thread of the process waits for it,
and no thread of the process calls `mutex_lock` before the loop over the threads has ended,
`process_exit` never waits for a thread that waits for it. -/
theorem teardown_safe (h : Reachable (runs fun s event => ¬ Collides s event) s) (e : E) (t : T) :
    ¬ Deadlock s e t := by
  have hclear : LoopClear s := Reachable.induct (motive := LoopClear)
    (fun s hinit e he => by
      rw [hinit.ender e] at he
      cases he)
    (fun s s' hs hstep => by
      obtain ⟨event, hallowed, hstep⟩ := hstep
      cases event with
      | thread t act => exact hs.thread_step hallowed hstep
      | ender e act => exact hs.ender_step hallowed hstep) h
  rintro ⟨hkilling, more, hlocking⟩
  have hnot := hclear e (by rw [hkilling]; rfl) t
  rw [hlocking] at hnot
  cases hnot

end Safe

section Examples

/-- One thread in user mode, and one other thread that may end the process. -/
def oneThread : State (Fin 1) (Fin 1) where
  lock := false
  alive := true
  threads := [0]
  place := fun _ => .user
  mustExit := fun _ => false
  ender := fun _ => .outside

theorem one_thread_initial : oneThread.Initial :=
  ⟨rfl, fun _ => .inl rfl, fun _ => rfl⟩

/-- A process whose thread is interrupted in user mode is ended. -/
theorem teardown_safe_user : ∃ s : State (Fin 1) (Fin 1),
    s.place 0 = .finished ∧ ∀ e t, ¬ Deadlock s e t := by
  have hrun : (runEvents step (fun s event => match event with
        | .ender _ _ => decide (∀ t, (s.place t).isLocking = false)
        | .thread _ .leave => true
        | _ => false)
      [.ender 0 .exit, .ender 0 .step, .ender 0 .step, .thread 0 .leave, .ender 0 .step,
        .ender 0 .step, .ender 0 .step] oneThread).map (fun s => s.place 0) =
      some .finished := by
    decide +kernel
  obtain ⟨s, hrun, hfinished⟩ := Option.map_eq_some_iff.mp hrun
  refine ⟨s, hfinished, teardown_safe (Reachable.run_events (fun s event hpass => ?_)
    (.init one_thread_initial) hrun)⟩
  cases event with
  | ender e act =>
      have hclear := of_decide_eq_true hpass
      cases act with
      | exit | cleanup => exact id
      | step =>
          rintro ⟨-, -, -, t, hlocking⟩
          rw [hclear t] at hlocking
          cases hlocking
  | thread t act =>
      cases act with
      | leave => exact id
      | start | trap | call | lock | unlock | again | giveUp | wait | resume | exit | spawn =>
          cases hpass

/-- A thread in `proc_read_fd` and `process_exit` wait for each other. -/
theorem teardown_deadlocks : ¬ ∀ (s : State (Fin 1) (Fin 1)) (e t : Fin 1),
    Reachable (runs fun _ _ => True) s → ¬ Deadlock s e t := by
  intro hclaim
  have hrun : (runEvents step (fun _ _ => true)
      [.thread 0 .trap, .ender 0 .exit, .ender 0 .step, .thread 0 (.call .procReadFd),
        .ender 0 .step] oneThread).map (fun s => s.ender 0 == .killing 0 &&
          s.place 0 == .locking 0) = some true := by
    decide +kernel
  obtain ⟨s, hrun, hstuck⟩ := Option.map_eq_some_iff.mp hrun
  obtain ⟨hkilling, hlocking⟩ := Bool.and_eq_true_iff.mp hstuck
  exact hclaim s 0 0 (Reachable.run_events (fun _ _ _ => trivial) (.init one_thread_initial) hrun)
    ⟨beq_iff_eq.mp hkilling, 0, beq_iff_eq.mp hlocking⟩

end Examples

end Kogata.Kernel.Teardown
