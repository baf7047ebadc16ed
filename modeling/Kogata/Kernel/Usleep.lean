import Kogata.Kernel.Worker

/-!
# `usleep`

`usleep` of `kernel/core/thread.c` queues the task that wakes the thread before the thread waits,
and a wake-up that finds nobody waiting is forgotten. A thread sleeps for ever if a worker runs the
task in between, and only then.
-/

namespace Kogata.Kernel.Worker

open Lib.Run

variable {T F : Type}

/-- The task of a thread that `usleep` has sent to `worker_push_in`, up to the end of `wait_on`. -/
def Place.sleeper : Place T F → Option (Task T F)
  | .pushLock task true => some task
  | .add task true => some task
  | .lower task true => some task
  | .pushUnlock task true => some task
  | .parking task => some task
  | .asleep task => some task
  | _ => none

/-- The task is in the tree, and its thread is not in `wait_on` yet. -/
def Place.exposed : Place T F → Option (Task T F)
  | .lower task true => some task
  | .pushUnlock task true => some task
  | .parking task => some task
  | _ => none

/-- No worker calls the function of a task whose thread is between `btree_add` and `wait_on`. -/
def NotExposed (s : State T F) : Event T F → Prop
  | .thread w => ∀ t task, s.place w = .call task → (s.place t).exposed ≠ some task
  | _ => True

/-- The task of a thread that waits to be woken has not been run, and it wakes this thread. -/
structure State.Rests (s : State T F) : Prop where
  wakes : ∀ t task, (s.place t).sleeper = some task → task.work = .usleepResumeOnV t
  ahead : ∀ t task, (s.place t).exposed = some task ∨ s.place t = .asleep task → task ∉ s.runs

/-- A thread that is exposed is on its way to sleep. -/
theorem Place.sleeper_of_exposed {place : Place T F} {task : Task T F}
    (h : place.exposed = some task ∨ place = .asleep task) : place.sleeper = some task := by
  rcases h with hexposed | rfl
  · unfold exposed at hexposed
    split at hexposed <;> first | exact hexposed | cases hexposed
  · rfl

section Steps

variable {s s' : State T F}

/-- Resuming threads takes no one to sleep. -/
theorem State.Rests.woken (h : s.Rests) (hwoken : Woken s s') : s'.Rests := by
  have hruns : s'.runs = s.runs := by rw [hwoken.same]
  refine ⟨fun t task htask => ?_, fun t task htask => ?_⟩
  · rcases hwoken.place t with hsame | ⟨-, houtside⟩ | ⟨-, htop⟩
    · exact h.wakes t task (hsame ▸ htask)
    · rw [houtside] at htask
      cases htask
    · rw [htop] at htask
      cases htask
  · rw [hruns]
    rcases hwoken.place t with hsame | ⟨-, houtside⟩ | ⟨-, htop⟩
    · exact h.ahead t task (hsame ▸ htask)
    · rw [houtside] at htask
      rcases htask with htask | htask <;> cases htask
    · rw [htop] at htask
      rcases htask with htask | htask <;> cases htask

variable [DecidableEq T]

/-- A thread goes to another place, and no task is run. -/
theorem State.Rests.move (h : s.Rests) {t : T} {new : Place T F}
    (hplace : s'.place = Function.update s.place t new) (hruns : s'.runs = s.runs)
    (hwakes : ∀ task, new.sleeper = some task → task.work = .usleepResumeOnV t)
    (hahead : ∀ task, new.exposed = some task ∨ new = .asleep task → task ∉ s.runs) :
    s'.Rests := by
  refine ⟨fun u task htask => ?_, fun u task htask => ?_⟩
  · rw [hplace] at htask
    by_cases hu : u = t
    · subst hu
      rw [Function.update_self] at htask
      exact hwakes task htask
    · rw [Function.update_of_ne hu] at htask
      exact h.wakes u task htask
  · rw [hplace] at htask
    rw [hruns]
    by_cases hu : u = t
    · subst hu
      rw [Function.update_self] at htask
      exact hahead task htask
    · rw [Function.update_of_ne hu] at htask
      exact h.ahead u task htask

/-- The call of the function of a task that no thread is exposed with. -/
theorem State.Rests.call (h : s.Rests) {w : T} {task : Task T F}
    (hexposed : ∀ t, (s.place t).exposed ≠ some task) :
    State.Rests { (s.run task.work).goto w .top with runs := task :: s.runs } := by
  have hwoken := run_woken s task.work
  have hrests := h.woken hwoken
  have hruns : (s.run task.work).runs = s.runs := by rw [hwoken.same]
  refine ⟨fun u other hother => ?_, fun u other hother => ?_⟩
  · change (Function.update (s.run task.work).place w .top u).sleeper = some other at hother
    by_cases hu : u = w
    · rw [hu, Function.update_self] at hother
      cases hother
    · rw [Function.update_of_ne hu] at hother
      exact hrests.wakes u other hother
  · change (Function.update (s.run task.work).place w .top u).exposed = some other ∨
      Function.update (s.run task.work).place w .top u = .asleep other at hother
    by_cases hu : u = w
    · rw [hu, Function.update_self] at hother
      rcases hother with hother | hother <;> cases hother
    · rw [Function.update_of_ne hu] at hother
      have hold := hrests.ahead u other hother
      rw [hruns] at hold
      refine fun hmem => (List.mem_cons.mp hmem).elim (fun heq => ?_) hold
      -- The task that is called is the one that this thread waits for: it is not exposed, so that
      -- it was asleep, and has been resumed.
      subst heq
      have hwork := hrests.wakes u other (Place.sleeper_of_exposed hother)
      rcases hwoken.place u with hsame | ⟨-, houtside⟩ | ⟨-, htop⟩
      · rw [hsame] at hother
        have hasleep := hother.resolve_left (hexposed u)
        have hresumed : (s.run other.work).place u = .outside := by
          rw [hwork]
          exact resume_on_asleep hasleep
        rw [hsame, hasleep] at hresumed
        cases hresumed
      · rw [houtside] at hother
        rcases hother with hother | hother <;> cases hother
      · rw [htop] at hother
        rcases hother with hother | hother <;> cases hother

variable [DecidableEq F]

/-- A step of a thread other than the call of a task: where the thread comes to be exposed or
asleep, it was so before, or has just added its task. -/
theorem thread_step_moves {t : T} (hcall : ∀ task, s.place t ≠ .call task)
    (hstep : threadStep s t = some s') :
    ∃ new, s'.place = Function.update s.place t new ∧ s'.runs = s.runs ∧
      (∀ task, new.sleeper = some task → (s.place t).sleeper = some task) ∧
      ∀ task, new.exposed = some task ∨ new = .asleep task →
        ((s.place t).exposed = some task ∨ s.place t = .asleep task) ∨
          (s.place t).coming = some task := by
  cases thread_step_cases hstep with
  | call hplace => exact absurd hplace (hcall _)
  | @pushLock task sleep hplace _ | @add task sleep _ hplace _ | @lower task sleep hplace
  | @pushUnlock task sleep hplace =>
      refine ⟨_, rfl, rfl, ?_⟩
      cases sleep <;> simp [hplace, Place.sleeper, Place.exposed, Place.coming]
  | _ => exact ⟨_, rfl, rfl, by simp [*, Place.sleeper, Place.exposed]⟩

/-- A step of a thread that calls no exposed task. -/
theorem State.Rests.thread_step (h : s.Rests) (hsound : s.Sound) {t : T}
    (hexposed : NotExposed s (.thread t)) (hstep : threadStep s t = some s') : s'.Rests := by
  by_cases hcall : ∃ task, s.place t = .call task
  · obtain ⟨task, hplace⟩ := hcall
    unfold threadStep at hstep
    simp only [hplace] at hstep
    cases hstep
    exact h.call fun u => hexposed u task hplace
  · obtain ⟨new, hplace, hruns, hsleeper, hahead⟩ :=
      thread_step_moves (fun task hplace => hcall ⟨task, hplace⟩) hstep
    refine h.move hplace hruns (fun task htask => h.wakes t task (hsleeper task htask))
      fun task htask => ?_
    rcases hahead task htask with hbefore | hcoming
    · exact h.ahead t task hbefore
    · intro hmem
      cases hsound.accounted.unique (show s.At task (.coming t) from hcoming)
        (show s.At task .ran from hmem)

/-- An event that calls no exposed task. -/
theorem State.Rests.step (h : s.Rests) (hsound : s.Sound) {workers : List T} {event : Event T F}
    (hexposed : NotExposed s event) (hstep : step workers s event = some s') : s'.Rests := by
  cases event with
  | tick =>
      cases hstep
      unfold State.tick
      simp only
      have hclock : State.Rests { s with
          time := s.time + 1000000 / 100, past := (s.time + 1000000 / 100) :: s.past } :=
        ⟨h.wakes, h.ahead⟩
      split
      · exact hclock.woken (resume_first_spec workers _).1
      · exact hclock
  | usleep t usecs =>
      simp only [Worker.step] at hstep
      split at hstep
      · cases hstep
        refine h.move (t := t) rfl rfl (fun task htask => ?_) fun task htask => ?_
        · obtain rfl : s.newTask usecs (.usleepResumeOnV t) = task := Option.some.inj htask
          rfl
        · rcases htask with htask | htask <;> cases htask
      · cases hstep
  | workerPushIn t usecs work =>
      simp only [Worker.step] at hstep
      split at hstep
      · cases hstep
        refine h.move (t := t) rfl rfl (fun task htask => ?_) fun task htask => ?_
        · cases htask
        · rcases htask with htask | htask <;> cases htask
      · cases hstep
  | thread t => exact h.thread_step hsound hexposed hstep
  | resumeOn t =>
      cases hstep
      exact h.woken (resume_on_woken s t)

/-- In a run in which no worker calls the function of an exposed task, the task of every thread
that is asleep is still to be run. -/
theorem asleep_task_to_run {workers : List T} (hs : Reachable (workerRuns workers NotExposed) s)
    (t : T) (task : Task T F) (hasleep : s.place t = .asleep task) : task ∉ s.runs := by
  have hinv : s.Sound ∧ s.Rests := by
    refine Reachable.induct (motive := fun s => s.Sound ∧ s.Rests) ?_ ?_ hs
    · intro s hinit
      have hbare : ∀ t, s.place t = .top ∨ s.place t = .outside := fun t => by
        rw [hinit.place t]
        split
        · exact .inl rfl
        · exact .inr rfl
      refine ⟨hinit.sound, fun u other hother => ?_, fun u other hother => ?_⟩
      · rcases hbare u with hplace | hplace <;> rw [hplace] at hother <;> cases hother
      · rw [hinit.runs]
        exact List.not_mem_nil
    · rintro s s' ⟨hsound, hrests⟩ ⟨event, hexposed, hstep⟩
      exact ⟨hsound.step hstep, hrests.step hsound hexposed hstep⟩
  exact hinv.2.ahead t task (.inr hasleep)

/-- A thread that is exposed goes to sleep by its own steps, whatever has become of its task. -/
theorem exposed_falls_asleep (workers : List T) {t : T} {task : Task T F}
    (h : (s.place t).exposed = some task) :
    ∃ n s', runEvents (Worker.step workers) (fun _ _ => true) (List.replicate n (.thread t)) s =
      some s' ∧ s'.place t = .asleep task ∧ s'.runs = s.runs := by
  cases hplace : s.place t with
  | lower first sleep =>
      cases sleep with
      | false =>
          rw [hplace] at h
          cases h
      | true =>
          rw [hplace] at h
          obtain rfl : first = task := Option.some.inj h
          refine ⟨3, ?_⟩
          simp [List.replicate, runEvents, Worker.step, threadStep, hplace, State.goto]
  | pushUnlock first sleep =>
      cases sleep with
      | false =>
          rw [hplace] at h
          cases h
      | true =>
          rw [hplace] at h
          obtain rfl : first = task := Option.some.inj h
          refine ⟨2, ?_⟩
          simp [List.replicate, runEvents, Worker.step, threadStep, hplace, State.goto]
  | parking first =>
      rw [hplace] at h
      obtain rfl : first = task := Option.some.inj h
      refine ⟨1, ?_⟩
      simp [List.replicate, runEvents, Worker.step, threadStep, hplace, State.goto]
  | _ =>
      rw [hplace] at h
      cases h

/-- Where a worker does call the function of an exposed task, the thread can only go to sleep for
ever. -/
theorem exposed_call_lost (workers : List T) {t w : T} {task : Task T F}
    (hcall : s.place w = .call task) (h : (s.place t).exposed = some task) :
    ∃ n s', runEvents (Worker.step workers) (fun _ _ => true)
      (.thread w :: List.replicate n (.thread t)) s = some s' ∧
        s'.place t = .asleep task ∧ task ∈ s'.runs := by
  have hne : t ≠ w := by
    rintro rfl
    rw [hcall] at h
    cases h
  have hwoken := run_woken s task.work
  have hsame : (s.run task.work).place t = s.place t := by
    rcases hwoken.place t with hsame | ⟨⟨_, hasleep⟩, -⟩ | ⟨hwaiting, -⟩
    · exact hsame
    · rw [hasleep] at h
      cases h
    · rw [hwaiting] at h
      cases h
  generalize hcalled : ({ (s.run task.work).goto w .top with runs := task :: s.runs } :
    State T F) = called
  have hstep : Worker.step workers s (.thread w) = some called := by
    rw [← hcalled]
    simp [Worker.step, threadStep, hcall]
  have hexposed : (called.place t).exposed = some task := by
    rw [← hcalled]
    show (Function.update (s.run task.work).place w .top t).exposed = some task
    rw [Function.update_of_ne hne, hsame]
    exact h
  have hmem : task ∈ called.runs := by
    rw [← hcalled]
    exact List.mem_cons_self
  obtain ⟨n, s', hrun, hasleep, hruns⟩ := exposed_falls_asleep workers hexposed
  refine ⟨n, s', ?_, hasleep, hruns ▸ hmem⟩
  simp [runEvents, hstep, hrun]

end Steps

/-- The events of a thread that sleeps for no time, with a worker that is given the processor
between `worker_push_in` and `wait_on`. -/
def lostWakeUp : List (Event Bool Nat) :=
  .usleep false 0 :: (List.replicate 4 (.thread false) ++ List.replicate 9 (.thread true)) ++
    [.thread false]

/-- The thread is then in `wait_on`, and its task has been run. -/
theorem sleeps_for_ever :
    ∃ s : State Bool Nat, Reachable (workerRuns [true] fun _ _ => True) s ∧
      ∃ task, s.place false = .asleep task ∧ task ∈ s.runs := by
  let s := (runEvents (step [true]) (fun _ _ => true) lostWakeUp (boot [true])).getD (boot [true])
  have hrun : runEvents (step [true]) (fun _ _ => true) lostWakeUp (boot [true]) = some s := rfl
  exact ⟨s, Reachable.run_events (fun _ _ _ => trivial) (.init (boot_initial [true])) hrun,
    ⟨0, 0, .usleepResumeOnV false⟩, by decide, by decide⟩

/-- A worker has run a task, and the thread that sleeps after that is still to be woken. -/
theorem asleep_before_run :
    ∃ s : State Bool Nat, s.runs.map Task.work = [.other 7 1] ∧
      s.place false = .asleep ⟨1, 5, .usleepResumeOnV false⟩ ∧
      (⟨1, 5, .usleepResumeOnV false⟩ : Task Bool Nat) ∉ s.runs := by
  let events : List (Event Bool Nat) := .workerPushIn false 0 (.other 7 1) ::
    (List.replicate 4 (.thread false) ++ List.replicate 9 (.thread true) ++
      .usleep false 5 :: List.replicate 5 (.thread false))
  let apart : State Bool Nat → Event Bool Nat → Bool := fun s event =>
    match event with
    | .thread w => ∀ t, (s.place t).exposed = none ∨ (s.place w).taken = none
    | _ => true
  have hguard : ∀ s event, apart s event = true → NotExposed s event := by
    intro s event hpass
    cases event with
    | thread w =>
        intro t task hplace hexposed
        rcases (of_decide_eq_true hpass : ∀ t, _ ∨ _) t with hnone | hnone
        · rw [hnone] at hexposed
          cases hexposed
        · rw [hplace] at hnone
          cases hnone
    | _ => exact trivial
  let s := (runEvents (step [true]) apart events (boot [true])).getD (boot [true])
  have hrun : runEvents (step [true]) apart events (boot [true]) = some s := rfl
  exact ⟨s, by decide, by decide, asleep_task_to_run (Reachable.run_events hguard
    (.init (boot_initial [true])) hrun) false _ (by decide)⟩

end Kogata.Kernel.Worker
