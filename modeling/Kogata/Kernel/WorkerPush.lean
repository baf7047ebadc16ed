import Kogata.Kernel.Worker

/-!
# Tasks that do not get their memory

`worker_push_in` of `kernel/core/worker.c` allocates the record of the task, and `btree_add` the
node of the tree. Either may fail. The first failure is answered with `false`; `worker_push_in`
drops the answer of `btree_add`, and `exit` of `kernel/core/thread.c` that of `worker_push`
(`nothing_dropped`).
-/

namespace Kogata.Kernel.Worker

open Kogata.Common Lib.Run

variable {T F : Type}

/-- The worker threads, the calls of `worker_push_in` that have returned (the task, if it got its
record, and the result), the threads in the `worker_push` of `exit`, and those that have finished,
with the task of their `exit`. -/
structure PushState (T F : Type) where
  worker : State T F
  returned : List (Option (Task T F) × Bool)
  exiting : T → Bool
  finished : T → Option (Option (Task T F))

/-- What may happen next. `record` and `node` say whether `malloc` gives the record of the task and
the node of the tree. -/
inductive PushEvent (T F : Type) where
  | tick
  | usleep (t : T) (usecs : Int32) (record : Bool)
  | workerPushIn (t : T) (usecs : Int32) (work : Work T F) (record : Bool)
  | exit (t : T) (record : Bool)
  | thread (t : T) (node : Bool)
  | resumeOn (t : T)
  deriving DecidableEq

section Steps

variable [DecidableEq T] [DecidableEq F]

/-- `worker_push_in` up to `mutex_lock`. -/
def PushState.call (s : PushState T F) (t : T) (usecs : Int32) (work : Work T F) (sleep : Bool)
    (record : Bool) : PushState T F :=
  if record then { s with worker := s.worker.push t usecs work sleep }
  else { s with returned := (none, false) :: s.returned }

/-- The thread may make a call. -/
def PushState.Free (s : PushState T F) (t : T) : Prop :=
  s.worker.place t = .outside ∧ s.finished t = none

instance (s : PushState T F) (t : T) : Decidable (s.Free t) :=
  inferInstanceAs (Decidable (_ ∧ _))

/-- The next step of a thread. `exit` stops the thread where its `worker_push` has returned. -/
def PushState.threadStep (s : PushState T F) (t : T) (node : Bool) : Option (PushState T F) :=
  match s.worker.place t with
  | .add task sleep =>
      let lower := s.worker.goto t (.lower task sleep)
      match s.worker.tasks.add node task.time task with
      | none => some { s with worker := lower }
      | some tasks => some { s with worker := { lower with tasks := tasks } }
  | .pushUnlock task _ =>
      (Worker.threadStep s.worker t).map fun worker =>
        let s := { s with worker := worker, returned := (some task, true) :: s.returned }
        if s.exiting t then
          { s with
            exiting := Function.update s.exiting t false
            finished := Function.update s.finished t (some (some task)) }
        else s
  | _ => (Worker.threadStep s.worker t).map fun worker => { s with worker := worker }

/-- The state after an event. `exitCleanupTask` is the work that `exit` pushes. -/
def pushStep (exitCleanupTask : T → Work T F) (workers : List T) (s : PushState T F) :
    PushEvent T F → Option (PushState T F)
  | .tick => some { s with worker := s.worker.tick workers }
  | .usleep t usecs record =>
      if s.Free t then some (s.call t usecs (.usleepResumeOnV t) true record) else none
  | .workerPushIn t usecs work record =>
      if s.Free t then some (s.call t usecs work false record) else none
  | .exit t record =>
      if s.Free t then
        let s := s.call t 0 (exitCleanupTask t) false record
        if record then some { s with exiting := Function.update s.exiting t true }
        else some { s with finished := Function.update s.finished t (some none) }
      else none
  | .thread t node => s.threadStep t node
  | .resumeOn t => some { s with worker := (s.worker.resumeOn t).2 }

/-- The state after `start_workers`. -/
structure PushState.Initial (workers : List T) (s : PushState T F) : Prop where
  worker : s.worker.Initial workers
  returned : s.returned = []
  exiting : ∀ t, s.exiting t = false
  finished : ∀ t, s.finished t = none

/-- The runs in which every event is allowed where it happens. -/
abbrev pushRuns (exitCleanupTask : T → Work T F) (workers : List T)
    (allowed : PushState T F → PushEvent T F → Prop) : System (PushState T F) :=
  eventRuns (PushState.Initial workers) (pushStep exitCleanupTask workers) allowed

end Steps

/-- `btree_add` gets its node, and `exit` its record. -/
def WithMemory (s : PushState T F) : PushEvent T F → Prop
  | .thread t node => node = true ∨ ∀ task sleep, s.worker.place t ≠ .add task sleep
  | .exit _ record => record = true
  | _ => True

/-- The task of a thread in `worker_push_in`. -/
def Place.calling : Place T F → Option (Task T F)
  | .pushLock task _ => some task
  | .add task _ => some task
  | .lower task _ => some task
  | .pushUnlock task _ => some task
  | _ => none

/-- The task is in the tree, or with one worker, or it was run, and that once. -/
structure State.Kept (s : State T F) (task : Task T F) : Prop where
  once : ∃! spot, s.At task spot
  added : ∀ t, ¬ s.At task (.coming t)
  queuedOnce : (queued s.tasks).Nodup
  ranOnce : s.runs.Nodup

/-- What is said of `worker_push_in`: it has returned true exactly for the tasks that are kept, no
other task is anywhere unless its call goes on, and a thread has finished with its task in the
queue. A tick leaves no due task to workers that all wait. -/
structure NothingDropped (exitCleanupTask : T → Work T F) (workers : List T)
    (s : PushState T F) [DecidableEq T] [DecidableEq F] : Prop where
  result : ∀ call ∈ s.returned, call.2 = true ↔ ∃ task, call.1 = some task ∧ s.worker.Kept task
  only : ∀ task spot, s.worker.At task spot →
    (∃ t, (s.worker.place t).calling = some task) ∨ (some task, true) ∈ s.returned
  exits : ∀ t own, s.finished t = some own →
    ∃ task, own = some task ∧ task.work = exitCleanupTask t ∧ (some task, true) ∈ s.returned
  woken : s.worker.tasksMutex = false → workers ≠ [] →
    ∀ task ∈ queued s.worker.tasks, task.time ≤ (s.worker.tick workers).time →
      ∃ w ∈ workers, (s.worker.tick workers).place w ≠ .waiting

section Calls

variable {s s' : State T F} {t : T} {task : Task T F}

/-- The task was pushed, and nobody is about to add it. -/
def State.Entered (s : State T F) (task : Task T F) : Prop :=
  task ∈ s.pushed ∧ ∀ u, (s.place u).coming ≠ some task

theorem Place.calling_of_coming {place : Place T F} (h : place.coming = some task) :
    place.calling = some task := by
  cases place with
  | pushLock _ _ | add _ _ => exact h
  | _ => cases h

theorem State.Entered.keep (h : s.Entered task) (hpushed : ∀ x ∈ s.pushed, x ∈ s'.pushed)
    (hcoming : ∀ u, (s'.place u).coming = some task → (s.place u).coming = some task) :
    s'.Entered task :=
  ⟨hpushed task h.1, fun u hu => h.2 u (hcoming u hu)⟩

/-- A task that was pushed and that nobody is about to add is kept. -/
theorem State.Entered.kept (h : s.Entered task) (hsound : s.Sound) : s.Kept task := by
  obtain ⟨spot, hspot, hall⟩ := hsound.accounted.spots
  obtain ⟨place, hplace⟩ := Option.isSome_iff_exists.mp ((hall task).mpr h.1)
  have hat := (hspot task place).mpr hplace
  exact ⟨⟨place, hat, fun other hother => hsound.accounted.unique hother hat⟩, h.2,
    hsound.timetable.nodup, hsound.accounted.once⟩

/-- What the step of a thread does to the calls of `worker_push_in`: the thread comes no nearer to
adding a task, or its call returns. -/
structure CallStep (s s' : State T F) (t : T) : Prop where
  pushed : s'.pushed = s.pushed
  others : ∀ u, u ≠ t → (s'.place u).calling = (s.place u).calling ∧
    (s'.place u).coming = (s.place u).coming
  coming : (s'.place t).coming = (s.place t).coming ∨ (s'.place t).coming = none
  calling : (s'.place t).calling = (s.place t).calling ∨
    (∃ task sleep, s.place t = .pushUnlock task sleep) ∧ (s'.place t).calling = none

/-- Threads that are resumed are in no call. -/
theorem Woken.calls (h : Woken s s') (u : T) :
    (s'.place u).calling = (s.place u).calling ∧ (s'.place u).coming = (s.place u).coming := by
  rcases h.place u with hsame | ⟨⟨task, hasleep⟩, houtside⟩ | ⟨hwaiting, htop⟩
  · rw [hsame]
    exact ⟨rfl, rfl⟩
  · rw [hasleep, houtside]
    exact ⟨rfl, rfl⟩
  · rw [hwaiting, htop]
    exact ⟨rfl, rfl⟩

variable [DecidableEq T]

theorem CallStep.goto {new : Place T F} (hplace : s'.place = Function.update s.place t new)
    (hpushed : s'.pushed = s.pushed)
    (hcoming : new.coming = (s.place t).coming ∨ new.coming = none)
    (hcalling : new.calling = (s.place t).calling ∨
      (∃ task sleep, s.place t = .pushUnlock task sleep) ∧ new.calling = none) :
    CallStep s s' t := by
  have hself : s'.place t = new := by rw [hplace, Function.update_self]
  refine ⟨hpushed, fun u hu => ?_, hself ▸ hcoming, hself ▸ hcalling⟩
  rw [hplace, Function.update_of_ne hu]
  exact ⟨rfl, rfl⟩

variable [DecidableEq F]

/-- A step of a thread. The function of a task may resume other threads. -/
theorem thread_step_calls (hstep : threadStep s t = some s') : CallStep s s' t := by
  cases thread_step_cases hstep with
  | pushLock hplace _ => exact .goto rfl rfl (.inl (hplace ▸ rfl)) (.inl (hplace ▸ rfl))
  | @pushUnlock task sleep hplace =>
      have hnew : (if sleep then Place.parking task else .outside).coming = none ∧
          (if sleep then Place.parking task else .outside).calling = none := by
        cases sleep <;> exact ⟨rfl, rfl⟩
      exact .goto rfl rfl (.inr hnew.1) (.inr ⟨⟨task, sleep, hplace⟩, hnew.2⟩)
  | @call task hplace =>
      have hwoken := run_woken s task.work
      have hself : ((s.run task.work).goto t .top).place t = .top := Function.update_self ..
      refine ⟨?_, fun u hu => ?_, .inr ?_, .inl ?_⟩
      · show (s.run task.work).pushed = s.pushed
        rw [hwoken.same]
      · have hother : ((s.run task.work).goto t .top).place u = (s.run task.work).place u :=
          Function.update_of_ne hu ..
        obtain ⟨hcalling, hcoming⟩ := hwoken.calls u
        exact ⟨(congrArg Place.calling hother).trans hcalling,
          (congrArg Place.coming hother).trans hcoming⟩
      · exact congrArg Place.coming hself
      · have hbefore : (s.place t).calling = none := congrArg Place.calling hplace
        exact (congrArg Place.calling hself).trans hbefore.symm
  | add hplace | lower hplace | parking hplace | top hplace | look hplace | note hplace
  | nothing hplace | compare hplace | due hplace | early hplace | remove hplace | unlock hplace
  | idle hplace | test hplace => exact .goto rfl rfl (.inr rfl) (.inl (hplace ▸ rfl))

end Calls

section Books

/-- The invariant of the calls of `worker_push_in`: the tasks of the calls that go on, and those of
the calls that have returned. -/
structure PushState.Books (exitCleanupTask : T → Work T F) (s : PushState T F) : Prop where
  sound : s.worker.Sound
  calls : ∀ t task, (s.worker.place t).calling = some task → task ∈ s.worker.pushed ∧
    ((s.worker.place t).coming = none → s.worker.Entered task)
  returned : ∀ task b, (some task, b) ∈ s.returned → b = true ∧ s.worker.Entered task
  refused : ∀ b, (none, b) ∈ s.returned → b = false
  called : ∀ task ∈ s.worker.pushed, (∃ t, (s.worker.place t).calling = some task) ∨
    (some task, true) ∈ s.returned
  exiting : ∀ t, s.exiting t = true → ∃ task, (s.worker.place t).calling = some task ∧
    task.work = exitCleanupTask t
  finished : ∀ t own, s.finished t = some own →
    ∃ task, own = some task ∧ task.work = exitCleanupTask t ∧ (some task, true) ∈ s.returned

variable {exitCleanupTask : T → Work T F} {s : PushState T F} {worker : State T F} {t : T}
  {task : Task T F}

/-- Nothing has happened to the calls. -/
theorem PushState.Books.same (h : s.Books exitCleanupTask) (hsound : worker.Sound)
    (hpushed : worker.pushed = s.worker.pushed)
    (hcalls : ∀ u, (worker.place u).calling = (s.worker.place u).calling ∧
      (worker.place u).coming = (s.worker.place u).coming) :
    ({ s with worker := worker } : PushState T F).Books exitCleanupTask := by
  have hkeep : ∀ {x}, s.worker.Entered x → worker.Entered x := fun hx =>
    hx.keep (fun y hy => hpushed ▸ hy) fun u hu => (hcalls u).2 ▸ hu
  refine ⟨hsound, fun u x hx => ?_, fun x b hx => ?_, h.refused, fun x hx => ?_, fun u hu => ?_,
    h.finished⟩
  · obtain ⟨hmem, hentered⟩ := h.calls u x ((hcalls u).1 ▸ hx)
    exact ⟨hpushed ▸ hmem, fun hcoming => hkeep (hentered ((hcalls u).2 ▸ hcoming))⟩
  · exact ⟨(h.returned x b hx).1, hkeep (h.returned x b hx).2⟩
  · refine (h.called x (hpushed ▸ hx)).imp (fun ⟨u, hu⟩ => ⟨u, ?_⟩) id
    exact (hcalls u).1.trans hu
  · obtain ⟨x, hcalling, hwork⟩ := h.exiting u hu
    exact ⟨x, (hcalls u).1.trans hcalling, hwork⟩

/-- A call that has got no record. -/
theorem PushState.Books.refuse (h : s.Books exitCleanupTask) :
    ({ s with returned := (none, false) :: s.returned } : PushState T F).Books
      exitCleanupTask := by
  refine ⟨h.sound, h.calls, fun x b hx => ?_, fun b hb => ?_, fun x hx => ?_, h.exiting,
    fun u own hown => ?_⟩
  · cases List.mem_cons.mp hx with
    | inl heq => cases heq
    | inr hmem => exact h.returned x b hmem
  · cases List.mem_cons.mp hb with
    | inl heq => exact congrArg Prod.snd heq
    | inr hmem => exact h.refused b hmem
  · exact (h.called x hx).imp id (List.mem_cons_of_mem _)
  · obtain ⟨x, hx, hwork, hmem⟩ := h.finished u own hown
    exact ⟨x, hx, hwork, List.mem_cons_of_mem _ hmem⟩

variable [DecidableEq T]

section

variable (h : s.Books exitCleanupTask)

include h

/-- A step in a call that does not return. -/
theorem PushState.Books.thread (hsound : worker.Sound)
    (hcall : CallStep s.worker worker t)
    (hcalling : (worker.place t).calling = (s.worker.place t).calling) :
    ({ s with worker := worker } : PushState T F).Books exitCleanupTask := by
  have hcallings : ∀ u, (worker.place u).calling = (s.worker.place u).calling := fun u => by
    by_cases hu : u = t
    · exact hu ▸ hcalling
    · exact (hcall.others u hu).1
  have hcomings : ∀ u x, (worker.place u).coming = some x → (s.worker.place u).coming = some x :=
    fun u x hx => by
      by_cases hu : u = t
      · subst hu
        refine hcall.coming.elim (fun hsame => hsame ▸ hx) fun hnone => ?_
        rw [hnone] at hx
        cases hx
      · exact (hcall.others u hu).2 ▸ hx
  have hkeep : ∀ {x}, s.worker.Entered x → worker.Entered x := fun {x} hx =>
    hx.keep (fun y hy => hcall.pushed ▸ hy) fun u => hcomings u x
  refine ⟨hsound, fun u x hx => ?_, fun x b hx => ?_, h.refused, fun x hx => ?_, fun u hu => ?_,
    h.finished⟩
  · obtain ⟨hmem, hentered⟩ := h.calls u x (hcallings u ▸ hx)
    refine ⟨hcall.pushed ▸ hmem, fun hnone => ?_⟩
    cases hbefore : (s.worker.place u).coming with
    | none => exact hkeep (hentered hbefore)
    | some y =>
        -- the thread has just added its task, and nobody else was about to do so
        have hsame := Place.calling_of_coming hbefore
        rw [← hcallings u, hx] at hsame
        obtain rfl : x = y := Option.some.inj hsame
        refine ⟨hcall.pushed ▸ hmem, fun v hv => ?_⟩
        have hv' := hcomings v x hv
        have heq := h.sound.accounted.unique (show s.worker.At x (.coming v) from hv')
          (show s.worker.At x (.coming u) from hbefore)
        obtain rfl : v = u := Spot.coming.inj heq
        rw [hnone] at hv
        cases hv
  · exact ⟨(h.returned x b hx).1, hkeep (h.returned x b hx).2⟩
  · refine (h.called x (hcall.pushed ▸ hx)).imp (fun ⟨u, hu⟩ => ⟨u, ?_⟩) id
    exact (hcallings u).trans hu
  · obtain ⟨x, hx, hwork⟩ := h.exiting u hu
    exact ⟨x, (hcallings u).trans hx, hwork⟩

/-- The call of the thread returns. -/
theorem PushState.Books.return (hsound : worker.Sound)
    (hcall : CallStep s.worker worker t) {sleep : Bool}
    (hplace : s.worker.place t = .pushUnlock task sleep)
    (hnone : (worker.place t).calling = none) {exiting : T → Bool}
    {finished : T → Option (Option (Task T F))}
    (hexiting : ∀ u, exiting u = true → s.exiting u = true ∧ u ≠ t)
    (hfinished : ∀ u own, finished u = some own →
      s.finished u = some own ∨ own = some task ∧ task.work = exitCleanupTask u) :
    PushState.Books exitCleanupTask
      ⟨worker, (some task, true) :: s.returned, exiting, finished⟩ := by
  have htask : (s.worker.place t).calling = some task := congrArg Place.calling hplace
  have hcomings : ∀ u x, (worker.place u).coming = some x → (s.worker.place u).coming = some x :=
    fun u x hx => by
      by_cases hu : u = t
      · subst hu
        have hcalling := Place.calling_of_coming hx
        rw [hnone] at hcalling
        cases hcalling
      · exact (hcall.others u hu).2 ▸ hx
  have hkeep : ∀ {x}, s.worker.Entered x → worker.Entered x := fun {x} hx =>
    hx.keep (fun y hy => hcall.pushed ▸ hy) fun u => hcomings u x
  refine ⟨hsound, fun u x hx => ?_, fun x b hx => ?_, fun b hb => ?_, fun x hx => ?_,
    fun u hu => ?_, fun u own hown => ?_⟩
  · have hne : u ≠ t := by
      rintro rfl
      rw [hnone] at hx
      cases hx
    obtain ⟨hcalling, hcoming⟩ := hcall.others u hne
    obtain ⟨hmem, hentered⟩ := h.calls u x (hcalling ▸ hx)
    exact ⟨hcall.pushed ▸ hmem, fun hc => hkeep (hentered (hcoming ▸ hc))⟩
  · cases List.mem_cons.mp hx with
    | inl heq =>
        cases heq
        exact ⟨rfl, hkeep ((h.calls t task htask).2 (congrArg Place.coming hplace))⟩
    | inr hmem => exact ⟨(h.returned x b hmem).1, hkeep (h.returned x b hmem).2⟩
  · cases List.mem_cons.mp hb with
    | inl heq => cases heq
    | inr hmem => exact h.refused b hmem
  · cases h.called x (hcall.pushed ▸ hx) with
    | inl hcalled =>
        obtain ⟨u, hu⟩ := hcalled
        by_cases hut : u = t
        · subst hut
          rw [htask] at hu
          cases hu
          exact .inr List.mem_cons_self
        · exact .inl ⟨u, (hcall.others u hut).1.trans hu⟩
    | inr hmem => exact .inr (List.mem_cons_of_mem _ hmem)
  · obtain ⟨hold, hne⟩ := hexiting u hu
    obtain ⟨x, hx, hwork⟩ := h.exiting u hold
    exact ⟨x, (hcall.others u hne).1.trans hx, hwork⟩
  · cases hfinished u own hown with
    | inl hold =>
        obtain ⟨x, hx, hwork, hmem⟩ := h.finished u own hold
        exact ⟨x, hx, hwork, List.mem_cons_of_mem _ hmem⟩
    | inr hnew => exact ⟨task, hnew.1, hnew.2, List.mem_cons_self⟩

/-- A call that has got its record. -/
theorem PushState.Books.push
    (hplace : s.worker.place t = .outside) (usecs : Int32) (work : Work T F) (sleep : Bool) :
    ({ s with worker := s.worker.push t usecs work sleep } : PushState T F).Books
      exitCleanupTask := by
  let new := s.worker.newTask usecs work
  have hfresh : new ∉ s.worker.pushed := fun hmem =>
    Nat.lt_irrefl _ (h.sound.accounted.numbered new hmem)
  have hself : (s.worker.push t usecs work sleep).place t = .pushLock new sleep :=
    Function.update_self ..
  have hothers : ∀ u, u ≠ t → (s.worker.push t usecs work sleep).place u = s.worker.place u :=
    fun u hu => Function.update_of_ne hu ..
  have hout : (s.worker.place t).calling = none := congrArg Place.calling hplace
  have hkeep : ∀ {x}, s.worker.Entered x → (s.worker.push t usecs work sleep).Entered x :=
    fun {x} hx => by
      refine hx.keep (fun y hy => List.mem_cons_of_mem new hy) fun u hu => ?_
      by_cases hut : u = t
      · subst hut
        rw [hself] at hu
        obtain rfl : new = x := Option.some.inj hu
        exact absurd hx.1 hfresh
      · exact hothers u hut ▸ hu
  refine ⟨h.sound.push hplace usecs work sleep, fun u x hx => ?_, fun x b hx => ?_, h.refused,
    fun x hx => ?_, fun u hu => ?_, h.finished⟩
  · change ((s.worker.push t usecs work sleep).place u).calling = some x at hx
    by_cases hut : u = t
    · subst hut
      rw [hself] at hx
      obtain rfl : new = x := Option.some.inj hx
      refine ⟨List.mem_cons_self, fun hcoming => ?_⟩
      change ((s.worker.push u usecs work sleep).place u).coming = none at hcoming
      rw [hself] at hcoming
      cases hcoming
    · rw [hothers u hut] at hx
      refine ⟨List.mem_cons_of_mem new (h.calls u x hx).1, fun hcoming => ?_⟩
      change ((s.worker.push t usecs work sleep).place u).coming = none at hcoming
      rw [hothers u hut] at hcoming
      exact hkeep ((h.calls u x hx).2 hcoming)
  · exact ⟨(h.returned x b hx).1, hkeep (h.returned x b hx).2⟩
  · cases List.mem_cons.mp hx with
    | inl heq => exact .inl ⟨t, heq ▸ congrArg Place.calling hself⟩
    | inr hmem =>
        refine (h.called x hmem).imp (fun ⟨u, hu⟩ => ⟨u, ?_⟩) id
        have hne : u ≠ t := by
          rintro rfl
          rw [hout] at hu
          cases hu
        exact (congrArg Place.calling (hothers u hne)).trans hu
  · obtain ⟨x, hx, hwork⟩ := h.exiting u hu
    have hne : u ≠ t := by
      rintro rfl
      rw [hout] at hx
      cases hx
    exact ⟨x, (congrArg Place.calling (hothers u hne)).trans hx, hwork⟩

/-- The call of `exit`. -/
theorem PushState.Books.exits
    (htask : (s.worker.place t).calling = some task) (hwork : task.work = exitCleanupTask t) :
    ({ s with exiting := Function.update s.exiting t true } : PushState T F).Books
      exitCleanupTask := by
  refine ⟨h.sound, h.calls, h.returned, h.refused, h.called, fun u hu => ?_, h.finished⟩
  by_cases hut : u = t
  · exact ⟨task, hut ▸ htask, hut ▸ hwork⟩
  · exact h.exiting u ((Function.update_of_ne hut ..).symm.trans hu)

end

variable [DecidableEq F] {s' : PushState T F} {workers : List T}

/-- A step of a thread that gets its memory. -/
theorem PushState.Books.thread_step (h : s.Books exitCleanupTask) {node : Bool}
    (hmemory : WithMemory s (.thread t node)) (hstep : s.threadStep t node = some s') :
    s'.Books exitCleanupTask := by
  unfold PushState.threadStep at hstep
  split at hstep
  · next task sleep hplace =>
    -- the same step as in a run in which there is memory
    obtain rfl : node = true := hmemory.resolve_right fun hnot => hnot task sleep hplace
    cases hadd : s.worker.tasks.add true task.time task with
    | none => cases hadd
    | some tasks =>
        simp only [hadd] at hstep
        cases hstep
        have hthread : Worker.threadStep s.worker t =
            some { s.worker.goto t (.lower task sleep) with tasks := tasks } := by
          simp only [Worker.threadStep, hplace, hadd]
        have hcall := thread_step_calls hthread
        refine h.thread (h.sound.thread_step hthread) hcall (hcall.calling.resolve_right ?_)
        rintro ⟨⟨x, y, hunlock⟩, -⟩
        rw [hplace] at hunlock
        cases hunlock
  · next task sleep hplace =>
    obtain ⟨worker, hthread, rfl⟩ := Option.map_eq_some_iff.mp hstep
    have hcall := thread_step_calls hthread
    have hsound := h.sound.thread_step hthread
    have hnone : (worker.place t).calling = none := by
      simp only [Worker.threadStep, hplace] at hthread
      cases hthread
      show (Function.update s.worker.place t _ t).calling = none
      rw [Function.update_self]
      cases sleep <;> rfl
    simp only
    split
    · next hexit =>
      obtain ⟨x, hx, hwork⟩ := h.exiting t hexit
      rw [hplace] at hx
      obtain rfl : task = x := Option.some.inj hx
      refine h.return hsound hcall hplace hnone (fun u hu => ?_) fun u own hown => ?_
      · by_cases hut : u = t
        · subst hut
          rw [Function.update_self] at hu
          cases hu
        · exact ⟨(Function.update_of_ne hut ..).symm.trans hu, hut⟩
      · by_cases hut : u = t
        · subst hut
          rw [Function.update_self] at hown
          exact .inr ⟨(Option.some.inj hown).symm, hwork⟩
        · exact .inl ((Function.update_of_ne hut ..).symm.trans hown)
    · next hexit =>
      refine h.return hsound hcall hplace hnone (fun u hu => ⟨hu, ?_⟩) fun u own hown => .inl hown
      rintro rfl
      exact hexit hu
  · next hadd hunlock =>
    obtain ⟨worker, hthread, rfl⟩ := Option.map_eq_some_iff.mp hstep
    have hcall := thread_step_calls hthread
    refine h.thread (h.sound.thread_step hthread) hcall (hcall.calling.resolve_right ?_)
    rintro ⟨⟨task, sleep, hplace⟩, -⟩
    exact hunlock task sleep hplace

/-- Every event that gets its memory keeps the invariant. -/
theorem PushState.Books.step (h : s.Books exitCleanupTask) {event : PushEvent T F}
    (hmemory : WithMemory s event) (hstep : pushStep exitCleanupTask workers s event = some s') :
    s'.Books exitCleanupTask := by
  have hrecord : ∀ {t usecs work sleep record}, s.Free t →
      (s.call t usecs work sleep record).Books exitCleanupTask := by
    intro t usecs work sleep record hfree
    cases record with
    | false => exact h.refuse
    | true => exact h.push hfree.1 usecs work sleep
  cases event with
  | tick =>
      cases hstep
      have htick : Worker.step workers s.worker .tick = some (s.worker.tick workers) := rfl
      refine h.same (h.sound.step htick) ?_ ?_
      · unfold State.tick
        simp only
        split
        · rw [(resume_first_spec workers _).1.same]
        · rfl
      · intro u
        unfold State.tick
        simp only
        split
        · exact (resume_first_spec workers _).1.calls u
        · exact ⟨rfl, rfl⟩
  | usleep t usecs record =>
      simp only [pushStep] at hstep
      split at hstep
      · next hfree =>
        cases hstep
        exact hrecord hfree
      · cases hstep
  | workerPushIn t usecs work record =>
      simp only [pushStep] at hstep
      split at hstep
      · next hfree =>
        cases hstep
        exact hrecord hfree
      · cases hstep
  | exit t record =>
      obtain rfl : record = true := hmemory
      simp only [pushStep] at hstep
      split at hstep
      · next hfree =>
        cases hstep
        have hplace : (s.worker.push t 0 (exitCleanupTask t) false).place t =
            .pushLock (s.worker.newTask 0 (exitCleanupTask t)) false := Function.update_self ..
        have hbooks : (s.call t 0 (exitCleanupTask t) false true).Books exitCleanupTask :=
          hrecord hfree
        exact hbooks.exits (congrArg Place.calling hplace) rfl
      · cases hstep
  | thread t node => exact h.thread_step hmemory hstep
  | resumeOn t =>
      cases hstep
      have hwoken := resume_on_woken s.worker t
      exact h.same (h.sound.woken hwoken) (by rw [hwoken.same]) hwoken.calls

end Books

section Runs

variable [DecidableEq T] [DecidableEq F] {exitCleanupTask : T → Work T F} {workers : List T}
  {s s' : PushState T F}

omit [DecidableEq F] in
theorem PushState.Initial.books (h : s.Initial workers) : s.Books exitCleanupTask := by
  have hsound := h.worker.sound
  have hbare : ∀ t, (s.worker.place t).calling = none := fun t => by
    rw [h.worker.place t]
    split <;> rfl
  refine ⟨hsound, fun t task htask => ?_, fun task b hb => ?_, fun b hb => ?_,
    fun task htask => ?_, fun t ht => ?_, fun t own hown => ?_⟩
  · rw [hbare t] at htask
    cases htask
  · rw [h.returned] at hb
    cases hb
  · rw [h.returned] at hb
    cases hb
  · rw [h.worker.pushed] at htask
    cases htask
  · rw [h.exiting t] at ht
    cases ht
  · rw [h.finished t] at hown
    cases hown

/-- The invariant holds in every run in which `btree_add` and `exit` get their memory. -/
theorem push_runs_books (hs : Reachable (pushRuns exitCleanupTask workers WithMemory) s) :
    s.Books exitCleanupTask := by
  refine Reachable.induct (motive := PushState.Books exitCleanupTask) ?_ ?_ hs
  · exact fun s hinit => hinit.books
  · rintro s s' h ⟨event, hmemory, hstep⟩
    exact h.step hmemory hstep

theorem PushState.Books.tasks_kept (h : s.Books exitCleanupTask) (workers : List T) :
    NothingDropped exitCleanupTask workers s := by
  refine ⟨fun call hcall => ?_, fun task spot hat => h.called task (h.sound.accounted.mem hat),
    h.finished, fun hfree hne task htask hdue => h.sound.due_wakes hfree hne htask hdue⟩
  obtain ⟨own, b⟩ := call
  cases own with
  | none =>
      refine iff_of_false ?_ ?_
      · rw [h.refused b hcall]
        exact Bool.false_ne_true
      · rintro ⟨task, htask, -⟩
        cases htask
  | some task =>
      obtain ⟨htrue, hentered⟩ := h.returned task b hcall
      exact iff_of_true htrue ⟨task, rfl, hentered.kept h.sound⟩

/-- A call that returns false leaves the tree alone. -/
theorem refused_unchanged {event : PushEvent T F}
    (hstep : pushStep exitCleanupTask workers s event = some s') {own : Option (Task T F)}
    (hreturned : s'.returned = (own, false) :: s.returned) :
    s'.worker.tasks = s.worker.tasks := by
  have hlonger : s'.returned ≠ s.returned := fun heq =>
    List.cons_ne_self (own, false) s.returned (hreturned.symm.trans heq)
  have hcall : ∀ t usecs work sleep record,
      (s.call t usecs work sleep record).worker.tasks = s.worker.tasks := by
    intro t usecs work sleep record
    cases record <;> rfl
  cases event with
  | tick | resumeOn t =>
      cases hstep
      exact absurd rfl hlonger
  | usleep t usecs record | workerPushIn t usecs work record =>
      simp only [pushStep] at hstep
      split at hstep
      · cases hstep
        exact hcall ..
      · cases hstep
  | exit t record =>
      simp only [pushStep] at hstep
      split at hstep
      · cases record <;> cases hstep <;> exact hcall ..
      · cases hstep
  | thread t node =>
      simp only [pushStep, PushState.threadStep] at hstep
      split at hstep
      · split at hstep <;> cases hstep <;> exact absurd rfl hlonger
      · obtain ⟨worker, -, rfl⟩ := Option.map_eq_some_iff.mp hstep
        split at hreturned <;> cases hreturned
      · obtain ⟨worker, -, rfl⟩ := Option.map_eq_some_iff.mp hstep
        exact absurd rfl hlonger

omit [DecidableEq F] in
/-- A task in a spot after its thread has gone on, with nothing in hand, was in it before. -/
theorem at_of_goto {worker worker' : State T F} {t : T} {new : Place T F} {task : Task T F}
    (hplace : worker'.place = Function.update worker.place t new)
    (hnew : new.coming = none ∧ new.taken = none) (htasks : worker'.tasks = worker.tasks)
    (hruns : worker'.runs = worker.runs) {spot : Spot T} (hat : worker'.At task spot) :
    worker.At task spot ∧ spot ≠ .coming t := by
  cases spot with
  | coming u =>
      change (worker'.place u).coming = some task at hat
      rw [hplace] at hat
      by_cases hu : u = t
      · subst hu
        rw [Function.update_self, hnew.1] at hat
        cases hat
      · rw [Function.update_of_ne hu] at hat
        exact ⟨hat, fun heq => hu (Spot.coming.inj heq)⟩
  | taken u =>
      change (worker'.place u).taken = some task at hat
      rw [hplace] at hat
      by_cases hu : u = t
      · subst hu
        rw [Function.update_self, hnew.2] at hat
        cases hat
      · rw [Function.update_of_ne hu] at hat
        exact ⟨hat, fun heq => by cases heq⟩
  | queued =>
      have hmem : task ∈ queued worker'.tasks := hat
      exact ⟨show task ∈ queued worker.tasks from htasks ▸ hmem, fun heq => by cases heq⟩
  | ran =>
      have hmem : task ∈ worker'.runs := hat
      exact ⟨show task ∈ worker.runs from hruns ▸ hmem, fun heq => by cases heq⟩

/-- A thread behind `btree_add` comes to the end of its call by its own steps, whether its task is
in the tree or not. -/
theorem lower_returns {t : T} {task : Task T F} {sleep : Bool}
    (hplace : s.worker.place t = .lower task sleep) :
    ∃ s', runEvents (pushStep exitCleanupTask workers) (fun _ _ => true)
      [.thread t true, .thread t true] s = some s' ∧ (some task, true) ∈ s'.returned ∧
        ∀ spot, s'.worker.At task spot → s.worker.At task spot := by
  let next : UInt64 :=
    if task.time < s.worker.nextTaskTime then task.time else s.worker.nextTaskTime
  let unlock : State T F :=
    { s.worker.goto t (.pushUnlock task sleep) with nextTaskTime := next }
  let done : State T F :=
    { unlock.goto t (if sleep then .parking task else .outside) with tasksMutex := false }
  have hunlock : unlock.place t = .pushUnlock task sleep := Function.update_self ..
  have hat : ∀ spot, done.At task spot → s.worker.At task spot := fun spot hspot => by
    have hdone : done.place =
        Function.update unlock.place t (if sleep then .parking task else .outside) := rfl
    have hgone : unlock.place = Function.update s.worker.place t (.pushUnlock task sleep) := rfl
    have hmid : unlock.At task spot ∧ spot ≠ .coming t :=
      at_of_goto hdone (by cases sleep <;> exact ⟨rfl, rfl⟩) rfl rfl hspot
    exact (at_of_goto hgone ⟨rfl, rfl⟩ rfl rfl hmid.1).1
  have hfirst : s.threadStep t true = some { s with worker := unlock } := by
    simp only [PushState.threadStep, Worker.threadStep, hplace]
    rfl
  have hsecond : ∃ s', PushState.threadStep { s with worker := unlock } t true = some s' ∧
      (some task, true) ∈ s'.returned ∧ s'.worker = done := by
    have hthread : Worker.threadStep unlock t = some done := by
      simp only [Worker.threadStep, hunlock]
      rfl
    simp only [PushState.threadStep, hunlock, hthread, Option.map_some]
    refine ⟨_, rfl, ?_, ?_⟩
    · split <;> exact List.mem_cons_self
    · split <;> rfl
  obtain ⟨s', hs', hreturned, hworker⟩ := hsecond
  refine ⟨s', ?_, hreturned, fun spot hspot => hat spot (hworker ▸ hspot)⟩
  simp [runEvents, pushStep, hfirst, hs']

/-- Where `btree_add` or `exit` does not get its memory, the call can only come to its end with
its task dropped. -/
theorem dropped (h : s.Books exitCleanupTask) {event : PushEvent T F}
    (hstep : pushStep exitCleanupTask workers s event = some s') (hno : ¬ WithMemory s event) :
    ∃ events s'', runEvents (pushStep exitCleanupTask workers) (fun _ _ => true) events s' =
      some s'' ∧ ¬ NothingDropped exitCleanupTask workers s'' := by
  cases event with
  | tick | usleep _ _ _ | workerPushIn _ _ _ _ | resumeOn _ => exact absurd trivial hno
  | exit t record =>
      obtain rfl : record = false := by simpa [WithMemory] using hno
      refine ⟨[], s', rfl, fun hnothing => ?_⟩
      simp only [pushStep] at hstep
      split at hstep
      · cases hstep
        obtain ⟨task, htask, -⟩ := hnothing.exits t none (Function.update_self ..)
        cases htask
      · cases hstep
  | thread t node =>
      obtain ⟨hnode, hadd⟩ := not_or.mp hno
      obtain rfl : node = false := Bool.eq_false_iff.mpr hnode
      obtain ⟨task, hadd⟩ := not_forall.mp hadd
      obtain ⟨sleep, hadd⟩ := not_forall.mp hadd
      have hplace : s.worker.place t = .add task sleep := not_not.mp hadd
      have heq : s' = { s with worker := s.worker.goto t (.lower task sleep) } := by
        simp only [pushStep, PushState.threadStep, hplace] at hstep
        cases hstep
        rfl
      subst heq
      have hlower : (s.worker.goto t (.lower task sleep)).place t = .lower task sleep :=
        Function.update_self ..
      obtain ⟨s'', hrun, hreturned, hat⟩ := lower_returns (s := { s with
        worker := s.worker.goto t (.lower task sleep) }) hlower
      refine ⟨_, s'', hrun, fun hnothing => ?_⟩
      -- the task was with its thread, and so is nowhere now
      obtain ⟨x, hx, hkept⟩ := (hnothing.result _ hreturned).mp rfl
      obtain rfl : task = x := Option.some.inj hx
      obtain ⟨spot, hspot, -⟩ := hkept.once
      have hgone : (s.worker.goto t (.lower task sleep)).place =
          Function.update s.worker.place t (.lower task sleep) := rfl
      obtain ⟨hbefore, hne⟩ := at_of_goto hgone ⟨rfl, rfl⟩ rfl rfl (hat spot hspot)
      have hcoming : s.worker.At task (.coming t) := by
        show (s.worker.place t).coming = some task
        rw [hplace]
        rfl
      exact hne (h.sound.accounted.unique hbefore hcoming)

/-- In every run in which `btree_add` and `exit` get their memory, no task is dropped, whether the
records get theirs or not, and a call that returns false leaves the tree alone. A step that does
not get its memory leads to a state in which a task is dropped. -/
theorem nothing_dropped (hs : Reachable (pushRuns exitCleanupTask workers WithMemory) s) :
    NothingDropped exitCleanupTask workers s ∧
      ∀ event s', pushStep exitCleanupTask workers s event = some s' →
        (∀ own, s'.returned = (own, false) :: s.returned →
          s'.worker.tasks = s.worker.tasks) ∧
        (¬ WithMemory s event → ∃ events s'', runEvents (pushStep exitCleanupTask workers)
          (fun _ _ => true) events s' = some s'' ∧
            ¬ NothingDropped exitCleanupTask workers s'') := by
  have h := push_runs_books hs
  refine ⟨h.tasks_kept workers, fun event s' hstep => ⟨fun own hown => ?_, fun hno => ?_⟩⟩
  · exact refused_unchanged hstep hown
  · exact dropped h hstep hno

/-- The state after `start_workers`, when no call has been made. -/
def pushBoot (workers : List T) : PushState T F where
  worker := boot workers
  returned := []
  exiting := fun _ => false
  finished := fun _ => none

omit [DecidableEq F] in
theorem push_boot_initial (workers : List T) : (pushBoot workers : PushState T F).Initial workers :=
  ⟨boot_initial workers, rfl, fun _ => rfl, fun _ => rfl⟩

/-- The work of `exit`. -/
def cleanupOf (t : Bool) : Work Bool Nat := .other 0 t.toNat.toUInt32

/-- A thread that ends has its task queued. -/
theorem exit_queued : ∃ s : PushState Bool Nat, NothingDropped cleanupOf [true] s ∧
    s.finished false = some (some ⟨0, 0, .other 0 0⟩) := by
  let events : List (PushEvent Bool Nat) :=
    .workerPushIn false 0 (.other 7 1) false :: .exit false true ::
      List.replicate 4 (.thread false true)
  let gets : PushState Bool Nat → PushEvent Bool Nat → Bool := fun _ event =>
    match event with
    | .thread _ node => node
    | .exit _ record => record
    | _ => true
  have hguard : ∀ s event, gets s event = true → WithMemory s event := by
    intro s event hpass
    cases event with
    | thread t node => exact .inl hpass
    | exit t record => exact hpass
    | _ => exact trivial
  let s := (runEvents (pushStep cleanupOf [true]) gets events (pushBoot [true])).getD
    (pushBoot [true])
  have hrun : runEvents (pushStep cleanupOf [true]) gets events (pushBoot [true]) = some s := rfl
  exact ⟨s, (nothing_dropped (Reachable.run_events hguard (.init (push_boot_initial [true]))
    hrun)).1, rfl⟩

/-- The tree gets no node, and the call returns true with its task nowhere. -/
theorem task_dropped :
    ∃ s : PushState Bool Nat, Reachable (pushRuns cleanupOf [true] fun _ _ => True) s ∧
      ¬ NothingDropped cleanupOf [true] s := by
  let events : List (PushEvent Bool Nat) :=
    [.workerPushIn false 0 (.other 7 1) true, .thread false true, .thread false false,
      .thread false true, .thread false true]
  let s := (runEvents (pushStep cleanupOf [true]) (fun _ _ => true) events
    (pushBoot [true])).getD (pushBoot [true])
  have hrun : runEvents (pushStep cleanupOf [true]) (fun _ _ => true) events (pushBoot [true]) =
    some s := rfl
  refine ⟨s, Reachable.run_events (fun _ _ _ => trivial) (.init (push_boot_initial [true])) hrun,
    fun hnothing => ?_⟩
  obtain ⟨task, -, hkept⟩ := (hnothing.result (some ⟨0, 0, .other 7 1⟩, true)
    List.mem_cons_self).mp rfl
  obtain ⟨spot, hspot, -⟩ := hkept.once
  cases spot with
  | coming t => cases t <;> cases hspot
  | queued => cases hspot
  | taken t => cases t <;> cases hspot
  | ran => cases hspot

end Runs

end Kogata.Kernel.Worker
