import Kogata.Common.BtreeRefines
import Kogata.Lib.Run

/-!
# Worker threads

`worker_thread`, `worker_push_in` and `notify_time_pass` of `kernel/core/worker.c`, and `usleep` of
`kernel/core/thread.c`. Any number of threads push tasks and sleep, any number of workers take
them, and the clock ticks in between. Every place of a thread below is one in front of an access to
what the threads share. A task is named by the number of its push, as its memory is not given out
again before it has run.

A 64-bit variable is two words on this machine, and interrupts are on. The comparison with the clock
loads the low word and then the high one; a tick that carries between the loads makes a task due
that is not (`early_task_run`). The other accesses are single steps here: `worker_push_in` may read
a clock that was never shown, but a task is due at the time that it has noted; `next_task_time` is
written and read under `tasks_mutex`, and a tick that reads half of a new value resumes a worker in
vain, or leaves that to the next tick; the ticks themselves are not interrupted.
-/

namespace Kogata.Kernel.Worker

open Kogata.Common Lib.Run

/-- `uint64_key_cmp_fun`. -/
def uint64KeyCmpFun (x y : UInt64) : Ordering :=
  if x = y then .eq else if x > y then .gt else .lt

/-- `UINT64_MAX`. -/
abbrev uint64Max : UInt64 := 0xFFFFFFFFFFFFFFFF

/-- The high word of a 64-bit value. -/
def highWord (x : UInt64) : UInt32 := (x >>> 32).toUInt32

/-- The value of two words. -/
def ofWords (low high : UInt32) : UInt64 := high.toUInt64 * 0x100000000 + low.toUInt64

theorem of_words_words (x : UInt64) : ofWords x.toUInt32 (highWord x) = x := by
  apply UInt64.toNat_inj.mp
  have hshift : (x >>> 32).toNat = x.toNat / 4294967296 := by
    rw [UInt64.toNat_shiftRight, Nat.shiftRight_eq_div_pow]
    rfl
  have hx := x.toNat_lt
  rw [ofWords, highWord, UInt64.toNat_add, UInt64.toNat_mul, UInt32.toNat_toUInt64,
    UInt32.toNat_toUInt64, UInt64.toNat_toUInt32, UInt64.toNat_toUInt32, hshift]
  change (x.toNat / 4294967296 % 4294967296 * 4294967296 % _ + x.toNat % 4294967296) % _ = _
  omega

/-- `fun` and `data` of a task: `_usleep_resume_on_v` on a thread, or another function. -/
inductive Work (T F : Type) where
  | usleepResumeOnV (thread : T)
  | other (fn : F) (data : UInt32)
  deriving DecidableEq

/-- `worker_task_t`. -/
structure Task (T F : Type) where
  id : Nat
  time : UInt64
  work : Work T F
  deriving DecidableEq

/-- Where a thread is. In `worker_push_in`: in front of `mutex_lock`, `btree_add`, the access to
`next_task_time` and `mutex_unlock`; `sleep` says that `usleep` has called it. In `usleep` then: in
front of `wait_on`, and in it. In `worker_thread`: in front of `mutex_lock`, `btree_upper`, the
write to `next_task_time`, the two loads of the comparison with the clock, `btree_remove_v`,
`mutex_unlock`, the test of `next_task`, the call of the function, and in `wait_on`. -/
inductive Place (T F : Type) where
  | outside
  | pushLock (task : Task T F) (sleep : Bool)
  | add (task : Task T F) (sleep : Bool)
  | lower (task : Task T F) (sleep : Bool)
  | pushUnlock (task : Task T F) (sleep : Bool)
  | parking (task : Task T F)
  | asleep (task : Task T F)
  | top
  | look
  | note (next : Option (Task T F))
  | compare (next : Option (Task T F))
  | compareHigh (task : Task T F) (low : UInt32)
  | remove (task : Task T F)
  | unlock (next : Option (Task T F))
  | test (next : Option (Task T F))
  | call (task : Task T F)
  | waiting
  deriving DecidableEq

/-- The variables of `worker.c`, and the threads. `pushed` are the tasks of all calls of
`worker_push_in`, `runs` the calls of their functions and `past` the values of the clock, the last
ones first. -/
structure State (T F : Type) where
  time : UInt64
  nextTaskTime : UInt64
  tasks : Btree uint64KeyCmpFun (Task T F)
  tasksMutex : Bool
  place : T → Place T F
  pushed : List (Task T F)
  runs : List (Task T F)
  past : List UInt64

/-- What may happen next. -/
inductive Event (T F : Type) where
  | tick
  | usleep (t : T) (usecs : Int32)
  | workerPushIn (t : T) (usecs : Int32) (work : Work T F)
  | thread (t : T)
  | resumeOn (t : T)
  deriving DecidableEq

variable {T F : Type}

section Steps

variable [DecidableEq T] [DecidableEq F]

/-- The thread is at another place. -/
def State.goto (s : State T F) (t : T) (place : Place T F) : State T F :=
  { s with place := Function.update s.place t place }

/-- `resume_on` of what only the thread itself waits on, with its result. -/
def State.resumeOn (s : State T F) (t : T) : Bool × State T F :=
  match s.place t with
  | .asleep _ => (true, s.goto t .outside)
  | .waiting => (true, s.goto t .top)
  | _ => (false, s)

/-- The loop of `notify_time_pass` over the workers. -/
def State.resumeFirst (s : State T F) : List T → State T F
  | [] => s
  | w :: rest =>
      match s.resumeOn w with
      | (true, s) => s
      | (false, s) => s.resumeFirst rest

/-- `irq0_handler`, with `notify_time_pass(1000000 / TASK_SWITCH_FREQUENCY)`. -/
def State.tick (workers : List T) (s : State T F) : State T F :=
  let time := s.time + 1000000 / 100
  let s := { s with time := time, past := time :: s.past }
  if s.nextTaskTime ≤ s.time then s.resumeFirst workers else s

/-- The task that `worker_push_in` makes. -/
def State.newTask (s : State T F) (usecs : Int32) (work : Work T F) : Task T F where
  id := s.pushed.length
  time := s.time + usecs.toInt64.toUInt64
  work := work

/-- `worker_push_in` up to `mutex_lock`, where the `malloc` succeeds. -/
def State.push (s : State T F) (t : T) (usecs : Int32) (work : Work T F) (sleep : Bool) :
    State T F :=
  let task := s.newTask usecs work
  { s.goto t (.pushLock task sleep) with pushed := task :: s.pushed }

/-- The function of a task. What another function than `_usleep_resume_on_v` does is the doing of
other threads here. -/
def State.run (s : State T F) : Work T F → State T F
  | .usleepResumeOnV thread => (s.resumeOn thread).2
  | .other _ _ => s

/-- The time that a worker notes in `next_task_time`. -/
def timeOf : Option (Task T F) → UInt64
  | none => uint64Max
  | some task => task.time

/-- The next step of a thread. -/
def threadStep (s : State T F) (t : T) : Option (State T F) :=
  match s.place t with
  | .outside => none
  | .pushLock task sleep =>
      if s.tasksMutex then none else some { s.goto t (.add task sleep) with tasksMutex := true }
  | .add task sleep =>
      match s.tasks.add true task.time task with
      | none => none
      | some tasks => some { s.goto t (.lower task sleep) with tasks := tasks }
  | .lower task sleep =>
      some { s.goto t (.pushUnlock task sleep) with
        nextTaskTime := if task.time < s.nextTaskTime then task.time else s.nextTaskTime }
  | .pushUnlock task sleep =>
      some { s.goto t (if sleep then .parking task else .outside) with tasksMutex := false }
  | .parking task => some (s.goto t (.asleep task))
  | .asleep _ => none
  | .top => if s.tasksMutex then none else some { s.goto t .look with tasksMutex := true }
  | .look => some (s.goto t (.note ((s.tasks.upper 0).map Prod.snd)))
  | .note next =>
      some { s.goto t (.compare next) with nextTaskTime := timeOf next }
  | .compare none => some (s.goto t (.unlock none))
  | .compare (some task) => some (s.goto t (.compareHigh task s.time.toUInt32))
  | .compareHigh task low =>
      some (s.goto t
        (if task.time ≤ ofWords low (highWord s.time) then .remove task else .unlock none))
  | .remove task =>
      some { s.goto t (.unlock (some task)) with tasks := (s.tasks.removeV task.time task).1 }
  | .unlock next => some { s.goto t (.test next) with tasksMutex := false }
  | .test none => some (s.goto t .waiting)
  | .test (some task) => some (s.goto t (.call task))
  | .call task => some { (s.run task.work).goto t .top with runs := task :: s.runs }
  | .waiting => none

/-- What a step of a thread does at each place. -/
inductive ThreadStep (s : State T F) (t : T) : State T F → Prop
  | pushLock {task sleep} : s.place t = .pushLock task sleep → s.tasksMutex = false →
      ThreadStep s t { s.goto t (.add task sleep) with tasksMutex := true }
  | add {task sleep tasks} : s.place t = .add task sleep →
      s.tasks.add true task.time task = some tasks →
      ThreadStep s t { s.goto t (.lower task sleep) with tasks := tasks }
  | lower {task sleep} : s.place t = .lower task sleep →
      ThreadStep s t { s.goto t (.pushUnlock task sleep) with
        nextTaskTime := if task.time < s.nextTaskTime then task.time else s.nextTaskTime }
  | pushUnlock {task sleep} : s.place t = .pushUnlock task sleep →
      ThreadStep s t { s.goto t (if sleep then .parking task else .outside) with
        tasksMutex := false }
  | parking {task} : s.place t = .parking task → ThreadStep s t (s.goto t (.asleep task))
  | top : s.place t = .top → s.tasksMutex = false →
      ThreadStep s t { s.goto t .look with tasksMutex := true }
  | look : s.place t = .look →
      ThreadStep s t (s.goto t (.note ((s.tasks.upper 0).map Prod.snd)))
  | note {next} : s.place t = .note next →
      ThreadStep s t { s.goto t (.compare next) with nextTaskTime := timeOf next }
  | nothing : s.place t = .compare none → ThreadStep s t (s.goto t (.unlock none))
  | compare {task} : s.place t = .compare (some task) →
      ThreadStep s t (s.goto t (.compareHigh task s.time.toUInt32))
  | due {task low} : s.place t = .compareHigh task low →
      task.time ≤ ofWords low (highWord s.time) → ThreadStep s t (s.goto t (.remove task))
  | early {task low} : s.place t = .compareHigh task low →
      ¬ task.time ≤ ofWords low (highWord s.time) → ThreadStep s t (s.goto t (.unlock none))
  | remove {task} : s.place t = .remove task →
      ThreadStep s t { s.goto t (.unlock (some task)) with
        tasks := (s.tasks.removeV task.time task).1 }
  | unlock {next} : s.place t = .unlock next →
      ThreadStep s t { s.goto t (.test next) with tasksMutex := false }
  | idle : s.place t = .test none → ThreadStep s t (s.goto t .waiting)
  | test {task} : s.place t = .test (some task) → ThreadStep s t (s.goto t (.call task))
  | call {task} : s.place t = .call task →
      ThreadStep s t { (s.run task.work).goto t .top with runs := task :: s.runs }

/-- The steps of a thread are those. -/
theorem thread_step_cases {s s' : State T F} {t : T} (hstep : threadStep s t = some s') :
    ThreadStep s t s' := by
  unfold threadStep at hstep
  cases hplace : s.place t with
  | outside | asleep _ | waiting =>
      rw [hplace] at hstep
      cases hstep
  | pushLock task sleep =>
      simp only [hplace] at hstep
      split at hstep
      · cases hstep
      · next hfree =>
          cases hstep
          exact .pushLock hplace (Bool.eq_false_iff.mpr hfree)
  | add task sleep =>
      simp only [hplace] at hstep
      split at hstep
      · cases hstep
      · next hadd =>
          cases hstep
          exact .add hplace hadd
  | lower task sleep =>
      rw [hplace] at hstep
      cases hstep
      exact .lower hplace
  | pushUnlock task sleep =>
      rw [hplace] at hstep
      cases hstep
      exact .pushUnlock hplace
  | parking task =>
      rw [hplace] at hstep
      cases hstep
      exact .parking hplace
  | top =>
      simp only [hplace] at hstep
      split at hstep
      · cases hstep
      · next hfree =>
          cases hstep
          exact .top hplace (Bool.eq_false_iff.mpr hfree)
  | look =>
      rw [hplace] at hstep
      cases hstep
      exact .look hplace
  | note next =>
      rw [hplace] at hstep
      cases hstep
      exact .note hplace
  | compare next =>
      cases next <;> rw [hplace] at hstep <;> cases hstep
      · exact .nothing hplace
      · exact .compare hplace
  | compareHigh task low =>
      rw [hplace] at hstep
      cases hstep
      split
      · next hdue => exact .due hplace hdue
      · next hearly => exact .early hplace hearly
  | remove task =>
      rw [hplace] at hstep
      cases hstep
      exact .remove hplace
  | unlock next =>
      rw [hplace] at hstep
      cases hstep
      exact .unlock hplace
  | test next =>
      cases next <;> rw [hplace] at hstep <;> cases hstep
      · exact .idle hplace
      · exact .test hplace
  | call task =>
      rw [hplace] at hstep
      cases hstep
      exact .call hplace

/-- The state after an event. -/
def step (workers : List T) (s : State T F) : Event T F → Option (State T F)
  | .tick => some (s.tick workers)
  | .usleep t usecs =>
      if s.place t = .outside then some (s.push t usecs (.usleepResumeOnV t) true) else none
  | .workerPushIn t usecs work =>
      if s.place t = .outside then some (s.push t usecs work false) else none
  | .thread t => threadStep s t
  | .resumeOn t => some (s.resumeOn t).2

/-- The state after `start_workers`: the workers come to their loops, and no other thread pushes a
task or sleeps. -/
structure State.Initial (workers : List T) (s : State T F) : Prop where
  nextTaskTime : s.nextTaskTime = uint64Max
  tasks : s.tasks = Btree.create
  tasksMutex : s.tasksMutex = false
  place : ∀ t, s.place t = if t ∈ workers then .top else .outside
  pushed : s.pushed = []
  runs : s.runs = []
  past : s.past = [s.time]

/-- The runs in which every event is allowed where it happens. -/
abbrev workerRuns (workers : List T) (allowed : State T F → Event T F → Prop) :
    System (State T F) :=
  eventRuns (State.Initial workers) (step workers) allowed

end Steps

section Order

/-- The comparison of the values. -/
theorem uint64_key_cmp_fun_eq (x y : UInt64) :
    uint64KeyCmpFun x y = Ord.compare x.toNat y.toNat := by
  simp only [uint64KeyCmpFun, ← UInt64.toNat_inj, gt_iff_lt, UInt64.lt_iff_toNat_lt,
    Nat.compare_eq_ite_lt]
  split <;> split <;> try split
  all_goals first | rfl | omega

instance : Std.TransCmp uint64KeyCmpFun where
  eq_swap := by
    intro a b
    rw [uint64_key_cmp_fun_eq, uint64_key_cmp_fun_eq]
    exact Std.OrientedCmp.eq_swap
  isLE_trans := by
    intro a b c hab hbc
    rw [uint64_key_cmp_fun_eq] at hab hbc ⊢
    exact Std.TransCmp.isLE_trans hab hbc

@[simp] theorem uint64_key_cmp_fun_is_le {x y : UInt64} :
    (uint64KeyCmpFun x y).isLE ↔ x ≤ y := by
  rw [uint64_key_cmp_fun_eq, Nat.isLE_compare, UInt64.le_iff_toNat_le]

@[simp] theorem uint64_key_cmp_fun_eq_eq {x y : UInt64} :
    uint64KeyCmpFun x y = .eq ↔ x = y := by
  rw [uint64_key_cmp_fun_eq, Nat.compare_eq_eq, UInt64.toNat_inj]

end Order

section Queue

variable {tasks : Btree uint64KeyCmpFun (Task T F)}

/-- The tasks of the tree, in the order of their due times. -/
def queued (tasks : Btree uint64KeyCmpFun (Task T F)) : List (Task T F) :=
  tasks.toList.map Prod.snd

/-- A tree of tasks by their due times, each of them once. -/
structure Timetable (tasks : Btree uint64KeyCmpFun (Task T F)) : Prop where
  sorted : Sorted uint64KeyCmpFun tasks.toList
  keys : ∀ b ∈ tasks.toList, b.1 = b.2.time
  nodup : (queued tasks).Nodup

theorem mem_queued {task : Task T F} (h : Timetable tasks) :
    task ∈ queued tasks ↔ (task.time, task) ∈ tasks.toList := by
  constructor
  · intro hmem
    obtain ⟨b, hb, rfl⟩ := List.mem_map.mp hmem
    rw [← h.keys b hb]
    exact hb
  · exact fun hmem => List.mem_map.mpr ⟨_, hmem, rfl⟩

/-- `btree_upper` from 0 gives no task only when there is none, else one that is due first. -/
theorem upper_zero_spec (h : Timetable tasks) :
    ((tasks.upper 0).map Prod.snd = none → queued tasks = []) ∧
      ∀ task, (tasks.upper 0).map Prod.snd = some task →
        task ∈ queued tasks ∧ ∀ other ∈ queued tasks, task.time ≤ other.time := by
  obtain ⟨hnone, hsome⟩ := Item.upper_aux_spec 0 h.sorted
  constructor
  · intro hmap
    have hall := hnone (Option.map_eq_none_iff.mp hmap)
    cases hlist : tasks.toList with
    | nil =>
        unfold queued
        rw [hlist]
        rfl
    | cons b rest =>
        have hlt := hall b (by
          show b ∈ tasks.toList
          rw [hlist]
          exact List.mem_cons_self)
        have hle : uint64KeyCmpFun 0 b.1 |>.isLE := uint64_key_cmp_fun_is_le.mpr UInt64.zero_le
        rw [Std.OrientedCmp.gt_of_lt hlt] at hle
        cases hle
  · intro task hmap
    obtain ⟨b, hb, rfl⟩ := Option.map_eq_some_iff.mp hmap
    obtain ⟨hmem, -, hmin⟩ := hsome b hb
    refine ⟨List.mem_map.mpr ⟨b, hmem, rfl⟩, fun other hother => ?_⟩
    have hle := hmin (other.time, other) ((mem_queued h).mp hother)
      (uint64_key_cmp_fun_is_le.mpr UInt64.zero_le)
    rw [uint64_key_cmp_fun_is_le, h.keys b hmem] at hle
    exact hle

/-- `btree_add` of a task that is not in the tree. -/
theorem add_spec {task : Task T F} {tasks' : Btree uint64KeyCmpFun (Task T F)}
    (h : Timetable tasks) (hnew : task ∉ queued tasks)
    (hadd : tasks.add true task.time task = some tasks') :
    Timetable tasks' ∧ ∀ other, other ∈ queued tasks' ↔ other = task ∨ other ∈ queued tasks := by
  obtain rfl := Option.some.inj hadd
  have hperm : (Item.insert uint64KeyCmpFun task.time task tasks.root).toList.Perm
      ((task.time, task) :: tasks.toList) := by
    rw [Item.to_list_insert h.sorted]
    exact List.perm_orderedInsert _ _ _
  have hqueued : (queued { tasks with
      root := tasks.root.insert uint64KeyCmpFun task.time task
      nitems := tasks.nitems + 1 }).Perm (task :: queued tasks) := hperm.map Prod.snd
  refine ⟨⟨Item.sorted_insert h.sorted, fun b hb => ?_, ?_⟩, fun other => ?_⟩
  · rcases List.mem_cons.mp (hperm.subset hb) with rfl | hmem
    · rfl
    · exact h.keys b hmem
  · exact hqueued.symm.nodup (List.nodup_cons.mpr ⟨hnew, h.nodup⟩)
  · exact hqueued.mem_iff.trans List.mem_cons

/-- `btree_remove_v` of a task takes it out of the tree, and nothing else. -/
theorem remove_v_spec [DecidableEq T] [DecidableEq F] (task : Task T F) (h : Timetable tasks) :
    Timetable (tasks.removeV task.time task).1 ∧
      ∀ other, other ∈ queued (tasks.removeV task.time task).1 ↔
        other ∈ queued tasks ∧ other ≠ task := by
  have hlist : (tasks.removeV task.time task).1.toList =
      tasks.toList.filter (Item.keeps uint64KeyCmpFun task.time task) :=
    Item.to_list_remove_aux_v h.sorted
  have hsub := List.filter_sublist (l := tasks.toList)
    (p := Item.keeps uint64KeyCmpFun task.time task)
  have hkept : Timetable (tasks.removeV task.time task).1 := by
    refine ⟨?_, fun b hb => ?_, ?_⟩
    · rw [hlist]
      exact h.sorted.sublist hsub
    · rw [hlist] at hb
      exact h.keys b (hsub.subset hb)
    · unfold queued
      rw [hlist]
      exact (hsub.map Prod.snd).nodup h.nodup
  refine ⟨hkept, fun other => ?_⟩
  rw [mem_queued hkept, mem_queued h, hlist, List.mem_filter]
  refine and_congr_right fun _ => ?_
  by_cases heq : other = task
  · subst heq
    simp [Item.keeps]
  · simp [Item.keeps, heq]

end Queue

/-- The task that a thread is about to add. -/
def Place.coming : Place T F → Option (Task T F)
  | .pushLock task _ => some task
  | .add task _ => some task
  | _ => none

/-- The task that a thread has added, and that `next_task_time` may not account for. -/
def Place.lowering : Place T F → Option (Task T F)
  | .lower task _ => some task
  | _ => none

/-- The task that a worker has found due and not run. -/
def Place.chosen : Place T F → Option (Task T F)
  | .remove task => some task
  | .unlock next => next
  | .test next => next
  | .call task => some task
  | _ => none

/-- The task that a worker has taken and not run. -/
def Place.taken : Place T F → Option (Task T F)
  | .unlock next => next
  | .test next => next
  | .call task => some task
  | _ => none

/-- The thread has `tasks_mutex`. -/
def Place.holds : Place T F → Bool
  | .add _ _ | .lower _ _ | .pushUnlock _ _ => true
  | .look | .note _ | .compare _ | .compareHigh _ _ | .remove _ | .unlock _ => true
  | _ => false

/-- Where a task is: with the thread that pushes it, in the tree, with the worker that has taken
it, or behind it all. -/
inductive Spot (T : Type) where
  | coming (t : T)
  | queued
  | taken (w : T)
  | ran
  deriving DecidableEq

/-- The task is in the spot. -/
def State.At (s : State T F) (task : Task T F) : Spot T → Prop
  | .coming t => (s.place t).coming = some task
  | .queued => task ∈ queued s.tasks
  | .taken w => (s.place w).taken = some task
  | .ran => task ∈ s.runs

/-- The result of `btree_upper`: a task that is due first. -/
def State.First (s : State T F) : Option (Task T F) → Prop
  | none => queued s.tasks = []
  | some task => task ∈ queued s.tasks ∧ ∀ other ∈ queued s.tasks, task.time ≤ other.time

/-- The clock has come to the due time of the task. -/
def State.Due (s : State T F) (task : Task T F) : Prop :=
  ∃ now ∈ s.past, task.time ≤ now

/-- What a worker knows at its place. -/
def State.Knows (s : State T F) : Place T F → Prop
  | .note next => s.First next
  | .compare next => s.First next
  | .compareHigh task _ => s.First (some task)
  | .remove task => s.First (some task)
  | _ => True

/-- A thread with the mutex is the only one. -/
structure State.Locked (s : State T F) : Prop where
  held : ∀ t, (s.place t).holds = true → s.tasksMutex = true
  alone : ∀ t u, (s.place t).holds = true → (s.place u).holds = true → t = u

/-- Every task that was pushed is in one spot, and no other is anywhere. -/
structure State.Accounted (s : State T F) : Prop where
  numbered : ∀ task ∈ s.pushed, task.id < s.pushed.length
  distinct : s.pushed.Nodup
  spots : ∃ spot : Task T F → Option (Spot T),
    (∀ task place, s.At task place ↔ spot task = some place) ∧
      ∀ task, (spot task).isSome ↔ task ∈ s.pushed
  once : s.runs.Nodup

/-- The due times against `next_task_time`, and what the workers know. -/
structure State.Timely (s : State T F) : Prop where
  cached : ∀ other ∈ queued s.tasks, s.nextTaskTime ≤ other.time ∨
    ∃ t task, (s.place t).lowering = some task ∧ task.time ≤ other.time
  knows : ∀ t, s.Knows (s.place t)

/-- The invariant of the worker threads. -/
structure State.Sound (s : State T F) : Prop where
  timetable : Timetable s.tasks
  locked : s.Locked
  accounted : s.Accounted
  timely : s.Timely

section Moves

variable {s s' : State T F}

/-- The tasks are where they were. -/
theorem State.Accounted.same (h : s.Accounted)
    (hat : ∀ task spot, s'.At task spot ↔ s.At task spot) (hpushed : s'.pushed = s.pushed)
    (hruns : s'.runs = s.runs) : s'.Accounted where
  numbered := by
    rw [hpushed]
    exact h.numbered
  distinct := by
    rw [hpushed]
    exact h.distinct
  spots := by
    obtain ⟨spot, hspot, hall⟩ := h.spots
    refine ⟨spot, fun task place => (hat task place).trans (hspot task place), fun task => ?_⟩
    rw [hpushed]
    exact hall task
  once := by
    rw [hruns]
    exact h.once

/-- A task is in one spot. -/
theorem State.Accounted.unique (h : s.Accounted) {task : Task T F} {one two : Spot T}
    (hone : s.At task one) (htwo : s.At task two) : one = two := by
  obtain ⟨spot, hspot, -⟩ := h.spots
  exact Option.some.inj (((hspot task one).mp hone).symm.trans ((hspot task two).mp htwo))

/-- A task that is anywhere was pushed. -/
theorem State.Accounted.mem (h : s.Accounted) {task : Task T F} {spot : Spot T}
    (hat : s.At task spot) : task ∈ s.pushed := by
  obtain ⟨place, hspot, hall⟩ := h.spots
  refine (hall task).mp ?_
  rw [(hspot task spot).mp hat]
  rfl

/-- One task has gone to another spot. -/
theorem State.Accounted.carry (h : s.Accounted) {task : Task T F} {old new : Spot T}
    (hold : s.At task old) (hnew : s'.At task new) (hgone : ¬ s'.At task old)
    (hothers : ∀ other spot, other ≠ task ∨ spot ≠ old ∧ spot ≠ new →
      (s'.At other spot ↔ s.At other spot))
    (hpushed : s'.pushed = s.pushed) (honce : s'.runs.Nodup) : s'.Accounted where
  numbered := by
    rw [hpushed]
    exact h.numbered
  distinct := by
    rw [hpushed]
    exact h.distinct
  once := honce
  spots := by
    classical
    have hmem := h.mem hold
    obtain ⟨spot, hspot, hall⟩ := h.spots
    refine ⟨Function.update spot task (some new), fun other place => ?_, fun other => ?_⟩
    · by_cases heq : other = task
      · subst heq
        rw [Function.update_self]
        constructor
        · intro hat
          by_contra hne
          have hplace : place ≠ old := fun heq => hgone (heq ▸ hat)
          have hthere := (hothers other place
            (.inr ⟨hplace, fun heq => hne (congrArg some heq.symm)⟩)).mp hat
          exact hplace (h.unique hthere hold)
        · intro hplace
          rw [← Option.some.inj hplace]
          exact hnew
      · rw [Function.update_of_ne heq]
        exact (hothers other place (.inl heq)).trans (hspot other place)
    · rw [hpushed]
      by_cases heq : other = task
      · rw [heq, Function.update_self]
        exact ⟨fun _ => hmem, fun _ => rfl⟩
      · rw [Function.update_of_ne heq]
        exact hall other

/-- The place of a thread that has no task in hand and no lock. -/
def Place.core : Place T F → Place T F
  | .asleep _ => .outside
  | .parking _ => .outside
  | .top => .outside
  | .waiting => .outside
  | place => place

/-- No thread has got a task, given one away, or changed the lock. -/
theorem State.Sound.of_core (h : s.Sound) (hcore : ∀ t, (s'.place t).core = (s.place t).core)
    (htasks : s'.tasks = s.tasks) (hmutex : s'.tasksMutex = s.tasksMutex)
    (hnext : s'.nextTaskTime = s.nextTaskTime) (hpushed : s'.pushed = s.pushed)
    (hruns : s'.runs = s.runs) : s'.Sound := by
  have hcoming : ∀ t, (s'.place t).coming = (s.place t).coming := fun t => by
    have hfac : ∀ place : Place T F, place.core.coming = place.coming := by rintro (_ | _) <;> rfl
    rw [← hfac, hcore, hfac]
  have htaken : ∀ t, (s'.place t).taken = (s.place t).taken := fun t => by
    have hfac : ∀ place : Place T F, place.core.taken = place.taken := by rintro (_ | _) <;> rfl
    rw [← hfac, hcore, hfac]
  have hlowering : ∀ t, (s'.place t).lowering = (s.place t).lowering := fun t => by
    have hfac : ∀ place : Place T F, place.core.lowering = place.lowering := by
      rintro (_ | _) <;> rfl
    rw [← hfac, hcore, hfac]
  have hholds : ∀ t, (s'.place t).holds = (s.place t).holds := fun t => by
    have hfac : ∀ place : Place T F, place.core.holds = place.holds := by rintro (_ | _) <;> rfl
    rw [← hfac, hcore, hfac]
  have hfirst : ∀ next, s'.First next ↔ s.First next := fun next => by
    cases next <;> simp only [State.First, htasks]
  have hat : ∀ task spot, s'.At task spot ↔ s.At task spot := fun task spot => by
    cases spot with
    | coming t => simp only [State.At, hcoming]
    | queued => simp only [State.At, htasks]
    | taken w => simp only [State.At, htaken]
    | ran => simp only [State.At, hruns]
  have hknows : ∀ place, s.Knows place → s'.Knows place := fun place hplace => by
    cases place with
    | note next => exact (hfirst next).mpr hplace
    | compare next => exact (hfirst next).mpr hplace
    | compareHigh task low => exact (hfirst (some task)).mpr hplace
    | remove task => exact (hfirst (some task)).mpr hplace
    | _ => exact trivial
  refine ⟨htasks ▸ h.timetable, ⟨fun t ht => ?_, fun t u ht hu => ?_⟩,
    h.accounted.same hat hpushed hruns, ⟨fun other hother => ?_, fun t => ?_⟩⟩
  · rw [hmutex]
    exact h.locked.held t (hholds t ▸ ht)
  · exact h.locked.alone t u (hholds t ▸ ht) (hholds u ▸ hu)
  · rw [htasks] at hother
    rw [hnext]
    refine (h.timely.cached other hother).imp id fun ⟨t, task, hlow, hle⟩ => ⟨t, task, ?_, hle⟩
    rw [hlowering]
    exact hlow
  · have hfac : ∀ place : Place T F, s'.Knows place.core ↔ s'.Knows place := by
      rintro (_ | _) <;> exact Iff.rfl
    rw [← hfac, hcore, hfac]
    exact hknows _ (h.timely.knows t)

end Moves

section Wakes

variable [DecidableEq T] {s s' : State T F}

/-- Threads were resumed, and nothing else has happened. -/
structure Woken (s s' : State T F) : Prop where
  place : ∀ t, s'.place t = s.place t ∨ (∃ task, s.place t = .asleep task) ∧ s'.place t = .outside ∨
    s.place t = .waiting ∧ s'.place t = .top
  same : s' = { s with place := s'.place }

omit [DecidableEq T] in
theorem Woken.refl (s : State T F) : Woken s s where
  place := fun _ => .inl rfl
  same := rfl

/-- `resume_on` resumes the thread if it is in `wait_on`. -/
theorem resume_on_woken (s : State T F) (t : T) : Woken s (s.resumeOn t).2 := by
  unfold State.resumeOn
  split
  · next task hplace =>
      refine ⟨fun u => ?_, rfl⟩
      show Function.update s.place t .outside u = s.place u ∨ _ ∨ _
      by_cases hu : u = t
      · subst hu
        exact .inr (.inl ⟨⟨task, hplace⟩, Function.update_self ..⟩)
      · exact .inl (Function.update_of_ne hu ..)
  · next hplace =>
      refine ⟨fun u => ?_, rfl⟩
      show Function.update s.place t .top u = s.place u ∨ _ ∨ _
      by_cases hu : u = t
      · subst hu
        exact .inr (.inr ⟨hplace, Function.update_self ..⟩)
      · exact .inl (Function.update_of_ne hu ..)
  · exact .refl s

/-- A thread that is asleep is resumed by `resume_on`. -/
theorem resume_on_asleep {t : T} {task : Task T F} (hplace : s.place t = .asleep task) :
    (s.resumeOn t).2.place t = .outside := by
  unfold State.resumeOn
  rw [hplace]
  exact Function.update_self ..

/-- The loop of `notify_time_pass` resumes no worker that is awake, and one of those that wait. -/
theorem resume_first_spec (workers : List T) (s : State T F) :
    Woken s (s.resumeFirst workers) ∧
      ∀ w ∈ workers, s.place w = .waiting → ∃ u ∈ workers, (s.resumeFirst workers).place u = .top ∨
        (s.resumeFirst workers).place u = .outside := by
  induction workers with
  | nil => exact ⟨.refl s, fun w hw => by cases hw⟩
  | cons w rest ih =>
      have hwoken := resume_on_woken s w
      unfold State.resumeFirst
      cases hresume : s.resumeOn w with
      | mk resumed s₁ =>
          rw [hresume] at hwoken
          cases resumed with
          | true =>
              refine ⟨hwoken, fun u hu hwaiting => ⟨w, List.mem_cons_self, ?_⟩⟩
              unfold State.resumeOn at hresume
              split at hresume
              · cases hresume
                exact .inr (Function.update_self ..)
              · cases hresume
                exact .inl (Function.update_self ..)
              · cases hresume
          | false =>
              have hsame : s₁ = s ∧ s.place w ≠ .waiting := by
                unfold State.resumeOn at hresume
                split at hresume
                · cases hresume
                · cases hresume
                · next hwaiting =>
                    cases hresume
                    exact ⟨rfl, hwaiting⟩
              obtain ⟨rfl, hawake⟩ := hsame
              refine ⟨ih.1, fun u hu hwaiting => ?_⟩
              rcases List.mem_cons.mp hu with rfl | hmem
              · exact absurd hwaiting hawake
              · obtain ⟨v, hv, hplace⟩ := ih.2 u hmem hwaiting
                exact ⟨v, List.mem_cons_of_mem w hv, hplace⟩

omit [DecidableEq T] in
theorem Woken.core (h : Woken s s') (t : T) : (s'.place t).core = (s.place t).core := by
  rcases h.place t with hsame | ⟨⟨task, hasleep⟩, houtside⟩ | ⟨hwaiting, htop⟩
  · rw [hsame]
  · rw [hasleep, houtside]
    rfl
  · rw [hwaiting, htop]
    rfl

omit [DecidableEq T] in
/-- Resuming threads keeps the invariant. -/
theorem State.Sound.woken (h : s.Sound) (hwoken : Woken s s') : s'.Sound := by
  have hcore := hwoken.core
  rw [hwoken.same] at hcore ⊢
  exact h.of_core hcore rfl rfl rfl rfl rfl

/-- A tick of the clock keeps the invariant. -/
theorem State.Sound.tick (h : s.Sound) (workers : List T) : (s.tick workers).Sound := by
  have hclock : State.Sound { s with
      time := s.time + 1000000 / 100, past := (s.time + 1000000 / 100) :: s.past } :=
    h.of_core (fun _ => rfl) rfl rfl rfl rfl rfl
  unfold State.tick
  simp only
  split
  · exact hclock.woken (resume_first_spec workers _).1
  · exact hclock

end Wakes

section Threads

variable [DecidableEq T] {s : State T F} {t : T}

/-- What a step of a thread may do to the lock: nothing, take it, or give it back. -/
def LockStep (before after : Bool) (old new : Place T F) : Prop :=
  new.holds = old.holds ∧ after = before ∨ before = false ∧ new.holds = true ∧ after = true ∨
    old.holds = true ∧ new.holds = false ∧ after = false

/-- The lock with a thread at another place. -/
theorem State.Locked.move (h : s.Locked) {s' : State T F} {new : Place T F}
    (hplace : s'.place = Function.update s.place t new)
    (hstep : LockStep s.tasksMutex s'.tasksMutex (s.place t) new) : s'.Locked := by
  have hself : s'.place t = new := by rw [hplace, Function.update_self]
  have hother : ∀ u, u ≠ t → s'.place u = s.place u := fun u hu => by
    rw [hplace, Function.update_of_ne hu]
  rcases hstep with ⟨hholds, hsame⟩ | ⟨hfree, hnew, htaken⟩ | ⟨hold, hnew, hgiven⟩
  · have hall : ∀ u, (s'.place u).holds = (s.place u).holds := fun u => by
      by_cases hu : u = t
      · rw [hu, hself, hholds]
      · rw [hother u hu]
    refine ⟨fun u hu => ?_, fun u v hu hv => ?_⟩
    · rw [hsame]
      exact h.held u (hall u ▸ hu)
    · exact h.alone u v (hall u ▸ hu) (hall v ▸ hv)
  · have honly : ∀ u, (s'.place u).holds = true → u = t := fun u hu => by
      by_contra hne
      rw [hother u hne] at hu
      rw [h.held u hu] at hfree
      cases hfree
    exact ⟨fun _ _ => htaken, fun u v hu hv => (honly u hu).trans (honly v hv).symm⟩
  · have hnone : ∀ u, (s'.place u).holds = false := fun u => by
      by_cases hu : u = t
      · rw [hu, hself, hnew]
      · rw [hother u hu]
        by_contra hholds
        exact hu (h.alone u t (by simpa using hholds) hold)
    refine ⟨fun u hu => ?_, fun u v hu _ => ?_⟩
    · rw [hnone u] at hu
      cases hu
    · rw [hnone u] at hu
      cases hu

/-- `next_task_time` accounts for what it did, when a thread that is not about to lower it goes to
another place. -/
theorem State.Sound.cached_moved (h : s.Sound) (hnone : (s.place t).lowering = none)
    (new : Place T F) {other : Task T F} (hother : other ∈ queued s.tasks) :
    s.nextTaskTime ≤ other.time ∨ ∃ u task,
      (Function.update s.place t new u).lowering = some task ∧ task.time ≤ other.time := by
  refine (h.timely.cached other hother).imp id fun ⟨u, task, hlow, hle⟩ => ⟨u, task, ?_, hle⟩
  have hu : u ≠ t := by
    rintro rfl
    rw [hnone] at hlow
    cases hlow
  rw [Function.update_of_ne hu]
  exact hlow

/-- A thread goes on with the same task in hand. -/
theorem State.Sound.move (h : s.Sound) {old new : Place T F} {next : UInt64} {mutex : Bool}
    (hplace : s.place t = old) (hcoming : new.coming = old.coming)
    (htaken : new.taken = old.taken) (hlock : LockStep s.tasksMutex mutex old new)
    (hcached : old.lowering = none ∧ next = s.nextTaskTime ∨
      ∀ other ∈ queued s.tasks, next ≤ other.time)
    (hknows : s.Knows new) :
    State.Sound { s.goto t new with nextTaskTime := next, tasksMutex := mutex } := by
  subst hplace
  have hat : ∀ task spot,
      State.At { s.goto t new with nextTaskTime := next, tasksMutex := mutex } task spot ↔
        s.At task spot := fun task spot => by
    cases spot with
    | coming u =>
        show (Function.update s.place t new u).coming = some task ↔ _
        by_cases hu : u = t
        · rw [hu, Function.update_self, hcoming]
          rfl
        · rw [Function.update_of_ne hu]
          rfl
    | taken u =>
        show (Function.update s.place t new u).taken = some task ↔ _
        by_cases hu : u = t
        · rw [hu, Function.update_self, htaken]
          rfl
        · rw [Function.update_of_ne hu]
          rfl
    | queued => exact Iff.rfl
    | ran => exact Iff.rfl
  refine ⟨h.timetable, h.locked.move rfl hlock, h.accounted.same hat rfl rfl,
    ⟨fun other hother => ?_, fun u => ?_⟩⟩
  · rcases hcached with ⟨hnone, rfl⟩ | hall
    · exact h.cached_moved hnone new hother
    · exact .inl (hall other hother)
  · show State.Knows _ (Function.update s.place t new u)
    by_cases hu : u = t
    · rw [hu, Function.update_self]
      exact hknows
    · rw [Function.update_of_ne hu]
      exact h.timely.knows u

/-- What the other threads know holds with another tree and another log, unless they have the
lock. -/
theorem State.Sound.knows_others (h : s.Sound) {s' : State T F} {new : Place T F}
    (hplace : s'.place = Function.update s.place t new) (hholds : (s.place t).holds = true)
    (hnew : s'.Knows new) (u : T) : s'.Knows (s'.place u) := by
  rw [hplace]
  by_cases hu : u = t
  · rw [hu, Function.update_self]
    exact hnew
  · rw [Function.update_of_ne hu]
    cases hother : s.place u with
    | note next => exact absurd (h.locked.alone u t (by rw [hother]; rfl) hholds) hu
    | compare next => exact absurd (h.locked.alone u t (by rw [hother]; rfl) hholds) hu
    | compareHigh task low => exact absurd (h.locked.alone u t (by rw [hother]; rfl) hholds) hu
    | remove task => exact absurd (h.locked.alone u t (by rw [hother]; rfl) hholds) hu
    | _ => exact trivial

/-- A thread that has gone to another place leaves a task where it was, if its own spots and the
tree and the log do. -/
theorem at_others {s' : State T F} {new : Place T F}
    (hplace : s'.place = Function.update s.place t new) {task : Task T F} {spot : Spot T}
    (hcoming : spot = .coming t → (new.coming = some task ↔ (s.place t).coming = some task))
    (htaken : spot = .taken t → (new.taken = some task ↔ (s.place t).taken = some task))
    (hqueued : spot = .queued → (task ∈ queued s'.tasks ↔ task ∈ queued s.tasks))
    (hran : spot = .ran → (task ∈ s'.runs ↔ task ∈ s.runs)) :
    s'.At task spot ↔ s.At task spot := by
  cases spot with
  | coming u =>
      simp only [State.At, hplace]
      by_cases hu : u = t
      · rw [hu, Function.update_self, hcoming (congrArg _ hu)]
      · rw [Function.update_of_ne hu]
  | taken u =>
      simp only [State.At, hplace]
      by_cases hu : u = t
      · rw [hu, Function.update_self, htaken (congrArg _ hu)]
      · rw [Function.update_of_ne hu]
  | queued => exact hqueued rfl
  | ran => exact hran rfl

section

variable (h : s.Sound)

include h

/-- `btree_add`: the task of the thread goes into the tree. -/
theorem State.Sound.add {task : Task T F} {sleep : Bool}
    {tasks : Btree uint64KeyCmpFun (Task T F)} (hplace : s.place t = .add task sleep)
    (hadd : s.tasks.add true task.time task = some tasks) :
    State.Sound { s.goto t (.lower task sleep) with tasks := tasks } := by
  have hcoming : s.At task (.coming t) := by
    show (s.place t).coming = some task
    rw [hplace]
    rfl
  have hnew : task ∉ queued s.tasks := fun hmem => by
    cases h.accounted.unique hcoming (show s.At task .queued from hmem)
  obtain ⟨htimetable, hmem⟩ := add_spec h.timetable hnew hadd
  have hholds : (s.place t).holds = true := by
    rw [hplace]
    rfl
  have hqueued : State.At { s.goto t (.lower task sleep) with tasks := tasks } task .queued :=
    (hmem task).mpr (.inl rfl)
  refine ⟨htimetable, h.locked.move rfl (.inl ⟨?_, rfl⟩),
    h.accounted.carry hcoming hqueued ?_ (fun other spot hne => at_others rfl (fun hspot => ?_)
      (fun _ => by simp [hplace, Place.taken]) (fun hspot => ?_) fun _ => Iff.rfl) rfl
      h.accounted.once,
    ⟨fun other hother => ?_, h.knows_others rfl hholds trivial⟩⟩
  · rw [hplace]
    rfl
  · simp [State.At, State.goto, Place.coming]
  · have hother : other ≠ task := hne.resolve_right fun hboth => hboth.1 hspot
    simpa [hplace, Place.coming] using hother.symm
  · have hother : other ≠ task := hne.resolve_right fun hboth => hboth.2 hspot
    exact (hmem other).trans ⟨fun hor => hor.resolve_left hother, .inr⟩
  · rcases (hmem other).mp hother with rfl | hold
    · refine .inr ⟨t, other, ?_, UInt64.le_refl _⟩
      show (Function.update s.place t _ t).lowering = some other
      rw [Function.update_self]
      rfl
    · exact h.cached_moved (by rw [hplace]; rfl) _ hold

/-- `btree_remove_v`: the worker takes its task out of the tree. -/
theorem State.Sound.remove [DecidableEq F] {task : Task T F}
    (hplace : s.place t = .remove task) :
    State.Sound { s.goto t (.unlock (some task)) with
      tasks := (s.tasks.removeV task.time task).1 } := by
  have hknows := h.timely.knows t
  rw [hplace] at hknows
  obtain ⟨hqueued, -⟩ := hknows
  obtain ⟨htimetable, hmem⟩ := remove_v_spec task h.timetable
  have hholds : (s.place t).holds = true := by
    rw [hplace]
    rfl
  have htaken : State.At { s.goto t (.unlock (some task)) with
      tasks := (s.tasks.removeV task.time task).1 } task (.taken t) :=
    by simp [State.At, State.goto, Place.taken]
  refine ⟨htimetable, h.locked.move rfl (.inl ⟨?_, rfl⟩),
    h.accounted.carry (show s.At task .queued from hqueued) htaken (fun hstill => ?_)
      (fun other spot hne => at_others rfl (fun _ => by simp [hplace, Place.coming])
        (fun hspot => ?_) (fun hspot => ?_) fun _ => Iff.rfl) rfl h.accounted.once,
    ⟨fun other hother => h.cached_moved (by rw [hplace]; rfl) _ ((hmem other).mp hother).1,
      h.knows_others rfl hholds trivial⟩⟩
  · rw [hplace]
    rfl
  · exact ((hmem task).mp hstill).2 rfl
  · have hother : other ≠ task := hne.resolve_right fun hboth => hboth.2 hspot
    simpa [hplace, Place.taken] using hother.symm
  · exact (hmem other).trans (and_iff_left (hne.resolve_right fun hboth => hboth.1 hspot))

/-- The call of the function of a task by the worker that has taken it. -/
theorem State.Sound.call {task : Task T F} (hplace : s.place t = .call task) :
    State.Sound { s.goto t .top with runs := task :: s.runs } := by
  have htaken : s.At task (.taken t) := by
    show (s.place t).taken = some task
    rw [hplace]
    rfl
  have hnew : task ∉ s.runs := fun hmem => by
    cases h.accounted.unique htaken (show s.At task .ran from hmem)
  have hran : State.At { s.goto t .top with runs := task :: s.runs } task .ran :=
    List.mem_cons_self
  refine ⟨h.timetable, h.locked.move rfl (.inl ⟨?_, rfl⟩),
    h.accounted.carry htaken hran ?_ (fun other spot hne => at_others rfl
      (fun _ => by simp [hplace, Place.coming]) (fun hspot => ?_) (fun _ => Iff.rfl)
      fun hspot => ?_) rfl (List.nodup_cons.mpr ⟨hnew, h.accounted.once⟩),
    ⟨fun other hother => h.cached_moved (by rw [hplace]; rfl) _ hother, fun u => ?_⟩⟩
  · rw [hplace]
    rfl
  · simp [State.At, State.goto, Place.taken]
  · have hother : other ≠ task := hne.resolve_right fun hboth => hboth.1 hspot
    simpa [hplace, Place.taken] using hother.symm
  · simp [hne.resolve_right fun hboth => hboth.2 hspot]
  · show State.Knows _ (Function.update s.place t .top u)
    by_cases hu : u = t
    · rw [hu, Function.update_self]
      exact trivial
    · rw [Function.update_of_ne hu]
      exact h.timely.knows u

/-- `worker_push_in` makes a task that was nowhere. -/
theorem State.Sound.push (hplace : s.place t = .outside) (usecs : Int32)
    (work : Work T F) (sleep : Bool) : (s.push t usecs work sleep).Sound := by
  unfold State.push
  have hid : (s.newTask usecs work).id = s.pushed.length := rfl
  generalize s.newTask usecs work = task at hid ⊢
  have hnew : task ∉ s.pushed := fun hmem => by
    have hlt := h.accounted.numbered task hmem
    omega
  have hnowhere : ∀ spot, ¬ s.At task spot := fun spot hspot => hnew (h.accounted.mem hspot)
  have hothers : ∀ other spot, other ≠ task ∨ spot ≠ .coming t →
      (State.At { s.goto t (.pushLock task sleep) with pushed := task :: s.pushed } other spot ↔
        s.At other spot) := fun other spot hne => by
    refine at_others rfl (fun hspot => ?_) (fun _ => by simp [hplace, Place.taken])
      (fun _ => Iff.rfl) fun _ => Iff.rfl
    simpa [hplace, Place.coming] using (hne.resolve_right fun hne => hne hspot).symm
  refine ⟨h.timetable, h.locked.move rfl (.inl ⟨?_, rfl⟩),
    ⟨fun other hother => ?_, List.nodup_cons.mpr ⟨hnew, h.accounted.distinct⟩, ?_,
      h.accounted.once⟩,
    ⟨fun other hother => h.cached_moved (by rw [hplace]; rfl) _ hother, fun u => ?_⟩⟩
  · rw [hplace]
    rfl
  · show other.id < s.pushed.length + 1
    rcases List.mem_cons.mp hother with rfl | hold
    · omega
    · exact Nat.lt_succ_of_lt (h.accounted.numbered other hold)
  · classical
    obtain ⟨spot, hspot, hall⟩ := h.accounted.spots
    refine ⟨Function.update spot task (some (.coming t)), fun other place => ?_, fun other => ?_⟩
    · by_cases heq : other = task
      · subst heq
        rw [Function.update_self, Option.some.injEq]
        constructor
        · intro hthere
          by_contra hne
          exact hnowhere place ((hothers other place (.inr fun heq => hne heq.symm)).mp hthere)
        · rintro rfl
          simp [State.At, State.goto, Place.coming]
      · rw [Function.update_of_ne heq]
        exact (hothers other place (.inl heq)).trans (hspot other place)
    · by_cases heq : other = task
      · rw [heq, Function.update_self]
        exact ⟨fun _ => List.mem_cons_self, fun _ => rfl⟩
      · rw [Function.update_of_ne heq, hall other]
        exact ⟨List.mem_cons_of_mem task, fun hmem => (List.mem_cons.mp hmem).resolve_left heq⟩
  · show State.Knows _ (Function.update s.place t _ u)
    by_cases hu : u = t
    · rw [hu, Function.update_self]
      exact trivial
    · rw [Function.update_of_ne hu]
      exact h.timely.knows u

/-- `worker_push_in` lowers `next_task_time` to the time of its task. -/
theorem State.Sound.lower {task : Task T F} {sleep : Bool}
    (hplace : s.place t = .lower task sleep) :
    State.Sound { s.goto t (.pushUnlock task sleep) with
      nextTaskTime := if task.time < s.nextTaskTime then task.time else s.nextTaskTime } := by
  refine h.move hplace rfl rfl (.inl ⟨rfl, rfl⟩) (.inr fun other hother => ?_) trivial
  rcases h.timely.cached other hother with hle | ⟨u, first, hlow, hle⟩
  · split
    · next hlt => exact UInt64.le_trans (UInt64.le_of_lt hlt) hle
    · exact hle
  · -- The thread that lowers `next_task_time` has the lock, so that it is this one.
    have hu : u = t := by
      refine h.locked.alone u t ?_ (by rw [hplace]; rfl)
      cases hother : s.place u with
      | lower _ _ => rfl
      | _ =>
          rw [hother] at hlow
          cases hlow
    rw [hu, hplace] at hlow
    obtain rfl : task = first := Option.some.inj hlow
    split
    · exact hle
    · next hge => exact UInt64.le_trans (UInt64.not_lt.mp hge) hle

/-- `btree_upper` gives the worker a task that is due first. -/
theorem State.Sound.look (hplace : s.place t = .look) :
    (s.goto t (.note ((s.tasks.upper 0).map Prod.snd))).Sound := by
  refine h.move hplace rfl rfl (.inl ⟨rfl, rfl⟩) (.inl ⟨rfl, rfl⟩) ?_
  obtain ⟨hnone, hsome⟩ := upper_zero_spec h.timetable
  show s.First ((s.tasks.upper 0).map Prod.snd)
  cases hnext : (s.tasks.upper 0).map Prod.snd with
  | none => exact hnone hnext
  | some task => exact hsome task hnext

/-- The worker notes the time of that task in `next_task_time`. -/
theorem State.Sound.note {next : Option (Task T F)} (hplace : s.place t = .note next) :
    State.Sound { s.goto t (.compare next) with nextTaskTime := timeOf next } := by
  have hknows := h.timely.knows t
  rw [hplace] at hknows
  refine h.move hplace rfl rfl (.inl ⟨rfl, rfl⟩) (.inr fun other hother => ?_) hknows
  cases next with
  | none =>
      have hempty : queued s.tasks = [] := hknows
      rw [hempty] at hother
      cases hother
  | some task => exact hknows.2 other hother

end

/-- The function of a task resumes a thread, or does nothing here. -/
theorem run_woken (s : State T F) (work : Work T F) : Woken s (s.run work) := by
  cases work with
  | usleepResumeOnV thread => exact resume_on_woken s thread
  | other fn data => exact .refl s

/-- A worker runs its task, and goes to the top of its loop. -/
theorem State.Sound.run (h : s.Sound) {task : Task T F} (hplace : s.place t = .call task) :
    State.Sound { (s.run task.work).goto t .top with runs := task :: s.runs } := by
  have hwoken := run_woken s task.work
  have hplace' : (s.run task.work).place t = .call task := by
    rcases hwoken.place t with hsame | ⟨⟨_, hasleep⟩, -⟩ | ⟨hwaiting, -⟩
    · rw [hsame, hplace]
    · rw [hplace] at hasleep
      cases hasleep
    · rw [hplace] at hwaiting
      cases hwaiting
  have hruns : (s.run task.work).runs = s.runs := by rw [hwoken.same]
  have hcalled := (h.woken hwoken).call hplace'
  rw [hruns] at hcalled
  exact hcalled

/-- A step of a thread keeps the invariant. -/
theorem State.Sound.thread_step [DecidableEq F] (h : s.Sound) {s' : State T F}
    (hstep : threadStep s t = some s') : s'.Sound := by
  have hknows := h.timely.knows t
  cases thread_step_cases hstep with
  | pushLock hplace hfree | top hplace hfree =>
      exact h.move hplace rfl rfl (.inr (.inl ⟨hfree, rfl, rfl⟩)) (.inl ⟨rfl, rfl⟩) trivial
  | add hplace hadd => exact h.add hplace hadd
  | lower hplace => exact h.lower hplace
  | @pushUnlock task sleep hplace =>
      cases sleep <;>
        exact h.move hplace rfl rfl (.inr (.inr ⟨rfl, rfl, rfl⟩)) (.inl ⟨rfl, rfl⟩) trivial
  | look hplace => exact h.look hplace
  | note hplace => exact h.note hplace
  | parking hplace | nothing hplace | early hplace _ | idle hplace | test hplace =>
      exact h.move hplace rfl rfl (.inl ⟨rfl, rfl⟩) (.inl ⟨rfl, rfl⟩) trivial
  | compare hplace | due hplace _ =>
      rw [hplace] at hknows
      exact h.move hplace rfl rfl (.inl ⟨rfl, rfl⟩) (.inl ⟨rfl, rfl⟩) hknows
  | remove hplace => exact h.remove hplace
  | unlock hplace =>
      exact h.move hplace rfl rfl (.inr (.inr ⟨rfl, rfl, rfl⟩)) (.inl ⟨rfl, rfl⟩) trivial
  | call hplace => exact h.run hplace

end Threads

section Runs

variable [DecidableEq T] [DecidableEq F] {workers : List T} {s s' : State T F}

omit [DecidableEq F] in
/-- The invariant holds after `start_workers`. -/
theorem State.Initial.sound (h : s.Initial workers) : s.Sound := by
  have hempty : queued s.tasks = [] := by
    rw [h.tasks]
    rfl
  have hbare : ∀ t, s.place t = .top ∨ s.place t = .outside := fun t => by
    rw [h.place t]
    split
    · exact .inl rfl
    · exact .inr rfl
  have hfree : ∀ t, (s.place t).holds = false := fun t => by
    rcases hbare t with hplace | hplace <;> rw [hplace] <;> rfl
  refine ⟨⟨?_, fun b hb => ?_, ?_⟩, ⟨fun t ht => ?_, fun t u ht => ?_⟩,
    ⟨fun task htask => ?_, ?_, ⟨fun _ => none, fun task spot => ?_, fun task => ?_⟩, ?_⟩,
    ⟨fun other hother => ?_, fun t => ?_⟩⟩
  · rw [h.tasks]
    exact .nil
  · rw [h.tasks] at hb
    cases hb
  · rw [hempty]
    exact .nil
  · rw [hfree t] at ht
    cases ht
  · rw [hfree t] at ht
    cases ht
  · rw [h.pushed] at htask
    cases htask
  · rw [h.pushed]
    exact .nil
  · refine ⟨fun hspot => ?_, fun hnone => (by cases hnone)⟩
    cases spot with
    | coming t =>
        have hcoming : (s.place t).coming = some task := hspot
        rcases hbare t with hplace | hplace <;> rw [hplace] at hcoming <;> cases hcoming
    | queued =>
        have hmem : task ∈ queued s.tasks := hspot
        rw [hempty] at hmem
        cases hmem
    | taken w =>
        have htaken : (s.place w).taken = some task := hspot
        rcases hbare w with hplace | hplace <;> rw [hplace] at htaken <;> cases htaken
    | ran =>
        have hmem : task ∈ s.runs := hspot
        rw [h.runs] at hmem
        cases hmem
  · rw [h.pushed]
    simp
  · rw [h.runs]
    exact .nil
  · rw [hempty] at hother
    cases hother
  · rcases hbare t with hplace | hplace <;> rw [hplace] <;> exact trivial

/-- Every event keeps the invariant. -/
theorem State.Sound.step (h : s.Sound) {event : Event T F}
    (hstep : step workers s event = some s') : s'.Sound := by
  cases event with
  | tick =>
      cases hstep
      exact h.tick workers
  | usleep t usecs =>
      simp only [Worker.step] at hstep
      split at hstep
      · next hplace =>
          cases hstep
          exact h.push hplace usecs _ true
      · cases hstep
  | workerPushIn t usecs work =>
      simp only [Worker.step] at hstep
      split at hstep
      · next hplace =>
          cases hstep
          exact h.push hplace usecs work false
      · cases hstep
  | thread t => exact h.thread_step hstep
  | resumeOn t =>
      cases hstep
      exact h.woken (resume_on_woken s t)

/-- The invariant holds in every state of every run. -/
theorem worker_runs_sound {allowed : State T F → Event T F → Prop}
    (hs : Reachable (workerRuns workers allowed) s) : s.Sound := by
  refine Reachable.induct (motive := State.Sound) ?_ ?_ hs
  · exact fun s hinit => hinit.sound
  · rintro s s' h ⟨event, -, hstep⟩
    exact h.step hstep

/-- No tick carries into the high word of the clock while a worker is between its loads. -/
def Untorn (s : State T F) : Event T F → Prop
  | .tick => (∃ t task low, s.place t = .compareHigh task low) →
      highWord (s.time + 1000000 / 100) = highWord s.time
  | _ => True

/-- No task is run before it is due: the invariant of the runs in which the comparison with the
clock is not torn. -/
structure State.Punctual (s : State T F) : Prop where
  now : s.time ∈ s.past
  low : ∀ t task low, s.place t = .compareHigh task low →
    ∃ now ∈ s.past, now.toUInt32 = low ∧ highWord now = highWord s.time
  chosen : ∀ t task, (s.place t).chosen = some task → s.Due task
  ran : ∀ task ∈ s.runs, s.Due task

omit [DecidableEq T] [DecidableEq F] in
theorem State.Punctual.woken (h : s.Punctual) (hwoken : Woken s s') : s'.Punctual := by
  have hsame := hwoken.same
  refine ⟨by rw [hsame]; exact h.now, fun t task low hplace => ?_, fun t task hchosen => ?_,
    by rw [hsame]; exact h.ran⟩
  · rw [hsame]
    rcases hwoken.place t with hkept | ⟨-, houtside⟩ | ⟨-, htop⟩
    · exact h.low t task low (hkept ▸ hplace)
    · rw [houtside] at hplace
      cases hplace
    · rw [htop] at hplace
      cases hplace
  · rw [hsame]
    rcases hwoken.place t with hkept | ⟨-, houtside⟩ | ⟨-, htop⟩
    · exact h.chosen t task (hkept ▸ hchosen)
    · rw [houtside] at hchosen
      cases hchosen
    · rw [htop] at hchosen
      cases hchosen

omit [DecidableEq F] in
/-- A tick that does not carry between two loads. -/
theorem State.Punctual.tick (h : s.Punctual) (huntorn : Untorn s (.tick : Event T F)) :
    (s.tick workers).Punctual := by
  have hdue : ∀ {task : Task T F}, s.Due task →
      ∃ now ∈ (s.time + 1000000 / 100) :: s.past, task.time ≤ now := fun ⟨now, hmem, hle⟩ =>
    ⟨now, List.mem_cons_of_mem _ hmem, hle⟩
  have hclock : State.Punctual { s with
      time := s.time + 1000000 / 100, past := (s.time + 1000000 / 100) :: s.past } := by
    refine ⟨List.mem_cons_self, fun t task low hplace => ?_,
      fun t task hchosen => hdue (h.chosen t task hchosen), fun task hran => hdue (h.ran task hran)⟩
    obtain ⟨now, hmem, hlow, hhigh⟩ := h.low t task low hplace
    exact ⟨now, List.mem_cons_of_mem _ hmem, hlow,
      hhigh.trans (huntorn ⟨t, task, low, hplace⟩).symm⟩
  unfold State.tick
  simp only
  split
  · exact hclock.woken (resume_first_spec workers _).1
  · exact hclock

omit [DecidableEq F] in
/-- A thread goes to another place. -/
theorem State.Punctual.move (h : s.Punctual) {t : T} {new : Place T F}
    (hplace : s'.place = Function.update s.place t new) (htime : s'.time = s.time)
    (hpast : s'.past = s.past) (hruns : ∀ task ∈ s'.runs, s.Due task)
    (hlow : ∀ task low, new = .compareHigh task low → low = s.time.toUInt32)
    (hchosen : ∀ task, new.chosen = some task → s.Due task) : s'.Punctual := by
  unfold State.Due at hruns hchosen
  rw [← hpast] at hruns hchosen
  refine ⟨by rw [htime, hpast]; exact h.now, fun u task low hu => ?_, fun u task hu => ?_, hruns⟩
  · rw [hplace] at hu
    rw [htime, hpast]
    by_cases hut : u = t
    · rw [hut, Function.update_self] at hu
      exact ⟨s.time, h.now, (hlow task low hu).symm, rfl⟩
    · rw [Function.update_of_ne hut] at hu
      exact h.low u task low hu
  · rw [hplace] at hu
    by_cases hut : u = t
    · rw [hut, Function.update_self] at hu
      exact hchosen task hu
    · rw [Function.update_of_ne hut] at hu
      unfold State.Due
      rw [hpast]
      exact h.chosen u task hu

/-- A step of a thread. Between the two loads the high word has stayed what it was, so that the
worker compares with a value that the clock has had. -/
theorem State.Punctual.thread_step (h : s.Punctual) {t : T}
    (hstep : threadStep s t = some s') : s'.Punctual := by
  have hchosen := h.chosen t
  cases thread_step_cases hstep with
  | @due task low hplace hle =>
      obtain ⟨now, hmem, rfl, hhigh⟩ := h.low t task low hplace
      rw [← hhigh, of_words_words] at hle
      refine h.move rfl rfl rfl h.ran nofun fun other heq => ?_
      obtain rfl : task = other := Option.some.inj heq
      exact ⟨now, hmem, hle⟩
  | compare hplace =>
      refine h.move rfl rfl rfl h.ran (fun task low heq => ?_) nofun
      cases heq
      rfl
  | remove hplace | unlock hplace | test hplace =>
      rw [hplace] at hchosen
      exact h.move rfl rfl rfl h.ran nofun hchosen
  | @call task hplace =>
      have hwoken := run_woken s task.work
      rw [hplace] at hchosen
      have hdue : (s.run task.work).Due task := by
        unfold State.Due
        rw [hwoken.same]
        exact hchosen task rfl
      refine (h.woken hwoken).move rfl rfl rfl (fun other hmem => ?_) nofun nofun
      rcases List.mem_cons.mp hmem with rfl | hold
      · exact hdue
      · refine (h.woken hwoken).ran other ?_
        rw [hwoken.same]
        exact hold
  | @pushUnlock task sleep hplace =>
      cases sleep <;> exact h.move rfl rfl rfl h.ran nofun nofun
  | _ => exact h.move rfl rfl rfl h.ran nofun nofun

/-- An event in which no carry comes between two loads. -/
theorem State.Punctual.step (h : s.Punctual) {event : Event T F} (huntorn : Untorn s event)
    (hstep : Worker.step workers s event = some s') : s'.Punctual := by
  cases event with
  | tick =>
      cases hstep
      exact h.tick huntorn
  | usleep t usecs | workerPushIn t usecs work =>
      simp only [Worker.step] at hstep
      split at hstep
      · cases hstep
        exact h.move rfl rfl rfl h.ran nofun nofun
      · cases hstep
  | thread t => exact h.thread_step hstep
  | resumeOn t =>
      cases hstep
      exact h.woken (resume_on_woken s t)

omit [DecidableEq F] in
theorem State.Initial.punctual (h : s.Initial workers) : s.Punctual := by
  have hbare : ∀ t, s.place t = .top ∨ s.place t = .outside := fun t => by
    rw [h.place t]
    split
    · exact .inl rfl
    · exact .inr rfl
  refine ⟨by rw [h.past]; exact List.mem_cons_self, fun t task low hplace => ?_,
    fun t task hchosen => ?_, fun task hran => ?_⟩
  · rcases hbare t with hbare | hbare <;> rw [hbare] at hplace <;> cases hplace
  · rcases hbare t with hbare | hbare <;> rw [hbare] at hchosen <;> cases hchosen
  · rw [h.runs] at hran
    cases hran

/-- What is said of the queue: a task that was pushed is in one spot, and so is run once at the
most and never lost; it is run when the clock has come to its due time; no worker takes it while
another one is due before; `next_task_time` is not too late; and a tick leaves no due task to
workers that all wait. -/
structure State.Disciplined (workers : List T) (s : State T F) : Prop where
  spots : ∀ task ∈ s.pushed, ∃! spot, s.At task spot
  pushed : ∀ task spot, s.At task spot → task ∈ s.pushed
  queuedOnce : (queued s.tasks).Nodup
  ranOnce : s.runs.Nodup
  due : ∀ task, (∃ w, s.At task (.taken w)) ∨ s.At task .ran → s.Due task
  earliest : ∀ w task, s.place w = .remove task →
    task ∈ queued s.tasks ∧ ∀ other ∈ queued s.tasks, task.time ≤ other.time
  cached : s.tasksMutex = false → ∀ other ∈ queued s.tasks, s.nextTaskTime ≤ other.time
  woken : s.tasksMutex = false → workers ≠ [] →
    (∃ task ∈ queued s.tasks, task.time ≤ (s.tick workers).time) →
      ∃ w ∈ workers, (s.tick workers).place w ≠ .waiting

/-- A tick of the clock with a due task resumes a worker. -/
theorem tick_wakes (hne : workers ≠ []) (hdue : s.nextTaskTime ≤ s.time + 1000000 / 100) :
    ∃ w ∈ workers, (s.tick workers).place w ≠ .waiting := by
  have htick : s.tick workers = State.resumeFirst { s with
      time := s.time + 1000000 / 100, past := (s.time + 1000000 / 100) :: s.past } workers :=
    if_pos hdue
  rw [htick]
  generalize ({ s with time := _, past := _ } : State T F) = clock
  obtain ⟨hwoken, hone⟩ := resume_first_spec workers clock
  obtain ⟨w, rest, rfl⟩ := List.exists_cons_of_ne_nil hne
  by_cases hwaiting : clock.place w = .waiting
  · obtain ⟨u, hu, hplace⟩ := hone w List.mem_cons_self hwaiting
    refine ⟨u, hu, ?_⟩
    rcases hplace with hplace | hplace <;> rw [hplace] <;> exact fun heq => by cases heq
  · refine ⟨w, List.mem_cons_self, ?_⟩
    rcases hwoken.place w with hsame | ⟨-, houtside⟩ | ⟨hbefore, -⟩
    · rw [hsame]
      exact hwaiting
    · rw [houtside]
      exact fun heq => by cases heq
    · exact absurd hbefore hwaiting

omit [DecidableEq T] [DecidableEq F] in
/-- While `tasks_mutex` is free, `next_task_time` is not too late. -/
theorem State.Sound.cached_free (h : s.Sound) (hfree : s.tasksMutex = false) :
    ∀ other ∈ queued s.tasks, s.nextTaskTime ≤ other.time := by
  intro other hother
  refine (h.timely.cached other hother).resolve_right fun ⟨t, task, hlow, _⟩ => ?_
  have hholds : (s.place t).holds = true := by
    cases hplace : s.place t with
    | lower _ _ => rfl
    | _ =>
        rw [hplace] at hlow
        cases hlow
  rw [h.locked.held t hholds] at hfree
  cases hfree

/-- While `tasks_mutex` is free, a tick with a due task in the queue resumes a worker. -/
theorem State.Sound.due_wakes (h : s.Sound) (hfree : s.tasksMutex = false) (hne : workers ≠ [])
    {task : Task T F} (htask : task ∈ queued s.tasks) (hdue : task.time ≤ (s.tick workers).time) :
    ∃ w ∈ workers, (s.tick workers).place w ≠ .waiting := by
  refine tick_wakes hne (UInt64.le_trans (h.cached_free hfree task htask) ?_)
  have htime : (s.tick workers).time = s.time + 1000000 / 100 := by
    unfold State.tick
    simp only
    split
    · rw [(resume_first_spec workers _).1.same]
    · rfl
  rw [← htime]
  exact hdue

/-- In every run of the threads that push tasks, of the workers and of the clock in which no tick
carries into the high word of the clock between the two loads of a worker, the queue is
disciplined. -/
theorem queue_disciplined (hs : Reachable (workerRuns workers Untorn) s) :
    s.Disciplined workers := by
  have h := worker_runs_sound hs
  have hpunctual : s.Punctual := by
    refine Reachable.induct (motive := State.Punctual) ?_ ?_ hs
    · exact fun s hinit => hinit.punctual
    · rintro s s' h ⟨event, huntorn, hstep⟩
      exact h.step huntorn hstep
  refine ⟨fun task htask => ?_, fun task spot => h.accounted.mem, h.timetable.nodup,
    h.accounted.once, fun task hspot => ?_, fun w task hplace => ?_, h.cached_free,
    fun hfree hne ⟨task, htask, hdue⟩ => h.due_wakes hfree hne htask hdue⟩
  · obtain ⟨spot, hspot, hall⟩ := h.accounted.spots
    obtain ⟨place, hplace⟩ := Option.isSome_iff_exists.mp ((hall task).mpr htask)
    have hat := (hspot task place).mpr hplace
    exact ⟨place, hat, fun other hother => h.accounted.unique hother hat⟩
  · rcases hspot with ⟨w, htaken⟩ | hran
    · refine hpunctual.chosen w task ?_
      change (s.place w).taken = some task at htaken
      cases hplace : s.place w with
      | unlock _ | test _ | call _ =>
          rw [hplace] at htaken
          exact htaken
      | _ =>
          rw [hplace] at htaken
          cases htaken
    · exact hpunctual.ran task hran
  · have hknows := h.timely.knows w
    rw [hplace] at hknows
    exact hknows

/-- The state after `start_workers`, when the clock has not ticked. -/
def boot (workers : List T) : State T F where
  time := 0
  nextTaskTime := uint64Max
  tasks := Btree.create
  tasksMutex := false
  place := fun t => if t ∈ workers then .top else .outside
  pushed := []
  runs := []
  past := [0]

omit [DecidableEq F] in
theorem boot_initial (workers : List T) : (boot workers : State T F).Initial workers :=
  ⟨rfl, rfl, rfl, fun _ => rfl, rfl, rfl, rfl⟩

/-- A tick comes between the loads of a worker, without a carry. The worker waits, and runs the task
after the next tick. -/
theorem task_run : ∃ s : State Bool Nat, s.Disciplined [true] ∧ s.runs.map Task.work =
    [.other 7 1] := by
  let events : List (Event Bool Nat) := .workerPushIn false 15000 (.other 7 1) ::
    (List.replicate 4 (.thread false) ++ [.tick] ++ List.replicate 4 (.thread true) ++ [.tick] ++
      List.replicate 3 (.thread true) ++ [.tick] ++ List.replicate 9 (.thread true))
  let calm : State Bool Nat → Event Bool Nat → Bool := fun s _ =>
    highWord (s.time + 1000000 / 100) = highWord s.time
  have hcalm : ∀ s event, calm s event = true → Untorn s event := fun s event hpass => by
    cases event with
    | tick => exact fun _ => of_decide_eq_true hpass
    | _ => exact trivial
  let s := (runEvents (step [true]) calm events (boot [true])).getD (boot [true])
  have hrun : runEvents (step [true]) calm events (boot [true]) = some s := rfl
  exact ⟨s, queue_disciplined (Reachable.run_events hcalm (.init (boot_initial [true])) hrun),
    by decide⟩

/-- The clock does not come to its end. -/
def Rising (s : State T F) : Event T F → Prop
  | .tick => s.time ≤ s.time + 1000000 / 100
  | _ => True

/-- As long as it does not, no value of the clock was higher than the present one. -/
theorem past_le (hs : Reachable (workerRuns workers Rising) s) : ∀ now ∈ s.past, now ≤ s.time := by
  refine Reachable.induct (motive := fun s => ∀ now ∈ s.past, now ≤ s.time) ?_ ?_ hs
  · intro s hinit now hmem
    rw [hinit.past, List.mem_singleton] at hmem
    exact hmem ▸ UInt64.le_refl _
  · rintro s s' h ⟨event, hrising, hstep⟩
    have hwoken : ∀ {s s' : State T F}, (∀ now ∈ s.past, now ≤ s.time) → Woken s s' →
        ∀ now ∈ s'.past, now ≤ s'.time := fun h hwoken => by
      rw [hwoken.same]
      exact h
    cases event with
    | tick =>
        cases hstep
        have hclock : ∀ now ∈ (s.time + 1000000 / 100) :: s.past, now ≤ s.time + 1000000 / 100 :=
          List.forall_mem_cons.mpr ⟨UInt64.le_refl _, fun now hmem =>
            UInt64.le_trans (h now hmem) hrising⟩
        unfold State.tick
        simp only
        split
        · exact hwoken hclock (resume_first_spec workers _).1
        · exact hclock
    | usleep t usecs | workerPushIn t usecs work =>
        simp only [Worker.step] at hstep
        split at hstep <;> cases hstep
        exact h
    | thread t =>
        cases thread_step_cases hstep with
        | call _ => exact @hwoken s (State.run s _) h (run_woken s _)
        | _ => exact h
    | resumeOn t =>
        cases hstep
        exact hwoken h (resume_on_woken s t)

/-- The values of the clock in the first `n` ticks. -/
def ticks : Nat → List UInt64
  | 0 => [0]
  | n + 1 => .ofNat (10000 * (n + 1)) :: ticks n

/-- The clock ticks for up to 71 minutes, and the worker does not come to its loop. -/
theorem reachable_ticks (n : Nat) (hn : n ≤ 429496) : Reachable (workerRuns [true] Rising)
    ({ boot [true] with time := .ofNat (10000 * n), past := ticks n } : State Bool Nat) := by
  induction n with
  | zero => exact .init (boot_initial [true])
  | succ n ih =>
      have hnat : ∀ k ≤ 429496, (UInt64.ofNat (10000 * k)).toNat = 10000 * k := fun k hk =>
        UInt64.toNat_ofNat_of_lt' (show 10000 * k < 18446744073709551616 by omega)
      have htime : UInt64.ofNat (10000 * n) + 1000000 / 100 = .ofNat (10000 * (n + 1)) := by
        apply UInt64.toNat_inj.mp
        rw [UInt64.toNat_add, hnat n (by omega), hnat (n + 1) hn]
        change (10000 * n + 10000) % 18446744073709551616 = _
        omega
      refine .step (ih (by omega)) ⟨.tick, UInt64.le_iff_toNat_le.mpr ?_, congrArg some ?_⟩
      · change (UInt64.ofNat (10000 * n)).toNat ≤ (UInt64.ofNat (10000 * n) + 1000000 / 100).toNat
        rw [htime, hnat n (by omega), hnat (n + 1) hn]
        omega
      · unfold State.tick
        simp only [htime]
        refine if_neg fun hle => ?_
        have hle' : 18446744073709551615 ≤ (UInt64.ofNat (10000 * (n + 1))).toNat :=
          UInt64.le_iff_toNat_le.mp hle
        rw [hnat (n + 1) hn] at hle'
        omega

/-- After 71 minutes a task is pushed that is due in one minute more. The next tick carries into
the high word, and comes between the loads of the worker. -/
theorem early_task_run : ¬ ∀ s : State Bool Nat,
    Reachable (workerRuns [true] fun _ _ => True) s → s.Disciplined [true] := by
  intro hclaim
  let events : List (Event Bool Nat) := .workerPushIn false 60000000 (.other 7 1) ::
    (List.replicate 4 (.thread false) ++ List.replicate 4 (.thread true) ++ [.tick] ++
      List.replicate 2 (.thread true))
  let rising : State Bool Nat → Event Bool Nat → Bool := fun s _ =>
    s.time ≤ s.time + 1000000 / 100
  have hrising : ∀ s event, rising s event = true → Rising s event := fun s event hpass => by
    cases event with
    | tick => exact (of_decide_eq_true hpass : s.time ≤ s.time + 1000000 / 100)
    | _ => exact trivial
  have hrun : (runEvents (step [true]) rising events
      { boot [true] with time := .ofNat (10000 * 429496), past := ticks 429496 }).map
      (fun s => ((s.place true).taken, s.time)) =
        some (some ⟨0, 4354960000, .other 7 1⟩, 4294970000) := by
    decide +kernel
  obtain ⟨s, hrun, hend⟩ := Option.map_eq_some_iff.mp hrun
  obtain ⟨htaken, htime⟩ := Prod.mk.inj hend
  have hs := Reachable.run_events hrising (reachable_ticks 429496 le_rfl) hrun
  have hall : Reachable (workerRuns [true] fun _ _ => True) s := by
    refine Reachable.mono ?_ ?_ hs
    · exact fun s hinit => hinit
    · rintro s s' ⟨event, -, hstep⟩
      exact ⟨event, trivial, hstep⟩
  obtain ⟨now, hmem, hle⟩ := (hclaim s hall).due _ (.inl ⟨true, htaken⟩)
  have hlow := past_le hs now hmem
  rw [htime] at hlow
  exact absurd (UInt64.le_trans hle hlow) (by decide)

end Runs

end Kogata.Kernel.Worker
