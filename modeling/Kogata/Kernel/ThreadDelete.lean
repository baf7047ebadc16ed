import Kogata.Lib.Run
import Mathlib.Logic.Function.Basic
import Mathlib.Data.List.Count
import Mathlib.Data.List.Nodup
import Mathlib.Tactic.Common

/-!
# Who deletes a thread

A thread that ends is in the list of its process and in the data of a queued `exit_cleanup_task`.
`process_thread_exited` of `kernel/user/process.c` deletes it for the task, and `process_exit`
deletes the threads that it finds in the list. The tasks are run by the workers, in any order.
-/

namespace Kogata.Kernel.ThreadDelete

open Lib.Run

/-- A thread of the process: not created, not at its end yet, behind the call of `worker_push` in
`current_process_exit`, and in `T_STATE_FINISHED`. -/
inductive Phase where
  | absent
  | live
  | leaving
  | finished
  deriving DecidableEq

/-- A task of the worker queue. -/
inductive Task (T : Type) where
  | exitCleanup (t : T)
  | currentProcessExit
  deriving DecidableEq

/-- Where a worker, or a thread of another process, is: outside; in front of the test of `t->proc`
in `exit_cleanup_task`; in front of the first line of `process_thread_exited`; in its
`mutex_lock`; behind it; in front of `delete_thread`; in the `mutex_lock` of `process_exit`; at the
head of its loop over the threads; in `kill_thread`; in front of `delete_thread`; and behind the
loop. -/
inductive Place (T : Type) where
  | outside
  | cleanup (t : T)
  | exited (t : T)
  | exitedLock (t : T)
  | unlinking (t : T)
  | unlinked (t : T)
  | exitLock
  | neutralize
  | killing (t : T)
  | killed (t : T)
  | releasing
  deriving DecidableEq

/-- The process, its threads, the worker queue, and those that run its tasks or end the process. -/
structure State (T A : Type) where
  lock : Bool
  /-- `p->status` is `PS_RUNNING`. -/
  running : Bool
  threads : List T
  queue : List (Task T)
  phase : T → Phase
  /-- How often `delete_thread` was called on the thread. -/
  deleted : T → Nat
  /-- A `thread_t` was read or written after `delete_thread` had freed it. -/
  dangling : Bool
  actor : A → Place T

/-- What a thread of the process may do next. `exit` is told whether `worker_push` gets its
memory. -/
inductive ThreadAct (T : Type) where
  | currentProcessExit
  | exit (ok : Bool)
  | newThread (u : T)
  deriving DecidableEq

/-- What a worker or a thread of another process may do next: call `process_exit`, take a task of
the queue, or go on. -/
inductive ActorAct (T : Type) where
  | processExit
  | take (task : Task T)
  | step
  deriving DecidableEq

/-- A step of one of the threads. -/
inductive Event (T A : Type) where
  | thread (t : T) (act : ThreadAct T)
  | actor (a : A) (act : ActorAct T)
  deriving DecidableEq

variable {T A : Type} [DecidableEq T] [DecidableEq A]

/-- The actor is at another place. -/
def State.move (s : State T A) (a : A) (place : Place T) : State T A :=
  { s with actor := Function.update s.actor a place }

/-- A `thread_t` is read or written. -/
def State.touch (s : State T A) (t : T) : State T A :=
  { s with dangling := s.dangling || decide (0 < s.deleted t) }

/-- `delete_thread` reads the structure and frees it. -/
def State.deleteThread (s : State T A) (t : T) : State T A :=
  { s.touch t with deleted := Function.update s.deleted t (s.deleted t + 1) }

/-- A step of a thread of the process. The task of `exit` is in the queue and the thread is
finished in one step, since the thread is not interrupted in between. A new thread is linked into
the list under the lock. -/
def threadStep (s : State T A) (t : T) : ThreadAct T → Option (State T A)
  | .currentProcessExit =>
      if s.phase t = .live then
        some { s with
          queue := .currentProcessExit :: s.queue
          phase := Function.update s.phase t .leaving }
      else none
  | .exit ok =>
      if s.phase t = .live ∨ s.phase t = .leaving then
        some { s.touch t with
          queue := if ok then .exitCleanup t :: s.queue else s.queue
          phase := Function.update s.phase t .finished }
      else none
  | .newThread u =>
      if s.phase t = .live ∧ s.phase u = .absent ∧ s.lock = false then
        some { s with
          threads := u :: s.threads
          phase := Function.update s.phase u .live }
      else none

/-- A step of a worker or of a thread of another process. -/
def actorStep (s : State T A) (a : A) : ActorAct T → Option (State T A)
  | .processExit => if s.actor a = .outside then some (s.move a .exitLock) else none
  | .take task =>
      if s.actor a = .outside ∧ task ∈ s.queue then
        match task with
        | .exitCleanup t => some { s.move a (.cleanup t) with queue := s.queue.erase task }
        | .currentProcessExit => some { s.move a .exitLock with queue := s.queue.erase task }
      else none
  | .step =>
      match s.actor a with
      | .outside => none
      | .cleanup t => some ((s.move a (.exited t)).touch t)
      | .exited t =>
          some ((s.move a (if s.running then .exitedLock t else .outside)).touch t)
      | .exitedLock t =>
          if s.lock then none
          else if s.running then some { s.move a (.unlinking t) with lock := true }
          else some (s.move a .outside)
      | .unlinking t =>
          -- the search for `t` reads the threads in front of it
          some { (t :: s.threads.takeWhile (· != t)).foldl State.touch (s.move a (.unlinked t)) with
            threads := s.threads.erase t }
      | .unlinked t =>
          some { (s.move a (if s.threads = [] then .exitLock else .outside)).deleteThread t with
            lock := false }
      | .exitLock =>
          if s.lock then none
          else if s.running then some { s.move a .neutralize with lock := true, running := false }
          else some (s.move a .outside)
      | .neutralize =>
          match s.threads with
          | [] => some (s.move a .releasing)
          | t :: rest => some { (s.move a (.killing t)).touch t with threads := rest }
      | .killing t =>
          some ((if s.phase t = .finished then s.move a (.killed t) else s).touch t)
      | .killed t => some ((s.move a .neutralize).deleteThread t)
      | .releasing => some { s.move a .outside with lock := false }

/-- The state after an event. -/
def step (s : State T A) : Event T A → Option (State T A)
  | .thread t act => threadStep s t act
  | .actor a act => actorStep s a act

/-- A running process whose threads are in its list. -/
structure State.Initial (s : State T A) : Prop where
  lock : s.lock = false
  running : s.running = true
  nodup : s.threads.Nodup
  queue : s.queue = []
  phase : ∀ t, s.phase t = if t ∈ s.threads then .live else .absent
  deleted : ∀ t, s.deleted t = 0
  dangling : s.dangling = false
  actor : ∀ a, s.actor a = .outside

/-- The runs in which every event is allowed where it happens. -/
abbrev runs (allowed : State T A → Event T A → Prop) : System (State T A) :=
  eventRuns State.Initial step allowed

/-- No thread is deleted twice or used behind its deletion, and when the queue is empty and nobody
works for it any more, the threads that have ended are deleted. -/
structure DeletedOnce (s : State T A) : Prop where
  intact : s.dangling = false
  once : ∀ t, s.deleted t ≤ 1
  all : s.queue = [] → (∀ a, s.actor a = .outside) → ∀ t, s.phase t = .finished → s.deleted t = 1

/-- Somebody is about to end the process. -/
def ExitPending (s : State T A) : Prop :=
  .currentProcessExit ∈ s.queue ∨ ∃ a, s.actor a = .exitLock

/-- `process_exit` deletes a thread whose `exit_cleanup_task` has not read it yet, or the task of a
thread is lost while nobody is about to end the process. -/
def Overlooks (s : State T A) : Event T A → Prop
  | .actor a .step =>
      ∃ t, s.actor a = .killed t ∧ (.exitCleanup t ∈ s.queue ∨
        ∃ b, s.actor b = .cleanup t ∨ s.actor b = .exited t)
  | .thread _ (.exit false) => s.running = true ∧ ¬ ExitPending s
  | _ => False

/-- The thread whose task is being run. -/
def Place.task : Place T → Option T
  | .cleanup t | .exited t | .exitedLock t | .unlinking t | .unlinked t => some t
  | _ => none

/-- The thread that was taken out of the list and is not deleted yet. -/
def Place.inHand : Place T → Option T
  | .killing t | .killed t | .unlinked t => some t
  | _ => none

/-- The place is behind `mutex_lock`. -/
def Place.holds : Place T → Bool
  | .unlinking _ | .unlinked _ | .neutralize | .killing _ | .killed _ | .releasing => true
  | _ => false

/-- The place is in the loop of `process_exit` over the threads. -/
def Place.inLoop : Place T → Bool
  | .neutralize | .killing _ | .killed _ => true
  | _ => false

attribute [grind] Place.task Place.inHand Place.holds Place.inLoop

omit [DecidableEq T] in
theorem Place.holds_of_in_hand {place : Place T} {t : T} (h : place.inHand = some t) :
    place.holds = true := by
  cases place <;> first | rfl | cases h

omit [DecidableEq T] in
theorem Place.holds_of_in_loop {place : Place T} (h : place.inLoop = true) :
    place.holds = true := by
  cases place <;> first | rfl | cases h

section Fields

variable (s : State T A) (a b : A) (t u : T) (place : Place T)

section Move

omit [DecidableEq T]

theorem move_actor : (s.move a place).actor b = if b = a then place else s.actor b :=
  Function.update_apply ..

grind_pattern move_actor => (s.move a place).actor b
grind_pattern move_actor => s.move a place, s.actor b

@[simp, grind =] theorem move_running : (s.move a place).running = s.running := rfl
@[simp, grind =] theorem move_threads : (s.move a place).threads = s.threads := rfl
@[simp, grind =] theorem move_queue : (s.move a place).queue = s.queue := rfl
@[simp, grind =] theorem move_phase : (s.move a place).phase u = s.phase u := rfl
@[simp, grind =] theorem move_deleted : (s.move a place).deleted u = s.deleted u := rfl
@[simp, grind =] theorem move_dangling : (s.move a place).dangling = s.dangling := rfl

end Move

variable {s a t place}

omit [DecidableEq T] [DecidableEq A] in
theorem touch_of_not_deleted (h : s.deleted t = 0) : s.touch t = s := by
  show { s with dangling := s.dangling || decide (0 < s.deleted t) } = s
  simp [h]

omit [DecidableEq T] in
theorem touch_move (h : s.deleted t = 0) : (s.move a place).touch t = s.move a place :=
  touch_of_not_deleted h

omit [DecidableEq T] [DecidableEq A] in
theorem touch_all {l : List T} (h : ∀ t ∈ l, s.deleted t = 0) : l.foldl State.touch s = s := by
  induction l with
  | nil => rfl
  | cons t l ih =>
      rw [List.foldl_cons, touch_of_not_deleted (h t List.mem_cons_self)]
      exact ih fun u hu => h u (List.mem_cons_of_mem t hu)

theorem delete_move (h : s.deleted t = 0) : (s.move a place).deleteThread t =
    { s.move a place with deleted := Function.update s.deleted t 1 } := by
  show { (s.move a place).touch t with
    deleted := Function.update s.deleted t (s.deleted t + 1) } = _
  rw [touch_move h, h]

end Fields

/-- At most one actor is behind `mutex_lock`, and what it knows there. -/
structure Locked (s : State T A) : Prop where
  lock : ∀ a, (s.actor a).holds = true → s.lock = true
  unique : ∀ a b, (s.actor a).holds = true → (s.actor b).holds = true → a = b
  running : ∀ a t, s.actor a = .unlinking t ∨ s.actor a = .unlinked t → s.running = true
  ended : ∀ a, (s.actor a).inLoop = true ∨ s.actor a = .releasing → s.running = false
  empty : s.running = false → s.threads ≠ [] → ∃ a, (s.actor a).inLoop = true

/-- Where the threads that are not deleted are, and where their tasks. -/
structure Accounted (s : State T A) : Prop where
  intact : s.dangling = false
  once : ∀ t, s.deleted t ≤ 1
  ended : ∀ t, s.deleted t ≠ 0 → s.phase t = .finished
  nodup : s.threads.Nodup
  listed : ∀ t ∈ s.threads, s.phase t ≠ .absent ∧ s.deleted t = 0
  hand : ∀ a t, (s.actor a).inHand = some t →
    s.phase t ≠ .absent ∧ s.deleted t = 0 ∧ t ∉ s.threads
  found : ∀ t, s.phase t ≠ .absent → s.deleted t = 0 →
    t ∈ s.threads ∨ ∃ a, (s.actor a).inHand = some t
  killed : ∀ a t, s.actor a = .killed t → s.phase t = .finished
  queued : ∀ t, s.queue.count (.exitCleanup t) ≤ 1
  waiting : ∀ t, .exitCleanup t ∈ s.queue → s.phase t = .finished ∧ s.deleted t = 0
  taken : ∀ a t, (s.actor a).task = some t → s.phase t = .finished ∧ .exitCleanup t ∉ s.queue
  unique : ∀ a b t, (s.actor a).task = some t → (s.actor b).task = some t → a = b
  early : ∀ a t, s.actor a = .cleanup t ∨ s.actor a = .exited t → s.deleted t = 0
  late : s.running = true → ∀ a t, (s.actor a).task = some t → s.deleted t = 0
  owed : s.running = true → ∀ t, s.phase t = .finished → s.deleted t = 0 →
    .exitCleanup t ∈ s.queue ∨ (∃ a, (s.actor a).task = some t) ∨ ExitPending s

section Accounted

variable {s s' : State T A} {a b : A} {t u : T}

omit [DecidableEq T] in
/-- An actor goes from one place to another. As long as the lock is taken, the status of the process
stays, and so does the lock unless its holder gives it back. -/
theorem Locked.move {here place : Place T} (h : Locked s) (hat : s.actor a = here)
    (hactor : s'.actor = Function.update s.actor a place)
    (hlock : place.holds = true → s'.lock = true)
    (hkeep : s.lock = true → here.holds = true ∨ s'.lock = true)
    (hheld : place.holds = true → here.holds = true ∨ s.lock = false)
    (hrunning : ∀ t, place = .unlinking t ∨ place = .unlinked t → s'.running = true)
    (hended : place.inLoop = true ∨ place = .releasing → s'.running = false)
    (hsame : s'.running = s.running ∨ s.lock = false)
    (hempty : s'.running = false → s'.threads ≠ [] →
      place.inLoop = true ∨ here.inLoop = false ∧ s.running = false ∧ s.threads ≠ []) :
    Locked s' := by
  have hself : s'.actor a = place := by rw [hactor, Function.update_self]
  have hother : ∀ b, b ≠ a → s'.actor b = s.actor b := fun b hb => by
    rw [hactor, Function.update_of_ne hb]
  -- Whoever else has the lock keeps the others from moving it.
  have hothers : ∀ b, b ≠ a → (s.actor b).holds = true →
      here.holds = false ∧ s'.lock = true ∧ s'.running = s.running := by
    intro b hb hholds
    have htaken := h.lock b hholds
    have hfree : here.holds = false := by
      by_contra hne
      exact hb (h.unique b a hholds (by rw [hat]; exact eq_true_of_ne_false hne))
    refine ⟨hfree, (hkeep htaken).resolve_left (by rw [hfree]; exact nofun),
      hsame.resolve_right (by rw [htaken]; exact nofun)⟩
  have hnot : place.holds = true → ∀ b, b ≠ a → (s.actor b).holds ≠ true := by
    intro hplace b hb hholds
    rcases hheld hplace with hhere | hunlocked
    · rw [(hothers b hb hholds).1] at hhere
      cases hhere
    · rw [h.lock b hholds] at hunlocked
      cases hunlocked
  refine ⟨fun b hb => ?_, fun b c hb hc => ?_, fun b t hb => ?_, fun b hb => ?_, fun hr hne => ?_⟩
  · by_cases hba : b = a
    · rw [hba, hself] at hb
      exact hlock hb
    · rw [hother b hba] at hb
      exact (hothers b hba hb).2.1
  · by_cases hba : b = a <;> by_cases hca : c = a
    · rw [hba, hca]
    · rw [hba, hself] at hb
      rw [hother c hca] at hc
      exact absurd hc (hnot hb c hca)
    · rw [hother b hba] at hb
      rw [hca, hself] at hc
      exact absurd hb (hnot hc b hba)
    · rw [hother b hba] at hb
      rw [hother c hca] at hc
      exact h.unique b c hb hc
  · by_cases hba : b = a
    · rw [hba, hself] at hb
      exact hrunning t hb
    · rw [hother b hba] at hb
      have hholds : (s.actor b).holds = true := by rcases hb with hb | hb <;> rw [hb] <;> rfl
      rw [(hothers b hba hholds).2.2]
      exact h.running b t hb
  · by_cases hba : b = a
    · rw [hba, hself] at hb
      exact hended hb
    · rw [hother b hba] at hb
      have hholds : (s.actor b).holds = true := by
        rcases hb with hb | hb
        · exact Place.holds_of_in_loop hb
        · rw [hb]
          rfl
      rw [(hothers b hba hholds).2.2]
      exact h.ended b hb
  · rcases hempty hr hne with hplace | ⟨hhere, hstopped, hthreads⟩
    · exact ⟨a, by rw [hself]; exact hplace⟩
    · obtain ⟨b, hb⟩ := h.empty hstopped hthreads
      have hba : b ≠ a := fun heq => by
        rw [heq, hat, hhere] at hb
        cases hb
      exact ⟨b, by rw [hother b hba]; exact hb⟩

theorem Locked.process_exit (h : Locked s) (hstep : actorStep s a .processExit = some s') :
    Locked s' := by
  simp only [actorStep] at hstep
  split at hstep
  · next hat =>
      cases hstep
      exact h.move hat rfl nofun .inr nofun nofun nofun (.inl rfl) fun hr hne => .inr ⟨rfl, hr, hne⟩
  · cases hstep

theorem Locked.take (h : Locked s) {task : Task T} (hstep : actorStep s a (.take task) = some s') :
    Locked s' := by
  simp only [actorStep] at hstep
  split at hstep
  · next hat =>
      split at hstep <;> cases hstep <;>
        exact h.move hat.1 rfl nofun .inr nofun nofun nofun (.inl rfl) fun hr hne =>
          .inr ⟨rfl, hr, hne⟩
  · cases hstep

theorem Locked.step (h : Locked s) (hacc : Accounted s) (hstep : actorStep s a .step = some s') :
    Locked s' := by
  have hhand : ∀ t, (s.actor a).inHand = some t → s.deleted t = 0 :=
    fun t ht => (hacc.hand a t ht).2.1
  have hholder : (s.actor a).holds = true → s.lock = true := h.lock a
  simp only [actorStep] at hstep
  cases hat : s.actor a with
  | outside =>
      rw [hat] at hstep
      cases hstep
  | cleanup t =>
      rw [hat] at hstep
      cases hstep
      rw [touch_move (hacc.early a t (.inl hat))]
      exact h.move hat rfl nofun .inr nofun nofun nofun (.inl rfl) fun hr hne => .inr ⟨rfl, hr, hne⟩
  | exited t =>
      rw [hat] at hstep
      cases hstep
      rw [touch_move (hacc.early a t (.inr hat))]
      split
      · exact h.move hat rfl nofun .inr nofun nofun nofun (.inl rfl) fun hr hne =>
          .inr ⟨rfl, hr, hne⟩
      · exact h.move hat rfl nofun .inr nofun nofun nofun (.inl rfl) fun hr hne =>
          .inr ⟨rfl, hr, hne⟩
  | exitedLock t =>
      rw [hat] at hstep
      simp only at hstep
      split at hstep
      · cases hstep
      · next hfree =>
          have hunlocked := eq_false_of_ne_true hfree
          split at hstep
          · next hr =>
              cases hstep
              exact h.move hat rfl (fun _ => rfl) (fun _ => .inr rfl) (fun _ => .inr hunlocked)
                (fun _ _ => hr) nofun (.inl rfl) fun hr' _ => absurd (hr.symm.trans hr') nofun
          · cases hstep
            exact h.move hat rfl nofun .inr nofun nofun nofun (.inl rfl) fun hr hne =>
              .inr ⟨rfl, hr, hne⟩
  | exitLock =>
      rw [hat] at hstep
      simp only at hstep
      split at hstep
      · cases hstep
      · next hfree =>
          have hunlocked := eq_false_of_ne_true hfree
          split at hstep
          · cases hstep
            exact h.move hat rfl (fun _ => rfl) (fun _ => .inr rfl) (fun _ => .inr hunlocked) nofun
              (fun _ => rfl) (.inr hunlocked) fun _ _ => .inl rfl
          · cases hstep
            exact h.move hat rfl nofun .inr nofun nofun nofun (.inl rfl) fun hr hne =>
              .inr ⟨rfl, hr, hne⟩
  | unlinking t =>
      rw [hat] at hstep hholder
      cases hstep
      have hrun := h.running a t (.inl hat)
      rw [touch_all (s := s.move a _) fun u hu => ?_]
      · exact h.move hat rfl (fun _ => hholder rfl) .inr (fun _ => .inl rfl) (fun _ _ => hrun) nofun
          (.inl rfl) fun hr _ => absurd (hrun.symm.trans hr) nofun
      · rcases List.mem_cons.mp hu with rfl | hu
        · exact hacc.late hrun a u (by rw [hat]; rfl)
        · exact (hacc.listed u ((List.takeWhile_sublist _).mem hu)).2
  | unlinked t =>
      rw [hat] at hstep
      cases hstep
      have hrun := h.running a t (.inr hat)
      rw [delete_move (hhand t (by rw [hat]; rfl))]
      split
      · exact h.move hat rfl nofun (fun _ => .inl rfl) nofun nofun nofun (.inl rfl) fun hr _ =>
          absurd (hrun.symm.trans hr) nofun
      · exact h.move hat rfl nofun (fun _ => .inl rfl) nofun nofun nofun (.inl rfl) fun hr _ =>
          absurd (hrun.symm.trans hr) nofun
  | releasing =>
      rw [hat] at hstep
      cases hstep
      exact h.move hat rfl nofun (fun _ => .inl rfl) nofun nofun nofun (.inl rfl) fun hr hne =>
        .inr ⟨rfl, hr, hne⟩
  | neutralize =>
      rw [hat] at hstep hholder
      have hended := h.ended a (.inl (by rw [hat]; rfl))
      simp only at hstep
      split at hstep
      · next hthreads =>
          cases hstep
          exact h.move hat rfl (fun _ => hholder rfl) .inr (fun _ => .inl rfl) nofun
            (fun _ => hended) (.inl rfl) fun _ hne => absurd hthreads hne
      · next t rest hthreads =>
          cases hstep
          rw [touch_move (hacc.listed t (hthreads ▸ List.mem_cons_self)).2]
          exact h.move hat rfl (fun _ => hholder rfl) .inr (fun _ => .inl rfl) nofun
            (fun _ => hended) (.inl rfl) fun _ _ => .inl rfl
  | killing t =>
      rw [hat] at hstep hholder
      cases hstep
      have hended := h.ended a (.inl (by rw [hat]; rfl))
      have hdeleted := hhand t (by rw [hat]; rfl)
      split
      · rw [touch_move hdeleted]
        exact h.move hat rfl (fun _ => hholder rfl) .inr (fun _ => .inl rfl) nofun
          (fun _ => hended) (.inl rfl) fun _ _ => .inl rfl
      · rw [touch_of_not_deleted hdeleted]
        exact h
  | killed t =>
      rw [hat] at hstep hholder
      cases hstep
      have hended := h.ended a (.inl (by rw [hat]; rfl))
      rw [delete_move (hhand t (by rw [hat]; rfl))]
      exact h.move hat rfl (fun _ => hholder rfl) .inr (fun _ => .inl rfl) nofun
        (fun _ => hended) (.inl rfl) fun _ _ => .inl rfl

omit [DecidableEq A] in
theorem Accounted.current_process_exit (h : Accounted s)
    (hstep : threadStep s t .currentProcessExit = some s') : Accounted s' := by
  cases h
  simp only [threadStep] at hstep
  split at hstep <;> cases hstep
  constructor <;> grind -linarith [Function.update_apply, ExitPending]

omit [DecidableEq A] in
/-- The thread that ends has not been deleted, and its task is the only one. -/
theorem Accounted.exit (h : Accounted s) {ok : Bool}
    (hallowed : ¬ Overlooks s (.thread t (.exit ok)))
    (hstep : threadStep s t (.exit ok) = some s') : Accounted s' := by
  cases h
  simp only [threadStep] at hstep
  split at hstep <;> cases hstep
  have hdeleted : s.deleted t = 0 := by grind -linarith
  rw [touch_of_not_deleted hdeleted]
  cases ok <;> constructor <;> grind -linarith [Function.update_apply, ExitPending, Overlooks]

omit [DecidableEq A] in
theorem Accounted.new_thread (h : Accounted s)
    (hstep : threadStep s t (.newThread u) = some s') : Accounted s' := by
  cases h
  simp only [threadStep] at hstep
  split at hstep <;> cases hstep
  constructor <;> grind -linarith [Function.update_apply, ExitPending]

/-- A step that takes no thread and no task, and drops a task only when the process has ended. -/
theorem Accounted.move (h : Accounted s) {place : Place T} (lock : Bool) {running : Bool}
    (hrunning : running = true → s.running = true)
    (hhand : (s.actor a).inHand = none ∧ place.inHand = none)
    (htask : ∀ t, place.task = some t → (s.actor a).task = some t)
    (hearly : ∀ t, place = .exited t → s.deleted t = 0) (hcleanup : ∀ t, place ≠ .cleanup t)
    (hkeep : running = true → (s.actor a).task = place.task ∧
      (s.actor a = .exitLock → place = .exitLock)) :
    Accounted { s.move a place with lock := lock, running := running } := by
  cases h
  constructor <;> grind -linarith [ExitPending]

/-- A task that is in the queue once is not there any more when it is taken. -/
theorem not_mem_erase_of_count {l : List (Task T)} {task : Task T} (h : l.count task ≤ 1) :
    task ∉ l.erase task := by
  rw [← List.count_eq_zero, List.count_erase_self]
  omega

theorem Accounted.take (h : Accounted s) {task : Task T}
    (hstep : actorStep s a (.take task) = some s') : Accounted s' := by
  obtain ⟨hintact, honce, hended, hnodup, hlisted, hhand, hfound, hkilled, hqueued, hwaiting,
    htaken, hunique, hearly, hlate, howed⟩ := h
  have hgone : ∀ t, Task.exitCleanup t ∉ s.queue.erase (.exitCleanup t) := fun t =>
    not_mem_erase_of_count (hqueued t)
  simp only [actorStep] at hstep
  split at hstep
  · split at hstep <;> cases hstep <;> constructor <;> grind -linarith [ExitPending]
  · cases hstep

/-- The thread whose task runs is taken out of the list. -/
theorem Accounted.unlink (h : Accounted s) (hrunning : s.running = true)
    (hat : s.actor a = .unlinking t) :
    Accounted { s.move a (.unlinked t) with threads := s.threads.erase t } := by
  cases h
  constructor <;> grind -linarith [ExitPending]

/-- The first thread is taken out of the list. -/
theorem Accounted.pop (h : Accounted s) {rest : List T} (hthreads : s.threads = t :: rest)
    (hended : s.running = false) (hat : s.actor a = .neutralize) :
    Accounted { s.move a (.killing t) with threads := rest } := by
  obtain ⟨hintact, honce, hended, hnodup, hlisted, hhand, hfound, hkilled, hqueued, hwaiting,
    htaken, hunique, hearly, hlate, howed⟩ := h
  rw [hthreads] at hnodup hlisted hhand hfound
  obtain ⟨hfresh, hnodup⟩ := List.nodup_cons.mp hnodup
  constructor <;> grind -linarith [ExitPending]

theorem Accounted.killed_step (h : Accounted s) (hat : s.actor a = .killing t)
    (hfinished : s.phase t = .finished) : Accounted (s.move a (.killed t)) := by
  cases h
  constructor <;> grind -linarith [ExitPending]

/-- A thread that was taken out of the list is deleted, while no task is about to read it. -/
theorem Accounted.delete (h : Accounted s) (hlocked : Locked s) (lock : Bool) {place : Place T}
    (hat : s.actor a = .killed t ∧ s.running = false ∨ s.actor a = .unlinked t)
    (hplace : place = .outside ∨ place = .exitLock ∨ place = .neutralize)
    (hunread : .exitCleanup t ∉ s.queue ∧
      ∀ b, s.actor b ≠ .cleanup t ∧ s.actor b ≠ .exited t) :
    Accounted { s.move a place with
      lock := lock, deleted := Function.update s.deleted t 1 } := by
  obtain ⟨hlock, hholder, hrunning, hstopped, hempty⟩ := hlocked
  obtain ⟨hintact, honce, hended, hnodup, hlisted, hhand, hfound, hkilled, hqueued, hwaiting,
    htaken, hunique, hearly, hlate, howed⟩ := h
  -- nobody else is behind the lock, so nobody else has the thread in hand
  have hat' : (s.actor a).inHand = some t := by grind -linarith
  have hsole : ∀ b, (s.actor b).inHand = some t → b = a := fun b hb =>
    hholder b a (Place.holds_of_in_hand hb) (Place.holds_of_in_hand hat')
  have hfinished : s.phase t = .finished := by grind -linarith
  have htask : (s.actor a).task = some t ∨ s.running = false := by grind -linarith
  obtain ⟨-, hzero, hunlisted⟩ := hhand a t hat'
  constructor <;> grind -linarith [ExitPending, Function.update_apply]

theorem Accounted.step (h : Accounted s) (hlocked : Locked s)
    (hallowed : ¬ Overlooks s (.actor a .step)) (hstep : actorStep s a .step = some s') :
    Accounted s' := by
  simp only [actorStep] at hstep
  cases hat : s.actor a with
  | outside =>
      rw [hat] at hstep
      cases hstep
  | cleanup t =>
      rw [hat] at hstep
      cases hstep
      have hzero := h.early a t (.inl hat)
      rw [touch_move hzero]
      exact h.move s.lock id (by simp [hat, Place.inHand]) (by simp [hat, Place.task])
        (by simp [hzero]) (by simp) (by simp [hat, Place.task])
  | exited t =>
      rw [hat] at hstep
      cases hstep
      rw [touch_move (h.early a t (.inr hat))]
      split
      · exact h.move s.lock id (by simp [hat, Place.inHand]) (by simp [hat, Place.task])
          (by simp) (by simp) (by simp [hat, Place.task])
      · next hended =>
          exact h.move s.lock id (by simp [hat, Place.inHand]) (by simp [Place.task])
            (by simp) (by simp) (fun hrunning => absurd hrunning hended)
  | exitedLock t =>
      rw [hat] at hstep
      simp only at hstep
      split at hstep
      · cases hstep
      · split at hstep
        · cases hstep
          exact h.move true id (by simp [hat, Place.inHand]) (by simp [hat, Place.task])
            (by simp) (by simp) (by simp [hat, Place.task])
        · next hended =>
            cases hstep
            exact h.move s.lock id (by simp [hat, Place.inHand]) (by simp [Place.task])
              (by simp) (by simp) (fun hrunning => absurd hrunning hended)
  | exitLock =>
      rw [hat] at hstep
      simp only at hstep
      split at hstep
      · cases hstep
      · split at hstep
        · cases hstep
          exact h.move true (by simp) (by simp [hat, Place.inHand]) (by simp [Place.task])
            (by simp) (by simp) (by simp)
        · next hended =>
            cases hstep
            exact h.move s.lock id (by simp [hat, Place.inHand]) (by simp [Place.task])
              (by simp) (by simp) (fun hrunning => absurd hrunning hended)
  | unlinking t =>
      rw [hat] at hstep
      cases hstep
      have hrunning := hlocked.running a t (.inl hat)
      rw [touch_all (s := s.move a _) fun u hu => ?_]
      · exact h.unlink hrunning hat
      · rcases List.mem_cons.mp hu with rfl | hu
        · exact h.late hrunning a u (by rw [hat]; rfl)
        · exact (h.listed u ((List.takeWhile_sublist _).mem hu)).2
  | unlinked t =>
      rw [hat] at hstep
      cases hstep
      have htask : (s.actor a).task = some t := by rw [hat]; rfl
      rw [delete_move (h.hand a t (by rw [hat]; rfl)).2.1]
      refine h.delete hlocked false (.inr hat) (by split <;> simp)
        ⟨(h.taken a t htask).2, fun b => ?_⟩
      have hnone : (s.actor b).task = some t → s.actor b = .unlinked t := fun hb => by
        rw [h.unique b a t hb htask, hat]
      constructor <;> (intro hb; rw [hb] at hnone; cases hnone rfl)
  | releasing =>
      rw [hat] at hstep
      cases hstep
      exact h.move false id (by simp [hat, Place.inHand]) (by simp [Place.task]) (by simp)
        (by simp) (by simp [hat, Place.task])
  | neutralize =>
      rw [hat] at hstep
      simp only at hstep
      split at hstep
      · cases hstep
        exact h.move s.lock id (by simp [hat, Place.inHand]) (by simp [Place.task]) (by simp)
          (by simp) (by simp [hat, Place.task])
      · next t rest hthreads =>
          cases hstep
          rw [touch_move (h.listed t (hthreads ▸ List.mem_cons_self)).2]
          exact h.pop hthreads (hlocked.ended a (.inl (by rw [hat]; rfl))) hat
  | killing t =>
      rw [hat] at hstep
      cases hstep
      have hdeleted := (h.hand a t (by rw [hat]; rfl)).2.1
      split
      · next hfinished =>
          rw [touch_move hdeleted]
          exact h.killed_step hat hfinished
      · rw [touch_of_not_deleted hdeleted]
        exact h
  | killed t =>
      rw [hat] at hstep
      cases hstep
      rw [delete_move (h.hand a t (by rw [hat]; rfl)).2.1]
      have hended := hlocked.ended a (.inl (by rw [hat]; rfl))
      refine h.delete hlocked s.lock (.inl ⟨hat, hended⟩) (by simp) ⟨fun hqueue => ?_, fun b => ?_⟩
      · exact hallowed ⟨t, hat, .inl hqueue⟩
      · exact ⟨fun hb => hallowed ⟨t, hat, .inr ⟨b, .inl hb⟩⟩,
          fun hb => hallowed ⟨t, hat, .inr ⟨b, .inr hb⟩⟩⟩

omit [DecidableEq A] in
/-- No thread is created when the process has ended: a thread that creates one is not deleted, so
it is in the list. -/
theorem Locked.new_thread (h : Locked s) (hacc : Accounted s)
    (hstep : threadStep s t (.newThread u) = some s') : Locked s' := by
  simp only [threadStep] at hstep
  split at hstep
  · next hguard =>
      cases hstep
      obtain ⟨hlive, -, hlock⟩ := hguard
      refine ⟨h.lock, h.unique, h.running, h.ended, fun hended _ => ?_⟩
      have hzero : s.deleted t = 0 := by
        by_contra hne
        rw [hacc.ended t hne] at hlive
        cases hlive
      rcases hacc.found t (by simp [hlive]) hzero with hmem | ⟨a, ha⟩
      · exact h.empty hended (List.ne_nil_of_mem hmem)
      · rw [h.lock a (Place.holds_of_in_hand ha)] at hlock
        cases hlock
  · cases hstep

omit [DecidableEq A] in
theorem Locked.thread_step (h : Locked s) (hacc : Accounted s) {act : ThreadAct T}
    (hstep : threadStep s t act = some s') : Locked s' := by
  cases act with
  | newThread u => exact h.new_thread hacc hstep
  | currentProcessExit | exit =>
      simp only [threadStep] at hstep
      split at hstep <;> cases hstep
      exact ⟨h.lock, h.unique, h.running, h.ended, h.empty⟩

omit [DecidableEq A] in
theorem State.Initial.accounted (h : s.Initial) : Accounted s := by
  have hactor := h.actor
  have hphase := h.phase
  have hdeleted := h.deleted
  have hqueue := h.queue
  constructor <;> grind -linarith [h.dangling, h.nodup]

omit [DecidableEq A] in
theorem State.Initial.locked (h : s.Initial) : Locked s := by
  have hactor := h.actor
  constructor <;> grind -linarith [h.running]

/-- In every run in which `process_exit` deletes no thread that its `exit_cleanup_task` has yet to
read, and in which the tasks get their memory as long as nobody is about to end the process, every
thread is deleted once and not used behind its deletion. -/
theorem threads_deleted_once (h : Reachable (runs fun s event => ¬ Overlooks s event) s) :
    DeletedOnce s := by
  have hinv : Locked s ∧ Accounted s := Reachable.induct (motive := fun s => Locked s ∧ Accounted s)
    (fun s hinit => ⟨State.Initial.locked hinit, State.Initial.accounted hinit⟩)
    (fun s s' hs hstep => by
      obtain ⟨hlocked, hacc⟩ := hs
      obtain ⟨event, hallowed, hstep⟩ := hstep
      cases event with
      | thread t act =>
          refine ⟨hlocked.thread_step hacc hstep, ?_⟩
          cases act with
          | currentProcessExit => exact hacc.current_process_exit hstep
          | exit ok => exact hacc.exit hallowed hstep
          | newThread u => exact hacc.new_thread hstep
      | actor a act =>
          cases act with
          | processExit =>
              refine ⟨hlocked.process_exit hstep, ?_⟩
              simp only [step, actorStep] at hstep
              split at hstep
              · next hat =>
                  cases hstep
                  exact hacc.move s.lock id (by simp [hat, Place.inHand]) (by simp [Place.task])
                    (by simp) (by simp) (by simp [hat, Place.task])
              · cases hstep
          | take task => exact ⟨hlocked.take hstep, hacc.take hstep⟩
          | step => exact ⟨hlocked.step hacc hstep, hacc.step hlocked hallowed hstep⟩) h
  obtain ⟨hlocked, hacc⟩ := hinv
  refine ⟨hacc.intact, hacc.once, fun hqueue hactor t hfinished => ?_⟩
  by_contra hne
  have hzero : s.deleted t = 0 := by
    have := hacc.once t
    omega
  cases hrunning : s.running with
  | true =>
      rcases hacc.owed hrunning t hfinished hzero with hmem | ⟨a, ha⟩ | hpending | ⟨a, ha⟩
      · simp [hqueue] at hmem
      · simp [hactor a, Place.task] at ha
      · simp [hqueue] at hpending
      · simp [hactor a] at ha
  | false =>
      rcases hacc.found t (by simp [hfinished]) hzero with hmem | ⟨a, ha⟩
      · obtain ⟨a, ha⟩ := hlocked.empty hrunning (List.ne_nil_of_mem hmem)
        simp [hactor a, Place.inLoop] at ha
      · simp [hactor a, Place.inHand] at ha

end Accounted

section Examples

/-- A process with one thread, and one worker. -/
def oneThread : State (Fin 1) (Fin 1) where
  lock := false
  running := true
  threads := [⟨0, Nat.one_pos⟩]
  queue := []
  phase := fun _ => .live
  deleted := fun _ => 0
  dangling := false
  actor := fun _ => .outside

theorem one_thread_initial : oneThread.Initial where
  lock := rfl
  running := rfl
  nodup := by decide
  queue := rfl
  phase := by decide
  deleted := fun _ => rfl
  dangling := rfl
  actor := fun _ => rfl

/-- Every `exit` has its task, and nothing is done behind the thread that is killed. -/
def killsNone (s : State (Fin 1) (Fin 1)) : Event (Fin 1) (Fin 1) → Bool
  | .thread _ (.exit ok) => ok
  | .actor a .step => decide (s.actor a ≠ .killed ⟨0, Nat.one_pos⟩)
  | _ => true

/-- The thread calls `exit`, and its task is run before the process ends. -/
theorem threads_deleted_once_exit : ∃ s : State (Fin 1) (Fin 1),
    s.deleted 0 = 1 ∧ s.running = false ∧ DeletedOnce s := by
  have hrun : (runEvents step killsNone
      ([.thread 0 (.exit true), .actor 0 (.take (.exitCleanup 0))] ++
        List.replicate 8 (.actor 0 .step)) oneThread).map (fun s => (s.deleted 0, s.running)) =
      some (1, false) := by
    decide +kernel
  obtain ⟨s, hrun, hdone⟩ := Option.map_eq_some_iff.mp hrun
  obtain ⟨hdeleted, hended⟩ := Prod.mk.inj hdone
  refine ⟨s, hdeleted, hended, threads_deleted_once (Reachable.run_events (fun s event hpass => ?_)
    (.init one_thread_initial) hrun)⟩
  cases event with
  | thread t act =>
      cases act with
      | exit ok =>
          obtain rfl : ok = true := hpass
          exact id
      | currentProcessExit | newThread => exact id
  | actor a act =>
      cases act with
      | step =>
          intro hover
          obtain ⟨t, hat, -⟩ := hover
          have hsame : t = ⟨0, Nat.one_pos⟩ := Subsingleton.elim ..
          exact of_decide_eq_true hpass (hsame ▸ hat)
      | processExit | take => exact id

/-- The thread ends its process: `process_exit` deletes it, and then its `exit_cleanup_task` reads
the freed structure. -/
theorem thread_read_after_delete : ¬ ∀ s : State (Fin 1) (Fin 1),
    Reachable (runs fun _ _ => True) s → DeletedOnce s := by
  intro hclaim
  have hrun : (runEvents step (fun _ _ => true)
      ([.thread 0 .currentProcessExit, .thread 0 (.exit true),
          .actor 0 (.take .currentProcessExit)] ++ List.replicate 6 (.actor 0 .step) ++
        [.actor 0 (.take (.exitCleanup 0)), .actor 0 .step]) oneThread).map State.dangling =
      some true := by
    decide +kernel
  obtain ⟨s, hrun, hdangling⟩ := Option.map_eq_some_iff.mp hrun
  have hintact := (hclaim s (Reachable.run_events (fun _ _ _ => trivial)
    (.init one_thread_initial) hrun)).intact
  rw [hdangling] at hintact
  cases hintact

end Examples

end Kogata.Kernel.ThreadDelete
