import Kogata.Lib.Run
import Mathlib.Logic.Function.Basic
import Mathlib.Tactic.Common

/-!
# Waiting for children

`process_wait` and `process_wait_any_child` of `kernel/user/process.c`, called with `wait`, against
`process_exit` of the children. The parent tests a child's status with its own lock held;
`process_exit` changes it with the child's lock held, and wakes the waiters at its end. The parent
is running.
-/

namespace Kogata.Kernel.WaitChild

open Lib.Run

/-- What a parent thread waits for: one child, or any. -/
inductive Target (C : Type) where
  | one (c : C)
  | any
  deriving DecidableEq

/-- Where a parent thread is: outside, in front of `mutex_lock(&par->lock)`, in front of the test
of the child's status, in the loop over the children, in front of `process_get_status` of a child
that has ended, in front of the critical section, and in `wait_on`. In the loop `rest` are the
children that it has not come to. -/
inductive WaiterPlace (C : Type) where
  | outside
  | lock (target : Target C)
  | test (c : C)
  | scan (rest : List C)
  | reap (c : C)
  | parking (target : Target C)
  | parked (target : Target C)
  deriving DecidableEq

/-- Where a worker thread is in `process_exit` of a child: in front of `mutex_lock`, behind the
change of the status, in front of `resume_on(&par->children)` and `resume_on(p)`, and in front of
`mutex_unlock`. -/
inductive ExiterPlace (C : Type) where
  | outside
  | lock (c : C)
  | cleaning (c : C)
  | wakeAny (c : C)
  | wakeOne (c : C)
  | unlock (c : C)
  deriving DecidableEq

/-- A parent, its children, its threads, and the threads that run `process_exit`. -/
structure State (C T E : Type) where
  parLock : Bool
  children : List C
  /-- The child's status is neither `PS_LOADING` nor `PS_RUNNING`. -/
  ended : C → Bool
  childLock : C → Bool
  waiter : T → WaiterPlace C
  exiter : E → ExiterPlace C

/-- What may happen next. -/
inductive Event (C T E : Type) where
  | newChild (c : C)
  | wait (t : T) (target : Target C)
  | waiter (t : T)
  | exit (e : E) (c : C)
  | exiter (e : E)
  deriving DecidableEq

variable {C T E : Type} [DecidableEq C] [DecidableEq T] [DecidableEq E]

/-- The waiter is at another place. -/
def State.goto (s : State C T E) (t : T) (place : WaiterPlace C) : State C T E :=
  { s with waiter := Function.update s.waiter t place }

/-- The exiter is at another place. -/
def State.move (s : State C T E) (e : E) (place : ExiterPlace C) : State C T E :=
  { s with exiter := Function.update s.exiter e place }

/-- `resume_on`: the threads that wait on the object take the lock again. -/
def State.resumeOn (s : State C T E) (target : Target C) : State C T E :=
  { s with waiter := fun t =>
      if s.waiter t = .parked target then .lock target else s.waiter t }

/-- The next step of a waiter. The critical section in front of `wait_on` lets no other thread run
between `mutex_unlock` and the place in the list of the waiters. -/
def waiterStep (s : State C T E) (t : T) : Option (State C T E) :=
  match s.waiter t with
  | .outside => none
  | .lock (.one c) =>
      if s.parLock then none
      else if c ∈ s.children then some { s.goto t (.test c) with parLock := true }
      else some (s.goto t .outside)
  | .lock .any => if s.parLock then none
      else some { s.goto t (.scan s.children) with parLock := true }
  | .test c => some (s.goto t (if s.ended c then .reap c else .parking (.one c)))
  | .scan [] => some (s.goto t (.parking .any))
  | .scan (c :: rest) => some (s.goto t (if s.ended c then .reap c else .scan rest))
  | .reap c =>
      if s.childLock c then none
      else some { s.goto t .outside with parLock := false, children := s.children.erase c }
  | .parking target => some { s.goto t (.parked target) with parLock := false }
  | .parked _ => none

/-- The next step of `process_exit`. -/
def exiterStep (s : State C T E) (e : E) : Option (State C T E) :=
  match s.exiter e with
  | .outside => none
  | .lock c =>
      if s.childLock c then none
      else if s.ended c then some (s.move e .outside)
      else some { s.move e (.cleaning c) with
        childLock := Function.update s.childLock c true
        ended := Function.update s.ended c true }
  | .cleaning c => some (s.move e (.wakeAny c))
  | .wakeAny c => some ((s.resumeOn .any).move e (.wakeOne c))
  | .wakeOne c => some ((s.resumeOn (.one c)).move e (.unlock c))
  | .unlock c => some { s.move e .outside with childLock := Function.update s.childLock c false }

/-- The state after an event. -/
def step (s : State C T E) : Event C T E → Option (State C T E)
  | .newChild c =>
      if s.parLock ∨ c ∈ s.children ∨ s.ended c then none
      else some { s with children := c :: s.children }
  | .wait t target => if s.waiter t = .outside then some (s.goto t (.lock target)) else none
  | .waiter t => waiterStep s t
  | .exit e c => if s.exiter e = .outside then some (s.move e (.lock c)) else none
  | .exiter e => exiterStep s e

/-- A running parent with children that run, none of which is waited for or ends yet. -/
structure State.Initial (s : State C T E) : Prop where
  ended : ∀ c, s.ended c = false
  waiter : ∀ t, s.waiter t = .outside
  exiter : ∀ e, s.exiter e = .outside

/-- The runs in which every event is allowed where it happens. -/
abbrev runs (allowed : State C T E → Event C T E → Prop) : System (State C T E) :=
  eventRuns State.Initial step allowed

/-- The child is one that the target stands for. -/
def Target.Awaits (children : List C) : Target C → C → Prop
  | .one c, c' => c' = c
  | .any, c' => c' ∈ children

/-- `process_exit` of the child has begun and not returned. -/
def ExiterPlace.inExit (c : C) : ExiterPlace C → Prop
  | .outside => False
  | .lock c' | .cleaning c' | .wakeAny c' | .wakeOne c' | .unlock c' => c' = c

/-- The thread is parked in `wait_on`, every `process_exit` of the awaited children has returned,
and an awaited child that is still listed has ended. -/
def LostWakeup (s : State C T E) (t : T) : Prop :=
  ∃ target, s.waiter t = .parked target ∧
    (∀ c, target.Awaits s.children c → ∀ e, ¬ (s.exiter e).inExit c) ∧
    ∃ c ∈ s.children, target.Awaits s.children c ∧ s.ended c = true

/-- The thread waits for the target and has seen that the child was running, but it is not parked
yet. -/
def WaiterPlace.seen (children : List C) (c : C) : WaiterPlace C → Target C → Prop
  | .scan rest, .any => c ∈ children ∧ c ∉ rest
  | .parking (.one c'), .one c'' => c' = c ∧ c'' = c
  | .parking .any, .any => c ∈ children
  | _, _ => False

/-- The `resume_on` of the end of a child comes while a thread has seen that the child was running
and is not parked yet. -/
def Overlooks (s : State C T E) : Event C T E → Prop
  | .exiter e => ∃ c t,
      (s.exiter e = .wakeAny c ∧ (s.waiter t).seen s.children c .any) ∨
      (s.exiter e = .wakeOne c ∧ (s.waiter t).seen s.children c (.one c))
  | _ => False

section Safe

variable {s s' : State C T E}

/-- `process_exit` of the child has its `resume_on` of the target still in front of it. -/
def ExiterPlace.willWake (c : C) : ExiterPlace C → Target C → Prop
  | .cleaning c', _ => c' = c
  | .wakeAny c', _ => c' = c
  | .wakeOne c', .one _ => c' = c
  | _, _ => False

/-- The thread waits for the target and has seen that the child was running. -/
def WaiterPlace.relies (children : List C) (c : C) (place : WaiterPlace C) (target : Target C) :
    Prop :=
  place.seen children c target ∨ place = .parked target ∧ target.Awaits children c

/-- Where a child that somebody relies on has ended, the wake-up is still to come. -/
def WakeAhead (s : State C T E) : Prop :=
  ∀ t c target, (s.waiter t).relies s.children c target → c ∈ s.children → s.ended c = true →
    ∃ e, (s.exiter e).willWake c target

omit [DecidableEq C] in
theorem relies_mono {children children' : List C} {c : C} {place : WaiterPlace C}
    {target : Target C} (hc : c ∈ children' → c ∈ children)
    (h : place.relies children' c target) : place.relies children c target := by
  rcases h with h | ⟨hparked, hawaits⟩
  · left
    unfold WaiterPlace.seen at h ⊢
    split at h
    · exact ⟨hc h.1, h.2⟩
    · exact h
    · exact hc h
    · exact h
  · refine .inr ⟨hparked, ?_⟩
    cases target with
    | one c' => exact hawaits
    | any => exact hc hawaits

omit [DecidableEq C] [DecidableEq E] in
/-- A step of one waiter. -/
theorem WakeAhead.waiter (h : WakeAhead s) {t : T} {place : WaiterPlace C}
    (hwaiter : s'.waiter = Function.update s.waiter t place)
    (hchildren : ∀ c ∈ s'.children, c ∈ s.children) (hended : s'.ended = s.ended)
    (hexiter : s'.exiter = s.exiter)
    (hplace : ∀ c target, place.relies s'.children c target → c ∈ s'.children →
      s.ended c = true → (s.waiter t).relies s.children c target) : WakeAhead s' := by
  intro u c target hrelies hmem hdone
  rw [hexiter]
  rw [hended] at hdone
  refine h u c target ?_ (hchildren c hmem) hdone
  rw [hwaiter] at hrelies
  by_cases hu : u = t
  · rw [hu, Function.update_self] at hrelies
    exact hu ▸ hplace c target hrelies hmem hdone
  · rw [Function.update_of_ne hu] at hrelies
    exact relies_mono (hchildren c) hrelies

omit [DecidableEq C] in
theorem not_relies_lock {children : List C} {c : C} {target target' : Target C} :
    ¬ (WaiterPlace.lock target').relies children c target := by
  rintro (h | ⟨h, -⟩) <;> cases h

omit [DecidableEq E] in
theorem WakeAhead.waiter_step (h : WakeAhead s) {t : T} (hstep : waiterStep s t = some s') :
    WakeAhead s' := by
  unfold waiterStep at hstep
  -- most places rely on nothing
  have hnone : ∀ {place : WaiterPlace C} {children : List C},
      (∀ c target, ¬ place.relies children c target) → ∀ c target,
      place.relies children c target → c ∈ children → s.ended c = true →
        (s.waiter t).relies s.children c target :=
    fun hno c target hrelies => absurd hrelies (hno c target)
  cases hat : s.waiter t with
  | outside =>
      rw [hat] at hstep
      cases hstep
  | lock target =>
      rw [hat] at hstep
      cases target with
      | one c =>
          simp only at hstep
          split at hstep
          · cases hstep
          · split at hstep <;> cases hstep <;>
              refine h.waiter rfl (fun _ => id) rfl rfl (hnone fun c target => ?_) <;>
              rintro (h | ⟨h, -⟩) <;> cases h
      | any =>
          simp only at hstep
          split at hstep <;> cases hstep
          refine h.waiter rfl (fun _ => id) rfl rfl (hnone fun c target => ?_)
          rintro (h | ⟨h, -⟩)
          · cases target with
            | one c' => exact h
            | any => exact h.2 h.1
          · cases h
  | test c =>
      rw [hat] at hstep
      simp only at hstep
      cases hstep
      refine h.waiter rfl (fun _ => id) rfl rfl fun c' target hrelies _ hdone => ?_
      split at hrelies
      · rcases hrelies with h | ⟨h, -⟩ <;> cases h
      · next hrunning =>
          rcases hrelies with h | ⟨h, -⟩
          · cases target with
            | one c'' => exact absurd (h.1 ▸ hdone) hrunning
            | any => exact h.elim
          · cases h
  | scan rest =>
      rw [hat] at hstep
      cases rest with
      | nil =>
          simp only at hstep
          cases hstep
          refine h.waiter rfl (fun _ => id) rfl rfl fun c' target hrelies _ hdone => ?_
          rcases hrelies with h | ⟨h, -⟩
          · cases target with
            | one c'' => exact h.elim
            | any =>
                rw [hat]
                exact .inl ⟨h, List.not_mem_nil⟩
          · cases h
      | cons c rest =>
          simp only at hstep
          cases hstep
          refine h.waiter rfl (fun _ => id) rfl rfl fun c' target hrelies _ hdone => ?_
          split at hrelies
          · rcases hrelies with h | ⟨h, -⟩ <;> cases h
          · next hrunning =>
              rcases hrelies with h | ⟨h, -⟩
              · cases target with
                | one c'' => exact h.elim
                | any =>
                    rw [hat]
                    refine .inl ⟨h.1, fun hmem => ?_⟩
                    rcases List.mem_cons.mp hmem with rfl | hmem
                    · exact hrunning hdone
                    · exact h.2 hmem
              · cases h
  | reap c =>
      rw [hat] at hstep
      simp only at hstep
      split at hstep <;> cases hstep
      refine h.waiter rfl (fun c' hc' => List.mem_of_mem_erase hc') rfl rfl
        (hnone fun c target => ?_)
      rintro (h | ⟨h, -⟩) <;> cases h
  | parking target =>
      rw [hat] at hstep
      simp only at hstep
      cases hstep
      refine h.waiter rfl (fun _ => id) rfl rfl fun c' target' hrelies hmem _ => ?_
      rw [hat]
      rcases hrelies with h | ⟨h, hawaits⟩
      · cases h
      · obtain rfl := WaiterPlace.parked.inj h
        cases target with
        | one c'' => exact .inl ⟨hawaits.symm, hawaits.symm ▸ rfl⟩
        | any => exact .inl hmem
  | parked target =>
      rw [hat] at hstep
      cases hstep

omit [DecidableEq C] [DecidableEq T] in
/-- A step of one exiter, whose wake-ups that are not to come any more nobody relies on. -/
theorem WakeAhead.exiter (h : WakeAhead s) {e : E} {place : ExiterPlace C}
    (hexiter : s'.exiter = Function.update s.exiter e place)
    (hrelies : ∀ t c target, (s'.waiter t).relies s'.children c target →
      (s.waiter t).relies s.children c target)
    (hchildren : s'.children = s.children)
    (hended : ∀ c, s'.ended c = true → s.ended c = true ∨ ∀ target, place.willWake c target)
    (hwake : ∀ t c target, (s'.waiter t).relies s'.children c target →
      (s.exiter e).willWake c target → place.willWake c target) : WakeAhead s' := by
  intro t c target hrel hmem hdone
  rw [hexiter]
  rcases hended c hdone with hdone | hplace
  · obtain ⟨e', he'⟩ := h t c target (hrelies t c target hrel) (hchildren ▸ hmem) hdone
    by_cases heq : e' = e
    · refine ⟨e, ?_⟩
      rw [Function.update_self]
      exact hwake t c target hrel (heq ▸ he')
    · refine ⟨e', ?_⟩
      rw [Function.update_of_ne heq]
      exact he'
  · refine ⟨e, ?_⟩
    rw [Function.update_self]
    exact hplace target

omit [DecidableEq C] in
theorem relies_one {children : List C} {c c' : C} {place : WaiterPlace C}
    (h : place.relies children c (.one c')) : c' = c := by
  rcases h with h | ⟨-, hawaits⟩
  · unfold WaiterPlace.seen at h
    split at h
    · next heq => cases heq
    · next heq =>
        cases heq
        exact h.2
    · next heq => cases heq
    · exact h.elim
  · exact hawaits.symm

omit [DecidableEq T] [DecidableEq E] in
/-- After `resume_on` nobody is parked on the object. -/
theorem relies_resume {t : T} {c : C} {target woken : Target C}
    (h : ((s.resumeOn woken).waiter t).relies s.children c target) :
    (s.waiter t).relies s.children c target ∧ (target = woken → (s.waiter t).seen s.children c target) := by
  unfold State.resumeOn at h
  simp only at h
  split at h
  · exact absurd h not_relies_lock
  · next hnot =>
      refine ⟨h, fun heq => h.resolve_right fun hparked => hnot ?_⟩
      rw [← heq]
      exact hparked.1

omit [DecidableEq T] in
theorem WakeAhead.exiter_step (h : WakeAhead s) {e : E} (hallowed : ¬ Overlooks s (.exiter e))
    (hstep : exiterStep s e = some s') : WakeAhead s' := by
  unfold exiterStep at hstep
  cases hat : s.exiter e with
  | outside =>
      rw [hat] at hstep
      cases hstep
  | lock c =>
      rw [hat] at hstep
      simp only at hstep
      split at hstep
      · cases hstep
      · split at hstep
        · cases hstep
          exact h.exiter rfl (fun _ _ _ => id) rfl (fun _ => .inl) fun _ _ _ _ hw => by
            rw [hat] at hw
            exact hw.elim
        · cases hstep
          refine h.exiter rfl (fun _ _ _ => id) rfl (fun c' hc' => ?_) fun _ _ _ _ hw => by
            rw [hat] at hw
            exact hw.elim
          by_cases heq : c' = c
          · exact .inr fun _ => heq.symm
          · exact .inl ((Function.update_of_ne heq ..).symm.trans hc')
  | cleaning c =>
      rw [hat] at hstep
      cases hstep
      refine h.exiter rfl (fun _ _ _ => id) rfl (fun _ => .inl) fun _ _ _ _ hw => ?_
      rw [hat] at hw
      exact hw
  | wakeAny c =>
      rw [hat] at hstep
      cases hstep
      refine h.exiter rfl (fun t c' target hrel => (relies_resume hrel).1) rfl (fun _ => .inl)
        fun t c' target hrel hw => ?_
      rw [hat] at hw
      cases target with
      | one c'' => exact hw
      | any =>
          have hseen := (relies_resume hrel).2 rfl
          exact absurd ⟨c, t, .inl ⟨hat, (show c = c' from hw) ▸ hseen⟩⟩ hallowed
  | wakeOne c =>
      rw [hat] at hstep
      cases hstep
      refine h.exiter rfl (fun t c' target hrel => (relies_resume hrel).1) rfl (fun _ => .inl)
        fun t c' target hrel hw => ?_
      rw [hat] at hw
      cases target with
      | one c'' =>
          obtain rfl : c = c' := hw
          obtain rfl := relies_one hrel
          exact absurd ⟨c'', t, .inr ⟨hat, (relies_resume hrel).2 rfl⟩⟩ hallowed
      | any => exact hw.elim
  | unlock c =>
      rw [hat] at hstep
      cases hstep
      exact h.exiter rfl (fun _ _ _ => id) rfl (fun _ => .inl) fun _ _ _ _ hw => by
        rw [hat] at hw
        exact hw.elim

omit [DecidableEq C] [DecidableEq T] [DecidableEq E] in
theorem WakeAhead.new_child (h : WakeAhead s) {c : C} (hrunning : s.ended c = false) :
    WakeAhead { s with children := c :: s.children } := by
  intro t c' target hrelies hmem hdone
  have hmem : c' ∈ s.children := by
    rcases List.mem_cons.mp hmem with rfl | hmem
    · exact absurd hdone (by simp [hrunning])
    · exact hmem
  exact h t c' target (relies_mono (fun _ => hmem) hrelies) hmem hdone

theorem WakeAhead.step (h : WakeAhead s) {event : Event C T E} (hallowed : ¬ Overlooks s event)
    (hstep : step s event = some s') : WakeAhead s' := by
  cases event with
  | newChild c =>
      simp only [WaitChild.step] at hstep
      split at hstep
      · cases hstep
      · next hnot =>
          cases hstep
          refine h.new_child (Bool.eq_false_iff.mpr fun hended => hnot (.inr (.inr hended)))
  | wait t target =>
      simp only [WaitChild.step] at hstep
      split at hstep <;> cases hstep
      exact h.waiter rfl (fun _ => id) rfl rfl fun c target' hrelies =>
        absurd hrelies not_relies_lock
  | waiter t => exact h.waiter_step hstep
  | exit e c =>
      simp only [WaitChild.step] at hstep
      split at hstep
      · next hat =>
          cases hstep
          exact h.exiter rfl (fun _ _ _ => id) rfl (fun _ => .inl) fun _ _ _ _ hw => by
            rw [hat] at hw
            exact hw.elim
      · cases hstep
  | exiter e => exact h.exiter_step hallowed hstep

/-- In every run in which each `resume_on` at the end of a child finds the threads that have seen
that child running parked, no thread stays parked when a child that it waits for has ended. -/
theorem wait_child_wakes (h : Reachable (runs fun s event => ¬ Overlooks s event) s) (t : T) :
    ¬ LostWakeup s t := by
  have hahead : WakeAhead s := Reachable.induct (motive := WakeAhead)
    (fun s hinit t c target _ _ hdone => by
      rw [hinit.ended c] at hdone
      cases hdone)
    (fun s s' hs hstep => by
      obtain ⟨event, hallowed, hstep⟩ := hstep
      exact hs.step hallowed hstep) h
  rintro ⟨target, hparked, hreturned, c, hmem, hawaits, hdone⟩
  obtain ⟨e, he⟩ := hahead t c target (.inr ⟨hparked, hawaits⟩) hmem hdone
  refine hreturned c hawaits e ?_
  cases hat : s.exiter e with
  | outside | lock | unlock =>
      rw [hat] at he
      exact he.elim
  | cleaning | wakeAny =>
      rw [hat] at he
      exact he
  | wakeOne c' =>
      rw [hat] at he
      cases target with
      | one => exact he
      | any => exact he.elim

end Safe

section Examples

/-- A parent with one child. -/
def oneChild : State (Fin 1) (Fin 1) (Fin 1) where
  parLock := false
  children := [⟨0, Nat.one_pos⟩]
  ended := fun _ => false
  childLock := fun _ => false
  waiter := fun _ => .outside
  exiter := fun _ => .outside

theorem one_child_initial : oneChild.Initial :=
  ⟨fun _ => rfl, fun _ => rfl, fun _ => rfl⟩

/-- A parent that is parked when its child ends takes it out of the list. -/
theorem wait_child_wakes_parked : ∃ s : State (Fin 1) (Fin 1) (Fin 1),
    s.children = [] ∧ ∀ t, ¬ LostWakeup s t := by
  have hrun : (runEvents step (fun s event => match event with
        | .exiter _ => s.waiter 0 == .parked (.one 0) || s.waiter 0 == .lock (.one 0)
        | _ => true)
      [.wait 0 (.one 0), .waiter 0, .waiter 0, .waiter 0, .exit 0 0, .exiter 0, .exiter 0,
        .exiter 0, .exiter 0, .exiter 0, .waiter 0, .waiter 0, .waiter 0] oneChild).map
      (fun s => s.children) = some [] := by
    decide +kernel
  obtain ⟨s, hrun, hgone⟩ := Option.map_eq_some_iff.mp hrun
  refine ⟨s, hgone, wait_child_wakes (Reachable.run_events (fun s event hpass => ?_)
    (.init one_child_initial) hrun)⟩
  cases event with
  | newChild | wait | waiter | exit => exact id
  | exiter e =>
      rintro ⟨c, t, hseen⟩
      obtain rfl : t = 0 := Subsingleton.elim t 0
      rcases Bool.or_eq_true_iff.mp hpass with hat | hat <;> rw [beq_iff_eq.mp hat] at hseen <;>
        rcases hseen with ⟨-, hseen⟩ | ⟨-, hseen⟩ <;> exact hseen

/-- The child ends between the test of its status and `wait_on`. -/
theorem wait_child_lost : ¬ ∀ (s : State (Fin 1) (Fin 1) (Fin 1)) (t : Fin 1),
    Reachable (runs fun _ _ => True) s → ¬ LostWakeup s t := by
  intro hclaim
  have hrun : (runEvents step (fun _ _ => true)
      [.wait 0 (.one 0), .waiter 0, .waiter 0, .exit 0 0, .exiter 0, .exiter 0, .exiter 0,
        .exiter 0, .exiter 0, .waiter 0] oneChild).map (fun s =>
        s.waiter 0 == .parked (.one 0) && s.exiter 0 == .outside && s.children == [0] &&
          s.ended 0) = some true := by
    decide +kernel
  obtain ⟨s, hrun, hlost⟩ := Option.map_eq_some_iff.mp hrun
  simp only [Bool.and_eq_true, beq_iff_eq] at hlost
  obtain ⟨⟨⟨hparked, hreturned⟩, hchildren⟩, hended⟩ := hlost
  refine hclaim s 0 (Reachable.run_events (fun _ _ _ => trivial) (.init one_child_initial) hrun)
    ⟨.one 0, hparked, fun c _ e => ?_, 0, hchildren ▸ List.mem_singleton.mpr rfl, rfl, hended⟩
  obtain rfl : e = 0 := Subsingleton.elim e 0
  rw [hreturned]
  exact id

end Examples

end Kogata.Kernel.WaitChild
