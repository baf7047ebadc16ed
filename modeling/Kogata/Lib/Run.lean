/-!
# Runs of a transition system

A system is a set of initial states and a step relation. `Reachable.induct` is the rule for
invariants: what holds initially and is kept by every step holds in every reachable state. Where
the steps are those of a function on events, `Reachable.run_events` leads from a list of events to
a reachable state. `Reaches` is what a function that steps by itself comes to.
-/

namespace Lib.Run

/-- A transition system on the states `σ`. -/
structure System (σ : Type) where
  init : σ → Prop
  step : σ → σ → Prop

variable {σ : Type}

/-- The states that a run of the system passes through. -/
inductive Reachable (sys : System σ) : σ → Prop
  | init {s : σ} : sys.init s → Reachable sys s
  | step {s s' : σ} : Reachable sys s → sys.step s s' → Reachable sys s'

/-- An invariant of a system holds in every reachable state. -/
theorem Reachable.induct {sys : System σ} {motive : σ → Prop}
    (hinit : ∀ s, sys.init s → motive s)
    (hstep : ∀ s s', motive s → sys.step s s' → motive s') {s : σ} (h : Reachable sys s) :
    motive s := by
  induction h with
  | init h => exact hinit _ h
  | step _ hs ih => exact hstep _ _ ih hs

/-- A system with more initial states and more steps reaches more states. -/
theorem Reachable.mono {sys other : System σ} (hinit : ∀ s, sys.init s → other.init s)
    (hstep : ∀ s s', sys.step s s' → other.step s s') {s : σ} (h : Reachable sys s) :
    Reachable other s := by
  induction h with
  | init h => exact .init (hinit _ h)
  | step _ hs ih => exact .step ih (hstep _ _ hs)

section Events

variable {ε : Type}

/-- The runs of a step function on events in which every event is allowed where it happens. -/
def eventRuns (init : σ → Prop) (next : σ → ε → Option σ) (allowed : σ → ε → Prop) :
    System σ where
  init := init
  step := fun s s' => ∃ event, allowed s event ∧ next s event = some s'

/-- The state after a list of events, as long as the guard lets them pass. -/
def runEvents (next : σ → ε → Option σ) (guard : σ → ε → Bool) : List ε → σ → Option σ
  | [], s => some s
  | event :: rest, s =>
      if guard s event then (next s event).bind (runEvents next guard rest) else none

variable {init : σ → Prop} {next : σ → ε → Option σ} {allowed : σ → ε → Prop}

theorem Reachable.run_events {guard : σ → ε → Bool}
    (hguard : ∀ s event, guard s event = true → allowed s event) {events : List ε} {s s' : σ}
    (hs : Reachable (eventRuns init next allowed) s)
    (hrun : runEvents next guard events s = some s') :
    Reachable (eventRuns init next allowed) s' := by
  induction events generalizing s with
  | nil =>
      cases hrun
      exact hs
  | cons event rest ih =>
      unfold runEvents at hrun
      split at hrun
      · next hpass =>
          obtain ⟨mid, hstep, hrest⟩ := Option.bind_eq_some_iff.mp hrun
          exact ih (.step hs ⟨event, hguard s event hpass, hstep⟩) hrest
      · cases hrun

end Events

section Functions

variable {next : σ → Option σ} {goal : σ → Prop}

/-- A step function leads to a goal after finitely many steps. -/
inductive Reaches (next : σ → Option σ) (goal : σ → Prop) : σ → Prop
  | here {s : σ} : goal s → Reaches next goal s
  | step {s s' : σ} : next s = some s' → Reaches next goal s' → Reaches next goal s

/-- A goal is never reached from a set of states that no step leaves and that has none. -/
theorem Reaches.never {motive : σ → Prop} (hgoal : ∀ s, motive s → ¬ goal s)
    (hstep : ∀ s s', motive s → next s = some s' → motive s') {s : σ} (hs : motive s) :
    ¬ Reaches next goal s := by
  intro h
  induction h with
  | here h => exact hgoal _ hs h
  | step hnext _ ih => exact ih (hstep _ _ hs hnext)

end Functions

end Lib.Run
