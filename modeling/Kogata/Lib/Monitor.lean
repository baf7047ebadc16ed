import Mathlib.Logic.Function.Basic
import Mathlib.Tactic.Common

/-!
# Monitors

A value that a mutex guards. A thread that holds the mutex knows something about the value. When it
has changed the value it wakes every thread that is parked, before it releases the mutex; when what
it knows excludes what it waits for, it parks and releases the mutex in one step. The rule is
`Step.sound`: a parked thread whose value has come up is about to be woken.
-/

namespace Lib.Monitor

/-- Where a thread is: it does not hold the mutex, it holds the mutex and knows something about
the value, which it has changed since it last woke the others, or it is parked. -/
inductive Phase (σ : Type) where
  | outside
  | inside (knows : σ → Prop) (changed : Bool)
  | parked (ready : σ → Prop)

/-- The value, its mutex and the threads. -/
structure State (T σ : Type) where
  value : σ
  locked : Bool
  phase : T → Phase σ

variable {T σ : Type}

/-- A parked thread goes on. -/
def Phase.woken : Phase σ → Phase σ
  | .parked _ => .outside
  | phase => phase

/-- The thread holds the mutex. -/
def Phase.Holds : Phase σ → Prop
  | .inside _ _ => True
  | _ => False

/-- A step of a thread. -/
inductive Step [DecidableEq T] (s : State T σ) : State T σ → Prop
  | enter {t : T} : s.locked = false → s.phase t = .outside →
      Step s { s with
        locked := true
        phase := Function.update s.phase t (.inside (fun _ => True) false) }
  | act {t : T} {value : σ} {knows knows' : σ → Prop} {changed changed' : Bool} :
      s.phase t = .inside knows changed → (knows s.value → knows' value) →
      (changed' = false → changed = false ∧ value = s.value) →
      Step s { s with
        value := value
        phase := Function.update s.phase t (.inside knows' changed') }
  | wake {t : T} {knows : σ → Prop} {changed : Bool} : s.phase t = .inside knows changed →
      Step s { s with
        phase := Function.update (fun u => (s.phase u).woken) t (.inside knows false) }
  | park {t : T} {knows ready : σ → Prop} : s.phase t = .inside knows false →
      (∀ value, knows value → ¬ ready value) →
      Step s { s with locked := false, phase := Function.update s.phase t (.parked ready) }
  | leave {t : T} {knows : σ → Prop} : s.phase t = .inside knows false →
      Step s { s with locked := false, phase := Function.update s.phase t .outside }

/-- One thread at most holds the mutex, it is right about the value, and a parked thread that the
value is ready for is about to be woken. -/
structure Sound (s : State T σ) : Prop where
  alone : ∀ t u, (s.phase t).Holds → (s.phase u).Holds → t = u
  locked : ∀ t, (s.phase t).Holds → s.locked = true
  knows : ∀ t knows changed, s.phase t = .inside knows changed → knows s.value
  woken : ∀ t ready, s.phase t = .parked ready → ready s.value →
    ∃ u knows, s.phase u = .inside knows true

variable {s s' : State T σ}

theorem holds_of_inside {t : T} {knows : σ → Prop} {changed : Bool}
    (h : s.phase t = .inside knows changed) : (s.phase t).Holds :=
  h ▸ trivial

@[simp] theorem Phase.holds_woken (phase : Phase σ) : phase.woken.Holds ↔ phase.Holds := by
  cases phase <;> exact Iff.rfl

theorem Phase.woken_eq_inside {phase : Phase σ} {knows : σ → Prop} {changed : Bool} :
    phase.woken = .inside knows changed ↔ phase = .inside knows changed := by
  cases phase with
  | outside | inside => exact Iff.rfl
  | parked => exact ⟨nofun, nofun⟩

theorem Phase.woken_ne_parked (phase : Phase σ) (ready : σ → Prop) :
    phase.woken ≠ .parked ready := by
  cases phase <;> exact nofun

/-- Nobody holds the mutex, and nobody is parked. -/
theorem sound_of_outside (h : ∀ t, s.phase t = .outside) : Sound s := by
  have hnot : ∀ t, ¬ (s.phase t).Holds := fun t hholds => by
    rw [h t] at hholds
    exact hholds
  refine ⟨fun t _ ht _ => absurd ht (hnot t), fun t ht => absurd ht (hnot t),
    fun t _ _ ht => absurd (holds_of_inside ht) (hnot t), fun t ready ht => ?_⟩
  rw [h t] at ht
  cases ht

/-- While a thread holds the mutex, no other one does. -/
theorem Sound.only (h : Sound s) {t u : T} {knows : σ → Prop} {changed : Bool}
    (ht : s.phase t = .inside knows changed) (hu : (s.phase u).Holds) : u = t :=
  h.alone u t hu (holds_of_inside ht)

section Steps

variable [DecidableEq T] {t : T} {phase : T → Phase σ} {new : Phase σ}

/-- A thread that is at another place, or one that is where it was. -/
theorem of_update {u : T} {p : Phase σ} (h : Function.update phase t new u = p) :
    u = t ∧ new = p ∨ u ≠ t ∧ phase u = p := by
  by_cases hu : u = t
  · rw [hu, Function.update_self] at h
    exact .inl ⟨hu, h⟩
  · rw [Function.update_of_ne hu] at h
    exact .inr ⟨hu, h⟩

/-- Where nobody else holds the mutex, only the thread itself may hold it. -/
theorem holder_of_update {u : T} (hother : ∀ v, v ≠ t → ¬ (phase v).Holds)
    (h : (Function.update phase t new u).Holds) : u = t := by
  rcases of_update (rfl : Function.update phase t new u = _) with ⟨hu, -⟩ | ⟨hne, hold⟩
  · exact hu
  · rw [← hold] at h
    exact absurd h (hother u hne)

/-- The thread that holds the mutex releases it. -/
theorem Sound.release (h : Sound s) {knows : σ → Prop} (ht : s.phase t = .inside knows false)
    (hnew : ¬ new.Holds) (hready : ∀ ready, new = .parked ready → ¬ ready s.value) :
    Sound { s with locked := false, phase := Function.update s.phase t new } := by
  have hnone : ∀ u, ¬ (Function.update s.phase t new u).Holds := fun u hu => by
    have hself := holder_of_update (fun v hne hv => hne (h.only ht hv)) hu
    rw [hself, Function.update_self] at hu
    exact hnew hu
  refine ⟨fun u _ hu _ => absurd hu (hnone u), fun u hu => absurd hu (hnone u),
    fun u _ _ hu => absurd (holds_of_inside hu) (hnone u), fun u ready hu hv => ?_⟩
  rcases of_update hu with ⟨-, hparked⟩ | ⟨-, hold⟩
  · exact absurd hv (hready ready hparked)
  · -- Nobody else could be about to wake the thread.
    obtain ⟨w, knows', hw⟩ := h.woken u ready hold hv
    obtain rfl := h.only ht (holds_of_inside hw)
    rw [ht] at hw
    cases hw

/-- Every step keeps the invariant. -/
theorem Step.sound (hstep : Step s s') (h : Sound s) : Sound s' := by
  cases hstep with
  | @enter t hfree hout =>
      have hnot : ∀ u, ¬ (s.phase u).Holds := fun u hu => by
        rw [h.locked u hu] at hfree
        cases hfree
      have hself : ∀ u, (Function.update s.phase t (.inside (fun _ => True) false) u).Holds →
          u = t := fun u => holder_of_update fun v _ => hnot v
      refine ⟨fun u v hu hv => (hself u hu).trans (hself v hv).symm, fun _ _ => rfl,
        fun u knows changed hu => ?_, fun u ready hu hv => ?_⟩
      · rcases of_update hu with ⟨-, hnew⟩ | ⟨-, hold⟩
        · cases hnew
          trivial
        · exact absurd (holds_of_inside hold) (hnot u)
      · rcases of_update hu with ⟨-, hnew⟩ | ⟨-, hold⟩
        · cases hnew
        · obtain ⟨w, knows, hw⟩ := h.woken u ready hold hv
          exact absurd (holds_of_inside hw) (hnot w)
  | @act t value knows knows' changed changed' hin hknows hchanged =>
      have hself : ∀ u, (Function.update s.phase t (.inside knows' changed') u).Holds → u = t :=
        fun u => holder_of_update fun v hne hv => hne (h.only hin hv)
      refine ⟨fun u v hu hv => (hself u hu).trans (hself v hv).symm,
        fun _ _ => h.locked t (holds_of_inside hin), fun u k b hu => ?_, fun u ready hu hv => ?_⟩
      · rcases of_update hu with ⟨-, hnew⟩ | ⟨hne, hold⟩
        · cases hnew
          exact hknows (h.knows t knows changed hin)
        · exact absurd (h.only hin (holds_of_inside hold)) hne
      · rcases of_update hu with ⟨-, hnew⟩ | ⟨-, hold⟩
        · cases hnew
        · cases hflag : changed' with
          | true => exact ⟨t, knows', Function.update_self ..⟩
          | false =>
              obtain ⟨hclean, rfl⟩ := hchanged hflag
              obtain ⟨w, k, hw⟩ := h.woken u ready hold hv
              obtain rfl := h.only hin (holds_of_inside hw)
              rw [hin, hclean] at hw
              cases hw
  | @wake t knows changed hin =>
      have hself : ∀ u, (Function.update (fun u => (s.phase u).woken) t
          (.inside knows false) u).Holds → u = t := fun u => holder_of_update fun v hne hv =>
        hne (h.only hin ((s.phase v).holds_woken.mp hv))
      have hcases : ∀ u p, Function.update (fun u => (s.phase u).woken) t
          (.inside knows false) u = p → u = t ∧ .inside knows false = p ∨
            u ≠ t ∧ (s.phase u).woken = p := fun u p => of_update
      refine ⟨fun u v hu hv => (hself u hu).trans (hself v hv).symm,
        fun _ _ => h.locked t (holds_of_inside hin), fun u k b hu => ?_, fun u ready hu _ => ?_⟩
      · rcases hcases u _ hu with ⟨-, hnew⟩ | ⟨hne, hold⟩
        · cases hnew
          exact h.knows t knows changed hin
        · have hwoken := Phase.woken_eq_inside.mp hold
          exact absurd (h.only hin (holds_of_inside hwoken)) hne
      · rcases hcases u _ hu with ⟨-, hnew⟩ | ⟨-, hold⟩
        · cases hnew
        · exact absurd hold ((s.phase u).woken_ne_parked ready)
  | park hin hready =>
      refine h.release hin not_false fun ready hparked => ?_
      cases hparked
      exact hready s.value (h.knows _ _ _ hin)
  | leave hin => exact h.release hin not_false nofun

end Steps

end Lib.Monitor
