import Kogata.Lib.Waits
import Kogata.Kernel.VfsThreads

/-!
# The order of the locks of nodes

A walk has the lock of a directory and takes that of a child in `ref_fs_node`; `unref_fs_node` has
the lock of a node and takes that of its parent. The two wait for each other where the child is the
node that is going.
-/

namespace Kogata.Kernel.VfsThreads

open Lib.Run Lib.Waits Relation

variable {κ T : Type}

/-- Thread `t` waits for a mutex that thread `u` has. -/
def WaitsFor (s : State κ T) (t u : T) : Prop :=
  ∃ n, (s.place t).wants = some n ∧ n ∈ (s.place u).holds

/-- Threads wait for each other in a circle. -/
def Deadlock (s : State κ T) : Prop :=
  ∃ t, TransGen (WaitsFor s) t t

/-- The child that a walk has found, where the thread is at its mutex in `ref_fs_node`. -/
def Place.found : Place κ → Option NodeNo
  | .childLock _ c .. => some c
  | _ => none

/-- A walk finds a node whose last reference has been dropped, or the last reference of a node is
dropped that a walk has found. -/
def Meets (s : State κ T) : Event κ T → Prop
  | ⟨t, .step _⟩ =>
      match s.place t with
      | .walkFind n item .. => ∃ c u, s.children n item = some c ∧ c ∈ (s.place u).dying
      | .unrefHeld n .. => s.refs n = 1 ∧ ∃ u, (s.place u).found = some n
      | _ => False
  | _ => False

/-- No walk has found a node that is going. -/
def Apart (s : State κ T) : Prop :=
  ∀ t u c, (s.place t).found = some c → c ∉ (s.place u).dying

section Apart

variable {s s' : State κ T} {t : T} {n : NodeNo}

theorem State.Initial.apart (h : s.Initial) : Apart s := by
  intro t u c hc
  rw [h.place] at hc
  cases hc

/-- Taking a mutex drops no node, and behind it no child is waited for. -/
theorem behind_lock_quiet {place : Place κ} (h : place.wants = some n) :
    place.behindLock.found = none ∧ place.behindLock.dying = place.dying := by
  cases place <;> cases h <;> exact ⟨rfl, rfl⟩

variable [DecidableEq T]

/-- A thread goes to another place. -/
theorem Apart.move (h : Apart s) {place : Place κ}
    (hplace : s'.place = Function.update s.place t place)
    (hfound : ∀ c, place.found = some c → ∀ u, c ∉ (s.place u).dying)
    (hdying : ∀ c ∈ place.dying, ∀ u, (s.place u).found ≠ some c)
    (happart : ∀ c, place.found = some c → c ∉ place.dying) : Apart s' := by
  intro u v c hc
  rw [hplace] at hc ⊢
  by_cases hu : u = t
  · rw [hu, Function.update_self] at hc
    by_cases hv : v = t
    · rw [hv, Function.update_self]
      exact happart c hc
    · rw [Function.update_of_ne hv]
      exact hfound c hc v
  · rw [Function.update_of_ne hu] at hc
    by_cases hv : v = t
    · rw [hv, Function.update_self]
      exact fun hmem => hdying c hmem u hc
    · rw [Function.update_of_ne hv]
      exact h u v c hc

/-- At its new place the thread has found no child, and dropped no more nodes than before. -/
theorem Apart.quiet (h : Apart s) {place : Place κ}
    (hplace : s'.place = Function.update s.place t place)
    (hfound : place.found = none) (hdying : ∀ c ∈ place.dying, c ∈ (s.place t).dying) :
    Apart s' := by
  refine h.move hplace (fun c hc => ?_) (fun c hmem u hc => h u t c hc (hdying c hmem))
    fun c hc => ?_
  all_goals
    rw [hfound] at hc
    cases hc

theorem walk_on_quiet (n : NodeNo) (last : Section κ) (items : List (Option κ)) :
    (walkOn n last items).dying = [] ∧ (walkOn n last items).found = none := by
  cases items with
  | nil => exact ⟨rfl, rfl⟩
  | cons item rest => cases item <;> exact ⟨rfl, rfl⟩

theorem next_place_quiet (next : Next κ) :
    next.place.dying = [] ∧ next.place.found = none := by
  cases next with
  | walk n items last => exact walk_on_quiet n last items
  | finish => exact ⟨rfl, rfl⟩

variable [DecidableEq κ]

/-- What a step of a thread keeps, where no walk meets a node that is going. -/
theorem Apart.step (h : Apart s) {act : Act κ} (hmeets : ¬ Meets s ⟨t, act⟩)
    (hstep : threadStep s t act = some s') : Apart s' := by
  have hnil : ∀ {place : Place κ}, ∀ c ∈ ([] : List NodeNo), c ∈ place.dying :=
    fun c hc => absurd hc List.not_mem_nil
  cases thread_step_cases hstep with
  | lock hwants =>
      obtain ⟨hfound, hdying⟩ := behind_lock_quiet hwants
      exact h.quiet rfl hfound fun c hc => hdying ▸ hc
  | @start items last =>
      obtain ⟨hdying, hfound⟩ := walk_on_quiet rootNode last items
      exact h.quiet rfl hfound (hdying ▸ hnil)
  | @found n item _ _ c _ hplace hc =>
      simp only [Meets, hplace] at hmeets
      refine h.move rfl (fun d hd u hmem => hmeets ⟨c, u, hc, ?_⟩)
        (fun d hd => absurd hd List.not_mem_nil) fun d _ => List.not_mem_nil
      exact Option.some.inj hd ▸ hmem
  | last hplace hlast =>
      simp only [Meets, hplace] at hmeets
      refine h.move rfl (fun c hc => by cases hc) (fun c hmem u hc => ?_) fun c hc => by cases hc
      rcases List.mem_cons.mp hmem with rfl | hmem
      · exact hmeets ⟨by omega, u, hc⟩
      · exact h u t c hc (hplace ▸ hmem)
  | @unref n dead next =>
      obtain ⟨hdying, hfound⟩ := next_place_quiet next
      exact h.quiet rfl hfound (hdying ▸ hnil)
  | unbind hplace => exact h.quiet rfl rfl fun c hc => hplace ▸ hc
  | _ => exact h.quiet rfl rfl hnil

end Apart

section Waiting

variable {s : State κ T} {t u v : T} {place : Place κ} {n m : NodeNo}

/-- A thread that has a mutex and waits for another has found a child and has its parent, or has
dropped the last reference of a node and waits for an older one. -/
theorem wants_holds (hord : place.Ordered) (hwants : place.wants = some m)
    (hholds : n ∈ place.holds) :
    place.found = some m ∧ n < m ∨ n ∈ place.dying ∧ m < n := by
  cases place with
  | childLock p c rest last =>
      cases hwants
      exact .inl ⟨rfl, List.mem_singleton.mp hholds ▸ hord⟩
  | unrefLock q dead next =>
      cases hwants
      exact .inr ⟨hholds, hord n hholds⟩
  | parentLock q p dead next =>
      cases hwants
      refine .inr ⟨hholds, ?_⟩
      rcases List.mem_cons.mp hholds with rfl | hmem
      · exact hord.1
      · exact Nat.lt_trans hord.1 (hord.2 n hmem)
  | startLock | walkLock | linkLock | sectionLock => cases hholds
  | _ => cases hwants

/-- The thread waits for the mutex of a child. -/
def GoesUp (s : State κ T) (t : T) : Prop :=
  ∃ c, (s.place t).found = some c

/-- The node that a thread waits for. -/
def waitRank (s : State κ T) (t : T) : Nat :=
  (s.place t).wants.getD rootNode

theorem wants_of_found (h : place.found = some n) : place.wants = some n := by
  cases place with
  | childLock p c rest last => exact h
  | _ => cases h

theorem wait_rank_eq (h : (s.place t).wants = some n) : waitRank s t = n := by
  rw [waitRank, h, Option.getD_some]

/-- Behind a walk that waits for a child there is a walk that waits for a child of it. -/
theorem waits_up (h : Aged s) (happart : Apart s) (htu : WaitsFor s t u) (huv : WaitsFor s u v)
    (ht : GoesUp s t) : GoesUp s u ∧ waitRank s t < waitRank s u := by
  obtain ⟨c, hc⟩ := ht
  obtain ⟨n, hwants, hholds⟩ := htu
  obtain ⟨m, hwants', -⟩ := huv
  obtain rfl := Option.some.inj ((wants_of_found hc).symm.trans hwants)
  rcases wants_holds (h.ordered u) hwants' hholds with ⟨hfound, hlt⟩ | ⟨hdying, -⟩
  · refine ⟨⟨m, hfound⟩, ?_⟩
    rw [wait_rank_eq hwants, wait_rank_eq hwants']
    exact hlt
  · exact absurd hdying (happart t u c hc)

/-- Behind another thread there is a walk that waits for a child, or a thread that waits for an
older node. -/
theorem waits_down (h : Aged s) (htu : WaitsFor s t u) (huv : WaitsFor s u v) :
    GoesUp s u ∨ waitRank s u < waitRank s t := by
  obtain ⟨n, hwants, hholds⟩ := htu
  obtain ⟨m, hwants', -⟩ := huv
  rcases wants_holds (h.ordered u) hwants' hholds with ⟨hfound, -⟩ | ⟨-, hlt⟩
  · exact .inl ⟨m, hfound⟩
  · right
    rw [wait_rank_eq hwants, wait_rank_eq hwants']
    exact hlt

theorem no_deadlock (h : Aged s) (happart : Apart s) : ¬ Deadlock s := by
  intro ⟨t, hcycle⟩
  exact no_cycle (fun t u v => waits_up (t := t) (u := u) (v := v) h happart)
    (fun t u v htu huv _ => waits_down (t := t) (u := u) (v := v) h htu huv) t hcycle

end Waiting

variable [DecidableEq κ] [DecidableEq T]

/-- A run in which no walk meets a node that is going never comes to a deadlock. -/
theorem no_lock_cycle {s : State κ T} (hs : Reachable (runs fun s event => ¬ Meets s event) s) :
    ¬ Deadlock s := by
  have hinv : Aged s ∧ Apart s := by
    refine Reachable.induct (motive := fun s => Aged s ∧ Apart s) ?_ ?_ hs
    · intro s hinit
      exact ⟨State.Initial.aged hinit, State.Initial.apart hinit⟩
    · intro s s' h hnext
      obtain ⟨event, hallowed, hstep⟩ := hnext
      exact ⟨h.1.step hstep, h.2.step hallowed hstep⟩
  exact no_deadlock hinv.1 hinv.2

section Example

/-- One thread has opened a file. The other walks to the file while the first closes it. -/
def closeWhileWalking : List (Event Nat Bool) :=
  ⟨false, .call [some 7] .openNode⟩ :: steps false 12 ++ ⟨false, .unrefFile 1⟩ :: steps false 1 ++
    ⟨true, .call [some 7] .stat⟩ :: steps true 4 ++ steps false 1

/-- The thread that closes the file waits for the root, which the other has, and that one waits for
the file. -/
theorem close_walk_deadlock :
    ¬ ∀ s : State Nat Bool, Reachable (runs fun _ _ => True) s → ¬ Deadlock s := by
  intro h
  have hrun : (runEvents step (fun _ _ => true) closeWhileWalking start).map
      (fun s => (s.place false, s.place true)) =
      some (.parentLock 1 0 [] .finish, .childLock 0 1 [] .stat) := by decide +kernel
  obtain ⟨s, hs, hplaces⟩ := Option.map_eq_some_iff.mp hrun
  obtain ⟨hfalse, htrue⟩ := Prod.mk.inj hplaces
  refine h s (Reachable.run_events (fun _ _ _ => trivial) (.init start_initial) hs) ⟨false, ?_⟩
  refine TransGen.trans (b := true) (.single ⟨0, ?_, ?_⟩) (.single ⟨1, ?_, ?_⟩)
  · rw [hfalse]; rfl
  · rw [htrue]; exact List.mem_singleton_self 0
  · rw [htrue]; rfl
  · rw [hfalse]; exact List.mem_singleton_self 1

/-- No thread is in front of a node that goes, or goes with one that another is in front of. -/
def meetsNone (s : State Nat Bool) (event : Event Nat Bool) : Bool :=
  match s.place event.thread with
  | .walkFind .. => (s.place false).dying.isEmpty && (s.place true).dying.isEmpty
  | .unrefHeld n .. => (s.place false).found != some n && (s.place true).found != some n
  | _ => true

theorem meets_none (s : State Nat Bool) (event : Event Nat Bool) (h : meetsNone s event = true) :
    ¬ Meets s event := by
  obtain ⟨t, act⟩ := event
  unfold meetsNone at h
  unfold Meets
  split
  · next heq =>
      cases heq
      simp only at h
      split
      · next hplace =>
          rw [hplace] at h
          simp only [Bool.and_eq_true, List.isEmpty_iff] at h
          intro ⟨c, u, _, hmem⟩
          cases u with
          | false => exact absurd hmem (h.1 ▸ List.not_mem_nil)
          | true => exact absurd hmem (h.2 ▸ List.not_mem_nil)
      · next hplace =>
          rw [hplace] at h
          simp only [Bool.and_eq_true, bne_iff_ne, ne_eq] at h
          intro ⟨_, u, hfound⟩
          cases u with
          | false => exact h.1 hfound
          | true => exact h.2 hfound
      · exact not_false
  · exact not_false

/-- The file is closed and goes before the other thread comes to the root. -/
theorem no_lock_cycle_close : ∃ s : State Nat Bool,
    s.place true = .childLock 0 2 [] .stat ∧ ¬ Deadlock s := by
  have hrun : (runEvents step meetsNone (⟨false, .call [some 7] .openNode⟩ :: steps false 12 ++
      ⟨false, .unrefFile 1⟩ :: steps false 6 ++ ⟨false, .call [some 7] .openNode⟩ ::
      steps false 12 ++ ⟨true, .call [some 7] .stat⟩ :: steps true 4) start).map
      (fun s => s.place true) = some (.childLock 0 2 [] .stat) := by decide +kernel
  obtain ⟨s, hs, hplace⟩ := Option.map_eq_some_iff.mp hrun
  exact ⟨s, hplace, no_lock_cycle (Reachable.run_events meets_none (.init start_initial) hs)⟩

end Example

end Kogata.Kernel.VfsThreads
