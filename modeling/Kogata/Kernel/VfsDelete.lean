import Kogata.Kernel.VfsThreads

/-!
# Deleting names in use

`fs_delete` tests whether the name is bound before it takes the lock of the directory, and comes
back without `unref_fs_node` where it is. The driver's delete runs behind the lock.
-/

namespace Kogata.Kernel.VfsThreads

open Lib.Run

variable {κ T : Type}

/-- While the driver deletes a name, no node is bound to it; and a thread that has come back keeps
no reference. -/
structure DeletesSafely (s : State κ T) : Prop where
  unbound : ∀ t n name, s.place t = .sectionHeld n (.delete name) → s.children n name = none
  released : ∀ t, s.place t = .outside → s.took t = []

/-- `fs_delete` finds that the name is bound, or a walk binds a name that another thread is about
to delete: it has tested the name and does not have the lock. -/
def Slips (s : State κ T) : Event κ T → Prop
  | ⟨t, .step answer⟩ =>
      match s.place t with
      | .arrived n (.delete name) => (s.children n name).isSome
      | .walkFind n item .. =>
          s.children n item = none ∧ answer = true ∧ ∃ u, s.place u = .sectionLock n (.delete item)
      | _ => False
  | _ => False

/-- A thread has the mutexes that its place says, and no other thread has them. -/
structure Exclusive (s : State κ T) : Prop where
  locked : ∀ t, ∀ n ∈ (s.place t).holds, s.lock n = true
  alone : ∀ t u n, n ∈ (s.place t).holds → n ∈ (s.place u).holds → t = u

section Exclusive

variable {s s' : State κ T} {t : T} {place : Place κ} {n : NodeNo}

theorem State.Initial.exclusive (h : s.Initial) : Exclusive s where
  locked := fun t n hn => by
    rw [h.place] at hn
    cases hn
  alone := fun t u n hn => by
    rw [h.place] at hn
    cases hn

variable [DecidableEq T]

section

variable (h : Exclusive s) (hplace : s'.place = Function.update s.place t place)

include h hplace

/-- The thread takes a mutex that was free. -/
theorem Exclusive.take (hlock : s'.lock = Function.update s.lock n true) (hfree : s.lock n = false)
    (hholds : place.holds = n :: (s.place t).holds) : Exclusive s' := by
  have hnobody : ∀ u, n ∉ (s.place u).holds := fun u hmem => by
    have := h.locked u n hmem
    rw [hfree] at this
    cases this
  constructor
  · intro u m hm
    rw [hplace] at hm
    rw [hlock]
    by_cases hmn : m = n
    · rw [hmn, Function.update_self]
    · rw [Function.update_of_ne hmn]
      by_cases hu : u = t
      · rw [hu, Function.update_self, hholds] at hm
        exact h.locked t m ((List.mem_cons.mp hm).resolve_left hmn)
      · rw [Function.update_of_ne hu] at hm
        exact h.locked u m hm
  · intro u v m hu hv
    rw [hplace] at hu hv
    by_cases hut : u = t
    · by_cases hvt : v = t
      · rw [hut, hvt]
      · rw [hut, Function.update_self, hholds] at hu
        rw [Function.update_of_ne hvt] at hv
        rcases List.mem_cons.mp hu with rfl | hu
        · exact absurd hv (hnobody v)
        · exact hut.trans (h.alone t v m hu hv)
    · rw [Function.update_of_ne hut] at hu
      by_cases hvt : v = t
      · rw [hvt, Function.update_self, hholds] at hv
        rcases List.mem_cons.mp hv with rfl | hv
        · exact absurd hu (hnobody u)
        · exact (h.alone u t m hu hv).trans hvt.symm
      · rw [Function.update_of_ne hvt] at hv
        exact h.alone u v m hu hv

/-- The thread has no more mutexes than before, and those that it had and has no more may have
been released. -/
theorem Exclusive.keep (hholds : ∀ m ∈ place.holds, m ∈ (s.place t).holds)
    (hlock : ∀ m, s'.lock m = s.lock m ∨ m ∈ (s.place t).holds ∧ m ∉ place.holds) :
    Exclusive s' := by
  have hsub : ∀ u, ∀ m ∈ (s'.place u).holds, m ∈ (s.place u).holds := by
    intro u m hm
    rw [hplace] at hm
    by_cases hu : u = t
    · rw [hu, Function.update_self] at hm
      exact hu ▸ hholds m hm
    · rw [Function.update_of_ne hu] at hm
      exact hm
  constructor
  · intro u m hm
    rcases hlock m with heq | ⟨hmem, hnot⟩
    · exact heq.trans (h.locked u m (hsub u m hm))
    · have hut := h.alone u t m (hsub u m hm) hmem
      rw [hplace, hut, Function.update_self] at hm
      exact absurd hm hnot
  · exact fun u v m hu hv => h.alone u v m (hsub u m hu) (hsub v m hv)

/-- The thread keeps the mutexes that it has. -/
theorem Exclusive.stay (hlock : s'.lock = s.lock) (hholds : place.holds = (s.place t).holds) :
    Exclusive s' :=
  h.keep hplace (fun _ hm => hholds ▸ hm) fun m => .inl (congrFun hlock m)

/-- The thread releases a mutex. -/
theorem Exclusive.release (hlock : s'.lock = Function.update s.lock n false)
    (hn : n ∈ (s.place t).holds) (hnot : n ∉ place.holds)
    (hholds : ∀ m ∈ place.holds, m ∈ (s.place t).holds) : Exclusive s' := by
  refine h.keep hplace hholds fun m => ?_
  by_cases hm : m = n
  · exact .inr (hm ▸ ⟨hn, hnot⟩)
  · exact .inl ((congrFun hlock m).trans (Function.update_of_ne hm ..))

/-- The thread releases the mutex and has no other. -/
theorem Exclusive.release_last (hlock : s'.lock = Function.update s.lock n false)
    (hn : n ∈ (s.place t).holds) (hnone : place.holds = []) : Exclusive s' := by
  refine h.release hplace hlock hn ?_ fun m hm => ?_
  · rw [hnone]
    exact List.not_mem_nil
  · rw [hnone] at hm
    cases hm

end

theorem walk_on_holds (n : NodeNo) (last : Section κ) (items : List (Option κ)) :
    (walkOn n last items).holds = [] := by
  cases items with
  | nil => rfl
  | cons item rest => cases item <;> rfl

theorem next_place_holds (next : Next κ) : next.place.holds = [] := by
  cases next with
  | walk n items last => exact walk_on_holds n last items
  | finish => rfl

theorem behind_lock_holds (h : place.wants = some n) :
    place.behindLock.holds = n :: place.holds := by
  cases place <;> cases h <;> rfl

variable [DecidableEq κ]

theorem Exclusive.step (h : Exclusive s) (hord : (s.place t).Ordered) {act : Act κ}
    (hstep : threadStep s t act = some s') : Exclusive s' := by
  cases thread_step_cases hstep with
  | lock hwants hfree => exact h.take rfl rfl hfree (behind_lock_holds hwants)
  | @start items last _ hplace =>
      exact h.release_last rfl rfl (hplace ▸ List.mem_cons_self) (walk_on_holds rootNode last items)
  | refer hplace =>
      rw [hplace] at hord
      exact h.release rfl rfl (hplace ▸ List.mem_cons_self)
        (fun hc => absurd (List.mem_singleton.mp hc) (Nat.ne_of_gt hord))
        fun m hm => hplace ▸ List.mem_cons_of_mem _ hm
  | @unref n dead next _ hplace =>
      exact h.release_last rfl rfl (hplace ▸ List.mem_cons_self) (next_place_holds next)
  | @unbind n p _ _ _ _ hplace =>
      rw [hplace] at hord
      refine h.release rfl rfl (hplace ▸ List.mem_cons_self) (fun hp => ?_)
        fun m hm => hplace ▸ List.mem_cons_of_mem _ hm
      rcases List.mem_cons.mp hp with rfl | hmem
      · exact absurd hord.1 (Nat.lt_irrefl _)
      · exact absurd (hord.2 p hmem) (Nat.lt_asymm hord.1)
  | leave hplace | leaveNew hplace | link hplace | keep hplace | done hplace =>
      exact h.release_last rfl rfl (hplace ▸ List.mem_cons_self) rfl
  | call hplace | unrefFile hplace | found hplace | make hplace | giveUp hplace | last hplace
  | refuse hplace | arrive hplace =>
      exact h.stay rfl rfl (hplace ▸ rfl)

end Exclusive

/-- The name that the thread has tested and is about to delete, or deletes, in a directory. -/
def Place.deletes : Place κ → Option (NodeNo × κ)
  | .sectionLock n (.delete name) | .sectionHeld n (.delete name) => some (n, name)
  | _ => none

/-- A name that a thread deletes is not bound. -/
def Unbound (s : State κ T) : Prop :=
  ∀ t n name, (s.place t).deletes = some (n, name) → s.children n name = none

section Unbound

variable {s s' : State κ T} {t : T} {place : Place κ}

theorem State.Initial.unbound (h : s.Initial) : Unbound s :=
  fun _ n name _ => h.children n name

/-- A thread that deletes a name in a directory that is locked by another has not taken the lock
yet. -/
theorem section_lock_of_deletes (h : Exclusive s) {u : T} {n : NodeNo} {name : κ}
    (hu : (s.place u).deletes = some (n, name)) (ht : n ∈ (s.place t).holds)
    (hplace : (s.place t).deletes = none) : s.place u = .sectionLock n (.delete name) := by
  have hne : u ≠ t := fun heq => by
    rw [heq, hplace] at hu
    cases hu
  cases hat : s.place u with
  | sectionLock m last =>
      rw [hat] at hu
      cases last <;> cases hu
      rfl
  | sectionHeld m last =>
      have hholds : n ∈ (s.place u).holds := by
        rw [hat] at hu ⊢
        cases last <;> cases hu
        exact List.mem_singleton_self n
      exact absurd (h.alone u t n hholds ht) hne
  | _ =>
      rw [hat] at hu
      cases hu

theorem behind_lock_deletes {n : NodeNo} (h : place.wants = some n) :
    place.behindLock.deletes = place.deletes := by
  cases place with
  | sectionLock n last => cases last <;> rfl
  | _ => cases h <;> rfl

theorem set_child_none [DecidableEq κ] (n m : NodeNo) (name name' : κ) (h : s.children m name' = none) :
    (s.setChild n name none).children m name' = none := by
  simp only [State.setChild, Function.update_apply]
  split
  · next hm =>
      rw [Function.update_apply]
      split
      · rfl
      · exact hm ▸ h
  · exact h

theorem new_node_children [DecidableEq κ] (n m : NodeNo) (name name' : κ) (hne : ¬ (m = n ∧ name' = name))
    (h : s.children m name' = none) : (s.newNode n name).children m name' = none := by
  simp only [State.newNode, State.setChild, Function.update_apply]
  split
  · next hm =>
      rw [Function.update_of_ne fun hname => hne ⟨hm, hname⟩]
      exact hm ▸ h
  · exact h

variable [DecidableEq T]

/-- No name is bound, and the thread deletes what it was deleting, or nothing. -/
theorem Unbound.move (h : Unbound s) (hplace : s'.place = Function.update s.place t place)
    (hchildren : ∀ n name, s.children n name = none → s'.children n name = none)
    (hdeletes : ∀ n name, place.deletes = some (n, name) → s.children n name = none) :
    Unbound s' := by
  intro u n name hu
  rw [hplace] at hu
  by_cases hut : u = t
  · rw [hut, Function.update_self] at hu
    exact hchildren n name (hdeletes n name hu)
  · rw [Function.update_of_ne hut] at hu
    exact hchildren n name (h u n name hu)

/-- The thread deletes nothing. -/
theorem Unbound.quiet (h : Unbound s) (hplace : s'.place = Function.update s.place t place)
    (hchildren : s'.children = s.children) (hnone : place.deletes = none) : Unbound s' := by
  refine h.move hplace (fun n name hn => ?_) fun n name hdel => ?_
  · rw [hchildren]
    exact hn
  · rw [hnone] at hdel
    cases hdel

theorem walk_on_deletes (n : NodeNo) (last : Section κ) (items : List (Option κ)) :
    (walkOn n last items).deletes = none := by
  cases items with
  | nil => rfl
  | cons item rest => cases item <;> rfl

theorem next_place_deletes (next : Next κ) : next.place.deletes = none := by
  cases next with
  | walk n items last => exact walk_on_deletes n last items
  | finish => rfl

variable [DecidableEq κ]

theorem Unbound.step (h : Unbound s) (hexcl : Exclusive s) {act : Act κ}
    (hslips : ¬ Slips s ⟨t, act⟩) (hstep : threadStep s t act = some s') : Unbound s' := by
  cases thread_step_cases hstep with
  | lock hwants =>
      exact h.move rfl (fun _ _ => id) fun m name hdel =>
        h t m name ((behind_lock_deletes hwants).symm.trans hdel)
  | @start items last => exact h.quiet rfl rfl (walk_on_deletes rootNode last items)
  | @make n item _ _ hplace hnone =>
      intro u m name hu
      have hut : u ≠ t := fun heq => by
        simp only [State.move, heq, Function.update_self] at hu
        cases hu
      have hdel : (s.place u).deletes = some (m, name) :=
        (congrArg Place.deletes (Function.update_of_ne hut ..)).symm.trans hu
      refine new_node_children n m item name (fun heq => ?_) (h u m name hdel)
      obtain ⟨rfl, rfl⟩ := heq
      have hat := section_lock_of_deletes (t := t) hexcl hdel
        (by rw [hplace]; exact List.mem_singleton_self m) (by rw [hplace]; rfl)
      refine hslips ?_
      simp only [Slips, hplace]
      exact ⟨hnone, trivial, u, hat⟩
  | @unref n dead next => exact h.quiet rfl rfl (next_place_deletes next)
  | @unbind n p _ _ name =>
      exact h.move rfl (fun m name' => set_child_none p m name name') fun m name' hdel => by
        cases hdel
  | arrive _ hfree =>
      refine h.move rfl (fun _ _ => id) fun m name hdel => ?_
      rename_i last _ _
      cases last <;> cases hdel
      exact hfree name rfl
  | _ => exact h.quiet rfl rfl rfl

end Unbound

/-- The references that a thread has taken when it comes to a place. In `unref_fs_node` of the
parent of a dead node it drops the reference of that node. -/
def Place.owes : Place κ → List NodeNo
  | .outside | .startLock .. | .startHeld .. => []
  | .walkLock n .. | .walkFind n .. | .childLock n .. | .childHeld n .. => [n]
  | .walkFound n next => next.nodes ++ [n]
  | .walkNew n c .. | .linkLock n c .. | .linkHeld n c .. => [c, n]
  | .unrefLock n dead next | .unrefHeld n dead next =>
      if dead = [] then next.nodes ++ [n] else next.nodes
  | .parentLock _ _ _ next | .parentHeld _ _ _ next => next.nodes
  | .arrived n _ | .sectionLock n _ | .sectionHeld n _ => [n]

/-- The threads have the references that their places say. -/
def Owed (s : State κ T) : Prop :=
  ∀ t, s.took t = (s.place t).owes

section Owed

variable {s s' : State κ T} {t : T} {place : Place κ}

theorem State.Initial.owed (h : s.Initial) : Owed s := by
  intro t
  rw [h.took, h.place]
  rfl

variable [DecidableEq T]

theorem Owed.move (h : Owed s) {took : List NodeNo}
    (hplace : s'.place = Function.update s.place t place)
    (htook : s'.took = Function.update s.took t took) (howes : took = place.owes) : Owed s' := by
  intro u
  rw [hplace, htook]
  by_cases hu : u = t
  · rw [hu, Function.update_self, Function.update_self, howes]
  · rw [Function.update_of_ne hu, Function.update_of_ne hu]
    exact h u

theorem walk_on_owes (n : NodeNo) (last : Section κ) (items : List (Option κ)) :
    (walkOn n last items).owes = [n] := by
  cases items with
  | nil => rfl
  | cons item rest => cases item <;> rfl

theorem next_place_owes (next : Next κ) : next.place.owes = next.nodes := by
  cases next with
  | walk n items last => exact walk_on_owes n last items
  | finish => rfl

/-- Behind `n->refs--` the thread has the references that it goes on with. -/
theorem erase_owes (n : NodeNo) (next : Next κ) : (next.nodes ++ [n]).erase n = next.nodes := by
  cases next with
  | walk c items last =>
      by_cases hc : c = n
      · simp [Next.nodes, hc]
      · simp [Next.nodes, hc]
  | finish => simp [Next.nodes]

theorem behind_lock_owes {n : NodeNo} (h : place.wants = some n) :
    place.behindLock.owes = place.owes := by
  cases place <;> cases h <;> rfl

/-- Behind `n->refs--` the thread has the references of what follows. -/
theorem unref_owes (n : NodeNo) (dead : List NodeNo) (next : Next κ) :
    (if dead = [] then (Place.unrefHeld n dead next).owes.erase n
      else (Place.unrefHeld n dead next).owes) = next.nodes := by
  by_cases hdead : dead = []
  · rw [if_pos hdead, Place.owes, if_pos hdead, erase_owes]
  · rw [if_neg hdead, Place.owes, if_neg hdead]

variable [DecidableEq κ]

theorem Owed.step (h : Owed s) {act : Act κ} (hslips : ¬ Slips s ⟨t, act⟩)
    (hstep : threadStep s t act = some s') : Owed s' := by
  have howes := h t
  cases thread_step_cases hstep with
  | lock hwants => exact h.move rfl rfl (howes.trans (behind_lock_owes hwants).symm)
  | start hplace =>
      rw [hplace] at howes
      refine h.move rfl rfl ?_
      rw [howes, walk_on_owes]
      rfl
  | unrefFile hplace | make hplace | refer hplace =>
      rw [hplace] at howes
      exact h.move rfl rfl (congrArg (List.cons _) howes)
  | @last n dead next _ _ hplace =>
      rw [hplace] at howes
      exact h.move rfl rfl (by rw [howes]; exact unref_owes n dead next)
  | @unref n dead next _ hplace =>
      rw [hplace] at howes
      refine h.move rfl rfl ?_
      rw [howes, unref_owes, next_place_owes]
  | @unbind n _ dead _ _ _ hplace =>
      rw [hplace] at howes
      refine h.move rfl rfl (howes.trans ?_)
      rw [Place.owes, Place.owes, if_neg (List.cons_ne_nil n dead)]
  | refuse hplace hbound =>
      refine absurd ?_ hslips
      simp only [Slips, hplace]
      exact hbound
  | @keep n _ _ hplace =>
      rw [hplace] at howes
      refine h.move rfl rfl ?_
      rw [howes]
      exact List.erase_cons_head n []
  | call hplace | found hplace | giveUp hplace | leave hplace | leaveNew hplace | link hplace
  | arrive hplace | done hplace =>
      rw [hplace] at howes
      exact h.move rfl rfl howes

end Owed

variable [DecidableEq κ] [DecidableEq T]

/-- Every run in which `fs_delete` does not find its name bound, and in which no walk binds a name
between the test and the lock, deletes safely. -/
theorem deletes_safely {s : State κ T} (hs : Reachable (runs fun s event => ¬ Slips s event) s) :
    DeletesSafely s := by
  have hinv : Aged s ∧ Exclusive s ∧ Unbound s ∧ Owed s := by
    refine Reachable.induct (motive := fun s => Aged s ∧ Exclusive s ∧ Unbound s ∧ Owed s) ?_ ?_ hs
    · intro s hinit
      exact ⟨State.Initial.aged hinit, State.Initial.exclusive hinit, State.Initial.unbound hinit,
        State.Initial.owed hinit⟩
    · intro s s' ⟨haged, hexcl, hunbound, howed⟩ ⟨event, hallowed, hstep⟩
      exact ⟨haged.step hstep, hexcl.step (haged.ordered event.thread) hstep,
        hunbound.step hexcl hallowed hstep, howed.step hallowed hstep⟩
  obtain ⟨-, -, hunbound, howed⟩ := hinv
  constructor
  · intro t n name hplace
    exact hunbound t n name (by rw [hplace]; rfl)
  · intro t hplace
    rw [howed t, hplace]
    rfl

section Example

/-- Between the test of a name and the lock another thread opens the file. -/
def openWhileDeleting : List (Event Nat Bool) :=
  ⟨true, .call [] (.delete 7)⟩ :: steps true 3 ++ ⟨false, .call [some 7] .openNode⟩ ::
    steps false 12 ++ steps true 1

/-- A name is deleted that is open. -/
def deleteOpen : List (Event Nat Bool) :=
  ⟨false, .call [some 7] .openNode⟩ :: steps false 12 ++ ⟨true, .call [] (.delete 7)⟩ ::
    steps true 3

/-- The driver deletes a name that a node is bound to, and `fs_delete` keeps a reference of the
directory. -/
theorem delete_in_use :
    (¬ ∀ s : State Nat Bool, Reachable (runs fun _ _ => True) s →
      ∀ t n name, s.place t = .sectionHeld n (.delete name) → s.children n name = none) ∧
    ¬ ∀ s : State Nat Bool, Reachable (runs fun _ _ => True) s →
      ∀ t, s.place t = .outside → s.took t = [] := by
  constructor
  · intro h
    have hrun : (runEvents step (fun _ _ => true) openWhileDeleting start).map
        (fun s => (s.place true, s.children 0 7)) =
        some (.sectionHeld 0 (.delete 7), some 1) := by decide +kernel
    obtain ⟨s, hs, heq⟩ := Option.map_eq_some_iff.mp hrun
    obtain ⟨hplace, hchild⟩ := Prod.mk.inj heq
    have hnone := h s (Reachable.run_events (fun _ _ _ => trivial) (.init start_initial) hs)
      true 0 7 hplace
    rw [hchild] at hnone
    cases hnone
  · intro h
    have hrun : (runEvents step (fun _ _ => true) deleteOpen start).map
        (fun s => (s.place true, s.took true)) = some (.outside, [0]) := by decide +kernel
    obtain ⟨s, hs, heq⟩ := Option.map_eq_some_iff.mp hrun
    obtain ⟨hplace, htook⟩ := Prod.mk.inj heq
    have hnil := h s (Reachable.run_events (fun _ _ _ => trivial) (.init start_initial) hs)
      true hplace
    rw [htook] at hnil
    cases hnil

/-- No thread binds a name while one deletes, and no bound name is deleted. -/
def slipsNone (s : State Nat Bool) (event : Event Nat Bool) : Bool :=
  match s.place event.thread with
  | .arrived n (.delete name) => (s.children n name).isNone
  | .walkFind .. => (s.place false).deletes.isNone && (s.place true).deletes.isNone
  | _ => true

theorem slips_none (s : State Nat Bool) (event : Event Nat Bool) (h : slipsNone s event = true) :
    ¬ Slips s event := by
  obtain ⟨t, act⟩ := event
  unfold slipsNone at h
  unfold Slips
  split
  · next heq =>
      cases heq
      simp only at h
      split
      · next hplace =>
          rw [hplace] at h
          exact fun hbound => Option.isSome_iff_ne_none.mp hbound (Option.isNone_iff_eq_none.mp h)
      · next hplace =>
          rw [hplace] at h
          simp only [Bool.and_eq_true, Option.isNone_iff_eq_none] at h
          intro ⟨_, _, u, hu⟩
          have hdel : (s.place u).deletes ≠ none := by
            rw [hu]
            exact Option.some_ne_none _
          cases u with
          | false => exact hdel h.1
          | true => exact hdel h.2
      · exact not_false
  · exact not_false

/-- A file is opened and closed, and then deleted while another is open. -/
theorem deletes_safely_closed : ∃ s : State Nat Bool,
    s.place true = .sectionHeld 0 (.delete 7) ∧ s.handles = [2] ∧ DeletesSafely s := by
  have hrun : (runEvents step slipsNone (⟨false, .call [some 7] .openNode⟩ :: steps false 12 ++
      ⟨false, .unrefFile 1⟩ :: steps false 6 ++ ⟨false, .call [some 8] .openNode⟩ ::
      steps false 12 ++ ⟨true, .call [] (.delete 7)⟩ :: steps true 4) start).map
      (fun s => (s.place true, s.handles)) = some (.sectionHeld 0 (.delete 7), [2]) := by
    decide +kernel
  obtain ⟨s, hs, heq⟩ := Option.map_eq_some_iff.mp hrun
  obtain ⟨hplace, hhandles⟩ := Prod.mk.inj heq
  exact ⟨s, hplace, hhandles,
    deletes_safely (Reachable.run_events slips_none (.init start_initial) hs)⟩

end Example

end Kogata.Kernel.VfsThreads
