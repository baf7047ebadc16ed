import Kogata.Kernel.WaitChild
import Mathlib.Data.List.Nodup

/-!
# Who frees a process

The `process_t` of a child is freed by a wait of its parent, or by `process_exit` of the parent.
Bare pointers to it are in the exit tasks of the child, and in the threads of the parent behind
`process_find_child`. The one that `process_thread_exited` takes from a thread that has ended is
left out.
-/

namespace Kogata.Kernel.ProcessFree

open Lib.Run
open WaitChild (Target)

/-- What `process_find_child` is called for: `proc_kill_sc`, or `proc_wait_sc` with its `wait`. -/
inductive Use where
  | kill
  | wait (block : Bool)
  deriving DecidableEq

/-- Who calls `process_exit` of a child: its exit task, `proc_kill_sc`, or `process_exit` of the
parent. -/
inductive ExitUser where
  | task
  | kill
  | nested
  deriving DecidableEq

/-- Where a thread is in `process_exit` of a child: in front of its first line, in the loop over
the threads of the child, behind it, in front of the two `resume_on`, and in front of
`mutex_unlock`. -/
inductive ExitPlace where
  | lock
  | neutralize
  | cleaning
  | wakeAny
  | wakeOne
  | unlock
  deriving DecidableEq

/-- Where a thread is.

In the calls of the parent's threads: in the `mutex_lock` of `process_find_child`, in front of the
first line of `process_wait`, in the `mutex_lock(&par->lock)` of a wait, in front of the test of a
child, in the loop of `process_wait_any_child`, in front of `process_get_status` of a child that has
ended, behind it, in front of the critical section, in `wait_on`, and behind `wait_on`.

Then the places in `process_exit` of a child.

In `process_exit` of the parent: in its `mutex_lock`, at the head of the loop over its threads, in
`kill_thread`, at the head of the loop over the children, in front of the test of a child, in front
of `free`, and behind the loop. -/
inductive Place (C A : Type) where
  | outside
  | find (use : Use) (c : C)
  | first (c : C) (block : Bool)
  | lock (target : Target C) (block : Bool)
  | test (c : C) (block : Bool)
  | scan (rest : List C) (block : Bool)
  | reap (c : C)
  | free (c : C)
  | parking (target : Target C)
  | parked (target : Target C)
  | woken (target : Target C)
  | exit (user : ExitUser) (c : C) (at_ : ExitPlace)
  | parentLock
  | neutralize
  | killThread (a : A)
  | children
  | child (c : C)
  | freeing (c : C)
  | releasing
  deriving DecidableEq

/-- A parent with its threads and its children, and the workers. -/
structure State (C A : Type) where
  parLock : Bool
  /-- `par->status` is `PS_RUNNING`. -/
  parRunning : Bool
  threads : List A
  mustExit : A → Bool
  children : List C
  /-- `new_process` has made the child. -/
  born : C → Bool
  /-- The child has threads, which may push exit tasks. -/
  alive : C → Bool
  /-- The child's status is neither `PS_LOADING` nor `PS_RUNNING`. -/
  ended : C → Bool
  childLock : C → Bool
  /-- How often the `process_t` was freed. -/
  freed : C → Nat
  /-- How often a wait has read the status of the child that has ended. -/
  reported : C → Nat
  /-- A `process_t` was read or written after it had been freed. -/
  dangling : Bool
  place : A → Place C A

/-- A system call of a thread of the parent. -/
inductive Call (C : Type) where
  | kill (c : C)
  | wait (c : C) (block : Bool)
  | waitAny (block : Bool)
  deriving DecidableEq

/-- What may happen next. -/
inductive Event (C A : Type) where
  | newChild (c : C)
  | call (a : A) (call : Call C)
  | childExit (a : A) (c : C)
  | parentExit (a : A)
  | step (a : A)
  deriving DecidableEq

variable {C A : Type} [DecidableEq C] [DecidableEq A]

/-- The thread is at another place. -/
def State.goto (s : State C A) (a : A) (place : Place C A) : State C A :=
  { s with place := Function.update s.place a place }

/-- A `process_t` is read or written. -/
def State.touch (s : State C A) (c : C) : State C A :=
  { s with dangling := s.dangling || decide (0 < s.freed c) }

/-- The search for a child reads those in front of it. -/
def State.search (s : State C A) (c : C) : State C A :=
  (s.children.takeWhile (· != c)).foldl State.touch s

/-- `resume_on`: the threads that wait on the object go on. -/
def State.resumeOn (s : State C A) (target : Target C) : State C A :=
  { s with place := fun a => if s.place a = .parked target then .woken target else s.place a }

/-- `free` of the `process_t`. -/
def State.free (s : State C A) (c : C) : State C A :=
  { s with freed := Function.update s.freed c (s.freed c + 1) }

/-- Where the call begins. -/
def Call.place : Call C → Place C A
  | .kill c => .find .kill c
  | .wait c block => .find (.wait block) c
  | .waitAny block => .lock .any block

/-- Behind `process_find_child`. -/
def Use.next (c : C) : Use → Place C A
  | .kill => .exit .kill c .lock
  | .wait block => .first c block

/-- Behind `process_exit` of a child. -/
def ExitUser.next (c : C) : ExitUser → Place C A
  | .task => .outside
  | .kill => .first c true
  | .nested => .freeing c

/-- A step of `process_exit` of a child, and where it leads. -/
def exitStep (s : State C A) (c : C) : ExitPlace → State C A × Option ExitPlace
  | .lock =>
      if s.childLock c then (s.touch c, some .lock)
      else if s.ended c then (s.touch c, none)
      else
        ({ s.touch c with
            childLock := Function.update s.childLock c true
            ended := Function.update s.ended c true }, some .neutralize)
  | .neutralize => ({ s.touch c with alive := Function.update s.alive c false }, some .cleaning)
  | .cleaning => (s.touch c, some (if s.parRunning then .wakeAny else .unlock))
  | .wakeAny => (s.resumeOn .any, some .wakeOne)
  | .wakeOne => (s.resumeOn (.one c), some .unlock)
  | .unlock => ({ s.touch c with childLock := Function.update s.childLock c false }, none)

/-- The next step of a thread. What happens between a `mutex_lock(&par->lock)` and what releases it
again without another wait is one step where nothing else of it can be seen. -/
def placeStep (s : State C A) (a : A) : Place C A → Option (State C A)
  | .outside => none
  | .find use c =>
      if s.parLock then none
      else if c ∈ s.children then some (((s.search c).touch c).goto a (use.next c))
      else some ((s.search c).goto a .outside)
  | .first c block => some ((s.touch c).goto a (.lock (.one c) block))
  | .lock (.one c) block =>
      if s.parLock then none
      else if c ∈ s.children then some { (s.search c).goto a (.test c block) with parLock := true }
      else some ((s.search c).goto a .outside)
  | .lock .any block =>
      if s.parLock then none
      else some { s.goto a (.scan s.children block) with parLock := true }
  | .test c block =>
      if s.ended c then some ((s.touch c).goto a (.reap c))
      else if block then some ((s.touch c).goto a (.parking (.one c)))
      else some { (s.touch c).goto a .outside with parLock := false }
  | .scan [] block =>
      if block then some (s.goto a (.parking .any))
      else some { s.goto a .outside with parLock := false }
  | .scan (c :: rest) block =>
      some ((s.touch c).goto a (if s.ended c then .reap c else .scan rest block))
  | .reap c =>
      if s.childLock c then none
      else some { (s.touch c).goto a (.free c) with
        reported := Function.update s.reported c (s.reported c + 1) }
  | .free c =>
      some { (((s.search c).touch c).free c).goto a .outside with
        children := s.children.erase c
        parLock := false }
  | .parking target => some { s.goto a (.parked target) with parLock := false }
  | .parked _ => none
  | .woken target => some (s.goto a (if s.mustExit a then .outside else .lock target true))
  | .exit user c at_ =>
      let (s, next) := exitStep s c at_
      some (s.goto a (match next with
        | some at_ => .exit user c at_
        | none => user.next c))
  | .parentLock =>
      if s.parLock then none
      else if s.parRunning then
        some { s.goto a .neutralize with parLock := true, parRunning := false }
      else some (s.goto a .outside)
  | .neutralize =>
      match s.threads with
      | [] => some (s.goto a .children)
      | b :: rest => some { s.goto a (.killThread b) with
          threads := rest
          mustExit := Function.update s.mustExit b true }
  | .killThread b =>
      match s.place b with
      | .outside => some (s.goto a .neutralize)
      | .parked target => some (s.goto b (.woken target))
      | _ => none
  | .children =>
      match s.children with
      | [] => some (s.goto a .releasing)
      | c :: rest => some { (s.touch c).goto a (.child c) with children := rest }
  | .child c =>
      some ((s.touch c).goto a (if s.ended c then .freeing c else .exit .nested c .lock))
  | .freeing c => some ((s.free c).goto a .children)
  | .releasing => some { s.goto a .outside with parLock := false }

/-- The state after an event. System calls are made by threads of the parent, and exit tasks are run
by other ones; a child asks for its exit while it has threads. -/
def step (s : State C A) : Event C A → Option (State C A)
  | .newChild c =>
      if s.parLock ∨ s.parRunning = false ∨ s.born c then none
      else some { s with
        children := c :: s.children
        born := Function.update s.born c true
        alive := Function.update s.alive c true }
  | .call a call =>
      if s.place a = .outside ∧ a ∈ s.threads then some (s.goto a call.place) else none
  | .childExit a c =>
      if s.place a = .outside ∧ a ∉ s.threads ∧ s.mustExit a = false ∧ s.alive c then
        some (s.goto a (.exit .task c .lock))
      else none
  | .parentExit a =>
      if s.place a = .outside ∧ a ∉ s.threads ∧ s.mustExit a = false then
        some (s.goto a .parentLock)
      else none
  | .step a => placeStep s a (s.place a)

/-- A running parent with children that run. -/
structure State.Initial (s : State C A) : Prop where
  parLock : s.parLock = false
  parRunning : s.parRunning = true
  nodup : s.children.Nodup
  born : ∀ c, s.born c = true ↔ c ∈ s.children
  alive : ∀ c, s.alive c = true → c ∈ s.children
  ended : ∀ c, s.ended c = false
  freed : ∀ c, s.freed c = 0
  reported : ∀ c, s.reported c = 0
  dangling : s.dangling = false
  place : ∀ a, s.place a = .outside

/-- The runs in which every event is allowed where it happens. -/
abbrev runs (allowed : State C A → Event C A → Prop) : System (State C A) :=
  eventRuns State.Initial step allowed

/-- The child that `process_exit` of the parent has taken out of its list and not freed yet. -/
def Place.inHand : Place C A → Option C
  | .child c | .exit .nested c _ | .freeing c => some c
  | _ => none

/-- The child that the thread will read or write, whoever holds the lock of the parent. -/
def Place.grip : Place C A → Option C
  | .first c _ | .exit .task c _ | .exit .kill c _ => some c
  | _ => none

/-- The place is behind the `mutex_lock` of `process_exit` of the parent. -/
def Place.inParent : Place C A → Bool
  | .neutralize | .killThread _ | .children | .child _ | .exit .nested _ _ | .freeing _
  | .releasing => true
  | _ => false

/-- No `process_t` is used behind its `free`, none is freed twice or reported twice, a child that
was reported is freed, and when `process_exit` of the parent has returned, all children are. -/
structure Outlived (s : State C A) : Prop where
  intact : s.dangling = false
  once : ∀ c, s.freed c ≤ 1
  report : ∀ c, s.reported c ≤ 1
  waited : ∀ c, s.reported c = 1 → (∀ a, s.place a ≠ .free c) → s.freed c = 1
  all : s.parRunning = false → (∀ a, (s.place a).inParent = false) →
    ∀ c, s.born c = true → s.freed c = 1

/-- A `process_t` is freed while another thread is in `process_exit` of the child, called from its
exit task or from `proc_kill_sc`, or is between `process_find_child` and the first line of
`process_wait`. -/
def Overlooks (s : State C A) : Event C A → Prop
  | .step a => ∃ c, (s.place a = .free c ∨ s.place a = .freeing c) ∧
      ∃ b, (s.place b).grip = some c
  | _ => False

/-- The place is behind a `mutex_lock(&par->lock)`. -/
def Place.holds : Place C A → Bool
  | .test _ _ | .scan _ _ | .reap _ | .free _ | .parking _ => true
  | place => place.inParent

/-- The children that the thread has seen in the list, with the lock. -/
def Place.near : Place C A → List C
  | .test c _ | .reap c | .free c => [c]
  | .scan rest _ => rest
  | _ => []

/-- The child that the thread has seen to have ended. -/
def Place.dead : Place C A → Option C
  | .reap c | .free c | .freeing c => some c
  | .exit _ c at_ => if at_ = .lock then none else some c
  | _ => none

/-- The child whose threads are being killed. -/
def Place.kills : Place C A → Option C
  | .exit _ c at_ => if at_ = .neutralize then some c else none
  | _ => none

-- No step below needs `linarith`, and its search for ordered modules would take most of the time.
attribute [grind] Place.inHand Place.grip Place.inParent Place.holds Place.near Place.dead
  Place.kills

section Attributes

variable {place : Place C A} {c : C}

omit [DecidableEq C] [DecidableEq A]

theorem Place.holds_of_in_parent (h : place.inParent = true) : place.holds = true := by
  unfold Place.holds
  split
  all_goals first | rfl | exact h

theorem Place.in_parent_of_in_hand (h : place.inHand = some c) : place.inParent = true := by
  unfold Place.inHand at h
  split at h <;> first | rfl | cases h

theorem Place.holds_of_near (h : c ∈ place.near) : place.holds = true := by
  unfold Place.near at h
  split at h <;> first | rfl | cases h

end Attributes

section Fields

variable (s : State C A) (a b : A) (c : C) (place : Place C A) (target : Target C)

section Goto

omit [DecidableEq C]

theorem goto_place : (s.goto a place).place b = if b = a then place else s.place b :=
  Function.update_apply ..

grind_pattern goto_place => (s.goto a place).place b
grind_pattern goto_place => s.goto a place, s.place b

@[simp, grind =] theorem goto_par_lock : (s.goto a place).parLock = s.parLock := rfl
@[simp, grind =] theorem goto_par_running : (s.goto a place).parRunning = s.parRunning := rfl
@[simp, grind =] theorem goto_children : (s.goto a place).children = s.children := rfl
@[simp, grind =] theorem goto_born : (s.goto a place).born c = s.born c := rfl
@[simp, grind =] theorem goto_alive : (s.goto a place).alive c = s.alive c := rfl
@[simp, grind =] theorem goto_ended : (s.goto a place).ended c = s.ended c := rfl
@[simp, grind =] theorem goto_freed : (s.goto a place).freed c = s.freed c := rfl
@[simp, grind =] theorem goto_dangling : (s.goto a place).dangling = s.dangling := rfl

end Goto

section Resume

@[grind =] theorem resume_place : (s.resumeOn target).place b =
    if s.place b = .parked target then .woken target else s.place b := rfl

@[simp, grind =] theorem resume_par_lock : (s.resumeOn target).parLock = s.parLock := rfl
@[simp, grind =] theorem resume_par_running : (s.resumeOn target).parRunning = s.parRunning := rfl
@[simp, grind =] theorem resume_children : (s.resumeOn target).children = s.children := rfl
@[simp, grind =] theorem resume_born : (s.resumeOn target).born c = s.born c := rfl
@[simp, grind =] theorem resume_alive : (s.resumeOn target).alive c = s.alive c := rfl
@[simp, grind =] theorem resume_ended : (s.resumeOn target).ended c = s.ended c := rfl
@[simp, grind =] theorem resume_freed : (s.resumeOn target).freed c = s.freed c := rfl
@[simp, grind =] theorem resume_dangling : (s.resumeOn target).dangling = s.dangling := rfl

end Resume

variable {s c}

omit [DecidableEq C] [DecidableEq A] in
theorem touch_of_kept (h : s.freed c = 0) : s.touch c = s := by
  show { s with dangling := s.dangling || decide (0 < s.freed c) } = s
  simp [h]

omit [DecidableEq A] in
theorem search_of_kept (h : ∀ d ∈ s.children, s.freed d = 0) : s.search c = s := by
  have hall : ∀ l : List C, (∀ d ∈ l, s.freed d = 0) → l.foldl State.touch s = s := by
    intro l hl
    induction l with
    | nil => rfl
    | cons d l ih =>
        rw [List.foldl_cons, touch_of_kept (hl d List.mem_cons_self)]
        exact ih fun e he => hl e (List.mem_cons_of_mem d he)
  exact hall _ fun d hd => h d ((List.takeWhile_sublist _).mem hd)

end Fields

/-- At most one thread is behind a `mutex_lock(&par->lock)`, and the parent is running until its
`process_exit` is there. -/
structure Locked (s : State C A) : Prop where
  lock : ∀ a, (s.place a).holds = true → s.parLock = true
  unique : ∀ a b, (s.place a).holds = true → (s.place b).holds = true → a = b
  ended : ∀ a, (s.place a).inParent = true → s.parRunning = false
  gone : s.parRunning = false → (∀ a, (s.place a).inParent = false) → s.children = []
  empty : ∀ a, s.place a = .releasing → s.children = []

/-- Where the children that are not freed are, and who knows them. -/
structure Owned (s : State C A) : Prop where
  intact : s.dangling = false
  once : ∀ c, s.freed c ≤ 1
  nodup : s.children.Nodup
  listed : ∀ c ∈ s.children, s.born c = true ∧ s.freed c = 0
  hand : ∀ a c, (s.place a).inHand = some c → s.born c = true ∧ s.freed c = 0 ∧ c ∉ s.children
  found : ∀ c, s.born c = true → s.freed c = 0 →
    c ∈ s.children ∨ ∃ a, (s.place a).inHand = some c
  grip : ∀ a c, (s.place a).grip = some c → s.born c = true ∧ s.freed c = 0
  near : ∀ a, ∀ c ∈ (s.place a).near, c ∈ s.children
  made : ∀ c, s.freed c ≠ 0 → s.born c = true

/-- A child that has ended has no threads, or they are being killed. -/
structure Ended (s : State C A) : Prop where
  ran : ∀ c, s.ended c = true → s.born c = true
  dead : ∀ a c, (s.place a).dead = some c → s.ended c = true
  kept : ∀ c, s.alive c = true → s.born c = true ∧ s.freed c = 0
  alive : ∀ c, s.alive c = true → s.ended c = true → ∃ a, (s.place a).kills = some c

/-- A child that was reported is freed next. -/
def Reported (s : State C A) : Prop :=
  ∀ c, s.reported c ≠ 0 → s.reported c = 1 ∧ (s.freed c = 1 ∨ ∃ a, s.place a = .free c)

/-- What holds in every state of a run in which no `process_t` is freed too early. -/
structure Inv (s : State C A) : Prop extends Locked s, Owned s, Ended s where
  reported : Reported s

section Steps

variable {s s' : State C A} {a b : A} {c : C} {place : Place C A}

omit [DecidableEq A] in
theorem Owned.search (h : Owned s) (c : C) : s.search c = s :=
  search_of_kept fun d hd => (h.listed d hd).2

section Moves

omit [DecidableEq C]

/-- What a place claims to know is so. -/
structure Place.Knows (place : Place C A) (s : State C A) : Prop where
  grip : ∀ c, place.grip = some c → s.born c = true ∧ s.freed c = 0
  near : ∀ c ∈ place.near, c ∈ s.children
  dead : ∀ c, place.dead = some c → s.ended c = true

/-- A thread goes to a place where it has the same child in hand and kills the threads of the same
one. -/
theorem Owned.goto (h : Owned s)
    (hgrip' : ∀ c, place.grip = some c → s.born c = true ∧ s.freed c = 0)
    (hnear' : ∀ c ∈ place.near, c ∈ s.children)
    (hhand : place.inHand = (s.place a).inHand) : Owned (s.goto a place) := by
  cases h
  constructor <;> grind -linarith

theorem Ended.goto (h : Ended s) (hdead' : ∀ c, place.dead = some c → s.ended c = true)
    (hkills : place.kills = (s.place a).kills) : Ended (s.goto a place) := by
  cases h
  constructor <;> grind -linarith

theorem Reported.goto (h : Reported s) (hfree : ∀ c, s.place a ≠ .free c) :
    Reported (s.goto a place) := by
  intro c hc
  obtain ⟨hone, hfreed | ⟨b, hb⟩⟩ := h c hc
  · exact ⟨hone, .inl hfreed⟩
  · refine ⟨hone, .inr ⟨b, ?_⟩⟩
    grind -linarith

theorem Locked.goto (h : Locked s) (hholds : place.holds = (s.place a).holds)
    (hparent : place.inParent = (s.place a).inParent)
    (hempty : place = .releasing → s.children = []) : Locked (s.goto a place) := by
  cases h
  constructor <;> grind -linarith

section

variable {old : Place C A} (h : Inv s) (hat : s.place a = old) (hknows : place.Knows s)
  (hhand : place.inHand = old.inHand) (hkills : place.kills = old.kills)

include h hat hknows hhand hkills

/-- A thread goes on, with the lock or without it. -/
theorem Inv.goto (hholds : place.holds = old.holds) (hparent : place.inParent = old.inParent)
    (hempty : place = .releasing → s.children = []) (hfree : ∀ c, old ≠ .free c) :
    Inv (s.goto a place) := by
  subst hat
  exact {
    toLocked := h.toLocked.goto hholds hparent hempty
    toOwned := h.toOwned.goto hknows.grip hknows.near hhand
    toEnded := h.toEnded.goto hknows.dead hkills
    reported := h.reported.goto hfree }

/-- A thread takes the lock for a wait. -/
theorem Inv.acquire (hlock : s.parLock = false) (hparent : place.inParent = old.inParent)
    (hempty : place ≠ .releasing) (hfree : ∀ c, old ≠ .free c) :
    Inv { s.goto a place with parLock := true } := by
  subst hat
  refine ⟨?_, { h.toOwned.goto hknows.grip hknows.near hhand with },
    { h.toEnded.goto hknows.dead hkills with }, h.reported.goto hfree⟩
  rcases h.toLocked with ⟨⟩
  constructor <;> grind -linarith

/-- A thread releases the lock after a wait. -/
theorem Inv.release (hheld : old.holds = true) (hholds : place.holds = false)
    (hparent : place.inParent = old.inParent) (hfree : ∀ c, old ≠ .free c) :
    Inv { s.goto a place with parLock := false } := by
  subst hat
  refine ⟨?_, { h.toOwned.goto hknows.grip hknows.near hhand with },
    { h.toEnded.goto hknows.dead hkills with }, h.reported.goto hfree⟩
  rcases h.toLocked with ⟨⟩
  constructor <;> grind -linarith

end

omit [DecidableEq A] in
theorem knows_nothing (hgrip : place.grip = none) (hnear : place.near = [])
    (hdead : place.dead = none) : place.Knows s := by
  constructor <;> grind -linarith

end Moves

section Exit

variable {user : ExitUser} {at_ at' : ExitPlace}

/-- `resume_on` moves no thread that knows anything. -/
theorem Inv.resume (h : Inv s) (target : Target C) : Inv (s.resumeOn target) := by
  obtain ⟨⟨hlock, hunique, hended, hgone, hreleasing⟩,
    ⟨hintact, honce, hnodup, hlisted, hinhand, hfound, hgrip, hnear, hmade⟩,
    ⟨hmade', hdead, hkept, halive⟩, hreported⟩ := h
  have hholds : ∀ b, ((s.resumeOn target).place b).holds = (s.place b).holds := by grind -linarith
  have hparent : ∀ b, ((s.resumeOn target).place b).inParent = (s.place b).inParent := by
    grind -linarith
  have hhand : ∀ b, ((s.resumeOn target).place b).inHand = (s.place b).inHand := by grind -linarith
  have hkills : ∀ b, ((s.resumeOn target).place b).kills = (s.place b).kills := by grind -linarith
  refine ⟨?_, ?_, ?_, ?_⟩
  · constructor <;> grind -linarith
  · constructor <;> grind -linarith
  · constructor <;> grind -linarith
  · intro c hc
    obtain ⟨hone, hfreed | ⟨b, hb⟩⟩ := hreported c hc
    · exact ⟨hone, .inl hfreed⟩
    · exact ⟨hone, .inr ⟨b, by grind -linarith⟩⟩

section Ends

omit [DecidableEq C]

/-- `process_exit` of a child goes on. -/
theorem Inv.exit_goto (h : Inv s) (hat : s.place a = .exit user c at_)
    (hdead : at' = .lock ∨ s.ended c = true) (hkills : at_ ≠ .neutralize)
    (hkills' : at' ≠ .neutralize) : Inv (s.goto a (.exit user c at')) := by
  have hgrip := h.grip a
  rw [hat] at hgrip
  refine h.goto hat ⟨?_, ?_, ?_⟩ ?_ ?_ ?_ ?_ ?_ ?_ <;> cases user <;> grind -linarith

/-- `process_exit` of a child returns. -/
theorem Inv.exit_return (h : Inv s) (hat : s.place a = .exit user c at_)
    (hended : s.ended c = true) (hkills : at_ ≠ .neutralize) :
    Inv (s.goto a (user.next c)) := by
  have hgrip := h.grip a
  rw [hat] at hgrip
  refine h.goto hat ⟨?_, ?_, ?_⟩ ?_ ?_ ?_ ?_ ?_ ?_ <;>
    cases user <;> grind -linarith [ExitUser.next]

end Ends

omit [DecidableEq C] [DecidableEq A] in
/-- The child that somebody is in `process_exit` of is not freed yet. -/
theorem Inv.exit_kept (h : Inv s) (hat : s.place a = .exit user c at_) :
    s.born c = true ∧ s.freed c = 0 := by
  have hgrip := h.grip a c
  have hhand := h.hand a c
  rw [hat] at hgrip hhand
  cases user with
  | task | kill => exact hgrip rfl
  | nested => exact ⟨(hhand rfl).1, (hhand rfl).2.1⟩

omit [DecidableEq C] in
/-- A child has ended or lost its threads, and the thread in its `process_exit` goes on. -/
theorem exit_change (hat : s.place a = .exit user c at_)
    (hplace : s'.place = s.place) (hlocked : Locked s') (howned : Owned s')
    (hended : Ended (s'.goto a (.exit user c at'))) (hreported : Reported s') :
    Inv (s'.goto a (.exit user c at')) where
  toLocked := by
    refine hlocked.goto ?_ ?_ nofun <;> rw [hplace, hat] <;> cases user <;> rfl
  toOwned := by
    have hgrip := howned.grip a
    rw [hplace, hat] at hgrip
    refine howned.goto ?_ nofun ?_
    · cases user <;> exact hgrip
    · rw [hplace, hat]
      cases user <;> rfl
  toEnded := hended
  reported := hreported.goto fun d hd => by
    rw [hplace, hat] at hd
    cases hd

/-- The status is set, and the threads of the child are killed next. -/
theorem Inv.exit_begin (h : Inv s) (hat : s.place a = .exit user c .lock) (lock : C → Bool) :
    Inv (State.goto { s with
      childLock := lock
      ended := Function.update s.ended c true } a (.exit user c .neutralize)) := by
  refine exit_change hat rfl { h.toLocked with } { h.toOwned with } ?_ h.reported
  have hborn := (h.exit_kept hat).1
  obtain ⟨hmade, hdead, hkept, halive⟩ := h.toEnded
  constructor
  · intro d hd
    change Function.update s.ended c true d = true at hd
    by_cases hdc : d = c
    · exact hdc ▸ hborn
    · exact hmade d ((Function.update_of_ne hdc ..).symm.trans hd)
  · intro b d hd
    show Function.update s.ended c true d = true
    change (Function.update s.place a _ b).dead = some d at hd
    grind -linarith [Function.update_apply]
  · exact hkept
  · intro d hd hdone
    show ∃ b, (Function.update s.place a _ b).kills = some d
    change Function.update s.ended c true d = true at hdone
    by_cases hdc : d = c
    · exact ⟨a, by rw [Function.update_self, hdc]; rfl⟩
    · rw [Function.update_of_ne hdc] at hdone
      obtain ⟨b, hb⟩ := halive d hd hdone
      have hba : b ≠ a := fun heq => by
        rw [heq, hat] at hb
        cases hb
      exact ⟨b, by rw [Function.update_of_ne hba]; exact hb⟩

/-- The threads of the child have been killed. -/
theorem Inv.exit_neutralized (h : Inv s) (hat : s.place a = .exit user c .neutralize) :
    Inv (State.goto { s with alive := Function.update s.alive c false } a
      (.exit user c .cleaning)) := by
  refine exit_change hat rfl { h.toLocked with } { h.toOwned with } ?_ h.reported
  obtain ⟨hmade, hdead, hkept, halive⟩ := h.toEnded
  have hrunning : ∀ d, Function.update s.alive c false d = true → d ≠ c ∧ s.alive d = true := by
    intro d hd
    by_cases hdc : d = c
    · rw [hdc, Function.update_self] at hd
      cases hd
    · exact ⟨hdc, (Function.update_of_ne hdc ..).symm.trans hd⟩
  constructor
  · exact hmade
  · intro b d hd
    change (Function.update s.place a _ b).dead = some d at hd
    show s.ended d = true
    have hc : s.ended c = true := hdead a c (by rw [hat]; rfl)
    grind -linarith [Function.update_apply]
  · exact fun d hd => hkept d (hrunning d hd).2
  · intro d hd hdone
    obtain ⟨hdc, hd⟩ := hrunning d hd
    obtain ⟨b, hb⟩ := halive d hd hdone
    have hba : b ≠ a := fun heq => by
      rw [heq, hat] at hb
      exact hdc (Option.some.inj hb).symm
    exact ⟨b, (congrArg Place.kills (Function.update_of_ne hba ..)).trans hb⟩

omit [DecidableEq C] [DecidableEq A] in
/-- The lock of a child is of no interest. -/
theorem Inv.child_lock (h : Inv s) (lock : C → Bool) : Inv { s with childLock := lock } :=
  ⟨{ h.toLocked with }, { h.toOwned with }, { h.toEnded with }, h.reported⟩

theorem Inv.exit_step (h : Inv s) (hat : s.place a = .exit user c at_)
    (hstep : placeStep s a (.exit user c at_) = some s') : Inv s' := by
  have htouch : s.touch c = s := touch_of_kept (h.exit_kept hat).2
  have hdead := h.dead a c
  rw [hat] at hdead
  have hended : at_ ≠ .lock → s.ended c = true := fun hlock => hdead (if_neg hlock)
  -- nobody is parked in `process_exit`
  have hresume : ∀ target, (s.resumeOn target).place a = .exit user c at_ := fun target => by
    rw [resume_place, hat]
    rfl
  have hs' : (exitStep s c at_).1.goto a (match (exitStep s c at_).2 with
      | some at_ => .exit user c at_
      | none => user.next c) = s' := Option.some.inj hstep
  rw [← hs']
  cases at_ with
  | lock =>
      by_cases hlocked : s.childLock c = true
      · have hexit : exitStep s c .lock = (s, some .lock) := by simp [exitStep, htouch, hlocked]
        rw [hexit]
        exact h.exit_goto hat (.inl rfl) nofun nofun
      by_cases hdone : s.ended c = true
      · have hexit : exitStep s c .lock = (s, none) := by simp [exitStep, htouch, hlocked, hdone]
        rw [hexit]
        exact h.exit_return hat hdone nofun
      · have hexit : exitStep s c .lock = ({ s with
            childLock := Function.update s.childLock c true
            ended := Function.update s.ended c true }, some .neutralize) := by
          simp [exitStep, htouch, hlocked, hdone]
        rw [hexit]
        exact h.exit_begin hat _
  | neutralize =>
      show Inv (State.goto { s.touch c with alive := Function.update s.alive c false } a _)
      rw [htouch]
      exact h.exit_neutralized hat
  | cleaning =>
      show Inv ((s.touch c).goto a (.exit user c (if s.parRunning then .wakeAny else .unlock)))
      rw [htouch]
      split
      · exact h.exit_goto hat (.inr (hended nofun)) nofun nofun
      · exact h.exit_goto hat (.inr (hended nofun)) nofun nofun
  | wakeAny => exact (h.resume .any).exit_goto (hresume _) (.inr (hended nofun)) nofun nofun
  | wakeOne => exact (h.resume (.one c)).exit_goto (hresume _) (.inr (hended nofun)) nofun nofun
  | unlock =>
      show Inv (State.goto { s.touch c with childLock := Function.update s.childLock c false } a _)
      rw [htouch]
      exact (h.child_lock _).exit_return hat (hended nofun) nofun

end Exit

section Waits

variable {block : Bool} {use : Use} {target : Target C}

omit [DecidableEq C] [DecidableEq A] in
theorem Inv.touch_listed (h : Inv s) (hc : c ∈ s.children) : s.touch c = s :=
  touch_of_kept (h.listed c hc).2

theorem Inv.find_step (h : Inv s) (hat : s.place a = .find use c)
    (hstep : placeStep s a (.find use c) = some s') : Inv s' := by
  simp only [placeStep, h.search] at hstep
  split at hstep
  · cases hstep
  · split at hstep
    · next hmem =>
        have hkept := h.listed c hmem
        rw [h.touch_listed hmem] at hstep
        cases hstep
        have hknows : (use.next c : Place C A).Knows s := by
          refine ⟨fun d hd => ?_, fun d hd => ?_, fun d hd => ?_⟩ <;> cases use <;> cases hd
          all_goals exact hkept
        cases use <;> exact h.goto hat hknows rfl rfl rfl rfl nofun nofun
    · cases hstep
      exact h.goto hat (knows_nothing rfl rfl rfl) rfl rfl rfl rfl nofun nofun

theorem Inv.first_step (h : Inv s) (hat : s.place a = .first c block)
    (hstep : placeStep s a (.first c block) = some s') : Inv s' := by
  have hkept : s.freed c = 0 := (h.grip a c (by rw [hat]; rfl)).2
  simp only [placeStep, touch_of_kept hkept] at hstep
  cases hstep
  exact h.goto hat (knows_nothing rfl rfl rfl) rfl rfl rfl rfl nofun nofun

omit [DecidableEq C] [DecidableEq A] in
/-- A listed child whose status is to be read. -/
theorem knows_listed (hmem : c ∈ s.children) (hnear : ∀ d ∈ place.near, d = c)
    (hgrip : place.grip = none) (hdead : ∀ d, place.dead = some d → d = c ∧ s.ended c = true) :
    place.Knows s where
  grip := fun d hd => by rw [hgrip] at hd; cases hd
  near := fun d hd => hnear d hd ▸ hmem
  dead := fun d hd => (hdead d hd).1 ▸ (hdead d hd).2

theorem Inv.lock_step (h : Inv s) (hat : s.place a = .lock target block)
    (hstep : placeStep s a (.lock target block) = some s') : Inv s' := by
  cases target with
  | one c =>
      simp only [placeStep, h.search] at hstep
      split at hstep
      · cases hstep
      · next hfree =>
          split at hstep
          · next hmem =>
              cases hstep
              have hknows : (Place.test c block : Place C A).Knows s :=
                knows_listed hmem (fun d => List.mem_singleton.mp) rfl nofun
              exact h.acquire hat hknows rfl rfl (Bool.eq_false_iff.mpr hfree) rfl nofun nofun
          · cases hstep
            exact h.goto hat (knows_nothing rfl rfl rfl) rfl rfl rfl rfl nofun nofun
  | any =>
      simp only [placeStep] at hstep
      split at hstep
      · cases hstep
      · next hfree =>
          cases hstep
          exact h.acquire hat ⟨nofun, fun _ => id, nofun⟩ rfl rfl (Bool.eq_false_iff.mpr hfree) rfl
            nofun nofun

theorem Inv.test_step (h : Inv s) (hat : s.place a = .test c block)
    (hstep : placeStep s a (.test c block) = some s') : Inv s' := by
  have hmem : c ∈ s.children := h.near a c (by rw [hat]; exact List.mem_singleton.mpr rfl)
  simp only [placeStep, h.touch_listed hmem] at hstep
  split at hstep
  · next hdone =>
      cases hstep
      have hknows : (Place.reap c : Place C A).Knows s := knows_listed hmem
        (fun d => List.mem_singleton.mp) rfl fun d hd => ⟨(Option.some.inj hd).symm, hdone⟩
      exact h.goto hat hknows rfl rfl rfl rfl nofun nofun
  · split at hstep <;> cases hstep
    · exact h.goto hat (knows_nothing rfl rfl rfl) rfl rfl rfl rfl nofun nofun
    · exact h.release hat (knows_nothing rfl rfl rfl) rfl rfl rfl rfl rfl nofun

theorem Inv.scan_step (h : Inv s) {rest : List C} (hat : s.place a = .scan rest block)
    (hstep : placeStep s a (.scan rest block) = some s') : Inv s' := by
  cases rest with
  | nil =>
      simp only [placeStep] at hstep
      split at hstep <;> cases hstep
      · exact h.goto hat (knows_nothing rfl rfl rfl) rfl rfl rfl rfl nofun nofun
      · exact h.release hat (knows_nothing rfl rfl rfl) rfl rfl rfl rfl rfl nofun
  | cons c rest =>
      have hrest : ∀ d ∈ c :: rest, d ∈ s.children := fun d hd => h.near a d (by rw [hat]; exact hd)
      have hmem := hrest c List.mem_cons_self
      simp only [placeStep, h.touch_listed hmem] at hstep
      cases hstep
      split
      · next hdone =>
          have hknows : (Place.reap c : Place C A).Knows s := knows_listed hmem
            (fun d => List.mem_singleton.mp) rfl fun d hd => ⟨(Option.some.inj hd).symm, hdone⟩
          exact h.goto hat hknows rfl rfl rfl rfl nofun nofun
      · have hknows : (Place.scan rest block : Place C A).Knows s :=
          ⟨nofun, fun d hd => hrest d (List.mem_cons_of_mem c hd), nofun⟩
        exact h.goto hat hknows rfl rfl rfl rfl nofun nofun

/-- No other wait has read the status of a listed child, since it would hold the lock. -/
theorem Inv.reap_step (h : Inv s) (hat : s.place a = .reap c)
    (hstep : placeStep s a (.reap c) = some s') : Inv s' := by
  have hmem : c ∈ s.children := h.near a c (by rw [hat]; exact List.mem_singleton.mpr rfl)
  have hdone : s.ended c = true := h.dead a c (by rw [hat]; rfl)
  have hkept := (h.listed c hmem).2
  simp only [placeStep, h.touch_listed hmem] at hstep
  split at hstep
  · cases hstep
  · cases hstep
    have hknows : (Place.free c : Place C A).Knows s := knows_listed hmem
      (fun d => List.mem_singleton.mp) rfl fun d hd => ⟨(Option.some.inj hd).symm, hdone⟩
    obtain ⟨hlocked, howned, hended, hreported⟩ := h.goto hat hknows rfl rfl rfl rfl nofun nofun
    refine ⟨{ hlocked with }, { howned with }, { hended with }, fun d hd => ?_⟩
    by_cases hdc : d = c
    · have hnone : s.reported c = 0 := by
        by_contra hsome
        obtain ⟨-, hfreed | ⟨b, hb⟩⟩ := h.reported c hsome
        · omega
        · have hab := h.unique a b (by rw [hat]; rfl) (by rw [hb]; rfl)
          rw [← hab, hat] at hb
          cases hb
      rw [hdc]
      refine ⟨?_, .inr ⟨a, Function.update_self ..⟩⟩
      show Function.update s.reported c (s.reported c + 1) c = 1
      rw [Function.update_self, hnone]
    · have hd' : s.reported d ≠ 0 := by
        intro hzero
        exact hd ((Function.update_of_ne hdc ..).trans hzero)
      obtain ⟨hone, hrest⟩ := hreported d hd'
      exact ⟨(Function.update_of_ne hdc ..).trans hone, hrest⟩

theorem Inv.parking_step (h : Inv s) (hat : s.place a = .parking target)
    (hstep : placeStep s a (.parking target) = some s') : Inv s' := by
  cases hstep
  exact h.release hat (knows_nothing rfl rfl rfl) rfl rfl rfl rfl rfl nofun

theorem Inv.woken_step (h : Inv s) (hat : s.place a = .woken target)
    (hstep : placeStep s a (.woken target) = some s') : Inv s' := by
  cases hstep
  split
  · exact h.goto hat (knows_nothing rfl rfl rfl) rfl rfl rfl rfl nofun nofun
  · exact h.goto hat (knows_nothing rfl rfl rfl) rfl rfl rfl rfl nofun nofun

end Waits

section Free

omit [DecidableEq C] [DecidableEq A] in
/-- A child that is freed has no threads: somebody would be killing them. -/
theorem Inv.dead_of_free (h : Inv s) (hheld : (s.place a).holds = true)
    (hkills : (s.place a).kills = none) (hended : s.ended c = true)
    (hno : ∀ b, (s.place b).grip ≠ some c) : s.alive c = false := by
  by_contra halive
  obtain ⟨b, hb⟩ := h.alive c (Bool.of_not_eq_false halive) hended
  have hgrip := hno b
  have hunique := h.unique a b hheld
  cases hat : s.place b with
  | exit user d at_ =>
      rw [hat] at hb hgrip hunique
      obtain rfl : d = c := by grind -linarith
      cases user with
      | task | kill => exact hgrip rfl
      | nested =>
          obtain rfl := hunique rfl
          rw [hat] at hkills
          rw [hkills] at hb
          cases hb
  | _ =>
      rw [hat] at hb
      cases hb

omit [DecidableEq C] [DecidableEq A] in
/-- Nobody else holds the lock. -/
theorem Inv.others (h : Inv s) (hheld : (s.place a).holds = true) (hb : b ≠ a) :
    (s.place b).holds = false :=
  Bool.eq_false_iff.mpr fun hb' => hb (h.unique b a hb' hheld)

/-- The thread that holds the lock frees a child that is not known to anybody else, and does not
list it any more. -/
theorem Inv.freed (h : Inv s) {children : List C} {lock : Bool}
    (hheld : (s.place a).holds = true) (hborn : s.born c = true) (hkept : s.freed c = 0)
    (hdead : s.alive c = false)
    (hno : ∀ b, (s.place b).grip ≠ some c) (hhand : ∀ d, (s.place a).inHand = some d → d = c)
    (hkills : (s.place a).kills = none) (hfree : ∀ d, s.place a = .free d → d = c)
    (hquiet : place = .outside ∨ place = .children)
    (hmem : ∀ d, d ∈ children ↔ d ≠ c ∧ d ∈ s.children) (hnodup : children.Nodup)
    (hlocked : Locked { (s.free c).goto a place with children := children, parLock := lock }) :
    Inv { (s.free c).goto a place with children := children, parLock := lock } := by
  have hfreed : ∀ d, d ≠ c → Function.update s.freed c (s.freed c + 1) d = s.freed d := fun d hd =>
    Function.update_of_ne hd ..
  have hone : Function.update s.freed c (s.freed c + 1) c = 1 := by
    rw [Function.update_self, hkept]
  -- the thread knows nothing at its new place, and the others nothing about the list
  have hself : place.inHand = none ∧ place.grip = none ∧ place.near = [] ∧ place.dead = none := by
    rcases hquiet with rfl | rfl <;> exact ⟨rfl, rfl, rfl, rfl⟩
  obtain ⟨hhand', hgrip', hnear', hdead'⟩ := hself
  have hplace : ∀ b, Function.update s.place a place b = place ∨
      b ≠ a ∧ Function.update s.place a place b = s.place b := fun b => by
    by_cases hb : b = a
    · exact .inl (hb ▸ Function.update_self ..)
    · exact .inr ⟨hb, Function.update_of_ne hb ..⟩
  refine ⟨hlocked, ⟨h.intact, ?_, hnodup, ?_, ?_, ?_, ?_, ?_, ?_⟩, ⟨h.ran, ?_, ?_, ?_⟩, ?_⟩
  · intro d
    show Function.update s.freed c (s.freed c + 1) d ≤ 1
    by_cases hd : d = c
    · exact Nat.le_of_eq (hd ▸ hone)
    · rw [hfreed d hd]
      exact h.once d
  · intro d hd
    obtain ⟨hdc, hd⟩ := (hmem d).mp hd
    obtain ⟨hborn, hd⟩ := h.listed d hd
    exact ⟨hborn, (hfreed d hdc).trans hd⟩
  · intro b d hb
    rcases hplace b with hnew | ⟨hba, hnew⟩
    · cases hhand'.symm.trans ((congrArg Place.inHand hnew).symm.trans hb)
    · have hb : (s.place b).inHand = some d := (congrArg Place.inHand hnew).symm.trans hb
      exact absurd (Place.holds_of_in_parent (Place.in_parent_of_in_hand hb))
        (Bool.eq_false_iff.mp (h.others hheld hba))
  · intro d hborn hd
    have hdc : d ≠ c := fun heq => by
      rw [heq] at hd
      exact absurd (hone.symm.trans hd) Nat.one_ne_zero
    rcases h.found d hborn ((hfreed d hdc).symm.trans hd) with hd | ⟨b, hb⟩
    · exact .inl ((hmem d).mpr ⟨hdc, hd⟩)
    · have hholds := Place.holds_of_in_parent (Place.in_parent_of_in_hand hb)
      rw [h.unique b a hholds hheld] at hb
      exact absurd (hhand d hb) hdc
  · intro b d hb
    rcases hplace b with hnew | ⟨-, hnew⟩
    · cases hgrip'.symm.trans ((congrArg Place.grip hnew).symm.trans hb)
    · have hb : (s.place b).grip = some d := (congrArg Place.grip hnew).symm.trans hb
      have hdc : d ≠ c := fun heq => hno b (heq ▸ hb)
      exact ⟨(h.grip b d hb).1, (hfreed d hdc).trans (h.grip b d hb).2⟩
  · intro b d hd
    rcases hplace b with hnew | ⟨hba, hnew⟩
    · have hd : d ∈ place.near := (congrArg Place.near hnew) ▸ hd
      rw [hnear'] at hd
      cases hd
    · have hd : d ∈ (s.place b).near := (congrArg Place.near hnew) ▸ hd
      exact absurd (Place.holds_of_near hd) (Bool.eq_false_iff.mp (h.others hheld hba))
  · intro d hd
    by_cases hdc : d = c
    · exact hdc ▸ hborn
    · exact h.made d fun hzero => hd ((hfreed d hdc).trans hzero)
  · intro b d hb
    rcases hplace b with hnew | ⟨-, hnew⟩
    · cases hdead'.symm.trans ((congrArg Place.dead hnew).symm.trans hb)
    · exact h.dead b d ((congrArg Place.dead hnew).symm.trans hb)
  · intro d hd
    have hdc : d ≠ c := fun heq => by
      rw [heq] at hd
      exact absurd hd (Bool.eq_false_iff.mp hdead)
    exact ⟨(h.kept d hd).1, (hfreed d hdc).trans (h.kept d hd).2⟩
  · intro d hd hdone
    obtain ⟨b, hb⟩ := h.alive d hd hdone
    have hba : b ≠ a := fun heq => by
      rw [heq, hkills] at hb
      cases hb
    exact ⟨b, (congrArg Place.kills (Function.update_of_ne hba ..)).trans hb⟩
  · intro d hd
    obtain ⟨hd, hrest⟩ := h.reported d hd
    refine ⟨hd, ?_⟩
    by_cases hdc : d = c
    · exact .inl (hdc ▸ hone)
    · refine hrest.imp (fun hd => (hfreed d hdc).trans hd) fun ⟨b, hb⟩ => ⟨b, ?_⟩
      have hba : b ≠ a := fun heq => hdc (hfree d (heq ▸ hb))
      exact (Function.update_of_ne hba ..).trans hb

/-- A wait frees its child. -/
theorem Inv.free_step (h : Inv s) (hat : s.place a = .free c)
    (hno : ∀ b, (s.place b).grip ≠ some c) (hstep : placeStep s a (.free c) = some s') :
    Inv s' := by
  have hmem : c ∈ s.children := h.near a c (by rw [hat]; exact List.mem_singleton.mpr rfl)
  have hdone : s.ended c = true := h.dead a c (by rw [hat]; rfl)
  have hheld : (s.place a).holds = true := by rw [hat]; rfl
  have hkills : (s.place a).kills = none := by rw [hat]; rfl
  simp only [placeStep, h.search, h.touch_listed hmem] at hstep
  cases hstep
  obtain ⟨hborn, hkept⟩ := h.listed c hmem
  refine h.freed hheld hborn hkept (h.dead_of_free hheld hkills hdone hno) hno ?_ hkills ?_
    (.inl rfl) (fun d => h.nodup.mem_erase_iff) (h.nodup.erase c) ?_
  · intro d hd
    rw [hat] at hd
    cases hd
  · intro d hd
    rw [hat] at hd
    exact (Place.free.inj hd).symm
  · -- the parent is running, since a child is listed and the thread is in a wait
    have hrelease : Locked { s.goto a .outside with parLock := false } := by
      rcases h.toLocked with ⟨⟩
      constructor <;> grind -linarith
    refine ⟨hrelease.lock, hrelease.unique, hrelease.ended, fun hrunning hparent => ?_,
      fun b hb => ?_⟩
    · have hnil : s.children = [] := hrelease.gone hrunning hparent
      rw [hnil] at hmem
      cases hmem
    · have hnil : s.children = [] := hrelease.empty b hb
      rw [hnil] at hmem
      cases hmem

/-- `process_exit` of the parent frees a child. -/
theorem Inv.freeing_step (h : Inv s) (hat : s.place a = .freeing c)
    (hno : ∀ b, (s.place b).grip ≠ some c) (hstep : placeStep s a (.freeing c) = some s') :
    Inv s' := by
  obtain ⟨hborn, hkept, hmem⟩ := h.hand a c (by rw [hat]; rfl)
  have hdone : s.ended c = true := h.dead a c (by rw [hat]; rfl)
  have hheld : (s.place a).holds = true := by rw [hat]; rfl
  have hkills : (s.place a).kills = none := by rw [hat]; rfl
  cases hstep
  refine h.freed hheld hborn hkept (h.dead_of_free hheld hkills hdone hno) hno ?_ hkills ?_
    (.inr rfl) (fun d => ⟨fun hd => ⟨fun heq => hmem (heq ▸ hd), hd⟩, fun hd => hd.2⟩) h.nodup ?_
  · intro d hd
    rw [hat] at hd
    exact (Option.some.inj hd).symm
  · intro d hd
    rw [hat] at hd
    cases hd
  · have hgoto : Locked (s.goto a .children) :=
      h.toLocked.goto (by rw [hat]; rfl) (by rw [hat]; rfl) nofun
    exact ⟨hgoto.lock, hgoto.unique, hgoto.ended, hgoto.gone, hgoto.empty⟩

end Free

section Parent

theorem Inv.parent_lock_step (h : Inv s) (hat : s.place a = .parentLock)
    (hstep : placeStep s a .parentLock = some s') : Inv s' := by
  simp only [placeStep] at hstep
  split at hstep
  · cases hstep
  · next hfree =>
      split at hstep <;> cases hstep
      · have hnone : ∀ b, (s.place b).holds = false := fun b =>
          Bool.eq_false_iff.mpr fun hb => hfree (h.lock b hb)
        refine ⟨?_, ?_, ?_, ?_⟩
        · obtain ⟨hlock, hunique, hended, hgone, hreleasing⟩ := h.toLocked
          constructor <;> grind -linarith
        · have howned : Owned (s.goto a .neutralize) :=
            h.toOwned.goto nofun nofun (by rw [hat]; rfl)
          exact { howned with }
        · have hended : Ended (s.goto a .neutralize) := h.toEnded.goto nofun (by rw [hat]; rfl)
          exact { hended with }
        · exact h.reported.goto fun c hc => by rw [hat] at hc; cases hc
      · exact h.goto hat (knows_nothing rfl rfl rfl) rfl rfl rfl rfl nofun nofun

omit [DecidableEq C] [DecidableEq A] in
/-- The list of the threads is of no interest. -/
theorem Inv.threads (h : Inv s) (threads : List A) (mustExit : A → Bool) :
    Inv { s with threads := threads, mustExit := mustExit } :=
  ⟨{ h.toLocked with }, { h.toOwned with }, { h.toEnded with }, h.reported⟩

theorem Inv.neutralize_step (h : Inv s) (hat : s.place a = .neutralize)
    (hstep : placeStep s a .neutralize = some s') : Inv s' := by
  simp only [placeStep] at hstep
  split at hstep <;> cases hstep
  · exact h.goto hat (knows_nothing rfl rfl rfl) rfl rfl rfl rfl nofun nofun
  · exact (h.threads _ _).goto hat (knows_nothing rfl rfl rfl) rfl rfl rfl rfl nofun nofun

theorem Inv.kill_thread_step (h : Inv s) (hat : s.place a = .killThread b)
    (hstep : placeStep s a (.killThread b) = some s') : Inv s' := by
  simp only [placeStep] at hstep
  split at hstep
  · cases hstep
    exact h.goto hat (knows_nothing rfl rfl rfl) rfl rfl rfl rfl nofun nofun
  · next hb =>
      cases hstep
      exact h.goto hb (knows_nothing rfl rfl rfl) rfl rfl rfl rfl nofun nofun
  · cases hstep

/-- The next child is taken out of the list. -/
theorem Inv.children_step (h : Inv s) (hat : s.place a = .children)
    (hstep : placeStep s a .children = some s') : Inv s' := by
  simp only [placeStep] at hstep
  split at hstep
  · next hnil =>
      cases hstep
      exact h.goto hat (knows_nothing rfl rfl rfl) rfl rfl rfl rfl (fun _ => hnil) nofun
  · next c rest hchildren =>
      have hmem : c ∈ s.children := hchildren ▸ List.mem_cons_self
      rw [h.touch_listed hmem] at hstep
      cases hstep
      have hheld : (s.place a).holds = true := by rw [hat]; rfl
      have hnodup := h.nodup
      rw [hchildren, List.nodup_cons] at hnodup
      have hothers : ∀ b, b ≠ a → (s.place b).holds = false := fun b hb => h.others hheld hb
      have hclaim : ∀ b, b ≠ a → ∀ d, (s.place b).inHand ≠ some d ∧ d ∉ (s.place b).near :=
        fun b hb d => ⟨fun hd => absurd (Place.holds_of_in_parent (Place.in_parent_of_in_hand hd))
          (Bool.eq_false_iff.mp (hothers b hb)),
          fun hd => absurd (Place.holds_of_near hd) (Bool.eq_false_iff.mp (hothers b hb))⟩
      obtain ⟨⟨hlock, hunique, hended, hgone, hreleasing⟩,
        ⟨hintact, honce, -, hlisted, hinhand, hfound, hgrip, hnear, hmade⟩, hdead, hreported⟩ := h
      refine ⟨?_, ?_, ?_, ?_⟩
      · constructor <;> grind -linarith
      · constructor <;> grind -linarith
      · have hended : Ended (s.goto a (.child c)) := hdead.goto nofun (by rw [hat]; rfl)
        exact { hended with }
      · exact hreported.goto fun d hd => by rw [hat] at hd; cases hd

theorem Inv.child_step (h : Inv s) (hat : s.place a = .child c)
    (hstep : placeStep s a (.child c) = some s') : Inv s' := by
  obtain ⟨-, hkept, -⟩ := h.hand a c (by rw [hat]; rfl)
  simp only [placeStep, touch_of_kept hkept] at hstep
  cases hstep
  split
  · next hdone =>
      have hknows : (Place.freeing c : Place C A).Knows s :=
        ⟨nofun, nofun, fun d hd => Option.some.inj hd ▸ hdone⟩
      exact h.goto hat hknows rfl rfl rfl rfl nofun nofun
  · exact h.goto hat (knows_nothing rfl rfl rfl) rfl rfl rfl rfl nofun nofun

theorem Inv.releasing_step (h : Inv s) (hat : s.place a = .releasing)
    (hstep : placeStep s a .releasing = some s') : Inv s' := by
  cases hstep
  have hheld : (s.place a).holds = true := by rw [hat]; rfl
  have hnil := h.empty a hat
  refine ⟨?_, ?_, ?_, ?_⟩
  · obtain ⟨hlock, hunique, hended, hgone, hreleasing⟩ := h.toLocked
    constructor <;> grind -linarith
  · have howned : Owned (s.goto a .outside) := h.toOwned.goto nofun nofun (by rw [hat]; rfl)
    exact { howned with }
  · have hended : Ended (s.goto a .outside) := h.toEnded.goto nofun (by rw [hat]; rfl)
    exact { hended with }
  · exact h.reported.goto fun d hd => by rw [hat] at hd; cases hd

end Parent

/-- A step of one thread, which frees no child that another thread will use. -/
theorem Inv.place_step (h : Inv s) (hallowed : ¬ Overlooks s (.step a))
    (hstep : placeStep s a (s.place a) = some s') : Inv s' := by
  have hno : ∀ c, s.place a = .free c ∨ s.place a = .freeing c → ∀ b, (s.place b).grip ≠ some c :=
    fun c hc b hb => hallowed ⟨c, hc, b, hb⟩
  cases hat : s.place a with
  | outside | parked =>
      rw [hat] at hstep
      cases hstep
  | find use c => exact h.find_step hat (hat ▸ hstep)
  | first c block => exact h.first_step hat (hat ▸ hstep)
  | lock target block => exact h.lock_step hat (hat ▸ hstep)
  | test c block => exact h.test_step hat (hat ▸ hstep)
  | scan rest block => exact h.scan_step hat (hat ▸ hstep)
  | reap c => exact h.reap_step hat (hat ▸ hstep)
  | free c => exact h.free_step hat (hno c (.inl hat)) (hat ▸ hstep)
  | parking target => exact h.parking_step hat (hat ▸ hstep)
  | woken target => exact h.woken_step hat (hat ▸ hstep)
  | exit user c at_ => exact h.exit_step hat (hat ▸ hstep)
  | parentLock => exact h.parent_lock_step hat (hat ▸ hstep)
  | neutralize => exact h.neutralize_step hat (hat ▸ hstep)
  | killThread b => exact h.kill_thread_step hat (hat ▸ hstep)
  | children => exact h.children_step hat (hat ▸ hstep)
  | child c => exact h.child_step hat (hat ▸ hstep)
  | freeing c => exact h.freeing_step hat (hno c (.inr hat)) (hat ▸ hstep)
  | releasing => exact h.releasing_step hat (hat ▸ hstep)

theorem Inv.new_child (h : Inv s) (hstep : step s (.newChild c) = some s') : Inv s' := by
  simp only [step] at hstep
  split at hstep
  · cases hstep
  · next hnot =>
      cases hstep
      rw [not_or, not_or, Bool.not_eq_true, Bool.not_eq_false, Bool.not_eq_true] at hnot
      obtain ⟨hfree, hrunning, hunborn⟩ := hnot
      have hother : ∀ d, s.born d = true → d ≠ c := fun d hd heq => by
        rw [heq, hunborn] at hd
        cases hd
      have hnone : ∀ b, (s.place b).holds = false := fun b =>
        Bool.eq_false_iff.mpr fun hb => by
          have hlock := h.lock b hb
          rw [hfree] at hlock
          cases hlock
      obtain ⟨⟨hlock, hunique, hended, hgone, hreleasing⟩,
        ⟨hintact, honce, hnodup, hlisted, hinhand, hfound, hgrip, hnear, hmade⟩,
        ⟨hmade', hdead, hkept, halive⟩, hreported⟩ := h
      refine ⟨?_, ?_, ?_, ?_⟩
      · constructor <;> grind -linarith
      · constructor <;> grind -linarith [Function.update_apply]
      · constructor <;> grind -linarith [Function.update_apply]
      · exact hreported

theorem Inv.step (h : Inv s) {event : Event C A} (hallowed : ¬ Overlooks s event)
    (hstep : step s event = some s') : Inv s' := by
  cases event with
  | newChild c => exact h.new_child hstep
  | call a call =>
      simp only [ProcessFree.step] at hstep
      split at hstep
      · next hat =>
          cases hstep
          cases call <;>
            exact h.goto hat.1 (knows_nothing rfl rfl rfl) rfl rfl rfl rfl nofun nofun
      · cases hstep
  | childExit a c =>
      simp only [ProcessFree.step] at hstep
      split at hstep
      · next hat =>
          cases hstep
          have hknows : (Place.exit .task c .lock : Place C A).Knows s :=
            ⟨fun d hd => Option.some.inj hd ▸ h.kept c hat.2.2.2, nofun, nofun⟩
          exact h.goto hat.1 hknows rfl rfl rfl rfl nofun nofun
      · cases hstep
  | parentExit a =>
      simp only [ProcessFree.step] at hstep
      split at hstep
      · next hat =>
          cases hstep
          exact h.goto hat.1 (knows_nothing rfl rfl rfl) rfl rfl rfl rfl nofun nofun
      · cases hstep
  | step a => exact h.place_step hallowed hstep

end Steps

section Runs

variable {s : State C A}

omit [DecidableEq C] [DecidableEq A] in
theorem State.Initial.inv (h : s.Initial) : Inv s := by
  have hout := h.place
  refine ⟨⟨?_, ?_, ?_, ?_, ?_⟩, ⟨h.dangling, ?_, h.nodup, ?_, ?_, ?_, ?_, ?_, ?_⟩,
    ⟨?_, ?_, ?_, ?_⟩, fun c hc => absurd (h.reported c) hc⟩
  · exact fun a ha => by rw [hout a] at ha; cases ha
  · exact fun a _ ha => by rw [hout a] at ha; cases ha
  · exact fun a ha => by rw [hout a] at ha; cases ha
  · exact fun hended => by rw [h.parRunning] at hended; cases hended
  · exact fun a ha => by rw [hout a] at ha; cases ha
  · exact fun c => (h.freed c).symm ▸ Nat.zero_le 1
  · exact fun c hc => ⟨(h.born c).mpr hc, h.freed c⟩
  · exact fun a c ha => by rw [hout a] at ha; cases ha
  · exact fun c hc _ => .inl ((h.born c).mp hc)
  · exact fun a c ha => by rw [hout a] at ha; cases ha
  · exact fun a c ha => by rw [hout a] at ha; cases ha
  · exact fun c hc => absurd (h.freed c) hc
  · exact fun c hc => by rw [h.ended c] at hc; cases hc
  · exact fun a c ha => by rw [hout a] at ha; cases ha
  · exact fun c hc => ⟨(h.born c).mpr (h.alive c hc), h.freed c⟩
  · exact fun c _ hc => by rw [h.ended c] at hc; cases hc

omit [DecidableEq C] [DecidableEq A] in
theorem Inv.outlived (h : Inv s) : Outlived s where
  intact := h.intact
  once := h.once
  report := fun c => by
    by_cases hc : s.reported c = 0
    · rw [hc]
      exact Nat.zero_le 1
    · exact Nat.le_of_eq (h.reported c hc).1
  waited := fun c hc hnone => by
    have hsome : s.reported c ≠ 0 := fun hzero => by
      rw [hzero] at hc
      cases hc
    exact (h.reported c hsome).2.resolve_right fun ⟨a, ha⟩ => hnone a ha
  all := fun hended hreturned c hborn => by
    by_contra hnot
    have hkept : s.freed c = 0 := by
      have honce := h.once c
      omega
    rcases h.found c hborn hkept with hc | ⟨a, ha⟩
    · rw [h.gone hended hreturned] at hc
      cases hc
    · have hin := Place.in_parent_of_in_hand ha
      rw [hreturned a] at hin
      cases hin

/-- In every run in which no `process_t` is freed while another thread has a bare pointer to it that
it will use, the structures outlive their users. -/
theorem process_outlives (h : Reachable (runs fun s event => ¬ Overlooks s event) s) :
    Outlived s := by
  have hinv : Inv s := Reachable.induct (motive := Inv) (fun s hinit => State.Initial.inv hinit)
    (fun s s' hs hstep => by
      obtain ⟨event, hallowed, hstep⟩ := hstep
      exact hs.step hallowed hstep) h
  exact hinv.outlived

end Runs

section Examples

/-- A parent with one thread and two children, and two workers. -/
def twoChildren : State (Fin 2) (Fin 3) where
  parLock := false
  parRunning := true
  threads := [0]
  mustExit := fun _ => false
  children := [0, 1]
  born := fun _ => true
  alive := fun _ => true
  ended := fun _ => false
  childLock := fun _ => false
  freed := fun _ => 0
  reported := fun _ => 0
  dangling := false
  place := fun _ => .outside

theorem two_children_initial : twoChildren.Initial := by
  constructor <;> decide

/-- Nobody has a pointer to the child that is freed. -/
def careful (s : State (Fin 2) (Fin 3)) : Event (Fin 2) (Fin 3) → Bool
  | .step a =>
      match s.place a with
      | .free c | .freeing c => (List.finRange 3).all fun b => (s.place b).grip != some c
      | _ => true
  | _ => true

theorem not_overlooks_of_careful (s : State (Fin 2) (Fin 3)) (event : Event (Fin 2) (Fin 3))
    (h : careful s event = true) : ¬ Overlooks s event := by
  cases event with
  | newChild | call | childExit | parentExit => exact id
  | step a =>
      rintro ⟨c, hat, b, hb⟩
      simp only [careful] at h
      rcases hat with hat | hat <;>
      · rw [hat] at h
        have hall := List.all_eq_true.mp h b (List.mem_finRange b)
        rw [hb, bne_self_eq_false] at hall
        cases hall

/-- A child ends and is waited for; then the parent ends, with its other child. -/
theorem process_outlives_both : ∃ s : State (Fin 2) (Fin 3),
    s.freed 0 = 1 ∧ s.freed 1 = 1 ∧ s.reported 0 = 1 ∧ Outlived s := by
  have hrun : (runEvents step careful
      ([.childExit 1 0] ++ List.replicate 6 (.step 1) ++ [.call 0 (.wait 0 true)] ++
        List.replicate 6 (.step 0) ++ [.parentExit 2] ++ List.replicate 13 (.step 2))
      twoChildren).map (fun s => s.freed 0 == 1 && s.freed 1 == 1 && s.reported 0 == 1) =
        some true := by
    decide +kernel
  obtain ⟨s, hrun, htest⟩ := Option.map_eq_some_iff.mp hrun
  simp only [Bool.and_eq_true, beq_iff_eq] at htest
  exact ⟨s, htest.1.1, htest.1.2, htest.2, process_outlives (Reachable.run_events
    not_overlooks_of_careful (.init two_children_initial) hrun)⟩

/-- The parent ends while its child does, and frees the structure that `process_exit` of the child
still uses. -/
theorem process_used_after_free : ¬ ∀ s : State (Fin 2) (Fin 3),
    Reachable (runs fun _ _ => True) s → Outlived s := by
  intro hclaim
  have hrun : (runEvents step (fun _ _ => true)
      ([.childExit 1 0, .step 1, .parentExit 2] ++ List.replicate 7 (.step 2) ++ [.step 1])
      twoChildren).map (fun s => s.dangling) = some true := by
    decide +kernel
  obtain ⟨s, hrun, hdangling⟩ := Option.map_eq_some_iff.mp hrun
  have hintact := (hclaim s (Reachable.run_events (fun _ _ _ => trivial)
    (.init two_children_initial) hrun)).intact
  rw [hdangling] at hintact
  cases hintact

end Examples

end Kogata.Kernel.ProcessFree
