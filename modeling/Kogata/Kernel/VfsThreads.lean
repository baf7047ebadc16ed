import Kogata.Lib.Run
import Mathlib.Data.List.Basic
import Mathlib.Logic.Function.Basic
import Mathlib.Tactic.Common

/-!
# Threads in the node tree

The functions of `kernel/user/vfs.c` on the nodes of one file system, run by any number of
threads, from one `mutex_lock` or `mutex_unlock` of a node to the next. `fs_open` with `FM_CREATE`
is a walk that fails, `fs_create`, and `fs_open`. The lock of the file system and those of the
handles are not held across any of these steps and are left out. A node is known by a number; a
node that has been freed keeps it.
-/

namespace Kogata.Kernel.VfsThreads

open Lib.Run

/-- The identity of an `fs_node_t`. -/
abbrev NodeNo := Nat

/-- `fs->root`. -/
abbrev rootNode : NodeNo := 0

/-- What is done at the node that the path leads to: `fs_stat`, `fs_open`, `fs_create` of a name
and `fs_delete` of a name. -/
inductive Section (κ : Type) where
  | stat
  | openNode
  | create (name : κ)
  | delete (name : κ)
  deriving DecidableEq

/-- What follows `unref_fs_node`: the walk goes on from a node that is referenced, or the call
comes back. -/
inductive Next (κ : Type) where
  | walk (n : NodeNo) (items : List (Option κ)) (last : Section κ)
  | finish
  deriving DecidableEq

/-- Where a thread is. In the order of the code: outside; in `ref_fs_node` of the root, at its
`mutex_lock` and behind it; in `fs_walk_one`, at `mutex_lock(&from->lock)`, at the search, in
`ref_fs_node` of the child that was found, at `mutex_unlock(&from->lock)`, and where a node was
made, in `ref_fs_node(n->parent)`; in `unref_fs_node`, at its `mutex_lock` and behind it, and at
`mutex_lock(&n->parent->lock)` and behind it; at the node that the path leads to, in front of its
lock, at its `mutex_lock` and behind it. An item of a path that is empty or too long is `none`.
`dead` are the nodes whose last reference the thread has dropped, from which the recursion of
`unref_fs_node` has come. -/
inductive Place (κ : Type) where
  | outside
  | startLock (items : List (Option κ)) (last : Section κ)
  | startHeld (items : List (Option κ)) (last : Section κ)
  | walkLock (n : NodeNo) (item : κ) (rest : List (Option κ)) (last : Section κ)
  | walkFind (n : NodeNo) (item : κ) (rest : List (Option κ)) (last : Section κ)
  | childLock (n c : NodeNo) (rest : List (Option κ)) (last : Section κ)
  | childHeld (n c : NodeNo) (rest : List (Option κ)) (last : Section κ)
  | walkFound (n : NodeNo) (next : Next κ)
  | walkNew (n c : NodeNo) (rest : List (Option κ)) (last : Section κ)
  | linkLock (n c : NodeNo) (rest : List (Option κ)) (last : Section κ)
  | linkHeld (n c : NodeNo) (rest : List (Option κ)) (last : Section κ)
  | unrefLock (n : NodeNo) (dead : List NodeNo) (next : Next κ)
  | unrefHeld (n : NodeNo) (dead : List NodeNo) (next : Next κ)
  | parentLock (n p : NodeNo) (dead : List NodeNo) (next : Next κ)
  | parentHeld (n p : NodeNo) (dead : List NodeNo) (next : Next κ)
  | arrived (n : NodeNo) (last : Section κ)
  | sectionLock (n : NodeNo) (last : Section κ)
  | sectionHeld (n : NodeNo) (last : Section κ)
  deriving DecidableEq

/-- The nodes, the nodes of the open handles, and the threads. Nodes from `next` on have not been
made. `took` are the references that the call of a thread has taken and not released, and that
nothing else owns. -/
structure State (κ T : Type) where
  lock : NodeNo → Bool
  refs : NodeNo → Int
  children : NodeNo → κ → Option NodeNo
  parent : NodeNo → Option NodeNo
  name : NodeNo → Option κ
  next : NodeNo
  handles : List NodeNo
  place : T → Place κ
  took : T → List NodeNo

/-- What a thread may do next: call a function on a path, call `unref_file` on a handle with one
reference, or go on; `answer` is what the driver answers, and `malloc`. -/
inductive Act (κ : Type) where
  | call (items : List (Option κ)) (last : Section κ)
  | unrefFile (n : NodeNo)
  | step (answer : Bool)
  deriving DecidableEq

/-- A thread does something. -/
structure Event (κ T : Type) where
  thread : T
  act : Act κ
  deriving DecidableEq

variable {κ T : Type}

section Steps

variable [DecidableEq κ] [DecidableEq T]

/-- The thread is at another place, with other references. -/
def State.move (s : State κ T) (t : T) (place : Place κ) (took : List NodeNo) : State κ T :=
  { s with place := Function.update s.place t place, took := Function.update s.took t took }

/-- The mutex of a node. -/
def State.setLock (s : State κ T) (n : NodeNo) (b : Bool) : State κ T :=
  { s with lock := Function.update s.lock n b }

/-- `n->refs`. -/
def State.addRefs (s : State κ T) (n : NodeNo) (k : Int) : State κ T :=
  { s with refs := Function.update s.refs n (s.refs n + k) }

/-- The binding of a name in `n->children`. -/
def State.setChild (s : State κ T) (n : NodeNo) (name : κ) (c : Option NodeNo) : State κ T :=
  { s with children := Function.update s.children n (Function.update (s.children n) name c) }

/-- The node that `fs_walk_one` makes and binds. -/
def State.newNode (s : State κ T) (n : NodeNo) (name : κ) : State κ T :=
  { s.setChild n name (some s.next) with
    refs := Function.update s.refs s.next 1
    parent := Function.update s.parent s.next (some n)
    name := Function.update s.name s.next (some name)
    next := s.next + 1 }

/-- The head of the loop of a walk, at a node that the thread has a reference to. -/
def walkOn (n : NodeNo) (last : Section κ) : List (Option κ) → Place κ
  | [] => .arrived n last
  | some item :: rest => .walkLock n item rest last
  | none :: _ => .unrefLock n [] .finish

/-- Behind `unref_fs_node`. -/
def Next.place : Next κ → Place κ
  | .walk n items last => walkOn n last items
  | .finish => .outside

/-- A step of a thread. -/
def threadStep (s : State κ T) (t : T) : Act κ → Option (State κ T)
  | .call items last =>
      if s.place t = .outside then some (s.move t (.startLock items last) (s.took t)) else none
  | .unrefFile n =>
      -- the reference of the handle goes to the call
      if s.place t = .outside ∧ n ∈ s.handles then
        some { s.move t (.unrefLock n [] .finish) (n :: s.took t) with
          handles := s.handles.erase n }
      else none
  | .step answer =>
      match s.place t with
      | .outside => none
      | .startLock items last =>
          if s.lock rootNode then none
          else some ((s.setLock rootNode true).move t (.startHeld items last) (s.took t))
      | .startHeld items last =>
          some (((s.addRefs rootNode 1).setLock rootNode false).move t (walkOn rootNode last items)
            (rootNode :: s.took t))
      | .walkLock n item rest last =>
          if s.lock n then none
          else some ((s.setLock n true).move t (.walkFind n item rest last) (s.took t))
      | .walkFind n item rest last =>
          match s.children n item with
          | some c => some (s.move t (.childLock n c rest last) (s.took t))
          | none =>
              if answer then
                some ((s.newNode n item).move t (.walkNew n s.next rest last) (s.next :: s.took t))
              else some (s.move t (.walkFound n .finish) (s.took t))
      | .childLock n c rest last =>
          if s.lock c then none
          else some ((s.setLock c true).move t (.childHeld n c rest last) (s.took t))
      | .childHeld n c rest last =>
          some (((s.addRefs c 1).setLock c false).move t (.walkFound n (.walk c rest last))
            (c :: s.took t))
      | .walkFound n next =>
          some ((s.setLock n false).move t (.unrefLock n [] next) (s.took t))
      | .walkNew n c rest last =>
          some ((s.setLock n false).move t (.linkLock n c rest last) (s.took t))
      | .linkLock n c rest last =>
          if s.lock n then none
          else some ((s.setLock n true).move t (.linkHeld n c rest last) (s.took t))
      | .linkHeld n c rest last =>
          some (((s.addRefs n 1).setLock n false).move t (.unrefLock n [] (.walk c rest last))
            (s.took t))
      | .unrefLock n dead next =>
          if s.lock n then none
          else some ((s.setLock n true).move t (.unrefHeld n dead next) (s.took t))
      | .unrefHeld n dead next =>
          -- the reference of a node that is dead was that of its child
          let took := if dead = [] then (s.took t).erase n else s.took t
          if s.refs n - 1 = 0 then
            match s.parent n with
            | none => none
            | some p => some ((s.addRefs n (-1)).move t (.parentLock n p dead next) took)
          else some (((s.addRefs n (-1)).setLock n false).move t next.place took)
      | .parentLock n p dead next =>
          if s.lock p then none
          else some ((s.setLock p true).move t (.parentHeld n p dead next) (s.took t))
      | .parentHeld n p dead next =>
          match s.name n with
          | none => none
          | some name =>
              some (((s.setChild p name none).setLock p false).move t
                (.unrefLock p (n :: dead) next) (s.took t))
      | .arrived n last =>
          match last with
          | .delete name =>
              -- the table is read without the lock, and the reference is kept
              if (s.children n name).isSome then some (s.move t .outside (s.took t))
              else some (s.move t (.sectionLock n last) (s.took t))
          | _ => some (s.move t (.sectionLock n last) (s.took t))
      | .sectionLock n last =>
          if s.lock n then none
          else some ((s.setLock n true).move t (.sectionHeld n last) (s.took t))
      | .sectionHeld n last =>
          if last = .openNode ∧ answer = true then
            some { (s.setLock n false).move t .outside ((s.took t).erase n) with
              handles := n :: s.handles }
          else some ((s.setLock n false).move t (.unrefLock n [] .finish) (s.took t))

/-- The state after an event. -/
def step (s : State κ T) (event : Event κ T) : Option (State κ T) :=
  threadStep s event.thread event.act

/-- The file system as `make_fs` returns it: the root is its only node. -/
structure State.Initial (s : State κ T) : Prop where
  lock : ∀ n, s.lock n = false
  refs : s.refs rootNode = 1
  children : ∀ n name, s.children n name = none
  parent : ∀ n, s.parent n = none
  next : s.next = 1
  handles : s.handles = []
  place : ∀ t, s.place t = .outside
  took : ∀ t, s.took t = []

/-- The runs in which every event is allowed where it happens. -/
abbrev runs (allowed : State κ T → Event κ T → Prop) : System (State κ T) :=
  eventRuns State.Initial step allowed

/-- The node whose mutex the thread takes next. -/
def Place.wants : Place κ → Option NodeNo
  | .startLock .. => some rootNode
  | .walkLock n .. | .linkLock n .. | .unrefLock n .. | .sectionLock n _ => some n
  | .childLock _ c .. => some c
  | .parentLock _ p .. => some p
  | _ => none

/-- The place behind the mutex that the thread takes next. -/
def Place.behindLock : Place κ → Place κ
  | .startLock items last => .startHeld items last
  | .walkLock n item rest last => .walkFind n item rest last
  | .childLock n c rest last => .childHeld n c rest last
  | .linkLock n c rest last => .linkHeld n c rest last
  | .unrefLock n dead next => .unrefHeld n dead next
  | .parentLock n p dead next => .parentHeld n p dead next
  | .sectionLock n last => .sectionHeld n last
  | place => place

/-- The steps of a thread, by its place. -/
inductive ThreadStep (s : State κ T) (t : T) : Act κ → State κ T → Prop
  | call {items last} : s.place t = .outside →
      ThreadStep s t (.call items last) (s.move t (.startLock items last) (s.took t))
  | unrefFile {n} : s.place t = .outside → n ∈ s.handles →
      ThreadStep s t (.unrefFile n) { s.move t (.unrefLock n [] .finish) (n :: s.took t) with
        handles := s.handles.erase n }
  | lock {n answer} : (s.place t).wants = some n → s.lock n = false →
      ThreadStep s t (.step answer) ((s.setLock n true).move t (s.place t).behindLock (s.took t))
  | start {items last answer} : s.place t = .startHeld items last →
      ThreadStep s t (.step answer) (((s.addRefs rootNode 1).setLock rootNode false).move t
        (walkOn rootNode last items) (rootNode :: s.took t))
  | found {n item rest last c answer} : s.place t = .walkFind n item rest last →
      s.children n item = some c →
      ThreadStep s t (.step answer) (s.move t (.childLock n c rest last) (s.took t))
  | make {n item rest last} : s.place t = .walkFind n item rest last →
      s.children n item = none → ThreadStep s t (.step true)
        ((s.newNode n item).move t (.walkNew n s.next rest last) (s.next :: s.took t))
  | giveUp {n item rest last answer} : s.place t = .walkFind n item rest last →
      ThreadStep s t (.step answer) (s.move t (.walkFound n .finish) (s.took t))
  | refer {n c rest last answer} : s.place t = .childHeld n c rest last →
      ThreadStep s t (.step answer) (((s.addRefs c 1).setLock c false).move t
        (.walkFound n (.walk c rest last)) (c :: s.took t))
  | leave {n next answer} : s.place t = .walkFound n next →
      ThreadStep s t (.step answer) ((s.setLock n false).move t (.unrefLock n [] next) (s.took t))
  | leaveNew {n c rest last answer} : s.place t = .walkNew n c rest last →
      ThreadStep s t (.step answer) ((s.setLock n false).move t (.linkLock n c rest last) (s.took t))
  | link {n c rest last answer} : s.place t = .linkHeld n c rest last →
      ThreadStep s t (.step answer) (((s.addRefs n 1).setLock n false).move t
        (.unrefLock n [] (.walk c rest last)) (s.took t))
  | last {n dead next p answer} : s.place t = .unrefHeld n dead next → s.refs n - 1 = 0 →
      s.parent n = some p →
      ThreadStep s t (.step answer) ((s.addRefs n (-1)).move t (.parentLock n p dead next)
        (if dead = [] then (s.took t).erase n else s.took t))
  | unref {n dead next answer} : s.place t = .unrefHeld n dead next →
      ThreadStep s t (.step answer) (((s.addRefs n (-1)).setLock n false).move t next.place
        (if dead = [] then (s.took t).erase n else s.took t))
  | unbind {n p dead next name answer} : s.place t = .parentHeld n p dead next →
      ThreadStep s t (.step answer) (((s.setChild p name none).setLock p false).move t
        (.unrefLock p (n :: dead) next) (s.took t))
  | refuse {n name answer} : s.place t = .arrived n (.delete name) →
      (s.children n name).isSome → ThreadStep s t (.step answer) (s.move t .outside (s.took t))
  | arrive {n last answer} : s.place t = .arrived n last →
      (∀ name, last = .delete name → s.children n name = none) →
      ThreadStep s t (.step answer) (s.move t (.sectionLock n last) (s.took t))
  | keep {n last answer} : s.place t = .sectionHeld n last →
      ThreadStep s t (.step answer) { (s.setLock n false).move t .outside ((s.took t).erase n) with
        handles := n :: s.handles }
  | done {n last answer} : s.place t = .sectionHeld n last →
      ThreadStep s t (.step answer) ((s.setLock n false).move t (.unrefLock n [] .finish) (s.took t))

/-- A thread makes no other steps. -/
theorem thread_step_cases {s s' : State κ T} {t : T} {act : Act κ}
    (hstep : threadStep s t act = some s') : ThreadStep s t act s' := by
  cases act with
  | call items last =>
      simp only [threadStep] at hstep
      split at hstep <;> cases hstep
      next hout => exact .call hout
  | unrefFile n =>
      simp only [threadStep] at hstep
      split at hstep <;> cases hstep
      next hout => exact .unrefFile hout.1 hout.2
  | step answer =>
      simp only [threadStep] at hstep
      cases hplace : s.place t with
      | outside =>
          rw [hplace] at hstep
          cases hstep
      | startLock | walkLock | childLock | linkLock | unrefLock | parentLock | sectionLock =>
          rw [hplace] at hstep
          simp only at hstep
          split at hstep <;> cases hstep
          next hfree =>
            have hlock : ThreadStep s t (.step answer) _ :=
              .lock (congrArg Place.wants hplace) (Bool.eq_false_iff.mpr hfree)
            rw [hplace] at hlock
            exact hlock
      | startHeld =>
          rw [hplace] at hstep
          cases hstep
          exact .start hplace
      | walkFind n item rest last =>
          rw [hplace] at hstep
          simp only at hstep
          split at hstep
          · next hc =>
              cases hstep
              exact .found hplace hc
          · next hc =>
              split at hstep <;> cases hstep
              · next hanswer => exact hanswer ▸ .make hplace hc
              · exact .giveUp hplace
      | childHeld =>
          rw [hplace] at hstep
          cases hstep
          exact .refer hplace
      | walkFound =>
          rw [hplace] at hstep
          cases hstep
          exact .leave hplace
      | walkNew =>
          rw [hplace] at hstep
          cases hstep
          exact .leaveNew hplace
      | linkHeld =>
          rw [hplace] at hstep
          cases hstep
          exact .link hplace
      | unrefHeld n dead next =>
          rw [hplace] at hstep
          simp only at hstep
          split at hstep
          · next hlast =>
              split at hstep <;> cases hstep
              next hp => exact .last hplace hlast hp
          · cases hstep
            exact .unref hplace
      | parentHeld n p dead next =>
          rw [hplace] at hstep
          simp only at hstep
          split at hstep <;> cases hstep
          exact .unbind hplace
      | arrived n last =>
          rw [hplace] at hstep
          cases last with
          | delete name =>
              simp only at hstep
              split at hstep <;> cases hstep
              · next hbound => exact .refuse hplace hbound
              · next hfree =>
                  refine .arrive hplace fun name' heq => ?_
                  cases heq
                  exact Option.not_isSome_iff_eq_none.mp hfree
          | _ =>
              cases hstep
              exact .arrive hplace fun name heq => by cases heq
      | sectionHeld n last =>
          rw [hplace] at hstep
          simp only at hstep
          split at hstep <;> cases hstep
          · exact .keep hplace
          · exact .done hplace

end Steps

/-- The nodes that the thread has dropped the last reference of. -/
def Place.dying : Place κ → List NodeNo
  | .unrefLock _ dead _ | .unrefHeld _ dead _ => dead
  | .parentLock n _ dead _ | .parentHeld n _ dead _ => n :: dead
  | _ => []

/-- The nodes whose mutexes the thread has. -/
def Place.holds : Place κ → List NodeNo
  | .startHeld .. => [rootNode]
  | .walkFind n .. | .childLock n .. | .walkFound n _ | .walkNew n .. => [n]
  | .linkHeld n .. | .sectionHeld n _ => [n]
  | .childHeld n c .. => [c, n]
  | .unrefLock _ dead _ => dead
  | .unrefHeld n dead _ => n :: dead
  | .parentLock n _ dead _ => n :: dead
  | .parentHeld n p dead _ => p :: n :: dead
  | _ => []

/-- The nodes behind `unref_fs_node`. -/
def Next.nodes : Next κ → List NodeNo
  | .walk n _ _ => [n]
  | .finish => []

/-- The nodes that the thread works on, without those of `dead`. -/
def Place.nodes : Place κ → List NodeNo
  | .startHeld .. => [rootNode]
  | .walkLock n .. | .walkFind n .. | .arrived n _ | .sectionLock n _ | .sectionHeld n _ => [n]
  | .childLock n c .. | .childHeld n c .. | .walkNew n c .. | .linkLock n c .. | .linkHeld n c .. =>
      [n, c]
  | .walkFound n next | .unrefLock n _ next | .unrefHeld n _ next => n :: next.nodes
  | .parentLock n p _ next | .parentHeld n p _ next => n :: p :: next.nodes
  | _ => []

/-- The node that is locked second is younger than the other in a walk, and older in
`unref_fs_node`. -/
def Place.Ordered : Place κ → Prop
  | .childLock n c .. | .childHeld n c .. | .walkNew n c .. => n < c
  | .unrefLock n dead _ | .unrefHeld n dead _ => ∀ d ∈ dead, n < d
  | .parentLock n p dead _ | .parentHeld n p dead _ => p < n ∧ ∀ d ∈ dead, n < d
  | _ => True

/-- Children are younger than their parents, and only nodes that were made are in use. -/
structure Aged (s : State κ T) : Prop where
  children : ∀ p name c, s.children p name = some c → p < c ∧ c < s.next
  parent : ∀ c p, s.parent c = some p → p < c ∧ p < s.next
  next : rootNode < s.next
  handles : ∀ n ∈ s.handles, n < s.next
  nodes : ∀ t, ∀ n ∈ (s.place t).nodes, n < s.next
  ordered : ∀ t, (s.place t).Ordered

section Aged

variable {s s' : State κ T} {t : T} {n : NodeNo}

theorem State.Initial.aged (h : s.Initial) : Aged s where
  children := fun p name c hc => by rw [h.children] at hc; cases hc
  parent := fun c p hp => by rw [h.parent] at hp; cases hp
  next := by rw [h.next]; exact Nat.zero_lt_one
  handles := fun n hn => by rw [h.handles] at hn; cases hn
  nodes := fun t n hn => by rw [h.place] at hn; cases hn
  ordered := fun t => by rw [h.place]; trivial

theorem Aged.set_lock (h : Aged s) (n : NodeNo) (b : Bool) : Aged (s.setLock n b) :=
  ⟨h.children, h.parent, h.next, h.handles, h.nodes, h.ordered⟩

theorem Aged.add_refs (h : Aged s) (n : NodeNo) (k : Int) : Aged (s.addRefs n k) :=
  ⟨h.children, h.parent, h.next, h.handles, h.nodes, h.ordered⟩

theorem Aged.set_handles (h : Aged s) {handles : List NodeNo}
    (hhandles : ∀ n ∈ handles, n < s.next) : Aged { s with handles := handles } :=
  ⟨h.children, h.parent, h.next, hhandles, h.nodes, h.ordered⟩

theorem Aged.unbind [DecidableEq κ] (h : Aged s) (p : NodeNo) (name : κ) :
    Aged (s.setChild p name none) where
  children := fun q name' c hc => by
    simp only [State.setChild, Function.update_apply] at hc
    split at hc
    · next hq =>
        rw [Function.update_apply] at hc
        split at hc
        · cases hc
        · exact h.children q name' c (hq ▸ hc)
    · exact h.children q name' c hc
  parent := h.parent
  next := h.next
  handles := h.handles
  nodes := h.nodes
  ordered := h.ordered

theorem Aged.new_node [DecidableEq κ] (h : Aged s) (hn : n < s.next) (name : κ) :
    Aged (s.newNode n name) where
  children := fun q name' c hc => by
    have hold : s.children q name' = some c → q < c ∧ c < s.next + 1 := fun hc =>
      (h.children q name' c hc).imp_right Nat.lt_succ_of_lt
    simp only [State.newNode, State.setChild, Function.update_apply] at hc
    split at hc
    · next hq =>
        rw [Function.update_apply] at hc
        split at hc
        · cases hc
          exact ⟨hq ▸ hn, Nat.lt_succ_self _⟩
        · exact hold (hq ▸ hc)
    · exact hold hc
  parent := fun c p hp => by
    simp only [State.newNode, Function.update_apply] at hp
    split at hp
    · next hc =>
        cases hp
        exact ⟨hc ▸ hn, Nat.lt_succ_of_lt hn⟩
    · exact (h.parent c p hp).imp_right Nat.lt_succ_of_lt
  next := Nat.lt_succ_of_lt h.next
  handles := fun m hm => Nat.lt_succ_of_lt (h.handles m hm)
  nodes := fun u m hm => Nat.lt_succ_of_lt (h.nodes u m hm)
  ordered := h.ordered

variable [DecidableEq T]

/-- A thread goes to a place with nodes that were made. -/
theorem Aged.move (h : Aged s) {place : Place κ} {took : List NodeNo}
    (hnodes : ∀ n ∈ place.nodes, n < s.next) (hordered : place.Ordered) :
    Aged (s.move t place took) where
  children := h.children
  parent := h.parent
  next := h.next
  handles := h.handles
  nodes := fun u => by
    by_cases hu : u = t
    · simpa [State.move, hu] using hnodes
    · simpa [State.move, hu] using h.nodes u
  ordered := fun u => by
    by_cases hu : u = t
    · simpa [State.move, hu] using hordered
    · simpa [State.move, hu] using h.ordered u

theorem walk_on_nodes (n : NodeNo) (last : Section κ) (items : List (Option κ)) :
    (walkOn n last items).nodes = [n] ∧ (walkOn n last items).Ordered := by
  cases items with
  | nil => exact ⟨rfl, trivial⟩
  | cons item rest => cases item <;> simp [walkOn, Place.nodes, Next.nodes, Place.Ordered]

theorem next_place_nodes (next : Next κ) :
    next.place.nodes = next.nodes ∧ next.place.Ordered := by
  cases next with
  | walk n items last => exact walk_on_nodes n last items
  | finish => exact ⟨rfl, trivial⟩

/-- The thread takes a mutex. -/
theorem Aged.lock (h : Aged s) (b : Bool) (took : List NodeNo) :
    Aged ((s.setLock n b).move t (s.place t).behindLock took) := by
  have hnodes := h.nodes t
  have hordered := h.ordered t
  refine (h.set_lock n b).move (fun m hm => ?_) ?_
  · cases hplace : s.place t with
    | startLock =>
        rw [hplace] at hm
        exact List.mem_singleton.mp hm ▸ h.next
    | _ =>
        rw [hplace] at hm hnodes
        exact hnodes m hm
  · cases hplace : s.place t with
    | childLock | unrefLock | parentLock | childHeld | walkNew | unrefHeld | parentHeld =>
        rw [hplace] at hordered
        exact hordered
    | _ => trivial

variable [DecidableEq κ]

/-- What a step of a thread keeps. -/
theorem Aged.step (h : Aged s) {act : Act κ} (hstep : threadStep s t act = some s') : Aged s' := by
  have hnodes := h.nodes t
  have hordered := h.ordered t
  cases thread_step_cases hstep with
  | call => exact h.move (fun n hn => by cases hn) trivial
  | @unrefFile n _ hn =>
      have hmoved : Aged (s.move t (.unrefLock n [] .finish) (n :: s.took t)) :=
        h.move (fun m hm => List.mem_singleton.mp hm ▸ h.handles n hn)
          fun d hd => absurd hd List.not_mem_nil
      exact hmoved.set_handles fun m hm => h.handles m (List.mem_of_mem_erase hm)
  | lock => exact h.lock _ _
  | @start items last =>
      obtain ⟨hmem, hord⟩ := walk_on_nodes rootNode last items
      refine ((h.add_refs _ _).set_lock _ _).move (fun m hm => ?_) hord
      rw [hmem] at hm
      exact List.mem_singleton.mp hm ▸ h.next
  | @found n item _ _ c _ hplace hc =>
      rw [hplace] at hnodes
      obtain ⟨hlt, hnext⟩ := h.children n item c hc
      refine h.move (fun m hm => ?_) hlt
      simp only [Place.nodes, List.mem_cons, List.not_mem_nil, or_false] at hm
      rcases hm with rfl | rfl
      · exact hnodes m List.mem_cons_self
      · exact hnext
  | @make n item _ _ hplace =>
      rw [hplace] at hnodes
      have hn : n < s.next := hnodes n List.mem_cons_self
      refine (h.new_node hn item).move (fun m hm => ?_) hn
      simp only [Place.nodes, List.mem_cons, List.not_mem_nil, or_false] at hm
      rcases hm with rfl | rfl
      · exact Nat.lt_succ_of_lt hn
      · exact Nat.lt_succ_self _
  | giveUp hplace =>
      rw [hplace] at hnodes
      exact h.move hnodes trivial
  | refer hplace =>
      rw [hplace] at hnodes
      exact ((h.add_refs _ _).set_lock _ _).move hnodes trivial
  | leave hplace =>
      rw [hplace] at hnodes
      exact (h.set_lock _ _).move hnodes fun d hd => absurd hd List.not_mem_nil
  | leaveNew hplace =>
      rw [hplace] at hnodes
      exact (h.set_lock _ _).move hnodes trivial
  | link hplace =>
      rw [hplace] at hnodes
      exact ((h.add_refs _ _).set_lock _ _).move hnodes fun d hd => absurd hd List.not_mem_nil
  | @last n dead next p _ hplace _ hp =>
      rw [hplace] at hnodes hordered
      obtain ⟨hlt, hnext⟩ := h.parent n p hp
      refine (h.add_refs _ _).move (fun m hm => ?_) ⟨hlt, hordered⟩
      simp only [Place.nodes, List.mem_cons] at hm
      rcases hm with rfl | rfl | hm
      · exact hnodes m List.mem_cons_self
      · exact hnext
      · exact hnodes m (List.mem_cons_of_mem _ hm)
  | @unref n dead next _ hplace =>
      rw [hplace] at hnodes
      obtain ⟨hmem, hord⟩ := next_place_nodes next
      refine ((h.add_refs _ _).set_lock _ _).move (fun m hm => ?_) hord
      rw [hmem] at hm
      exact hnodes m (List.mem_cons_of_mem _ hm)
  | unbind hplace =>
      rw [hplace] at hnodes hordered
      refine ((h.unbind _ _).set_lock _ _).move
        (fun m hm => hnodes m (List.mem_cons_of_mem _ hm)) fun d hd => ?_
      rcases List.mem_cons.mp hd with rfl | hd
      · exact hordered.1
      · exact Nat.lt_trans hordered.1 (hordered.2 d hd)
  | refuse => exact h.move (fun m hm => by cases hm) trivial
  | arrive hplace =>
      rw [hplace] at hnodes
      exact h.move hnodes trivial
  | @keep n _ _ hplace =>
      rw [hplace] at hnodes
      have hmoved : Aged ((s.setLock n false).move t .outside ((s.took t).erase n)) :=
        (h.set_lock n false).move (fun m hm => absurd hm List.not_mem_nil) trivial
      exact hmoved.set_handles (List.forall_mem_cons.mpr ⟨hnodes n List.mem_cons_self, h.handles⟩)
  | done hplace =>
      rw [hplace] at hnodes
      exact (h.set_lock _ _).move hnodes fun d hd => absurd hd List.not_mem_nil

end Aged

section Example

/-- A file system as it is made, with numbers for names, and two threads. -/
def start : State Nat Bool where
  lock := fun _ => false
  refs := fun _ => 1
  children := fun _ _ => none
  parent := fun _ => none
  name := fun _ => none
  next := 1
  handles := []
  place := fun _ => .outside
  took := fun _ => []

theorem start_initial : start.Initial := by
  constructor <;> intros <;> rfl

/-- Steps of one thread. -/
def steps (t : Bool) (k : Nat) : List (Event Nat Bool) :=
  List.replicate k ⟨t, .step true⟩

end Example

end Kogata.Kernel.VfsThreads
