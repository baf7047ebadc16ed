import Mathlib.Logic.Function.Basic
import Kogata.Lib.LinkedQueue
import Kogata.Lib.Run
import Mathlib.Algebra.GroupWithZero.Nat

/-!
# The scheduler queue

The queue of `kernel/core/thread.c`, threaded through `next_in_queue` of the threads. There is one
processor: a step is what runs without being interrupted, and a call that can be interrupted in the
middle is divided there. Interrupts are enabled where `critical_level` is below `CL_NOINT`.
`kill_thread` does not enter that level, and `start_thread` does after the new state is assigned:
the queue holds the running threads (`queue_keeps_running`) in the runs in which no interrupt comes
at these places, and is broken by one that does (`killed_while_woken`). In `exit` the wait for
memory that the `malloc` of `worker_push` may come to is left out.
-/

namespace Kogata.Kernel.RunQueue

open Lib.Links Lib.Run

/-- A `thread_t*`, which is null where it is zero. -/
abbrev ThreadPtr := Nat

abbrev clExcl : Nat := 3
abbrev clNoint : Nat := 2
abbrev clNoswitch : Nat := 1
abbrev clUser : Nat := 0

/-- `T_STATE_LOADING` to `T_STATE_FINISHED`. -/
inductive TState where
  | loading
  | running
  | paused
  | finished
  deriving DecidableEq

/-- The words that hold the links of the queue: `queue_first_thread` and the fields
`next_in_queue`. -/
inductive Word where
  | first
  | next (t : ThreadPtr)
  deriving DecidableEq

/-- The links and `queue_last_thread`. -/
structure ThreadQueue where
  word : Word → ThreadPtr
  queueLastThread : ThreadPtr

/-- The next statement of `enqueue_thread`, called by `kill_thread`. -/
inductive Insert where
  | test
  | both
  | null
  | link
  | head
  deriving DecidableEq

/-- Where a thread is: in none of the calls; in `start_thread` before `enter_critical`; in
`wait_on_many` behind the switch; in `kill_thread` at the test of the loop, where it has read
`T_STATE_PAUSED`, in `enqueue_thread` and at `yield`; in `exit` before `T_STATE_FINISHED` is
assigned, and at its `yield`. The level `st` is the one that `exit_critical` goes back to. -/
inductive Pc where
  | outside
  | started (t : ThreadPtr)
  | waited (st : Nat)
  | killTest (t : ThreadPtr) (st : Nat)
  | killFound (t : ThreadPtr) (st : Nat)
  | killInsert (t : ThreadPtr) (st : Nat) (next : Insert)
  | killYield (t : ThreadPtr) (st : Nat)
  | exiting (st : Nat)
  | exited
  deriving DecidableEq

/-- The threads, the queue and the list of waiters. -/
structure State where
  state : ThreadPtr → TState
  criticalLevel : ThreadPtr → Nat
  waitingOn : ThreadPtr → List Nat
  queue : ThreadQueue
  currentThread : ThreadPtr
  waiters : List ThreadPtr
  pc : ThreadPtr → Pc

/-- A call by the current thread, one statement or stretch of statements of the call it is in, or
something that comes from outside. -/
inductive Event where
  | enterCritical (level : Nat)
  | exitCritical (prevLevel : Nat)
  | startThread (t : ThreadPtr)
  | startInterrupted (t : ThreadPtr)
  | yield
  | waitOnMany (x : List Nat)
  | resumeOn (x : Nat)
  | killThread (t : ThreadPtr)
  | exit
  | proceed
  | killInterrupted
  | irq (x : Nat)
  | timer
  | idle
  deriving DecidableEq

namespace ThreadQueue

/-- The thread is put behind the queue if it just ran, and in front of it otherwise. -/
def enqueueThread (q : ThreadQueue) (t : ThreadPtr) (justRan : Bool) : ThreadQueue :=
  if q.word .first = 0 then
    ⟨Function.update (Function.update q.word .first t) (.next t) 0, t⟩
  else if justRan then
    ⟨Function.update (Function.update q.word (.next t) 0) (.next q.queueLastThread) t, t⟩
  else
    ⟨Function.update (Function.update q.word (.next t) (q.word .first)) .first t,
      q.queueLastThread⟩

/-- The first thread of the queue, null if there is none, and what is left. -/
def dequeueThread (q : ThreadQueue) : ThreadPtr × ThreadQueue :=
  let t := q.word .first
  if t = 0 then (0, q)
  else
    let first := q.word (.next t)
    (t, ⟨Function.update q.word .first first, if first = 0 then 0 else q.queueLastThread⟩)

/-- The threads in the queue, from the first one to `queue_last_thread`. -/
def Holds (q : ThreadQueue) (l : List ThreadPtr) : Prop :=
  Queue q.word .next .first q.queueLastThread l

end ThreadQueue

namespace State

/-- A new `state` of a thread. -/
def setState (s : State) (t : ThreadPtr) (state : TState) : State :=
  { s with state := Function.update s.state t state }

/-- A new value of one link. -/
def setWord (s : State) (w : Word) (t : ThreadPtr) : State :=
  { s with queue.word := Function.update s.queue.word w t }

/-- The current thread is at another place. -/
def goto (s : State) (pc : Pc) : State :=
  { s with pc := Function.update s.pc s.currentThread pc }

/-- The place of the current thread. -/
def here (s : State) : Pc :=
  s.pc s.currentThread

/-- `critical_level` of the current thread. -/
def level (s : State) : Nat :=
  s.criticalLevel s.currentThread

def enterCritical (s : State) (level : Nat) : State :=
  { s with criticalLevel :=
      Function.update s.criticalLevel s.currentThread (max s.level level) }

def exitCritical (s : State) (prevLevel : Nat) : State :=
  { s with criticalLevel :=
      Function.update s.criticalLevel s.currentThread (min s.level prevLevel) }

def enqueueThread (s : State) (t : ThreadPtr) (justRan : Bool) : State :=
  { s with queue := s.queue.enqueueThread t justRan }

/-- `run_scheduler` up to `resume_context`, or to `hlt` where no thread is current then. -/
def runScheduler (s : State) : State :=
  let s := if s.currentThread ≠ 0 ∧ s.state s.currentThread = .running then
    s.enqueueThread s.currentThread true else s
  let (next, queue) := s.queue.dequeueThread
  { s with queue := queue, currentThread := next }

/-- What `resume_on` does with one thread of the list of waiters. -/
def resumeWaiter (x : Nat) (s : Bool × State) (t : ThreadPtr) : Bool × State :=
  if x ∈ s.2.waitingOn t ∧ s.2.state t = .paused then
    (true, (s.2.setState t .running).enqueueThread t false)
  else s

/-- `resume_on`, without interrupts from its `enter_critical` on. -/
def resumeOn (s : State) (x : Nat) : Bool × State :=
  s.waiters.foldl (resumeWaiter x) (false, s)

/-- `start_thread`, if no interrupt comes before its `enter_critical`. -/
def startThread (s : State) (t : ThreadPtr) : State :=
  (s.setState t .running).enqueueThread t false

/-- `wait_on_many` up to the switch. -/
def waitOnMany (s : State) (x : List Nat) : State :=
  let st := s.level
  let s := (s.enterCritical clNoint).goto (.waited st)
  let s := { s with
    waitingOn := Function.update s.waitingOn s.currentThread x
    waiters := s.currentThread :: s.waiters }
  (s.setState s.currentThread .paused).runScheduler

end State

/-- The next stretch of the call that the current thread is in. In `enqueue_thread` called by
`kill_thread`, once an interrupt has come in it, that is one statement. -/
def callStep (s : State) : Option State :=
  match s.here with
  | .outside | .exited => none
  | .started t =>
      if s.state t = .running then some ((s.enqueueThread t false).goto .outside) else none
  | .waited st =>
      if s.currentThread ∈ s.waiters then
        some ({ s with
          waitingOn := Function.update s.waitingOn s.currentThread []
          waiters := s.waiters.erase s.currentThread }.exitCritical st |>.goto .outside)
      else none
  | .killTest t st =>
      match s.state t with
      | .finished => some ((s.exitCritical st).goto .outside)
      | .paused => some (s.goto (.killFound t st))
      | .loading | .running => some (s.goto (.killYield t st))
  | .killFound t st =>
      some (((s.setState t .running).enqueueThread t false).goto (.killYield t st))
  | .killInsert t st .test =>
      if s.state t = .running then
        some (s.goto (.killInsert t st (if s.queue.word .first = 0 then .both else .link)))
      else none
  | .killInsert t st .both =>
      some ({ s with queue := ⟨Function.update s.queue.word .first t, t⟩ }.goto
        (.killInsert t st .null))
  | .killInsert t st .null =>
      some ((s.setWord (.next t) 0).goto (.killYield t st))
  | .killInsert t st .link =>
      some ((s.setWord (.next t) (s.queue.word .first)).goto (.killInsert t st .head))
  | .killInsert t st .head =>
      some ((s.setWord .first t).goto (.killYield t st))
  | .killYield t st =>
      if s.level = clExcl then none else some (s.goto (.killTest t st)).runScheduler
  | .exiting st =>
      some ((s.setState s.currentThread .finished).exitCritical st |>.goto .exited)

/-- What the current thread does. `exit` may also call `yield` while it waits for a worker. -/
def threadStep (s : State) : Event → Option State
  | .enterCritical level => if s.here = .outside then some (s.enterCritical level) else none
  | .exitCritical prevLevel =>
      if s.here = .outside then some (s.exitCritical prevLevel) else none
  | .startThread t =>
      if s.here = .outside ∧ t ≠ 0 ∧ s.state t = .loading then some (s.startThread t) else none
  | .startInterrupted t =>
      if s.here = .outside ∧ t ≠ 0 ∧ s.state t = .loading ∧ s.level < clNoint then
        some ((s.setState t .running).goto (.started t))
      else none
  | .yield =>
      match s.here with
      | .outside | .exiting _ | .exited =>
          if s.level = clExcl then none else some s.runScheduler
      | _ => none
  | .waitOnMany x =>
      if s.here = .outside ∧ x ≠ [] ∧ s.level ≠ clExcl then some (s.waitOnMany x) else none
  | .resumeOn x => if s.here = .outside then some (s.resumeOn x).2 else none
  | .killThread t =>
      if s.here = .outside ∧ t ≠ 0 ∧ t ≠ s.currentThread then
        some ((s.enterCritical clNoswitch).goto (.killTest t s.level))
      else none
  | .exit =>
      if s.here = .outside then some ((s.enterCritical clNoswitch).goto (.exiting s.level))
      else none
  | .proceed => callStep s
  | .killInterrupted =>
      match s.here with
      | .killFound t st =>
          if s.level < clNoint then
            some ((s.setState t .running).goto (.killInsert t st .test))
          else none
      | _ => none
  | .irq _ | .timer | .idle => none

/-- A step. `irq` is a call of `resume_on` in an interrupt handler (`notify_time_pass` makes one
after the other), `timer` the switch that may follow in `threading_irq0_handler`, and `idle` the
next turn of `run_scheduler` behind `hlt`. -/
def step (s : State) : Event → Option State
  | .irq x =>
      if s.currentThread = 0 ∨ s.level < clNoint then some (s.resumeOn x).2 else none
  | .timer =>
      if s.currentThread ≠ 0 ∧ s.level = clUser then some s.runScheduler else none
  | .idle => if s.currentThread = 0 then some s.runScheduler else none
  | event => if s.currentThread ≠ 0 then threadStep s event else none

/-- Nothing but threads that are not started, with no interrupts. -/
def blank : State where
  state := fun _ => .loading
  criticalLevel := fun _ => clExcl
  waitingOn := fun _ => []
  queue := ⟨fun _ => 0, 0⟩
  currentThread := 0
  waiters := []
  pc := fun _ => .outside

/-- `threading_setup`. -/
def threadingSetup (t : ThreadPtr) : State :=
  (blank.startThread t).runScheduler

/-- The runs in which every event is allowed where it happens. -/
def queueRuns (allowed : State → Event → Prop) : System State :=
  eventRuns (fun s => ∃ t, t ≠ 0 ∧ s = threadingSetup t) step allowed

/-- The running threads apart from the current one are in the queue, each of them once, no other
thread is, and `queue_last_thread` is the last one. -/
def State.KeepsRunning (s : State) : Prop :=
  ∃ l, s.queue.Holds l ∧
    ∀ t, t ≠ 0 → l.count t = if s.state t = .running ∧ t ≠ s.currentThread then 1 else 0

/-- The thread that `kill_thread` has found paused. -/
def Pc.killing : Pc → Option ThreadPtr
  | .killFound t _ => some t
  | _ => none

/-- No interrupt comes in `start_thread` between the assignment and `enter_critical`, none in
`kill_thread` between the assignment and the end of `enqueue_thread`, and none between the test and
the assignment wakes the thread that is killed. -/
def Undisturbed (s : State) : Event → Prop
  | .startInterrupted _ | .killInterrupted => False
  | .irq x => ∀ t, s.here.killing = some t → x ∉ s.waitingOn t
  | _ => True

section Queue

variable {q : ThreadQueue} {l : List ThreadPtr} {t : ThreadPtr}

theorem next_injective : Function.Injective Word.next := fun _ _ h => Word.next.inj h

theorem next_ne_first (t : ThreadPtr) : Word.next t ≠ .first := nofun

/-- A thread that is not in the queue is then in it, whichever end it is put at. -/
theorem ThreadQueue.Holds.enqueue (h : q.Holds l) (ht : t ≠ 0) (hmem : t ∉ l) (justRan : Bool) :
    ∃ l', (q.enqueueThread t justRan).Holds l' ∧ ∀ u, u ∈ l' ↔ u = t ∨ u ∈ l := by
  have hne : ∀ c ∈ l, c ≠ t := fun c hc heq => hmem (heq ▸ hc)
  unfold enqueueThread
  split
  · next hempty =>
      obtain rfl := h.eq_nil_iff.mpr hempty
      exact ⟨[t], Queue.single ht (by simp) (by simp), by simp⟩
  · next hmore =>
      have hl : l ≠ [] := fun hl => hmore (h.eq_nil_iff.mp hl)
      split
      · have hlast : q.queueLastThread ≠ t := by
          refine hne _ ?_
          rw [h.last, List.getLast?_eq_some_getLast hl]
          exact List.getLast_mem hl
        refine ⟨l ++ [t], h.push_back hl ht next_injective (fun c _ => next_ne_first c)
          (by simp) (by simp [hlast.symm]) ?_, fun u => by simp [or_comm]⟩
        rintro v hv (rfl | ⟨c, hc, rfl⟩)
        · simp
        · simp only [ne_eq, Word.next.injEq] at hv
          simp [hv, hne c hc]
      · exact ⟨t :: l, h.push_front hl ht (by simp) (by simp) fun c hc => by simp [hne c hc],
          fun u => List.mem_cons⟩

/-- The first thread is taken off, if there is one. -/
theorem ThreadQueue.Holds.dequeue (h : q.Holds l) :
    l = [] ∧ q.dequeueThread = (0, q) ∨
      ∃ t l', l = t :: l' ∧ q.dequeueThread.1 = t ∧ q.dequeueThread.2.Holds l' := by
  cases l with
  | nil =>
      have hempty : q.word .first = 0 := h.chain
      exact .inl ⟨rfl, by simp [dequeueThread, hempty]⟩
  | cons t l =>
      have hfirst : q.word .first = t := h.chain.1
      have hne : t ≠ 0 := h.chain.2.1
      refine .inr ⟨t, l, rfl, by simp [dequeueThread, hfirst, hne], ?_⟩
      simp only [dequeueThread, hfirst, if_neg hne]
      exact h.pop (Function.update_self ..) (fun c _ => Function.update_of_ne (next_ne_first c) ..)
        (fun hzero => if_pos hzero) fun hmore => if_neg hmore

end Queue

/-- An interrupt has come in the middle of the call. -/
def Pc.divided : Pc → Bool
  | .started _ | .killInsert .. => true
  | _ => false

/-- The thread is in `kill_thread`. -/
def Pc.kills : Pc → Bool
  | .killTest .. | .killFound .. | .killInsert .. | .killYield .. => true
  | _ => false

theorem Pc.kills_of_killing {pc : Pc} {t : ThreadPtr} (h : pc.killing = some t) :
    pc.kills = true := by
  cases pc with
  | killFound => rfl
  | _ => cases h

/-- The queue holds the threads that are to be scheduled, and no thread that is killed is found
paused. -/
structure State.Ready (s : State) : Prop where
  queue : ∃ l, s.queue.Holds l ∧ ∀ t, t ∈ l ↔ s.state t = .running ∧ t ≠ s.currentThread
  null : s.state 0 = .loading
  whole : ∀ t, (s.pc t).divided = false
  level : ∀ t, (s.pc t).kills = true → clNoswitch ≤ s.criticalLevel t
  killing : ∀ t, (s.pc t).killing = none

/-- What holds between the steps of a run that is not disturbed. Only the current thread can have
found a thread that is to be killed paused, as it is not preempted in `kill_thread`. -/
structure State.Sound (s : State) : Prop where
  queue : ∃ l, s.queue.Holds l ∧ ∀ t, t ∈ l ↔ s.state t = .running ∧ t ≠ s.currentThread
  null : s.state 0 = .loading
  whole : ∀ t, (s.pc t).divided = false
  level : ∀ t, (s.pc t).kills = true → clNoswitch ≤ s.criticalLevel t
  current : s.currentThread ≠ 0 →
    s.state s.currentThread = .running ∨ s.state s.currentThread = .finished
  killing : ∀ t u, (s.pc t).killing = some u →
    t = s.currentThread ∧ t ≠ 0 ∧ s.state u = .paused

section Invariant

variable {s s' : State} {t : ThreadPtr}

theorem State.goto_here (pc : Pc) : (s.goto pc).here = pc :=
  Function.update_self ..

theorem State.Sound.keeps_running (h : s.Sound) : s.KeepsRunning := by
  obtain ⟨l, hholds, hmem⟩ := h.queue
  refine ⟨l, hholds, fun t _ => ?_⟩
  split
  · next hrunning => exact List.count_eq_one_of_mem hholds.chain.nodup ((hmem t).mpr hrunning)
  · next hrunning => exact List.count_eq_zero_of_not_mem fun h => hrunning ((hmem t).mp h)

/-- Where the current thread has not found a thread paused, no thread has. -/
theorem State.Sound.killing_none (h : s.Sound) (hhere : s.here.killing = none) (t : ThreadPtr) :
    (s.pc t).killing = none := by
  cases hkilling : (s.pc t).killing with
  | none => rfl
  | some u =>
      obtain ⟨rfl, -⟩ := h.killing t u hkilling
      exact hkilling.symm.trans hhere

theorem State.Sound.ready (h : s.Sound) (hhere : s.here.killing = none) : s.Ready :=
  ⟨h.queue, h.null, h.whole, h.level, h.killing_none hhere⟩

/-- The thread that just ran is put behind the queue, and the first one is taken off. -/
theorem State.Ready.run_scheduler (h : s.Ready) : s.runScheduler.Sound := by
  -- the queue with the current thread, if it is to be scheduled again
  have hqueue : ∃ l, (if s.currentThread ≠ 0 ∧ s.state s.currentThread = .running then
      s.enqueueThread s.currentThread true else s).queue.Holds l ∧
        ∀ t, t ∈ l ↔ s.state t = .running := by
    obtain ⟨l, hholds, hmem⟩ := h.queue
    split
    · next hrunning =>
        obtain ⟨l', hholds', hmem'⟩ := hholds.enqueue hrunning.1
          (fun hin => ((hmem _).mp hin).2 rfl) true
        refine ⟨l', hholds', fun t => (hmem' t).trans ⟨?_, fun ht => ?_⟩⟩
        · rintro (rfl | hin)
          · exact hrunning.2
          · exact ((hmem t).mp hin).1
        · rw [hmem]
          exact or_iff_not_imp_left.mpr fun hne => ⟨ht, hne⟩
    · next hrunning =>
        refine ⟨l, hholds, fun t => (hmem t).trans ⟨fun ht => ht.1, fun ht => ⟨ht, ?_⟩⟩⟩
        rintro rfl
        refine hrunning ⟨fun hzero => ?_, ht⟩
        rw [hzero, h.null] at ht
        cases ht
  unfold runScheduler
  generalize hmid : (if s.currentThread ≠ 0 ∧ s.state s.currentThread = .running then
    s.enqueueThread s.currentThread true else s) = mid at hqueue
  have hsame : mid.state = s.state ∧ mid.pc = s.pc ∧ mid.criticalLevel = s.criticalLevel := by
    rw [← hmid]
    split <;> exact ⟨rfl, rfl, rfl⟩
  obtain ⟨hstate, hpc, hcritical⟩ := hsame
  rw [← hstate] at hqueue
  have hnull : mid.state 0 = .loading := hstate ▸ h.null
  have hkilling : ∀ t u, (mid.pc t).killing ≠ some u := fun t u hu => by
    rw [hpc, h.killing t] at hu
    cases hu
  have hwhole : ∀ t, (mid.pc t).divided = false := fun t => hpc ▸ h.whole t
  have hlevel : ∀ t, (mid.pc t).kills = true → clNoswitch ≤ mid.criticalLevel t := by
    rw [hpc, hcritical]
    exact h.level
  obtain ⟨l, hholds, hmem⟩ := hqueue
  rcases hholds.dequeue with ⟨rfl, hnone⟩ | ⟨t, l', rfl, hfirst, hrest⟩
  · refine ⟨⟨[], ?_, fun t => ?_⟩, hnull, hwhole, hlevel, fun hne => ?_, fun t u hu => ?_⟩
    · show mid.queue.dequeueThread.2.Holds []
      rw [hnone]
      exact hholds
    · exact (hmem t).trans ⟨fun ht => absurd ((hmem t).mpr ht) (List.not_mem_nil),
        fun ht => ht.1⟩
    · exact absurd (congrArg Prod.fst hnone) hne
    · exact absurd hu (hkilling t u)
  · have hnotin : t ∉ l' := (List.nodup_cons.mp hholds.chain.nodup).1
    refine ⟨⟨l', hrest, fun u => ?_⟩, hnull, hwhole, hlevel, fun _ => .inl ?_,
      fun t u hu => ?_⟩
    · show u ∈ l' ↔ mid.state u = .running ∧ u ≠ mid.queue.dequeueThread.1
      rw [hfirst, ← hmem u, List.mem_cons]
      constructor
      · intro hu
        exact ⟨.inr hu, fun heq => hnotin (heq ▸ hu)⟩
      · rintro ⟨hu | hu, hne⟩
        · exact absurd hu hne
        · exact hu
    · show mid.state mid.queue.dequeueThread.1 = .running
      rw [hfirst]
      exact (hmem t).mp List.mem_cons_self
    · exact absurd hu (hkilling t u)

section

variable (h : s.Sound)

include h

/-- The step changes only where the current thread is, its level and who waits for what. -/
theorem State.Sound.goto (s' : State) (pc : Pc) (hqueue : s'.queue = s.queue)
    (hstate : s'.state = s.state) (hcurrent : s'.currentThread = s.currentThread)
    (hpc : s'.pc = s.pc)
    (hlevel : ∀ t, t ≠ s.currentThread → s'.criticalLevel t = s.criticalLevel t)
    (hwhole : pc.divided = false) (hkills : pc.kills = true → clNoswitch ≤ s'.level)
    (hkilling : ∀ u, pc.killing = some u → s.currentThread ≠ 0 ∧ s.state u = .paused) :
    (s'.goto pc).Sound := by
  have hhere : (s'.goto pc).pc s.currentThread = pc := hcurrent ▸ Function.update_self ..
  have hother : ∀ t, t ≠ s.currentThread → (s'.goto pc).pc t = s.pc t := fun t ht =>
    (Function.update_of_ne (hcurrent.symm ▸ ht) ..).trans (congrFun hpc t)
  refine ⟨?_, (congrFun hstate 0).trans h.null, fun t => ?_, fun t ht => ?_, ?_, fun t u hu => ?_⟩
  · show ∃ l, s'.queue.Holds l ∧ ∀ t, t ∈ l ↔ s'.state t = .running ∧ t ≠ s'.currentThread
    rw [hqueue, hstate, hcurrent]
    exact h.queue
  · by_cases heq : t = s.currentThread
    · rw [heq, hhere]
      exact hwhole
    · rw [hother t heq]
      exact h.whole t
  · by_cases heq : t = s.currentThread
    · rw [heq, hhere] at ht
      rw [heq, ← hcurrent]
      exact hkills ht
    · rw [hother t heq] at ht
      exact hlevel t heq ▸ h.level t ht
  · show s'.currentThread ≠ 0 →
      s'.state s'.currentThread = .running ∨ s'.state s'.currentThread = .finished
    rw [hcurrent, hstate]
    exact h.current
  · by_cases heq : t = s.currentThread
    · rw [heq, hhere] at hu
      obtain ⟨hne, hpaused⟩ := hkilling u hu
      exact ⟨heq.trans hcurrent.symm, heq ▸ hne, (congrFun hstate u).trans hpaused⟩
    · rw [hother t heq] at hu
      exact absurd (h.killing t u hu).1 heq

/-- A thread that is put in the queue as it is set running. -/
theorem State.Sound.wake (ht : t ≠ 0) (hrunning : s.state t ≠ .running)
    (hfinished : s.state t ≠ .finished) (hkilling : ∀ u, (s.pc u).killing ≠ some t) :
    ((s.setState t .running).enqueueThread t false).Sound := by
  have hcurrent : t ≠ s.currentThread := by
    rintro rfl
    rcases h.current ht with hstate | hstate
    · exact hrunning hstate
    · exact hfinished hstate
  have hsame : ∀ u, u ≠ t → Function.update s.state t .running u = s.state u := fun u hu =>
    Function.update_of_ne hu ..
  obtain ⟨l, hholds, hmem⟩ := h.queue
  obtain ⟨l', hholds', hmem'⟩ := hholds.enqueue ht (fun hin => hrunning ((hmem t).mp hin).1) false
  refine ⟨⟨l', hholds', fun u => (hmem' u).trans ?_⟩, ?_, h.whole, h.level,
    fun hne => ?_, fun u v hv => ?_⟩
  · show u = t ∨ u ∈ l ↔ Function.update s.state t .running u = .running ∧ u ≠ s.currentThread
    by_cases hu : u = t
    · subst hu
      rw [Function.update_self]
      exact ⟨fun _ => ⟨rfl, hcurrent⟩, fun _ => .inl rfl⟩
    · rw [hsame u hu, ← hmem u]
      exact or_iff_right hu
  · exact (hsame 0 ht.symm).trans h.null
  · show Function.update s.state t .running s.currentThread = .running ∨
      Function.update s.state t .running s.currentThread = .finished
    rw [hsame _ hcurrent.symm]
    exact h.current hne
  · obtain ⟨hu, hne, hpaused⟩ := h.killing u v hv
    exact ⟨hu, hne, (hsame v fun heq => hkilling u (heq ▸ hv)).trans hpaused⟩

/-- The current thread ends. -/
theorem State.Sound.finish (hne : s.currentThread ≠ 0)
    (hhere : s.here.killing = none) : (s.setState s.currentThread .finished).Sound := by
  obtain ⟨l, hholds, hmem⟩ := h.queue
  refine ⟨⟨l, hholds, fun u => (hmem u).trans ?_⟩, ?_, h.whole, h.level, fun _ => .inr ?_,
    fun t u hu => ?_⟩
  · refine and_congr_left fun hu => ?_
    show s.state u = .running ↔ Function.update s.state s.currentThread .finished u = .running
    rw [Function.update_of_ne hu]
  · exact (Function.update_of_ne hne.symm ..).trans h.null
  · exact Function.update_self ..
  · cases (h.killing_none hhere t).symm.trans hu

/-- `resume_on` wakes threads that no other thread is about to set running. -/
theorem State.Sound.resume_on (x : Nat)
    (hkilling : ∀ t u, (s.pc t).killing = some u → x ∉ s.waitingOn u) :
    (s.resumeOn x).2.Sound := by
  unfold resumeOn
  generalize s.waiters = waiters
  -- the list, the places and what is waited for stay as they are
  suffices hfold : ∀ r : Bool × State, r.2.Sound → r.2.pc = s.pc → r.2.waitingOn = s.waitingOn →
      (waiters.foldl (resumeWaiter x) r).2.Sound from hfold (false, s) h rfl rfl
  induction waiters with
  | nil => exact fun r hr _ _ => hr
  | cons t waiters ih =>
      intro r hr hpc hwaiting
      rw [List.foldl_cons]
      refine ih (resumeWaiter x r t) ?_ ?_ ?_
      · unfold resumeWaiter
        split
        · next hwakes =>
            refine hr.wake ?_ ?_ ?_ fun u hu => ?_
            · rintro rfl
              exact nomatch hr.null.symm.trans hwakes.2
            · exact fun hstate => nomatch hwakes.2.symm.trans hstate
            · exact fun hstate => nomatch hwakes.2.symm.trans hstate
            · exact hkilling u t (hpc ▸ hu) (hwaiting ▸ hwakes.1)
        · exact hr
      · unfold resumeWaiter
        split <;> exact hpc
      · unfold resumeWaiter
        split <;> exact hwaiting

/-- The thread parks. -/
theorem State.Sound.wait_on_many (hne : s.currentThread ≠ 0)
    (hhere : s.here.killing = none) (x : List Nat) : (s.waitOnMany x).Sound := by
  obtain ⟨l, hholds, hmem⟩ := h.queue
  refine State.Ready.run_scheduler ⟨⟨l, hholds, fun u => (hmem u).trans ?_⟩, ?_, fun t => ?_,
    fun t => ?_, fun t => ?_⟩
  · refine and_congr_left fun hu => ?_
    show s.state u = .running ↔ Function.update s.state s.currentThread .paused u = .running
    rw [Function.update_of_ne hu]
  · exact (Function.update_of_ne hne.symm ..).trans h.null
  · show (Function.update s.pc s.currentThread (.waited s.level) t).divided = false
    rw [Function.update_apply]
    split
    · rfl
    · exact h.whole t
  · show (Function.update s.pc s.currentThread (.waited s.level) t).kills = true →
      clNoswitch ≤ Function.update s.criticalLevel s.currentThread _ t
    rw [Function.update_apply, Function.update_apply]
    split
    · exact nofun
    · exact h.level t
  · show (Function.update s.pc s.currentThread (.waited s.level) t).killing = none
    rw [Function.update_apply]
    split
    · rfl
    · exact h.killing_none hhere t

/-- Where the current thread goes back to the level from before a call. -/
theorem State.Sound.leave (hqueue : s'.queue = s.queue)
    (hstate : s'.state = s.state) (hcurrent : s'.currentThread = s.currentThread)
    (hpc : s'.pc = s.pc) (hlevel : s'.criticalLevel = s.criticalLevel) (st : Nat) {pc : Pc}
    (hwhole : pc.divided = false) (hkills : pc.kills = false) (hkilling : pc.killing = none) :
    ((s'.exitCritical st).goto pc).Sound := by
  refine h.goto (s'.exitCritical st) pc hqueue hstate hcurrent hpc (fun t ht => ?_) hwhole
    (fun ht => ?_) fun u hu => ?_
  · exact (Function.update_of_ne (hcurrent.symm ▸ ht) ..).trans (congrFun hlevel t)
  · cases hkills.symm.trans ht
  · cases hkilling.symm.trans hu

/-- The current thread goes from one place of `kill_thread` to another one. -/
theorem State.Sound.stay (hhere : s.here.kills = true) {pc : Pc}
    (hwhole : pc.divided = false)
    (hkilling : ∀ u, pc.killing = some u → s.currentThread ≠ 0 ∧ s.state u = .paused) :
    (s.goto pc).Sound :=
  h.goto s pc rfl rfl rfl rfl (fun _ _ => rfl) hwhole (fun _ => h.level s.currentThread hhere) hkilling

/-- A stretch of a call. -/
theorem State.Sound.call_step (hne : s.currentThread ≠ 0)
    (hstep : callStep s = some s') : s'.Sound := by
  have hwhole : s.here.divided = false := h.whole s.currentThread
  unfold callStep at hstep
  cases hhere : s.here with
  | outside | exited =>
      rw [hhere] at hstep
      cases hstep
  | started t =>
      rw [hhere] at hwhole
      cases hwhole
  | killInsert t st next =>
      rw [hhere] at hwhole
      cases hwhole
  | waited st =>
      simp only [hhere] at hstep
      split at hstep
      · cases hstep
        refine h.leave ?_ ?_ ?_ ?_ ?_ st ?_ ?_ ?_ <;> rfl
      · cases hstep
  | killTest t st =>
      simp only [hhere] at hstep
      split at hstep
      · cases hstep
        refine h.leave ?_ ?_ ?_ ?_ ?_ st ?_ ?_ ?_ <;> rfl
      · next hpaused =>
          cases hstep
          refine h.stay (hhere ▸ rfl) rfl fun u hu => ?_
          cases hu
          exact ⟨hne, hpaused⟩
      · cases hstep
        exact h.stay (hhere ▸ rfl) rfl nofun
      · cases hstep
        exact h.stay (hhere ▸ rfl) rfl nofun
  | killFound t st =>
      simp only [hhere, Option.some.injEq] at hstep
      subst hstep
      have hkilling : s.here.killing = some t := hhere ▸ rfl
      obtain ⟨-, -, hpaused⟩ := h.killing s.currentThread t hkilling
      -- the place is left before the thread that is killed is set running
      have hleft : (s.goto (.killYield t st)).Sound := h.stay (hhere ▸ rfl) rfl nofun
      refine hleft.wake ?_ (fun heq => ?_) (fun heq => ?_) fun u hu => ?_
      · rintro rfl
        exact nomatch h.null.symm.trans hpaused
      · exact nomatch hpaused.symm.trans heq
      · exact nomatch hpaused.symm.trans heq
      · have hnone := hleft.killing_none (by rw [State.goto_here]; rfl) u
        exact nomatch hnone.symm.trans hu
  | killYield t st =>
      simp only [hhere] at hstep
      split at hstep
      · cases hstep
      · cases hstep
        have hback : (s.goto (.killTest t st)).Sound := h.stay (hhere ▸ rfl) rfl nofun
        exact (hback.ready (by rw [State.goto_here]; rfl)).run_scheduler
  | exiting st =>
      simp only [hhere, Option.some.injEq] at hstep
      subst hstep
      have hfinished := h.finish hne (hhere ▸ rfl)
      refine hfinished.leave ?_ ?_ ?_ ?_ ?_ st ?_ ?_ ?_ <;> rfl

/-- A change of the level outside of the calls, or a call that begins with one. -/
theorem State.Sound.relevel (level : Nat) (pc : Pc) (hwhole : pc.divided = false)
    (hkills : pc.kills = true → clNoswitch ≤ level) (hkilling : pc.killing = none) :
    ({ s with criticalLevel := Function.update s.criticalLevel s.currentThread level }.goto
      pc).Sound := by
  refine h.goto { s with criticalLevel := _ } pc rfl rfl rfl rfl
    (fun t ht => Function.update_of_ne ht ..) hwhole (fun ht => ?_) fun u hu => ?_
  · show clNoswitch ≤ Function.update s.criticalLevel s.currentThread level s.currentThread
    rw [Function.update_self]
    exact hkills ht
  · cases hkilling.symm.trans hu

end

theorem State.goto_same {pc : Pc} (hhere : s.here = pc) : s.goto pc = s := by
  subst hhere
  exact congrArg (fun pc => { s with pc }) (Function.update_eq_self ..)

/-- A step that is made only where `c` holds. -/
theorem guarded_step {σ : Type} {c : Prop} [Decidable c] {x y : σ}
    (h : (if c then some x else none) = some y) : c ∧ x = y :=
  (Option.ite_none_right_eq_some.mp h).imp_right Option.some.inj

/-- What the current thread does while no interrupt divides its calls. -/
theorem State.Sound.thread_step (h : s.Sound) (hne : s.currentThread ≠ 0) {event : Event}
    (hundisturbed : Undisturbed s event) (hstep : threadStep s event = some s') : s'.Sound := by
  cases event with
  | enterCritical level =>
      obtain ⟨hhere, rfl⟩ := guarded_step hstep
      rw [← State.goto_same (s := s.enterCritical level) hhere]
      exact h.relevel _ .outside rfl nofun rfl
  | exitCritical prevLevel =>
      obtain ⟨hhere, rfl⟩ := guarded_step hstep
      rw [← State.goto_same (s := s.exitCritical prevLevel) hhere]
      exact h.relevel _ .outside rfl nofun rfl
  | startThread t =>
      obtain ⟨⟨hhere, ht, hloading⟩, rfl⟩ := guarded_step hstep
      refine h.wake ht (fun heq => ?_) (fun heq => ?_) fun u hu => ?_
      · exact nomatch hloading.symm.trans heq
      · exact nomatch hloading.symm.trans heq
      · exact nomatch (h.killing_none (hhere ▸ rfl) u).symm.trans hu
  | startInterrupted | killInterrupted => exact hundisturbed.elim
  | yield =>
      have hkilling : s.here.killing = none ∧ s.runScheduler = s' := by
        simp only [threadStep] at hstep
        split at hstep <;> simp_all [Pc.killing]
      obtain ⟨hkilling, rfl⟩ := hkilling
      exact (h.ready hkilling).run_scheduler
  | waitOnMany x =>
      obtain ⟨⟨hhere, -⟩, rfl⟩ := guarded_step hstep
      exact h.wait_on_many hne (hhere ▸ rfl) x
  | resumeOn x =>
      obtain ⟨hhere, rfl⟩ := guarded_step hstep
      refine h.resume_on x fun t u hu => ?_
      exact nomatch (h.killing_none (hhere ▸ rfl) t).symm.trans hu
  | killThread t =>
      obtain ⟨-, rfl⟩ := guarded_step hstep
      exact h.relevel _ (.killTest t s.level) rfl (fun _ => Nat.le_max_right ..) rfl
  | exit =>
      obtain ⟨-, rfl⟩ := guarded_step hstep
      exact h.relevel _ (.exiting s.level) rfl nofun rfl
  | proceed => exact h.call_step hne hstep
  | irq | timer | idle => cases hstep

/-- A step that is not disturbed. -/
theorem State.Sound.step (h : s.Sound) {event : Event} (hundisturbed : Undisturbed s event)
    (hstep : step s event = some s') : s'.Sound := by
  cases event with
  | irq x =>
      obtain ⟨-, rfl⟩ := guarded_step hstep
      refine h.resume_on x fun t u hu => ?_
      obtain ⟨rfl, -⟩ := h.killing t u hu
      exact hundisturbed u hu
  | timer =>
      obtain ⟨⟨-, huser⟩, rfl⟩ := guarded_step hstep
      refine (h.ready ?_).run_scheduler
      cases hkilling : s.here.killing with
      | none => rfl
      | some u =>
          -- a thread in `kill_thread` is not preempted
          have hlevel : clNoswitch ≤ s.level := h.level _ (Pc.kills_of_killing hkilling)
          rw [huser] at hlevel
          cases hlevel
  | idle =>
      obtain ⟨hidle, rfl⟩ := guarded_step hstep
      refine (h.ready ?_).run_scheduler
      cases hkilling : s.here.killing with
      | none => rfl
      | some u => exact absurd hidle (h.killing _ u hkilling).2.1
  | _ =>
      simp only [RunQueue.step, Option.ite_none_right_eq_some] at hstep
      exact h.thread_step hstep.1 hundisturbed hstep.2

theorem State.Sound.threading_setup (ht : t ≠ 0) : (threadingSetup t).Sound := by
  have hblank : blank.Sound :=
    ⟨⟨[], ⟨rfl, rfl⟩, fun _ => ⟨nofun, fun h => nomatch h.1⟩⟩, rfl, fun _ => rfl, nofun,
      fun h => absurd rfl h, nofun⟩
  have hstarted : (blank.startThread t).Sound := hblank.wake ht nofun nofun nofun
  exact (hstarted.ready rfl).run_scheduler

end Invariant

/-- In every run that is not disturbed the queue holds the running threads. -/
theorem queue_keeps_running {s : State} (hs : Reachable (queueRuns Undisturbed) s) :
    s.KeepsRunning := by
  refine State.Sound.keeps_running (Reachable.induct ?_ ?_ hs)
  · rintro _ ⟨t, ht, rfl⟩
    exact .threading_setup ht
  · rintro s s' hsound ⟨event, hundisturbed, hstep⟩
    exact hsound.step hundisturbed hstep

/-- A thread starts another one, which waits for the object 7, and kills it. -/
def killWaiting : List Event :=
  [.exitCritical clUser, .startThread 2, .yield, .exitCritical clUser, .waitOnMany [7],
    .killThread 2, .proceed]

/-- The thread has been put in the queue as it was killed, and runs next. -/
theorem killed_and_running :
    ∃ s : State, s.currentThread = 2 ∧ s.state 1 = .running ∧ s.KeepsRunning := by
  let guard : State → Event → Bool := fun _ event =>
    match event with
    | .startInterrupted _ | .killInterrupted | .irq _ => false
    | _ => true
  have hguard : ∀ s event, guard s event = true → Undisturbed s event := by
    intro s event hpass
    cases event with
    | startInterrupted | killInterrupted | irq => cases hpass
    | _ => trivial
  let s := (runEvents step guard (killWaiting ++ [.proceed, .proceed]) (threadingSetup 1)).getD blank
  have hrun : runEvents step guard (killWaiting ++ [.proceed, .proceed]) (threadingSetup 1) =
    some s := rfl
  exact ⟨s, rfl, rfl, queue_keeps_running
    (Reachable.run_events hguard (.init ⟨1, by decide, rfl⟩) hrun)⟩

/-- An interrupt wakes the thread between the test and the assignment in `kill_thread`. The thread
is put in the queue twice, and its link leads to itself. -/
theorem killed_while_woken :
    ¬∀ s, Reachable (queueRuns fun _ _ => True) s → s.KeepsRunning := by
  intro h
  let s := (runEvents step (fun _ _ => true) (killWaiting ++ [.irq 7, .proceed])
    (threadingSetup 1)).getD blank
  have hrun : runEvents step (fun _ _ => true) (killWaiting ++ [.irq 7, .proceed])
    (threadingSetup 1) = some s := rfl
  obtain ⟨l, hholds, -⟩ := h s
    (Reachable.run_events (fun _ _ _ => trivial) (.init ⟨1, by decide, rfl⟩) hrun)
  have hfirst : s.queue.word .first = 2 := rfl
  have hlink : s.queue.word (.next 2) = 2 := rfl
  match l, hholds.chain, hholds.chain.nodup with
  | [], hchain, _ => exact nomatch hfirst.symm.trans hchain
  | [t], ⟨ht, _, hend⟩, _ =>
      obtain rfl := ht.symm.trans hfirst
      exact nomatch hlink.symm.trans hend
  | t :: u :: _, ⟨ht, _, hu, _⟩, hnodup =>
      obtain rfl := ht.symm.trans hfirst
      obtain rfl := hu.symm.trans hlink
      exact (List.nodup_cons.mp hnodup).1 List.mem_cons_self

end Kogata.Kernel.RunQueue
