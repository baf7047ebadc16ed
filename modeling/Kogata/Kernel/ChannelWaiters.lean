import Kogata.Kernel.ChannelFifo
import Kogata.Kernel.ChannelThreads
import Kogata.Lib.Monitor

/-!
# Threads that wait at a channel

The blocking calls of `kernel/user/ipc.c` at the grain of the mutex and of the list of waiters in
`kernel/core/thread.c`: the test of the buffer, the release of the mutex and the wake-up are
separate steps. Interrupts are off from `enter_critical` to the switch in `wait_on`, so that the
mutex is released and the thread parks in one step. Each end is a monitor on its `buf_used`, and no
wake-up is lost (`no_lost_wake_up`).
-/

namespace Kogata.Kernel.ChannelWaiters

open Lib Lib.Run

/-- Where a thread is in a pass through the loop of `channel_read` or `channel_write`: before the
mutex is taken; in the `yield` of `channel_write`; behind the mutex; at the test of `len`; before
`resume_on`; before the mutex is released; before `enter_critical`; and in `wait_on`, where it is
`T_STATE_PAUSED` until `resume_on` finds it. -/
inductive Place where
  | lock
  | yielding
  | held
  | measured (len : UInt32)
  | moved
  | woken
  | idle
  | paused
  | resumed
  deriving DecidableEq

/-- Where a thread is. -/
inductive Pc where
  | returned (result : CallResult)
  | writeBegin (tc : ChannelPtr) (blocking : Bool) (data : List UInt8)
  | read (place : Place) (call : ReadCall)
  | write (place : Place) (call : WriteCall)
  deriving DecidableEq

/-- The channels, the threads and the list of waiters. -/
structure State (T : Type) where
  chan : ChannelPtr → Channel
  thread : T → Pc
  waiters : List T

/-- `len` in `channel_read`. -/
def readLen (call : ReadCall) (bufUsed : UInt32) : UInt32 :=
  cutToUsed bufUsed (call.reqLen - UInt32.ofNat call.ret.length)

/-- `len` in `channel_write`. -/
def writeLen (call : WriteCall) (bufUsed : UInt32) : UInt32 :=
  cutToRoom bufUsed (UInt32.ofNat call.data.length - call.ret)

/-- The end of a pass through the loop of `channel_read`. -/
def readNext (call : ReadCall) : Pc :=
  if call.blocking && UInt32.ofNat call.ret.length < call.reqLen then .read .lock call
  else .returned (.read call.ret)

/-- The end of a pass through the loop of `channel_write`. -/
def writeNext (call : WriteCall) : Pc :=
  if call.blocking && call.ret < UInt32.ofNat call.data.length then .write .lock call
  else .returned (.wrote call.ret)

/-- The object in `waiting_on` of a thread that is `T_STATE_PAUSED`. -/
def Pc.pausedOn : Pc → Option ChannelPtr
  | .read .paused call => some call.c
  | .write .paused call => some call.c
  | _ => none

/-- The thread is `T_STATE_RUNNING` again. -/
def Pc.resumed : Pc → Pc
  | .read .paused call => .read .resumed call
  | .write .paused call => .write .resumed call
  | pc => pc

/-- The thread is in the list of waiters. -/
def Pc.waits : Pc → Bool
  | .read .paused _ | .read .resumed _ | .write .paused _ | .write .resumed _ => true
  | _ => false

/-- The thread is in none of the calls. -/
def Pc.outside : Pc → Bool
  | .returned _ => true
  | _ => false

namespace State

variable {T : Type} [DecidableEq T]

/-- A new value of a `channel_t`. -/
def setChan (s : State T) (c : ChannelPtr) (value : Channel) : State T :=
  { s with chan := Function.update s.chan c value }

/-- A `channel_t` with its mutex set or released. -/
def setLock (s : State T) (c : ChannelPtr) (lock : Bool) : State T :=
  s.setChan c { s.chan c with lock := lock }

/-- The thread is at another place. -/
def goto (s : State T) (t : T) (pc : Pc) : State T :=
  { s with thread := Function.update s.thread t pc }

/-- `wait_on` up to the switch. -/
def park (s : State T) (t : T) (pc : Pc) : State T :=
  { s.goto t pc with waiters := t :: s.waiters }

/-- `wait_on` behind the switch. -/
def unpark (s : State T) (t : T) (pc : Pc) : State T :=
  { s.goto t pc with waiters := s.waiters.erase t }

/-- `resume_on`. -/
def resumeOn (s : State T) (x : ChannelPtr) : State T :=
  s.waiters.foldl (fun s t =>
    if (s.thread t).pausedOn = some x then s.goto t (s.thread t).resumed else s) s

end State

section Steps

variable {T : Type} [DecidableEq T]

/-- The next step of `channel_read`. -/
def readStep (t : T) (call : ReadCall) (s : State T) : Place → Option (State T)
  | .lock =>
      if (s.chan call.c).lock then some s
      else some ((s.setLock call.c true).goto t (.read .held call))
  | .held => some (s.goto t (.read (.measured (readLen call (s.chan call.c).bufUsed)) call))
  | .measured len =>
      if len = 0 then some (s.goto t (.read .idle call))
      else
        match (s.chan call.c).copyOut len with
        | .error _ => none
        | .ok block => some ((s.setChan call.c ((s.chan call.c).advance len)).goto t
            (.read .moved { call with ret := call.ret ++ block }))
  | .moved => some ((s.resumeOn call.c).goto t (.read .woken call))
  | .woken => some ((s.setLock call.c false).goto t (readNext call))
  | .idle =>
      if call.blocking then some ((s.setLock call.c false).park t (.read .paused call))
      else some ((s.setLock call.c false).goto t (readNext call))
  | .resumed => some (s.unpark t (readNext call))
  | .yielding | .paused => none

/-- The next step of `channel_write`. The `break` behind `yield` leaves only the loop that waits for
the mutex. -/
def writeStep (t : T) (call : WriteCall) (s : State T) : Place → Option (State T)
  | .lock =>
      if (s.chan call.c).lock then some (s.goto t (.write .yielding call))
      else some ((s.setLock call.c true).goto t (.write .held call))
  | .yielding =>
      if (s.chan call.tc).otherSide = none then some (s.goto t (.write .held call))
      else some (s.goto t (.write .lock call))
  | .held => some (s.goto t (.write (.measured (writeLen call (s.chan call.c).bufUsed)) call))
  | .measured len =>
      if len = 0 then some (s.goto t (.write .idle call))
      else
        match (s.chan call.c).copyIn len (call.data.drop call.ret.toNat) with
        | .error _ => none
        | .ok cells => some ((s.setChan call.c { s.chan call.c with
            buf := cells
            bufUsed := (s.chan call.c).bufUsed + len }).goto t
            (.write .moved { call with ret := call.ret + len }))
  | .moved => some ((s.resumeOn call.c).goto t (.write .woken call))
  | .woken => some ((s.setLock call.c false).goto t (writeNext call))
  | .idle =>
      if call.blocking then some ((s.setLock call.c false).park t (.write .paused call))
      else some ((s.setLock call.c false).goto t (writeNext call))
  | .resumed => some (s.unpark t (writeNext call))
  | .paused => none

/-- The next step of a thread. -/
def callStep (t : T) (s : State T) : Option (State T) :=
  match s.thread t with
  | .returned _ => none
  | .writeBegin tc blocking data =>
      match (s.chan tc).otherSide with
      | none => some (s.goto t (.returned (.wrote 0)))
      | some e => some (s.goto t (.write .lock
          { tc := tc, c := (tc.1, e), blocking := blocking, data := data, ret := 0 }))
  | .read place call => readStep t call s place
  | .write place call => writeStep t call s place

/-- `file_read` on a handle of an end. -/
def fileRead (c : ChannelPtr) (blocking : Bool) (len : UInt32) : Pc :=
  if len = 0 then .returned (.read [])
  else .read .lock { c := c, blocking := blocking, reqLen := len, ret := [] }

/-- `file_write` on a handle of an end. -/
def fileWrite (tc : ChannelPtr) (blocking : Bool) (data : List UInt8) : Pc :=
  if data.length = 0 then .returned (.wrote 0) else .writeBegin tc blocking data

/-- A thread that is in no call begins one, or a thread makes its next step. -/
inductive Event (T : Type) where
  | read (t : T) (c : ChannelPtr) (blocking : Bool) (len : UInt32)
  | write (t : T) (tc : ChannelPtr) (blocking : Bool) (data : List UInt8)
  | step (t : T)
  deriving DecidableEq

/-- The state after an event. -/
def eventStep (s : State T) : Event T → Option (State T)
  | .read t c blocking len =>
      if (s.thread t).outside then some (s.goto t (fileRead c blocking len)) else none
  | .write t tc blocking data =>
      if (s.thread t).outside then some (s.goto t (fileWrite tc blocking data)) else none
  | .step t => callStep t s

/-- `probe_for_read` has found the bytes below the kernel. -/
def Event.Probed : Event T → Prop
  | .write _ _ _ data => data.length ≤ 0xC0000000
  | _ => True

/-- Channels with both ends open, between two calls. -/
structure State.Initial (s : State T) : Prop where
  valid : ∀ c, (s.chan c).Valid
  lock : ∀ c, (s.chan c).lock = false
  link : ∀ c, (s.chan c).otherSide = some c.2.other
  outside : ∀ t, (s.thread t).outside = true
  waiters : s.waiters = []

/-- The runs of the threads. -/
def waiterRuns (T : Type) [DecidableEq T] : System (State T) :=
  eventRuns State.Initial eventStep fun _ event => event.Probed

end Steps

/-- What a thread waits for in `channel_read`. -/
def readReady (bufUsed : UInt32) : Prop := 0 < bufUsed

/-- What a thread waits for in `channel_write`. -/
def writeReady (bufUsed : UInt32) : Prop := bufUsed < channelBufferSize

/-- The thread is parked although what it waits for is there. -/
def State.Misses {T : Type} (s : State T) (t : T) : Prop :=
  (∃ call, s.thread t = .read .paused call ∧ readReady (s.chan call.c).bufUsed) ∨
    ∃ call, s.thread t = .write .paused call ∧ writeReady (s.chan call.c).bufUsed

/-- Every thread is parked, or outside the calls. -/
def State.Rests {T : Type} (s : State T) : Prop :=
  ∀ t, (∃ c, (s.thread t).pausedOn = some c) ∨ (s.thread t).outside = true

section Monitors

/-- Where a thread is in the monitor of the end of its call. -/
def Place.phase (len : UInt32 → UInt32) (ready : UInt32 → Prop) : Place → Monitor.Phase UInt32
  | .held | .woken => .inside (fun _ => True) false
  | .measured l => .inside (fun used => l = len used) false
  | .idle => .inside (fun used => ¬ ready used) false
  | .moved => .inside (fun _ => True) true
  | .paused => .parked ready
  | .lock | .yielding | .resumed => .outside

/-- Where a thread is in the monitor of the end `c`. -/
def Pc.phase (c : ChannelPtr) : Pc → Monitor.Phase UInt32
  | .read place call => if call.c = c then place.phase (readLen call) readReady else .outside
  | .write place call => if call.c = c then place.phase (writeLen call) writeReady else .outside
  | _ => .outside

variable {T : Type}

/-- The monitor of an end. -/
def State.monitor (s : State T) (c : ChannelPtr) : Monitor.State T UInt32 where
  value := (s.chan c).bufUsed
  locked := (s.chan c).lock
  phase := fun t => (s.thread t).phase c

/-- The thread is in the part of the loop in which something is still to be moved. -/
def Place.wanting : Place → Bool
  | .moved | .woken => false
  | _ => true

/-- What holds of the variables of a call. -/
def Pc.Proper : Pc → Prop
  | .returned _ => True
  | .writeBegin _ _ data => 0 < data.length ∧ data.length ≤ 0xC0000000
  | .read place call => call.ret.length ≤ call.reqLen.toNat ∧
      (place.wanting = true → call.ret.length < call.reqLen.toNat)
  | .write place call => call.c = call.tc.other ∧ call.data.length ≤ 0xC0000000 ∧
      call.ret.toNat ≤ call.data.length ∧
      (place.wanting = true → call.ret.toNat < call.data.length)

/-- The invariant. -/
structure State.Sound (s : State T) : Prop where
  monitor : ∀ c, Monitor.Sound (s.monitor c)
  valid : ∀ c, (s.chan c).Valid
  link : ∀ c, (s.chan c).otherSide = some c.2.other
  proper : ∀ t, (s.thread t).Proper
  waiters : ∀ t, t ∈ s.waiters ↔ (s.thread t).waits = true
  nodup : s.waiters.Nodup

end Monitors

section Lengths

/-- `len` in `channel_read` is 0 only if there is nothing in the buffer, and it leaves the request
and the buffer. -/
theorem read_len_spec (call : ReadCall) (used : UInt32) (h : call.ret.length ≤ call.reqLen.toNat) :
    (readLen call used).toNat ≤ used.toNat ∧
      call.ret.length + (readLen call used).toNat ≤ call.reqLen.toNat ∧
        (call.ret.length < call.reqLen.toNat → readLen call used = 0 → ¬ readReady used) := by
  have hlen : (readLen call used).toNat = _ := Channel.cut_to_used ..
  rw [ReadCall.rest_to_nat h] at hlen
  refine ⟨by omega, by omega, fun hwant hzero hready => ?_⟩
  have hpos := UInt32.lt_iff_toNat_lt.mp hready
  rw [hzero] at hlen
  change 0 = _ at hlen
  change 0 < _ at hpos
  omega

/-- `len` in `channel_write` is 0 only if there is no room. -/
theorem write_len_spec (call : WriteCall) {used : UInt32} (hused : used.toNat ≤ 200)
    (hdata : call.data.length ≤ 0xC0000000) (h : call.ret.toNat ≤ call.data.length) :
    used.toNat + (writeLen call used).toNat ≤ 200 ∧
      call.ret.toNat + (writeLen call used).toNat ≤ call.data.length ∧
        (call.ret.toNat < call.data.length → writeLen call used = 0 → ¬ writeReady used) := by
  have hrest := WriteCall.rest_to_nat (by omega) h
  have hlen : (writeLen call used).toNat = _ := Channel.cut_to_room hused (by omega)
  rw [hrest] at hlen
  refine ⟨by omega, by omega, fun hwant hzero hready => ?_⟩
  have hroom := UInt32.lt_iff_toNat_lt.mp hready
  rw [hzero] at hlen
  change 0 = _ at hlen
  change _ < 200 at hroom
  omega

end Lengths

section Phases

variable {c : ChannelPtr}

@[simp] theorem phase_read_self (place : Place) (call : ReadCall) :
    (Pc.read place call).phase call.c = place.phase (readLen call) readReady :=
  if_pos rfl

@[simp] theorem phase_write_self (place : Place) (call : WriteCall) :
    (Pc.write place call).phase call.c = place.phase (writeLen call) writeReady :=
  if_pos rfl

theorem phase_read_of_ne {call : ReadCall} (h : c ≠ call.c) (place : Place) :
    (Pc.read place call).phase c = .outside :=
  if_neg (Ne.symm h)

theorem phase_write_of_ne {call : WriteCall} (h : c ≠ call.c) (place : Place) :
    (Pc.write place call).phase c = .outside :=
  if_neg (Ne.symm h)

@[simp] theorem phase_read_next (call : ReadCall) : (readNext call).phase c = .outside := by
  unfold readNext
  split
  · exact ite_self _
  · rfl

@[simp] theorem phase_write_next (call : WriteCall) : (writeNext call).phase c = .outside := by
  unfold writeNext
  split
  · exact ite_self _
  · rfl

@[simp] theorem waits_read_next (call : ReadCall) : (readNext call).waits = false := by
  unfold readNext
  split <;> rfl

@[simp] theorem waits_write_next (call : WriteCall) : (writeNext call).waits = false := by
  unfold writeNext
  split <;> rfl

theorem proper_read_next {call : ReadCall} (h : call.ret.length ≤ call.reqLen.toNat) :
    (readNext call).Proper := by
  unfold readNext
  split
  · next hnext =>
      have hlt := UInt32.lt_iff_toNat_lt.mp (of_decide_eq_true (Bool.and_eq_true_iff.mp hnext).2)
      have hreq := call.reqLen.toNat_lt
      rw [UInt32.toNat_ofNat_of_lt' (by show _ < 2 ^ 32; omega)] at hlt
      exact ⟨h, fun _ => hlt⟩
  · trivial

theorem proper_write_next {call : WriteCall} (hc : call.c = call.tc.other)
    (hdata : call.data.length ≤ 0xC0000000) (h : call.ret.toNat ≤ call.data.length) :
    (writeNext call).Proper := by
  unfold writeNext
  split
  · next hnext =>
      have hlt := UInt32.lt_iff_toNat_lt.mp (of_decide_eq_true (Bool.and_eq_true_iff.mp hnext).2)
      rw [UInt32.toNat_ofNat_of_lt' (by show _ < 2 ^ 32; omega)] at hlt
      exact ⟨hc, hdata, h, fun _ => hlt⟩
  · trivial

/-- A thread that is parked at an end. -/
theorem paused_cases {pc : Pc} (h : pc.pausedOn = some c) :
    (∃ call, pc = .read .paused call ∧ call.c = c) ∨
      ∃ call, pc = .write .paused call ∧ call.c = c := by
  cases pc with
  | returned | writeBegin => cases h
  | read place call =>
      cases place with
      | paused => exact .inl ⟨call, rfl, Option.some.inj h⟩
      | _ => cases h
  | write place call =>
      cases place with
      | paused => exact .inr ⟨call, rfl, Option.some.inj h⟩
      | _ => cases h

theorem phase_resumed {pc : Pc} (h : pc.pausedOn = some c) (d : ChannelPtr) :
    pc.resumed.phase d = .outside := by
  obtain ⟨call, rfl, -⟩ | ⟨call, rfl, -⟩ := paused_cases h
  · exact ite_self _
  · exact ite_self _

theorem phase_of_ne_paused {pc : Pc} (h : pc.pausedOn = some c) {d : ChannelPtr} (hd : d ≠ c) :
    pc.phase d = .outside := by
  obtain ⟨call, rfl, rfl⟩ | ⟨call, rfl, rfl⟩ := paused_cases h
  · exact phase_read_of_ne hd _
  · exact phase_write_of_ne hd _

theorem woken_of_paused {pc : Pc} (h : pc.pausedOn = some c) :
    (pc.phase c).woken = .outside := by
  obtain ⟨call, rfl, rfl⟩ | ⟨call, rfl, rfl⟩ := paused_cases h
  · rw [phase_read_self]
    rfl
  · rw [phase_write_self]
    rfl

theorem pausedOn_resumed {pc : Pc} (h : pc.pausedOn = some c) :
    pc.resumed.pausedOn = none ∧ pc.waits = true ∧ pc.resumed.waits = true := by
  obtain ⟨call, rfl, -⟩ | ⟨call, rfl, -⟩ := paused_cases h
  · exact ⟨rfl, rfl, rfl⟩
  · exact ⟨rfl, rfl, rfl⟩

theorem proper_resumed {pc : Pc} (h : pc.Proper) : pc.resumed.Proper := by
  cases pc with
  | returned | writeBegin => exact h
  | read place call => cases place <;> exact h
  | write place call => cases place <;> exact h

/-- A thread that is not parked at an end is not parked in its monitor. -/
theorem woken_phase {pc : Pc} (h : pc.pausedOn ≠ some c) :
    (pc.phase c).woken = pc.phase c := by
  cases pc with
  | returned | writeBegin => rfl
  | read place call =>
      show Monitor.Phase.woken (ite _ _ _) = ite _ _ _
      split
      · next hc =>
          cases place with
          | paused => exact absurd (congrArg some hc) h
          | _ => rfl
      · rfl
  | write place call =>
      show Monitor.Phase.woken (ite _ _ _) = ite _ _ _
      split
      · next hc =>
          cases place with
          | paused => exact absurd (congrArg some hc) h
          | _ => rfl
      · rfl

end Phases

section Moves

variable {T : Type} [DecidableEq T] {s : State T} {t : T} {c x : ChannelPtr} {pc : Pc}
  {value : Channel}

theorem monitor_goto : (s.goto t pc).monitor c =
    { s.monitor c with phase := Function.update (s.monitor c).phase t (pc.phase c) } := by
  have hphase : (fun u => (Function.update s.thread t pc u).phase c) =
      Function.update (fun u => (s.thread u).phase c) t (pc.phase c) := by
    funext u
    by_cases hu : u = t
    · rw [hu, Function.update_self, Function.update_self]
    · rw [Function.update_of_ne hu, Function.update_of_ne hu]
  unfold State.monitor State.goto
  rw [hphase]

theorem monitor_goto_of_phase (h : pc.phase c = (s.thread t).phase c) :
    (s.goto t pc).monitor c = s.monitor c := by
  rw [monitor_goto, h]
  exact congrArg (fun phase => { s.monitor c with phase := phase })
    (Function.update_eq_self t (s.monitor c).phase)

omit [DecidableEq T] in
theorem monitor_set_chan_self : (s.setChan c value).monitor c =
    { s.monitor c with value := value.bufUsed, locked := value.lock } := by
  have hself : (s.setChan c value).chan c = value := Function.update_self ..
  unfold State.monitor
  rw [hself]
  rfl

omit [DecidableEq T] in
theorem monitor_set_chan_of_ne (h : c ≠ x) : (s.setChan x value).monitor c = s.monitor c := by
  have hsame : (s.setChan x value).chan c = s.chan c := Function.update_of_ne h ..
  unfold State.monitor
  rw [hsame]
  rfl

/-- `resume_on`, for the threads of a list. -/
theorem resume_list (l : List T) (s : State T) :
    let s' := l.foldl (fun s t =>
      if (s.thread t).pausedOn = some x then s.goto t (s.thread t).resumed else s) s
    s'.chan = s.chan ∧ s'.waiters = s.waiters ∧ ∀ u, s'.thread u =
      if u ∈ l ∧ (s.thread u).pausedOn = some x then (s.thread u).resumed else s.thread u := by
  induction l generalizing s with
  | nil => exact ⟨rfl, rfl, fun u => (if_neg fun h => nomatch h.1).symm⟩
  | cons t l ih =>
      rw [List.foldl_cons]
      split
      · next hpaused =>
          obtain ⟨hchan, hwaiters, hthread⟩ := ih (s.goto t (s.thread t).resumed)
          refine ⟨hchan, hwaiters, fun u => (hthread u).trans ?_⟩
          by_cases hu : u = t
          · have hself : (s.goto t (s.thread t).resumed).thread u = (s.thread t).resumed := by
              rw [hu]
              exact Function.update_self ..
            rw [hself, (pausedOn_resumed hpaused).1, if_neg nofun, hu,
              if_pos ⟨List.mem_cons_self, hpaused⟩]
          · have hsame : (s.goto t (s.thread t).resumed).thread u = s.thread u :=
              Function.update_of_ne hu ..
            rw [hsame]
            exact if_congr (and_congr_left' (List.mem_cons.trans (or_iff_right hu)).symm) rfl rfl
      · next hnot =>
          obtain ⟨hchan, hwaiters, hthread⟩ := ih s
          refine ⟨hchan, hwaiters, fun u => (hthread u).trans ?_⟩
          by_cases hu : u = t
          · rw [hu, if_neg fun h => hnot h.2, if_neg fun h => hnot h.2]
          · exact if_congr (and_congr_left' (List.mem_cons.trans (or_iff_right hu)).symm) rfl rfl

/-- Every waiter that is parked at the end is woken, and nobody else. -/
theorem resume_on_thread (h : s.Sound) (u : T) : (s.resumeOn x).thread u =
    if (s.thread u).pausedOn = some x then (s.thread u).resumed else s.thread u := by
  refine ((resume_list s.waiters s).2.2 u).trans (if_congr ?_ rfl rfl)
  exact and_iff_right_of_imp fun hpaused =>
    (h.waiters u).mpr (pausedOn_resumed hpaused).2.1

theorem resume_on_monitor_self (h : s.Sound) : (s.resumeOn x).monitor x =
    { s.monitor x with phase := fun u => ((s.monitor x).phase u).woken } := by
  have hphase : (fun u => ((s.resumeOn x).thread u).phase x) =
      fun u => ((s.thread u).phase x).woken := by
    funext u
    rw [resume_on_thread h]
    split
    · next hpaused => rw [phase_resumed hpaused, woken_of_paused hpaused]
    · next hnot => rw [woken_phase hnot]
  unfold State.monitor
  rw [hphase, show (s.resumeOn x).chan = s.chan from (resume_list s.waiters s).1]

theorem resume_on_monitor_of_ne (h : s.Sound) (hc : c ≠ x) :
    (s.resumeOn x).monitor c = s.monitor c := by
  have hphase : (fun u => ((s.resumeOn x).thread u).phase c) = fun u => (s.thread u).phase c := by
    funext u
    rw [resume_on_thread h]
    split
    · next hpaused => rw [phase_resumed hpaused, phase_of_ne_paused hpaused hc]
    · rfl
  unfold State.monitor
  rw [hphase, show (s.resumeOn x).chan = s.chan from (resume_list s.waiters s).1]

end Moves

section Sound

variable {T : Type} [DecidableEq T] {s s' : State T} {t : T} {x : ChannelPtr} {pc : Pc}
  {value : Channel} {waiters : List T}

/-- Where the other threads are is the same. -/
theorem goto_cases {motive : T → Pc → Prop} (hself : motive t pc)
    (hother : ∀ u, u ≠ t → motive u (s.thread u)) (u : T) : motive u ((s.goto t pc).thread u) := by
  show motive u (Function.update s.thread t pc u)
  by_cases hu : u = t
  · rw [hu, Function.update_self]
    exact hself
  · rw [Function.update_of_ne hu]
    exact hother u hu

section

variable (h : s.Sound)

include h

theorem State.Sound.proper_goto (hproper : pc.Proper) (u : T) :
    ((s.goto t pc).thread u).Proper :=
  goto_cases (motive := fun _ p => p.Proper) hproper (fun u _ => h.proper u) u

theorem State.Sound.waiters_same (hwaits : pc.waits = (s.thread t).waits) (u : T) :
    u ∈ s.waiters ↔ ((s.goto t pc).thread u).waits = true :=
  goto_cases (motive := fun u p => u ∈ s.waiters ↔ p.waits = true)
    (by rw [hwaits]; exact h.waiters t) (fun u _ => h.waiters u) u

theorem State.Sound.waiters_park (hwaits : pc.waits = true) (u : T) :
    u ∈ t :: s.waiters ↔ ((s.goto t pc).thread u).waits = true :=
  goto_cases (motive := fun u p => u ∈ t :: s.waiters ↔ p.waits = true)
    (iff_of_true List.mem_cons_self hwaits)
    (fun u hu => (List.mem_cons.trans (or_iff_right hu)).trans (h.waiters u)) u

theorem State.Sound.waiters_unpark (hwaits : pc.waits = false) (u : T) :
    u ∈ s.waiters.erase t ↔ ((s.goto t pc).thread u).waits = true :=
  goto_cases (motive := fun u p => u ∈ s.waiters.erase t ↔ p.waits = true)
    (iff_of_false (fun hmem => (h.nodup.mem_erase_iff.mp hmem).1 rfl)
      (by rw [hwaits]; exact Bool.false_ne_true))
    (fun u hu => (h.nodup.mem_erase_iff.trans (and_iff_right hu)).trans (h.waiters u)) u

/-- A thread goes on outside of the monitors. -/
theorem State.Sound.goto (hphase : ∀ c, pc.phase c = (s.thread t).phase c)
    (hproper : pc.Proper)
    (hwaiters : ∀ u, u ∈ waiters ↔ ((s.goto t pc).thread u).waits = true)
    (hnodup : waiters.Nodup) : State.Sound { s.goto t pc with waiters := waiters } where
  monitor := fun c => by
    show Monitor.Sound ((s.goto t pc).monitor c)
    rw [monitor_goto_of_phase (hphase c)]
    exact h.monitor c
  valid := h.valid
  link := h.link
  proper := h.proper_goto hproper
  waiters := hwaiters
  nodup := hnodup

/-- A thread makes a step of the monitor of an end. -/
theorem State.Sound.at_end (value : Channel)
    (hstep : Monitor.Step (s.monitor x)
      { value := value.bufUsed
        locked := value.lock
        phase := Function.update (s.monitor x).phase t (pc.phase x) })
    (helse : ∀ c, c ≠ x → pc.phase c = (s.thread t).phase c)
    (hlink : value.otherSide = (s.chan x).otherSide) (hvalid : value.Valid) (hproper : pc.Proper)
    (hwaiters : ∀ u, u ∈ waiters ↔ ((s.goto t pc).thread u).waits = true)
    (hnodup : waiters.Nodup) :
    State.Sound { (s.setChan x value).goto t pc with waiters := waiters } where
  monitor := fun c => by
    show Monitor.Sound (((s.setChan x value).goto t pc).monitor c)
    by_cases hc : c = x
    · rw [hc, monitor_goto, monitor_set_chan_self]
      exact hstep.sound (h.monitor x)
    · rw [monitor_goto_of_phase (s := s.setChan x value) (helse c hc), monitor_set_chan_of_ne hc]
      exact h.monitor c
  valid := fun c => by
    show (Function.update s.chan x value c).Valid
    by_cases hc : c = x
    · rw [hc, Function.update_self]
      exact hvalid
    · rw [Function.update_of_ne hc]
      exact h.valid c
  link := fun c => by
    show (Function.update s.chan x value c).otherSide = _
    by_cases hc : c = x
    · rw [hc, Function.update_self, hlink]
      exact h.link x
    · rw [Function.update_of_ne hc]
      exact h.link c
  proper := h.proper_goto hproper
  waiters := hwaiters
  nodup := hnodup

/-- A thread releases the mutex of an end and parks. -/
theorem State.Sound.park {knows ready : UInt32 → Prop}
    (hat : (s.thread t).phase x = .inside knows false) (hpc : pc.phase x = .parked ready)
    (hready : ∀ used, knows used → ¬ ready used)
    (helse : ∀ c, c ≠ x → pc.phase c = (s.thread t).phase c) (hproper : pc.Proper)
    (hnot : (s.thread t).waits = false) (hwaits : pc.waits = true) :
    ((s.setLock x false).park t pc).Sound := by
  have hnew : t ∉ s.waiters := fun hmem => by
    rw [(h.waiters t).mp hmem] at hnot
    cases hnot
  exact h.at_end { s.chan x with lock := false } (hpc ▸ .park hat hready) helse rfl
    ⟨(h.valid x).1, (h.valid x).2⟩ hproper (h.waiters_park hwaits)
    (List.nodup_cons.mpr ⟨hnew, h.nodup⟩)

section

variable (helse : ∀ c, c ≠ x → pc.phase c = (s.thread t).phase c) (hproper : pc.Proper)
  (hwaits : pc.waits = (s.thread t).waits)

include helse hproper hwaits

/-- A thread that holds the mutex of an end learns something about the buffer. -/
theorem State.Sound.learn {knows knows' : UInt32 → Prop}
    (hat : (s.thread t).phase x = .inside knows false) (hpc : pc.phase x = .inside knows' false)
    (hknows : knows (s.chan x).bufUsed → knows' (s.chan x).bufUsed) : (s.goto t pc).Sound := by
  have hsame : s.setChan x (s.chan x) = s := by
    unfold State.setChan
    rw [Function.update_eq_self]
  have hnext := h.at_end (s.chan x) (hpc ▸ .act hat hknows fun _ => ⟨rfl, rfl⟩) helse rfl
    (h.valid x) hproper (h.waiters_same hwaits) h.nodup
  rw [hsame] at hnext
  exact hnext

/-- A thread takes the mutex of an end. -/
theorem State.Sound.enter (hfree : (s.chan x).lock = false)
    (hat : (s.thread t).phase x = .outside) (hpc : pc.phase x = .inside (fun _ => True) false) :
    ((s.setLock x true).goto t pc).Sound :=
  h.at_end { s.chan x with lock := true } (hpc ▸ .enter hfree hat) helse rfl
    ⟨(h.valid x).1, (h.valid x).2⟩ hproper (h.waiters_same hwaits) h.nodup

/-- A thread changes the buffer of an end. -/
theorem State.Sound.change {knows : UInt32 → Prop}
    (hat : (s.thread t).phase x = .inside knows false)
    (hpc : pc.phase x = .inside (fun _ => True) true) (hlock : value.lock = (s.chan x).lock)
    (hlink : value.otherSide = (s.chan x).otherSide) (hvalid : value.Valid) :
    ((s.setChan x value).goto t pc).Sound := by
  refine h.at_end value ?_ helse hlink hvalid hproper (h.waiters_same hwaits) h.nodup
  rw [hpc, hlock]
  exact .act hat (fun _ => trivial) nofun

/-- A thread releases the mutex of an end. -/
theorem State.Sound.leave {knows : UInt32 → Prop}
    (hat : (s.thread t).phase x = .inside knows false) (hpc : pc.phase x = .outside) :
    ((s.setLock x false).goto t pc).Sound :=
  h.at_end { s.chan x with lock := false } (hpc ▸ .leave hat) helse rfl
    ⟨(h.valid x).1, (h.valid x).2⟩ hproper (h.waiters_same hwaits) h.nodup

/-- A thread wakes those that are parked at an end. -/
theorem State.Sound.wake (hat : (s.thread t).phase x = .inside (fun _ => True) true)
    (hpc : pc.phase x = .inside (fun _ => True) false) : ((s.resumeOn x).goto t pc).Sound := by
  obtain ⟨hchan, hwaiters, -⟩ := resume_list (x := x) s.waiters s
  change (s.resumeOn x).chan = _ at hchan
  change (s.resumeOn x).waiters = _ at hwaiters
  have hself : (s.resumeOn x).thread t = s.thread t := by
    rw [resume_on_thread h, if_neg]
    intro hpaused
    have hwoken := woken_of_paused hpaused
    rw [hat] at hwoken
    cases hwoken
  refine ⟨fun c => ?_, fun c => ?_, fun c => ?_, ?_, ?_, ?_⟩
  · by_cases hc : c = x
    · rw [hc, monitor_goto, resume_on_monitor_self h, hpc]
      exact (Monitor.Step.wake hat).sound (h.monitor x)
    · rw [monitor_goto_of_phase (by rw [hself]; exact helse c hc), resume_on_monitor_of_ne h hc]
      exact h.monitor c
  · show ((s.resumeOn x).chan c).Valid
    rw [hchan]
    exact h.valid c
  · show ((s.resumeOn x).chan c).otherSide = _
    rw [hchan]
    exact h.link c
  · refine goto_cases (motive := fun _ p => p.Proper) hproper fun u _ => ?_
    rw [resume_on_thread h]
    split
    · exact proper_resumed (h.proper u)
    · exact h.proper u
  · show ∀ u, u ∈ (s.resumeOn x).waiters ↔ _
    rw [hwaiters]
    refine goto_cases (motive := fun u p => u ∈ s.waiters ↔ p.waits = true) ?_ fun u _ => ?_
    · rw [hwaits]
      exact h.waiters t
    · rw [resume_on_thread h, h.waiters u]
      split
      · next hpaused =>
          obtain ⟨-, hold, hnew⟩ := pausedOn_resumed hpaused
          rw [hold, hnew]
      · exact Iff.rfl
  · show (s.resumeOn x).waiters.Nodup
    rw [hwaiters]
    exact h.nodup

end

/-- A step of `channel_read`. -/
theorem State.Sound.read_step {place : Place} {call : ReadCall}
    (hat : s.thread t = .read place call) (hstep : readStep t call s place = some s') :
    s'.Sound := by
  obtain ⟨hle, hwant⟩ : (Pc.read place call).Proper := hat ▸ h.proper t
  have hphase : (s.thread t).phase call.c = place.phase (readLen call) readReady := by
    rw [hat, phase_read_self]
  have helse : ∀ {place'} {call' : ReadCall}, call'.c = call.c → ∀ c, c ≠ call.c →
      (Pc.read place' call').phase c = (s.thread t).phase c := fun heq c hc => by
    rw [hat, phase_read_of_ne hc, phase_read_of_ne (heq ▸ hc)]
  have hnext : ∀ c, c ≠ call.c → (readNext call).phase c = (s.thread t).phase c := fun c hc => by
    rw [hat, phase_read_of_ne hc, phase_read_next]
  cases place with
  | yielding | paused => cases hstep
  | lock =>
      simp only [readStep] at hstep
      split at hstep
      · cases hstep
        exact h
      · next hfree =>
          cases hstep
          exact h.enter (helse rfl) ⟨hle, fun _ => hwant rfl⟩ (hat ▸ rfl)
            (Bool.eq_false_iff.mpr hfree) hphase (phase_read_self ..)
  | held =>
      cases hstep
      exact h.learn (helse rfl) ⟨hle, fun _ => hwant rfl⟩ (hat ▸ rfl) hphase
        (phase_read_self ..) fun _ => rfl
  | measured len =>
      obtain ⟨hused, hreq, hempty⟩ := read_len_spec call (s.chan call.c).bufUsed hle
      have hlen : len = readLen call (s.chan call.c).bufUsed :=
        (h.monitor call.c).knows t _ _ hphase
      simp only [readStep] at hstep
      split at hstep
      · next hzero =>
          cases hstep
          exact h.learn (helse rfl) ⟨hle, fun _ => hwant rfl⟩ (hat ▸ rfl) hphase
            (phase_read_self ..) fun _ => hempty (hwant rfl) (hlen ▸ hzero)
      · split at hstep
        · cases hstep
        · next block hcopy =>
            cases hstep
            rw [← hlen] at hused hreq
            have hvalid := h.valid call.c
            rw [Channel.copy_out_spec hvalid hused] at hcopy
            obtain rfl := Except.ok.inj hcopy
            refine h.change (helse rfl) ⟨?_, nofun⟩ (hat ▸ rfl) hphase (phase_read_self ..) rfl rfl
              (Channel.advance_spec hvalid hused).1
            show (call.ret ++ _).length ≤ call.reqLen.toNat
            rw [List.length_append, List.length_take, Channel.length_queue]
            omega
  | moved =>
      cases hstep
      exact h.wake (helse rfl) ⟨hle, nofun⟩ (hat ▸ rfl) hphase (phase_read_self ..)
  | woken =>
      cases hstep
      exact h.leave hnext (proper_read_next hle) (by rw [waits_read_next, hat]; rfl)
        hphase (phase_read_next call)
  | idle =>
      simp only [readStep] at hstep
      split at hstep
      · cases hstep
        exact h.park hphase (phase_read_self ..) (fun _ => id) (helse rfl)
          ⟨hle, fun _ => hwant rfl⟩ (hat ▸ rfl) rfl
      · cases hstep
        exact h.leave hnext (proper_read_next hle) (by rw [waits_read_next, hat]; rfl)
          hphase (phase_read_next call)
  | resumed =>
      cases hstep
      refine h.goto (fun c => ?_) (proper_read_next hle)
        (h.waiters_unpark (waits_read_next call)) (h.nodup.erase t)
      rw [phase_read_next, hat]
      exact (ite_self _).symm

/-- A step of the loop of `channel_write`. -/
theorem State.Sound.write_step {place : Place} {call : WriteCall}
    (hat : s.thread t = .write place call) (hstep : writeStep t call s place = some s') :
    s'.Sound := by
  obtain ⟨hc, hdata, hle, hwant⟩ : (Pc.write place call).Proper := hat ▸ h.proper t
  have hphase : (s.thread t).phase call.c = place.phase (writeLen call) writeReady := by
    rw [hat, phase_write_self]
  have helse : ∀ {place'} {call' : WriteCall}, call'.c = call.c → ∀ c, c ≠ call.c →
      (Pc.write place' call').phase c = (s.thread t).phase c := fun heq c hc => by
    rw [hat, phase_write_of_ne hc, phase_write_of_ne (heq ▸ hc)]
  have hnext : ∀ c, c ≠ call.c → (writeNext call).phase c = (s.thread t).phase c := fun c hc => by
    rw [hat, phase_write_of_ne hc, phase_write_next]
  cases place with
  | paused => cases hstep
  | lock =>
      simp only [writeStep] at hstep
      split at hstep
      · cases hstep
        refine h.goto (fun c => ?_) ⟨hc, hdata, hle, fun _ => hwant rfl⟩
          (h.waiters_same (hat ▸ rfl)) h.nodup
        rw [hat]
        rfl
      · next hfree =>
          cases hstep
          exact h.enter (helse rfl) ⟨hc, hdata, hle, fun _ => hwant rfl⟩ (hat ▸ rfl)
            (Bool.eq_false_iff.mpr hfree) hphase (phase_write_self ..)
  | yielding =>
      simp only [writeStep] at hstep
      split at hstep
      · next hgone =>
          -- The other end stays open, so that the mutex is always taken.
          rw [h.link] at hgone
          cases hgone
      · cases hstep
        refine h.goto (fun c => ?_) ⟨hc, hdata, hle, fun _ => hwant rfl⟩
          (h.waiters_same (hat ▸ rfl)) h.nodup
        rw [hat]
        rfl
  | held =>
      cases hstep
      exact h.learn (helse rfl) ⟨hc, hdata, hle, fun _ => hwant rfl⟩ (hat ▸ rfl) hphase
        (phase_write_self ..) fun _ => rfl
  | measured len =>
      have hvalid := h.valid call.c
      obtain ⟨hroom, hreq, hfull⟩ := write_len_spec call hvalid.used_le hdata hle
      have hlen : len = writeLen call (s.chan call.c).bufUsed :=
        (h.monitor call.c).knows t _ _ hphase
      rw [← hlen] at hroom hreq hfull
      simp only [writeStep] at hstep
      split at hstep
      · next hzero =>
          cases hstep
          exact h.learn (helse rfl) ⟨hc, hdata, hle, fun _ => hwant rfl⟩ (hat ▸ rfl) hphase
            (phase_write_self ..) fun _ => hfull (hwant rfl) hzero
      · split at hstep
        · cases hstep
        · next cells hcopy =>
            cases hstep
            refine h.change (helse rfl) ⟨hc, hdata, ?_, nofun⟩ (hat ▸ rfl) hphase
              (phase_write_self ..) rfl rfl ⟨hvalid.begin_lt, ?_⟩
            · show (call.ret + len).toNat ≤ _
              rw [Word.toNat_add_of_lt (by omega)]
              exact hreq
            · show ((s.chan call.c).bufUsed + len).toNat ≤ 200
              rw [Word.toNat_add_of_lt (by omega)]
              exact hroom
  | moved =>
      cases hstep
      exact h.wake (helse rfl) ⟨hc, hdata, hle, nofun⟩ (hat ▸ rfl) hphase (phase_write_self ..)
  | woken =>
      cases hstep
      exact h.leave hnext (proper_write_next hc hdata hle) (by rw [waits_write_next, hat]; rfl)
        hphase (phase_write_next call)
  | idle =>
      simp only [writeStep] at hstep
      split at hstep
      · cases hstep
        exact h.park hphase (phase_write_self ..) (fun _ => id) (helse rfl)
          ⟨hc, hdata, hle, fun _ => hwant rfl⟩ (hat ▸ rfl) rfl
      · cases hstep
        exact h.leave hnext (proper_write_next hc hdata hle) (by rw [waits_write_next, hat]; rfl)
          hphase (phase_write_next call)
  | resumed =>
      cases hstep
      refine h.goto (fun c => ?_) (proper_write_next hc hdata hle)
        (h.waiters_unpark (waits_write_next call)) (h.nodup.erase t)
      rw [phase_write_next, hat]
      exact (ite_self _).symm

end

/-- A thread that is outside the calls is in no monitor. -/
theorem phase_of_outside (h : pc.outside = true) (c : ChannelPtr) :
    pc.phase c = .outside ∧ pc.waits = false := by
  cases pc with
  | returned result => exact ⟨rfl, rfl⟩
  | writeBegin | read | write => cases h

/-- A call begins. -/
theorem State.Sound.begin_call (h : s.Sound) (hout : (s.thread t).outside = true)
    (hphase : ∀ c, pc.phase c = .outside) (hproper : pc.Proper) (hwaits : pc.waits = false) :
    (s.goto t pc).Sound := by
  refine h.goto (fun c => ?_) hproper (h.waiters_same ?_) h.nodup
  · rw [hphase c, (phase_of_outside hout c).1]
  · rw [hwaits, (phase_of_outside hout (0, .a)).2]

/-- A step of a thread. -/
theorem State.Sound.call_step (h : s.Sound) (hstep : callStep t s = some s') : s'.Sound := by
  unfold callStep at hstep
  cases hat : s.thread t with
  | returned result =>
      rw [hat] at hstep
      cases hstep
  | read place call =>
      rw [hat] at hstep
      exact h.read_step hat hstep
  | write place call =>
      rw [hat] at hstep
      exact h.write_step hat hstep
  | writeBegin tc blocking data =>
      rw [hat] at hstep
      simp only [h.link tc, Option.some.injEq] at hstep
      subst hstep
      obtain ⟨hpos, hdata⟩ : (Pc.writeBegin tc blocking data).Proper := hat ▸ h.proper t
      refine h.goto (fun c => ?_) ⟨rfl, hdata, Nat.zero_le _, fun _ => hpos⟩
        (h.waiters_same (hat ▸ rfl)) h.nodup
      rw [hat]
      exact ite_self _

/-- Every event keeps the invariant. -/
theorem State.Sound.event_step (h : s.Sound) {event : Event T} (hprobed : event.Probed)
    (hstep : eventStep s event = some s') : s'.Sound := by
  cases event with
  | step t => exact h.call_step hstep
  | read t c blocking len =>
      obtain ⟨hout, hgoto⟩ := Option.ite_none_right_eq_some.mp hstep
      obtain rfl := Option.some.inj hgoto
      unfold fileRead
      split
      · exact h.begin_call hout (fun _ => rfl) trivial rfl
      · next hne =>
          refine h.begin_call hout (fun _ => ite_self _) ⟨Nat.zero_le _, fun _ => ?_⟩ rfl
          exact UInt32.pos_iff_ne_zero.mpr hne
  | write t tc blocking data =>
      obtain ⟨hout, hgoto⟩ := Option.ite_none_right_eq_some.mp hstep
      obtain rfl := Option.some.inj hgoto
      unfold fileWrite
      split
      · exact h.begin_call hout (fun _ => rfl) trivial rfl
      · next hne =>
          exact h.begin_call hout (fun _ => rfl) ⟨Nat.pos_of_ne_zero hne, hprobed⟩ rfl

omit [DecidableEq T] in
theorem State.Initial.sound (h : s.Initial) : s.Sound where
  monitor := fun c => Monitor.sound_of_outside fun t => (phase_of_outside (h.outside t) c).1
  valid := h.valid
  link := h.link
  proper := fun t => by
    have hout := h.outside t
    cases hat : s.thread t with
    | returned result => trivial
    | writeBegin | read | write =>
        rw [hat] at hout
        cases hout
  waiters := fun t => by
    rw [h.waiters, (phase_of_outside (h.outside t) (0, .a)).2]
    exact iff_of_false List.not_mem_nil Bool.false_ne_true
  nodup := h.waiters ▸ List.nodup_nil

omit [DecidableEq T] in
/-- A thread that is parked although what it waits for is there is about to be woken. -/
theorem State.Sound.misses (h : s.Sound) (hmisses : s.Misses t) :
    ∃ u c knows, (s.thread u).phase c = .inside knows true := by
  obtain ⟨call, hat, hready⟩ | ⟨call, hat, hready⟩ := hmisses
  · have hparked : (s.thread t).phase call.c = .parked readReady := by
      rw [hat, phase_read_self]
      rfl
    obtain ⟨u, knows, hu⟩ := (h.monitor call.c).woken t _ hparked hready
    exact ⟨u, call.c, knows, hu⟩
  · have hparked : (s.thread t).phase call.c = .parked writeReady := by
      rw [hat, phase_write_self]
      rfl
    obtain ⟨u, knows, hu⟩ := (h.monitor call.c).woken t _ hparked hready
    exact ⟨u, call.c, knows, hu⟩

/-- No wake-up is lost: when every thread is parked or outside the calls, no parked reader has
bytes to read and no parked writer has room. -/
theorem no_lost_wake_up (hs : Reachable (waiterRuns T) s) :
    ¬ (s.Rests ∧ ∃ t, s.Misses t) := by
  rintro ⟨hrests, t, hmisses⟩
  have hsound : s.Sound := by
    refine Reachable.induct (motive := State.Sound) ?_ ?_ hs
    · exact fun s h => h.sound
    · rintro s s' h ⟨event, hprobed, hstep⟩
      exact h.event_step hprobed hstep
  obtain ⟨u, c, knows, hu⟩ := hsound.misses hmisses
  rcases hrests u with ⟨d, hpaused⟩ | hout
  · by_cases hc : c = d
    · have hwoken := woken_of_paused hpaused
      rw [← hc, hu] at hwoken
      cases hwoken
    · rw [phase_of_ne_paused hpaused hc] at hu
      cases hu
  · rw [(phase_of_outside hout c).1] at hu
    cases hu

end Sound

section Examples

/-- A fresh channel, and two threads. -/
def freshState : State (Fin 2) where
  chan := fun c => makeChannel (fun _ => Vector.replicate 200 0) c.2
  thread := fun _ => .returned (.read [])
  waiters := []

theorem fresh_state_initial : freshState.Initial where
  valid := fun _ => ⟨show (0 : Nat) < 200 by decide, show (0 : Nat) ≤ 200 by decide⟩
  lock := fun _ => rfl
  link := fun _ => rfl
  outside := fun _ => rfl
  waiters := rfl

/-- A reader parks, a byte is written, and the reader returns it. -/
theorem parked_reader_returns : ∃ s : State (Fin 2),
    s.thread 0 = .returned (.read [7]) ∧ ¬ (s.Rests ∧ ∃ t, s.Misses t) := by
  have hrun : (runEvents eventStep (fun _ event => decide (event matches .read .. | .step _) ||
      decide (event = .write 1 (0, .b) true [7])) ([.read 0 (0, .a) true 1] ++
        List.replicate 4 (.step 0) ++ [.write 1 (0, .b) true [7]] ++
          List.replicate 6 (.step 1) ++ List.replicate 6 (.step 0)) freshState).map
      (fun s => s.thread 0) = some (.returned (.read [7])) := by
    decide +kernel
  obtain ⟨s, hrun, hreturned⟩ := Option.map_eq_some_iff.mp hrun
  refine ⟨s, hreturned, no_lost_wake_up (Reachable.run_events (fun _ event hpass => ?_)
    (.init fresh_state_initial) hrun)⟩
  cases event with
  | read | step => trivial
  | write t tc blocking data =>
      obtain ⟨-, -, -, rfl⟩ := Event.write.inj (by simpa using hpass)
      show 1 ≤ _
      decide

end Examples

end Kogata.Kernel.ChannelWaiters
