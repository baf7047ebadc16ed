import Kogata.Kernel.Channel
import Kogata.Lib.Run
import Kogata.Lib.Word

/-!
# Threads at channels

The calls of `kernel/user/ipc.c` and `select_sc` step by step, in any number of threads on any
number of channels. A step is what a thread does between two points at which another thread can
see the difference: it takes a mutex, moves bytes with the mutex held, wakes the threads that wait
and releases the mutex, or parks. `channel_dispose` is called once for each end, so its place is
kept with the end and not with the thread that calls it.
-/

namespace Kogata.Kernel

open Lib.Run

/-- `SEL_READ`. -/
abbrev selRead : UInt16 := 0x01
/-- `SEL_WRITE`. -/
abbrev selWrite : UInt16 := 0x02
/-- `SEL_ERROR`. -/
abbrev selError : UInt16 := 0x04

/-- The address of a `channel_t`: the number of the channel and the end. -/
abbrev ChannelPtr := Nat × End

/-- The opposite end of the same channel. -/
def ChannelPtr.other (c : ChannelPtr) : ChannelPtr := (c.1, c.2.other)

@[simp] theorem End.other_other (e : End) : e.other.other = e := by
  cases e <;> rfl

@[simp] theorem ChannelPtr.other_other (c : ChannelPtr) : c.other.other = c := by
  simp [ChannelPtr.other]

theorem ChannelPtr.other_ne (c : ChannelPtr) : c.other ≠ c := by
  obtain ⟨k, e⟩ := c
  cases e <;> simp [ChannelPtr.other, End.other]

/-- `sel_fd_t`. -/
structure SelFd where
  fd : Int
  reqFlags : UInt16
  gotFlags : UInt16
  deriving DecidableEq

/-- The variables of `channel_read`. -/
structure ReadCall where
  c : ChannelPtr
  /-- `h->mode & FM_BLOCKING`. -/
  blocking : Bool
  reqLen : UInt32
  ret : List UInt8
  deriving DecidableEq

/-- The variables of `channel_write`. -/
structure WriteCall where
  tc : ChannelPtr
  /-- `tc->other_side`, as it was read when the call began. -/
  c : ChannelPtr
  /-- `h->mode & FM_BLOCKING`. -/
  blocking : Bool
  data : List UInt8
  ret : UInt32
  deriving DecidableEq

/-- Where a thread is in `channel_read`: before `mutex_lock`, behind it, behind the two `memcpy`,
and in `wait_on`. -/
inductive ReadPlace where
  | lock
  | held
  | moved
  | wait
  deriving DecidableEq

/-- Where a thread is in the loop of `channel_write`: before `mutex_try_lock`, in the `yield` when
that has failed, in front of the test of the room, behind the `memcpy`, and in `wait_on`. -/
inductive WritePlace where
  | tryLock
  | yielding
  | held
  | moved
  | wait
  deriving DecidableEq

/-- What a call has returned. -/
inductive CallResult where
  | read (bytes : List UInt8)
  | wrote (len : UInt32)
  | selected (ok : Bool) (fds : List SelFd)
  deriving DecidableEq

/-- Where a thread is. In `select_sc` the entries of the array are those already polled in this
round of the loop and the others. -/
inductive CallPc where
  | returned (result : CallResult)
  | read (place : ReadPlace) (call : ReadCall)
  | writeBegin (tc : ChannelPtr) (blocking : Bool) (data : List UInt8)
  | write (place : WritePlace) (call : WriteCall)
  | selectPoll (polled rest : List SelFd) (waitObjs : List ChannelPtr) (ret : Bool)
  | selectWait (fds : List SelFd) (waitObjs : List ChannelPtr)
  deriving DecidableEq

/-- How far `channel_dispose` is for an end: not called, before `mutex_lock`, before `resume_on`,
before the link is cleared, before `free`, and behind it. -/
inductive DisposePlace where
  | opened
  | lock
  | resume
  | unlink
  | free
  | freed
  deriving DecidableEq

/-- The channels and the threads. -/
structure ChannelState (T : Type) where
  chan : ChannelPtr → Channel
  dispose : ChannelPtr → DisposePlace
  thread : T → CallPc
  /-- Some thread has accessed a `channel_t` that had been freed. -/
  dangling : Bool

/-- What `channel_read` does next behind `resume_on` or `wait_on`. -/
def ReadCall.next (call : ReadCall) : CallPc :=
  if call.blocking && UInt32.ofNat call.ret.length < call.reqLen then .read .lock call
  else .returned (.read call.ret)

theorem ReadCall.ret_to_nat {call : ReadCall} (h : call.ret.length ≤ call.reqLen.toNat) :
    (UInt32.ofNat call.ret.length).toNat = call.ret.length :=
  UInt32.toNat_ofNat_of_lt' (Nat.lt_of_le_of_lt h call.reqLen.toNat_lt)

/-- What is still wanted. -/
theorem ReadCall.rest_to_nat {call : ReadCall} (h : call.ret.length ≤ call.reqLen.toNat) :
    (call.reqLen - UInt32.ofNat call.ret.length).toNat =
      call.reqLen.toNat - call.ret.length := by
  have hret := ret_to_nat h
  rw [Lib.Word.toNat_sub_of_le (by omega), hret]

/-- What is still to be written. -/
theorem WriteCall.rest_to_nat {call : WriteCall} (hdata : call.data.length < 2 ^ 32)
    (h : call.ret.toNat ≤ call.data.length) :
    (UInt32.ofNat call.data.length - call.ret).toNat = call.data.length - call.ret.toNat := by
  have hlen : (UInt32.ofNat call.data.length).toNat = call.data.length :=
    UInt32.toNat_ofNat_of_lt' hdata
  rw [Lib.Word.toNat_sub_of_le (by omega), hlen]

/-- What `channel_write` does next behind `resume_on` or `wait_on`. -/
def WriteCall.next (call : WriteCall) : CallPc :=
  if call.blocking && call.ret < UInt32.ofNat call.data.length then .write .tryLock call
  else .returned (.wrote call.ret)

/-- `waiting_on` of the thread while it is paused. -/
def CallPc.waitingOn : CallPc → List ChannelPtr
  | .read .wait call => [call.c]
  | .write .wait call => [call.c]
  | .selectWait _ waitObjs => waitObjs
  | _ => []

/-- Where the thread goes on when it is resumed. -/
def CallPc.resumed : CallPc → CallPc
  | .read .wait call => call.next
  | .write .wait call => call.next
  | .selectWait fds _ => .selectPoll [] fds [] false
  | pc => pc

namespace ChannelState

variable {T : Type}

/-- The structure has been freed. -/
def freed (s : ChannelState T) (c : ChannelPtr) : Bool :=
  s.dispose c == .freed

/-- The `channel_t` that `other_side` points to. -/
def otherSide (s : ChannelState T) (c : ChannelPtr) : Option ChannelPtr :=
  (s.chan c).otherSide.map fun e => (c.1, e)

/-- A new value of a `channel_t`. -/
def setChan (s : ChannelState T) (c : ChannelPtr) (value : Channel) : ChannelState T :=
  { s with chan := Function.update s.chan c value }

/-- A `channel_t` with its mutex set or released. -/
def setLock (s : ChannelState T) (c : ChannelPtr) (lock : Bool) : ChannelState T :=
  s.setChan c { s.chan c with lock := lock }

/-- The thread is at another place. -/
def goto [DecidableEq T] (s : ChannelState T) (t : T) (pc : CallPc) : ChannelState T :=
  { s with thread := Function.update s.thread t pc }

/-- `channel_dispose` of the end is at another place. -/
def disposeAt (s : ChannelState T) (c : ChannelPtr) (place : DisposePlace) : ChannelState T :=
  { s with dispose := Function.update s.dispose c place }

/-- `resume_on`: every paused thread that waits on the object is put into the queue. -/
def resumeOn (s : ChannelState T) (x : ChannelPtr) : ChannelState T :=
  { s with thread := fun t =>
      if x ∈ (s.thread t).waitingOn then (s.thread t).resumed else s.thread t }

/-- `channel_poll`; the object to wait on is the `channel_t` of the end itself. -/
def channelPoll (s : ChannelState T) (c : ChannelPtr) : UInt16 :=
  (match s.otherSide c with
    | none => selError
    | some o => if (s.chan o).bufUsed < channelBufferSize then selWrite else 0) |||
  (if (s.chan c).bufUsed > 0 then selRead else 0)

section Fields

variable {s : ChannelState T} {c d : ChannelPtr} {t : T} {value : Channel}

@[simp] theorem set_chan_self : (s.setChan c value).chan c = value := Function.update_self ..

theorem set_chan_of_ne (h : d ≠ c) : (s.setChan c value).chan d = s.chan d :=
  Function.update_of_ne h ..

@[simp] theorem goto_self [DecidableEq T] {pc : CallPc} : (s.goto t pc).thread t = pc :=
  Function.update_self ..

theorem goto_of_ne [DecidableEq T] {u : T} {pc : CallPc} (h : u ≠ t) :
    (s.goto t pc).thread u = s.thread u :=
  Function.update_of_ne h ..

@[simp] theorem dispose_at_self {place : DisposePlace} : (s.disposeAt c place).dispose c = place :=
  Function.update_self ..

/-- A new value with the old link changes no link. -/
theorem other_side_set_chan (h : value.otherSide = (s.chan c).otherSide) :
    (s.setChan c value).otherSide d = s.otherSide d := by
  unfold otherSide
  by_cases hd : d = c
  · rw [hd, set_chan_self, h]
  · rw [set_chan_of_ne hd]

@[simp] theorem other_side_set_lock {lock : Bool} :
    (s.setLock c lock).otherSide d = s.otherSide d :=
  other_side_set_chan rfl

end Fields

end ChannelState

/-- A round of `channel_read` leaves the link alone. -/
theorem Channel.read_round_link {c c' : Channel} {len : UInt32} {block : List UInt8}
    (h : c.readRound len = .ok (block, c')) : c'.otherSide = c.otherSide := by
  unfold readRound at h
  extract_lets most at h
  by_cases hzero : most = 0
  · rw [if_pos hzero] at h
    cases h
    rfl
  · rw [if_neg hzero] at h
    obtain ⟨_, -, h⟩ := bind_eq_ok h
    cases h
    rfl

/-- A round of `channel_write` leaves the link alone. -/
theorem Channel.write_round_link {c c' : Channel} {len taken : UInt32} {buf : List UInt8}
    (h : c.writeRound len buf = .ok (taken, c')) : c'.otherSide = c.otherSide := by
  unfold writeRound at h
  extract_lets most at h
  by_cases hzero : most = 0
  · rw [if_pos hzero] at h
    cases h
    rfl
  · rw [if_neg hzero] at h
    obtain ⟨_, -, h⟩ := bind_eq_ok h
    rw [← (Prod.mk.inj (Except.ok.inj h)).2]

section Steps

variable {T : Type} [DecidableEq T]

/-- `len` in `channel_read` with the mutex held. -/
def ReadCall.len (call : ReadCall) (s : ChannelState T) : UInt32 :=
  cutToUsed (s.chan call.c).bufUsed (call.reqLen - UInt32.ofNat call.ret.length)

/-- The next step of `channel_read`. -/
def readStep (t : T) (place : ReadPlace) (call : ReadCall) (s : ChannelState T) :
    Option (ChannelState T) :=
  if s.freed call.c then some { s with dangling := true }
  else
    match place with
    | .lock =>
        if (s.chan call.c).lock then some s
        else some ((s.setLock call.c true).goto t (.read .held call))
    | .held =>
        if call.len s = 0 then
          -- The mutex is released with interrupts off, and the thread parks at once.
          some ((s.setLock call.c false).goto t
            (if call.blocking then .read .wait call else .returned (.read call.ret)))
        else
          match (s.chan call.c).readRound (call.len s) with
          | .error _ => none
          | .ok (block, c) => some ((s.setChan call.c c).goto t
              (.read .moved { call with ret := call.ret ++ block }))
    | .moved => some (((s.resumeOn call.c).setLock call.c false).goto t call.next)
    | .wait => none

/-- The next step of the loop of `channel_write`. The `break` behind `yield` leaves only the loop
that waits for the mutex. -/
def writeStep (t : T) (place : WritePlace) (call : WriteCall) (s : ChannelState T) :
    Option (ChannelState T) :=
  if s.freed (if place = .yielding then call.tc else call.c) then some { s with dangling := true }
  else
    match place with
    | .tryLock =>
        if (s.chan call.c).lock then some (s.goto t (.write .yielding call))
        else some ((s.setLock call.c true).goto t (.write .held call))
    | .yielding =>
        if s.otherSide call.tc = none then some (s.goto t (.write .held call))
        else some (s.goto t (.write .tryLock call))
    | .held =>
        match (s.chan call.c).writeRound (UInt32.ofNat call.data.length - call.ret)
            (call.data.drop call.ret.toNat) with
        | .error _ => none
        | .ok (len, c) =>
            if len = 0 then
              some ((s.setLock call.c false).goto t
                (if call.blocking then .write .wait call else .returned (.wrote call.ret)))
            else
              some ((s.setChan call.c c).goto t
                (.write .moved { call with ret := call.ret + len }))
    | .moved => some (((s.resumeOn call.c).setLock call.c false).goto t call.next)
    | .wait => none

/-- The next step of a thread. `files` are the descriptors of its process that are channel ends.
Between two descriptors `select_sc` may give up the processor, when the mutex of the process is
taken or the access to the array is a page fault. -/
def callStep (files : T → Int → Option ChannelPtr) (t : T) (s : ChannelState T) :
    Option (ChannelState T) :=
  match s.thread t with
  | .returned _ => none
  | .read place call => readStep t place call s
  | .writeBegin tc blocking data =>
      if s.freed tc then some { s with dangling := true }
      else
        match s.otherSide tc with
        | none => some (s.goto t (.returned (.wrote 0)))
        | some c => some (s.goto t (.write .tryLock
            { tc := tc, c := c, blocking := blocking, data := data, ret := 0 }))
  | .write place call => writeStep t place call s
  | .selectPoll polled (fd :: rest) waitObjs ret =>
      match files t fd.fd with
      | none => some (s.goto t (.selectPoll (polled ++ [fd]) rest waitObjs ret))
      | some c =>
          if s.freed c || (s.otherSide c).any s.freed then some { s with dangling := true }
          else
            let got := s.channelPoll c
            some (s.goto t (.selectPoll (polled ++ [{ fd with gotFlags := got }]) rest
              (waitObjs ++ [c]) (ret || got &&& fd.reqFlags != 0)))
  | .selectPoll polled [] waitObjs ret =>
      if ret then some (s.goto t (.returned (.selected true polled)))
      else if waitObjs.isEmpty then some (s.goto t (.returned (.selected false polled)))
      else some (s.goto t (.selectWait polled waitObjs))
  | .selectWait _ _ => none

/-- The next step of `channel_dispose`. -/
def disposeStep (c : ChannelPtr) (s : ChannelState T) : Option (ChannelState T) :=
  match s.dispose c with
  | .opened => none
  | .lock =>
      if (s.chan c).lock then some s else some ((s.setLock c true).disposeAt c .resume)
  | .resume =>
      match s.otherSide c with
      | none => some (s.disposeAt c .free)
      | some o => some ((s.resumeOn o).disposeAt c .unlink)
  | .unlink =>
      match s.otherSide c with
      | none => none
      | some o =>
          if s.freed o then some { s with dangling := true }
          else some ((s.setChan o { s.chan o with otherSide := none }).disposeAt c .free)
  | .free => some (s.disposeAt c .freed)
  | .freed => none

/-- What may happen next: a thread that is in no call begins one, the last reference to an end is
dropped, or somebody makes the next step. -/
inductive ChannelEvent (T : Type) where
  | read (t : T) (c : ChannelPtr) (blocking : Bool) (reqLen : UInt32)
  | write (t : T) (c : ChannelPtr) (blocking : Bool) (data : List UInt8)
  | select (t : T) (fds : List SelFd)
  | close (c : ChannelPtr)
  | step (t : T)
  | dispose (c : ChannelPtr)
  deriving DecidableEq

/-- The thread is in none of the calls. -/
def CallPc.outside : CallPc → Bool
  | .returned _ => true
  | _ => false

/-- The state after an event. -/
def channelStep (files : T → Int → Option ChannelPtr) (s : ChannelState T) :
    ChannelEvent T → Option (ChannelState T)
  | .read t c blocking reqLen =>
      if (s.thread t).outside then
        some (s.goto t (.read .lock { c := c, blocking := blocking, reqLen := reqLen, ret := [] }))
      else none
  | .write t c blocking data =>
      if (s.thread t).outside then some (s.goto t (.writeBegin c blocking data)) else none
  | .select t fds =>
      if (s.thread t).outside then some (s.goto t (.selectPoll [] fds [] false)) else none
  | .close c => if s.dispose c = .opened then some (s.disposeAt c .lock) else none
  | .step t => callStep files t s
  | .dispose c => disposeStep c s

end Steps

/-- Channels between two calls, with any bytes in their buffers. An end that has been disposed of
has no link to it. -/
structure ChannelState.Initial {T : Type} (s : ChannelState T) : Prop where
  valid : ∀ c, (s.chan c).bufUseBegin < channelBufferSize ∧ (s.chan c).bufUsed ≤ channelBufferSize
  lock : ∀ c, (s.chan c).lock = false
  dispose : ∀ c, s.dispose c = .opened ∨ s.dispose c = .freed
  link : ∀ c, s.otherSide c = if s.freed c.other then none else some c.other
  outside : ∀ t, (s.thread t).outside = true
  sound : s.dangling = false

/-- The runs in which every event is allowed where it happens. -/
def channelRuns {T : Type} [DecidableEq T] (files : T → Int → Option ChannelPtr)
    (allowed : ChannelState T → ChannelEvent T → Prop) : System (ChannelState T) :=
  eventRuns ChannelState.Initial (channelStep files) allowed

/-- Channels as `make_channel` leaves them, and two threads. -/
def ChannelState.fresh : ChannelState (Fin 2) where
  chan := fun c => makeChannel (fun _ => Vector.replicate 200 0) c.2
  dispose := fun _ => .opened
  thread := fun _ => .returned (.read [])
  dangling := false

theorem fresh_initial : ChannelState.fresh.Initial where
  valid := fun _ => ⟨show (0 : UInt32) < 200 by decide, show (0 : UInt32) ≤ 200 by decide⟩
  lock := fun _ => rfl
  dispose := fun _ => .inl rfl
  link := fun _ => rfl
  outside := fun _ => rfl
  sound := rfl

end Kogata.Kernel
