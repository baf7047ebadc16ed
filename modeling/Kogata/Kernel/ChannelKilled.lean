import Kogata.Kernel.ChannelFifo
import Kogata.Kernel.ChannelThreads

/-!
# Killing a thread in a channel call

`kill_thread` puts a paused thread back into the queue, and its `wait_on` then returns false.
`select_sc` leaves its loop there, but the loops of `channel_read` and `channel_write` do not look
at the result. Alone on the channel, a thread whose request is larger than what the buffer has for
it waits again, however often it is put back (`killed_thread_returns_iff`).
-/

namespace Kogata.Kernel

open Lib Lib.Run

/-- Where a thread goes on when it has been paused and `kill_thread` has put it back. Its `wait_on`
has returned false, and only `select_sc` leaves its loop for that. -/
def CallPc.interrupted : CallPc → Option CallPc
  | .read .wait call => some call.next
  | .write .wait call => some call.next
  | .selectWait fds _ => some (.returned (.selected false fds))
  | _ => none

/-- The next step of a thread that `kill_thread` waits for. -/
def killedStep {T : Type} [DecidableEq T] (files : T → Int → Option ChannelPtr) (t : T)
    (s : ChannelState T) : Option (ChannelState T) :=
  match (s.thread t).interrupted with
  | some pc => some (s.goto t pc)
  | none => callStep files t s

/-- The thread is in the `wait_on` of `channel_read` or `channel_write`. -/
def CallPc.inWait : CallPc → Bool
  | .read .wait _ | .write .wait _ => true
  | _ => false

/-- What the variables of a call are like. The sizes are those of a 32-bit machine. -/
def CallPc.Formed : CallPc → Prop
  | .read place call => call.ret.length ≤ call.reqLen.toNat ∧ (place = .wait → call.blocking = true)
  | .writeBegin _ _ data => data.length < 2 ^ 32
  | .write place call => call.ret.toNat ≤ call.data.length ∧ call.data.length < 2 ^ 32 ∧
      (place = .wait → call.blocking = true)
  | _ => True

/-- The buffers are in shape and so are the calls. -/
structure ChannelState.Formed {T : Type} (s : ChannelState T) : Prop where
  valid : ∀ c, (s.chan c).Valid
  calls : ∀ t, (s.thread t).Formed

/-- A length is at most the size of the memory. -/
def Representable {T : Type} (_ : ChannelState T) : ChannelEvent T → Prop
  | .write _ _ _ data => data.length < 2 ^ 32
  | _ => True

/-- The rest of the request is what the buffer can serve at once, nobody else holds its mutex, or
the other end is closed and so a writer does not wait for the mutex, and the buffer is there. -/
def CallPc.CanFinish {T : Type} (s : ChannelState T) : CallPc → Prop
  | .read _ call => call.reqLen.toNat = call.ret.length ∨
      (s.freed call.c = false ∧ (s.chan call.c).lock = false ∧
        call.reqLen.toNat ≤ call.ret.length + (s.chan call.c).bufUsed.toNat)
  | .write _ call => call.data.length = call.ret.toNat ∨
      (s.freed call.c = false ∧
        ((s.chan call.c).lock = false ∨ s.freed call.tc = false ∧ s.otherSide call.tc = none) ∧
        call.data.length + (s.chan call.c).bufUsed.toNat ≤ call.ret.toNat + 200)
  | _ => False

section Rounds

variable {c : Channel} {len : UInt32} {buf : List UInt8}

/-- A block that is longer than the array is not copied without an access outside it. -/
theorem copy_in_overrun (h : c.Valid) (hlen : 400 < len.toNat) (hbuf : len.toNat ≤ buf.length) :
    ∃ e, c.copyIn len buf = .error e := by
  obtain ⟨hbegin, hused⟩ := h
  have hstore : ∀ (cells : Vector UInt8 200) (pos : Nat) (block : List UInt8),
      200 < block.length → Ring.store cells pos block = none := fun cells pos block hlong =>
    if_neg (by omega)
  have htail : (c.bufUseBegin + c.bufUsed).toNat = c.bufUseBegin.toNat + c.bufUsed.toNat :=
    Word.toNat_add_of_lt (by omega)
  unfold Channel.copyIn
  by_cases hwrapped : c.bufUseBegin + c.bufUsed ≥ channelBufferSize
  · rw [if_pos hwrapped, hstore _ _ _ (by rw [List.length_take]; omega)]
    exact ⟨_, rfl⟩
  · rw [if_neg hwrapped]
    by_cases hwraps : c.bufUseBegin + c.bufUsed + len > channelBufferSize
    · -- The second piece is what is too long.
      have hroom : (channelBufferSize - c.bufUseBegin - c.bufUsed).toNat ≤ 200 := by
        have hlt : c.bufUseBegin.toNat + c.bufUsed.toNat < 200 :=
          htail ▸ UInt32.lt_iff_toNat_lt.mp (UInt32.not_le.mp hwrapped)
        have hfirst : (channelBufferSize - c.bufUseBegin).toNat = 200 - c.bufUseBegin.toNat :=
          Word.toNat_sub_of_le (Nat.le_of_lt hbegin)
        rw [Word.toNat_sub_of_le (by omega), hfirst]
        omega
      have hrest : (len - (channelBufferSize - c.bufUseBegin - c.bufUsed)).toNat =
          len.toNat - (channelBufferSize - c.bufUseBegin - c.bufUsed).toNat :=
        Word.toNat_sub_of_le (by omega)
      have hne : len - (channelBufferSize - c.bufUseBegin - c.bufUsed) ≠ 0 :=
        Word.ne_zero_of_pos (by omega)
      simp only [if_pos hwraps, if_pos hne]
      cases Ring.store c.buf (c.bufUseBegin + c.bufUsed).toNat
          (buf.take (channelBufferSize - c.bufUseBegin - c.bufUsed).toNat) with
      | none => exact ⟨_, rfl⟩
      | some cells =>
          rw [inside_some, ok_bind, hstore _ _ _ (by
            rw [List.length_take, List.length_drop]
            omega)]
          exact ⟨_, rfl⟩
    · simp only [if_neg hwraps]
      rw [hstore _ _ _ (by rw [List.length_take]; omega)]
      exact ⟨_, rfl⟩

/-- A pass of `channel_write` appends what there is room for, or it leaves the array. -/
theorem write_round_cases (h : c.Valid) (hbuf : len.toNat ≤ buf.length) :
    (200 < len.toNat ∧ ∃ e, c.writeRound len buf = .error e) ∨
      ∃ taken c', c.writeRound len buf = .ok (taken, c') ∧
        taken.toNat = min len.toNat (200 - c.bufUsed.toNat) ∧ c'.Valid ∧
        c'.bufUsed.toNat = c.bufUsed.toNat + taken.toNat ∧ c'.lock = c.lock := by
  have hspec : ∀ l : UInt32, l.toNat ≤ buf.length → l.toNat ≤ 0xC0000000 →
      ∃ taken c', c.writeRound l buf = .ok (taken, c') ∧
        taken.toNat = min l.toNat (200 - c.bufUsed.toNat) ∧ c'.Valid ∧
        c'.bufUsed.toNat = c.bufUsed.toNat + taken.toNat ∧ c'.lock = c.lock := by
    intro l hl huser
    obtain ⟨taken, c', hround, htaken, hvalid, hqueue, hlock, -⟩ :=
      Channel.write_round_spec h l buf hl huser
    refine ⟨taken, c', hround, htaken, hvalid, ?_, hlock⟩
    rw [← Channel.length_queue, hqueue, List.length_append, Channel.length_queue,
      List.length_take_of_le (by omega)]
  by_cases huser : len.toNat ≤ 0xC0000000
  · exact .inr (hspec len hbuf huser)
  · have hused := h.used_le
    have hroom : (channelBufferSize - c.bufUsed).toNat = 200 - c.bufUsed.toNat :=
      Word.toNat_sub_of_le hused
    by_cases hmore : c.bufUsed + len > channelBufferSize
    · obtain ⟨taken, c', hround, htaken, hrest⟩ := hspec (channelBufferSize - c.bufUsed) (by omega)
        (by omega)
      refine .inr ⟨taken, c', ?_, by omega, hrest⟩
      rw [← hround]
      have hfull : ¬ c.bufUsed + (channelBufferSize - c.bufUsed) > channelBufferSize := by
        intro hgt
        have hgt := UInt32.lt_iff_toNat_lt.mp hgt
        rw [Word.toNat_add_of_lt (by omega), hroom] at hgt
        change 200 < _ at hgt
        omega
      simp only [Channel.writeRound, cutToRoom, if_pos hmore, if_neg hfull]
    · -- The sum of the lengths has wrapped.
      have hne : len ≠ 0 := Word.ne_zero_of_pos (by omega)
      obtain ⟨e, hcopy⟩ := copy_in_overrun (c := c) h (by omega) hbuf
      refine .inl ⟨by omega, e, ?_⟩
      simp only [Channel.writeRound, cutToRoom, if_neg hmore, if_neg hne, hcopy]
      rfl

/-- A pass of `channel_read` takes as many bytes as it can. -/
theorem read_round_length (h : c.Valid) (hlen : len.toNat ≤ c.bufUsed.toNat) :
    ∃ block c', c.readRound len = .ok (block, c') ∧ block.length = len.toNat ∧ c'.Valid ∧
      c'.bufUsed.toNat = c.bufUsed.toNat - len.toNat ∧ c'.lock = c.lock := by
  obtain ⟨c', hround, hvalid, hqueue, hlock, -⟩ := Channel.read_round_spec h len
  refine ⟨_, c', hround, ?_, hvalid, ?_, hlock⟩
  · rw [List.length_take_of_le (by rw [Channel.length_queue]; exact hlen)]
  · rw [← Channel.length_queue, hqueue, List.length_drop, Channel.length_queue]

end Rounds

section Steps

variable {T : Type} [DecidableEq T] {files : T → Int → Option ChannelPtr} {t : T}
  {s s' : ChannelState T}

omit [DecidableEq T] in
theorem read_len_to_nat {call : ReadCall} (h : call.ret.length ≤ call.reqLen.toNat) :
    (call.len s).toNat =
      min (s.chan call.c).bufUsed.toNat (call.reqLen.toNat - call.ret.length) := by
  rw [ReadCall.len, Channel.cut_to_used, ReadCall.rest_to_nat h, Nat.min_comm]

/-- A blocking reader goes on as long as something is missing. -/
theorem read_next_eq {call : ReadCall} (hblocking : call.blocking = true)
    (h : call.ret.length ≤ call.reqLen.toNat) :
    call.next = if call.ret.length < call.reqLen.toNat then .read .lock call
      else .returned (.read call.ret) := by
  unfold ReadCall.next
  simp only [hblocking, Bool.true_and, decide_eq_true_eq, UInt32.lt_iff_toNat_lt,
    ReadCall.ret_to_nat h]

theorem read_next_done {call : ReadCall} (h : call.ret.length = call.reqLen.toNat) :
    call.next = .returned (.read call.ret) := by
  have hret : UInt32.ofNat call.ret.length = call.reqLen := by
    rw [h, UInt32.ofNat_toNat]
  unfold ReadCall.next
  rw [if_neg (by simp [hret])]

/-- So does a blocking writer. -/
theorem write_next_eq {call : WriteCall} (hblocking : call.blocking = true)
    (hdata : call.data.length < 2 ^ 32) :
    call.next = if call.ret.toNat < call.data.length then .write .tryLock call
      else .returned (.wrote call.ret) := by
  have hlen : (UInt32.ofNat call.data.length).toNat = call.data.length :=
    UInt32.toNat_ofNat_of_lt' hdata
  unfold WriteCall.next
  simp only [hblocking, Bool.true_and, decide_eq_true_eq, UInt32.lt_iff_toNat_lt, hlen]

theorem write_next_done {call : WriteCall}
    (h : call.ret.toNat = call.data.length) : call.next = .returned (.wrote call.ret) := by
  have hret : UInt32.ofNat call.data.length = call.ret := by
    rw [← h, UInt32.ofNat_toNat]
  unfold WriteCall.next
  rw [if_neg (by simp [hret])]

/-- What the pass of `channel_read` with the mutex held does. -/
theorem read_held_cases (h : s.Formed) {call : ReadCall} (hat : s.thread t = .read .held call)
    (hfreed : s.freed call.c = false) {len : Nat}
    (hlen : len = min (s.chan call.c).bufUsed.toNat (call.reqLen.toNat - call.ret.length)) :
    (len = 0 ∧ readStep t .held call s = some ((s.setLock call.c false).goto t
      (if call.blocking then .read .wait call else .returned (.read call.ret)))) ∨
    (0 < len ∧ ∃ block c, readStep t .held call s = some ((s.setChan call.c c).goto t
        (.read .moved { call with ret := call.ret ++ block })) ∧
      block.length = len ∧ c.Valid ∧ c.bufUsed.toNat = (s.chan call.c).bufUsed.toNat - len ∧
      c.lock = (s.chan call.c).lock) := by
  have hformed := h.calls t
  rw [hat] at hformed
  have hnat : (call.len s).toNat = len := hlen ▸ read_len_to_nat hformed.1
  unfold readStep
  rw [if_neg (by rw [hfreed]; exact Bool.false_ne_true)]
  by_cases hzero : call.len s = 0
  · exact .inl ⟨hnat ▸ Word.eq_zero_iff.mp hzero, if_pos hzero⟩
  · have hle : (call.len s).toNat ≤ (s.chan call.c).bufUsed.toNat := by omega
    obtain ⟨block, c, hround, hblock, hrest⟩ := read_round_length (h.valid call.c) hle
    refine .inr ⟨?_, block, c, ?_, hblock.trans hnat, hnat ▸ hrest⟩
    · exact hnat ▸ Nat.pos_of_ne_zero fun hnil => hzero (Word.eq_zero_iff.mpr hnil)
    · simp only [if_neg hzero, hround]

/-- What the pass of `channel_write` in front of the test of the room does. -/
theorem write_held_cases (h : s.Formed) {call : WriteCall} (hat : s.thread t = .write .held call)
    (hfreed : s.freed call.c = false) {len : Nat}
    (hlen : len = min (call.data.length - call.ret.toNat)
      (200 - (s.chan call.c).bufUsed.toNat)) :
    (200 < call.data.length - call.ret.toNat ∧ writeStep t .held call s = none) ∨
    (len = 0 ∧ writeStep t .held call s = some ((s.setLock call.c false).goto t
      (if call.blocking then .write .wait call else .returned (.wrote call.ret)))) ∨
    (0 < len ∧ ∃ ret c, writeStep t .held call s = some ((s.setChan call.c c).goto t
        (.write .moved { call with ret := ret })) ∧
      ret.toNat = call.ret.toNat + len ∧ c.Valid ∧
      c.bufUsed.toNat = (s.chan call.c).bufUsed.toNat + len ∧
      c.lock = (s.chan call.c).lock) := by
  have hformed := h.calls t
  rw [hat] at hformed
  obtain ⟨hret, hdata, -⟩ := hformed
  have hrest := WriteCall.rest_to_nat hdata hret
  unfold writeStep
  rw [if_neg (by rw [if_neg (by decide), hfreed]; exact Bool.false_ne_true)]
  have hbuf : (UInt32.ofNat call.data.length - call.ret).toNat ≤
      (call.data.drop call.ret.toNat).length := by
    rw [List.length_drop]
    omega
  rcases write_round_cases (h.valid call.c) hbuf with
    ⟨hlong, e, hround⟩ | ⟨taken, c, hround, htaken, hvalid, hused, hlock⟩
  · rw [hrest] at hlong
    simp only [hround]
    exact .inl ⟨hlong, trivial⟩
  · rw [hrest, ← hlen] at htaken
    simp only [hround]
    by_cases hzero : taken = 0
    · exact .inr (.inl ⟨htaken ▸ Word.eq_zero_iff.mp hzero, if_pos hzero⟩)
    · refine .inr (.inr ⟨?_, call.ret + taken, c, if_neg hzero, ?_, hvalid, htaken ▸ hused, hlock⟩)
      · exact htaken ▸ Nat.pos_of_ne_zero fun hnil => hzero (Word.eq_zero_iff.mpr hnil)
      · rw [Word.toNat_add_of_lt (by omega), htaken]

section Formed

theorem formed_read_next {call : ReadCall} (h : call.ret.length ≤ call.reqLen.toNat) :
    call.next.Formed := by
  unfold ReadCall.next
  split
  · exact ⟨h, fun hwait => by cases hwait⟩
  · trivial

theorem formed_write_next {call : WriteCall} (h : call.ret.toNat ≤ call.data.length)
    (hdata : call.data.length < 2 ^ 32) : call.next.Formed := by
  unfold WriteCall.next
  split
  · exact ⟨h, hdata, fun hwait => by cases hwait⟩
  · trivial

theorem CallPc.Formed.resumed {pc : CallPc} (h : pc.Formed) : pc.resumed.Formed := by
  cases pc with
  | returned | writeBegin | selectPoll => exact h
  | selectWait fds waitObjs => trivial
  | read place call =>
      cases place with
      | lock | held | moved => exact h
      | wait => exact formed_read_next h.1
  | write place call =>
      cases place with
      | tryLock | yielding | held | moved => exact h
      | wait => exact formed_write_next h.1 h.2.1

section

variable (h : s.Formed)

include h

theorem ChannelState.Formed.goto {pc : CallPc} (hpc : pc.Formed) :
    (s.goto t pc).Formed where
  valid := h.valid
  calls := by
    intro u
    by_cases hu : u = t
    · rw [hu, ChannelState.goto_self]
      exact hpc
    · rw [ChannelState.goto_of_ne hu]
      exact h.calls u

omit [DecidableEq T] in
theorem ChannelState.Formed.set_chan {c : ChannelPtr} {value : Channel}
    (hvalid : value.Valid) : (s.setChan c value).Formed where
  valid := by
    intro d
    by_cases hd : d = c
    · rw [hd, ChannelState.set_chan_self]
      exact hvalid
    · rw [ChannelState.set_chan_of_ne hd]
      exact h.valid d
  calls := h.calls

omit [DecidableEq T] in
theorem ChannelState.Formed.set_lock (c : ChannelPtr) (lock : Bool) :
    (s.setLock c lock).Formed :=
  h.set_chan ⟨(h.valid c).begin_lt, (h.valid c).used_le⟩

omit [DecidableEq T] in
theorem ChannelState.Formed.resume_on (x : ChannelPtr) : (s.resumeOn x).Formed where
  valid := h.valid
  calls := by
    intro t
    show (if x ∈ (s.thread t).waitingOn then _ else _ : CallPc).Formed
    split
    · exact (h.calls t).resumed
    · exact h.calls t

theorem ChannelState.Formed.read_step {place : ReadPlace} {call : ReadCall}
    (hat : s.thread t = .read place call) (hstep : readStep t place call s = some s') :
    s'.Formed := by
  have hformed := h.calls t
  rw [hat] at hformed
  obtain ⟨hret, -⟩ := hformed
  by_cases hfreed : s.freed call.c = true
  · rw [readStep.eq_def, if_pos hfreed] at hstep
    exact Option.some.inj hstep ▸ ⟨h.valid, h.calls⟩
  · have hfree := Bool.eq_false_iff.mpr hfreed
    cases place with
    | lock =>
        rw [readStep, if_neg hfreed] at hstep
        split at hstep
        · exact Option.some.inj hstep ▸ h
        · refine Option.some.inj hstep ▸ (h.set_lock call.c true).goto ?_
          exact ⟨hret, fun hwait => by cases hwait⟩
    | held =>
        rcases read_held_cases h hat hfree rfl with ⟨-, heq⟩ | ⟨-, block, c, heq, hblock, hvalid, -⟩
        · rw [heq] at hstep
          refine Option.some.inj hstep ▸ (h.set_lock call.c false).goto ?_
          by_cases hblocking : call.blocking = true
          · rw [if_pos hblocking]
            exact ⟨hret, fun _ => hblocking⟩
          · rw [if_neg hblocking]
            trivial
        · rw [heq] at hstep
          refine Option.some.inj hstep ▸ (h.set_chan hvalid).goto ?_
          refine ⟨?_, fun hwait => by cases hwait⟩
          show (call.ret ++ block).length ≤ call.reqLen.toNat
          rw [List.length_append]
          omega
    | moved =>
        rw [readStep, if_neg hfreed] at hstep
        exact Option.some.inj hstep ▸
          ((h.resume_on call.c).set_lock call.c false).goto (formed_read_next hret)
    | wait =>
        rw [readStep, if_neg hfreed] at hstep
        cases hstep

theorem ChannelState.Formed.write_step {place : WritePlace} {call : WriteCall}
    (hat : s.thread t = .write place call) (hstep : writeStep t place call s = some s') :
    s'.Formed := by
  have hformed := h.calls t
  rw [hat] at hformed
  obtain ⟨hret, hdata, -⟩ := hformed
  have hlater : ∀ place : WritePlace, place ≠ .wait → (CallPc.write place call).Formed :=
    fun _ hplace => ⟨hret, hdata, fun hwait => absurd hwait hplace⟩
  by_cases hfreed : s.freed (if place = .yielding then call.tc else call.c) = true
  · rw [writeStep.eq_def, if_pos hfreed] at hstep
    exact Option.some.inj hstep ▸ ⟨h.valid, h.calls⟩
  · cases place with
    | tryLock =>
        rw [writeStep, if_neg hfreed] at hstep
        split at hstep
        · exact Option.some.inj hstep ▸ h.goto (hlater .yielding (by decide))
        · exact Option.some.inj hstep ▸ (h.set_lock call.c true).goto (hlater .held (by decide))
    | yielding =>
        rw [writeStep, if_neg hfreed] at hstep
        split at hstep
        · exact Option.some.inj hstep ▸ h.goto (hlater .held (by decide))
        · exact Option.some.inj hstep ▸ h.goto (hlater .tryLock (by decide))
    | held =>
        have hfree : s.freed call.c = false := Bool.eq_false_iff.mpr hfreed
        rcases write_held_cases h hat hfree rfl with
          ⟨-, heq⟩ | ⟨-, heq⟩ | ⟨-, ret, c, heq, hsum, hvalid, -⟩
        · rw [heq] at hstep
          cases hstep
        · rw [heq] at hstep
          refine Option.some.inj hstep ▸ (h.set_lock call.c false).goto ?_
          by_cases hblocking : call.blocking = true
          · rw [if_pos hblocking]
            exact ⟨hret, hdata, fun _ => hblocking⟩
          · rw [if_neg hblocking]
            trivial
        · rw [heq] at hstep
          refine Option.some.inj hstep ▸ (h.set_chan hvalid).goto ?_
          refine ⟨?_, hdata, fun hwait => by cases hwait⟩
          show ret.toNat ≤ call.data.length
          omega
    | moved =>
        rw [writeStep, if_neg hfreed] at hstep
        exact Option.some.inj hstep ▸
          ((h.resume_on call.c).set_lock call.c false).goto (formed_write_next hret hdata)
    | wait =>
        rw [writeStep, if_neg hfreed] at hstep
        cases hstep

theorem ChannelState.Formed.call_step (hstep : callStep files t s = some s') :
    s'.Formed := by
  unfold callStep at hstep
  split at hstep
  · cases hstep
  · next place call hat => exact h.read_step hat hstep
  · next tc blocking data hat =>
      have hdata := h.calls t
      rw [hat] at hdata
      split at hstep
      · exact Option.some.inj hstep ▸ ⟨h.valid, h.calls⟩
      · split at hstep
        · exact Option.some.inj hstep ▸ h.goto trivial
        · refine Option.some.inj hstep ▸ h.goto ⟨Nat.zero_le _, hdata, fun hwait => by cases hwait⟩
  · next place call hat => exact h.write_step hat hstep
  · split at hstep
    · exact Option.some.inj hstep ▸ h.goto trivial
    · split at hstep
      · exact Option.some.inj hstep ▸ ⟨h.valid, h.calls⟩
      · exact Option.some.inj hstep ▸ h.goto trivial
  · split at hstep
    · exact Option.some.inj hstep ▸ h.goto trivial
    · split at hstep
      · exact Option.some.inj hstep ▸ h.goto trivial
      · exact Option.some.inj hstep ▸ h.goto trivial
  · cases hstep

omit [DecidableEq T] in
theorem ChannelState.Formed.dispose_step {c : ChannelPtr}
    (hstep : disposeStep c s = some s') : s'.Formed := by
  have hat : ∀ {s : ChannelState T} {place : DisposePlace}, s.Formed →
      (s.disposeAt c place).Formed := fun h => ⟨h.valid, h.calls⟩
  unfold disposeStep at hstep
  split at hstep
  · cases hstep
  · split at hstep
    · exact Option.some.inj hstep ▸ h
    · exact Option.some.inj hstep ▸ hat (h.set_lock c true)
  · split at hstep
    · exact Option.some.inj hstep ▸ hat h
    · exact Option.some.inj hstep ▸ hat (h.resume_on _)
  · split at hstep
    · cases hstep
    · next o _ =>
        split at hstep
        · exact Option.some.inj hstep ▸ ⟨h.valid, h.calls⟩
        · exact Option.some.inj hstep ▸
            hat (h.set_chan ⟨(h.valid o).begin_lt, (h.valid o).used_le⟩)
  · exact Option.some.inj hstep ▸ hat h
  · cases hstep

theorem ChannelState.Formed.channel_step {event : ChannelEvent T}
    (hallowed : Representable s event) (hstep : channelStep files s event = some s') :
    s'.Formed := by
  cases event with
  | read u c blocking reqLen =>
      rw [channelStep] at hstep
      split at hstep
      · exact Option.some.inj hstep ▸ h.goto ⟨Nat.zero_le _, fun hwait => by cases hwait⟩
      · cases hstep
  | write u c blocking data =>
      rw [channelStep] at hstep
      split at hstep
      · exact Option.some.inj hstep ▸ h.goto hallowed
      · cases hstep
  | select u fds =>
      rw [channelStep] at hstep
      split at hstep
      · exact Option.some.inj hstep ▸ h.goto trivial
      · cases hstep
  | close c =>
      rw [channelStep] at hstep
      split at hstep
      · exact Option.some.inj hstep ▸ ⟨h.valid, h.calls⟩
      · cases hstep
  | step u => exact h.call_step hstep
  | dispose c => exact h.dispose_step hstep

end

omit [DecidableEq T] in
theorem ChannelState.Initial.formed (h : s.Initial) : s.Formed where
  valid := fun c =>
    ⟨UInt32.lt_iff_toNat_lt.mp (h.valid c).1, UInt32.le_iff_toNat_le.mp (h.valid c).2⟩
  calls := by
    intro t
    have hout := h.outside t
    cases hpc : s.thread t with
    | returned => trivial
    | _ =>
        rw [hpc] at hout
        cases hout

/-- The states of all runs are of this kind. -/
theorem formed_of_reachable (hs : Reachable (channelRuns files Representable) s) : s.Formed := by
  refine Reachable.induct (motive := ChannelState.Formed) ?_ ?_ hs
  · exact fun _ h => h.formed
  · rintro s s' h ⟨event, hallowed, hstep⟩
    exact h.channel_step hallowed hstep

end Formed

section Stuck

/-- The thread is in a loop that it cannot leave alone: more is missing than there is, or the mutex
is held, or the buffer is gone. -/
def CallPc.Stuck (s : ChannelState T) : CallPc → Prop
  | .read place call => call.blocking = true ∧ call.ret.length < call.reqLen.toNat ∧
      (s.freed call.c = true ∨
        call.ret.length + (s.chan call.c).bufUsed.toNat < call.reqLen.toNat ∨
        (s.chan call.c).lock = true ∧ (place = .lock ∨ place = .wait))
  | .write place call => call.blocking = true ∧ call.ret.toNat < call.data.length ∧
      (s.freed call.c = true ∨
        call.ret.toNat + 200 < call.data.length + (s.chan call.c).bufUsed.toNat ∨
        (s.chan call.c).lock = true ∧ (s.freed call.tc = true ∨ s.otherSide call.tc ≠ none) ∧
          (place = .tryLock ∨ place = .yielding ∨ place = .wait))
  | _ => False

/-- A stuck reader is stuck behind its next step. The bytes that it has and those in the buffer
together stay as many. -/
theorem read_stuck_step (h : s.Formed) {place : ReadPlace} {call : ReadCall}
    (hat : s.thread t = .read place call) (hstuck : (CallPc.read place call).Stuck s)
    (hstep : readStep t place call s = some s') : (s'.thread t).Stuck s' := by
  obtain ⟨hblocking, hless, hwhy⟩ := hstuck
  by_cases hfreed : s.freed call.c = true
  · rw [readStep.eq_def, if_pos hfreed] at hstep
    cases hstep
    show (s.thread t).Stuck _
    rw [hat]
    exact ⟨hblocking, hless, .inl hfreed⟩
  · have hwhy := hwhy.resolve_left hfreed
    cases place with
    | lock =>
        rw [readStep, if_neg hfreed] at hstep
        split at hstep
        · cases hstep
          rw [hat]
          exact ⟨hblocking, hless, .inr hwhy⟩
        · next hfree =>
            cases hstep
            have hmissing := hwhy.resolve_right fun hlock => hfree hlock.1
            rw [ChannelState.goto_self]
            refine ⟨hblocking, hless, .inr (.inl ?_)⟩
            show _ + ((s.setLock call.c true).chan call.c).bufUsed.toNat < _
            rw [ChannelState.setLock, ChannelState.set_chan_self]
            exact hmissing
    | held =>
        have hmissing := hwhy.resolve_right fun hlock => by
          rcases hlock.2 with hplace | hplace
          · cases hplace
          · cases hplace
        rcases read_held_cases h hat (Bool.eq_false_iff.mpr hfreed) rfl with
          ⟨-, heq⟩ | ⟨-, block, c, heq, hblock, -, hused, -⟩
        · rw [heq, if_pos hblocking] at hstep
          cases hstep
          rw [ChannelState.goto_self]
          refine ⟨hblocking, hless, .inr (.inl ?_)⟩
          show _ + ((s.setLock call.c false).chan call.c).bufUsed.toNat < _
          rw [ChannelState.setLock, ChannelState.set_chan_self]
          exact hmissing
        · rw [heq] at hstep
          cases hstep
          rw [ChannelState.goto_self]
          have hlength : (call.ret ++ block).length = call.ret.length + block.length :=
            List.length_append
          refine ⟨hblocking, ?_, .inr (.inl ?_)⟩
          · show (call.ret ++ block).length < call.reqLen.toNat
            omega
          · show (call.ret ++ block).length + ((s.setChan call.c c).chan call.c).bufUsed.toNat <
              call.reqLen.toNat
            rw [ChannelState.set_chan_self]
            omega
    | moved =>
        have hmissing := hwhy.resolve_right fun hlock => by
          rcases hlock.2 with hplace | hplace
          · cases hplace
          · cases hplace
        rw [readStep, if_neg hfreed] at hstep
        cases hstep
        rw [ChannelState.goto_self, read_next_eq hblocking (Nat.le_of_lt hless), if_pos hless]
        refine ⟨hblocking, hless, .inr (.inl ?_)⟩
        show _ + (((s.resumeOn call.c).setLock call.c false).chan call.c).bufUsed.toNat < _
        rw [ChannelState.setLock, ChannelState.set_chan_self]
        exact hmissing
    | wait =>
        rw [readStep, if_neg hfreed] at hstep
        cases hstep

/-- A stuck writer is stuck behind its next step. The bytes that it has written and the room in the
buffer together stay as many. -/
theorem write_stuck_step (h : s.Formed) {place : WritePlace} {call : WriteCall}
    (hat : s.thread t = .write place call) (hstuck : (CallPc.write place call).Stuck s)
    (hstep : writeStep t place call s = some s') : (s'.thread t).Stuck s' := by
  obtain ⟨hblocking, hless, hwhy⟩ := hstuck
  have hdata : call.data.length < 2 ^ 32 := by
    have hformed := h.calls t
    rw [hat] at hformed
    exact hformed.2.1
  by_cases hfreed : s.freed (if place = .yielding then call.tc else call.c) = true
  · rw [writeStep.eq_def, if_pos hfreed] at hstep
    cases hstep
    show (s.thread t).Stuck _
    rw [hat]
    exact ⟨hblocking, hless, hwhy⟩
  · cases place with
    | tryLock =>
        have hwhy := hwhy.resolve_left hfreed
        rw [writeStep, if_neg hfreed] at hstep
        split at hstep
        · cases hstep
          rw [ChannelState.goto_self]
          refine ⟨hblocking, hless, .inr (hwhy.imp_right fun hlock => ?_)⟩
          exact ⟨hlock.1, hlock.2.1, .inr (.inl rfl)⟩
        · next hfree =>
            cases hstep
            have hmissing := hwhy.resolve_right fun hlock => hfree hlock.1
            rw [ChannelState.goto_self]
            refine ⟨hblocking, hless, .inr (.inl ?_)⟩
            show _ < _ + ((s.setLock call.c true).chan call.c).bufUsed.toNat
            rw [ChannelState.setLock, ChannelState.set_chan_self]
            exact hmissing
    | yielding =>
        rw [writeStep, if_neg hfreed] at hstep
        split at hstep
        · next hlink =>
            -- The `break` behind `yield` leaves no one stuck who was so for the mutex alone.
            cases hstep
            rw [ChannelState.goto_self]
            refine ⟨hblocking, hless, hwhy.imp_right fun hwhy => .inl ?_⟩
            exact hwhy.resolve_right fun hlock => hlock.2.1.elim hfreed fun hlinked => hlinked hlink
        · cases hstep
          rw [ChannelState.goto_self]
          refine ⟨hblocking, hless, hwhy.imp_right fun hwhy => hwhy.imp_right fun hlock => ?_⟩
          exact ⟨hlock.1, hlock.2.1, .inl rfl⟩
    | held =>
        have hfree : s.freed call.c = false := Bool.eq_false_iff.mpr hfreed
        have hmissing := (hwhy.resolve_left hfreed).resolve_right fun hlock => by
          rcases hlock.2.2 with hplace | hplace | hplace
          · cases hplace
          · cases hplace
          · cases hplace
        rcases write_held_cases h hat hfree rfl with
          ⟨-, heq⟩ | ⟨-, heq⟩ | ⟨-, ret, c, heq, hsum, -, hused, -⟩
        · rw [heq] at hstep
          cases hstep
        · rw [heq, if_pos hblocking] at hstep
          cases hstep
          rw [ChannelState.goto_self]
          refine ⟨hblocking, hless, .inr (.inl ?_)⟩
          show _ < _ + ((s.setLock call.c false).chan call.c).bufUsed.toNat
          rw [ChannelState.setLock, ChannelState.set_chan_self]
          exact hmissing
        · rw [heq] at hstep
          cases hstep
          rw [ChannelState.goto_self]
          refine ⟨hblocking, ?_, .inr (.inl ?_)⟩
          · show ret.toNat < call.data.length
            omega
          · show ret.toNat + 200 <
              call.data.length + ((s.setChan call.c c).chan call.c).bufUsed.toNat
            rw [ChannelState.set_chan_self]
            omega
    | moved =>
        have hmissing := (hwhy.resolve_left hfreed).resolve_right fun hlock => by
          rcases hlock.2.2 with hplace | hplace | hplace
          · cases hplace
          · cases hplace
          · cases hplace
        rw [writeStep, if_neg hfreed] at hstep
        cases hstep
        rw [ChannelState.goto_self, write_next_eq hblocking hdata, if_pos hless]
        refine ⟨hblocking, hless, .inr (.inl ?_)⟩
        show _ < _ + (((s.resumeOn call.c).setLock call.c false).chan call.c).bufUsed.toNat
        rw [ChannelState.setLock, ChannelState.set_chan_self]
        exact hmissing
    | wait =>
        rw [writeStep, if_neg hfreed] at hstep
        cases hstep

omit [DecidableEq T] in
theorem ChannelState.Formed.interrupted (h : s.Formed) {pc : CallPc}
    (hpc : (s.thread t).interrupted = some pc) : pc.Formed := by
  have hformed := h.calls t
  unfold CallPc.interrupted at hpc
  split at hpc
  · next call hat =>
      rw [hat] at hformed
      exact Option.some.inj hpc ▸ formed_read_next hformed.1
  · next call hat =>
      rw [hat] at hformed
      exact Option.some.inj hpc ▸ formed_write_next hformed.1 hformed.2.1
  · exact Option.some.inj hpc ▸ trivial
  · cases hpc

/-- The wake-up by `kill_thread` sends a stuck thread back to the mutex. -/
theorem stuck_interrupted (h : s.Formed) {pc : CallPc} (hstuck : (s.thread t).Stuck s)
    (hpc : (s.thread t).interrupted = some pc) : pc.Stuck (s.goto t pc) := by
  have hformed := h.calls t
  unfold CallPc.interrupted at hpc
  split at hpc
  · next call hat =>
      rw [hat] at hformed hstuck
      obtain ⟨hblocking, hless, hwhy⟩ := hstuck
      rw [read_next_eq hblocking hformed.1, if_pos hless] at hpc
      refine Option.some.inj hpc ▸ ⟨hblocking, hless, hwhy.imp_right fun hwhy => ?_⟩
      exact hwhy.imp_right fun hlock => ⟨hlock.1, .inl rfl⟩
  · next call hat =>
      rw [hat] at hformed hstuck
      obtain ⟨hblocking, hless, hwhy⟩ := hstuck
      rw [write_next_eq hblocking hformed.2.1, if_pos hless] at hpc
      refine Option.some.inj hpc ▸ ⟨hblocking, hless, hwhy.imp_right fun hwhy => ?_⟩
      exact hwhy.imp_right fun hlock => ⟨hlock.1, hlock.2.1, .inl rfl⟩
  · next fds waitObjs hat =>
      rw [hat] at hstuck
      exact hstuck.elim
  · cases hpc

theorem stuck_step (h : s.Formed ∧ (s.thread t).Stuck s)
    (hstep : killedStep files t s = some s') : s'.Formed ∧ (s'.thread t).Stuck s' := by
  obtain ⟨hformed, hstuck⟩ := h
  unfold killedStep at hstep
  cases hpc : (s.thread t).interrupted with
  | some pc =>
      rw [hpc] at hstep
      cases hstep
      refine ⟨hformed.goto (hformed.interrupted hpc), ?_⟩
      rw [ChannelState.goto_self]
      exact stuck_interrupted hformed hstuck hpc
  | none =>
      rw [hpc] at hstep
      refine ⟨hformed.call_step hstep, ?_⟩
      cases hat : s.thread t with
      | read place call =>
          rw [hat] at hstuck
          exact read_stuck_step hformed hat hstuck (by rwa [callStep, hat] at hstep)
      | write place call =>
          rw [hat] at hstuck
          exact write_stuck_step hformed hat hstuck (by rwa [callStep, hat] at hstep)
      | returned | writeBegin | selectPoll | selectWait =>
          rw [hat] at hstuck
          exact hstuck.elim

/-- A stuck thread does not return by itself. -/
theorem stuck_never_returns (h : s.Formed) (hstuck : (s.thread t).Stuck s) :
    ¬ Reaches (killedStep files t) (fun s => (s.thread t).outside = true) s := by
  refine Reaches.never (motive := fun s => s.Formed ∧ (s.thread t).Stuck s) ?_ ?_ ⟨h, hstuck⟩
  · rintro s ⟨-, hstuck⟩ hout
    cases hat : s.thread t with
    | returned =>
        rw [hat] at hstuck
        exact hstuck.elim
    | _ =>
        rw [hat] at hout
        cases hout
  · exact fun s s' h hstep => stuck_step h hstep

omit [DecidableEq T] in
/-- A thread that waits and cannot finish is stuck. -/
theorem stuck_of_not_can_finish (h : s.Formed) (hwait : (s.thread t).inWait = true)
    (hcannot : ¬ (s.thread t).CanFinish s) : (s.thread t).Stuck s := by
  have hformed := h.calls t
  unfold CallPc.inWait at hwait
  split at hwait
  · next call hat =>
      rw [hat] at hformed hcannot ⊢
      obtain ⟨hret, hblocking⟩ := hformed
      obtain ⟨hless, hneed⟩ := not_or.mp hcannot
      refine ⟨hblocking rfl, by omega, ?_⟩
      by_cases hfreed : s.freed call.c = true
      · exact .inl hfreed
      · refine .inr ?_
        by_cases hlock : (s.chan call.c).lock = true
        · exact .inr ⟨hlock, .inr rfl⟩
        · refine .inl (Nat.lt_of_not_le fun hle => hneed ⟨?_, ?_, hle⟩)
          · exact Bool.eq_false_iff.mpr hfreed
          · exact Bool.eq_false_iff.mpr hlock
  · next call hat =>
      rw [hat] at hformed hcannot ⊢
      obtain ⟨hret, -, hblocking⟩ := hformed
      obtain ⟨hless, hneed⟩ := not_or.mp hcannot
      refine ⟨hblocking rfl, by omega, ?_⟩
      by_cases hfreed : s.freed call.c = true
      · exact .inl hfreed
      · have hfree := Bool.eq_false_iff.mpr hfreed
        refine .inr ?_
        by_cases hroom : call.data.length + (s.chan call.c).bufUsed.toNat ≤ call.ret.toNat + 200
        · refine .inr ⟨?_, ?_, .inr (.inr rfl)⟩
          · by_contra hlock
            exact hneed ⟨hfree, .inl (Bool.eq_false_iff.mpr hlock), hroom⟩
          · by_contra hopen
            obtain ⟨htc, hlink⟩ := not_or.mp hopen
            exact hneed ⟨hfree, .inr ⟨Bool.eq_false_iff.mpr htc, not_not.mp hlink⟩, hroom⟩
        · exact .inl (Nat.lt_of_not_le hroom)
  · cases hwait

end Stuck

section Returns

/-- The thread gets out of its call by its own steps. -/
def Returns (files : T → Int → Option ChannelPtr) (t : T) : ChannelState T → Prop :=
  Reaches (killedStep files t) fun s => (s.thread t).outside = true

theorem returns_of_next {pc : CallPc} (hnext : killedStep files t s = some (s'.goto t pc))
    (hpc : pc.outside = true) : Returns files t s :=
  .step hnext (.here (by rw [ChannelState.goto_self]; exact hpc))

theorem killed_read_step {place : ReadPlace} {call : ReadCall}
    (hat : s.thread t = .read place call) (hplace : place ≠ .wait) :
    killedStep files t s = readStep t place call s := by
  cases place with
  | wait => exact absurd rfl hplace
  | _ => simp only [killedStep, callStep, hat, CallPc.interrupted]

theorem killed_write_step {place : WritePlace} {call : WriteCall}
    (hat : s.thread t = .write place call) (hplace : place ≠ .wait) :
    killedStep files t s = writeStep t place call s := by
  cases place with
  | wait => exact absurd rfl hplace
  | _ => simp only [killedStep, callStep, hat, CallPc.interrupted]

/-- A reader that finds all that is missing in the buffer takes it and returns. -/
theorem read_held_returns (h : s.Formed) {call : ReadCall} (hat : s.thread t = .read .held call)
    (hfree : s.freed call.c = false) (hless : call.ret.length < call.reqLen.toNat)
    (henough : call.reqLen.toNat ≤ call.ret.length + (s.chan call.c).bufUsed.toNat) :
    Returns files t s := by
  rcases read_held_cases h hat hfree rfl with ⟨hzero, -⟩ | ⟨-, block, c, heq, hblock, -⟩
  · omega
  · refine .step ((killed_read_step hat (by decide)).trans heq) ?_
    have hlength : (call.ret ++ block).length = call.ret.length + block.length :=
      List.length_append
    refine returns_of_next ((killed_read_step ChannelState.goto_self (by decide)).trans
      (if_neg (by rw [Bool.not_eq_true]; exact hfree))) ?_
    rw [read_next_done (show (call.ret ++ block).length = call.reqLen.toNat by omega)]
    rfl

/-- A writer that finds room for the rest of its request appends it and returns. -/
theorem write_held_returns (h : s.Formed) {call : WriteCall}
    (hat : s.thread t = .write .held call) (hfree : s.freed call.c = false)
    (hless : call.ret.toNat < call.data.length)
    (hroom : call.data.length + (s.chan call.c).bufUsed.toNat ≤ call.ret.toNat + 200) :
    Returns files t s := by
  rcases write_held_cases h hat hfree rfl with
    ⟨hlong, -⟩ | ⟨hzero, -⟩ | ⟨-, ret, c, heq, hsum, -⟩
  · omega
  · omega
  · refine .step ((killed_write_step hat (by decide)).trans heq) ?_
    refine returns_of_next ((killed_write_step ChannelState.goto_self (by decide)).trans
      (if_neg (by rw [if_neg (by decide), Bool.not_eq_true]; exact hfree))) ?_
    rw [write_next_done (show ret.toNat = call.data.length by omega)]
    rfl

/-- A reader that takes the mutex goes on behind it. -/
theorem read_lock_returns (h : s.Formed) {call : ReadCall} (hat : s.thread t = .read .lock call)
    (hfree : s.freed call.c = false) (hlock : (s.chan call.c).lock = false)
    (hless : call.ret.length < call.reqLen.toNat)
    (henough : call.reqLen.toNat ≤ call.ret.length + (s.chan call.c).bufUsed.toNat) :
    Returns files t s := by
  have hstep : readStep t .lock call s =
      some ((s.setLock call.c true).goto t (.read .held call)) := by
    rw [readStep, if_neg (by rw [hfree]; exact Bool.false_ne_true),
      if_neg (by rw [hlock]; exact Bool.false_ne_true)]
  refine .step ((killed_read_step hat (by decide)).trans hstep) ?_
  refine read_held_returns ((h.set_lock call.c true).goto ⟨Nat.le_of_lt hless, ?_⟩)
    ChannelState.goto_self hfree hless ?_
  · exact fun hwait => by cases hwait
  · show _ ≤ _ + ((s.setLock call.c true).chan call.c).bufUsed.toNat
    rw [ChannelState.setLock, ChannelState.set_chan_self]
    exact henough

/-- So does a writer that takes the mutex, or gives it up because the other end is closed. -/
theorem write_try_lock_returns (h : s.Formed) {call : WriteCall}
    (hat : s.thread t = .write .tryLock call) (hfree : s.freed call.c = false)
    (hopen : (s.chan call.c).lock = false ∨ s.freed call.tc = false ∧ s.otherSide call.tc = none)
    (hless : call.ret.toNat < call.data.length)
    (hroom : call.data.length + (s.chan call.c).bufUsed.toNat ≤ call.ret.toNat + 200) :
    Returns files t s := by
  have hformed := h.calls t
  rw [hat] at hformed
  have hlater : ∀ place : WritePlace, place ≠ .wait → (CallPc.write place call).Formed :=
    fun _ hplace => ⟨hformed.1, hformed.2.1, fun hwait => absurd hwait hplace⟩
  have hnot : ¬ s.freed call.c = true := by
    rw [hfree]
    exact Bool.false_ne_true
  by_cases hlock : (s.chan call.c).lock = true
  · -- The mutex is held: one turn of `yield`, and the loop behind it ends.
    obtain ⟨htc, hlink⟩ := hopen.resolve_left (by rw [hlock]; decide)
    have htry : writeStep t .tryLock call s = some (s.goto t (.write .yielding call)) := by
      rw [writeStep, if_neg (by exact hnot), if_pos hlock]
    have hyield : writeStep t .yielding call (s.goto t (.write .yielding call)) =
        some ((s.goto t (.write .yielding call)).goto t (.write .held call)) := by
      rw [writeStep, if_neg (by rw [if_pos rfl, Bool.not_eq_true]; exact htc),
        if_pos (by exact hlink)]
    refine .step ((killed_write_step hat (by decide)).trans htry) ?_
    refine .step ((killed_write_step ChannelState.goto_self (by decide)).trans hyield) ?_
    exact write_held_returns ((h.goto (hlater .yielding (by decide))).goto
      (hlater .held (by decide))) ChannelState.goto_self hfree hless hroom
  · have htry : writeStep t .tryLock call s =
        some ((s.setLock call.c true).goto t (.write .held call)) := by
      rw [writeStep, if_neg (by exact hnot), if_neg hlock]
    refine .step ((killed_write_step hat (by decide)).trans htry) ?_
    refine write_held_returns ((h.set_lock call.c true).goto (hlater .held (by decide)))
      ChannelState.goto_self hfree hless ?_
    show _ + ((s.setLock call.c true).chan call.c).bufUsed.toNat ≤ _
    rw [ChannelState.setLock, ChannelState.set_chan_self]
    exact hroom

/-- A thread that waits returns when it can finish. -/
theorem returns_of_can_finish (h : s.Formed) (hwait : (s.thread t).inWait = true)
    (hcan : (s.thread t).CanFinish s) : Returns files t s := by
  have hformed := h.calls t
  unfold CallPc.inWait at hwait
  split at hwait
  · next call hat =>
      rw [hat] at hformed hcan
      obtain ⟨hret, hblocking⟩ := hformed
      have hinterrupted : killedStep files t s = some (s.goto t call.next) := by
        simp only [killedStep, hat, CallPc.interrupted]
      by_cases hless : call.ret.length < call.reqLen.toNat
      · obtain ⟨hfree, hlock, henough⟩ := hcan.resolve_left (by omega)
        rw [read_next_eq (hblocking rfl) hret, if_pos hless] at hinterrupted
        refine .step hinterrupted (read_lock_returns (h.goto ⟨hret, ?_⟩) ChannelState.goto_self
          hfree hlock hless henough)
        exact fun hwait => by cases hwait
      · refine returns_of_next hinterrupted ?_
        rw [read_next_done (by omega)]
        rfl
  · next call hat =>
      rw [hat] at hformed hcan
      obtain ⟨hret, hdata, hblocking⟩ := hformed
      have hinterrupted : killedStep files t s = some (s.goto t call.next) := by
        simp only [killedStep, hat, CallPc.interrupted]
      by_cases hless : call.ret.toNat < call.data.length
      · obtain ⟨hfree, hopen, hroom⟩ := hcan.resolve_left (by omega)
        rw [write_next_eq (hblocking rfl) hdata, if_pos hless] at hinterrupted
        refine .step hinterrupted (write_try_lock_returns (h.goto ⟨hret, hdata, ?_⟩)
          ChannelState.goto_self hfree hopen hless hroom)
        exact fun hwait => by cases hwait
      · refine returns_of_next hinterrupted ?_
        rw [write_next_done (by omega)]
        rfl
  · cases hwait

/-- A thread that waits in `channel_read` or `channel_write` when it is killed returns by itself if
and only if the buffer can serve the rest of its request. -/
theorem killed_thread_returns_iff (h : s.Formed) (hwait : (s.thread t).inWait = true) :
    Returns files t s ↔ (s.thread t).CanFinish s := by
  constructor
  · intro hreturns
    by_contra hcannot
    exact stuck_never_returns h (stuck_of_not_can_finish h hwait hcannot) hreturns
  · exact returns_of_can_finish h hwait

end Returns

end Steps

/-- A thread waits for a byte at an empty end. -/
def ChannelState.waitingReader : ChannelState (Fin 2) :=
  ChannelState.fresh.goto ⟨0, Nat.two_pos⟩
    (.read .wait { c := (0, .a), blocking := true, reqLen := 1, ret := [] })

theorem waiting_reader_formed : ChannelState.waitingReader.Formed :=
  fresh_initial.formed.goto ⟨Nat.zero_le _, fun _ => rfl⟩

theorem waiting_reader_returns_iff :
    Returns (fun _ _ => none) 0 ChannelState.waitingReader ↔
      (ChannelState.waitingReader.thread 0).CanFinish ChannelState.waitingReader :=
  killed_thread_returns_iff waiting_reader_formed rfl

/-- A thread calls `channel_read` for one byte at a new channel and is killed in `wait_on`. It stays
in the call for ever. -/
theorem killed_reader_stays : ∃ s : ChannelState (Fin 2),
    Reachable (channelRuns (fun _ _ => none) Representable) s ∧ (s.thread 0).inWait = true ∧
      ¬ Returns (fun _ _ => none) 0 s := by
  obtain ⟨s, hs, hat, hempty⟩ : ∃ s : ChannelState (Fin 2),
      Reachable (channelRuns (fun _ _ => none) Representable) s ∧
        s.thread 0 = .read .wait { c := (0, .a), blocking := true, reqLen := 1, ret := [] } ∧
        (s.chan (0, .a)).bufUsed = 0 := by
    refine ⟨_, .step (.step (.step (.init fresh_initial)
      ⟨.read 0 (0, .a) true 1, trivial, rfl⟩) ⟨.step 0, trivial, rfl⟩) ⟨.step 0, trivial, rfl⟩,
      rfl, rfl⟩
  refine ⟨s, hs, by rw [hat]; rfl, stuck_never_returns (formed_of_reachable hs) ?_⟩
  rw [hat]
  refine ⟨rfl, by decide, .inr (.inl ?_)⟩
  show 0 + (s.chan (0, .a)).bufUsed.toNat < 1
  rw [hempty]
  decide

end Kogata.Kernel
