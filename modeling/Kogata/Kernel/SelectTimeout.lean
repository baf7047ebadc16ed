import Kogata.Kernel.ChannelThreads
import Mathlib.Data.Nat.Basic
import Mathlib.Algebra.GroupWithZero.Nat
import Mathlib.Algebra.Ring.Int.Defs

/-!
# The timeout of `select_sc`

The loop of `select_sc` in `kernel/user/syscall.c` and the tasks that it queues with
`worker_push_in`. What the descriptors answer in a pass, what the clock says and how the wait ends
is the schedule of the call. The time given to `worker_push_in` is the elapsed time less the
timeout, so a task that is queued is due before it is queued (`select_timeout_iff`).
-/

namespace Kogata.Kernel.SelectTimeout

/-- A pass of the loop: what `proc_read_fd` and `file_poll` answer (the flags, and whether there is
something to wait for), `get_kernel_time`, the clock in `worker_push_in`, whether that queues its
task, and what `wait_on_many` answers. -/
structure Pass where
  poll : Int → Option (UInt16 × Bool)
  time : UInt64
  now : UInt64
  forward : time ≤ now
  queued : Bool
  woken : Bool

/-- A task that the call has queued for itself. -/
structure WakeUp where
  now : UInt64
  due : UInt64
  deriving DecidableEq

/-- How the loop ends. -/
inductive SelectEnd where
  | ready
  | noHandle
  | timeout (elapsed : UInt64)
  | interrupted
  deriving DecidableEq

/-- What the call has done: the descriptors, the tasks, and how it has ended, if it has. -/
structure SelectRun where
  fds : List SelFd
  wakeUps : List WakeUp
  finish : Option SelectEnd

/-- The loop over the descriptors: the descriptors, the number of objects to wait for, and whether
one has what it is asked for. -/
def pollFds (poll : Int → Option (UInt16 × Bool)) (nWaitObjs : Nat) :
    List SelFd → List SelFd × Nat × Bool
  | [] => ([], nWaitObjs, false)
  | fd :: rest =>
      match poll fd.fd with
      | none =>
          let (rest, n, ret) := pollFds poll nWaitObjs rest
          (fd :: rest, n, ret)
      | some (flags, obj) =>
          let (rest, n, ret) := pollFds poll (if obj then nWaitObjs + 1 else nWaitObjs) rest
          ({ fd with gotFlags := flags } :: rest, n, flags &&& fd.reqFlags ≠ 0 || ret)

/-- The argument `time - select_begin_time - timeout` of `worker_push_in`. -/
def pushArgument (time begin : UInt64) (timeout : Int32) : Int32 :=
  (time - begin - timeout.toInt64.toUInt64).toUInt32.toInt32

/-- The `time` of the task that `worker_push_in` makes. -/
def dueTime (now : UInt64) (usecs : Int32) : UInt64 := now + usecs.toInt64.toUInt64

/-- The loop of `select_sc`, along a schedule. -/
def selectLoop (timeout : Int32) (begin : UInt64) : List Pass → List SelFd → SelectRun
  | [], fds => ⟨fds, [], none⟩
  | p :: rest, fds =>
      let (fds, nWaitObjs, ret) := pollFds p.poll (if timeout > 0 then 1 else 0) fds
      if ret then ⟨fds, [], some .ready⟩
      else if nWaitObjs = 0 then ⟨fds, [], some .noHandle⟩
      else if timeout ≥ 0 ∧ p.time - begin ≥ timeout.toInt64.toUInt64 then
        ⟨fds, [], some (.timeout (p.time - begin))⟩
      else
        let wakeUps :=
          if timeout > 0 ∧ p.queued then
            [⟨p.now, dueTime p.now (pushArgument p.time begin timeout)⟩]
          else []
        let later := if p.woken then selectLoop timeout begin rest fds
          else ⟨fds, [], some .interrupted⟩
        { later with wakeUps := wakeUps ++ later.wakeUps }

/-- `select_sc`, where the clock is `begin` at the start, and `allocated` says whether `malloc`
gives the array of the objects to wait for. -/
def selectSc (timeout : Int32) (begin : UInt64) (allocated : Bool) (passes : List Pass)
    (fds : List SelFd) : Option SelectRun :=
  if allocated then some (selectLoop timeout begin passes fds) else none

section Arithmetic

variable {timeout : Int32} {time begin now : UInt64}

theorem timeout_to_nat (h : 0 < timeout) :
    timeout.toInt64.toUInt64.toNat = timeout.toInt.toNat ∧ 0 < timeout.toInt ∧
      timeout.toInt < 2 ^ 31 := by
  have hpos : 0 < timeout.toInt := by simpa using Int32.lt_iff_toInt_lt.mp h
  have hwide : timeout.toInt64.toBitVec.toInt = timeout.toInt := Int32.toInt_toInt64 timeout
  have hcond := BitVec.toInt_eq_toNat_cond timeout.toInt64.toBitVec
  have hlt := timeout.toInt64.toBitVec.isLt
  refine ⟨?_, hpos, timeout.toInt_lt⟩
  show timeout.toInt64.toBitVec.toNat = _
  split at hcond
  · omega
  · omega

/-- A difference that is negative, as the argument of `worker_push_in`. -/
theorem push_argument_to_int {e t : UInt64} {δ : Nat} (h : e.toNat + δ = t.toNat) (hpos : 0 < δ)
    (hlt : δ < 2 ^ 31) : (e - t).toUInt32.toInt32.toInt = -(δ : Int) := by
  have hwide : (e - t).toNat = 2 ^ 64 - δ := by
    have he := e.toNat_lt
    have ht := t.toNat_lt
    rw [UInt64.toNat_sub]
    omega
  have hnarrow : (e - t).toUInt32.toInt32.toBitVec.toNat = 2 ^ 32 - δ := by
    show (e - t).toUInt32.toNat = _
    rw [UInt64.toNat_toUInt32, hwide]
    omega
  have hcond := BitVec.toInt_eq_toNat_cond (e - t).toUInt32.toInt32.toBitVec
  show (e - t).toUInt32.toInt32.toBitVec.toInt = _
  split at hcond
  · omega
  · omega

/-- A negative argument makes a task that is due earlier. -/
theorem due_time_to_nat {usecs : Int32} {δ : Nat} (h : usecs.toInt = -(δ : Int)) (hpos : 0 < δ)
    (hlt : δ < 2 ^ 31) (now : UInt64) :
    (dueTime now usecs).toNat = (now.toNat + (2 ^ 64 - δ)) % 2 ^ 64 := by
  have hwide : usecs.toInt64.toBitVec.toInt = -(δ : Int) := (Int32.toInt_toInt64 usecs).trans h
  have hcond := BitVec.toInt_eq_toNat_cond usecs.toInt64.toBitVec
  have hword := usecs.toInt64.toBitVec.isLt
  have hto : usecs.toInt64.toUInt64.toNat = 2 ^ 64 - δ := by
    show usecs.toInt64.toBitVec.toNat = _
    split at hcond
    · omega
    · omega
  rw [dueTime, UInt64.toNat_add, hto]

/-- While the timeout has not passed, a task is not due at its end, or it is due in the past. -/
theorem due_time_wrong (h : 0 < timeout) (hearly : ¬ time - begin ≥ timeout.toInt64.toUInt64)
    (hforward : time ≤ now) :
    ¬ (dueTime now (pushArgument time begin timeout) = begin + timeout.toInt64.toUInt64 ∧
      now ≤ dueTime now (pushArgument time begin timeout)) := by
  rintro ⟨hdue, hlate⟩
  obtain ⟨htimeout, hpos, hshort⟩ := timeout_to_nat h
  have hless : (time - begin).toNat < timeout.toInt64.toUInt64.toNat := by
    have hle := mt UInt64.le_iff_toNat_le.mpr hearly
    omega
  obtain ⟨δ, hδ⟩ := Nat.exists_eq_add_of_lt hless
  have hsum : (time - begin).toNat + (δ + 1) = timeout.toInt64.toUInt64.toNat := by omega
  have harg := push_argument_to_int hsum (Nat.succ_pos δ) (by omega)
  have hto := due_time_to_nat harg (Nat.succ_pos δ) (by omega) now
  have hend := congrArg UInt64.toNat hdue
  have hlater := UInt64.le_iff_toNat_le.mp hlate
  have hclock := UInt64.le_iff_toNat_le.mp hforward
  have hnow := now.toNat_lt
  have hbegin := begin.toNat_lt
  have htime := time.toNat_lt
  have helapsed := UInt64.toNat_sub time begin
  change (dueTime now (pushArgument time begin timeout)).toNat = _ at hto
  rw [hto] at hend hlater
  rw [UInt64.toNat_add] at hend
  omega

end Arithmetic

/-- What `select` promises of a call that begins at `begin`: its tasks are due at the end of the
timeout, none in the past, and it does not give up before. -/
structure HonoursTimeout (timeout : Int32) (begin : UInt64) (run : SelectRun) : Prop where
  due : ∀ w ∈ run.wakeUps, w.due = begin + timeout.toInt64.toUInt64 ∧ w.now ≤ w.due
  late : ∀ elapsed, run.finish = some (.timeout elapsed) → timeout.toInt64.toUInt64 ≤ elapsed
  waits : run.finish ≠ some .noHandle

/-- A pass finds a descriptor that has what it is asked for. -/
def Wanted (fds : List SelFd) (p : Pass) : Prop :=
  ∃ fd ∈ fds, ∃ flags obj, p.poll fd.fd = some (flags, obj) ∧ flags &&& fd.reqFlags ≠ 0

/-- A pass at which the call goes to sleep. -/
def Sleeps (timeout : Int32) (begin : UInt64) (fds : List SelFd) (p : Pass) : Prop :=
  ¬ Wanted fds p ∧ p.time - begin < timeout.toInt64.toUInt64

/-- The call comes to a pass at which it goes to sleep and its task is queued. -/
def QueuesTask (timeout : Int32) (begin : UInt64) (fds : List SelFd) (passes : List Pass) : Prop :=
  ∃ before p later, passes = before ++ p :: later ∧
    (∀ q ∈ before, Sleeps timeout begin fds q ∧ q.woken) ∧
    Sleeps timeout begin fds p ∧ p.queued

section Polls

variable (poll : Int → Option (UInt16 × Bool))

/-- The loop over the descriptors only counts up. -/
theorem poll_fds_count (nWaitObjs : Nat) (fds : List SelFd) :
    nWaitObjs ≤ (pollFds poll nWaitObjs fds).2.1 := by
  induction fds generalizing nWaitObjs with
  | nil => exact Nat.le_refl _
  | cons fd rest ih =>
      rw [pollFds]
      split
      · exact ih nWaitObjs
      · next flags obj _ =>
        cases obj with
        | false => exact ih nWaitObjs
        | true => exact (Nat.le_succ nWaitObjs).trans (ih (nWaitObjs + 1))

theorem poll_fds_ready (p : Pass) (nWaitObjs : Nat) (fds : List SelFd) :
    (pollFds p.poll nWaitObjs fds).2.2 = true ↔ Wanted fds p := by
  induction fds generalizing nWaitObjs with
  | nil => simp [pollFds, Wanted]
  | cons fd rest ih =>
      rw [pollFds]
      unfold Wanted at ih ⊢
      rw [List.exists_mem_cons_iff]
      split
      · next hnone =>
        show (pollFds p.poll nWaitObjs rest).2.2 = true ↔ _
        simp [ih, hnone]
      · next flags obj hsome =>
        show (decide (flags &&& fd.reqFlags ≠ 0) || _) = true ↔ _
        rw [Bool.or_eq_true, ih, decide_eq_true_iff, hsome]
        simp

/-- The loop writes what it has found, not what it is asked for. -/
theorem poll_fds_wanted (nWaitObjs : Nat) (fds : List SelFd) (q : Pass) :
    Wanted (pollFds poll nWaitObjs fds).1 q ↔ Wanted fds q := by
  induction fds generalizing nWaitObjs with
  | nil => exact Iff.rfl
  | cons fd rest ih =>
      rw [pollFds]
      unfold Wanted at ih ⊢
      split
      · show (∃ x ∈ fd :: (pollFds poll nWaitObjs rest).1, _) ↔ _
        rw [List.exists_mem_cons_iff, List.exists_mem_cons_iff, ih]
      · next flags obj _ =>
        show (∃ x ∈ { fd with gotFlags := flags } :: (pollFds poll _ rest).1, _) ↔ _
        rw [List.exists_mem_cons_iff, List.exists_mem_cons_iff, ih]

end Polls

section Loop

variable {timeout : Int32} {begin : UInt64} {fds : List SelFd} {p : Pass} {rest : List Pass}

/-- The call that sleeps at its first pass comes to a task there, or at a later pass. -/
theorem queues_task_cons (hsleeps : Sleeps timeout begin fds p) :
    QueuesTask timeout begin fds (p :: rest) ↔
      p.queued ∨ (p.woken ∧ QueuesTask timeout begin fds rest) := by
  constructor
  · rintro ⟨before, q, later, heq, hbefore, hq⟩
    cases before with
    | nil =>
        obtain ⟨rfl, rfl⟩ := List.cons.inj heq
        exact Or.inl hq.2
    | cons first before =>
        obtain ⟨rfl, rfl⟩ := List.cons.inj heq
        refine Or.inr ⟨(hbefore p List.mem_cons_self).2, before, q, later, rfl, ?_, hq⟩
        exact fun q hq => hbefore q (List.mem_cons_of_mem p hq)
  · intro h
    cases h with
    | inl hqueued => exact ⟨[], p, rest, rfl, by simp, hsleeps, hqueued⟩
    | inr h =>
        obtain ⟨hwoken, before, q, later, rfl, hbefore, hq⟩ := h
        refine ⟨p :: before, q, later, rfl, ?_, hq⟩
        intro x hx
        cases List.mem_cons.mp hx with
        | inl hp => exact hp ▸ ⟨hsleeps, hwoken⟩
        | inr hx => exact hbefore x hx

/-- The call that does not sleep at its first pass queues nothing. -/
theorem queues_nothing (hsleeps : ¬ Sleeps timeout begin fds p) :
    ¬ QueuesTask timeout begin fds (p :: rest) := by
  rintro ⟨before, q, later, heq, hbefore, hq⟩
  cases before with
  | nil =>
      obtain ⟨rfl, rfl⟩ := List.cons.inj heq
      exact hsleeps hq.1
  | cons first before =>
      obtain ⟨rfl, rfl⟩ := List.cons.inj heq
      exact hsleeps (hbefore p List.mem_cons_self).1

theorem queues_task_wanted {fds fds' : List SelFd} (h : ∀ q, Wanted fds' q ↔ Wanted fds q)
    (passes : List Pass) :
    QueuesTask timeout begin fds' passes ↔ QueuesTask timeout begin fds passes := by
  simp only [QueuesTask, Sleeps, h]

/-- What a pass adds to the call: its task, and then the rest. -/
theorem honours_timeout_cons {wakeUps : List WakeUp} {run : SelectRun} :
    HonoursTimeout timeout begin { run with wakeUps := wakeUps ++ run.wakeUps } ↔
      (∀ w ∈ wakeUps, w.due = begin + timeout.toInt64.toUInt64 ∧ w.now ≤ w.due) ∧
        HonoursTimeout timeout begin run := by
  constructor
  · intro h
    exact ⟨fun w hw => h.due w (List.mem_append_left _ hw),
      fun w hw => h.due w (List.mem_append_right _ hw), h.late, h.waits⟩
  · rintro ⟨hfirst, hrun⟩
    refine ⟨fun w hw => ?_, hrun.late, hrun.waits⟩
    exact (List.mem_append.mp hw).elim (hfirst w) (hrun.due w)

/-- The loop keeps the promise exactly on the schedules that queue no task. -/
theorem select_loop_iff (hpos : 0 < timeout) (passes : List Pass) (fds : List SelFd) :
    HonoursTimeout timeout begin (selectLoop timeout begin passes fds) ↔
      ¬ QueuesTask timeout begin fds passes := by
  induction passes generalizing fds with
  | nil =>
      have hnone : ¬ QueuesTask timeout begin fds [] := by
        rintro ⟨before, q, later, heq, -⟩
        simp at heq
      exact iff_of_true ⟨by simp [selectLoop], by simp [selectLoop], by simp [selectLoop]⟩ hnone
  | cons p rest ih =>
      have hready := poll_fds_ready p 1 fds
      have hcount := poll_fds_count p.poll 1 fds
      have hsame := poll_fds_wanted p.poll 1 fds
      rw [selectLoop, if_pos hpos]
      generalize pollFds p.poll 1 fds = polled at hready hcount hsame ⊢
      obtain ⟨fds', nWaitObjs, ret⟩ := polled
      simp only at hready hcount hsame ⊢
      have hsome : nWaitObjs ≠ 0 := by omega
      rw [if_neg hsome]
      split
      · next hret =>
        have hawake : ¬ Sleeps timeout begin fds p := fun h => h.1 (hready.mp hret)
        exact iff_of_true ⟨by simp, by simp, by simp⟩ (queues_nothing hawake)
      · next hret =>
        split
        · next hover =>
          have hawake : ¬ Sleeps timeout begin fds p :=
            fun h => absurd h.2 (UInt64.not_lt.mpr hover.2)
          refine iff_of_true ⟨by simp, ?_, by simp⟩ (queues_nothing hawake)
          intro elapsed helapsed
          cases helapsed
          exact hover.2
        · next hearly =>
          have hzero : timeout ≥ 0 := Int32.le_of_lt hpos
          have hshort : ¬ p.time - begin ≥ timeout.toInt64.toUInt64 := fun h => hearly ⟨hzero, h⟩
          have hsleeps : Sleeps timeout begin fds p :=
            ⟨fun h => hret (hready.mpr h), UInt64.not_le.mp hshort⟩
          rw [honours_timeout_cons, queues_task_cons hsleeps, not_or, not_and]
          refine and_congr ?_ ?_
          · -- the task, if there is one, is the wrong one
            have hwrong := due_time_wrong hpos hshort p.forward
            cases hqueued : p.queued with
            | false => simp
            | true => simpa [hpos] using hwrong
          · cases hwoken : p.woken with
            | false =>
                exact iff_of_true ⟨by simp, by simp, by simp⟩ (by simp)
            | true =>
                rw [if_pos rfl, ih, queues_task_wanted hsame]
                simp

end Loop

/-- A call with a positive timeout keeps its promise exactly when it never comes to a pass at which
it goes to sleep with a task of its own. -/
theorem select_timeout_iff (timeout : Int32) (begin : UInt64) (allocated : Bool)
    (passes : List Pass) (fds : List SelFd) (hpos : 0 < timeout) :
    (∀ run, selectSc timeout begin allocated passes fds = some run →
        HonoursTimeout timeout begin run) ↔
      (allocated = true → ¬ QueuesTask timeout begin fds passes) := by
  have hloop := @select_loop_iff timeout begin hpos passes fds
  cases allocated with
  | false => simp [selectSc]
  | true => simpa [selectSc] using hloop

/-- Nothing is ready, and the call goes to sleep for good. -/
def quietPass (time : UInt64) : Pass where
  poll := fun _ => some (0, true)
  time := time
  now := time
  forward := UInt64.le_refl time
  queued := true
  woken := false

/-- A call that sleeps without a task, is woken, and returns when the time is over. -/
theorem select_timeout_over :
    ∃ run, selectSc 1000 0 true [{ quietPass 5 with queued := false, woken := true },
      quietPass 2000] [⟨3, 1, 0⟩] = some run ∧ run.finish = some (.timeout 2000) ∧
      HonoursTimeout 1000 0 run := by
  refine ⟨_, rfl, rfl, (select_timeout_iff 1000 0 true _ _ (by decide)).mpr (fun _ => ?_) _ rfl⟩
  rw [queues_task_cons ⟨?_, by decide⟩]
  · rintro (hqueued | hlater)
    · cases hqueued
    · exact queues_nothing (fun h => absurd h.2 (by decide)) hlater.2
  · rintro ⟨fd, -, flags, obj, hpoll, hflags⟩
    cases hpoll
    exact hflags (UInt16.zero_and ..)

/-- At the time 5000 the call of a millisecond queues a task for the time 4000. -/
theorem select_timeout_due_before :
    ¬ ∀ run, selectSc 1000 5000 true [quietPass 5000] [⟨3, 1, 0⟩] = some run →
      HonoursTimeout 1000 5000 run := by
  intro h
  have hdue := (h _ rfl).due ⟨5000, 4000⟩ (by decide)
  exact absurd hdue (by decide)

end Kogata.Kernel.SelectTimeout
