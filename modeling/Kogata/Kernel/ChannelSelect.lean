import Mathlib.Data.Fintype.Basic
import Kogata.Kernel.ChannelThreads

/-!
# Waiting for channels in `select_sc`

`channel_poll` looks at the buffers of both ends and names one object to wait on, the end itself.
So a thread that waits for room learns of a `channel_read` at the other end only when it waits on
that end as well, and it learns of nothing that happens between two of its polls
(`select_wakes`).
-/

namespace Kogata.Kernel

open Lib.Run

/-- The descriptors that the thread has polled in this round without finding a flag it wants. -/
def CallPc.polled : CallPc → List SelFd
  | .selectPoll polled _ _ false => polled
  | .selectWait fds _ => fds
  | _ => []

/-- The buffer in which the thread has moved bytes without having called `resume_on` yet. -/
def CallPc.moving : CallPc → Option ChannelPtr
  | .read .moved call => some call.c
  | .write .moved call => some call.c
  | _ => none

section Select

variable {T : Type} (files : T → Int → Option ChannelPtr)

/-- A descriptor is the end of a channel on which `channel_poll` reports a flag that is asked
for. -/
def Ready (s : ChannelState T) (t : T) (fd : SelFd) (e : ChannelPtr) : Prop :=
  files t fd.fd = some e ∧ s.channelPoll e &&& fd.reqFlags ≠ 0

/-- The thread is parked in `select_sc`, everybody else is outside the calls, and one of its
descriptors is ready. -/
def SelectMisses (s : ChannelState T) (t : T) : Prop :=
  ∃ fds waitObjs, s.thread t = .selectWait fds waitObjs ∧
    (∀ u, u ≠ t → (s.thread u).outside = true) ∧ ∃ fd ∈ fds, ∃ e, Ready files s t fd e

/-- Nobody closes an end. -/
def Selecting : ChannelEvent T → Prop
  | .close _ | .dispose _ => False
  | _ => True

/-- The event is a `resume_on` behind a change of a buffer, and a thread that has already polled
one of the two ends, which is ready now, does not wait on that buffer. -/
def Overlooks (s : ChannelState T) : ChannelEvent T → Prop
  | .step u => ∃ x, (s.thread u).moving = some x ∧ ∃ t, ∃ fd ∈ (s.thread t).polled, ∃ e,
      Ready files s t fd e ∧ (e = x ∨ e.other = x) ∧ x ∉ (s.thread t).waitingOn
  | _ => False

/-- What holds along a run in which nobody is overlooked: whenever a descriptor that has been
polled is ready, a `resume_on` for one of the two buffers is still to come. -/
structure SelectInv (s : ChannelState T) : Prop where
  link : ∀ c o, s.otherSide c = some o → o = c.other
  ready : ∀ t, ∀ fd ∈ (s.thread t).polled, ∀ e, Ready files s t fd e →
    ∃ u x, (s.thread u).moving = some x ∧ (e = x ∨ e.other = x)

variable {files} {s s' : ChannelState T}

theorem CallPc.moving_of_waiting {pc : CallPc} {x : ChannelPtr} (h : x ∈ pc.waitingOn) :
    pc.moving = none := by
  cases pc with
  | returned | writeBegin | selectPoll => cases h
  | selectWait => rfl
  | read place call =>
      cases place with
      | lock | held | moved => cases h
      | wait => rfl
  | write place call =>
      cases place with
      | tryLock | yielding | held | moved => cases h
      | wait => rfl

@[simp] theorem ReadCall.polled_next (call : ReadCall) : call.next.polled = [] := by
  unfold ReadCall.next
  split <;> rfl

@[simp] theorem WriteCall.polled_next (call : WriteCall) : call.next.polled = [] := by
  unfold WriteCall.next
  split <;> rfl

theorem CallPc.polled_resumed {pc : CallPc} {x : ChannelPtr} (h : x ∈ pc.waitingOn) :
    pc.resumed.polled = [] := by
  cases pc with
  | returned | writeBegin | selectPoll => cases h
  | selectWait => rfl
  | read place call =>
      cases place with
      | lock | held | moved => cases h
      | wait => exact call.polled_next
  | write place call =>
      cases place with
      | tryLock | yielding | held | moved => cases h
      | wait => exact call.polled_next

/-- What `channel_poll` looks at. -/
theorem channel_poll_congr {e : ChannelPtr} (hlink : ∀ o, s.otherSide e = some o → o = e.other)
    (hother : s'.otherSide e = s.otherSide e)
    (hself : (s'.chan e).bufUsed = (s.chan e).bufUsed)
    (hpeer : (s'.chan e.other).bufUsed = (s.chan e.other).bufUsed) :
    s'.channelPoll e = s.channelPoll e := by
  unfold ChannelState.channelPoll
  rw [hother, hself]
  cases ho : s.otherSide e with
  | none => rfl
  | some o =>
      rw [hlink o ho]
      simp only [hpeer]

/-- The mutex is none of what `channel_poll` looks at. -/
theorem channel_poll_set_lock {e c : ChannelPtr} {lock : Bool}
    (hlink : ∀ o, s.otherSide e = some o → o = e.other) :
    (s.setLock c lock).channelPoll e = s.channelPoll e := by
  have hused : ∀ d, ((s.setLock c lock).chan d).bufUsed = (s.chan d).bufUsed := by
    intro d
    by_cases hd : d = c
    · show (Function.update s.chan c _ d).bufUsed = _
      rw [hd, Function.update_self]
    · exact congrArg Channel.bufUsed (ChannelState.set_chan_of_ne hd)
  exact channel_poll_congr hlink ChannelState.other_side_set_lock (hused e) (hused e.other)

/-- The mutex of a channel changes. -/
theorem SelectInv.set_lock (h : SelectInv files s) (c : ChannelPtr) (lock : Bool) :
    SelectInv files (s.setLock c lock) := by
  refine ⟨fun d o ho => h.link d o (ChannelState.other_side_set_lock ▸ ho),
    fun t fd hfd e hready => ?_⟩
  exact h.ready t fd hfd e ⟨hready.1, channel_poll_set_lock (h.link e) ▸ hready.2⟩

variable [DecidableEq T]

section

variable (h : SelectInv files s)

include h

/-- A thread that has not just moved bytes goes to another place. -/
theorem SelectInv.goto {t : T} {pc : CallPc}
    (hold : (s.thread t).moving = none)
    (hnew : ∀ fd ∈ pc.polled, ∀ e, Ready files s t fd e → fd ∈ (s.thread t).polled) :
    SelectInv files (s.goto t pc) where
  link := h.link
  ready := by
    intro v fd hfd e hready
    have hpolled : fd ∈ (s.thread v).polled := by
      by_cases hv : v = t
      · subst hv
        rw [ChannelState.goto_self] at hfd
        exact hnew fd hfd e hready
      · rwa [ChannelState.goto_of_ne hv] at hfd
    obtain ⟨u, x, hmoving, hx⟩ := h.ready v fd hpolled e hready
    have hu : u ≠ t := by
      intro heq
      rw [heq, hold] at hmoving
      cases hmoving
    exact ⟨u, x, by rwa [ChannelState.goto_of_ne hu], hx⟩

/-- Bytes are moved: who is concerned will be woken by the thread that has moved them. -/
theorem SelectInv.move {u : T} {x : ChannelPtr} {value : Channel}
    {pc : CallPc} (hlink : value.otherSide = (s.chan x).otherSide)
    (hold : (s.thread u).moving = none) (hpc : pc.moving = some x) (hpolled : pc.polled = []) :
    SelectInv files ((s.setChan x value).goto u pc) where
  link := fun d o ho => h.link d o (ChannelState.other_side_set_chan hlink ▸ ho)
  ready := by
    intro t fd hfd e hready
    by_cases hx : e = x ∨ e.other = x
    · exact ⟨u, x, by rw [ChannelState.goto_self]; exact hpc, hx⟩
    · obtain ⟨hself, hpeer⟩ := not_or.mp hx
      have hpoll : (s.setChan x value).channelPoll e = s.channelPoll e :=
        channel_poll_congr (h.link e) (ChannelState.other_side_set_chan hlink)
          (congrArg Channel.bufUsed (ChannelState.set_chan_of_ne hself))
          (congrArg Channel.bufUsed (ChannelState.set_chan_of_ne hpeer))
      have ht : t ≠ u := by
        intro heq
        rw [heq, ChannelState.goto_self, hpolled] at hfd
        cases hfd
      rw [ChannelState.goto_of_ne ht] at hfd
      obtain ⟨v, y, hmoving, hy⟩ := h.ready t fd hfd e ⟨hready.1, hpoll ▸ hready.2⟩
      have hv : v ≠ u := by
        intro heq
        rw [heq, hold] at hmoving
        cases hmoving
      exact ⟨v, y, by rw [ChannelState.goto_of_ne hv]; exact hmoving, hy⟩

/-- The wake-up: nobody who is concerned is overlooked. -/
theorem SelectInv.wake {u : T} {x : ChannelPtr} {pc : CallPc}
    (hold : (s.thread u).moving = some x) (hallowed : ¬ Overlooks files s (.step u))
    (hpolled : pc.polled = []) : SelectInv files (((s.resumeOn x).setLock x false).goto u pc) where
  link := by
    intro d o ho
    change ((s.resumeOn x).setLock x false).otherSide d = some o at ho
    rw [ChannelState.other_side_set_lock] at ho
    exact h.link d o ho
  ready := by
    intro t fd hfd e hready
    have ht : t ≠ u := by
      intro heq
      rw [heq, ChannelState.goto_self, hpolled] at hfd
      cases hfd
    rw [ChannelState.goto_of_ne ht] at hfd
    change fd ∈ (if x ∈ (s.thread t).waitingOn then (s.thread t).resumed
      else s.thread t : CallPc).polled at hfd
    split at hfd
    · next hwaits =>
        rw [CallPc.polled_resumed hwaits] at hfd
        cases hfd
    · next hwaits =>
        have hready' : Ready files s t fd e :=
          ⟨hready.1, channel_poll_set_lock (s := s.resumeOn x) (h.link e) ▸ hready.2⟩
        obtain ⟨v, y, hmoving, hy⟩ := h.ready t fd hfd e hready'
        have hv : v ≠ u := by
          intro heq
          rw [heq, hold] at hmoving
          cases hmoving
          exact hallowed ⟨x, hold, t, fd, hfd, e, hready', hy, hwaits⟩
        refine ⟨v, y, ?_, hy⟩
        rw [ChannelState.goto_of_ne hv]
        show (if x ∈ (s.thread v).waitingOn then (s.thread v).resumed
          else s.thread v : CallPc).moving = _
        split
        · next hw =>
            rw [CallPc.moving_of_waiting hw] at hmoving
            cases hmoving
        · exact hmoving

omit [DecidableEq T] in
theorem SelectInv.dangling : SelectInv files { s with dangling := true } :=
  ⟨h.link, h.ready⟩

/-- A step of `channel_read`. -/
theorem SelectInv.read_step {t : T} {place : ReadPlace} {call : ReadCall}
    (hat : s.thread t = .read place call) (hallowed : ¬ Overlooks files s (.step t))
    (hstep : readStep t place call s = some s') : SelectInv files s' := by
  unfold readStep at hstep
  split at hstep
  · cases hstep
    exact h.dangling
  · cases place with
    | lock =>
        simp only at hstep
        split at hstep
        · cases hstep
          exact h
        · cases hstep
          exact (h.set_lock ..).goto (by rw [ChannelState.setLock]; exact hat ▸ rfl)
            (fun fd hfd => by cases hfd)
    | held =>
        simp only at hstep
        split at hstep
        · cases hstep
          refine (h.set_lock ..).goto (show (s.thread t).moving = none from hat ▸ rfl) ?_
          intro fd hfd
          split at hfd
          · cases hfd
          · cases hfd
        · split at hstep
          · cases hstep
          · next hround =>
              cases hstep
              exact h.move (Channel.read_round_link hround) (hat ▸ rfl) rfl rfl
    | moved =>
        cases hstep
        exact h.wake (hat ▸ rfl) hallowed call.polled_next
    | wait => cases hstep

/-- A step of the loop of `channel_write`. -/
theorem SelectInv.write_step {t : T} {place : WritePlace}
    {call : WriteCall} (hat : s.thread t = .write place call)
    (hallowed : ¬ Overlooks files s (.step t)) (hstep : writeStep t place call s = some s') :
    SelectInv files s' := by
  unfold writeStep at hstep
  by_cases hfreed : s.freed (if place = .yielding then call.tc else call.c) = true
  · rw [if_pos hfreed] at hstep
    cases hstep
    exact h.dangling
  · rw [if_neg hfreed] at hstep
    cases place with
    | tryLock =>
        simp only at hstep
        split at hstep
        · cases hstep
          exact h.goto (hat ▸ rfl) (fun fd hfd => by cases hfd)
        · cases hstep
          exact (h.set_lock ..).goto (show (s.thread t).moving = none from hat ▸ rfl)
            (fun fd hfd => by cases hfd)
    | yielding =>
        simp only at hstep
        split at hstep
        · cases hstep
          exact h.goto (hat ▸ rfl) (fun fd hfd => by cases hfd)
        · cases hstep
          exact h.goto (hat ▸ rfl) (fun fd hfd => by cases hfd)
    | held =>
        simp only at hstep
        split at hstep
        · cases hstep
        · next hround =>
            split at hstep
            · cases hstep
              refine (h.set_lock ..).goto (show (s.thread t).moving = none from hat ▸ rfl) ?_
              intro fd hfd
              split at hfd
              · cases hfd
              · cases hfd
            · cases hstep
              exact h.move (Channel.write_round_link hround) (hat ▸ rfl) rfl rfl
    | moved =>
        cases hstep
        exact h.wake (hat ▸ rfl) hallowed call.polled_next
    | wait => cases hstep

/-- The next poll of `select_sc`: either it finds a flag, or there is one more descriptor on which
there is none. -/
theorem SelectInv.poll {t : T} {polled rest rest' : List SelFd}
    {waitObjs waitObjs' : List ChannelPtr} {ret ret' : Bool} {fd' : SelFd}
    (hat : s.thread t = .selectPoll polled rest waitObjs ret)
    (hret : ret' = false → ret = false ∧ ∀ e, ¬ Ready files s t fd' e) :
    SelectInv files (s.goto t (.selectPoll (polled ++ [fd']) rest' waitObjs' ret')) := by
  refine h.goto (hat ▸ rfl) fun fd hfd e hready => ?_
  cases ret' with
  | true => cases hfd
  | false =>
      obtain ⟨rfl, hnot⟩ := hret rfl
      rw [hat]
      rcases List.mem_append.mp hfd with hold | hnew
      · exact hold
      · rw [List.mem_singleton.mp hnew] at hready
        exact absurd hready (hnot e)

/-- A step of a thread. -/
theorem SelectInv.call_step {t : T}
    (hallowed : ¬ Overlooks files s (.step t)) (hstep : callStep files t s = some s') :
    SelectInv files s' := by
  unfold callStep at hstep
  cases hat : s.thread t with
  | returned | selectWait =>
      rw [hat] at hstep
      cases hstep
  | read place call =>
      rw [hat] at hstep
      exact h.read_step hat hallowed hstep
  | writeBegin tc blocking data =>
      rw [hat] at hstep
      simp only at hstep
      split at hstep
      · cases hstep
        exact h.dangling
      · split at hstep
        · cases hstep
          exact h.goto (hat ▸ rfl) (fun fd hfd => by cases hfd)
        · cases hstep
          exact h.goto (hat ▸ rfl) (fun fd hfd => by cases hfd)
  | write place call =>
      rw [hat] at hstep
      exact h.write_step hat hallowed hstep
  | selectPoll polled rest waitObjs ret =>
      rw [hat] at hstep
      cases rest with
      | nil =>
          simp only at hstep
          split at hstep
          · cases hstep
            exact h.goto (hat ▸ rfl) (fun fd hfd => by cases hfd)
          · next hret =>
              split at hstep
              · cases hstep
                exact h.goto (hat ▸ rfl) (fun fd hfd => by cases hfd)
              · cases hstep
                refine h.goto (hat ▸ rfl) fun fd hfd e _ => ?_
                rw [hat, Bool.eq_false_iff.mpr hret]
                exact hfd
      | cons fd rest =>
          simp only at hstep
          split at hstep
          · next hfile =>
              cases hstep
              refine h.poll hat fun hret => ⟨hret, fun e hready => ?_⟩
              have hsome := hfile.symm.trans hready.1
              cases hsome
          · next c hfile =>
              split at hstep
              · cases hstep
                exact h.dangling
              · cases hstep
                refine h.poll hat fun hret => ?_
                obtain ⟨hold, hgot⟩ := Bool.or_eq_false_iff.mp hret
                refine ⟨hold, fun e hready => ?_⟩
                obtain rfl : c = e := Option.some.inj (hfile.symm.trans hready.1)
                exact absurd hready.2 (by simpa using hgot)

/-- Every event that overlooks nobody keeps the invariant. -/
theorem SelectInv.step {event : ChannelEvent T}
    (hselecting : Selecting event) (hallowed : ¬ Overlooks files s event)
    (hstep : channelStep files s event = some s') : SelectInv files s' := by
  have hbegin : ∀ {t : T} {pc : CallPc}, pc.polled = [] →
      (if (s.thread t).outside then some (s.goto t pc) else none) = some s' →
      SelectInv files s' := by
    intro t pc hpolled hstep
    split at hstep
    · next hout =>
        cases hstep
        refine h.goto ?_ (fun fd hfd => by rw [hpolled] at hfd; cases hfd)
        cases hat : s.thread t with
        | returned result => rfl
        | read | writeBegin | write | selectPoll | selectWait =>
            rw [hat] at hout
            cases hout
    · cases hstep
  cases event with
  | read t c blocking reqLen => exact hbegin rfl hstep
  | write t c blocking data => exact hbegin rfl hstep
  | select t fds => exact hbegin rfl hstep
  | close c => exact hselecting.elim
  | dispose c => exact hselecting.elim
  | step t => exact h.call_step hallowed hstep

end

omit [DecidableEq T] in
theorem SelectInv.of_initial (h : s.Initial) : SelectInv files s where
  link := by
    intro c o ho
    rw [h.link c] at ho
    split at ho
    · cases ho
    · exact (Option.some.inj ho).symm
  ready := by
    intro t fd hfd
    have hout := h.outside t
    cases hat : s.thread t with
    | returned result =>
        rw [hat] at hfd
        cases hfd
    | read | writeBegin | write | selectPoll | selectWait =>
        rw [hat] at hout
        cases hout

/-- In every run in which each `resume_on` of a `channel_read` or `channel_write` finds the threads
that have polled an end of that channel, and whose flag has come up, parked on the buffer that has
changed, no thread stays parked in `select_sc` with a descriptor that is ready. -/
theorem select_wakes
    (h : Reachable (channelRuns files fun s event => Selecting event ∧ ¬ Overlooks files s event) s)
    (t : T) : ¬ SelectMisses files s t := by
  have hinv : SelectInv files s := Reachable.induct (motive := SelectInv files)
    (fun _ hinit => .of_initial hinit) (fun _ _ hs hstep => by
      obtain ⟨event, ⟨hselecting, hallowed⟩, hstep⟩ := hstep
      exact hs.step hselecting hallowed hstep) h
  rintro ⟨fds, waitObjs, hat, hothers, fd, hfd, e, hready⟩
  obtain ⟨u, x, hmoving, -⟩ := hinv.ready t fd (by rw [hat]; exact hfd) e hready
  have hu : u ≠ t := by
    intro heq
    rw [heq, hat] at hmoving
    cases hmoving
  have hout := hothers u hu
  cases hpc : s.thread u with
  | returned result =>
      rw [hpc] at hmoving
      cases hmoving
  | read | writeBegin | write | selectPoll | selectWait =>
      rw [hpc] at hout
      cases hout

end Select

section Examples

/-- The descriptor `3` of every process is the end `a`. -/
def endOfThree (_ : Fin 2) (fd : Int) : Option ChannelPtr :=
  if fd = 3 then some (0, .a) else none

/-- A thread that waits for a byte is woken when it is written. -/
theorem select_wakes_read : ∃ s : ChannelState (Fin 2),
    s.thread 0 = .returned (.selected true [⟨3, selRead, selRead ||| selWrite⟩]) ∧
    ¬ SelectMisses endOfThree s 0 := by
  have hrun : (runEvents (channelStep endOfThree)
      (fun s event => (match event with | .close _ | .dispose _ => false | _ => true) &&
        decide (∀ t u, (s.thread t).polled = [] ∨
          (s.thread u).moving.all (fun x => x ∈ (s.thread t).waitingOn) = true))
      [.select 0 [⟨3, selRead, 0⟩], .step 0, .step 0, .write 1 (0, .b) false [7], .step 1, .step 1,
        .step 1, .step 1, .step 0, .step 0] ChannelState.fresh).map (fun s => s.thread 0) =
      some (.returned (.selected true [⟨3, selRead, selRead ||| selWrite⟩])) := by
    decide +kernel
  obtain ⟨s, hrun, hreturned⟩ := Option.map_eq_some_iff.mp hrun
  refine ⟨s, hreturned, select_wakes (Reachable.run_events (fun s event hpass => ?_)
    (.init fresh_initial) hrun) 0⟩
  obtain ⟨hevent, hnone⟩ := Bool.and_eq_true_iff.mp hpass
  cases event with
  | close | dispose => cases hevent
  | read | write | select => exact ⟨trivial, id⟩
  | step u =>
      refine ⟨trivial, ?_⟩
      rintro ⟨x, hx, t, fd, hfd, e, -, -, hnot⟩
      rcases of_decide_eq_true hnone t u with hpolled | hwaits
      · rw [hpolled] at hfd
        cases hfd
      · rw [hx] at hwaits
        exact hnot (of_decide_eq_true hwaits)

/-- A thread that waits for room at one end is not woken when the other end reads from a full
buffer. -/
theorem select_misses_room : ¬ ∀ (s : ChannelState (Fin 2)) (t : Fin 2),
    Reachable (channelRuns endOfThree fun _ event => Selecting event) s →
      ¬ SelectMisses endOfThree s t := by
  intro hclaim
  have hrun : (runEvents (channelStep endOfThree)
      (fun _ event => match event with | .close _ | .dispose _ => false | _ => true)
      [.write 0 (0, .a) false (List.replicate 200 7), .step 0, .step 0, .step 0, .step 0,
        .select 0 [⟨3, selWrite, 0⟩], .step 0, .step 0, .read 1 (0, .b) false 1, .step 1, .step 1,
        .step 1] ChannelState.fresh).map (fun s => s.thread 0 ==
          .selectWait [⟨3, selWrite, 0⟩] [(0, .a)] && (s.thread 1).outside &&
          s.channelPoll (0, .a) &&& selWrite != 0) = some true := by
    decide +kernel
  obtain ⟨s, hrun, hmissed⟩ := Option.map_eq_some_iff.mp hrun
  simp only [Bool.and_eq_true, beq_iff_eq, bne_iff_ne] at hmissed
  obtain ⟨⟨hparked, hout⟩, hready⟩ := hmissed
  refine hclaim s 0 (Reachable.run_events (fun s event hpass => ?_) (.init fresh_initial) hrun)
    ⟨_, _, hparked, fun u hu => ?_, ⟨3, selWrite, 0⟩, List.mem_singleton.mpr rfl, (0, .a), rfl,
      hready⟩
  · cases event with
    | close | dispose => cases hpass
    | read | write | select | step => trivial
  · obtain rfl : u = 1 := by omega
    exact hout

end Examples

end Kogata.Kernel
