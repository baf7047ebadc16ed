import Mathlib.Data.Fintype.Basic
import Kogata.Kernel.ChannelThreads

/-!
# Closing one end of a channel

What a `channel_dispose` does to the threads that read and write at the other end. The writers keep
a pointer to the end that is closed, and `channel_dispose` wakes those that wait on the surviving
end, before it clears the link. A reader does not look at the link (`channel_close_safe`).
-/

namespace Kogata.Kernel

open Lib.Run

/-- `channel_dispose` has issued its `resume_on`. -/
def DisposePlace.woken : DisposePlace → Bool
  | .unlink | .free | .freed => true
  | _ => false

/-- `channel_dispose` has cleared the link to the end. -/
def DisposePlace.unlinked : DisposePlace → Bool
  | .free | .freed => true
  | _ => false

/-- The end whose handle the call is made with. -/
def CallPc.handle : CallPc → Option ChannelPtr
  | .read _ call => some call.c
  | .writeBegin tc _ _ => some tc
  | .write _ call => some call.tc
  | _ => none

/-- The thread is in the loop of a `channel_write` into the buffer. -/
def CallPc.writesInto (c : ChannelPtr) : CallPc → Bool
  | .write _ call => call.c = c
  | _ => false

/-- The thread is paused in `wait_on` inside a call on the end. -/
def CallPc.parkedAt (c : ChannelPtr) : CallPc → Bool
  | .read .wait call => call.c = c
  | .write .wait call => call.tc = c
  | _ => false

/-- No thread has accessed a `channel_t` that was freed, and no thread is parked at an end when the
other end has been disposed of. -/
def CloseSafe {T : Type} (s : ChannelState T) : Prop :=
  s.dangling = false ∧ ∀ c, s.freed c = true → ∀ t, (s.thread t).parkedAt c.other = false

section Close

variable {T : Type}

/-- A call needs a handle of its end, the last reference goes when no call on the end is under way,
and the two ends are not closed at the same time. -/
def Closing (s : ChannelState T) : ChannelEvent T → Prop
  | .read _ c _ _ | .write _ c _ _ => s.dispose c = .opened
  | .select _ _ => False
  | .close c => (s.dispose c.other = .opened ∨ s.dispose c.other = .freed) ∧
      ∀ t, (s.thread t).handle ≠ some c
  | .step _ | .dispose _ => True

/-- The thread is in a blocking `channel_read` that has found nothing to take, and the other end has
already issued its wake-up. -/
def ChannelState.findsNothing (s : ChannelState T) : CallPc → Bool
  | .read .held call =>
      call.blocking && call.len s == 0 && (s.dispose call.c.other).woken
  | _ => false

/-- The event frees the buffer that a `channel_write` is working on, or is the one in which a
blocking `channel_read` finds nothing to take although the other end has already been told to
wake it. -/
def Strands (s : ChannelState T) : ChannelEvent T → Prop
  | .dispose c => s.dispose c = .free ∧ ∃ t, (s.thread t).writesInto c = true
  | .step t => s.findsNothing (s.thread t) = true
  | _ => False

/-- What a thread in a call relies on: its end is open, a parked reader may still be woken, and
the buffer that a writer works on has not been freed. -/
def CallPc.Safe (dispose : ChannelPtr → DisposePlace) : CallPc → Prop
  | .read place call => dispose call.c = .opened ∧
      (place = .wait → (dispose call.c.other).woken = false)
  | .writeBegin tc _ _ => dispose tc = .opened
  | .write _ call => dispose call.tc = .opened ∧ call.c = call.tc.other ∧ dispose call.c ≠ .freed
  | .selectPoll _ _ _ _ | .selectWait _ _ => False
  | .returned _ => True

/-- What holds along a run in which no thread is stranded. -/
structure CloseInv (s : ChannelState T) : Prop where
  sound : s.dangling = false
  link : ∀ c, s.dispose c ≠ .freed →
    s.otherSide c = if (s.dispose c.other).unlinked then none else some c.other
  alone : ∀ c, s.dispose c = .opened ∨ s.dispose c = .freed ∨
    s.dispose c.other = .opened ∨ s.dispose c.other = .freed
  safe : ∀ t, (s.thread t).Safe s.dispose

variable {s s' : ChannelState T}

theorem not_freed_of_opened {c : ChannelPtr} (h : s.dispose c = .opened) : s.freed c = false := by
  simp [ChannelState.freed, h]

theorem freed_iff {c : ChannelPtr} : s.freed c = true ↔ s.dispose c = .freed :=
  beq_iff_eq

theorem CallPc.Safe.resumed {dispose : ChannelPtr → DisposePlace} {pc : CallPc}
    (h : pc.Safe dispose) : pc.resumed.Safe dispose := by
  cases pc with
  | returned result | writeBegin tc blocking data => exact h
  | read place call =>
      cases place with
      | lock | held | moved => exact h
      | wait =>
          show call.next.Safe dispose
          unfold ReadCall.next
          split
          · exact ⟨h.1, fun hwait => by cases hwait⟩
          · trivial
  | write place call =>
      cases place with
      | tryLock | yielding | held | moved => exact h
      | wait =>
          show call.next.Safe dispose
          unfold WriteCall.next
          split
          · exact h
          · trivial
  | selectPoll | selectWait => exact h.elim

theorem CallPc.resumed_ne_wait {pc : CallPc} {call : ReadCall} (h : pc.resumed = .read .wait call)
    (hwaits : pc.waitingOn ≠ []) : False := by
  cases pc with
  | returned | writeBegin | selectPoll => exact hwaits rfl
  | selectWait fds waitObjs => cases h
  | read place call' =>
      cases place with
      | lock | held | moved => exact hwaits rfl
      | wait =>
          change call'.next = _ at h
          unfold ReadCall.next at h
          split at h
          · cases h
          · cases h
  | write place call' =>
      cases place with
      | tryLock | yielding | held | moved => exact hwaits rfl
      | wait =>
          change call'.next = _ at h
          unfold WriteCall.next at h
          split at h
          · cases h
          · cases h

section

variable (h : CloseInv s)

include h

theorem CloseInv.safe_at {t : T} {pc : CallPc} (hat : s.thread t = pc) :
    pc.Safe s.dispose :=
  hat ▸ h.safe t

theorem CloseInv.resume_on (x : ChannelPtr) : CloseInv (s.resumeOn x) where
  sound := h.sound
  link := h.link
  alone := h.alone
  safe := by
    intro t
    show (if x ∈ (s.thread t).waitingOn then _ else _ : CallPc).Safe s.dispose
    split
    · exact (h.safe t).resumed
    · exact h.safe t

/-- A new value with the old link. -/
theorem CloseInv.set_chan {c : ChannelPtr} {value : Channel}
    (hlink : value.otherSide = (s.chan c).otherSide) : CloseInv (s.setChan c value) where
  sound := h.sound
  link := fun d hd => (ChannelState.other_side_set_chan hlink).trans (h.link d hd)
  alone := h.alone
  safe := h.safe

theorem CloseInv.set_lock (c : ChannelPtr) (lock : Bool) :
    CloseInv (s.setLock c lock) :=
  h.set_chan rfl

theorem CloseInv.goto [DecidableEq T] {t : T} {pc : CallPc}
    (hpc : pc.Safe s.dispose) : CloseInv (s.goto t pc) where
  sound := h.sound
  link := h.link
  alone := h.alone
  safe := by
    intro u
    show (Function.update s.thread t pc u).Safe s.dispose
    by_cases hu : u = t
    · rw [hu, Function.update_self]
      exact hpc
    · rw [Function.update_of_ne hu]
      exact h.safe u

/-- A live end has a link to the other one as long as that has not been cleared. -/
theorem CloseInv.linked {c o : ChannelPtr} (hc : s.dispose c ≠ .freed)
    (ho : s.otherSide c = some o) : o = c.other ∧ (s.dispose c.other).unlinked = false := by
  rw [h.link c hc] at ho
  split at ho
  · cases ho
  · next hlinked => exact ⟨(Option.some.inj ho).symm, Bool.eq_false_iff.mpr hlinked⟩

end

theorem DisposePlace.ne_freed {place : DisposePlace} (h : place.unlinked = false) :
    place ≠ .freed := by
  intro heq
  rw [heq] at h
  cases h

/-- No call on an end is under way once it is being closed. -/
theorem CloseInv.no_handle (h : CloseInv s) {c : ChannelPtr} (hc : s.dispose c ≠ .opened) (u : T) :
    (s.thread u).handle ≠ some c := by
  intro hhandle
  have hsafe := h.safe u
  cases hat : s.thread u with
  | returned | selectPoll | selectWait =>
      rw [hat] at hhandle
      cases hhandle
  | read place call =>
      rw [hat] at hhandle hsafe
      obtain rfl : call.c = c := Option.some.inj hhandle
      exact hc hsafe.1
  | writeBegin tc blocking data =>
      rw [hat] at hhandle hsafe
      obtain rfl : tc = c := Option.some.inj hhandle
      exact hc hsafe
  | write place call =>
      rw [hat] at hhandle hsafe
      obtain rfl : call.tc = c := Option.some.inj hhandle
      exact hc hsafe.1

/-- `channel_dispose` of an end goes on. No call on the end itself is under way; the link to it is
there until it is cleared, no reader is parked behind the wake-up, and no writer is left when the
end is freed. -/
theorem CloseInv.dispose_at (h : CloseInv s) {c : ChannelPtr} {place : DisposePlace}
    {chan : ChannelPtr → Channel} (hlive : s.dispose c ≠ .freed)
    (halone : s.dispose c.other = .opened ∨ s.dispose c.other = .freed)
    (hhandle : ∀ u, (s.thread u).handle ≠ some c)
    (hchan : ∀ d, d ≠ c.other → (chan d).otherSide = (s.chan d).otherSide)
    (hlink : s.dispose c.other ≠ .freed →
      (chan c.other).otherSide = if place.unlinked then none else some c.2)
    (hwoken : place.woken = true → ∀ u call, s.thread u = .read .wait call → call.c.other ≠ c)
    (hfreed : place = .freed → ∀ u, (s.thread u).writesInto c = false) :
    CloseInv { s with chan := chan, dispose := Function.update s.dispose c place } where
  sound := h.sound
  link := by
    intro d hd
    change Function.update s.dispose c place d ≠ .freed at hd
    show (chan d).otherSide.map _ = if (Function.update s.dispose c place d.other).unlinked
      then none else _
    by_cases hdc : d = c.other
    · subst hdc
      rw [Function.update_of_ne c.other_ne] at hd
      rw [hlink hd, ChannelPtr.other_other, Function.update_self]
      split
      · rfl
      · rfl
    · have hne : d.other ≠ c := fun heq => hdc (by rw [← heq, ChannelPtr.other_other])
      rw [hchan d hdc, Function.update_of_ne hne]
      by_cases hself : d = c
      · rw [hself]
        exact h.link c hlive
      · rw [Function.update_of_ne hself] at hd
        exact h.link d hd
  alone := by
    intro d
    show Function.update s.dispose c place d = _ ∨ Function.update s.dispose c place d = _ ∨
      Function.update s.dispose c place d.other = _ ∨ Function.update s.dispose c place d.other = _
    by_cases hdc : d = c.other
    · subst hdc
      rw [Function.update_of_ne c.other_ne]
      exact halone.elim .inl fun hother => .inr (.inl hother)
    · have hne : d.other ≠ c := fun heq => hdc (by rw [← heq, ChannelPtr.other_other])
      rw [Function.update_of_ne hne]
      by_cases hself : d = c
      · rw [hself]
        exact .inr (.inr halone)
      · rw [Function.update_of_ne hself]
        exact h.alone d
  safe := by
    intro u
    have hsafe := h.safe u
    have hnot := hhandle u
    show (s.thread u).Safe (Function.update s.dispose c place)
    cases hat : s.thread u with
    | returned result => trivial
    | selectPoll | selectWait =>
        rw [hat] at hsafe
        exact hsafe.elim
    | read at' call =>
        rw [hat] at hsafe hnot
        refine ⟨?_, ?_⟩
        · rw [Function.update_of_ne fun heq => hnot (congrArg some heq)]
          exact hsafe.1
        · intro hwait
          by_cases hcall : call.c.other = c
          · rw [hcall, Function.update_self]
            exact Bool.eq_false_iff.mpr fun hplace => hwoken hplace u call (hwait ▸ hat) hcall
          · rw [Function.update_of_ne hcall]
            exact hsafe.2 hwait
    | writeBegin tc blocking data =>
        rw [hat] at hsafe hnot
        show Function.update s.dispose c place tc = _
        rw [Function.update_of_ne fun heq => hnot (congrArg some heq)]
        exact hsafe
    | write at' call =>
        rw [hat] at hsafe hnot
        refine ⟨?_, hsafe.2.1, ?_⟩
        · rw [Function.update_of_ne fun heq => hnot (congrArg some heq)]
          exact hsafe.1
        · by_cases hcall : call.c = c
          · rw [hcall, Function.update_self]
            intro hplace
            have hnone := hfreed hplace u
            rw [hat] at hnone
            exact of_decide_eq_false hnone hcall
          · rw [Function.update_of_ne hcall]
            exact hsafe.2.2

end Close

section Steps

variable {T : Type} [DecidableEq T] {s s' : ChannelState T} {t : T}

/-- A step of `channel_read`. -/
theorem CloseInv.read_step (h : CloseInv s) {place : ReadPlace} {call : ReadCall}
    (hat : s.thread t = .read place call) (hallowed : ¬ Strands s (.step t))
    (hstep : readStep t place call s = some s') : CloseInv s' := by
  have hsafe := h.safe_at hat
  have hnext : ∀ c', c'.c = call.c → ∀ at', at' ≠ .wait →
      CallPc.Safe s.dispose (.read at' c') :=
    fun c' hc at' hat' => ⟨hc ▸ hsafe.1, fun hwait => absurd hwait hat'⟩
  unfold readStep at hstep
  rw [not_freed_of_opened hsafe.1] at hstep
  cases place with
  | lock =>
      simp only [Bool.false_eq_true, if_false] at hstep
      split at hstep
      · cases hstep
        exact h
      · cases hstep
        exact (h.set_lock ..).goto (hnext call rfl .held (by decide))
  | held =>
      simp only [Bool.false_eq_true, if_false] at hstep
      split at hstep
      · next hempty =>
          cases hstep
          refine (h.set_lock ..).goto ?_
          split
          · next hblocking =>
              refine ⟨hsafe.1, fun _ => Bool.eq_false_iff.mpr fun hwoken => hallowed ?_⟩
              change (s.dispose call.c.other).woken = true at hwoken
              show s.findsNothing (s.thread t) = true
              rw [hat]
              simp [ChannelState.findsNothing, hblocking, hempty, hwoken]
          · trivial
      · split at hstep
        · cases hstep
        · next hround =>
            cases hstep
            exact (h.set_chan (Channel.read_round_link hround)).goto
              (hnext _ rfl .moved (by decide))
  | moved =>
      cases hstep
      refine ((h.resume_on _).set_lock ..).goto ?_
      unfold ReadCall.next
      split
      · exact hnext call rfl .lock (by decide)
      · trivial
  | wait => cases hstep

/-- A step of the loop of `channel_write`. -/
theorem CloseInv.write_step (h : CloseInv s) {place : WritePlace} {call : WriteCall}
    (hat : s.thread t = .write place call) (hstep : writeStep t place call s = some s') :
    CloseInv s' := by
  have hsafe := h.safe_at hat
  have hlive : s.freed (if place = .yielding then call.tc else call.c) = false := by
    split
    · exact not_freed_of_opened hsafe.1
    · exact Bool.eq_false_iff.mpr fun hfreed => hsafe.2.2 (freed_iff.mp hfreed)
  unfold writeStep at hstep
  rw [hlive] at hstep
  cases place with
  | tryLock =>
      simp only [Bool.false_eq_true, if_false] at hstep
      split at hstep
      · cases hstep
        exact h.goto hsafe
      · cases hstep
        exact (h.set_lock ..).goto hsafe
  | yielding =>
      simp only [Bool.false_eq_true, if_false] at hstep
      split at hstep
      · cases hstep
        exact h.goto hsafe
      · cases hstep
        exact h.goto hsafe
  | held =>
      simp only [Bool.false_eq_true, if_false] at hstep
      split at hstep
      · cases hstep
      · next taken c hround =>
          split at hstep
          · cases hstep
            refine (h.set_lock ..).goto ?_
            split
            · exact hsafe
            · trivial
          · cases hstep
            exact (h.set_chan (Channel.write_round_link hround)).goto hsafe
  | moved =>
      cases hstep
      refine ((h.resume_on _).set_lock ..).goto ?_
      unfold WriteCall.next
      split
      · exact hsafe
      · trivial
  | wait => cases hstep

/-- A step of a thread. -/
theorem CloseInv.call_step {files : T → Int → Option ChannelPtr} (h : CloseInv s)
    (hallowed : ¬ Strands s (.step t)) (hstep : callStep files t s = some s') : CloseInv s' := by
  have hsafe := h.safe t
  unfold callStep at hstep
  cases hat : s.thread t with
  | returned result =>
      rw [hat] at hstep
      cases hstep
  | read place call =>
      rw [hat] at hstep
      exact h.read_step hat hallowed hstep
  | writeBegin tc blocking data =>
      rw [hat] at hstep hsafe
      simp only [not_freed_of_opened hsafe, Bool.false_eq_true, if_false] at hstep
      split at hstep
      · cases hstep
        exact h.goto trivial
      · next c hother =>
          cases hstep
          obtain ⟨hc, hlinked⟩ := h.linked (by rw [hsafe]; decide) hother
          exact h.goto ⟨hsafe, hc, hc ▸ DisposePlace.ne_freed hlinked⟩
  | write place call =>
      rw [hat] at hstep
      exact h.write_step hat hstep
  | selectPoll | selectWait =>
      rw [hat] at hsafe
      exact hsafe.elim

omit [DecidableEq T] in
/-- A step of `channel_dispose`. -/
theorem CloseInv.dispose_step (h : CloseInv s) {c : ChannelPtr}
    (hallowed : ¬ Strands s (.dispose c)) (hstep : disposeStep c s = some s') : CloseInv s' := by
  have hcalled : s.dispose c ≠ .opened := by
    intro hopened
    simp [disposeStep, hopened] at hstep
  have hlive : s.dispose c ≠ .freed := by
    intro hfreed
    simp [disposeStep, hfreed] at hstep
  have halone : s.dispose c.other = .opened ∨ s.dispose c.other = .freed :=
    ((h.alone c).resolve_left hcalled).resolve_left hlive
  have hold : s.dispose c.other ≠ .freed →
      (s.chan c.other).otherSide = if (s.dispose c).unlinked then none else some c.2 := by
    intro hother
    have hlink := h.link c.other hother
    rw [ChannelPtr.other_other] at hlink
    unfold ChannelState.otherSide at hlink
    split at hlink
    · next hunlinked => rw [if_pos hunlinked]; exact Option.map_eq_none_iff.mp hlink
    · next hunlinked =>
        rw [if_neg hunlinked]
        obtain ⟨e, he, heq⟩ := Option.map_eq_some_iff.mp hlink
        rw [he, ← heq]
  have hnone : ∀ u call, s.thread u = .read .wait call → (s.dispose c).woken = true →
      call.c.other ≠ c := by
    intro u call hat hwoken heq
    rw [← heq, (h.safe_at hat).2 rfl] at hwoken
    cases hwoken
  have hhandle := h.no_handle hcalled
  unfold disposeStep at hstep
  cases hat : s.dispose c with
  | opened => exact absurd hat hcalled
  | freed => exact absurd hat hlive
  | lock =>
      rw [hat] at hstep hold
      simp only at hstep
      split at hstep
      · cases hstep
        exact h
      · cases hstep
        refine (h.set_lock c true).dispose_at hlive halone hhandle (fun _ _ => rfl) ?_
          (fun hwoken => by cases hwoken) (fun hplace => by cases hplace)
        intro hother
        exact (congrArg Channel.otherSide (ChannelState.set_chan_of_ne c.other_ne)).trans
          (hold hother)
  | resume =>
      rw [hat] at hstep hold
      simp only at hstep
      split at hstep
      · next hunlinked =>
          cases hstep
          -- Only an end that has been freed has left no link.
          have hgone : s.dispose c.other = .freed := by
            refine halone.resolve_left fun hopened => ?_
            have hlink := h.link c hlive
            rw [hopened, hunlinked] at hlink
            cases hlink
          refine h.dispose_at hlive halone hhandle (fun _ _ => rfl)
            (fun hother => absurd hgone hother) (fun _ u call hread heq => ?_)
            (fun hplace => by cases hplace)
          have hopened : s.dispose call.c = .opened := (h.safe_at hread).1
          rw [← call.c.other_other, heq, hgone] at hopened
          cases hopened
      · next o hother =>
          cases hstep
          obtain ⟨rfl, -⟩ := h.linked hlive hother
          refine (h.resume_on c.other).dispose_at hlive halone
            ((h.resume_on c.other).no_handle hcalled) (fun _ _ => rfl) hold ?_
            (fun hplace => by cases hplace)
          intro _ u call hread heq
          have hc : c.other = call.c := by rw [← heq, ChannelPtr.other_other]
          change (if c.other ∈ (s.thread u).waitingOn then (s.thread u).resumed
            else s.thread u) = _ at hread
          split at hread
          · next hwaits => exact CallPc.resumed_ne_wait hread (List.ne_nil_of_mem hwaits)
          · next hnot =>
              rw [hread] at hnot
              exact hnot (List.mem_singleton.mpr hc)
  | unlink =>
      rw [hat] at hstep
      simp only at hstep
      split at hstep
      · cases hstep
      · next o hother =>
          obtain ⟨rfl, hlinked⟩ := h.linked hlive hother
          have hfree : s.freed c.other = false :=
            Bool.eq_false_iff.mpr fun hfreed => DisposePlace.ne_freed hlinked (freed_iff.mp hfreed)
          rw [hfree] at hstep
          cases hstep
          refine h.dispose_at hlive halone hhandle (fun d hd => ?_) (fun _ => ?_)
            (fun _ u call hread => hnone u call hread (by rw [hat]; rfl))
            (fun hplace => by cases hplace)
          · exact congrArg Channel.otherSide (Function.update_of_ne hd _ _)
          · show (Function.update s.chan c.other _ c.other).otherSide = _
            rw [Function.update_self]
            rfl
  | free =>
      rw [hat] at hstep hold
      cases hstep
      refine h.dispose_at hlive halone hhandle (fun _ _ => rfl) hold
        (fun _ u call hread => hnone u call hread (by rw [hat]; rfl)) fun _ u => ?_
      exact Bool.eq_false_iff.mpr fun hwrites => hallowed ⟨hat, u, hwrites⟩

/-- Every event that strands nobody keeps the invariant. -/
theorem CloseInv.step {files : T → Int → Option ChannelPtr} {event : ChannelEvent T}
    (h : CloseInv s) (hclosing : Closing s event) (hallowed : ¬ Strands s event)
    (hstep : channelStep files s event = some s') : CloseInv s' := by
  cases event with
  | read t c blocking reqLen =>
      change (if (s.thread t).outside then _ else _) = some s' at hstep
      split at hstep
      · cases hstep
        exact h.goto ⟨hclosing, fun hwait => by cases hwait⟩
      · cases hstep
  | write t c blocking data =>
      change (if (s.thread t).outside then _ else _) = some s' at hstep
      split at hstep
      · cases hstep
        exact h.goto hclosing
      · cases hstep
  | select t fds => exact hclosing.elim
  | close c =>
      change (if s.dispose c = .opened then _ else _) = some s' at hstep
      split at hstep
      · next hopened =>
          cases hstep
          refine h.dispose_at (by rw [hopened]; decide) hclosing.1 hclosing.2 (fun _ _ => rfl)
            (fun hother => ?_) (fun hwoken => by cases hwoken) (fun hplace => by cases hplace)
          have hlink := h.link c.other hother
          rw [ChannelPtr.other_other, hopened] at hlink
          obtain ⟨e, he, heq⟩ := Option.map_eq_some_iff.mp hlink
          rw [he, ← heq]
          rfl
      · cases hstep
  | step t => exact h.call_step hallowed hstep
  | dispose c => exact h.dispose_step hallowed hstep

end Steps

section Runs

variable {T : Type}

theorem CloseInv.of_initial {s : ChannelState T} (h : s.Initial) : CloseInv s where
  sound := h.sound
  link := by
    intro c _
    rw [h.link c]
    rcases h.dispose c.other with hother | hother
    · rw [not_freed_of_opened hother, hother]
      rfl
    · rw [freed_iff.mpr hother, hother]
      rfl
  alone := fun c => (h.dispose c).elim .inl fun hfreed => .inr (.inl hfreed)
  safe := by
    intro t
    have hout := h.outside t
    cases hat : s.thread t with
    | returned result => trivial
    | read | writeBegin | write | selectPoll | selectWait =>
        rw [hat] at hout
        cases hout

theorem CloseInv.close_safe {s : ChannelState T} (h : CloseInv s) : CloseSafe s := by
  refine ⟨h.sound, fun c hfreed t => Bool.eq_false_iff.mpr fun hparked => ?_⟩
  have hc := freed_iff.mp hfreed
  have hsafe := h.safe t
  cases hat : s.thread t with
  | returned | writeBegin | selectPoll | selectWait =>
      rw [hat] at hparked
      cases hparked
  | read place call =>
      rw [hat] at hparked hsafe
      cases place with
      | lock | held | moved => cases hparked
      | wait =>
          have hcall : call.c = c.other := of_decide_eq_true hparked
          have hwoken := hsafe.2 rfl
          rw [hcall, ChannelPtr.other_other, hc] at hwoken
          cases hwoken
  | write place call =>
      rw [hat] at hparked hsafe
      cases place with
      | tryLock | yielding | held | moved => cases hparked
      | wait =>
          have htc : call.tc = c.other := of_decide_eq_true hparked
          refine hsafe.2.2 ?_
          rw [hsafe.2.1, htc, ChannelPtr.other_other, hc]

/-- In every run in which an end is freed only when no `channel_write` is working on its buffer,
and a blocking `channel_read` always finds something to take once the other end has issued its
wake-up, no freed `channel_t` is accessed and nobody is parked at an end that has survived the
other one. -/
theorem channel_close_safe [DecidableEq T] {files : T → Int → Option ChannelPtr}
    {s : ChannelState T}
    (h : Reachable (channelRuns files fun s event => Closing s event ∧ ¬ Strands s event) s) :
    CloseSafe s := by
  refine (Reachable.induct (motive := CloseInv) (fun _ hinit => .of_initial hinit)
    (fun s s' hs hstep => ?_) h).close_safe
  obtain ⟨event, ⟨hclosing, hallowed⟩, hstep⟩ := hstep
  exact hs.step hclosing hallowed hstep

end Runs

section Examples

instance {T : Type} [Fintype T] (s : ChannelState T) :
    (event : ChannelEvent T) → Decidable (Closing s event)
  | .read _ c _ _ | .write _ c _ _ => inferInstanceAs (Decidable (s.dispose c = .opened))
  | .select _ _ => inferInstanceAs (Decidable False)
  | .close c => inferInstanceAs (Decidable ((s.dispose c.other = .opened ∨
      s.dispose c.other = .freed) ∧ ∀ t, (s.thread t).handle ≠ some c))
  | .step _ | .dispose _ => inferInstanceAs (Decidable True)

instance {T : Type} [Fintype T] (s : ChannelState T) :
    (event : ChannelEvent T) → Decidable (Strands s event)
  | .dispose c => inferInstanceAs (Decidable (s.dispose c = .free ∧
      ∃ t, (s.thread t).writesInto c = true))
  | .step t => inferInstanceAs (Decidable (s.findsNothing (s.thread t) = true))
  | .read _ _ _ _ | .write _ _ _ _ | .select _ _ | .close _ => inferInstanceAs (Decidable False)

/-- A byte is written at one end and read at the other, and then the first one is closed. -/
theorem channel_close_safe_read : ∃ s : ChannelState (Fin 2), s.freed (0, .b) = true ∧
    CloseSafe s := by
  have hrun : (runEvents (channelStep fun _ _ => none)
      (fun s event => decide (Closing s event ∧ ¬ Strands s event))
      [.read 0 (0, .a) true 1, .step 0, .step 0, .write 1 (0, .b) true [7], .step 1, .step 1,
        .step 1, .step 1, .step 0, .step 0, .step 0, .close (0, .b), .dispose (0, .b),
        .dispose (0, .b), .dispose (0, .b), .dispose (0, .b)] ChannelState.fresh).map
      (fun s => s.freed (0, .b)) = some true := by
    decide +kernel
  obtain ⟨s, hrun, hfreed⟩ := Option.map_eq_some_iff.mp hrun
  exact ⟨s, hfreed, channel_close_safe (Reachable.run_events
    (fun s event hpass => of_decide_eq_true hpass) (.init fresh_initial) hrun)⟩

/-- A writer that finds the mutex taken by `channel_dispose` goes on with a buffer that has been
freed, and a reader that was woken before the link is cleared parks again. -/
theorem channel_close_unsafe :
    (¬ ∀ s : ChannelState (Fin 2), Reachable (channelRuns (fun _ _ => none) Closing) s →
      s.dangling = false) ∧
    ¬ ∀ s : ChannelState (Fin 2), Reachable (channelRuns (fun _ _ => none) Closing) s →
      ∀ c, s.freed c = true → ∀ t, (s.thread t).parkedAt c.other = false := by
  constructor
  · intro hclaim
    have hrun : (runEvents (channelStep fun _ _ => none)
        (fun (s : ChannelState (Fin 2)) event => decide (Closing s event))
        [.write 0 (0, .a) false [7], .step 0, .close (0, .b), .dispose (0, .b), .step 0,
          .dispose (0, .b), .dispose (0, .b), .dispose (0, .b), .step 0, .step 0]
        ChannelState.fresh).map (fun s => s.dangling) = some true := by
      decide +kernel
    obtain ⟨s, hrun, hdangling⟩ := Option.map_eq_some_iff.mp hrun
    have hsound := hclaim s (Reachable.run_events (fun s event hpass => of_decide_eq_true hpass)
      (.init fresh_initial) hrun)
    rw [hdangling] at hsound
    cases hsound
  · intro hclaim
    have hrun : (runEvents (channelStep fun _ _ => none)
        (fun (s : ChannelState (Fin 2)) event => decide (Closing s event))
        [.read 0 (0, .a) true 1, .step 0, .step 0, .close (0, .b), .dispose (0, .b),
          .dispose (0, .b), .step 0, .step 0, .dispose (0, .b), .dispose (0, .b)]
        ChannelState.fresh).map (fun s => s.freed (0, .b) && (s.thread 0).parkedAt (0, .a)) =
          some true := by
      decide +kernel
    obtain ⟨s, hrun, hparked⟩ := Option.map_eq_some_iff.mp hrun
    obtain ⟨hfreed, hparked⟩ := Bool.and_eq_true_iff.mp hparked
    have hnone := hclaim s (Reachable.run_events (fun s event hpass => of_decide_eq_true hpass)
      (.init fresh_initial) hrun) (0, .b) hfreed 0
    exact absurd (hparked.symm.trans hnone) (by decide)

end Examples

end Kogata.Kernel

