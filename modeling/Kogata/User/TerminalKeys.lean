import Kogata.Lib.Run
import Kogata.User.Mainloop
import Kogata.User.TerminalBounds

/-!
# Key strokes on their way to the application

`gip_key_down` of `sysbin/terminal/main.c` keeps the character of a key stroke in the one field
`wr_c_buf`, and gives `mainloop_nonblocking_write` a pointer to it. The channel to the application
takes the byte whenever it can. `key_strokes_delivered` says what arrives as long as no other
character is typed while one waits.
-/

namespace Kogata.User

open Lib.Run

/-- `key_t`: the number of a character or of a key, and the flags. -/
structure KeyT where
  chr : Int
  flags : UInt32

abbrev kbdChar : UInt32 := 1
abbrev kbdCodeReturn : Int := 28
abbrev kbdCodeTab : Int := 15
abbrev kbdCodeBksp : Int := 14

/-- `keyboard_press` and `keyboard_release`, where `K` is what is in a `keyboard_t`. -/
structure Keyboard (K : Type) where
  press : K → UInt32 → KeyT × K
  release : K → UInt32 → KeyT × K

/-- The terminal and its channel to the application. Every slot of `app` that is in use points to
`wrCBuf`. What was taken from the slots by the channel is in `delivered`, and the characters for
which `mainloop_nonblocking_write` answered `true` are in `accepted`. -/
structure TermApp (K : Type) where
  term : Term
  kb : K
  wrCBuf : UInt8
  app : MainloopFd Unit
  delivered : List UInt8
  accepted : List UInt8

/-- What the main loop does next: it calls back for a key or for a byte that the application has
put out, or the channel takes `n` bytes of the first slot. -/
inductive TermEvent
  | keyDown (arg : UInt32)
  | keyUp (arg : UInt32)
  | readChar (c : UInt8)
  | write (n : Nat)

/-- The character that is sent for a key: zero for most keys that have none. -/
def KeyT.sent (k : KeyT) : UInt8 :=
  if k.flags &&& kbdChar ≠ 0 then UInt8.ofInt k.chr
  else if k.chr = kbdCodeReturn then 10
  else if k.chr = kbdCodeTab then 9
  else if k.chr = kbdCodeBksp then 8
  else 0

namespace TermApp

variable {K : Type}

/-- A store in `wr_c_buf` changes what the slots point to. -/
def setChar (s : TermApp K) (c : UInt8) : TermApp K :=
  { s with
    wrCBuf := c
    app := { s.app with wrBufs := s.app.wrBufs.map (Option.map fun b => { b with buf := [c] }) } }

/-- `mainloop_nonblocking_write` of the character. -/
def queueChar (s : TermApp K) : TermApp K :=
  match s.app.nonblockingWrite [s.wrCBuf] 1 false with
  | some app => { s with app := app, accepted := s.accepted ++ [s.wrCBuf] }
  | none => s

/-- `gip_key_down`. -/
def gipKeyDown (kbd : Keyboard K) (s : TermApp K) (arg : UInt32) : Option (TermApp K) :=
  let (k, kb) := kbd.press s.kb arg
  let s := ({ s with kb := kb }.setChar 0).setChar k.sent
  if s.wrCBuf ≠ 0 then
    (termPutc s.term s.wrCBuf).map fun term => { s with term := term }.queueChar
  else some s

/-- The channel takes `n` bytes of the first slot. -/
def write (s : TermApp K) (n : Nat) : Option (TermApp K) :=
  match s.app.wrBufs with
  | some b :: _ =>
      if n ≤ b.size - b.written then
        some { s with
          app := s.app.writeTurn b n
          delivered := s.delivered ++ (b.buf.drop b.written).take n }
      else none
  | _ => none

/-- A step of the terminal. -/
def step (kbd : Keyboard K) (s : TermApp K) : TermEvent → Option (TermApp K)
  | .keyDown arg => s.gipKeyDown kbd arg
  | .keyUp arg => some { s with kb := (kbd.release s.kb arg).2 }
  | .readChar c => (termPutc s.term c).map fun term => { s with term := term }
  | .write n => s.write n

/-- Nothing is under way to the application. -/
def Idle (s : TermApp K) : Prop :=
  s.app.wrBufs = List.replicate mainloopMaxWrBufs none ∧ s.delivered = [] ∧ s.accepted = []

/-- The characters that were accepted arrive in order, each once: those that have not arrived are as
many as wait. -/
def Delivers (s : TermApp K) : Prop :=
  ∃ rest, s.accepted = s.delivered ++ rest ∧ rest.length = s.app.wrBufs.countP Option.isSome

/-- While a character waits, the key that is pressed sends the same character. -/
def KeyFits (kbd : Keyboard K) (s : TermApp K) : TermEvent → Prop
  | .keyDown arg => (∃ b ∈ s.app.wrBufs, b.isSome) → (kbd.press s.kb arg).1.sent = s.wrCBuf
  | _ => True

end TermApp

section Keys

open TermApp

variable {K : Type} {kbd : Keyboard K} {s s' : TermApp K}

/-- The slots that are in use come first and hold the character of `wr_c_buf`, and what was
accepted has arrived or waits. -/
structure Waiting (s : TermApp K) : Prop where
  queued : ∃ used, Queued s.app.wrBufs used
  chars : ∀ b, some b ∈ s.app.wrBufs → b.buf = [s.wrCBuf]
  order : s.accepted = s.delivered ++ pending s.app.wrBufs

theorem Waiting.delivers (h : Waiting s) : s.Delivers := by
  obtain ⟨⟨used, hqueued⟩, hchars, horder⟩ := h
  refine ⟨_, horder, ?_⟩
  have hone : ∀ b ∈ used, (b.buf.drop b.written).length = 1 := by
    intro b hb
    obtain ⟨free, hslots⟩ := hqueued.slots
    have hmem : some b ∈ s.app.wrBufs := by
      rw [hslots]
      exact List.mem_append_left _ (List.mem_map_of_mem hb)
    obtain ⟨hsize, hlt⟩ := hqueued.left b hb
    have hlength : b.buf.length = 1 := by rw [hchars b hmem, List.length_singleton]
    rw [List.length_drop]
    omega
  rw [pending_queued hqueued]
  obtain ⟨free, hslots⟩ := hqueued.slots
  have hused : ∀ l : List WrBuf, (∀ b ∈ l, (b.buf.drop b.written).length = 1) →
      (l.flatMap fun b => b.buf.drop b.written).length = l.length := by
    intro l
    induction l with
    | nil => exact fun _ => rfl
    | cons b l ih =>
        intro hl
        rw [List.forall_mem_cons] at hl
        rw [List.flatMap_cons, List.length_append, hl.1, ih hl.2, List.length_cons, Nat.add_comm]
  have hfree : ((List.replicate free (none : Option WrBuf)).countP Option.isSome) = 0 := by
    rw [List.countP_replicate, if_neg (by decide)]
  have hall : (used.map some).countP Option.isSome = used.length := by
    rw [List.countP_map]
    exact List.countP_eq_length.mpr fun _ _ => rfl
  rw [hused used hone, hslots, List.countP_append, hfree, hall, Nat.add_zero]

theorem Waiting.init (h : s.Idle) : Waiting s := by
  obtain ⟨hslots, hdelivered, haccepted⟩ := h
  refine ⟨⟨[], ⟨mainloopMaxWrBufs, hslots⟩, nofun⟩, fun b hb => ?_, ?_⟩
  · rw [hslots] at hb
    cases List.eq_of_mem_replicate hb
  · rw [haccepted, hdelivered, hslots]
    rfl

theorem set_char_twice (c c' : UInt8) : (s.setChar c).setChar c' = s.setChar c' := by
  unfold setChar
  dsimp only
  rw [List.map_map]
  congr 3
  funext slot
  cases slot with
  | none => rfl
  | some b => rfl

/-- A store in `wr_c_buf` that changes nothing that waits. -/
theorem Waiting.set_char (h : Waiting s) {c : UInt8}
    (hfits : (∃ b ∈ s.app.wrBufs, b.isSome) → c = s.wrCBuf) :
    (s.setChar c).app = s.app ∧ Waiting (s.setChar c) := by
  have hslots : s.app.wrBufs.map (Option.map fun b => { b with buf := [c] }) = s.app.wrBufs := by
    refine (List.map_congr_left fun slot hslot => ?_).trans (List.map_id _)
    cases slot with
    | none => rfl
    | some b =>
        have hbuf := h.chars b hslot
        rw [← hfits ⟨some b, hslot, rfl⟩] at hbuf
        rw [Option.map_some, ← hbuf]
        rfl
  have happ : (s.setChar c).app = s.app := by
    unfold setChar
    dsimp only
    rw [hslots]
  refine ⟨happ, ?_, fun b hb => ?_, ?_⟩
  · rw [happ]
    exact h.queued
  · rw [happ] at hb
    rw [h.chars b hb, ← hfits ⟨some b, hb, rfl⟩]
    rfl
  · rw [happ]
    exact h.order

theorem Waiting.queue_char (h : Waiting s) : Waiting s.queueChar := by
  unfold queueChar
  split
  · next app happ =>
      obtain ⟨used, hqueued⟩ := h.queued
      obtain ⟨slots, hfill, rfl⟩ := Option.map_eq_some_iff.mp happ
      have hqueued' := hqueued.fill ⟨rfl, Nat.one_pos⟩ hfill
      obtain ⟨free, hslots⟩ := hqueued.slots
      obtain ⟨free', hslots'⟩ := hqueued'.slots
      refine ⟨⟨_, hqueued'⟩, fun b hb => ?_, ?_⟩
      · change some b ∈ slots at hb
        rw [hslots', List.mem_append] at hb
        rcases hb with hb | hb
        · obtain ⟨b', hb', hsame⟩ := List.mem_map.mp hb
          obtain rfl := Option.some.inj hsame
          rcases List.mem_append.mp hb' with hold | hnew
          · refine h.chars b' ?_
            rw [hslots]
            exact List.mem_append_left _ (List.mem_map_of_mem hold)
          · rw [List.mem_singleton.mp hnew]
        · cases List.eq_of_mem_replicate hb
      · change s.accepted ++ [s.wrCBuf] = s.delivered ++ pending slots
        rw [pending_queued hqueued', List.flatMap_append, ← pending_queued hqueued,
          ← List.append_assoc, ← h.order]
        rfl
  · exact h

theorem Waiting.write {n : Nat} (h : Waiting s) (hwrite : s.write n = some s') : Waiting s' := by
  unfold TermApp.write at hwrite
  split at hwrite
  · next b rest hslots =>
      obtain ⟨hn, hs'⟩ := Option.ite_none_right_eq_some.mp hwrite
      obtain rfl := Option.some.inj hs'
      obtain ⟨used, hqueued⟩ := h.queued
      have hroom : b.written + n ≤ b.size := by
        obtain ⟨used', hused⟩ := (hslots ▸ hqueued).head
        have hlt := (hqueued.left b (hused ▸ List.mem_cons_self ..)).2
        omega
      obtain ⟨used', hqueued', hpending⟩ := hqueued.write hslots hroom
      refine ⟨⟨used', hqueued'⟩, fun c hc => ?_, ?_⟩
      · have hchars := h.chars
        change some c ∈ (s.app.writeTurn b n).wrBufs at hc
        unfold MainloopFd.writeTurn at hc
        rw [hslots] at hc hchars
        split at hc
        · rcases List.mem_append.mp hc with hold | hnone
          · exact hchars c (List.mem_cons_of_mem _ hold)
          · cases List.mem_singleton.mp hnone
        · rcases List.mem_cons.mp hc with hfirst | hold
          · rw [Option.some.inj hfirst]
            exact hchars b (List.mem_cons_self ..)
          · exact hchars c (List.mem_cons_of_mem _ hold)
      · change s.accepted = s.delivered ++ (b.buf.drop b.written).take n ++ _
        rw [List.append_assoc, ← hpending]
        exact h.order
  · cases hwrite

theorem Waiting.step {event : TermEvent} (h : Waiting s) (hfits : s.KeyFits kbd event)
    (hstep : s.step kbd event = some s') : Waiting s' := by
  cases event with
  | keyDown arg =>
      unfold TermApp.step gipKeyDown at hstep
      dsimp only at hstep
      rw [set_char_twice] at hstep
      have hkey : Waiting { s with kb := (kbd.press s.kb arg).2 } := ⟨h.queued, h.chars, h.order⟩
      have hwaiting := (hkey.set_char hfits).2
      split at hstep
      · obtain ⟨term, -, rfl⟩ := Option.map_eq_some_iff.mp hstep
        have hshown : Waiting { TermApp.setChar { s with kb := (kbd.press s.kb arg).2 }
            (kbd.press s.kb arg).1.sent with term := term } :=
          ⟨hwaiting.queued, hwaiting.chars, hwaiting.order⟩
        exact hshown.queue_char
      · obtain rfl := Option.some.inj hstep
        exact hwaiting
  | keyUp arg =>
      obtain rfl := Option.some.inj hstep
      exact ⟨h.queued, h.chars, h.order⟩
  | readChar c =>
      obtain ⟨term, -, rfl⟩ := Option.map_eq_some_iff.mp hstep
      exact ⟨h.queued, h.chars, h.order⟩
  | write n => exact h.write hstep

/-- The runs of the terminal in which no other character is typed while one waits. -/
def keyRuns (kbd : Keyboard K) : System (TermApp K) :=
  eventRuns TermApp.Idle (TermApp.step kbd) (TermApp.KeyFits kbd)

/-- In such a run the characters of the key strokes arrive. -/
theorem key_strokes_delivered (h : Reachable (keyRuns kbd) s) : s.Delivers := by
  refine Waiting.delivers (Reachable.induct (motive := Waiting) ?_ ?_ h)
  · exact fun s hs => .init hs
  · rintro s s' hs ⟨event, hfits, hstep⟩
    exact hs.step hfits hstep

instance (s : TermApp K) (event : TermEvent) : Decidable (s.KeyFits kbd event) :=
  match event with
  | .keyDown _ => inferInstanceAs (Decidable (_ → _))
  | .keyUp _ => isTrue trivial
  | .readChar _ => isTrue trivial
  | .write _ => isTrue trivial

/-- A keyboard on which the number of a key is that of its character. -/
def plainKeyboard : Keyboard Unit where
  press := fun _ arg => (⟨arg.toNat, kbdChar⟩, ())
  release := fun _ arg => (⟨arg.toNat, kbdChar⟩, ())

/-- A terminal at which nothing was typed yet. -/
def idleTerminal : TermApp Unit where
  term := blankScreen 80 25
  kb := ()
  wrCBuf := 0
  app := MainloopFd.zero
  delivered := []
  accepted := []

theorem idle_terminal_idle : idleTerminal.Idle := ⟨rfl, rfl, rfl⟩

/-- Two characters, of which the first arrives before the second is typed. -/
theorem keys_one_by_one : ((runEvents (TermApp.step plainKeyboard)
    (fun s event => decide (s.KeyFits plainKeyboard event))
    [.keyDown 97, .write 1, .keyDown 98, .write 1] idleTerminal).getD idleTerminal).Delivers := by
  let s := (runEvents (TermApp.step plainKeyboard)
    (fun s event => decide (s.KeyFits plainKeyboard event))
    [.keyDown 97, .write 1, .keyDown 98, .write 1] idleTerminal).getD idleTerminal
  have hrun : runEvents (TermApp.step plainKeyboard)
      (fun s event => decide (s.KeyFits plainKeyboard event))
      [.keyDown 97, .write 1, .keyDown 98, .write 1] idleTerminal = some s := rfl
  exact key_strokes_delivered (Reachable.run_events (fun _ _ h => of_decide_eq_true h)
    (.init idle_terminal_idle) hrun)

/-- Of two characters that are typed while the channel is full, the second arrives twice. -/
theorem first_key_lost : ¬ ∀ (kbd : Keyboard Unit) (s : TermApp Unit),
    Reachable (eventRuns TermApp.Idle (TermApp.step kbd) fun _ _ => True) s → s.Delivers := by
  intro h
  let s := (runEvents (TermApp.step plainKeyboard) (fun _ _ => true)
    [.keyDown 97, .keyDown 98, .write 1, .write 1] idleTerminal).getD idleTerminal
  have hrun : runEvents (TermApp.step plainKeyboard) (fun _ _ => true)
      [.keyDown 97, .keyDown 98, .write 1, .write 1] idleTerminal = some s := rfl
  obtain ⟨rest, haccepted, -⟩ := h plainKeyboard s
    (Reachable.run_events (fun _ _ _ => trivial) (.init idle_terminal_idle) hrun)
  have hwrong : s.delivered = [98, 98] ∧ s.accepted = [97, 98] := ⟨rfl, rfl⟩
  rw [hwrong.1, hwrong.2] at haccepted
  injection haccepted with hfirst
  exact absurd hfirst (by decide)

end Keys

end Kogata.User
