import Kogata.Lib.BoundedQueue
import Kogata.User.MouseEvents

/-!
# The keyboard and the mouse

`kernel/dev/pckbdmouse.c`: an interrupt handler that puts the events together from the bytes of the
controller and buffers them, and the file operations that hand them out. The handlers run with the
interrupts off, and so does the loop of a read, so that a run is a sequence of bytes and reads. The
loop stores to the caller's buffer; where a page of it is absent, the fault lets other threads run.
Reads that overlap so are left out.

What is read, with what waits, is what the bytes say, less the events that found the buffer full
(`pckbd_run`, `pcmouse_run`); keys that are typed come out as they went in (`pckbd_strokes`), and
a movement of the mouse does, unless it is one by more than 127 (`pcmouse_motions`).
-/

namespace Kogata.Kernel

open Lib.BoundedQueue Kogata.User

/-- What a handler keeps between two interrupts, and the events that wait. -/
structure InputDevice (σ α : Type) (limit : Nat) where
  state : σ
  buf : Queue α limit

/-- What the two devices do differently: the handler, but for the threads that it resumes, and the
`size` bytes of an event. -/
structure InputDriver (σ α : Type) (limit : Nat) where
  irqHandler : InputDevice σ α limit → UInt8 → InputDevice σ α limit
  bytes : α → List UInt8
  size : Nat

namespace InputDriver

variable {σ α : Type} {limit : Nat}

/-- `pckbd_read` and `pcmouse_read`: what is written to the buffer of the caller. -/
def read (drv : InputDriver σ α limit) (d : InputDevice σ α limit) (len : Nat) :
    List UInt8 × InputDevice σ α limit :=
  let n := drained drv.size d.buf.items.length len
  ((d.buf.items.take n).flatMap drv.bytes, { d with buf := d.buf.drop n })

end InputDriver

/-- An interrupt, with the byte that `inb(0x60)` finds, or a read of at most `len` bytes. -/
inductive InputAction where
  | irq (byte : UInt8)
  | read (len : Nat)
  deriving DecidableEq

section Driver

variable {σ α : Type} {limit : Nat}

/-- A device, with all that has been read from it. -/
structure InputRun (σ α : Type) (limit : Nat) where
  device : InputDevice σ α limit
  output : List UInt8

variable (drv : InputDriver σ α limit)

def InputRun.step (r : InputRun σ α limit) : InputAction → InputRun σ α limit
  | .irq byte => { r with device := drv.irqHandler r.device byte }
  | .read len =>
      { device := (drv.read r.device len).2, output := r.output ++ (drv.read r.device len).1 }

def InputRun.run (r : InputRun σ α limit) (actions : List InputAction) : InputRun σ α limit :=
  actions.foldl (InputRun.step drv) r

end Driver

/-- The bytes of the controller. -/
def irqBytes : List InputAction → List UInt8
  | [] => []
  | .irq byte :: rest => byte :: irqBytes rest
  | .read _ :: rest => irqBytes rest

section Passage

variable {σ α : Type} {limit : Nat} {drv : InputDriver σ α limit}
  {feed : σ → UInt8 → σ × Option α} {actions : List InputAction}

/-- The handler decodes the stream of bytes with `feed`, and puts what it gets behind the events
that wait. -/
structure InputDriver.Feeds (drv : InputDriver σ α limit) (feed : σ → UInt8 → σ × Option α) :
    Prop where
  size_pos : 0 < drv.size
  state : ∀ d b, (drv.irqHandler d b).state = (feed d.state b).1
  buf : ∀ d b, (drv.irqHandler d b).buf = ((feed d.state b).2.elim d.buf d.buf.push)

/-- The queue of the device, as a passage for the events that `feed` puts together. -/
def passageEvents (feed : σ → UInt8 → σ × Option α) (size : Nat) :
    σ → List InputAction → List (Event α)
  | _, [] => []
  | s, .irq b :: rest =>
      (feed s b).2.toList.map .offer ++ passageEvents feed size (feed s b).1 rest
  | s, .read len :: rest => .take (len / size) :: passageEvents feed size s rest

theorem offered_passage_events (size : Nat) (s : σ) :
    offered (passageEvents feed size s actions) = decode feed s (irqBytes actions) := by
  induction actions generalizing s with
  | nil => rfl
  | cons action rest ih =>
      cases action with
      | irq b =>
          rw [passageEvents, irqBytes, decode, ← ih]
          cases (feed s b).2 <;> rfl
      | read len => exact ih s

variable {r : InputRun σ α limit}

/-- No event finds the buffer full. -/
def InputRun.KeepsUp (drv : InputDriver σ α limit) (feed : σ → UInt8 → σ × Option α) :
    InputRun σ α limit → List InputAction → Prop
  | _, [] => True
  | r, .irq b :: rest =>
      ((feed r.device.state b).2.isSome → r.device.buf.items.length < limit) ∧
        (r.step drv (.irq b)).KeepsUp drv feed rest
  | r, .read len :: rest => (r.step drv (.read len)).KeepsUp drv feed rest

/-- The bytes that have been read are those of whole events. -/
structure InputRun.Follows (drv : InputDriver σ α limit) (r : InputRun σ α limit)
    (p : Passage α) : Prop where
  output : r.output = p.taken.flatMap drv.bytes
  waiting : r.device.buf.items = p.waiting

/-- The device refines the passage of its events. -/
theorem run_follows (actions : List InputAction) (hf : drv.Feeds feed) {p : Passage α}
    (h : r.Follows drv p) :
    (r.run drv actions).Follows drv
        (p.run limit (passageEvents feed drv.size r.device.state actions)) ∧
      (r.KeepsUp drv feed actions ↔
        p.Roomy limit (passageEvents feed drv.size r.device.state actions)) := by
  induction actions generalizing r p with
  | nil => exact ⟨h, Iff.rfl⟩
  | cons action rest ih =>
      cases action with
      | irq b =>
          have hstate := hf.state r.device b
          have hbuf := hf.buf r.device b
          rw [passageEvents]
          cases hfeed : (feed r.device.state b).2 with
          | none =>
              have hnext : (r.step drv (.irq b)).Follows drv p :=
                ⟨h.output, by rw [← h.waiting, InputRun.step, hbuf, hfeed, Option.elim]⟩
              obtain ⟨hrun, hroomy⟩ := ih hnext
              rw [InputRun.step, hstate] at hrun hroomy
              refine ⟨hrun, ?_⟩
              rw [InputRun.KeepsUp, hfeed, InputRun.step, hroomy]
              simp
          | some a =>
              have hnext : (r.step drv (.irq b)).Follows drv (p.step limit (.offer a)) := by
                refine ⟨h.output, ?_⟩
                rw [InputRun.step, hbuf, hfeed, Option.elim, Queue.items_push, h.waiting]
                rfl
              obtain ⟨hrun, hroomy⟩ := ih hnext
              rw [InputRun.step, hstate] at hrun hroomy
              refine ⟨hrun, ?_⟩
              rw [InputRun.KeepsUp, hfeed, InputRun.step, hroomy, h.waiting]
              simp [Passage.Roomy]
      | read len =>
          obtain ⟨htaken, hleft⟩ := take_drained hf.size_pos r.device.buf.items len
          have hnext : (r.step drv (.read len)).Follows drv
              (p.step limit (.take (len / drv.size))) := by
            refine ⟨?_, ?_⟩
            · rw [InputRun.step, InputDriver.read, htaken, h.output, h.waiting, Passage.step,
                List.flatMap_append]
            · exact hleft.trans (congrArg _ h.waiting)
          exact ih hnext

/-- A device that has been set up. -/
def InputRun.start (state : σ) : InputRun σ α limit where
  device := { state, buf := { items := [], fits := Nat.zero_le _ } }
  output := []

/-- The events `taken` have been read, and with those that wait they are a part of `events`, in its
order; all of it exactly when none has found the buffer full. -/
structure Delivers (drv : InputDriver σ α limit) (feed : σ → UInt8 → σ × Option α)
    (r : InputRun σ α limit) (actions : List InputAction) (events taken : List α) : Prop where
  output : (r.run drv actions).output = taken.flatMap drv.bytes
  part : (taken ++ (r.run drv actions).device.buf.items).Sublist events
  whole : taken ++ (r.run drv actions).device.buf.items = events ↔ r.KeepsUp drv feed actions

/-- What is delivered is what the bytes say. -/
theorem run_delivers (actions : List InputAction) (hf : drv.Feeds feed) (state : σ) :
    ∃ taken, Delivers drv feed (.start state) actions (decode feed state (irqBytes actions))
      taken := by
  have hstart : (InputRun.start state).Follows drv ⟨[], []⟩ := ⟨rfl, rfl⟩
  obtain ⟨hrun, hroomy⟩ := run_follows actions hf hstart
  refine ⟨_, hrun.output, ?_, ?_⟩
  · rw [hrun.waiting, ← offered_passage_events drv.size]
    exact run_sublist
  · rw [hrun.waiting, hroomy, ← offered_passage_events drv.size]
    exact run_all_iff

end Passage

section Keyboard

abbrev kbdEventKeyrelease : UInt16 := 0
abbrev kbdEventKeypress : UInt16 := 1

/-- `kbd_event_t`. -/
structure KbdEvent where
  scancode : UInt16
  type : UInt16
  deriving DecidableEq

/-- The bytes of a number of 16 bits. -/
def bytes16 (v : UInt16) : List UInt8 := [v.toUInt8, (v >>> 8).toUInt8]

/-- A `kbd_event_t` in memory. -/
def KbdEvent.bytes (ev : KbdEvent) : List UInt8 := bytes16 ev.scancode ++ bytes16 ev.type

abbrev pckbdBufLen : Nat := 16

/-- `pckbd_escaped`, `pckbd_buf` and `pckbd_buf_used`. -/
abbrev Pckbd := InputDevice Bool KbdEvent pckbdBufLen

/-- `irq1_handler`, with the byte that it reads. -/
def irq1Handler (d : Pckbd) (scancode : UInt8) : Pckbd :=
  if scancode = 0xE0 then { d with state := true }
  else
    let ev : KbdEvent :=
      if scancode &&& 0x80 ≠ 0 then
        if d.state then { scancode := scancode.toUInt16, type := kbdEventKeyrelease }
        else { scancode := (scancode &&& 0x7F).toUInt16, type := kbdEventKeyrelease }
      else
        if d.state then { scancode := (scancode ||| 0x80).toUInt16, type := kbdEventKeypress }
        else { scancode := scancode.toUInt16, type := kbdEventKeypress }
    { state := false, buf := d.buf.push ev }

/-- `pckbd_ops`. -/
def pckbd : InputDriver Bool KbdEvent pckbdBufLen where
  irqHandler := irq1Handler
  bytes := KbdEvent.bytes
  size := 4

/-- What a key is reported as: the codes behind the prefix `0xE0` are those from 128 on. -/
def keyCode (extended : Bool) (key : UInt8) : UInt16 :=
  if extended then (key ||| 0x80).toUInt16 else (key &&& 0x7F).toUInt16

/-- The event that a byte completes. -/
def feedKey (escaped : Bool) (b : UInt8) : Bool × Option KbdEvent :=
  if b = 0xE0 then (true, none)
  else (false, some {
    scancode := keyCode escaped b
    type := if b &&& 0x80 ≠ 0 then kbdEventKeyrelease else kbdEventKeypress })

theorem or_high (b : UInt8) (h : b &&& 0x80 ≠ 0) : b ||| 0x80 = b := by
  obtain ⟨v⟩ := b
  revert v
  decide +kernel

theorem and_low (b : UInt8) (h : b &&& 0x80 = 0) : b &&& 0x7F = b := by
  obtain ⟨v⟩ := b
  revert v
  decide +kernel

theorem pckbd_feeds : pckbd.Feeds feedKey where
  size_pos := by decide
  state := fun d b => by
    simp only [pckbd, irq1Handler, feedKey]
    split <;> rfl
  buf := fun d b => by
    simp only [pckbd, irq1Handler, feedKey, keyCode]
    by_cases hesc : b = 0xE0
    · rw [if_pos hesc, if_pos hesc, Option.elim]
    · rw [if_neg hesc, if_neg hesc, Option.elim]
      by_cases hrel : b &&& 0x80 = 0
      · rw [if_neg (not_not.mpr hrel), if_neg (not_not.mpr hrel), and_low b hrel]
        cases d.state <;> rfl
      · rw [if_pos hrel, if_pos hrel, or_high b hrel]
        cases d.state <;> rfl

/-- The bytes of any run of the keyboard, in whatever pieces they are read. -/
theorem pckbd_run (actions : List InputAction) :
    ∃ taken, Delivers pckbd feedKey (.start false) actions
      (decode feedKey false (irqBytes actions)) taken :=
  run_delivers actions pckbd_feeds false

/-- A key that goes down or up, by its code in the first set. -/
structure Stroke where
  extended : Bool
  key : UInt8
  down : Bool
  deriving DecidableEq

/-- The codes that the controller has: releasing the key 0x60 would read as the prefix. -/
def Stroke.Valid (k : Stroke) : Prop := k.key < 0x80 ∧ (k.key = 0x60 → k.down)

instance (k : Stroke) : Decidable k.Valid := inferInstanceAs (Decidable (_ ∧ _))

/-- The bytes of the controller for a stroke. -/
def Stroke.bytes (k : Stroke) : List UInt8 :=
  (if k.extended then [0xE0] else []) ++ [if k.down then k.key else k.key ||| 0x80]

/-- The event of a stroke. -/
def Stroke.event (k : Stroke) : KbdEvent where
  scancode := (if k.extended then k.key ||| 0x80 else k.key).toUInt16
  type := if k.down then kbdEventKeypress else kbdEventKeyrelease

theorem feed_key_last (k : Stroke) (h : k.Valid) (escaped : Bool) (hesc : escaped = k.extended) :
    feedKey escaped (if k.down then k.key else k.key ||| 0x80) = (false, some k.event) := by
  obtain ⟨extended, ⟨v⟩, down⟩ := k
  subst hesc
  unfold Stroke.Valid at h
  revert escaped down v
  decide +kernel

theorem decode_stroke (k : Stroke) (h : k.Valid) (rest : List UInt8) :
    decode feedKey false (k.bytes ++ rest) = k.event :: decode feedKey false rest := by
  unfold Stroke.bytes
  cases hext : k.extended with
  | false => exact decode_cons_some (feed_key_last k h false hext.symm) rest
  | true =>
      have hprefix : feedKey false 0xE0 = (true, none) := rfl
      refine (decode_cons_none hprefix _).trans ?_
      exact decode_cons_some (feed_key_last k h true hext.symm) rest

theorem decode_strokes (strokes : List Stroke) (h : ∀ k ∈ strokes, k.Valid) :
    decode feedKey false (strokes.flatMap Stroke.bytes) = strokes.map Stroke.event := by
  induction strokes with
  | nil => rfl
  | cons k rest ih =>
      rw [List.flatMap_cons, decode_stroke k (h k (List.mem_cons_self ..)),
        ih fun j hj => h j (List.mem_cons_of_mem _ hj), List.map_cons]

/-- The stroke of an event. -/
def KbdEvent.stroke (ev : KbdEvent) : Stroke where
  extended := ev.scancode &&& 0x80 ≠ 0
  key := ev.scancode.toUInt8 &&& 0x7F
  down := ev.type = kbdEventKeypress

theorem stroke_event (k : Stroke) (h : k.Valid) : k.event.stroke = k := by
  obtain ⟨extended, ⟨v⟩, down⟩ := k
  unfold Stroke.Valid at h
  revert extended down v
  decide +kernel

/-- The keys that are typed, whenever they are read: each has an event of its own, and the events
come in the order of the keys. -/
theorem pckbd_strokes (actions : List InputAction)
    (strokes : List Stroke) (hvalid : ∀ k ∈ strokes, k.Valid)
    (hbytes : irqBytes actions = strokes.flatMap Stroke.bytes) :
    (∃ taken, Delivers pckbd feedKey (.start false) actions (strokes.map Stroke.event)
      taken) ∧ (strokes.map Stroke.event).map KbdEvent.stroke = strokes := by
  refine ⟨?_, ?_⟩
  · rw [← decode_strokes strokes hvalid, ← hbytes]
    exact run_delivers actions pckbd_feeds false
  · rw [List.map_map]
    exact (List.map_congr_left fun k hk => stroke_event k (hvalid k hk)).trans (List.map_id _)

/-- An arrow key that is pressed and released, and read in between. -/
theorem pckbd_strokes_arrow :
    ∃ taken, Delivers pckbd feedKey (.start false)
      [.irq 0xE0, .irq 0x48, .read 6, .irq 0xE0, .irq 0xC8] [⟨0xC8, 1⟩, ⟨0xC8, 0⟩] taken :=
  (pckbd_strokes _ [⟨true, 0x48, true⟩, ⟨true, 0x48, false⟩] (by decide) (by decide)).1

end Keyboard

section Mouse

/-- A `mouse_event_t` in memory. -/
def mouseEventBytes (e : MouseEvent) : List UInt8 :=
  bytes16 e.deltaX.toUInt16 ++ bytes16 e.deltaY.toUInt16 ++
    [e.deltaWheel.toUInt8, e.lbtn, e.rbtn, e.midbtn]

abbrev pcmouseBufLen : Nat := 64

/-- `mouse_cycle` and `mouse_byte`. -/
structure MouseCycle where
  cycle : Nat
  byte : Vector Int8 4

/-- The two, with `pcmouse_buf` and `pcmouse_buf_used`. -/
abbrev Pcmouse := InputDevice MouseCycle MouseEvent pcmouseBufLen

/-- What `irq12_handler` makes of a displacement and of its bit in the first byte. -/
def mouseDelta (byte first sign : Int8) : Int16 :=
  if first &&& sign ≠ 0 then byte.toInt16 ||| 0xFF00 else byte.toInt16

/-- What `irq12_handler` makes of one of the buttons. -/
def mouseButton (first bit : Int8) : UInt8 := if first &&& bit ≠ 0 then 1 else 0

/-- `irq12_handler`, with the byte that it reads. -/
def irq12Handler (d : Pcmouse) (b : UInt8) : Pcmouse :=
  let m := d.state
  if m.cycle = 0 then
    { d with state := { cycle := 1, byte := m.byte.set 0 b.toInt8 } }
  else if m.cycle = 1 then
    { d with state := { cycle := 2, byte := m.byte.set 1 b.toInt8 } }
  else if m.cycle = 2 then
    let m : MouseCycle := { cycle := 0, byte := m.byte.set 2 b.toInt8 }
    if m.byte[0] &&& (0x80 ||| 0x40) ≠ 0 then { d with state := m }
    else if d.buf.items.length ≥ pcmouseBufLen then { d with state := m }
    else
      let e : MouseEvent := {
        deltaX := mouseDelta m.byte[1] m.byte[0] 0x10
        deltaY := mouseDelta m.byte[2] m.byte[0] 0x20
        deltaWheel := 0
        lbtn := mouseButton m.byte[0] 0x01
        rbtn := mouseButton m.byte[0] 0x02
        midbtn := mouseButton m.byte[0] 0x04 }
      { state := m, buf := d.buf.push e }
  else d

/-- `pcmouse_ops`. -/
def pcmouse : InputDriver MouseCycle MouseEvent pcmouseBufLen where
  irqHandler := irq12Handler
  bytes := mouseEventBytes
  size := 8

/-- The event of three bytes. -/
def mouseEventOf (first x y : UInt8) : MouseEvent where
  deltaX := mouseDelta x.toInt8 first.toInt8 0x10
  deltaY := mouseDelta y.toInt8 first.toInt8 0x20
  deltaWheel := 0
  lbtn := mouseButton first.toInt8 0x01
  rbtn := mouseButton first.toInt8 0x02
  midbtn := mouseButton first.toInt8 0x04

/-- The same, if none of the displacements has overflowed. -/
def packetEvent (first x y : UInt8) : Option MouseEvent :=
  if first.toInt8 &&& (0x80 ||| 0x40) ≠ 0 then none else some (mouseEventOf first x y)

/-- The events of a stream of bytes, three for each. -/
def packetEvents : List UInt8 → List MouseEvent
  | first :: x :: y :: rest => (packetEvent first x y).toList ++ packetEvents rest
  | _ => []

/-- The byte that `irq12_handler` reads, and the event that it completes. -/
def feedMouse (m : MouseCycle) (b : UInt8) : MouseCycle × Option MouseEvent :=
  if m.cycle = 0 then ({ cycle := 1, byte := m.byte.set 0 b.toInt8 }, none)
  else if m.cycle = 1 then ({ cycle := 2, byte := m.byte.set 1 b.toInt8 }, none)
  else if m.cycle = 2 then
    ({ cycle := 0, byte := m.byte.set 2 b.toInt8 },
      packetEvent m.byte[0].toUInt8 m.byte[1].toUInt8 b)
  else (m, none)

/-- The third byte of a packet. -/
theorem irq12_handler_last (d : Pcmouse) (b : UInt8) (h : d.state.cycle = 2) :
    irq12Handler d b =
      { state := (feedMouse d.state b).1
        buf := (feedMouse d.state b).2.elim d.buf d.buf.push } := by
  by_cases hover : d.state.byte[0] &&& (0x80 ||| 0x40) ≠ 0
  · simp [irq12Handler, feedMouse, packetEvent, h, if_pos hover]
  · by_cases hfull : d.buf.items.length ≥ pcmouseBufLen
    · simp [irq12Handler, feedMouse, packetEvent, mouseEventOf, h, if_neg hover, hfull,
        Queue.push, Nat.not_lt.mpr hfull]
    · simp [irq12Handler, feedMouse, packetEvent, mouseEventOf, h, if_neg hover, hfull]

theorem irq12_handler_eq (d : Pcmouse) (b : UInt8) :
    irq12Handler d b =
      { state := (feedMouse d.state b).1
        buf := (feedMouse d.state b).2.elim d.buf d.buf.push } := by
  by_cases h2 : d.state.cycle = 2
  · exact irq12_handler_last d b h2
  · by_cases h0 : d.state.cycle = 0
    · simp [irq12Handler, feedMouse, h0]
    · by_cases h1 : d.state.cycle = 1 <;> simp [irq12Handler, feedMouse, h0, h1, h2]

theorem pcmouse_feeds : pcmouse.Feeds feedMouse where
  size_pos := by decide
  state := fun d b => congrArg (·.state) (irq12_handler_eq d b)
  buf := fun d b => congrArg (·.buf) (irq12_handler_eq d b)

theorem decode_packets (bytes : List UInt8) (m : MouseCycle) (h : m.cycle = 0) :
    decode feedMouse m bytes = packetEvents bytes := by
  induction bytes using packetEvents.induct generalizing m with
  | case1 first x y rest ih =>
      simp [decode, feedMouse, h, packetEvents, ih]
  | case2 bytes hshort =>
      cases bytes with
      | nil => rfl
      | cons first rest =>
          cases rest with
          | nil => simp [decode, feedMouse, packetEvents, h]
          | cons x rest =>
              cases rest with
              | nil => simp [decode, feedMouse, packetEvents, h]
              | cons y rest => exact (hshort first x y rest rfl).elim

/-- The bytes of any run of the mouse, in whatever pieces they are read. -/
theorem pcmouse_run (byte : Vector Int8 4) (actions : List InputAction) :
    ∃ taken, Delivers pcmouse feedMouse (.start ⟨0, byte⟩) actions
      (packetEvents (irqBytes actions)) taken := by
  rw [← decode_packets (irqBytes actions) ⟨0, byte⟩ rfl]
  exact run_delivers actions pcmouse_feeds ⟨0, byte⟩

/-- A movement of the mouse, with the buttons that are held. -/
structure Motion where
  dx : Int
  dy : Int
  lbtn : Bool
  rbtn : Bool
  midbtn : Bool
  deriving DecidableEq

/-- The displacements that a packet has room for. -/
def Motion.Valid (m : Motion) : Prop :=
  (-256 ≤ m.dx ∧ m.dx < 256) ∧ (-256 ≤ m.dy ∧ m.dy < 256)

instance (m : Motion) : Decidable m.Valid := inferInstanceAs (Decidable (_ ∧ _))

/-- The first byte of a packet: the buttons, a bit that is always set, and the two signs. -/
def packetFirst (lbtn rbtn midbtn xneg yneg : Bool) : UInt8 :=
  0x08 ||| (if lbtn then 0x01 else 0) ||| (if rbtn then 0x02 else 0) |||
    (if midbtn then 0x04 else 0) ||| (if xneg then 0x10 else 0) ||| (if yneg then 0x20 else 0)

/-- The packet of a movement: of a displacement it has the lower eight bits and the sign. -/
def Motion.bytes (m : Motion) : List UInt8 :=
  [packetFirst m.lbtn m.rbtn m.midbtn (m.dx < 0) (m.dy < 0), UInt8.ofInt m.dx, UInt8.ofInt m.dy]

/-- The event of a movement. -/
def Motion.event (m : Motion) : MouseEvent :=
  mouseEventOf (packetFirst m.lbtn m.rbtn m.midbtn (m.dx < 0) (m.dy < 0)) (UInt8.ofInt m.dx)
    (UInt8.ofInt m.dy)

/-- What should be reported of a movement. -/
def Motion.report (m : Motion) : MouseReport where
  dx := m.dx
  dy := m.dy
  dw := 0
  lb := if m.lbtn then 1 else 0
  rb := if m.rbtn then 1 else 0
  mb := if m.midbtn then 1 else 0

/-- A displacement by more than 127 has the sign bit of its byte set, and not that of the packet. -/
def reportedDelta (d : Int) : Int := if d ≤ 127 then d else d - 256

/-- What is reported of a movement. -/
def Motion.reported (m : Motion) : MouseReport :=
  { m.report with dx := reportedDelta m.dx, dy := reportedDelta m.dy }

theorem mouse_delta_eq {d : Int} (hlo : -256 ≤ d) (hhi : d < 256) {first sign : Int8}
    (hsign : first &&& sign ≠ 0 ↔ d < 0) :
    (mouseDelta (UInt8.ofInt d).toInt8 first sign).toInt = reportedDelta d := by
  have hall : ∀ n : Fin 512,
      (if (n : Int) - 256 < 0 then (UInt8.ofInt ((n : Int) - 256)).toInt8.toInt16 ||| 0xFF00
        else (UInt8.ofInt ((n : Int) - 256)).toInt8.toInt16).toInt =
      reportedDelta ((n : Int) - 256) := by
    decide +kernel
  have hd := hall ⟨(d + 256).toNat, by omega⟩
  have hback : (((d + 256).toNat : Nat) : Int) - 256 = d := by omega
  simp only [hback] at hd
  rw [mouseDelta, ← hd]
  simp only [hsign]

theorem packet_first_bits (lbtn rbtn midbtn xneg yneg : Bool) :
    let first := (packetFirst lbtn rbtn midbtn xneg yneg).toInt8
    first &&& (0x80 ||| 0x40) = 0 ∧ (first &&& 0x10 ≠ 0 ↔ xneg) ∧ (first &&& 0x20 ≠ 0 ↔ yneg) ∧
      mouseButton first 0x01 = (if lbtn then 1 else 0) ∧
      mouseButton first 0x02 = (if rbtn then 1 else 0) ∧
      mouseButton first 0x04 = (if midbtn then 1 else 0) := by
  revert lbtn rbtn midbtn xneg yneg
  decide +kernel

theorem unpack_event {m : Motion} (h : m.Valid) : m.event.unpack = m.reported := by
  obtain ⟨-, hx, hy, hl, hr, hm⟩ :=
    packet_first_bits m.lbtn m.rbtn m.midbtn (m.dx < 0) (m.dy < 0)
  have hbutton : ∀ b : Bool, (((if b then 1 else 0 : UInt8).toNat : Nat) : Int) =
      if b then 1 else 0 := by decide
  have hwheel : (0 : Int8).toInt = 0 := by decide
  rw [MouseEvent.unpack, Motion.event, mouseEventOf,
    mouse_delta_eq h.1.1 h.1.2 (by simpa using hx),
    mouse_delta_eq h.2.1 h.2.2 (by simpa using hy), hl, hr, hm]
  simp only [hbutton, hwheel, Motion.reported, Motion.report]

theorem reported_eq_iff {m : Motion} :
    m.reported = m.report ↔ m.dx ≤ 127 ∧ m.dy ≤ 127 := by
  simp only [Motion.reported, Motion.report, MouseReport.mk.injEq, reportedDelta, and_true]
  constructor <;> intro hd <;> (constructor <;> (split_ifs at * <;> omega))

theorem packet_events_motions (motions : List Motion) :
    packetEvents (motions.flatMap Motion.bytes) = motions.map Motion.event := by
  induction motions with
  | nil => rfl
  | cons m rest ih =>
      have hover := (packet_first_bits m.lbtn m.rbtn m.midbtn (m.dx < 0) (m.dy < 0)).1
      rw [List.flatMap_cons, Motion.bytes, List.cons_append, List.cons_append, List.cons_append,
        List.nil_append, packetEvents, packetEvent, if_neg (not_not.mpr hover), ih]
      rfl

/-- The movements of the mouse come in their order, and one is reported as it was made exactly when
it goes no further than 127 to the right or up. -/
theorem pcmouse_motions (byte : Vector Int8 4) (actions : List InputAction)
    (motions : List Motion) (hvalid : ∀ m ∈ motions, m.Valid)
    (hbytes : irqBytes actions = motions.flatMap Motion.bytes) :
    (∃ taken, Delivers pcmouse feedMouse (.start ⟨0, byte⟩) actions
      (motions.map Motion.event) taken) ∧
    ∀ m ∈ motions, m.event.unpack = m.report ↔ m.dx ≤ 127 ∧ m.dy ≤ 127 := by
  refine ⟨?_, fun m hm => ?_⟩
  · rw [← packet_events_motions, ← hbytes, ← decode_packets (irqBytes actions) ⟨0, byte⟩ rfl]
    exact run_delivers actions pcmouse_feeds ⟨0, byte⟩
  · rw [unpack_event (hvalid m hm)]
    exact reported_eq_iff

/-- A movement that is read before the next one is made. -/
theorem pcmouse_motions_read :
    ∃ taken, Delivers pcmouse feedMouse
      (.start ⟨0, Vector.replicate 4 0⟩)
      [.irq 0x19, .irq 0x00, .irq 0x7F, .read 8, .irq 0x08, .irq 0x7F, .irq 0x00]
      [⟨-256, 127, 0, 1, 0, 0⟩, ⟨127, 0, 0, 0, 0, 0⟩] taken :=
  (pcmouse_motions _ _ [⟨-256, 127, true, false, false⟩, ⟨127, 0, false, false, false⟩]
    (by decide) (by decide)).1

end Mouse

end Kogata.Kernel
