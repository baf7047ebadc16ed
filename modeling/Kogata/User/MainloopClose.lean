import Kogata.Kernel.ChannelFifo
import Kogata.Kernel.ChannelThreads
import Kogata.User.Mainloop

/-!
# The main loop and peers that close

`mainloop_run` of `lib/libkogata/mainloop.c` on descriptors that are ends of channels, together
with the peers at the other ends, which write, read and close at any moment. In each turn the loop
asks `sc_select` about all descriptors and then looks at one condition of each, the error first;
but a channel whose peer has closed still holds what was written before. `mainloop_delivers` says
what the loop guarantees as long as no peer has closed with bytes left to read.
-/

namespace Kogata.User

open Lib.Run Kogata.Kernel

/-- What a callback may ask of the main loop: `mainloop_add_fd`, `mainloop_rm_fd`,
`mainloop_expect`, `mainloop_nonblocking_write` and `mainloop_exit`. -/
inductive LoopCall (F C : Type)
  | addFd (f : F)
  | rmFd (f : F)
  | expect (f : F) (size : Nat) (cb : C)
  | nonblockingWrite (f : F) (buf : List UInt8) (size : Nat) (mustFree : Bool)
  | exit

/-- Where `mainloop_run` is: before a turn, before `sc_select` with the requested flags, in the
loop over the results with those that are left, in a `sc_read` that has `got`, in a `sc_write` of
which `n` bytes were taken, or back at its caller. -/
inductive LoopControl (F : Type)
  | turn
  | select (selArg : List (F × UInt16))
  | parse (pending : List (F × UInt16))
  | reading (f : F) (got : List UInt8) (pending : List (F × UInt16))
  | writing (f : F) (n : Nat) (pending : List (F × UInt16))
  | returned
  deriving DecidableEq

/-- What has become of bytes that were read: `rd_on_full` was called with them, or `rd_buf_filled`
was set back while they were in a buffer that was not full. -/
inductive LoopNote (F C : Type)
  | full (f : F) (cb : C) (bytes : List UInt8)
  | dropped (f : F) (bytes : List UInt8)
  deriving DecidableEq

/-- The main loop, its descriptors and the channels behind them, with the loop's end at `.a`; what
each peer has written, and what was done with the bytes read. -/
structure Mainloop (F C : Type) where
  mainloopFds : List F
  mainloopFdsChange : Bool
  mainloopMustExit : Bool
  item : F → MainloopFd C
  chan : F → Channels
  control : LoopControl F
  sent : F → List UInt8
  notes : List (LoopNote F C)

/-- What can happen next. The calls are those that a callback makes, if one is called. -/
inductive LoopEvent (F C : Type)
  | turn
  | outOfMemory
  | select
  | selectFails
  | parse (calls : List (LoopCall F C))
  | readRound (calls : List (LoopCall F C))
  | writeRound
  | peerWrite (f : F) (data : List UInt8)
  | peerRead (f : F) (len : UInt32)
  | peerClose (f : F)

/-- `channel_poll`, at the loop's end. -/
def pollChannel (cs : Channels) : UInt16 :=
  (match (cs .a).otherSide with
    | none => selError
    | some o => if (cs o).bufUsed < channelBufferSize then selWrite else 0) |||
  (if (cs .a).bufUsed > 0 then selRead else 0)

/-- The first write slot is in use. -/
def MainloopFd.writes {C : Type} (fd : MainloopFd C) : Bool :=
  match fd.wrBufs with
  | some _ :: _ => true
  | _ => false

/-- `req_flags`. -/
def MainloopFd.reqFlags {C : Type} (fd : MainloopFd C) : UInt16 :=
  (if fd.rdBuf.isSome then selRead else 0) ||| (if fd.writes then selWrite else 0) ||| selError

/-- The bytes in the read buffer. -/
def MainloopFd.filled {C : Type} (fd : MainloopFd C) : List UInt8 := fd.rdBuf.getD []

namespace Mainloop

variable {F C : Type} [DecidableEq F]

/-- Another item in the place of one. -/
def setItem (s : Mainloop F C) (f : F) (item : MainloopFd C) : Mainloop F C :=
  { s with item := Function.update s.item f item }

/-- Another buffer in the place of one of the two of a channel. -/
def setChan (s : Mainloop F C) (f : F) (e : End) (c : Channel) : Mainloop F C :=
  { s with chan := Function.update s.chan f (Function.update (s.chan f) e c) }

/-- Go on elsewhere. -/
def goto (s : Mainloop F C) (control : LoopControl F) : Mainloop F C :=
  { s with control := control }

/-- Note what becomes of bytes. -/
def note (s : Mainloop F C) (n : LoopNote F C) : Mainloop F C := { s with notes := s.notes ++ [n] }

/-- A call of one of the main loop's functions. A descriptor is added once, and one that is removed
is in the list. -/
def call (s : Mainloop F C) : LoopCall F C → Option (Mainloop F C)
  | .addFd f =>
      if f ∈ s.mainloopFds then none
      else some ({ s with mainloopFdsChange := true, mainloopFds := f :: s.mainloopFds }.note
        (.dropped f (s.item f).filled) |>.setItem f
          { s.item f with rdBuf := (s.item f).rdBuf.map fun _ => [] })
  | .rmFd f =>
      if f ∈ s.mainloopFds then
        some { s with mainloopFdsChange := true, mainloopFds := s.mainloopFds.erase f }
      else none
  | .expect f size cb =>
      some ((s.note (.dropped f (s.item f).filled)).setItem f ((s.item f).expect size cb))
  | .nonblockingWrite f buf size mustFree =>
      match (s.item f).nonblockingWrite buf size mustFree with
      | some item => some (s.setItem f item)
      | none => some s
  | .exit => some { s with mainloopMustExit := true }

/-- The calls that a callback makes. -/
def calls : List (LoopCall F C) → Mainloop F C → Option (Mainloop F C)
  | [], s => some s
  | call :: rest, s => (s.call call).bind (calls rest)

/-- The head of the loop. -/
def turn (s : Mainloop F C) : Mainloop F C :=
  if s.mainloopMustExit then s.goto .returned
  else if s.mainloopFdsChange ∧ s.mainloopFds = [] then s.goto .returned
  else { s with mainloopFdsChange := false }.goto
    (.select (s.mainloopFds.map fun f => (f, (s.item f).reqFlags)))

/-- The loop looks at the next result. -/
def parse (s : Mainloop F C) (made : List (LoopCall F C)) :
    List (F × UInt16) → Option (Mainloop F C)
  | [] => some (s.goto .turn)
  | (f, got) :: rest =>
      if s.mainloopFdsChange then some (s.goto .turn)
      else if got &&& selError ≠ 0 then calls made (s.goto (.parse rest))
      else if got &&& selRead ≠ 0 ∧ (s.item f).rdBuf.isSome then some (s.goto (.reading f [] rest))
      else if got &&& selWrite ≠ 0 ∧ (s.item f).writes then some (s.goto (.writing f 0 rest))
      else some (s.goto (.parse rest))

/-- `sc_read` has returned `got`. A `rd_on_full` that is null stops the program. -/
def finishRead (s : Mainloop F C) (f : F) (filled got : List UInt8) (rest : List (F × UInt16))
    (made : List (LoopCall F C)) : Option (Mainloop F C) :=
  match (s.item f).readTurn filled got with
  | (item, none) => some ((s.setItem f item).goto (.parse rest))
  | (item, some (cb, full)) =>
      cb.bind fun cb => calls made (((s.note (.full f cb full)).setItem f item).goto (.parse rest))

/-- One pass of the `channel_read` under way, which goes on if the channel blocks and there is more
to read. -/
def readRound (blocking : F → Bool) (s : Mainloop F C) (f : F) (got : List UInt8)
    (rest : List (F × UInt16)) (made : List (LoopCall F C)) : Option (Mainloop F C) :=
  (s.item f).rdBuf.bind fun filled =>
    let reqLen := (s.item f).rdBufExpectSize - filled.length
    match (s.chan f .a).readRound (UInt32.ofNat (reqLen - got.length)) with
    | .error _ => none
    | .ok (block, c) =>
        let s := s.setChan f .a c
        if blocking f ∧ (got ++ block).length < reqLen then
          some (s.goto (.reading f (got ++ block) rest))
        else s.finishRead f filled (got ++ block) rest made

/-- One pass of the `channel_write` under way. -/
def writeRound (blocking : F → Bool) (s : Mainloop F C) (f : F) (n : Nat)
    (rest : List (F × UInt16)) : Option (Mainloop F C) :=
  match (s.item f).wrBufs with
  | some b :: _ =>
      match (s.chan f .a).otherSide with
      | none => if n = 0 then some ((s.setItem f ((s.item f).writeTurn b 0)).goto (.parse rest))
          else none
      | some _ =>
          match (s.chan f .b).writeRound (UInt32.ofNat (b.size - b.written - n))
              (b.buf.drop (b.written + n)) with
          | .error _ => none
          | .ok (taken, c) =>
              let s := s.setChan f .b c
              let n := n + taken.toNat
              if blocking f ∧ n < b.size - b.written then some (s.goto (.writing f n rest))
              else some ((s.setItem f ((s.item f).writeTurn b n)).goto (.parse rest))
  | _ => none

/-- The peer of a descriptor has not closed. -/
def opened (s : Mainloop F C) (f : F) : Bool := (s.chan f .a).otherSide.isSome

/-- A step of the system. -/
def step (blocking : F → Bool) (s : Mainloop F C) : LoopEvent F C → Option (Mainloop F C)
  | .turn => match s.control with
      | .turn => some s.turn
      | _ => none
  | .outOfMemory => match s.control with
      | .turn => if s.mainloopFdsChange then some (s.goto .returned) else none
      | _ => none
  | .select => match s.control with
      | .select selArg =>
          if selArg.any fun arg => pollChannel (s.chan arg.1) &&& arg.2 != 0 then
            some (s.goto (.parse (selArg.map fun arg => (arg.1, pollChannel (s.chan arg.1)))))
          else none
      | _ => none
  | .selectFails => match s.control with
      | .select _ => some (s.goto .returned)
      | _ => none
  | .parse made => match s.control with
      | .parse pending => s.parse made pending
      | _ => none
  | .readRound made => match s.control with
      | .reading f got rest => readRound blocking s f got rest made
      | _ => none
  | .writeRound => match s.control with
      | .writing f n rest => writeRound blocking s f n rest
      | _ => none
  | .peerWrite f data =>
      if s.opened f ∧ data.length ≤ 0xC0000000 then
        match (s.chan f .a).writeRound (UInt32.ofNat data.length) data with
        | .error _ => none
        | .ok (taken, c) =>
            some { s.setChan f .a c with
              sent := Function.update s.sent f (s.sent f ++ data.take taken.toNat) }
      else none
  | .peerRead f len =>
      if s.opened f then
        match (s.chan f .b).readRound len with
        | .error _ => none
        | .ok (_, c) => some (s.setChan f .b c)
      else none
  | .peerClose f =>
      if s.opened f then some (s.setChan f .a { s.chan f .a with otherSide := none }) else none

end Mainloop

section Carried

variable {F C : Type} [DecidableEq F]

/-- The results that are left. -/
def LoopControl.pending : LoopControl F → List (F × UInt16)
  | .parse pending | .reading _ _ pending | .writing _ _ pending => pending
  | _ => []

/-- The bytes that a `sc_read` under way has copied. -/
def LoopControl.inCall (f : F) : LoopControl F → List UInt8
  | .reading g got _ => if g = f then got else []
  | _ => []

/-- The bytes of a descriptor that a note is about. -/
def LoopNote.bytesOf (f : F) : LoopNote F C → List UInt8
  | .full g _ bytes | .dropped g bytes => if g = f then bytes else []

/-- The bytes of a descriptor that were delivered or dropped, in order. -/
def takenBy (f : F) (notes : List (LoopNote F C)) : List UInt8 := notes.flatMap (LoopNote.bytesOf f)

/-- What a peer has sent is, in order: what was delivered or dropped, what is in the read buffer
and in a `sc_read` under way, and what is left in the channel. A buffer that is full does not
stay so. -/
structure Carried (s : Mainloop F C) : Prop where
  valid : ∀ f, (s.chan f .a).Valid
  bytes : ∀ f, s.sent f = takenBy f s.notes ++ ((s.item f).filled ++ s.control.inCall f) ++
    (s.chan f .a).queue
  part : ∀ f, (s.item f).filled.length < (s.item f).rdBufExpectSize ∨ (s.item f).filled = []
  room : ∀ f got rest, s.control = .reading f got rest →
    (s.item f).filled.length + got.length ≤ (s.item f).rdBufExpectSize

variable {s s' : Mainloop F C} {f : F}

theorem taken_note (n : LoopNote F C) :
    takenBy f (s.notes ++ [n]) = takenBy f s.notes ++ n.bytesOf f := by
  rw [takenBy, List.flatMap_append, List.flatMap_cons, List.flatMap_nil, List.append_nil]
  rfl

omit [DecidableEq F] in
theorem fits_of_part (hpart : (s.item f).filled.length < (s.item f).rdBufExpectSize ∨
    (s.item f).filled = []) : (s.item f).filled.length ≤ (s.item f).rdBufExpectSize := by
  rcases hpart with hlt | hnil
  · exact Nat.le_of_lt hlt
  · rw [hnil]
    exact Nat.zero_le _

/-- Between the calls of `sc_read`, nothing has been copied. -/
theorem Carried.of_idle (hidle : ∀ f, s.control.inCall f = []) (hvalid : ∀ f, (s.chan f .a).Valid)
    (hbytes : ∀ f, s.sent f =
      takenBy f s.notes ++ (s.item f).filled ++ (s.chan f .a).queue)
    (hpart : ∀ f, (s.item f).filled.length < (s.item f).rdBufExpectSize ∨
      (s.item f).filled = []) : Carried s where
  valid := hvalid
  bytes := fun f => by rw [hbytes f, hidle f, List.append_nil]
  part := hpart
  room := fun f got rest hcontrol => by
    have hnil := hidle f
    rw [hcontrol] at hnil
    have hgot : got = [] := by simpa [LoopControl.inCall] using hnil
    rw [hgot]
    exact fits_of_part (hpart f)

theorem Carried.bytes_idle (h : Carried s) (hidle : ∀ f, s.control.inCall f = []) (f : F) :
    s.sent f = takenBy f s.notes ++ (s.item f).filled ++ (s.chan f .a).queue := by
  rw [h.bytes f, hidle f, List.append_nil]

/-- The loop goes on where no `sc_read` has copied anything. -/
theorem Carried.goto (h : Carried s) {control : LoopControl F}
    (hfrom : ∀ f, s.control.inCall f = []) (hto : ∀ f, control.inCall f = []) :
    Carried (s.goto control) :=
  .of_idle hto h.valid (h.bytes_idle hfrom) h.part

/-- What the calls of a callback leave as it is. -/
structure SameChannels (s s' : Mainloop F C) : Prop where
  chan : s'.chan = s.chan
  control : s'.control = s.control
  sent : s'.sent = s.sent

/-- An item is replaced, and the bytes that its buffer had are noted. -/
theorem Carried.set_item (h : Carried s) (hidle : ∀ f, s.control.inCall f = [])
    {item : MainloopFd C} {n : LoopNote F C}
    (hbytes : ∀ g, n.bytesOf g = if f = g then (s.item f).filled else [])
    (hfilled : item.filled = []) : Carried ((s.note n).setItem f item) := by
  refine .of_idle hidle h.valid (fun g => ?_) fun g => ?_
  · change s.sent g = takenBy g (s.notes ++ [n]) ++ (Function.update s.item f item g).filled ++
      (s.chan g .a).queue
    rw [h.bytes_idle hidle g, taken_note, hbytes g]
    by_cases hg : f = g
    · subst hg
      rw [Function.update_self, hfilled, if_pos rfl, List.append_nil]
    · rw [Function.update_of_ne (Ne.symm hg), if_neg hg, List.append_nil]
  · change (Function.update s.item f item g).filled.length <
      (Function.update s.item f item g).rdBufExpectSize ∨
        (Function.update s.item f item g).filled = []
    by_cases hg : g = f
    · subst hg
      rw [Function.update_self]
      exact .inr hfilled
    · rw [Function.update_of_ne hg]
      exact h.part g

/-- An item is replaced by one with the same read buffer. -/
theorem Carried.same_item (h : Carried s) {item : MainloopFd C}
    (hbuf : item.rdBuf = (s.item f).rdBuf)
    (hsize : item.rdBufExpectSize = (s.item f).rdBufExpectSize) : Carried (s.setItem f item) := by
  have hsame : ∀ g, (Function.update s.item f item g).filled = (s.item g).filled ∧
      (Function.update s.item f item g).rdBufExpectSize = (s.item g).rdBufExpectSize := by
    intro g
    by_cases hg : g = f
    · subst hg
      rw [Function.update_self]
      exact ⟨congrArg (·.getD []) hbuf, hsize⟩
    · rw [Function.update_of_ne hg]
      exact ⟨rfl, rfl⟩
  refine ⟨h.valid, fun g => ?_, fun g => ?_, fun g got rest hcontrol => ?_⟩
  · change s.sent g = takenBy g s.notes ++
      ((Function.update s.item f item g).filled ++ s.control.inCall g) ++ (s.chan g .a).queue
    rw [(hsame g).1]
    exact h.bytes g
  · change (Function.update s.item f item g).filled.length <
      (Function.update s.item f item g).rdBufExpectSize ∨
        (Function.update s.item f item g).filled = []
    rw [(hsame g).1, (hsame g).2]
    exact h.part g
  · change (Function.update s.item f item g).filled.length + got.length ≤
      (Function.update s.item f item g).rdBufExpectSize
    rw [(hsame g).1, (hsame g).2]
    exact h.room g got rest hcontrol

theorem nonblocking_write_reads {fd fd' : MainloopFd C} {buf : List UInt8} {size : Nat}
    {mustFree : Bool} (h : fd.nonblockingWrite buf size mustFree = some fd') :
    fd'.rdBuf = fd.rdBuf ∧ fd'.rdBufExpectSize = fd.rdBufExpectSize := by
  obtain ⟨slots, -, rfl⟩ := Option.map_eq_some_iff.mp h
  exact ⟨rfl, rfl⟩

theorem write_turn_reads (fd : MainloopFd C) (b : WrBuf) (n : Nat) :
    (fd.writeTurn b n).rdBuf = fd.rdBuf ∧
      (fd.writeTurn b n).rdBufExpectSize = fd.rdBufExpectSize := by
  unfold MainloopFd.writeTurn
  split <;> exact ⟨rfl, rfl⟩

theorem Carried.call (h : Carried s) (hidle : ∀ f, s.control.inCall f = []) {c : LoopCall F C}
    (hcall : s.call c = some s') : Carried s' ∧ SameChannels s s' := by
  cases c with
  | addFd f =>
      simp only [Mainloop.call] at hcall
      split at hcall
      · cases hcall
      · cases hcall
        have hlisted : Carried
            { s with mainloopFdsChange := true, mainloopFds := f :: s.mainloopFds } :=
          ⟨h.valid, h.bytes, h.part, h.room⟩
        refine ⟨hlisted.set_item hidle (fun _ => rfl) ?_, ⟨rfl, rfl, rfl⟩⟩
        unfold MainloopFd.filled
        cases (s.item f).rdBuf <;> rfl
  | rmFd f =>
      simp only [Mainloop.call] at hcall
      split at hcall
      · cases hcall
        exact ⟨⟨h.valid, h.bytes, h.part, h.room⟩, ⟨rfl, rfl, rfl⟩⟩
      · cases hcall
  | expect f size cb =>
      cases hcall
      exact ⟨h.set_item hidle (fun _ => rfl) rfl, ⟨rfl, rfl, rfl⟩⟩
  | nonblockingWrite f buf size mustFree =>
      simp only [Mainloop.call] at hcall
      cases hwrite : (s.item f).nonblockingWrite buf size mustFree with
      | none =>
          rw [hwrite] at hcall
          cases hcall
          exact ⟨h, ⟨rfl, rfl, rfl⟩⟩
      | some item =>
          rw [hwrite] at hcall
          cases hcall
          obtain ⟨hbuf, hsize⟩ := nonblocking_write_reads hwrite
          exact ⟨h.same_item hbuf hsize, ⟨rfl, rfl, rfl⟩⟩
  | exit =>
      cases hcall
      exact ⟨⟨h.valid, h.bytes, h.part, h.room⟩, ⟨rfl, rfl, rfl⟩⟩

theorem Carried.calls {made : List (LoopCall F C)} (h : Carried s)
    (hidle : ∀ f, s.control.inCall f = []) (hcalls : Mainloop.calls made s = some s') :
    Carried s' ∧ SameChannels s s' := by
  induction made generalizing s with
  | nil =>
      cases hcalls
      exact ⟨h, ⟨rfl, rfl, rfl⟩⟩
  | cons c made ih =>
      obtain ⟨mid, hcall, hrest⟩ := Option.bind_eq_some_iff.mp hcalls
      obtain ⟨hmid, hsame⟩ := h.call hidle hcall
      obtain ⟨hend, hsame'⟩ := ih hmid (fun f => by rw [hsame.control]; exact hidle f) hrest
      exact ⟨hend, ⟨hsame'.chan.trans hsame.chan, hsame'.control.trans hsame.control,
        hsame'.sent.trans hsame.sent⟩⟩

theorem set_chan_self {e : End} {c : Channel} : (s.setChan f e c).chan f e = c := by
  unfold Mainloop.setChan
  dsimp only
  rw [Function.update_self, Function.update_self]

theorem set_chan_of_ne {g : F} {e d : End} {c : Channel} (h : g ≠ f ∨ d ≠ e) :
    (s.setChan f e c).chan g d = s.chan g d := by
  unfold Mainloop.setChan
  dsimp only
  by_cases hg : g = f
  · subst hg
    rw [Function.update_self, Function.update_of_ne (h.resolve_left fun hne => hne rfl)]
  · rw [Function.update_of_ne hg]

theorem set_chan_valid (h : Carried s) {c : Channel} (hc : c.Valid) (g : F) :
    ((s.setChan f .a c).chan g .a).Valid := by
  by_cases hg : g = f
  · subst hg
    rw [set_chan_self]
    exact hc
  · rw [set_chan_of_ne (.inl hg)]
    exact h.valid g

theorem set_chan_b {c : Channel} (g : F) : (s.setChan f .b c).chan g .a = s.chan g .a :=
  set_chan_of_ne (.inr nofun)

/-- The peer's buffer holds nothing that the loop reads. -/
theorem Carried.set_chan_b (h : Carried s) {c : Channel} : Carried (s.setChan f .b c) where
  valid := fun g => by
    rw [User.set_chan_b]
    exact h.valid g
  bytes := fun g => by
    have hsame : (s.setChan f .b c).chan g .a = s.chan g .a := User.set_chan_b g
    rw [hsame]
    exact h.bytes g
  part := h.part
  room := h.room

theorem Carried.peer_write (h : Carried s) {c : Channel} {data : List UInt8} (hc : c.Valid)
    (hqueue : c.queue = (s.chan f .a).queue ++ data) :
    Carried { s.setChan f .a c with sent := Function.update s.sent f (s.sent f ++ data) } where
  valid := set_chan_valid h hc
  bytes := fun g => by
    change Function.update s.sent f (s.sent f ++ data) g = takenBy g s.notes ++
      ((s.item g).filled ++ s.control.inCall g) ++ ((s.setChan f .a c).chan g .a).queue
    by_cases hg : g = f
    · subst hg
      rw [Function.update_self, set_chan_self, hqueue, h.bytes g, List.append_assoc]
    · rw [Function.update_of_ne hg, set_chan_of_ne (.inl hg)]
      exact h.bytes g
  part := h.part
  room := h.room

theorem Carried.peer_close (h : Carried s) :
    Carried (s.setChan f .a { s.chan f .a with otherSide := none }) where
  valid := set_chan_valid h ⟨(h.valid f).begin_lt, (h.valid f).used_le⟩
  bytes := fun g => by
    by_cases hg : g = f
    · subst hg
      rw [set_chan_self]
      exact h.bytes g
    · rw [set_chan_of_ne (.inl hg)]
      exact h.bytes g
  part := h.part
  room := h.room

/-- The channel after a pass of `channel_read`, with what it has copied. -/
theorem Carried.reading (h : Carried s) {c : Channel} {got block : List UInt8}
    {rest : List (F × UInt16)} (hcontrol : s.control = .reading f got rest) (hc : c.Valid)
    (hqueue : (s.chan f .a).queue = block ++ c.queue)
    (hroom : (s.item f).filled.length + (got ++ block).length ≤ (s.item f).rdBufExpectSize) :
    Carried ((s.setChan f .a c).goto (.reading f (got ++ block) rest)) where
  valid := set_chan_valid h hc
  bytes := fun g => by
    change s.sent g = takenBy g s.notes ++ ((s.item g).filled ++
      LoopControl.inCall g (.reading f (got ++ block) rest)) ++
        ((s.setChan f .a c).chan g .a).queue
    rw [h.bytes g, hcontrol]
    unfold LoopControl.inCall
    dsimp only
    by_cases hg : f = g
    · subst hg
      rw [set_chan_self, hqueue, if_pos rfl, if_pos rfl]
      simp only [List.append_assoc]
    · rw [set_chan_of_ne (.inl (Ne.symm hg)), if_neg hg, if_neg hg]
  part := h.part
  room := fun g got' rest' hgoto => by
    cases hgoto
    exact hroom

/-- `sc_read` returns into the buffer. -/
theorem Carried.finish_read (h : Carried s) {filled got : List UInt8} {rest : List (F × UInt16)}
    {made : List (LoopCall F C)} (hcontrol : s.control = .reading f got rest)
    (hbuf : (s.item f).rdBuf = some filled)
    (hfinish : s.finishRead f filled got rest made = some s') :
    Carried s' ∧ s'.chan = s.chan ∧ s'.control = .parse rest := by
  have hfilled : (s.item f).filled = filled := congrArg (·.getD []) hbuf
  have hroom := h.room f got rest hcontrol
  rw [hfilled] at hroom
  have hbytes : ∀ g, s.sent g = takenBy g s.notes ++ ((s.item g).filled ++
      if f = g then got else []) ++ (s.chan g .a).queue := by
    intro g
    have hbytes := h.bytes g
    rwa [hcontrol] at hbytes
  unfold Mainloop.finishRead MainloopFd.readTurn at hfinish
  by_cases hfull : (filled ++ got).length = (s.item f).rdBufExpectSize
  · rw [if_pos hfull] at hfinish
    obtain ⟨cb, -, hcalls⟩ := Option.bind_eq_some_iff.mp hfinish
    refine (fun hmid => ?_ : Carried (((s.note (.full f cb (filled ++ got))).setItem f
      { s.item f with rdBuf := some [] }).goto (.parse rest)) → _) ?_
    · obtain ⟨hend, hsame⟩ := hmid.calls (fun _ => rfl) hcalls
      exact ⟨hend, hsame.chan, hsame.control⟩
    · refine .of_idle (fun _ => rfl) h.valid (fun g => ?_) fun g => ?_
      · change s.sent g = takenBy g (s.notes ++ [.full f cb (filled ++ got)]) ++
          (Function.update s.item f { s.item f with rdBuf := some [] } g).filled ++ (s.chan g .a).queue
        rw [hbytes g, taken_note]
        unfold LoopNote.bytesOf
        dsimp only
        by_cases hg : f = g
        · subst hg
          rw [Function.update_self, if_pos rfl, if_pos rfl, hfilled]
          exact congrArg (· ++ _) (List.append_nil _).symm
        · rw [Function.update_of_ne (Ne.symm hg), if_neg hg, if_neg hg, List.append_nil,
            List.append_nil]
      · change (Function.update s.item f { s.item f with rdBuf := some [] } g).filled.length <
          (Function.update s.item f { s.item f with rdBuf := some [] } g).rdBufExpectSize ∨
          (Function.update s.item f { s.item f with rdBuf := some [] } g).filled = []
        by_cases hg : g = f
        · subst hg
          rw [Function.update_self]
          exact .inr rfl
        · rw [Function.update_of_ne hg]
          exact h.part g
  · rw [if_neg hfull] at hfinish
    cases hfinish
    refine ⟨.of_idle (fun _ => rfl) h.valid (fun g => ?_) fun g => ?_, rfl, rfl⟩
    · change s.sent g = takenBy g s.notes ++
        (Function.update s.item f { s.item f with rdBuf := some (filled ++ got) } g).filled ++
          (s.chan g .a).queue
      rw [hbytes g]
      by_cases hg : f = g
      · subst hg
        rw [Function.update_self, if_pos rfl, hfilled]
        rfl
      · rw [Function.update_of_ne (Ne.symm hg), if_neg hg, List.append_nil]
    · change (Function.update s.item f { s.item f with rdBuf := some (filled ++ got) } g).filled.length <
        (Function.update s.item f { s.item f with rdBuf := some (filled ++ got) } g).rdBufExpectSize ∨
        (Function.update s.item f { s.item f with rdBuf := some (filled ++ got) } g).filled = []
      by_cases hg : g = f
      · subst hg
        rw [Function.update_self]
        rw [← List.length_append] at hroom
        exact .inl (lt_of_le_of_ne hroom hfull)
      · rw [Function.update_of_ne hg]
        exact h.part g

variable {blocking : F → Bool}

/-- One pass of a `sc_read`: the loop stays in it, or it returns with what was copied. -/
theorem read_round_cases (h : Carried s) {got : List UInt8} {rest : List (F × UInt16)}
    {made : List (LoopCall F C)} (hcontrol : s.control = .reading f got rest)
    (hread : Mainloop.readRound blocking s f got rest made = some s') :
    ∃ filled block c, (s.item f).rdBuf = some filled ∧ c.otherSide = (s.chan f .a).otherSide ∧
      (s.chan f .a).queue = block ++ c.queue ∧
      Carried ((s.setChan f .a c).goto (.reading f (got ++ block) rest)) ∧
      (s' = (s.setChan f .a c).goto (.reading f (got ++ block) rest) ∨
        ((s.setChan f .a c).goto (.reading f (got ++ block) rest)).finishRead f filled
          (got ++ block) rest made = some s') := by
  obtain ⟨filled, hbuf, hread⟩ := Option.bind_eq_some_iff.mp hread
  have hfilled : (s.item f).filled = filled := congrArg (·.getD []) hbuf
  have hroom := h.room f got rest hcontrol
  rw [hfilled] at hroom
  obtain ⟨len, hlen⟩ : ∃ len, len = UInt32.ofNat ((s.item f).rdBufExpectSize - filled.length -
      got.length) := ⟨_, rfl⟩
  have hle : len.toNat ≤ (s.item f).rdBufExpectSize - filled.length - got.length := by
    rw [hlen, UInt32.toNat_ofNat']
    exact Nat.mod_le _ _
  obtain ⟨c, hround, hc, hqueue, -, hother⟩ := Channel.read_round_spec (h.valid f) len
  dsimp only at hread
  rw [← hlen, hround] at hread
  have hsplit : (s.chan f .a).queue = (s.chan f .a).queue.take len.toNat ++ c.queue := by
    rw [hqueue, List.take_append_drop]
  refine ⟨filled, (s.chan f .a).queue.take len.toNat, c, hbuf, hother, hsplit,
    h.reading hcontrol hc hsplit ?_, ?_⟩
  · have htake := List.length_take_le len.toNat (s.chan f .a).queue
    rw [hfilled, List.length_append]
    omega
  · dsimp only at hread
    split at hread
    · cases hread
      exact .inl rfl
    · exact .inr hread

/-- One pass of a `sc_write` does not touch what the loop reads. -/
theorem write_round_cases (h : Carried s) (hidle : ∀ f, s.control.inCall f = []) {n : Nat}
    {rest : List (F × UInt16)} (hwrite : Mainloop.writeRound blocking s f n rest = some s') :
    Carried s' ∧ (∀ g, s'.chan g .a = s.chan g .a) ∧
      (∀ g, (s'.item g).rdBuf = (s.item g).rdBuf) ∧ s'.control.pending = rest := by
  have hitem : ∀ (s : Mainloop F C) b n g,
      ((s.setItem f ((s.item f).writeTurn b n)).item g).rdBuf = (s.item g).rdBuf := by
    intro s b n g
    unfold Mainloop.setItem
    dsimp only
    by_cases hg : g = f
    · subst hg
      rw [Function.update_self]
      exact (write_turn_reads ..).1
    · rw [Function.update_of_ne hg]
  have hfinish : ∀ {s : Mainloop F C} b n, Carried s → (∀ f, s.control.inCall f = []) →
      Carried ((s.setItem f ((s.item f).writeTurn b n)).goto (.parse rest)) := fun b n h hidle =>
    (h.same_item (write_turn_reads ..).1 (write_turn_reads ..).2).goto hidle fun _ => rfl
  unfold Mainloop.writeRound at hwrite
  split at hwrite
  · next b _ _ =>
    split at hwrite
    · split at hwrite
      · cases hwrite
        exact ⟨hfinish b 0 h hidle, fun _ => rfl, fun g => hitem s b 0 g, rfl⟩
      · cases hwrite
    · split at hwrite
      · cases hwrite
      · next taken c hround =>
        dsimp only at hwrite
        split at hwrite
        · cases hwrite
          exact ⟨h.set_chan_b.goto hidle fun _ => rfl, set_chan_b, fun _ => rfl, rfl⟩
        · cases hwrite
          exact ⟨hfinish b _ h.set_chan_b hidle, set_chan_b, fun g => hitem _ b _ g, rfl⟩
  · cases hwrite

theorem Carried.turn (h : Carried s) (hidle : ∀ f, s.control.inCall f = []) : Carried s.turn := by
  unfold Mainloop.turn
  split
  · exact h.goto hidle fun _ => rfl
  · split
    · exact h.goto hidle fun _ => rfl
    · have hsame : Carried { s with mainloopFdsChange := false } :=
        ⟨h.valid, h.bytes, h.part, h.room⟩
      exact hsame.goto hidle fun _ => rfl

/-- What looking at a result does: the loop goes on, or a callback is called. -/
theorem parse_cases {made : List (LoopCall F C)} {pending : List (F × UInt16)}
    (h : s.parse made pending = some s') :
    (∃ control, s' = s.goto control ∧ (∀ f, control.inCall f = []) ∧
      ∀ p ∈ control.pending, p ∈ pending.tail) ∨
    ∃ f got rest, pending = (f, got) :: rest ∧ got &&& selError ≠ 0 ∧
      Mainloop.calls made (s.goto (.parse rest)) = some s' := by
  cases pending with
  | nil =>
      cases h
      exact .inl ⟨.turn, rfl, fun _ => rfl, nofun⟩
  | cons p rest =>
      obtain ⟨f, got⟩ := p
      simp only [Mainloop.parse] at h
      split at h
      · cases h
        exact .inl ⟨.turn, rfl, fun _ => rfl, nofun⟩
      split at h
      · next herror => exact .inr ⟨f, got, rest, rfl, herror, h⟩
      split at h
      · cases h
        refine .inl ⟨.reading f [] rest, rfl, fun g => ?_, fun _ hp => hp⟩
        unfold LoopControl.inCall
        exact ite_self []
      split at h
      · cases h
        exact .inl ⟨.writing f 0 rest, rfl, fun _ => rfl, fun _ hp => hp⟩
      · cases h
        exact .inl ⟨.parse rest, rfl, fun _ => rfl, fun _ hp => hp⟩

theorem idle_of_control {control : LoopControl F} (h : s.control = control)
    (hidle : ∀ f, control.inCall f = []) : ∀ f, s.control.inCall f = [] := by
  rw [h]
  exact hidle

theorem Carried.step (h : Carried s) {event : LoopEvent F C}
    (hstep : s.step blocking event = some s') : Carried s' := by
  unfold Mainloop.step at hstep
  cases event with
  | turn =>
      dsimp only at hstep
      split at hstep
      · next hcontrol =>
        cases hstep
        exact h.turn (idle_of_control hcontrol fun _ => rfl)
      · cases hstep
  | outOfMemory =>
      dsimp only at hstep
      split at hstep
      · next hcontrol =>
        split at hstep
        · cases hstep
          exact h.goto (idle_of_control hcontrol fun _ => rfl) fun _ => rfl
        · cases hstep
      · cases hstep
  | select =>
      dsimp only at hstep
      split at hstep
      · next hcontrol =>
        split at hstep
        · cases hstep
          exact h.goto (idle_of_control hcontrol fun _ => rfl) fun _ => rfl
        · cases hstep
      · cases hstep
  | selectFails =>
      dsimp only at hstep
      split at hstep
      · next hcontrol =>
        cases hstep
        exact h.goto (idle_of_control hcontrol fun _ => rfl) fun _ => rfl
      · cases hstep
  | parse made =>
      dsimp only at hstep
      split at hstep
      · next hcontrol =>
        have hidle := idle_of_control hcontrol fun _ => rfl
        rcases parse_cases hstep with ⟨control, rfl, hto, -⟩ | ⟨f, got, rest, -, -, hcalls⟩
        · exact h.goto hidle hto
        · exact ((h.goto hidle fun _ => rfl).calls (fun _ => rfl) hcalls).1
      · cases hstep
  | readRound made =>
      dsimp only at hstep
      split at hstep
      · next hcontrol =>
        obtain ⟨filled, block, c, hbuf, -, -, hmid, rfl | hfinish⟩ :=
          read_round_cases h hcontrol hstep
        · exact hmid
        · exact (hmid.finish_read rfl hbuf hfinish).1
      · cases hstep
  | writeRound =>
      dsimp only at hstep
      split at hstep
      · next hcontrol =>
        exact (write_round_cases h (idle_of_control hcontrol fun _ => rfl) hstep).1
      · cases hstep
  | peerWrite f data =>
      dsimp only at hstep
      split at hstep
      · next hdata =>
        have hlen : (UInt32.ofNat data.length).toNat = data.length :=
          UInt32.toNat_ofNat_of_lt' (Nat.lt_of_le_of_lt hdata.2 (by decide))
        obtain ⟨taken, c, hround, -, hc, hqueue, -⟩ := Channel.write_round_spec (h.valid f)
          (UInt32.ofNat data.length) data (Nat.le_of_eq hlen) (by rw [hlen]; exact hdata.2)
        rw [hround] at hstep
        cases hstep
        exact h.peer_write hc hqueue
      · cases hstep
  | peerRead f len =>
      dsimp only at hstep
      split at hstep
      · split at hstep
        · cases hstep
        · cases hstep
          exact h.set_chan_b
      · cases hstep
  | peerClose f =>
      dsimp only at hstep
      split at hstep
      · cases hstep
        exact h.peer_close
      · cases hstep

end Carried

section Settled

variable {F C : Type} [DecidableEq F] {s s' : Mainloop F C} {blocking : F → Bool}

/-- The results that are left after the one that is looked at. -/
def LoopControl.later : LoopControl F → List (F × UInt16)
  | .parse pending => pending.tail
  | control => control.pending

/-- The argument of a `sc_select` that is about to be called. -/
def LoopControl.selecting : LoopControl F → List (F × UInt16)
  | .select selArg => selArg
  | _ => []

/-- The call sets a read buffer for the descriptor. -/
def LoopCall.expects (f : F) : LoopCall F C → Bool
  | .expect g _ _ => g = f
  | _ => false

/-- No peer that has closed has left bytes to read at the poll with which `sc_select` returns, and no
callback sets a read buffer for a descriptor with such a peer that is still to be looked at. -/
def NothingLeft (s : Mainloop F C) : LoopEvent F C → Prop
  | .select => ∀ arg ∈ s.control.selecting, s.opened arg.1 = false →
      (s.item arg.1).rdBuf.isSome → (s.chan arg.1 .a).queue = []
  | .parse made | .readRound made => ∀ call ∈ made, ∀ arg ∈ s.control.later,
      call.expects arg.1 → arg.2 &&& selError ≠ 0 → (s.chan arg.1 .a).queue = []
  | _ => True

/-- Where `sc_select` has reported an error, the peer has closed and a read buffer has nothing left
to read. -/
def Settled (s : Mainloop F C) : Prop :=
  ∀ f got, (f, got) ∈ s.control.pending → got &&& selError ≠ 0 →
    s.opened f = false ∧ ((s.item f).rdBuf.isSome → (s.chan f .a).queue = [])

omit [DecidableEq F] in
/-- A step that leaves closed peers closed and what they have left empty, and sets no other read
buffers. -/
theorem Settled.mono (h : Settled s) (hpending : ∀ p ∈ s'.control.pending, p ∈ s.control.pending)
    (hclosed : ∀ f, s.opened f = false → s'.opened f = false ∧
      ((s.chan f .a).queue = [] → (s'.chan f .a).queue = []))
    (hbuf : ∀ f got, (f, got) ∈ s'.control.pending → got &&& selError ≠ 0 →
      (s'.item f).rdBuf.isSome → (s.item f).rdBuf.isSome ∨ (s.chan f .a).queue = []) :
    Settled s' := by
  intro f got hp herror
  obtain ⟨hopened, hempty⟩ := h f got (hpending _ hp) herror
  obtain ⟨hopened', hqueue⟩ := hclosed f hopened
  exact ⟨hopened', fun hsome => hqueue ((hbuf f got hp herror hsome).elim hempty id)⟩

/-- Only `mainloop_expect` sets a read buffer. -/
theorem call_buf {c : LoopCall F C} (hcall : s.call c = some s') {f : F}
    (hsome : (s'.item f).rdBuf.isSome) :
    (s.item f).rdBuf.isSome ∨ c.expects f := by
  have hupdate : ∀ {g : F} {item : MainloopFd C},
      (item.rdBuf.isSome → (s.item g).rdBuf.isSome) →
      (Function.update s.item g item f).rdBuf.isSome → (s.item f).rdBuf.isSome := by
    intro g item hitem h
    by_cases hg : f = g
    · subst hg
      rw [Function.update_self] at h
      exact hitem h
    · rwa [Function.update_of_ne hg] at h
  cases c with
  | addFd g =>
      simp only [Mainloop.call] at hcall
      split at hcall
      · cases hcall
      · cases hcall
        refine .inl (hupdate (fun h => ?_) hsome)
        rwa [Option.isSome_map] at h
  | rmFd g =>
      simp only [Mainloop.call] at hcall
      split at hcall
      · cases hcall
        exact .inl hsome
      · cases hcall
  | expect g size cb =>
      cases hcall
      by_cases hg : f = g
      · exact .inr (decide_eq_true hg.symm)
      · refine .inl ?_
        change (Function.update s.item g _ f).rdBuf.isSome at hsome
        rwa [Function.update_of_ne hg] at hsome
  | nonblockingWrite g buf size mustFree =>
      simp only [Mainloop.call] at hcall
      split at hcall
      · next item hwrite =>
        cases hcall
        exact .inl (hupdate (fun h => (nonblocking_write_reads hwrite).1 ▸ h) hsome)
      · cases hcall
        exact .inl hsome
  | exit =>
      cases hcall
      exact .inl hsome

theorem calls_buf {made : List (LoopCall F C)} (hcalls : Mainloop.calls made s = some s') {f : F}
    (hsome : (s'.item f).rdBuf.isSome) :
    (s.item f).rdBuf.isSome ∨ ∃ call ∈ made, call.expects f := by
  induction made generalizing s with
  | nil =>
      cases hcalls
      exact .inl hsome
  | cons c made ih =>
      obtain ⟨mid, hcall, hrest⟩ := Option.bind_eq_some_iff.mp hcalls
      rcases ih hrest with hmid | ⟨call, hmem, hexpects⟩
      · rcases call_buf hcall hmid with hs | hexpects
        · exact .inl hs
        · exact .inr ⟨c, List.mem_cons_self .., hexpects⟩
      · exact .inr ⟨call, List.mem_cons_of_mem _ hmem, hexpects⟩

theorem poll_error {cs : Channels} (h : pollChannel cs &&& selError ≠ 0) :
    (cs .a).otherSide = none := by
  unfold pollChannel at h
  cases hother : (cs .a).otherSide with
  | none => rfl
  | some o =>
      rw [hother] at h
      dsimp only at h
      split at h <;> split at h <;> exact absurd rfl h

theorem finish_buf {f g : F} {filled got : List UInt8} {rest : List (F × UInt16)}
    {made : List (LoopCall F C)} (hbuf : (s.item f).rdBuf = some filled)
    (hfinish : s.finishRead f filled got rest made = some s') (hsome : (s'.item g).rdBuf.isSome) :
    (s.item g).rdBuf.isSome ∨ ∃ call ∈ made, call.expects g := by
  have hupdate : ∀ {item : MainloopFd C}, (Function.update s.item f item g).rdBuf.isSome →
      (s.item g).rdBuf.isSome := by
    intro item h
    by_cases hg : g = f
    · rw [hg, hbuf]
      rfl
    · rwa [Function.update_of_ne hg] at h
  unfold Mainloop.finishRead at hfinish
  split at hfinish
  · cases hfinish
    exact .inl (hupdate hsome)
  · obtain ⟨cb, -, hcalls⟩ := Option.bind_eq_some_iff.mp hfinish
    exact (calls_buf hcalls hsome).imp_left hupdate

theorem Settled.calls {made : List (LoopCall F C)} {rest : List (F × UInt16)} (h : Settled s)
    (hcarried : Carried s) (hcontrol : s.control = .parse rest)
    (hok : ∀ call ∈ made, ∀ arg ∈ rest, call.expects arg.1 → arg.2 &&& selError ≠ 0 →
      (s.chan arg.1 .a).queue = []) (hcalls : Mainloop.calls made s = some s') : Settled s' := by
  obtain ⟨-, hsame⟩ := hcarried.calls (idle_of_control hcontrol fun _ => rfl) hcalls
  refine h.mono (fun p hp => hsame.control ▸ hp) (fun f hf => ?_) fun f got hp herror hsome => ?_
  · unfold Mainloop.opened
    rw [hsame.chan]
    exact ⟨hf, id⟩
  · rw [hsame.control, hcontrol] at hp
    exact (calls_buf hcalls hsome).imp_right fun ⟨call, hmem, hexpects⟩ =>
      hok call hmem (f, got) hp hexpects herror

theorem Settled.parse {pending : List (F × UInt16)} {made : List (LoopCall F C)} (h : Settled s)
    (hcarried : Carried s) (hcontrol : s.control = .parse pending)
    (hok : NothingLeft s (.parse made)) (hstep : s.parse made pending = some s') : Settled s' := by
  have hidle := idle_of_control hcontrol fun _ => rfl
  have htail : ∀ p ∈ pending.tail, p ∈ s.control.pending := fun p hp => by
    rw [hcontrol]
    exact List.mem_of_mem_tail hp
  rcases parse_cases hstep with ⟨control, rfl, -, hpending⟩ | ⟨f, got, rest, rfl, -, hcalls⟩
  · exact h.mono (fun p hp => htail p (hpending p hp)) (fun f hf => ⟨hf, id⟩)
      fun f got _ _ hsome => .inl hsome
  · have hmid : Settled (s.goto (.parse rest)) :=
      h.mono htail (fun f hf => ⟨hf, id⟩) fun f got _ _ hsome => .inl hsome
    simp only [NothingLeft, hcontrol] at hok
    exact hmid.calls (hcarried.goto hidle fun _ => rfl) rfl hok hcalls

/-- What a pass of a read takes is gone from its channel, and an event may follow. -/
theorem Settled.read_round {f : F} {got : List UInt8} {rest : List (F × UInt16)}
    {made : List (LoopCall F C)} (h : Settled s) (hcarried : Carried s)
    (hcontrol : s.control = .reading f got rest) (hok : NothingLeft s (.readRound made))
    (hstep : Mainloop.readRound blocking s f got rest made = some s') : Settled s' := by
  obtain ⟨filled, block, c, hbuf, hother, hqueue, hcarried', hread⟩ :=
    read_round_cases hcarried hcontrol hstep
  have hclosed : ∀ g, s.opened g = false → (s.setChan f .a c).opened g = false ∧
      ((s.chan g .a).queue = [] → ((s.setChan f .a c).chan g .a).queue = []) := by
    intro g hg
    unfold Mainloop.opened
    by_cases hgf : g = f
    · subst hgf
      rw [set_chan_self, hother]
      refine ⟨hg, fun hnil => ?_⟩
      rw [hqueue] at hnil
      exact (List.append_eq_nil_iff.mp hnil).2
    · rw [set_chan_of_ne (.inl hgf)]
      exact ⟨hg, id⟩
  have hpending : ∀ p ∈ rest, p ∈ s.control.pending := fun p hp => by
    rw [hcontrol]
    exact hp
  rcases hread with rfl | hfinish
  · exact h.mono hpending hclosed fun g got _ _ hsome => .inl hsome
  · obtain ⟨-, hchan, hparse⟩ := hcarried'.finish_read rfl hbuf hfinish
    refine h.mono (fun p hp => ?_) (fun g hg => ?_) fun g flags hp herror hsome => ?_
    · rw [hparse] at hp
      exact hpending p hp
    · unfold Mainloop.opened
      rw [hchan]
      exact hclosed g hg
    · rw [hparse] at hp
      simp only [NothingLeft, hcontrol] at hok
      have hbuf' : (((s.setChan f .a c).goto (.reading f (got ++ block) rest)).item f).rdBuf =
          some filled := hbuf
      exact (finish_buf hbuf' hfinish hsome).imp_right fun ⟨call, hmem, hexpects⟩ =>
        hok call hmem (g, flags) hp hexpects herror

theorem Settled.step (h : Settled s) (hcarried : Carried s) {event : LoopEvent F C}
    (hok : NothingLeft s event) (hstep : s.step blocking event = some s') : Settled s' := by
  have hquiet : ∀ {control : LoopControl F}, control.pending = [] → Settled (s.goto control) := by
    intro control hnil f got hp
    change (f, got) ∈ control.pending at hp
    rw [hnil] at hp
    cases hp
  unfold Mainloop.step at hstep
  cases event with
  | turn =>
      dsimp only at hstep
      split at hstep
      · cases hstep
        unfold Mainloop.turn
        split
        · exact hquiet rfl
        · split
          · exact hquiet rfl
          · exact nofun
      · cases hstep
  | outOfMemory =>
      dsimp only at hstep
      split at hstep
      · split at hstep
        · cases hstep
          exact hquiet rfl
        · cases hstep
      · cases hstep
  | select =>
      dsimp only at hstep
      split at hstep
      · next selArg hcontrol =>
        split at hstep
        · cases hstep
          intro f got hp herror
          obtain ⟨arg, harg, heq⟩ := List.mem_map.mp hp
          cases heq
          have hopened : s.opened arg.1 = false := by
            unfold Mainloop.opened
            rw [poll_error herror]
            rfl
          simp only [NothingLeft, hcontrol] at hok
          exact ⟨hopened, hok arg harg hopened⟩
        · cases hstep
      · cases hstep
  | selectFails =>
      dsimp only at hstep
      split at hstep
      · cases hstep
        exact hquiet rfl
      · cases hstep
  | parse made =>
      dsimp only at hstep
      split at hstep
      · next hcontrol => exact h.parse hcarried hcontrol hok hstep
      · cases hstep
  | readRound made =>
      dsimp only at hstep
      split at hstep
      · next hcontrol => exact h.read_round hcarried hcontrol hok hstep
      · cases hstep
  | writeRound =>
      dsimp only at hstep
      split at hstep
      · next f n rest hcontrol =>
        obtain ⟨-, hchan, hbuf, hpending⟩ :=
          write_round_cases hcarried (idle_of_control hcontrol fun _ => rfl) hstep
        refine h.mono (fun p hp => ?_) (fun g hg => ?_) fun g got _ _ hsome => .inl (hbuf g ▸ hsome)
        · rw [hcontrol]
          rwa [hpending] at hp
        · unfold Mainloop.opened
          rw [hchan]
          exact ⟨hg, id⟩
      · cases hstep
  | peerWrite f data =>
      dsimp only at hstep
      split at hstep
      · next hopened =>
        split at hstep
        · cases hstep
        · next taken c hround =>
          cases hstep
          refine h.mono (fun _ hp => hp) (fun g hg => ?_) fun g got _ _ hsome => .inl hsome
          have hgf : g ≠ f := fun heq => by
            rw [heq, hopened.1] at hg
            cases hg
          change (s.setChan f .a c).opened g = false ∧
            ((s.chan g .a).queue = [] → ((s.setChan f .a c).chan g .a).queue = [])
          unfold Mainloop.opened
          rw [set_chan_of_ne (.inl hgf)]
          exact ⟨hg, id⟩
      · cases hstep
  | peerRead f len =>
      dsimp only at hstep
      split at hstep
      · split at hstep
        · cases hstep
        · cases hstep
          refine h.mono (fun _ hp => hp) (fun g hg => ?_) fun g got _ _ hsome => .inl hsome
          unfold Mainloop.opened
          rw [set_chan_b]
          exact ⟨hg, id⟩
      · cases hstep
  | peerClose f =>
      dsimp only at hstep
      split at hstep
      · next hopened =>
        cases hstep
        refine h.mono (fun _ hp => hp) (fun g hg => ?_) fun g got _ _ hsome => .inl hsome
        have hgf : g ≠ f := fun heq => by
          rw [heq, hopened] at hg
          cases hg
        unfold Mainloop.opened
        rw [set_chan_of_ne (.inl hgf)]
        exact ⟨hg, id⟩
      · cases hstep

end Settled

section Runs

variable {F C : Type} [DecidableEq F] {s : Mainloop F C} {blocking : F → Bool}

/-- `mainloop_run` is called. The descriptors and their channels are in any state, and what is in
the read buffers and the channels is what the peers have sent. -/
structure Mainloop.Initial (s : Mainloop F C) : Prop where
  control : s.control = .turn
  mainloopFdsChange : s.mainloopFdsChange = true
  mainloopMustExit : s.mainloopMustExit = false
  notes : s.notes = []
  valid : ∀ f, (s.chan f .a).Valid
  sent : ∀ f, s.sent f = (s.item f).filled ++ (s.chan f .a).queue
  part : ∀ f, (s.item f).filled.length < (s.item f).rdBufExpectSize ∨ (s.item f).filled = []

omit [DecidableEq F] in
theorem Settled.of_initial (h : s.Initial) : Settled s := by
  intro f got hp
  rw [h.control] at hp
  cases hp

theorem Carried.of_initial (h : s.Initial) : Carried s := by
  refine .of_idle (idle_of_control h.control fun _ => rfl) h.valid (fun f => ?_) h.part
  rw [h.sent f, h.notes]
  rfl

/-- In every run in which no peer has closed and left bytes to read when `sc_select` is called, what
a peer has sent is, in order, what was delivered or dropped, what is in the read buffer and what
is in the channel; and where `on_error` is about to be called for a descriptor with a read buffer,
the channel is empty, and the buffer holds less than the message that is expected. -/
theorem mainloop_delivers
    (h : Reachable (eventRuns Mainloop.Initial (Mainloop.step blocking) NothingLeft) s) :
    (∀ f, s.sent f = takenBy f s.notes ++ ((s.item f).filled ++ s.control.inCall f) ++
      (s.chan f .a).queue) ∧
    ∀ f got rest filled, s.control = .parse ((f, got) :: rest) → s.mainloopFdsChange = false →
      got &&& selError ≠ 0 → (s.item f).rdBuf = some filled →
      (s.chan f .a).queue = [] ∧ s.sent f = takenBy f s.notes ++ filled ∧
        (filled.length < (s.item f).rdBufExpectSize ∨ filled = []) := by
  obtain ⟨hcarried, hsettled⟩ : Carried s ∧ Settled s := by
    refine Reachable.induct (motive := fun s => Carried s ∧ Settled s)
      (fun s hinit => ⟨.of_initial hinit, .of_initial hinit⟩) (fun s s' hs hstep => ?_) h
    obtain ⟨event, hok, hstep⟩ := hstep
    exact ⟨hs.1.step hstep, hs.2.step hs.1 hok hstep⟩
  refine ⟨hcarried.bytes, fun f got rest filled hcontrol _ herror hbuf => ?_⟩
  have hfilled : (s.item f).filled = filled := by
    rw [MainloopFd.filled, hbuf]
    rfl
  have hmem : (f, got) ∈ s.control.pending := by
    rw [hcontrol]
    exact List.mem_cons_self ..
  have hqueue : (s.chan f .a).queue = [] :=
    (hsettled f got hmem herror).2 (by rw [hbuf]; rfl)
  refine ⟨hqueue, ?_, hfilled ▸ hcarried.part f⟩
  rw [hcarried.bytes_idle (idle_of_control hcontrol fun _ => rfl) f, hqueue, hfilled,
    List.append_nil]

end Runs

section Examples

instance {F C : Type} [DecidableEq F] (s : Mainloop F C) :
    (event : LoopEvent F C) → Decidable (NothingLeft s event)
  | .select => inferInstanceAs (Decidable (∀ arg ∈ s.control.selecting, s.opened arg.1 = false →
      (s.item arg.1).rdBuf.isSome → (s.chan arg.1 .a).queue = []))
  | .parse made | .readRound made => inferInstanceAs (Decidable (∀ call ∈ made,
      ∀ arg ∈ s.control.later, call.expects arg.1 → arg.2 &&& selError ≠ 0 →
        (s.chan arg.1 .a).queue = []))
  | .turn | .outOfMemory | .selectFails | .writeRound | .peerWrite _ _ | .peerRead _ _
  | .peerClose _ => inferInstanceAs (Decidable True)

/-- A main loop with a descriptor that expects two bytes from a fresh channel. -/
def Mainloop.expecting : Mainloop Unit Unit where
  mainloopFds := [()]
  mainloopFdsChange := true
  mainloopMustExit := false
  item := fun _ => MainloopFd.zero.expect 2 ()
  chan := fun _ => makeChannel fun _ => .replicate 200 0
  control := .turn
  sent := fun _ => []
  notes := []

theorem initial_expecting : Mainloop.expecting.Initial where
  control := rfl
  mainloopFdsChange := rfl
  mainloopMustExit := rfl
  notes := rfl
  valid := fun _ => (quiet_make_channel fun _ => .replicate 200 0).valid .a
  sent := fun _ => rfl
  part := fun _ => .inr rfl

/-- The peer writes the message, which is read and delivered, and one more byte, which is read too,
and closes. -/
theorem mainloop_delivers_message : ∃ s : Mainloop Unit Unit,
    s.control = .parse [((), selError)] ∧ s.notes = [.full () () [1, 2]] ∧
      s.sent () = takenBy () s.notes ++ [3] := by
  have hrun : (runEvents (Mainloop.step fun _ => false)
      (fun (s : Mainloop Unit Unit) event => decide (NothingLeft s event))
      [.peerWrite () [1, 2], .turn, .select, .parse [], .readRound [], .parse [],
        .peerWrite () [3], .turn, .select, .parse [], .readRound [], .parse [], .peerClose (),
        .turn, .select] Mainloop.expecting).map
      (fun s => decide (s.control = .parse [((), selError)] ∧ s.notes = [.full () () [1, 2]] ∧
        s.mainloopFdsChange = false ∧ (s.item ()).rdBuf = some [3])) = some true := by
    decide +kernel
  obtain ⟨s, hrun, hend⟩ := Option.map_eq_some_iff.mp hrun
  obtain ⟨hcontrol, hnotes, hchange, hbuf⟩ := of_decide_eq_true hend
  exact ⟨s, hcontrol, hnotes, ((mainloop_delivers (Reachable.run_events
    (fun s event hpass => of_decide_eq_true hpass) (.init initial_expecting) hrun)).2 () selError []
      [3] hcontrol hchange nofun hbuf).2.1⟩

/-- The peer writes the message and closes before the loop has read anything: `on_error` is about to
be called, and the message is still in the channel. -/
theorem mainloop_loses_message :
    ¬ ∀ s : Mainloop Unit Unit,
      Reachable (eventRuns Mainloop.Initial (Mainloop.step fun _ => false) fun _ _ => True) s →
      ∀ f got rest, s.control = .parse ((f, got) :: rest) → s.mainloopFdsChange = false →
        got &&& selError ≠ 0 → (s.item f).rdBuf.isSome → (s.chan f .a).queue = [] := by
  intro hclaim
  have hrun : (runEvents (Mainloop.step fun _ => false) (fun _ _ => true)
      [.peerWrite () [1, 2], .peerClose (), .turn, .select] Mainloop.expecting).map
      (fun s => decide (s.control = .parse [((), selError ||| selRead)] ∧
        s.mainloopFdsChange = false ∧ (s.item ()).rdBuf = some [] ∧
        (s.chan () .a).queue = [1, 2])) = some true := by
    decide +kernel
  obtain ⟨s, hrun, hend⟩ := Option.map_eq_some_iff.mp hrun
  obtain ⟨hcontrol, hchange, hbuf, hqueue⟩ := of_decide_eq_true hend
  have hnil := hclaim s (Reachable.run_events (fun _ _ _ => trivial) (.init initial_expecting) hrun)
    () (selError ||| selRead) [] hcontrol hchange nofun (by rw [hbuf]; rfl)
  rw [hqueue] at hnil
  cases hnil

end Examples

end Kogata.User
