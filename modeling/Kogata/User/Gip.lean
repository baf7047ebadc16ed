import Mathlib.Logic.Relation
import Kogata.User.Mainloop

/-!
# GIP messages

The messages of `lib/libkogata/gip.c`. A message is a header of twelve bytes, which three codes
follow with a payload. `gip_send_msg` puts it in the write slots of the handler's
`mainloop_fd_t`; at the other end `giph_msg_header` is called with the header and changes what
is expected next if a payload follows. The main theorem, `gip_framing`, is about two handlers at
the ends of a channel, each of which sends, writes and reads in any order. The callbacks get a
pointer to the header and do not write to it here; for one that does see `Kogata.User.GipRequests`.
-/

namespace Kogata.User

/-- `gip_msg_header`. -/
structure GipMsgHeader where
  code : UInt32
  reqId : UInt32
  arg : UInt32
  deriving DecidableEq

/-- The four bytes of a `uint32_t`. -/
def wordBytes (x : UInt32) : List UInt8 :=
  [UInt8.ofNat x.toNat, UInt8.ofNat (x.toNat / 256), UInt8.ofNat (x.toNat / 65536),
    UInt8.ofNat (x.toNat / 16777216)]

/-- The `uint32_t` at a place of a buffer. -/
def wordAt (bytes : List UInt8) (i : Nat) : UInt32 :=
  UInt32.ofNat ((bytes.getD i 0).toNat + 256 * (bytes.getD (i + 1) 0).toNat +
    65536 * (bytes.getD (i + 2) 0).toNat + 16777216 * (bytes.getD (i + 3) 0).toNat)

/-- `sizeof(gip_msg_header)`. -/
abbrev sizeofGipMsgHeader : Nat := 12

namespace GipMsgHeader

/-- The bytes of a header. -/
def bytes (m : GipMsgHeader) : List UInt8 :=
  wordBytes m.code ++ wordBytes m.reqId ++ wordBytes m.arg

/-- The header that bytes are. -/
def ofBytes (b : List UInt8) : GipMsgHeader where
  code := wordAt b 0
  reqId := wordAt b 4
  arg := wordAt b 8

end GipMsgHeader

abbrev gipcReset : UInt32 := 0
abbrev giprInitiate : UInt32 := 1
abbrev giprOk : UInt32 := 2
abbrev giprFailure : UInt32 := 3
abbrev gipcEnableFeatures : UInt32 := 4
abbrev gipcDisableFeatures : UInt32 := 5
abbrev gipnBufferInfo : UInt32 := 10
abbrev gipcQueryMode : UInt32 := 11
abbrev giprModeInfo : UInt32 := 12
abbrev gipcSetMode : UInt32 := 13
abbrev gipnBufferDamage : UInt32 := 14
abbrev gipcSwitchBuffer : UInt32 := 15
abbrev gipnKeyDown : UInt32 := 20
abbrev gipnKeyUp : UInt32 := 21

/-- `sizeof(gip_buffer_info_msg)`: a token and a geometry. -/
abbrev sizeofGipBufferInfoMsg : Nat := 16 + 20

/-- `sizeof(gip_mode_info_msg)`. -/
abbrev sizeofGipModeInfoMsg : Nat := 20

/-- `sizeof(gip_buffer_damage_msg)`. -/
abbrev sizeofGipBufferDamageMsg : Nat := 16

/-- The pointers of `gip_handler_callbacks_t` to which a message may go. -/
inductive GipCallback
  | reset | initiate | ok | failure | enableFeatures | disableFeatures | queryMode | setMode
  | switchBuffer | keyDown | keyUp | bufferInfo | modeInfo | bufferDamage | unknownMsg
  deriving DecidableEq

/-- The functions that `rd_on_full` may be. -/
inductive Giph
  | msgHeader
  | bufferInfo
  | modeInfo
  | bufferDamage
  deriving DecidableEq

/-- What a handler does with a message: it calls one of its callbacks, or `giph_got_reply`. -/
inductive GipEvent
  | call (cb : GipCallback) (m : GipMsgHeader) (payload : List UInt8)
  | gotReply (m : GipMsgHeader) (payload : List UInt8)
  deriving DecidableEq

/-- The fields of a `gip_handler_t` that messages go through, and what has been done with the
messages so far. -/
structure GipHandler where
  msgBuf : GipMsgHeader
  mainloopItem : MainloopFd Giph
  events : List GipEvent
  deriving DecidableEq

/-- `new_gip_handler`. -/
def newGipHandler : GipHandler where
  msgBuf := ⟨0, 0, 0⟩
  mainloopItem := MainloopFd.zero.expect sizeofGipMsgHeader .msgHeader
  events := []

/-- `extra_size` in `gip_send_msg`. -/
def extraSize (code : UInt32) : Nat :=
  let extra := 0
  let extra := if code = gipnBufferInfo then sizeofGipBufferInfoMsg else extra
  let extra := if code = giprModeInfo then sizeofGipModeInfoMsg else extra
  if code = gipnBufferDamage then sizeofGipBufferDamageMsg else extra

namespace GipHandler

/-- `gip_send_msg`, where `malloc` says whether there is memory for the copy. -/
def sendMsg (h : GipHandler) (malloc : Bool) (m : GipMsgHeader) (msgData : List UInt8) :
    Bool × GipHandler :=
  if malloc then
    let buf := m.bytes ++ msgData.take (extraSize m.code)
    match h.mainloopItem.nonblockingWrite buf (sizeofGipMsgHeader + extraSize m.code) true with
    | some item => (true, { h with mainloopItem := item })
    | none => (false, h)
  else (false, h)

/-- A message goes to one of the callbacks, with the header in the buffer and what follows it. A
pointer that is null is not called. -/
def call (h : GipHandler) (cb : GipCallback) (payload : List UInt8) : GipHandler :=
  { h with events := h.events ++ [.call cb h.msgBuf payload] }

/-- `giph_got_reply` is called with the header in the buffer. -/
def gotReply (h : GipHandler) (payload : List UInt8) : GipHandler :=
  { h with events := h.events ++ [.gotReply h.msgBuf payload] }

/-- `mainloop_expect` of the handler's item. -/
def expect (h : GipHandler) (size : Nat) (cb : Giph) : GipHandler :=
  { h with mainloopItem := h.mainloopItem.expect size cb }

/-- `giph_msg_header`, after the header has been read. -/
def msgHeader (h : GipHandler) : GipHandler :=
  let code := h.msgBuf.code
  if code = gipcReset then h.call .reset []
  else if code = giprInitiate then (h.gotReply []).call .initiate []
  else if code = giprOk then (h.gotReply []).call .ok []
  else if code = giprFailure then (h.gotReply []).call .failure []
  else if code = gipcEnableFeatures then h.call .enableFeatures []
  else if code = gipcDisableFeatures then h.call .disableFeatures []
  else if code = gipcQueryMode then h.call .queryMode []
  else if code = gipcSetMode then h.call .setMode []
  else if code = gipcSwitchBuffer then h.call .switchBuffer []
  else if code = gipnBufferInfo then h.expect sizeofGipBufferInfoMsg .bufferInfo
  else if code = giprModeInfo then h.expect sizeofGipModeInfoMsg .modeInfo
  else if code = gipnBufferDamage then h.expect sizeofGipBufferDamageMsg .bufferDamage
  else if code = gipnKeyDown then h.call .keyDown []
  else if code = gipnKeyUp then h.call .keyUp []
  else h.call .unknownMsg []

/-- `giph_buffer_info`. -/
def bufferInfo (h : GipHandler) (payload : List UInt8) : GipHandler :=
  (h.call .bufferInfo payload).expect sizeofGipMsgHeader .msgHeader

/-- `giph_mode_info`. -/
def modeInfo (h : GipHandler) (payload : List UInt8) : GipHandler :=
  ((h.call .modeInfo payload).gotReply payload).expect sizeofGipMsgHeader .msgHeader

/-- `giph_buffer_damage`. -/
def bufferDamage (h : GipHandler) (payload : List UInt8) : GipHandler :=
  (h.call .bufferDamage payload).expect sizeofGipMsgHeader .msgHeader

/-- `rd_on_full`, called with the bytes of the buffer that is full. -/
def onFull (h : GipHandler) : Giph → List UInt8 → GipHandler
  | .msgHeader, full => { h with msgBuf := GipMsgHeader.ofBytes full }.msgHeader
  | .bufferInfo, full => h.bufferInfo full
  | .modeInfo, full => h.modeInfo full
  | .bufferDamage, full => h.bufferDamage full

/-- The branch of `mainloop_run` that reads, when `sc_read` gives `got`; `none` where the function
to call is a null pointer. -/
def read (h : GipHandler) (filled got : List UInt8) : Option GipHandler :=
  match h.mainloopItem.readTurn filled got with
  | (item, none) => some { h with mainloopItem := item }
  | (item, some (cb, full)) => cb.map fun f => { h with mainloopItem := item }.onFull f full

/-- The branch of `mainloop_run` that writes, when `sc_write` takes `n` bytes. -/
def write (h : GipHandler) (b : WrBuf) (n : Nat) : GipHandler :=
  { h with mainloopItem := h.mainloopItem.writeTurn b n }

end GipHandler

/-- A message that was accepted: its header and its payload. -/
abbrev GipMsg : Type := GipMsgHeader × List UInt8

/-- The callback of a code. -/
def callbackOf (code : UInt32) : GipCallback :=
  if code = gipcReset then .reset
  else if code = giprInitiate then .initiate
  else if code = giprOk then .ok
  else if code = giprFailure then .failure
  else if code = gipcEnableFeatures then .enableFeatures
  else if code = gipcDisableFeatures then .disableFeatures
  else if code = gipnBufferInfo then .bufferInfo
  else if code = gipcQueryMode then .queryMode
  else if code = giprModeInfo then .modeInfo
  else if code = gipcSetMode then .setMode
  else if code = gipnBufferDamage then .bufferDamage
  else if code = gipcSwitchBuffer then .switchBuffer
  else if code = gipnKeyDown then .keyDown
  else if code = gipnKeyUp then .keyUp
  else .unknownMsg

/-- What is to be done with a message. -/
def gipEvents (x : GipMsg) : List GipEvent :=
  if x.1.code = giprModeInfo then [.call .modeInfo x.1 x.2, .gotReply x.1 x.2]
  else if x.1.code ∈ [giprInitiate, giprOk, giprFailure] then
    [.gotReply x.1 x.2, .call (callbackOf x.1.code) x.1 x.2]
  else [.call (callbackOf x.1.code) x.1 x.2]

/-- The pairs that go to callbacks. -/
def GipEvent.called? : GipEvent → Option (GipCallback × GipMsg)
  | .call cb m payload => some (cb, m, payload)
  | .gotReply _ _ => none

/-- What the callbacks of a handler have been called with. -/
def GipHandler.dispatched (h : GipHandler) : List (GipCallback × GipMsg) :=
  h.events.filterMap GipEvent.called?

/-- Two handlers at the ends of a channel: the bytes that each has written and the other has not
read, and the messages that `gip_send_msg` has accepted at each. -/
structure GipLink where
  handler : Bool → GipHandler
  stream : Bool → List UInt8
  accepted : Bool → List GipMsg

namespace GipLink

/-- Two new handlers. -/
def new : GipLink where
  handler _ := newGipHandler
  stream _ := []
  accepted _ := []

/-- `gip_send_msg` at an end. -/
def send (l : GipLink) (s malloc : Bool) (m : GipMsgHeader) (msgData : List UInt8) : GipLink :=
  let (ok, h) := (l.handler s).sendMsg malloc m msgData
  { l with
    handler := Function.update l.handler s h
    accepted := if ok then
        Function.update l.accepted s (l.accepted s ++ [(m, msgData.take (extraSize m.code))])
      else l.accepted }

/-- The channel takes `n` bytes of the first slot. -/
def write (l : GipLink) (s : Bool) (b : WrBuf) (n : Nat) : GipLink :=
  { l with
    handler := Function.update l.handler s ((l.handler s).write b n)
    stream := Function.update l.stream s (l.stream s ++ (b.buf.drop b.written).take n) }

/-- An end has read `n` of the bytes that the other has written. -/
def read (l : GipLink) (s : Bool) (h : GipHandler) (n : Nat) : GipLink :=
  { l with
    handler := Function.update l.handler s h
    stream := Function.update l.stream (!s) ((l.stream (!s)).drop n) }

end GipLink

/-- What may happen next: the reads and writes may be of any size that `mainloop_run` asks for. -/
inductive GipStep (l : GipLink) : GipLink → Prop
  | send (s malloc : Bool) (m : GipMsgHeader) (msgData : List UInt8)
      (hdata : extraSize m.code ≤ msgData.length) : GipStep l (l.send s malloc m msgData)
  | write (s : Bool) (b : WrBuf) (rest : List (Option WrBuf)) (n : Nat)
      (hslots : (l.handler s).mainloopItem.wrBufs = some b :: rest)
      (hn : n ≤ b.size - b.written) : GipStep l (l.write s b n)
  | read (s : Bool) (filled : List UInt8) (n : Nat) (h : GipHandler)
      (hbuf : (l.handler s).mainloopItem.rdBuf = some filled)
      (hn : n ≤ (l.handler s).mainloopItem.rdBufExpectSize - filled.length)
      (hstream : n ≤ (l.stream (!s)).length)
      (hread : (l.handler s).read filled ((l.stream (!s)).take n) = some h) :
      GipStep l (l.read s h n)

section Words

theorem word_of_bytes (x : UInt32) (rest : List UInt8) : wordAt (wordBytes x ++ rest) 0 = x := by
  rw [← UInt32.toNat_inj]
  have hlt := x.toNat_lt
  simp only [wordAt, wordBytes, List.cons_append, List.getD_cons_zero, List.getD_cons_succ,
    UInt8.toNat_ofNat', UInt32.toNat_ofNat']
  omega

theorem word_at_drop (bytes : List UInt8) (i : Nat) : wordAt bytes i = wordAt (bytes.drop i) 0 := by
  simp only [wordAt, List.getD_eq_getElem?_getD, List.getElem?_drop, Nat.add_zero, Nat.zero_add]

theorem header_length (m : GipMsgHeader) : m.bytes.length = sizeofGipMsgHeader := rfl

/-- A header is read back from its bytes. -/
theorem header_of_bytes (m : GipMsgHeader) : GipMsgHeader.ofBytes m.bytes = m := by
  have hcode : wordAt m.bytes 0 = m.code := by
    rw [GipMsgHeader.bytes, List.append_assoc, word_of_bytes]
  have hreq : wordAt m.bytes 4 = m.reqId := by
    rw [word_at_drop]
    exact word_of_bytes m.reqId (wordBytes m.arg)
  have harg : wordAt m.bytes 8 = m.arg := by
    rw [word_at_drop]
    exact word_of_bytes m.arg []
  rw [GipMsgHeader.ofBytes, hcode, hreq, harg]

end Words

section Messages

variable {h : GipHandler}

/-- The function that reads the payload of a code. -/
def giphOf (code : UInt32) : Giph :=
  if code = gipnBufferInfo then .bufferInfo
  else if code = giprModeInfo then .modeInfo
  else .bufferDamage

/-- The codes that have a payload are the same at both ends. -/
theorem extra_size_ne_zero {code : UInt32} :
    extraSize code ≠ 0 ↔ code = gipnBufferInfo ∨ code = giprModeInfo ∨ code = gipnBufferDamage := by
  unfold extraSize
  dsimp only
  split_ifs with hdamage hmode hinfo
  · exact iff_of_true nofun (.inr (.inr hdamage))
  · exact iff_of_true nofun (.inr (.inl hmode))
  · exact iff_of_true nofun (.inl hinfo)
  · exact iff_of_false (fun hne => hne rfl) (by rintro (h | h | h) <;> contradiction)

theorem msg_header_payload (hextra : extraSize h.msgBuf.code ≠ 0) :
    h.msgHeader = h.expect (extraSize h.msgBuf.code) (giphOf h.msgBuf.code) := by
  unfold GipHandler.msgHeader
  rcases extra_size_ne_zero.mp hextra with hcode | hcode | hcode <;> rw [hcode] <;> rfl

theorem call_after_reply (cb : GipCallback) (payload : List UInt8) :
    (h.gotReply payload).call cb payload =
      { h with
        events := h.events ++ [.gotReply h.msgBuf payload, .call cb h.msgBuf payload] } := by
  unfold GipHandler.call GipHandler.gotReply
  dsimp only
  rw [List.append_assoc]
  rfl

theorem msg_header_alone (hextra : extraSize h.msgBuf.code = 0) :
    h.msgHeader = { h with events := h.events ++ gipEvents (h.msgBuf, []) } := by
  have hnone := mt extra_size_ne_zero.mpr (fun hne => hne hextra)
  rw [not_or, not_or] at hnone
  unfold GipHandler.msgHeader gipEvents
  simp only [call_after_reply]
  by_cases hknown : h.msgBuf.code ∈ [gipcReset, giprInitiate, giprOk, giprFailure,
      gipcEnableFeatures, gipcDisableFeatures, gipcQueryMode, gipcSetMode, gipcSwitchBuffer,
      gipnKeyDown, gipnKeyUp]
  · simp only [List.mem_cons, List.not_mem_nil, or_false] at hknown
    rcases hknown with hcode | hcode | hcode | hcode | hcode | hcode | hcode | hcode | hcode |
      hcode | hcode
    all_goals
      rw [hcode]
      rfl
  · simp only [List.mem_cons, List.not_mem_nil, or_false, not_or] at hknown
    unfold callbackOf
    simp only [hknown, hnone, List.mem_cons, List.not_mem_nil, or_false, if_false]
    rfl

theorem on_full_payload {full : List UInt8} (hextra : extraSize h.msgBuf.code ≠ 0) :
    h.onFull (giphOf h.msgBuf.code) full =
      { h with events := h.events ++ gipEvents (h.msgBuf, full) }.expect
        sizeofGipMsgHeader .msgHeader := by
  rcases extra_size_ne_zero.mp hextra with hcode | hcode | hcode
  all_goals
    unfold gipEvents
    rw [hcode]
  · rfl
  · change (GipHandler.expect _ _ _) = _
    unfold GipHandler.call GipHandler.gotReply
    dsimp only
    rw [List.append_assoc]
    rfl
  · rfl

theorem called_events (x : GipMsg) :
    (gipEvents x).filterMap GipEvent.called? = [(callbackOf x.1.code, x)] := by
  unfold gipEvents
  split_ifs with hmode hreply
  · rw [hmode]
    rfl
  · rfl
  · rfl

theorem called_flat_map (ms : List GipMsg) :
    (ms.flatMap gipEvents).filterMap GipEvent.called? =
      ms.map fun x => (callbackOf x.1.code, x) := by
  induction ms with
  | nil => rfl
  | cons x rest ih =>
      rw [List.flatMap_cons, List.filterMap_append, ih, called_events]
      rfl

end Messages

section Framing

/-- The bytes of messages. -/
def frames (ms : List GipMsg) : List UInt8 := ms.flatMap fun x => x.1.bytes ++ x.2

/-- The item waits for a buffer of `size` bytes, has `filled`, and will call `f`. -/
structure Expecting (h : GipHandler) (filled : List UInt8) (size : Nat) (f : Giph) : Prop where
  buf : h.mainloopItem.rdBuf = some filled
  expectSize : h.mainloopItem.rdBufExpectSize = size
  onFull : h.mainloopItem.rdOnFull = some f
  part : filled.length < size

/-- Of the messages `rest`, which are not dispatched, the handler has the first bytes, and the
bytes `ahead` are all the others. -/
inductive Reading (h : GipHandler) (rest : List GipMsg) (ahead : List UInt8) : Prop
  | header (filled : List UInt8) (hexpect : Expecting h filled sizeofGipMsgHeader .msgHeader)
      (hbytes : frames rest = filled ++ ahead)
  | payload (filled : List UInt8) (x : GipMsg) (more : List GipMsg) (hrest : rest = x :: more)
      (hmsg : h.msgBuf = x.1)
      (hexpect : Expecting h filled (extraSize x.1.code) (giphOf x.1.code))
      (hbytes : x.2 ++ frames more = filled ++ ahead)

/-- The messages that one end has accepted: `done` are dispatched at the other end, and the bytes
of the rest are there, in the channel and in the slots, in this order. -/
structure Framed (out inn : GipHandler) (stream : List UInt8) (accepted : List GipMsg) : Prop where
  sized : ∀ x ∈ accepted, x.2.length = extraSize x.1.code
  queued : ∃ used, Queued out.mainloopItem.wrBufs used
  reading : ∃ done rest, accepted = done ++ rest ∧ inn.events = done.flatMap gipEvents ∧
    Reading inn rest (stream ++ pending out.mainloopItem.wrBufs)

variable {out out' inn inn' h h' : GipHandler} {stream ahead : List UInt8}
  {accepted rest : List GipMsg}

theorem frames_append (xs ys : List GipMsg) : frames (xs ++ ys) = frames xs ++ frames ys :=
  List.flatMap_append ..

theorem frames_cons (x : GipMsg) (rest : List GipMsg) :
    frames (x :: rest) = x.1.bytes ++ (x.2 ++ frames rest) := by
  rw [frames, List.flatMap_cons, List.append_assoc]
  rfl

/-- A message more is at the end of what is ahead. -/
theorem Reading.more (hreading : Reading h rest ahead) (x : GipMsg) :
    Reading h (rest ++ [x]) (ahead ++ frames [x]) := by
  cases hreading with
  | header filled hexpect hbytes =>
      refine .header filled hexpect ?_
      rw [frames_append, hbytes, List.append_assoc]
  | payload filled y more hrest hmsg hexpect hbytes =>
      refine .payload filled y (more ++ [x]) (by rw [hrest]; rfl) hmsg hexpect ?_
      rw [frames_append, ← List.append_assoc, hbytes, List.append_assoc]

/-- The handler that reads is looked at only there, and the one that writes only at its slots. -/
theorem Framed.congr (hframed : Framed out inn stream accepted)
    (hslots : out'.mainloopItem.wrBufs = out.mainloopItem.wrBufs)
    (hmsg : inn'.msgBuf = inn.msgBuf) (hevents : inn'.events = inn.events)
    (hread : { inn'.mainloopItem with wrBufs := inn.mainloopItem.wrBufs } = inn.mainloopItem) :
    Framed out' inn' stream accepted := by
  have hexpecting : ∀ {filled size f}, Expecting inn filled size f →
      Expecting inn' filled size f := by
    intro filled size f hexpect
    refine ⟨?_, ?_, ?_, hexpect.part⟩
    · exact (congrArg MainloopFd.rdBuf hread).trans hexpect.buf
    · exact (congrArg MainloopFd.rdBufExpectSize hread).trans hexpect.expectSize
    · exact (congrArg MainloopFd.rdOnFull hread).trans hexpect.onFull
  obtain ⟨hsized, hqueued, done, rest, haccepted, hdone, hreading⟩ := hframed
  refine ⟨hsized, hslots ▸ hqueued, done, rest, haccepted, hevents.trans hdone, ?_⟩
  rw [hslots]
  cases hreading with
  | header filled hexpect hbytes => exact .header filled (hexpecting hexpect) hbytes
  | payload filled x more hrest hmsg' hexpect hbytes =>
      exact .payload filled x more hrest (hmsg.trans hmsg') (hexpecting hexpect) hbytes

/-- The buffer that `gip_send_msg` fills. -/
def msgBuffer (m : GipMsgHeader) (msgData : List UInt8) : WrBuf where
  size := sizeofGipMsgHeader + extraSize m.code
  written := 0
  buf := m.bytes ++ msgData.take (extraSize m.code)
  mustFree := true

/-- What `gip_send_msg` does: a message that is accepted goes behind the others, and one that is
refused leaves everything as it was. -/
theorem send_msg_cases (h : GipHandler) (malloc : Bool) (m : GipMsgHeader) (msgData : List UInt8) :
    (∃ slots, h.sendMsg malloc m msgData =
        (true, { h with mainloopItem := { h.mainloopItem with wrBufs := slots } }) ∧
      fillSlot (msgBuffer m msgData) h.mainloopItem.wrBufs = some slots) ∨
    h.sendMsg malloc m msgData = (false, h) := by
  have hwrite : h.mainloopItem.nonblockingWrite (m.bytes ++ msgData.take (extraSize m.code))
      (sizeofGipMsgHeader + extraSize m.code) true =
        (fillSlot (msgBuffer m msgData) h.mainloopItem.wrBufs).map
          fun slots => { h.mainloopItem with wrBufs := slots } := rfl
  unfold GipHandler.sendMsg
  dsimp only
  rw [hwrite]
  cases malloc with
  | false => exact .inr rfl
  | true =>
      cases hfill : fillSlot (msgBuffer m msgData) h.mainloopItem.wrBufs with
      | none => exact .inr rfl
      | some slots => exact .inl ⟨slots, rfl, rfl⟩

theorem Framed.send {m : GipMsgHeader} {msgData : List UInt8} {slots : List (Option WrBuf)}
    (hframed : Framed out inn stream accepted) (hdata : extraSize m.code ≤ msgData.length)
    (hfill : fillSlot (msgBuffer m msgData) out.mainloopItem.wrBufs = some slots) :
    Framed { out with mainloopItem := { out.mainloopItem with wrBufs := slots } } inn stream
      (accepted ++ [(m, msgData.take (extraSize m.code))]) := by
  obtain ⟨hsized, ⟨used, hqueued⟩, done, rest, haccepted, hdone, hreading⟩ := hframed
  have htake : (msgData.take (extraSize m.code)).length = extraSize m.code :=
    List.length_take_of_le hdata
  have hlength : (msgBuffer m msgData).buf.length = (msgBuffer m msgData).size := by
    rw [msgBuffer, List.length_append, htake, header_length]
  have hqueued' := hqueued.fill ⟨hlength.symm, Nat.add_pos_left (Nat.succ_pos 11) _⟩ hfill
  refine ⟨fun x hx => ?_, ⟨_, hqueued'⟩, done, rest ++ [(m, msgData.take (extraSize m.code))],
    ?_, hdone, ?_⟩
  · rcases List.mem_append.mp hx with hx | hx
    · exact hsized x hx
    · rw [List.mem_singleton.mp hx]
      exact htake
  · rw [haccepted, List.append_assoc]
  · have hpending : pending slots = pending out.mainloopItem.wrBufs ++
        frames [(m, msgData.take (extraSize m.code))] := by
      rw [pending_queued hqueued', pending_queued hqueued, List.flatMap_append, frames_cons]
      simp only [List.flatMap_cons, List.flatMap_nil, msgBuffer, List.drop_zero, List.append_nil,
        frames]
    change Reading inn _ (stream ++ pending slots)
    rw [hpending, ← List.append_assoc]
    exact hreading.more _

theorem Framed.write {b : WrBuf} {slots : List (Option WrBuf)} {n : Nat}
    (hframed : Framed out inn stream accepted)
    (hslots : out.mainloopItem.wrBufs = some b :: slots) (hn : n ≤ b.size - b.written) :
    Framed (out.write b n) inn (stream ++ (b.buf.drop b.written).take n) accepted := by
  obtain ⟨hsized, ⟨used, hqueued⟩, done, rest, haccepted, hdone, hreading⟩ := hframed
  have hle : b.written ≤ b.size := by
    obtain ⟨used', rfl⟩ := (hslots ▸ hqueued).head
    exact Nat.le_of_lt (hqueued.left b (List.mem_cons_self ..)).2
  obtain ⟨used', hqueued', hpending⟩ := hqueued.write hslots (n := n) (by omega)
  refine ⟨hsized, ⟨used', hqueued'⟩, done, rest, haccepted, hdone, ?_⟩
  rw [List.append_assoc]
  exact hpending ▸ hreading

theorem read_part {filled got : List UInt8}
    (hpart : (filled ++ got).length ≠ h.mainloopItem.rdBufExpectSize) :
    h.read filled got =
      some { h with mainloopItem := { h.mainloopItem with rdBuf := some (filled ++ got) } } := by
  unfold GipHandler.read MainloopFd.readTurn
  rw [if_neg hpart]

theorem read_full {filled got : List UInt8} {f : Giph}
    (hfull : (filled ++ got).length = h.mainloopItem.rdBufExpectSize)
    (hf : h.mainloopItem.rdOnFull = some f) :
    h.read filled got =
      some ({ h with mainloopItem := { h.mainloopItem with rdBuf := some [] } }.onFull f
        (filled ++ got)) := by
  unfold GipHandler.read MainloopFd.readTurn
  rw [if_pos hfull]
  exact Option.map_eq_some_iff.mpr ⟨f, hf, rfl⟩

/-- The function that is called with a whole header. -/
theorem on_header {x : GipMsg} {more : List GipMsg} (hsize : x.2.length = extraSize x.1.code)
    (hexpect : h.mainloopItem.rdBufExpectSize = sizeofGipMsgHeader)
    (hfun : h.mainloopItem.rdOnFull = some .msgHeader) (hbuf : h.mainloopItem.rdBuf = some [])
    (hahead : x.2 ++ frames more = ahead) :
    Reading (h.onFull .msgHeader x.1.bytes) (x :: more) ahead ∧
        (h.onFull .msgHeader x.1.bytes).events = h.events ∨
      Reading (h.onFull .msgHeader x.1.bytes) more ahead ∧
        (h.onFull .msgHeader x.1.bytes).events = h.events ++ gipEvents x := by
  have honfull : h.onFull .msgHeader x.1.bytes = { h with msgBuf := x.1 }.msgHeader := by
    rw [GipHandler.onFull, header_of_bytes]
  rw [honfull]
  by_cases hextra : extraSize x.1.code = 0
  · right
    have hnil : x.2 = [] := List.eq_nil_of_length_eq_zero (hsize.trans hextra)
    rw [msg_header_alone hextra]
    refine ⟨.header [] ⟨hbuf, hexpect, hfun, Nat.succ_pos 11⟩ ?_, ?_⟩
    · rw [← hahead, hnil]
      rfl
    · change h.events ++ gipEvents (x.1, []) = _
      rw [← hnil]
  · left
    rw [msg_header_payload hextra]
    exact ⟨.payload [] x more rfl rfl ⟨rfl, rfl, rfl, Nat.pos_of_ne_zero hextra⟩ hahead, rfl⟩

/-- The function that is called with a whole payload. -/
theorem on_payload {x : GipMsg} {more : List GipMsg} (hextra : 0 < extraSize x.1.code)
    (hmsg : h.msgBuf = x.1) (hahead : frames more = ahead) :
    Reading (h.onFull (giphOf x.1.code) x.2) more ahead ∧
      (h.onFull (giphOf x.1.code) x.2).events = h.events ++ gipEvents x := by
  rw [← hmsg, on_full_payload (hmsg ▸ Nat.ne_of_gt hextra), hmsg]
  exact ⟨.header [] ⟨rfl, rfl, rfl, Nat.succ_pos 11⟩ hahead, rfl⟩

theorem read_wr_bufs {filled got : List UInt8} (hread : h.read filled got = some h') :
    h'.mainloopItem.wrBufs = h.mainloopItem.wrBufs := by
  have hheader : ∀ h : GipHandler, h.msgHeader.mainloopItem.wrBufs = h.mainloopItem.wrBufs := by
    intro h
    by_cases hextra : extraSize h.msgBuf.code = 0
    · rw [msg_header_alone hextra]
    · rw [msg_header_payload hextra]
      rfl
  by_cases hfull : (filled ++ got).length = h.mainloopItem.rdBufExpectSize
  · unfold GipHandler.read MainloopFd.readTurn at hread
    rw [if_pos hfull] at hread
    obtain ⟨f, -, rfl⟩ := Option.map_eq_some_iff.mp hread
    cases f with
    | msgHeader => exact hheader _
    | bufferInfo => rfl
    | modeInfo => rfl
    | bufferDamage => rfl
  · rw [read_part hfull] at hread
    cases hread
    rfl

section

variable (hframed : Framed out inn stream accepted)

include hframed

theorem Framed.read {filled : List UInt8} {n : Nat} (hbuf : inn.mainloopItem.rdBuf = some filled)
    (hn : n ≤ inn.mainloopItem.rdBufExpectSize - filled.length) (hstream : n ≤ stream.length)
    (hread : inn.read filled (stream.take n) = some h) :
    Framed out h (stream.drop n) accepted := by
  obtain ⟨hsized, hqueued, done, rest, haccepted, hdone, hreading⟩ := hframed
  have hlength : (filled ++ stream.take n).length = filled.length + n := by
    rw [List.length_append, List.length_take_of_le hstream]
  -- The bytes that are there after the read, with those in front.
  have hsplit : filled ++ (stream ++ pending out.mainloopItem.wrBufs) =
      filled ++ stream.take n ++ (stream.drop n ++ pending out.mainloopItem.wrBufs) := by
    rw [List.append_assoc, ← List.append_assoc (stream.take n), List.take_append_drop]
  have hdispatched : ∀ {x : GipMsg} {more : List GipMsg}, rest = x :: more →
      h.events = inn.events ++ gipEvents x →
      accepted = (done ++ [x]) ++ more ∧ h.events = (done ++ [x]).flatMap gipEvents := by
    intro x more hrest hevents
    refine ⟨by rw [haccepted, hrest, List.append_assoc]; rfl, ?_⟩
    rw [hevents, hdone, List.flatMap_append, List.flatMap_cons, List.flatMap_nil, List.append_nil]
  cases hreading with
  | header filled' hexpect hbytes =>
      cases hexpect.buf.symm.trans hbuf
      have hpart := hexpect.part
      rw [hexpect.expectSize] at hn
      rw [hsplit] at hbytes
      by_cases hfull : filled.length + n = sizeofGipMsgHeader
      · rw [read_full (hlength.trans (hfull.trans hexpect.expectSize.symm)) hexpect.onFull] at hread
        cases hread
        cases rest with
        | nil =>
            have hnil := congrArg List.length hbytes
            rw [List.length_append, hlength, hfull] at hnil
            exact absurd hnil (by rw [frames, List.flatMap_nil, List.length_nil]; omega)
        | cons x more =>
            rw [frames_cons] at hbytes
            obtain ⟨hheader, hahead⟩ := List.append_inj hbytes
              ((header_length x.1).trans (hlength.trans hfull).symm)
            rw [← hheader] at hdispatched ⊢
            have hx := hsized x (by rw [haccepted]; simp)
            rcases on_header (h := { inn with
                mainloopItem := { inn.mainloopItem with rdBuf := some [] } }) hx hexpect.expectSize
              hexpect.onFull rfl hahead with ⟨hreading, hevents⟩ | ⟨hreading, hevents⟩
            · exact ⟨hsized, hqueued, done, x :: more, haccepted, hevents.trans hdone, hreading⟩
            · obtain ⟨haccepted', hdone'⟩ := hdispatched rfl hevents
              exact ⟨hsized, hqueued, done ++ [x], more, haccepted', hdone', hreading⟩
      · rw [read_part (by rw [hlength, hexpect.expectSize]; exact hfull)] at hread
        cases hread
        exact ⟨hsized, hqueued, done, rest, haccepted, hdone, .header (filled ++ stream.take n)
          ⟨rfl, hexpect.expectSize, hexpect.onFull, by rw [hlength]; omega⟩ hbytes⟩
  | payload filled' x more hrest hmsg hexpect hbytes =>
      cases hexpect.buf.symm.trans hbuf
      have hpart := hexpect.part
      rw [hexpect.expectSize] at hn
      rw [hsplit] at hbytes
      have hx := hsized x (by rw [haccepted, hrest]; simp)
      by_cases hfull : filled.length + n = extraSize x.1.code
      · rw [read_full (hlength.trans (hfull.trans hexpect.expectSize.symm)) hexpect.onFull] at hread
        cases hread
        obtain ⟨hpayload, hahead⟩ := List.append_inj hbytes (hx.trans (hlength.trans hfull).symm)
        rw [← hpayload] at hdispatched ⊢
        obtain ⟨hreading, hevents⟩ := on_payload (h := { inn with
            mainloopItem := { inn.mainloopItem with rdBuf := some [] } }) (by omega) hmsg hahead
        obtain ⟨haccepted', hdone'⟩ := hdispatched hrest hevents
        exact ⟨hsized, hqueued, done ++ [x], more, haccepted', hdone', hreading⟩
      · rw [read_part (by rw [hlength, hexpect.expectSize]; exact hfull)] at hread
        cases hread
        exact ⟨hsized, hqueued, done, rest, haccepted, hdone,
          .payload (filled ++ stream.take n) x more hrest hmsg
            ⟨rfl, hexpect.expectSize, hexpect.onFull, by rw [hlength]; omega⟩ hbytes⟩

/-- There is room in the buffer, and a function to call when it is full. -/
theorem Framed.can_read :
    ∃ filled, inn.mainloopItem.rdBuf = some filled ∧
      filled.length < inn.mainloopItem.rdBufExpectSize ∧
      ∀ got, ∃ h, inn.read filled got = some h := by
  obtain ⟨-, -, done, rest, -, -, hreading⟩ := hframed
  have hexpecting : ∃ filled size f, Expecting inn filled size f := by
    cases hreading with
    | header filled hexpect _ => exact ⟨_, _, _, hexpect⟩
    | payload filled x more _ _ hexpect _ => exact ⟨_, _, _, hexpect⟩
  obtain ⟨filled, size, f, hexpect⟩ := hexpecting
  refine ⟨filled, hexpect.buf, hexpect.expectSize ▸ hexpect.part, fun got => ?_⟩
  by_cases hfull : (filled ++ got).length = inn.mainloopItem.rdBufExpectSize
  · exact ⟨_, read_full hfull hexpect.onFull⟩
  · exact ⟨_, read_part hfull⟩

/-- When no byte is left on the way, every message has been dispatched. -/
theorem Framed.drained (hstream : stream = [])
    (hpending : pending out.mainloopItem.wrBufs = []) :
    inn.events = accepted.flatMap gipEvents := by
  obtain ⟨hsized, -, done, rest, rfl, hdone, hreading⟩ := hframed
  rw [hstream, hpending] at hreading
  cases hreading with
  | header filled hexpect hbytes =>
      cases rest with
      | nil => rw [hdone, List.append_nil]
      | cons x more =>
          have hpart := hexpect.part
          have hlength := congrArg List.length hbytes
          rw [frames_cons, List.length_append, header_length, List.append_nil,
            List.append_nil] at hlength
          omega
  | payload filled x more hrest hmsg hexpect hbytes =>
      have hpart := hexpect.part
      have hlength := congrArg List.length hbytes
      rw [List.length_append, hsized x (by rw [hrest]; simp), List.append_nil,
        List.append_nil] at hlength
      omega

theorem Framed.first_part :
    inn.dispatched <+: accepted.map fun x => (callbackOf x.1.code, x) := by
  obtain ⟨-, -, done, rest, rfl, hdone, -⟩ := hframed
  rw [GipHandler.dispatched, hdone, called_flat_map, List.map_append]
  exact List.prefix_append ..

end

end Framing

section Link

/-- Both ends are framed. -/
def Connected (l : GipLink) : Prop :=
  ∀ s, Framed (l.handler s) (l.handler (!s)) (l.stream s) (l.accepted s)

variable {l l' : GipLink}

theorem Connected.of_ends {s : Bool}
    (hout : Framed (l.handler s) (l.handler (!s)) (l.stream s) (l.accepted s))
    (hinn : Framed (l.handler (!s)) (l.handler s) (l.stream (!s)) (l.accepted (!s))) :
    Connected l := by
  intro t
  by_cases hts : t = s
  · rw [hts]
    exact hout
  · rw [Bool.eq_not.mpr hts, Bool.not_not]
    exact hinn

theorem Connected.new : Connected GipLink.new := by
  intro s
  refine ⟨nofun, ⟨[], ⟨4, rfl⟩, nofun⟩, [], [], rfl, rfl, ?_⟩
  exact .header [] ⟨rfl, rfl, rfl, Nat.succ_pos 11⟩ rfl

theorem Connected.step (h : Connected l) (hstep : GipStep l l') : Connected l' := by
  cases hstep with
  | send s malloc m msgData hdata =>
      have hne : (!s) ≠ s := by cases s <;> nofun
      unfold GipLink.send
      rcases send_msg_cases (l.handler s) malloc m msgData with ⟨slots, hsend, hfill⟩ | hsend
      · rw [hsend]
        refine Connected.of_ends (s := s) ?_ ?_
        · dsimp only
          rw [if_pos rfl, Function.update_self, Function.update_self, Function.update_of_ne hne]
          exact (h s).send hdata hfill
        · dsimp only
          rw [if_pos rfl, Function.update_self, Function.update_of_ne hne,
            Function.update_of_ne hne]
          have hother := h (!s)
          rw [Bool.not_not] at hother
          exact hother.congr rfl rfl rfl rfl
      · rw [hsend]
        dsimp only
        rw [Function.update_eq_self]
        exact h
  | write s b rest n hslots hn =>
      have hne : (!s) ≠ s := by cases s <;> nofun
      refine Connected.of_ends (s := s) ?_ ?_
      · unfold GipLink.write
        dsimp only
        rw [Function.update_self, Function.update_self, Function.update_of_ne hne]
        exact (h s).write hslots hn
      · unfold GipLink.write
        dsimp only
        rw [Function.update_self, Function.update_of_ne hne, Function.update_of_ne hne]
        have hother := h (!s)
        rw [Bool.not_not] at hother
        refine hother.congr rfl rfl rfl ?_
        unfold GipHandler.write MainloopFd.writeTurn
        dsimp only
        split <;> rfl
  | read s filled n h' hbuf hn hstream hread =>
      have hne : (!s) ≠ s := by cases s <;> nofun
      refine Connected.of_ends (s := s) ?_ ?_
      · unfold GipLink.read
        dsimp only
        rw [Function.update_self, Function.update_of_ne hne, Function.update_of_ne hne.symm]
        exact (h s).congr (read_wr_bufs hread) rfl rfl rfl
      · unfold GipLink.read
        dsimp only
        rw [Function.update_self, Function.update_self, Function.update_of_ne hne]
        have hother := h (!s)
        rw [Bool.not_not] at hother
        exact hother.read hbuf hn hstream hread

theorem Connected.steps (h : Connected l) (hsteps : Relation.ReflTransGen GipStep l l') :
    Connected l' := by
  induction hsteps with
  | refl => exact h
  | tail _ hstep ih => exact ih.step hstep

/-- The end that reads can be given a byte. -/
theorem Connected.can_read (h : Connected l) {s : Bool} (hne : l.stream s ≠ []) :
    ∃ l', GipStep l l' ∧ l'.accepted s = l.accepted s ∧
      (l'.handler s).mainloopItem.wrBufs = (l.handler s).mainloopItem.wrBufs ∧
      l'.stream s = (l.stream s).drop 1 := by
  obtain ⟨filled, hbuf, hpart, hread⟩ := (h s).can_read
  obtain ⟨h', hread⟩ := hread ((l.stream s).take 1)
  have hpos := List.length_pos_iff.mpr hne
  have hother : s ≠ !s := by cases s <;> nofun
  refine ⟨l.read (!s) h' 1, .read (!s) filled 1 h' hbuf (by omega) ?_ ?_, rfl, ?_, ?_⟩
  · rw [Bool.not_not]
    exact hpos
  · rw [Bool.not_not]
    exact hread
  · unfold GipLink.read
    dsimp only
    rw [Function.update_of_ne hother]
  · unfold GipLink.read
    rw [Bool.not_not]
    exact Function.update_self ..

/-- The channel can be given a byte. -/
theorem Connected.can_write (h : Connected l) {s : Bool}
    (hne : pending (l.handler s).mainloopItem.wrBufs ≠ []) :
    ∃ l', GipStep l l' ∧ l'.accepted s = l.accepted s ∧ ∃ x,
      l'.stream s = l.stream s ++ [x] ∧ pending (l.handler s).mainloopItem.wrBufs =
        x :: pending (l'.handler s).mainloopItem.wrBufs := by
  obtain ⟨used, hqueued⟩ := (h s).queued
  cases used with
  | nil =>
      rw [pending_queued hqueued] at hne
      exact absurd rfl hne
  | cons b used =>
      obtain ⟨free, hslots⟩ := hqueued.slots
      obtain ⟨hsize, hlt⟩ := hqueued.left b (List.mem_cons_self ..)
      obtain ⟨_, -, hpending⟩ := hqueued.write hslots (n := 1) (by omega)
      have hbyte : ∃ x, (b.buf.drop b.written).take 1 = [x] := by
        rw [← List.length_eq_one_iff, List.length_take, List.length_drop]
        omega
      obtain ⟨x, hx⟩ := hbyte
      refine ⟨l.write s b 1, .write s b _ 1 hslots (by omega), rfl, x, ?_, ?_⟩
      · rw [← hx]
        exact Function.update_self ..
      · rw [hpending, hx]
        unfold GipLink.write
        dsimp only
        rw [Function.update_self]
        rfl

/-- Every byte that is on the way can arrive. -/
theorem Connected.drain (h : Connected l) (s : Bool) :
    ∃ l', Relation.ReflTransGen GipStep l l' ∧ l'.accepted s = l.accepted s ∧ l'.stream s = [] ∧
      pending (l'.handler s).mainloopItem.wrBufs = [] := by
  have hall : ∀ k (l : GipLink), Connected l →
      2 * (pending (l.handler s).mainloopItem.wrBufs).length + (l.stream s).length = k →
      ∃ l', Relation.ReflTransGen GipStep l l' ∧ l'.accepted s = l.accepted s ∧ l'.stream s = [] ∧
        pending (l'.handler s).mainloopItem.wrBufs = [] := by
    intro k
    -- Each byte is moved twice.
    induction k with
    | zero =>
        intro l _ hk
        exact ⟨l, .refl, rfl, List.eq_nil_of_length_eq_zero (by omega),
          List.eq_nil_of_length_eq_zero (by omega)⟩
    | succ k ih =>
        intro l h hk
        by_cases hstream : l.stream s = []
        · obtain ⟨l₁, hstep, haccepted, x, hstream₁, hpending⟩ := h.can_write (s := s) (by
            intro hnil
            rw [hnil, hstream] at hk
            cases hk)
          rw [hpending, hstream, List.length_cons, List.length_nil] at hk
          obtain ⟨l', hsteps, haccepted', hdone⟩ := ih l₁ (h.step hstep) (by
            rw [hstream₁, hstream, List.nil_append, List.length_singleton]
            omega)
          exact ⟨l', .head hstep hsteps, haccepted'.trans haccepted, hdone⟩
        · obtain ⟨l₁, hstep, haccepted, hslots, hstream₁⟩ := h.can_read hstream
          have hpos := List.length_pos_iff.mpr hstream
          obtain ⟨l', hsteps, haccepted', hdone⟩ := ih l₁ (h.step hstep) (by
            rw [hslots, hstream₁, List.length_drop]
            omega)
          exact ⟨l', .head hstep hsteps, haccepted'.trans haccepted, hdone⟩
  exact hall _ l h rfl

/-- What has been dispatched at an end is a first part of what has been accepted at the other, in
order and each message to the callback of its code with a payload of its size; it is all of it
once no byte is on the way, and every run can be continued to there. A message that is refused
changes nothing. -/
theorem gip_framing (hl : Relation.ReflTransGen GipStep GipLink.new l) (s : Bool) :
    (∀ x ∈ l.accepted s, x.2.length = extraSize x.1.code) ∧
    (l.handler (!s)).dispatched <+: (l.accepted s).map (fun x => (callbackOf x.1.code, x)) ∧
    (l.stream s = [] → pending (l.handler s).mainloopItem.wrBufs = [] →
      (l.handler (!s)).dispatched = (l.accepted s).map fun x => (callbackOf x.1.code, x)) ∧
    (∃ l', Relation.ReflTransGen GipStep l l' ∧ (l'.handler (!s)).dispatched =
      (l.accepted s).map fun x => (callbackOf x.1.code, x)) ∧
    ∀ malloc m msgData, ((l.handler s).sendMsg malloc m msgData).1 = false →
      l.send s malloc m msgData = l := by
  have hconnected : Connected l := Connected.new.steps hl
  refine ⟨(hconnected s).sized, (hconnected s).first_part, fun hstream hpending => ?_, ?_, ?_⟩
  · rw [GipHandler.dispatched, (hconnected s).drained hstream hpending, called_flat_map]
  · obtain ⟨l', hsteps, haccepted, hstream, hpending⟩ := hconnected.drain s
    refine ⟨l', hsteps, ?_⟩
    rw [GipHandler.dispatched, ((hconnected.steps hsteps) s).drained hstream hpending,
      called_flat_map, haccepted]
  · intro malloc m msgData hrefused
    unfold GipLink.send
    rcases send_msg_cases (l.handler s) malloc m msgData with ⟨slots, hsend, -⟩ | hsend
    · rw [hsend] at hrefused
      cases hrefused
    · rw [hsend]
      dsimp only
      rw [Function.update_eq_self]
      rfl

/-- A damaged region of eight pixels, sent from one end, can be dispatched at the other. -/
theorem gip_framing_damage :
    ∃ l', Relation.ReflTransGen GipStep
        (GipLink.new.send false true ⟨gipnBufferDamage, 0, 1⟩ (List.replicate 16 8)) l' ∧
      (l'.handler true).dispatched =
        [(.bufferDamage, ⟨gipnBufferDamage, 0, 1⟩, List.replicate 16 8)] := by
  have hrun := Relation.ReflTransGen.single (GipStep.send (l := GipLink.new) false true
    ⟨gipnBufferDamage, 0, 1⟩ (List.replicate 16 8) (Nat.le_refl 16))
  exact (gip_framing hrun false).2.2.2.1

end Link

end Kogata.User
