import Kogata.Common.HashtblRefines
import Kogata.Lib.OneShot
import Kogata.Lib.Run
import Kogata.User.Gip
import Mathlib.Algebra.GroupWithZero.Nat

/-!
# Replies to GIP commands

`gip_cmd` and `giph_got_reply` of `lib/libkogata/gip.c`. A command that wants a reply has a
`gip_cmd_t`, which the table `requests_in_progress` owns: it is freed when the command cannot be
sent and when its callback has returned. The callbacks are arbitrary; what they do to a handler is
a list of actions, and the header that they are given is the one in the handler.
-/

namespace Kogata.User

open Kogata.Common Lib.OneShot Lib.Run

/-- `gip_cmd_t`, where `C` names the functions that `cb` may be, and the number of its `malloc`. -/
structure GipCmd (C D : Type) where
  ptr : Nat
  cb : C
  data : D
  deriving DecidableEq

/-- The `gip_msg_header` that a function is given: one of the caller's, or that of the handler. -/
inductive GipArg
  | own (m : GipMsgHeader)
  | received

/-- The answers of the `malloc`s of `gip_cmd`: for the `gip_cmd_t`, in `hashtbl_add`, in
`gip_send_msg`, and in `hashtbl_remove`. -/
structure GipAnswers where
  cmd : Bool
  item : Bool
  shrunk : Bool
  grown : Bool
  buf : Bool
  removed : Bool

/-- What a program does to a handler. -/
inductive GipAction (C D : Type)
  | cmd (answers : GipAnswers) (msg : GipArg) (msgData : List UInt8) (cb : Option (C × D))
  | reply (malloc : Bool) (origRequest msg : GipArg) (msgData : List UInt8)
  | notify (malloc : Bool) (msg : GipArg) (msgData : List UInt8)
  | write (m : GipMsgHeader)

/-- What the callback of the handler and that of the command do when a message has come, and the
answer of the `malloc` in `hashtbl_remove`. -/
structure GipScript (C D : Type) where
  call : List (GipAction C D)
  reply : List (GipAction C D)
  shrunk : Bool

/-- What may happen: an action from outside the callbacks, a buffer that is full, or bytes that go
from the first write slot to the channel. -/
inductive GipInput (C D : Type)
  | act (action : GipAction C D)
  | full (bytes : List UInt8) (script : GipScript C D)
  | write (n : Nat)

/-- A `gip_handler_t`, with the last header that was read, the number of calls of `gip_cmd`, and the
`gip_cmd_t`s that were made, each with the `req_id` of its command. An entry of the log is about a
`gip_cmd_t`: the call of `cb`, with the `req_id` that the reply came with, or `free`. -/
structure GipRequests (C D : Type) where
  handler : GipHandler
  requestsInProgress : Hashtbl idKeys (GipCmd C D)
  nextReqId : UInt32
  received : GipMsgHeader
  cmds : Nat
  issued : List (UInt32 × GipCmd C D)
  notes : List (Note (UInt32 × GipCmd C D))

/-- The loop of `gip_cmd` that takes a `req_id` which is not zero: the `req_id`, and the next. -/
def takeReqId (nextReqId : UInt32) : UInt32 × UInt32 :=
  if nextReqId = 0 then (1, 2) else (nextReqId, nextReqId + 1)

namespace GipRequests

variable {C D : Type}

/-- `new_gip_handler`. -/
def new : GipRequests C D where
  handler := newGipHandler
  requestsInProgress := .create
  nextReqId := 1
  received := ⟨0, 0, 0⟩
  cmds := 0
  issued := []
  notes := []

/-- The header that is pointed to. -/
def header (s : GipRequests C D) : GipArg → GipMsgHeader
  | .own m => m
  | .received => s.handler.msgBuf

/-- The header that is pointed to is written. -/
def setHeader (s : GipRequests C D) (m : GipMsgHeader) : GipArg → GipRequests C D
  | .own _ => s
  | .received => { s with handler := { s.handler with msgBuf := m } }

/-- `gip_send_msg`. -/
def sendMsg (s : GipRequests C D) (malloc : Bool) (m : GipMsgHeader) (msgData : List UInt8) :
    Bool × GipRequests C D :=
  let (ok, h) := s.handler.sendMsg malloc m msgData
  (ok, { s with handler := h })

/-- `hashtbl_remove` from the table, which frees what it removes. -/
def remove (s : GipRequests C D) (shrunk : Bool) (reqId : UInt32) : GipRequests C D :=
  let (t, released) := s.requestsInProgress.remove shrunk reqId
  { s with requestsInProgress := t, notes := s.notes ++ released.map Note.free }

/-- The part of `gip_cmd` that makes a `gip_cmd_t` and adds it to the table, with its `req_id`. -/
def addRequest (s : GipRequests C D) (answers : GipAnswers) (cb : C) (data : D) :
    Bool × UInt32 × GipRequests C D :=
  let c := { ptr := s.issued.length, cb := cb, data := data }
  let (reqId, nextReqId) := takeReqId s.nextReqId
  let (addOk, t, released) :=
    s.requestsInProgress.add answers.item answers.shrunk answers.grown reqId c
  let released := released ++ if addOk then [] else [(reqId, c)]
  (addOk, reqId, { s with
    requestsInProgress := t
    nextReqId := nextReqId
    issued := s.issued ++ [(reqId, c)]
    notes := s.notes ++ released.map .free })

/-- `gip_cmd`. -/
def cmd (s : GipRequests C D) (answers : GipAnswers) (msg : GipArg) (msgData : List UInt8)
    (cb : Option (C × D)) : Bool × GipRequests C D :=
  let m := { s.header msg with reqId := 0 }
  let s := { s.setHeader m msg with cmds := s.cmds + 1 }
  match cb with
  | none => s.sendMsg answers.buf m msgData
  | some (cb, data) =>
      if answers.cmd then
        let (addOk, reqId, s) := s.addRequest answers cb data
        let m := { m with reqId := reqId }
        let s := s.setHeader m msg
        if addOk then
          let (ok, s) := s.sendMsg answers.buf m msgData
          (ok, if ¬ ok ∧ reqId ≠ 0 then s.remove answers.removed reqId else s)
        else (false, s)
      else (false, s)

/-- `gip_reply`. -/
def reply (s : GipRequests C D) (malloc : Bool) (origRequest msg : GipArg)
    (msgData : List UInt8) : Bool × GipRequests C D :=
  let m := { s.header msg with reqId := (s.header origRequest).reqId }
  (s.setHeader m msg).sendMsg malloc m msgData

/-- `gip_notify`. -/
def notify (s : GipRequests C D) (malloc : Bool) (msg : GipArg) (msgData : List UInt8) :
    Bool × GipRequests C D :=
  let m := { s.header msg with reqId := 0 }
  (s.setHeader m msg).sendMsg malloc m msgData

/-- An action. -/
def act (s : GipRequests C D) : GipAction C D → GipRequests C D
  | .cmd answers msg msgData cb => (s.cmd answers msg msgData cb).2
  | .reply malloc origRequest msg msgData => (s.reply malloc origRequest msg msgData).2
  | .notify malloc msg msgData => (s.notify malloc msg msgData).2
  | .write m => s.setHeader m .received

/-- Actions, one after the other. -/
def acts (s : GipRequests C D) (actions : List (GipAction C D)) : GipRequests C D :=
  actions.foldl act s

/-- A callback of the handler is called, and does what it does. -/
def call (s : GipRequests C D) (cb : GipCallback) (payload : List UInt8)
    (actions : List (GipAction C D)) : GipRequests C D :=
  { s with handler := s.handler.call cb payload }.acts actions

/-- The callback of a command is called. -/
def callBack (s : GipRequests C D) (c : GipCmd C D) : GipRequests C D :=
  { s with notes := s.notes ++ [.use (s.received.reqId, c)] }

/-- The handler's own log of `giph_got_reply`. -/
def noteReply (s : GipRequests C D) (payload : List UInt8) : GipRequests C D :=
  { s with handler := s.handler.gotReply payload }

/-- `giph_got_reply`. The `req_id` of the header is read again after the callback. -/
def gotReply (s : GipRequests C D) (payload : List UInt8) (script : GipScript C D) :
    GipRequests C D :=
  let s := s.noteReply payload
  match s.requestsInProgress.find s.handler.msgBuf.reqId with
  | none => s
  | some c =>
      let s := (s.callBack c).acts script.reply
      s.remove script.shrunk s.handler.msgBuf.reqId

/-- `mainloop_expect` of the handler's item. -/
def expect (s : GipRequests C D) (size : Nat) (cb : Giph) : GipRequests C D :=
  { s with handler := s.handler.expect size cb }

/-- `giph_msg_header`, after the header has been read. -/
def msgHeader (s : GipRequests C D) (script : GipScript C D) : GipRequests C D :=
  let code := s.handler.msgBuf.code
  if code = gipcReset then s.call .reset [] script.call
  else if code = giprInitiate then (s.gotReply [] script).call .initiate [] script.call
  else if code = giprOk then (s.gotReply [] script).call .ok [] script.call
  else if code = giprFailure then (s.gotReply [] script).call .failure [] script.call
  else if code = gipcEnableFeatures then s.call .enableFeatures [] script.call
  else if code = gipcDisableFeatures then s.call .disableFeatures [] script.call
  else if code = gipcQueryMode then s.call .queryMode [] script.call
  else if code = gipcSetMode then s.call .setMode [] script.call
  else if code = gipcSwitchBuffer then s.call .switchBuffer [] script.call
  else if code = gipnBufferInfo then s.expect sizeofGipBufferInfoMsg .bufferInfo
  else if code = giprModeInfo then s.expect sizeofGipModeInfoMsg .modeInfo
  else if code = gipnBufferDamage then s.expect sizeofGipBufferDamageMsg .bufferDamage
  else if code = gipnKeyDown then s.call .keyDown [] script.call
  else if code = gipnKeyUp then s.call .keyUp [] script.call
  else s.call .unknownMsg [] script.call

/-- A header has been read into the handler. -/
def readHeader (s : GipRequests C D) (m : GipMsgHeader) : GipRequests C D :=
  { s with handler := { s.handler with msgBuf := m }, received := m }

/-- `rd_on_full`, called with the bytes of the buffer that is full: `giph_msg_header`,
`giph_buffer_info`, `giph_mode_info` or `giph_buffer_damage`. -/
def onFull (s : GipRequests C D) (bytes : List UInt8) (script : GipScript C D) :
    Giph → GipRequests C D
  | .msgHeader => (s.readHeader (GipMsgHeader.ofBytes bytes)).msgHeader script
  | .bufferInfo => (s.call .bufferInfo bytes script.call).expect sizeofGipMsgHeader .msgHeader
  | .modeInfo => ((s.call .modeInfo bytes script.call).gotReply bytes script).expect
      sizeofGipMsgHeader .msgHeader
  | .bufferDamage => (s.call .bufferDamage bytes script.call).expect sizeofGipMsgHeader .msgHeader

/-- What happens next. -/
def step (s : GipRequests C D) : GipInput C D → Option (GipRequests C D)
  | .act action => some (s.act action)
  | .full bytes script =>
      if bytes.length = s.handler.mainloopItem.rdBufExpectSize then
        s.handler.mainloopItem.rdOnFull.map (s.onFull bytes script)
      else none
  | .write n =>
      match s.handler.mainloopItem.wrBufs with
      | some b :: _ =>
          if n ≤ b.size - b.written then some { s with handler := s.handler.write b n } else none
      | _ => none

/-- `delete_gip_handler`: the table frees what it has. -/
def delete (s : GipRequests C D) : List (Note (UInt32 × GipCmd C D)) :=
  s.notes ++ s.requestsInProgress.delete.map Note.free

end GipRequests

section Table

variable {ν : Type} {t : Hashtbl idKeys ν} {reqId : UInt32} {v : ν}

/-- The binding of a key is the only one. -/
theorem filter_bound (h : WellFormed t) (hmem : (reqId, v) ∈ t.iter) :
    t.iter.filter (fun b => idKeys.ef b.1 reqId) = [(reqId, v)] := by
  have hself : (reqId, v) ∈ t.iter.filter fun b => idKeys.ef b.1 reqId :=
    List.mem_filter.mpr ⟨hmem, LawfulKeys.refl reqId⟩
  have hdistinct := h.distinct.filter fun b => idKeys.ef b.1 reqId
  have hkey : ∀ b ∈ t.iter.filter (fun b => idKeys.ef b.1 reqId), b.1 = reqId :=
    fun b hb => eq_of_beq (List.mem_filter.mp hb).2
  generalize t.iter.filter (fun b => idKeys.ef b.1 reqId) = found at hself hdistinct hkey ⊢
  cases found with
  | nil => cases hself
  | cons x rest =>
      cases rest with
      | nil => rw [List.mem_singleton.mp hself]
      | cons y rest =>
          have hx := hkey x (List.mem_cons_self ..)
          have hy := hkey y (List.mem_cons_of_mem _ (List.mem_cons_self ..))
          have hne := (List.pairwise_cons.mp hdistinct).1 y (List.mem_cons_self ..)
          rw [hx, hy] at hne
          exact Bool.noConfusion (hne.symm.trans (LawfulKeys.refl reqId))

theorem remove_bound (h : WellFormed t) (shrunk : Bool) (hmem : (reqId, v) ∈ t.iter) :
    WellFormed (t.remove shrunk reqId).1 ∧
      (∀ x, x ∈ (t.remove shrunk reqId).1.iter ↔ x ∈ t.iter ∧ x ≠ (reqId, v)) ∧
      (t.remove shrunk reqId).2 = [(reqId, v)] := by
  obtain ⟨hwell, hiter, hreleased⟩ := remove_spec h shrunk reqId
  have hbound := filter_bound h hmem
  refine ⟨hwell, fun x => ?_, hreleased.trans hbound⟩
  rw [hiter.mem_iff, List.mem_filter, Bool.not_eq_true']
  refine and_congr_right fun hx => ⟨fun hne heq => ?_, fun hne => ?_⟩
  · rw [heq] at hne
    exact Bool.noConfusion (hne.symm.trans (LawfulKeys.refl reqId))
  · by_contra hef
    have hfound : x ∈ t.iter.filter fun b => idKeys.ef b.1 reqId :=
      List.mem_filter.mpr ⟨hx, eq_true_of_ne_false hef⟩
    rw [hbound] at hfound
    exact hne (List.mem_singleton.mp hfound)

theorem add_fresh (h : WellFormed t) (shrunk grown : Bool) (hnew : ∀ x ∈ t.iter, x.1 ≠ reqId) :
    WellFormed (t.add true shrunk grown reqId v).2.1 ∧
      (∀ x, x ∈ (t.add true shrunk grown reqId v).2.1.iter ↔ x ∈ t.iter ∨ x = (reqId, v)) ∧
      (t.add true shrunk grown reqId v).2.2 = [] := by
  obtain ⟨hwell, hiter, hreleased⟩ := add_spec h shrunk grown reqId v
  refine ⟨hwell, fun x => ?_, hreleased.trans (List.filter_eq_nil_iff.mpr fun x hx hef =>
    hnew x hx (eq_of_beq hef))⟩
  rw [hiter.mem_iff, List.mem_cons, or_comm, List.mem_filter]
  refine or_congr_left ⟨And.left, fun hx => ⟨hx, ?_⟩⟩
  rw [Bool.not_eq_true']
  exact beq_false_of_ne (hnew x hx)

end Table

section Books

variable {C D : Type} {s s' : GipRequests C D} {busy busy' : UInt32 × GipCmd C D → Prop}

/-- The `gip_cmd_t`s are numbered, as are the `req_id`s, and the table has those that have not been
freed. -/
structure Kept (s : GipRequests C D) (busy : UInt32 × GipCmd C D → Prop) : Prop where
  table : WellFormed s.requestsInProgress
  next : s.nextReqId = UInt32.ofNat (s.issued.length + 1)
  numbered : ∀ (i : Nat) x, s.issued[i]? = some x → x.1 = UInt32.ofNat (i + 1) ∧ x.2.ptr = i
  calls : s.issued.length ≤ s.cmds
  books : Books (· ∈ s.issued) (· ∈ s.requestsInProgress.iter) busy s.notes

theorem Kept.new : Kept (.new : GipRequests C D) fun _ => False where
  table := create_well_formed
  next := rfl
  numbered := nofun
  calls := Nat.le_refl 0
  books := .of_nothing (fun _ => List.not_mem_nil) (fun _ hx => by
    change _ ∈ (Hashtbl.create : Hashtbl idKeys (GipCmd C D)).iter at hx
    rw [create_iter] at hx
    cases hx) fun _ => id

/-- What is done to the header or the item of the handler. -/
theorem Kept.set_handler (h : Kept s busy) (handler : GipHandler) :
    Kept { s with handler := handler } busy :=
  ⟨h.table, h.next, h.numbered, h.calls, h.books⟩

theorem set_header_eq (m : GipMsgHeader) (msg : GipArg) :
    ∃ handler, s.setHeader m msg = { s with handler := handler } := by
  cases msg with
  | own _ => exact ⟨s.handler, rfl⟩
  | received => exact ⟨_, rfl⟩

theorem set_header_table (m : GipMsgHeader) (msg : GipArg) :
    (s.setHeader m msg).requestsInProgress = s.requestsInProgress := by
  cases msg <;> rfl

theorem Kept.set_header (h : Kept s busy) (m : GipMsgHeader) (msg : GipArg) :
    Kept (s.setHeader m msg) busy := by
  obtain ⟨handler, heq⟩ := set_header_eq (s := s) m msg
  rw [heq]
  exact h.set_handler handler

theorem Kept.send_msg (h : Kept s busy) (malloc : Bool) (m : GipMsgHeader)
    (msgData : List UInt8) : Kept (s.sendMsg malloc m msgData).2 busy :=
  h.set_handler _

/-- As long as a number fits into a `req_id`, the `gip_cmd_t`s that were made have others. -/
theorem Kept.others (h : Kept s busy) (hlen : s.issued.length + 1 < 2 ^ 32) :
    ∀ x ∈ s.issued, x.1 ≠ UInt32.ofNat (s.issued.length + 1) ∧ x.2.ptr ≠ s.issued.length := by
  intro x hx
  obtain ⟨i, hi, hget⟩ := List.mem_iff_getElem.mp hx
  obtain ⟨hid, hptr⟩ := h.numbered i x (List.getElem?_eq_some_iff.mpr ⟨hi, hget⟩)
  refine ⟨fun heq => ?_, by omega⟩
  have hnat := congrArg UInt32.toNat (hid.symm.trans heq)
  rw [UInt32.toNat_ofNat_of_lt' (by change _ < 2 ^ 32; omega),
    UInt32.toNat_ofNat_of_lt' hlen] at hnat
  omega

/-- The `req_id` and the number of a `gip_cmd_t` name it. -/
theorem Kept.distinct (h : Kept s busy) (hlen : s.issued.length < 2 ^ 32) :
    s.issued.Pairwise fun x y => x.1 ≠ y.1 ∧ x.2.ptr ≠ y.2.ptr := by
  rw [List.pairwise_iff_getElem]
  intro i j hi hj hij
  obtain ⟨hid, hptr⟩ := h.numbered i _ (List.getElem?_eq_some_iff.mpr ⟨hi, rfl⟩)
  obtain ⟨hid', hptr'⟩ := h.numbered j _ (List.getElem?_eq_some_iff.mpr ⟨hj, rfl⟩)
  refine ⟨fun heq => ?_, by omega⟩
  have hnat := congrArg UInt32.toNat (hid.symm.trans (heq.trans hid'))
  rw [UInt32.toNat_ofNat_of_lt' (by change _ < 2 ^ 32; omega),
    UInt32.toNat_ofNat_of_lt' (by change _ < 2 ^ 32; omega)] at hnat
  omega

theorem take_req_id {n : Nat} (hn : n + 1 < 2 ^ 32) :
    takeReqId (UInt32.ofNat (n + 1)) = (UInt32.ofNat (n + 1), UInt32.ofNat (n + 1 + 1)) ∧
      UInt32.ofNat (n + 1) ≠ 0 := by
  have hne : UInt32.ofNat (n + 1) ≠ 0 := fun heq => by
    have hnat := congrArg UInt32.toNat heq
    rw [UInt32.toNat_ofNat_of_lt' hn] at hnat
    cases hnat
  refine ⟨?_, hne⟩
  rw [takeReqId, if_neg hne]
  exact congrArg (Prod.mk _) (UInt32.ofNat_add (n + 1) 1).symm

theorem numbered_snoc {issued : List (UInt32 × GipCmd C D)} {c : GipCmd C D}
    (hptr : c.ptr = issued.length)
    (h : ∀ (i : Nat) x, issued[i]? = some x → x.1 = UInt32.ofNat (i + 1) ∧ x.2.ptr = i) :
    ∀ (i : Nat) x, (issued ++ [(UInt32.ofNat (issued.length + 1), c)])[i]? = some x →
      x.1 = UInt32.ofNat (i + 1) ∧ x.2.ptr = i := by
  intro i x hx
  rcases Nat.lt_trichotomy i issued.length with hi | rfl | hi
  · rw [List.getElem?_append_left hi] at hx
    exact h i x hx
  · rw [List.getElem?_concat_length] at hx
    cases hx
    exact ⟨rfl, hptr⟩
  · rw [List.getElem?_eq_none (by rw [List.length_append]; exact hi)] at hx
    cases hx

/-- The `gip_cmd_t` of a key is removed from the table and freed. -/
theorem Kept.remove (h : Kept s busy) (shrunk : Bool) {x : UInt32 × GipCmd C D}
    (hx : x ∈ s.requestsInProgress.iter) (hbusy : ∀ y, busy' y ↔ busy y ∧ y ≠ x) :
    Kept (s.remove shrunk x.1) busy' := by
  obtain ⟨hwell, hiter, hreleased⟩ := remove_bound (v := x.2) h.table shrunk hx
  unfold GipRequests.remove
  generalize s.requestsInProgress.remove shrunk x.1 = removed at hwell hiter hreleased ⊢
  obtain ⟨t, released⟩ := removed
  cases hreleased
  exact ⟨hwell, h.next, h.numbered, h.calls, h.books.free hx hiter hbusy⟩

/-- A `gip_cmd_t` is made, and is in the table or has been freed. -/
theorem Kept.add_request (h : Kept s busy) (hlt : s.issued.length + 1 < 2 ^ 32)
    (hcalls : s.issued.length + 1 ≤ s.cmds) (answers : GipAnswers) (cb : C) (data : D) :
    ∃ addOk reqId mid, s.addRequest answers cb data = (addOk, reqId, mid) ∧ Kept mid busy ∧
      (addOk = true → ∃ c, (reqId, c) ∈ mid.requestsInProgress.iter ∧ ¬ busy (reqId, c)) := by
  obtain ⟨htake, hne⟩ := take_req_id hlt
  have hothers := h.others hlt
  have hnew : ∀ v, (UInt32.ofNat (s.issued.length + 1), v) ∉ s.issued :=
    fun v hv => (hothers _ hv).1 rfl
  have hnext : ∀ c, UInt32.ofNat (s.issued.length + 1 + 1) =
      UInt32.ofNat ((s.issued ++ [(UInt32.ofNat (s.issued.length + 1), c)]).length + 1) := by
    intro c
    rw [List.length_append]
    rfl
  have hmade : ∀ c x, x ∈ s.issued ++ [(UInt32.ofNat (s.issued.length + 1), c)] ↔
      x ∈ s.issued ∨ x = (UInt32.ofNat (s.issued.length + 1), c) := fun c x => by
    rw [List.mem_append, List.mem_singleton]
  unfold GipRequests.addRequest
  rw [h.next, htake]
  dsimp only
  cases answers.item with
  | false =>
      refine ⟨_, _, _, rfl, ⟨h.table, hnext _, numbered_snoc rfl h.numbered, ?_, ?_⟩, nofun⟩
      · rw [List.length_append]
        exact hcalls
      · exact h.books.make_free (hnew _) (hmade _)
  | true =>
      obtain ⟨hwell, hiter, hreleased⟩ := add_fresh
        (v := (⟨s.issued.length, cb, data⟩ : GipCmd C D)) h.table answers.shrunk answers.grown
        fun x hx => (hothers x ((h.books.kept x).mp hx).1).1
      refine ⟨_, _, _, rfl, ⟨hwell, hnext _, numbered_snoc rfl h.numbered, ?_, ?_⟩,
        fun _ => ⟨_, (hiter _).mpr (.inr rfl), fun hbusy => ?_⟩⟩
      · rw [List.length_append]
        exact hcalls
      · rw [hreleased]
        change Books _ _ _ (s.notes ++ [])
        rw [List.append_nil]
        exact h.books.make (hnew _) (hmade _) hiter
      · exact hnew _ ((h.books.kept _).mp (h.books.held _ hbusy)).1

/-- `gip_cmd`, as long as the numbers of its calls fit into a `req_id`. -/
theorem Kept.cmd (h : Kept s busy) (hlt : s.cmds + 1 < 2 ^ 32) (answers : GipAnswers)
    (msg : GipArg) (msgData : List UInt8) (cb : Option (C × D)) :
    Kept (s.cmd answers msg msgData cb).2 busy := by
  obtain ⟨handler, heq⟩ := set_header_eq (s := s) { s.header msg with reqId := 0 } msg
  have hcounted : Kept { s with handler := handler, cmds := s.cmds + 1 } busy :=
    ⟨h.table, h.next, h.numbered, Nat.le_succ_of_le h.calls, h.books⟩
  unfold GipRequests.cmd
  dsimp only
  rw [heq]
  cases cb with
  | none => exact hcounted.send_msg _ _ _
  | some f =>
      obtain ⟨cb, data⟩ := f
      dsimp only
      split
      · obtain ⟨addOk, reqId, mid, hadd, hmid, hadded⟩ := hcounted.add_request
          (Nat.lt_of_le_of_lt (Nat.succ_le_succ h.calls) hlt) (Nat.succ_le_succ h.calls) answers cb
          data
        rw [hadd]
        dsimp only
        have hset := hmid.set_header { s.header msg with reqId := reqId } msg
        cases addOk with
        | false => exact hset
        | true =>
            obtain ⟨c, hc, hidle⟩ := hadded rfl
            have hsent := hset.send_msg answers.buf { s.header msg with reqId := reqId } msgData
            rw [if_pos rfl]
            split
            · refine hsent.remove (x := (reqId, c)) answers.removed ?_ fun y =>
                ⟨fun hy => ⟨hy, fun heq => hidle (heq ▸ hy)⟩, And.left⟩
              change (reqId, c) ∈ (mid.setHeader _ msg).requestsInProgress.iter
              rwa [set_header_table]
            · exact hsent
      · exact hcounted

/-- What actions leave: the last header that was read, what the item waits for, and the number of
calls, which only grows. -/
structure Acted (s s' : GipRequests C D) : Prop where
  received : s'.received = s.received
  rdOnFull : s'.handler.mainloopItem.rdOnFull = s.handler.mainloopItem.rdOnFull
  cmds : s.cmds ≤ s'.cmds

theorem Acted.refl (s : GipRequests C D) : Acted s s := ⟨rfl, rfl, Nat.le_refl _⟩

theorem Acted.trans {mid : GipRequests C D} (h : Acted s mid) (h' : Acted mid s') : Acted s s' :=
  ⟨h'.received.trans h.received, h'.rdOnFull.trans h.rdOnFull, h.cmds.trans h'.cmds⟩

theorem Acted.set_header (m : GipMsgHeader) (msg : GipArg) : Acted s (s.setHeader m msg) := by
  cases msg <;> exact ⟨rfl, rfl, Nat.le_refl _⟩

theorem Acted.send_msg (malloc : Bool) (m : GipMsgHeader) (msgData : List UInt8) :
    Acted s (s.sendMsg malloc m msgData).2 := by
  refine ⟨rfl, ?_, Nat.le_refl _⟩
  unfold GipRequests.sendMsg
  rcases send_msg_cases s.handler malloc m msgData with ⟨slots, hsend, -⟩ | hsend
  · rw [hsend]
  · rw [hsend]

theorem Acted.remove (shrunk : Bool) (reqId : UInt32) : Acted s (s.remove shrunk reqId) :=
  ⟨rfl, rfl, Nat.le_refl _⟩

theorem Acted.cmd (answers : GipAnswers) (msg : GipArg) (msgData : List UInt8)
    (cb : Option (C × D)) : Acted s (s.cmd answers msg msgData cb).2 ∧
      s.cmds + 1 ≤ (s.cmd answers msg msgData cb).2.cmds := by
  have hset := Acted.set_header (s := s) { s.header msg with reqId := 0 } msg
  obtain ⟨handler, heq⟩ := set_header_eq (s := s) { s.header msg with reqId := 0 } msg
  rw [heq] at hset
  suffices hrest : Acted { s with handler := handler, cmds := s.cmds + 1 }
      (s.cmd answers msg msgData cb).2 by
    exact ⟨⟨hrest.received, hrest.rdOnFull.trans hset.rdOnFull,
      Nat.le_of_succ_le hrest.cmds⟩, hrest.cmds⟩
  unfold GipRequests.cmd
  dsimp only
  rw [heq]
  cases cb with
  | none => exact .send_msg _ _ _
  | some f =>
      obtain ⟨cb, data⟩ := f
      dsimp only
      split
      · generalize hmid : GipRequests.addRequest _ answers cb data = added
        obtain ⟨addOk, reqId, mid⟩ := added
        have hadded : Acted { s with handler := handler, cmds := s.cmds + 1 } mid := by
          cases hmid
          exact ⟨rfl, rfl, Nat.le_refl _⟩
        have hheader := hadded.trans (.set_header { s.header msg with reqId := reqId } msg)
        dsimp only
        split
        · have hsent := hheader.trans (.send_msg answers.buf { s.header msg with reqId := reqId }
            msgData)
          split
          · exact hsent.trans (.remove _ _)
          · exact hsent
        · exact hheader
      · exact .refl _

theorem Acted.act (action : GipAction C D) : Acted s (s.act action) := by
  cases action with
  | cmd answers msg msgData cb => exact (Acted.cmd answers msg msgData cb).1
  | reply malloc origRequest msg msgData => exact (Acted.set_header _ _).trans (.send_msg _ _ _)
  | notify malloc msg msgData => exact (Acted.set_header _ _).trans (.send_msg _ _ _)
  | write m => exact Acted.set_header m .received

theorem Acted.acts (actions : List (GipAction C D)) : Acted s (s.acts actions) := by
  induction actions generalizing s with
  | nil => exact .refl s
  | cons action rest ih => exact (Acted.act action).trans ih

theorem Kept.act (h : Kept s busy) (action : GipAction C D) (hlt : (s.act action).cmds < 2 ^ 32) :
    Kept (s.act action) busy := by
  cases action with
  | cmd answers msg msgData cb =>
      exact h.cmd (Nat.lt_of_le_of_lt (Acted.cmd answers msg msgData cb).2 hlt) _ _ _ _
  | reply malloc origRequest msg msgData => exact (h.set_header _ _).send_msg _ _ _
  | notify malloc msg msgData => exact (h.set_header _ _).send_msg _ _ _
  | write m => exact h.set_header m .received

theorem Kept.acts (h : Kept s busy) (actions : List (GipAction C D))
    (hlt : (s.acts actions).cmds < 2 ^ 32) : Kept (s.acts actions) busy := by
  induction actions generalizing s with
  | nil => exact h
  | cons action rest ih =>
      exact ih (h.act action (Nat.lt_of_le_of_lt (Acted.acts rest).cmds hlt)) hlt

end Books

section Replies

variable {C D : Type} {s s' : GipRequests C D}

/-- What is done with the header of the handler leaves its `req_id`. -/
def GipRequests.KeepsReqId (s : GipRequests C D) (actions : List (GipAction C D)) : Prop :=
  (s.acts actions).handler.msgBuf.reqId = s.handler.msgBuf.reqId

/-- The callback of a command, if it is called, leaves the `req_id` of the reply. -/
def GipRequests.ReplyKept (s : GipRequests C D) (payload : List UInt8) (script : GipScript C D) :
    Prop :=
  ∀ c ∈ s.requestsInProgress.find s.handler.msgBuf.reqId,
    ((s.noteReply payload).callBack c).KeepsReqId script.reply

/-- In a reply, the `req_id` is left as it came until `giph_got_reply` has read it for the last
time. -/
def HeaderKept (s : GipRequests C D) : GipInput C D → Prop
  | .act action =>
      s.handler.mainloopItem.rdOnFull = some .modeInfo → s.KeepsReqId [action]
  | .full bytes script =>
      (s.handler.mainloopItem.rdOnFull = some .msgHeader →
        (GipMsgHeader.ofBytes bytes).code ∈ [giprInitiate, giprOk, giprFailure] →
          (s.readHeader (GipMsgHeader.ofBytes bytes)).ReplyKept [] script) ∧
      (s.handler.mainloopItem.rdOnFull = some .modeInfo →
        let called := s.call .modeInfo bytes script.call
        called.handler.msgBuf.reqId = s.handler.msgBuf.reqId ∧ called.ReplyKept bytes script)
  | .write _ => True

/-- Between the header and the payload of a reply, the header is the one that came. -/
structure Matched (s : GipRequests C D) : Prop where
  kept : Kept s fun _ => False
  awaits : s.handler.mainloopItem.rdOnFull = some .modeInfo →
    s.handler.msgBuf.reqId = s.received.reqId

theorem Acted.got_reply (payload : List UInt8) (script : GipScript C D) :
    Acted s (s.gotReply payload script) := by
  have hnoted : Acted s (s.noteReply payload) := ⟨rfl, rfl, Nat.le_refl _⟩
  unfold GipRequests.gotReply
  dsimp only
  split
  · exact hnoted
  · next c _ =>
    have hcalled : Acted (s.noteReply payload) ((s.noteReply payload).callBack c) :=
      ⟨rfl, rfl, Nat.le_refl _⟩
    exact ((hnoted.trans hcalled).trans (.acts script.reply)).trans (.remove _ _)

/-- `giph_got_reply`, where the header is that of the reply and the callback leaves its `req_id`. -/
theorem Kept.got_reply (h : Kept s fun _ => False) (payload : List UInt8)
    {script : GipScript C D} (hreqId : s.handler.msgBuf.reqId = s.received.reqId)
    (hok : s.ReplyKept payload script) (hlt : (s.gotReply payload script).cmds < 2 ^ 32) :
    Kept (s.gotReply payload script) fun _ => False := by
  have hnoted : Kept (s.noteReply payload) fun _ => False := h.set_handler _
  unfold GipRequests.gotReply at hlt ⊢
  dsimp only at hlt ⊢
  split
  · exact hnoted
  · next c hfind =>
    rw [hfind] at hlt
    dsimp only at hlt
    obtain ⟨⟨reqId, v⟩, hmem, heq, rfl⟩ := (find_iff hnoted.table _ c).mp hfind
    cases eq_of_beq heq
    have hcalled : Kept ((s.noteReply payload).callBack v)
        (· = (s.handler.msgBuf.reqId, v)) := by
      refine ⟨h.table, h.next, h.numbered, h.calls, ?_⟩
      change Books _ _ _ (s.notes ++ [.use (s.received.reqId, v)])
      rw [← hreqId]
      exact h.books.use hmem id fun y => by rw [false_or]
    have hacted := hcalled.acts script.reply hlt
    have hkept : (((s.noteReply payload).callBack v).acts script.reply).handler.msgBuf.reqId =
        s.handler.msgBuf.reqId := hok v hfind
    generalize ((s.noteReply payload).callBack v).acts script.reply = after at hacted hkept ⊢
    rw [hkept]
    exact hacted.remove (x := (s.handler.msgBuf.reqId, v)) script.shrunk
      (hacted.books.held _ rfl) fun y => ⟨False.elim, fun hy => hy.2 hy.1⟩

theorem Acted.call (cb : GipCallback) (payload : List UInt8) (actions : List (GipAction C D)) :
    Acted s (s.call cb payload actions) := by
  have hnoted : Acted s { s with handler := s.handler.call cb payload } :=
    ⟨rfl, rfl, Nat.le_refl _⟩
  exact hnoted.trans (.acts actions)

theorem Kept.call (h : Kept s fun _ => False) (cb : GipCallback) (payload : List UInt8)
    (actions : List (GipAction C D)) (hlt : (s.call cb payload actions).cmds < 2 ^ 32) :
    Kept (s.call cb payload actions) fun _ => False :=
  (h.set_handler _).acts actions hlt

/-- What `giph_msg_header` does: it calls a callback, after `giph_got_reply` if it is a reply
without payload, or waits for a payload. -/
inductive HeaderStep (s : GipRequests C D) (script : GipScript C D) : GipRequests C D → Prop
  | call (cb : GipCallback) : HeaderStep s script (s.call cb [] script.call)
  | reply (cb : GipCallback) (hcode : s.handler.msgBuf.code ∈ [giprInitiate, giprOk, giprFailure]) :
      HeaderStep s script ((s.gotReply [] script).call cb [] script.call)
  | expect (size : Nat) (f : Giph) : HeaderStep s script (s.expect size f)

theorem header_step (s : GipRequests C D) (script : GipScript C D) :
    HeaderStep s script (s.msgHeader script) := by
  have hif : ∀ {p : Prop} [Decidable p] {yes no : GipRequests C D},
      (p → HeaderStep s script yes) → HeaderStep s script no →
        HeaderStep s script (if p then yes else no) := by
    intro p _ yes no hyes hno
    split
    · next hp => exact hyes hp
    · exact hno
  unfold GipRequests.msgHeader
  refine hif (fun _ => .call _) (hif (fun h => .reply _ ?_) (hif (fun h => .reply _ ?_)
    (hif (fun h => .reply _ ?_) ?_)))
  · rw [h]
    exact List.mem_cons_self ..
  · rw [h]
    exact List.mem_cons_of_mem _ (List.mem_cons_self ..)
  · rw [h]
    exact List.mem_cons_of_mem _ (List.mem_cons_of_mem _ (List.mem_cons_self ..))
  · exact hif (fun _ => .call _) (hif (fun _ => .call _) (hif (fun _ => .call _)
      (hif (fun _ => .call _) (hif (fun _ => .call _) (hif (fun _ => .expect _ _)
        (hif (fun _ => .expect _ _) (hif (fun _ => .expect _ _) (hif (fun _ => .call _)
          (hif (fun _ => .call _) (.call _))))))))))

theorem msg_header_cmds (script : GipScript C D) : s.cmds ≤ (s.msgHeader script).cmds := by
  have hcase := header_step s script
  generalize s.msgHeader script = out at hcase ⊢
  cases hcase with
  | call cb => exact (Acted.call cb [] script.call).cmds
  | reply cb hcode => exact ((Acted.got_reply [] script).trans (.call cb [] script.call)).cmds
  | expect size f => exact Nat.le_refl _

theorem write_turn_on_full {C : Type} (fd : MainloopFd C) (b : WrBuf) (n : Nat) :
    (fd.writeTurn b n).rdOnFull = fd.rdOnFull := by
  unfold MainloopFd.writeTurn
  split <;> rfl

theorem step_cmds {input : GipInput C D} (hstep : s.step input = some s') : s.cmds ≤ s'.cmds := by
  unfold GipRequests.step at hstep
  cases input with
  | act action =>
      cases hstep
      exact (Acted.act action).cmds
  | full bytes script =>
      dsimp only at hstep
      split at hstep
      · obtain ⟨f, -, rfl⟩ := Option.map_eq_some_iff.mp hstep
        cases f with
        | msgHeader => exact msg_header_cmds (s := s.readHeader (GipMsgHeader.ofBytes bytes)) script
        | bufferInfo => exact (Acted.call .bufferInfo bytes script.call).cmds
        | modeInfo =>
            exact ((Acted.call .modeInfo bytes script.call).trans (.got_reply bytes script)).cmds
        | bufferDamage => exact (Acted.call .bufferDamage bytes script.call).cmds
      · cases hstep
  | write n =>
      dsimp only at hstep
      split at hstep
      · split at hstep
        · cases hstep
          exact Nat.le_refl _
        · cases hstep
      · cases hstep

/-- `giph_msg_header`, where a header has just been read. -/
theorem Matched.msg_header {m : GipMsgHeader} {script : GipScript C D}
    (h : Kept s fun _ => False) (hitem : s.handler.mainloopItem.rdOnFull = some .msgHeader)
    (hok : m.code ∈ [giprInitiate, giprOk, giprFailure] → (s.readHeader m).ReplyKept [] script)
    (hlt : ((s.readHeader m).msgHeader script).cmds < 2 ^ 32) :
    Matched ((s.readHeader m).msgHeader script) := by
  have hread : Kept (s.readHeader m) fun _ => False :=
    ⟨h.table, h.next, h.numbered, h.calls, h.books⟩
  have hidle : ∀ {s' : GipRequests C D}, Acted (s.readHeader m) s' →
      s'.handler.mainloopItem.rdOnFull ≠ some .modeInfo := fun hacted heq => by
    have hsame := hitem.symm.trans (hacted.rdOnFull.symm.trans heq)
    cases hsame
  have hcase := header_step (s.readHeader m) script
  generalize (s.readHeader m).msgHeader script = out at hcase hlt ⊢
  cases hcase with
  | call cb =>
      exact ⟨hread.call cb [] script.call hlt, fun hmode =>
        absurd hmode (hidle (.call cb [] script.call))⟩
  | reply cb hcode =>
      have hacted := Acted.got_reply (s := s.readHeader m) [] script
      have hcall := Acted.call (s := (s.readHeader m).gotReply [] script) cb [] script.call
      have hreplied := hread.got_reply [] rfl (hok hcode) (Nat.lt_of_le_of_lt hcall.cmds hlt)
      exact ⟨hreplied.call cb [] script.call hlt, fun hmode =>
        absurd hmode (hidle (hacted.trans hcall))⟩
  | expect size f => exact ⟨hread.set_handler _, fun _ => rfl⟩

theorem Matched.step (h : Matched s) {input : GipInput C D} (hok : HeaderKept s input)
    (hstep : s.step input = some s') (hlt : s'.cmds < 2 ^ 32) : Matched s' := by
  unfold GipRequests.step at hstep
  cases input with
  | act action =>
      cases hstep
      have hacted := Acted.act (s := s) action
      refine ⟨h.kept.act action hlt, fun hmode => ?_⟩
      have hmode' := hacted.rdOnFull.symm.trans hmode
      exact (hok hmode').trans ((h.awaits hmode').trans (congrArg _ hacted.received.symm))
  | full bytes script =>
      dsimp only at hstep
      split at hstep
      · obtain ⟨f, hf, rfl⟩ := Option.map_eq_some_iff.mp hstep
        cases f with
        | msgHeader => exact .msg_header h.kept hf (hok.1 hf) hlt
        | bufferInfo => exact ⟨(h.kept.call .bufferInfo bytes script.call hlt).set_handler _, nofun⟩
        | modeInfo =>
            obtain ⟨hcall, hreply⟩ := hok.2 hf
            have hreplied := Acted.got_reply (s := s.call .modeInfo bytes script.call) bytes script
            have hcalled := h.kept.call .modeInfo bytes script.call
              (Nat.lt_of_le_of_lt hreplied.cmds hlt)
            have hreqId : (s.call .modeInfo bytes script.call).handler.msgBuf.reqId =
                (s.call .modeInfo bytes script.call).received.reqId :=
              hcall.trans ((h.awaits hf).trans (congrArg _
                (Acted.call .modeInfo bytes script.call).received.symm))
            exact ⟨(hcalled.got_reply bytes hreqId hreply hlt).set_handler _, nofun⟩
        | bufferDamage =>
            exact ⟨(h.kept.call .bufferDamage bytes script.call hlt).set_handler _, nofun⟩
      · cases hstep
  | write n =>
      dsimp only at hstep
      split at hstep
      · split at hstep
        · cases hstep
          refine ⟨h.kept.set_handler _, fun hmode => h.awaits (hmode.symm.trans ?_).symm⟩
          exact write_turn_on_full _ _ _
        · cases hstep
      · cases hstep

/-- A `gip_cmd_t` has one number. -/
theorem Kept.of_ptr {busy : UInt32 × GipCmd C D → Prop} (h : Kept s busy)
    {x y : UInt32 × GipCmd C D} (hx : x ∈ s.issued) (hy : y ∈ s.issued)
    (hptr : x.2.ptr = y.2.ptr) : x = y := by
  obtain ⟨i, hi⟩ := List.mem_iff_getElem?.mp hx
  obtain ⟨j, hj⟩ := List.mem_iff_getElem?.mp hy
  have hij : i = j := (h.numbered i x hi).2.symm.trans (hptr.trans (h.numbered j y hj).2)
  rw [hij] at hi
  exact Option.some.inj (hi.symm.trans hj)

/-- The bindings of a table are different. -/
theorem nodup_iter {ν : Type} {t : Hashtbl idKeys ν} (h : WellFormed t) : t.iter.Nodup :=
  h.distinct.imp fun {a b} hne heq => by
    rw [heq, LawfulKeys.refl b.1] at hne
    cases hne

/-- In every run of fewer than 2^32 calls of `gip_cmd` in which the `req_id` of a reply is left as
it came until `giph_got_reply` has read it for the last time, the commands have different
`req_id`s, a callback is called for a reply with the `req_id` of its command and with its data, and
when the handler is deleted each `gip_cmd_t` has been freed: it is called at most once, freed once,
and neither called nor freed after that. -/
theorem gip_replies_once
    (h : Reachable (eventRuns (· = .new) (GipRequests.step (C := C) (D := D)) HeaderKept) s)
    (hlt : s.cmds < 2 ^ 32) :
    s.issued.Pairwise (fun x y => x.1 ≠ y.1 ∧ x.2.ptr ≠ y.2.ptr) ∧
    (∀ reqId c, .use (reqId, c) ∈ s.notes → (reqId, c) ∈ s.issued) ∧
    InOrder (fun x => x.2.ptr) s.delete ∧
    ∀ x ∈ s.issued, .free x ∈ s.delete := by
  have hkept : Kept s fun _ => False := by
    refine (Reachable.induct (motive := fun s => s.cmds < 2 ^ 32 → Matched s) (fun s hinit => ?_)
      (fun s s' hs hstep hlt => ?_) h hlt).kept
    · cases hinit
      exact fun _ => ⟨.new, nofun⟩
    · obtain ⟨input, hok, hstep⟩ := hstep
      exact (hs (Nat.lt_of_le_of_lt (step_cmds hstep) hlt)).step hok hstep hlt
  obtain ⟨horder, hfreed⟩ := hkept.books.free_all s.requestsInProgress.iter
    (nodup_iter hkept.table) (fun _ => Iff.rfl) fun _ => id
  have hknown : ∀ n ∈ s.delete, n.item ∈ s.issued := by
    intro n hn
    rcases List.mem_append.mp hn with hn | hn
    · exact hkept.books.known n hn
    · obtain ⟨x, hx, rfl⟩ := List.mem_map.mp hn
      exact ((hkept.books.kept x).mp hx).1
  exact ⟨hkept.distinct (Nat.lt_of_le_of_lt hkept.calls hlt),
    fun reqId c huse => hkept.books.known _ huse,
    horder.rename fun a ha b hb hptr => hkept.of_ptr (hknown a ha) (hknown b hb) hptr, hfreed⟩

end Replies

section Examples

instance {C D : Type} (s : GipRequests C D) (payload : List UInt8) (script : GipScript C D) :
    Decidable (s.ReplyKept payload script) :=
  inferInstanceAs (Decidable (∀ c ∈ s.requestsInProgress.find s.handler.msgBuf.reqId,
    (((s.noteReply payload).callBack c).acts script.reply).handler.msgBuf.reqId =
      ((s.noteReply payload).callBack c).handler.msgBuf.reqId))

instance {C D : Type} (s : GipRequests C D) :
    (input : GipInput C D) → Decidable (HeaderKept s input)
  | .act action => inferInstanceAs (Decidable (s.handler.mainloopItem.rdOnFull = some .modeInfo →
      (s.acts [action]).handler.msgBuf.reqId = s.handler.msgBuf.reqId))
  | .full bytes script => inferInstanceAs (Decidable
      ((s.handler.mainloopItem.rdOnFull = some .msgHeader →
        (GipMsgHeader.ofBytes bytes).code ∈ [giprInitiate, giprOk, giprFailure] →
          (s.readHeader (GipMsgHeader.ofBytes bytes)).ReplyKept [] script) ∧
      (s.handler.mainloopItem.rdOnFull = some .modeInfo →
        (s.call .modeInfo bytes script.call).handler.msgBuf.reqId = s.handler.msgBuf.reqId ∧
          (s.call .modeInfo bytes script.call).ReplyKept bytes script)))
  | .write _ => inferInstanceAs (Decidable True)

/-- Every `malloc` succeeds. -/
def GipAnswers.all : GipAnswers := ⟨true, true, true, true, true, true⟩

/-- A reset is asked for, and is answered twice; the first time the callback notifies. -/
def resetTwice (notify : GipArg) : List (GipInput Unit Unit) :=
  let answer := GipInput.full (⟨giprOk, 1, 0⟩ : GipMsgHeader).bytes
    { call := [], reply := [.notify true notify []], shrunk := true }
  [.act (.cmd .all (.own ⟨gipcReset, 0, 0⟩) [] (some ((), ()))), answer, answer]

/-- The callback notifies with a header of its own. -/
theorem gip_replies_once_reset : ∃ s : GipRequests Unit Unit,
    s.notes = [.use (1, ⟨0, (), ()⟩), .free (1, ⟨0, (), ()⟩)] ∧ (1, ⟨0, (), ()⟩) ∈ s.issued := by
  have hrun : (runEvents GipRequests.step (fun (s : GipRequests Unit Unit) input =>
      decide (HeaderKept s input)) (resetTwice (.own ⟨gipnKeyUp, 0, 0⟩)) .new).map
      (fun s => (s.notes, s.cmds)) =
        some ([.use (1, ⟨0, (), ()⟩), .free (1, ⟨0, (), ()⟩)], 1) := by
    decide +kernel
  obtain ⟨s, hrun, hend⟩ := Option.map_eq_some_iff.mp hrun
  obtain ⟨hnotes, hcmds⟩ := Prod.mk.inj hend
  refine ⟨s, hnotes, (gip_replies_once (Reachable.run_events
    (fun s event hpass => of_decide_eq_true hpass) (.init rfl) hrun) ?_).2.1 1 _ ?_⟩
  · rw [hcmds]
    exact Nat.one_lt_two_pow (Nat.succ_ne_zero 31)
  · rw [hnotes]
    exact List.mem_cons_self ..

/-- The callback notifies with the header of the reply, whose `req_id` is zero then: the `gip_cmd_t`
stays in the table, and the second answer calls it again. -/
theorem gip_replies_twice :
    ¬ ∀ s : GipRequests Unit Unit,
      Reachable (eventRuns (· = .new) GipRequests.step fun _ _ => True) s → s.cmds < 2 ^ 32 →
        InOrder (fun x => x.2.ptr) s.notes := by
  intro hclaim
  have hrun : (runEvents GipRequests.step (fun (_ : GipRequests Unit Unit) _ => true)
      (resetTwice .received) .new).map (fun s => (s.notes, s.cmds)) =
        some ([.use (1, ⟨0, (), ()⟩), .use (1, ⟨0, (), ()⟩)], 1) := by
    decide +kernel
  obtain ⟨s, hrun, hend⟩ := Option.map_eq_some_iff.mp hrun
  obtain ⟨hnotes, hcmds⟩ := Prod.mk.inj hend
  have horder := hclaim s (Reachable.run_events (fun _ _ _ => trivial) (.init rfl) hrun)
    (by rw [hcmds]; exact Nat.one_lt_two_pow (Nat.succ_ne_zero 31))
  rw [hnotes] at horder
  obtain ⟨-, i, hfree⟩ := (List.pairwise_cons.mp horder).1 _ (List.mem_cons_self ..) rfl
  cases hfree

end Examples

end Kogata.User
