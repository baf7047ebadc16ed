import Kogata.Lib.Ring
import Kogata.Kernel.FileMode
import Kogata.Kernel.Halt

/-!
# IPC channels

The channel half of `kernel/user/ipc.c`. A channel is a pair of ends; each end owns a circular
buffer of the bytes that wait to be read there, and a write at one end goes into the buffer of
the other. `Channel.readRound` and `Channel.writeRound` are what one pass through the loop of
`channel_read` and `channel_write` does between taking and releasing the buffer's mutex, and
`channelRead` and `channelWrite` are the calls themselves.
-/

namespace Kogata.Kernel

open Lib

/-- `CHANNEL_BUFFER_SIZE`, also the size of `channel_t.buf`. -/
abbrev channelBufferSize : UInt32 := 200

/-- One of the two ends of a channel. -/
inductive End where
  | a
  | b
  deriving DecidableEq

/-- The opposite end. -/
def End.other : End → End
  | .a => .b
  | .b => .a

/-- `channel_t`. `otherSide` is null once the other end has been disposed of. -/
structure Channel where
  otherSide : Option End
  lock : Bool
  buf : Vector UInt8 200
  bufUseBegin : UInt32
  bufUsed : UInt32

/-- The two `channel_t` of a channel. -/
abbrev Channels := End → Channel

/-- The `fs_handle_t` fields that the channel calls read: whose channel it is, and `mode`. -/
structure ChannelHandle where
  node : End
  mode : UInt32

/-- The handle waits until the whole request has been served. -/
def ChannelHandle.blocking (h : ChannelHandle) : Bool :=
  h.mode &&& fmBlocking != 0

/-- The channel structures set up by `make_channel`; `malloc` leaves `buf` as it was. -/
def makeChannel (stale : End → Vector UInt8 200) : Channels := fun e =>
  { otherSide := some e.other, lock := false, buf := stale e, bufUseBegin := 0, bufUsed := 0 }

/-- The handles returned by `make_channel`. -/
def channelHandle (blocking : Bool) (e : End) : ChannelHandle :=
  { node := e, mode := fmRead ||| fmWrite ||| (if blocking then fmBlocking else 0) }

/-- `len` in `channel_read`: what is still wanted, or what there is. -/
def cutToUsed (bufUsed len : UInt32) : UInt32 :=
  if bufUsed < len then bufUsed else len

/-- `len` in `channel_write`: what is still to be written, or what there is room for. -/
def cutToRoom (bufUsed len : UInt32) : UInt32 :=
  if bufUsed + len > channelBufferSize then channelBufferSize - bufUsed else len

namespace Channel

/-- `mutex_lock(&c->lock)`. -/
def acquire (c : Channel) : Except Halt Channel :=
  if c.lock then .error .deadlock else .ok { c with lock := true }

/-- `mutex_unlock(&c->lock)`. -/
def release (c : Channel) : Channel :=
  { c with lock := false }

/-- The two `memcpy` of `channel_read`: `len` bytes from the start of the queue, the second
piece from the beginning of the array. -/
def copyOut (c : Channel) (len : UInt32) : Except Halt (List UInt8) := do
  let wraps := c.bufUseBegin + len > channelBufferSize
  let len0 := if wraps then channelBufferSize - c.bufUseBegin else len
  let len1 := if wraps then len - len0 else 0
  let block0 ← inside (Ring.load c.buf c.bufUseBegin.toNat len0.toNat)
  let block1 ← if len1 ≠ 0 then inside (Ring.load c.buf 0 len1.toNat) else pure []
  return block0 ++ block1

/-- Drop `len` bytes from the start of the queue. -/
def advance (c : Channel) (len : UInt32) : Channel :=
  let used := c.bufUsed - len
  let start := if used = 0 then 0 else (c.bufUseBegin + len) % channelBufferSize
  { c with bufUseBegin := start, bufUsed := used }

/-- One pass of `channel_read` with the mutex held: copy out what there is, at most `len`. -/
def readRound (c : Channel) (len : UInt32) : Except Halt (List UInt8 × Channel) :=
  let len := cutToUsed c.bufUsed len
  if len = 0 then .ok ([], c)
  else do
    let block ← c.copyOut len
    return (block, c.advance len)

/-- The `memcpy` calls of `channel_write`: `len` bytes of `buf` behind the used part of the
array, in one piece when the used part already wraps or the block does not, else in two. -/
def copyIn (c : Channel) (len : UInt32) (buf : List UInt8) :
    Except Halt (Vector UInt8 200) :=
  if c.bufUseBegin + c.bufUsed ≥ channelBufferSize then
    inside (Ring.store c.buf (c.bufUseBegin + c.bufUsed - channelBufferSize).toNat
      (buf.take len.toNat))
  else do
    let wraps := c.bufUseBegin + c.bufUsed + len > channelBufferSize
    let len0 := if wraps then channelBufferSize - c.bufUseBegin - c.bufUsed else len
    let len1 := if wraps then len - len0 else 0
    let cells ← inside (Ring.store c.buf (c.bufUseBegin + c.bufUsed).toNat
      (buf.take len0.toNat))
    if len1 ≠ 0 then inside (Ring.store cells 0 ((buf.drop len0.toNat).take len1.toNat))
    else pure cells

/-- One pass of `channel_write` with the mutex held: copy in what fits, at most `len` bytes of
`buf`. The first component is the number of bytes taken. -/
def writeRound (c : Channel) (len : UInt32) (buf : List UInt8) :
    Except Halt (UInt32 × Channel) :=
  let len := cutToRoom c.bufUsed len
  if len = 0 then .ok (0, c)
  else do
    let cells ← c.copyIn len buf
    return (len, { c with buf := cells, bufUsed := c.bufUsed + len })

end Channel

/-- How a channel call ends: it returns, or it parks in `wait_on` with part of the request
already served. -/
inductive Reply (α : Type) where
  | returned (value : α)
  | waiting (value : α)
  deriving DecidableEq

/-- The loop of `channel_read`; `ret` holds the bytes copied so far. -/
def channelReadLoop (h : ChannelHandle) (reqLen : UInt32) :
    Nat → List UInt8 → Channels → Except Halt (Reply (List UInt8) × Channels)
  | 0, _, _ => .error .diverge
  | fuel + 1, ret, cs => do
      let c ← (cs h.node).acquire
      let (block, c) ← c.readRound (reqLen - UInt32.ofNat ret.length)
      let cs := Function.update cs h.node c.release
      let ret := ret ++ block
      if !h.blocking then return (.returned ret, cs)
      if block.isEmpty then return (.waiting ret, cs)
      if UInt32.ofNat ret.length < reqLen then channelReadLoop h reqLen fuel ret cs
      else return (.returned ret, cs)

/-- `channel_read`: the bytes that were copied to the caller's buffer. -/
def channelRead (h : ChannelHandle) (reqLen : UInt32) (cs : Channels) :
    Except Halt (Reply (List UInt8) × Channels) :=
  channelReadLoop h reqLen (reqLen.toNat + 1) [] cs

/-- The loop of `channel_write` into the channel at `target`; `ret` bytes have been taken. -/
def channelWriteLoop (h : ChannelHandle) (target : End) (data : List UInt8) :
    Nat → UInt32 → Channels → Except Halt (Reply UInt32 × Channels)
  | 0, _, _ => .error .diverge
  | fuel + 1, ret, cs => do
      let reqLen := UInt32.ofNat data.length
      let c ← (cs target).acquire
      let (len, c) ← c.writeRound (reqLen - ret) (data.drop ret.toNat)
      let cs := Function.update cs target c.release
      let ret := ret + len
      if !h.blocking then return (.returned ret, cs)
      if len = 0 then return (.waiting ret, cs)
      if ret < reqLen then channelWriteLoop h target data fuel ret cs
      else return (.returned ret, cs)

/-- `channel_write`: how many bytes of `data` were taken. -/
def channelWrite (h : ChannelHandle) (data : List UInt8) (cs : Channels) :
    Except Halt (Reply UInt32 × Channels) :=
  match (cs h.node).otherSide with
  | none => .ok (.returned 0, cs)
  | some target => channelWriteLoop h target data (data.length + 1) 0 cs

end Kogata.Kernel
