import Kogata.Lib.Growing
import Kogata.User.Stdio
import Mathlib.Logic.Function.Basic

/-!
# Files

`lib/libc/stdio.c` with the buffers and the positions of a `FILE`. The kernel's side of a file is
a `Device`. Of the heap the library uses only what it allocates for output buffers; how often each
has been freed is counted. A store outside of the buffer and a failed assertion are faults.
-/

namespace Kogata.User.FileIo

open Lib Lib.Effect

/-- What a descriptor leads to. Both calls take a position; a read gives the bytes that it
transfers, and a write how many it has taken. -/
structure Device (D : Type) where
  read : D → Nat → Nat → List UInt8 × D
  write : D → Nat → List UInt8 → Nat × D
  read_le : ∀ d pos n, (read d pos n).1.length ≤ n
  write_le : ∀ d pos data, (write d pos data).1 ≤ data.length

/-- An output buffer: the caller's, or the one of a call of `malloc`. -/
structure OutBuf where
  owner : Option Nat
  capacity : Nat
  cells : Nat → UInt8

/-- A `FILE`. `moves` says that it is no character device, channel or directory, `size` is that of
`st`, and `tty` that it is `libc_tty_stdio`. -/
structure File (D : Type) where
  fd : Nat
  dev : D
  moves : Bool
  tty : Bool
  size : Nat
  canWrite : Bool
  pos : Nat
  eof : Bool
  err : Bool
  bufMode : Int
  outBuf : Option OutBuf
  outBufSize : Nat
  outBufUsed : Nat
  outBufOwned : Bool
  allocs : Nat
  frees : Nat → Nat
  callerFrees : Nat
  closed : Bool

/-- How a call ends without a result. -/
inductive Fault where
  /-- An assertion fails. -/
  | assert
  /-- A byte is stored outside of the output buffer. -/
  | overflow
  /-- A division by zero. -/
  | divide
  /-- The loop of `fgets` is not done after as many turns as it was given. -/
  | unfinished
  deriving DecidableEq

/-- A function of the library. -/
abbrev FileM (D : Type) := StateT (File D) (Except Fault)

/-- `SEEK_SET`. -/
abbrev seekSet : Int := 1
/-- `SEEK_CUR`. -/
abbrev seekCur : Int := 2
/-- `SEEK_END`. -/
abbrev seekEnd : Int := 4

namespace File

variable {D : Type}

/-- The bytes of the buffer that are in use. -/
def buffered (f : File D) : List UInt8 :=
  match f.outBuf with
  | some b => (List.range f.outBufUsed).map b.cells
  | none => []

/-- `stream->pos += ret`, where the file has a position. -/
def advance (f : File D) (ret : Nat) : File D :=
  if f.moves then { f with pos := (f.pos + ret) % 2 ^ 32 } else f

/-- `free` of an output buffer. -/
def free (f : File D) (b : OutBuf) : File D :=
  match b.owner with
  | some n => { f with frees := Function.update f.frees n (f.frees n + 1) }
  | none => { f with callerFrees := f.callerFrees + 1 }

/-- `malloc` of an output buffer. -/
def malloc (f : File D) (size : Nat) : OutBuf × File D :=
  ({ owner := some f.allocs, capacity := size, cells := fun _ => 0 },
    { f with allocs := f.allocs + 1 })

end File

variable {D : Type} (device : Device D)

/-- `sc_read` at the position of the file. -/
def scRead (n : Nat) : FileM D (List UInt8) := fun f =>
  .ok ((device.read f.dev f.pos n).1, { f with dev := (device.read f.dev f.pos n).2 })

/-- `sc_write` at the position of the file. -/
def scWrite (data : List UInt8) : FileM D Nat := fun f =>
  .ok ((device.write f.dev f.pos data).1, { f with dev := (device.write f.dev f.pos data).2 })

/-- `initialize_out_buffer`; `allocated` is the answer of `malloc`. -/
def initializeOutBuffer (f : File D) (bufMode : Int) (allocated : Bool) : File D :=
  let f := { f with
    bufMode := 0, outBuf := none, outBufSize := 0, outBufUsed := 0, outBufOwned := false }
  if bufMode ≠ 0 then
    if allocated then
      { (f.malloc bufsiz).2 with
        outBuf := some (f.malloc bufsiz).1
        bufMode := bufMode
        outBufSize := bufsiz
        outBufUsed := 0
        outBufOwned := true }
    else { f with canWrite := false }
  else f

/-- `fflush`. -/
def fflush : FileM D Int := do
  let f ← get
  if f.fd = 0 then return eof
  else if f.canWrite = false then return 0
  else if f.bufMode ≠ 0 ∧ 0 < f.outBufUsed then do
    let ret ← scWrite device f.buffered
    if ret ≠ f.outBufUsed then return eof
    else
      modify fun f => { f with outBufUsed := 0 }.advance ret
      return 0
  else return 0

/-- `setvbuf`; `buf` is the caller's buffer, and `allocated` the answer of `malloc`. -/
def setvbuf (buf : Option (Nat → UInt8)) (mode : Int) (size : Nat) (allocated : Bool) :
    FileM D Int := do
  let f ← get
  if f.fd = 0 ∨ f.canWrite = false ∨ size = 0 then return eof
  else if (← fflush device) ≠ 0 then return eof
  else do
    modify fun f => if f.outBufOwned then (f.outBuf.map f.free).getD f else f
    match buf with
    | none =>
        if allocated then do
          modify fun f =>
            { (f.malloc size).2 with outBuf := some (f.malloc size).1, outBufOwned := true }
          modify fun f => { f with bufMode := mode }
          return 0
        else do
          modify fun f => { f with outBuf := none, canWrite := false, bufMode := 0 }
          return eof
    | some cells => do
        modify fun f =>
          { f with
            outBuf := some { owner := none, capacity := size, cells := cells }
            outBufOwned := false }
        modify fun f => { f with bufMode := mode }
        return 0

/-- `setbuffer`. -/
def setbuffer (buf : Option (Nat → UInt8)) (size : Nat) (allocated : Bool) : FileM D Int :=
  setvbuf device buf (if buf.isSome then iofbf else ionbf) size allocated

/-- `setbuf`. -/
def setbuf (buf : Option (Nat → UInt8)) (allocated : Bool) : FileM D Int :=
  setvbuf device buf (if buf.isSome then iofbf else ionbf) bufsiz allocated

/-- `setlinebuf`. -/
def setlinebuf (allocated : Bool) : FileM D Int := setvbuf device none iolbf 0 allocated

/-- `buffered_putc`. -/
def bufferedPutc (c : Int32) : FileM D Int := do
  let f ← get
  if ¬(f.bufMode ≠ 0 ∧ f.outBufUsed < f.outBufSize) then throw .assert
  else match f.outBuf with
    | none => throw .overflow
    | some b =>
        if b.capacity ≤ f.outBufUsed then throw .overflow
        else do
          set { f with
            outBuf := some
              { b with cells := Function.update b.cells f.outBufUsed c.toUInt32.toUInt8 }
            outBufUsed := f.outBufUsed + 1 }
          if f.outBufUsed + 1 = f.outBufSize ∨ f.bufMode = iolbf ∧ c = 10 then
            if (← fflush device) ≠ 0 then return eof else return c.toInt
          else return c.toInt

/-- The end of the output functions: an unbuffered file is flushed, and the result is `ret` unless
that fails. -/
def flushUnbuffered (ret : Int) : FileM D Int := do
  if (← get).bufMode = ionbf then
    if (← fflush device) ≠ 0 then return eof else return ret
  else return ret

/-- `fwrite` of `size * nmemb` bytes. -/
def fwrite (data : List UInt8) (size : Nat) : FileM D Int := do
  let f ← get
  if f.fd = 0 ∨ f.canWrite = false then return 0
  else if (← fflush device) ≠ 0 then return 2 ^ 32 - 1
  else do
    let ret ← scWrite device data
    modify fun f => f.advance ret
    if size = 0 then throw .divide else return ret / size

/-- `fputc`. -/
def fputc (c : Int32) : FileM D Int := do
  let f ← get
  if f.fd = 0 ∨ f.canWrite = false then return eof
  else do
    let _ ← bufferedPutc device c
    flushUnbuffered device c.toInt

/-- The loop of `fputs`; a `char` is signed. -/
def fputsLoop (str : List UInt8) : FileM D Unit :=
  str.forM fun c => do
    let _ ← bufferedPutc device c.toInt8.toInt32

/-- `fputs`; the zero at the end of the string is left out. -/
def fputs (str : List UInt8) : FileM D Int := do
  let f ← get
  if f.fd = 0 ∨ f.canWrite = false then return eof
  else do
    fputsLoop device str
    flushUnbuffered device str.length

/-- `vfprintf_putc_fun`. -/
def vfprintfPutcFun (c : Int32) : FileM D Int := do
  if (← bufferedPutc device c) = eof then return -1 else return 1

/-- `vcprintf` with `vfprintf_putc_fun`, on the characters of the formatted text: `PUTCHAR`. -/
def vcprintf : List Int32 → Int → FileM D Int
  | [], ret => return ret
  | c :: rest, ret => do
      let tmp ← vfprintfPutcFun device c
      if tmp < 0 then return tmp else vcprintf rest (ret + 1)

/-- `vfprintf`, and `fprintf`, whose test is the same. -/
def vfprintf (text : List Int32) : FileM D Int := do
  let f ← get
  if f.fd = 0 ∨ f.canWrite = false then return -1
  else do
    let ret ← vcprintf device text 0
    if (← get).bufMode = ionbf then
      if (← fflush device) ≠ 0 then return -1 else return ret
    else return ret

/-- `fclose`. -/
def fclose : FileM D Int := do
  if (← fflush device) ≠ 0 then return eof
  else do
    modify fun f =>
      match f.outBuf with
      | some b => if f.outBufOwned then f.free b else f
      | none => f
    modify fun f => { f with closed := true }
    return 0

/-- `fread`: the bytes that it stores, the number of which it returns. -/
def fread (size nmemb : Nat) : FileM D (List UInt8) := do
  if size ≠ 1 then throw .assert
  else if (← fflush device) = eof then return []
  else if (← get).fd = 0 then return []
  else do
    let data ← scRead device (size * nmemb)
    modify fun f => f.advance data.length
    modify fun f =>
      if data.length < size * nmemb ∨ f.size ≤ f.pos then { f with eof := true } else f
    return data

/-- `fgetc`; a `char` is signed. -/
def fgetc : FileM D Int := do
  match ← fread device 1 1 with
  | x :: _ => return x.toInt8.toInt
  | [] => return User.eof

/-- The loop of `fgets`; `s` is what has been stored in front of `l`. -/
def fgetsLoop (size : Int) : Nat → List UInt8 → FileM D (List UInt8)
  | 0, _ => throw .unfinished
  | fuel + 1, s =>
      if s.length < size - 1 then do
        let c ← fgetc device
        if c = User.eof then return s
        else if c = 8 then
          if 0 < s.length then fgetsLoop size fuel s.dropLast
          else do
            if (← get).tty then
              let _ ← fputc device 32
            fgetsLoop size fuel s
        else
          let s := s ++ [UInt8.ofNat (c % 256).toNat]
          if c = 10 then return s else fgetsLoop size fuel s
      else return s

/-- `fgets`: the bytes of `s` up to the zero that it stores last. -/
def fgets (fuel : Nat) (size : Int) : FileM D (List UInt8) := do
  let s ← fgetsLoop device size fuel []
  return s ++ [0]

/-- `fsetpos`. -/
def fsetpos (pos : Nat) : FileM D Int := do
  let _ ← fflush device
  if pos ≤ (← get).size then do
    modify fun f => { f with pos := pos }
    return 0
  else do
    modify fun f => { f with eof := true }
    return -1

/-- A `long` as a `size_t`. -/
def toSize (x : Int) : Nat := (x % 2 ^ 32).toNat

/-- `fseek`. -/
def fseek (offset : Int) (whence : Int) : FileM D Int := do
  let f ← get
  if whence = seekSet then fsetpos device (toSize offset)
  else if whence = seekCur then fsetpos device (toSize (f.pos + offset))
  else if whence = seekEnd then fsetpos device (toSize (f.size + offset))
  else do
    set { f with err := true }
    return -1

/-- `ftell`, the position as a `long`. -/
def ftell : FileM D Int := do
  let f ← get
  return (f.pos + 2 ^ 31) % 2 ^ 32 - 2 ^ 31

/-- A regular file, of which the kernel transfers all that it is asked for. -/
def regular : Device (List UInt8) where
  read d pos n := (Growing.slice d pos n, d)
  write d pos data := (data.length, Growing.write 0 d pos data)
  read_le d pos n := by
    rw [Growing.length_slice]
    exact Nat.min_le_left _ _
  write_le _ _ _ := Nat.le_refl _

/-- `fopen` of a regular file that the kernel has opened. -/
def fopen (fd : Nat) (contents : List UInt8) (canWrite append allocated : Bool) :
    File (List UInt8) :=
  initializeOutBuffer
    { fd := fd
      dev := contents
      moves := true
      tty := false
      size := contents.length
      canWrite := canWrite
      pos := if append then contents.length else 0
      eof := false
      err := false
      bufMode := 0
      outBuf := none
      outBufSize := 0
      outBufUsed := 0
      outBufOwned := false
      allocs := 0
      frees := fun _ => 0
      callerFrees := 0
      closed := false }
    (if canWrite then iolbf else 0) allocated

end Kogata.User.FileIo
