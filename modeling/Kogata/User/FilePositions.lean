import Kogata.User.FileIo

/-!
# Stream positions

A regular file with a buffer against an `IdealFile` without one. `pos` counts the bytes that have
been written to the file and not those in the buffer, and `st.size` is the size at the opening:
`ftell` and `fseek` take the one for the position and the other for the end of the file. Each call
does what it does to the ideal file if and only if it `Fits` (`stream_positions_coherent`).
-/

namespace Kogata.User.FileIo

open Lib Lib.Effect Lib.Run

/-- A file without a buffer. -/
structure IdealFile where
  contents : List UInt8
  pos : Nat
  canWrite : Bool
  deriving DecidableEq

/-- What a call returns, or the bytes that it reads. -/
inductive Answer where
  | value (ret : Int)
  | bytes (data : List UInt8)
  deriving DecidableEq

/-- A call on a stream. -/
inductive StreamCall where
  | fputc (c : Int32)
  | fputs (str : List UInt8)
  | fwrite (data : List UInt8) (size : Nat)
  | fflush
  | fread (size nmemb : Nat)
  | fseek (offset : Int32) (whence : Int)
  | ftell
  deriving DecidableEq

namespace IdealFile

/-- Bytes are written where the file is. -/
def write (i : IdealFile) (data : List UInt8) : IdealFile :=
  { i with contents := Growing.write 0 i.contents i.pos data, pos := i.pos + data.length }

/-- The position that a seek asks for. -/
def target (i : IdealFile) (offset whence : Int) : Int :=
  if whence = seekSet then offset
  else if whence = seekCur then i.pos + offset
  else if whence = seekEnd then i.contents.length + offset
  else -1

/-- The position is one of the file. -/
def Inside (i : IdealFile) (target : Int) : Prop :=
  0 ≤ target ∧ target ≤ i.contents.length

instance (i : IdealFile) (target : Int) : Decidable (i.Inside target) :=
  inferInstanceAs (Decidable (_ ∧ _))

/-- What a call does to the file. -/
def run (i : IdealFile) : StreamCall → Answer × IdealFile
  | .fputc c =>
      if i.canWrite then (.value c.toInt, i.write [c.toUInt32.toUInt8]) else (.value User.eof, i)
  | .fputs str => if i.canWrite then (.value str.length, i.write str) else (.value User.eof, i)
  | .fwrite data size =>
      if i.canWrite then (.value (data.length / size), i.write data) else (.value 0, i)
  | .fflush => (.value 0, i)
  | .fread size nmemb =>
      (.bytes (Growing.slice i.contents i.pos (size * nmemb)),
        { i with pos := i.pos + (Growing.slice i.contents i.pos (size * nmemb)).length })
  | .fseek offset whence =>
      if i.Inside (i.target offset.toInt whence) then
        (.value 0, { i with pos := (i.target offset.toInt whence).toNat })
      else (.value (-1), i)
  | .ftell => (.value i.pos, i)

end IdealFile

/-- The file stays smaller than `2 ^ 32` bytes, which is what a `size_t` can count. -/
def StreamCall.Counted (i : IdealFile) : StreamCall → Prop
  | .fputc _ => i.pos + 1 < 2 ^ 32
  | .fputs str => i.pos + str.length < 2 ^ 32
  | .fwrite data _ => i.pos + data.length < 2 ^ 32
  | _ => True

/-- Run the call. -/
def StreamCall.run : StreamCall → FileM (List UInt8) Answer
  | .fputc c => Answer.value <$> FileIo.fputc regular c
  | .fputs str => Answer.value <$> FileIo.fputs regular str
  | .fwrite data size => Answer.value <$> FileIo.fwrite regular data size
  | .fflush => Answer.value <$> FileIo.fflush regular
  | .fread size nmemb => Answer.bytes <$> FileIo.fread regular size nmemb
  | .fseek offset whence => Answer.value <$> FileIo.fseek regular offset.toInt whence
  | .ftell => Answer.value <$> FileIo.ftell

/-- The position that `fseek` asks `fsetpos` for. -/
def File.target {D : Type} (f : File D) (offset whence : Int) : Nat :=
  if whence = seekSet then toSize offset
  else if whence = seekCur then toSize (f.pos + offset)
  else toSize (f.size + offset)

/-- A call that the position and the size of the file are good enough for. -/
def StreamCall.Fits (i : IdealFile) (f : File (List UInt8)) : StreamCall → Prop
  | .fwrite _ size => i.canWrite = true → size ≠ 0
  | .fread size _ => size = 1
  | .fseek offset whence =>
      if i.Inside (i.target offset.toInt whence) then
        f.target offset.toInt whence = i.target offset.toInt whence ∧
          f.target offset.toInt whence ≤ f.size
      else whence = seekSet ∨ whence = seekCur ∨ whence = seekEnd →
        f.size < f.target offset.toInt whence
  | .ftell => f.outBufUsed = 0 ∧ i.pos < 2 ^ 31
  | _ => True

/-- A file that has been opened, and the ideal file beside it. -/
def StreamStart (s : IdealFile × File (List UInt8)) : Prop :=
  ∃ (fd : Nat) (contents : List UInt8) (canWrite append allocated : Bool),
    fd ≠ 0 ∧ contents.length < 2 ^ 32 ∧ s.2 = fopen fd contents canWrite append allocated ∧
      s.1 = ⟨contents, s.2.pos, s.2.canWrite⟩

/-- The step of a call, which has to come back. -/
def streamNext (s : IdealFile × File (List UInt8)) (call : StreamCall) :
    Option (IdealFile × File (List UInt8)) :=
  match call.run s.2 with
  | .ok (_, f') => some ((s.1.run call).2, f')
  | .error _ => none

/-- The runs in which every call fits. -/
def streamRuns : System (IdealFile × File (List UInt8)) :=
  eventRuns StreamStart streamNext fun s call => call.Counted s.1 ∧ call.Fits s.1 s.2

section Coherent

/-- The file with what is in the buffer is the ideal file, and the position in the file is as far
behind as there are bytes in the buffer. -/
structure Pending (i : IdealFile) (f : File (List UInt8)) : Prop where
  fd : f.fd ≠ 0
  moves : f.moves = true
  canWrite : f.canWrite = i.canWrite
  closed : i.canWrite = false → f.outBufUsed = 0
  mode : i.canWrite = true → f.bufMode ≠ 0
  buffer : i.canWrite = true → ∃ b, f.outBuf = some b ∧ f.outBufSize ≤ b.capacity
  pos : f.pos + f.outBufUsed = i.pos
  contents : Growing.write 0 f.dev f.pos f.buffered = i.contents
  inside : f.pos ≤ f.dev.length
  size : f.size ≤ f.dev.length
  counted : i.contents.length < 2 ^ 32

/-- Between two calls there is room in the buffer. -/
structure Coherent (i : IdealFile) (f : File (List UInt8)) : Prop extends Pending i f where
  room : i.canWrite = true → f.outBufUsed < f.outBufSize

/-- There is nothing in the buffer, and the file is the ideal one. -/
structure Flushed (i : IdealFile) (f : File (List UInt8)) : Prop extends Pending i f where
  used : f.outBufUsed = 0

variable {i : IdealFile} {f : File (List UInt8)}

theorem File.buffered_of_empty {D : Type} {f : File D} (h : f.outBufUsed = 0) :
    f.buffered = [] := by
  unfold File.buffered
  rw [h]
  split <;> rfl

/-- A file with an empty buffer that has the contents and the position of the ideal one. -/
theorem flushed_of (hfd : f.fd ≠ 0) (hmoves : f.moves = true) (hwrite : f.canWrite = i.canWrite)
    (hmode : i.canWrite = true → f.bufMode ≠ 0)
    (hbuffer : i.canWrite = true → ∃ b, f.outBuf = some b ∧ f.outBufSize ≤ b.capacity)
    (hused : f.outBufUsed = 0) (hpos : f.pos = i.pos) (hdev : f.dev = i.contents)
    (hinside : i.pos ≤ i.contents.length) (hsize : f.size ≤ i.contents.length)
    (hcounted : i.contents.length < 2 ^ 32) : Flushed i f := by
  refine ⟨⟨hfd, hmoves, hwrite, fun _ => hused, hmode, hbuffer, ?_, ?_, ?_, hdev ▸ hsize, hcounted⟩,
    hused⟩
  · rw [hused, hpos, Nat.add_zero]
  · rw [File.buffered_of_empty hused, hdev, hpos, Growing.write_nil hinside]
  · rwa [hdev, hpos]

namespace Pending

theorem length_buffered (h : Pending i f) : f.buffered.length = f.outBufUsed := by
  cases hwrite : i.canWrite with
  | false => rw [h.closed hwrite, File.buffered_of_empty (h.closed hwrite), List.length_nil]
  | true =>
      obtain ⟨b, hb, -⟩ := h.buffer hwrite
      rw [File.buffered, hb, List.length_map, List.length_range]

theorem pos_le (h : Pending i f) : i.pos ≤ i.contents.length := by
  rw [← h.contents, Growing.length_write, h.length_buffered, h.pos]
  exact Nat.le_max_right _ _

/-- All of the buffer goes to the file. -/
theorem fflush (h : Pending i f) : Yields (FileIo.fflush regular) f fun ret f' =>
    ret = 0 ∧ Flushed i f' ∧ f'.size = f.size ∧ f'.outBufSize = f.outBufSize := by
  have hnone (hused : f.outBufUsed = 0) :
      Flushed i f ∧ f.size = f.size ∧ f.outBufSize = f.outBufSize :=
    ⟨⟨h, hused⟩, rfl, rfl⟩
  refine yields_bind_of_run (a := f) rfl (yields_ite (fun hfd => absurd hfd h.fd) fun _ => ?_)
  refine yields_ite (fun hread => yields_pure ⟨rfl, hnone ?_⟩) fun hwrite => ?_
  · exact h.closed (h.canWrite ▸ hread)
  rw [Bool.not_eq_false, h.canWrite] at hwrite
  refine yields_ite (fun _ => ?_) fun hempty => yields_pure ⟨rfl, hnone ?_⟩
  · have hlength := h.length_buffered
    have hpos := h.pos
    have hle := h.pos_le
    have hcounted := h.counted
    refine yields_bind_of_run (a := f.buffered.length) rfl ?_
    refine yields_ite (fun hpart => absurd hlength hpart) fun _ => ?_
    refine yields_bind_of_run (a := ()) rfl (yields_pure ⟨rfl, ?_⟩)
    have hmod : (f.pos + f.buffered.length) % 2 ^ 32 = i.pos := by
      rw [hlength, hpos]
      exact Nat.mod_eq_of_lt (Nat.lt_of_le_of_lt hle hcounted)
    have hcontents : (regular.write f.dev f.pos f.buffered).2 = i.contents := h.contents
    dsimp only
    rw [hcontents, File.advance, if_pos h.moves, hmod]
    have hsize : f.size ≤ i.contents.length := by
      rw [← h.contents, Growing.length_write]
      exact Nat.le_trans h.size (Nat.le_max_left _ _)
    exact ⟨flushed_of h.fd h.moves h.canWrite h.mode h.buffer rfl rfl rfl hle hsize hcounted, rfl,
      rfl⟩
  · by_contra hne
    exact hempty ⟨h.mode hwrite, Nat.pos_of_ne_zero hne⟩

end Pending

namespace Flushed

theorem pos_eq (h : Flushed i f) : f.pos = i.pos := by
  have hpos := h.pos
  rwa [h.used, Nat.add_zero] at hpos

theorem dev_eq (h : Flushed i f) : f.dev = i.contents := by
  rw [← h.contents, File.buffered_of_empty h.used, Growing.write_nil h.inside]

theorem coherent (h : Flushed i f) (hsize : i.canWrite = true → 0 < f.outBufSize) :
    Coherent i f :=
  ⟨h.toPending, fun hwrite => h.used ▸ hsize hwrite⟩

end Flushed

theorem Coherent.size_pos (h : Coherent i f) (hwrite : i.canWrite = true) : 0 < f.outBufSize :=
  Nat.zero_lt_of_lt (h.room hwrite)

/-- A flush between two calls. -/
theorem Coherent.fflush (h : Coherent i f) : Yields (FileIo.fflush regular) f fun ret f' =>
    ret = 0 ∧ Flushed i f' ∧ Coherent i f' ∧ f'.size = f.size :=
  h.toPending.fflush.mono fun _ _ hpost => ⟨hpost.1, hpost.2.1,
    hpost.2.1.coherent fun hwrite => hpost.2.2.2 ▸ h.size_pos hwrite, hpost.2.2.1⟩

end Coherent

section Writes

variable {i : IdealFile} {f : File (List UInt8)}

theorem write_length (i : IdealFile) (data : List UInt8) :
    (i.write data).contents.length = max i.contents.length (i.pos + data.length) :=
  Growing.length_write

theorem write_write (i : IdealFile) (data next : List UInt8) :
    (i.write data).write next = i.write (data ++ next) := by
  rw [IdealFile.write, IdealFile.write, IdealFile.write, Growing.write_append, List.length_append,
    Nat.add_assoc]

/-- A byte is stored behind those that are in the buffer. -/
theorem buffered_store {D : Type} (f : File D) (b : OutBuf) (hb : f.outBuf = some b) (x : UInt8) :
    File.buffered { f with
      outBuf := some { b with cells := Function.update b.cells f.outBufUsed x }
      outBufUsed := f.outBufUsed + 1 } = f.buffered ++ [x] := by
  have hbefore : (List.range f.outBufUsed).map (Function.update b.cells f.outBufUsed x) =
      (List.range f.outBufUsed).map b.cells :=
    List.map_congr_left fun n hn => Function.update_of_ne (Nat.ne_of_lt (List.mem_range.mp hn)) _ _
  rw [File.buffered, File.buffered, hb]
  dsimp only
  rw [List.range_succ, List.map_append, hbefore, List.map_singleton, Function.update_self]

/-- A character that is put is written to the ideal file. -/
theorem Coherent.buffered_putc (h : Coherent i f) (hwrite : i.canWrite = true) (c : Int32)
    (hcounted : i.pos + 1 < 2 ^ 32) : Yields (bufferedPutc regular c) f fun ret f' =>
      ret = c.toInt ∧ Coherent (i.write [c.toUInt32.toUInt8]) f' := by
  obtain ⟨b, hb, hcapacity⟩ := h.buffer hwrite
  have hroom := h.room hwrite
  have hstored : Pending (i.write [c.toUInt32.toUInt8]) { f with
      outBuf := some { b with cells := Function.update b.cells f.outBufUsed c.toUInt32.toUInt8 }
      outBufUsed := f.outBufUsed + 1 } := by
    refine ⟨h.fd, h.moves, h.canWrite, fun hno => ?_, h.mode, fun _ => ⟨_, rfl, hcapacity⟩, ?_, ?_,
      h.inside, h.size, ?_⟩
    · exact absurd (hno.symm.trans hwrite) (by decide)
    · show f.pos + (f.outBufUsed + 1) = i.pos + 1
      rw [← h.pos, Nat.add_assoc]
    · rw [buffered_store f b hb, Growing.write_append, h.contents, h.length_buffered, h.pos]
      rfl
    · rw [write_length]
      exact Nat.max_lt.mpr ⟨h.counted, hcounted⟩
  refine yields_bind_of_run (a := f) rfl (yields_ite (fun hfull => ?_) fun _ => ?_)
  · exact absurd ⟨h.mode hwrite, hroom⟩ hfull
  rw [hb]
  refine yields_ite (fun hfull => absurd hroom (by omega)) fun _ => ?_
  refine yields_bind_of_run (a := ()) rfl (yields_ite (fun _ => ?_) fun hrest => ?_)
  · refine hstored.fflush.bind fun ret f' hpost => ?_
    obtain ⟨rfl, hflushed, -, hsize⟩ := hpost
    refine yields_ite (fun hfailed => absurd rfl hfailed) fun _ => yields_pure ⟨rfl, ?_⟩
    exact hflushed.coherent fun _ => by rw [hsize]; exact Nat.zero_lt_of_lt hroom
  · refine yields_pure ⟨rfl, hstored, fun _ => ?_⟩
    have hne : f.outBufUsed + 1 ≠ f.outBufSize := fun heq => hrest (.inl heq)
    exact Nat.lt_of_le_of_ne hroom hne

/-- The end of the output functions. -/
theorem Coherent.flush_unbuffered (h : Coherent i f) (ret : Int) :
    Yields (flushUnbuffered regular ret) f fun ret' f' => ret' = ret ∧ Coherent i f' := by
  refine yields_bind_of_run (a := f) rfl (yields_ite (fun _ => ?_) fun _ => yields_pure ⟨rfl, h⟩)
  refine h.fflush.bind fun ret' f' hpost => ?_
  exact yields_ite (fun hfailed => absurd hpost.1 hfailed) fun _ => yields_pure ⟨rfl, hpost.2.2.1⟩

/-- The byte of a signed `char`. -/
theorem byte_of_char (x : UInt8) : x.toInt8.toInt32.toUInt32.toUInt8 = x := by
  refine UInt8.eq_of_toBitVec_eq ?_
  show (x.toBitVec.signExtend 32).setWidth 8 = x.toBitVec
  ext k hk
  rw [BitVec.getElem_setWidth, BitVec.getLsbD_signExtend, decide_eq_true (show k < 32 by omega),
    Bool.true_and, if_pos hk]
  rfl

/-- The loop of `fputs`, over the string. -/
theorem Coherent.fputs_loop (h : Coherent i f) (hwrite : i.canWrite = true) (str : List UInt8)
    (hcounted : i.pos + str.length < 2 ^ 32) :
    Yields (fputsLoop regular str) f fun _ f' => Coherent (i.write str) f' := by
  induction str generalizing i f with
  | nil =>
      have hsame : i.write [] = i := by
        rw [IdealFile.write, Growing.write_nil h.pos_le]
        rfl
      rw [hsame]
      exact yields_pure h
  | cons x rest ih =>
      rw [List.length_cons] at hcounted
      have hput := h.buffered_putc hwrite x.toInt8.toInt32 (by omega)
      rw [byte_of_char] at hput
      have hbody : Yields (bufferedPutc regular x.toInt8.toInt32 >>= fun _ => pure PUnit.unit) f
          fun _ f' => Coherent (i.write [x]) f' :=
        hput.bind fun _ _ hpost => yields_pure hpost.2
      refine hbody.bind fun _ f' hpost => ?_
      refine (ih hpost hwrite ?_).mono fun _ _ hrest => ?_
      · show i.pos + 1 + rest.length < 2 ^ 32
        omega
      · rwa [write_write] at hrest

/-- A file that is not written to is not opened for it. -/
theorem Pending.opened (h : Pending i f) (hwrite : i.canWrite = true) :
    ¬(f.fd = 0 ∨ f.canWrite = false) := by
  rw [h.canWrite, hwrite]
  exact fun hno => hno.elim h.fd nofun

theorem Pending.read_only (h : Pending i f) (hread : i.canWrite = false) :
    f.fd = 0 ∨ f.canWrite = false := by
  rw [h.canWrite]
  exact .inr hread

theorem Coherent.fwrite (h : Coherent i f) (hwrite : i.canWrite = true) (data : List UInt8)
    {size : Nat} (hsize : size ≠ 0) (hcounted : i.pos + data.length < 2 ^ 32) :
    Yields (FileIo.fwrite regular data size) f fun ret f' =>
      ret = data.length / size ∧ Coherent (i.write data) f' := by
  refine yields_bind_of_run (a := f) rfl (yields_ite (fun hno => absurd hno (h.opened hwrite))
    fun _ => h.fflush.bind fun ret mid hpost => ?_)
  obtain ⟨rfl, hflushed, hmid, -⟩ := hpost
  refine yields_ite (fun hfailed => absurd rfl hfailed) fun _ => ?_
  refine yields_bind_of_run (a := data.length) rfl (yields_bind_of_run (a := ()) rfl ?_)
  refine yields_ite (fun hzero => absurd hzero hsize) fun _ => yields_pure ⟨rfl, ?_⟩
  have hmod : (mid.pos + data.length) % 2 ^ 32 = i.pos + data.length := by
    rw [hflushed.pos_eq, Nat.mod_eq_of_lt hcounted]
  have hcontents : (regular.write mid.dev mid.pos data).2 = (i.write data).contents := by
    rw [hflushed.dev_eq, hflushed.pos_eq]
    rfl
  have hlength := write_length i data
  dsimp only
  rw [hcontents, File.advance, if_pos hmid.moves, hmod]
  have hsize : mid.size ≤ (i.write data).contents.length := by
    rw [hlength]
    exact Nat.le_trans (hflushed.dev_eq ▸ hmid.size) (Nat.le_max_left _ _)
  have hinside : (i.write data).pos ≤ (i.write data).contents.length := by
    rw [hlength]
    exact Nat.le_max_right _ _
  have hless : (i.write data).contents.length < 2 ^ 32 := by
    rw [hlength]
    exact Nat.max_lt.mpr ⟨h.counted, hcounted⟩
  have hdone : Flushed (i.write data) { mid with
      dev := (i.write data).contents, pos := i.pos + data.length } :=
    flushed_of hmid.fd hmid.moves hmid.canWrite hmid.mode hmid.buffer hflushed.used rfl rfl hinside
      hsize hless
  exact hdone.coherent hmid.size_pos

/-- `fwrite` of elements without size divides by zero when the bytes are written. -/
theorem Coherent.fwrite_zero (h : Coherent i f) (hwrite : i.canWrite = true)
    (data : List UInt8) : Ensures (FileIo.fwrite regular data 0) f fun _ _ => False := by
  refine ensures_bind_of_run (a := f) rfl ?_
  refine ensures_ite (fun hno => absurd hno (h.opened hwrite)) fun _ => ?_
  refine h.fflush.ensures.bind fun ret mid hpost => ?_
  refine ensures_ite (fun hfailed => absurd hpost.1 hfailed) fun _ => ?_
  refine ensures_bind_of_run (a := data.length) rfl (ensures_bind_of_run (a := ()) rfl ?_)
  exact ensures_ite (fun _ => ensures_throw _) fun hne => absurd rfl hne

end Writes

section Positions

variable {i : IdealFile} {f : File (List UInt8)}

/-- The flags do not matter. -/
theorem Coherent.flagged (h : Coherent i f) (eof err : Bool) :
    Coherent i { f with eof := eof, err := err } :=
  ⟨⟨h.fd, h.moves, h.canWrite, h.closed, h.mode, h.buffer, h.pos, h.contents, h.inside, h.size,
    h.counted⟩, h.room⟩

/-- The file is moved to a position inside of it. -/
theorem Flushed.move (h : Flushed i f) {pos : Nat} (hpos : pos ≤ i.contents.length) (eof : Bool)
    (hsize : i.canWrite = true → 0 < f.outBufSize) :
    Coherent { i with pos := pos } { f with pos := pos, eof := eof } :=
  have hend : f.size ≤ i.contents.length := h.dev_eq ▸ h.size
  (flushed_of (i := { i with pos := pos }) (f := { f with pos := pos, eof := eof }) h.fd h.moves
    h.canWrite h.mode h.buffer h.used rfl h.dev_eq hpos hend h.counted).coherent hsize

theorem Coherent.fread (h : Coherent i f) (nmemb : Nat) :
    Yields (FileIo.fread regular 1 nmemb) f fun data f' =>
      data = Growing.slice i.contents i.pos (1 * nmemb) ∧
        Coherent { i with pos := i.pos + data.length } f' := by
  refine yields_ite (fun hsize => absurd rfl hsize) fun _ => h.fflush.bind fun ret mid hpost => ?_
  obtain ⟨rfl, hflushed, hmid, -⟩ := hpost
  refine yields_ite (fun heof => nomatch heof) fun _ => yields_bind_of_run (a := mid) rfl ?_
  refine yields_ite (fun hfd => absurd hfd hmid.fd) fun _ => ?_
  have hread : scRead regular (1 * nmemb) mid =
      .ok (Growing.slice i.contents i.pos (1 * nmemb), mid) := by
    rw [← hflushed.dev_eq, ← hflushed.pos_eq]
    rfl
  refine yields_bind_of_run hread ?_
  refine yields_bind_of_run (a := ()) rfl (yields_bind_of_run (a := ()) rfl (yields_pure ⟨rfl, ?_⟩))
  have hinside : i.pos + (Growing.slice i.contents i.pos (1 * nmemb)).length ≤
      i.contents.length := by
    have hle := h.pos_le
    rw [Growing.length_slice]
    omega
  have hmod : (mid.pos + (Growing.slice i.contents i.pos (1 * nmemb)).length) % 2 ^ 32 =
      i.pos + (Growing.slice i.contents i.pos (1 * nmemb)).length := by
    rw [hflushed.pos_eq]
    exact Nat.mod_eq_of_lt (Nat.lt_of_le_of_lt hinside h.counted)
  dsimp only
  rw [File.advance, if_pos hmid.moves, hmod]
  split
  · exact hflushed.move hinside true hmid.size_pos
  · exact hflushed.move hinside mid.eof hmid.size_pos

/-- `fsetpos` looks only at the size at the opening. -/
theorem Coherent.fsetpos (h : Coherent i f) (pos : Nat) :
    Yields (FileIo.fsetpos regular pos) f fun ret f' =>
      if pos ≤ f.size then ret = 0 ∧ f'.pos = pos ∧ f'.outBufUsed = 0 ∧
        Coherent { i with pos := pos } f'
      else ret = -1 ∧ Coherent i f' := by
  refine h.fflush.bind fun ret mid hpost => ?_
  obtain ⟨-, hflushed, hmid, hsize⟩ := hpost
  refine yields_bind_of_run (a := mid) rfl ?_
  rw [← hsize]
  refine yields_ite (fun hle => ?_) fun hless => ?_
  · refine yields_bind_of_run (a := ()) rfl (yields_pure ?_)
    rw [if_pos hle]
    have hinside : pos ≤ i.contents.length :=
      Nat.le_trans hle (hflushed.dev_eq ▸ hmid.size)
    exact ⟨rfl, rfl, hflushed.used, hflushed.move hinside mid.eof hmid.size_pos⟩
  · refine yields_bind_of_run (a := ()) rfl (yields_pure ?_)
    rw [if_neg hless]
    exact ⟨rfl, hmid.flagged true mid.err⟩

/-- `fseek` is `fsetpos` of the position that it asks for. -/
theorem fseek_eq (f : File (List UInt8)) (offset whence : Int) :
    FileIo.fseek regular offset whence f =
      if whence = seekSet ∨ whence = seekCur ∨ whence = seekEnd then
        FileIo.fsetpos regular (f.target offset whence) f
      else .ok (-1, { f with err := true }) := by
  rw [FileIo.fseek, run_bind_of_ok (a := f) rfl, File.target]
  by_cases hset : whence = seekSet
  · rw [if_pos hset, if_pos hset, if_pos (.inl hset)]
  · by_cases hcur : whence = seekCur
    · rw [if_neg hset, if_pos hcur, if_neg hset, if_pos hcur, if_pos (.inr (.inl hcur))]
    · rw [if_neg hset, if_neg hcur, if_neg hset, if_neg hcur]
      by_cases hend : whence = seekEnd
      · rw [if_pos hend, if_pos (.inr (.inr hend))]
      · rw [if_neg hend, if_neg (by simp only [hset, hcur, hend, or_self, not_false_iff])]
        rfl

end Positions

section Calls

variable {i : IdealFile} {f : File (List UInt8)}

/-- The call returns what it does on the ideal file, and the file stays like it. -/
def StreamCall.Right (call : StreamCall) (i : IdealFile) (f : File (List UInt8)) : Prop :=
  Yields call.run f fun answer f' => answer = (i.run call).1 ∧ Coherent (i.run call).2 f'

/-- A seek that is asked for, on the file and on the ideal one. -/
theorem fseek_right_iff (h : Coherent i f) (offset : Int32) (whence : Int) :
    (StreamCall.fseek offset whence).Right i f ↔ (StreamCall.fseek offset whence).Fits i f := by
  rw [StreamCall.Right, StreamCall.run, yields_map_iff, StreamCall.Fits, IdealFile.run]
  by_cases hvalid : whence = seekSet ∨ whence = seekCur ∨ whence = seekEnd
  · have hseek := fseek_eq f offset.toInt whence
    rw [if_pos hvalid] at hseek
    obtain ⟨ret, f', hrun, hpost⟩ := h.fsetpos (f.target offset.toInt whence)
    rw [← hseek] at hrun
    rw [yields_iff_of_run hrun]
    by_cases hle : f.target offset.toInt whence ≤ f.size
    · rw [if_pos hle] at hpost
      obtain ⟨rfl, hpos, hused, hmoved⟩ := hpost
      by_cases hin : i.Inside (i.target offset.toInt whence)
      · rw [if_pos hin, if_pos hin]
        refine ⟨fun hright => ⟨?_, hle⟩, fun hfits => ⟨rfl, ?_⟩⟩
        · have hat := hright.2.pos
          rw [hpos, hused, Nat.add_zero] at hat
          rw [hat]
          exact Int.toNat_of_nonneg hin.1
        · rw [← hfits.1, Int.toNat_natCast]
          exact hmoved
      · rw [if_neg hin, if_neg hin]
        exact iff_of_false (fun hright => nomatch hright.1)
          fun hfits => Nat.not_lt_of_le hle (hfits hvalid)
    · rw [if_neg hle] at hpost
      obtain ⟨rfl, hsame⟩ := hpost
      by_cases hin : i.Inside (i.target offset.toInt whence)
      · rw [if_pos hin, if_pos hin]
        exact iff_of_false (fun hright => nomatch hright.1) fun hfits => hle hfits.2
      · rw [if_neg hin, if_neg hin]
        exact iff_of_true ⟨rfl, hsame⟩ fun _ => Nat.lt_of_not_le hle
  · have hseek := fseek_eq f offset.toInt whence
    rw [if_neg hvalid] at hseek
    have houtside : ¬ i.Inside (i.target offset.toInt whence) := by
      obtain ⟨hset, hcur, hend⟩ := not_or.mp hvalid |>.imp_right not_or.mp
      rw [IdealFile.target, if_neg hset, if_neg hcur, if_neg hend]
      exact fun hin => absurd hin.1 (by decide)
    rw [if_neg houtside, if_neg houtside]
    refine iff_of_true (yields_of_run hseek ⟨rfl, h.flagged f.eof true⟩) ?_
    exact fun hyes => absurd hyes hvalid

/-- The position as a `long`. -/
theorem ftell_right_iff (h : Coherent i f) :
    StreamCall.ftell.Right i f ↔ StreamCall.ftell.Fits i f := by
  have hpos := h.pos
  have hle := h.pos_le
  have hcounted := h.counted
  rw [StreamCall.Right, StreamCall.run, yields_map_iff, StreamCall.Fits, IdealFile.run,
    yields_iff_of_run (show FileIo.ftell f = .ok ((f.pos + 2 ^ 31) % 2 ^ 32 - 2 ^ 31, f) from rfl)]
  constructor
  · rintro ⟨hanswer, -⟩
    have hvalue := Answer.value.inj hanswer
    omega
  · rintro ⟨hused, hsmall⟩
    refine ⟨congrArg Answer.value ?_, h⟩
    omega

/-- A call on a coherent file does what it does on the ideal one if and only if it fits. -/
theorem call_right_iff (h : Coherent i f) {call : StreamCall} (hcounted : call.Counted i) :
    call.Right i f ↔ call.Fits i f := by
  cases call with
  | fputc c =>
      refine iff_of_true ?_ trivial
      rw [StreamCall.Right, StreamCall.run, yields_map_iff, IdealFile.run]
      split
      · next hwrite =>
          refine yields_bind_of_run (a := f) rfl ?_
          refine yields_ite (fun hno => absurd hno (h.opened hwrite)) fun _ => ?_
          refine (h.buffered_putc hwrite c hcounted).bind fun _ f' hpost => ?_
          exact (hpost.2.flush_unbuffered _).mono fun _ _ hend => ⟨congrArg _ hend.1, hend.2⟩
      · next hread =>
          refine yields_bind_of_run (a := f) rfl ?_
          refine yields_ite (fun _ => yields_pure ⟨rfl, h⟩) fun hopened => ?_
          exact absurd (h.read_only (Bool.not_eq_true _ ▸ hread)) hopened
  | fputs str =>
      refine iff_of_true ?_ trivial
      rw [StreamCall.Right, StreamCall.run, yields_map_iff, IdealFile.run]
      split
      · next hwrite =>
          refine yields_bind_of_run (a := f) rfl ?_
          refine yields_ite (fun hno => absurd hno (h.opened hwrite)) fun _ => ?_
          refine (h.fputs_loop hwrite str hcounted).bind fun _ f' hpost => ?_
          exact (hpost.flush_unbuffered _).mono fun _ _ hend => ⟨congrArg _ hend.1, hend.2⟩
      · next hread =>
          refine yields_bind_of_run (a := f) rfl ?_
          refine yields_ite (fun _ => yields_pure ⟨rfl, h⟩) fun hopened => ?_
          exact absurd (h.read_only (Bool.not_eq_true _ ▸ hread)) hopened
  | fwrite data size =>
      rw [StreamCall.Right, StreamCall.run, yields_map_iff, StreamCall.Fits, IdealFile.run]
      split
      · next hwrite =>
          refine ⟨fun hright _ hzero => ?_, fun hfits => ?_⟩
          · subst hzero
            obtain ⟨ret, f', hrun, -⟩ := hright
            exact h.fwrite_zero hwrite data ret f' hrun
          · exact (h.fwrite hwrite data (hfits hwrite) hcounted).mono fun _ _ hpost =>
              ⟨congrArg _ hpost.1, hpost.2⟩
      · next hread =>
          refine iff_of_true ?_ fun hwrite => absurd hwrite hread
          refine yields_bind_of_run (a := f) rfl ?_
          refine yields_ite (fun _ => yields_pure ⟨rfl, h⟩) fun hopened => ?_
          exact absurd (h.read_only (Bool.not_eq_true _ ▸ hread)) hopened
  | fflush =>
      refine iff_of_true ?_ trivial
      rw [StreamCall.Right, StreamCall.run, yields_map_iff]
      exact h.fflush.mono fun _ _ hpost => ⟨congrArg _ hpost.1, hpost.2.2.1⟩
  | fread size nmemb =>
      rw [StreamCall.Right, StreamCall.run, yields_map_iff, StreamCall.Fits, IdealFile.run]
      refine ⟨fun hright => ?_, fun hone => ?_⟩
      · by_contra hsize
        obtain ⟨data, f', hrun, -⟩ := hright
        rw [FileIo.fread, if_pos hsize] at hrun
        cases hrun
      · subst hone
        exact (h.fread nmemb).mono fun data _ hpost => ⟨congrArg _ hpost.1, hpost.1 ▸ hpost.2⟩
  | fseek offset whence => exact fseek_right_iff h offset whence
  | ftell => exact ftell_right_iff h

end Calls

section Runs

variable {i : IdealFile} {f : File (List UInt8)}

theorem StreamStart.coherent {s : IdealFile × File (List UInt8)} (h : StreamStart s) :
    Coherent s.1 s.2 := by
  obtain ⟨fd, contents, canWrite, append, allocated, hfd, hlength, hfile, hideal⟩ := h
  obtain ⟨i, f⟩ := s
  dsimp only at hfile hideal
  subst hfile
  subst hideal
  have hpos : (if append then contents.length else 0) ≤ contents.length := by
    split
    · exact Nat.le_refl _
    · exact Nat.zero_le _
  -- a file that is not written to has no buffer, nor one for which there was no memory
  have hclosed : ∀ f : File (List UInt8), f.fd = fd → f.moves = true → f.canWrite = false →
      f.outBufUsed = 0 → f.pos ≤ contents.length → f.dev = contents → f.size = contents.length →
      Coherent ⟨contents, f.pos, f.canWrite⟩ f := by
    intro f hopen hmoves hread hused hinside hdev hsize
    refine Flushed.coherent (flushed_of (hopen ▸ hfd) hmoves rfl ?_ ?_ hused rfl hdev hinside
      (Nat.le_of_eq hsize) hlength) ?_
    all_goals exact fun hwrite => absurd (hread.symm.trans hwrite) (by decide)
  cases canWrite with
  | false => exact hclosed _ rfl rfl rfl rfl hpos rfl rfl
  | true =>
      cases allocated with
      | false => exact hclosed _ rfl rfl rfl rfl hpos rfl rfl
      | true =>
          have hopened : Flushed ⟨contents, if append then contents.length else 0, true⟩
              (fopen fd contents true append true) :=
            flushed_of hfd rfl rfl (fun _ => nofun) (fun _ => ⟨_, rfl, Nat.le_refl _⟩) rfl rfl rfl
              hpos (Nat.le_refl _) hlength
          exact hopened.coherent fun _ => Nat.succ_pos _

/-- In every run whose calls fit, the stream is coherent with the ideal file: the position is that
of the file and of the bytes in the buffer together, and a flush makes the contents the same. The
next call then returns what it does on the ideal file, and leaves the stream coherent with it, if
and only if it fits too. -/
theorem stream_positions_coherent (hs : Reachable streamRuns (i, f)) :
    Coherent i f ∧ ∀ call : StreamCall, call.Counted i →
      ((Yields call.run f fun answer f' =>
        answer = (i.run call).1 ∧ Coherent (i.run call).2 f') ↔ call.Fits i f) := by
  have hcoherent : Coherent i f := by
    refine Reachable.induct (motive := fun s => Coherent s.1 s.2) ?_ ?_ hs
    · exact fun s h => h.coherent
    · intro s s' hbefore hstep
      obtain ⟨call, ⟨hcounted, hfits⟩, hnext⟩ := hstep
      obtain ⟨answer, f', hrun, -, hafter⟩ := (call_right_iff hbefore hcounted).mpr hfits
      unfold streamNext at hnext
      rw [hrun] at hnext
      cases hnext
      exact hafter
  exact ⟨hcoherent, fun call hcounted => call_right_iff hcoherent hcounted⟩

end Runs

/-- Two characters that are flushed, a seek to the first one and a read. -/
theorem stream_positions_coherent_reread : ∃ s : IdealFile × File (List UInt8),
    Coherent s.1 s.2 ∧ ∀ call : StreamCall, call.Counted s.1 →
      ((Yields call.run s.2 fun answer f' =>
        answer = (s.1.run call).1 ∧ Coherent (s.1.run call).2 f') ↔ call.Fits s.1 s.2) := by
  have h0 : Reachable streamRuns (⟨[65], 0, true⟩, fopen 1 [65] true false true) :=
    .init ⟨1, [65], true, false, true, by decide, by decide, rfl, rfl⟩
  have h1 := h0.step ⟨.fputs [97, 98], ⟨show 0 + 2 < 2 ^ 32 by decide, trivial⟩, rfl⟩
  have h2 := h1.step ⟨.fseek 0 seekSet, ⟨trivial, And.intro rfl (Nat.zero_le _)⟩, rfl⟩
  have h3 := h2.step ⟨.fread 1 1, ⟨trivial, rfl⟩, rfl⟩
  exact ⟨(_, _), stream_positions_coherent h3⟩

/-- A character that is put and not yet flushed does not count for `ftell`. -/
theorem ftell_before_flush :
    ((FileIo.fputc regular 97 >>= fun _ => FileIo.ftell)
        (fopen 1 [] true false true)).map Prod.fst = .ok 0 ∧
      ((IdealFile.run ⟨[], 0, true⟩ (.fputc 97)).2.run .ftell).1 = .value 1 := by
  have hlong : (((0 : Nat) : Int) + 2 ^ 31) % 2 ^ 32 - 2 ^ 31 = 0 := by omega
  exact ⟨congrArg Except.ok hlong, rfl⟩

end Kogata.User.FileIo
