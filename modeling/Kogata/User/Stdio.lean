import Kogata.Kernel.Halt
import Kogata.Lib.Effect
import Kogata.Lib.Run
import Mathlib.Algebra.GroupWithZero.Nat
import Mathlib.Algebra.Ring.Int.Defs

/-!
# Buffered output

The output functions of `lib/libc/stdio.c` on one `FILE`. The kernel takes a prefix of what each
`sc_write` gives it; how long that is comes from `kernel`, which has an answer for every
`sc_write` of the run. What `fprintf` writes is the list of the characters that `vcprintf` passes
to `vfprintf_putc_fun`.

A put byte is one that `buffered_putc` has stored, or that the kernel has taken from `fwrite`,
which returns how much that is. The bytes that are put and not delivered are those in the buffer,
as long as the kernel takes the whole buffer or nothing of it: `fflush` keeps the buffer as it is
when the kernel has taken a part.
-/

namespace Kogata.User

open Kogata.Kernel (Halt)
open Lib.Effect Lib.Run

/-- `EOF`. -/
abbrev eof : Int := -1

/-- `BUFSIZ`. -/
abbrev bufsiz : Nat := 256

/-- `_IOFBF`. -/
abbrev iofbf : Nat := 1
/-- `_IOLBF`. -/
abbrev iolbf : Nat := 2
/-- `_IONBF`. -/
abbrev ionbf : Nat := 4

/-- A `FILE`, with the calls of `sc_write` that have been made, what they have delivered, and the
bytes that have been put. `outBuf` is the part of the buffer that is in use, and `moves` says that
the file is no character device, channel or directory. -/
structure Stream where
  fd : Nat
  canWrite : Bool
  moves : Bool
  pos : Nat
  bufMode : Nat
  outBuf : List UInt8
  outBufSize : Nat
  writes : Nat
  delivered : List UInt8
  put : List UInt8
  deriving DecidableEq

/-- A file that has been opened for writing: `initialize_out_buffer`, where `malloc` succeeds. -/
def Stream.opened (fd : Nat) (moves : Bool) (pos bufMode : Nat) : Stream where
  fd := fd
  canWrite := true
  moves := moves
  pos := pos
  bufMode := bufMode
  outBuf := []
  outBufSize := bufsiz
  writes := 0
  delivered := []
  put := []

/-- A function of the library. -/
abbrev StdioM := StateT Stream (Except Halt)

variable (kernel : Nat → Nat)

/-- `sc_write` at the position of the file. -/
def scWrite (data : List UInt8) : StdioM Nat := fun s =>
  let ret := min (kernel s.writes) data.length
  .ok (ret, { s with writes := s.writes + 1, delivered := s.delivered ++ data.take ret })

/-- `stream->pos += ret`, where the file has a position. -/
def Stream.advance (s : Stream) (ret : Nat) : Stream :=
  if s.moves then { s with pos := (s.pos + ret) % 2 ^ 32 } else s

@[simp] theorem advance_out_buf (s : Stream) (ret : Nat) : (s.advance ret).outBuf = s.outBuf := by
  unfold Stream.advance
  split <;> rfl

/-- `fflush`. -/
def fflush : StdioM Int := do
  let s ← get
  if s.fd = 0 then return eof
  else if !s.canWrite then return 0
  else if s.bufMode ≠ 0 ∧ s.outBuf.length > 0 then do
    let ret ← scWrite kernel s.outBuf
    if ret ≠ s.outBuf.length then return eof
    else
      modify fun s => { s with outBuf := [] }.advance ret
      return 0
  else return 0

/-- A character is stored in the buffer. -/
def Stream.append (s : Stream) (c : Int32) : Stream :=
  { s with
    outBuf := s.outBuf ++ [c.toUInt32.toUInt8]
    put := s.put ++ [c.toUInt32.toUInt8] }

/-- The test of `buffered_putc` behind a character: the buffer is full, or a line ends. -/
def Stream.Due (s : Stream) (c : Int32) : Prop :=
  s.outBuf.length = s.outBufSize ∨ s.bufMode = iolbf ∧ c = 10

instance (s : Stream) (c : Int32) : Decidable (s.Due c) :=
  inferInstanceAs (Decidable (_ ∨ _))

/-- `buffered_putc`. -/
def bufferedPutc (c : Int32) : StdioM Int := do
  let s ← get
  if ¬(s.bufMode ≠ 0 ∧ s.outBuf.length < s.outBufSize) then throw .panic
  else
    set (s.append c)
    if (s.append c).Due c then
      if (← fflush kernel) ≠ 0 then return eof else return c.toInt
    else return c.toInt

/-- The end of the output functions: an unbuffered file is flushed, and the result is `ret`
unless that fails. -/
def flushUnbuffered (ret : Int) : StdioM Int := do
  if (← get).bufMode = ionbf then
    if (← fflush kernel) ≠ 0 then return eof else return ret
  else return ret

/-- `fwrite` of `size * nmemb` bytes; a division by zero ends the process with
`FAIL_EXCEPTION`. -/
def fwrite (data : List UInt8) (size : Nat) : StdioM Int := do
  let s ← get
  if s.fd = 0 ∨ !s.canWrite then return 0
  else if (← fflush kernel) ≠ 0 then return 2 ^ 32 - 1
  else do
    let ret ← scWrite kernel data
    modify fun s => { s with put := s.put ++ data.take ret }.advance ret
    if size = 0 then throw (.exited 4 1) else return ret / size

/-- `fputc`. -/
def fputc (c : Int32) : StdioM Int := do
  let s ← get
  if s.fd = 0 ∨ !s.canWrite then return eof
  else do
    let _ ← bufferedPutc kernel c
    flushUnbuffered kernel c.toInt

/-- The loop of `fputs`; a `char` is signed. -/
def fputsLoop : List UInt8 → StdioM Unit
  | [] => return
  | c :: rest => do
      let _ ← bufferedPutc kernel c.toInt8.toInt32
      fputsLoop rest

/-- `fputs`; the zero at the end of the string is left out. -/
def fputs (str : List UInt8) : StdioM Int := do
  let s ← get
  if s.fd = 0 ∨ !s.canWrite then return eof
  else do
    fputsLoop kernel str
    flushUnbuffered kernel str.length

/-- `vfprintf_putc_fun`. -/
def vfprintfPutcFun (c : Int32) : StdioM Int := do
  if (← bufferedPutc kernel c) = eof then return -1 else return 1

/-- `vcprintf` with `vfprintf_putc_fun`, on the characters of the formatted text: `PUTCHAR`. -/
def vcprintf : List Int32 → Int → StdioM Int
  | [], ret => return ret
  | c :: rest, ret => do
      let tmp ← vfprintfPutcFun kernel c
      if tmp < 0 then return tmp else vcprintf rest (ret + 1)

/-- `vfprintf`, and `fprintf`, whose test is the same. -/
def vfprintf (text : List Int32) : StdioM Int := do
  let s ← get
  if s.fd = 0 ∨ !s.canWrite then return -1
  else do
    let ret ← vcprintf kernel text 0
    flushUnbuffered kernel ret

/-- A call on the file. -/
inductive StdioCall where
  | fputc (c : Int32)
  | fputs (str : List UInt8)
  | fprintf (text : List Int32)
  | fwrite (data : List UInt8) (size : Nat)
  | fflush
  deriving DecidableEq

/-- Run the call. -/
def StdioCall.run : StdioCall → StdioM Int
  | .fputc c => User.fputc kernel c
  | .fputs str => User.fputs kernel str
  | .fprintf text => vfprintf kernel text
  | .fwrite data size => User.fwrite kernel data size
  | .fflush => User.fflush kernel

section Steady

/-- The kernel takes the whole buffer at the next `sc_write`, or nothing of it. -/
def TakenWhole (s : Stream) : Prop :=
  s.outBuf.length ≤ kernel s.writes ∨ kernel s.writes = 0

/-- There is room for the character, and a flush that is due with it takes the buffer whole or not
at all. -/
def PutSteady (c : Int32) (s : Stream) : Prop :=
  s.outBuf.length < s.outBufSize ∧ ((s.append c).Due c → TakenWhole kernel (s.append c))

/-- So does the flush of an unbuffered file behind its characters. -/
def EndSteady (s : Stream) : Prop :=
  s.bufMode = ionbf → TakenWhole kernel s

/-- Each of the characters finds things so. `stops` is whether the first failure ends the loop. -/
def PutsSteady (stops : Bool) : List Int32 → Stream → Prop
  | [], s => EndSteady kernel s
  | c :: rest, s => PutSteady kernel c s ∧ ∀ ret s', bufferedPutc kernel c s = .ok (ret, s') →
      if stops = true ∧ ret = eof then EndSteady kernel s' else PutsSteady stops rest s'

/-- No flush in the call takes only a part of the buffer, and no character comes to a full one. -/
def Steady (s : Stream) : StdioCall → Prop
  | .fputc c => PutsSteady kernel false [c] s
  | .fputs str => PutsSteady kernel false (str.map fun c => c.toInt8.toInt32) s
  | .fprintf text => PutsSteady kernel true text s
  | .fwrite _ _ => TakenWhole kernel s
  | .fflush => TakenWhole kernel s

end Steady

section Flush

/-- What was delivered and what is in the buffer is what has been put, and a file with a position
has it behind what was delivered. -/
structure Tidy (start : Nat) (s : Stream) : Prop where
  fd : s.fd ≠ 0
  canWrite : s.canWrite = true
  mode : s.bufMode ≠ 0
  put : s.delivered ++ s.outBuf = s.put
  pos : s.moves = true → s.pos = (start + s.delivered.length) % 2 ^ 32

variable {kernel} {start : Nat} {s : Stream}

/-- The kernel has taken a part of some bytes that were put for it. -/
theorem Tidy.deliver {n writes : Nat} {data out bytes : List UInt8} (h : Tidy start s)
    (hn : n = data.length) (hput : s.delivered ++ data ++ out = bytes) :
    Tidy start (Stream.advance { s with
      outBuf := out, put := bytes, writes := writes, delivered := s.delivered ++ data } n) := by
  subst hn
  unfold Stream.advance
  split
  · next hmoves =>
      refine ⟨h.fd, h.canWrite, h.mode, hput, fun _ => ?_⟩
      show (s.pos + data.length) % 2 ^ 32 = (start + (s.delivered ++ data).length) % 2 ^ 32
      rw [h.pos hmoves, List.length_append, Nat.mod_add_mod, Nat.add_assoc]
  · next hmoves => exact ⟨h.fd, h.canWrite, h.mode, hput, fun hyes => absurd hyes hmoves⟩

/-- A flush that is taken whole or not at all delivers the buffer or leaves everything. -/
theorem fflush_yields (h : Tidy start s) (hwhole : TakenWhole kernel s) :
    Yields (fflush kernel) s fun ret s' => Tidy start s' ∧ (ret = 0 → s'.outBuf = []) := by
  unfold fflush
  refine yields_bind_of_run (a := s) rfl ?_
  rw [if_neg h.fd, h.canWrite]
  refine yields_ite (fun hnot => nomatch hnot) fun _ => yields_ite (fun hused => ?_) fun hused => ?_
  · refine yields_bind_of_run (a := min (kernel s.writes) s.outBuf.length) rfl ?_
    rcases hwhole with hall | hnone
    · rw [Nat.min_eq_right hall, List.take_length]
      refine yields_ite (fun hne => absurd rfl hne) fun _ => yields_bind_of_run (a := ()) rfl ?_
      refine yields_pure ⟨h.deliver rfl ?_, fun _ => advance_out_buf ..⟩
      rw [List.append_nil, h.put]
    · rw [hnone, Nat.zero_min]
      refine yields_ite (fun _ => yields_pure ?_) fun heq => ?_
      · refine ⟨⟨h.fd, h.canWrite, h.mode, ?_, fun hmoves => ?_⟩, fun hz => ?_⟩
        · rw [List.take_zero, List.append_nil, h.put]
        · rw [List.take_zero, List.append_nil]
          exact h.pos hmoves
        · exact absurd hz (by decide)
      · rw [not_not] at heq
        omega
  · refine yields_pure ⟨h, fun _ => ?_⟩
    by_contra hne
    exact hused ⟨h.mode, List.length_pos_iff.mpr hne⟩

end Flush

section Calls

variable {kernel} {start : Nat} {s : Stream}

section

variable (h : Tidy start s)

include h

theorem Tidy.opened : ¬(s.fd = 0 ∨ (!s.canWrite) = true) := by
  rintro (hfd | hclosed)
  · exact h.fd hfd
  · rw [h.canWrite] at hclosed
    cases hclosed

theorem Tidy.append (c : Int32) : Tidy start (s.append c) := by
  refine ⟨h.fd, h.canWrite, h.mode, ?_, h.pos⟩
  show s.delivered ++ (s.outBuf ++ _) = s.put ++ _
  rw [← List.append_assoc, h.put]

theorem putc_yields {c : Int32} (hc : PutSteady kernel c s) :
    Yields (bufferedPutc kernel c) s fun _ s' => Tidy start s' := by
  obtain ⟨hroom, hflush⟩ := hc
  unfold bufferedPutc
  refine yields_bind_of_run (a := s) rfl (yields_ite (fun hfull => ?_) fun _ => ?_)
  · exact absurd ⟨h.mode, hroom⟩ hfull
  · refine yields_bind_of_run (a := ()) rfl (yields_ite (fun hdue => ?_) fun _ => ?_)
    · refine (fflush_yields (h.append c) (hflush hdue)).bind fun ret s' hpost => ?_
      exact yields_ite (fun _ => yields_pure hpost.1) fun _ => yields_pure hpost.1
    · exact yields_pure (h.append c)

theorem end_yields (hend : EndSteady kernel s) (ret : Int) :
    Yields (flushUnbuffered kernel ret) s fun _ s' => Tidy start s' := by
  unfold flushUnbuffered
  refine yields_bind_of_run (a := s) rfl (yields_ite (fun hmode => ?_) fun _ => yields_pure h)
  refine (fflush_yields h (hend hmode)).bind fun ret' s' hpost => ?_
  exact yields_ite (fun _ => yields_pure hpost.1) fun _ => yields_pure hpost.1

/-- The loop of `fputs`, over the string. -/
theorem fputs_loop_yields {str : List UInt8}
    (hs : PutsSteady kernel false (str.map fun c => c.toInt8.toInt32) s) :
    Yields (fputsLoop kernel str) s fun _ s' => Tidy start s' ∧ EndSteady kernel s' := by
  induction str generalizing s with
  | nil => exact yields_pure ⟨h, hs⟩
  | cons c rest ih =>
      obtain ⟨hput, hrest⟩ := hs
      obtain ⟨ret, s', hrun, htidy⟩ := putc_yields h hput
      refine yields_bind_of_run hrun (ih htidy ?_)
      have hgoes := hrest ret s' hrun
      rwa [if_neg fun hstop => nomatch hstop.1] at hgoes

/-- The loop of `vcprintf`, over the text; it ends at the first flush that fails. -/
theorem vcprintf_yields {text : List Int32} {n : Int} (hs : PutsSteady kernel true text s) :
    Yields (vcprintf kernel text n) s fun _ s' => Tidy start s' ∧ EndSteady kernel s' := by
  induction text generalizing s n with
  | nil => exact yields_pure ⟨h, hs⟩
  | cons c rest ih =>
      obtain ⟨hput, hrest⟩ := hs
      obtain ⟨ret, s', hrun, htidy⟩ := putc_yields h hput
      have hgoes := hrest ret s' hrun
      have hfun : vfprintfPutcFun kernel c s = .ok (if ret = eof then -1 else 1, s') := by
        unfold vfprintfPutcFun
        rw [run_bind_of_ok hrun]
        split <;> rfl
      refine yields_bind_of_run hfun ?_
      by_cases hstop : ret = eof
      · rw [if_pos ⟨rfl, hstop⟩] at hgoes
        rw [if_pos hstop]
        exact yields_pure ⟨htidy, hgoes⟩
      · rw [if_neg fun both => hstop both.2] at hgoes
        rw [if_neg hstop]
        exact ih htidy hgoes

/-- `fwrite` puts what the kernel takes of it, behind an empty buffer. -/
theorem fwrite_tidy (hwhole : TakenWhole kernel s) (data : List UInt8)
    (size : Nat) : (∀ ret s', fwrite kernel data size s = .ok (ret, s') → Tidy start s') ∧
      fwrite kernel data size s ≠ .error .panic := by
  obtain ⟨ret, mid, hrun, htidy, hempty⟩ := fflush_yields h hwhole
  have hopen : ¬(s.fd = 0 ∨ (!s.canWrite) = true) := h.opened
  have hstart : fwrite kernel data size s = (do
      if ret ≠ 0 then return 2 ^ 32 - 1
      else
        let ret ← scWrite kernel data
        modify fun s => { s with put := s.put ++ data.take ret }.advance ret
        if size = 0 then throw (.exited 4 1) else return ret / size : StdioM Int) mid := by
    unfold fwrite
    rw [run_bind_of_ok (a := s) rfl, if_neg hopen, run_bind_of_ok hrun]
  rw [hstart]
  by_cases hret : ret = 0
  · rw [if_neg (not_not.mpr hret)]
    have hput := htidy.put
    rw [hempty hret, List.append_nil] at hput
    have hlast := @Tidy.deliver start mid _ (mid.writes + 1)
      (data.take (min (kernel mid.writes) data.length)) []
      (mid.put ++ data.take (min (kernel mid.writes) data.length)) htidy
      (List.length_take_of_le (Nat.min_le_right _ _)).symm (by rw [List.append_nil, hput])
    rw [run_bind_of_ok (a := min (kernel mid.writes) data.length) rfl,
      run_bind_of_ok (a := ()) rfl, run_ite]
    split
    · exact ⟨nofun, nofun⟩
    · refine ⟨fun ret' s' heq => ?_, nofun⟩
      cases heq
      rw [← hempty hret] at hlast
      exact hlast
  · rw [if_pos hret]
    refine ⟨fun ret' s' heq => ?_, nofun⟩
    cases heq
    exact htidy

/-- A steady call comes back, or divides by zero, and what it leaves is tidy. -/
theorem call_tidy {call : StdioCall} (hc : Steady kernel s call) :
    (∀ ret s', call.run kernel s = .ok (ret, s') → Tidy start s') ∧
      call.run kernel s ≠ .error .panic := by
  have hall : ∀ {program : StdioM Int}, Yields program s (fun _ s' => Tidy start s') →
      (∀ ret s', program s = .ok (ret, s') → Tidy start s') ∧ program s ≠ .error .panic := by
    rintro program ⟨ret, s', hrun, htidy⟩
    rw [hrun]
    refine ⟨fun ret' s'' heq => ?_, nofun⟩
    cases heq
    exact htidy
  have hopen : ¬(s.fd = 0 ∨ (!s.canWrite) = true) := h.opened
  cases call with
  | fputc c =>
      obtain ⟨hput, hrest⟩ := hc
      refine hall (yields_bind_of_run (a := s) rfl ?_)
      rw [if_neg hopen]
      obtain ⟨ret, s', hrun, htidy⟩ := putc_yields h hput
      have hend := hrest ret s' hrun
      rw [if_neg fun hstop => nomatch hstop.1] at hend
      exact yields_bind_of_run hrun (end_yields htidy hend _)
  | fputs str =>
      refine hall (yields_bind_of_run (a := s) rfl ?_)
      rw [if_neg hopen]
      exact (fputs_loop_yields h hc).bind fun _ _ hpost => end_yields hpost.1 hpost.2 _
  | fprintf text =>
      refine hall (yields_bind_of_run (a := s) rfl ?_)
      rw [if_neg hopen]
      exact (vcprintf_yields h hc).bind fun _ _ hpost => end_yields hpost.1 hpost.2 _
  | fwrite data size => exact fwrite_tidy h hc data size
  | fflush => exact hall ((fflush_yields h hc).mono fun _ _ hpost => hpost.1)

end

end Calls

section Runs

/-- The runs on a file opened for writing at `start` in which every call is allowed where it is
made. -/
def stdioRuns (start : Nat) (allowed : Stream → StdioCall → Prop) : System Stream where
  init := fun s => ∃ fd moves bufMode, fd ≠ 0 ∧ bufMode ∈ [iofbf, iolbf, ionbf] ∧ start < 2 ^ 32 ∧
    s = Stream.opened fd moves start bufMode
  step := fun s s' => ∃ call ret, allowed s call ∧ call.run kernel s = .ok (ret, s')

/-- What a caller may rely on: what has been delivered is the first part of what has been put, at
consecutive positions; no assertion fires; and a flush that answers `0` has delivered it all. -/
structure Faithful (start : Nat) (allowed : Stream → StdioCall → Prop) (s : Stream) : Prop where
  delivered : s.delivered <+: s.put
  pos : s.moves = true → s.pos = (start + s.delivered.length) % 2 ^ 32
  asserts : ∀ call, allowed s call → call.run kernel s ≠ .error .panic
  flushed : ∀ s', allowed s .fflush → StdioCall.fflush.run kernel s = .ok (0, s') →
    s'.delivered = s'.put

variable {kernel} {start : Nat} {s : Stream}

theorem tidy_run (hs : Reachable (stdioRuns kernel start (Steady kernel)) s) : Tidy start s := by
  refine Reachable.induct (motive := fun s => Tidy start s) ?_ ?_ hs
  · rintro s ⟨fd, moves, bufMode, hfd, hmode, hstart, rfl⟩
    refine ⟨hfd, rfl, ?_, rfl, fun _ => (Nat.mod_eq_of_lt hstart).symm⟩
    rintro rfl
    exact absurd hmode (by decide)
  · rintro s s' htidy ⟨call, ret, hsteady, hrun⟩
    exact (call_tidy htidy hsteady).1 ret s' hrun

end Runs

end Kogata.User
