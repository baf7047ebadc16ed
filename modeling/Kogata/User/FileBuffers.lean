import Kogata.User.FileIo

/-!
# Output buffers

Which buffer a `FILE` has, how large it is, and who frees it, over the calls that put a buffer in
place and those that write into it. `setvbuf` never sets `out_buf_size`, which stays what
`initialize_out_buffer` has made it. Nothing is stored outside of the buffer as long as no call puts
a smaller one in place, and after any call that does, `fputs` stores a byte behind its end
(`output_buffer_in_bounds`). What has been allocated is freed once in any case.
-/

namespace Kogata.User.FileIo

open Lib.Effect Lib.Run

/-- A call on a file that is concerned with its output. -/
inductive OutputCall where
  | setvbuf (buf : Option (Nat → UInt8)) (mode : Int) (size : Nat) (allocated : Bool)
  | setbuffer (buf : Option (Nat → UInt8)) (size : Nat) (allocated : Bool)
  | setbuf (buf : Option (Nat → UInt8)) (allocated : Bool)
  | setlinebuf (allocated : Bool)
  | fputc (c : Int32)
  | fputs (str : List UInt8)
  | fprintf (text : List Int32)
  | fwrite (data : List UInt8) (size : Nat)
  | fflush
  | fclose

variable {D : Type} (device : Device D)

/-- Run the call. -/
def OutputCall.run : OutputCall → FileM D Int
  | .setvbuf buf mode size allocated => FileIo.setvbuf device buf mode size allocated
  | .setbuffer buf size allocated => FileIo.setbuffer device buf size allocated
  | .setbuf buf allocated => FileIo.setbuf device buf allocated
  | .setlinebuf allocated => FileIo.setlinebuf device allocated
  | .fputc c => FileIo.fputc device c
  | .fputs str => FileIo.fputs device str
  | .fprintf text => vfprintf device text
  | .fwrite data size => FileIo.fwrite device data size
  | .fflush => FileIo.fflush device
  | .fclose => FileIo.fclose device

namespace File

/-- A flush finds nothing to write, or the kernel takes all of it. -/
def Flushes (f : File D) : Prop :=
  ¬(f.bufMode ≠ 0 ∧ 0 < f.outBufUsed) ∨ (device.write f.dev f.pos f.buffered).1 = f.outBufUsed

/-- `setvbuf` puts a buffer in use that is smaller than `out_buf_size`. -/
def Shrinks (f : File D) (buf : Option (Nat → UInt8)) (mode : Int) (size : Nat)
    (allocated : Bool) : Prop :=
  f.fd ≠ 0 ∧ f.canWrite = true ∧ 0 < size ∧ size < f.outBufSize ∧ mode ≠ 0 ∧
    (buf.isSome ∨ allocated = true) ∧ f.Flushes device

end File

/-- The call puts no buffer in use that is smaller than `out_buf_size`. -/
def OutputCall.Fits (f : File D) : OutputCall → Prop
  | .setvbuf buf mode size allocated => ¬ f.Shrinks device buf mode size allocated
  | .setbuffer buf size allocated =>
      ¬ f.Shrinks device buf (if buf.isSome then iofbf else ionbf) size allocated
  | _ => True

/-- The step of a call, which has to come back. -/
def outputNext (f : File D) (call : OutputCall) : Option (File D) :=
  match call.run device f with
  | .ok (_, f') => some f'
  | .error _ => none

/-- A file for which nothing has been allocated yet, with its output buffer initialized. -/
def OutputStart (f : File D) : Prop :=
  ∃ (f₀ : File D) (mode : Int) (allocated : Bool), f₀.allocs = 0 ∧ f₀.frees = (fun _ => 0) ∧
    f₀.callerFrees = 0 ∧ f₀.closed = false ∧ f = initializeOutBuffer f₀ mode allocated

/-- The runs of the output calls on one file that has not been closed, each of which fits. -/
def outputRuns : System (File D) :=
  eventRuns OutputStart (outputNext device) fun f call => f.closed = false ∧ call.Fits device f

section Books

namespace File

/-- The allocated buffer that the file has yet to free. -/
def held (f : File D) : Option Nat :=
  if f.closed = false ∧ f.outBufOwned = true then f.outBuf.bind OutBuf.owner else none

/-- Every buffer that has been allocated has been freed once, but for the one that the file holds,
and no other one has been freed. -/
structure Books (f : File D) : Prop where
  caller : f.callerFrees = 0
  fresh : ∀ n, f.allocs ≤ n → f.frees n = 0
  settled : ∀ n, n < f.allocs → f.frees n = if f.held = some n then 0 else 1
  owned : f.outBufOwned = true → ∀ b, f.outBuf = some b → ∃ n < f.allocs, b.owner = some n

/-- A buffer that is used has `out_buf_size` bytes, of which those in use are a part. -/
structure Roomy (f : File D) : Prop where
  size : f.outBufSize ≤ bufsiz
  used : f.outBufUsed ≤ f.outBufSize
  idle : f.bufMode = 0 → f.outBufUsed = 0
  room : f.bufMode ≠ 0 → 0 < f.outBufSize →
    ∃ b, f.outBuf = some b ∧ f.outBufSize ≤ b.capacity

end File

/-- Nothing has changed but the device, the position, the flags, and what is in the buffer. -/
structure SameBuffer (f f' : File D) : Prop where
  fd : f'.fd = f.fd
  canWrite : f'.canWrite = f.canWrite
  mode : f'.bufMode = f.bufMode
  size : f'.outBufSize = f.outBufSize
  used : f.outBufUsed ≤ f.outBufSize → f'.outBufUsed ≤ f.outBufSize
  idle : f.bufMode = 0 → f'.outBufUsed = f.outBufUsed
  buffer : f'.outBuf.map (fun b => (b.owner, b.capacity)) =
    f.outBuf.map fun b => (b.owner, b.capacity)
  owned : f'.outBufOwned = f.outBufOwned
  allocs : f'.allocs = f.allocs
  frees : f'.frees = f.frees
  callerFrees : f'.callerFrees = f.callerFrees
  closed : f'.closed = f.closed

namespace SameBuffer

variable {f f' f'' : File D}

@[refl] theorem refl (f : File D) : SameBuffer f f :=
  ⟨rfl, rfl, rfl, rfl, id, fun _ => rfl, rfl, rfl, rfl, rfl, rfl, rfl⟩

section

variable (h : SameBuffer f f')

include h

theorem trans (h' : SameBuffer f' f'') : SameBuffer f f'' where
  fd := h'.fd.trans h.fd
  canWrite := h'.canWrite.trans h.canWrite
  mode := h'.mode.trans h.mode
  size := h'.size.trans h.size
  used := fun hused => h.size ▸ h'.used (by rw [h.size]; exact h.used hused)
  idle := fun hidle => (h'.idle (h.mode.trans hidle)).trans (h.idle hidle)
  buffer := h'.buffer.trans h.buffer
  owned := h'.owned.trans h.owned
  allocs := h'.allocs.trans h.allocs
  frees := h'.frees.trans h.frees
  callerFrees := h'.callerFrees.trans h.callerFrees
  closed := h'.closed.trans h.closed

/-- The buffer after the change is the one before it, with other bytes. -/
theorem out_buf {b : OutBuf} (hb : f.outBuf = some b) :
    ∃ b', f'.outBuf = some b' ∧ b'.owner = b.owner ∧ b'.capacity = b.capacity := by
  have hbuffer := h.buffer
  rw [hb, Option.map_some, Option.map_eq_some_iff] at hbuffer
  obtain ⟨b', hb', heq⟩ := hbuffer
  exact ⟨b', hb', congrArg Prod.fst heq, congrArg Prod.snd heq⟩

/-- The same, seen from the buffer after the change. -/
theorem out_buf_back {b' : OutBuf} (hb' : f'.outBuf = some b') :
    ∃ b, f.outBuf = some b ∧ b'.owner = b.owner ∧ b'.capacity = b.capacity := by
  have hbuffer := h.buffer.symm
  rw [hb', Option.map_some, Option.map_eq_some_iff] at hbuffer
  obtain ⟨b, hb, heq⟩ := hbuffer
  exact ⟨b, hb, (congrArg Prod.fst heq).symm, (congrArg Prod.snd heq).symm⟩

theorem held : f'.held = f.held := by
  have howner : f'.outBuf.bind OutBuf.owner = f.outBuf.bind OutBuf.owner := by
    have hbuffer := congrArg (fun o => o.bind Prod.fst) h.buffer
    rw [Option.bind_map, Option.bind_map] at hbuffer
    exact hbuffer
  rw [File.held, File.held, h.closed, h.owned, howner]

theorem books (hf : f.Books) : f'.Books where
  caller := h.callerFrees.trans hf.caller
  fresh := fun n hn => by
    rw [h.frees]
    exact hf.fresh n (h.allocs ▸ hn)
  settled := fun n hn => by
    rw [h.frees, h.held]
    exact hf.settled n (h.allocs ▸ hn)
  owned := fun howned b hb => by
    obtain ⟨b₀, hb₀, howner, -⟩ := h.out_buf_back hb
    rw [h.allocs, howner]
    exact hf.owned (h.owned ▸ howned) b₀ hb₀

theorem roomy (hf : f.Roomy) : f'.Roomy where
  size := h.size ▸ hf.size
  used := h.size ▸ h.used hf.used
  idle := fun hidle => (h.idle (h.mode ▸ hidle)).trans (hf.idle (h.mode ▸ hidle))
  room := fun hmode hsize => by
    obtain ⟨b, hb, hroom⟩ := hf.room (h.mode ▸ hmode) (h.size ▸ hsize)
    obtain ⟨b', hb', -, hcapacity⟩ := h.out_buf hb
    exact ⟨b', hb', by rw [h.size, hcapacity]; exact hroom⟩

end

end SameBuffer

end Books

section Output

/-- Where there is room, no byte is stored outside of the buffer, and the buffer stays. -/
def Safe {α : Type} (program : FileM D α) : Prop :=
  ∀ f, f.Roomy → Within (· ≠ Fault.overflow) program f fun _ f' => SameBuffer f f'

variable {device} {α β : Type} {f : File D}

theorem safe_pure (a : α) : Safe (pure a : FileM D α) := fun f _ => within_pure (.refl f)

theorem Safe.bind {program : FileM D α} {rest : α → FileM D β} (h : Safe program)
    (hrest : ∀ a, Safe (rest a)) : Safe (program >>= rest) :=
  fun f hf => (h f hf).bind fun a f' hsame =>
    (hrest a f' (hsame.roomy hf)).mono fun _ _ hlater => hsame.trans hlater

theorem safe_get {rest : File D → FileM D α} (h : ∀ f, Safe (rest f)) :
    Safe (get >>= rest) :=
  fun f hf => within_bind_of_run (a := f) rfl (h f f hf)

theorem safe_ite {p : Prop} [Decidable p] {program other : FileM D α} (h : p → Safe program)
    (hother : ¬ p → Safe other) : Safe (if p then program else other) := by
  split
  · next hp => exact h hp
  · next hp => exact hother hp

/-- The kernel has been called, and the position has moved. -/
theorem SameBuffer.moved (f : File D) (dev : D) (pos : Nat) :
    SameBuffer f { f with dev := dev, pos := pos } :=
  ⟨rfl, rfl, rfl, rfl, id, fun _ => rfl, rfl, rfl, rfl, rfl, rfl, rfl⟩

/-- The buffer, which is one that is used, has been emptied. -/
theorem SameBuffer.emptied (f : File D) (hmode : f.bufMode ≠ 0) :
    SameBuffer f { f with outBufUsed := 0 } :=
  ⟨rfl, rfl, rfl, rfl, fun _ => Nat.zero_le _, fun hidle => absurd hidle hmode, rfl, rfl, rfl, rfl,
    rfl, rfl⟩

theorem same_buffer_advance (f : File D) (ret : Nat) : SameBuffer f (f.advance ret) := by
  unfold File.advance
  split
  · exact .moved f f.dev _
  · exact .refl f

theorem advance_out_buf_used (f : File D) (ret : Nat) :
    (f.advance ret).outBufUsed = f.outBufUsed := by
  unfold File.advance
  split <;> rfl

/-- `fflush` comes back with `0` where the kernel takes all that there is. -/
theorem fflush_yields (f : File D) : Yields (fflush device) f fun ret f' => SameBuffer f f' ∧
    (f.fd ≠ 0 → f.canWrite = true → (ret = 0 ↔ f.Flushes device) ∧
      (ret = 0 → f.bufMode ≠ 0 → f'.outBufUsed = 0)) := by
  refine yields_bind_of_run (a := f) rfl (yields_ite (fun hfd => ?_) fun _ => ?_)
  · exact yields_pure ⟨.refl f, fun hopen => absurd hfd hopen⟩
  refine yields_ite (fun hread => ?_) fun _ => yields_ite (fun hused => ?_) fun hused => ?_
  · refine yields_pure ⟨.refl f, fun _ hwrite => ?_⟩
    rw [hread] at hwrite
    cases hwrite
  · refine yields_bind_of_run (a := (device.write f.dev f.pos f.buffered).1) rfl ?_
    refine yields_ite (fun hpart => yields_pure ⟨.moved f _ _, fun _ _ => ?_⟩) fun hall => ?_
    · refine ⟨⟨fun hret => absurd hret (by decide), fun hflushes => ?_⟩,
        fun hret => absurd hret (by decide)⟩
      rcases hflushes with hempty | hwhole
      · exact absurd hused hempty
      · exact absurd hwhole hpart
    · rw [not_not] at hall
      refine yields_bind_of_run (a := ()) rfl (yields_pure ⟨?_, fun _ _ => ?_⟩)
      · have hmoved := SameBuffer.moved f (device.write f.dev f.pos f.buffered).2 f.pos
        exact (hmoved.trans (.emptied _ hused.1)).trans (same_buffer_advance _ _)
      · exact ⟨⟨fun _ => .inr hall, fun _ => rfl⟩, fun _ _ => advance_out_buf_used _ _⟩
  · refine yields_pure ⟨.refl f, fun _ _ => ⟨⟨fun _ => .inl hused, fun _ => rfl⟩, ?_⟩⟩
    intro _ hmode
    by_contra hne
    exact hused ⟨hmode, Nat.pos_of_ne_zero hne⟩

theorem safe_fflush : Safe (fflush device) :=
  fun f _ => ((fflush_yields f).mono fun _ _ h => h.1).within

theorem safe_sc_write (data : List UInt8) : Safe (scWrite device data) :=
  fun f _ => within_of_run rfl (.moved f _ _)

theorem safe_advance (ret : Nat) : Safe (modify fun f => f.advance ret : FileM D PUnit) :=
  fun f _ => within_of_run rfl (same_buffer_advance f ret)

/-- A character goes into the buffer, which has room for it, or the assertion fails. -/
theorem safe_buffered_putc (c : Int32) : Safe (bufferedPutc device c) := by
  intro f hf
  refine within_bind_of_run (a := f) rfl (within_ite (fun _ => within_throw nofun) fun hput => ?_)
  rw [not_not] at hput
  obtain ⟨b, hb, hroom⟩ := hf.room hput.1 (Nat.zero_lt_of_lt hput.2)
  rw [hb]
  refine within_ite (fun hfull => absurd hfull ?_) fun _ => ?_
  · omega
  · have hstored : SameBuffer f { f with
        outBuf := some { b with cells := Function.update b.cells f.outBufUsed c.toUInt32.toUInt8 }
        outBufUsed := f.outBufUsed + 1 } :=
      ⟨rfl, rfl, rfl, rfl, fun _ => hput.2, fun hidle => absurd hidle hput.1, by rw [hb]; rfl, rfl,
        rfl, rfl, rfl, rfl⟩
    refine within_bind_of_run (a := ()) rfl (Within.mono ?_ fun _ _ h => hstored.trans h)
    refine (safe_ite (fun _ => safe_fflush.bind fun ret => ?_) fun _ => safe_pure _) _
      (hstored.roomy hf)
    exact safe_ite (fun _ => safe_pure _) fun _ => safe_pure _

theorem safe_flush_unbuffered (ret : Int) : Safe (flushUnbuffered device ret) := by
  refine safe_get fun f => safe_ite (fun _ => safe_fflush.bind fun ret' => ?_) fun _ => safe_pure _
  exact safe_ite (fun _ => safe_pure _) fun _ => safe_pure _

theorem safe_fputs_loop (str : List UInt8) : Safe (fputsLoop device str) := by
  induction str with
  | nil => exact safe_pure _
  | cons c rest ih => exact ((safe_buffered_putc _).bind fun _ => safe_pure _).bind fun _ => ih

theorem safe_vcprintf (text : List Int32) (ret : Int) : Safe (vcprintf device text ret) := by
  induction text generalizing ret with
  | nil => exact safe_pure _
  | cons c rest ih =>
      have hput : Safe (vfprintfPutcFun device c) := by
        refine (safe_buffered_putc c).bind fun ret' => ?_
        exact safe_ite (fun _ => safe_pure _) fun _ => safe_pure _
      exact hput.bind fun tmp => safe_ite (fun _ => safe_pure _) fun _ => ih _

end Output

section Setvbuf

variable {device} {f mid : File D}

/-- Every buffer that has been allocated has been freed, once. -/
structure AllFreed (f : File D) : Prop where
  caller : f.callerFrees = 0
  fresh : ∀ n, f.allocs ≤ n → f.frees n = 0
  freed : ∀ n, n < f.allocs → f.frees n = 1

/-- Where all are freed, the file needs none of them any more. -/
theorem AllFreed.books (h : AllFreed f) (hnone : f.outBufOwned = true → f.outBuf = none) :
    f.Books where
  caller := h.caller
  fresh := h.fresh
  settled := fun n hn => by
    have hheld : f.held = none := by
      unfold File.held
      split
      · next hown => rw [hnone hown.2, Option.bind_none]
      · rfl
    rw [hheld, if_neg nofun]
    exact h.freed n hn
  owned := fun howned b hb => by
    rw [hnone howned] at hb
    cases hb

/-- Where all are freed, the file holds the buffer that is allocated next. -/
theorem AllFreed.malloc (h : AllFreed f) (hopen : f.closed = false) (size : Nat) (mode : Int) :
    File.Books { (f.malloc size).2 with
      outBuf := some (f.malloc size).1, outBufOwned := true, bufMode := mode } := by
  have hheld : File.held { (f.malloc size).2 with
      outBuf := some (f.malloc size).1, outBufOwned := true, bufMode := mode } = some f.allocs :=
    if_pos ⟨hopen, rfl⟩
  refine ⟨h.caller, fun n hn => h.fresh n (Nat.le_of_succ_le hn), fun n hn => ?_, fun _ b hb => ?_⟩
  · rw [hheld]
    show f.frees n = _
    rcases Nat.lt_succ_iff_lt_or_eq.mp hn with hbefore | hlast
    · rw [h.freed n hbefore, if_neg]
      exact fun heq => absurd (Option.some.inj heq) (Nat.ne_of_gt hbefore)
    · rw [hlast, h.fresh _ (Nat.le_refl _), if_pos rfl]
  · cases hb
    exact ⟨f.allocs, Nat.lt_succ_self _, rfl⟩

/-- `free` of the buffer that a file holds settles its books. -/
theorem File.Books.free_held (h : f.Books) (hopen : f.closed = false) {b : OutBuf}
    (hb : f.outBuf = some b) (howned : f.outBufOwned = true) : AllFreed (f.free b) := by
  obtain ⟨n, hn, howner⟩ := h.owned howned b hb
  have hheld : f.held = some n := by
    rw [File.held, if_pos ⟨hopen, howned⟩, hb, Option.bind_some, howner]
  have hfree : f.free b = { f with frees := Function.update f.frees n (f.frees n + 1) } := by
    rw [File.free, howner]
  rw [hfree]
  refine ⟨h.caller, fun m hm => ?_, fun m hm => ?_⟩
  · have hne : m ≠ n := by
      rintro rfl
      exact absurd hm (Nat.not_le_of_lt hn)
    show Function.update f.frees n (f.frees n + 1) m = 0
    rw [Function.update_of_ne hne, h.fresh m hm]
  · show Function.update f.frees n (f.frees n + 1) m = 1
    by_cases hm' : m = n
    · rw [hm', Function.update_self, h.settled n hn, if_pos hheld]
    · rw [Function.update_of_ne hm', h.settled m hm, if_neg]
      rw [hheld]
      exact fun heq => hm' (Option.some.inj heq).symm

/-- A file that holds no buffer has settled its books. -/
theorem File.Books.of_none (h : f.Books) (hheld : f.held = none) : AllFreed f where
  caller := h.caller
  fresh := h.fresh
  freed := fun n hn => by
    rw [h.settled n hn, hheld]
    rfl

/-- `setvbuf` frees the buffer of the file, if that is its own. -/
theorem File.Books.free_owned (h : f.Books) (hopen : f.closed = false) :
    AllFreed (if f.outBufOwned then (f.outBuf.map f.free).getD f else f) := by
  split
  · next howned =>
      cases hb : f.outBuf with
      | none =>
          refine h.of_none ?_
          rw [File.held, if_pos ⟨hopen, howned⟩, hb]
          rfl
      | some b => exact h.free_held hopen hb howned
  · next hnot => exact h.of_none (if_neg fun hboth => hnot hboth.2)

theorem File.free_fields (f : File D) (b : OutBuf) : ∃ frees callerFrees,
    f.free b = { f with frees := frees, callerFrees := callerFrees } := by
  unfold File.free
  split
  · exact ⟨_, f.callerFrees, rfl⟩
  · exact ⟨f.frees, _, rfl⟩

/-- Nothing else changes when it does. -/
theorem free_owned_fields (f : File D) : ∃ frees callerFrees,
    (if f.outBufOwned then (f.outBuf.map f.free).getD f else f) =
      { f with frees := frees, callerFrees := callerFrees } := by
  split
  · cases hfree : f.outBuf.map f.free with
    | none => exact ⟨f.frees, f.callerFrees, rfl⟩
    | some f' =>
        obtain ⟨b, -, rfl⟩ := Option.map_eq_some_iff.mp hfree
        exact f.free_fields b
  · exact ⟨f.frees, f.callerFrees, rfl⟩

/-- A buffer that is smaller than `out_buf_size` is in use, and empty. -/
structure Small (f : File D) (size : Nat) : Prop where
  fd : f.fd ≠ 0
  canWrite : f.canWrite = true
  mode : f.bufMode ≠ 0
  used : f.outBufUsed = 0
  less : size < f.outBufSize
  buffer : ∃ b, f.outBuf = some b ∧ b.capacity = size

/-- What `setvbuf` leaves: settled books, and room if it has not been misused. -/
structure Installed (shrinks : Prop) (size : Nat) (f : File D) : Prop where
  books : f.Books
  opened : f.closed = false
  roomy : ¬ shrinks → f.Roomy
  small : shrinks → Small f size

/-- A buffer is put in place of the one that has been freed. -/
theorem installed_of {mode : Int} {size : Nat} {buf : Option (Nat → UInt8)} {allocated : Bool}
    (hmid : mid.Roomy) (hempty : mid.outBufUsed = 0) (hopen : mid.closed = false)
    (hfd : mid.fd ≠ 0) (hwrite : mid.canWrite = true)
    (hshrinks : f.Shrinks device buf mode size allocated ↔ size < mid.outBufSize ∧ mode ≠ 0)
    {b : OutBuf} (hb : b.capacity = size) (owned : Bool) {allocs callerFrees : Nat}
    {frees : Nat → Nat} {f' : File D}
    (hf' : f' = { mid with
      allocs := allocs, frees := frees, callerFrees := callerFrees, outBuf := some b,
      outBufOwned := owned, bufMode := mode }) (hbooks : f'.Books) :
    Installed (f.Shrinks device buf mode size allocated) size f' := by
  subst hf'
  refine ⟨hbooks, hopen, fun hfits => ⟨hmid.size, hmid.used, fun _ => hempty, fun hmode _ => ?_⟩,
    fun hsmall => ?_⟩
  · refine ⟨b, rfl, ?_⟩
    rw [hshrinks] at hfits
    by_contra hless
    exact hfits ⟨by rw [← hb]; exact Nat.lt_of_not_le hless, hmode⟩
  · obtain ⟨hless, hmode⟩ := hshrinks.mp hsmall
    exact ⟨hfd, hwrite, hmode, hempty, hless, b, rfl, hb⟩

theorem setvbuf_yields (hbooks : f.Books) (hroomy : f.Roomy) (hopen : f.closed = false)
    (buf : Option (Nat → UInt8)) (mode : Int) (size : Nat) (allocated : Bool) :
    Yields (setvbuf device buf mode size allocated) f fun _ f' =>
      Installed (f.Shrinks device buf mode size allocated) size f' := by
  have hfits : ∀ {f'}, SameBuffer f f' → ¬ f.Shrinks device buf mode size allocated →
      Installed (f.Shrinks device buf mode size allocated) size f' :=
    fun hsame hnot => ⟨hsame.books hbooks, hsame.closed.trans hopen, fun _ => hsame.roomy hroomy,
      fun hyes => absurd hyes hnot⟩
  refine yields_bind_of_run (a := f) rfl (yields_ite (fun hno => ?_) fun hopened => ?_)
  · refine yields_pure (hfits (.refl f) fun hshrinks => ?_)
    rcases hno with hfd | hread | hsize
    · exact hshrinks.1 hfd
    · exact absurd (hread.symm.trans hshrinks.2.1) (by decide)
    · exact absurd hshrinks.2.2.1 (by omega)
  rw [not_or, not_or, Bool.not_eq_false] at hopened
  obtain ⟨hfd, hwrite, hsize⟩ := hopened
  refine (fflush_yields f).bind fun ret mid hpost => ?_
  obtain ⟨hsame, hflush⟩ := hpost
  obtain ⟨hret, hempty⟩ := hflush hfd hwrite
  refine yields_ite (fun hfailed => yields_pure (hfits hsame fun hshrinks => ?_)) fun hdone => ?_
  · exact hfailed (hret.mpr hshrinks.2.2.2.2.2.2)
  rw [not_not] at hdone
  have hflushes := hret.mp hdone
  have hused : mid.outBufUsed = 0 := by
    by_cases hmode : f.bufMode = 0
    · exact (hsame.idle hmode).trans (hroomy.idle hmode)
    · exact hempty hdone hmode
  have hmid := hsame.roomy hroomy
  have hclosed := hsame.closed.trans hopen
  have hfreed := (hsame.books hbooks).free_owned hclosed
  obtain ⟨frees, callerFrees, hfields⟩ := free_owned_fields mid
  refine yields_bind_of_run (?_ : _ = Except.ok ((), { mid with
    frees := frees, callerFrees := callerFrees })) ?_
  · rw [← hfields]
    rfl
  rw [hfields] at hfreed
  have hshrinks (hgot : buf.isSome ∨ allocated = true) :
      f.Shrinks device buf mode size allocated ↔ size < mid.outBufSize ∧ mode ≠ 0 := by
    rw [hsame.size]
    exact ⟨fun h => ⟨h.2.2.2.1, h.2.2.2.2.1⟩, fun h => ⟨hfd, hwrite, Nat.pos_of_ne_zero hsize, h.1,
      h.2, hgot, hflushes⟩⟩
  have hfdMid : mid.fd ≠ 0 := by rwa [hsame.fd]
  have hwriteMid := hsame.canWrite.trans hwrite
  cases buf with
  | none =>
      refine yields_ite (fun hgot => ?_) fun hnone => ?_
      · refine yields_bind_of_run (a := ()) rfl (yields_bind_of_run (a := ()) rfl (yields_pure ?_))
        exact installed_of hmid hused hclosed hfdMid hwriteMid (hshrinks (.inr hgot)) rfl true rfl
          (hfreed.malloc hclosed size mode)
      · refine yields_bind_of_run (a := ()) rfl (yields_pure ?_)
        refine ⟨AllFreed.books ⟨hfreed.caller, hfreed.fresh, hfreed.freed⟩ fun _ => rfl, hclosed,
          fun _ => ⟨hmid.size, hmid.used, fun _ => hused, fun hmode => absurd rfl hmode⟩,
          fun hbad => ?_⟩
        rcases hbad.2.2.2.2.2.1 with hgot | hgot
        · cases hgot
        · exact absurd hgot hnone
  | some cells =>
      refine yields_bind_of_run (a := ()) rfl (yields_bind_of_run (a := ()) rfl (yields_pure ?_))
      exact installed_of hmid hused hclosed hfdMid hwriteMid (hshrinks (.inl rfl)) rfl false rfl
        (AllFreed.books ⟨hfreed.caller, hfreed.fresh, hfreed.freed⟩ nofun)

end Setvbuf

section Calls

variable {device} {f : File D}

/-- `fclose` and `setvbuf` free the same. -/
theorem fclose_free (f : File D) :
    (match f.outBuf with
      | some b => if f.outBufOwned then f.free b else f
      | none => f) = if f.outBufOwned then (f.outBuf.map f.free).getD f else f := by
  split
  · next b hb =>
      rw [hb]
      rfl
  · next hb =>
      rw [hb, Option.map_none, Option.getD_none, ite_self]

/-- `fclose` frees the buffer that the file holds, unless the flush before it fails. -/
theorem fclose_yields (hbooks : f.Books) (hroomy : f.Roomy) (hopen : f.closed = false) :
    Yields (fclose device) f fun _ f' => f'.Books ∧ (f'.closed = false → f'.Roomy) := by
  refine (fflush_yields f).bind fun ret mid hpost => ?_
  have hmid := hpost.1.books hbooks
  have hclosed := hpost.1.closed.trans hopen
  refine yields_ite (fun _ => ?_) fun _ => ?_
  · exact yields_pure ⟨hmid, fun _ => hpost.1.roomy hroomy⟩
  · have hfreed := hmid.free_owned hclosed
    obtain ⟨frees, callerFrees, hfields⟩ := free_owned_fields mid
    rw [hfields] at hfreed
    refine yields_bind_of_run (?_ : _ = Except.ok ((), { mid with
      frees := frees, callerFrees := callerFrees })) ?_
    · rw [← hfields, ← fclose_free]
      rfl
    · refine yields_bind_of_run (a := ()) rfl (yields_pure ?_)
      exact ⟨⟨hfreed.caller, hfreed.fresh, hfreed.freed, hmid.owned⟩, nofun⟩

/-- The calls that write. -/
theorem safe_fwrite (data : List UInt8) (size : Nat) : Safe (fwrite device data size) := by
  refine safe_get fun f => safe_ite (fun _ => safe_pure _) fun _ => safe_fflush.bind fun ret => ?_
  refine safe_ite (fun _ => safe_pure _) fun _ => (safe_sc_write _).bind fun taken => ?_
  refine (safe_advance _).bind fun _ => safe_ite (fun _ => ?_) fun _ => safe_pure _
  exact fun _ _ => within_throw nofun

theorem safe_vfprintf (text : List Int32) : Safe (vfprintf device text) := by
  refine safe_get fun f => safe_ite (fun _ => safe_pure _) fun _ => ?_
  refine (safe_vcprintf text 0).bind fun ret => safe_get fun f' => ?_
  refine safe_ite (fun _ => safe_fflush.bind fun _ => ?_) fun _ => safe_pure _
  exact safe_ite (fun _ => safe_pure _) fun _ => safe_pure _

/-- One call that fits. -/
theorem call_within (hbooks : f.Books) (hroomy : f.Roomy) (hopen : f.closed = false)
    {call : OutputCall} (hfits : call.Fits device f) :
    Within (· ≠ Fault.overflow) (call.run device) f fun _ f' =>
      f'.Books ∧ (f'.closed = false → f'.Roomy) := by
  have hsafe : ∀ {program : FileM D Int}, Safe program →
      Within (· ≠ Fault.overflow) program f fun _ f' =>
        f'.Books ∧ (f'.closed = false → f'.Roomy) :=
    fun h => (h f hroomy).mono fun _ _ hsame =>
      ⟨hsame.books hbooks, fun _ => hsame.roomy hroomy⟩
  have hput : ∀ (buf : Option (Nat → UInt8)) (mode : Int) (size : Nat) (allocated : Bool),
      ¬ f.Shrinks device buf mode size allocated →
      Within (· ≠ Fault.overflow) (setvbuf device buf mode size allocated) f fun _ f' =>
        f'.Books ∧ (f'.closed = false → f'.Roomy) :=
    fun buf mode size allocated hnot =>
      ((setvbuf_yields hbooks hroomy hopen buf mode size allocated).mono fun _ _ h =>
        ⟨h.books, fun _ => h.roomy hnot⟩).within
  cases call with
  | setvbuf buf mode size allocated => exact hput _ _ _ _ hfits
  | setbuffer buf size allocated => exact hput _ _ _ _ hfits
  | setbuf buf allocated =>
      exact hput _ _ _ _ fun h => Nat.not_lt_of_le hroomy.size h.2.2.2.1
  | setlinebuf allocated =>
      exact hput none iolbf 0 allocated fun h => Nat.lt_irrefl 0 h.2.2.1
  | fputc c =>
      refine hsafe (safe_get fun f => safe_ite (fun _ => safe_pure _) fun _ => ?_)
      exact (safe_buffered_putc c).bind fun _ => safe_flush_unbuffered _
  | fputs str =>
      refine hsafe (safe_get fun f => safe_ite (fun _ => safe_pure _) fun _ => ?_)
      exact (safe_fputs_loop str).bind fun _ => safe_flush_unbuffered _
  | fprintf text => exact hsafe (safe_vfprintf text)
  | fwrite data size => exact hsafe (safe_fwrite data size)
  | fflush => exact hsafe safe_fflush
  | fclose => exact (fclose_yields hbooks hroomy hopen).within

end Calls

section Overflow

variable {device} {f : File D} {size : Nat}

/-- A byte that is put where there is room, in front of the last one that `out_buf_size` allows. -/
theorem putc_stores {b : OutBuf} (hmode : f.bufMode ≠ 0) (hb : f.outBuf = some b)
    (hroom : f.outBufUsed < b.capacity) (hsize : f.outBufUsed + 1 < f.outBufSize) :
    bufferedPutc device 97 f = .ok (97, { f with
      outBuf := some { b with cells := Function.update b.cells f.outBufUsed 97 }
      outBufUsed := f.outBufUsed + 1 }) := by
  have hput : ¬¬(f.bufMode ≠ 0 ∧ f.outBufUsed < f.outBufSize) :=
    not_not.mpr ⟨hmode, Nat.lt_of_succ_lt hsize⟩
  have hdue : ¬(f.outBufUsed + 1 = f.outBufSize ∨ f.bufMode = iolbf ∧ (97 : Int32) = 10) := by
    rintro (hfull | ⟨-, hline⟩)
    · omega
    · cases hline
  unfold bufferedPutc
  rw [run_bind_of_ok (a := f) rfl, if_neg hput, hb]
  dsimp only
  rw [if_neg (Nat.not_le_of_lt hroom), run_bind_of_ok (a := ()) rfl, if_neg hdue]
  rfl

/-- A byte that is put where there is none. -/
theorem putc_overflows {b : OutBuf} (hmode : f.bufMode ≠ 0) (hb : f.outBuf = some b)
    (hfull : b.capacity ≤ f.outBufUsed) (hsize : f.outBufUsed < f.outBufSize) (c : Int32) :
    bufferedPutc device c f = .error .overflow := by
  unfold bufferedPutc
  rw [run_bind_of_ok (a := f) rfl, if_neg (not_not.mpr ⟨hmode, hsize⟩), hb]
  dsimp only
  rw [if_pos hfull]
  rfl

/-- As many bytes as there is room for, and one more. -/
theorem fputs_loop_overflows {n : Nat} {b : OutBuf} (hmode : f.bufMode ≠ 0)
    (hb : f.outBuf = some b) (hroom : f.outBufUsed + n = b.capacity)
    (hless : b.capacity < f.outBufSize) :
    fputsLoop device (List.replicate (n + 1) 97) f = .error .overflow := by
  induction n generalizing f b with
  | zero =>
      have hstop : bufferedPutc device (UInt8.toInt8 97).toInt32 f = .error .overflow :=
        putc_overflows hmode hb (Nat.le_of_eq hroom.symm) (by omega) _
      exact run_bind_of_error (run_bind_of_error hstop)
  | succ n ih =>
      have hloop : fputsLoop device (List.replicate (n + 2) 97) f =
          fputsLoop device (List.replicate (n + 1) 97) { f with
            outBuf := some { b with cells := Function.update b.cells f.outBufUsed 97 }
            outBufUsed := f.outBufUsed + 1 } :=
        run_bind_of_ok (run_bind_of_ok (putc_stores hmode hb (by omega) (by omega)))
      rw [hloop]
      exact ih hmode rfl (by dsimp only; omega) hless

theorem Small.overflows (h : Small f size) :
    fputs device (List.replicate (size + 1) 97) f = .error .overflow := by
  obtain ⟨b, hb, hcapacity⟩ := h.buffer
  have hopened : ¬(f.fd = 0 ∨ f.canWrite = false) := by
    rw [h.canWrite]
    exact fun hno => hno.elim h.fd nofun
  unfold fputs
  rw [run_bind_of_ok (a := f) rfl, if_neg hopened]
  refine run_bind_of_error (fputs_loop_overflows h.mode hb ?_ (hcapacity ▸ h.less))
  rw [h.used, hcapacity, Nat.zero_add]

end Overflow

section Runs

variable {device} {f : File D}

theorem OutputStart.books (h : OutputStart f) : f.Books ∧ f.closed = false ∧ f.Roomy := by
  obtain ⟨f₀, mode, allocated, hallocs, hfrees, hcaller, hopen, rfl⟩ := h
  have hfreed : AllFreed f₀ :=
    ⟨hcaller, fun n _ => congrFun hfrees n, fun n hn => absurd hn (by rw [hallocs]; exact nofun)⟩
  have hnone : ∀ (canWrite : Bool) (size : Nat), AllFreed { f₀ with
      bufMode := 0, outBuf := none, outBufSize := size, outBufUsed := 0, outBufOwned := false,
      canWrite := canWrite } :=
    fun _ _ => ⟨hfreed.caller, hfreed.fresh, hfreed.freed⟩
  unfold initializeOutBuffer
  split
  · next hmode =>
      split
      · exact ⟨AllFreed.malloc (hnone f₀.canWrite bufsiz) hopen bufsiz mode, hopen, Nat.le_refl _,
          Nat.zero_le _, fun _ => rfl, fun _ _ => ⟨_, rfl, Nat.le_refl _⟩⟩
      · exact ⟨(hnone false 0).books nofun, hopen, Nat.zero_le _, Nat.le_refl _, fun _ => rfl,
          fun hmode => absurd rfl hmode⟩
  · exact ⟨(hnone f₀.canWrite 0).books nofun, hopen, Nat.zero_le _, Nat.le_refl _, fun _ => rfl,
      fun hmode => absurd rfl hmode⟩

/-- The books and the room, in every state. -/
theorem Reachable.books (hs : Reachable (outputRuns device) f) :
    f.Books ∧ (f.closed = false → f.Roomy) := by
  refine Reachable.induct (motive := fun f => f.Books ∧ (f.closed = false → f.Roomy)) ?_ ?_ hs
  · intro f h
    exact ⟨h.books.1, fun _ => h.books.2.2⟩
  · intro f f' hf hstep
    obtain ⟨call, ⟨hopen, hfits⟩, hnext⟩ := hstep
    unfold outputNext at hnext
    split at hnext
    · next hrun =>
        cases hnext
        exact (call_within hf.1 (hf.2 hopen) hopen hfits).ensures _ _ hrun
    · cases hnext

/-- A call that does not fit has put a small buffer in place. -/
theorem small_of_not_fits (hbooks : f.Books) (hroomy : f.Roomy) (hopen : f.closed = false)
    {call : OutputCall} (hno : ¬ call.Fits device f) :
    ∃ size, Yields (call.run device) f fun _ f' => Small f' size := by
  have hput : ∀ (buf : Option (Nat → UInt8)) (mode : Int) (size : Nat) (allocated : Bool),
      ¬¬ f.Shrinks device buf mode size allocated →
      Yields (setvbuf device buf mode size allocated) f fun _ f' => Small f' size :=
    fun buf mode size allocated hbad =>
      (setvbuf_yields hbooks hroomy hopen buf mode size allocated).mono fun _ _ h =>
        h.small (not_not.mp hbad)
  cases call with
  | setvbuf buf mode size allocated => exact ⟨size, hput _ _ _ _ hno⟩
  | setbuffer buf size allocated => exact ⟨size, hput _ _ _ _ hno⟩
  | _ => exact absurd trivial hno

/-- In every run whose calls fit, the books are in order, and no call that fits stores a byte
outside of the buffer. After one that does not fit, a string is written behind its end. -/
theorem output_buffer_in_bounds (hs : Reachable (outputRuns device) f) :
    f.Books ∧ (f.closed = false → ∀ call : OutputCall,
      (call.Fits device f → call.run device f ≠ .error .overflow) ∧
      (¬ call.Fits device f →
        ∃ str, (call.run device >>= fun _ => fputs device str) f = .error .overflow)) := by
  obtain ⟨hbooks, hroomy⟩ := Reachable.books hs
  refine ⟨hbooks, fun hopen call => ⟨fun hfits hstop => ?_, fun hno => ?_⟩⟩
  · exact (call_within hbooks (hroomy hopen) hopen hfits).allows hstop rfl
  · obtain ⟨size, ret, f', hrun, hsmall⟩ := small_of_not_fits hbooks (hroomy hopen) hopen hno
    exact ⟨_, (run_bind_of_ok hrun).trans hsmall.overflows⟩

end Runs

theorem fopen_starts (fd : Nat) (contents : List UInt8) (canWrite append allocated : Bool) :
    OutputStart (fopen fd contents canWrite append allocated) :=
  ⟨_, _, allocated, rfl, rfl, rfl, rfl, rfl⟩

/-- A file that is given a larger buffer, of its own, and in which a character is put. -/
theorem output_buffer_in_bounds_larger : ∃ f : File (List UInt8), f.Books ∧ (f.closed = false →
    ∀ call : OutputCall,
      (call.Fits regular f → call.run regular f ≠ .error .overflow) ∧
      (¬ call.Fits regular f →
        ∃ str, (call.run regular >>= fun _ => fputs regular str) f = .error .overflow)) := by
  have h0 : Reachable (outputRuns regular) (fopen 1 [] true false true) :=
    .init (fopen_starts 1 [] true false true)
  have hfits : ∀ f : File (List UInt8), f.outBufSize = bufsiz →
      ¬ f.Shrinks regular none iofbf 300 true :=
    fun f hsize h => absurd (hsize ▸ h.2.2.2.1) (by decide)
  have h1 := h0.step ⟨.setvbuf none iofbf 300 true, ⟨rfl, hfits _ rfl⟩, rfl⟩
  have h2 := h1.step ⟨.fputc 97, ⟨rfl, trivial⟩, rfl⟩
  exact ⟨_, output_buffer_in_bounds h2⟩

/-- A buffer of one byte, and a string of two. -/
theorem setvbuf_small_overflows :
    (setvbuf regular (some fun _ => 0) iofbf 1 true >>= fun _ => fputs regular [97, 98])
      (fopen 1 [] true false true) = .error .overflow := by
  rfl

end Kogata.User.FileIo
