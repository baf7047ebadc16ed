import Kogata.Kernel.Channel
import Kogata.Lib.Word

/-!
# Channels are first-in first-out

A buffer in shape (`Channel.Valid`) holds a queue of bytes. One pass of `channel_read` takes
the front of the queue (`Channel.read_round_spec`), one pass of `channel_write` appends to it
(`Channel.write_round_spec`), in each of the ways the block can lie across the end of the
array. `channel_fifo` follows both ends through any sequence of non-blocking calls.
-/

namespace Kogata.Kernel

open Lib

namespace Channel

/-- The shape the code keeps the two buffer fields in. -/
structure Valid (c : Channel) : Prop where
  begin_lt : c.bufUseBegin.toNat < 200
  used_le : c.bufUsed.toNat ≤ 200

/-- The bytes that wait to be read, first one first. -/
def queue (c : Channel) : List UInt8 :=
  Ring.contents c.buf c.bufUseBegin.toNat c.bufUsed.toNat

@[simp] theorem length_queue (c : Channel) : c.queue.length = c.bufUsed.toNat := by
  simp [queue]

/-- The front and the rest of the queue, as positions in the array. -/
theorem queue_split {c : Channel} {l : Nat} (hl : l ≤ c.bufUsed.toNat) :
    c.queue.take l = Ring.contents c.buf c.bufUseBegin.toNat l ∧
      c.queue.drop l =
        Ring.contents c.buf (c.bufUseBegin.toNat + l) (c.bufUsed.toNat - l) := by
  have hsplit : c.queue = Ring.contents c.buf c.bufUseBegin.toNat l ++
      Ring.contents c.buf (c.bufUseBegin.toNat + l) (c.bufUsed.toNat - l) := by
    rw [← Ring.contents_add, Nat.add_sub_cancel' hl, queue]
  rw [hsplit]
  exact ⟨List.take_left' (by simp), List.drop_left' (by simp)⟩

/-- Copying out `len` buffered bytes stays inside the array and gives the front of the queue. -/
theorem copy_out_spec {c : Channel} (h : c.Valid) {len : UInt32}
    (hlen : len.toNat ≤ c.bufUsed.toNat) : c.copyOut len = .ok (c.queue.take len.toNat) := by
  obtain ⟨hbegin, hused⟩ := h
  have hadd : (c.bufUseBegin + len).toNat = c.bufUseBegin.toNat + len.toNat :=
    Word.toNat_add_of_lt (by omega)
  rw [(queue_split hlen).1]
  unfold copyOut
  by_cases hwrap : c.bufUseBegin + len > channelBufferSize
  · have hgt : 200 < c.bufUseBegin.toNat + len.toNat := hadd ▸ UInt32.lt_iff_toNat_lt.mp hwrap
    have hlen0 : (channelBufferSize - c.bufUseBegin).toNat = 200 - c.bufUseBegin.toNat :=
      Word.toNat_sub_of_le (Nat.le_of_lt hbegin)
    have hlen1 : (len - (channelBufferSize - c.bufUseBegin)).toNat =
        c.bufUseBegin.toNat + len.toNat - 200 := by
      rw [Word.toNat_sub_of_le (by omega), hlen0]
      omega
    have hne : len - (channelBufferSize - c.bufUseBegin) ≠ 0 :=
      Word.ne_zero_of_pos (by omega)
    simp only [if_pos hwrap, if_pos hne, hlen0, hlen1]
    rw [Ring.load_eq c.buf (by omega), Ring.load_eq c.buf (by omega),
      Ring.contents_eq_slices c.buf (by omega) (by omega) (by omega)]
    rfl
  · have hle : ¬ 200 < c.bufUseBegin.toNat + len.toNat :=
      hadd ▸ fun h => hwrap (UInt32.lt_iff_toNat_lt.mpr h)
    simp only [if_neg hwrap, ne_eq, not_true, if_false]
    rw [Ring.load_eq c.buf (by omega), Ring.contents_eq_slice c.buf (by omega)]
    simp [pure, bind, Except.pure, Except.bind]

/-- Dropping `len` bytes keeps the shape, also when the start is reset on an empty buffer. -/
theorem advance_spec {c : Channel} (h : c.Valid) {len : UInt32}
    (hlen : len.toNat ≤ c.bufUsed.toNat) :
    (c.advance len).Valid ∧ (c.advance len).queue = c.queue.drop len.toNat := by
  obtain ⟨hbegin, hused⟩ := h
  have hadd : (c.bufUseBegin + len).toNat = c.bufUseBegin.toNat + len.toNat :=
    Word.toNat_add_of_lt (by omega)
  have hsub : (c.bufUsed - len).toNat = c.bufUsed.toNat - len.toNat := Word.toNat_sub_of_le hlen
  rw [(queue_split hlen).2]
  by_cases hempty : c.bufUsed - len = 0
  · have hzero : c.bufUsed.toNat - len.toNat = 0 := by rw [← hsub, hempty]; rfl
    exact ⟨⟨by simp [advance, hempty], by simp [advance, hempty]⟩,
      by simp [advance, queue, hempty, hzero]⟩
  · refine ⟨⟨?_, ?_⟩, ?_⟩
    · simp only [advance, if_neg hempty, UInt32.toNat_mod]
      exact Nat.mod_lt _ (by decide)
    · simp only [advance, hsub]
      omega
    · simp only [advance, queue, if_neg hempty, UInt32.toNat_mod, hadd, hsub]
      exact Ring.contents_mod c.buf _ _

/-- `copyIn` succeeds and leaves the queue followed by the first `len` bytes of `buf`. -/
def CopiesIn (c : Channel) (len : UInt32) (buf : List UInt8) : Prop :=
  ∃ cells, c.copyIn len buf = .ok cells ∧
    Ring.contents cells c.bufUseBegin.toNat (c.bufUsed.toNat + len.toNat) =
      c.queue ++ buf.take len.toNat

section CopyIn

variable {c : Channel} {len : UInt32} {buf : List UInt8}

/-- Behind a used part that already wraps the block goes in one piece. -/
theorem copies_in_behind_wrap (h : c.Valid) (hroom : c.bufUsed.toNat + len.toNat ≤ 200)
    (hlen : len.toNat ≤ buf.length) (hpast : 200 ≤ c.bufUseBegin.toNat + c.bufUsed.toNat) :
    CopiesIn c len buf := by
  obtain ⟨hbegin, hused⟩ := h
  have htake : (buf.take len.toNat).length = len.toNat := List.length_take_of_le hlen
  have hadd : (c.bufUseBegin + c.bufUsed).toNat = c.bufUseBegin.toNat + c.bufUsed.toNat :=
    Word.toNat_add_of_lt (by omega)
  have hpos : (c.bufUseBegin + c.bufUsed - channelBufferSize).toNat =
      c.bufUseBegin.toNat + c.bufUsed.toNat - 200 := by
    rw [Word.toNat_sub_of_le (hadd ▸ hpast), hadd]
    rfl
  have hguard : c.bufUseBegin + c.bufUsed ≥ channelBufferSize :=
    UInt32.le_iff_toNat_le.mpr (hadd ▸ hpast)
  have hpush := Ring.contents_overwrite_wrapped c.buf _ _ (buf.take len.toNat) hbegin hpast
    (by omega)
  refine ⟨_, ?_, htake ▸ hpush⟩
  rw [copyIn, if_pos hguard, hpos, Ring.store_eq c.buf (by omega), inside_some]

variable (len) in
/-- The sums that `channel_write` compares do not wrap in front of the end of the array. -/
theorem sums_before_end (hroom : c.bufUsed.toNat + len.toNat ≤ 200)
    (hlt : c.bufUseBegin.toNat + c.bufUsed.toNat < 200) :
    (c.bufUseBegin + c.bufUsed).toNat = c.bufUseBegin.toNat + c.bufUsed.toNat ∧
      (c.bufUseBegin + c.bufUsed + len).toNat =
        c.bufUseBegin.toNat + c.bufUsed.toNat + len.toNat ∧
      ¬ c.bufUseBegin + c.bufUsed ≥ channelBufferSize := by
  have hadd : (c.bufUseBegin + c.bufUsed).toNat = c.bufUseBegin.toNat + c.bufUsed.toNat :=
    Word.toNat_add_of_lt (by omega)
  refine ⟨hadd, by rw [Word.toNat_add_of_lt (by omega), hadd], ?_⟩
  exact fun hge => Nat.not_le_of_lt hlt (hadd ▸ UInt32.le_iff_toNat_le.mp hge)

/-- A block that reaches past the end of the array goes in two pieces. -/
theorem copies_in_across_end (h : c.Valid) (hroom : c.bufUsed.toNat + len.toNat ≤ 200)
    (hlen : len.toNat ≤ buf.length) (hlt : c.bufUseBegin.toNat + c.bufUsed.toNat < 200)
    (hgt : 200 < c.bufUseBegin.toNat + c.bufUsed.toNat + len.toNat) :
    CopiesIn c len buf := by
  obtain ⟨hbegin, hused⟩ := h
  obtain ⟨hadd, hsum, hguard⟩ := sums_before_end len (by omega) hlt
  have hwraps : c.bufUseBegin + c.bufUsed + len > channelBufferSize :=
    UInt32.lt_iff_toNat_lt.mpr (hsum ▸ hgt)
  have hlen0 : (channelBufferSize - c.bufUseBegin - c.bufUsed).toNat =
      200 - c.bufUseBegin.toNat - c.bufUsed.toNat := by
    have hfirst : (channelBufferSize - c.bufUseBegin).toNat = 200 - c.bufUseBegin.toNat :=
      Word.toNat_sub_of_le (Nat.le_of_lt hbegin)
    rw [Word.toNat_sub_of_le (by omega), hfirst]
  have hlen1 : (len - (channelBufferSize - c.bufUseBegin - c.bufUsed)).toNat =
      c.bufUseBegin.toNat + c.bufUsed.toNat + len.toNat - 200 := by
    rw [Word.toNat_sub_of_le (by omega), hlen0]
    omega
  have hne : len - (channelBufferSize - c.bufUseBegin - c.bufUsed) ≠ 0 :=
    Word.ne_zero_of_pos (by omega)
  -- `room0` is what fits before the end, `room1` what is left for the start.
  obtain ⟨room0, hroom0⟩ : ∃ n, n = 200 - c.bufUseBegin.toNat - c.bufUsed.toNat := ⟨_, rfl⟩
  obtain ⟨room1, hroom1⟩ : ∃ n, n = c.bufUseBegin.toNat + c.bufUsed.toNat + len.toNat - 200 :=
    ⟨_, rfl⟩
  have htake0 : (buf.take room0).length = room0 := List.length_take_of_le (by omega)
  have htake1 : ((buf.drop room0).take room1).length = room1 :=
    List.length_take_of_le (by rw [List.length_drop]; omega)
  have hpush := Ring.contents_overwrite_pieces c.buf c.bufUseBegin.toNat c.bufUsed.toNat
    (buf.take room0) ((buf.drop room0).take room1) hbegin (by omega) (by omega)
  refine ⟨Ring.overwrite (Ring.overwrite c.buf (c.bufUseBegin.toNat + c.bufUsed.toNat)
    (buf.take room0)) 0 ((buf.drop room0).take room1), ?_, ?_⟩
  · rw [copyIn, if_neg hguard]
    simp only [if_pos hwraps, if_pos hne, hlen0, hlen1, hadd, ← hroom0, ← hroom1]
    rw [Ring.store_eq _ (by omega), inside_some, ok_bind, Ring.store_eq _ (by omega), inside_some]
  · have htotal : len.toNat = room0 + room1 := by omega
    rw [htake0, htake1, Nat.add_assoc, ← htotal] at hpush
    rw [hpush, queue, List.append_assoc, ← List.take_add, ← htotal]

/-- A block that fits before the end of the array goes in one piece. -/
theorem copies_in_before_end (h : c.Valid) (hlen : len.toNat ≤ buf.length)
    (hlt : c.bufUseBegin.toNat + c.bufUsed.toNat < 200)
    (hle : c.bufUseBegin.toNat + c.bufUsed.toNat + len.toNat ≤ 200) : CopiesIn c len buf := by
  obtain ⟨hbegin, hused⟩ := h
  have htake : (buf.take len.toNat).length = len.toNat := List.length_take_of_le hlen
  obtain ⟨hadd, hsum, hguard⟩ := sums_before_end len (by omega) hlt
  have hwraps : ¬ c.bufUseBegin + c.bufUsed + len > channelBufferSize :=
    fun hgt => Nat.not_lt_of_le hle (hsum ▸ UInt32.lt_iff_toNat_lt.mp hgt)
  have hpush := Ring.contents_overwrite c.buf c.bufUseBegin.toNat c.bufUsed.toNat
    (buf.take len.toNat) (by omega) (by omega)
  refine ⟨_, ?_, htake ▸ hpush⟩
  rw [copyIn, if_neg hguard]
  simp only [if_neg hwraps, ne_eq, not_true, if_false, hadd]
  rw [Ring.store_eq c.buf (by omega)]
  rfl

/-- Whatever the position of the queue, a block for which there is room is appended. -/
theorem copy_in_spec (h : c.Valid) (hroom : c.bufUsed.toNat + len.toNat ≤ 200)
    (hlen : len.toNat ≤ buf.length) : CopiesIn c len buf := by
  rcases Nat.lt_or_ge (c.bufUseBegin.toNat + c.bufUsed.toNat) 200 with hlt | hpast
  · rcases Nat.lt_or_ge 200 (c.bufUseBegin.toNat + c.bufUsed.toNat + len.toNat) with hgt | hle
    · exact copies_in_across_end h hroom hlen hlt hgt
    · exact copies_in_before_end h hlen hlt hle
  · exact copies_in_behind_wrap h hroom hlen hpast

end CopyIn

theorem cut_to_used (used len : UInt32) :
    (cutToUsed used len).toNat = min len.toNat used.toNat := by
  unfold cutToUsed
  split
  · next hlt => rw [Nat.min_eq_right (Nat.le_of_lt (UInt32.lt_iff_toNat_lt.mp hlt))]
  · next hge =>
    rw [UInt32.lt_iff_toNat_lt] at hge
    rw [Nat.min_eq_left (Nat.le_of_not_lt hge)]

/-- The sum that the code compares with the buffer size does not wrap for a request from user
space. -/
theorem cut_to_room {used len : UInt32} (hused : used.toNat ≤ 200)
    (huser : len.toNat ≤ 0xC0000000) :
    (cutToRoom used len).toNat = min len.toNat (200 - used.toNat) := by
  have hadd : (used + len).toNat = used.toNat + len.toNat := Word.toNat_add_of_lt (by omega)
  unfold cutToRoom
  split
  · next hgt =>
    have hgt : 200 < used.toNat + len.toNat := hadd ▸ UInt32.lt_iff_toNat_lt.mp hgt
    have hsub : (channelBufferSize - used).toNat = 200 - used.toNat := Word.toNat_sub_of_le hused
    omega
  · next hle =>
    have hle : ¬ 200 < used.toNat + len.toNat :=
      hadd ▸ fun hgt => hle (UInt32.lt_iff_toNat_lt.mpr hgt)
    omega

/-- A pass of `channel_read` takes the first bytes of the queue, as many as it can. -/
theorem read_round_spec {c : Channel} (h : c.Valid) (len : UInt32) :
    ∃ c', c.readRound len = .ok (c.queue.take len.toNat, c') ∧ c'.Valid ∧
      c'.queue = c.queue.drop len.toNat ∧ c'.lock = c.lock ∧ c'.otherSide = c.otherSide := by
  obtain ⟨most, hmost⟩ : ∃ most, most = cutToUsed c.bufUsed len := ⟨_, rfl⟩
  have hvalue : most.toNat = min len.toNat c.bufUsed.toNat := hmost ▸ cut_to_used c.bufUsed len
  have htake : c.queue.take most.toNat = c.queue.take len.toNat := by
    rw [hvalue, ← length_queue, List.take_eq_take_iff]
    simp
  have hdrop : c.queue.drop most.toNat = c.queue.drop len.toNat := by
    rcases Nat.le_total len.toNat c.bufUsed.toNat with hle | hle
    · rw [hvalue, Nat.min_eq_left hle]
    · rw [hvalue, Nat.min_eq_right hle, List.drop_of_length_le (by simp),
        List.drop_of_length_le (by simpa using hle)]
  by_cases hzero : most = 0
  · have hround : c.readRound len = .ok ([], c) := by
      rw [readRound, ← hmost, if_pos hzero]
    rw [← htake, ← hdrop, hround, hzero]
    exact ⟨c, rfl, h, rfl, rfl, rfl⟩
  · have hle : most.toNat ≤ c.bufUsed.toNat := by omega
    have hround : c.readRound len = .ok (c.queue.take most.toNat, c.advance most) := by
      rw [readRound, ← hmost, if_neg hzero, copy_out_spec h hle]
      rfl
    obtain ⟨hvalid, hqueue⟩ := advance_spec h hle
    rw [← htake, ← hdrop, hround]
    exact ⟨c.advance most, rfl, hvalid, hqueue, rfl, rfl⟩

/-- A pass of `channel_write` appends the first bytes of the block, as many as fit. -/
theorem write_round_spec {c : Channel} (h : c.Valid) (len : UInt32) (buf : List UInt8)
    (hlen : len.toNat ≤ buf.length) (huser : len.toNat ≤ 0xC0000000) :
    ∃ taken c', c.writeRound len buf = .ok (taken, c') ∧
      taken.toNat = min len.toNat (200 - c.bufUsed.toNat) ∧ c'.Valid ∧
      c'.queue = c.queue ++ buf.take taken.toNat ∧ c'.lock = c.lock ∧
      c'.otherSide = c.otherSide := by
  obtain ⟨hbegin, hused⟩ := id h
  obtain ⟨most, hmost⟩ : ∃ most, most = cutToRoom c.bufUsed len := ⟨_, rfl⟩
  have hvalue : most.toNat = min len.toNat (200 - c.bufUsed.toNat) :=
    hmost ▸ cut_to_room hused huser
  by_cases hzero : most = 0
  · have hround : c.writeRound len buf = .ok (0, c) := by
      rw [writeRound, ← hmost, if_pos hzero]
    exact ⟨0, c, hround, hzero ▸ hvalue, h, by simp, rfl, rfl⟩
  · obtain ⟨cells, hcopy, hqueue⟩ : CopiesIn c most buf :=
      copy_in_spec h (by omega) (by omega)
    have hused' : (c.bufUsed + most).toNat = c.bufUsed.toNat + most.toNat :=
      Word.toNat_add_of_lt (by omega)
    have hround : c.writeRound len buf =
        .ok (most, { c with buf := cells, bufUsed := c.bufUsed + most }) := by
      rw [writeRound, ← hmost, if_neg hzero, hcopy]
      rfl
    refine ⟨most, _, hround, hvalue, ⟨hbegin, ?_⟩, ?_, rfl, rfl⟩
    · simp only [hused']
      omega
    · rw [queue, hused', hqueue]

end Channel

/-- Nobody holds a mutex, the ends know each other, and both buffers are in shape. -/
structure Channels.Quiet (cs : Channels) : Prop where
  valid : ∀ e, (cs e).Valid
  unlocked : ∀ e, (cs e).lock = false
  paired : ∀ e, (cs e).otherSide = some e.other

/-- The buffers of a fresh channel are empty. -/
theorem quiet_make_channel (stale : End → Vector UInt8 200) : (makeChannel stale).Quiet where
  valid := fun _ => ⟨Nat.zero_lt_succ 199, Nat.zero_le 200⟩
  unlocked := fun _ => rfl
  paired := fun _ => rfl

namespace Channels.Quiet

variable {cs : Channels}

/-- Replacing one end by a channel in shape leaves the pair in shape. -/
theorem update (h : cs.Quiet) {e : End} {c : Channel} (hvalid : c.Valid)
    (hother : c.otherSide = (cs e).otherSide) :
    Channels.Quiet (Function.update cs e c.release) := by
  have hcase : ∀ d, Function.update cs e c.release d = c.release ∧ d = e ∨
      Function.update cs e c.release d = cs d := by
    intro d
    by_cases heq : d = e
    · subst heq
      exact .inl ⟨Function.update_self .., rfl⟩
    · exact .inr (Function.update_of_ne heq ..)
  constructor <;> intro d
  · rcases hcase d with ⟨heq, -⟩ | heq
    · rw [heq]
      exact ⟨hvalid.begin_lt, hvalid.used_le⟩
    · rw [heq]
      exact h.valid d
  · rcases hcase d with ⟨heq, -⟩ | heq
    · rw [heq]
      rfl
    · rw [heq]
      exact h.unlocked d
  · rcases hcase d with ⟨heq, rfl⟩ | heq
    · rw [heq]
      exact hother.trans (h.paired d)
    · rw [heq]
      exact h.paired d

end Channels.Quiet

/-- Taking the mutex of a quiet channel succeeds. -/
theorem acquire_quiet {c : Channel} (h : c.lock = false) :
    c.acquire = .ok { c with lock := true } := by
  simp [Channel.acquire, h]

/-- The handles of `make_channel(false)` poll. -/
theorem polls (e : End) : (channelHandle false e).blocking = false := by
  cases e <;> decide

/-- A non-blocking read returns the first bytes of the queue and removes them. -/
theorem channel_read_spec {cs : Channels} (h : cs.Quiet) (e : End) (len : UInt32) :
    ∃ cs', channelRead (channelHandle false e) len cs =
        .ok (.returned ((cs e).queue.take len.toNat), cs') ∧ cs'.Quiet ∧
      (cs' e).queue = (cs e).queue.drop len.toNat ∧ ∀ d ≠ e, cs' d = cs d := by
  obtain ⟨c, hround, hvalid, hqueue, hlock, hother⟩ :=
    Channel.read_round_spec (c := { cs e with lock := true })
      ⟨(h.valid e).begin_lt, (h.valid e).used_le⟩ len
  refine ⟨Function.update cs e c.release, ?_, h.update hvalid hother, ?_, fun d hd =>
    Function.update_of_ne hd ..⟩
  · rw [channelRead, channelReadLoop]
    have hnode : (channelHandle false e).node = e := rfl
    have hstart : len - UInt32.ofNat ([] : List UInt8).length = len := by simp
    rw [hnode, polls e, acquire_quiet (h.unlocked e), ok_bind, hstart, hround]
    rfl
  · rw [Function.update_self]
    exact hqueue

/-- A non-blocking write appends as many bytes of the block as there is room for to the queue
of the other end. -/
theorem channel_write_spec {cs : Channels} (h : cs.Quiet) (e : End) (data : List UInt8)
    (huser : data.length ≤ 0xC0000000) :
    ∃ taken cs', channelWrite (channelHandle false e) data cs = .ok (.returned taken, cs') ∧
      taken.toNat = min data.length (200 - (cs e.other).bufUsed.toNat) ∧ cs'.Quiet ∧
      (cs' e.other).queue = (cs e.other).queue ++ data.take taken.toNat ∧
      ∀ d ≠ e.other, cs' d = cs d := by
  have hsize : (UInt32.ofNat data.length).toNat = data.length :=
    UInt32.toNat_ofNat_of_lt' (Nat.lt_of_le_of_lt huser (by decide))
  obtain ⟨taken, c, hround, htaken, hvalid, hqueue, hlock, hother⟩ :=
    Channel.write_round_spec (c := { cs e.other with lock := true })
      ⟨(h.valid e.other).begin_lt, (h.valid e.other).used_le⟩ (UInt32.ofNat data.length) data
      (by omega) (by omega)
  refine ⟨taken, Function.update cs e.other c.release, ?_, hsize ▸ htaken,
    h.update hvalid hother, ?_, fun d hd => Function.update_of_ne hd ..⟩
  · have hnode : (channelHandle false e).node = e := rfl
    rw [channelWrite, hnode, h.paired e]
    simp only [channelWriteLoop, acquire_quiet (h.unlocked e.other), ok_bind, polls e,
      UInt32.sub_zero, UInt32.toNat_zero, List.drop_zero, hround, UInt32.zero_add]
    rfl
  · rw [Function.update_self]
    exact hqueue

namespace ChannelFifo

/-- A non-blocking call on one of the two handles. -/
inductive Call where
  | read (e : End) (len : UInt32)
  | write (e : End) (data : List UInt8)
  deriving DecidableEq

/-- The requested length. -/
def Call.requested : Call → Nat
  | .read _ len => len.toNat
  | .write _ data => data.length

/-- What the call could transfer at most: the data at its end, or the space at the other. -/
def Call.available (cs : Channels) : Call → Nat
  | .read e _ => (cs e).bufUsed.toNat
  | .write e _ => 200 - (cs e.other).bufUsed.toNat

/-- The channel together with what went through it: for each end, the bytes accepted by the
writes made there and the bytes delivered by the reads made there. -/
structure History where
  channels : Channels
  accepted : End → List UInt8
  delivered : End → List UInt8

/-- A channel just made. -/
def History.start (stale : End → Vector UInt8 200) : History :=
  { channels := makeChannel stale, accepted := fun _ => [], delivered := fun _ => [] }

/-- The value with which a call ends. -/
def value {α : Type} : Reply α → α
  | .returned v => v
  | .waiting v => v

/-- One call: the number of bytes transferred and the history after it. -/
def step (s : History) : Call → Except Halt (Nat × History)
  | .read e len => do
      let (reply, cs) ← channelRead (channelHandle false e) len s.channels
      let bytes := value reply
      return (bytes.length, { s with
        channels := cs
        delivered := Function.update s.delivered e (s.delivered e ++ bytes) })
  | .write e data => do
      let (reply, cs) ← channelWrite (channelHandle false e) data s.channels
      let taken := (value reply).toNat
      return (taken, { s with
        channels := cs
        accepted := Function.update s.accepted e (s.accepted e ++ data.take taken) })

/-- A sequence of calls. -/
def run (s : History) : List Call → Except Halt History
  | [] => .ok s
  | call :: calls => do
      let (_, s) ← step s call
      run s calls

/-- What one end accepted is what the other delivered and then what is still buffered. -/
structure Fifo (s : History) : Prop where
  quiet : s.channels.Quiet
  split : ∀ e, s.accepted e.other = s.delivered e ++ (s.channels e).queue

/-- A channel just made has nothing in it. -/
theorem fifo_start (stale : End → Vector UInt8 200) : Fifo (History.start stale) where
  quiet := quiet_make_channel stale
  split := fun _ => rfl

/-- No end is its own opposite. -/
theorem other_ne (e : End) : e.other ≠ e := by
  cases e <;> decide

/-- There are only the two ends. -/
theorem eq_or_eq_other (d e : End) : d = e ∨ d = e.other := by
  cases d <;> cases e <;> simp [End.other]

@[simp] theorem other_other (e : End) : e.other.other = e := by
  cases e <;> rfl

/-- One call transfers what it can and keeps the order of the bytes. -/
theorem step_spec {s : History} (h : Fifo s) {call : Call} (huser : call.requested ≤ 0xC0000000) :
    ∃ s', step s call = .ok (min call.requested (call.available s.channels), s') ∧ Fifo s' := by
  cases call with
  | read e len =>
      obtain ⟨cs, hcall, hquiet, hqueue, hframe⟩ := channel_read_spec h.quiet e len
      refine ⟨_, by simp [step, hcall, value, Call.requested, Call.available]; rfl, hquiet, ?_⟩
      intro d
      rcases eq_or_eq_other d e with rfl | rfl
      · simp only [Function.update_self]
        rw [h.split d, hqueue, List.append_assoc, List.take_append_drop]
      · simp only [Function.update_of_ne (other_ne e)]
        rw [h.split, hframe _ (other_ne e)]
  | write e data =>
      obtain ⟨taken, cs, hcall, htaken, hquiet, hqueue, hframe⟩ :=
        channel_write_spec h.quiet e data huser
      refine ⟨_, by simp [step, hcall, value, Call.requested, Call.available, htaken]; rfl,
        hquiet, ?_⟩
      intro d
      rcases eq_or_eq_other d e with rfl | rfl
      · simp only [Function.update_of_ne (other_ne d)]
        rw [h.split, hframe _ (other_ne d).symm]
      · simp only [other_other, Function.update_self]
        rw [hqueue, ← List.append_assoc, ← h.split, other_other, htaken]

/-- Every sequence of calls with user buffers goes through and keeps the order of the bytes. -/
theorem run_spec {s : History} (h : Fifo s) (calls : List Call)
    (huser : ∀ call ∈ calls, call.requested ≤ 0xC0000000) :
    ∃ s', run s calls = .ok s' ∧ Fifo s' := by
  induction calls generalizing s with
  | nil => exact ⟨s, rfl, h⟩
  | cons call calls ih =>
      obtain ⟨next, hstep, hnext⟩ := step_spec h (huser call (by simp))
      obtain ⟨final, hrun, hfinal⟩ := ih hnext fun c hc => huser c (by simp [hc])
      exact ⟨final, by simp [run, hstep, hrun], hfinal⟩

/-- Channel FIFO. After any sequence of non-blocking calls with user buffers, none of which
leaves the ring buffer, what was read at an end is a prefix of what was accepted at the other,
the rest being the `bufUsed` bytes still buffered, and the next call transfers the smaller of
what it asks for and what there is. -/
theorem channel_fifo (stale : End → Vector UInt8 200) (calls : List Call)
    (huser : ∀ call ∈ calls, call.requested ≤ 0xC0000000) :
    ∃ s, run (History.start stale) calls = .ok s ∧
      (∀ e, s.accepted e.other = s.delivered e ++ (s.channels e).queue ∧
        (s.channels e).queue.length = (s.channels e).bufUsed.toNat ∧
        (s.channels e).bufUsed ≤ channelBufferSize) ∧
      ∀ call : Call, call.requested ≤ 0xC0000000 →
        ∃ s', step s call = .ok (min call.requested (call.available s.channels), s') := by
  obtain ⟨s, hrun, hfifo⟩ := run_spec (fifo_start stale) calls huser
  refine ⟨s, hrun, fun e => ⟨hfifo.split e, Channel.length_queue _, ?_⟩, fun call hcall => ?_⟩
  · exact UInt32.le_iff_toNat_le.mpr (hfifo.quiet.valid e).used_le
  · obtain ⟨s', hstep, -⟩ := step_spec hfifo hcall
    exact ⟨s', hstep⟩

/-- `channel_fifo` on a write of three bytes at one end and a read of two at the other. -/
theorem channel_fifo_three_two :
    ∃ s, run (History.start fun _ => Vector.replicate 200 0)
        [.write .a [104, 105, 33], .read .b 2] = .ok s ∧
      (∀ e, s.accepted e.other = s.delivered e ++ (s.channels e).queue ∧
        (s.channels e).queue.length = (s.channels e).bufUsed.toNat ∧
        (s.channels e).bufUsed ≤ channelBufferSize) ∧
      ∀ call : Call, call.requested ≤ 0xC0000000 →
        ∃ s', step s call = .ok (min call.requested (call.available s.channels), s') :=
  channel_fifo (fun _ => Vector.replicate 200 0) [.write .a [104, 105, 33], .read .b 2]
    (by decide)

end ChannelFifo

end Kogata.Kernel
