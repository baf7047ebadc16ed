import Kogata.Kernel.Memory
import Kogata.Lib.Bitset
import Kogata.Lib.Run
import Kogata.Lib.Word

/-!
# The frame allocator

`kernel/core/frame.c`. The words of `frame_bitset` are followed by the rest of the memory behind
the kernel, so that the array has no end here. `frame_allocator_mutex` is held over each call.
-/

namespace Kogata.Kernel.FrameAllocator

open Lib.Bitset Lib.Mask Lib.Run Lib.Tally Lib.Word

/-- `ALIGN4_UP`. -/
def align4Up (x : UInt32) : UInt32 :=
  if x &&& ~~~0xFFFFFFFC = 0 then x else (x &&& 0xFFFFFFFC) + 4

/-- The variables of the allocator. -/
structure Frames where
  frameBitset : Nat → UInt32
  nframes : Nat
  nusedFrames : Nat
  beginSearchAt : Nat

/-- The words of the bitset for an amount of RAM. -/
def bitsetWords (totalRam : UInt32) : Nat :=
  (align4Up (totalRam / 0x1000 / 8) / 4).toNat

/-- The pages of the kernel, with the bitset behind its data. -/
def kernelPages (totalRam kernelDataEnd : UInt32) : Nat :=
  let frameBitset := align4Up kernelDataEnd
  let kernelDataEnd := frameBitset + align4Up (totalRam / 0x1000 / 8)
  (pageAlignUp (kernelDataEnd - kHighhalfAddr) / 0x1000).toNat

/-- The loop of `frame_init_allocator` over the pages of the kernel. -/
def markPages : Nat → Frames → Frames
  | 0, s => s
  | pages + 1, s =>
      let s := markPages pages s
      { s with
        frameBitset := Function.update s.frameBitset (pages / 32)
          (s.frameBitset (pages / 32) ||| single (pages % 32))
        nusedFrames := s.nusedFrames + 1 }

/-- `frame_init_allocator`, on the memory behind the kernel. -/
def frameInitAllocator (memory : Nat → UInt32) (totalRam kernelDataEnd : UInt32) : Frames :=
  let s := markPages (kernelPages totalRam kernelDataEnd)
    { frameBitset := fun i => if i < bitsetWords totalRam then 0 else memory i
      nframes := (totalRam / 0x1000).toNat
      nusedFrames := 0
      beginSearchAt := 0 }
  { s with beginSearchAt := kernelPages totalRam kernelDataEnd / 32 }

/-- The loop of `frame_alloc` over the words from `i` on. -/
def frameAllocLoop (n : Nat) : Nat → Nat → Frames → Nat × Frames
  | 0, _, s => (0, s)
  | words + 1, i, s =>
      if s.frameBitset i = 0xFFFFFFFF then
        frameAllocLoop n words (i + 1)
          (if i = s.beginSearchAt then { s with beginSearchAt := s.beginSearchAt + 1 } else s)
      else
        match (List.range (32 - n + 1)).find? fun j => s.frameBitset i &&& run n j = 0 with
        | some j =>
            (i * 32 + j, { s with
              frameBitset := Function.update s.frameBitset i (s.frameBitset i ||| run n j)
              nusedFrames := s.nusedFrames + n })
        | none => frameAllocLoop n words (i + 1) s

/-- `frame_alloc`. -/
def frameAlloc (s : Frames) (n : Nat) : Nat × Frames :=
  if n > 32 then (0, s)
  else frameAllocLoop n (s.nframes / 32 - s.beginSearchAt) s.beginSearchAt s

/-- The body of the loop of `frame_free`. -/
def freeOne (s : Frames) (f : Nat) : Frames :=
  if s.frameBitset (f / 32) &&& single (f % 32) ≠ 0 then
    { s with
      frameBitset := Function.update s.frameBitset (f / 32)
        (s.frameBitset (f / 32) &&& ~~~single (f % 32))
      nusedFrames := s.nusedFrames - 1 }
  else s

/-- `frame_free`. -/
def frameFree (s : Frames) (base n : Nat) : Frames :=
  let s := (List.range n).foldl (fun s i => freeOne s (base + i)) s
  if base / 32 < s.beginSearchAt then { s with beginSearchAt := base / 32 } else s

/-- The frame is in use. -/
abbrev Frames.used (s : Frames) (f : Nat) : Prop :=
  bit s.frameBitset f = true

/-- A machine after the start of the allocator: the pages of its kernel, the frames that the
allocator accounts for, and those that have been given to `frame_free`. -/
structure Machine where
  frames : Frames
  kernel : Nat
  extent : Nat
  freed : List Nat

/-- The start of a machine. -/
def start (memory : Nat → UInt32) (totalRam kernelDataEnd : UInt32) : Machine where
  frames := frameInitAllocator memory totalRam kernelDataEnd
  kernel := kernelPages totalRam kernelDataEnd
  extent := max (bitsetWords totalRam * 32) (kernelPages totalRam kernelDataEnd)
  freed := []

/-- A call of the allocator. -/
inductive Call where
  | alloc (n : Nat)
  | free (base n : Nat)
  deriving DecidableEq

/-- The machine after a call. -/
def Call.after (m : Machine) : Call → Machine
  | .alloc n => { m with frames := (frameAlloc m.frames n).2 }
  | .free base n => { m with
      frames := frameFree m.frames base n
      freed := (List.range n).map (base + ·) ++ m.freed }

/-- `frame_alloc` of 1 to 32 frames; `frame_free` of frames that are in use, without frame 0. -/
def Call.Proper (m : Machine) : Call → Prop
  | .alloc n => 0 < n ∧ n ≤ 32
  | .free base n => ∀ k < n, base + k ≠ 0 ∧ base + k < m.extent ∧ m.frames.used (base + k)

/-- The runs of the calls, from the start of any machine whose kernel `paging_setup` accepts. -/
def frameRuns : System Machine :=
  eventRuns
    (fun m => ∃ memory totalRam kernelDataEnd, 0 < kernelPages totalRam kernelDataEnd ∧
      kernelPages totalRam kernelDataEnd ≤ 1024 ∧ m = start memory totalRam kernelDataEnd)
    (fun m (call : Call) => some (call.after m)) fun m call => call.Proper m

section Start

theorem align4_up_ge {x : UInt32} (hx : x.toNat + 4 < 2 ^ 32) :
    x.toNat ≤ (align4Up x).toNat ∧ (align4Up x).toNat ≤ x.toNat + 4 := by
  have hsplit := congrArg UInt32.toNat (and_add_and_not x 0xFFFFFFFC)
  have hoffset : (x &&& ~~~0xFFFFFFFC).toNat = x.toNat % 4 := by
    show x.toNat &&& (2 ^ 2 - 1) = x.toNat % 2 ^ 2
    exact Nat.and_two_pow_sub_one_eq_mod _ _
  have hdown : (x &&& 0xFFFFFFFC).toNat ≤ x.toNat := by
    rw [UInt32.toNat_and]
    exact Nat.and_le_left
  rw [UInt32.toNat_add, hoffset, Nat.mod_eq_of_lt (by omega)] at hsplit
  unfold align4Up
  split
  · omega
  · rw [toNat_add_of_lt (by show _ + 4 < _; omega)]
    show x.toNat ≤ (x &&& 0xFFFFFFFC).toNat + 4 ∧ (x &&& 0xFFFFFFFC).toNat + 4 ≤ x.toNat + 4
    omega

/-- The bitset has a bit for every frame in a whole word. -/
theorem bitset_words_ge (totalRam : UInt32) :
    (totalRam / 0x1000).toNat / 32 ≤ bitsetWords totalRam := by
  have hframes : (totalRam / 0x1000 / 8).toNat = (totalRam / 0x1000).toNat / 8 := by
    rw [UInt32.toNat_div]
    rfl
  have hsmall : (totalRam / 0x1000).toNat < 2 ^ 20 := by
    have hlt := totalRam.toNat_lt
    rw [UInt32.toNat_div]
    show totalRam.toNat / 4096 < 2 ^ 20
    omega
  have hge := (align4_up_ge (x := totalRam / 0x1000 / 8) (by omega)).1
  have hwords : bitsetWords totalRam = (align4Up (totalRam / 0x1000 / 8)).toNat / 4 := by
    unfold bitsetWords
    rw [UInt32.toNat_div]
    rfl
  omega

/-- The pages of the kernel are in use, and counted. -/
theorem mark_pages_spec (pages : Nat) (s : Frames) :
    (∀ f, (markPages pages s).used f ↔ s.used f ∨ f < pages) ∧
      (markPages pages s).nusedFrames = s.nusedFrames + pages ∧
        (markPages pages s).nframes = s.nframes := by
  induction pages with
  | zero => exact ⟨fun f => by simp [markPages], rfl, rfl⟩
  | succ pages ih =>
      obtain ⟨hused, hcount, hframes⟩ := ih
      refine ⟨fun f => ?_, ?_, hframes⟩
      · show bit (Function.update _ _ _) f = true ↔ _
        rw [bit_set, Bool.or_eq_true, decide_eq_true_eq]
        refine (or_congr_left (hused f)).trans ?_
        rw [or_assoc]
        exact or_congr_right ⟨fun h => by omega, fun h => by omega⟩
      · show (markPages pages s).nusedFrames + 1 = _
        rw [hcount, Nat.add_assoc]

end Start

/-- The invariant of the allocator. -/
structure Machine.Sound (m : Machine) : Prop where
  counted : m.frames.nusedFrames = Nat.count m.frames.used m.extent
  full : ∀ i < m.frames.beginSearchAt, i < m.frames.nframes / 32 →
    m.frames.frameBitset i = 0xFFFFFFFF
  covers : m.frames.nframes / 32 * 32 ≤ m.extent
  kernel : ∀ f < m.kernel, m.frames.used f ∨ f ∈ m.freed
  zero : m.frames.used 0

/-- A machine starts with the pages of its kernel in use, and no other frame. -/
theorem start_sound (memory : Nat → UInt32) (totalRam kernelDataEnd : UInt32)
    (hkernel : 0 < kernelPages totalRam kernelDataEnd) :
    (start memory totalRam kernelDataEnd).Sound := by
  generalize hm : start memory totalRam kernelDataEnd = m
  generalize hpages : kernelPages totalRam kernelDataEnd = pages at hkernel
  obtain ⟨hused, hcount, hframes⟩ := mark_pages_spec pages
    { frameBitset := fun i => if i < bitsetWords totalRam then 0 else memory i
      nframes := (totalRam / 0x1000).toNat
      nusedFrames := 0
      beginSearchAt := 0 }
  have hwords := bitset_words_ge totalRam
  have hextent : m.extent = max (bitsetWords totalRam * 32) pages := by
    rw [← hm, ← hpages]
    rfl
  have hinuse : ∀ f < m.extent, m.frames.used f ↔ f < pages := fun f hf => by
    rw [← hm]
    show (markPages (kernelPages totalRam kernelDataEnd) _).used f ↔ f < pages
    rw [hpages, hused f]
    refine or_iff_right_of_imp fun hset => ?_
    by_cases hword : f / 32 < bitsetWords totalRam
    · have hclear : bit (fun i => if i < bitsetWords totalRam then 0 else memory i) f = false := by
        unfold bit
        simp only [if_pos hword]
        exact BitVec.getLsbD_zero
      rw [show bit _ f = true from hset] at hclear
      cases hclear
    · omega
  have hnused : m.frames.nusedFrames = pages := by
    rw [← hm]
    show (markPages (kernelPages totalRam kernelDataEnd) _).nusedFrames = pages
    rw [hpages, hcount, Nat.zero_add]
  have hbegin : m.frames.beginSearchAt = pages / 32 := by
    rw [← hm, ← hpages]
    rfl
  have hnframes : m.frames.nframes = (totalRam / 0x1000).toNat := by
    rw [← hm]
    show (markPages (kernelPages totalRam kernelDataEnd) _).nframes = _
    rw [hpages, hframes]
  have hmk : m.kernel = pages := by
    rw [← hm, ← hpages]
    rfl
  refine ⟨?_, fun i hi hin => ?_, ?_, fun f hf => .inl ((hinuse f ?_).mpr ?_), ?_⟩
  · have hnone : Nat.count (fun _ => False) m.extent = 0 :=
      Nat.count_of_forall_not fun _ _ => not_false
    have hpagecount : Nat.count (fun f => f < pages) m.extent = 0 + pages := by
      rw [← hnone]
      refine count_insert_run (r := 0) (n := pages) (by omega) (fun _ _ _ => not_false)
        fun f => ?_
      exact ⟨fun h => .inr ⟨Nat.zero_le f, by omega⟩, fun h => by simpa using h⟩
    rw [hnused, count_congr hinuse, hpagecount, Nat.zero_add]
  · rw [hbegin] at hi
    refine (eq_ones_iff i).mpr fun k hk => (hinuse _ ?_).mpr ?_ <;> omega
  · rw [hnframes, hextent]
    omega
  · omega
  · omega
  · exact (hinuse 0 (by omega)).mpr hkernel

section Alloc

variable {m : Machine} {s : Frames} {n : Nat}

/-- The frame allocator finds no `n` free frames side by side in the word. -/
def Crowded (s : Frames) (n i : Nat) : Prop :=
  ∀ j, j + n ≤ 32 → ∃ k < n, s.used (i * 32 + j + k)

/-- What the search of `frame_alloc` comes to: it finds the first frames that are free, and marks
them, or leaves the bitset as it is. -/
structure Searched (s : Frames) (n i words : Nat) (r : Nat) (s' : Frames) : Prop where
  nframes : s'.nframes = s.nframes
  full : (∀ i < s.beginSearchAt, i < s.nframes / 32 → s.frameBitset i = 0xFFFFFFFF) →
    ∀ i < s'.beginSearchAt, i < s'.nframes / 32 → s'.frameBitset i = 0xFFFFFFFF
  found : (∃ i' j, i ≤ i' ∧ i' < i + words ∧ j + n ≤ 32 ∧ r = i' * 32 + j ∧
      (∀ k < n, ¬ s.used (r + k)) ∧
      (∀ f, s'.used f ↔ s.used f ∨ r ≤ f ∧ f < r + n) ∧
      s'.nusedFrames = s.nusedFrames + n) ∨
    r = 0 ∧ (∀ i', i ≤ i' → i' < i + words → Crowded s n i') ∧
      s'.frameBitset = s.frameBitset ∧ s'.nusedFrames = s.nusedFrames

/-- A bit of a word. -/
theorem used_iff (s : Frames) {i k : Nat} (hk : k < 32) :
    s.used (i * 32 + k) ↔ (s.frameBitset i).toBitVec.getLsbD k = true := by
  unfold Frames.used bit
  rw [show (i * 32 + k) / 32 = i by omega, show (i * 32 + k) % 32 = k by omega]

/-- The test of the mask: the frames are free. -/
theorem mask_free_iff (hn : 0 < n) {i j : Nat} (hj : j + n ≤ 32) :
    s.frameBitset i &&& run n j = 0 ↔ ∀ k < n, ¬ s.used (i * 32 + j + k) := by
  rw [and_run_eq_zero hn hj]
  constructor
  · intro h k hk
    rw [Nat.add_assoc, used_iff s (by omega), h (j + k) (by omega) (by omega)]
    exact Bool.false_ne_true
  · intro h k hjk hkn
    have hfree := h (k - j) (by omega)
    rw [show i * 32 + j + (k - j) = i * 32 + k by omega, used_iff s (by omega)] at hfree
    simpa using hfree

/-- The search goes on behind a word in which it finds nothing. -/
theorem Searched.skip {i words r : Nat} {s' : Frames} (hcrowded : Crowded s n i)
    (h : Searched s n (i + 1) words r s') : Searched s n i (words + 1) r s' := by
  obtain ⟨hframes, hkeep, hfound⟩ := h
  refine ⟨hframes, hkeep, ?_⟩
  rcases hfound with ⟨i', j, h1, h2, hrest⟩ | ⟨hzero, hall, hrest⟩
  · exact .inl ⟨i', j, by omega, by omega, hrest⟩
  · refine .inr ⟨hzero, fun i' h1 h2 => ?_, hrest⟩
    by_cases hself : i' = i
    · rw [hself]
      exact hcrowded
    · exact hall i' (by omega) (by omega)

theorem frame_alloc_loop_spec (hn : 0 < n) (hle : n ≤ 32) (words i : Nat) (s : Frames)
    (hbegin : s.beginSearchAt ≤ i) :
    Searched s n i words (frameAllocLoop n words i s).1 (frameAllocLoop n words i s).2 := by
  induction words generalizing i s with
  | zero =>
      exact ⟨rfl, id, .inr ⟨rfl, fun i' h1 h2 => by omega, rfl, rfl⟩⟩
  | succ words ih =>
      unfold frameAllocLoop
      by_cases hfull : s.frameBitset i = 0xFFFFFFFF
      · rw [if_pos hfull]
        have hcrowded : Crowded s n i := fun j hj =>
          ⟨0, hn, (eq_ones_iff i).mp hfull j (by omega)⟩
        by_cases hfirst : i = s.beginSearchAt
        · rw [if_pos hfirst]
          obtain ⟨hframes, hkeep, hfound⟩ := ih (i + 1)
            { s with beginSearchAt := s.beginSearchAt + 1 } (by show s.beginSearchAt + 1 ≤ _; omega)
          refine Searched.skip hcrowded ⟨hframes, fun hall => hkeep fun k hk hkn => ?_, hfound⟩
          by_cases hlast : k = i
          · rw [hlast]
            exact hfull
          · have hlt : k < s.beginSearchAt + 1 := hk
            exact hall k (by omega) hkn
        · rw [if_neg hfirst]
          exact (ih (i + 1) s (by omega)).skip hcrowded
      · rw [if_neg hfull]
        cases hfind : (List.range (32 - n + 1)).find? fun j => s.frameBitset i &&& run n j = 0 with
        | some j =>
            have hj : j < 32 - n + 1 := List.mem_range.mp (List.mem_of_find?_eq_some hfind)
            have hfree : s.frameBitset i &&& run n j = 0 := by
              simpa using List.find?_some hfind
            refine ⟨rfl, fun hall k hk hkn => ?_, .inl ⟨i, j, Nat.le_refl _, by omega, by omega,
              rfl, (mask_free_iff hn (by omega)).mp hfree, fun f => ?_, rfl⟩⟩
            · have hlt : k < s.beginSearchAt := hk
              show Function.update s.frameBitset i _ k = _
              rw [Function.update_of_ne (by omega)]
              exact hall k hlt hkn
            · show bit (Function.update s.frameBitset i _) f = true ↔ _
              rw [bit_set_run i hn (by omega), Bool.or_eq_true, decide_eq_true_eq]
        | none =>
            have hcrowded : Crowded s n i := fun j hj => by
              by_contra hnone
              have htest := List.find?_eq_none.mp hfind j (List.mem_range.mpr (by omega))
              refine htest (decide_eq_true ((mask_free_iff hn hj).mpr fun k hk hused => ?_))
              exact hnone ⟨k, hk, hused⟩
            exact (ih (i + 1) s (by omega)).skip hcrowded

/-- What `frame_alloc` does: it gives the first of `n` frames side by side that were free and are
marked, none of them behind the RAM and none of the kernel's unless it was given to `frame_free`;
or it gives 0, and does so exactly if no whole word has such frames. -/
structure Allocates (m : Machine) (n r : Nat) (s' : Frames) : Prop where
  frames : r ≠ 0 → ∀ k < n, ¬ m.frames.used (r + k) ∧ r + k < m.frames.nframes ∧
    (r + k < m.kernel → r + k ∈ m.freed)
  marked : r ≠ 0 → ∀ f, s'.used f ↔ m.frames.used f ∨ r ≤ f ∧ f < r + n
  failed : r = 0 ↔ ∀ i, (i + 1) * 32 ≤ m.frames.nframes → Crowded m.frames n i
  unmarked : r = 0 → ∀ f, s'.used f ↔ m.frames.used f

/-- `frame_alloc` searches from `begin_search_at` on. -/
theorem frame_alloc_searched (hn : 0 < n) (hle : n ≤ 32) (s : Frames) :
    Searched s n s.beginSearchAt (s.nframes / 32 - s.beginSearchAt) (frameAlloc s n).1
      (frameAlloc s n).2 := by
  unfold frameAlloc
  rw [if_neg (by omega)]
  exact frame_alloc_loop_spec hn hle _ _ s (Nat.le_refl _)

/-- In a sound state `frame_alloc` does what it should. -/
theorem Machine.Sound.allocates (h : m.Sound) (hn : 0 < n) (hle : n ≤ 32) :
    Allocates m n (frameAlloc m.frames n).1 (frameAlloc m.frames n).2 := by
  obtain ⟨-, -, hfound⟩ := frame_alloc_searched hn hle m.frames
  generalize (frameAlloc m.frames n).1 = r at hfound ⊢
  generalize (frameAlloc m.frames n).2 = s' at hfound ⊢
  rcases hfound with ⟨i, j, hi, hlt, hj, hr, hfree, hused, -⟩ | ⟨hr, hall, hbits, -⟩
  · -- Frame 0 is in use, so that a word with free frames gives another result than 0.
    have hne : r ≠ 0 := by
      rintro rfl
      exact hfree 0 hn h.zero
    have hword : i < m.frames.nframes / 32 := by omega
    refine ⟨fun _ k hk => ⟨hfree k hk, by omega, fun hkernel => ?_⟩, fun _ => hused, ?_,
      fun hzero => absurd hzero hne⟩
    · exact (h.kernel _ hkernel).resolve_left (hfree k hk)
    · refine ⟨fun hzero => absurd hzero hne, fun hcrowded => ?_⟩
      obtain ⟨k, hk, hset⟩ := hcrowded i (by omega) j hj
      exact absurd (hr ▸ hset) (hfree k hk)
  · refine ⟨fun hne => absurd hr hne, fun hne => absurd hr hne, ?_, fun _ f => ?_⟩
    · refine ⟨fun _ i hi => ?_, fun _ => hr⟩
      by_cases hbegin : i < m.frames.beginSearchAt
      · -- The words in front of `begin_search_at` are full.
        have hfull := h.full i hbegin (by omega)
        exact fun j hj => ⟨0, hn, (eq_ones_iff i).mp hfull j (by omega)⟩
      · exact hall i (by omega) (by omega)
    · unfold Frames.used
      rw [hbits]

/-- `frame_alloc` keeps the invariant. -/
theorem Machine.Sound.alloc (h : m.Sound) (hn : 0 < n) (hle : n ≤ 32) :
    (Call.after m (.alloc n)).Sound := by
  obtain ⟨hframes, hfull, hfound⟩ := frame_alloc_searched hn hle m.frames
  have hextent := h.covers
  refine ⟨?_, hfull h.full, ?_, fun f hf => ?_, ?_⟩
  · show (frameAlloc m.frames n).2.nusedFrames =
      Nat.count (frameAlloc m.frames n).2.used m.extent
    rcases hfound with ⟨i, j, hi, hlt, hj, hr, hfree, hused, hcount⟩ | ⟨-, -, hbits, hcount⟩
    · rw [hcount, h.counted]
      symm
      refine count_insert_run (r := (frameAlloc m.frames n).1) (by omega)
        (fun f hrf hfn => ?_) hused
      have hf := hfree (f - (frameAlloc m.frames n).1) (by omega)
      rw [show (frameAlloc m.frames n).1 + (f - (frameAlloc m.frames n).1) = f by omega] at hf
      exact hf
    · rw [hcount, h.counted]
      refine count_congr fun f _ => ?_
      unfold Frames.used
      rw [hbits]
  · show (frameAlloc m.frames n).2.nframes / 32 * 32 ≤ m.extent
    rw [hframes]
    exact hextent
  · refine (h.kernel f hf).imp (fun hused => ?_) id
    rcases hfound with ⟨i, j, -, -, -, -, -, hmarked, -⟩ | ⟨-, -, hbits, -⟩
    · exact (hmarked f).mpr (.inl hused)
    · show bit (frameAlloc m.frames n).2.frameBitset f = true
      rw [hbits]
      exact hused
  · rcases hfound with ⟨i, j, -, -, -, -, -, hmarked, -⟩ | ⟨-, -, hbits, -⟩
    · exact (hmarked 0).mpr (.inl h.zero)
    · show bit (frameAlloc m.frames n).2.frameBitset 0 = true
      rw [hbits]
      exact h.zero

end Alloc

section Free

variable {m : Machine} {s : Frames}

/-- A frame in use is freed. -/
theorem free_one_spec {f : Nat} (hused : s.used f) :
    (∀ g, (freeOne s f).used g ↔ s.used g ∧ g ≠ f) ∧
      (freeOne s f).nusedFrames = s.nusedFrames - 1 ∧ (freeOne s f).nframes = s.nframes ∧
        (freeOne s f).beginSearchAt = s.beginSearchAt := by
  unfold freeOne
  rw [if_pos ((and_single_ne_zero f).mpr hused)]
  refine ⟨fun g => ?_, rfl, rfl, rfl⟩
  show bit (Function.update _ _ _) g = true ↔ _
  rw [bit_clear, Bool.and_eq_true, decide_eq_true_eq]

/-- The loop of `frame_free` over frames in use. -/
theorem free_loop_spec (base n extent : Nat) (s : Frames)
    (hused : ∀ k < n, base + k < extent ∧ s.used (base + k))
    (hcounted : s.nusedFrames = Nat.count s.used extent) :
    let s' := (List.range n).foldl (fun s i => freeOne s (base + i)) s
    (∀ g, s'.used g ↔ s.used g ∧ ¬ (base ≤ g ∧ g < base + n)) ∧
      s'.nusedFrames = Nat.count s'.used extent ∧ s'.nframes = s.nframes ∧
        s'.beginSearchAt = s.beginSearchAt := by
  induction n with
  | zero =>
      refine ⟨fun g => ?_, hcounted, rfl, rfl⟩
      exact (and_iff_left (by omega)).symm
  | succ n ih =>
      obtain ⟨hbits, hcount, hframes, hbegin⟩ := ih fun k hk => hused k (Nat.lt_succ_of_lt hk)
      simp only [List.range_succ, List.foldl_append, List.foldl_cons, List.foldl_nil]
      generalize (List.range n).foldl (fun s i => freeOne s (base + i)) s = mid at *
      obtain ⟨hlast, hset⟩ := hused n (Nat.lt_succ_self n)
      have hmid : mid.used (base + n) := (hbits _).mpr ⟨hset, by omega⟩
      obtain ⟨hcleared, hnused, hframes', hbegin'⟩ := free_one_spec hmid
      refine ⟨fun g => ?_, ?_, hframes'.trans hframes, hbegin'.trans hbegin⟩
      · rw [hcleared g, hbits g, and_assoc]
        exact and_congr_right fun _ => ⟨fun h => by omega, fun h => by omega⟩
      · have hone : Nat.count mid.used extent =
            Nat.count (freeOne mid (base + n)).used extent + 1 :=
          count_insert hlast (fun h => ((hcleared _).mp h).2 rfl) hmid fun g hg =>
            (hcleared g).trans (and_iff_left hg)
        rw [hnused, hcount, hone, Nat.add_sub_cancel]

/-- `frame_free` of frames in use keeps the invariant. -/
theorem Machine.Sound.free (h : m.Sound) {base n : Nat} (hproper : (Call.free base n).Proper m) :
    (Call.after m (.free base n)).Sound := by
  obtain ⟨hbits, hcount, hframes, hbegin⟩ := free_loop_spec base n m.extent m.frames
    (fun k hk => (hproper k hk).2) h.counted
  generalize hs : (List.range n).foldl (fun s i => freeOne s (base + i)) m.frames = s at *
  -- `begin_search_at` is the old one or the word of `base`, whichever is first.
  have hfree : ∃ begin, frameFree m.frames base n = { s with beginSearchAt := begin } ∧
      begin ≤ m.frames.beginSearchAt ∧ begin ≤ base / 32 := by
    unfold frameFree
    simp only [hs]
    split
    · next hlt => exact ⟨base / 32, rfl, by omega, Nat.le_refl _⟩
    · next hge => exact ⟨s.beginSearchAt, rfl, by omega, by omega⟩
  obtain ⟨begin, hrun, hold, hword⟩ := hfree
  show Machine.Sound { m with
    frames := frameFree m.frames base n
    freed := (List.range n).map (base + ·) ++ m.freed }
  rw [hrun]
  refine ⟨hcount, fun i hi hin => ?_, ?_, fun f hf => ?_, ?_⟩
  · have hlt : i < begin := hi
    have hwords : i < m.frames.nframes / 32 := hframes ▸ hin
    refine (eq_ones_iff i).mpr fun k hk => (hbits _).mpr ⟨?_, by omega⟩
    exact (eq_ones_iff i).mp (h.full i (by omega) hwords) k hk
  · show s.nframes / 32 * 32 ≤ m.extent
    rw [hframes]
    exact h.covers
  · show s.used f ∨ f ∈ (List.range n).map (base + ·) ++ m.freed
    by_cases hin : base ≤ f ∧ f < base + n
    · refine .inr (List.mem_append_left _ (List.mem_map.mpr ⟨f - base, ?_, by omega⟩))
      exact List.mem_range.mpr (by omega)
    · exact (h.kernel f hf).imp (fun hused => (hbits f).mpr ⟨hused, hin⟩)
        (List.mem_append_right _)
  · refine (hbits 0).mpr ⟨h.zero, fun hin => ?_⟩
    exact (hproper 0 (by omega)).1 (by omega)

end Free

/-- The allocator is sound after every run. -/
theorem frame_runs_sound {m : Machine} (hm : Reachable frameRuns m) : m.Sound := by
  refine Reachable.induct (motive := Machine.Sound) ?_ ?_ hm
  · rintro m ⟨memory, totalRam, kernelDataEnd, hpos, -, rfl⟩
    exact start_sound memory totalRam kernelDataEnd hpos
  · rintro m m' h ⟨call, hproper, hstep⟩
    obtain rfl : call.after m = m' := Option.some.inj hstep
    cases call with
    | alloc n => exact h.alloc hproper.1 hproper.2
    | free base n => exact h.free hproper

/-- After every run `nused_frames` is the number of the frames in use, and `frame_alloc` gives
frames that were free, or 0 if and only if there are none side by side. -/
theorem frame_alloc_correct {m : Machine} (hm : Reachable frameRuns m) :
    m.frames.nusedFrames = Nat.count m.frames.used m.extent ∧
      ∀ n, 0 < n → n ≤ 32 →
        Allocates m n (frameAlloc m.frames n).1 (frameAlloc m.frames n).2 :=
  ⟨(frame_runs_sound hm).counted, fun _ hn hle => (frame_runs_sound hm).allocates hn hle⟩

/-- A machine with 256 frames and a kernel of three pages. -/
def smallMachine : Machine :=
  start (fun _ => 0) 0x100000 0xC0002000

theorem small_machine_starts : Reachable frameRuns smallMachine :=
  .init ⟨fun _ => 0, 0x100000, 0xC0002000, by decide, by decide, rfl⟩

/-- Its first four frames behind the kernel. -/
theorem small_machine_allocates :
    (frameAlloc smallMachine.frames 4).1 = 3 ∧
      Allocates smallMachine 4 (frameAlloc smallMachine.frames 4).1
        (frameAlloc smallMachine.frames 4).2 :=
  ⟨by decide +kernel, (frame_alloc_correct small_machine_starts).2 4 (by decide) (by decide)⟩

/-- As `paging_setup` does with the page of `kernel_stack_protector`, a frame of the kernel is
given to `frame_free`; `frame_alloc` then hands it out. If it is frame 0, the result is that of
a failure. -/
theorem kernel_frame_allocated :
    (∃ m, Reachable frameRuns m ∧ (frameAlloc m.frames 1).1 = 1 ∧ 1 < m.kernel) ∧
      smallMachine.frames.used 0 ∧
        ¬ (Call.after smallMachine (.free 0 1)).frames.used 0 ∧
          (frameAlloc (Call.after smallMachine (.free 0 1)).frames 1).1 = 0 := by
  refine ⟨⟨Call.after smallMachine (.free 1 1), ?_, by decide +kernel, by decide +kernel⟩,
    by decide +kernel, by decide +kernel, by decide +kernel⟩
  refine small_machine_starts.step ⟨.free 1 1, fun k hk => ?_, rfl⟩
  obtain rfl : k = 0 := by omega
  exact ⟨by decide, by decide +kernel, by decide +kernel⟩

end Kogata.Kernel.FrameAllocator
