import Kogata.Kernel.Iso9660
import Kogata.Kernel.PageTransfer

/-!
# What is read from a file on an ISO 9660 disc

`iso9660_node_read` of `kernel/fs/iso9660.c` under the VFS pager of a file: a range of bytes is cut
into pages by the pager and each page into blocks of the disc by the driver, and what comes back is
the bytes of the disc from the start of the extent on, up to the end of the file
(`iso_file_contents`).
-/

namespace Kogata.Kernel

open Lib.Effect Lib.Run Lib.Word

variable {W : Type}

/-- What `iso9660_node_read` asks: `file_read` on the disc, and `malloc`. -/
structure IsoDisk (W : Type) where
  fileRead : UInt32 → UInt32 → W → List UInt8 × W
  malloc : W → Bool × W

/-- How often the body of `for (i = offset; i < offset + len; i += 2048)` runs before the counter
reaches the bound or wraps around. -/
def blockSteps (offset len : UInt32) : Nat :=
  ((offset + len).toNat - offset.toNat + 2047) / 2048

/-- The values that the counter of that loop takes before it wraps around. -/
def blocksOf (offset len : UInt32) : List UInt32 :=
  (List.range (blockSteps offset len)).map fun k => offset + UInt32.ofNat k * 2048

variable (k : IsoDisk W)

/-- The loop of `iso9660_node_read`: the bytes that it puts into the buffer. A block that is not
whole goes through a buffer of its own. -/
def readBlocks (e : Extent) (offset len : UInt32) : List UInt32 → W → List UInt8 × W
  | [], w => ([], w)
  | i :: rest, w =>
      let storPos := e.lba * 2048 + i
      let blkLen := if i + 2048 > offset + len then offset + len - i else 2048
      if blkLen = 2048 then
        let (block, w) := k.fileRead storPos 2048 w
        if block.length ≠ 2048 then ([], w)
        else
          let (bytes, w) := readBlocks e offset len rest w
          (block ++ bytes, w)
      else
        let (ok, w) := k.malloc w
        if !ok then ([], w)
        else
          let (block, w) := k.fileRead storPos 2048 w
          let (bytes, w) := readBlocks e offset len rest w
          ((if block.length = 2048 then block.take blkLen.toNat else []) ++ bytes, w)

/-- `iso9660_node_read`. -/
def isoNodeRead (e : Extent) (offset len : UInt32) (w : W) : Except Halt (List UInt8 × W) := do
  if offset ≥ e.size then return ([], w)
  else
    let len := if offset + len > e.size then e.size - offset else len
    ensure (offset % 2048 == 0)
    if offset.toNat + blockSteps offset len * 2048 ≥ 2 ^ 32 then .error .diverge
    else return readBlocks k e offset len (blocksOf offset len) w

/-- The driver behind the VFS pagers of a disc. -/
def isoBacking (extent : Nat → Extent) : Backing W where
  read := fun node offset len w =>
    match isoNodeRead k (extent node) offset len w with
    | .ok (bytes, w) => (bytes, w)
    | .error _ => ([], w)
  write := fun _ _ _ w => (0, w)

/-- `iso9660_pager_ops` on a node. -/
def isoVfs (node : Nat) : VfsPager :=
  { node := node, canRead := true, canWrite := false, canResize := false }

/-- A block of the disc. -/
def discBlock (disc : Disc) (pos : UInt32) : List UInt8 :=
  (List.range 2048).map fun i => disc (pos + UInt32.ofNat i)

/-- Blocks of the disc can be read, and `malloc` does not fail. -/
structure IsoDisk.Works (disc : Disc) : Prop where
  block : ∀ pos w, pos.toNat % 2048 = 0 → (k.fileRead pos 2048 w).1 = discBlock disc pos
  malloc : ∀ w, (k.malloc w).1 = true

/-- The byte of a file at an offset; behind the end of the file there are zeros. -/
def isoByte (disc : Disc) (e : Extent) (x : Nat) : UInt8 :=
  if x < e.size.toNat then disc (UInt32.ofNat (e.lba.toNat * 2048 + x)) else 0

section NodeRead

variable {k} {disc : Disc} {e : Extent} {offset len : UInt32}

theorem disc_block_length (pos : UInt32) : (discBlock disc pos).length = 2048 := by
  simp [discBlock]

/-- The bytes of a block that belong to the file, and more. -/
theorem disc_block_take {pos : UInt32} {x n : Nat} (hn : n ≤ 2048)
    (hpos : pos.toNat = e.lba.toNat * 2048 + x) (hin : x + n ≤ e.size.toNat) :
    (discBlock disc pos).take n = (List.range n).map fun i => isoByte disc e (x + i) := by
  rw [discBlock, ← List.map_take, List.take_range, Nat.min_eq_left hn]
  refine List.map_congr_left fun i hi => ?_
  have hlt := List.mem_range.mp hi
  rw [isoByte, if_pos (by omega)]
  refine congrArg disc (UInt32.toNat_inj.mp ?_)
  rw [UInt32.toNat_add, hpos, UInt32.toNat_ofNat', UInt32.toNat_ofNat']
  omega

section

variable (hworks : k.Works disc)

include hworks

/-- A whole block. -/
theorem read_blocks_whole {i : UInt32} (rest : List UInt32)
    (haligned : (e.lba * 2048 + i).toNat % 2048 = 0) (hwhole : ¬ i + 2048 > offset + len) (w : W) :
    ∃ w', (readBlocks k e offset len (i :: rest) w).1 =
      discBlock disc (e.lba * 2048 + i) ++ (readBlocks k e offset len rest w').1 := by
  have hblock := hworks.block _ w haligned
  refine ⟨(k.fileRead (e.lba * 2048 + i) 2048 w).2, ?_⟩
  simp only [readBlocks, if_neg hwhole, if_true, hblock, disc_block_length, ne_eq,
    not_true_eq_false, if_false]

/-- The last block, of which the file has a part. -/
theorem read_blocks_part {i : UInt32}
    (haligned : (e.lba * 2048 + i).toNat % 2048 = 0) (hpart : i + 2048 > offset + len)
    (hne : offset + len - i ≠ 2048) (w : W) : (readBlocks k e offset len [i] w).1 =
      (discBlock disc (e.lba * 2048 + i)).take (offset + len - i).toNat := by
  have hblock := hworks.block _ (k.malloc w).2 haligned
  simp only [readBlocks, if_pos hpart, if_neg hne, hworks.malloc w, Bool.not_true,
    Bool.false_eq_true, if_false, hblock, disc_block_length, if_true, List.append_nil]

/-- The blocks from one of them on. -/
theorem read_blocks_from (haligned : offset.toNat % 2048 = 0)
    (hin : offset.toNat + len.toNat ≤ e.size.toNat)
    (hsmall : e.lba.toNat * 2048 + e.size.toNat + 4096 < 2 ^ 32) (count : Nat) :
    ∀ start w, start * 2048 + count * 2048 < len.toNat + 2048 →
      len.toNat ≤ start * 2048 + count * 2048 →
      (readBlocks k e offset len
        ((List.range' start count).map fun j => offset + UInt32.ofNat j * 2048) w).1 =
          (List.range (len.toNat - start * 2048)).map fun i =>
            isoByte disc e (offset.toNat + start * 2048 + i) := by
  induction count with
  | zero =>
      intro start w hlt hle
      have hnone : len.toNat - start * 2048 = 0 := by omega
      rw [hnone]
      rfl
  | succ count ih =>
      intro start w hlt hle
      rw [List.range'_succ, List.map_cons]
      have hshift : start * 2048 + (count + 1) * 2048 = (start + 1) * 2048 + count * 2048 := by
        rw [Nat.succ_mul, Nat.succ_mul, Nat.add_right_comm, Nat.add_assoc]
      have hmore : (start + 1) * 2048 + count * 2048 < len.toNat + 2048 := hshift ▸ hlt
      have hreach : len.toNat ≤ (start + 1) * 2048 + count * 2048 := hshift ▸ hle
      have hpos : (offset + UInt32.ofNat start * 2048).toNat = offset.toNat + start * 2048 := by
        rw [UInt32.toNat_add, UInt32.toNat_mul, UInt32.toNat_ofNat']
        show (_ + _ % _ * 2048 % _) % _ = _
        omega
      have hend : (offset + len).toNat = offset.toNat + len.toNat := by
        rw [UInt32.toNat_add]
        omega
      have hnext : (offset + UInt32.ofNat start * 2048 + 2048).toNat =
          offset.toNat + start * 2048 + 2048 := by
        rw [UInt32.toNat_add, hpos]
        show (_ + 2048) % _ = _
        omega
      have hstor : (e.lba * 2048 + (offset + UInt32.ofNat start * 2048)).toNat =
          e.lba.toNat * 2048 + (offset.toNat + start * 2048) := by
        rw [UInt32.toNat_add, UInt32.toNat_mul, hpos]
        show (_ * 2048 % _ + _) % _ = _
        omega
      by_cases hlast : offset + UInt32.ofNat start * 2048 + 2048 > offset + len
      · have hlt' := hlast
        rw [gt_iff_lt, UInt32.lt_iff_toNat_lt, hnext, hend] at hlt'
        obtain rfl : count = 0 := by omega
        have hrest : (offset + len - (offset + UInt32.ofNat start * 2048)).toNat =
            len.toNat - start * 2048 := by
          rw [UInt32.toNat_sub_of_le _ _ (by rw [UInt32.le_iff_toNat_le, hpos, hend]; omega), hpos,
            hend]
          omega
        have hne : offset + len - (offset + UInt32.ofNat start * 2048) ≠ 2048 := by
          intro heq
          rw [heq] at hrest
          change 2048 = _ at hrest
          omega
        rw [List.range'_zero, List.map_nil, read_blocks_part hworks (by omega) hlast hne, hrest]
        exact disc_block_take (by omega) hstor (by omega)
      · have hle' := hlast
        rw [gt_iff_lt, UInt32.lt_iff_toNat_lt, hnext, hend] at hle'
        have hsplit : len.toNat - start * 2048 = 2048 + (len.toNat - (start + 1) * 2048) := by omega
        have hindex : ∀ i, offset.toNat + (start + 1) * 2048 + i =
            offset.toNat + start * 2048 + (2048 + i) := by omega
        have hblock : (e.lba * 2048 + (offset + UInt32.ofNat start * 2048)).toNat % 2048 = 0 := by
          omega
        obtain ⟨w', hblocks⟩ := read_blocks_whole hworks ((List.range' (start + 1) count).map
          fun j => offset + UInt32.ofNat j * 2048) hblock hlast w
        have hfull : discBlock disc (e.lba * 2048 + (offset + UInt32.ofNat start * 2048)) =
            (List.range 2048).map fun i => isoByte disc e (offset.toNat + start * 2048 + i) := by
          have hroom : offset.toNat + start * 2048 + 2048 ≤ e.size.toNat := by omega
          rw [← disc_block_take (le_refl 2048) hstor hroom]
          exact (List.take_of_length_le (Nat.le_of_eq (disc_block_length _))).symm
        rw [hblocks, hfull, ih (start + 1) w' hmore hreach, hsplit, List.range_add,
          List.map_append, List.map_map]
        simp only [hindex]
        rfl

/-- `iso9660_node_read` on a part of the file that begins with a block. -/
theorem iso_node_read_spec (haligned : offset.toNat % 2048 = 0)
    (hpos : 0 < len.toNat) (hin : offset.toNat + len.toNat ≤ e.size.toNat)
    (hsmall : e.lba.toNat * 2048 + e.size.toNat + 4096 < 2 ^ 32) (w : W) :
    ∃ w', isoNodeRead k e offset len w =
      .ok ((List.range len.toNat).map fun i => isoByte disc e (offset.toNat + i), w') := by
  have hend : (offset + len).toNat = offset.toNat + len.toNat := by
    rw [UInt32.toNat_add]
    omega
  have hstart : ¬ offset ≥ e.size := by
    rw [ge_iff_le, UInt32.le_iff_toNat_le]
    omega
  have hcut : ¬ offset + len > e.size := by
    rw [gt_iff_lt, UInt32.lt_iff_toNat_lt, hend]
    omega
  have hblock : (offset % 2048 == 0) = true := by
    rw [beq_iff_eq, ← UInt32.toNat_inj, UInt32.toNat_mod]
    exact haligned
  have hsteps : blockSteps offset len = (len.toNat + 2047) / 2048 := by
    rw [blockSteps, hend, Nat.add_sub_cancel_left]
  have hends : ¬ offset.toNat + blockSteps offset len * 2048 ≥ 2 ^ 32 := by
    rw [hsteps]
    omega
  have hmore : blockSteps offset len * 2048 < len.toNat + 2048 := by
    rw [hsteps]
    exact Nat.lt_of_le_of_lt (Nat.div_mul_le_self _ _) (Nat.add_lt_add_left (by decide) _)
  have hreach : len.toNat ≤ blockSteps offset len * 2048 := by
    rw [hsteps]
    omega
  have hbytes := read_blocks_from hworks haligned hin hsmall (blockSteps offset len) 0 w
    (by rwa [Nat.zero_mul, Nat.zero_add]) (by rwa [Nat.zero_mul, Nat.zero_add])
  rw [← List.range_eq_range'] at hbytes
  simp only [Nat.zero_mul, Nat.sub_zero, Nat.add_zero] at hbytes
  refine ⟨(readBlocks k e offset len (blocksOf offset len) w).2, ?_⟩
  rw [isoNodeRead, if_neg hstart]
  simp only [if_neg hcut, ensure, hblock, if_true, if_neg hends, blocksOf, ← hbytes]
  rfl

/-- A page of the file is filled with its bytes and, behind its end, with zeros. -/
theorem iso_fills {extent : Nat → Extent} {node : Nat} {page : UInt32}
    (hsmall : (extent node).lba.toNat * 2048 + (extent node).size.toNat + 4096 < 2 ^ 32)
    (haligned : pageAligned page = true) (hpage : page < (extent node).size) :
    Fills (isoBacking k extent) node (isoByte disc (extent node)) (extent node).size page := by
  rw [page_aligned_iff] at haligned
  rw [UInt32.lt_iff_toNat_lt] at hpage
  have hexpect : (expectLen (extent node).size page).toNat =
      min 4096 ((extent node).size.toNat - page.toNat) := by
    rw [expect_len_toNat (by omega) (by rw [UInt32.le_iff_toNat_le]; omega)]
  refine ⟨fun w => ?_, fun j hle hlt => ?_⟩
  · obtain ⟨w', hrun⟩ := iso_node_read_spec hworks (by omega : page.toNat % 2048 = 0)
      (by omega : 0 < (expectLen (extent node).size page).toNat) (by omega) hsmall w
    simp only [isoBacking, hrun]
  · rw [isoByte, if_neg (by omega)]

end

end NodeRead

section Runs

variable (m : Machine W) (extent : Nat → Extent) (p : PagerId) (node : Nat)

/-- A `file_read` of a part of a file. -/
structure FileRead where
  f : FsHandle
  offset : UInt32
  len : UInt32

/-- The read is allowed by the handle, and asks for bytes that begin inside the file. -/
def FileRead.Inside (p : PagerId) (size : UInt32) (call : FileRead) : Prop :=
  call.f.pager = some p ∧ call.f.mode &&& fmRead ≠ 0 ∧ 0 < call.len ∧ call.offset < size ∧
    call.offset.toNat + call.len.toNat < 2 ^ 32

/-- The calls that read the file of a node. -/
def FileRead.next (s : Vm (Board W)) (call : FileRead) : Option (Vm (Board W)) :=
  match fileRead (board m (isoBacking k extent)) call.f call.offset call.len s with
  | .ok (_, s') => some s'
  | .error _ => none

/-- The pager of the file, any pages of which are resident. -/
structure IsoFile (disc : Disc) (s : Vm (Board W)) : Prop where
  ops : (s.pager p).ops = .vfs (isoVfs node)
  size : (s.pager p).size = (extent node).size
  free : (s.pager p).lock = false
  holds : Holds p (isoByte disc (extent node)) s

/-- The runs of reads of one file. -/
def isoFileRuns (disc : Disc) : System (Vm (Board W)) :=
  eventRuns (IsoFile extent p node disc) (FileRead.next k m extent)
    fun _ call => call.Inside p (extent node).size

/-- The bytes of the disc that a read asks for, up to the end of the file. -/
def discSlice (disc : Disc) (e : Extent) (offset len : UInt32) : List UInt8 :=
  (List.range (min len.toNat (e.size.toNat - offset.toNat))).map fun i =>
    disc (UInt32.ofNat (e.lba.toNat * 2048 + offset.toNat + i))

variable {k m extent p node} {disc : Disc} {s s' : Vm (Board W)} {call : FileRead}

/-- One read of the file. -/
theorem iso_file_read (hworks : k.Works disc)
    (hsmall : (extent node).lba.toNat * 2048 + (extent node).size.toNat + 4096 < 2 ^ 32)
    (hs : IsoFile extent p node disc s) (hcall : call.Inside p (extent node).size) :
    Yields (fileRead (board m (isoBacking k extent)) call.f call.offset call.len) s
      fun bytes s' => IsoFile extent p node disc s' ∧ ∃ new,
        s'.world.calls = new ++ s.world.calls ∧
          (bytes = discSlice disc (extent node) call.offset call.len ∨
            bytes = [] ∧ ¬ AllGiven new) := by
  obtain ⟨hpager, hmode, hpos, hstart, hends⟩ := hcall
  have hne : call.len ≠ 0 := fun hzero => by simp [hzero] at hpos
  have hlen := transfer_len_toNat (UInt32.le_of_lt hstart) hends
  rw [← hs.size] at hlen hstart
  have hbelow := UInt32.lt_iff_toNat_lt.mp hstart
  have hsize := congrArg UInt32.toNat hs.size
  have hrange : Stretch call.offset (transferLen (s.pager p).size call.offset call.len)
      (s.pager p).size := ⟨by omega, by omega⟩
  unfold fileRead fsReadFromPager
  rw [if_neg hne, if_neg hmode, hpager]
  refine (yields_pager_do_rw hs.holds hs.free rfl hstart (fun _ h => by cases h) hrange.inside
    hrange.whole fun t ht hlocked => ?_).mono fun bytes s' hdone => ?_
  · have hpages : t.pager p = { s.pager p with lock := true } := by
      rw [hlocked]
      exact Function.update_self _ _ _
    refine vfs_pages_in ht (by rw [hpages]; exact hs.ops) rfl (by rw [hpages]; exact hrange)
      fun page haligned hinside => ?_
    rw [hpages] at hinside ⊢
    rw [show ({ s.pager p with lock := true } : Pager).size = _ from hs.size] at hinside ⊢
    exact iso_fills hworks hsmall haligned hinside
  · have hbytes : (copyOutcome (isoByte disc (extent node)) call.offset
        (transferLen (s.pager p).size call.offset call.len) none).2 =
          discSlice disc (extent node) call.offset call.len := by
      refine (congrArg (fun n => (List.range n).map _) hlen).trans ?_
      rw [hs.size]
      refine List.map_congr_left fun i hi => ?_
      have hlt := List.mem_range.mp hi
      rw [isoByte, if_pos (by omega), Nat.add_assoc]
    obtain ⟨new, hnew, hdone'⟩ := hdone.calls
    rw [hbytes] at hdone'
    refine ⟨⟨?_, ?_, ?_, ?_⟩, new, hnew, hdone'.imp And.left fun h => ⟨h.1, h.2.2⟩⟩
    · rw [hdone.only.same]
      exact hs.ops
    · rw [hdone.only.same]
      exact hs.size
    · rw [hdone.only.same]
      exact hs.free
    · exact hdone'.elim (fun h => h.2.1) fun h => h.2.1

/-- However its pages came to be resident, a file on a disc reads as the bytes of the disc from the
start of its extent on, as many as there are up to its end. -/
theorem iso_file_contents (hworks : k.Works disc)
    (hsmall : (extent node).lba.toNat * 2048 + (extent node).size.toNat + 4096 < 2 ^ 32)
    (hs : Reachable (isoFileRuns k m extent p node disc) s)
    (hcall : call.Inside p (extent node).size) :
    ∃ bytes s' new, fileRead (board m (isoBacking k extent)) call.f call.offset call.len s =
        .ok (bytes, s') ∧ s'.world.calls = new ++ s.world.calls ∧
      (bytes = discSlice disc (extent node) call.offset call.len ∨
        bytes = [] ∧ ¬ AllGiven new) := by
  have hfile : IsoFile extent p node disc s := by
    refine hs.induct (fun _ hinit => hinit) fun s s' hs hstep => ?_
    obtain ⟨call, hcall, hnext⟩ := hstep
    obtain ⟨bytes, t, hrun, ht, -⟩ := iso_file_read hworks hsmall hs hcall
    rw [FileRead.next, hrun] at hnext
    exact Option.some.inj hnext ▸ ht
  obtain ⟨bytes, s', hrun, -, new, hnew, hbytes⟩ := iso_file_read hworks hsmall hfile hcall
  exact ⟨bytes, s', new, hrun, hnew, hbytes⟩

end Runs

section Examples

/-- A disc that always gives its blocks. -/
def IsoDisk.plain (disc : Disc) : IsoDisk W where
  fileRead := fun pos _ w => (discBlock disc pos, w)
  malloc := fun w => (true, w)

theorem iso_disk_plain_works (disc : Disc) : (IsoDisk.plain disc : IsoDisk W).Works disc := by
  refine ⟨fun pos w _ => ?_, fun w => ?_⟩
  · simp only [IsoDisk.plain]
  · simp only [IsoDisk.plain]

/-- A file of a page and a half, no page of which is resident. -/
def shortFile : Vm (Board UInt32) :=
  let blank := Vm.boardBlank
  { blank with
    pager := fun _ => { blank.pager 0 with ops := .vfs (isoVfs 7), size := 0x1900 } }

/-- A disc on which each byte is the low byte of its address. -/
def countedDisc : Disc :=
  fun pos => pos.toUInt8

/-- Where the file is on the disc. -/
def shortExtent : Nat → Extent :=
  fun _ => { lba := 20, size := 0x1900 }

/-- The last bytes of the file are read after bytes of both its pages. -/
theorem iso_file_contents_at_end : ∃ s bytes s' new,
    fileRead (board Machine.counting (isoBacking (IsoDisk.plain countedDisc) shortExtent))
        ⟨3, fmRead, some 0⟩ 0x1800 0x1000 s = .ok (bytes, s') ∧
      s'.world.calls = new ++ s.world.calls ∧
      (bytes = discSlice countedDisc (shortExtent 7) 0x1800 0x1000 ∨
        bytes = [] ∧ ¬ AllGiven new) := by
  have hworks := iso_disk_plain_works (W := UInt32) countedDisc
  have hfile : IsoFile shortExtent 0 7 countedDisc shortFile :=
    ⟨rfl, rfl, rfl, fun _ h => absurd rfl h, fun _ h => absurd rfl h, fun _ _ h => absurd rfl h⟩
  have hinside : FileRead.Inside 0 (shortExtent 7).size ⟨⟨3, fmRead, some 0⟩, 0xFF0, 0x20⟩ := by
    unfold FileRead.Inside
    decide
  obtain ⟨bytes, s, hrun, -⟩ :=
    iso_file_read (m := Machine.counting) hworks (by decide) hfile hinside
  have hfirst : FileRead.next (IsoDisk.plain countedDisc) Machine.counting shortExtent shortFile
      ⟨⟨3, fmRead, some 0⟩, 0xFF0, 0x20⟩ = some s := by
    rw [FileRead.next, hrun]
  obtain ⟨bytes', s', new, hlast⟩ := iso_file_contents hworks (by decide)
    (.step (.init hfile) ⟨_, hinside, hfirst⟩)
    (show FileRead.Inside 0 (shortExtent 7).size ⟨⟨3, fmRead, some 0⟩, 0x1800, 0x1000⟩ by
      unfold FileRead.Inside; decide)
  exact ⟨s, bytes', s', new, hlast⟩

end Examples

end Kogata.Kernel
