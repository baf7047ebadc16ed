import Kogata.Kernel.Elf
import Kogata.Kernel.RegionIndex
import Kogata.Kernel.PagerLock

/-!
# Where `elf_load` writes

`elf_load` maps `p_memsz` bytes for a segment and copies what `file_read` gives for `p_filesz`.
Each copy goes to a range that `mmap` has just accepted, and it stays inside that range exactly
when the file has no more bytes for the segment than `p_memsz` (`elf_load_copies`).
-/

namespace Kogata.Kernel

open Kogata.Common Lib.Effect Lib.Logging Lib.Run

variable {W : Type}

/-- The copy stays inside the segment, and below the kernel half. -/
def UserWrite.Inside (w : UserWrite W) : Prop :=
  ∀ i < w.bytes.length, w.phdr.pVaddr.toNat ≤ (w.addr + UInt32.ofNat i).toNat ∧
    (w.addr + UInt32.ofNat i).toNat < w.phdr.pVaddr.toNat + w.phdr.pMemsz.toNat ∧
    w.addr + UInt32.ofNat i < kHighhalfAddr

/-- The process has the region of the segment, as `mmap` has just made it. -/
def UserWrite.Accepted (proc : ProcId) (w : UserWrite W) : Prop :=
  ∃ r ∈ (w.before.proc proc).regions, (w.before.region r).addr = w.phdr.pVaddr ∧
    (w.before.region r).size = w.phdr.pMemsz ∧ (w.before.region r).Sound

/-- The bytes that `file_read` copies for the segment are no more than it has memory. -/
def ElfPhdr.Fits (phdr : ElfPhdr) (fileSize : UInt32) : Prop :=
  transferLen fileSize phdr.pOffset phdr.pFilesz ≤ phdr.pMemsz

/-- What is known of a copy: it goes to the start of a segment whose range was accepted, and has
the length that `pager_do_rw` works with. -/
structure Copied (proc : ProcId) (f : FsHandle) (w : UserWrite W) : Prop where
  addr : w.addr = w.phdr.pVaddr
  accepted : w.Accepted proc
  length : ∃ p, f.pager = some p ∧ w.bytes.length =
    (transferLen (w.before.pager p).size w.phdr.pOffset w.phdr.pFilesz).toNat

/-- A copy stays inside its segment exactly when it fits. -/
theorem Copied.inside_iff {proc : ProcId} {f : FsHandle} {w : UserWrite W}
    (h : Copied proc f w) : w.Inside ↔ w.bytes.length ≤ w.phdr.pMemsz.toNat := by
  obtain ⟨r, -, haddr, hsize, hsound⟩ := h.accepted
  have hbounds := hsound.bounds
  rw [haddr, hsize] at hbounds
  have hvalue : ∀ i ≤ w.phdr.pMemsz.toNat,
      (w.addr + UInt32.ofNat i).toNat = w.phdr.pVaddr.toNat + i := by
    intro i hi
    rw [h.addr, UInt32.toNat_add, UInt32.toNat_ofNat']
    omega
  constructor
  · intro hinside
    -- The byte behind the segment would be the first one outside.
    by_contra hlong
    obtain ⟨-, hend, -⟩ := hinside w.phdr.pMemsz.toNat (by omega)
    rw [hvalue _ (Nat.le_refl _)] at hend
    omega
  · intro hfits i hi
    have hi' := hvalue i (by omega)
    have hhigh : kHighhalfAddr.toNat = 0xC0000000 := rfl
    rw [UInt32.lt_iff_toNat_lt, hi']
    omega

section Copies

variable {m : Machine W} {f : FsHandle} {proc : ProcId}

/-- A transfer that reads gives nothing, or the whole length. -/
theorem transfer_read_ok {p : PagerId} {offset len firstPage regionLen region : UInt32}
    {s s' : Vm W} {bytes : List UInt8}
    (h : transfer m p offset len firstPage regionLen region none s = .ok (bytes, s')) :
    bytes = [] ∨ bytes.length = len.toNat := by
  obtain ⟨_, s1, -, h⟩ := run_bind_eq_ok h
  obtain ⟨mapped, s2, -, h⟩ := run_bind_eq_ok h
  rw [run_ite] at h
  split at h
  · rw [run_ite] at h
    split at h
    · cases h
    · cases h
      exact .inr (by simp [Machine.loadBytes])
  · cases h
    exact .inl rfl

/-- Taking the mutex keeps the size of the pager. -/
theorem lock_pager_size {p : PagerId} {s s' : Vm W} {u : Unit}
    (h : lockPager p s = .ok (u, s')) : (s'.pager p).size = (s.pager p).size := by
  simp only [lockPager, run_bind, run_the_pager, run_ite] at h
  split at h
  · cases h
  · cases h
    simp

/-- `pager_do_rw` copies in a state with the same regions and the same size of the file. -/
theorem writes_pager_read_with {good : UserWrite W → Prop} {p : PagerId} {offset len : UInt32}
    {memcpy : List UInt8 → ElfCall W Unit} {s : Vm W}
    (h : ∀ bytes t, RegionFrame s t → (t.pager p).size = (s.pager p).size →
      bytes.length = (transferLen (s.pager p).size offset len).toNat →
      Writes good (memcpy bytes) t) :
    Writes good (pagerReadWith m p offset len memcpy) s := by
  refine writes_call_bind fun _ s1 hlock => writes_call_bind fun pg s2 hread => ?_
  have hs1 : RegionFrame s s1 := frame_lock_pager p s _ s1 hlock
  have hsize1 : (s1.pager p).size = (s.pager p).size := lock_pager_size hlock
  cases hread
  refine writes_ite (fun _ => writes_pure _) fun _ => writes_call_bind fun region s3 hask => ?_
  have hs3 := trans_of RegionFrame hs1 (frame_ask _ s1 _ s3 hask)
  have hsize3 : (s3.pager p).size = (s.pager p).size :=
    ((inner_ask _).size_eq hask).trans hsize1
  refine .bind (writes_ite (fun _ => writes_pure _) fun _ => ?_) fun ret _ _ =>
    writes_call_bind fun _ _ _ => writes_pure ret
  refine writes_call_bind fun bytes s4 htransfer => ?_
  have hinner := inner_transfer m p offset (transferLen (s1.pager p).size offset len)
    (pageAlignDown offset)
    (offset + transferLen (s1.pager p).size offset len - pageAlignDown offset) region none
  have hs4 := trans_of RegionFrame hs3 (hinner.region_frame s3 _ s4 htransfer)
  have hsize4 := (hinner.size_eq htransfer).trans hsize3
  have hend : ∀ t, Writes good (do
      call (dropRegion m region (offset + transferLen (s1.pager p).size offset len -
        pageAlignDown offset))
      return bytes : ElfCall W (List UInt8)) t := fun t =>
    writes_call_bind fun _ _ _ => writes_pure bytes
  refine writes_ite (fun hne => .bind ?_ fun _ t _ => hend t) fun _ => hend s4
  obtain hnil | hlength := transfer_read_ok htransfer
  · exact absurd hnil hne
  · rw [hsize1] at hlength
    exact h bytes s4 hs4 hsize4 hlength

variable {tries : Nat} {phdr : ElfPhdr}

/-- Reading a segment into a range that was accepted. -/
theorem writes_read_segment {s : Vm W}
    (h : ∃ r ∈ (s.proc proc).regions, (s.region r).addr = phdr.pVaddr ∧
      (s.region r).size = phdr.pMemsz ∧ (s.region r).Sound) :
    Writes (Copied proc f) (readSegment m tries proc f phdr) s := by
  refine writes_ite (fun _ => writes_pure _) fun _ => writes_ite (fun _ => writes_pure _)
    fun _ => ?_
  cases hp : f.pager with
  | none => exact writes_call _
  | some p =>
      refine writes_pager_read_with fun bytes t hframe hsize hlength => ?_
      refine writes_call_bind fun before t' hget => ?_
      cases hget
      refine .bind (writes_record ?_) fun _ _ _ => writes_call _
      refine ⟨rfl, ?_, p, hp, by rw [hsize]; exact hlength⟩
      show ∃ r ∈ (t.proc proc).regions, (t.region r).addr = phdr.pVaddr ∧
        (t.region r).size = phdr.pMemsz ∧ (t.region r).Sound
      rw [hframe.proc, hframe.region]
      exact h

/-- The body of the loop copies into the range that it has mapped. -/
theorem writes_load_segment {s : Vm W} :
    Writes (Copied proc f) (loadSegment m tries proc f phdr) s := by
  refine writes_ite (fun _ => writes_call_bind fun mapped s1 hmap => ?_) fun _ => writes_call _
  refine writes_ite (fun _ => writes_pure _) fun hmapped => .bind ?_ fun bytes _ _ => ?_
  · refine writes_read_segment ?_
    rcases mmap_cases hmap with ⟨rfl, -⟩ | ⟨-, r, reg, hnew, haddr, hsize, -⟩
    · exact absurd rfl hmapped
    · refine ⟨r, ?_, ?_, ?_, ?_⟩
      · rw [hnew.regions]
        exact List.mem_cons_self
      · rw [hnew.region_self, haddr]
      · rw [hnew.region_self, hsize]
      · rw [hnew.region_self]
        exact ⟨hnew.aligned, hnew.range⟩
  · exact writes_ite (fun _ => writes_pure _) fun _ => writes_ite (fun _ => writes_call _)
      fun _ => writes_pure _

/-- The loop over the headers. -/
theorem writes_load_segments {ehdr : ElfEhdr} {indices : List Nat} {s : Vm W} :
    Writes (Copied proc f) (loadSegments m tries proc f ehdr indices) s := by
  induction indices generalizing s with
  | nil => exact writes_pure _
  | cons i rest ih =>
      refine writes_call_bind fun bytes s1 _ => writes_ite (fun _ => writes_pure _) fun _ => ?_
      refine writes_ite (fun _ => writes_load_segment.bind fun done s2 _ => ?_) fun _ => ih
      exact writes_ite (fun _ => ih) fun _ => writes_pure _

/-- Every copy of a run goes to the start of a segment that was mapped. -/
theorem writes_elf_load {s : Vm W} : Writes (Copied proc f) (elfLoad m tries proc f) s := by
  refine writes_call_bind fun valid s1 _ => writes_ite (fun _ => writes_pure _) fun _ => ?_
  refine writes_call_bind fun bytes s2 _ => writes_ite (fun _ => writes_pure _) fun _ => ?_
  exact writes_load_segments.bind fun done s3 _ =>
    writes_ite (fun _ => writes_pure _) fun _ => writes_pure _

end Copies

/-- Every copy into user memory while `elf_load` runs, for any contents of the file, goes to a
range that `mmap` has just accepted for the process; and it stays inside that range, and below
the kernel half, exactly when the file has no more bytes for the segment than `p_memsz`. -/
theorem elf_load_copies (m : Machine W) (tries : Nat) (proc : ProcId) (f : FsHandle) (s : Vm W) :
    ∀ w ∈ (elfLoad m tries proc f).entries s, w.Accepted proc ∧
      ∃ p, f.pager = some p ∧ (w.Inside ↔ w.phdr.Fits (w.before.pager p).size) := by
  intro w hw
  have hcopied : Copied proc f w := writes_elf_load w hw
  obtain ⟨p, hp, hlength⟩ := hcopied.length
  refine ⟨hcopied.accepted, p, hp, ?_⟩
  rw [hcopied.inside_iff, hlength]
  exact UInt32.le_iff_toNat_le.symm

/-- A file with one writable segment, which has one page of memory right below the kernel half
and two pages of file. -/
def overlongElf : List UInt8 :=
  [0x7F, 0x45, 0x4C, 0x46, 1, 1, 1, 0, 0, 0, 0, 0, 0, 0, 0, 0,
    2, 0, 3, 0, 1, 0, 0, 0, 0x00, 0xF0, 0xFF, 0xBF, 52, 0, 0, 0,
    0, 0, 0, 0, 0, 0, 0, 0, 52, 0, 32, 0, 1, 0, 0, 0, 0, 0, 0, 0,
    1, 0, 0, 0, 0, 0, 0, 0, 0x00, 0xF0, 0xFF, 0xBF, 0, 0, 0, 0,
    0x00, 0x20, 0, 0, 0x00, 0x10, 0, 0, 6, 0, 0, 0, 0, 0x10, 0, 0]

/-- A machine on which that file is what the kernel sees through the region of a transfer. -/
def Machine.overlong : Machine Unit :=
  { Machine.steady with load := fun addr _ => overlongElf.getD (addr - 0xC1000000).toNat 0 }

/-- A state in which pager `0` is the one of a file of two pages. -/
def Vm.twoPageFile : Vm Unit :=
  { Vm.blank with
    pager := fun _ => { ops := .swap true, size := 0x2000, pages := fun _ => 0, lock := false,
                        maps := [] }
    next := 1 }

/-- A handle of that file. -/
def FsHandle.readOnly : FsHandle :=
  { id := 0, mode := 1, pager := some 0 }

/-- Loading that file copies more than the memory of its segment. -/
theorem overlong_copy : ∃ w ∈ (elfLoad Machine.overlong 1 0 FsHandle.readOnly).entries
    Vm.twoPageFile, w.phdr.pMemsz.toNat < w.bytes.length := by
  have hlong : ((elfLoad Machine.overlong 1 0 FsHandle.readOnly).entries Vm.twoPageFile).any
      (fun w => decide (w.phdr.pMemsz.toNat < w.bytes.length)) = true := by
    decide +kernel
  obtain ⟨w, hw, hlt⟩ := List.any_eq_true.mp hlong
  exact ⟨w, hw, of_decide_eq_true hlt⟩

/-- `elf_load_copies` on that file. -/
theorem elf_load_copies_overlong :
    ∃ w ∈ (elfLoad Machine.overlong 1 0 FsHandle.readOnly).entries Vm.twoPageFile,
      w.Accepted 0 ∧ (w.Inside ↔ w.phdr.Fits (w.before.pager 0).size) := by
  obtain ⟨w, hw, -⟩ := overlong_copy
  obtain ⟨haccepted, p, hp, hinside⟩ :=
    elf_load_copies Machine.overlong 1 0 FsHandle.readOnly Vm.twoPageFile w hw
  obtain rfl : 0 = p := Option.some.inj hp
  exact ⟨w, hw, haccepted, hinside⟩

/-- Loading that file into a new process copies two pages to the one that ends where the kernel
begins. -/
theorem elf_load_overflows : Vm.twoPageFile.proc 0 = Process.new ∧
    ¬ ∀ w ∈ (elfLoad Machine.overlong 1 0 FsHandle.readOnly).entries Vm.twoPageFile,
      w.Inside := by
  refine ⟨rfl, fun hclaim => ?_⟩
  obtain ⟨w, hw, hlt⟩ := overlong_copy
  have hcopied : Copied 0 FsHandle.readOnly w := writes_elf_load w hw
  have hle := hcopied.inside_iff.mp (hclaim w hw)
  exact absurd hlt (Nat.not_lt.mpr hle)

end Kogata.Kernel
