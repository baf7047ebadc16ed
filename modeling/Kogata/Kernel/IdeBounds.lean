import Kogata.Kernel.IdeRoundTrip

/-!
# The range checks of the IDE disks

`ide_read_sectors` and `ide_write_sectors` check the range of a request against the size of the
disk. On a drive without errors a request passes the check if the call answers its length. The read
refuses the request that ends with the last sector, and the write checks another range than the one
that is asked for (`ide_vfs_bounds_iff`).
-/

namespace Kogata.Kernel

open Lib.Effect

section Checks

variable {atapiRead : AtapiRead} {d : IdeVfsDev} {offset len : UInt32} {s : Ide}

/-- The node is that of an ATA disk whose lock is free. -/
structure AtaDisk (d : IdeVfsDev) (s : Ide) : Prop where
  disk : d = ideVfsDev d.device .ata
  drive : d.device ≤ 3
  present : (s.devices d.device).present = true
  type : (s.devices d.device).type = .ata
  lock : s.lock = false

/-- A request of whole blocks, at least one and fewer than 256. -/
structure Blocks (offset len : UInt32) : Prop where
  offsetAligned : offset.toNat % 512 = 0
  lenAligned : len.toNat % 512 = 0
  some : 0 < len.toNat / 512
  short : len.toNat / 512 < 256

/-- The call answers the length of the request. -/
def Passes (call : IdeCall UInt32) (len : UInt32) (s : Ide) : Prop :=
  ∃ s', call s = .ok (len, s')

theorem AtaDisk.block_size (h : AtaDisk d s) : d.blockSize = 512 := by
  rw [h.disk]
  rfl

theorem Blocks.ne_zero (h : Blocks offset len) : (0 : UInt32) ≠ len := by
  rintro rfl
  exact absurd h.some (Nat.lt_irrefl 0)

/-- A node call that takes the lock and asks for sectors passes if they are not beyond the end. -/
theorem passes_iff (h : AtaDisk d s) (hblocks : Blocks offset len) {sectors : IdeCall UInt8}
    {beyond : Prop} [Decidable beyond] {t u : Ide}
    (hrun : sectors { s with lock := true } = if beyond then .ok (2, t) else .ok (0, u)) :
    Passes (ideVfsTransfer (ideSystem atapiRead) d offset len sectors) len s ↔ ¬ beyond := by
  have haligned : Aligned d offset len :=
    ⟨h.block_size ▸ hblocks.offsetAligned, h.block_size ▸ hblocks.lenAligned⟩
  unfold Passes
  by_cases hbeyond : beyond
  · rw [ide_vfs_transfer_run haligned h.lock (hrun.trans (if_pos hbeyond))]
    refine iff_of_false ?_ (not_not_intro hbeyond)
    rintro ⟨s', hanswer⟩
    have hpair := Except.ok.inj hanswer
    exact hblocks.ne_zero (congrArg Prod.fst hpair)
  · rw [ide_vfs_transfer_run haligned h.lock (hrun.trans (if_neg hbeyond))]
    exact iff_of_true ⟨_, rfl⟩ hbeyond

/-- A read passes the check if a sector is left behind it. -/
theorem ide_vfs_read_passes_iff (h : AtaDisk d s) (hblocks : Blocks offset len) (buf : Nat) :
    Passes (ideVfsRead (ideSystem atapiRead) d offset len buf) len s ↔
      offset.toNat / 512 + len.toNat / 512 < (s.devices d.device).size.toNat := by
  obtain ⟨hpos, -⟩ := blocks_to_nat offset
  obtain ⟨-, hlen⟩ := blocks_to_nat len
  rw [Nat.mod_eq_of_lt hblocks.short] at hlen
  have hshort := hblocks.short
  have hoffset := offset.toNat_lt
  have hrange : (offset / 512).toNat + (len / 512).toUInt8.toNat < 2 ^ 32 := by omega
  have hrun : ideReadSectors (ideSystem atapiRead) _ _ _ buf { s with lock := true } = _ :=
    ide_read_sectors_run hrange h.drive h.present h.type
  rw [hpos, hlen] at hrun
  exact (passes_iff h hblocks (h.block_size ▸ hrun)).trans Nat.not_le

/-- A write passes the check if the range fits that has the position for its length and the length
for its position. -/
theorem ide_vfs_write_passes_iff (h : AtaDisk d s) (hblocks : Blocks offset len) (buf : Nat) :
    Passes (ideVfsWrite (ideSystem atapiRead) d offset len buf) len s ↔
      len.toNat / 512 + offset.toNat / 512 % 256 ≤ (s.devices d.device).size.toNat := by
  obtain ⟨-, hpos⟩ := blocks_to_nat offset
  obtain ⟨hlen, -⟩ := blocks_to_nat len
  have hshort := hblocks.short
  have hlen' := len.toNat_lt
  have hrange : (len / 512).toNat + (offset / 512).toUInt8.toNat < 2 ^ 32 := by omega
  have hrun : ideWriteSectors (ideSystem atapiRead) _ _ _ buf { s with lock := true } = _ :=
    ide_write_sectors_run hrange h.drive h.present h.type
  rw [hpos, hlen] at hrun
  exact (passes_iff h hblocks (h.block_size ▸ hrun)).trans Nat.not_lt

/-- A request that lies on the disk passes both checks, and one that does not passes neither,
exactly if it does not end with the last sector and the write, whose range has the two numbers
exchanged, lies on the disk where the request does. -/
theorem ide_vfs_bounds_iff (h : AtaDisk d s) (hblocks : Blocks offset len) (buf : Nat) :
    ((Passes (ideVfsRead (ideSystem atapiRead) d offset len buf) len s ↔
        offset.toNat / 512 + len.toNat / 512 ≤ (s.devices d.device).size.toNat) ∧
      (Passes (ideVfsWrite (ideSystem atapiRead) d offset len buf) len s ↔
        offset.toNat / 512 + len.toNat / 512 ≤ (s.devices d.device).size.toNat)) ↔
    offset.toNat / 512 + len.toNat / 512 ≠ (s.devices d.device).size.toNat ∧
      (len.toNat / 512 + offset.toNat / 512 % 256 ≤ (s.devices d.device).size.toNat ↔
        offset.toNat / 512 + len.toNat / 512 ≤ (s.devices d.device).size.toNat) := by
  rw [ide_vfs_read_passes_iff h hblocks, ide_vfs_write_passes_iff h hblocks]
  refine and_congr ⟨fun hread heq => ?_, fun hne => ?_⟩ Iff.rfl
  · exact absurd (hread.mpr (Nat.le_of_eq heq)) (Nat.not_lt.mpr (Nat.le_of_eq heq.symm))
  · exact ⟨Nat.le_of_lt, fun hle => Nat.lt_of_le_of_ne hle hne⟩

end Checks

theorem sixteen_disk : AtaDisk (ideVfsDev 0 .ata) (.zeroDisk sixteenSectors) :=
  ⟨rfl, by decide, rfl, rfl, rfl⟩

/-- One sector at sector 1 is inside for both. -/
theorem ide_vfs_bounds_sector_one :
    (Passes (ideVfsRead (ideSystem noAtapi) (ideVfsDev 0 .ata) 512 512 0) 512
      (.zeroDisk sixteenSectors) ↔
        1 + 1 ≤ 16) ∧
    (Passes (ideVfsWrite (ideSystem noAtapi) (ideVfsDev 0 .ata) 512 512 0) 512
      (.zeroDisk sixteenSectors) ↔
        1 + 1 ≤ 16) :=
  (ide_vfs_bounds_iff sixteen_disk ⟨rfl, rfl, by decide, by decide⟩ 0).mpr
    ⟨by decide, by decide⟩

/-- The last sector can not be read, and a write far behind the end passes the check. -/
theorem last_sector_refused :
    ¬ Passes (ideVfsRead (ideSystem noAtapi) (ideVfsDev 0 .ata) (15 * 512) 512 0) 512
      (.zeroDisk sixteenSectors) ∧
    Passes (ideVfsWrite (ideSystem noAtapi) (ideVfsDev 0 .ata) (256 * 512) 512 0) 512
      (.zeroDisk sixteenSectors) :=
  ⟨fun hpass => absurd ((ide_vfs_read_passes_iff sixteen_disk
      ⟨rfl, rfl, by decide, by decide⟩ 0).mp hpass) (by decide),
    (ide_vfs_write_passes_iff sixteen_disk ⟨rfl, rfl, by decide, by decide⟩ 0).mpr (by decide)⟩

end Kogata.Kernel
