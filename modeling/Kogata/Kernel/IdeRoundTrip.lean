import Kogata.Kernel.Ide

/-!
# Writing a disk and reading it back

What the two transfer loops do to the sectors and to memory, and from it what the calls do.
`disk_round_trip_iff` is for a range that the read and the write both accept.
-/

namespace Kogata.Kernel

open Lib.Effect

section Transfers

variable {memory : Nat → UInt8} {ptr lba : Nat}

/-- A byte of the buffer that holds the sector. -/
theorem insw_apply (sector : Sector) {i : Nat} (hi : i < 512) :
    insw memory ptr sector (ptr + i) = sector.get ⟨i, hi⟩ := by
  unfold insw
  rw [dif_pos ⟨Nat.le_add_right _ _, Nat.add_lt_add_left hi _⟩]
  simp only [Nat.add_sub_cancel_left]
  rfl

/-- Of the sectors, the write loop changes those of its range. -/
theorem pio_write_apply (sectors : Nat → Sector) (numsects k : Nat) :
    pioWrite memory lba numsects ptr sectors k =
      if lba ≤ k ∧ k < lba + numsects then outsw memory (ptr + 512 * (k - lba)) else sectors k := by
  induction numsects generalizing lba ptr sectors with
  | zero =>
      unfold pioWrite
      rw [if_neg (by omega)]
  | succ numsects ih =>
      unfold pioWrite
      rw [ih]
      by_cases hfirst : k = lba
      · subst hfirst
        rw [if_neg (by omega), if_pos (by omega), Function.update_self, Nat.sub_self]
        rfl
      · rw [Function.update_of_ne hfirst]
        by_cases hrange : lba + 1 ≤ k ∧ k < lba + 1 + numsects
        · rw [if_pos hrange, if_pos (by omega)]
          congr 1
          omega
        · rw [if_neg hrange, if_neg (by omega)]

/-- The read loop stores nothing below its buffer. -/
theorem pio_read_below (sectors : Nat → Sector) (numsects : Nat) {a : Nat} (ha : a < ptr) :
    pioRead sectors lba numsects ptr memory a = memory a := by
  induction numsects generalizing lba ptr memory with
  | zero => rfl
  | succ numsects ih =>
      unfold pioRead
      rw [ih (by omega), insw, dif_neg (by omega)]

/-- The bytes of the buffer are those of the sectors. -/
theorem pio_read_apply (sectors : Nat → Sector) {numsects i : Nat} (hi : i < 512 * numsects) :
    pioRead sectors lba numsects ptr memory (ptr + i) =
      (sectors (lba + i / 512)).get ⟨i % 512, Nat.mod_lt _ (by decide)⟩ := by
  induction numsects generalizing lba ptr memory i with
  | zero => omega
  | succ numsects ih =>
      unfold pioRead
      by_cases hfirst : i < 512
      · have hdiv : i / 512 = 0 := Nat.div_eq_of_lt hfirst
        have hmod : i % 512 = i := Nat.mod_eq_of_lt hfirst
        rw [pio_read_below _ _ (by omega), insw_apply _ hfirst, hdiv, Nat.add_zero]
        simp only [hmod]
      · obtain ⟨j, rfl⟩ : ∃ j, i = 512 + j := ⟨i - 512, by omega⟩
        have hdiv : lba + (512 + j) / 512 = lba + 1 + j / 512 := by omega
        have hmod : (512 + j) % 512 = j % 512 := by omega
        rw [← Nat.add_assoc, ih (by omega), hdiv]
        simp only [hmod]

/-- A byte of the sector that the write loop takes from memory. -/
theorem outsw_get (i : Fin 512) : (outsw memory ptr).get i = memory (ptr + i) := by
  show (Vector.ofFn fun i : Fin 512 => memory (ptr + i))[i.val] = _
  rw [Vector.getElem_ofFn]

/-- Reading the sectors that have just been written gives back the bytes. -/
theorem pio_round_trip {buffer : Nat → UInt8} {dst numsects i : Nat} (sectors : Nat → Sector)
    (hi : i < 512 * numsects) :
    pioRead (pioWrite memory lba numsects ptr sectors) lba numsects dst buffer (dst + i) =
      memory (ptr + i) := by
  have hrange : lba ≤ lba + i / 512 ∧ lba + i / 512 < lba + numsects := by omega
  rw [pio_read_apply _ hi, pio_write_apply, if_pos hrange, outsw_get]
  congr 1
  show ptr + 512 * (lba + i / 512 - lba) + i % 512 = ptr + i
  omega

end Transfers

section Calls

variable {atapiRead : AtapiRead} {d : IdeVfsDev} {offset len : UInt32} {s : Ide}

/-- The range is one of whole blocks, fewer than 256, that the read and the write of an ATA disk
both accept. -/
structure Accepted (d : IdeVfsDev) (device : IdeDevice) (offset len : UInt32) : Prop where
  disk : d = ideVfsDev d.device .ata
  drive : d.device ≤ 3
  present : device.present = true
  type : device.type = .ata
  offsetAligned : offset.toNat % 512 = 0
  lenAligned : len.toNat % 512 = 0
  short : len.toNat / 512 < 256
  inside : offset.toNat / 512 + len.toNat / 512 < device.size.toNat

theorem Accepted.block_size {device : IdeDevice} (h : Accepted d device offset len) :
    d.blockSize = 512 := by
  rw [h.disk]
  rfl

theorem Accepted.aligned {device : IdeDevice} (h : Accepted d device offset len) :
    Aligned d offset len :=
  ⟨h.block_size ▸ h.offsetAligned, h.block_size ▸ h.lenAligned⟩

/-- The position and the length of a range in blocks, as the calls compute them. -/
theorem blocks_to_nat (n : UInt32) :
    (n / 512).toNat = n.toNat / 512 ∧ (n / 512).toUInt8.toNat = n.toNat / 512 % 256 := by
  have hdiv : (n / 512).toNat = n.toNat / 512 := UInt32.toNat_div ..
  exact ⟨hdiv, by rw [UInt32.toNat_toUInt8, hdiv]⟩

/-- A range of which the last block is below a bound, in the arithmetic of the calls. -/
theorem range_to_nat {lba : UInt32} {numsects : UInt8}
    (hrange : lba.toNat + numsects.toNat < 2 ^ 32) :
    (lba + numsects.toUInt32).toNat = lba.toNat + numsects.toNat := by
  rw [UInt32.toNat_add, UInt8.toNat_toUInt32, Nat.mod_eq_of_lt hrange]

/-- `ide_write_sectors` of a range. -/
theorem ide_write_sectors_run {drive numsects : UInt8} {lba : UInt32} {ptr : Nat}
    (hrange : lba.toNat + numsects.toNat < 2 ^ 32) (hdrive : drive ≤ 3)
    (hpresent : (s.devices drive).present = true) (htype : (s.devices drive).type = .ata) :
    ideWriteSectors (ideSystem atapiRead) drive numsects lba ptr s =
      if (s.devices drive).size.toNat < lba.toNat + numsects.toNat then .ok (2, s)
      else .ok (0, { s with
        sectors := Function.update s.sectors drive
          (pioWrite s.memory lba.toNat numsects.toNat ptr (s.sectors drive)) }) := by
  rw [← range_to_nat hrange]
  exact (ide_sectors_ata hdrive hpresent htype).trans (if_congr UInt32.lt_iff_toNat_lt rfl rfl)

/-- `ide_read_sectors` of a range. -/
theorem ide_read_sectors_run {drive numsects : UInt8} {lba : UInt32} {ptr : Nat}
    (hrange : lba.toNat + numsects.toNat < 2 ^ 32) (hdrive : drive ≤ 3)
    (hpresent : (s.devices drive).present = true) (htype : (s.devices drive).type = .ata) :
    ideReadSectors (ideSystem atapiRead) drive lba numsects ptr s =
      if (s.devices drive).size.toNat ≤ lba.toNat + numsects.toNat then .ok (2, s)
      else .ok (0, { s with
        memory := pioRead (s.sectors drive) lba.toNat numsects.toNat ptr s.memory }) := by
  rw [← range_to_nat hrange]
  exact (ide_sectors_ata hdrive hpresent htype).trans (if_congr UInt32.le_iff_toNat_le rfl rfl)

/-- What `ide_vfs_write` does: it writes as many sectors as the position says, from the sector
that the length says. -/
theorem ide_vfs_write_run (h : Accepted d (s.devices d.device) offset len)
    (hlock : s.lock = false) (buf : Nat) :
    ideVfsWrite (ideSystem atapiRead) d offset len buf s = .ok (len, { s with
      sectors := Function.update s.sectors d.device
        (pioWrite s.memory (len.toNat / 512) (offset.toNat / 512 % 256) buf
          (s.sectors d.device)) }) := by
  obtain ⟨hpos, hpos8⟩ := blocks_to_nat offset
  obtain ⟨hlen, -⟩ := blocks_to_nat len
  have hinside := h.inside
  have hfits : (len / 512).toNat + (offset / 512).toUInt8.toNat ≤
      (s.devices d.device).size.toNat := by omega
  have hrange := Nat.lt_of_le_of_lt hfits (s.devices d.device).size.toNat_lt
  have hrun : ideWriteSectors (ideSystem atapiRead) d.device (offset / 512).toUInt8 (len / 512) buf
      { s with lock := true } = _ := ide_write_sectors_run hrange h.drive h.present h.type
  rw [if_neg (Nat.not_lt.mpr hfits)] at hrun
  unfold ideVfsWrite
  rw [ide_vfs_transfer_run h.aligned hlock (h.block_size ▸ hrun), h.block_size, hlen, hpos8]
  show Except.ok (len, ({ s with sectors := _, lock := false } : Ide)) = _
  rw [← hlock]

/-- What `ide_vfs_read` does. -/
theorem ide_vfs_read_run (h : Accepted d (s.devices d.device) offset len)
    (hlock : s.lock = false) (buf : Nat) :
    ideVfsRead (ideSystem atapiRead) d offset len buf s = .ok (len, { s with
      memory := pioRead (s.sectors d.device) (offset.toNat / 512) (len.toNat / 512) buf
        s.memory }) := by
  obtain ⟨hpos, -⟩ := blocks_to_nat offset
  obtain ⟨-, hlen8⟩ := blocks_to_nat len
  have hinside := h.inside
  have hshort : len.toNat / 512 % 256 = len.toNat / 512 := Nat.mod_eq_of_lt h.short
  rw [hshort] at hlen8
  have hfits : (offset / 512).toNat + (len / 512).toUInt8.toNat <
      (s.devices d.device).size.toNat := by omega
  have hrange := Nat.lt_trans hfits (s.devices d.device).size.toNat_lt
  have hrun : ideReadSectors (ideSystem atapiRead) d.device (offset / 512) (len / 512).toUInt8 buf
      { s with lock := true } = _ := ide_read_sectors_run hrange h.drive h.present h.type
  rw [if_neg (Nat.not_le.mpr hfits)] at hrun
  unfold ideVfsRead
  rw [ide_vfs_transfer_run h.aligned hlock (h.block_size ▸ hrun), h.block_size, hpos, hlen8]
  show Except.ok (len, ({ s with memory := _, lock := false } : Ide)) = _
  rw [← hlock]

/-- Writing the range returns the length only if it changes exactly the sectors of the range,
to the bytes of the buffer, and reading the range then gives these bytes. -/
def RoundTrip (atapiRead : AtapiRead) (d : IdeVfsDev) (offset len : UInt32) (s : Ide) : Prop :=
  ∀ buf s', ideVfsWrite (ideSystem atapiRead) d offset len buf s = .ok (len, s') →
    (∀ drive k, s'.sectors drive k =
      if drive = d.device ∧ offset.toNat / 512 ≤ k ∧ k < (offset.toNat + len.toNat) / 512 then
        outsw s.memory (buf + 512 * (k - offset.toNat / 512))
      else s.sectors drive k) ∧
    ∀ dst, ∃ s'', ideVfsRead (ideSystem atapiRead) d offset len dst s' = .ok (len, s'') ∧
      ∀ i < len.toNat, s''.memory (dst + i) = s.memory (buf + i)

/-- The sectors of the range are those that `ide_vfs_write` writes. -/
theorem blocks_of_condition (hshort : len.toNat / 512 < 256)
    (h : offset = len ∨ len = 0 ∧ offset.toNat / 512 % 256 = 0) :
    (len.toNat / 512 = offset.toNat / 512 ∧ offset.toNat / 512 % 256 = len.toNat / 512) ∨
      (offset.toNat / 512 % 256 = 0 ∧ len.toNat / 512 = 0) := by
  rcases h with rfl | ⟨rfl, hmod⟩
  · exact .inl ⟨rfl, Nat.mod_eq_of_lt hshort⟩
  · exact .inr ⟨hmod, rfl⟩

/-- Where the position and the length agree, what is written is what is asked for. -/
theorem round_trip_of_condition (h : Accepted d (s.devices d.device) offset len)
    (hlock : s.lock = false)
    (hcond : offset = len ∨ len = 0 ∧ offset.toNat / 512 % 256 = 0) :
    RoundTrip atapiRead d offset len s := by
  intro buf s' hwrite
  rw [ide_vfs_write_run h hlock] at hwrite
  cases hwrite
  have hend : (offset.toNat + len.toNat) / 512 = offset.toNat / 512 + len.toNat / 512 := by
    have hoffset := h.offsetAligned
    omega
  have hblocks := blocks_of_condition h.short hcond
  constructor
  · intro drive k
    show Function.update s.sectors d.device _ drive k = _
    by_cases hdrive : drive = d.device
    · subst hdrive
      rw [Function.update_self, pio_write_apply, hend]
      rcases hblocks with ⟨hstart, hcount⟩ | ⟨hcount, hzero⟩
      · rw [hstart, hcount, hstart]
        simp
      · rw [hcount, hzero, if_neg (by omega), if_neg (by omega)]
    · rw [Function.update_of_ne hdrive, if_neg (fun hsame => hdrive hsame.1)]
  · intro dst
    let written : Ide := { s with
      sectors := Function.update s.sectors d.device
        (pioWrite s.memory (len.toNat / 512) (offset.toNat / 512 % 256) buf
          (s.sectors d.device)) }
    refine ⟨_, ide_vfs_read_run (s := written) h hlock dst, fun i hi => ?_⟩
    show pioRead (Function.update s.sectors d.device _ d.device) _ _ dst s.memory (dst + i) = _
    rw [Function.update_self]
    rcases hblocks with ⟨hstart, hcount⟩ | ⟨-, hzero⟩
    · rw [hcount, hstart]
      refine pio_round_trip _ ?_
      have hlen := h.lenAligned
      omega
    · have hlen := h.lenAligned
      omega

/-- A disk of zeros, and memory of ones. -/
def Ide.zeroDisk (devices : UInt8 → IdeDevice) : Ide where
  devices := devices
  sectors := fun _ _ => Vector.replicate 512 0
  memory := fun _ => 1
  lock := false

/-- On a disk of zeros, the ones show which sectors have been written. -/
theorem range_of_round_trip {devices : UInt8 → IdeDevice}
    (h : Accepted d (devices d.device) offset len)
    (htrip : RoundTrip atapiRead d offset len (.zeroDisk devices)) (k : Nat) :
    (offset.toNat / 512 ≤ k ∧ k < offset.toNat / 512 + len.toNat / 512) ↔
      (len.toNat / 512 ≤ k ∧ k < len.toNat / 512 + offset.toNat / 512 % 256) := by
  obtain ⟨hsectors, -⟩ := htrip 0 _ (ide_vfs_write_run (s := .zeroDisk devices) h rfl 0)
  have hk := hsectors d.device k
  have hend : (offset.toNat + len.toNat) / 512 = offset.toNat / 512 + len.toNat / 512 := by
    have hoffset := h.offsetAligned
    omega
  change Function.update (Ide.zeroDisk devices).sectors d.device _ d.device k = _ at hk
  rw [Function.update_self, pio_write_apply, hend] at hk
  have hne : ∀ ptr, outsw (Ide.zeroDisk devices).memory ptr ≠
      (Ide.zeroDisk devices).sectors d.device k := by
    intro ptr heq
    have hfirst := congrArg (fun sector => sector.get 0) heq
    simp only [outsw_get] at hfirst
    simp [Ide.zeroDisk, Vector.get] at hfirst
  simp only [true_and] at hk
  by_cases hleft : offset.toNat / 512 ≤ k ∧ k < offset.toNat / 512 + len.toNat / 512
  · rw [if_pos hleft] at hk
    by_cases hright : len.toNat / 512 ≤ k ∧ k < len.toNat / 512 + offset.toNat / 512 % 256
    · exact iff_of_true hleft hright
    · rw [if_neg hright] at hk
      exact absurd hk.symm (hne _)
  · rw [if_neg hleft] at hk
    by_cases hright : len.toNat / 512 ≤ k ∧ k < len.toNat / 512 + offset.toNat / 512 % 256
    · rw [if_pos hright] at hk
      exact absurd hk (hne _)
    · exact iff_of_false hleft hright

/-- A range that both calls accept is written and read back faithfully, whatever the disk and the
buffer hold, exactly if its position is its length, or it is empty and its position is a multiple
of 256 blocks. -/
theorem disk_round_trip_iff {devices : UInt8 → IdeDevice}
    (h : Accepted d (devices d.device) offset len) :
    (∀ s : Ide, s.devices = devices → s.lock = false → RoundTrip atapiRead d offset len s) ↔
      offset = len ∨ len = 0 ∧ offset.toNat / 512 % 256 = 0 := by
  constructor
  · intro hall
    have hrange := range_of_round_trip h (hall (.zeroDisk devices) rfl rfl)
    have hstart := hrange (offset.toNat / 512)
    have hblock := hrange (len.toNat / 512)
    have hoffset := h.offsetAligned
    have hlen := h.lenAligned
    by_cases hempty : len.toNat / 512 = 0
    · refine .inr ⟨UInt32.toNat_inj.mp ?_, by omega⟩
      show len.toNat = 0
      omega
    · refine .inl (UInt32.toNat_inj.mp ?_)
      omega
  · rintro hcond s rfl hlock
    exact round_trip_of_condition h hlock hcond

end Calls

/-- Four disks of 16 sectors. -/
def sixteenSectors : UInt8 → IdeDevice :=
  fun _ => { present := true, type := .ata, size := 16 }

/-- No ATAPI drive. -/
def noAtapi : AtapiRead :=
  fun _ _ _ _ => return 1

/-- One sector at sector 1 is written and read back faithfully. -/
theorem disk_round_trip_iff_sector_one :
    RoundTrip noAtapi (ideVfsDev 0 .ata) 512 512 (.zeroDisk sixteenSectors) :=
  (disk_round_trip_iff ⟨rfl, by decide, rfl, rfl, rfl, rfl, by decide, by decide⟩).mpr (.inl rfl)
    (.zeroDisk sixteenSectors) rfl rfl

/-- Two sectors at sector 1 are not: the call writes one sector, at sector 2. -/
theorem disk_write_misplaced :
    Accepted (ideVfsDev 0 .ata) (sixteenSectors 0) 512 1024 ∧
      ¬ RoundTrip noAtapi (ideVfsDev 0 .ata) 512 1024 (.zeroDisk sixteenSectors) := by
  have haccepted : Accepted (ideVfsDev 0 .ata) (sixteenSectors 0) 512 1024 :=
    ⟨rfl, by decide, rfl, rfl, rfl, rfl, by decide, by decide⟩
  refine ⟨haccepted, fun htrip => ?_⟩
  have hone := (range_of_round_trip (d := ideVfsDev 0 .ata) haccepted htrip 1).mp (by decide)
  exact absurd hone.1 (by decide)

end Kogata.Kernel
