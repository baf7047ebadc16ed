import Kogata.Kernel.IdeAtapi
import Kogata.Kernel.IdeRoundTrip

/-!
# The sectors that a request moves

The registers and the packet address the sector that they are meant for (`ata_sector_eq`,
`packet_sector_eq`). But the number of sectors is cut to a byte, and `ide_vfs_write` gives
`ide_write_sectors` the two numbers in the order of `ide_read_sectors`. `disk_moves_iff` says for
which requests what is moved is what the answer says.
-/

namespace Kogata.Kernel.IdeBus

open Lib.Effect

section Registers

variable {lba numsects slavebit : Nat} {cap : UInt16}

/-- The fields of `ATA_REG_HDDEVSEL`. -/
theorem hddevsel_fields : ∀ high ∈ [0xA0, 0xE0], ∀ slavebit < 2, ∀ head < 16,
    (high ||| (slavebit <<< 4) ||| head) % 256 % 16 = head ∧
    (high ||| (slavebit <<< 4) ||| head) % 256 / 16 % 2 = slavebit ∧
    (high ||| (slavebit <<< 4) ||| head) % 256 / 64 % 2 = high / 64 % 2 := by
  decide

/-- The registers of `ide_ata_access` address the position, on the drive. -/
theorem ata_sector_eq (cap : UInt16) (numsects : Nat) (hslave : slavebit < 2)
    (hlba : lba < 0x800000) :
    (ataTaskfile cap slavebit lba numsects).sector = lba ∧
      (ataTaskfile cap slavebit lba numsects).slave = decide (slavebit = 1) := by
  have hshort : ¬ lba ≥ 0x10000000 := by omega
  unfold ataTaskfile
  rw [if_neg hshort]
  by_cases hcap : cap &&& 0x200 ≠ 0
  · rw [if_pos hcap]
    have hbound : lba / 0x1000000 % 16 < 16 := Nat.mod_lt _ (by decide)
    obtain ⟨hhead, hbit, hmode⟩ := hddevsel_fields 0xE0 (by simp) slavebit hslave _ hbound
    constructor
    · show (if (0xE0 ||| (slavebit <<< 4) ||| (lba / 0x1000000 % 16)) % 256 / 64 % 2 = 1 then
        byteOf lba 0 + 256 * (byteOf lba 1 + 256 * (byteOf lba 2 +
          256 * ((0xE0 ||| (slavebit <<< 4) ||| (lba / 0x1000000 % 16)) % 256 % 16))) else _) = lba
      rw [hmode, if_pos rfl, hhead]
      unfold byteOf
      omega
    · show decide ((0xE0 ||| (slavebit <<< 4) ||| (lba / 0x1000000 % 16)) % 256 / 16 % 2 = 1) = _
      rw [hbit]
  · rw [if_neg hcap]
    have hbound : (lba + 1 - (lba % 63 + 1)) % (16 * 63) / 63 < 16 := by omega
    obtain ⟨hhead, hbit, hmode⟩ := hddevsel_fields 0xA0 (by simp) slavebit hslave _ hbound
    constructor
    · show (if (0xA0 ||| (slavebit <<< 4) |||
          ((lba + 1 - (lba % 63 + 1)) % (16 * 63) / 63)) % 256 / 64 % 2 = 1 then _ else
        ((byteOf ((lba + 1 - (lba % 63 + 1)) / (16 * 63) % 0x10000) 0 +
          256 * byteOf ((lba + 1 - (lba % 63 + 1)) / (16 * 63) % 0x10000) 1) * 16 +
          (0xA0 ||| (slavebit <<< 4) |||
            ((lba + 1 - (lba % 63 + 1)) % (16 * 63) / 63)) % 256 % 16) * 63 +
          (lba % 63 + 1) - 1) = lba
      rw [hmode, if_neg (by decide), hhead]
      unfold byteOf
      omega
    · show decide ((0xA0 ||| (slavebit <<< 4) |||
        ((lba + 1 - (lba % 63 + 1)) % (16 * 63) / 63)) % 256 / 16 % 2 = 1) = _
      rw [hbit]

/-- The packet addresses the position. -/
theorem packet_sector_eq (lba : UInt32) (numsects : UInt8) :
    packetSector (atapiPacket lba numsects) = lba.toNat := by
  have hlt := lba.toNat_lt
  show byteOf lba.toNat 0 + 256 * (byteOf lba.toNat 1 + 256 * (byteOf lba.toNat 2 +
    256 * byteOf lba.toNat 3)) = lba.toNat
  unfold byteOf
  omega

end Registers

section Calls

variable {o : Outcomes} {d : IdeVfsDev} {offset len : UInt32} {s t : Bus} {buf : Nat}

/-- `ide_print_error` makes no success of an error. -/
theorem print_error_zero (st err : UInt8) : idePrintError st err = 0 ↔ err = 0 := by
  unfold idePrintError
  constructor
  · intro h
    by_contra hne
    rw [if_neg hne] at h
    split at h
    · cases h
    · split at h
      · next htwo =>
          subst htwo
          revert h
          simp only
          repeat' split
          all_goals decide
      · split at h
        · cases h
        · split at h
          · cases h
          · exact hne h
  · rintro rfl
    rfl

/-- The sectors from `first` on, in order, and the places in memory that they belong to. -/
def sectorsOf (direction : AtaDirection) (device : Device) (size first n buf : Nat) :
    List Transfer :=
  (List.range n).map fun k => {
    direction := direction
    channel := device.channel
    slave := decide (device.drive.toNat = 1)
    sector := first + k
    ptr := buf + size * k }

/-- The call moves what it should if it answers the length, and else it answers 0. -/
def Moves (call : BusCall UInt32) (len : UInt32) (wanted : List Transfer) (s : Bus) : Prop :=
  ∃ r s', call s = .ok (r, s') ∧ (r = len → s'.transfers = s.transfers ++ wanted) ∧
    (r ≠ len → r = 0)

/-- The node of a drive, with the lock of its interrupt free. -/
structure NodeOk (d : IdeVfsDev) (s : Bus) : Prop where
  node : d = ideVfsDev d.device (s.devices d.device).type
  slave : (s.devices d.device).drive.toNat < 2
  free : s.locked (lineOf s d.device) = false

theorem pio_write_run (t : Nat → Transfer) (n i : Nat) (s : Bus) :
    pioWrite t i n s = .ok (0, { s with
      transfers := s.transfers ++ (List.range n).map fun k => t (i + k) }) := by
  induction n generalizing i s with
  | zero =>
      rw [List.range_zero, List.map_nil, List.append_nil]
      rfl
  | succ n ih =>
      unfold pioWrite
      have hmove : move (t i) s = .ok ((), { s with transfers := s.transfers ++ [t i] }) := rfl
      rw [run_bind_of_ok hmove, ih (i + 1), transfers_succ, List.append_assoc]
      rfl

/-- Without errors the loop that reads moves what the one that writes would. -/
theorem pio_read_run (t : Nat → Transfer) (herr : ∀ i, o.polls i = 0) (n i : Nat) (s : Bus) :
    pioRead o t i n s = .ok (0, { s with
      transfers := s.transfers ++ (List.range n).map fun k => t (i + k) }) := by
  rw [← pio_write_run t n i s]
  induction n generalizing i s with
  | zero => rfl
  | succ n ih =>
      unfold pioRead pioWrite
      rw [if_neg (not_not.mpr (herr i))]
      exact ih (i + 1) _

/-- `ide_ata_access` on a drive without errors. -/
theorem ata_access_run (direction : AtaDirection) {drive : UInt8} {lba : UInt32}
    (numsects : UInt8) (buf : Nat) (herr : ∀ i, o.polls i = 0)
    (hslave : (s.devices drive).drive.toNat < 2)
    (hlba : lba.toNat < 0x800000) :
    ideAtaAccess o direction drive lba numsects buf s = .ok (0, { s with
      transfers := s.transfers ++
        sectorsOf direction (s.devices drive) 512 lba.toNat numsects.toNat buf }) := by
  obtain ⟨hsector, hbit⟩ := ata_sector_eq (s.devices drive).cap numsects.toNat hslave hlba
  unfold ideAtaAccess sectorsOf
  cases direction with
  | read =>
      show pioRead o _ 0 numsects.toNat s = _
      rw [pio_read_run _ herr, hsector, hbit]
      simp only [Nat.zero_add]
  | write =>
      show pioWrite _ 0 numsects.toNat s = _
      rw [pio_write_run, hsector, hbit]
      simp only [Nat.zero_add]

/-- The sector calls have answered with an error, and nothing has been moved that counts. -/
theorem moves_of_error (haligned : Aligned d offset len) (hlock : s.lock = false)
    {sectors : BusCall UInt8} {err : UInt8} {wanted : List Transfer}
    (hrun : sectors { s with lock := true } = .ok (err, t)) (herr : err ≠ 0)
    (hempty : len = 0 → t.transfers = s.transfers ++ wanted) :
    Moves (ideVfsTransfer (busSystem o) d offset len sectors) len wanted s := by
  refine ⟨0, _, (ide_vfs_transfer_run haligned hlock hrun).trans (by rw [if_pos herr]), fun hzero => ?_,
    fun _ => rfl⟩
  exact hempty hzero.symm

/-- The sector calls have succeeded: what counts is what they have moved. -/
theorem moves_iff_of_success (wanted : List Transfer) (haligned : Aligned d offset len)
    (hlock : s.lock = false) {sectors : BusCall UInt8} {moved : List Transfer}
    (hrun : sectors { s with lock := true } = .ok (0, t))
    (hmoved : t.transfers = s.transfers ++ moved) :
    Moves (ideVfsTransfer (busSystem o) d offset len sectors) len wanted s ↔ moved = wanted := by
  have hcall := @ide_vfs_transfer_run _ (busSystem o) _ _ _ _ _ haligned hlock _ _ hrun
  constructor
  · rintro ⟨r, s', hanswer, hmoves, -⟩
    cases hcall.symm.trans hanswer
    have hall : t.transfers = s.transfers ++ wanted := hmoves rfl
    rw [hmoved] at hall
    exact List.append_cancel_left hall
  · rintro rfl
    exact ⟨len, _, hcall, fun _ => hmoved, fun hne => absurd rfl hne⟩

theorem sectors_length {direction : AtaDirection} {device : Device} {size first n : Nat} :
    (sectorsOf direction device size first n buf).length = n := by
  rw [sectorsOf, List.length_map, List.length_range]

/-- The sectors of two ranges are the same. -/
theorem sectors_eq_iff {direction : AtaDirection} {device : Device}
    {size first first' n n' : Nat} :
    sectorsOf direction device size first' n' buf = sectorsOf direction device size first n buf ↔
      n' = n ∧ (n = 0 ∨ first' = first) := by
  constructor
  · intro heq
    have hlength := congrArg List.length heq
    rw [sectors_length, sectors_length] at hlength
    subst hlength
    refine ⟨rfl, ?_⟩
    cases n' with
    | zero => exact .inl rfl
    | succ n =>
        refine .inr ?_
        rw [sectorsOf, sectorsOf, List.range_succ_eq_map, List.map_cons, List.map_cons] at heq
        exact congrArg Transfer.sector (List.cons.inj heq).1
  · rintro ⟨rfl, rfl | rfl⟩
    · rfl
    · rfl

/-- A request in blocks, as the calls compute it. -/
theorem block_number (d : IdeVfsDev) (n : UInt32) :
    (n / d.blockSize).toNat = n.toNat / d.blockSize.toNat ∧
      (n / d.blockSize).toUInt8.toNat = n.toNat / d.blockSize.toNat % 256 := by
  have hdiv : (n / d.blockSize).toNat = n.toNat / d.blockSize.toNat := UInt32.toNat_div ..
  exact ⟨hdiv, by rw [UInt32.toNat_toUInt8, hdiv]⟩

theorem NodeOk.block_size (h : NodeOk d s) :
    ((s.devices d.device).type = .ata → d.blockSize.toNat = 512) ∧
      ((s.devices d.device).type = .atapi → d.blockSize.toNat = 2048) ∧
      ∀ n : UInt32, n.toNat / d.blockSize.toNat < 0x800000 := by
  have hsize : d.blockSize = if (s.devices d.device).type = .atapi then 2048 else 512 := by
    rw [h.node]
    rfl
  refine ⟨fun htype => by rw [hsize, htype]; rfl, fun htype => by rw [hsize, htype]; rfl,
    fun n => ?_⟩
  have hlt := n.toNat_lt
  rw [hsize]
  split
  · show n.toNat / 2048 < _
    omega
  · show n.toNat / 512 < _
    omega

/-- `ide_read_sectors` refuses the request. -/
def ReadRefused (d : IdeVfsDev) (device : Device) (first n : Nat) : Prop :=
  d.device > 3 ∨ device.present = false ∨ device.type = .ata ∧ device.size.toNat ≤ first + n % 256

/-- `ide_write_sectors` refuses the request. -/
def WriteRefused (d : IdeVfsDev) (device : Device) (first n : Nat) : Prop :=
  d.device > 3 ∨ device.present = false ∨ device.type = .atapi ∨
    device.size.toNat < n + first % 256

/-- A wait of an ATAPI read ends without the interrupt. -/
def BrokenOff (o : Outcomes) (device : Device) (n : Nat) : Prop :=
  device.type = .atapi ∧ ∃ k ≤ n % 256, ¬ Served o k

/-- `ide_read_sectors`, of a request in blocks. -/
theorem read_sectors_run (h : NodeOk d s) (herr : o.first = 0 ∧ ∀ i, o.polls i = 0)
    (lba : UInt32) (numsects : UInt8) (buf : Nat) (hlba : lba.toNat < 0x800000) :
    ∃ err t, ideReadSectors (busSystem o) d.device lba numsects buf s = .ok (err, t) ∧
      (err ≠ 0 ↔ d.device > 3 ∨ (s.devices d.device).present = false ∨
        ((s.devices d.device).type = .ata ∧
          (s.devices d.device).size.toNat ≤ lba.toNat + numsects.toNat) ∨
        ((s.devices d.device).type = .atapi ∧ ∃ k ≤ numsects.toNat, ¬ Served o k)) ∧
      ∃ m ≤ numsects.toNat, (err = 0 → m = numsects.toNat) ∧
        t.transfers = s.transfers ++
          sectorsOf .read (s.devices d.device) d.blockSize.toNat lba.toNat m buf := by
  have hto : (lba + numsects.toUInt32).toNat = lba.toNat + numsects.toNat :=
    range_to_nat (by have hlt := numsects.toNat_lt; omega)
  have hnone : s.transfers = s.transfers ++
      sectorsOf .read (s.devices d.device) d.blockSize.toNat lba.toNat 0 buf :=
    (List.append_nil _).symm
  unfold ideReadSectors ideSectors
  show ∃ err t, (if d.device > 3 ∨ (s.devices d.device).present = false then _ else
    if lba + numsects.toUInt32 ≥ (s.devices d.device).size ∧ (s.devices d.device).type = .ata then _
    else _ : BusCall UInt8) s = _ ∧ _
  by_cases hthere : d.device > 3 ∨ (s.devices d.device).present = false
  · rw [if_pos hthere]
    exact ⟨1, s, rfl, iff_of_true (by decide) (hthere.imp id .inl), 0, Nat.zero_le _,
      fun hzero => absurd hzero (by decide), hnone⟩
  · rw [if_neg hthere]
    by_cases hend : lba + numsects.toUInt32 ≥ (s.devices d.device).size ∧
        (s.devices d.device).type = .ata
    · rw [if_pos hend]
      have hle := UInt32.le_iff_toNat_le.mp hend.1
      exact ⟨2, s, rfl, iff_of_true (by decide) (.inr (.inr (.inl ⟨hend.2, hto ▸ hle⟩))), 0,
        Nat.zero_le _, fun hzero => absurd hzero (by decide), hnone⟩
    · have hdevice : ((busSystem o).device s d.device).type = (s.devices d.device).type := rfl
      rw [if_neg hend, hdevice]
      cases htype : (s.devices d.device).type with
      | ata =>
          have hrun := ata_access_run (o := o) .read numsects buf herr.2 h.slave hlba
          refine ⟨0, _, (run_bind_of_ok hrun).trans rfl, iff_of_false (not_not.mpr rfl) ?_,
            numsects.toNat, Nat.le_refl _, fun _ => rfl, ?_⟩
          · rintro (hdrive | habsent | ⟨-, hle⟩ | ⟨hatapi, -⟩)
            · exact hthere (.inl hdrive)
            · exact hthere (.inr habsent)
            · exact hend ⟨UInt32.le_iff_toNat_le.mpr (hto.symm ▸ hle), htype⟩
            · cases hatapi
          · rw [h.block_size.1 htype]
      | atapi =>
          obtain ⟨err, t, hrun, -, -, hdone, m, hm, hall, hmoved⟩ :=
            atapi_read_yields (o := o) d.device lba numsects buf h.free
          refine ⟨idePrintError o.error err, t, (run_bind_of_ok hrun).trans rfl, ?_, m, hm,
            fun hzero => hall ((print_error_zero _ _).mp hzero), ?_⟩
          · rw [Ne, print_error_zero, hdone]
            constructor
            · intro hnot
              refine .inr (.inr (.inr ⟨rfl, ?_⟩))
              by_contra hserved
              refine hnot ⟨herr.1, fun k _ hk => ?_, fun k _ _ => herr.2 k⟩
              by_contra hk'
              exact hserved ⟨k, by omega, hk'⟩
            · rintro (hdrive | habsent | ⟨hata, -⟩ | ⟨-, k, hk, hserved⟩) hcomplete
              · exact hthere (.inl hdrive)
              · exact hthere (.inr habsent)
              · cases hata
              · exact hserved (hcomplete.2.1 k (Nat.zero_le k) (by omega))
          · have hbit : ∀ b < 2, (decide ((b <<< 4) % 256 / 16 % 2 = 1)) = decide (b = 1) := by
              decide
            rw [hmoved, h.block_size.2.1 htype, packet_sector_eq, sectorsOf]
            simp only [hbit _ h.slave]

/-- `ide_write_sectors`, of a request in blocks. -/
theorem write_sectors_run (h : NodeOk d s) (herr : ∀ i, o.polls i = 0) (numsects : UInt8)
    (lba : UInt32) (buf : Nat) (hlba : lba.toNat < 0x800000) :
    ∃ err t, ideWriteSectors (busSystem o) d.device numsects lba buf s = .ok (err, t) ∧
      (err ≠ 0 ↔ d.device > 3 ∨ (s.devices d.device).present = false ∨
        (s.devices d.device).type = .atapi ∨
        (s.devices d.device).size.toNat < lba.toNat + numsects.toNat) ∧
      (err ≠ 0 → t.transfers = s.transfers) ∧
      (err = 0 → t.transfers = s.transfers ++
        sectorsOf .write (s.devices d.device) d.blockSize.toNat lba.toNat numsects.toNat buf) := by
  have hto : (lba + numsects.toUInt32).toNat = lba.toNat + numsects.toNat :=
    range_to_nat (by have hlt := numsects.toNat_lt; omega)
  unfold ideWriteSectors ideSectors
  show ∃ err t, (if d.device > 3 ∨ (s.devices d.device).present = false then _ else
    if lba + numsects.toUInt32 > (s.devices d.device).size ∧ (s.devices d.device).type = .ata then _
    else _ : BusCall UInt8) s = _ ∧ _
  by_cases hthere : d.device > 3 ∨ (s.devices d.device).present = false
  · rw [if_pos hthere]
    exact ⟨1, s, rfl, iff_of_true (by decide) (hthere.imp id .inl), fun _ => rfl,
      fun hzero => absurd hzero (by decide)⟩
  · rw [if_neg hthere]
    by_cases hend : lba + numsects.toUInt32 > (s.devices d.device).size ∧
        (s.devices d.device).type = .ata
    · rw [if_pos hend]
      have hlt := UInt32.lt_iff_toNat_lt.mp hend.1
      exact ⟨2, s, rfl, iff_of_true (by decide) (.inr (.inr (.inr (hto ▸ hlt)))), fun _ => rfl,
        fun hzero => absurd hzero (by decide)⟩
    · have hdevice : ((busSystem o).device s d.device).type = (s.devices d.device).type := rfl
      rw [if_neg hend, hdevice]
      cases htype : (s.devices d.device).type with
      | ata =>
          have hrun := ata_access_run (o := o) .write numsects buf herr h.slave hlba
          refine ⟨0, _, (run_bind_of_ok hrun).trans rfl, iff_of_false (not_not.mpr rfl) ?_,
            fun hne => absurd rfl hne, fun _ => ?_⟩
          · rintro (hdrive | habsent | hatapi | hlt)
            · exact hthere (.inl hdrive)
            · exact hthere (.inr habsent)
            · cases hatapi
            · exact hend ⟨UInt32.lt_iff_toNat_lt.mpr (hto.symm ▸ hlt), htype⟩
          · rw [h.block_size.1 htype]
      | atapi =>
          exact ⟨4, s, rfl, iff_of_true (by decide) (.inr (.inr (.inl rfl))), fun _ => rfl,
            fun hzero => absurd hzero (by decide)⟩

/-- A read moves what its answer says exactly if it is refused or broken off, or asks for fewer
than 256 sectors. -/
theorem read_moves_iff (h : NodeOk d s) (hlock : s.lock = false) (haligned : Aligned d offset len)
    (herr : o.first = 0 ∧ ∀ i, o.polls i = 0) :
    Moves (ideVfsRead (busSystem o) d offset len buf) len (sectorsOf .read (s.devices d.device)
        d.blockSize.toNat (offset.toNat / d.blockSize.toNat)
        (len.toNat / d.blockSize.toNat) buf) s ↔
      ReadRefused d (s.devices d.device) (offset.toNat / d.blockSize.toNat)
        (len.toNat / d.blockSize.toNat) ∨
      BrokenOff o (s.devices d.device) (len.toNat / d.blockSize.toNat) ∨
      len.toNat / d.blockSize.toNat < 256 := by
  have hlocked : NodeOk d { s with lock := true } := ⟨h.node, h.slave, h.free⟩
  obtain ⟨hpos, -⟩ := block_number d offset
  obtain ⟨-, hlen⟩ := block_number d len
  have hbound := h.block_size.2.2 offset
  obtain ⟨err, t, hrun, hfails, m, hm, hall, hmoved⟩ := read_sectors_run hlocked herr
    (offset / d.blockSize) (len / d.blockSize).toUInt8 buf (by rw [hpos]; exact hbound)
  rw [hpos, hlen] at hfails
  rw [hlen] at hm hall
  rw [hpos] at hmoved
  by_cases hzero : err = 0
  · subst hzero
    have hno := not_congr hfails
    rw [not_not, eq_self_iff_true, true_iff] at hno
    have hmoves := moves_iff_of_success (o := o) (sectorsOf .read (s.devices d.device) d.blockSize.toNat
      (offset.toNat / d.blockSize.toNat) (len.toNat / d.blockSize.toNat) buf)
      haligned hlock hrun hmoved
    refine hmoves.trans (sectors_eq_iff.trans ?_)
    rw [hall rfl]
    constructor
    · rintro ⟨hshort, -⟩
      exact .inr (.inr (hshort ▸ Nat.mod_lt _ (by decide)))
    · rintro (hrefused | hbroken | hshort)
      · exact absurd (hrefused.imp id (Or.imp id .inl)) hno
      · exact absurd (.inr (.inr (.inr hbroken))) hno
      · exact ⟨Nat.mod_eq_of_lt hshort, .inr rfl⟩
  · refine iff_of_true (moves_of_error haligned hlock hrun hzero fun hempty => ?_) ?_
    · subst hempty
      have hnone : m = 0 := by
        have hz : (0 : UInt32).toNat / d.blockSize.toNat % 256 = 0 := by simp
        omega
      rw [hmoved, hnone]
      simp [sectorsOf]
    · rcases hfails.mp hzero with hdrive | habsent | hend | hbroken
      · exact .inl (.inl hdrive)
      · exact .inl (.inr (.inl habsent))
      · exact .inl (.inr (.inr hend))
      · exact .inr (.inl hbroken)

/-- A write moves what its answer says exactly if it is refused, or the position and the number of
sectors are the same, or it moves nothing. -/
theorem write_moves_iff (h : NodeOk d s) (hlock : s.lock = false) (haligned : Aligned d offset len)
    (herr : ∀ i, o.polls i = 0) :
    Moves (ideVfsWrite (busSystem o) d offset len buf) len (sectorsOf .write (s.devices d.device)
        d.blockSize.toNat (offset.toNat / d.blockSize.toNat)
        (len.toNat / d.blockSize.toNat) buf) s ↔
      WriteRefused d (s.devices d.device) (offset.toNat / d.blockSize.toNat)
        (len.toNat / d.blockSize.toNat) ∨
      offset.toNat / d.blockSize.toNat % 256 = len.toNat / d.blockSize.toNat ∧
        (len.toNat / d.blockSize.toNat = 0 ∨
          len.toNat / d.blockSize.toNat = offset.toNat / d.blockSize.toNat) := by
  have hlocked : NodeOk d { s with lock := true } := ⟨h.node, h.slave, h.free⟩
  obtain ⟨-, hpos⟩ := block_number d offset
  obtain ⟨hlen, -⟩ := block_number d len
  have hbound := h.block_size.2.2 len
  obtain ⟨err, t, hrun, hfails, hkept, hmoved⟩ := write_sectors_run hlocked herr
    (offset / d.blockSize).toUInt8 (len / d.blockSize) buf (by rw [hlen]; exact hbound)
  rw [hpos, hlen] at hfails hmoved
  by_cases hzero : err = 0
  · subst hzero
    have hno := not_congr hfails
    rw [not_not, eq_self_iff_true, true_iff] at hno
    have hmoves := moves_iff_of_success (o := o) (sectorsOf .write (s.devices d.device) d.blockSize.toNat
      (offset.toNat / d.blockSize.toNat) (len.toNat / d.blockSize.toNat) buf)
      haligned hlock hrun (hmoved rfl)
    refine hmoves.trans (sectors_eq_iff.trans ⟨.inr, ?_⟩)
    rintro (hrefused | hsame)
    · exact absurd hrefused hno
    · exact hsame
  · refine iff_of_true (moves_of_error haligned hlock hrun hzero fun hempty => ?_)
      (.inl (hfails.mp hzero))
    subst hempty
    rw [hkept hzero]
    simp [sectorsOf]

/-- A drive without errors moves all the sectors of a request whose length it answers, in order, and
otherwise answers 0, exactly under the two conditions: the byte that counts the sectors holds their
number, and the two numbers that `ide_vfs_write` exchanges are the same. -/
theorem disk_moves_iff (h : NodeOk d s) (hlock : s.lock = false) (haligned : Aligned d offset len)
    (herr : o.first = 0 ∧ ∀ i, o.polls i = 0) (buf : Nat) :
    (Moves (ideVfsRead (busSystem o) d offset len buf) len (sectorsOf .read (s.devices d.device)
        d.blockSize.toNat (offset.toNat / d.blockSize.toNat)
        (len.toNat / d.blockSize.toNat) buf) s ∧
      Moves (ideVfsWrite (busSystem o) d offset len buf) len (sectorsOf .write (s.devices d.device)
        d.blockSize.toNat (offset.toNat / d.blockSize.toNat) (len.toNat / d.blockSize.toNat) buf)
        s) ↔
      (ReadRefused d (s.devices d.device) (offset.toNat / d.blockSize.toNat)
          (len.toNat / d.blockSize.toNat) ∨
        BrokenOff o (s.devices d.device) (len.toNat / d.blockSize.toNat) ∨
        len.toNat / d.blockSize.toNat < 256) ∧
      (WriteRefused d (s.devices d.device) (offset.toNat / d.blockSize.toNat)
          (len.toNat / d.blockSize.toNat) ∨
        offset.toNat / d.blockSize.toNat % 256 = len.toNat / d.blockSize.toNat ∧
          (len.toNat / d.blockSize.toNat = 0 ∨
            len.toNat / d.blockSize.toNat = offset.toNat / d.blockSize.toNat)) :=
  and_congr (read_moves_iff h hlock haligned herr) (write_moves_iff h hlock haligned herr.2)

end Calls

/-- Drive 0 is an ATA drive of 1024 sectors. -/
def oneDisk : Bus where
  devices := fun _ =>
    { present := true, type := .ata, size := 1024, channel := 0, drive := 0, cap := 0x200 }
  irq := fun _ => 14
  locked := fun _ => false
  waiting := fun _ => false
  lock := false
  transfers := []

/-- One sector at sector 1 is moved as it should be. -/
theorem disk_moves_sector_one :
    Moves (ideVfsRead (busSystem noErrors) (ideVfsDev 0 .ata) 512 512 0) 512
        (sectorsOf .read (oneDisk.devices 0) 512 1 1 0) oneDisk ∧
      Moves (ideVfsWrite (busSystem noErrors) (ideVfsDev 0 .ata) 512 512 0) 512
        (sectorsOf .write (oneDisk.devices 0) 512 1 1 0) oneDisk :=
  (disk_moves_iff (s := oneDisk) (d := ideVfsDev 0 .ata) ⟨rfl, Nat.two_pos, rfl⟩ rfl ⟨rfl, rfl⟩
    ⟨rfl, fun _ => rfl⟩ 0).mpr ⟨.inr (.inr (by decide)), .inr ⟨rfl, .inr rfl⟩⟩

/-- A read of 256 sectors answers its length and moves none, and a write of two sectors at sector 1
answers its length and moves one, to sector 2. -/
theorem success_without_moving :
    (∃ s', ideVfsRead (busSystem noErrors) (ideVfsDev 0 .ata) 0 131072 0 oneDisk = .ok (131072, s') ∧
      s'.transfers = []) ∧
    ∃ s', ideVfsWrite (busSystem noErrors) (ideVfsDev 0 .ata) 512 1024 0 oneDisk = .ok (1024, s') ∧
      s'.transfers.map Transfer.sector = [2] :=
  ⟨⟨_, rfl, rfl⟩, _, rfl, rfl⟩

end Kogata.Kernel.IdeBus
