import Kogata.Kernel.Ide

/-!
# The registers and interrupts of the IDE channels

The calls of `kernel/dev/pciide.c` with the registers that address a drive, the SCSI packet, and the
locks of the interrupts. A drive answers a command with the sectors from the one that its registers
say; which of them the loops of the driver move, and from where to where, is a log. What the drive
and the other threads do in a call is an argument of it (`Outcomes`). The driver numbers the sectors
of a drive without LBA by 16 heads and 63 sectors a track.
-/

namespace Kogata.Kernel.IdeBus

open Lib.Effect

/-- The interrupts that have a lock. -/
inductive IrqLine where
  | irq14
  | irq15
  | pciirq
  deriving DecidableEq

/-- The lock that `ide_prewait_irq` and `ide_wait_irq` choose. -/
def irqLine (irq : UInt8) : IrqLine :=
  if irq = 14 then .irq14 else if irq = 15 then .irq15 else .pciirq

/-- The fields of `ide_device_t` that the calls read. -/
structure Device extends IdeDevice where
  channel : UInt8
  drive : UInt8
  cap : UInt16

/-- One `insw` or `outsw` of a sector. -/
structure Transfer where
  direction : AtaDirection
  channel : UInt8
  slave : Bool
  sector : Nat
  ptr : Nat
  deriving DecidableEq

/-- The controller: its drives, the interrupts of its channels, the locks `on_irq14`, `on_irq15` and
`on_pciirq`, who waits, the lock of the node, and what has been moved. -/
structure Bus where
  devices : UInt8 → Device
  irq : UInt8 → UInt8
  locked : IrqLine → Bool
  waiting : IrqLine → Bool
  lock : Bool
  transfers : List Transfer

/-- A call of the driver. -/
abbrev BusCall := StateT Bus (Except Halt)

/-- What happens in a call: what the first `ide_polling` of an ATAPI read answers and what each one
in the loop does, whether the interrupt is there before `ide_wait_irq` and what `wait_on` answers,
and the error register. -/
structure Outcomes where
  first : UInt8
  polls : Nat → UInt8
  arrived : Nat → Bool
  woken : Nat → Bool
  error : UInt8

/-- `ide_print_error`, with the error register in `st`. -/
def idePrintError (st err : UInt8) : UInt8 :=
  if err = 0 then 0
  else if err = 1 then 19
  else if err = 2 then
    let err := if st &&& 0x01 ≠ 0 then 7 else err
    let err := if st &&& 0x02 ≠ 0 then 3 else err
    let err := if st &&& 0x04 ≠ 0 then 20 else err
    let err := if st &&& 0x08 ≠ 0 then 3 else err
    let err := if st &&& 0x10 ≠ 0 then 21 else err
    let err := if st &&& 0x20 ≠ 0 then 3 else err
    let err := if st &&& 0x40 ≠ 0 then 22 else err
    if st &&& 0x80 ≠ 0 then 13 else err
  else if err = 3 then 23
  else if err = 4 then 8
  else err

/-- The registers of the command block when a command is sent. -/
structure Taskfile where
  hddevsel : Nat
  seccount : Nat
  lba : Nat → Nat
  ext : Bool

/-- A byte of a number, as the shifts and masks of the driver take it out. -/
def byteOf (n k : Nat) : Nat := n / 256 ^ k % 256

/-- Parts (I), (IV), (V) and (VI) of `ide_ata_access`: the registers for a position. -/
def ataTaskfile (cap : UInt16) (slavebit lba numsects : Nat) : Taskfile :=
  if lba ≥ 0x10000000 then
    { hddevsel := (0xE0 ||| (slavebit <<< 4)) % 256
      seccount := numsects
      lba := fun k => if k < 4 then byteOf lba k else 0
      ext := true }
  else if cap &&& 0x200 ≠ 0 then
    { hddevsel := (0xE0 ||| (slavebit <<< 4) ||| (lba / 0x1000000 % 16)) % 256
      seccount := numsects
      lba := fun k => if k < 3 then byteOf lba k else 0
      ext := false }
  else
    let sect := lba % 63 + 1
    let cyl := (lba + 1 - sect) / (16 * 63) % 0x10000
    let head := (lba + 1 - sect) % (16 * 63) / 63
    { hddevsel := (0xA0 ||| (slavebit <<< 4) ||| head) % 256
      seccount := numsects
      lba := fun k => if k = 0 then sect else if k < 3 then byteOf cyl (k - 1) else 0
      ext := false }

/-- The drive that the command is for: the bit `ATA_SLAVE` of `ATA_REG_HDDEVSEL`. -/
def Taskfile.slave (t : Taskfile) : Bool := t.hddevsel / 16 % 2 = 1

/-- The sector that the registers address: in 48 bits, in 28 bits, or by cylinder, head and
sector. -/
def Taskfile.sector (t : Taskfile) : Nat :=
  if t.ext then
    t.lba 0 + 256 * (t.lba 1 + 256 * (t.lba 2 + 256 * (t.lba 3 + 256 * (t.lba 4 + 256 * t.lba 5))))
  else if t.hddevsel / 64 % 2 = 1 then
    t.lba 0 + 256 * (t.lba 1 + 256 * (t.lba 2 + 256 * (t.hddevsel % 16)))
  else ((t.lba 1 + 256 * t.lba 2) * 16 + t.hddevsel % 16) * 63 + t.lba 0 - 1

/-- The packet of `ide_atapi_read`. -/
def atapiPacket (lba : UInt32) (numsects : UInt8) : List Nat :=
  [0xA8, 0, byteOf lba.toNat 3, byteOf lba.toNat 2, byteOf lba.toNat 1, byteOf lba.toNat 0,
    0, 0, 0, numsects.toNat, 0, 0]

/-- The sector that a packet addresses. -/
def packetSector (packet : List Nat) : Nat :=
  packet.getD 5 0 + 256 * (packet.getD 4 0 + 256 * (packet.getD 3 0 + 256 * packet.getD 2 0))

/-- A sector is moved. -/
def move (t : Transfer) : BusCall Unit :=
  modify fun s => { s with transfers := s.transfers ++ [t] }

/-- The PIO read loop of `ide_ata_access`, where `t` is the `i`-th transfer. -/
def pioRead (o : Outcomes) (t : Nat → Transfer) : Nat → Nat → BusCall UInt8
  | _, 0 => return 0
  | i, n + 1 => do
      if o.polls i ≠ 0 then return o.polls i
      else
        move (t i)
        pioRead o t (i + 1) n

/-- The PIO write loop of `ide_ata_access`. -/
def pioWrite (t : Nat → Transfer) : Nat → Nat → BusCall UInt8
  | _, 0 => return 0
  | i, n + 1 => do
      move (t i)
      pioWrite t (i + 1) n

/-- `ide_ata_access`. -/
def ideAtaAccess (o : Outcomes) (direction : AtaDirection) (drive : UInt8) (lba : UInt32)
    (numsects : UInt8) (ptr : Nat) : BusCall UInt8 := do
  let device := (← get).devices drive
  let regs := ataTaskfile device.cap device.drive.toNat lba.toNat numsects.toNat
  let t := fun i => {
    direction := direction
    channel := device.channel
    slave := regs.slave
    sector := regs.sector + i
    ptr := ptr + 512 * i : Transfer }
  match direction with
  | .read => pioRead o t 0 numsects.toNat
  | .write => pioWrite t 0 numsects.toNat

/-- `ide_prewait_irq`. -/
def idePrewaitIrq (line : IrqLine) : BusCall Unit := do
  if (← get).locked line then throw .deadlock
  else
    modify fun s => { s with
      locked := Function.update s.locked line true
      waiting := Function.update s.waiting line true }

/-- `ide_wait_irq`: `arrived` if the interrupt has come before, and `woken` is what `wait_on`
answers. -/
def ideWaitIrq (line : IrqLine) (arrived woken : Bool) : BusCall Bool := do
  if arrived then modify fun s => { s with waiting := Function.update s.waiting line false }
  let ret := if (← get).waiting line then woken else true
  if woken then modify fun s => { s with waiting := Function.update s.waiting line false }
  modify fun s => { s with locked := Function.update s.locked line false }
  return ret

/-- Part (IX) of `ide_atapi_read`. -/
def atapiReceive (o : Outcomes) (line : IrqLine) (t : Nat → Transfer) :
    Nat → Nat → BusCall UInt8
  | i, 0 => do
      if (← ideWaitIrq line (o.arrived i) (o.woken i)) then return 0 else return 5
  | i, n + 1 => do
      if (← ideWaitIrq line (o.arrived i) (o.woken i)) then
        idePrewaitIrq line
        if o.polls i ≠ 0 then return o.polls i
        else
          move (t i)
          atapiReceive o line t (i + 1) n
      else return 5

/-- `ide_atapi_read`. -/
def ideAtapiRead (o : Outcomes) (drive : UInt8) (lba : UInt32) (numsects : UInt8) (ptr : Nat) :
    BusCall UInt8 := do
  let s ← get
  let device := s.devices drive
  let line := irqLine (s.irq device.channel)
  let hddevsel := (device.drive.toNat <<< 4) % 256
  let packet := atapiPacket lba numsects
  if o.first ≠ 0 then return o.first
  else
    idePrewaitIrq line
    let t := fun i => {
      direction := .read
      channel := device.channel
      slave := hddevsel / 16 % 2 = 1
      sector := packetSector packet + i
      ptr := ptr + 2048 * i : Transfer }
    atapiReceive o line t 0 numsects.toNat

/-- The driver on these drives. -/
def busSystem (o : Outcomes) : IdeSystem Bus where
  device := fun s drive => (s.devices drive).toIdeDevice
  lock := fun s => s.lock
  setLock := fun lock s => { s with lock := lock }
  ata := fun direction drive lba numsects ptr => do
    let err ← ideAtaAccess o direction drive lba numsects ptr
    return idePrintError o.error err
  atapi := fun drive lba numsects ptr => do
    let err ← ideAtapiRead o drive lba numsects ptr
    return idePrintError o.error err

end Kogata.Kernel.IdeBus
