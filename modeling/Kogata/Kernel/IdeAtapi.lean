import Kogata.Kernel.IdeBus

/-!
# The interrupt lock of an ATAPI read

`ide_prewait_irq` takes the lock of the interrupt and `ide_wait_irq` gives it back, once for each
sector and once at the end. Where polling fails for a sector, `ide_atapi_read` returns between the
two and the lock stays taken (`atapi_read_releases_iff`).
-/

namespace Kogata.Kernel.IdeBus

open Lib.Effect

variable {o : Outcomes} {line : IrqLine} {t : Nat → Transfer} {s s' : Bus}

/-- The wait for the `i`-th interrupt ends with the interrupt. -/
def Served (o : Outcomes) (i : Nat) : Prop := o.arrived i = true ∨ o.woken i = true

/-- From the `i`-th of `n` sectors on, polling fails before a wait does. -/
def PollFails (o : Outcomes) (i n : Nat) : Prop :=
  ∃ k, i ≤ k ∧ k < i + n ∧ o.polls k ≠ 0 ∧ (∀ j, i ≤ j → j < k → o.polls j = 0) ∧
    ∀ j, i ≤ j → j ≤ k → Served o j

/-- From the `i`-th of `n` sectors on, no poll and no wait fails. -/
def Complete (o : Outcomes) (i n : Nat) : Prop :=
  (∀ k, i ≤ k → k ≤ i + n → Served o k) ∧ ∀ k, i ≤ k → k < i + n → o.polls k = 0

/-- Only the locks, who waits and the log of the transfers may change. -/
structure SameBus (s s' : Bus) : Prop where
  devices : s'.devices = s.devices
  irq : s'.irq = s.irq
  lock : s'.lock = s.lock

theorem SameBus.refl (s : Bus) : SameBus s s := ⟨rfl, rfl, rfl⟩

theorem SameBus.trans {s'' : Bus} (h : SameBus s s') (h' : SameBus s' s'') : SameBus s s'' :=
  ⟨h'.devices.trans h.devices, h'.irq.trans h.irq, h'.lock.trans h.lock⟩

/-- `ide_prewait_irq`, where the lock is free. -/
theorem prewait_yields (h : s.locked line = false) :
    Yields (idePrewaitIrq line) s fun _ s' => SameBus s s' ∧ s'.locked line = true ∧
      s'.waiting line = true ∧ s'.transfers = s.transfers := by
  unfold idePrewaitIrq
  refine yields_bind_of_run (a := s) rfl ?_
  rw [if_neg (by rw [h]; exact Bool.false_ne_true)]
  exact yields_of_run (a := ()) rfl
    ⟨⟨rfl, rfl, rfl⟩, Function.update_self .., Function.update_self .., rfl⟩

/-- `ide_wait_irq`, behind `ide_prewait_irq`. -/
theorem wait_irq_yields (h : s.waiting line = true) (arrived woken : Bool) :
    Yields (ideWaitIrq line arrived woken) s fun ret s' => SameBus s s' ∧
      s'.locked line = false ∧ s'.transfers = s.transfers ∧
      (ret = true ↔ arrived = true ∨ woken = true) := by
  unfold ideWaitIrq
  cases arrived with
  | true =>
      cases woken with
      | true =>
          refine yields_of_run rfl ⟨⟨rfl, rfl, rfl⟩, Function.update_self .., rfl, ?_⟩
          simp [Function.update_self]
      | false =>
          refine yields_of_run rfl ⟨⟨rfl, rfl, rfl⟩, Function.update_self .., rfl, ?_⟩
          simp [Function.update_self]
  | false =>
      cases woken with
      | true =>
          refine yields_of_run rfl ⟨⟨rfl, rfl, rfl⟩, Function.update_self .., rfl, ?_⟩
          simp
      | false =>
          refine yields_of_run rfl ⟨⟨rfl, rfl, rfl⟩, Function.update_self .., rfl, ?_⟩
          simp [h]

theorem poll_fails_zero {i : Nat} : ¬ PollFails o i 0 := by
  rintro ⟨k, hle, hlt, -⟩
  omega

theorem poll_fails_here {i n : Nat} (hserved : Served o i) (hpoll : o.polls i ≠ 0) :
    PollFails o i (n + 1) :=
  ⟨i, Nat.le_refl i, by omega, hpoll, fun j hle hlt => absurd hle (Nat.not_le.mpr hlt),
    fun j hle hge => Nat.le_antisymm hge hle ▸ hserved⟩

theorem poll_fails_succ {i n : Nat} (hserved : Served o i) (hpoll : o.polls i = 0) :
    PollFails o i (n + 1) ↔ PollFails o (i + 1) n := by
  constructor
  · rintro ⟨k, hle, hlt, hfails, hbefore, hall⟩
    have hne : k ≠ i := fun heq => hfails (heq ▸ hpoll)
    exact ⟨k, by omega, by omega, hfails, fun j hj => hbefore j (by omega),
      fun j hj => hall j (by omega)⟩
  · rintro ⟨k, hle, hlt, hfails, hbefore, hall⟩
    refine ⟨k, by omega, by omega, hfails, fun j hj hjk => ?_, fun j hj hjk => ?_⟩
    · by_cases heq : j = i
      · exact heq ▸ hpoll
      · exact hbefore j (by omega) hjk
    · by_cases heq : j = i
      · exact heq ▸ hserved
      · exact hall j (by omega) hjk

theorem not_poll_fails {i n : Nat} (hserved : ¬ Served o i) : ¬ PollFails o i n := by
  rintro ⟨k, hle, -, -, -, hall⟩
  exact hserved (hall i (Nat.le_refl i) hle)

theorem complete_succ {i n : Nat} (hserved : Served o i) (hpoll : o.polls i = 0) :
    Complete o i (n + 1) ↔ Complete o (i + 1) n := by
  constructor
  · rintro ⟨hall, hpolls⟩
    exact ⟨fun k hle hk => hall k (by omega) (by omega),
      fun k hle hk => hpolls k (by omega) (by omega)⟩
  · rintro ⟨hall, hpolls⟩
    refine ⟨fun k hle hk => ?_, fun k hle hk => ?_⟩
    · by_cases heq : k = i
      · exact heq ▸ hserved
      · exact hall k (by omega) (by omega)
    · by_cases heq : k = i
      · exact heq ▸ hpoll
      · exact hpolls k (by omega) (by omega)

/-- The transfers of a loop that starts with the `i`-th. -/
theorem transfers_succ (t : Nat → Transfer) (n i : Nat) :
    ((List.range (n + 1)).map fun k => t (i + k)) =
      t i :: (List.range n).map fun k => t (i + 1 + k) := by
  rw [List.range_succ_eq_map, List.map_cons, List.map_map]
  refine congrArg (t i :: ·) (List.map_congr_left fun k _ => ?_)
  show t (i + (k + 1)) = t (i + 1 + k)
  rw [Nat.add_assoc, Nat.add_comm 1 k]

theorem moved_none (t : Nat → Transfer) (i : Nat) (h : s'.transfers = s.transfers) :
    s'.transfers = s.transfers ++ (List.range 0).map fun k => t (i + k) := by
  rw [h, List.range_zero, List.map_nil, List.append_nil]

/-- The loop of `ide_atapi_read`. What it moves is the first sectors of the packet, in order, and
all of them where it succeeds. -/
theorem atapi_receive_yields (n i : Nat) (hlocked : s.waiting line = true) :
    Yields (atapiReceive o line t i n) s fun err s' => SameBus s s' ∧
      (s'.locked line = true ↔ PollFails o i n) ∧ (err = 0 ↔ Complete o i n) ∧
      ∃ m ≤ n, (err = 0 → m = n) ∧
        s'.transfers = s.transfers ++ (List.range m).map fun k => t (i + k) := by
  induction n generalizing i s with
  | zero =>
      unfold atapiReceive
      refine (wait_irq_yields hlocked _ _).bind fun ret mid hmid => ?_
      obtain ⟨hsame, hfree, htransfers, hret⟩ := hmid
      have hiff : mid.locked line = true ↔ PollFails o i 0 := by
        rw [hfree]
        exact iff_of_false Bool.false_ne_true poll_fails_zero
      have hmoved := moved_none t i htransfers
      cases ret with
      | true =>
          refine yields_pure ⟨hsame, hiff, iff_of_true rfl ⟨fun k hle hk => ?_, ?_⟩,
            0, Nat.le_refl 0, fun _ => rfl, hmoved⟩
          · exact Nat.le_antisymm hk hle ▸ hret.mp rfl
          · exact fun k hle hk => absurd hle (Nat.not_le.mpr hk)
      | false =>
          refine yields_pure ⟨hsame, hiff, iff_of_false (by decide) fun hall => ?_,
            0, Nat.le_refl 0, fun _ => rfl, hmoved⟩
          exact absurd (hret.mpr (hall.1 i (Nat.le_refl i) (Nat.le_refl i))) Bool.false_ne_true
  | succ n ih =>
      unfold atapiReceive
      refine (wait_irq_yields hlocked _ _).bind fun ret mid hmid => ?_
      obtain ⟨hsame, hfree, htransfers, hret⟩ := hmid
      cases ret with
      | false =>
          have hserved : ¬ Served o i := fun hs => absurd (hret.mpr hs) Bool.false_ne_true
          have hfive : (5 : UInt8) ≠ 0 := by decide
          refine yields_pure ⟨hsame, ?_, iff_of_false hfive fun hall => ?_,
            0, Nat.zero_le _, fun hzero => absurd hzero hfive, moved_none t i htransfers⟩
          · rw [hfree]
            exact iff_of_false Bool.false_ne_true (not_poll_fails hserved)
          · exact hserved (hall.1 i (Nat.le_refl i) (by omega))
      | true =>
          have hserved : Served o i := hret.mp rfl
          refine (prewait_yields hfree).bind fun _ held hheld => ?_
          obtain ⟨hsame', htaken, hwaiting, htransfers'⟩ := hheld
          refine yields_ite (fun hpoll => ?_) fun hpoll => ?_
          · exact yields_pure ⟨hsame.trans hsame',
              iff_of_true htaken (poll_fails_here hserved hpoll),
              iff_of_false hpoll fun hall => hpoll (hall.2 i (Nat.le_refl i) (by omega)),
              0, Nat.zero_le _, fun hzero => absurd hzero hpoll,
              moved_none t i (htransfers'.trans htransfers)⟩
          · have hpoll' : o.polls i = 0 := not_not.mp hpoll
            have hmove : move (t i) held =
                .ok ((), { held with transfers := held.transfers ++ [t i] }) := rfl
            refine yields_bind_of_run hmove ((ih (i + 1) (by exact hwaiting)).mono
              fun err s' hrest => ?_)
            obtain ⟨hsame'', hiff, hdone, m, hm, hall, hmoved⟩ := hrest
            have hlogged : SameBus s { held with transfers := held.transfers ++ [t i] } :=
              (hsame.trans hsame').trans ⟨rfl, rfl, rfl⟩
            refine ⟨hlogged.trans hsame'',
              hiff.trans (poll_fails_succ hserved hpoll').symm,
              hdone.trans (complete_succ hserved hpoll').symm, m + 1, Nat.succ_le_succ hm,
              fun hzero => congrArg (· + 1) (hall hzero), ?_⟩
            rw [hmoved]
            show (held.transfers ++ [t i]) ++ _ = _
            rw [htransfers', htransfers, transfers_succ, List.append_assoc]
            rfl

/-- The line of the interrupt of a drive. -/
def lineOf (s : Bus) (drive : UInt8) : IrqLine := irqLine (s.irq (s.devices drive).channel)

/-- `ide_atapi_read`, where the lock of the interrupt is free: it comes back, so it has not taken
the lock twice. -/
theorem atapi_read_yields (drive : UInt8) (lba : UInt32) (numsects : UInt8) (ptr : Nat)
    (hfree : s.locked (lineOf s drive) = false) :
    Yields (ideAtapiRead o drive lba numsects ptr) s fun err s' => SameBus s s' ∧
      (s'.locked (lineOf s drive) = true ↔ o.first = 0 ∧ PollFails o 0 numsects.toNat) ∧
      (err = 0 ↔ o.first = 0 ∧ Complete o 0 numsects.toNat) ∧
      ∃ m ≤ numsects.toNat, (err = 0 → m = numsects.toNat) ∧
        s'.transfers = s.transfers ++ (List.range m).map fun k => {
          direction := .read
          channel := (s.devices drive).channel
          slave := ((s.devices drive).drive.toNat <<< 4) % 256 / 16 % 2 = 1
          sector := packetSector (atapiPacket lba numsects) + k
          ptr := ptr + 2048 * k } := by
  unfold ideAtapiRead
  refine yields_bind_of_run (a := s) rfl (yields_ite (fun hfirst => ?_) fun hfirst => ?_)
  · refine yields_pure ⟨.refl s, ?_, iff_of_false hfirst fun h => hfirst h.1, 0,
      Nat.zero_le _, fun hzero => absurd hzero hfirst, (List.append_nil _).symm⟩
    rw [hfree]
    exact iff_of_false Bool.false_ne_true fun h => hfirst h.1
  · refine (prewait_yields hfree).bind fun _ mid hmid => ?_
    obtain ⟨hsame, -, hwaiting, htransfers⟩ := hmid
    refine (atapi_receive_yields numsects.toNat 0 hwaiting).mono fun err s' hpost => ?_
    obtain ⟨hsame', hiff, hdone, m, hm, hall, hmoved⟩ := hpost
    have hzero' : o.first = 0 := not_not.mp hfirst
    refine ⟨hsame.trans hsame', hiff.trans (and_iff_right hzero').symm,
      hdone.trans (and_iff_right hzero').symm, m, hm, hall, ?_⟩
    rw [hmoved, htransfers]
    simp only [Nat.zero_add]

/-- For every number of sectors and every outcome of the polls and the waits, `ide_atapi_read` comes
back, and the lock of the interrupt is free behind it exactly if no poll in the loop fails before a
wait does. -/
theorem atapi_read_releases_iff (o : Outcomes) (drive : UInt8) (lba : UInt32) (numsects : UInt8)
    (ptr : Nat) (hfree : s.locked (lineOf s drive) = false) :
    ∃ err s', ideAtapiRead o drive lba numsects ptr s = .ok (err, s') ∧
      (s'.locked (lineOf s drive) = false ↔ ¬ (o.first = 0 ∧ PollFails o 0 numsects.toNat)) := by
  obtain ⟨err, s', hrun, -, hiff, -, -⟩ := atapi_read_yields drive lba numsects ptr hfree
  refine ⟨err, s', hrun, ?_⟩
  rw [← hiff, Bool.not_eq_true]

/-- Drive 0 is an ATAPI drive on the first channel, whose interrupt is 14. -/
def oneCdrom : Bus where
  devices := fun _ =>
    { present := true, type := .atapi, size := 0, channel := 0, drive := 0, cap := 0 }
  irq := fun _ => 14
  locked := fun _ => false
  waiting := fun _ => false
  lock := false
  transfers := []

/-- Every poll and every wait succeeds. -/
def noErrors : Outcomes where
  first := 0
  polls := fun _ => 0
  arrived := fun _ => true
  woken := fun _ => true
  error := 0

theorem atapi_read_releases_one_sector :
    ∃ err s', ideAtapiRead noErrors 0 16 1 0 oneCdrom = .ok (err, s') ∧
      (s'.locked (lineOf oneCdrom 0) = false ↔
        ¬ (noErrors.first = 0 ∧ PollFails noErrors 0 1)) :=
  atapi_read_releases_iff (s := oneCdrom) noErrors 0 16 1 0 rfl

/-- A media error at the first sector leaves the lock taken, and the next read waits for it. -/
theorem media_error_keeps_lock : ∃ s',
    ideAtapiRead { noErrors with polls := fun _ => 2 } 0 16 1 0 oneCdrom = .ok (2, s') ∧
      s'.locked .irq14 = true ∧ ideAtapiRead noErrors 0 16 1 0 s' = .error .deadlock :=
  ⟨_, rfl, rfl, rfl⟩

end Kogata.Kernel.IdeBus
