import Kogata.Kernel.RegionIndex

/-!
# What a probe of a user buffer promises

`probe_for_read` and `probe_for_write` compare the end of the buffer with the end of the region
that holds its first byte. The sum that gives the end of the buffer is taken modulo `2 ^ 32`, so
the comparison says something about the buffer only when that sum does not wrap around:
`probe_inside_iff` is the exact condition, and `probe_accepts_wrapped` a buffer of almost
`2 ^ 32` bytes in a one-page region.
-/

namespace Kogata.Kernel

open Kogata.Common Lib.Effect Lib.Run

variable {W : Type} {s : Vm W} {proc : ProcId} {addr len : UInt32}

/-- The buffer lies in one region of the process whose mode has the flag. -/
def BufferInside (need : UInt16) (s : Vm W) (proc : ProcId) (addr len : UInt32) : Prop :=
  ∃ r ∈ (s.proc proc).regions, (s.region r).mode &&& need ≠ 0 ∧
    ∀ i < len.toNat, (s.region r).Contains (addr.toNat + i)

/-- The probe comes back only for a buffer inside a region. -/
def ProbeSound (need : UInt16) (s : Vm W) (proc : ProcId) (addr len : UInt32) : Prop :=
  (∃ s', probe need proc addr len s = .ok ((), s')) → BufferInside need s proc addr len

/-- The end of the buffer does not wrap around, or the probe already refuses its first byte. -/
def ProbeSafe (need : UInt16) (s : Vm W) (proc : ProcId) (addr len : UInt32) : Prop :=
  addr.toNat + len.toNat < 2 ^ 32 ∨
    ∀ r, s.lookup proc addr = some r → (s.region r).mode &&& need = 0

/-- When a probe comes back. -/
theorem probe_ok_iff (h : Indexed s proc) (need : UInt16) :
    (∃ s', probe need proc addr len s = .ok ((), s')) ↔
      ∃ r, s.lookup proc addr = some r ∧ (s.region r).mode &&& need ≠ 0 ∧
        addr + len ≤ (s.region r).addr + (s.region r).size := by
  simp only [probe, run_bind, find_user_region_indexed h]
  cases s.lookup proc addr with
  | none => simp [run_throw]
  | some r =>
      simp only [run_bind, run_the_region, run_ite, run_throw, run_pure, Option.some.injEq,
        exists_eq_left', Bool.or_eq_true, decide_eq_true_eq, beq_iff_eq]
      by_cases hpast : addr + len > (s.region r).addr + (s.region r).size
      · simp [hpast, UInt32.not_le.mpr hpast]
      · by_cases hmode : (s.region r).mode &&& need = 0
        · simp [hmode]
        · simp [hpast, hmode, UInt32.not_lt.mp hpast]

/-- A buffer that wraps around is in no region. -/
theorem not_inside_of_wrap (h : Indexed s proc) {need : UInt16}
    (hwrap : 2 ^ 32 ≤ addr.toNat + len.toNat) : ¬ BufferInside need s proc addr len := by
  rintro ⟨r, hr, -, hbytes⟩
  have hbounds := (h.sound r hr).bounds
  have hlen := len.toNat_lt
  have hend := hbytes (len.toNat - 1) (by have := addr.toNat_lt; omega)
  have hlast := hend.2
  omega

/-- A probe is right exactly on the buffers whose end does not wrap around, or that it refuses
for their first byte. -/
theorem probe_sound_iff (h : Indexed s proc) (need : UInt16) :
    ProbeSound need s proc addr len ↔ ProbeSafe need s proc addr len := by
  unfold ProbeSound ProbeSafe
  rw [probe_ok_iff h need]
  constructor
  · intro hsound
    by_contra hunsafe
    rw [not_or] at hunsafe
    obtain ⟨hwrap, hflag⟩ := hunsafe
    push Not at hflag
    obtain ⟨r, hfound, hmode⟩ := hflag
    obtain ⟨hmem, hcontains⟩ := contains_of_lookup h hfound
    have hbounds := (h.sound r hmem).bounds
    -- The wrapped end lies below the start of the buffer, so the comparison passes.
    have hle : addr + len ≤ (s.region r).addr + (s.region r).size := by
      rw [UInt32.le_iff_toNat_le, hbounds.2.2, UInt32.toNat_add]
      have haddr := addr.toNat_lt
      have hlen := len.toNat_lt
      have hlow := hcontains.2
      omega
    exact not_inside_of_wrap h (by omega) (hsound ⟨r, hfound, hmode, hle⟩)
  · rintro (hfits | hflag) ⟨r, hfound, hmode, hle⟩
    · obtain ⟨hmem, hcontains⟩ := contains_of_lookup h hfound
      have hbounds := (h.sound r hmem).bounds
      rw [UInt32.le_iff_toNat_le, hbounds.2.2, Lib.Word.toNat_add_of_lt hfits] at hle
      refine ⟨r, hmem, hmode, fun i hi => ⟨?_, ?_⟩⟩
      · exact Nat.le_trans hcontains.1 (Nat.le_add_right _ _)
      · omega
    · exact absurd (hflag r hfound) hmode

/-- After any run of mapping calls, and for every buffer: `probe_for_read` and
`probe_for_write` let through only buffers inside a region with the right mode, exactly when
the end of the buffer does not wrap around or the first byte is refused. -/
theorem probe_inside_iff (m : Machine W)
    (h : Reachable (regionRuns m proc fun _ _ => True) s) (addr len : UInt32) :
    (((∃ s', probeForRead proc addr len s = .ok ((), s')) →
        BufferInside mmRead s proc addr len) ↔ ProbeSafe mmRead s proc addr len) ∧
      (((∃ s', probeForWrite proc addr len s = .ok ((), s')) →
        BufferInside mmWrite s proc addr len) ↔ ProbeSafe mmWrite s proc addr len) :=
  ⟨probe_sound_iff (indexed_of_reachable h) mmRead,
    probe_sound_iff (indexed_of_reachable h) mmWrite⟩

/-- A process with one readable and writable page at `0x1000`. -/
theorem one_page_reachable : ∃ s, Reachable (regionRuns Machine.steady 0 fun _ _ => True) s ∧
    (s.proc 0).regions = [1] ∧ (s.region 1).addr = 0x1000 ∧ (s.region 1).size = 0x1000 ∧
    ∃ s', probeForRead 0 0x1000 0xFFFFF800 s = .ok ((), s') := by
  obtain ⟨s, hrun, hrest⟩ : ∃ s : Vm Unit,
      RegionCall.perform Machine.steady 0 (.mmap 0x1000 0x1000 3) Vm.blank = .ok (true, s) ∧
      (s.proc 0).regions = [1] ∧ (s.region 1).addr = 0x1000 ∧ (s.region 1).size = 0x1000 ∧
      ∃ s', probeForRead 0 0x1000 0xFFFFF800 s = .ok ((), s') := ⟨_, rfl, rfl, rfl, rfl, _, rfl⟩
  exact ⟨s, .step (.init (s := Vm.blank) rfl) ⟨_, true, trivial, hrun⟩, hrest⟩

/-- `probe_inside_iff` on that process and a buffer of sixteen bytes. -/
theorem probe_inside_iff_one_page : ∃ s : Vm Unit, (s.proc 0).regions = [1] ∧
    (((∃ s', probeForRead 0 0x1000 16 s = .ok ((), s')) →
        BufferInside mmRead s 0 0x1000 16) ↔ ProbeSafe mmRead s 0 0x1000 16) ∧
      (((∃ s', probeForWrite 0 0x1000 16 s = .ok ((), s')) →
        BufferInside mmWrite s 0 0x1000 16) ↔ ProbeSafe mmWrite s 0 0x1000 16) := by
  obtain ⟨s, hreach, hregions, -⟩ := one_page_reachable
  exact ⟨s, hregions, probe_inside_iff Machine.steady hreach 0x1000 16⟩

/-- `probe_for_read` lets through a buffer of `0xFFFFF800` bytes at the start of a page that is
all the memory the process has. -/
theorem probe_accepts_wrapped :
    ¬ ∀ s, Reachable (regionRuns Machine.steady 0 fun _ _ => True) s → ∀ addr len,
      (∃ s', probeForRead 0 addr len s = .ok ((), s')) → BufferInside mmRead s 0 addr len := by
  intro hclaim
  obtain ⟨s, hreach, hregions, haddr, hsize, hprobe⟩ := one_page_reachable
  obtain ⟨r, hr, -, hbytes⟩ := hclaim s hreach 0x1000 0xFFFFF800 hprobe
  obtain rfl : r = 1 := by simpa [hregions] using hr
  have hfar := (hbytes 0x2000 (by decide)).2
  rw [haddr, hsize] at hfar
  exact absurd hfar (by decide)

end Kogata.Kernel
