import Kogata.Kernel.DeviceTable

/-!
# Ranges of pages

The arithmetic of `PAGE_ALIGN_DOWN` and `PAGE_ALIGN_UP`, which pages the loops of `pager.c` reach,
and what writing an entry of a page table does to the others.
-/

namespace Kogata.Kernel

open Lib.Effect

/-- A number is its page boundary plus its offset in the page. -/
theorem page_split (x : UInt32) : (x &&& pageMask) + (x &&& ~~~pageMask) = x := by
  apply UInt32.eq_of_toBitVec_eq
  rw [UInt32.toBitVec_add, BitVec.add_eq_or_of_and_eq_zero]
  · have hall : pageMask.toBitVec ||| (~~~pageMask).toBitVec = BitVec.allOnes 32 := by decide
    rw [UInt32.toBitVec_and, UInt32.toBitVec_and, ← BitVec.and_or_distrib_left, hall,
      BitVec.and_allOnes]
  · have hnone : pageMask.toBitVec &&& (~~~pageMask).toBitVec = 0#32 := by decide
    rw [UInt32.toBitVec_and, UInt32.toBitVec_and]
    calc (x.toBitVec &&& pageMask.toBitVec) &&& (x.toBitVec &&& (~~~pageMask).toBitVec)
      _ = (x.toBitVec &&& x.toBitVec) &&&
            (pageMask.toBitVec &&& (~~~pageMask).toBitVec) := by ac_rfl
      _ = 0#32 := by rw [hnone, BitVec.and_zero]

theorem page_offset_toNat (x : UInt32) : (x &&& ~~~pageMask).toNat = x.toNat % 4096 := by
  show x.toNat &&& (2 ^ 12 - 1) = x.toNat % 2 ^ 12
  exact Nat.and_two_pow_sub_one_eq_mod _ _

theorem page_align_down_toNat (x : UInt32) :
    (pageAlignDown x).toNat = x.toNat / 4096 * 4096 := by
  have hsplit := congrArg UInt32.toNat (page_split x)
  rw [UInt32.toNat_add, page_offset_toNat] at hsplit
  have hle : (x &&& pageMask).toNat ≤ x.toNat := by
    rw [UInt32.toNat_and]
    exact Nat.and_le_left
  have hlt := x.toNat_lt
  change (x &&& pageMask).toNat = _
  omega

theorem page_align_down_aligned (x : UInt32) : pageAligned (pageAlignDown x) = true := by
  rw [page_aligned_iff, page_align_down_toNat]
  exact Nat.mul_mod_left _ _

/-- `PAGE_ALIGN_UP`, which wraps around in the last page. -/
theorem page_align_up_toNat (x : UInt32) :
    (pageAlignUp x).toNat = (x.toNat + 4095) / 4096 * 4096 % 2 ^ 32 := by
  have hlt := x.toNat_lt
  have hdown := page_align_down_toNat x
  have hoffset := page_offset_toNat x
  unfold pageAlignUp
  split
  · next hzero =>
      rw [hzero, UInt32.toNat_zero] at hoffset
      omega
  · next hne =>
      have hpos : x.toNat % 4096 ≠ 0 := fun hzero =>
        hne (UInt32.toNat_inj.mp (by rw [hoffset, hzero, UInt32.toNat_zero]))
      change (pageAlignDown x + pageSize).toNat = _
      rw [UInt32.toNat_add, hdown]
      have hsize : pageSize.toNat = 4096 := rfl
      rw [hsize]
      omega

/-- What `PAGE_ALIGN_UP` gives is a page boundary, and a page in front of it is one that the size
needs. -/
theorem page_align_up_spec (size : UInt32) : pageAligned (pageAlignUp size) = true ∧
    ∀ page, pageAligned page = true → page < pageAlignUp size → page < size := by
  have hup := page_align_up_toNat size
  have hlt := size.toNat_lt
  refine ⟨?_, fun page haligned hpage => ?_⟩
  · rw [page_aligned_iff]
    omega
  · rw [page_aligned_iff] at haligned
    rw [UInt32.lt_iff_toNat_lt] at hpage ⊢
    omega

/-- A loop over pages reaches every page in its range. -/
theorem mem_pages_of_aligned {first len x : UInt32} (hfirst : pageAligned first = true)
    (hx : pageAligned x = true) (hle : first ≤ x) (hlt : x < first + len) :
    x ∈ pagesOf first len := by
  rw [page_aligned_iff] at hfirst hx
  rw [UInt32.lt_iff_toNat_lt] at hlt
  rw [UInt32.le_iff_toNat_le] at hle
  have hbound := x.toNat_lt
  refine List.mem_map.mpr ⟨(x.toNat - first.toNat) / 4096, ?_, ?_⟩
  · rw [List.mem_range, pageSteps]
    omega
  · rw [← UInt32.toNat_inj, UInt32.toNat_add, UInt32.toNat_mul, UInt32.toNat_ofNat']
    have hsize : pageSize.toNat = 4096 := rfl
    rw [hsize]
    omega

section Entries

variable {W : Type}

/-- The loop over the pages of a range, where `motive` says what holds after some of them. -/
theorem yields_for_pages {first len : UInt32} {body : UInt32 → Call W Unit}
    {motive : List UInt32 → Vm W → Prop} {s : Vm W} (hwrap : pagesWrap first len = false)
    (hbody : ∀ done page, page ∈ pagesOf first len → ∀ t, motive done t →
      Yields (body page) t fun _ t' => motive (done ++ [page]) t')
    (h : motive [] s) :
    Yields (forPages first len body) s fun _ s' => motive (pagesOf first len) s' := by
  refine (yields_forM (pagesOf first len) (fun done page rest hpages => ?_) h).bind
    fun _ t ht => ?_
  · exact hbody done page (by rw [hpages]; simp)
  · rw [hwrap, if_neg (by decide)]
    exact yields_pure ht

/-- The state with an entry of a page table written. -/
def Vm.withEntry (s : Vm W) (p : PagerId) (page entry : UInt32) : Vm W :=
  let table := Function.update (s.pager p).pages page entry
  { s with pager := Function.update s.pager p { s.pager p with pages := table } }

theorem run_put_page (p : PagerId) (page entry : UInt32) (s : Vm W) :
    putPage p page entry s = .ok ((), s.withEntry p page entry) := rfl

@[simp] theorem Vm.with_entry_world (s : Vm W) (p : PagerId) (page entry : UInt32) :
    (s.withEntry p page entry).world = s.world := rfl

theorem Vm.with_entry_pages (s : Vm W) (p q : PagerId) (page entry x : UInt32) :
    ((s.withEntry p page entry).pager q).pages x =
      if q = p ∧ x = page then entry else (s.pager q).pages x := by
  unfold Vm.withEntry
  by_cases hq : q = p
  · subst hq
    by_cases hx : x = page
    · simp [hx]
    · simp [hx]
  · simp [hq]

end Entries

end Kogata.Kernel
