import Kogata.Kernel.PageTransfer

/-!
# The addresses of `pager_do_rw`

The pages that `pager_do_rw` of `kernel/user/pager.c` maps, the range that it copies and the pages
that it unmaps, with its loops as they run when a sum wraps around. `Setting` is what the call
meets: the answers of `region_alloc`, `page_in` and `pd_map_page`. `pager_rw_bounded_iff` says for
which sizes, offsets and lengths the call stays in its region whatever it meets, and that
`fs_write_to_pager` never shrinks a file.
-/

namespace Kogata.Kernel.PagerBounds

open Lib.Effect Lib.Word

/-- The end of the static data of the kernel, from which on `region_alloc` gives regions. -/
structure KernelSpace where
  kernelEnd : UInt32
  aligned : pageAligned kernelEnd = true
  above : kHighhalfAddr < kernelEnd
  room : kernelEnd.toNat + 2 * 4096 ≤ pdMirrorAddr.toNat

/-- The bytes that a region may have. -/
def KernelSpace.size (space : KernelSpace) : Nat := pdMirrorAddr.toNat - space.kernelEnd.toNat

/-- What `pager_do_rw` meets: the regions that `region_alloc` gives, the addresses that were mapped
before the call (no page of a new region is), the table behind `page_in` (if it comes back), and the
answers of `pd_map_page`. -/
structure Setting (space : KernelSpace) where
  regionAlloc : UInt32 → UInt32
  aligned : ∀ size, regionAlloc size ≠ 0 → pageAligned (regionAlloc size) = true
  above : ∀ size, regionAlloc size ≠ 0 → space.kernelEnd ≤ regionAlloc size
  fits : ∀ size, regionAlloc size ≠ 0 →
    (regionAlloc size).toNat + size.toNat ≤ pdMirrorAddr.toNat
  before : UInt32 → Bool
  fresh : ∀ size x, regionAlloc size ≠ 0 → regionAlloc size ≤ x →
    x.toNat < (regionAlloc size).toNat + size.toNat → before x = false
  table : Option (UInt32 → UInt32)
  pdMapPage : Nat → Bool

/-- What `pager_do_rw` does with the addresses of the kernel. -/
inductive Op where
  | map (addr : UInt32)
  | copy (addr len : UInt32)
  | unmap (addr : UInt32)
  deriving DecidableEq

/-- How the mapping loop ends: at its end, at a `goto end_read`, or not (an assertion fails, or it
runs on). -/
inductive MapEnd where
  | reached
  | jumped
  | stopped
  deriving DecidableEq

variable {space : KernelSpace}

/-- The mapping loop from the page `i` on, which has called `pd_map_page` `k` times. The assertion
is the one in `pd_map_page`. -/
def mapLoop (e : Setting space) (table : UInt32 → UInt32) (region firstPage stop : UInt32) :
    Nat → Nat → UInt32 → List Op × MapEnd
  | 0, _, _ => ([], .stopped)
  | fuel + 1, k, i =>
      if i < stop then
        if table i >>> entFrameShift = 0 then ([], .jumped)
        else if ¬ region + i - firstPage < pdMirrorAddr then ([], .stopped)
        else if e.pdMapPage k then
          let (ops, how) := mapLoop e table region firstPage stop fuel (k + 1) (i + pageSize)
          (.map (region + i - firstPage) :: ops, how)
        else ([], .jumped)
      else ([], .reached)

/-- The loop behind `end_read` from the address `x` on, and whether it ends. -/
def unmapLoop (stop : UInt32) : Nat → (UInt32 → Bool) → UInt32 → List Op × Bool
  | 0, _, _ => ([], false)
  | fuel + 1, isMapped, x =>
      if x < stop then
        if isMapped x then
          let (ops, ended) :=
            unmapLoop stop fuel (Function.update isMapped x false) (x + pageSize)
          (.unmap x :: ops, ended)
        else unmapLoop stop fuel isMapped (x + pageSize)
      else ([], true)

/-- `pager_do_rw` with at most `fuel` turns of each loop: what it does, and whether it comes to its
end. The loop of a write that marks the pages touches no address and has as many turns as the
mapping loop. -/
def pagerDoRw (e : Setting space) (fuel : Nat) (size offset len : UInt32) : List Op × Bool :=
  if offset ≥ size then ([], true)
  else
    let len := transferLen size offset len
    let firstPage := pageAlignDown offset
    let regionLen := offset + len - firstPage
    let region := e.regionAlloc (pageAlignUp regionLen)
    if region = 0 then ([], true)
    else
      match e.table with
      | none => ([], false)
      | some table =>
          let (maps, how) :=
            mapLoop e table region firstPage (firstPage + regionLen) fuel 0 firstPage
          let copy := if how = .reached then [.copy (region + offset - firstPage) len] else []
          if how = .stopped then (maps, false)
          else
            let (unmaps, ended) := unmapLoop (region + regionLen) fuel
              (fun x => e.before x || maps.contains (.map x)) region
            (maps ++ copy ++ unmaps, ended)

/-- The bytes that are copied lie in the region, in pages that were mapped for them, and no more of
them are copied than were asked for and than there are; a call that comes to its end has unmapped
what it has mapped, and nothing else. -/
structure Bounded (region regionLen size offset len : UInt32) (ops : List Op) (ended : Bool) :
    Prop where
  count : ∀ addr n, .copy addr n ∈ ops →
    n.toNat ≤ size.toNat - offset.toNat ∧ n ≤ len
  inside : ∀ addr n, .copy addr n ∈ ops → ∀ k < n.toNat,
    region.toNat ≤ addr.toNat + k ∧ addr.toNat + k < region.toNat + regionLen.toNat
  mapped : ∀ addr n, .copy addr n ∈ ops → ∀ k < n.toNat,
    ∃ page, .map page ∈ ops ∧ page.toNat ≤ addr.toNat + k ∧ addr.toNat + k < page.toNat + 4096
  unmaps : ended = true → ∀ x, ops.count (.unmap x) = ops.count (.map x)

/-- The size of the region that `pager_do_rw` asks for. -/
def regionSize (size offset len : UInt32) : UInt32 :=
  pageAlignUp (offset + transferLen size offset len - pageAlignDown offset)

/-- The call stays in its bounds, whatever it meets. -/
def StaysBounded (space : KernelSpace) (size offset len : UInt32) : Prop :=
  ∀ (e : Setting space) (fuel : Nat),
    Bounded (e.regionAlloc (regionSize size offset len)) (regionSize size offset len) size offset
      len (pagerDoRw e fuel size offset len).1 (pagerDoRw e fuel size offset len).2

/-- The end of the transfer does not wrap around and does not lie in the last page of the address
space; or the region is too large to be had. -/
def InReach (space : KernelSpace) (size offset len : UInt32) : Prop :=
  if offset.toNat + len.toNat < 2 ^ 32 then
    min (offset.toNat + len.toNat) size.toNat ≤ pageMask.toNat ∨
      space.size ≤ (regionSize size offset len).toNat
  else space.size < (regionSize size offset len).toNat

section Pages

/-- The page at an index behind an address. -/
def pageAt (x : UInt32) (j : Nat) : UInt32 := x + UInt32.ofNat (j * 4096)

theorem page_at_zero (x : UInt32) : pageAt x 0 = x := by
  rw [pageAt, Nat.zero_mul]
  exact UInt32.add_zero x

theorem page_at_succ (x : UInt32) (j : Nat) : pageAt x j + pageSize = pageAt x (j + 1) := by
  have hsize : pageSize = UInt32.ofNat 4096 := rfl
  rw [pageAt, pageAt, Nat.succ_mul, UInt32.ofNat_add, ← UInt32.add_assoc, hsize]

theorem page_at_toNat {x : UInt32} {j : Nat} (h : x.toNat + j * 4096 < 2 ^ 32) :
    (pageAt x j).toNat = x.toNat + j * 4096 := by
  have hofs : (UInt32.ofNat (j * 4096)).toNat = j * 4096 :=
    UInt32.toNat_ofNat_of_lt' (show j * 4096 < 2 ^ 32 by omega)
  rw [pageAt, toNat_add_of_lt (by omega), hofs]

/-- The address in the region of a page of the pager. -/
theorem region_page_at (region first : UInt32) (j : Nat) :
    region + pageAt first j - first = pageAt region j := by
  rw [pageAt, pageAt, ← UInt32.add_assoc, UInt32.add_comm region first, UInt32.add_assoc,
    UInt32.add_comm first, UInt32.add_sub_cancel]

theorem page_at_inj {x : UInt32} {i j : Nat} (hi : i < 2 ^ 20) (hj : j < 2 ^ 20)
    (h : pageAt x i = pageAt x j) : i = j := by
  have hofs : UInt32.ofNat (i * 4096) = UInt32.ofNat (j * 4096) :=
    (UInt32.add_right_inj x).mp h
  have hnat := congrArg UInt32.toNat hofs
  rw [UInt32.toNat_ofNat_of_lt' (show i * 4096 < 2 ^ 32 by omega),
    UInt32.toNat_ofNat_of_lt' (show j * 4096 < 2 ^ 32 by omega)] at hnat
  omega

end Pages

section Loops

variable {e : Setting space} {table : UInt32 → UInt32} {region first stop : UInt32} {K : Nat}

/-- The pages of the region from an index on. -/
def mapOps (region : UInt32) (b n : Nat) : List Op :=
  (List.range' b n).map fun j => .map (pageAt region j)

def unmapOps (region : UInt32) (b n : Nat) : List Op :=
  (List.range' b n).map fun j => .unmap (pageAt region j)

/-- The mapping loop maps the pages of the region one after another, as long as it does not map one
behind the last one; where it reaches its end, it has mapped them all. -/
theorem map_loop_shape (hlt : ∀ j < K, pageAt first j < stop)
    (hlast : ∀ fuel k, (mapLoop e table region first stop fuel k (pageAt first K)).1 = [])
    (fuel k : Nat) {b : Nat} (hb : b ≤ K) :
    ∃ n, b + n ≤ K ∧
      (mapLoop e table region first stop fuel k (pageAt first b)).1 = mapOps region b n ∧
      ((mapLoop e table region first stop fuel k (pageAt first b)).2 = .reached → b + n = K) := by
  induction fuel generalizing k b with
  | zero => exact ⟨0, hb, rfl, fun h => by cases h⟩
  | succ fuel ih =>
      obtain heq | hbK := Nat.eq_or_lt_of_le hb
      · subst heq
        exact ⟨0, Nat.le_refl b, hlast (fuel + 1) k, fun _ => rfl⟩
      · rw [mapLoop, if_pos (hlt b hbK)]
        split
        · exact ⟨0, hb, rfl, fun h => by cases h⟩
        · split
          · exact ⟨0, hb, rfl, fun h => by cases h⟩
          · split
            · obtain ⟨n, hn, hops, hreached⟩ := ih (k + 1) (Nat.succ_le_of_lt hbK)
              rw [page_at_succ, region_page_at]
              refine ⟨n + 1, by omega, ?_, fun h => by have := hreached h; omega⟩
              show Op.map (pageAt region b) :: _ = _
              rw [hops]
              rfl
            · exact ⟨0, hb, rfl, fun h => by cases h⟩

/-- The mapping loop maps nothing at its end, and nothing in the mirror of the page directory. -/
theorem map_loop_nothing {fuel k : Nat} {i : UInt32}
    (h : ¬ i < stop ∨ ¬ region + i - first < pdMirrorAddr) :
    (mapLoop e table region first stop fuel k i).1 = [] := by
  cases fuel with
  | zero => rfl
  | succ fuel =>
      rw [mapLoop]
      split
      · next hlt =>
        split
        · rfl
        · rw [if_pos (h.resolve_left (not_not.mpr hlt))]
      · rfl

/-- A turn of the mapping loop that maps its page. -/
theorem map_loop_turn {fuel k j : Nat} (hlt : pageAt first j < stop)
    (hframe : table (pageAt first j) >>> entFrameShift ≠ 0)
    (hlow : pageAt region j < pdMirrorAddr) (hmap : e.pdMapPage k = true) :
    mapLoop e table region first stop (fuel + 1) k (pageAt first j) =
      (.map (pageAt region j) ::
        (mapLoop e table region first stop fuel (k + 1) (pageAt first (j + 1))).1,
        (mapLoop e table region first stop fuel (k + 1) (pageAt first (j + 1))).2) := by
  rw [mapLoop, if_pos hlt, if_neg hframe, region_page_at, if_neg (not_not.mpr hlow), if_pos hmap,
    page_at_succ]

/-- Turns of the mapping loop that map their pages. -/
theorem map_loop_run (n : Nat) {fuel k b : Nat} (hlt : ∀ j < b + n, pageAt first j < stop)
    (hframe : ∀ j < b + n, table (pageAt first j) >>> entFrameShift ≠ 0)
    (hlow : ∀ j < b + n, pageAt region j < pdMirrorAddr) (hmap : ∀ k, e.pdMapPage k = true) :
    mapLoop e table region first stop (n + fuel) k (pageAt first b) =
      (mapOps region b n ++
        (mapLoop e table region first stop fuel (k + n) (pageAt first (b + n))).1,
        (mapLoop e table region first stop fuel (k + n) (pageAt first (b + n))).2) := by
  induction n generalizing k b with
  | zero =>
      rw [Nat.zero_add]
      rfl
  | succ n ih =>
      have hhere : b < b + (n + 1) := by omega
      have hrest := ih (k := k + 1) (b := b + 1) (fun j hj => hlt j (by omega))
        (fun j hj => hframe j (by omega)) fun j hj => hlow j (by omega)
      have hfuel : n + 1 + fuel = n + fuel + 1 := by omega
      have hk : k + 1 + n = k + (n + 1) := by omega
      have hb : b + 1 + n = b + (n + 1) := by omega
      rw [hfuel, map_loop_turn (hlt b hhere) (hframe b hhere) (hlow b hhere) (hmap k), hrest, hk,
        hb]
      rfl

/-- The loop behind `end_read` unmaps the pages that were mapped, and given enough turns it ends. -/
theorem unmap_loop_shape (hK : K ≤ 2 ^ 20) (hlt : ∀ j < K, pageAt region j < stop)
    (hend : ¬ pageAt region K < stop) {n : Nat} (hn : n ≤ K) (fuel : Nat)
    {isMapped : UInt32 → Bool} {b : Nat} (hb : b ≤ K)
    (hmapped : ∀ j, b ≤ j → j < K → isMapped (pageAt region j) = decide (j < n)) :
    ((unmapLoop stop fuel isMapped (pageAt region b)).2 = true →
      (unmapLoop stop fuel isMapped (pageAt region b)).1 = unmapOps region b (n - b)) ∧
    (K - b < fuel → (unmapLoop stop fuel isMapped (pageAt region b)).2 = true) := by
  induction fuel generalizing isMapped b with
  | zero => exact ⟨fun h => (by cases h), fun h => absurd h (Nat.not_lt_zero _)⟩
  | succ fuel ih =>
      obtain heq | hbK := Nat.eq_or_lt_of_le hb
      · subst heq
        rw [unmapLoop, if_neg hend, Nat.sub_eq_zero_of_le hn]
        exact ⟨fun _ => rfl, fun _ => rfl⟩
      · rw [unmapLoop, if_pos (hlt b hbK), hmapped b (Nat.le_refl b) hbK, page_at_succ]
        by_cases hbn : b < n
        · have hupdate : ∀ j, b + 1 ≤ j → j < K →
              Function.update isMapped (pageAt region b) false (pageAt region j) =
                decide (j < n) := by
            intro j hj hjK
            have hne : pageAt region j ≠ pageAt region b := fun heq => by
              have := page_at_inj (show j < 2 ^ 20 by omega) (show b < 2 ^ 20 by omega) heq
              omega
            rw [Function.update_of_ne hne]
            exact hmapped j (by omega) hjK
          obtain ⟨hops, hends⟩ := ih (Nat.succ_le_of_lt hbK) hupdate
          rw [decide_eq_true hbn, if_pos rfl]
          refine ⟨fun h => ?_, fun h => hends (by omega)⟩
          have hcount : n - b = n - (b + 1) + 1 := by omega
          show Op.unmap (pageAt region b) :: _ = _
          rw [hops h, hcount]
          rfl
        · obtain ⟨hops, hends⟩ := ih (Nat.succ_le_of_lt hbK)
            fun j hj hjK => hmapped j (by omega) hjK
          rw [decide_eq_false hbn, if_neg Bool.false_ne_true]
          refine ⟨fun h => ?_, fun h => hends (by omega)⟩
          rw [hops h]
          have hzero : n - (b + 1) = 0 := by omega
          have hzero' : n - b = 0 := by omega
          rw [hzero, hzero']
          rfl

/-- The loop behind `end_read` copies nothing. -/
theorem copy_not_in_unmap_loop {fuel : Nat} {isMapped : UInt32 → Bool} {x addr len : UInt32} :
    .copy addr len ∉ (unmapLoop stop fuel isMapped x).1 := by
  induction fuel generalizing isMapped x with
  | zero => exact List.not_mem_nil
  | succ fuel ih =>
      rw [unmapLoop]
      split
      · split
        · exact List.not_mem_cons_of_ne_of_not_mem (fun h => by cases h) ih
        · exact ih
      · exact List.not_mem_nil

end Loops

section Counts

variable {region x : UInt32} {b n : Nat}

theorem count_unmap_of_unmap_ops :
    (unmapOps region b n).count (.unmap x) = (mapOps region b n).count (.map x) := by
  induction n generalizing b with
  | zero => rfl
  | succ n ih =>
      show (Op.unmap (pageAt region b) :: unmapOps region (b + 1) n).count _ =
        (Op.map (pageAt region b) :: mapOps region (b + 1) n).count _
      rw [List.count_cons, List.count_cons, ih]
      by_cases hx : pageAt region b = x
      · simp [hx]
      · simp [hx]

theorem count_map_of_unmap_ops : (unmapOps region b n).count (.map x) = 0 := by
  rw [List.count_eq_zero]
  intro hmem
  obtain ⟨j, -, hj⟩ := List.mem_map.mp hmem
  cases hj

theorem count_unmap_of_map_ops : (mapOps region b n).count (.unmap x) = 0 := by
  rw [List.count_eq_zero]
  intro hmem
  obtain ⟨j, -, hj⟩ := List.mem_map.mp hmem
  cases hj

theorem mem_map_ops : .map x ∈ mapOps region 0 n ↔ ∃ j < n, pageAt region j = x := by
  simp only [mapOps, List.mem_map, List.mem_range'_1, Op.map.injEq, Nat.zero_le, Nat.zero_add,
    true_and]

theorem copy_not_in_map_ops {addr len : UInt32} : .copy addr len ∉ mapOps region b n := by
  intro hmem
  obtain ⟨j, -, hj⟩ := List.mem_map.mp hmem
  cases hj

end Counts

section InReach

variable {size offset len : UInt32} {region regionLen : UInt32}

/-- A call that does nothing is bounded. -/
theorem bounded_nil (ended : Bool) : Bounded region regionLen size offset len [] ended :=
  ⟨fun _ _ h => absurd h List.not_mem_nil, fun _ _ h => absurd h List.not_mem_nil,
    fun _ _ h => absurd h List.not_mem_nil, fun _ _ => rfl⟩

/-- The pages of a transfer whose end does not wrap around: how many there are, and where the loops
end. -/
structure Fits (size offset len : UInt32) (K : Nat) : Prop where
  start : offset < size
  length : (transferLen size offset len).toNat = min len.toNat (size.toNat - offset.toNat)
  pages : K = (offset.toNat % 4096 + (transferLen size offset len).toNat + 4095) / 4096
  whole : (regionSize size offset len).toNat = K * 4096

namespace Fits

variable {K : Nat} (h : Fits size offset len K)

include h

theorem end_le : offset.toNat + (transferLen size offset len).toNat ≤ size.toNat := by
  have hlen := h.length
  have hstart := UInt32.lt_iff_toNat_lt.mp h.start
  omega

theorem region_len_toNat :
    (offset + transferLen size offset len - pageAlignDown offset).toNat =
      offset.toNat % 4096 + (transferLen size offset len).toNat := by
  have hdown := page_align_down_toNat offset
  have hend := h.end_le
  have hsize := size.toNat_lt
  rw [UInt32.toNat_sub, UInt32.toNat_add, hdown]
  omega

theorem stop_toNat :
    (pageAlignDown offset + (offset + transferLen size offset len - pageAlignDown offset)).toNat =
      offset.toNat + (transferLen size offset len).toNat := by
  have hend := h.end_le
  have hsize := size.toNat_lt
  rw [UInt32.add_comm, UInt32.sub_add_cancel, toNat_add_of_lt (by omega)]

/-- The pages of the transfer begin in front of its end. -/
theorem page_lt {j : Nat} (hj : j < K) : pageAt (pageAlignDown offset) j <
    pageAlignDown offset + (offset + transferLen size offset len - pageAlignDown offset) := by
  have hpages := h.pages
  have hdown := page_align_down_toNat offset
  have hend := h.end_le
  have hsize := size.toNat_lt
  rw [UInt32.lt_iff_toNat_lt, h.stop_toNat, page_at_toNat (by omega), hdown]
  omega

variable (hregion : region.toNat + K * 4096 ≤ pdMirrorAddr.toNat)

include hregion

theorem region_stop_toNat :
    (region + (offset + transferLen size offset len - pageAlignDown offset)).toNat =
      region.toNat + (offset.toNat % 4096 + (transferLen size offset len).toNat) := by
  have hlen := h.region_len_toNat
  have hpages := h.pages
  have hmirror : pdMirrorAddr.toNat = 0xFFC00000 := rfl
  rw [toNat_add_of_lt (by omega), hlen]

theorem region_page_lt {j : Nat} (hj : j < K) :
    pageAt region j < region + (offset + transferLen size offset len - pageAlignDown offset) := by
  have hpages := h.pages
  have hmirror : pdMirrorAddr.toNat = 0xFFC00000 := rfl
  rw [UInt32.lt_iff_toNat_lt, h.region_stop_toNat hregion, page_at_toNat (by omega)]
  omega

theorem region_end : ¬ pageAt region K <
    region + (offset + transferLen size offset len - pageAlignDown offset) := by
  have hpages := h.pages
  have hmirror : pdMirrorAddr.toNat = 0xFFC00000 := rfl
  rw [UInt32.lt_iff_toNat_lt, h.region_stop_toNat hregion, page_at_toNat (by omega)]
  omega

/-- The copy, once all pages are mapped. -/
theorem copied (ops : List Op)
    (hops : ∀ addr n, .copy addr n ∈ ops →
      addr = region + offset - pageAlignDown offset ∧ n = transferLen size offset len ∧
        ∀ j < K, .map (pageAt region j) ∈ ops)
    {ended : Bool} (hunmaps : ended = true → ∀ x, ops.count (.unmap x) = ops.count (.map x)) :
    Bounded region (regionSize size offset len) size offset len ops ended := by
  have hlength := h.length
  have hpages := h.pages
  have hwhole := h.whole
  have hmirror : pdMirrorAddr.toNat = 0xFFC00000 := rfl
  have hdown := page_align_down_toNat offset
  have hoffset := offset.toNat_lt
  have haddr : K ≠ 0 → (region + offset - pageAlignDown offset).toNat =
      region.toNat + offset.toNat % 4096 := by
    intro hK
    rw [UInt32.toNat_sub, UInt32.toNat_add, hdown]
    omega
  refine ⟨fun addr n hmem => ?_, fun addr n hmem k hk => ?_, fun addr n hmem k hk => ?_, hunmaps⟩
  · obtain ⟨-, rfl, -⟩ := hops addr n hmem
    exact ⟨by omega, UInt32.le_iff_toNat_le.mpr (by omega)⟩
  · obtain ⟨rfl, rfl, -⟩ := hops addr n hmem
    rw [haddr (by omega), hwhole]
    omega
  · obtain ⟨rfl, rfl, hmaps⟩ := hops addr n hmem
    -- the page of the byte, by its index
    have hj : (offset.toNat % 4096 + k) / 4096 < K := by omega
    refine ⟨_, hmaps _ hj, ?_⟩
    rw [haddr (by omega), page_at_toNat (by omega)]
    omega

end Fits

/-- The addresses that are mapped behind the mapping loop. -/
def mappedAfter (e : Setting space) (maps : List Op) : UInt32 → Bool :=
  fun x => e.before x || maps.contains (.map x)

/-- A call that gets its region, and whose `page_in` comes back. -/
theorem pager_do_rw_eq {e : Setting space} {fuel : Nat} {table : UInt32 → UInt32} {maps : List Op}
    {how : MapEnd} (hstart : offset < size)
    (hregion : e.regionAlloc (regionSize size offset len) = region) (hne : region ≠ 0)
    (htable : e.table = some table)
    (hlen : offset + transferLen size offset len - pageAlignDown offset = regionLen)
    (hmaps : mapLoop e table region (pageAlignDown offset) (pageAlignDown offset + regionLen) fuel 0
      (pageAlignDown offset) = (maps, how)) :
    pagerDoRw e fuel size offset len =
      if how = .stopped then (maps, false)
      else
        (maps ++ (if how = .reached then
            [.copy (region + offset - pageAlignDown offset) (transferLen size offset len)]
          else []) ++
          (unmapLoop (region + regionLen) fuel (mappedAfter e maps) region).1,
          (unmapLoop (region + regionLen) fuel (mappedAfter e maps) region).2) := by
  subst hlen
  unfold pagerDoRw
  rw [if_neg (UInt32.not_le.mpr hstart)]
  simp only
  rw [show e.regionAlloc (pageAlignUp (offset + transferLen size offset len -
    pageAlignDown offset)) = region from hregion, if_neg hne, htable]
  simp only
  rw [hmaps]
  rfl

/-- A call that gets no region, or whose `page_in` does not come back, does nothing. -/
theorem pager_do_rw_nothing {e : Setting space} {fuel : Nat} (hstart : offset < size)
    (hnone : e.regionAlloc (regionSize size offset len) = 0 ∨ e.table = none) :
    (pagerDoRw e fuel size offset len).1 = [] := by
  unfold pagerDoRw
  rw [if_neg (UInt32.not_le.mpr hstart)]
  simp only
  split
  · rfl
  · next hne =>
    rw [hnone.resolve_left hne]

/-- A call whose end does not wrap around, and whose mapping loop maps nothing behind the last
page. -/
theorem pager_do_rw_bounded {K : Nat} (e : Setting space) (fuel : Nat)
    (h : Fits size offset len K) (hK : K ≤ 2 ^ 20)
    (hlast : ∀ table fuel k, e.regionAlloc (regionSize size offset len) ≠ 0 →
      (mapLoop e table (e.regionAlloc (regionSize size offset len)) (pageAlignDown offset)
        (pageAlignDown offset + (offset + transferLen size offset len - pageAlignDown offset)) fuel
        k (pageAt (pageAlignDown offset) K)).1 = []) :
    Bounded (e.regionAlloc (regionSize size offset len)) (regionSize size offset len) size offset
      len (pagerDoRw e fuel size offset len).1 (pagerDoRw e fuel size offset len).2 := by
  have hfits := e.fits (regionSize size offset len)
  have hfresh := e.fresh (regionSize size offset len)
  rw [h.whole] at hfits hfresh
  by_cases hzero : e.regionAlloc (regionSize size offset len) = 0
  · rw [pager_do_rw_nothing h.start (.inl hzero)]
    exact bounded_nil _
  cases htable : e.table with
  | none =>
      rw [pager_do_rw_nothing h.start (.inr htable)]
      exact bounded_nil _
  | some table =>
      generalize hregion : e.regionAlloc (regionSize size offset len) = region at *
      obtain ⟨n, hn, hops, hreached⟩ := map_loop_shape (fun j => h.page_lt)
        (fun fuel k => hlast table fuel k hzero) fuel 0 (Nat.zero_le K)
      rw [page_at_zero] at hops hreached
      rw [Nat.zero_add] at hn hreached
      rw [pager_do_rw_eq h.start hregion hzero htable rfl rfl]
      split
      · refine h.copied (hfits hzero) _ (fun addr m hmem => ?_) fun h => (by cases h)
        rw [hops] at hmem
        exact absurd hmem copy_not_in_map_ops
      · -- the pages that are mapped at the label `end_read`
        have hmapped : ∀ j, 0 ≤ j → j < K →
            mappedAfter e (mapOps region 0 n) (pageAt region j) = decide (j < n) := by
          intro j _ hj
          have hmirror : pdMirrorAddr.toNat = 0xFFC00000 := rfl
          have hroom := hfits hzero
          have hat : (pageAt region j).toNat = region.toNat + j * 4096 :=
            page_at_toNat (by omega)
          have hnew : e.before (pageAt region j) = false :=
            hfresh (pageAt region j) hzero (UInt32.le_iff_toNat_le.mpr (by omega)) (by omega)
          rw [mappedAfter, hnew, Bool.false_or, List.contains_eq_mem]
          refine decide_eq_decide.mpr (mem_map_ops.trans
            ⟨fun ⟨i, hi, heq⟩ => ?_, fun hjn => ⟨j, hjn, rfl⟩⟩)
          exact page_at_inj (show i < 2 ^ 20 by omega) (show j < 2 ^ 20 by omega) heq ▸ hi
        have hunmap := (unmap_loop_shape hK (fun j => h.region_page_lt (hfits hzero))
          (h.region_end (hfits hzero)) hn fuel (Nat.zero_le K) hmapped).1
        rw [page_at_zero] at hunmap
        rw [hops]
        refine h.copied (hfits hzero) _ (fun addr m hmem => ?_) fun hended x => ?_
        · rw [List.mem_append, List.mem_append] at hmem
          obtain (hmap | hcopy) | hunmapped := hmem
          · exact absurd hmap copy_not_in_map_ops
          · split at hcopy
            · next hall =>
              cases List.mem_singleton.mp hcopy
              have hnK := hreached hall
              refine ⟨rfl, rfl, fun j hj => ?_⟩
              exact List.mem_append_left _ (List.mem_append_left _
                (mem_map_ops.mpr ⟨j, hnK ▸ hj, rfl⟩))
            · exact absurd hcopy List.not_mem_nil
          · exact absurd hunmapped copy_not_in_unmap_loop
        · rw [hunmap hended, List.count_append, List.count_append, List.count_append,
            List.count_append, count_unmap_of_map_ops, count_map_of_unmap_ops,
            count_unmap_of_unmap_ops]
          split
          · simp
          · simp

/-- The transfers in reach stay in their bounds. -/
theorem stays_bounded_of_in_reach (hstart : offset < size) (h : InReach space size offset len) :
    StaysBounded space size offset len := by
  intro e fuel
  have hroom : e.regionAlloc (regionSize size offset len) ≠ 0 →
      (regionSize size offset len).toNat ≤ space.size := by
    intro hne
    have habove := UInt32.le_iff_toNat_le.mp (e.above _ hne)
    have hfits := e.fits _ hne
    rw [KernelSpace.size]
    omega
  by_cases hlarge : space.size < (regionSize size offset len).toNat
  · have hzero : e.regionAlloc (regionSize size offset len) = 0 :=
      Classical.not_not.mp fun hne => absurd (hroom hne) (Nat.not_le.mpr hlarge)
    rw [pager_do_rw_nothing hstart (.inl hzero)]
    exact bounded_nil _
  unfold InReach at h
  split at h
  · next hsum =>
    have hslt := UInt32.lt_iff_toNat_lt.mp hstart
    have hsize := size.toNat_lt
    have hlength : (transferLen size offset len).toNat =
        min len.toNat (size.toNat - offset.toNat) :=
      transfer_len_toNat (UInt32.le_of_lt hstart) hsum
    have hdown := page_align_down_toNat offset
    have hregionLen : (offset + transferLen size offset len - pageAlignDown offset).toNat =
        offset.toNat % 4096 + (transferLen size offset len).toNat := by
      rw [UInt32.toNat_sub, UInt32.toNat_add, hdown]
      omega
    have hup : (regionSize size offset len).toNat =
        (offset.toNat % 4096 + (transferLen size offset len).toNat + 4095) / 4096 * 4096 %
          2 ^ 32 := by
      rw [regionSize, page_align_up_toNat, hregionLen]
    have hmask : pageMask.toNat = 0xFFFFF000 := rfl
    have hkernel := space.room
    have hmirror : pdMirrorAddr.toNat = 0xFFC00000 := rfl
    have hhigh := UInt32.lt_iff_toNat_lt.mp space.above
    have hhalf : kHighhalfAddr.toNat = 0xC0000000 := rfl
    rw [KernelSpace.size] at h hlarge
    have hfits : Fits size offset len
        ((offset.toNat % 4096 + (transferLen size offset len).toNat + 4095) / 4096) :=
      ⟨hstart, hlength, rfl, by omega⟩
    refine pager_do_rw_bounded e fuel hfits (by omega) fun table fuel k hne => ?_
    have habove := UInt32.le_iff_toNat_le.mp (e.above _ hne)
    have hregion := e.fits _ hne
    refine map_loop_nothing ?_
    by_cases hlow : min (offset.toNat + len.toNat) size.toNat ≤ pageMask.toNat
    · refine .inl ?_
      rw [UInt32.lt_iff_toNat_lt, hfits.stop_toNat, page_at_toNat (by omega), hdown]
      omega
    · -- the region ends at the mirror, and so the page behind it is not mapped
      refine .inr ?_
      have hall := h.resolve_left hlow
      rw [region_page_at, UInt32.lt_iff_toNat_lt, page_at_toNat (by omega)]
      omega
  · exact absurd h hlarge

end InReach

section OutOfReach

variable {size offset len : UInt32}

theorem KernelSpace.end_ne_zero (space : KernelSpace) : space.kernelEnd ≠ 0 := by
  have hhigh := UInt32.lt_iff_toNat_lt.mp space.above
  exact ne_zero_of_pos (Nat.zero_lt_of_lt hhigh)

/-- Every region that fits is given at the end of the static data, and `page_in` leaves a table. -/
def roomy (space : KernelSpace) (table : UInt32 → UInt32) : Setting space where
  regionAlloc := fun size => if size.toNat ≤ space.size then space.kernelEnd else 0
  aligned := fun size hne => by
    split at hne
    · next hfits =>
      rw [if_pos hfits]
      exact space.aligned
    · exact absurd rfl hne
  above := fun size hne => by
    split at hne
    · next hfits =>
      rw [if_pos hfits]
      exact UInt32.le_refl _
    · exact absurd rfl hne
  fits := fun size hne => by
    split at hne
    · next hfits =>
      rw [if_pos hfits]
      have hroom := space.room
      rw [KernelSpace.size] at hfits
      omega
    · exact absurd rfl hne
  before := fun _ => false
  fresh := fun _ _ _ _ _ => rfl
  table := some table
  pdMapPage := fun _ => true

theorem roomy_region (table : UInt32 → UInt32)
    (h : (regionSize size offset len).toNat ≤ space.size) :
    (roomy space table).regionAlloc (regionSize size offset len) = space.kernelEnd :=
  if_pos h

/-- A frame. -/
theorem frame_ne_zero : (0x1000 : UInt32) >>> entFrameShift ≠ 0 := by decide

/-- The pages up to the end of the address space, and the one at zero. -/
def wrapTable (first : UInt32) : UInt32 → UInt32 :=
  fun page => if first ≤ page ∨ page = 0 then 0x1000 else 0

section Wrap

variable {first stop : UInt32} {K : Nat} (hfirst : first.toNat + K * 4096 = 2 ^ 32)

include hfirst

/-- The pages behind the end of the address space. -/
theorem page_at_wrap (j : Nat) : (pageAt first (K + j)).toNat = j * 4096 % 2 ^ 32 := by
  rw [pageAt, UInt32.toNat_add, UInt32.toNat_ofNat']
  omega

theorem page_at_wrap_zero : pageAt first K = 0 := by
  have h := page_at_wrap hfirst 0
  rw [Nat.add_zero] at h
  exact eq_zero_iff.mpr (h.trans (by omega))

theorem page_at_le {j : Nat} (hj : j < K) :
    (pageAt first j).toNat = first.toNat + j * 4096 ∧ first ≤ pageAt first j := by
  have h : (pageAt first j).toNat = first.toNat + j * 4096 := page_at_toNat (by omega)
  exact ⟨h, UInt32.le_iff_toNat_le.mpr (h ▸ Nat.le_add_right _ _)⟩

/-- The mapping loop runs on behind the end of the address space. -/
theorem page_at_lt_stop (hstop : pageMask.toNat < stop.toNat) {j : Nat} (hj : j ≤ K) :
    pageAt first j < stop := by
  have hmask : pageMask.toNat = 0xFFFFF000 := rfl
  rw [UInt32.lt_iff_toNat_lt]
  obtain hjK | rfl := Nat.lt_or_eq_of_le hj
  · rw [(page_at_le hfirst hjK).1]
    omega
  · rw [page_at_wrap_zero hfirst, UInt32.toNat_zero]
    omega

theorem wrap_table_frame {j : Nat} (hj : j ≤ K) :
    wrapTable first (pageAt first j) >>> entFrameShift ≠ 0 := by
  have hframe : wrapTable first (pageAt first j) = 0x1000 := by
    refine if_pos ?_
    obtain hjK | rfl := Nat.lt_or_eq_of_le hj
    · exact .inl (page_at_le hfirst hjK).2
    · exact .inr (page_at_wrap_zero hfirst)
  rw [hframe]
  exact frame_ne_zero

/-- The mapping loop maps the page at zero behind the region, and then finds no frame. -/
theorem map_loop_behind (hhigh : 4096 < first.toNat) (hstop : pageMask.toNat < stop.toNat)
    (hroom : K * 4096 < space.size) :
    mapLoop (roomy space (wrapTable first)) (wrapTable first) space.kernelEnd first stop (K + 1 + 1)
      0 first = (mapOps space.kernelEnd 0 (K + 1), .jumped) := by
  have hmirror : pdMirrorAddr.toNat = 0xFFC00000 := rfl
  have hmask : pageMask.toNat = 0xFFFFF000 := rfl
  rw [KernelSpace.size, hmirror] at hroom
  have hlow : ∀ j < 0 + (K + 1), pageAt space.kernelEnd j < pdMirrorAddr := fun j hj => by
    rw [UInt32.lt_iff_toNat_lt, page_at_toNat (by omega)]
    omega
  have hrun := @map_loop_run space (roomy space (wrapTable first)) (wrapTable first)
    space.kernelEnd first stop (K + 1) 1 0 0
    (fun j hj => page_at_lt_stop hfirst hstop (by omega))
    (fun j hj => wrap_table_frame hfirst (by omega)) hlow fun _ => rfl
  have hone : (pageAt first (0 + (K + 1))).toNat = 4096 := by
    rw [Nat.zero_add]
    exact page_at_wrap hfirst 1
  have hgo : pageAt first (0 + (K + 1)) < stop := by
    rw [UInt32.lt_iff_toNat_lt, hone]
    omega
  have hle : ¬ first ≤ pageAt first (0 + (K + 1)) := by
    rw [UInt32.le_iff_toNat_le, hone]
    omega
  have hne : pageAt first (0 + (K + 1)) ≠ 0 := ne_zero_of_pos (by omega)
  have hnone : wrapTable first (pageAt first (0 + (K + 1))) >>> entFrameShift = 0 := by
    rw [wrapTable, if_neg (not_or.mpr ⟨hle, hne⟩)]
    rfl
  rw [page_at_zero] at hrun
  rw [hrun, mapLoop, if_pos hgo, if_pos hnone, List.append_nil]

end Wrap

/-- The loop behind `end_read` unmaps the pages of the region. -/
theorem unmap_loop_region {K : Nat} {regionLen : UInt32} {isMapped : UInt32 → Bool}
    (hroom : K * 4096 < space.size)
    (hlen : K = (regionLen.toNat + 4095) / 4096)
    (hmapped : ∀ j < K, isMapped (pageAt space.kernelEnd j) = true) :
    unmapLoop (space.kernelEnd + regionLen) (K + 1 + 1) isMapped space.kernelEnd =
      (unmapOps space.kernelEnd 0 K, true) := by
  have hmirror : pdMirrorAddr.toNat = 0xFFC00000 := rfl
  rw [KernelSpace.size, hmirror] at hroom
  have hstop : (space.kernelEnd + regionLen).toNat = space.kernelEnd.toNat + regionLen.toNat :=
    toNat_add_of_lt (by omega)
  have hat : ∀ j ≤ K, (pageAt space.kernelEnd j).toNat = space.kernelEnd.toNat + j * 4096 :=
    fun j hj => page_at_toNat (by omega)
  have hlt : ∀ j < K, pageAt space.kernelEnd j < space.kernelEnd + regionLen := fun j hj => by
    rw [UInt32.lt_iff_toNat_lt, hat j (Nat.le_of_lt hj), hstop]
    omega
  have hend : ¬ pageAt space.kernelEnd K < space.kernelEnd + regionLen := by
    rw [UInt32.lt_iff_toNat_lt, hat K (Nat.le_refl K), hstop]
    omega
  have hshape := unmap_loop_shape (by omega) hlt hend (Nat.le_refl K) (K + 1 + 1) (Nat.zero_le K)
    fun j _ hj => (hmapped j hj).trans (decide_eq_true hj).symm
  rw [page_at_zero] at hshape
  have hended := hshape.2 (by omega)
  exact Prod.ext (hshape.1 hended) hended

section

variable (hstart : offset < size)

include hstart

/-- The last page of the address space is among the pages: the mapping loop goes on with the page
at zero, which it maps behind the region and leaves mapped. -/
theorem maps_behind_region {K : Nat} (hfirst : (pageAlignDown offset).toNat + K * 4096 = 2 ^ 32)
    (hstop : pageMask.toNat < (offset + transferLen size offset len).toNat)
    (hsize : (regionSize size offset len).toNat = K * 4096) (hroom : K * 4096 < space.size) :
    ¬ StaysBounded space size offset len := by
  have hmask : pageMask.toNat = 0xFFFFF000 := rfl
  have hmirror : pdMirrorAddr.toNat = 0xFFC00000 := rfl
  have hhalf : kHighhalfAddr.toNat = 0xC0000000 := rfl
  have hhigh := UInt32.lt_iff_toNat_lt.mp space.above
  have hkernel := space.room
  have hlt := (offset + transferLen size offset len).toNat_lt
  have hdown := (pageAlignDown offset).toNat_lt
  have halloc := roomy_region (wrapTable (pageAlignDown offset)) (Nat.le_of_lt (hsize ▸ hroom))
  have hK : K < 2 ^ 18 := by
    rw [KernelSpace.size] at hroom
    omega
  have hend : pageAlignDown offset + (offset + transferLen size offset len - pageAlignDown offset) =
      offset + transferLen size offset len := by
    rw [UInt32.add_comm, UInt32.sub_add_cancel]
  have hlen : (offset + transferLen size offset len - pageAlignDown offset).toNat =
      (offset + transferLen size offset len).toNat - (pageAlignDown offset).toNat :=
    toNat_sub_of_le (by omega)
  have hmaps := @map_loop_behind space (pageAlignDown offset)
    (offset + transferLen size offset len) K hfirst (by omega) hstop hroom
  have hunmaps := @unmap_loop_region space K
    (offset + transferLen size offset len - pageAlignDown offset)
    (mappedAfter (roomy space (wrapTable (pageAlignDown offset)))
      (mapOps space.kernelEnd 0 (K + 1))) hroom (by omega) fun j hj => by
      have hmem : .map (pageAt space.kernelEnd j) ∈ mapOps space.kernelEnd 0 (K + 1) :=
        mem_map_ops.mpr ⟨j, by omega, rfl⟩
      rw [mappedAfter, List.contains_eq_mem, decide_eq_true hmem, Bool.or_true]
  intro hbounded
  have hcall := hbounded (roomy space (wrapTable (pageAlignDown offset))) (K + 1 + 1)
  rw [pager_do_rw_eq hstart halloc space.end_ne_zero rfl rfl (hend ▸ hmaps), hunmaps,
    if_neg (by decide), if_neg (by decide), List.append_nil] at hcall
  have hcount := hcall.unmaps rfl (pageAt space.kernelEnd K)
  have hnot : .map (pageAt space.kernelEnd K) ∉ mapOps space.kernelEnd 0 K := fun hmem => by
    obtain ⟨j, hj, heq⟩ := mem_map_ops.mp hmem
    have := page_at_inj (show j < 2 ^ 20 by omega) (show K < 2 ^ 20 by omega) heq
    omega
  have hpos : 0 < (mapOps space.kernelEnd 0 (K + 1)).count (.map (pageAt space.kernelEnd K)) :=
    List.count_pos_iff.mpr (mem_map_ops.mpr ⟨K, Nat.lt_succ_self K, rfl⟩)
  rw [List.count_append, List.count_append, count_unmap_of_map_ops, count_unmap_of_unmap_ops,
    count_map_of_unmap_ops, List.count_eq_zero.mpr hnot] at hcount
  omega

/-- Where the end of the transfer wraps around, `len` is not cut. -/
theorem transfer_len_of_wrap
    (hwrap : 2 ^ 32 ≤ offset.toNat + len.toNat) : transferLen size offset len = len := by
  have hslt := UInt32.lt_iff_toNat_lt.mp hstart
  have hlen := len.toNat_lt
  refine if_neg ?_
  rw [gt_iff_lt, UInt32.lt_iff_toNat_lt, UInt32.toNat_add]
  omega

/-- Where the end of the transfer wraps around and the loop does not, the copy is too long. -/
theorem copies_too_much (hwrap : 2 ^ 32 ≤ offset.toNat + len.toNat)
    (hlast : (pageAlignDown offset).toNat + 4096 < 2 ^ 32 ∨ ¬ pageAlignDown offset < offset + len)
    (hroom : (regionSize size offset len).toNat ≤ space.size) :
    ¬ StaysBounded space size offset len := by
  have hslt := UInt32.lt_iff_toNat_lt.mp hstart
  have hdown := page_align_down_toNat offset
  have hoffset := offset.toNat_lt
  have hlen := len.toNat_lt
  have hsum : (offset + len).toNat = offset.toNat + len.toNat - 2 ^ 32 := by
    rw [UInt32.toNat_add]
    omega
  have hsame := transfer_len_of_wrap hstart hwrap
  have hend : pageAlignDown offset + (offset + len - pageAlignDown offset) = offset + len := by
    rw [UInt32.add_comm, UInt32.sub_add_cancel]
  let table : UInt32 → UInt32 := fun _ => 0x1000
  have hmaps : (mapLoop (roomy space table) table space.kernelEnd (pageAlignDown offset)
      (offset + len) (1 + 1) 0 (pageAlignDown offset)).2 = .reached := by
    by_cases hlt : pageAlignDown offset < offset + len
    · have hlow : pageAt space.kernelEnd 0 < pdMirrorAddr := by
        have hkernel := space.room
        rw [page_at_zero, UInt32.lt_iff_toNat_lt]
        omega
      have hturn := @map_loop_turn space (roomy space table) table space.kernelEnd
        (pageAlignDown offset) (offset + len) 1 0 0 (by rw [page_at_zero]; exact hlt) frame_ne_zero
        hlow rfl
      rw [page_at_zero] at hturn
      have hstop : ¬ pageAt (pageAlignDown offset) (0 + 1) < offset + len := by
        have hroom := hlast.resolve_right (not_not.mpr hlt)
        rw [UInt32.lt_iff_toNat_lt, page_at_toNat (by omega), hsum, hdown]
        omega
      rw [hturn, mapLoop, if_neg hstop]
    · rw [mapLoop, if_neg hlt]
  intro hbounded
  have hcall := hbounded (roomy space table) (1 + 1)
  have halloc := roomy_region table hroom
  rw [pager_do_rw_eq hstart halloc space.end_ne_zero rfl rfl rfl, hsame, hend, hmaps,
    if_neg (by decide), if_pos rfl] at hcall
  have hmem : Op.copy (space.kernelEnd + offset - pageAlignDown offset) len ∈
      [Op.copy (space.kernelEnd + offset - pageAlignDown offset) len] := List.mem_singleton_self _
  have hcount := (hcall.count _ len (List.mem_append_left _ (List.mem_append_right _ hmem))).1
  have hsize := size.toNat_lt
  omega

/-- Where the end of the transfer is in the last page, and the first page is the one at zero, the
size of the region wraps around to nothing, and so does the end of the loop that unmaps. -/
theorem maps_in_no_region (hzero : pageAlignDown offset = 0)
    (hstop : pageMask.toNat < (offset + transferLen size offset len).toNat) :
    ¬ StaysBounded space size offset len := by
  have hmask : pageMask.toNat = 0xFFFFF000 := rfl
  have hkernel := space.room
  have hsum := (offset + transferLen size offset len).toNat_lt
  have hsub : offset + transferLen size offset len - 0 = offset + transferLen size offset len :=
    UInt32.sub_zero _
  have hend : (0 : UInt32) + (offset + transferLen size offset len) =
      offset + transferLen size offset len := UInt32.zero_add _
  have hsize : (regionSize size offset len).toNat ≤ space.size := by
    rw [regionSize, page_align_up_toNat, hzero, hsub]
    omega
  let table : UInt32 → UInt32 := fun page => if page = 0 then 0x1000 else 0
  have hmaps : mapLoop (roomy space table) table space.kernelEnd 0
      (offset + transferLen size offset len) (1 + 1) 0 0 = ([.map space.kernelEnd], .jumped) := by
    have hmirror : pdMirrorAddr.toNat = 0xFFC00000 := rfl
    have hgo : pageAt 0 0 < offset + transferLen size offset len := by
      rw [page_at_zero, UInt32.lt_iff_toNat_lt, UInt32.toNat_zero]
      omega
    have hlow : pageAt space.kernelEnd 0 < pdMirrorAddr := by
      rw [page_at_zero, UInt32.lt_iff_toNat_lt]
      omega
    have hturn := @map_loop_turn space (roomy space table) table space.kernelEnd 0
      (offset + transferLen size offset len) 1 0 0 hgo frame_ne_zero hlow rfl
    rw [page_at_zero, page_at_zero] at hturn
    have hnext : pageAt 0 (0 + 1) < offset + transferLen size offset len := by
      have hone : pageAt 0 (0 + 1) = 4096 := rfl
      have hto : (4096 : UInt32).toNat = 4096 := rfl
      rw [hone, UInt32.lt_iff_toNat_lt, hto]
      omega
    have hnone : table (pageAt 0 (0 + 1)) >>> entFrameShift = 0 := by decide
    rw [hturn, mapLoop, if_pos hnext, if_pos hnone]
  have hunmaps : ∀ isMapped, unmapLoop (space.kernelEnd + (offset + transferLen size offset len))
      (1 + 1) isMapped space.kernelEnd = ([], true) := fun isMapped => by
    have hmirror : pdMirrorAddr.toNat = 0xFFC00000 := rfl
    have hhigh := UInt32.lt_iff_toNat_lt.mp space.above
    have hhalf : kHighhalfAddr.toNat = 0xC0000000 := rfl
    have hback : ¬ space.kernelEnd < space.kernelEnd + (offset + transferLen size offset len) := by
      rw [UInt32.lt_iff_toNat_lt, UInt32.toNat_add]
      omega
    rw [unmapLoop, if_neg hback]
  intro hbounded
  have hcall := hbounded (roomy space table) (1 + 1)
  have halloc := roomy_region table hsize
  rw [pager_do_rw_eq hstart halloc space.end_ne_zero rfl rfl rfl, hzero, hsub, hend, hmaps, hunmaps,
    if_neg (show ¬ MapEnd.jumped = .stopped by decide),
    if_neg (show ¬ MapEnd.jumped = .reached by decide)] at hcall
  have hcount := hcall.unmaps rfl space.kernelEnd
  simp at hcount

/-- The transfers out of reach leave their bounds. -/
theorem not_stays_bounded (h : ¬ InReach space size offset len) :
    ¬ StaysBounded space size offset len := by
  have hmask : pageMask.toNat = 0xFFFFF000 := rfl
  have hslt := UInt32.lt_iff_toNat_lt.mp hstart
  have hsize := size.toNat_lt
  have hlen := len.toNat_lt
  have hdown := page_align_down_toNat offset
  have hregion : (regionSize size offset len).toNat =
      ((offset + transferLen size offset len - pageAlignDown offset).toNat + 4095) / 4096 * 4096 %
        2 ^ 32 := page_align_up_toNat _
  unfold InReach at h
  split at h
  · next hsum =>
    rw [not_or] at h
    have hlength : (transferLen size offset len).toNat =
        min len.toNat (size.toNat - offset.toNat) :=
      transfer_len_toNat (UInt32.le_of_lt hstart) hsum
    have hend : (offset + transferLen size offset len).toNat =
        offset.toNat + (transferLen size offset len).toNat := toNat_add_of_lt (by omega)
    by_cases hfirst : pageAlignDown offset = 0
    · exact maps_in_no_region hstart hfirst (by omega)
    · have hpos : 0 < (pageAlignDown offset).toNat :=
        Nat.pos_of_ne_zero fun hzero => hfirst (eq_zero_iff.mpr hzero)
      rw [toNat_sub_of_le (by omega)] at hregion
      refine maps_behind_region (K := (2 ^ 32 - (pageAlignDown offset).toNat) / 4096) hstart
        (by omega) (by omega) (by omega) (by omega)
  · next hwrap =>
    have hroom := Nat.le_of_not_lt h
    by_cases hlast : (pageAlignDown offset).toNat + 4096 < 2 ^ 32 ∨
        ¬ pageAlignDown offset < offset + len
    · exact copies_too_much hstart (by omega) hlast hroom
    · -- the transfer begins and ends in the last page of the address space
      rw [not_or, not_not, UInt32.lt_iff_toNat_lt] at hlast
      have hsame : transferLen size offset len = len := transfer_len_of_wrap hstart (by omega)
      have hkernel := space.room
      have hhigh := UInt32.lt_iff_toNat_lt.mp space.above
      rw [hsame, toNat_sub_of_le (by omega)] at hregion
      have hsum := (offset + len).toNat_lt
      refine maps_behind_region (K := 1) hstart (by omega) ?_ (by omega) ?_
      · rw [hsame]
        omega
      · rw [KernelSpace.size]
        omega

end

end OutOfReach

section Sizes

variable {W : Type}

/-- No pager gets another size, except that one may get the size `n`. -/
def Sizes (p : PagerId) (n : UInt32) (s s' : Vm W) : Prop :=
  ∀ q, (s'.pager q).size = (s.pager q).size ∨ q = p ∧ (s'.pager q).size = n

instance (p : PagerId) (n : UInt32) : Std.Refl (Sizes (W := W) p n) :=
  ⟨fun _ _ => .inl rfl⟩

instance (p : PagerId) (n : UInt32) : IsTrans (Vm W) (Sizes p n) :=
  ⟨fun _ _ _ h h' q => (h' q).elim (fun hsame => (h q).imp hsame.trans
    fun hnew => ⟨hnew.1, hsame.trans hnew.2⟩) .inr⟩

variable (m : Machine W) (p : PagerId) (n : UInt32)

theorem sizes_of_inner {α : Type} {program : Call W α} (h : Inner p program) :
    Keeps (Sizes p n) program :=
  h.keeps.mono fun s s' honly q => by
    by_cases hq : q = p
    · subst hq
      exact .inl (by rw [honly.same])
    · exact .inl (by rw [honly.others q hq])

theorem keeps_set_pager {change : Pager → Pager}
    (h : ∀ pg, (change pg).size = pg.size ∨ (change pg).size = n) :
    Keeps (Sizes p n) (setPager p change : Call W Unit) :=
  keeps_modify fun s q => by
    by_cases hq : q = p
    · subst hq
      show (Function.update s.pager q (change (s.pager q)) q).size = _ ∨
        _ ∧ (Function.update s.pager q (change (s.pager q)) q).size = n
      rw [Function.update_self]
      exact (h (s.pager q)).imp id fun hnew => ⟨rfl, hnew⟩
    · exact .inl (congrArg Pager.size (Function.update_of_ne hq ..))

theorem keeps_lock_pager : Keeps (Sizes p n) (lockPager p : Call W Unit) :=
  (sizes_of_inner p n (inner_the_pager p)).bind fun _ => keeps_ite (fun _ => keeps_throw _)
    fun _ => keeps_set_pager p n fun _ => .inl rfl

theorem keeps_unlock_pager : Keeps (Sizes p n) (unlockPager p : Call W Unit) :=
  keeps_set_pager p n fun _ => .inl rfl

theorem keeps_shrink_pager : Keeps (Sizes p n) (shrinkPager m p n) := by
  have hset : Keeps (Sizes p n) (setPager p fun pg => { pg with size := n } : Call W Unit) :=
    keeps_set_pager p n fun _ => .inr rfl
  refine (sizes_of_inner p n (inner_the_pager p)).bind fun pg => keeps_ite (fun _ => ?_)
    fun _ => hset
  exact (sizes_of_inner p n (inner_pager_unmap m p p _ _)).bind fun _ =>
    (sizes_of_inner p n (inner_page_release m p _ _)).bind fun _ => hset

/-- `pager_resize` gives the pager the new size, or leaves the old one. -/
theorem keeps_pager_resize : Keeps (Sizes p n) (pagerResize m p n) := by
  have hend : ∀ ret, Keeps (Sizes p n) (do
      unlockPager p
      return ret : Call W Bool) := fun ret =>
    (keeps_unlock_pager p n).bind fun _ => keeps_pure ret
  have hresize : ∀ resize, Inner p resize → Keeps (Sizes p n) (do
      lockPager p
      let ret ← resize
      if ret then shrinkPager m p n
      unlockPager p
      return ret : Call W Bool) := by
    intro resize hinner
    refine (keeps_lock_pager p n).bind fun _ => (sizes_of_inner p n hinner).bind fun ret =>
      keeps_ite (fun _ => ?_) fun _ => hend ret
    exact (keeps_shrink_pager m p n).bind fun _ => hend ret
  refine (sizes_of_inner p n (inner_the_pager p)).bind fun pg => ?_
  cases pg.ops with
  | swap allowResize => exact hresize _ (inner_pure allowResize)
  | vfs v => exact hresize _ (inner_ite (inner_ask _) (inner_pure false))
  | device physOffset => exact keeps_pure false

/-- `pager_do_rw` leaves every size. -/
theorem keeps_pager_do_rw (offset len : UInt32) (data : Option (List UInt8)) :
    Keeps (Sizes p n) (Kernel.pagerDoRw m p offset len data) := by
  refine (keeps_lock_pager p n).bind fun _ => ?_
  refine (sizes_of_inner p n (inner_the_pager p)).bind fun pg => ?_
  refine keeps_ite (fun _ => keeps_pure _) fun _ => ?_
  refine (sizes_of_inner p n (inner_ask _)).bind fun region => ?_
  refine .bind (keeps_ite (fun _ => keeps_pure _) fun _ => ?_) fun ret =>
    (keeps_unlock_pager p n).bind fun _ => keeps_pure ret
  exact (sizes_of_inner p n (inner_transfer m p offset _ _ _ region data)).bind fun ret =>
    (sizes_of_inner p n (inner_drop_region m p region _)).bind fun _ => keeps_pure ret

/-- `fs_write_to_pager` makes no pager smaller. -/
theorem fs_write_never_shrinks {f : FsHandle} {offset : UInt32} {buf bytes : List UInt8}
    {s s' : Vm W} (h : fsWriteToPager m f offset buf s = .ok (bytes, s')) (q : PagerId) :
    (s.pager q).size ≤ (s'.pager q).size := by
  unfold fsWriteToPager at h
  cases hpager : f.pager with
  | none =>
      rw [hpager] at h
      cases h
  | some p =>
      rw [hpager] at h
      simp only at h
      rw [run_bind_of_ok (run_the_pager p s), run_ite] at h
      have hwrite := keeps_pager_do_rw m p (offset + UInt32.ofNat buf.length) offset
        (UInt32.ofNat buf.length) (some buf)
      split at h
      · next hmore =>
        obtain ⟨ret, mid, hresize, hlast⟩ := run_bind_eq_ok h
        have hsizes := trans_of (Sizes p (offset + UInt32.ofNat buf.length))
          (keeps_pager_resize m p _ s ret mid hresize) (hwrite mid bytes s' hlast)
        obtain hsame | ⟨rfl, hnew⟩ := hsizes q
        · exact hsame ▸ UInt32.le_refl _
        · exact hnew ▸ UInt32.le_of_lt hmore
      · next hless =>
        -- without `pager_resize` the size is the one before, or the same as before
        have hrun : Kernel.pagerDoRw m p offset (UInt32.ofNat buf.length) (some buf) s =
            .ok (bytes, s') := h
        have hsizes := keeps_pager_do_rw m p (s.pager p).size offset _ (some buf) s bytes s' hrun
        obtain hsame | ⟨rfl, hnew⟩ := hsizes q
        · exact hsame ▸ UInt32.le_refl _
        · exact hnew ▸ UInt32.le_refl _

end Sizes

/-- A transfer that begins inside the pager stays in its bounds, whatever it meets, exactly when it
is in reach; and `fs_write_to_pager` makes no pager smaller. -/
theorem pager_rw_bounded_iff (space : KernelSpace) (size offset len : UInt32)
    (hstart : offset < size) :
    (StaysBounded space size offset len ↔ InReach space size offset len) ∧
      ∀ {W : Type} (m : Machine W) (f : FsHandle) (start : UInt32) (buf bytes : List UInt8)
        (s s' : Vm W), fsWriteToPager m f start buf s = .ok (bytes, s') →
          ∀ q, (s.pager q).size ≤ (s'.pager q).size := by
  refine ⟨⟨fun h => ?_, stays_bounded_of_in_reach hstart⟩, fun m f start buf bytes s s' h q => ?_⟩
  · exact Classical.not_not.mp fun hout => not_stays_bounded hstart hout h
  · exact fs_write_never_shrinks m h q

/-- A kernel of two megabytes. -/
def twoMegabytes : KernelSpace where
  kernelEnd := 0xC0200000
  aligned := rfl
  above := by decide
  room := by decide

/-- A read of a page and a half. -/
theorem pager_rw_bounded_small : StaysBounded twoMegabytes 0x3000 0x800 0x1800 :=
  (pager_rw_bounded_iff twoMegabytes 0x3000 0x800 0x1800 (by decide)).1.mpr (.inl (by decide))

/-- A read of `0xFFFFFFFF` bytes from the offset 10 of a file of a page: one page is mapped, and the
copy goes on behind it. -/
theorem pager_rw_out_of_bounds :
    ¬ ∀ size offset len, offset < size → StaysBounded twoMegabytes size offset len :=
  fun h => copies_too_much (by decide) (by decide) (.inl (by decide)) (by decide)
    (h 0x1000 10 0xFFFFFFFF (by decide))

end Kogata.Kernel.PagerBounds
