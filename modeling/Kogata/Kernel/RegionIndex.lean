import Kogata.Kernel.Regions

/-!
# The regions of a process and their index

`Indexed` is what the mapping calls keep on any run: the index is sorted and holds exactly the
regions of the list under their start addresses, and every region is a page-aligned range below
the kernel half. `Apart` says that the ranges do not overlap. Where both hold,
`find_user_region` finds the region that contains an address (`lookup_iff`), but the mapping
calls only test the first byte of a new range: `clear_runs_apart` needs that no region starts
further inside it, and `overlap_after_two_maps` is a run of two calls that breaks `Apart`.
-/

namespace Kogata.Kernel

open Kogata.Common Lib.Effect Lib.Run

variable {W : Type}

/-- The address lies in the region, without wrap-around. -/
def UserRegion.Contains (reg : UserRegion) (addr : Nat) : Prop :=
  reg.addr.toNat ≤ addr ∧ addr < reg.addr.toNat + reg.size.toNat

instance (reg : UserRegion) (addr : Nat) : Decidable (reg.Contains addr) :=
  inferInstanceAs (Decidable (_ ∧ _))

/-- The region is one that `mmap` and `mmap_file` accept. -/
structure UserRegion.Sound (reg : UserRegion) : Prop where
  aligned : pageAligned reg.addr = true
  range : badRange reg.addr reg.size = false

/-- A sound range is not empty, does not wrap around and stays below the kernel half. -/
theorem UserRegion.Sound.bounds {reg : UserRegion} (h : reg.Sound) :
    0 < reg.size.toNat ∧ reg.addr.toNat + reg.size.toNat ≤ 0xC0000000 ∧
      (reg.addr + reg.size).toNat = reg.addr.toNat + reg.size.toNat := by
  have hrange := h.range
  simp only [badRange, Bool.or_eq_false_iff, decide_eq_false_iff_not, beq_eq_false_iff_ne, ne_eq,
    ge_iff_le, gt_iff_lt, UInt32.le_iff_toNat_le, UInt32.lt_iff_toNat_lt, Lib.Word.eq_zero_iff,
    UInt32.toNat_add] at hrange
  rw [UInt32.toNat_add]
  have haddr := reg.addr.toNat_lt
  have hsize := reg.size.toNat_lt
  have hhigh : kHighhalfAddr.toNat = 0xC0000000 := rfl
  omega

/-- The bindings that the index of a process holds. -/
def Vm.bindings (s : Vm W) (regions : List RegionId) : List (UInt32 × RegionId) :=
  regions.map fun r => ((s.region r).addr, r)

/-- The list and the index of a process describe the same sound regions. -/
structure Indexed (s : Vm W) (proc : ProcId) : Prop where
  unlocked : (s.proc proc).lock = false
  nodup : (s.proc proc).regions.Nodup
  old : ∀ r ∈ (s.proc proc).regions, r < s.next
  sound : ∀ r ∈ (s.proc proc).regions, (s.region r).Sound
  index : ∃ idx, (s.proc proc).regionsIdx = some idx ∧ Sorted idKeyCmpFun idx.toList ∧
    idx.toList.Perm (s.bindings (s.proc proc).regions)

/-- The ranges of two different regions of the process do not overlap. -/
def Apart (s : Vm W) (proc : ProcId) : Prop :=
  ∀ r ∈ (s.proc proc).regions, ∀ q ∈ (s.proc proc).regions, r ≠ q →
    ∀ addr, ¬ ((s.region r).Contains addr ∧ (s.region q).Contains addr)

section Lookup

variable {s : Vm W} {proc : ProcId} {addr : UInt32}

/-- What the index gives for an address. -/
theorem lower_spec (h : Indexed s proc) (addr : UInt32) :
    (s.lower proc addr = none → ∀ r ∈ (s.proc proc).regions, addr < (s.region r).addr) ∧
      ∀ r, s.lower proc addr = some r → r ∈ (s.proc proc).regions ∧ (s.region r).addr ≤ addr ∧
        ∀ q ∈ (s.proc proc).regions, (s.region q).addr ≤ addr →
          (s.region q).addr ≤ (s.region r).addr := by
  obtain ⟨idx, hidx, hsorted, hperm⟩ := h.index
  obtain ⟨hnone, hsome⟩ := Item.lower_aux_spec addr hsorted
  have hmem : ∀ {b : UInt32 × RegionId}, b ∈ idx.root.toList ↔
      b.2 ∈ (s.proc proc).regions ∧ (s.region b.2).addr = b.1 := by
    intro b
    rw [← Btree.toList, hperm.mem_iff, Vm.bindings, List.mem_map]
    constructor
    · rintro ⟨r, hr, rfl⟩
      exact ⟨hr, rfl⟩
    · rintro ⟨hr, haddr⟩
      exact ⟨b.2, hr, by rw [haddr]⟩
  have hlower : s.lower proc addr = (idx.root.lowerAux idKeyCmpFun addr).map Prod.snd := by
    rw [Vm.lower, hidx]
    rfl
  rw [hlower]
  cases hfound : idx.root.lowerAux idKeyCmpFun addr with
  | none =>
      refine ⟨fun _ r hr => ?_, by simp⟩
      exact id_key_cmp_fun_lt.mp (hnone hfound ((s.region r).addr, r) (hmem.mpr ⟨hr, rfl⟩))
  | some b =>
      refine ⟨by simp, fun r hr => ?_⟩
      obtain rfl : b.2 = r := by simpa using hr
      obtain ⟨hb, hle, hmax⟩ := hsome b hfound
      obtain ⟨hreg, haddr⟩ := hmem.mp hb
      rw [id_key_cmp_fun_is_le] at hle
      refine ⟨hreg, haddr ▸ hle, fun q hq hqle => ?_⟩
      rw [haddr]
      exact id_key_cmp_fun_is_le.mp (hmax ((s.region q).addr, q) (hmem.mpr ⟨hq, rfl⟩)
        (id_key_cmp_fun_is_le.mpr hqle))

/-- The region that is found contains the address. -/
theorem contains_of_lookup (h : Indexed s proc) {r : RegionId}
    (hr : s.lookup proc addr = some r) :
    r ∈ (s.proc proc).regions ∧ (s.region r).Contains addr.toNat := by
  obtain ⟨hlower, hlt⟩ := Option.filter_eq_some_iff.mp hr
  obtain ⟨hmem, hle, -⟩ := (lower_spec h addr).2 r hlower
  have hbounds := (h.sound r hmem).bounds
  rw [decide_eq_true_eq, UInt32.lt_iff_toNat_lt, hbounds.2.2] at hlt
  exact ⟨hmem, UInt32.le_iff_toNat_le.mp hle, hlt⟩

/-- `find_user_region` comes back with the lookup. -/
theorem find_user_region_indexed (h : Indexed s proc) (addr : UInt32) :
    findUserRegion proc addr s = .ok (s.lookup proc addr, s) := by
  rw [run_find_user_region, h.unlocked, if_neg Bool.false_ne_true, if_pos]
  exact fun r hr => ((lower_spec h addr).2 r hr).2.1

/-- Among regions that do not overlap, a region that contains the address is found. -/
theorem lookup_of_contains (h : Indexed s proc) (hapart : Apart s proc) {r : RegionId}
    (hr : r ∈ (s.proc proc).regions) (hcontains : (s.region r).Contains addr.toNat) :
    s.lookup proc addr = some r := by
  obtain ⟨hnone, hsome⟩ := lower_spec h addr
  have hle : (s.region r).addr ≤ addr := UInt32.le_iff_toNat_le.mpr hcontains.1
  have hbounds := (h.sound r hr).bounds
  cases hlower : s.lower proc addr with
  | none => exact absurd (hnone hlower r hr) (UInt32.not_lt.mpr hle)
  | some q =>
      obtain ⟨hq, hqle, hmax⟩ := hsome q hlower
      have hqbounds := (h.sound q hq).bounds
      have hstart := UInt32.le_iff_toNat_le.mp (hmax r hr hle)
      have hqaddr := UInt32.le_iff_toNat_le.mp hqle
      -- The first byte of the region found is in both regions.
      have hsame : r = q := by
        by_contra hne
        exact hapart r hr q hq hne (s.region q).addr.toNat
          ⟨⟨hstart, Nat.lt_of_le_of_lt hqaddr hcontains.2⟩, Nat.le_refl _, by omega⟩
      subst hsame
      rw [Vm.lookup, hlower, Option.filter_some, if_pos]
      rw [decide_eq_true_eq, UInt32.lt_iff_toNat_lt, hbounds.2.2]
      exact hcontains.2

end Lookup

section Steps

variable {s s' : Vm W} {proc : ProcId} {r : RegionId}

/-- Calls that leave regions and processes alone keep the index in order. -/
theorem Indexed.frame (h : Indexed s proc) (hframe : RegionFrame s s') : Indexed s' proc where
  unlocked := by rw [hframe.proc]; exact h.unlocked
  nodup := by rw [hframe.proc]; exact h.nodup
  old := by
    rw [hframe.proc]
    exact fun r hr => Nat.lt_of_lt_of_le (h.old r hr) hframe.next
  sound := by rw [hframe.proc, hframe.region]; exact h.sound
  index := by
    rw [hframe.proc, Vm.bindings, hframe.region]
    exact h.index

theorem Apart.frame (h : Apart s proc) (hframe : RegionFrame s s') : Apart s' proc := by
  rw [Apart, hframe.proc, hframe.region]
  exact h

/-- Only the start addresses of the listed regions matter for the bindings. -/
theorem bindings_congr {regions : List RegionId}
    (h : ∀ r ∈ regions, (s'.region r).addr = (s.region r).addr) :
    s'.bindings regions = s.bindings regions :=
  List.map_congr_left fun r hr => by rw [h r hr]

variable {reg : UserRegion}

/-- A region that has just been made is new to its process. -/
theorem Indexed.not_mem_of_old (h : Indexed s proc) (hold : s.next ≤ r) :
    r ∉ (s.proc proc).regions :=
  fun hmem => Nat.not_lt_of_le hold (h.old r hmem)

/-- The region structures of the other regions are the ones from before. -/
theorem Added.region_of_ne (h : Added proc r reg s s') {q : RegionId} (hq : q ≠ r) :
    s'.region q = s.region q := by
  rw [h.region, Function.update_of_ne hq]

theorem Added.region_self (h : Added proc r reg s s') : s'.region r = reg := by
  rw [h.region, Function.update_self]

theorem Added.regions (h : Added proc r reg s s') :
    (s'.proc proc).regions = r :: (s.proc proc).regions := by
  obtain ⟨idx, -, hproc⟩ := h.linked
  rw [hproc, Function.update_self]

/-- Adding a sound region keeps the index in order. -/
theorem Indexed.added (h : Indexed s proc) (hmap : Mapped proc r reg s s') :
    Indexed s' proc := by
  have hnot := h.not_mem_of_old hmap.old
  have hsame : ∀ q ∈ (s.proc proc).regions, s'.region q = s.region q :=
    fun q hq => hmap.region_of_ne fun heq => hnot (heq ▸ hq)
  have hregions := hmap.regions
  obtain ⟨idx, hidx, hproc⟩ := hmap.linked
  obtain ⟨idx', hidx', hsorted, hperm⟩ := h.index
  obtain rfl : idx = idx' := Option.some.inj (hidx.symm.trans hidx')
  constructor
  · rw [hproc, Function.update_self]
  · rw [hregions]
    exact List.nodup_cons.mpr ⟨hnot, h.nodup⟩
  · rw [hregions]
    intro q hq
    rcases List.mem_cons.mp hq with rfl | hq
    · exact hmap.new
    · exact Nat.lt_trans (Nat.lt_of_lt_of_le (h.old q hq) hmap.old) hmap.new
  · rw [hregions]
    intro q hq
    rcases List.mem_cons.mp hq with rfl | hq
    · rw [hmap.region_self]
      exact ⟨hmap.aligned, hmap.range⟩
    · rw [hsame q hq]
      exact h.sound q hq
  · rw [hregions, hproc, Function.update_self]
    refine ⟨_, rfl, Item.sorted_insert hsorted, ?_⟩
    rw [Btree.toList, Item.to_list_insert hsorted, Vm.bindings, List.map_cons, hmap.region_self]
    have hbindings : s'.bindings (s.proc proc).regions = s.bindings (s.proc proc).regions :=
      bindings_congr fun q hq => by rw [hsame q hq]
    refine (List.perm_orderedInsert _ _ _).trans (.cons _ ?_)
    show idx.toList.Perm (s'.bindings _)
    rw [hbindings]
    exact hperm

/-- Taking a region out keeps the index in order. -/
theorem Indexed.unmapped (h : Indexed s proc) (hmap : Unmapped proc r s s') :
    Indexed s' proc := by
  obtain ⟨idx, hidx, hproc⟩ := hmap.unlinked
  obtain ⟨idx', hidx', hsorted, hperm⟩ := h.index
  obtain rfl : idx = idx' := Option.some.inj (hidx.symm.trans hidx')
  have hregions : (s'.proc proc).regions = (s.proc proc).regions.erase r := by
    rw [hproc, Function.update_self]
  have hsub : ∀ q ∈ (s.proc proc).regions.erase r, q ∈ (s.proc proc).regions :=
    fun q hq => List.mem_of_mem_erase hq
  constructor
  · rw [hproc, Function.update_self]
  · rw [hregions]
    exact h.nodup.erase r
  · rw [hregions]
    exact fun q hq => Nat.lt_of_lt_of_le (h.old q (hsub q hq)) hmap.next
  · rw [hregions, hmap.region]
    exact fun q hq => h.sound q (hsub q hq)
  · rw [hregions, hproc, Function.update_self]
    have hlist : (idx.removeV (s.region r).addr r).1.toList =
        idx.toList.filter (Item.keeps idKeyCmpFun (s.region r).addr r) :=
      Item.to_list_remove_aux_v hsorted
    refine ⟨_, rfl, ?_, ?_⟩
    · rw [hlist]
      exact hsorted.filter _
    · rw [hlist]
      refine (hperm.filter _).trans ?_
      have hkept : ∀ q ∈ (s.proc proc).regions, (Item.keeps idKeyCmpFun (s.region r).addr r ∘
          fun q => ((s.region q).addr, q)) q = (q != r) := by
        intro q _
        by_cases hq : q = r
        · simp [Item.keeps, hq]
        · have hbeq : (q == r) = false := by simpa using hq
          simp [Item.keeps, hbeq, bne]
      rw [Vm.bindings, Vm.bindings, hmap.region, List.filter_map, h.nodup.erase_eq_filter,
        List.filter_congr hkept]

/-- Changing a mode keeps the index in order. -/
theorem Indexed.remoded (h : Indexed s proc) {mode : UInt16} (hmode : Remoded r mode s s') :
    Indexed s' proc := by
  have hsame : ∀ q, (s'.region q).addr = (s.region q).addr ∧
      (s'.region q).size = (s.region q).size := by
    intro q
    rw [hmode.region]
    by_cases hq : q = r
    · subst hq
      rw [Function.update_self]
      exact ⟨rfl, rfl⟩
    · rw [Function.update_of_ne hq]
      exact ⟨rfl, rfl⟩
  constructor
  · rw [hmode.proc]
    exact h.unlocked
  · rw [hmode.proc]
    exact h.nodup
  · rw [hmode.proc]
    exact fun q hq => Nat.lt_of_lt_of_le (h.old q hq) hmode.next
  · rw [hmode.proc]
    intro q hq
    obtain ⟨haligned, hrange⟩ := h.sound q hq
    obtain ⟨haddr, hsize⟩ := hsame q
    exact ⟨haddr ▸ haligned, haddr ▸ hsize ▸ hrange⟩
  · rw [hmode.proc, bindings_congr fun q _ => (hsame q).1]
    exact h.index

end Steps

/-- A region of the process starts inside the range, after its first byte. -/
def StartsInside (s : Vm W) (proc : ProcId) (addr size : UInt32) : Prop :=
  ∃ r ∈ (s.proc proc).regions, addr.toNat < (s.region r).addr.toNat ∧
    (s.region r).addr.toNat < addr.toNat + size.toNat

/-- A new range in which no region starts overlaps no region, if its first byte is free. -/
theorem Apart.mapped {s s' : Vm W} {proc : ProcId} {r : RegionId} {reg : UserRegion}
    (h : Indexed s proc) (hapart : Apart s proc) (hmap : Mapped proc r reg s s')
    (hclear : ¬ StartsInside s proc reg.addr reg.size) : Apart s' proc := by
  have hnot := h.not_mem_of_old hmap.old
  have hsame : ∀ q ∈ (s.proc proc).regions, s'.region q = s.region q :=
    fun q hq => hmap.region_of_ne fun heq => hnot (heq ▸ hq)
  have hnew : ∀ q ∈ (s.proc proc).regions, ∀ addr,
      ¬ (reg.Contains addr ∧ (s.region q).Contains addr) := by
    rintro q hq addr ⟨⟨hlow, hhigh⟩, hqlow, hqhigh⟩
    rcases Nat.lt_or_ge reg.addr.toNat (s.region q).addr.toNat with hlt | hge
    · exact hclear ⟨q, hq, hlt, by omega⟩
    · have hcontains : (s.region q).Contains reg.addr.toNat := ⟨hge, by omega⟩
      have hfound := lookup_of_contains h hapart hq hcontains
      rw [hmap.unmapped] at hfound
      cases hfound
  intro q hq q' hq' hne addr
  rw [hmap.regions] at hq hq'
  rcases List.mem_cons.mp hq with heq | hold
  · rcases List.mem_cons.mp hq' with heq' | hold'
    · exact absurd (heq.trans heq'.symm) hne
    · rw [heq, hmap.region_self, hsame q' hold']
      exact hnew q' hold' addr
  · rcases List.mem_cons.mp hq' with heq' | hold'
    · rw [heq', hmap.region_self, hsame q hold, and_comm]
      exact hnew q hold addr
    · rw [hsame q hold, hsame q' hold']
      exact hapart q hold q' hold' hne addr

theorem Apart.unmapped {s s' : Vm W} {proc : ProcId} {r : RegionId} (h : Apart s proc)
    (hmap : Unmapped proc r s s') : Apart s' proc := by
  obtain ⟨idx, -, hproc⟩ := hmap.unlinked
  intro q hq q' hq'
  rw [hproc, Function.update_self] at hq hq'
  rw [hmap.region]
  exact h q (List.mem_of_mem_erase hq) q' (List.mem_of_mem_erase hq')

theorem Apart.remoded {s s' : Vm W} {proc : ProcId} {r : RegionId} {mode : UInt16}
    (h : Apart s proc) (hmode : Remoded r mode s s') : Apart s' proc := by
  have hsame : ∀ q addr, (s'.region q).Contains addr ↔ (s.region q).Contains addr := by
    intro q addr
    rw [hmode.region]
    by_cases hq : q = r
    · subst hq
      rw [Function.update_self]
      rfl
    · rw [Function.update_of_ne hq]
  intro q hq q' hq' hne addr
  rw [hmode.proc] at hq hq'
  rw [hsame, hsame]
  exact h q hq q' hq' hne addr

/-- A call that changes the regions of a process. -/
inductive RegionCall where
  | mmap (addr size mode : UInt32)
  | mmapFile (f : FsHandle) (offset addr size mode : UInt32)
  | munmap (addr : UInt32)
  | mchmap (addr mode : UInt32)
  deriving DecidableEq

/-- The call on a process. -/
def RegionCall.perform (m : Machine W) (proc : ProcId) : RegionCall → Call W Bool
  | .mmap addr size mode => Kernel.mmap m proc addr size mode
  | .mmapFile f offset addr size mode => Kernel.mmapFile m proc f offset addr size mode
  | .munmap addr => Kernel.munmap m proc addr
  | .mchmap addr mode => Kernel.mchmap m proc addr mode

/-- The call maps a range that passes the tests of the code although a region starts in it. -/
def RegionCall.Overlaps (s : Vm W) (proc : ProcId) : RegionCall → Prop
  | .mmap addr size _ =>
      s.lookup proc addr = none ∧ pageAligned addr = true ∧ badRange addr size = false ∧
        StartsInside s proc addr size
  | .mmapFile f offset addr size mode =>
      s.lookup proc addr = none ∧ pageAligned addr = true ∧ badRange addr size = false ∧
        pageAligned offset = true ∧ modeRefused f mode = false ∧ StartsInside s proc addr size
  | .munmap _ | .mchmap _ _ => False

/-- The runs of mapping calls on one process, from `new_process` on. -/
def regionRuns (m : Machine W) (proc : ProcId) (allowed : Vm W → RegionCall → Prop) :
    System (Vm W) where
  init := fun s => s.proc proc = Process.new
  step := fun s s' => ∃ call done, allowed s call ∧ call.perform m proc s = .ok (done, s')

section Runs

variable {m : Machine W} {proc : ProcId} {s s' : Vm W}

theorem indexed_of_new (h : s.proc proc = Process.new) : Indexed s proc := by
  constructor <;> rw [h]
  · rfl
  · exact List.nodup_nil
  · intro r hr
    cases hr
  · intro r hr
    cases hr
  · exact ⟨_, rfl, List.Pairwise.nil, List.Perm.refl _⟩

/-- Every mapping call keeps the index in order. -/
theorem indexed_step (h : Indexed s proc) {call : RegionCall} {done : Bool}
    (hrun : call.perform m proc s = .ok (done, s')) : Indexed s' proc := by
  cases call with
  | mmap addr size mode =>
      rcases mmap_cases hrun with ⟨-, hframe⟩ | ⟨-, r, reg, hmap, -⟩
      · exact h.frame hframe
      · exact h.added hmap
  | mmapFile f offset addr size mode =>
      rcases mmap_file_cases hrun with ⟨-, hframe⟩ | ⟨-, -, -, r, reg, hmap, -⟩
      · exact h.frame hframe
      · exact h.added hmap
  | munmap addr =>
      rcases munmap_cases hrun with ⟨-, hframe⟩ | ⟨-, r, -, hmap⟩
      · exact h.frame hframe
      · exact h.unmapped hmap
  | mchmap addr mode =>
      rcases mchmap_cases hrun with ⟨-, hframe⟩ | ⟨-, r, -, hmode, -⟩
      · exact h.frame hframe
      · exact h.remoded hmode

/-- A mapping call that does not overlap a region keeps the ranges apart. -/
theorem apart_step (h : Indexed s proc) (hapart : Apart s proc) {call : RegionCall}
    {done : Bool} (hclear : ¬ call.Overlaps s proc)
    (hrun : call.perform m proc s = .ok (done, s')) : Apart s' proc := by
  cases call with
  | mmap addr size mode =>
      rcases mmap_cases hrun with ⟨-, hframe⟩ | ⟨-, r, reg, hmap, rfl, rfl, -⟩
      · exact hapart.frame hframe
      · exact hapart.mapped h hmap fun hinside =>
          hclear ⟨hmap.unmapped, hmap.aligned, hmap.range, hinside⟩
  | mmapFile f offset addr size mode =>
      rcases mmap_file_cases hrun with
        ⟨-, hframe⟩ | ⟨-, hoffset, hmode, r, reg, hmap, rfl, rfl, -⟩
      · exact hapart.frame hframe
      · exact hapart.mapped h hmap fun hinside =>
          hclear ⟨hmap.unmapped, hmap.aligned, hmap.range, hoffset, hmode, hinside⟩
  | munmap addr =>
      rcases munmap_cases hrun with ⟨-, hframe⟩ | ⟨-, r, -, hmap⟩
      · exact hapart.frame hframe
      · exact hapart.unmapped hmap
  | mchmap addr mode =>
      rcases mchmap_cases hrun with ⟨-, hframe⟩ | ⟨-, r, -, hmode, -⟩
      · exact hapart.frame hframe
      · exact hapart.remoded hmode

/-- Every run keeps the index in order. -/
theorem indexed_of_reachable {allowed : Vm W → RegionCall → Prop}
    (h : Reachable (regionRuns m proc allowed) s) : Indexed s proc := by
  refine Reachable.induct (motive := (Indexed · proc)) (fun s hnew => indexed_of_new hnew)
    (fun s s' hinv hstep => ?_) h
  obtain ⟨call, done, -, hrun⟩ := hstep
  exact indexed_step hinv hrun

/-- The ranges are apart, and `find_user_region` gives a region that contains the address
exactly when there is one. -/
def RegionsExact (s : Vm W) (proc : ProcId) : Prop :=
  Apart s proc ∧ ∀ addr, ∃ found, findUserRegion proc addr s = .ok (found, s) ∧
    (∀ r, found = some r → r ∈ (s.proc proc).regions ∧ (s.region r).Contains addr.toNat) ∧
    (found.isSome ↔ ∃ r ∈ (s.proc proc).regions, (s.region r).Contains addr.toNat)

/-- Regions that are apart are found exactly. -/
theorem regions_exact_of_apart (h : Indexed s proc) (hapart : Apart s proc) :
    RegionsExact s proc := by
  refine ⟨hapart, fun addr => ⟨s.lookup proc addr, find_user_region_indexed h addr,
    fun r hr => contains_of_lookup h hr, fun hsome => ?_, fun ⟨r, hr, hcontains⟩ => ?_⟩⟩
  · obtain ⟨r, hr⟩ := Option.isSome_iff_exists.mp hsome
    exact ⟨r, contains_of_lookup h hr⟩
  · rw [lookup_of_contains h hapart hr hcontains]
    rfl

/-- In every run of mapping calls none of which maps a range in which a region starts, the
ranges stay apart and lookups are exact. -/
theorem clear_runs_exact (m : Machine W) (proc : ProcId) {s : Vm W}
    (h : Reachable (regionRuns m proc fun s call => ¬ call.Overlaps s proc) s) :
    RegionsExact s proc := by
  have hinv : Indexed s proc ∧ Apart s proc := by
    refine Reachable.induct (motive := fun s => Indexed s proc ∧ Apart s proc)
      (fun s hnew => ⟨indexed_of_new hnew, ?_⟩) ?_ h
    · intro r hr
      have hempty : (s.proc proc).regions = [] := congrArg Process.regions hnew
      rw [hempty] at hr
      cases hr
    · rintro s s' ⟨hindexed, hapart⟩ ⟨call, done, hclear, hrun⟩
      exact ⟨indexed_step hindexed hrun, apart_step hindexed hapart hclear hrun⟩
  exact regions_exact_of_apart hinv.1 hinv.2

/-- `clear_runs_exact` after two calls of `mmap`, the second below the first. -/
theorem clear_runs_exact_two_pages :
    ∃ s : Vm Unit, (s.proc 0).regions = [3, 1] ∧ RegionsExact s 0 := by
  obtain ⟨s, s', hfirst, hsecond, hone, haddr, htwo⟩ : ∃ s s' : Vm Unit,
      RegionCall.perform Machine.steady 0 (.mmap 0x4000 0x1000 3) Vm.blank = .ok (true, s) ∧
      RegionCall.perform Machine.steady 0 (.mmap 0x2000 0x1000 3) s = .ok (true, s') ∧
      (s.proc 0).regions = [1] ∧ (s.region 1).addr = 0x4000 ∧ (s'.proc 0).regions = [3, 1] :=
    ⟨_, _, rfl, rfl, rfl, rfl, rfl⟩
  have hclear : ¬ RegionCall.Overlaps Vm.blank 0 (.mmap 0x4000 0x1000 3) := by
    rintro ⟨-, -, -, r, hr, -⟩
    cases hr
  have hbelow : ¬ RegionCall.Overlaps s 0 (.mmap 0x2000 0x1000 3) := by
    rintro ⟨-, -, -, r, hr, hin⟩
    obtain rfl := List.mem_singleton.mp (hone ▸ hr)
    rw [haddr] at hin
    exact absurd hin (by decide)
  exact ⟨s', htwo, clear_runs_exact Machine.steady 0
    (.step (.step (.init (s := Vm.blank) rfl) ⟨.mmap 0x4000 0x1000 3, true, hclear, hfirst⟩)
      ⟨.mmap 0x2000 0x1000 3, true, hbelow, hsecond⟩)⟩

/-- A larger range mapped around a region that starts inside it overlaps that region, and its
bytes behind the region are no longer found. -/
theorem overlap_after_two_maps :
    ¬ ∀ s, Reachable (regionRuns Machine.steady 0 fun _ _ => True) s → RegionsExact s 0 := by
  intro hclaim
  obtain ⟨s, s', hfirst, hsecond, hregions, hregion, hfind⟩ : ∃ s s' : Vm Unit,
      RegionCall.perform Machine.steady 0 (.mmap 0x2000 0x1000 3) Vm.blank = .ok (true, s) ∧
      RegionCall.perform Machine.steady 0 (.mmap 0x1000 0x3000 3) s = .ok (true, s') ∧
      (s'.proc 0).regions = [3, 1] ∧ (s'.region 3).addr = 0x1000 ∧
      s'.lookup 0 0x3800 = none := ⟨_, _, rfl, rfl, rfl, rfl, rfl⟩
  have hsize : (s'.region 3).size = 0x3000 := by
    cases hfirst
    cases hsecond
    rfl
  have hreach : Reachable (regionRuns Machine.steady 0 fun _ _ => True) s' :=
    .step (.step (.init (s := Vm.blank) rfl) ⟨_, true, trivial, hfirst⟩) ⟨_, true, trivial, hsecond⟩
  obtain ⟨found, hfound, -, hiff⟩ := (hclaim s' hreach).2 0x3800
  rw [find_user_region_indexed (indexed_of_reachable hreach), hfind] at hfound
  cases hfound
  have hcontains : (s'.region 3).Contains (0x3800 : UInt32).toNat := by
    rw [UserRegion.Contains, hregion, hsize]
    decide
  have hsome := hiff.mpr ⟨3, by simp [hregions], hcontains⟩
  cases hsome

end Runs

end Kogata.Kernel
