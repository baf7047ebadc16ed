import Mathlib.Data.Fintype.Basic
import Kogata.Kernel.PageDirectory
import Kogata.Lib.Mask

/-!
# The mirrors of the page directories

Along a run in which no access to a table faults in the mirror, every directory keeps the mirror of
itself, so that what is done under one directory stays in it and in the half of the kernel
(`mirrors_kept`). After such a fault the handler has copied the mirror of the kernel
(`mirror_replaced`).
-/

namespace Kogata.Kernel.PageDirectory

open Lib Lib.PageTable Lib.Run

section Words

theorem pt_of_kernel {vaddr : UInt32} : kHighhalfAddr ≤ vaddr ↔ firstKernelPt ≤ ptOfAddr vaddr := by
  unfold ptOfAddr
  rw [UInt32.le_iff_toNat_le, UInt32.toNat_shiftRight]
  show 0xC0000000 ≤ vaddr.toNat ↔ 768 ≤ vaddr.toNat >>> 22
  rw [Nat.shiftRight_eq_div_pow]
  omega

theorem pt_of_mirror {vaddr : UInt32} : vaddr < pdMirrorAddr ↔ ptOfAddr vaddr < mirrorPt := by
  unfold ptOfAddr
  rw [UInt32.lt_iff_toNat_lt, UInt32.toNat_shiftRight]
  show vaddr.toNat < 0xFFC00000 ↔ vaddr.toNat >>> 22 < 1023
  rw [Nat.shiftRight_eq_div_pow]
  omega

theorem frame_of_entry {frame flags : UInt32} (hframe : frame.toNat < 2 ^ 20)
    (hflags : flags.toNat < 2 ^ 12) : frameOf (entryOf frame flags) = frame := by
  refine UInt32.toNat_inj.mp ?_
  unfold frameOf entryOf
  rw [UInt32.toNat_shiftRight, UInt32.toNat_or, UInt32.toNat_shiftLeft]
  show (frame.toNat <<< 12 % 2 ^ 32 ||| flags.toNat) >>> 12 = frame.toNat
  rw [Nat.shiftLeft_eq, Nat.mod_eq_of_lt (by omega), Nat.shiftRight_or_distrib,
    Nat.shiftRight_eq_div_pow, Nat.shiftRight_eq_div_pow, Nat.mul_div_cancel _ (by decide),
    Nat.div_eq_of_lt hflags, Nat.or_zero]

theorem entry_of_present {frame flags : UInt32} (h : flags &&& ptePresent ≠ 0) :
    entryOf frame flags &&& ptePresent ≠ 0 :=
  (Mask.within_or_right (frame <<< 12) flags).any h

theorem table_entry_frame {frame : UInt32} (vaddr : UInt32) (hframe : frame.toNat < 2 ^ 20) :
    tableEntry frame vaddr &&& ptePresent ≠ 0 ∧ frameOf (tableEntry frame vaddr) = frame := by
  unfold tableEntry
  split
  · exact ⟨entry_of_present (by decide), frame_of_entry hframe (by decide)⟩
  · exact ⟨entry_of_present (by decide), frame_of_entry hframe (by decide)⟩

theorem page_entry_frame {frame vaddr : UInt32} {rw : Bool} (hframe : frame.toNat < 2 ^ 20) :
    pageEntry frame vaddr rw &&& ptePresent ≠ 0 ∧ frameOf (pageEntry frame vaddr rw) = frame := by
  unfold pageEntry
  split
  · cases rw
    · exact ⟨entry_of_present (by decide), frame_of_entry hframe (by decide)⟩
    · exact ⟨entry_of_present (by decide), frame_of_entry hframe (by decide)⟩
  · cases rw
    · exact ⟨entry_of_present (by decide), frame_of_entry hframe (by decide)⟩
    · exact ⟨entry_of_present (by decide), frame_of_entry hframe (by decide)⟩

end Words

section Stores

variable {T : Type} {s s' : State T} {d f : UInt32} {i j : Nat} {word : UInt32}

theorem entry_eq_some : s.entry d i = some f ↔
    s.ram d i &&& ptePresent ≠ 0 ∧ frameOf (s.ram d i) = f := by
  unfold State.entry
  rw [Option.ite_none_right_eq_some, Option.some.injEq]

theorem entry_eq_none : s.entry d i = none ↔ s.ram d i &&& ptePresent = 0 := by
  unfold State.entry
  split
  · next h => exact iff_of_false nofun h
  · next h => exact iff_of_true rfl (not_not.mp h)

theorem entry_congr (h : s'.ram d i = s.ram d i) : s'.entry d i = s.entry d i := by
  unfold State.entry
  rw [h]

@[simp] theorem store_self : (s.store f i word).ram f i = word := by
  show Function.update s.ram f (Function.update (s.ram f) i word) f i = word
  rw [Function.update_self, Function.update_self]

theorem store_of_ne (h : ¬ (d = f ∧ j = i)) : (s.store f i word).ram d j = s.ram d j := by
  show Function.update s.ram f (Function.update (s.ram f) i word) d j = _
  by_cases hd : d = f
  · subst hd
    rw [Function.update_self, Function.update_of_ne fun hj => h ⟨rfl, hj⟩]
  · rw [Function.update_of_ne hd]

theorem clear_of_ne (h : d ≠ f) : (s.clear f).ram d = s.ram d :=
  Function.update_of_ne h ..

theorem set_use_of_ne {use : Use} (h : d ≠ f) : (s.setUse f use).use d = s.use d :=
  Function.update_of_ne h ..

@[simp] theorem set_use_self {use : Use} : (s.setUse f use).use f = use :=
  Function.update_self ..

end Stores

section Accesses

variable {T : Type} {s : State T} {d f vaddr : UInt32} {pt page : Nat}

theorem access_of_translate (h : translate s.entry d pt page = some f) :
    s.access d pt page = some (f, s) := by
  unfold State.access
  rw [h]

/-- Under a directory with its mirror, `current_pd` is the directory. -/
theorem State.Tables.current_pd (h : s.Tables) (hd : s.use d = .dir) :
    s.currentPd d = some (d, s) :=
  access_of_translate (translate_self (h.own d hd))

/-- Under a directory with its mirror, `current_pt` is the table in its entry. -/
theorem State.Tables.current_pt (h : s.Tables) (hd : s.use d = .dir)
    (hf : s.entry d pt = some f) : s.currentPt d pt = some (f, s) :=
  access_of_translate ((translate_mirror (h.own d hd) pt).trans hf)

theorem State.Tables.pd_of (h : s.Tables) (hd : s.use d = .dir) (vaddr : UInt32) :
    s.pdOf d vaddr = some (if vaddr ≥ kHighhalfAddr then s.kernelPd else d, s) := by
  unfold State.pdOf
  split
  · rfl
  · exact h.current_pd hd

/-- A table of a directory is used as such. -/
theorem State.Tables.use_of_entry (h : s.Tables) (hd : s.use d = .dir) (hpt : pt < mirrorPt)
    (hf : s.entry d pt = some f) : s.use f = .kernelTable ∨ s.use f = .userTable d := by
  by_cases hk : pt < firstKernelPt
  · exact .inr (h.users d hd pt hk f hf)
  · have hsame := h.kernels d hd pt (by omega) hpt f hf
    exact .inl (h.tables pt (by omega) hpt f ((entry_eq_some.mpr
      (hsame ▸ entry_eq_some.mp hf))))

end Accesses

section Tables

variable {T : Type} {s s' : State T} {d f pd vaddr : UInt32} {pt : Nat}

/-- Words of frames that are no directories do not matter, nor frames that are no tables. -/
theorem State.Tables.congr (h : s.Tables) (hkernel : s'.kernelPd = s.kernelPd)
    (hkernelDir : s'.use s.kernelPd = .dir)
    (hdir : ∀ f, s'.use f = .dir → s.use f = .dir ∧ s'.ram f = s.ram f)
    (huser : ∀ d f, s'.use d = .dir → s.use f = .userTable d → s'.use f = .userTable d)
    (htable : ∀ f, s.use f = .kernelTable → s'.use f = .kernelTable) : s'.Tables := by
  have hentry : ∀ d i, s'.use d = .dir → s'.entry d i = s.entry d i := fun d i hd =>
    entry_congr (congrFun (hdir d hd).2 i)
  refine ⟨?_, ?_, ?_, ?_, ?_, ?_⟩
  · rw [hkernel]
    exact hkernelDir
  · intro d hd
    rw [hentry d _ hd]
    exact h.own d (hdir d hd).1
  · intro d hd i hi f hf
    rw [hentry d _ hd] at hf
    exact huser d f hd (h.users d (hdir d hd).1 i hi f hf)
  · intro d hd i hi hlt f hf
    rw [hentry d _ hd] at hf
    rw [hkernel, (hdir d hd).2, (hdir _ hkernelDir).2]
    exact h.kernels d (hdir d hd).1 i hi hlt f hf
  · intro i hi hlt f hf
    rw [hkernel, hentry _ _ hkernelDir] at hf
    exact htable f (h.tables i hi hlt f hf)
  · intro i j hi hlt hj hltj f hf hf'
    rw [hkernel, hentry _ _ hkernelDir] at hf hf'
    exact h.apart i j hi hlt hj hltj f hf hf'

/-- A store into a frame that is no directory. -/
theorem State.Tables.store (h : s.Tables) (hf : s.use f ≠ .dir) (i : Nat) (word : UInt32) :
    (s.store f i word).Tables :=
  h.congr rfl h.kernel (fun _ hg => ⟨hg, funext fun _ => store_of_ne fun heq => hf (heq.1 ▸ hg)⟩)
    (fun _ _ _ => id) fun _ => id

/-- A frame that is neither a directory nor a table comes to another use, but not to that of a
directory. -/
theorem State.Tables.set_use (h : s.Tables) (hf : s.use f = .free ∨ s.use f = .makes) {use : Use}
    (huse : use ≠ .dir) : (s.setUse f use).Tables := by
  have hne : ∀ {g}, s.use g ≠ .free → s.use g ≠ .makes → (s.setUse f use).use g = s.use g := by
    intro g hfree hmakes
    refine set_use_of_ne fun heq => ?_
    rw [heq] at hfree hmakes
    exact hf.elim hfree hmakes
  refine h.congr rfl ?_ (fun g hg => ?_) (fun d g _ hg => ?_) fun g hg => ?_
  · rw [hne (by rw [h.kernel]; nofun) (by rw [h.kernel]; nofun)]
    exact h.kernel
  · by_cases hgf : g = f
    · rw [hgf, set_use_self] at hg
      exact absurd hg huse
    · rw [set_use_of_ne hgf] at hg
      exact ⟨hg, rfl⟩
  · rw [hne (by rw [hg]; nofun) (by rw [hg]; nofun)]
    exact hg
  · rw [hne (by rw [hg]; nofun) (by rw [hg]; nofun)]
    exact hg

/-- The handler copies a table of the kernel. -/
theorem State.Tables.copy (h : s.Tables) (hd : s.use d = .dir) (hpt : firstKernelPt ≤ pt)
    (hlt : pt < mirrorPt) : (s.store d pt (s.ram s.kernelPd pt)).Tables := by
  have hother : ∀ {g j}, ¬ (g = d ∧ j = pt) →
      (s.store d pt (s.ram s.kernelPd pt)).ram g j = s.ram g j := fun hne => store_of_ne hne
  have hkernel : ∀ j, (s.store d pt (s.ram s.kernelPd pt)).ram s.kernelPd j =
      s.ram s.kernelPd j := fun j => by
    by_cases heq : s.kernelPd = d ∧ j = pt
    · obtain ⟨rfl, rfl⟩ := heq
      exact store_self
    · exact hother heq
  refine ⟨h.kernel, fun g hg => ?_, fun g hg i hi f hf => ?_, fun g hg i hi hlt' f hf => ?_,
    fun i hi hlt' f hf => ?_, fun i j hi hi' hj hj' f hf hf' => ?_⟩
  · rw [entry_congr (hother fun heq => by omega)]
    exact h.own g hg
  · rw [entry_congr (hother fun heq => by omega)] at hf
    exact h.users g hg i hi f hf
  · refine Eq.trans ?_ (hkernel i).symm
    by_cases heq : g = d ∧ i = pt
    · obtain ⟨rfl, rfl⟩ := heq
      exact store_self
    · rw [entry_congr (hother heq)] at hf
      rw [hother heq]
      exact h.kernels g hg i hi hlt' f hf
  · exact h.tables i hi hlt' f (entry_congr (hkernel i) ▸ hf)
  · exact h.apart i j hi hi' hj hj' f (entry_congr (hkernel i) ▸ hf)
      (entry_congr (hkernel j) ▸ hf')

/-- A new table, cleared, in an entry of `kernel_pd` or `current_pd` and of the latter. -/
def State.addTable (s : State T) (pd d f : UInt32) (pt : Nat) (word : UInt32) (use : Use) :
    State T :=
  (((s.store pd pt word).store d pt word).clear f).setUse f use

variable {word : UInt32} {use : Use}

theorem add_table_ram {g : UInt32} {j : Nat} (hg : g ≠ f) :
    (s.addTable pd d f pt word use).ram g j =
      if (g = d ∨ g = pd) ∧ j = pt then word else s.ram g j := by
  refine (congrFun (clear_of_ne hg) j).trans ?_
  split
  · next h =>
      obtain ⟨rfl | rfl, rfl⟩ := h
      · exact store_self
      · by_cases heq : g = d
        · rw [heq]
          exact store_self
        · exact (store_of_ne fun h => heq h.1).trans store_self
  · next h =>
      refine (store_of_ne fun heq => h ⟨.inl heq.1, heq.2⟩).trans
        (store_of_ne fun heq => h ⟨.inr heq.1, heq.2⟩)

theorem add_table_use {g : UInt32} (hg : g ≠ f) :
    (s.addTable pd d f pt word use).use g = s.use g :=
  set_use_of_ne hg

/-- The entries of the directories after that. -/
theorem add_table_entry (hf : s.use f ≠ .dir)
    (hword : word &&& ptePresent ≠ 0 ∧ frameOf word = f) {g e : UInt32} (hg : s.use g = .dir)
    {j : Nat} (he : (s.addTable pd d f pt word use).entry g j = some e) :
    ((g = d ∨ g = pd) ∧ j = pt ∧ e = f) ∨ s.entry g j = some e := by
  have hgf : g ≠ f := fun heq => hf (heq ▸ hg)
  by_cases h : (g = d ∨ g = pd) ∧ j = pt
  · rw [entry_eq_some, add_table_ram hgf, if_pos h, hword.2] at he
    exact .inl ⟨h.1, h.2, he.2.symm⟩
  · rw [entry_congr (s := s) (by rw [add_table_ram hgf, if_neg h])] at he
    exact .inr he

/-- The other frames are used as before. -/
theorem add_table_uses (hf : s.use f = .free) (huse : use ≠ .dir) :
    (∀ g, (s.addTable pd d f pt word use).use g = .dir → s.use g = .dir ∧ g ≠ f) ∧
      ∀ g u, s.use g = u → u ≠ .free → (s.addTable pd d f pt word use).use g = u := by
  refine ⟨fun g hg => ?_, fun g u hg hu => ?_⟩
  · by_cases heq : g = f
    · rw [heq] at hg
      exact absurd (set_use_self.symm.trans hg) huse
    · rw [add_table_use heq] at hg
      exact ⟨hg, heq⟩
  · rw [add_table_use fun heq => hu (by rw [← hg, heq, hf])]
    exact hg

/-- A table of a directory for the user half. -/
theorem State.Tables.add_user (h : s.Tables) (hf : s.use f = .free)
    (hword : word &&& ptePresent ≠ 0 ∧ frameOf word = f) (hpt : pt < firstKernelPt) :
    (s.addTable d d f pt word (.userTable d)).Tables := by
  have hnot : s.use f ≠ .dir := by rw [hf]; nofun
  have hne : ∀ {g}, s.use g = .dir → g ≠ f := fun hg heq => hnot (heq ▸ hg)
  obtain ⟨hdir, htable⟩ := add_table_uses (d := d) (f := f) hf
    (Use.noConfusion : Use.userTable d ≠ .dir)
  have hsame : ∀ {g j}, s.use g = .dir → firstKernelPt ≤ j →
      (s.addTable d d f pt word (.userTable d)).ram g j = s.ram g j := fun hg hj => by
    rw [add_table_ram (hne hg), if_neg fun heq => by omega]
  refine ⟨htable _ _ h.kernel nofun, fun g hg => ?_, fun g hg i hi e he => ?_,
    fun g hg i hi hlt e he => ?_, fun i hi hlt e he => ?_, fun i j hi hi' hj hj' e he he' => ?_⟩
  · rw [entry_congr (hsame (hdir g hg).1 (by decide))]
    exact h.own g (hdir g hg).1
  · rcases add_table_entry hnot hword (hdir g hg).1 he with ⟨hgd, -, rfl⟩ | hold
    · rw [or_self_iff.mp hgd]
      exact set_use_self
    · exact htable _ _ (h.users g (hdir g hg).1 i hi e hold) nofun
  · rw [entry_congr (hsame (hdir g hg).1 hi)] at he
    rw [hsame (hdir g hg).1 hi]
    exact (h.kernels g (hdir g hg).1 i hi hlt e he).trans (hsame h.kernel hi).symm
  · exact htable _ _ (h.tables i hi hlt e (entry_congr (hsame h.kernel hi) ▸ he)) nofun
  · exact h.apart i j hi hi' hj hj' e (entry_congr (hsame h.kernel hi) ▸ he)
      (entry_congr (hsame h.kernel hj) ▸ he')

/-- A table of the kernel where there was none. -/
theorem State.Tables.add_kernel (h : s.Tables) (hf : s.use f = .free)
    (hword : word &&& ptePresent ≠ 0 ∧ frameOf word = f) (hpt : firstKernelPt ≤ pt)
    (hlt : pt < mirrorPt) (hnone : s.entry s.kernelPd pt = none) :
    (s.addTable s.kernelPd d f pt word .kernelTable).Tables := by
  have hnot : s.use f ≠ .dir := by rw [hf]; nofun
  have hne : ∀ {g}, s.use g = .dir → g ≠ f := fun hg heq => hnot (heq ▸ hg)
  obtain ⟨hdir, htable⟩ := add_table_uses (d := d) (f := f) hf (by decide : Use.kernelTable ≠ .dir)
  have hsame : ∀ {g j}, s.use g = .dir → j ≠ pt →
      (s.addTable s.kernelPd d f pt word .kernelTable).ram g j = s.ram g j := fun hg hj => by
    rw [add_table_ram (hne hg), if_neg fun heq => hj heq.2]
  have hself : (s.addTable s.kernelPd d f pt word .kernelTable).ram s.kernelPd pt = word := by
    rw [add_table_ram (hne h.kernel), if_pos ⟨.inr rfl, rfl⟩]
  have hunused : ∀ i, firstKernelPt ≤ i → i < mirrorPt → s.entry s.kernelPd i ≠ some f := by
    intro i hi hi' he
    have huse := h.tables i hi hi' f he
    rw [hf] at huse
    cases huse
  refine ⟨htable _ _ h.kernel nofun, fun g hg => ?_, fun g hg i hi e he => ?_,
    fun g hg i hi hi' e he => ?_, fun i hi hi' e he => ?_, fun i j hi hi' hj hj' e he he' => ?_⟩
  · rw [entry_congr (hsame (hdir g hg).1 (by omega))]
    exact h.own g (hdir g hg).1
  · rw [entry_congr (hsame (hdir g hg).1 (by omega))] at he
    exact htable _ _ (h.users g (hdir g hg).1 i hi e he) nofun
  · show _ = (s.addTable s.kernelPd d f pt word .kernelTable).ram s.kernelPd i
    rcases add_table_entry hnot hword (hdir g hg).1 he with ⟨hgd, rfl, -⟩ | hold
    · rw [hself, add_table_ram (hdir g hg).2, if_pos ⟨hgd, rfl⟩]
    · -- No directory had a table there that the kernel did not have.
      have hne : i ≠ pt := by
        rintro rfl
        have hram := h.kernels g (hdir g hg).1 i hi hi' e hold
        rw [entry_eq_none, ← hram] at hnone
        exact (entry_eq_some.mp hold).1 hnone
      rw [hsame (hdir g hg).1 hne, hsame h.kernel hne]
      exact h.kernels g (hdir g hg).1 i hi hi' e hold
  · rcases add_table_entry hnot hword h.kernel he with ⟨-, -, rfl⟩ | hold
    · exact set_use_self
    · exact htable _ _ (h.tables i hi hi' e hold) nofun
  · rcases add_table_entry hnot hword h.kernel he with ⟨-, rfl, rfl⟩ | hold
    · rcases add_table_entry hnot hword h.kernel he' with ⟨-, rfl, -⟩ | hold'
      · rfl
      · exact absurd hold' (hunused j hj hj')
    · rcases add_table_entry hnot hword h.kernel he' with ⟨-, -, rfl⟩ | hold'
      · exact absurd hold (hunused i hi hi')
      · exact h.apart i j hi hi' hj hj' e hold hold'

/-- The stores of `create_pagedir` have come to the word `n`. -/
def State.Partial (s : State T) (pd : UInt32) (n : Nat) : Prop :=
  ∀ j < n, (j < firstKernelPt → s.ram pd j = 0) ∧ (firstKernelPt ≤ j → j < mirrorPt →
    ∀ f, s.entry pd j = some f → s.ram pd j = s.ram s.kernelPd j)

theorem State.Partial.congr {n : Nat} (h : s.Partial pd n) (hkernel : s'.kernelPd = s.kernelPd)
    (hram : s'.ram pd = s.ram pd)
    (hkept : ∀ j f, firstKernelPt ≤ j → j < mirrorPt → s.entry s.kernelPd j = some f →
      s'.ram s.kernelPd j = s.ram s.kernelPd j) : s'.Partial pd n := by
  intro j hj
  refine ⟨fun hlt => ?_, fun hle hlt f hf => ?_⟩
  · rw [hram]
    exact (h j hj).1 hlt
  · rw [entry_congr (congrFun hram j)] at hf
    have hcopy := (h j hj).2 hle hlt f hf
    have hentry : s.entry s.kernelPd j = some f :=
      entry_eq_some.mpr (hcopy ▸ entry_eq_some.mp hf)
    rw [hram, hkernel, hkept j f hle hlt hentry]
    exact hcopy

/-- `create_pagedir` returns the new directory. -/
theorem State.Tables.created (h : s.Tables) (hmakes : s.use pd = .makes) (hpart : s.Partial pd 1024)
    (hown : s.entry pd mirrorPt = some pd) : (s.setUse pd .dir).Tables := by
  have hcases : ∀ g, (s.setUse pd .dir).use g = .dir → g = pd ∨ s.use g = .dir := by
    intro g hg
    by_cases heq : g = pd
    · exact .inl heq
    · rw [set_use_of_ne heq] at hg
      exact .inr hg
  have htable : ∀ g u, s.use g = u → u ≠ .makes → (s.setUse pd .dir).use g = u := by
    intro g u hg hu
    rw [set_use_of_ne fun heq => hu (by rw [← hg, heq, hmakes])]
    exact hg
  refine ⟨htable _ _ h.kernel nofun, fun g hg => ?_, fun g hg i hi e he => ?_,
    fun g hg i hi hlt e he => ?_, fun i hi hlt e he => ?_, h.apart⟩
  · rcases hcases g hg with rfl | hold
    · exact hown
    · exact h.own g hold
  · rcases hcases g hg with rfl | hold
    · have hzero := (hpart i (Nat.lt_trans hi (by decide))).1 hi
      have hpresent := (entry_eq_some.mp he).1
      change s.ram g i &&& ptePresent ≠ 0 at hpresent
      rw [hzero] at hpresent
      exact absurd UInt32.zero_and hpresent
    · exact htable _ _ (h.users g hold i hi e he) nofun
  · rcases hcases g hg with rfl | hold
    · exact (hpart i (Nat.lt_trans hlt (by decide))).2 hi hlt e he
    · exact h.kernels g hold i hi hlt e he
  · exact htable _ _ (h.tables i hi hlt e he) nofun

end Tables

section Sound

variable {T : Type} {s s' : State T} {d f pd vaddr : UInt32} {pt : Nat} {pc : Pc} {t : T}

/-- The directory that the thread makes. -/
def Pc.makes : Pc → Option UInt32
  | .mapTest call | .mapAlloc call | .mapStore call =>
      if call.creates then some call.frameId else none
  | .unmapTest call | .unmapLook call | .unmapClear call => call.created
  | .fill pd _ _ => some pd
  | .idle | .getTest _ | .getLook _ | .getLoad _ => none

/-- What a thread under the directory `d` relies on. -/
def State.Making (s : State T) (d : UInt32) : Pc → Prop
  | .idle => True
  | .getTest vaddr | .getLook vaddr | .getLoad vaddr => vaddr < pdMirrorAddr
  | .unmapTest call | .unmapLook call | .unmapClear call => call.vaddr < pdMirrorAddr ∧
      ∀ pd, call.created = some pd →
        s.use pd = .makes ∧ s.Partial pd 1024 ∧ s.entry pd mirrorPt = some pd
  | .mapTest call | .mapAlloc call | .mapStore call => call.vaddr < pdMirrorAddr ∧
      (call.creates = true → kHighhalfAddr ≤ call.vaddr ∧ s.use call.frameId = .makes ∧
        call.frameId.toNat < 2 ^ 20)
  | .fill pd temp i => kHighhalfAddr ≤ temp ∧ temp < pdMirrorAddr ∧ s.use pd = .makes ∧
      pd.toNat < 2 ^ 20 ∧ i < 1280 ∧
      translate s.entry d (ptOfAddr temp) (pageOfAddr temp) = some pd ∧ s.Partial pd (min i 1024)

/-- A thread that makes a directory has its frame. -/
theorem State.Making.use_makes (h : s.Making d pc) (hpd : pc.makes = some pd) :
    s.use pd = .makes := by
  cases pc with
  | idle | getTest | getLook | getLoad => cases hpd
  | unmapTest call | unmapLook call | unmapClear call => exact (h.2 pd hpd).1
  | mapTest call | mapAlloc call | mapStore call =>
      obtain ⟨hcreates, hframe⟩ := Option.ite_none_right_eq_some.mp hpd
      cases hframe
      exact (h.2 hcreates).2.1
  | fill pd' temp i =>
      cases hpd
      exact h.2.2.1

/-- What a thread relies on does not change with the words of others. -/
theorem State.Making.congr (h : s.Making d pc) (hkernel : s'.kernelPd = s.kernelPd)
    (huse : ∀ f, pc.makes = some f → s'.use f = .makes)
    (hram : ∀ f, pc.makes = some f → s'.ram f = s.ram f)
    (hkept : ∀ j f, firstKernelPt ≤ j → j < mirrorPt → s.entry s.kernelPd j = some f →
      s'.ram s.kernelPd j = s.ram s.kernelPd j)
    (hwindow : ∀ pd temp i, pc = .fill pd temp i →
      translate s.entry d (ptOfAddr temp) (pageOfAddr temp) = some pd →
      translate s'.entry d (ptOfAddr temp) (pageOfAddr temp) = some pd) : s'.Making d pc := by
  cases pc with
  | idle | getTest | getLook | getLoad => exact h
  | unmapTest call | unmapLook call | unmapClear call =>
      refine ⟨h.1, fun pd hpd => ?_⟩
      obtain ⟨-, hpart, hown⟩ := h.2 pd hpd
      refine ⟨huse pd hpd, hpart.congr hkernel (hram pd hpd) hkept, ?_⟩
      rw [entry_congr (congrFun (hram pd hpd) _)]
      exact hown
  | mapTest call | mapAlloc call | mapStore call =>
      refine ⟨h.1, fun hcreates => ?_⟩
      obtain ⟨hle, -, hsmall⟩ := h.2 hcreates
      exact ⟨hle, huse _ (if_pos hcreates), hsmall⟩
  | fill pd temp i =>
      obtain ⟨hle, hlt, -, hsmall, hi, htranslate, hpart⟩ := h
      exact ⟨hle, hlt, huse pd rfl, hsmall, hi, hwindow pd temp i rfl htranslate,
        hpart.congr hkernel (hram pd rfl) hkept⟩

/-- The invariant. -/
structure State.Sound (s : State T) : Prop extends s.Tables where
  current : ∀ t, s.use (s.cr3 t) = .dir
  making : ∀ t, s.Making (s.cr3 t) (s.thread t)
  alone : ∀ t u p, (s.thread t).kernelPage = some p → (s.thread u).kernelPage = some p → t = u
  distinct : ∀ t u pd, (s.thread t).makes = some pd → (s.thread u).makes = some pd → t = u

/-- The table behind a page of the kernel is the one in `kernel_pd`. -/
theorem State.Tables.kernel_entry (h : s.Tables) (hd : s.use d = .dir) (hle : firstKernelPt ≤ pt)
    (hlt : pt < mirrorPt) (hf : s.entry d pt = some f) :
    s.entry s.kernelPd pt = some f ∧ s.use f = .kernelTable := by
  have hsame := h.kernels d hd pt hle hlt f hf
  have hentry : s.entry s.kernelPd pt = some f :=
    entry_eq_some.mpr (hsame ▸ entry_eq_some.mp hf)
  exact ⟨hentry, h.tables pt hle hlt f hentry⟩

/-- What another thread relies on does not change when its directory, the tables of the kernel that
there are, and its page in one of them do not change. -/
theorem State.Sound.keeps (h : s.Sound) (u : T) (hkernel : s'.kernelPd = s.kernelPd)
    (hmakes : ∀ f, s.use f = .makes → (s.thread u).makes = some f →
      s'.use f = .makes ∧ s'.ram f = s.ram f)
    (hentry : ∀ g i f, s.use g = .dir → firstKernelPt ≤ i → i < mirrorPt → s.entry g i = some f →
      s'.ram g i = s.ram g i)
    (hpage : ∀ pd temp i, s.thread u = .fill pd temp i → ∀ f, s.use f = .kernelTable →
      s.entry (s.cr3 u) (ptOfAddr temp) = some f →
        s'.ram f (pageOfAddr temp) = s.ram f (pageOfAddr temp)) :
    s'.Making (s.cr3 u) (s.thread u) := by
  have hmaking := h.making u
  refine hmaking.congr hkernel (fun f hf => (hmakes f (hmaking.use_makes hf) hf).1)
    (fun f hf => (hmakes f (hmaking.use_makes hf) hf).2)
    (fun j f hle hlt hf => hentry _ j f h.kernel hle hlt hf) fun pd temp i hpc htranslate => ?_
  rw [hpc] at hmaking
  have hle := pt_of_kernel.mp hmaking.1
  have hlt := pt_of_mirror.mp hmaking.2.1
  obtain ⟨table, htable, hframe⟩ := translate_eq_some.mp htranslate
  obtain ⟨-, huse⟩ := h.kernel_entry (h.current u) hle hlt htable
  refine translate_eq_some.mpr ⟨table, ?_, ?_⟩
  · rw [entry_congr (hentry _ _ table (h.current u) hle hlt htable)]
    exact htable
  · rw [entry_congr (hpage pd temp i hpc table huse htable)]
    exact hframe

variable [DecidableEq T]

/-- What no two threads have, no two threads have once one has come to another place. -/
theorem alone_goto {β : Type} {label : Pc → Option β}
    (halone : ∀ t u p, label (s.thread t) = some p → label (s.thread u) = some p → t = u)
    (hthread : s'.thread = s.thread)
    (hnew : ∀ u p, u ≠ t → label pc = some p → label (s.thread u) ≠ some p) (u v : T) (p : β)
    (hu : label ((s'.goto t pc).thread u) = some p)
    (hv : label ((s'.goto t pc).thread v) = some p) : u = v := by
  change label (Function.update s'.thread t pc u) = some p at hu
  change label (Function.update s'.thread t pc v) = some p at hv
  rw [hthread] at hu hv
  by_cases hut : u = t
  · by_cases hvt : v = t
    · rw [hut, hvt]
    · rw [hut, Function.update_self] at hu
      rw [Function.update_of_ne hvt] at hv
      exact absurd hv (hnew v p hvt hu)
  · rw [Function.update_of_ne hut] at hu
    by_cases hvt : v = t
    · rw [hvt, Function.update_self] at hv
      exact absurd hu (hnew u p hut hv)
    · rw [Function.update_of_ne hvt] at hv
      exact halone u v p hu hv

/-- A thread is at another place after a change that the others do not notice. -/
theorem State.Sound.after (h : s.Sound) (htables : s'.Tables) (hcr3 : s'.cr3 = s.cr3)
    (hthread : s'.thread = s.thread) (hcurrent : ∀ u, s'.use (s.cr3 u) = .dir)
    (hkept : ∀ u, u ≠ t → s'.Making (s.cr3 u) (s.thread u)) (hpc : s'.Making (s.cr3 t) pc)
    (hpage : ∀ u p, u ≠ t → pc.kernelPage = some p → (s.thread u).kernelPage ≠ some p)
    (hmakes : ∀ u pd, u ≠ t → pc.makes = some pd → (s.thread u).makes ≠ some pd) :
    (s'.goto t pc).Sound := by
  refine { htables with
    current := fun u => ?_, making := fun u => ?_, alone := alone_goto h.alone hthread hpage,
    distinct := alone_goto h.distinct hthread hmakes }
  · show s'.use (s'.cr3 u) = .dir
    rw [hcr3]
    exact hcurrent u
  · show s'.Making (s'.cr3 u) _
    rw [hcr3]
    change s'.Making (s.cr3 u) (Function.update s'.thread t pc u)
    by_cases hut : u = t
    · rw [hut, Function.update_self]
      exact hpc
    · rw [Function.update_of_ne hut, hthread]
      exact hkept u hut

omit [DecidableEq T] in
/-- A place with nothing, or with what the thread had, has nothing of another thread. -/
theorem alone_same {β : Type} {label : Pc → Option β}
    (halone : ∀ t u p, label (s.thread t) = some p → label (s.thread u) = some p → t = u)
    (hsame : label pc = none ∨ label pc = label (s.thread t)) (u : T) (p : β) (hu : u ≠ t)
    (hp : label pc = some p) : label (s.thread u) ≠ some p := by
  intro hup
  rcases hsame with hnone | hsame
  · rw [hnone] at hp
    cases hp
  · exact hu (halone u t p hup (hsame ▸ hp))

/-- A thread goes on and changes nothing. -/
theorem State.Sound.goto (h : s.Sound) (hpc : s.Making (s.cr3 t) pc)
    (hpage : pc.kernelPage = none ∨ pc.kernelPage = (s.thread t).kernelPage)
    (hmakes : pc.makes = none ∨ pc.makes = (s.thread t).makes) : (s.goto t pc).Sound :=
  h.after h.toTables rfl rfl h.current (fun u _ => h.making u) hpc (alone_same h.alone hpage)
    (alone_same h.distinct hmakes)

omit [DecidableEq T] in
/-- Two threads do not come to the same word of a table of the kernel. -/
theorem State.Sound.window (h : s.Sound) (hlt : vaddr < pdMirrorAddr)
    (hf : s.entry (s.cr3 t) (ptOfAddr vaddr) = some f)
    (hpage : kHighhalfAddr ≤ vaddr →
      (s.thread t).kernelPage = some (ptOfAddr vaddr, pageOfAddr vaddr)) {u : T} (hu : u ≠ t)
    {pd' temp : UInt32} {i : Nat} (hpc : s.thread u = .fill pd' temp i)
    (hentry : s.entry (s.cr3 u) (ptOfAddr temp) = some f) :
    pageOfAddr temp ≠ pageOfAddr vaddr := by
  intro hsame
  have hmaking := h.making u
  rw [hpc] at hmaking
  have hle := pt_of_kernel.mp hmaking.1
  have hlt' := pt_of_mirror.mp hmaking.2.1
  obtain ⟨hkernel, huse⟩ := h.kernel_entry (h.current u) hle hlt' hentry
  have hhigh : firstKernelPt ≤ ptOfAddr vaddr := by
    by_contra hlow
    have huser := h.users _ (h.current t) _ (Nat.lt_of_not_le hlow) f hf
    rw [huse] at huser
    cases huser
  obtain ⟨hkernel', -⟩ := h.kernel_entry (h.current t) hhigh (pt_of_mirror.mp hlt) hf
  have hpt := h.apart _ _ hle hlt' hhigh (pt_of_mirror.mp hlt) f hkernel hkernel'
  refine hu (h.alone u t (ptOfAddr vaddr, pageOfAddr vaddr) ?_ (hpage (pt_of_kernel.mpr hhigh)))
  rw [hpc]
  exact congrArg some (Prod.ext hpt hsame)

/-- A thread stores an entry of a table. -/
theorem State.Sound.store_entry (h : s.Sound) (hlt : vaddr < pdMirrorAddr)
    (hf : s.entry (s.cr3 t) (ptOfAddr vaddr) = some f)
    (hwindow : kHighhalfAddr ≤ vaddr →
      (s.thread t).kernelPage = some (ptOfAddr vaddr, pageOfAddr vaddr)) {word : UInt32}
    (hpc : (s.store f (pageOfAddr vaddr) word).Making (s.cr3 t) pc)
    (hpage : pc.kernelPage = none ∨ pc.kernelPage = (s.thread t).kernelPage)
    (hmakes : pc.makes = none ∨ pc.makes = (s.thread t).makes) :
    ((s.store f (pageOfAddr vaddr) word).goto t pc).Sound := by
  have huse := h.use_of_entry (h.current t) (pt_of_mirror.mp hlt) hf
  have hdir : s.use f ≠ .dir := fun hd => by
    rw [hd] at huse
    exact huse.elim nofun nofun
  refine h.after (h.store hdir _ _) rfl rfl h.current (fun u hu => ?_) hpc (alone_same h.alone hpage)
    (alone_same h.distinct hmakes)
  refine h.keeps u rfl (fun g hg _ => ⟨hg, ?_⟩) (fun g i e hg _ _ _ => ?_)
    fun pd' temp i hfill g _ hentry => ?_
  · refine funext fun j => store_of_ne fun heq => ?_
    rw [← heq.1, hg] at huse
    exact huse.elim nofun nofun
  · exact store_of_ne fun heq => hdir (heq.1 ▸ hg)
  · refine store_of_ne fun heq => ?_
    exact h.window hlt hf hwindow hu hfill (heq.1 ▸ hentry) heq.2

end Sound

section Steps

variable {T : Type} [DecidableEq T] {s s' : State T} {d f pd vaddr : UInt32} {pt : Nat} {pc : Pc}
  {t : T} {absent : State T → State T} {next : Pc}

/-- The user halves of the directories that the thread is not under are as before. -/
def State.OthersKept (s s' : State T) (t : T) : Prop :=
  ∀ d, s.use d = .dir → d ≠ s.cr3 t → ∀ i < firstKernelPt, s'.ram d i = s.ram d i

theorem State.Sound.test_table (h : s.Sound) (t : T) (vaddr : UInt32) :
    testTable t s vaddr absent next = some (absent s) ∨
      testTable t s vaddr absent next = some (s.goto t next) := by
  unfold testTable
  rw [h.pd_of (h.current t) vaddr, Option.map_some]
  generalize (if vaddr ≥ kHighhalfAddr then s.kernelPd else s.cr3 t) = pd
  dsimp only
  split
  · exact .inl rfl
  · exact .inr rfl

theorem State.Sound.test_page (h : s.Sound) (hf : s.entry (s.cr3 t) (ptOfAddr vaddr) = some f) :
    testPage t s vaddr absent next = some (absent s) ∨
      testPage t s vaddr absent next = some (s.goto t next) := by
  unfold testPage
  rw [h.current_pt (h.current t) hf, Option.map_some]
  dsimp only
  split
  · exact .inl rfl
  · exact .inr rfl

omit [DecidableEq T] in
/-- A step that does not fault in the mirror finds its table. -/
theorem table_of_not_faults (vaddr : UInt32) (hfault : ¬ MirrorFaults s (.step t))
    (hlooks : (s.thread t).looksAt = some vaddr) :
    ∃ f, s.entry (s.cr3 t) (ptOfAddr vaddr) = some f :=
  Option.ne_none_iff_exists'.mp fun hnone => hfault ⟨vaddr, hlooks, hnone⟩

/-- The end of `pd_unmap_page`. -/
theorem State.Sound.unmap_done (h : s.Sound) (call : UnmapCall)
    (hmakes : (s.thread t).makes = call.created)
    (hmaking : s.Making (s.cr3 t) (.unmapTest call)) : (unmapDone t call s).Sound := by
  unfold unmapDone
  cases hcreated : call.created with
  | none => exact h.goto trivial (.inl rfl) (.inl rfl)
  | some pd =>
      obtain ⟨huse, hpart, hown⟩ := hmaking.2 pd hcreated
      refine h.after (h.toTables.created huse hpart hown) rfl rfl (fun u => ?_) (fun u hu => ?_)
        trivial (alone_same h.alone (.inl rfl)) (alone_same h.distinct (.inl rfl))
      · by_cases heq : s.cr3 u = pd
        · rw [heq]
          exact set_use_self
        · rw [set_use_of_ne heq]
          exact h.current u
      · refine h.keeps u rfl (fun f hf hfu => ⟨?_, rfl⟩) (fun _ _ _ _ _ _ _ => rfl)
          fun _ _ _ _ _ _ _ => rfl
        rw [set_use_of_ne fun heq => ?_]
        · exact hf
        · exact hu (h.distinct u t pd (heq ▸ hfu) (hmakes.trans hcreated))

theorem goto_goto (s : State T) (t : T) (pc pc' : Pc) :
    (s.goto t pc).goto t pc' = s.goto t pc' :=
  congrArg (fun thread => { s with thread := thread }) (Function.update_idem ..)

theorem unmap_done_goto (call : UnmapCall) (s : State T) :
    unmapDone t call (s.goto t pc) = unmapDone t call s := by
  unfold unmapDone
  cases call.created with
  | none => exact goto_goto s t pc .idle
  | some pd => exact goto_goto (s.setUse pd .dir) t pc .idle

theorem unmap_done_ram (call : UnmapCall) (s : State T) : (unmapDone t call s).ram = s.ram := by
  unfold unmapDone
  split
  · rfl
  · rfl

/-- `pd_map_page` fails. -/
theorem State.Sound.map_fails (h : s.Sound) {call : MapCall} (hpc : s.thread t = .mapAlloc call) :
    (mapFails t call s).Sound := by
  unfold mapFails
  have hmaking := h.making t
  rw [hpc] at hmaking
  split
  · next hcreates =>
      have huse := (hmaking.2 hcreates).2.1
      refine h.after (h.toTables.set_use (.inr huse) nofun) rfl rfl (fun u => ?_)
        (fun u hu => ?_) trivial (alone_same h.alone (.inl rfl)) (alone_same h.distinct (.inl rfl))
      · rw [set_use_of_ne fun heq => ?_]
        · exact h.current u
        · have hdir := h.current u
          rw [heq, huse] at hdir
          cases hdir
      · refine h.keeps u rfl (fun f hf hfu => ⟨?_, rfl⟩) (fun _ _ _ _ _ _ _ => rfl)
          fun _ _ _ _ _ _ _ => rfl
        rw [set_use_of_ne fun heq => ?_]
        · exact hf
        · refine hu (h.distinct u t f hfu ?_)
          rw [hpc, heq]
          exact if_pos hcreates
  · exact h.goto trivial (.inl rfl) (.inl rfl)

omit [DecidableEq T] in
/-- A store of `create_pagedir` brings the new directory one word further. -/
theorem State.Partial.fill {i : Nat} (h : s.Partial pd (min i 1024)) (hne : s.kernelPd ≠ pd) :
    (s.store pd (fillWord s pd i).1 (fillWord s pd i).2).Partial pd (min (i + 1) 1024) := by
  generalize hfill : fillWord s pd i = place
  obtain ⟨j, word⟩ := place
  have hkernel : ∀ k, (s.store pd j word).ram s.kernelPd k = s.ram s.kernelPd k := fun k =>
    store_of_ne fun heq => hne heq.1
  have hold : ∀ k, k ≠ j → k < min i 1024 →
      (k < firstKernelPt → (s.store pd j word).ram pd k = 0) ∧
        (firstKernelPt ≤ k → k < mirrorPt → ∀ f, (s.store pd j word).entry pd k = some f →
          (s.store pd j word).ram pd k = (s.store pd j word).ram s.kernelPd k) := by
    intro k hk hlt
    have hsame : (s.store pd j word).ram pd k = s.ram pd k := store_of_ne fun heq => hk heq.2
    rw [entry_congr hsame, hsame, hkernel k]
    exact h k hlt
  unfold fillWord at hfill
  intro k hk
  show _ ∧ (_ → _ → ∀ f, _ → (s.store pd j word).ram pd k = (s.store pd j word).ram s.kernelPd k)
  by_cases hkj : k = j
  · subst hkj
    rw [store_self, hkernel]
    split at hfill
    · -- a zero
      obtain ⟨-, rfl⟩ := Prod.mk.inj hfill
      refine ⟨fun _ => rfl, fun _ _ f hf => ?_⟩
      rw [entry_eq_some, store_self] at hf
      exact absurd UInt32.zero_and hf.1
    · split at hfill
      · -- a table of the kernel
        obtain ⟨rfl, rfl⟩ := Prod.mk.inj hfill
        exact ⟨fun hlt => absurd hlt (by show ¬ i - 256 < 768; omega), fun _ _ _ _ => rfl⟩
      · -- the mirror
        obtain ⟨rfl, -⟩ := Prod.mk.inj hfill
        exact ⟨fun hlt => absurd hlt (by decide), fun _ hlt => absurd hlt (Nat.lt_irrefl _)⟩
  · refine hold k hkj ?_
    split at hfill
    · obtain ⟨rfl, -⟩ := Prod.mk.inj hfill
      omega
    · omega

/-- A store of `create_pagedir` into the new directory. -/
theorem State.Sound.fill_step (h : s.Sound) {temp : UInt32} {i : Nat}
    (hpc : s.thread t = .fill pd temp i) (hstep : threadStep t s = some s') :
    s'.Sound ∧ s.OthersKept s' t := by
  have hmaking := h.making t
  rw [hpc] at hmaking
  obtain ⟨hle, hlt, huse, hsmall, hi, htranslate, hpart⟩ := hmaking
  have hdir : ∀ {g}, s.use g = .dir → g ≠ pd := fun hg heq => by
    rw [heq, huse] at hg
    cases hg
  unfold threadStep at hstep
  rw [hpc] at hstep
  simp only [access_of_translate htranslate, Option.map_some, Option.some.injEq] at hstep
  subst hstep
  generalize hword : (fillWord s pd i).2 = word
  generalize hindex : (fillWord s pd i).1 = j
  have hram : ∀ {g k}, ¬ (g = pd ∧ k = j) → (s.store pd j word).ram g k = s.ram g k :=
    fun hne => store_of_ne hne
  have hkept : ∀ k, (s.store pd j word).ram s.kernelPd k = s.ram s.kernelPd k := fun k =>
    hram fun heq => hdir h.kernel heq.1
  refine ⟨?_, fun g hg _ k _ => hram fun heq => hdir hg heq.1⟩
  refine h.after (h.store (by rw [huse]; nofun) _ _) rfl rfl h.current (fun u hu => ?_) ?_
    (alone_same h.alone ?_) (alone_same h.distinct ?_)
  · refine h.keeps u rfl (fun g hg hgu => ⟨hg, funext fun k => hram fun heq => ?_⟩)
      (fun g k e hg _ _ _ => hram fun heq => hdir hg heq.1)
      fun pd' temp' i' _ g hg _ => hram fun heq => ?_
    · exact hu (h.distinct u t pd (heq.1 ▸ hgu) (by rw [hpc]; rfl))
    · rw [heq.1, huse] at hg
      cases hg
  · have hnext := hpart.fill (hdir h.kernel)
    rw [hindex, hword] at hnext
    have hsame : translate (s.store pd j word).entry (s.cr3 t) (ptOfAddr temp) (pageOfAddr temp) =
        some pd := by
      obtain ⟨table, htable, hframe⟩ := translate_eq_some.mp htranslate
      obtain ⟨-, huse'⟩ := h.kernel_entry (h.current t) (pt_of_kernel.mp hle)
        (pt_of_mirror.mp hlt) htable
      refine translate_eq_some.mpr ⟨table, ?_, ?_⟩
      · rw [entry_congr (hram fun heq => hdir (h.current t) heq.1)]
        exact htable
      · rw [entry_congr (hram fun heq => ?_)]
        · exact hframe
        · rw [heq.1, huse] at huse'
          cases huse'
    split
    · next hmore => exact ⟨hle, hlt, huse, hsmall, hmore, hsame, hnext⟩
    · next hlast =>
        obtain rfl : i = 1279 := by omega
        refine ⟨hlt, fun pd' hpd' => ?_⟩
        cases hpd'
        refine ⟨huse, hnext, ?_⟩
        obtain ⟨rfl, rfl⟩ : j = mirrorPt ∧ word = entryOf pd (ptePresent ||| pteRw) :=
          ⟨hindex.symm, hword.symm⟩
        rw [entry_eq_some, store_self]
        exact ⟨entry_of_present (by decide), frame_of_entry hsmall (by decide)⟩
  · rw [hpc]
    split
    · exact .inr rfl
    · refine .inr ?_
      show (if temp ≥ kHighhalfAddr then _ else _) = _
      rw [if_pos hle]
      rfl
  · rw [hpc]
    split
    · exact .inr rfl
    · exact .inr rfl

/-- `pd_map_page` stores the entry of the page. -/
theorem State.Sound.map_store (h : s.Sound) {call : MapCall} (hpc : s.thread t = .mapStore call)
    (hf : s.entry (s.cr3 t) (ptOfAddr call.vaddr) = some f)
    (hstep : threadStep t s = some s') : s'.Sound ∧ s.OthersKept s' t := by
  have hmaking := h.making t
  rw [hpc] at hmaking
  obtain ⟨hlt, hcreates⟩ := hmaking
  unfold threadStep at hstep
  rw [hpc] at hstep
  simp only [h.current_pt (h.current t) hf, Option.map_some, Option.some.injEq] at hstep
  subst hstep
  have huse := h.use_of_entry (h.current t) (pt_of_mirror.mp hlt) hf
  have hdir : ∀ {g}, s.use g = .dir → g ≠ f := fun hg heq => by
    rw [← heq, hg] at huse
    exact huse.elim nofun nofun
  refine ⟨?_, fun g hg _ k _ => store_of_ne fun heq => hdir hg heq.1⟩
  refine h.store_entry hlt hf (fun hle => ?_) ?_ ?_ ?_
  · rw [hpc]
    exact if_pos hle
  · split
    · next hmakes =>
        obtain ⟨hle, hmade, hsmall⟩ := hcreates hmakes
        refine ⟨hle, hlt, hmade, hsmall, by decide, translate_eq_some.mpr ⟨f, ?_, ?_⟩, nofun⟩
        · rw [entry_congr (store_of_ne fun heq => hdir (h.current t) heq.1)]
          exact hf
        · rw [entry_eq_some, store_self]
          exact page_entry_frame hsmall
    · trivial
  · rw [hpc]
    split
    · next hmakes => exact .inr (if_pos (hcreates hmakes).1).symm
    · exact .inl rfl
  · rw [hpc]
    split
    · next hmakes => exact .inr (if_pos hmakes).symm
    · exact .inl rfl

/-- `pd_unmap_page` clears the entry of the page. -/
theorem State.Sound.unmap_clear (h : s.Sound) {call : UnmapCall}
    (hpc : s.thread t = .unmapClear call)
    (hf : s.entry (s.cr3 t) (ptOfAddr call.vaddr) = some f)
    (hstep : threadStep t s = some s') : s'.Sound ∧ s.OthersKept s' t := by
  have hmaking := h.making t
  rw [hpc] at hmaking
  have hlt := hmaking.1
  unfold threadStep at hstep
  rw [hpc] at hstep
  simp only [h.current_pt (h.current t) hf, Option.map_some, Option.some.injEq] at hstep
  subst hstep
  have huse := h.use_of_entry (h.current t) (pt_of_mirror.mp hlt) hf
  have hdir : ∀ {g}, s.use g = .dir ∨ s.use g = .makes → g ≠ f := fun hg heq => by
    rw [← heq] at huse
    rcases hg with hg | hg
    · rw [hg] at huse
      exact huse.elim nofun nofun
    · rw [hg] at huse
      exact huse.elim nofun nofun
  have hmaking' : (s.store f (pageOfAddr call.vaddr) 0).Making (s.cr3 t) (.unmapTest call) := by
    refine State.Making.congr (s := s) hmaking rfl (fun g hg => (hmaking.2 g hg).1)
      (fun g hg => funext fun k => store_of_ne fun heq => ?_)
      (fun j g _ _ _ => store_of_ne fun heq => hdir (.inl h.kernel) heq.1) nofun
    exact hdir (.inr (hmaking.2 g hg).1) heq.1
  have hstored : ((s.store f (pageOfAddr call.vaddr) 0).goto t (.unmapTest call)).Sound := by
    refine h.store_entry hlt hf (fun hle => ?_) hmaking' ?_ ?_
    · rw [hpc]
      exact if_pos hle
    · rw [hpc]
      exact .inr rfl
    · rw [hpc]
      exact .inr rfl
  have hself : ((s.store f (pageOfAddr call.vaddr) 0).goto t (.unmapTest call)).thread t =
      .unmapTest call := Function.update_self ..
  have hdone := hstored.unmap_done call (by rw [hself]; rfl) (by
    have hmade := hstored.making t
    rw [hself] at hmade
    exact hmade)
  rw [unmap_done_goto] at hdone
  refine ⟨hdone, fun g hg _ k _ => ?_⟩
  rw [unmap_done_ram]
  exact store_of_ne fun heq => hdir (.inl hg) heq.1

/-- A step that does not fault in the mirror. -/
theorem State.Sound.thread_step (h : s.Sound) (hfault : ¬ MirrorFaults s (.step t))
    (hstep : threadStep t s = some s') : s'.Sound ∧ s.OthersKept s' t := by
  have hmaking := h.making t
  have hgoto : ∀ {pc'}, s.Making (s.cr3 t) pc' →
      (pc'.kernelPage = none ∨ pc'.kernelPage = (s.thread t).kernelPage) →
      (pc'.makes = none ∨ pc'.makes = (s.thread t).makes) →
      (s.goto t pc').Sound ∧ s.OthersKept (s.goto t pc') t :=
    fun hpc' hpage hmakes => ⟨h.goto hpc' hpage hmakes, fun _ _ _ _ _ => rfl⟩
  have hdone : ∀ {call}, (s.thread t).makes = call.created →
      s.Making (s.cr3 t) (.unmapTest call) →
      (unmapDone t call s).Sound ∧ s.OthersKept (unmapDone t call s) t := fun hmakes hcall =>
    ⟨h.unmap_done _ hmakes hcall, fun _ _ _ _ _ => by rw [unmap_done_ram]⟩
  cases hpc : s.thread t with
  | idle | mapAlloc call =>
      simp only [threadStep, hpc] at hstep
      cases hstep
  | fill pd temp i => exact h.fill_step hpc hstep
  | getTest vaddr =>
      rw [hpc] at hmaking hgoto
      simp only [threadStep, hpc] at hstep
      rcases h.test_table t vaddr with heq | heq
      · cases heq.symm.trans hstep
        exact hgoto trivial (.inl rfl) (.inl rfl)
      · cases heq.symm.trans hstep
        exact hgoto hmaking (.inl rfl) (.inl rfl)
  | getLook vaddr =>
      obtain ⟨f, hf⟩ := table_of_not_faults vaddr hfault (by rw [hpc]; rfl)
      rw [hpc] at hmaking hgoto
      simp only [threadStep, hpc] at hstep
      rcases h.test_page hf with heq | heq
      · cases heq.symm.trans hstep
        exact hgoto trivial (.inl rfl) (.inl rfl)
      · cases heq.symm.trans hstep
        exact hgoto hmaking (.inl rfl) (.inl rfl)
  | getLoad vaddr =>
      obtain ⟨f, hf⟩ := table_of_not_faults vaddr hfault (by rw [hpc]; rfl)
      rw [hpc] at hmaking hgoto
      simp only [threadStep, hpc, h.current_pt (h.current t) hf, Option.map_some,
        Option.some.injEq] at hstep
      subst hstep
      exact hgoto trivial (.inl rfl) (.inl rfl)
  | unmapTest call =>
      rw [hpc] at hmaking hgoto hdone
      simp only [threadStep, hpc] at hstep
      rcases h.test_table t call.vaddr with heq | heq
      · cases heq.symm.trans hstep
        exact hdone rfl hmaking
      · cases heq.symm.trans hstep
        exact hgoto hmaking (.inr rfl) (.inr rfl)
  | unmapLook call =>
      obtain ⟨f, hf⟩ := table_of_not_faults call.vaddr hfault (by rw [hpc]; rfl)
      rw [hpc] at hmaking hgoto hdone
      simp only [threadStep, hpc] at hstep
      rcases h.test_page hf with heq | heq
      · cases heq.symm.trans hstep
        exact hdone rfl hmaking
      · cases heq.symm.trans hstep
        exact hgoto hmaking (.inr rfl) (.inr rfl)
  | unmapClear call =>
      obtain ⟨f, hf⟩ := table_of_not_faults call.vaddr hfault (by rw [hpc]; rfl)
      exact h.unmap_clear hpc hf hstep
  | mapTest call =>
      rw [hpc] at hmaking hgoto
      simp only [threadStep, hpc] at hstep
      rcases h.test_table t call.vaddr with heq | heq
      · cases heq.symm.trans hstep
        exact hgoto hmaking (.inr rfl) (.inr rfl)
      · cases heq.symm.trans hstep
        exact hgoto hmaking (.inr rfl) (.inr rfl)
  | mapStore call =>
      obtain ⟨f, hf⟩ := table_of_not_faults call.vaddr hfault (by rw [hpc]; rfl)
      exact h.map_store hpc hf hstep

/-- `frame_alloc` in `pd_map_page` returns a frame. -/
theorem map_allocated_eq (h : s.Tables) (hd : s.use (s.cr3 t) = .dir) {call : MapCall}
    (hne : f ≠ 0) (hsmall : f.toNat < 2 ^ 20) (hlt : call.vaddr < pdMirrorAddr) :
    mapAllocated t call f s = some ((s.addTable
      (if call.vaddr ≥ kHighhalfAddr then s.kernelPd else s.cr3 t) (s.cr3 t) f
        (ptOfAddr call.vaddr) (tableEntry f call.vaddr)
        (if call.vaddr < kHighhalfAddr then .userTable (s.cr3 t) else .kernelTable)).goto t
          (.mapStore call)) := by
  unfold mapAllocated
  rw [if_neg hne]
  simp only [h.pd_of hd call.vaddr, Option.bind_eq_bind, Option.bind_some]
  generalize (if call.vaddr ≥ kHighhalfAddr then s.kernelPd else s.cr3 t) = pd
  generalize hword : tableEntry f call.vaddr = word
  have hown : ∀ {s₁ : State T} {g : UInt32}, s₁.entry (s.cr3 t) mirrorPt = some (s.cr3 t) →
      (s₁.store g (ptOfAddr call.vaddr) word).entry (s.cr3 t) mirrorPt = some (s.cr3 t) := by
    intro s₁ g hs₁
    rw [entry_congr (store_of_ne fun heq => Nat.ne_of_gt (pt_of_mirror.mp hlt) heq.2)]
    exact hs₁
  have hfirst := hown (g := pd) (h.own _ hd)
  have hcurrent : (s.store pd (ptOfAddr call.vaddr) word).currentPd (s.cr3 t) = some _ :=
    access_of_translate (translate_self hfirst)
  have htable : ((s.store pd (ptOfAddr call.vaddr) word).store (s.cr3 t) (ptOfAddr call.vaddr)
      word).entry (s.cr3 t) (ptOfAddr call.vaddr) = some f := by
    rw [entry_eq_some, store_self, ← hword]
    exact table_entry_frame call.vaddr hsmall
  have hpt : ((s.store pd (ptOfAddr call.vaddr) word).store (s.cr3 t) (ptOfAddr call.vaddr)
      word).currentPt (s.cr3 t) (ptOfAddr call.vaddr) = some _ :=
    access_of_translate ((translate_mirror (hown hfirst) _).trans htable)
  simp only [hcurrent, Option.bind_some]
  change (State.currentPt _ (s.cr3 t) _).bind _ = _
  rw [hpt]
  rfl

/-- `frame_alloc` in `pd_map_page` returns, and no table of the kernel is added twice. -/
theorem State.Sound.map_allocated (h : s.Sound) {call : MapCall} (hpc : s.thread t = .mapAlloc call)
    (hfree : f = 0 ∨ s.use f = .free ∧ f.toNat < 2 ^ 20)
    (hreadds : ¬ Readds s (.frameAlloc t f)) (hstep : mapAllocated t call f s = some s') :
    s'.Sound ∧ s.OthersKept s' t := by
  have hmaking := h.making t
  rw [hpc] at hmaking
  by_cases hzero : f = 0
  · unfold mapAllocated at hstep
    rw [if_pos hzero] at hstep
    cases hstep
    refine ⟨h.map_fails hpc, fun _ _ _ _ _ => ?_⟩
    unfold mapFails
    split
    · rfl
    · rfl
  · obtain ⟨hfree, hsmall⟩ := hfree.resolve_left hzero
    rw [map_allocated_eq h.toTables (h.current t) hzero hsmall hmaking.1] at hstep
    cases hstep
    have hword := table_entry_frame call.vaddr hsmall
    have hlt := pt_of_mirror.mp hmaking.1
    generalize hpd : (if call.vaddr ≥ kHighhalfAddr then s.kernelPd else s.cr3 t) = pd
    generalize huse : (if call.vaddr < kHighhalfAddr then Use.userTable (s.cr3 t)
      else .kernelTable) = use
    generalize tableEntry f call.vaddr = word at hword
    have hne : ∀ {g u}, s.use g = u → u ≠ .free → g ≠ f := fun hg hu heq => hu (by
      rw [← hg, heq, hfree])
    have hpdDir : s.use pd = .dir := by
      rw [← hpd]
      split
      · exact h.kernel
      · exact h.current t
    have hnew : ∀ i g e, s.use g = .dir → firstKernelPt ≤ i → i < mirrorPt →
        s.entry g i = some e → ¬ ((g = s.cr3 t ∨ g = pd) ∧ i = ptOfAddr call.vaddr) := by
      rintro i g e hg hle hi he ⟨-, rfl⟩
      obtain ⟨hentry, -⟩ := h.kernel_entry hg hle hi he
      refine hreadds ⟨hzero, call, hpc, pt_of_kernel.mpr hle, ?_⟩
      rw [hentry]
      exact nofun
    have hother : ∀ {g u}, s.use g = u → u ≠ .free → u ≠ .dir →
        (s.addTable pd (s.cr3 t) f (ptOfAddr call.vaddr) word use).ram g = s.ram g := by
      intro g u hg hu hud
      funext j
      rw [add_table_ram (hne hg hu), if_neg]
      rintro ⟨rfl | rfl, -⟩
      · exact hud (hg.symm.trans (h.current t))
      · exact hud (hg.symm.trans hpdDir)
    refine ⟨?_, fun g hg hgt i hi => ?_⟩
    · refine h.after ?_ rfl rfl (fun u => ?_) (fun u hu => ?_) ?_ (alone_same h.alone ?_)
        (alone_same h.distinct ?_)
      · by_cases hhigh : kHighhalfAddr ≤ call.vaddr
        · rw [← hpd, ← huse, if_pos hhigh, if_neg (UInt32.not_lt.mpr hhigh)]
          refine h.toTables.add_kernel hfree hword (pt_of_kernel.mp hhigh) hlt ?_
          by_contra hsome
          exact hreadds ⟨hzero, call, hpc, hhigh, hsome⟩
        · rw [← hpd, ← huse, if_neg hhigh, if_pos (UInt32.not_le.mp hhigh)]
          exact h.toTables.add_user hfree hword (Nat.lt_of_not_le (mt pt_of_kernel.mpr hhigh))
      · rw [add_table_use (hne (h.current u) nofun)]
        exact h.current u
      · refine h.keeps u rfl (fun g hg _ => ⟨?_, hother hg nofun nofun⟩)
          (fun g i e hg hle hi he => ?_) fun pd' temp i _ g hg _ => ?_
        · rw [add_table_use (hne hg nofun)]
          exact hg
        · rw [add_table_ram (hne hg nofun), if_neg (hnew i g e hg hle hi he)]
        · rw [hother hg nofun nofun]
      · refine ⟨hmaking.1, fun hcreates => ?_⟩
        obtain ⟨hle, hmade, hbound⟩ := hmaking.2 hcreates
        refine ⟨hle, ?_, hbound⟩
        rw [add_table_use (hne hmade nofun)]
        exact hmade
      · rw [hpc]
        exact .inr rfl
      · rw [hpc]
        exact .inr rfl
    · show (s.addTable pd (s.cr3 t) f (ptOfAddr call.vaddr) word use).ram g i = s.ram g i
      rw [add_table_ram (hne hg nofun), if_neg]
      rintro ⟨hgd, rfl⟩
      have hgpd := hgd.resolve_left hgt
      rw [← hpd] at hgpd
      split at hgpd
      · next hhigh => exact Nat.not_lt.mpr (pt_of_kernel.mp hhigh) hi
      · exact hgt hgpd

omit [DecidableEq T] in
/-- An access to the memory of the kernel, with the table copied if need be. -/
theorem State.Sound.touch (h : s.Sound) (hle : kHighhalfAddr ≤ vaddr) (hlt : vaddr < pdMirrorAddr)
    (hstep : (s.access (s.cr3 t) (ptOfAddr vaddr) (pageOfAddr vaddr)).map Prod.snd = some s') :
    s'.Sound ∧ s.OthersKept s' t := by
  have hpt := pt_of_kernel.mp hle
  have hpt' := pt_of_mirror.mp hlt
  unfold State.access at hstep
  split at hstep
  · cases hstep
    exact ⟨h, fun _ _ _ _ _ => rfl⟩
  · unfold State.pageFaultHandler at hstep
    rw [translate_self (h.own _ (h.current t)), Option.bind_some] at hstep
    split at hstep
    · rw [Option.bind_some] at hstep
      obtain ⟨⟨frame, s₁⟩, hmap, rfl⟩ := Option.map_eq_some_iff.mp hstep
      obtain ⟨_, _, hs₁⟩ := Option.map_eq_some_iff.mp hmap
      obtain ⟨-, rfl⟩ := Prod.mk.inj hs₁
      generalize hword : s.ram s.kernelPd (ptOfAddr vaddr) = word
      have htables := h.toTables.copy (h.current t) hpt hpt'
      rw [hword] at htables
      have hdir : ∀ {g}, s.use g ≠ .dir → g ≠ s.cr3 t := fun hg heq => hg (heq ▸ h.current t)
      refine ⟨{ htables with
        current := h.current, making := fun u => ?_, alone := h.alone, distinct := h.distinct },
        fun g _ hgt i _ => store_of_ne fun heq => hgt heq.1⟩
      refine h.keeps u rfl (fun g hg _ => ⟨hg, funext fun _ => store_of_ne fun heq => ?_⟩)
        (fun g i e hg hge hi he => ?_) fun _ _ _ _ g hg _ => store_of_ne fun heq => ?_
      · exact hdir (by rw [hg]; nofun) heq.1
      · by_cases heq : g = s.cr3 t ∧ i = ptOfAddr vaddr
        · obtain ⟨rfl, rfl⟩ := heq
          rw [store_self, ← hword]
          exact (h.kernels _ hg _ hge hi e he).symm
        · exact store_of_ne heq
      · exact hdir (by rw [hg]; nofun) heq.1
    · cases hstep

omit [DecidableEq T] in
/-- `delete_pagedir` copies the entries of the directory. -/
theorem State.Tables.backup_eq (h : s.Tables) (hd : s.use d = .dir) :
    backup s d = some (s.ram d, s) := by
  unfold backup
  rw [h.current_pd hd]
  rfl

omit [DecidableEq T] in
/-- The assertion of `delete_pagedir` holds. -/
theorem State.Tables.delete_asserts (h : s.Tables) (hd : s.use d = .dir) : deleteAsserts s d :=
  ⟨s.ram d, s, h.backup_eq hd, (entry_eq_some.mp (h.own d hd)).2.symm⟩

/-- `delete_pagedir` of a directory that nobody else is under. -/
theorem State.Sound.delete (h : s.Sound) (hpc : s.thread t = .idle) (hd : s.use d = .dir)
    (hkernel : d ≠ s.kernelPd) (hnobody : ∀ u, u ≠ t → s.cr3 u ≠ d)
    (hstep : deletePagedir t d s = some s') : s'.Sound ∧ s.OthersKept s' t := by
  unfold deletePagedir at hstep
  rw [h.backup_eq hd, Option.bind_some] at hstep
  dsimp only at hstep
  split at hstep
  swap
  · cases hstep
  cases hstep
  refine ⟨?_, fun _ _ _ _ _ => rfl⟩
  generalize huse : (fun f => if f = d ∨ (List.range firstKernelPt).any (fun i =>
    s.ram d i &&& ptePresent ≠ 0 ∧ frameOf (s.ram d i) = f) then Use.free else s.use f) = use
  -- Only the directory and its tables for the user half are freed.
  have hkept : ∀ f, f ≠ d → s.use f ≠ .userTable d → use f = s.use f := by
    intro f hfd hfuse
    rw [← huse]
    refine if_neg fun hfreed => ?_
    rcases hfreed with hfreed | hfreed
    · exact hfd hfreed
    · obtain ⟨i, hi, hentry⟩ := List.any_eq_true.mp hfreed
      exact hfuse (h.users d hd i (List.mem_range.mp hi) f
        (entry_eq_some.mpr (of_decide_eq_true hentry)))
  have hback : ∀ f, use f = .dir → s.use f = .dir ∧ f ≠ d := by
    intro f hf
    rw [← huse] at hf
    dsimp only at hf
    split at hf
    · cases hf
    · next hnot => exact ⟨hf, fun heq => hnot (.inl heq)⟩
  have hkernelDir : use s.kernelPd = .dir := by
    rw [hkept _ hkernel.symm (by rw [h.kernel]; nofun)]
    exact h.kernel
  have htables : State.Tables { s with
      cr3 := Function.update s.cr3 t (if s.cr3 t = d then s.kernelPd else s.cr3 t)
      use := use } := by
    refine h.toTables.congr rfl hkernelDir (fun f hf => ⟨(hback f hf).1, rfl⟩)
      (fun g f hg hf => ?_) fun f hf => ?_
    · refine (hkept f (fun heq => ?_) fun hfd => ?_).trans hf
      · rw [heq, hd] at hf
        cases hf
      · exact (hback g hg).2 (Use.userTable.inj (hf.symm.trans hfd))
    · refine (hkept f (fun heq => ?_) fun hfd => ?_).trans hf
      · rw [heq, hd] at hf
        cases hf
      · rw [hf] at hfd
        cases hfd
  refine { htables with
    current := fun u => ?_, making := fun u => ?_, alone := h.alone, distinct := h.distinct }
  · show use (Function.update s.cr3 t _ u) = .dir
    by_cases hu : u = t
    · rw [hu, Function.update_self]
      split
      · exact hkernelDir
      · next hne =>
          rw [hkept _ hne (by rw [h.current t]; nofun)]
          exact h.current t
    · rw [Function.update_of_ne hu, hkept _ (hnobody u hu) (by rw [h.current u]; nofun)]
      exact h.current u
  · show State.Making _ (Function.update s.cr3 t _ u) (s.thread u)
    by_cases hu : u = t
    · rw [hu, hpc]
      trivial
    · rw [Function.update_of_ne hu]
      refine h.keeps u rfl (fun f hf _ => ⟨?_, rfl⟩) (fun _ _ _ _ _ _ _ => rfl)
        fun _ _ _ _ _ _ _ => rfl
      refine (hkept f (fun heq => ?_) fun hfd => ?_).trans hf
      · rw [heq, hd] at hf
        cases hf
      · rw [hf] at hfd
        cases hfd

/-- A thread that is in no operation begins one. -/
theorem State.Sound.begin_op (h : s.Sound) (hpc : s.Making (s.cr3 t) pc)
    (hpage : ∀ p, pc.kernelPage = some p → ∀ u, u ≠ t → (s.thread u).kernelPage ≠ some p)
    (hmakes : pc.makes = none) : (s.goto t pc).Sound :=
  h.after h.toTables rfl rfl h.current (fun u _ => h.making u) hpc
    (fun u p hu hp => hpage p hp u hu) (alone_same h.distinct (.inl hmakes))

/-- Every event that meets the condition keeps the invariant. -/
theorem State.Sound.event_step (h : s.Sound) {event : Event T} (hpromised : event.Promised s)
    (hfault : ¬ MirrorFaults s event) (hreadds : ¬ Readds s event)
    (hstep : eventStep s event = some s') : s'.Sound ∧ s.OthersKept s' event.thread := by
  cases event with
  | step t => exact h.thread_step hfault hstep
  | touch t vaddr => exact h.touch hpromised.1 hpromised.2 hstep
  | delete t pd =>
      obtain ⟨hpc, hd, hkernel, hnobody⟩ := hpromised
      exact h.delete hpc hd hkernel hnobody hstep
  | frameAlloc t newPtFrame =>
      simp only [eventStep] at hstep
      split at hstep
      · next call hpc => exact h.map_allocated hpc hpromised hreadds hstep
      · cases hstep
  | getEntry t vaddr =>
      cases hstep
      exact ⟨h.goto hpromised.2 (.inl rfl) (.inl rfl), fun _ _ _ _ _ => rfl⟩
  | unmapPage t vaddr =>
      obtain ⟨-, hlt, hshare⟩ := hpromised
      cases hstep
      refine ⟨h.begin_op ⟨hlt, nofun⟩ (fun p hp u hu => ?_) rfl, fun _ _ _ _ _ => rfl⟩
      obtain ⟨-, hp⟩ := Option.ite_none_right_eq_some.mp hp
      rw [← Option.some.inj hp]
      exact hshare u hu
  | mapPage t vaddr frameId rw' =>
      obtain ⟨-, hlt, hshare⟩ := hpromised
      cases hstep
      refine ⟨h.begin_op ⟨hlt, nofun⟩ (fun p hp u hu => ?_) rfl, fun _ _ _ _ _ => rfl⟩
      obtain ⟨-, hp⟩ := Option.ite_none_right_eq_some.mp hp
      rw [← Option.some.inj hp]
      exact hshare u hu
  | create t pdPhys temp =>
      obtain ⟨-, hle, hlt, hshare, hfree, hsmall⟩ := hpromised
      cases hstep
      have hne : ∀ {g u}, s.use g = u → u ≠ .free → (s.setUse pdPhys .makes).use g = u :=
        fun hg hu => by
          rw [set_use_of_ne fun heq => hu (by rw [← hg, heq, hfree])]
          exact hg
      refine ⟨h.after (h.toTables.set_use (.inl hfree) nofun) rfl rfl
        (fun u => hne (h.current u) nofun) (fun u _ => ?_) ⟨hlt, fun _ => ?_⟩
        (fun u p hu hp => ?_) fun u pd hu hp hup => ?_, fun _ _ _ _ _ => rfl⟩
      · exact h.keeps u rfl (fun f hf _ => ⟨hne hf nofun, rfl⟩)
          (fun _ _ _ _ _ _ _ => rfl) fun _ _ _ _ _ _ _ => rfl
      · exact ⟨hle, set_use_self, hsmall⟩
      · obtain ⟨-, hp⟩ := Option.ite_none_right_eq_some.mp hp
        rw [← Option.some.inj hp]
        exact hshare u hu
      · obtain rfl : pdPhys = pd := Option.some.inj hp
        have hmade := (h.making u).use_makes hup
        rw [hfree] at hmade
        cases hmade
  | switch t pd =>
      obtain ⟨hpc, hd⟩ := hpromised
      cases hstep
      refine ⟨{ h.toTables with
        current := fun u => ?_, making := fun u => ?_, alone := h.alone, distinct := h.distinct },
        fun _ _ _ _ _ => rfl⟩
      · show s.use (Function.update s.cr3 t pd u) = .dir
        by_cases hu : u = t
        · rw [hu, Function.update_self]
          exact hd
        · rw [Function.update_of_ne hu]
          exact h.current u
      · show s.Making (Function.update s.cr3 t pd u) (s.thread u)
        by_cases hu : u = t
        · rw [hu, hpc]
          trivial
        · rw [Function.update_of_ne hu]
          exact h.making u

omit [DecidableEq T] in
theorem State.Initial.sound (h : s.Initial) : s.Sound :=
  { h.toTables with
    current := h.current
    making := fun t => by
      rw [h.idle t]
      trivial
    alone := fun t u p ht => by
      rw [h.idle t] at ht
      cases ht
    distinct := fun t u pd ht => by
      rw [h.idle t] at ht
      cases ht }

/-- The condition on a step of a run: it does not fault in the mirror, and it adds no table of the
kernel a second time. -/
def KeepsMirrors (s : State T) (event : Event T) : Prop :=
  ¬ MirrorFaults s event ∧ ¬ Readds s event

/-- In every run whose steps meet the condition, the mirror of every directory holds its own frame,
the assertion of `delete_pagedir` holds, and no event changes the user half of another directory. -/
theorem mirrors_kept (hs : Reachable (pagingRuns KeepsMirrors) s) : Mirrored KeepsMirrors s := by
  have hsound : s.Sound := by
    refine Reachable.induct (motive := State.Sound) ?_ ?_ hs
    · exact fun s h => h.sound
    · rintro s s' h ⟨event, ⟨hpromised, hfault, hreadds⟩, hstep⟩
      exact (h.event_step hpromised hfault hreadds hstep).1
  exact ⟨hsound.own, fun d hd => hsound.toTables.delete_asserts hd,
    fun event s' hpromised hkeeps hstep =>
      (hsound.event_step hpromised hkeeps.1 hkeeps.2 hstep).2⟩

end Steps

section Examples

section Decidable

variable {T : Type} [DecidableEq T] [Fintype T] (s : State T)

instance (t : T) (vaddr : UInt32) : Decidable (s.Unshared t vaddr) :=
  inferInstanceAs (Decidable (∀ u, u ≠ t → _))

instance : (event : Event T) → Decidable (event.Promised s)
  | .getEntry _ _ | .unmapPage _ _ | .mapPage _ _ _ _ | .create _ _ _ | .switch _ _
  | .touch _ _ => inferInstanceAs (Decidable (_ ∧ _))
  | .delete t pd => inferInstanceAs (Decidable (_ ∧ _ ∧ _ ∧ ∀ u, u ≠ t → s.cr3 u ≠ pd))
  | .frameAlloc _ _ => inferInstanceAs (Decidable (_ ∨ _))
  | .step _ => inferInstanceAs (Decidable True)

/-- The condition on a step, for a run. -/
def keepsMirrors (event : Event T) : Bool :=
  match event with
  | .step t => (s.thread t).looksAt.all fun vaddr => (s.entry (s.cr3 t) (ptOfAddr vaddr)).isSome
  | .frameAlloc t _ =>
      match s.thread t with
      | .mapAlloc call => decide (call.vaddr < kHighhalfAddr) ||
          (s.entry s.kernelPd (ptOfAddr call.vaddr)).isNone
      | _ => true
  | _ => true

omit [DecidableEq T] [Fintype T] in
theorem keeps_mirrors_of (event : Event T) (h : keepsMirrors s event = true) :
    KeepsMirrors s event := by
  cases event with
  | getEntry | unmapPage | mapPage | create | switch | delete | touch => exact ⟨id, id⟩
  | step t =>
      refine ⟨?_, id⟩
      rintro ⟨vaddr, hlooks, hnone⟩
      simp [keepsMirrors, hlooks, hnone] at h
  | frameAlloc t f =>
      refine ⟨id, ?_⟩
      rintro ⟨-, call, hpc, hhigh, hsome⟩
      rcases Bool.or_eq_true_iff.mp (by simpa only [keepsMirrors, hpc] using h) with hlow | hnone
      · exact UInt32.not_lt.mpr hhigh (of_decide_eq_true hlow)
      · exact hsome (Option.isNone_iff_eq_none.mp hnone)

end Decidable

/-- A thread under the directory of the kernel, the other one of two being under another one. -/
def kernelThread : Fin 2 := ⟨0, Nat.two_pos⟩

/-- The kernel with its first table, and a directory as `create_pagedir` leaves it; one thread is
under the former, the other one under the latter. -/
def twoDirectories : State (Fin 2) where
  kernelPd := 1
  ram := fun f i =>
    if f = 1 ∨ f = 2 then
      if i = firstKernelPt then tableEntry 3 kHighhalfAddr
      else if i = mirrorPt then entryOf f (ptePresent ||| pteRw)
      else 0
    else 0
  use := fun f => if f = 1 ∨ f = 2 then .dir else if f = 3 then .kernelTable else .free
  cr3 := fun t => if t = kernelThread then 1 else 2
  thread := fun _ => .idle

theorem two_directories_initial : twoDirectories.Initial := by
  have hdir : ∀ d, twoDirectories.use d = .dir → d = 1 ∨ d = 2 := by
    intro d hd
    by_contra hne
    simp only [twoDirectories, if_neg hne] at hd
    split at hd
    · cases hd
    · cases hd
  have hzero : ∀ d i, i ≠ firstKernelPt → i ≠ mirrorPt → twoDirectories.entry d i = none := by
    intro d i hfirst hmirror
    rw [entry_eq_none]
    simp only [twoDirectories, if_neg hfirst, if_neg hmirror, ite_self]
    rfl
  have hfirst : ∀ i d f, twoDirectories.entry d i = some f → i < mirrorPt → i = firstKernelPt := by
    intro i d f hf hlt
    by_contra hne
    rw [hzero d i hne (Nat.ne_of_lt hlt)] at hf
    cases hf
  refine ⟨⟨rfl, fun d hd => ?_, fun d hd i hi f hf => ?_, fun d hd i hi hlt f hf => ?_,
    fun i hi hlt f hf => ?_, fun i j hi hlt hj hlt' f hf hf' => ?_⟩, fun t => ?_, fun _ => rfl⟩
  · rcases hdir d hd with rfl | rfl
    · decide
    · decide
  · exact absurd (hfirst i d f hf (Nat.lt_trans hi (by decide))) (Nat.ne_of_lt hi)
  · obtain rfl := hfirst i d f hf hlt
    rcases hdir d hd with rfl | rfl
    · rfl
    · rfl
  · obtain rfl := hfirst i _ f hf hlt
    have hthree : twoDirectories.entry twoDirectories.kernelPd firstKernelPt = some 3 := by decide
    rw [hthree] at hf
    cases hf
    rfl
  · exact (hfirst i _ f hf hlt).trans (hfirst j _ f hf' hlt').symm
  · show twoDirectories.use (if t = kernelThread then 1 else 2) = .dir
    split
    · rfl
    · rfl

/-- The kernel maps a page and adds a table for it. -/
def addsTable : List (Event (Fin 2)) :=
  [.mapPage kernelThread 0xC8000000 9 true, .step kernelThread, .frameAlloc kernelThread 4,
    .step kernelThread]

/-- The other directory gets the table when the page is used, and a second page is mapped under
it. -/
theorem mirror_stays : ∃ s : State (Fin 2),
    s.entry 4 1 = some 10 ∧ Mirrored KeepsMirrors s := by
  have hrun : (runEvents eventStep
      (fun s event => decide (event.Promised s) && keepsMirrors s event)
      (addsTable ++ [.touch 1 0xC8000000, .mapPage 1 0xC8001000 10 true, .step 1, .step 1])
      twoDirectories).map (fun s => s.entry 4 1) = some (some 10) := by
    decide +kernel
  obtain ⟨s, hrun, hentry⟩ := Option.map_eq_some_iff.mp hrun
  refine ⟨s, hentry, mirrors_kept (Reachable.run_events (fun s event hpass => ?_)
    (.init two_directories_initial) hrun)⟩
  obtain ⟨hpromised, hkeeps⟩ := Bool.and_eq_true_iff.mp hpass
  exact ⟨of_decide_eq_true hpromised, keeps_mirrors_of s event hkeeps⟩

/-- The second page is mapped under the other directory before that has the table: the access to the
table faults in the mirror, and the handler copies the mirror of the kernel. -/
theorem mirror_replaced : ¬ ∀ s : State (Fin 2),
    Reachable (pagingRuns fun _ _ => True) s → Mirrored (fun _ _ => True) s := by
  intro hclaim
  have hrun : (runEvents eventStep (fun s event => decide (event.Promised s))
      (addsTable ++ [.mapPage 1 0xC8001000 10 true, .step 1, .step 1]) twoDirectories).map
      (fun s => (s.use 2, s.entry 2 mirrorPt)) = some (.dir, some 1) := by
    decide +kernel
  obtain ⟨s, hrun, hmirror⟩ := Option.map_eq_some_iff.mp hrun
  obtain ⟨hdir, hentry⟩ := Prod.mk.inj hmirror
  have hmirrored := hclaim s (Reachable.run_events (fun _ _ hpass => ⟨of_decide_eq_true hpass,
    trivial⟩) (.init two_directories_initial) hrun)
  have hown := hmirrored.own 2 hdir
  rw [hentry] at hown
  cases hown

end Examples

end Kogata.Kernel.PageDirectory
