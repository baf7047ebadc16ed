import Kogata.User.Terminal

/-!
# The bounds of the screen

After each byte the cursor is on the screen, and every access to `scr_chars` so far was inside.
`puts_safe_iff` says of which streams this holds: a tab must not lead over the end of the screen, a
screen of one line must not be scrolled, and an escape sequence must fit into `esc_seq`.
-/

namespace Kogata.User

open Lib.Stores

namespace Term

/-- The index is one of a character on the screen. -/
def OnScreen (t : Term) (i : Int) : Prop := 0 ≤ i ∧ i < t.w * t.h

/-- Every access so far was inside. -/
def Within (t : Term) : Prop := ∀ i ∈ t.accesses, t.OnScreen i

/-- The cursor is on the screen and every access so far was inside. -/
structure Safe (t : Term) : Prop where
  line : 0 ≤ t.csrl ∧ t.csrl < t.h
  column : 0 ≤ t.csrc ∧ t.csrc < t.w
  within : t.Within

/-- The screen was cleared, and its characters have not been accessed since. -/
structure Cleared (t : Term) : Prop where
  columns : 0 < t.w
  lines : 0 < t.h
  csrl : t.csrl = 0
  csrc : t.csrc = 0
  blank : ∀ i, t.OnScreen i → t.scrChars i = 32
  accesses : t.accesses = []

/-- What is drawn or stored leaves the size, the cursor and the escape sequence alone, and adds no
access outside. -/
structure Edits (t t' : Term) : Prop where
  w : t'.w = t.w
  h : t'.h = t.h
  csrl : t'.csrl = t.csrl
  csrc : t'.csrc = t.csrc
  escSeq : t'.escSeq = t.escSeq
  within : t'.Within ↔ t.Within

variable {t t' t'' : Term} {i l c : Int} {v : UInt8}

theorem Edits.refl (t : Term) : Edits t t := ⟨rfl, rfl, rfl, rfl, rfl, Iff.rfl⟩

theorem Edits.trans (h : Edits t t') (h' : Edits t' t'') : Edits t t'' :=
  ⟨h'.w.trans h.w, h'.h.trans h.h, h'.csrl.trans h.csrl, h'.csrc.trans h.csrc,
    h'.escSeq.trans h.escSeq, h'.within.trans h.within⟩

theorem Edits.on_screen (h : Edits t t') : t'.OnScreen i ↔ t.OnScreen i := by
  rw [OnScreen, OnScreen, h.w, h.h]

theorem within_access : (t.access i).Within ↔ t.Within ∧ t.OnScreen i :=
  List.forall_mem_append.trans (and_congr_right fun _ => List.forall_mem_singleton)

theorem within_store : (t.store i v).Within ↔ t.Within ∧ t.OnScreen i := within_access

theorem edits_access (hi : t.OnScreen i) : Edits t (t.access i) :=
  ⟨rfl, rfl, rfl, rfl, rfl, within_access.trans (and_iff_left hi)⟩

theorem edits_store (hi : t.OnScreen i) : Edits t (t.store i v) :=
  ⟨rfl, rfl, rfl, rfl, rfl, within_store.trans (and_iff_left hi)⟩

theorem edits_draw (f : FbInfo → Board → Board) : Edits t (t.draw f) :=
  ⟨rfl, rfl, rfl, rfl, rfl, Iff.rfl⟩

/-- A loop of edits. -/
theorem edits_foldl {f : Term → Nat → Term} {l : List Nat}
    (h : ∀ i ∈ l, ∀ t', Edits t t' → Edits t' (f t' i)) : Edits t (l.foldl f t) := by
  have hfold : ∀ (l' : List Nat) (t' : Term), (∀ i ∈ l', i ∈ l) → Edits t t' →
      Edits t (l'.foldl f t') := by
    intro l'
    induction l' with
    | nil => exact fun _ _ h => h
    | cons i l' ih =>
        intro t' hmem ht'
        rw [List.forall_mem_cons] at hmem
        exact ih _ hmem.2 (ht'.trans (h i hmem.1 t' ht'))
  exact hfold l t (fun _ h => h) (.refl t)

/-- A character of a line. -/
theorem on_screen_of_lt (hl : 0 ≤ l) (hl' : l < t.h) (hc : 0 ≤ c) (hc' : c < t.w) :
    t.OnScreen (l * t.w + c) := by
  have hrow : (l + 1) * t.w ≤ t.h * t.w :=
    Int.mul_le_mul_of_nonneg_right (by omega) (by omega)
  rw [Int.add_mul, Int.one_mul, Int.mul_comm t.h] at hrow
  have hnonneg : 0 ≤ l * t.w := Int.mul_nonneg hl (by omega)
  unfold OnScreen
  omega

end Term

open Term

section Screen

variable {t t' : Term} {l c nl nc : Int} {ch : UInt8}

theorem within_draw_c : (termDrawC t l c).Within ↔ t.Within ∧ t.OnScreen (l * t.w + c) :=
  within_access

theorem within_put_at :
    (termPutAt t l c ch).Within ↔ t.Within ∧ t.OnScreen (l * t.w + c) := by
  unfold termPutAt
  dsimp only
  split
  · exact within_access
  · have hall : (termDrawC ((t.access (l * t.w + c)).store (l * t.w + c) ch) l c).Within ↔
        ((t.Within ∧ t.OnScreen (l * t.w + c)) ∧ t.OnScreen (l * t.w + c)) ∧
          t.OnScreen (l * t.w + c) :=
      within_draw_c.trans (and_congr_left' (within_store.trans (and_congr_left' within_access)))
    rw [hall, and_assoc, and_self, and_assoc, and_self]

theorem draw_c_fields : (termDrawC t l c).w = t.w ∧ (termDrawC t l c).h = t.h ∧
    (termDrawC t l c).csrl = t.csrl ∧ (termDrawC t l c).csrc = t.csrc ∧
    (termDrawC t l c).escSeq = t.escSeq := ⟨rfl, rfl, rfl, rfl, rfl⟩

theorem put_at_fields (t : Term) (l c : Int) (ch : UInt8) :
    (termPutAt t l c ch).w = t.w ∧ (termPutAt t l c ch).h = t.h ∧
    (termPutAt t l c ch).csrl = t.csrl ∧ (termPutAt t l c ch).csrc = t.csrc ∧
    (termPutAt t l c ch).escSeq = t.escSeq := by
  unfold termPutAt
  dsimp only
  split
  · exact ⟨rfl, rfl, rfl, rfl, rfl⟩
  · exact draw_c_fields (t := (t.access (l * t.w + c)).store (l * t.w + c) ch)

theorem edits_put_at (h : t.OnScreen (l * t.w + c)) : Edits t (termPutAt t l c ch) := by
  obtain ⟨hw, hh, hl, hc, hesc⟩ := put_at_fields t l c ch
  exact ⟨hw, hh, hl, hc, hesc, within_put_at.trans (and_iff_left h)⟩

/-- The cursor is drawn where it was and where it goes. -/
theorem within_move_cursor : (termMoveCursor t l c).Within ↔
    t.Within ∧ t.OnScreen (t.csrl * t.w + t.csrc) ∧ t.OnScreen (l * t.w + c) := by
  unfold termMoveCursor
  rw [within_draw_c, within_draw_c, and_assoc]
  exact Iff.rfl

theorem edits_blank_before (hl : 0 ≤ nl) (hl' : nl < t.h) {n : Nat} (hn : n ≤ t.w) :
    Edits t (blankBefore t nl n) := by
  induction n generalizing t with
  | zero => exact .refl t
  | succ n ih =>
      have hput : Edits t (termPutAt t nl n 32) :=
        edits_put_at (on_screen_of_lt hl hl' (by omega) (by omega))
      refine hput.trans (ih ?_ ?_)
      · rw [hput.h]
        exact hl'
      · rw [hput.w]
        omega

/-- The next multiple of `8`. -/
def tabStop (nc : Int) : Int := (nc + 7) / 8 * 8

/-- A tab leads to the next multiple of `8`, over every column before it. -/
theorem blank_tab_spec {fuel : Nat} (hfuel : tabStop nc - nc ≤ fuel) :
    (blankTab nl fuel t nc).2 = tabStop nc ∧ (blankTab nl fuel t nc).1.w = t.w ∧
      (blankTab nl fuel t nc).1.h = t.h ∧ (blankTab nl fuel t nc).1.csrl = t.csrl ∧
      (blankTab nl fuel t nc).1.csrc = t.csrc ∧ (blankTab nl fuel t nc).1.escSeq = t.escSeq ∧
      ((blankTab nl fuel t nc).1.Within ↔
        t.Within ∧ ∀ c, nc ≤ c → c < tabStop nc → t.OnScreen (nl * t.w + c)) := by
  induction fuel generalizing t nc with
  | zero =>
      have hstop : tabStop nc = nc := by
        unfold tabStop at hfuel ⊢
        omega
      rw [hstop]
      exact ⟨rfl, rfl, rfl, rfl, rfl, rfl,
        (and_iff_left fun c hlo hhi => absurd hhi (by omega)).symm⟩
  | succ fuel ih =>
      rw [blankTab]
      by_cases hmod : nc % 8 ≠ 0
      · have hstop : tabStop (nc + 1) = tabStop nc := by
          unfold tabStop
          omega
        have hlt : nc < tabStop nc := by
          unfold tabStop
          omega
        obtain ⟨hw, hh, hl, hc, hesc⟩ := put_at_fields t nl nc 32
        obtain ⟨hend, hw', hh', hl', hc', hesc', hwithin⟩ :=
          @ih (termPutAt t nl nc 32) (nc + 1) (by omega)
        rw [if_pos hmod]
        refine ⟨hend.trans hstop, hw'.trans hw, hh'.trans hh, hl'.trans hl, hc'.trans hc,
          hesc'.trans hesc, hwithin.trans ?_⟩
        rw [within_put_at, hstop]
        simp only [OnScreen, hw, hh]
        constructor
        · rintro ⟨⟨ht, hfirst⟩, hrest⟩
          refine ⟨ht, fun c hlo hhi => ?_⟩
          by_cases hc : c = nc
          · rw [hc]
            exact hfirst
          · exact hrest c (by omega) hhi
        · rintro ⟨ht, hall⟩
          exact ⟨⟨ht, hall nc (Int.le_refl nc) hlt⟩, fun c hlo hhi => hall c (by omega) hhi⟩
      · have hstop : tabStop nc = nc := by
          unfold tabStop
          omega
        rw [if_neg hmod, hstop]
        exact ⟨rfl, rfl, rfl, rfl, rfl, rfl,
          (and_iff_left fun c hlo hhi => absurd hhi (by omega)).symm⟩

theorem edits_clear : Edits t ((List.range (t.w * t.h).toNat).foldl blankCell t) := by
  refine edits_foldl fun i hi t' ht' => edits_store (ht'.on_screen.mpr ?_)
  rw [List.mem_range] at hi
  unfold OnScreen
  omega

theorem last_line_size : t.w * (t.h - 1) + t.w = t.w * t.h := by
  rw [Int.mul_sub, Int.mul_one]
  omega

/-- The first loop of `term_scroll1`. -/
theorem edits_copy_up (hw : 0 < t.w) :
    Edits t ((List.range (t.w * (t.h - 1)).toNat).foldl copyCellUp t) := by
  have hsize := last_line_size (t := t)
  refine edits_foldl fun i hi t' ht' => ?_
  rw [List.mem_range] at hi
  have hfrom : t'.OnScreen (i + t'.w) := by
    rw [ht'.on_screen, ht'.w, OnScreen]
    omega
  have hto : t'.OnScreen i := by
    rw [ht'.on_screen, OnScreen]
    omega
  exact (edits_access hfrom).trans (edits_store (t := t'.access (i + t'.w)) hto)

/-- The second loop of `term_scroll1`. -/
theorem edits_blank_last (hw : 0 < t.w) (hh : 0 < t.h) :
    Edits t ((List.range t.w.toNat).foldl blankLastCell t) := by
  have hsize := last_line_size (t := t)
  have hnonneg : 0 ≤ t.w * (t.h - 1) := Int.mul_nonneg (by omega) (by omega)
  refine edits_foldl fun i hi t' ht' => edits_store ?_
  rw [List.mem_range] at hi
  rw [ht'.on_screen, ht'.h, ht'.w, OnScreen, Int.mul_comm (t.h - 1)]
  omega

/-- The screen is scrolled, and the cursor goes up with it. -/
theorem scroll1_spec (hw : 0 < t.w) (hh : 0 < t.h) : (termScroll1 t).w = t.w ∧
    (termScroll1 t).h = t.h ∧ (termScroll1 t).csrl = t.csrl - 1 ∧
    (termScroll1 t).csrc = t.csrc ∧ ((termScroll1 t).Within ↔ t.Within) := by
  have hcopy := edits_copy_up (t := t) hw
  unfold termScroll1
  generalize (List.range (t.w * (t.h - 1)).toNat).foldl copyCellUp t = t' at hcopy
  have hboth := hcopy.trans (edits_blank_last (t := t') (hcopy.w ▸ hw) (hcopy.h ▸ hh))
  exact ⟨hboth.w, hboth.h, congrArg (· - 1) hboth.csrl, hboth.csrc, hboth.within⟩

/-- The cursor goes to a place on the screen. -/
theorem move_cursor_safe (hl : 0 ≤ l) (hl' : l < t.h) (hc : 0 ≤ c) (hc' : c < t.w) :
    (termMoveCursor t l c).Safe ↔ t.Within ∧ t.OnScreen (t.csrl * t.w + t.csrc) := by
  have hplace := on_screen_of_lt hl hl' hc hc'
  constructor
  · intro hsafe
    obtain ⟨hwithin, hold, -⟩ := within_move_cursor.mp hsafe.within
    exact ⟨hwithin, hold⟩
  · rintro ⟨hwithin, hold⟩
    exact ⟨⟨hl, hl'⟩, ⟨hc, hc'⟩, within_move_cursor.mpr ⟨hwithin, hold, hplace⟩⟩

/-- The end of `term_putc` goes wrong when it scrolls a screen of one line, because the cursor is
drawn again in the line where it was. -/
theorem advance_safe (hl : 0 ≤ t.csrl ∧ t.csrl < t.h) (hc : 0 ≤ t.csrc ∧ t.csrc < t.w)
    (hnl : nl = t.csrl ∨ nl = t.csrl + 1 ∧ nc < t.w) (hnc : 0 ≤ nc) :
    (termAdvance t nl nc).Safe ↔ t.Within ∧ (t.h = 1 → nl = 0 ∧ nc < t.w) := by
  have hold := on_screen_of_lt hl.1 hl.2 hc.1 hc.2
  obtain ⟨nl', nc', hend, hnl', hnc', hstay⟩ : ∃ nl' nc',
      (if nc ≥ t.w then (nl + 1, 0) else (nl, nc)) = (nl', nc') ∧
        (nl' = t.csrl ∨ nl' = t.csrl + 1) ∧ (0 ≤ nc' ∧ nc' < t.w) ∧
        (nl' = t.csrl ↔ nl = t.csrl ∧ nc < t.w) := by
    split
    · exact ⟨_, _, rfl, by omega, by omega, by omega⟩
    · exact ⟨_, _, rfl, by omega, by omega, by omega⟩
  unfold termAdvance
  rw [hend]
  dsimp only
  split
  · obtain ⟨hw, hh, hcsrl, hcsrc, hwithin⟩ := scroll1_spec (t := t) (by omega) (by omega)
    rw [move_cursor_safe (by omega) (by omega) hnc'.1 (by omega), hwithin, hcsrl, hcsrc, hw]
    refine and_congr_right fun _ => ?_
    have hscreen : (termScroll1 t).OnScreen ((t.csrl - 1) * t.w + t.csrc) ↔
        t.OnScreen ((t.csrl - 1) * t.w + t.csrc) := by
      rw [OnScreen, OnScreen, hw, hh]
    rw [hscreen]
    constructor
    · rintro ⟨hnonneg, -⟩ hone
      have hzero : t.csrl = 0 := by omega
      rw [hzero, Int.zero_sub, Int.neg_one_mul] at hnonneg
      omega
    · intro hone
      exact on_screen_of_lt (by omega) (by omega) hc.1 hc.2
  · rw [move_cursor_safe (by omega) (by omega) hnc'.1 hnc'.2, and_iff_left hold]
    exact (and_iff_left (by omega)).symm

/-- The cursor is moved after something was drawn. -/
theorem advance_after (hw : t'.w = t.w) (hh : t'.h = t.h) (hcsrl : t'.csrl = t.csrl)
    (hcsrc : t'.csrc = t.csrc) (hl : 0 ≤ t.csrl ∧ t.csrl < t.h) (hc : 0 ≤ t.csrc ∧ t.csrc < t.w)
    (hnc : 0 ≤ nc) :
    (termAdvance t' t.csrl nc).Safe ↔ t'.Within ∧ (t.h = 1 → nc < t.w) := by
  have hl' : 0 ≤ t'.csrl ∧ t'.csrl < t'.h := by
    rw [hcsrl, hh]
    exact hl
  have hc' : 0 ≤ t'.csrc ∧ t'.csrc < t'.w := by
    rw [hcsrc, hw]
    exact hc
  rw [advance_safe hl' hc' (.inl hcsrl.symm) hnc, hh, hw]
  refine and_congr_right fun _ => forall_congr' fun hone => and_iff_right ?_
  omega

theorem clear_screen_safe (hl : 0 ≤ t.csrl ∧ t.csrl < t.h) (hc : 0 ≤ t.csrc ∧ t.csrc < t.w) :
    (termClearScreen t).Safe ↔ t.Within := by
  have hclear := edits_clear (t := { t with csrVisible := true })
  unfold termClearScreen
  dsimp only at hclear ⊢
  generalize (List.range (t.w * t.h).toNat).foldl blankCell { t with csrVisible := true } = t'
    at hclear
  have hboth := hclear.trans
    (edits_draw fun fb s => gFillrect fb 0 0 t'.mode.width t'.mode.height t'.bg s)
  generalize t'.draw (fun fb s => gFillrect fb 0 0 t'.mode.width t'.mode.height t'.bg s) = t''
    at hboth
  have hold : t''.OnScreen (t''.csrl * t''.w + t''.csrc) := by
    rw [hboth.on_screen, hboth.csrl, hboth.csrc, hboth.w]
    exact on_screen_of_lt hl.1 hl.2 hc.1 hc.2
  have hlines : 0 < t''.h := by
    rw [hboth.h]
    exact Int.lt_of_le_of_lt hl.1 hl.2
  have hcolumns : 0 < t''.w := by
    rw [hboth.w]
    exact Int.lt_of_le_of_lt hc.1 hc.2
  rw [move_cursor_safe (Int.le_refl 0) hlines (Int.le_refl 0) hcolumns, and_iff_left hold]
  exact hboth.within

end Screen

namespace Term

/-- A byte can be put out: it fits into the escape sequence, if it is part of one; a tab stays on
the screen; and a screen of one line is not scrolled. -/
def Fits (t : Term) (c : UInt8) : Prop :=
  if t.escSeq ≠ [] ∨ c = 27 then t.escSeq.length < 10
  else
    (c = 9 → t.csrl * t.w + tabStop t.csrc ≤ t.w * t.h) ∧
      (t.h = 1 → c ≠ 10 ∧ (c = 9 → tabStop t.csrc < t.w) ∧
        (32 ≤ c → c < 128 → t.csrc + 1 < t.w))

end Term

section Bytes

variable {t t' : Term} {c : UInt8}

/-- A tab stays on the screen when its last column does. -/
theorem tab_on_screen_iff (hl : 0 ≤ t.csrl) (hc : 0 ≤ t.csrc) (hc' : t.csrc < t.w)
    (hl' : t.csrl < t.h) :
    (∀ c, t.csrc ≤ c → c < tabStop t.csrc → t.OnScreen (t.csrl * t.w + c)) ↔
      t.csrl * t.w + tabStop t.csrc ≤ t.w * t.h := by
  have hnonneg : 0 ≤ t.csrl * t.w := Int.mul_nonneg hl (by omega)
  have hstop : t.csrc ≤ tabStop t.csrc := by
    unfold tabStop
    omega
  constructor
  · intro hall
    rcases Int.lt_or_le t.csrc (tabStop t.csrc) with hlt | hle
    · have hlast := (hall (tabStop t.csrc - 1) (by omega) (by omega)).2
      omega
    · have hold := (on_screen_of_lt hl hl' hc hc').2
      omega
  · intro hend c hlo hhi
    unfold OnScreen
    omega

/-- The cursor moves on its line after an edit that keeps the screen. -/
theorem advance_edited {nc : Int} (hsafe : t.Safe) (hedits : Edits t t') (hnc : 0 ≤ nc) :
    (termAdvance t' t.csrl nc).Safe ↔ (t.h = 1 → nc < t.w) := by
  rw [advance_after hedits.w hedits.h hedits.csrl hedits.csrc hsafe.line hsafe.column hnc,
    hedits.within]
  exact and_iff_right hsafe.within

theorem newline_safe (hsafe : t.Safe) : (termAdvance t (t.csrl + 1) 0).Safe ↔ t.h ≠ 1 := by
  obtain ⟨hl, hc, hwithin⟩ := hsafe
  rw [advance_safe hl hc (.inr ⟨rfl, by omega⟩) (Int.le_refl 0)]
  constructor
  · rintro ⟨-, hline⟩ h
    exact absurd (hline h).1 (by omega)
  · exact fun hne => ⟨hwithin, fun h => absurd h hne⟩

/-- A tab blanks the cells up to its stop. -/
theorem tab_safe (hsafe : t.Safe) :
    (termAdvance (blankTab t.csrl 8 t t.csrc).1 t.csrl (blankTab t.csrl 8 t t.csrc).2).Safe ↔
      t.csrl * t.w + tabStop t.csrc ≤ t.w * t.h ∧ (t.h = 1 → tabStop t.csrc < t.w) := by
  obtain ⟨hl, hc, hwithin⟩ := hsafe
  have hstop : 0 ≤ tabStop t.csrc ∧ tabStop t.csrc - t.csrc ≤ (8 : Nat) := by
    unfold tabStop
    omega
  obtain ⟨hend, hw, hh, hcsrl, hcsrc, -, htabbed⟩ := @blank_tab_spec t t.csrl t.csrc 8 hstop.2
  rw [hend, advance_after hw hh hcsrl hcsrc hl hc hstop.1, htabbed,
    tab_on_screen_iff hl.1 hc.1 hc.2 hl.2]
  exact and_congr_left fun _ => and_iff_right hwithin

theorem put_plain_safe (hsafe : t.Safe) : (termPutPlain t c).Safe ↔
    (c = 9 → t.csrl * t.w + tabStop t.csrc ≤ t.w * t.h) ∧
      (t.h = 1 → c ≠ 10 ∧ (c = 9 → tabStop t.csrc < t.w) ∧
        (32 ≤ c → c < 128 → t.csrc + 1 < t.w)) := by
  obtain ⟨hl, hc, hwithin⟩ := id hsafe
  unfold termPutPlain
  dsimp only
  split
  · next hnewline =>
      subst hnewline
      rw [newline_safe hsafe]
      exact ⟨fun hne => ⟨nofun, fun h => absurd h hne⟩, fun hfits h => (hfits.2 h).1 rfl⟩
  split
  · next hreturn =>
      subst hreturn
      have hedits := edits_blank_before (t := t) hl.1 hl.2 (show t.csrc.toNat ≤ t.w by omega)
      rw [advance_edited hsafe hedits (Int.le_refl 0)]
      exact iff_of_true (fun _ => by omega)
        ⟨nofun, fun _ => ⟨by decide, nofun, fun hlo => absurd hlo (by decide)⟩⟩
  split
  · next hclear =>
      subst hclear
      rw [clear_screen_safe hl hc]
      exact iff_of_true hwithin
        ⟨nofun, fun _ => ⟨by decide, nofun, fun hlo => absurd hlo (by decide)⟩⟩
  split
  · next hback =>
      subst hback
      have hcolumn : 0 ≤ (if t.csrc > 0 then t.csrc - 1 else t.csrc) ∧
          (if t.csrc > 0 then t.csrc - 1 else t.csrc) < t.w := by
        split <;> omega
      generalize (if t.csrc > 0 then t.csrc - 1 else t.csrc) = nc at hcolumn
      rw [advance_edited hsafe
        (edits_put_at (on_screen_of_lt hl.1 hl.2 hcolumn.1 hcolumn.2)) hcolumn.1]
      exact iff_of_true (fun _ => hcolumn.2)
        ⟨nofun, fun _ => ⟨by decide, nofun, fun hlo => absurd hlo (by decide)⟩⟩
  split
  · next htab =>
      subst htab
      refine (tab_safe hsafe).trans ⟨fun ⟨hscreen, hline⟩ => ⟨fun _ => hscreen, fun h =>
        ⟨by decide, fun _ => hline h, fun hlo => absurd hlo (by decide)⟩⟩, fun hfits => ?_⟩
      exact ⟨hfits.1 rfl, fun h => (hfits.2 h).2.1 rfl⟩
  next hnewline hreturn hclear hback htab =>
  split
  · next hprinted =>
      rw [advance_edited hsafe (edits_put_at (on_screen_of_lt hl.1 hl.2 hc.1 hc.2)) (by omega)]
      exact ⟨fun hline => ⟨fun h => absurd h htab,
          fun h => ⟨hnewline, fun h => absurd h htab, fun _ _ => hline h⟩⟩,
        fun hfits h => (hfits.2 h).2.2 hprinted.1 hprinted.2⟩
  · next hother =>
      rw [advance_edited hsafe (Edits.refl t) hc.1]
      exact iff_of_true (fun _ => hc.2) ⟨fun h => absurd h htab,
        fun _ => ⟨hnewline, fun h => absurd h htab, fun hlo hhi => absurd ⟨hlo, hhi⟩ hother⟩⟩

/-- An escape sequence has no effect on the screen or the cursor. -/
theorem parse_escape_safe : (parseEscape t).Safe ↔ t.Safe := by
  have hsame : ∀ t' : Term, t'.w = t.w → t'.h = t.h → t'.csrl = t.csrl → t'.csrc = t.csrc →
      t'.accesses = t.accesses → (t'.Safe ↔ t.Safe) := by
    intro t' hw hh hl hc ha
    have hwithin : t'.Within ↔ t.Within := by
      rw [Within, Within, ha]
      simp only [OnScreen, hw, hh]
    constructor
    · rintro ⟨hline, hcolumn, hin⟩
      exact ⟨hl ▸ hh ▸ hline, hc ▸ hw ▸ hcolumn, hwithin.mp hin⟩
    · rintro ⟨hline, hcolumn, hin⟩
      exact ⟨hl.symm ▸ hh.symm ▸ hline, hc.symm ▸ hw.symm ▸ hcolumn, hwithin.mpr hin⟩
  have hfinal : ∀ n c, ({ escFinal t n c with escSeq := [] } : Term).Safe ↔ t.Safe := by
    intro n c
    have hfields : (escFinal t n c).w = t.w ∧ (escFinal t n c).h = t.h ∧
        (escFinal t n c).csrl = t.csrl ∧ (escFinal t n c).csrc = t.csrc ∧
        (escFinal t n c).accesses = t.accesses := by
      unfold escFinal
      split_ifs <;> exact ⟨rfl, rfl, rfl, rfl, rfl⟩
    obtain ⟨hw, hh, hl, hc, ha⟩ := hfields
    exact hsame _ hw hh hl hc ha
  unfold parseEscape
  split
  · split
    · exact Iff.rfl
    · split
      · exact Iff.rfl
      · exact hfinal _ _
    · exact hfinal _ _
  · exact hsame _ rfl rfl rfl rfl rfl
  · exact Iff.rfl

/-- A byte keeps the screen safe exactly when it fits. -/
theorem putc_safe_iff (hsafe : t.Safe) :
    (∃ t', termPutc t c = some t' ∧ t'.Safe) ↔ t.Fits c := by
  unfold termPutc Term.Fits
  split
  · split
    · next hroom =>
        have hlonger : ({ t with escSeq := t.escSeq ++ [c] } : Term).Safe :=
          ⟨hsafe.line, hsafe.column, hsafe.within⟩
        exact iff_of_true ⟨_, rfl, parse_escape_safe.mpr hlonger⟩ hroom
    · next hfull => exact iff_of_false (fun ⟨_, hput, _⟩ => Option.some_ne_none _ hput.symm) hfull
  · rw [← put_plain_safe hsafe]
    constructor
    · rintro ⟨t', ht', hsafe'⟩
      obtain rfl := Option.some.inj ht'
      exact hsafe'
    · exact fun hsafe' => ⟨_, rfl, hsafe'⟩

/-- After each byte of a stream the screen is safe. -/
def PutsSafe : Term → List UInt8 → Prop
  | _, [] => True
  | t, c :: cs => ∃ t', termPutc t c = some t' ∧ t'.Safe ∧ PutsSafe t' cs

/-- Each byte of a stream fits when it is put out. -/
def PutsFit : Term → List UInt8 → Prop
  | _, [] => True
  | t, c :: cs => t.Fits c ∧ ∀ t', termPutc t c = some t' → PutsFit t' cs

theorem Term.Cleared.safe (h : t.Cleared) : t.Safe := by
  refine ⟨?_, ?_, ?_⟩
  · rw [h.csrl]
    exact ⟨Int.le_refl 0, h.lines⟩
  · rw [h.csrc]
    exact ⟨Int.le_refl 0, h.columns⟩
  · rw [Within, h.accesses]
    exact nofun

/-- From a safe screen on, a stream keeps it safe exactly when each byte fits. -/
theorem puts_safe_of_safe {cs : List UInt8} (hsafe : t.Safe) :
    PutsSafe t cs ↔ PutsFit t cs := by
  induction cs generalizing t with
  | nil => exact Iff.rfl
  | cons c cs ih =>
      constructor
      · rintro ⟨t', hput, hsafe', hrest⟩
        refine ⟨(putc_safe_iff hsafe).mp ⟨t', hput, hsafe'⟩, fun t'' hput' => ?_⟩
        obtain rfl := Option.some.inj (hput.symm.trans hput')
        exact (ih hsafe').mp hrest
      · rintro ⟨hfits, hrest⟩
        obtain ⟨t', hput, hsafe'⟩ := (putc_safe_iff hsafe).mpr hfits
        exact ⟨t', hput, hsafe', (ih hsafe').mpr (hrest t' hput)⟩

/-- After each byte of a stream that is put out on a cleared screen, the cursor is on the screen
and no access was outside, exactly when each byte fits. -/
theorem puts_safe_iff (h : t.Cleared) (cs : List UInt8) : PutsSafe t cs ↔ PutsFit t cs :=
  puts_safe_of_safe h.safe

/-- A screen of `w` times `h` characters that shows nothing. -/
def blankScreen (w h : Int) : Term where
  mode := ⟨8 * w, 16 * h, 32 * w, 32, fbMmRgb32⟩
  fb := some ⟨⟨8 * w, 16 * h, 32 * w, 32, fbMmRgb32⟩, ⟨fun _ => 0, []⟩⟩
  font := .asciiBitmap [] 8 16 0
  cw := 8
  ch := 16
  colors := fun _ => 0
  fg := 0
  bg := 0
  csrBg := 0
  escSeq := []
  w := w
  h := h
  scrChars := fun _ => 32
  csrl := 0
  csrc := 0
  csrVisible := true
  accesses := []

theorem blank_screen_cleared {w h : Int} (hw : 0 < w) (hh : 0 < h) : (blankScreen w h).Cleared :=
  ⟨hw, hh, rfl, rfl, fun _ _ => rfl, rfl⟩

/-- A character and a tab, on two lines of eight characters. -/
theorem puts_safe_tab : PutsSafe (blankScreen 8 2) [97, 9] := by
  refine (puts_safe_iff (blank_screen_cleared (by decide) (by decide)) _).mpr ⟨?_, ?_⟩
  · exact ⟨nofun, nofun⟩
  · intro t hput
    obtain rfl := Option.some.inj hput
    exact ⟨⟨fun _ => by decide, nofun⟩, fun _ _ => trivial⟩

/-- With two characters in the only line, a tab behind the first leads over the end. -/
theorem tab_leaves_screen : ¬ ∀ (t : Term) (cs : List UInt8), t.Cleared → PutsSafe t cs := by
  intro h
  have hcleared := blank_screen_cleared (show (0 : Int) < 2 by decide) (show (0 : Int) < 1 by decide)
  obtain ⟨-, hnext⟩ := (puts_safe_of_safe hcleared.safe).mp (h _ [97, 9] hcleared)
  have htab := (hnext _ rfl).1.1 rfl
  exact absurd htab (by decide)

end Bytes

end Kogata.User
