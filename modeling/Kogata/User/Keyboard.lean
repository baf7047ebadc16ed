import Kogata.Lib.Mask
import Kogata.User.TerminalKeys

/-!
# The keyboard

`lib/libkogata/keyboard.c`: a keymap, the character that each key has reported when it was pressed,
and a mask of the modifiers. Several keys set one bit of the mask, and the first of them that is
released clears it (`keyboard_correct_iff`).
-/

namespace Kogata.User

open Lib Lib.Run

/-- `KBD_ALT`. -/
abbrev kbdAlt : UInt32 := 0x02
/-- `KBD_CTRL`. -/
abbrev kbdCtrl : UInt32 := 0x04
/-- `KBD_SUPER`. -/
abbrev kbdSuper : UInt32 := 0x08
/-- `KBD_SHIFT`. -/
abbrev kbdShift : UInt32 := 0x10
/-- `KBD_CAPS`. -/
abbrev kbdCaps : UInt32 := 0x20
/-- `KBD_MOD`. -/
abbrev kbdMod : UInt32 := 0x40

abbrev kbdCodeLshift : Nat := 42
abbrev kbdCodeRshift : Nat := 54
abbrev kbdCodeCapslock : Nat := 58
abbrev kbdCodeLctrl : Nat := 29
abbrev kbdCodeRctrl : Nat := 157
abbrev kbdCodeLalt : Nat := 56
abbrev kbdCodeRalt : Nat := 184
abbrev kbdCodeLsuper : Nat := 219
abbrev kbdCodeRsuper : Nat := 220

/-- `keymap_t`. -/
structure Keymap where
  normal : Fin 128 → Int
  shift : Fin 128 → Int
  caps : Fin 128 → Int
  shiftcaps : Fin 128 → Int
  mod : Fin 128 → Int
  shiftmod : Fin 128 → Int
  raltIsMod : Bool

/-- `keyboard_t`. -/
structure KeyboardT where
  km : Keymap
  keyChar : Nat → Int
  status : UInt32

/-- `ctrlkeys`, as far as it is read: a key that has no character stands for itself. -/
def ctrlkeys : List Int := [
  0, 1, 0, 0, 0, 0, 0, 0, 0, 0, 0, 0, 0, 0, 14, 15,
  0, 0, 0, 0, 0, 0, 0, 0, 0, 0, 0, 0, 28, 29, 0, 0,
  0, 0, 0, 0, 0, 0, 0, 0, 0, 0, 42, 0, 0, 0, 0, 0,
  0, 0, 0, 0, 0, 0, 54, 0, 56, 0, 58, 59, 60, 61, 62, 63,
  64, 65, 66, 67, 68, 69, 70, 71, 72, 73, 0, 75, 76, 77, 0, 79,
  80, 81, 82, 83, 84, 0, 0, 87, 88, 0, 0, 0, 0, 0, 0, 0,
  0, 0, 0, 0, 0, 0, 0, 0, 0, 0, 0, 0, 0, 0, 0, 0,
  0, 0, 0, 0, 0, 0, 0, 0, 0, 0, 0, 0, 0, 0, 0, 0]

/-- `key_chr`. -/
def keyChr (kb : KeyboardT) (k : Fin 128) : Int :=
  if kb.status &&& kbdMod ≠ 0 then
    if (kb.status &&& kbdShift) ||| (kb.status &&& kbdCaps) ≠ 0 then kb.km.shiftmod k
    else kb.km.mod k
  else if kb.status &&& kbdCaps ≠ 0 ∧ kb.status &&& kbdShift ≠ 0 then kb.km.shiftcaps k
  else if kb.status &&& kbdShift ≠ 0 then kb.km.shift k
  else if kb.status &&& kbdCaps ≠ 0 then kb.km.caps k
  else kb.km.normal k

/-- `make_key`. -/
def makeKey (kb : KeyboardT) (k : Nat) (down : Bool) : KeyT × KeyboardT :=
  if h : k < 128 then
    if ctrlkeys.getD k 0 ≠ 0 then (⟨ctrlkeys.getD k 0, kb.status⟩, kb)
    else if down then
      (⟨keyChr kb ⟨k, h⟩, kb.status ||| kbdChar⟩,
        { kb with keyChar := Function.update kb.keyChar k (keyChr kb ⟨k, h⟩) })
    else (⟨kb.keyChar k, kb.status ||| kbdChar⟩, kb)
  else (⟨0, kb.status⟩, kb)

/-- The first part of `keyboard_press`. -/
def pressStatus (kb : KeyboardT) (k : Nat) : UInt32 :=
  if k = kbdCodeLshift ∨ k = kbdCodeRshift then kb.status ||| kbdShift
  else if k = kbdCodeLctrl ∨ k = kbdCodeRctrl then kb.status ||| kbdCtrl
  else if k = kbdCodeLsuper ∨ k = kbdCodeRsuper then kb.status ||| kbdSuper
  else if k = kbdCodeLalt ∨ kb.km.raltIsMod = false ∧ k = kbdCodeRalt then kb.status ||| kbdAlt
  else if kb.km.raltIsMod ∧ k = kbdCodeRalt then kb.status ||| kbdMod
  else if kb.km.raltIsMod ∧ k = kbdCodeCapslock then kb.status ^^^ kbdCaps
  else kb.status

/-- `keyboard_press`. -/
def keyboardPress (kb : KeyboardT) (k : Nat) : KeyT × KeyboardT :=
  makeKey { kb with status := pressStatus kb k } k true

/-- The first part of `keyboard_release`. -/
def releaseStatus (kb : KeyboardT) (k : Nat) : UInt32 :=
  if k = kbdCodeLshift ∨ k = kbdCodeRshift then kb.status &&& ~~~kbdShift
  else if k = kbdCodeLctrl ∨ k = kbdCodeRctrl then kb.status &&& ~~~kbdCtrl
  else if k = kbdCodeLsuper ∨ k = kbdCodeRsuper then kb.status &&& ~~~kbdSuper
  else if k = kbdCodeLalt ∨ kb.km.raltIsMod = false ∧ k = kbdCodeRalt then kb.status &&& ~~~kbdAlt
  else if kb.km.raltIsMod ∧ k = kbdCodeRalt then kb.status &&& ~~~kbdMod
  else kb.status

/-- `keyboard_release`. -/
def keyboardRelease (kb : KeyboardT) (k : Nat) : KeyT × KeyboardT :=
  makeKey { kb with status := releaseStatus kb k } k false

/-- A keyboard in use: the keys that are held, how often CapsLock has been pressed, and what each
key has reported at its last press. -/
structure KeyboardRun where
  kb : KeyboardT
  held : Nat → Bool
  capsPresses : Nat
  reported : Nat → Int

/-- What happens to a key. -/
inductive KeyEvent where
  | press (k : Nat)
  | release (k : Nat)
  deriving DecidableEq

namespace KeyboardRun

/-- A key is pressed. -/
def press (s : KeyboardRun) (k : Nat) : KeyboardRun where
  kb := (keyboardPress s.kb k).2
  held := Function.update s.held k true
  capsPresses := if k = kbdCodeCapslock then s.capsPresses + 1 else s.capsPresses
  reported := Function.update s.reported k (keyboardPress s.kb k).1.chr

/-- A key is released. -/
def release (s : KeyboardRun) (k : Nat) : KeyboardRun :=
  { s with kb := (keyboardRelease s.kb k).2, held := Function.update s.held k false }

/-- A key that is not held is pressed, or one that is held is released. -/
def step (s : KeyboardRun) : KeyEvent → Option KeyboardRun
  | .press k => if s.held k then none else some (s.press k)
  | .release k => if s.held k then some (s.release k) else none

/-- A keymap has been loaded, and no key is held. -/
def Initial (s : KeyboardRun) : Prop :=
  s.kb.status = 0 ∧ (∀ k, s.held k = false) ∧ s.capsPresses = 0

/-- The bits of the mask are those of the keys that are held, and a key that is released will report
what it reported when it was pressed. -/
structure Correct (s : KeyboardRun) : Prop where
  shift : s.kb.status &&& kbdShift ≠ 0 ↔
    s.held kbdCodeLshift = true ∨ s.held kbdCodeRshift = true
  ctrl : s.kb.status &&& kbdCtrl ≠ 0 ↔ s.held kbdCodeLctrl = true ∨ s.held kbdCodeRctrl = true
  super : s.kb.status &&& kbdSuper ≠ 0 ↔
    s.held kbdCodeLsuper = true ∨ s.held kbdCodeRsuper = true
  alt : s.kb.status &&& kbdAlt ≠ 0 ↔ s.held kbdCodeLalt = true ∨
    s.kb.km.raltIsMod = false ∧ s.held kbdCodeRalt = true
  mod : s.kb.status &&& kbdMod ≠ 0 ↔ s.kb.km.raltIsMod = true ∧ s.held kbdCodeRalt = true
  caps : s.kb.status &&& kbdCaps ≠ 0 ↔ s.capsPresses % 2 = 1
  released : ∀ k < 128, s.held k = true → (keyboardRelease s.kb k).1.chr = s.reported k

/-- The bit that a key stands for under the keymap. -/
def modifier (km : Keymap) (k : Nat) : Option UInt32 :=
  if k = kbdCodeLshift ∨ k = kbdCodeRshift then some kbdShift
  else if k = kbdCodeLctrl ∨ k = kbdCodeRctrl then some kbdCtrl
  else if k = kbdCodeLsuper ∨ k = kbdCodeRsuper then some kbdSuper
  else if k = kbdCodeLalt ∨ km.raltIsMod = false ∧ k = kbdCodeRalt then some kbdAlt
  else if km.raltIsMod ∧ k = kbdCodeRalt then some kbdMod
  else none

/-- CapsLock is pressed only where the right alt key is a modifier of its own, and a modifier is
released when the other key that stands for its bit is not held. -/
def Apart (s : KeyboardRun) : KeyEvent → Prop
  | .press k => k = kbdCodeCapslock → s.kb.km.raltIsMod = true
  | .release k => ∀ other, other ≠ k → modifier s.kb.km k ≠ none →
      modifier s.kb.km other = modifier s.kb.km k → s.held other = false

section Masks

variable {km : Keymap} {k : Nat} {status m : UInt32} {held : Nat → Bool}

/-- The bits that keys stand for while they are held. -/
def heldBits : List UInt32 := [kbdAlt, kbdCtrl, kbdSuper, kbdShift, kbdMod]

/-- The bit is set exactly when a key that stands for it is held. -/
def Shown (km : Keymap) (status : UInt32) (held : Nat → Bool) (m : UInt32) : Prop :=
  status &&& m ≠ 0 ↔ ∃ k, modifier km k = some m ∧ held k = true

theorem modifier_mem (h : modifier km k = some m) : m ∈ heldBits := by
  unfold modifier at h
  repeat' split at h
  all_goals first
    | cases h
      decide
    | cases h

theorem held_bits_disjoint : ∀ m ∈ heldBits, ∀ r ∈ heldBits, m ≠ r → m &&& r = 0 := by
  have hall : (heldBits.all fun m => heldBits.all fun r => m ≠ r → m &&& r = 0) = true := by
    decide
  exact fun m hm r hr =>
    of_decide_eq_true (List.all_eq_true.mp (List.all_eq_true.mp hall m hm) r hr)

theorem held_bits_not_caps : ∀ m ∈ heldBits, m &&& kbdCaps = 0 ∧ kbdCaps &&& m = 0 ∧ m ≠ 0 := by
  have hall : (heldBits.all fun m => m &&& kbdCaps = 0 ∧ kbdCaps &&& m = 0 ∧ m ≠ 0) = true := by
    decide
  exact fun m hm => of_decide_eq_true (List.all_eq_true.mp hall m hm)

theorem caps_not_modifier : modifier km kbdCodeCapslock = none := by
  unfold modifier
  cases km.raltIsMod <;> decide

theorem press_status_eq (kb : KeyboardT) (k : Nat) : pressStatus kb k =
    match modifier kb.km k with
    | some m => kb.status ||| m
    | none => if kb.km.raltIsMod = true ∧ k = kbdCodeCapslock then kb.status ^^^ kbdCaps
        else kb.status := by
  unfold pressStatus modifier
  repeat' split
  all_goals first
    | rfl
    | contradiction
    | simp_all

theorem release_status_eq (kb : KeyboardT) (k : Nat) : releaseStatus kb k =
    match modifier kb.km k with
    | some m => kb.status &&& ~~~m
    | none => kb.status := by
  unfold releaseStatus modifier
  repeat' split
  all_goals first
    | rfl
    | contradiction
    | simp_all

/-- A key that does not stand for the bit does not matter to it. -/
theorem held_update_iff (hk : modifier km k ≠ some m) (v : Bool) :
    (∃ other, modifier km other = some m ∧ Function.update held k v other = true) ↔
      ∃ other, modifier km other = some m ∧ held other = true := by
  refine exists_congr fun other => and_congr_right fun hother => ?_
  have hne : other ≠ k := by
    rintro rfl
    exact hk hother
  rw [Function.update_of_ne hne]

theorem shown_other {status' : UInt32} (h : Shown km status held m)
    (hk : modifier km k ≠ some m) (hsame : status' &&& m = status &&& m) (v : Bool) :
    Shown km status' (Function.update held k v) m := by
  unfold Shown
  rw [hsame, held_update_iff hk]
  exact h

/-- A key that is pressed sets its bit. -/
theorem shown_set {b : UInt32} (h : Shown km status held m) (hm : m ∈ heldBits)
    (hk : modifier km k = some b) :
    Shown km (status ||| b) (Function.update held k true) m := by
  by_cases hb : b = m
  · subst hb
    refine iff_of_true ?_ ⟨k, hk, Function.update_self ..⟩
    rw [Mask.or_and_self]
    exact (held_bits_not_caps b hm).2.2
  · refine shown_other h (fun hsome => hb (Option.some.inj (hk.symm.trans hsome))) ?_ true
    exact Mask.or_and_of_disjoint (held_bits_disjoint b (modifier_mem hk) m hm hb)

/-- A key that is released clears its bit. -/
theorem shown_cleared_iff {b : UInt32} (h : Shown km status held m) (hm : m ∈ heldBits)
    (hk : modifier km k = some b) :
    Shown km (status &&& ~~~b) (Function.update held k false) m ↔
      (b = m → ∀ other, other ≠ k → modifier km other = some m → held other = false) := by
  by_cases hb : b = m
  · subst hb
    have hcleared : (status &&& ~~~b) &&& b = 0 := by
      rw [UInt32.and_assoc, UInt32.and_comm (~~~b) b, UInt32.and_not_self, UInt32.and_zero]
    unfold Shown
    rw [hcleared]
    constructor
    · intro hshown _ other hne hother
      by_contra hheld
      refine hshown.mpr ⟨other, hother, ?_⟩ rfl
      rw [Function.update_of_ne hne]
      exact eq_true_of_ne_false hheld
    · intro hothers
      refine iff_of_false (fun hne => hne rfl) ?_
      rintro ⟨other, hother, hheld⟩
      by_cases hne : other = k
      · rw [hne, Function.update_self] at hheld
        cases hheld
      · rw [Function.update_of_ne hne, hothers rfl other hne hother] at hheld
        cases hheld
  · refine iff_of_true ?_ fun heq => absurd heq hb
    refine shown_other h (fun hsome => hb (Option.some.inj (hk.symm.trans hsome))) ?_ false
    exact Mask.and_not_and_of_disjoint (held_bits_disjoint b (modifier_mem hk) m hm hb)

end Masks

section Keys

variable {kb : KeyboardT} {k other : Nat}

@[simp] theorem make_key_km (kb : KeyboardT) (k : Nat) (down : Bool) :
    (makeKey kb k down).2.km = kb.km := by
  unfold makeKey
  split_ifs <;> rfl

@[simp] theorem make_key_status (kb : KeyboardT) (k : Nat) (down : Bool) :
    (makeKey kb k down).2.status = kb.status := by
  unfold makeKey
  split_ifs <;> rfl

/-- What a key that is released reports does not depend on the mask. -/
def releaseChr (kb : KeyboardT) (k : Nat) : Int :=
  if ctrlkeys.getD k 0 ≠ 0 then ctrlkeys.getD k 0 else kb.keyChar k

theorem release_chr_eq (hk : k < 128) : (keyboardRelease kb k).1.chr = releaseChr kb k := by
  unfold keyboardRelease makeKey releaseChr
  rw [dif_pos hk, if_neg Bool.false_ne_true]
  split_ifs <;> rfl

/-- A key reports the same when it is pressed and released. -/
theorem release_chr_press (hk : k < 128) :
    releaseChr (keyboardPress kb k).2 k = (keyboardPress kb k).1.chr := by
  unfold keyboardPress makeKey releaseChr
  rw [dif_pos hk]
  by_cases hctrl : ctrlkeys.getD k 0 ≠ 0
  · rw [if_pos hctrl, if_pos hctrl]
  · rw [if_neg hctrl, if_neg hctrl, if_pos rfl]
    exact Function.update_self ..

/-- A key that is pressed leaves what the others have reported. -/
theorem release_chr_press_of_ne (h : other ≠ k) :
    releaseChr (keyboardPress kb k).2 other = releaseChr kb other := by
  have hchar : (keyboardPress kb k).2.keyChar other = kb.keyChar other := by
    simp only [keyboardPress, makeKey, if_true]
    split_ifs
    · rfl
    · exact Function.update_of_ne h ..
    · rfl
  unfold releaseChr
  rw [hchar]

theorem release_chr_release : releaseChr (keyboardRelease kb k).2 other = releaseChr kb other := by
  have hchar : (keyboardRelease kb k).2.keyChar other = kb.keyChar other := by
    simp only [keyboardRelease, makeKey, Bool.false_eq_true, if_false]
    split_ifs <;> rfl
  unfold releaseChr
  rw [hchar]

end Keys

section Steps

variable {s s' : KeyboardRun} {k : Nat} {m : UInt32}

/-- `Correct`, by the bits that keys stand for. -/
structure Sound (s : KeyboardRun) : Prop where
  shown : ∀ m ∈ heldBits, Shown s.kb.km s.kb.status s.held m
  caps : s.kb.status &&& kbdCaps ≠ 0 ↔ s.capsPresses % 2 = 1
  released : ∀ k < 128, s.held k = true → releaseChr s.kb k = s.reported k

/-- The keys that stand for each bit. -/
theorem modifier_iff (km : Keymap) (k : Nat) :
    (modifier km k = some kbdShift ↔ k = kbdCodeLshift ∨ k = kbdCodeRshift) ∧
    (modifier km k = some kbdCtrl ↔ k = kbdCodeLctrl ∨ k = kbdCodeRctrl) ∧
    (modifier km k = some kbdSuper ↔ k = kbdCodeLsuper ∨ k = kbdCodeRsuper) ∧
    (modifier km k = some kbdAlt ↔ k = kbdCodeLalt ∨ km.raltIsMod = false ∧ k = kbdCodeRalt) ∧
    (modifier km k = some kbdMod ↔ km.raltIsMod = true ∧ k = kbdCodeRalt) := by
  unfold modifier
  generalize km.raltIsMod = ralt
  split_ifs with hshift hctrl hsuper halt hmod
  · rcases hshift with rfl | rfl <;> revert ralt <;> decide
  · rcases hctrl with rfl | rfl <;> revert ralt <;> decide
  · rcases hsuper with rfl | rfl <;> revert ralt <;> decide
  · rcases halt with rfl | ⟨rfl, rfl⟩
    · revert ralt
      decide
    · decide
  · obtain ⟨rfl, rfl⟩ := hmod
    decide
  · simp [hshift, hctrl, hsuper, halt, hmod]

theorem exists_held_iff {P : Nat → Prop} {a b : Nat} (h : ∀ k, P k ↔ k = a ∨ k = b)
    (held : Nat → Bool) :
    (∃ k, P k ∧ held k = true) ↔ held a = true ∨ held b = true := by
  simp only [h, or_and_right, exists_or, exists_eq_left]

theorem correct_iff : Correct s ↔ Sound s := by
  have hshift := exists_held_iff (fun k => (modifier_iff s.kb.km k).1) s.held
  have hctrl := exists_held_iff (fun k => (modifier_iff s.kb.km k).2.1) s.held
  have hsuper := exists_held_iff (fun k => (modifier_iff s.kb.km k).2.2.1) s.held
  have halt : (∃ k, modifier s.kb.km k = some kbdAlt ∧ s.held k = true) ↔
      s.held kbdCodeLalt = true ∨ s.kb.km.raltIsMod = false ∧ s.held kbdCodeRalt = true := by
    simp only [(modifier_iff _ _).2.2.2.1, or_and_right, exists_or, exists_eq_left, and_assoc,
      exists_and_left]
  have hmod : (∃ k, modifier s.kb.km k = some kbdMod ∧ s.held k = true) ↔
      s.kb.km.raltIsMod = true ∧ s.held kbdCodeRalt = true := by
    simp only [(modifier_iff _ _).2.2.2.2, and_assoc, exists_and_left, exists_eq_left]
  constructor
  · rintro ⟨shift, ctrl, super, alt, mod, caps, released⟩
    refine ⟨?_, caps, fun k hk hheld => ?_⟩
    · unfold heldBits Shown
      simp only [List.forall_mem_cons, hshift, hctrl, hsuper, halt, hmod]
      exact ⟨alt, ctrl, super, shift, mod, fun _ h => by cases h⟩
    · rw [← release_chr_eq hk]
      exact released k hk hheld
  · rintro ⟨hshown, caps, released⟩
    unfold heldBits Shown at hshown
    simp only [List.forall_mem_cons, hshift, hctrl, hsuper, halt, hmod] at hshown
    obtain ⟨alt, ctrl, super, shift, mod, -⟩ := hshown
    refine ⟨shift, ctrl, super, alt, mod, caps, fun k hk hheld => ?_⟩
    rw [release_chr_eq hk]
    exact released k hk hheld

theorem caps_toggled (status : UInt32) :
    (status ^^^ kbdCaps) &&& kbdCaps ≠ 0 ↔ status &&& kbdCaps = 0 :=
  Mask.xor_and_self (Mask.and_one_flag status (show kbdCaps.toNat = 2 ^ 5 from rfl)) (by decide)

@[simp] theorem press_status : (s.press k).kb.status = pressStatus s.kb k := make_key_status ..

@[simp] theorem press_km : (s.press k).kb.km = s.kb.km := make_key_km ..

@[simp] theorem release_status : (s.release k).kb.status = releaseStatus s.kb k :=
  make_key_status ..

@[simp] theorem release_km : (s.release k).kb.km = s.kb.km := make_key_km ..

theorem press_released (h : Sound s) : ∀ j < 128, (s.press k).held j = true →
    releaseChr (s.press k).kb j = (s.press k).reported j := by
  intro j hj hheld
  show _ = Function.update s.reported k (keyboardPress s.kb k).1.chr j
  change Function.update s.held k true j = true at hheld
  by_cases hjk : j = k
  · subst hjk
    rw [Function.update_self]
    exact release_chr_press hj
  · rw [Function.update_of_ne hjk] at hheld ⊢
    exact (release_chr_press_of_ne hjk).trans (h.released j hj hheld)

theorem release_released (h : Sound s) : ∀ j < 128, (s.release k).held j = true →
    releaseChr (s.release k).kb j = (s.release k).reported j := by
  intro j hj hheld
  change Function.update s.held k false j = true at hheld
  by_cases hjk : j = k
  · rw [hjk, Function.update_self] at hheld
    cases hheld
  · rw [Function.update_of_ne hjk] at hheld
    exact release_chr_release.trans (h.released j hj hheld)

/-- A key that is pressed leaves the keyboard sound, unless it is a CapsLock that does nothing. -/
theorem sound_press_iff (h : Sound s) : Sound (s.press k) ↔ Apart s (.press k) := by
  have hpress := press_status_eq s.kb k
  cases hmod : modifier s.kb.km k with
  | some b =>
      rw [hmod] at hpress
      have hcapslock : k ≠ kbdCodeCapslock := by
        rintro rfl
        cases caps_not_modifier.symm.trans hmod
      refine iff_of_true ⟨fun m hm => ?_, ?_, press_released h⟩ fun heq => absurd heq hcapslock
      · rw [press_status, press_km, hpress]
        exact shown_set (h.shown m hm) hm hmod
      · show _ ↔ (if k = kbdCodeCapslock then s.capsPresses + 1 else s.capsPresses) % 2 = 1
        rw [press_status, hpress, if_neg hcapslock]
        show (s.kb.status ||| b) &&& kbdCaps ≠ 0 ↔ _
        rw [Mask.or_and_of_disjoint (held_bits_not_caps b (modifier_mem hmod)).1]
        exact h.caps
  | none =>
      rw [hmod] at hpress
      have hother : ∀ m, modifier s.kb.km k ≠ some m := by
        intro m hsome
        cases hmod.symm.trans hsome
      by_cases hcapslock : k = kbdCodeCapslock
      · cases hralt : s.kb.km.raltIsMod with
        | true =>
            change pressStatus s.kb k = _ at hpress
            rw [if_pos ⟨hralt, hcapslock⟩] at hpress
            refine iff_of_true ⟨fun m hm => ?_, ?_, press_released h⟩ fun _ => hralt
            · rw [press_status, press_km, hpress]
              exact shown_other (h.shown m hm) (hother m)
                (Mask.xor_and_of_disjoint (held_bits_not_caps m hm).2.1) true
            · show _ ↔ (if k = kbdCodeCapslock then s.capsPresses + 1 else s.capsPresses) % 2 = 1
              have hcaps := h.caps
              have hparity : (s.capsPresses + 1) % 2 = 1 ↔ ¬s.capsPresses % 2 = 1 := by omega
              rw [press_status, hpress, if_pos hcapslock, caps_toggled, hparity, ← hcaps, not_not]
        | false =>
            change pressStatus s.kb k = _ at hpress
            rw [if_neg (fun hboth => by rw [hralt] at hboth; cases hboth.1)] at hpress
            refine iff_of_false (fun hsound => ?_) fun hapart => ?_
            · have hcaps := h.caps
              have hcaps' := hsound.caps
              change _ ↔ (if k = kbdCodeCapslock then s.capsPresses + 1 else s.capsPresses) % 2 = 1
                at hcaps'
              rw [press_status, hpress, if_pos hcapslock] at hcaps'
              have hparity := hcaps.symm.trans hcaps'
              omega
            · cases hralt.symm.trans (hapart hcapslock)
      · change pressStatus s.kb k = _ at hpress
        rw [if_neg fun hboth => hcapslock hboth.2] at hpress
        refine iff_of_true ⟨fun m hm => ?_, ?_, press_released h⟩ fun heq => absurd heq hcapslock
        · rw [press_status, press_km, hpress]
          exact shown_other (h.shown m hm) (hother m) rfl true
        · show _ ↔ (if k = kbdCodeCapslock then s.capsPresses + 1 else s.capsPresses) % 2 = 1
          rw [press_status, hpress, if_neg hcapslock]
          exact h.caps

/-- A key that is released leaves the keyboard sound, unless it clears a bit that another key that
is held stands for. -/
theorem sound_release_iff (h : Sound s) : Sound (s.release k) ↔ Apart s (.release k) := by
  have hrelease := release_status_eq s.kb k
  cases hmod : modifier s.kb.km k with
  | some b =>
      rw [hmod] at hrelease
      have hshown : ∀ m ∈ heldBits, Shown (s.release k).kb.km (s.release k).kb.status
          (s.release k).held m ↔ (b = m → ∀ other, other ≠ k →
            modifier s.kb.km other = some m → s.held other = false) := by
        intro m hm
        rw [release_status, release_km, hrelease]
        exact shown_cleared_iff (h.shown m hm) hm hmod
      constructor
      · intro hsound other hne _ hsame
        have hb := (hshown b (modifier_mem hmod)).mp (hsound.shown b (modifier_mem hmod))
        exact hb rfl other hne (hsame.trans hmod)
      · intro hapart
        refine ⟨fun m hm => (hshown m hm).mpr ?_, ?_, release_released h⟩
        · rintro rfl other hne hother
          refine hapart other hne ?_ (hother.trans hmod.symm)
          rw [hmod]
          exact Option.some_ne_none b
        · rw [release_status, hrelease]
          show (s.kb.status &&& ~~~b) &&& kbdCaps ≠ 0 ↔ _
          rw [Mask.and_not_and_of_disjoint (held_bits_not_caps b (modifier_mem hmod)).1]
          exact h.caps
  | none =>
      rw [hmod] at hrelease
      refine iff_of_true ⟨fun m hm => ?_, ?_, release_released h⟩
        fun other _ hsome => absurd hmod hsome
      · rw [release_status, release_km, hrelease]
        refine shown_other (h.shown m hm) (fun hsome => ?_) rfl false
        cases hmod.symm.trans hsome
      · rw [release_status, hrelease]
        exact h.caps

theorem Initial.sound (h : s.Initial) : Sound s := by
  obtain ⟨hstatus, hheld, hpresses⟩ := h
  refine ⟨fun m _ => ?_, ?_, fun k _ hk => ?_⟩
  · unfold Shown
    rw [hstatus, UInt32.zero_and]
    refine iff_of_false (fun hne => hne rfl) ?_
    rintro ⟨k, -, hk⟩
    cases (hheld k).symm.trans hk
  · rw [hstatus, hpresses]
    decide
  · cases (hheld k).symm.trans hk

/-- The runs in which no modifier is released while the other key for its bit is held, and CapsLock
is pressed only where it does something. -/
def keyboardRuns : System KeyboardRun :=
  eventRuns Initial step Apart

/-- In these runs the keyboard is correct, and it stays so exactly as long as the next event is of
this kind. -/
theorem keyboard_correct_iff (hs : Reachable keyboardRuns s) :
    Correct s ∧ ∀ event s', s.step event = some s' → (Correct s' ↔ Apart s event) := by
  have hevent : ∀ {s : KeyboardRun}, Sound s → ∀ event s', s.step event = some s' →
      (Sound s' ↔ Apart s event) := by
    intro s h event s' hstep
    cases event with
    | press k =>
        rw [step] at hstep
        split at hstep
        · cases hstep
        · cases hstep
          exact sound_press_iff h
    | release k =>
        rw [step] at hstep
        split at hstep
        · cases hstep
          exact sound_release_iff h
        · cases hstep
  have hsound : Sound s := by
    refine Reachable.induct (motive := Sound) ?_ ?_ hs
    · exact fun s h => h.sound
    · rintro s s' h ⟨event, hapart, hstep⟩
      exact (hevent h event s' hstep).mpr hapart
  refine ⟨correct_iff.mpr hsound, fun event s' hstep => ?_⟩
  rw [correct_iff]
  exact hevent hsound event s' hstep

end Steps

/-- A keyboard on which every key has the same character. -/
def blank (raltIsMod : Bool) : KeyboardRun where
  kb := {
    km := {
      normal := fun _ => 0
      shift := fun _ => 0
      caps := fun _ => 0
      shiftcaps := fun _ => 0
      mod := fun _ => 0
      shiftmod := fun _ => 0
      raltIsMod := raltIsMod }
    keyChar := fun _ => 0
    status := 0 }
  held := fun _ => false
  capsPresses := 0
  reported := fun _ => 0

theorem keyboard_correct_shift : Correct ((blank true).press kbdCodeLshift) := by
  have hinit : Reachable keyboardRuns (blank true) := .init ⟨rfl, fun _ => rfl, rfl⟩
  have hreach : Reachable keyboardRuns ((blank true).press kbdCodeLshift) :=
    hinit.step ⟨.press kbdCodeLshift, fun _ => rfl, rfl⟩
  exact (keyboard_correct_iff hreach).1

/-- Both shift keys are pressed, and one of them is released. -/
theorem shift_lost : ¬∀ s, Reachable (eventRuns Initial step fun _ _ => True) s → Correct s := by
  intro hclaim
  have hinit : Reachable (eventRuns Initial step fun _ _ => True) (blank true) :=
    .init ⟨rfl, fun _ => rfl, rfl⟩
  have hleft := hinit.step ⟨.press kbdCodeLshift, trivial, rfl⟩
  have hboth := hleft.step ⟨.press kbdCodeRshift, trivial, rfl⟩
  have hone := hboth.step ⟨.release kbdCodeRshift, trivial, rfl⟩
  exact absurd ((hclaim _ hone).shift.mpr (.inl rfl)) (by decide)

end KeyboardRun

end Kogata.User
