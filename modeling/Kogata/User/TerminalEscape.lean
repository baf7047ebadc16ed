import Kogata.User.TerminalBounds
import Mathlib.Algebra.Order.Ring.Int
import Mathlib.Data.List.Infix
import Mathlib.Tactic.Ring

/-!
# The escape sequences of the terminal

`term_putc` of `sysbin/terminal/main.c` on the array that holds the escape sequence. Every byte of
a sequence is stored behind the ones before it, and the array is read again from its start.
Stores outside of the array, loads behind the sequence and sums that do not fit into an `int`
are faults.

The bytes are stored without a test. A sequence that is not finished after ten bytes goes on
behind the array (`sequences_fit_iff`).
-/

namespace Kogata.User

/-- What must not happen while an escape sequence is read. -/
inductive EscFault where
  /-- A byte is stored outside of `esc_seq`. -/
  | outside
  /-- A byte is loaded that is not part of the sequence. -/
  | unread
  /-- A number does not fit into an `int`. -/
  | overflow
  deriving DecidableEq

/-- `term_t`, with `esc_seq` as the array that it is. The list in `screen` is not used. -/
structure EscTerm where
  escSeq : Vector UInt8 10
  escSeqLen : Nat
  screen : Term

namespace EscTerm

/-- `t->esc_seq[t->esc_seq_len++] = c`. -/
def push (t : EscTerm) (c : UInt8) : Except EscFault EscTerm :=
  if h : t.escSeqLen < 10 then
    .ok { t with escSeq := t.escSeq.set t.escSeqLen c, escSeqLen := t.escSeqLen + 1 }
  else .error .outside

/-- `t->esc_seq[i]`. -/
def load (t : EscTerm) (i : Nat) : Except EscFault UInt8 :=
  if h : i < t.escSeqLen ∧ i < 10 then .ok t.escSeq[i] else .error .unread

/-- The value of an `int` expression. -/
def toInt (x : Int) : Except EscFault Int :=
  if -2 ^ 31 ≤ x ∧ x < 2 ^ 31 then .ok x else .error .overflow

/-- The loop over the digits of a number, each of which counts as its distance from `zero`. There
are no more turns than `fuel`, which is the length of the sequence. -/
def scanNumber (t : EscTerm) (zero : Int) : Nat → Nat → Int → Except EscFault (Nat × Int)
  | 0, i, n => .ok (i, n)
  | fuel + 1, i, n =>
      if i < t.escSeqLen then do
        if 48 ≤ (← t.load i) then
          if (← t.load i) ≤ 57 then
            let tens ← toInt (n * 10)
            let digit ← toInt ((← t.load i).toNat - zero)
            scanNumber t zero fuel (i + 1) (← toInt (tens + digit))
          else .ok (i, n)
        else .ok (i, n)
      else .ok (i, n)

/-- The byte behind the numbers finishes the sequence. -/
def finish (t : EscTerm) (i : Nat) (n : Int) : Except EscFault EscTerm := do
  let c ← t.load i
  .ok { t with screen := escFinal t.screen n c, escSeqLen := 0 }

/-- The part of `term_putc` that parses the escape sequence. -/
def parse (t : EscTerm) : Except EscFault EscTerm :=
  if 2 ≤ t.escSeqLen then do
    if (← t.load 1) = 91 then
      let (i, n) ← t.scanNumber 48 t.escSeqLen 2 0
      if i = t.escSeqLen then .ok t
      else if (← t.load i) = 59 then
        let (i, _) ← t.scanNumber 0 t.escSeqLen (i + 1) 0
        if i = t.escSeqLen then .ok t else t.finish i n
      else t.finish i n
    else .ok { t with escSeqLen := 0 }
  else .ok t

/-- `term_putc`. -/
def termPutc (t : EscTerm) (c : UInt8) : Except EscFault EscTerm :=
  if 0 < t.escSeqLen ∨ c = 27 then do (← t.push c).parse
  else .ok { t with screen := termPutPlain t.screen c }

/-- A stream of bytes, one after the other. -/
def feed : EscTerm → List UInt8 → Except EscFault EscTerm := List.foldlM termPutc

/-- The terminal after `memset`, with any screen. -/
def start (screen : Term) : EscTerm where
  escSeq := Vector.replicate 10 0
  escSeqLen := 0
  screen := screen

/-- The bytes of the sequence that is being read. -/
def used (t : EscTerm) : List UInt8 := t.escSeq.toList.take t.escSeqLen

/-- The terminal with its escape sequence as a list. -/
def listed (t : EscTerm) : Term := { t.screen with escSeq := t.used }

end EscTerm

/-- A decimal digit. -/
def IsDigit (d : UInt8) : Prop := 48 ≤ d ∧ d ≤ 57

/-- An escape sequence that may go on: after `ESC`, after `ESC [` and digits, or after a `;` behind
these and more digits. -/
inductive Unfinished : List UInt8 → Prop where
  | escape : Unfinished [27]
  | first (ds : List UInt8) (hds : ∀ d ∈ ds, IsDigit d) : Unfinished (27 :: 91 :: ds)
  | second (ds es : List UInt8) (hds : ∀ d ∈ ds, IsDigit d) (hes : ∀ d ∈ es, IsDigit d) :
      Unfinished (27 :: 91 :: (ds ++ 59 :: es))

/-- Bytes that end where no sequence is being read, each sequence among them being finished by
its tenth byte. -/
inductive Finished : List UInt8 → Prop where
  | nil : Finished []
  | plain {pre : List UInt8} {c : UInt8} (hpre : Finished pre) (hc : c ≠ 27) :
      Finished (pre ++ [c])
  | sequence {pre seq : List UInt8} {c : UInt8} (hpre : Finished pre) (hseq : Unfinished seq)
      (hlen : seq.length < 10) (hend : ¬ Unfinished (seq ++ [c])) : Finished (pre ++ (seq ++ [c]))

/-- Somewhere in the stream a sequence is not finished after ten bytes, and another byte comes. -/
def Overlong (bytes : List UInt8) : Prop :=
  ∃ pre seq c post, bytes = pre ++ (seq ++ c :: post) ∧ Finished pre ∧ Unfinished seq ∧
    seq.length = 10

section Grammar

variable {ds : List UInt8} {t : Term}

/-- The digits are skipped up to what does not start with a digit. -/
theorem esc_number_append (zero n : Int) (hds : ∀ d ∈ ds, IsDigit d) (rest : List UInt8)
    (hrest : ∀ c ∈ rest.head?, ¬ IsDigit c) : ∃ m, escNumber zero n (ds ++ rest) = (m, rest) := by
  induction ds generalizing n with
  | nil =>
      cases rest with
      | nil => exact ⟨n, rfl⟩
      | cons c rest => exact ⟨n, if_neg (hrest c rfl)⟩
  | cons d ds ih =>
      rw [List.forall_mem_cons] at hds
      obtain ⟨m, hm⟩ := ih (n * 10 + (d.toNat - zero)) hds.2
      exact ⟨m, (if_pos hds.1).trans hm⟩

/-- What is skipped is digits. -/
theorem esc_number_split (zero n : Int) (l : List UInt8) :
    ∃ ds, l = ds ++ (escNumber zero n l).2 ∧ ∀ d ∈ ds, IsDigit d := by
  induction l generalizing n with
  | nil => exact ⟨[], rfl, by simp⟩
  | cons d l ih =>
      rw [escNumber]
      split
      · next hd =>
          obtain ⟨ds, hl, hds⟩ := ih (n * 10 + (d.toNat - zero))
          exact ⟨d :: ds, congrArg (d :: ·) hl, List.forall_mem_cons.mpr ⟨hd, hds⟩⟩
      · exact ⟨[], rfl, by simp⟩

/-- A sequence that may go on is left as it is. -/
theorem parse_unfinished (h : Unfinished t.escSeq) : parseEscape t = t := by
  have hsemicolon : ¬ IsDigit 59 := fun h => absurd h.2 (by decide)
  generalize hs : t.escSeq = s at h
  cases h with
  | escape => simp [parseEscape, hs]
  | first ds hds =>
      obtain ⟨n, hn⟩ := esc_number_append 48 0 hds [] (by simp)
      rw [List.append_nil] at hn
      simp [parseEscape, hs, hn]
  | second ds es hds hes =>
      obtain ⟨n, hn⟩ := esc_number_append 48 0 hds (59 :: es)
        (by simpa using hsemicolon)
      obtain ⟨m, hm⟩ := esc_number_append 0 0 hes [] (by simp)
      rw [List.append_nil] at hm
      simp [parseEscape, hs, hn, hm]

/-- A sequence that starts with `ESC` and may not go on is finished. -/
theorem parse_finished (rest : List UInt8) (hs : t.escSeq = 27 :: rest)
    (h : ¬ Unfinished t.escSeq) : (parseEscape t).escSeq = [] := by
  rw [hs] at h
  rw [parseEscape, hs]
  split
  · next e rest' heq =>
      obtain ⟨rfl, rfl⟩ := List.cons.inj heq
      obtain ⟨ds, hsplit, hds⟩ := esc_number_split 48 0 rest'
      split
      · next n hn =>
          rw [hn, List.append_nil] at hsplit
          exact absurd (hsplit ▸ .first ds hds) h
      · next n es hn =>
          rw [hn] at hsplit
          obtain ⟨ds', hsplit', hds'⟩ := esc_number_split 0 0 es
          split
          · next m hm =>
              rw [hm, List.append_nil] at hsplit'
              rw [hsplit, hsplit'] at h
              exact absurd (.second ds ds' hds hds') h
          · rfl
      · rfl
  · rfl
  · next hcsi hlong =>
      cases rest with
      | nil => exact absurd .escape h
      | cons c rest => exact absurd rfl (hlong 27 c rest)

end Grammar

namespace EscTerm

variable {t : EscTerm} {i : Nat} {c : UInt8} {n : Int}

theorem used_length (hlen : t.escSeqLen ≤ 10) : t.used.length = t.escSeqLen := by
  simp [used, hlen]

/-- Nothing is left behind the sequence. -/
theorem drop_end (hlen : t.escSeqLen ≤ 10) (hi : i = t.escSeqLen) : t.used.drop i = [] :=
  List.drop_eq_nil_of_le (by rw [used_length hlen, hi])

/-- A byte of the sequence is loaded, and it stands where the list says. -/
theorem load_eq (hlen : t.escSeqLen ≤ 10) (hi : i < t.escSeqLen) :
    ∃ c, t.load i = .ok c ∧ t.used.drop i = c :: t.used.drop (i + 1) := by
  have hused : i < t.used.length := by rwa [used_length hlen]
  refine ⟨t.used[i], ?_, List.drop_eq_getElem_cons hused⟩
  rw [load, dif_pos ⟨hi, by omega⟩]
  simp [used]

/-- A sum over digits fits into an `int` as long as there are at most eight of them. -/
theorem to_int_digits {i : Nat} (hi : i < 10) (hi' : 2 ≤ i) (d zero : Int) (hn : 0 ≤ n)
    (hn' : n ≤ 7 * 10 ^ (i - 2) - 7) (hd : 0 ≤ d - zero) (hd' : d - zero ≤ 57) :
    toInt (n * 10) = .ok (n * 10) ∧ toInt (d - zero) = .ok (d - zero) ∧
      toInt (n * 10 + (d - zero)) = .ok (n * 10 + (d - zero)) ∧
      n * 10 + (d - zero) ≤ 7 * 10 ^ (i + 1 - 2) - 7 := by
  have hpow : (10 : Int) ^ (i + 1 - 2) = 10 * 10 ^ (i - 2) := by
    rw [show i + 1 - 2 = i - 2 + 1 by omega, pow_succ, mul_comm]
  have hsmall : (10 : Int) ^ (i - 2) ≤ 10 ^ 7 := pow_le_pow_right₀ (by omega) (by omega)
  rw [hpow]
  generalize (10 : Int) ^ (i - 2) = p at hn' hsmall
  refine ⟨if_pos ?_, if_pos ?_, if_pos ?_, ?_⟩ <;> omega

/-- A number of the sequence is read as from the list. -/
theorem scan_number_eq (hlen : t.escSeqLen ≤ 10) (zero : Int) (hzero : 0 ≤ zero)
    (hzero' : zero ≤ 48) (fuel : Nat) (hfuel : t.escSeqLen ≤ i + fuel) (hi : 2 ≤ i)
    (hi' : i ≤ t.escSeqLen) (hn : 0 ≤ n) (hn' : n ≤ 7 * 10 ^ (i - 2) - 7) :
    ∃ k m, t.scanNumber zero fuel i n = .ok (k, m) ∧ i ≤ k ∧ k ≤ t.escSeqLen ∧
      escNumber zero n (t.used.drop i) = (m, t.used.drop k) := by
  induction fuel generalizing i n with
  | zero => exact ⟨i, n, rfl, le_rfl, hi', by rw [drop_end hlen (by omega), escNumber]⟩
  | succ fuel ih =>
      rw [scanNumber]
      by_cases hmore : i < t.escSeqLen
      · obtain ⟨c, hload, hdrop⟩ := load_eq hlen hmore
        rw [if_pos hmore, hload, hdrop, escNumber]
        by_cases hd : 48 ≤ c ∧ c ≤ 57
        · have hlow : 48 ≤ c.toNat := UInt8.le_iff_toNat_le.mp hd.1
          have hhigh : c.toNat ≤ 57 := UInt8.le_iff_toNat_le.mp hd.2
          obtain ⟨htens, hdigit, hsum, hbound⟩ := to_int_digits (n := n) (by omega) hi
            c.toNat zero hn hn' (by omega) (by omega)
          obtain ⟨k, m, hscan, hk, hk', hm⟩ := ih (i := i + 1)
            (n := n * 10 + (c.toNat - zero)) (by omega) (by omega) hmore (by omega) hbound
          refine ⟨k, m, ?_, by omega, hk', by rw [if_pos hd, hm]⟩
          simp only [bind, Except.bind, if_pos hd.1, if_pos hd.2, htens, hdigit, hsum, hscan]
        · refine ⟨i, n, ?_, le_rfl, hi', by rw [if_neg hd, hdrop]⟩
          simp only [bind, Except.bind]
          split
          · next hlow => rw [if_neg fun hhigh => hd ⟨hlow, hhigh⟩]
          · rfl
      · have hend := drop_end hlen (le_antisymm hi' (not_lt.mp hmore))
        exact ⟨i, n, if_neg hmore, le_rfl, hi', by rw [hend, escNumber]⟩

/-- The byte behind the numbers is loaded, and the colours change as with the list. -/
theorem finish_eq (hlen : t.escSeqLen ≤ 10) {rest : List UInt8}
    (hdrop : t.used.drop i = c :: rest) :
    ∃ t', t.finish i n = .ok t' ∧ t'.escSeqLen = 0 ∧
      t'.listed = { escFinal t.listed n c with escSeq := [] } := by
  have hi : i < t.escSeqLen := by
    by_contra hi
    rw [List.drop_eq_nil_of_le (by rw [used_length hlen]; omega)] at hdrop
    cases hdrop
  obtain ⟨c', hload, hdrop'⟩ := load_eq hlen hi
  obtain ⟨rfl, -⟩ := List.cons.inj (hdrop.symm.trans hdrop')
  refine ⟨_, by rw [finish, hload]; rfl, rfl, ?_⟩
  rw [listed, listed, used, List.take_zero]
  unfold escFinal
  dsimp only
  repeat' split
  all_goals rfl

/-- No fault occurs while the sequence is parsed, and it is parsed as the list is. -/
theorem parse_eq (hlen : t.escSeqLen ≤ 10) :
    ∃ t', t.parse = .ok t' ∧ t'.escSeqLen ≤ 10 ∧ t'.listed = parseEscape t.listed := by
  rw [parse]
  by_cases hshort : 2 ≤ t.escSeqLen
  · obtain ⟨e, -, hzero⟩ := load_eq (i := 0) hlen (by omega)
    obtain ⟨b, hload, hone⟩ := load_eq (i := 1) hlen hshort
    rw [List.drop_zero, hone] at hzero
    rw [if_pos hshort, hload, parseEscape, show t.listed.escSeq = t.used from rfl, hzero]
    simp only [bind, Except.bind]
    by_cases hb : b = 91
    · subst hb
      obtain ⟨k, n, hscan, hk, hk', hnum⟩ := scan_number_eq hlen 48 (by omega) (by omega)
        t.escSeqLen (i := 2) (n := 0) (by omega) le_rfl hshort le_rfl (by simp)
      simp only [if_true, hscan, hnum]
      by_cases hend : k = t.escSeqLen
      · rw [if_pos hend, drop_end hlen hend]
        exact ⟨t, rfl, hlen, rfl⟩
      obtain ⟨c, hload', hdrop⟩ := load_eq (i := k) hlen (by omega)
      rw [if_neg hend, hload', hdrop]
      by_cases hc : c = 59
      · subst hc
        obtain ⟨k', m, hscan', hk₂, hk₂', hnum'⟩ := scan_number_eq hlen 0 (by omega)
          (by omega) t.escSeqLen (i := k + 1) (n := 0) (by omega) (by omega) (by omega) le_rfl
          (by
            have hone : (1 : Int) ≤ 10 ^ (k + 1 - 2) := one_le_pow₀ (by omega)
            omega)
        simp only [if_true, hscan', hnum']
        by_cases hend' : k' = t.escSeqLen
        · rw [if_pos hend', drop_end hlen hend']
          exact ⟨t, rfl, hlen, rfl⟩
        obtain ⟨c', -, hdrop'⟩ := load_eq (i := k') hlen (by omega)
        obtain ⟨t', hrun, hlen', hlisted⟩ := finish_eq (n := n) hlen hdrop'
        rw [if_neg hend', hdrop']
        exact ⟨t', hrun, by omega, hlisted⟩
      · obtain ⟨t', hrun, hlen', hlisted⟩ := finish_eq (n := n) hlen hdrop
        simp only [if_neg hc]
        exact ⟨t', hrun, by omega, by simp [hlisted]⟩
    · rw [if_neg hb]
      refine ⟨_, rfl, Nat.zero_le _, ?_⟩
      split
      · next heq =>
          cases heq
          exact absurd rfl hb
      · rfl
      · next hother => exact absurd rfl (hother _ _ _)
  · rw [if_neg hshort]
    refine ⟨t, rfl, hlen, ?_⟩
    have hused := used_length hlen
    rw [parseEscape, show t.listed.escSeq = t.used from rfl]
    split
    · next heq =>
        rw [heq, List.length_cons, List.length_cons] at hused
        omega
    · next heq =>
        rw [heq, List.length_cons, List.length_cons] at hused
        omega
    · rfl

end EscTerm

section Plain

variable (t : Term) (seq : List UInt8) (nl nc : Int) (c : UInt8)

/-- The terminal with another escape sequence. -/
def Term.withSeq : Term := { t with escSeq := seq }

theorem with_seq_w : (t.withSeq seq).w = t.w := rfl

/-- Both branches of a test do not look at the escape sequence. -/
theorem ite_with_seq {p : Prop} [Decidable p] {t t' other other' : Term}
    (h : t' = t.withSeq seq) (hother : other' = other.withSeq seq) :
    (if p then t' else other') = (if p then t else other).withSeq seq := by
  split
  · exact h
  · exact hother

theorem put_at_with_seq :
    termPutAt (t.withSeq seq) nl nc c = (termPutAt t nl nc c).withSeq seq :=
  ite_with_seq seq rfl rfl

/-- A loop that does not look at the escape sequence. -/
theorem foldl_with_seq {f : Term → Nat → Term}
    (hf : ∀ t i, f (Term.withSeq t seq) i = (f t i).withSeq seq) (l : List Nat) :
    l.foldl f (t.withSeq seq) = (l.foldl f t).withSeq seq := by
  induction l generalizing t with
  | nil => rfl
  | cons i l ih => rw [List.foldl_cons, hf, ih, List.foldl_cons]

theorem clear_screen_with_seq :
    termClearScreen (t.withSeq seq) = (termClearScreen t).withSeq seq := by
  have hblank := foldl_with_seq { t with csrVisible := true } seq (f := blankCell)
    (fun _ _ => rfl) (List.range (t.w * t.h).toNat)
  exact congrArg (fun t' : Term => termMoveCursor
    (t'.draw fun fb s => gFillrect fb 0 0 t'.mode.width t'.mode.height t'.bg s) 0 0) hblank

theorem scroll1_with_seq : termScroll1 (t.withSeq seq) = (termScroll1 t).withSeq seq := by
  have hcopy := foldl_with_seq t seq (f := copyCellUp) (fun _ _ => rfl)
    (List.range (t.w * (t.h - 1)).toNat)
  have hblank := foldl_with_seq ((List.range (t.w * (t.h - 1)).toNat).foldl copyCellUp t) seq
    (f := blankLastCell) (fun _ _ => rfl)
  unfold termScroll1
  dsimp only
  rw [show (t.withSeq seq).h = t.h from rfl, with_seq_w, hcopy, with_seq_w, hblank]
  rfl

theorem blank_before_with_seq (nc : Nat) :
    blankBefore (t.withSeq seq) nl nc = (blankBefore t nl nc).withSeq seq := by
  induction nc generalizing t with
  | zero => rfl
  | succ nc ih => rw [blankBefore, put_at_with_seq, ih, blankBefore]

theorem blank_tab_with_seq (fuel : Nat) :
    blankTab nl fuel (t.withSeq seq) nc =
      ((blankTab nl fuel t nc).1.withSeq seq, (blankTab nl fuel t nc).2) := by
  induction fuel generalizing t nc with
  | zero => rfl
  | succ fuel ih =>
      rw [blankTab, blankTab]
      split
      · rw [put_at_with_seq, ih]
      · rfl

theorem advance_with_seq :
    termAdvance (t.withSeq seq) nl nc = (termAdvance t nl nc).withSeq seq := by
  unfold termAdvance
  rw [scroll1_with_seq, with_seq_w]
  exact ite_with_seq seq rfl rfl

/-- What is done with a plain byte does not depend on the escape sequence and leaves it alone. -/
theorem put_plain_with_seq :
    termPutPlain (t.withSeq seq) c = (termPutPlain t c).withSeq seq := by
  unfold termPutPlain
  dsimp only
  rw [show (t.withSeq seq).csrl = t.csrl from rfl, show (t.withSeq seq).csrc = t.csrc from rfl,
    blank_before_with_seq, blank_tab_with_seq, put_at_with_seq, put_at_with_seq]
  simp only [advance_with_seq]
  refine ite_with_seq seq rfl (ite_with_seq seq rfl (ite_with_seq seq ?_ ?_))
  · exact clear_screen_with_seq t seq
  · exact ite_with_seq seq rfl (ite_with_seq seq rfl (ite_with_seq seq rfl rfl))

end Plain

/-- The bytes so far are whole characters and finished sequences, with `seq` behind them. -/
structure InProgress (bytes seq : List UInt8) : Prop where
  split : ∃ pre, bytes = pre ++ seq ∧ Finished pre
  unfinished : seq ≠ [] → Unfinished seq
  fits : seq.length ≤ 10

section Grammar

variable {bytes seq : List UInt8} {c : UInt8}

theorem Unfinished.head (h : Unfinished seq) : ∃ rest, seq = 27 :: rest := by
  cases h <;> exact ⟨_, rfl⟩

/-- What comes before the last byte of a sequence that may go on may go on as well. -/
theorem Unfinished.init (h : Unfinished (seq ++ [c])) (hseq : seq ≠ []) : Unfinished seq := by
  generalize hs : seq ++ [c] = s at h
  have hseq' : seq = s.dropLast := by rw [← hs, List.dropLast_concat]
  cases h with
  | escape => exact absurd hseq' hseq
  | first ds hds =>
      cases ds with
      | nil => exact hseq' ▸ .escape
      | cons d ds =>
          rw [List.dropLast_cons_cons, List.dropLast_cons_cons] at hseq'
          exact hseq' ▸ .first _ fun x hx => hds x (List.mem_of_mem_dropLast hx)
  | second ds es hds hes =>
      cases es with
      | nil =>
          have hlast : seq = 27 :: 91 :: ds := by
            rw [hseq', ← List.cons_append, ← List.cons_append, List.dropLast_concat]
          exact hlast ▸ .first ds hds
      | cons e es =>
          have hlast : seq = 27 :: 91 :: (ds ++ 59 :: (e :: es).dropLast) := by
            rw [hseq', ← List.cons_append, ← List.cons_append, List.dropLast_append_cons,
              List.dropLast_cons_cons]
            rfl
          exact hlast ▸ .second ds _ hds fun x hx => hes x (List.mem_of_mem_dropLast hx)

theorem Overlong.append (h : Overlong bytes) (more : List UInt8) : Overlong (bytes ++ more) := by
  obtain ⟨pre, seq, c, post, rfl, hpre, hseq, hlen⟩ := h
  exact ⟨pre, seq, c, post ++ more, by simp, hpre, hseq, hlen⟩

/-- A sequence that is being read and goes on. -/
theorem InProgress.more (h : InProgress bytes seq) (hlen : seq.length < 10)
    (hmore : Unfinished (seq ++ [c])) : InProgress (bytes ++ [c]) (seq ++ [c]) := by
  obtain ⟨pre, rfl, hpre⟩ := h.split
  refine ⟨⟨pre, List.append_assoc _ _ _, hpre⟩, fun _ => hmore, ?_⟩
  rw [List.length_append]
  exact hlen

/-- A sequence that is being read and is finished. -/
theorem InProgress.done (h : InProgress bytes seq) (hseq : seq ≠ []) (hlen : seq.length < 10)
    (hend : ¬ Unfinished (seq ++ [c])) : InProgress (bytes ++ [c]) [] := by
  obtain ⟨pre, rfl, hpre⟩ := h.split
  have hall := hpre.sequence (h.unfinished hseq) hlen hend
  exact ⟨⟨_, by simp, hall⟩, fun h => absurd rfl h, Nat.zero_le _⟩

/-- A plain byte. -/
theorem InProgress.plain (h : InProgress bytes []) (hc : c ≠ 27) : InProgress (bytes ++ [c]) [] := by
  obtain ⟨pre, rfl, hpre⟩ := h.split
  exact ⟨⟨_, by simp, hpre.plain hc⟩, fun h => absurd rfl h, Nat.zero_le _⟩

end Grammar

section Steps

variable {t : Term} {c : UInt8}

/-- A byte that is not part of a sequence. -/
theorem putc_plain (hseq : t.escSeq = []) (hc : c ≠ 27) :
    ∃ t', termPutc t c = some t' ∧ t'.escSeq = [] := by
  refine ⟨termPutPlain t c, if_neg (by simp [hseq, hc]), ?_⟩
  have hsame : t.withSeq [] = t := by rw [← hseq]; rfl
  rw [← hsame, put_plain_with_seq]
  rfl

/-- A byte that is part of a sequence is stored while there is room. -/
theorem putc_escape (h : t.escSeq ≠ [] ∨ c = 27) (hlen : t.escSeq.length < 10) :
    termPutc t c = some (parseEscape (t.withSeq (t.escSeq ++ [c]))) :=
  (if_pos h).trans (if_pos hlen)

/-- The sequence goes on. -/
theorem putc_more (hlen : t.escSeq.length < 10) (hmore : Unfinished (t.escSeq ++ [c])) :
    ∃ t', termPutc t c = some t' ∧ t'.escSeq = t.escSeq ++ [c] := by
  refine ⟨t.withSeq (t.escSeq ++ [c]), ?_, rfl⟩
  rw [putc_escape ?_ hlen, parse_unfinished hmore]
  by_contra h
  rw [not_or, not_not] at h
  obtain ⟨rest, hrest⟩ := hmore.head
  rw [h.1, List.nil_append] at hrest
  exact h.2 (List.cons.inj hrest).1

/-- The sequence is finished. -/
theorem putc_done (hseq : Unfinished t.escSeq) (hlen : t.escSeq.length < 10)
    (hend : ¬ Unfinished (t.escSeq ++ [c])) :
    ∃ t', termPutc t c = some t' ∧ t'.escSeq = [] := by
  obtain ⟨rest, hrest⟩ := hseq.head
  refine ⟨_, putc_escape (.inl (by simp [hrest])) hlen, ?_⟩
  exact parse_finished (rest ++ [c]) (by rw [hrest]; rfl) hend

end Steps

namespace EscTerm

variable {t t' : EscTerm} {c : UInt8} {bytes seq : List UInt8}

/-- A byte that is stored is the last one of the list. -/
theorem push_eq (hlen : t.escSeqLen < 10) :
    ∃ t', t.push c = .ok t' ∧ t'.escSeqLen ≤ 10 ∧ t'.listed = t.listed.withSeq (t.used ++ [c]) := by
  refine ⟨_, dif_pos hlen, hlen, ?_⟩
  refine congrArg (Term.withSeq t.screen) ?_
  simp only [used, Vector.toList_set]
  rw [List.take_succ_eq_append_getElem (by simpa using hlen), List.take_set_of_le le_rfl]
  simp

/-- `term_putc` on the array does what it does on the list, as long as that holds the sequence. A
byte that does not fit is stored outside of the array. -/
theorem term_putc_listed (hlen : t.escSeqLen ≤ 10) (c : UInt8) :
    match Kogata.User.termPutc t.listed c with
    | some s => ∃ t', t.termPutc c = .ok t' ∧ t'.escSeqLen ≤ 10 ∧ t'.listed = s
    | none => t.termPutc c = .error .outside := by
  have hused := used_length hlen
  have hseq : t.listed.escSeq = t.used := rfl
  have hpos : t.used ≠ [] ↔ 0 < t.escSeqLen := by
    rw [← hused]
    exact List.length_pos_iff.symm
  rw [termPutc, Kogata.User.termPutc, hseq, hused]
  by_cases hesc : 0 < t.escSeqLen ∨ c = 27
  · rw [if_pos hesc, if_pos (hesc.imp_left hpos.mpr)]
    by_cases hroom : t.escSeqLen < 10
    · rw [if_pos hroom]
      obtain ⟨mid, hpush, hlen', hmid⟩ := push_eq (c := c) hroom
      obtain ⟨t', hparse, hlen'', ht'⟩ := parse_eq hlen'
      exact ⟨t', by rw [hpush]; exact hparse, hlen'', by rw [ht', hmid]; rfl⟩
    · rw [if_neg hroom]
      simp [push, hroom, bind, Except.bind]
  · rw [if_neg hesc, if_neg fun h => hesc (h.imp_left hpos.mp)]
    exact ⟨_, rfl, hlen, (put_plain_with_seq t.screen t.used c).symm⟩

/-- A byte is read where the list of bytes has room for it. -/
theorem term_putc_ok {s : Term} (hlen : t.escSeqLen ≤ 10)
    (h : Kogata.User.termPutc t.listed c = some s) :
    ∃ t', t.termPutc c = .ok t' ∧ t'.escSeqLen ≤ 10 ∧ t'.used = s.escSeq := by
  have hstep := term_putc_listed hlen c
  rw [h] at hstep
  obtain ⟨t', hput, hlen', hlisted⟩ := hstep
  exact ⟨t', hput, hlen', congrArg Term.escSeq hlisted⟩

theorem feed_append (t : EscTerm) (bytes more : List UInt8) :
    t.feed (bytes ++ more) = t.feed bytes >>= fun t' => t'.feed more :=
  List.foldlM_append

theorem feed_singleton (t : EscTerm) (c : UInt8) : t.feed [c] = t.termPutc c := by
  rw [feed, List.foldlM_cons]
  exact bind_pure _

/-- One more byte after a stream that has been read. -/
theorem feed_concat {t₀ : EscTerm} (h : t₀.feed bytes = .ok t) (c : UInt8) :
    t₀.feed (bytes ++ [c]) = t.termPutc c := by
  rw [feed_append, h]
  exact feed_singleton t c

/-- What one byte does to the sequence that is being read. -/
theorem putc_cases (hlen : t.escSeqLen ≤ 10) (h : InProgress bytes t.used) (c : UInt8) :
    (∃ t', t.termPutc c = .ok t' ∧ t'.escSeqLen ≤ 10 ∧ InProgress (bytes ++ [c]) t'.used) ∨
      (t.termPutc c = .error .outside ∧ Overlong (bytes ++ [c])) := by
  have hroom : t.used ≠ [] ∨ c = 27 → t.used.length < 10 → ∃ t', t.termPutc c = .ok t' ∧
      t'.escSeqLen ≤ 10 ∧ InProgress (bytes ++ [c]) t'.used := by
    intro hesc hroom
    by_cases hmore : Unfinished (t.used ++ [c])
    · obtain ⟨s, hput, hs⟩ := putc_more (t := t.listed) hroom hmore
      obtain ⟨t', hrun, hlen', hused⟩ := term_putc_ok hlen hput
      exact ⟨t', hrun, hlen', by rw [hused, hs]; exact h.more hroom hmore⟩
    · have hseq : t.used ≠ [] := by
        intro hseq
        rw [hseq] at hesc hmore
        exact hmore ((hesc.resolve_left (· rfl)) ▸ .escape)
      obtain ⟨s, hput, hs⟩ := putc_done (t := t.listed) (h.unfinished hseq) hroom hmore
      obtain ⟨t', hrun, hlen', hused⟩ := term_putc_ok hlen hput
      exact ⟨t', hrun, hlen', by rw [hused, hs]; exact h.done hseq hroom hmore⟩
  by_cases hesc : t.used ≠ [] ∨ c = 27
  · by_cases hlt : t.used.length < 10
    · exact .inl (hroom hesc hlt)
    · -- the array is full, and the byte is stored behind it
      have hfull : t.used.length = 10 := le_antisymm h.fits (not_lt.mp hlt)
      have hseq : t.used ≠ [] := by
        intro hseq
        rw [hseq] at hfull
        cases hfull
      obtain ⟨pre, rfl, hpre⟩ := h.split
      refine .inr ⟨?_, pre, t.used, c, [], by simp, hpre, h.unfinished hseq, hfull⟩
      have hstep := term_putc_listed hlen c
      rwa [show Kogata.User.termPutc t.listed c = none from
        (if_pos (.inl hseq)).trans (if_neg (by rw [show t.listed.escSeq = t.used from rfl]; omega))]
        at hstep
  · rw [not_or, not_not] at hesc
    obtain ⟨s, hput, hs⟩ := putc_plain (t := t.listed) hesc.1 hesc.2
    obtain ⟨t', hrun, hlen', hused⟩ := term_putc_ok hlen hput
    refine .inl ⟨t', hrun, hlen', ?_⟩
    rw [hused, hs]
    exact (hesc.1 ▸ h).plain hesc.2

/-- A stream is read up to its end, or a sequence in it is too long. -/
theorem feed_cases (screen : Term) (bytes : List UInt8) :
    (∃ t, (start screen).feed bytes = .ok t ∧ t.escSeqLen ≤ 10 ∧ InProgress bytes t.used) ∨
      ((start screen).feed bytes = .error .outside ∧ Overlong bytes) := by
  induction bytes using List.reverseRecOn with
  | nil => exact .inl ⟨_, rfl, Nat.zero_le _, ⟨[], rfl, .nil⟩, fun h => absurd rfl h, Nat.zero_le _⟩
  | append_singleton bytes c ih =>
      obtain ⟨t, hfeed, hlen, hread⟩ | ⟨hfeed, hover⟩ := ih
      · rw [feed_concat hfeed]
        exact putc_cases hlen hread c
      · exact .inr ⟨by rw [feed_append, hfeed]; rfl, hover.append [c]⟩

/-- A store outside of `esc_seq` is the only fault. -/
theorem feed_fault {screen : Term} {fault : EscFault}
    (h : (start screen).feed bytes = .error fault) : fault = .outside := by
  obtain ⟨t, hfeed, -⟩ | ⟨hfeed, -⟩ := feed_cases screen bytes
  · rw [h] at hfeed
    cases hfeed
  · exact Except.error.inj (h.symm.trans hfeed)

theorem feed_fault_digits :
    ∃ fault, (start (blankScreen 80 25)).feed (27 :: 91 :: List.replicate 9 48) = .error fault ∧
      fault = .outside := by
  have hfeed : (start (blankScreen 80 25)).feed (27 :: 91 :: List.replicate 9 48) =
      .error .outside := rfl
  exact ⟨_, hfeed, feed_fault hfeed⟩

/-- The bytes of a sequence that may go on are all stored, up to ten. -/
theorem feed_unfinished (hlen : t.escSeqLen ≤ 10) (hidle : t.used = []) (hseq : Unfinished seq)
    (hfits : seq.length ≤ 10) : ∃ t', t.feed seq = .ok t' ∧ t'.escSeqLen ≤ 10 ∧ t'.used = seq := by
  induction seq using List.reverseRecOn with
  | nil => exact ⟨t, rfl, hlen, hidle⟩
  | append_singleton seq c ih =>
      rw [List.length_append, List.length_singleton] at hfits
      have hinit : ∃ t', t.feed seq = .ok t' ∧ t'.escSeqLen ≤ 10 ∧ t'.used = seq := by
        by_cases hempty : seq = []
        · rw [hempty]
          exact ⟨t, rfl, hlen, hidle⟩
        · exact ih (hseq.init hempty) (by omega)
      obtain ⟨mid, hfeed, hlen', hused⟩ := hinit
      obtain ⟨s, hput, hs⟩ := putc_more (t := mid.listed) (c := c)
        (by rw [show mid.listed.escSeq = mid.used from rfl, hused]; omega)
        (by rw [show mid.listed.escSeq = mid.used from rfl, hused]; exact hseq)
      obtain ⟨t', hrun, hlen'', hused'⟩ := term_putc_ok hlen' hput
      refine ⟨t', by rw [feed_concat hfeed, hrun], hlen'', ?_⟩
      rw [hused', hs, show mid.listed.escSeq = mid.used from rfl, hused]

/-- After whole characters and finished sequences no sequence is being read. -/
theorem feed_finished (screen : Term) (h : Finished bytes) :
    ∃ t, (start screen).feed bytes = .ok t ∧ t.escSeqLen ≤ 10 ∧ t.used = [] := by
  induction h with
  | nil => exact ⟨_, rfl, Nat.zero_le _, rfl⟩
  | plain _ hc ih =>
      obtain ⟨t, hfeed, hlen, hidle⟩ := ih
      obtain ⟨s, hput, hs⟩ := putc_plain (t := t.listed) hidle hc
      obtain ⟨t', hrun, hlen', hused⟩ := term_putc_ok hlen hput
      exact ⟨t', by rw [feed_concat hfeed, hrun], hlen', hused.trans hs⟩
  | sequence _ hseq hlt hend ih =>
      obtain ⟨t, hfeed, hlen, hidle⟩ := ih
      obtain ⟨mid, hfeed', hlen', hused⟩ := feed_unfinished hlen hidle hseq hlt.le
      have hmid : mid.listed.escSeq = _ := hused
      obtain ⟨s, hput, hs⟩ := putc_done (t := mid.listed) (by rwa [hmid]) (by rwa [hmid])
        (by rwa [hmid])
      obtain ⟨t', hrun, hlen'', hused'⟩ := term_putc_ok hlen' hput
      refine ⟨t', ?_, hlen'', hused'.trans hs⟩
      rw [← List.append_assoc, feed_concat (t := mid), hrun]
      rw [feed_append, hfeed]
      exact hfeed'

/-- All along the stream no fault occurs, and no more than ten bytes are in use. -/
def Contained (screen : Term) (bytes : List UInt8) : Prop :=
  ∀ read, read <+: bytes → ∃ t, (start screen).feed read = .ok t ∧ t.escSeqLen ≤ 10

/-- Exactly the streams without a sequence that goes on after ten bytes are read without a fault. -/
theorem sequences_fit_iff (screen : Term) (bytes : List UInt8) :
    Contained screen bytes ↔ ¬ Overlong bytes := by
  constructor
  · intro hall hover
    obtain ⟨pre, seq, c, post, rfl, hpre, hseq, hlen⟩ := hover
    obtain ⟨t, hfeed, hlen₀, hidle⟩ := feed_finished screen hpre
    obtain ⟨mid, hfeed', hlen', hused⟩ := feed_unfinished hlen₀ hidle hseq hlen.le
    obtain ⟨t', hrun, -⟩ := hall (pre ++ seq ++ [c]) ⟨post, by simp⟩
    have hmid : (start screen).feed (pre ++ seq) = .ok mid := by
      rw [feed_append, hfeed]
      exact hfeed'
    have hfull : mid.escSeqLen = 10 := by rw [← used_length hlen', hused, hlen]
    have hstore : mid.termPutc c = .error .outside := by
      rw [termPutc, if_pos (.inl (by omega)), push, dif_neg (by omega)]
      rfl
    rw [feed_concat hmid, hstore] at hrun
    cases hrun
  · intro hover read hread
    obtain ⟨t, hfeed, hlen, -⟩ | ⟨-, hover'⟩ := feed_cases screen read
    · exact ⟨t, hfeed, hlen⟩
    · obtain ⟨more, rfl⟩ := hread
      exact absurd (hover'.append more) hover

/-- `ESC [` and nine digits: the last one is stored behind the array. -/
theorem sequence_overflows :
    ¬ Contained (blankScreen 80 25) [27, 91, 48, 48, 48, 48, 48, 48, 48, 48, 48] := by
  intro h
  obtain ⟨t, hrun, -⟩ := h _ (List.prefix_refl _)
  have hstore : (start (blankScreen 80 25)).feed
      [27, 91, 48, 48, 48, 48, 48, 48, 48, 48, 48] = .error .outside := rfl
  rw [hstore] at hrun
  cases hrun

end EscTerm

end Kogata.User
