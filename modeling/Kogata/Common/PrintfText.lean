import Kogata.Common.Printf
import Mathlib.Tactic.IntervalCases

/-!
# What is put out

The numbers that `vcprintf` writes are numerals (`put_decimal_eq`, `put_hex_eq`,
`put_pointer_eq`), a hexadecimal one that of the low 32 bits. The text of a whole format is
`pieces`, a function of the characters and the arguments that says as well whether a byte behind
the format is read in the end.
-/

namespace Kogata.Common.Printf

open Lib.Digits

/-- The character of a digit. -/
def digitChar (d : Nat) : UInt8 := if d < 10 then UInt8.ofNat (48 + d) else UInt8.ofNat (87 + d)

/-- A number with its sign. -/
def decimalText (integer : Int) : List UInt8 :=
  (if integer < 0 then [45] else []) ++ (numeral 10 integer.natAbs).map digitChar

/-- A hexadecimal number. -/
def hexText (n : Nat) : List UInt8 := (numeral 16 n).map digitChar

/-- A hexadecimal number of eight digits. -/
def pointerText (n : Nat) : List UInt8 := (fixed 16 8 n).map digitChar

section Numbers

/-- The digit of one turn. -/
theorem nibble_toNat (hexa : UInt64) {j : Nat} (hj : j < 8) :
    (nibble hexa j).toNat = hexa.toNat / 16 ^ (7 - j) % 16 := by
  have hshift : (UInt64.ofNat (j * 4)).toNat % 64 = j * 4 := by
    rw [UInt64.toNat_ofNat']
    omega
  rw [nibble, UInt32.toNat_and, UInt32.toNat_shiftRight, UInt64.toNat_toUInt32,
    UInt64.toNat_shiftLeft, hshift, Nat.shiftLeft_eq, Nat.shiftRight_eq_div_pow]
  show _ &&& 2 ^ 4 - 1 = _
  rw [Nat.and_two_pow_sub_one_eq_mod]
  show hexa.toNat * 2 ^ (j * 4) % 2 ^ 64 % 2 ^ 32 / 2 ^ 28 % 2 ^ 4 = _
  interval_cases j <;> omega

theorem hex_char_eq {nb : UInt32} (h : nb.toNat < 16) : hexChar nb = digitChar nb.toNat := by
  rw [hexChar, digitChar]
  have hlt : nb < 10 ↔ nb.toNat < 10 := UInt32.lt_iff_toNat_lt
  by_cases h10 : nb.toNat < 10
  · rw [if_pos (hlt.mpr h10), if_pos h10]
    apply UInt8.toNat_inj.mp
    simp
  · rw [if_neg (mt hlt.mp h10), if_neg h10]
    apply UInt8.toNat_inj.mp
    rw [UInt8.toNat_add, UInt32.toNat_toUInt8, UInt32.toNat_sub_of_le _ _
      (UInt32.le_iff_toNat_le.mpr (by simpa using h10)), UInt8.toNat_ofNat']
    show (97 + (nb.toNat - 10) % 256) % 256 = _
    omega

/-- The digits of a decimal number are stored from the last one on. -/
theorem buff_int_eq (integer : Int) :
    (buffInt integer).reverse = (numeral 10 integer.natAbs).map digitChar := by
  have hdigit : ∀ integer : Int, UInt8.ofNat (48 + (if integer.tmod 10 < 0 then -integer.tmod 10
      else integer.tmod 10).toNat) = digitChar (integer.natAbs % 10) := by
    intro integer
    have hmod : (integer.tmod 10).natAbs = integer.natAbs % 10 := Int.natAbs_tmod integer 10
    have hchar : digitChar (integer.natAbs % 10) = UInt8.ofNat (48 + integer.natAbs % 10) :=
      if_pos (Nat.mod_lt _ (by decide))
    rw [hchar, ← hmod]
    congr 2
    omega
  have hdiv : ∀ integer : Int, (integer.tdiv 10).natAbs = integer.natAbs / 10 :=
    fun integer => Int.natAbs_tdiv integer 10
  induction integer using buffInt.induct with
  | case1 integer hlast =>
      have hsmall : integer.natAbs < 10 := by
        have hquot := hdiv integer
        rw [hlast] at hquot
        omega
      rw [buffInt, hdigit, if_pos hlast, Nat.mod_eq_of_lt hsmall, numeral]
      split
      · next hzero =>
          rw [hzero]
          rfl
      · next hpos =>
          rw [Nat.digits_of_lt 10 _ hpos hsmall]
          rfl
  | case2 integer hmore ih =>
      have hquot : integer.natAbs / 10 ≠ 0 := by
        rw [← hdiv]
        exact Int.natAbs_ne_zero.mpr hmore
      rw [buffInt, hdigit, if_neg hmore, List.reverse_cons, ih, hdiv, numeral, if_neg hquot,
        numeral, if_neg (by omega), Nat.digits_def' (n := integer.natAbs) (by decide) (by omega),
        List.reverse_cons, List.map_append]
      rfl

end Numbers

section Programs

variable {σ : Type} (putc : UInt8 → σ → Int × σ)

theorem put_all_nil : putAll putc [] = pure () := rfl

theorem put_all_cons (c : UInt8) (cs : List UInt8) :
    putAll putc (c :: cs) = putchar putc c >>= fun _ => putAll putc cs := rfl

theorem put_all_singleton (c : UInt8) : putAll putc [c] = putchar putc c := by
  rw [put_all_cons, put_all_nil]
  exact bind_pure _

theorem put_all_append (cs cs' : List UInt8) :
    putAll putc (cs ++ cs') = putAll putc cs >>= fun _ => putAll putc cs' := by
  induction cs with
  | nil => rw [List.nil_append, put_all_nil, pure_bind]
  | cons c cs ih => rw [List.cons_append, put_all_cons, put_all_cons, ih, bind_assoc]

theorem put_decimal_eq (integer : Int) :
    putDecimal putc integer = putAll putc (decimalText integer) := by
  rw [putDecimal, decimalText, buff_int_eq]
  split
  · rw [put_all_append, put_all_singleton]
  · rw [List.nil_append]

/-- The loop of `%x`, once a digit has been put out. -/
theorem hex_loop_nonzero (hexa : UInt64) {left : Nat} (hleft : left ≤ 8) :
    hexLoop putc hexa left true =
      putAll putc ((fixed 16 left hexa.toNat).map digitChar) >>= fun _ => pure true := by
  induction left with
  | zero => rfl
  | succ left ih =>
      have hnb := nibble_toNat hexa (j := 7 - left) (by omega)
      rw [show 7 - (7 - left) = left by omega] at hnb
      rw [hexLoop, fixed_succ, List.map_cons, put_all_cons, bind_assoc, ← ih (by omega), ← hnb]
      dsimp only
      split
      · next hzero =>
          rw [hzero]
          rfl
      · rw [hex_char_eq (by omega)]

/-- The loop of `%x` before a digit has been put out. -/
theorem hex_loop_zero (hexa : UInt64) {left : Nat} (hleft : left ≤ 8) :
    hexLoop putc hexa left false =
      putAll putc (((fixed 16 left hexa.toNat).dropWhile (· = 0)).map digitChar) >>=
        fun _ => pure (decide ((fixed 16 left hexa.toNat).dropWhile (· = 0) ≠ [])) := by
  induction left with
  | zero => rfl
  | succ left ih =>
      have hnb := nibble_toNat hexa (j := 7 - left) (by omega)
      rw [show 7 - (7 - left) = left by omega] at hnb
      rw [hexLoop, fixed_succ, ← hnb]
      dsimp only
      split
      · next hzero =>
          rw [hzero, List.dropWhile_cons_of_pos (by rfl), ih (by omega)]
          rfl
      · next hne =>
          have hpos : (nibble hexa (7 - left)).toNat ≠ 0 := fun h => hne (UInt32.toNat_inj.mp h)
          rw [List.dropWhile_cons_of_neg (by simpa using hpos), hex_char_eq (by omega),
            hex_loop_nonzero putc hexa (by omega), List.map_cons, put_all_cons, bind_assoc]
          rfl

/-- A hexadecimal number is shown without what is above its low 32 bits. -/
theorem put_hex_eq (hexa : UInt64) :
    putHex putc hexa = putAll putc (hexText (hexa.toNat % 16 ^ 8)) := by
  have hdigits := drop_zeros_fixed (by decide) (Nat.mod_lt hexa.toNat (by decide : 16 ^ 8 > 0))
  rw [fixed_mod] at hdigits
  rw [putHex, hex_loop_zero putc hexa le_rfl, bind_assoc, hdigits, hexText, numeral]
  generalize hexa.toNat % 16 ^ 8 = n
  by_cases hzero : n = 0
  · subst hzero
    rw [Nat.digits_zero, if_pos rfl, List.reverse_nil, List.map_nil, put_all_nil, List.map_cons,
      List.map_nil, put_all_singleton]
    rfl
  · have hsome : (Nat.digits 16 n).reverse ≠ [] := by
      simpa using Nat.digits_ne_nil_iff_ne_zero.mpr hzero
    simp only [if_neg hzero, pure_bind, hsome, ne_eq, not_false_eq_true, decide_true]
    exact bind_pure _

theorem put_pointer_eq (hexa : UInt32) :
    putPointer putc hexa = putAll putc (pointerText hexa.toNat) := by
  have hchars : pointerText hexa.toNat =
      (List.range 8).map fun j => hexChar (nibble hexa.toUInt64 j) := by
    rw [pointerText, fixed_eq_map, List.map_map]
    refine List.map_congr_left fun j hj => ?_
    have hnb := nibble_toNat hexa.toUInt64 (List.mem_range.mp hj)
    rw [hex_char_eq (by omega), hnb]
    rfl
  rw [hchars]
  exact List.forM_map.symm

variable {putc}

/-- A part that comes to its end is followed by the rest. -/
theorem run_bind_ok {α β : Type} {first : Printer σ α} {rest : α → Printer σ β}
    {s s' : PrintState σ} {a : α} (h : first.run.run s = (.ok a, s')) :
    (first >>= rest).run.run s = (rest a).run.run s' := by
  rw [ExceptT.run_bind, StateT.run_bind, h]
  rfl

/-- `PUTCHAR` of a character that is taken. -/
theorem run_putchar_taken {c : UInt8} {p p' : σ} (h : putc c p = (1, p')) (ret : Int) :
    (putchar putc c).run.run { p := p, ret := ret } =
      (.ok (), { p := p', ret := intInc ret }) := by
  rw [putchar]
  refine (run_bind_ok (a := (⟨p, ret⟩ : PrintState σ)) rfl).trans ?_
  rw [h]
  rfl

/-- `PUTCHAR` of a character that is not taken. -/
theorem run_putchar_refused {c : UInt8} {p p' : σ} (h : putc c p = (0, p')) (ret : Int) :
    (putchar putc c).run.run { p := p, ret := ret } =
      (.error (.returned ret), { p := p', ret := ret }) := by
  rw [putchar]
  refine (run_bind_ok (a := (⟨p, ret⟩ : PrintState σ)) rfl).trans ?_
  rw [h]
  rfl

/-- A part that stops is not followed by the rest. -/
theorem run_bind_error {α β : Type} {first : Printer σ α} {rest : α → Printer σ β}
    {s s' : PrintState σ} {stop : Exit} (h : first.run.run s = (.error stop, s')) :
    (first >>= rest).run.run s = (.error stop, s') := by
  rw [ExceptT.run_bind, StateT.run_bind, h]
  rfl

end Programs

/-- The characters between a `%` and the letter, and what is left behind them. -/
def scanSpec (sp : Spec) : List UInt8 → Spec × List UInt8
  | [] => (sp, [])
  | c :: rest =>
      match sp.take c with
      | some sp => scanSpec sp rest
      | none => (sp, c :: rest)

theorem length_scan_spec (sp : Spec) (l : List UInt8) : (scanSpec sp l).2.length ≤ l.length := by
  induction l generalizing sp with
  | nil => exact le_rfl
  | cons c rest ih =>
      rw [scanSpec]
      split
      · exact (ih _).trans (Nat.le_succ _)
      · exact le_rfl

/-- The text of a conversion, by its letter, and the arguments behind its own. -/
def conversion (mem : Memory) (sp : Spec) (k : UInt8) (ap : VaList) : List UInt8 × VaList :=
  if k = 37 then ([37], ap)
  else if k = 105 ∨ k = 100 then
    if sp.u then ([], ap)
    else (decimalText (vaSigned mem sp.l ap).1, (vaSigned mem sp.l ap).2)
  else if k = 99 then ([(vaInt ap).1.toUInt8], (vaInt ap).2)
  else if k = 115 then (mem.string (vaInt ap).1, (vaInt ap).2)
  else if k = 120 then
    (hexText ((vaUnsigned mem sp.l ap).1.toNat % 16 ^ 8), (vaUnsigned mem sp.l ap).2)
  else if k = 112 then (pointerText (vaInt ap).1.toNat, (vaInt ap).2)
  else ([37, k], ap)

/-- What `vcprintf` puts out for what is left of a format, and whether it reads behind the format
in the end. -/
def pieces (mem : Memory) (l : List UInt8) (ap : VaList) : List UInt8 × Bool :=
  match l with
  | [] => ([], false)
  | c :: rest =>
      if c = 37 then
        match _hscan : scanSpec {} rest with
        | (_, []) => ([37, 0], true)
        | (sp, k :: behind) =>
            if k = 99 then ((conversion mem sp k ap).1, false)
            else
              ((conversion mem sp k ap).1 ++ (pieces mem behind (conversion mem sp k ap).2).1,
                (pieces mem behind (conversion mem sp k ap).2).2)
      else (c :: (pieces mem rest ap).1, (pieces mem rest ap).2)
termination_by l.length
decreasing_by
  · have hle := length_scan_spec {} rest
    rw [_hscan, List.length_cons] at hle
    rw [List.length_cons]
    omega
  · exact Nat.lt_succ_self _

section Pieces

variable {mem : Memory} {ap : VaList} {sp : Spec} {c k : UInt8} {rest behind : List UInt8}

theorem pieces_plain (hc : c ≠ 37) :
    pieces mem (c :: rest) ap = (c :: (pieces mem rest ap).1, (pieces mem rest ap).2) := by
  rw [pieces, if_neg hc]

theorem pieces_dangling (hscan : scanSpec {} rest = (sp, [])) :
    pieces mem (37 :: rest) ap = ([37, 0], true) := by
  rw [pieces, if_pos rfl]
  split
  · rfl
  · next hscan' =>
      rw [hscan] at hscan'
      cases hscan'

theorem pieces_letter (hscan : scanSpec {} rest = (sp, k :: behind)) :
    pieces mem (37 :: rest) ap =
      if k = 99 then ((conversion mem sp k ap).1, false)
      else
        ((conversion mem sp k ap).1 ++ (pieces mem behind (conversion mem sp k ap).2).1,
          (pieces mem behind (conversion mem sp k ap).2).2) := by
  rw [pieces, if_pos rfl]
  split
  · next hscan' =>
      rw [hscan] at hscan'
      cases hscan'
  · next hscan' =>
      rw [hscan] at hscan'
      cases hscan'
      rfl

end Pieces

section Formats

variable {format : Format} {i : Nat} {c : UInt8} {rest : List UInt8}

theorem byte_at_length : byteAt format format.bytes.length = some 0 := by
  rw [byteAt, dif_neg (lt_irrefl _), if_pos rfl]

/-- A byte of the format is not the final `0`. -/
theorem byte_at_drop (h : format.bytes.drop i = c :: rest) :
    byteAt format i = some c ∧ c ≠ 0 ∧ i < format.bytes.length ∧
      format.bytes.drop (i + 1) = rest := by
  have hi : i < format.bytes.length := by
    by_contra hi
    rw [List.drop_eq_nil_of_le (not_lt.mp hi)] at h
    cases h
  rw [List.drop_eq_getElem_cons hi] at h
  obtain ⟨rfl, hrest⟩ := List.cons.inj h
  exact ⟨dif_pos hi, fun hzero => format.zeroFree (hzero ▸ List.getElem_mem hi), hi, hrest⟩

/-- The characters between a `%` and the letter are read as from the list. -/
theorem spec_loop_eq (hi : i ≤ format.bytes.length) (sp : Spec) :
    ∃ j, specLoop format i sp = some (j, (scanSpec sp (format.bytes.drop i)).1) ∧ i ≤ j ∧
      j ≤ format.bytes.length ∧ format.bytes.drop j = (scanSpec sp (format.bytes.drop i)).2 := by
  induction hlen : format.bytes.length - i generalizing i sp with
  | zero =>
      have hend : i = format.bytes.length := by omega
      subst hend
      refine ⟨_, ?_, le_rfl, le_rfl, by simp [scanSpec]⟩
      rw [specLoop, byte_at_length, List.drop_length, scanSpec]
      rfl
  | succ n ih =>
      cases hdrop : format.bytes.drop i with
      | nil =>
          rw [List.drop_eq_nil_iff] at hdrop
          omega
      | cons c rest =>
          obtain ⟨hbyte, -, hlt, hrest⟩ := byte_at_drop hdrop
          rw [specLoop, hbyte, scanSpec]
          dsimp only
          cases htake : sp.take c with
          | none => exact ⟨i, rfl, le_rfl, hi, hdrop⟩
          | some sp' =>
              obtain ⟨j, hloop, hij, hj, hbehind⟩ := ih hlt sp' (by omega)
              rw [hrest] at hloop hbehind
              exact ⟨j, hloop, by omega, hj, hbehind⟩

variable {σ : Type} (putc : UInt8 → σ → Int × σ) (mem : Memory)

/-- The end of a run that has put out everything. -/
def ending (past : Bool) : Printer σ Unit := if past then throw .pastEnd else pure ()

/-- `vcprintf` puts out the text of its format, character after character. -/
theorem vcprintf_loop_eq (hi : i ≤ format.bytes.length) (ap : VaList) :
    vcprintfLoop putc mem format i ap =
      putAll putc (pieces mem (format.bytes.drop i) ap).1 >>= fun _ =>
        ending (pieces mem (format.bytes.drop i) ap).2 := by
  induction hlen : format.bytes.length - i using Nat.strong_induction_on generalizing i ap with
  | _ n ih =>
      cases hdrop : format.bytes.drop i with
      | nil =>
          rw [List.drop_eq_nil_iff] at hdrop
          obtain rfl : i = format.bytes.length := le_antisymm hi hdrop
          rw [vcprintfLoop, byte_at_length, pieces]
          rfl
      | cons c rest =>
          obtain ⟨hbyte, hzero, hlt, hrest⟩ := byte_at_drop hdrop
          rw [vcprintfLoop, hbyte]
          dsimp only
          rw [if_neg hzero]
          by_cases hc : c = 37
          · subst hc
            obtain ⟨j, hspec, hij, hj, hbehind⟩ := spec_loop_eq (i := i + 1) hlt {}
            rw [hrest] at hspec hbehind
            rw [if_pos rfl, hspec]
            dsimp only
            cases hscan : scanSpec {} rest with
            | mk sp l =>
                rw [hscan] at hbehind
                cases l with
                | nil =>
                    -- the format ends where its `%` should have a letter
                    rw [List.drop_eq_nil_iff] at hbehind
                    obtain rfl : j = format.bytes.length := le_antisymm hj hbehind
                    have hover : byteAt format (format.bytes.length + 1) = none := by simp [byteAt]
                    rw [pieces_dangling hscan, byte_at_length]
                    show (putchar putc 37 >>= fun _ => putchar putc 0 >>= fun _ =>
                      vcprintfLoop putc mem format (format.bytes.length + 1) ap) = _
                    rw [vcprintfLoop, hover]
                    simp only [put_all_cons, put_all_nil, bind_assoc, pure_bind]
                    rfl
                | cons k behind =>
                    obtain ⟨hbyte', -, hlt', hrest'⟩ := byte_at_drop hbehind
                    have hmore := fun ap' => ih (format.bytes.length - (j + 1)) (by omega)
                      (i := j + 1) hlt' ap' rfl
                    simp only [hrest'] at hmore
                    rw [hbyte', pieces_letter hscan]
                    dsimp only
                    rw [conversion]
                    by_cases h37 : k = 37
                    · subst h37
                      rw [if_pos rfl, if_neg (by decide), if_pos rfl, hmore, put_all_append,
                        put_all_singleton, bind_assoc]
                    by_cases hd : k = 105 ∨ k = 100
                    · have h99 : k ≠ 99 := by
                        intro h
                        rw [h] at hd
                        exact absurd hd (by decide)
                      rw [if_neg h37, if_pos hd, if_neg h99, if_neg h37, if_pos hd]
                      split
                      · rw [hmore, List.nil_append]
                      · rw [put_decimal_eq, hmore, put_all_append, bind_assoc]
                    by_cases hc : k = 99
                    · rw [if_neg h37, if_neg hd, if_pos hc, if_pos hc, if_neg h37, if_neg hd,
                        if_pos hc, put_all_singleton]
                      exact (bind_pure _).symm
                    rw [if_neg h37, if_neg hd, if_neg hc, if_neg hc, if_neg h37, if_neg hd,
                      if_neg hc]
                    by_cases hs : k = 115
                    · rw [if_pos hs, if_pos hs, hmore, put_all_append, bind_assoc]
                    by_cases hx : k = 120
                    · rw [if_neg hs, if_pos hx, if_neg hs, if_pos hx, put_hex_eq, hmore,
                        put_all_append, bind_assoc]
                    by_cases hp : k = 112
                    · rw [if_neg hs, if_neg hx, if_pos hp, if_neg hs, if_neg hx, if_pos hp,
                        put_pointer_eq, hmore, put_all_append, bind_assoc]
                    rw [if_neg hs, if_neg hx, if_neg hp, if_neg hs, if_neg hx, if_neg hp, hmore,
                      put_all_append, put_all_cons, put_all_singleton, bind_assoc, bind_assoc]
          · rw [if_neg hc, pieces_plain hc, put_all_cons, bind_assoc]
            rw [ih (format.bytes.length - (i + 1)) (by omega) hlt ap rfl, hrest]

end Formats

end Kogata.Common.Printf
