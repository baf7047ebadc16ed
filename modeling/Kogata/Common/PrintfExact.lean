import Kogata.Common.PrintfText

/-!
# Formats and their texts

A format that is made of ordinary characters and conversions, with the arguments of its
conversions, has a text. `vcprintf` prints it unless something has a place behind the first `%c`,
or a 64-bit number that does not fit into 32 bits is to be shown by `%llx`; and it reads behind a
format that ends between a `%` and its letter (`vcprintf_exact_iff`).
-/

namespace Kogata.Common.Printf

open Lib.Digits

/-- An integer argument, with its type. -/
inductive IntArg where
  | int (value : UInt32)
  | long (value : UInt32)
  | longLong (value : UInt64)
  deriving DecidableEq

namespace IntArg

/-- The number of `l`s of its conversions. -/
def length : IntArg → Nat
  | int _ => 0
  | long _ => 1
  | longLong _ => 2

/-- Its words on the stack. -/
def words : IntArg → List UInt32
  | int value => [value]
  | long value => [value]
  | longLong value => [value.toUInt32, (value >>> 32).toUInt32]

/-- Its value for `%d`. -/
def signed : IntArg → Int
  | int value => value.toInt32.toInt
  | long value => value.toInt32.toInt
  | longLong value => value.toInt64.toInt

/-- Its value for `%x`. -/
def unsigned : IntArg → Nat
  | int value => value.toNat
  | long value => value.toNat
  | longLong value => value.toNat

end IntArg

/-- An ordinary character, or a conversion with its argument; `l` is the number of `l`s where they
do not matter. -/
inductive Item where
  | plain (c : UInt8) (hzero : c ≠ 0) (hpercent : c ≠ 37)
  | percent (l : Fin 3)
  | char (l : Fin 3) (value : UInt32)
  | string (l : Fin 3) (addr : UInt32)
  | decimal (letter : UInt8) (hletter : letter = 105 ∨ letter = 100) (arg : IntArg)
  | hex (arg : IntArg)
  | pointer (l : Fin 3) (value : UInt32)

/-- A `%`, some `l`s and a letter. -/
def directive (l : Nat) (letter : UInt8) : List UInt8 := 37 :: (List.replicate l 108 ++ [letter])

namespace Item

/-- The characters in the format. -/
def chars : Item → List UInt8
  | plain c _ _ => [c]
  | percent l => directive l 37
  | char l _ => directive l 99
  | string l _ => directive l 115
  | decimal letter _ arg => directive arg.length letter
  | hex arg => directive arg.length 120
  | pointer l _ => directive l 112

/-- The words on the stack. -/
def words : Item → List UInt32
  | plain _ _ _ => []
  | percent _ => []
  | char _ value => [value]
  | string _ addr => [addr]
  | decimal _ _ arg => arg.words
  | hex arg => arg.words
  | pointer _ value => [value]

/-- The text. -/
def text (mem : Memory) : Item → List UInt8
  | plain c _ _ => [c]
  | percent _ => [37]
  | char _ value => [value.toUInt8]
  | string _ addr => mem.string addr
  | decimal _ _ arg => decimalText arg.signed
  | hex arg => hexText arg.unsigned
  | pointer _ value => pointerText value.toNat

/-- The text as `vcprintf` writes it. -/
def printed (mem : Memory) : Item → List UInt8
  | hex arg => hexText (arg.unsigned % 16 ^ 8)
  | item => item.text mem

theorem zero_not_mem (item : Item) : 0 ∉ item.chars := by
  have hdirective : ∀ l letter, letter ≠ 0 → 0 ∉ directive l letter := by
    intro l letter hletter hmem
    simp [directive, Ne.symm hletter] at hmem
  cases item with
  | plain c hzero _ => exact fun hmem => hzero (List.mem_singleton.mp hmem).symm
  | percent l => exact hdirective _ _ (by decide)
  | char l _ => exact hdirective _ _ (by decide)
  | string l _ => exact hdirective _ _ (by decide)
  | decimal letter hletter _ =>
      refine hdirective _ _ ?_
      rintro rfl
      exact absurd hletter (by decide)
  | hex _ => exact hdirective _ _ (by decide)
  | pointer l _ => exact hdirective _ _ (by decide)

end Item

/-- The format of some items. -/
def formatOf (items : List Item) : Format where
  bytes := items.flatMap Item.chars
  zeroFree := by
    intro hmem
    obtain ⟨item, -, hitem⟩ := List.mem_flatMap.mp hmem
    exact item.zero_not_mem hitem

/-- A word in front of others. -/
def pushWord (word : UInt32) (ap : VaList) : VaList
  | 0 => word
  | n + 1 => ap n

/-- The arguments of some items, with the stack behind them. -/
def stackOf (items : List Item) (ap : VaList) : VaList :=
  (items.flatMap Item.words).foldr pushWord ap

/-- The text of some items. -/
def textOf (mem : Memory) (items : List Item) : List UInt8 := items.flatMap (Item.text mem)

/-- What `vcprintf` puts out for some items. -/
def emitted (mem : Memory) : List Item → List UInt8
  | [] => []
  | .char _ value :: _ => [value.toUInt8]
  | item :: items => item.printed mem ++ emitted mem items

/-- Nothing has a place behind the first `%c`, and up to there `%llx` has numbers of 32 bits. -/
def Exact (mem : Memory) : List Item → Prop
  | [] => True
  | .char _ _ :: items => textOf mem items = []
  | .hex (.longLong value) :: items => value.toNat < 2 ^ 32 ∧ Exact mem items
  | _ :: items => Exact mem items

section Items

variable (mem : Memory)

theorem va_long_long_push (value : UInt64) (ap : VaList) :
    vaLongLong (pushWord value.toUInt32 (pushWord (value >>> 32).toUInt32 ap)) = (value, ap) := by
  refine Prod.ext ?_ rfl
  show value.toUInt32.toUInt64 + (2 : UInt64) ^ 32 * (value >>> 32).toUInt32.toUInt64 = value
  apply UInt64.toNat_inj.mp
  have hlt := value.toNat_lt
  rw [UInt64.toNat_add, UInt64.toNat_mul]
  simp only [UInt32.toNat_toUInt64, UInt64.toNat_toUInt32, UInt64.toNat_shiftRight,
    Nat.shiftRight_eq_div_pow]
  show (value.toNat % 2 ^ 32 + 2 ^ 32 * (value.toNat / 2 ^ 32 % 2 ^ 32) % 2 ^ 64) % 2 ^ 64 = _
  omega

/-- The `l`s of a directive are counted. -/
theorem scan_directive (l : Nat) {letter : UInt8} (hletter : ∀ sp : Spec, sp.take letter = none)
    (rest : List UInt8) :
    scanSpec {} (List.replicate l 108 ++ letter :: rest) = ({ l := l }, letter :: rest) := by
  have hall : ∀ sp : Spec, scanSpec sp (List.replicate l 108 ++ letter :: rest) =
      ({ sp with l := sp.l + l }, letter :: rest) := by
    induction l with
    | zero =>
        intro sp
        rw [List.replicate_zero, List.nil_append, scanSpec, hletter]
        rfl
    | succ l ih =>
        intro sp
        rw [List.replicate_succ, List.cons_append, scanSpec]
        show scanSpec { sp with l := sp.l + 1 } _ = _
        rw [ih, Nat.add_assoc, Nat.add_comm 1 l]
  rw [hall]
  simp

/-- The text of a directive stands in front of that of the rest. -/
theorem pieces_directive (l : Nat) {letter : UInt8}
    (hletter : ∀ sp : Spec, sp.take letter = none) (hc : letter ≠ 99) {rest text : List UInt8}
    {ap ap' : VaList} (htext : conversion mem { l := l } letter ap = (text, ap')) :
    pieces mem (directive l letter ++ rest) ap =
      (text ++ (pieces mem rest ap').1, (pieces mem rest ap').2) := by
  have hscan := scan_directive l hletter rest
  rw [← List.singleton_append, ← List.append_assoc] at hscan
  rw [directive, List.cons_append, pieces_letter hscan, if_neg hc, htext]
  rfl

theorem take_of_letter (letter : UInt8) (h : letter ∈ [37, 105, 100, 99, 115, 120, 112])
    (sp : Spec) : sp.take letter = none := by
  simp only [List.mem_cons, List.not_mem_nil, or_false] at h
  obtain rfl | rfl | rfl | rfl | rfl | rfl | rfl := h <;> rfl

/-- The argument of `%d`. -/
theorem va_signed_push (arg : IntArg) (ap : VaList) :
    vaSigned mem arg.length (arg.words.foldr pushWord ap) = (arg.signed, ap) := by
  cases arg with
  | int value => rfl
  | long value => rfl
  | longLong value =>
      show ((vaLongLong _).1.toInt64.toInt, _) = _
      exact congrArg (fun r : UInt64 × VaList => (r.1.toInt64.toInt, r.2))
        (va_long_long_push value ap)

/-- The argument of `%x`. -/
theorem va_unsigned_push (arg : IntArg) (ap : VaList) :
    ((vaUnsigned mem arg.length (arg.words.foldr pushWord ap)).1.toNat,
      (vaUnsigned mem arg.length (arg.words.foldr pushWord ap)).2) = (arg.unsigned, ap) := by
  cases arg with
  | int value => rfl
  | long value => rfl
  | longLong value =>
      exact congrArg (fun r : UInt64 × VaList => (r.1.toNat, r.2)) (va_long_long_push value ap)

theorem stack_of_cons (item : Item) (items : List Item) (ap : VaList) :
    stackOf (item :: items) ap = item.words.foldr pushWord (stackOf items ap) := by
  rw [stackOf, List.flatMap_cons, List.foldr_append]
  rfl

/-- What `vcprintf` puts out for items. -/
theorem pieces_items (items : List Item) (ap : VaList) :
    pieces mem (items.flatMap Item.chars) (stackOf items ap) = (emitted mem items, false) := by
  induction items with
  | nil => rw [List.flatMap_nil, pieces, emitted]
  | cons item items ih =>
      have hrest : ∀ text : List UInt8,
          (text ++ (pieces mem (items.flatMap Item.chars) (stackOf items ap)).1,
            (pieces mem (items.flatMap Item.chars) (stackOf items ap)).2) =
            (text ++ emitted mem items, false) := fun text => by rw [ih]
      rw [List.flatMap_cons, stack_of_cons]
      cases item with
      | plain c hzero hpercent =>
          rw [Item.chars, List.singleton_append, pieces_plain hpercent]
          exact hrest [c]
      | percent l =>
          exact (pieces_directive mem l (take_of_letter _ (by decide)) (by decide) rfl).trans
            (hrest [37])
      | char l value =>
          have hscan := scan_directive l (take_of_letter 99 (by decide))
            (items.flatMap Item.chars)
          rw [← List.singleton_append, ← List.append_assoc] at hscan
          rw [Item.chars, directive, List.cons_append, pieces_letter hscan, if_pos rfl, emitted]
          rfl
      | string l addr =>
          exact (pieces_directive mem l (take_of_letter _ (by decide)) (by decide) rfl).trans
            (hrest (mem.string addr))
      | decimal letter hletter arg =>
          have harg := va_signed_push mem arg (stackOf items ap)
          have htext : conversion mem { l := arg.length } letter
              (arg.words.foldr pushWord (stackOf items ap)) =
              (decimalText arg.signed, stackOf items ap) := by
            rw [conversion, if_neg (by rintro rfl; exact absurd hletter (by decide)),
              if_pos hletter, if_neg Bool.false_ne_true, harg]
          have hmem : letter ∈ [37, 105, 100, 99, 115, 120, 112] := by
            obtain rfl | rfl := hletter <;> decide
          refine (pieces_directive mem _ (take_of_letter letter hmem) ?_ htext).trans (hrest _)
          rintro rfl
          exact absurd hletter (by decide)
      | hex arg =>
          have htext : conversion mem { l := arg.length } 120
              (arg.words.foldr pushWord (stackOf items ap)) =
              (hexText (arg.unsigned % 16 ^ 8), stackOf items ap) :=
            congrArg (fun r : Nat × VaList => (hexText (r.1 % 16 ^ 8), r.2))
              (va_unsigned_push mem arg (stackOf items ap))
          exact (pieces_directive mem _ (take_of_letter _ (by decide)) (by decide) htext).trans
            (hrest _)
      | pointer l value =>
          exact (pieces_directive mem l (take_of_letter _ (by decide)) (by decide) rfl).trans
            (hrest (pointerText value.toNat))

theorem text_of_cons (item : Item) (items : List Item) :
    textOf mem (item :: items) = item.text mem ++ textOf mem items := List.flatMap_cons

/-- A number that does not fit into 32 bits is printed too short. -/
theorem printed_short {n : Nat} (h : 16 ^ 8 ≤ n) :
    (hexText (n % 16 ^ 8)).length < (hexText n).length := by
  rw [hexText, hexText, List.length_map, List.length_map]
  have hlow : (numeral 16 (n % 16 ^ 8)).length ≤ 8 :=
    length_numeral_le (by decide) (by decide) (Nat.mod_lt _ (by decide))
  exact hlow.trans_lt (lt_length_numeral (by decide) h)

theorem printed_length_le (item : Item) :
    (item.printed mem).length ≤ (item.text mem).length := by
  cases item with
  | hex arg =>
      show (hexText (arg.unsigned % 16 ^ 8)).length ≤ (hexText arg.unsigned).length
      by_cases hfits : arg.unsigned < 16 ^ 8
      · rw [Nat.mod_eq_of_lt hfits]
      · exact (printed_short (not_lt.mp hfits)).le
  | _ => exact le_rfl

/-- Nothing is put out beyond the text. -/
theorem emitted_length_le (items : List Item) :
    (emitted mem items).length ≤ (textOf mem items).length := by
  induction items using emitted.induct with
  | case1 => exact le_rfl
  | case2 l value items =>
      rw [emitted, text_of_cons, List.length_append]
      exact Nat.le_add_right _ _
  | case3 item items hchar ih =>
      rw [emitted.eq_3 mem item items hchar, text_of_cons, List.length_append, List.length_append]
      exact Nat.add_le_add (printed_length_le mem item) ih

/-- What is put out is the text exactly when the items are exact. -/
theorem emitted_eq_iff (items : List Item) :
    emitted mem items = textOf mem items ↔ Exact mem items := by
  have hstep : ∀ (item : Item) (items : List Item), item.printed mem = item.text mem →
      (item.printed mem ++ emitted mem items = textOf mem (item :: items) ↔
        emitted mem items = textOf mem items) := by
    intro item items hsame
    rw [text_of_cons, hsame, List.append_cancel_left_eq]
  induction items with
  | nil => exact iff_of_true rfl trivial
  | cons item items ih =>
      cases item with
      | char l value =>
          rw [emitted, text_of_cons, Exact]
          exact List.self_eq_append_right
      | hex arg =>
          have hfull : arg.unsigned < 16 ^ 8 →
              Item.printed mem (.hex arg) = Item.text mem (.hex arg) :=
            fun hfits => congrArg hexText (Nat.mod_eq_of_lt hfits)
          cases arg with
          | int value => exact (hstep (.hex (.int value)) items (hfull value.toNat_lt)).trans ih
          | long value => exact (hstep (.hex (.long value)) items (hfull value.toNat_lt)).trans ih
          | longLong value =>
              by_cases hfits : value.toNat < 2 ^ 32
              · exact ((hstep (.hex (.longLong value)) items (hfull hfits)).trans ih).trans
                  (and_iff_right hfits).symm
              · -- what is missing in front is not made up for behind
                have hshort := emitted_length_le mem items
                have hlost := printed_short (not_lt.mp hfits)
                refine iff_of_false (fun heq => ?_) fun hexact => hfits hexact.1
                have hlen := congrArg List.length heq
                change (hexText (value.toNat % 16 ^ 8) ++ emitted mem items).length =
                  (textOf mem (.hex (.longLong value) :: items)).length at hlen
                rw [text_of_cons, List.length_append, List.length_append] at hlen
                change _ = (hexText value.toNat).length + _ at hlen
                omega
      | plain c hzero hpercent => exact (hstep (.plain c hzero hpercent) items rfl).trans ih
      | percent l => exact (hstep (.percent l) items rfl).trans ih
      | string l addr => exact (hstep (.string l addr) items rfl).trans ih
      | decimal letter hletter arg => exact (hstep (.decimal letter hletter arg) items rfl).trans ih
      | pointer l value => exact (hstep (.pointer l value) items rfl).trans ih

end Items

/-- A character that may stand between a `%` and its letter. -/
def IsModifier (c : UInt8) : Prop := c = 108 ∨ c = 117 ∨ isdigit c ∨ c = 46

/-- A format that ends between a `%` and its letter, with no `%c` in front of that. -/
inductive Dangling : List UInt8 → Prop where
  | cut (mods : List UInt8) (hmods : ∀ c ∈ mods, IsModifier c) : Dangling (37 :: mods)
  | plain (c : UInt8) (hc : c ≠ 37) (rest : List UInt8) (h : Dangling rest) : Dangling (c :: rest)
  | conversion (mods : List UInt8) (hmods : ∀ c ∈ mods, IsModifier c) (letter : UInt8)
      (hletter : ¬ IsModifier letter) (hc : letter ≠ 99) (rest : List UInt8) (h : Dangling rest) :
      Dangling (37 :: (mods ++ letter :: rest))

section Ends

variable {mem : Memory} {sp : Spec} {c : UInt8} {l rest : List UInt8}

theorem take_none_iff : sp.take c = none ↔ ¬ IsModifier c := by
  rw [Spec.take, IsModifier]
  by_cases hl : c = 108
  · simp [hl]
  by_cases hu : c = 117
  · simp [hu]
  by_cases hd : isdigit c
  · simp only [if_neg hl, if_neg hu, hd]
    cases sp.dotspec <;> simp
  by_cases hp : c = 46
  · simp [hp, isdigit]
  simp [hl, hu, hd, hp]

/-- What is in front of the letter, and the letter. -/
theorem scan_split (sp : Spec) (l : List UInt8) :
    ∃ mods, l = mods ++ (scanSpec sp l).2 ∧ (∀ c ∈ mods, IsModifier c) ∧
      ∀ c ∈ (scanSpec sp l).2.head?, ¬ IsModifier c := by
  induction l generalizing sp with
  | nil => exact ⟨[], rfl, by simp, by simp [scanSpec]⟩
  | cons c rest ih =>
      rw [scanSpec]
      cases htake : sp.take c with
      | none => exact ⟨[], rfl, by simp, by simpa using take_none_iff.mp htake⟩
      | some sp' =>
          obtain ⟨mods, hsplit, hmods, hhead⟩ := ih sp'
          have hc : IsModifier c := by
            by_contra hc
            rw [take_none_iff.mpr hc] at htake
            cases htake
          exact ⟨c :: mods, congrArg (c :: ·) hsplit, List.forall_mem_cons.mpr ⟨hc, hmods⟩, hhead⟩

/-- The letter is found behind what is in front of it. -/
theorem scan_append {mods : List UInt8} (hmods : ∀ c ∈ mods, IsModifier c)
    (rest : List UInt8) (hrest : ∀ c ∈ rest.head?, ¬ IsModifier c) (sp : Spec) :
    (scanSpec sp (mods ++ rest)).2 = rest := by
  induction mods generalizing sp with
  | nil =>
      cases rest with
      | nil => rfl
      | cons c rest => rw [List.nil_append, scanSpec, take_none_iff.mpr (hrest c rfl)]
  | cons c mods ih =>
      rw [List.forall_mem_cons] at hmods
      rw [List.cons_append, scanSpec]
      cases htake : sp.take c with
      | none => exact absurd hmods.1 (take_none_iff.mp htake)
      | some sp' => exact ih hmods.2 sp'

/-- A format is read beyond its end exactly when it is cut off behind a `%`. -/
theorem pieces_over_iff (mem : Memory) (l : List UInt8) (ap : VaList) :
    (pieces mem l ap).2 = true ↔ Dangling l := by
  constructor
  · intro hover
    induction hlen : l.length using Nat.strong_induction_on generalizing l ap with
    | _ n ih =>
        cases l with
        | nil =>
            rw [pieces] at hover
            cases hover
        | cons c rest =>
            rw [List.length_cons] at hlen
            by_cases hc : c = 37
            · subst hc
              obtain ⟨mods, hsplit, hmods, hhead⟩ := scan_split {} rest
              have hle := length_scan_spec {} rest
              cases hscan : scanSpec {} rest with
              | mk sp behind =>
                  rw [hscan] at hsplit hhead hle
                  cases behind with
                  | nil =>
                      rw [hsplit, List.append_nil]
                      exact .cut mods hmods
                  | cons letter behind =>
                      rw [pieces_letter hscan] at hover
                      rw [List.length_cons] at hle
                      split at hover
                      · cases hover
                      · next hletter =>
                          rw [hsplit]
                          exact .conversion mods hmods letter (hhead letter rfl) hletter behind
                            (ih _ (by omega) _ _ hover rfl)
            · rw [pieces_plain hc] at hover
              exact .plain c hc rest (ih _ (by omega) _ _ hover rfl)
  · intro h
    induction h generalizing ap with
    | cut mods hmods =>
        have hscan := scan_append hmods [] (by simp) {}
        rw [List.append_nil] at hscan
        rw [pieces_dangling (Prod.ext rfl hscan)]
    | plain c hc rest h ih =>
        rw [pieces_plain hc]
        exact ih ap
    | conversion mods hmods letter hletter hc rest h ih =>
        have hscan := scan_append hmods (letter :: rest) (by simpa using hletter) {}
        rw [pieces_letter (Prod.ext rfl hscan), if_neg hc]
        exact ih _

end Ends

/-- The output function that takes every character. -/
def accept (c : UInt8) (out : List UInt8) : Int × List UInt8 := (1, out ++ [c])

/-- A number as an `int` that has been counted up to it. -/
def intOf (n : Nat) : Int := (n + 2 ^ 31) % 2 ^ 32 - 2 ^ 31

theorem int_inc_int_of (n : Nat) : intInc (intOf n) = intOf (n + 1) := by
  rw [intInc, intOf, intOf]
  omega

theorem int_of_eq_iff (n : Nat) : intOf n = n ↔ n < 2 ^ 31 := by
  rw [intOf]
  omega

/-- Every character is taken and counted. -/
theorem run_accept (cs out : List UInt8) (n : Nat) :
    (putAll accept cs).run.run { p := out, ret := intOf n } =
      (.ok (), { p := out ++ cs, ret := intOf (n + cs.length) }) := by
  induction cs generalizing out n with
  | nil =>
      rw [List.append_nil]
      rfl
  | cons c cs ih =>
      have hput : (putchar accept c).run.run { p := out, ret := intOf n } =
          (.ok (), { p := out ++ [c], ret := intOf (n + 1) }) := by
        rw [← int_inc_int_of]
        exact run_putchar_taken rfl _
      rw [put_all_cons, run_bind_ok hput, ih, List.append_assoc, List.length_cons,
        Nat.add_assoc, Nat.add_comm 1]
      rfl

section Exactness

variable (mem : Memory)

/-- `vcprintf` writes the text of the items and returns its length. -/
def Prints (items : List Item) (ap : VaList) : Prop :=
  vcprintf accept mem [] (some (formatOf items)) (stackOf items ap) =
    (some ((textOf mem items).length : Int), textOf mem items)

/-- `vcprintf` reads no byte of the format behind its final `0`. -/
def ReadsInside (format : Format) (ap : VaList) : Prop :=
  (vcprintf accept mem [] (some format) ap).1 ≠ none

/-- What `vcprintf` makes of a format. -/
theorem vcprintf_accept (format : Format) (ap : VaList) :
    vcprintf accept mem [] (some format) ap =
      (if (pieces mem format.bytes ap).2 then none
        else some (intOf (pieces mem format.bytes ap).1.length),
        (pieces mem format.bytes ap).1) := by
  have hloop := vcprintf_loop_eq accept mem (Nat.zero_le format.bytes.length) ap
  rw [List.drop_zero] at hloop
  have hrun := run_accept (pieces mem format.bytes ap).1 [] 0
  rw [vcprintf, hloop, show (0 : Int) = intOf 0 from rfl]
  rw [run_bind_ok hrun, Nat.zero_add, List.nil_append]
  cases (pieces mem format.bytes ap).2 <;> rfl

/-- The text of the items is printed exactly when they are exact and the length is an `int`; the
format is read up to its end exactly when it is not cut off behind a `%`. -/
theorem vcprintf_exact_iff :
    (∀ items ap, Prints mem items ap ↔ Exact mem items ∧ (textOf mem items).length < 2 ^ 31) ∧
      ∀ format ap, ReadsInside mem format ap ↔ ¬ Dangling format.bytes := by
  constructor
  · intro items ap
    have hpieces : pieces mem (formatOf items).bytes (stackOf items ap) = _ :=
      pieces_items mem items ap
    rw [Prints, vcprintf_accept, hpieces, ← emitted_eq_iff]
    simp only [Bool.false_eq_true, if_false, Prod.mk.injEq, Option.some.injEq]
    rw [and_comm]
    refine and_congr_right fun heq => ?_
    rw [heq]
    exact int_of_eq_iff _
  · intro format ap
    rw [ReadsInside, vcprintf_accept, ← pieces_over_iff mem format.bytes ap]
    cases (pieces mem format.bytes ap).2 <;> simp

/-- `"%c!"` with `'A'`: the exclamation mark is not printed. -/
theorem char_ends_output :
    ¬ Prints { str := fun _ => [], stale := 0 }
      [.char 0 65, .plain 33 (by decide) (by decide)] (fun _ => 0) := by
  intro h
  rw [Prints, vcprintf_accept, formatOf, pieces_items] at h
  have htext : ([65] : List UInt8) = [65, 33] := congrArg Prod.snd h
  cases htext

end Exactness

end Kogata.Common.Printf
