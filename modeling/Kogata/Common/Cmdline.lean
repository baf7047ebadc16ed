import Kogata.Common.BtreeRefines
import Mathlib.Data.List.TakeWhile

/-!
# The command line

`parse_cmdline`, of which `kernel/core/kmain.c` and `sysbin/init/main.c` each have a copy. A string
is the list of its characters without the final `0`, and a pointer into it is what is behind it;
`strchr` gives a distance. The allocations succeed.
-/

namespace Kogata.Common.Cmdline

/-- A string. -/
abbrev CString := List UInt8

/-- `' '`. -/
abbrev space : UInt8 := 32

/-- `'='`. -/
abbrev equals : UInt8 := 61

/-- `strchr`. -/
def strchr (str : CString) (c : UInt8) : Option Nat := str.idxOf? c

/-- `strdup`. -/
def strdup (str : CString) : CString := str

/-- `strndup`. -/
def strndup (str : CString) (count : Nat) : CString :=
  str.take (if count < str.length then count else str.length)

/-- `strcmp`. A string ends where its characters do, or before a `0` among them. -/
def strcmp : CString → CString → Int
  | [], [] => 0
  | [], b :: _ => 0 - b.toNat
  | a :: _, [] => a.toNat - 0
  | a :: s1, b :: s2 => if a ≠ 0 ∧ a = b then strcmp s1 s2 else a.toNat - b.toNat

/-- `str_key_cmp_fun`, by the sign of its result. -/
def strKeyCmpFun (a b : CString) : Ordering := compare (strcmp a b) 0

/-- The tree of a command line. -/
abbrev Tree := Btree strKeyCmpFun CString

/-- `btree_add`, the result of which is not looked at. -/
def btreeAdd (t : Tree) (key val : CString) : Tree := (t.add true key val).getD t

namespace Kmain

/-- The loop of `parse_cmdline` in `kernel/core/kmain.c`. -/
def parseLoop (ret : Tree) (x : CString) : Tree :=
  if x = [] then ret
  else
    let y := x.dropWhile (· = space)
    let eq := strchr y equals
    match strchr y space with
    | none =>
        match eq with
        | none => btreeAdd ret (strdup y) (strdup y)
        | some eq => btreeAdd ret (strndup y eq) (strdup (y.drop (eq + 1)))
    | some sep =>
        let ret := match eq with
          | none => btreeAdd ret (strndup y sep) (strndup y sep)
          | some eq =>
              if eq > sep then btreeAdd ret (strndup y sep) (strndup y sep)
              else btreeAdd ret (strndup y eq) (strndup (y.drop (eq + 1)) (sep - eq - 1))
        parseLoop ret (y.drop (sep + 1))
termination_by x.length
decreasing_by
  have hpos := List.length_pos_of_ne_nil ‹x ≠ []›
  have hdrop := (List.dropWhile_suffix (l := x) (· = space)).length_le
  rw [List.length_drop]
  omega

/-- `parse_cmdline` in `kernel/core/kmain.c`. -/
def parseCmdline (x : CString) : Tree :=
  match strchr x space with
  | none => Btree.create
  | some sep => parseLoop Btree.create (x.drop sep)

end Kmain

namespace Init

/-- The loop of `parse_cmdline` in `sysbin/init/main.c`. -/
def parseLoop (ret : Tree) (x : CString) : Tree :=
  if x = [] then ret
  else
    let y := x.dropWhile (· = space)
    let eq := strchr y equals
    match strchr y space with
    | none =>
        match eq with
        | none => btreeAdd ret (strdup y) (strdup y)
        | some eq => btreeAdd ret (strndup y eq) (strdup (y.drop (eq + 1)))
    | some sep =>
        let ret := match eq with
          | none => btreeAdd ret (strndup y sep) (strndup y sep)
          | some eq =>
              if eq > sep then btreeAdd ret (strndup y sep) (strndup y sep)
              else btreeAdd ret (strndup y eq) (strndup (y.drop (eq + 1)) (sep - eq - 1))
        parseLoop ret (y.drop (sep + 1))
termination_by x.length
decreasing_by
  have hpos := List.length_pos_of_ne_nil ‹x ≠ []›
  have hdrop := (List.dropWhile_suffix (l := x) (· = space)).length_le
  rw [List.length_drop]
  omega

/-- `parse_cmdline` in `sysbin/init/main.c`. -/
def parseCmdline (x : CString) : Tree :=
  match strchr x space with
  | none => Btree.create
  | some sep => parseLoop Btree.create (x.drop sep)

end Init

/-- A token of a command line, with the number of spaces in front of it less one. -/
structure Token where
  spaces : Nat
  text : CString
  nonempty : text ≠ []
  spaceFree : space ∉ text

namespace Token

/-- What the token binds: the text before its first `=` to the text behind it, or the token to
itself. -/
def binding (tok : Token) : CString × CString :=
  if equals ∈ tok.text then
    (tok.text.takeWhile (· ≠ equals), (tok.text.dropWhile (· ≠ equals)).tail)
  else (tok.text, tok.text)

/-- Tokens, each behind its spaces. -/
def render (toks : List Token) : CString :=
  toks.flatMap fun tok => space :: (List.replicate tok.spaces space ++ tok.text)

end Token

/-- A command line: the word of the program and the tokens behind it. -/
structure CommandLine where
  word : CString
  spaceFree : space ∉ word
  tokens : List Token

/-- The string of a command line. -/
def CommandLine.text (line : CommandLine) : CString := line.word ++ Token.render line.tokens

section Compare

/-- The difference of two characters has the sign of their comparison. -/
theorem compare_sub (a b : UInt8) : compare ((a.toNat : Int) - b.toNat) 0 = compare a b := by
  have hlt : (a.toNat : Int) - b.toNat < 0 ↔ a < b := by
    rw [UInt8.lt_iff_toNat_lt]
    omega
  have heq : (a.toNat : Int) - b.toNat = 0 ↔ a = b := by
    rw [← UInt8.toNat_inj]
    omega
  show compareOfLessAndEq _ _ = compareOfLessAndEq a b
  simp only [compareOfLessAndEq, hlt, heq]

theorem pos_of_ne_zero {c : UInt8} (hc : c ≠ 0) : 0 < c.toNat :=
  Nat.pos_of_ne_zero fun h => hc (UInt8.toNat_inj.mp h)

/-- The keys are ordered by their bytes up to the first `0`. -/
theorem str_key_cmp_fun_eq :
    strKeyCmpFun = compareOn fun s : CString => s.takeWhile (· ≠ 0) := by
  funext a b
  rw [compareOn, strKeyCmpFun]
  induction a, b using strcmp.induct with
  | case1 => rfl
  | case2 b s2 =>
      rw [strcmp]
      by_cases hb : b = 0
      · rw [hb]
        rfl
      · have hpos := pos_of_ne_zero hb
        rw [List.takeWhile_cons_of_pos (by simpa using hb)]
        exact compare_lt_iff_lt.mpr (by omega)
  | case3 a s1 =>
      rw [strcmp]
      by_cases ha : a = 0
      · rw [ha]
        rfl
      · have hpos := pos_of_ne_zero ha
        rw [List.takeWhile_cons_of_pos (by simpa using ha)]
        exact compare_gt_iff_gt.mpr (by omega)
  | case4 a s1 b s2 h ih =>
      obtain ⟨ha, rfl⟩ := h
      rw [strcmp, if_pos ⟨ha, rfl⟩, ih, List.takeWhile_cons_of_pos (by simpa using ha),
        List.takeWhile_cons_of_pos (by simpa using ha)]
      show _ = List.compareLex compare _ _
      rw [List.compareLex_cons_cons, (Std.ReflCmp.compare_self : compare a a = .eq)]
      rfl
  | case5 a s1 b s2 h =>
      rw [strcmp, if_neg h]
      by_cases ha : a = 0
      · subst ha
        rw [List.takeWhile_cons_of_neg (by simp)]
        by_cases hb : b = 0
        · rw [hb]
          rfl
        · have hpos := pos_of_ne_zero hb
          rw [List.takeWhile_cons_of_pos (by simpa using hb)]
          exact compare_lt_iff_lt.mpr (by rw [UInt8.toNat_zero]; omega)
      · rw [List.takeWhile_cons_of_pos (by simpa using ha)]
        by_cases hb : b = 0
        · have hpos := pos_of_ne_zero ha
          rw [hb, List.takeWhile_cons_of_neg (by simp)]
          exact compare_gt_iff_gt.mpr (by rw [UInt8.toNat_zero]; omega)
        · rw [List.takeWhile_cons_of_pos (by simpa using hb), compare_sub]
          show _ = List.compareLex compare _ _
          rw [List.compareLex_cons_cons]
          cases hcmp : compare a b with
          | eq => exact absurd ⟨ha, Std.LawfulEqOrd.eq_of_compare hcmp⟩ h
          | lt => rfl
          | gt => rfl

instance : Std.TransCmp strKeyCmpFun := by
  rw [str_key_cmp_fun_eq]
  infer_instance

end Compare

section Strings

variable {str rest : CString} {c d : UInt8}

theorem strchr_none (h : c ∉ str) : strchr str c = none :=
  List.idxOf?_eq_none_iff.mpr h

/-- The character comes first behind what does not have it. -/
theorem strchr_append (h : c ∉ str) :
    strchr (str ++ rest) c = (strchr rest c).map (str.length + ·) := by
  induction str with
  | nil => simp
  | cons a str ih =>
      obtain ⟨ha, hstr⟩ := not_or.mp (mt List.mem_cons.mpr h)
      show (a :: (str ++ rest)).idxOf? c = _
      rw [List.idxOf?_cons, if_neg (by simpa using Ne.symm ha)]
      show (strchr (str ++ rest) c).map (· + 1) = _
      rw [ih hstr, Option.map_map]
      congr 1
      funext n
      show str.length + n + 1 = str.length + 1 + n
      omega

theorem strchr_self : strchr (c :: rest) c = some 0 := by
  simp [strchr, List.idxOf?_cons]

/-- A text that has a `=`, at its first one. -/
theorem split_equals (h : equals ∈ str) :
    str = str.takeWhile (· ≠ equals) ++ equals :: (str.dropWhile (· ≠ equals)).tail ∧
      equals ∉ str.takeWhile (· ≠ equals) := by
  refine ⟨?_, fun hmem => by simpa using List.mem_takeWhile_imp hmem⟩
  have hne : str.dropWhile (· ≠ equals) ≠ [] := by
    intro hnil
    rw [List.dropWhile_eq_nil_iff] at hnil
    simpa using hnil _ h
  have hhead : (str.dropWhile (· ≠ equals)).head hne = equals := by
    simpa using List.head_dropWhile_not (· ≠ equals) hne
  conv_lhs => rw [← List.takeWhile_append_dropWhile (p := (· ≠ equals)) (l := str),
    ← List.cons_head_tail hne, hhead]

/-- The spaces in front of a token are skipped. -/
theorem drop_spaces (n : Nat) (hne : str ≠ []) (hfree : space ∉ str) (rest : CString) :
    (List.replicate n space ++ str ++ rest).dropWhile (· = space) = str ++ rest := by
  cases str with
  | nil => exact absurd rfl hne
  | cons c str =>
      have hc : c ≠ space := fun h => hfree (h ▸ List.mem_cons_self)
      rw [List.append_assoc, List.dropWhile_append_of_pos (by simp), List.cons_append,
        List.dropWhile_cons_of_neg (by simpa using hc)]

end Strings

section Parse

/-- Both copies do the same. -/
theorem parse_loop_eq (ret : Tree) (x : CString) :
    Init.parseLoop ret x = Kmain.parseLoop ret x := by
  induction hlen : x.length using Nat.strong_induction_on generalizing ret x with
  | _ n ih =>
      rw [Init.parseLoop, Kmain.parseLoop]
      split
      · rfl
      · next hx =>
          have hpos := List.length_pos_of_ne_nil hx
          have hdrop := (List.dropWhile_suffix (l := x) (· = space)).length_le
          dsimp only
          cases strchr (x.dropWhile (· = space)) space with
          | none => rfl
          | some sep =>
              refine ih _ ?_ _ _ rfl
              rw [List.length_drop]
              omega

/-- The turn of the loop for the last token. -/
theorem parse_last (ret : Tree) (n : Nat) (tok : Token) :
    Kmain.parseLoop ret (List.replicate n space ++ tok.text) =
      btreeAdd ret tok.binding.1 tok.binding.2 := by
  have hskip := drop_spaces n tok.nonempty tok.spaceFree []
  rw [List.append_nil, List.append_nil] at hskip
  rw [Kmain.parseLoop, if_neg (by simp [tok.nonempty]), hskip]
  dsimp only
  rw [strchr_none tok.spaceFree, Token.binding]
  by_cases heq : equals ∈ tok.text
  · obtain ⟨hsplit, hfree⟩ := split_equals heq
    rw [if_pos heq]
    generalize tok.text.takeWhile (· ≠ equals) = key at hsplit hfree
    generalize (tok.text.dropWhile (· ≠ equals)).tail = val at hsplit
    rw [hsplit, strchr_append hfree, strchr_self]
    simp [strndup, strdup]
  · rw [strchr_none heq, if_neg heq]
    rfl

/-- The turn of the loop for a token with a space behind it. -/
theorem parse_more (ret : Tree) (n : Nat) (tok : Token) (rest : CString) :
    Kmain.parseLoop ret (List.replicate n space ++ tok.text ++ space :: rest) =
      Kmain.parseLoop (btreeAdd ret tok.binding.1 tok.binding.2) rest := by
  have hrest : (tok.text ++ space :: rest).drop (tok.text.length + 1) = rest := by simp
  rw [Kmain.parseLoop, if_neg (by simp), drop_spaces n tok.nonempty tok.spaceFree]
  dsimp only
  rw [strchr_append tok.spaceFree, strchr_self, Option.map_some]
  dsimp only
  rw [Nat.add_zero, hrest, Token.binding]
  congr 1
  by_cases heq : equals ∈ tok.text
  · obtain ⟨hsplit, hfree⟩ := split_equals heq
    rw [if_pos heq]
    generalize tok.text.takeWhile (· ≠ equals) = key at hsplit hfree
    generalize (tok.text.dropWhile (· ≠ equals)).tail = val at hsplit
    rw [hsplit, List.append_assoc, strchr_append hfree, List.cons_append, strchr_self]
    simp [strndup]
  · -- the nearest `=`, if any, belongs to a token behind the space
    have hfar : strchr (tok.text ++ space :: rest) equals =
        (strchr rest equals).map fun n => tok.text.length + (1 + n) := by
      rw [strchr_append heq, ← List.singleton_append, strchr_append (by decide), Option.map_map]
      rfl
    rw [hfar, if_neg heq]
    cases strchr rest equals with
    | none => simp [strndup]
    | some eq =>
        dsimp only [Option.map_some]
        rw [if_pos (by omega)]
        simp [strndup]

variable {ret : Tree} {bindings : Multiset (CString × CString)}

/-- One more binding. -/
theorem refines_add (h : Refines ret bindings) (key val : CString) :
    Refines (btreeAdd ret key val) ((key, val) ::ₘ bindings) :=
  (refines_call h (.add true key val)).1

/-- The loop adds the bindings of a token and of those behind it. -/
theorem refines_parse_loop (h : Refines ret bindings) (n : Nat) (tok : Token)
    (toks : List Token) :
    Refines (Kmain.parseLoop ret (List.replicate n space ++ tok.text ++ Token.render toks))
      (bindings + (tok :: toks).map Token.binding) := by
  induction toks generalizing ret bindings n tok with
  | nil =>
      rw [Token.render, List.flatMap_nil, List.append_nil, parse_last]
      have hadd := refines_add h tok.binding.1 tok.binding.2
      rwa [← Multiset.singleton_add, Multiset.add_comm] at hadd
  | cons next toks ih =>
      rw [Token.render, List.flatMap_cons, List.cons_append, parse_more]
      have hmore := ih (refines_add h tok.binding.1 tok.binding.2) next.spaces next
      rw [Multiset.cons_add, ← Multiset.add_cons] at hmore
      exact hmore

/-- A command line has the bindings of its tokens, whichever copy parses it. -/
theorem parse_cmdline_correct (line : CommandLine) :
    Init.parseCmdline line.text = Kmain.parseCmdline line.text ∧
      (Kmain.parseCmdline line.text).toList.Perm (line.tokens.map Token.binding) := by
  have hsame : Init.parseCmdline line.text = Kmain.parseCmdline line.text := by
    unfold Init.parseCmdline Kmain.parseCmdline
    cases strchr line.text space with
    | none => rfl
    | some sep => exact parse_loop_eq _ _
  refine ⟨hsame, ?_⟩
  have hempty : Refines (Btree.create : Tree) 0 := ⟨List.Pairwise.nil, rfl, rfl⟩
  obtain ⟨word, hword, toks⟩ := line
  rw [CommandLine.text, Kmain.parseCmdline]
  cases toks with
  | nil =>
      rw [Token.render, List.flatMap_nil, List.append_nil, strchr_none hword]
      exact List.Perm.nil
  | cons tok toks =>
      rw [Token.render, List.flatMap_cons, List.cons_append, strchr_append hword, strchr_self,
        Option.map_some]
      dsimp only
      rw [Nat.add_zero, List.drop_left]
      have hparse := refines_parse_loop hempty (tok.spaces + 1) tok toks
      rw [Multiset.zero_add, List.replicate_succ] at hparse
      exact Multiset.coe_eq_coe.mp hparse.contents

end Parse

end Kogata.Common.Cmdline
