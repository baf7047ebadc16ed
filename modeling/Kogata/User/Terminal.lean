import Kogata.User.Draw

/-!
# The terminal

The screen of `sysbin/terminal/main.c`: `w` times `h` characters in `scr_chars`, a cursor, and an
escape sequence that is being read. Every access to `scr_chars` is noted, with its index as the
code computes it. A byte that does not fit into `esc_seq` any more is stored outside of it, and
what the terminal does from then on is left open.
-/

namespace Kogata.User

open Lib.Stores

/-- The framebuffer that a client draws on. -/
structure Surface where
  geom : FbInfo
  board : Board

/-- `term_t`, as far as the screen goes. `escSeq` is the part of `esc_seq` that is in use. -/
structure Term where
  mode : FbInfo
  fb : Option Surface
  font : Font
  cw : Int
  ch : Int
  colors : Int → Color
  fg : Color
  bg : Color
  csrBg : Color
  escSeq : List UInt8
  w : Int
  h : Int
  scrChars : Int → UInt8
  csrl : Int
  csrc : Int
  csrVisible : Bool
  accesses : List Int

namespace Term

/-- An access to `scr_chars`. -/
def access (t : Term) (i : Int) : Term := { t with accesses := t.accesses ++ [i] }

/-- A store in `scr_chars`. -/
def store (t : Term) (i : Int) (v : UInt8) : Term :=
  { t.access i with scrChars := Function.update t.scrChars i v }

/-- A drawing function is called if there is a framebuffer. -/
def draw (t : Term) (f : FbInfo → Board → Board) : Term :=
  { t with fb := t.fb.map fun s => { s with board := f s.geom s.board } }

end Term

/-- `term_draw_c`. -/
def termDrawC (t : Term) (l c : Int) : Term :=
  let bg := if l = t.csrl ∧ c = t.csrc then t.csrBg else t.bg
  let ss := [t.scrChars (l * t.w + c)].takeWhile (· ≠ 0)
  (t.access (l * t.w + c)).draw fun fb s =>
    gWrite fb (c * t.cw) (l * t.ch) ss t.font 16 t.fg
      (gFillrect fb (c * t.cw) (l * t.ch) t.cw t.ch bg s)

/-- `term_move_cursor`. -/
def termMoveCursor (t : Term) (l c : Int) : Term :=
  termDrawC (termDrawC { t with csrl := l, csrc := c } t.csrl t.csrc) l c

/-- `term_put_at`. -/
def termPutAt (t : Term) (l c : Int) (ch : UInt8) : Term :=
  let i := l * t.w + c
  if t.scrChars i = ch then t.access i else termDrawC ((t.access i).store i ch) l c

/-- The body of the loop of `term_clear_screen`. -/
def blankCell (t : Term) (i : Nat) : Term := t.store i 32

/-- `term_clear_screen`. -/
def termClearScreen (t : Term) : Term :=
  let t := { t with csrVisible := true }
  let t := (List.range (t.w * t.h).toNat).foldl blankCell t
  let t := t.draw fun fb s => gFillrect fb 0 0 t.mode.width t.mode.height t.bg s
  termMoveCursor t 0 0

/-- The body of the first loop of `term_scroll1`. -/
def copyCellUp (t : Term) (i : Nat) : Term :=
  (t.access (i + t.w)).store i (t.scrChars (i + t.w))

/-- The body of the second loop of `term_scroll1`. -/
def blankLastCell (t : Term) (i : Nat) : Term := t.store (i + (t.h - 1) * t.w) 32

/-- `term_scroll1`. -/
def termScroll1 (t : Term) : Term :=
  let t := (List.range (t.w * (t.h - 1)).toNat).foldl copyCellUp t
  let t := (List.range t.w.toNat).foldl blankLastCell t
  let t := { t with csrl := t.csrl - 1 }
  t.draw fun fb s =>
    gFillrect fb 0 (t.ch * (t.h - 1)) (t.cw * t.w) t.ch t.bg (gScrollUp fb t.ch s)

/-- The digits at the start of a part of an escape sequence: the number that they add up to when
each counts as its distance from `zero`, and what is left. -/
def escNumber (zero : Int) : Int → List UInt8 → Int × List UInt8
  | n, [] => (n, [])
  | n, d :: ds =>
      if 48 ≤ d ∧ d ≤ 57 then escNumber zero (n * 10 + (d.toNat - zero)) ds else (n, d :: ds)

/-- The end of an escape sequence that starts with the number `n`. All that has an effect is to
select a colour. -/
def escFinal (t : Term) (n : Int) (c : UInt8) : Term :=
  if c = 109 then
    if n = 0 then { t with fg := t.colors 7, bg := t.colors 0 }
    else if 30 ≤ n ∧ n ≤ 37 then { t with fg := t.colors (n - 30) }
    else if n = 39 then { t with fg := t.colors 7 }
    else if 40 ≤ n ∧ n ≤ 47 then { t with bg := t.colors (n - 40) }
    else if n = 49 then { t with bg := t.colors 0 }
    else t
  else t

/-- What is done with the escape sequence read so far: it goes on, or it is finished. The second
number is read, with `'0'` counted as it is, and not used. -/
def parseEscape (t : Term) : Term :=
  match t.escSeq with
  | _ :: 91 :: rest =>
      match escNumber 48 0 rest with
      | (_, []) => t
      | (n, 59 :: rest) =>
          match escNumber 0 0 rest with
          | (_, []) => t
          | (_, c :: _) => { escFinal t n c with escSeq := [] }
      | (n, c :: _) => { escFinal t n c with escSeq := [] }
  | _ :: _ :: _ => { t with escSeq := [] }
  | _ => t

/-- The loop of `'\r'`: the columns before `nc` are blanked from the right. -/
def blankBefore (t : Term) (nl : Int) : Nat → Term
  | 0 => t
  | nc + 1 => blankBefore (termPutAt t nl nc 32) nl nc

/-- The loop of `'\t'`. The next multiple of `8` is at most seven columns away. -/
def blankTab (nl : Int) : Nat → Term → Int → Term × Int
  | 0, t, nc => (t, nc)
  | fuel + 1, t, nc =>
      if nc % 8 ≠ 0 then blankTab nl fuel (termPutAt t nl nc 32) (nc + 1) else (t, nc)

/-- The end of `term_putc`: the cursor goes to `(nl, nc)`, in the next line when that is behind the
last column, and the screen is scrolled when it is below the last line. -/
def termAdvance (t : Term) (nl nc : Int) : Term :=
  let (nl, nc) := if nc ≥ t.w then (nl + 1, 0) else (nl, nc)
  if nl ≥ t.h then termMoveCursor (termScroll1 t) (nl - 1) nc else termMoveCursor t nl nc

/-- `term_putc` of a byte that is not part of an escape sequence. -/
def termPutPlain (t : Term) (c : UInt8) : Term :=
  let nl := t.csrl
  let nc := t.csrc
  if c = 10 then termAdvance t (nl + 1) 0
  else if c = 13 then termAdvance (blankBefore t nl nc.toNat) nl 0
  else if c = 12 then termClearScreen t
  else if c = 8 then
    let nc := if nc > 0 then nc - 1 else nc
    termAdvance (termPutAt t nl nc 32) nl nc
  else if c = 9 then
    let (t, nc) := blankTab nl 8 t nc
    termAdvance t nl nc
  else if 32 ≤ c ∧ c < 128 then termAdvance (termPutAt t nl nc c) nl (nc + 1)
  else termAdvance t nl nc

/-- `term_putc`. -/
def termPutc (t : Term) (c : UInt8) : Option Term :=
  if t.escSeq ≠ [] ∨ c = 27 then
    if t.escSeq.length < 10 then some (parseEscape { t with escSeq := t.escSeq ++ [c] }) else none
  else some (termPutPlain t c)

end Kogata.User
