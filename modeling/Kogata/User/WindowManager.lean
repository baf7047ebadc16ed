import Kogata.Lib.Tiling
import Kogata.User.Draw
import Mathlib.Data.List.Sort

/-!
# The window manager

The painting and the hit testing of the window manager of `syslua/lx/tk.lua`. What a window does
with a surface that it is given is its own, and leaves the variables of the manager alone: a
redraw is the list of the calls it makes. Points are pairs of integers without a bound, as the
coordinates of `Kogata.User.Draw` are.
-/

namespace Kogata.User

open Lib.Tiling

/-- A table of `x`, `y`, `w` and `h`. -/
structure Region where
  x : Int
  y : Int
  w : Int
  h : Int
  deriving DecidableEq

namespace Region

/-- The test that `region_diff` and its like make of a corner. -/
def has (reg : Region) (p : Int × Int) : Bool :=
  p.1 ≥ reg.x && p.1 < reg.x + reg.w && p.2 ≥ reg.y && p.2 < reg.y + reg.h

end Region

/-- The two cases in which `add_region` joins a new piece to an old one. -/
def merge (r new : Region) : Option Region :=
  if r.y = new.y ∧ r.h = new.h ∧ r.x + r.w = new.x then some ⟨r.x, r.y, r.w + new.w, r.h⟩
  else if r.x = new.x ∧ r.w = new.w ∧ r.y + r.h = new.y then some ⟨r.x, r.y, r.w, r.h + new.h⟩
  else none

/-- The first piece that the new one joins is taken out. -/
def takeMerge (new : Region) : List Region → Option (Region × List Region)
  | [] => none
  | r :: rest =>
      match merge r new with
      | some joined => some (joined, rest)
      | none => (takeMerge new rest).map fun found => (found.1, r :: found.2)

/-- `add_region`. A call inside `add_region` has one piece less, hence the bound on the calls. -/
def addRegionWithin : Nat → List Region → Region → List Region
  | 0, pieces, new => pieces ++ [new]
  | calls + 1, pieces, new =>
      match takeMerge new pieces with
      | some (joined, rest) => addRegionWithin calls rest joined
      | none => pieces ++ [new]

/-- `add_region`. -/
def addRegion (pieces : List Region) (new : Region) : List Region :=
  addRegionWithin pieces.length pieces new

/-- `{a, b, c, d}` after `table.sort`. -/
def sorted (a b c d : Int) : List Int := [a, b, c, d].insertionSort (· ≤ ·)

/-- The pieces that `region_operation` adds, in the order of its two loops. -/
def selected (xs ys : List Int) (selFun : Int → Int → Int → Int → Bool) : List Region :=
  (intervals xs).flatMap fun (x0, x1) =>
    (intervals ys).flatMap fun (y0, y1) =>
      if x1 > x0 ∧ y1 > y0 ∧ selFun x0 x1 y0 y1 then [⟨x0, y0, x1 - x0, y1 - y0⟩] else []

/-- `region_operation`. -/
def regionOperation (reg1 reg2 : Region) (selFun : Int → Int → Int → Int → Bool) : List Region :=
  let xs := sorted reg1.x (reg1.x + reg1.w) reg2.x (reg2.x + reg2.w)
  let ys := sorted reg1.y (reg1.y + reg1.h) reg2.y (reg2.y + reg2.h)
  (selected xs ys selFun).foldl addRegion []

/-- `region_diff`. -/
def regionDiff (reg1 reg2 : Region) : List Region :=
  regionOperation reg1 reg2 fun x0 _ y0 _ => reg1.has (x0, y0) && !reg2.has (x0, y0)

example : regionDiff ⟨0, 0, 100, 100⟩ ⟨20, 20, 30, 30⟩ =
    [⟨0, 0, 20, 100⟩, ⟨20, 0, 80, 20⟩, ⟨50, 20, 50, 30⟩, ⟨20, 50, 80, 50⟩] := by
  decide

/-- `region_inter`. -/
def regionInter (reg1 reg2 : Region) : List Region :=
  regionOperation reg1 reg2 fun x0 _ y0 _ => reg1.has (x0, y0) && reg2.has (x0, y0)

/-- `region_union`. -/
def regionUnion (reg1 reg2 : Region) : List Region :=
  regionOperation reg1 reg2 fun x0 _ y0 _ => reg1.has (x0, y0) || reg2.has (x0, y0)

/-- A window on the stack. Two windows of the same place and size have different names. -/
structure Window where
  name : Nat
  x : Int
  y : Int
  width : Int
  height : Int
  visible : Bool
  deriving DecidableEq

/-- `win_reg`. -/
def Window.region (win : Window) : Region := ⟨win.x, win.y, win.width, win.height⟩

/-- `surface_sub`, without a surface where it raises an error. -/
def surfaceSub (s : FbRegion) (x y w h : Int) : Option FbRegion :=
  if x < 0 ∨ y < 0 ∨ w < 0 ∨ h < 0 then none
  else if x > s.w ∨ y > s.h then none
  else
    let w := if x + w > s.w then s.w - x else w
    let h := if y + h > s.h then s.h - y else h
    some ⟨s.x + x, s.y + y, w, h⟩

/-- The calls of a redraw: `win:redraw(x, y, buf)` and `buf:fillrect(x, y, w, h, rgb)`. -/
inductive Paint where
  | window (win : Window) (x y : Int) (buf : FbRegion)
  | fillrect (buf : FbRegion) (x y w h : Int) (rgb : Nat × Nat × Nat)
  deriving DecidableEq

namespace Paint

/-- The surface that the call is given. -/
def buf : Paint → FbRegion
  | window _ _ _ buf => buf
  | fillrect buf .. => buf

/-- The call paints the place of the framebuffer: it is in the surface, and for a rectangle, also
in the rectangle, whose coordinates are counted from the first pixel of the surface. -/
def covers (paint : Paint) (q : Int × Int) : Bool :=
  let inSurface := Region.has ⟨paint.buf.x, paint.buf.y, paint.buf.w, paint.buf.h⟩ q
  match paint with
  | window .. => inSurface
  | fillrect buf x y w h _ => inSurface && Region.has ⟨x, y, w, h⟩ (q.1 - buf.x, q.2 - buf.y)

/-- The window that the call is made for and the point of the window that it shows at a place of
the framebuffer. The first pixel of its surface shows the point `(x, y)` of the window. -/
def shows (paint : Paint) (q : Int × Int) : Option (Window × Int × Int) :=
  match paint with
  | window win x y buf => some (win, x + (q.1 - buf.x), y + (q.2 - buf.y))
  | fillrect .. => none

end Paint

/-- The values of the variable of `for x = first, last, step`. -/
def forStep (first last step : Int) : List Int :=
  (List.range ((last - first) / step + 1).toNat).map fun k : Nat => first + step * k

/-- The four rectangles of one step of `draw_background`. -/
def backgroundTile (x0 y0 : Int) (buf : FbRegion) (x y : Int) : List Paint :=
  [.fillrect buf (x - x0) (y - y0) 16 16 (110, 110, 140),
    .fillrect buf (x - x0 + 16) (y - y0 + 16) 16 16 (110, 110, 140),
    .fillrect buf (x - x0 + 16) (y - y0) 16 16 (110, 140, 110),
    .fillrect buf (x - x0) (y - y0 + 16) 16 16 (110, 140, 110)]

/-- `draw_background`. -/
def drawBackground (x0 y0 : Int) (buf : FbRegion) : List Paint :=
  (forStep (x0 - x0 % 32) (x0 + buf.w) 32).flatMap fun x =>
    (forStep (y0 - y0 % 32) (y0 + buf.h) 32).flatMap fun y => backgroundTile x0 y0 buf x y

/-- A part of the surface of the redraw, by its place on the screen. -/
def partOf (x0 y0 : Int) (buf : FbRegion) (reg : Region) : Option FbRegion :=
  surfaceSub buf (reg.x - x0) (reg.y - y0) reg.w reg.h

/-- The call for one piece of a window. -/
def drawWindow (x0 y0 : Int) (buf : FbRegion) (win : Window) (reg2 : Region) : Option Paint :=
  (partOf x0 y0 buf reg2).map fun sub => .window win (reg2.x - win.x) (reg2.y - win.y) sub

/-- The loop of `wm:redraw` over the windows from the top one on, with what remains after it. -/
def redrawWindows (x0 y0 : Int) (buf : FbRegion) :
    List Window → List Region → Option (List Paint × List Region)
  | [], remaining => some ([], remaining)
  | win :: below, remaining =>
      if win.visible then do
        let drawTo := remaining.flatMap fun reg => regionInter reg win.region
        let paints ← drawTo.mapM (drawWindow x0 y0 buf win)
        let remaining2 := remaining.flatMap fun reg => regionDiff reg win.region
        let (more, left) ← redrawWindows x0 y0 buf below remaining2
        some (paints ++ more, left)
      else redrawWindows x0 y0 buf below remaining

/-- `wm:redraw`, without a list of calls where one of them raises an error. The last window of the
list is the top one. -/
def redraw (windows : List Window) (x0 y0 : Int) (buf : FbRegion) : Option (List Paint) := do
  let (paints, remaining) ←
    redrawWindows x0 y0 buf windows.reverse [⟨x0, y0, buf.w, buf.h⟩]
  let background ← remaining.mapM fun reg =>
    (partOf x0 y0 buf reg).map (drawBackground reg.x reg.y)
  some (paints ++ background.flatten)

/-- The test of `wm:find_win`. -/
def Window.under (win : Window) (x y : Int) : Bool :=
  win.visible && x ≥ win.x && y ≥ win.y && x < win.x + win.width && y < win.y + win.height

/-- `wm:find_win`. -/
def findWin (windows : List Window) (x y : Int) : Option Window :=
  windows.reverse.find? (·.under x y)

end Kogata.User
