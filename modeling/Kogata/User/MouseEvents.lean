import Mathlib.Algebra.BigOperators.Group.List.Basic
import Mathlib.Data.List.Infix
import Mathlib.Tactic.Common
import Mathlib.Algebra.Ring.Int.Defs

/-!
# Mouse events

`pcmouse_handler` and `gui.on_mouse` of `syslua/lx/gui.lua`. The handler reads ahead as long as the
mouse device has events. The loop unpacks the first event again and not the bytes that it has just
read, so that the first event is reported once for every event read (`pcmouse_handler_eq`).

The numbers of Lua are integers without a bound here: the device holds at most `PCMOUSE_BUF_LEN`
events, whose displacements are numbers of 16 bits. What the cursor looks like on the screen is left
out.
-/

namespace Kogata.User

/-- `mouse_event_t`, the bytes of an event. -/
structure MouseEvent where
  deltaX : Int16
  deltaY : Int16
  deltaWheel : Int8
  lbtn : UInt8
  rbtn : UInt8
  midbtn : UInt8
  deriving DecidableEq

/-- The arguments of `gui.on_mouse`. -/
structure MouseReport where
  dx : Int
  dy : Int
  dw : Int
  lb : Int
  rb : Int
  mb : Int
  deriving DecidableEq

/-- `string.unpack("hhbBBB", ev)`. -/
def MouseEvent.unpack (ev : MouseEvent) : MouseReport where
  dx := ev.deltaX.toInt
  dy := ev.deltaY.toInt
  dw := ev.deltaWheel.toInt
  lb := ev.lbtn.toNat
  rb := ev.rbtn.toNat
  mb := ev.midbtn.toNat

/-- The loop of `pcmouse_handler` on the events that are available, which stops where `sys.read`
finds none; with what is left of them. -/
def readAhead (ev : MouseEvent) (total : MouseReport) :
    List MouseEvent → MouseReport × List MouseEvent
  | [] => (total, [])
  | _ :: rest =>
      -- `bytes` has been read, and `ev` is unpacked.
      let new := ev.unpack
      let changeBut := new.lb ≠ total.lb ∨ new.rb ≠ total.rb ∨ new.mb ≠ total.mb
      let total := { total with
        dx := total.dx + new.dx, dy := total.dy + new.dy, lb := new.lb, rb := new.rb, mb := new.mb }
      if changeBut then (total, rest) else readAhead ev total rest

/-- `pcmouse_handler`: what it reports to `gui.on_mouse`, and the events that it leaves. -/
def pcmouseHandler (ev : MouseEvent) (available : List MouseEvent) :
    MouseReport × List MouseEvent :=
  readAhead ev ev.unpack available

/-- The fields of `gui` that have to do with the mouse, and the size of the surface. `cursor` says
whether a cursor has been loaded. -/
structure Gui where
  mouseX : Int
  mouseY : Int
  mouseLbtn : Bool
  mouseRbtn : Bool
  cursorVisible : Bool
  cursor : Bool
  width : Int
  height : Int
  deriving DecidableEq

/-- A call of one of the functions that can be replaced. -/
inductive GuiCall where
  | mouseMove (prevX prevY x y : Int)
  | mouseDown (lb rb mb : Bool)
  | mouseUp (lb rb mb : Bool)
  deriving DecidableEq

/-- `gui.hide_cursor`. -/
def Gui.hideCursor (g : Gui) : Gui := { g with cursorVisible := false }

/-- `gui.show_cursor`. -/
def Gui.showCursor (g : Gui) : Gui := { g with cursorVisible := g.cursorVisible || g.cursor }

/-- The two comparisons of a coordinate with the edges of the surface. -/
def keepOnSurface (v size : Int) : Int :=
  let v := if v < 0 then 0 else v
  if v ≥ size then size - 1 else v

/-- The first part of `gui.on_mouse`. -/
def Gui.move (g : Gui) (dx dy : Int) : Gui × List GuiCall :=
  if dx ≠ 0 ∨ dy ≠ 0 then
    let csr := g.cursorVisible
    let hidden := if csr then g.hideCursor else g
    let moved := { hidden with
      mouseX := keepOnSurface (g.mouseX + dx) g.width
      mouseY := keepOnSurface (g.mouseY - dy) g.height }
    (if csr then moved.showCursor else moved,
      [.mouseMove g.mouseX g.mouseY moved.mouseX moved.mouseY])
  else (g, [])

/-- What `gui.on_mouse` does with one of the buttons. -/
def press (held : Bool) (b : Int) (down up : GuiCall) : Bool × List GuiCall :=
  if b = 1 ∧ ¬held then (true, [down])
  else if b = 0 ∧ held then (false, [up])
  else (held, [])

/-- The button on the left. -/
def pressLeft (held : Bool) (lb : Int) : Bool × List GuiCall :=
  press held lb (.mouseDown true false false) (.mouseUp true false false)

/-- The button on the right. -/
def pressRight (held : Bool) (rb : Int) : Bool × List GuiCall :=
  press held rb (.mouseDown false true false) (.mouseUp false true false)

/-- `gui.on_mouse`. -/
def Gui.onMouse (g : Gui) (r : MouseReport) : Gui × List GuiCall :=
  ({ (g.move r.dx r.dy).1 with
      mouseLbtn := (pressLeft g.mouseLbtn r.lb).1
      mouseRbtn := (pressRight g.mouseRbtn r.rb).1 },
    (g.move r.dx r.dy).2 ++ (pressLeft g.mouseLbtn r.lb).2 ++ (pressRight g.mouseRbtn r.rb).2)

/-- The events handled one by one. -/
def Gui.handleAll (g : Gui) : List MouseEvent → Gui × List GuiCall
  | [] => (g, [])
  | ev :: rest =>
      (((g.onMouse ev.unpack).1.handleAll rest).1,
        (g.onMouse ev.unpack).2 ++ ((g.onMouse ev.unpack).1.handleAll rest).2)

/-- The button transitions among the calls. -/
def transitions (calls : List GuiCall) : List GuiCall :=
  calls.filter fun
    | .mouseMove .. => false
    | _ => true

/-- The sums of the displacements. -/
def sumX (events : List MouseEvent) : Int := (events.map fun e => e.deltaX.toInt).sum

def sumY (events : List MouseEvent) : Int := (events.map fun e => e.deltaY.toInt).sum

/-- The two events have the same button states. -/
structure MouseEvent.SameButtons (e ev : MouseEvent) : Prop where
  left : e.lbtn = ev.lbtn
  right : e.rbtn = ev.rbtn
  mid : e.midbtn = ev.midbtn

/-- One by one the events move the mouse to points of the surface only. -/
def Gui.AwayFromEdges (g : Gui) (events : List MouseEvent) : Prop :=
  ∀ front, front <+: events →
    (0 ≤ g.mouseX + sumX front ∧ g.mouseX + sumX front < g.width) ∧
      0 ≤ g.mouseY - sumY front ∧ g.mouseY - sumY front < g.height

/-- What the gui sees of a report is what it sees of the events one by one. -/
structure Gui.SeesAll (g : Gui) (r : MouseReport) (events : List MouseEvent) : Prop where
  transitions : transitions (g.onMouse r).2 = transitions (g.handleAll events).2
  lbtn : (g.onMouse r).1.mouseLbtn = (g.handleAll events).1.mouseLbtn
  rbtn : (g.onMouse r).1.mouseRbtn = (g.handleAll events).1.mouseRbtn
  x : (g.onMouse r).1.mouseX = (g.handleAll events).1.mouseX
  y : (g.onMouse r).1.mouseY = (g.handleAll events).1.mouseY

/-- The result of a run that consumes the events `more` behind `ev` and loses nothing of them. -/
structure Coalesced (ev : MouseEvent) (available more : List MouseEvent)
    (result : MouseReport × List MouseEvent) : Prop where
  consumed : available = more ++ result.2
  dx : result.1.dx = sumX (ev :: more)
  dy : result.1.dy = sumY (ev :: more)
  lb : result.1.lb = ((ev :: more).getLast (List.cons_ne_nil ev more)).lbtn.toNat
  rb : result.1.rb = ((ev :: more).getLast (List.cons_ne_nil ev more)).rbtn.toNat
  mb : result.1.mb = ((ev :: more).getLast (List.cons_ne_nil ev more)).midbtn.toNat
  others : ∀ e ∈ (ev :: more).dropLast, e.SameButtons ev
  sees : ∀ g : Gui, g.AwayFromEdges (ev :: more) → g.SeesAll result.1 (ev :: more)

section Handler

variable {ev e : MouseEvent} {available events : List MouseEvent} {total r : MouseReport} {g : Gui}
  {held : Bool} {b : Int} {down up : GuiCall}

@[simp] theorem sum_x_cons : sumX (e :: events) = e.deltaX.toInt + sumX events :=
  List.sum_cons

@[simp] theorem sum_y_cons : sumY (e :: events) = e.deltaY.toInt + sumY events :=
  List.sum_cons

/-- The loop ends with the events, and adds the first event for each of them. -/
theorem read_ahead_eq (hl : total.lb = ev.unpack.lb) (hr : total.rb = ev.unpack.rb)
    (hm : total.mb = ev.unpack.mb) :
    readAhead ev total available = ({ total with
      dx := total.dx + available.length * ev.deltaX.toInt
      dy := total.dy + available.length * ev.deltaY.toInt }, []) := by
  induction available generalizing total with
  | nil => simp [readAhead]
  | cons e rest ih =>
      have hsame : ¬ (ev.unpack.lb ≠ total.lb ∨ ev.unpack.rb ≠ total.rb ∨
          ev.unpack.mb ≠ total.mb) := by
        simp [hl, hr, hm]
      rw [readAhead, if_neg hsame]
      refine (ih ?_ ?_ ?_).trans ?_
      · rfl
      · rfl
      · rfl
      rw [← hl, ← hr, ← hm]
      simp only [MouseEvent.unpack, List.length_cons, Prod.mk.injEq, MouseReport.mk.injEq,
        and_true]
      push_cast
      rw [Int.add_mul, Int.add_mul, Int.one_mul, Int.one_mul]
      omega

/-- `pcmouse_handler` reads all that there is. -/
theorem pcmouse_handler_eq : pcmouseHandler ev available = ({ ev.unpack with
    dx := ev.deltaX.toInt + available.length * ev.deltaX.toInt
    dy := ev.deltaY.toInt + available.length * ev.deltaY.toInt }, []) :=
  read_ahead_eq rfl rfl rfl

/-- A button that is reported once more as it is makes no transition. -/
theorem press_again :
    press (press held b down up).1 b down up = ((press held b down up).1, []) := by
  unfold press
  cases held <;> by_cases hone : b = 1 <;> by_cases hzero : b = 0 <;> simp [hone, hzero]

theorem transitions_append (front back : List GuiCall) :
    transitions (front ++ back) = transitions front ++ transitions back :=
  List.filter_append ..

theorem transitions_move (dx dy : Int) : transitions (g.move dx dy).2 = [] := by
  unfold Gui.move
  split <;> rfl

theorem transitions_left : transitions (pressLeft held b).2 = (pressLeft held b).2 := by
  unfold pressLeft press
  split
  · rfl
  · split <;> rfl

theorem transitions_right : transitions (pressRight held b).2 = (pressRight held b).2 := by
  unfold pressRight press
  split
  · rfl
  · split <;> rfl

/-- The transitions of a report are those of its two buttons. -/
theorem transitions_on_mouse : transitions (g.onMouse r).2 =
    (pressLeft g.mouseLbtn r.lb).2 ++ (pressRight g.mouseRbtn r.rb).2 := by
  rw [Gui.onMouse, transitions_append, transitions_append, transitions_move, transitions_left,
    transitions_right, List.nil_append]

/-- Events with the button states that the gui has seen last make no transition. -/
theorem handle_all_same (hl : pressLeft g.mouseLbtn ev.lbtn.toNat = (g.mouseLbtn, []))
    (hr : pressRight g.mouseRbtn ev.rbtn.toNat = (g.mouseRbtn, []))
    (hsame : ∀ e ∈ events, e.SameButtons ev) :
    transitions (g.handleAll events).2 = [] ∧ (g.handleAll events).1.mouseLbtn = g.mouseLbtn ∧
      (g.handleAll events).1.mouseRbtn = g.mouseRbtn := by
  induction events generalizing g with
  | nil => exact ⟨rfl, rfl, rfl⟩
  | cons e rest ih =>
      obtain ⟨⟨hleft, hright, -⟩, hrest⟩ := List.forall_mem_cons.mp hsame
      have hl' : pressLeft g.mouseLbtn e.unpack.lb = (g.mouseLbtn, []) := by
        rw [← hl, ← hleft]
        rfl
      have hr' : pressRight g.mouseRbtn e.unpack.rb = (g.mouseRbtn, []) := by
        rw [← hr, ← hright]
        rfl
      have hlbtn : (g.onMouse e.unpack).1.mouseLbtn = g.mouseLbtn := congrArg Prod.fst hl'
      have hrbtn : (g.onMouse e.unpack).1.mouseRbtn = g.mouseRbtn := congrArg Prod.fst hr'
      obtain ⟨hnone, hlast, hlast'⟩ := ih (g := (g.onMouse e.unpack).1) (by rw [hlbtn, hl])
        (by rw [hrbtn, hr]) hrest
      refine ⟨?_, hlast.trans hlbtn, hlast'.trans hrbtn⟩
      rw [Gui.handleAll, transitions_append, hnone, transitions_on_mouse, hl', hr']
      rfl

theorem keep_on_surface_of_inside {v size : Int} (hlow : 0 ≤ v) (hhigh : v < size) :
    keepOnSurface v size = v := by
  unfold keepOnSurface
  dsimp only
  rw [if_neg (Int.not_lt.mpr hlow), if_neg (Int.not_le.mpr hhigh)]

/-- Where the mouse is after a report that leads to a point of the surface. -/
theorem on_mouse_position (hx : 0 ≤ g.mouseX + r.dx ∧ g.mouseX + r.dx < g.width)
    (hy : 0 ≤ g.mouseY - r.dy ∧ g.mouseY - r.dy < g.height) :
    (g.onMouse r).1.mouseX = g.mouseX + r.dx ∧ (g.onMouse r).1.mouseY = g.mouseY - r.dy ∧
      (g.onMouse r).1.width = g.width ∧ (g.onMouse r).1.height = g.height := by
  have hkeepx := keep_on_surface_of_inside hx.1 hx.2
  have hkeepy := keep_on_surface_of_inside hy.1 hy.2
  unfold Gui.onMouse Gui.move Gui.showCursor Gui.hideCursor
  dsimp only
  by_cases hmoves : r.dx ≠ 0 ∨ r.dy ≠ 0
  · rw [if_pos hmoves, hkeepx, hkeepy]
    cases g.cursorVisible <;> exact ⟨rfl, rfl, rfl, rfl⟩
  · rw [if_neg hmoves]
    dsimp only
    omega

/-- The events one by one add up. -/
theorem handle_all_position (haway : g.AwayFromEdges events) :
    (g.handleAll events).1.mouseX = g.mouseX + sumX events ∧
      (g.handleAll events).1.mouseY = g.mouseY - sumY events := by
  induction events generalizing g with
  | nil => exact ⟨(Int.add_zero _).symm, (Int.sub_zero _).symm⟩
  | cons e rest ih =>
      have hfirst := haway [e] (List.prefix_append [e] rest)
      simp only [sumX, sumY, List.map_cons, List.map_nil, List.sum_cons, List.sum_nil,
        Int.add_zero] at hfirst
      obtain ⟨hx, hy, hwidth, hheight⟩ := on_mouse_position (r := e.unpack) hfirst.1 hfirst.2
      have hrest : (g.onMouse e.unpack).1.AwayFromEdges rest := by
        intro front hfront
        have hnext := haway (e :: front) ((List.prefix_cons_inj e).mpr hfront)
        rw [hx, hy, hwidth, hheight]
        simp only [sum_x_cons, sum_y_cons, MouseEvent.unpack] at hnext ⊢
        omega
      obtain ⟨hsumx, hsumy⟩ := ih hrest
      rw [Gui.handleAll, sum_x_cons, sum_y_cons]
      refine ⟨hsumx.trans ?_, hsumy.trans ?_⟩
      · rw [hx]
        exact Int.add_assoc ..
      · rw [hy]
        exact Int.sub_sub ..

/-- One report of the sums, with buttons that do not change. -/
theorem sees_all (hdx : r.dx = sumX (ev :: events)) (hdy : r.dy = sumY (ev :: events))
    (hlb : r.lb = ev.lbtn.toNat) (hrb : r.rb = ev.rbtn.toNat)
    (hsame : ∀ e ∈ events, e.SameButtons ev) (haway : g.AwayFromEdges (ev :: events)) :
    g.SeesAll r (ev :: events) := by
  have hwhole := haway (ev :: events) (List.prefix_refl _)
  rw [← hdx, ← hdy] at hwhole
  obtain ⟨hx, hy, -, -⟩ := on_mouse_position hwhole.1 hwhole.2
  obtain ⟨hx', hy'⟩ := handle_all_position haway
  have hlbtn : pressLeft (g.onMouse ev.unpack).1.mouseLbtn ev.lbtn.toNat =
      ((g.onMouse ev.unpack).1.mouseLbtn, []) := press_again
  have hrbtn : pressRight (g.onMouse ev.unpack).1.mouseRbtn ev.rbtn.toNat =
      ((g.onMouse ev.unpack).1.mouseRbtn, []) := press_again
  obtain ⟨hnone, hlast, hlast'⟩ := handle_all_same hlbtn hrbtn hsame
  constructor
  · rw [Gui.handleAll, transitions_append, hnone, List.append_nil, transitions_on_mouse,
      transitions_on_mouse, hlb, hrb]
    rfl
  · rw [Gui.handleAll, hlast]
    show (pressLeft g.mouseLbtn r.lb).1 = (pressLeft g.mouseLbtn ev.unpack.lb).1
    rw [hlb]
    rfl
  · rw [Gui.handleAll, hlast']
    show (pressRight g.mouseRbtn r.rb).1 = (pressRight g.mouseRbtn ev.unpack.rb).1
    rw [hrb]
    rfl
  · rw [hx, hx', hdx]
  · rw [hy, hy', hdy]

/-- `pcmouse_handler` loses nothing if and only if no event behind the first has other buttons, and
their displacements add up to as many times the first. -/
theorem pcmouse_handler_coalesces_iff (ev : MouseEvent) (available : List MouseEvent) :
    (∃ more, Coalesced ev available more (pcmouseHandler ev available)) ↔
      (∀ e ∈ available, e.SameButtons ev) ∧
        sumX available = available.length * ev.deltaX.toInt ∧
        sumY available = available.length * ev.deltaY.toInt := by
  rw [pcmouse_handler_eq]
  constructor
  · rintro ⟨more, hcoalesced⟩
    obtain rfl : available = more := hcoalesced.consumed.trans (List.append_nil more)
    have hdx := hcoalesced.dx
    have hdy := hcoalesced.dy
    rw [sum_x_cons] at hdx
    rw [sum_y_cons] at hdy
    dsimp only at hdx hdy
    refine ⟨fun e he => ?_, by omega, by omega⟩
    have hlast : ((ev :: available).getLast (List.cons_ne_nil ev available)).SameButtons ev :=
      ⟨UInt8.toNat_inj.mp (Int.ofNat.inj hcoalesced.lb).symm,
        UInt8.toNat_inj.mp (Int.ofNat.inj hcoalesced.rb).symm,
        UInt8.toNat_inj.mp (Int.ofNat.inj hcoalesced.mb).symm⟩
    have hmem : e ∈ (ev :: available).dropLast ++
        [(ev :: available).getLast (List.cons_ne_nil ev available)] := by
      rw [List.dropLast_append_getLast]
      exact List.mem_cons_of_mem ev he
    rcases List.mem_append.mp hmem with hfront | hend
    · exact hcoalesced.others e hfront
    · exact List.mem_singleton.mp hend ▸ hlast
  · rintro ⟨hsame, hx, hy⟩
    have hall : ∀ e ∈ ev :: available, e.SameButtons ev :=
      List.forall_mem_cons.mpr ⟨⟨rfl, rfl, rfl⟩, hsame⟩
    have hlast := hall _ (List.getLast_mem (List.cons_ne_nil ev available))
    have hdx : ev.deltaX.toInt + available.length * ev.deltaX.toInt = sumX (ev :: available) := by
      rw [sum_x_cons, hx]
    have hdy : ev.deltaY.toInt + available.length * ev.deltaY.toInt = sumY (ev :: available) := by
      rw [sum_y_cons, hy]
    exact ⟨available,
      { consumed := (List.append_nil available).symm
        dx := hdx
        dy := hdy
        lb := by rw [hlast.left]; rfl
        rb := by rw [hlast.right]; rfl
        mb := by rw [hlast.mid]; rfl
        others := fun e he => hall e (List.mem_of_mem_dropLast he)
        sees := fun g haway => sees_all hdx hdy rfl rfl hsame haway }⟩

end Handler

/-- A step to the right by one point, and then one by five: the first one is reported twice. -/
theorem second_event_not_unpacked : ¬ ∀ (ev : MouseEvent) (available : List MouseEvent),
    ∃ more, Coalesced ev available more (pcmouseHandler ev available) := by
  intro hclaim
  obtain ⟨more, hcoalesced⟩ := hclaim ⟨1, 0, 0, 0, 0, 0⟩ [⟨5, 0, 0, 0, 0, 0⟩]
  have hmore : [⟨5, 0, 0, 0, 0, 0⟩] = more := hcoalesced.consumed.trans (List.append_nil more)
  have hdx := hcoalesced.dx
  rw [← hmore] at hdx
  exact absurd hdx (by decide)

end Kogata.User
