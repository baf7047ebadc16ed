import Mathlib.Tactic.Common

/-!
# Boxes that scroll

`tk.box` of `syslua/lx/tk.lua`: the content of a box is moved by clicks beside a scroll bar, by
dragging the bar and, when its corner is dragged, by the size of the box. Only a box that centres
its content moves the content when the size changes, so that a larger box can leave the content
behind (`stays_inside_iff`).

Coordinates are integers without a bound here. The position of the box in its window, the colours
and what is drawn of the content are left out.
-/

namespace Kogata.User

/-- The errors of the arithmetic of Lua. -/
inductive LuaError where
  | divisionByZero
  deriving DecidableEq

/-- The operator `//` of Lua on integers. -/
def floorDiv (a b : Int) : Except LuaError Int :=
  if b = 0 then .error .divisionByZero else .ok (a.fdiv b)

/-- The widget in a box. -/
structure Content where
  x : Int
  y : Int
  width : Int
  height : Int
  deriving DecidableEq

/-- The fields `resize_init..` of a box whose corner is dragged. -/
structure Resizing where
  initw : Int
  inith : Int
  initmx : Int
  initmy : Int
  deriving DecidableEq

/-- The fields `vscrolling_init..` or `hscrolling_init..` of a box whose bar is dragged. -/
structure Scrolling where
  init : Int
  initm : Int
  deriving DecidableEq

/-- The options of `tk.box` with their defaults. -/
structure BoxOptions where
  hresize : Bool := false
  vresize : Bool := false
  hscroll : Bool := false
  vscroll : Bool := false
  centerContent : Bool := false
  constrainSize : Bool := false
  width : Option Int := none
  height : Option Int := none
  deriving DecidableEq

/-- A box. `parent` says whether it has one; the places where a drag began stand for the flags
`resizing`, `vscrolling` and `hscrolling`. -/
structure Box where
  width : Int
  height : Int
  hresize : Bool
  vresize : Bool
  hscroll : Bool
  vscroll : Bool
  centerContent : Bool
  constrainSize : Bool
  parent : Bool
  content : Content
  resizing : Option Resizing
  vscrolling : Option Scrolling
  hscrolling : Option Scrolling
  deriving DecidableEq

/-- What a box calls. -/
inductive BoxCall where
  | childResized
  | contentMouseDown (x y : Int) (lb mb rb : Bool)
  | contentMouseUp (x y : Int) (lb mb rb : Bool)
  | contentMouseMove (px py nx ny : Int)
  deriving DecidableEq

/-- What `barcalc` returns. -/
structure Bar where
  barsize : Int
  barpos : Int
  baravail : Int
  deriving DecidableEq

/-- `control_size`. -/
def controlSize : Int := 12

/-- The corrections of `content.x` and `content.y`. -/
def keepInside (pos insize outsize : Int) : Int := min 0 (max (-(insize - outsize)) pos)

/-- `tk.box`. -/
def tkBox (opts : BoxOptions) (content : Content) (parent : Bool) : Box :=
  let width := opts.width.getD content.width
  let height := opts.height.getD content.height
  let centered (outsize insize : Int) : Int :=
    if opts.centerContent ∧ outsize > insize then (outsize - insize) / 2 else 0
  { width, height, parent
    hresize := opts.hresize
    vresize := opts.vresize
    hscroll := opts.hscroll
    vscroll := opts.vscroll
    centerContent := opts.centerContent
    constrainSize := opts.constrainSize
    content := { content with
      x := centered width content.width
      y := centered height content.height }
    resizing := none
    vscrolling := none
    hscrolling := none }

/-- `box:barcalc`. -/
def barcalc (pos insize outsize : Int) : Except LuaError Bar := do
  let barsize ← floorDiv ((outsize - controlSize) * outsize) insize
  let baravail := outsize - controlSize - barsize
  let barpos ← floorDiv (-pos * baravail) (insize - outsize)
  return { barsize, barpos, baravail }

/-- A scroll bar in `box:redraw`, where there is one. -/
def scrollBar (scroll : Bool) (pos insize outsize : Int) : Except LuaError (Option Bar) :=
  if scroll ∧ outsize < insize then some <$> barcalc pos insize outsize else return none

/-- The scroll bars of `box:redraw`. -/
def Box.redrawBars (b : Box) : Except LuaError (Option Bar × Option Bar) := do
  let hbar ← scrollBar b.hscroll b.content.x b.content.width b.width
  let vbar ← scrollBar b.vscroll b.content.y b.content.height b.height
  return (hbar, vbar)

/-- `box:move_content`. -/
def Box.moveContent (b : Box) (x y : Option Int) : Box × List BoxCall :=
  let content := { b.content with
    x := x.elim b.content.x fun x => keepInside x b.content.width b.width
    y := y.elim b.content.y fun y => keepInside y b.content.height b.height }
  ({ b with content },
    if b.parent ∧ (content.x ≠ b.content.x ∨ content.y ≠ b.content.y) then [.childResized] else [])

section Handlers

-- The function `resize` of the content.
variable (resizeContent : Content → Option Int → Option Int → Content)

/-- `box:resize`. -/
def Box.resize (b : Box) (width height : Option Int) : Box × List BoxCall :=
  let resized :=
    if b.constrainSize then
      let content := resizeContent b.content width height
      { b with content, width := content.width, height := content.height }
    else
      let width := width.getD b.width
      let height := height.getD b.height
      let centered (pos insize outsize : Int) : Int :=
        if outsize > insize then (outsize - insize) / 2 else keepInside pos insize outsize
      { b with
        width, height
        content :=
          if b.centerContent then
            { b.content with
              x := centered b.content.x b.content.width width
              y := centered b.content.y b.content.height height }
          else b.content }
  (resized,
    if b.parent ∧ (resized.width ≠ b.width ∨ resized.height ≠ b.height) then [.childResized]
    else [])

/-- `box:on_mouse_down`. -/
def Box.onMouseDown (b : Box) (x y : Int) (lb mb rb : Bool) :
    Except LuaError (Box × List BoxCall) := do
  if lb ∧ (b.vresize ∨ b.hresize) ∧ x ≥ b.width - controlSize ∧ y ≥ b.height - controlSize then
    return ({ b with resizing := some ⟨b.width, b.height, x, y⟩ }, [])
  else if lb ∧ b.vscroll ∧ x ≥ b.width - controlSize ∧ b.height < b.content.height then
    let bar ← barcalc b.content.y b.content.height b.height
    if y < bar.barpos then
      return b.moveContent none (b.content.y + b.height * 2 / 3)
    else if y ≥ bar.barpos + bar.barsize then
      return b.moveContent none (b.content.y - b.height * 2 / 3)
    else
      return ({ b with vscrolling := some ⟨b.content.y, y⟩ }, [])
  else if lb ∧ b.hscroll ∧ y ≥ b.height - controlSize ∧ b.width < b.content.width then
    let bar ← barcalc b.content.x b.content.width b.width
    if x < bar.barpos then
      return b.moveContent (b.content.x + b.width * 2 / 3) none
    else if x ≥ bar.barpos + bar.barsize then
      return b.moveContent (b.content.x - b.width * 2 / 3) none
    else
      return ({ b with hscrolling := some ⟨b.content.x, x⟩ }, [])
  else
    return (b, [.contentMouseDown (x - b.content.x) (y - b.content.y) lb mb rb])

/-- `box:on_mouse_up`. -/
def Box.onMouseUp (b : Box) (x y : Int) (lb mb rb : Bool) : Box × List BoxCall :=
  if lb ∧ b.resizing.isSome then ({ b with resizing := none }, [])
  else if lb ∧ b.vscrolling.isSome then ({ b with vscrolling := none }, [])
  else if lb ∧ b.hscrolling.isSome then ({ b with hscrolling := none }, [])
  else (b, [.contentMouseUp (x - b.content.x) (y - b.content.y) lb mb rb])

/-- The position that a bar dragged to `n` stands for. -/
def Scrolling.position (start : Scrolling) (n pos insize outsize : Int) : Except LuaError Int := do
  let bar ← barcalc pos insize outsize
  let moved ← floorDiv ((n - start.initm) * (insize - outsize)) bar.baravail
  return start.init - moved

/-- `box:on_mouse_move`. -/
def Box.onMouseMove (b : Box) (px py nx ny : Int) : Except LuaError (Box × List BoxCall) :=
  match b.resizing, b.vscrolling, b.hscrolling with
  | some start, _, _ =>
      let w := if b.hresize then some (start.initw + nx - start.initmx) else none
      let h := if b.vresize then some (start.inith + ny - start.initmy) else none
      return b.resize resizeContent w h
  | none, some start, _ => do
      let y ← start.position ny b.content.y b.content.height b.height
      return b.moveContent none y
  | none, none, some start => do
      let x ← start.position nx b.content.x b.content.width b.width
      return b.moveContent x none
  | none, none, none =>
      return (b, [.contentMouseMove (px - b.content.x) (py - b.content.y) (nx - b.content.x)
        (ny - b.content.y)])

/-- The mouse events of a box. -/
inductive BoxEvent where
  | mouseDown (x y : Int) (lb mb rb : Bool)
  | mouseUp (x y : Int) (lb mb rb : Bool)
  | mouseMove (px py nx ny : Int)
  deriving DecidableEq

/-- The handler of an event. -/
def Box.handle (b : Box) : BoxEvent → Except LuaError (Box × List BoxCall)
  | .mouseDown x y lb mb rb => b.onMouseDown x y lb mb rb
  | .mouseUp x y lb mb rb => .ok (b.onMouseUp x y lb mb rb)
  | .mouseMove px py nx ny => b.onMouseMove resizeContent px py nx ny

/-- Content that does not leave a gap on the right of a smaller box, and none on the left. -/
def Inside (pos insize outsize : Int) : Prop := min 0 (outsize - insize) ≤ pos ∧ pos ≤ 0

/-- The content of the box is inside in both directions. -/
structure Box.ContentInside (b : Box) : Prop where
  x : Inside b.content.x b.content.width b.width
  y : Inside b.content.y b.content.height b.height

/-- The events are handled without an error; after each of them the content is inside, and the
scroll bars can be drawn. -/
def Box.StaysInside (b : Box) : List BoxEvent → Prop
  | [] => True
  | e :: rest => ∃ b' calls, b.handle resizeContent e = .ok (b', calls) ∧ b'.ContentInside ∧
      (∃ bars, b'.redrawBars = .ok bars) ∧ b'.StaysInside rest

/-- Dragged by `d`, the corner does not go past the end of content that has been scrolled. -/
def EndsInside (pos insize initsize d : Int) : Prop := pos = 0 ∨ d ≤ insize + pos - initsize

/-- A bar that has no room to move. -/
def NoRoom (insize outsize : Int) : Prop :=
  0 ≤ (outsize - controlSize) * (outsize - insize) ∧
    (outsize - controlSize) * (outsize - insize) < insize

/-- The condition on the box before an event: a move that drags the corner does not drag it past the
end of scrolled content, and one that drags a bar finds it with room to move. -/
def Box.Careful (b : Box) : BoxEvent → Prop
  | .mouseMove _ _ nx ny =>
      match b.resizing, b.vscrolling, b.hscrolling with
      | some start, _, _ =>
          (b.hresize → EndsInside b.content.x b.content.width start.initw (nx - start.initmx)) ∧
            (b.vresize → EndsInside b.content.y b.content.height start.inith (ny - start.initmy))
      | none, some _, _ => ¬ NoRoom b.content.height b.height
      | none, none, some _ => ¬ NoRoom b.content.width b.width
      | none, none, none => True
  | _ => True

/-- Every event of a run meets the condition. -/
def Box.CarefulRun (b : Box) : List BoxEvent → Prop
  | [] => True
  | e :: rest => b.Careful e ∧
      ∀ b' calls, b.handle resizeContent e = .ok (b', calls) → b'.CarefulRun rest

end Handlers

/-- A box that neither centres nor constrains its content, which has points. -/
structure Box.Plain (b : Box) : Prop where
  notCentered : b.centerContent = false
  notConstrained : b.constrainSize = false
  width : 0 < b.content.width
  height : 0 < b.content.height

section Invariant

variable {resizeContent : Content → Option Int → Option Int → Content} {b b' : Box} {e : BoxEvent}
  {events : List BoxEvent} {calls : List BoxCall} {a c v pos insize outsize initsize d n : Int}
  {start : Scrolling}

theorem floor_div_of_ne_zero (hc : c ≠ 0) : floorDiv a c = .ok (a.fdiv c) := if_neg hc

theorem inside_keep_inside : Inside (keepInside v insize outsize) insize outsize := by
  unfold Inside keepInside
  omega

/-- A larger box keeps its content inside if the content has not been scrolled, or if its end is not
before the end of the box. -/
theorem inside_resized_iff (hinside : Inside pos insize outsize) :
    Inside pos insize (initsize + n - c) ↔ EndsInside pos insize initsize (n - c) := by
  unfold Inside EndsInside at *
  omega

/-- What a scroll bar leaves of its space. -/
def roomOf (insize outsize : Int) : Int :=
  outsize - controlSize - ((outsize - controlSize) * outsize).fdiv insize

theorem barcalc_of_ne (hpos : 0 < insize) (hsizes : insize - outsize ≠ 0) :
    barcalc pos insize outsize = .ok
      { barsize := ((outsize - controlSize) * outsize).fdiv insize
        barpos := (-pos * roomOf insize outsize).fdiv (insize - outsize)
        baravail := roomOf insize outsize } := by
  unfold barcalc
  simp only [floor_div_of_ne_zero (Int.ne_of_gt hpos), floor_div_of_ne_zero hsizes]
  rfl

theorem barcalc_of_same (hpos : 0 < insize) (hsame : insize - outsize = 0) :
    barcalc pos insize outsize = .error .divisionByZero := by
  unfold barcalc
  simp only [floor_div_of_ne_zero (Int.ne_of_gt hpos), hsame]
  rfl

/-- Where the content is larger than the box there is a bar. -/
theorem barcalc_of_larger (pos : Int) (hpos : 0 < insize) (hlarger : outsize < insize) :
    ∃ bar, barcalc pos insize outsize = .ok bar :=
  ⟨_, barcalc_of_ne hpos (by omega)⟩

/-- The bar takes all of the space exactly when it has no room. -/
theorem room_of_eq_zero_iff (hpos : 0 < insize) :
    roomOf insize outsize = 0 ↔ NoRoom insize outsize := by
  rw [roomOf, Int.fdiv_eq_ediv_of_nonneg _ (Int.le_of_lt hpos), Int.sub_eq_zero, eq_comm,
    Int.ediv_eq_iff_of_pos hpos, NoRoom, Int.mul_sub]
  omega

theorem no_room_of_same (hpos : 0 < insize) (hsame : insize - outsize = 0) :
    NoRoom insize outsize := by
  rw [NoRoom, show outsize - insize = 0 by omega, Int.mul_zero]
  exact ⟨Int.le_refl 0, hpos⟩

/-- A bar can be dragged if and only if it has room. -/
theorem position_iff (start : Scrolling) (n pos : Int) (hpos : 0 < insize) :
    (∃ v, start.position n pos insize outsize = .ok v) ↔ ¬ NoRoom insize outsize := by
  unfold Scrolling.position
  by_cases hsame : insize - outsize = 0
  · rw [barcalc_of_same hpos hsame]
    constructor
    · rintro ⟨v, hv⟩
      cases hv
    · exact fun hroom => absurd (no_room_of_same hpos hsame) hroom
  · rw [barcalc_of_ne hpos hsame, ← room_of_eq_zero_iff hpos]
    dsimp only [bind, Except.bind]
    by_cases hnone : roomOf insize outsize = 0
    · rw [floorDiv, if_pos hnone]
      constructor
      · rintro ⟨v, hv⟩
        cases hv
      · exact fun hroom => absurd hnone hroom
    · rw [floor_div_of_ne_zero hnone]
      exact ⟨fun _ => hnone, fun _ => ⟨_, rfl⟩⟩

theorem scroll_bar_ok (scroll : Bool) (pos outsize : Int) (hpos : 0 < insize) :
    ∃ bar, scrollBar scroll pos insize outsize = .ok bar := by
  unfold scrollBar
  split
  · next hlarger =>
    obtain ⟨bar, hbar⟩ := barcalc_of_larger pos hpos hlarger.2
    rw [hbar]
    exact ⟨some bar, rfl⟩
  · exact ⟨none, rfl⟩

theorem redraw_bars_ok (hb : b.Plain) : ∃ bars, b.redrawBars = .ok bars := by
  obtain ⟨hbar, hhbar⟩ := scroll_bar_ok b.hscroll b.content.x b.width hb.width
  obtain ⟨vbar, hvbar⟩ := scroll_bar_ok b.vscroll b.content.y b.height hb.height
  rw [Box.redrawBars, hhbar, hvbar]
  exact ⟨(hbar, vbar), rfl⟩

theorem move_content_plain {x y : Option Int} (hb : b.Plain) : (b.moveContent x y).1.Plain :=
  ⟨hb.notCentered, hb.notConstrained, hb.width, hb.height⟩

theorem move_content_inside {x y : Option Int} (hb : b.ContentInside) :
    (b.moveContent x y).1.ContentInside := by
  constructor
  · cases x with
    | none => exact hb.x
    | some x => exact inside_keep_inside
  · cases y with
    | none => exact hb.y
    | some y => exact inside_keep_inside

theorem resize_eq {width height : Option Int} (hb : b.Plain) :
    (b.resize resizeContent width height).1 =
      { b with width := width.getD b.width, height := height.getD b.height } := by
  simp only [Box.resize, hb.notConstrained, hb.notCentered, Bool.false_eq_true, if_false]

/-- A press is always handled. -/
theorem on_mouse_down_ok {x y : Int} {lb mb rb : Bool} (hb : b.Plain)
    (hinside : b.ContentInside) : ∃ b' calls, b.onMouseDown x y lb mb rb = .ok (b', calls) ∧
      b'.Plain ∧ b'.ContentInside := by
  unfold Box.onMouseDown
  split
  · exact ⟨_, _, rfl, ⟨hb.1, hb.2, hb.3, hb.4⟩, ⟨hinside.x, hinside.y⟩⟩
  split
  · next hbar =>
    obtain ⟨bar, hbar⟩ := barcalc_of_larger b.content.y hb.height hbar.2.2.2
    rw [hbar]
    dsimp only [bind, Except.bind]
    split
    · exact ⟨_, _, rfl, move_content_plain hb, move_content_inside hinside⟩
    split
    · exact ⟨_, _, rfl, move_content_plain hb, move_content_inside hinside⟩
    · exact ⟨_, _, rfl, ⟨hb.1, hb.2, hb.3, hb.4⟩, ⟨hinside.x, hinside.y⟩⟩
  split
  · next hbar =>
    obtain ⟨bar, hbar⟩ := barcalc_of_larger b.content.x hb.width hbar.2.2.2
    rw [hbar]
    dsimp only [bind, Except.bind]
    split
    · exact ⟨_, _, rfl, move_content_plain hb, move_content_inside hinside⟩
    split
    · exact ⟨_, _, rfl, move_content_plain hb, move_content_inside hinside⟩
    · exact ⟨_, _, rfl, ⟨hb.1, hb.2, hb.3, hb.4⟩, ⟨hinside.x, hinside.y⟩⟩
  · exact ⟨_, _, rfl, hb, hinside⟩

theorem on_mouse_up_ok {x y : Int} {lb mb rb : Bool} (hb : b.Plain) (hinside : b.ContentInside) :
    (b.onMouseUp x y lb mb rb).1.Plain ∧ (b.onMouseUp x y lb mb rb).1.ContentInside := by
  unfold Box.onMouseUp
  split
  · exact ⟨⟨hb.1, hb.2, hb.3, hb.4⟩, ⟨hinside.x, hinside.y⟩⟩
  split
  · exact ⟨⟨hb.1, hb.2, hb.3, hb.4⟩, ⟨hinside.x, hinside.y⟩⟩
  split
  · exact ⟨⟨hb.1, hb.2, hb.3, hb.4⟩, ⟨hinside.x, hinside.y⟩⟩
  · exact ⟨hb, hinside⟩

/-- In one direction the content stays inside if and only if the corner is not dragged past it. -/
theorem inside_of_drag {drags : Bool} (hinside : Inside pos insize outsize) :
    Inside pos insize ((if drags then some (initsize + n - c) else none).getD outsize) ↔
      (drags → EndsInside pos insize initsize (n - c)) := by
  cases drags with
  | false => simpa using hinside
  | true => simpa using inside_resized_iff hinside

/-- A move is handled with the content left inside if and only if it meets the condition. -/
theorem on_mouse_move_iff {px py nx ny : Int} (hb : b.Plain) (hinside : b.ContentInside) :
    (∃ b' calls, b.onMouseMove resizeContent px py nx ny = .ok (b', calls) ∧ b'.ContentInside) ↔
      b.Careful (.mouseMove px py nx ny) := by
  unfold Box.onMouseMove Box.Careful
  rcases hresizing : b.resizing with _ | start
  · rcases hvscrolling : b.vscrolling with _ | start
    · rcases hhscrolling : b.hscrolling with _ | start
      · exact ⟨fun _ => trivial, fun _ => ⟨_, _, rfl, hinside⟩⟩
      · dsimp only
        rw [← position_iff start nx b.content.x hb.width]
        constructor
        · rintro ⟨b', calls, hok, -⟩
          rcases hx : start.position nx b.content.x b.content.width b.width with _ | x
          · rw [hx] at hok
            cases hok
          · exact ⟨x, rfl⟩
        · rintro ⟨x, hx⟩
          rw [hx]
          exact ⟨_, _, rfl, move_content_inside hinside⟩
    · dsimp only
      rw [← position_iff start ny b.content.y hb.height]
      constructor
      · rintro ⟨b', calls, hok, -⟩
        rcases hy : start.position ny b.content.y b.content.height b.height with _ | y
        · rw [hy] at hok
          cases hok
        · exact ⟨y, rfl⟩
      · rintro ⟨y, hy⟩
        rw [hy]
        exact ⟨_, _, rfl, move_content_inside hinside⟩
  · dsimp only
    rw [← inside_of_drag hinside.x, ← inside_of_drag hinside.y]
    constructor
    · rintro ⟨b', calls, hok, hinside'⟩
      obtain rfl := congrArg Prod.fst (Except.ok.inj hok)
      rw [resize_eq hb] at hinside'
      exact ⟨hinside'.x, hinside'.y⟩
    · rintro ⟨hx, hy⟩
      refine ⟨_, _, congrArg Except.ok (Prod.eta _).symm, ?_⟩
      rw [resize_eq hb]
      exact ⟨hx, hy⟩

theorem on_mouse_move_plain {px py nx ny : Int} (hb : b.Plain)
    (h : b.onMouseMove resizeContent px py nx ny = .ok (b', calls)) : b'.Plain := by
  unfold Box.onMouseMove at h
  split at h
  · obtain rfl := congrArg Prod.fst (Except.ok.inj h)
    rw [resize_eq hb]
    exact ⟨hb.notCentered, hb.notConstrained, hb.width, hb.height⟩
  · next start _ _ =>
    rcases hy : start.position ny b.content.y b.content.height b.height with _ | y
    · rw [hy] at h
      cases h
    · rw [hy] at h
      obtain rfl := congrArg Prod.fst (Except.ok.inj h)
      exact move_content_plain hb
  · next start _ _ _ =>
    rcases hx : start.position nx b.content.x b.content.width b.width with _ | x
    · rw [hx] at h
      cases h
    · rw [hx] at h
      obtain rfl := congrArg Prod.fst (Except.ok.inj h)
      exact move_content_plain hb
  · obtain rfl := congrArg Prod.fst (Except.ok.inj h)
    exact hb

/-- An event is handled with the content left inside if and only if it meets the condition. -/
theorem handle_iff (hb : b.Plain) (hinside : b.ContentInside) :
    (∃ b' calls, b.handle resizeContent e = .ok (b', calls) ∧ b'.ContentInside) ↔ b.Careful e := by
  cases e with
  | mouseDown x y lb mb rb =>
      obtain ⟨b', calls, hok, -, hinside'⟩ := on_mouse_down_ok hb hinside
      exact ⟨fun _ => trivial, fun _ => ⟨b', calls, hok, hinside'⟩⟩
  | mouseUp x y lb mb rb =>
      exact ⟨fun _ => trivial, fun _ => ⟨_, _, rfl, (on_mouse_up_ok hb hinside).2⟩⟩
  | mouseMove px py nx ny => exact on_mouse_move_iff hb hinside

theorem handle_plain (hb : b.Plain) (hinside : b.ContentInside)
    (h : b.handle resizeContent e = .ok (b', calls)) : b'.Plain := by
  cases e with
  | mouseDown x y lb mb rb =>
      obtain ⟨_, _, hok, hb', -⟩ := on_mouse_down_ok hb hinside
      obtain rfl := congrArg Prod.fst (Except.ok.inj (h.symm.trans hok))
      exact hb'
  | mouseUp x y lb mb rb =>
      obtain rfl := congrArg Prod.fst (Except.ok.inj h)
      exact (on_mouse_up_ok hb hinside).1
  | mouseMove px py nx ny => exact on_mouse_move_plain hb h

theorem run_stays_inside_iff (hb : b.Plain) (hinside : b.ContentInside) :
    b.StaysInside resizeContent events ↔ b.CarefulRun resizeContent events := by
  induction events generalizing b with
  | nil => exact Iff.rfl
  | cons e rest ih =>
      constructor
      · rintro ⟨b', calls, hok, hinside', -, hrest⟩
        refine ⟨(handle_iff hb hinside).mp ⟨b', calls, hok, hinside'⟩, fun b'' calls'' hok' => ?_⟩
        obtain rfl := congrArg Prod.fst (Except.ok.inj (hok'.symm.trans hok))
        exact (ih (handle_plain hb hinside hok) hinside').mp hrest
      · rintro ⟨hcareful, hrest⟩
        obtain ⟨b', calls, hok, hinside'⟩ := (handle_iff hb hinside).mpr hcareful
        have hb' := handle_plain hb hinside hok
        exact ⟨b', calls, hok, hinside', redraw_bars_ok hb',
          (ih hb' hinside').mpr (hrest b' calls hok)⟩

theorem inside_zero : Inside 0 insize outsize := ⟨Int.min_le_left .., Int.le_refl 0⟩

end Invariant

end Kogata.User
