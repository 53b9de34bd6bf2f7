import MegKer.Foundation.SignedWord
import MegKer.Gui.FramebufferMemory
import Mathlib.Algebra.Order.Ring.Abs
import Mathlib.Algebra.Order.Ring.Int
import Mathlib.Data.List.Chain
import Mathlib.Tactic.Linarith
import Mathlib.Tactic.LinearCombination

/-!
# Lines

`fb_draw_line` is Bresenham's algorithm, the same in both ports. The loop is left only when the pen is
exactly at the end of the line, so it has to be shown that neither coordinate passes the end. Signed
arithmetic is checked here: the function has no result when an intermediate value overflows, or when
the loop does not end within its fuel.

With `a` and `b` for the lengths of the line along the two axes, the pen has made `u` steps along the
first and `v` along the second, and its error term is `a - b - (u * b - v * a)`. The invariant
(`OnLine`) is that twice `u * b - v * a` is at most the longer of the two lengths, in absolute value:
the pen is within half a pixel of the line. One round of the loop moves it by one along the longer
axis and keeps the invariant (`penStep_onLine`); when the longer axis is done, the other one is done
too.
-/

set_option autoImplicit false
set_option relaxedAutoImplicit false

namespace MegKer.Gui

open Foundation

/-! ### The code -/

/-- The local variables of `fb_draw_line` that stay the same in the loop. -/
structure Slope where
  dx : ℤ
  sx : ℤ
  dy : ℤ
  sy : ℤ

/-- The local variables that change: the current point and the error term. -/
structure Pen where
  x : ℤ
  y : ℤ
  err : ℤ

/-- The declarations before the loop, up to `sy`. -/
def lineSlope (x0 y0 x1 y1 : ℤ) : Option Slope :=
  (if x1 > x0 then checked (x1 - x0) else checked (x0 - x1)).bind fun dx ↦
  (if y1 > y0 then checked (y0 - y1) else checked (y1 - y0)).map fun dy ↦
    { dx := dx, sx := if x0 < x1 then 1 else -1, dy := dy, sy := if y0 < y1 then 1 else -1 }

/-- `if (e2 >= dy) { err += dy; x0 += sx; }` -/
def stepX (m : Slope) (e2 : ℤ) (p : Pen) : Option Pen :=
  if e2 ≥ m.dy then
    (checked (p.err + m.dy)).bind fun err ↦ (checked (p.x + m.sx)).map fun x ↦
      { p with x := x, err := err }
  else some p

/-- `if (e2 <= dx) { err += dx; y0 += sy; }` -/
def stepY (m : Slope) (e2 : ℤ) (p : Pen) : Option Pen :=
  if e2 ≤ m.dx then
    (checked (p.err + m.dx)).bind fun err ↦ (checked (p.y + m.sy)).map fun y ↦
      { p with y := y, err := err }
  else some p

/-- The rest of a round of the loop, after the test. -/
def penStep (m : Slope) (p : Pen) : Option Pen :=
  (checked (2 * p.err)).bind fun e2 ↦ (stepX m e2 p).bind fun p ↦ stepY m e2 p

section

-- What is drawn on, and how a point is plotted.
variable {σ : Type} (plot : σ → ℤ → ℤ → σ)

/-- The loop of `fb_draw_line`, with at most `fuel` rounds. -/
def lineLoop (m : Slope) (x1 y1 : ℤ) : (fuel : ℕ) → Pen → σ → Option σ
  | 0, _, _ => none
  | fuel + 1, p, s =>
    if p.x = x1 ∧ p.y = y1 then some (plot s p.x p.y)
    else (penStep m p).bind fun next ↦ lineLoop m x1 y1 fuel next (plot s p.x p.y)

/-- `fb_draw_line` for a way to plot points. -/
def drawLine (s : σ) (x0 y0 x1 y1 : ℤ) (fuel : ℕ) : Option σ :=
  (lineSlope x0 y0 x1 y1).bind fun m ↦ (checked (m.dx + m.dy)).bind fun err ↦
    lineLoop plot m x1 y1 fuel ⟨x0, y0, err⟩ s

end

def fbDrawLine (fb : Framebuffer) (x0 y0 x1 y1 : ℤ) (rgb fuel : ℕ) : Option Framebuffer :=
  drawLine (fun fb x y ↦ fbPutPixel fb (u32 x) (u32 y) rgb) fb x0 y0 x1 y1 fuel

/-! ### The line in memory -/

theorem i32_of_checked {n result : ℤ} (h : checked n = some result) : i32 n = result := by
  unfold checked at h
  split_ifs at h with hrange
  rw [i32_of_range hrange.1 hrange.2]
  exact Option.some.inj h

section

variable {line : Line} {m : Slope} {x0 y0 x1 y1 : ℤ}

/-- The pen as the variables of the loop over memory. -/
def Pen.toLinePoint (p : Pen) : LinePoint := ⟨p.x, p.y, p.err⟩

/-- The slope with the end of the line. -/
def Slope.toLine (m : Slope) (x1 y1 : ℤ) : Line := ⟨x1, y1, m.dx, m.sx, m.dy, m.sy⟩

/-- Where no step overflows, the loop over memory moves as the pen does. -/
theorem advance_of_penStep {p next : Pen} (h : penStep m p = some next) :
    (m.toLine x1 y1).advance p.toLinePoint = next.toLinePoint := by
  obtain ⟨e2, he2, hsteps⟩ := Option.bind_eq_some_iff.mp h
  obtain ⟨middle, hx, hy⟩ := Option.bind_eq_some_iff.mp hsteps
  have hmiddle : (if e2 ≥ m.dy then
      ({ p.toLinePoint with err := i32 (p.err + m.dy), x := i32 (p.x + m.sx) } : LinePoint)
      else p.toLinePoint) = middle.toLinePoint := by
    unfold stepX at hx
    split_ifs at hx ⊢
    · obtain ⟨err, herr, hmoved⟩ := Option.bind_eq_some_iff.mp hx
      obtain ⟨x, hcoord, rfl⟩ := Option.map_eq_some_iff.mp hmoved
      rw [i32_of_checked herr, i32_of_checked hcoord]
      rfl
    · rw [Option.some.inj hx]
  have hnext : (if e2 ≤ m.dx then
      ({ middle.toLinePoint with err := i32 (middle.err + m.dx), y := i32 (middle.y + m.sy) } :
        LinePoint)
      else middle.toLinePoint) = next.toLinePoint := by
    unfold stepY at hy
    split_ifs at hy ⊢
    · obtain ⟨err, herr, hmoved⟩ := Option.bind_eq_some_iff.mp hy
      obtain ⟨y, hcoord, rfl⟩ := Option.map_eq_some_iff.mp hmoved
      rw [i32_of_checked herr, i32_of_checked hcoord]
      rfl
    · rw [Option.some.inj hy]
  have he2 : i32 (2 * p.toLinePoint.err) = e2 := i32_of_checked he2
  rw [Line.advance, he2]
  exact (congrArg (fun q : LinePoint ↦ if e2 ≤ m.dx then
    ({ q with err := i32 (q.err + m.dx), y := i32 (q.y + m.sy) } : LinePoint) else q) hmiddle).trans
      hnext

/-- Where no step overflows, the loop over memory stores the points that are plotted. -/
theorem drawLineFrom_of_lineLoop (info : FbInfo) (rgb fuel : ℕ) :
    ∀ (p : Pen) (mem mem' : ByteMemory),
      lineLoop (fun mem x y ↦ info.putPixel mem (u32 x) (u32 y) rgb) m x1 y1 fuel p mem = some mem' →
        info.drawLineFrom (m.toLine x1 y1) rgb fuel p.toLinePoint mem = some mem' := by
  induction fuel with
  | zero => intro p mem mem' h; exact h
  | succ fuel ih =>
    intro p mem mem' h
    rw [lineLoop] at h
    rw [FbInfo.drawLineFrom]
    split_ifs at h with hend
    · exact (if_pos hend).trans h
    · obtain ⟨next, hstep, hrest⟩ := Option.bind_eq_some_iff.mp h
      refine (if_neg hend).trans ?_
      rw [advance_of_penStep hstep]
      exact ih next _ mem' hrest

/-- Where no step overflows, the line in memory is the line with `fb_put_pixel` for its points. -/
theorem drawLine_of_checked (info : FbInfo) {rgb fuel : ℕ} {mem mem' : ByteMemory}
    (h : drawLine (fun mem x y ↦ info.putPixel mem (u32 x) (u32 y) rgb) mem x0 y0 x1 y1 fuel =
      some mem') : info.drawLine fuel mem x0 y0 x1 y1 rgb = some mem' := by
  obtain ⟨m, hslope, hrest⟩ := Option.bind_eq_some_iff.mp h
  obtain ⟨err, herr, hloop⟩ := Option.bind_eq_some_iff.mp hrest
  obtain ⟨dx, hdx, hslope⟩ := Option.bind_eq_some_iff.mp hslope
  obtain ⟨dy, hdy, rfl⟩ := Option.map_eq_some_iff.mp hslope
  have hx : (if x1 > x0 then i32 (x1 - x0) else i32 (x0 - x1)) = dx := by
    split_ifs at hdx ⊢ <;> exact i32_of_checked hdx
  have hy : (if y1 > y0 then i32 (y0 - y1) else i32 (y1 - y0)) = dy := by
    split_ifs at hdy ⊢ <;> exact i32_of_checked hdy
  have hline : lineTo x0 y0 x1 y1 = Slope.toLine ⟨dx, if x0 < x1 then 1 else -1, dy,
      if y0 < y1 then 1 else -1⟩ x1 y1 := by
    rw [lineTo, hx, hy]
    rfl
  have hstart : (lineTo x0 y0 x1 y1).start x0 y0 = Pen.toLinePoint ⟨x0, y0, err⟩ := by
    rw [hline, Line.start]
    exact congrArg (LinePoint.mk x0 y0) (i32_of_checked herr)
  rw [FbInfo.drawLine, hstart, hline]
  exact drawLineFrom_of_lineLoop info rgb fuel _ mem mem' hloop

end

/-! ### The line -/

/-- A line from a point: its lengths along the two axes and its directions. All of its points are 32-bit
coordinates, and it is short enough for the error term. -/
structure Segment where
  x0 : ℤ
  y0 : ℤ
  a : ℤ
  b : ℤ
  sx : ℤ
  sy : ℤ
  a_nonneg : 0 ≤ a
  b_nonneg : 0 ≤ b
  a_le : a ≤ 536870912
  b_le : b ≤ 536870912
  sx_eq : sx = 1 ∨ sx = -1
  sy_eq : sy = 1 ∨ sy = -1
  x0_range : -2147483648 ≤ x0 ∧ x0 < 2147483648
  x1_range : -2147483648 ≤ x0 + sx * a ∧ x0 + sx * a < 2147483648
  y0_range : -2147483648 ≤ y0 ∧ y0 < 2147483648
  y1_range : -2147483648 ≤ y0 + sy * b ∧ y0 + sy * b < 2147483648

namespace Segment

variable (l : Segment)

def slope : Slope := ⟨l.a, l.sx, -l.b, l.sy⟩

/-- How far a point is off the line, by its steps along the two axes. -/
def offset (u v : ℤ) : ℤ := u * l.b - v * l.a

/-- The pen after some steps along the two axes. -/
def pen (u v : ℤ) : Pen := ⟨l.x0 + l.sx * u, l.y0 + l.sy * v, l.a - l.b - l.offset u v⟩

/-- The point there. -/
def point (u v : ℤ) : ℤ × ℤ := (l.x0 + l.sx * u, l.y0 + l.sy * v)

/-- The steps along the longer axis that are left. -/
def rest (u v : ℤ) : ℤ := if l.b ≤ l.a then l.a - u else l.b - v

/-- The invariant: the pen has not passed the end, and is within half a pixel of the line. -/
structure OnLine (u v : ℤ) : Prop where
  u_nonneg : 0 ≤ u
  u_le : u ≤ l.a
  v_nonneg : 0 ≤ v
  v_le : v ≤ l.b
  low : -max l.a l.b ≤ 2 * l.offset u v
  high : 2 * l.offset u v ≤ max l.a l.b

/-- One point of the line follows another: one step along the longer axis, and at most one along the
other, in the direction of the end. -/
def Follows (p q : ℤ × ℤ) : Prop :=
  if l.b ≤ l.a then q.1 = p.1 + l.sx ∧ (q.2 = p.2 ∨ q.2 = p.2 + l.sy)
  else q.2 = p.2 + l.sy ∧ (q.1 = p.1 ∨ q.1 = p.1 + l.sx)

variable {l} {u v : ℤ}

theorem offset_succ_left : l.offset (u + 1) v = l.offset u v + l.b := by
  unfold offset
  ring

theorem offset_succ_right : l.offset u (v + 1) = l.offset u v - l.a := by
  unfold offset
  ring

theorem x_range (hlow : 0 ≤ u) (hhigh : u ≤ l.a) :
    -2147483648 ≤ l.x0 + l.sx * u ∧ l.x0 + l.sx * u < 2147483648 := by
  have hstart := l.x0_range
  have hend := l.x1_range
  rcases l.sx_eq with hsx | hsx <;> rw [hsx] at hend ⊢ <;> omega

theorem y_range (hlow : 0 ≤ v) (hhigh : v ≤ l.b) :
    -2147483648 ≤ l.y0 + l.sy * v ∧ l.y0 + l.sy * v < 2147483648 := by
  have hstart := l.y0_range
  have hend := l.y1_range
  rcases l.sy_eq with hsy | hsy <;> rw [hsy] at hend ⊢ <;> omega

/-- The update of the first axis. The offset is small enough for the error term. -/
theorem stepX_pen (e2 : ℤ) (hlow : -805306368 ≤ l.offset u v) (hhigh : l.offset u v ≤ 805306368)
    (hu : 0 ≤ u) (hroom : e2 ≥ -l.b → u < l.a) :
    stepX l.slope e2 (l.pen u v) = some (l.pen (if e2 ≥ -l.b then u + 1 else u) v) := by
  have ha := l.a_nonneg
  have hb := l.b_nonneg
  have ha' := l.a_le
  have hb' := l.b_le
  by_cases hstep : e2 ≥ -l.b
  · have hx := l.x_range (u := u + 1) (by omega) (hroom hstep)
    have hx' : l.x0 + l.sx * u + l.sx = l.x0 + l.sx * (u + 1) := by ring
    have herr : l.a - l.b - l.offset u v + -l.b = l.a - l.b - l.offset (u + 1) v := by
      rw [offset_succ_left]
      ring
    rw [if_pos hstep, stepX, if_pos (show e2 ≥ l.slope.dy from hstep)]
    simp only [slope, pen]
    rw [checked_of_range (by omega) (by omega), Option.bind_some, hx',
      checked_of_range hx.1 hx.2, Option.map_some, herr]
  · rw [if_neg hstep, stepX, if_neg (show ¬ e2 ≥ l.slope.dy from hstep)]

/-- The update of the second axis. -/
theorem stepY_pen (e2 : ℤ) (hlow : -805306368 ≤ l.offset u v) (hhigh : l.offset u v ≤ 805306368)
    (hv : 0 ≤ v) (hroom : e2 ≤ l.a → v < l.b) :
    stepY l.slope e2 (l.pen u v) = some (l.pen u (if e2 ≤ l.a then v + 1 else v)) := by
  have ha := l.a_nonneg
  have hb := l.b_nonneg
  have ha' := l.a_le
  have hb' := l.b_le
  by_cases hstep : e2 ≤ l.a
  · have hy := l.y_range (v := v + 1) (by omega) (hroom hstep)
    have hy' : l.y0 + l.sy * v + l.sy = l.y0 + l.sy * (v + 1) := by ring
    have herr : l.a - l.b - l.offset u v + l.a = l.a - l.b - l.offset u (v + 1) := by
      rw [offset_succ_right]
      ring
    rw [if_pos hstep, stepY, if_pos (show e2 ≤ l.slope.dx from hstep)]
    simp only [slope, pen]
    rw [checked_of_range (by omega) (by omega), Option.bind_some, hy',
      checked_of_range hy.1 hy.2, Option.map_some, herr]
  · rw [if_neg hstep, stepY, if_neg (show ¬ e2 ≤ l.slope.dx from hstep)]

/-- With the first axis done, the offset is what is left of the other one. -/
theorem le_offset_of_lt (hu : l.a ≤ u) (hv : v < l.b) : l.a ≤ l.offset u v := by
  have hb := l.b_nonneg
  have ha := l.a_nonneg
  have hfirst := mul_le_mul_of_nonneg_right hu hb
  have hsecond := mul_le_mul_of_nonneg_right (Int.le_sub_one_of_lt hv) ha
  unfold offset
  linarith

theorem offset_le_of_lt (hu : u < l.a) (hv : l.b ≤ v) : l.offset u v ≤ -l.b := by
  have hb := l.b_nonneg
  have ha := l.a_nonneg
  have hfirst := mul_le_mul_of_nonneg_right (Int.le_sub_one_of_lt hu) hb
  have hsecond := mul_le_mul_of_nonneg_right hv ha
  unfold offset
  linarith

/-- With the longer axis done, the other one is done too. -/
theorem OnLine.end_of_rest (h : l.OnLine u v) (hrest : l.rest u v = 0) : u = l.a ∧ v = l.b := by
  obtain ⟨hu, hu', hv, hv', hlow, hhigh⟩ := h
  unfold rest at hrest
  split_ifs at hrest with hmajor
  · refine ⟨by omega, ?_⟩
    by_contra hne
    have hoff := le_offset_of_lt (l := l) (by omega : l.a ≤ u) (by omega : v < l.b)
    omega
  · refine ⟨?_, by omega⟩
    by_contra hne
    have hoff := offset_le_of_lt (l := l) (by omega : u < l.a) (by omega : l.b ≤ v)
    omega

/-- Before the end of the longer axis, each axis has room for a step that is due. -/
theorem OnLine.room (h : l.OnLine u v) (hmore : 0 < l.rest u v) :
    (2 * (l.a - l.b - l.offset u v) ≥ -l.b → u < l.a) ∧
      (2 * (l.a - l.b - l.offset u v) ≤ l.a → v < l.b) := by
  obtain ⟨hu, hu', hv, hv', hlow, hhigh⟩ := h
  unfold rest at hmore
  split_ifs at hmore with hmajor
  · refine ⟨fun _ ↦ by omega, fun hdue ↦ ?_⟩
    by_contra hfull
    have hoff := offset_le_of_lt (l := l) (by omega : u < l.a) (by omega : l.b ≤ v)
    omega
  · refine ⟨fun hdue ↦ ?_, fun _ ↦ by omega⟩
    by_contra hfull
    have hoff := le_offset_of_lt (l := l) (by omega : l.a ≤ u) (by omega : v < l.b)
    omega

/-- One round of the loop, by the steps that are due. -/
theorem penStep_pen (h : l.OnLine u v) (hmore : 0 < l.rest u v) :
    penStep l.slope (l.pen u v) =
      some (l.pen (if 2 * (l.a - l.b - l.offset u v) ≥ -l.b then u + 1 else u)
        (if 2 * (l.a - l.b - l.offset u v) ≤ l.a then v + 1 else v)) := by
  obtain ⟨hroomX, hroomY⟩ := h.room hmore
  obtain ⟨hu, -, hv, -, hlow, hhigh⟩ := h
  have ha := l.a_nonneg
  have hb := l.b_nonneg
  have ha' := l.a_le
  have hb' := l.b_le
  have hlow' : -268435456 ≤ l.offset u v := by omega
  have hhigh' : l.offset u v ≤ 268435456 := by omega
  have he2 : checked (2 * (l.pen u v).err) = some (2 * (l.a - l.b - l.offset u v)) :=
    checked_of_range (by simp only [pen]; omega) (by simp only [pen]; omega)
  rw [penStep, he2, Option.bind_some, stepX_pen _ (by omega) (by omega) hu hroomX, Option.bind_some]
  have hmoved := offset_succ_left (l := l) (u := u) (v := v)
  refine stepY_pen _ ?_ ?_ hv hroomY
  · split_ifs <;> omega
  · split_ifs <;> omega

/-- One round of the loop moves the pen by one along the longer axis and keeps it on the line. -/
theorem penStep_onLine (h : l.OnLine u v) (hmore : 0 < l.rest u v) :
    ∃ u' v', penStep l.slope (l.pen u v) = some (l.pen u' v') ∧ l.OnLine u' v' ∧
      l.rest u' v' + 1 = l.rest u v ∧ l.Follows (l.point u v) (l.point u' v') := by
  obtain ⟨hroomX, hroomY⟩ := h.room hmore
  refine ⟨_, _, penStep_pen h hmore, ?_⟩
  obtain ⟨hu, hu', hv, hv', hlow, hhigh⟩ := h
  have ha := l.a_nonneg
  have hb := l.b_nonneg
  have hx (k : ℤ) : l.x0 + l.sx * (k + 1) = l.x0 + l.sx * k + l.sx := by ring
  have hy (k : ℤ) : l.y0 + l.sy * (k + 1) = l.y0 + l.sy * k + l.sy := by ring
  by_cases hmajor : l.b ≤ l.a
  · -- the first axis is the longer one, and its step is always due
    rw [max_eq_left hmajor] at hlow hhigh
    have hdue : 2 * (l.a - l.b - l.offset u v) ≥ -l.b := by omega
    have hroom := hroomX hdue
    rw [if_pos hdue]
    simp only [rest, Follows, if_pos hmajor, point, hx]
    split_ifs with hother
    · have hroom' := hroomY hother
      refine ⟨⟨by omega, by omega, by omega, by omega, ?_, ?_⟩, by omega, trivial, ?_⟩
      · rw [max_eq_left hmajor, offset_succ_left, offset_succ_right]
        omega
      · rw [max_eq_left hmajor, offset_succ_left, offset_succ_right]
        omega
      · rw [hy]
        exact Or.inr rfl
    · refine ⟨⟨by omega, by omega, hv, hv', ?_, ?_⟩, by omega, trivial, Or.inl rfl⟩
      · rw [max_eq_left hmajor, offset_succ_left]
        omega
      · rw [max_eq_left hmajor, offset_succ_left]
        omega
  · rw [max_eq_right (by omega)] at hlow hhigh
    have hdue : 2 * (l.a - l.b - l.offset u v) ≤ l.a := by omega
    have hroom := hroomY hdue
    rw [if_pos hdue]
    simp only [rest, Follows, if_neg hmajor, point, hy]
    split_ifs with hother
    · have hroom' := hroomX hother
      refine ⟨⟨by omega, by omega, by omega, by omega, ?_, ?_⟩, by omega, trivial, ?_⟩
      · rw [max_eq_right (by omega), offset_succ_left, offset_succ_right]
        omega
      · rw [max_eq_right (by omega), offset_succ_left, offset_succ_right]
        omega
      · rw [hx]
        exact Or.inr rfl
    · refine ⟨⟨hu, hu', by omega, by omega, ?_, ?_⟩, by omega, trivial, Or.inl rfl⟩
      · rw [max_eq_right (by omega), offset_succ_right]
        omega
      · rw [max_eq_right (by omega), offset_succ_right]
        omega

/-! ### The loop -/

theorem not_end_of_rest (hmore : 0 < l.rest u v) :
    ¬ ((l.pen u v).x = (l.point l.a l.b).1 ∧ (l.pen u v).y = (l.point l.a l.b).2) := by
  rintro ⟨hx, hy⟩
  simp only [pen, point] at hx hy
  unfold rest at hmore
  rcases l.sx_eq with hsx | hsx <;> rcases l.sy_eq with hsy | hsy <;> rw [hsx] at hx <;>
    rw [hsy] at hy <;> split_ifs at hmore <;> omega

/-- The loop from a point of the line on: the points that it plots, whatever it draws on. -/
theorem lineLoop_run (n : ℕ) {u v : ℤ} (h : l.OnLine u v) (hrest : l.rest u v = n) :
    ∃ points : List (ℤ × ℤ), points.length = n + 1 ∧ points.head? = some (l.point u v) ∧
      points.getLast? = some (l.point l.a l.b) ∧ points.IsChain l.Follows ∧
      (∀ p ∈ points, ∃ u v, l.OnLine u v ∧ p = l.point u v) ∧
      ∀ {σ : Type} (plot : σ → ℤ → ℤ → σ) (s : σ) (fuel : ℕ), n + 1 ≤ fuel →
        lineLoop plot l.slope (l.point l.a l.b).1 (l.point l.a l.b).2 fuel (l.pen u v) s =
          some (points.foldl (fun s p ↦ plot s p.1 p.2) s) := by
  induction n generalizing u v with
  | zero =>
    obtain ⟨rfl, rfl⟩ := h.end_of_rest hrest
    refine ⟨[l.point l.a l.b], rfl, rfl, rfl, List.isChain_singleton _, ?_, ?_⟩
    · intro p hp
      exact ⟨l.a, l.b, h, List.mem_singleton.mp hp⟩
    · intro σ plot s fuel hfuel
      obtain ⟨fuel, rfl⟩ := Nat.exists_eq_add_of_le' hfuel
      rw [lineLoop, if_pos ⟨rfl, rfl⟩]
      rfl
  | succ n ih =>
    have hmore : 0 < l.rest u v := by omega
    obtain ⟨u', v', hstep, hnext, hless, hfollows⟩ := penStep_onLine h hmore
    obtain ⟨points, hlength, hhead, hlast, hchain, hall, hloop⟩ := ih hnext (by omega)
    obtain ⟨first, rest, rfl⟩ : ∃ first rest, points = first :: rest :=
      List.exists_cons_of_ne_nil (by rintro rfl; cases hhead)
    obtain rfl := Option.some.inj hhead
    refine ⟨l.point u v :: l.point u' v' :: rest, ?_, rfl, ?_, ?_, ?_, ?_⟩
    · rw [List.length_cons, hlength]
    · rw [List.getLast?_cons_cons]
      exact hlast
    · exact List.isChain_cons_cons.mpr ⟨hfollows, hchain⟩
    · intro p hp
      rcases List.mem_cons.mp hp with rfl | hp
      · exact ⟨u, v, h, rfl⟩
      · exact hall p hp
    · intro σ plot s fuel hfuel
      obtain ⟨fuel, rfl⟩ := Nat.exists_eq_add_of_le' (Nat.one_le_of_lt hfuel)
      rw [lineLoop, if_neg (not_end_of_rest hmore), hstep, Option.bind_some,
        hloop plot _ fuel (by omega)]
      rfl

end Segment

/-! ### All lines -/

/-- The sign of the steps along an axis, as the code chooses it. -/
def towards (start finish : ℤ) : ℤ := if start < finish then 1 else -1

theorem add_towards_mul (start finish : ℤ) :
    start + towards start finish * |finish - start| = finish := by
  unfold towards
  split_ifs with hlt
  · rw [abs_of_nonneg (by omega)]
    ring
  · rw [abs_of_nonpos (by omega)]
    ring

theorem towards_eq (start finish : ℤ) : towards start finish = 1 ∨ towards start finish = -1 := by
  unfold towards
  split_ifs
  · exact Or.inl rfl
  · exact Or.inr rfl

/-- A signed 32-bit coordinate. -/
def IsI32 (n : ℤ) : Prop := -2147483648 ≤ n ∧ n < 2147483648

instance (n : ℤ) : Decidable (IsI32 n) :=
  inferInstanceAs (Decidable (-2147483648 ≤ n ∧ n < 2147483648))

section

variable {x0 y0 x1 y1 : ℤ}

/-- The line between two points. -/
def segment (hx0 : IsI32 x0) (hy0 : IsI32 y0) (hx1 : IsI32 x1) (hy1 : IsI32 y1)
    (hx : |x1 - x0| ≤ 2 ^ 29) (hy : |y1 - y0| ≤ 2 ^ 29) : Segment where
  x0 := x0
  y0 := y0
  a := |x1 - x0|
  b := |y1 - y0|
  sx := towards x0 x1
  sy := towards y0 y1
  a_nonneg := abs_nonneg _
  b_nonneg := abs_nonneg _
  a_le := hx
  b_le := hy
  sx_eq := towards_eq x0 x1
  sy_eq := towards_eq y0 y1
  x0_range := hx0
  x1_range := by rw [add_towards_mul]; exact hx1
  y0_range := hy0
  y1_range := by rw [add_towards_mul]; exact hy1

theorem lineSlope_eq (hx0 : IsI32 x0) (hy0 : IsI32 y0) (hx1 : IsI32 x1) (hy1 : IsI32 y1)
    (hx : |x1 - x0| ≤ 2 ^ 29) (hy : |y1 - y0| ≤ 2 ^ 29) :
    lineSlope x0 y0 x1 y1 = some (segment hx0 hy0 hx1 hy1 hx hy).slope := by
  have hdx : (if x1 > x0 then checked (x1 - x0) else checked (x0 - x1)) = some |x1 - x0| := by
    split_ifs with hlt
    · rw [abs_of_nonneg (by omega)] at hx ⊢
      exact checked_of_range (by omega) (by omega)
    · rw [abs_of_nonpos (by omega)] at hx ⊢
      rw [neg_sub] at hx ⊢
      exact checked_of_range (by omega) (by omega)
  have hdy : (if y1 > y0 then checked (y0 - y1) else checked (y1 - y0)) = some (-|y1 - y0|) := by
    split_ifs with hlt
    · rw [abs_of_nonneg (by omega)] at hy ⊢
      rw [neg_sub]
      exact checked_of_range (by omega) (by omega)
    · rw [abs_of_nonpos (by omega)] at hy ⊢
      rw [neg_neg]
      exact checked_of_range (by omega) (by omega)
  rw [lineSlope, hdx, Option.bind_some, hdy, Option.map_some]
  rfl

/-- One plotted point comes after another: one step along the longer axis towards the end, and none or
one along the other. -/
def Nearer (x0 y0 x1 y1 : ℤ) (p q : ℤ × ℤ) : Prop :=
  if |y1 - y0| ≤ |x1 - x0| then
    q.1 = p.1 + towards x0 x1 ∧ (q.2 = p.2 ∨ q.2 = p.2 + towards y0 y1)
  else q.2 = p.2 + towards y0 y1 ∧ (q.1 = p.1 ∨ q.1 = p.1 + towards x0 x1)

/-- `fb_draw_line` reaches its loop with the pen at the start of the line. -/
theorem drawLine_eq (hx0 : IsI32 x0) (hy0 : IsI32 y0) (hx1 : IsI32 x1) (hy1 : IsI32 y1)
    (hx : |x1 - x0| ≤ 2 ^ 29) (hy : |y1 - y0| ≤ 2 ^ 29) {σ : Type} (plot : σ → ℤ → ℤ → σ) (s : σ)
    (fuel : ℕ) :
    drawLine plot s x0 y0 x1 y1 fuel =
      lineLoop plot (segment hx0 hy0 hx1 hy1 hx hy).slope x1 y1 fuel
        ((segment hx0 hy0 hx1 hy1 hx hy).pen 0 0) s := by
  have hdx := abs_nonneg (x1 - x0)
  have hdy := abs_nonneg (y1 - y0)
  have herr : checked (|x1 - x0| + -|y1 - y0|) = some (|x1 - x0| - |y1 - y0|) :=
    checked_of_range (by omega) (by omega)
  have hpen : (segment hx0 hy0 hx1 hy1 hx hy).pen 0 0 = ⟨x0, y0, |x1 - x0| - |y1 - y0|⟩ := by
    simp only [Segment.pen, Segment.offset, segment, mul_zero, zero_mul, add_zero, sub_zero]
  rw [drawLine, lineSlope_eq hx0 hy0 hx1 hy1 hx hy, Option.bind_some, hpen]
  exact congrArg (fun result ↦ Option.bind result _) herr

theorem towards_mul_self (start finish k : ℤ) :
    towards start finish * k * towards start finish = k := by
  rcases towards_eq start finish with h | h <;> rw [h] <;> ring

theorem foldl_plotted (points plotted : List (ℤ × ℤ)) :
    points.foldl (fun plotted p ↦ plotted ++ [(p.1, p.2)]) plotted = plotted ++ points := by
  induction points generalizing plotted with
  | nil => rw [List.foldl_nil, List.append_nil]
  | cons p points ih => rw [List.foldl_cons, ih, List.append_assoc, List.singleton_append]

/-- For all endpoints that are at most `2 ^ 29` apart along each axis. `fb_draw_line` returns, with no
overflow on the way, and there is a list of points that it plots, one after the other, on a screen of
pixels and in the memory of a framebuffer alike: it has one point
more than the longer axis has steps, runs from the first endpoint to the second, each point follows the
one before, and all of them are within half a pixel of the line. -/
theorem fbDrawLine_plots (hx0 : IsI32 x0) (hy0 : IsI32 y0) (hx1 : IsI32 x1) (hy1 : IsI32 y1)
    (hx : |x1 - x0| ≤ 2 ^ 29) (hy : |y1 - y0| ≤ 2 ^ 29) :
    ∃ points : List (ℤ × ℤ),
      (∀ fuel, points.length ≤ fuel →
        drawLine (fun plotted x y ↦ plotted ++ [(x, y)]) [] x0 y0 x1 y1 fuel = some points) ∧
      (∀ fb rgb fuel, points.length ≤ fuel → fbDrawLine fb x0 y0 x1 y1 rgb fuel =
        some (points.foldl (fun fb p ↦ fbPutPixel fb (u32 p.1) (u32 p.2) rgb) fb)) ∧
      (∀ info rgb fuel mem, points.length ≤ fuel → FbInfo.drawLine info fuel mem x0 y0 x1 y1 rgb =
        some (points.foldl (fun mem p ↦ info.putPixel mem (u32 p.1) (u32 p.2) rgb) mem)) ∧
      (points.length : ℤ) = max |x1 - x0| |y1 - y0| + 1 ∧
      points.head? = some (x0, y0) ∧ points.getLast? = some (x1, y1) ∧
      points.IsChain (Nearer x0 y0 x1 y1) ∧
      ∀ p ∈ points, 2 * |(p.1 - x0) * |y1 - y0| * towards x0 x1 -
        (p.2 - y0) * |x1 - x0| * towards y0 y1| ≤ max |x1 - x0| |y1 - y0| := by
  have hdx := abs_nonneg (x1 - x0)
  have hdy := abs_nonneg (y1 - y0)
  let l := segment hx0 hy0 hx1 hy1 hx hy
  have hzero : l.offset 0 0 = 0 := by simp [Segment.offset]
  have hstart : l.OnLine 0 0 :=
    ⟨le_rfl, hdx, le_rfl, hdy, by rw [hzero]; exact neg_nonpos.mpr (le_max_of_le_left hdx),
      by rw [hzero]; exact le_max_of_le_left hdx⟩
  have hrest : l.rest 0 0 = (max |x1 - x0| |y1 - y0|).toNat := by
    rw [Int.toNat_of_nonneg (le_max_of_le_left hdx)]
    change (if |y1 - y0| ≤ |x1 - x0| then |x1 - x0| - 0 else |y1 - y0| - 0) = _
    split_ifs with hmajor
    · rw [max_eq_left hmajor, sub_zero]
    · rw [max_eq_right (by omega), sub_zero]
  have hend : l.point l.a l.b = (x1, y1) :=
    Prod.ext (add_towards_mul x0 x1) (add_towards_mul y0 y1)
  have hbegin : l.point 0 0 = (x0, y0) := by
    simp only [Segment.point, mul_zero, add_zero]
    rfl
  obtain ⟨points, hlength, hhead, hlast, hchain, hall, hloop⟩ := Segment.lineLoop_run _ hstart hrest
  rw [hend] at hlast hloop
  rw [hbegin] at hhead
  refine ⟨points, fun fuel hfuel ↦ ?_, fun fb rgb fuel hfuel ↦ ?_, fun info rgb fuel mem hfuel ↦ ?_,
    ?_, hhead, hlast, hchain, ?_⟩
  · rw [drawLine_eq hx0 hy0 hx1 hy1 hx hy, hloop _ _ fuel (by omega), foldl_plotted,
      List.nil_append]
  · rw [fbDrawLine, drawLine_eq hx0 hy0 hx1 hy1 hx hy, hloop _ _ fuel (by omega)]
  · refine drawLine_of_checked info ?_
    rw [drawLine_eq hx0 hy0 hx1 hy1 hx hy, hloop _ _ fuel (by omega)]
  · rw [hlength, Nat.cast_succ, Int.toNat_of_nonneg (le_max_of_le_left hdx)]
  · intro p hp
    obtain ⟨u, v, honline, rfl⟩ := hall p hp
    have hoffset : ((l.point u v).1 - x0) * |y1 - y0| * towards x0 x1 -
        ((l.point u v).2 - y0) * |x1 - x0| * towards y0 y1 = l.offset u v := by
      have hu := towards_mul_self x0 x1 (u * |y1 - y0|)
      have hv := towards_mul_self y0 y1 (v * |x1 - x0|)
      change (x0 + towards x0 x1 * u - x0) * |y1 - y0| * towards x0 x1 -
        (y0 + towards y0 y1 * v - y0) * |x1 - x0| * towards y0 y1 =
          u * |y1 - y0| - v * |x1 - x0|
      linear_combination hu - hv
    have hnear := abs_le.mpr ⟨honline.low, honline.high⟩
    rw [abs_mul, abs_two] at hnear
    rw [hoffset]
    exact hnear

/-- The line from the origin to `(3, -1)`. -/
theorem fbDrawLine_plots_short :
    drawLine (fun plotted x y ↦ plotted ++ [(x, y)]) [] 0 0 3 (-1) 4 =
        some [(0, 0), (1, 0), (2, -1), (3, -1)] ∧
      ∃ points : List (ℤ × ℤ), (points.length : ℤ) = max |3 - 0| |-1 - 0| + 1 ∧
        points.getLast? = some (3, -1) := by
  have hi32 : ∀ n ∈ [(0 : ℤ), 3, -1], IsI32 n := by decide
  obtain ⟨points, -, -, -, hlength, -, hlast, -⟩ := fbDrawLine_plots (hi32 0 (by decide))
    (hi32 0 (by decide)) (hi32 3 (by decide)) (hi32 (-1) (by decide)) (by decide) (by decide)
  exact ⟨by decide +kernel, points, hlength, hlast⟩

end

end MegKer.Gui
