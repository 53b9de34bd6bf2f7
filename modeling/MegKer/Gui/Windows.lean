import MegKer.Drivers.Mouse
import MegKer.Gui.Framebuffer
import Mathlib.Data.List.Perm.Basic

/-!
# The windows

The windowing code of `gui/gui.c`: a few windows in stacking order, a cursor, and a window that follows
the cursor while the left button is held. Positions are signed and sizes are unsigned 32-bit values.
The array of windows is the list of those in use, and `drag_window = -1` is `none`.

`guiUpdate` is in two parts, as the source is: the input moves the cursor and the windows
(`guiInput`), and then the screen is drawn, unless that was done less than three ticks ago
(`guiDraw`).
-/

set_option autoImplicit false
set_option relaxedAutoImplicit false

namespace MegKer.Gui

open Foundation
open Drivers (Sample)

/-! ### The code -/

abbrev titlebarHeight : ℕ := 20

abbrev cursorSize : ℕ := 10

/-- `window_t`. -/
structure Window where
  x : ℤ
  y : ℤ
  w : ℕ
  h : ℕ
  color : ℕ
  title : List UInt8
  deriving DecidableEq, Repr, Inhabited

/-- The static variables of `gui/gui.c`. -/
structure GuiState where
  windows : List Window
  cursorX : ℤ
  cursorY : ℤ
  cursorButtons : UInt8
  prevLeftDown : Bool
  dragWindow : Option ℕ
  dragOffsetX : ℤ
  dragOffsetY : ℤ
  lastRedrawTick : ℕ
  deriving DecidableEq, Repr

/-- The variables before `gui_init`. -/
def GuiState.boot : GuiState where
  windows := []
  cursorX := 0
  cursorY := 0
  cursorButtons := 0
  prevLeftDown := false
  dragWindow := none
  dragOffsetX := 0
  dragOffsetY := 0
  lastRedrawTick := 0

/-- The loop of `raise_window`: `count` windows from `j` on move down by one place. -/
def shiftDown : ℕ → List Window → ℕ → List Window
  | 0, windows, _ => windows
  | count + 1, windows, j => shiftDown count (windows.set j (windows[j + 1]?.getD default)) (j + 1)

def raiseWindow (windows : List Window) (index : ℕ) : List Window :=
  let tmp := windows[index]?.getD default
  (shiftDown (windows.length - 1 - index) windows index).set (windows.length - 1) tmp

/-- `in_win`: the cursor is inside the window. -/
def inWin (g : GuiState) (w : Window) : Bool :=
  w.x ≤ g.cursorX && g.cursorX < i32 (w.x + i32 w.w) &&
    w.y ≤ g.cursorY && g.cursorY < i32 (w.y + i32 w.h)

/-- The cursor is in the rows of the title bar. -/
def onTitlebar (g : GuiState) (w : Window) : Bool := g.cursorY < i32 (w.y + titlebarHeight)

/-- The body of the loop of `handle_click`, for the window that was hit. -/
def clickWindow (g : GuiState) (i : ℕ) (w : Window) : GuiState :=
  let g :=
    if onTitlebar g w then
      { g with dragOffsetX := i32 (g.cursorX - w.x), dragOffsetY := i32 (g.cursorY - w.y) }
    else { g with windows := g.windows.set i { w with color := w.color ^^^ 0x00202020 } }
  { g with windows := raiseWindow g.windows i, dragWindow := some (g.windows.length - 1) }

/-- The loop of `handle_click`, over the windows below `i` from the top down. -/
def clickBelow (g : GuiState) : ℕ → GuiState
  | 0 => g
  | i + 1 => g.windows[i]?.elim (clickBelow g i) fun w ↦
      if inWin g w then clickWindow g i w else clickBelow g i

def handleClick (g : GuiState) : GuiState := clickBelow g g.windows.length

/-- The cursor follows the mouse. -/
def moveCursor (g : GuiState) : Option Sample → GuiState
  | none => g
  | some sample =>
    { g with cursorX := sample.x, cursorY := sample.y, cursorButtons := sample.buttons }

/-- The left button is held. -/
def leftDown (g : GuiState) : Bool := g.cursorButtons &&& 0x01 ≠ 0

/-- A press starts a drag, and a release ends it. -/
def press (g : GuiState) : GuiState :=
  let leftDown := leftDown g
  let g := if leftDown && !g.prevLeftDown then handleClick g else g
  let g := if !leftDown then { g with dragWindow := none } else g
  { g with prevLeftDown := leftDown }

/-- The window that is dragged follows the cursor. -/
def drag (g : GuiState) : GuiState :=
  g.dragWindow.elim g fun i ↦
    { g with windows := g.windows.modify i fun w ↦
        { w with x := i32 (g.cursorX - g.dragOffsetX), y := i32 (g.cursorY - g.dragOffsetY) } }

/-- `gui_update` up to the drawing, with what `arch_mouse_get_state` reports. -/
def guiInput (g : GuiState) (mouse : Option Sample) : GuiState := drag (press (moveCursor g mouse))

section Drawing

variable (glyph : UInt8 → ℕ → UInt8)

def drawWindow (fb : Framebuffer) (win : Window) : Framebuffer :=
  let fb := fbFillRect fb (u32 win.x) (u32 win.y) win.w win.h win.color
  let fb := fbFillRect fb (u32 win.x) (u32 win.y) win.w titlebarHeight 0x00222222
  fbDrawString glyph fb (wrap32 (u32 win.x + 4)) (wrap32 (u32 win.y + 6)) win.title
    0x00FFFFFF 0x00222222

def drawCursor (g : GuiState) (fb : Framebuffer) : Framebuffer :=
  let fb := fbFillRect fb (u32 g.cursorX) (u32 g.cursorY) cursorSize cursorSize 0x00FFFFFF
  fbFillRect fb (wrap32 (u32 g.cursorX + 1)) (wrap32 (u32 g.cursorY + 1)) (cursorSize - 2)
    (cursorSize - 2) 0x00000000

/-- The drawing in `gui_update`. -/
def guiDraw (g : GuiState) (fb : Framebuffer) : Framebuffer :=
  let fb := fbFillRect fb 0 0 fb.width fb.height 0x00102030
  drawCursor g (g.windows.foldl (drawWindow glyph) fb)

/-- The screen is drawn again when three ticks have passed. -/
def redraws (g : GuiState) (now : ℕ) : Bool := 3 ≤ wrapSub now g.lastRedrawTick

def guiUpdate (g : GuiState) (fb : Framebuffer) (mouse : Option Sample) (now : ℕ) : GuiState × Framebuffer :=
  if fb.present = false then (g, fb)
  else
    let g := guiInput g mouse
    if redraws g now then ({ g with lastRedrawTick := now }, guiDraw glyph g fb) else (g, fb)

end Drawing

/-- The two windows of `gui_init`. -/
def firstWindows : List Window :=
  [{ x := 40, y := 40, w := 220, h := 140, color := 0x00335577
     title := "MEGKER".toUTF8.data.toList },
   { x := 300, y := 100, w := 200, h := 120, color := 0x00553333
     title := "WINDOW 2".toUTF8.data.toList }]

def guiInit (g : GuiState) (fb : Framebuffer) : GuiState :=
  if fb.present = false then g
  else
    { g with cursorX := i32 (fb.width / 2 : ℕ)
             cursorY := i32 (fb.height / 2 : ℕ)
             windows := firstWindows }

/-! ### The screen keeps its size -/

section Screen

open Framebuffer

variable (glyph : UInt8 → ℕ → UInt8)

theorem sameScreen_drawWindow (fb : Framebuffer) (win : Window) :
    SameScreen fb (drawWindow glyph fb win) :=
  ((sameScreen_fillRect fb _ _ _ _ _).trans (sameScreen_fillRect _ _ _ _ _ _)).trans
    (sameScreen_drawString _ _ _ _ _ _)

theorem sameScreen_drawCursor (g : GuiState) (fb : Framebuffer) :
    SameScreen fb (drawCursor g fb) :=
  (sameScreen_fillRect fb _ _ _ _ _).trans (sameScreen_fillRect _ _ _ _ _ _)

theorem sameScreen_guiDraw (g : GuiState) (fb : Framebuffer) :
    SameScreen fb (guiDraw glyph g fb) :=
  ((sameScreen_fillRect fb _ _ _ _ _).trans
    (sameScreen_foldl (sameScreen_drawWindow glyph) g.windows _)).trans
      (sameScreen_drawCursor g _)

theorem sameScreen_guiUpdate (g : GuiState) (fb : Framebuffer) (mouse : Option Sample) (now : ℕ) :
    SameScreen fb (guiUpdate glyph g fb mouse now).2 := by
  rw [guiUpdate]
  split_ifs
  · exact SameScreen.refl fb
  · dsimp only
    split_ifs
    · exact sameScreen_guiDraw glyph _ fb
    · exact SameScreen.refl fb

end Screen

/-! ### Raising a window -/

/-- After `count` rounds the window at `j` is gone and the next `count` windows have moved down. -/
theorem shiftDown_append (front : List Window) (w : Window) (back rest : List Window) :
    ∃ last, shiftDown back.length (front ++ w :: (back ++ rest)) front.length =
      front ++ (back ++ last :: rest) := by
  induction back generalizing front w with
  | nil => exact ⟨w, rfl⟩
  | cons next back ih =>
    have hset : (front ++ w :: (next :: back ++ rest)).set front.length
        ((front ++ w :: (next :: back ++ rest))[front.length + 1]?.getD default) =
          (front ++ [next]) ++ next :: (back ++ rest) := by
      have hnext : (front ++ w :: (next :: back ++ rest))[front.length + 1]? = some next := by
        rw [List.getElem?_append_right (Nat.le_add_right _ 1), Nat.add_sub_cancel_left]
        rfl
      rw [hnext, List.set_append_right _ _ le_rfl, Nat.sub_self]
      simp
    obtain ⟨last, hlast⟩ := ih (front ++ [next]) next
    refine ⟨last, ?_⟩
    rw [List.length_cons, shiftDown, hset]
    rw [List.length_append, List.length_singleton] at hlast
    rw [hlast]
    simp

/-- The window goes to the end of the list. -/
theorem raiseWindow_append (front : List Window) (w : Window) (back : List Window) :
    raiseWindow (front ++ w :: back) front.length = front ++ back ++ [w] := by
  have hlength : (front ++ w :: back).length - 1 - front.length = back.length := by
    rw [List.length_append, List.length_cons]
    omega
  have hlast : (front ++ w :: back).length - 1 = (front ++ back).length := by
    rw [List.length_append, List.length_cons, List.length_append]
    omega
  obtain ⟨last, hshift⟩ := shiftDown_append front w back []
  rw [List.append_nil] at hshift
  rw [raiseWindow, hlength, hshift, List.getElem?_append_right le_rfl, Nat.sub_self, hlast,
    ← List.append_assoc, List.set_append_right _ _ le_rfl, Nat.sub_self]
  rfl

/-! ### Clicks -/

/-- The topmost window under the cursor. -/
def topmost (g : GuiState) : Option Window := g.windows.reverse.find? (inWin g)

theorem topmost_eq_none {g : GuiState} (h : topmost g = none) : ∀ w ∈ g.windows, inWin g w = false := by
  intro w hw
  have hnot := List.find?_eq_none.mp h w (List.mem_reverse.mpr hw)
  exact Bool.eq_false_iff.mpr hnot

/-- The topmost window is the last one in the list that contains the cursor. -/
theorem topmost_eq_some {g : GuiState} {w : Window} (h : topmost g = some w) :
    ∃ front back, g.windows = front ++ w :: back ∧ inWin g w = true ∧
      ∀ v ∈ back, inWin g v = false := by
  obtain ⟨hin, back, front, hsplit, hback⟩ := List.find?_eq_some_iff_append.mp h
  refine ⟨front.reverse, back.reverse, ?_, hin, fun v hv ↦ ?_⟩
  · rw [← List.reverse_reverse g.windows, hsplit]
    simp
  · simpa using hback v (List.mem_reverse.mp hv)

/-- The loop passes over the windows that do not contain the cursor. -/
theorem clickBelow_skip {g : GuiState} {front back : List Window}
    (hwindows : g.windows = front ++ back) (hback : ∀ v ∈ back, inWin g v = false) {n : ℕ}
    (hn : n ≤ back.length) : clickBelow g (front.length + n) = clickBelow g front.length := by
  induction n with
  | zero => rfl
  | succ n ih =>
    have hget : g.windows[front.length + n]? = some (back.get ⟨n, hn⟩) := by
      rw [hwindows, List.getElem?_append_right (Nat.le_add_right _ _), Nat.add_sub_cancel_left]
      exact List.getElem?_eq_getElem hn
    have hskip : inWin g (back.get ⟨n, hn⟩) = false := hback _ (List.get_mem back ⟨n, hn⟩)
    rw [← Nat.add_assoc, clickBelow, hget, Option.elim_some, hskip, if_neg Bool.false_ne_true]
    exact ih (Nat.le_of_succ_le hn)

/-- A click beside all windows does nothing. -/
theorem handleClick_of_none {g : GuiState} (h : topmost g = none) : handleClick g = g := by
  have hwindows : g.windows = [] ++ g.windows := rfl
  have hskip := clickBelow_skip hwindows (topmost_eq_none h) le_rfl
  rw [List.length_nil, Nat.zero_add] at hskip
  exact hskip

/-- A click goes to the topmost window under the cursor. -/
theorem handleClick_of_some {g : GuiState} {front back : List Window} {w : Window}
    (hwindows : g.windows = front ++ w :: back) (hin : inWin g w = true)
    (hback : ∀ v ∈ back, inWin g v = false) : handleClick g = clickWindow g front.length w := by
  have hlength : g.windows.length = (front ++ [w]).length + back.length := by
    rw [hwindows, List.length_append, List.length_append, List.length_cons, List.length_singleton]
    omega
  have hsplit : g.windows = (front ++ [w]) ++ back := by
    rw [hwindows, List.append_assoc]
    rfl
  have hget : g.windows[front.length]? = some w := by
    rw [hwindows, List.getElem?_append_right le_rfl, Nat.sub_self]
    rfl
  rw [handleClick, hlength, clickBelow_skip hsplit hback le_rfl, List.length_append,
    List.length_singleton, clickBelow, hget, Option.elim_some, if_pos hin]

/-- The window after a click on it: a click on the body changes its colour. -/
def clicked (g : GuiState) (w : Window) : Window :=
  if onTitlebar g w then w else { w with color := w.color ^^^ 0x00202020 }

/-- The windows after a click on the topmost one. -/
theorem clickWindow_windows {g : GuiState} {front back : List Window} {w : Window}
    (hwindows : g.windows = front ++ w :: back) :
    (clickWindow g front.length w).windows = front ++ back ++ [clicked g w] ∧
      (clickWindow g front.length w).dragWindow = some (front ++ back).length := by
  have hlast : (front ++ w :: back).length - 1 = (front ++ back).length := by
    rw [List.length_append, List.length_cons, List.length_append]
    omega
  rw [clickWindow, clicked]
  by_cases hbar : onTitlebar g w = true
  · rw [if_pos hbar, if_pos hbar, hwindows]
    exact ⟨raiseWindow_append front w back, congrArg some hlast⟩
  · rw [if_neg hbar, if_neg hbar, hwindows, List.set_append_right _ _ le_rfl, Nat.sub_self,
      List.set_cons_zero]
    refine ⟨raiseWindow_append front _ back, congrArg some ?_⟩
    rw [List.length_append, List.length_cons, List.length_append]
    omega

/-! ### What the input of an update does -/

@[simp] theorem moveCursor_windows (g : GuiState) (mouse : Option Sample) :
    (moveCursor g mouse).windows = g.windows := by
  cases mouse <;> rfl

@[simp] theorem moveCursor_prevLeftDown (g : GuiState) (mouse : Option Sample) :
    (moveCursor g mouse).prevLeftDown = g.prevLeftDown := by
  cases mouse <;> rfl

@[simp] theorem moveCursor_dragWindow (g : GuiState) (mouse : Option Sample) :
    (moveCursor g mouse).dragWindow = g.dragWindow := by
  cases mouse <;> rfl

@[simp] theorem moveCursor_dragOffsetX (g : GuiState) (mouse : Option Sample) :
    (moveCursor g mouse).dragOffsetX = g.dragOffsetX := by
  cases mouse <;> rfl

@[simp] theorem moveCursor_dragOffsetY (g : GuiState) (mouse : Option Sample) :
    (moveCursor g mouse).dragOffsetY = g.dragOffsetY := by
  cases mouse <;> rfl

/-- The button is up; or it was down before; or it goes down beside all windows, or on one. -/
theorem press_cases (g : GuiState) :
    (leftDown g = false ∧ press g = { g with dragWindow := none, prevLeftDown := false }) ∨
      (leftDown g = true ∧ g.prevLeftDown = true ∧ press g = { g with prevLeftDown := true }) ∨
      (leftDown g = true ∧ g.prevLeftDown = false ∧ topmost g = none ∧
        press g = { g with prevLeftDown := true }) ∨
      ∃ front w back, leftDown g = true ∧ g.prevLeftDown = false ∧ topmost g = some w ∧
        g.windows = front ++ w :: back ∧ inWin g w = true ∧ (∀ v ∈ back, inWin g v = false) ∧
        press g = { clickWindow g front.length w with prevLeftDown := true } := by
  cases hdown : leftDown g with
  | false =>
    refine Or.inl ⟨rfl, ?_⟩
    rw [press, hdown]
    rfl
  | true =>
    refine Or.inr ?_
    cases hprev : g.prevLeftDown with
    | true =>
      refine Or.inl ⟨rfl, rfl, ?_⟩
      rw [press, hdown, hprev]
      rfl
    | false =>
      refine Or.inr ?_
      have hpress : press g = { handleClick g with prevLeftDown := true } := by
        rw [press, hdown, hprev]
        rfl
      cases htop : topmost g with
      | none =>
        refine Or.inl ⟨rfl, rfl, rfl, ?_⟩
        rw [hpress, handleClick_of_none htop]
      | some w =>
        obtain ⟨front, back, hwindows, hin, hback⟩ := topmost_eq_some htop
        refine Or.inr ⟨front, w, back, rfl, rfl, rfl, hwindows, hin, hback, ?_⟩
        rw [hpress, handleClick_of_some hwindows hin hback]

/-- Dragging the last window. -/
theorem drag_windows {g : GuiState} {rest : List Window} {w : Window}
    (hwindows : g.windows = rest ++ [w]) (hdrag : g.dragWindow = some rest.length) :
    (drag g).windows = rest ++
      [{ w with x := i32 (g.cursorX - g.dragOffsetX), y := i32 (g.cursorY - g.dragOffsetY) }] := by
  rw [drag, hdrag, Option.elim_some, hwindows]
  change (rest ++ [w]).modify rest.length _ = _
  rw [List.modify_eq_take_drop, List.take_left, List.drop_left]
  rfl

/-- A window that is already where the cursor takes it stays. -/
theorem drag_eq_self {g : GuiState} {rest : List Window} {w : Window}
    (hwindows : g.windows = rest ++ [w]) (hdrag : g.dragWindow = some rest.length)
    (hx : i32 (g.cursorX - g.dragOffsetX) = w.x) (hy : i32 (g.cursorY - g.dragOffsetY) = w.y) :
    drag g = g := by
  have hafter := drag_windows hwindows hdrag
  rw [hx, hy] at hafter
  have hfield : drag g = { g with windows := (drag g).windows } := by
    rw [drag, hdrag]
    rfl
  rw [hfield, hafter, ← hwindows]

end MegKer.Gui
