import MegKer.Drivers.MousePackets
import MegKer.Drivers.VirtioMouse
import MegKer.Gui.Compositor

/-!
# The stack of windows

The list of windows is their stacking order, and `drag_window` is an index into it. Raising a window
shifts the list in place, so the index and the order have to be kept together: the invariant
(`Stacked`) is that the windows are those of `gui_init` in some order, up to their positions and
colours, that only the top window is dragged, and that nothing is dragged while the button is up.

The test for the window under the cursor adds the position and the size of a window in signed 32-bit
arithmetic. As long as the mouse reports positions on the screen, which both drivers do, the sum does
not overflow (`Near`), and the test is for the rectangle of the window (`inWin_iff`).
-/

set_option autoImplicit false
set_option relaxedAutoImplicit false

namespace MegKer.Gui

open Foundation Framebuffer
open Drivers (Sample VirtioMouse mouseInit mouseIrqs bounded_irqs onScreen_mouseInit onScreen_after)

/-! ### Windows and their order -/

/-- What stays the same of a window. -/
def Window.shape (w : Window) : List UInt8 × ℕ × ℕ := (w.title, w.w, w.h)

/-- The last window that is hit goes to the top, and the others stay in their order, as they are. When
no window is hit, nothing changes. -/
def Restacks (hit : Window → Prop) (before after : List Window) : Prop :=
  (∀ w ∈ before, ¬ hit w) ∧ after = before ∨
    ∃ front w back raised, before = front ++ w :: back ∧ hit w ∧ (∀ v ∈ back, ¬ hit v) ∧
      after = front ++ back ++ [raised] ∧ raised.shape = w.shape

/-- The left button goes down. -/
def PressEdge (g : GuiState) (mouse : Option Sample) : Prop :=
  leftDown g = false ∧ leftDown (moveCursor g mouse) = true

theorem Restacks.congr {hit hit' : Window → Prop} {before after : List Window}
    (h : Restacks hit before after) (hsame : ∀ w ∈ before, (hit w ↔ hit' w)) :
    Restacks hit' before after := by
  rcases h with ⟨hmiss, hafter⟩ | ⟨front, w, back, raised, hbefore, hhit, hback, hafter, hshape⟩
  · exact Or.inl ⟨fun w hw ↦ mt (hsame w hw).mpr (hmiss w hw), hafter⟩
  · have hw : w ∈ before := by
      rw [hbefore]
      exact List.mem_append_right front List.mem_cons_self
    have hv : ∀ v ∈ back, v ∈ before := fun v hv ↦ by
      rw [hbefore]
      exact List.mem_append_right front (List.mem_cons_of_mem w hv)
    exact Or.inr ⟨front, w, back, raised, hbefore, (hsame w hw).mp hhit,
      fun v hmem ↦ mt (hsame v (hv v hmem)).mpr (hback v hmem), hafter, hshape⟩

/-- The windows are the same ones afterwards. -/
theorem Restacks.perm {hit : Window → Prop} {before after : List Window}
    (h : Restacks hit before after) :
    (after.map Window.shape).Perm (before.map Window.shape) := by
  rcases h with ⟨-, rfl⟩ | ⟨front, w, back, raised, rfl, -, -, rfl, hshape⟩
  · exact List.Perm.refl _
  · rw [List.append_assoc, List.map_append, List.map_append, List.map_append,
      List.map_singleton, hshape]
    exact (List.perm_append_singleton _ _).append_left _

/-! ### The invariant -/

/-- The windows are the `initial` ones, and at most the top one is dragged. -/
structure Stacked (initial : List Window) (g : GuiState) : Prop where
  shapes : (g.windows.map Window.shape).Perm (initial.map Window.shape)
  top : ∀ i, g.dragWindow = some i → ∃ rest w, g.windows = rest ++ [w] ∧ i = rest.length
  up : leftDown g = false → g.dragWindow = none
  prev : g.prevLeftDown = leftDown g

@[simp] theorem shape_clicked (g : GuiState) (w : Window) : (clicked g w).shape = w.shape := by
  rw [clicked]
  split_ifs
  · rfl
  · rfl

theorem drag_of_none {g : GuiState} (h : g.dragWindow = none) : drag g = g := by
  rw [drag, h, Option.elim_none]

/-- Dragging changes nothing but the windows. -/
theorem drag_fields (g : GuiState) : ∃ windows, drag g = { g with windows := windows } := by
  rcases Option.eq_none_or_eq_some g.dragWindow with h | ⟨i, h⟩
  · exact ⟨g.windows, drag_of_none h⟩
  · rw [drag, h]
    exact ⟨_, rfl⟩

theorem leftDown_clickWindow (g : GuiState) (i : ℕ) (w : Window) :
    leftDown (clickWindow g i w) = leftDown g := by
  rw [clickWindow]
  split_ifs
  · rfl
  · rfl

section Step

variable {initial : List Window} {g : GuiState}

/-- Dragging keeps the invariant. -/
theorem Stacked.drag (h : Stacked initial g) : Stacked initial (drag g) := by
  cases hdrag : g.dragWindow with
  | none =>
    rw [drag_of_none hdrag]
    exact h
  | some i =>
    obtain ⟨rest, w, hwindows, rfl⟩ := h.top i hdrag
    have hafter := drag_windows hwindows hdrag
    have hshapes := h.shapes
    obtain ⟨windows, hfields⟩ := drag_fields g
    rw [hfields] at hafter ⊢
    change windows = _ at hafter
    refine ⟨?_, fun j hj ↦ ?_, h.up, h.prev⟩
    · change (windows.map Window.shape).Perm _
      rw [hafter, List.map_append]
      rw [hwindows, List.map_append] at hshapes
      exact hshapes
    · obtain rfl := Option.some.inj (hdrag.symm.trans hj)
      exact ⟨rest, _, hafter, rfl⟩

/-- The input of an update restacks the windows when the button goes down, and else leaves them in
their order. -/
theorem Stacked.input (h : Stacked initial g) (mouse : Option Sample) :
    Stacked initial (guiInput g mouse) ∧
      (PressEdge g mouse →
        Restacks (fun w ↦ inWin (moveCursor g mouse) w = true) g.windows
          (guiInput g mouse).windows) := by
  have hwindows := moveCursor_windows g mouse
  have hprev := moveCursor_prevLeftDown g mouse
  have hdrag := moveCursor_dragWindow g mouse
  rw [guiInput]
  generalize hmoved : moveCursor g mouse = moved at hwindows hprev hdrag ⊢
  have hshapes := h.shapes
  have htop := h.top
  rw [← hwindows, ← hdrag] at htop
  rw [← hwindows] at hshapes
  rcases press_cases moved with ⟨hup, hpress⟩ | ⟨hdown, hheld, hpress⟩ |
    ⟨hdown, hfirst, hmiss, hpress⟩ | ⟨front, w, back, hdown, hfirst, -, hsplit, hin, hback, hpress⟩
  · -- The button is up, so nothing is dragged.
    rw [hpress, drag_of_none rfl]
    refine ⟨⟨hshapes, fun i hi ↦ absurd hi.symm (Option.some_ne_none i), fun _ ↦ rfl, hup.symm⟩,
      fun hedge ↦ ?_⟩
    rw [PressEdge, hmoved, hup] at hedge
    exact absurd hedge.2 Bool.false_ne_true
  · -- The button was down before.
    rw [hpress]
    refine ⟨Stacked.drag ⟨hshapes, htop, fun hup ↦ ?_, hdown.symm⟩, fun hedge ↦ ?_⟩
    · exact absurd (hdown.symm.trans hup) Bool.noConfusion
    · have hbefore := h.prev.symm.trans (hprev.symm.trans hheld)
      exact absurd (hbefore.symm.trans hedge.1) Bool.noConfusion
  · -- A press beside all windows: the button was up, so nothing is dragged.
    have hidle : moved.dragWindow = none := by
      rw [hdrag]
      exact h.up (h.prev.symm.trans (hprev.symm.trans hfirst))
    rw [hpress, drag_of_none (g := { moved with prevLeftDown := true }) hidle]
    refine ⟨⟨hshapes, htop, fun _ ↦ hidle, hdown.symm⟩, fun _ ↦ Or.inl ⟨fun w hw ↦ ?_, hwindows⟩⟩
    rw [← hwindows] at hw
    exact Bool.eq_false_iff.mp (topmost_eq_none hmiss w hw)
  · -- A press on a window.
    obtain ⟨hclick, hindex⟩ := clickWindow_windows hsplit
    rw [hpress]
    have hmiss : ∀ v ∈ back, ¬ inWin moved v = true := fun v hv ↦ Bool.eq_false_iff.mp (hback v hv)
    have hraised : Restacks (fun w ↦ inWin moved w = true) moved.windows
        (clickWindow moved front.length w).windows :=
      Or.inr ⟨front, w, back, clicked moved w, hsplit, hin, hmiss, hclick, shape_clicked moved w⟩
    have hpressed : Stacked initial { clickWindow moved front.length w with prevLeftDown := true } := by
      refine ⟨hraised.perm.trans hshapes,
        fun i hi ↦ ⟨front ++ back, clicked moved w, hclick, ?_⟩, fun hup ↦ ?_, ?_⟩
      · exact Option.some.inj (hi.symm.trans hindex)
      · change leftDown (clickWindow moved front.length w) = false at hup
        rw [leftDown_clickWindow, hdown] at hup
        exact absurd hup Bool.noConfusion
      · change true = leftDown (clickWindow moved front.length w)
        rw [leftDown_clickWindow, hdown]
    refine ⟨hpressed.drag, fun _ ↦ Or.inr ?_⟩
    have hafter := drag_windows (g := { clickWindow moved front.length w with prevLeftDown := true })
      hclick hindex
    exact ⟨front, w, back, _, hwindows.symm.trans hsplit, hin, hmiss, hafter, shape_clicked moved w⟩

end Step

/-! ### The test for the window under the cursor -/

/-- The windows and the cursor are far from the ends of the signed range, and the offsets are those of
a cursor in a window. -/
structure Near (g : GuiState) : Prop where
  sizes : ∀ w ∈ g.windows, w.w ≤ 220 ∧ w.h ≤ 140
  windows : ∀ w ∈ g.windows,
    (-220 ≤ w.x ∧ w.x < 1073741824) ∧ -140 ≤ w.y ∧ w.y < 1073741824
  cursor : (0 ≤ g.cursorX ∧ g.cursorX < 1073741824) ∧ 0 ≤ g.cursorY ∧ g.cursorY < 1073741824
  offset : (0 ≤ g.dragOffsetX ∧ g.dragOffsetX < 220) ∧ 0 ≤ g.dragOffsetY ∧ g.dragOffsetY < 140

section Test

variable {g : GuiState}

/-- The test of `handle_click` is for the rectangle of the window. -/
theorem inWin_iff (h : Near g) {w : Window} (hw : w ∈ g.windows) :
    inWin g w = true ↔ w.Covers g.cursorX g.cursorY := by
  obtain ⟨hwidth, hheight⟩ := h.sizes w hw
  obtain ⟨hx, hy⟩ := h.windows w hw
  have hright : i32 (w.x + i32 w.w) = w.x + w.w := by
    rw [i32_of_range (n := w.w) (by omega) (by omega), i32_of_range (by omega) (by omega)]
  have hlower : i32 (w.y + i32 w.h) = w.y + w.h := by
    rw [i32_of_range (n := w.h) (by omega) (by omega), i32_of_range (by omega) (by omega)]
  rw [inWin, hright, hlower, Window.Covers]
  simp only [Bool.and_eq_true, decide_eq_true_eq, and_assoc]

/-- The cursor moves on the screen. -/
theorem Near.moveCursor (h : Near g) {fb : Framebuffer} (hheight : fb.height ≤ 1073741824)
    {mouse : Option Sample} (hmouse : ∀ sample ∈ mouse, OnScreen fb sample) :
    Near (moveCursor g mouse) := by
  cases mouse with
  | none => exact h
  | some sample =>
    obtain ⟨hx, hy, -⟩ := hmouse sample rfl
    have hrow := fb.row_le
    have hpitch := fb.pitch_lt
    refine ⟨h.sizes, h.windows, ?_, h.offset⟩
    change (0 ≤ sample.x ∧ sample.x < 1073741824) ∧ 0 ≤ sample.y ∧ sample.y < 1073741824
    omega

theorem Near.clickWindow (h : Near g) {front back : List Window} {w : Window}
    (hsplit : g.windows = front ++ w :: back) (hin : inWin g w = true) :
    Near (clickWindow g front.length w) := by
  have hmem : w ∈ g.windows := by
    rw [hsplit]
    exact List.mem_append_right front List.mem_cons_self
  obtain ⟨hleft, hright, hupper, hlower⟩ := (inWin_iff h hmem).mp hin
  have hwindow := h.windows w hmem
  have hsize := h.sizes w hmem
  have hcursor := h.cursor
  have hkept : ∀ P : Window → Prop, (∀ v ∈ g.windows, P v) → P (clicked g w) →
      ∀ v ∈ (Gui.clickWindow g front.length w).windows, P v := fun P hall hlast v hv ↦ by
    rw [(clickWindow_windows hsplit).1] at hv
    rw [hsplit] at hall
    rcases List.mem_append.mp hv with hv | hv
    · refine hall v ?_
      rcases List.mem_append.mp hv with hv | hv
      · exact List.mem_append_left _ hv
      · exact List.mem_append_right front (List.mem_cons_of_mem w hv)
    · rw [List.mem_singleton.mp hv]
      exact hlast
  have hclicked : (clicked g w).x = w.x ∧ (clicked g w).y = w.y ∧ (clicked g w).w = w.w ∧
      (clicked g w).h = w.h := by
    rw [clicked]
    split_ifs <;> exact ⟨rfl, rfl, rfl, rfl⟩
  refine ⟨hkept _ h.sizes ?_, hkept _ h.windows ?_, ?_, ?_⟩
  · rw [hclicked.2.2.1, hclicked.2.2.2]
    exact hsize
  · rw [hclicked.1, hclicked.2.1]
    exact hwindow
  · rw [Gui.clickWindow]
    split_ifs <;> exact h.cursor
  · rw [Gui.clickWindow]
    split_ifs
    · change (0 ≤ i32 (g.cursorX - w.x) ∧ i32 (g.cursorX - w.x) < 220) ∧
        0 ≤ i32 (g.cursorY - w.y) ∧ i32 (g.cursorY - w.y) < 140
      rw [i32_of_range (by omega) (by omega), i32_of_range (by omega) (by omega)]
      omega
    · exact h.offset

theorem Near.press (h : Near g) : Near (press g) := by
  rcases press_cases g with ⟨-, hpress⟩ | ⟨-, -, hpress⟩ | ⟨-, -, -, hpress⟩ |
    ⟨front, w, back, -, -, -, hsplit, hin, -, hpress⟩
  · rw [hpress]
    exact ⟨h.1, h.2, h.3, h.4⟩
  · rw [hpress]
    exact ⟨h.1, h.2, h.3, h.4⟩
  · rw [hpress]
    exact ⟨h.1, h.2, h.3, h.4⟩
  · obtain ⟨hsizes, hwindows, hcursor, hoffset⟩ := h.clickWindow hsplit hin
    rw [hpress]
    exact ⟨hsizes, hwindows, hcursor, hoffset⟩

theorem Near.drag (h : Near g) : Near (drag g) := by
  cases hdrag : g.dragWindow with
  | none =>
    rw [drag_of_none hdrag]
    exact h
  | some i =>
    have hcursor := h.cursor
    have hoffset := h.offset
    rw [Gui.drag, hdrag, Option.elim_some]
    refine ⟨fun v hv ↦ ?_, fun v hv ↦ ?_, h.cursor, h.offset⟩
    · rcases mem_modify hv with hv | ⟨w, hw, rfl⟩
      · exact h.sizes v hv
      · exact h.sizes w hw
    · rcases mem_modify hv with hv | ⟨w, hw, rfl⟩
      · exact h.windows v hv
      · change (-220 ≤ i32 (g.cursorX - g.dragOffsetX) ∧ i32 (g.cursorX - g.dragOffsetX) < 1073741824) ∧
          -140 ≤ i32 (g.cursorY - g.dragOffsetY) ∧ i32 (g.cursorY - g.dragOffsetY) < 1073741824
        rw [i32_of_range (by omega) (by omega), i32_of_range (by omega) (by omega)]
        omega

end Test

/-! ### Whole runs -/

section Runs

variable (glyph : UInt8 → ℕ → UInt8)

/-- The invariant of all runs: without a framebuffer there are no windows. -/
structure StackRun (fb : Framebuffer) (d : Desktop) : Prop where
  stacked : Stacked (Desktop.init fb).gui.windows d.gui
  screen : SameScreen fb d.fb
  absent : fb.present = false → d.gui.windows = []

/-- The invariant of the runs with reports on the screen. -/
structure NearRun (fb : Framebuffer) (d : Desktop) : Prop where
  run : StackRun fb d
  near : Near d.gui

/-- The state after `gui_init`. -/
theorem init_gui (fb : Framebuffer) :
    (fb.present = false ∧ (Desktop.init fb).gui = GuiState.boot) ∨
      (fb.present = true ∧ (Desktop.init fb).gui = { GuiState.boot with
        cursorX := i32 (fb.width / 2 : ℕ)
        cursorY := i32 (fb.height / 2 : ℕ)
        windows := firstWindows }) := by
  cases hpresent : fb.present with
  | false => exact Or.inl ⟨rfl, if_pos hpresent⟩
  | true => exact Or.inr ⟨rfl, if_neg (by simp [hpresent])⟩

theorem stackRun_init (fb : Framebuffer) : StackRun fb (Desktop.init fb) := by
  have hfields : (Desktop.init fb).gui.dragWindow = none ∧
      (Desktop.init fb).gui.prevLeftDown = false ∧ (Desktop.init fb).gui.cursorButtons = 0 := by
    rcases init_gui fb with ⟨-, hinit⟩ | ⟨-, hinit⟩
    · rw [hinit]
      exact ⟨rfl, rfl, rfl⟩
    · rw [hinit]
      exact ⟨rfl, rfl, rfl⟩
  obtain ⟨hdrag, hprev, hbuttons⟩ := hfields
  refine ⟨⟨List.Perm.refl _, fun i hi ↦ ?_, fun _ ↦ hdrag, ?_⟩, SameScreen.refl fb,
    fun habsent ↦ ?_⟩
  · exact absurd (hdrag.symm.trans hi) (Option.some_ne_none i).symm
  · rw [hprev, leftDown, hbuttons]
    rfl
  · rcases init_gui fb with ⟨-, hinit⟩ | ⟨hpresent, -⟩
    · rw [hinit]
      rfl
    · exact absurd (habsent.symm.trans hpresent) Bool.noConfusion

theorem near_init {fb : Framebuffer} (hheight : fb.height ≤ 1073741824) :
    Near (Desktop.init fb).gui := by
  have hrow := fb.row_le
  have hpitch := fb.pitch_lt
  rcases init_gui fb with ⟨-, hinit⟩ | ⟨-, hinit⟩
  · rw [hinit]
    exact ⟨fun w hw ↦ absurd hw List.not_mem_nil, fun w hw ↦ absurd hw List.not_mem_nil, by decide,
      by decide⟩
  · rw [hinit]
    refine ⟨?_, ?_, ?_, ?_⟩
    · change ∀ w ∈ firstWindows, w.w ≤ 220 ∧ w.h ≤ 140
      decide
    · change ∀ w ∈ firstWindows,
        (-220 ≤ w.x ∧ w.x < 1073741824) ∧ -140 ≤ w.y ∧ w.y < 1073741824
      decide
    · change (0 ≤ i32 (fb.width / 2 : ℕ) ∧ i32 (fb.width / 2 : ℕ) < 1073741824) ∧
        0 ≤ i32 (fb.height / 2 : ℕ) ∧ i32 (fb.height / 2 : ℕ) < 1073741824
      rw [i32_of_range (by omega) (by omega), i32_of_range (by omega) (by omega)]
      omega
    · change ((0 : ℤ) ≤ 0 ∧ (0 : ℤ) < 220) ∧ (0 : ℤ) ≤ 0 ∧ (0 : ℤ) < 140
      decide

/-- The step lemma. -/
theorem StackRun.update {fb : Framebuffer} {d : Desktop} (h : StackRun fb d) (input : UpdateInput) :
    StackRun fb (d.update glyph input) ∧
      (PressEdge d.gui input.mouse →
        Restacks (fun w ↦ inWin (moveCursor d.gui input.mouse) w = true) d.gui.windows
          (d.update glyph input).gui.windows) := by
  have hscreen := h.screen.trans (sameScreen_guiUpdate glyph d.gui d.fb input.mouse input.now)
  cases hpresent : d.fb.present with
  | false =>
    have hwindows := h.absent (h.screen.present.symm.trans hpresent)
    rw [Desktop.update, guiUpdate_of_absent glyph hpresent]
    refine ⟨⟨h.stacked, h.screen, h.absent⟩, fun _ ↦ Or.inl ⟨fun w hw ↦ ?_, rfl⟩⟩
    rw [hwindows] at hw
    exact absurd hw List.not_mem_nil
  | true =>
    obtain ⟨tick, hgui⟩ := guiUpdate_gui glyph (g := d.gui) hpresent input.mouse input.now
    obtain ⟨hstacked, hrestacks⟩ := h.stacked.input input.mouse
    rw [Desktop.update, hgui]
    refine ⟨⟨⟨hstacked.1, hstacked.2, hstacked.3, hstacked.4⟩, hscreen, fun habsent ↦ ?_⟩, hrestacks⟩
    exact absurd (habsent.symm.trans (h.screen.present.symm.trans hpresent)) Bool.noConfusion

/-- With reports on the screen, everything stays near. -/
theorem Near.update {d : Desktop} (h : Near d.gui) (hheight : d.fb.height ≤ 1073741824)
    {input : UpdateInput} (hpointed : d.Pointed input) : Near (d.update glyph input).gui := by
  cases hpresent : d.fb.present with
  | false =>
    rw [Desktop.update, guiUpdate_of_absent glyph hpresent]
    exact h
  | true =>
    obtain ⟨tick, hgui⟩ := guiUpdate_gui glyph (g := d.gui) hpresent input.mouse input.now
    obtain ⟨hsizes, hwindows, hcursor, hoffset⟩ := (h.moveCursor hheight hpointed).press.drag
    rw [Desktop.update, hgui]
    exact ⟨hsizes, hwindows, hcursor, hoffset⟩

/-- What either mouse driver reports is on the screen, whatever the device sends. -/
theorem reports_onScreen (fb : Framebuffer) (hwidth : 1 ≤ fb.width ∧ fb.width ≤ 2 ^ 30)
    (hheight : 1 ≤ fb.height ∧ fb.height ≤ 2 ^ 30) :
    (∀ bytes, OnScreen fb
      (mouseIrqs fb.width fb.height (mouseInit fb.width fb.height) bytes).sample) ∧
    ∀ events, OnScreen fb ⟨(VirtioMouse.after fb.width fb.height events).mouseX,
      (VirtioMouse.after fb.width fb.height events).mouseY,
      (VirtioMouse.after fb.width fb.height events).mouseButtons⟩ := by
  refine ⟨fun bytes ↦ ?_, fun events ↦ ?_⟩
  · have hscreen := (bounded_irqs hwidth hheight (Nat.zero_lt_succ 2)
      (onScreen_mouseInit hwidth hheight) bytes).2
    have hlow : _ < (fb.height : ℤ) := hscreen.y.2
    exact ⟨hscreen.x, hscreen.y, lt_of_lt_of_le hlow (by omega)⟩
  · have hscreen := onScreen_after ⟨hwidth.1, by omega⟩ ⟨hheight.1, by omega⟩ events
    have hlow : _ < (fb.height : ℤ) := hscreen.y.2
    exact ⟨hscreen.x, hscreen.y, lt_of_lt_of_le hlow (by omega)⟩

/-- After every sequence of updates the windows are those of `gui_init` in some order, at most the top
one is dragged, and none while the button is up. When the button goes down, the topmost window that
is hit goes to the top and nothing else changes its place. With reports on the screen, which is not higher
than `2 ^ 30`, a window is hit when its rectangle contains the cursor. The reports of both drivers are
(`reports_onScreen`). -/
theorem restacks_of_run (fb : Framebuffer) (inputs : List UpdateInput) (d : Desktop)
    (hrun : runFrom (Desktop.step glyph) (Desktop.init fb) inputs = some d) :
    (d.gui.windows.map Window.shape).Perm ((Desktop.init fb).gui.windows.map Window.shape) ∧
      (d.gui.dragWindow = none ∨
        0 < d.gui.windows.length ∧ d.gui.dragWindow = some (d.gui.windows.length - 1)) ∧
      (leftDown d.gui = false → d.gui.dragWindow = none) ∧
      ∀ input, PressEdge d.gui input.mouse →
        Restacks (fun w ↦ inWin (moveCursor d.gui input.mouse) w = true) d.gui.windows
          (d.update glyph input).gui.windows ∧
        (fb.height ≤ 2 ^ 30 →
          (∀ report ∈ inputs ++ [input], ∀ sample ∈ report.mouse, OnScreen fb sample) →
          Restacks (fun w ↦ w.Covers (moveCursor d.gui input.mouse).cursorX
            (moveCursor d.gui input.mouse).cursorY) d.gui.windows
              (d.update glyph input).gui.windows) := by
  have hstack : StackRun fb d := by
    refine invariant_runFrom (fun h _ hstep ↦ ?_) (stackRun_init fb)
      (alongRun_true (Desktop.init fb) inputs) hrun
    obtain rfl := Option.some.inj hstep
    exact (h.update glyph _).1
  refine ⟨hstack.stacked.shapes, ?_, hstack.stacked.up, fun input hedge ↦ ?_⟩
  · rcases Option.eq_none_or_eq_some d.gui.dragWindow with hdrag | ⟨i, hdrag⟩
    · exact Or.inl hdrag
    · obtain ⟨rest, w, hwindows, rfl⟩ := hstack.stacked.top i hdrag
      rw [hwindows, List.length_append, List.length_singleton, Nat.add_sub_cancel]
      exact Or.inr ⟨Nat.succ_pos _, hdrag⟩
  · have hrestacks := (hstack.update glyph input).2 hedge
    refine ⟨hrestacks, fun hheight hscreen ↦ hrestacks.congr fun w hw ↦ ?_⟩
    have hpointed : ∀ {s : Desktop} {report : UpdateInput}, SameScreen fb s.fb →
        (∀ sample ∈ report.mouse, OnScreen fb sample) → s.Pointed report :=
      fun {s report} hsame hreport sample hsample ↦ by
        obtain ⟨hx, hy, hlt⟩ := hreport sample hsample
        rw [← hsame.width] at hx
        rw [← hsame.height] at hy
        exact ⟨hx, hy, hlt⟩
    have halong : AlongRun (Desktop.step glyph)
        (fun _ report ↦ ∀ sample ∈ report.mouse, OnScreen fb sample) (Desktop.init fb) inputs :=
      alongRun_of_forall (fun report hreport ↦ hscreen report (List.mem_append_left _ hreport)) _
    have hstart : NearRun fb (Desktop.init fb) := ⟨stackRun_init fb, near_init hheight⟩
    have hnear : NearRun fb d := by
      refine invariant_runFrom (fun h hreport hstep ↦ ?_) hstart halong hrun
      obtain rfl := Option.some.inj hstep
      refine ⟨(h.run.update glyph _).1, h.near.update glyph ?_ (hpointed h.run.screen hreport)⟩
      rw [h.run.screen.height]
      exact hheight
    have hmoved := hnear.near.moveCursor hheight (hscreen input
      (List.mem_append_right _ (List.mem_singleton_self input)))
    rw [← moveCursor_windows d.gui input.mouse] at hw
    exact inWin_iff hmoved hw

end Runs

/-- A click on the first window and a release. -/
def clickFirst : List UpdateInput :=
  [{ mouse := some { x := 50, y := 50, buttons := 1 }, now := 0 },
   { mouse := some { x := 50, y := 50, buttons := 0 }, now := 1 }]

/-- The first window is on top after the click; a click on the other one brings that to the top. -/
theorem restacks_of_run_click_first :
    ∃ d, runFrom (Desktop.step fun _ _ ↦ 0) (Desktop.init blackScreen) clickFirst = some d ∧
      d.gui.windows.map (fun w ↦ w.w) = [200, 220] ∧
      (leftDown d.gui = false → d.gui.dragWindow = none) ∧
      Restacks (fun w ↦ w.Covers 310 105) d.gui.windows
        (d.update (fun _ _ ↦ 0) ⟨some ⟨310, 105, 1⟩, 2⟩).gui.windows := by
  refine ⟨_, rfl, by decide, ?_⟩
  obtain ⟨-, -, hup, hpress⟩ := restacks_of_run (fun _ _ ↦ 0) blackScreen clickFirst _ rfl
  refine ⟨hup, (hpress ⟨some ⟨310, 105, 1⟩, 2⟩ ⟨by decide, by decide⟩).2 (by decide) ?_⟩
  decide

end MegKer.Gui
