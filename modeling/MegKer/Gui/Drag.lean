import MegKer.Foundation.Transition
import MegKer.Gui.Windows
import Mathlib.Data.List.Nodup

/-!
# Dragging windows

A window should follow the cursor while the left button is held, if the button went down on its title
bar, and stay where it is otherwise. `Desktop` adds to the state of the GUI the press that started the
current hold, and `DragLaw` is the law for one update. Windows are known by their titles.

The law fails for a press on the body of a window (`body_press_moves_window`): `handle_click` makes
that window the one that is dragged, with the offsets of an earlier drag. It holds in every run without
such a press (`dragLaw_of_careful`).
-/

set_option autoImplicit false
set_option relaxedAutoImplicit false

namespace MegKer.Gui

open Foundation
open Drivers (Sample)

/-! ### The press that started the hold -/

/-- A press of the left button on a window: where the cursor and the window were, and whether it was
on the title bar. -/
structure Press where
  title : List UInt8
  cursorX : ℤ
  cursorY : ℤ
  x : ℤ
  y : ℤ
  onBar : Bool
  deriving DecidableEq, Repr

/-- The press on the window `w`. -/
def Press.on (g : GuiState) (w : Window) : Press where
  title := w.title
  cursorX := g.cursorX
  cursorY := g.cursorY
  x := w.x
  y := w.y
  onBar := onTitlebar g w

/-- The GUI, the screen, and the press that started the current hold, if it was on a window. -/
structure Desktop where
  gui : GuiState
  fb : Framebuffer
  hold : Option Press

/-- What an update is given: the report of the mouse, and the time. -/
structure UpdateInput where
  mouse : Option Sample
  now : ℕ
  deriving DecidableEq, Repr

/-- The press that started the hold, after the mouse has reported. -/
def Desktop.held (d : Desktop) (mouse : Option Sample) : Option Press :=
  let g := moveCursor d.gui mouse
  if !leftDown g then none
  else if g.prevLeftDown then d.hold else (topmost g).map (Press.on g)

section System

variable (glyph : UInt8 → ℕ → UInt8)

/-- One call of `gui_update`. -/
def Desktop.update (d : Desktop) (input : UpdateInput) : Desktop where
  gui := (guiUpdate glyph d.gui d.fb input.mouse input.now).1
  fb := (guiUpdate glyph d.gui d.fb input.mouse input.now).2
  hold := d.held input.mouse

/-- The step relation: every input is possible. -/
def Desktop.step (d : Desktop) (input : UpdateInput) : Option Desktop := some (d.update glyph input)

end System

/-- The start, after `gui_init`. -/
def Desktop.init (fb : Framebuffer) : Desktop where
  gui := guiInit GuiState.boot fb
  fb := fb
  hold := none

/-! ### The law -/

/-- A window without its colour. -/
def Window.outline (w : Window) : Window := { w with color := 0 }

/-- A window moves only while the button is held after a press on its title bar; then it is where it
was, moved as the cursor has moved since. A press on its body changes only its colour and its place in
the stack. -/
structure DragLaw (before after : Desktop) : Prop where
  titles : (after.gui.windows.map Window.title).Perm (before.gui.windows.map Window.title)
  moved : ∀ w ∈ before.gui.windows, ∀ w' ∈ after.gui.windows, w'.title = w.title →
    ¬ (w'.x = w.x ∧ w'.y = w.y) → leftDown after.gui = true ∧
      ∃ p, after.hold = some p ∧ p.onBar = true ∧ p.title = w.title
  follows : ∀ p, after.hold = some p → p.onBar = true → ∀ w ∈ after.gui.windows,
    w.title = p.title → w.x = i32 (p.x + (after.gui.cursorX - p.cursorX)) ∧
      w.y = i32 (p.y + (after.gui.cursorY - p.cursorY))
  body : ∀ p, after.hold = some p → p.onBar = false →
    (after.gui.windows.map Window.outline).Perm (before.gui.windows.map Window.outline) ∧
      ∀ w, w.title ≠ p.title → (w ∈ after.gui.windows ↔ w ∈ before.gui.windows)

/-- The left button does not go down on the body of a window. -/
def Desktop.Careful (d : Desktop) (input : UpdateInput) : Prop :=
  let g := moveCursor d.gui input.mouse
  leftDown g = true → g.prevLeftDown = false → ∀ w ∈ topmost g, onTitlebar g w = true

instance (d : Desktop) (input : UpdateInput) : Decidable (d.Careful input) :=
  inferInstanceAs (Decidable (_ → _ → _))

/-! ### A press on a body -/

/-- A black screen of 640 by 480 pixels. -/
def blackScreen : Framebuffer where
  present := true
  width := 640
  height := 480
  pitch := 2560
  pixels := fun _ _ ↦ 0
  row_le := by decide
  pitch_lt := by decide
  height_lt := by decide

/-- The left button goes down on the body of the second window. -/
def bodyPress : UpdateInput where
  mouse := some { x := 310, y := 150, buttons := 1 }
  now := 0

/-- The window jumps to the cursor. -/
theorem body_press_moves_window :
    ¬ DragLaw (Desktop.init blackScreen)
      ((Desktop.init blackScreen).update (fun _ _ ↦ 0) bodyPress) := by
  intro hlaw
  have hbefore : (firstWindows.get ⟨1, by decide⟩) ∈ (Desktop.init blackScreen).gui.windows := by
    decide
  have hafter : { firstWindows.get ⟨1, by decide⟩ with x := 310, y := 150, color := 0x00751313 } ∈
      ((Desktop.init blackScreen).update (fun _ _ ↦ 0) bodyPress).gui.windows := by
    decide
  obtain ⟨-, p, hp, hbar, -⟩ := hlaw.moved _ hbefore _ hafter rfl (by decide)
  have hhold : ((Desktop.init blackScreen).update (fun _ _ ↦ 0) bodyPress).hold.map Press.onBar =
      some false := by decide
  rw [hp] at hhold
  exact absurd (Option.some.inj hhold) (by simp [hbar])

/-! ### The invariant -/

/-- The press on a title bar that started the hold tells where the last window goes. -/
structure Drags (g : GuiState) (p : Press) (rest : List Window) (w : Window) : Prop where
  windows : g.windows = rest ++ [w]
  window : g.dragWindow = some rest.length
  title : w.title = p.title
  offset_x : g.dragOffsetX = i32 (p.cursorX - p.x)
  offset_y : g.dragOffsetY = i32 (p.cursorY - p.y)

/-- The invariant of the runs without a press on a body. -/
structure Held (g : GuiState) (hold : Option Press) : Prop where
  titles : (g.windows.map Window.title).Nodup
  range : ∀ w ∈ g.windows, i32 w.x = w.x ∧ i32 w.y = w.y
  still : hold = none → g.dragWindow = none
  up : g.prevLeftDown = false → hold = none
  drags : ∀ p, hold = some p → p.onBar = true ∧ ∃ rest w, Drags g p rest w

theorem i32_i32 (n : ℤ) : i32 (i32 n) = i32 n := by
  unfold i32
  omega

/-- The offset of a press puts the window where it was, moved as the cursor has moved. -/
theorem i32_sub_offset (cursor pressed x : ℤ) :
    i32 (cursor - i32 (pressed - x)) = i32 (x + (cursor - pressed)) := by
  unfold i32
  omega

theorem i32_sub_sub_self (cursor x : ℤ) : i32 (cursor - i32 (cursor - x)) = i32 x := by
  rw [i32_sub_offset, sub_self, add_zero]

/-- With different titles, a window is known by its title. -/
theorem eq_of_title {windows : List Window} (h : (windows.map Window.title).Nodup) {w w' : Window}
    (hw : w ∈ windows) (hw' : w' ∈ windows) (htitle : w'.title = w.title) : w' = w :=
  List.inj_on_of_nodup_map h hw' hw htitle

/-- An update that leaves the windows alone up to their order, and the hold on a title bar. -/
theorem DragLaw.of_perm {before after : Desktop}
    (hperm : after.gui.windows.Perm before.gui.windows)
    (htitles : (before.gui.windows.map Window.title).Nodup)
    (hhold : ∀ p, after.hold = some p → p.onBar = true ∧ ∀ w ∈ before.gui.windows,
      w.title = p.title → w.x = i32 (p.x + (after.gui.cursorX - p.cursorX)) ∧
        w.y = i32 (p.y + (after.gui.cursorY - p.cursorY))) :
    DragLaw before after where
  titles := hperm.map Window.title
  moved := fun w hw w' hw' htitle hmoved ↦ by
    rw [eq_of_title htitles hw (hperm.mem_iff.mp hw') htitle] at hmoved
    exact absurd ⟨rfl, rfl⟩ hmoved
  follows := fun p hp _ w hw ↦ (hhold p hp).2 w (hperm.mem_iff.mp hw)
  body := fun p hp hbody ↦ absurd ((hhold p hp).1.symm.trans hbody) Bool.noConfusion

section Step

variable {d : Desktop} {mouse : Option Sample}

theorem held_of_up (h : leftDown (moveCursor d.gui mouse) = false) : d.held mouse = none := by
  rw [Desktop.held, h]
  rfl

theorem held_of_held (h : leftDown (moveCursor d.gui mouse) = true)
    (hprev : d.gui.prevLeftDown = true) : d.held mouse = d.hold := by
  rw [Desktop.held, h, moveCursor_prevLeftDown, hprev]
  rfl

theorem held_of_press (h : leftDown (moveCursor d.gui mouse) = true)
    (hprev : d.gui.prevLeftDown = false) :
    d.held mouse = (topmost (moveCursor d.gui mouse)).map (Press.on (moveCursor d.gui mouse)) := by
  rw [Desktop.held, h, moveCursor_prevLeftDown, hprev]
  rfl

/-- While nothing is dragged the windows stay, and nothing is dragged afterwards. -/
theorem Held.rest (h : Held d.gui d.hold) {g : GuiState} (hwindows : g.windows = d.gui.windows)
    (hdrag : g.dragWindow = none) (fb : Framebuffer) :
    Held (drag g) none ∧ DragLaw d { gui := drag g, fb := fb, hold := none } := by
  have hsame : drag g = g := by rw [drag, hdrag, Option.elim_none]
  rw [hsame]
  refine ⟨⟨?_, ?_, fun _ ↦ hdrag, fun _ ↦ rfl, fun p hp ↦ ?_⟩, DragLaw.of_perm ?_ h.titles
    fun p hp ↦ ?_⟩
  · rw [hwindows]
    exact h.titles
  · rw [hwindows]
    exact h.range
  · exact absurd hp (Option.some_ne_none p).symm
  · rw [hwindows]
  · exact absurd hp (Option.some_ne_none p).symm

/-- While a window is dragged, it follows the cursor. -/
theorem Held.follow (h : Held d.gui d.hold) {p : Press} (hold : d.hold = some p) {g : GuiState}
    (hwindows : g.windows = d.gui.windows) (hdrag : g.dragWindow = d.gui.dragWindow)
    (hx : g.dragOffsetX = d.gui.dragOffsetX) (hy : g.dragOffsetY = d.gui.dragOffsetY)
    (hdown : leftDown g = true) (hprev : g.prevLeftDown = true) (fb : Framebuffer) :
    Held (drag g) (some p) ∧ DragLaw d { gui := drag g, fb := fb, hold := some p } := by
  obtain ⟨hbar, rest, w, hdrags⟩ := h.drags p hold
  have hafter := drag_windows (hwindows.trans hdrags.windows) (hdrag.trans hdrags.window)
  have htitles := h.titles
  have hrange := h.range
  rw [hdrags.windows] at htitles hrange
  rw [hx, hy, hdrags.offset_x, hdrags.offset_y, i32_sub_offset, i32_sub_offset] at hafter
  have hfield : drag g = { g with windows := (drag g).windows } := by
    rw [drag, hdrag, hdrags.window]
    rfl
  rw [hfield, hafter]
  generalize hnew : ({ w with x := i32 (p.x + (g.cursorX - p.cursorX))
                              y := i32 (p.y + (g.cursorY - p.cursorY)) } : Window) = new
  have htitle : new.title = w.title := by rw [← hnew]
  have hnewX : new.x = i32 (p.x + (g.cursorX - p.cursorX)) := by rw [← hnew]
  have hnewY : new.y = i32 (p.y + (g.cursorY - p.cursorY)) := by rw [← hnew]
  have hsame : (rest ++ [new]).map Window.title = (rest ++ [w]).map Window.title := by
    rw [List.map_append, List.map_append, List.map_singleton, List.map_singleton, htitle]
  refine ⟨⟨?_, fun v hv ↦ ?_, fun hnone ↦ absurd hnone (Option.some_ne_none p), fun hup ↦ ?_,
    fun p' hp' ↦ ?_⟩, ⟨?_, ?_, ?_, ?_⟩⟩
  · rw [hsame]
    exact htitles
  · rcases List.mem_append.mp hv with hv | hv
    · exact hrange v (List.mem_append_left _ hv)
    · rw [List.mem_singleton.mp hv, hnewX, hnewY]
      exact ⟨i32_i32 _, i32_i32 _⟩
  · exact absurd (hprev.symm.trans hup) Bool.noConfusion
  · obtain rfl := Option.some.inj hp'
    exact ⟨hbar, rest, new, rfl, hdrag.trans hdrags.window, htitle.trans hdrags.title,
      hx.trans hdrags.offset_x, hy.trans hdrags.offset_y⟩
  · change ((rest ++ [new]).map _).Perm (d.gui.windows.map _)
    rw [hsame, hdrags.windows]
  · intro v hv v' hv' hvv hmoved
    rw [hdrags.windows] at hv
    refine ⟨hdown, p, rfl, hbar, ?_⟩
    rcases List.mem_append.mp hv' with hrest | hlast
    · rw [eq_of_title htitles hv (List.mem_append_left _ hrest) hvv] at hmoved
      exact absurd ⟨rfl, rfl⟩ hmoved
    · rw [← hvv, List.mem_singleton.mp hlast, htitle, hdrags.title]
  · intro p' hp' _ v hv hvp
    obtain rfl := Option.some.inj hp'
    rcases List.mem_append.mp hv with hrest | hlast
    · -- The title of the dragged window is not among those behind it.
      rw [List.map_append, List.map_singleton] at htitles
      have hmem : w.title ∈ rest.map Window.title := by
        rw [hdrags.title, ← hvp]
        exact List.mem_map_of_mem hrest
      exact ((List.nodup_append'.mp htitles).2.2 hmem (List.mem_singleton_self _)).elim
    · rw [List.mem_singleton.mp hlast]
      exact ⟨hnewX, hnewY⟩
  · intro p' hp' hbody
    obtain rfl := Option.some.inj hp'
    exact absurd (hbar.symm.trans hbody) Bool.noConfusion

theorem Held.setTick {g : GuiState} {hold : Option Press} (h : Held g hold) (tick : ℕ) :
    Held { g with lastRedrawTick := tick } hold where
  titles := h.titles
  range := h.range
  still := h.still
  up := h.up
  drags := fun p hp ↦ by
    obtain ⟨hbar, rest, w, hdrags⟩ := h.drags p hp
    exact ⟨hbar, rest, w, hdrags.1, hdrags.2, hdrags.3, hdrags.4, hdrags.5⟩

/-- A press on the title bar of the topmost window takes hold of it. -/
theorem Held.grab (h : Held d.gui d.hold) {g : GuiState} {front back : List Window} {w : Window}
    (hsame : g.windows = d.gui.windows) (hwindows : g.windows = front ++ w :: back)
    (hbar : onTitlebar g w = true) (fb : Framebuffer) :
    Held (drag { clickWindow g front.length w with prevLeftDown := true }) (some (Press.on g w)) ∧
      DragLaw d { gui := drag { clickWindow g front.length w with prevLeftDown := true }
                  fb := fb
                  hold := some (Press.on g w) } := by
  obtain ⟨hclick, hdrag⟩ := clickWindow_windows hwindows
  have hclicked : clicked g w = w := if_pos hbar
  rw [hclicked] at hclick
  have hoffsets : (clickWindow g front.length w).dragOffsetX = i32 (g.cursorX - w.x) ∧
      (clickWindow g front.length w).dragOffsetY = i32 (g.cursorY - w.y) := by
    rw [clickWindow, if_pos hbar]
    exact ⟨rfl, rfl⟩
  have hcursor : (clickWindow g front.length w).cursorX = g.cursorX ∧
      (clickWindow g front.length w).cursorY = g.cursorY := by
    rw [clickWindow, if_pos hbar]
    exact ⟨rfl, rfl⟩
  have hmem : w ∈ d.gui.windows := by
    rw [← hsame, hwindows]
    exact List.mem_append_right front List.mem_cons_self
  obtain ⟨hx, hy⟩ := h.range w hmem
  have hperm : (front ++ back ++ [w]).Perm d.gui.windows := by
    rw [← hsame, hwindows, List.append_assoc]
    exact (List.perm_append_singleton w back).append_left front
  generalize clickWindow g front.length w = after at *
  have hstays : drag { after with prevLeftDown := true } = { after with prevLeftDown := true } := by
    refine drag_eq_self hclick hdrag ?_ ?_
    · change i32 (after.cursorX - after.dragOffsetX) = w.x
      rw [hoffsets.1, hcursor.1, i32_sub_sub_self, hx]
    · change i32 (after.cursorY - after.dragOffsetY) = w.y
      rw [hoffsets.2, hcursor.2, i32_sub_sub_self, hy]
  rw [hstays]
  refine ⟨⟨?_, fun v hv ↦ ?_, fun hnone ↦ absurd hnone (Option.some_ne_none _),
    fun hup ↦ absurd hup Bool.noConfusion, fun p hp ↦ ?_⟩, DragLaw.of_perm ?_ h.titles
    fun p hp ↦ ?_⟩
  · change (after.windows.map Window.title).Nodup
    rw [hclick]
    exact (hperm.map Window.title).nodup_iff.mpr h.titles
  · change v ∈ after.windows at hv
    rw [hclick] at hv
    exact h.range v (hperm.mem_iff.mp hv)
  · obtain rfl := Option.some.inj hp
    exact ⟨hbar, front ++ back, w, hclick, hdrag, rfl, hoffsets.1, hoffsets.2⟩
  · change after.windows.Perm d.gui.windows
    rwa [hclick]
  · obtain rfl := Option.some.inj hp
    refine ⟨hbar, fun v hv htitle ↦ ?_⟩
    rw [eq_of_title h.titles hmem hv htitle]
    change w.x = i32 (w.x + (after.cursorX - g.cursorX)) ∧
      w.y = i32 (w.y + (after.cursorY - g.cursorY))
    rw [hcursor.1, hcursor.2, sub_self, sub_self, add_zero, add_zero]
    exact ⟨hx.symm, hy.symm⟩

/-- The step lemma, for the input of an update. -/
theorem Held.input (h : Held d.gui d.hold) {now : ℕ} (hcareful : d.Careful ⟨mouse, now⟩)
    (fb : Framebuffer) :
    Held (guiInput d.gui mouse) (d.held mouse) ∧
      DragLaw d { gui := guiInput d.gui mouse, fb := fb, hold := d.held mouse } := by
  have hwindows := moveCursor_windows d.gui mouse
  have hprev := moveCursor_prevLeftDown d.gui mouse
  have hdrag := moveCursor_dragWindow d.gui mouse
  rw [guiInput]
  rcases press_cases (moveCursor d.gui mouse) with ⟨hup, hpress⟩ | ⟨hdown, hheld, hpress⟩ |
    ⟨hdown, hfirst, hmiss, hpress⟩ | ⟨front, w, back, hdown, hfirst, htop, hsplit, -, -, hpress⟩
  · rw [held_of_up hup, hpress]
    refine h.rest ?_ rfl fb
    exact hwindows
  · rw [held_of_held hdown (hprev.symm.trans hheld), hpress]
    cases hhold : d.hold with
    | none =>
      refine h.rest ?_ ?_ fb
      · exact hwindows
      · exact hdrag.trans (h.still hhold)
    | some p =>
      refine h.follow hhold ?_ ?_ ?_ ?_ ?_ rfl fb
      · exact hwindows
      · exact hdrag
      · exact moveCursor_dragOffsetX d.gui mouse
      · exact moveCursor_dragOffsetY d.gui mouse
      · exact hdown
  · rw [held_of_press hdown (hprev.symm.trans hfirst), hmiss, hpress, Option.map_none]
    refine h.rest ?_ ?_ fb
    · exact hwindows
    · exact hdrag.trans (h.still (h.up (hprev.symm.trans hfirst)))
  · rw [held_of_press hdown (hprev.symm.trans hfirst), htop, hpress, Option.map_some]
    exact h.grab hwindows hsplit (hcareful hdown hfirst w htop) fb

end Step

/-! ### Whole runs -/

section Runs

variable (glyph : UInt8 → ℕ → UInt8)

/-- With a framebuffer the invariant holds, and without one there are no windows. -/
def Settled (d : Desktop) : Prop :=
  d.fb.present = true ∧ Held d.gui d.hold ∨ d.fb.present = false ∧ d.gui.windows = []

/-- The two parts of `gui_update`. -/
theorem guiUpdate_gui {g : GuiState} {fb : Framebuffer} (hpresent : fb.present = true)
    (mouse : Option Sample) (now : ℕ) :
    ∃ tick, (guiUpdate glyph g fb mouse now).1 =
      { guiInput g mouse with lastRedrawTick := tick } := by
  rw [guiUpdate, if_neg (by simp [hpresent])]
  dsimp only
  split_ifs
  · exact ⟨now, rfl⟩
  · exact ⟨(guiInput g mouse).lastRedrawTick, rfl⟩

theorem guiUpdate_of_absent {g : GuiState} {fb : Framebuffer} (habsent : fb.present = false)
    (mouse : Option Sample) (now : ℕ) : guiUpdate glyph g fb mouse now = (g, fb) :=
  if_pos habsent

theorem settled_init (fb : Framebuffer) : Settled (Desktop.init fb) := by
  cases hpresent : fb.present with
  | false =>
    refine Or.inr ⟨hpresent, ?_⟩
    change (guiInit GuiState.boot fb).windows = []
    rw [guiInit, if_pos hpresent]
    rfl
  | true =>
    have hinit : (Desktop.init fb).gui.windows = firstWindows := by
      change (guiInit GuiState.boot fb).windows = firstWindows
      rw [guiInit, if_neg (by simp [hpresent])]
    have hdrag : (Desktop.init fb).gui.dragWindow = none := by
      change (guiInit GuiState.boot fb).dragWindow = none
      rw [guiInit, if_neg (by simp [hpresent])]
      rfl
    refine Or.inl ⟨hpresent, ?_, ?_, fun _ ↦ hdrag, fun _ ↦ rfl, nofun⟩
    · rw [hinit]
      decide
    · rw [hinit]
      decide

/-- The step lemma. -/
theorem settled_update {d : Desktop} {input : UpdateInput} (h : Settled d)
    (hcareful : d.Careful input) :
    Settled (d.update glyph input) ∧ DragLaw d (d.update glyph input) := by
  rcases h with ⟨hpresent, h⟩ | ⟨habsent, hwindows⟩
  · obtain ⟨tick, hgui⟩ := guiUpdate_gui glyph (g := d.gui) hpresent input.mouse input.now
    obtain ⟨hheld, hlaw⟩ := h.input hcareful (guiUpdate glyph d.gui d.fb input.mouse input.now).2
    have hscreen : (guiUpdate glyph d.gui d.fb input.mouse input.now).2.present = true :=
      (sameScreen_guiUpdate glyph d.gui d.fb input.mouse input.now).present.trans hpresent
    rw [Desktop.update, hgui]
    exact ⟨Or.inl ⟨hscreen, hheld.setTick tick⟩, ⟨hlaw.1, hlaw.2, hlaw.3, hlaw.4⟩⟩
  · have hsame := guiUpdate_of_absent glyph (g := d.gui) habsent input.mouse input.now
    rw [Desktop.update, hsame]
    refine ⟨Or.inr ⟨habsent, hwindows⟩, ⟨List.Perm.refl _, ?_, ?_, ?_⟩⟩
    · intro w hw
      rw [hwindows] at hw
      exact absurd hw List.not_mem_nil
    · intro p _ _ w hw
      change w ∈ d.gui.windows at hw
      rw [hwindows] at hw
      exact absurd hw List.not_mem_nil
    · exact fun p _ _ ↦ ⟨List.Perm.refl _, fun w _ ↦ Iff.rfl⟩

/-- In every run without a press on the body of a window, every update keeps the law. Positions and the
hit test are in the arithmetic of the code's `i32`, so the reports may lie anywhere; `inWin_iff` says when
the test is that of the rectangle on the screen. -/
theorem dragLaw_of_careful (fb : Framebuffer) (inputs : List UpdateInput) (input : UpdateInput)
    (d : Desktop)
    (hcareful : AlongRun (Desktop.step glyph) Desktop.Careful (Desktop.init fb) (inputs ++ [input]))
    (hrun : runFrom (Desktop.step glyph) (Desktop.init fb) inputs = some d) :
    DragLaw d (d.update glyph input) := by
  have hsettled : Settled d := by
    refine invariant_runFrom (fun h hstepCareful hstep ↦ ?_) (settled_init fb) hcareful.left hrun
    obtain rfl := Option.some.inj hstep
    exact (settled_update glyph h hstepCareful).1
  exact (settled_update glyph hsettled (hcareful.of_append hrun).1).2

end Runs

/-- The button goes down on the title bar of the second window, and the cursor moves off to the left
and down. -/
def barPress : List UpdateInput :=
  [{ mouse := some { x := 310, y := 105, buttons := 1 }, now := 0 },
   { mouse := some { x := 5, y := 200, buttons := 1 }, now := 1 }]

theorem dragLaw_of_careful_bar_press :
    ∃ d d', runFrom (Desktop.step fun _ _ ↦ 0) (Desktop.init blackScreen) barPress.dropLast = some d ∧
      d.update (fun _ _ ↦ 0) ⟨some ⟨5, 200, 1⟩, 1⟩ = d' ∧ DragLaw d d' ∧
      d'.gui.windows.map (fun w ↦ (w.x, w.y)) = [(40, 40), (-5, 195)] := by
  have hcareful : AlongRun (Desktop.step fun _ _ ↦ 0) Desktop.Careful (Desktop.init blackScreen)
      barPress := by decide
  refine ⟨_, _, rfl, rfl, ?_, ?_⟩
  · exact dragLaw_of_careful (fun _ _ ↦ 0) blackScreen barPress.dropLast _ _ hcareful rfl
  · decide

end MegKer.Gui
