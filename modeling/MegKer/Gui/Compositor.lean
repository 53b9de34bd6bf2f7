import MegKer.Gui.Drag

/-!
# The compositor

What the screen should show after it was drawn, in signed geometry: each pixel has the colour of the
topmost item that covers it (`expectedColor`). The code draws with unsigned coordinates. A window that
is partly beyond the left or the upper edge has a coordinate that is close to `2 ^ 32`, the sum with
its width or height wraps to a small number, and `fb_fill_rect` takes the rectangle for an empty one;
the window is missing on the screen (`cut_window_missing`).

Windows on the screen, and windows wholly beyond the left edge, are drawn as they should be
(`drawWindow_layer`), and so is the screen whenever there are only such windows
(`composited_of_clean`).
-/

set_option autoImplicit false
set_option relaxedAutoImplicit false

namespace MegKer.Gui

open Foundation Framebuffer
open Drivers (Sample)

/-! ### What the screen should show -/

/-- The rectangle of a window contains the pixel. -/
def Window.Covers (w : Window) (px py : ℤ) : Prop :=
  w.x ≤ px ∧ px < w.x + w.w ∧ w.y ≤ py ∧ py < w.y + w.h

instance (w : Window) (px py : ℤ) : Decidable (w.Covers px py) :=
  inferInstanceAs (Decidable (_ ∧ _))

/-- The colour of a window at a pixel that it covers. -/
def Window.layer (w : Window) (px py : ℤ) : Option ℕ :=
  if w.Covers px py then some (if py < w.y + titlebarHeight then 0x00222222 else w.color) else none

/-- The colour of the cursor at a pixel that it covers: a white square with a black inside. -/
def cursorLayer (g : GuiState) (px py : ℤ) : Option ℕ :=
  if g.cursorX ≤ px ∧ px < g.cursorX + cursorSize ∧ g.cursorY ≤ py ∧ py < g.cursorY + cursorSize
  then some (if g.cursorX + 1 ≤ px ∧ px < g.cursorX + cursorSize - 1 ∧ g.cursorY + 1 ≤ py ∧
      py < g.cursorY + cursorSize - 1 then 0x00000000 else 0x00FFFFFF)
  else none

/-- The colour of the topmost window at a pixel, or of the background. -/
def windowsColor (windows : List Window) (px py : ℤ) : ℕ :=
  (windows.reverse.findSome? fun w ↦ w.layer px py).getD 0x00102030

/-- The colour that a pixel should have. -/
def expectedColor (g : GuiState) (px py : ℤ) : ℕ :=
  (cursorLayer g px py).getD (windowsColor g.windows px py)

/-- The pixel is in the cell of a character of the title. -/
def Window.InTitle (w : Window) (px py : ℤ) : Prop :=
  ∃ k < w.title.length, w.x + 4 + 8 * k ≤ px ∧ px < w.x + 12 + 8 * k ∧ w.y + 6 ≤ py ∧ py < w.y + 14

/-- Every pixel of the screen outside the titles has the colour that it should have. -/
def Composited (g : GuiState) (fb : Framebuffer) : Prop :=
  ∀ px py : ℕ, px < fb.width → py < fb.height → (∀ w ∈ g.windows, ¬ w.InTitle px py) →
    fb.pixels py px = expectedColor g px py

/-! ### The windows -/

/-- The bounds on a window that hold in all runs. -/
structure Window.Bounded (w : Window) : Prop where
  width_le : w.w ≤ 220
  height_le : w.h ≤ 140
  bar_le : titlebarHeight ≤ w.h
  title_le : 4 + 8 * w.title.length ≤ w.w
  title_line : (10 : UInt8) ∉ w.title
  color_lt : w.color < 2 ^ 24
  x_range : -2147483648 ≤ w.x ∧ w.x < 2147483648
  y_range : -2147483648 ≤ w.y ∧ w.y < 2147483648

/-- No character of the title breaks the line. -/
theorem Window.Bounded.title_char_ne {w : Window} (h : w.Bounded) : ∀ c ∈ w.title, c ≠ 10 :=
  fun _ hc ↦ ne_of_mem_of_not_mem hc h.title_line

/-- The window does not reach over the left or the upper edge, or is wholly beyond the left one. -/
def Window.Uncut (w : Window) : Prop := 0 ≤ w.x ∧ 0 ≤ w.y ∨ w.x + w.w ≤ 0

instance (w : Window) : Decidable w.Uncut := inferInstanceAs (Decidable (_ ∨ _))

/-- A coordinate on the screen, with something added. -/
theorem wrap32_u32_add {x : ℤ} {n : ℕ} (hx : 0 ≤ x) (hsum : x + n < 4294967296) :
    (wrap32 (u32 x + n) : ℤ) = x + n := by
  have hux := u32_of_nonneg hx (by omega)
  rw [wrap32_of_lt (by omega)]
  omega

/-- A coordinate that stays beyond the edge with something added. -/
theorem wrap32_u32_add_of_neg {x : ℤ} {n : ℕ} (hx : -2147483648 ≤ x) (hsum : x + n < 0) :
    (wrap32 (u32 x + n) : ℤ) = x + n + 4294967296 := by
  have hux := u32_of_neg (n := x) (by omega) (by omega)
  rw [wrap32_of_lt (by omega)]
  omega

theorem stored_of_lt {rgb : ℕ} (h : rgb < 2 ^ 24) : stored rgb = rgb := by
  have hmask : (0x00FFFFFF : ℕ) = 2 ^ 24 - 1 := by decide
  rw [stored, hmask, Nat.and_two_pow_sub_one_eq_mod, Nat.mod_eq_of_lt h]

section Draw

variable {glyph : UInt8 → ℕ → UInt8} {fb : Framebuffer}

/-- The part of a rectangle that `fb_fill_rect` fills. -/
def Filled (fb : Framebuffer) (x y w h r c : ℕ) : Prop :=
  (y ≤ r ∧ r < min (wrap32 (y + h)) fb.height) ∧ x ≤ c ∧ c < min (wrap32 (x + w)) fb.width

instance (x y w h r c : ℕ) : Decidable (Filled fb x y w h r c) :=
  inferInstanceAs (Decidable (_ ∧ _))

theorem filled_congr {fb' : Framebuffer} (h : SameScreen fb fb') (x y w h' r c : ℕ) :
    Filled fb' x y w h' r c ↔ Filled fb x y w h' r c := by
  rw [Filled, Filled, h.width, h.height]

/-- A pixel outside the title after a window is drawn. -/
theorem drawWindow_pixels (hpresent : fb.present = true) {win : Window}
    (hline : ∀ char ∈ win.title, char ≠ 10) {r c : ℕ}
    (hcells : ∀ k < win.title.length,
      ¬ InCell r c (wrap32 (wrap32 (u32 win.x + 4) + 8 * k)) (wrap32 (u32 win.y + 6))) :
    (drawWindow glyph fb win).pixels r c =
      if Filled fb (u32 win.x) (u32 win.y) win.w titlebarHeight r c then 0x00222222
      else if Filled fb (u32 win.x) (u32 win.y) win.w win.h r c then stored win.color
      else fb.pixels r c := by
  have hbody := sameScreen_fillRect fb (u32 win.x) (u32 win.y) win.w win.h win.color
  have htext : ∀ fb, (fbDrawString glyph fb (wrap32 (u32 win.x + 4)) (wrap32 (u32 win.y + 6))
      win.title 0x00FFFFFF 0x00222222).pixels r c = fb.pixels r c := fun fb ↦
    (fbDrawString_pixels hline hcells (Nat.mod_lt _ (by decide)) _ _ fb).pixel
  rw [drawWindow, htext, fbFillRect_pixels (hbody.present.trans hpresent),
    fbFillRect_pixels hpresent]
  have hcongr := filled_congr hbody (u32 win.x) (u32 win.y) win.w titlebarHeight r c
  rw [Filled] at hcongr
  simp only [hcongr]
  rfl

/-- In the first quadrant a rectangle is filled where it is. -/
theorem filled_of_nonneg {x y : ℤ} {w h r c : ℕ} (hx : 0 ≤ x) (hright : x + w < 4294967296)
    (hy : 0 ≤ y) (hlower : y + h < 4294967296) (hr : r < fb.height) (hc : c < fb.width) :
    Filled fb (u32 x) (u32 y) w h r c ↔
      (y ≤ r ∧ (r : ℤ) < y + h) ∧ x ≤ c ∧ (c : ℤ) < x + w := by
  have hux := u32_of_nonneg hx (by omega)
  have huy := u32_of_nonneg hy (by omega)
  have hx1 := wrap32_u32_add hx hright
  have hy1 := wrap32_u32_add hy hlower
  rw [Filled]
  omega

/-- A rectangle that starts beyond the left edge is not filled at all. -/
theorem not_filled_of_neg {x : ℤ} (hx : -2147483648 ≤ x) (hx' : x < 0) {y w h r c : ℕ}
    (hc : c < fb.width) : ¬ Filled fb (u32 x) y w h r c := by
  have hux := u32_of_neg (by omega) hx'
  have hrow := fb.row_le
  have hpitch := fb.pitch_lt
  rw [Filled]
  omega

/-- The place of a character, with the sums of the code taken together. -/
theorem inCell_title {x y r c k : ℕ}
    (h : InCell r c (wrap32 (wrap32 (x + 4) + 8 * k)) (wrap32 (y + 6))) :
    ∃ row < 8, ∃ column < 8, r = wrap32 (y + (6 + row)) ∧ c = wrap32 (x + (4 + 8 * k + column)) := by
  obtain ⟨row, hrow, column, hcolumn, hr, hc⟩ := h
  refine ⟨row, hrow, column, hcolumn, ?_, ?_⟩
  · rw [hr]
    simp only [wrap32, Nat.mod_add_mod, Nat.add_assoc]
  · rw [hc]
    simp only [wrap32, Nat.mod_add_mod, Nat.add_assoc]

/-- The text of a window that is not cut stays in its cells. -/
theorem Window.Uncut.inTitle {win : Window} (huncut : win.Uncut) (hbounded : win.Bounded)
    {px py k : ℕ} (hpx : px < fb.width) (hk : k < win.title.length)
    (hcell : InCell py px (wrap32 (wrap32 (u32 win.x + 4) + 8 * k)) (wrap32 (u32 win.y + 6))) :
    win.InTitle px py := by
  obtain ⟨row, hrow, column, hcolumn, hr, hc⟩ := inCell_title hcell
  have hwidth := hbounded.width_le
  have htitle := hbounded.title_le
  obtain ⟨hxlow, hxhigh⟩ := hbounded.x_range
  obtain ⟨hylow, hyhigh⟩ := hbounded.y_range
  rcases huncut with ⟨hx, hy⟩ | hleft
  · have hcolumns := wrap32_u32_add (n := 4 + 8 * k + column) hx (by omega)
    have hrows := wrap32_u32_add (n := 6 + row) hy (by omega)
    exact ⟨k, hk, by omega, by omega, by omega, by omega⟩
  · -- Beyond the left edge the columns wrap to numbers that no screen has.
    have hcolumns := wrap32_u32_add_of_neg (n := 4 + 8 * k + column) hxlow (by omega)
    have hrow := fb.row_le
    have hpitch := fb.pitch_lt
    omega

/-- A window that is not cut is drawn as it should be. -/
theorem drawWindow_layer (hpresent : fb.present = true) {win : Window} (hbounded : win.Bounded)
    (huncut : win.Uncut) {px py : ℕ} (hpx : px < fb.width) (hpy : py < fb.height)
    (htitle : ¬ win.InTitle px py) :
    (drawWindow glyph fb win).pixels py px = (win.layer px py).getD (fb.pixels py px) := by
  rw [drawWindow_pixels hpresent hbounded.title_char_ne fun k hk hcell ↦
    htitle (huncut.inTitle hbounded hpx hk hcell), stored_of_lt hbounded.color_lt, Window.layer]
  have hwidth := hbounded.width_le
  have hheight := hbounded.height_le
  have hbar := hbounded.bar_le
  obtain ⟨hxlow, hxhigh⟩ := hbounded.x_range
  obtain ⟨hylow, hyhigh⟩ := hbounded.y_range
  simp only [titlebarHeight] at hbar ⊢
  by_cases hin : 0 ≤ win.x ∧ 0 ≤ win.y
  · have hfilledBar := filled_of_nonneg (w := win.w) (h := 20) hin.1 (by omega) hin.2 (by omega) hpy
      hpx
    have hfilled := filled_of_nonneg (w := win.w) (h := win.h) hin.1 (by omega) hin.2 (by omega) hpy
      hpx
    by_cases hcovers : win.Covers px py
    · have hbody := hfilled.mpr ⟨⟨hcovers.2.2.1, hcovers.2.2.2⟩, hcovers.1, hcovers.2.1⟩
      rw [if_pos hbody, if_pos hcovers, Option.getD_some]
      refine if_congr (hfilledBar.trans ?_) rfl rfl
      exact ⟨fun h ↦ h.1.2, fun h ↦ ⟨⟨hcovers.2.2.1, h⟩, hcovers.1, hcovers.2.1⟩⟩
    · have hbody : ¬ Filled fb (u32 win.x) (u32 win.y) win.w win.h py px := fun h ↦ by
        obtain ⟨⟨hlow, hhigh⟩, hleft, hright⟩ := hfilled.mp h
        exact hcovers ⟨hleft, hright, hlow, hhigh⟩
      have hnoBar : ¬ Filled fb (u32 win.x) (u32 win.y) win.w 20 py px := fun h ↦ by
        obtain ⟨⟨hlow, hhigh⟩, hleft, hright⟩ := hfilledBar.mp h
        exact hcovers ⟨hleft, hright, hlow, by omega⟩
      rw [if_neg hnoBar, if_neg hbody, if_neg hcovers, Option.getD_none]
  · have hleft : win.x + win.w ≤ 0 := huncut.resolve_left hin
    have hcovers : ¬ win.Covers px py := fun h ↦ by
      have hright := h.2.1
      omega
    have hneg : win.x < 0 := by
      have htext := hbounded.title_le
      omega
    rw [if_neg hcovers, Option.getD_none, if_neg (not_filled_of_neg hxlow hneg hpx),
      if_neg (not_filled_of_neg hxlow hneg hpx)]

/-- The windows are drawn on top of each other. -/
theorem drawWindows_color (hpresent : fb.present = true) {px py : ℕ} (hpx : px < fb.width)
    (hpy : py < fb.height) (windows : List Window) (hbounded : ∀ w ∈ windows, w.Bounded)
    (huncut : ∀ w ∈ windows, w.Uncut) (htitle : ∀ w ∈ windows, ¬ w.InTitle px py) :
    (windows.foldl (drawWindow glyph) fb).pixels py px =
      (windows.reverse.findSome? fun w ↦ w.layer px py).getD (fb.pixels py px) := by
  induction windows generalizing fb with
  | nil => rfl
  | cons w windows ih =>
    obtain ⟨hbounded, hbounded'⟩ := List.forall_mem_cons.mp hbounded
    obtain ⟨huncut, huncut'⟩ := List.forall_mem_cons.mp huncut
    obtain ⟨htitle, htitle'⟩ := List.forall_mem_cons.mp htitle
    have hscreen := sameScreen_drawWindow glyph fb w
    rw [List.foldl_cons, ih (hscreen.present.trans hpresent) (hscreen.width ▸ hpx)
      (hscreen.height ▸ hpy) hbounded' huncut' htitle',
      drawWindow_layer hpresent hbounded huncut hpx hpy htitle, List.reverse_cons,
      List.findSome?_append]
    cases windows.reverse.findSome? fun w ↦ w.layer px py with
    | none => rw [Option.none_or, List.findSome?_singleton, Option.getD_none]
    | some color => rfl

/-- The cursor is drawn on top. -/
theorem drawCursor_layer (hpresent : fb.present = true) {g : GuiState} (hx : 0 ≤ g.cursorX)
    (hx' : g.cursorX < 2147483648) (hy : 0 ≤ g.cursorY) (hy' : g.cursorY < 2147483648) {px py : ℕ}
    (hpx : px < fb.width) (hpy : py < fb.height) :
    (drawCursor g fb).pixels py px = (cursorLayer g px py).getD (fb.pixels py px) := by
  have hstepX : wrap32 (u32 g.cursorX + 1) = u32 (g.cursorX + 1) := by
    have hsum := wrap32_u32_add (n := 1) hx (by omega)
    have hright := u32_of_nonneg (n := g.cursorX + 1) (by omega) (by omega)
    omega
  have hstepY : wrap32 (u32 g.cursorY + 1) = u32 (g.cursorY + 1) := by
    have hsum := wrap32_u32_add (n := 1) hy (by omega)
    have hlower := u32_of_nonneg (n := g.cursorY + 1) (by omega) (by omega)
    omega
  have hscreen := sameScreen_fillRect fb (u32 g.cursorX) (u32 g.cursorY) 10 10 0x00FFFFFF
  have hinner := filled_of_nonneg (w := 8) (h := 8) (x := g.cursorX + 1) (y := g.cursorY + 1)
    (by omega) (by omega) (by omega) (by omega) (hscreen.height ▸ hpy) (hscreen.width ▸ hpx)
  have houter := filled_of_nonneg (w := 10) (h := 10) hx (by omega) hy (by omega) hpy hpx
  have hdraw : (drawCursor g fb).pixels py px =
      if (g.cursorY + 1 ≤ py ∧ (py : ℤ) < g.cursorY + 1 + (8 : ℕ)) ∧ g.cursorX + 1 ≤ px ∧
        (px : ℤ) < g.cursorX + 1 + (8 : ℕ) then 0
      else if (g.cursorY ≤ py ∧ (py : ℤ) < g.cursorY + (10 : ℕ)) ∧ g.cursorX ≤ px ∧
        (px : ℤ) < g.cursorX + (10 : ℕ) then 0x00FFFFFF
      else fb.pixels py px := by
    change (fbFillRect (fbFillRect fb (u32 g.cursorX) (u32 g.cursorY) 10 10 0x00FFFFFF)
      (wrap32 (u32 g.cursorX + 1)) (wrap32 (u32 g.cursorY + 1)) 8 8 0).pixels py px = _
    rw [hstepX, hstepY, fbFillRect_pixels (hscreen.present.trans hpresent),
      fbFillRect_pixels hpresent]
    exact if_congr hinner rfl (if_congr houter rfl rfl)
  rw [hdraw, cursorLayer]
  simp only [cursorSize, Nat.cast_ofNat]
  split_ifs <;> first | rfl | omega

/-- The whole screen: with windows that are not cut, it is what it should be. -/
theorem composited_guiDraw (hpresent : fb.present = true) {g : GuiState}
    (hx : 0 ≤ g.cursorX ∧ g.cursorX < 2147483648) (hy : 0 ≤ g.cursorY ∧ g.cursorY < 2147483648)
    (hbounded : ∀ w ∈ g.windows, w.Bounded) (huncut : ∀ w ∈ g.windows, w.Uncut) :
    Composited g (guiDraw glyph g fb) := by
  intro px py hpx hpy htitle
  have hscreen := sameScreen_guiDraw glyph g fb
  rw [hscreen.width] at hpx
  rw [hscreen.height] at hpy
  have hback := sameScreen_fillRect fb 0 0 fb.width fb.height 0x00102030
  have hwindows := sameScreen_foldl (sameScreen_drawWindow glyph) g.windows
    (fbFillRect fb 0 0 fb.width fb.height 0x00102030)
  have hall := hback.trans hwindows
  have hwidth : fb.width < 2 ^ 32 := by
    have hrow := fb.row_le
    have hpitch := fb.pitch_lt
    omega
  have hbackground : (fbFillRect fb 0 0 fb.width fb.height 0x00102030).pixels py px =
      0x00102030 := by
    rw [fbFillRect_pixels hpresent, if_pos]
    · rfl
    · rw [Nat.zero_add, Nat.zero_add, wrap32_of_lt hwidth, wrap32_of_lt fb.height_lt]
      omega
  rw [guiDraw, drawCursor_layer (hall.present.trans hpresent) hx.1 hx.2 hy.1 hy.2
    (hpx.trans_eq hall.width.symm) (hpy.trans_eq hall.height.symm),
    drawWindows_color (hback.present.trans hpresent) (hpx.trans_eq hback.width.symm)
    (hpy.trans_eq hback.height.symm) g.windows hbounded huncut htitle, hbackground]
  rfl

end Draw

/-! ### The bounds hold in all runs -/

/-- The colour of a window may change. -/
theorem Window.Bounded.recolor {w : Window} (h : w.Bounded) :
    Window.Bounded { w with color := w.color ^^^ 0x00202020 } :=
  ⟨h.1, h.2, h.3, h.4, h.5, Nat.xor_lt_two_pow h.6 (by decide), h.7, h.8⟩

/-- A window may move. -/
theorem Window.Bounded.move {w : Window} (h : w.Bounded) (x y : ℤ) :
    Window.Bounded { w with x := i32 x, y := i32 y } :=
  ⟨h.1, h.2, h.3, h.4, h.5, h.6, i32_range x, i32_range y⟩

theorem mem_modify {α : Type} {xs : List α} {i : ℕ} {f : α → α} {x : α} (h : x ∈ xs.modify i f) :
    x ∈ xs ∨ ∃ y ∈ xs, x = f y := by
  obtain ⟨j, hj⟩ := List.mem_iff_getElem?.mp h
  rw [List.getElem?_modify] at hj
  obtain ⟨y, hy, hfy⟩ := Option.map_eq_some_iff.mp hj
  have hmem : y ∈ xs := List.mem_of_getElem? hy
  by_cases hij : i = j
  · rw [if_pos hij] at hfy
    exact Or.inr ⟨y, hmem, hfy.symm⟩
  · rw [if_neg hij] at hfy
    exact Or.inl (hfy ▸ hmem)

theorem bounded_press {g : GuiState} (h : ∀ w ∈ g.windows, w.Bounded) :
    ∀ w ∈ (press g).windows, w.Bounded := by
  rcases press_cases g with ⟨-, hpress⟩ | ⟨-, -, hpress⟩ | ⟨-, -, -, hpress⟩ |
    ⟨front, w, back, -, -, -, hsplit, -, -, hpress⟩
  · rw [hpress]
    exact h
  · rw [hpress]
    exact h
  · rw [hpress]
    exact h
  · rw [hpress]
    change ∀ v ∈ (clickWindow g front.length w).windows, v.Bounded
    rw [(clickWindow_windows hsplit).1]
    rw [hsplit] at h
    have hw := h w (List.mem_append_right front List.mem_cons_self)
    intro v hv
    rcases List.mem_append.mp hv with hv | hv
    · refine h v ?_
      rcases List.mem_append.mp hv with hv | hv
      · exact List.mem_append_left _ hv
      · exact List.mem_append_right front (List.mem_cons_of_mem w hv)
    · rw [List.mem_singleton.mp hv, clicked]
      split_ifs
      · exact hw
      · exact hw.recolor

theorem bounded_drag {g : GuiState} (h : ∀ w ∈ g.windows, w.Bounded) :
    ∀ w ∈ (drag g).windows, w.Bounded := by
  rw [drag]
  cases g.dragWindow with
  | none => exact h
  | some i =>
    intro v hv
    rcases mem_modify hv with hv | ⟨w, hw, rfl⟩
    · exact h v hv
    · exact (h w hw).move _ _

/-- The mouse reports a position on the screen. -/
structure OnScreen (fb : Framebuffer) (sample : Sample) : Prop where
  x : 0 ≤ sample.x ∧ sample.x < fb.width
  y : 0 ≤ sample.y ∧ sample.y < fb.height
  y_lt : sample.y < 2147483648

instance (fb : Framebuffer) (sample : Sample) : Decidable (OnScreen fb sample) :=
  decidable_of_iff ((0 ≤ sample.x ∧ sample.x < fb.width) ∧ (0 ≤ sample.y ∧ sample.y < fb.height) ∧
    sample.y < 2147483648) ⟨fun h ↦ ⟨h.1, h.2.1, h.2.2⟩, fun h ↦ ⟨h.x, h.y, h.y_lt⟩⟩

/-- The reports of the mouse are on the screen. -/
def Desktop.Pointed (d : Desktop) (input : UpdateInput) : Prop :=
  ∀ sample ∈ input.mouse, OnScreen d.fb sample

/-- When the screen is drawn, no window reaches over the left or the upper edge. -/
def Desktop.Clean (d : Desktop) (input : UpdateInput) : Prop :=
  redraws (guiInput d.gui input.mouse) input.now = true →
    ∀ w ∈ (guiInput d.gui input.mouse).windows, w.Uncut

instance (d : Desktop) (input : UpdateInput) : Decidable (d.Pointed input) :=
  inferInstanceAs (Decidable (∀ sample ∈ input.mouse, OnScreen d.fb sample))

instance (d : Desktop) (input : UpdateInput) : Decidable (d.Clean input) :=
  inferInstanceAs (Decidable (_ → ∀ w ∈ (guiInput d.gui input.mouse).windows, w.Uncut))

/-- The bounds that hold in all runs. -/
structure Arranged (d : Desktop) : Prop where
  windows : ∀ w ∈ d.gui.windows, w.Bounded
  cursor_x : 0 ≤ d.gui.cursorX ∧ d.gui.cursorX < 2147483648
  cursor_y : 0 ≤ d.gui.cursorY ∧ d.gui.cursorY < 2147483648

@[simp] theorem drag_cursor (g : GuiState) :
    (drag g).cursorX = g.cursorX ∧ (drag g).cursorY = g.cursorY := by
  rw [drag]
  cases g.dragWindow <;> exact ⟨rfl, rfl⟩

theorem press_cursor (g : GuiState) :
    (press g).cursorX = g.cursorX ∧ (press g).cursorY = g.cursorY := by
  rcases press_cases g with ⟨-, hpress⟩ | ⟨-, -, hpress⟩ | ⟨-, -, -, hpress⟩ |
    ⟨front, w, back, -, -, -, -, -, -, hpress⟩
  · rw [hpress]
    exact ⟨rfl, rfl⟩
  · rw [hpress]
    exact ⟨rfl, rfl⟩
  · rw [hpress]
    exact ⟨rfl, rfl⟩
  · rw [hpress, clickWindow]
    split_ifs <;> exact ⟨rfl, rfl⟩

/-- The step lemma, for the input of an update. -/
theorem Arranged.input {d : Desktop} (h : Arranged d) {input : UpdateInput}
    (hpointed : d.Pointed input) (fb : Framebuffer) (hold : Option Press) :
    Arranged { gui := guiInput d.gui input.mouse, fb := fb, hold := hold } := by
  have hcursor : (guiInput d.gui input.mouse).cursorX = (moveCursor d.gui input.mouse).cursorX ∧
      (guiInput d.gui input.mouse).cursorY = (moveCursor d.gui input.mouse).cursorY := by
    rw [guiInput, (drag_cursor _).1, (drag_cursor _).2]
    exact press_cursor _
  refine ⟨bounded_drag (bounded_press ?_), ?_, ?_⟩
  · rw [moveCursor_windows]
    exact h.windows
  · change 0 ≤ (guiInput d.gui input.mouse).cursorX ∧ _
    rw [hcursor.1]
    cases hmouse : input.mouse with
    | none => exact h.cursor_x
    | some sample =>
      obtain ⟨hlow, hhigh⟩ := (hpointed sample hmouse).x
      have hrow := d.fb.row_le
      have hpitch := d.fb.pitch_lt
      exact ⟨hlow, by change sample.x < _; omega⟩
  · change 0 ≤ (guiInput d.gui input.mouse).cursorY ∧ _
    rw [hcursor.2]
    cases hmouse : input.mouse with
    | none => exact h.cursor_y
    | some sample => exact ⟨(hpointed sample hmouse).y.1, (hpointed sample hmouse).y_lt⟩

theorem bounded_firstWindows : ∀ w ∈ firstWindows, w.Bounded := by
  intro w hw
  rcases List.mem_cons.mp hw with rfl | hw
  · exact ⟨by decide, by decide, by decide, by decide, by decide, by decide, by decide, by decide⟩
  · rw [List.mem_singleton.mp hw]
    exact ⟨by decide, by decide, by decide, by decide, by decide, by decide, by decide, by decide⟩

section Runs

variable (glyph : UInt8 → ℕ → UInt8)

/-- An update that draws the screen. -/
theorem guiUpdate_of_redraws {g : GuiState} {fb : Framebuffer} (hpresent : fb.present = true)
    {mouse : Option Sample} {now : ℕ} (hredraws : redraws (guiInput g mouse) now = true) :
    guiUpdate glyph g fb mouse now =
      ({ guiInput g mouse with lastRedrawTick := now }, guiDraw glyph (guiInput g mouse) fb) := by
  rw [guiUpdate, if_neg (by simp [hpresent])]
  dsimp only
  rw [if_pos hredraws]

theorem arranged_init (fb : Framebuffer) : Arranged (Desktop.init fb) := by
  cases hpresent : fb.present with
  | false =>
    have hinit : (Desktop.init fb).gui = GuiState.boot := if_pos hpresent
    refine ⟨?_, ?_, ?_⟩
    · rw [hinit]
      exact fun w hw ↦ absurd hw List.not_mem_nil
    · rw [hinit]
      decide
    · rw [hinit]
      decide
  | true =>
    have hinit : (Desktop.init fb).gui = { GuiState.boot with
        cursorX := i32 (fb.width / 2 : ℕ)
        cursorY := i32 (fb.height / 2 : ℕ)
        windows := firstWindows } := if_neg (by simp [hpresent])
    have hrow := fb.row_le
    have hpitch := fb.pitch_lt
    have hheight := fb.height_lt
    refine ⟨?_, ?_, ?_⟩
    · rw [hinit]
      exact bounded_firstWindows
    · rw [hinit]
      change 0 ≤ i32 (fb.width / 2 : ℕ) ∧ i32 (fb.width / 2 : ℕ) < 2147483648
      rw [i32_of_range (by omega) (by omega)]
      omega
    · rw [hinit]
      change 0 ≤ i32 (fb.height / 2 : ℕ) ∧ i32 (fb.height / 2 : ℕ) < 2147483648
      rw [i32_of_range (by omega) (by omega)]
      omega

theorem arranged_update {d : Desktop} {input : UpdateInput} (h : Arranged d)
    (hpointed : d.Pointed input) : Arranged (d.update glyph input) := by
  cases hpresent : d.fb.present with
  | false =>
    rw [Desktop.update, guiUpdate_of_absent glyph hpresent]
    exact ⟨h.windows, h.cursor_x, h.cursor_y⟩
  | true =>
    obtain ⟨tick, hgui⟩ := guiUpdate_gui glyph (g := d.gui) hpresent input.mouse input.now
    rw [Desktop.update, hgui]
    obtain ⟨hwindows, hx, hy⟩ := h.input hpointed d.fb none
    exact ⟨hwindows, hx, hy⟩

/-- In every run with reports on the screen, an update that draws the screen draws what it should show,
as long as no window is cut by the left or the upper edge when the screen is drawn. -/
theorem composited_of_clean (fb : Framebuffer) (inputs : List UpdateInput) (input : UpdateInput)
    (d : Desktop)
    (hclean : AlongRun (Desktop.step glyph) (fun d input ↦ d.Pointed input ∧ d.Clean input)
      (Desktop.init fb) (inputs ++ [input]))
    (hrun : runFrom (Desktop.step glyph) (Desktop.init fb) inputs = some d)
    (hpresent : d.fb.present = true)
    (hredraws : redraws (guiInput d.gui input.mouse) input.now = true) :
    Composited (d.update glyph input).gui (d.update glyph input).fb := by
  have harranged : Arranged d := by
    refine invariant_runFrom (fun h hstepClean hstep ↦ ?_) (arranged_init fb) hclean.left hrun
    obtain rfl := Option.some.inj hstep
    exact arranged_update glyph h hstepClean.1
  obtain ⟨⟨hpointed, huncut⟩, -⟩ := hclean.of_append hrun
  obtain ⟨hwindows, hx, hy⟩ := harranged.input hpointed d.fb none
  rw [Desktop.update, guiUpdate_of_redraws glyph hpresent hredraws]
  exact composited_guiDraw hpresent hx hy hwindows (huncut hredraws)

end Runs

/-- The second window is dragged over the first one, and the screen is drawn. -/
def dragOver : UpdateInput where
  mouse := some { x := 110, y := 105, buttons := 1 }
  now := 3

theorem composited_of_clean_drag_over :
    ∃ d, runFrom (Desktop.step fun _ _ ↦ 0) (Desktop.init blackScreen)
        [⟨some ⟨310, 105, 1⟩, 0⟩] = some d ∧
      (d.update (fun _ _ ↦ 0) dragOver).gui.windows.map (fun w ↦ (w.x, w.y)) = [(40, 40), (100, 100)] ∧
      Composited (d.update (fun _ _ ↦ 0) dragOver).gui (d.update (fun _ _ ↦ 0) dragOver).fb := by
  have hclean : AlongRun (Desktop.step fun _ _ ↦ 0) (fun d input ↦ d.Pointed input ∧ d.Clean input)
      (Desktop.init blackScreen) ([⟨some ⟨310, 105, 1⟩, 0⟩] ++ [dragOver]) := by decide
  refine ⟨_, rfl, by decide, ?_⟩
  exact composited_of_clean (fun _ _ ↦ 0) blackScreen _ dragOver _ hclean rfl rfl (by decide)

/-! ### A window that is cut -/

/-- A row that is not one of the eight rows of a character. -/
theorem not_inCell_of_row {r c x y : ℕ} (hy : y + 8 ≤ 2 ^ 32) (hrow : r < y ∨ y + 8 ≤ r) :
    ¬ InCell r c x y := by
  rintro ⟨row, hlt, column, -, hr, -⟩
  rw [wrap32_of_lt (by omega)] at hr
  omega

/-- Of a window that starts beyond the left edge, nothing but the title is drawn. -/
theorem drawWindow_of_cut {glyph : UInt8 → ℕ → UInt8} {fb : Framebuffer}
    (hpresent : fb.present = true) {win : Window} (hbounded : win.Bounded) (hx : win.x < 0)
    {px py : ℕ} (hpx : px < fb.width) (hy : wrap32 (u32 win.y + 6) + 8 ≤ 2 ^ 32)
    (hrow : py < wrap32 (u32 win.y + 6) ∨ wrap32 (u32 win.y + 6) + 8 ≤ py) :
    (drawWindow glyph fb win).pixels py px = fb.pixels py px := by
  have hlow := hbounded.x_range.1
  rw [drawWindow_pixels hpresent hbounded.title_char_ne fun k _ ↦ not_inCell_of_row hy hrow,
    if_neg (not_filled_of_neg hlow hx hpx), if_neg (not_filled_of_neg hlow hx hpx)]

/-- The second window is dragged over the left edge by its title bar. -/
def dragLeft : List UpdateInput :=
  [{ mouse := some { x := 310, y := 105, buttons := 1 }, now := 0 }]

/-- The screen is drawn with the cursor at the left. -/
def drawCut : UpdateInput where
  mouse := some { x := 5, y := 200, buttons := 1 }
  now := 3

/-- The first window, which is where it was. -/
def wholeWindow : Window := firstWindows.get ⟨0, by decide⟩

/-- The second window, which is cut. -/
def cutWindow : Window := { firstWindows.get ⟨1, by decide⟩ with x := -5, y := 195 }

theorem bounded_wholeWindow : wholeWindow.Bounded :=
  bounded_firstWindows _ (List.get_mem _ _)

theorem bounded_cutWindow : cutWindow.Bounded :=
  ⟨by decide, by decide, by decide, by decide, by decide, by decide, by decide, by decide⟩

/-- A pixel in the middle of the second window has the colour of the background. -/
theorem guiDraw_cutWindow (glyph : UInt8 → ℕ → UInt8) {g : GuiState}
    (hwindows : g.windows = [wholeWindow, cutWindow]) (hx : g.cursorX = 5)
    (hy : g.cursorY = 200) : (guiDraw glyph g blackScreen).pixels 250 100 = 0x00102030 := by
  have hback : (fbFillRect blackScreen 0 0 blackScreen.width blackScreen.height
      0x00102030).pixels 250 100 = 0x00102030 := by
    rw [fbFillRect_pixels rfl, if_pos (by decide)]
    rfl
  have hscreen := sameScreen_fillRect blackScreen 0 0 blackScreen.width blackScreen.height
    0x00102030
  have hcursor : cursorLayer g (100 : ℕ) (250 : ℕ) = none := by
    rw [cursorLayer, hx, hy]
    rfl
  rw [guiDraw, hwindows, List.foldl_cons, List.foldl_cons, List.foldl_nil]
  generalize fbFillRect blackScreen 0 0 blackScreen.width blackScreen.height 0x00102030 = fb
    at hback hscreen ⊢
  have hwhole := hscreen.trans (sameScreen_drawWindow glyph fb wholeWindow)
  have hall := hwhole.trans (sameScreen_drawWindow glyph (drawWindow glyph fb wholeWindow) cutWindow)
  have hmiss : ¬ wholeWindow.InTitle (100 : ℕ) (250 : ℕ) := by
    rintro ⟨k, -, -, -, -, hlow⟩
    exact absurd hlow (by decide)
  have hlayer : wholeWindow.layer (100 : ℕ) (250 : ℕ) = none := by decide
  have hpx : 100 < (drawWindow glyph (drawWindow glyph fb wholeWindow) cutWindow).width :=
    lt_of_lt_of_eq (by decide) hall.width.symm
  have hpy : 250 < (drawWindow glyph (drawWindow glyph fb wholeWindow) cutWindow).height :=
    lt_of_lt_of_eq (by decide) hall.height.symm
  calc (drawCursor g (drawWindow glyph (drawWindow glyph fb wholeWindow) cutWindow)).pixels 250 100
      = (cursorLayer g (100 : ℕ) (250 : ℕ)).getD
        ((drawWindow glyph (drawWindow glyph fb wholeWindow) cutWindow).pixels 250 100) :=
        drawCursor_layer hall.present (by omega) (by omega) (by omega) (by omega) hpx hpy
    _ = (drawWindow glyph (drawWindow glyph fb wholeWindow) cutWindow).pixels 250 100 := by
        rw [hcursor, Option.getD_none]
    _ = (drawWindow glyph fb wholeWindow).pixels 250 100 :=
        drawWindow_of_cut hwhole.present bounded_cutWindow (by decide)
          (lt_of_lt_of_eq (by decide) hwhole.width.symm) (by decide) (by decide)
    _ = fb.pixels 250 100 := by
        rw [drawWindow_layer hscreen.present bounded_wholeWindow (by decide)
          (lt_of_lt_of_eq (by decide) hscreen.width.symm)
          (lt_of_lt_of_eq (by decide) hscreen.height.symm) hmiss, hlayer, Option.getD_none]
    _ = 0x00102030 := hback

theorem not_composited_of_cut {d : Desktop} (hfb : d.fb = blackScreen)
    (hwindows : (guiInput d.gui drawCut.mouse).windows = [wholeWindow, cutWindow])
    (hx : (guiInput d.gui drawCut.mouse).cursorX = 5)
    (hy : (guiInput d.gui drawCut.mouse).cursorY = 200)
    (hredraws : redraws (guiInput d.gui drawCut.mouse) drawCut.now = true) :
    ¬ Composited (d.update (fun _ _ ↦ 0) drawCut).gui (d.update (fun _ _ ↦ 0) drawCut).fb := by
  intro hall
  have hpresent : d.fb.present = true := by
    rw [hfb]
    rfl
  rw [Desktop.update, guiUpdate_of_redraws _ hpresent hredraws, hfb] at hall
  generalize guiInput d.gui drawCut.mouse = g at *
  have hscreen := sameScreen_guiDraw (fun _ _ ↦ 0) g blackScreen
  have htitles : ∀ w ∈ g.windows, ¬ w.InTitle (100 : ℕ) (250 : ℕ) := by
    rw [hwindows]
    intro w hw
    rcases List.mem_cons.mp hw with rfl | hw
    · rintro ⟨k, -, -, -, -, hlow⟩
      exact absurd hlow (by decide)
    · rw [List.mem_singleton.mp hw]
      rintro ⟨k, -, -, -, -, hlow⟩
      exact absurd hlow (by decide)
  have hcursor : cursorLayer g (100 : ℕ) (250 : ℕ) = none := by
    rw [cursorLayer, hx, hy]
    rfl
  have hexpected : expectedColor g (100 : ℕ) (250 : ℕ) = 0x00553333 := by
    rw [expectedColor, hcursor, hwindows]
    decide
  have hsame := hall 100 250 (lt_of_lt_of_eq (by decide) hscreen.width.symm)
    (lt_of_lt_of_eq (by decide) hscreen.height.symm) htitles
  dsimp only at hsame
  rw [guiDraw_cutWindow _ hwindows hx hy] at hsame
  exact absurd (hsame.trans hexpected) (by decide)

/-- The window that is cut by the left edge is missing on the screen. -/
theorem cut_window_missing :
    ∃ d, runFrom (Desktop.step fun _ _ ↦ 0) (Desktop.init blackScreen) dragLeft = some d ∧
      redraws (guiInput d.gui drawCut.mouse) drawCut.now = true ∧
      ¬ Composited (d.update (fun _ _ ↦ 0) drawCut).gui (d.update (fun _ _ ↦ 0) drawCut).fb := by
  refine ⟨_, rfl, by decide, not_composited_of_cut rfl (by decide) (by decide) (by decide)
    (by decide)⟩

end MegKer.Gui
