import MegKer.Foundation.MachineWord
import Mathlib.Tactic.SplitIfs

/-!
# The framebuffer

The drawing primitives of `arch/x86_64/drivers/framebuffer.c` and `arch/aarch64/drivers/framebuffer.c`,
which are the same in both ports. The framebuffer is an array of rows of pixels; coordinates and sizes
are unsigned 32-bit words, and so are their sums.

`fbFillRect_pixels` gives every pixel after a rectangle is filled: the rectangle is clipped after its
right and lower edges have been computed modulo `2 ^ 32`. Text is drawn pixel by pixel, and changes
nothing outside its cells (`fbDrawString_pixels`).
-/

set_option autoImplicit false
set_option relaxedAutoImplicit false

namespace MegKer.Gui

open Foundation

/-- The framebuffer. A row of four bytes for each pixel fits into the pitch, which is a 32-bit word. -/
structure Framebuffer where
  present : Bool
  width : ℕ
  height : ℕ
  pitch : ℕ
  /-- The colour of a pixel, by its row and its column. -/
  pixels : ℕ → ℕ → ℕ
  row_le : width * 4 ≤ pitch
  pitch_lt : pitch < 2 ^ 32
  height_lt : height < 2 ^ 32

namespace Framebuffer

variable (fb : Framebuffer)

/-- A pixel of the screen. -/
def set (row column rgb : ℕ) : Framebuffer :=
  { fb with pixels := fun r c ↦ if r = row ∧ c = column then rgb else fb.pixels r c }

/-- The size of the screen is the same. -/
structure SameScreen (fb fb' : Framebuffer) : Prop where
  present : fb'.present = fb.present
  width : fb'.width = fb.width
  height : fb'.height = fb.height

theorem SameScreen.refl : SameScreen fb fb := ⟨rfl, rfl, rfl⟩

variable {fb}

theorem SameScreen.trans {fb' fb'' : Framebuffer} (h : SameScreen fb fb')
    (h' : SameScreen fb' fb'') : SameScreen fb fb'' :=
  ⟨h'.present.trans h.present, h'.width.trans h.width, h'.height.trans h.height⟩

theorem sameScreen_set (row column rgb : ℕ) : SameScreen fb (fb.set row column rgb) :=
  ⟨rfl, rfl, rfl⟩

end Framebuffer

open Framebuffer

/-- The colour that is stored for `rgb`. -/
def stored (rgb : ℕ) : ℕ := rgb &&& 0x00FFFFFF

def fbPutPixel (fb : Framebuffer) (x y rgb : ℕ) : Framebuffer :=
  if fb.present = false ∨ fb.width ≤ x ∨ fb.height ≤ y then fb else fb.set y x (stored rgb)

/-- The inner loop of `fb_fill_rect`: the pixels of one row from `x` on. -/
def fillRow (fb : Framebuffer) (row x count color : ℕ) : Framebuffer :=
  (List.range' x count).foldl (fun fb column ↦ fb.set row column color) fb

def fbFillRect (fb : Framebuffer) (x y w h rgb : ℕ) : Framebuffer :=
  if fb.present = false then fb
  else
    let x1 := min (wrap32 (x + w)) fb.width
    let y1 := min (wrap32 (y + h)) fb.height
    if x1 ≤ x ∨ y1 ≤ y then fb
    else
      (List.range' y (y1 - y)).foldl (fun fb row ↦ fillRow fb row x (x1 - x) (stored rgb)) fb

section Text

-- The rows of the glyph of a character, as `font8x8_glyph` returns them.
variable (glyph : UInt8 → ℕ → UInt8)

/-- The colour of a pixel of a glyph. -/
def glyphColor (c : UInt8) (row column fg bg : ℕ) : ℕ :=
  if (glyph c row).toNat.testBit (7 - column) then fg else bg

def fbDrawChar (fb : Framebuffer) (x y : ℕ) (c : UInt8) (fg bg : ℕ) : Framebuffer :=
  (List.range 8).foldl (fun fb row ↦ (List.range 8).foldl (fun fb column ↦
    fbPutPixel fb (wrap32 (x + column)) (wrap32 (y + row)) (glyphColor glyph c row column fg bg))
      fb) fb

/-- The loop of `fb_draw_string`, from the pen position `(cx, cy)` on. -/
def drawStringFrom (x fg bg : ℕ) : List UInt8 → ℕ → ℕ → Framebuffer → Framebuffer
  | [], _, _, fb => fb
  | c :: s, cx, cy, fb =>
    if c = 10 then drawStringFrom x fg bg s x (wrap32 (cy + 8)) fb
    else drawStringFrom x fg bg s (wrap32 (cx + 8)) cy (fbDrawChar glyph fb cx cy c fg bg)

def fbDrawString (fb : Framebuffer) (x y : ℕ) (s : List UInt8) (fg bg : ℕ) : Framebuffer :=
  drawStringFrom glyph x fg bg s x y fb

end Text

/-! ### The screen keeps its size -/

theorem sameScreen_foldl {α : Type} {f : Framebuffer → α → Framebuffer}
    (h : ∀ fb x, SameScreen fb (f fb x)) (xs : List α) (fb : Framebuffer) :
    SameScreen fb (xs.foldl f fb) := by
  induction xs generalizing fb with
  | nil => exact SameScreen.refl fb
  | cons x xs ih => exact (h fb x).trans (ih (f fb x))

theorem sameScreen_putPixel (fb : Framebuffer) (x y rgb : ℕ) :
    SameScreen fb (fbPutPixel fb x y rgb) := by
  rw [fbPutPixel]
  split_ifs
  · exact SameScreen.refl fb
  · exact sameScreen_set y x (stored rgb)

theorem sameScreen_drawChar {glyph : UInt8 → ℕ → UInt8} (fb : Framebuffer) (x y : ℕ) (c : UInt8)
    (fg bg : ℕ) : SameScreen fb (fbDrawChar glyph fb x y c fg bg) :=
  sameScreen_foldl (fun fb _ ↦ sameScreen_foldl (fun fb _ ↦ sameScreen_putPixel fb _ _ _) _ fb) _ fb

theorem sameScreen_drawString {glyph : UInt8 → ℕ → UInt8} (fb : Framebuffer) (x y : ℕ)
    (s : List UInt8) (fg bg : ℕ) : SameScreen fb (fbDrawString glyph fb x y s fg bg) := by
  have hloop : ∀ (s : List UInt8) (cx cy : ℕ) (fb : Framebuffer),
      SameScreen fb (drawStringFrom glyph x fg bg s cx cy fb) := by
    intro s
    induction s with
    | nil => exact fun _ _ fb ↦ SameScreen.refl fb
    | cons c s ih =>
      intro cx cy fb
      rw [drawStringFrom]
      split_ifs
      · exact ih _ _ fb
      · exact (sameScreen_drawChar fb cx cy c fg bg).trans (ih _ _ _)
  exact hloop s x y fb

/-! ### Rectangles -/

theorem fillRow_spec (row color : ℕ) (columns : List ℕ) (fb : Framebuffer) :
    SameScreen fb (columns.foldl (fun fb column ↦ fb.set row column color) fb) ∧
      ∀ r c, (columns.foldl (fun fb column ↦ fb.set row column color) fb).pixels r c =
        if r = row ∧ c ∈ columns then color else fb.pixels r c := by
  induction columns generalizing fb with
  | nil => exact ⟨SameScreen.refl fb, fun r c ↦ by simp⟩
  | cons column columns ih =>
    obtain ⟨hscreen, hpixels⟩ := ih (fb.set row column color)
    refine ⟨(sameScreen_set row column color).trans hscreen, fun r c ↦ ?_⟩
    rw [List.foldl_cons, hpixels]
    change (if _ then _ else if _ then _ else _) = _
    by_cases hr : r = row
    · by_cases hc : c ∈ columns
      · simp [hr, hc]
      · by_cases hcolumn : c = column
        · simp [hr, hcolumn]
        · simp [hr, hc, hcolumn]
    · simp [hr]

theorem fillRows_spec (x count color : ℕ) (rows : List ℕ) (fb : Framebuffer) :
    SameScreen fb (rows.foldl (fun fb row ↦ fillRow fb row x count color) fb) ∧
      ∀ r c, (rows.foldl (fun fb row ↦ fillRow fb row x count color) fb).pixels r c =
        if r ∈ rows ∧ c ∈ List.range' x count then color else fb.pixels r c := by
  induction rows generalizing fb with
  | nil => exact ⟨SameScreen.refl fb, fun r c ↦ by simp⟩
  | cons row rows ih =>
    obtain ⟨hfirst, hrow⟩ := fillRow_spec row color (List.range' x count) fb
    obtain ⟨hscreen, hpixels⟩ := ih (fillRow fb row x count color)
    refine ⟨hfirst.trans hscreen, fun r c ↦ ?_⟩
    rw [List.foldl_cons, hpixels, fillRow, hrow]
    by_cases hc : c ∈ List.range' x count
    · by_cases hr : r ∈ rows
      · simp only [hr, hc, and_self, List.mem_cons, or_true, if_true]
      · simp only [hr, hc, and_true, if_false, List.mem_cons, or_false]
    · simp only [hc, and_false, if_false]

theorem mem_range'_sub {a b n : ℕ} : n ∈ List.range' a (b - a) ↔ a ≤ n ∧ n < b := by
  rw [List.mem_range'_1]
  omega

theorem sameScreen_fillRect (fb : Framebuffer) (x y w h rgb : ℕ) :
    SameScreen fb (fbFillRect fb x y w h rgb) := by
  rw [fbFillRect]
  split_ifs with hpresent
  · exact SameScreen.refl fb
  · dsimp only
    split_ifs with hempty
    · exact SameScreen.refl fb
    · exact (fillRows_spec _ _ _ _ fb).1

/-- Every pixel after a rectangle is filled. -/
theorem fbFillRect_pixels {fb : Framebuffer} (hpresent : fb.present = true) (x y w h rgb r c : ℕ) :
    (fbFillRect fb x y w h rgb).pixels r c =
      if (y ≤ r ∧ r < min (wrap32 (y + h)) fb.height) ∧ x ≤ c ∧ c < min (wrap32 (x + w)) fb.width
      then stored rgb else fb.pixels r c := by
  have hnot : ¬ fb.present = false := by simp [hpresent]
  rw [fbFillRect, if_neg hnot]
  dsimp only
  split_ifs with hempty hin hin
  · omega
  · rfl
  · rw [(fillRows_spec _ _ _ _ fb).2, if_pos ⟨mem_range'_sub.mpr hin.1, mem_range'_sub.mpr hin.2⟩]
  · rw [(fillRows_spec _ _ _ _ fb).2, if_neg fun hmem ↦
      hin ⟨mem_range'_sub.mp hmem.1, mem_range'_sub.mp hmem.2⟩]

/-! ### Text -/

/-- A pixel of a framebuffer is the same. -/
structure SamePixel (r c : ℕ) (fb fb' : Framebuffer) : Prop where
  screen : SameScreen fb fb'
  pixel : fb'.pixels r c = fb.pixels r c

theorem SamePixel.refl (r c : ℕ) (fb : Framebuffer) : SamePixel r c fb fb :=
  ⟨SameScreen.refl fb, rfl⟩

theorem SamePixel.trans {r c : ℕ} {fb fb' fb'' : Framebuffer} (h : SamePixel r c fb fb')
    (h' : SamePixel r c fb' fb'') : SamePixel r c fb fb'' :=
  ⟨h.screen.trans h'.screen, h'.pixel.trans h.pixel⟩

/-- A loop that leaves a pixel alone in every round leaves it alone. -/
theorem SamePixel.foldl {r c : ℕ} {α : Type} {f : Framebuffer → α → Framebuffer} {xs : List α}
    (h : ∀ x ∈ xs, ∀ fb, SamePixel r c fb (f fb x)) (fb : Framebuffer) :
    SamePixel r c fb (xs.foldl f fb) := by
  induction xs generalizing fb with
  | nil => exact SamePixel.refl r c fb
  | cons x xs ih =>
    obtain ⟨hhead, htail⟩ := List.forall_mem_cons.mp h
    exact (hhead fb).trans (ih htail (f fb x))

theorem samePixel_putPixel {r c x y : ℕ} (hother : ¬ (r = y ∧ c = x)) (rgb : ℕ)
    (fb : Framebuffer) : SamePixel r c fb (fbPutPixel fb x y rgb) := by
  rw [fbPutPixel]
  split_ifs with hclip
  · exact SamePixel.refl r c fb
  · exact ⟨sameScreen_set y x (stored rgb), if_neg hother⟩

/-- The pixel `(r, c)` is in the cell of a character at `(x, y)`. -/
def InCell (r c x y : ℕ) : Prop :=
  ∃ row < 8, ∃ column < 8, r = wrap32 (y + row) ∧ c = wrap32 (x + column)

section Glyphs

variable {glyph : UInt8 → ℕ → UInt8}

theorem samePixel_drawChar {r c x y : ℕ} (hcell : ¬ InCell r c x y) (char : UInt8) (fg bg : ℕ)
    (fb : Framebuffer) : SamePixel r c fb (fbDrawChar glyph fb x y char fg bg) := by
  refine SamePixel.foldl (fun row hrow fb ↦ ?_) fb
  refine SamePixel.foldl (fun column hcolumn fb ↦ ?_) fb
  refine samePixel_putPixel (fun hsame ↦ hcell ?_) _ fb
  exact ⟨row, List.mem_range.mp hrow, column, List.mem_range.mp hcolumn, hsame.1, hsame.2⟩

/-- A string on one line changes nothing outside the cells of its characters. -/
theorem samePixel_drawStringFrom {r c x y fg bg : ℕ} {s : List UInt8} {cx : ℕ}
    (hline : ∀ char ∈ s, char ≠ 10) (hcells : ∀ k < s.length, ¬ InCell r c (wrap32 (cx + 8 * k)) y)
    (hcx : cx < 2 ^ 32) (fb : Framebuffer) :
    SamePixel r c fb (drawStringFrom glyph x fg bg s cx y fb) := by
  induction s generalizing cx fb with
  | nil => exact SamePixel.refl r c fb
  | cons char s ih =>
    obtain ⟨hchar, hrest⟩ := List.forall_mem_cons.mp hline
    rw [drawStringFrom, if_neg hchar]
    have hfirst : ¬ InCell r c cx y := by
      have hzero := hcells 0 (Nat.zero_lt_succ _)
      rwa [Nat.mul_zero, Nat.add_zero, wrap32_of_lt hcx] at hzero
    refine (samePixel_drawChar hfirst char fg bg fb).trans (ih hrest (fun k hk ↦ ?_) ?_ _)
    · have hnext := hcells (k + 1) (Nat.succ_lt_succ hk)
      have hpen : wrap32 (wrap32 (cx + 8) + 8 * k) = wrap32 (cx + 8 * (k + 1)) := by
        simp only [wrap32, Nat.mod_add_mod]
        congr 1
        omega
      rwa [hpen]
    · exact Nat.mod_lt _ (by decide)

/-- `fb_draw_string` on one line. -/
theorem fbDrawString_pixels {r c x y : ℕ} {s : List UInt8} (hline : ∀ char ∈ s, char ≠ 10)
    (hcells : ∀ k < s.length, ¬ InCell r c (wrap32 (x + 8 * k)) y) (hx : x < 2 ^ 32) (fg bg : ℕ)
    (fb : Framebuffer) : SamePixel r c fb (fbDrawString glyph fb x y s fg bg) :=
  samePixel_drawStringFrom hline hcells hx fb

end Glyphs

end MegKer.Gui
