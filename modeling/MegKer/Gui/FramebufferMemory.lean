import MegKer.Foundation.ByteMemory
import MegKer.Foundation.SignedWord
import MegKer.Gui.Framebuffer
import Mathlib.Logic.Relation

/-!
# The framebuffer in memory

The drawing primitives of the two `framebuffer.c` as they write to memory: a pixel is a cell of four
bytes at `addr + y * pitch + 4 * x`, and `fb_fill_rect` goes along a row with a pointer of its own. The
geometry is what the boot loader or the firmware reports, and nothing is known about it but the sizes of
the fields; the pitch need not be a multiple of four, and may be smaller than a row.

All that a primitive does to memory is a sequence of stores to cells on the screen, each with the upper
byte zero (`Paints`), whatever its arguments are. When the rows do not overlap, this determines what a
call can change (`OnlyPixels`): bytes of cells, and no cell without clearing its upper byte
(`DrawCall.onlyPixels`).

`Renders` connects this to the array of pixels of `Framebuffer`: the primitives there do to the pixels
what the ones here do to the cells.
-/

set_option autoImplicit false
set_option relaxedAutoImplicit false

namespace MegKer.Gui

open Foundation

/-- `fb_info_t`. A framebuffer for which there is no `fb_info_t` yet is one that is not present. -/
structure FbInfo where
  present : Bool
  addr : ℕ
  pitch : ℕ
  width : ℕ
  height : ℕ
  pitch_lt : pitch < 2 ^ 32
  width_lt : width < 2 ^ 32
  height_lt : height < 2 ^ 32

/-- The variables of the loop in `fb_draw_line`. -/
structure LinePoint where
  x : ℤ
  y : ℤ
  err : ℤ
  deriving DecidableEq, Repr

/-- What stays the same in that loop. -/
structure Line where
  x1 : ℤ
  y1 : ℤ
  dx : ℤ
  sx : ℤ
  dy : ℤ
  sy : ℤ
  deriving DecidableEq, Repr

/-- The variables before the loop. The sign of `dy` is negative. -/
def lineTo (x0 y0 x1 y1 : ℤ) : Line where
  x1 := x1
  y1 := y1
  dx := if x1 > x0 then i32 (x1 - x0) else i32 (x0 - x1)
  sx := if x0 < x1 then 1 else -1
  dy := if y1 > y0 then i32 (y0 - y1) else i32 (y1 - y0)
  sy := if y0 < y1 then 1 else -1

/-- The point at which the loop starts. -/
def Line.start (line : Line) (x0 y0 : ℤ) : LinePoint := ⟨x0, y0, i32 (line.dx + line.dy)⟩

/-- One round of the loop, after the point was drawn. -/
def Line.advance (line : Line) (p : LinePoint) : LinePoint :=
  let e2 := i32 (2 * p.err)
  let p := if e2 ≥ line.dy then { p with err := i32 (p.err + line.dy), x := i32 (p.x + line.sx) } else p
  if e2 ≤ line.dx then { p with err := i32 (p.err + line.dx), y := i32 (p.y + line.sy) } else p

namespace FbInfo

variable (info : FbInfo)

/-- The address of the cell of a pixel. -/
def cell (x y : ℕ) : ℕ := info.addr + y * info.pitch + x * 4

/-- `fb_put_pixel`. -/
def putPixel (mem : ByteMemory) (x y rgb : ℕ) : ByteMemory :=
  if info.present = false ∨ info.width ≤ x ∨ info.height ≤ y then mem
  else mem.storeU32 (info.cell x y) (stored rgb)

/-- The inner loop of `fb_fill_rect`, which stores `count` cells from the pointer `p` on. -/
def fillCells (mem : ByteMemory) (p count color : ℕ) : ByteMemory :=
  (List.range count).foldl (fun mem i ↦ mem.storeU32 (p + 4 * i) color) mem

/-- `fb_fill_rect`. -/
def fillRect (mem : ByteMemory) (x y w h rgb : ℕ) : ByteMemory :=
  if info.present = false then mem
  else
    let x1 := min (wrap32 (x + w)) info.width
    let y1 := min (wrap32 (y + h)) info.height
    if x1 ≤ x ∨ y1 ≤ y then mem
    else
      (List.range (y1 - y)).foldl
        (fun mem j ↦ fillCells mem (info.cell x (y + j)) (x1 - x) (stored rgb)) mem

/-- The loop of `fb_draw_line`, for `fuel` rounds; when it does not end by then, there is no result. -/
def drawLineFrom (line : Line) (rgb : ℕ) : (fuel : ℕ) → LinePoint → ByteMemory → Option ByteMemory
  | 0, _, _ => none
  | fuel + 1, p, mem =>
    let mem := info.putPixel mem (u32 p.x) (u32 p.y) rgb
    if p.x = line.x1 ∧ p.y = line.y1 then some mem
    else drawLineFrom line rgb fuel (line.advance p) mem

/-- `fb_draw_line`. -/
def drawLine (fuel : ℕ) (mem : ByteMemory) (x0 y0 x1 y1 : ℤ) (rgb : ℕ) : Option ByteMemory :=
  info.drawLineFrom (lineTo x0 y0 x1 y1) rgb fuel ((lineTo x0 y0 x1 y1).start x0 y0) mem

section Text

-- The rows of the glyph of a character, as `font8x8_glyph` returns them.
variable (glyph : UInt8 → ℕ → UInt8)

/-- `fb_draw_char`. -/
def drawChar (mem : ByteMemory) (x y : ℕ) (c : UInt8) (fg bg : ℕ) : ByteMemory :=
  (List.range 8).foldl (fun mem row ↦ (List.range 8).foldl (fun mem column ↦
    info.putPixel mem (wrap32 (x + column)) (wrap32 (y + row)) (glyphColor glyph c row column fg bg))
      mem) mem

/-- The loop of `fb_draw_string`, for `fuel` rounds, from the pen position `(cx, cy)` on. The string is
read from memory as the loop comes to it, so a string that lies in the framebuffer changes while it is
drawn. -/
def drawStringFrom (x fg bg : ℕ) : (fuel s cx cy : ℕ) → ByteMemory → Option ByteMemory
  | 0, _, _, _, _ => none
  | fuel + 1, s, cx, cy, mem =>
    let c := mem s
    if c = 0 then some mem
    else if c = 10 then drawStringFrom x fg bg fuel (wrap (s + 1)) x (wrap32 (cy + 8)) mem
    else drawStringFrom x fg bg fuel (wrap (s + 1)) (wrap32 (cx + 8)) cy
      (info.drawChar glyph mem cx cy c fg bg)

/-- `fb_draw_string`. -/
def drawString (fuel : ℕ) (mem : ByteMemory) (x y s fg bg : ℕ) : Option ByteMemory :=
  info.drawStringFrom glyph x fg bg fuel s x y mem

end Text

end FbInfo

/-- A call of a primitive. -/
inductive DrawCall
  | putPixel (x y rgb : ℕ)
  | fillRect (x y w h rgb : ℕ)
  | drawLine (x0 y0 x1 y1 : ℤ) (rgb : ℕ)
  | drawChar (x y : ℕ) (c : UInt8) (fg bg : ℕ)
  | drawString (x y s fg bg : ℕ)
  deriving DecidableEq, Repr

/-- The memory after a call, when its loop ends within `fuel` rounds. -/
def DrawCall.run (info : FbInfo) (glyph : UInt8 → ℕ → UInt8) (fuel : ℕ) (mem : ByteMemory) :
    DrawCall → Option ByteMemory
  | .putPixel x y rgb => some (info.putPixel mem x y rgb)
  | .fillRect x y w h rgb => some (info.fillRect mem x y w h rgb)
  | .drawLine x0 y0 x1 y1 rgb => info.drawLine fuel mem x0 y0 x1 y1 rgb
  | .drawChar x y c fg bg => some (info.drawChar glyph mem x y c fg bg)
  | .drawString x y s fg bg => info.drawString glyph fuel mem x y s fg bg

/-! ### Stores to cells -/

section Paints

variable (info : FbInfo)

/-- A store to a cell on the screen, with the upper byte zero. -/
def PixelStore (before after : ByteMemory) : Prop :=
  ∃ x y value, x < info.width ∧ y < info.height ∧ value < 2 ^ 24 ∧
    after = before.storeU32 (info.cell x y) value

/-- Any number of such stores. -/
def Paints : ByteMemory → ByteMemory → Prop := Relation.ReflTransGen (PixelStore info)

variable {info}

theorem stored_lt (rgb : ℕ) : stored rgb < 2 ^ 24 :=
  lt_of_le_of_lt Nat.and_le_right (by norm_num)

theorem Paints.of_store (mem : ByteMemory) {x y : ℕ} (rgb : ℕ) (hx : x < info.width)
    (hy : y < info.height) : Paints info mem (mem.storeU32 (info.cell x y) (stored rgb)) :=
  .single ⟨x, y, stored rgb, hx, hy, stored_lt rgb, rfl⟩

/-- A loop each round of which paints. -/
theorem Paints.foldl {α : Type} {f : ByteMemory → α → ByteMemory} {xs : List α}
    (h : ∀ a ∈ xs, ∀ mem, Paints info mem (f mem a)) (mem : ByteMemory) :
    Paints info mem (xs.foldl f mem) := by
  induction xs generalizing mem with
  | nil => exact .refl
  | cons a xs ih =>
    obtain ⟨hhead, htail⟩ := List.forall_mem_cons.mp h
    exact (hhead mem).trans (ih htail (f mem a))

theorem paints_putPixel (mem : ByteMemory) (x y rgb : ℕ) :
    Paints info mem (info.putPixel mem x y rgb) := by
  rw [FbInfo.putPixel]
  split_ifs with hclip
  · exact .refl
  · simp only [not_or, not_le] at hclip
    exact .of_store mem rgb hclip.2.1 hclip.2.2

theorem paints_fillRect (mem : ByteMemory) (x y w h rgb : ℕ) :
    Paints info mem (info.fillRect mem x y w h rgb) := by
  rw [FbInfo.fillRect]
  split_ifs
  · exact .refl
  · dsimp only
    split_ifs with hempty
    · exact .refl
    · refine Paints.foldl (fun j hj mem ↦ ?_) mem
      refine Paints.foldl (fun i hi mem ↦ ?_) mem
      have hj := List.mem_range.mp hj
      have hi := List.mem_range.mp hi
      have hcell : info.cell x (y + j) + 4 * i = info.cell (x + i) (y + j) := by
        simp only [FbInfo.cell]
        omega
      rw [hcell]
      exact .of_store mem rgb (by omega) (by omega)

theorem paints_drawLineFrom (line : Line) (rgb fuel : ℕ) :
    ∀ (p : LinePoint) (mem mem' : ByteMemory),
      info.drawLineFrom line rgb fuel p mem = some mem' → Paints info mem mem' := by
  induction fuel with
  | zero => exact fun p mem mem' h ↦ absurd h (Option.some_ne_none mem').symm
  | succ fuel ih =>
    intro p mem mem' h
    rw [FbInfo.drawLineFrom] at h
    have hpixel : Paints info mem (info.putPixel mem (u32 p.x) (u32 p.y) rgb) :=
      paints_putPixel mem (u32 p.x) (u32 p.y) rgb
    split_ifs at h with hend
    · rwa [Option.some.inj h] at hpixel
    · exact hpixel.trans (ih _ _ _ h)

section Text

variable {glyph : UInt8 → ℕ → UInt8}

theorem paints_drawChar (mem : ByteMemory) (x y : ℕ) (c : UInt8) (fg bg : ℕ) :
    Paints info mem (info.drawChar glyph mem x y c fg bg) :=
  Paints.foldl (fun _ _ mem ↦ Paints.foldl (fun _ _ mem ↦ paints_putPixel mem _ _ _) mem) mem

theorem paints_drawStringFrom (x fg bg fuel : ℕ) :
    ∀ (s cx cy : ℕ) (mem mem' : ByteMemory),
      info.drawStringFrom glyph x fg bg fuel s cx cy mem = some mem' → Paints info mem mem' := by
  induction fuel with
  | zero => exact fun s cx cy mem mem' h ↦ absurd h (Option.some_ne_none mem').symm
  | succ fuel ih =>
    intro s cx cy mem mem' h
    rw [FbInfo.drawStringFrom] at h
    split_ifs at h with hend hline
    · rw [Option.some.inj h]
      exact .refl
    · exact ih _ _ _ _ _ h
    · exact (paints_drawChar mem cx cy (mem s) fg bg).trans (ih _ _ _ _ _ h)

/-- Every primitive stores to cells on the screen only. -/
theorem DrawCall.paints {call : DrawCall} {fuel : ℕ} {mem mem' : ByteMemory}
    (h : call.run info glyph fuel mem = some mem') : Paints info mem mem' := by
  cases call with
  | putPixel x y rgb => exact Option.some.inj h ▸ paints_putPixel mem x y rgb
  | fillRect x y w h' rgb => exact Option.some.inj h ▸ paints_fillRect mem x y w h' rgb
  | drawLine x0 y0 x1 y1 rgb => exact paints_drawLineFrom _ rgb fuel _ mem mem' h
  | drawChar x y c fg bg => exact Option.some.inj h ▸ paints_drawChar mem x y c fg bg
  | drawString x y s fg bg => exact paints_drawStringFrom x fg bg fuel s x y mem mem' h

end Text

end Paints

/-! ### What can change -/

section OnlyPixels

variable {info : FbInfo}

/-- The offsets of the bytes of all rows are below `2 ^ 64`, so that these bytes are different even when
their addresses wrap. -/
theorem FbInfo.offset_lt {y j : ℕ} (hy : y < info.height) (hj : j < info.pitch) :
    y * info.pitch + j < 2 ^ 64 := by
  have hrow : y * info.pitch + info.pitch ≤ info.height * info.pitch := by
    rw [← Nat.succ_mul]
    exact Nat.mul_le_mul_right _ hy
  have hall : info.height * info.pitch ≤ 2 ^ 32 * 2 ^ 32 :=
    Nat.mul_le_mul info.height_lt.le info.pitch_lt.le
  omega

/-- Bytes of rows are different when the row or the position in the row is. -/
theorem FbInfo.row_inj {y y' j j' : ℕ} (hy : y < info.height) (hy' : y' < info.height)
    (hj : j < info.pitch) (hj' : j' < info.pitch)
    (h : wrap (info.addr + y * info.pitch + j) = wrap (info.addr + y' * info.pitch + j')) :
    y = y' ∧ j = j' := by
  rw [Nat.add_assoc, Nat.add_assoc] at h
  have hoffset := wrap_add_inj (info.offset_lt hy hj) (info.offset_lt hy' hj') h
  have hpos : 0 < info.pitch := by omega
  have hrow : y = y' := by
    have hdiv := congrArg (· / info.pitch) hoffset
    simp only [Nat.mul_comm _ info.pitch, Nat.mul_add_div hpos, Nat.div_eq_of_lt hj,
      Nat.div_eq_of_lt hj', Nat.add_zero] at hdiv
    exact hdiv
  subst hrow
  exact ⟨rfl, by omega⟩

/-- The bytes of a cell, as bytes of its row. -/
theorem FbInfo.cell_add (x y k : ℕ) :
    info.cell x y + k = info.addr + y * info.pitch + (x * 4 + k) := by
  rw [FbInfo.cell]
  omega

/-- Different pixels have different bytes. -/
theorem FbInfo.cell_inj (hpitch : 4 * info.width ≤ info.pitch) {x x' y y' k k' : ℕ}
    (hx : x < info.width) (hx' : x' < info.width) (hy : y < info.height) (hy' : y' < info.height)
    (hk : k < 4) (hk' : k' < 4) (h : wrap (info.cell x y + k) = wrap (info.cell x' y' + k')) :
    x = x' ∧ y = y' ∧ k = k' := by
  rw [FbInfo.cell_add, FbInfo.cell_add] at h
  obtain ⟨hrow, hcolumn⟩ := info.row_inj hy hy' (by omega) (by omega) h
  exact ⟨by omega, hrow, by omega⟩

/-- What a call may change: bytes of cells on the screen only, so neither the padding of the rows nor
any other memory, and a cell is left as it is or has its upper byte cleared. -/
structure OnlyPixels (info : FbInfo) (before after : ByteMemory) : Prop where
  outside : ∀ a, (∀ x < info.width, ∀ y < info.height, ∀ k < 4, a ≠ wrap (info.cell x y + k)) →
    after a = before a
  padding : ∀ y < info.height, ∀ j, 4 * info.width ≤ j → j < info.pitch →
    after (wrap (info.addr + y * info.pitch + j)) = before (wrap (info.addr + y * info.pitch + j))
  upper : ∀ x < info.width, ∀ y < info.height,
    (∀ k < 4, after (wrap (info.cell x y + k)) = before (wrap (info.cell x y + k))) ∨
      after (wrap (info.cell x y + 3)) = 0

theorem Paints.outside {before after : ByteMemory} (h : Paints info before after) {a : ℕ}
    (ha : ∀ x < info.width, ∀ y < info.height, ∀ k < 4, a ≠ wrap (info.cell x y + k)) :
    after a = before a := by
  induction h with
  | refl => rfl
  | tail _ hstore ih =>
    obtain ⟨x, y, value, hx, hy, -, rfl⟩ := hstore
    rw [ByteMemory.storeU32_outside _ _ (ha x hx y hy)]
    exact ih

theorem Paints.upper {before after : ByteMemory} (h : Paints info before after)
    (hpitch : 4 * info.width ≤ info.pitch) {x y : ℕ} (hx : x < info.width) (hy : y < info.height) :
    (∀ k < 4, after (wrap (info.cell x y + k)) = before (wrap (info.cell x y + k))) ∨
      after (wrap (info.cell x y + 3)) = 0 := by
  induction h with
  | refl => exact Or.inl fun _ _ ↦ rfl
  | tail _ hstore ih =>
    obtain ⟨x', y', value, hx', hy', hvalue, rfl⟩ := hstore
    by_cases hsame : x = x' ∧ y = y'
    · obtain ⟨rfl, rfl⟩ := hsame
      right
      have hzero : value / 16777216 = 0 := by omega
      rw [ByteMemory.storeU32_inside _ _ _ (by norm_num)]
      change UInt8.ofNat (value / 16777216) = 0
      rw [hzero]
      rfl
    · -- a store to another cell
      have hother : ∀ k < 4, ∀ j < 4, wrap (info.cell x y + k) ≠ wrap (info.cell x' y' + j) := by
        intro k hk j hj heq
        obtain ⟨hcolumn, hrow, -⟩ := info.cell_inj hpitch hx hx' hy hy' hk hj heq
        exact hsame ⟨hcolumn, hrow⟩
      refine ih.imp (fun hkept k hk ↦ ?_) fun hcleared ↦ ?_
      · rw [ByteMemory.storeU32_outside _ _ (hother k hk)]
        exact hkept k hk
      · rw [ByteMemory.storeU32_outside _ _ (hother 3 (by norm_num))]
        exact hcleared

/-- On a screen whose rows do not overlap, stores to cells change nothing else. -/
theorem Paints.onlyPixels {before after : ByteMemory} (h : Paints info before after)
    (hpitch : 4 * info.width ≤ info.pitch) : OnlyPixels info before after where
  outside := fun _ ha ↦ h.outside ha
  padding := fun y hy j hlow hhigh ↦ h.outside fun x hx y' hy' k hk heq ↦ by
    rw [FbInfo.cell_add] at heq
    obtain ⟨-, hcolumn⟩ := info.row_inj hy hy' hhigh (by omega) heq
    omega
  upper := fun _ hx _ hy ↦ h.upper hpitch hx hy

end OnlyPixels

/-! ### The array of pixels -/

section Renders

/-- The cells hold the pixels of a framebuffer. -/
structure Renders (info : FbInfo) (fb : Framebuffer) (mem : ByteMemory) : Prop where
  present_eq : info.present = fb.present
  width_eq : info.width = fb.width
  height_eq : info.height = fb.height
  pitch_eq : info.pitch = fb.pitch
  cells : ∀ row < info.height, ∀ column < info.width,
    mem.loadU32 (info.cell column row) = fb.pixels row column

variable {info : FbInfo} {fb : Framebuffer} {mem : ByteMemory}

theorem Renders.row_le (h : Renders info fb mem) : 4 * info.width ≤ info.pitch := by
  rw [h.width_eq, h.pitch_eq, Nat.mul_comm]
  exact fb.row_le

theorem Renders.store (h : Renders info fb mem) {x y value : ℕ} (hx : x < info.width)
    (hy : y < info.height) (hvalue : value < 2 ^ 32) :
    Renders info (fb.set y x value) (mem.storeU32 (info.cell x y) value) := by
  refine ⟨h.present_eq, h.width_eq, h.height_eq, h.pitch_eq, fun row hrow column hcolumn ↦ ?_⟩
  change _ = if row = y ∧ column = x then value else fb.pixels row column
  split_ifs with hsame
  · rw [hsame.1, hsame.2]
    exact ByteMemory.loadU32_storeU32_same mem _ hvalue
  · rw [← h.cells row hrow column hcolumn]
    refine ByteMemory.loadU32_storeU32_of_ne mem value fun j hj k hk heq ↦ hsame ?_
    obtain ⟨hcol, hr, -⟩ := info.cell_inj h.row_le hcolumn hx hrow hy hj hk heq
    exact ⟨hr, hcol⟩

theorem stored_lt_word (rgb : ℕ) : stored rgb < 2 ^ 32 := (stored_lt rgb).trans (by norm_num)

/-- A loop on the pixels and a loop on the cells whose rounds agree. -/
theorem Renders.foldl {α : Type} {f : Framebuffer → α → Framebuffer} {g : ByteMemory → α → ByteMemory}
    {xs : List α}
    (hround : ∀ a ∈ xs, ∀ fb mem, Renders info fb mem → Renders info (f fb a) (g mem a))
    (h : Renders info fb mem) : Renders info (xs.foldl f fb) (xs.foldl g mem) := by
  induction xs generalizing fb mem with
  | nil => exact h
  | cons a xs ih =>
    obtain ⟨hhead, htail⟩ := List.forall_mem_cons.mp hround
    exact ih htail (hhead fb mem h)

theorem Renders.putPixel (h : Renders info fb mem) (x y rgb : ℕ) :
    Renders info (fbPutPixel fb x y rgb) (info.putPixel mem x y rgb) := by
  rw [fbPutPixel, FbInfo.putPixel, h.present_eq, h.width_eq, h.height_eq]
  split_ifs with hclip
  · exact h
  · simp only [not_or, not_le] at hclip
    exact h.store (h.width_eq ▸ hclip.2.1) (h.height_eq ▸ hclip.2.2) (stored_lt_word rgb)

theorem Renders.fillRect (h : Renders info fb mem) (x y w height rgb : ℕ) :
    Renders info (fbFillRect fb x y w height rgb) (info.fillRect mem x y w height rgb) := by
  rw [fbFillRect, FbInfo.fillRect, h.present_eq, h.width_eq, h.height_eq]
  split_ifs
  · exact h
  · dsimp only
    split_ifs with hempty
    · exact h
    · have hwidth := h.width_eq
      have hheight := h.height_eq
      rw [List.range'_eq_map_range, List.foldl_map]
      refine Renders.foldl (fun j hj fb mem hrow ↦ ?_) h
      rw [fillRow, FbInfo.fillCells, List.range'_eq_map_range, List.foldl_map]
      refine Renders.foldl (fun i hi fb mem hcell ↦ ?_) hrow
      have hj := List.mem_range.mp hj
      have hi := List.mem_range.mp hi
      have hpointer : info.cell x (y + j) + 4 * i = info.cell (x + i) (y + j) := by
        simp only [FbInfo.cell]
        omega
      rw [hpointer]
      exact hcell.store (by omega) (by omega) (stored_lt_word rgb)

theorem Renders.drawChar {glyph : UInt8 → ℕ → UInt8} (h : Renders info fb mem) (x y : ℕ) (c : UInt8)
    (fg bg : ℕ) :
    Renders info (fbDrawChar glyph fb x y c fg bg) (info.drawChar glyph mem x y c fg bg) :=
  Renders.foldl (fun _ _ _ _ hrow ↦
    Renders.foldl (fun _ _ _ _ hcell ↦ hcell.putPixel _ _ _) hrow) h

/-- A string lies in memory, with its terminator, outside the cells of the screen. -/
def StringAt (info : FbInfo) (mem : ByteMemory) : (s : ℕ) → List UInt8 → Prop
  | s, [] => mem s = 0 ∧ ∀ x < info.width, ∀ y < info.height, ∀ k < 4, s ≠ wrap (info.cell x y + k)
  | s, c :: bytes =>
    mem s = c ∧ c ≠ 0 ∧ (∀ x < info.width, ∀ y < info.height, ∀ k < 4, s ≠ wrap (info.cell x y + k)) ∧
      StringAt info mem (wrap (s + 1)) bytes

/-- Drawing does not change such a string. -/
theorem StringAt.paints {mem' : ByteMemory} {bytes : List UInt8} :
    ∀ {s : ℕ}, StringAt info mem s bytes → Paints info mem mem' → StringAt info mem' s bytes := by
  induction bytes with
  | nil => exact fun h hpaints ↦ ⟨(hpaints.outside h.2).trans h.1, h.2⟩
  | cons c bytes ih =>
    rintro s ⟨hbyte, hne, hout, hrest⟩ hpaints
    exact ⟨(hpaints.outside hout).trans hbyte, hne, hout, ih hrest hpaints⟩

theorem Renders.drawStringFrom {glyph : UInt8 → ℕ → UInt8} {x fg bg : ℕ} {bytes : List UInt8} :
    ∀ {fb : Framebuffer} {mem : ByteMemory} {s cx cy : ℕ}, Renders info fb mem →
      StringAt info mem s bytes →
      ∃ mem', info.drawStringFrom glyph x fg bg (bytes.length + 1) s cx cy mem = some mem' ∧
        Renders info (Gui.drawStringFrom glyph x fg bg bytes cx cy fb) mem' := by
  induction bytes with
  | nil =>
    intro fb mem s cx cy h hstring
    exact ⟨mem, if_pos hstring.1, h⟩
  | cons c bytes ih =>
    rintro fb mem s cx cy h ⟨hbyte, hne, -, hrest⟩
    rw [List.length_cons, FbInfo.drawStringFrom, Gui.drawStringFrom, hbyte, if_neg hne]
    split_ifs
    · exact ih h hrest
    · exact ih (h.drawChar cx cy c fg bg) (hrest.paints (paints_drawChar mem cx cy c fg bg))

/-- `fb_draw_string` of a string that is not on the screen itself. -/
theorem Renders.drawString {glyph : UInt8 → ℕ → UInt8} {s : ℕ} {bytes : List UInt8}
    (h : Renders info fb mem) (hstring : StringAt info mem s bytes) (x y fg bg : ℕ) :
    ∃ mem', info.drawString glyph (bytes.length + 1) mem x y s fg bg = some mem' ∧
      Renders info (fbDrawString glyph fb x y bytes fg bg) mem' :=
  Renders.drawStringFrom h hstring

end Renders

/-- For every geometry with rows that do not overlap, every font, every content of memory and all
arguments for which it terminates: a call of a primitive is a sequence of stores to cells on the screen,
each with the upper byte zero, and changes nothing else. -/
theorem drawCall_onlyPixels (info : FbInfo) (glyph : UInt8 → ℕ → UInt8) (call : DrawCall) (fuel : ℕ)
    (mem mem' : ByteMemory) (hpitch : 4 * info.width ≤ info.pitch)
    (hrun : call.run info glyph fuel mem = some mem') :
    Paints info mem mem' ∧ OnlyPixels info mem mem' :=
  ⟨call.paints hrun, (call.paints hrun).onlyPixels hpitch⟩

/-- A screen of two by two pixels with rows of ten bytes. -/
def smallScreen : FbInfo := ⟨true, 100, 10, 2, 2, by norm_num, by norm_num, by norm_num⟩

/-- A line from one corner of that screen to the other leaves the padding alone. -/
theorem drawCall_onlyPixels_diagonal :
    ∃ mem, (DrawCall.drawLine 0 0 1 1 0xFFFFFFFF).run smallScreen (fun _ _ ↦ 0) 2 (fun _ ↦ 7) =
        some mem ∧ mem 108 = 7 := by
  have hline : ((DrawCall.drawLine 0 0 1 1 0xFFFFFFFF).run smallScreen (fun _ _ ↦ 0) 2
      fun _ ↦ 7).isSome = true := by decide +kernel
  obtain ⟨mem, hmem⟩ := Option.isSome_iff_exists.mp hline
  obtain ⟨-, honly⟩ := drawCall_onlyPixels smallScreen (fun _ _ ↦ 0) (.drawLine 0 0 1 1 0xFFFFFFFF) 2
    (fun _ ↦ 7) mem (by decide) hmem
  exact ⟨mem, hmem, honly.padding 0 (by decide) 8 (by decide) (by decide)⟩

end MegKer.Gui
