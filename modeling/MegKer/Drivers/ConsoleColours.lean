import MegKer.Drivers.Console
import Mathlib.Data.List.Infix
import Mathlib.Data.List.Induction

/-!
# The colours of the console

A cell of the screen has a character in its lower byte and a colour in its upper one, and the console
only knows one colour. `vga_char` widens the character before it puts the colour in. The character is a
signed one, so that a byte from 0x80 on is widened with ones, which cover the colour: the cell has the
colour 0xFF (`attribute_vgaChar`, `not_keepsColour_e_acute`).

All cells are built by `vga_char` from the start on, and scrolling copies them as they are
(`AllBuilt.putc`). So the colour of a cell tells no more than its character, which is that of the sheet
(`attributeAt_eq`): the colours stay as they are exactly when the string has no byte from 0x80 on
(`keepsColour_iff`).
-/

set_option autoImplicit false
set_option relaxedAutoImplicit false

namespace MegKer.Drivers

open Foundation

/-! ### Colours -/

/-- The attribute byte of a cell. -/
def Console.attributeAt (con : Console) (i : ℕ) : UInt8 := (con.vga i >>> 8).toUInt8

/-- The screen is cleared, and a string is printed. -/
def printCleared (before : Console) (text : List UInt8) : Option Console :=
  (archConsoleClear before).bind fun con ↦ printString con text

/-- While the string is printed, all cells have the colour of the console after each character. -/
def KeepsColour (before : Console) (text : List UInt8) : Prop :=
  ∀ past, past <+: text →
    ∃ con, printCleared before past = some con ∧ ∀ i < 2000, con.attributeAt i = vgaColor

/-- The colour of a character in its cell. -/
theorem attribute_vgaChar (c : UInt8) :
    (vgaChar c vgaColor >>> 8).toUInt8 = if c < 0x80 then vgaColor else 0xFF := by
  have hall : ∀ n < 256, (vgaChar (UInt8.ofNat n) vgaColor >>> 8).toUInt8 =
      if UInt8.ofNat n < 0x80 then vgaColor else 0xFF := by
    decide +kernel
  revert c
  exact forall_byte hall

/-! ### Cells that were built -/

/-- All cells of the screen were built by `vga_char` with the colour of the console. -/
def AllBuilt (con : Console) : Prop := ∀ i < 2000, ∃ c, con.vga i = vgaChar c vgaColor

section Step

variable {con con' : Console}

theorem AllBuilt.store (h : AllBuilt con) {i : ℕ} {c : UInt8}
    (hstore : con.store i (vgaChar c vgaColor) = some con') : AllBuilt con' := by
  rw [Console.store] at hstore
  split_ifs at hstore
  obtain rfl := Option.some.inj hstore
  intro j hj
  by_cases hji : j = i
  · exact ⟨c, by rw [hji]; exact Function.update_self _ _ _⟩
  · obtain ⟨old, hold⟩ := h j hj
    exact ⟨old, (Function.update_of_ne hji _ _).trans hold⟩

theorem AllBuilt.place (h : AllBuilt con) {c : UInt8} (hplace : putcPlace con c = some con') :
    AllBuilt con' := by
  rw [putcPlace] at hplace
  split_ifs at hplace
  · obtain rfl := Option.some.inj hplace
    exact h
  · obtain rfl := Option.some.inj hplace
    exact h
  · obtain rfl := Option.some.inj hplace
    exact h
  · obtain ⟨stored, hstore, rfl⟩ := Option.map_eq_some_iff.mp hplace
    have hstored := h.store hstore
    exact hstored

theorem AllBuilt.wrap (h : AllBuilt con) : AllBuilt (putcWrap con) := by
  rw [putcWrap]
  split_ifs
  · exact h
  · exact h

theorem AllBuilt.scroll (h : AllBuilt con) (hscroll : scroll con = some con') : AllBuilt con' := by
  obtain ⟨vga, hresult, hvga⟩ := scroll_eq con
  obtain rfl := Option.some.inj (hresult.symm.trans hscroll)
  intro i hi
  have hcell := hvga (i / 80) (by omega) (i % 80) (Nat.mod_lt i (by decide))
  rw [Nat.div_add_mod'] at hcell
  change ∃ c, vga i = _
  rw [hcell]
  split_ifs
  · exact h _ (by omega)
  · exact ⟨0x20, rfl⟩

/-- A character keeps the cells built. -/
theorem AllBuilt.putc (h : AllBuilt con) {c : UInt8} (hputc : archConsolePutc con c = some con') :
    AllBuilt con' := by
  obtain ⟨placed, hplace, hrest⟩ := Option.bind_eq_some_iff.mp hputc
  have hwrapped := (h.place hplace).wrap
  split_ifs at hrest
  · exact hwrapped.scroll hrest
  · exact Option.some.inj hrest ▸ hwrapped

theorem AllBuilt.printString (h : AllBuilt con) {text : List UInt8}
    (hprint : printString con text = some con') : AllBuilt con' := by
  induction text generalizing con with
  | nil => exact Option.some.inj hprint ▸ h
  | cons c text ih =>
    obtain ⟨next, hputc, hrest⟩ := Option.bind_eq_some_iff.mp hprint
    exact ih (h.putc hputc) hrest

end Step

theorem allBuilt_clear {before con : Console} (hclear : archConsoleClear before = some con) :
    AllBuilt con := by
  obtain ⟨vga, hresult, hvga⟩ := archConsoleClear_eq before
  obtain rfl := Option.some.inj (hresult.symm.trans hclear)
  exact fun i hi ↦ ⟨0x20, hvga i hi⟩

/-! ### The characters of the sheet -/

/-- After a string, the screen shows the sheet, in cells that were built. -/
theorem exists_printCleared (before : Console) (text : List UInt8) :
    ∃ con first, printCleared before text = some con ∧ Shows first con (layout text) ∧
      AllBuilt con := by
  obtain ⟨cleared, hclear, hblank⟩ := shows_clear before
  obtain ⟨con, first, hprint, hshows⟩ := hblank.printString text
  refine ⟨con, first, ?_, hshows, (allBuilt_clear hclear).printString hprint⟩
  rw [printCleared, hclear, Option.bind_some, hprint]

/-- The colour of a cell is that of its character on the sheet. -/
theorem attributeAt_eq {first : ℕ} {con : Console} {s : Sheet UInt8} (h : Shows first con s)
    (hbuilt : AllBuilt con) {r c : ℕ} (hr : r < 25) (hc : c < 80) :
    con.attributeAt (r * 80 + c) = if s.cells (first + r) c < 0x80 then vgaColor else 0xFF := by
  obtain ⟨char, hcell⟩ := hbuilt (r * 80 + c) (by omega)
  have hchar : char = s.cells (first + r) c := by
    rw [← h.showsFrom.cells r hr c hc, Console.charAt, hcell, toUInt8_vgaChar]
  rw [Console.attributeAt, hcell, attribute_vgaChar, hchar]

theorem layout_concat (text : List UInt8) (c : UInt8) :
    layout (text ++ [c]) = (layout text).write 80 4 (stroke c) := by
  rw [layout, layout, List.map_append, List.foldl_append]
  rfl

theorem eq_of_stroke_eq_print {c x : UInt8} (h : stroke c = .print x) : c = x := by
  rw [stroke] at h
  split_ifs at h
  exact Stroke.print.inj h

/-- A byte from 0x80 on is printed. -/
theorem stroke_of_high {c : UInt8} (h : ¬ c < 0x80) : stroke c = .print c := by
  have hne (control : UInt8) (hlow : control < 0x80) : c ≠ control := fun heq ↦ h (heq ▸ hlow)
  rw [stroke, if_neg (hne _ (by decide)), if_neg (hne _ (by decide)), if_neg (hne _ (by decide))]

/-- What is on the sheet is blank or comes from the string. -/
theorem layout_cells (text : List UInt8) (r c : ℕ) :
    (layout text).cells r c = 0x20 ∨ (layout text).cells r c ∈ text := by
  induction text using List.reverseRecOn with
  | nil => exact Or.inl rfl
  | append_singleton text char ih =>
    rw [layout_concat]
    rcases (layout text).cells_write 80 4 (stroke char) r c with hsame | hprinted
    · rw [hsame]
      exact ih.imp id fun hold ↦ List.mem_append_left _ hold
    · rw [← eq_of_stroke_eq_print hprinted]
      exact Or.inr (List.mem_append_right _ (List.mem_singleton_self char))

/-! ### Whole strings -/

/-- Without bytes from 0x80 on, the colours are kept. -/
theorem keepsColour_of_ascii (before : Console) {text : List UInt8} (h : ∀ c ∈ text, c < 0x80) :
    KeepsColour before text := by
  intro past hpast
  obtain ⟨con, first, hprint, hshows, hbuilt⟩ := exists_printCleared before past
  refine ⟨con, hprint, fun i hi ↦ ?_⟩
  have hcell := attributeAt_eq hshows hbuilt (show i / 80 < 25 by omega)
    (Nat.mod_lt i (show 0 < 80 by decide))
  rw [Nat.div_add_mod'] at hcell
  rw [hcell, if_pos]
  rcases layout_cells past (first + i / 80) (i % 80) with hblank | hmem
  · rw [hblank]
    decide
  · exact h _ (hpast.subset hmem)

/-- A byte from 0x80 on is still on the screen when it has been printed, and its cell has another
colour. -/
theorem exists_attribute_of_high (before : Console) (past : List UInt8) {c : UInt8} (h : ¬ c < 0x80) :
    ∃ con, printCleared before (past ++ [c]) = some con ∧ ∃ i < 2000, con.attributeAt i = 0xFF := by
  obtain ⟨old, first, -, hbefore, -⟩ := exists_printCleared before past
  obtain ⟨con, first', hprint, hshows, hbuilt⟩ := exists_printCleared before (past ++ [c])
  have hcolumn : (layout past).column < 80 := hbefore.showsFrom.column ▸ hbefore.col_lt
  have hwrite := layout_concat past c
  rw [stroke_of_high h] at hwrite
  have hchar : (layout (past ++ [c])).cells (layout past).row (layout past).column = c := by
    rw [hwrite]
    exact (layout past).cells_write_print 80 4 c
  have hup := (layout past).row_write 80 4 (.print c)
  rw [← hwrite, hshows.showsFrom.row] at hup
  have hon : first' ≤ (layout past).row ∧ (layout past).row < first' + 25 := by
    have hlt := hshows.row_lt
    rcases hshows.first with rfl | hlast
    · omega
    · omega
  obtain ⟨r, hr⟩ := Nat.exists_eq_add_of_le hon.1
  refine ⟨con, hprint, r * 80 + (layout past).column, by omega, ?_⟩
  rw [attributeAt_eq hshows hbuilt (by omega) hcolumn, ← hr, hchar, if_neg h]

/-- A string with such a byte does not keep the colours. -/
theorem not_keepsColour_of_high (before : Console) {text : List UInt8} {c : UInt8} (hc : c ∈ text)
    (h : ¬ c < 0x80) : ¬ KeepsColour before text := by
  intro hkeeps
  obtain ⟨past, rest, rfl⟩ := List.append_of_mem hc
  obtain ⟨con, hprint, i, hi, hattribute⟩ := exists_attribute_of_high before past h
  have hpart : past ++ [c] <+: past ++ c :: rest := ⟨rest, List.append_assoc past [c] rest⟩
  obtain ⟨con', hprint', hall⟩ := hkeeps _ hpart
  obtain rfl := Option.some.inj (hprint.symm.trans hprint')
  exact absurd (hattribute.symm.trans (hall i hi)) (by decide)

/-- For every screen before it was cleared and every string: the cells keep the colour of the console, in
every state on the way, if and only if no byte of the string is 0x80 or above. -/
theorem keepsColour_iff (before : Console) (text : List UInt8) :
    KeepsColour before text ↔ ∀ c ∈ text, c < 0x80 := by
  constructor
  · intro hkeeps c hc
    by_contra hhigh
    exact not_keepsColour_of_high before hc hhigh hkeeps
  · exact keepsColour_of_ascii before

/-- The screen at power-on. -/
def Console.boot : Console where
  cursorRow := 0
  cursorCol := 0
  vga := fun _ ↦ 0

/-- The byte 0xE9, an e with an accent. -/
theorem not_keepsColour_e_acute : ¬ KeepsColour Console.boot [0xE9] :=
  not_keepsColour_of_high Console.boot (List.mem_singleton_self _) (by decide)

end MegKer.Drivers
