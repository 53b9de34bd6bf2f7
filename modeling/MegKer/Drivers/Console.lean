import MegKer.Foundation.Loop
import MegKer.Foundation.MachineWord
import MegKer.Foundation.TextSheet

/-!
# The VGA console

The text console of `arch/x86_64/drivers/console.c`. The screen is an array of 2000 cells of 16 bits, the
rows one after the other; a cell holds a character and a colour. A write or a read outside of the array
has no result here, so that a result says that there was none.

The console shows the last rows of an endless sheet (`console_refines_sheet`). The simulation is with the
first row that is shown as a parameter (`ShowsFrom`): a character moves the cursor on the screen as it
does on the sheet, possibly to the row below the screen, and scrolling then takes the screen on by one
row. What is below the screen is blank.
-/

set_option autoImplicit false
set_option relaxedAutoImplicit false

namespace MegKer.Drivers

open Foundation

/-! ### The code -/

abbrev vgaCols : ℕ := 80

abbrev vgaRows : ℕ := 25

def vgaColor : UInt8 := 0x0F

/-- The static variables of the driver, and the cells at `VGA_ADDRESS`. -/
structure Console where
  cursorRow : ℕ
  cursorCol : ℕ
  vga : ℕ → UInt16

/-- `vga_char`. The character is a signed one, and is extended with its sign. -/
def vgaChar (c color : UInt8) : UInt16 := c.toInt8.toInt16.toUInt16 ||| color.toUInt16 <<< 8

/-- A write to the array of cells. -/
def Console.store (con : Console) (i : ℕ) (cell : UInt16) : Option Console :=
  if i < vgaRows * vgaCols then some { con with vga := Function.update con.vga i cell } else none

/-- A read from the array of cells. -/
def Console.load (con : Console) (i : ℕ) : Option UInt16 :=
  if i < vgaRows * vgaCols then some (con.vga i) else none

/-- The inner loop of `arch_console_clear`, and the last loop of `scroll`: a row is cleared. -/
def clearRow (con : Console) (r : ℕ) : Option Console :=
  (List.range' 0 vgaCols).foldlM (fun con c ↦ con.store (r * vgaCols + c) (vgaChar 0x20 vgaColor)) con

def archConsoleClear (con : Console) : Option Console :=
  ((List.range' 0 vgaRows).foldlM clearRow con).map fun con ↦
    { con with cursorRow := 0, cursorCol := 0 }

/-- The inner loop of `scroll`: a row moves up by one. -/
def moveRow (con : Console) (r : ℕ) : Option Console :=
  (List.range' 0 vgaCols).foldlM (fun con c ↦ (con.load (r * vgaCols + c)).bind fun cell ↦
    con.store ((r - 1) * vgaCols + c) cell) con

def scroll (con : Console) : Option Console :=
  ((List.range' 1 (vgaRows - 1)).foldlM moveRow con).bind fun con ↦
    (clearRow con (vgaRows - 1)).map fun con ↦ { con with cursorRow := vgaRows - 1 }

/-- The first part of `arch_console_putc`: the character, or the movement of the cursor. -/
def putcPlace (con : Console) (c : UInt8) : Option Console :=
  if c = 0x0A then some { con with cursorCol := 0, cursorRow := con.cursorRow + 1 }
  else if c = 0x0D then some { con with cursorCol := 0 }
  else if c = 0x09 then some { con with cursorCol := alignUp32 (con.cursorCol + 1) 4 }
  else
    (con.store (con.cursorRow * vgaCols + con.cursorCol) (vgaChar c vgaColor)).map fun con ↦
      { con with cursorCol := con.cursorCol + 1 }

/-- The cursor wraps to the next line. -/
def putcWrap (con : Console) : Console :=
  if vgaCols ≤ con.cursorCol then { con with cursorCol := 0, cursorRow := con.cursorRow + 1 } else con

def archConsolePutc (con : Console) (c : UInt8) : Option Console :=
  (putcPlace con c).bind fun con ↦
    if vgaRows ≤ (putcWrap con).cursorRow then scroll (putcWrap con) else some (putcWrap con)

/-- A string is printed. -/
def printString (con : Console) (s : List UInt8) : Option Console := s.foldlM archConsolePutc con

/-! ### The sheet -/

/-- The stroke of a character. -/
def stroke (c : UInt8) : Stroke UInt8 :=
  if c = 0x0A then .newline
  else if c = 0x0D then .carriageReturn
  else if c = 0x09 then .tab
  else .print c

/-- A string laid out on the sheet: 80 columns, and a tab stop every 4. -/
def layout (s : List UInt8) : Sheet UInt8 :=
  (s.map stroke).foldl (Sheet.write 80 4) (Sheet.empty 0x20)

/-- The character byte of a cell of the screen. -/
def Console.charAt (con : Console) (r c : ℕ) : UInt8 := (con.vga (r * 80 + c)).toUInt8

/-- The screen shows the rows of a sheet from `first` on, and what is below it is blank. -/
structure ShowsFrom (first : ℕ) (con : Console) (s : Sheet UInt8) : Prop where
  row : s.row = first + con.cursorRow
  column : s.column = con.cursorCol
  cells : ∀ r < 25, ∀ c < 80, con.charAt r c = s.cells (first + r) c
  below : ∀ r, 25 ≤ r → ∀ c, s.cells (first + r) c = 0x20

/-- The screen between two characters: it starts with the first row of the sheet, or ends with the row
of the cursor. -/
structure Shows (first : ℕ) (con : Console) (s : Sheet UInt8) : Prop where
  showsFrom : ShowsFrom first con s
  row_lt : con.cursorRow < 25
  col_lt : con.cursorCol < 80
  first : first = 0 ∨ con.cursorRow = 24

/-! ### The loops -/

/-- The byte of a character in its cell. -/
theorem toUInt8_vgaChar (c : UInt8) : (vgaChar c vgaColor).toUInt8 = c := by
  have hall : ∀ n < 256, (vgaChar (UInt8.ofNat n) vgaColor).toUInt8 = UInt8.ofNat n := by
    decide +kernel
  revert c
  exact forall_byte hall

section Loops

variable (con : Console)

theorem store_of_lt {i : ℕ} (hi : i < 2000) (cell : UInt16) :
    con.store i cell = some { con with vga := Function.update con.vga i cell } :=
  if_pos hi

theorem load_of_lt {i : ℕ} (hi : i < 2000) : con.load i = some (con.vga i) := if_pos hi

/-- A loop that stores to the cells of a row one after the other, and finds the cells that it has not
reached yet as they were. -/
theorem foldlM_row {r : ℕ} {body : Console → ℕ → Option Console} {cell : ℕ → UInt16}
    (hbody : ∀ vga, ∀ c < 80, (∀ i, r * 80 + c ≤ i → vga i = con.vga i) →
      body { con with vga := vga } c =
        some { con with vga := Function.update vga (r * 80 + c) (cell (r * 80 + c)) }) :
    ∃ vga, (List.range' 0 80).foldlM body con = some { con with vga := vga } ∧
      ∀ i, vga i = if r * 80 ≤ i ∧ i < r * 80 + 80 then cell i else con.vga i := by
  let invariant : ℕ → Console → Prop := fun n s ↦ ∃ vga, s = { con with vga := vga } ∧
    ∀ i, vga i = if r * 80 ≤ i ∧ i < r * 80 + n then cell i else con.vga i
  have hround : ∀ c s, 0 ≤ c → c < 0 + 80 → invariant c s →
      ∃ next, body s c = some next ∧ invariant (c + 1) next := by
    rintro c s - hc ⟨vga, rfl, hvga⟩
    have hlater : ∀ i, r * 80 + c ≤ i → vga i = con.vga i := fun i hi ↦
      (hvga i).trans (if_neg (by omega))
    refine ⟨_, hbody vga c (by omega) hlater, _, rfl, fun i ↦ ?_⟩
    by_cases hi : i = r * 80 + c
    · rw [hi, Function.update_self, if_pos (by omega)]
    · rw [Function.update_of_ne hi]
      exact (hvga i).trans (if_congr (by omega) rfl rfl)
  have hstart : invariant 0 con := ⟨con.vga, rfl, fun i ↦ (if_neg (by omega)).symm⟩
  obtain ⟨result, hresult, vga, rfl, hvga⟩ := foldlM_range' invariant hround hstart
  exact ⟨vga, hresult, hvga⟩

/-- A row is cleared. -/
theorem clearRow_eq {r : ℕ} (hr : r < 25) :
    ∃ vga, clearRow con r = some { con with vga := vga } ∧
      ∀ i, vga i =
        if r * 80 ≤ i ∧ i < r * 80 + 80 then vgaChar 0x20 vgaColor else con.vga i := by
  refine foldlM_row con fun vga c hc _ ↦ ?_
  have hlt : r * 80 + c < 2000 := by omega
  exact store_of_lt _ hlt _

/-- A row moves up. The row that is read is behind the one that is written. -/
theorem moveRow_eq {r : ℕ} (hr : r < 24) :
    ∃ vga, moveRow con (r + 1) = some { con with vga := vga } ∧
      ∀ i, vga i =
        if r * 80 ≤ i ∧ i < r * 80 + 80 then con.vga (i + 80) else con.vga i := by
  refine foldlM_row con fun vga c hc hlater ↦ ?_
  have hread : (r + 1) * 80 + c = r * 80 + c + 80 := by omega
  change ((Console.load _ ((r + 1) * 80 + c)).bind fun cell ↦
    Console.store _ ((r + 1 - 1) * 80 + c) cell) = _
  rw [load_of_lt _ (by omega), Option.bind_some, Nat.add_sub_cancel, store_of_lt _ (by omega), hread]
  dsimp only
  rw [hlater _ (by omega)]

/-- All cells are cleared, and the cursor is at the start. -/
theorem archConsoleClear_eq :
    ∃ vga, archConsoleClear con = some { cursorRow := 0, cursorCol := 0, vga := vga } ∧
      ∀ i < 2000, vga i = vgaChar 0x20 vgaColor := by
  let invariant : ℕ → Console → Prop := fun n s ↦ ∃ vga, s = { con with vga := vga } ∧
    ∀ i < n * 80, vga i = vgaChar 0x20 vgaColor
  have hround : ∀ r s, 0 ≤ r → r < 0 + 25 → invariant r s →
      ∃ next, clearRow s r = some next ∧ invariant (r + 1) next := by
    rintro r s - hr ⟨vga, rfl, hvga⟩
    obtain ⟨vga', hclear, hvga'⟩ := clearRow_eq { con with vga := vga } (r := r) (by omega)
    refine ⟨_, hclear, vga', rfl, fun i hi ↦ ?_⟩
    rw [hvga' i]
    split_ifs with hrow
    · rfl
    · exact hvga i (by omega)
  have hstart : invariant 0 con := ⟨con.vga, rfl, fun i hi ↦ absurd hi (by omega)⟩
  obtain ⟨result, hresult, vga, rfl, hvga⟩ := foldlM_range' invariant hround hstart
  refine ⟨vga, ?_, fun i hi ↦ hvga i (by omega)⟩
  rw [archConsoleClear, hresult]
  rfl

/-- All rows move up by one, and the last one is cleared. -/
theorem scroll_eq :
    ∃ vga, scroll con = some { con with vga := vga, cursorRow := 24 } ∧
      ∀ r < 25, ∀ c < 80, vga (r * 80 + c) =
        if r < 24 then con.vga ((r + 1) * 80 + c) else vgaChar 0x20 vgaColor := by
  let invariant : ℕ → Console → Prop := fun n s ↦ ∃ vga, s = { con with vga := vga } ∧
    ∀ i, vga i = if i + 80 < n * 80 then con.vga (i + 80) else con.vga i
  have hround : ∀ r s, 1 ≤ r → r < 1 + 24 → invariant r s →
      ∃ next, moveRow s r = some next ∧ invariant (r + 1) next := by
    rintro r s hpos hr ⟨vga, rfl, hvga⟩
    obtain ⟨r, rfl⟩ := Nat.exists_eq_add_of_le' hpos
    obtain ⟨vga', hmove, hvga'⟩ := moveRow_eq { con with vga := vga } (r := r) (by omega)
    refine ⟨_, hmove, vga', rfl, fun i ↦ ?_⟩
    rw [hvga' i]
    by_cases hrow : r * 80 ≤ i ∧ i < r * 80 + 80
    · rw [if_pos hrow, if_pos (by omega)]
      exact (hvga _).trans (if_neg (by omega))
    · rw [if_neg hrow]
      exact (hvga i).trans (if_congr (by omega) rfl rfl)
  have hstart : invariant 1 con := ⟨con.vga, rfl, fun i ↦ (if_neg (by omega)).symm⟩
  obtain ⟨moved, hmoved, vga, rfl, hvga⟩ := foldlM_range' invariant hround hstart
  obtain ⟨vga', hclear, hvga'⟩ := clearRow_eq { con with vga := vga } (r := 24) (by decide)
  refine ⟨vga', ?_, fun r hr c hc ↦ ?_⟩
  · change (((List.range' 1 24).foldlM moveRow con).bind fun con ↦ (clearRow con 24).map _) = _
    rw [hmoved, Option.bind_some, hclear]
    rfl
  · have hnext : r * 80 + c + 80 = (r + 1) * 80 + c := by omega
    rw [hvga']
    by_cases hlast : r < 24
    · rw [if_neg (by omega), if_pos hlast, ← hnext]
      exact (hvga _).trans (if_pos (by omega))
    · rw [if_pos (by omega), if_neg hlast]

end Loops

/-! ### The simulation -/

section Step

variable {first : ℕ} {con : Console} {s : Sheet UInt8}

/-- The tab stop behind a column. -/
theorem alignUp32_succ {column : ℕ} (h : column < 80) :
    alignUp32 (column + 1) 4 = (column / 4 + 1) * 4 := by
  have halign : alignUp32 (column + 1) (2 ^ 2) = wrap32 (column + 1 + 4 - 1) / 4 * 4 :=
    alignUp32_two_pow (by decide)
  rw [wrap32_of_lt (by omega)] at halign
  change alignUp32 (column + 1) 4 = _ at halign
  omega

/-- A character on the screen and on the sheet. -/
theorem ShowsFrom.print (h : ShowsFrom first con s) (hrow : con.cursorRow < 25)
    (hcol : con.cursorCol < 80) (c : UInt8) :
    ∃ vga, con.store (con.cursorRow * 80 + con.cursorCol) (vgaChar c vgaColor) =
        some { con with vga := vga } ∧
      ShowsFrom first { con with vga := vga, cursorCol := con.cursorCol + 1 } (s.printed c) := by
  refine ⟨_, store_of_lt con (by omega) _, h.row, congrArg (· + 1) h.column, fun r hr c' hc ↦ ?_,
    fun r hr c' ↦ ?_⟩
  · change (Function.update con.vga _ _ (r * 80 + c')).toUInt8 =
      if first + r = s.row ∧ c' = s.column then c else s.cells (first + r) c'
    rw [h.row, h.column]
    by_cases hhere : r = con.cursorRow ∧ c' = con.cursorCol
    · rw [hhere.1, hhere.2, Function.update_self, if_pos ⟨rfl, rfl⟩, toUInt8_vgaChar]
    · rw [Function.update_of_ne (by omega), if_neg (by omega)]
      exact h.cells r hr c' hc
  · change (if first + r = s.row ∧ c' = s.column then c else s.cells (first + r) c') = 0x20
    rw [h.row, if_neg (by omega)]
    exact h.below r hr c'

/-- The first part of `arch_console_putc`. The cursor may be below the screen afterwards, or beside it,
but not both. -/
theorem ShowsFrom.place (h : ShowsFrom first con s) (hrow : con.cursorRow < 25)
    (hcol : con.cursorCol < 80) (c : UInt8) :
    ∃ con' s', putcPlace con c = some con' ∧ ShowsFrom first con' s' ∧
      s.write 80 4 (stroke c) = s'.wrapped 80 ∧
      (con.cursorRow ≤ con'.cursorRow ∧ con'.cursorRow ≤ 25) ∧
      (80 ≤ con'.cursorCol → con'.cursorRow < 25) := by
  rw [putcPlace, stroke]
  split_ifs with hnewline hreturn htab
  · refine ⟨_, { s with row := s.row + 1, column := 0 }, rfl,
      ⟨congrArg (· + 1) h.row, rfl, h.cells, h.below⟩, ?_,
      ⟨Nat.le_succ _, hrow⟩, fun hwide ↦ absurd hwide (Nat.not_succ_le_zero 79)⟩
    exact (Sheet.wrapped_of_lt (Nat.zero_lt_succ 79)).symm
  · refine ⟨_, { s with column := 0 }, rfl, ⟨h.row, rfl, h.cells, h.below⟩, ?_,
      ⟨le_rfl, hrow.le⟩, fun hwide ↦ absurd hwide (Nat.not_succ_le_zero 79)⟩
    exact (Sheet.wrapped_of_lt (Nat.zero_lt_succ 79)).symm
  · refine ⟨_, { s with column := (s.column / 4 + 1) * 4 }, rfl, ⟨h.row, ?_, h.cells, h.below⟩, rfl,
      ⟨le_rfl, hrow.le⟩, fun _ ↦ hrow⟩
    change (s.column / 4 + 1) * 4 = alignUp32 (con.cursorCol + 1) 4
    rw [alignUp32_succ hcol, h.column]
  · obtain ⟨vga, hstore, hprint⟩ := h.print hrow hcol c
    refine ⟨_, s.printed c, ?_, hprint, rfl, ⟨le_rfl, hrow.le⟩, fun _ ↦ hrow⟩
    change (con.store (con.cursorRow * 80 + con.cursorCol) _).map _ = _
    rw [hstore]
    rfl

theorem ShowsFrom.wrap (h : ShowsFrom first con s) :
    ShowsFrom first (putcWrap con) (s.wrapped 80) := by
  rw [putcWrap, Sheet.wrapped, h.column]
  change ShowsFrom first (if 80 ≤ con.cursorCol then _ else _) _
  split_ifs
  · exact ⟨congrArg (· + 1) h.row, rfl, h.cells, h.below⟩
  · exact h

theorem ShowsFrom.scroll (h : ShowsFrom first con s) (hrow : con.cursorRow = 25) :
    ∃ con', scroll con = some con' ∧ ShowsFrom (first + 1) con' s ∧ con'.cursorRow = 24 ∧
      con'.cursorCol = con.cursorCol := by
  obtain ⟨vga, hscroll, hvga⟩ := scroll_eq con
  refine ⟨_, hscroll, ⟨?_, h.column, fun r hr c hc ↦ ?_, fun r hr c ↦ ?_⟩, rfl, rfl⟩
  · have hsame := h.row
    change s.row = first + 1 + 24
    omega
  · have hrows : first + 1 + r = first + (r + 1) := by omega
    change (vga (r * 80 + c)).toUInt8 = _
    rw [hvga r hr c hc, hrows]
    split_ifs with hlast
    · exact h.cells (r + 1) (by omega) c hc
    · -- The row that comes up was below the screen.
      rw [toUInt8_vgaChar, h.below (r + 1) (by omega) c]
  · have hrows : first + 1 + r = first + (r + 1) := by omega
    rw [hrows]
    exact h.below (r + 1) (by omega) c

/-- Wrapping keeps the cursor beside the screen from being below it too. -/
theorem putcWrap_bounds (con : Console) (hrow : con.cursorRow ≤ 25)
    (hcol : 80 ≤ con.cursorCol → con.cursorRow < 25) :
    con.cursorRow ≤ (putcWrap con).cursorRow ∧ (putcWrap con).cursorRow ≤ 25 ∧
      (putcWrap con).cursorCol < 80 := by
  rw [putcWrap]
  split_ifs with hbeside
  · exact ⟨Nat.le_succ _, hcol hbeside, Nat.zero_lt_succ 79⟩
  · exact ⟨le_rfl, hrow, Nat.lt_of_not_le hbeside⟩

/-- The step lemma. -/
theorem Shows.putc (h : Shows first con s) (c : UInt8) :
    ∃ con' first', archConsolePutc con c = some con' ∧
      Shows first' con' (s.write 80 4 (stroke c)) := by
  obtain ⟨placed, s', hplace, hshows, hwrite, ⟨hup, hrow⟩, hcol⟩ :=
    h.showsFrom.place h.row_lt h.col_lt c
  obtain ⟨hdown, hrow, hcol⟩ := putcWrap_bounds placed hrow hcol
  have hwrapped := hshows.wrap
  rw [hwrite, archConsolePutc, hplace, Option.bind_some]
  change ∃ con' first', (if 25 ≤ (putcWrap placed).cursorRow then _ else _) = some con' ∧ _
  split_ifs with hbottom
  · obtain ⟨con', hscroll, hshows', hlast, hsame⟩ := hwrapped.scroll (le_antisymm hrow hbottom)
    refine ⟨con', first + 1, hscroll, hshows', ?_, ?_, Or.inr hlast⟩
    · omega
    · omega
  · refine ⟨_, first, rfl, hwrapped, Nat.lt_of_not_le hbottom, hcol, h.first.imp id fun hlast ↦ ?_⟩
    omega

end Step

/-! ### Whole strings -/

/-- A string is printed. -/
theorem Shows.printString {first : ℕ} {con : Console} {s : Sheet UInt8} (h : Shows first con s)
    (text : List UInt8) :
    ∃ con' first', printString con text = some con' ∧
      Shows first' con' ((text.map stroke).foldl (Sheet.write 80 4) s) := by
  induction text generalizing first con s with
  | nil => exact ⟨con, first, rfl, h⟩
  | cons c text ih =>
    obtain ⟨next, first', hputc, hshows⟩ := h.putc c
    obtain ⟨con', last, hprint, hshows'⟩ := ih hshows
    refine ⟨con', last, ?_, hshows'⟩
    rw [Drivers.printString, List.foldlM_cons, hputc]
    exact hprint

/-- The screen and the sheet are blank at the start. -/
theorem shows_clear (con : Console) :
    ∃ con', archConsoleClear con = some con' ∧ Shows 0 con' (Sheet.empty 0x20) := by
  obtain ⟨vga, hclear, hvga⟩ := archConsoleClear_eq con
  refine ⟨_, hclear, ⟨rfl, rfl, fun r hr c hc ↦ ?_, fun r hr c ↦ rfl⟩,
    Nat.zero_lt_succ 24, Nat.zero_lt_succ 79, Or.inl rfl⟩
  change (vga (r * 80 + c)).toUInt8 = 0x20
  rw [hvga _ (by omega), toUInt8_vgaChar]

/-- Whatever is printed after the screen was cleared, no access is outside of the array of cells, the
cursor is on the screen, and the characters on the screen are those of the last 25 rows of the sheet,
up to the row of the cursor, or of the first 25. -/
theorem console_refines_sheet (before : Console) (text : List UInt8) :
    ∃ con, (archConsoleClear before).bind (fun con ↦ printString con text) = some con ∧
      con.cursorRow < 25 ∧ con.cursorCol < 80 ∧
      (layout text).row = (layout text).top 25 + con.cursorRow ∧
      (layout text).column = con.cursorCol ∧
      ∀ r < 25, ∀ c < 80, con.charAt r c = (layout text).cells ((layout text).top 25 + r) c := by
  obtain ⟨cleared, hclear, hshows⟩ := shows_clear before
  obtain ⟨con, first, hprint, hend⟩ := hshows.printString text
  have hrow : (layout text).row = first + con.cursorRow := hend.showsFrom.row
  have hfirst : (layout text).top 25 = first := by
    have hlt := hend.row_lt
    rw [Sheet.top]
    rcases hend.first with rfl | hlast
    · omega
    · omega
  rw [hclear, Option.bind_some, hfirst]
  exact ⟨con, hprint, hend.row_lt, hend.col_lt, hrow, hend.showsFrom.column, hend.showsFrom.cells⟩

end MegKer.Drivers
