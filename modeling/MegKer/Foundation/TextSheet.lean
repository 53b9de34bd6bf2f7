import Mathlib.Data.Nat.Notation
import Mathlib.Logic.Function.Basic
import Mathlib.Tactic.SplitIfs

/-!
# Text on an endless sheet

A sheet of paper of a fixed width has rows without end. Characters are printed at the cursor, which goes
on to the next row behind the last column; a tab takes it to the next tab stop, a newline to the start of
the next row, and a carriage return to the start of the row it is in, where it prints over what is
there.

A screen of `height` rows shows the last rows of a sheet, up to the one of the cursor. `Sheet.top` is the
first row that it shows.
-/

set_option autoImplicit false
set_option relaxedAutoImplicit false

namespace MegKer.Foundation

variable {α : Type}

/-- What is done to a sheet. -/
inductive Stroke (α : Type)
  | newline
  | carriageReturn
  | tab
  | print (x : α)
  deriving DecidableEq, Repr

/-- The cells by their rows and columns, and the cursor. -/
structure Sheet (α : Type) where
  cells : ℕ → ℕ → α
  row : ℕ
  column : ℕ

namespace Sheet

/-- An empty sheet. -/
def empty (blank : α) : Sheet α where
  cells := fun _ _ ↦ blank
  row := 0
  column := 0

/-- Behind the last column the cursor goes to the next row. -/
def wrapped (columns : ℕ) (s : Sheet α) : Sheet α :=
  if columns ≤ s.column then { s with row := s.row + 1, column := 0 } else s

/-- A character at the cursor. -/
def printed (s : Sheet α) (x : α) : Sheet α :=
  { s with cells := fun row column ↦ if row = s.row ∧ column = s.column then x else s.cells row column
           column := s.column + 1 }

/-- A stroke. -/
def write (columns tabStop : ℕ) (s : Sheet α) : Stroke α → Sheet α
  | .newline => { s with row := s.row + 1, column := 0 }
  | .carriageReturn => { s with column := 0 }
  | .tab => ({ s with column := (s.column / tabStop + 1) * tabStop }).wrapped columns
  | .print x => (s.printed x).wrapped columns

/-- The first row on a screen that shows the sheet. -/
def top (height : ℕ) (s : Sheet α) : ℕ := s.row + 1 - height

theorem wrapped_of_lt {columns : ℕ} {s : Sheet α} (h : s.column < columns) : s.wrapped columns = s :=
  if_neg (Nat.not_le_of_lt h)

variable (s : Sheet α) (columns : ℕ)

theorem cells_wrapped : (s.wrapped columns).cells = s.cells := by
  rw [wrapped]
  split_ifs
  · rfl
  · rfl

theorem row_wrapped : s.row ≤ (s.wrapped columns).row ∧ (s.wrapped columns).row ≤ s.row + 1 := by
  rw [wrapped]
  split_ifs
  · exact ⟨Nat.le_succ s.row, Nat.le_refl _⟩
  · exact ⟨Nat.le_refl _, Nat.le_succ s.row⟩

variable (tabStop : ℕ)

/-- A stroke takes the cursor to the next row at most. -/
theorem row_write (stroke : Stroke α) :
    s.row ≤ (s.write columns tabStop stroke).row ∧
      (s.write columns tabStop stroke).row ≤ s.row + 1 := by
  cases stroke with
  | newline => exact ⟨Nat.le_succ s.row, Nat.le_refl _⟩
  | carriageReturn => exact ⟨Nat.le_refl _, Nat.le_succ s.row⟩
  | tab => exact row_wrapped { s with column := (s.column / tabStop + 1) * tabStop } columns
  | print x => exact row_wrapped (s.printed x) columns

/-- A character is printed at the cursor. -/
theorem cells_write_print (x : α) :
    (s.write columns tabStop (.print x)).cells s.row s.column = x := by
  rw [write, cells_wrapped]
  exact if_pos ⟨rfl, rfl⟩

/-- A stroke changes no cell, or it is the character of the cell. -/
theorem cells_write (stroke : Stroke α) (row column : ℕ) :
    (s.write columns tabStop stroke).cells row column = s.cells row column ∨
      stroke = .print ((s.write columns tabStop stroke).cells row column) := by
  cases stroke with
  | newline => exact Or.inl rfl
  | carriageReturn => exact Or.inl rfl
  | tab =>
    rw [write, cells_wrapped]
    exact Or.inl rfl
  | print x =>
    by_cases hhere : row = s.row ∧ column = s.column
    · rw [hhere.1, hhere.2, cells_write_print]
      exact Or.inr rfl
    · rw [write, cells_wrapped]
      exact Or.inl (if_neg hhere)

end Sheet

end MegKer.Foundation
