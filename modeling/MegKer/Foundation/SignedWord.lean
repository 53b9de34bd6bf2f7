import Mathlib.Data.Int.Init

/-!
# Signed machine arithmetic

A signed 32-bit value is an integer in `[-2 ^ 31, 2 ^ 31)`. `i32` is the value of a signed expression
after its ideal result, and of a conversion from another type; `u32` is the conversion back to an
unsigned word. `checked` is the value of a signed expression where an overflow has no meaning.
-/

set_option autoImplicit false
set_option relaxedAutoImplicit false

namespace MegKer.Foundation

/-- The value of a signed 32-bit expression whose ideal result is `n`. -/
def i32 (n : ℤ) : ℤ := (n + 2147483648) % 4294967296 - 2147483648

/-- A 64-bit word as a signed number. -/
def i64 (n : ℕ) : ℤ := if n < 9223372036854775808 then n else n - 18446744073709551616

/-- The unsigned 32-bit word with the bits of `n`. -/
def u32 (n : ℤ) : ℕ := (n % 4294967296).toNat

/-- The value of a signed 32-bit expression that must not overflow. -/
def checked (n : ℤ) : Option ℤ := if -2147483648 ≤ n ∧ n < 2147483648 then some n else none

theorem checked_of_range {n : ℤ} (hlow : -2147483648 ≤ n) (hhigh : n < 2147483648) :
    checked n = some n :=
  if_pos ⟨hlow, hhigh⟩

theorem i32_of_range {n : ℤ} (hlow : -2147483648 ≤ n) (hhigh : n < 2147483648) : i32 n = n := by
  unfold i32
  omega

theorem i32_range (n : ℤ) : -2147483648 ≤ i32 n ∧ i32 n < 2147483648 := by
  unfold i32
  omega

theorem i64_of_lt {n : ℕ} (hn : n < 9223372036854775808) : i64 n = n := if_pos hn

theorem u32_of_nonneg {n : ℤ} (hlow : 0 ≤ n) (hhigh : n < 4294967296) : (u32 n : ℤ) = n := by
  unfold u32
  omega

theorem u32_of_neg {n : ℤ} (hlow : -4294967296 ≤ n) (hhigh : n < 0) :
    (u32 n : ℤ) = n + 4294967296 := by
  unfold u32
  omega

end MegKer.Foundation
