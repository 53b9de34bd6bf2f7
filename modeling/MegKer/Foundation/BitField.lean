import Mathlib.Data.Nat.Bitwise
import Mathlib.Tactic.Ring

/-!
# Bit fields of machine words

A table entry packs an aligned address and a few flag bits below it. `fieldMask low high` is the
mask of the bits `low ≤ i < high`, and `hasFlags word mask` is the C test `word & mask`. The
lemmas here take a word `address | flags` apart again: masking gives the address back
(`or_and_fieldMask`), and a test of a flag below the field sees the flags only
(`testBit_or_of_aligned`).
-/

set_option autoImplicit false
set_option relaxedAutoImplicit false

namespace MegKer.Foundation

/-- The mask of the bits from `low` up to, but not including, `high`. -/
def fieldMask (low high : ℕ) : ℕ := 2 ^ high - 2 ^ low

/-- The C condition `word & mask`. -/
def hasFlags (word mask : ℕ) : Bool := (word &&& mask) != 0

/-- Testing a one-bit mask is testing the bit. -/
theorem hasFlags_two_pow (word i : ℕ) : hasFlags word (2 ^ i) = word.testBit i := by
  unfold hasFlags
  rw [Nat.and_two_pow]
  cases word.testBit i <;> simp

theorem testBit_fieldMask {low high : ℕ} (hle : low ≤ high) (i : ℕ) :
    (fieldMask low high).testBit i = decide (low ≤ i ∧ i < high) := by
  have hsplit : fieldMask low high = (2 ^ (high - low) - 1) * 2 ^ low := by
    rw [fieldMask, Nat.sub_mul, ← pow_add, Nat.sub_add_cancel hle, Nat.one_mul]
  rw [hsplit, Nat.testBit_mul_two_pow, Nat.testBit_two_pow_sub_one]
  by_cases hi : low ≤ i
  · have hiff : i - low < high - low ↔ i < high := by omega
    simp [hi, hiff]
  · simp [hi]

/-- Masking a field drops the bits below it and above it. -/
theorem and_fieldMask {low high : ℕ} (hle : low ≤ high) (x : ℕ) :
    x &&& fieldMask low high = x % 2 ^ high / 2 ^ low * 2 ^ low := by
  apply Nat.eq_of_testBit_eq
  intro i
  rw [Nat.testBit_and, testBit_fieldMask hle, Nat.testBit_mul_two_pow, Nat.testBit_div_two_pow,
    Nat.testBit_mod_two_pow]
  by_cases hi : low ≤ i
  · rw [Nat.sub_add_cancel hi]
    simp [hi, Bool.and_comm]
  · simp [hi]

theorem and_fieldMask_of_aligned {low high x : ℕ} (hle : low ≤ high) (halign : 2 ^ low ∣ x)
    (hx : x < 2 ^ high) : x &&& fieldMask low high = x := by
  rw [and_fieldMask hle, Nat.mod_eq_of_lt hx, Nat.div_mul_cancel halign]

theorem two_pow_dvd_and_fieldMask {low high : ℕ} (hle : low ≤ high) (x : ℕ) :
    2 ^ low ∣ x &&& fieldMask low high := by
  rw [and_fieldMask hle]
  exact Nat.dvd_mul_left _ _

/-- Bits below the field do not show in it. -/
theorem or_and_fieldMask {low high : ℕ} (hle : low ≤ high) (x : ℕ) {flags : ℕ}
    (hflags : flags < 2 ^ low) :
    (x ||| flags) &&& fieldMask low high = x &&& fieldMask low high := by
  apply Nat.eq_of_testBit_eq
  intro i
  rw [Nat.testBit_and, Nat.testBit_and, Nat.testBit_or, testBit_fieldMask hle]
  by_cases hi : low ≤ i
  · have hzero : flags.testBit i = false :=
      Nat.testBit_lt_two_pow (lt_of_lt_of_le hflags (Nat.pow_le_pow_right (by norm_num) hi))
    simp [hzero]
  · simp [hi]

/-- An aligned address put together with flags below it is found again by the mask. -/
theorem address_or_and_fieldMask {low high x flags : ℕ} (hle : low ≤ high)
    (halign : 2 ^ low ∣ x) (hx : x < 2 ^ high) (hflags : flags < 2 ^ low) :
    (x ||| flags) &&& fieldMask low high = x := by
  rw [or_and_fieldMask hle x hflags, and_fieldMask_of_aligned hle halign hx]

/-- An aligned address has no bits below its alignment. -/
theorem testBit_of_aligned {low x : ℕ} (halign : 2 ^ low ∣ x) {i : ℕ} (hi : i < low) :
    x.testBit i = false := by
  obtain ⟨k, rfl⟩ := halign
  rw [Nat.mul_comm, Nat.testBit_mul_two_pow]
  simp [Nat.not_le.mpr hi]

theorem testBit_or_of_aligned {low x : ℕ} (halign : 2 ^ low ∣ x) (flags : ℕ) {i : ℕ}
    (hi : i < low) : (x ||| flags).testBit i = flags.testBit i := by
  rw [Nat.testBit_or, testBit_of_aligned halign hi, Bool.false_or]

end MegKer.Foundation
