import MegKer.Foundation.BitField
import Mathlib.Tactic.Ring

/-!
# Unsigned machine arithmetic on natural numbers

A machine word is a natural number, and the operations of the machine that can leave the range
`[0, 2 ^ 64)` reduce modulo `2 ^ 64`. `wrap` and `wrapSub` are unsigned addition and subtraction
after the ideal result, `wrap32` is the same for 32-bit words, `complement` is bitwise negation, and
`alignDown` and `alignUp` are the usual mask expressions `x & ~(a - 1)` and `(x + a - 1) & ~(a - 1)`.

For an alignment that is a power of two the mask expressions are the arithmetic ones:
`alignDown_two_pow` and `alignUp_two_pow`.
-/

set_option autoImplicit false
set_option relaxedAutoImplicit false

namespace MegKer.Foundation

/-- The value of an unsigned 64-bit expression whose ideal result is `x`. -/
def wrap (x : ℕ) : ℕ := x % 2 ^ 64

/-- The value of an unsigned 32-bit expression whose ideal result is `x`. -/
def wrap32 (x : ℕ) : ℕ := x % 2 ^ 32

/-- The value of an unsigned 16-bit expression whose ideal result is `x`. -/
def wrap16 (x : ℕ) : ℕ := x % 2 ^ 16

/-- Unsigned 64-bit subtraction. -/
def wrapSub (x y : ℕ) : ℕ := (x + (2 ^ 64 - y % 2 ^ 64)) % 2 ^ 64

/-- Bitwise negation of a 64-bit word. -/
def complement (x : ℕ) : ℕ := 2 ^ 64 - 1 - x

/-- `x & ~(align - 1)` on 64-bit words. -/
def alignDown (x align : ℕ) : ℕ := x &&& complement (align - 1)

/-- `(x + align - 1) & ~(align - 1)` on 64-bit words. -/
def alignUp (x align : ℕ) : ℕ := wrap (x + align - 1) &&& complement (align - 1)

/-- The same on 32-bit words. -/
def alignUp32 (x align : ℕ) : ℕ := wrap32 (x + align - 1) &&& (2 ^ 32 - 1 - (align - 1))

theorem wrap_lt (x : ℕ) : wrap x < 2 ^ 64 := Nat.mod_lt _ (by norm_num)

theorem wrap_of_lt {x : ℕ} (hx : x < 2 ^ 64) : wrap x = x := Nat.mod_eq_of_lt hx

theorem wrap32_of_lt {x : ℕ} (hx : x < 2 ^ 32) : wrap32 x = x := Nat.mod_eq_of_lt hx

theorem wrap16_of_lt {x : ℕ} (hx : x < 2 ^ 16) : wrap16 x = x := Nat.mod_eq_of_lt hx

theorem wrap16_lt (x : ℕ) : wrap16 x < 2 ^ 16 := Nat.mod_lt _ (by norm_num)

theorem wrap_le (x : ℕ) : wrap x ≤ x := Nat.mod_le _ _

/-- Offsets to an address stay different when the sums wrap. -/
theorem wrap_add_inj {a i j : ℕ} (hi : i < 2 ^ 64) (hj : j < 2 ^ 64) (h : wrap (a + i) = wrap (a + j)) :
    i = j := by
  unfold wrap at h
  omega

theorem wrapSub_of_le {x y : ℕ} (hle : y ≤ x) (hx : x < 2 ^ 64) : wrapSub x y = x - y := by
  unfold wrapSub
  rw [Nat.mod_eq_of_lt (by omega : y < 2 ^ 64)]
  omega

/-- The mask `~(align - 1)` of a power of two is the field of the bits above it. -/
theorem mask_two_pow {bits width : ℕ} (hbits : bits ≤ width) :
    2 ^ width - 1 - (2 ^ bits - 1) = fieldMask bits width := by
  have hpow : 2 ^ bits ≤ 2 ^ width := Nat.pow_le_pow_right (by norm_num) hbits
  have hpos : 0 < 2 ^ bits := Nat.two_pow_pos bits
  unfold fieldMask
  omega

/-- Masking the low bits of a word away is rounding down to a multiple of the power of two. -/
theorem alignDown_two_pow {x bits : ℕ} (hx : x < 2 ^ 64) (hbits : bits ≤ 64) :
    alignDown x (2 ^ bits) = x / 2 ^ bits * 2 ^ bits := by
  rw [alignDown, complement, mask_two_pow hbits, and_fieldMask hbits, Nat.mod_eq_of_lt hx]

/-- Away from the top of the address range, `alignUp` rounds up to a multiple of the power of
two. -/
theorem alignUp_two_pow {x bits : ℕ} (hx : x + 2 ^ bits - 1 < 2 ^ 64) (hbits : bits ≤ 64) :
    alignUp x (2 ^ bits) = (x + 2 ^ bits - 1) / 2 ^ bits * 2 ^ bits := by
  have hdown := alignDown_two_pow (wrap_lt (x + 2 ^ bits - 1)) hbits
  rw [wrap_of_lt hx] at hdown
  rw [alignUp, wrap_of_lt hx]
  exact hdown

/-- On 32-bit words, `alignUp32` rounds the sum down, which may have wrapped. -/
theorem alignUp32_two_pow {x bits : ℕ} (hbits : bits ≤ 32) :
    alignUp32 x (2 ^ bits) = wrap32 (x + 2 ^ bits - 1) / 2 ^ bits * 2 ^ bits := by
  rw [alignUp32, mask_two_pow hbits, and_fieldMask hbits, wrap32, Nat.mod_mod]

/-- What holds of the numbers below 256 holds of all bytes. -/
theorem forall_byte {P : UInt8 → Prop} (h : ∀ n < 256, P (UInt8.ofNat n)) (c : UInt8) : P c := by
  have hc := h c.toNat c.toNat_lt
  rwa [UInt8.ofNat_toNat] at hc

end MegKer.Foundation
