import Mathlib.Logic.Function.Basic
import Mathlib.Tactic.Ring

/-!
# Bits packed into bytes

A bit vector stored eight bits to a byte, the bit of index `i` in byte `i / 8` at position
`i % 8`. `PackedBits.set` and `PackedBits.clear` rewrite one byte by a mask, and `PackedBits.test`
shifts one byte down. The byte and position arithmetic is settled here once: setting or clearing
one index is the pointwise update of the tested bits (`test_set`, `test_clear`).
-/

set_option autoImplicit false
set_option relaxedAutoImplicit false

namespace MegKer.Foundation

/-- Bits packed eight to a byte, by byte offset. -/
abbrev PackedBits := ℕ → BitVec 8

namespace PackedBits

/-- Set one bit: `bytes[i / 8] |= 1 << (i % 8)`. -/
def set (bytes : PackedBits) (i : ℕ) : PackedBits :=
  Function.update bytes (i / 8) (bytes (i / 8) ||| 1#8 <<< (i % 8))

/-- Clear one bit: `bytes[i / 8] &= ~(1 << (i % 8))`. -/
def clear (bytes : PackedBits) (i : ℕ) : PackedBits :=
  Function.update bytes (i / 8) (bytes (i / 8) &&& ~~~(1#8 <<< (i % 8)))

/-- Test one bit: `(bytes[i / 8] >> (i % 8)) & 1`. -/
def test (bytes : PackedBits) (i : ℕ) : Bool :=
  (bytes (i / 8) >>> (i % 8)) &&& 1#8 == 1#8

/-- The tested bit is the bit of the byte at the index's position. -/
theorem test_eq_getLsbD (bytes : PackedBits) (i : ℕ) :
    test bytes i = (bytes (i / 8)).getLsbD (i % 8) := by
  have hbit : ∀ x : BitVec 8, (x &&& 1#8 == 1#8) = x.getLsbD 0 := by decide
  rw [test, hbit, BitVec.getLsbD_ushiftRight, Nat.add_zero]

private theorem mask_getLsbD {i j : ℕ} (hj : j < 8) :
    (1#8 <<< i).getLsbD j = decide (i = j) := by
  rw [BitVec.getLsbD_shiftLeft, BitVec.getLsbD_one]
  by_cases h : i = j
  · simp [h, hj]
  · by_cases hlt : j < i
    · simp [h, hlt]
    · have hpos : j - i ≠ 0 := by omega
      simp [h, hlt, hpos]

private theorem index_eq_iff {i j : ℕ} (hbyte : j / 8 = i / 8) :
    i % 8 = j % 8 ↔ i = j := by
  omega

/-- Setting one bit changes the tested bits at that index only. -/
@[simp] theorem test_set (bytes : PackedBits) (i j : ℕ) :
    test (set bytes i) j = (decide (i = j) || test bytes j) := by
  rw [test_eq_getLsbD, test_eq_getLsbD, set]
  by_cases hbyte : j / 8 = i / 8
  · rw [hbyte, Function.update_self, BitVec.getLsbD_or,
      mask_getLsbD (Nat.mod_lt j (by norm_num)), Bool.or_comm]
    simp only [index_eq_iff hbyte]
  · have hne : i ≠ j := fun h ↦ hbyte (by rw [h])
    rw [Function.update_of_ne hbyte]
    simp [hne]

/-- Clearing one bit changes the tested bits at that index only. -/
@[simp] theorem test_clear (bytes : PackedBits) (i j : ℕ) :
    test (clear bytes i) j = (!decide (i = j) && test bytes j) := by
  rw [test_eq_getLsbD, test_eq_getLsbD, clear]
  have hpos : j % 8 < 8 := Nat.mod_lt j (by norm_num)
  by_cases hbyte : j / 8 = i / 8
  · rw [hbyte, Function.update_self, BitVec.getLsbD_and, BitVec.getLsbD_not,
      mask_getLsbD hpos, Bool.and_comm]
    simp only [index_eq_iff hbyte, hpos, decide_true, Bool.true_and]
  · have hne : i ≠ j := fun h ↦ hbyte (by rw [h])
    rw [Function.update_of_ne hbyte]
    simp [hne]

/-- The bytes are determined by the tested bits. -/
theorem ext_test {bytes other : PackedBits} (h : ∀ i, test bytes i = test other i) :
    bytes = other := by
  funext byte
  refine BitVec.eq_of_getLsbD_eq fun k hk ↦ ?_
  have hbit := h (8 * byte + k)
  rwa [test_eq_getLsbD, test_eq_getLsbD, Nat.mul_add_div (by norm_num), Nat.div_eq_of_lt hk,
    Nat.add_zero, Nat.mul_add_mod, Nat.mod_eq_of_lt hk] at hbit

theorem clear_comm (bytes : PackedBits) (i j : ℕ) :
    (bytes.clear i).clear j = (bytes.clear j).clear i := by
  refine ext_test fun k ↦ ?_
  rw [test_clear, test_clear, test_clear, test_clear, Bool.and_left_comm]

/-- Every bit of a vector of all-ones bytes is set. -/
theorem test_ones (i : ℕ) : test (fun _ ↦ 0xFF#8) i = true := by
  have hones : ∀ k < 8, (0xFF#8).getLsbD k = true := by decide
  rw [test_eq_getLsbD]
  exact hones _ (Nat.mod_lt i (by norm_num))

end PackedBits

end MegKer.Foundation
