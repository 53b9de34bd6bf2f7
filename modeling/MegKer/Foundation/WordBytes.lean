import MegKer.Foundation.ByteMemory
import MegKer.Foundation.RadixTable

/-!
# The bytes of a word memory

The same memory, addressed by bytes: byte `i` of a word is the digit of weight `256 ^ i`. A byte store
changes one byte of one word (`byteAt_storeByte_same`, `byteAt_storeByte_of_ne`), and so it leaves
every table alone but the one in whose frame it falls (`sameTable_storeByte`).
-/

set_option autoImplicit false
set_option relaxedAutoImplicit false

namespace MegKer.Foundation

/-! ### One word -/

/-- Byte `i` of a word. -/
def byteOf (word i : ℕ) : UInt8 := UInt8.ofNat (word / 256 ^ i)

/-- The word with byte `i` replaced. -/
def setByte (word i : ℕ) (byte : UInt8) : ℕ :=
  word % 256 ^ i + 256 ^ i * (byte.toNat + 256 * (word / 256 ^ (i + 1)))

theorem ofNat_eq_ofNat {x y : ℕ} (h : x % 256 = y % 256) : UInt8.ofNat x = UInt8.ofNat y :=
  UInt8.toNat_inj.mp (by rw [UInt8.toNat_ofNat', UInt8.toNat_ofNat', h])

theorem setByte_div (word i : ℕ) (byte : UInt8) :
    setByte word i byte / 256 ^ i = byte.toNat + 256 * (word / 256 ^ (i + 1)) := by
  have hpos : 0 < 256 ^ i := Nat.pow_pos (by norm_num)
  rw [setByte, Nat.add_mul_div_left _ _ hpos, Nat.div_eq_of_lt (Nat.mod_lt _ hpos), Nat.zero_add]

theorem byteOf_setByte_same (word i : ℕ) (byte : UInt8) :
    byteOf (setByte word i byte) i = byte := by
  have hlt : byte.toNat < 256 := byte.toNat_lt
  rw [byteOf, setByte_div]
  refine UInt8.toNat_inj.mp ?_
  rw [UInt8.toNat_ofNat']
  omega

/-- The other bytes stay. -/
theorem byteOf_setByte_of_ne (word : ℕ) {i j : ℕ} (byte : UInt8) (hne : j ≠ i) :
    byteOf (setByte word i byte) j = byteOf word j := by
  refine ofNat_eq_ofNat ?_
  rcases Nat.lt_or_gt_of_ne hne with hlt | hgt
  · -- below byte `i`, the word is the same modulo the weight of byte `j + 1`
    obtain ⟨d, hd⟩ : 256 ^ (j + 1) ∣ 256 ^ i := Nat.pow_dvd_pow 256 hlt
    have hmod : setByte word i byte % (256 ^ j * 256) = word % (256 ^ j * 256) := by
      rw [← Nat.pow_succ, setByte, hd, Nat.mul_assoc, Nat.add_mul_mod_self_left,
        Nat.mod_mul_right_mod]
    rw [← Nat.mod_mul_right_div_self, hmod, Nat.mod_mul_right_div_self]
  · -- above it, the quotient by the weight of byte `i + 1` is the same
    obtain ⟨k, rfl⟩ := Nat.exists_eq_add_of_lt hgt
    have hlt : byte.toNat < 256 := byte.toNat_lt
    have hdiv : setByte word i byte / 256 ^ (i + 1) = word / 256 ^ (i + 1) := by
      rw [pow_succ 256 i, ← Nat.div_div_eq_div_mul, setByte_div, ← pow_succ]
      omega
    rw [show i + k + 1 = i + 1 + k by omega, Nat.pow_add, ← Nat.div_div_eq_div_mul, hdiv,
      Nat.div_div_eq_div_mul]

/-! ### Memory -/

namespace WordMemory

/-- The byte at an address. -/
def byteAt (mem : WordMemory) (a : ℕ) : UInt8 := byteOf (mem (a / 8 * 8)) (a % 8)

/-- Write one byte. -/
def storeByte (mem : WordMemory) (a : ℕ) (byte : UInt8) : WordMemory :=
  mem.store (a / 8 * 8) (setByte (mem (a / 8 * 8)) (a % 8) byte)

/-- Write `n` zero bytes. -/
def zeroBytes (mem : WordMemory) (a n : ℕ) : WordMemory :=
  (List.range n).foldl (fun mem b ↦ mem.storeByte (a + b) 0) mem

variable (mem : WordMemory)

theorem byteAt_storeByte_same (a : ℕ) (byte : UInt8) : (mem.storeByte a byte).byteAt a = byte := by
  rw [byteAt, storeByte, store_same, byteOf_setByte_same]

theorem byteAt_storeByte_of_ne {a b : ℕ} (byte : UInt8) (hne : b ≠ a) :
    (mem.storeByte a byte).byteAt b = mem.byteAt b := by
  unfold byteAt storeByte
  by_cases hword : b / 8 * 8 = a / 8 * 8
  · rw [hword, store_same, byteOf_setByte_of_ne _ _ (by omega)]
  · rw [store_of_ne _ _ hword]

theorem byteAt_storeByte (a b : ℕ) (byte : UInt8) :
    (mem.storeByte a byte).byteAt b = if b = a then byte else mem.byteAt b := by
  split_ifs with heq
  · rw [heq, byteAt_storeByte_same]
  · exact byteAt_storeByte_of_ne mem byte heq

/-- A byte store changes a word of its own frame only. -/
theorem storeByte_of_frame_ne {a b : ℕ} (byte : UInt8) (hne : b / 4096 ≠ a / 4096) :
    mem.storeByte a byte b = mem b :=
  store_of_ne _ _ (by omega)

theorem zeroBytes_succ (a n : ℕ) :
    mem.zeroBytes a (n + 1) = (mem.zeroBytes a n).storeByte (a + n) 0 := by
  rw [zeroBytes, List.range_succ, List.foldl_append]
  rfl

theorem byteAt_zeroBytes (a n b : ℕ) :
    (mem.zeroBytes a n).byteAt b = if a ≤ b ∧ b < a + n then 0 else mem.byteAt b := by
  induction n with
  | zero => exact (if_neg (by omega)).symm
  | succ n ih =>
    rw [zeroBytes_succ, byteAt_storeByte, ih]
    by_cases heq : b = a + n
    · rw [if_pos heq, if_pos (by omega)]
    · rw [if_neg heq]
      exact if_congr (by omega) rfl rfl

theorem zeroBytes_of_frame_ne {a n b : ℕ} (hn : n ≤ 4096) (ha : 4096 ∣ a)
    (hne : b / 4096 ≠ a / 4096) : mem.zeroBytes a n b = mem b := by
  induction n with
  | zero => rfl
  | succ n ih =>
    rw [zeroBytes_succ, storeByte_of_frame_ne _ _ (by omega), ih (by omega)]

end WordMemory

theorem slot_div_frame {limit table i : ℕ} (htable : IsFrame limit table) (hi : i < fanout) :
    slot table i / 4096 = table / 4096 := by
  obtain ⟨k, rfl⟩ := htable.aligned
  rw [fanout_eq] at hi
  unfold slot
  omega

/-- Memories that differ in one frame agree on the tables in the others. -/
theorem sameTable_of_frame {before after : WordMemory} {limit table frame : ℕ}
    (htable : IsFrame limit table) (hne : table / 4096 ≠ frame)
    (hsame : ∀ a, a / 4096 ≠ frame → after a = before a) : SameTable before after table :=
  fun _ hi ↦ hsame _ (by rwa [slot_div_frame htable hi])

/-- A table that is the same word by word is the same byte by byte. -/
theorem SameTable.byteAt_eq {before after : WordMemory} {table a : ℕ}
    (h : SameTable before after table) (ha : a / 4096 * 4096 = table) :
    after.byteAt a = before.byteAt a := by
  have hslot : a / 8 * 8 = slot table (a % 4096 / 8) := by
    unfold slot
    omega
  rw [WordMemory.byteAt, WordMemory.byteAt, hslot, h _ (by rw [fanout_eq]; omega)]

end MegKer.Foundation
