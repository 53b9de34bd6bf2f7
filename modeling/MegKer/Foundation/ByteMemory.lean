import MegKer.Foundation.Bytes
import MegKer.Foundation.MachineWord

/-!
# Byte-addressed memory

Memory as a function from addresses to bytes, with reads and writes of strings. A number of 64 bits is
stored with its lower half first. A store of a number of 32 bits takes a 64-bit address, and the
addresses of its four bytes wrap around.
-/

set_option autoImplicit false
set_option relaxedAutoImplicit false

namespace MegKer.Foundation

/-- The byte at each address. -/
abbrev ByteMemory := ℕ → UInt8

namespace ByteMemory

/-- Write a string at an address. -/
def writeBytes (mem : ByteMemory) (a : ℕ) (bytes : List UInt8) : ByteMemory :=
  fun x ↦ if a ≤ x ∧ x < a + bytes.length then bytes.getD (x - a) 0 else mem x

/-- Read a string at an address. -/
def readBytes (mem : ByteMemory) (a n : ℕ) : List UInt8 := (List.range n).map fun i ↦ mem (a + i)

theorem writeBytes_inside (mem : ByteMemory) (a : ℕ) {bytes : List UInt8} {i : ℕ}
    (hi : i < bytes.length) : mem.writeBytes a bytes (a + i) = bytes.getD i 0 := by
  rw [writeBytes, if_pos (by omega), Nat.add_sub_cancel_left]

theorem writeBytes_outside (mem : ByteMemory) {a x : ℕ} {bytes : List UInt8}
    (hx : x < a ∨ a + bytes.length ≤ x) : mem.writeBytes a bytes x = mem x :=
  if_neg (by omega)

/-- Reading what was written. -/
theorem readBytes_writeBytes (mem : ByteMemory) (a : ℕ) (bytes : List UInt8) :
    (mem.writeBytes a bytes).readBytes a bytes.length = bytes := by
  refine List.ext_getElem (by rw [readBytes, List.length_map, List.length_range]) fun i _ hi ↦ ?_
  simp only [readBytes, List.getElem_map, List.getElem_range]
  rw [writeBytes_inside mem a hi, List.getD_eq_getElem bytes 0 hi]

/-- Reading beside what was written. -/
theorem readBytes_writeBytes_of_apart (mem : ByteMemory) {a b n : ℕ} {bytes : List UInt8}
    (hapart : b + n ≤ a ∨ a + bytes.length ≤ b) :
    (mem.writeBytes a bytes).readBytes b n = mem.readBytes b n := by
  refine List.map_congr_left fun i hi ↦ ?_
  have hlt := List.mem_range.mp hi
  exact writeBytes_outside mem (by omega)

/-- Store a number of 32 bits. -/
def storeU32 (mem : ByteMemory) (a value : ℕ) : ByteMemory :=
  (List.range 4).foldl (fun mem k ↦ Function.update mem (wrap (a + k)) ((le32 value).getD k 0)) mem

/-- Read a number of 32 bits. -/
def loadU32 (mem : ByteMemory) (a : ℕ) : ℕ := u32At (fun k ↦ mem (wrap (a + k))) 0

/-- The bytes that are written. -/
theorem storeU32_inside (mem : ByteMemory) (a value : ℕ) {k : ℕ} (hk : k < 4) :
    mem.storeU32 a value (wrap (a + k)) = (le32 value).getD k 0 := by
  have hloop : ∀ n ≤ 4, k < n → (List.range n).foldl (fun mem k ↦
      Function.update mem (wrap (a + k)) ((le32 value).getD k 0)) mem (wrap (a + k)) =
        (le32 value).getD k 0 := by
    intro n
    induction n with
    | zero => exact fun _ hlt ↦ absurd hlt (Nat.not_lt_zero k)
    | succ n ih =>
      intro hn hlt
      rw [List.range_succ, List.foldl_append, List.foldl_cons, List.foldl_nil]
      by_cases heq : k = n
      · rw [heq, Function.update_self]
      · rw [Function.update_of_ne fun h ↦ heq (wrap_add_inj (by omega) (by omega) h)]
        exact ih (by omega) (by omega)
  exact hloop 4 le_rfl hk

/-- The other bytes. -/
theorem storeU32_outside (mem : ByteMemory) {a x : ℕ} (value : ℕ)
    (hx : ∀ k < 4, x ≠ wrap (a + k)) : mem.storeU32 a value x = mem x := by
  have hloop : ∀ n ≤ 4, (List.range n).foldl (fun mem k ↦
      Function.update mem (wrap (a + k)) ((le32 value).getD k 0)) mem x = mem x := by
    intro n
    induction n with
    | zero => exact fun _ ↦ rfl
    | succ n ih =>
      intro hn
      rw [List.range_succ, List.foldl_append, List.foldl_cons, List.foldl_nil,
        Function.update_of_ne (hx n (by omega))]
      exact ih (by omega)
  exact hloop 4 le_rfl

theorem loadU32_storeU32_same (mem : ByteMemory) (a : ℕ) {value : ℕ} (hvalue : value < 2 ^ 32) :
    (mem.storeU32 a value).loadU32 a = value :=
  u32At_of_le32 hvalue fun j hj ↦ by
    rw [Nat.zero_add]
    exact storeU32_inside mem a value hj

theorem loadU32_storeU32_of_ne (mem : ByteMemory) {a b : ℕ} (value : ℕ)
    (hne : ∀ j < 4, ∀ k < 4, wrap (b + j) ≠ wrap (a + k)) :
    (mem.storeU32 a value).loadU32 b = mem.loadU32 b :=
  u32At_congr fun j hj ↦ by
    rw [Nat.zero_add]
    exact storeU32_outside mem value (hne j hj)

end ByteMemory

/-- The eight bytes of a number, the lowest first. -/
def le64 (n : ℕ) : List UInt8 := le32 n ++ le32 (n / 2 ^ 32)

/-- The number that the eight bytes at an offset stand for. -/
def u64At (read : ℕ → UInt8) (offset : ℕ) : ℕ :=
  u32At read offset + 2 ^ 32 * u32At read (offset + 4)

@[simp] theorem length_le64 (n : ℕ) : (le64 n).length = 8 := rfl

theorem le32_mod (n : ℕ) : le32 (n % 2 ^ 32) = le32 n := by
  have hbyte {x y : ℕ} (h : x % 2 ^ 8 = y % 2 ^ 8) : UInt8.ofNat x = UInt8.ofNat y :=
    UInt8.toNat_inj.mp (by rw [UInt8.toNat_ofNat', UInt8.toNat_ofNat', h])
  rw [le32, le32, hbyte (by omega : n % 2 ^ 32 % 2 ^ 8 = n % 2 ^ 8),
    hbyte (by omega : n % 2 ^ 32 / 256 % 2 ^ 8 = n / 256 % 2 ^ 8),
    hbyte (by omega : n % 2 ^ 32 / 65536 % 2 ^ 8 = n / 65536 % 2 ^ 8),
    hbyte (by omega : n % 2 ^ 32 / 16777216 % 2 ^ 8 = n / 16777216 % 2 ^ 8)]

/-- Reading back the eight bytes of a number. -/
theorem u64At_of_le64 {read : ℕ → UInt8} {offset n : ℕ} (hn : n < 2 ^ 64)
    (hread : ∀ j < 8, read (offset + j) = (le64 n).getD j 0) : u64At read offset = n := by
  have hlow : u32At read offset = n % 2 ^ 32 := by
    refine u32At_of_le32 (Nat.mod_lt _ (by norm_num)) fun j hj ↦ ?_
    rw [hread j (by omega), le64, List.getD_append _ _ _ _ (by simpa using hj), le32_mod]
  have hhigh : u32At read (offset + 4) = n / 2 ^ 32 := by
    refine u32At_of_le32 (by omega) fun j hj ↦ ?_
    rw [Nat.add_assoc, hread (4 + j) (by omega), le64, List.getD_append_right _ _ _ _ (by simp)]
    rw [length_le32, Nat.add_sub_cancel_left]
  rw [u64At, hlow, hhigh, Nat.mod_add_div]

/-- A number of eight bytes, read in an image. -/
theorem SitsAt.u64At_eq {image : List UInt8} {offset n : ℕ} (h : SitsAt image offset (le64 n))
    (hn : n < 2 ^ 64) : u64At (image.getD · 0) offset = n :=
  u64At_of_le64 hn fun _ hj ↦ h.getD_eq hj

end MegKer.Foundation
