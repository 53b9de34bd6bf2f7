import Mathlib.Data.List.GetD
import Mathlib.Tactic.NormNum
import Mathlib.Tactic.Ring

/-!
# Byte strings and their layout

Byte strings as a writer produces them and a reader finds them: a writer concatenates lists of
bytes, and a reader looks at single bytes of the result by their offset.

* `le32` is the little-endian form of a 32-bit number, and `u32At` reads one (`u32At_of_sitsAt`).
* `SitsAt image offset bytes` states that a string lies in an image at an offset. The lemmas take a
  concatenation apart (`SitsAt.left`, `SitsAt.right`), and read bytes (`SitsAt.getD_eq`).
* `CString` is a string of C, without its terminator.
-/

set_option autoImplicit false
set_option relaxedAutoImplicit false

namespace MegKer.Foundation

/-! ### Little-endian numbers -/

/-- The four bytes of a number, the lowest first. -/
def le32 (n : ℕ) : List UInt8 :=
  [UInt8.ofNat n, UInt8.ofNat (n / 256), UInt8.ofNat (n / 65536), UInt8.ofNat (n / 16777216)]

/-- The number that the four bytes at an offset stand for. -/
def u32At (read : ℕ → UInt8) (offset : ℕ) : ℕ :=
  (read offset).toNat + 256 * (read (offset + 1)).toNat + 65536 * (read (offset + 2)).toNat +
    16777216 * (read (offset + 3)).toNat

@[simp] theorem length_le32 (n : ℕ) : (le32 n).length = 4 := rfl

theorem u32At_lt (read : ℕ → UInt8) (offset : ℕ) : u32At read offset < 2 ^ 32 := by
  have h0 := (read offset).toNat_lt
  have h1 := (read (offset + 1)).toNat_lt
  have h2 := (read (offset + 2)).toNat_lt
  have h3 := (read (offset + 3)).toNat_lt
  rw [u32At]
  omega

/-- Reading back the four bytes of a number. -/
theorem u32At_of_le32 {read : ℕ → UInt8} {offset n : ℕ} (hn : n < 2 ^ 32)
    (hread : ∀ j < 4, read (offset + j) = (le32 n).getD j 0) : u32At read offset = n := by
  have h0 : read offset = UInt8.ofNat n := hread 0 (by omega)
  have h1 : read (offset + 1) = UInt8.ofNat (n / 256) := hread 1 (by omega)
  have h2 : read (offset + 2) = UInt8.ofNat (n / 65536) := hread 2 (by omega)
  have h3 : read (offset + 3) = UInt8.ofNat (n / 16777216) := hread 3 (by omega)
  rw [u32At, h0, h1, h2, h3]
  simp only [UInt8.toNat_ofNat']
  omega

theorem u32At_congr {read read' : ℕ → UInt8} {offset offset' : ℕ}
    (h : ∀ j < 4, read (offset + j) = read' (offset' + j)) :
    u32At read offset = u32At read' offset' := by
  have h0 : read offset = read' offset' := h 0 (by omega)
  rw [u32At, u32At, h0, h 1 (by omega), h 2 (by omega), h 3 (by omega)]

/-! ### Strings inside an image -/

/-- The string lies in the image at the offset. -/
def SitsAt (image : List UInt8) (offset : ℕ) (bytes : List UInt8) : Prop :=
  ∃ before after, image = before ++ bytes ++ after ∧ before.length = offset

theorem SitsAt.whole (image : List UInt8) : SitsAt image 0 image :=
  ⟨[], [], by simp, rfl⟩

/-- The first part of a concatenation lies where the whole does. -/
theorem SitsAt.left {image first second : List UInt8} {offset : ℕ}
    (h : SitsAt image offset (first ++ second)) : SitsAt image offset first := by
  obtain ⟨before, after, rfl, hlength⟩ := h
  exact ⟨before, second ++ after, by simp, hlength⟩

/-- The second part of a concatenation lies behind the first. -/
theorem SitsAt.right {image first second : List UInt8} {offset : ℕ}
    (h : SitsAt image offset (first ++ second)) :
    SitsAt image (offset + first.length) second := by
  obtain ⟨before, after, rfl, hlength⟩ := h
  exact ⟨before ++ first, after, by simp, by simp [hlength]⟩

theorem SitsAt.le_length {image bytes : List UInt8} {offset : ℕ} (h : SitsAt image offset bytes) :
    offset + bytes.length ≤ image.length := by
  obtain ⟨before, after, rfl, rfl⟩ := h
  simp only [List.length_append]
  omega

/-- The bytes of a string, read in the image. -/
theorem SitsAt.getD_eq {image bytes : List UInt8} {offset j : ℕ} (h : SitsAt image offset bytes)
    (hj : j < bytes.length) : image.getD (offset + j) 0 = bytes.getD j 0 := by
  obtain ⟨before, after, rfl, rfl⟩ := h
  rw [List.append_assoc, List.getD_append_right _ _ _ _ (by omega), Nat.add_sub_cancel_left,
    List.getD_append _ _ _ _ hj]

/-- In a sequence of records of one width, each record lies at a multiple of the width. -/
theorem SitsAt.record {α : Type} {image : List UInt8} {width : ℕ} {encode : α → List UInt8}
    {records : List α} (hwidth : ∀ x ∈ records, (encode x).length = width) {offset k : ℕ}
    (h : SitsAt image offset (records.flatMap encode)) (hk : k < records.length) :
    SitsAt image (offset + k * width) (encode records[k]) := by
  induction records generalizing offset k with
  | nil => exact absurd hk (Nat.not_lt_zero k)
  | cons x records ih =>
    obtain ⟨hhead, htail⟩ := List.forall_mem_cons.mp hwidth
    rw [List.flatMap_cons] at h
    cases k with
    | zero =>
      rw [Nat.zero_mul, Nat.add_zero]
      exact h.left
    | succ k =>
      have hrest := ih htail h.right (Nat.lt_of_succ_lt_succ hk)
      rwa [hhead, Nat.add_assoc, ← Nat.add_comm (k * width), ← Nat.succ_mul] at hrest

/-- A number, read in the image. -/
theorem SitsAt.u32At_eq {image : List UInt8} {offset n : ℕ} (h : SitsAt image offset (le32 n))
    (hn : n < 2 ^ 32) : u32At (image.getD · 0) offset = n :=
  u32At_of_le32 hn fun _ hj ↦ h.getD_eq hj

/-! ### Padding -/

/-- A number of zero bytes. -/
def zeros (n : ℕ) : List UInt8 := List.replicate n 0

@[simp] theorem length_zeros (n : ℕ) : (zeros n).length = n := List.length_replicate

/-- A string filled up with zero bytes to a width. -/
def ljust (width : ℕ) (bytes : List UInt8) : List UInt8 := bytes ++ zeros (width - bytes.length)

theorem length_ljust {width : ℕ} {bytes : List UInt8} (h : bytes.length ≤ width) :
    (ljust width bytes).length = width := by
  rw [ljust, List.length_append, length_zeros]
  omega

/-- Behind the string there is a zero byte, when there is room for it. -/
theorem getD_ljust_length {width : ℕ} {bytes : List UInt8} :
    (ljust width bytes).getD bytes.length 0 = 0 := by
  rw [ljust, List.getD_append_right _ _ _ _ le_rfl, Nat.sub_self]
  cases width - bytes.length <;> rfl

/-! ### Strings of C -/

/-- A string, without its terminator: no byte is zero. -/
structure CString where
  bytes : List UInt8
  nulFree : ∀ b ∈ bytes, b ≠ 0

end MegKer.Foundation
