import MegKer.Foundation.SignedWord
import MegKer.Kernel.BootFile
import Mathlib.Data.List.TakeWhile
import Mathlib.Data.Nat.Digits.Defs

/-!
# Numbers in the messages of the kernel

The kernel writes numbers in three places: `console_put_dec` of `kernel.c`, `put_dec` of the aarch64 port,
and `arch_late_init` of the x86_64 port, which puts the exit code of the first process into a buffer
together with a label. Each fills a small buffer from one end or the other, and a write outside of it has
no result here.

The digits that come out are those of the number, without leading zeros (`decimal`), and the buffers are
large enough for all numbers of their types (`putDec_eq`, `x86UserlandMessage_eq`). Both ports show the same
for an exit code (`messages_eq`): a code that is negative is not told apart from a program that was not
loaded.
-/

set_option autoImplicit false
set_option relaxedAutoImplicit false

namespace MegKer.Kernel

open Foundation

/-! ### The code -/

/-- `buf[i] = c` for an array of a size. -/
def putChar (size : ℕ) (buf : ℕ → UInt8) (i : ℕ) (c : UInt8) : Option (ℕ → UInt8) :=
  if i < size then some (Function.update buf i c) else none

/-- `'0' + value % 10` -/
def digitChar (value : ℕ) : UInt8 := UInt8.ofNat (48 + value % 10)

/-- The loop of `console_put_dec` and `put_dec`, which goes down in the buffer. -/
def putDigits (size value i : ℕ) (buf : ℕ → UInt8) : Option (ℕ × (ℕ → UInt8)) :=
  if value = 0 then some (i, buf)
  else
    match i with
    | 0 => none
    | i + 1 =>
      (putChar size buf i (digitChar value)).bind fun buf ↦ putDigits size (value / 10) i buf
termination_by value

/-- What `console_put_dec` and `put_dec` print, with a buffer of a size. -/
def putDec (size value : ℕ) (buf : ℕ → UInt8) : Option (List UInt8) :=
  (putChar size buf (size - 1) 0).bind fun buf ↦
    if value = 0 then some (literal "0".toList)
    else
      (putDigits size value (size - 1) buf).map fun p ↦
        stringIn (fun k ↦ p.2 (p.1 + k)) (size - p.1)

/-- `console_put_dec`, of a `u64`. -/
def consolePutDec (value : ℕ) (buf : ℕ → UInt8) : Option (List UInt8) := putDec 21 value buf

/-- What `kernel_main` prints about the memory. -/
def kernelMainRam (totalRam : ℕ) (buf : ℕ → UInt8) : Option (List UInt8) :=
  (consolePutDec (totalRam / (1024 * 1024)) buf).map fun digits ↦
    literal "RAM: ".toList ++ digits ++ literal " MB\n".toList

namespace AArch64

def putDec (value : ℕ) (buf : ℕ → UInt8) : Option (List UInt8) := Kernel.putDec 11 value buf

/-- What `arch_late_init` prints about the first process. -/
def userlandMessage (exitCode : ℤ) (buf : ℕ → UInt8) : Option (List UInt8) :=
  if exitCode < 0 then some (literal "USERLAND: LOAD FAILED\n".toList)
  else
    (putDec (u32 exitCode) buf).map fun digits ↦
      literal "USERLAND: EXIT ".toList ++ digits ++ literal "\n".toList

end AArch64

namespace X86

/-- `while (*label) buf[n++] = *label++;` -/
def copyLabel (size : ℕ) : (label : List UInt8) → (n : ℕ) → (ℕ → UInt8) → Option (ℕ × (ℕ → UInt8))
  | [], n, buf => some (n, buf)
  | c :: label, n, buf => (putChar size buf n c).bind fun buf ↦ copyLabel size label (n + 1) buf

/-- `while (v > 0) { tmp[t++] = '0' + v % 10; v /= 10; }` -/
def lowDigits (size v t : ℕ) (tmp : ℕ → UInt8) : Option (ℕ × (ℕ → UInt8)) :=
  if v = 0 then some (t, tmp)
  else (putChar size tmp t (digitChar v)).bind fun tmp ↦ lowDigits size (v / 10) (t + 1) tmp
termination_by v

/-- `while (t > 0) buf[n++] = tmp[--t];` -/
def copyBack (size : ℕ) (tmp : ℕ → UInt8) : (t n : ℕ) → (ℕ → UInt8) → Option (ℕ × (ℕ → UInt8))
  | 0, n, buf => some (n, buf)
  | t + 1, n, buf => (putChar size buf n (tmp t)).bind fun buf ↦ copyBack size tmp t (n + 1) buf

/-- What `arch_late_init` draws about the first process, and in which colour. -/
def userlandMessage (exitCode : ℤ) (buf tmp : ℕ → UInt8) : Option (List UInt8 × ℕ) :=
  let label := if exitCode < 0 then literal "USERLAND: LOAD FAILED".toList
    else literal "USERLAND: EXIT ".toList
  (copyLabel 32 label 0 buf).bind fun p ↦
    let digits :=
      if exitCode < 0 then some p
      else
        let v := u32 exitCode
        let start := if v = 0 then (putChar 10 tmp 0 48).map fun tmp ↦ (1, tmp) else some (0, tmp)
        start.bind fun q ↦ (lowDigits 10 v q.1 q.2).bind fun q ↦ copyBack 32 q.2 q.1 p.1 p.2
    digits.bind fun p ↦
      (putChar 32 p.2 p.1 0).map fun buf ↦
        (stringIn buf 32, if exitCode = 0 then 0x0000FF00 else 0x00FF0000)

end X86

/-! ### Texts in buffers -/

/-- The digits of a number, from the highest on. -/
def decimal (n : ℕ) : List UInt8 :=
  if n = 0 then literal "0".toList else ((Nat.digits 10 n).map digitChar).reverse

/-- A text lies in a buffer. -/
def TextAt (buf : ℕ → UInt8) (offset : ℕ) (text : List UInt8) : Prop :=
  ∀ j (hj : j < text.length), buf (offset + j) = text[j]

theorem TextAt.append {buf : ℕ → UInt8} {offset : ℕ} {first second : List UInt8}
    (hfirst : TextAt buf offset first) (hsecond : TextAt buf (offset + first.length) second) :
    TextAt buf offset (first ++ second) := by
  intro j hj
  by_cases hlt : j < first.length
  · rw [List.getElem_append_left hlt]
    exact hfirst j hlt
  · rw [List.length_append] at hj
    rw [List.getElem_append_right (by omega), ← hsecond (j - first.length) (by omega)]
    congr 1
    omega

theorem TextAt.congr {buf buf' : ℕ → UInt8} {offset : ℕ} {text : List UInt8} (h : TextAt buf offset text)
    (hsame : ∀ k, offset ≤ k → k < offset + text.length → buf' k = buf k) : TextAt buf' offset text :=
  fun j hj ↦ (hsame _ (by omega) (by omega)).trans (h j hj)

theorem textAt_singleton {buf : ℕ → UInt8} {offset : ℕ} {c : UInt8} (h : buf offset = c) :
    TextAt buf offset [c] := by
  intro j hj
  obtain rfl : j = 0 := by simpa using hj
  exact h

theorem TextAt.cons {buf : ℕ → UInt8} {offset : ℕ} {c : UInt8} {text : List UInt8} (hhead : buf offset = c)
    (htext : TextAt buf (offset + 1) text) : TextAt buf offset (c :: text) :=
  (textAt_singleton hhead).append htext

/-- A text with a terminator behind it is a string. -/
theorem TextAt.stringIn_eq {buf : ℕ → UInt8} {offset size : ℕ} {text : List UInt8}
    (h : TextAt buf offset text) (hend : buf (offset + text.length) = 0) (hsize : text.length < size)
    (htext : ∀ c ∈ text, c ≠ 0) : stringIn (fun k ↦ buf (offset + k)) size = text := by
  rw [stringIn_of_terminated hsize hend]
  have hmap : (List.range text.length).map (fun k ↦ buf (offset + k)) = text := by
    refine List.ext_getElem (by simp) fun j hj hj' ↦ ?_
    rw [List.getElem_map, List.getElem_range]
    exact h j hj'
  rw [hmap, List.takeWhile_eq_self_iff]
  simpa using htext

theorem digitChar_ne_zero (value : ℕ) : digitChar value ≠ 0 := by
  have hlt : value % 10 < 10 := Nat.mod_lt value (by decide)
  have hdigit : ∀ d < 10, UInt8.ofNat (48 + d) ≠ 0 := by decide
  exact hdigit _ hlt

theorem decimal_ne_zero (n : ℕ) : ∀ c ∈ decimal n, c ≠ 0 := by
  unfold decimal
  split_ifs
  · decide +kernel
  · intro c hc
    obtain ⟨d, -, rfl⟩ := List.mem_map.mp (List.mem_reverse.mp hc)
    exact digitChar_ne_zero d

/-- The last digit. -/
theorem digits_reverse {n : ℕ} (hn : n ≠ 0) :
    ((Nat.digits 10 n).map digitChar).reverse =
      ((Nat.digits 10 (n / 10)).map digitChar).reverse ++ [digitChar n] := by
  have hlast : digitChar (n % 10) = digitChar n := by rw [digitChar, digitChar, Nat.mod_mod]
  rw [Nat.digits_def' (by decide) (Nat.pos_of_ne_zero hn), List.map_cons, List.reverse_cons, hlast]

theorem length_digits_le {n k : ℕ} (h : n < 10 ^ k) : (Nat.digits 10 n).length ≤ k := by
  induction k generalizing n with
  | zero =>
    obtain rfl : n = 0 := by simpa using h
    simp
  | succ k ih =>
    by_cases hn : n = 0
    · simp [hn]
    · rw [Nat.digits_def' (by decide) (Nat.pos_of_ne_zero hn), List.length_cons]
      refine Nat.succ_le_succ (ih ?_)
      rw [Nat.div_lt_iff_lt_mul (by decide), ← pow_succ]
      exact h

/-! ### Digits from the end of a buffer -/

theorem putChar_of_lt {size i : ℕ} (hi : i < size) (buf : ℕ → UInt8) (c : UInt8) :
    putChar size buf i c = some (Function.update buf i c) :=
  if_pos hi

/-- The loop puts the digits before a place, and leaves alone what is behind it. -/
theorem putDigits_spec {size value : ℕ} :
    ∀ {i : ℕ} (buf : ℕ → UInt8), value < 10 ^ i → i ≤ size →
      ∃ first buf', putDigits size value i buf = some (first, buf') ∧
        first + (Nat.digits 10 value).length = i ∧
        TextAt buf' first ((Nat.digits 10 value).map digitChar).reverse ∧ ∀ k, i ≤ k → buf' k = buf k := by
  induction value using Nat.strong_induction_on with
  | _ value ih =>
    intro i buf hvalue hi
    rw [putDigits.eq_def]
    by_cases hzero : value = 0
    · subst hzero
      rw [if_pos rfl]
      exact ⟨i, buf, rfl, by simp, fun j hj ↦ by simp at hj, fun _ _ ↦ rfl⟩
    · rw [if_neg hzero]
      cases i with
      | zero => exact absurd (by simpa using hvalue) hzero
      | succ i =>
        have hrest : value / 10 < 10 ^ i := by
          rw [Nat.div_lt_iff_lt_mul (by decide), ← pow_succ]
          exact hvalue
        obtain ⟨first, buf', hloop, hlength, htext, hkeep⟩ :=
          ih (value / 10) (Nat.div_lt_self (Nat.pos_of_ne_zero hzero) (by decide))
            (Function.update buf i (digitChar value)) hrest (Nat.le_of_succ_le hi)
        refine ⟨first, buf', ?_, ?_, ?_, fun k hk ↦ ?_⟩
        · dsimp only
          rw [putChar_of_lt hi]
          exact hloop
        · rw [Nat.digits_def' (by decide) (Nat.pos_of_ne_zero hzero), List.length_cons, ← Nat.add_assoc,
            hlength]
        · rw [digits_reverse hzero]
          refine htext.append (textAt_singleton ?_)
          rw [List.length_reverse, List.length_map, hlength, hkeep i le_rfl, Function.update_self]
        · rw [hkeep k (by omega), Function.update_of_ne (by omega)]

/-- A buffer with a place for each digit and one more is large enough. -/
theorem putDec_eq {digits value : ℕ} (hvalue : value < 10 ^ digits) (buf : ℕ → UInt8) :
    putDec (digits + 1) value buf = some (decimal value) := by
  have hend : digits + 1 - 1 < digits + 1 := by omega
  rw [putDec, putChar_of_lt hend, Option.bind_some, decimal]
  split_ifs with hzero
  · rfl
  · obtain ⟨first, buf', hloop, hlength, htext, hkeep⟩ :=
      putDigits_spec (Function.update buf digits 0) hvalue (Nat.le_succ digits)
    have hsize : ((Nat.digits 10 value).map digitChar).reverse.length = (Nat.digits 10 value).length := by
      rw [List.length_reverse, List.length_map]
    rw [Nat.add_sub_cancel, hloop, Option.map_some]
    refine congrArg some (htext.stringIn_eq ?_ (by omega) fun c hc ↦ ?_)
    · rw [hsize, hlength, hkeep digits le_rfl, Function.update_self]
    · obtain ⟨d, -, rfl⟩ := List.mem_map.mp (List.mem_reverse.mp hc)
      exact digitChar_ne_zero d

/-! ### A label and digits -/

namespace X86

theorem copyLabel_spec {size : ℕ} (label : List UInt8) :
    ∀ {n : ℕ} (buf : ℕ → UInt8), n + label.length ≤ size →
      ∃ buf', copyLabel size label n buf = some (n + label.length, buf') ∧ TextAt buf' n label ∧
        ∀ k, k < n → buf' k = buf k := by
  induction label with
  | nil => exact fun buf _ ↦ ⟨buf, rfl, fun j hj ↦ by simp at hj, fun _ _ ↦ rfl⟩
  | cons c label ih =>
    intro n buf hsize
    rw [List.length_cons] at hsize
    obtain ⟨buf', hloop, htext, hkeep⟩ := ih (n := n + 1) (Function.update buf n c) (by omega)
    refine ⟨buf', ?_, ?_, fun k hk ↦ ?_⟩
    · rw [copyLabel, putChar_of_lt (by omega), Option.bind_some, hloop, List.length_cons]
      congr 2
      omega
    · have hhead : buf' n = c := (hkeep n (Nat.lt_succ_self n)).trans (Function.update_self _ _ _)
      exact TextAt.cons hhead htext
    · rw [hkeep k (by omega), Function.update_of_ne (by omega)]

theorem lowDigits_spec {size v : ℕ} :
    ∀ {t : ℕ} (tmp : ℕ → UInt8), t + (Nat.digits 10 v).length ≤ size →
      ∃ tmp', lowDigits size v t tmp = some (t + (Nat.digits 10 v).length, tmp') ∧
        TextAt tmp' t ((Nat.digits 10 v).map digitChar) ∧ ∀ k, k < t → tmp' k = tmp k := by
  induction v using Nat.strong_induction_on with
  | _ v ih =>
    intro t tmp hsize
    rw [lowDigits]
    by_cases hzero : v = 0
    · subst hzero
      rw [if_pos rfl]
      exact ⟨tmp, by simp, fun j hj ↦ by simp at hj, fun _ _ ↦ rfl⟩
    · have hdigits := Nat.digits_def' (by decide : 1 < 10) (Nat.pos_of_ne_zero hzero)
      have hfirst : digitChar (v % 10) = digitChar v := by rw [digitChar, digitChar, Nat.mod_mod]
      rw [hdigits, List.length_cons] at hsize
      rw [if_neg hzero, putChar_of_lt (by omega), Option.bind_some, hdigits, List.map_cons, hfirst,
        List.length_cons]
      obtain ⟨tmp', hloop, htext, hkeep⟩ :=
        ih (v / 10) (Nat.div_lt_self (Nat.pos_of_ne_zero hzero) (by decide)) (t := t + 1)
          (Function.update tmp t (digitChar v)) (by omega)
      refine ⟨tmp', ?_, ?_, fun k hk ↦ ?_⟩
      · rw [hloop]
        congr 2
        omega
      · have hhead : tmp' t = digitChar v := (hkeep t (Nat.lt_succ_self t)).trans (Function.update_self _ _ _)
        exact TextAt.cons hhead htext
      · rw [hkeep k (by omega), Function.update_of_ne (by omega)]

theorem copyBack_spec {size : ℕ} (tmp : ℕ → UInt8) (t : ℕ) :
    ∀ {n : ℕ} (buf : ℕ → UInt8), n + t ≤ size →
      ∃ buf', copyBack size tmp t n buf = some (n + t, buf') ∧
        TextAt buf' n ((List.range t).map tmp).reverse ∧ ∀ k, k < n → buf' k = buf k := by
  induction t with
  | zero => exact fun buf _ ↦ ⟨buf, rfl, fun j hj ↦ by simp at hj, fun _ _ ↦ rfl⟩
  | succ t ih =>
    intro n buf hsize
    obtain ⟨buf', hloop, htext, hkeep⟩ := ih (n := n + 1) (Function.update buf n (tmp t)) (by omega)
    refine ⟨buf', ?_, ?_, fun k hk ↦ ?_⟩
    · rw [copyBack, putChar_of_lt (by omega), Option.bind_some, hloop]
      congr 2
      omega
    · rw [List.range_succ, List.map_append, List.reverse_append]
      have hhead : buf' n = tmp t := (hkeep n (Nat.lt_succ_self n)).trans (Function.update_self _ _ _)
      exact TextAt.cons hhead htext
    · rw [hkeep k (by omega), Function.update_of_ne (by omega)]

end X86

/-! ### The messages -/

/-- What the first process did, from its exit code. -/
def userlandText (exitCode : ℤ) : List UInt8 :=
  if exitCode < 0 then literal "USERLAND: LOAD FAILED".toList
  else literal "USERLAND: EXIT ".toList ++ decimal exitCode.toNat

/-- The digits of a number in `tmp`, turned round behind the label. -/
theorem X86.digits_spec {v : ℕ} (hv : v < 10 ^ 10) (tmp : ℕ → UInt8) :
    ∃ t tmp', ((if v = 0 then (putChar 10 tmp 0 48).map fun tmp ↦ (1, tmp)
        else some (0, tmp)).bind fun q ↦ lowDigits 10 v q.1 q.2) = some (t, tmp') ∧
      ((List.range t).map tmp').reverse = decimal v ∧ t ≤ 10 := by
  by_cases hzero : v = 0
  · subst hzero
    refine ⟨1, Function.update tmp 0 48, ?_, ?_, by decide⟩
    · rw [if_pos rfl, putChar_of_lt (by decide), Option.map_some, Option.bind_some, lowDigits, if_pos rfl]
    · simp [decimal, literal]
  · have hlength := length_digits_le hv
    obtain ⟨tmp', hloop, htext, -⟩ := @lowDigits_spec 10 v 0 tmp (by omega)
    refine ⟨0 + (Nat.digits 10 v).length, tmp', ?_, ?_, ?_⟩
    · rw [if_neg hzero, Option.bind_some, hloop]
    · have hmap : (List.range (0 + (Nat.digits 10 v).length)).map tmp' = (Nat.digits 10 v).map digitChar := by
        refine List.ext_getElem (by simp) fun j hj hj' ↦ ?_
        rw [List.getElem_map, List.getElem_range, ← htext j hj', Nat.zero_add]
      rw [hmap, decimal, if_neg hzero]
    · omega

theorem userlandText_ne_zero (exitCode : ℤ) : ∀ c ∈ userlandText exitCode, c ≠ 0 := by
  unfold userlandText
  split_ifs
  · decide +kernel
  · intro c hc
    rcases List.mem_append.mp hc with hlabel | hdigits
    · have hplain : ∀ c ∈ literal "USERLAND: EXIT ".toList, c ≠ 0 := by decide +kernel
      exact hplain c hlabel
    · exact decimal_ne_zero _ c hdigits

/-- The end of the message: the text is terminated, and drawn. -/
theorem X86.finish {text : List UInt8} {buf : ℕ → UInt8} (htext : TextAt buf 0 text)
    (hlength : text.length < 32) (hne : ∀ c ∈ text, c ≠ 0) (colour : ℕ) :
    ((putChar 32 buf text.length 0).map fun buf ↦ (stringIn buf 32, colour)) = some (text, colour) := by
  rw [putChar_of_lt hlength, Option.map_some]
  have hkept : TextAt (Function.update buf text.length 0) 0 text :=
    htext.congr fun k _ hk ↦ Function.update_of_ne (by omega) _ _
  have hstring := hkept.stringIn_eq (by simp) hlength hne
  simp only [Nat.zero_add] at hstring
  rw [hstring]

/-- `buf` and `tmp` are large enough for every exit code, and the message is that of the exit code. -/
theorem X86.userlandMessage_eq {exitCode : ℤ} (hcode : exitCode < 2 ^ 31) (buf tmp : ℕ → UInt8) :
    X86.userlandMessage exitCode buf tmp =
      some (userlandText exitCode, if exitCode = 0 then 0x0000FF00 else 0x00FF0000) := by
  unfold X86.userlandMessage
  have hne := userlandText_ne_zero exitCode
  by_cases hneg : exitCode < 0
  · have htext : userlandText exitCode = literal "USERLAND: LOAD FAILED".toList := if_pos hneg
    obtain ⟨buf', hlabel, hat, -⟩ := @X86.copyLabel_spec 32 (userlandText exitCode) 0 buf
      (by rw [htext]; decide)
    rw [Nat.zero_add] at hlabel
    simp only [if_pos hneg, ← htext, hlabel, Option.bind_some]
    exact X86.finish hat (by rw [htext]; decide) hne _
  · have hsmall : u32 exitCode = exitCode.toNat := by
      unfold u32
      omega
    have hlt : exitCode.toNat < 10 ^ 10 := by
      have hbound : (2 : ℤ) ^ 31 = 2147483648 := by norm_num
      omega
    have htext : userlandText exitCode =
        literal "USERLAND: EXIT ".toList ++ decimal exitCode.toNat := if_neg hneg
    obtain ⟨label, hlabelEq⟩ : ∃ label, label = literal "USERLAND: EXIT ".toList := ⟨_, rfl⟩
    have hfifteen : label.length = 15 := by
      rw [hlabelEq]
      decide
    obtain ⟨buf', hlabel, hat, -⟩ := @X86.copyLabel_spec 32 label 0 buf (by omega)
    obtain ⟨t, tmp', hdigits, hreverse, ht⟩ := X86.digits_spec hlt tmp
    obtain ⟨buf'', hback, hatDigits, hkeep⟩ := @X86.copyBack_spec 32 tmp' t label.length buf' (by omega)
    have hlength : (decimal exitCode.toNat).length = t := by
      rw [← hreverse, List.length_reverse, List.length_map, List.length_range]
    rw [Nat.zero_add] at hlabel
    simp only [if_neg hneg, ← hlabelEq, hlabel, Option.bind_some, hsmall]
    rw [← Option.bind_assoc, hdigits, Option.bind_some, hback, Option.bind_some]
    rw [htext, ← hlabelEq] at hne ⊢
    have hat' : TextAt buf'' 0 (label ++ decimal exitCode.toNat) := by
      refine TextAt.append (hat.congr fun k _ hk ↦ hkeep k (by omega)) ?_
      rw [Nat.zero_add, ← hreverse]
      exact hatDigits
    have hend : label.length + t = (label ++ decimal exitCode.toNat).length := by
      rw [List.length_append, hlength]
    rw [hend]
    exact X86.finish hat' (by rw [← hend]; omega) hne _

/-- Every number that the kernel writes comes out as its decimal digits, and no write is outside of a
buffer: the size of the memory, and on both ports the exit code of the first process, of which a negative
one is shown as a program that was not loaded. -/
theorem messages_eq (totalRam : ℕ) (hram : totalRam < 2 ^ 64) (exitCode : ℤ) (hcode : exitCode < 2 ^ 31)
    (buf tmp : ℕ → UInt8) :
    kernelMainRam totalRam buf =
      some (literal "RAM: ".toList ++ decimal (totalRam / 2 ^ 20) ++ literal " MB\n".toList) ∧
    AArch64.userlandMessage exitCode buf = some (userlandText exitCode ++ literal "\n".toList) ∧
    X86.userlandMessage exitCode buf tmp =
      some (userlandText exitCode, if exitCode = 0 then 0x0000FF00 else 0x00FF0000) := by
  refine ⟨?_, ?_, X86.userlandMessage_eq hcode buf tmp⟩
  · have hlt : totalRam / (1024 * 1024) < 10 ^ 20 := by omega
    have hunit : 1024 * 1024 = 2 ^ 20 := by norm_num
    rw [kernelMainRam, consolePutDec, putDec_eq hlt, hunit]
    rfl
  · unfold AArch64.userlandMessage userlandText
    split_ifs with hneg
    · rfl
    · have hsmall : u32 exitCode = exitCode.toNat := by
        unfold u32
        omega
      have hlt : u32 exitCode < 10 ^ 10 := by
        have hbound : (2 : ℤ) ^ 31 = 2147483648 := by norm_num
        omega
      rw [AArch64.putDec, putDec_eq hlt, hsmall]
      rfl

/-- A process that exits with 1203, on a machine with a gigabyte. -/
theorem messages_eq_sample :
    AArch64.userlandMessage 1203 (fun _ ↦ 0) =
      some (literal "USERLAND: EXIT 1203\n".toList) ∧
    kernelMainRam (1024 * 1024 * 1024) (fun _ ↦ 0) = some (literal "RAM: 1024 MB\n".toList) := by
  obtain ⟨hram, huser, -⟩ := messages_eq (1024 * 1024 * 1024) (by norm_num) 1203 (by norm_num)
    (fun _ ↦ 0) (fun _ ↦ 0)
  refine ⟨huser.trans ?_, hram.trans ?_⟩
  · simp [userlandText, decimal, literal, digitChar]
  · simp [decimal, literal, digitChar]

end MegKer.Kernel
