import MegKer.Foundation.MachineWord
import MegKer.Foundation.WordMemory

/-!
# Frames on a descending stack

A stack grows towards lower addresses: pushing a word moves the stack pointer down by 8 and stores
the word there. `FrameAt` reads a frame from its low end, where the stack pointer is, so the words of
a frame are in the order opposite to the pushes. The three facts about `pushWords` are where the
stack pointer ends, that the frame is then there, and that nothing else in memory changes.
-/

set_option autoImplicit false
set_option relaxedAutoImplicit false

namespace MegKer.Foundation

/-- `*(--sp) = value`, with the new stack pointer. -/
def pushWord (mem : WordMemory) (sp value : ℕ) : WordMemory × ℕ :=
  (mem.store (wrapSub sp 8) value, wrapSub sp 8)

/-- A sequence of pushes. -/
def pushWords (mem : WordMemory) (sp : ℕ) : List ℕ → WordMemory × ℕ
  | [] => (mem, sp)
  | value :: values => pushWords (pushWord mem sp value).1 (pushWord mem sp value).2 values

/-- The words of a frame are in memory from an address up. -/
def FrameAt (mem : WordMemory) (sp : ℕ) : List ℕ → Prop
  | [] => True
  | word :: words => mem sp = word ∧ FrameAt mem (sp + 8) words

variable {mem mem' : WordMemory} {sp : ℕ}

theorem FrameAt.congr {words : List ℕ} (h : FrameAt mem sp words)
    (hsame : ∀ a, sp ≤ a → a < sp + 8 * words.length → mem' a = mem a) : FrameAt mem' sp words := by
  induction words generalizing sp with
  | nil => trivial
  | cons word words ih =>
    rw [List.length_cons] at hsame
    refine ⟨(hsame sp le_rfl (by omega)).trans h.1, ih h.2 fun a hlow hhigh ↦ ?_⟩
    exact hsame a (by omega) (by omega)

theorem frameAt_append {words more : List ℕ} :
    FrameAt mem sp (words ++ more) ↔
      FrameAt mem sp words ∧ FrameAt mem (sp + 8 * words.length) more := by
  induction words generalizing sp with
  | nil => simp [FrameAt]
  | cons word words ih =>
    rw [List.cons_append, FrameAt, FrameAt, ih, List.length_cons, and_assoc,
      show sp + 8 + 8 * words.length = sp + 8 * (words.length + 1) by ring]

theorem pushWords_sp {words : List ℕ} (hroom : 8 * words.length ≤ sp) (hsp : sp < 2 ^ 64) :
    (pushWords mem sp words).2 = sp - 8 * words.length := by
  induction words generalizing mem sp with
  | nil => rfl
  | cons word words ih =>
    rw [List.length_cons] at hroom ⊢
    rw [pushWords, pushWord, wrapSub_of_le (by omega) hsp, ih (by omega) (by omega)]
    omega

/-- Where the stack pointer ends when it may wrap around. -/
theorem pushWords_sp_mod {words : List ℕ} (hsp : sp < 2 ^ 64) :
    ((pushWords mem sp words).2 + 8 * words.length) % 2 ^ 64 = sp := by
  induction words generalizing mem sp with
  | nil => exact Nat.mod_eq_of_lt hsp
  | cons word words ih =>
    have hbelow : wrapSub sp 8 < 2 ^ 64 := Nat.mod_lt _ (by norm_num)
    have hback : (wrapSub sp 8 + 8) % 2 ^ 64 = sp := by
      unfold wrapSub
      omega
    have hrest := @ih (pushWord mem sp word).1 (pushWord mem sp word).2 hbelow
    rw [List.length_cons, pushWords]
    simp only [pushWord] at hrest ⊢
    omega

/-- One sequence of pushes behind the other. -/
theorem pushWords_append (words more : List ℕ) (mem : WordMemory) (sp : ℕ) :
    pushWords mem sp (words ++ more) =
      pushWords (pushWords mem sp words).1 (pushWords mem sp words).2 more := by
  induction words generalizing mem sp with
  | nil => rfl
  | cons word words ih => rw [List.cons_append, pushWords, ih, pushWords]

/-- Pushing leaves what is above the old stack pointer and what is below the new one. -/
theorem pushWords_of_outside {words : List ℕ} (hroom : 8 * words.length ≤ sp) (hsp : sp < 2 ^ 64)
    {a : ℕ} (ha : a < sp - 8 * words.length ∨ sp ≤ a) : (pushWords mem sp words).1 a = mem a := by
  induction words generalizing mem sp with
  | nil => rfl
  | cons word words ih =>
    rw [List.length_cons] at hroom ha
    rw [pushWords, pushWord, wrapSub_of_le (by omega) hsp, ih (by omega) (by omega) (by omega)]
    exact WordMemory.store_of_ne _ _ (by omega)

variable (mem) in
/-- After the pushes the frame starts at the stack pointer, the last word pushed first. -/
theorem frameAt_pushWords {words : List ℕ} (hroom : 8 * words.length ≤ sp) (hsp : sp < 2 ^ 64) :
    FrameAt (pushWords mem sp words).1 (sp - 8 * words.length) words.reverse := by
  induction words generalizing mem sp with
  | nil => trivial
  | cons word words ih =>
    rw [List.length_cons] at hroom ⊢
    rw [pushWords, pushWord, wrapSub_of_le (by omega) hsp, List.reverse_cons, frameAt_append,
      List.length_reverse]
    have hlow : sp - 8 * (words.length + 1) = sp - 8 - 8 * words.length := by omega
    rw [hlow]
    refine ⟨ih _ (by omega) (by omega), ?_, trivial⟩
    rw [show sp - 8 - 8 * words.length + 8 * words.length = sp - 8 by omega,
      pushWords_of_outside (by omega) (by omega) (Or.inr le_rfl)]
    exact WordMemory.store_same _ _ _

/-! ### A stack that stays as it is -/

/-- The words of a stack, from the lowest one in use up to its top, and a word elsewhere are the same. -/
structure SameStack (low top slot : ℕ) (mem mem' : WordMemory) : Prop where
  stack : ∀ a, low ≤ a → a < top → mem' a = mem a
  slot : mem' slot = mem slot

namespace SameStack

variable {low top slot : ℕ} {mem mem' mem'' : WordMemory}

theorem refl (mem : WordMemory) : SameStack low top slot mem mem := ⟨fun _ _ _ ↦ rfl, rfl⟩

theorem trans (h : SameStack low top slot mem mem') (h' : SameStack low top slot mem' mem'') :
    SameStack low top slot mem mem'' :=
  ⟨fun a hlow hhigh ↦ (h'.stack a hlow hhigh).trans (h.stack a hlow hhigh), h'.slot.trans h.slot⟩

/-- What is written between two addresses, away from the stack and the word, is none of it. -/
theorem of_between {start stop : ℕ} (hstack : stop ≤ low ∨ top ≤ start)
    (hslot : slot < start ∨ stop ≤ slot)
    (h : ∀ a, a < start ∨ stop ≤ a → mem' a = mem a) : SameStack low top slot mem mem' :=
  ⟨fun a hlow hhigh ↦ h a (by omega), h _ hslot⟩

end SameStack

end MegKer.Foundation
