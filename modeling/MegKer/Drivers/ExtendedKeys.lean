import MegKer.Drivers.Keyboard
import Mathlib.Data.Nat.Bitwise

/-!
# Extended keys

Some keys send two bytes, `0xE0` and a code. The handler gets one byte at an interrupt and keeps
nothing from one to the next, so it skips the `0xE0` and takes the second byte for a plain code. The
codes of the extended keys are those of plain keys, of the shift keys too: the slash of the number pad
is typed as `/`, and `E0 AA` releases a shift key that is held (`not_extendedIgnored_pad_slash`).

`Harmless` is the condition under which nothing is noticed of that, and `extendedIgnored_iff` is that
it is the exact one. Both tables have characters for the same keys, so the number of characters does not
depend on the shift keys, and a second byte with a character is always one too many.
-/

set_option autoImplicit false
set_option relaxedAutoImplicit false

namespace MegKer.Drivers

/-! ### Streams of scan codes -/

/-- The first byte of an extended key. -/
def scExtended : UInt8 := 0xE0

/-- What a key sends. -/
inductive Scan
  | plain (code : UInt8)
  | extended (code : UInt8)
  deriving DecidableEq, Repr

/-- The bytes of a key. -/
def Scan.bytes : Scan → List UInt8
  | .plain code => [code]
  | .extended code => [scExtended, code]

/-- The key is not an extended one. -/
def Scan.isPlain : Scan → Bool
  | .plain _ => true
  | .extended _ => false

/-- The bytes of a list of keys. -/
def stream (scans : List Scan) : List UInt8 := scans.flatMap Scan.bytes

/-- The keys without the extended ones. -/
def withoutExtended (scans : List Scan) : List Scan := scans.filter Scan.isPlain

/-- An interrupt for each byte. -/
def irqs (k : Keyboard) (bytes : List UInt8) : Keyboard := bytes.foldl keyboardIrq k

/-- The characters that are pushed in these interrupts. -/
def pushed : Keyboard → List UInt8 → List UInt8
  | _, [] => []
  | k, code :: bytes => (irqChar k code).toList ++ pushed (keyboardIrq k code) bytes

/-- The extended keys are ignored. -/
def ExtendedIgnored (k : Keyboard) (scans : List Scan) : Prop :=
  pushed k (stream scans) = pushed k (stream (withoutExtended scans)) ∧
    (irqs k (stream scans)).shiftHeld = (irqs k (stream (withoutExtended scans))).shiftHeld

instance (k : Keyboard) (scans : List Scan) : Decidable (ExtendedIgnored k scans) :=
  inferInstanceAs (Decidable (_ ∧ _))

/-- The slash of the number pad. -/
def padSlash : List Scan := [.extended 0x35]

/-- The slash of the number pad is typed. -/
theorem not_extendedIgnored_pad_slash : ¬ ExtendedIgnored Keyboard.boot padSlash := by decide

/-! ### The condition -/

/-- The code is the make code of a key with a character. -/
def prints (code : UInt8) : Bool := scancodeChar false code ≠ 0

/-- The shift state after a code. -/
def shiftAfter (held : Bool) (code : UInt8) : Bool :=
  if code = scLShift ∨ code = scRShift then true
  else if code = scLShiftUp ∨ code = scRShiftUp then false
  else held

/-- No second byte of an extended key is the code of a key with a character. In front of each plain key
with two characters, and at the end, the last one of all shift codes says the same as the last one of
the plain shift codes. -/
def Harmless : Bool → Bool → List Scan → Prop
  | all, plain, [] => all = plain
  | all, plain, .plain code :: scans =>
    (all = plain ∨ scancodeChar true code = scancodeChar false code) ∧
      Harmless (shiftAfter all code) (shiftAfter plain code) scans
  | all, plain, .extended code :: scans =>
    prints code = false ∧ Harmless (shiftAfter all code) plain scans

/-! ### One interrupt -/

theorem scancodeChar_of_le {code : UInt8} (h : 58 ≤ code.toNat) (held : Bool) :
    scancodeChar held code = 0 := by
  rw [scancodeChar]
  split_ifs
  · exact List.getD_eq_default _ _ h
  · exact List.getD_eq_default _ _ h

/-- The codes with the upper bit are not in the tables. -/
theorem le_of_and_ne_zero {code : UInt8} (h : code &&& 0x80 ≠ 0) : 128 ≤ code.toNat := by
  by_contra hlow
  refine h (UInt8.toNat_inj.mp ?_)
  have hbit : code.toNat.testBit 7 = false := Nat.testBit_lt_two_pow (Nat.lt_of_not_le hlow)
  change code.toNat &&& 2 ^ 7 = 0
  rw [Nat.and_two_pow, hbit]
  rfl

/-- The codes that the handler returns on early have no character. -/
theorem irqChar_eq (k : Keyboard) (code : UInt8) :
    irqChar k code =
      if scancodeChar k.shiftHeld code = 0 then none else some (scancodeChar k.shiftHeld code) := by
  rw [irqChar]
  split_ifs with hcode hzero
  · rfl
  · refine absurd ?_ hzero
    have hlow : ∀ low : UInt8, (scancodeAscii.getD low.toNat 0 = 0 ∧
        scancodeAsciiShift.getD low.toNat 0 = 0) → scancodeChar k.shiftHeld low = 0 := by
      intro low hlow
      rw [scancodeChar]
      split_ifs
      · exact hlow.2
      · exact hlow.1
    rcases hcode with rfl | rfl | rfl | rfl | hbit | hrange
    · exact hlow scLShift (by decide)
    · exact hlow scRShift (by decide)
    · exact hlow scLShiftUp (by decide)
    · exact hlow scRShiftUp (by decide)
    · exact scancodeChar_of_le ((by decide : 58 ≤ 128).trans (le_of_and_ne_zero hbit)) _
    · exact scancodeChar_of_le ((by decide : 58 ≤ 128).trans (UInt8.le_iff_toNat_le.mp hrange)) _
  · rfl
  · rfl

theorem shiftHeld_bufPush (k : Keyboard) (c : UInt8) : (bufPush k c).shiftHeld = k.shiftHeld := by
  rw [bufPush]
  split_ifs
  · rfl
  · rfl

theorem shiftHeld_keyboardIrq (k : Keyboard) (code : UInt8) :
    (keyboardIrq k code).shiftHeld = shiftAfter k.shiftHeld code := by
  rw [keyboardIrq, shiftAfter]
  dsimp only
  split_ifs
  · rfl
  · rfl
  · rfl
  · rfl
  · exact shiftHeld_bufPush k _
  · rfl

/-- The same keys have a character in both tables. -/
theorem scancodeChar_eq_zero_iff (held : Bool) (code : UInt8) :
    scancodeChar held code = 0 ↔ prints code = false := by
  have hprints : prints code = false ↔ scancodeChar false code = 0 := by
    rw [prints, decide_eq_false_iff_not, not_not]
  rw [hprints]
  rcases Nat.lt_or_ge code.toNat 58 with hlow | hhigh
  · have htables : ∀ n < 58, scancodeAsciiShift.getD n 0 = 0 ↔ scancodeAscii.getD n 0 = 0 := by
      decide
    cases held with
    | false => exact Iff.rfl
    | true => exact htables code.toNat hlow
  · rw [scancodeChar_of_le hhigh, scancodeChar_of_le hhigh]

/-- With a character in the tables, one character is pushed, and without one none. -/
theorem irqChar_of_prints (k : Keyboard) {code : UInt8} (h : prints code = true) :
    irqChar k code = some (scancodeChar k.shiftHeld code) := by
  rw [irqChar_eq, if_neg]
  rw [scancodeChar_eq_zero_iff, h]
  exact Bool.noConfusion

theorem irqChar_of_not_prints (k : Keyboard) {code : UInt8} (h : prints code = false) :
    irqChar k code = none := by
  rw [irqChar_eq, if_pos ((scancodeChar_eq_zero_iff _ _).mpr h)]

/-! ### Whole streams -/

/-- The number of characters does not depend on the shift keys. -/
theorem length_pushed (k : Keyboard) (bytes : List UInt8) :
    (pushed k bytes).length = bytes.countP prints := by
  induction bytes generalizing k with
  | nil => rfl
  | cons code bytes ih =>
    rw [pushed, List.length_append, ih, List.countP_cons]
    cases hprints : prints code with
    | false =>
      rw [irqChar_of_not_prints k hprints]
      exact Nat.zero_add _
    | true =>
      rw [irqChar_of_prints k hprints]
      exact Nat.add_comm 1 _

/-- Without the extended keys there are no more characters. -/
theorem countP_withoutExtended_le (scans : List Scan) :
    (stream (withoutExtended scans)).countP prints ≤ (stream scans).countP prints := by
  induction scans with
  | nil => exact le_rfl
  | cons scan scans ih =>
    cases scan with
    | plain code =>
      change ([code] ++ stream (withoutExtended scans)).countP prints ≤
        ([code] ++ stream scans).countP prints
      rw [List.countP_append, List.countP_append]
      exact Nat.add_le_add_left ih _
    | extended code =>
      have hlater : (stream scans).countP prints ≤ (stream (.extended code :: scans)).countP prints := by
        change _ ≤ ([scExtended, code] ++ stream scans).countP prints
        rw [List.countP_append]
        exact Nat.le_add_left _ _
      exact ih.trans hlater

/-- A key is typed by two keyboards. -/
theorem toList_append_eq_iff (k plain : Keyboard) (code : UInt8) (chars chars' : List UInt8) :
    (irqChar k code).toList ++ chars = (irqChar plain code).toList ++ chars' ↔
      (k.shiftHeld = plain.shiftHeld ∨ scancodeChar true code = scancodeChar false code) ∧
        chars = chars' := by
  cases hprints : prints code with
  | false =>
    have hzero := fun held ↦ (scancodeChar_eq_zero_iff held code).mpr hprints
    rw [irqChar_of_not_prints k hprints, irqChar_of_not_prints plain hprints, hzero, hzero]
    exact ⟨fun h ↦ ⟨Or.inr rfl, h⟩, fun h ↦ h.2⟩
  | true =>
    have hsame : scancodeChar k.shiftHeld code = scancodeChar plain.shiftHeld code ↔
        k.shiftHeld = plain.shiftHeld ∨ scancodeChar true code = scancodeChar false code := by
      cases k.shiftHeld <;> cases plain.shiftHeld <;> simp [eq_comm]
    rw [irqChar_of_prints k hprints, irqChar_of_prints plain hprints, ← hsame]
    exact List.cons_eq_cons

/-- Two keyboards get the stream, one of them without the extended keys. -/
theorem ignored_iff_harmless (scans : List Scan) (k plain : Keyboard) :
    pushed k (stream scans) = pushed plain (stream (withoutExtended scans)) ∧
        (irqs k (stream scans)).shiftHeld =
          (irqs plain (stream (withoutExtended scans))).shiftHeld ↔
      Harmless k.shiftHeld plain.shiftHeld scans := by
  induction scans generalizing k plain with
  | nil => exact ⟨fun h ↦ h.2, fun h ↦ ⟨rfl, h⟩⟩
  | cons scan scans ih =>
    cases scan with
    | plain code =>
      have hrest := ih (keyboardIrq k code) (keyboardIrq plain code)
      rw [shiftHeld_keyboardIrq, shiftHeld_keyboardIrq] at hrest
      change (irqChar k code).toList ++ pushed (keyboardIrq k code) (stream scans) =
          (irqChar plain code).toList ++
            pushed (keyboardIrq plain code) (stream (withoutExtended scans)) ∧
        (irqs (keyboardIrq k code) (stream scans)).shiftHeld =
          (irqs (keyboardIrq plain code) (stream (withoutExtended scans))).shiftHeld ↔ _
      rw [Harmless, ← hrest, toList_append_eq_iff, and_assoc]
    | extended code =>
      have hrest := ih (keyboardIrq k code) plain
      rw [shiftHeld_keyboardIrq] at hrest
      change (irqChar k code).toList ++ pushed (keyboardIrq k code) (stream scans) =
            pushed plain (stream (withoutExtended scans)) ∧
        (irqs (keyboardIrq k code) (stream scans)).shiftHeld =
          (irqs plain (stream (withoutExtended scans))).shiftHeld ↔ _
      rw [Harmless, ← hrest]
      cases hprints : prints code with
      | false =>
        rw [irqChar_of_not_prints k hprints]
        exact ⟨fun h ↦ ⟨rfl, h⟩, fun h ↦ h.2⟩
      | true =>
        refine ⟨fun h ↦ ?_, fun h ↦ absurd h.1 Bool.noConfusion⟩
        have hlength := congrArg List.length h.1
        rw [irqChar_of_prints k hprints, List.length_append, length_pushed, length_pushed] at hlength
        have hle := countP_withoutExtended_le scans
        change 1 + _ = _ at hlength
        omega

/-- The extended keys are ignored exactly when the codes behind `0xE0` are harmless. -/
theorem extendedIgnored_iff (k : Keyboard) (scans : List Scan) :
    ExtendedIgnored k scans ↔ Harmless k.shiftHeld k.shiftHeld scans :=
  ignored_iff_harmless scans k k

-- The codes of the arrow keys have no character.
example : ExtendedIgnored Keyboard.boot [.extended 0x48, .plain 0x1E, .extended 0xC8] := by decide

end MegKer.Drivers
