import MegKer.Drivers.VirtioKeyboard

/-!
# The two shift keys

A keyboard has two shift keys, and both drivers keep one flag for them: a shift key that goes down
sets the flag, and one that goes up clears it. When both are down and one goes up, the flag is cleared
although the other one is held, and the next letters are small ones (`not_respectsShift`).

`Typist` is a driver together with the keys that are down, and the events are those that a keyboard can
send: a key goes down when it is up, and goes up when it is down. The flag is right as long as no shift
key goes up while the other one is down (`Typist.OneShift`), and then every key is translated with the
right table (`respectsShift_of_oneShift`). The argument is the same for both drivers; what it needs of
a driver is `KeyDriver.Flag`.
-/

set_option autoImplicit false
set_option relaxedAutoImplicit false

namespace MegKer.Drivers

open Foundation

/-! ### A driver and its keys -/

/-- A key goes down or up. -/
inductive KeyAction (κ : Type)
  | press (key : κ)
  | release (key : κ)
  deriving DecidableEq, Repr

/-- A keyboard driver with the state `σ` and the keys `κ`. -/
structure KeyDriver (σ κ : Type) where
  boot : σ
  /-- The keys that the keyboard has. -/
  isKey : κ → Bool
  leftShift : κ
  rightShift : κ
  deliver : σ → KeyAction κ → σ
  /-- The flag for the shift keys. -/
  shiftHeld : σ → Bool
  /-- The driver after a key was translated with the shifted table, or with the other one. -/
  translated : σ → Bool → κ → σ

/-- The PS/2 driver. The code for the release of a key has the upper bit. -/
def ps2Driver : KeyDriver Keyboard UInt8 where
  boot := Keyboard.boot
  isKey := fun code ↦ code < 128
  leftShift := scLShift
  rightShift := scRShift
  deliver := fun k action ↦
    match action with
    | .press code => keyboardIrq k code
    | .release code => keyboardIrq k (code ||| 0x80)
  shiftHeld := Keyboard.shiftHeld
  translated := fun k shifted code ↦
    if scancodeChar shifted code ≠ 0 then bufPush k (scancodeChar shifted code) else k

/-- The virtio driver. Codes from 128 on are not translated. -/
def virtioDriver : KeyDriver VirtioKeyboard UInt16 where
  boot := VirtioKeyboard.boot
  isKey := fun _ ↦ true
  leftShift := keyLeftShift
  rightShift := keyRightShift
  deliver := fun k action ↦
    match action with
    | .press code => handleKbdEvent k { type := evKey, code := code, value := 1 }
    | .release code => handleKbdEvent k { type := evKey, code := code, value := 0 }
  shiftHeld := VirtioKeyboard.shiftHeld
  translated := fun k shifted code ↦
    if 128 ≤ code then k
    else if VirtioInput.scancodeChar shifted code ≠ 0 then
      kbPush k (VirtioInput.scancodeChar shifted code)
    else k

/-- A driver, and the keys that are down. -/
structure Typist (σ κ : Type) where
  driver : σ
  down : κ → Bool

section System

variable {σ κ : Type} (d : KeyDriver σ κ)

/-- The start: no key is down. -/
def KeyDriver.start : Typist σ κ where
  driver := d.boot
  down := fun _ ↦ false

variable [DecidableEq κ]

/-- The step relation: a key goes down when it is up, and up when it is down. -/
def KeyDriver.step (t : Typist σ κ) : KeyAction κ → Option (Typist σ κ)
  | .press key =>
    if d.isKey key = true ∧ t.down key = false then
      some { driver := d.deliver t.driver (.press key), down := Function.update t.down key true }
    else none
  | .release key =>
    if t.down key = true then
      some { driver := d.deliver t.driver (.release key), down := Function.update t.down key false }
    else none

/-- A shift key is down. -/
def KeyDriver.shiftDown (t : Typist σ κ) : Bool := t.down d.leftShift || t.down d.rightShift

/-- A press of any key but a shift key is translated with the shifted table when a shift key is down,
and with the other one when none is. -/
def KeyDriver.RespectsShift (t : Typist σ κ) : Prop :=
  ∀ key, d.isKey key = true → key ≠ d.leftShift → key ≠ d.rightShift →
    d.deliver t.driver (.press key) = d.translated t.driver (d.shiftDown t) key

/-- No shift key goes up while the other one is down. -/
def KeyDriver.OneShift (t : Typist σ κ) : KeyAction κ → Prop
  | .press _ => True
  | .release key =>
    (key = d.leftShift → t.down d.rightShift = false) ∧
      (key = d.rightShift → t.down d.leftShift = false)

instance (t : Typist σ κ) (action : KeyAction κ) : Decidable (d.OneShift t action) :=
  match action with
  | .press _ => isTrue trivial
  | .release _ => inferInstanceAs (Decidable (_ ∧ _))

end System

/-! ### Both shift keys -/

/-- Both shift keys go down, and the right one goes up. -/
def bothShifts {κ : Type} (left right : κ) : List (KeyAction κ) :=
  [.press left, .press right, .release right]

/-- With the left shift key down, an `a` is typed as a small letter. -/
theorem not_respectsShift :
    (¬ ∀ actions t, runFrom ps2Driver.step ps2Driver.start actions = some t →
      ps2Driver.RespectsShift t) ∧
    ¬ ∀ actions t, runFrom virtioDriver.step virtioDriver.start actions = some t →
      virtioDriver.RespectsShift t := by
  refine ⟨fun h ↦ ?_, fun h ↦ ?_⟩
  · have hrespects := h (bothShifts scLShift scRShift) _ rfl 0x1E (by decide) (by decide) (by decide)
    have hchar := congrArg (fun k ↦ k.buf 0) hrespects
    exact absurd hchar (by decide)
  · have hrespects := h (bothShifts keyLeftShift keyRightShift) _ rfl 0x1E (by decide) (by decide)
      (by decide)
    have hchar := congrArg (fun k ↦ k.kbBuf 0) hrespects
    exact absurd hchar (by decide)

/-! ### The flag -/

/-- What the two drivers have in common: the flag follows the last shift code, and a key is translated
by the flag. -/
structure KeyDriver.Flag {σ κ : Type} (d : KeyDriver σ κ) : Prop where
  shift_ne : d.leftShift ≠ d.rightShift
  boot : d.shiftHeld d.boot = false
  press_shift : ∀ s key, key = d.leftShift ∨ key = d.rightShift →
    d.shiftHeld (d.deliver s (.press key)) = true
  release_shift : ∀ s key, key = d.leftShift ∨ key = d.rightShift →
    d.shiftHeld (d.deliver s (.release key)) = false
  press_other : ∀ s key, d.isKey key = true → key ≠ d.leftShift → key ≠ d.rightShift →
    d.deliver s (.press key) = d.translated s (d.shiftHeld s) key
  translated_keeps : ∀ s shifted key, d.shiftHeld (d.translated s shifted key) = d.shiftHeld s
  release_keeps : ∀ s key, d.isKey key = true → key ≠ d.leftShift → key ≠ d.rightShift →
    d.shiftHeld (d.deliver s (.release key)) = d.shiftHeld s

/-- The flag says whether a shift key is down. -/
structure KeyDriver.InStep {σ κ : Type} (d : KeyDriver σ κ) (t : Typist σ κ) : Prop where
  flag : d.shiftHeld t.driver = d.shiftDown t
  keys : ∀ key, t.down key = true → d.isKey key = true

section Step

variable {σ κ : Type} {d : KeyDriver σ κ} {t t' : Typist σ κ}

theorem KeyDriver.Flag.start (h : d.Flag) : d.InStep d.start :=
  ⟨h.boot, fun _ hdown ↦ absurd hdown Bool.false_ne_true⟩

variable [DecidableEq κ]

/-- A key goes down. -/
theorem KeyDriver.InStep.press (h : d.InStep t) (hflag : d.Flag) {key : κ}
    (hkey : d.isKey key = true) :
    d.InStep { driver := d.deliver t.driver (.press key)
               down := Function.update t.down key true } := by
  refine ⟨?_, fun other hother ↦ ?_⟩
  · change d.shiftHeld (d.deliver t.driver (.press key)) =
      (Function.update t.down key true d.leftShift || Function.update t.down key true d.rightShift)
    by_cases hshift : key = d.leftShift ∨ key = d.rightShift
    · rw [hflag.press_shift _ key hshift]
      rcases hshift with rfl | rfl
      · rw [Function.update_self, Bool.true_or]
      · rw [Function.update_self, Bool.or_true]
    · obtain ⟨hleft, hright⟩ := not_or.mp hshift
      rw [hflag.press_other _ key hkey hleft hright, hflag.translated_keeps,
        Function.update_of_ne (Ne.symm hleft), Function.update_of_ne (Ne.symm hright)]
      exact h.flag
  · change Function.update t.down key true other = true at hother
    by_cases hsame : other = key
    · rwa [hsame]
    · exact h.keys other (by rwa [Function.update_of_ne hsame] at hother)

/-- A key goes up. -/
theorem KeyDriver.InStep.release (h : d.InStep t) (hflag : d.Flag) {key : κ}
    (hdown : t.down key = true) (hone : d.OneShift t (.release key)) :
    d.InStep { driver := d.deliver t.driver (.release key)
               down := Function.update t.down key false } := by
  refine ⟨?_, fun other hother ↦ ?_⟩
  · change d.shiftHeld (d.deliver t.driver (.release key)) =
      (Function.update t.down key false d.leftShift || Function.update t.down key false d.rightShift)
    by_cases hshift : key = d.leftShift ∨ key = d.rightShift
    · -- The other shift key is up, so none is down afterwards.
      rw [hflag.release_shift _ key hshift]
      rcases hshift with rfl | rfl
      · rw [Function.update_self, Function.update_of_ne (Ne.symm hflag.shift_ne), hone.1 rfl]
        rfl
      · rw [Function.update_self, Function.update_of_ne hflag.shift_ne, hone.2 rfl]
        rfl
    · obtain ⟨hleft, hright⟩ := not_or.mp hshift
      rw [hflag.release_keeps _ key (h.keys key hdown) hleft hright,
        Function.update_of_ne (Ne.symm hleft), Function.update_of_ne (Ne.symm hright)]
      exact h.flag
  · change Function.update t.down key false other = true at hother
    by_cases hsame : other = key
    · rw [hsame, Function.update_self] at hother
      exact absurd hother Bool.false_ne_true
    · exact h.keys other (by rwa [Function.update_of_ne hsame] at hother)

/-- The step lemma. -/
theorem KeyDriver.InStep.step (h : d.InStep t) (hflag : d.Flag) {action : KeyAction κ}
    (hone : d.OneShift t action) (hstep : d.step t action = some t') : d.InStep t' := by
  cases action with
  | press key =>
    rw [KeyDriver.step] at hstep
    split_ifs at hstep with hpossible
    obtain rfl := Option.some.inj hstep
    exact h.press hflag hpossible.1
  | release key =>
    rw [KeyDriver.step] at hstep
    split_ifs at hstep with hdown
    obtain rfl := Option.some.inj hstep
    exact h.release hflag hdown hone

/-- In every run in which no shift key goes up while the other one is down, the right table is used. -/
theorem KeyDriver.Flag.respectsShift (hflag : d.Flag) {actions : List (KeyAction κ)}
    (hone : AlongRun d.step d.OneShift d.start actions)
    (hrun : runFrom d.step d.start actions = some t) : d.RespectsShift t := by
  have hinStep : d.InStep t :=
    invariant_runFrom (fun h hstepOne hstep ↦ h.step hflag hstepOne hstep) hflag.start hone hrun
  intro key hkey hleft hright
  rw [hflag.press_other _ key hkey hleft hright, hinStep.flag]

end Step

/-! ### The two drivers -/

theorem shiftHeld_kbPush (k : VirtioKeyboard) (c : UInt8) : (kbPush k c).shiftHeld = k.shiftHeld := by
  rw [kbPush]
  split_ifs
  · rfl
  · rfl

/-- The break code of a key. -/
theorem toNat_or {code : UInt8} (h : code < 128) : (code ||| 0x80).toNat = code.toNat + 128 := by
  have hofNat : UInt8.ofNat code.toNat = code := UInt8.ofNat_toNat
  have hbreak := toNat_break (UInt8.lt_iff_toNat_lt.mp h)
  rwa [hofNat] at hbreak

theorem flag_ps2Driver : ps2Driver.Flag where
  shift_ne := by decide
  boot := rfl
  press_shift := fun s key hkey ↦ by
    rcases hkey with rfl | rfl
    · rfl
    · rfl
  release_shift := fun s key hkey ↦ by
    rcases hkey with rfl | rfl
    · rfl
    · rfl
  press_other := fun s key hkey hleft hright ↦ by
    have hlow : key.toNat < 128 := UInt8.lt_iff_toNat_lt.mp (of_decide_eq_true hkey)
    have hl : key.toNat ≠ 42 := fun h ↦ hleft (UInt8.toNat_inj.mp h)
    have hr : key.toNat ≠ 54 := fun h ↦ hright (UInt8.toNat_inj.mp h)
    change keyboardIrq s key = if _ then _ else _
    rw [keyboardIrq_eq, if_neg (by omega), if_neg (by omega), if_neg (by omega)]
    rfl
  translated_keeps := fun s shifted key ↦ by
    change (if _ then _ else _ : Keyboard).shiftHeld = s.shiftHeld
    split_ifs
    · exact shiftHeld_bufPush s _
    · rfl
  release_keeps := fun s key hkey hleft hright ↦ by
    have hbreak := toNat_or (of_decide_eq_true hkey)
    have hl : key.toNat ≠ 42 := fun h ↦ hleft (UInt8.toNat_inj.mp h)
    have hr : key.toNat ≠ 54 := fun h ↦ hright (UInt8.toNat_inj.mp h)
    change (keyboardIrq s (key ||| 0x80)).shiftHeld = s.shiftHeld
    rw [keyboardIrq_eq, hbreak, if_neg (by omega), if_neg (by omega), if_pos (by omega)]

theorem flag_virtioDriver : virtioDriver.Flag where
  shift_ne := by decide
  boot := rfl
  press_shift := fun s key hkey ↦ by
    rcases hkey with rfl | rfl
    · rfl
    · rfl
  release_shift := fun s key hkey ↦ by
    rcases hkey with rfl | rfl
    · rfl
    · rfl
  press_other := fun s key _ hleft hright ↦ by
    have hhigh : 128 ≤ key ↔ 128 ≤ key.toNat := UInt16.le_iff_toNat_le
    have hl : key.toNat ≠ 42 := fun h ↦ hleft (UInt16.toNat_inj.mp h)
    have hr : key.toNat ≠ 54 := fun h ↦ hright (UInt16.toNat_inj.mp h)
    change handleKbdEvent s { type := evKey, code := key, value := 1 } =
      if 128 ≤ key then _ else if _ then _ else _
    rw [handleKbdEvent_eq, if_neg (by omega), if_neg (by decide)]
    simp only [hhigh]
    rfl
  translated_keeps := fun s shifted key ↦ by
    change (if _ then _ else if _ then _ else _ : VirtioKeyboard).shiftHeld = s.shiftHeld
    split_ifs
    · rfl
    · exact shiftHeld_kbPush s _
    · rfl
  release_keeps := fun s key _ hleft hright ↦ by
    have hl : key.toNat ≠ 42 := fun h ↦ hleft (UInt16.toNat_inj.mp h)
    have hr : key.toNat ≠ 54 := fun h ↦ hright (UInt16.toNat_inj.mp h)
    change (handleKbdEvent s { type := evKey, code := key, value := 0 }).shiftHeld = s.shiftHeld
    rw [handleKbdEvent_eq, if_neg (by omega), if_pos rfl]

/-- In every run in which no shift key goes up while the other one is down, both drivers translate
every key with the right table. -/
theorem respectsShift_of_oneShift (ps2Actions : List (KeyAction UInt8))
    (virtioActions : List (KeyAction UInt16)) :
    (∀ t, AlongRun ps2Driver.step ps2Driver.OneShift ps2Driver.start ps2Actions →
      runFrom ps2Driver.step ps2Driver.start ps2Actions = some t → ps2Driver.RespectsShift t) ∧
    ∀ t, AlongRun virtioDriver.step virtioDriver.OneShift virtioDriver.start virtioActions →
      runFrom virtioDriver.step virtioDriver.start virtioActions = some t →
        virtioDriver.RespectsShift t :=
  ⟨fun _ hone hrun ↦ flag_ps2Driver.respectsShift hone hrun,
    fun _ hone hrun ↦ flag_virtioDriver.respectsShift hone hrun⟩

/-- The left shift key goes down and up, and then the right one goes down. -/
def oneAfterTheOther {κ : Type} (left right : κ) : List (KeyAction κ) :=
  [.press left, .release left, .press right]

theorem respectsShift_of_oneShift_one_after_the_other :
    (∃ t, runFrom ps2Driver.step ps2Driver.start (oneAfterTheOther scLShift scRShift) = some t ∧
      ps2Driver.shiftDown t = true ∧ ps2Driver.RespectsShift t) ∧
    ∃ t, runFrom virtioDriver.step virtioDriver.start
        (oneAfterTheOther keyLeftShift keyRightShift) = some t ∧
      virtioDriver.shiftDown t = true ∧ virtioDriver.RespectsShift t := by
  obtain ⟨hps2, hvirtio⟩ := respectsShift_of_oneShift (oneAfterTheOther scLShift scRShift)
    (oneAfterTheOther keyLeftShift keyRightShift)
  refine ⟨⟨_, rfl, by decide, hps2 _ ?_ rfl⟩, ⟨_, rfl, by decide, hvirtio _ ?_ rfl⟩⟩
  · decide
  · decide

end MegKer.Drivers
