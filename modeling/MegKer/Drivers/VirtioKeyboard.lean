import MegKer.Drivers.ExtendedKeys
import MegKer.Drivers.VirtioInput

/-!
# The virtio keyboard

The keyboard half of `arch/aarch64/drivers/virtio_input.c`. It was written after the PS/2 driver, with
its own copy of the tables and of the ring buffer, for events in place of scan codes: the order of
the tests is another one, the two codes of a shift key are one code with a value, and a code may have
sixteen bits.

The two drivers agree on the keys that both can tell (`keyboards_agree`): the same key presses,
repetitions and releases lead to the same state, by a simulation in which the states of the two drivers
are the same up to the names of the variables.
-/

set_option autoImplicit false
set_option relaxedAutoImplicit false

namespace MegKer.Drivers

/-! ### The code -/

def evKey : UInt16 := 0x01

def keyLeftShift : UInt16 := 42

def keyRightShift : UInt16 := 54

namespace VirtioInput

/-- The table `scancode_ascii` of `virtio_input.c`. -/
def scancodeAscii : List UInt8 :=
  ['\x00', '\x1b', '1', '2', '3', '4', '5', '6', '7', '8', '9', '0', '-', '=', '\x08', '\t',
    'q', 'w', 'e', 'r', 't', 'y', 'u', 'i', 'o', 'p', '[', ']', '\n', '\x00', 'a', 's',
    'd', 'f', 'g', 'h', 'j', 'k', 'l', ';', '\x27', '\x60', '\x00', '\x5c', 'z', 'x', 'c', 'v',
    'b', 'n', 'm', ',', '.', '/', '\x00', '*', '\x00', ' '].map Char.toUInt8

/-- The table `scancode_ascii_shift` of `virtio_input.c`. -/
def scancodeAsciiShift : List UInt8 :=
  ['\x00', '\x1b', '!', '@', '#', '$', '%', '^', '&', '*', '(', ')', '_', '+', '\x08', '\t',
    'Q', 'W', 'E', 'R', 'T', 'Y', 'U', 'I', 'O', 'P', '\x7b', '\x7d', '\n', '\x00', 'A', 'S',
    'D', 'F', 'G', 'H', 'J', 'K', 'L', ':', '\x22', '~', '\x00', '|', 'Z', 'X', 'C', 'V',
    'B', 'N', 'M', '<', '>', '?', '\x00', '*', '\x00', ' '].map Char.toUInt8

/-- The character of a key code. -/
def scancodeChar (shiftHeld : Bool) (code : UInt16) : UInt8 :=
  if shiftHeld then scancodeAsciiShift.getD code.toNat 0 else scancodeAscii.getD code.toNat 0

end VirtioInput

/-- The static variables of the keyboard in `virtio_input.c`. -/
structure VirtioKeyboard where
  kbBuf : ℕ → UInt8
  kbHead : ℕ
  kbTail : ℕ
  shiftHeld : Bool

/-- The driver before its first event. -/
def VirtioKeyboard.boot : VirtioKeyboard where
  kbBuf := fun _ ↦ 0
  kbHead := 0
  kbTail := 0
  shiftHeld := false

def kbPush (k : VirtioKeyboard) (c : UInt8) : VirtioKeyboard :=
  let next := (k.kbHead + 1) % kbBufSize
  if next = k.kbTail then k
  else { k with kbBuf := Function.update k.kbBuf k.kbHead c, kbHead := next }

def handleKbdEvent (k : VirtioKeyboard) (e : InputEvent) : VirtioKeyboard :=
  if e.type ≠ evKey then k
  else if e.code = keyLeftShift ∨ e.code = keyRightShift then
    { k with shiftHeld := e.value ≠ 0 }
  else if e.value = 0 then k
  else if 128 ≤ e.code then k
  else
    let c := VirtioInput.scancodeChar k.shiftHeld e.code
    if c ≠ 0 then kbPush k c else k

/-- `virtio_keyboard_getchar`, with the events that `poll_event` returns. -/
def virtioKeyboardGetchar (k : VirtioKeyboard) (events : List InputEvent) : UInt8 × VirtioKeyboard :=
  let k := events.foldl handleKbdEvent k
  if k.kbTail = k.kbHead then (0, k)
  else (k.kbBuf k.kbTail, { k with kbTail := (k.kbTail + 1) % kbBufSize })

/-! ### Keys, as the two drivers are told of them -/

/-- A key that both drivers have a code for. -/
structure Key where
  code : ℕ
  pos : 0 < code
  lt : code < 128
  deriving DecidableEq, Repr

/-- A key goes down, is held down, or goes up. -/
inductive KeyEvent
  | press (key : Key)
  | autorepeat (key : Key)
  | release (key : Key)
  deriving DecidableEq, Repr

/-- The scan code of set 1. -/
def KeyEvent.scanCode : KeyEvent → UInt8
  | .press key => UInt8.ofNat key.code
  | .autorepeat key => UInt8.ofNat key.code
  | .release key => UInt8.ofNat key.code ||| 0x80

/-- The virtio event. -/
def KeyEvent.inputEvent : KeyEvent → InputEvent
  | .press key => { type := evKey, code := UInt16.ofNat key.code, value := 1 }
  | .autorepeat key => { type := evKey, code := UInt16.ofNat key.code, value := 2 }
  | .release key => { type := evKey, code := UInt16.ofNat key.code, value := 0 }

/-- What happens to both keyboards. -/
inductive KbdAction
  | key (event : KeyEvent)
  /-- An event of another type, which only virtio has. -/
  | other (event : InputEvent) (hother : event.type ≠ evKey)
  | getchar

/-- A driver, the characters that it has put into its buffer, and those that were read. -/
structure Transcript (σ : Type) where
  driver : σ
  accepted : List UInt8
  returned : List UInt8

/-- The character by which the buffer has grown, if it has. -/
def Keyboard.accepted (before after : Keyboard) : List UInt8 :=
  if after.bufHead = before.bufHead then [] else [after.buf before.bufHead]

def VirtioKeyboard.accepted (before after : VirtioKeyboard) : List UInt8 :=
  if after.kbHead = before.kbHead then [] else [after.kbBuf before.kbHead]

/-- The PS/2 driver gets the scan codes. -/
def ps2Step (t : Transcript Keyboard) : KbdAction → Transcript Keyboard
  | .key event =>
    let after := keyboardIrq t.driver event.scanCode
    { t with driver := after, accepted := t.accepted ++ t.driver.accepted after }
  | .other _ _ => t
  | .getchar =>
    let (c, after) := keyboardGetchar t.driver
    { t with driver := after, returned := t.returned ++ [c] }

/-- The virtio driver gets the events. -/
def virtioStep (t : Transcript VirtioKeyboard) : KbdAction → Transcript VirtioKeyboard
  | .key event =>
    let after := handleKbdEvent t.driver event.inputEvent
    { t with driver := after, accepted := t.accepted ++ t.driver.accepted after }
  | .other event _ =>
    let after := handleKbdEvent t.driver event
    { t with driver := after, accepted := t.accepted ++ t.driver.accepted after }
  | .getchar =>
    let (c, after) := virtioKeyboardGetchar t.driver []
    { t with driver := after, returned := t.returned ++ [c] }

/-- The drivers at the start. -/
def ps2Boot : Transcript Keyboard where
  driver := Keyboard.boot
  accepted := []
  returned := []

def virtioBoot : Transcript VirtioKeyboard where
  driver := VirtioKeyboard.boot
  accepted := []
  returned := []

/-! ### The simulation -/

/-- The PS/2 driver with the variables of the virtio driver. -/
def VirtioKeyboard.asPs2 (k : VirtioKeyboard) : Keyboard where
  buf := k.kbBuf
  bufHead := k.kbHead
  bufTail := k.kbTail
  shiftHeld := k.shiftHeld

theorem asPs2_kbPush (k : VirtioKeyboard) (c : UInt8) : (kbPush k c).asPs2 = bufPush k.asPs2 c := by
  rw [kbPush, bufPush]
  change VirtioKeyboard.asPs2 (if (k.kbHead + 1) % kbBufSize = k.kbTail then _ else _) =
    if (k.kbHead + 1) % kbBufSize = k.kbTail then _ else _
  split_ifs
  · rfl
  · rfl

/-- The copies of the tables are the same. -/
theorem scancodeChar_eq (held : Bool) {sc : UInt8} {code : UInt16} (h : sc.toNat = code.toNat) :
    VirtioInput.scancodeChar held code = scancodeChar held sc := by
  rw [VirtioInput.scancodeChar, scancodeChar, h]
  rfl

section Codes

variable {n : ℕ}

theorem toNat_make (h : n < 128) : (UInt8.ofNat n).toNat = n :=
  Nat.mod_eq_of_lt (h.trans (by decide))

theorem toNat_key (h : n < 128) : (UInt16.ofNat n).toNat = n :=
  Nat.mod_eq_of_lt (h.trans (by decide))

theorem toNat_break (h : n < 128) : (UInt8.ofNat n ||| 0x80).toNat = n + 128 := by
  have hall : ∀ m < 128, (UInt8.ofNat m ||| 0x80).toNat = m + 128 := by decide
  exact hall n h

end Codes

/-- The effect of a scan code, by its number. The test for the upper bit is made twice. -/
theorem keyboardIrq_eq (k : Keyboard) (sc : UInt8) :
    keyboardIrq k sc =
      if sc.toNat = 42 ∨ sc.toNat = 54 then { k with shiftHeld := true }
      else if sc.toNat = 170 ∨ sc.toNat = 182 then { k with shiftHeld := false }
      else if 128 ≤ sc.toNat then k
      else if scancodeChar k.shiftHeld sc ≠ 0 then bufPush k (scancodeChar k.shiftHeld sc) else k := by
  have hdown : (sc = scLShift ∨ sc = scRShift) ↔ (sc.toNat = 42 ∨ sc.toNat = 54) :=
    or_congr UInt8.toNat_inj.symm UInt8.toNat_inj.symm
  have hup : (sc = scLShiftUp ∨ sc = scRShiftUp) ↔ (sc.toNat = 170 ∨ sc.toNat = 182) :=
    or_congr UInt8.toNat_inj.symm UInt8.toNat_inj.symm
  have hhigh : 128 ≤ sc ↔ 128 ≤ sc.toNat := UInt8.le_iff_toNat_le
  rw [keyboardIrq]
  simp only [hdown, hup, hhigh]
  by_cases hbit : sc &&& 0x80 ≠ 0
  · rw [if_pos hbit, if_pos (le_of_and_ne_zero hbit)]
  · rw [if_neg hbit]

/-- The effect of a key event, by its number. -/
theorem handleKbdEvent_eq (k : VirtioKeyboard) (code : UInt16) (value : UInt32) :
    handleKbdEvent k { type := evKey, code := code, value := value } =
      if code.toNat = 42 ∨ code.toNat = 54 then { k with shiftHeld := value ≠ 0 }
      else if value = 0 then k
      else if 128 ≤ code.toNat then k
      else if VirtioInput.scancodeChar k.shiftHeld code ≠ 0 then
        kbPush k (VirtioInput.scancodeChar k.shiftHeld code)
      else k := by
  have hshift : (code = keyLeftShift ∨ code = keyRightShift) ↔ (code.toNat = 42 ∨ code.toNat = 54) :=
    or_congr UInt16.toNat_inj.symm UInt16.toNat_inj.symm
  have hhigh : 128 ≤ code ↔ 128 ≤ code.toNat := UInt16.le_iff_toNat_le
  rw [handleKbdEvent, if_neg (not_not.mpr rfl)]
  simp only [hshift, hhigh]

section Keys

variable (k : VirtioKeyboard) (key : Key)

/-- A key is down. -/
theorem asPs2_make {value : UInt32} (hvalue : value ≠ 0) :
    (handleKbdEvent k { type := evKey, code := UInt16.ofNat key.code, value := value }).asPs2 =
      keyboardIrq k.asPs2 (UInt8.ofNat key.code) := by
  have hchar : VirtioInput.scancodeChar k.shiftHeld (UInt16.ofNat key.code) =
      scancodeChar k.shiftHeld (UInt8.ofNat key.code) :=
    scancodeChar_eq k.shiftHeld ((toNat_make key.lt).trans (toNat_key key.lt).symm)
  have hlow := key.lt
  rw [handleKbdEvent_eq, keyboardIrq_eq, toNat_make key.lt, toNat_key key.lt, if_neg hvalue, hchar,
    if_neg (by omega : ¬ 128 ≤ key.code), if_neg (by omega : ¬ 128 ≤ key.code),
    if_neg (by omega : ¬ (key.code = 170 ∨ key.code = 182)), decide_eq_true hvalue]
  change VirtioKeyboard.asPs2 _ = if _ then _ else
    if scancodeChar k.shiftHeld (UInt8.ofNat key.code) ≠ 0 then
      bufPush k.asPs2 (scancodeChar k.shiftHeld (UInt8.ofNat key.code)) else _
  split_ifs
  · rfl
  · exact asPs2_kbPush k _
  · rfl

/-- A key goes up. -/
theorem asPs2_break :
    (handleKbdEvent k { type := evKey, code := UInt16.ofNat key.code, value := 0 }).asPs2 =
      keyboardIrq k.asPs2 (UInt8.ofNat key.code ||| 0x80) := by
  have hlow := key.lt
  rw [handleKbdEvent_eq, keyboardIrq_eq, toNat_break key.lt, toNat_key key.lt, if_pos rfl]
  have hup : (key.code + 128 = 170 ∨ key.code + 128 = 182) ↔ (key.code = 42 ∨ key.code = 54) := by
    omega
  rw [if_neg (by omega : ¬ (key.code + 128 = 42 ∨ key.code + 128 = 54)),
    if_pos (Nat.le_add_left 128 key.code)]
  simp only [hup]
  split_ifs
  · rfl
  · rfl

end Keys

theorem asPs2_inputEvent (k : VirtioKeyboard) (event : KeyEvent) :
    (handleKbdEvent k event.inputEvent).asPs2 = keyboardIrq k.asPs2 event.scanCode := by
  cases event with
  | press key => exact asPs2_make k key (by decide)
  | autorepeat key => exact asPs2_make k key (by decide)
  | release key => exact asPs2_break k key

/-- The transcripts of the two drivers are the same. -/
structure Agrees (ps2 : Transcript Keyboard) (virtio : Transcript VirtioKeyboard) : Prop where
  driver : ps2.driver = virtio.driver.asPs2
  accepted : ps2.accepted = virtio.accepted
  returned : ps2.returned = virtio.returned

/-- The step lemma. -/
theorem Agrees.step {ps2 : Transcript Keyboard} {virtio : Transcript VirtioKeyboard}
    (h : Agrees ps2 virtio) (action : KbdAction) :
    Agrees (ps2Step ps2 action) (virtioStep virtio action) := by
  obtain ⟨driver, accepted, returned⟩ := ps2
  obtain ⟨rfl, rfl, rfl⟩ := h
  cases action with
  | key event =>
    refine ⟨(asPs2_inputEvent virtio.driver event).symm, ?_, rfl⟩
    change virtio.accepted ++ virtio.driver.asPs2.accepted (keyboardIrq virtio.driver.asPs2 _) = _
    rw [← asPs2_inputEvent]
    rfl
  | other event hother =>
    have hsame : handleKbdEvent virtio.driver event = virtio.driver := if_pos hother
    have hnone : virtio.driver.accepted virtio.driver = [] := if_pos rfl
    have hstep : virtioStep virtio (.other event hother) = virtio := by
      rw [virtioStep, hsame, hnone, List.append_nil]
    rw [hstep]
    exact ⟨rfl, rfl, rfl⟩
  | getchar =>
    have hget : keyboardGetchar virtio.driver.asPs2 =
        ((virtioKeyboardGetchar virtio.driver []).1,
          (virtioKeyboardGetchar virtio.driver []).2.asPs2) := by
      change (if virtio.driver.kbTail = virtio.driver.kbHead then _ else _) = _
      rw [virtioKeyboardGetchar, List.foldl_nil]
      split_ifs
      · rfl
      · rfl
    rw [ps2Step, hget]
    exact ⟨rfl, rfl, rfl⟩

/-- Whatever keys are pressed, held and released, and whenever characters are read, the two drivers
accept and return the same characters and hold the same shift state. -/
theorem keyboards_agree (actions : List KbdAction) :
    (actions.foldl ps2Step ps2Boot).accepted = (actions.foldl virtioStep virtioBoot).accepted ∧
      (actions.foldl ps2Step ps2Boot).returned = (actions.foldl virtioStep virtioBoot).returned ∧
      (actions.foldl ps2Step ps2Boot).driver.shiftHeld =
        (actions.foldl virtioStep virtioBoot).driver.shiftHeld := by
  have hagrees : Agrees (actions.foldl ps2Step ps2Boot) (actions.foldl virtioStep virtioBoot) := by
    have hrun : ∀ {ps2 virtio}, Agrees ps2 virtio →
        Agrees (actions.foldl ps2Step ps2) (actions.foldl virtioStep virtio) := by
      induction actions with
      | nil => exact id
      | cons action actions ih => exact fun h ↦ ih (h.step action)
    exact hrun ⟨rfl, rfl, rfl⟩
  refine ⟨hagrees.accepted, hagrees.returned, ?_⟩
  rw [hagrees.driver]
  rfl

end MegKer.Drivers
