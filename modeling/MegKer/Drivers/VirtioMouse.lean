import MegKer.Drivers.MousePackets
import MegKer.Drivers.VirtioKeyboard
import Mathlib.Data.List.Induction

/-!
# The virtio mouse

The mouse half of `arch/aarch64/drivers/virtio_input.c`. An event moves the cursor along one axis, by a
signed 32-bit number that the device chooses, or tells of one button.

The movement is added before the position is brought back to the screen. The position is not negative,
so the sum cannot be too small, but a large movement to the right or downwards makes it overflow; it
wraps to a negative number, and the cursor goes to the opposite edge (`not_tracks_far_right`).
`tracks_iff` is that this is the only thing that goes wrong: a history of events is tracked exactly when
no sum overflows.
-/

set_option autoImplicit false
set_option relaxedAutoImplicit false

namespace MegKer.Drivers

open Foundation

/-! ### The code -/

def evRel : UInt16 := 0x02

def relX : UInt16 := 0x00

def relY : UInt16 := 0x01

def btnLeft : UInt16 := 0x110

def btnRight : UInt16 := 0x111

def btnMiddle : UInt16 := 0x112

/-- The static variables of the mouse in `virtio_input.c`. -/
structure VirtioMouse where
  mouseX : ℤ
  mouseY : ℤ
  mouseButtons : UInt8
  mouseDirty : Bool
  deriving DecidableEq, Repr

/-- The variables after the first lines of `virtio_input_init`: the cursor is at the centre. -/
def VirtioMouse.init (width height : ℕ) : VirtioMouse where
  mouseX := i32 (width / 2 : ℕ)
  mouseY := i32 (height / 2 : ℕ)
  mouseButtons := 0
  mouseDirty := false

/-- The end of the first branch of `handle_mouse_event`: both coordinates are brought back to the
screen. -/
def VirtioMouse.bounded (width height : ℕ) (m : VirtioMouse) : VirtioMouse :=
  { m with mouseX := clamp width m.mouseX, mouseY := clamp height m.mouseY, mouseDirty := true }

/-- The bit of a button. -/
def buttonBit (code : UInt16) : Option UInt8 :=
  if code = btnLeft then some 0x01
  else if code = btnRight then some 0x02
  else if code = btnMiddle then some 0x04
  else none

/-- The end of the second branch of `handle_mouse_event`. -/
def VirtioMouse.setButton (m : VirtioMouse) (bit : UInt8) (value : UInt32) : VirtioMouse :=
  { m with mouseButtons := if value ≠ 0 then m.mouseButtons ||| bit else m.mouseButtons &&& ~~~bit
           mouseDirty := true }

def handleMouseEvent (width height : ℕ) (m : VirtioMouse) (e : InputEvent) : VirtioMouse :=
  if e.type = evRel then
    let delta := i32 e.value.toNat
    if e.code = relX then ({ m with mouseX := i32 (m.mouseX + delta) }).bounded width height
    else if e.code = relY then ({ m with mouseY := i32 (m.mouseY + delta) }).bounded width height
    else m
  else if e.type = evKey then (buttonBit e.code).elim m fun bit ↦ m.setButton bit e.value
  else m

/-! ### What should be tracked -/

/-- The driver after a history of events. -/
def VirtioMouse.after (width height : ℕ) (events : List InputEvent) : VirtioMouse :=
  events.foldl (handleMouseEvent width height) (VirtioMouse.init width height)

/-- The value of an event as a signed number. -/
def InputEvent.signed (e : InputEvent) : ℤ := e.value.toBitVec.toInt

/-- The event is a movement along the x axis. -/
def InputEvent.IsX (e : InputEvent) : Prop := e.type = evRel ∧ e.code = relX

/-- The event is a movement along the y axis. -/
def InputEvent.IsY (e : InputEvent) : Prop := e.type = evRel ∧ e.code = relY

instance (e : InputEvent) : Decidable e.IsX := inferInstanceAs (Decidable (_ ∧ _))

instance (e : InputEvent) : Decidable e.IsY := inferInstanceAs (Decidable (_ ∧ _))

/-- The last event for a button says that it is held. -/
def lastPressed (button : UInt16) (events : List InputEvent) : Bool :=
  ((events.filter fun e ↦ e.type = evKey ∧ e.code = button).getLast?.map fun e ↦
    decide (e.value ≠ 0)).getD false

/-- The position is on the screen. -/
structure VirtioMouse.OnScreen (width height : ℕ) (m : VirtioMouse) : Prop where
  x : 0 ≤ m.mouseX ∧ m.mouseX < width
  y : 0 ≤ m.mouseY ∧ m.mouseY < height

/-- The buttons are those of the last events for them. -/
structure VirtioMouse.HasButtons (m : VirtioMouse) (events : List InputEvent) : Prop where
  left : m.mouseButtons.toNat.testBit 0 = lastPressed btnLeft events
  right : m.mouseButtons.toNat.testBit 1 = lastPressed btnRight events
  middle : m.mouseButtons.toNat.testBit 2 = lastPressed btnMiddle events

/-- An event moves the cursor as it should. -/
structure MovesExactly (width height : ℕ) (m m' : VirtioMouse) (e : InputEvent) : Prop where
  x : m'.mouseX = if e.IsX then clampTo width (m.mouseX + e.signed) else m.mouseX
  y : m'.mouseY = if e.IsY then clampTo height (m.mouseY + e.signed) else m.mouseY

/-- In a history of events, the cursor is always on the screen, the buttons are those of the last events
for them, and each event moves the cursor as it should. -/
def Tracks (width height : ℕ) (events : List InputEvent) : Prop :=
  ∀ past e future, events = past ++ e :: future →
    (VirtioMouse.after width height (past ++ [e])).OnScreen width height ∧
    (VirtioMouse.after width height (past ++ [e])).HasButtons (past ++ [e]) ∧
    MovesExactly width height (VirtioMouse.after width height past)
      (VirtioMouse.after width height (past ++ [e])) e

/-- The sum of the position and the movement is not too large. -/
def VirtioMouse.Fits (m : VirtioMouse) (e : InputEvent) : Prop :=
  (e.IsX → m.mouseX + e.signed < 2 ^ 31) ∧ (e.IsY → m.mouseY + e.signed < 2 ^ 31)

/-- A movement to the right by the largest number there is. -/
def farRight : InputEvent where
  type := evRel
  code := relX
  value := 0x7FFFFFFF

/-- The cursor goes to the left edge. -/
theorem not_tracks_far_right : ¬ Tracks 800 600 [farRight] := by
  intro h
  obtain ⟨-, -, hx, -⟩ := h [] farRight [] rfl
  exact absurd hx (by decide)

/-! ### One event -/

/-- The value as the code reads it. -/
theorem i32_value (e : InputEvent) : i32 e.value.toNat = e.signed := by
  rw [InputEvent.signed, BitVec.toInt_eq_toNat_bmod, Int.bmod_def, UInt32.toNat_toBitVec, i32]
  split_ifs <;> omega

theorem signed_range (e : InputEvent) : -2147483648 ≤ e.signed ∧ e.signed < 2147483648 := by
  rw [← i32_value]
  exact i32_range _

section Axis

variable {size : ℕ} (hsize : 1 ≤ size ∧ size < 2 ^ 31) {v : ℤ} (hv : 0 ≤ v ∧ v < size)

include hsize hv

/-- A coordinate on the screen stays. -/
theorem clamp_of_onScreen : clamp size v = v := by
  rw [clamp_eq hsize.1 hsize.2, clampTo]
  omega

/-- The new coordinate is right exactly when the sum does not overflow. -/
theorem clamp_add_iff (e : InputEvent) :
    clamp size (i32 (v + e.signed)) = clampTo size (v + e.signed) ↔ v + e.signed < 2 ^ 31 := by
  have hrange := signed_range e
  rw [clamp_eq hsize.1 hsize.2]
  constructor
  · intro hsame
    by_contra hover
    have hwraps : i32 (v + e.signed) = v + e.signed - 4294967296 := by
      unfold i32
      omega
    rw [hwraps, clampTo, clampTo] at hsame
    omega
  · intro hfits
    rw [i32_of_range (by omega) hfits]

end Axis

section Event

variable {width height : ℕ}

theorem bounded_mouseX (m : VirtioMouse) :
    (m.bounded width height).mouseX = clamp width m.mouseX := by
  rw [VirtioMouse.bounded]

theorem bounded_mouseY (m : VirtioMouse) :
    (m.bounded width height).mouseY = clamp height m.mouseY := by
  rw [VirtioMouse.bounded]

theorem handleMouseEvent_of_x {e : InputEvent} (h : e.IsX) (m : VirtioMouse) :
    handleMouseEvent width height m e =
      ({ m with mouseX := i32 (m.mouseX + e.signed) }).bounded width height := by
  rw [handleMouseEvent, if_pos h.1, i32_value, if_pos h.2]

theorem handleMouseEvent_of_y {e : InputEvent} (h : e.IsY) (m : VirtioMouse) :
    handleMouseEvent width height m e =
      ({ m with mouseY := i32 (m.mouseY + e.signed) }).bounded width height := by
  rw [handleMouseEvent, if_pos h.1, i32_value, if_neg (by rw [h.2]; decide), if_pos h.2]

/-- Other events do not move the cursor. -/
theorem handleMouseEvent_of_not (width height : ℕ) {e : InputEvent} (hx : ¬ e.IsX) (hy : ¬ e.IsY)
    (m : VirtioMouse) :
    (handleMouseEvent width height m e).mouseX = m.mouseX ∧
      (handleMouseEvent width height m e).mouseY = m.mouseY := by
  rw [handleMouseEvent]
  by_cases hrel : e.type = evRel
  · rw [if_pos hrel, if_neg fun h ↦ hx ⟨hrel, h⟩, if_neg fun h ↦ hy ⟨hrel, h⟩]
    exact ⟨rfl, rfl⟩
  · rw [if_neg hrel]
    split_ifs
    · cases buttonBit e.code with
      | none => exact ⟨rfl, rfl⟩
      | some bit => exact ⟨rfl, rfl⟩
    · exact ⟨rfl, rfl⟩

/-- An event is for one of the axes at most. -/
theorem InputEvent.not_isY {e : InputEvent} (h : e.IsX) : ¬ e.IsY := fun hy ↦
  absurd (h.2.symm.trans hy.2) (by decide)

variable (hwidth : 1 ≤ width ∧ width < 2 ^ 31) (hheight : 1 ≤ height ∧ height < 2 ^ 31)
  {m : VirtioMouse}

include hwidth hheight

theorem onScreen_bounded : (m.bounded width height).OnScreen width height := by
  refine ⟨?_, ?_⟩
  · rw [bounded_mouseX, clamp_eq hwidth.1 hwidth.2]
    exact clampTo_range hwidth.1 _
  · rw [bounded_mouseY, clamp_eq hheight.1 hheight.2]
    exact clampTo_range hheight.1 _

/-- Every event leaves the cursor on the screen. -/
theorem VirtioMouse.OnScreen.handle (h : m.OnScreen width height) (e : InputEvent) :
    (handleMouseEvent width height m e).OnScreen width height := by
  by_cases hx : e.IsX
  · rw [handleMouseEvent_of_x hx]
    exact onScreen_bounded hwidth hheight
  · by_cases hy : e.IsY
    · rw [handleMouseEvent_of_y hy]
      exact onScreen_bounded hwidth hheight
    · obtain ⟨hsameX, hsameY⟩ := handleMouseEvent_of_not width height hx hy m
      refine ⟨?_, ?_⟩
      · rw [hsameX]
        exact h.x
      · rw [hsameY]
        exact h.y

/-- An event moves the cursor as it should exactly when the sum does not overflow. -/
theorem movesExactly_iff (h : m.OnScreen width height) (e : InputEvent) :
    MovesExactly width height m (handleMouseEvent width height m e) e ↔ m.Fits e := by
  by_cases hx : e.IsX
  · have hy := InputEvent.not_isY hx
    have hadd := clamp_add_iff hwidth h.x e
    rw [handleMouseEvent_of_x hx]
    constructor
    · intro hmoves
      have hmovesX := hmoves.x
      rw [if_pos hx, bounded_mouseX] at hmovesX
      exact ⟨fun _ ↦ hadd.mp hmovesX, fun hisY ↦ absurd hisY hy⟩
    · intro hfits
      refine ⟨?_, ?_⟩
      · rw [if_pos hx, bounded_mouseX]
        exact hadd.mpr (hfits.1 hx)
      · rw [if_neg hy, bounded_mouseY]
        exact clamp_of_onScreen hheight h.y
  · by_cases hy : e.IsY
    · have hadd := clamp_add_iff hheight h.y e
      rw [handleMouseEvent_of_y hy]
      constructor
      · intro hmoves
        have hmovesY := hmoves.y
        rw [if_pos hy, bounded_mouseY] at hmovesY
        exact ⟨fun hisX ↦ absurd hisX hx, fun _ ↦ hadd.mp hmovesY⟩
      · intro hfits
        refine ⟨?_, ?_⟩
        · rw [if_neg hx, bounded_mouseX]
          exact clamp_of_onScreen hwidth h.x
        · rw [if_pos hy, bounded_mouseY]
          exact hadd.mpr (hfits.2 hy)
    · obtain ⟨hsameX, hsameY⟩ := handleMouseEvent_of_not width height hx hy m
      refine ⟨fun _ ↦ ⟨fun hisX ↦ absurd hisX hx, fun hisY ↦ absurd hisY hy⟩, fun _ ↦ ⟨?_, ?_⟩⟩
      · rw [if_neg hx, hsameX]
      · rw [if_neg hy, hsameY]

end Event

/-! ### The buttons -/

/-- A bit of the buttons, after the bits of `bit` are set or cleared. -/
theorem testBit_setButton (m : VirtioMouse) (bit : UInt8) (value : UInt32) {i : ℕ} (hi : i < 8) :
    (m.setButton bit value).mouseButtons.toNat.testBit i =
      if bit.toNat.testBit i then decide (value ≠ 0) else m.mouseButtons.toNat.testBit i := by
  have hnot : (~~~bit).toNat.testBit i = !bit.toNat.testBit i := by
    change (~~~bit.toBitVec).getLsbD i = !bit.toBitVec.getLsbD i
    rw [BitVec.getLsbD_not, decide_eq_true hi, Bool.true_and]
  rw [VirtioMouse.setButton]
  by_cases hvalue : value ≠ 0
  · rw [if_pos hvalue, UInt8.toNat_or, Nat.testBit_or, decide_eq_true hvalue]
    cases bit.toNat.testBit i with
    | false => exact Bool.or_false _
    | true => exact Bool.or_true _
  · rw [if_neg hvalue, UInt8.toNat_and, Nat.testBit_and, hnot, decide_eq_false hvalue]
    cases bit.toNat.testBit i with
    | false => exact Bool.and_true _
    | true => exact Bool.and_false _

/-- A button and its number. -/
structure IsButton (button : UInt16) (i : ℕ) : Prop where
  lt : i < 8
  /-- Its bit, and no other button, has this number. -/
  bit : ∀ code bit, buttonBit code = some bit → (bit.toNat.testBit i = true ↔ code = button)
  mapped : ∃ bit, buttonBit button = some bit

theorem buttonBit_cases {code : UInt16} {bit : UInt8} (h : buttonBit code = some bit) :
    (code = btnLeft ∧ bit = 0x01) ∨ (code = btnRight ∧ bit = 0x02) ∨
      (code = btnMiddle ∧ bit = 0x04) := by
  rw [buttonBit] at h
  split_ifs at h with hleft hright hmiddle
  · exact Or.inl ⟨hleft, (Option.some.inj h).symm⟩
  · exact Or.inr (Or.inl ⟨hright, (Option.some.inj h).symm⟩)
  · exact Or.inr (Or.inr ⟨hmiddle, (Option.some.inj h).symm⟩)

theorem isButton_left : IsButton btnLeft 0 := by
  refine ⟨by decide, fun code bit hbit ↦ ?_, 0x01, rfl⟩
  obtain ⟨rfl, rfl⟩ | ⟨rfl, rfl⟩ | ⟨rfl, rfl⟩ := buttonBit_cases hbit
  · decide
  · decide
  · decide

theorem isButton_right : IsButton btnRight 1 := by
  refine ⟨by decide, fun code bit hbit ↦ ?_, 0x02, rfl⟩
  obtain ⟨rfl, rfl⟩ | ⟨rfl, rfl⟩ | ⟨rfl, rfl⟩ := buttonBit_cases hbit
  · decide
  · decide
  · decide

theorem isButton_middle : IsButton btnMiddle 2 := by
  refine ⟨by decide, fun code bit hbit ↦ ?_, 0x04, rfl⟩
  obtain ⟨rfl, rfl⟩ | ⟨rfl, rfl⟩ | ⟨rfl, rfl⟩ := buttonBit_cases hbit
  · decide
  · decide
  · decide

theorem mouseButtons_of_rel (width height : ℕ) {e : InputEvent} (h : e.type = evRel)
    (m : VirtioMouse) : (handleMouseEvent width height m e).mouseButtons = m.mouseButtons := by
  rw [handleMouseEvent, if_pos h]
  split_ifs
  · rw [VirtioMouse.bounded]
  · rw [VirtioMouse.bounded]
  · rfl

/-- An event sets or clears the bit of its button, and leaves the other bits alone. -/
theorem testBit_handleMouseEvent (width height : ℕ) {button : UInt16} {i : ℕ}
    (hbutton : IsButton button i) (m : VirtioMouse) (e : InputEvent) :
    (handleMouseEvent width height m e).mouseButtons.toNat.testBit i =
      if e.type = evKey ∧ e.code = button then decide (e.value ≠ 0)
      else m.mouseButtons.toNat.testBit i := by
  by_cases hkey : e.type = evKey
  · have hrel : e.type ≠ evRel := by
      rw [hkey]
      decide
    rw [handleMouseEvent, if_neg hrel, if_pos hkey]
    cases hbit : buttonBit e.code with
    | none =>
      have hother : e.code ≠ button := by
        rintro rfl
        obtain ⟨bit, hsome⟩ := hbutton.mapped
        exact absurd (hbit.symm.trans hsome) (Option.some_ne_none bit).symm
      rw [if_neg fun h ↦ hother h.2, Option.elim_none]
    | some bit =>
      rw [Option.elim_some, testBit_setButton m bit e.value hbutton.lt]
      refine if_congr ((hbutton.bit _ bit hbit).trans ?_) rfl rfl
      exact ⟨fun h ↦ ⟨hkey, h⟩, fun h ↦ h.2⟩
  · rw [if_neg fun h ↦ hkey h.1]
    by_cases hrel : e.type = evRel
    · rw [mouseButtons_of_rel width height hrel]
    · rw [handleMouseEvent, if_neg hrel, if_neg hkey]

theorem lastPressed_concat (button : UInt16) (events : List InputEvent) (e : InputEvent) :
    lastPressed button (events ++ [e]) =
      if e.type = evKey ∧ e.code = button then decide (e.value ≠ 0)
      else lastPressed button events := by
  rw [lastPressed, List.filter_append]
  split_ifs with hmine
  · rw [List.filter_cons_of_pos (by simpa using hmine), List.filter_nil, List.getLast?_concat]
    rfl
  · rw [List.filter_cons_of_neg (by simpa using hmine), List.filter_nil, List.append_nil]
    rfl

/-! ### Histories -/

section Histories

variable {width height : ℕ}

theorem after_concat (events : List InputEvent) (e : InputEvent) :
    VirtioMouse.after width height (events ++ [e]) =
      handleMouseEvent width height (VirtioMouse.after width height events) e := by
  rw [VirtioMouse.after, List.foldl_append]
  rfl

theorem testBit_after {button : UInt16} {i : ℕ} (hbutton : IsButton button i)
    (events : List InputEvent) :
    (VirtioMouse.after width height events).mouseButtons.toNat.testBit i =
      lastPressed button events := by
  induction events using List.reverseRecOn with
  | nil => exact Nat.zero_testBit i
  | append_singleton events e ih =>
    rw [after_concat, testBit_handleMouseEvent width height hbutton, lastPressed_concat, ih]

theorem hasButtons_after (events : List InputEvent) :
    (VirtioMouse.after width height events).HasButtons events :=
  ⟨testBit_after isButton_left events, testBit_after isButton_right events,
    testBit_after isButton_middle events⟩

variable (hwidth : 1 ≤ width ∧ width < 2 ^ 31) (hheight : 1 ≤ height ∧ height < 2 ^ 31)

include hwidth hheight

theorem onScreen_after (events : List InputEvent) :
    (VirtioMouse.after width height events).OnScreen width height := by
  induction events using List.reverseRecOn with
  | nil => exact ⟨centre_on_screen hwidth.1 hwidth.2, centre_on_screen hheight.1 hheight.2⟩
  | append_singleton events e ih =>
    rw [after_concat]
    exact ih.handle hwidth hheight e

/-- A history is tracked exactly when in each of its events the sum of the position and the movement
fits into a signed number. -/
theorem tracks_iff (events : List InputEvent) :
    Tracks width height events ↔
      ∀ past e future, events = past ++ e :: future →
        (VirtioMouse.after width height past).Fits e := by
  refine forall_congr' fun past ↦ forall_congr' fun e ↦ forall_congr' fun future ↦
    forall_congr' fun _ ↦ ?_
  have hmoves := movesExactly_iff hwidth hheight (onScreen_after hwidth hheight past) e
  rw [after_concat, hmoves]
  refine ⟨fun h ↦ h.2.2, fun h ↦ ⟨?_, ?_, h⟩⟩
  · rw [← after_concat]
    exact onScreen_after hwidth hheight _
  · rw [← after_concat]
    exact hasButtons_after _

end Histories

/-- A movement to the left by the largest number there is. -/
def farLeft : InputEvent where
  type := evRel
  code := relX
  value := 0x80000000

theorem tracks_iff_far_left :
    Tracks 800 600 [farLeft] ∧ (VirtioMouse.after 800 600 [farLeft]).mouseX = 0 := by
  have hsize : (1 ≤ 800 ∧ 800 < 2 ^ 31) ∧ 1 ≤ 600 ∧ 600 < 2 ^ 31 := by decide
  refine ⟨(tracks_iff hsize.1 hsize.2 [farLeft]).mpr fun past e future hsplit ↦ ?_, by decide⟩
  obtain ⟨rfl, rfl, -⟩ : past = [] ∧ e = farLeft ∧ future = [] := by
    cases past with
    | nil => exact ⟨rfl, (List.cons.inj hsplit).1.symm, (List.cons.inj hsplit).2.symm⟩
    | cons first past => exact absurd (List.cons.inj hsplit).2 (by simp)
  exact ⟨fun _ ↦ by decide, fun _ ↦ by decide⟩

end MegKer.Drivers
