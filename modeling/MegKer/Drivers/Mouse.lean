import MegKer.Foundation.SignedWord
import MegKer.Foundation.Transition
import Mathlib.Tactic.SplitIfs

/-!
# The PS/2 mouse

The driver of `arch/x86_64/drivers/mouse.c`. The interrupt handler collects packets of three bytes and
moves the cursor; `mouse_get_state` reports the position and the buttons when they have changed.

`mouse_get_state` reads the position and the buttons one after the other and then clears
`state_dirty`. `Pointing` is the system of these steps and of the interrupts between them. An interrupt
that completes a packet between the first read and the clear is not reported (`update_lost`), and the
values that are delivered may be of two different moments. The update is not lost when the packet
leaves alone what the call has read so far (`Pointing.Careful`), and that is all that is needed
(`delivered_of_careful`).
-/

set_option autoImplicit false
set_option relaxedAutoImplicit false

namespace MegKer.Drivers

open Foundation

/-! ### The code -/

/-- The static variables of the driver. -/
structure Mouse where
  mouseX : ℤ
  mouseY : ℤ
  mouseButtons : UInt8
  stateDirty : Bool
  packet : ℕ → UInt8
  packetIndex : ℕ

/-- A position is kept between 0 and the last one on the screen. A screen without pixels, or a wider
one than a signed number can tell, does not limit it. -/
def clamp (size : ℕ) (v : ℤ) : ℤ :=
  let max := i32 (i32 size - 1)
  let v := if v < 0 then 0 else v
  if 0 ≤ max ∧ max < v then max else v

/-- `dx` and `dy`: a byte of the packet, with the sign bit from the first byte. -/
def delta (data : UInt8) (negative : Bool) : ℤ :=
  if negative then data.toNat - 256 else data.toNat

/-- The new `mouse_x`, by the first two bytes of the packet. -/
def movedX (width : ℕ) (x : ℤ) (flags data : UInt8) : ℤ :=
  clamp width (i32 (x + delta data (flags &&& 0x10 ≠ 0)))

/-- The new `mouse_y`, by the first and the last byte of the packet: upwards is positive. -/
def movedY (height : ℕ) (y : ℤ) (flags data : UInt8) : ℤ :=
  clamp height (i32 (y - delta data (flags &&& 0x20 ≠ 0)))

/-- The new `mouse_buttons`. -/
def pressed (flags : UInt8) : UInt8 := flags &&& 0x07

/-- `mouse_irq`, with the byte it reads from the port. -/
def mouseIrq (width height : ℕ) (m : Mouse) (data : UInt8) : Mouse :=
  if m.packetIndex = 0 ∧ data &&& 0x08 = 0 then m
  else
    let packet := Function.update m.packet m.packetIndex data
    let packetIndex := m.packetIndex + 1
    if packetIndex < 3 then { m with packet := packet, packetIndex := packetIndex }
    else
      { mouseX := movedX width m.mouseX (packet 0) (packet 1)
        mouseY := movedY height m.mouseY (packet 0) (packet 2)
        mouseButtons := pressed (packet 0)
        stateDirty := true
        packet := packet
        packetIndex := 0 }

/-- What `mouse_get_state` reports. -/
structure Sample where
  x : ℤ
  y : ℤ
  buttons : UInt8
  deriving DecidableEq, Repr

/-- The state of the driver, as it should be reported. -/
def Mouse.sample (m : Mouse) : Sample where
  x := m.mouseX
  y := m.mouseY
  buttons := m.mouseButtons

/-- The driver after `mouse_init`: the cursor is at the centre. -/
def mouseInit (width height : ℕ) : Mouse where
  mouseX := i32 (width / 2 : ℕ)
  mouseY := i32 (height / 2 : ℕ)
  mouseButtons := 0
  stateDirty := false
  packet := fun _ ↦ 0
  packetIndex := 0

/-- `mouse_get_state`, when nothing comes in between. -/
def mouseGetState (m : Mouse) : Option Sample × Mouse :=
  if m.stateDirty then (some m.sample, { m with stateDirty := false }) else (none, m)

/-! ### Interrupts during `mouse_get_state` -/

/-- How far a call of `mouse_get_state` has come, with the values it has read. -/
inductive GetStatePoint
  | outside
  | readX
  | readY (x : ℤ)
  | readButtons (x y : ℤ)
  | clear (x y : ℤ) (buttons : UInt8)
  deriving DecidableEq, Repr

/-- The driver, the call in progress, and the history. -/
structure Pointing where
  mouse : Mouse
  point : GetStatePoint
  /-- The last values that a caller has received; at the start, those it assumes. -/
  delivered : Sample
  /-- All values that callers have received. -/
  deliveries : List Sample
  /-- The states that the driver has been in. -/
  moments : List Sample

/-- What may happen next. -/
inductive PointingAction
  | irq (data : UInt8)
  | getState
  | advance
  deriving DecidableEq, Repr

section Screen

variable (width height : ℕ)

/-- An interrupt. -/
def Pointing.irq (p : Pointing) (data : UInt8) : Pointing :=
  let mouse := mouseIrq width height p.mouse data
  { p with mouse := mouse, moments := mouse.sample :: p.moments }

/-- One step of `mouse_get_state`. -/
def Pointing.advance (p : Pointing) : GetStatePoint → Pointing
  | .outside => p
  | .readX => { p with point := .readY p.mouse.mouseX }
  | .readY x => { p with point := .readButtons x p.mouse.mouseY }
  | .readButtons x y => { p with point := .clear x y p.mouse.mouseButtons }
  | .clear x y buttons =>
    { p with mouse := { p.mouse with stateDirty := false }
             point := .outside
             delivered := ⟨x, y, buttons⟩
             deliveries := ⟨x, y, buttons⟩ :: p.deliveries }

/-- The step relation. -/
def Pointing.step (p : Pointing) : PointingAction → Option Pointing
  | .irq data => some (p.irq width height data)
  | .getState =>
    if p.point = .outside then
      some { p with point := if p.mouse.stateDirty then .readX else .outside }
    else none
  | .advance => some (p.advance p.point)

/-- The start, after `mouse_init`. -/
def Pointing.boot : Pointing where
  mouse := mouseInit width height
  point := .outside
  delivered := (mouseInit width height).sample
  deliveries := []
  moments := [(mouseInit width height).sample]

/-- A call without an interrupt does what `mouse_get_state` does. -/
theorem runFrom_getState {p : Pointing} (hpoint : p.point = .outside) :
    (runFrom (Pointing.step width height) p
      [.getState, .advance, .advance, .advance, .advance]).map (fun p ↦ (p.mouse, p.deliveries)) =
      some ((mouseGetState p.mouse).2, (mouseGetState p.mouse).1.toList ++ p.deliveries) := by
  rw [runFrom, Pointing.step, if_pos hpoint, mouseGetState]
  cases hdirty : p.mouse.stateDirty with
  | false => rfl
  | true => rfl

/-! ### The condition -/

/-- The packet that an interrupt completes leaves the position on the screen's x axis alone. -/
def Mouse.KeepsX (m : Mouse) : Prop :=
  movedX width m.mouseX (m.packet 0) (m.packet 1) = m.mouseX

/-- The packet that the byte `data` completes leaves the position on the screen's y axis alone. -/
def Mouse.KeepsY (m : Mouse) (data : UInt8) : Prop :=
  movedY height m.mouseY (m.packet 0) data = m.mouseY

/-- The packet that an interrupt completes leaves the buttons alone. -/
def Mouse.KeepsButtons (m : Mouse) : Prop := pressed (m.packet 0) = m.mouseButtons

/-- The call has read `mouse_x`. -/
def GetStatePoint.hasX : GetStatePoint → Bool
  | .readY _ | .readButtons _ _ | .clear _ _ _ => true
  | _ => false

/-- The call has read `mouse_y`. -/
def GetStatePoint.hasY : GetStatePoint → Bool
  | .readButtons _ _ | .clear _ _ _ => true
  | _ => false

/-- The call has read `mouse_buttons`. -/
def GetStatePoint.hasButtons : GetStatePoint → Bool
  | .clear _ _ _ => true
  | _ => false

/-- A packet that an interrupt completes leaves alone what the call in progress has read. -/
def Pointing.Careful (p : Pointing) : PointingAction → Prop
  | .irq data => p.mouse.packetIndex = 2 →
    (p.point.hasX = true → p.mouse.KeepsX width) ∧
      (p.point.hasY = true → p.mouse.KeepsY height data) ∧
      (p.point.hasButtons = true → p.mouse.KeepsButtons)
  | .getState => True
  | .advance => True

instance (m : Mouse) : Decidable (m.KeepsX width) := inferInstanceAs (Decidable (_ = _))

instance (m : Mouse) (data : UInt8) : Decidable (m.KeepsY height data) :=
  inferInstanceAs (Decidable (_ = _))

instance (m : Mouse) : Decidable m.KeepsButtons := inferInstanceAs (Decidable (_ = _))

instance (p : Pointing) : (action : PointingAction) → Decidable (p.Careful width height action)
  | .irq _ => inferInstanceAs (Decidable (_ → _ ∧ _ ∧ _))
  | .getState => inferInstanceAs (Decidable True)
  | .advance => inferInstanceAs (Decidable True)

end Screen

/-! ### The properties -/

/-- A caller has the last state when no call is in progress and `state_dirty` is clear, and every
sample that was delivered was the state at one moment. -/
structure Delivered (p : Pointing) : Prop where
  up_to_date : p.point = .outside → p.mouse.stateDirty = false → p.delivered = p.mouse.sample
  one_moment : ∀ sample ∈ p.deliveries, sample ∈ p.moments

/-- The left button is pressed, and released while the press is being reported. -/
def releaseDuringReport : List PointingAction :=
  [.irq 0x09, .irq 0, .irq 0, .getState, .advance, .advance, .advance,
    .irq 0x08, .irq 0, .irq 0, .advance]

/-- The release of the button is lost. -/
theorem update_lost :
    ∃ p, runFrom (Pointing.step 640 480) (Pointing.boot 640 480) releaseDuringReport = some p ∧
      ¬ Delivered p := by
  have hend : (runFrom (Pointing.step 640 480) (Pointing.boot 640 480) releaseDuringReport).map
      (fun p ↦ (p.point, p.mouse.stateDirty, p.delivered.buttons, p.mouse.mouseButtons)) =
        some (.outside, false, 1, 0) := by decide
  obtain ⟨p, hrun, hp⟩ := Option.map_eq_some_iff.mp hend
  obtain ⟨hpoint, hdirty, hdelivered, hbuttons⟩ : p.point = .outside ∧ p.mouse.stateDirty = false ∧
      p.delivered.buttons = 1 ∧ p.mouse.mouseButtons = 0 := by simpa using hp
  refine ⟨p, hrun, fun h ↦ ?_⟩
  have hsame : p.delivered.buttons = p.mouse.mouseButtons :=
    congrArg Sample.buttons (h.up_to_date hpoint hdirty)
  rw [hdelivered, hbuttons] at hsame
  exact absurd hsame (by decide)

/-! ### The invariant -/

/-- What the call in progress has read is the state of the driver. -/
def GetStatePoint.Sees (m : Mouse) : GetStatePoint → Prop
  | .outside => True
  | .readX => True
  | .readY x => x = m.mouseX
  | .readButtons x y => x = m.mouseX ∧ y = m.mouseY
  | .clear x y buttons => x = m.mouseX ∧ y = m.mouseY ∧ buttons = m.mouseButtons

/-- The call has seen the state as long as the fields that it has read are the same. -/
theorem GetStatePoint.Sees.keep {m m' : Mouse} {point : GetStatePoint} (h : point.Sees m)
    (hx : point.hasX = true → m'.mouseX = m.mouseX) (hy : point.hasY = true → m'.mouseY = m.mouseY)
    (hbuttons : point.hasButtons = true → m'.mouseButtons = m.mouseButtons) : point.Sees m' := by
  cases point with
  | outside => trivial
  | readX => trivial
  | readY x => exact Eq.trans h (hx rfl).symm
  | readButtons x y => exact ⟨h.1.trans (hx rfl).symm, h.2.trans (hy rfl).symm⟩
  | clear x y buttons =>
    exact ⟨h.1.trans (hx rfl).symm, h.2.1.trans (hy rfl).symm, h.2.2.trans (hbuttons rfl).symm⟩

/-- The invariant. -/
structure Reports (p : Pointing) : Prop where
  index_lt : p.mouse.packetIndex < 3
  point : p.point.Sees p.mouse
  up_to_date : p.point = .outside → p.mouse.stateDirty = false → p.delivered = p.mouse.sample
  now : p.mouse.sample ∈ p.moments
  one_moment : ∀ sample ∈ p.deliveries, sample ∈ p.moments

/-- An interrupt completes a packet, or leaves the position and the buttons alone. -/
theorem mouseIrq_cases (width height : ℕ) {m : Mouse} (hindex : m.packetIndex < 3) (data : UInt8) :
    ((mouseIrq width height m data).sample = m.sample ∧
        (mouseIrq width height m data).stateDirty = m.stateDirty ∧
        (mouseIrq width height m data).packetIndex < 3) ∨
      m.packetIndex = 2 ∧ mouseIrq width height m data =
        { mouseX := movedX width m.mouseX (m.packet 0) (m.packet 1)
          mouseY := movedY height m.mouseY (m.packet 0) data
          mouseButtons := pressed (m.packet 0)
          stateDirty := true
          packet := Function.update m.packet 2 data
          packetIndex := 0 } := by
  rw [mouseIrq]
  split_ifs with hsync
  · exact Or.inl ⟨rfl, rfl, hindex⟩
  · by_cases hmore : m.packetIndex + 1 < 3
    · dsimp only
      rw [if_pos hmore]
      exact Or.inl ⟨rfl, rfl, hmore⟩
    · have htwo : m.packetIndex = 2 := by omega
      dsimp only
      rw [if_neg hmore, htwo, Function.update_self, Function.update_of_ne (by decide),
        Function.update_of_ne (by decide)]
      exact Or.inr ⟨rfl, rfl⟩

section Step

variable {width height : ℕ} {p : Pointing}

theorem Reports.irq (h : Reports p) {data : UInt8}
    (hcareful : p.Careful width height (.irq data)) : Reports (p.irq width height data) := by
  have hmoments : ∀ sample ∈ p.deliveries,
      sample ∈ (mouseIrq width height p.mouse data).sample :: p.moments := fun sample hmem ↦
    List.mem_cons_of_mem _ (h.one_moment sample hmem)
  rcases mouseIrq_cases width height h.index_lt data with ⟨hsample, hdirty, hindex⟩ | ⟨htwo, hirq⟩
  · obtain ⟨hx, hy, hbuttons⟩ := Sample.mk.inj hsample
    refine ⟨hindex, h.point.keep (fun _ ↦ hx) (fun _ ↦ hy) fun _ ↦ hbuttons, fun hpoint hclear ↦ ?_,
      List.mem_cons_self, hmoments⟩
    exact (h.up_to_date hpoint (hdirty.symm.trans hclear)).trans hsample.symm
  · obtain ⟨hx, hy, hbuttons⟩ := hcareful htwo
    have hirqX : (mouseIrq width height p.mouse data).mouseX =
        movedX width p.mouse.mouseX (p.mouse.packet 0) (p.mouse.packet 1) := by rw [hirq]
    have hirqY : (mouseIrq width height p.mouse data).mouseY =
        movedY height p.mouse.mouseY (p.mouse.packet 0) data := by rw [hirq]
    have hirqButtons : (mouseIrq width height p.mouse data).mouseButtons =
        pressed (p.mouse.packet 0) := by rw [hirq]
    have hindex : (mouseIrq width height p.mouse data).packetIndex = 0 := by rw [hirq]
    have hdirty : (mouseIrq width height p.mouse data).stateDirty = true := by rw [hirq]
    refine ⟨?_, h.point.keep (fun hread ↦ hirqX.trans (hx hread))
      (fun hread ↦ hirqY.trans (hy hread)) fun hread ↦ hirqButtons.trans (hbuttons hread),
      fun _ hclear ↦ ?_, List.mem_cons_self, hmoments⟩
    · exact lt_of_eq_of_lt hindex (Nat.zero_lt_succ 2)
    · exact absurd (hdirty.symm.trans hclear) (by decide)

theorem Reports.advance (h : Reports p) : Reports (p.advance p.point) := by
  have hpoint := h.point
  generalize hat : p.point = point at hpoint ⊢
  cases point with
  | outside => exact h
  | readX => exact ⟨h.index_lt, rfl, nofun, h.now, h.one_moment⟩
  | readY x => exact ⟨h.index_lt, ⟨hpoint, rfl⟩, nofun, h.now, h.one_moment⟩
  | readButtons x y =>
    exact ⟨h.index_lt, ⟨hpoint.1, hpoint.2, rfl⟩, nofun, h.now, h.one_moment⟩
  | clear x y buttons =>
    obtain ⟨rfl, rfl, rfl⟩ := hpoint
    exact ⟨h.index_lt, trivial, fun _ _ ↦ rfl, h.now,
      List.forall_mem_cons.mpr ⟨h.now, h.one_moment⟩⟩

/-- The step lemma. -/
theorem reports_step {action : PointingAction} {p' : Pointing} (h : Reports p)
    (hcareful : p.Careful width height action) (hstep : p.step width height action = some p') :
    Reports p' := by
  cases action with
  | irq data =>
    obtain rfl := Option.some.inj hstep
    exact h.irq hcareful
  | getState =>
    rw [Pointing.step] at hstep
    split_ifs at hstep with houtside hdirty
    · obtain rfl := Option.some.inj hstep
      exact ⟨h.index_lt, trivial, nofun, h.now, h.one_moment⟩
    · obtain rfl := Option.some.inj hstep
      exact ⟨h.index_lt, trivial, fun _ ↦ h.up_to_date houtside, h.now, h.one_moment⟩
  | advance =>
    obtain rfl := Option.some.inj hstep
    exact h.advance

end Step

/-! ### Whole runs -/

theorem reports_boot (width height : ℕ) : Reports (Pointing.boot width height) where
  index_lt := Nat.zero_lt_succ 2
  point := trivial
  up_to_date := fun _ _ ↦ rfl
  now := List.mem_singleton_self _
  one_moment := fun _ hmem ↦ absurd hmem List.not_mem_nil

/-- In every run in which packets leave alone what a call has read, no update is lost or torn. -/
theorem delivered_of_careful (width height : ℕ) (actions : List PointingAction) (p : Pointing)
    (hcareful : AlongRun (Pointing.step width height) (Pointing.Careful width height)
      (Pointing.boot width height) actions)
    (hrun : runFrom (Pointing.step width height) (Pointing.boot width height) actions = some p) :
    Delivered p := by
  have h := invariant_runFrom reports_step (reports_boot width height) hcareful hrun
  exact ⟨h.up_to_date, h.one_moment⟩

/-- The button is pressed and reported; the packet for its release starts while it is reported, and
ends afterwards. -/
def releaseAfterReport : List PointingAction :=
  [.irq 0x09, .irq 5, .irq 0, .getState, .advance, .advance, .irq 0x08, .advance, .irq 0, .advance,
    .irq 0, .getState, .advance, .advance, .advance, .advance]

theorem delivered_of_careful_release :
    ∃ p, runFrom (Pointing.step 640 480) (Pointing.boot 640 480) releaseAfterReport = some p ∧
      p.deliveries = [⟨325, 240, 0⟩, ⟨325, 240, 1⟩] ∧ Delivered p := by
  have hcareful : AlongRun (Pointing.step 640 480) (Pointing.Careful 640 480)
      (Pointing.boot 640 480) releaseAfterReport := by decide
  have hend : (runFrom (Pointing.step 640 480) (Pointing.boot 640 480) releaseAfterReport).map
      Pointing.deliveries = some [⟨325, 240, 0⟩, ⟨325, 240, 1⟩] := by decide
  obtain ⟨p, hrun, hp⟩ := Option.map_eq_some_iff.mp hend
  exact ⟨p, hrun, hp, delivered_of_careful 640 480 releaseAfterReport p hcareful hrun⟩

end MegKer.Drivers
