import MegKer.Drivers.Mouse
import Mathlib.Algebra.Order.Group.Int
import Mathlib.Data.Nat.Bitwise

/-!
# The packets of the mouse

`mouse_irq` gets the packets byte by byte. A packet starts with a byte whose bit 3 is set, and bytes
without that bit are dropped as long as no packet has started; inside a packet any byte may have the
bit. `decoded_stream` is that a stream of whole packets, with such bytes in front of them and between
them, has the effect of the packets one by one: the buttons of the last one, and the movements added up
with the position kept on the screen after each.

The position stays on the screen for every stream of bytes (`bounded_irqs`). So it is far enough from
the ends of the signed range for the sum with a movement not to overflow.
-/

set_option autoImplicit false
set_option relaxedAutoImplicit false

namespace MegKer.Drivers

open Foundation

/-! ### Packets -/

/-- A packet of three bytes. -/
structure Packet where
  flags : UInt8
  first : UInt8
  second : UInt8
  sync : flags &&& 0x08 ≠ 0

/-- The value of nine bits in two's complement: a sign bit and a byte. -/
def nineBits (sign : Bool) (byte : UInt8) : ℤ :=
  (BitVec.ofNat 9 (256 * sign.toNat + byte.toNat)).toInt

/-- The movement to the right. -/
def Packet.dx (p : Packet) : ℤ := nineBits (p.flags.toNat.testBit 4) p.first

/-- The movement upwards. -/
def Packet.dy (p : Packet) : ℤ := nineBits (p.flags.toNat.testBit 5) p.second

/-- The buttons that are held: the low three bits. -/
def Packet.buttons (p : Packet) : ℕ := p.flags.toNat % 8

/-- A part of a stream. -/
inductive StreamPart
  | junk (byte : UInt8) (hjunk : byte &&& 0x08 = 0)
  | packet (p : Packet)

/-- The bytes of a part. -/
def StreamPart.bytes : StreamPart → List UInt8
  | .junk byte _ => [byte]
  | .packet p => [p.flags, p.first, p.second]

/-- The packet of a part. -/
def StreamPart.packet? : StreamPart → Option Packet
  | .junk _ _ => none
  | .packet p => some p

/-- The bytes of a stream. -/
def streamBytes (parts : List StreamPart) : List UInt8 := parts.flatMap StreamPart.bytes

/-- The packets of a stream. -/
def packets (parts : List StreamPart) : List Packet := parts.filterMap StreamPart.packet?

/-- A coordinate is kept on a screen of the given size. -/
def clampTo (size : ℕ) (v : ℤ) : ℤ := max 0 (min v (size - 1))

/-- The position after a packet. -/
def Packet.move (width height : ℕ) (position : ℤ × ℤ) (p : Packet) : ℤ × ℤ :=
  (clampTo width (position.1 + p.dx), clampTo height (position.2 - p.dy))

/-- The position is on the screen. -/
structure Mouse.OnScreen (width height : ℕ) (m : Mouse) : Prop where
  x : 0 ≤ m.mouseX ∧ m.mouseX < width
  y : 0 ≤ m.mouseY ∧ m.mouseY < height

/-- The centre, where both drivers put the cursor at first. -/
theorem centre_on_screen {size : ℕ} (hpos : 1 ≤ size) (hlt : size < 2 ^ 31) :
    0 ≤ i32 (size / 2 : ℕ) ∧ i32 (size / 2 : ℕ) < size := by
  rw [i32_of_range (by omega) (by omega)]
  omega

/-! ### One packet -/

/-- The two's complement of nine bits is what the code computes. -/
theorem delta_eq (byte : UInt8) (sign : Bool) : delta byte sign = nineBits sign byte := by
  have hlt : byte.toNat < 256 := byte.toNat_lt
  rw [nineBits, BitVec.toInt_ofNat', delta, Int.bmod_def]
  cases sign with
  | false =>
    rw [if_neg Bool.false_ne_true, Bool.toNat_false]
    split_ifs <;> omega
  | true =>
    rw [if_pos rfl, Bool.toNat_true]
    split_ifs <;> omega

theorem nineBits_range (sign : Bool) (byte : UInt8) :
    -256 ≤ nineBits sign byte ∧ nineBits sign byte < 256 := by
  have hlt : byte.toNat < 256 := byte.toNat_lt
  rw [← delta_eq, delta]
  split_ifs <;> omega

/-- A test of a bit of a byte. -/
theorem decide_and_ne_zero {byte mask : UInt8} {i : ℕ} (hmask : mask.toNat = 2 ^ i) :
    decide (byte &&& mask ≠ 0) = byte.toNat.testBit i := by
  have hzero : byte &&& mask = 0 ↔ byte.toNat &&& 2 ^ i = 0 := by
    rw [← UInt8.toNat_inj, UInt8.toNat_and, hmask]
    rfl
  cases hbit : byte.toNat.testBit i with
  | false =>
    rw [decide_eq_false_iff_not, not_not, hzero, Nat.and_two_pow, hbit]
    exact Nat.zero_mul _
  | true =>
    rw [decide_eq_true_iff, ne_eq, hzero, Nat.and_two_pow, hbit]
    exact (Nat.one_mul _).trans_ne (Nat.two_pow_pos i).ne'

section Screen

variable {size : ℕ} (hpos : 1 ≤ size)

include hpos

/-- The code keeps a coordinate on the screen. -/
theorem clamp_eq (hlt : size < 2 ^ 31) (v : ℤ) : clamp size v = clampTo size v := by
  have hmax : i32 (i32 size - 1) = size - 1 := by
    rw [i32_of_range (n := size) (by omega) (by omega), i32_of_range (by omega) (by omega)]
  rw [clamp, hmax, clampTo]
  split_ifs <;> omega

theorem clampTo_range (v : ℤ) : 0 ≤ clampTo size v ∧ clampTo size v < size := by
  rw [clampTo]
  omega

variable (hle : size ≤ 2 ^ 30) {v : ℤ} (hlow : 0 ≤ v) (hhigh : v < size)

include hle hlow hhigh

theorem movedX_eq (flags byte : UInt8) :
    movedX size v flags byte = clampTo size (v + nineBits (flags.toNat.testBit 4) byte) := by
  have hrange := nineBits_range (flags.toNat.testBit 4) byte
  rw [movedX, decide_and_ne_zero (i := 4) rfl, delta_eq, i32_of_range (by omega) (by omega),
    clamp_eq hpos (by omega)]

theorem movedY_eq (flags byte : UInt8) :
    movedY size v flags byte = clampTo size (v - nineBits (flags.toNat.testBit 5) byte) := by
  have hrange := nineBits_range (flags.toNat.testBit 5) byte
  rw [movedY, decide_and_ne_zero (i := 5) rfl, delta_eq, i32_of_range (by omega) (by omega),
    clamp_eq hpos (by omega)]

end Screen

theorem toNat_pressed (flags : UInt8) : (pressed flags).toNat = flags.toNat % 8 := by
  change flags.toNat &&& 2 ^ 3 - 1 = flags.toNat % 2 ^ 3
  exact Nat.and_two_pow_sub_one_eq_mod _ _

/-! ### Whole streams -/

section Streams

variable {width height : ℕ}

/-- An interrupt for each byte. -/
def mouseIrqs (width height : ℕ) (m : Mouse) (bytes : List UInt8) : Mouse :=
  bytes.foldl (mouseIrq width height) m

/-- A byte in front of a packet is dropped. -/
theorem mouseIrq_junk {m : Mouse} (hindex : m.packetIndex = 0) {byte : UInt8}
    (hjunk : byte &&& 0x08 = 0) : mouseIrq width height m byte = m :=
  if_pos ⟨hindex, hjunk⟩

/-- The three bytes of a packet, whatever the last two are. -/
theorem mouseIrqs_packet (width height : ℕ) {m : Mouse} (hindex : m.packetIndex = 0) (p : Packet) :
    ∃ packet, mouseIrqs width height m (StreamPart.packet p).bytes =
      { mouseX := movedX width m.mouseX p.flags p.first
        mouseY := movedY height m.mouseY p.flags p.second
        mouseButtons := pressed p.flags
        stateDirty := true
        packet := packet
        packetIndex := 0 } := by
  change ∃ packet, mouseIrq width height
    (mouseIrq width height (mouseIrq width height m p.flags) p.first) p.second = _
  have hfirst : mouseIrq width height m p.flags =
      { m with packet := Function.update m.packet 0 p.flags, packetIndex := 1 } := by
    rw [mouseIrq, if_neg fun h ↦ p.sync h.2, hindex]
    rfl
  have hsecond : mouseIrq width height (mouseIrq width height m p.flags) p.first =
      { m with packet := Function.update (Function.update m.packet 0 p.flags) 1 p.first
               packetIndex := 2 } := by
    rw [hfirst]
    rfl
  rw [hsecond]
  exact ⟨_, rfl⟩

variable (hwidth : 1 ≤ width ∧ width ≤ 2 ^ 30) (hheight : 1 ≤ height ∧ height ≤ 2 ^ 30)

include hwidth hheight

theorem onScreen_mouseInit : (mouseInit width height).OnScreen width height := by
  exact ⟨centre_on_screen hwidth.1 (by omega), centre_on_screen hheight.1 (by omega)⟩

/-- Every byte keeps the position on the screen. -/
theorem bounded_mouseIrq {m : Mouse} (hindex : m.packetIndex < 3) (h : m.OnScreen width height)
    (data : UInt8) :
    (mouseIrq width height m data).packetIndex < 3 ∧
      (mouseIrq width height m data).OnScreen width height := by
  rcases mouseIrq_cases width height hindex data with ⟨hsample, -, hnext⟩ | ⟨-, hirq⟩
  · obtain ⟨hx, hy, -⟩ := Sample.mk.inj hsample
    refine ⟨hnext, ?_, ?_⟩
    · rw [hx]
      exact h.x
    · rw [hy]
      exact h.y
  · rw [hirq]
    refine ⟨Nat.zero_lt_succ 2, ?_, ?_⟩
    · dsimp only
      rw [movedX_eq hwidth.1 hwidth.2 h.x.1 h.x.2]
      exact clampTo_range hwidth.1 _
    · dsimp only
      rw [movedY_eq hheight.1 hheight.2 h.y.1 h.y.2]
      exact clampTo_range hheight.1 _

theorem bounded_irqs {m : Mouse} (hindex : m.packetIndex < 3) (h : m.OnScreen width height)
    (bytes : List UInt8) :
    (mouseIrqs width height m bytes).packetIndex < 3 ∧
      (mouseIrqs width height m bytes).OnScreen width height := by
  induction bytes generalizing m with
  | nil => exact ⟨hindex, h⟩
  | cons data bytes ih =>
    obtain ⟨hnext, hscreen⟩ := bounded_mouseIrq hwidth hheight hindex h data
    exact ih hnext hscreen

/-- A stream of packets has the effect of the packets one by one. -/
theorem decoded_stream {m : Mouse} (hindex : m.packetIndex = 0) (h : m.OnScreen width height)
    (parts : List StreamPart) :
    (mouseIrqs width height m (streamBytes parts)).packetIndex = 0 ∧
      (mouseIrqs width height m (streamBytes parts)).mouseButtons.toNat =
        ((packets parts).getLast?.map Packet.buttons).getD m.mouseButtons.toNat ∧
      ((mouseIrqs width height m (streamBytes parts)).mouseX,
        (mouseIrqs width height m (streamBytes parts)).mouseY) =
          (packets parts).foldl (Packet.move width height) (m.mouseX, m.mouseY) := by
  induction parts generalizing m with
  | nil => exact ⟨hindex, rfl, rfl⟩
  | cons part parts ih =>
    have happend : mouseIrqs width height m (streamBytes (part :: parts)) =
        mouseIrqs width height (mouseIrqs width height m part.bytes) (streamBytes parts) := by
      rw [streamBytes, List.flatMap_cons, mouseIrqs, List.foldl_append]
      rfl
    rw [happend]
    cases part with
    | junk byte hjunk =>
      have hsame : mouseIrqs width height m (StreamPart.junk byte hjunk).bytes = m :=
        mouseIrq_junk hindex hjunk
      rw [hsame]
      exact ih hindex h
    | packet p =>
      obtain ⟨packet, hpacket⟩ := mouseIrqs_packet width height hindex p
      have hx := movedX_eq hwidth.1 hwidth.2 h.x.1 h.x.2 p.flags p.first
      have hy := movedY_eq hheight.1 hheight.2 h.y.1 h.y.2 p.flags p.second
      rw [hpacket, hx, hy]
      generalize hm : ({ mouseX := _, mouseY := _, mouseButtons := _, stateDirty := _, packet := _,
                         packetIndex := _ } : Mouse) = m'
      have hmoved : (m'.mouseX, m'.mouseY) = p.move width height (m.mouseX, m.mouseY) := by
        rw [← hm]
        rfl
      have hscreen : m'.OnScreen width height := by
        rw [← hm]
        exact ⟨clampTo_range hwidth.1 _, clampTo_range hheight.1 _⟩
      have hbuttons : m'.mouseButtons.toNat = p.buttons := by
        rw [← hm]
        exact toNat_pressed p.flags
      obtain ⟨hindex', hlast, hposition⟩ := ih (by rw [← hm]) hscreen
      refine ⟨hindex', ?_, ?_⟩
      · change _ = (((p :: packets parts).getLast?.map Packet.buttons).getD _)
        rw [hlast, hbuttons, List.getLast?_cons]
        cases (packets parts).getLast? with
        | none => rfl
        | some last => rfl
      · rw [hposition, hmoved]
        rfl

/-- After `mouse_init`, a stream of packets with other bytes in front of them and between them leaves
the driver in front of a packet, with the buttons of the last packet, and with the position after the
movements. After any bytes at all the position is on the screen. -/
theorem mouse_decodes :
    (∀ parts : List StreamPart,
      (mouseIrqs width height (mouseInit width height) (streamBytes parts)).packetIndex = 0 ∧
      (mouseIrqs width height (mouseInit width height) (streamBytes parts)).mouseButtons.toNat =
        ((packets parts).getLast?.map Packet.buttons).getD 0 ∧
      ((mouseIrqs width height (mouseInit width height) (streamBytes parts)).mouseX,
        (mouseIrqs width height (mouseInit width height) (streamBytes parts)).mouseY) =
          (packets parts).foldl (Packet.move width height) ((width / 2 : ℕ), (height / 2 : ℕ))) ∧
    ∀ bytes : List UInt8,
      (mouseIrqs width height (mouseInit width height) bytes).packetIndex < 3 ∧
      (mouseIrqs width height (mouseInit width height) bytes).OnScreen width height := by
  have hscreen := onScreen_mouseInit hwidth hheight
  refine ⟨fun parts ↦ ?_, fun bytes ↦ ?_⟩
  · have hdecoded := decoded_stream hwidth hheight rfl hscreen parts
    have hcentre : ((mouseInit width height).mouseX, (mouseInit width height).mouseY) =
        (((width / 2 : ℕ) : ℤ), ((height / 2 : ℕ) : ℤ)) :=
      Prod.ext (i32_of_range (by omega) (by omega)) (i32_of_range (by omega) (by omega))
    rw [hcentre] at hdecoded
    exact hdecoded
  · exact bounded_irqs hwidth hheight (Nat.zero_lt_succ 2) hscreen bytes

end Streams

/-- The left button and a movement down to the left, whose bytes could start packets too. -/
def downLeft : Packet where
  flags := 0x39
  first := 0xF8
  second := 0xFC
  sync := by decide

/-- On a screen of 640 by 480 pixels. -/
theorem mouse_decodes_down_left :
    (mouseIrqs 640 480 (mouseInit 640 480)
        (streamBytes [.junk 0x07 (by decide), .packet downLeft])).mouseButtons.toNat = 1 ∧
      ((mouseIrqs 640 480 (mouseInit 640 480)
          (streamBytes [.junk 0x07 (by decide), .packet downLeft])).mouseX,
        (mouseIrqs 640 480 (mouseInit 640 480)
          (streamBytes [.junk 0x07 (by decide), .packet downLeft])).mouseY) = (312, 244) := by
  have hsize : (1 ≤ 640 ∧ 640 ≤ 2 ^ 30) ∧ 1 ≤ 480 ∧ 480 ≤ 2 ^ 30 := by decide
  obtain ⟨hstreams, -⟩ := mouse_decodes hsize.1 hsize.2
  obtain ⟨-, hbuttons, hposition⟩ := hstreams [.junk 0x07 (by decide), .packet downLeft]
  rw [hbuttons, hposition]
  decide

end MegKer.Drivers
