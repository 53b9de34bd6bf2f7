import Mathlib.Data.Nat.Bitwise
import Mathlib.Logic.Function.Basic

/-!
# The interrupt controller of aarch64

A GICv2 with its distributor and the interface of one processor, and `arch/aarch64/drivers/gic.c`. The
state is what is in its registers, by their names, and the interrupts that the processor has acknowledged
and not ended. Interrupts are numbered lines with a level: a line that is up is pending, and stays so
until the device lowers it.

`gicEnableIrq_spec` says what the driver arranges for an interrupt: it is enabled, in group 1, and of the
highest priority. Other interrupts keep what they had. When one interrupt is enabled, it is the one that
the controller forwards (`highest_of_only`).
-/

set_option autoImplicit false
set_option relaxedAutoImplicit false

namespace MegKer.Drivers

/-! ### The controller -/

/-- The registers of the controller, and the interrupts that are active, the latest first. -/
structure Gic where
  /-- GICD_CTLR -/
  distributorCtlr : ℕ
  /-- GICD_IGROUPR(n) -/
  igroupr : ℕ → ℕ
  /-- GICD_ISENABLER(n) -/
  isenabler : ℕ → ℕ
  /-- GICD_IPRIORITYR(n) -/
  ipriorityr : ℕ → ℕ
  /-- GICC_CTLR -/
  cpuCtlr : ℕ
  /-- GICC_PMR -/
  pmr : ℕ
  active : List ℕ

/-- The numbers from here on are not interrupts. -/
abbrev specialInterrupts : ℕ := 1020

namespace Gic

variable (gic : Gic)

def group1 (id : ℕ) : Bool := (gic.igroupr (id / 32)).testBit (id % 32)

def enabled (id : ℕ) : Bool := (gic.isenabler (id / 32)).testBit (id % 32)

def priority (id : ℕ) : ℕ := gic.ipriorityr (id / 4) / 2 ^ (id % 4 * 8) % 2 ^ 8

/-- The group of an interrupt is enabled on both sides. -/
def groupEnabled (id : ℕ) : Bool :=
  let bit := if gic.group1 id then 1 else 0
  gic.distributorCtlr.testBit bit && gic.cpuCtlr.testBit bit

/-- An interrupt that the controller may tell the processor about: it is not masked, and more urgent than
what the processor is at. -/
def forwards (line : ℕ → Bool) (id : ℕ) : Bool :=
  line id && gic.enabled id && gic.groupEnabled id && decide (gic.priority id < gic.pmr) &&
    !gic.active.contains id && gic.active.all fun other ↦ decide (gic.priority id < gic.priority other)

/-- The most urgent interrupt, and the first of those. -/
def highest (line : ℕ → Bool) : Option ℕ :=
  (List.range specialInterrupts).find? fun id ↦
    gic.forwards line id && (List.range specialInterrupts).all fun other ↦
      !gic.forwards line other || decide (gic.priority id ≤ gic.priority other)

/-- The controller asks for an IRQ. An interrupt of group 0 is a fast one if the interface says so. -/
def irq (line : ℕ → Bool) : Bool :=
  match gic.highest line with
  | some id => gic.group1 id || !gic.cpuCtlr.testBit 3
  | none => false

/-- GICC_IAR is read. -/
def acknowledge (line : ℕ → Bool) : ℕ × Gic :=
  match gic.highest line with
  | some id =>
    if gic.group1 id = true ∧ gic.cpuCtlr.testBit 2 = false then (1022, gic)
    else (id, { gic with active := id :: gic.active })
  | none => (1023, gic)

/-- GICC_EOIR is written. -/
def endOfInterrupt (iar : ℕ) : Gic := { gic with active := gic.active.erase (iar % 2 ^ 10) }

end Gic

/-! ### The code -/

def gicInit (gic : Gic) : Gic :=
  let gic := { gic with distributorCtlr := 1 <<< 0 ||| 1 <<< 1 }
  let gic := { gic with cpuCtlr := 1 <<< 0 ||| 1 <<< 1 ||| 1 <<< 2 }
  { gic with pmr := 0xFF }

/-- `gic_enable_irq`. A write to GICD_ISENABLER sets bits. -/
def gicEnableIrq (gic : Gic) (irq : ℕ) : Gic :=
  let reg := irq / 32
  let bit := irq % 32
  let gic := { gic with igroupr := Function.update gic.igroupr reg (gic.igroupr reg ||| 1 <<< bit) }
  let gic := { gic with
    ipriorityr := Function.update gic.ipriorityr (irq / 4)
      (gic.ipriorityr (irq / 4) &&& (0xFFFFFFFF ^^^ 0xFF <<< (irq % 4 * 8))) }
  { gic with isenabler := Function.update gic.isenabler reg (gic.isenabler reg ||| 1 <<< bit) }

def gicCpuIack (gic : Gic) (line : ℕ → Bool) : ℕ × Gic := gic.acknowledge line

def gicCpuEoi (gic : Gic) (iar : ℕ) : Gic := gic.endOfInterrupt iar

/-! ### An interrupt is enabled -/

/-- A bit is set in a bank of registers. -/
theorem testBit_update_or (bank : ℕ → ℕ) (irq id : ℕ) :
    (Function.update bank (irq / 32) (bank (irq / 32) ||| 1 <<< (irq % 32)) (id / 32)).testBit (id % 32) =
      ((bank (id / 32)).testBit (id % 32) || decide (id = irq)) := by
  by_cases hreg : id / 32 = irq / 32
  · have hbit : (id % 32 = irq % 32) ↔ id = irq := by omega
    rw [hreg, Function.update_self, Nat.testBit_or, Nat.one_shiftLeft, Nat.testBit_two_pow]
    simp only [eq_comm (a := irq % 32), hbit]
  · have hne : id ≠ irq := fun h ↦ hreg (congrArg (· / 32) h)
    rw [Function.update_of_ne hreg, decide_eq_false hne, Bool.or_false]

/-- A byte is cleared in a register. -/
theorem byte_and_mask (value : ℕ) {i j : ℕ} (hi : i < 4) (hj : j < 4) :
    (value &&& (0xFFFFFFFF ^^^ 0xFF <<< (i * 8))) / 2 ^ (j * 8) % 2 ^ 8 =
      if j = i then 0 else value / 2 ^ (j * 8) % 2 ^ 8 := by
  have hmask : ∀ i < 4, ∀ j < 4, (0xFFFFFFFF ^^^ 0xFF <<< (i * 8)) / 2 ^ (j * 8) % 2 ^ 8 =
      if j = i then 0 else 2 ^ 8 - 1 := by decide
  rw [Nat.and_div_two_pow, Nat.and_mod_two_pow, hmask i hi j hj]
  split_ifs
  · exact Nat.and_zero _
  · rw [Nat.and_two_pow_sub_one_eq_mod, Nat.mod_mod]

/-- The interrupt is enabled, in group 1, and of the highest priority; the others are as before. -/
theorem gicEnableIrq_spec (gic : Gic) (irq id : ℕ) :
    (gicEnableIrq gic irq).enabled id = (gic.enabled id || decide (id = irq)) ∧
    (gicEnableIrq gic irq).group1 id = (gic.group1 id || decide (id = irq)) ∧
    (gicEnableIrq gic irq).priority id = if id = irq then 0 else gic.priority id := by
  refine ⟨testBit_update_or gic.isenabler irq id, testBit_update_or gic.igroupr irq id, ?_⟩
  simp only [Gic.priority, gicEnableIrq]
  by_cases hreg : id / 4 = irq / 4
  · have hbyte : (id % 4 = irq % 4) ↔ id = irq := by omega
    rw [hreg, Function.update_self, byte_and_mask _ (Nat.mod_lt _ (by decide)) (Nat.mod_lt _ (by decide))]
    simp only [hbyte]
  · have hne : id ≠ irq := fun h ↦ hreg (congrArg (· / 4) h)
    rw [Function.update_of_ne hreg, if_neg hne]

/-! ### What is forwarded -/

/-- When one interrupt is enabled, no other is forwarded. -/
theorem highest_of_only {gic : Gic} {line : ℕ → Bool} {irq : ℕ} (hirq : irq < specialInterrupts)
    (honly : ∀ id, gic.enabled id = true → id = irq) :
    gic.highest line = if gic.forwards line irq = true then some irq else none := by
  have henabled : ∀ id, gic.forwards line id = true → id = irq := by
    intro id hid
    simp only [Gic.forwards, Bool.and_eq_true] at hid
    exact honly id hid.1.1.1.1.2
  split_ifs with hforwards
  · have hexists : (gic.highest line).isSome = true := by
      rw [Gic.highest, List.find?_isSome]
      refine ⟨irq, List.mem_range.mpr hirq, ?_⟩
      rw [hforwards, Bool.true_and, List.all_eq_true]
      intro other _
      cases hother : gic.forwards line other with
      | false => rfl
      | true =>
        rw [henabled other hother]
        simp
    obtain ⟨id, hid⟩ := Option.isSome_iff_exists.mp hexists
    have hfound := List.find?_some hid
    rw [Bool.and_eq_true] at hfound
    rw [hid, henabled id hfound.1]
  · rw [Gic.highest, List.find?_eq_none]
    intro id _ hid
    rw [Bool.and_eq_true] at hid
    exact hforwards (henabled id hid.1 ▸ hid.1)

end MegKer.Drivers
