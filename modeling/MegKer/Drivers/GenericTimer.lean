import MegKer.Drivers.Gic
import MegKer.Foundation.MachineWord
import MegKer.Foundation.Transition
import Mathlib.Tactic.SplitIfs

/-!
# The timer of aarch64

`arch/aarch64/drivers/timer.c` and the dispatcher `arch/aarch64/irq.c`, with the generic timer, the
interrupt controller and the processor. The timer compares a counter with a value, and its line is up
from then on until the value is set again. The dispatcher does that (`generic_timer_ack`), ends the
interrupt (`gic_cpu_eoi`) and only then counts the tick and calls the scheduler, from which it may come
back late or never.

The system lets time pass between any two steps, also inside the dispatcher, lets other devices raise and
lower their lines, and lets threads enable and disable interrupts. `Ticking` is its invariant. Each time
that the timer expires there is one tick, and never more (`timer_ticks`); the ticks do not run ahead of
the time; and an expiry that is not dealt with interrupts the processor as soon as interrupts are enabled,
however many calls of the dispatcher have not returned.
-/

set_option autoImplicit false
set_option relaxedAutoImplicit false

namespace MegKer.Drivers

open Foundation

/-! ### The system -/

abbrev genericTimerIrq : ℕ := 30

/-- The next thing that `aarch64_irq_handler` does, when the processor is in it. -/
inductive IrqPoint
  | outside
  /-- `gic_cpu_iack` -/
  | iack
  /-- `generic_timer_ack`, if it is the timer. -/
  | ack (iar : ℕ)
  /-- `gic_cpu_eoi` -/
  | eoi (iar : ℕ)
  /-- `generic_timer_tick`, if it is the timer. -/
  | tick (iar : ℕ)
  deriving DecidableEq, Repr

/-- The state of the system. The counter of the processor has 64 bits and outlasts it. -/
structure TimerSystem where
  gic : Gic
  /-- The lines of the other devices. -/
  others : ℕ → Bool
  /-- CNTPCT_EL0, the counter. -/
  now : ℕ
  /-- CNTP_CVAL_EL0, what the counter is compared with. -/
  cval : ℤ
  /-- CNTP_CTL_EL0 -/
  ctl : ℕ
  /-- `reload_ticks` -/
  reloadTicks : ℕ
  /-- `ticks` -/
  ticks : ℕ
  /-- The processor takes IRQs. -/
  interrupts : Bool
  point : IrqPoint
  /-- How often the timer has expired so far. -/
  expiries : ℕ
  /-- What `gic_cpu_iack` has returned so far. -/
  iars : List ℕ

/-- The timer has expired. -/
def TimerSystem.condition (s : TimerSystem) : Bool := s.ctl.testBit 0 && decide (s.cval ≤ s.now)

/-- The lines to the interrupt controller. -/
def TimerSystem.line (s : TimerSystem) (id : ℕ) : Bool :=
  if id = genericTimerIrq then s.condition && !s.ctl.testBit 1 else s.others id

/-- An expiry is counted, when a change brings it about. -/
def TimerSystem.changed (s s' : TimerSystem) : TimerSystem :=
  { s' with expiries := s.expiries + if s.condition = false ∧ s'.condition = true then 1 else 0 }

/-- The value of CNTP_TVAL_EL0, which is signed and has 32 bits. -/
def tval (value : ℕ) : ℤ := if wrap32 value < 2 ^ 31 then wrap32 value else wrap32 value - 2 ^ 32

/-- `write_cntp_tval`. The value counts from now. -/
def TimerSystem.writeCntpTval (s : TimerSystem) (value : ℕ) : TimerSystem :=
  s.changed { s with cval := s.now + tval value }

def TimerSystem.writeCntpCtl (s : TimerSystem) (value : ℕ) : TimerSystem :=
  s.changed { s with ctl := value }

/-- `generic_timer_init`, with the frequency of the counter. -/
def genericTimerInit (cntfrq hz : ℕ) (s : TimerSystem) : TimerSystem :=
  let s := { s with reloadTicks := wrap32 (cntfrq / hz) }
  let s := s.writeCntpTval s.reloadTicks
  let s := s.writeCntpCtl 1
  { s with gic := gicEnableIrq s.gic genericTimerIrq }

def genericTimerAck (s : TimerSystem) : TimerSystem := s.writeCntpTval s.reloadTicks

/-- What `aarch64_irq_handler` does next. The call of `sched_tick` may go on elsewhere. -/
def aarch64IrqHandler (s : TimerSystem) : Option TimerSystem :=
  match s.point with
  | .outside => none
  | .iack =>
    let (iar, gic) := gicCpuIack s.gic s.line
    some { s with gic := gic, point := .ack iar, iars := s.iars ++ [iar] }
  | .ack iar =>
    let s := if iar &&& 0x3FF = genericTimerIrq then genericTimerAck s else s
    some { s with point := .eoi iar }
  | .eoi iar => some { s with gic := gicCpuEoi s.gic iar, point := .tick iar }
  | .tick iar =>
    let s := if iar &&& 0x3FF = genericTimerIrq then { s with ticks := s.ticks + 1 } else s
    some { s with point := .outside }

inductive TimerAction
  /-- Time passes. -/
  | time (counts : ℕ)
  /-- Another device raises or lowers its line. -/
  | device (id : ℕ) (level : Bool)
  /-- The processor enables or disables interrupts, in a thread or in a return to one. -/
  | setInterrupts (enabled : Bool)
  /-- The processor takes an interrupt. -/
  | take
  /-- The dispatcher takes a step. -/
  | handle
  deriving DecidableEq, Repr

def TimerSystem.step (s : TimerSystem) : TimerAction → Option TimerSystem
  | .time counts => some (s.changed { s with now := s.now + counts })
  | .device id level => some { s with others := Function.update s.others id level }
  | .setInterrupts enabled =>
    if s.point = .outside then some { s with interrupts := enabled } else none
  | .take =>
    if s.interrupts = true ∧ s.point = .outside ∧ s.gic.irq s.line = true then
      some { s with interrupts := false, point := .iack }
    else none
  | .handle => aarch64IrqHandler s

/-- The controller, the counter and the lines when the kernel starts. -/
structure Reset where
  gic : Gic
  others : ℕ → Bool
  now : ℕ
  cval : ℤ
  /-- No interrupt is enabled or active. -/
  disabled : ∀ id, gic.enabled id = false
  idle : gic.active = []

/-- The system after `arch_interrupts_init`, `arch_interrupts_enable` and `generic_timer_init`. -/
def TimerSystem.start (reset : Reset) (cntfrq hz : ℕ) : TimerSystem :=
  genericTimerInit cntfrq hz
    { gic := gicInit reset.gic, others := reset.others, now := reset.now, cval := reset.cval, ctl := 0
      reloadTicks := 0, ticks := 0, interrupts := true, point := .outside, expiries := 0, iars := [] }

/-! ### The invariant -/

/-- The dispatcher has set the timer again and not counted the tick. -/
def IrqPoint.reloaded : IrqPoint → Bool
  | .eoi _ => true
  | .tick _ => true
  | _ => false

/-- What the controller has active at a point of the dispatcher. -/
def IrqPoint.active : IrqPoint → List ℕ
  | .ack _ => [genericTimerIrq]
  | .eoi _ => [genericTimerIrq]
  | _ => []

/-- The dispatcher deals with the timer, which is not set again yet. -/
def IrqPoint.Dispatches (point : IrqPoint) (condition interrupts : Bool) : Prop :=
  match point with
  | .outside => True
  | .iack => condition = true ∧ interrupts = false
  | .ack iar => iar = genericTimerIrq ∧ condition = true ∧ interrupts = false
  | .eoi iar => iar = genericTimerIrq ∧ interrupts = false
  | .tick iar => iar = genericTimerIrq ∧ interrupts = false

/-- The expiries that were dealt with, up to the tick at least. -/
def TimerSystem.acked (s : TimerSystem) : ℕ := s.ticks + if s.point.reloaded then 1 else 0

/-- What the driver sets up once. -/
structure Configured (gic : Gic) : Prop where
  distributorCtlr : gic.distributorCtlr = 3
  cpuCtlr : gic.cpuCtlr = 7
  pmr : gic.pmr = 0xFF
  enabled : ∀ id, gic.enabled id = true ↔ id = genericTimerIrq
  group1 : gic.group1 genericTimerIrq = true
  priority : gic.priority genericTimerIrq = 0

/-- The invariant, for the counter at the start and the counts between two expiries. -/
structure Ticking (first reload : ℕ) (s : TimerSystem) : Prop where
  configured : Configured s.gic
  active : s.gic.active = s.point.active
  ctl : s.ctl = 1
  reloadTicks : s.reloadTicks = reload
  dispatches : s.point.Dispatches s.condition s.interrupts
  count : s.expiries = s.acked + if s.condition then 1 else 0
  early : (first : ℤ) + reload * (s.acked + 1) ≤ s.cval
  late : s.cval ≤ s.now + reload
  iars : ∀ iar ∈ s.iars, iar = genericTimerIrq

/-! ### The controller, as it is set up -/

section Controller

variable {gic : Gic}

theorem configured_start (reset : Reset) :
    Configured (gicEnableIrq (gicInit reset.gic) genericTimerIrq) := by
  have hspec := gicEnableIrq_spec (gicInit reset.gic) genericTimerIrq
  refine ⟨rfl, rfl, rfl, fun id ↦ ?_, ?_, ?_⟩
  · rw [(hspec id).1, show (gicInit reset.gic).enabled id = false from reset.disabled id]
    simp
  · rw [(hspec genericTimerIrq).2.1]
    simp
  · rw [(hspec genericTimerIrq).2.2, if_pos rfl]

/-- When nothing is active, the controller forwards the timer as long as its line is up. -/
theorem Configured.highest (h : Configured gic) (hactive : gic.active = []) (line : ℕ → Bool) :
    gic.highest line = if line genericTimerIrq = true then some genericTimerIrq else none := by
  have henabled : gic.enabled genericTimerIrq = true := (h.enabled genericTimerIrq).mpr rfl
  have hgroup : gic.groupEnabled genericTimerIrq = true := by
    rw [Gic.groupEnabled, h.group1, h.distributorCtlr, h.cpuCtlr]
    rfl
  have hforwards : gic.forwards line genericTimerIrq = line genericTimerIrq := by
    rw [Gic.forwards, henabled, hgroup, h.priority, h.pmr, hactive]
    simp
  rw [highest_of_only (by decide) (fun id hid ↦ (h.enabled id).mp hid), hforwards]

theorem Configured.irq (h : Configured gic) (hactive : gic.active = []) (line : ℕ → Bool) :
    gic.irq line = line genericTimerIrq := by
  unfold Gic.irq
  rw [h.highest hactive]
  by_cases hline : line genericTimerIrq = true
  · rw [if_pos hline, hline]
    dsimp only
    rw [h.group1, Bool.true_or]
  · rw [if_neg hline, Bool.eq_false_iff.mpr hline]

theorem Configured.acknowledge (h : Configured gic) (hactive : gic.active = []) {line : ℕ → Bool}
    (hline : line genericTimerIrq = true) :
    gic.acknowledge line = (genericTimerIrq, { gic with active := [genericTimerIrq] }) := by
  have hackCtl : gic.cpuCtlr.testBit 2 = true := by
    rw [h.cpuCtlr]
    rfl
  unfold Gic.acknowledge
  rw [h.highest hactive, if_pos hline]
  dsimp only
  rw [hackCtl, if_neg fun hproxy ↦ Bool.noConfusion hproxy.2, hactive]

/-- The active interrupts are no part of what is set up. -/
theorem Configured.setActive (h : Configured gic) (active : List ℕ) :
    Configured { gic with active := active } :=
  ⟨h.distributorCtlr, h.cpuCtlr, h.pmr, h.enabled, h.group1, h.priority⟩

end Controller

/-! ### The steps -/

section Steps

variable {first reload : ℕ} {s s' : TimerSystem}

theorem Ticking.condition_eq (h : Ticking first reload s) : s.condition = decide (s.cval ≤ s.now) := by
  rw [TimerSystem.condition, h.ctl]
  rfl

theorem Ticking.line_eq (h : Ticking first reload s) : s.line genericTimerIrq = s.condition := by
  rw [TimerSystem.line, if_pos rfl, h.ctl]
  exact Bool.and_true _

/-- Time passes. The timer may expire, if it has not yet. -/
theorem Ticking.time (h : Ticking first reload s) (counts : ℕ) :
    Ticking first reload (s.changed { s with now := s.now + counts }) := by
  have hbefore := h.condition_eq
  have hafter : (s.changed { s with now := s.now + counts }).condition =
      decide (s.cval ≤ s.now + counts) := by
    simp [TimerSystem.condition, TimerSystem.changed, h.ctl]
  have hmono : s.condition = true → (s.changed { s with now := s.now + counts }).condition = true := by
    rw [hbefore, hafter, decide_eq_true_iff, decide_eq_true_iff]
    omega
  have hlate : s.cval ≤ s.now + reload := h.late
  refine ⟨h.configured, h.active, h.ctl, h.reloadTicks, ?_, ?_, h.early, ?_, h.iars⟩
  · have hdispatches := h.dispatches
    change s.point.Dispatches (s.changed { s with now := s.now + counts }).condition s.interrupts
    revert hdispatches
    cases s.point with
    | outside => exact id
    | iack => exact And.imp_left hmono
    | ack iar => exact And.imp_right (And.imp_left hmono)
    | eoi iar => exact id
    | tick iar => exact id
  · have hcount := h.count
    change s.expiries + (if s.condition = false ∧
      (s.changed { s with now := s.now + counts }).condition = true then 1 else 0) =
      s.acked + if (s.changed { s with now := s.now + counts }).condition then 1 else 0
    cases hold : s.condition with
    | true =>
      rw [hmono hold, hcount, hold]
      rfl
    | false =>
      rw [hcount, hold]
      simp
  · change s.cval ≤ ((s.now + counts : ℕ) : ℤ) + reload
    omega

theorem tval_of_lt {value : ℕ} (hvalue : value < 2 ^ 31) : tval value = value := by
  rw [tval, wrap32_of_lt (by omega), if_pos hvalue]

/-- The timer is set again, at the counts that the driver has computed. -/
theorem Ticking.ack (h : Ticking first reload s) (hpoint : s.point = .ack genericTimerIrq)
    (hpositive : 0 < reload) (hreload : reload < 2 ^ 31) :
    Ticking first reload { genericTimerAck s with point := .eoi genericTimerIrq } := by
  have hdispatches := h.dispatches
  rw [hpoint] at hdispatches
  obtain ⟨-, hexpired, hinterrupts⟩ := hdispatches
  have hnow : s.cval ≤ s.now := by
    rw [h.condition_eq] at hexpired
    exact of_decide_eq_true hexpired
  have hvalue : tval s.reloadTicks = reload := by
    rw [h.reloadTicks, tval_of_lt hreload]
  have hcondition : (genericTimerAck s).condition = false := by
    simp only [genericTimerAck, TimerSystem.writeCntpTval, TimerSystem.changed, TimerSystem.condition,
      hvalue, h.ctl]
    rw [decide_eq_false (by omega)]
    rfl
  have hacked : s.acked = s.ticks := by
    rw [TimerSystem.acked, hpoint]
    rfl
  have hcount := h.count
  have hearly := h.early
  rw [hacked, hexpired] at hcount
  rw [hacked] at hearly
  refine ⟨h.configured, ?_, h.ctl, h.reloadTicks, ⟨rfl, hinterrupts⟩, ?_, ?_, ?_, h.iars⟩
  · exact h.active.trans (by rw [hpoint]; rfl)
  · change (genericTimerAck s).expiries = s.ticks + 1 + if (genericTimerAck s).condition then 1 else 0
    rw [hcondition]
    have hsame : (genericTimerAck s).expiries = s.expiries := by
      change s.expiries + (if s.condition = false ∧ _ then 1 else 0) = s.expiries
      rw [hexpired, if_neg (by simp), Nat.add_zero]
    rw [hsame, hcount]
    rfl
  · change (first : ℤ) + reload * (((s.ticks + 1 : ℕ) : ℤ) + 1) ≤ s.now + tval s.reloadTicks
    rw [hvalue]
    have hnext : (reload : ℤ) * (((s.ticks + 1 : ℕ) : ℤ) + 1) = reload * (s.ticks + 1) + reload := by
      push_cast
      ring
    rw [hnext]
    omega
  · change (s.now : ℤ) + tval s.reloadTicks ≤ s.now + reload
    rw [hvalue]

/-- A step of the dispatcher. -/
theorem Ticking.handle (h : Ticking first reload s) (hpositive : 0 < reload) (hreload : reload < 2 ^ 31)
    (hstep : aarch64IrqHandler s = some s') : Ticking first reload s' := by
  have hdispatches := h.dispatches
  have hactive := h.active
  have hcount := h.count
  have hearly := h.early
  have hmask : genericTimerIrq &&& 0x3FF = genericTimerIrq := by decide
  unfold aarch64IrqHandler at hstep
  unfold TimerSystem.acked at hcount hearly
  cases hpoint : s.point with
  | outside =>
    rw [hpoint] at hstep
    cases hstep
  | iack =>
    rw [hpoint] at hstep hdispatches hactive hcount hearly
    have hline : s.line genericTimerIrq = true := h.line_eq.trans hdispatches.1
    simp only [gicCpuIack, h.configured.acknowledge hactive hline, Option.some.injEq] at hstep
    subst hstep
    refine ⟨h.configured.setActive _, rfl, h.ctl, h.reloadTicks, ⟨rfl, hdispatches⟩, hcount, hearly,
      h.late, ?_⟩
    intro iar hiar
    rcases List.mem_append.mp hiar with hold | hnew
    · exact h.iars iar hold
    · exact List.mem_singleton.mp hnew
  | ack iar =>
    rw [hpoint] at hstep hdispatches
    obtain ⟨rfl, -⟩ := hdispatches
    simp only [hmask, if_true, Option.some.injEq] at hstep
    subst hstep
    exact h.ack hpoint hpositive hreload
  | eoi iar =>
    rw [hpoint] at hstep hdispatches hactive hcount hearly
    obtain ⟨rfl, hinterrupts⟩ := hdispatches
    simp only [Option.some.injEq] at hstep
    subst hstep
    refine ⟨h.configured.setActive _, ?_, h.ctl, h.reloadTicks, ⟨rfl, hinterrupts⟩, hcount, hearly, h.late,
      h.iars⟩
    change s.gic.active.erase (genericTimerIrq % 2 ^ 10) = []
    rw [hactive]
    decide
  | tick iar =>
    rw [hpoint] at hstep hdispatches hactive hcount hearly
    obtain ⟨rfl, -⟩ := hdispatches
    simp only [hmask, if_true, Option.some.injEq] at hstep
    subst hstep
    exact ⟨h.configured, hactive, h.ctl, h.reloadTicks, trivial, hcount, hearly, h.late, h.iars⟩

/-- What one step keeps. -/
theorem ticking_step {action : TimerAction} (h : Ticking first reload s) (hpositive : 0 < reload)
    (hreload : reload < 2 ^ 31) (hstep : s.step action = some s') : Ticking first reload s' := by
  cases action with
  | time counts =>
    obtain rfl := Option.some.inj hstep
    exact h.time counts
  | device id level =>
    obtain rfl := Option.some.inj hstep
    exact ⟨h.configured, h.active, h.ctl, h.reloadTicks, h.dispatches, h.count, h.early, h.late, h.iars⟩
  | setInterrupts enabled =>
    simp only [TimerSystem.step, Option.ite_none_right_eq_some, Option.some.injEq] at hstep
    obtain ⟨hpoint, rfl⟩ := hstep
    refine ⟨h.configured, h.active, h.ctl, h.reloadTicks, ?_, h.count, h.early, h.late, h.iars⟩
    change s.point.Dispatches s.condition enabled
    rw [hpoint]
    trivial
  | take =>
    simp only [TimerSystem.step, Option.ite_none_right_eq_some, Option.some.injEq] at hstep
    obtain ⟨⟨-, hpoint, hirq⟩, rfl⟩ := hstep
    have hactive := h.active
    have hcount := h.count
    have hearly := h.early
    rw [hpoint] at hactive
    rw [TimerSystem.acked, hpoint] at hcount hearly
    have hcondition : s.condition = true := by
      rw [← h.line_eq, ← h.configured.irq hactive s.line]
      exact hirq
    exact ⟨h.configured, hactive, h.ctl, h.reloadTicks, ⟨hcondition, rfl⟩, hcount, hearly, h.late, h.iars⟩
  | handle => exact h.handle hpositive hreload hstep

end Steps

/-! ### All runs -/

theorem ticking_start (reset : Reset) {cntfrq hz reload : ℕ} (hperiod : cntfrq / hz = reload)
    (hpositive : 0 < reload) (hreload : reload < 2 ^ 31) :
    Ticking reset.now reload (TimerSystem.start reset cntfrq hz) := by
  have hwrap : wrap32 (cntfrq / hz) = reload := by
    rw [hperiod, wrap32_of_lt (by omega)]
  have hvalue : tval (wrap32 (cntfrq / hz)) = reload := by
    rw [hwrap, tval_of_lt hreload]
  have hfuture : ¬ (reset.now : ℤ) + reload ≤ reset.now := by omega
  have hcondition : (TimerSystem.start reset cntfrq hz).condition = false := by
    simp only [TimerSystem.start, genericTimerInit, TimerSystem.writeCntpTval, TimerSystem.writeCntpCtl,
      TimerSystem.changed, TimerSystem.condition, hvalue]
    rw [decide_eq_false hfuture, Bool.and_false]
  have hexpiries : (TimerSystem.start reset cntfrq hz).expiries = 0 := by
    simp only [TimerSystem.start, genericTimerInit, TimerSystem.writeCntpTval, TimerSystem.writeCntpCtl,
      TimerSystem.changed, TimerSystem.condition, hvalue]
    simp [hpositive.ne']
  have hcval : (TimerSystem.start reset cntfrq hz).cval = reset.now + reload := by
    rw [← hvalue]
    rfl
  refine ⟨configured_start reset, reset.idle, rfl, hwrap, trivial, ?_, ?_, ?_, List.forall_mem_nil _⟩
  · rw [hexpiries, hcondition]
    rfl
  · rw [hcval]
    change (reset.now : ℤ) + reload * (((0 : ℕ) : ℤ) + 1) ≤ _
    rw [Nat.cast_zero, zero_add, mul_one]
  · rw [hcval]
    exact le_rfl

/-- In every state that the system reaches: each expiry of the timer has been counted as one tick, or is
about to be, or still waits; as many ticks take as many periods, at least; the dispatcher has seen the
timer only; and an expiry that waits interrupts the processor as soon as interrupts are enabled and the
dispatcher is left. -/
theorem timer_ticks (reset : Reset) (cntfrq hz : ℕ) (hpositive : 0 < cntfrq / hz)
    (hreload : cntfrq / hz < 2 ^ 31) (actions : List TimerAction) (s : TimerSystem)
    (hrun : runFrom TimerSystem.step (TimerSystem.start reset cntfrq hz) actions = some s) :
    s.expiries = s.ticks + (if s.point.reloaded then 1 else 0) + (if s.condition then 1 else 0) ∧
    reset.now + cntfrq / hz * s.ticks ≤ s.now ∧
    (∀ iar ∈ s.iars, iar = genericTimerIrq) ∧
    (s.condition = true → s.interrupts = true → s.point = .outside → (s.step .take).isSome) := by
  have h : Ticking reset.now (cntfrq / hz) s :=
    invariant_runFrom (fun h _ hstep ↦ ticking_step h hpositive hreload hstep)
      (ticking_start reset rfl hpositive hreload) (alongRun_true _ _) hrun
  refine ⟨h.count, ?_, h.iars, fun hcondition hinterrupts hpoint ↦ ?_⟩
  · have hearly := h.early
    have hlate := h.late
    have hticks : s.ticks ≤ s.acked := Nat.le_add_right _ _
    have hmul : cntfrq / hz * s.ticks ≤ cntfrq / hz * s.acked := Nat.mul_le_mul_left _ hticks
    rw [mul_add, mul_one] at hearly
    have hbound : ((reset.now + cntfrq / hz * s.acked : ℕ) : ℤ) ≤ s.now := by
      push_cast at hearly ⊢
      omega
    omega
  · have hactive := h.active
    rw [hpoint] at hactive
    have hirq : s.gic.irq s.line = true := by
      rw [h.configured.irq hactive, h.line_eq, hcondition]
    rw [TimerSystem.step, if_pos ⟨hinterrupts, hpoint, hirq⟩]
    rfl

/-- The timer expires once more while the dispatcher, which has set it again, has not counted its tick. -/
def lateTick : List TimerAction :=
  [.time 625000, .device 33 true, .take, .handle, .time 100, .handle, .handle, .time 700000]

/-- A controller with nothing in its registers. -/
def emptyReset : Reset where
  gic := ⟨0, fun _ ↦ 0, fun _ ↦ 0, fun _ ↦ 0, 0, 0, []⟩
  others := fun _ ↦ false
  now := 1000
  cval := 0
  disabled := fun _ ↦ Nat.zero_testBit _
  idle := rfl

theorem timer_ticks_late : ∃ s,
    runFrom TimerSystem.step (TimerSystem.start emptyReset 62500000 100) lateTick = some s ∧
    s.expiries = 2 ∧ s.ticks = 0 ∧ s.expiries = s.ticks + 1 + 1 ∧ s.iars = [30] := by
  have hrun : ∃ s ∈ runFrom TimerSystem.step (TimerSystem.start emptyReset 62500000 100) lateTick,
      s.expiries = 2 ∧ s.ticks = 0 ∧ s.point.reloaded = true ∧ s.condition = true ∧ s.iars = [30] := by
    decide +kernel
  obtain ⟨s, hs, hexpiries, hticks, hreloaded, hcondition, hiars⟩ := hrun
  have hcount := (timer_ticks emptyReset 62500000 100 (by decide) (by decide) lateTick s hs).1
  rw [hreloaded, hcondition] at hcount
  exact ⟨s, hs, hexpiries, hticks, hcount, hiars⟩

end MegKer.Drivers
