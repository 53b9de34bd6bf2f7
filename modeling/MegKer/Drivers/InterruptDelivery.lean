import MegKer.Drivers.Pic
import MegKer.Foundation.Transition

/-!
# Interrupts from the devices to their handlers

`isr_handler` of `idt.c` between the interrupt controllers and the handlers of the drivers. It tells the
controllers that an interrupt has ended before it calls the handler, since a handler may switch to another
thread and come back late or never.

The system is all that runs on the PC as far as interrupts see it: devices request interrupts at any time,
the processor takes one when interrupts are enabled, `isr_handler` ends it and calls the handler, and
handlers and threads enable and disable interrupts and install handlers as they like. How many handlers
have not returned yet does not matter, and the model does not keep it.

`Delivering` is the invariant. Every request is handled exactly once, apart from those that come while the
line is waiting already, which an edge-triggered line cannot tell; only lines with a handler are taken, in
the order of the chips;
and outside of the first instructions of `isr_handler` nothing is in service, so a handler that never
returns holds up no line (`interrupts_delivered`).
-/

set_option autoImplicit false
set_option relaxedAutoImplicit false

namespace MegKer.Drivers

open Foundation

/-! ### The code -/

def exceptionNames : List String :=
  ["Divide-by-zero", "Debug", "NMI", "Breakpoint",
   "Overflow", "Bound Range Exceeded", "Invalid Opcode", "Device Not Available",
   "Double Fault", "Coprocessor Segment Overrun", "Invalid TSS", "Segment Not Present",
   "Stack-Segment Fault", "General Protection Fault", "Page Fault", "Reserved",
   "x87 Floating-Point Exception", "Alignment Check", "Machine Check", "SIMD Floating-Point Exception",
   "Virtualization Exception", "Control Protection Exception", "Reserved", "Reserved",
   "Reserved", "Reserved", "Reserved", "Reserved",
   "Hypervisor Injection Exception", "VMM Communication Exception", "Security Exception", "Reserved"]

/-- What `isr_handler` calls. -/
inductive IsrCall
  | syscallDispatch
  | kernelPanic (message : String)
  | handler (irq handler : ℕ)
  | nothing (irq : ℕ)
  deriving DecidableEq, Repr

/-- `isr_handler`, up to the call of a handler. -/
def isrHandler (handlers : ℕ → Option ℕ) (pics : Pics) (intNo : ℕ) : Pics × IsrCall :=
  if intNo = 0x80 then (pics, .syscallDispatch)
  else if intNo < 32 then (pics, .kernelPanic (exceptionNames.getD intNo ""))
  else
    let irq := intNo - irqBase
    let pics := isrEndOfInterrupt pics irq
    match handlers irq with
    | some handler => (pics, .handler irq handler)
    | none => (pics, .nothing irq)

/-- `irq_install_handler` on the table of handlers. -/
def installHandler (handlers : ℕ → Option ℕ) (irq handler : ℕ) : ℕ → Option ℕ :=
  Function.update handlers irq (some handler)

/-- `irq_install_handler` on the controllers. -/
def unmaskIrq (pics : Pics) (irq : ℕ) : Pics :=
  let pics := irqSetMask pics irq false
  if 8 ≤ irq then irqSetMask pics 2 false else pics

/-! ### The system -/

/-- The state of the system. An interrupt that is taken and not yet ended has its vector in `taken`. -/
structure IrqSystem where
  pics : Pics
  handlers : ℕ → Option ℕ
  interrupts : Bool
  taken : Option ℕ
  /-- The calls of `isr_handler` that have come to their end. -/
  calls : List IsrCall
  /-- The requests that found their line not waiting. -/
  accepted : List ℕ

/-- What can happen. -/
inductive IrqAction
  /-- A device requests an interrupt. -/
  | request (line : ℕ)
  /-- The processor takes an interrupt; its gate disables interrupts. -/
  | take
  /-- `isr_handler` runs up to the call of the handler. -/
  | dispatch
  /-- `sti`, `cli`, `iretq` or a switch to another thread. -/
  | setInterrupts (enabled : Bool)
  /-- A driver installs a handler. -/
  | install (irq handler : ℕ)

/-- The lines of devices. -/
def IsDeviceLine (line : ℕ) : Prop := line < 16 ∧ line ≠ 2

instance (line : ℕ) : Decidable (IsDeviceLine line) := inferInstanceAs (Decidable (_ ∧ _))

namespace IrqSystem

/-- A step. In `isr_handler` interrupts are disabled up to the call of the handler, so nothing but a
request comes in between. -/
def step (s : IrqSystem) : IrqAction → Option IrqSystem
  | .request line =>
    if IsDeviceLine line then
      some
        { s with
          pics := s.pics.request line
          accepted := if s.pics.requested line then s.accepted else line :: s.accepted }
    else none
  | .take =>
    if s.interrupts = true ∧ s.taken = none then
      s.pics.acknowledge.map fun ack ↦
        { s with pics := ack.2, interrupts := false, taken := some ack.1 }
    else none
  | .dispatch =>
    s.taken.map fun vector ↦
      let done := isrHandler s.handlers s.pics vector
      { s with pics := done.1, taken := none, calls := done.2 :: s.calls }
  | .setInterrupts enabled => if s.taken = none then some { s with interrupts := enabled } else none
  | .install irq handler =>
    if s.taken = none ∧ IsDeviceLine irq then
      some
        { s with
          pics := unmaskIrq s.pics irq, handlers := installHandler s.handlers irq handler }
    else none

/-- The system behind `idt_init`, which kernel code calls with interrupts disabled. -/
def start (pics : Pics) : IrqSystem where
  pics := idtInitPorts pics
  handlers := fun _ ↦ none
  interrupts := false
  taken := none
  calls := []
  accepted := []

/-- How often the handler of a line has been called. -/
def handled (s : IrqSystem) (line : ℕ) : ℕ :=
  s.calls.countP fun call ↦ match call with
    | .handler irq _ => irq == line
    | _ => false

/-- A line waits: it is requested, or taken and not yet ended. -/
def waiting (s : IrqSystem) (line : ℕ) : ℕ :=
  (if s.pics.requested line then 1 else 0) + if s.taken = some (irqBase + line) then 1 else 0

/-- A device line that has a handler is requested. -/
structure Ready (s : IrqSystem) (line : ℕ) : Prop where
  device : IsDeviceLine line
  installed : s.handlers line ≠ none
  requested : s.pics.requested line = true

end IrqSystem

/-! ### The invariant -/

/-- The chips between two interrupts, and between an interrupt and its end. -/
def ChipsFor (pics : Pics) (handlers : ℕ → Option ℕ) : Option ℕ → Prop
  | none => pics.Programmed ∧ pics.Quiet
  | some vector => ∃ line, IsDeviceLine line ∧ vector = irqBase + line ∧ pics.Serving line ∧
      handlers line ≠ none

structure Delivering (s : IrqSystem) : Prop where
  chips : ChipsFor s.pics s.handlers s.taken
  masks : ∀ line, IsDeviceLine line → (s.pics.masked line = false ↔ s.handlers line ≠ none)
  cascade : ∀ line, IsDeviceLine line → 8 ≤ line → s.handlers line ≠ none → s.pics.masked 2 = false
  calls : ∀ call ∈ s.calls, ∃ irq handler, call = .handler irq handler ∧ IsDeviceLine irq
  count : ∀ line, IsDeviceLine line → s.accepted.count line = s.handled line + s.waiting line

/-! ### The steps -/

section Steps

variable {s s' : IrqSystem}

theorem delivering_start (pics : Pics) : Delivering (IrqSystem.start pics) := by
  have hmasked : ∀ line, IsDeviceLine line → (idtInitPorts pics).masked line = true := by
    rw [idtInitPorts_spec]
    intro line hline
    have hall : ∀ line < 16, Pics.masked
        ⟨⟨0, 0xFF, 0, irqBase, 4, true, .ready⟩, ⟨0, 0xFF, 0, irqBase + 8, 2, true, .ready⟩⟩ line =
          true := by decide
    exact hall line hline.1
  have hrequested : ∀ line, (idtInitPorts pics).requested line = false := by
    rw [idtInitPorts_spec]
    intro line
    unfold Pics.requested
    by_cases hlow : line < 8
    · rw [if_pos hlow]
      simp
    · rw [if_neg hlow]
      simp
  refine ⟨?_, fun line hline ↦ ?_, fun line _ _ h ↦ absurd rfl h, fun call hcall ↦ ?_,
    fun line _ ↦ ?_⟩
  · change (idtInitPorts pics).Programmed ∧ (idtInitPorts pics).Quiet
    rw [idtInitPorts_spec]
    exact ⟨⟨rfl, rfl, rfl, rfl⟩, ⟨rfl, rfl⟩⟩
  · refine iff_of_false ?_ (fun h ↦ h rfl)
    change ¬ (idtInitPorts pics).masked line = false
    rw [hmasked line hline]
    decide
  · cases hcall
  · have hwaiting : (IrqSystem.start pics).waiting line = 0 := by
      change (if (idtInitPorts pics).requested line = true then 1 else 0) + 0 = 0
      rw [hrequested line]
      rfl
    rw [hwaiting]
    rfl

theorem delivering_request (h : Delivering s) {line : ℕ}
    (hstep : s.step (.request line) = some s') : Delivering s' := by
  simp only [IrqSystem.step, Option.ite_none_right_eq_some, Option.some.injEq] at hstep
  obtain ⟨hline, rfl⟩ := hstep
  obtain ⟨hmaster, hslave, hprogrammed⟩ := @Pics.request_chips s.pics line
  refine ⟨?_, fun other hother ↦ ?_, fun other hother hle hhandler ↦ ?_, h.calls, fun other hother ↦ ?_⟩
  · have hchips := h.chips
    change ChipsFor (s.pics.request line) s.handlers s.taken
    cases htaken : s.taken with
    | none =>
      rw [htaken] at hchips
      exact ⟨hprogrammed hchips.1, hmaster.trans hchips.2.master, hslave.trans hchips.2.slave⟩
    | some vector =>
      rw [htaken] at hchips
      obtain ⟨served, hserved, hvector, hserving, hhandler⟩ := hchips
      exact ⟨served, hserved, hvector, ⟨hprogrammed hserving.programmed,
        hmaster.trans hserving.master, hslave.trans hserving.slave⟩, hhandler⟩
  · rw [← h.masks other hother]
    exact iff_of_eq (congrArg (· = false) (Pics.masked_request line other))
  · rw [← h.cascade other hother hle hhandler]
    exact Pics.masked_request line 2
  · have hcount := h.count other hother
    have hrequested := @Pics.requested_request s.pics line other hline.1 hother.1
    unfold IrqSystem.waiting at hcount ⊢
    change List.count other (if s.pics.requested line = true then s.accepted else line :: s.accepted) =
      s.handled other + ((if (s.pics.request line).requested other = true then 1 else 0) +
        if s.taken = some (irqBase + other) then 1 else 0)
    rw [hrequested]
    by_cases heq : other = line
    · subst heq
      rw [decide_eq_true rfl, Bool.true_or, if_pos rfl]
      by_cases halready : s.pics.requested other = true
      · rw [if_pos halready, hcount, if_pos halready]
      · rw [if_neg halready, List.count_cons_self, hcount, if_neg halready]
        omega
    · rw [decide_eq_false heq, Bool.false_or, ← hcount]
      by_cases halready : s.pics.requested line = true
      · rw [if_pos halready]
      · rw [if_neg halready, List.count_cons_of_ne (Ne.symm heq)]

theorem delivering_take (h : Delivering s) (hstep : s.step .take = some s') : Delivering s' := by
  simp only [IrqSystem.step, Option.ite_none_right_eq_some, Option.map_eq_some_iff] at hstep
  obtain ⟨hready, ⟨vector, pics⟩, hack, rfl⟩ := hstep
  have hchips := h.chips
  rw [hready.2] at hchips
  obtain ⟨hprogrammed, hquiet⟩ := hchips
  obtain ⟨line, hlt, htwo, rfl, hrequested, hmasked, rfl⟩ :=
    Pics.acknowledge_eq_some hprogrammed hquiet hack
  have hline : IsDeviceLine line := ⟨hlt, htwo⟩
  refine ⟨⟨line, hline, rfl, Pics.serving_served hprogrammed hquiet line,
    (h.masks line hline).mp hmasked⟩, fun other hother ↦ ?_, fun other hother hle hhandler ↦ ?_,
    h.calls, fun other hother ↦ ?_⟩
  · rw [← h.masks other hother]
    exact iff_of_eq (congrArg (· = false) (Pics.masked_served line other))
  · rw [← h.cascade other hother hle hhandler]
    exact Pics.masked_served line 2
  · have hcount := h.count other hother
    unfold IrqSystem.waiting at hcount ⊢
    rw [hready.2] at hcount
    change s.accepted.count other = s.handled other +
      ((if (s.pics.served line).requested other = true then 1 else 0) +
        if some (irqBase + line) = some (irqBase + other) then 1 else 0)
    rw [Pics.requested_served hlt hother.1 hother.2, hcount]
    by_cases heq : other = line
    · rw [heq, if_pos rfl, if_pos rfl, if_pos hrequested]
      rfl
    · rw [if_neg heq, if_neg fun hsame ↦ heq (Nat.add_left_cancel (Option.some.inj hsame)).symm]
      rfl

theorem delivering_dispatch (h : Delivering s) (hstep : s.step .dispatch = some s') :
    Delivering s' := by
  obtain ⟨vector, htaken, rfl⟩ := Option.map_eq_some_iff.mp hstep
  have hchips := h.chips
  rw [htaken] at hchips
  obtain ⟨line, hline, rfl, hserving, hhandler⟩ := hchips
  obtain ⟨handler, hinstalled⟩ := Option.ne_none_iff_exists'.mp hhandler
  obtain ⟨hprogrammed, hquiet, hsame⟩ := Pics.isrEndOfInterrupt_spec hserving hline.1
  have hcall : isrHandler s.handlers s.pics (irqBase + line) =
      (isrEndOfInterrupt s.pics line, .handler line handler) := by
    have hlt := hline.1
    unfold isrHandler irqBase
    rw [if_neg (by omega), if_neg (by omega), Nat.add_sub_cancel_left]
    simp only [hinstalled]
  rw [hcall]
  refine ⟨⟨hprogrammed, hquiet⟩, fun other hother ↦ ?_, fun other hother hle hother' ↦ ?_,
    fun call hmem ↦ ?_, fun other hother ↦ ?_⟩
  · rw [← h.masks other hother]
    exact iff_of_eq (congrArg (· = false) (hsame.masked other))
  · rw [← h.cascade other hother hle hother']
    exact hsame.masked 2
  · rcases List.mem_cons.mp hmem with rfl | hmem
    · exact ⟨line, handler, rfl, hline⟩
    · exact h.calls call hmem
  · have hcount := h.count other hother
    unfold IrqSystem.waiting at hcount ⊢
    rw [htaken] at hcount
    change s.accepted.count other =
      List.countP _ (.handler line handler :: s.calls) +
        ((if (isrEndOfInterrupt s.pics line).requested other = true then 1 else 0) + 0)
    rw [hsame.requested other, hcount, List.countP_cons]
    change s.handled other + _ = s.handled other + _ + _
    by_cases heq : line = other
    · simp [heq]
      omega
    · simp [heq]

theorem delivering_setInterrupts (h : Delivering s) {enabled : Bool}
    (hstep : s.step (.setInterrupts enabled) = some s') : Delivering s' := by
  simp only [IrqSystem.step, Option.ite_none_right_eq_some, Option.some.injEq] at hstep
  obtain ⟨-, rfl⟩ := hstep
  exact ⟨h.chips, h.masks, h.cascade, h.calls, h.count⟩

/-- What `irq_install_handler` does to the masks. -/
theorem masked_unmaskIrq {pics : Pics} (h : pics.Programmed) {irq line : ℕ} (hline : line < 16) :
    (unmaskIrq pics irq).masked line =
      if line = irq ∨ line = 2 ∧ 8 ≤ irq then false else pics.masked line := by
  have hfirst := @Pics.masked_irqSetMask pics h irq line hline false
  unfold unmaskIrq
  by_cases hslave : 8 ≤ irq
  · rw [if_pos hslave, Pics.masked_irqSetMask (Pics.sameButMasks_irqSetMask h irq false).programmed hline,
      hfirst]
    by_cases htwo : line = 2
    · rw [if_pos htwo, if_pos (Or.inr ⟨htwo, hslave⟩)]
    · rw [if_neg htwo]
      simp only [htwo, false_and, or_false]
  · rw [if_neg hslave, hfirst]
    simp only [hslave, and_false, or_false]

theorem sameButMasks_unmaskIrq {pics : Pics} (h : pics.Programmed) (irq : ℕ) :
    Pics.SameButMasks pics (unmaskIrq pics irq) := by
  have hfirst := Pics.sameButMasks_irqSetMask h irq false
  unfold unmaskIrq
  by_cases hslave : 8 ≤ irq
  · rw [if_pos hslave]
    exact hfirst.trans (Pics.sameButMasks_irqSetMask hfirst.programmed 2 false)
  · rw [if_neg hslave]
    exact hfirst

theorem delivering_install (h : Delivering s) {irq handler : ℕ}
    (hstep : s.step (.install irq handler) = some s') : Delivering s' := by
  simp only [IrqSystem.step, Option.ite_none_right_eq_some, Option.some.injEq] at hstep
  obtain ⟨⟨htaken, hirq⟩, rfl⟩ := hstep
  have hchips := h.chips
  rw [htaken] at hchips
  obtain ⟨hprogrammed, hquiet⟩ := hchips
  have hsame := sameButMasks_unmaskIrq hprogrammed irq
  have hrequested (line : ℕ) : (unmaskIrq s.pics irq).requested line = s.pics.requested line := by
    rw [Pics.requested, Pics.requested, hsame.master_irr, hsame.slave_irr]
  refine ⟨?_, fun line hline ↦ ?_, fun line hline hle hhandler ↦ ?_, h.calls, fun line hline ↦ ?_⟩
  · change ChipsFor (unmaskIrq s.pics irq) (installHandler s.handlers irq handler) s.taken
    rw [htaken]
    exact ⟨hsame.programmed, hsame.master_isr.trans hquiet.master, hsame.slave_isr.trans hquiet.slave⟩
  · change (unmaskIrq s.pics irq).masked line = false ↔ installHandler s.handlers irq handler line ≠ none
    have hline2 : ¬ (line = 2 ∧ 8 ≤ irq) := fun htwo ↦ hline.2 htwo.1
    rw [masked_unmaskIrq hprogrammed hline.1, installHandler]
    by_cases heq : line = irq
    · subst heq
      rw [if_pos (Or.inl rfl), Function.update_self]
      exact iff_of_true rfl (Option.some_ne_none handler)
    · rw [if_neg (not_or.mpr ⟨heq, hline2⟩), Function.update_of_ne heq]
      exact h.masks line hline
  · change (unmaskIrq s.pics irq).masked 2 = false
    change installHandler s.handlers irq handler line ≠ none at hhandler
    rw [masked_unmaskIrq hprogrammed (by decide)]
    by_cases hslave : 8 ≤ irq
    · rw [if_pos (Or.inr ⟨rfl, hslave⟩)]
    · have hne : line ≠ irq := by omega
      rw [installHandler, Function.update_of_ne hne] at hhandler
      rw [if_neg (by simp [hirq.2.symm, hslave])]
      exact h.cascade line hline hle hhandler
  · have hcount := h.count line hline
    unfold IrqSystem.waiting at hcount ⊢
    change s.accepted.count line = s.handled line +
      ((if (unmaskIrq s.pics irq).requested line = true then 1 else 0) +
        if s.taken = some (irqBase + line) then 1 else 0)
    rw [hrequested line]
    exact hcount

theorem delivering_step (h : Delivering s) {action : IrqAction} (hstep : s.step action = some s') :
    Delivering s' := by
  cases action with
  | request line => exact delivering_request h hstep
  | take => exact delivering_take h hstep
  | dispatch => exact delivering_dispatch h hstep
  | setInterrupts enabled => exact delivering_setInterrupts h hstep
  | install irq handler => exact delivering_install h hstep

end Steps

/-! ### All runs -/

theorem delivering_run {pics : Pics} {actions : List IrqAction} {s : IrqSystem}
    (hrun : runFrom IrqSystem.step (IrqSystem.start pics) actions = some s) : Delivering s :=
  invariant_runFrom (fun h _ hstep ↦ delivering_step h hstep) (delivering_start pics)
    (alongRun_true _ _) hrun

/-- A line that waits is not held up. -/
theorem Delivering.exists_acknowledge {s : IrqSystem} (h : Delivering s) (hquiet : s.pics.Quiet)
    {line : ℕ} (hready : s.Ready line) : s.pics.acknowledge.isSome := by
  obtain ⟨hline, hhandler, hrequested⟩ := hready
  exact Pics.exists_acknowledge hquiet hline.1 hline.2 hrequested ((h.masks line hline).mpr hhandler)
    fun hle ↦ h.cascade line hline hle hhandler

/-- In every state that the system reaches from `idt_init` on, whatever the controllers were before:
`isr_handler` has only been called for device lines with a handler; every accepted request has been
handled once, or waits; and as soon as interrupts are enabled, the first in the order of the chips of the
waiting lines with a handler is taken, however many handlers have not returned. -/
theorem interrupts_delivered (pics : Pics) (actions : List IrqAction) (s : IrqSystem)
    (hrun : runFrom IrqSystem.step (IrqSystem.start pics) actions = some s) :
    (∀ call ∈ s.calls, ∃ irq handler, call = .handler irq handler ∧ IsDeviceLine irq) ∧
    (∀ line, IsDeviceLine line → s.accepted.count line = s.handled line + s.waiting line) ∧
    (∀ line, s.Ready line → s.interrupts = true → s.taken = none →
      ∃ first s', s.step .take = some s' ∧ s'.taken = some (irqBase + first) ∧ s.Ready first ∧
        ∀ other, s.Ready other → Pics.priority first ≤ Pics.priority other) ∧
    (s.taken ≠ none → (s.step .dispatch).isSome) := by
  have h := delivering_run hrun
  refine ⟨h.calls, h.count, fun line hready hinterrupts htaken ↦ ?_, fun htaken ↦ ?_⟩
  · have hchips := h.chips
    rw [htaken] at hchips
    obtain ⟨hprogrammed, hquiet⟩ := hchips
    obtain ⟨⟨vector, pics'⟩, hack⟩ := Option.isSome_iff_exists.mp (h.exists_acknowledge hquiet hready)
    obtain ⟨first, hlt, htwo, rfl, hrequested, hmasked, -⟩ :=
      Pics.acknowledge_eq_some hprogrammed hquiet hack
    have hfirst : IsDeviceLine first := ⟨hlt, htwo⟩
    refine ⟨first, { s with pics := pics', interrupts := false, taken := some (irqBase + first) }, ?_,
      rfl, ⟨hfirst, (h.masks first hfirst).mp hmasked, hrequested⟩, fun other hother ↦ ?_⟩
    · simp only [IrqSystem.step, if_pos (And.intro hinterrupts htaken), hack, Option.map_some]
    · obtain ⟨hline, hhandler, hrequested⟩ := hother
      exact Pics.priority_le hprogrammed hquiet hack hline.1 hline.2 hrequested
        ((h.masks other hline).mpr hhandler) fun hle ↦ h.cascade other hline hle hhandler
  · obtain ⟨vector, hvector⟩ := Option.ne_none_iff_exists'.mp htaken
    simp only [IrqSystem.step, hvector, Option.map_some, Option.isSome_some]

/-- The handler of the timer does not return before the mouse is served. -/
def timerThenMouse : List IrqAction :=
  [.install 0 100, .install 12 200, .setInterrupts true, .request 12, .request 0, .take, .dispatch,
    .setInterrupts true, .request 0]

/-- Lines 0 and 12 wait, and line 0 is taken. -/
theorem interrupts_delivered_timer : ∃ s s',
    runFrom IrqSystem.step (IrqSystem.start ⟨⟨0, 0, 1, 8, 0, false, .ready⟩,
      ⟨0, 0, 0, 112, 0, false, .icw4⟩⟩) timerThenMouse = some s ∧
    s.accepted.count 12 = s.handled 12 + s.waiting 12 ∧ s.waiting 12 = 1 ∧
    s.step .take = some s' ∧ s'.taken = some irqBase := by
  have hrun : ∃ s ∈ runFrom IrqSystem.step (IrqSystem.start ⟨⟨0, 0, 1, 8, 0, false, .ready⟩,
      ⟨0, 0, 0, 112, 0, false, .icw4⟩⟩) timerThenMouse,
      s.handlers 12 = some 200 ∧ s.handlers 0 = some 100 ∧ s.pics.requested 12 = true ∧
        s.pics.requested 0 = true ∧ s.interrupts = true ∧ s.taken = none ∧ s.waiting 12 = 1 := by
    decide +kernel
  obtain ⟨s, hs, hmouse, htimer, hmouseWaits, htimerWaits, hinterrupts, htaken, hwaiting⟩ := hrun
  obtain ⟨-, hcount, htake, -⟩ := interrupts_delivered _ timerThenMouse s hs
  have hready : s.Ready 12 := ⟨by decide, by rw [hmouse]; exact Option.some_ne_none 200, hmouseWaits⟩
  have hzero : s.Ready 0 := ⟨by decide, by rw [htimer]; exact Option.some_ne_none 100, htimerWaits⟩
  obtain ⟨first, s', hstep, hfirst, -, hle⟩ := htake 12 hready hinterrupts htaken
  have hpriority : Pics.priority first ≤ 0 := hle 0 hzero
  have hfirstZero : first = 0 := by
    unfold Pics.priority at hpriority
    split_ifs at hpriority <;> omega
  rw [hfirstZero] at hfirst
  exact ⟨s, s', hs, hcount 12 (by decide), hwaiting, hstep, hfirst⟩

end MegKer.Drivers
