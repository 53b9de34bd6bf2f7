import MegKer.Foundation.StackFrame
import MegKer.Foundation.Transition
import Mathlib.Data.Fintype.Defs
import Mathlib.Logic.Function.Basic

/-!
# Cooperative context switching

Any number of contexts share one processor, each with a stack of its own. The running context calls a
routine that saves a frame on its stack, records where, and restores the frame of another context. A
`SwitchPort` is such a routine on some processor, with the code that builds the first frame of a new
context, and `SwitchPort.Correct` is what each of the two does: which words it writes, and which
registers it loads from a frame.

`SwitchStep` is the system. Between two switches the running context does what it likes to the
processor and to memory, except to the part of a suspended stack that is in use. For each suspended
context the system remembers the state in which it is to be resumed. The invariant `FramesIntact` says
that the frame and the stack in memory are still those of that state. Two results follow for all runs
of a correct port: a context that switched away comes back as it was (`resumes_of_run`), and a context
that was built starts as its frame says (`launches_of_run`).
-/

set_option autoImplicit false
set_option relaxedAutoImplicit false

namespace MegKer.Foundation

/-! ### Processors and ports -/

/-- What a context switch is about: the registers of type `R`, the stack pointer, the address of the
next instruction, whether interrupts are enabled, and memory. -/
structure Cpu (R : Type) where
  reg : R → ℕ
  sp : ℕ
  pc : ℕ
  interrupts : Bool
  mem : WordMemory

namespace Cpu

variable {R : Type} (cpu : Cpu R) (r : R) (value : ℕ) (mem : WordMemory)

/-- Write a register. -/
def set [DecidableEq R] : Cpu R := { cpu with reg := Function.update cpu.reg r value }

/-- Write the stack pointer. -/
def setSp : Cpu R := { cpu with sp := value }

/-- Jump. -/
def setPc : Cpu R := { cpu with pc := value }

/-- Replace memory. -/
def setMem : Cpu R := { cpu with mem := mem }

/-! The fields after each update, by rewriting: the kernel would compare a computed stack pointer with
the old one to see that two states have the same registers. -/

@[simp] theorem set_reg [DecidableEq R] :
    (cpu.set r value).reg = Function.update cpu.reg r value := by rw [set]

@[simp] theorem set_sp [DecidableEq R] : (cpu.set r value).sp = cpu.sp := by rw [set]

@[simp] theorem set_pc [DecidableEq R] : (cpu.set r value).pc = cpu.pc := by rw [set]

@[simp] theorem set_mem [DecidableEq R] : (cpu.set r value).mem = cpu.mem := by rw [set]

@[simp] theorem set_interrupts [DecidableEq R] :
    (cpu.set r value).interrupts = cpu.interrupts := by rw [set]

@[simp] theorem setSp_reg : (cpu.setSp value).reg = cpu.reg := by rw [setSp]

@[simp] theorem setSp_sp : (cpu.setSp value).sp = value := by rw [setSp]

@[simp] theorem setSp_pc : (cpu.setSp value).pc = cpu.pc := by rw [setSp]

@[simp] theorem setSp_mem : (cpu.setSp value).mem = cpu.mem := by rw [setSp]

@[simp] theorem setSp_interrupts : (cpu.setSp value).interrupts = cpu.interrupts := by rw [setSp]

@[simp] theorem setPc_reg : (cpu.setPc value).reg = cpu.reg := by rw [setPc]

@[simp] theorem setPc_sp : (cpu.setPc value).sp = cpu.sp := by rw [setPc]

@[simp] theorem setPc_pc : (cpu.setPc value).pc = value := by rw [setPc]

@[simp] theorem setPc_mem : (cpu.setPc value).mem = cpu.mem := by rw [setPc]

@[simp] theorem setPc_interrupts : (cpu.setPc value).interrupts = cpu.interrupts := by rw [setPc]

@[simp] theorem setMem_reg : (cpu.setMem mem).reg = cpu.reg := by rw [setMem]

@[simp] theorem setMem_sp : (cpu.setMem mem).sp = cpu.sp := by rw [setMem]

@[simp] theorem setMem_pc : (cpu.setMem mem).pc = cpu.pc := by rw [setMem]

@[simp] theorem setMem_mem : (cpu.setMem mem).mem = mem := by rw [setMem]

@[simp] theorem setMem_interrupts : (cpu.setMem mem).interrupts = cpu.interrupts := by rw [setMem]

end Cpu

/-- A switching routine for registers `R`, and what builds new contexts from the data `L`. -/
structure SwitchPort (R L : Type) where
  /-- The registers that a context keeps. -/
  saved : List R
  /-- The size of a frame in bytes. -/
  frameBytes : ℕ
  /-- The words of a frame from its low end, for the registers and the address to continue at. -/
  frame : (R → ℕ) → ℕ → List ℕ
  /-- The registers as a call instruction with a return address leaves them. -/
  called : (R → ℕ) → ℕ → R → ℕ
  /-- The register with the address at which the old stack pointer is recorded. -/
  slotArg : R
  /-- The register with the new stack pointer. -/
  spArg : R
  /-- The call of the routine, up to and with its return. -/
  contextSwitch : Cpu R → ℕ → Cpu R
  /-- Build a frame below the top of a stack, and the stack pointer to switch to. -/
  build : WordMemory → ℕ → L → WordMemory × ℕ
  /-- The registers that a new context starts with. -/
  launchReg : L → R → ℕ
  /-- Where a new context starts. -/
  launchPc : L → ℕ

namespace SwitchPort

variable {R L : Type}

/-- What the routine and the builder of a port do. -/
structure Correct (port : SwitchPort R L) : Prop where
  frame_length : ∀ reg pc, 8 * (port.frame reg pc).length = port.frameBytes
  /-- The frame of the caller goes on its stack, and then the stack pointer is recorded. -/
  saves : ∀ cpu ret, port.frameBytes ≤ cpu.sp → cpu.sp < 2 ^ 64 → ∃ pushed : WordMemory,
    FrameAt pushed (cpu.sp - port.frameBytes) (port.frame cpu.reg ret) ∧
    (∀ a, a < cpu.sp - port.frameBytes ∨ cpu.sp ≤ a → pushed a = cpu.mem a) ∧
    (port.contextSwitch cpu ret).mem =
      pushed.store (cpu.reg port.slotArg) (cpu.sp - port.frameBytes)
  /-- The registers, the stack pointer and the program counter come from the new frame. -/
  restores : ∀ cpu ret reg pc, cpu.reg port.spArg + port.frameBytes < 2 ^ 64 →
    FrameAt (port.contextSwitch cpu ret).mem (cpu.reg port.spArg) (port.frame reg pc) →
      (∀ r ∈ port.saved, (port.contextSwitch cpu ret).reg r = port.called reg pc r) ∧
        (port.contextSwitch cpu ret).sp = cpu.reg port.spArg + port.frameBytes ∧
        (port.contextSwitch cpu ret).pc = pc
  /-- The builder pushes the frame of the new context. -/
  builds : ∀ mem top launch, port.build mem top launch =
    pushWords mem top (port.frame (port.launchReg launch) (port.launchPc launch)).reverse

variable {port : SwitchPort R L} {cpu : Cpu R} {ret : ℕ}

theorem Correct.records (hcorrect : port.Correct) (hroom : port.frameBytes ≤ cpu.sp)
    (hsp : cpu.sp < 2 ^ 64) :
    (port.contextSwitch cpu ret).mem (cpu.reg port.slotArg) = cpu.sp - port.frameBytes := by
  obtain ⟨pushed, -, -, hmem⟩ := hcorrect.saves cpu ret hroom hsp
  rw [hmem, WordMemory.store_same]

/-- A switch writes only the frame and the record. -/
theorem Correct.keeps (hcorrect : port.Correct) (hroom : port.frameBytes ≤ cpu.sp)
    (hsp : cpu.sp < 2 ^ 64) {a : ℕ} (ha : a < cpu.sp - port.frameBytes ∨ cpu.sp ≤ a)
    (hne : a ≠ cpu.reg port.slotArg) : (port.contextSwitch cpu ret).mem a = cpu.mem a := by
  obtain ⟨pushed, -, hkept, hmem⟩ := hcorrect.saves cpu ret hroom hsp
  rw [hmem, WordMemory.store_of_ne _ _ hne, hkept a ha]

theorem Correct.frameAt_contextSwitch (hcorrect : port.Correct) (hroom : port.frameBytes ≤ cpu.sp)
    (hsp : cpu.sp < 2 ^ 64)
    (hslot : cpu.reg port.slotArg < cpu.sp - port.frameBytes ∨ cpu.sp ≤ cpu.reg port.slotArg) :
    FrameAt (port.contextSwitch cpu ret).mem (cpu.sp - port.frameBytes)
      (port.frame cpu.reg ret) := by
  obtain ⟨pushed, hframe, -, hmem⟩ := hcorrect.saves cpu ret hroom hsp
  rw [hmem]
  refine hframe.congr fun a hlow hhigh ↦ ?_
  rw [hcorrect.frame_length] at hhigh
  exact WordMemory.store_of_ne _ _ (by omega)

variable {mem : WordMemory} {top : ℕ} {launch : L}

theorem Correct.length_launch (hcorrect : port.Correct) (launch : L) :
    8 * (port.frame (port.launchReg launch) (port.launchPc launch)).reverse.length =
      port.frameBytes := by
  rw [List.length_reverse, hcorrect.frame_length]

theorem Correct.build_sp (hcorrect : port.Correct) (hroom : port.frameBytes ≤ top)
    (htop : top < 2 ^ 64) : (port.build mem top launch).2 = top - port.frameBytes := by
  have hlength := hcorrect.length_launch launch
  rw [hcorrect.builds, pushWords_sp (by omega) htop, hlength]

theorem Correct.frameAt_build (hcorrect : port.Correct) (hroom : port.frameBytes ≤ top)
    (htop : top < 2 ^ 64) :
    FrameAt (port.build mem top launch).1 (top - port.frameBytes)
      (port.frame (port.launchReg launch) (port.launchPc launch)) := by
  have hlength := hcorrect.length_launch launch
  rw [← hlength] at hroom ⊢
  rw [hcorrect.builds]
  have hframe := frameAt_pushWords mem hroom htop
  rw [List.reverse_reverse] at hframe
  exact hframe

theorem Correct.build_of_outside (hcorrect : port.Correct) (hroom : port.frameBytes ≤ top)
    (htop : top < 2 ^ 64) {a : ℕ} (ha : a < top - port.frameBytes ∨ top ≤ a) :
    (port.build mem top launch).1 a = mem a := by
  rw [← hcorrect.length_launch launch] at hroom ha
  rw [hcorrect.builds]
  exact pushWords_of_outside hroom htop ha

end SwitchPort

/-! ### Stacks and suspended contexts -/

/-- The memory of a stack. -/
structure Stack where
  base : ℕ
  top : ℕ
  base_le : base ≤ top
  top_lt : top < 2 ^ 64
  aligned : 8 ∣ top

/-- Stacks for the contexts, which do not overlap. -/
structure StackLayout (ι : Type) where
  stack : ι → Stack
  disjoint : ∀ {i j a}, (stack i).base ≤ a → a < (stack i).top → (stack j).base ≤ a →
    a < (stack j).top → i = j

/-- A context that is not running: the recorded stack pointer, and the state it is to resume in. -/
structure Suspended (R : Type) where
  sp : ℕ
  resume : Cpu R

/-- The processor, the running context, and the suspended ones. -/
structure SwitchState (R ι : Type) where
  cpu : Cpu R
  running : ι
  suspended : ι → Option (Suspended R)

/-- What can happen: the running context computes, it builds a new context, or it switches to
another one by a call with a return address. -/
inductive SwitchAction (R L ι : Type)
  | work (cpu : Cpu R)
  | build (c : ι) (launch : L)
  | switch (c : ι) (ret : ℕ)

/-- The context that an action builds or resumes. -/
def SwitchAction.target {R L ι : Type} : SwitchAction R L ι → Option ι
  | .work _ => none
  | .build c _ => some c
  | .switch c _ => some c

namespace SwitchPort

variable {R L ι : Type} (port : SwitchPort R L) (layout : StackLayout ι)

/-- The part of a suspended stack that is in use is the same in another memory. -/
def LeavesSuspended (s : SwitchState R ι) (mem : WordMemory) : Prop :=
  ∀ i, ∀ t ∈ s.suspended i, ∀ a < (layout.stack i).top, t.sp ≤ a → mem a = s.cpu.mem a

/-- When an action is possible. A computation leaves the suspended stacks alone. A stack that gets a
frame, by a new context or by a switch, has room for it. The address at which a switch records the
stack pointer is not in the frame it saves, and not in a suspended stack; the stack pointer it is
given is the one recorded for the other context. -/
def Possible (s : SwitchState R ι) : SwitchAction R L ι → Prop
  | .work cpu => LeavesSuspended layout s cpu.mem
  | .build c _ => c ≠ s.running ∧ (layout.stack c).base + port.frameBytes ≤ (layout.stack c).top
  | .switch c _ =>
    (∃ t ∈ s.suspended c, s.cpu.reg port.spArg = t.sp) ∧
    ((layout.stack s.running).base + port.frameBytes ≤ s.cpu.sp ∧
      s.cpu.sp ≤ (layout.stack s.running).top ∧ 8 ∣ s.cpu.sp) ∧
    8 ∣ s.cpu.reg port.slotArg ∧
    (s.cpu.reg port.slotArg < s.cpu.sp - port.frameBytes ∨ s.cpu.sp ≤ s.cpu.reg port.slotArg) ∧
    ∀ i, ∀ t ∈ s.suspended i,
      s.cpu.reg port.slotArg < t.sp ∨ (layout.stack i).top ≤ s.cpu.reg port.slotArg

instance [Fintype ι] (s : SwitchState R ι) (mem : WordMemory) :
    Decidable (LeavesSuspended layout s mem) :=
  inferInstanceAs (Decidable
    (∀ i, ∀ t ∈ s.suspended i, ∀ a < (layout.stack i).top, t.sp ≤ a → mem a = s.cpu.mem a))

variable [DecidableEq ι]

instance [Fintype ι] (s : SwitchState R ι) :
    (a : SwitchAction R L ι) → Decidable (port.Possible layout s a)
  | .work cpu => inferInstanceAs (Decidable (LeavesSuspended layout s cpu.mem))
  | .build _ _ => inferInstanceAs (Decidable (_ ∧ _))
  | .switch _ _ => inferInstanceAs (Decidable (_ ∧ _ ∧ _ ∧ _ ∧ _))

/-- The state in which a context that calls the routine is to be resumed: after the call, with its
stack as the call found it, except that the stack pointer may have been recorded there. -/
def returned (cpu : Cpu R) (ret : ℕ) : Cpu R :=
  { cpu with pc := ret, mem := cpu.mem.store (cpu.reg port.slotArg) (cpu.sp - port.frameBytes) }

/-- The state in which a new context starts. -/
def launched (cpu : Cpu R) (top : ℕ) (launch : L) : Cpu R :=
  { cpu with reg := port.launchReg launch, sp := top, pc := port.launchPc launch }

/-- What an action does. The stack pointer of the context that switches away is read back from where
the routine recorded it. -/
def effect (s : SwitchState R ι) : SwitchAction R L ι → SwitchState R ι
  | .work cpu => { s with cpu := cpu }
  | .build c launch =>
    let top := (layout.stack c).top
    let built := port.build s.cpu.mem top launch
    { s with
      cpu := { s.cpu with mem := built.1 }
      suspended := Function.update s.suspended c
        (some ⟨built.2, port.launched s.cpu top launch⟩) }
  | .switch c ret =>
    let cpu := port.contextSwitch s.cpu ret
    { cpu := cpu
      running := c
      suspended := Function.update (Function.update s.suspended s.running
        (some ⟨cpu.mem (s.cpu.reg port.slotArg), port.returned s.cpu ret⟩)) c none }

/-- A step of the system. -/
def step [Fintype ι] (s : SwitchState R ι) (a : SwitchAction R L ι) : Option (SwitchState R ι) :=
  if port.Possible layout s a then some (port.effect layout s a) else none

variable {port layout}

theorem step_eq_some [Fintype ι] {s s' : SwitchState R ι} {a : SwitchAction R L ι}
    (h : port.step layout s a = some s') :
    port.Possible layout s a ∧ s' = port.effect layout s a := by
  unfold step at h
  split at h
  case isTrue hpossible => exact ⟨hpossible, (Option.some.inj h).symm⟩
  case isFalse => cases h

variable {s : SwitchState R ι} {c i : ι} {ret : ℕ} {launch : L}

theorem suspended_build_self : (port.effect layout s (.build c launch)).suspended c =
    some ⟨(port.build s.cpu.mem (layout.stack c).top launch).2,
      port.launched s.cpu (layout.stack c).top launch⟩ :=
  Function.update_self _ _ _

theorem suspended_build_of_ne (hne : i ≠ c) :
    (port.effect layout s (.build c launch)).suspended i = s.suspended i :=
  Function.update_of_ne hne _ _

theorem suspended_switch_self : (port.effect layout s (.switch c ret)).suspended c = none :=
  Function.update_self _ _ _

theorem suspended_switch_running (hne : s.running ≠ c) :
    (port.effect layout s (.switch c ret)).suspended s.running =
      some ⟨(port.contextSwitch s.cpu ret).mem (s.cpu.reg port.slotArg),
        port.returned s.cpu ret⟩ :=
  (Function.update_of_ne hne _ _).trans (Function.update_self _ _ _)

theorem suspended_switch_of_ne (hne : i ≠ c) (hrunning : i ≠ s.running) :
    (port.effect layout s (.switch c ret)).suspended i = s.suspended i :=
  (Function.update_of_ne hne _ _).trans (Function.update_of_ne hrunning _ _)

/-! ### The invariant -/

variable (port) in
/-- The frame of a suspended context is on its stack, and above it the stack it had. -/
structure IntactAt (stack : Stack) (mem : WordMemory) (t : Suspended R) : Prop where
  base_le : stack.base ≤ t.sp
  resume_sp : t.resume.sp = t.sp + port.frameBytes
  le_top : t.resume.sp ≤ stack.top
  frame : FrameAt mem t.sp (port.frame t.resume.reg t.resume.pc)
  contents : ∀ a, t.resume.sp ≤ a → a < stack.top → mem a = t.resume.mem a

variable (port layout) in
/-- The running context is not suspended, and the others are as they were left. -/
structure FramesIntact (s : SwitchState R ι) : Prop where
  running : s.suspended s.running = none
  intact : ∀ i, ∀ t ∈ s.suspended i, port.IntactAt (layout.stack i) s.cpu.mem t

/-- Only the stack in use matters. -/
theorem IntactAt.congr (hcorrect : port.Correct) {stack : Stack} {mem mem' : WordMemory}
    {t : Suspended R} (h : port.IntactAt stack mem t)
    (hsame : ∀ a, t.sp ≤ a → a < stack.top → mem' a = mem a) : port.IntactAt stack mem' t := by
  obtain ⟨hbase, hresume, htop, hframe, hcontents⟩ := h
  refine ⟨hbase, hresume, htop, hframe.congr fun a hlow hhigh ↦ ?_, fun a hlow hhigh ↦ ?_⟩
  · rw [hcorrect.frame_length] at hhigh
    exact hsame a hlow (by omega)
  · rw [hsame a (by omega) hhigh, hcontents a hlow hhigh]

/-- A new context is as its builder left it. -/
theorem intactAt_build (hcorrect : port.Correct) {stack : Stack} {cpu : Cpu R} {launch : L}
    (hroom : stack.base + port.frameBytes ≤ stack.top) :
    port.IntactAt stack (port.build cpu.mem stack.top launch).1
      ⟨(port.build cpu.mem stack.top launch).2, port.launched cpu stack.top launch⟩ where
  base_le := by
    rw [hcorrect.build_sp (by omega) stack.top_lt]
    exact Nat.le_sub_of_add_le hroom
  resume_sp := by
    rw [hcorrect.build_sp (by omega) stack.top_lt]
    exact (Nat.sub_add_cancel ((Nat.le_add_left _ _).trans hroom)).symm
  le_top := le_rfl
  frame := by
    rw [hcorrect.build_sp (by omega) stack.top_lt]
    exact hcorrect.frameAt_build ((Nat.le_add_left _ _).trans hroom) stack.top_lt
  contents a hlow hhigh := absurd hlow (Nat.not_le.mpr hhigh)

/-- A context that switches away is as its call found it. -/
theorem intactAt_contextSwitch (hcorrect : port.Correct) {stack : Stack} {cpu : Cpu R} {ret : ℕ}
    (hroom : stack.base + port.frameBytes ≤ cpu.sp) (htop : cpu.sp ≤ stack.top)
    (hslot : cpu.reg port.slotArg < cpu.sp - port.frameBytes ∨ cpu.sp ≤ cpu.reg port.slotArg) :
    port.IntactAt stack (port.contextSwitch cpu ret).mem
      ⟨(port.contextSwitch cpu ret).mem (cpu.reg port.slotArg), port.returned cpu ret⟩ := by
  have hsp : cpu.sp < 2 ^ 64 := htop.trans_lt stack.top_lt
  have hframe : port.frameBytes ≤ cpu.sp := by omega
  rw [hcorrect.records hframe hsp]
  refine ⟨Nat.le_sub_of_add_le hroom, (Nat.sub_add_cancel hframe).symm, htop,
    hcorrect.frameAt_contextSwitch hframe hsp hslot, fun a hlow _ ↦ ?_⟩
  change _ = cpu.mem.store (cpu.reg port.slotArg) (cpu.sp - port.frameBytes) a
  by_cases heq : a = cpu.reg port.slotArg
  · rw [heq, hcorrect.records hframe hsp, WordMemory.store_same]
  · rw [hcorrect.keeps hframe hsp (Or.inr hlow) heq, WordMemory.store_of_ne _ _ heq]

omit [DecidableEq ι] in
/-- A switch writes to no suspended stack but that of the caller. -/
theorem contextSwitch_of_suspended (hcorrect : port.Correct)
    (hpossible : port.Possible layout s (.switch c ret)) {t : Suspended R}
    (ht : t ∈ s.suspended i) (hi : i ≠ s.running) {a : ℕ} (hbase : (layout.stack i).base ≤ t.sp)
    (hlow : t.sp ≤ a) (hhigh : a < (layout.stack i).top) :
    (port.contextSwitch s.cpu ret).mem a = s.cpu.mem a := by
  obtain ⟨-, ⟨hroom, htop, -⟩, -, -, hslots⟩ := hpossible
  have hsp := htop.trans_lt (layout.stack s.running).top_lt
  refine hcorrect.keeps (by omega) hsp ?_ ?_
  · by_contra hframe
    rw [not_or, Nat.not_lt, Nat.not_le] at hframe
    exact hi (layout.disjoint (hbase.trans hlow) hhigh (by omega) (by omega))
  · rintro rfl
    have hslot := hslots i t ht
    omega

theorem framesIntact_step [Fintype ι] (hcorrect : port.Correct) {s s' : SwitchState R ι}
    {a : SwitchAction R L ι} (h : port.FramesIntact layout s)
    (hstep : port.step layout s a = some s') : port.FramesIntact layout s' := by
  obtain ⟨hpossible, rfl⟩ := step_eq_some hstep
  cases a with
  | work cpu =>
    refine ⟨h.running, fun i t ht ↦ (h.intact i t ht).congr hcorrect fun a hlow hhigh ↦ ?_⟩
    exact hpossible i t ht a hhigh hlow
  | build c launch =>
    obtain ⟨hne, hroom⟩ := hpossible
    refine ⟨(suspended_build_of_ne hne.symm).trans h.running, fun i t ht ↦ ?_⟩
    by_cases hi : i = c
    · subst hi
      rw [suspended_build_self, Option.mem_some_iff] at ht
      subst ht
      exact intactAt_build hcorrect hroom
    · rw [suspended_build_of_ne hi] at ht
      refine (h.intact i t ht).congr hcorrect fun a hlow hhigh ↦ ?_
      refine hcorrect.build_of_outside (by omega) (layout.stack c).top_lt ?_
      by_contra hframe
      rw [not_or, Nat.not_lt, Nat.not_le] at hframe
      have hbase := (h.intact i t ht).base_le
      exact hi (layout.disjoint (hbase.trans hlow) hhigh (by omega) (by omega))
  | switch c ret =>
    refine ⟨suspended_switch_self, fun i t ht ↦ ?_⟩
    have hi : i ≠ c := by
      rintro rfl
      rw [suspended_switch_self] at ht
      cases ht
    by_cases hrunning : i = s.running
    · subst hrunning
      rw [suspended_switch_running hi, Option.mem_some_iff] at ht
      subst ht
      obtain ⟨-, ⟨hroom, htop, -⟩, -, hslot, -⟩ := hpossible
      exact intactAt_contextSwitch hcorrect hroom htop hslot
    · rw [suspended_switch_of_ne hi hrunning] at ht
      have hintact := h.intact i t ht
      refine hintact.congr hcorrect fun a hlow hhigh ↦ ?_
      exact contextSwitch_of_suspended hcorrect hpossible ht hrunning hintact.base_le hlow hhigh

/-! ### Runs -/

section Runs

variable [Fintype ι] {start s₁ s₂ s₃ s₄ : SwitchState R ι} {before between : List (SwitchAction R L ι)}
  {t : Suspended R}

theorem framesIntact_run (hcorrect : port.Correct) (hstart : ∀ i, start.suspended i = none)
    (hrun : runFrom (port.step layout) start before = some s) : port.FramesIntact layout s := by
  have hintact : port.FramesIntact layout start :=
    ⟨hstart _, fun i t ht ↦ by rw [hstart i] at ht; cases ht⟩
  exact invariant_runFrom (fun h _ hstep ↦ framesIntact_step hcorrect h hstep) hintact
    (alongRun_true _ _) hrun

/-- A suspended context stays suspended until an action is about it. -/
theorem suspended_step {a : SwitchAction R L ι} (h : port.FramesIntact layout s)
    (hstep : port.step layout s a = some s₁) (ht : s.suspended i = some t)
    (ha : a.target ≠ some i) : s₁.suspended i = some t := by
  obtain ⟨-, rfl⟩ := step_eq_some hstep
  cases a with
  | work cpu => exact ht
  | build c launch =>
    rw [suspended_build_of_ne fun hi ↦ ha (congrArg some hi.symm)]
    exact ht
  | switch c ret =>
    have hrunning : i ≠ s.running := by
      rintro rfl
      rw [h.running] at ht
      cases ht
    rw [suspended_switch_of_ne (fun hi ↦ ha (congrArg some hi.symm)) hrunning]
    exact ht

theorem suspended_run (hcorrect : port.Correct) (h : port.FramesIntact layout s)
    (hrun : runFrom (port.step layout) s between = some s₁) (ht : s.suspended i = some t)
    (hother : ∀ a ∈ between, a.target ≠ some i) :
    port.FramesIntact layout s₁ ∧ s₁.suspended i = some t := by
  induction between generalizing s with
  | nil =>
    obtain rfl := Option.some.inj hrun
    exact ⟨h, ht⟩
  | cons a as ih =>
    obtain ⟨next, hstep, hrun⟩ := runFrom_cons hrun
    exact ih (framesIntact_step hcorrect h hstep) hrun
      (suspended_step h hstep ht (hother a List.mem_cons_self))
      fun b hb ↦ hother b (List.mem_cons_of_mem a hb)

variable (port) in
/-- A processor continues from a state as far as the context can tell: the registers that it keeps,
the stack pointer, the next instruction, and the stack up to its top. -/
structure Continues (top : ℕ) (resume cpu : Cpu R) : Prop where
  reg : ∀ r ∈ port.saved, cpu.reg r = port.called resume.reg resume.pc r
  sp : cpu.sp = resume.sp
  pc : cpu.pc = resume.pc
  stack : ∀ a, resume.sp ≤ a → a < top → cpu.mem a = resume.mem a

/-- A switch resumes a suspended context. -/
theorem continues_switch (hcorrect : port.Correct) (h : port.FramesIntact layout s)
    (ht : s.suspended c = some t) (hstep : port.step layout s (.switch c ret) = some s₁) :
    port.Continues (layout.stack c).top t.resume s₁.cpu := by
  obtain ⟨hpossible, rfl⟩ := step_eq_some hstep
  have hintact := h.intact c t ht
  have hother : c ≠ s.running := by
    rintro rfl
    rw [h.running] at ht
    cases ht
  have hkept (a : ℕ) (hlow : t.sp ≤ a) (hhigh : a < (layout.stack c).top) :
      (port.contextSwitch s.cpu ret).mem a = s.cpu.mem a :=
    contextSwitch_of_suspended hcorrect hpossible ht hother hintact.base_le hlow hhigh
  obtain ⟨t', ht', hsp⟩ := hpossible.1
  obtain rfl : t' = t := Option.some.inj (ht'.symm.trans ht)
  have hintact' := hintact.congr hcorrect hkept
  obtain ⟨hreg, hsp', hpc⟩ := hcorrect.restores s.cpu ret t'.resume.reg t'.resume.pc
    (by rw [hsp, ← hintact.resume_sp]; exact hintact.le_top.trans_lt (layout.stack c).top_lt)
    (by rw [hsp]; exact hintact'.frame)
  refine ⟨hreg, ?_, hpc, hintact'.contents⟩
  rw [hintact.resume_sp, ← hsp]
  exact hsp'

/-- A context that switches away continues after its call when it is switched to the next time,
whatever the contexts do in between. -/
theorem resumes_of_run (hcorrect : port.Correct) (hstart : ∀ i, start.suspended i = none)
    (hbefore : runFrom (port.step layout) start before = some s₁)
    (haway : port.step layout s₁ (.switch c ret) = some s₂)
    (hbetween : runFrom (port.step layout) s₂ between = some s₃)
    (hother : ∀ a ∈ between, a.target ≠ some s₁.running) {ret' : ℕ}
    (hback : port.step layout s₃ (.switch s₁.running ret') = some s₄) :
    port.Continues (layout.stack s₁.running).top (port.returned s₁.cpu ret) s₄.cpu := by
  have hintact := framesIntact_run hcorrect hstart hbefore
  have hne : s₁.running ≠ c := by
    rintro rfl
    obtain ⟨⟨⟨t, ht, -⟩, -⟩, -⟩ := step_eq_some haway
    rw [hintact.running] at ht
    cases ht
  have haway' := framesIntact_step hcorrect hintact haway
  obtain ⟨-, rfl⟩ := step_eq_some haway
  obtain ⟨hintact₃, ht⟩ :=
    suspended_run hcorrect haway' hbetween (suspended_switch_running hne) hother
  exact continues_switch hcorrect hintact₃ ht hback

/-- A new context starts as it was built. -/
theorem launches_of_run (hcorrect : port.Correct) (hstart : ∀ i, start.suspended i = none)
    (hbefore : runFrom (port.step layout) start before = some s₁)
    (hbuild : port.step layout s₁ (.build c launch) = some s₂)
    (hbetween : runFrom (port.step layout) s₂ between = some s₃)
    (hother : ∀ a ∈ between, a.target ≠ some c)
    (hswitch : port.step layout s₃ (.switch c ret) = some s₄) :
    port.Continues (layout.stack c).top
      (port.launched s₁.cpu (layout.stack c).top launch) s₄.cpu := by
  have hbuilt := framesIntact_step hcorrect (framesIntact_run hcorrect hstart hbefore) hbuild
  obtain ⟨-, rfl⟩ := step_eq_some hbuild
  obtain ⟨hintact₃, ht⟩ := suspended_run hcorrect hbuilt hbetween suspended_build_self hother
  exact continues_switch hcorrect hintact₃ ht hswitch

end Runs

end SwitchPort

end MegKer.Foundation
