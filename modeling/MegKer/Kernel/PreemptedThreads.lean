import MegKer.Kernel.ContextTransparency
import MegKer.Kernel.ExceptionVectors
import MegKer.Kernel.InterruptStubs

/-!
# Preempted threads

An interrupt may stop a thread at any instruction, and its handler may switch to other threads, which
run, are stopped themselves and switch on. The thread that was stopped comes back through the rest of its
own handler. `arch_context_switch` keeps the callee-saved registers of that handler, and the handler's
frame keeps all registers of the thread: on both ports nothing that the thread can see has changed
(`interrupts_transparent`).

The condition on the handler is the one of `SwitchPort.LeavesFrame`. Where the handler is at the top of its
stack again, the stack pointer is where the entry had it.

The way out of the handler is one step here. On x86_64 it may be interrupted like any other code, since all
that it needs is on the stack up to the `iretq`. On aarch64 `kernel_exit` loads `elr_el1` and `spsr_el1`
before the last registers and the `eret`, and an interrupt in between would overwrite them; so there the
interrupts have to be masked when the handler is done. A switch does not see to that: it does not carry the
mask, and a handler that comes back from a thread which enabled interrupts and exited runs with interrupts
on.
-/

set_option autoImplicit false
set_option relaxedAutoImplicit false

namespace MegKer.Kernel

open Foundation

/-- A trap is transparent to the thread that it stops, for any number of threads: the trap comes after
any run, and any run of the threads comes between the entry and the exit of the trap, which is met in a
state that suits it. -/
def TrapTransparent {R S K : Type} (port : SwitchPort R Launch) (trap : TrapPort R S K)
    (suits : Cpu R → Prop) : Prop :=
  ∀ (ι : Type) [Fintype ι] [DecidableEq ι] (layout : StackLayout ι) (start s₁ s₂ : SwitchState R ι)
    (before during : List (SwitchAction R Launch ι)) (state state' : S),
    (∀ i, start.suspended i = none) →
    runFrom (port.step layout) start before = some s₁ →
    trap.sameStack (trap.kept state) →
    (layout.stack s₁.running).base + trap.reach ≤ s₁.cpu.sp →
    s₁.cpu.sp ≤ (layout.stack s₁.running).top →
    runFrom (port.step layout) s₁ (.work (trap.enter s₁.cpu state).1 :: during) = some s₂ →
    AlongRun (port.step layout) (port.LeavesFrame layout s₁.running (trap.entrySp s₁.cpu.sp))
      (SwitchPort.trapped trap s₁ state) during →
    s₂.cpu.sp = trap.entrySp s₁.cpu.sp → suits s₂.cpu →
      trap.ResumesAt (layout.stack s₁.running).top (s₁.cpu, state) (trap.leave s₂.cpu state')

theorem trapTransparent_of_correct {R S K : Type} {port : SwitchPort R Launch} {trap : TrapPort R S K}
    (hcorrect : port.Correct) (htrap : trap.Correct) (suits : Cpu R → Prop) :
    TrapTransparent port trap suits := by
  intro ι _ _ layout start s₁ s₂ before during state state' hstart hbefore hstack hroom htop hduring
    hleaves hsp _
  have hintact := SwitchPort.framesIntact_run hcorrect hstart hbefore
  obtain ⟨next, hstep, hrest⟩ := runFrom_cons hduring
  rw [SwitchPort.step_trapped htrap hintact hstack hroom htop] at hstep
  obtain rfl := Option.some.inj hstep
  exact SwitchPort.resumesAt_of_run hcorrect htrap hstart hbefore hstack hroom htop hrest hleaves hsp

/-- Interrupts are transparent to kernel threads on both ports: for the stub of every vector on x86_64,
with an error code or without as the stub expects, and for every entry of the vector table on
aarch64, where interrupts have to be masked when the handler comes to `kernel_exit`. -/
theorem interrupts_transparent (labels : Labels) (rsp0 offset vector : ℕ) (stub : X86.Stub)
    (errorCode : Option ℕ) (hexpects : stub.Expects errorCode) :
    TrapTransparent (X86.port labels) (X86.trapPort rsp0 offset stub errorCode) (fun _ ↦ True) ∧
      TrapTransparent (AArch64.port labels) (AArch64.trapPort vector)
        (fun cpu ↦ cpu.interrupts = false) :=
  ⟨trapTransparent_of_correct (X86.port_correct labels) (X86.trapPort_correct rsp0 offset hexpects) _,
    trapTransparent_of_correct (AArch64.port_correct labels) (AArch64.trapPort_correct vector) _⟩

/-- Stacks that have room for an interrupt and a switch, one behind the other. -/
def narrowStacks (n : ℕ) (hn : n < 2 ^ 32) : StackLayout (Fin n) where
  stack i := ⟨320 * i, 320 * i + 320, by omega, by omega, by omega⟩
  disjoint hi hi' hj hj' := by
    simp only at hi hi' hj hj'
    omega

section Witness

abbrev timerPort : SwitchPort X86.Reg Launch := X86.port ⟨1, 2, 3, 4⟩

abbrev timerStacks : StackLayout (Fin 2) := narrowStacks 2 (by decide)

abbrev timerTrap : TrapPort X86.Reg X86.Status X86.Status := X86.trapPort 0 0 (.irqStub 0 32) none

/-- The boot context of two, with a stack pointer that is not aligned to 16. -/
def bootContext : SwitchState X86.Reg (Fin 2) :=
  ⟨⟨fun r ↦ if r = .rbx then 77 else 9, 310, 500, true, fun _ ↦ 5⟩, 0, fun _ ↦ none⟩

/-- The handler of the timer switches to thread 1, which changes registers and its stack, and is stopped
in its turn by a switch back. -/
def preemption (s : SwitchState X86.Reg (Fin 2)) : List (SwitchAction X86.Reg Launch (Fin 2)) :=
  let handler := (timerTrap.enter s.cpu ⟨0x246, 8, 16⟩).1
  let switched := timerPort.contextSwitch ((handler.set .rdi 5000).set .rsi 584) 600
  let thread := (((switched.set .rbx 1).set .r15 2).set .rdi 5008).set .rsi 72
  [.work ((handler.set .rdi 5000).set .rsi 584), .switch 1 600,
    .work (thread.setMem (thread.mem.store 504 3)), .switch 0 700]

/-- The boot context creates thread 1, is stopped by the timer, and continues as it was. -/
theorem interrupts_transparent_timer :
    ∃ s₁ s₂ : SwitchState X86.Reg (Fin 2),
      runFrom (timerPort.step timerStacks) bootContext [.build 1 (.thread 1000 2000)] = some s₁ ∧
      runFrom (timerPort.step timerStacks) s₁
        (.work (timerTrap.enter s₁.cpu ⟨0x246, 8, 16⟩).1 :: preemption s₁) = some s₂ ∧
      s₁.cpu.reg .rbx = 77 ∧
      timerTrap.ResumesAt 320 (s₁.cpu, ⟨0x246, 8, 16⟩) (timerTrap.leave s₂.cpu ⟨0, 0, 0⟩) := by
  have hrun : ∃ s₁ ∈ runFrom (timerPort.step timerStacks) bootContext [.build 1 (.thread 1000 2000)],
      s₁.running = 0 ∧ s₁.cpu.sp = 310 ∧ s₁.cpu.reg .rbx = 77 ∧
      AlongRun (timerPort.step timerStacks) (timerPort.LeavesFrame timerStacks 0 128)
        (SwitchPort.trapped timerTrap s₁ ⟨0x246, 8, 16⟩) (preemption s₁) ∧
      ∃ s₂ ∈ runFrom (timerPort.step timerStacks) s₁
        (.work (timerTrap.enter s₁.cpu ⟨0x246, 8, 16⟩).1 :: preemption s₁), s₂.cpu.sp = 128 := by
    decide +kernel
  obtain ⟨s₁, hs₁, hrunning, hsp, hrbx, hleaves, s₂, hs₂, hsp₂⟩ := hrun
  have hback := (interrupts_transparent ⟨1, 2, 3, 4⟩ 0 0 32 (.irqStub 0 32) none rfl).1 (Fin 2)
    timerStacks bootContext s₁ s₂ _ (preemption s₁) ⟨0x246, 8, 16⟩ ⟨0, 0, 0⟩ (fun _ ↦ rfl) hs₁ rfl
  rw [hrunning, hsp] at hback
  exact ⟨s₁, s₂, hs₁, hs₂, hrbx, hback (by decide) (by decide) hs₂ hleaves hsp₂ trivial⟩

end Witness

end MegKer.Kernel
