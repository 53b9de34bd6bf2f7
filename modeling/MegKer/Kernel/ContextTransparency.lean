import MegKer.Kernel.ContextSwitch
import Mathlib.Data.Fintype.Basic

/-!
# Context switching is transparent

The system of `Foundation.ContextSwitching` at the two ports: any number of contexts with stacks that
do not overlap, and any sequence of calls of `arch_context_switch` among them. A context that switched
away continues after its own call, with the callee-saved registers, the stack pointer and the stack it
had, and a context that was built starts in its trampoline with the values that the trampoline reads.
-/

set_option autoImplicit false
set_option relaxedAutoImplicit false

namespace MegKer.Kernel

open Foundation

/-! ### Arrival in a trampoline -/

theorem X86.arrives_of_continues {labels : Labels} {top : ℕ} {before cpu : Cpu X86.Reg}
    {launch : Launch}
    (h : (X86.port labels).Continues top ((X86.port labels).launched before top launch) cpu) :
    X86.Arrives labels top cpu launch := by
  have hr12 : cpu.reg .r12 = X86.launchReg launch .r12 := h.reg .r12 (by simp [X86.port])
  cases launch with
  | thread entry arg =>
    have hr13 : cpu.reg .r13 = arg := h.reg .r13 (by simp [X86.port])
    refine ⟨h.pc, h.sp, hr12, hr13, fun ret ↦ ?_⟩
    obtain ⟨hpc, hrdi, hinterrupts⟩ := X86.run_threadTrampoline cpu ret
    exact ⟨hpc.trans hr12, hrdi.trans hr13, hinterrupts⟩
  | process params =>
    change cpu.reg .r12 = params at hr12
    refine ⟨h.pc, h.sp, hr12, fun ret ↦ ?_⟩
    rw [← hr12]
    exact X86.run_processTrampoline labels cpu ret

theorem AArch64.arrives_of_continues {labels : Labels} {top : ℕ} {before cpu : Cpu AArch64.Reg}
    {launch : Launch}
    (h : (AArch64.port labels).Continues top ((AArch64.port labels).launched before top launch) cpu) :
    AArch64.Arrives labels top cpu launch := by
  have hx19 : cpu.reg 19 = AArch64.launchReg launch 19 := h.reg 19 (by simp [AArch64.port])
  cases launch with
  | thread entry arg =>
    have hx20 : cpu.reg 20 = arg := h.reg 20 (by simp [AArch64.port])
    refine ⟨h.pc, h.sp, hx19, hx20, fun ret ↦ ?_⟩
    obtain ⟨hpc, hx0, hinterrupts⟩ := AArch64.run_threadTrampoline cpu ret
    exact ⟨hpc.trans hx19, hx0.trans hx20, hinterrupts⟩
  | process params =>
    change cpu.reg 19 = params at hx19
    refine ⟨h.pc, h.sp, hx19, fun ret ↦ ?_⟩
    rw [← hx19]
    exact AArch64.run_processTrampoline labels cpu ret

/-! ### All runs -/

/-- Context switching on a port is transparent, for any number of contexts. `resumed`: a context
switches away, other contexts run, and the next switch to it returns from its own call; what the
routine recorded may be on its stack. `launched`: a context is built, other contexts run, and the
first switch to it arrives. -/
structure Transparent {R : Type} (port : SwitchPort R Launch) (Arrives : ℕ → Cpu R → Launch → Prop) :
    Prop where
  resumed : ∀ (ι : Type) [Fintype ι] [DecidableEq ι] (layout : StackLayout ι)
    (start s₁ s₂ s₃ s₄ : SwitchState R ι) (before between : List (SwitchAction R Launch ι))
    (c : ι) (ret ret' : ℕ),
    (∀ i, start.suspended i = none) →
    runFrom (port.step layout) start before = some s₁ →
    port.step layout s₁ (.switch c ret) = some s₂ →
    runFrom (port.step layout) s₂ between = some s₃ →
    (∀ a ∈ between, a.target ≠ some s₁.running) →
    port.step layout s₃ (.switch s₁.running ret') = some s₄ →
      s₄.running = s₁.running ∧ s₄.cpu.pc = ret ∧ s₄.cpu.sp = s₁.cpu.sp ∧
      (∀ r ∈ port.saved, s₄.cpu.reg r = port.called s₁.cpu.reg ret r) ∧
      ∀ a, s₁.cpu.sp ≤ a → a < (layout.stack s₁.running).top → a ≠ s₁.cpu.reg port.slotArg →
        s₄.cpu.mem a = s₁.cpu.mem a
  launched : ∀ (ι : Type) [Fintype ι] [DecidableEq ι] (layout : StackLayout ι)
    (start s₁ s₂ s₃ s₄ : SwitchState R ι) (before between : List (SwitchAction R Launch ι))
    (c : ι) (launch : Launch) (ret : ℕ),
    (∀ i, start.suspended i = none) →
    runFrom (port.step layout) start before = some s₁ →
    port.step layout s₁ (.build c launch) = some s₂ →
    runFrom (port.step layout) s₂ between = some s₃ →
    (∀ a ∈ between, a.target ≠ some c) →
    port.step layout s₃ (.switch c ret) = some s₄ →
      s₄.running = c ∧ Arrives (layout.stack c).top s₄.cpu launch

theorem transparent_of_correct {R : Type} {port : SwitchPort R Launch}
    {Arrives : ℕ → Cpu R → Launch → Prop} (hcorrect : port.Correct)
    (harrives : ∀ {top before cpu launch},
      port.Continues top (port.launched before top launch) cpu → Arrives top cpu launch) :
    Transparent port Arrives where
  resumed ι _ _ layout start s₁ s₂ s₃ s₄ before between c ret ret' hstart hbefore haway hbetween
      hother hback := by
    have h := SwitchPort.resumes_of_run hcorrect hstart hbefore haway hbetween hother hback
    obtain ⟨-, rfl⟩ := SwitchPort.step_eq_some hback
    refine ⟨rfl, h.pc, h.sp, h.reg, fun a hlow hhigh hne ↦ ?_⟩
    exact (h.stack a hlow hhigh).trans (WordMemory.store_of_ne _ _ hne)
  launched ι _ _ layout start s₁ s₂ s₃ s₄ before between c launch ret hstart hbefore hbuild hbetween
      hother hswitch := by
    have h := SwitchPort.launches_of_run hcorrect hstart hbefore hbuild hbetween hother hswitch
    obtain ⟨-, rfl⟩ := SwitchPort.step_eq_some hswitch
    exact ⟨rfl, harrives h⟩

/-- Context switching is transparent on both ports. -/
theorem contextSwitch_transparent (labels : Labels) :
    Transparent (X86.port labels) (X86.Arrives labels) ∧
      Transparent (AArch64.port labels) (AArch64.Arrives labels) :=
  ⟨transparent_of_correct (X86.port_correct labels) X86.arrives_of_continues,
    transparent_of_correct (AArch64.port_correct labels) AArch64.arrives_of_continues⟩

/-- Stacks of 64 bytes, one behind the other. -/
def smallStacks (n : ℕ) (hn : n < 2 ^ 32) : StackLayout (Fin n) where
  stack i := ⟨64 * i, 64 * i + 64, by omega, by omega, by omega⟩
  disjoint hi hi' hj hj' := by
    simp only at hi hi' hj hj'
    omega

-- The boot context 0 builds the thread 1 and switches to it; the thread changes a register and its
-- stack, and switches back.
example :
    let step := (X86.port ⟨1, 2, 3, 4⟩).step (smallStacks 2 (by decide))
    let args := fun r ↦ match r with
      | X86.Reg.rdi => 200
      | X86.Reg.rsi => 72
      | _ => 9
    ((runFrom step ⟨⟨args, 64, 0, true, fun _ ↦ 5⟩, 0, fun _ ↦ none⟩
      [.build 1 (.thread 1000 2000), .switch 1 500]).bind fun s ↦
        runFrom step s [.work (((s.cpu.set .rsi 8).set .r12 0).setMem (s.cpu.mem.store 120 77)),
          .switch 0 600]).map (fun s ↦ (s.running, s.cpu.pc, s.cpu.sp, s.cpu.reg .r12)) =
      some (0, 500, 64, 9) := by
  decide +kernel

end MegKer.Kernel
