import MegKer.Foundation.ContextSwitching

/-!
# Traps between context switches

A trap stops the running context at any instruction. The processor and some code save what the context
has on its stack, in a frame from which other code later restores it. `TrapPort` is such a pair of
entry and exit, and `TrapPort.Correct` says which words the entry writes and that the exit gives back
what a frame says. Besides the registers of `Cpu` a trap saves a status of type `K`, which is part of
the state `S` that the entry and the exit work on.

Behind the entry the handler runs, and it may switch contexts. In the system of `ContextSwitching` the
context that was stopped is then one of several, and others run, compute and switch until it is switched
back to. `FrameKept` is the invariant of such a run: the words of a stack from some address up stay, and
the context that owns them either runs or is suspended below them. It needs that the owner itself leaves
them alone (`LeavesFrame`); all the others cannot reach them. So the stopped context comes back as it was
(`resumesAt_of_run`).
-/

set_option autoImplicit false
set_option relaxedAutoImplicit false

namespace MegKer.Foundation

/-- How a trap is entered, up to its handler, and left, behind the handler. -/
structure TrapPort (R S K : Type) where
  /-- The part of the state that comes back. -/
  kept : S → K
  /-- When a trap stays on the stack of the context that it stops. -/
  sameStack : K → Prop
  /-- The words of a frame from its low end, for the registers, the stack pointer and the next
  instruction of the context that is stopped. -/
  frame : (R → ℕ) → (sp pc : ℕ) → K → List ℕ
  /-- How far below the stack pointer the entry may write. -/
  reach : ℕ
  /-- Where the frame starts. -/
  entrySp : ℕ → ℕ
  enter : Cpu R → S → Cpu R × S
  leave : Cpu R → S → Cpu R × S

namespace TrapPort

variable {R S K : Type} (trap : TrapPort R S K)

/-- What the entry and the exit do. -/
structure Correct : Prop where
  entry_low : ∀ sp, trap.reach ≤ sp → sp ≤ trap.entrySp sp + trap.reach
  entry_high : ∀ reg sp pc k, trap.reach ≤ sp →
    trap.entrySp sp + 8 * (trap.frame reg sp pc k).length ≤ sp
  /-- The entry writes the frame, and nothing else below or above it. -/
  saves : ∀ cpu state, trap.sameStack (trap.kept state) → trap.reach ≤ cpu.sp → cpu.sp < 2 ^ 64 →
    (trap.enter cpu state).1.sp = trap.entrySp cpu.sp ∧
    FrameAt (trap.enter cpu state).1.mem (trap.entrySp cpu.sp)
      (trap.frame cpu.reg cpu.sp cpu.pc (trap.kept state)) ∧
    ∀ a, a < trap.entrySp cpu.sp ∨ cpu.sp ≤ a → (trap.enter cpu state).1.mem a = cpu.mem a
  /-- The exit gives back what a frame says. -/
  restores : ∀ cpu state reg sp pc k, trap.sameStack k → trap.reach ≤ sp → sp < 2 ^ 64 →
    cpu.sp = trap.entrySp sp → FrameAt cpu.mem cpu.sp (trap.frame reg sp pc k) →
      (trap.leave cpu state).1.reg = reg ∧ (trap.leave cpu state).1.sp = sp ∧
      (trap.leave cpu state).1.pc = pc ∧ (trap.leave cpu state).1.mem = cpu.mem ∧
      trap.kept (trap.leave cpu state).2 = k

/-- A processor is as it was at a trap: all registers, the stack pointer, the next instruction, the
status, and the stack up to its top. -/
structure ResumesAt (top : ℕ) (stopped : Cpu R × S) (back : Cpu R × S) : Prop where
  reg : back.1.reg = stopped.1.reg
  sp : back.1.sp = stopped.1.sp
  pc : back.1.pc = stopped.1.pc
  kept : trap.kept back.2 = trap.kept stopped.2
  stack : ∀ a, stopped.1.sp ≤ a → a < top → back.1.mem a = stopped.1.mem a

variable {trap}

/-- A handler that keeps the stack from the frame up comes back to the context that was stopped. -/
theorem Correct.resumesAt (h : trap.Correct) {top : ℕ} {cpu back : Cpu R} {state state' : S}
    (hstack : trap.sameStack (trap.kept state)) (hroom : trap.reach ≤ cpu.sp) (hsp : cpu.sp < 2 ^ 64)
    (htop : cpu.sp ≤ top) (hback : back.sp = trap.entrySp cpu.sp)
    (hmem : ∀ a, trap.entrySp cpu.sp ≤ a → a < top → back.mem a = (trap.enter cpu state).1.mem a) :
    trap.ResumesAt top (cpu, state) (trap.leave back state') := by
  obtain ⟨-, hframe, hout⟩ := h.saves cpu state hstack hroom hsp
  have hhigh := h.entry_high cpu.reg cpu.sp cpu.pc (trap.kept state) hroom
  have hwords : FrameAt back.mem back.sp (trap.frame cpu.reg cpu.sp cpu.pc (trap.kept state)) := by
    rw [hback]
    exact hframe.congr fun a hlow hlt ↦ hmem a hlow (by omega)
  obtain ⟨hreg, hsp', hpc, hmem', hkept⟩ := h.restores back state' _ _ _ _ hstack hroom hsp hback hwords
  refine ⟨hreg, hsp', hpc, hkept, fun a (hlow : cpu.sp ≤ a) hlt ↦ ?_⟩
  rw [hmem', hmem a (by omega) hlt]
  exact hout a (Or.inr hlow)

end TrapPort

namespace SwitchPort

variable {R L ι : Type} (port : SwitchPort R L) (layout : StackLayout ι)

/-! ### A frame among many contexts -/

/-- What the owner of some words at the top of its stack does while they are there: it computes without
writing to them, and switches away with its stack pointer below them and with that recorded somewhere
else. A new context is not built on this stack. -/
def LeavesFrame (owner : ι) (low : ℕ) (s : SwitchState R ι) : SwitchAction R L ι → Prop
  | .work cpu => s.running = owner →
      ∀ a < (layout.stack owner).top, low ≤ a → cpu.mem a = s.cpu.mem a
  | .build c _ => c ≠ owner
  | .switch _ _ => s.running = owner →
      s.cpu.sp ≤ low ∧ (s.cpu.reg port.slotArg < low ∨ (layout.stack owner).top ≤ s.cpu.reg port.slotArg)

variable [DecidableEq ι]

instance (owner : ι) (low : ℕ) (s : SwitchState R ι) :
    (action : SwitchAction R L ι) → Decidable (port.LeavesFrame layout owner low s action)
  | .work cpu => inferInstanceAs (Decidable (s.running = owner →
      ∀ a < (layout.stack owner).top, low ≤ a → cpu.mem a = s.cpu.mem a))
  | .build c _ => inferInstanceAs (Decidable (c ≠ owner))
  | .switch _ _ => inferInstanceAs (Decidable (s.running = owner → s.cpu.sp ≤ low ∧
      (s.cpu.reg port.slotArg < low ∨ (layout.stack owner).top ≤ s.cpu.reg port.slotArg)))

/-- The words at the top of a stack are still there, and their owner runs or is suspended below. -/
structure FrameKept (owner : ι) (low : ℕ) (contents : WordMemory) (s : SwitchState R ι) : Prop where
  intact : port.FramesIntact layout s
  below : s.running = owner ∨ ∃ t ∈ s.suspended owner, t.sp ≤ low
  kept : ∀ a, low ≤ a → a < (layout.stack owner).top → s.cpu.mem a = contents a

variable {port layout} {owner : ι} {low : ℕ} {contents : WordMemory} {s s' : SwitchState R ι}

/-- What a step leaves alone on the stack of a context. -/
theorem FrameKept.mem_step [Fintype ι] (hcorrect : port.Correct)
    (h : port.FrameKept layout owner low contents s) {action : SwitchAction R L ι}
    (hbase : (layout.stack owner).base ≤ low)
    (hleaves : port.LeavesFrame layout owner low s action)
    (hstep : port.step layout s action = some s') {a : ℕ} (hlow : low ≤ a)
    (hhigh : a < (layout.stack owner).top) : s'.cpu.mem a = s.cpu.mem a := by
  obtain ⟨hpossible, rfl⟩ := step_eq_some hstep
  cases action with
  | work cpu =>
    rcases h.below with hrunning | ⟨t, ht, hsp⟩
    · exact hleaves hrunning a hhigh hlow
    · exact hpossible owner t ht a hhigh (hsp.trans hlow)
  | build c launch =>
    obtain ⟨-, hroom⟩ := hpossible
    refine hcorrect.build_of_outside (by omega) (layout.stack c).top_lt ?_
    by_contra hframe
    rw [not_or, Nat.not_lt, Nat.not_le] at hframe
    exact hleaves (layout.disjoint (by omega) (by omega) (hbase.trans hlow) hhigh)
  | switch c ret =>
    rcases h.below with rfl | ⟨t, ht, hsp⟩
    · obtain ⟨hbelow, hslot⟩ := hleaves rfl
      obtain ⟨-, ⟨hroom, htop, -⟩, -⟩ := hpossible
      exact hcorrect.keeps (by omega) (htop.trans_lt (layout.stack s.running).top_lt)
        (Or.inr (hbelow.trans hlow)) (by omega)
    · have hne : owner ≠ s.running := by
        rintro rfl
        rw [h.intact.running] at ht
        cases ht
      exact contextSwitch_of_suspended hcorrect hpossible ht hne (h.intact.intact owner t ht).base_le
        (hsp.trans hlow) hhigh

theorem frameKept_step [Fintype ι] (hcorrect : port.Correct)
    (h : port.FrameKept layout owner low contents s) {action : SwitchAction R L ι}
    (hbase : (layout.stack owner).base ≤ low)
    (hleaves : port.LeavesFrame layout owner low s action)
    (hstep : port.step layout s action = some s') :
    port.FrameKept layout owner low contents s' := by
  refine ⟨framesIntact_step hcorrect h.intact hstep, ?_, fun a hlow hhigh ↦ ?_⟩
  · have hpossible := (step_eq_some hstep).1
    by_cases htarget : action.target = some owner
    · cases action with
      | work cpu => cases htarget
      | build c launch => exact absurd (Option.some.inj htarget) hleaves
      | switch c ret =>
        obtain ⟨-, rfl⟩ := step_eq_some hstep
        exact Or.inl (Option.some.inj htarget)
    · rcases h.below with rfl | ⟨t, ht, hsp⟩
      · cases action with
        | work cpu =>
          obtain ⟨-, rfl⟩ := step_eq_some hstep
          exact Or.inl rfl
        | build c launch =>
          obtain ⟨-, rfl⟩ := step_eq_some hstep
          exact Or.inl rfl
        | switch c ret =>
          obtain ⟨-, rfl⟩ := step_eq_some hstep
          have hne : s.running ≠ c := fun heq ↦ htarget (congrArg some heq.symm)
          refine Or.inr ⟨_, suspended_switch_running hne, ?_⟩
          obtain ⟨-, ⟨hroom, htop, -⟩, -⟩ := hpossible
          change (port.contextSwitch s.cpu ret).mem (s.cpu.reg port.slotArg) ≤ low
          rw [hcorrect.records (by omega) (htop.trans_lt (layout.stack s.running).top_lt)]
          exact (Nat.sub_le _ _).trans (hleaves rfl).1
      · exact Or.inr ⟨t, suspended_step h.intact hstep ht htarget, hsp⟩
  · rw [h.mem_step hcorrect hbase hleaves hstep hlow hhigh, h.kept a hlow hhigh]

theorem frameKept_run [Fintype ι] (hcorrect : port.Correct)
    (h : port.FrameKept layout owner low contents s) (hbase : (layout.stack owner).base ≤ low)
    {actions : List (SwitchAction R L ι)}
    (hleaves : AlongRun (port.step layout) (port.LeavesFrame layout owner low) s actions)
    (hrun : runFrom (port.step layout) s actions = some s') :
    port.FrameKept layout owner low contents s' :=
  invariant_runFrom (fun hkept hleaves hstep ↦ frameKept_step hcorrect hkept hbase hleaves hstep) h
    hleaves hrun

/-! ### Preemption -/

variable {S K : Type} {trap : TrapPort R S K}

/-- The system at the handler of a trap. -/
def trapped (trap : TrapPort R S K) (s : SwitchState R ι) (state : S) : SwitchState R ι :=
  { s with cpu := (trap.enter s.cpu state).1 }

/-- The entry of a trap is something that the running context may do. -/
theorem step_trapped [Fintype ι] (htrap : trap.Correct) (h : port.FramesIntact layout s) {state : S}
    (hstack : trap.sameStack (trap.kept state))
    (hroom : (layout.stack s.running).base + trap.reach ≤ s.cpu.sp)
    (htop : s.cpu.sp ≤ (layout.stack s.running).top) :
    port.step layout s (.work (trap.enter s.cpu state).1) = some (trapped trap s state) := by
  refine if_pos fun i t ht a hhigh hlow ↦ ?_
  have hsp := htop.trans_lt (layout.stack s.running).top_lt
  obtain ⟨-, -, hout⟩ := htrap.saves s.cpu state hstack (by omega) hsp
  refine hout a ?_
  by_contra hframe
  rw [not_or, Nat.not_lt, Nat.not_le] at hframe
  have hentry := htrap.entry_low s.cpu.sp (by omega)
  have hbase := (h.intact i t ht).base_le
  have hi : i = s.running :=
    layout.disjoint (hbase.trans hlow) hhigh (by omega) (by omega)
  rw [hi, h.running] at ht
  cases ht

/-- A context that a trap stops continues behind it as it was, whatever the contexts do in between, as
long as the handler itself leaves the stack from the frame up alone. -/
theorem resumesAt_of_run [Fintype ι] (hcorrect : port.Correct) (htrap : trap.Correct)
    {start s₁ s₂ : SwitchState R ι} {before during : List (SwitchAction R L ι)} {state state' : S}
    (hstart : ∀ i, start.suspended i = none)
    (hbefore : runFrom (port.step layout) start before = some s₁) (hstack : trap.sameStack (trap.kept state))
    (hroom : (layout.stack s₁.running).base + trap.reach ≤ s₁.cpu.sp)
    (htop : s₁.cpu.sp ≤ (layout.stack s₁.running).top)
    (hduring : runFrom (port.step layout) (trapped trap s₁ state) during = some s₂)
    (hleaves : AlongRun (port.step layout)
      (port.LeavesFrame layout s₁.running (trap.entrySp s₁.cpu.sp)) (trapped trap s₁ state) during)
    (hsp : s₂.cpu.sp = trap.entrySp s₁.cpu.sp) :
    trap.ResumesAt (layout.stack s₁.running).top (s₁.cpu, state) (trap.leave s₂.cpu state') := by
  have hintact := framesIntact_run hcorrect hstart hbefore
  have hentered := framesIntact_step hcorrect hintact (step_trapped htrap hintact hstack hroom htop)
  have hreach : trap.reach ≤ s₁.cpu.sp := by omega
  have hentry := htrap.entry_low s₁.cpu.sp hreach
  have hkept : port.FrameKept layout s₁.running (trap.entrySp s₁.cpu.sp)
      (trap.enter s₁.cpu state).1.mem (trapped trap s₁ state) :=
    ⟨hentered, Or.inl rfl, fun a _ _ ↦ rfl⟩
  have hend := frameKept_run hcorrect hkept (by omega) hleaves hduring
  exact htrap.resumesAt hstack hreach (htop.trans_lt (layout.stack s₁.running).top_lt) htop hsp hend.kept

end SwitchPort

end MegKer.Foundation
