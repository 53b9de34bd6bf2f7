import MegKer.Process.UserEntry
import MegKer.Kernel.StackAlignment
import MegKer.Foundation.SignedWord
import Mathlib.Logic.Relation

/-!
# The lifetime of a process on aarch64

What happens between the call of `arch_context_switch` in `process_run` and its return. There is no task
state segment here: an exception from EL0 arrives on whatever stack pointer EL1 had at the last `eret`, so
the launch stack serves all interrupts and system calls of the process. It must be empty again at every
`eret`, and the stack pointer of EL0 is in a register that `kernel_entry` does not save.

`UserStep` is a step of the process: it computes, it is interrupted through entry 9 of the vector table, or
it makes a system call through entry 8 that returns. `aarch64SvcHandler` says what a system call does. The
invariant `UserMode` holds in all runs: EL0 with interrupts enabled, and the whole launch stack ready for
the next exception. A process that exits leaves its last exception behind, and `process_run` goes on with
its own registers and stack, and with interrupts masked (`exit_resumes_processRun`).
-/

set_option autoImplicit false
set_option relaxedAutoImplicit false

namespace MegKer.Process.AArch64

open Foundation Kernel Kernel.AArch64

/-! ### The code -/

/-- What `aarch64_svc_handler` does with an `aarch64_regs_t`: it calls `process_syscall_exit`, or it perhaps
writes the string at an address to the UART and stores a new `x0`. -/
inductive SvcOutcome
  | exit (code : ℤ)
  | returns (write : Option ℕ) (x0 : ℕ)
  deriving DecidableEq, Repr

def aarch64SvcHandler (reg : Reg → ℕ) : SvcOutcome :=
  if reg 8 = 0 then .exit (i32 (reg 0))
  else if reg 8 = 1 then .returns (some (reg 0)) 0
  else .returns none (2 ^ 64 - 1)

/-- The address of an entry of `vector_table`. -/
def vectorEntry (vectorTable index : ℕ) : ℕ := vectorTable + 0x80 * index

/-- From the call of `arch_context_switch` in `process_run` to the first instruction of
`enter_usermode`. -/
def toEnterUsermode (labels : Labels) (ret ret' : ℕ) (s : Machine) : Machine :=
  (run (processTrampoline labels ret') ((port labels).contextSwitch s.1 ret), s.2)

/-! ### The caller -/

/-- The caller of `arch_context_switch` in `process_run`: its stack pointer and the top of its stack, the
address of `kernel_return_sp`, and the launch stack. -/
structure CallerSide where
  sp : ℕ
  top : ℕ
  slot : ℕ
  launchBase : ℕ
  sp_room : 96 ≤ sp
  sp_le : sp ≤ top
  top_lt : top < 2 ^ 64
  launch_lt : launchBase + launchStackSize < 2 ^ 64
  stacks_disjoint : launchBase + launchStackSize ≤ sp - 96 ∨ top ≤ launchBase
  slot_off_stack : slot < sp - 96 ∨ top ≤ slot
  slot_off_launch : slot < launchBase ∨ launchBase + launchStackSize ≤ slot

namespace CallerSide

variable (caller : CallerSide)

/-- The top of the launch stack. -/
def launchTop : ℕ := caller.launchBase + launchStackSize

/-- The words that the way back needs are the same: the frame and the stack of the caller, and
`kernel_return_sp`. -/
abbrev Keeps (mem mem' : WordMemory) : Prop :=
  SameStack (caller.sp - 96) caller.top caller.slot mem mem'

variable {caller} {mem mem' : WordMemory}

/-- What is written on the launch stack is none of the caller's. -/
theorem keeps_of_launchStack
    (h : ∀ a, a < caller.launchBase ∨ caller.launchTop ≤ a → mem' a = mem a) : caller.Keeps mem mem' :=
  SameStack.of_between caller.stacks_disjoint caller.slot_off_launch h

end CallerSide

/-! ### The process -/

/-- An exception of the process, up to the call of its C handler. -/
def entered (vectorTable index : ℕ) (s : Machine) : Machine :=
  exceptionEntry (vectorEntry vectorTable index) s.1 s.2

/-- The `aarch64_regs_t` of an exception of the process, with other general registers. -/
def registers (s : Machine) (reg : Reg → ℕ) : List ℕ := aarch64RegsT reg s.1.pc s.2.pstate

/-- The C code behind an exception of the process returns: its stack pointer is back, the frame has these
words, and neither the stack pointer of EL0 nor the caller of the process is touched. -/
structure SvcReturns (caller : CallerSide) (entered back : Machine) (words : List ℕ) : Prop where
  sp : back.1.sp = entered.1.sp
  frame : FrameAt back.1.mem back.1.sp words
  bankedSp : back.2.bankedSp = entered.2.bankedSp
  keeps : caller.Keeps entered.1.mem back.1.mem

/-- A step of the process. Its own instructions change neither the exception level nor the mask of
interrupts, which are not EL0's to write. -/
inductive UserStep (caller : CallerSide) (vectorTable : ℕ) : Machine → Machine → Prop
  | compute {s : Machine} {cpu : Cpu Reg} {pstate : ℕ} (hkeeps : caller.Keeps s.1.mem cpu.mem)
      (hinterrupts : cpu.interrupts = s.1.interrupts)
      (hlevel : exceptionLevel pstate = exceptionLevel s.2.pstate)
      (hmask : pstate.testBit 7 = s.2.pstate.testBit 7) :
      UserStep caller vectorTable s (cpu, { s.2 with pstate := pstate })
  | interrupt {s back : Machine}
      (hreturns : SvcReturns caller (entered vectorTable 9 s) back (registers s s.1.reg)) :
      UserStep caller vectorTable s (exceptionExit back.1 back.2)
  | systemCall {s back : Machine} {write : Option ℕ} {value : ℕ}
      (hsvc : aarch64SvcHandler s.1.reg = .returns write value)
      (hreturns : SvcReturns caller (entered vectorTable 8 s) back
        (registers s (Function.update s.1.reg 0 value))) :
      UserStep caller vectorTable s (exceptionExit back.1 back.2)

/-- The processor is in the process, the launch stack is empty, and the caller is as it was. -/
structure UserMode (caller : CallerSide) (mem : WordMemory) (s : Machine) : Prop where
  level : exceptionLevel s.2.pstate = 0
  unmasked : s.2.pstate.testBit 7 = false
  interrupts : s.1.interrupts = true
  launchStack : s.2.bankedSp = caller.launchTop
  keeps : caller.Keeps mem s.1.mem

/-- The instructions of an entry do not enable interrupts. -/
theorem trapRun_interrupts {code : List TrapInstr} (hcode : ∀ instr ∈ code, instr ≠ .base .daifclr)
    (s : Machine) : (trapRun code s).1.interrupts = s.1.interrupts := by
  induction code generalizing s with
  | nil => rfl
  | cons instr code ih =>
    obtain ⟨hinstr, hrest⟩ := List.forall_mem_cons.mp hcode
    have hone : (trapExec s instr).1.interrupts = s.1.interrupts := by
      cases instr with
      | base instr => cases instr <;> first | rfl | exact absurd rfl hinstr
      | _ => rfl
    exact (ih hrest (trapExec s instr)).trans hone

section Steps

variable {caller : CallerSide} {vectorTable index : ℕ} {mem : WordMemory} {s s' back : Machine}

/-- An exception of the process arrives on the empty launch stack, with interrupts masked. -/
theorem UserMode.entered_spec (h : UserMode caller mem s) (vectorTable index : ℕ) :
    (entered vectorTable index s).1.sp = caller.launchTop - 272 ∧
    FrameAt (entered vectorTable index s).1.mem (caller.launchTop - 272) (registers s s.1.reg) ∧
    (entered vectorTable index s).2.bankedSp = s.1.sp ∧
    (entered vectorTable index s).1.interrupts = false ∧
    caller.Keeps s.1.mem (entered vectorTable index s).1.mem := by
  have hlt := caller.launch_lt
  have htaken : (takeException (vectorEntry vectorTable index) s.1 s.2).1.sp = caller.launchTop := by
    simp [takeException, h.level, h.launchStack]
  have hbanked : (takeException (vectorEntry vectorTable index) s.1 s.2).2.bankedSp = s.1.sp := by
    simp [takeException, h.level]
  have hsize : caller.launchTop = caller.launchBase + 16384 := rfl
  have hsize' : launchStackSize = 16384 := rfl
  obtain ⟨hsp, hframe, hout⟩ := @kernelEntry_spec
    (takeException (vectorEntry vectorTable index) s.1 s.2).1
    (takeException (vectorEntry vectorTable index) s.1 s.2).2
    (by rw [htaken]; omega) (by rw [htaken]; omega)
  rw [htaken] at hsp hframe hout
  refine ⟨hsp, hframe, ?_, ?_, CallerSide.keeps_of_launchStack fun a ha ↦ hout a (by omega)⟩
  · rw [entered, exceptionEntry, trapRun_bankedSp, hbanked]
  · rw [entered, exceptionEntry, trapRun_interrupts (by simp [kernelEntry])]
    rfl

/-- What a handler returns to is what its frame says, and the launch stack is empty again. -/
theorem UserMode.resumed_spec (h : UserMode caller mem s) {reg : Reg → ℕ}
    (hreturns : SvcReturns caller (entered vectorTable index s) back (registers s reg)) :
    exceptionExit back.1 back.2 =
      (⟨reg, s.1.sp, s.1.pc, true, back.1.mem⟩, ⟨s.1.pc, s.2.pstate, s.2.pstate, caller.launchTop⟩) ∧
    caller.Keeps s.1.mem back.1.mem := by
  obtain ⟨hsp, -, hbanked, -, hkeeps⟩ := h.entered_spec vectorTable index
  have hlt := caller.launch_lt
  have hsize : caller.launchTop = caller.launchBase + 16384 := rfl
  have hsize' : launchStackSize = 16384 := rfl
  have hback : back.1.sp = caller.launchTop - 272 := hreturns.sp.trans hsp
  obtain ⟨hreg, hexitSp, hmem, hstate⟩ :=
    @kernelExit_spec back.1 back.2 _ _ _ (by omega) hreturns.frame
  have hroom : caller.launchTop - 272 + 272 = caller.launchTop := by omega
  refine ⟨?_, hkeeps.trans hreturns.keeps⟩
  simp only [exceptionExit, eret, hreg, hexitSp, hmem, hstate, h.level, h.unmasked, if_true,
    hreturns.bankedSp, hbanked, hback, hroom, Bool.not_false]

/-- A step of the process that is not its own computation changes `x0` at most, and that to what the
system call returns. -/
theorem userStep_visible (h : UserMode caller mem s) (hstep : UserStep caller vectorTable s s') :
    (∃ cpu pstate, s' = (cpu, { s.2 with pstate := pstate }) ∧ exceptionLevel pstate = 0 ∧
      pstate.testBit 7 = false ∧ cpu.interrupts = true ∧ caller.Keeps s.1.mem cpu.mem) ∨
    ∃ reg mem', s' = (⟨reg, s.1.sp, s.1.pc, true, mem'⟩,
        ⟨s.1.pc, s.2.pstate, s.2.pstate, caller.launchTop⟩) ∧
      caller.Keeps s.1.mem mem' ∧
      (reg = s.1.reg ∨ ∃ write value, aarch64SvcHandler s.1.reg = .returns write value ∧
        reg = Function.update s.1.reg 0 value) := by
  cases hstep with
  | compute hkeeps hinterrupts hlevel hmask =>
    exact Or.inl ⟨_, _, rfl, hlevel.trans h.level, hmask.trans h.unmasked,
      hinterrupts.trans h.interrupts, hkeeps⟩
  | interrupt hreturns =>
    obtain ⟨heq, hkeeps⟩ := h.resumed_spec hreturns
    exact Or.inr ⟨_, _, heq, hkeeps, Or.inl rfl⟩
  | systemCall hsvc hreturns =>
    obtain ⟨heq, hkeeps⟩ := h.resumed_spec hreturns
    exact Or.inr ⟨_, _, heq, hkeeps, Or.inr ⟨_, _, hsvc, rfl⟩⟩

theorem userMode_step (h : UserMode caller mem s) (hstep : UserStep caller vectorTable s s') :
    UserMode caller mem s' := by
  rcases userStep_visible h hstep with
    ⟨cpu, pstate, rfl, hlevel, hmask, hinterrupts, hkeeps⟩ | ⟨reg, mem', rfl, hkeeps, -⟩
  · exact ⟨hlevel, hmask, hinterrupts, h.launchStack, h.keeps.trans hkeeps⟩
  · exact ⟨h.level, h.unmasked, rfl, rfl, h.keeps.trans hkeeps⟩

theorem userMode_run (h : UserMode caller mem s)
    (hrun : Relation.ReflTransGen (UserStep caller vectorTable) s s') : UserMode caller mem s' := by
  induction hrun with
  | refl => exact h
  | tail _ hstep ih => exact userMode_step ih hstep

end Steps

/-! ### The way in -/

/-- The call of `arch_context_switch` in `process_run`, with the launch stack as `build_launch_stack`
left it and the `launch_params_t` on the caller's stack. The kernel runs in EL1 with interrupts
enabled. -/
structure LaunchCall (labels : Labels) (caller : CallerSide) (s : Machine)
    (params entry userStack : ℕ) : Prop where
  sp : s.1.sp = caller.sp
  slot : s.1.reg 0 = caller.slot
  newSp : s.1.reg 1 = caller.launchTop - 96
  frame : FrameAt s.1.mem (caller.launchTop - 96)
    (AArch64.frame (launchReg (.process params)) (launchPc labels (.process params)))
  params_low : caller.sp ≤ params
  params_high : params + 16 ≤ caller.top
  words : FrameAt s.1.mem params [entry, userStack]
  level : exceptionLevel s.2.pstate = 1
  unmasked : s.2.pstate.testBit 7 = false

section Return

variable {labels : Labels} {caller : CallerSide} {s : Machine} {params entry userStack ret ret' : ℕ}

/-- The switch leaves the frame of the caller on its stack, and records where. -/
theorem LaunchCall.switch_spec (h : LaunchCall labels caller s params entry userStack) (ret : ℕ) :
    FrameAt ((port labels).contextSwitch s.1 ret).mem (caller.sp - 96) (AArch64.frame s.1.reg ret) ∧
    ((port labels).contextSwitch s.1 ret).mem caller.slot = caller.sp - 96 ∧
    (∀ a, a < caller.sp - 96 ∨ caller.sp ≤ a → a ≠ caller.slot →
      ((port labels).contextSwitch s.1 ret).mem a = s.1.mem a) ∧
    ((port labels).contextSwitch s.1 ret).sp = caller.launchTop ∧
    ((port labels).contextSwitch s.1 ret).reg 19 = params := by
  have hcorrect := port_correct labels
  have hroom : (port labels).frameBytes ≤ s.1.sp := by rw [h.sp]; exact caller.sp_room
  have hlt : s.1.sp < 2 ^ 64 := by rw [h.sp]; exact caller.sp_le.trans_lt caller.top_lt
  have hslot : s.1.reg (port labels).slotArg = caller.slot := h.slot
  have hnewSp : s.1.reg (port labels).spArg = caller.launchTop - 96 := h.newSp
  have hoff := caller.slot_off_stack
  have hframe : FrameAt ((port labels).contextSwitch s.1 ret).mem (s.1.sp - 96)
      (AArch64.frame s.1.reg ret) :=
    hcorrect.frameAt_contextSwitch hroom hlt
      (by rw [hslot, h.sp]; exact hoff.imp_right caller.sp_le.trans)
  have hrecords : ((port labels).contextSwitch s.1 ret).mem (s.1.reg (port labels).slotArg) =
      s.1.sp - 96 := hcorrect.records hroom hlt
  have hkeeps {a : ℕ} (ha : a < caller.sp - 96 ∨ caller.sp ≤ a) (hne : a ≠ caller.slot) :
      ((port labels).contextSwitch s.1 ret).mem a = s.1.mem a :=
    hcorrect.keeps hroom hlt (by rw [h.sp]; exact ha) (by rw [hslot]; exact hne)
  have hdisjoint := caller.stacks_disjoint
  have hbelow := caller.slot_off_launch
  have htop := caller.sp_le
  have hlaunchLt := caller.launch_lt
  have hsize : caller.launchTop = caller.launchBase + 16384 := rfl
  have hsize' : launchStackSize = 16384 := rfl
  have hlaunch : FrameAt ((port labels).contextSwitch s.1 ret).mem (caller.launchTop - 96)
      (AArch64.frame (launchReg (.process params)) (launchPc labels (.process params))) := by
    refine h.frame.congr fun a hlow hhigh ↦ ?_
    change a < caller.launchTop - 96 + 8 * 12 at hhigh
    exact hkeeps (by omega) (by omega)
  obtain ⟨hreg, hsp, -⟩ := hcorrect.restores s.1 ret (launchReg (.process params))
    (launchPc labels (.process params))
    (by rw [hnewSp]; change caller.launchTop - 96 + 96 < 2 ^ 64; omega)
    (by rw [hnewSp]; exact hlaunch)
  rw [h.sp] at hframe hrecords
  rw [hslot] at hrecords
  rw [hnewSp] at hsp
  have hreg19 : ((port labels).contextSwitch s.1 ret).reg 19 =
      (port labels).called (launchReg (.process params)) (launchPc labels (.process params)) 19 :=
    hreg 19 (by simp [port])
  refine ⟨hframe, hrecords, fun a ha hne ↦ hkeeps ha hne, ?_, hreg19⟩
  rw [hsp]
  change caller.launchTop - 96 + 96 = caller.launchTop
  omega

/-- `enter_usermode` is called with its two arguments, on the empty launch stack. -/
theorem LaunchCall.arrives (h : LaunchCall labels caller s params entry userStack) (ret ret' : ℕ) :
    (toEnterUsermode labels ret ret' s).1.pc = labels.enterUsermode ∧
    (toEnterUsermode labels ret ret' s).1.reg 0 = entry ∧
    (toEnterUsermode labels ret ret' s).1.reg 1 = userStack ∧
    (toEnterUsermode labels ret ret' s).1.sp = caller.launchTop ∧
    (toEnterUsermode labels ret ret' s).1.mem = ((port labels).contextSwitch s.1 ret).mem := by
  obtain ⟨-, -, hkeeps, hsp, hreg19⟩ := h.switch_spec ret
  obtain ⟨hpc, hentry, hstack⟩ :=
    run_processTrampoline labels ((port labels).contextSwitch s.1 ret) ret'
  have hlow := h.params_low
  have hhigh := h.params_high
  have hslot := caller.slot_off_stack
  have htop := caller.top_lt
  have hroom := caller.sp_room
  obtain ⟨hword, hword', -⟩ := h.words
  have hparam (a : ℕ) (ha : params ≤ a) (ha' : a < params + 16) :
      ((port labels).contextSwitch s.1 ret).mem (wrap a) = s.1.mem a := by
    rw [wrap_of_lt (by omega)]
    exact hkeeps a (by omega) (by omega)
  rw [hreg19, hparam _ (by omega) (by omega)] at hentry hstack
  refine ⟨hpc, hentry.trans hword, hstack.trans hword', ?_, ?_⟩
  · rw [← hsp]
    simp [toEnterUsermode, run, processTrampoline, exec]
  · simp [toEnterUsermode, run, processTrampoline, exec]

/-- Without a late interrupt in `enter_usermode` the process starts in EL0 at its entry point, on its
stack. -/
theorem LaunchCall.enters (h : LaunchCall labels caller s params entry userStack) {vector : ℕ}
    {ready : Machine}
    (hrun : EntryRun vector labels.enterUsermode (toEnterUsermode labels ret ret' s) false ready)
    (hpc : ready.1.pc = labels.enterUsermode + 16)
    (hkept : caller.Keeps ((port labels).contextSwitch s.1 ret).mem ready.1.mem) :
    UserMode caller ((port labels).contextSwitch s.1 ret).mem (entryExec ready .eret) ∧
      (entryExec ready .eret).1.pc = entry ∧ (entryExec ready .eret).1.sp = userStack := by
  obtain ⟨hstart, hentry, hstack, hsp, -⟩ := h.arrives ret ret'
  have hlt := caller.launch_lt
  have hsize : caller.launchTop = caller.launchBase + 16384 := rfl
  have hsize' : launchStackSize = 16384 := rfl
  have hkernel : InKernel (toEnterUsermode labels ret ret' s) :=
    ⟨h.level, h.unmasked, by rw [hsp]; omega, by rw [hsp]; omega⟩
  obtain ⟨i, hi⟩ := entering_run hkernel hstart hrun
  have hpc' := hi.pc
  obtain rfl : i = 4 := by omega
  have hspsr : ready.2.spsr = 0 := hi.spsr rfl le_rfl
  have hzero : exceptionLevel 0 = 0 := rfl
  have hlevel : exceptionLevel ready.2.spsr = 0 := by rw [hspsr, hzero]
  have hdone : entryExec ready .eret =
      (⟨ready.1.reg, ready.2.bankedSp, ready.2.elr, !ready.2.spsr.testBit 7, ready.1.mem⟩,
        ⟨ready.2.elr, ready.2.spsr, ready.2.spsr, ready.1.sp⟩) := by
    simp only [entryExec, eret, hlevel, if_true]
  rw [hdone, hspsr]
  refine ⟨⟨hzero, Nat.zero_testBit 7, by simp, hi.sp.trans hsp, hkept⟩, ?_, ?_⟩
  · exact (hi.elr rfl (by omega)).trans hentry
  · exact (hi.spEl0 (by omega)).trans hstack

/-! ### The way out -/

/-- The exit of a process: `process_syscall_exit` calls `arch_context_switch(&unused, kernel_return_sp)`
on the launch stack, inside the exception of the system call. -/
structure ExitCall (caller : CallerSide) (vectorTable : ℕ) (s : Machine) (code : ℤ)
    (call : Cpu Reg) : Prop where
  svc : aarch64SvcHandler s.1.reg = .exit code
  sp_low : caller.launchBase + 96 ≤ call.sp
  sp_high : call.sp ≤ caller.launchTop
  newSp : call.reg 1 = call.mem caller.slot
  unused_low : caller.launchBase ≤ call.reg 0
  unused_high : call.reg 0 < caller.launchTop
  interrupts : call.interrupts = (entered vectorTable 8 s).1.interrupts
  keeps : caller.Keeps (entered vectorTable 8 s).1.mem call.mem

theorem aarch64SvcHandler_exit {reg : Reg → ℕ} {code : ℤ} (h : aarch64SvcHandler reg = .exit code) :
    reg 8 = 0 ∧ code = i32 (reg 0) := by
  unfold aarch64SvcHandler at h
  split_ifs at h with hexit
  exact ⟨hexit, (SvcOutcome.exit.inj h).symm⟩

/-- Straight-line code without a `msr daifclr` does not enable interrupts. -/
theorem run_interrupts {code : List Instr} (hcode : ∀ instr ∈ code, instr ≠ .daifclr) (cpu : Cpu Reg) :
    (run code cpu).interrupts = cpu.interrupts := by
  induction code generalizing cpu with
  | nil => rfl
  | cons instr code ih =>
    obtain ⟨hinstr, hrest⟩ := List.forall_mem_cons.mp hcode
    have hone : (exec cpu instr).interrupts = cpu.interrupts := by
      cases instr <;> first | rfl | exact absurd rfl hinstr
    exact (ih hrest (exec cpu instr)).trans hone

theorem contextSwitch_interrupts (labels : Labels) (cpu : Cpu Reg) (ret : ℕ) :
    ((port labels).contextSwitch cpu ret).interrupts = cpu.interrupts :=
  run_interrupts (by simp [archContextSwitch]) cpu

theorem mem_saved (labels : Labels) {r : Reg} (hr : 19 ≤ r.val) : r ∈ (port labels).saved := by
  change r ∈ flat savedPairs
  revert r
  decide

/-- Let `process_run` launch a process, and let no interrupt come late in `enter_usermode`. The process
starts at its entry point. In whatever run of the process, it is in EL0 with interrupts enabled and the
launch stack is empty; and the exit of the process returns from the call of `arch_context_switch`: at the
instruction behind the call, with the callee-saved registers, the stack pointer and the stack of the call,
with the exit code that the process gave, and with interrupts masked. What `process_syscall_exit` has
stored off the launch stack is still there, as `process_exit_code`. -/
theorem exit_resumes_processRun (labels : Labels) (caller : CallerSide) (s : Machine)
    (params entry userStack ret ret' ret'' vector vectorTable : ℕ)
    (hlaunch : LaunchCall labels caller s params entry userStack) (ready : Machine)
    (hentry : EntryRun vector labels.enterUsermode (toEnterUsermode labels ret ret' s) false ready)
    (hready : ready.1.pc = labels.enterUsermode + 16)
    (hkept : caller.Keeps ((port labels).contextSwitch s.1 ret).mem ready.1.mem) (last : Machine)
    (hrun : Relation.ReflTransGen (UserStep caller vectorTable) (entryExec ready .eret) last) :
    ((entryExec ready .eret).1.pc = entry ∧ (entryExec ready .eret).1.sp = userStack) ∧
    (exceptionLevel last.2.pstate = 0 ∧ last.1.interrupts = true ∧
      last.2.bankedSp = caller.launchTop) ∧
    ∀ code call, ExitCall caller vectorTable last code call →
      ((port labels).contextSwitch call ret'').pc = ret ∧
      ((port labels).contextSwitch call ret'').sp = s.1.sp ∧
      (∀ r : Reg, 19 ≤ r.val → r.val ≤ 29 →
        ((port labels).contextSwitch call ret'').reg r = s.1.reg r) ∧
      (∀ a, s.1.sp ≤ a → a < caller.top →
        ((port labels).contextSwitch call ret'').mem a = s.1.mem a) ∧
      ((port labels).contextSwitch call ret'').interrupts = false ∧
      code = i32 (last.1.reg 0) ∧
      ∀ a, a < caller.launchBase ∨ caller.launchTop ≤ a →
        ((port labels).contextSwitch call ret'').mem a = call.mem a := by
  obtain ⟨hframe, hrecords, hkeeps, -, -⟩ := hlaunch.switch_spec ret
  obtain ⟨hmode, hpc, hsp⟩ := hlaunch.enters hentry hready hkept
  have hlast := userMode_run hmode hrun
  refine ⟨⟨hpc, hsp⟩, ⟨hlast.level, hlast.interrupts, hlast.launchStack⟩, fun code call hexit ↦ ?_⟩
  obtain ⟨-, -, -, hmasked, hentered⟩ := hlast.entered_spec vectorTable 8
  have hcorrect := port_correct labels
  have hdisjoint := caller.stacks_disjoint
  have hcallerRoom := caller.sp_room
  have htop := caller.sp_le
  have htopLt := caller.top_lt
  have hslot := caller.slot_off_stack
  have hlaunchLt := caller.launch_lt
  have hlow := hexit.sp_low
  have hhigh := hexit.sp_high
  have hunusedLow := hexit.unused_low
  have hunusedHigh := hexit.unused_high
  have hsize : caller.launchTop = caller.launchBase + 16384 := rfl
  have hsize' : launchStackSize = 16384 := rfl
  have hthere := (hlast.keeps.trans hentered).trans hexit.keeps
  have hoff (a : ℕ) (ha : a < caller.launchBase ∨ caller.launchTop ≤ a) :
      ((port labels).contextSwitch call ret'').mem a = call.mem a := by
    refine hcorrect.keeps (by change 96 ≤ call.sp; omega) (by omega) ?_ ?_
    · change a < call.sp - 96 ∨ call.sp ≤ a
      omega
    · change a ≠ call.reg 0
      omega
  have hbehind (a : ℕ) (ha : caller.sp - 96 ≤ a) (ha' : a < caller.top) :
      ((port labels).contextSwitch call ret'').mem a =
        ((port labels).contextSwitch s.1 ret).mem a := by
    rw [← hthere.stack a ha ha']
    exact hoff a (by omega)
  have hnewSp : call.reg (port labels).spArg = caller.sp - 96 := by
    rw [← hrecords, ← hthere.slot]
    exact hexit.newSp
  obtain ⟨hreg, hback, hpc'⟩ := hcorrect.restores call ret'' s.1.reg ret
    (by rw [hnewSp]; change caller.sp - 96 + 96 < 2 ^ 64; omega)
    (by
      rw [hnewSp]
      refine hframe.congr fun a ha ha' ↦ hbehind a ha ?_
      change a < caller.sp - 96 + 8 * 12 at ha'
      omega)
  rw [hnewSp] at hback
  rw [hlaunch.sp]
  refine ⟨hpc', hback.trans (Nat.sub_add_cancel hcallerRoom), fun r hr hr' ↦ ?_, fun a ha ha' ↦ ?_, ?_,
    (aarch64SvcHandler_exit hexit.svc).2, hoff⟩
  · have hne : r ≠ 30 := by
      rintro rfl
      exact absurd hr' (by decide)
    rw [hreg r (mem_saved labels hr)]
    exact Function.update_of_ne hne _ _
  · rw [hbehind a (by omega) ha']
    exact hkeeps a (Or.inr ha) (by omega)
  · rw [contextSwitch_interrupts, hexit.interrupts, hmasked]

end Return

section Witness

/-- A caller with its stack, `kernel_return_sp` behind it, and the launch stack above. -/
def sampleCaller : CallerSide where
  sp := 2016
  top := 4080
  slot := 5008
  launchBase := 8192
  sp_room := by decide
  sp_le := by decide
  top_lt := by decide
  launch_lt := by decide
  stacks_disjoint := by decide
  slot_off_stack := by decide
  slot_off_launch := by decide

/-- The caller passes the address of `kernel_return_sp` and the launch stack; the parameters are at
3000. -/
def sampleMachine : Machine :=
  (⟨fun r ↦ if r = 0 then 5008 else if r = 1 then 24480 else if r = 19 then 33 else 0, 2016, 0, true,
      fun a ↦ if a = 24480 then 3000 else if a = 24568 then 3
        else if a = 3000 then 0x400000 else if a = 3008 then 0xF0000000 else 0⟩,
    ⟨0, 0, 5, 0⟩)

theorem sampleLaunch :
    LaunchCall ⟨1, 2, 3, 4⟩ sampleCaller sampleMachine 3000 0x400000 0xF0000000 := by
  have htop : sampleCaller.launchTop - 96 = 24480 := by decide
  refine ⟨rfl, rfl, htop.symm, ?_, by decide, by decide, ⟨rfl, rfl, trivial⟩, rfl, by decide⟩
  rw [htop]
  exact ⟨rfl, rfl, rfl, rfl, rfl, rfl, rfl, rfl, rfl, rfl, rfl, rfl, trivial⟩

def sampleArrival : Machine := toEnterUsermode ⟨1, 2, 3, 4⟩ 77 88 sampleMachine

/-- `enter_usermode` before its `eret`. -/
def sampleReady : Machine :=
  entryExec (entryExec (entryExec (entryExec sampleArrival (.msrSpEl0 1)) (.trap (.msrElr 0)))
    (.movImm 2 0)) (.trap (.msrSpsr 2))

theorem sampleArrival_pc : sampleArrival.1.pc = 4 := (sampleLaunch.arrives 77 88).1

theorem sampleEntry : EntryRun 640 4 sampleArrival false sampleReady := by
  have hpc := sampleArrival_pc
  refine .execute (.execute (.execute (.execute (.start sampleArrival) (i := 0) hpc rfl (by decide))
    (i := 1) ?_ rfl (by decide)) (i := 2) ?_ rfl (by decide)) (i := 3) ?_ rfl (by decide)
  · exact congrArg (· + 4) hpc
  · exact congrArg (· + 4 + 4) hpc
  · exact congrArg (· + 4 + 4 + 4) hpc

theorem sampleReady_pc : sampleReady.1.pc = 4 + 16 := congrArg (· + 4 + 4 + 4 + 4) sampleArrival_pc

/-- The process loads its registers to exit with code 7. -/
def sampleLast : Machine :=
  ({ (entryExec sampleReady .eret).1 with reg := fun r ↦ if r = 0 then 7 else 0 },
    (entryExec sampleReady .eret).2)

/-- `process_syscall_exit` switches back. -/
def sampleCall : Cpu Reg where
  reg := fun r ↦ if r = 1 then (entered 2048 8 sampleLast).1.mem 5008 else 20000
  sp := 20000
  pc := 0
  interrupts := (entered 2048 8 sampleLast).1.interrupts
  mem := (entered 2048 8 sampleLast).1.mem

theorem sampleExit : ExitCall sampleCaller 2048 sampleLast 7 sampleCall where
  svc := by decide
  sp_low := by decide
  sp_high := by decide
  newSp := by simp [sampleCall, sampleCaller]
  unused_low := by decide
  unused_high := by decide
  interrupts := by simp only [sampleCall]
  keeps := SameStack.refl _

/-- The process exits, and the caller goes on with the value in `x19` and with interrupts masked. -/
theorem exit_resumes_processRun_sample :
    ((port ⟨1, 2, 3, 4⟩).contextSwitch sampleCall 99).pc = 77 ∧
    ((port ⟨1, 2, 3, 4⟩).contextSwitch sampleCall 99).reg 19 = 33 ∧
    ((port ⟨1, 2, 3, 4⟩).contextSwitch sampleCall 99).interrupts = false := by
  have hmem : sampleReady.1.mem = ((port ⟨1, 2, 3, 4⟩).contextSwitch sampleMachine.1 77).mem :=
    (sampleLaunch.arrives 77 88).2.2.2.2
  have hkept : sampleCaller.Keeps ((port ⟨1, 2, 3, 4⟩).contextSwitch sampleMachine.1 77).mem
      sampleReady.1.mem := by
    rw [hmem]
    exact SameStack.refl _
  have hstep : UserStep sampleCaller 2048 (entryExec sampleReady .eret) sampleLast :=
    .compute (SameStack.refl _) rfl rfl rfl
  obtain ⟨-, -, hresumes⟩ := exit_resumes_processRun ⟨1, 2, 3, 4⟩ sampleCaller sampleMachine 3000
    0x400000 0xF0000000 77 88 99 640 2048 sampleLaunch sampleReady sampleEntry sampleReady_pc hkept
    sampleLast (.single hstep)
  obtain ⟨hpc, -, hreg, -, hmasked, -⟩ := hresumes 7 sampleCall sampleExit
  exact ⟨hpc, hreg 19 (by decide) (by decide), hmasked⟩

end Witness

end MegKer.Process.AArch64
