import MegKer.Kernel.InterruptGates
import MegKer.Foundation.SignedWord
import Mathlib.Logic.Relation

/-!
# The lifetime of a process on x86_64

What happens between the call of `arch_context_switch` in `process_run` and its return: the switch to the
launch stack, `process_trampoline`, `enter_usermode`, the process itself with its interrupts and system
calls, and at the end `process_syscall_exit`, which switches back and never returns from its interrupt.

`UserStep` is a step of the process: it computes, it is interrupted, or it makes a system call that
returns. In each of them the kernel runs on the stack of the task state segment, and neither the process
nor the handlers write to the part of the caller's stack that is in use (`CallerSide.Keeps`). The C code of
a handler is described by what it leaves in the `registers_t` (`HandlerReturns`).

An interrupt changes nothing that the process can see, and a system call changes `rax`
(`UserMode.resumed_spec`). However long the process runs, its exit makes the call of `arch_context_switch`
return to `process_run`, with the callee-saved registers, the stack pointer and the stack that it had, and
with the process's exit code (`processRun_returns`).
-/

set_option autoImplicit false
set_option relaxedAutoImplicit false

namespace MegKer.Process

open Foundation Kernel Kernel.X86 Kernel.X86.Reg

/-! ### The code -/

def userCodeSel : ℕ := 0x1B

def userDataSel : ℕ := 0x23

/-- The size of `kernel_stack` in `tss.c`. -/
def kernelStackSize : ℕ := 16384

/-- The processor in user mode, or between two instructions of the kernel. -/
structure Machine where
  cpu : Cpu X86.Reg
  status : Status

/-- `enter_usermode`, with `pushfq` as a push of the flags. The data segment registers are not part of
the model. -/
def enterUsermode (machine : Machine) : Machine :=
  let cpu := run [.push rdx, .push rsi] machine.cpu
  let cpu := exec (push cpu machine.status.rflags) (.pop rax)
  let cpu := cpu.set rax (cpu.reg rax ||| 0x200)
  let cpu := run [.push rax, .push rcx, .push rdi] cpu
  let returned := iretq cpu
  ⟨returned.1, returned.2⟩

/-- The arguments of `fb_draw_string` in a system call. -/
structure DrawRequest where
  x : ℕ
  y : ℕ
  string : ℕ
  color : ℕ
  deriving DecidableEq, Repr

/-- What `syscall_dispatch` does with a `registers_t`: it calls `process_syscall_exit`, or it perhaps
draws a string and stores a new `rax`. -/
inductive SyscallOutcome
  | exit (code : ℤ)
  | returns (draw : Option DrawRequest) (rax : ℕ)
  deriving DecidableEq, Repr

def syscallDispatch (fbAvailable : Bool) (reg : X86.Reg → ℕ) : SyscallOutcome :=
  if reg rax = 0 then .exit (i32 (reg rdi))
  else if reg rax = 1 then
    .returns (if fbAvailable then
      some ⟨wrap32 (reg rdi), wrap32 (reg rsi), reg rdx, wrap32 (reg r10)⟩ else none) 0
  else .returns none (2 ^ 64 - 1)

/-! ### The caller -/

/-- The caller of `arch_context_switch` in `process_run`: its stack pointer and the top of its stack, the
address of `kernel_return_sp`, and the top of the stack for interrupts of the process. -/
structure CallerSide where
  sp : ℕ
  top : ℕ
  slot : ℕ
  rsp0 : ℕ
  sp_room : 56 ≤ sp
  sp_le : sp ≤ top
  top_lt : top < 2 ^ 64
  rsp0_room : kernelStackSize ≤ rsp0
  rsp0_lt : rsp0 < 2 ^ 64
  rsp0_aligned : 16 ∣ rsp0
  stacks_disjoint : rsp0 ≤ sp - 56 ∨ top ≤ rsp0 - kernelStackSize
  slot_off_stack : slot < sp - 56 ∨ top ≤ slot
  slot_off_kernelStack : slot < rsp0 - kernelStackSize ∨ rsp0 ≤ slot

namespace CallerSide

variable (caller : CallerSide)

/-- The words that the way back needs are the same: the frame and the stack of the caller, and
`kernel_return_sp`. -/
abbrev Keeps (mem mem' : WordMemory) : Prop :=
  SameStack (caller.sp - 56) caller.top caller.slot mem mem'

variable {caller} {mem mem' : WordMemory}

/-- What is written on the stack for interrupts is none of the caller's. -/
theorem keeps_of_kernelStack
    (h : ∀ a, a < caller.rsp0 - kernelStackSize ∨ caller.rsp0 ≤ a → mem' a = mem a) : caller.Keeps mem mem' :=
  SameStack.of_between caller.stacks_disjoint caller.slot_off_kernelStack h

end CallerSide

/-! ### The process -/

/-- The C code behind an interrupt returns: its stack pointer is back, the `registers_t` has these words,
and the caller of the process is not touched. -/
structure HandlerReturns (caller : CallerSide) (entered back : Cpu X86.Reg) (words : List ℕ) : Prop where
  sp : back.sp = entered.sp
  frame : FrameAt back.mem back.sp words
  keeps : caller.Keeps entered.mem back.mem

/-- The entry of an interrupt of the process. -/
def Machine.entered (caller : CallerSide) (offset : ℕ) (stub : Stub) (machine : Machine) : Cpu X86.Reg :=
  (interruptEntry caller.rsp0 offset stub none machine.cpu machine.status).1

/-- The `registers_t` of an interrupt of the process, with other general registers. -/
def Machine.registers (machine : Machine) (stub : Stub) (reg : X86.Reg → ℕ) : List ℕ :=
  registersT reg stub.vector 0 machine.cpu.pc machine.status.cs machine.status.rflags machine.cpu.sp
    machine.status.ss

/-- The exit of an interrupt. -/
def resumed (back : Cpu X86.Reg) : Machine := ⟨(interruptExit back).1, (interruptExit back).2⟩

/-- A step of the process. Its own instructions do not change the interrupt flag, which needs a
privilege that `enter_usermode` does not give. -/
inductive UserStep (caller : CallerSide) (fbAvailable : Bool) : Machine → Machine → Prop
  | compute {machine : Machine} {cpu : Cpu X86.Reg} {rflags : ℕ}
      (hkeeps : caller.Keeps machine.cpu.mem cpu.mem)
      (hinterrupts : cpu.interrupts = machine.cpu.interrupts)
      (hflag : rflags.testBit 9 = machine.status.rflags.testBit 9) :
      UserStep caller fbAvailable machine ⟨cpu, { machine.status with rflags := rflags }⟩
  | interrupt {machine : Machine} {stub : Stub} {offset : ℕ} {back : Cpu X86.Reg}
      (hstub : stub ∈ irqStubs)
      (hreturns : HandlerReturns caller (machine.entered caller offset stub) back
        (machine.registers stub machine.cpu.reg)) :
      UserStep caller fbAvailable machine (resumed back)
  | systemCall {machine : Machine} {offset : ℕ} {draw : Option DrawRequest} {value : ℕ}
      {back : Cpu X86.Reg} (hdispatch : syscallDispatch fbAvailable machine.cpu.reg = .returns draw value)
      (hreturns : HandlerReturns caller (machine.entered caller offset isr128) back
        (machine.registers isr128 (Function.update machine.cpu.reg rax value))) :
      UserStep caller fbAvailable machine (resumed back)

/-- The processor is in the process, and the caller is as it was. -/
structure UserMode (caller : CallerSide) (mem : WordMemory) (machine : Machine) : Prop where
  cs : machine.status.cs = userCodeSel
  ss : machine.status.ss = userDataSel
  flag : machine.status.rflags.testBit 9 = true
  interrupts : machine.cpu.interrupts = true
  keeps : caller.Keeps mem machine.cpu.mem

section Steps

variable {caller : CallerSide} {fbAvailable : Bool} {mem : WordMemory} {machine machine' : Machine}

theorem UserMode.cpl (h : UserMode caller mem machine) : machine.status.cpl = 3 := by
  rw [Status.cpl, h.cs]
  rfl

/-- An interrupt of the process goes to the stack of the task state segment. -/
theorem UserMode.entered_spec (h : UserMode caller mem machine) (offset : ℕ) {stub : Stub}
    (hstub : stub.Expects none) :
    (machine.entered caller offset stub).sp = caller.rsp0 - 176 ∧
      FrameAt (machine.entered caller offset stub).mem (caller.rsp0 - 176)
        (machine.registers stub machine.cpu.reg) ∧
      caller.Keeps machine.cpu.mem (machine.entered caller offset stub).mem := by
  have hroom := caller.rsp0_room
  have haligned := caller.rsp0_aligned
  have haddr : registersAddr caller.rsp0 = caller.rsp0 - 176 := by
    unfold registersAddr
    omega
  have hstack : caller.rsp0 = if machine.status.cpl = 0 then machine.cpu.sp else caller.rsp0 := by
    rw [h.cpl]
    rfl
  unfold kernelStackSize at hroom
  obtain ⟨hsp, -, hframe, hout⟩ := @interruptEntry_spec caller.rsp0 offset stub none hstub machine.cpu
    machine.status caller.rsp0 hstack (by omega) caller.rsp0_lt
  rw [haddr] at hsp hframe hout
  refine ⟨hsp, hframe, CallerSide.keeps_of_kernelStack fun a ha ↦ hout a ?_⟩
  unfold kernelStackSize at ha
  omega

/-- What a handler returns to is what its `registers_t` says. -/
theorem UserMode.resumed_spec (h : UserMode caller mem machine) {offset : ℕ} {stub : Stub}
    (hstub : stub.Expects none) {back : Cpu X86.Reg} {reg : X86.Reg → ℕ}
    (hreturns : HandlerReturns caller (machine.entered caller offset stub) back
      (machine.registers stub reg)) :
    resumed back = ⟨⟨reg, machine.cpu.sp, machine.cpu.pc, true, back.mem⟩, machine.status⟩ ∧
      caller.Keeps machine.cpu.mem back.mem := by
  obtain ⟨hsp, -, hkeeps⟩ := h.entered_spec offset hstub
  have hroom := caller.rsp0_room
  have hlt := caller.rsp0_lt
  unfold kernelStackSize at hroom
  have hback : back.sp = caller.rsp0 - 176 := hreturns.sp.trans hsp
  have hexit := interruptExit_spec (by omega) hreturns.frame
  refine ⟨?_, hkeeps.trans hreturns.keeps⟩
  rw [resumed, hexit, h.flag]

theorem expects_of_mem_irqStubs {stub : Stub} (h : stub ∈ irqStubs) : stub.Expects none := by
  revert stub
  decide

theorem expects_isr128 : isr128.Expects none := rfl

/-- A step of the process leaves it in ring 3, and the caller as it was. -/
theorem userMode_step (h : UserMode caller mem machine)
    (hstep : UserStep caller fbAvailable machine machine') : UserMode caller mem machine' := by
  cases hstep with
  | compute hkeeps hinterrupts hflag =>
    exact ⟨h.cs, h.ss, hflag.trans h.flag, hinterrupts.trans h.interrupts, h.keeps.trans hkeeps⟩
  | interrupt hstub hreturns =>
    obtain ⟨heq, hkeeps⟩ := h.resumed_spec (expects_of_mem_irqStubs hstub) hreturns
    rw [heq]
    exact ⟨h.cs, h.ss, h.flag, rfl, h.keeps.trans hkeeps⟩
  | systemCall hdispatch hreturns =>
    obtain ⟨heq, hkeeps⟩ := h.resumed_spec expects_isr128 hreturns
    rw [heq]
    exact ⟨h.cs, h.ss, h.flag, rfl, h.keeps.trans hkeeps⟩

theorem userMode_run (h : UserMode caller mem machine)
    (hrun : Relation.ReflTransGen (UserStep caller fbAvailable) machine machine') :
    UserMode caller mem machine' := by
  induction hrun with
  | refl => exact h
  | tail _ hstep ih => exact userMode_step ih hstep

end Steps

/-! ### The way in -/

/-- What `enter_usermode` leaves in memory: the five words that `iretq` takes, and in the place of the
flags the ones that were there before. -/
def usermodeFrame (cpu : Cpu X86.Reg) (rflags : ℕ) : WordMemory :=
  (((((cpu.mem.store (cpu.sp - 8) (cpu.reg rdx)).store (cpu.sp - 16) (cpu.reg rsi)).store
    (cpu.sp - 24) rflags).store (cpu.sp - 24) (rflags ||| 0x200)).store
    (cpu.sp - 32) (cpu.reg rcx)).store (cpu.sp - 40) (cpu.reg rdi)

theorem usermodeFrame_apply {cpu : Cpu X86.Reg} (rflags : ℕ) (hroom : 40 ≤ cpu.sp) :
    usermodeFrame cpu rflags (cpu.sp - 40 + 8) = cpu.reg rcx ∧
    usermodeFrame cpu rflags (cpu.sp - 40 + 16) = rflags ||| 0x200 ∧
    usermodeFrame cpu rflags (cpu.sp - 40 + 24) = cpu.reg rsi ∧
    usermodeFrame cpu rflags (cpu.sp - 40 + 32) = cpu.reg rdx ∧
    ∀ a, a < cpu.sp - 40 ∨ cpu.sp ≤ a → usermodeFrame cpu rflags a = cpu.mem a := by
  simp only [usermodeFrame, WordMemory.store_apply]
  refine ⟨?_, ?_, ?_, ?_, fun a ha ↦ ?_⟩
  · rw [if_neg (by omega), if_pos (by omega)]
  · rw [if_neg (by omega), if_neg (by omega), if_pos (by omega)]
  · rw [if_neg (by omega), if_neg (by omega), if_neg (by omega), if_neg (by omega), if_pos (by omega)]
  · rw [if_neg (by omega), if_neg (by omega), if_neg (by omega), if_neg (by omega),
      if_neg (by omega), if_pos (by omega)]
  · rw [if_neg (by omega), if_neg (by omega), if_neg (by omega), if_neg (by omega),
      if_neg (by omega), if_neg (by omega)]

theorem testBit_nine (rflags : ℕ) : (rflags ||| 0x200).testBit 9 = true := by
  rw [Nat.testBit_or, show (0x200 : ℕ).testBit 9 = true by decide, Bool.or_true]

/-- `enter_usermode` goes to ring 3 with interrupts enabled. -/
theorem enterUsermode_eq (cpu : Cpu X86.Reg) (status : Status) (hroom : 40 ≤ cpu.sp)
    (hlt : cpu.sp < 2 ^ 64) :
    enterUsermode ⟨cpu, status⟩ =
      ⟨⟨Function.update cpu.reg rax (status.rflags ||| 0x200), cpu.reg rsi, cpu.reg rdi, true,
          usermodeFrame cpu status.rflags⟩,
        ⟨status.rflags ||| 0x200, cpu.reg rcx, cpu.reg rdx⟩⟩ := by
  have h8 : wrapSub cpu.sp 8 = cpu.sp - 8 := wrapSub_of_le (by omega) hlt
  have h16 : wrapSub (cpu.sp - 8) 8 = cpu.sp - 16 := wrapSub_of_le (by omega) (by omega)
  have h24 : wrapSub (cpu.sp - 16) 8 = cpu.sp - 24 := wrapSub_of_le (by omega) (by omega)
  have h32 : wrapSub (cpu.sp - 24) 8 = cpu.sp - 32 := wrapSub_of_le (by omega) (by omega)
  have h40 : wrapSub (cpu.sp - 32) 8 = cpu.sp - 40 := wrapSub_of_le (by omega) (by omega)
  have hpop : wrap (cpu.sp - 24 + 8) = cpu.sp - 16 := by
    rw [wrap_of_lt (by omega)]
    omega
  obtain ⟨hcs, hflags, hsp, hss, -⟩ := usermodeFrame_apply status.rflags hroom
  rw [usermodeFrame] at hcs hflags hsp hss
  have hbit : Nat.testBit 512 9 = true := by decide
  simp [enterUsermode, run, exec, push, pushWord, iretq, usermodeFrame, h8, h16, h24, h32, h40, hpop,
    hcs, hflags, hsp, hss, hbit]

/-- `process_trampoline` loads the arguments of `enter_usermode`, and writes a return address. -/
theorem run_trampoline_spec (labels : Labels) (ret : ℕ) {cpu : Cpu X86.Reg} (hroom : 8 ≤ cpu.sp)
    (hlt : cpu.sp < 2 ^ 64) :
    (run (processTrampoline labels ret) cpu).sp = cpu.sp - 8 ∧
    (run (processTrampoline labels ret) cpu).mem = cpu.mem.store (cpu.sp - 8) ret := by
  have h8 : wrapSub cpu.sp 8 = cpu.sp - 8 := wrapSub_of_le hroom hlt
  constructor
  · simp [run, processTrampoline, exec, pushWord, h8]
  · simp [run, processTrampoline, exec, pushWord, h8]

/-- From the call of `arch_context_switch` in `process_run` to the first instruction of the process. -/
def enterProcess (labels : Labels) (ret ret' : ℕ) (machine : Machine) : Machine :=
  enterUsermode
    ⟨run (processTrampoline labels ret') ((port labels).contextSwitch machine.cpu ret), machine.status⟩

/-- The call of `arch_context_switch` in `process_run`, with the launch stack as `build_launch_stack`
left it and the `launch_params_t` on the caller's stack. -/
structure LaunchCall (labels : Labels) (caller : CallerSide) (cpu : Cpu X86.Reg)
    (launchTop params entry userStack : ℕ) : Prop where
  sp : cpu.sp = caller.sp
  slot : cpu.reg rdi = caller.slot
  newSp : cpu.reg rsi = launchTop - 56
  room : 56 ≤ launchTop
  lt : launchTop < 2 ^ 64
  disjoint : launchTop ≤ caller.sp - 56 ∨ caller.top ≤ launchTop - 56
  slot_off : caller.slot < launchTop - 56 ∨ launchTop ≤ caller.slot
  frame : FrameAt cpu.mem (launchTop - 56)
    (X86.frame (launchReg (.process params)) (launchPc labels (.process params)))
  params_low : caller.sp ≤ params
  params_high : params + 32 ≤ caller.top
  words : FrameAt cpu.mem params [entry, userStack, userDataSel, userCodeSel]

section Return

variable {labels : Labels} {caller : CallerSide} {machine : Machine}
  {launchTop params entry userStack ret ret' : ℕ}

/-- The switch leaves the frame of the caller on its stack, and records where. -/
theorem LaunchCall.switch_spec (h : LaunchCall labels caller machine.cpu launchTop params entry userStack)
    (ret : ℕ) :
    FrameAt ((port labels).contextSwitch machine.cpu ret).mem (caller.sp - 56)
      (X86.frame machine.cpu.reg ret) ∧
    ((port labels).contextSwitch machine.cpu ret).mem caller.slot = caller.sp - 56 ∧
    (∀ a, a < caller.sp - 56 ∨ caller.sp ≤ a → a ≠ caller.slot →
      ((port labels).contextSwitch machine.cpu ret).mem a = machine.cpu.mem a) ∧
    ((port labels).contextSwitch machine.cpu ret).sp = launchTop ∧
    ((port labels).contextSwitch machine.cpu ret).reg r12 = params := by
  have hcorrect := port_correct labels
  have hroom : (port labels).frameBytes ≤ machine.cpu.sp := by rw [h.sp]; exact caller.sp_room
  have hlt : machine.cpu.sp < 2 ^ 64 := by rw [h.sp]; exact caller.sp_le.trans_lt caller.top_lt
  have hslot : machine.cpu.reg (port labels).slotArg = caller.slot := h.slot
  have hnewSp : machine.cpu.reg (port labels).spArg = launchTop - 56 := h.newSp
  have hoff := caller.slot_off_stack
  have hframe : FrameAt ((port labels).contextSwitch machine.cpu ret).mem (machine.cpu.sp - 56)
      (X86.frame machine.cpu.reg ret) :=
    hcorrect.frameAt_contextSwitch hroom hlt
      (by rw [hslot, h.sp]; exact hoff.imp_right caller.sp_le.trans)
  have hrecords : ((port labels).contextSwitch machine.cpu ret).mem
      (machine.cpu.reg (port labels).slotArg) = machine.cpu.sp - 56 := hcorrect.records hroom hlt
  have hkeeps {a : ℕ} (ha : a < caller.sp - 56 ∨ caller.sp ≤ a) (hne : a ≠ caller.slot) :
      ((port labels).contextSwitch machine.cpu ret).mem a = machine.cpu.mem a :=
    hcorrect.keeps hroom hlt (by rw [h.sp]; exact ha) (by rw [hslot]; exact hne)
  have hdisjoint := h.disjoint
  have hbelow := h.slot_off
  have htop := caller.sp_le
  have hlaunch : FrameAt ((port labels).contextSwitch machine.cpu ret).mem (launchTop - 56)
      (X86.frame (launchReg (.process params)) (launchPc labels (.process params))) := by
    refine h.frame.congr fun a hlow hhigh ↦ ?_
    change a < launchTop - 56 + 8 * 7 at hhigh
    have hlaunchRoom := h.room
    exact hkeeps (by omega) (by omega)
  have hlaunchRoom := h.room
  have hlaunchLt := h.lt
  obtain ⟨hreg, hsp, -⟩ := hcorrect.restores machine.cpu ret (launchReg (.process params))
    (launchPc labels (.process params)) (by rw [hnewSp]; change launchTop - 56 + 56 < 2 ^ 64; omega)
    (by rw [hnewSp]; exact hlaunch)
  rw [h.sp] at hframe hrecords
  rw [hslot] at hrecords
  rw [hnewSp] at hsp
  refine ⟨hframe, hrecords, fun a ha hne ↦ hkeeps ha hne, ?_, hreg r12 (by simp [port])⟩
  rw [hsp]
  exact Nat.sub_add_cancel hlaunchRoom

/-- The process starts in user mode at its entry point, on its stack, and the caller's stack is as the
switch left it. -/
theorem LaunchCall.enters (h : LaunchCall labels caller machine.cpu launchTop params entry userStack)
    (ret ret' : ℕ) :
    UserMode caller ((port labels).contextSwitch machine.cpu ret).mem
        (enterProcess labels ret ret' machine) ∧
      (enterProcess labels ret ret' machine).cpu.pc = entry ∧
      (enterProcess labels ret ret' machine).cpu.sp = userStack := by
  obtain ⟨-, -, hkeeps, hsp, hr12⟩ := h.switch_spec ret
  have hroom := h.room
  have hlt := h.lt
  have hdisjoint := h.disjoint
  have hslotOff := h.slot_off
  have hcallerRoom := caller.sp_room
  have htopLt := caller.top_lt
  obtain ⟨hcallSp, hcallMem⟩ :=
    @run_trampoline_spec labels ret' ((port labels).contextSwitch machine.cpu ret) (by omega) (by omega)
  obtain ⟨-, hargs⟩ :=
    run_processTrampoline labels ((port labels).contextSwitch machine.cpu ret) ret'
  have hlow := h.params_low
  have hhigh := h.params_high
  have hslot := caller.slot_off_stack
  obtain ⟨hentry, hstack, hdata, hcode, -⟩ := h.words
  have hparam (a : ℕ) (ha : params ≤ a) (ha' : a < params + 32) :
      ((port labels).contextSwitch machine.cpu ret).mem (wrap a) = machine.cpu.mem a := by
    rw [wrap_of_lt (by omega)]
    exact hkeeps a (by omega) (by omega)
  rw [hr12] at hargs
  simp only [List.map_cons, List.map_nil, List.cons.injEq, and_true] at hargs
  obtain ⟨hrdi, hrsi, hrdx, hrcx⟩ := hargs
  rw [hparam _ (by omega) (by omega)] at hrdi hrsi hrdx hrcx
  rw [hsp] at hcallSp hcallMem
  have henter := enterUsermode_eq
    (run (processTrampoline labels ret') ((port labels).contextSwitch machine.cpu ret)) machine.status
    (by omega) (by omega)
  obtain ⟨-, -, -, -, hout⟩ := @usermodeFrame_apply
    (run (processTrampoline labels ret') ((port labels).contextSwitch machine.cpu ret))
    machine.status.rflags (by omega)
  rw [hcallSp] at hout
  have hmem : caller.Keeps ((port labels).contextSwitch machine.cpu ret).mem (usermodeFrame
      (run (processTrampoline labels ret') ((port labels).contextSwitch machine.cpu ret))
      machine.status.rflags) := by
    constructor
    · intro a ha ha'
      rw [hout a (by omega), hcallMem, WordMemory.store_of_ne _ _ (by omega)]
    · rw [hout _ (by omega), hcallMem, WordMemory.store_of_ne _ _ (by omega)]
  rw [enterProcess, henter]
  refine ⟨⟨?_, ?_, testBit_nine _, rfl, hmem⟩, ?_, ?_⟩
  · rw [hrcx]
    exact hcode
  · rw [hrdx]
    exact hdata
  · rw [hrdi]
    exact hentry
  · rw [hrsi]
    exact hstack

/-! ### The way out -/

/-- The exit of a process: `process_syscall_exit` calls `arch_context_switch(&unused, kernel_return_sp)`
on the stack for interrupts. -/
structure ExitCall (caller : CallerSide) (fbAvailable : Bool) (machine : Machine) (code : ℤ)
    (call : Cpu X86.Reg) : Prop where
  dispatch : syscallDispatch fbAvailable machine.cpu.reg = .exit code
  sp_low : caller.rsp0 - kernelStackSize + 56 ≤ call.sp
  sp_high : call.sp ≤ caller.rsp0
  newSp : call.reg rsi = call.mem caller.slot
  unused_low : caller.rsp0 - kernelStackSize ≤ call.reg rdi
  unused_high : call.reg rdi < caller.rsp0
  keeps : caller.Keeps machine.cpu.mem call.mem

theorem syscallDispatch_exit {fbAvailable : Bool} {reg : X86.Reg → ℕ} {code : ℤ}
    (h : syscallDispatch fbAvailable reg = .exit code) : reg rax = 0 ∧ code = i32 (reg rdi) := by
  unfold syscallDispatch at h
  split_ifs at h with hexit
  exact ⟨hexit, (SyscallOutcome.exit.inj h).symm⟩

/-- However long a process runs and whatever it does, its exit returns from the call of
`arch_context_switch` in `process_run`: at the instruction behind the call, with the callee-saved
registers, the stack pointer and the stack of the call, and with the exit code that the process gave. What
`process_syscall_exit` has stored off the stack for interrupts is still there, as `process_exit_code`. -/
theorem processRun_returns (labels : Labels) (caller : CallerSide) (machine : Machine)
    (launchTop params entry userStack ret ret' ret'' : ℕ)
    (hlaunch : LaunchCall labels caller machine.cpu launchTop params entry userStack)
    (fbAvailable : Bool) (last : Machine)
    (hrun : Relation.ReflTransGen (UserStep caller fbAvailable) (enterProcess labels ret ret' machine) last)
    (code : ℤ) (call : Cpu X86.Reg) (hexit : ExitCall caller fbAvailable last code call) :
    ((port labels).contextSwitch call ret'').pc = ret ∧
    ((port labels).contextSwitch call ret'').sp = machine.cpu.sp ∧
    (∀ r ∈ [rbp, rbx, r12, r13, r14, r15],
      ((port labels).contextSwitch call ret'').reg r = machine.cpu.reg r) ∧
    (∀ a, machine.cpu.sp ≤ a → a < caller.top →
      ((port labels).contextSwitch call ret'').mem a = machine.cpu.mem a) ∧
    code = i32 (last.cpu.reg rdi) ∧
    ∀ a, a < caller.rsp0 - kernelStackSize ∨ caller.rsp0 ≤ a →
      ((port labels).contextSwitch call ret'').mem a = call.mem a := by
  obtain ⟨hframe, hrecords, hkeeps, -, -⟩ := hlaunch.switch_spec ret
  have hmode := userMode_run (hlaunch.enters ret ret').1 hrun
  have hcorrect := port_correct labels
  have hdisjoint := caller.stacks_disjoint
  have hcallerRoom := caller.sp_room
  have htop := caller.sp_le
  have htopLt := caller.top_lt
  have hslot := caller.slot_off_stack
  have hrsp0 := caller.rsp0_room
  have hrsp0Lt := caller.rsp0_lt
  have hlow := hexit.sp_low
  have hhigh := hexit.sp_high
  have hunusedLow := hexit.unused_low
  have hunusedHigh := hexit.unused_high
  have hthere := hmode.keeps.trans hexit.keeps
  have hoff (a : ℕ) (ha : a < caller.rsp0 - kernelStackSize ∨ caller.rsp0 ≤ a) :
      ((port labels).contextSwitch call ret'').mem a = call.mem a := by
    refine hcorrect.keeps (by change 56 ≤ call.sp; omega) (by omega) ?_ ?_
    · change a < call.sp - 56 ∨ call.sp ≤ a
      omega
    · change a ≠ call.reg rdi
      omega
  have hbehind (a : ℕ) (ha : caller.sp - 56 ≤ a) (ha' : a < caller.top) :
      ((port labels).contextSwitch call ret'').mem a =
        ((port labels).contextSwitch machine.cpu ret).mem a := by
    rw [← hthere.stack a ha ha']
    exact hoff a (by omega)
  have hnewSp : call.reg (port labels).spArg = caller.sp - 56 := by
    rw [← hrecords, ← hthere.slot]
    exact hexit.newSp
  obtain ⟨hreg, hsp, hpc⟩ := hcorrect.restores call ret'' machine.cpu.reg ret
    (by rw [hnewSp]; change caller.sp - 56 + 56 < 2 ^ 64; omega)
    (by
      rw [hnewSp]
      refine hframe.congr fun a ha ha' ↦ hbehind a ha ?_
      change a < caller.sp - 56 + 8 * 7 at ha'
      omega)
  rw [hnewSp] at hsp
  rw [hlaunch.sp]
  refine ⟨hpc, hsp.trans (Nat.sub_add_cancel hcallerRoom), hreg, fun a ha ha' ↦ ?_,
    (syscallDispatch_exit hexit.dispatch).2, hoff⟩
  rw [hbehind a (by omega) ha']
  exact hkeeps a (Or.inr ha) (by omega)

/-- A process stays in ring 3 with its selectors and with interrupts enabled as long as it runs. An
interrupt that returns leaves all of its registers and its status as they were, and a system call that
returns sets `rax` and leaves the rest. -/
theorem process_stays_in_userMode (labels : Labels) (caller : CallerSide) (machine : Machine)
    (launchTop params entry userStack ret ret' : ℕ)
    (hlaunch : LaunchCall labels caller machine.cpu launchTop params entry userStack)
    (fbAvailable : Bool) (machine' : Machine)
    (hrun : Relation.ReflTransGen (UserStep caller fbAvailable) (enterProcess labels ret ret' machine)
      machine') :
    machine'.status.cs = userCodeSel ∧ machine'.status.ss = userDataSel ∧
    machine'.cpu.interrupts = true ∧
    (∀ stub ∈ irqStubs, ∀ offset back,
      HandlerReturns caller (machine'.entered caller offset stub) back
        (machine'.registers stub machine'.cpu.reg) →
      resumed back = ⟨{ machine'.cpu with mem := back.mem }, machine'.status⟩) ∧
    ∀ draw value, syscallDispatch fbAvailable machine'.cpu.reg = .returns draw value →
      ∀ offset back, HandlerReturns caller (machine'.entered caller offset isr128) back
        (machine'.registers isr128 (Function.update machine'.cpu.reg rax value)) →
      resumed back = ⟨{ machine'.cpu with
        reg := Function.update machine'.cpu.reg rax value
        mem := back.mem }, machine'.status⟩ := by
  have hmode := userMode_run (hlaunch.enters ret ret').1 hrun
  refine ⟨hmode.cs, hmode.ss, hmode.interrupts, fun stub hstub offset back hreturns ↦ ?_,
    fun draw value hdispatch offset back hreturns ↦ ?_⟩
  · rw [(hmode.resumed_spec (expects_of_mem_irqStubs hstub) hreturns).1, ← hmode.interrupts]
  · rw [(hmode.resumed_spec expects_isr128 hreturns).1, ← hmode.interrupts]

end Return

section Witness

/-- A caller with a stack of a page, `kernel_return_sp` and the stack for interrupts above it. -/
def sampleCaller : CallerSide where
  sp := 2000
  top := 4096
  slot := 5000
  rsp0 := 40960
  sp_room := by decide
  sp_le := by decide
  top_lt := by decide
  rsp0_room := by decide
  rsp0_lt := by decide
  rsp0_aligned := by decide
  stacks_disjoint := by decide
  slot_off_stack := by decide
  slot_off_kernelStack := by decide

/-- The caller passes the address of `kernel_return_sp` and the launch stack, which ends at 7000; the
parameters are at 3000. -/
def sampleMachine : Machine where
  cpu :=
    { reg := fun r ↦ match r with
        | rdi => 5000
        | rsi => 6944
        | rbx => 33
        | _ => 0
      sp := 2000
      pc := 0
      interrupts := true
      mem := fun a ↦
        if a = 6944 + 24 then 3000 else if a = 6944 + 48 then 3
        else if a = 3000 then 0x400000 else if a = 3008 then 0x7F0000
        else if a = 3016 then userDataSel else if a = 3024 then userCodeSel else 0 }
  status := ⟨2, 8, 16⟩

theorem sampleLaunch :
    LaunchCall ⟨1, 2, 3, 4⟩ sampleCaller sampleMachine.cpu 7000 3000 0x400000 0x7F0000 where
  sp := rfl
  slot := rfl
  newSp := rfl
  room := by decide
  lt := by decide
  disjoint := by decide
  slot_off := by decide
  frame := ⟨rfl, rfl, rfl, rfl, rfl, rfl, rfl, trivial⟩
  params_low := by decide
  params_high := by decide
  words := ⟨rfl, rfl, rfl, rfl, trivial⟩

/-- The process loads its registers to exit with code 7. -/
def exiting (machine : Machine) : Machine :=
  ⟨{ machine.cpu with reg := fun r ↦ if r = rdi then 7 else 0 }, machine.status⟩

theorem exiting_step (caller : CallerSide) (machine : Machine) :
    UserStep caller true machine (exiting machine) :=
  .compute (SameStack.refl _) rfl rfl

def sampleLast : Machine := exiting (enterProcess ⟨1, 2, 3, 4⟩ 77 88 sampleMachine)

/-- `process_syscall_exit` switches back. -/
def sampleCall : Cpu X86.Reg where
  reg := fun r ↦ if r = rsi then sampleLast.cpu.mem 5000 else 40000
  sp := 40200
  pc := 0
  interrupts := false
  mem := sampleLast.cpu.mem

/-- The process exits, and the caller goes on with the value in `rbx`. -/
theorem processRun_returns_sample :
    ((port ⟨1, 2, 3, 4⟩).contextSwitch sampleCall 99).pc = 77 ∧
    ((port ⟨1, 2, 3, 4⟩).contextSwitch sampleCall 99).reg rbx = 33 := by
  have hexit : ExitCall sampleCaller true sampleLast 7 sampleCall :=
    ⟨by decide, by decide, by decide, rfl, by decide, by decide, SameStack.refl _⟩
  obtain ⟨hpc, -, hreg, -⟩ := processRun_returns ⟨1, 2, 3, 4⟩ sampleCaller sampleMachine 7000 3000
    0x400000 0x7F0000 77 88 99 sampleLaunch true sampleLast
    (.single (exiting_step sampleCaller _)) 7 sampleCall hexit
  exact ⟨hpc, hreg rbx (by decide)⟩

/-- The first step of the process finds it in ring 3. -/
theorem process_stays_in_userMode_sample :
    (enterProcess ⟨1, 2, 3, 4⟩ 77 88 sampleMachine).status.cs = userCodeSel :=
  (process_stays_in_userMode ⟨1, 2, 3, 4⟩ sampleCaller sampleMachine 7000 3000 0x400000 0x7F0000 77 88
    sampleLaunch true _ .refl).1

end Witness

end MegKer.Process
