import MegKer.Foundation.ContextSwitching

/-!
# The context switch of both ports

`arch_context_switch` in assembly, and the C functions that build the first frame of a context:
`arch_thread_init_stack` for a kernel thread and `build_launch_stack` for a process. The assembly is a
list of instructions, with the meaning of each instruction that occurs there; the code is straight, so
the program counter only matters where an instruction sets it. The builders push the words in the
order of the source.

The frame layout of each port is a list (`frame`), and `port_correct` shows that the pushes, the pops
and the two builders all follow it. The trampolines are the code at which new contexts start.
-/

set_option autoImplicit false
set_option relaxedAutoImplicit false

namespace MegKer.Kernel

open Foundation

/-- The addresses of the routines that the code names. -/
structure Labels where
  archContextSwitch : ℕ
  threadTrampoline : ℕ
  processTrampoline : ℕ
  enterUsermode : ℕ

/-- What a new context is built from: the arguments of `arch_thread_init_stack` or of
`build_launch_stack`. -/
inductive Launch
  | thread (entry arg : ℕ)
  | process (params : ℕ)
  deriving DecidableEq, Repr

/-! ### x86_64 -/

namespace X86

/-- The general registers without `rsp`. -/
inductive Reg
  | rax | rbx | rcx | rdx | rsi | rdi | rbp
  | r8 | r9 | r10 | r11 | r12 | r13 | r14 | r15
  deriving DecidableEq, Repr

open Reg

/-- The instructions of `context_switch.asm`, and of the trampolines up to their calls. A call has the
address of the instruction behind it. -/
inductive Instr
  | push (r : Reg)
  | pop (r : Reg)
  /-- `mov [base], rsp` -/
  | storeSp (base : Reg)
  /-- `mov rsp, src` -/
  | loadSp (src : Reg)
  /-- `mov dst, src` -/
  | mov (dst src : Reg)
  /-- `mov dst, [base + offset]` -/
  | load (dst base : Reg) (offset : ℕ)
  | sti
  | call (target ret : ℕ)
  /-- `call target` through a register -/
  | callReg (target : Reg) (ret : ℕ)
  | ret

/-- Push a word. -/
def push (cpu : Cpu Reg) (value : ℕ) : Cpu Reg :=
  (cpu.setMem (pushWord cpu.mem cpu.sp value).1).setSp (pushWord cpu.mem cpu.sp value).2

def exec (cpu : Cpu Reg) : Instr → Cpu Reg
  | .push r => push cpu (cpu.reg r)
  | .pop r => (cpu.set r (cpu.mem cpu.sp)).setSp (wrap (cpu.sp + 8))
  | .storeSp base => cpu.setMem (cpu.mem.store (cpu.reg base) cpu.sp)
  | .loadSp src => cpu.setSp (cpu.reg src)
  | .mov dst src => cpu.set dst (cpu.reg src)
  | .load dst base offset => cpu.set dst (cpu.mem (wrap (cpu.reg base + offset)))
  | .sti => { cpu with interrupts := true }
  | .call target ret => (push cpu ret).setPc target
  | .callReg target ret => (push cpu ret).setPc (cpu.reg target)
  | .ret => (cpu.setPc (cpu.mem cpu.sp)).setSp (wrap (cpu.sp + 8))

/-- Straight-line code. -/
def run (code : List Instr) (cpu : Cpu Reg) : Cpu Reg := code.foldl exec cpu

def archContextSwitch : List Instr :=
  [.push rbp, .push rbx, .push r12, .push r13, .push r14, .push r15,
   .storeSp rdi, .loadSp rsi,
   .pop r15, .pop r14, .pop r13, .pop r12, .pop rbx, .pop rbp,
   .ret]

/-- `thread_trampoline`, up to the call of the thread's function. -/
def threadTrampoline (ret : ℕ) : List Instr := [.sti, .mov rdi r13, .callReg r12 ret]

/-- `process_trampoline`, up to the call of `enter_usermode`. -/
def processTrampoline (labels : Labels) (ret : ℕ) : List Instr :=
  [.load rdi r12 0, .load rsi r12 8, .load rdx r12 16, .load rcx r12 24,
   .call labels.enterUsermode ret]

def archThreadInitStack (labels : Labels) (mem : WordMemory) (stackTop entry arg : ℕ) :
    WordMemory × ℕ :=
  pushWords mem stackTop
    [labels.threadTrampoline, 0 /- rbp -/, 0 /- rbx -/, entry /- r12 -/, arg /- r13 -/, 0 /- r14 -/,
     0 /- r15 -/]

def buildLaunchStack (labels : Labels) (mem : WordMemory) (stackTop params : ℕ) : WordMemory × ℕ :=
  pushWords mem stackTop
    [labels.processTrampoline, 0 /- rbp -/, 0 /- rbx -/, params /- r12 -/, 0 /- r13 -/, 0 /- r14 -/,
     0 /- r15 -/]

/-- The frame that the pops and the `ret` expect. -/
def frame (reg : Reg → ℕ) (pc : ℕ) : List ℕ :=
  [reg r15, reg r14, reg r13, reg r12, reg rbx, reg rbp, pc]

/-- The registers that a new context starts with. -/
def launchReg : Launch → Reg → ℕ
  | .thread entry arg => fun r ↦ match r with
    | r12 => entry
    | r13 => arg
    | _ => 0
  | .process params => fun r ↦ match r with
    | r12 => params
    | _ => 0

/-- The trampoline of a new context. -/
def launchPc (labels : Labels) : Launch → ℕ
  | .thread _ _ => labels.threadTrampoline
  | .process _ => labels.processTrampoline

/-- The port: the call of `arch_context_switch` with its arguments in `rdi` and `rsi`, and the two
builders. -/
def port (labels : Labels) : SwitchPort Reg Launch where
  saved := [rbp, rbx, r12, r13, r14, r15]
  frameBytes := 56
  frame := frame
  called reg _ := reg
  slotArg := rdi
  spArg := rsi
  contextSwitch cpu ret := run (.call labels.archContextSwitch ret :: archContextSwitch) cpu
  build mem top launch := match launch with
    | .thread entry arg => archThreadInitStack labels mem top entry arg
    | .process params => buildLaunchStack labels mem top params
  launchReg := launchReg
  launchPc := launchPc labels

/-- A new context has arrived in its trampoline on x86_64, on an empty stack. For a thread the
trampoline then enables interrupts and calls `entry(arg)`, for a process it calls `enter_usermode`
with the four words of the `launch_params_t`. -/
def Arrives (labels : Labels) (top : ℕ) (cpu : Cpu Reg) : Launch → Prop
  | .thread entry arg =>
    cpu.pc = labels.threadTrampoline ∧ cpu.sp = top ∧ cpu.reg .r12 = entry ∧ cpu.reg .r13 = arg ∧
    ∀ ret, (run (threadTrampoline ret) cpu).pc = entry ∧
      (run (threadTrampoline ret) cpu).reg .rdi = arg ∧
      (run (threadTrampoline ret) cpu).interrupts = true
  | .process params =>
    cpu.pc = labels.processTrampoline ∧ cpu.sp = top ∧ cpu.reg .r12 = params ∧
    ∀ ret, (run (processTrampoline labels ret) cpu).pc = labels.enterUsermode ∧
      [.rdi, .rsi, .rdx, .rcx].map (run (processTrampoline labels ret) cpu).reg =
        [0, 8, 16, 24].map fun offset ↦ cpu.mem (wrap (params + offset))

theorem run_cons (i : Instr) (code : List Instr) (cpu : Cpu Reg) :
    run (i :: code) cpu = run code (exec cpu i) :=
  rfl

theorem run_append (code more : List Instr) (cpu : Cpu Reg) :
    run (code ++ more) cpu = run more (run code cpu) :=
  List.foldl_append

@[simp] theorem push_reg (cpu : Cpu Reg) (value : ℕ) : (push cpu value).reg = cpu.reg := by
  simp [push]

@[simp] theorem push_mem (cpu : Cpu Reg) (value : ℕ) :
    (push cpu value).mem = (pushWord cpu.mem cpu.sp value).1 := by
  simp [push]

@[simp] theorem push_sp (cpu : Cpu Reg) (value : ℕ) :
    (push cpu value).sp = (pushWord cpu.mem cpu.sp value).2 := by
  simp [push]

/-- Pushing registers one after the other pushes their values. -/
theorem run_push (regs : List Reg) (cpu : Cpu Reg) :
    (run (regs.map .push) cpu).reg = cpu.reg ∧
      (run (regs.map .push) cpu).mem = (pushWords cpu.mem cpu.sp (regs.map cpu.reg)).1 ∧
      (run (regs.map .push) cpu).sp = (pushWords cpu.mem cpu.sp (regs.map cpu.reg)).2 := by
  induction regs generalizing cpu with
  | nil => exact ⟨rfl, rfl, rfl⟩
  | cons r regs ih =>
    have hrest := ih (push cpu (cpu.reg r))
    rw [push_mem, push_sp, push_reg] at hrest
    rw [List.map_cons, List.map_cons, run_cons, exec, pushWords]
    exact hrest

theorem exec_pop (cpu : Cpu Reg) (r : Reg) :
    (exec cpu (.pop r)).reg = Function.update cpu.reg r (cpu.mem cpu.sp) ∧
      (exec cpu (.pop r)).sp = wrap (cpu.sp + 8) ∧ (exec cpu (.pop r)).mem = cpu.mem := by
  simp [exec]

theorem run_pop_mem (regs : List Reg) (cpu : Cpu Reg) :
    (run (regs.map .pop) cpu).mem = cpu.mem := by
  induction regs generalizing cpu with
  | nil => rfl
  | cons r regs ih => rw [List.map_cons, run_cons, ih, (exec_pop cpu r).2.2]

/-- Popping registers loads them from the words of a frame. -/
theorem run_pop {regs : List Reg} (hnodup : regs.Nodup) {cpu : Cpu Reg} {value : Reg → ℕ}
    (hsp : cpu.sp + 8 * regs.length < 2 ^ 64) (hframe : FrameAt cpu.mem cpu.sp (regs.map value)) :
    (∀ r ∈ regs, (run (regs.map .pop) cpu).reg r = value r) ∧
      (∀ r ∉ regs, (run (regs.map .pop) cpu).reg r = cpu.reg r) ∧
      (run (regs.map .pop) cpu).sp = cpu.sp + 8 * regs.length := by
  induction regs generalizing cpu with
  | nil => exact ⟨fun r hr ↦ absurd hr List.not_mem_nil, fun r _ ↦ rfl, rfl⟩
  | cons r regs ih =>
    rw [List.length_cons] at hsp ⊢
    obtain ⟨hword, hrest⟩ := hframe
    obtain ⟨hreg, hsp', hmem⟩ := exec_pop cpu r
    rw [wrap_of_lt (by omega)] at hsp'
    rw [List.map_cons, run_cons]
    obtain ⟨hloaded, hother, hend⟩ := @ih (List.nodup_cons.mp hnodup).2 (exec cpu (.pop r))
      (by omega) (by rw [hsp', hmem]; exact hrest)
    refine ⟨fun r' hr' ↦ ?_, fun r' hr' ↦ ?_, by omega⟩
    · rcases List.mem_cons.mp hr' with rfl | htail
      · rw [hother r' (List.nodup_cons.mp hnodup).1, hreg, Function.update_self, hword]
      · exact hloaded r' htail
    · rw [List.mem_cons, not_or] at hr'
      rw [hother r' hr'.2, hreg, Function.update_of_ne hr'.1]

/-- The processor after the call and the pushes of the routine. -/
def pushed (labels : Labels) (cpu : Cpu Reg) (ret : ℕ) : Cpu Reg :=
  run ([rbp, rbx, r12, r13, r14, r15].map .push) (exec cpu (.call labels.archContextSwitch ret))

/-- The processor before the pops. -/
def switched (labels : Labels) (cpu : Cpu Reg) (ret : ℕ) : Cpu Reg :=
  run [.storeSp rdi, .loadSp rsi] (pushed labels cpu ret)

theorem contextSwitch_eq (labels : Labels) (cpu : Cpu Reg) (ret : ℕ) :
    (port labels).contextSwitch cpu ret =
      exec (run ([r15, r14, r13, r12, rbx, rbp].map .pop) (switched labels cpu ret)) .ret := by
  have hcode : archContextSwitch = [rbp, rbx, r12, r13, r14, r15].map .push ++
      ([.storeSp rdi, .loadSp rsi] ++ ([r15, r14, r13, r12, rbx, rbp].map .pop ++ [.ret])) := rfl
  change run (.call labels.archContextSwitch ret :: archContextSwitch) cpu = _
  rw [run_cons, hcode, run_append, run_append, run_append]
  rfl

/-- The pushes make the frame. -/
theorem pushed_spec (labels : Labels) (cpu : Cpu Reg) (ret : ℕ) :
    (pushed labels cpu ret).reg = cpu.reg ∧
      (pushed labels cpu ret).mem = (pushWords cpu.mem cpu.sp (frame cpu.reg ret).reverse).1 ∧
      (pushed labels cpu ret).sp = (pushWords cpu.mem cpu.sp (frame cpu.reg ret).reverse).2 := by
  have hframe : (frame cpu.reg ret).reverse =
      ret :: [rbp, rbx, r12, r13, r14, r15].map cpu.reg := rfl
  have hpushes := run_push [rbp, rbx, r12, r13, r14, r15]
    (exec cpu (.call labels.archContextSwitch ret))
  simp only [exec, Cpu.setPc_reg, Cpu.setPc_mem, Cpu.setPc_sp, push_reg, push_mem, push_sp] at hpushes
  rw [hframe, pushWords, pushed, exec]
  exact hpushes

/-- The registers and memory before the pops: the frame is pushed and the stack pointer recorded. -/
theorem switched_spec (labels : Labels) (cpu : Cpu Reg) (ret : ℕ) :
    (switched labels cpu ret).sp = cpu.reg rsi ∧
      (switched labels cpu ret).mem =
        (pushWords cpu.mem cpu.sp (frame cpu.reg ret).reverse).1.store (cpu.reg rdi)
          (pushWords cpu.mem cpu.sp (frame cpu.reg ret).reverse).2 := by
  obtain ⟨hreg, hmem, hsp⟩ := pushed_spec labels cpu ret
  rw [← hmem, ← hsp, ← hreg, switched]
  exact ⟨by simp [exec, run], by simp [exec, run]⟩

theorem contextSwitch_mem (labels : Labels) (cpu : Cpu Reg) (ret : ℕ) :
    ((port labels).contextSwitch cpu ret).mem = (switched labels cpu ret).mem := by
  rw [contextSwitch_eq, exec, Cpu.setSp_mem, Cpu.setPc_mem, run_pop_mem]

theorem port_correct (labels : Labels) : (port labels).Correct where
  frame_length _ _ := rfl
  saves cpu ret hroom hsp := by
    have hlength : 8 * (frame cpu.reg ret).reverse.length = 56 := rfl
    obtain ⟨-, hmem⟩ := switched_spec labels cpu ret
    refine ⟨(pushWords cpu.mem cpu.sp (frame cpu.reg ret).reverse).1, ?_, fun a ha ↦ ?_, ?_⟩
    · have hframe := frameAt_pushWords cpu.mem (hlength.trans_le hroom) hsp
      rw [List.reverse_reverse] at hframe
      exact hframe
    · exact pushWords_of_outside (hlength.trans_le hroom) hsp ha
    · rw [contextSwitch_mem, hmem, pushWords_sp (hlength.trans_le hroom) hsp]
      rfl
  restores cpu ret reg pc hsp hframe := by
    have hsp : cpu.reg rsi + 56 < 2 ^ 64 := hsp
    obtain ⟨hnew, -⟩ := switched_spec labels cpu ret
    have hwords : FrameAt (switched labels cpu ret).mem (switched labels cpu ret).sp
        ([r15, r14, r13, r12, rbx, rbp].map reg ++ [pc]) := by
      rw [hnew, ← contextSwitch_mem]
      exact hframe
    obtain ⟨hregs, hpc, -⟩ := frameAt_append.mp hwords
    have hroom : (switched labels cpu ret).sp + 8 * 6 < 2 ^ 64 := by omega
    obtain ⟨hloaded, -, hend⟩ := run_pop (by decide) hroom hregs
    have hend : (run ([r15, r14, r13, r12, rbx, rbp].map .pop) (switched labels cpu ret)).sp =
        cpu.reg rsi + 48 := by rw [hend, hnew]; rfl
    rw [contextSwitch_eq, exec, Cpu.setSp_reg, Cpu.setPc_reg, Cpu.setSp_sp, Cpu.setSp_pc,
      Cpu.setPc_pc, run_pop_mem, hend]
    refine ⟨fun r hr ↦ hloaded r ?_, wrap_of_lt hsp, ?_⟩
    · exact (show [rbp, rbx, r12, r13, r14, r15] ⊆ [r15, r14, r13, r12, rbx, rbp] by decide) hr
    · rw [hnew] at hpc
      exact hpc
  builds mem top launch := by cases launch <;> rfl

/-- A thread starts with interrupts enabled, in the function in `r12` with the argument in `r13`. -/
theorem run_threadTrampoline (cpu : Cpu Reg) (ret : ℕ) :
    (run (threadTrampoline ret) cpu).pc = cpu.reg r12 ∧
      (run (threadTrampoline ret) cpu).reg rdi = cpu.reg r13 ∧
      (run (threadTrampoline ret) cpu).interrupts = true := by
  simp [run, threadTrampoline, exec, push]

/-- A process starts in `enter_usermode`, with the four words at `r12` as arguments. -/
theorem run_processTrampoline (labels : Labels) (cpu : Cpu Reg) (ret : ℕ) :
    (run (processTrampoline labels ret) cpu).pc = labels.enterUsermode ∧
      [rdi, rsi, rdx, rcx].map (run (processTrampoline labels ret) cpu).reg =
        [0, 8, 16, 24].map fun offset ↦ cpu.mem (wrap (cpu.reg r12 + offset)) := by
  simp [run, processTrampoline, exec]

end X86

/-! ### aarch64 -/

namespace AArch64

/-- The registers `x0` to `x30`. -/
abbrev Reg := Fin 31

/-- The instructions of `context_switch.S`, and of the trampolines up to their calls. -/
inductive Instr
  /-- `sub sp, sp, #n` -/
  | subSp (n : ℕ)
  /-- `add sp, sp, #n` -/
  | addSp (n : ℕ)
  /-- `stp a, b, [sp, #offset]` -/
  | stp (a b : Reg) (offset : ℕ)
  /-- `ldp a, b, [sp, #offset]` -/
  | ldp (a b : Reg) (offset : ℕ)
  /-- `mov dst, sp` -/
  | movFromSp (dst : Reg)
  /-- `mov sp, src` -/
  | movToSp (src : Reg)
  /-- `mov dst, src` -/
  | mov (dst src : Reg)
  /-- `str src, [base]` -/
  | str (src base : Reg)
  /-- `ldr dst, [base, #offset]` -/
  | ldr (dst base : Reg) (offset : ℕ)
  /-- `msr daifclr, #0xf` -/
  | daifclr
  | bl (target ret : ℕ)
  | blr (target : Reg) (ret : ℕ)
  | ret

def exec (cpu : Cpu Reg) : Instr → Cpu Reg
  | .subSp n => cpu.setSp (wrapSub cpu.sp n)
  | .addSp n => cpu.setSp (wrap (cpu.sp + n))
  | .stp a b offset =>
    cpu.setMem ((cpu.mem.store (wrap (cpu.sp + offset)) (cpu.reg a)).store
      (wrap (cpu.sp + offset + 8)) (cpu.reg b))
  | .ldp a b offset =>
    (cpu.set a (cpu.mem (wrap (cpu.sp + offset)))).set b (cpu.mem (wrap (cpu.sp + offset + 8)))
  | .movFromSp dst => cpu.set dst cpu.sp
  | .movToSp src => cpu.setSp (cpu.reg src)
  | .mov dst src => cpu.set dst (cpu.reg src)
  | .str src base => cpu.setMem (cpu.mem.store (cpu.reg base) (cpu.reg src))
  | .ldr dst base offset => cpu.set dst (cpu.mem (wrap (cpu.reg base + offset)))
  | .daifclr => { cpu with interrupts := true }
  | .bl target ret => (cpu.set 30 ret).setPc target
  | .blr target ret => (cpu.set 30 ret).setPc (cpu.reg target)
  | .ret => cpu.setPc (cpu.reg 30)

/-- Straight-line code. -/
def run (code : List Instr) (cpu : Cpu Reg) : Cpu Reg := code.foldl exec cpu

def archContextSwitch : List Instr :=
  [.subSp 96,
   .stp 19 20 0, .stp 21 22 16, .stp 23 24 32, .stp 25 26 48, .stp 27 28 64, .stp 29 30 80,
   .movFromSp 2, .str 2 0,
   .movToSp 1,
   .ldp 19 20 0, .ldp 21 22 16, .ldp 23 24 32, .ldp 25 26 48, .ldp 27 28 64, .ldp 29 30 80,
   .addSp 96,
   .ret]

/-- `thread_trampoline`, up to the call of the thread's function. -/
def threadTrampoline (ret : ℕ) : List Instr := [.daifclr, .mov 0 20, .blr 19 ret]

/-- `process_trampoline`, up to the call of `enter_usermode`. -/
def processTrampoline (labels : Labels) (ret : ℕ) : List Instr :=
  [.ldr 0 19 0, .ldr 1 19 8, .bl labels.enterUsermode ret]

def archThreadInitStack (labels : Labels) (mem : WordMemory) (stackTop entry arg : ℕ) :
    WordMemory × ℕ :=
  pushWords mem stackTop
    [labels.threadTrampoline /- x30 -/, 0 /- x29 -/, 0 /- x28 -/, 0 /- x27 -/, 0 /- x26 -/,
     0 /- x25 -/, 0 /- x24 -/, 0 /- x23 -/, 0 /- x22 -/, 0 /- x21 -/, arg /- x20 -/, entry /- x19 -/]

def buildLaunchStack (labels : Labels) (mem : WordMemory) (stackTop params : ℕ) : WordMemory × ℕ :=
  pushWords mem stackTop
    [labels.processTrampoline /- x30 -/, 0 /- x29 -/, 0 /- x28 -/, 0 /- x27 -/, 0 /- x26 -/,
     0 /- x25 -/, 0 /- x24 -/, 0 /- x23 -/, 0 /- x22 -/, 0 /- x21 -/, 0 /- x20 -/, params /- x19 -/]

/-- The frame that the loads expect, with the address of the `ret` in the place of `x30`. -/
def frame (reg : Reg → ℕ) (pc : ℕ) : List ℕ :=
  [reg 19, reg 20, reg 21, reg 22, reg 23, reg 24, reg 25, reg 26, reg 27, reg 28, reg 29, pc]

/-- The registers that a new context starts with, apart from `x30`. -/
def launchReg : Launch → Reg → ℕ
  | .thread entry arg => fun r ↦ if r = 19 then entry else if r = 20 then arg else 0
  | .process params => fun r ↦ if r = 19 then params else 0

/-- The trampoline of a new context. -/
def launchPc (labels : Labels) : Launch → ℕ
  | .thread _ _ => labels.threadTrampoline
  | .process _ => labels.processTrampoline

/-- The port: the call of `arch_context_switch` with its arguments in `x0` and `x1`, and the two
builders. The call leaves its return address in `x30`. -/
def port (labels : Labels) : SwitchPort Reg Launch where
  saved := [19, 20, 21, 22, 23, 24, 25, 26, 27, 28, 29, 30]
  frameBytes := 96
  frame := frame
  called reg ret := Function.update reg 30 ret
  slotArg := 0
  spArg := 1
  contextSwitch cpu ret := run (.bl labels.archContextSwitch ret :: archContextSwitch) cpu
  build mem top launch := match launch with
    | .thread entry arg => archThreadInitStack labels mem top entry arg
    | .process params => buildLaunchStack labels mem top params
  launchReg := launchReg
  launchPc := launchPc labels

/-- The same on aarch64, where a `launch_params_t` has two words. -/
def Arrives (labels : Labels) (top : ℕ) (cpu : Cpu Reg) : Launch → Prop
  | .thread entry arg =>
    cpu.pc = labels.threadTrampoline ∧ cpu.sp = top ∧ cpu.reg 19 = entry ∧ cpu.reg 20 = arg ∧
    ∀ ret, (run (threadTrampoline ret) cpu).pc = entry ∧
      (run (threadTrampoline ret) cpu).reg 0 = arg ∧
      (run (threadTrampoline ret) cpu).interrupts = true
  | .process params =>
    cpu.pc = labels.processTrampoline ∧ cpu.sp = top ∧ cpu.reg 19 = params ∧
    ∀ ret, (run (processTrampoline labels ret) cpu).pc = labels.enterUsermode ∧
      (run (processTrampoline labels ret) cpu).reg 0 = cpu.mem (wrap params) ∧
      (run (processTrampoline labels ret) cpu).reg 1 = cpu.mem (wrap (params + 8))

theorem run_cons (i : Instr) (code : List Instr) (cpu : Cpu Reg) :
    run (i :: code) cpu = run code (exec cpu i) :=
  rfl

theorem run_append (code more : List Instr) (cpu : Cpu Reg) :
    run (code ++ more) cpu = run more (run code cpu) :=
  List.foldl_append

/-- Store or load pairs of registers at consecutive places. -/
def pairwise (instr : Reg → Reg → ℕ → Instr) : List (Reg × Reg) → ℕ → List Instr
  | [], _ => []
  | (a, b) :: pairs, offset => instr a b offset :: pairwise instr pairs (offset + 16)

/-- The registers of some pairs. -/
def flat (pairs : List (Reg × Reg)) : List Reg := pairs.flatMap fun p ↦ [p.1, p.2]

theorem exec_stp (cpu : Cpu Reg) (a b : Reg) (offset : ℕ) :
    (exec cpu (.stp a b offset)).reg = cpu.reg ∧ (exec cpu (.stp a b offset)).sp = cpu.sp ∧
      (exec cpu (.stp a b offset)).mem = (cpu.mem.store (wrap (cpu.sp + offset)) (cpu.reg a)).store
        (wrap (cpu.sp + offset + 8)) (cpu.reg b) := by
  simp [exec]

theorem exec_ldp (cpu : Cpu Reg) (a b : Reg) (offset : ℕ) :
    (exec cpu (.ldp a b offset)).reg =
        Function.update (Function.update cpu.reg a (cpu.mem (wrap (cpu.sp + offset)))) b
          (cpu.mem (wrap (cpu.sp + offset + 8))) ∧
      (exec cpu (.ldp a b offset)).sp = cpu.sp ∧ (exec cpu (.ldp a b offset)).mem = cpu.mem := by
  simp [exec]

theorem run_stp_reg (pairs : List (Reg × Reg)) (offset : ℕ) (cpu : Cpu Reg) :
    (run (pairwise .stp pairs offset) cpu).reg = cpu.reg ∧
      (run (pairwise .stp pairs offset) cpu).sp = cpu.sp := by
  induction pairs generalizing cpu offset with
  | nil => exact ⟨rfl, rfl⟩
  | cons p pairs ih =>
    obtain ⟨hreg, hsp⟩ := ih (offset + 16) (exec cpu (.stp p.1 p.2 offset))
    obtain ⟨hreg', hsp', -⟩ := exec_stp cpu p.1 p.2 offset
    rw [pairwise, run_cons]
    exact ⟨hreg.trans hreg', hsp.trans hsp'⟩

/-- Storing pairs of registers writes their values as a frame, and nothing else. -/
theorem run_stp {pairs : List (Reg × Reg)} {cpu : Cpu Reg} {offset : ℕ}
    (hsp : cpu.sp + offset + 8 * (flat pairs).length < 2 ^ 64) :
    FrameAt (run (pairwise .stp pairs offset) cpu).mem (cpu.sp + offset)
        ((flat pairs).map cpu.reg) ∧
      ∀ a, a < cpu.sp + offset ∨ cpu.sp + offset + 8 * (flat pairs).length ≤ a →
        (run (pairwise .stp pairs offset) cpu).mem a = cpu.mem a := by
  induction pairs generalizing cpu offset with
  | nil => exact ⟨trivial, fun a _ ↦ rfl⟩
  | cons p pairs ih =>
    have hlength : (flat (p :: pairs)).length = (flat pairs).length + 2 := rfl
    rw [hlength] at hsp ⊢
    obtain ⟨hreg, hsp', hmem⟩ := exec_stp cpu p.1 p.2 offset
    rw [wrap_of_lt (by omega), wrap_of_lt (by omega)] at hmem
    obtain ⟨hframe, hout⟩ := @ih (exec cpu (.stp p.1 p.2 offset)) (offset + 16) (by omega)
    rw [hreg] at hframe
    rw [hsp'] at hframe hout
    rw [hmem] at hout
    rw [pairwise, run_cons]
    refine ⟨⟨?_, ?_, hframe⟩, fun a ha ↦ ?_⟩
    · rw [hout _ (by omega), WordMemory.store_of_ne _ _ (by omega), WordMemory.store_same]
    · rw [hout _ (by omega), WordMemory.store_same]
    · rw [hout a (by omega), WordMemory.store_of_ne _ _ (by omega),
        WordMemory.store_of_ne _ _ (by omega)]

theorem run_ldp_mem (pairs : List (Reg × Reg)) (offset : ℕ) (cpu : Cpu Reg) :
    (run (pairwise .ldp pairs offset) cpu).mem = cpu.mem ∧
      (run (pairwise .ldp pairs offset) cpu).sp = cpu.sp := by
  induction pairs generalizing cpu offset with
  | nil => exact ⟨rfl, rfl⟩
  | cons p pairs ih =>
    obtain ⟨hmem, hsp⟩ := ih (offset + 16) (exec cpu (.ldp p.1 p.2 offset))
    obtain ⟨-, hsp', hmem'⟩ := exec_ldp cpu p.1 p.2 offset
    rw [pairwise, run_cons]
    exact ⟨hmem.trans hmem', hsp.trans hsp'⟩

/-- Loading pairs of registers reads them from the words of a frame. -/
theorem run_ldp {pairs : List (Reg × Reg)} (hnodup : (flat pairs).Nodup) {cpu : Cpu Reg}
    {offset : ℕ} {value : Reg → ℕ} (hsp : cpu.sp + offset + 8 * (flat pairs).length < 2 ^ 64)
    (hframe : FrameAt cpu.mem (cpu.sp + offset) ((flat pairs).map value)) :
    (∀ r ∈ flat pairs, (run (pairwise .ldp pairs offset) cpu).reg r = value r) ∧
      ∀ r ∉ flat pairs, (run (pairwise .ldp pairs offset) cpu).reg r = cpu.reg r := by
  induction pairs generalizing cpu offset with
  | nil => exact ⟨fun r hr ↦ absurd hr List.not_mem_nil, fun r _ ↦ rfl⟩
  | cons p pairs ih =>
    have hlength : (flat (p :: pairs)).length = (flat pairs).length + 2 := rfl
    have hflat : flat (p :: pairs) = p.1 :: p.2 :: flat pairs := rfl
    rw [hlength] at hsp
    rw [hflat, List.nodup_cons, List.nodup_cons, List.mem_cons, not_or] at hnodup
    obtain ⟨⟨hne, hfirst⟩, hsecond, hnodup⟩ := hnodup
    obtain ⟨hword, hword', hrest⟩ := hframe
    obtain ⟨hreg, hsp', hmem⟩ := exec_ldp cpu p.1 p.2 offset
    rw [wrap_of_lt (by omega), wrap_of_lt (by omega), hword, hword'] at hreg
    obtain ⟨hloaded, hother⟩ := @ih hnodup (exec cpu (.ldp p.1 p.2 offset)) (offset + 16)
      (by omega) (by rw [hsp', hmem]; exact hrest)
    rw [pairwise, run_cons, hflat]
    refine ⟨fun r hr ↦ ?_, fun r hr ↦ ?_⟩
    · rcases List.mem_cons.mp hr with rfl | htail
      · rw [hother _ hfirst, hreg, Function.update_of_ne hne, Function.update_self]
      · rcases List.mem_cons.mp htail with rfl | htail
        · rw [hother _ hsecond, hreg, Function.update_self]
        · exact hloaded r htail
    · rw [List.mem_cons, List.mem_cons, not_or, not_or] at hr
      rw [hother r hr.2.2, hreg, Function.update_of_ne hr.2.1, Function.update_of_ne hr.1]

/-- The pairs in the order of the routine. -/
def savedPairs : List (Reg × Reg) := [(19, 20), (21, 22), (23, 24), (25, 26), (27, 28), (29, 30)]

theorem frame_eq (reg : Reg → ℕ) (pc : ℕ) :
    frame reg pc = (flat savedPairs).map (Function.update reg 30 pc) :=
  rfl

/-- The processor after the call and the move of the stack pointer. -/
def entered (labels : Labels) (cpu : Cpu Reg) (ret : ℕ) : Cpu Reg :=
  exec (exec cpu (.bl labels.archContextSwitch ret)) (.subSp 96)

/-- The processor before the loads. -/
def switched (labels : Labels) (cpu : Cpu Reg) (ret : ℕ) : Cpu Reg :=
  run [.movFromSp 2, .str 2 0, .movToSp 1]
    (run (pairwise .stp savedPairs 0) (entered labels cpu ret))

theorem contextSwitch_eq (labels : Labels) (cpu : Cpu Reg) (ret : ℕ) :
    (port labels).contextSwitch cpu ret =
      run [.addSp 96, .ret] (run (pairwise .ldp savedPairs 0) (switched labels cpu ret)) := by
  have hcode : archContextSwitch = .subSp 96 :: (pairwise .stp savedPairs 0 ++
      ([.movFromSp 2, .str 2 0, .movToSp 1] ++ (pairwise .ldp savedPairs 0 ++ [.addSp 96, .ret]))) :=
    rfl
  change run (.bl labels.archContextSwitch ret :: archContextSwitch) cpu = _
  rw [run_cons, hcode, run_cons, run_append, run_append, run_append]
  rfl

theorem entered_spec (labels : Labels) (cpu : Cpu Reg) (ret : ℕ) :
    (entered labels cpu ret).reg = Function.update cpu.reg 30 ret ∧
      (entered labels cpu ret).sp = wrapSub cpu.sp 96 ∧
      (entered labels cpu ret).mem = cpu.mem := by
  simp [entered, exec]

theorem run_record (cpu : Cpu Reg) :
    (run [.movFromSp 2, .str 2 0, .movToSp 1] cpu).sp = cpu.reg 1 ∧
      (run [.movFromSp 2, .str 2 0, .movToSp 1] cpu).mem =
        cpu.mem.store (cpu.reg 0) cpu.sp := by
  simp [run, exec]

theorem run_return (cpu : Cpu Reg) :
    (run [.addSp 96, .ret] cpu).reg = cpu.reg ∧
      (run [.addSp 96, .ret] cpu).sp = wrap (cpu.sp + 96) ∧
      (run [.addSp 96, .ret] cpu).pc = cpu.reg 30 ∧ (run [.addSp 96, .ret] cpu).mem = cpu.mem := by
  simp [run, exec]

/-- Before the loads, the stack pointer is the new one, and the old one is recorded behind the
stores. -/
theorem switched_spec (labels : Labels) (cpu : Cpu Reg) (ret : ℕ) :
    (switched labels cpu ret).sp = cpu.reg 1 ∧
      (switched labels cpu ret).mem =
        (run (pairwise .stp savedPairs 0) (entered labels cpu ret)).mem.store (cpu.reg 0)
          (wrapSub cpu.sp 96) := by
  obtain ⟨hreg, hsp, -⟩ := entered_spec labels cpu ret
  obtain ⟨hreg', hsp'⟩ := run_stp_reg savedPairs 0 (entered labels cpu ret)
  obtain ⟨hnew, hmem⟩ :=
    run_record (run (pairwise .stp savedPairs 0) (entered labels cpu ret))
  rw [hreg', hreg] at hnew hmem
  rw [hsp', hsp] at hmem
  exact ⟨hnew, hmem⟩

theorem contextSwitch_mem (labels : Labels) (cpu : Cpu Reg) (ret : ℕ) :
    ((port labels).contextSwitch cpu ret).mem = (switched labels cpu ret).mem := by
  rw [contextSwitch_eq, (run_return _).2.2.2, (run_ldp_mem _ _ _).1]

theorem port_correct (labels : Labels) : (port labels).Correct where
  frame_length _ _ := rfl
  saves cpu ret hroom hsp := by
    have hroom : 96 ≤ cpu.sp := hroom
    have hlength : (flat savedPairs).length = 12 := rfl
    obtain ⟨hreg, hsp', hmem⟩ := entered_spec labels cpu ret
    rw [wrapSub_of_le hroom hsp] at hsp'
    obtain ⟨hframe, hout⟩ := @run_stp savedPairs (entered labels cpu ret) 0 (by omega)
    rw [hreg, hsp', ← frame_eq] at hframe
    rw [hsp', hmem, hlength] at hout
    refine ⟨(run (pairwise .stp savedPairs 0) (entered labels cpu ret)).mem, hframe,
      fun a ha ↦ hout a ?_, ?_⟩
    · change a < cpu.sp - 96 ∨ cpu.sp ≤ a at ha
      omega
    · rw [contextSwitch_mem, (switched_spec labels cpu ret).2, wrapSub_of_le hroom hsp]
      rfl
  restores cpu ret reg pc hsp hframe := by
    have hsp : cpu.reg 1 + 96 < 2 ^ 64 := hsp
    obtain ⟨hnew, -⟩ := switched_spec labels cpu ret
    have hwords : FrameAt (switched labels cpu ret).mem ((switched labels cpu ret).sp + 0)
        ((flat savedPairs).map (Function.update reg 30 pc)) := by
      rw [hnew, ← contextSwitch_mem, ← frame_eq]
      exact hframe
    have hlength : (flat savedPairs).length = 12 := rfl
    obtain ⟨hloaded, -⟩ := run_ldp (by decide) (by omega) hwords
    have hend := (run_ldp_mem savedPairs 0 (switched labels cpu ret)).2
    obtain ⟨hreg, hsp', hpc, -⟩ :=
      run_return (run (pairwise .ldp savedPairs 0) (switched labels cpu ret))
    rw [contextSwitch_eq, hreg, hsp', hpc, hend, hnew]
    exact ⟨hloaded, wrap_of_lt hsp, hloaded 30 (by decide)⟩
  builds mem top launch := by cases launch <;> rfl

/-- A thread starts with interrupts enabled, in the function in `x19` with the argument in `x20`. -/
theorem run_threadTrampoline (cpu : Cpu Reg) (ret : ℕ) :
    (run (threadTrampoline ret) cpu).pc = cpu.reg 19 ∧
      (run (threadTrampoline ret) cpu).reg 0 = cpu.reg 20 ∧
      (run (threadTrampoline ret) cpu).interrupts = true := by
  simp [run, threadTrampoline, exec]

/-- A process starts in `enter_usermode`, with the two words at `x19` as arguments. -/
theorem run_processTrampoline (labels : Labels) (cpu : Cpu Reg) (ret : ℕ) :
    (run (processTrampoline labels ret) cpu).pc = labels.enterUsermode ∧
      (run (processTrampoline labels ret) cpu).reg 0 = cpu.mem (wrap (cpu.reg 19)) ∧
      (run (processTrampoline labels ret) cpu).reg 1 = cpu.mem (wrap (cpu.reg 19 + 8)) := by
  simp [run, processTrampoline, exec]

end AArch64

end MegKer.Kernel
