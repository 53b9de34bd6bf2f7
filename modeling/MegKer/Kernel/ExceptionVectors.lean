import MegKer.Foundation.TrapFrame
import MegKer.Kernel.ContextSwitch

/-!
# Exception entry and exit on aarch64

`exceptions.S` between the processor and its two C handlers. The processor keeps where it was in `ELR_EL1`
and `SPSR_EL1`, of which there is one each, so `kernel_entry` stores them on the stack with `x0` to `x30`
and `kernel_exit` loads them back before the `eret`. An exception from EL0 arrives on the other stack
pointer.

`aarch64RegsT` is the frame in the order of `regs.h`, without the last word, which is never written.
`kernelEntry_spec` says that the entry leaves it on the stack and `kernelExit_spec` that the exit loads
the processor from it, so that the two are a `TrapPort`.
-/

set_option autoImplicit false
set_option relaxedAutoImplicit false

namespace MegKer.Kernel.AArch64

open Foundation

/-! ### The processor -/

/-- A number names a register. -/
instance neZero_reg : NeZero 31 := ⟨Nat.succ_ne_zero 30⟩

/-- The registers of an exception: `ELR_EL1`, `SPSR_EL1`, PSTATE in the format of `SPSR_EL1`, and the
stack pointer of the exception level that is not running. -/
structure ExceptionState where
  elr : ℕ
  spsr : ℕ
  pstate : ℕ
  bankedSp : ℕ
  deriving DecidableEq, Repr

/-- The exception level in PSTATE. -/
def exceptionLevel (pstate : ℕ) : ℕ := pstate / 4 % 4

/-- PSTATE in a handler: EL1 on its own stack pointer, with all interrupts masked. -/
def handlerPstate : ℕ := 0x3C5

/-- An exception that is taken to EL1, at an entry of the vector table. -/
def takeException (vector : ℕ) (cpu : Cpu Reg) (state : ExceptionState) : Cpu Reg × ExceptionState :=
  let fromUser := exceptionLevel state.pstate = 0
  ({ cpu with
      sp := if fromUser then state.bankedSp else cpu.sp, pc := vector, interrupts := false },
    { elr := cpu.pc, spsr := state.pstate, pstate := handlerPstate,
      bankedSp := if fromUser then cpu.sp else state.bankedSp })

/-- `eret`. Interrupts are enabled when the I bit of PSTATE is clear. -/
def eret (cpu : Cpu Reg) (state : ExceptionState) : Cpu Reg × ExceptionState :=
  let toUser := exceptionLevel state.spsr = 0
  ({ cpu with
      sp := if toUser then state.bankedSp else cpu.sp, pc := state.elr
      interrupts := !state.spsr.testBit 7 },
    { state with
      pstate := state.spsr, bankedSp := if toUser then cpu.sp else state.bankedSp })

/-! ### The code -/

/-- The instructions of `exceptions.S` up to the `eret`: those of the context switch, and the accesses
to the registers of an exception. -/
inductive TrapInstr
  | base (instr : Instr)
  /-- `mrs dst, elr_el1` -/
  | mrsElr (dst : Reg)
  /-- `mrs dst, spsr_el1` -/
  | mrsSpsr (dst : Reg)
  /-- `msr elr_el1, src` -/
  | msrElr (src : Reg)
  /-- `msr spsr_el1, src` -/
  | msrSpsr (src : Reg)
  /-- `str src, [sp, #offset]` -/
  | strSp (src : Reg) (offset : ℕ)
  /-- `ldr dst, [sp, #offset]` -/
  | ldrSp (dst : Reg) (offset : ℕ)

def trapExec (s : Cpu Reg × ExceptionState) : TrapInstr → Cpu Reg × ExceptionState
  | .base instr => (exec s.1 instr, s.2)
  | .mrsElr dst => (s.1.set dst s.2.elr, s.2)
  | .mrsSpsr dst => (s.1.set dst s.2.spsr, s.2)
  | .msrElr src => (s.1, { s.2 with elr := s.1.reg src })
  | .msrSpsr src => (s.1, { s.2 with spsr := s.1.reg src })
  | .strSp src offset => (s.1.setMem (s.1.mem.store (wrap (s.1.sp + offset)) (s.1.reg src)), s.2)
  | .ldrSp dst offset => (s.1.set dst (s.1.mem (wrap (s.1.sp + offset))), s.2)

def trapRun (code : List TrapInstr) (s : Cpu Reg × ExceptionState) : Cpu Reg × ExceptionState :=
  code.foldl trapExec s

def kernelEntry : List TrapInstr :=
  [.base (.subSp 272),
   .base (.stp 0 1 0), .base (.stp 2 3 16), .base (.stp 4 5 32), .base (.stp 6 7 48),
   .base (.stp 8 9 64), .base (.stp 10 11 80), .base (.stp 12 13 96), .base (.stp 14 15 112),
   .base (.stp 16 17 128), .base (.stp 18 19 144), .base (.stp 20 21 160), .base (.stp 22 23 176),
   .base (.stp 24 25 192), .base (.stp 26 27 208), .base (.stp 28 29 224),
   .mrsElr 0, .base (.stp 30 0 240),
   .mrsSpsr 0, .strSp 0 256]

/-- `kernel_exit`, up to the `eret`. -/
def kernelExit : List TrapInstr :=
  [.ldrSp 0 256, .msrSpsr 0,
   .base (.ldp 30 0 240), .msrElr 0,
   .base (.ldp 0 1 0), .base (.ldp 2 3 16), .base (.ldp 4 5 32), .base (.ldp 6 7 48),
   .base (.ldp 8 9 64), .base (.ldp 10 11 80), .base (.ldp 12 13 96), .base (.ldp 14 15 112),
   .base (.ldp 16 17 128), .base (.ldp 18 19 144), .base (.ldp 20 21 160), .base (.ldp 22 23 176),
   .base (.ldp 24 25 192), .base (.ldp 26 27 208), .base (.ldp 28 29 224),
   .base (.addSp 272)]

/-- Where an entry of the vector table goes. -/
inductive VectorTarget
  | unhandledException
  | irqCommonHandler
  | svcCommonHandler
  deriving DecidableEq, Repr

open VectorTarget in
/-- `vector_table`, an entry every 0x80 bytes. -/
def vectorTable : List VectorTarget :=
  [unhandledException /- sync, current EL, SP0 -/, unhandledException /- irq -/,
   unhandledException /- fiq -/, unhandledException /- serror -/,
   unhandledException /- sync, current EL, SPx -/, irqCommonHandler /- irq -/,
   unhandledException /- fiq -/, unhandledException /- serror -/,
   svcCommonHandler /- sync, lower EL, aarch64 -/, irqCommonHandler /- irq -/,
   unhandledException /- fiq -/, unhandledException /- serror -/,
   unhandledException /- sync, lower EL, aarch32 -/, unhandledException /- irq -/,
   unhandledException /- fiq -/, unhandledException /- serror -/]

/-- From an exception to the call of its C handler. -/
def exceptionEntry (vector : ℕ) (cpu : Cpu Reg) (state : ExceptionState) : Cpu Reg × ExceptionState :=
  trapRun kernelEntry (takeException vector cpu state)

/-- From the return of the C handler on. -/
def exceptionExit (cpu : Cpu Reg) (state : ExceptionState) : Cpu Reg × ExceptionState :=
  let left := trapRun kernelExit (cpu, state)
  eret left.1 left.2

/-- The pairs `x0, x1` to `x28, x29`. -/
def entryPairs : List (Reg × Reg) :=
  [(0, 1), (2, 3), (4, 5), (6, 7), (8, 9), (10, 11), (12, 13), (14, 15), (16, 17), (18, 19), (20, 21),
   (22, 23), (24, 25), (26, 27), (28, 29)]

def aarch64RegsT (reg : Reg → ℕ) (elr spsr : ℕ) : List ℕ :=
  (flat entryPairs).map reg ++ [reg 30, elr, spsr]

/-! ### What the entry and the exit do -/

theorem trapRun_append (code more : List TrapInstr) (s : Cpu Reg × ExceptionState) :
    trapRun (code ++ more) s = trapRun more (trapRun code s) :=
  List.foldl_append

theorem trapRun_base (code : List Instr) (cpu : Cpu Reg) (state : ExceptionState) :
    trapRun (code.map .base) (cpu, state) = (run code cpu, state) := by
  induction code generalizing cpu with
  | nil => rfl
  | cons instr code ih => exact ih (exec cpu instr)

theorem length_entryPairs : (flat entryPairs).length = 30 := rfl

/-- The end of the entry: `x30` and the two registers of the exception go behind the pairs. -/
theorem trapRun_entryEnd (cpu : Cpu Reg) (state : ExceptionState) (hsp : cpu.sp + 272 ≤ 2 ^ 64) :
    (trapRun [.mrsElr 0, .base (.stp 30 0 240), .mrsSpsr 0, .strSp 0 256] (cpu, state)).1.sp = cpu.sp ∧
    (trapRun [.mrsElr 0, .base (.stp 30 0 240), .mrsSpsr 0, .strSp 0 256] (cpu, state)).1.mem =
      ((cpu.mem.store (cpu.sp + 240) (cpu.reg 30)).store (cpu.sp + 248) state.elr).store
        (cpu.sp + 256) state.spsr := by
  have h240 : wrap (cpu.sp + 240) = cpu.sp + 240 := wrap_of_lt (by omega)
  have h248 : wrap (cpu.sp + 240 + 8) = cpu.sp + 248 := wrap_of_lt (by omega)
  have h256 : wrap (cpu.sp + 256) = cpu.sp + 256 := wrap_of_lt (by omega)
  constructor
  · simp [trapRun, trapExec, exec]
  · simp [trapRun, trapExec, exec, h240, h248, h256]

/-- The entry leaves the frame below the stack pointer, and writes nothing else. -/
theorem kernelEntry_spec {cpu : Cpu Reg} {state : ExceptionState} (hroom : 272 ≤ cpu.sp)
    (hlt : cpu.sp < 2 ^ 64) :
    (trapRun kernelEntry (cpu, state)).1.sp = cpu.sp - 272 ∧
    FrameAt (trapRun kernelEntry (cpu, state)).1.mem (cpu.sp - 272)
      (aarch64RegsT cpu.reg state.elr state.spsr) ∧
    ∀ a, a < cpu.sp - 272 ∨ cpu.sp ≤ a →
      (trapRun kernelEntry (cpu, state)).1.mem a = cpu.mem a := by
  have hcode : kernelEntry = (.subSp 272 :: pairwise .stp entryPairs 0).map .base ++
      [.mrsElr 0, .base (.stp 30 0 240), .mrsSpsr 0, .strSp 0 256] := rfl
  have hlow : (exec cpu (.subSp 272)).sp = cpu.sp - 272 := by
    simp only [exec, Cpu.setSp_sp]
    exact wrapSub_of_le hroom hlt
  have hmem : (exec cpu (.subSp 272)).mem = cpu.mem := by simp only [exec, Cpu.setSp_mem]
  have hreg : (exec cpu (.subSp 272)).reg = cpu.reg := by simp only [exec, Cpu.setSp_reg]
  obtain ⟨hframe, hout⟩ := @run_stp entryPairs (exec cpu (.subSp 272)) 0 (by
    rw [hlow, length_entryPairs]; omega)
  obtain ⟨hreg', hsp'⟩ := run_stp_reg entryPairs 0 (exec cpu (.subSp 272))
  rw [hlow, hmem, length_entryPairs] at hout
  rw [hlow, hreg, Nat.add_zero] at hframe
  obtain ⟨hsp, hstored⟩ := trapRun_entryEnd (run (pairwise .stp entryPairs 0) (exec cpu (.subSp 272)))
    state (by rw [hsp', hlow]; omega)
  rw [hsp', hlow] at hsp hstored
  rw [hreg', hreg] at hstored
  rw [hcode, trapRun_append, trapRun_base, run_cons]
  refine ⟨hsp, ?_, fun a ha ↦ ?_⟩
  · rw [aarch64RegsT, frameAt_append, List.length_map, length_entryPairs, hstored]
    refine ⟨hframe.congr fun a hlow hhigh ↦ ?_, ?_, ?_, ?_, trivial⟩
    · rw [List.length_map, length_entryPairs] at hhigh
      rw [WordMemory.store_of_ne _ _ (by omega), WordMemory.store_of_ne _ _ (by omega),
        WordMemory.store_of_ne _ _ (by omega)]
    · rw [WordMemory.store_of_ne _ _ (by omega), WordMemory.store_of_ne _ _ (by omega),
        WordMemory.store_apply, if_pos (by omega)]
    · rw [WordMemory.store_of_ne _ _ (by omega), WordMemory.store_apply, if_pos (by omega)]
    · rw [WordMemory.store_apply, if_pos (by omega)]
  · rw [hstored, WordMemory.store_of_ne _ _ (by omega), WordMemory.store_of_ne _ _ (by omega),
      WordMemory.store_of_ne _ _ (by omega)]
    exact hout a (by omega)

/-- The start of the exit: the two registers of the exception and `x30` are loaded. -/
theorem trapRun_exitStart {cpu : Cpu Reg} {state : ExceptionState} {x30 elr spsr : ℕ}
    (hsp : cpu.sp + 272 ≤ 2 ^ 64) (hx30 : cpu.mem (cpu.sp + 240) = x30)
    (helr : cpu.mem (cpu.sp + 248) = elr) (hspsr : cpu.mem (cpu.sp + 256) = spsr) :
    trapRun [.ldrSp 0 256, .msrSpsr 0, .base (.ldp 30 0 240), .msrElr 0] (cpu, state) =
      (((cpu.set 0 spsr).set 30 x30).set 0 elr, { state with elr := elr, spsr := spsr }) := by
  have h240 : wrap (cpu.sp + 240) = cpu.sp + 240 := wrap_of_lt (by omega)
  have h248 : wrap (cpu.sp + 240 + 8) = cpu.sp + 248 := wrap_of_lt (by omega)
  have h256 : wrap (cpu.sp + 256) = cpu.sp + 256 := wrap_of_lt (by omega)
  simp [trapRun, trapExec, exec, h240, h248, h256, hx30, helr, hspsr]

/-- The exit loads the registers and the registers of the exception from a frame. -/
theorem kernelExit_spec {cpu : Cpu Reg} {state : ExceptionState} {reg : Reg → ℕ} {elr spsr : ℕ}
    (hsp : cpu.sp + 272 < 2 ^ 64) (hframe : FrameAt cpu.mem cpu.sp (aarch64RegsT reg elr spsr)) :
    (trapRun kernelExit (cpu, state)).1.reg = reg ∧
    (trapRun kernelExit (cpu, state)).1.sp = cpu.sp + 272 ∧
    (trapRun kernelExit (cpu, state)).1.mem = cpu.mem ∧
    (trapRun kernelExit (cpu, state)).2 = { state with elr := elr, spsr := spsr } := by
  have hcode : kernelExit = [.ldrSp 0 256, .msrSpsr 0, .base (.ldp 30 0 240), .msrElr 0] ++
      (pairwise .ldp entryPairs 0 ++ [Instr.addSp 272]).map .base := rfl
  obtain ⟨hregs, hx30, helr, hspsr, -⟩ := frameAt_append.mp hframe
  rw [List.length_map, length_entryPairs] at hx30 helr hspsr
  have hstart := @trapRun_exitStart cpu state _ _ _ (by omega) hx30 helr hspsr
  rw [hcode, trapRun_append, hstart, trapRun_base, run_append]
  obtain ⟨hmem, hsp'⟩ := run_ldp_mem entryPairs 0 (((cpu.set 0 spsr).set 30 (reg 30)).set 0 elr)
  rw [Cpu.set_mem, Cpu.set_mem, Cpu.set_mem] at hmem
  rw [Cpu.set_sp, Cpu.set_sp, Cpu.set_sp] at hsp'
  obtain ⟨hloaded, hother⟩ :=
    @run_ldp entryPairs (by decide) (((cpu.set 0 spsr).set 30 (reg 30)).set 0 elr) 0 reg
      (by simp only [Cpu.set_sp, length_entryPairs]; omega)
      (by simpa only [Cpu.set_sp, Cpu.set_mem, Nat.add_zero] using hregs)
  have hend (c : Cpu Reg) : run [.addSp 272] c = c.setSp (wrap (c.sp + 272)) := rfl
  rw [hend, Cpu.setSp_reg, Cpu.setSp_sp, Cpu.setSp_mem, hmem, hsp', wrap_of_lt hsp]
  refine ⟨funext fun r ↦ ?_, rfl, rfl, rfl⟩
  by_cases hr : r ∈ flat entryPairs
  · exact hloaded r hr
  · obtain rfl : r = 30 := by revert r; decide
    rw [hother 30 hr, Cpu.set_reg, Function.update_of_ne (by decide), Cpu.set_reg, Function.update_self]

/-! ### The trap port -/

/-- An exception of a kernel thread, through an entry of the vector table. -/
def trapPort (vector : ℕ) : TrapPort Reg ExceptionState ℕ where
  kept state := state.pstate
  sameStack pstate := exceptionLevel pstate = 1
  frame reg _ pc pstate := aarch64RegsT reg pc pstate
  reach := 272
  entrySp sp := sp - 272
  enter := exceptionEntry vector
  leave := exceptionExit

theorem trapPort_correct (vector : ℕ) : (trapPort vector).Correct where
  entry_low sp hsp := by
    change 272 ≤ sp at hsp
    change sp ≤ sp - 272 + 272
    omega
  entry_high reg sp pc k hsp := by
    change 272 ≤ sp at hsp
    change sp - 272 + 8 * 33 ≤ sp
    omega
  saves cpu state hkernel hroom hlt := by
    have hkernel : exceptionLevel state.pstate = 1 := hkernel
    have htaken : (takeException vector cpu state).1.sp = cpu.sp := by
      simp [takeException, hkernel]
    obtain ⟨hsp, hframe, hout⟩ := @kernelEntry_spec (takeException vector cpu state).1
      (takeException vector cpu state).2 (by rw [htaken]; exact hroom) (by rw [htaken]; exact hlt)
    rw [htaken] at hsp hframe hout
    exact ⟨hsp, hframe, hout⟩
  restores cpu state reg sp pc k hkernel hroom hlt hentry hframe := by
    have hkernel : exceptionLevel k = 1 := hkernel
    change 272 ≤ sp at hroom
    change cpu.sp = sp - 272 at hentry
    obtain ⟨hreg, hsp, hmem, hstate⟩ := @kernelExit_spec cpu state reg pc k (by omega) hframe
    change (exceptionExit cpu state).1.reg = reg ∧ (exceptionExit cpu state).1.sp = sp ∧
      (exceptionExit cpu state).1.pc = pc ∧ (exceptionExit cpu state).1.mem = cpu.mem ∧
      (exceptionExit cpu state).2.pstate = k
    simp only [exceptionExit, eret, hstate, hreg, hsp, hmem, hkernel, if_neg Nat.one_ne_zero, hentry,
      Nat.sub_add_cancel hroom, and_self]

end MegKer.Kernel.AArch64
