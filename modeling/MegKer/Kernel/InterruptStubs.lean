import MegKer.Foundation.TrapFrame
import MegKer.Kernel.ContextSwitch

/-!
# Interrupt entry and exit on x86_64

`isr_stubs.asm` between the processor and `isr_handler`. The processor stores where it was on the
kernel's stack, and for some exceptions an error code; the stub of the vector adds a zero where there is
none, and the number of the vector; `isr_common_stub` adds the general registers, and passes the address
of it all as a `registers_t *`. On the way back the same words are popped, and `iretq` takes the rest.

`registersT` is the structure with its fields in the order of `idt.h`. `interruptEntry_spec` says that
each stub leaves it on the stack, whether the processor stored an error code or not, and
`interruptExit_spec` that the exit loads the processor from it. The two together are a `TrapPort`.
-/

set_option autoImplicit false
set_option relaxedAutoImplicit false

namespace MegKer.Kernel.X86

open Foundation Reg

/-! ### The processor -/

/-- What an interrupt saves besides the general registers, `rsp` and `rip`. -/
structure Status where
  rflags : ℕ
  cs : ℕ
  ss : ℕ
  deriving DecidableEq, Repr

/-- The privilege level, in the low bits of `cs`. -/
def Status.cpl (status : Status) : ℕ := status.cs % 4

/-- An interrupt through a 64-bit interrupt gate of ring 0: the processor switches to the stack `rsp0`
if it comes from another ring, aligns the stack, and pushes five words and perhaps an error code. The
gate clears TF, IF, NT, RF and VM. -/
def deliver (rsp0 offset : ℕ) (errorCode : Option ℕ) (cpu : Cpu Reg) (status : Status) :
    Cpu Reg × Status :=
  let top := alignDown (if status.cpl = 0 then cpu.sp else rsp0) 16
  let pushed := pushWords cpu.mem top
    ([status.ss, cpu.sp, status.rflags, status.cs, cpu.pc] ++ errorCode.toList)
  ({ cpu with sp := pushed.2, pc := offset, interrupts := false, mem := pushed.1 },
    { rflags := status.rflags &&& complement 0x34300
      cs := 0x08
      ss := if status.cpl = 0 then status.ss else 0 })

/-- `iretq`: `rip`, `cs`, `rflags`, `rsp` and `ss` are popped. -/
def iretq (cpu : Cpu Reg) : Cpu Reg × Status :=
  let rflags := cpu.mem (cpu.sp + 16)
  ({ cpu with
      sp := cpu.mem (cpu.sp + 24), pc := cpu.mem cpu.sp, interrupts := rflags.testBit 9 },
    ⟨rflags, cpu.mem (cpu.sp + 8), cpu.mem (cpu.sp + 32)⟩)

/-! ### The code -/

/-- The macros of `isr_stubs.asm`. -/
inductive Stub
  | isrNoErr (vector : ℕ)
  | isrErr (vector : ℕ)
  | irqStub (line vector : ℕ)
  deriving DecidableEq, Repr

/-- The words that a stub pushes. -/
def Stub.pushes : Stub → List ℕ
  | .isrNoErr vector => [0, vector]
  | .isrErr vector => [vector]
  | .irqStub _ vector => [0, vector]

def Stub.vector : Stub → ℕ
  | .isrNoErr vector => vector
  | .isrErr vector => vector
  | .irqStub _ vector => vector

/-- The stub is the one for an interrupt with, or without, this error code. -/
def Stub.Expects : Stub → Option ℕ → Prop
  | .isrErr _, errorCode => errorCode.isSome
  | .isrNoErr _, errorCode => errorCode = none
  | .irqStub _ _, errorCode => errorCode = none

instance (stub : Stub) (errorCode : Option ℕ) : Decidable (stub.Expects errorCode) := by
  cases stub <;> unfold Stub.Expects <;> infer_instance

/-- `isr0` to `isr31`. -/
def isrStubs : List Stub :=
  [.isrNoErr 0, .isrNoErr 1, .isrNoErr 2, .isrNoErr 3, .isrNoErr 4, .isrNoErr 5, .isrNoErr 6,
   .isrNoErr 7, .isrErr 8, .isrNoErr 9, .isrErr 10, .isrErr 11, .isrErr 12, .isrErr 13, .isrErr 14,
   .isrNoErr 15, .isrNoErr 16, .isrErr 17, .isrNoErr 18, .isrNoErr 19, .isrNoErr 20, .isrErr 21,
   .isrNoErr 22, .isrNoErr 23, .isrNoErr 24, .isrNoErr 25, .isrNoErr 26, .isrNoErr 27, .isrNoErr 28,
   .isrNoErr 29, .isrErr 30, .isrNoErr 31]

/-- `irq0` to `irq15`. -/
def irqStubs : List Stub :=
  [.irqStub 0 32, .irqStub 1 33, .irqStub 2 34, .irqStub 3 35, .irqStub 4 36, .irqStub 5 37,
   .irqStub 6 38, .irqStub 7 39, .irqStub 8 40, .irqStub 9 41, .irqStub 10 42, .irqStub 11 43,
   .irqStub 12 44, .irqStub 13 45, .irqStub 14 46, .irqStub 15 47]

def isr128 : Stub := .isrNoErr 128

/-- `isr_common_stub`, the pushes. -/
def isrCommonStubPushes : List Instr :=
  [.push rax, .push rbx, .push rcx, .push rdx, .push rsi, .push rdi, .push rbp, .push r8, .push r9,
   .push r10, .push r11, .push r12, .push r13, .push r14, .push r15]

/-- `isr_common_stub`, the pops. -/
def isrCommonStubPops : List Instr :=
  [.pop r15, .pop r14, .pop r13, .pop r12, .pop r11, .pop r10, .pop r9, .pop r8, .pop rbp, .pop rdi,
   .pop rsi, .pop rdx, .pop rcx, .pop rbx, .pop rax]

/-- From an interrupt to the call of `isr_handler`, with `mov rdi, rsp` as the last instruction. -/
def interruptEntry (rsp0 offset : ℕ) (stub : Stub) (errorCode : Option ℕ) (cpu : Cpu Reg)
    (status : Status) : Cpu Reg × Status :=
  let delivered := deliver rsp0 offset errorCode cpu status
  let saved := run isrCommonStubPushes (stub.pushes.foldl push delivered.1)
  (saved.set rdi saved.sp, delivered.2)

/-- From the return of `isr_handler` on: the pops, `add rsp, 16` and `iretq`. -/
def interruptExit (cpu : Cpu Reg) : Cpu Reg × Status :=
  let restored := run isrCommonStubPops cpu
  iretq (restored.setSp (wrap (restored.sp + 16)))

def registersT (reg : Reg → ℕ) (intNo errCode rip cs rflags userRsp ss : ℕ) : List ℕ :=
  [reg r15, reg r14, reg r13, reg r12, reg r11, reg r10, reg r9, reg r8,
   reg rbp, reg rdi, reg rsi, reg rdx, reg rcx, reg rbx, reg rax,
   intNo, errCode,
   rip, cs, rflags, userRsp, ss]

/-! ### What the entry and the exit do -/

/-- The registers in the order of the pushes. -/
def savedRegs : List Reg := [rax, rbx, rcx, rdx, rsi, rdi, rbp, r8, r9, r10, r11, r12, r13, r14, r15]

theorem mem_savedRegs (r : Reg) : r ∈ savedRegs.reverse := by
  cases r <;> decide

theorem foldl_push (words : List ℕ) (cpu : Cpu Reg) :
    (words.foldl push cpu).reg = cpu.reg ∧
      (words.foldl push cpu).mem = (pushWords cpu.mem cpu.sp words).1 ∧
      (words.foldl push cpu).sp = (pushWords cpu.mem cpu.sp words).2 := by
  induction words generalizing cpu with
  | nil => exact ⟨rfl, rfl, rfl⟩
  | cons word words ih =>
    obtain ⟨hreg, hmem, hsp⟩ := ih (push cpu word)
    rw [push_reg] at hreg
    rw [push_mem, push_sp] at hmem hsp
    rw [List.foldl_cons, pushWords]
    exact ⟨hreg, hmem, hsp⟩

/-- The words of an interrupt in the order in which they are pushed. -/
def interruptWords (stub : Stub) (errorCode : Option ℕ) (cpu : Cpu Reg) (status : Status) : List ℕ :=
  [status.ss, cpu.sp, status.rflags, status.cs, cpu.pc] ++ errorCode.toList ++ stub.pushes ++
    savedRegs.map cpu.reg

theorem interruptEntry_eq (rsp0 offset : ℕ) (stub : Stub) (errorCode : Option ℕ) (cpu : Cpu Reg)
    (status : Status) :
    (interruptEntry rsp0 offset stub errorCode cpu status).1.mem =
        (pushWords cpu.mem (alignDown (if status.cpl = 0 then cpu.sp else rsp0) 16)
          (interruptWords stub errorCode cpu status)).1 ∧
      (interruptEntry rsp0 offset stub errorCode cpu status).1.sp =
        (pushWords cpu.mem (alignDown (if status.cpl = 0 then cpu.sp else rsp0) 16)
          (interruptWords stub errorCode cpu status)).2 := by
  have hcode : isrCommonStubPushes = savedRegs.map .push := rfl
  obtain ⟨hreg, hmem, hsp⟩ := foldl_push stub.pushes (deliver rsp0 offset errorCode cpu status).1
  obtain ⟨-, hmem', hsp'⟩ :=
    run_push savedRegs (stub.pushes.foldl push (deliver rsp0 offset errorCode cpu status).1)
  rw [hreg, hmem, hsp] at hmem' hsp'
  rw [interruptWords, pushWords_append, pushWords_append]
  simp only [interruptEntry, Cpu.set_mem, Cpu.set_sp, hcode]
  exact ⟨hmem', hsp'⟩

/-- Whether the processor stored an error code or not, the words are those of a `registers_t`. -/
theorem reverse_interruptWords {stub : Stub} {errorCode : Option ℕ} (h : stub.Expects errorCode)
    (cpu : Cpu Reg) (status : Status) :
    (interruptWords stub errorCode cpu status).reverse =
      registersT cpu.reg stub.vector (errorCode.getD 0) cpu.pc status.cs status.rflags cpu.sp
        status.ss := by
  cases stub with
  | isrNoErr vector =>
    obtain rfl : errorCode = none := h
    rfl
  | isrErr vector =>
    obtain ⟨code, rfl⟩ := Option.isSome_iff_exists.mp h
    rfl
  | irqStub line vector =>
    obtain rfl : errorCode = none := h
    rfl

theorem alignDown_sixteen {x : ℕ} (hx : x < 2 ^ 64) : alignDown x 16 = x / 16 * 16 :=
  @alignDown_two_pow x 4 hx (by decide)

/-- Where the `registers_t` of an interrupt is, for the stack pointer that the processor starts from. -/
def registersAddr (sp : ℕ) : ℕ := sp / 16 * 16 - 176

/-- Every stub leaves a `registers_t` on the stack and its address in `rdi`, and what is below it and
above the stack pointer stays. -/
theorem interruptEntry_spec {rsp0 offset : ℕ} {stub : Stub} {errorCode : Option ℕ}
    (h : stub.Expects errorCode) {cpu : Cpu Reg} {status : Status} {stack : ℕ}
    (hstack : stack = if status.cpl = 0 then cpu.sp else rsp0) (hroom : 191 ≤ stack)
    (hlt : stack < 2 ^ 64) :
    (interruptEntry rsp0 offset stub errorCode cpu status).1.sp = registersAddr stack ∧
    (interruptEntry rsp0 offset stub errorCode cpu status).1.reg rdi = registersAddr stack ∧
    FrameAt (interruptEntry rsp0 offset stub errorCode cpu status).1.mem (registersAddr stack)
      (registersT cpu.reg stub.vector (errorCode.getD 0) cpu.pc status.cs status.rflags cpu.sp
        status.ss) ∧
    ∀ a, a < registersAddr stack ∨ stack ≤ a →
      (interruptEntry rsp0 offset stub errorCode cpu status).1.mem a = cpu.mem a := by
  obtain ⟨hmem, hsp⟩ := interruptEntry_eq rsp0 offset stub errorCode cpu status
  have hrev := reverse_interruptWords h cpu status
  have hlength : 8 * (interruptWords stub errorCode cpu status).length = 176 := by
    rw [← List.length_reverse, hrev]
    rfl
  rw [← hstack, alignDown_sixteen hlt] at hmem hsp
  rw [pushWords_sp (by omega) (by omega), hlength] at hsp
  have hrdi : (interruptEntry rsp0 offset stub errorCode cpu status).1.reg rdi =
      (interruptEntry rsp0 offset stub errorCode cpu status).1.sp := by
    simp only [interruptEntry, Cpu.set_reg, Cpu.set_sp, Function.update_self]
  refine ⟨hsp, hrdi.trans hsp, ?_, fun a ha ↦ ?_⟩
  · have hframe := @frameAt_pushWords cpu.mem (stack / 16 * 16)
      (interruptWords stub errorCode cpu status) (by omega) (by omega)
    rw [hlength, hrev, ← hmem] at hframe
    exact hframe
  · unfold registersAddr at ha
    rw [hmem]
    exact pushWords_of_outside (by omega) (by omega) (by omega)

/-- The exit loads the processor from a `registers_t`, whatever became of its registers. -/
theorem interruptExit_spec {cpu : Cpu Reg} {reg : Reg → ℕ} {intNo errCode rip cs rflags userRsp ss : ℕ}
    (hsp : cpu.sp + 176 < 2 ^ 64)
    (hframe : FrameAt cpu.mem cpu.sp (registersT reg intNo errCode rip cs rflags userRsp ss)) :
    interruptExit cpu =
      (⟨reg, userRsp, rip, rflags.testBit 9, cpu.mem⟩, ⟨rflags, cs, ss⟩) := by
  have hcode : isrCommonStubPops = savedRegs.reverse.map .pop := rfl
  have hlength : savedRegs.reverse.length = 15 := rfl
  have hwords : FrameAt cpu.mem cpu.sp
      (savedRegs.reverse.map reg ++ [intNo, errCode, rip, cs, rflags, userRsp, ss]) := hframe
  obtain ⟨hregs, hrest⟩ := frameAt_append.mp hwords
  rw [List.length_map, hlength] at hrest
  obtain ⟨-, -, hrip, hcs, hrflags, hrsp, hss, -⟩ := hrest
  obtain ⟨hloaded, -, hend⟩ := run_pop (by decide) (by omega) hregs
  have hmem := run_pop_mem savedRegs.reverse cpu
  have hsp' : wrap (cpu.sp + 8 * 15 + 16) = cpu.sp + 8 * 15 + 8 + 8 := wrap_of_lt (by omega)
  rw [hlength] at hend
  rw [interruptExit, hcode, hend, iretq, Cpu.setSp_sp, Cpu.setSp_mem, hmem, Cpu.setSp_reg, hsp', hrip,
    hcs, hrflags, hrsp, hss]
  exact congrArg (fun loaded ↦ ((⟨loaded, userRsp, rip, rflags.testBit 9, cpu.mem⟩ : Cpu Reg), _))
    (funext fun r ↦ hloaded r (mem_savedRegs r))

/-! ### The trap port -/

/-- An interrupt of a kernel thread, with the stub of its vector. -/
def trapPort (rsp0 offset : ℕ) (stub : Stub) (errorCode : Option ℕ) : TrapPort Reg Status Status where
  kept status := status
  sameStack status := status.cpl = 0
  frame reg sp pc status :=
    registersT reg stub.vector (errorCode.getD 0) pc status.cs status.rflags sp status.ss
  reach := 191
  entrySp := registersAddr
  enter cpu status := interruptEntry rsp0 offset stub errorCode cpu status
  leave cpu _ := interruptExit cpu

theorem trapPort_correct (rsp0 offset : ℕ) {stub : Stub} {errorCode : Option ℕ}
    (h : stub.Expects errorCode) : (trapPort rsp0 offset stub errorCode).Correct where
  entry_low sp hsp := by
    change 191 ≤ sp at hsp
    change sp ≤ registersAddr sp + 191
    unfold registersAddr
    omega
  entry_high reg sp pc k hsp := by
    change 191 ≤ sp at hsp
    change registersAddr sp + 8 * 22 ≤ sp
    unfold registersAddr
    omega
  saves cpu status hkernel hroom hlt := by
    obtain ⟨hsp, -, hframe, hout⟩ :=
      @interruptEntry_spec rsp0 offset _ _ h cpu status cpu.sp (if_pos hkernel).symm hroom hlt
    exact ⟨hsp, hframe, hout⟩
  restores cpu status reg sp pc k _ hroom hlt hentry hframe := by
    change 191 ≤ sp at hroom
    change cpu.sp = registersAddr sp at hentry
    have hexit := interruptExit_spec (by unfold registersAddr at hentry; omega) hframe
    change (interruptExit cpu).1.reg = reg ∧ (interruptExit cpu).1.sp = sp ∧
      (interruptExit cpu).1.pc = pc ∧ (interruptExit cpu).1.mem = cpu.mem ∧ (interruptExit cpu).2 = k
    rw [hexit]
    exact ⟨rfl, rfl, rfl, rfl, rfl⟩

end MegKer.Kernel.X86
