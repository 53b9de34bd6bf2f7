import MegKer.Foundation.ByteMemory
import MegKer.Foundation.Program
import MegKer.Foundation.SignedWord
import MegKer.Kernel.ExceptionVectors

/-!
# From the reset of an aarch64 processor to the kernel

`_start` of `arch/aarch64/boot/boot.S`. The processor may start in any of the exception levels EL1, EL2 and
EL3, and the kernel runs in EL1 only, so the code goes down one level at a time by exception returns of its
own making. Whether such a return is legal is for the processor to say: `legalReturn` is its rule, for
what is in the control registers of the level above. The other processors are parked, and the one that goes
on clears the memory between `_bss_start` and `_bss_end` by words of eight bytes.

The code is a list of instructions, and all of it is executed. `kernel_main` is reached on the first
processor, except where there is an EL3 and no EL2: the code takes it for granted that one is behind the
other (`bootMain_iff`). Where `kernel_main` is reached, it is in EL1 on the boot stack with everything
masked and with the arguments that it expects, and no memory is changed but what `clear_bss` clears, up to
a multiple of eight bytes (`KernelCall`).
-/

set_option autoImplicit false
set_option relaxedAutoImplicit false

namespace MegKer.Kernel.AArch64

open Foundation StateTransition

/-! ### The processor -/

/-- The registers of the higher exception levels that the boot code writes. -/
inductive SysReg
  | scrEl3
  | spsrEl3
  | elrEl3
  | hcrEl2
  | cnthctlEl2
  | cntvoffEl2
  | spsrEl2
  | elrEl2
  deriving DecidableEq, Repr

/-- The lowest exception level that may write a register. -/
def SysReg.level : SysReg → ℕ
  | .scrEl3 | .spsrEl3 | .elrEl3 => 3
  | _ => 2

/-- A processor: MPIDR_EL1, and whether it has an EL2. -/
structure Core where
  mpidr : ℕ
  hasEl2 : Bool

/-- Where the linker has put things: `_start`, `boot_stack_top`, `_bss_start` and `_bss_end`. The kernel is in
the lower half of the address space, and what is cleared begins behind the boot stack, which begins at a page
and has a length of 0x4000. -/
structure BootLayout where
  start : ℕ
  bootStackTop : ℕ
  bssStart : ℕ
  bssEnd : ℕ
  aligned : 8 ∣ bssStart
  ordered : bssStart ≤ bssEnd
  bounded : bssEnd ≤ 2 ^ 63 - 8

/-- The state of the processor at boot. PSTATE is in the format of a saved program status, and of the
flags there is what the conditional branches ask for. -/
structure BootCpu where
  reg : Reg → ℕ
  sp : ℕ
  pstate : ℕ
  equal : Bool
  greaterEq : Bool
  sys : SysReg → ℕ
  mem : ByteMemory

/-- The instructions of `boot.S`; the target of a branch is the number of an instruction. -/
inductive BootInstr
  /-- `mov dst, src` -/
  | mov (dst src : Reg)
  /-- `mov dst, #value`, and `ldr dst, =symbol` -/
  | movImm (dst : Reg) (value : ℕ)
  /-- `mrs dst, mpidr_el1` -/
  | mrsMpidr (dst : Reg)
  /-- `mrs dst, CurrentEL` -/
  | mrsCurrentEl (dst : Reg)
  /-- `and dst, src, #mask` -/
  | andImm (dst src : Reg) (mask : ℕ)
  /-- `lsr dst, src, #count` -/
  | lsr (dst src : Reg) (count : ℕ)
  /-- `cmp a, #value` -/
  | cmpImm (a : Reg) (value : ℕ)
  /-- `cmp a, b` -/
  | cmp (a b : Reg)
  /-- `msr sysreg, src`; without a source it is `xzr` -/
  | msr (r : SysReg) (src : Option Reg)
  /-- `adr dst, label` -/
  | adr (dst : Reg) (target : ℕ)
  /-- `mov sp, src` -/
  | movToSp (src : Reg)
  /-- `str xzr, [base], #8` -/
  | strXzr (base : Reg)
  | cbnz (a : Reg) (target : ℕ)
  | bEq (target : ℕ)
  | bGe (target : ℕ)
  | b (target : ℕ)
  | bl (target : ℕ)
  | eret
  | wfe
  deriving DecidableEq, Repr

/-- The address of an instruction. -/
def BootLayout.address (layout : BootLayout) (i : ℕ) : ℕ := layout.start + 4 * i

namespace BootCpu

variable (c : BootCpu)

def level : ℕ := exceptionLevel c.pstate

def set (r : Reg) (value : ℕ) : BootCpu := { c with reg := Function.update c.reg r value }

def compare (a b : ℕ) : BootCpu := { c with equal := a == b, greaterEq := decide (i64 b ≤ i64 a) }

/-- SPSR and ELR of the level that is running. -/
def spsr : ℕ := if c.level = 3 then c.sys .spsrEl3 else c.sys .spsrEl2

def elr : ℕ := if c.level = 3 then c.sys .elrEl3 else c.sys .elrEl2

/-- An exception return of EL3 or EL2 is legal: to a level of AArch64 state that exists and is not higher.
From EL3, EL2 is there for the non-secure world, and SCR_EL3.RW says that the level below is of AArch64
state; for EL1 that is HCR_EL2.RW if there is an EL2, which must not have HCR_EL2.TGE set. -/
def legalReturn (core : Core) : Bool :=
  let target := exceptionLevel c.spsr
  !c.spsr.testBit 4 && !c.spsr.testBit 1 && decide (1 ≤ target) && decide (target ≤ c.level) &&
    (target != 2 || (core.hasEl2 && (c.level == 2 || (c.sys .scrEl3).testBit 0))) &&
    (c.level != 3 || target == 3 || (c.sys .scrEl3).testBit 10) &&
    (target != 1 || !core.hasEl2 || ((c.sys .hcrEl2).testBit 31 && !(c.sys .hcrEl2).testBit 27))

end BootCpu

/-- The instructions that go on to the next one. -/
def bootEffect (core : Core) (layout : BootLayout) : BootInstr → BootCpu → BootCpu
  | .mov dst src, c => c.set dst (c.reg src)
  | .movImm dst value, c => c.set dst value
  | .mrsMpidr dst, c => c.set dst core.mpidr
  | .mrsCurrentEl dst, c => c.set dst (c.level <<< 2)
  | .andImm dst src mask, c => c.set dst (c.reg src &&& mask)
  | .lsr dst src count, c => c.set dst (c.reg src >>> count)
  | .cmpImm a value, c => c.compare (c.reg a) value
  | .cmp a b, c => c.compare (c.reg a) (c.reg b)
  | .msr r src, c => { c with sys := Function.update c.sys r (src.elim 0 c.reg) }
  | .adr dst target, c => c.set dst (layout.address target)
  | .movToSp src, c => { c with sp := c.reg src }
  | .strXzr base, c =>
    { c with mem := c.mem.writeBytes (c.reg base) (List.replicate 8 0) }.set base
      (wrap (c.reg base + 8))
  | _, c => c

/-- What an instruction does and where it goes on. The processor is stuck when it writes a register of a
higher level, at an exception return that is not legal, and at a store that is not aligned, since all memory
is device memory as long as there are no page tables: there are no vectors for any of these. -/
def bootExec (core : Core) (layout : BootLayout) : BootInstr → ℕ → BootCpu → Option (BootCpu × ℕ)
  | .cbnz a target, i, c => some (c, if c.reg a ≠ 0 then target else i + 1)
  | .bEq target, i, c => some (c, if c.equal then target else i + 1)
  | .bGe target, i, c => some (c, if c.greaterEq then target else i + 1)
  | .b target, _, c => some (c, target)
  | .bl target, i, c => some (c.set 30 (layout.address (i + 1)), target)
  | .eret, _, c =>
    if c.legalReturn core then some ({ c with pstate := c.spsr }, (c.elr - layout.start) / 4) else none
  | .msr r src, i, c =>
    if r.level ≤ c.level then some (bootEffect core layout (.msr r src) c, i + 1) else none
  | .strXzr base, i, c =>
    if 8 ∣ c.reg base then some (bootEffect core layout (.strXzr base) c, i + 1) else none
  | instr, i, c => some (bootEffect core layout instr c, i + 1)

/-! ### The code -/

/-- The labels of `boot.S`, as numbers of instructions. -/
def fromEl3 : ℕ := 11
def fromEl2 : ℕ := 18
def el1Entry : ℕ := 28
def clearBss : ℕ := 32
def bssCleared : ℕ := 36
def park : ℕ := 39

/-- `kernel_main` is outside of this code. -/
def kernelMainEntry : ℕ := 41

/-- `_start` -/
def bootCode (layout : BootLayout) : List BootInstr :=
  [.mov 19 0,
   .mrsMpidr 1, .andImm 1 1 0xff, .cbnz 1 park,
   .mrsCurrentEl 1, .lsr 1 1 2, .cmpImm 1 3, .bEq fromEl3, .cmpImm 1 2, .bEq fromEl2, .b el1Entry,
   -- from_el3
   .movImm 1 0x5b1, .msr .scrEl3 (some 1), .movImm 1 0x3c9, .msr .spsrEl3 (some 1),
   .adr 1 fromEl2, .msr .elrEl3 (some 1), .eret,
   -- from_el2
   .movImm 1 (1 <<< 31), .msr .hcrEl2 (some 1), .movImm 1 3, .msr .cnthctlEl2 (some 1),
   .msr .cntvoffEl2 none, .movImm 1 0x3c5, .msr .spsrEl2 (some 1),
   .adr 1 el1Entry, .msr .elrEl2 (some 1), .eret,
   -- el1_entry
   .movImm 1 layout.bootStackTop, .movToSp 1, .movImm 1 layout.bssStart, .movImm 2 layout.bssEnd,
   -- clear_bss
   .cmp 1 2, .bGe bssCleared, .strXzr 1, .b clearBss,
   -- bss_cleared
   .movImm 0 0, .mov 1 19, .bl kernelMainEntry,
   -- park
   .wfe, .b park]

/-- A step of the processor at boot. -/
abbrev bootStep (core : Core) (layout : BootLayout) : BootCpu × ℕ → Option (BootCpu × ℕ) :=
  stepAt (bootCode layout) (bootExec core layout)

/-! ### The call of the kernel -/

/-- The memory that `clear_bss` clears: the words of eight bytes from `_bss_start` on that begin before
`_bss_end`. -/
def BootLayout.clearedEnd (layout : BootLayout) : ℕ :=
  layout.bssStart + 8 * ((layout.bssEnd - layout.bssStart + 7) / 8)

/-- `kernel_main` is called in EL1 on the boot stack with everything masked. Its arguments are 0 and the
pointer to the device tree that was in `x0` at reset; it would return to `park`. EL1 may use the physical
timer if there was a level above to forbid it. -/
structure KernelCall (layout : BootLayout) (reset c : BootCpu) : Prop where
  pstate : c.pstate = 0x3c5
  sp : c.sp = layout.bootStackTop
  bootMagic : c.reg 0 = 0
  bootInfo : c.reg 1 = reset.reg 0
  returnAddress : c.reg 30 = layout.address park
  timer : reset.level ≠ 1 → c.sys .cnthctlEl2 = 3 ∧ c.sys .cntvoffEl2 = 0
  mem : ∀ a, c.mem a = if layout.bssStart ≤ a ∧ a < layout.clearedEnd then 0 else reset.mem a

/-- All that has to be zero is zero, and what lies a word behind it is as it was. -/
theorem KernelCall.bss {layout : BootLayout} {reset c : BootCpu} (h : KernelCall layout reset c) (a : ℕ) :
    (layout.bssStart ≤ a → a < layout.bssEnd → c.mem a = 0) ∧
    (a < layout.bssStart ∨ layout.bssEnd + 8 ≤ a → c.mem a = reset.mem a) := by
  have hordered := layout.ordered
  rw [h.mem, BootLayout.clearedEnd]
  constructor
  · intro hfirst hlast
    rw [if_pos (by omega)]
  · intro houtside
    rw [if_neg (by omega)]

/-- A reset: in EL1, EL2 or EL3 on its own stack pointer, with everything masked. -/
def BootCpu.Reset (c : BootCpu) : Prop := c.pstate = 0x3c5 ∨ c.pstate = 0x3c9 ∨ c.pstate = 0x3cd

/-! ### From block to block -/

section Blocks

variable {core : Core} {layout : BootLayout} {reset c : BootCpu}

/-- The instructions that go on to the next one in every level. -/
def BootInstr.isPlain : BootInstr → Bool
  | .msr _ _ | .strXzr _ | .cbnz _ _ | .bEq _ | .bGe _ | .b _ | .bl _ | .eret => false
  | _ => true

theorem bootExec_plain {instr : BootInstr} (h : instr.isPlain = true) (i : ℕ) (c : BootCpu) :
    bootExec core layout instr i c = some (bootEffect core layout instr c, i + 1) := by
  cases instr <;> first | rfl | cases h

/-- What a block of plain instructions, and of writes that the level allows, leaves. -/
def bootBlock (core : Core) (layout : BootLayout) (block : List BootInstr) (c : BootCpu) : BootCpu :=
  block.foldl (fun c instr ↦ bootEffect core layout instr c) c

/-- The writes of a block are of registers up to a level. -/
def Allowed (level : ℕ) (instr : BootInstr) : Prop :=
  instr.isPlain = true ∨ ∃ r src, instr = .msr r src ∧ r.level ≤ level

theorem bootEffect_pstate (instr : BootInstr) (c : BootCpu) :
    (bootEffect core layout instr c).pstate = c.pstate := by
  cases instr <;> rfl

theorem reaches_bootBlock {level i : ℕ} {block : List BootInstr}
    (hblock : ∀ instr ∈ block, Allowed level instr) (hcode : block <+: (bootCode layout).drop i)
    (hlevel : c.level = level) :
    Reaches (bootStep core layout) (c, i) (bootBlock core layout block c, i + block.length) := by
  refine (@reaches_block BootCpu BootInstr _ _ _ (fun c : BootCpu ↦ c.level = level) block
    (fun instr hinstr i c hlevel ↦ ?_) i c hcode hlevel).1
  have hkept : (bootEffect core layout instr c).level = level := by
    rw [BootCpu.level, bootEffect_pstate]
    exact hlevel
  refine ⟨?_, hkept⟩
  rcases hblock instr hinstr with hplain | ⟨r, src, rfl, hr⟩
  · exact bootExec_plain hplain i c
  · rw [bootExec, if_pos (by rw [hlevel]; exact hr)]

/-- What all of the code up to `el1_entry` carries along. -/
structure Carries (reset c : BootCpu) : Prop where
  x19 : c.reg 19 = reset.reg 0
  mem : c.mem = reset.mem

/-- The blocks of `boot.S` between its branches. -/
def entryBlock : List BootInstr := [.mov 19 0, .mrsMpidr 1, .andImm 1 1 0xff]

def levelBlock : List BootInstr := [.mrsCurrentEl 1, .lsr 1 1 2, .cmpImm 1 3]

def el3Block : List BootInstr :=
  [.movImm 1 0x5b1, .msr .scrEl3 (some 1), .movImm 1 0x3c9, .msr .spsrEl3 (some 1), .adr 1 fromEl2,
   .msr .elrEl3 (some 1)]

def el2Block : List BootInstr :=
  [.movImm 1 (1 <<< 31), .msr .hcrEl2 (some 1), .movImm 1 3, .msr .cnthctlEl2 (some 1),
   .msr .cntvoffEl2 none, .movImm 1 0x3c5, .msr .spsrEl2 (some 1), .adr 1 el1Entry,
   .msr .elrEl2 (some 1)]

def el1Block (layout : BootLayout) : List BootInstr :=
  [.movImm 1 layout.bootStackTop, .movToSp 1, .movImm 1 layout.bssStart, .movImm 2 layout.bssEnd]

/-- The first three instructions and the branch behind them. -/
theorem reaches_cbnz (core : Core) (layout : BootLayout) (reset : BootCpu) :
    ∃ c, Carries reset c ∧ c.pstate = reset.pstate ∧
      Reaches (bootStep core layout) (reset, 0) (c, if core.mpidr % 256 ≠ 0 then park else 4) := by
  have hrun := @reaches_bootBlock core layout reset reset.level 0 entryBlock
    (by simp [entryBlock, Allowed, BootInstr.isPlain]) ⟨_, rfl⟩ rfl
  have hmask : core.mpidr &&& 0xff = core.mpidr % 256 := Nat.and_two_pow_sub_one_eq_mod core.mpidr 8
  refine ⟨bootBlock core layout entryBlock reset, ⟨?_, ?_⟩, ?_, hrun.tail ?_⟩
  · simp [entryBlock, bootBlock, bootEffect, BootCpu.set]
  · simp [entryBlock, bootBlock, bootEffect, BootCpu.set]
  · simp [entryBlock, bootBlock, bootEffect, BootCpu.set]
  · simp [entryBlock, bootStep, stepAt, bootCode, bootExec, bootBlock, bootEffect, BootCpu.set, hmask]

/-- The dispatch on the exception level. -/
theorem reaches_level (h : Carries reset c) :
    ∃ c', Carries reset c' ∧ c'.pstate = c.pstate ∧
      Reaches (bootStep core layout) (c, 4)
        (c', if c.level = 3 then fromEl3 else if c.level = 2 then fromEl2 else el1Entry) := by
  have hrun := @reaches_bootBlock core layout c c.level 4 levelBlock
    (by simp [levelBlock, Allowed, BootInstr.isPlain]) ⟨_, rfl⟩ rfl
  have hback : c.level <<< 2 >>> 2 = c.level := Nat.shiftLeft_shiftRight c.level 2
  have hcompared : (bootBlock core layout levelBlock c).equal = (c.level == 3) := by
    simp [levelBlock, bootBlock, bootEffect, BootCpu.set, BootCpu.compare, hback]
  have hx1 : (bootBlock core layout levelBlock c).reg 1 = c.level := by
    simp [levelBlock, bootBlock, bootEffect, BootCpu.set, BootCpu.compare, hback]
  have hcarries : Carries reset (bootBlock core layout levelBlock c) := by
    constructor
    · simp [levelBlock, bootBlock, bootEffect, BootCpu.set, BootCpu.compare, h.x19]
    · simp [levelBlock, bootBlock, bootEffect, BootCpu.set, BootCpu.compare, h.mem]
  have hpstate : (bootBlock core layout levelBlock c).pstate = c.pstate := by
    simp [levelBlock, bootBlock, bootEffect, BootCpu.set, BootCpu.compare]
  generalize bootBlock core layout levelBlock c = c₁ at hrun hcompared hx1 hcarries hpstate
  by_cases hthree : c.level = 3
  · refine ⟨c₁, hcarries, hpstate, hrun.tail ?_⟩
    rw [if_pos hthree]
    exact (stepAt_eq rfl).trans (by simp [bootExec, hcompared, hthree])
  · have hnext : Reaches (bootStep core layout) (c, 4) (c₁, 8) :=
      hrun.tail ((stepAt_eq rfl).trans (by simp [bootExec, hcompared, hthree, levelBlock]))
    have hsecond : Reaches (bootStep core layout) (c, 4) (c₁.compare c.level 2, 9) :=
      hnext.tail ((stepAt_eq rfl).trans (by simp [bootExec, bootEffect, hx1]))
    refine ⟨c₁.compare c.level 2, ⟨hcarries.x19, hcarries.mem⟩, hpstate, ?_⟩
    rw [if_neg hthree]
    by_cases htwo : c.level = 2
    · rw [if_pos htwo]
      exact hsecond.tail ((stepAt_eq rfl).trans (by simp [bootExec, BootCpu.compare, htwo]))
    · rw [if_neg htwo]
      have hthird : Reaches (bootStep core layout) (c, 4) (c₁.compare c.level 2, 10) :=
        hsecond.tail ((stepAt_eq rfl).trans (by simp [bootExec, BootCpu.compare, htwo]))
      exact hthird.tail ((stepAt_eq rfl).trans rfl)

/-- EL3 goes down to EL2 if there is one, and is stuck otherwise. -/
theorem reaches_fromEl3 (h : Carries reset c) (hlevel : c.level = 3) :
    ∃ c', Carries reset c' ∧ Reaches (bootStep core layout) (c, fromEl3) (c', 17) ∧
      bootStep core layout (c', 17) =
        if core.hasEl2 then some ({ c' with pstate := 0x3c9 }, fromEl2) else none := by
  have hrun := @reaches_bootBlock core layout c 3 fromEl3 el3Block
    (by simp [el3Block, Allowed, BootInstr.isPlain, SysReg.level]) ⟨_, rfl⟩ hlevel
  have hcarries : Carries reset (bootBlock core layout el3Block c) := by
    constructor
    · simp [el3Block, bootBlock, bootEffect, BootCpu.set, h.x19]
    · simp [el3Block, bootBlock, bootEffect, BootCpu.set, h.mem]
  have hpstate : (bootBlock core layout el3Block c).pstate = c.pstate := by
    simp [el3Block, bootBlock, bootEffect, BootCpu.set]
  have hscr : (bootBlock core layout el3Block c).sys .scrEl3 = 0x5b1 := by
    simp [el3Block, bootBlock, bootEffect, BootCpu.set]
  have hspsr : (bootBlock core layout el3Block c).sys .spsrEl3 = 0x3c9 := by
    simp [el3Block, bootBlock, bootEffect, BootCpu.set]
  have helr : (bootBlock core layout el3Block c).sys .elrEl3 = layout.address fromEl2 := by
    simp [el3Block, bootBlock, bootEffect, BootCpu.set]
  generalize bootBlock core layout el3Block c = c₁ at hrun hcarries hpstate hscr hspsr helr
  have hlevel₁ : c₁.level = 3 := by rw [BootCpu.level, hpstate]; exact hlevel
  have hspsr₁ : c₁.spsr = 0x3c9 := by rw [BootCpu.spsr, if_pos hlevel₁, hspsr]
  have helr₁ : (c₁.elr - layout.start) / 4 = fromEl2 := by
    rw [BootCpu.elr, if_pos hlevel₁, helr, BootLayout.address]
    omega
  have hlegal : c₁.legalReturn core = core.hasEl2 := by
    have hbits : Nat.testBit 0x3c9 4 = false ∧ Nat.testBit 0x3c9 1 = false ∧ exceptionLevel 0x3c9 = 2 ∧
        Nat.testBit 0x5b1 0 = true ∧ Nat.testBit 0x5b1 10 = true := by decide
    obtain ⟨hfour, hone, htarget, hsecure, hwidth⟩ := hbits
    simp [BootCpu.legalReturn, hspsr₁, hlevel₁, hscr, hfour, hone, htarget, hsecure, hwidth]
  refine ⟨c₁, hcarries, hrun, (stepAt_eq rfl).trans ?_⟩
  rw [bootExec, hlegal, hspsr₁, helr₁]

/-- EL2 goes down to EL1, which may use the physical timer. -/
theorem reaches_fromEl2 (h : Carries reset c) (hlevel : c.level = 2) :
    ∃ c', Carries reset c' ∧ c'.pstate = 0x3c5 ∧ c'.sys .cnthctlEl2 = 3 ∧ c'.sys .cntvoffEl2 = 0 ∧
      Reaches (bootStep core layout) (c, fromEl2) (c', el1Entry) := by
  have hrun := @reaches_bootBlock core layout c 2 fromEl2 el2Block
    (by simp [el2Block, Allowed, BootInstr.isPlain, SysReg.level]) ⟨_, rfl⟩ hlevel
  have hcarries : Carries reset (bootBlock core layout el2Block c) := by
    constructor
    · simp [el2Block, bootBlock, bootEffect, BootCpu.set, h.x19]
    · simp [el2Block, bootBlock, bootEffect, BootCpu.set, h.mem]
  have hpstate : (bootBlock core layout el2Block c).pstate = c.pstate := by
    simp [el2Block, bootBlock, bootEffect, BootCpu.set]
  have hhcr : (bootBlock core layout el2Block c).sys .hcrEl2 = 1 <<< 31 := by
    simp [el2Block, bootBlock, bootEffect, BootCpu.set]
  have hcnthctl : (bootBlock core layout el2Block c).sys .cnthctlEl2 = 3 := by
    simp [el2Block, bootBlock, bootEffect, BootCpu.set]
  have hcntvoff : (bootBlock core layout el2Block c).sys .cntvoffEl2 = 0 := by
    simp [el2Block, bootBlock, bootEffect, BootCpu.set]
  have hspsr : (bootBlock core layout el2Block c).sys .spsrEl2 = 0x3c5 := by
    simp [el2Block, bootBlock, bootEffect, BootCpu.set]
  have helr : (bootBlock core layout el2Block c).sys .elrEl2 = layout.address el1Entry := by
    simp [el2Block, bootBlock, bootEffect, BootCpu.set]
  generalize bootBlock core layout el2Block c = c₁
    at hrun hcarries hpstate hhcr hcnthctl hcntvoff hspsr helr
  have hlevel₁ : c₁.level = 2 := by rw [BootCpu.level, hpstate]; exact hlevel
  have hnot : ¬ c₁.level = 3 := by omega
  have hspsr₁ : c₁.spsr = 0x3c5 := by rw [BootCpu.spsr, if_neg hnot, hspsr]
  have helr₁ : (c₁.elr - layout.start) / 4 = el1Entry := by
    rw [BootCpu.elr, if_neg hnot, helr, BootLayout.address]
    omega
  have hlegal : c₁.legalReturn core = true := by
    have hbits : Nat.testBit 0x3c5 4 = false ∧ Nat.testBit 0x3c5 1 = false ∧ exceptionLevel 0x3c5 = 1 ∧
        Nat.testBit (1 <<< 31) 31 = true ∧ Nat.testBit (1 <<< 31) 27 = false := by decide
    obtain ⟨hfour, hone, htarget, hwidth, htge⟩ := hbits
    simp only [BootCpu.legalReturn, hspsr₁, hlevel₁, hhcr, hfour, hone, htarget, hwidth, htge]
    simp
  refine ⟨{ c₁ with pstate := 0x3c5 }, ⟨hcarries.x19, hcarries.mem⟩, rfl, hcnthctl, hcntvoff,
    hrun.tail ((stepAt_eq rfl).trans ?_)⟩
  rw [bootExec, hlegal, hspsr₁, helr₁, if_pos rfl]

/-- The rounds of `clear_bss`. -/
def BootLayout.rounds (layout : BootLayout) : ℕ := (layout.bssEnd - layout.bssStart + 7) / 8

/-- In front of a round of `clear_bss`, after `k` of them. -/
structure Clearing (layout : BootLayout) (reset entered : BootCpu) (k : ℕ) (c : BootCpu) : Prop where
  x1 : c.reg 1 = layout.bssStart + 8 * k
  x2 : c.reg 2 = layout.bssEnd
  x19 : c.reg 19 = reset.reg 0
  sp : c.sp = layout.bootStackTop
  pstate : c.pstate = entered.pstate
  sys : c.sys = entered.sys
  mem : ∀ a, c.mem a = if layout.bssStart ≤ a ∧ a < layout.bssStart + 8 * k then 0 else reset.mem a

theorem reaches_el1Entry {entered : BootCpu} (h : Carries reset entered) :
    ∃ c, Clearing layout reset entered 0 c ∧
      Reaches (bootStep core layout) (entered, el1Entry) (c, clearBss) := by
  have hrun := @reaches_bootBlock core layout entered entered.level el1Entry (el1Block layout)
    (by simp [el1Block, Allowed, BootInstr.isPlain]) ⟨_, rfl⟩ rfl
  refine ⟨bootBlock core layout (el1Block layout) entered, ⟨?_, ?_, ?_, ?_, ?_, ?_, fun a ↦ ?_⟩, hrun⟩
  · simp [el1Block, bootBlock, bootEffect, BootCpu.set]
  · simp [el1Block, bootBlock, bootEffect, BootCpu.set]
  · simp [el1Block, bootBlock, bootEffect, BootCpu.set, h.x19]
  · simp [el1Block, bootBlock, bootEffect, BootCpu.set]
  · simp [el1Block, bootBlock, bootEffect, BootCpu.set]
  · simp [el1Block, bootBlock, bootEffect, BootCpu.set]
  · rw [if_neg (by omega)]
    simp [el1Block, bootBlock, bootEffect, BootCpu.set, h.mem]

/-- The comparison at the head of the loop. -/
theorem reaches_compare {entered : BootCpu} {k : ℕ} (hk : k ≤ layout.rounds)
    (h : Clearing layout reset entered k c) :
    ∃ c', Clearing layout reset entered k c' ∧ Reaches (bootStep core layout) (c, clearBss)
      (c', if k < layout.rounds then 34 else bssCleared) := by
  have hordered := layout.ordered
  have hbounded := layout.bounded
  have hx1 : layout.bssStart + 8 * k < 2 ^ 63 := by
    unfold BootLayout.rounds at hk
    omega
  have hge : (c.compare (c.reg 1) (c.reg 2)).greaterEq = decide (¬ k < layout.rounds) := by
    rw [BootCpu.compare, h.x1, h.x2]
    simp only [i64_of_lt hx1, i64_of_lt (by omega : layout.bssEnd < 2 ^ 63)]
    rw [decide_eq_decide, Nat.cast_le]
    unfold BootLayout.rounds
    omega
  refine ⟨c.compare (c.reg 1) (c.reg 2), ⟨h.x1, h.x2, h.x19, h.sp, h.pstate, h.sys, h.mem⟩, ?_⟩
  refine reaches_instr rfl rfl (reaches_instr rfl ?_ .refl)
  change some (_, if (c.compare (c.reg 1) (c.reg 2)).greaterEq then bssCleared else 34) = _
  rw [hge]
  by_cases hless : k < layout.rounds <;> simp [hless, bootEffect]

/-- A round clears eight more bytes. -/
theorem reaches_round {entered : BootCpu} {k : ℕ} (hk : k < layout.rounds)
    (h : Clearing layout reset entered k c) :
    ∃ c', Clearing layout reset entered (k + 1) c' ∧
      Reaches (bootStep core layout) (c, clearBss) (c', clearBss) := by
  obtain ⟨c₁, h₁, hcompare⟩ := @reaches_compare core layout reset c entered k hk.le h
  rw [if_pos hk] at hcompare
  have hbounded := layout.bounded
  have hx1 : wrap (layout.bssStart + 8 * k + 8) = layout.bssStart + 8 * (k + 1) := by
    unfold BootLayout.rounds at hk
    rw [wrap_of_lt (by omega)]
    ring
  have haligned : 8 ∣ c₁.reg 1 := by
    rw [h₁.x1]
    exact Nat.dvd_add layout.aligned (Nat.dvd_mul_right 8 k)
  refine ⟨bootEffect core layout (.strXzr 1) c₁, ⟨?_, ?_, ?_, h₁.sp, h₁.pstate, h₁.sys, fun a ↦ ?_⟩,
    hcompare.trans (reaches_instr rfl (if_pos haligned) (reaches_instr rfl rfl .refl))⟩
  · simp [bootEffect, BootCpu.set, h₁.x1, hx1]
  · simp [bootEffect, BootCpu.set, h₁.x2]
  · simp [bootEffect, BootCpu.set, h₁.x19]
  · change ByteMemory.writeBytes c₁.mem (c₁.reg 1) (List.replicate 8 0) a = _
    have hzero (i : ℕ) : (List.replicate 8 (0 : UInt8)).getD i 0 = 0 := by
      rw [List.getD_eq_getElem?_getD, List.getElem?_replicate]
      split_ifs <;> rfl
    rw [ByteMemory.writeBytes, h₁.x1, h₁.mem, List.length_replicate, hzero]
    split_ifs <;> first | rfl | omega

/-- `clear_bss` is left when all words are cleared, and `kernel_main` is called. -/
theorem reaches_kernelMainEntry {entered : BootCpu} (hpstate : entered.pstate = 0x3c5)
    (htimer : reset.level ≠ 1 → entered.sys .cnthctlEl2 = 3 ∧ entered.sys .cntvoffEl2 = 0)
    (h : Clearing layout reset entered 0 c) :
    ∃ c', KernelCall layout reset c' ∧
      Reaches (bootStep core layout) (c, clearBss) (c', kernelMainEntry) := by
  let invariant (n : ℕ) (s : BootCpu × ℕ) : Prop :=
    s.2 = clearBss ∧ ∃ k, k + n = layout.rounds ∧ Clearing layout reset entered k s.1
  have hround (n : ℕ) (s : BootCpu × ℕ) (hs : invariant (n + 1) s) :
      ∃ s', Reaches (bootStep core layout) s s' ∧ invariant n s' := by
    obtain ⟨c, i⟩ := s
    obtain ⟨rfl, k, hk, hclearing⟩ := hs
    obtain ⟨c', hclearing', hreaches⟩ := @reaches_round core layout reset c entered k (by omega) hclearing
    exact ⟨(c', clearBss), hreaches, rfl, k + 1, by omega, hclearing'⟩
  have hfirst : invariant layout.rounds (c, clearBss) := ⟨rfl, 0, Nat.zero_add _, h⟩
  obtain ⟨⟨c₁, _⟩, hloop, rfl, k, hk, h₁⟩ := reaches_rounds hround hfirst
  rw [Nat.add_zero] at hk
  obtain ⟨c₂, h₂, hcompare⟩ := @reaches_compare core layout reset c₁ entered k hk.le h₁
  rw [if_neg (by omega)] at hcompare
  refine ⟨((c₂.set 0 0).set 1 (c₂.reg 19)).set 30 (layout.address park), ⟨?_, ?_, ?_, ?_, ?_, ?_, ?_⟩,
    hloop.trans (hcompare.trans (reaches_instr rfl rfl (reaches_instr rfl rfl
      (reaches_instr rfl ?_ .refl))))⟩
  · exact h₂.pstate.trans hpstate
  · exact h₂.sp
  · simp [BootCpu.set]
  · simp [BootCpu.set, h₂.x19]
  · simp [BootCpu.set]
  · intro hlevel
    change c₂.sys .cnthctlEl2 = 3 ∧ c₂.sys .cntvoffEl2 = 0
    rw [h₂.sys]
    exact htimer hlevel
  · intro a
    change c₂.mem a = _
    rw [h₂.mem, hk]
    rfl
  · simp [bootExec, bootEffect, BootCpu.set]
    rfl

end Blocks

/-! ### All of the code -/

section Main

variable {core : Core} {layout : BootLayout} {reset : BootCpu}

/-- A processor goes down to EL1 from wherever there is a way. -/
theorem reaches_level_one {c : BootCpu} (h : Carries reset c) (hpstate : c.pstate = reset.pstate)
    (hreset : reset.Reset) (hway : reset.level = 3 → core.hasEl2 = true) :
    ∃ c', Carries reset c' ∧ c'.pstate = 0x3c5 ∧
      (reset.level ≠ 1 → c'.sys .cnthctlEl2 = 3 ∧ c'.sys .cntvoffEl2 = 0) ∧
      Reaches (bootStep core layout) (c, 4) (c', el1Entry) := by
  obtain ⟨c₁, h₁, hpstate₁, hdispatch⟩ := @reaches_level core layout reset c h
  have hlevel : c.level = reset.level := by rw [BootCpu.level, hpstate, BootCpu.level]
  have hlevel₁ : c₁.level = reset.level := by rw [BootCpu.level, hpstate₁, hpstate, BootCpu.level]
  rw [hlevel] at hdispatch
  rcases hreset with hone | htwo | hthree
  · have hreset : reset.level = 1 := by rw [BootCpu.level, hone]; decide
    rw [hreset, if_neg (by decide), if_neg (by decide)] at hdispatch
    exact ⟨c₁, h₁, hpstate₁.trans (hpstate.trans hone), fun hnot ↦ absurd hreset hnot, hdispatch⟩
  · have hreset : reset.level = 2 := by rw [BootCpu.level, htwo]; decide
    rw [hreset, if_neg (by decide), if_pos rfl] at hdispatch
    obtain ⟨c₂, h₂, hpstate₂, hcnthctl, hcntvoff, hdown⟩ :=
      @reaches_fromEl2 core layout reset c₁ h₁ (hlevel₁.trans hreset)
    exact ⟨c₂, h₂, hpstate₂, fun _ ↦ ⟨hcnthctl, hcntvoff⟩, hdispatch.trans hdown⟩
  · have hreset : reset.level = 3 := by rw [BootCpu.level, hthree]; decide
    rw [hreset, if_pos rfl] at hdispatch
    obtain ⟨c₂, h₂, hwrites, hreturn⟩ :=
      @reaches_fromEl3 core layout reset c₁ h₁ (hlevel₁.trans hreset)
    rw [if_pos (hway hreset)] at hreturn
    have hlevel₂ : BootCpu.level { c₂ with pstate := 0x3c9 } = 2 := by
      change exceptionLevel 0x3c9 = 2
      decide
    obtain ⟨c₃, h₃, hpstate₃, hcnthctl, hcntvoff, hdown⟩ :=
      @reaches_fromEl2 core layout reset { c₂ with pstate := 0x3c9 } ⟨h₂.x19, h₂.mem⟩ hlevel₂
    exact ⟨c₃, h₃, hpstate₃, fun _ ↦ ⟨hcnthctl, hcntvoff⟩,
      hdispatch.trans ((hwrites.tail hreturn).trans hdown)⟩

/-- The first processor calls the kernel wherever there is a way down to EL1. -/
theorem reaches_kernelCall (hfirst : core.mpidr % 256 = 0) (hreset : reset.Reset)
    (hway : reset.level = 3 → core.hasEl2 = true) :
    ∃ c, KernelCall layout reset c ∧
      Reaches (bootStep core layout) (reset, 0) (c, kernelMainEntry) := by
  obtain ⟨c₁, h₁, hpstate₁, hentry⟩ := reaches_cbnz core layout reset
  rw [if_neg (by omega)] at hentry
  obtain ⟨c₂, h₂, hpstate₂, htimer, hdown⟩ :=
    @reaches_level_one core layout reset c₁ h₁ hpstate₁ hreset hway
  obtain ⟨c₃, h₃, hstack⟩ := @reaches_el1Entry core layout reset c₂ h₂
  obtain ⟨c₄, h₄, hcall⟩ := @reaches_kernelMainEntry core layout reset c₃ c₂ hpstate₂ htimer h₃
  exact ⟨c₄, h₄, hentry.trans (hdown.trans (hstack.trans hcall))⟩

/-- In EL3 with no EL2 below, the first exception return is not legal. -/
theorem reaches_stuck (hfirst : core.mpidr % 256 = 0) (hlevel : reset.level = 3)
    (hmissing : core.hasEl2 = false) :
    ∃ c, Reaches (bootStep core layout) (reset, 0) (c, 17) ∧
      bootStep core layout (c, 17) = none := by
  obtain ⟨c₁, h₁, hpstate₁, hentry⟩ := reaches_cbnz core layout reset
  rw [if_neg (by omega)] at hentry
  have hlevel₁ : c₁.level = 3 := by rw [BootCpu.level, hpstate₁]; exact hlevel
  obtain ⟨c₂, h₂, hpstate₂, hdispatch⟩ := @reaches_level core layout reset c₁ h₁
  rw [if_pos hlevel₁] at hdispatch
  have hlevel₂ : c₂.level = 3 := by rw [BootCpu.level, hpstate₂]; exact hlevel₁
  obtain ⟨c₃, -, hwrites, hreturn⟩ := @reaches_fromEl3 core layout reset c₂ h₂ hlevel₂
  rw [hmissing] at hreturn
  exact ⟨c₃, hentry.trans (hdispatch.trans hwrites), hreturn⟩

/-- A processor that is on its way to `park` or there. Its memory is as it was, and in front of the branch
there is what the branch asks for. -/
structure Parking (core : Core) (reset : BootCpu) (s : BootCpu × ℕ) : Prop where
  mem : s.1.mem = reset.mem
  place : s.2 = 0 ∨ s.2 = 1 ∨ (s.2 = 2 ∧ s.1.reg 1 = core.mpidr) ∨
    (s.2 = 3 ∧ s.1.reg 1 = core.mpidr % 256) ∨ s.2 = park ∨ s.2 = park + 1

/-- A processor that is not the first one stays parked. -/
theorem Parking.step {s s' : BootCpu × ℕ} (hother : core.mpidr % 256 ≠ 0) (h : Parking core reset s)
    (hstep : bootStep core layout s = some s') : Parking core reset s' := by
  obtain ⟨c, i⟩ := s
  have hmask : core.mpidr &&& 0xff = core.mpidr % 256 := Nat.and_two_pow_sub_one_eq_mod core.mpidr 8
  obtain ⟨hmem, hplace⟩ := h
  rcases hplace with rfl | rfl | ⟨rfl, hx1⟩ | ⟨rfl, hx1⟩ | rfl | rfl <;>
    cases (Option.some.inj hstep)
  · exact ⟨hmem, .inr (.inl rfl)⟩
  · exact ⟨hmem, .inr (.inr (.inl ⟨rfl, by simp [bootEffect, BootCpu.set]⟩))⟩
  · refine ⟨hmem, .inr (.inr (.inr (.inl ⟨rfl, ?_⟩)))⟩
    change c.reg 1 = core.mpidr at hx1
    simp [bootEffect, BootCpu.set, hx1, hmask]
  · change c.reg 1 = core.mpidr % 256 at hx1
    refine ⟨hmem, .inr (.inr (.inr (.inr (.inl ?_))))⟩
    change (if c.reg 1 ≠ 0 then park else 4) = park
    rw [if_pos (by rw [hx1]; exact hother)]
  · exact ⟨hmem, .inr (.inr (.inr (.inr (.inr rfl))))⟩
  · exact ⟨hmem, .inr (.inr (.inr (.inr (.inl rfl))))⟩

theorem parked_of_reaches (hother : core.mpidr % 256 ≠ 0) {s : BootCpu × ℕ}
    (hreaches : Reaches (bootStep core layout) (reset, 0) s) : Parking core reset s :=
  invariant_of_reaches (fun _ _ h ↦ h.step hother) ⟨rfl, .inl rfl⟩ hreaches

theorem Parking.not_called {s : BootCpu × ℕ} (h : Parking core reset s) : s.2 ≠ kernelMainEntry := by
  have hplace := h.place
  unfold park kernelMainEntry at *
  omega

/-- The first processor calls `kernel_main` except where it starts in EL3 and has no EL2, and no other does.
What it is called with is `KernelCall`, and a processor that is not the first one changes no memory at all. -/
theorem bootMain_iff (core : Core) (layout : BootLayout) (reset : BootCpu) (hreset : reset.Reset) :
    ((∃ c, Reaches (bootStep core layout) (reset, 0) (c, kernelMainEntry)) ↔
      core.mpidr % 256 = 0 ∧ (reset.level = 3 → core.hasEl2 = true)) ∧
    (∀ c, Reaches (bootStep core layout) (reset, 0) (c, kernelMainEntry) →
      KernelCall layout reset c) ∧
    (core.mpidr % 256 ≠ 0 → ∀ s, Reaches (bootStep core layout) (reset, 0) s → s.1.mem = reset.mem) := by
  have hhalt (c : BootCpu) : bootStep core layout (c, kernelMainEntry) = none := rfl
  have hfirst (c : BootCpu) (hc : Reaches (bootStep core layout) (reset, 0) (c, kernelMainEntry)) :
      core.mpidr % 256 = 0 :=
    of_not_not fun hother ↦ (parked_of_reaches hother hc).not_called rfl
  have hway (c : BootCpu) (hc : Reaches (bootStep core layout) (reset, 0) (c, kernelMainEntry))
      (hlevel : reset.level = 3) : core.hasEl2 = true := by
    by_contra hmissing
    obtain ⟨stuck, hstuck, hnone⟩ :=
      @reaches_stuck core layout reset (hfirst c hc) hlevel (Bool.eq_false_of_not_eq_true hmissing)
    have hsame := reaches_unique hc hstuck (hhalt c) hnone
    exact absurd (congrArg Prod.snd hsame) (show ¬ kernelMainEntry = 17 by decide)
  refine ⟨⟨fun ⟨c, hc⟩ ↦ ⟨hfirst c hc, hway c hc⟩, fun ⟨hzero, hway⟩ ↦ ?_⟩, fun c hc ↦ ?_,
    fun hother s hs ↦ (parked_of_reaches hother hs).mem⟩
  · obtain ⟨c, -, hc⟩ := @reaches_kernelCall core layout reset hzero hreset hway
    exact ⟨c, hc⟩
  · obtain ⟨called, hcalled, hreaches⟩ :=
      @reaches_kernelCall core layout reset (hfirst c hc) hreset (hway c hc)
    obtain rfl : c = called :=
      congrArg Prod.fst (reaches_unique hc hreaches (hhalt c) (hhalt called))
    exact hcalled

/-- The same image on two machines that start in EL3, of which only one has an EL2. -/
theorem bootMain_iff_el3 :
    let layout : BootLayout :=
      ⟨0x40080000, 0x400a4000, 0x400a4000, 0x400c1235, by decide, by decide, by decide⟩
    let reset : BootCpu :=
      { reg := fun _ ↦ 0x48000000, sp := 0, pstate := 0x3cd, equal := false, greaterEq := false,
        sys := fun _ ↦ 0, mem := fun _ ↦ 0xff }
    (∃ c, Reaches (bootStep ⟨0x80000000, true⟩ layout) (reset, 0) (c, kernelMainEntry) ∧
      KernelCall layout reset c) ∧
    ¬ ∃ c, Reaches (bootStep ⟨0x80000000, false⟩ layout) (reset, 0) (c, kernelMainEntry) := by
  intro layout reset
  have hreset : reset.Reset := .inr (.inr rfl)
  have hlevel : reset.level = 3 := by
    change exceptionLevel 0x3cd = 3
    decide
  obtain ⟨hreached, hcalled, -⟩ := bootMain_iff ⟨0x80000000, true⟩ layout reset hreset
  obtain ⟨c, hc⟩ := hreached.mpr ⟨by decide, fun _ ↦ rfl⟩
  refine ⟨⟨c, hc, hcalled c hc⟩, fun hmissing ↦ ?_⟩
  have hway := ((bootMain_iff ⟨0x80000000, false⟩ layout reset hreset).1.mp hmissing).2
  exact Bool.false_ne_true (hway hlevel)

end Main

end MegKer.Kernel.AArch64
