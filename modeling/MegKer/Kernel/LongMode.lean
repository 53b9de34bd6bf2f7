import MegKer.Foundation.Program
import MegKer.Foundation.SignedWord
import MegKer.Foundation.WordBytes
import MegKer.Kernel.ContextSwitch
import MegKer.Vmm.IdentityMap

/-!
# From the boot loader to the x86_64 kernel

`_start` of `boot.asm`, in 32-bit protected mode, up to the call of `kernel_main` in 64-bit mode. The code
asks the processor whether there is a long mode, builds the boot page tables, turns paging on and jumps
into 64-bit code. All of it is executed, and the processor is strict on the way: it takes the order of the
control registers, looks into the descriptors in memory for what it jumps to, and translates the address
of each instruction and of each access by the page tables as soon as there is paging. So the tables that
`setup_page_tables` writes must map the code that goes on behind the switch.

`kernel_main` is reached on processors with a long mode, and on no others (`longMode_iff`). The tables are
then those of `Boot.memory`, with which the virtual memory manager starts, and the bss is zero; the two
values that the boot loader has left in registers are the arguments (`KernelCall`). Without a long mode the
processor halts with a message on the screen, which is not the one of the comment: the characters are NOO4,
the third in other colours (`Refusal`).

The bits by which the processor marks entries and descriptors as used are left out. Of the flags, the results
of comparisons are kept apart from the others, since the code saves the flags only where it restores them
before it asks for a result.
-/

set_option autoImplicit false
set_option relaxedAutoImplicit false

namespace MegKer.Kernel.X86

open Foundation StateTransition Reg
open Vmm.X86 (Boot hardwareWalk addrMask storeLow hugeEntry mapPd setupPageTables)

/-! ### Halves of words -/

/-- Read 32 bits at a multiple of 4. -/
def loadHalf (mem : WordMemory) (a : ℕ) : ℕ :=
  if a % 8 = 0 then mem a % 2 ^ 32 else mem (a / 8 * 8) / 2 ^ 32 % 2 ^ 32

/-- Write 32 bits at a multiple of 4. -/
def storeHalf (mem : WordMemory) (a value : ℕ) : WordMemory :=
  if a % 8 = 0 then storeLow mem a value
  else mem.store (a / 8 * 8) (mem (a / 8 * 8) % 2 ^ 32 + 2 ^ 32 * (value % 2 ^ 32))

theorem storeHalf_of_aligned (mem : WordMemory) {a : ℕ} (ha : 8 ∣ a) (value : ℕ) :
    storeHalf mem a value = storeLow mem a value :=
  if_pos (Nat.mod_eq_zero_of_dvd ha)

theorem loadHalf_storeHalf_same (mem : WordMemory) (a value : ℕ) :
    loadHalf (storeHalf mem a value) a = value % 2 ^ 32 := by
  unfold loadHalf storeHalf
  split_ifs
  · rw [storeLow, WordMemory.store_same]
    omega
  · rw [WordMemory.store_same]
    omega

/-- A store leaves the other words alone. -/
theorem storeHalf_of_ne (mem : WordMemory) {a b : ℕ} (value : ℕ) (hne : b ≠ a / 8 * 8) :
    storeHalf mem a value b = mem b := by
  unfold storeHalf
  split_ifs with hlow
  · exact WordMemory.store_of_ne mem _ (by omega)
  · exact WordMemory.store_of_ne mem _ hne

/-- A store leaves the other half of its word alone, too. -/
theorem loadHalf_storeHalf_of_ne (mem : WordMemory) {a b : ℕ} (value : ℕ) (ha : 4 ∣ a) (hb : 4 ∣ b)
    (hne : b ≠ a) : loadHalf (storeHalf mem a value) b = loadHalf mem b := by
  by_cases hword : b / 8 * 8 = a / 8 * 8
  · unfold loadHalf storeHalf
    split_ifs with hlow hother hother
    · omega
    · have hsame : a / 8 * 8 = b := by omega
      rw [hsame, WordMemory.store_same]
      omega
    · have hsame : a / 8 * 8 = a := by omega
      rw [hword, hsame, storeLow, WordMemory.store_same]
      omega
    · omega
  · have hsame := storeHalf_of_ne mem value hword
    unfold loadHalf
    rw [hsame]
    split_ifs with hlow
    · rw [storeHalf_of_ne mem value (by omega)]
    · rfl

/-! ### The processor -/

/-- What `cpuid` leaves in the registers. -/
structure CpuidAnswer where
  eax : ℕ
  ebx : ℕ
  ecx : ℕ
  edx : ℕ

/-- A processor: whether it has `cpuid`, and what this answers to the numbers in `eax`. -/
structure Core where
  hasCpuid : Bool
  cpuid : ℕ → CpuidAnswer

inductive ControlReg
  | cr0
  | cr3
  | cr4
  deriving DecidableEq, Repr

inductive SegmentReg
  | ss
  | ds
  | es
  | fs
  | gs
  deriving DecidableEq, Repr

/-- The instructions of `boot.asm`. Registers are named by their 64 bits, and the mode says how many of
them an instruction works on; the target of a jump is the number of an instruction. -/
inductive BootInstr
  | cli
  /-- `mov esp, value` -/
  | movSp (value : ℕ)
  | push (r : Reg)
  | pop (r : Reg)
  | pushf
  | popf
  | call (target : ℕ)
  | ret
  /-- `mov dst, value` -/
  | movImm (dst : Reg) (value : ℕ)
  /-- `mov dst, value` for the lower 16 bits -/
  | movImm16 (dst : Reg) (value : ℕ)
  | mov (dst src : Reg)
  | orImm (dst : Reg) (value : ℕ)
  | xorImm (dst : Reg) (value : ℕ)
  | inc (dst : Reg)
  | mul (src : Reg)
  | cmp (a b : Reg)
  | cmpImm (a : Reg) (value : ℕ)
  | testImm (a : Reg) (value : ℕ)
  | cpuid
  | rdmsr
  | wrmsr
  /-- `mov dst, cr` -/
  | readCr (dst : Reg) (cr : ControlReg)
  /-- `mov cr, src` -/
  | writeCr (cr : ControlReg) (src : Reg)
  /-- `lgdt`, of a limit and a base -/
  | lgdt (limit base : ℕ)
  /-- `jmp selector:target` -/
  | jmpFar (selector target : ℕ)
  /-- `mov r, ax` -/
  | movSegment (r : SegmentReg)
  /-- `mov [a], src` for 32 bits -/
  | store (a : ℕ) (src : Reg)
  /-- `mov [base + index * 8], src` for 32 bits -/
  | storeIndexed (base : ℕ) (index src : Reg)
  /-- `mov dword [a], value` -/
  | storeImm (a value : ℕ)
  /-- `mov dst, [rsp + offset]` for 32 bits -/
  | loadSp (dst : Reg) (offset : ℕ)
  /-- `add rsp, value` -/
  | addSp (value : ℕ)
  /-- `mov byte [base], 0` -/
  | zeroByte (base : Reg)
  | je (target : ℕ)
  | jb (target : ℕ)
  | jne (target : ℕ)
  | jge (target : ℕ)
  | jmp (target : ℕ)
  | hlt
  deriving DecidableEq, Repr

/-- The state of the processor at boot. `code64` says that the code segment is one for 64-bit code. -/
structure BootCpu where
  reg : Reg → ℕ
  sp : ℕ
  eflags : ℕ
  zero : Bool
  below : Bool
  greaterEq : Bool
  cr0 : ℕ
  cr3 : ℕ
  cr4 : ℕ
  efer : ℕ
  gdtBase : ℕ
  gdtLimit : ℕ
  cs : ℕ
  segment : SegmentReg → ℕ
  code64 : Bool
  mem : WordMemory

namespace BootCpu

variable (c : BootCpu)

def set (r : Reg) (value : ℕ) : BootCpu := { c with reg := Function.update c.reg r value }

/-- A result of the width of the mode. -/
def trim (value : ℕ) : ℕ := if c.code64 then wrap value else wrap32 value

def signed (value : ℕ) : ℤ := if c.code64 then i64 value else i32 value

def compare (a b : ℕ) : BootCpu :=
  { c with zero := a == b, below := decide (a < b), greaterEq := decide (c.signed b ≤ c.signed a) }

/-- The physical address of an address. -/
def physical (a : ℕ) : Option ℕ :=
  if c.cr0.testBit 31 then (hardwareWalk c.mem (c.cr3 &&& addrMask) a).map fun found ↦ found.phys
  else some a

/-- The physical address of an access of some bytes. The accesses of this code are all aligned, and no other
is given a meaning. -/
def access (size a : ℕ) : Option ℕ := (c.physical a).filter fun p ↦ size ∣ p

/-- Push a word of the width of the mode. -/
def pushValue (value : ℕ) : Option BootCpu :=
  if c.code64 then
    (c.access 8 (wrapSub c.sp 8)).map fun p ↦
      { c with sp := wrapSub c.sp 8, mem := c.mem.store p value }
  else
    (c.access 4 (wrap32 (c.sp + (2 ^ 32 - 4)))).map fun p ↦
      { c with sp := wrap32 (c.sp + (2 ^ 32 - 4)), mem := storeHalf c.mem p value }

/-- Pop a word of the width of the mode. -/
def popValue : Option (ℕ × BootCpu) :=
  if c.code64 then (c.access 8 c.sp).map fun p ↦ (c.mem p, { c with sp := wrap (c.sp + 8) })
  else (c.access 4 c.sp).map fun p ↦ (loadHalf c.mem p, { c with sp := wrap32 (c.sp + 4) })

/-- Write 32 bits. -/
def storeValue (a value : ℕ) : Option BootCpu :=
  (c.access 4 a).map fun p ↦ { c with mem := storeHalf c.mem p value }

/-- The upper half of a segment descriptor of the GDT. -/
def descriptorHigh (selector : ℕ) : Option ℕ :=
  if selector / 8 * 8 + 7 ≤ c.gdtLimit then
    (c.access 4 (c.gdtBase + selector / 8 * 8 + 4)).map (loadHalf c.mem)
  else none

end BootCpu

/-- A descriptor is present, and of a segment that is not for the system. -/
def isSegment (high : ℕ) : Bool := high.testBit 15 && high.testBit 12

/-- A descriptor is of the most privileged level. -/
def isKernel (high : ℕ) : Bool := !high.testBit 13 && !high.testBit 14

/-- A segment of code, not of both 64-bit and 32-bit code. -/
def isCode (high : ℕ) : Bool :=
  isSegment high && isKernel high && high.testBit 11 && !(high.testBit 21 && high.testBit 22)

/-- A segment of data that may be written. -/
def isData (high : ℕ) : Bool := isSegment high && isKernel high && !high.testBit 11 && high.testBit 9

/-- The flags that `pushf` saves. -/
def pushMask : ℕ := 0xFCFFFF

/-- The flags after `popf`. Without `cpuid`, bit 21 cannot be changed. -/
def popFlags (core : Core) (old value : ℕ) : ℕ :=
  if core.hasCpuid then value else value ^^^ ((value ^^^ old) &&& 2 ^ 21)

/-- The register of model specific registers that the code works on. -/
def eferMsr : ℕ := 0xC0000080

/-- What `mov cr, value` does. Paging is turned on in protected mode, with a long mode of four levels. -/
def writeControl (c : BootCpu) (value : ℕ) : ControlReg → Option BootCpu
  | .cr3 => some { c with cr3 := value }
  | .cr4 => some { c with cr4 := value }
  | .cr0 =>
    if value.testBit 31 then
      if value.testBit 0 && c.efer.testBit 8 && c.cr4.testBit 5 && !c.cr4.testBit 12 then
        some { c with cr0 := value, efer := c.efer ||| 2 ^ 10 }
      else none
    else some { c with cr0 := value }

def readControl (c : BootCpu) : ControlReg → ℕ
  | .cr0 => c.cr0
  | .cr3 => c.cr3
  | .cr4 => c.cr4

/-! ### The code -/

/-- The labels of `boot.asm`, as numbers of instructions. -/
def checkLongMode : ℕ := 20
def noLongMode : ℕ := 41
def setupTables : ℕ := 44
def mapPdLoop : ℕ := 51
def longModeEntry : ℕ := 59
def zeroBss : ℕ := 71
def bssDone : ℕ := 76

/-- `kernel_main` is outside of this code. -/
def kernelMainEntry : ℕ := 81

/-- The upper halves of the descriptors of `gdt64`. -/
def codeSegmentHigh : ℕ := ((1 <<< 43) ||| (1 <<< 44) ||| (1 <<< 47) ||| (1 <<< 53)) >>> 32
def dataSegmentHigh : ℕ := ((1 <<< 44) ||| (1 <<< 47) ||| (1 <<< 41)) >>> 32

/-- Where the image is: its instructions, `gdt64`, and the bss, in front of which there are the boot tables
and the boot stack. GRUB has loaded the descriptors. -/
structure BootLayout where
  boot : Boot
  address : ℕ → ℕ
  gdt64 : ℕ
  bssStart : ℕ
  bssEnd : ℕ
  before_tables : ∀ i ≤ kernelMainEntry, address i < boot.pml4Table
  distinct : ∀ i ≤ kernelMainEntry, ∀ j ≤ kernelMainEntry, address i = address j → i = j
  gdt_aligned : 4 ∣ gdt64
  gdt_before : gdt64 + 24 ≤ boot.pml4Table
  gdt_code : loadHalf boot.mem (gdt64 + 12) = codeSegmentHigh
  gdt_data : loadHalf boot.mem (gdt64 + 20) = dataSegmentHigh
  bss_behind : boot.pml4Table + 3 * 4096 + 16384 ≤ bssStart
  bss_ordered : bssStart ≤ bssEnd
  bss_inside : bssEnd ≤ boot.kernelEnd

/-- `stack_top`; the stack is behind the three tables. -/
def BootLayout.stackTop (layout : BootLayout) : ℕ := layout.boot.pml4Table + 3 * 4096 + 16384

/-- The instruction at an address. -/
def BootLayout.find (layout : BootLayout) (a : ℕ) : Option ℕ :=
  (List.range (kernelMainEntry + 1)).find? fun i ↦ layout.address i == a

/-- `_start`, `check_long_mode`, `setup_page_tables` and `long_mode_entry` -/
def bootCode (layout : BootLayout) : List BootInstr :=
  [.cli, .movSp layout.stackTop, .push rbx, .push rax, .call checkLongMode, .call setupTables,
   .readCr rax .cr4, .orImm rax (1 <<< 5), .writeCr .cr4 rax,
   .movImm rax layout.boot.pml4Table, .writeCr .cr3 rax,
   .movImm rcx eferMsr, .rdmsr, .orImm rax (1 <<< 8), .wrmsr,
   .readCr rax .cr0, .orImm rax ((1 <<< 31) ||| (1 <<< 0)), .writeCr .cr0 rax,
   .lgdt 23 layout.gdt64, .jmpFar 8 longModeEntry,
   -- check_long_mode
   .pushf, .pop rax, .mov rcx rax, .xorImm rax (1 <<< 21), .push rax, .popf, .pushf, .pop rax, .push rcx,
   .popf, .cmp rax rcx, .je noLongMode,
   .movImm rax 0x80000000, .cpuid, .cmpImm rax 0x80000001, .jb noLongMode,
   .movImm rax 0x80000001, .cpuid, .testImm rdx (1 <<< 29), .je noLongMode, .ret,
   -- .no_long_mode
   .storeImm 0xB8000 0x4F4F4F4E, .storeImm 0xB8004 0x4F34304F, .hlt,
   -- setup_page_tables
   .movImm rax layout.boot.pdpTable, .orImm rax 0b11, .store layout.boot.pml4Table rax,
   .movImm rax layout.boot.pdTable, .orImm rax 0b11, .store layout.boot.pdpTable rax,
   .movImm rcx 0,
   -- .map_pd
   .movImm rax 0x200000, .mul rcx, .orImm rax 0b10000011, .storeIndexed layout.boot.pdTable rcx rax,
   .inc rcx, .cmpImm rcx 512, .jne mapPdLoop, .ret,
   -- long_mode_entry
   .movImm16 rax 16, .movSegment .ss, .movSegment .ds, .movSegment .es, .movSegment .fs, .movSegment .gs,
   .loadSp rdi 0, .loadSp rsi 4, .addSp 8, .push rdi, .push rsi, .movImm rax layout.bssStart,
   -- .zero_bss
   .cmpImm rax layout.bssEnd, .jge bssDone, .zeroByte rax, .inc rax, .jmp zeroBss,
   -- .bss_done
   .pop rsi, .pop rdi, .call kernelMainEntry, .cli, .hlt]

/-- What an instruction does and where it goes on. There is no step where the processor halts, nor where it
would raise an exception, since there are no handlers. -/
def execute (core : Core) (layout : BootLayout) : BootInstr → ℕ → BootCpu → Option (BootCpu × ℕ)
  | .cli, i, c => some ({ c with eflags := c.eflags ^^^ (c.eflags &&& 2 ^ 9) }, i + 1)
  | .movSp value, i, c => some ({ c with sp := value }, i + 1)
  | .push r, i, c => (c.pushValue (c.reg r)).map fun c ↦ (c, i + 1)
  | .pop r, i, c => c.popValue.map fun p ↦ (p.2.set r p.1, i + 1)
  | .pushf, i, c => (c.pushValue (c.eflags &&& pushMask)).map fun c ↦ (c, i + 1)
  | .popf, i, c => c.popValue.map fun p ↦ ({ p.2 with eflags := popFlags core c.eflags p.1 }, i + 1)
  | .call target, i, c => (c.pushValue (layout.address (i + 1))).map fun c ↦ (c, target)
  | .ret, _, c => c.popValue.bind fun p ↦ (layout.find p.1).map fun i ↦ (p.2, i)
  | .movImm dst value, i, c => some (c.set dst value, i + 1)
  | .movImm16 dst value, i, c => some (c.set dst (c.reg dst / 2 ^ 16 * 2 ^ 16 + value), i + 1)
  | .mov dst src, i, c => some (c.set dst (c.reg src), i + 1)
  | .orImm dst value, i, c => some (c.set dst (c.reg dst ||| value), i + 1)
  | .xorImm dst value, i, c => some (c.set dst (c.reg dst ^^^ value), i + 1)
  | .inc dst, i, c => some (c.set dst (c.trim (c.reg dst + 1)), i + 1)
  | .mul src, i, c =>
    some ((c.set rax (wrap32 (c.reg rax * c.reg src))).set rdx (c.reg rax * c.reg src / 2 ^ 32), i + 1)
  | .cmp a b, i, c => some (c.compare (c.reg a) (c.reg b), i + 1)
  | .cmpImm a value, i, c => some (c.compare (c.reg a) value, i + 1)
  | .testImm a value, i, c => some (c.compare (c.reg a &&& value) 0, i + 1)
  | .cpuid, i, c =>
    let answer := core.cpuid (c.reg rax)
    some ((((c.set rax answer.eax).set rbx answer.ebx).set rcx answer.ecx).set rdx answer.edx, i + 1)
  | .rdmsr, i, c =>
    if c.reg rcx = eferMsr then some ((c.set rax (wrap32 c.efer)).set rdx (c.efer / 2 ^ 32), i + 1) else none
  | .wrmsr, i, c =>
    if c.reg rcx = eferMsr then some ({ c with efer := c.reg rax + 2 ^ 32 * c.reg rdx }, i + 1) else none
  | .readCr dst cr, i, c => some (c.set dst (readControl c cr), i + 1)
  | .writeCr cr src, i, c => (writeControl c (c.reg src) cr).map fun c ↦ (c, i + 1)
  | .lgdt limit base, i, c => some ({ c with gdtLimit := limit, gdtBase := base }, i + 1)
  | .jmpFar selector target, _, c =>
    ((c.descriptorHigh selector).filter isCode).map fun high ↦
      ({ c with cs := selector, code64 := high.testBit 21 && c.efer.testBit 10 }, target)
  | .movSegment r, i, c =>
    ((c.descriptorHigh (c.reg rax % 2 ^ 16)).filter isData).map fun _ ↦
      ({ c with segment := Function.update c.segment r (c.reg rax % 2 ^ 16) }, i + 1)
  | .store a src, i, c => (c.storeValue a (c.reg src)).map fun c ↦ (c, i + 1)
  | .storeIndexed base index src, i, c =>
    (c.storeValue (wrap32 (base + c.reg index * 8)) (c.reg src)).map fun c ↦ (c, i + 1)
  | .storeImm a value, i, c => (c.storeValue a value).map fun c ↦ (c, i + 1)
  | .loadSp dst offset, i, c =>
    (c.access 4 (wrap (c.sp + offset))).map fun p ↦ (c.set dst (loadHalf c.mem p), i + 1)
  | .addSp value, i, c => some ({ c with sp := wrap (c.sp + value) }, i + 1)
  | .zeroByte base, i, c =>
    (c.access 1 (c.reg base)).map fun p ↦ ({ c with mem := c.mem.storeByte p 0 }, i + 1)
  | .je target, i, c => some (c, if c.zero then target else i + 1)
  | .jb target, i, c => some (c, if c.below then target else i + 1)
  | .jne target, i, c => some (c, if c.zero then i + 1 else target)
  | .jge target, i, c => some (c, if c.greaterEq then target else i + 1)
  | .jmp target, _, c => some (c, target)
  | .hlt, _, _ => none

/-- An instruction is executed if it is found at its address. -/
def bootExec (core : Core) (layout : BootLayout) (instr : BootInstr) (i : ℕ) (c : BootCpu) :
    Option (BootCpu × ℕ) :=
  if c.physical (layout.address i) = some (layout.address i) then execute core layout instr i c else none

/-- A step of the processor at boot. -/
abbrev bootStep (core : Core) (layout : BootLayout) : BootCpu × ℕ → Option (BootCpu × ℕ) :=
  stepAt (bootCode layout) (bootExec core layout)

/-! ### One instruction -/

section Steps

variable {core : Core} {layout : BootLayout} {c : BootCpu}

/-- The first gigabyte is where it is. All of the image lies in it. -/
def BootCpu.Identity (c : BootCpu) : Prop := ∀ a < 2 ^ 30, c.physical a = some a

theorem identity_of_flat (hflat : c.cr0.testBit 31 = false) : c.Identity := by
  intro a _
  rw [BootCpu.physical, hflat]
  rfl

theorem BootLayout.tables_lt (layout : BootLayout) : layout.boot.pml4Table < 2 ^ 30 := by
  have hbefore := layout.boot.before_end
  have hend := layout.boot.end_le
  omega

/-- One instruction, and then the rest. -/
theorem reaches_exec {instr : BootInstr} {i : ℕ} {next s : BootCpu × ℕ} (hidentity : c.Identity)
    (hinstr : (bootCode layout)[i]? = some instr) (hexec : execute core layout instr i c = some next)
    (hrest : Reaches (bootStep core layout) next s) : Reaches (bootStep core layout) (c, i) s := by
  have hi : i < kernelMainEntry := (List.getElem?_eq_some_iff.mp hinstr).1
  have haddress : layout.address i < 2 ^ 30 :=
    (layout.before_tables i hi.le).trans layout.tables_lt
  exact reaches_instr hinstr ((if_pos (hidentity _ haddress)).trans hexec) hrest

theorem access_eq (hidentity : c.Identity) {size a : ℕ} (ha : a < 2 ^ 30) (haligned : size ∣ a) :
    c.access size a = some a := by
  rw [BootCpu.access, hidentity a ha]
  exact if_pos (decide_eq_true haligned)

/-- The stack pointer of 32-bit code. -/
structure Stack32 (c : BootCpu) (sp : ℕ) : Prop where
  identity : c.Identity
  mode : c.code64 = false
  sp_eq : c.sp = sp
  aligned : 4 ∣ sp
  high : sp ≤ 2 ^ 30

/-- One word further down. -/
theorem Stack32.lower {sp value : ℕ} (h : Stack32 c sp) (hflat : c.cr0.testBit 31 = false) :
    Stack32 { c with sp := sp - 4, mem := storeHalf c.mem (sp - 4) value } (sp - 4) where
  identity := identity_of_flat hflat
  mode := h.mode
  sp_eq := rfl
  aligned := Nat.dvd_sub h.aligned (dvd_refl 4)
  high := by
    have hhigh := h.high
    omega

theorem pushValue_eq {sp : ℕ} (h : Stack32 c sp) (hlow : 4 ≤ sp) (value : ℕ) :
    c.pushValue value = some { c with sp := sp - 4, mem := storeHalf c.mem (sp - 4) value } := by
  have hhigh := h.high
  have hwrap : wrap32 (c.sp + (2 ^ 32 - 4)) = sp - 4 := by
    rw [h.sp_eq, wrap32]
    omega
  have haligned := Nat.dvd_sub h.aligned (dvd_refl 4)
  rw [BootCpu.pushValue, h.mode, if_neg Bool.false_ne_true, hwrap,
    access_eq h.identity (by omega) haligned]
  rfl

theorem popValue_eq {sp : ℕ} (h : Stack32 c sp) (hhigh : sp < 2 ^ 30) :
    c.popValue = some (loadHalf c.mem sp, { c with sp := sp + 4 }) := by
  have hwrap : wrap32 (sp + 4) = sp + 4 := by
    rw [wrap32]
    omega
  rw [BootCpu.popValue, h.mode, if_neg Bool.false_ne_true, h.sp_eq,
    access_eq h.identity hhigh h.aligned, hwrap]
  rfl

/-- The instruction at the address of an instruction. -/
theorem find_address {i : ℕ} (hi : i ≤ kernelMainEntry) : layout.find (layout.address i) = some i := by
  rw [BootLayout.find, List.find?_range_eq_some]
  refine ⟨beq_self_eq_true _, List.mem_range.mpr (Nat.lt_succ_of_le hi), fun j hj ↦ ?_⟩
  have hne : layout.address j ≠ layout.address i := fun heq ↦
    hj.ne (layout.distinct j (hj.le.trans hi) i hi heq)
  simpa using hne

end Steps

/-! ### `check_long_mode` -/

section Check

variable {core : Core} {layout : BootLayout} {c : BootCpu}

/-- The processor has a long mode, and says so. -/
structure Core.LongMode (core : Core) : Prop where
  hasCpuid : core.hasCpuid = true
  extended : 0x80000001 ≤ (core.cpuid 0x80000000).eax
  longMode : (core.cpuid 0x80000001).edx.testBit 29 = true

instance : Decidable core.LongMode :=
  decidable_of_iff (core.hasCpuid = true ∧ 0x80000001 ≤ (core.cpuid 0x80000000).eax ∧
    (core.cpuid 0x80000001).edx.testBit 29 = true)
    ⟨fun ⟨hasCpuid, extended, longMode⟩ ↦ ⟨hasCpuid, extended, longMode⟩,
      fun h ↦ ⟨h.hasCpuid, h.extended, h.longMode⟩⟩

/-- What nothing before the switch changes. -/
structure SameControl (c c' : BootCpu) : Prop where
  cr0 : c'.cr0 = c.cr0
  cr4 : c'.cr4 = c.cr4
  efer : c'.efer = c.efer
  interrupts : c'.eflags.testBit 9 = c.eflags.testBit 9

theorem SameControl.trans {c₁ c₂ c₃ : BootCpu} (h : SameControl c₁ c₂) (h' : SameControl c₂ c₃) :
    SameControl c₁ c₃ where
  cr0 := h'.cr0.trans h.cr0
  cr4 := h'.cr4.trans h.cr4
  efer := h'.efer.trans h.efer
  interrupts := h'.interrupts.trans h.interrupts

/-- Registers, memory, and the results of comparisons do not matter for it. -/
theorem SameControl.registers {sp : ℕ} {reg : Reg → ℕ} {zero below greaterEq : Bool} {mem : WordMemory}
    {c c' : BootCpu} (h : SameControl c c') :
    SameControl c { c' with
      reg := reg, sp := sp, zero := zero, below := below, greaterEq := greaterEq, mem := mem } :=
  ⟨h.cr0, h.cr4, h.efer, h.interrupts⟩

/-- Calls keep memory but for the part of the stack below some address. -/
structure Along (layout : BootLayout) (top : ℕ) (c c' : BootCpu) : Prop where
  control : SameControl c c'
  stack : ∀ a, 4 ∣ a → top ≤ a → loadHalf c'.mem a = loadHalf c.mem a
  mem : ∀ a, a + 16384 < layout.stackTop ∨ layout.stackTop ≤ a → c'.mem a = c.mem a

theorem Along.refl (layout : BootLayout) (top : ℕ) (c : BootCpu) : Along layout top c c :=
  ⟨⟨rfl, rfl, rfl, rfl⟩, fun _ _ _ ↦ rfl, fun _ _ ↦ rfl⟩

theorem Along.trans {top : ℕ} {c₁ c₂ c₃ : BootCpu} (h : Along layout top c₁ c₂)
    (h' : Along layout top c₂ c₃) : Along layout top c₁ c₃ where
  control := h.control.trans h'.control
  stack := fun a ha htop ↦ (h'.stack a ha htop).trans (h.stack a ha htop)
  mem := fun a ha ↦ (h'.mem a ha).trans (h.mem a ha)

/-- Registers, and the results of comparisons, are not kept. -/
theorem Along.registers {top sp : ℕ} {reg : Reg → ℕ} {zero below greaterEq : Bool} {c' : BootCpu}
    (h : Along layout top c c') :
    Along layout top c
      { c' with reg := reg, sp := sp, zero := zero, below := below, greaterEq := greaterEq } :=
  ⟨h.control.registers, h.stack, h.mem⟩

theorem BootLayout.stackTop_aligned (layout : BootLayout) : 8 ∣ layout.stackTop := by
  have haligned := layout.boot.aligned
  unfold BootLayout.stackTop
  omega

theorem BootLayout.stackTop_le (layout : BootLayout) : layout.stackTop ≤ 2 ^ 30 := by
  have hbehind := layout.bss_behind
  have hordered := layout.bss_ordered
  have hinside := layout.bss_inside
  have hend := layout.boot.end_le
  unfold BootLayout.stackTop
  omega

/-- A stack pointer inside the boot stack. -/
def InStack (layout : BootLayout) (sp : ℕ) : Prop :=
  4 ∣ sp ∧ layout.stackTop ≤ sp + 16380 ∧ sp ≤ layout.stackTop

theorem InStack.four_le {sp : ℕ} (h : InStack layout sp) : 4 ≤ sp := by
  have hlow := h.2.1
  unfold BootLayout.stackTop at hlow
  omega

theorem InStack.lower {sp : ℕ} (h : InStack layout sp) (hlow : layout.stackTop ≤ sp - 4 + 16380) :
    InStack layout (sp - 4) :=
  ⟨Nat.dvd_sub h.1 (dvd_refl 4), hlow, (Nat.sub_le sp 4).trans h.2.2⟩

/-- 32-bit code without paging, with its stack pointer in the boot stack. -/
structure Flat (layout : BootLayout) (c : BootCpu) (sp : ℕ) : Prop where
  paging : c.cr0.testBit 31 = false
  mode : c.code64 = false
  sp_eq : c.sp = sp
  inside : InStack layout sp

/-- Registers, flags and memory do not matter for it. -/
theorem Flat.registers {sp eflags : ℕ} {reg : Reg → ℕ} {zero below greaterEq : Bool} {mem : WordMemory}
    (h : Flat layout c sp) :
    Flat layout { c with
      reg := reg, eflags := eflags, zero := zero, below := below, greaterEq := greaterEq, mem := mem } sp :=
  ⟨h.paging, h.mode, h.sp_eq, h.inside⟩

theorem Flat.identity {sp : ℕ} (h : Flat layout c sp) : c.Identity := identity_of_flat h.paging

theorem Flat.stack32 {sp : ℕ} (h : Flat layout c sp) : Stack32 c sp where
  identity := h.identity
  mode := h.mode
  sp_eq := h.sp_eq
  aligned := h.inside.1
  high := h.inside.2.2.trans layout.stackTop_le

theorem Flat.lower_lt {sp : ℕ} (h : Flat layout c sp) : sp - 4 < 2 ^ 30 := by
  have hhigh := h.stack32.high
  omega

/-- A value below the stack pointer is nothing that the code keeps. -/
theorem along_scratch {sp : ℕ} (hinside : InStack layout sp) (c : BootCpu) (value : ℕ) :
    Along layout sp c { c with mem := storeHalf c.mem (sp - 4) value } := by
  have hfour := hinside.four_le
  obtain ⟨haligned, hlow, hhigh⟩ := hinside
  have hstack := layout.stackTop_aligned
  refine ⟨⟨rfl, rfl, rfl, rfl⟩, fun a ha hle ↦ ?_, fun a ha ↦ ?_⟩
  · exact loadHalf_storeHalf_of_ne c.mem value (by omega) ha (by omega)
  · exact storeHalf_of_ne c.mem value (by omega)

/-- Bit 21 of the flags can be changed on processors with `cpuid`. -/
theorem flags_changed_iff (core : Core) (old : ℕ) :
    popFlags core old ((old &&& pushMask) ^^^ (1 <<< 21)) &&& pushMask = old &&& pushMask ↔
      core.hasCpuid = false := by
  have hmask : pushMask.testBit 21 = true := by decide
  constructor
  · intro heq
    by_contra hcpuid
    rw [popFlags, if_pos (by simpa using hcpuid), Nat.one_shiftLeft] at heq
    have hbit := congrArg (fun flags ↦ flags.testBit 21) heq
    simp only [Nat.testBit_and, Nat.testBit_xor, hmask, Nat.testBit_two_pow_self, Bool.and_true] at hbit
    simp at hbit
  · intro hcpuid
    rw [popFlags, if_neg (by simp [hcpuid]), Nat.one_shiftLeft]
    refine Nat.eq_of_testBit_eq fun i ↦ ?_
    simp only [Nat.testBit_and, Nat.testBit_xor, Nat.testBit_two_pow]
    by_cases hi : 21 = i
    · rw [← hi]
      simp [hmask]
    · simp [hi]

/-- `popf` takes the other flags from the stack. -/
theorem testBit_popFlags (core : Core) (old value : ℕ) {i : ℕ} (hi : i ≠ 21) :
    (popFlags core old value).testBit i = value.testBit i := by
  unfold popFlags
  split_ifs
  · rfl
  · simp [Nat.testBit_and, Nat.testBit_xor, Nat.testBit_two_pow_of_ne hi.symm]

/-- `push` and `call`: an instruction that pushes a value. -/
theorem reaches_pushed {sp i target value : ℕ} {instr : BootInstr} (h : Flat layout c sp)
    (hlow : layout.stackTop ≤ sp - 4 + 16380) (hinstr : (bootCode layout)[i]? = some instr)
    (hexec : execute core layout instr i c = (c.pushValue value).map fun c ↦ (c, target)) :
    Flat layout { c with sp := sp - 4, mem := storeHalf c.mem (sp - 4) value } (sp - 4) ∧
      Reaches (bootStep core layout) (c, i)
        ({ c with sp := sp - 4, mem := storeHalf c.mem (sp - 4) value }, target) := by
  refine ⟨⟨h.paging, h.mode, rfl, h.inside.lower hlow⟩, reaches_exec h.identity hinstr (hexec.trans ?_) .refl⟩
  rw [pushValue_eq h.stack32 h.inside.four_le]
  rfl

/-- `ret` -/
theorem reaches_ret {sp i j : ℕ} (h : Flat layout c sp) (hsp : sp + 4 ≤ layout.stackTop)
    (hj : j ≤ kernelMainEntry) (hreturn : loadHalf c.mem sp = layout.address j)
    (hret : (bootCode layout)[i]? = some .ret) :
    Flat layout { c with sp := sp + 4 } (sp + 4) ∧
      Reaches (bootStep core layout) (c, i) ({ c with sp := sp + 4 }, j) := by
  have htop := layout.stackTop_le
  obtain ⟨haligned, hlow, hhigh⟩ := h.inside
  have hpopped := popValue_eq h.stack32 (by omega)
  rw [hreturn] at hpopped
  refine ⟨⟨h.paging, h.mode, rfl, Nat.dvd_add haligned (dvd_refl 4), by omega, hsp⟩,
    reaches_exec h.identity hret ?_ .refl⟩
  rw [execute, hpopped, Option.bind_some, find_address hj]
  rfl

/-- `pushf` and `pop r` -/
theorem reaches_pushf_pop {i sp : ℕ} {r : Reg} (h : Flat layout c sp)
    (hpush : (bootCode layout)[i]? = some .pushf) (hpop : (bootCode layout)[i + 1]? = some (.pop r)) :
    ∃ c', Flat layout c' sp ∧ Along layout sp c c' ∧ c'.eflags = c.eflags ∧
      c'.reg = Function.update c.reg r (c.eflags &&& pushMask) ∧
        Reaches (bootStep core layout) (c, i) (c', i + 2) := by
  have hfour := h.inside.four_le
  have hmask : (c.eflags &&& pushMask) % 2 ^ 32 = c.eflags &&& pushMask :=
    Nat.mod_eq_of_lt (lt_of_le_of_lt Nat.and_le_right (by decide))
  have hback : sp - 4 + 4 = c.sp := by
    rw [h.sp_eq]
    omega
  have hpopped : BootCpu.popValue
      { c with sp := sp - 4, mem := storeHalf c.mem (sp - 4) (c.eflags &&& pushMask) } =
        some (c.eflags &&& pushMask,
          { c with mem := storeHalf c.mem (sp - 4) (c.eflags &&& pushMask) }) := by
    rw [popValue_eq (h.stack32.lower h.paging) h.lower_lt, loadHalf_storeHalf_same, hmask, hback]
  refine ⟨({ c with mem := storeHalf c.mem (sp - 4) (c.eflags &&& pushMask) } : BootCpu).set r
    (c.eflags &&& pushMask), h.registers,
    (along_scratch h.inside c (c.eflags &&& pushMask)).registers, rfl, rfl, ?_⟩
  exact reaches_exec h.identity hpush (congrArg (Option.map _) (pushValue_eq h.stack32 hfour _))
    (reaches_exec (identity_of_flat h.paging) hpop (congrArg (Option.map _) hpopped) .refl)

/-- `push r` and `popf`, of a value that leaves interrupts as they are -/
theorem reaches_push_popf {i sp : ℕ} {r : Reg} (h : Flat layout c sp) (hr : c.reg r < 2 ^ 32)
    (hoff : (c.reg r).testBit 9 = c.eflags.testBit 9)
    (hpush : (bootCode layout)[i]? = some (.push r)) (hpop : (bootCode layout)[i + 1]? = some .popf) :
    ∃ c', Flat layout c' sp ∧ Along layout sp c c' ∧ c'.eflags = popFlags core c.eflags (c.reg r) ∧
      c'.reg = c.reg ∧ Reaches (bootStep core layout) (c, i) (c', i + 2) := by
  have hfour := h.inside.four_le
  have hback : sp - 4 + 4 = c.sp := by
    rw [h.sp_eq]
    omega
  have hpopped : BootCpu.popValue { c with sp := sp - 4, mem := storeHalf c.mem (sp - 4) (c.reg r) } =
      some (c.reg r, { c with mem := storeHalf c.mem (sp - 4) (c.reg r) }) := by
    rw [popValue_eq (h.stack32.lower h.paging) h.lower_lt, loadHalf_storeHalf_same, Nat.mod_eq_of_lt hr,
      hback]
  have hkept := along_scratch h.inside c (c.reg r)
  refine ⟨{ c with mem := storeHalf c.mem (sp - 4) (c.reg r), eflags := popFlags core c.eflags (c.reg r) },
    h.registers, ⟨⟨rfl, rfl, rfl, (testBit_popFlags core _ _ (by decide)).trans hoff⟩, hkept.stack,
      hkept.mem⟩, rfl, rfl, ?_⟩
  exact reaches_exec h.identity hpush (congrArg (Option.map _) (pushValue_eq h.stack32 hfour _))
    (reaches_exec (identity_of_flat h.paging) hpop (congrArg (Option.map _) hpopped) .refl)

/-- Is there a `cpuid`? -/
theorem reaches_hasCpuid {sp : ℕ} (h : Flat layout c sp) :
    ∃ c', Flat layout c' sp ∧ Along layout sp c c' ∧ Reaches (bootStep core layout) (c, checkLongMode)
      (c', if core.hasCpuid then 32 else noLongMode) := by
  have hsaved : c.eflags &&& pushMask < 2 ^ 24 := lt_of_le_of_lt Nat.and_le_right (by decide)
  have hflipped : (c.eflags &&& pushMask) ^^^ (1 <<< 21) < 2 ^ 24 := Nat.xor_lt_two_pow hsaved (by decide)
  obtain ⟨c₁, hflat₁, hkept₁, hflags₁, hreg₁, hrun₁⟩ :=
    @reaches_pushf_pop core layout c checkLongMode sp rax h rfl rfl
  let c₂ := (c₁.set rcx (c₁.reg rax)).set rax (c₁.reg rax ^^^ (1 <<< 21))
  have hrun₂ : Reaches (bootStep core layout) (c₁, 22) (c₂, 24) :=
    reaches_exec hflat₁.identity rfl rfl (reaches_exec (identity_of_flat hflat₁.paging) rfl rfl .refl)
  have hflat₂ : Flat layout c₂ sp := hflat₁.registers
  have hrax : c₂.reg rax = (c.eflags &&& pushMask) ^^^ (1 <<< 21) := by simp [c₂, BootCpu.set, hreg₁]
  have hrcx : c₂.reg rcx = c.eflags &&& pushMask := by simp [c₂, BootCpu.set, hreg₁]
  have hmask (i : ℕ) (hi : pushMask.testBit i = true) :
      (c.eflags &&& pushMask).testBit i = c.eflags.testBit i := by
    rw [Nat.testBit_and, hi, Bool.and_true]
  have hoff₂ : (c₂.reg rax).testBit 9 = c₂.eflags.testBit 9 := by
    change _ = c₁.eflags.testBit 9
    rw [hrax, hflags₁, Nat.testBit_xor, hmask 9 (by decide), Nat.one_shiftLeft,
      Nat.testBit_two_pow_of_ne (by decide), Bool.xor_false]
  obtain ⟨c₃, hflat₃, hkept₃, hflags₃, hreg₃, hrun₃⟩ :=
    @reaches_push_popf core layout c₂ 24 sp rax hflat₂ (by omega) hoff₂ rfl rfl
  obtain ⟨c₄, hflat₄, hkept₄, hflags₄, hreg₄, hrun₄⟩ :=
    @reaches_pushf_pop core layout c₃ 26 sp rax hflat₃ rfl rfl
  have hrcx₄ : c₄.reg rcx = c.eflags &&& pushMask := by
    rw [hreg₄, Function.update_of_ne (by decide), hreg₃, hrcx]
  have hoff₄ : (c₄.reg rcx).testBit 9 = c₄.eflags.testBit 9 := by
    rw [hrcx₄, hmask 9 (by decide), hflags₄, hkept₃.control.interrupts]
    change _ = c₁.eflags.testBit 9
    rw [hflags₁]
  obtain ⟨c₅, hflat₅, hkept₅, hflags₅, hreg₅, hrun₅⟩ :=
    @reaches_push_popf core layout c₄ 28 sp rcx hflat₄ (by omega) hoff₄ rfl rfl
  have hrax₅ : c₅.reg rax =
      popFlags core c.eflags ((c.eflags &&& pushMask) ^^^ (1 <<< 21)) &&& pushMask := by
    rw [hreg₅, hreg₄, Function.update_self, hflags₃, hrax]
    change popFlags core c₁.eflags _ &&& _ = _
    rw [hflags₁]
  have hzero : (c₅.compare (c₅.reg rax) (c₅.reg rcx)).zero = !core.hasCpuid := by
    have hiff := flags_changed_iff core c.eflags
    rw [BootCpu.compare, hrax₅, hreg₅, hrcx₄]
    cases hcpuid : core.hasCpuid
    · exact beq_iff_eq.mpr (hiff.mpr hcpuid)
    · exact beq_eq_false_iff_ne.mpr fun heq ↦ by simp [hiff.mp heq] at hcpuid
  have hkept₂ : Along layout sp c c₂ := hkept₁.registers
  refine ⟨c₅.compare (c₅.reg rax) (c₅.reg rcx), hflat₅.registers,
    (hkept₂.trans (hkept₃.trans (hkept₄.trans hkept₅))).registers,
    hrun₁.trans (hrun₂.trans (hrun₃.trans (hrun₄.trans (hrun₅.trans ?_))))⟩
  refine reaches_exec hflat₅.identity rfl rfl (reaches_exec (identity_of_flat hflat₅.paging) rfl ?_ .refl)
  rw [execute, hzero]
  cases core.hasCpuid <;> rfl

/-- What `cpuid` leaves. -/
def afterCpuid (core : Core) (leaf : ℕ) (c : BootCpu) : BootCpu :=
  (((c.set rax (core.cpuid leaf).eax).set rbx (core.cpuid leaf).ebx).set rcx (core.cpuid leaf).ecx).set rdx
    (core.cpuid leaf).edx

/-- A question to `cpuid` -/
theorem reaches_ask {sp i leaf : ℕ} (h : Flat layout c sp)
    (hmov : (bootCode layout)[i]? = some (.movImm rax leaf))
    (hcpuid : (bootCode layout)[i + 1]? = some .cpuid) :
    Reaches (bootStep core layout) (c, i) (afterCpuid core leaf (c.set rax leaf), i + 2) := by
  refine reaches_exec h.identity hmov rfl (reaches_exec (identity_of_flat h.paging) hcpuid ?_ .refl)
  simp [execute, afterCpuid, BootCpu.set]

/-- Does `cpuid` tell of a long mode? -/
theorem reaches_extended {sp : ℕ} (h : Flat layout c sp) :
    ∃ c', Flat layout c' sp ∧ Along layout sp c c' ∧ Reaches (bootStep core layout) (c, 32)
      (c', if 0x80000001 ≤ (core.cpuid 0x80000000).eax ∧
        (core.cpuid 0x80000001).edx.testBit 29 = true then 40 else noLongMode) := by
  let c₁ := (afterCpuid core 0x80000000 (c.set rax 0x80000000)).compare (core.cpuid 0x80000000).eax 0x80000001
  have hrun₁ : Reaches (bootStep core layout) (c, 32)
      (c₁, if (core.cpuid 0x80000000).eax < 0x80000001 then noLongMode else 36) := by
    refine (reaches_ask h rfl rfl).trans (reaches_exec (identity_of_flat h.paging) rfl rfl
      (reaches_exec (identity_of_flat h.paging) rfl ?_ .refl))
    simp [execute, c₁, afterCpuid, BootCpu.set, BootCpu.compare]
  have hflat₁ : Flat layout c₁ sp := h.registers
  have hkept₁ : Along layout sp c c₁ := (Along.refl layout sp c).registers
  by_cases hextended : (core.cpuid 0x80000000).eax < 0x80000001
  · rw [if_pos hextended] at hrun₁
    refine ⟨c₁, hflat₁, hkept₁, ?_⟩
    rwa [if_neg fun hboth ↦ absurd hboth.1 (by omega)]
  rw [if_neg hextended] at hrun₁
  let c₂ := (afterCpuid core 0x80000001 (c₁.set rax 0x80000001)).compare
    ((core.cpuid 0x80000001).edx &&& 1 <<< 29) 0
  have hzero : ((core.cpuid 0x80000001).edx &&& 1 <<< 29 == 0) = !(core.cpuid 0x80000001).edx.testBit 29 := by
    rw [← hasFlags_two_pow, hasFlags, Nat.one_shiftLeft, bne, Bool.not_not]
  have hrun₂ : Reaches (bootStep core layout) (c₁, 36)
      (c₂, if (core.cpuid 0x80000001).edx.testBit 29 = true then 40 else noLongMode) := by
    refine (reaches_ask hflat₁ rfl rfl).trans (reaches_exec (identity_of_flat h.paging) rfl rfl
      (reaches_exec (identity_of_flat h.paging) rfl ?_ .refl))
    change some (c₂, if (core.cpuid 0x80000001).edx &&& 1 <<< 29 == 0 then noLongMode else 40) = _
    rw [hzero]
    cases (core.cpuid 0x80000001).edx.testBit 29 <;> rfl
  refine ⟨c₂, h.registers, hkept₁.registers, hrun₁.trans ?_⟩
  rwa [if_congr (and_iff_right (Nat.le_of_not_lt hextended)) rfl rfl]

/-- `check_long_mode` returns if there is a long mode. -/
theorem reaches_checked {sp i : ℕ} (h : Flat layout c sp) (hsp : sp + 4 ≤ layout.stackTop)
    (hi : i ≤ kernelMainEntry) (hreturn : loadHalf c.mem sp = layout.address i) :
    ∃ c', Along layout sp c c' ∧ (core.LongMode → Flat layout c' (sp + 4)) ∧
      (¬ core.LongMode → Flat layout c' sp) ∧
      Reaches (bootStep core layout) (c, checkLongMode) (c', if core.LongMode then i else noLongMode) := by
  obtain ⟨c₁, hflat₁, hkept₁, hrun₁⟩ := @reaches_hasCpuid core layout c sp h
  by_cases hcpuid : core.hasCpuid = true
  · rw [if_pos hcpuid] at hrun₁
    obtain ⟨c₂, hflat₂, hkept₂, hrun₂⟩ := @reaches_extended core layout c₁ sp hflat₁
    have hkept := hkept₁.trans hkept₂
    by_cases hlong : core.LongMode
    · rw [if_pos ⟨hlong.extended, hlong.longMode⟩] at hrun₂
      have hstack := (hkept.stack sp h.inside.1 le_rfl).trans hreturn
      obtain ⟨hflat, hret⟩ := @reaches_ret core layout c₂ sp 40 i hflat₂ hsp hi hstack rfl
      refine ⟨{ c₂ with sp := sp + 4 }, hkept.registers, fun _ ↦ hflat, fun hnot ↦ absurd hlong hnot, ?_⟩
      rw [if_pos hlong]
      exact hrun₁.trans (hrun₂.trans hret)
    · have hnot : ¬ (0x80000001 ≤ (core.cpuid 0x80000000).eax ∧
          (core.cpuid 0x80000001).edx.testBit 29 = true) := fun hboth ↦ hlong ⟨hcpuid, hboth.1, hboth.2⟩
      rw [if_neg hnot] at hrun₂
      refine ⟨c₂, hkept, fun hyes ↦ absurd hyes hlong, fun _ ↦ hflat₂, ?_⟩
      rw [if_neg hlong]
      exact hrun₁.trans hrun₂
  · have hlong : ¬ core.LongMode := fun hyes ↦ hcpuid hyes.hasCpuid
    rw [if_neg hcpuid] at hrun₁
    refine ⟨c₁, hkept₁, fun hyes ↦ absurd hyes hlong, fun _ ↦ hflat₁, ?_⟩
    rwa [if_neg hlong]

end Check

/-! ### `setup_page_tables` -/

section Tables

variable {core : Core} {layout : BootLayout} {c : BootCpu}

theorem storeValue_eq (hidentity : c.Identity) {a : ℕ} (ha : a < 2 ^ 30) (haligned : 4 ∣ a) (value : ℕ) :
    c.storeValue a value = some { c with mem := storeHalf c.mem a value } := by
  rw [BootCpu.storeValue, access_eq hidentity ha haligned]
  rfl

theorem pdTable_add_lt (layout : BootLayout) {n : ℕ} (hn : n < 512) :
    layout.boot.pdTable + 8 * n < 2 ^ 30 := by
  have hbefore := layout.boot.before_end
  have hend := layout.boot.end_le
  unfold Boot.pdTable
  omega

/-- In front of a round of `.map_pd`, after `n` of them. -/
structure Filling (layout : BootLayout) (sp : ℕ) (entered : BootCpu) (mem : WordMemory) (n : ℕ)
    (c : BootCpu) : Prop where
  flat : Flat layout c sp
  control : SameControl entered c
  rcx : c.reg rcx = n
  mem : c.mem = mapPd mem layout.boot.pdTable n

theorem reaches_mapPdRound {sp n : ℕ} {entered : BootCpu} {mem : WordMemory}
    (h : Filling layout sp entered mem n c) (hn : n < 512) :
    ∃ c', Filling layout sp entered mem (n + 1) c' ∧ Reaches (bootStep core layout) (c, mapPdLoop)
      (c', if n + 1 = 512 then 58 else mapPdLoop) := by
  have hlt := pdTable_add_lt layout hn
  have haligned : 8 ∣ layout.boot.pdTable + 8 * n := by
    have hpml4 := layout.boot.aligned
    unfold Boot.pdTable
    omega
  let c₁ := (((c.set rax 0x200000).set rax (wrap32 (0x200000 * c.reg rcx))).set rdx
    (0x200000 * c.reg rcx / 2 ^ 32)).set rax (wrap32 (0x200000 * c.reg rcx) ||| 0b10000011)
  have hentry : c₁.reg rax = hugeEntry n := by
    have hsmall : wrap32 (0x200000 * n) = 0x200000 * n := by
      rw [wrap32]
      omega
    simp [c₁, BootCpu.set, h.rcx, hsmall, hugeEntry]
  have hrcx : c₁.reg rcx = n := by simp [c₁, BootCpu.set, h.rcx]
  have hflat : c₁.cr0.testBit 31 = false := h.flat.paging
  have hrun : Reaches (bootStep core layout) (c, mapPdLoop) (c₁, 54) := by
    refine reaches_exec h.flat.identity rfl rfl (reaches_exec (identity_of_flat hflat) rfl rfl
      (reaches_exec (identity_of_flat hflat) rfl ?_ .refl))
    simp [execute, c₁, BootCpu.set, mapPdLoop]
  have hmem₁ : c₁.mem = c.mem := rfl
  have hflat₁ : Flat layout c₁ sp := h.flat.registers
  have hcontrol₁ : SameControl entered c₁ := h.control.registers
  clear_value c₁
  let c₂ : BootCpu := { c₁ with mem := storeHalf c₁.mem (layout.boot.pdTable + 8 * n) (hugeEntry n) }
  let c₃ := (c₂.set rcx (n + 1)).compare (n + 1) 512
  have hindex : wrap32 (layout.boot.pdTable + n * 8) = layout.boot.pdTable + 8 * n := by
    rw [wrap32]
    omega
  have hnext : c₂.trim (n + 1) = n + 1 := by
    rw [BootCpu.trim, show c₂.code64 = false from hflat₁.mode, if_neg Bool.false_ne_true, wrap32]
    omega
  refine ⟨c₃, ⟨hflat₁.registers, hcontrol₁.registers, ?_, ?_⟩, hrun.trans ?_⟩
  · simp [c₃, BootCpu.compare, BootCpu.set]
  · change storeHalf c₁.mem _ _ = _
    rw [hmem₁, h.mem, storeHalf_of_aligned _ haligned, Vmm.X86.mapPd_succ]
    rfl
  · have hjump : Reaches (bootStep core layout) (c₃, 57) (c₃, if n + 1 = 512 then 58 else mapPdLoop) := by
      refine reaches_exec (identity_of_flat hflat) rfl ?_ .refl
      change some (c₃, if n + 1 == 512 then 58 else mapPdLoop) = _
      simp only [beq_iff_eq]
    have hcmp : Reaches (bootStep core layout) (c₂.set rcx (n + 1), 56)
        (c₃, if n + 1 = 512 then 58 else mapPdLoop) :=
      reaches_exec (identity_of_flat hflat) rfl (by simp [execute, c₃, BootCpu.set]) hjump
    have hinc : Reaches (bootStep core layout) (c₂, 55) (c₃, if n + 1 = 512 then 58 else mapPdLoop) := by
      refine reaches_exec (identity_of_flat hflat) rfl ?_ hcmp
      rw [execute, show c₂.reg rcx = n from hrcx, hnext]
    refine reaches_exec hflat₁.identity rfl ?_ hinc
    rw [execute, hrcx, hentry, hindex, storeValue_eq hflat₁.identity hlt (by omega)]
    rfl

/-- Stores of the code outside of a word. -/
theorem storeLow_congr {mem mem' : WordMemory} {a b : ℕ} (value : ℕ) (h : mem b = mem' b) :
    storeLow mem a value b = storeLow mem' a value b := by
  rw [storeLow, storeLow, WordMemory.store_apply, WordMemory.store_apply]
  split_ifs with hsame
  · rw [← hsame, h]
  · exact h

theorem mapPd_congr {mem mem' : WordMemory} {table n a : ℕ} (h : mem a = mem' a) :
    mapPd mem table n a = mapPd mem' table n a := by
  induction n with
  | zero => exact h
  | succ n ih =>
    rw [Vmm.X86.mapPd_succ, Vmm.X86.mapPd_succ]
    exact storeLow_congr _ ih

/-- What a word of the tables is depends on that word only. -/
theorem setupPageTables_congr {mem mem' : WordMemory} {pml4Table pdpTable pdTable a : ℕ}
    (h : mem a = mem' a) :
    setupPageTables mem pml4Table pdpTable pdTable a = setupPageTables mem' pml4Table pdpTable pdTable a :=
  mapPd_congr (storeLow_congr _ (storeLow_congr _ h))

/-- The tables alone are written. -/
theorem setupPageTables_outside (boot : Boot) (mem : WordMemory) {a : ℕ}
    (ha : a < boot.pml4Table ∨ boot.pml4Table + 3 * 4096 ≤ a) :
    setupPageTables mem boot.pml4Table boot.pdpTable boot.pdTable a = mem a := by
  rw [setupPageTables, Vmm.X86.mapPd_of_ne, Vmm.X86.storeLow_of_ne, Vmm.X86.storeLow_of_ne]
  · unfold slot
    omega
  · unfold slot Boot.pdpTable
    omega
  · intro i hi
    unfold slot Boot.pdTable
    omega

theorem loadHalf_congr {mem mem' : WordMemory} {a : ℕ} (h : mem' (a / 8 * 8) = mem (a / 8 * 8)) :
    loadHalf mem' a = loadHalf mem a := by
  unfold loadHalf
  split_ifs with hlow
  · have hsame : a / 8 * 8 = a := by omega
    rw [hsame] at h
    rw [h]
  · rw [h]

/-- The link to a table -/
theorem reaches_link {sp i table child : ℕ} (h : Flat layout c sp) (htable : table < 2 ^ 30)
    (haligned : 8 ∣ table) (hmov : (bootCode layout)[i]? = some (.movImm rax child))
    (hor : (bootCode layout)[i + 1]? = some (.orImm rax 0b11))
    (hstore : (bootCode layout)[i + 2]? = some (.store table rax)) :
    ∃ c', Flat layout c' sp ∧ SameControl c c' ∧ c'.mem = storeLow c.mem table (child ||| 0b11) ∧
      Reaches (bootStep core layout) (c, i) (c', i + 3) := by
  let c₁ := (c.set rax child).set rax (child ||| 0b11)
  have hflat : c₁.cr0.testBit 31 = false := h.paging
  have hstored : c₁.storeValue table (c₁.reg rax) =
      some { c₁ with mem := storeLow c.mem table (child ||| 0b11) } := by
    rw [storeValue_eq (identity_of_flat hflat) htable (by omega), storeHalf_of_aligned _ haligned]
    simp [c₁, BootCpu.set]
  refine ⟨{ c₁ with mem := storeLow c.mem table (child ||| 0b11) }, h.registers,
    ⟨rfl, rfl, rfl, rfl⟩, rfl, ?_⟩
  refine reaches_exec h.identity hmov rfl (reaches_exec (identity_of_flat h.paging) hor ?_
    (reaches_exec (identity_of_flat hflat) hstore (congrArg (Option.map _) hstored) .refl))
  simp [execute, c₁, BootCpu.set]

/-- All rounds of `.map_pd`, up to the `ret` behind them. -/
theorem reaches_mapPd {sp : ℕ} {entered : BootCpu} {mem : WordMemory}
    (h : Filling layout sp entered mem 0 c) :
    ∃ c', Filling layout sp entered mem 512 c' ∧ Reaches (bootStep core layout) (c, mapPdLoop) (c', 58) := by
  let invariant (k : ℕ) (s : BootCpu × ℕ) : Prop :=
    s.2 = mapPdLoop ∧ ∃ n, n + k = 511 ∧ Filling layout sp entered mem n s.1
  have hround (k : ℕ) (s : BootCpu × ℕ) (hs : invariant (k + 1) s) :
      ∃ s', Reaches (bootStep core layout) s s' ∧ invariant k s' := by
    obtain ⟨c, _⟩ := s
    obtain ⟨rfl, n, hn, hfilling⟩ := hs
    obtain ⟨c', hfilling', hrun⟩ := @reaches_mapPdRound core layout c sp n entered mem hfilling (by omega)
    rw [if_neg (by omega)] at hrun
    exact ⟨(c', mapPdLoop), hrun, rfl, n + 1, by omega, hfilling'⟩
  have hfirst : invariant 511 (c, mapPdLoop) := ⟨rfl, 0, rfl, h⟩
  obtain ⟨⟨c₁, _⟩, hrun, rfl, n, hn, hfilling⟩ := reaches_rounds hround hfirst
  obtain ⟨c', hfilled, hlast⟩ := @reaches_mapPdRound core layout c₁ sp n entered mem hfilling (by omega)
  obtain rfl : n = 511 := hn
  exact ⟨c', hfilled, hrun.trans hlast⟩

/-- `setup_page_tables` is what its model says, and returns. -/
theorem reaches_setupTables {sp i : ℕ} (h : Flat layout c sp) (hsp : sp + 4 ≤ layout.stackTop)
    (hi : i ≤ kernelMainEntry) (hreturn : loadHalf c.mem sp = layout.address i) :
    ∃ c', Flat layout c' (sp + 4) ∧ SameControl c c' ∧
      c'.mem = setupPageTables c.mem layout.boot.pml4Table layout.boot.pdpTable layout.boot.pdTable ∧
        Reaches (bootStep core layout) (c, setupTables) (c', i) := by
  have hpml4 := layout.boot.aligned
  have htables : layout.boot.pml4Table + 2 * 4096 < 2 ^ 30 := by
    have hlt := pdTable_add_lt layout (by omega : 0 < 512)
    unfold Boot.pdTable at hlt
    omega
  obtain ⟨c₁, hflat₁, hcontrol₁, hmem₁, hrun₁⟩ :=
    @reaches_link core layout c sp setupTables layout.boot.pml4Table layout.boot.pdpTable h (by omega)
      (by omega) rfl rfl rfl
  obtain ⟨c₂, hflat₂, hcontrol₂, hmem₂, hrun₂⟩ :=
    @reaches_link core layout c₁ sp 47 layout.boot.pdpTable layout.boot.pdTable hflat₁
      (by unfold Boot.pdpTable; omega) (by unfold Boot.pdpTable; omega) rfl rfl rfl
  have hcount : Reaches (bootStep core layout) (c₂, 50) (c₂.set rcx 0, mapPdLoop) :=
    reaches_exec hflat₂.identity rfl rfl .refl
  have hfilling : Filling layout sp c c₂.mem 0 (c₂.set rcx 0) :=
    ⟨hflat₂.registers, (hcontrol₁.trans hcontrol₂).registers, by simp [BootCpu.set], rfl⟩
  obtain ⟨c₃, hfilled, hrun₃⟩ := @reaches_mapPd core layout (c₂.set rcx 0) sp c c₂.mem hfilling
  have hmem : c₃.mem =
      setupPageTables c.mem layout.boot.pml4Table layout.boot.pdpTable layout.boot.pdTable := by
    rw [hfilled.mem, hmem₂, hmem₁]
    rfl
  have hlow := h.inside.2.1
  have hkept : loadHalf c₃.mem sp = layout.address i := by
    rw [← hreturn, hmem]
    refine loadHalf_congr (setupPageTables_outside layout.boot c.mem (Or.inr ?_))
    unfold BootLayout.stackTop at hlow
    omega
  obtain ⟨hflat, hret⟩ := @reaches_ret core layout c₃ sp 58 i hfilled.flat hsp hi hkept rfl
  exact ⟨{ c₃ with sp := sp + 4 }, hflat, hfilled.control.registers, hmem,
    hrun₁.trans (hrun₂.trans (hcount.trans (hrun₃.trans hret)))⟩

end Tables

/-! ### In protected mode -/

section Protected

variable {core : Core} {layout : BootLayout} {reset c : BootCpu}

/-- What the boot loader leaves: 32-bit code without paging, no fifth level of page tables asked for, and
the image in memory. -/
structure Handoff (layout : BootLayout) (reset : BootCpu) : Prop where
  paging : reset.cr0.testBit 31 = false
  mode : reset.code64 = false
  levels : reset.cr4.testBit 12 = false
  mem : reset.mem = layout.boot.mem

/-- After `check_long_mode`, or where it gives up. -/
structure Checked (layout : BootLayout) (reset c : BootCpu) : Prop where
  cr0 : c.cr0 = reset.cr0
  cr4 : c.cr4 = reset.cr4
  efer : c.efer = reset.efer
  interrupts : c.eflags.testBit 9 = false
  bootMagic : loadHalf c.mem (layout.stackTop - 8) = wrap32 (reset.reg rax)
  bootInfo : loadHalf c.mem (layout.stackTop - 4) = wrap32 (reset.reg rbx)
  mem : ∀ a, a + 16384 < layout.stackTop ∨ layout.stackTop ≤ a → c.mem a = reset.mem a

theorem reaches_started (h : Handoff layout reset) :
    ∃ c, Checked layout reset c ∧ (core.LongMode → Flat layout c (layout.stackTop - 8)) ∧
      (¬ core.LongMode → Flat layout c (layout.stackTop - 12)) ∧
        Reaches (bootStep core layout) (reset, 0) (c, if core.LongMode then 5 else noLongMode) := by
  have haligned := layout.stackTop_aligned
  have hlarge : 16384 ≤ layout.stackTop := by
    unfold BootLayout.stackTop
    omega
  let c₁ : BootCpu :=
    { reset with eflags := reset.eflags ^^^ (reset.eflags &&& 2 ^ 9), sp := layout.stackTop }
  have hflat₁ : Flat layout c₁ layout.stackTop := ⟨h.paging, h.mode, rfl, by omega, by omega, le_rfl⟩
  have hrun₁ : Reaches (bootStep core layout) (reset, 0) (c₁, 2) :=
    reaches_exec (identity_of_flat h.paging) rfl rfl (reaches_exec (identity_of_flat h.paging) rfl rfl .refl)
  have hoff : c₁.eflags.testBit 9 = false := by
    have hbit : (2 ^ 9 : ℕ).testBit 9 = true := Nat.testBit_two_pow_self
    change (reset.eflags ^^^ (reset.eflags &&& 2 ^ 9)).testBit 9 = false
    rw [Nat.testBit_xor, Nat.testBit_and, hbit, Bool.and_true, Bool.xor_self]
  obtain ⟨hflat₂, hrun₂⟩ :=
    @reaches_pushed core layout c₁ layout.stackTop 2 3 (reset.reg rbx) _ hflat₁ (by omega) rfl rfl
  obtain ⟨hflat₃, hrun₃⟩ :=
    @reaches_pushed core layout _ (layout.stackTop - 4) 3 4 (reset.reg rax) _ hflat₂ (by omega) rfl rfl
  obtain ⟨hflat₄, hrun₄⟩ :=
    @reaches_pushed core layout _ (layout.stackTop - 4 - 4) 4 checkLongMode (layout.address (4 + 1)) _ hflat₃
      (by omega) rfl rfl
  have hreturn := layout.before_tables (4 + 1) (by decide)
  have htables := layout.tables_lt
  obtain ⟨c, hkept, hlong, hnot, hrun⟩ :=
    @reaches_checked core layout _ (layout.stackTop - 4 - 4 - 4) 5 hflat₄ (by omega) (by decide)
      (by rw [loadHalf_storeHalf_same, Nat.mod_eq_of_lt (by omega)])
  have hmagic : loadHalf c.mem (layout.stackTop - 8) = wrap32 (reset.reg rax) := by
    rw [hkept.stack _ (by omega) (by omega), loadHalf_storeHalf_of_ne _ _ (by omega) (by omega) (by omega)]
    exact loadHalf_storeHalf_same _ _ _
  have hinfo : loadHalf c.mem (layout.stackTop - 4) = wrap32 (reset.reg rbx) := by
    rw [hkept.stack _ (by omega) (by omega), loadHalf_storeHalf_of_ne _ _ (by omega) (by omega) (by omega),
      loadHalf_storeHalf_of_ne _ _ (by omega) (by omega) (by omega)]
    exact loadHalf_storeHalf_same _ _ _
  have hmem (a : ℕ) (ha : a + 16384 < layout.stackTop ∨ layout.stackTop ≤ a) : c.mem a = reset.mem a := by
    rw [hkept.mem a ha]
    change storeHalf (storeHalf (storeHalf reset.mem (layout.stackTop - 4) _) (layout.stackTop - 4 - 4) _)
      (layout.stackTop - 4 - 4 - 4) _ a = _
    rw [storeHalf_of_ne _ _ (by omega), storeHalf_of_ne _ _ (by omega), storeHalf_of_ne _ _ (by omega)]
  have hback : layout.stackTop - 4 - 4 - 4 + 4 = layout.stackTop - 8 := by omega
  have hthree : layout.stackTop - 4 - 4 - 4 = layout.stackTop - 12 := by omega
  rw [hback] at hlong
  rw [hthree] at hnot
  exact ⟨c, ⟨hkept.control.cr0, hkept.control.cr4, hkept.control.efer, hkept.control.interrupts.trans hoff,
    hmagic, hinfo, hmem⟩, hlong, hnot, hrun₁.trans (hrun₂.trans (hrun₃.trans (hrun₄.trans hrun)))⟩

/-- After `setup_page_tables`. -/
structure Prepared (layout : BootLayout) (reset c : BootCpu) : Prop where
  flat : Flat layout c (layout.stackTop - 8)
  cr4 : c.cr4 = reset.cr4
  interrupts : c.eflags.testBit 9 = false
  bootMagic : loadHalf c.mem (layout.stackTop - 8) = wrap32 (reset.reg rax)
  bootInfo : loadHalf c.mem (layout.stackTop - 4) = wrap32 (reset.reg rbx)
  tables : ∀ a, layout.boot.pml4Table ≤ a → a < layout.boot.pml4Table + 3 * 4096 →
    c.mem a = layout.boot.memory a
  mem : ∀ a, a < layout.boot.pml4Table ∨ layout.stackTop ≤ a → c.mem a = reset.mem a

theorem reaches_prepared (hreset : Handoff layout reset) (h : Checked layout reset c)
    (hflat : Flat layout c (layout.stackTop - 8)) :
    ∃ c', Prepared layout reset c' ∧ Reaches (bootStep core layout) (c, 5) (c', 6) := by
  have haligned := layout.stackTop_aligned
  have htop : layout.stackTop = layout.boot.pml4Table + 3 * 4096 + 16384 := rfl
  obtain ⟨hflat₁, hrun₁⟩ :=
    @reaches_pushed core layout c (layout.stackTop - 8) 5 setupTables (layout.address (5 + 1)) _ hflat
      (by omega) rfl rfl
  have hreturn := layout.before_tables (5 + 1) (by decide)
  have htables := layout.tables_lt
  obtain ⟨c', hflat', hcontrol, hmem, hrun⟩ :=
    @reaches_setupTables core layout _ (layout.stackTop - 8 - 4) 6 hflat₁ (by omega) (by decide)
      (by rw [loadHalf_storeHalf_same, Nat.mod_eq_of_lt (by omega)])
  have hback : layout.stackTop - 8 - 4 + 4 = layout.stackTop - 8 := by omega
  rw [hback] at hflat'
  have hcalled (a : ℕ) (ha : a ≠ layout.stackTop - 16) :
      storeHalf c.mem (layout.stackTop - 8 - 4) (layout.address (5 + 1)) a = c.mem a :=
    storeHalf_of_ne _ _ (by omega)
  have hword : c'.mem (layout.stackTop - 8) = c.mem (layout.stackTop - 8) := by
    rw [hmem, setupPageTables_outside layout.boot _ (by omega)]
    exact hcalled _ (by omega)
  refine ⟨c', ⟨hflat', hcontrol.cr4.trans h.cr4, hcontrol.interrupts.trans h.interrupts, ?_, ?_,
    fun a hfirst hlast ↦ ?_, fun a ha ↦ ?_⟩, hrun₁.trans hrun⟩
  · rw [← h.bootMagic]
    refine loadHalf_congr ?_
    rwa [show (layout.stackTop - 8) / 8 * 8 = layout.stackTop - 8 by omega]
  · rw [← h.bootInfo]
    refine loadHalf_congr ?_
    rwa [show (layout.stackTop - 4) / 8 * 8 = layout.stackTop - 8 by omega]
  · rw [hmem]
    refine setupPageTables_congr ?_
    refine (hcalled a (by omega)).trans ?_
    rw [h.mem a (by omega), hreset.mem]
  · rw [hmem, setupPageTables_outside layout.boot _ (by omega)]
    exact (hcalled a (by omega)).trans (h.mem a (by omega))

end Protected

/-! ### The switch -/

section Switch

variable {core : Core} {layout : BootLayout} {reset c : BootCpu}

/-- The processor walks the boot tables. -/
theorem hardwareWalk_tables (boot : Boot) {mem : WordMemory}
    (h : ∀ a, boot.pml4Table ≤ a → a < boot.pml4Table + 3 * 4096 → mem a = boot.memory a) (virt : ℕ) :
    hardwareWalk mem boot.pml4Table virt = hardwareWalk boot.memory boot.pml4Table virt := by
  have hwalk : Vmm.X86.paging.walkTo mem boot.pml4Table (virt / 4096) =
      Vmm.X86.paging.walkTo boot.memory boot.pml4Table (virt / 4096) := by
    refine walk_congr 3 boot.pml4Table (fun t ht i hi ↦ ?_) _ (isPath_indexPath 3 _)
    have hmem := (boot.tables_memory_perm 1).mem_iff.mp ht
    simp only [List.mem_cons, List.not_mem_nil, or_false, Boot.pdTable, Boot.pdpTable] at hmem
    rw [fanout_eq] at hi
    refine h _ ?_ ?_ <;> unfold slot <;> omega
  rw [hardwareWalk, hardwareWalk, hwalk]

/-- With the boot tables, the first gigabyte is where it is. -/
theorem identity_of_tables (hpaging : c.cr0.testBit 31 = true) (hcr3 : c.cr3 = layout.boot.pml4Table)
    (htables : ∀ a, layout.boot.pml4Table ≤ a → a < layout.boot.pml4Table + 3 * 4096 →
      c.mem a = layout.boot.memory a) : c.Identity := by
  intro a ha
  have hmapped := layout.boot.identityTree.hardwareWalk_mapped (by omega : a < 2 ^ 48)
    (show a / 0x200000 < 512 by omega)
  rw [layout.boot.mem_spaces] at hmapped
  rw [BootCpu.physical, if_pos hpaging, hcr3, layout.boot.pml4_and_addrMask,
    hardwareWalk_tables layout.boot htables, hmapped]
  rfl

/-- 64-bit code with the boot tables. -/
structure Long (layout : BootLayout) (c : BootCpu) : Prop where
  paging : c.cr0.testBit 31 = true
  mode : c.code64 = true
  active : c.efer.testBit 10 = true
  cs : c.cs = 8
  cr3 : c.cr3 = layout.boot.pml4Table
  interrupts : c.eflags.testBit 9 = false
  tables : ∀ a, layout.boot.pml4Table ≤ a → a < layout.boot.pml4Table + 3 * 4096 →
    c.mem a = layout.boot.memory a

theorem Long.identity (h : Long layout c) : c.Identity := identity_of_tables h.paging h.cr3 h.tables

/-- Registers and segments of data do not matter for it. -/
theorem Long.registers {sp : ℕ} {reg : Reg → ℕ} {zero below greaterEq : Bool} {segment : SegmentReg → ℕ}
    (h : Long layout c) :
    Long layout { c with
      reg := reg, sp := sp, zero := zero, below := below, greaterEq := greaterEq, segment := segment } :=
  ⟨h.paging, h.mode, h.active, h.cs, h.cr3, h.interrupts, h.tables⟩

/-- Nor does memory behind the tables. -/
theorem Long.memory {mem : WordMemory} (h : Long layout c)
    (hmem : ∀ a < layout.boot.pml4Table + 3 * 4096, mem a = c.mem a) : Long layout { c with mem := mem } :=
  ⟨h.paging, h.mode, h.active, h.cs, h.cr3, h.interrupts,
    fun a hfirst hlast ↦ (hmem a hlast).trans (h.tables a hfirst hlast)⟩

/-- Bits of a control register are set. -/
theorem reaches_setBits {i value : ℕ} {cr : ControlReg} {c' : BootCpu} (hidentity : c.Identity)
    (hread : (bootCode layout)[i]? = some (.readCr rax cr))
    (hor : (bootCode layout)[i + 1]? = some (.orImm rax value))
    (hwrite : (bootCode layout)[i + 2]? = some (.writeCr cr rax))
    (hcontrol : writeControl ((c.set rax (readControl c cr)).set rax (readControl c cr ||| value))
      (readControl c cr ||| value) cr = some c') :
    Reaches (bootStep core layout) (c, i) (c', i + 3) := by
  have hlast : Reaches (bootStep core layout)
      ((c.set rax (readControl c cr)).set rax (readControl c cr ||| value), i + 2) (c', i + 3) := by
    refine reaches_exec hidentity hwrite ?_ .refl
    have hvalue : ((c.set rax (readControl c cr)).set rax (readControl c cr ||| value)).reg rax =
        readControl c cr ||| value := by simp [BootCpu.set]
    rw [execute, hvalue, hcontrol]
    rfl
  refine reaches_exec hidentity hread rfl (reaches_exec hidentity hor ?_ hlast)
  simp [execute, BootCpu.set]

/-- The bits of the switch. -/
theorem testBit_or_shift (value i : ℕ) : (value ||| 1 <<< i).testBit i = true := by
  rw [Nat.testBit_or, Nat.one_shiftLeft, Nat.testBit_two_pow_self, Bool.or_true]

/-- EFER with the long mode enabled. -/
def longModeEfer (efer : ℕ) : ℕ := (wrap32 efer ||| 1 <<< 8) + 2 ^ 32 * (efer / 2 ^ 32)

theorem testBit_longModeEfer (efer : ℕ) : (longModeEfer efer).testBit 8 = true := by
  have hlt : wrap32 efer ||| 1 <<< 8 < 2 ^ 32 :=
    Nat.or_lt_two_pow (Nat.mod_lt _ (by norm_num)) (by decide)
  rw [longModeEfer, Nat.add_comm, Nat.testBit_two_pow_mul_add _ hlt, if_pos (by omega)]
  exact testBit_or_shift _ 8

/-- The descriptors that the boot loader has loaded. -/
theorem descriptorHigh_eq (hidentity : c.Identity) (hbase : c.gdtBase = layout.gdt64)
    (hlimit : c.gdtLimit = 23) (hmem : ∀ a < layout.boot.pml4Table, c.mem a = layout.boot.mem a)
    {selector : ℕ} (hselector : selector / 8 * 8 + 7 ≤ 23) :
    c.descriptorHigh selector = some (loadHalf layout.boot.mem (layout.gdt64 + selector / 8 * 8 + 4)) := by
  have haligned := layout.gdt_aligned
  have hbefore := layout.gdt_before
  have htables := layout.tables_lt
  rw [BootCpu.descriptorHigh, hlimit, if_pos hselector, hbase, access_eq hidentity (by omega) (by omega)]
  exact congrArg some (loadHalf_congr (hmem _ (by omega)))

/-- From `setup_page_tables` to 64-bit code. -/
theorem reaches_long (hreset : Handoff layout reset) (h : Prepared layout reset c) :
    ∃ c', Long layout c' ∧ c'.gdtBase = layout.gdt64 ∧ c'.gdtLimit = 23 ∧ c'.sp = layout.stackTop - 8 ∧
      c'.mem = c.mem ∧ Reaches (bootStep core layout) (c, 6) (c', longModeEntry) := by
  have hflat := h.flat.paging
  let c₁ : BootCpu := { (c.set rax c.cr4).set rax (c.cr4 ||| 1 <<< 5) with cr4 := c.cr4 ||| 1 <<< 5 }
  have hrun₁ : Reaches (bootStep core layout) (c, 6) (c₁, 9) :=
    reaches_setBits h.flat.identity rfl rfl rfl rfl
  let c₂ : BootCpu := { c₁.set rax layout.boot.pml4Table with cr3 := layout.boot.pml4Table }
  have hrun₂ : Reaches (bootStep core layout) (c₁, 9) (c₂, 11) := by
    refine reaches_exec (identity_of_flat hflat) rfl rfl (reaches_exec (identity_of_flat hflat) rfl ?_ .refl)
    simp [execute, writeControl, c₂, BootCpu.set]
  let c₃ : BootCpu :=
    { (((c₂.set rcx eferMsr).set rax (wrap32 c.efer)).set rdx (c.efer / 2 ^ 32)).set rax
        (wrap32 c.efer ||| 1 <<< 8) with efer := longModeEfer c.efer }
  have hrun₃ : Reaches (bootStep core layout) (c₂, 11) (c₃, 15) := by
    let read := ((c₂.set rcx eferMsr).set rax (wrap32 c.efer)).set rdx (c.efer / 2 ^ 32)
    have hwrite : Reaches (bootStep core layout) (read.set rax (wrap32 c.efer ||| 1 <<< 8), 14) (c₃, 15) := by
      refine reaches_exec (identity_of_flat hflat) rfl ?_ .refl
      simp [execute, read, c₃, BootCpu.set, longModeEfer]
    have hor : Reaches (bootStep core layout) (read, 13) (c₃, 15) := by
      refine reaches_exec (identity_of_flat hflat) rfl ?_ hwrite
      simp [execute, read, BootCpu.set]
    refine reaches_exec (identity_of_flat hflat) rfl rfl (reaches_exec (identity_of_flat hflat) rfl ?_ hor)
    simp [execute, read, BootCpu.set, c₂, c₁]
  let value := c.cr0 ||| ((1 <<< 31) ||| (1 <<< 0))
  let c₄ : BootCpu :=
    { (c₃.set rax c.cr0).set rax value with cr0 := value, efer := longModeEfer c.efer ||| 2 ^ 10 }
  have hpaging : value.testBit 31 = true := by
    rw [Nat.testBit_or, show ((1 <<< 31) ||| (1 <<< 0)).testBit 31 = true by decide, Bool.or_true]
  have hprotected : value.testBit 0 = true := by
    rw [Nat.testBit_or, show ((1 <<< 31) ||| (1 <<< 0)).testBit 0 = true by decide, Bool.or_true]
  have hlevels : (c.cr4 ||| 1 <<< 5).testBit 12 = false := by
    rw [Nat.testBit_or, h.cr4, hreset.levels]
    decide
  have hcontrol : writeControl ((c₃.set rax (readControl c₃ .cr0)).set rax value) value .cr0 = some c₄ := by
    change (if value.testBit 31 then
      if value.testBit 0 && (longModeEfer c.efer).testBit 8 && (c.cr4 ||| 1 <<< 5).testBit 5 &&
        !(c.cr4 ||| 1 <<< 5).testBit 12 then some c₄ else none else _) = _
    rw [hpaging, hprotected, testBit_longModeEfer, testBit_or_shift, hlevels]
    rfl
  have hrun₄ : Reaches (bootStep core layout) (c₃, 15) (c₄, 18) :=
    reaches_setBits (identity_of_flat hflat) rfl rfl rfl hcontrol
  have hidentity : c₄.Identity := identity_of_tables hpaging rfl h.tables
  let c₅ : BootCpu := { c₄ with gdtLimit := 23, gdtBase := layout.gdt64 }
  let c₆ : BootCpu := { c₅ with cs := 8, code64 := true }
  have hmem (a : ℕ) (ha : a < layout.boot.pml4Table) : c₅.mem a = layout.boot.mem a := by
    rw [← hreset.mem]
    exact h.mem a (Or.inl ha)
  have hdescriptor : c₅.descriptorHigh 8 = some codeSegmentHigh := by
    rw [@descriptorHigh_eq layout c₅ hidentity rfl rfl hmem 8 (by decide)]
    exact congrArg some layout.gdt_code
  have hactive : (longModeEfer c.efer ||| 2 ^ 10).testBit 10 = true := by
    rw [Nat.testBit_or, Nat.testBit_two_pow_self, Bool.or_true]
  have hjump : Reaches (bootStep core layout) (c₅, 19) (c₆, longModeEntry) := by
    refine reaches_exec hidentity rfl ?_ .refl
    rw [execute, hdescriptor]
    change some ((⟨_, _, _, _, _, _, _, _, _, _, _, _, _, _,
      codeSegmentHigh.testBit 21 && (longModeEfer c.efer ||| 2 ^ 10).testBit 10, _⟩ : BootCpu), _) = _
    rw [hactive]
    rfl
  have hlast : Reaches (bootStep core layout) (c₄, 18) (c₆, longModeEntry) :=
    reaches_exec hidentity rfl rfl hjump
  exact ⟨c₆, ⟨hpaging, rfl, hactive, rfl, rfl, h.interrupts, h.tables⟩, rfl, rfl, h.flat.sp_eq, rfl,
    hrun₁.trans (hrun₂.trans (hrun₃.trans (hrun₄.trans hlast)))⟩

end Switch

/-! ### In 64-bit mode -/

section LongModeCode

variable {core : Core} {layout : BootLayout} {reset c : BootCpu}

/-- A segment register. -/
theorem reaches_segment {i : ℕ} {r : SegmentReg} (h : Long layout c)
    (hdescriptor : c.descriptorHigh 16 = some dataSegmentHigh) (hax : c.reg rax % 2 ^ 16 = 16)
    (hmov : (bootCode layout)[i]? = some (.movSegment r)) :
    Reaches (bootStep core layout) (c, i)
      ({ c with segment := Function.update c.segment r 16 }, i + 1) := by
  refine reaches_exec h.identity hmov ?_ .refl
  rw [execute, hax, hdescriptor]
  rfl

theorem reaches_segments (h : Long layout c) (hdescriptor : c.descriptorHigh 16 = some dataSegmentHigh) :
    ∃ c', Long layout c' ∧ (∀ r, c'.segment r = 16) ∧ c'.sp = c.sp ∧ c'.mem = c.mem ∧
      Reaches (bootStep core layout) (c, longModeEntry) (c', 65) := by
  let c₁ := c.set rax (c.reg rax / 2 ^ 16 * 2 ^ 16 + 16)
  have hax : c₁.reg rax % 2 ^ 16 = 16 := by
    have hreg : c₁.reg rax = c.reg rax / 2 ^ 16 * 2 ^ 16 + 16 := by simp [c₁, BootCpu.set]
    omega
  have h₁ : Long layout c₁ := h.registers
  have hrun₁ : Reaches (bootStep core layout) (c, longModeEntry) (c₁, 60) :=
    reaches_exec h.identity rfl rfl .refl
  let loaded (c : BootCpu) (r : SegmentReg) : BootCpu := { c with segment := Function.update c.segment r 16 }
  have hload {c' : BootCpu} (r : SegmentReg) (h : Long layout c') : Long layout (loaded c' r) := h.registers
  have h₂ := hload .ss h₁
  have h₃ := hload .ds h₂
  have h₄ := hload .es h₃
  have h₅ := hload .fs h₄
  refine ⟨_, hload .gs h₅, fun r ↦ ?_, rfl, rfl,
    hrun₁.trans ((reaches_segment h₁ hdescriptor hax rfl).trans
      ((reaches_segment h₂ hdescriptor hax rfl).trans ((reaches_segment h₃ hdescriptor hax rfl).trans
        ((reaches_segment h₄ hdescriptor hax rfl).trans (reaches_segment h₅ hdescriptor hax rfl)))))⟩
  cases r <;> rfl

/-- A push of 64-bit code. -/
theorem pushValue_long (h : Long layout c) {sp : ℕ} (hsp : c.sp = sp) (haligned : 8 ∣ sp) (hlow : 8 ≤ sp)
    (hhigh : sp ≤ 2 ^ 30) (value : ℕ) :
    c.pushValue value = some { c with sp := sp - 8, mem := c.mem.store (sp - 8) value } := by
  have hwrap : wrapSub sp 8 = sp - 8 := by
    rw [wrapSub]
    omega
  rw [BootCpu.pushValue, if_pos h.mode, hsp, hwrap, access_eq h.identity (by omega) (by omega)]
  rfl

theorem popValue_long (h : Long layout c) {sp : ℕ} (hsp : c.sp = sp) (haligned : 8 ∣ sp)
    (hhigh : sp < 2 ^ 30) : c.popValue = some (c.mem sp, { c with sp := sp + 8 }) := by
  have hwrap : wrap (sp + 8) = sp + 8 := by
    rw [wrap]
    omega
  rw [BootCpu.popValue, if_pos h.mode, hsp, access_eq h.identity hhigh haligned, hwrap]
  rfl

/-- The two arguments are on the stack again, as 64-bit words. -/
def argumentsSaved (layout : BootLayout) (mem : WordMemory) (magic info : ℕ) : WordMemory :=
  (mem.store (layout.stackTop - 8) magic).store (layout.stackTop - 16) info

/-- In front of a round of `.zero_bss`, after `k` of them. -/
structure Zeroing (layout : BootLayout) (mem : WordMemory) (k : ℕ) (c : BootCpu) : Prop where
  long : Long layout c
  segment : ∀ r, c.segment r = 16
  sp : c.sp = layout.stackTop - 16
  rax : c.reg rax = layout.bssStart + k
  mem : c.mem = mem.zeroBytes layout.bssStart k

theorem reaches_arguments {magic info : ℕ} (h : Long layout c) (hsegment : ∀ r, c.segment r = 16)
    (hsp : c.sp = layout.stackTop - 8) (hmagic : loadHalf c.mem (layout.stackTop - 8) = magic)
    (hinfo : loadHalf c.mem (layout.stackTop - 4) = info) :
    ∃ c', Zeroing layout (argumentsSaved layout c.mem magic info) 0 c' ∧
      Reaches (bootStep core layout) (c, 65) (c', zeroBss) := by
  have haligned := layout.stackTop_aligned
  have htop_le := layout.stackTop_le
  have htop : layout.stackTop = layout.boot.pml4Table + 3 * 4096 + 16384 := rfl
  have hwrap {a : ℕ} (ha : a ≤ 2 ^ 30) : wrap a = a := wrap_of_lt (by omega)
  let c₁ := (c.set rdi magic).set rsi info
  let c₂ : BootCpu := { c₁ with sp := layout.stackTop }
  have hload : Reaches (bootStep core layout) (c, 65) (c₂, 68) := by
    have hadd : Reaches (bootStep core layout) (c₁, 67) (c₂, 68) := by
      refine reaches_exec h.identity rfl ?_ .refl
      rw [execute, show c₁.sp = layout.stackTop - 8 from hsp,
        show layout.stackTop - 8 + 8 = layout.stackTop by omega, hwrap htop_le]
    have hsecond : Reaches (bootStep core layout) (c.set rdi magic, 66) (c₂, 68) := by
      refine reaches_exec h.identity rfl ?_ hadd
      rw [execute, show (c.set rdi magic).sp = layout.stackTop - 8 from hsp, hwrap (by omega),
        show layout.stackTop - 8 + 4 = layout.stackTop - 4 by omega,
        @access_eq (c.set rdi magic) h.identity 4 _ (by omega) (by omega)]
      change some ((c.set rdi magic).set rsi (loadHalf c.mem (layout.stackTop - 4)), 67) = _
      rw [hinfo]
    refine reaches_exec h.identity rfl ?_ hsecond
    rw [execute, hsp, hwrap (by omega), access_eq h.identity (by omega) (by omega)]
    change some (c.set rdi (loadHalf c.mem (layout.stackTop - 8)), 66) = _
    rw [hmagic]
  have h₂ : Long layout c₂ := h.registers
  have hrdi : c₂.reg rdi = magic := by simp [c₂, c₁, BootCpu.set]
  have hrsi : c₂.reg rsi = info := by simp [c₂, c₁, BootCpu.set]
  let c₃ : BootCpu :=
    { c₂ with sp := layout.stackTop - 8, mem := c.mem.store (layout.stackTop - 8) magic }
  have hpush₃ : c₂.pushValue (c₂.reg rdi) = some c₃ := by
    rw [hrdi]
    exact @pushValue_long layout c₂ h₂ layout.stackTop rfl haligned (by omega) htop_le magic
  have h₃ : Long layout c₃ := (h₂.memory fun a ha ↦ WordMemory.store_of_ne _ _ (by omega)).registers
  let c₄ : BootCpu :=
    { c₃ with sp := layout.stackTop - 8 - 8, mem := c₃.mem.store (layout.stackTop - 8 - 8) info }
  have hpush₄ : c₃.pushValue (c₃.reg rsi) = some c₄ := by
    rw [show c₃.reg rsi = info from hrsi]
    exact @pushValue_long layout c₃ h₃ (layout.stackTop - 8) rfl (by omega) (by omega) (by omega) info
  have h₄ : Long layout c₄ := (h₃.memory fun a ha ↦ WordMemory.store_of_ne _ _ (by omega)).registers
  refine ⟨c₄.set rax layout.bssStart, ⟨h₄.registers, hsegment, ?_, by simp [BootCpu.set], ?_⟩,
    hload.trans (reaches_exec h₂.identity rfl (congrArg (Option.map _) hpush₃)
      (reaches_exec h₃.identity rfl (congrArg (Option.map _) hpush₄)
        (reaches_exec h₄.identity rfl rfl .refl)))⟩
  · change layout.stackTop - 8 - 8 = _
    omega
  · change (c.mem.store _ _).store (layout.stackTop - 8 - 8) _ = _
    rw [show layout.stackTop - 8 - 8 = layout.stackTop - 16 by omega]
    rfl

/-- The comparison at the head of the loop. -/
theorem reaches_bssCompare {mem : WordMemory} {k : ℕ} (h : Zeroing layout mem k c)
    (hk : k ≤ layout.bssEnd - layout.bssStart) :
    ∃ c', Zeroing layout mem k c' ∧ Reaches (bootStep core layout) (c, zeroBss)
      (c', if layout.bssStart + k < layout.bssEnd then 73 else bssDone) := by
  have hordered := layout.bss_ordered
  have hinside := layout.bss_inside
  have hend := layout.boot.end_le
  have hge : (c.compare (c.reg Reg.rax) layout.bssEnd).greaterEq =
      decide (¬ layout.bssStart + k < layout.bssEnd) := by
    rw [BootCpu.compare, h.rax]
    simp only [BootCpu.signed, h.long.mode, if_true]
    rw [i64_of_lt (by omega), i64_of_lt (by omega), decide_eq_decide, Nat.cast_le]
    omega
  refine ⟨c.compare (c.reg Reg.rax) layout.bssEnd, ⟨h.long.registers, h.segment, h.sp, h.rax, h.mem⟩, ?_⟩
  refine reaches_exec h.long.identity rfl rfl (reaches_exec h.long.identity rfl ?_ .refl)
  rw [execute, hge]
  by_cases hless : layout.bssStart + k < layout.bssEnd <;> simp [hless, zeroBss]

/-- A round clears one more byte. -/
theorem reaches_bssRound {mem : WordMemory} {k : ℕ} (h : Zeroing layout mem k c)
    (hk : layout.bssStart + k < layout.bssEnd) :
    ∃ c', Zeroing layout mem (k + 1) c' ∧ Reaches (bootStep core layout) (c, zeroBss) (c', zeroBss) := by
  have hinside := layout.bss_inside
  have hend := layout.boot.end_le
  have hbehind := layout.bss_behind
  have haligned := layout.boot.aligned
  obtain ⟨c₁, h₁, hrun₁⟩ := @reaches_bssCompare core layout c mem k h (by omega)
  rw [if_pos hk] at hrun₁
  let c₂ : BootCpu := { c₁ with mem := c₁.mem.storeByte (layout.bssStart + k) 0 }
  have hlong₂ : Long layout c₂ := h₁.long.memory fun a ha ↦ WordMemory.store_of_ne _ _ (by omega)
  have hnext : c₂.trim (layout.bssStart + k + 1) = layout.bssStart + (k + 1) := by
    rw [BootCpu.trim, if_pos hlong₂.mode, wrap_of_lt (by omega)]
    rfl
  refine ⟨c₂.set Reg.rax (layout.bssStart + (k + 1)), ⟨hlong₂.registers, h₁.segment, h₁.sp,
    by simp [BootCpu.set], ?_⟩, hrun₁.trans ?_⟩
  · rw [WordMemory.zeroBytes_succ, ← h₁.mem]
    rfl
  · have hjump : Reaches (bootStep core layout) (c₂.set Reg.rax (layout.bssStart + (k + 1)), 75)
        (c₂.set Reg.rax (layout.bssStart + (k + 1)), zeroBss) := reaches_exec hlong₂.identity rfl rfl .refl
    have hinc : Reaches (bootStep core layout) (c₂, 74)
        (c₂.set Reg.rax (layout.bssStart + (k + 1)), zeroBss) := by
      refine reaches_exec hlong₂.identity rfl ?_ hjump
      rw [execute, show c₂.reg Reg.rax = layout.bssStart + k from h₁.rax, hnext]
    refine reaches_exec h₁.long.identity rfl ?_ hinc
    rw [execute, h₁.rax, access_eq h₁.long.identity (by omega) (one_dvd _)]
    rfl

/-- All of the bss is cleared. -/
theorem reaches_bssDone {mem : WordMemory} (h : Zeroing layout mem 0 c) :
    ∃ c', Zeroing layout mem (layout.bssEnd - layout.bssStart) c' ∧
      Reaches (bootStep core layout) (c, zeroBss) (c', bssDone) := by
  have hordered := layout.bss_ordered
  let invariant (n : ℕ) (s : BootCpu × ℕ) : Prop :=
    s.2 = zeroBss ∧ ∃ k, k + n = layout.bssEnd - layout.bssStart ∧ Zeroing layout mem k s.1
  have hround (n : ℕ) (s : BootCpu × ℕ) (hs : invariant (n + 1) s) :
      ∃ s', Reaches (bootStep core layout) s s' ∧ invariant n s' := by
    obtain ⟨c, _⟩ := s
    obtain ⟨rfl, k, hk, hzeroing⟩ := hs
    obtain ⟨c', hzeroing', hrun⟩ := @reaches_bssRound core layout c mem k hzeroing (by omega)
    exact ⟨(c', zeroBss), hrun, rfl, k + 1, by omega, hzeroing'⟩
  have hfirst : invariant (layout.bssEnd - layout.bssStart) (c, zeroBss) := ⟨rfl, 0, Nat.zero_add _, h⟩
  obtain ⟨⟨c₁, _⟩, hrun, rfl, k, hk, hzeroing⟩ := reaches_rounds hround hfirst
  obtain ⟨c', hzeroing', hlast⟩ := @reaches_bssCompare core layout c₁ mem k hzeroing (by omega)
  rw [if_neg (by omega)] at hlast
  obtain rfl : k = layout.bssEnd - layout.bssStart := hk
  exact ⟨c', hzeroing', hrun.trans hlast⟩

end LongModeCode

/-! ### All of the code -/

section Main

variable {core : Core} {layout : BootLayout} {reset c : BootCpu}

/-- `kernel_main` is called in 64-bit mode with the boot tables, in which the first gigabyte is where it is,
with interrupts off. Its arguments are what the boot loader has left in `eax` and `ebx`. The bss is zero, and
what lies in front of the tables or behind the bss is as it was. -/
structure KernelCall (layout : BootLayout) (reset c : BootCpu) : Prop where
  long : Long layout c
  identity : ∀ a < 2 ^ 30, c.physical a = some a
  segment : ∀ r, c.segment r = 16
  bootMagic : c.reg rdi = wrap32 (reset.reg rax)
  bootInfo : c.reg rsi = wrap32 (reset.reg rbx)
  sp : c.sp = layout.stackTop - 8
  returnAddress : c.mem (layout.stackTop - 8) = layout.address 79
  bss : ∀ a, layout.bssStart ≤ a → a < layout.bssEnd → c.mem.byteAt a = 0
  kept : ∀ a, a < layout.boot.pml4Table ∨ layout.bssEnd ≤ a → c.mem.byteAt a = reset.mem.byteAt a

/-- Where the processor halts without a long mode: there are four characters with their colours on the
screen, and outside of these and of the stack memory is as it was. -/
structure Refusal (layout : BootLayout) (reset c : BootCpu) : Prop where
  interrupts : c.eflags.testBit 9 = false
  screen : (List.range 8).map (fun k ↦ c.mem.byteAt (0xB8000 + k)) =
    [0x4E, 0x4F, 0x4F, 0x4F, 0x4F, 0x30, 0x34, 0x4F]
  kept : ∀ a, a < 0xB8000 ∨ 0xB8008 ≤ a → a + 16384 < layout.stackTop ∨ layout.stackTop ≤ a →
    c.mem.byteAt a = reset.mem.byteAt a

/-- The bytes of the two halves of the message. -/
theorem bytes_refusal : (List.range 8).map (byteOf 0x4F34304F4F4F4F4E) =
    [0x4E, 0x4F, 0x4F, 0x4F, 0x4F, 0x30, 0x34, 0x4F] := by decide

/-- The message -/
theorem reaches_refusal (h : Checked layout reset c) (hflat : Flat layout c (layout.stackTop - 12)) :
    ∃ c', Refusal layout reset c' ∧ Reaches (bootStep core layout) (c, noLongMode) (c', 43) := by
  have haligned := layout.boot.aligned
  have hstart := layout.boot.after_start
  have htop : layout.stackTop = layout.boot.pml4Table + 3 * 4096 + 16384 := rfl
  let c₁ : BootCpu := { c with mem := storeHalf c.mem 0xB8000 0x4F4F4F4E }
  let c₂ : BootCpu := { c₁ with mem := storeHalf c₁.mem 0xB8004 0x4F34304F }
  have hfirst : c.storeValue 0xB8000 0x4F4F4F4E = some c₁ :=
    @storeValue_eq c hflat.identity 0xB8000 (by decide) (by decide) _
  have hsecond : c₁.storeValue 0xB8004 0x4F34304F = some c₂ :=
    @storeValue_eq c₁ (identity_of_flat hflat.paging) 0xB8004 (by decide) (by decide) _
  have hrun : Reaches (bootStep core layout) (c, noLongMode) (c₂, 43) :=
    reaches_exec hflat.identity rfl (congrArg (Option.map _) hfirst)
      (reaches_exec (identity_of_flat hflat.paging) rfl (congrArg (Option.map _) hsecond) .refl)
  have hword : c₂.mem 0xB8000 = 0x4F34304F4F4F4F4E := by
    change storeHalf (storeHalf c.mem 0xB8000 0x4F4F4F4E) 0xB8004 0x4F34304F 0xB8000 = _
    rw [storeHalf_of_aligned c.mem (by decide : 8 ∣ 0xB8000), storeHalf, if_neg (by decide),
      show 0xB8004 / 8 * 8 = 0xB8000 by decide, WordMemory.store_same, storeLow, WordMemory.store_same]
    omega
  have hother (a : ℕ) (ha : a ≠ 0xB8000) : c₂.mem a = c.mem a := by
    change storeHalf (storeHalf c.mem 0xB8000 0x4F4F4F4E) 0xB8004 0x4F34304F a = _
    rw [storeHalf_of_ne _ _ (by omega), storeHalf_of_ne _ _ (by omega)]
  refine ⟨c₂, ⟨h.interrupts, ?_, fun a hscreen hstack ↦ ?_⟩, hrun⟩
  · have hbyte (k : ℕ) (hk : k < 8) :
        c₂.mem.byteAt (0xB8000 + k) = byteOf 0x4F34304F4F4F4F4E k := by
      rw [WordMemory.byteAt, show (0xB8000 + k) / 8 * 8 = 0xB8000 by omega,
        show (0xB8000 + k) % 8 = k by omega, hword]
    rw [List.map_congr_left fun k hk ↦ hbyte k (List.mem_range.mp hk)]
    exact bytes_refusal
  · rw [WordMemory.byteAt, WordMemory.byteAt, hother _ (by omega), h.mem _ (by omega)]

/-- Words below are not cleared. -/
theorem zeroBytes_of_lt (mem : WordMemory) {first n a : ℕ} (ha : a < first / 8 * 8) :
    mem.zeroBytes first n a = mem a := by
  induction n with
  | zero => rfl
  | succ n ih =>
    rw [WordMemory.zeroBytes_succ, WordMemory.storeByte, WordMemory.store_of_ne _ _ (by omega), ih]

/-- The call of the kernel. -/
theorem reaches_kernelMain {mem : WordMemory}
    (hmem : ∀ a, a < layout.boot.pml4Table ∨ layout.stackTop ≤ a → mem a = reset.mem a)
    (h : Zeroing layout (argumentsSaved layout mem (wrap32 (reset.reg rax)) (wrap32 (reset.reg rbx)))
      (layout.bssEnd - layout.bssStart) c) :
    ∃ c', KernelCall layout reset c' ∧ Reaches (bootStep core layout) (c, bssDone) (c', kernelMainEntry) := by
  have haligned := layout.stackTop_aligned
  have htop_le := layout.stackTop_le
  have htop : layout.stackTop = layout.boot.pml4Table + 3 * 4096 + 16384 := rfl
  have hbehind : layout.stackTop ≤ layout.bssStart := layout.bss_behind
  have hordered := layout.bss_ordered
  have hinfo : c.mem (layout.stackTop - 16) = wrap32 (reset.reg rbx) := by
    rw [h.mem, zeroBytes_of_lt _ (by omega), argumentsSaved, WordMemory.store_same]
  have hmagic : c.mem (layout.stackTop - 8) = wrap32 (reset.reg rax) := by
    rw [h.mem, zeroBytes_of_lt _ (by omega), argumentsSaved, WordMemory.store_of_ne _ _ (by omega),
      WordMemory.store_same]
  let c₁ := ({ c with sp := layout.stackTop - 8 } : BootCpu).set rsi (wrap32 (reset.reg rbx))
  have hpop₁ : c.popValue = some (wrap32 (reset.reg rbx), { c with sp := layout.stackTop - 8 }) := by
    rw [popValue_long h.long h.sp (by omega) (by omega), hinfo,
      show layout.stackTop - 16 + 8 = layout.stackTop - 8 by omega]
  have h₁ : Long layout c₁ := h.long.registers
  let c₂ := ({ c₁ with sp := layout.stackTop } : BootCpu).set rdi (wrap32 (reset.reg rax))
  have hpop₂ : c₁.popValue = some (wrap32 (reset.reg rax), { c₁ with sp := layout.stackTop }) := by
    rw [@popValue_long layout c₁ h₁ (layout.stackTop - 8) rfl (by omega) (by omega),
      show c₁.mem (layout.stackTop - 8) = wrap32 (reset.reg rax) from hmagic,
      show layout.stackTop - 8 + 8 = layout.stackTop by omega]
  have h₂ : Long layout c₂ := h₁.registers
  let c₃ : BootCpu :=
    { c₂ with sp := layout.stackTop - 8, mem := c₂.mem.store (layout.stackTop - 8) (layout.address 79) }
  have hpush : c₂.pushValue (layout.address (78 + 1)) = some c₃ :=
    @pushValue_long layout c₂ h₂ layout.stackTop rfl haligned (by omega) htop_le _
  have h₃ : Long layout c₃ := (h₂.memory fun a ha ↦ WordMemory.store_of_ne _ _ (by omega)).registers
  have hrun : Reaches (bootStep core layout) (c, bssDone) (c₃, kernelMainEntry) :=
    reaches_exec h.long.identity rfl (congrArg (Option.map _) hpop₁)
      (reaches_exec h₁.identity rfl (congrArg (Option.map _) hpop₂)
        (reaches_exec h₂.identity rfl (congrArg (Option.map _) hpush) .refl))
  have hbyte (a : ℕ) (ha : a / 8 * 8 ≠ layout.stackTop - 8) : c₃.mem.byteAt a = c.mem.byteAt a := by
    rw [WordMemory.byteAt, WordMemory.byteAt]
    exact congrArg (byteOf · (a % 8)) (WordMemory.store_of_ne _ _ ha)
  refine ⟨c₃, ⟨h₃, h₃.identity, h.segment, by simp [c₃, c₂, BootCpu.set], by simp [c₃, c₂, c₁, BootCpu.set],
    rfl, by simp only [c₃, WordMemory.store_same], fun a hfirst hlast ↦ ?_, fun a ha ↦ ?_⟩, hrun⟩
  · rw [hbyte a (by omega), h.mem, WordMemory.byteAt_zeroBytes, if_pos (by omega)]
  · rw [hbyte a (by omega), h.mem, WordMemory.byteAt_zeroBytes, if_neg (by omega), WordMemory.byteAt,
      argumentsSaved, WordMemory.store_of_ne _ _ (by omega), WordMemory.store_of_ne _ _ (by omega),
      hmem _ (by omega)]
    rfl

/-- All of the way to the kernel. -/
theorem reaches_kernelCall (hreset : Handoff layout reset) (hlong : core.LongMode) :
    ∃ c, KernelCall layout reset c ∧ Reaches (bootStep core layout) (reset, 0) (c, kernelMainEntry) := by
  obtain ⟨c₁, hchecked, hflat, -, hrun₁⟩ := @reaches_started core layout reset hreset
  rw [if_pos hlong] at hrun₁
  obtain ⟨c₂, hprepared, hrun₂⟩ := @reaches_prepared core layout reset c₁ hreset hchecked (hflat hlong)
  obtain ⟨c₃, hlong₃, hbase, hlimit, hsp₃, hmem₃, hrun₃⟩ :=
    @reaches_long core layout reset c₂ hreset hprepared
  have hmem (a : ℕ) (ha : a < layout.boot.pml4Table) : c₃.mem a = layout.boot.mem a := by
    rw [hmem₃, ← hreset.mem]
    exact hprepared.mem a (Or.inl ha)
  have hdescriptor : c₃.descriptorHigh 16 = some dataSegmentHigh := by
    rw [descriptorHigh_eq hlong₃.identity hbase hlimit hmem (by decide)]
    exact congrArg some layout.gdt_data
  obtain ⟨c₄, hlong₄, hsegment, hsp₄, hmem₄, hrun₄⟩ := @reaches_segments core layout c₃ hlong₃ hdescriptor
  have hsame : c₄.mem = c₂.mem := hmem₄.trans hmem₃
  obtain ⟨c₅, hzeroing, hrun₅⟩ :=
    @reaches_arguments core layout c₄ (wrap32 (reset.reg rax)) (wrap32 (reset.reg rbx)) hlong₄ hsegment
      (hsp₄.trans hsp₃) (by rw [hsame]; exact hprepared.bootMagic) (by rw [hsame]; exact hprepared.bootInfo)
  obtain ⟨c₆, hzeroed, hrun₆⟩ := @reaches_bssDone core layout c₅ _ hzeroing
  obtain ⟨c₇, hcall, hrun₇⟩ :=
    @reaches_kernelMain core layout reset c₆ c₄.mem (by rw [hsame]; exact hprepared.mem) hzeroed
  exact ⟨c₇, hcall,
    hrun₁.trans (hrun₂.trans (hrun₃.trans (hrun₄.trans (hrun₅.trans (hrun₆.trans hrun₇)))))⟩

/-- The code calls `kernel_main` on a processor with a long mode, and on no other; what it is called with is
`KernelCall`. On the others the processor halts with its message on the screen. -/
theorem longMode_iff (core : Core) (layout : BootLayout) (reset : BootCpu) (h : Handoff layout reset) :
    ((∃ c, Reaches (bootStep core layout) (reset, 0) (c, kernelMainEntry)) ↔ core.LongMode) ∧
    (∀ c, Reaches (bootStep core layout) (reset, 0) (c, kernelMainEntry) → KernelCall layout reset c) ∧
    (¬ core.LongMode → ∃ c, Refusal layout reset c ∧ Reaches (bootStep core layout) (reset, 0) (c, 43) ∧
      bootStep core layout (c, 43) = none) := by
  have hcalled (c : BootCpu) : bootStep core layout (c, kernelMainEntry) = none := rfl
  have hhalted (c : BootCpu) : bootStep core layout (c, 43) = none := by
    rw [bootStep, stepAt_eq rfl, bootExec]
    split_ifs <;> rfl
  have hrefused (hnot : ¬ core.LongMode) : ∃ c, Refusal layout reset c ∧
      Reaches (bootStep core layout) (reset, 0) (c, 43) := by
    obtain ⟨c₁, hchecked, -, hflat, hrun₁⟩ := @reaches_started core layout reset h
    rw [if_neg hnot] at hrun₁
    obtain ⟨c₂, hrefusal, hrun₂⟩ := @reaches_refusal core layout reset c₁ hchecked (hflat hnot)
    exact ⟨c₂, hrefusal, hrun₁.trans hrun₂⟩
  have hlong (c : BootCpu) (hc : Reaches (bootStep core layout) (reset, 0) (c, kernelMainEntry)) :
      core.LongMode := by
    by_contra hnot
    obtain ⟨halted, -, hrun⟩ := hrefused hnot
    have hsame := reaches_unique hc hrun (hcalled c) (hhalted halted)
    exact absurd (congrArg Prod.snd hsame) (show ¬ kernelMainEntry = 43 by decide)
  refine ⟨⟨fun ⟨c, hc⟩ ↦ hlong c hc, fun hyes ↦ ?_⟩, fun c hc ↦ ?_, fun hnot ↦ ?_⟩
  · obtain ⟨c, -, hrun⟩ := @reaches_kernelCall core layout reset h hyes
    exact ⟨c, hrun⟩
  · obtain ⟨called, hcall, hrun⟩ := @reaches_kernelCall core layout reset h (hlong c hc)
    obtain rfl : c = called := congrArg Prod.fst (reaches_unique hc hrun (hcalled c) (hcalled called))
    exact hcall
  · obtain ⟨c, hrefusal, hrun⟩ := hrefused hnot
    exact ⟨c, hrefusal, hrun, hhalted c⟩

/-- An image at 1 MiB with its descriptors in front of the tables. -/
def sampleLayout : BootLayout where
  boot :=
    { regions := [⟨0x100000, 0x38000⟩]
      kernelEnd := 0x10A000
      pml4Table := 0x102000
      mem := fun a ↦ if a = 0x101008 then 2 ^ 32 * codeSegmentHigh
        else if a = 0x101010 then 2 ^ 32 * dataSegmentHigh else 0
      regions_low := by decide
      regions_high := by decide
      aligned := by decide
      after_start := by decide
      before_end := by decide
      end_le := by decide
      zeroed := fun a hfirst _ ↦ by rw [if_neg (by omega), if_neg (by omega)] }
  address := fun i ↦ 0x100000 + 8 * i
  gdt64 := 0x101000
  bssStart := 0x109000
  bssEnd := 0x109123
  before_tables := fun i hi ↦ by
    have hle : i ≤ 81 := hi
    change 0x100000 + 8 * i < 0x102000
    omega
  distinct := fun i _ j _ heq ↦ by omega
  gdt_aligned := by decide
  gdt_before := by decide
  gdt_code := by decide
  gdt_data := by decide
  bss_behind := by decide
  bss_ordered := by decide
  bss_inside := by decide

/-- What GRUB leaves: its magic number and the address of its information. -/
def sampleHandoff : BootCpu where
  reg := fun r ↦ match r with
    | rax => 0x36D76289
    | rbx => 0x9500
    | _ => 0
  sp := 0
  eflags := 2
  zero := false
  below := false
  greaterEq := false
  cr0 := 1
  cr3 := 0
  cr4 := 0
  efer := 0
  gdtBase := 0
  gdtLimit := 0
  cs := 0x10
  segment := fun _ ↦ 0x18
  code64 := false
  mem := sampleLayout.boot.mem

/-- On a processor with a long mode, `kernel_main` gets the magic number; on one without `cpuid`, it is not
called. -/
theorem longMode_iff_sample :
    (∃ c, Reaches (bootStep ⟨true, fun _ ↦ ⟨0x80000008, 0, 0, 1 <<< 29⟩⟩ sampleLayout) (sampleHandoff, 0)
      (c, kernelMainEntry) ∧ c.reg rdi = 0x36D76289) ∧
    ¬ ∃ c, Reaches (bootStep ⟨false, fun _ ↦ ⟨0, 0, 0, 0⟩⟩ sampleLayout) (sampleHandoff, 0)
      (c, kernelMainEntry) := by
  have hhandoff : Handoff sampleLayout sampleHandoff := ⟨by decide, rfl, by decide, rfl⟩
  obtain ⟨hreached, hcalled, -⟩ := longMode_iff ⟨true, fun _ ↦ ⟨0x80000008, 0, 0, 1 <<< 29⟩⟩ sampleLayout
    sampleHandoff hhandoff
  obtain ⟨c, hc⟩ := hreached.mpr ⟨rfl, by decide, by decide⟩
  refine ⟨⟨c, hc, (hcalled c hc).bootMagic.trans (by decide)⟩, fun hmissing ↦ ?_⟩
  exact Bool.false_ne_true ((longMode_iff ⟨false, fun _ ↦ ⟨0, 0, 0, 0⟩⟩ sampleLayout sampleHandoff
    hhandoff).1.mp hmissing).hasCpuid

end Main

end MegKer.Kernel.X86
