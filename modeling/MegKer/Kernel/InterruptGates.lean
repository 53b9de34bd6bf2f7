import MegKer.Kernel.InterruptStubs

/-!
# The ways into the x86_64 kernel

The descriptor tables of `idt.c`, `gdt.c` and `tss.c`, and how the processor reads them. A gate and a
segment descriptor have their addresses cut into pieces, which the setters fill and the processor puts
together again. `enterKernel` is what the processor does with a vector: it looks for a gate that is
present and, for an `int` instruction, open to the privilege level; it takes the code segment of the gate,
and the stack of the task state segment if the privilege level changes.

After `idt_init`, `gdt_init` and `tss_init` the ways in are the 49 stubs of `isr_stubs.asm`, each at its
own vector, and from ring 3 there is one `int` that the processor accepts, the one for system calls
(`enterKernel_iff`).
-/

set_option autoImplicit false
set_option relaxedAutoImplicit false

namespace MegKer.Kernel.X86

open Foundation

/-! ### The tables -/

/-- `idt_entry_t` -/
structure IdtEntry where
  offsetLow : ℕ
  selector : ℕ
  ist : ℕ
  typeAttr : ℕ
  offsetMid : ℕ
  offsetHigh : ℕ
  zero : ℕ
  deriving DecidableEq, Repr

abbrev Idt := ℕ → IdtEntry

/-- What `idt_set_gate` stores for a handler. -/
def idtGate (handler typeAttr : ℕ) : IdtEntry where
  offsetLow := handler &&& 0xFFFF
  offsetMid := handler >>> 16 &&& 0xFFFF
  offsetHigh := handler >>> 32 &&& 0xFFFFFFFF
  selector := 0x08
  ist := 0
  typeAttr := typeAttr
  zero := 0

def idtSetGate (idt : Idt) (vec handler typeAttr : ℕ) : Idt :=
  Function.update idt vec (idtGate handler typeAttr)

/-- The gates that `idt_init` installs, for the addresses of the stubs. -/
def idtInit (label : Stub → ℕ) (idt : Idt) : Idt :=
  let idt := isrStubs.zipIdx.foldl (fun idt p ↦ idtSetGate idt p.2 (label p.1) 0x8E) idt
  let idt := irqStubs.zipIdx.foldl (fun idt p ↦ idtSetGate idt (32 + p.2) (label p.1) 0x8E) idt
  idtSetGate idt 0x80 (label isr128) 0xEE

/-- `idt_ptr.limit` -/
def idtLimit : ℕ := 256 * 16 - 1

/-- `gdt_entry_t` -/
structure GdtEntry where
  limitLow : ℕ
  baseLow : ℕ
  baseMid : ℕ
  access : ℕ
  flagsLimitHigh : ℕ
  baseHigh : ℕ
  deriving DecidableEq, Repr

abbrev Gdt := ℕ → GdtEntry

def gdtSetEntry (gdt : Gdt) (i base limit access flags : ℕ) : Gdt :=
  Function.update gdt i
    { baseLow := base &&& 0xFFFF
      baseMid := base >>> 16 &&& 0xFF
      baseHigh := base >>> 24 &&& 0xFF
      limitLow := limit &&& 0xFFFF
      flagsLimitHigh := (limit >>> 16 &&& 0x0F) ||| (flags &&& 0xF0)
      access := access }

def gdtInit (gdt : Gdt) : Gdt :=
  let gdt := gdtSetEntry gdt 0 0 0 0 0
  let gdt := gdtSetEntry gdt 1 0 0xFFFFF 0x9A 0xA0
  let gdt := gdtSetEntry gdt 2 0 0xFFFFF 0x92 0xC0
  let gdt := gdtSetEntry gdt 3 0 0xFFFFF 0xFA 0xA0
  gdtSetEntry gdt 4 0 0xFFFFF 0xF2 0xC0

/-- `gdt_set_tss_descriptor`. The two words `upper` are the eight bytes of slot 6. -/
def gdtSetTssDescriptor (gdt : Gdt) (base limit : ℕ) : Gdt :=
  let gdt := gdtSetEntry gdt 5 (wrap32 base) limit 0x89 0x00
  let upper := wrap32 (base >>> 32)
  Function.update gdt 6
    { limitLow := upper % 2 ^ 16, baseLow := upper / 2 ^ 16, baseMid := 0, access := 0
      flagsLimitHigh := 0, baseHigh := 0 }

/-- The fields of `tss_t` that the processor reads on the way to ring 0, or that are not zero. -/
structure Tss where
  rsp0 : ℕ
  ist : ℕ → ℕ
  iomapBase : ℕ

/-- `sizeof(tss_t)` -/
def tssSize : ℕ := 104

/-- What `tss_init` leaves in the task state segment, for the address of `kernel_stack`. -/
def tssInit (kernelStack : ℕ) : Tss where
  rsp0 := kernelStack + 16384
  ist := fun _ ↦ 0
  iomapBase := tssSize

/-! ### The processor -/

/-- The address in a gate. -/
def IdtEntry.offset (gate : IdtEntry) : ℕ :=
  gate.offsetLow + gate.offsetMid * 2 ^ 16 + gate.offsetHigh * 2 ^ 32

/-- The least privileged level that may name a gate in an `int`. -/
def IdtEntry.dpl (gate : IdtEntry) : ℕ := gate.typeAttr / 2 ^ 5 % 4

/-- A gate is present, and an interrupt gate of 64 bits. -/
def IdtEntry.usable (gate : IdtEntry) : Bool := gate.typeAttr.testBit 7 && gate.typeAttr % 16 == 0xE

def GdtEntry.dpl (segment : GdtEntry) : ℕ := segment.access / 2 ^ 5 % 4

/-- A segment is present, and for 64-bit code. -/
def GdtEntry.isCode64 (segment : GdtEntry) : Bool :=
  segment.access.testBit 7 && segment.access.testBit 4 && segment.access.testBit 3 &&
    segment.flagsLimitHigh.testBit 5 && !segment.flagsLimitHigh.testBit 6

/-- The base address of a system segment, which takes two slots. -/
def systemBase (gdt : Gdt) (i : ℕ) : ℕ :=
  (gdt i).baseLow + (gdt i).baseMid * 2 ^ 16 + (gdt i).baseHigh * 2 ^ 24 +
    ((gdt (i + 1)).limitLow + (gdt (i + 1)).baseLow * 2 ^ 16) * 2 ^ 32

/-- Where the processor continues with an interrupt. -/
structure KernelEntry where
  offset : ℕ
  cpl : ℕ
  stack : ℕ
  deriving DecidableEq, Repr

/-- What the processor does with a vector, for a hardware interrupt or exception and for an `int`
instruction (`software`). Without a result it raises another exception. -/
def enterKernel (idt : Idt) (gdt : Gdt) (tssAt : ℕ → Tss) (vector : ℕ) (software : Bool)
    (cpl rsp : ℕ) : Option KernelEntry :=
  let gate := idt vector
  if vector * 16 + 15 ≤ idtLimit ∧ gate.usable = true ∧ (software = true → cpl ≤ gate.dpl) then
    let code := gdt (gate.selector / 8)
    let tss := tssAt (systemBase gdt 5)
    if code.isCode64 = true ∧ code.dpl ≤ cpl then
      some
        { offset := gate.offset
          cpl := code.dpl
          stack :=
            if gate.ist % 8 ≠ 0 then tss.ist (gate.ist % 8)
            else if code.dpl < cpl then tss.rsp0
            else rsp }
    else none
  else none

/-! ### Reading back -/

theorem shiftRight_and (x shift bits : ℕ) : x >>> shift &&& (2 ^ bits - 1) = x / 2 ^ shift % 2 ^ bits := by
  rw [Nat.and_two_pow_sub_one_eq_mod, Nat.shiftRight_eq_div_pow]

/-- The processor finds the handler that was put into a gate. -/
theorem offset_idtGate {handler : ℕ} (hhandler : handler < 2 ^ 64) (typeAttr : ℕ) :
    (idtGate handler typeAttr).offset = handler := by
  have hlow : handler &&& 0xFFFF = handler % 2 ^ 16 := Nat.and_two_pow_sub_one_eq_mod handler 16
  have hmid : handler >>> 16 &&& 0xFFFF = handler / 2 ^ 16 % 2 ^ 16 := shiftRight_and handler 16 16
  have hhigh : handler >>> 32 &&& 0xFFFFFFFF = handler / 2 ^ 32 % 2 ^ 32 := shiftRight_and handler 32 32
  simp only [IdtEntry.offset, idtGate, hlow, hmid, hhigh]
  omega

/-- The processor finds the task state segment that was put into the table. -/
theorem systemBase_gdtSetTssDescriptor {base : ℕ} (hbase : base < 2 ^ 64) (gdt : Gdt) (limit : ℕ) :
    systemBase (gdtSetTssDescriptor gdt base limit) 5 = base := by
  have hlow : wrap32 base &&& 0xFFFF = wrap32 base % 2 ^ 16 :=
    Nat.and_two_pow_sub_one_eq_mod (wrap32 base) 16
  have hmid : wrap32 base >>> 16 &&& 0xFF = wrap32 base / 2 ^ 16 % 2 ^ 8 :=
    shiftRight_and (wrap32 base) 16 8
  have hhigh : wrap32 base >>> 24 &&& 0xFF = wrap32 base / 2 ^ 24 % 2 ^ 8 :=
    shiftRight_and (wrap32 base) 24 8
  have hupper : base >>> 32 = base / 2 ^ 32 := Nat.shiftRight_eq_div_pow base 32
  simp only [systemBase, gdtSetTssDescriptor, gdtSetEntry, Function.update_self,
    Function.update_of_ne (show (5 : ℕ) ≠ 6 by decide), hlow, hmid, hhigh, hupper]
  unfold wrap32
  omega

/-- The descriptor of the task state segment leaves the segments below it alone. -/
theorem gdtSetTssDescriptor_of_lt (gdt : Gdt) (base limit : ℕ) {i : ℕ} (hi : i < 5) :
    gdtSetTssDescriptor gdt base limit i = gdt i := by
  rw [gdtSetTssDescriptor, Function.update_of_ne (by omega), gdtSetEntry,
    Function.update_of_ne (by omega)]

/-! ### The gates -/

/-- All stubs, in the order in which they get their gates. -/
def allStubs : List Stub := isrStubs ++ irqStubs ++ [isr128]

/-- The access byte of the gate of a stub. -/
def gateAttr (stub : Stub) : ℕ := if stub = isr128 then 0xEE else 0x8E

/-- The gates of some stubs, each at its own vector. -/
def setGates (label : Stub → ℕ) : Idt → List Stub → Idt :=
  List.foldl fun idt stub ↦ idtSetGate idt stub.vector (label stub) (gateAttr stub)

theorem idtInit_eq (label : Stub → ℕ) (idt : Idt) : idtInit label idt = setGates label idt allStubs :=
  rfl

theorem setGates_apply (label : Stub → ℕ) {stubs : List Stub} (hnodup : (stubs.map Stub.vector).Nodup)
    (idt : Idt) (v : ℕ) :
    setGates label idt stubs v =
      ((stubs.find? fun stub ↦ stub.vector == v).map fun stub ↦
        idtGate (label stub) (gateAttr stub)).getD (idt v) := by
  induction stubs generalizing idt with
  | nil => rfl
  | cons stub stubs ih =>
    rw [List.map_cons, List.nodup_cons] at hnodup
    have hrest := ih hnodup.2 (idtSetGate idt stub.vector (label stub) (gateAttr stub))
    change setGates label (idtSetGate idt stub.vector (label stub) (gateAttr stub)) stubs v = _
    rw [hrest]
    by_cases hv : stub.vector = v
    · subst hv
      have hnone : stubs.find? (fun other ↦ other.vector == stub.vector) = none := by
        rw [List.find?_eq_none]
        intro other hother heq
        exact hnodup.1 (List.mem_map.mpr ⟨other, hother, beq_iff_eq.mp heq⟩)
      rw [hnone, List.find?_cons_of_pos (by simp)]
      exact Function.update_self _ _ _
    · rw [List.find?_cons_of_neg (by simpa using hv), idtSetGate, Function.update_of_ne (Ne.symm hv)]

/-- The stub of a vector. -/
def stubOf (vector : ℕ) : Option Stub := allStubs.find? fun stub ↦ stub.vector == vector

theorem stubOf_eq_some {vector : ℕ} {stub : Stub} (h : stubOf vector = some stub) :
    stub ∈ allStubs ∧ stub.vector = vector :=
  ⟨List.mem_of_find?_eq_some h, by simpa using List.find?_some h⟩

theorem stubOf_vector {stub : Stub} (h : stub ∈ allStubs) : stubOf stub.vector = some stub := by
  revert stub
  decide

/-- A vector whose gate is not set up has an entry that is not present. -/
theorem idtInit_apply (label : Stub → ℕ) (idt : Idt) (vector : ℕ) :
    idtInit label idt vector =
      ((stubOf vector).map fun stub ↦ idtGate (label stub) (gateAttr stub)).getD (idt vector) := by
  rw [idtInit_eq]
  exact setGates_apply label (by decide) idt vector

/-! ### The ways in -/

/-- The tables before they are initialized, in memory that the loader cleared. -/
def bssIdt : Idt := fun _ ↦ ⟨0, 0, 0, 0, 0, 0, 0⟩

def bssGdt : Gdt := fun _ ↦ ⟨0, 0, 0, 0, 0, 0⟩

/-- The code segment of the gates is the kernel's. -/
theorem kernelCode_spec (base limit : ℕ) :
    (gdtSetTssDescriptor (gdtInit bssGdt) base limit (0x08 / 8)).isCode64 = true ∧
      (gdtSetTssDescriptor (gdtInit bssGdt) base limit (0x08 / 8)).dpl = 0 := by
  rw [gdtSetTssDescriptor_of_lt _ _ _ (by decide)]
  decide

theorem usable_idtGate (handler : ℕ) (stub : Stub) : (idtGate handler (gateAttr stub)).usable = true := by
  simp only [IdtEntry.usable, idtGate]
  unfold gateAttr
  split <;> decide

theorem dpl_idtGate (handler : ℕ) (stub : Stub) :
    (idtGate handler (gateAttr stub)).dpl = if stub = isr128 then 3 else 0 := by
  simp only [IdtEntry.dpl, idtGate]
  unfold gateAttr
  split <;> decide

theorem eq_isr128_iff {stub : Stub} (h : stub ∈ allStubs) : stub = isr128 ↔ stub.vector = 128 := by
  revert stub
  decide

theorem vector_le_idtLimit {stub : Stub} (h : stub ∈ allStubs) :
    stub.vector * 16 + 15 ≤ idtLimit := by
  revert stub
  decide

/-- The processor gets into the kernel through the stubs only, each at its own vector, in ring 0 and
from other rings on the stack of the task state segment. An `int` from another ring gets there through
the system call vector only. -/
theorem enterKernel_iff (label : Stub → ℕ) (hlabel : ∀ stub, label stub < 2 ^ 64) {tssAddr : ℕ}
    (htss : tssAddr < 2 ^ 64) (kernelStack : ℕ) {tssAt : ℕ → Tss}
    (htssAt : tssAt tssAddr = tssInit kernelStack) (vector : ℕ) (software : Bool) {cpl : ℕ}
    (hcpl : cpl ≤ 3) (rsp : ℕ) (entry : KernelEntry) :
    enterKernel (idtInit label bssIdt)
        (gdtSetTssDescriptor (gdtInit bssGdt) tssAddr (tssSize - 1)) tssAt vector software cpl rsp =
          some entry ↔
      ∃ stub ∈ allStubs, stub.vector = vector ∧ (software = true → cpl = 0 ∨ vector = 128) ∧
        entry = ⟨label stub, 0, if cpl = 0 then rsp else kernelStack + 16384⟩ := by
  have hstack : (if 0 < cpl then kernelStack + 16384 else rsp) =
      if cpl = 0 then rsp else kernelStack + 16384 := by
    split_ifs <;> omega
  obtain ⟨hcode, hdpl⟩ := kernelCode_spec tssAddr (tssSize - 1)
  cases hstub : stubOf vector with
  | none =>
    have hgate : idtInit label bssIdt vector = bssIdt vector := by rw [idtInit_apply, hstub]; rfl
    have hunusable : ¬ (bssIdt vector).usable = true := by simp [bssIdt, IdtEntry.usable]
    rw [enterKernel, hgate, if_neg fun h ↦ hunusable h.2.1]
    refine iff_of_false (Option.some_ne_none _).symm ?_
    rintro ⟨stub, hmem, rfl, -⟩
    rw [stubOf_vector hmem] at hstub
    cases hstub
  | some stub =>
    obtain ⟨hmem, rfl⟩ := stubOf_eq_some hstub
    have hgate : idtInit label bssIdt stub.vector = idtGate (label stub) (gateAttr stub) := by
      rw [idtInit_apply, hstub]
      rfl
    have hlimit := vector_le_idtLimit hmem
    have hopen : (software = true → cpl ≤ (idtGate (label stub) (gateAttr stub)).dpl) ↔
        (software = true → cpl = 0 ∨ stub.vector = 128) := by
      rw [dpl_idtGate, ← eq_isr128_iff hmem]
      split_ifs with his
      · simp [hcpl, his]
      · simp [his]
    have hselector : (idtGate (label stub) (gateAttr stub)).selector = 0x08 := rfl
    have hist : ¬ (idtGate (label stub) (gateAttr stub)).ist % 8 ≠ 0 := fun h ↦ h rfl
    rw [enterKernel, hgate]
    simp only [hlimit, usable_idtGate, hopen, hselector, hist, if_false, hcode, hdpl, Nat.zero_le,
      true_and, and_self, if_true, offset_idtGate (hlabel stub), systemBase_gdtSetTssDescriptor htss, htssAt, tssInit,
      hstack]
    constructor
    · intro h
      by_cases hallowed : software = true → cpl = 0 ∨ stub.vector = 128
      · rw [if_pos hallowed] at h
        exact ⟨stub, hmem, rfl, hallowed, (Option.some.inj h).symm⟩
      · rw [if_neg hallowed] at h
        cases h
    · rintro ⟨other, hother, hvector, hallowed, rfl⟩
      have hsame := stubOf_vector hother
      rw [hvector, hstub] at hsame
      obtain rfl := Option.some.inj hsame
      rw [if_pos hallowed]

/-- A program in ring 3 that makes a system call gets to the stub of vector 128, on the kernel's stack. -/
theorem enterKernel_iff_systemCall :
    enterKernel (idtInit (fun stub ↦ 0x100000 + stub.vector % 256 * 16) bssIdt)
        (gdtSetTssDescriptor (gdtInit bssGdt) 0x9000 (tssSize - 1)) (fun _ ↦ tssInit 0x20000) 128 true 3
        0x7FF000 =
      some ⟨0x100800, 0, 0x24000⟩ := by
  have hlabel : ∀ stub : Stub, 0x100000 + stub.vector % 256 * 16 < 2 ^ 64 := by
    intro stub
    omega
  have htss : (fun _ : ℕ ↦ tssInit 0x20000) 0x9000 = tssInit 0x20000 := rfl
  have hoffset : 0x100000 + isr128.vector % 256 * 16 = 0x100800 := by decide
  refine (enterKernel_iff (fun stub ↦ 0x100000 + stub.vector % 256 * 16) hlabel
    (show 0x9000 < 2 ^ 64 by decide) 0x20000 htss 128 true (show 3 ≤ 3 by decide) 0x7FF000
    ⟨0x100800, 0, 0x24000⟩).mpr ?_
  refine ⟨isr128, by decide, rfl, fun _ ↦ Or.inr rfl, ?_⟩
  rw [if_neg (show ¬ (3 : ℕ) = 0 by decide)]
  rw [hoffset]

end MegKer.Kernel.X86
