import Mathlib.Data.Nat.Notation
import Mathlib.Tactic.SplitIfs

/-!
# The interrupt controllers of the PC

The two 8259 chips that `idt.c` programs through the ports 0x20, 0x21, 0xA0 and 0xA1. A chip keeps the
interrupts that have been requested, the mask, and those that are in service; the second chip is
connected to line 2 of the first. A command with bit 4 starts an initialization, whose further words go
to the data port; in between and afterwards a byte at the data port is the mask. An interrupt is
acknowledged when it is the first one that is requested and not masked, and no earlier one is in service.
A non-specific end of interrupt takes back the first one that is in service.

`picRemap`, `irqSetMask` and the accesses at the end of `idt_init` are the code. Whatever state the
firmware has left, `idt_init` ends with both chips initialized, at the vectors 32 and 40, with nothing in
service and everything masked (`idtInitPorts_spec`).
-/

set_option autoImplicit false
set_option relaxedAutoImplicit false

namespace MegKer.Drivers

/-! ### The chips -/

/-- Which initialization word a chip expects at its data port. -/
inductive InitStage
  | ready
  | icw2 (single needsIcw4 : Bool)
  | icw3 (needsIcw4 : Bool)
  | icw4
  deriving DecidableEq, Repr

/-- An 8259. -/
structure Chip where
  irr : BitVec 8
  imr : BitVec 8
  isr : BitVec 8
  /-- The vector of line 0. -/
  offset : ℕ
  /-- Which lines, or which line, connect the chips. -/
  cascade : BitVec 8
  mode8086 : Bool
  stage : InitStage
  deriving DecidableEq, Repr

/-- The first line whose bit is set. -/
def firstSet (bits : BitVec 8) : Option ℕ := (List.range 8).find? bits.getLsbD

namespace Chip

variable (chip : Chip)

/-- A non-specific end of interrupt. -/
def endOfInterrupt : Chip :=
  match firstSet chip.isr with
  | some line => { chip with isr := chip.isr &&& ~~~BitVec.twoPow 8 line }
  | none => chip

/-- A write to the command port: the start of an initialization, which clears the mask and the requests,
or the end of an interrupt. -/
def writeCommand (value : BitVec 8) : Chip :=
  if value.getLsbD 4 then
    { chip with
      irr := 0, imr := 0, isr := 0, stage := .icw2 (value.getLsbD 1) (value.getLsbD 0) }
  else if value = 0x20#8 then chip.endOfInterrupt
  else chip

/-- A write to the data port. -/
def writeData (value : BitVec 8) : Chip :=
  match chip.stage with
  | .ready => { chip with imr := value }
  | .icw2 single needsIcw4 =>
    { chip with
      offset := (value &&& 0xF8#8).toNat
      stage := if !single then .icw3 needsIcw4 else if needsIcw4 then .icw4 else .ready }
  | .icw3 needsIcw4 =>
    { chip with cascade := value, stage := if needsIcw4 then .icw4 else .ready }
  | .icw4 => { chip with mode8086 := value.getLsbD 0, stage := .ready }

/-- The interrupt that a chip has for its requests. -/
def pending (irr : BitVec 8) : Option ℕ :=
  match firstSet (irr &&& ~~~chip.imr) with
  | some line => if (List.range (line + 1)).any chip.isr.getLsbD then none else some line
  | none => none

/-- A line is acknowledged. -/
def serve (line : ℕ) : Chip :=
  { chip with
    irr := chip.irr &&& ~~~BitVec.twoPow 8 line, isr := chip.isr ||| BitVec.twoPow 8 line }

end Chip

/-- The two chips. -/
structure Pics where
  master : Chip
  slave : Chip
  deriving DecidableEq, Repr

namespace Pics

variable (pics : Pics)

/-- `outb`, of which only these ports are the chips'. -/
def outb (port : ℕ) (value : BitVec 8) : Pics :=
  if port = 0x20 then { pics with master := pics.master.writeCommand value }
  else if port = 0x21 then { pics with master := pics.master.writeData value }
  else if port = 0xA0 then { pics with slave := pics.slave.writeCommand value }
  else if port = 0xA1 then { pics with slave := pics.slave.writeData value }
  else pics

/-- `inb` of a data port. -/
def inb (port : ℕ) : BitVec 8 := if port = 0x21 then pics.master.imr else pics.slave.imr

/-- The requests of the first chip. Its line 2 is the output of the second one. -/
def masterIrr : BitVec 8 :=
  if (pics.slave.pending pics.slave.irr).isSome then pics.master.irr ||| BitVec.twoPow 8 2
  else pics.master.irr &&& ~~~BitVec.twoPow 8 2

/-- The processor acknowledges an interrupt: the vector, and the chips afterwards. -/
def acknowledge : Option (ℕ × Pics) :=
  (pics.master.pending pics.masterIrr).bind fun line ↦
    if line = 2 then
      (pics.slave.pending pics.slave.irr).map fun slaveLine ↦
        (pics.slave.offset + slaveLine,
          { master := pics.master.serve 2, slave := pics.slave.serve slaveLine })
    else some (pics.master.offset + line, { pics with master := pics.master.serve line })

/-- A device requests an interrupt. -/
def request (line : ℕ) : Pics :=
  if line < 8 then
    { pics with master := { pics.master with irr := pics.master.irr ||| BitVec.twoPow 8 line } }
  else
    { pics with slave := { pics.slave with irr := pics.slave.irr ||| BitVec.twoPow 8 (line - 8) } }

/-- A line is requested. -/
def requested (line : ℕ) : Bool :=
  if line < 8 then pics.master.irr.getLsbD line else pics.slave.irr.getLsbD (line - 8)

/-- A line is masked. -/
def masked (line : ℕ) : Bool :=
  if line < 8 then pics.master.imr.getLsbD line else pics.slave.imr.getLsbD (line - 8)

end Pics

/-! ### The code -/

def irqBase : ℕ := 32

/-- Writes to ports, one after the other. The `io_wait` between them writes to a port that is not one of
the chips'. -/
def outbs (pics : Pics) (writes : List (ℕ × BitVec 8)) : Pics :=
  writes.foldl (fun pics w ↦ (pics.outb w.1 w.2).outb 0x80 0) pics

def picRemap (pics : Pics) : Pics :=
  let mask1 := pics.inb 0x21
  let mask2 := pics.inb 0xA1
  let pics := outbs pics
    [(0x20, 0x11#8), (0xA0, 0x11#8), (0x21, BitVec.ofNat 8 irqBase),
     (0xA1, BitVec.ofNat 8 (irqBase + 8)), (0x21, 0x04#8), (0xA1, 0x02#8), (0x21, 0x01#8),
     (0xA1, 0x01#8)]
  (pics.outb 0x21 mask1).outb 0xA1 mask2

/-- What `idt_init` does with the chips. -/
def idtInitPorts (pics : Pics) : Pics := ((picRemap pics).outb 0x21 0xFF#8).outb 0xA1 0xFF#8

def irqSetMask (pics : Pics) (irq : ℕ) (masked : Bool) : Pics :=
  let port := if irq < 8 then 0x21 else 0xA1
  let bit := if irq < 8 then irq else irq - 8
  let val := pics.inb port
  pics.outb port (if masked then val ||| BitVec.twoPow 8 bit else val &&& ~~~BitVec.twoPow 8 bit)

/-- The end of the interrupt in `isr_handler`. -/
def isrEndOfInterrupt (pics : Pics) (irq : ℕ) : Pics :=
  let pics := if 8 ≤ irq then pics.outb 0xA0 0x20#8 else pics
  pics.outb 0x20 0x20#8

/-! ### After the initialization -/

/-- Both chips are initialized for this kernel. -/
structure Pics.Programmed (pics : Pics) : Prop where
  master_ready : pics.master.stage = .ready
  slave_ready : pics.slave.stage = .ready
  master_offset : pics.master.offset = irqBase
  slave_offset : pics.slave.offset = irqBase + 8

/-- The chips behind `idt_init`, whatever they were before. -/
theorem idtInitPorts_spec (pics : Pics) :
    idtInitPorts pics =
      { master :=
          { irr := 0, imr := 0xFF, isr := 0, offset := irqBase, cascade := 4, mode8086 := true
            stage := .ready }
        slave :=
          { irr := 0, imr := 0xFF, isr := 0, offset := irqBase + 8, cascade := 2, mode8086 := true
            stage := .ready } } :=
  rfl

/-! ### Lines -/

theorem firstSet_eq_some {bits : BitVec 8} {line : ℕ} (h : firstSet bits = some line) :
    line < 8 ∧ bits.getLsbD line = true :=
  ⟨List.mem_range.mp (List.mem_of_find?_eq_some h), List.find?_some h⟩

theorem firstSet_isSome {bits : BitVec 8} {line : ℕ} (hline : line < 8)
    (hbit : bits.getLsbD line = true) : ∃ first, firstSet bits = some first := by
  rw [← Option.isSome_iff_exists, firstSet, List.find?_isSome]
  exact ⟨line, List.mem_range.mpr hline, hbit⟩

theorem firstSet_le {bits : BitVec 8} {first line : ℕ} (h : firstSet bits = some first)
    (hbit : bits.getLsbD line = true) : first ≤ line := by
  have hbefore := (List.find?_range_eq_some.mp h).2.2
  refine Nat.le_of_not_lt fun hlt ↦ ?_
  simpa [hbit] using hbefore line hlt

/-- With one line in service, the end of interrupt takes it back. -/
theorem Chip.endOfInterrupt_twoPow {chip : Chip} {line : ℕ} (hline : line < 8)
    (h : chip.isr = BitVec.twoPow 8 line) : chip.endOfInterrupt = { chip with isr := 0 } := by
  have hfirst : ∀ line < 8, firstSet (BitVec.twoPow 8 line) = some line ∧
      BitVec.twoPow 8 line &&& ~~~BitVec.twoPow 8 line = 0 := by decide
  obtain ⟨hset, hclear⟩ := hfirst line hline
  rw [endOfInterrupt, h, hset]
  simp only [hclear]

/-- With nothing in service, an interrupt is pending exactly for the requests that are not masked. -/
theorem Chip.pending_of_isr_zero {chip : Chip} (h : chip.isr = 0) (irr : BitVec 8) :
    chip.pending irr = firstSet (irr &&& ~~~chip.imr) := by
  have hquiet (line : ℕ) : (List.range (line + 1)).any (0 : BitVec 8).getLsbD = false := by
    rw [List.any_eq_false]
    intro i _
    simp
  rw [pending, h]
  cases firstSet (irr &&& ~~~chip.imr) with
  | none => rfl
  | some line => simp only [hquiet line, Bool.false_eq_true, if_false]

theorem Chip.pending_eq_some {chip : Chip} {irr : BitVec 8} (h : chip.isr = 0) {line : ℕ}
    (hpending : chip.pending irr = some line) :
    line < 8 ∧ irr.getLsbD line = true ∧ chip.imr.getLsbD line = false := by
  rw [pending_of_isr_zero h] at hpending
  obtain ⟨hline, hbit⟩ := firstSet_eq_some hpending
  rw [BitVec.getLsbD_and, BitVec.getLsbD_not, Bool.and_eq_true] at hbit
  exact ⟨hline, hbit.1, by simpa [hline] using hbit.2⟩

theorem Chip.exists_pending {chip : Chip} {irr : BitVec 8} (h : chip.isr = 0) {line : ℕ} (hline : line < 8)
    (hirr : irr.getLsbD line = true) (himr : chip.imr.getLsbD line = false) :
    ∃ first, chip.pending irr = some first := by
  rw [pending_of_isr_zero h]
  refine firstSet_isSome hline ?_
  rw [BitVec.getLsbD_and, BitVec.getLsbD_not, hirr, himr]
  simp [hline]

theorem Chip.pending_le {chip : Chip} {irr : BitVec 8} (h : chip.isr = 0) {first line : ℕ}
    (hpending : chip.pending irr = some first) (hline : line < 8) (hirr : irr.getLsbD line = true)
    (himr : chip.imr.getLsbD line = false) : first ≤ line := by
  rw [pending_of_isr_zero h] at hpending
  refine firstSet_le hpending ?_
  rw [BitVec.getLsbD_and, BitVec.getLsbD_not, hirr, himr]
  simp [hline]

/-! ### The mask of a line -/

/-- The two expressions of `irq_set_mask`. -/
def setMaskBit (val : BitVec 8) (bit : ℕ) (masked : Bool) : BitVec 8 :=
  if masked then val ||| BitVec.twoPow 8 bit else val &&& ~~~BitVec.twoPow 8 bit

theorem getLsbD_setMaskBit (val : BitVec 8) {bit i : ℕ} (hi : i < 8) (masked : Bool) :
    (setMaskBit val bit masked).getLsbD i = if i = bit then masked else val.getLsbD i := by
  unfold setMaskBit
  by_cases heq : i = bit
  · subst heq
    cases masked <;> simp [hi]
  · cases masked <;> simp [hi, heq]

namespace Pics

variable {pics : Pics}

/-- `irq_set_mask` on the first chip. -/
theorem irqSetMask_of_lt (h : pics.Programmed) {irq : ℕ} (hirq : irq < 8) (mask : Bool) :
    irqSetMask pics irq mask =
      { pics with master := { pics.master with imr := setMaskBit pics.master.imr irq mask } } := by
  simp [irqSetMask, setMaskBit, outb, inb, Chip.writeData, hirq, h.master_ready]

/-- `irq_set_mask` on the second chip. -/
theorem irqSetMask_of_le (h : pics.Programmed) {irq : ℕ} (hirq : 8 ≤ irq) (mask : Bool) :
    irqSetMask pics irq mask =
      { pics with slave := { pics.slave with imr := setMaskBit pics.slave.imr (irq - 8) mask } } := by
  simp [irqSetMask, setMaskBit, outb, inb, Chip.writeData, Nat.not_lt.mpr hirq, h.slave_ready]

/-- `irq_set_mask` sets the mask of one line. -/
theorem masked_irqSetMask (h : pics.Programmed) {irq line : ℕ} (hline : line < 16) (mask : Bool) :
    (irqSetMask pics irq mask).masked line = if line = irq then mask else pics.masked line := by
  rcases Nat.lt_or_ge irq 8 with hirq | hirq
  · rw [irqSetMask_of_lt h hirq, masked, masked]
    by_cases hlow : line < 8
    · simp only [if_pos hlow]
      exact getLsbD_setMaskBit _ hlow mask
    · rw [if_neg hlow, if_neg hlow, if_neg (by omega)]
  · rw [irqSetMask_of_le h hirq, masked, masked]
    by_cases hlow : line < 8
    · rw [if_pos hlow, if_pos hlow, if_neg (by omega)]
    · simp only [if_neg hlow]
      rw [getLsbD_setMaskBit _ (by omega) mask]
      by_cases heq : line = irq
      · rw [if_pos heq, if_pos (by omega)]
      · rw [if_neg heq, if_neg (by omega)]

/-- What `irq_set_mask` leaves alone. -/
structure SameButMasks (pics pics' : Pics) : Prop where
  master_irr : pics'.master.irr = pics.master.irr
  slave_irr : pics'.slave.irr = pics.slave.irr
  master_isr : pics'.master.isr = pics.master.isr
  slave_isr : pics'.slave.isr = pics.slave.isr
  programmed : pics'.Programmed

theorem sameButMasks_irqSetMask (h : pics.Programmed) (irq : ℕ) (mask : Bool) :
    SameButMasks pics (irqSetMask pics irq mask) := by
  rcases Nat.lt_or_ge irq 8 with hirq | hirq
  · rw [irqSetMask_of_lt h hirq]
    exact ⟨rfl, rfl, rfl, rfl, h.master_ready, h.slave_ready, h.master_offset, h.slave_offset⟩
  · rw [irqSetMask_of_le h hirq]
    exact ⟨rfl, rfl, rfl, rfl, h.master_ready, h.slave_ready, h.master_offset, h.slave_offset⟩

theorem SameButMasks.trans {pics' pics'' : Pics} (h : SameButMasks pics pics')
    (h' : SameButMasks pics' pics'') : SameButMasks pics pics'' :=
  ⟨h'.master_irr.trans h.master_irr, h'.slave_irr.trans h.slave_irr,
    h'.master_isr.trans h.master_isr, h'.slave_isr.trans h.slave_isr, h'.programmed⟩

/-! ### An interrupt, and its end -/

/-- The chips when a line has been acknowledged. -/
def served (pics : Pics) (line : ℕ) : Pics :=
  if line < 8 then { pics with master := pics.master.serve line }
  else { master := pics.master.serve 2, slave := pics.slave.serve (line - 8) }

/-- Nothing is in service. -/
structure Quiet (pics : Pics) : Prop where
  master : pics.master.isr = 0
  slave : pics.slave.isr = 0

theorem acknowledge_eq_some (h : pics.Programmed) (hquiet : pics.Quiet) {vector : ℕ} {pics' : Pics}
    (hack : pics.acknowledge = some (vector, pics')) :
    ∃ line < 16, line ≠ 2 ∧ vector = irqBase + line ∧ pics.requested line = true ∧
      pics.masked line = false ∧ pics' = pics.served line := by
  obtain ⟨line, hline, hrest⟩ := Option.bind_eq_some_iff.mp hack
  obtain ⟨hlt, hirr, himr⟩ := Chip.pending_eq_some hquiet.master hline
  by_cases htwo : line = 2
  · rw [if_pos htwo] at hrest
    obtain ⟨slaveLine, hslave, heq⟩ := Option.map_eq_some_iff.mp hrest
    obtain ⟨rfl, rfl⟩ := Prod.mk.inj heq
    obtain ⟨hslt, hsirr, hsimr⟩ := Chip.pending_eq_some hquiet.slave hslave
    refine ⟨slaveLine + 8, by omega, by omega, ?_, ?_, ?_, ?_⟩
    · rw [h.slave_offset]
      omega
    · rw [requested, if_neg (by omega), Nat.add_sub_cancel, hsirr]
    · rw [masked, if_neg (by omega), Nat.add_sub_cancel, hsimr]
    · rw [served, if_neg (by omega), Nat.add_sub_cancel]
  · rw [if_neg htwo] at hrest
    obtain ⟨rfl, rfl⟩ := Prod.mk.inj (Option.some.inj hrest)
    refine ⟨line, by omega, htwo, by rw [h.master_offset], ?_, ?_, ?_⟩
    · rw [requested, if_pos hlt]
      rw [masterIrr] at hirr
      by_cases hsome : (pics.slave.pending pics.slave.irr).isSome
      · rw [if_pos hsome, BitVec.getLsbD_or] at hirr
        simpa [htwo, Ne.symm htwo, hlt] using hirr
      · rw [if_neg hsome, BitVec.getLsbD_and, Bool.and_eq_true] at hirr
        exact hirr.1
    · rw [masked, if_pos hlt, himr]
    · rw [served, if_pos hlt]

/-- The line of the first chip over which a line comes. -/
def entry (line : ℕ) : ℕ := if line < 8 then line else 2

/-- The order in which lines are taken: those of the second chip come in the place of line 2. -/
def priority (line : ℕ) : ℕ :=
  if line < 2 then line else if 8 ≤ line then line - 6 else line + 7

/-- A line that is requested and not masked gets to the first chip. -/
theorem entry_pending (hquiet : pics.Quiet) {line : ℕ} (hline : line < 16) (htwo : line ≠ 2)
    (hrequested : pics.requested line = true) (hmasked : pics.masked line = false)
    (hcascade : 8 ≤ line → pics.masked 2 = false) :
    pics.masterIrr.getLsbD (entry line) = true ∧ pics.master.imr.getLsbD (entry line) = false := by
  rw [requested] at hrequested
  rw [masked] at hmasked
  unfold entry
  by_cases hlow : line < 8
  · rw [if_pos hlow] at hrequested hmasked ⊢
    refine ⟨?_, hmasked⟩
    rw [masterIrr]
    by_cases hslave : (pics.slave.pending pics.slave.irr).isSome
    · rw [if_pos hslave, BitVec.getLsbD_or, hrequested, Bool.true_or]
    · rw [if_neg hslave]
      simp [hrequested, htwo, hlow]
  · rw [if_neg hlow] at hrequested hmasked ⊢
    obtain ⟨first, hfirst⟩ := Chip.exists_pending hquiet.slave (by omega) hrequested hmasked
    refine ⟨?_, hcascade (by omega)⟩
    rw [masterIrr, hfirst, Option.isSome_some, if_pos rfl, BitVec.getLsbD_or]
    simp

theorem entry_lt (line : ℕ) : entry line < 8 := by
  unfold entry
  split_ifs <;> omega

/-- With nothing in service, a line that is requested and not masked is not held up. -/
theorem exists_acknowledge (hquiet : pics.Quiet) {line : ℕ} (hline : line < 16) (htwo : line ≠ 2)
    (hrequested : pics.requested line = true) (hmasked : pics.masked line = false)
    (hcascade : 8 ≤ line → pics.masked 2 = false) : pics.acknowledge.isSome := by
  obtain ⟨hentry, hopen⟩ := entry_pending hquiet hline htwo hrequested hmasked hcascade
  obtain ⟨first, hfirst⟩ := Chip.exists_pending hquiet.master (entry_lt line) hentry hopen
  rw [acknowledge, hfirst, Option.bind_some]
  by_cases hfirstTwo : first = 2
  · obtain ⟨-, hirr, -⟩ := Chip.pending_eq_some hquiet.master hfirst
    rw [if_pos hfirstTwo, Option.isSome_map]
    by_cases hslave : (pics.slave.pending pics.slave.irr).isSome
    · exact hslave
    · rw [masterIrr, if_neg hslave, hfirstTwo] at hirr
      simp at hirr
  · rw [if_neg hfirstTwo]
    rfl

/-- The line that is acknowledged comes first among those that are requested and not masked. -/
theorem priority_le (h : pics.Programmed) (hquiet : pics.Quiet) {first line : ℕ} {pics' : Pics}
    (hack : pics.acknowledge = some (irqBase + first, pics')) (hline : line < 16) (htwo : line ≠ 2)
    (hrequested : pics.requested line = true) (hmasked : pics.masked line = false)
    (hcascade : 8 ≤ line → pics.masked 2 = false) : priority first ≤ priority line := by
  obtain ⟨hentry, hopen⟩ := entry_pending hquiet hline htwo hrequested hmasked hcascade
  obtain ⟨top, htop, hrest⟩ := Option.bind_eq_some_iff.mp hack
  have hle := Chip.pending_le hquiet.master htop (entry_lt line) hentry hopen
  have hlt := (Chip.pending_eq_some hquiet.master htop).1
  unfold entry at hle
  by_cases htopTwo : top = 2
  · rw [if_pos htopTwo] at hrest
    obtain ⟨slaveLine, hslave, heq⟩ := Option.map_eq_some_iff.mp hrest
    have hvector := (Prod.mk.inj heq).1
    have hslt := (Chip.pending_eq_some hquiet.slave hslave).1
    have hbehind : 8 ≤ line → slaveLine ≤ line - 8 := by
      intro hhigh
      rw [requested, if_neg (by omega)] at hrequested
      rw [masked, if_neg (by omega)] at hmasked
      exact Chip.pending_le hquiet.slave hslave (by omega) hrequested hmasked
    rw [h.slave_offset] at hvector
    unfold priority
    split_ifs at hle ⊢ <;> omega
  · rw [if_neg htopTwo] at hrest
    have hvector := (Prod.mk.inj (Option.some.inj hrest)).1
    rw [h.master_offset] at hvector
    unfold priority
    split_ifs at hle ⊢ <;> omega

theorem requested_served {line other : ℕ} (hline : line < 16) (hother : other < 16) (htwo : other ≠ 2) :
    (pics.served line).requested other = if other = line then false else pics.requested other := by
  have hserve (chip : Chip) {i j : ℕ} (hj : j < 8) :
      (chip.serve i).irr.getLsbD j = if j = i then false else chip.irr.getLsbD j := by
    by_cases heq : j = i <;> simp [Chip.serve, hj, heq]
  rw [served, requested, requested]
  by_cases hlow : other < 8
  · rw [if_pos hlow, if_pos hlow]
    by_cases hlineLow : line < 8
    · rw [if_pos hlineLow]
      exact hserve pics.master hlow
    · rw [if_neg hlineLow, hserve pics.master hlow, if_neg htwo, if_neg (by omega)]
  · rw [if_neg hlow, if_neg hlow]
    by_cases hlineLow : line < 8
    · rw [if_pos hlineLow, if_neg (by omega)]
    · rw [if_neg hlineLow, hserve pics.slave (by omega)]
      by_cases heq : other = line
      · rw [if_pos heq, if_pos (by omega)]
      · rw [if_neg heq, if_neg (by omega)]

/-- An acknowledged interrupt is the only one in service. -/
structure Serving (pics : Pics) (line : ℕ) : Prop where
  programmed : pics.Programmed
  master : pics.master.isr = BitVec.twoPow 8 (if line < 8 then line else 2)
  slave : pics.slave.isr = if line < 8 then 0 else BitVec.twoPow 8 (line - 8)

theorem serving_served (h : pics.Programmed) (hquiet : pics.Quiet) (line : ℕ) :
    (pics.served line).Serving line := by
  unfold served
  by_cases hlow : line < 8
  · rw [if_pos hlow]
    refine ⟨⟨h.master_ready, h.slave_ready, h.master_offset, h.slave_offset⟩, ?_, ?_⟩
    · simp [Chip.serve, hquiet.master, hlow]
    · simp [hquiet.slave, hlow]
  · rw [if_neg hlow]
    refine ⟨⟨h.master_ready, h.slave_ready, h.master_offset, h.slave_offset⟩, ?_, ?_⟩
    · simp [Chip.serve, hquiet.master, hlow]
    · simp [Chip.serve, hquiet.slave, hlow]

/-- The masks and the requests are the same. -/
structure SameLines (pics pics' : Pics) : Prop where
  masked : ∀ line, pics'.masked line = pics.masked line
  requested : ∀ line, pics'.requested line = pics.requested line

theorem masked_served (line other : ℕ) : (pics.served line).masked other = pics.masked other := by
  unfold served masked
  by_cases hlow : line < 8
  · rw [if_pos hlow]
    rfl
  · rw [if_neg hlow]
    rfl

/-- `isr_handler` ends the interrupt at the chip, or the chips, that have it in service. -/
theorem isrEndOfInterrupt_spec {line : ℕ} (h : pics.Serving line) (hline : line < 16) :
    (isrEndOfInterrupt pics line).Programmed ∧ (isrEndOfInterrupt pics line).Quiet ∧
      SameLines pics (isrEndOfInterrupt pics line) := by
  have hslaveEnd : (pics.outb 0xA0 0x20#8) = { pics with slave := pics.slave.endOfInterrupt } := by
    simp [outb, Chip.writeCommand]
  have hmasterEnd (pics : Pics) :
      pics.outb 0x20 0x20#8 = { pics with master := pics.master.endOfInterrupt } := by
    simp [outb, Chip.writeCommand]
  obtain ⟨hprogrammed, hmaster, hslave⟩ := h
  obtain ⟨hmr, hsr, hmo, hso⟩ := hprogrammed
  unfold isrEndOfInterrupt
  by_cases hlow : line < 8
  · rw [if_pos hlow] at hmaster hslave
    rw [if_neg (by omega), hmasterEnd, Chip.endOfInterrupt_twoPow hlow hmaster]
    exact ⟨⟨hmr, hsr, hmo, hso⟩, ⟨rfl, hslave⟩, ⟨fun _ ↦ rfl, fun _ ↦ rfl⟩⟩
  · rw [if_neg hlow] at hmaster hslave
    rw [if_pos (by omega), hslaveEnd, hmasterEnd, Chip.endOfInterrupt_twoPow (by decide) hmaster,
      Chip.endOfInterrupt_twoPow (by omega) hslave]
    exact ⟨⟨hmr, hsr, hmo, hso⟩, ⟨rfl, rfl⟩, ⟨fun _ ↦ rfl, fun _ ↦ rfl⟩⟩

theorem requested_request {line other : ℕ} (hline : line < 16) (hother : other < 16) :
    (pics.request line).requested other = (decide (other = line) || pics.requested other) := by
  have hset (bits : BitVec 8) {i j : ℕ} (hj : j < 8) :
      (bits ||| BitVec.twoPow 8 i).getLsbD j = (decide (j = i) || bits.getLsbD j) := by
    by_cases heq : j = i
    · subst heq
      simp [hj]
    · simp [hj, heq]
  rw [request, requested, requested]
  by_cases hlow : other < 8
  · rw [if_pos hlow, if_pos hlow]
    by_cases hlineLow : line < 8
    · rw [if_pos hlineLow]
      exact hset _ hlow
    · rw [if_neg hlineLow, decide_eq_false (by omega), Bool.false_or]
  · rw [if_neg hlow, if_neg hlow]
    by_cases hlineLow : line < 8
    · rw [if_pos hlineLow, decide_eq_false (by omega), Bool.false_or]
    · rw [if_neg hlineLow, hset _ (by omega)]
      congr 2
      exact propext (by omega)

theorem masked_request (line other : ℕ) : (pics.request line).masked other = pics.masked other := by
  unfold request masked
  by_cases hlow : line < 8
  · rw [if_pos hlow]
  · rw [if_neg hlow]

/-- A request leaves what is in service and the state of the chips alone. -/
theorem request_chips (line : ℕ) :
    (pics.request line).master.isr = pics.master.isr ∧ (pics.request line).slave.isr = pics.slave.isr ∧
      (pics.Programmed → (pics.request line).Programmed) := by
  unfold request
  by_cases hlow : line < 8
  · rw [if_pos hlow]
    exact ⟨rfl, rfl, fun h ↦ ⟨h.master_ready, h.slave_ready, h.master_offset, h.slave_offset⟩⟩
  · rw [if_neg hlow]
    exact ⟨rfl, rfl, fun h ↦ ⟨h.master_ready, h.slave_ready, h.master_offset, h.slave_offset⟩⟩

end Pics

end MegKer.Drivers
