import MegKer.Kernel.ExceptionVectors
import Mathlib.Tactic.SplitIfs

/-!
# The entry into a process on aarch64

`enter_usermode` of `arch/aarch64/boot/usermode.S`, which sets up the registers of an exception return by
hand. Interrupts are enabled all the while, and the registers are not part of what an interrupt gives
back: there is one `ELR_EL1` and one `SPSR_EL1`, and the interrupt leaves its own values in them.

So it matters where interrupts come. `EntryRun` is any run of the five instructions with any interrupts
between them, each with a handler that keeps its frame, and remembers whether one came after
`msr elr_el1, x0`. Without such a late interrupt, the `eret` goes to the entry of the process in EL0 with
interrupts enabled; with one, it goes back into `enter_usermode` itself, in EL0, where this code cannot be
executed, or in EL1 to the `eret` again, without end (`enterUsermode_iff`).
-/

set_option autoImplicit false
set_option relaxedAutoImplicit false

namespace MegKer.Process.AArch64

open Foundation Kernel.AArch64

/-! ### The code -/

/-- The instructions of `enter_usermode`. -/
inductive EntryInstr
  /-- `msr sp_el0, src` -/
  | msrSpEl0 (src : Reg)
  /-- `mov dst, #value` -/
  | movImm (dst : Reg) (value : ℕ)
  | trap (instr : TrapInstr)
  | eret

/-- The processor. -/
abbrev Machine := Cpu Reg × ExceptionState

/-- What an instruction does in EL1, and the instruction behind it is next. -/
def entryExec (s : Machine) : EntryInstr → Machine
  | .msrSpEl0 src => (s.1.setPc (s.1.pc + 4), { s.2 with bankedSp := s.1.reg src })
  | .movImm dst value => ((s.1.set dst value).setPc (s.1.pc + 4), s.2)
  | .trap instr => ((trapExec s instr).1.setPc (s.1.pc + 4), (trapExec s instr).2)
  | .eret => eret s.1 s.2

def enterUsermode : List EntryInstr :=
  [.msrSpEl0 1, .trap (.msrElr 0), .movImm 2 0, .trap (.msrSpsr 2), .eret]

/-! ### Interrupts -/

/-- What comes back to `kernel_exit` from the handler of an interrupt: the stack pointer and the frame
are those of `kernel_entry`, and nothing has been done to the stack pointer of EL0. -/
structure HandlerReturns (vector : ℕ) (s : Machine) (back : Machine) : Prop where
  sp : back.1.sp = (exceptionEntry vector s.1 s.2).1.sp
  frame : ∀ a, s.1.sp - 272 ≤ a → a < s.1.sp → back.1.mem a = (exceptionEntry vector s.1 s.2).1.mem a
  bankedSp : back.2.bankedSp = (exceptionEntry vector s.1 s.2).2.bankedSp

/-- The processor is in `enter_usermode`: in EL1 with interrupts enabled, and with room on the stack for an
interrupt. -/
structure InKernel (s : Machine) : Prop where
  level : exceptionLevel s.2.pstate = 1
  unmasked : s.2.pstate.testBit 7 = false
  room : 272 ≤ s.1.sp
  lt : s.1.sp < 2 ^ 64

/-- The entry and the exit leave the other stack pointer alone. -/
theorem trapRun_bankedSp (code : List TrapInstr) (s : Machine) :
    (trapRun code s).2.bankedSp = s.2.bankedSp := by
  induction code generalizing s with
  | nil => rfl
  | cons instr code ih =>
    have hinstr : (trapExec s instr).2.bankedSp = s.2.bankedSp := by cases instr <;> rfl
    exact (ih (trapExec s instr)).trans hinstr

/-- An interrupt gives everything back but the registers of an exception, in which it leaves where it came
from. -/
theorem interrupted_spec {vector : ℕ} {s back : Machine} (hs : InKernel s)
    (hback : HandlerReturns vector s back) :
    exceptionExit back.1 back.2 =
      (⟨s.1.reg, s.1.sp, s.1.pc, true, back.1.mem⟩, ⟨s.1.pc, s.2.pstate, s.2.pstate, s.2.bankedSp⟩) := by
  obtain ⟨hsp, hframe, -⟩ := (trapPort_correct vector).saves s.1 s.2 hs.level hs.room hs.lt
  change (exceptionEntry vector s.1 s.2).1.sp = s.1.sp - 272 at hsp
  change FrameAt (exceptionEntry vector s.1 s.2).1.mem (s.1.sp - 272)
    (aarch64RegsT s.1.reg s.1.pc s.2.pstate) at hframe
  have hbackSp : back.1.sp = s.1.sp - 272 := hback.sp.trans hsp
  have hwords : FrameAt back.1.mem back.1.sp (aarch64RegsT s.1.reg s.1.pc s.2.pstate) := by
    rw [hbackSp]
    refine hframe.congr fun a hlow hlt ↦ hback.frame a hlow ?_
    have hlength : (aarch64RegsT s.1.reg s.1.pc s.2.pstate).length = 33 := rfl
    have hroom := hs.room
    rw [hlength] at hlt
    omega
  have hlt := hs.lt
  have hroom := hs.room
  obtain ⟨hreg, hexitSp, hmem, hstate⟩ := @kernelExit_spec back.1 back.2 _ _ _ (by omega) hwords
  have hbanked : back.2.bankedSp = s.2.bankedSp := by
    rw [hback.bankedSp, exceptionEntry, trapRun_bankedSp]
    simp [takeException, hs.level]
  simp only [exceptionExit, eret, hreg, hexitSp, hmem, hstate, hs.level, hs.unmasked, hbackSp, hbanked,
    if_neg Nat.one_ne_zero, Nat.sub_add_cancel hroom, Bool.not_false]

/-! ### All runs -/

/-- Runs of `enter_usermode` at a label, up to its last instruction, with the interrupts that come on the
way. The flag says whether there was one after `ELR_EL1` was written. -/
inductive EntryRun (vector label : ℕ) : Machine → Bool → Machine → Prop
  | start (s : Machine) : EntryRun vector label s false s
  | execute {s s' : Machine} {late : Bool} {i : ℕ} {instr : EntryInstr}
      (hrun : EntryRun vector label s late s') (hpc : s'.1.pc = label + 4 * i) (hinstr : enterUsermode[i]? = some instr) (hlast : i < 4) :
      EntryRun vector label s late (entryExec s' instr)
  | interrupt {s s' back : Machine} {late : Bool} (hrun : EntryRun vector label s late s')
      (hback : HandlerReturns vector s' back) :
      EntryRun vector label s (late || decide (label + 8 ≤ s'.1.pc)) (exceptionExit back.1 back.2)

/-- The invariant of the runs, after some instructions. A late interrupt has left in the registers of an
exception where it came from. -/
structure Entering (label : ℕ) (s₀ : Machine) (late : Bool) (s : Machine) (i : ℕ) : Prop where
  pc : s.1.pc = label + 4 * i
  last : i ≤ 4
  pstate : s.2.pstate = s₀.2.pstate
  sp : s.1.sp = s₀.1.sp
  entry : s.1.reg 0 = s₀.1.reg 0
  userStack : s.1.reg 1 = s₀.1.reg 1
  spEl0 : 1 ≤ i → s.2.bankedSp = s₀.1.reg 1
  elr : late = false → 2 ≤ i → s.2.elr = s₀.1.reg 0
  x2 : 3 ≤ i → s.1.reg 2 = 0
  spsr : late = false → 4 ≤ i → s.2.spsr = 0
  lostElr : late = true → label + 8 ≤ s.2.elr ∧ s.2.elr ≤ label + 4 * i
  lostSpsr : late = true → 4 ≤ i → s.2.spsr = if s.2.elr = label + 16 then s₀.2.pstate else 0

section Steps

variable {vector label : ℕ} {s₀ s : Machine} {late : Bool} {i : ℕ}

theorem Entering.inKernel (h : Entering label s₀ late s i) (hs₀ : InKernel s₀) : InKernel s := by
  obtain ⟨hlevel, hunmasked, hroom, hlt⟩ := hs₀
  rw [← h.pstate] at hlevel hunmasked
  rw [← h.sp] at hroom hlt
  exact ⟨hlevel, hunmasked, hroom, hlt⟩

/-- Late is what is behind the second instruction. -/
theorem Entering.two_le (h : Entering label s₀ late s i) (hlate : late = true) : 2 ≤ i := by
  have hbounds := h.lostElr hlate
  omega

theorem Entering.execute {instr : EntryInstr} (h : Entering label s₀ late s i)
    (hinstr : enterUsermode[i]? = some instr) (hlast : i < 4) :
    Entering label s₀ late (entryExec s instr) (i + 1) := by
  have hpc : s.1.pc + 4 = label + 4 * (i + 1) := by
    rw [h.pc]
    ring
  have hlate : late = true → 2 ≤ i := h.two_le
  match i, hlast with
  | 0, _ =>
    obtain rfl := Option.some.inj hinstr
    exact ⟨hpc, by omega, h.pstate, h.sp, h.entry, h.userStack, fun _ ↦ h.userStack,
      fun _ hi ↦ by omega, fun hi ↦ by omega, fun _ hi ↦ by omega,
      fun hl ↦ absurd (hlate hl) (by omega), fun hl ↦ absurd (hlate hl) (by omega)⟩
  | 1, _ =>
    obtain rfl := Option.some.inj hinstr
    exact ⟨hpc, by omega, h.pstate, h.sp, h.entry, h.userStack, fun _ ↦ h.spEl0 le_rfl,
      fun _ _ ↦ h.entry, fun hi ↦ by omega, fun _ hi ↦ by omega,
      fun hl ↦ absurd (hlate hl) (by omega), fun hl ↦ absurd (hlate hl) (by omega)⟩
  | 2, _ =>
    obtain rfl := Option.some.inj hinstr
    exact ⟨hpc, by omega, h.pstate, h.sp, h.entry, h.userStack, fun _ ↦ h.spEl0 (by omega),
      fun hl _ ↦ h.elr hl le_rfl, fun _ ↦ rfl, fun _ hi ↦ by omega,
      fun hl ↦ ⟨(h.lostElr hl).1, (h.lostElr hl).2.trans (by omega)⟩, fun _ hi ↦ by omega⟩
  | 3, _ =>
    obtain rfl := Option.some.inj hinstr
    refine ⟨hpc, by omega, h.pstate, h.sp, h.entry, h.userStack, fun _ ↦ h.spEl0 (by omega),
      fun hl _ ↦ h.elr hl (by omega), fun _ ↦ h.x2 le_rfl, fun _ _ ↦ h.x2 le_rfl,
      fun hl ↦ ⟨(h.lostElr hl).1, (h.lostElr hl).2.trans (by omega)⟩, fun hl _ ↦ ?_⟩
    have hbounds := (h.lostElr hl).2
    have hnot : ¬ s.2.elr = label + 16 := by omega
    exact (h.x2 le_rfl).trans (if_neg hnot).symm

/-- An interrupt leaves its own values in the registers of an exception, which matters from the third
instruction on. -/
theorem Entering.interrupt {back : Machine} (h : Entering label s₀ late s i) (hs₀ : InKernel s₀)
    (hback : HandlerReturns vector s back) :
    Entering label s₀ (late || decide (label + 8 ≤ s.1.pc)) (exceptionExit back.1 back.2) i := by
  rw [interrupted_spec (h.inKernel hs₀) hback]
  have hpc := h.pc
  have hlast := h.last
  have hlate : (late || decide (label + 8 ≤ s.1.pc)) = true → 2 ≤ i := by
    intro hl
    rcases Bool.or_eq_true_iff.mp hl with hold | hnew
    · exact h.two_le hold
    · have hle := of_decide_eq_true hnew
      omega
  have hearly : (late || decide (label + 8 ≤ s.1.pc)) = false → ¬ 2 ≤ i := by
    intro hl hi
    have hnew := (Bool.or_eq_false_iff.mp hl).2
    exact of_decide_eq_false hnew (by omega)
  refine ⟨hpc, hlast, h.pstate, h.sp, h.entry, h.userStack, h.spEl0, fun hl hi ↦ absurd hi (hearly hl),
    h.x2, fun hl hi ↦ absurd (by omega : 2 ≤ i) (hearly hl), fun hl ↦ ?_, fun hl hi ↦ ?_⟩
  · have hi := hlate hl
    dsimp only
    omega
  · dsimp only
    rw [if_pos (by omega)]
    exact h.pstate

theorem entering_run (hs₀ : InKernel s₀) (hstart : s₀.1.pc = label)
    (hrun : EntryRun vector label s₀ late s) : ∃ i, Entering label s₀ late s i := by
  induction hrun with
  | start =>
    exact ⟨0, hstart, by omega, rfl, rfl, rfl, rfl, fun hi ↦ by omega, fun _ hi ↦ by omega,
      fun hi ↦ by omega, fun _ hi ↦ by omega, fun hl ↦ Bool.noConfusion hl,
      fun hl ↦ Bool.noConfusion hl⟩
  | @execute s' late i instr hrun hpc hinstr hlast ih =>
    obtain ⟨j, h⟩ := ih
    have hj := h.pc
    obtain rfl : i = j := by omega
    exact ⟨i + 1, h.execute hinstr hlast⟩
  | interrupt hrun hback ih =>
    obtain ⟨j, h⟩ := ih
    exact ⟨j, h.interrupt hs₀ hback⟩

end Steps

/-- Let `enter_usermode` be called in EL1 with interrupts enabled, with an entry outside of its own last
instructions. In every run that gets to the `eret`, with any interrupts on the way: the `eret` goes to the
entry, in EL0 on the stack of the process and with interrupts enabled, exactly when no interrupt came after
`msr elr_el1, x0`. When one did, it goes back to the instruction before which the last one came, and into
EL0 as well unless that is the `eret`, which is then executed again in EL1. -/
theorem enterUsermode_iff (vector label : ℕ) (s₀ : Machine) (hs₀ : InKernel s₀)
    (hstart : s₀.1.pc = label) (hentry : s₀.1.reg 0 < label + 8 ∨ label + 16 < s₀.1.reg 0) (late : Bool)
    (s : Machine) (hrun : EntryRun vector label s₀ late s) (hpc : s.1.pc = label + 16) :
    let done := entryExec s .eret
    (late = false ↔ done.1.pc = s₀.1.reg 0) ∧
    (late = false → exceptionLevel done.2.pstate = 0 ∧ done.1.sp = s₀.1.reg 1 ∧
      done.1.interrupts = true) ∧
    (late = true → label + 8 ≤ done.1.pc ∧ done.1.pc ≤ label + 16 ∧
      (done.1.pc = label + 16 → entryExec done .eret = done) ∧
      (done.1.pc ≠ label + 16 → exceptionLevel done.2.pstate = 0)) := by
  obtain ⟨i, h⟩ := entering_run hs₀ hstart hrun
  have hi := h.pc
  obtain rfl : i = 4 := by omega
  have hlevel := hs₀.level
  intro done
  have hdone : done.1.pc = s.2.elr := rfl
  have hstatus : done.2.pstate = s.2.spsr := rfl
  have hearly : late = false → done.1.pc = s₀.1.reg 0 := fun hl ↦ h.elr hl (by omega)
  have hlate : late = true → label + 8 ≤ done.1.pc ∧ done.1.pc ≤ label + 16 := h.lostElr
  refine ⟨⟨hearly, fun hpc' ↦ ?_⟩, fun hl ↦ ?_, fun hl ↦ ⟨(hlate hl).1, (hlate hl).2, fun hback ↦ ?_,
    fun hback ↦ ?_⟩⟩
  · rw [← Bool.not_eq_true]
    intro hl
    obtain ⟨hlow, hhigh⟩ := hlate hl
    omega
  · have hzero := h.spsr hl le_rfl
    have hsp : done.1.sp = if exceptionLevel s.2.spsr = 0 then s.2.bankedSp else s.1.sp := rfl
    have hmask : done.1.interrupts = !s.2.spsr.testBit 7 := rfl
    rw [hstatus, hsp, hmask, hzero, h.spEl0 (by omega)]
    exact ⟨rfl, rfl, rfl⟩
  · have hspsr := h.lostSpsr hl le_rfl
    rw [if_pos (hdone.symm.trans hback)] at hspsr
    have hkernel : ¬ exceptionLevel s.2.spsr = 0 := by
      rw [hspsr, hlevel]
      exact Nat.one_ne_zero
    simp only [done, entryExec, eret, if_neg hkernel]
  · have hspsr := h.lostSpsr hl le_rfl
    rw [if_neg (hdone ▸ hback)] at hspsr
    rw [hstatus, hspsr]
    rfl

/-- A call of `enter_usermode` at address 1000, with the entry 5000 and the stack 7000. -/
def calledAt : Machine :=
  (⟨fun r ↦ if r = 0 then 5000 else if r = 1 then 7000 else 9, 4096, 1000, true, fun _ ↦ 0⟩, ⟨0, 0, 5, 0⟩)

/-- The state before `msr spsr_el1, x2`. -/
def beforeSpsr : Machine :=
  entryExec (entryExec (entryExec calledAt (.msrSpEl0 1)) (.trap (.msrElr 0))) (.movImm 2 0)

/-- The timer comes before `msr spsr_el1, x2`. The processor is in EL0 then, but not in the process. -/
theorem enterUsermode_iff_timer : ∃ s, EntryRun 640 1000 calledAt true s ∧
    (entryExec s .eret).1.pc ≠ 5000 ∧ 1008 ≤ (entryExec s .eret).1.pc ∧
    (entryExec s .eret).1.pc ≤ 1016 := by
  have hback : HandlerReturns 640 beforeSpsr (exceptionEntry 640 beforeSpsr.1 beforeSpsr.2) :=
    ⟨rfl, fun _ _ _ ↦ rfl, rfl⟩
  have hinterrupted := interrupted_spec ⟨rfl, rfl, by decide, by decide⟩ hback
  have hbefore : EntryRun 640 1000 calledAt false beforeSpsr :=
    .execute (.execute (.execute (.start calledAt) (by decide) (i := 0) rfl (by decide)) (by decide)
      (i := 1) rfl (by decide)) (by decide) (i := 2) rfl (by decide)
  have hlate : EntryRun 640 1000 calledAt true _ := .interrupt hbefore hback
  have hpc : (exceptionExit (exceptionEntry 640 beforeSpsr.1 beforeSpsr.2).1
      (exceptionEntry 640 beforeSpsr.1 beforeSpsr.2).2).1.pc = 1012 := by
    rw [hinterrupted]
    rfl
  have hrun : EntryRun 640 1000 calledAt true (entryExec _ (.trap (.msrSpsr 2))) :=
    .execute hlate (i := 3) hpc rfl (by decide)
  have hend : (entryExec (exceptionExit (exceptionEntry 640 beforeSpsr.1 beforeSpsr.2).1
      (exceptionEntry 640 beforeSpsr.1 beforeSpsr.2).2) (.trap (.msrSpsr 2))).1.pc = 1000 + 16 := by
    change (exceptionExit (exceptionEntry 640 beforeSpsr.1 beforeSpsr.2).1
      (exceptionEntry 640 beforeSpsr.1 beforeSpsr.2).2).1.pc + 4 = 1000 + 16
    rw [hpc]
  obtain ⟨hiff, -, hlost⟩ := enterUsermode_iff 640 1000 calledAt ⟨rfl, rfl, by decide, by decide⟩ rfl
    (Or.inr (by decide)) true _ hrun hend
  obtain ⟨hlow, hhigh, -⟩ := hlost rfl
  exact ⟨_, hrun, fun h ↦ Bool.noConfusion (hiff.mpr h), hlow, hhigh⟩

end MegKer.Process.AArch64
