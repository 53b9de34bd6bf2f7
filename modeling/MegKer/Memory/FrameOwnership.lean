import MegKer.Memory.FrameAllocator

/-!
# Who holds which frames

`mm/pmm.c` does not record to whom it handed a frame; that the same frame is never in two hands is
a property of whole runs. This module adds the record. A `Ledger` is an allocator together with
the spans of frames its callers currently hold. An allocation that returns an address adds a span,
and a caller may give back any part of a span it holds, in one call or frame by frame, which
leaves the rest of the span held (`Ledger.Allowed`, `Ledger.step`).

`Ledger.Exclusive start` is the ownership invariant, relative to the state `start` right after
`pmm_init`: the held spans are frame-aligned, not at address 0, pairwise disjoint, and the free
frames are exactly the frames that were free at the start and that no held span contains. The two
moves of the abstract ledger, handing out a span of free frames and taking back part of a held
span, keep it (`Exclusive.grant`, `Exclusive.release`); `exclusive_of_reachable` is the run
statement and `held_spans_exclusive` spells it out.

That no frame is handed out at address 0, which callers read as out of memory, needs frame 0 not to
be free, and the two architectures pass regions with bases of at least 4096.
-/

set_option autoImplicit false
set_option relaxedAutoImplicit false

namespace MegKer.Memory

open Foundation Finset

/-! ### Spans and the ledger -/

/-- A span of `count` frames at the byte address `addr`, as a caller of the allocator holds it. -/
structure Span where
  addr : ℕ
  count : ℕ
  deriving DecidableEq, Repr

/-- The frames of a span. -/
def Span.frames (span : Span) : Finset ℕ :=
  Ico (span.addr / frameSize) (span.addr / frameSize + span.count)

theorem Span.mem_frames {span : Span} {f : ℕ} :
    f ∈ span.frames ↔ span.addr / frameSize ≤ f ∧ f < span.addr / frameSize + span.count :=
  mem_Ico

/-- The parts of a span before and after the frames `[first, first + count)`. -/
def Span.cut (span : Span) (first count : ℕ) : List Span :=
  [⟨span.addr, first - span.addr / frameSize⟩,
    ⟨(first + count) * frameSize, span.addr / frameSize + span.count - (first + count)⟩].filter
      fun part ↦ part.count ≠ 0

/-- The allocator and the spans its callers currently hold. -/
structure Ledger where
  pmm : Pmm
  held : List Span

/-- A call by some caller. A call that frees names the held span it gives frames back from. -/
inductive LedgerCall
  | allocFrame
  | allocFrames (count : ℕ)
  | freeFrame (span : Span) (addr : ℕ)
  | freeFrames (span : Span) (addr count : ℕ)

/-- The record after an allocation returned `addr`: 0 means that nothing was handed out. -/
def Ledger.grant (l : Ledger) (result : Pmm × ℕ) (count : ℕ) : Ledger :=
  { pmm := result.1
    held := if result.2 = 0 then l.held else ⟨result.2, count⟩ :: l.held }

/-- The record after `count` frames from `first` on were given back out of `span`. -/
def Ledger.release (l : Ledger) (pmm : Pmm) (span : Span) (first count : ℕ) : Ledger :=
  { pmm := pmm
    held := span.cut first count ++ l.held.erase span }

def Ledger.step (l : Ledger) : LedgerCall → Ledger
  | .allocFrame => l.grant (pmmAllocFrame l.pmm) 1
  | .allocFrames count => l.grant (pmmAllocFrames l.pmm count) count
  | .freeFrame span addr => l.release (pmmFreeFrame l.pmm addr) span (addr / frameSize) 1
  | .freeFrames span addr count =>
    l.release (pmmFreeFrames l.pmm addr count) span (addr / frameSize) count

/-- Callers free only frames of a span that is currently held. -/
def Ledger.Allowed (l : Ledger) : LedgerCall → Prop
  | .allocFrame => True
  | .allocFrames _ => True
  | .freeFrame span addr => span ∈ l.held ∧ addr / frameSize ∈ span.frames
  | .freeFrames span addr count =>
    span ∈ l.held ∧ span.addr / frameSize ≤ addr / frameSize ∧
      addr / frameSize + count ≤ span.addr / frameSize + span.count

instance (l : Ledger) : DecidablePred l.Allowed
  | .allocFrame => inferInstanceAs (Decidable True)
  | .allocFrames _ => inferInstanceAs (Decidable True)
  | .freeFrame _ _ => inferInstanceAs (Decidable (_ ∧ _))
  | .freeFrames _ _ _ => inferInstanceAs (Decidable (_ ∧ _ ∧ _))

/-- The ledgers that runs of allowed calls reach from `start`, when nothing is held. -/
inductive Ledger.Reachable (start : Pmm) : Ledger → Prop
  | init : Ledger.Reachable start ⟨start, []⟩
  | step {l : Ledger} (call : LedgerCall) (hl : Ledger.Reachable start l)
      (hallowed : l.Allowed call) : Ledger.Reachable start (l.step call)

/-! ### The ownership invariant -/

/-- What holds of every held span: it is frame-aligned, not at address 0, has at least one frame,
and its frames were free at the start. -/
structure Span.Granted (start : Pmm) (span : Span) : Prop where
  aligned : span.addr % frameSize = 0
  addr_ne_zero : span.addr ≠ 0
  count_pos : 0 < span.count
  frames_subset : span.frames ⊆ freeSet start

/-- A granted span lies wholly below `total_frames`. -/
theorem Span.Granted.le_totalFrames {start : Pmm} {span : Span} (h : span.Granted start) :
    span.addr / frameSize + span.count ≤ start.totalFrames := by
  have hpos := h.count_pos
  have hmem : span.addr / frameSize + (span.count - 1) ∈ freeSet start :=
    h.frames_subset (Span.mem_frames.mpr ⟨Nat.le_add_right _ _, by omega⟩)
  have hlt := (mem_freeSet.mp hmem).1
  omega

/-- The ownership invariant. -/
structure Ledger.Exclusive (start : Pmm) (l : Ledger) : Prop where
  totalFrames_eq : l.pmm.totalFrames = start.totalFrames
  bitmapBase_eq : l.pmm.bitmapBase = start.bitmapBase
  bitmapBytes_eq : l.pmm.bitmapBytes = start.bitmapBytes
  granted : ∀ span ∈ l.held, span.Granted start
  disjoint : l.held.Pairwise fun first second ↦ Disjoint first.frames second.frames
  free_iff : ∀ f, f ∈ freeSet l.pmm ↔ f ∈ freeSet start ∧ ∀ span ∈ l.held, f ∉ span.frames

theorem Ledger.exclusive_init (start : Pmm) : Ledger.Exclusive start ⟨start, []⟩ where
  totalFrames_eq := rfl
  bitmapBase_eq := rfl
  bitmapBytes_eq := rfl
  granted := fun span hspan ↦ absurd hspan (by simp)
  disjoint := List.Pairwise.nil
  free_iff := fun f ↦ by simp

variable {start : Pmm} {l : Ledger}

/-- Handing out a span of free frames keeps the invariant. -/
theorem Ledger.Exclusive.grant (h : l.Exclusive start) {pmm : Pmm} {first count : ℕ}
    (hfirst : 0 < first) (hcount : 0 < count) (hrun : Ico first (first + count) ⊆ freeSet l.pmm)
    (hbecomes : Becomes l.pmm pmm (freeSet l.pmm \ Ico first (first + count))) :
    Ledger.Exclusive start ⟨pmm, ⟨first * frameSize, count⟩ :: l.held⟩ := by
  have hframes : (Span.mk (first * frameSize) count).frames = Ico first (first + count) := by
    rw [Span.frames, Nat.mul_div_cancel _ (by norm_num)]
  refine ⟨hbecomes.totalFrames_eq.trans h.totalFrames_eq,
    hbecomes.bitmapBase_eq.trans h.bitmapBase_eq,
    hbecomes.bitmapBytes_eq.trans h.bitmapBytes_eq, ?_, ?_, ?_⟩
  · intro span hspan
    rcases List.mem_cons.mp hspan with rfl | hspan
    · refine ⟨Nat.mul_mod_left _ _, by simp only [frameSize]; omega, hcount, ?_⟩
      rw [hframes]
      exact fun f hf ↦ ((h.free_iff f).mp (hrun hf)).1
    · exact h.granted span hspan
  · refine List.pairwise_cons.mpr ⟨fun span hspan ↦ ?_, h.disjoint⟩
    rw [hframes]
    exact disjoint_left.mpr fun f hf ↦ ((h.free_iff f).mp (hrun hf)).2 span hspan
  · intro f
    rw [hbecomes.freeSet_eq, mem_sdiff, h.free_iff]
    simp only [List.forall_mem_cons, hframes]
    tauto

theorem Span.mem_cut {span part : Span} {first count : ℕ} (hpart : part ∈ span.cut first count) :
    0 < part.count ∧
      (part = ⟨span.addr, first - span.addr / frameSize⟩ ∨
        part = ⟨(first + count) * frameSize,
          span.addr / frameSize + span.count - (first + count)⟩) := by
  obtain ⟨hmem, hcount⟩ := List.mem_filter.mp hpart
  refine ⟨Nat.pos_of_ne_zero (by simpa using hcount), ?_⟩
  simpa using hmem

section Cut

variable {span : Span} {first count : ℕ}

/-- The parts of a cut span hold exactly the frames that were not cut out. -/
theorem Span.exists_mem_cut_iff (hle : span.addr / frameSize ≤ first)
    (hfit : first + count ≤ span.addr / frameSize + span.count) (f : ℕ) :
    (∃ part ∈ span.cut first count, f ∈ part.frames) ↔
      f ∈ span.frames ∧ f ∉ Ico first (first + count) := by
  have hdiv : (first + count) * frameSize / frameSize = first + count :=
    Nat.mul_div_cancel _ (by norm_num)
  constructor
  · rintro ⟨part, hpart, hf⟩
    rw [Span.mem_frames] at hf ⊢
    rw [mem_Ico]
    rcases (Span.mem_cut hpart).2 with rfl | rfl
    · simp only at hf
      omega
    · simp only [hdiv] at hf
      omega
  · rintro ⟨hf, hout⟩
    rw [Span.mem_frames] at hf
    rw [mem_Ico] at hout
    by_cases hbefore : f < first
    · refine ⟨⟨span.addr, first - span.addr / frameSize⟩, ?_, ?_⟩
      · simp only [Span.cut, List.mem_filter, List.mem_cons, true_or, true_and]
        simp only [ne_eq, decide_eq_true_eq]
        omega
      · rw [Span.mem_frames]
        simp only
        omega
    · refine ⟨⟨(first + count) * frameSize,
        span.addr / frameSize + span.count - (first + count)⟩, ?_, ?_⟩
      · simp only [Span.cut, List.mem_filter, List.mem_cons, true_or, or_true, true_and]
        simp only [ne_eq, decide_eq_true_eq]
        omega
      · rw [Span.mem_frames]
        simp only [hdiv]
        omega

/-- The two parts of a cut span are disjoint. -/
theorem Span.pairwise_cut (hle : span.addr / frameSize ≤ first) :
    (span.cut first count).Pairwise fun one other ↦ Disjoint one.frames other.frames := by
  refine List.Pairwise.filter _ ?_
  simp only [List.pairwise_cons, List.mem_cons, List.not_mem_nil, or_false, forall_eq,
    false_imp_iff, implies_true, List.Pairwise.nil, and_true]
  refine disjoint_left.mpr fun f hone hother ↦ ?_
  rw [Span.mem_frames] at hone hother
  rw [Nat.mul_div_cancel _ (by norm_num)] at hother
  simp only at hone
  omega

/-- The parts of a granted span are granted. -/
theorem Span.Granted.cut (h : span.Granted start) (hle : span.addr / frameSize ≤ first)
    (hfit : first + count ≤ span.addr / frameSize + span.count) {part : Span}
    (hpart : part ∈ span.cut first count) : part.Granted start := by
  obtain ⟨hpos, hcases⟩ := Span.mem_cut hpart
  have hsubset : part.frames ⊆ freeSet start := fun f hf ↦
    h.frames_subset ((Span.exists_mem_cut_iff hle hfit f).mp ⟨part, hpart, hf⟩).1
  refine ⟨?_, ?_, hpos, hsubset⟩
  · rcases hcases with rfl | rfl
    · exact h.aligned
    · exact Nat.mul_mod_left _ _
  · rcases hcases with rfl | rfl
    · exact h.addr_ne_zero
    · have haligned := h.aligned
      have hne := h.addr_ne_zero
      simp only [frameSize] at *
      omega

end Cut

theorem pairwise_disjoint_mem {spans : List Span}
    (h : spans.Pairwise fun first second ↦ Disjoint first.frames second.frames) {span : Span}
    (hspan : span ∈ spans) :
    ∀ other ∈ spans.erase span, Disjoint span.frames other.frames := by
  have hperm := List.perm_cons_erase hspan
  have hsymm : ∀ {first second : Span}, Disjoint first.frames second.frames →
      Disjoint second.frames first.frames := fun hd ↦ hd.symm
  exact (List.pairwise_cons.mp ((hperm.pairwise_iff hsymm).mp h)).1

/-- Taking back part of a held span keeps the invariant. -/
theorem Ledger.Exclusive.release (h : l.Exclusive start) {pmm : Pmm} {span : Span}
    {first count : ℕ} (hspan : span ∈ l.held) (hle : span.addr / frameSize ≤ first)
    (hfit : first + count ≤ span.addr / frameSize + span.count)
    (hbecomes : Becomes l.pmm pmm (freeSet l.pmm ∪ Ico first (first + count))) :
    Ledger.Exclusive start (l.release pmm span first count) := by
  have hgranted := h.granted span hspan
  have hothers := pairwise_disjoint_mem h.disjoint hspan
  have hcutSubset : ∀ part ∈ span.cut first count, part.frames ⊆ span.frames :=
    fun part hpart f hf ↦ ((Span.exists_mem_cut_iff hle hfit f).mp ⟨part, hpart, hf⟩).1
  refine ⟨hbecomes.totalFrames_eq.trans h.totalFrames_eq,
    hbecomes.bitmapBase_eq.trans h.bitmapBase_eq,
    hbecomes.bitmapBytes_eq.trans h.bitmapBytes_eq, ?_, ?_, ?_⟩
  · intro part hpart
    rcases List.mem_append.mp hpart with hpart | hpart
    · exact hgranted.cut hle hfit hpart
    · exact h.granted part (List.mem_of_mem_erase hpart)
  · refine List.pairwise_append.mpr ⟨Span.pairwise_cut hle,
      h.disjoint.sublist List.erase_sublist, fun part hpart other hother ↦ ?_⟩
    exact (hothers other hother).mono_left (hcutSubset part hpart)
  · intro f
    have hheld : (∀ other ∈ l.held, f ∉ other.frames) ↔
        f ∉ span.frames ∧ ∀ other ∈ l.held.erase span, f ∉ other.frames := by
      have hperm : ∀ other, other ∈ l.held ↔ other ∈ span :: l.held.erase span :=
        fun other ↦ (List.perm_cons_erase hspan).mem_iff
      simp only [hperm, List.forall_mem_cons]
    have hcut := Span.exists_mem_cut_iff hle hfit f
    have hin : f ∈ Ico first (first + count) → f ∈ span.frames := fun hf ↦ by
      obtain ⟨hge, hlt⟩ := mem_Ico.mp hf
      exact Span.mem_frames.mpr ⟨by omega, by omega⟩
    have hstart : f ∈ span.frames → f ∈ freeSet start := fun hf ↦ hgranted.frames_subset hf
    have hclear : f ∈ span.frames → ∀ other ∈ l.held.erase span, f ∉ other.frames :=
      fun hf other hother hmem ↦ disjoint_left.mp (hothers other hother) hf hmem
    change f ∈ freeSet pmm ↔ f ∈ freeSet start ∧
      ∀ part ∈ span.cut first count ++ l.held.erase span, f ∉ part.frames
    rw [hbecomes.freeSet_eq, mem_union, h.free_iff, hheld, List.forall_mem_append]
    have hnone : (∀ part ∈ span.cut first count, f ∉ part.frames) ↔
        ¬ ∃ part ∈ span.cut first count, f ∈ part.frames := by
      push Not
      rfl
    rw [hnone, hcut]
    by_cases hmem : f ∈ span.frames
    · simp only [hmem, hstart hmem, not_true, false_and, and_false, false_or, true_and, not_not]
      exact ⟨fun hf ↦ ⟨hf, hclear hmem⟩, fun hf ↦ hf.1⟩
    · have hout : f ∉ Ico first (first + count) := fun hf ↦ hmem (hin hf)
      simp only [hmem, hout, not_false_eq_true, false_and, true_and, or_false]

/-! ### Runs -/

/-- Assumes: frame 0 was not free at the start, and there are at most `2 ^ 52` frames. An allowed
call keeps the ownership invariant. -/
theorem Ledger.Exclusive.step (h : l.Exclusive start) (hzero : 0 ∉ freeSet start)
    (hbound : start.totalFrames ≤ 2 ^ 52) {call : LedgerCall} (hallowed : l.Allowed call) :
    (l.step call).Exclusive start := by
  have hnonzero : ∀ f ∈ freeSet l.pmm, 0 < f := fun f hf ↦ by
    refine Nat.pos_of_ne_zero fun hf0 ↦ hzero ?_
    rw [← hf0]
    exact ((h.free_iff f).mp hf).1
  have haddr : ∀ f ∈ freeSet l.pmm, wrap (f * frameSize) = f * frameSize ∧ f * frameSize ≠ 0 := by
    intro f hf
    have hlt := (mem_freeSet.mp hf).1
    have hpos := hnonzero f hf
    have htotal := h.totalFrames_eq
    exact ⟨wrap_of_lt (by simp only [frameSize]; omega), by simp only [frameSize]; omega⟩
  cases call with
  | allocFrame =>
    rcases pmmAllocFrame_spec l.pmm with ⟨-, hsame⟩ | ⟨f, hf, -, hresult, hbecomes⟩
    · simpa [Ledger.step, Ledger.grant, hsame] using h
    · obtain ⟨hwrap, hne⟩ := haddr f hf
      rw [hwrap] at hresult
      have hrun : Ico f (f + 1) = {f} := Nat.Ico_succ_singleton f
      have hgrant : Ledger.Exclusive start
          ⟨(pmmAllocFrame l.pmm).1, ⟨f * frameSize, 1⟩ :: l.held⟩ :=
        h.grant (hnonzero f hf) one_pos (by rw [hrun]; simpa using hf)
          (by rw [hrun, sdiff_singleton_eq_erase]; exact hbecomes)
      simpa [Ledger.step, Ledger.grant, hresult, hne] using hgrant
  | allocFrames count =>
    rcases pmmAllocFrames_spec l.pmm count with
      ⟨hsame, -⟩ | ⟨first, hcount, hrun, -, hresult, hbecomes⟩
    · simpa [Ledger.step, Ledger.grant, hsame] using h
    · have hf : first ∈ freeSet l.pmm := hrun (mem_Ico.mpr ⟨le_rfl, by omega⟩)
      obtain ⟨hwrap, hne⟩ := haddr first hf
      rw [hwrap] at hresult
      simpa [Ledger.step, Ledger.grant, hresult, hne] using
        h.grant (hnonzero first hf) hcount hrun hbecomes
  | freeFrame span addr =>
    obtain ⟨hspan, hf⟩ := hallowed
    obtain ⟨hle, hlt⟩ := Span.mem_frames.mp hf
    refine h.release hspan hle (by omega) ?_
    have hin : addr / frameSize < l.pmm.totalFrames := by
      rw [h.totalFrames_eq]
      exact (mem_freeSet.mp ((h.granted span hspan).frames_subset hf)).1
    have hbecomes := becomes_pmmFreeFrame l.pmm addr
    rw [singleton_inter_of_mem (mem_range.mpr hin)] at hbecomes
    rw [Nat.Ico_succ_singleton]
    exact hbecomes
  | freeFrames span addr count =>
    obtain ⟨hspan, hle, hfit⟩ := hallowed
    refine h.release hspan hle hfit ?_
    have hin : Ico (addr / frameSize) (addr / frameSize + count) ⊆ range l.pmm.totalFrames := by
      intro f hf
      obtain ⟨hge, hlt⟩ := mem_Ico.mp hf
      rw [h.totalFrames_eq]
      exact freeSet_subset_range start ((h.granted span hspan).frames_subset
        (Span.mem_frames.mpr ⟨by omega, by omega⟩))
    have hbecomes := becomes_pmmFreeFrames l.pmm addr count
    have hend : addr / frameSize + count < 2 ^ 64 := by
      have htotal := (h.granted span hspan).le_totalFrames
      omega
    rw [wrap_of_lt hend, inter_eq_left.mpr hin] at hbecomes
    exact hbecomes

theorem Ledger.exclusive_of_reachable (hzero : 0 ∉ freeSet start)
    (hbound : start.totalFrames ≤ 2 ^ 52) (hl : Ledger.Reachable start l) :
    l.Exclusive start := by
  induction hl with
  | init => exact Ledger.exclusive_init start
  | step call _ hallowed ih => exact ih.step hzero hbound hallowed

/-- Regions with bases of at least 4096 leave frame 0 used. -/
theorem zero_notMem_freeSet_pmmInit {regions : List MemRegion} (reservedStart reservedEnd : ℕ)
    (hbases : ∀ r ∈ regions, frameSize ≤ r.base) :
    0 ∉ freeSet (pmmInit regions reservedStart reservedEnd) := by
  intro hfree
  obtain ⟨⟨r, hr, hmem⟩, -⟩ := (mem_freeSet_pmmInit regions reservedStart reservedEnd 0).mp hfree
  have hbase := hbases r hr
  have hle := (mem_Ico.mp hmem).1
  simp only [frameSize] at *
  omega

/-- Assumes: regions with bases of at least 4096. In every run of calls in which callers free only
what they hold, the held spans are pairwise disjoint; each is frame-aligned, not at address 0,
below `total_frames`, and made of frames that were free right after `pmm_init`; and a frame is
marked free exactly when it was free right after `pmm_init` and no held span contains it. -/
theorem held_spans_exclusive {regions : List MemRegion} (reservedStart reservedEnd : ℕ)
    (hbases : ∀ r ∈ regions, frameSize ≤ r.base) {l : Ledger}
    (hl : Ledger.Reachable (pmmInit regions reservedStart reservedEnd) l) :
    l.held.Pairwise (fun first second ↦ Disjoint first.frames second.frames) ∧
      (∀ span ∈ l.held, span.addr % frameSize = 0 ∧ span.addr ≠ 0 ∧
        span.addr / frameSize + span.count ≤ l.pmm.totalFrames ∧
        ∀ f ∈ span.frames, bitTest (pmmInit regions reservedStart reservedEnd) f = false) ∧
      ∀ f < l.pmm.totalFrames, bitTest l.pmm f = false ↔
        bitTest (pmmInit regions reservedStart reservedEnd) f = false ∧
          ∀ span ∈ l.held, f ∉ span.frames := by
  have h := Ledger.exclusive_of_reachable
    (zero_notMem_freeSet_pmmInit reservedStart reservedEnd hbases)
    (counted_pmmInit regions reservedStart reservedEnd).totalFrames_le hl
  refine ⟨h.disjoint, fun span hspan ↦ ?_, fun f hlt ↦ ?_⟩
  · have hgranted := h.granted span hspan
    rw [h.totalFrames_eq]
    exact ⟨hgranted.aligned, hgranted.addr_ne_zero, hgranted.le_totalFrames,
      fun f hf ↦ (mem_freeSet.mp (hgranted.frames_subset hf)).2⟩
  · have hfree := h.free_iff f
    rw [mem_freeSet, mem_freeSet, ← h.totalFrames_eq] at hfree
    simpa only [hlt, true_and] using hfree

/-- A run on a machine with four usable frames, the first of which holds the kernel: a span of two
frames is allocated and its first frame given back, which leaves the second one held. -/
theorem held_spans_exclusive_partial_free :
    let start := pmmInit [⟨0x1000, 0x4000⟩] 0x1000 0x2000
    let l := (Ledger.step ⟨start, []⟩ (.allocFrames 2)).step (.freeFrame ⟨0x2000, 2⟩ 0x2000)
    l.held = [⟨0x3000, 1⟩] ∧
      ∀ f < l.pmm.totalFrames, bitTest l.pmm f = false ↔
        bitTest start f = false ∧ ∀ span ∈ l.held, f ∉ span.frames := by
  intro start l
  have hreach : Ledger.Reachable start l :=
    .step _ (.step _ .init trivial) (by decide +kernel)
  exact ⟨by decide +kernel, (held_spans_exclusive 0x1000 0x2000 (by decide) hreach).2.2⟩

end MegKer.Memory
