import MegKer.Foundation.MachineWord
import MegKer.Foundation.PackedBits
import Mathlib.Data.Finset.Card
import Mathlib.Order.Interval.Finset.Nat

/-!
# The bitmap frame allocator

`mm/pmm.c` keeps one bit for each 4096-byte frame, set when the frame is used, in a bitmap placed
right after the kernel image, together with a running count of the clear bits. This module
translates its functions (`pmmInit`, `pmmAllocFrame`, `pmmFreeFrame`, `pmmAllocFrames`,
`pmmFreeFrames`) and says once what each of them does to the set of free frames.

`freeSet` is the abstract state, the finite set of frames below `totalFrames` whose bit is clear.
`Becomes before after free` states that a call leads from one state to another with free set
`free`: the layout and the bits at or above `totalFrames` are untouched, and a count that agreed
with the free set still does. Every operation has one such specification
(`becomes_markRange`, `pmmAllocFrame_spec`, `becomes_pmmFreeFrame`, `pmmAllocFrames_spec`,
`becomes_pmmFreeFrames`), and no later module unfolds the bitmap.

The storage of the bitmap is modelled by its bytes together with its address `bitmapBase`; the
bytes are otherwise separate from the memory that allocated frames give access to.
`FrameReservation` relates the two.
-/

set_option autoImplicit false
set_option relaxedAutoImplicit false

namespace MegKer.Memory

open Foundation Finset

/-! ### The code of `mm/pmm.c` -/

/-- `PMM_FRAME_SIZE`. -/
abbrev frameSize : ℕ := 4096

/-- `mem_region_t`: a range of usable memory reported by the boot loader. -/
structure MemRegion where
  base : ℕ
  length : ℕ
  deriving DecidableEq, Repr

/-- The static variables of `mm/pmm.c`. The pointer `bitmap` is its address `bitmapBase` and the
bytes found from there on; only the first `bitmapBytes` of them belong to the bitmap. -/
structure Pmm where
  bitmapBase : ℕ
  bitmap : PackedBits
  bitmapBytes : ℕ
  totalFrames : ℕ
  freeFrames : ℕ

def bitSet (s : Pmm) (frame : ℕ) : Pmm := { s with bitmap := s.bitmap.set frame }

def bitClear (s : Pmm) (frame : ℕ) : Pmm := { s with bitmap := s.bitmap.clear frame }

def bitTest (s : Pmm) (frame : ℕ) : Bool := s.bitmap.test frame

/-- The body of the loop of `mark_range`. -/
def markFrame (used : Bool) (s : Pmm) (f : ℕ) : Pmm :=
  if used then
    if !bitTest s f then { bitSet s f with freeFrames := wrapSub s.freeFrames 1 } else s
  else
    if bitTest s f then { bitClear s f with freeFrames := wrap (s.freeFrames + 1) } else s

/-- `mark_range`: the loop runs over `first ≤ f < min last totalFrames`. -/
def markRange (s : Pmm) (start stop : ℕ) (used : Bool) : Pmm :=
  let first := start / frameSize
  let last := alignDown stop frameSize / frameSize
  (List.range' first (min last s.totalFrames - first)).foldl (markFrame used) s

/-- The body of the first loop of `pmm_init`. -/
def raiseTop (highest : ℕ) (r : MemRegion) : ℕ :=
  let top := wrap (r.base + r.length)
  if top > highest then top else highest

/-- The first loop of `pmm_init`: the highest end of a region. -/
def highestTop (regions : List MemRegion) : ℕ := regions.foldl raiseTop 0

/-- The state of `pmm_init` before its marking loops: the bitmap lies right after the reserved
range, and every frame is used until proven free. -/
def blankPmm (regions : List MemRegion) (reservedEnd : ℕ) : Pmm :=
  let totalFrames := highestTop regions / frameSize
  { bitmapBase := alignUp reservedEnd 8
    bitmap := fun _ ↦ 0xFF#8
    bitmapBytes := (totalFrames + 7) / 8
    totalFrames := totalFrames
    freeFrames := 0 }

/-- The local variable `bitmap_end` of `pmm_init`. -/
def bitmapEnd (s : Pmm) : ℕ := wrap (s.bitmapBase + s.bitmapBytes)

/-- The marking of one usable region by `pmm_init`. -/
def markRegion (s : Pmm) (r : MemRegion) : Pmm :=
  markRange s r.base (wrap (r.base + r.length)) false

def pmmInit (regions : List MemRegion) (reservedStart reservedEnd : ℕ) : Pmm :=
  let blank := blankPmm regions reservedEnd
  markRange (regions.foldl markRegion blank) reservedStart (bitmapEnd blank) true

/-- `pmm_alloc_frame`: the lowest frame whose bit is clear, or 0. -/
def pmmAllocFrame (s : Pmm) : Pmm × ℕ :=
  match (List.range s.totalFrames).find? fun f ↦ !bitTest s f with
  | some f => ({ bitSet s f with freeFrames := wrapSub s.freeFrames 1 }, wrap (f * frameSize))
  | none => (s, 0)

def pmmFreeFrame (s : Pmm) (addr : ℕ) : Pmm :=
  let f := addr / frameSize
  if f ≥ s.totalFrames || !bitTest s f then s
  else { bitClear s f with freeFrames := wrap (s.freeFrames + 1) }

/-- The scanning loop of `pmm_alloc_frames` from frame `f` on, with `remaining` frames to go: the
start of the first run of `count` clear bits. -/
def scanRun (s : Pmm) (count : ℕ) : (remaining f runStart runLen : ℕ) → Option ℕ
  | 0, _, _, _ => none
  | remaining + 1, f, runStart, runLen =>
    if bitTest s f then scanRun s count remaining (f + 1) runStart 0
    else
      let runStart := if runLen = 0 then f else runStart
      let runLen := runLen + 1
      if runLen = count then some runStart
      else scanRun s count remaining (f + 1) runStart runLen

def pmmAllocFrames (s : Pmm) (count : ℕ) : Pmm × ℕ :=
  if count = 0 then (s, 0)
  else
    match scanRun s count s.totalFrames 0 0 0 with
    | some runStart =>
      ({ (List.range' runStart count).foldl bitSet s with
          freeFrames := wrapSub s.freeFrames count },
        wrap (runStart * frameSize))
    | none => (s, 0)

/-- `pmm_free_frames`. The bound `first + count` is a 64-bit sum. -/
def pmmFreeFrames (s : Pmm) (addr count : ℕ) : Pmm :=
  let first := addr / frameSize
  (List.range' first (min (wrap (first + count)) s.totalFrames - first)).foldl
    (markFrame false) s

/-! ### The set of free frames -/

/-- The abstract state of the allocator: the frames whose bit is clear. -/
def freeSet (s : Pmm) : Finset ℕ := (range s.totalFrames).filter fun f ↦ bitTest s f = false

theorem mem_freeSet {s : Pmm} {f : ℕ} :
    f ∈ freeSet s ↔ f < s.totalFrames ∧ bitTest s f = false := by
  simp [freeSet]

theorem freeSet_subset_range (s : Pmm) : freeSet s ⊆ range s.totalFrames := filter_subset _ _

/-- The running count is the number of free frames, and there are few enough frames that it
cannot overflow. `pmm_init` divides a 64-bit address by 4096, which gives the bound. -/
structure Counted (s : Pmm) : Prop where
  freeFrames_eq : s.freeFrames = (freeSet s).card
  totalFrames_le : s.totalFrames ≤ 2 ^ 52

/-- A call leads from `before` to `after`, with free set `free`. -/
structure Becomes (before after : Pmm) (free : Finset ℕ) : Prop where
  bitmapBase_eq : after.bitmapBase = before.bitmapBase
  bitmapBytes_eq : after.bitmapBytes = before.bitmapBytes
  totalFrames_eq : after.totalFrames = before.totalFrames
  padding_eq : ∀ f, before.totalFrames ≤ f → bitTest after f = bitTest before f
  freeSet_eq : freeSet after = free
  counted : Counted before → Counted after

theorem Becomes.refl (s : Pmm) : Becomes s s (freeSet s) :=
  ⟨rfl, rfl, rfl, fun _ _ ↦ rfl, rfl, id⟩

theorem Becomes.trans {first middle last : Pmm} {middleFree lastFree : Finset ℕ}
    (hfirst : Becomes first middle middleFree) (hlast : Becomes middle last lastFree) :
    Becomes first last lastFree where
  bitmapBase_eq := hlast.bitmapBase_eq.trans hfirst.bitmapBase_eq
  bitmapBytes_eq := hlast.bitmapBytes_eq.trans hfirst.bitmapBytes_eq
  totalFrames_eq := hlast.totalFrames_eq.trans hfirst.totalFrames_eq
  padding_eq := fun f hf ↦
    (hlast.padding_eq f (hfirst.totalFrames_eq ▸ hf)).trans (hfirst.padding_eq f hf)
  freeSet_eq := hlast.freeSet_eq
  counted := fun h ↦ hlast.counted (hfirst.counted h)

/-! ### One bit at a time -/

theorem freeSet_bitSet (s : Pmm) (f count : ℕ) :
    freeSet { bitSet s f with freeFrames := count } = (freeSet s).erase f := by
  ext g
  rw [mem_erase, mem_freeSet, mem_freeSet]
  simp only [bitTest, bitSet, PackedBits.test_set, Bool.or_eq_false_iff, decide_eq_false_iff_not]
  constructor
  · rintro ⟨hlt, hne, hclear⟩
    exact ⟨fun h ↦ hne h.symm, hlt, hclear⟩
  · rintro ⟨hne, hlt, hclear⟩
    exact ⟨hlt, fun h ↦ hne h.symm, hclear⟩

theorem freeSet_bitClear {s : Pmm} {f : ℕ} (hf : f < s.totalFrames) (count : ℕ) :
    freeSet { bitClear s f with freeFrames := count } = insert f (freeSet s) := by
  ext g
  rw [mem_insert, mem_freeSet, mem_freeSet]
  simp only [bitTest, bitClear, PackedBits.test_clear, Bool.and_eq_false_iff, Bool.not_eq_false',
    decide_eq_true_eq]
  constructor
  · rintro ⟨hlt, rfl | hclear⟩
    · exact Or.inl rfl
    · exact Or.inr ⟨hlt, hclear⟩
  · rintro (rfl | ⟨hlt, hclear⟩)
    · exact ⟨hf, Or.inl rfl⟩
    · exact ⟨hlt, Or.inr hclear⟩

/-- Taking one free frame: the bit is set and the count goes down by one. -/
theorem becomes_takeFrame {s : Pmm} {f : ℕ} (hf : f ∈ freeSet s) :
    Becomes s { bitSet s f with freeFrames := wrapSub s.freeFrames 1 } ((freeSet s).erase f) where
  bitmapBase_eq := rfl
  bitmapBytes_eq := rfl
  totalFrames_eq := rfl
  padding_eq := fun g hg ↦ by
    have hne : f ≠ g := by
      have hlt := (mem_freeSet.mp hf).1
      omega
    simp [bitTest, bitSet, hne]
  freeSet_eq := freeSet_bitSet s f _
  counted := fun h ↦ by
    refine ⟨?_, h.totalFrames_le⟩
    have hcard : (freeSet s).card ≤ s.totalFrames := by
      simpa using card_le_card (freeSet_subset_range s)
    have hpos : 0 < (freeSet s).card := card_pos.mpr ⟨f, hf⟩
    have hbound := h.totalFrames_le
    rw [freeSet_bitSet, card_erase_of_mem hf]
    change wrapSub s.freeFrames 1 = _
    rw [h.freeFrames_eq, wrapSub_of_le (by omega) (by omega)]

/-- Giving one used frame back: the bit is cleared and the count goes up by one. -/
theorem becomes_giveFrame {s : Pmm} {f : ℕ} (hlt : f < s.totalFrames) (hused : f ∉ freeSet s) :
    Becomes s { bitClear s f with freeFrames := wrap (s.freeFrames + 1) }
      (insert f (freeSet s)) where
  bitmapBase_eq := rfl
  bitmapBytes_eq := rfl
  totalFrames_eq := rfl
  padding_eq := fun g hg ↦ by
    have hne : f ≠ g := by omega
    simp [bitTest, bitClear, hne]
  freeSet_eq := freeSet_bitClear hlt _
  counted := fun h ↦ by
    refine ⟨?_, h.totalFrames_le⟩
    have hcard : (freeSet s).card ≤ s.totalFrames := by
      simpa using card_le_card (freeSet_subset_range s)
    have hbound := h.totalFrames_le
    rw [freeSet_bitClear hlt, card_insert_of_notMem hused]
    change wrap (s.freeFrames + 1) = _
    rw [h.freeFrames_eq, wrap_of_lt (by omega)]

theorem becomes_markFrame_used {s : Pmm} {f : ℕ} (hlt : f < s.totalFrames) :
    Becomes s (markFrame true s f) ((freeSet s).erase f) := by
  unfold markFrame
  rw [if_pos rfl]
  by_cases hclear : bitTest s f = false
  · rw [if_pos (by simp [hclear])]
    exact becomes_takeFrame (mem_freeSet.mpr ⟨hlt, hclear⟩)
  · rw [if_neg (by simpa using hclear),
      erase_eq_of_notMem fun h ↦ hclear (mem_freeSet.mp h).2]
    exact Becomes.refl s

theorem becomes_markFrame_free {s : Pmm} {f : ℕ} (hlt : f < s.totalFrames) :
    Becomes s (markFrame false s f) (insert f (freeSet s)) := by
  unfold markFrame
  rw [if_neg (by simp)]
  by_cases hset : bitTest s f = true
  · rw [if_pos hset]
    refine becomes_giveFrame hlt fun h ↦ ?_
    rw [(mem_freeSet.mp h).2] at hset
    exact Bool.false_ne_true hset
  · rw [if_neg hset, insert_eq_of_mem (mem_freeSet.mpr ⟨hlt, by simpa using hset⟩)]
    exact Becomes.refl s

/-! ### Ranges of frames -/

/-- Marking a range below `totalFrames` used removes it from the free set. -/
theorem becomes_foldl_markFrame_used (n : ℕ) :
    ∀ (s : Pmm) (first : ℕ), first + n ≤ s.totalFrames →
      Becomes s ((List.range' first n).foldl (markFrame true) s)
        (freeSet s \ Ico first (first + n)) := by
  induction n with
  | zero =>
    intro s first _
    simpa using Becomes.refl s
  | succ n ih =>
    intro s first hle
    have hhead := becomes_markFrame_used (s := s) (f := first) (by omega)
    have htail := ih (markFrame true s first) (first + 1) (by rw [hhead.totalFrames_eq]; omega)
    rw [List.range'_succ, List.foldl_cons]
    have hset : freeSet s \ Ico first (first + (n + 1)) =
        freeSet (markFrame true s first) \ Ico (first + 1) (first + 1 + n) := by
      rw [hhead.freeSet_eq]
      ext g
      simp only [mem_sdiff, mem_erase, mem_Ico]
      by_cases hmem : g ∈ freeSet s
      · simp only [hmem, true_and, and_true]
        omega
      · simp only [hmem, false_and, and_false]
    rw [hset]
    exact hhead.trans htail

/-- Marking a range below `totalFrames` free adds it to the free set. -/
theorem becomes_foldl_markFrame_free (n : ℕ) :
    ∀ (s : Pmm) (first : ℕ), first + n ≤ s.totalFrames →
      Becomes s ((List.range' first n).foldl (markFrame false) s)
        (freeSet s ∪ Ico first (first + n)) := by
  induction n with
  | zero =>
    intro s first _
    simpa using Becomes.refl s
  | succ n ih =>
    intro s first hle
    have hhead := becomes_markFrame_free (s := s) (f := first) (by omega)
    have htail := ih (markFrame false s first) (first + 1) (by rw [hhead.totalFrames_eq]; omega)
    rw [List.range'_succ, List.foldl_cons]
    have hset : freeSet s ∪ Ico first (first + (n + 1)) =
        freeSet (markFrame false s first) ∪ Ico (first + 1) (first + 1 + n) := by
      rw [hhead.freeSet_eq]
      ext g
      simp only [mem_union, mem_insert, mem_Ico]
      by_cases hmem : g ∈ freeSet s
      · simp only [hmem, true_or, or_true]
      · simp only [hmem, false_or, or_false]
        omega
    rw [hset]
    exact hhead.trans htail

/-- The frames `mark_range` visits: both ends of the byte range are rounded down. -/
def markedFrames (start stop : ℕ) : Finset ℕ := Ico (start / frameSize) (stop / frameSize)

theorem alignDown_div_frameSize {x : ℕ} (hx : x < 2 ^ 64) :
    alignDown x frameSize / frameSize = x / frameSize := by
  change alignDown x (2 ^ 12) / 2 ^ 12 = x / 2 ^ 12
  rw [alignDown_two_pow hx (by omega), Nat.mul_div_cancel _ (by norm_num)]

theorem becomes_markRange_used (s : Pmm) (start : ℕ) {stop : ℕ} (hstop : stop < 2 ^ 64) :
    Becomes s (markRange s start stop true) (freeSet s \ markedFrames start stop) := by
  unfold markRange
  simp only [alignDown_div_frameSize hstop]
  rcases Nat.lt_or_ge (start / frameSize) (min (stop / frameSize) s.totalFrames) with hlt | hge
  · have hrange := becomes_foldl_markFrame_used
      (min (stop / frameSize) s.totalFrames - start / frameSize) s (start / frameSize) (by omega)
    have hset : freeSet s \ markedFrames start stop = freeSet s \
        Ico (start / frameSize) (start / frameSize +
          (min (stop / frameSize) s.totalFrames - start / frameSize)) := by
      refine sdiff_eq_sdiff_iff_inf_eq_inf.mpr ?_
      ext g
      have hlt : g ∈ freeSet s → g < s.totalFrames := fun h ↦ (mem_freeSet.mp h).1
      simp only [markedFrames, inf_eq_inter, mem_inter, mem_Ico]
      constructor
      · rintro ⟨hmem, hge, hless⟩
        have := hlt hmem
        exact ⟨hmem, by omega, by omega⟩
      · rintro ⟨hmem, hge, hless⟩
        exact ⟨hmem, by omega, by omega⟩
    rw [hset]
    exact hrange
  · have hset : freeSet s \ markedFrames start stop = freeSet s := by
      refine sdiff_eq_self_of_disjoint (disjoint_left.mpr fun g hfree hmarked ↦ ?_)
      have hlt := (mem_freeSet.mp hfree).1
      obtain ⟨hge, hless⟩ := mem_Ico.mp hmarked
      omega
    rw [hset, Nat.sub_eq_zero_of_le hge]
    exact Becomes.refl s

/-- Clearing the bits of `[first, min last totalFrames)`, the loop that `mark_range` and
`pmm_free_frames` share. -/
theorem becomes_clearRange (s : Pmm) (first last : ℕ) :
    Becomes s ((List.range' first (min last s.totalFrames - first)).foldl (markFrame false) s)
      (freeSet s ∪ (Ico first last ∩ range s.totalFrames)) := by
  rcases Nat.lt_or_ge first (min last s.totalFrames) with hlt | hge
  · have hrange := becomes_foldl_markFrame_free (min last s.totalFrames - first) s first (by omega)
    have hset : freeSet s ∪ (Ico first last ∩ range s.totalFrames) =
        freeSet s ∪ Ico first (first + (min last s.totalFrames - first)) := by
      congr 1
      ext g
      simp only [mem_inter, mem_Ico, mem_range]
      omega
    rw [hset]
    exact hrange
  · have hset : freeSet s ∪ (Ico first last ∩ range s.totalFrames) = freeSet s := by
      rw [union_eq_left]
      intro g hg
      simp only [mem_inter, mem_Ico, mem_range] at hg
      omega
    rw [hset, Nat.sub_eq_zero_of_le hge]
    exact Becomes.refl s

theorem becomes_markRange_free (s : Pmm) (start : ℕ) {stop : ℕ} (hstop : stop < 2 ^ 64) :
    Becomes s (markRange s start stop false)
      (freeSet s ∪ (markedFrames start stop ∩ range s.totalFrames)) := by
  unfold markRange
  simp only [alignDown_div_frameSize hstop]
  exact becomes_clearRange s (start / frameSize) (stop / frameSize)

/-! ### The four calls -/

theorem becomes_pmmFreeFrame (s : Pmm) (addr : ℕ) :
    Becomes s (pmmFreeFrame s addr)
      (freeSet s ∪ ({addr / frameSize} ∩ range s.totalFrames)) := by
  unfold pmmFreeFrame
  simp only [ge_iff_le, Bool.or_eq_true, decide_eq_true_eq, Bool.not_eq_true']
  by_cases hskip : s.totalFrames ≤ addr / frameSize ∨ bitTest s (addr / frameSize) = false
  · have hset : freeSet s ∪ ({addr / frameSize} ∩ range s.totalFrames) = freeSet s := by
      rw [union_eq_left]
      intro g hg
      rw [mem_inter, mem_singleton, mem_range] at hg
      obtain ⟨rfl, hlt⟩ := hg
      exact mem_freeSet.mpr ⟨hlt, hskip.resolve_left (by omega)⟩
    rw [if_pos hskip, hset]
    exact Becomes.refl s
  · obtain ⟨hlt, hset⟩ := not_or.mp hskip
    have hunion : freeSet s ∪ ({addr / frameSize} ∩ range s.totalFrames) =
        insert (addr / frameSize) (freeSet s) := by
      rw [singleton_inter_of_mem (mem_range.mpr (by omega)), union_comm]
      rfl
    rw [if_neg hskip, hunion]
    exact becomes_giveFrame (by omega) fun h ↦ hset (mem_freeSet.mp h).2

theorem becomes_pmmFreeFrames (s : Pmm) (addr count : ℕ) :
    Becomes s (pmmFreeFrames s addr count)
      (freeSet s ∪ (Ico (addr / frameSize) (wrap (addr / frameSize + count)) ∩
        range s.totalFrames)) :=
  becomes_clearRange s _ _

/-- `pmm_alloc_frame` takes the lowest free frame, and returns 0 with the state unchanged when
there is none. -/
theorem pmmAllocFrame_spec (s : Pmm) :
    (freeSet s = ∅ ∧ pmmAllocFrame s = (s, 0)) ∨
      ∃ f ∈ freeSet s, (∀ g ∈ freeSet s, f ≤ g) ∧
        (pmmAllocFrame s).2 = wrap (f * frameSize) ∧
        Becomes s (pmmAllocFrame s).1 ((freeSet s).erase f) := by
  unfold pmmAllocFrame
  cases hfind : (List.range s.totalFrames).find? fun f ↦ !bitTest s f with
  | none =>
    left
    refine ⟨?_, rfl⟩
    rw [List.find?_eq_none] at hfind
    refine eq_empty_of_forall_notMem fun f hf ↦ ?_
    obtain ⟨hlt, hclear⟩ := mem_freeSet.mp hf
    exact hfind f (List.mem_range.mpr hlt) (by simp [hclear])
  | some f =>
    right
    rw [List.find?_range_eq_some] at hfind
    obtain ⟨hclear, hmem, hlower⟩ := hfind
    have hfree : f ∈ freeSet s :=
      mem_freeSet.mpr ⟨List.mem_range.mp hmem, by simpa using hclear⟩
    refine ⟨f, hfree, fun g hg ↦ ?_, rfl, becomes_takeFrame hfree⟩
    by_contra hlt
    have hused := hlower g (by omega)
    simp [(mem_freeSet.mp hg).2] at hused

/-- The frames `[start, start + count)` all have a clear bit. -/
def RunAt (s : Pmm) (start count : ℕ) : Prop :=
  ∀ g, start ≤ g → g < start + count → bitTest s g = false

/-- The loop invariant of `pmm_alloc_frames`: before frame `f` is looked at, the frames from
`start` up to `f` are clear, fewer than `count` of them, and no run of `count` clear bits begins
below `start`. -/
structure ScanInv (s : Pmm) (count f start runLen : ℕ) : Prop where
  short : runLen < count
  reaches : start + runLen = f
  clear : RunAt s start runLen
  lowest : ∀ lower < start, ¬ RunAt s lower count

/-- A used frame restarts the candidate run right after it. -/
theorem ScanInv.restart {s : Pmm} {count f start runLen : ℕ}
    (h : ScanInv s count f start runLen) (hused : bitTest s f = true) :
    ScanInv s count (f + 1) (f + 1) 0 where
  short := by have := h.short; omega
  reaches := rfl
  clear := fun g hge hlt ↦ absurd hge (by omega)
  lowest := fun lower hlower hrun ↦ by
    have hreaches := h.reaches
    have hshort := h.short
    by_cases hbelow : lower < start
    · exact h.lowest lower hbelow hrun
    · have hclear := hrun f (by omega) (by omega)
      rw [hused] at hclear
      exact Bool.false_ne_true hclear.symm

/-- A clear frame extends the candidate run by one. -/
theorem ScanInv.extend {s : Pmm} {count f start runLen : ℕ}
    (h : ScanInv s count f start runLen) (hclear : bitTest s f = false) :
    RunAt s start (runLen + 1) := by
  intro g hge hlt
  have hreaches := h.reaches
  by_cases hlast : g = f
  · rw [hlast, hclear]
  · exact h.clear g hge (by omega)

/-- The scan finds the lowest run of `count` clear bits below `f + remaining`, if there is one. -/
theorem scanRun_spec (s : Pmm) (count remaining : ℕ) :
    ∀ f runStart runLen, ScanInv s count f (if runLen = 0 then f else runStart) runLen →
      (∃ start, scanRun s count remaining f runStart runLen = some start ∧
        RunAt s start count ∧ start + count ≤ f + remaining ∧
        ∀ lower < start, ¬ RunAt s lower count) ∨
      (scanRun s count remaining f runStart runLen = none ∧
        ∀ start, start + count ≤ f + remaining → ¬ RunAt s start count) := by
  induction remaining with
  | zero =>
    intro f runStart runLen h
    refine Or.inr ⟨rfl, fun start hle ↦ h.lowest start ?_⟩
    have hreaches := h.reaches
    have hshort := h.short
    omega
  | succ remaining ih =>
    intro f runStart runLen h
    have hreaches := h.reaches
    have hshort := h.short
    have harith : f + (remaining + 1) = f + 1 + remaining := by omega
    rw [harith]
    unfold scanRun
    cases hbit : bitTest s f with
    | true =>
      rw [if_pos rfl]
      exact ih (f + 1) runStart 0 (by simpa using h.restart hbit)
    | false =>
      rw [if_neg (by simp)]
      simp only
      have hextend := h.extend hbit
      by_cases hdone : runLen + 1 = count
      · rw [if_pos hdone]
        exact Or.inl ⟨_, rfl, hdone ▸ hextend, by omega, h.lowest⟩
      · rw [if_neg hdone]
        refine ih (f + 1) _ (runLen + 1) ?_
        rw [if_neg (by omega : ¬ runLen + 1 = 0)]
        exact ⟨by omega, by omega, hextend, h.lowest⟩

theorem foldl_bitSet_eq (s : Pmm) (frames : List ℕ) :
    frames.foldl bitSet s = { s with bitmap := frames.foldl PackedBits.set s.bitmap } := by
  induction frames generalizing s with
  | nil => rfl
  | cons f rest ih => exact ih (bitSet s f)

theorem test_foldl_set (bytes : PackedBits) (frames : List ℕ) (f : ℕ) :
    (frames.foldl PackedBits.set bytes).test f = (decide (f ∈ frames) || bytes.test f) := by
  induction frames generalizing bytes with
  | nil => simp
  | cons g rest ih =>
    rw [List.foldl_cons, ih, PackedBits.test_set]
    by_cases hg : g = f
    · simp [hg]
    · simp [hg, Ne.symm hg]

/-- Taking a run of free frames: the bits are set and the count goes down by their number. -/
theorem becomes_takeRun {s : Pmm} {start count : ℕ} (hrun : Ico start (start + count) ⊆ freeSet s) :
    Becomes s
      { (List.range' start count).foldl bitSet s with freeFrames := wrapSub s.freeFrames count }
      (freeSet s \ Ico start (start + count)) := by
  rw [foldl_bitSet_eq]
  have hset : ∀ counter, freeSet { s with
      bitmap := (List.range' start count).foldl PackedBits.set s.bitmap
      freeFrames := counter } = freeSet s \ Ico start (start + count) := by
    intro counter
    ext g
    rw [mem_sdiff, mem_freeSet, mem_freeSet]
    simp only [bitTest, test_foldl_set, List.mem_range'_1, Bool.or_eq_false_iff,
      decide_eq_false_iff_not, mem_Ico]
    tauto
  refine ⟨rfl, rfl, rfl, fun g hg ↦ ?_, hset _, fun h ↦ ⟨?_, h.totalFrames_le⟩⟩
  · have hout : ¬ (start ≤ g ∧ g < start + count) := fun hin ↦ by
      have hlt := (mem_freeSet.mp (hrun (mem_Ico.mpr hin))).1
      omega
    simp [bitTest, test_foldl_set, hout]
  · have hcard : (freeSet s).card ≤ s.totalFrames := by
      simpa using card_le_card (freeSet_subset_range s)
    have hcount : count ≤ (freeSet s).card := by
      simpa using card_le_card hrun
    have hbound := h.totalFrames_le
    rw [hset, card_sdiff_of_subset hrun, Nat.card_Ico]
    change wrapSub s.freeFrames count = _
    rw [h.freeFrames_eq, wrapSub_of_le hcount (by omega)]
    omega

theorem runAt_iff_subset {s : Pmm} {start count : ℕ} (hle : start + count ≤ s.totalFrames) :
    RunAt s start count ↔ Ico start (start + count) ⊆ freeSet s := by
  constructor
  · intro hrun g hg
    obtain ⟨hge, hlt⟩ := mem_Ico.mp hg
    exact mem_freeSet.mpr ⟨by omega, hrun g hge hlt⟩
  · intro hsubset g hge hlt
    exact (mem_freeSet.mp (hsubset (mem_Ico.mpr ⟨hge, hlt⟩))).2

/-- `pmm_alloc_frames` takes the lowest run of `count` free frames. It returns 0 with the state
unchanged when `count` is 0 or there is no such run. -/
theorem pmmAllocFrames_spec (s : Pmm) (count : ℕ) :
    (pmmAllocFrames s count = (s, 0) ∧
      (count = 0 ∨ ∀ start, ¬ Ico start (start + count) ⊆ freeSet s)) ∨
    ∃ start, 0 < count ∧ Ico start (start + count) ⊆ freeSet s ∧
      (∀ lower < start, ¬ Ico lower (lower + count) ⊆ freeSet s) ∧
      (pmmAllocFrames s count).2 = wrap (start * frameSize) ∧
      Becomes s (pmmAllocFrames s count).1 (freeSet s \ Ico start (start + count)) := by
  unfold pmmAllocFrames
  by_cases hzero : count = 0
  · exact Or.inl ⟨by rw [if_pos hzero], Or.inl hzero⟩
  have hinit : ScanInv s count 0 (if 0 = 0 then 0 else 0) 0 :=
    ⟨by omega, by simp, fun g _ hlt ↦ by simp at hlt, fun lower hlt ↦ by simp at hlt⟩
  have hbelow : ∀ start, Ico start (start + count) ⊆ freeSet s →
      start + count ≤ s.totalFrames := fun start hsubset ↦ by
    have hlast := (mem_freeSet.mp (hsubset (mem_Ico.mpr
      ⟨(by omega : start ≤ start + count - 1), by omega⟩))).1
    omega
  rw [if_neg hzero]
  rcases scanRun_spec s count s.totalFrames 0 0 0 hinit with
    ⟨start, hscan, hrun, hle, hlowest⟩ | ⟨hscan, hnone⟩
  · have hsubset := (runAt_iff_subset (by omega)).mp hrun
    refine Or.inr ⟨start, by omega, hsubset, fun lower hlower hsub ↦ ?_, ?_, ?_⟩
    · exact hlowest lower hlower ((runAt_iff_subset (hbelow lower hsub)).mpr hsub)
    · rw [hscan]
    · rw [hscan]
      exact becomes_takeRun hsubset
  · refine Or.inl ⟨by rw [hscan], Or.inr fun start hsub ↦ ?_⟩
    have hle := hbelow start hsub
    exact hnone start (by omega) ((runAt_iff_subset hle).mpr hsub)

/-! ### The state after `pmm_init` -/

/-- The frames `pmm_init` marks free for one region, before the reservation. -/
def regionFrames (r : MemRegion) : Finset ℕ := markedFrames r.base (wrap (r.base + r.length))

theorem le_raiseTop (highest : ℕ) (r : MemRegion) :
    highest ≤ raiseTop highest r ∧ wrap (r.base + r.length) ≤ raiseTop highest r := by
  simp only [raiseTop]
  split_ifs <;> omega

theorem le_foldl_raiseTop (regions : List MemRegion) :
    ∀ highest, highest ≤ regions.foldl raiseTop highest ∧
      ∀ r ∈ regions, wrap (r.base + r.length) ≤ regions.foldl raiseTop highest := by
  induction regions with
  | nil => intro highest; simp
  | cons region rest ih =>
    intro highest
    obtain ⟨hstep, htop⟩ := le_raiseTop highest region
    obtain ⟨hbase, hrest⟩ := ih (raiseTop highest region)
    refine ⟨hstep.trans hbase, fun r hr ↦ ?_⟩
    rcases List.mem_cons.mp hr with rfl | hr
    · exact htop.trans hbase
    · exact hrest r hr

theorem le_highestTop {regions : List MemRegion} {r : MemRegion} (hr : r ∈ regions) :
    wrap (r.base + r.length) ≤ highestTop regions :=
  (le_foldl_raiseTop regions 0).2 r hr

theorem highestTop_lt (regions : List MemRegion) : highestTop regions < 2 ^ 64 := by
  have hfold : ∀ highest < 2 ^ 64, regions.foldl raiseTop highest < 2 ^ 64 := by
    induction regions with
    | nil => intro highest hlt; exact hlt
    | cons region rest ih =>
      intro highest hlt
      refine ih _ ?_
      simp only [raiseTop]
      split_ifs
      · exact wrap_lt _
      · exact hlt
  exact hfold 0 (by norm_num)

theorem regionFrames_subset_range {regions : List MemRegion} {r : MemRegion} (hr : r ∈ regions) :
    regionFrames r ⊆ range (highestTop regions / frameSize) := by
  intro f hf
  have hlt := (mem_Ico.mp hf).2
  have hle := Nat.div_le_div_right (c := frameSize) (le_highestTop hr)
  exact mem_range.mpr (lt_of_lt_of_le hlt hle)

theorem freeSet_blankPmm (regions : List MemRegion) (reservedEnd : ℕ) :
    freeSet (blankPmm regions reservedEnd) = ∅ := by
  refine eq_empty_of_forall_notMem fun f hf ↦ ?_
  have hclear := (mem_freeSet.mp hf).2
  have hset : bitTest (blankPmm regions reservedEnd) f = true := PackedBits.test_ones f
  rw [hset] at hclear
  exact Bool.false_ne_true hclear.symm

theorem counted_blankPmm (regions : List MemRegion) (reservedEnd : ℕ) :
    Counted (blankPmm regions reservedEnd) where
  freeFrames_eq := by rw [freeSet_blankPmm]; rfl
  totalFrames_le := by
    have hlt := highestTop_lt regions
    change highestTop regions / 4096 ≤ 2 ^ 52
    omega

/-- The region loop of `pmm_init` adds the frames of the regions to the free set. -/
theorem becomes_foldl_markRegion (regions : List MemRegion) :
    ∀ s : Pmm, (∀ r ∈ regions, regionFrames r ⊆ range s.totalFrames) →
      ∃ free, Becomes s (regions.foldl markRegion s) free ∧
        ∀ f, f ∈ free ↔ f ∈ freeSet s ∨ ∃ r ∈ regions, f ∈ regionFrames r := by
  induction regions with
  | nil =>
    intro s _
    exact ⟨freeSet s, Becomes.refl s, fun f ↦ by simp⟩
  | cons region rest ih =>
    intro s hbelow
    have hhead := becomes_markRange_free s region.base (wrap_lt (region.base + region.length))
    obtain ⟨free, htail, hfree⟩ := ih (markRegion s region) fun r hr ↦ by
      rw [markRegion, hhead.totalFrames_eq]
      exact hbelow r (List.mem_cons_of_mem _ hr)
    refine ⟨free, hhead.trans htail, fun f ↦ ?_⟩
    have hinter : markedFrames region.base (wrap (region.base + region.length)) ∩
        range s.totalFrames = regionFrames region :=
      inter_eq_left.mpr (hbelow region List.mem_cons_self)
    rw [hfree, markRegion, hhead.freeSet_eq, hinter, mem_union]
    simp only [List.mem_cons, exists_eq_or_imp]
    tauto

theorem becomes_pmmInit (regions : List MemRegion) (reservedStart reservedEnd : ℕ) :
    Becomes (blankPmm regions reservedEnd) (pmmInit regions reservedStart reservedEnd)
      (freeSet (pmmInit regions reservedStart reservedEnd)) := by
  obtain ⟨free, hregions, -⟩ := becomes_foldl_markRegion regions (blankPmm regions reservedEnd)
    fun r hr ↦ regionFrames_subset_range hr
  have hreserve := becomes_markRange_used (regions.foldl markRegion (blankPmm regions reservedEnd))
    reservedStart (wrap_lt ((blankPmm regions reservedEnd).bitmapBase +
      (blankPmm regions reservedEnd).bitmapBytes))
  have hall := hregions.trans hreserve
  rwa [← hreserve.freeSet_eq] at hall

/-- A frame is free after `pmm_init` when some region marked it and the reservation did not take
it back. Both marks round the ends of their byte range down. -/
theorem mem_freeSet_pmmInit (regions : List MemRegion) (reservedStart reservedEnd f : ℕ) :
    f ∈ freeSet (pmmInit regions reservedStart reservedEnd) ↔
      (∃ r ∈ regions, f ∈ regionFrames r) ∧
        f ∉ markedFrames reservedStart (bitmapEnd (blankPmm regions reservedEnd)) := by
  obtain ⟨free, hregions, hfree⟩ := becomes_foldl_markRegion regions (blankPmm regions reservedEnd)
    fun r hr ↦ regionFrames_subset_range hr
  have hreserve := becomes_markRange_used (regions.foldl markRegion (blankPmm regions reservedEnd))
    reservedStart (wrap_lt ((blankPmm regions reservedEnd).bitmapBase +
      (blankPmm regions reservedEnd).bitmapBytes))
  change f ∈ freeSet (markRange (regions.foldl markRegion (blankPmm regions reservedEnd))
    reservedStart (wrap ((blankPmm regions reservedEnd).bitmapBase +
      (blankPmm regions reservedEnd).bitmapBytes)) true) ↔ _
  rw [hreserve.freeSet_eq, mem_sdiff, hregions.freeSet_eq, hfree, freeSet_blankPmm]
  simp only [notMem_empty, false_or]
  rfl

theorem counted_pmmInit (regions : List MemRegion) (reservedStart reservedEnd : ℕ) :
    Counted (pmmInit regions reservedStart reservedEnd) :=
  (becomes_pmmInit regions reservedStart reservedEnd).counted (counted_blankPmm _ _)

end MegKer.Memory
