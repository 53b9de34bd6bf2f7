import MegKer.Memory.Multiboot2

/-!
# When the walk over the boot information ends

Both loops of the walk step by sizes that they read in the block. The outer one steps by the size of a tag,
rounded up to a multiple of 8 in 32-bit arithmetic: a size of 0, and a size above `2 ^ 32 - 8`, round to 0.
The inner one steps by the stride of a memory map tag, which may be 0.

Nothing in the walk looks at these sizes before it steps, so a block can hold it up. `tagOffset` is the
chain of tags, and `Advances` says of one tag of the chain that it does not hold the walk up. A stride of 0
does no harm when the first entry has a region, since the array of regions is full after some rounds, or
when it is full already.

`mmInitEnds_iff`: the walk ends exactly if all tags that it visits advance. A well-formed block, as
`MemoryMap` has it, is one of those.
-/

set_option autoImplicit false
set_option relaxedAutoImplicit false

namespace MegKer.Memory

open Foundation Gui

section Chain

variable (info : ℕ → UInt8)

/-- The offset of each tag in the chain of tags. -/
def tagOffset : ℕ → ℕ
  | 0 => 8
  | n + 1 => nextTag info (tagOffset n)

/-- The memory map entries in the first tags of the chain. -/
def entriesBefore (n : ℕ) : List MmapEntry :=
  (List.range n).flatMap fun i ↦ tagEntries info (tagOffset info i)

/-- The tags of the chain up to this one lie before the end of the block, and none is the end tag. -/
def Visits (n : ℕ) : Prop :=
  ∀ i ≤ n, tagOffset info i < totalSize info ∧ tagType info (tagOffset info i) ≠ tagEnd

/-- A tag of the chain does not hold the walk up: its rounded size is not 0, and if it is a memory map tag
with entries and without a stride, its first entry has a region or 64 entries with a region came
before. -/
structure Advances (n : ℕ) : Prop where
  size_pos : 0 < tagSize info (tagOffset info n)
  size_le : tagSize info (tagOffset info n) ≤ 2 ^ 32 - 8
  stride : tagType info (tagOffset info n) = tagMmap → 16 < tagSize info (tagOffset info n) →
    entrySize info (tagOffset info n) = 0 →
      (mmapEntryAt info (tagOffset info n + 16)).region.isSome ∨
        maxRegions ≤ ((entriesBefore info n).filterMap MmapEntry.region).length

end Chain

variable {info : ℕ → UInt8}

theorem entriesBefore_succ (n : ℕ) :
    entriesBefore info (n + 1) = entriesBefore info n ++ tagEntries info (tagOffset info n) := by
  rw [entriesBefore, List.range_succ, List.flatMap_append, List.flatMap_singleton, entriesBefore]

/-- A size that rounds to something else than 0 takes the walk forward. -/
theorem lt_nextTag {tag : ℕ} (hpos : 0 < tagSize info tag) (hle : tagSize info tag ≤ 2 ^ 32 - 8) :
    tag < nextTag info tag := by
  rw [nextTag, alignUp32_eight]
  omega

/-- The other sizes leave it where it is. -/
theorem nextTag_eq_self {tag : ℕ} (h : tagSize info tag = 0 ∨ 2 ^ 32 - 8 < tagSize info tag) :
    nextTag info tag = tag := by
  have hlt := u32At_lt info (tag + 4)
  rw [nextTag, alignUp32_eight]
  rw [tagSize] at h ⊢
  omega

section Walk

variable (info) in
/-- The regions and the total before a tag of the chain. -/
def ramBefore (n : ℕ) : RamMap := mmStart.ram.take (entriesBefore info n)

theorem ramBefore_succ (n : ℕ) :
    ramBefore info (n + 1) = (ramBefore info n).take (tagEntries info (tagOffset info n)) := by
  rw [ramBefore, entriesBefore_succ, RamMap.take_append, ramBefore]

/-- The array is full once 64 entries with a region came before. -/
theorem full_iff (n : ℕ) :
    maxRegions ≤ (ramBefore info n).regions.length ↔
      maxRegions ≤ ((entriesBefore info n).filterMap MmapEntry.region).length := by
  rw [ramBefore, RamMap.length_take _ (Nat.zero_le _)]
  change maxRegions ≤ min maxRegions (0 + _) ↔ _
  omega

/-- The walk is at a tag of the chain, with what the tags before it hold. -/
structure AtTag (info : ℕ → UInt8) (n : ℕ) (p : ℕ × MmState) : Prop where
  offset : p.1 = tagOffset info n
  ram : p.2.ram = ramBefore info n

theorem atTag_start : AtTag info 0 (8, mmStart) := ⟨rfl, rfl⟩

/-- One round takes the walk from one tag of the chain to the next. -/
theorem AtTag.next {n : ℕ} {p : ℕ × MmState} (h : AtTag info n p)
    (hends : EntriesEnd info (tagOffset info n) (ramBefore info n)) :
    ∃ next, Returns (tagBody info p) next ∧ AtTag info (n + 1) next := by
  obtain ⟨tag, s⟩ := p
  obtain ⟨rfl, hram⟩ := h
  refine ⟨_, returns_tagBody (hram ▸ hends), rfl, ?_⟩
  rw [ramBefore_succ, ← hram]

/-- The walk goes on at a tag of the chain exactly if it visits it. -/
theorem AtTag.running_iff {n : ℕ} {p : ℕ × MmState} (h : AtTag info n p) :
    (p.1 < totalSize info && tagType info p.1 != tagEnd) = true ↔
      tagOffset info n < totalSize info ∧ tagType info (tagOffset info n) ≠ tagEnd := by
  rw [h.offset, Bool.and_eq_true, decide_eq_true_iff, bne_iff_ne]

/-- The walk is at a tag of the chain, and has visited those before it. -/
def Underway (info : ℕ → UInt8) (p : ℕ × MmState) : Prop :=
  ∃ n, AtTag info n p ∧
    ∀ i < n, tagOffset info i < totalSize info ∧ tagType info (tagOffset info i) ≠ tagEnd

theorem Underway.next (hadvances : ∀ n, Visits info n → Advances info n) {p : ℕ × MmState}
    (h : Underway info p) (hrunning : (p.1 < totalSize info && tagType info p.1 != tagEnd) = true) :
    ∃ next, Returns (tagBody info p) next ∧ Underway info next ∧
      totalSize info - next.1 < totalSize info - p.1 := by
  obtain ⟨n, hat, hbefore⟩ := h
  have hhere := hat.running_iff.mp hrunning
  have hvisits : Visits info n := fun i hi ↦
    (Nat.lt_or_eq_of_le hi).elim (hbefore i) fun heq ↦ heq ▸ hhere
  have hadvance := hadvances n hvisits
  obtain ⟨next, hreturns, hnext⟩ := hat.next fun hmmap hsize hstride ↦
    (hadvance.stride hmmap hsize hstride).imp_right (full_iff n).mpr
  refine ⟨next, hreturns, ⟨n + 1, hnext, fun i hi ↦ hvisits i (Nat.lt_succ_iff.mp hi)⟩, ?_⟩
  have hfurther : tagOffset info n < tagOffset info (n + 1) :=
    lt_nextTag hadvance.size_pos hadvance.size_le
  rw [hnext.offset, hat.offset]
  omega

/-- If all tags that it visits advance, the walk ends. -/
theorem returns_tagLoop (hadvances : ∀ n, Visits info n → Advances info n) :
    ∃ result, Returns (tagLoop info (8, mmStart)) result := by
  have hstart : Underway info (8, mmStart) := ⟨0, atTag_start, fun i hi ↦ absurd hi (Nat.not_lt_zero i)⟩
  obtain ⟨result, hresult, -⟩ := exists_returns tagBody_mono (fun p ↦ totalSize info - p.1)
    (fun _ ↦ Underway.next hadvances) hstart
  exact ⟨result, hresult⟩

/-- The walk is at a tag of the chain up to one that holds it up, or it stays there. -/
def Doomed (info : ℕ → UInt8) (n : ℕ) (p : ℕ × MmState) : Prop :=
  (∃ i ≤ n, AtTag info i p) ∨ (p.1 = tagOffset info n ∧ tagOffset info (n + 1) = tagOffset info n)

theorem tagBody_fst {p next : ℕ × MmState} {fuel : ℕ} (h : tagBody info p fuel = some next) :
    next.1 = nextTag info p.1 := by
  obtain ⟨ram, -, rfl⟩ := Option.map_eq_some_iff.mp h
  rfl

theorem Doomed.next {n : ℕ} (hadvance : ¬ Advances info n) {p next : ℕ × MmState} {fuel : ℕ}
    (h : Doomed info n p) (hnext : tagBody info p fuel = some next) : Doomed info n next := by
  rcases h with ⟨i, hi, hat⟩ | ⟨hstays, hsame⟩
  · have hends : EntriesEnd info (tagOffset info i) (ramBefore info i) := by
      by_contra hends
      rw [← hat.offset, ← hat.ram] at hends
      exact absurd (hnext.symm.trans (tagBody_eq_none hends fuel)) (by simp)
    rcases Nat.lt_or_eq_of_le hi with hless | rfl
    · obtain ⟨next', hreturns, hat'⟩ := hat.next hends
      obtain rfl := Returns.unique (tagBody_mono p) hreturns ⟨fuel, hnext⟩
      exact Or.inl ⟨i + 1, hless, hat'⟩
    · -- the inner loop ended, so it is the size of the tag that holds the walk up
      have hsame : tagOffset info (i + 1) = tagOffset info i := by
        refine nextTag_eq_self (or_iff_not_imp_left.mpr fun hpos ↦ ?_)
        by_contra hle
        exact hadvance ⟨Nat.pos_of_ne_zero hpos, not_lt.mp hle, fun hmmap hsize hstride ↦
          (hends hmmap hsize hstride).imp_right (full_iff i).mp⟩
      refine Or.inr ⟨?_, hsame⟩
      rw [tagBody_fst hnext, hat.offset]
      exact hsame
  · refine Or.inr ⟨?_, hsame⟩
    rw [tagBody_fst hnext, hstays]
    exact hsame

/-- If a tag that it visits does not advance, the walk never ends. -/
theorem tagLoop_eq_none {n : ℕ} (hvisits : Visits info n) (hadvance : ¬ Advances info n) (fuel : ℕ) :
    tagLoop info (8, mmStart) fuel = none := by
  refine loop_eq_none (fun p hp ↦ ?_) (fun _ _ _ hp hnext ↦ Doomed.next hadvance hp hnext)
    (Or.inl ⟨0, Nat.zero_le n, atTag_start⟩) fuel
  rcases hp with ⟨i, hi, hat⟩ | ⟨hstays, -⟩
  · exact hat.running_iff.mpr (hvisits i hi)
  · rw [hstays, Bool.and_eq_true, decide_eq_true_iff, bne_iff_ne]
    exact hvisits n le_rfl

end Walk

/-! ### The whole call -/

/-- `x86_64_mm_init` ends. -/
def MmInitEnds (bootMagic : ℕ) (bootInfo : Option (ℕ → UInt8)) : Prop :=
  ∀ kernelStart kernelEnd, ∃ result, Returns (x8664MmInit kernelStart kernelEnd bootMagic bootInfo) result

/-- A block of 16 bytes with one tag, of type 1 and size 0. -/
def stuckInfo : ℕ → UInt8 := fun i ↦ [16, 0, 0, 0, 0, 0, 0, 0, 1, 0, 0, 0, 0, 0, 0, 0].getD i 0

theorem not_mmInitEnds_of_stuck {info : ℕ → UInt8} {n : ℕ} (hvisits : Visits info n)
    (hadvance : ¬ Advances info n) : ¬ MmInitEnds bootloaderMagic (some info) := by
  intro hends
  obtain ⟨result, fuel, hresult⟩ := hends 0 0
  rw [x8664MmInit, walkBootInfo, if_pos rfl, tagLoop_eq_none hvisits hadvance] at hresult
  exact absurd hresult (by simp)

/-- The walk over that block never ends. -/
theorem not_mmInitEnds_stuck : ¬ MmInitEnds bootloaderMagic (some stuckInfo) := by
  refine not_mmInitEnds_of_stuck (n := 0) (fun i hi ↦ ?_) fun hadvance ↦ ?_
  · obtain rfl := Nat.le_zero.mp hi
    decide
  · exact absurd hadvance.size_pos (by decide)

/-- For every content of the block: `x86_64_mm_init` ends exactly if it was not called by a Multiboot2
loader, or every tag that the walk visits advances. -/
theorem mmInitEnds_iff (bootMagic : ℕ) (info : ℕ → UInt8) :
    MmInitEnds bootMagic (some info) ↔
      bootMagic ≠ bootloaderMagic ∨ ∀ n, Visits info n → Advances info n := by
  constructor
  · intro hends
    refine or_iff_not_imp_left.mpr fun hmagic n hvisits ↦ ?_
    rw [not_ne_iff.mp hmagic] at hends
    by_contra hadvance
    exact not_mmInitEnds_of_stuck hvisits hadvance hends
  · intro hcondition kernelStart kernelEnd
    by_cases hmagic : bootMagic = bootloaderMagic
    · obtain ⟨result, hwalk⟩ := returns_tagLoop (hcondition.resolve_left (not_not.mpr hmagic))
      rw [hmagic]
      exact ⟨_, returns_x8664MmInit kernelStart kernelEnd hwalk⟩
    · exact ⟨_, 0, by rw [x8664MmInit, walkBootInfo, if_neg hmagic]; rfl⟩

end MegKer.Memory
