import MegKer.Memory.FrameOwnership

/-!
# The reserved range and the bitmap's own storage

`pmm_init` is told which physical range the kernel image occupies and places the bitmap right
after it; "the bitmap ... reserves itself too" (`include/mm/pmm.h`). What that promises is
`ReservationKept`: in every run no frame that contains a byte of `[reserved_start, bitmap_end)` is
free or held by a caller, so a store into an allocated frame cannot change the bitmap.

`mark_range` rounds the end of every range down to a frame boundary, which is right for a range of
usable memory and wrong for a reserved one: the frame that holds the last bytes of the bitmap is
left as the regions marked it, unless the bitmap ends on a frame boundary.
`reservationKept_iff` states exactly that, over all runs: the reservation is kept if and only if
the bitmap ends on a frame boundary or no region covers the frame of its last byte.
`reservation_lost` is a boot layout where the first call to `pmm_alloc_frame` hands out the frame
the bitmap is stored in.

The start of a range is rounded down too, which is right for a reserved range and wrong for usable
memory: the frame in which a region begins is marked free as a whole. `FreeFramesUsable` states that
the free frames consist of usable memory, and `HeadsUsable` is the condition on the regions under
which they do.
-/

set_option autoImplicit false
set_option relaxedAutoImplicit false

namespace MegKer.Memory

open Foundation Finset

/-! ### What the reservation promises -/

/-- The frame contains some byte of `[low, high)`. -/
def FrameMeets (f low high : ℕ) : Prop :=
  ∃ a, f * frameSize ≤ a ∧ a < (f + 1) * frameSize ∧ low ≤ a ∧ a < high

/-- A store of one byte to physical memory, as far as the allocator notices: it rewrites a byte of
the bitmap when it lands in the bitmap's storage. -/
def storeByte (s : Pmm) (a : ℕ) (value : BitVec 8) : Pmm :=
  if s.bitmapBase ≤ a ∧ a < s.bitmapBase + s.bitmapBytes then
    { s with bitmap := Function.update s.bitmap (a - s.bitmapBase) value }
  else s

/-- In every run from `pmm_init`, no frame of the reserved range is free or held, and no store
into a held span changes the allocator's bitmap. -/
def ReservationKept (regions : List MemRegion) (reservedStart reservedEnd : ℕ) : Prop :=
  ∀ l, Ledger.Reachable (pmmInit regions reservedStart reservedEnd) l →
    (∀ f, FrameMeets f reservedStart (bitmapEnd l.pmm) →
      f ∉ freeSet l.pmm ∧ ∀ span ∈ l.held, f ∉ span.frames) ∧
    ∀ span ∈ l.held, ∀ a, a / frameSize ∈ span.frames → ∀ value, storeByte l.pmm a value = l.pmm

/-! ### Frames of a run stay within the frames that were free at the start -/

/-- Everything free or held was free at the start. Unlike `Ledger.Exclusive` this does not need
frame 0 to be used: a frame 0 that is taken and reported as address 0 is neither free nor held. -/
structure Ledger.Within (start : Pmm) (l : Ledger) : Prop where
  totalFrames_eq : l.pmm.totalFrames = start.totalFrames
  bitmapBase_eq : l.pmm.bitmapBase = start.bitmapBase
  bitmapBytes_eq : l.pmm.bitmapBytes = start.bitmapBytes
  free_subset : freeSet l.pmm ⊆ freeSet start
  held_subset : ∀ span ∈ l.held, span.frames ⊆ freeSet start

variable {start : Pmm} {l : Ledger}

theorem Ledger.Within.becomes (h : l.Within start) {pmm : Pmm} {free : Finset ℕ}
    {held : List Span} (hbecomes : Becomes l.pmm pmm free) (hfree : free ⊆ freeSet start)
    (hheld : ∀ span ∈ held, span.frames ⊆ freeSet start) : Ledger.Within start ⟨pmm, held⟩ where
  totalFrames_eq := hbecomes.totalFrames_eq.trans h.totalFrames_eq
  bitmapBase_eq := hbecomes.bitmapBase_eq.trans h.bitmapBase_eq
  bitmapBytes_eq := hbecomes.bitmapBytes_eq.trans h.bitmapBytes_eq
  free_subset := hbecomes.freeSet_eq.trans_subset hfree
  held_subset := hheld

/-- An allocation of free frames stays within, whether or not its address is recorded. -/
theorem Ledger.Within.grant (h : l.Within start) (hbound : start.totalFrames ≤ 2 ^ 52)
    {result : Pmm × ℕ} {first count : ℕ} (hrun : Ico first (first + count) ⊆ freeSet l.pmm)
    (hresult : result.2 = wrap (first * frameSize))
    (hbecomes : Becomes l.pmm result.1 (freeSet l.pmm \ Ico first (first + count))) :
    (l.grant result count).Within start := by
  refine h.becomes hbecomes (sdiff_subset.trans h.free_subset) fun span hspan ↦ ?_
  split_ifs at hspan with hzero
  · exact h.held_subset span hspan
  rcases List.mem_cons.mp hspan with rfl | hspan
  · intro f hf
    have hpos : 0 < count := by
      obtain ⟨hge, hlt⟩ := Span.mem_frames.mp hf
      simp only at hge hlt
      generalize result.2 / frameSize = q at hge hlt
      omega
    have hlt := (mem_freeSet.mp (h.free_subset (hrun (mem_Ico.mpr
      ⟨le_rfl, Nat.lt_add_of_pos_right hpos⟩)))).1
    rw [Span.frames, hresult, wrap_of_lt (by simp only [frameSize]; omega),
      Nat.mul_div_cancel _ (by norm_num)] at hf
    exact h.free_subset (hrun hf)
  · exact h.held_subset span hspan

theorem Ledger.Within.release (h : l.Within start) {pmm : Pmm} {span : Span} {first count : ℕ}
    {freed : Finset ℕ} (hspan : span ∈ l.held) (hle : span.addr / frameSize ≤ first)
    (hfit : first + count ≤ span.addr / frameSize + span.count)
    (hfreed : freed ⊆ Ico first (first + count))
    (hbecomes : Becomes l.pmm pmm (freeSet l.pmm ∪ freed)) :
    (l.release pmm span first count).Within start := by
  refine h.becomes hbecomes (union_subset h.free_subset fun f hf ↦ ?_) fun part hpart f hf ↦ ?_
  · obtain ⟨hge, hlt⟩ := mem_Ico.mp (hfreed hf)
    exact h.held_subset span hspan (Span.mem_frames.mpr ⟨by omega, by omega⟩)
  · rcases List.mem_append.mp hpart with hpart | hpart
    · exact h.held_subset span hspan
        ((Span.exists_mem_cut_iff hle hfit f).mp ⟨part, hpart, hf⟩).1
    · exact h.held_subset part (List.mem_of_mem_erase hpart) hf

theorem Ledger.Within.step (h : l.Within start) (hbound : start.totalFrames ≤ 2 ^ 52)
    {call : LedgerCall} (hallowed : l.Allowed call) : (l.step call).Within start := by
  cases call with
  | allocFrame =>
    rcases pmmAllocFrame_spec l.pmm with ⟨-, hsame⟩ | ⟨f, hf, -, hresult, hbecomes⟩
    · simpa [Ledger.step, Ledger.grant, hsame] using h
    · have hrun : Ico f (f + 1) = {f} := Nat.Ico_succ_singleton f
      exact h.grant hbound (by rw [hrun]; simpa using hf) hresult
        (by rw [hrun, sdiff_singleton_eq_erase]; exact hbecomes)
  | allocFrames count =>
    rcases pmmAllocFrames_spec l.pmm count with
      ⟨hsame, -⟩ | ⟨first, -, hrun, -, hresult, hbecomes⟩
    · simpa [Ledger.step, Ledger.grant, hsame] using h
    · exact h.grant hbound hrun hresult hbecomes
  | freeFrame span addr =>
    obtain ⟨hspan, hf⟩ := hallowed
    obtain ⟨hle, hlt⟩ := Span.mem_frames.mp hf
    refine h.release hspan hle (by omega) ?_ (becomes_pmmFreeFrame l.pmm addr)
    rw [Nat.Ico_succ_singleton]
    exact inter_subset_left
  | freeFrames span addr count =>
    obtain ⟨hspan, hle, hfit⟩ := hallowed
    refine h.release hspan hle hfit (inter_subset_left.trans ?_)
      (becomes_pmmFreeFrames l.pmm addr count)
    exact Ico_subset_Ico_right (wrap_le _)

theorem Ledger.within_of_reachable (hbound : start.totalFrames ≤ 2 ^ 52)
    (hl : Ledger.Reachable start l) : l.Within start := by
  induction hl with
  | init => exact ⟨rfl, rfl, rfl, Subset.rfl, fun span hspan ↦ absurd hspan (by simp)⟩
  | step call _ hallowed ih => exact ih.step hbound hallowed

/-! ### When the reservation is kept -/

/-- The bitmap ends on a frame boundary, or the frame of its last byte is in no usable region. -/
def TailFrameUnusable (regions : List MemRegion) (reservedEnd : ℕ) : Prop :=
  let tail := bitmapEnd (blankPmm regions reservedEnd)
  tail % frameSize = 0 ∨ ∀ r ∈ regions, tail / frameSize ∉ regionFrames r

section Layout

variable {regions : List MemRegion} {reservedStart reservedEnd : ℕ}

theorem bitmapEnd_pmmInit (regions : List MemRegion) (reservedStart reservedEnd : ℕ) :
    bitmapEnd (pmmInit regions reservedStart reservedEnd) =
      bitmapEnd (blankPmm regions reservedEnd) := by
  have hinit := becomes_pmmInit regions reservedStart reservedEnd
  rw [bitmapEnd, hinit.bitmapBase_eq, hinit.bitmapBytes_eq, bitmapEnd]

/-- Assumes: a reserved range whose end, with the bitmap behind it, stays below `2 ^ 64`. The
bitmap lies in `[reserved_end, bitmap_end)`. -/
theorem bitmap_layout
    (hend : reservedEnd + 7 + (blankPmm regions reservedEnd).bitmapBytes < 2 ^ 64) :
    reservedEnd ≤ (blankPmm regions reservedEnd).bitmapBase ∧
      bitmapEnd (blankPmm regions reservedEnd) =
        (blankPmm regions reservedEnd).bitmapBase + (blankPmm regions reservedEnd).bitmapBytes := by
  have hbase : (blankPmm regions reservedEnd).bitmapBase = (reservedEnd + 7) / 8 * 8 := by
    change alignUp reservedEnd (2 ^ 3) = (reservedEnd + 2 ^ 3 - 1) / 2 ^ 3 * 2 ^ 3
    exact alignUp_two_pow (by omega) (by omega)
  refine ⟨by rw [hbase]; omega, ?_⟩
  rw [bitmapEnd, wrap_of_lt (by rw [hbase]; omega)]

/-- A frame with a byte of the reserved range is not free after `pmm_init`, when the frame of the
bitmap's last byte is unusable. -/
theorem notMem_freeSet_of_meets (htail : TailFrameUnusable regions reservedEnd) {f : ℕ}
    (hmeets : FrameMeets f reservedStart (bitmapEnd (blankPmm regions reservedEnd))) :
    f ∉ freeSet (pmmInit regions reservedStart reservedEnd) := by
  intro hfree
  obtain ⟨⟨r, hr, hregion⟩, hunreserved⟩ :=
    (mem_freeSet_pmmInit regions reservedStart reservedEnd f).mp hfree
  obtain ⟨a, hge, hlt, hlow, hhigh⟩ := hmeets
  simp only [markedFrames, mem_Ico, not_and, not_lt] at hunreserved
  have hlast : f = bitmapEnd (blankPmm regions reservedEnd) / frameSize := by
    have hstart : reservedStart / frameSize ≤ f := by
      simp only [frameSize] at *
      omega
    have hle := hunreserved hstart
    simp only [frameSize] at *
    omega
  rcases htail with haligned | hnone
  · simp only [frameSize] at *
    omega
  · exact hnone r hr (hlast ▸ hregion)

/-- The reservation is kept when the frame of the bitmap's last byte is unusable. -/
theorem reservationKept_of_tailFrameUnusable (hrange : reservedStart ≤ reservedEnd)
    (hend : reservedEnd + 7 + (blankPmm regions reservedEnd).bitmapBytes < 2 ^ 64)
    (htail : TailFrameUnusable regions reservedEnd) :
    ReservationKept regions reservedStart reservedEnd := by
  intro l hl
  have h := Ledger.within_of_reachable
    (counted_pmmInit regions reservedStart reservedEnd).totalFrames_le hl
  have hinit := becomes_pmmInit regions reservedStart reservedEnd
  have hbase := h.bitmapBase_eq.trans hinit.bitmapBase_eq
  have hbytes := h.bitmapBytes_eq.trans hinit.bitmapBytes_eq
  have htop : bitmapEnd l.pmm = bitmapEnd (blankPmm regions reservedEnd) := by
    rw [bitmapEnd, hbase, hbytes, bitmapEnd]
  obtain ⟨hafter, hlength⟩ := bitmap_layout hend
  refine ⟨fun f hmeets ↦ ?_, fun span hspan a ha value ↦ ?_⟩
  · have hnot := notMem_freeSet_of_meets htail (htop ▸ hmeets)
    exact ⟨fun hfree ↦ hnot (h.free_subset hfree),
      fun span hspan hf ↦ hnot (h.held_subset span hspan hf)⟩
  · -- a store that hit the bitmap would be into a frame with a reserved byte
    have hmiss : ¬ (l.pmm.bitmapBase ≤ a ∧ a < l.pmm.bitmapBase + l.pmm.bitmapBytes) := by
      rintro ⟨hlow, hhigh⟩
      have hmeets : FrameMeets (a / frameSize) reservedStart
          (bitmapEnd (blankPmm regions reservedEnd)) := by
        refine ⟨a, Nat.div_mul_le_self a frameSize, ?_, by omega, by omega⟩
        simp only [frameSize]
        omega
      exact notMem_freeSet_of_meets htail hmeets (h.held_subset span hspan ha)
    rw [storeByte, if_neg hmiss]

/-- When the frame of the bitmap's last byte is partial and usable, it is free after `pmm_init`. -/
theorem tailFrameUnusable_of_reservationKept (hrange : reservedStart ≤ reservedEnd)
    (hend : reservedEnd + 7 + (blankPmm regions reservedEnd).bitmapBytes < 2 ^ 64)
    (hkept : ReservationKept regions reservedStart reservedEnd) :
    TailFrameUnusable regions reservedEnd := by
  by_contra htail
  simp only [TailFrameUnusable, not_or, not_forall, not_not] at htail
  obtain ⟨hportion, r, hr, hregion⟩ := htail
  obtain ⟨hafter, hlength⟩ := bitmap_layout hend
  have hframes := Nat.zero_lt_of_lt (mem_range.mp (regionFrames_subset_range hr hregion))
  have hbytes : 0 < (blankPmm regions reservedEnd).bitmapBytes := by
    change 0 < (highestTop regions / frameSize + 7) / 8
    generalize highestTop regions / frameSize = frames at hframes
    omega
  have hfree : bitmapEnd (blankPmm regions reservedEnd) / frameSize ∈
      freeSet (pmmInit regions reservedStart reservedEnd) :=
    (mem_freeSet_pmmInit _ _ _ _).mpr ⟨⟨r, hr, hregion⟩, fun h ↦ by
      have := (mem_Ico.mp h).2
      omega⟩
  refine ((hkept _ .init).1 (bitmapEnd (blankPmm regions reservedEnd) / frameSize) ?_).1 hfree
  simp only [bitmapEnd_pmmInit]
  refine ⟨bitmapEnd (blankPmm regions reservedEnd) - 1, ?_, ?_, ?_, ?_⟩
  all_goals simp only [frameSize] at *; omega

/-- Assumes: a reserved range, and a bitmap that ends below `2 ^ 64`. In every run the reserved
frames stay used and stores into held frames leave the bitmap alone if and only if the bitmap ends
on a frame boundary or no region covers the frame of its last byte. -/
theorem reservationKept_iff (hrange : reservedStart ≤ reservedEnd)
    (hend : reservedEnd + 7 + (blankPmm regions reservedEnd).bitmapBytes < 2 ^ 64) :
    ReservationKept regions reservedStart reservedEnd ↔ TailFrameUnusable regions reservedEnd :=
  ⟨tailFrameUnusable_of_reservationKept hrange hend,
    reservationKept_of_tailFrameUnusable hrange hend⟩

/-- The kernel image fills two frames from 1 MB on, and the 33 bytes of the bitmap follow at once,
at the start of frame `0x102`. That frame stays free, and the first call to `pmm_alloc_frame`
returns the address of the bitmap. -/
theorem reservation_lost :
    ¬ ReservationKept [⟨0x100000, 0x8000⟩] 0x100000 0x102000 ∧
      (pmmAllocFrame (pmmInit [⟨0x100000, 0x8000⟩] 0x100000 0x102000)).2 =
        (pmmInit [⟨0x100000, 0x8000⟩] 0x100000 0x102000).bitmapBase := by
  refine ⟨fun hkept ↦ ?_, by decide +kernel⟩
  have hfree : 0x102 ∈ freeSet (pmmInit [⟨0x100000, 0x8000⟩] 0x100000 0x102000) := by
    decide +kernel
  exact ((hkept _ .init).1 0x102 ⟨0x102000, by decide +kernel⟩).1 hfree

/-- With the usable memory starting behind the bitmap's frame, the reservation is kept although
the bitmap ends in the middle of that frame. -/
theorem reservationKept_iff_separate_region :
    ReservationKept [⟨0x103000, 0x5000⟩] 0x100000 0x102000 :=
  (reservationKept_iff (by decide) (by decide +kernel)).mpr (Or.inr (by decide +kernel))

end Layout

/-! ### Frames of usable memory -/

/-- The byte lies in a usable region. -/
def UsableByte (regions : List MemRegion) (a : ℕ) : Prop :=
  ∃ r ∈ regions, r.base ≤ a ∧ a < r.base + r.length

/-- Every byte of every frame that is free after `pmm_init` is usable. -/
def FreeFramesUsable (regions : List MemRegion) (reservedStart reservedEnd : ℕ) : Prop :=
  ∀ f ∈ freeSet (pmmInit regions reservedStart reservedEnd), ∀ a,
    f * frameSize ≤ a → a < (f + 1) * frameSize → UsableByte regions a

/-- Of every region that reaches beyond the frame in which it begins: that frame is marked used with
the reserved range, or its bytes before the region are usable too. There are no such bytes when the
region begins on a frame boundary. -/
def HeadsUsable (regions : List MemRegion) (reservedStart reservedEnd : ℕ) : Prop :=
  ∀ r ∈ regions, r.base / frameSize < (r.base + r.length) / frameSize →
    r.base / frameSize ∈ markedFrames reservedStart (bitmapEnd (blankPmm regions reservedEnd)) ∨
    ∀ a, r.base / frameSize * frameSize ≤ a → a < r.base → UsableByte regions a

/-- The frames that a region marks free are those from the one in which it begins to the one before
its end. -/
theorem mem_regionFrames {r : MemRegion} (hsum : r.base + r.length < 2 ^ 64) {f : ℕ} :
    f ∈ regionFrames r ↔
      r.base / frameSize ≤ f ∧ f < (r.base + r.length) / frameSize := by
  rw [regionFrames, wrap_of_lt hsum, markedFrames, mem_Ico]

/-- The frames that are free after `pmm_init` consist of usable memory exactly when the regions do
not begin inside a frame whose first bytes are not usable. -/
theorem freeFramesUsable_iff (regions : List MemRegion) (reservedStart reservedEnd : ℕ)
    (hsum : ∀ r ∈ regions, r.base + r.length < 2 ^ 64) :
    FreeFramesUsable regions reservedStart reservedEnd ↔
      HeadsUsable regions reservedStart reservedEnd := by
  constructor
  · intro husable r hr hbeyond
    by_cases hmarked : r.base / frameSize ∈
        markedFrames reservedStart (bitmapEnd (blankPmm regions reservedEnd))
    · exact Or.inl hmarked
    · have hregion := (mem_regionFrames (hsum r hr)).mpr ⟨le_rfl, hbeyond⟩
      have hfree := (mem_freeSet_pmmInit regions reservedStart reservedEnd _).mpr
        ⟨⟨r, hr, hregion⟩, hmarked⟩
      refine Or.inr fun a hge hlt ↦ husable _ hfree a hge ?_
      simp only [frameSize]
      omega
  · intro hheads f hfree a hge hlt
    obtain ⟨⟨r, hr, hregion⟩, hunmarked⟩ :=
      (mem_freeSet_pmmInit regions reservedStart reservedEnd f).mp hfree
    obtain ⟨hfirst, hlast⟩ := (mem_regionFrames (hsum r hr)).mp hregion
    simp only [frameSize] at hge hlt hfirst hlast
    by_cases hinside : r.base ≤ a
    · exact ⟨r, hr, hinside, by omega⟩
    · -- the byte is before the region, so the region begins in this frame
      have hhead : r.base / frameSize = f := by
        simp only [frameSize]
        omega
      rcases hheads r hr (by simp only [frameSize]; omega) with hmarked | hbefore
      · exact absurd (hhead ▸ hmarked) hunmarked
      · exact hbefore a (by rw [hhead]; exact hge) (by omega)

/-- A region that begins in the middle of frame 1 makes all of that frame free. -/
theorem not_freeFramesUsable_unaligned :
    ¬ FreeFramesUsable [⟨0x1800, 0x2800⟩] 0x100000 0x102000 := by
  intro husable
  have hfree : 1 ∈ freeSet (pmmInit [⟨0x1800, 0x2800⟩] 0x100000 0x102000) := by decide +kernel
  obtain ⟨r, hr, hbase, -⟩ := husable 1 hfree 0x1000 (by decide) (by decide)
  rw [List.mem_singleton.mp hr] at hbase
  exact absurd hbase (by decide)

/-- With a neighbour that covers the first bytes of its frame, such a region does no harm. -/
theorem freeFramesUsable_iff_neighbours :
    FreeFramesUsable [⟨0x1000, 0x800⟩, ⟨0x1800, 0x2800⟩] 0x100000 0x102000 := by
  refine (freeFramesUsable_iff _ _ _ (by decide)).mpr fun r hr hbeyond ↦ Or.inr fun a hge hlt ↦ ?_
  rcases List.mem_pair.mp hr with rfl | rfl
  · exact absurd hbeyond (by decide)
  · exact ⟨⟨0x1000, 0x800⟩, List.mem_cons_self, hge, hlt⟩

end MegKer.Memory
