import MegKer.Memory.FrameAllocator

/-!
# The free-frame counter

`free_frames` is maintained in five places of `mm/pmm.c` with different guards: `mark_range` tests
a bit before it counts, `pmm_free_frame` rejects frames that are out of range or already free, and
`pmm_alloc_frames` subtracts a whole run without looking again. `freeFrames_pmmAfter` states that
none of this can go wrong: for every initialization and every sequence of calls with arbitrary
arguments (double frees, unaligned and out-of-range addresses, any counts), the counter is the
number of clear bits, never wraps, and the padding bits of the last bitmap byte stay set.

The invariant `Accounted` is `Counted` with the layout of the bitmap and its padding. Each call
preserves it because each call has a `Becomes` specification.
-/

set_option autoImplicit false
set_option relaxedAutoImplicit false

namespace MegKer.Memory

open Foundation Finset

/-- A call to the allocator, with arbitrary arguments. -/
inductive PmmCall
  | allocFrame
  | allocFrames (count : ℕ)
  | freeFrame (addr : ℕ)
  | freeFrames (addr count : ℕ)
  deriving DecidableEq, Repr

/-- The state after a call. -/
def PmmCall.run (s : Pmm) : PmmCall → Pmm
  | .allocFrame => (pmmAllocFrame s).1
  | .allocFrames count => (pmmAllocFrames s count).1
  | .freeFrame addr => pmmFreeFrame s addr
  | .freeFrames addr count => pmmFreeFrames s addr count

/-- Whatever its arguments are, a call leads to a state with some free set. -/
theorem exists_becomes_run (s : Pmm) (call : PmmCall) : ∃ free, Becomes s (call.run s) free := by
  cases call with
  | allocFrame =>
    rcases pmmAllocFrame_spec s with ⟨-, hsame⟩ | ⟨f, -, -, -, htake⟩
    · exact ⟨freeSet s, by rw [PmmCall.run, hsame]; exact Becomes.refl s⟩
    · exact ⟨_, htake⟩
  | allocFrames count =>
    rcases pmmAllocFrames_spec s count with ⟨hsame, -⟩ | ⟨start, -, -, -, -, htake⟩
    · exact ⟨freeSet s, by rw [PmmCall.run, hsame]; exact Becomes.refl s⟩
    · exact ⟨_, htake⟩
  | freeFrame addr => exact ⟨_, becomes_pmmFreeFrame s addr⟩
  | freeFrames addr count => exact ⟨_, becomes_pmmFreeFrames s addr count⟩

/-- The accounting invariant: the counter is right, the bitmap has one bit for each frame, and the
bits of its last byte that stand for no frame are set. -/
structure Accounted (s : Pmm) : Prop extends Counted s where
  bitmapBytes_eq : s.bitmapBytes = (s.totalFrames + 7) / 8
  padding : ∀ f, s.totalFrames ≤ f → f < 8 * s.bitmapBytes → bitTest s f = true

theorem Accounted.becomes {before after : Pmm} {free : Finset ℕ} (h : Accounted before)
    (hbecomes : Becomes before after free) : Accounted after where
  toCounted := hbecomes.counted h.toCounted
  bitmapBytes_eq := by
    rw [hbecomes.bitmapBytes_eq, hbecomes.totalFrames_eq, h.bitmapBytes_eq]
  padding := fun f hge hlt ↦ by
    rw [hbecomes.totalFrames_eq] at hge
    rw [hbecomes.bitmapBytes_eq] at hlt
    rw [hbecomes.padding_eq f hge]
    exact h.padding f hge hlt

theorem accounted_pmmInit (regions : List MemRegion) (reservedStart reservedEnd : ℕ) :
    Accounted (pmmInit regions reservedStart reservedEnd) :=
  Accounted.becomes
    { toCounted := counted_blankPmm regions reservedEnd
      bitmapBytes_eq := rfl
      padding := fun f _ _ ↦ PackedBits.test_ones f }
    (becomes_pmmInit regions reservedStart reservedEnd)

theorem accounted_foldl_run (calls : List PmmCall) :
    ∀ s : Pmm, Accounted s → Accounted (calls.foldl PmmCall.run s) := by
  induction calls with
  | nil => intro s h; exact h
  | cons call rest ih =>
    intro s h
    obtain ⟨free, hbecomes⟩ := exists_becomes_run s call
    exact ih _ (h.becomes hbecomes)

/-- The frames that have been taken are below all that are left. -/
structure LowestTaken (before after : Pmm) : Prop where
  subset : freeSet after ⊆ freeSet before
  lowest : ∀ f ∈ freeSet before, f ∉ freeSet after → ∀ g ∈ freeSet after, f < g

namespace LowestTaken

theorem refl (s : Pmm) : LowestTaken s s :=
  ⟨Subset.refl _, fun _ hf hnot ↦ absurd hf hnot⟩

/-- `pmm_alloc_frame` takes the lowest free frame. -/
theorem allocFrame {before s : Pmm} (h : LowestTaken before s) :
    LowestTaken before (pmmAllocFrame s).1 := by
  rcases pmmAllocFrame_spec s with ⟨-, hnone⟩ | ⟨f, hf, hlowest, -, hbecomes⟩
  · rwa [hnone]
  · have hfree := hbecomes.freeSet_eq
    refine ⟨hfree ▸ (erase_subset _ _).trans h.subset, fun g hg hnot k hk ↦ ?_⟩
    rw [hfree] at hnot hk
    obtain ⟨hne, hkfree⟩ := mem_erase.mp hk
    by_cases hgfree : g ∈ freeSet s
    · obtain rfl : g = f := by
        by_contra hgf
        exact hnot (mem_erase.mpr ⟨hgf, hgfree⟩)
      exact lt_of_le_of_ne (hlowest k hkfree) (Ne.symm hne)
    · exact h.lowest g hg hgfree k hkfree

/-- How many frames have been taken determines which. -/
theorem freeSet_eq {before s t : Pmm} (hs : LowestTaken before s) (ht : LowestTaken before t)
    (hcard : (freeSet s).card = (freeSet t).card) : freeSet s = freeSet t := by
  have hsubset : ∀ {a b : Pmm}, LowestTaken before a → LowestTaken before b →
      (freeSet a).card ≤ (freeSet b).card → freeSet a ⊆ freeSet b := by
    intro a b ha hb hle f hf
    by_contra hnot
    have hbelow : freeSet b ⊆ (freeSet a).erase f := by
      intro g hg
      have hlt := hb.lowest f (ha.subset hf) hnot g hg
      refine mem_erase.mpr ⟨hlt.ne', ?_⟩
      by_contra hga
      exact absurd (ha.lowest g (hb.subset hg) hga f hf) (not_lt.mpr hlt.le)
    have hless := card_le_card hbelow
    rw [card_erase_of_mem hf] at hless
    have hpos := card_pos.mpr ⟨f, hf⟩
    omega
  exact Subset.antisymm (hsubset hs ht hcard.le) (hsubset ht hs hcard.ge)

end LowestTaken

/-- The allocator after an initialization and a sequence of calls. -/
def pmmAfter (regions : List MemRegion) (reservedStart reservedEnd : ℕ) (calls : List PmmCall) :
    Pmm :=
  calls.foldl PmmCall.run (pmmInit regions reservedStart reservedEnd)

/-- After every initialization and every sequence of calls, `free_frames` is the number of clear
bits below `total_frames`. It has not wrapped: it is at most the number of frames, which is far
below `2 ^ 64`. The padding bits of the last bitmap byte are set. -/
theorem freeFrames_pmmAfter (regions : List MemRegion) (reservedStart reservedEnd : ℕ)
    (calls : List PmmCall) :
    let s := pmmAfter regions reservedStart reservedEnd calls
    s.freeFrames = ((range s.totalFrames).filter fun f ↦ bitTest s f = false).card ∧
      s.freeFrames ≤ s.totalFrames ∧ s.totalFrames ≤ 2 ^ 52 ∧
      ∀ f, s.totalFrames ≤ f → f < 8 * s.bitmapBytes → bitTest s f = true := by
  intro s
  have h : Accounted s :=
    accounted_foldl_run calls _ (accounted_pmmInit regions reservedStart reservedEnd)
  have hcard : (freeSet s).card ≤ s.totalFrames := by
    simpa using card_le_card (freeSet_subset_range s)
  exact ⟨h.freeFrames_eq, h.freeFrames_eq.trans_le hcard, h.totalFrames_le, h.padding⟩

end MegKer.Memory
