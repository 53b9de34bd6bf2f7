import MegKer.Memory.FrameAllocator
import Mathlib.Data.List.Perm.Basic

/-!
# Runs of frames

`pmm_alloc_frames` looks for consecutive free frames, and `pmm_alloc_frame` for one. The first takes
the lowest run there is, and for a run of one frame the two scans, written independently, do the same
to the state and return the same address.

`pmm_free_frames` gives a range back. It is `pmm_free_frame` on each frame of the range, and the
order does not matter: clearing bits commutes, and a frame that is free already, or beyond the last
one, is passed over by both (`pmmFreeFrame_comm`). Giving back what an allocation took restores the
allocator, bit by bit (`foldl_markFrame_takeRun`).
-/

set_option autoImplicit false
set_option relaxedAutoImplicit false

namespace MegKer.Memory

open Foundation Finset

/-- The ranges of the variables: `total_frames` is a 64-bit address divided by 4096, and
`free_frames` a 64-bit number. -/
structure InRange (s : Pmm) : Prop where
  totalFrames_le : s.totalFrames ≤ 2 ^ 52
  freeFrames_lt : s.freeFrames < 2 ^ 64

/-- The frames of a run that is free lie below `total_frames`. -/
theorem le_totalFrames_of_run {s : Pmm} {start count : ℕ} (hcount : 0 < count)
    (hrun : Ico start (start + count) ⊆ freeSet s) : start + count ≤ s.totalFrames := by
  have hlast := (mem_freeSet.mp (hrun (mem_Ico.mpr
    ⟨(by omega : start ≤ start + count - 1), by omega⟩))).1
  omega

/-- There is only one lowest run of free frames. -/
theorem lowest_run_unique {s : Pmm} {count a b : ℕ} (ha : Ico a (a + count) ⊆ freeSet s)
    (hbelow : ∀ lower < a, ¬ Ico lower (lower + count) ⊆ freeSet s)
    (hb : Ico b (b + count) ⊆ freeSet s)
    (hbelow' : ∀ lower < b, ¬ Ico lower (lower + count) ⊆ freeSet s) : a = b := by
  rcases Nat.lt_trichotomy a b with hlt | heq | hgt
  · exact absurd ha (hbelow' a hlt)
  · exact heq
  · exact absurd hb (hbelow b hgt)

/-! ### The lowest run -/

section Lowest

variable {s : Pmm} {count : ℕ}

/-- The state after a run of frames is taken. -/
def takeRun (s : Pmm) (start count : ℕ) : Pmm :=
  { (List.range' start count).foldl bitSet s with freeFrames := wrapSub s.freeFrames count }

/-- What `pmm_alloc_frames` does, as a state and an address. -/
theorem pmmAllocFrames_cases (s : Pmm) (hcount : 0 < count) :
    (pmmAllocFrames s count = (s, 0) ∧ ∀ start, ¬ Ico start (start + count) ⊆ freeSet s) ∨
    ∃ start, Ico start (start + count) ⊆ freeSet s ∧
      (∀ lower < start, ¬ Ico lower (lower + count) ⊆ freeSet s) ∧
      pmmAllocFrames s count = (takeRun s start count, wrap (start * frameSize)) := by
  rcases pmmAllocFrames_spec s count with ⟨hsame, hnone⟩ | ⟨start, -, hrun, hlowest, -, -⟩
  · exact Or.inl ⟨hsame, hnone.resolve_left (by omega)⟩
  · refine Or.inr ⟨start, hrun, hlowest, ?_⟩
    have hinit : ScanInv s count 0 (if 0 = 0 then 0 else 0) 0 :=
      ⟨by omega, by simp, fun g _ hlt ↦ by simp at hlt, fun lower hlt ↦ by simp at hlt⟩
    have hle := le_totalFrames_of_run hcount hrun
    have hclear := (runAt_iff_subset hle).mpr hrun
    rw [pmmAllocFrames, if_neg (by omega)]
    rcases scanRun_spec s count s.totalFrames 0 0 0 hinit with
      ⟨found, hscan, hfound, hbelow, hfirst⟩ | ⟨-, hno⟩
    · -- both are the lowest run of clear bits
      have heq : found = start := by
        rcases Nat.lt_trichotomy found start with hlt | heq | hgt
        · exact absurd ((runAt_iff_subset (by omega)).mp hfound) (hlowest found hlt)
        · exact heq
        · exact absurd hclear (hfirst start hgt)
      rw [hscan, heq]
      rfl
    · exact absurd hclear (hno start (by omega))

/-- The address of a frame below the bound does not wrap. -/
theorem InRange.wrap_frame (h : InRange s) {f : ℕ} (hf : f < s.totalFrames) :
    wrap (f * frameSize) = f * frameSize := by
  have hle := h.totalFrames_le
  exact wrap_of_lt (by simp only [frameSize]; omega)

theorem bitTest_takeRun (s : Pmm) (start count f : ℕ) :
    bitTest (takeRun s start count) f = (decide (f ∈ Ico start (start + count)) || bitTest s f) := by
  rw [takeRun, foldl_bitSet_eq]
  change PackedBits.test _ f = _
  rw [test_foldl_set]
  simp only [List.mem_range'_1, mem_Ico]
  rfl

/-- A single frame is found by both scans alike. -/
theorem pmmAllocFrames_one (s : Pmm) : pmmAllocFrames s 1 = pmmAllocFrame s := by
  have hsingle : ∀ start, Ico start (start + 1) ⊆ freeSet s ↔ start ∈ freeSet s := by
    intro start
    rw [Nat.Ico_succ_singleton, singleton_subset_iff]
  rcases pmmAllocFrames_cases s Nat.one_pos with
    ⟨hsame, hnone⟩ | ⟨start, hrun, hlowest, hresult⟩
  · have hempty : ∀ f ∈ List.range s.totalFrames, ¬ (!bitTest s f) = true := by
      intro f hf hclear
      refine hnone f ((hsingle f).mpr (mem_freeSet.mpr ⟨List.mem_range.mp hf, ?_⟩))
      simpa using hclear
    rw [hsame, pmmAllocFrame, List.find?_eq_none.mpr hempty]
  · have hfree := mem_freeSet.mp ((hsingle start).mp hrun)
    have hfind : (List.range s.totalFrames).find? (fun f ↦ !bitTest s f) = some start := by
      rw [List.find?_range_eq_some]
      refine ⟨by simp [hfree.2], List.mem_range.mpr hfree.1, fun lower hlower ↦ ?_⟩
      have hused := hlowest lower hlower
      rw [hsingle, mem_freeSet, not_and] at hused
      simpa using hused (by omega)
    rw [hresult, pmmAllocFrame, hfind]
    rfl

/-- For every state in which frame 0 is not free, and every count. When there is a run of `count`
free frames, the address of the lowest one is returned, which is not 0, exactly its frames are
marked used, and nothing but the bitmap and the counter changes; without such a run the result is 0 and
the state is unchanged, and not otherwise. A request for one frame is `pmm_alloc_frame`. -/
theorem pmmAllocFrames_lowest (s : Pmm) (count : ℕ) (hrange : InRange s) (hzero : 0 ∉ freeSet s)
    (hcount : 0 < count) :
    (∀ start, Ico start (start + count) ⊆ freeSet s →
      (∀ lower < start, ¬ Ico lower (lower + count) ⊆ freeSet s) →
        (∃ bitmap, pmmAllocFrames s count =
            ({ s with bitmap := bitmap, freeFrames := wrapSub s.freeFrames count }, start * frameSize) ∧
          ∀ f, bitmap.test f = (decide (f ∈ Ico start (start + count)) || bitTest s f)) ∧
        start * frameSize ≠ 0 ∧
        freeSet (pmmAllocFrames s count).1 = freeSet s \ Ico start (start + count)) ∧
    (pmmAllocFrames s count = (s, 0) ↔ ∀ start, ¬ Ico start (start + count) ⊆ freeSet s) ∧
    ((pmmAllocFrames s count).2 = 0 ↔ ∀ start, ¬ Ico start (start + count) ⊆ freeSet s) ∧
    pmmAllocFrames s 1 = pmmAllocFrame s := by
  have hpos : ∀ start, Ico start (start + count) ⊆ freeSet s →
      wrap (start * frameSize) = start * frameSize ∧ start * frameSize ≠ 0 := by
    intro start hrun
    have hstart := hrun (mem_Ico.mpr ⟨le_rfl, Nat.lt_add_of_pos_right hcount⟩)
    refine ⟨hrange.wrap_frame (mem_freeSet.mp hstart).1, fun hnull ↦ hzero ?_⟩
    rwa [(Nat.mul_eq_zero.mp hnull).resolve_right (by norm_num)] at hstart
  rcases pmmAllocFrames_cases s hcount with ⟨hsame, hnone⟩ | ⟨start, hrun, hlowest, hresult⟩
  · refine ⟨fun start hrun ↦ absurd hrun (hnone start), ⟨fun _ ↦ hnone, fun _ ↦ hsame⟩,
      ⟨fun _ ↦ hnone, fun _ ↦ by rw [hsame]⟩, pmmAllocFrames_one s⟩
  · obtain ⟨hwrap, hne⟩ := hpos start hrun
    rw [hwrap] at hresult
    have hsome : ¬ ∀ start, ¬ Ico start (start + count) ⊆ freeSet s := fun h ↦ h start hrun
    refine ⟨fun other hother hfirst ↦ ?_, ⟨fun h ↦ ?_, fun h ↦ absurd h hsome⟩,
      ⟨fun h ↦ ?_, fun h ↦ absurd h hsome⟩, pmmAllocFrames_one s⟩
    · obtain rfl : other = start := lowest_run_unique hother hfirst hrun hlowest
      rw [hresult]
      refine ⟨⟨(takeRun s other count).bitmap, ?_, bitTest_takeRun s other count⟩, hne,
        (becomes_takeRun hrun).freeSet_eq⟩
      rw [takeRun, foldl_bitSet_eq]
    · rw [hresult] at h
      exact absurd (congrArg Prod.snd h) hne
    · rw [hresult] at h
      exact absurd h hne

/-- Eight frames, of which 1, 3 and 4 are free. -/
def fewFree : Pmm where
  bitmapBase := 0x1000
  bitmap := fun _ ↦ 0b11100101#8
  bitmapBytes := 1
  totalFrames := 8
  freeFrames := 3

/-- The lowest run of two free frames starts at frame 3. -/
theorem pmmAllocFrames_lowest_fewFree :
    (pmmAllocFrames fewFree 2).2 = 0x3000 ∧ freeSet (pmmAllocFrames fewFree 2).1 = {1} := by
  obtain ⟨⟨bitmap, hresult, -⟩, -, hfree⟩ := (pmmAllocFrames_lowest fewFree 2
    ⟨by decide, by decide⟩ (by decide) (by decide)).1 3 (by decide) (by decide)
  exact ⟨congrArg Prod.snd hresult, hfree.trans (by decide)⟩

end Lowest

/-! ### Giving frames back -/

/-- Giving back the frames of a list, one by one. -/
def freeEach (s : Pmm) (frames : List ℕ) : Pmm :=
  frames.foldl (fun s f ↦ pmmFreeFrame s (f * frameSize)) s

/-- `pmm_free_frame` on a frame is the body of the other loops, below `total_frames`. -/
theorem pmmFreeFrame_eq (s : Pmm) (f : ℕ) :
    pmmFreeFrame s (f * frameSize) = if f < s.totalFrames then markFrame false s f else s := by
  unfold pmmFreeFrame markFrame
  rw [Nat.mul_div_cancel _ (by norm_num)]
  by_cases hlt : f < s.totalFrames
  · by_cases hset : bitTest s f = true
    · simp [hlt, hset, Nat.not_le.mpr hlt]
    · simp [hlt, hset]
  · simp [hlt, Nat.not_lt.mp hlt]

theorem totalFrames_markFrame (used : Bool) (s : Pmm) (f : ℕ) :
    (markFrame used s f).totalFrames = s.totalFrames := by
  unfold markFrame
  split_ifs <;> rfl

theorem bitTest_markFrame_free (s : Pmm) (f g : ℕ) :
    bitTest (markFrame false s f) g = (!decide (f = g) && bitTest s g) := by
  unfold markFrame
  rw [if_neg Bool.false_ne_true]
  split_ifs with hset
  · exact PackedBits.test_clear s.bitmap f g
  · by_cases hfg : f = g
    · rw [← hfg, Bool.eq_false_of_not_eq_true hset, Bool.and_false]
    · simp [hfg]

/-- Freeing two frames commutes. -/
theorem markFrame_free_comm (s : Pmm) (f g : ℕ) :
    markFrame false (markFrame false s f) g = markFrame false (markFrame false s g) f := by
  by_cases hfg : f = g
  · rw [hfg]
  have hbit : bitTest (markFrame false s f) g = bitTest s g := by
    rw [bitTest_markFrame_free]
    simp [hfg]
  have hbit' : bitTest (markFrame false s g) f = bitTest s f := by
    rw [bitTest_markFrame_free]
    simp [Ne.symm hfg]
  have hstep : ∀ t h, markFrame false t h =
      if bitTest t h then { bitClear t h with freeFrames := wrap (t.freeFrames + 1) } else t :=
    fun _ _ ↦ rfl
  rw [hstep (markFrame false s f), hstep (markFrame false s g), hbit, hbit', hstep s f, hstep s g]
  by_cases hf : bitTest s f = true
  · by_cases hg : bitTest s g = true
    · simp only [hf, hg, if_true, bitClear, PackedBits.clear_comm s.bitmap f g]
    · simp only [hf, hg, if_true, Bool.false_eq_true, if_false]
  · by_cases hg : bitTest s g = true
    · simp only [hf, hg, if_true, Bool.false_eq_true, if_false]
    · simp only [hf, hg, Bool.false_eq_true, if_false]

/-- Freeing two frames by `pmm_free_frame` commutes. -/
theorem pmmFreeFrame_comm (s : Pmm) (f g : ℕ) :
    pmmFreeFrame (pmmFreeFrame s (f * frameSize)) (g * frameSize) =
      pmmFreeFrame (pmmFreeFrame s (g * frameSize)) (f * frameSize) := by
  simp only [pmmFreeFrame_eq]
  by_cases hf : f < s.totalFrames
  · by_cases hg : g < s.totalFrames
    · simp only [hf, hg, if_true, totalFrames_markFrame, markFrame_free_comm s f g]
    · simp only [hf, hg, if_true, if_false, totalFrames_markFrame]
  · simp only [hf, if_false]
    split_ifs with hg hf'
    · rw [totalFrames_markFrame] at hf'
      exact absurd hf' hf
    · rfl
    · rfl

/-- The order in which frames are given back does not matter. -/
theorem freeEach_perm (s : Pmm) {frames order : List ℕ} (h : order.Perm frames) :
    freeEach s order = freeEach s frames :=
  h.foldl_eq' (fun f _ g _ s ↦ pmmFreeFrame_comm s f g) s

/-- Giving back consecutive frames is the loop of `pmm_free_frames`, which stops at
`total_frames`. -/
theorem freeEach_range' (n : ℕ) :
    ∀ (s : Pmm) (first : ℕ), freeEach s (List.range' first n) =
      (List.range' first (min (first + n) s.totalFrames - first)).foldl (markFrame false) s := by
  induction n with
  | zero =>
    intro s first
    rw [Nat.sub_eq_zero_of_le (by omega)]
    rfl
  | succ n ih =>
    intro s first
    have hcons : freeEach s (List.range' first (n + 1)) =
        freeEach (pmmFreeFrame s (first * frameSize)) (List.range' (first + 1) n) := rfl
    rw [hcons, pmmFreeFrame_eq, ih]
    by_cases hlt : first < s.totalFrames
    · have hlength : min (first + (n + 1)) s.totalFrames - first =
          min (first + 1 + n) s.totalFrames - (first + 1) + 1 := by omega
      rw [if_pos hlt, totalFrames_markFrame, hlength, List.range'_succ, List.foldl_cons]
    · rw [if_neg hlt, Nat.sub_eq_zero_of_le (by omega), Nat.sub_eq_zero_of_le (by omega)]
      rfl

/-- `pmm_free_frames` is `pmm_free_frame` on each of its frames. -/
theorem pmmFreeFrames_eq_freeEach (s : Pmm) {addr count : ℕ}
    (hsum : addr / frameSize + count < 2 ^ 64) {order : List ℕ}
    (horder : order.Perm (List.range' (addr / frameSize) count)) :
    pmmFreeFrames s addr count = freeEach s order := by
  rw [freeEach_perm s horder, freeEach_range', pmmFreeFrames, wrap_of_lt hsum]

/-! ### Giving back what was taken -/

/-- Clearing the bits that a run of frames has set gives the bitmap back, and the count goes up by
one for each of them. -/
theorem foldl_markFrame_takeRun (n : ℕ) :
    ∀ (s : Pmm) (start counter : ℕ), RunAt s start n →
      ∃ counter', (List.range' start n).foldl (markFrame false)
          { (List.range' start n).foldl bitSet s with freeFrames := counter } =
        { s with freeFrames := counter' } ∧ wrap counter' = wrap (counter + n) := by
  induction n with
  | zero => exact fun s start counter _ ↦ ⟨counter, rfl, rfl⟩
  | succ n ih =>
    intro s start counter hrun
    have hclear : bitTest s start = false := hrun start le_rfl (by omega)
    have hhead : markFrame false
        { (List.range' start (n + 1)).foldl bitSet s with freeFrames := counter } start =
        { (List.range' (start + 1) n).foldl bitSet s with freeFrames := wrap (counter + 1) } := by
      have hset : bitTest { (List.range' start (n + 1)).foldl bitSet s with
          freeFrames := counter } start = true := by
        rw [foldl_bitSet_eq]
        change PackedBits.test _ start = true
        rw [test_foldl_set]
        simp
      have hbitmap : PackedBits.clear
          ((List.range' start (n + 1)).foldl PackedBits.set s.bitmap) start =
          (List.range' (start + 1) n).foldl PackedBits.set s.bitmap := by
        refine PackedBits.ext_test fun f ↦ ?_
        rw [PackedBits.test_clear, test_foldl_set, test_foldl_set]
        by_cases hf : start = f
        · have hbit : s.bitmap.test f = false := hf ▸ hclear
          simp [hf, hbit]
        · have hmem : f ∈ List.range' start (n + 1) ↔ f ∈ List.range' (start + 1) n := by
            rw [List.mem_range'_1, List.mem_range'_1]
            omega
          simp only [hf, hmem, decide_false, Bool.not_false, Bool.true_and]
      rw [markFrame, if_neg Bool.false_ne_true, if_pos hset]
      simp only [foldl_bitSet_eq, bitClear, hbitmap]
    obtain ⟨counter', hrest, hcounter⟩ := ih s (start + 1) (wrap (counter + 1))
      fun g hge hlt ↦ hrun g (by omega) (by omega)
    refine ⟨counter', ?_, ?_⟩
    · rw [List.range'_succ, List.foldl_cons, ← List.range'_succ, hhead]
      exact hrest
    · rw [hcounter]
      simp only [wrap]
      omega

/-- The count that a run of frames was taken from comes back. -/
theorem wrap_wrapSub_add {x n : ℕ} (hx : x < 2 ^ 64) (hn : n < 2 ^ 64) :
    wrap (wrapSub x n + n) = x := by
  simp only [wrap, wrapSub, Nat.mod_eq_of_lt hn]
  omega

/-- Freeing a run that was just taken restores the state. -/
theorem foldl_markFrame_restores {s : Pmm} (hrange : InRange s) {start n : ℕ} (hn : 0 < n)
    (hrun : Ico start (start + n) ⊆ freeSet s) :
    (List.range' start n).foldl (markFrame false) (takeRun s start n) = s := by
  have hle := le_totalFrames_of_run hn hrun
  have hbound := hrange.totalFrames_le
  obtain ⟨k, rfl⟩ := Nat.exists_eq_add_of_lt hn
  obtain ⟨counter, hfold, hcounter⟩ := foldl_markFrame_takeRun (0 + k + 1) s start
    (wrapSub s.freeFrames (0 + k + 1)) ((runAt_iff_subset hle).mpr hrun)
  have hlt : ∀ (frames : List ℕ) (t : Pmm), t.freeFrames < 2 ^ 64 →
      (frames.foldl (markFrame false) t).freeFrames < 2 ^ 64 := by
    intro frames
    induction frames with
    | nil => exact fun t ht ↦ ht
    | cons f frames ih =>
      refine fun t ht ↦ ih _ ?_
      unfold markFrame
      rw [if_neg Bool.false_ne_true]
      split_ifs
      · exact wrap_lt _
      · exact ht
  have hlast := hlt (List.range' start (0 + k + 1)) (takeRun s start (0 + k + 1))
    (Nat.mod_lt _ (by norm_num))
  rw [takeRun, hfold] at hlast
  have hvalue : counter = s.freeFrames := by
    rw [← wrap_of_lt (show counter < 2 ^ 64 from hlast), hcounter]
    exact wrap_wrapSub_add hrange.freeFrames_lt (by omega)
  rw [takeRun, hfold, hvalue]

/-- For every state and every `n` for which `pmm_alloc_frames` returns an address, giving the frames
back restores the state, by one call or frame by frame in any order; and for every state, address and
count, `pmm_free_frames` is `pmm_free_frame` on each of its frames, in any order. -/
theorem pmmFreeFrames_restores (s : Pmm) :
    (InRange s → ∀ n, 0 < n → (pmmAllocFrames s n).2 ≠ 0 →
      pmmFreeFrames (pmmAllocFrames s n).1 (pmmAllocFrames s n).2 n = s ∧
      ∀ order : List ℕ, order.Perm (List.range' ((pmmAllocFrames s n).2 / frameSize) n) →
        freeEach (pmmAllocFrames s n).1 order = s) ∧
    ∀ addr count, addr / frameSize + count < 2 ^ 64 →
      ∀ order : List ℕ, order.Perm (List.range' (addr / frameSize) count) →
        pmmFreeFrames s addr count = freeEach s order := by
  refine ⟨fun hrange n hn hne ↦ ?_, fun addr count hsum order horder ↦
    pmmFreeFrames_eq_freeEach s hsum horder⟩
  rcases pmmAllocFrames_cases s hn with ⟨hsame, -⟩ | ⟨start, hrun, -, hresult⟩
  · exact absurd (congrArg Prod.snd hsame) hne
  · have hle := le_totalFrames_of_run hn hrun
    have hbound := hrange.totalFrames_le
    have htotal : (takeRun s start n).totalFrames = s.totalFrames :=
      (becomes_takeRun hrun).totalFrames_eq
    rw [hresult]
    dsimp only
    rw [hrange.wrap_frame (by omega)]
    have hfirst : start * frameSize / frameSize = start := Nat.mul_div_cancel _ (by norm_num)
    have hsum : start * frameSize / frameSize + n < 2 ^ 64 := by
      rw [hfirst]
      omega
    have hfree : pmmFreeFrames (takeRun s start n) (start * frameSize) n = s := by
      rw [pmmFreeFrames, hfirst, wrap_of_lt (by omega), htotal, Nat.min_eq_left hle,
        Nat.add_sub_cancel_left]
      exact foldl_markFrame_restores hrange hn hrun
    exact ⟨hfree, fun order horder ↦ (pmmFreeFrames_eq_freeEach _ hsum horder).symm.trans hfree⟩

/-- Two frames are taken and given back, the second one first. -/
theorem pmmFreeFrames_restores_fewFree :
    freeEach (pmmAllocFrames fewFree 2).1 [4, 3] = fewFree :=
  ((pmmFreeFrames_restores fewFree).1 ⟨by decide, by decide⟩ 2 (by decide) (by decide)).2 [4, 3]
    (by decide)

end MegKer.Memory
