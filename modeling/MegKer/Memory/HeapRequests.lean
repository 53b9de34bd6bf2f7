import MegKer.Memory.HeapTiling
import MegKer.Memory.FrameRuns
import MegKer.Memory.FrameOwnership

/-!
# What `kmalloc` answers

Two questions about one call. When does it fail? On a heap that is laid out properly, a request
below `2 ^ 63` bytes fails exactly when no free block has room for it and the frame allocator has
no run of frames that is long enough for a new arena; nothing has changed then, and an arena that
is added has room for the request (`HeapAt.kmalloc_fails`).

And which requests does the 64-bit arithmetic survive? `align_up` wraps to 0 for the last seven
sizes, and the frame count of `grow_heap` wraps for the last 4143. Both are requests that no arena
can serve, and the code should fail for them; instead it asks for the 16 frames of the smallest
arena, and when it gets them hands out a block that is too small or reaches around the address
space. `answered_iff` says that these requests are answered properly exactly when the frames are
not to be had.
-/

set_option autoImplicit false
set_option relaxedAutoImplicit false

namespace MegKer.Memory

open Foundation

/-! ### The frames of a new arena -/

/-- The frame count wraps around for requests at the top of the range. -/
theorem arenaFrames_of_wrap {minBytes : ℕ} (hlow : 2 ^ 64 - 4144 < minBytes)
    (hhigh : minBytes < 2 ^ 64) : arenaFrames minBytes = 16 := by
  have hrounded : wrap (wrap (24 + 24 + minBytes) + 4096 - 1) < 2 * 4096 := by
    simp only [wrap]
    omega
  simp only [arenaFrames, arenaHeader, blockHeader, frameSize, minArenaFrames]
  rw [if_pos (by omega)]

/-- `grow_heap` fails without a run of free frames, or when the lowest one starts at frame 0. -/
theorem growHeap_null_iff {s : Heap} (htotal : s.pmm.totalFrames ≤ 2 ^ 52) (minBytes : ℕ) :
    (growHeap s minBytes).2 = 0 ↔
      (∀ start, ¬ Finset.Ico start (start + arenaFrames minBytes) ⊆ freeSet s.pmm) ∨
        Finset.Ico 0 (arenaFrames minBytes) ⊆ freeSet s.pmm := by
  have hcount : 0 < arenaFrames minBytes := by
    simp only [arenaFrames, minArenaFrames]
    split_ifs <;> omega
  have hnull : (growHeap s minBytes).2 = 0 ↔
      (pmmAllocFrames s.pmm (arenaFrames minBytes)).2 = 0 := by
    simp only [growHeap]
    split_ifs with hzero
    · simp [hzero]
    · simp only
  rw [hnull]
  rcases pmmAllocFrames_cases s.pmm hcount with ⟨hsame, hnone⟩ | ⟨start, hrun, hlowest, hresult⟩
  · simp only [hsame, true_iff]
    exact Or.inl hnone
  · have hlt := (mem_freeSet.mp (hrun (Finset.mem_Ico.mpr ⟨le_rfl, by omega⟩))).1
    have haddr : wrap (start * frameSize) = start * 4096 :=
      wrap_of_lt (by simp only [frameSize]; omega)
    rw [hresult, haddr]
    constructor
    · intro hzero
      obtain rfl : start = 0 := by
        simp only at hzero
        omega
      right
      rwa [Nat.zero_add] at hrun
    · rintro (hnone | hfirst)
      · exact absurd hrun (hnone start)
      · rcases Nat.eq_zero_or_pos start with rfl | hpos
        · simp
        · exact absurd (by rwa [Nat.zero_add]) (hlowest 0 hpos)

/-- A run that does not start at frame 0 is the only thing `grow_heap` takes. -/
theorem growHeap_eq_of_null {s : Heap} {minBytes : ℕ}
    (hnone : ∀ start, ¬ Finset.Ico start (start + arenaFrames minBytes) ⊆ freeSet s.pmm) :
    growHeap s minBytes = (s, 0) := by
  have hcount : 0 < arenaFrames minBytes := by
    simp only [arenaFrames, minArenaFrames]
    split_ifs <;> omega
  rcases pmmAllocFrames_cases s.pmm hcount with ⟨hsame, -⟩ | ⟨start, hrun, -⟩
  · simp only [growHeap, hsame, if_true]
  · exact absurd hrun (hnone start)

/-! ### Failure -/

/-- `kmalloc` fails exactly when no block fits and `grow_heap` fails. -/
theorem HeapAt.kmalloc_null_iff {s : Heap} {arenas : List Arena} (h : HeapAt s arenas) {size : ℕ}
    (hpos : 0 < size) (hsize : size ≤ 2 ^ 64 - 4144) :
    (kmalloc s size).2 = 0 ↔
      (∀ a ∈ arenas, ∀ b ∈ a.blocks, ¬ b.Fits (alignUp size 8)) ∧
        (growHeap s (alignUp size 8)).2 = 0 := by
  have hptr : ∀ {arenas₀ arenas' : List Arena},
      TakesBlock (alignUp size 8) (kmalloc s size).2 arenas₀ arenas' → (kmalloc s size).2 ≠ 0 := by
    intro arenas₀ arenas' htakes
    obtain ⟨header, b, hptr, -⟩ := htakes.free
    omega
  rcases heapAt_kmalloc h hpos hsize with ⟨arenas', htakes, -⟩ |
    ⟨hnone, ⟨hgrow, hnull, -, -⟩ | ⟨a, arenas', hgrow, -, -, -, htakes, -⟩⟩
  · refine iff_of_false (hptr htakes) fun ⟨hnone, _⟩ ↦ ?_
    obtain ⟨before, after, a, a', pre, post, b, rfl, -, -, -, hblocks, -, hfits, -⟩ := htakes
    exact hnone a (by simp) b (by simp [hblocks]) hfits
  · exact iff_of_true hnull ⟨hnone, hgrow⟩
  · exact iff_of_false (hptr htakes) fun ⟨_, hnull⟩ ↦ a.base_ne_zero (hgrow.symm.trans hnull)

/-- On a heap that is laid out properly, when frame 0 is used, `kmalloc` fails exactly when no free block
has room and there is no run of free frames for a new arena, and then changes nothing. When no block has
room and there is a run, the arena that is added starts with a block from which the request can be
subtracted. -/
theorem HeapAt.kmalloc_fails {s : Heap} {arenas : List Arena} (hat : HeapAt s arenas)
    (hzero : 0 ∉ freeSet s.pmm) {size : ℕ} (hpos : 0 < size) (hsize : size < 2 ^ 63) :
    let aligned := alignUp size 8
    let frames := max 16 ((48 + aligned + 4095) / 4096)
    let fits := ∃ a ∈ arenas, ∃ b ∈ a.blocks, b.free = true ∧ aligned ≤ b.size
    let run := ∃ start, Finset.Ico start (start + frames) ⊆ freeSet s.pmm
    ((kmalloc s size).2 = 0 ↔ ¬ fits ∧ ¬ run) ∧
    ((kmalloc s size).2 = 0 → (kmalloc s size).1 = s) ∧
    (¬ fits → run →
      let grown := growHeap s aligned
      let first := arenaFirstBlock grown.1.mem grown.2
      grown.2 ≠ 0 ∧ grown.1.arenaList = grown.2 ∧ aligned ≤ blockSize grown.1.mem first ∧
        wrapSub (blockSize grown.1.mem first) aligned = blockSize grown.1.mem first - aligned) := by
  have haligned : alignUp size 8 ≤ 2 ^ 64 - 4144 := by
    rw [alignUp_eight (by omega)]
    omega
  have hframes := arenaFrames_eq haligned
  have hgrow : (growHeap s (alignUp size 8)).2 = 0 ↔
      ¬ ∃ start, Finset.Ico start (start + arenaFrames (alignUp size 8)) ⊆ freeSet s.pmm := by
    rw [growHeap_null_iff hat.totalFrames_le, not_exists]
    refine or_iff_left fun hfirst ↦ hzero (hfirst (Finset.mem_Ico.mpr ⟨le_rfl, ?_⟩))
    rw [hframes]
    omega
  have hnull := hat.kmalloc_null_iff hpos (by omega)
  rw [hframes] at hgrow
  simp only [Block.Fits] at hnull
  refine ⟨?_, fun hfails ↦ ?_, fun hfits hrun ↦ ?_⟩
  · rw [hnull, hgrow]
    push Not
    rfl
  · obtain ⟨hnone, hfailed⟩ := hnull.mp hfails
    have hnoRun := not_exists.mp (hgrow.mp hfailed)
    rw [kmalloc_eq_null hpos (hat.find_eq_none hnone) hfailed,
      growHeap_eq_of_null (by rw [hframes]; exact hnoRun)]
  · rcases heapAt_growHeap hat haligned with ⟨hfailed, -⟩ | ⟨a, hbase, hcount, hblocks, hgrown⟩
    · exact absurd hrun (hgrow.mp hfailed)
    · have hchain := hgrown.chain
      have hfirst := (hchain.arenaAt a List.mem_cons_self).firstBlock_eq
      have hblock := (hchain.arenaAt a List.mem_cons_self).blocksAt
      rw [hblocks] at hblock
      have hroom := (Arena.fits_fresh haligned hcount).2
      have hsmall := a.below
      simp only [hbase, hfirst, hblock.1]
      exact ⟨a.base_ne_zero, hchain.1, hroom, wrapSub_of_le hroom (by omega)⟩

/-! ### Requests of every size -/

/-- `kmalloc` answers a request properly: it fails and leaves every block where it was, or the
pointer is that of a block in use with room for the request, and none of the bytes asked for is in
a header or in an allocation that is live. -/
def Answered (s : Heap) (arenas : List Arena) (live : List (ℕ × ℕ)) (size : ℕ) : Prop :=
  ((kmalloc s size).2 = 0 ∧ (kmalloc s size).1.mem = s.mem ∧ HeapAt (kmalloc s size).1 arenas) ∨
  ∃ arenas' header b, HeapAt (kmalloc s size).1 arenas' ∧ (kmalloc s size).2 = header + 24 ∧
    (header, b) ∈ heapBlocks arenas' ∧ b.free = false ∧ size ≤ b.size ∧
    ∀ w, (kmalloc s size).2 ≤ w → w < (kmalloc s size).2 + size →
      (∀ a ∈ arenas', w ∉ a.headers) ∧ ∀ p n, (p, n) ∈ live → ¬ (p ≤ w ∧ w < p + n)

/-- The condition of a proper answer: the size is not at the top of the range, or no arena can be
added, and the size does not wrap to 0 while a block is free. -/
def Answerable (s : Heap) (arenas : List Arena) (size : ℕ) : Prop :=
  size ≤ 2 ^ 64 - 4144 ∨
    ((∀ start, ¬ Finset.Ico start (start + 16) ⊆ freeSet s.pmm) ∨
      Finset.Ico 0 16 ⊆ freeSet s.pmm) ∧
    (size ≤ 2 ^ 64 - 8 ∨ ∀ a ∈ arenas, ∀ b ∈ a.blocks, b.free = false)

section EverySize

variable {s : Heap} {arenas : List Arena} {live : List (ℕ × ℕ)} {size : ℕ}

/-- A block that was taken is a proper answer. -/
theorem answered_of_takesBlock {arenas₀ arenas' : List Arena} (hlive : LiveAt arenas₀ live)
    (hapart : arenas₀.Pairwise Arena.Apart) (hpos : 0 < size) (hle : size ≤ alignUp size 8)
    (htakes : TakesBlock (alignUp size 8) (kmalloc s size).2 arenas₀ arenas')
    (hat : HeapAt (kmalloc s size).1 arenas') : Answered s arenas live size := by
  obtain ⟨header, b, hptr, hblock, hused, hroom⟩ := htakes.taken
  have hdisjoint := (hlive.takesBlock hapart htakes hpos hle).disjoint hat.apart
  refine Or.inr ⟨arenas', header, b, hat, hptr, hblock, hused, hle.trans hroom,
    fun w hlow hhigh ↦ ⟨fun a ha ↦ ?_, fun p n hmem hinside ↦ ?_⟩⟩
  · exact notMem_headers_of_inside hat.apart hblock (by omega) (by omega) ha
  · have hapart' := (List.pairwise_cons.mp hdisjoint).1 (p, n) hmem
    simp only at hapart'
    omega

/-- Sizes below the top of the range are answered properly. -/
theorem answered_of_le (h : HeapAt s arenas) (hlive : LiveAt arenas live) (hpos : 0 < size)
    (hsize : size ≤ 2 ^ 64 - 4144) : Answered s arenas live size := by
  have hle : size ≤ alignUp size 8 := by
    rw [alignUp_eight (by omega)]
    omega
  rcases heapAt_kmalloc h hpos hsize with ⟨arenas', htakes, hat⟩ |
    ⟨-, ⟨-, hnull, hmem, hat⟩ | ⟨a, arenas', -, -, -, hapart, htakes, hat⟩⟩
  · exact answered_of_takesBlock hlive h.apart hpos hle htakes hat
  · exact Or.inl ⟨hnull, hmem, hat⟩
  · exact answered_of_takesBlock (hlive.cons_arena a) (List.pairwise_cons.mpr ⟨hapart, h.apart⟩)
      hpos hle htakes hat

/-- The size field of a block that is handed out as a proper answer. -/
theorem Answered.size_le (h : Answered s arenas live size) {header : ℕ}
    (hptr : (kmalloc s size).2 = header + 24) :
    size ≤ blockSize (kmalloc s size).1.mem header ∧
      header + 24 + blockSize (kmalloc s size).1.mem header ≤ 2 ^ 64 := by
  rcases h with ⟨hnull, -⟩ | ⟨arenas', header', b, hat, hptr', hblock, -, hroom, -⟩
  · omega
  · obtain rfl : header' = header := by omega
    obtain ⟨a, ha, hlocated⟩ := mem_heapBlocks.mp hblock
    have hsize := (blockFree_of_located (hat.chain.arenaAt a ha).blocksAt hlocated).1
    have hbounds := Arena.located_bounds hlocated
    have hbelow := a.below
    omega

/-- The size field that `alloc_from_block` leaves. -/
theorem blockSize_allocFromBlock (mem : WordMemory) (block size : ℕ) :
    blockSize (allocFromBlock mem block size).1 block =
      if wrapSub (blockSize mem block) size > 32 then size else blockSize mem block := by
  simp only [allocFromBlock, blockHeader]
  by_cases hsplit : wrapSub (blockSize mem block) size > 32
  · rw [if_pos hsplit, if_pos hsplit, blockSize, WordMemory.store_of_ne _ _ (by omega),
      WordMemory.store_of_ne _ _ (by omega), WordMemory.store_same]
  · rw [if_neg hsplit, if_neg hsplit, blockSize, WordMemory.store_of_ne _ _ (by omega)]
    rfl

theorem alignUp_of_wrap (hlow : 2 ^ 64 - 8 < size) (hhigh : size < 2 ^ 64) :
    alignUp size 8 = 0 := by
  have hsum : wrap (size + 8 - 1) < 7 := by
    simp only [wrap]
    omega
  have hdown : alignDown (wrap (size + 8 - 1)) (2 ^ 3) = wrap (size + 8 - 1) / 2 ^ 3 * 2 ^ 3 :=
    alignDown_two_pow (wrap_lt _) (by omega)
  change alignDown (wrap (size + 8 - 1)) (2 ^ 3) = 0
  omega

/-- No arena has a block of a size at the top of the range. -/
theorem Arena.size_le {a : Arena} {b : Block} (hb : b ∈ a.blocks) : b.size ≤ 2 ^ 64 - 4144 := by
  obtain ⟨pre, post, hblocks⟩ := List.append_of_mem hb
  have htiles := a.tiles
  have hbelow := a.below
  have haligned := a.aligned
  have hbase := a.base_ne_zero
  rw [hblocks, extent_append, extent_cons] at htiles
  omega

/-- A request at the top of the range that finds a block is not answered properly. -/
theorem not_answered_of_free (h : HeapAt s arenas) (hlow : 2 ^ 64 - 8 < size)
    (hhigh : size < 2 ^ 64) {a : Arena} (ha : a ∈ arenas) {b : Block} (hb : b ∈ a.blocks)
    (hfree : b.free = true) : ¬ Answered s arenas live size := by
  intro hanswered
  have hzero := alignUp_of_wrap hlow hhigh
  rcases findInArenas_spec (alignUp size 8) h.chain h.length_le with
    ⟨before, c, after, pre, d, post, rfl, hblocks, hfits, -, -, hfind⟩ | ⟨hnone, -⟩
  · have hkmalloc := kmalloc_eq_take (by omega) hfind
    have hat := (h.chain.arenaAt c (by simp)).blocksAt
    have hbelow := c.below
    have htiles := c.tiles
    rw [hblocks] at hat htiles
    obtain ⟨hsize, hflag, -⟩ := blocksAt_head hat
    simp only [extent_append, extent_cons, extent_nil] at htiles
    have hresult : (kmalloc s size).2 = wrap (c.base + 24 + extent pre + 24) := by
      rw [hkmalloc]
      rfl
    have hchanged : (kmalloc s size).1.mem ≠ s.mem := by
      intro hmem
      have htaken : blockFree (kmalloc s size).1.mem (c.base + 24 + extent pre) = false := by
        rw [hkmalloc]
        simp only [blockFree, allocFromBlock, WordMemory.store_same]
        rfl
      rw [hmem, hflag, hfits.1] at htaken
      exact absurd htaken (by decide)
    have hptr : (kmalloc s size).2 = c.base + 24 + extent pre + 24 := by
      rcases hanswered with ⟨-, hmem, -⟩ | ⟨arenas', header, d', -, hheader, -⟩
      · exact absurd hmem hchanged
      · simp only [wrap] at hresult
        omega
    obtain ⟨hroom, -⟩ := hanswered.size_le hptr
    rw [hkmalloc, blockSize_allocFromBlock, hzero, hsize, wrapSub_of_le (Nat.zero_le _) (by omega)]
      at hroom
    split_ifs at hroom <;> omega
  · exact hnone a ha b hb ⟨hfree, by omega⟩

/-- A request at the top of the range for which the heap grows is not answered properly. -/
theorem not_answered_of_grow (h : HeapAt s arenas) (hlow : 2 ^ 64 - 4144 < size)
    (hhigh : size < 2 ^ 64) (hnone : ∀ a ∈ arenas, ∀ b ∈ a.blocks, ¬ b.Fits (alignUp size 8))
    (hgrow : growHeap s (alignUp size 8) = growHeap s 0) (hne : (growHeap s 0).2 ≠ 0) :
    ¬ Answered s arenas live size := by
  intro hanswered
  rcases heapAt_growHeap h (Nat.zero_le _) with ⟨hzero, -⟩ | ⟨a, hbase, hframes, hblocks, hgrown⟩
  · exact hne hzero
  · have hat := hgrown.chain.arenaAt a List.mem_cons_self
    have hfirst := hat.firstBlock_eq
    have hblock := hat.blocksAt
    have hbelow := a.below
    have hpage := a.aligned
    have hbaseNe := a.base_ne_zero
    have hcount : a.frames = 16 := hframes.trans (by decide)
    rw [hblocks] at hblock
    have hsize := hblock.1
    rw [← hgrow] at hbase hfirst hsize
    have hkmalloc := kmalloc_eq_grow (by omega) (h.find_eq_none hnone) hbase a.base_ne_zero hfirst
    have hlt : a.base + 24 + 24 < 2 ^ 64 := by omega
    have hptr : (kmalloc s size).2 = a.base + 24 + 24 := by
      rw [hkmalloc]
      exact wrap_of_lt hlt
    obtain ⟨hroom, hend⟩ := hanswered.size_le hptr
    rw [hkmalloc, blockSize_allocFromBlock, hsize, hcount] at hroom hend
    split_ifs at hroom hend <;> omega

/-- At the top of the range, `grow_heap` behaves as for a request of no bytes. -/
theorem growHeap_of_wrap (s : Heap) (hlow : 2 ^ 64 - 4144 < size) (hhigh : size < 2 ^ 64) :
    growHeap s (alignUp size 8) = growHeap s 0 := by
  have hframes : arenaFrames (alignUp size 8) = arenaFrames 0 := by
    by_cases hzero : 2 ^ 64 - 8 < size
    · rw [alignUp_of_wrap hzero hhigh]
    · rw [alignUp_eight (by omega), arenaFrames_of_wrap (by omega) (by omega)]
      decide
  simp only [growHeap, hframes]

/-- Requests at the top of the range are answered properly exactly when nothing can be handed
out. -/
theorem answered_of_top_iff (h : HeapAt s arenas) (hlow : 2 ^ 64 - 4144 < size)
    (hhigh : size < 2 ^ 64) :
    Answered s arenas live size ↔
      (growHeap s 0).2 = 0 ∧
        (size ≤ 2 ^ 64 - 8 ∨ ∀ a ∈ arenas, ∀ b ∈ a.blocks, b.free = false) := by
  have hgrow := growHeap_of_wrap s hlow hhigh
  by_cases hused : size ≤ 2 ^ 64 - 8 ∨ ∀ a ∈ arenas, ∀ b ∈ a.blocks, b.free = false
  · have hnone : ∀ a ∈ arenas, ∀ b ∈ a.blocks, ¬ b.Fits (alignUp size 8) := by
      intro a ha b hb hfits
      rcases hused with hsize | hused
      · have hroom := hfits.2
        have hmost := Arena.size_le hb
        rw [alignUp_eight hsize] at hroom
        omega
      · have hfree := hfits.1
        rw [hused a ha b hb] at hfree
        exact absurd hfree (by decide)
    refine ⟨fun hanswered ↦ ⟨?_, hused⟩, fun hfails ↦ ?_⟩
    · by_contra hne
      exact not_answered_of_grow h hlow hhigh hnone hgrow hne hanswered
    · have hnull : (growHeap s (alignUp size 8)).2 = 0 := by
        rw [hgrow]
        exact hfails.1
      rw [Answered, kmalloc_eq_null (by omega) (h.find_eq_none hnone) hnull, hgrow]
      rcases heapAt_growHeap h (Nat.zero_le _) with ⟨-, hmem, hat⟩ | ⟨a, hbase, -⟩
      · exact Or.inl ⟨rfl, hmem, hat⟩
      · exact absurd (hbase.symm.trans hfails.1) a.base_ne_zero
  · refine iff_of_false ?_ fun hfails ↦ hused hfails.2
    push Not at hused
    obtain ⟨hsize, a, ha, b, hb, hfree⟩ := hused
    exact not_answered_of_free h hsize hhigh ha hb (by simpa using hfree)

/-- For every heap with a layout and live allocations in it and every 64-bit size. The request is
answered properly exactly when it is at most `2 ^ 64 - 4144` bytes, or the frame allocator does not
hand out 16 frames and, for the last seven sizes, no block is free. -/
theorem answered_iff (h : HeapAt s arenas) (hlive : LiveAt arenas live) (hpos : 0 < size)
    (hsize : size < 2 ^ 64) : Answered s arenas live size ↔ Answerable s arenas size := by
  rw [Answerable]
  by_cases hlow : size ≤ 2 ^ 64 - 4144
  · exact iff_of_true (answered_of_le h hlive hpos hlow) (Or.inl hlow)
  · have hframes : arenaFrames 0 = 16 := by decide
    rw [answered_of_top_iff h (by omega) hsize, growHeap_null_iff h.totalFrames_le, hframes]
    exact (or_iff_right hlow).symm

end EverySize

section AfterInit

/-- The heap after `heap_init` on a machine with 31 free frames. -/
def smallHeap : Heap := heapInit ⟨smallPmm, fun _ ↦ 0, 0⟩

theorem exists_heapAt_smallHeap :
    ∃ a : Arena, a.blocks = [⟨a.frames * 4096 - 48, true⟩] ∧ HeapAt smallHeap [a] := by
  have hempty : HeapAt ⟨smallPmm, fun _ ↦ 0, 0⟩ [] :=
    ⟨rfl, List.Pairwise.nil, fun a ha ↦ absurd ha (by simp), by decide +kernel⟩
  rcases heapAt_growHeap hempty (Nat.zero_le _) with ⟨hnull, -⟩ | ⟨a, -, -, hfresh, hat⟩
  · exact absurd hnull (by decide +kernel)
  · exact ⟨a, hfresh, hat⟩

theorem liveAt_nil (arenas : List Arena) : LiveAt arenas [] :=
  ⟨by simp, fun p n hmem ↦ absurd hmem (by simp)⟩

/-- A request for `2 ^ 64 - 1` bytes right after `heap_init` gets a block of no bytes: the pointer is
that of the header of the rest that was split off. -/
theorem not_answered_largest :
    (kmalloc smallHeap (2 ^ 64 - 1)).2 = 0x2000 + 48 ∧
      blockSize (kmalloc smallHeap (2 ^ 64 - 1)).1.mem (0x2000 + 24) = 0 ∧
      blockNext (kmalloc smallHeap (2 ^ 64 - 1)).1.mem (0x2000 + 24) = 0x2000 + 48 ∧
      ∃ arenas, HeapAt smallHeap arenas ∧ LiveAt arenas [] ∧
        ¬ Answered smallHeap arenas [] (2 ^ 64 - 1) := by
  have hptr : (kmalloc smallHeap (2 ^ 64 - 1)).2 = 0x2000 + 48 := by decide +kernel
  have hempty : blockSize (kmalloc smallHeap (2 ^ 64 - 1)).1.mem (0x2000 + 24) = 0 := by
    decide +kernel
  obtain ⟨a, -, hat⟩ := exists_heapAt_smallHeap
  refine ⟨hptr, hempty, by decide +kernel, [a], hat, liveAt_nil _, fun hanswered ↦ ?_⟩
  have hroom : 2 ^ 64 - 1 ≤ blockSize (kmalloc smallHeap (2 ^ 64 - 1)).1.mem (0x2000 + 24) :=
    (hanswered.size_le hptr).1
  rw [hempty] at hroom
  exact absurd hroom (by decide)

/-- Right after `heap_init` a small request is answered properly, and the largest one is not. -/
theorem answered_iff_smallHeap :
    ∃ arenas, HeapAt smallHeap arenas ∧ LiveAt arenas [] ∧ Answered smallHeap arenas [] 100 ∧
      ¬ Answered smallHeap arenas [] (2 ^ 64 - 1) := by
  obtain ⟨a, hfresh, hat⟩ := exists_heapAt_smallHeap
  have hlive := liveAt_nil [a]
  refine ⟨[a], hat, hlive, (answered_iff hat hlive (by decide) (by decide)).mpr (Or.inl (by decide)),
    fun hanswered ↦ ?_⟩
  rcases (answered_iff hat hlive (by decide) (by decide)).mp hanswered with
    hsize | ⟨-, hsize | hused⟩
  · exact absurd hsize (by decide)
  · exact absurd hsize (by decide)
  · exact absurd (hused a List.mem_cons_self _ (by rw [hfresh]; exact List.mem_cons_self))
      (by simp)

end AfterInit

end MegKer.Memory
