import MegKer.Memory.HeapLayout
import Mathlib.Data.Finset.Card

/-!
# Heap operations on laid-out heaps

`HeapAt s arenas` relates a heap to its abstract layout: the chain from `arena_list` is the list
of arenas, no two arenas share a byte, and the frame allocator has all their frames marked used.
Each operation of `mm/heap.c` takes a heap with a layout to a heap with a layout, and this module
says which one: `grow_heap` puts a new arena with one free block in front (`heapAt_growHeap`),
`kmalloc` takes the first block that fits or grows the heap and takes from the new arena
(`heapAt_kmalloc`), and `kfree` releases a block (`heapAt_kfree`). Later results about the heap are
about these layouts, not about memory.
-/

set_option autoImplicit false
set_option relaxedAutoImplicit false

namespace MegKer.Memory

open Foundation

/-- The heap has the layout `arenas`. -/
structure HeapAt (s : Heap) (arenas : List Arena) : Prop where
  chain : ArenasAt s.mem s.arenaList arenas
  apart : arenas.Pairwise Arena.Apart
  used : ∀ a ∈ arenas, ∀ f, a.base / 4096 ≤ f → f < a.base / 4096 + a.frames →
    f < s.pmm.totalFrames ∧ f ∉ freeSet s.pmm
  totalFrames_le : s.pmm.totalFrames ≤ 2 ^ 52

/-! ### Layouts of one heap -/

theorem HeapAt.length_le {s : Heap} {arenas : List Arena} (h : HeapAt s arenas) :
    arenas.length ≤ 2 ^ 64 := by
  have hnodup : (arenas.map Arena.base).Nodup := by
    refine List.pairwise_map.mpr (h.apart.imp fun {a b} hapart hbase ↦ ?_)
    have ha := a.frames_pos
    have hb := b.frames_pos
    rcases hapart with hle | hle <;> omega
  have hsubset : (arenas.map Arena.base).toFinset ⊆ Finset.range (2 ^ 64) := by
    intro base hbase
    obtain ⟨a, -, rfl⟩ := List.mem_map.mp (List.mem_toFinset.mp hbase)
    have hbelow := a.below
    have hpos := a.frames_pos
    exact Finset.mem_range.mpr (by omega)
  have hcard := Finset.card_le_card hsubset
  rwa [List.toFinset_card_of_nodup hnodup, List.length_map, Finset.card_range] at hcard

theorem Arena.Apart.symm {a b : Arena} (h : a.Apart b) : b.Apart a := Or.symm h

/-- Memory that changes inside one arena only leaves the headers of the others alone. -/
theorem eqOn_headers_of_apart {mem mem' : WordMemory} {a c : Arena} (hapart : a.Apart c)
    (hout : ∀ w, w < a.base ∨ a.base + a.frames * 4096 ≤ w → mem' w = mem w) :
    Set.EqOn mem' mem c.headers := by
  intro w hw
  have hbounds := Arena.headers_subset hw
  refine hout w ?_
  rcases hapart with hle | hle <;> omega

/-- The layout after one arena got other blocks. -/
theorem HeapAt.withBlocks {s : Heap} {mem' : WordMemory} {before after : List Arena} {a : Arena}
    {blocks : List Block} (h : HeapAt s (before ++ a :: after)) (hne : blocks ≠ [])
    (hextent : extent blocks = extent a.blocks) (hsizes : ∀ b ∈ blocks, b.size % 8 = 0)
    (hat : BlocksAt mem' 0 (a.base + 24) blocks)
    (hout : ∀ w, w < a.base + 24 ∨ a.base + a.frames * 4096 ≤ w → mem' w = s.mem w) :
    HeapAt { s with mem := mem' } (before ++ a.withBlocks blocks hne hextent hsizes :: after) := by
  have hold := h.chain.arenaAt a (by simp)
  have hapart : (∀ c ∈ before, c.Apart a) ∧ ∀ c ∈ after, a.Apart c := by
    have hpairwise := List.pairwise_append.mp h.apart
    exact ⟨fun c hc ↦ hpairwise.2.2 c hc a List.mem_cons_self,
      (List.pairwise_cons.mp hpairwise.2.1).1⟩
  have hpos := a.frames_pos
  refine ⟨h.chain.replace rfl ⟨?_, ?_, hat⟩ ?_ ?_, ?_, ?_, h.totalFrames_le⟩
  · rw [arenaFrameCount]
    change mem' (a.base + 8) = a.frames
    rw [hout _ (Or.inl (by omega))]
    exact hold.frameCount_eq
  · rw [arenaFirstBlock]
    change mem' (a.base + 16) = a.base + 24
    rw [hout _ (Or.inl (by omega))]
    exact hold.firstBlock_eq
  · exact hout _ (Or.inl (by omega))
  · intro c hc
    have hc' : a.Apart c := by
      rcases List.mem_append.mp hc with hc | hc
      · exact (hapart.1 c hc).symm
      · exact hapart.2 c hc
    exact eqOn_headers_of_apart hc' fun w hw ↦ hout w (by omega)
  · have hpairwise := List.pairwise_append.mp h.apart
    have hafter := List.pairwise_cons.mp hpairwise.2.1
    refine List.pairwise_append.mpr ⟨hpairwise.1, List.pairwise_cons.mpr ⟨hapart.2, hafter.2⟩, ?_⟩
    intro c hc d hd
    rcases List.mem_cons.mp hd with rfl | hd
    · exact hapart.1 c hc
    · exact hpairwise.2.2 c hc d (List.mem_cons_of_mem _ hd)
  · intro c hc f hge hlt
    rcases List.mem_append.mp hc with hc | hc
    · exact h.used c (by simp [hc]) f hge hlt
    · rcases List.mem_cons.mp hc with rfl | hc
      · exact h.used a (by simp) f hge hlt
      · exact h.used c (by simp [hc]) f hge hlt

/-! ### `alloc_from_block` -/

theorem sizes_takeBlock {b : Block} {size : ℕ} (hb : b.size % 8 = 0) (hsize : size % 8 = 0) :
    ∀ c ∈ takeBlock b size, c.size % 8 = 0 := by
  intro c hc
  unfold takeBlock at hc
  split_ifs at hc with hsplit
  · simp only [List.mem_cons, List.not_mem_nil, or_false] at hc
    rcases hc with rfl | rfl
    · exact hsize
    · simp only
      omega
  · rw [List.mem_singleton] at hc
    rw [hc]
    exact hb

/-- `alloc_from_block` on a laid-out heap. -/
theorem heapAt_allocFromBlock {s : Heap} {before after : List Arena} {a : Arena}
    {pre post : List Block} {b : Block} {size : ℕ} (h : HeapAt s (before ++ a :: after))
    (hblocks : a.blocks = pre ++ ([b] ++ post)) (hle : size ≤ b.size) (hpos : 0 < size)
    (hsize : size % 8 = 0) :
    ∃ a' : Arena, a'.base = a.base ∧ a'.frames = a.frames ∧
      a'.blocks = pre ++ (takeBlock b size ++ post) ∧
      (allocFromBlock s.mem (a.base + 24 + extent pre) size).2 = a.base + 24 + extent pre + 24 ∧
      HeapAt { s with mem := (allocFromBlock s.mem (a.base + 24 + extent pre) size).1 }
        (before ++ a' :: after) := by
  have hat := (h.chain.arenaAt a (by simp)).blocksAt
  have htiles := a.tiles
  have hbelow := a.below
  have hsizes := a.sizes
  rw [hblocks] at hat htiles hsizes
  obtain ⟨hnew, hptr, hout⟩ := blocksAt_allocFromBlock hat hle hpos (by omega)
  simp only [extent_append, extent_cons, extent_nil] at htiles
  have hne : pre ++ (takeBlock b size ++ post) ≠ [] := by
    simp [takeBlock_ne_nil b size]
  have hextent : extent (pre ++ (takeBlock b size ++ post)) = extent a.blocks := by
    rw [hblocks]
    simp only [extent_append, extent_cons, extent_nil, extent_takeBlock hle]
    omega
  have hall : ∀ c ∈ pre ++ (takeBlock b size ++ post), c.size % 8 = 0 := by
    intro c hc
    simp only [List.mem_append] at hc
    rcases hc with hc | hc | hc
    · exact hsizes c (by simp [hc])
    · exact sizes_takeBlock (hsizes b (by simp)) hsize c hc
    · exact hsizes c (by simp [hc])
  exact ⟨a.withBlocks _ hne hextent hall, rfl, rfl, rfl, hptr,
    h.withBlocks hne hextent hall hnew fun w hw ↦ hout w (by omega)⟩

/-! ### `kfree` -/

theorem releaseBlock_ne_nil (b : Block) (post : List Block) : releaseBlock b post ≠ [] := by
  cases post with
  | nil => simp [releaseBlock]
  | cons next rest =>
    simp only [releaseBlock]
    split_ifs <;> simp

theorem sizes_releaseBlock {b : Block} {post : List Block} (hb : b.size % 8 = 0)
    (hpost : ∀ c ∈ post, c.size % 8 = 0) : ∀ c ∈ releaseBlock b post, c.size % 8 = 0 := by
  intro c hc
  cases post with
  | nil =>
    rw [releaseBlock, List.mem_singleton] at hc
    rw [hc]
    exact hb
  | cons next rest =>
    have hnext := hpost next List.mem_cons_self
    simp only [releaseBlock] at hc
    split_ifs at hc
    · rcases List.mem_cons.mp hc with rfl | hc
      · simp only
        omega
      · exact hpost c (List.mem_cons_of_mem _ hc)
    · rcases List.mem_cons.mp hc with rfl | hc
      · exact hb
      · exact hpost c hc

/-- `kfree` of the pointer to a block releases the block. -/
theorem heapAt_kfree {s : Heap} {before after : List Arena} {a : Arena} {pre post : List Block}
    {b : Block} (h : HeapAt s (before ++ a :: after)) (hblocks : a.blocks = pre ++ b :: post)
    (hpos : 0 < b.size) :
    ∃ a' : Arena, a'.base = a.base ∧ a'.frames = a.frames ∧
      a'.blocks = pre ++ releaseBlock b post ∧
      HeapAt (kfree s (a.base + 24 + extent pre + 24)) (before ++ a' :: after) := by
  have hat := (h.chain.arenaAt a (by simp)).blocksAt
  have htiles := a.tiles
  have hbelow := a.below
  have hsizes := a.sizes
  rw [hblocks] at hat htiles hsizes
  obtain ⟨hnew, hout⟩ := blocksAt_freeBlock hat (by omega) hpos
  simp only [extent_append, extent_cons] at htiles
  have hne : pre ++ releaseBlock b post ≠ [] := by
    simp [releaseBlock_ne_nil b post]
  have hextent : extent (pre ++ releaseBlock b post) = extent a.blocks := by
    rw [hblocks, extent_append, extent_append, extent_releaseBlock]
  have hall : ∀ c ∈ pre ++ releaseBlock b post, c.size % 8 = 0 := by
    intro c hc
    rcases List.mem_append.mp hc with hc | hc
    · exact hsizes c (by simp [hc])
    · exact sizes_releaseBlock (hsizes b (by simp)) (fun d hd ↦ hsizes d (by simp [hd])) c hc
  have hptr : wrapSub (a.base + 24 + extent pre + 24) 24 = a.base + 24 + extent pre := by
    rw [wrapSub_of_le (by omega) (by omega)]
    omega
  refine ⟨a.withBlocks _ hne hextent hall, rfl, rfl, rfl, ?_⟩
  rw [kfree, if_neg (by omega)]
  simp only [blockHeader, hptr]
  exact h.withBlocks hne hextent hall hnew fun w hw ↦ hout w (by omega)

/-- The layout changes by giving `size` bytes of a free block to a caller, at `ptr`. -/
def TakesBlock (size ptr : ℕ) (arenas arenas' : List Arena) : Prop :=
  ∃ (before after : List Arena) (a a' : Arena) (pre post : List Block) (b : Block),
    arenas = before ++ a :: after ∧ arenas' = before ++ a' :: after ∧
      a'.base = a.base ∧ a'.frames = a.frames ∧ a.blocks = pre ++ ([b] ++ post) ∧
      a'.blocks = pre ++ (takeBlock b size ++ post) ∧ b.Fits size ∧
      ptr = a.base + 24 + extent pre + 24

/-- The layout changes by releasing the block of `ptr`. -/
def ReleasesBlock (ptr : ℕ) (arenas arenas' : List Arena) : Prop :=
  ∃ (before after : List Arena) (a a' : Arena) (pre post : List Block) (b : Block),
    arenas = before ++ a :: after ∧ arenas' = before ++ a' :: after ∧
      a'.base = a.base ∧ a'.frames = a.frames ∧ a.blocks = pre ++ b :: post ∧
      a'.blocks = pre ++ releaseBlock b post ∧ ptr = a.base + 24 + extent pre + 24

/-! ### `grow_heap` -/

theorem alignUp_eight {size : ℕ} (hsize : size ≤ 2 ^ 64 - 8) :
    alignUp size 8 = (size + 7) / 8 * 8 := by
  change alignUp size (2 ^ 3) = (size + 2 ^ 3 - 1) / 2 ^ 3 * 2 ^ 3
  exact alignUp_two_pow (by omega) (by omega)

theorem arenaFrames_eq {minBytes : ℕ} (hmin : minBytes ≤ 2 ^ 64 - 4144) :
    arenaFrames minBytes = max 16 ((48 + minBytes + 4095) / 4096) := by
  have hneeded : wrap (24 + 24 + minBytes) = 48 + minBytes := by
    rw [wrap_of_lt (by omega)]
  have hround : wrap (48 + minBytes + 4096 - 1) = 48 + minBytes + 4095 := wrap_of_lt (by omega)
  simp only [arenaFrames, arenaHeader, blockHeader, frameSize, minArenaFrames, hneeded, hround]
  split_ifs <;> omega

/-- The frames that `grow_heap` asks for have room for its headers and the requested bytes, as long
as adding the headers and rounding up to frames does not wrap around. -/
theorem arenaFrames_spec {minBytes : ℕ} (hmin : minBytes ≤ 2 ^ 64 - 4144) :
    48 + minBytes ≤ arenaFrames minBytes * 4096 ∧ 16 ≤ arenaFrames minBytes ∧
      arenaFrames minBytes * 4096 < 2 ^ 64 := by
  rw [arenaFrames_eq hmin]
  omega

/-- A heap keeps its layout when the frame allocator takes frames from the free set. -/
theorem HeapAt.takeFrames {s : Heap} {arenas : List Arena} {pmm : Pmm} {free : Finset ℕ}
    (h : HeapAt s arenas) (hbecomes : Becomes s.pmm pmm free) (hsubset : free ⊆ freeSet s.pmm) :
    HeapAt { s with pmm := pmm } arenas where
  chain := h.chain
  apart := h.apart
  used := fun a ha f hge hlt ↦ by
    obtain ⟨htotal, hused⟩ := h.used a ha f hge hlt
    refine ⟨hbecomes.totalFrames_eq ▸ htotal, fun hfree ↦ hused (hsubset ?_)⟩
    rwa [hbecomes.freeSet_eq] at hfree
  totalFrames_le := hbecomes.totalFrames_eq.trans_le h.totalFrames_le

/-- An arena on frames that were free shares no byte with the arenas of the heap. -/
theorem HeapAt.apart_of_free {s : Heap} {arenas : List Arena} (h : HeapAt s arenas) {a : Arena}
    (hfree : Finset.Ico (a.base / 4096) (a.base / 4096 + a.frames) ⊆ freeSet s.pmm) :
    ∀ c ∈ arenas, a.Apart c := by
  intro c hc
  have ha := a.aligned
  have hc' := c.aligned
  have hapos := a.frames_pos
  have hcpos := c.frames_pos
  by_contra hmeet
  rw [Arena.Apart, not_or] at hmeet
  have hshared := hfree (Finset.mem_Ico.mpr
    ⟨(by omega : a.base / 4096 ≤ max (a.base / 4096) (c.base / 4096)), by omega⟩)
  exact (h.used c hc _ (by omega) (by omega)).2 hshared

/-- The arena that `grow_heap` sets up on the frames `[start, start + frames)`. -/
def freshArena (start frames : ℕ) (hstart : 0 < start) (hframes : 0 < frames)
    (hbelow : start * 4096 + frames * 4096 ≤ 2 ^ 64) : Arena where
  base := start * 4096
  frames := frames
  blocks := [⟨frames * 4096 - 48, true⟩]
  blocks_ne_nil := by simp
  tiles := by
    simp only [extent_cons, extent_nil]
    omega
  sizes := by
    simp only [List.mem_singleton, forall_eq]
    omega
  aligned := Nat.mul_mod_left _ _
  base_ne_zero := by omega
  below := hbelow

/-- The memory that `grow_heap` leaves: the header of the first block and the arena header. -/
def writeFreshArena (mem : WordMemory) (base frames next : ℕ) : WordMemory :=
  writeArena (writeBlock mem (base + 24) (frames * 4096 - 48) true 0) base frames (base + 24) next

theorem writeFreshArena_of_outside (mem : WordMemory) {base frames : ℕ} (next : ℕ)
    (hframes : 0 < frames) {w : ℕ} (hw : w < base ∨ base + frames * 4096 ≤ w) :
    writeFreshArena mem base frames next w = mem w := by
  simp only [writeFreshArena, writeArena, writeBlock]
  rw [WordMemory.store_of_ne _ _ (by omega), WordMemory.store_of_ne _ _ (by omega),
    WordMemory.store_of_ne _ _ (by omega), WordMemory.store_of_ne _ _ (by omega),
    WordMemory.store_of_ne _ _ (by omega), WordMemory.store_of_ne _ _ (by omega)]

theorem arenaNext_writeFreshArena (mem : WordMemory) (base frames next : ℕ) :
    arenaNext (writeFreshArena mem base frames next) base = next :=
  WordMemory.store_same _ _ _

theorem arenaAt_writeFreshArena (mem : WordMemory) {start frames : ℕ} (next : ℕ)
    (hstart : 0 < start) (hframes : 0 < frames)
    (hbelow : start * 4096 + frames * 4096 ≤ 2 ^ 64) :
    ArenaAt (writeFreshArena mem (start * 4096) frames next)
      (freshArena start frames hstart hframes hbelow) where
  frameCount_eq := by
    simp only [arenaFrameCount, freshArena, writeFreshArena, writeArena]
    rw [WordMemory.store_of_ne _ _ (by omega), WordMemory.store_of_ne _ _ (by omega),
      WordMemory.store_same]
  firstBlock_eq := by
    simp only [arenaFirstBlock, freshArena, writeFreshArena, writeArena]
    rw [WordMemory.store_of_ne _ _ (by omega), WordMemory.store_same]
  blocksAt := by
    simp only [freshArena, BlocksAt, blockSize, blockFree, blockNext, writeFreshArena, writeArena,
      writeBlock, linkTo]
    refine ⟨?_, ?_, ?_, trivial⟩
    · rw [WordMemory.store_of_ne _ _ (by omega), WordMemory.store_of_ne _ _ (by omega),
        WordMemory.store_of_ne _ _ (by omega), WordMemory.store_of_ne _ _ (by omega),
        WordMemory.store_of_ne _ _ (by omega), WordMemory.store_same]
    · rw [WordMemory.store_of_ne _ _ (by omega), WordMemory.store_of_ne _ _ (by omega),
        WordMemory.store_of_ne _ _ (by omega), WordMemory.store_of_ne _ _ (by omega),
        WordMemory.store_same]
      rfl
    · rw [WordMemory.store_of_ne _ _ (by omega), WordMemory.store_of_ne _ _ (by omega),
        WordMemory.store_of_ne _ _ (by omega), WordMemory.store_same]

/-- What `grow_heap` computes, on a run of free frames that does not start at frame 0. -/
theorem growHeap_eq {s : Heap} {minBytes start : ℕ} (hmin : minBytes ≤ 2 ^ 64 - 4144)
    (hstart : 0 < start) (hbelow : start * 4096 + arenaFrames minBytes * 4096 ≤ 2 ^ 64)
    (hresult : (pmmAllocFrames s.pmm (arenaFrames minBytes)).2 = start * 4096) :
    growHeap s minBytes =
      ({ pmm := (pmmAllocFrames s.pmm (arenaFrames minBytes)).1
         mem := writeFreshArena s.mem (start * 4096) (arenaFrames minBytes) s.arenaList
         arenaList := start * 4096 }, start * 4096) := by
  obtain ⟨hroom, hleast, hmost⟩ := arenaFrames_spec hmin
  have hblock : wrap (start * 4096 + 24) = start * 4096 + 24 :=
    wrap_of_lt (lt_of_lt_of_le (Nat.add_lt_add_left (by omega) _) hbelow)
  have hheader : wrapSub (arenaFrames minBytes * 4096) 24 = arenaFrames minBytes * 4096 - 24 :=
    wrapSub_of_le (by omega) hmost
  have hrest : wrapSub (arenaFrames minBytes * 4096 - 24) 24 =
      arenaFrames minBytes * 4096 - 24 - 24 :=
    wrapSub_of_le (by omega) (lt_of_le_of_lt (Nat.sub_le _ _) hmost)
  have hsize : wrapSub (wrapSub (wrap (arenaFrames minBytes * 4096)) 24) 24 =
      arenaFrames minBytes * 4096 - 48 := by
    rw [wrap_of_lt hmost, hheader, hrest, Nat.sub_sub]
  simp only [growHeap, hresult, arenaHeader, blockHeader, frameSize, hsize, hblock]
  rw [if_neg (by omega)]
  rfl

/-- `grow_heap` fails and leaves the layout alone, or puts an arena with one free block in front. -/
theorem heapAt_growHeap {s : Heap} {arenas : List Arena} (h : HeapAt s arenas) {minBytes : ℕ}
    (hmin : minBytes ≤ 2 ^ 64 - 4144) :
    ((growHeap s minBytes).2 = 0 ∧ (growHeap s minBytes).1.mem = s.mem ∧
      HeapAt (growHeap s minBytes).1 arenas) ∨
    ∃ a : Arena, (growHeap s minBytes).2 = a.base ∧ a.frames = arenaFrames minBytes ∧
      a.blocks = [⟨a.frames * 4096 - 48, true⟩] ∧
      HeapAt (growHeap s minBytes).1 (a :: arenas) := by
  obtain ⟨hroom, hleast, hmost⟩ := arenaFrames_spec hmin
  have hbound := h.totalFrames_le
  rcases pmmAllocFrames_spec s.pmm (arenaFrames minBytes) with
    ⟨hsame, -⟩ | ⟨start, hcount, hrun, -, hresult, hbecomes⟩
  · left
    simp only [growHeap, hsame, if_true]
    exact ⟨trivial, trivial, h⟩
  have hlast : start + arenaFrames minBytes ≤ s.pmm.totalFrames := by
    have hmem := hrun (Finset.mem_Ico.mpr
      ⟨(by omega : start ≤ start + (arenaFrames minBytes - 1)), by omega⟩)
    have hlt := (mem_freeSet.mp hmem).1
    omega
  have hbelow : start * 4096 + arenaFrames minBytes * 4096 ≤ 2 ^ 64 := by
    clear hresult
    omega
  have haddr : start * frameSize < 2 ^ 64 := lt_of_lt_of_le
    (Nat.lt_add_of_pos_right (Nat.mul_pos hcount (by norm_num))) hbelow
  rw [wrap_of_lt haddr] at hresult
  have hgrown := h.takeFrames hbecomes Finset.sdiff_subset
  by_cases hzero : start = 0
  · -- frame 0 was taken, and its address reads as a failure
    left
    rw [hzero, Nat.zero_mul] at hresult
    simp only [growHeap, hresult, if_true]
    exact ⟨trivial, trivial, hgrown⟩
  right
  have hstart : 0 < start := Nat.pos_of_ne_zero hzero
  have hdiv : start * 4096 / 4096 = start := Nat.mul_div_cancel _ (by norm_num)
  have hapart := h.apart_of_free
    (a := freshArena start (arenaFrames minBytes) hstart hcount hbelow)
    (by simp only [freshArena, hdiv]; exact hrun)
  refine ⟨freshArena start (arenaFrames minBytes) hstart hcount hbelow, ?_, rfl, rfl, ?_⟩
  · rw [growHeap_eq hmin hstart hbelow hresult]
    rfl
  rw [growHeap_eq hmin hstart hbelow hresult]
  refine ⟨⟨rfl, arenaAt_writeFreshArena _ _ hstart hcount hbelow, ?_⟩,
    List.pairwise_cons.mpr ⟨hapart, h.apart⟩, ?_, hgrown.totalFrames_le⟩
  · change ArenasAt _ (arenaNext _ (start * 4096)) arenas
    rw [arenaNext_writeFreshArena]
    refine h.chain.congr fun c hc ↦ eqOn_headers_of_apart (hapart c hc) fun w hw ↦ ?_
    exact writeFreshArena_of_outside _ _ hcount hw
  · intro c hc f hge hlt
    rcases List.mem_cons.mp hc with rfl | hc
    · simp only [freshArena, hdiv] at hge hlt
      have hin : f ∈ Finset.Ico start (start + arenaFrames minBytes) :=
        Finset.mem_Ico.mpr ⟨hge, hlt⟩
      refine ⟨hbecomes.totalFrames_eq ▸ (by omega), fun hfree ↦ ?_⟩
      rw [hbecomes.freeSet_eq] at hfree
      exact (Finset.mem_sdiff.mp hfree).2 hin
    · exact hgrown.used c hc f hge hlt

/-! ### `kmalloc` -/

/-- The arena that `grow_heap` adds for a request has room for it. -/
theorem Arena.fits_fresh {a : Arena} {size : ℕ} (hsize : size ≤ 2 ^ 64 - 4144)
    (hframes : a.frames = arenaFrames size) :
    (Block.mk (a.frames * 4096 - 48) true).Fits size := by
  obtain ⟨hroom, -, -⟩ := arenaFrames_spec hsize
  refine ⟨rfl, ?_⟩
  rw [hframes]
  simp only
  omega

section Answers

variable {s : Heap} {size : ℕ}

/-- `kmalloc` when the loops find a block. -/
theorem kmalloc_eq_take {block : ℕ} (hpos : 0 < size)
    (hfind : findInArenas s.mem (alignUp size 8) (2 ^ 64) s.arenaList = some block) :
    kmalloc s size =
      ({ s with mem := (allocFromBlock s.mem block (alignUp size 8)).1 },
        (allocFromBlock s.mem block (alignUp size 8)).2) := by
  simp only [kmalloc, if_neg (Nat.pos_iff_ne_zero.mp hpos), hfind]

/-- `kmalloc` when the loops find nothing and the heap does not grow. -/
theorem kmalloc_eq_null (hpos : 0 < size)
    (hfind : findInArenas s.mem (alignUp size 8) (2 ^ 64) s.arenaList = none)
    (hnull : (growHeap s (alignUp size 8)).2 = 0) :
    kmalloc s size = ((growHeap s (alignUp size 8)).1, 0) := by
  simp only [kmalloc, if_neg (Nat.pos_iff_ne_zero.mp hpos), hfind, hnull, if_true]

/-- `kmalloc` when the loops find nothing and the heap grows. -/
theorem kmalloc_eq_grow {arena block : ℕ} (hpos : 0 < size)
    (hfind : findInArenas s.mem (alignUp size 8) (2 ^ 64) s.arenaList = none)
    (harena : (growHeap s (alignUp size 8)).2 = arena) (hne : arena ≠ 0)
    (hfirst : arenaFirstBlock (growHeap s (alignUp size 8)).1.mem arena = block) :
    kmalloc s size =
      ({ (growHeap s (alignUp size 8)).1 with
          mem := (allocFromBlock (growHeap s (alignUp size 8)).1.mem block (alignUp size 8)).1 },
        (allocFromBlock (growHeap s (alignUp size 8)).1.mem block (alignUp size 8)).2) := by
  simp only [kmalloc, if_neg (Nat.pos_iff_ne_zero.mp hpos), hfind, harena, if_neg hne, hfirst]

/-- The loops find nothing when no block fits. -/
theorem HeapAt.find_eq_none {arenas : List Arena} (h : HeapAt s arenas)
    (hnone : ∀ a ∈ arenas, ∀ b ∈ a.blocks, ¬ b.Fits size) :
    findInArenas s.mem size (2 ^ 64) s.arenaList = none := by
  rcases findInArenas_spec size h.chain h.length_le with
    ⟨before, a, after, pre, b, post, rfl, hblocks, hfits, -⟩ | ⟨-, hfind⟩
  · exact absurd hfits (hnone a (by simp) b (by simp [hblocks]))
  · exact hfind

end Answers

/-- `kmalloc` takes a block of the heap that fits, or fails and leaves memory alone, or takes the
block of a new arena. In the last two cases no block of the heap fits. -/
theorem heapAt_kmalloc {s : Heap} {arenas : List Arena} (h : HeapAt s arenas) {size : ℕ}
    (hpos : 0 < size) (hsize : size ≤ 2 ^ 64 - 4144) :
    (∃ arenas', TakesBlock (alignUp size 8) (kmalloc s size).2 arenas arenas' ∧
      HeapAt (kmalloc s size).1 arenas') ∨
    ((∀ a ∈ arenas, ∀ b ∈ a.blocks, ¬ b.Fits (alignUp size 8)) ∧
      (((growHeap s (alignUp size 8)).2 = 0 ∧ (kmalloc s size).2 = 0 ∧
        (kmalloc s size).1.mem = s.mem ∧ HeapAt (kmalloc s size).1 arenas) ∨
      ∃ (a : Arena) (arenas' : List Arena), (growHeap s (alignUp size 8)).2 = a.base ∧
        a.frames = arenaFrames (alignUp size 8) ∧
        a.blocks = [⟨a.frames * 4096 - 48, true⟩] ∧ (∀ c ∈ arenas, a.Apart c) ∧
        TakesBlock (alignUp size 8) (kmalloc s size).2 (a :: arenas) arenas' ∧
        HeapAt (kmalloc s size).1 arenas')) := by
  have haligned := alignUp_eight (hsize.trans (by omega))
  have hmultiple : alignUp size 8 % 8 = 0 := by omega
  have halignedPos : 0 < alignUp size 8 := by omega
  have halignedLe : alignUp size 8 ≤ 2 ^ 64 - 4144 := by omega
  clear haligned
  rcases findInArenas_spec (alignUp size 8) h.chain h.length_le with
    ⟨before, a, after, pre, b, post, rfl, hblocks, hfits, -, -, hfind⟩ | ⟨hnone, hfind⟩
  · left
    obtain ⟨a', hbase, hframes, hblocks', hptr, hat⟩ :=
      heapAt_allocFromBlock h hblocks hfits.2 halignedPos hmultiple
    rw [kmalloc_eq_take hpos hfind]
    exact ⟨before ++ a' :: after,
      ⟨before, after, a, a', pre, post, b, rfl, rfl, hbase, hframes, hblocks, hblocks', hfits, hptr⟩,
      hat⟩
  · refine Or.inr ⟨hnone, ?_⟩
    rcases heapAt_growHeap h halignedLe with ⟨hzero, hmem, hat⟩ | ⟨a, hbase, hframes, hblocks, hat⟩
    · left
      rw [kmalloc_eq_null hpos hfind hzero]
      exact ⟨hzero, rfl, hmem, hat⟩
    · right
      have hfits := Arena.fits_fresh halignedLe hframes
      have hfront : HeapAt (growHeap s (alignUp size 8)).1 ([] ++ a :: arenas) := hat
      have hsingle : a.blocks = [] ++ ([⟨a.frames * 4096 - 48, true⟩] ++ []) := hblocks
      obtain ⟨a', hbase', hframes', hblocks', hptr, hat'⟩ :=
        heapAt_allocFromBlock hfront hsingle hfits.2 halignedPos hmultiple
      have hfirst : arenaFirstBlock (growHeap s (alignUp size 8)).1.mem a.base =
          a.base + 24 + extent [] := (hat.chain.arenaAt a List.mem_cons_self).firstBlock_eq
      rw [kmalloc_eq_grow hpos hfind hbase a.base_ne_zero hfirst]
      exact ⟨a, a' :: arenas, hbase, hframes, hblocks, (List.pairwise_cons.mp hat.apart).1,
        ⟨[], arenas, a, a', [], [], _, rfl, rfl, hbase', hframes', hsingle, hblocks', hfits, hptr⟩,
        hat'⟩

end MegKer.Memory
