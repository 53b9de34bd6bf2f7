import MegKer.Kernel.ThreadCreation
import MegKer.Memory.FirstFit

/-!
# The alignment of new stacks

On aarch64 a stack pointer that is used to load or store has to be a multiple of 16; the comment in
`exceptions.S` says that it must stay so. The stacks of new threads and the launch stack of a process
come from `kmalloc`, which rounds to 8 bytes and puts a header of 24 bytes before each block, so the
stack pointer is aligned exactly when the block is, and that depends on the blocks that are free.

The condition is on the layout of the heap before the call. For the launch stack it is about the first
free block with room for it. A new thread takes two blocks; the first one, for the `thread_t`, is split
when it is large enough, and then the stack follows it.
-/

set_option autoImplicit false
set_option relaxedAutoImplicit false

namespace MegKer.Kernel

open Foundation Memory

/-! ### The stack pointers -/

def launchStackSize : ℕ := 16 * 1024

namespace AArch64

/-- The part of `process_run` that makes the launch stack: the stack pointer that it passes to
`arch_context_switch`. -/
def launchStack (labels : Labels) (heap : Heap) (params : ℕ) : Heap × ℕ :=
  let base := (kmalloc heap launchStackSize).2
  let heap := (kmalloc heap launchStackSize).1
  let frame := buildLaunchStack labels heap.mem (wrap (base + launchStackSize)) params
  ({ heap with mem := frame.1 }, frame.2)

/-- The stack pointer that `thread_create` stores in a new thread. -/
def threadSp (labels : Labels) (s : SchedHeap) (entry arg : ℕ) : ℕ :=
  (SchedHeap.allocStack (archThreadInitStack labels) s.allocThread.1 s.allocThread.2 entry arg).2

/-- A frame of twelve words below the end of a stack of 16 KiB keeps the alignment of its base. -/
theorem pushWords_aligned_iff (mem : WordMemory) (base : ℕ) {words : List ℕ}
    (hlength : words.length = 12) :
    (pushWords mem (wrap (base + 16 * 1024)) words).2 % 16 = 0 ↔ base % 16 = 0 := by
  have hsp := @pushWords_sp_mod mem _ words (wrap_lt (base + 16 * 1024))
  rw [hlength] at hsp
  unfold wrap at hsp ⊢
  omega

/-! ### The two conditions -/

/-- The first free block with room for a launch stack has a header at an odd multiple of 8. -/
def LaunchAligned (blocks : List (ℕ × Block)) : Prop :=
  ∀ header b, firstFit launchStackSize blocks = some (header, b) → header % 16 = 8

/-- The condition for a new thread. When no free block has room for a `thread_t`, it is that no arena
can be added either. When the first such block has room for the stack as well, behind another header,
it is that its header is a multiple of 16. Otherwise it is the condition on the first free block with
room for the stack, among the others. -/
def ThreadAligned (pmm : Pmm) (blocks : List (ℕ × Block)) : Prop :=
  match firstFit threadBytes blocks with
  | none => (∀ start, ¬ Finset.Ico start (start + 16) ⊆ freeSet pmm) ∨
      Finset.Ico 0 16 ⊆ freeSet pmm
  | some (header, b) =>
    if threadBytes + 24 + threadStackSize ≤ b.size then header % 16 = 0
    else ∀ header' b', firstFit threadStackSize (blocks.erase (header, b)) = some (header', b') →
      header' % 16 = 8

theorem alignUp_threadBytes : alignUp threadBytes 8 = threadBytes := alignUp_eight (by decide)

theorem alignUp_stackSize : alignUp threadStackSize 8 = threadStackSize := alignUp_eight (by decide)

theorem launchStack_aligned_iff {heap : Heap} {arenas : List Arena} (h : HeapAt heap arenas)
    (labels : Labels) (params : ℕ) :
    (launchStack labels heap params).2 % 16 = 0 ↔ LaunchAligned (heapBlocks arenas) := by
  have hbase := h.kmalloc_aligned_iff (by decide : 0 < launchStackSize) (by decide)
  have haligned : alignUp launchStackSize 8 = launchStackSize := alignUp_stackSize
  rw [haligned] at hbase
  exact (pushWords_aligned_iff _ _ rfl).trans hbase

/-! ### A new thread -/

/-- The first free block with room for a stack after a block has been taken for a `thread_t`. -/
theorem firstFit_takeBlock {header : ℕ} {b : Block} (back : List (ℕ × Block)) :
    firstFit threadStackSize (located header (takeBlock b threadBytes) ++ back) =
      if threadBytes + 24 + threadStackSize ≤ b.size then
        some (header + 72, ⟨b.size - 72, true⟩)
      else firstFit threadStackSize back := by
  have hused {header size : ℕ} {rest : List (ℕ × Block)} :
      firstFit threadStackSize ((header, ⟨size, false⟩) :: rest) = firstFit threadStackSize rest :=
    firstFit_cons_of_not_fits fun hfits ↦ Bool.false_ne_true hfits.1
  unfold takeBlock
  by_cases hsplit : b.size - threadBytes > 32
  · rw [if_pos hsplit]
    simp only [located_cons, located_nil, List.cons_append, List.nil_append, hused]
    by_cases hroom : threadBytes + 24 + threadStackSize ≤ b.size
    · rw [if_pos hroom]
      refine firstFit_cons_of_fits ⟨rfl, ?_⟩
      simp only
      omega
    · rw [if_neg hroom]
      refine firstFit_cons_of_not_fits fun hfits ↦ hroom ?_
      have hsize := hfits.2
      simp only [threadStackSize] at hsize ⊢
      omega
  · rw [if_neg hsplit, if_neg (by simp only [threadStackSize]; omega)]
    simp only [located_cons, located_nil, List.cons_append, List.nil_append, hused]

theorem not_fits_stack {b : Block} (h : ¬ b.Fits threadBytes) : ¬ b.Fits threadStackSize :=
  fun hfits ↦ h ⟨hfits.1, le_trans (by decide) hfits.2⟩

/-- The first stores to a `thread_t` leave the layout of the heap alone. -/
theorem heapAt_allocThread {s : SchedHeap} {arenas : List Arena}
    (hat : HeapAt (kmalloc s.heap threadBytes).1 arenas)
    (hfields : ∀ a ∈ arenas, ∀ w, (kmalloc s.heap threadBytes).2 ≤ w →
      w < (kmalloc s.heap threadBytes).2 + threadBytes → w ∉ a.headers) :
    HeapAt s.allocThread.1.heap arenas := by
  refine hat.congr_mem fun a ha w hw ↦ ?_
  have hne (offset : ℕ) (hoffset : offset < threadBytes) :
      w ≠ (kmalloc s.heap threadBytes).2 + offset := by
    rintro rfl
    exact hfields a ha _ (by omega) (by omega) hw
  have hid : w ≠ (kmalloc s.heap threadBytes).2 := hne 0 (by decide)
  exact (WordMemory.store_of_ne _ _ (hne 24 (by decide))).trans (WordMemory.store_of_ne _ _ hid)

/-- The words of a block that was taken are in no header. -/
theorem notMem_headers_of_taken {arenas : List Arena} (hapart : arenas.Pairwise Arena.Apart)
    (front back : List (ℕ × Block)) {header : ℕ} {b : Block} (hfits : b.Fits threadBytes)
    (hblocks : heapBlocks arenas = front ++ (located header (takeBlock b threadBytes) ++ back)) :
    ∀ a ∈ arenas, ∀ w, header + 24 ≤ w → w < header + 24 + threadBytes → w ∉ a.headers := by
  intro a ha w hlow hhigh
  have hroom := hfits.2
  obtain ⟨c, rest, htake, hsize⟩ :
      ∃ c rest, takeBlock b threadBytes = c :: rest ∧ threadBytes ≤ c.size := by
    unfold takeBlock
    split_ifs
    · exact ⟨_, _, rfl, le_rfl⟩
    · exact ⟨_, _, rfl, hroom⟩
  have hmem : (header, c) ∈ heapBlocks arenas := by
    rw [hblocks, htake, located_cons]
    simp
  exact notMem_headers_of_inside hapart hmem hlow (by omega) ha

theorem threadSp_aligned_iff {s : SchedHeap} {arenas : List Arena} (h : HeapAt s.heap arenas)
    (labels : Labels) (entry arg : ℕ) :
    threadSp labels s entry arg % 16 = 0 ↔ ThreadAligned s.heap.pmm (heapBlocks arenas) := by
  have hstack {arenas' : List Arena} (hat : HeapAt s.allocThread.1.heap arenas') :
      threadSp labels s entry arg % 16 = 0 ↔
        ∀ header b, firstFit threadStackSize (heapBlocks arenas') = some (header, b) →
          header % 16 = 8 := by
    have hbase := hat.kmalloc_aligned_iff (by decide : 0 < threadStackSize) (by decide)
    rw [alignUp_stackSize] at hbase
    exact (pushWords_aligned_iff _ _ rfl).trans hbase
  have hpos : 0 < threadBytes := by decide
  have hsize : threadBytes ≤ 2 ^ 64 - 4144 := by decide
  have hframes : arenaFrames threadBytes = 16 := by decide
  unfold ThreadAligned
  cases hfit : firstFit threadBytes (heapBlocks arenas) with
  | none =>
    have hnone := h.kmalloc_noFit hpos hsize (by rw [alignUp_threadBytes]; exact hfit)
    have hgrow := growHeap_null_iff h.totalFrames_le threadBytes
    rw [hframes] at hgrow
    rw [alignUp_threadBytes] at hnone
    simp only
    rw [← hgrow]
    rcases hnone with ⟨hzero, hnull, hat⟩ | ⟨a, arenas', hbase, hcount, hptr, hblocks, hat⟩
    · -- both requests fail, and the stores go to the words at null
      refine iff_of_true ((hstack (heapAt_allocThread hat fun a ha w _ hhigh hw ↦ ?_)).mpr ?_) hzero
      · have hheader := (Arena.headers_subset hw).1
        have haligned := a.aligned
        have hne := a.base_ne_zero
        simp only [hnull, threadBytes] at hhigh
        omega
      · intro header b hsome
        rw [firstFit_eq_none.mpr fun block hblock ↦
          not_fits_stack (firstFit_eq_none.mp hfit block hblock)] at hsome
        cases hsome
    · -- the stack follows the `thread_t` in the new arena
      have hfits : (Block.mk (a.frames * 4096 - 48) true).Fits threadBytes :=
        Arena.fits_fresh hsize hcount
      have hat' := heapAt_allocThread hat (by
        rw [hptr]
        exact notMem_headers_of_taken hat.apart [] _ hfits hblocks)
      refine iff_of_false (fun haligned ↦ ?_) fun hzero ↦ a.base_ne_zero (hbase.symm.trans hzero)
      rw [hstack hat', hblocks, firstFit_takeBlock, hcount, hframes, if_pos (by decide)] at haligned
      have hheader := haligned _ _ rfl
      have hpage := a.aligned
      omega
  | some block =>
    obtain ⟨header, b⟩ := block
    obtain ⟨hfits, -⟩ := exists_of_firstFit hfit
    obtain ⟨hptr, front, back, arenas', hblocks, hfront, hblocks', hat⟩ :=
      h.kmalloc_firstFit hpos hsize (by rw [alignUp_threadBytes]; exact hfit)
    rw [alignUp_threadBytes] at hfront hblocks'
    have hat' := heapAt_allocThread hat (by
      rw [hptr]
      exact notMem_headers_of_taken hat.apart front back hfits hblocks')
    have hfront' : ∀ other ∈ front, ¬ other.2.Fits threadStackSize :=
      fun other hother ↦ not_fits_stack (hfront other hother)
    have herase : (heapBlocks arenas).erase (header, b) = front ++ back := by
      have hnotMem : (header, b) ∉ front := fun hmem ↦ hfront _ hmem hfits
      rw [hblocks, List.erase_append_right _ hnotMem, List.erase_cons_head]
    rw [hstack hat', hblocks', firstFit_append hfront', firstFit_takeBlock]
    simp only [herase, firstFit_append hfront']
    split_ifs with hroom
    · constructor
      · intro haligned
        have hheader := haligned _ _ rfl
        omega
      · intro hheader header' b' hsome
        obtain ⟨rfl, rfl⟩ := Prod.mk.inj (Option.some.inj hsome)
        omega
    · exact Iff.rfl

/-! ### Every history of the heap -/

/-- After every history of allocations and releases: the stack pointer of a new thread, and that of a
launch stack, are multiples of 16 exactly under the conditions on the layout that the heap has then. -/
theorem initialSp_aligned_iff {u : HeapUse} (hu : HeapUse.Reachable u) (labels : Labels)
    (current nextId entry arg params : ℕ) :
    ∃ arenas, HeapAt u.heap arenas ∧
      (threadSp labels ⟨u.heap, current, nextId⟩ entry arg % 16 = 0 ↔
        ThreadAligned u.heap.pmm (heapBlocks arenas)) ∧
      ((launchStack labels u.heap params).2 % 16 = 0 ↔ LaunchAligned (heapBlocks arenas)) := by
  obtain ⟨arenas, hat, -⟩ := hu.exists_layout
  exact ⟨arenas, hat, @threadSp_aligned_iff ⟨u.heap, current, nextId⟩ arenas hat labels entry arg,
    launchStack_aligned_iff hat labels params⟩

theorem reachable_smallHeap : HeapUse.Reachable ⟨smallHeap, []⟩ := .init _ _ (by decide +kernel)

/-- Right after `heap_init` the stack of a new thread is 8 bytes off. -/
theorem not_threadSp_aligned_smallHeap :
    HeapUse.Reachable ⟨smallHeap, []⟩ ∧
      threadSp ⟨1, 2, 3, 4⟩ ⟨smallHeap, 0, 0⟩ 100 200 % 16 = 8 :=
  ⟨reachable_smallHeap, by decide +kernel⟩

/-- The launch stack right after `heap_init` is aligned, and the condition for it holds. -/
theorem initialSp_aligned_iff_smallHeap :
    (launchStack ⟨1, 2, 3, 4⟩ smallHeap 300).2 % 16 = 0 ∧
      ∃ arenas, HeapAt smallHeap arenas ∧ LaunchAligned (heapBlocks arenas) := by
  have haligned : (launchStack ⟨1, 2, 3, 4⟩ smallHeap 300).2 % 16 = 0 := by decide +kernel
  obtain ⟨arenas, hat, -, hiff⟩ :=
    initialSp_aligned_iff reachable_smallHeap ⟨1, 2, 3, 4⟩ 0 0 100 200 300
  simp only at hat hiff
  exact ⟨haligned, arenas, hat, hiff.mp haligned⟩

end AArch64

end MegKer.Kernel
