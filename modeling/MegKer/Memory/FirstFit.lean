import MegKer.Memory.HeapTiling

/-!
# First fit

Which block `kmalloc` hands out. On a heap with a layout it is the first free block with room, in the
order in which the loops visit the blocks, and the block is replaced by what `takeBlock` makes of it
(`HeapAt.kmalloc_firstFit`). Without such a block the heap grows and the block of the new arena is
taken, or the request fails (`HeapAt.kmalloc_noFit`). From these two follows the address of an
allocation as a function of the layout.
-/

set_option autoImplicit false
set_option relaxedAutoImplicit false

namespace MegKer.Memory

open Foundation

/-- The first free block with room. -/
def firstFit (size : ℕ) (blocks : List (ℕ × Block)) : Option (ℕ × Block) :=
  blocks.find? fun block ↦ block.2.free && decide (size ≤ block.2.size)

section Blocks

variable {size : ℕ} {front back blocks : List (ℕ × Block)} {block : ℕ × Block}

theorem fits_iff : (block.2.free && decide (size ≤ block.2.size)) = true ↔ block.2.Fits size := by
  simp [Block.Fits]

theorem firstFit_eq_none : firstFit size blocks = none ↔ ∀ block ∈ blocks, ¬ block.2.Fits size := by
  simp only [firstFit, List.find?_eq_none, fits_iff]

/-- Blocks without room in front do not matter. -/
theorem firstFit_append (hfront : ∀ block ∈ front, ¬ block.2.Fits size) :
    firstFit size (front ++ back) = firstFit size back := by
  rw [firstFit, List.find?_append, ← firstFit, firstFit_eq_none.mpr hfront]
  rfl

theorem firstFit_cons_of_fits (hblock : block.2.Fits size) :
    firstFit size (block :: back) = some block :=
  List.find?_cons_of_pos (fits_iff.mpr hblock)

theorem firstFit_cons_of_not_fits (hblock : ¬ block.2.Fits size) :
    firstFit size (block :: back) = firstFit size back :=
  List.find?_cons_of_neg (mt fits_iff.mp hblock)

/-- Where the first block with room is. -/
theorem exists_of_firstFit (h : firstFit size blocks = some block) :
    block.2.Fits size ∧ ∃ front back, blocks = front ++ block :: back ∧
      ∀ other ∈ front, ¬ other.2.Fits size := by
  obtain ⟨hfits, front, back, hblocks, hfront⟩ := List.find?_eq_some_iff_append.mp h
  refine ⟨fits_iff.mp hfits, front, back, hblocks, fun other hother hfits ↦ ?_⟩
  have hnot := hfront other hother
  rw [fits_iff.mpr hfits] at hnot
  exact absurd hnot (by decide)

end Blocks

section Answer

variable {s : Heap} {arenas : List Arena} {size : ℕ}

/-- A heap keeps its layout when no header changes. -/
theorem HeapAt.congr_mem (h : HeapAt s arenas) {mem : WordMemory}
    (hsame : ∀ a ∈ arenas, Set.EqOn mem s.mem a.headers) :
    HeapAt { s with mem := mem } arenas :=
  ⟨h.chain.congr hsame, h.apart, h.used, h.totalFrames_le⟩

theorem not_fits_of_forall (hnone : ∀ a ∈ arenas, ∀ b ∈ a.blocks, ¬ b.Fits size) :
    ∀ block ∈ heapBlocks arenas, ¬ block.2.Fits size := by
  intro block hblock
  obtain ⟨a, ha, hlocated⟩ := mem_heapBlocks.mp hblock
  obtain ⟨pre, post, hblocks, -⟩ := exists_split_of_located hlocated
  exact hnone a ha block.2 (by rw [hblocks]; simp)

/-- The blocks of a heap around one block of one arena. -/
theorem heapBlocks_split (before after : List Arena) {a : Arena} {pre middle post : List Block}
    (hblocks : a.blocks = pre ++ (middle ++ post)) :
    heapBlocks (before ++ a :: after) =
      heapBlocks before ++ located (a.base + 24) pre ++
        (located (a.base + 24 + extent pre) middle ++
          (located (a.base + 24 + extent pre + extent middle) post ++ heapBlocks after)) := by
  rw [heapBlocks_replace, Arena.located, hblocks, located_append, located_append]
  simp only [List.append_assoc]

/-- `kmalloc` takes the first free block with room. -/
theorem HeapAt.kmalloc_firstFit (h : HeapAt s arenas) (hpos : 0 < size)
    (hsize : size ≤ 2 ^ 64 - 4144) {header : ℕ} {b : Block}
    (hfit : firstFit (alignUp size 8) (heapBlocks arenas) = some (header, b)) :
    (kmalloc s size).2 = header + 24 ∧ ∃ front back arenas',
      heapBlocks arenas = front ++ (header, b) :: back ∧
      (∀ other ∈ front, ¬ other.2.Fits (alignUp size 8)) ∧
      heapBlocks arenas' = front ++ (located header (takeBlock b (alignUp size 8)) ++ back) ∧
      HeapAt (kmalloc s size).1 arenas' := by
  have haligned := alignUp_eight (hsize.trans (by omega))
  rcases findInArenas_spec (alignUp size 8) h.chain h.length_le with
    ⟨before, a, after, pre, c, post, rfl, hblocks, hfits, hpre, hbefore, hfind⟩ | ⟨hnone, -⟩
  · have hsplit := heapBlocks_split before after hblocks
    have hfront : ∀ other ∈ heapBlocks before ++ located (a.base + 24) pre,
        ¬ other.2.Fits (alignUp size 8) := by
      intro other hother
      rcases List.mem_append.mp hother with hother | hother
      · exact not_fits_of_forall hbefore other hother
      · obtain ⟨first, rest, hpre', -⟩ := exists_split_of_located hother
        exact hpre other.2 (by rw [hpre']; simp)
    obtain ⟨a', hbase, -, hblocks', hptr, hat⟩ :=
      heapAt_allocFromBlock h hblocks hfits.2 (by omega) (by omega)
    have hsplit' := heapBlocks_split before after hblocks'
    rw [hbase, extent_takeBlock hfits.2] at hsplit'
    simp only [located_cons, located_nil, extent_cons, extent_nil, Nat.add_zero,
      List.cons_append, List.nil_append] at hsplit
    rw [hsplit, firstFit_append hfront, firstFit_cons_of_fits hfits] at hfit
    obtain ⟨rfl, rfl⟩ := Prod.mk.inj (Option.some.inj hfit)
    rw [kmalloc_eq_take hpos hfind]
    exact ⟨hptr, _, _, before ++ a' :: after, hsplit, hfront, hsplit', hat⟩
  · rw [firstFit_eq_none.mpr (not_fits_of_forall hnone)] at hfit
    cases hfit

/-- Without a block with room `kmalloc` takes the block of a new arena, or fails. -/
theorem HeapAt.kmalloc_noFit (h : HeapAt s arenas) (hpos : 0 < size)
    (hsize : size ≤ 2 ^ 64 - 4144) (hnone : firstFit (alignUp size 8) (heapBlocks arenas) = none) :
    ((growHeap s (alignUp size 8)).2 = 0 ∧ (kmalloc s size).2 = 0 ∧
      HeapAt (kmalloc s size).1 arenas) ∨
    ∃ (a : Arena) (arenas' : List Arena), (growHeap s (alignUp size 8)).2 = a.base ∧
      a.frames = arenaFrames (alignUp size 8) ∧ (kmalloc s size).2 = a.base + 48 ∧
      heapBlocks arenas' = located (a.base + 24)
        (takeBlock ⟨a.frames * 4096 - 48, true⟩ (alignUp size 8)) ++ heapBlocks arenas ∧
      HeapAt (kmalloc s size).1 arenas' := by
  have haligned := alignUp_eight (hsize.trans (by omega))
  have hsize' : alignUp size 8 ≤ 2 ^ 64 - 4144 := by omega
  have hfind := h.find_eq_none fun a ha b hb hfits ↦ by
    obtain ⟨pre, post, hblocks⟩ := List.append_of_mem hb
    have hlocated : (a.base + 24 + extent pre, b) ∈ a.located := by
      rw [Arena.located, hblocks, located_append]
      simp
    exact firstFit_eq_none.mp hnone _ (mem_heapBlocks.mpr ⟨a, ha, hlocated⟩) hfits
  rcases heapAt_growHeap h hsize' with ⟨hzero, -, hat⟩ | ⟨a, hbase, hframes, hblocks, hat⟩
  · left
    rw [kmalloc_eq_null hpos hfind hzero]
    exact ⟨hzero, rfl, hat⟩
  · right
    have hfits := Arena.fits_fresh hsize' hframes
    have hfront : HeapAt (growHeap s (alignUp size 8)).1 ([] ++ a :: arenas) := hat
    have hsingle : a.blocks = [] ++ ([⟨a.frames * 4096 - 48, true⟩] ++ []) := hblocks
    obtain ⟨a', hbase', -, hblocks', hptr, hat'⟩ :=
      heapAt_allocFromBlock hfront hsingle hfits.2 (by omega) (by omega)
    have hfirst : arenaFirstBlock (growHeap s (alignUp size 8)).1.mem a.base =
        a.base + 24 + extent [] := (hat.chain.arenaAt a List.mem_cons_self).firstBlock_eq
    have hsplit := heapBlocks_split [] arenas hblocks'
    rw [hbase'] at hsplit
    rw [kmalloc_eq_grow hpos hfind hbase a.base_ne_zero hfirst]
    refine ⟨a, a' :: arenas, hbase, hframes, hptr, ?_, hat'⟩
    simpa [heapBlocks] using hsplit

/-- An allocation is 16-byte aligned exactly when the header of the block with room is not: a new arena
is on a page, and its first block behind two headers of 24 bytes. -/
theorem HeapAt.kmalloc_aligned_iff (h : HeapAt s arenas) (hpos : 0 < size)
    (hsize : size ≤ 2 ^ 64 - 4144) :
    (kmalloc s size).2 % 16 = 0 ↔
      ∀ header b, firstFit (alignUp size 8) (heapBlocks arenas) = some (header, b) →
        header % 16 = 8 := by
  cases hfit : firstFit (alignUp size 8) (heapBlocks arenas) with
  | none =>
    refine iff_of_true ?_ fun header b hsome ↦ ?_
    · rcases h.kmalloc_noFit hpos hsize hfit with ⟨-, hnull, -⟩ | ⟨a, arenas', -, -, hptr, -⟩
      · rw [hnull]
      · have haligned := a.aligned
        omega
    · cases hsome
  | some block =>
    obtain ⟨hptr, -⟩ := h.kmalloc_firstFit hpos hsize hfit
    constructor
    · intro haligned header b hsome
      obtain rfl := Option.some.inj hsome
      omega
    · intro hall
      have hheader := hall block.1 block.2 rfl
      omega

end Answer

end MegKer.Memory
