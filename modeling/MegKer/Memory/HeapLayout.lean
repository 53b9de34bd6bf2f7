import MegKer.Memory.KernelHeap
import Mathlib.Data.List.Basic

/-!
# The layout of the heap in memory

The abstract heap is a list of arenas, each with the list of its blocks from the first to the
last. An `Arena` carries the tiling of its frames as fields: the headers and the usable bytes of
its blocks fill the arena exactly and all sizes are multiples of 8, so a layout with a gap, an
overlap or an odd size cannot be written down.

`BlocksAt mem stop addr blocks` relates memory to a list of blocks: from the address `addr` on, the
headers hold the sizes and flags of the blocks, every block follows its predecessor directly, and
the last `next` pointer is `stop`. `HeapAt` relates a heap to its arenas: the chain from
`arena_list` is the list of arenas, their frames are pairwise disjoint, and the frame allocator has
them marked used.

The lemmas say what the loops and header updates of `mm/heap.c` do on a heap with such a layout:
the inner loop of `kmalloc` finds the first block that fits (`findInBlocks_eq`), `alloc_from_block`
replaces a block by the blocks of `takeBlock` (`blocksAt_allocFromBlock`), and the header updates of
`kfree` replace a block by `releaseBlock` (`blocksAt_releaseHeader`). Everything else in memory is
left alone, which `BlocksAt.congr` turns into a frame rule.
-/

set_option autoImplicit false
set_option relaxedAutoImplicit false

namespace MegKer.Memory

open Foundation

/-! ### Lists of blocks -/

/-- A block: its usable bytes and whether it is free. -/
structure Block where
  size : ℕ
  free : Bool
  deriving DecidableEq, Repr

/-- The bytes that a list of blocks takes up, with a header of 24 bytes for each. -/
def extent : List Block → ℕ
  | [] => 0
  | b :: rest => 24 + b.size + extent rest

@[simp] theorem extent_nil : extent [] = 0 := rfl

@[simp] theorem extent_cons (b : Block) (rest : List Block) :
    extent (b :: rest) = 24 + b.size + extent rest := rfl

@[simp] theorem extent_append (first second : List Block) :
    extent (first ++ second) = extent first + extent second := by
  induction first with
  | nil => simp
  | cons b rest ih => simp only [List.cons_append, extent_cons, ih, Nat.add_assoc]

theorem length_mul_le_extent (blocks : List Block) : 24 * blocks.length ≤ extent blocks := by
  induction blocks with
  | nil => simp
  | cons b rest ih =>
    simp only [List.length_cons, extent_cons]
    omega

/-- The headers of a list of blocks laid out from `addr` on, with the blocks. -/
def located : ℕ → List Block → List (ℕ × Block)
  | _, [] => []
  | addr, b :: rest => (addr, b) :: located (addr + (24 + b.size)) rest

@[simp] theorem located_nil (addr : ℕ) : located addr [] = [] := rfl

@[simp] theorem located_cons (addr : ℕ) (b : Block) (rest : List Block) :
    located addr (b :: rest) = (addr, b) :: located (addr + (24 + b.size)) rest := rfl

theorem located_append (first second : List Block) :
    ∀ addr, located addr (first ++ second) =
      located addr first ++ located (addr + extent first) second := by
  induction first with
  | nil => intro addr; simp
  | cons b rest ih =>
    intro addr
    simp only [List.cons_append, located_cons, ih, extent_cons, Nat.add_assoc]

/-- Every block lies inside the bytes of its list. -/
theorem located_bounds {blocks : List Block} :
    ∀ {addr h : ℕ} {b : Block}, (h, b) ∈ located addr blocks →
      addr ≤ h ∧ h + 24 + b.size ≤ addr + extent blocks := by
  induction blocks with
  | nil => intro addr h b hmem; simp at hmem
  | cons c rest ih =>
    intro addr h b hmem
    rw [extent_cons]
    rcases List.mem_cons.mp hmem with heq | hmem
    · obtain ⟨rfl, rfl⟩ := Prod.mk.inj heq
      omega
    · have := ih hmem
      omega

/-- The blocks of a list lie one after the other. -/
theorem located_pairwise (blocks : List Block) :
    ∀ addr, (located addr blocks).Pairwise fun one other ↦
      one.1 + 24 + one.2.size ≤ other.1 := by
  induction blocks with
  | nil => intro addr; exact List.Pairwise.nil
  | cons b rest ih =>
    intro addr
    refine List.pairwise_cons.mpr ⟨fun other hother ↦ ?_, ih _⟩
    have := (located_bounds hother).1
    simp only at *
    omega

/-- Two blocks of one list are the same block, or one lies behind the other. -/
theorem located_eq_or_apart {blocks : List Block} {addr : ℕ} {one other : ℕ × Block}
    (hone : one ∈ located addr blocks) (hother : other ∈ located addr blocks) :
    one = other ∨ one.1 + 24 + one.2.size ≤ other.1 ∨
      other.1 + 24 + other.2.size ≤ one.1 := by
  by_cases heq : one = other
  · exact Or.inl heq
  · right
    have hsymm : Std.Symm fun one other : ℕ × Block ↦
        one.1 + 24 + one.2.size ≤ other.1 ∨
          other.1 + 24 + other.2.size ≤ one.1 := ⟨fun _ _ h ↦ h.symm⟩
    have hpairwise : (located addr blocks).Pairwise fun one other ↦
        one.1 + 24 + one.2.size ≤ other.1 ∨
          other.1 + 24 + other.2.size ≤ one.1 :=
      (located_pairwise blocks addr).imp fun h ↦ Or.inl h
    exact hpairwise.forall hone hother heq

/-- The words of the headers of a list of blocks. -/
def headerWords (addr : ℕ) (blocks : List Block) : Set ℕ :=
  {w | ∃ h b, (h, b) ∈ located addr blocks ∧ h ≤ w ∧ w < h + 24}

/-! ### Blocks in memory -/

/-- The pointer to the blocks `rest` at `addr`, or `stop` when there are none. -/
def linkTo (addr stop : ℕ) : List Block → ℕ
  | [] => stop
  | _ :: _ => addr

/-- Memory from `addr` on holds the headers of `blocks`, chained to `stop`. -/
def BlocksAt (mem : WordMemory) (stop : ℕ) : ℕ → List Block → Prop
  | _, [] => True
  | addr, b :: rest =>
    blockSize mem addr = b.size ∧ blockFree mem addr = b.free ∧
      blockNext mem addr = linkTo (addr + (24 + b.size)) stop rest ∧
      BlocksAt mem stop (addr + (24 + b.size)) rest

theorem blocksAt_append (mem : WordMemory) (stop : ℕ) (first second : List Block) :
    ∀ addr, BlocksAt mem stop addr (first ++ second) ↔
      BlocksAt mem (linkTo (addr + extent first) stop second) addr first ∧
        BlocksAt mem stop (addr + extent first) second := by
  induction first with
  | nil => intro addr; simp [BlocksAt]
  | cons b rest ih =>
    intro addr
    have hlink : linkTo (addr + (24 + b.size)) stop (rest ++ second) =
        linkTo (addr + (24 + b.size))
          (linkTo (addr + extent (b :: rest)) stop second) rest := by
      cases rest with
      | nil => simp [linkTo]
      | cons c rest => rfl
    simp only [List.cons_append, BlocksAt, ih, hlink, extent_cons, Nat.add_assoc, and_assoc]

/-- The frame rule: only the header words matter. -/
theorem BlocksAt.congr {mem mem' : WordMemory} {stop : ℕ} {blocks : List Block} :
    ∀ {addr : ℕ}, BlocksAt mem stop addr blocks → Set.EqOn mem' mem (headerWords addr blocks) →
      BlocksAt mem' stop addr blocks := by
  induction blocks with
  | nil => intro addr _ _; trivial
  | cons b rest ih =>
    intro addr h heq
    obtain ⟨hsize, hfree, hnext, hrest⟩ := h
    have hhead : ∀ w, addr ≤ w → w < addr + 24 → mem' w = mem w := fun w hge hlt ↦
      heq ⟨addr, b, List.mem_cons_self, hge, hlt⟩
    refine ⟨?_, ?_, ?_, ih hrest fun w hw ↦ ?_⟩
    · rw [blockSize, hhead addr le_rfl (by omega)]
      exact hsize
    · rw [blockFree, hhead (addr + 8) (by omega) (by omega)]
      exact hfree
    · rw [blockNext, hhead (addr + 16) (by omega) (by omega)]
      exact hnext
    · obtain ⟨h, c, hlocated, hrange⟩ := hw
      exact heq ⟨h, c, List.mem_cons_of_mem _ hlocated, hrange⟩

/-- Memory that changes only outside the bytes of a list of blocks still holds it. -/
theorem BlocksAt.congr_outside {mem mem' : WordMemory} {stop addr : ℕ} {blocks : List Block}
    (h : BlocksAt mem stop addr blocks)
    (heq : ∀ w, addr ≤ w → w < addr + extent blocks → mem' w = mem w) :
    BlocksAt mem' stop addr blocks := by
  refine h.congr fun w hw ↦ ?_
  obtain ⟨header, b, hlocated, hge, hlt⟩ := hw
  have hbounds := located_bounds hlocated
  exact heq w (by omega) (by omega)

theorem blockFree_of_located {mem : WordMemory} {stop : ℕ} {blocks : List Block} :
    ∀ {addr h : ℕ} {b : Block}, BlocksAt mem stop addr blocks → (h, b) ∈ located addr blocks →
      blockSize mem h = b.size ∧ blockFree mem h = b.free := by
  induction blocks with
  | nil => intro addr h b _ hmem; simp at hmem
  | cons c rest ih =>
    intro addr h b hat hmem
    obtain ⟨hsize, hfree, -, hrest⟩ := hat
    rcases List.mem_cons.mp hmem with heq | hmem
    · obtain ⟨rfl, rfl⟩ := Prod.mk.inj heq
      exact ⟨hsize, hfree⟩
    · exact ih hrest hmem

theorem linkTo_append_of_ne_nil (addr stop : ℕ) {first : List Block} (hne : first ≠ [])
    (second : List Block) : linkTo addr stop (first ++ second) = addr := by
  cases first with
  | nil => exact absurd rfl hne
  | cons b rest => rfl

/-- Replacing some blocks by others that take up the same bytes: memory may change only inside
these bytes, and has to hold the new blocks there, chained to the blocks that follow. -/
theorem BlocksAt.replace {mem mem' : WordMemory} {stop addr : ℕ} {pre old new post : List Block}
    (h : BlocksAt mem stop addr (pre ++ (old ++ post))) (hold : old ≠ []) (hnew : new ≠ [])
    (hextent : extent new = extent old)
    (hat : BlocksAt mem' (linkTo (addr + extent pre + extent old) stop post) (addr + extent pre) new)
    (hout : ∀ w, w < addr + extent pre ∨ addr + extent pre + extent old ≤ w → mem' w = mem w) :
    BlocksAt mem' stop addr (pre ++ (new ++ post)) := by
  rw [blocksAt_append, blocksAt_append, linkTo_append_of_ne_nil _ _ hold] at h
  rw [blocksAt_append, blocksAt_append, linkTo_append_of_ne_nil _ _ hnew, hextent]
  obtain ⟨hpre, -, hpost⟩ := h
  exact ⟨hpre.congr_outside fun w _ hlt ↦ hout w (Or.inl hlt), hat,
    hpost.congr_outside fun w hge _ ↦ hout w (Or.inr hge)⟩

theorem blocksAt_head {mem : WordMemory} {stop addr : ℕ} {pre post : List Block} {b : Block}
    (h : BlocksAt mem stop addr (pre ++ b :: post)) :
    blockSize mem (addr + extent pre) = b.size ∧ blockFree mem (addr + extent pre) = b.free ∧
      blockNext mem (addr + extent pre) =
        linkTo (addr + extent pre + (24 + b.size)) stop post := by
  rw [blocksAt_append] at h
  exact ⟨h.2.1, h.2.2.1, h.2.2.2.1⟩

/-! ### Taking a block -/

/-- What `alloc_from_block` makes of a block: the block itself, or its first `size` bytes and a
free block behind them. -/
def takeBlock (b : Block) (size : ℕ) : List Block :=
  if b.size - size > 32 then [⟨size, false⟩, ⟨b.size - size - 24, true⟩] else [⟨b.size, false⟩]

theorem takeBlock_ne_nil (b : Block) (size : ℕ) : takeBlock b size ≠ [] := by
  unfold takeBlock
  split_ifs <;> simp

theorem extent_takeBlock {b : Block} {size : ℕ} (hsize : size ≤ b.size) :
    extent (takeBlock b size) = 24 + b.size := by
  unfold takeBlock
  split_ifs with hsplit
  · simp only [extent_cons, extent_nil]
    omega
  · simp

/-- `alloc_from_block` on one block, whose successor is `link`. -/
theorem allocFromBlock_spec {mem : WordMemory} {block size link : ℕ} {b : Block}
    (hbsize : blockSize mem block = b.size) (hbnext : blockNext mem block = link)
    (hsize : size ≤ b.size) (hpos : 0 < size) (hbelow : block + (24 + b.size) ≤ 2 ^ 64) :
    BlocksAt (allocFromBlock mem block size).1 link block (takeBlock b size) ∧
      (allocFromBlock mem block size).2 = block + 24 ∧
      ∀ w, w < block ∨ block + (24 + b.size) ≤ w → (allocFromBlock mem block size).1 w = mem w := by
  have hrest : wrapSub (blockSize mem block) size = b.size - size := by
    rw [hbsize, wrapSub_of_le hsize (by omega)]
  have hptr : wrap (block + 24) = block + 24 := wrap_of_lt (by omega)
  simp only [allocFromBlock, blockHeader, hrest, hptr, takeBlock]
  by_cases hsplit : b.size - size > 32
  · have hwrap : wrap (block + 24 + size) = block + (24 + size) := by
      rw [wrap_of_lt (by omega)]
      omega
    have hsub : wrapSub (b.size - size) 24 = b.size - size - 24 :=
      wrapSub_of_le (by omega) (by omega)
    have hend : block + (24 + size) + (24 + (b.size - size - 24)) = block + (24 + b.size) := by
      omega
    have hlink : blockNext ((mem.store (block + (24 + size)) (b.size - size - 24)).store
        (block + (24 + size) + 8) 1) block = link := by
      rw [blockNext, WordMemory.store_of_ne _ _ (by omega), WordMemory.store_of_ne _ _ (by omega)]
      exact hbnext
    rw [if_pos hsplit, if_pos hsplit, hwrap, hsub, hlink]
    simp only [BlocksAt, linkTo, blockSize, blockFree, blockNext, WordMemory.store_apply, true_and]
    refine ⟨⟨?_, ?_, ?_, ?_, ?_, ?_, trivial⟩, fun w hw ↦ ?_⟩
    all_goals split_ifs <;> first | rfl | omega
  · rw [if_neg hsplit, if_neg hsplit]
    simp only [BlocksAt, linkTo, blockSize, blockFree, blockNext, WordMemory.store_apply, true_and]
    refine ⟨⟨?_, ?_, ?_, trivial⟩, fun w hw ↦ ?_⟩
    · rw [if_neg (by omega)]
      exact hbsize
    · rfl
    · rw [if_neg (by omega)]
      exact hbnext
    · rw [if_neg (by omega)]

/-- `alloc_from_block` replaces the block by `takeBlock`, and changes memory only there. -/
theorem blocksAt_allocFromBlock {mem : WordMemory} {stop addr size : ℕ} {pre post : List Block}
    {b : Block} (h : BlocksAt mem stop addr (pre ++ ([b] ++ post))) (hsize : size ≤ b.size)
    (hpos : 0 < size) (hbelow : addr + extent (pre ++ ([b] ++ post)) ≤ 2 ^ 64) :
    BlocksAt (allocFromBlock mem (addr + extent pre) size).1 stop addr
        (pre ++ (takeBlock b size ++ post)) ∧
      (allocFromBlock mem (addr + extent pre) size).2 = addr + extent pre + 24 ∧
      ∀ w, w < addr + extent pre ∨ addr + extent pre + (24 + b.size) ≤ w →
        (allocFromBlock mem (addr + extent pre) size).1 w = mem w := by
  obtain ⟨hbsize, -, hbnext⟩ := blocksAt_head h
  simp only [extent_append, extent_cons, extent_nil] at hbelow
  obtain ⟨hat, hptr, hout⟩ := allocFromBlock_spec hbsize hbnext hsize hpos (by omega)
  exact ⟨h.replace (by simp) (takeBlock_ne_nil b size) (extent_takeBlock hsize) hat hout,
    hptr, hout⟩

/-! ### Releasing a block -/

/-- What `kfree` makes of a block and the blocks behind it. -/
def releaseBlock (b : Block) : List Block → List Block
  | [] => [⟨b.size, true⟩]
  | next :: rest =>
    if next.free then ⟨b.size + (24 + next.size), true⟩ :: rest
    else ⟨b.size, true⟩ :: next :: rest

theorem extent_releaseBlock (b : Block) (post : List Block) :
    extent (releaseBlock b post) = extent (b :: post) := by
  cases post with
  | nil => rfl
  | cons next rest =>
    simp only [releaseBlock]
    split_ifs
    · simp only [extent_cons]
      omega
    · rfl

/-- The body of `kfree` on one block, followed in the chain by the blocks `post`. -/
theorem freeBlock_spec {mem : WordMemory} {block : ℕ} {b : Block} {post : List Block}
    (h : BlocksAt mem 0 block (b :: post)) (hbelow : block + extent (b :: post) ≤ 2 ^ 64)
    (hpos : 0 < b.size) :
    BlocksAt (freeBlock mem block) 0 block (releaseBlock b post) ∧
      ∀ w, w < block ∨ block + 24 ≤ w → freeBlock mem block w = mem w := by
  obtain ⟨hbsize, -, hbnext, hpost⟩ := h
  rw [extent_cons] at hbelow
  have hnext : blockNext (mem.store (block + 8) 1) block =
      linkTo (block + (24 + b.size)) 0 post := by
    rw [blockNext, WordMemory.store_of_ne _ _ (by omega)]
    exact hbnext
  have hflagOnly : freeBlock mem block = mem.store (block + 8) 1 →
      BlocksAt (freeBlock mem block) 0 block (⟨b.size, true⟩ :: post) ∧
        ∀ w, w < block ∨ block + 24 ≤ w → freeBlock mem block w = mem w := by
    intro hmem
    rw [hmem]
    refine ⟨⟨?_, ?_, hnext, ?_⟩, fun w hw ↦ WordMemory.store_of_ne _ _ (by omega)⟩
    · rw [blockSize, WordMemory.store_of_ne _ _ (by omega)]
      exact hbsize
    · rw [blockFree, WordMemory.store_same]
      rfl
    · exact hpost.congr_outside fun w hge _ ↦ WordMemory.store_of_ne _ _ (by omega)
  cases post with
  | nil => exact hflagOnly (by simp [freeBlock, hnext, linkTo])
  | cons next rest =>
    obtain ⟨hnsize, hnfree, hnnext, hrest⟩ := hpost
    rw [extent_cons] at hbelow
    have hfree : blockFree (mem.store (block + 8) 1) (block + (24 + b.size)) = next.free := by
      rw [blockFree, WordMemory.store_of_ne _ _ (by omega)]
      exact hnfree
    cases hflag : next.free with
    | false =>
      rw [releaseBlock, if_neg (by simp [hflag])]
      exact hflagOnly (by simp [freeBlock, hnext, linkTo, hfree, hflag])
    | true =>
      have hsum : wrap (blockSize (mem.store (block + 8) 1) block +
          (24 + blockSize (mem.store (block + 8) 1) (block + (24 + b.size)))) =
            b.size + (24 + next.size) := by
        rw [blockSize, WordMemory.store_of_ne _ _ (by omega), blockSize,
          WordMemory.store_of_ne _ _ (by omega)]
        change wrap (blockSize mem block + (24 + blockSize mem _)) = _
        rw [hbsize, hnsize, wrap_of_lt (by omega)]
      have hmem : freeBlock mem block =
          ((mem.store (block + 8) 1).store block (b.size + (24 + next.size))).store (block + 16)
            (linkTo (block + (24 + b.size) + (24 + next.size)) 0 rest) := by
        have hskip : blockNext ((mem.store (block + 8) 1).store block (b.size + (24 + next.size)))
            (block + (24 + b.size)) =
              linkTo (block + (24 + b.size) + (24 + next.size)) 0 rest := by
          rw [blockNext, WordMemory.store_of_ne _ _ (by omega),
            WordMemory.store_of_ne _ _ (by omega)]
          exact hnnext
        have hlink : blockNext (mem.store (block + 8) 1) block = block + (24 + b.size) := hnext
        simp only [freeBlock, blockHeader, hlink, hfree, hflag, hsum, Bool.and_true]
        rw [if_pos (decide_eq_true (by omega)), hskip]
      have hout : ∀ w, w < block ∨ block + 24 ≤ w → freeBlock mem block w = mem w := by
        intro w hw
        rw [hmem, WordMemory.store_of_ne _ _ (by omega), WordMemory.store_of_ne _ _ (by omega),
          WordMemory.store_of_ne _ _ (by omega)]
      have hend : block + (24 + (b.size + (24 + next.size))) =
          block + (24 + b.size) + (24 + next.size) := by omega
      rw [releaseBlock, if_pos hflag]
      refine ⟨⟨?_, ?_, ?_, ?_⟩, hout⟩
      · rw [hmem, blockSize, WordMemory.store_of_ne _ _ (by omega), WordMemory.store_same]
      · rw [hmem, blockFree, WordMemory.store_of_ne _ _ (by omega),
          WordMemory.store_of_ne _ _ (by omega), WordMemory.store_same]
        rfl
      · rw [hmem, blockNext, WordMemory.store_same, hend]
      · rw [hend]
        exact hrest.congr_outside fun w hge _ ↦ hout w (Or.inr (by omega))

/-- The body of `kfree` replaces the block and its successors by `releaseBlock`, and changes memory
only in the header of the block. -/
theorem blocksAt_freeBlock {mem : WordMemory} {addr : ℕ} {pre post : List Block} {b : Block}
    (h : BlocksAt mem 0 addr (pre ++ b :: post))
    (hbelow : addr + extent (pre ++ b :: post) ≤ 2 ^ 64) (hpos : 0 < b.size) :
    BlocksAt (freeBlock mem (addr + extent pre)) 0 addr (pre ++ releaseBlock b post) ∧
      ∀ w, w < addr + extent pre ∨ addr + extent pre + 24 ≤ w →
        freeBlock mem (addr + extent pre) w = mem w := by
  rw [extent_append] at hbelow
  rw [blocksAt_append] at h
  obtain ⟨hat, hout⟩ := freeBlock_spec h.2 (by omega) hpos
  refine ⟨(blocksAt_append _ _ _ _ _).mpr ⟨?_, hat⟩, hout⟩
  have hlink : linkTo (addr + extent pre) 0 (releaseBlock b post) =
      linkTo (addr + extent pre) 0 (b :: post) := by
    cases post with
    | nil => rfl
    | cons next rest =>
      simp only [releaseBlock]
      split_ifs <;> rfl
  rw [hlink]
  exact h.1.congr_outside fun w _ hlt ↦ hout w (Or.inl hlt)

/-! ### First fit -/

/-- The test of the inner loop of `kmalloc`. -/
def Block.Fits (b : Block) (size : ℕ) : Prop := b.free = true ∧ size ≤ b.size

/-- The inner loop of `kmalloc` finds the first block that fits, or none when no block does. -/
theorem findInBlocks_spec {mem : WordMemory} (size : ℕ) {blocks : List Block} :
    ∀ {addr fuel : ℕ}, BlocksAt mem 0 addr blocks → addr ≠ 0 → blocks.length ≤ fuel →
      (∃ pre b post, blocks = pre ++ ([b] ++ post) ∧ b.Fits size ∧ (∀ c ∈ pre, ¬ c.Fits size) ∧
        findInBlocks mem size fuel (linkTo addr 0 blocks) = some (addr + extent pre)) ∨
      ((∀ b ∈ blocks, ¬ b.Fits size) ∧
        findInBlocks mem size fuel (linkTo addr 0 blocks) = none) := by
  induction blocks with
  | nil =>
    intro addr fuel _ _ _
    refine Or.inr ⟨by simp, ?_⟩
    cases fuel <;> simp [findInBlocks, linkTo]
  | cons b rest ih =>
    intro addr fuel h haddr hfuel
    obtain ⟨hsize, hfree, hnext, hrest⟩ := h
    obtain ⟨fuel, rfl⟩ : ∃ k, fuel = k + 1 := ⟨fuel - 1, by simp at hfuel; omega⟩
    have hstep : findInBlocks mem size (fuel + 1) (linkTo addr 0 (b :: rest)) =
        if b.free && b.size ≥ size then some addr
        else findInBlocks mem size fuel (linkTo (addr + (24 + b.size)) 0 rest) := by
      simp only [linkTo, findInBlocks, hfree, hsize, hnext, if_neg haddr]
    rw [hstep]
    by_cases hfits : b.Fits size
    · left
      refine ⟨[], b, rest, rfl, hfits, by simp, ?_⟩
      rw [if_pos (by simpa [Block.Fits] using hfits)]
      simp
    · rw [if_neg (by simpa [Block.Fits] using hfits)]
      rcases ih hrest (by omega) (by simpa using hfuel) with
        ⟨pre, c, post, rfl, hc, hpre, hfind⟩ | ⟨hnone, hfind⟩
      · left
        refine ⟨b :: pre, c, post, rfl, hc, List.forall_mem_cons.mpr ⟨hfits, hpre⟩, ?_⟩
        rw [hfind, extent_cons]
        congr 1
        omega
      · exact Or.inr ⟨List.forall_mem_cons.mpr ⟨hfits, hnone⟩, hfind⟩

/-! ### Arenas -/

/-- An arena, with its tiling: the blocks fill the frames behind the arena header exactly, and
their sizes are multiples of 8. -/
structure Arena where
  base : ℕ
  frames : ℕ
  blocks : List Block
  blocks_ne_nil : blocks ≠ []
  tiles : 24 + extent blocks = frames * 4096
  sizes : ∀ b ∈ blocks, b.size % 8 = 0
  aligned : base % 4096 = 0
  base_ne_zero : base ≠ 0
  below : base + frames * 4096 ≤ 2 ^ 64

/-- The same arena with other blocks that fill it. -/
def Arena.withBlocks (a : Arena) (blocks : List Block) (hne : blocks ≠ [])
    (hextent : extent blocks = extent a.blocks) (hsizes : ∀ b ∈ blocks, b.size % 8 = 0) : Arena :=
  { a with
    blocks := blocks
    blocks_ne_nil := hne
    tiles := by rw [hextent]; exact a.tiles
    sizes := hsizes }

/-- The blocks of an arena with their addresses. -/
def Arena.located (a : Arena) : List (ℕ × Block) := Memory.located (a.base + 24) a.blocks

/-- Two arenas share no byte. -/
def Arena.Apart (a b : Arena) : Prop :=
  a.base + a.frames * 4096 ≤ b.base ∨ b.base + b.frames * 4096 ≤ a.base

/-- The words of the arena header and of the block headers. -/
def Arena.headers (a : Arena) : Set ℕ :=
  {w | a.base ≤ w ∧ w < a.base + 24} ∪ headerWords (a.base + 24) a.blocks

theorem Arena.frames_pos (a : Arena) : 0 < a.frames := by
  have := a.tiles
  omega

theorem Arena.located_bounds {a : Arena} {h : ℕ} {b : Block} (hmem : (h, b) ∈ a.located) :
    a.base + 24 ≤ h ∧ h + 24 + b.size ≤ a.base + a.frames * 4096 := by
  have hbounds := Memory.located_bounds hmem
  have htiles := a.tiles
  omega

theorem Arena.headers_subset {a : Arena} {w : ℕ} (hw : w ∈ a.headers) :
    a.base ≤ w ∧ w < a.base + a.frames * 4096 := by
  have hpos := a.frames_pos
  rcases hw with ⟨hge, hlt⟩ | ⟨h, b, hmem, hge, hlt⟩
  · omega
  · have hbounds := Arena.located_bounds hmem
    omega

/-- Memory holds the headers of the arena. -/
structure ArenaAt (mem : WordMemory) (a : Arena) : Prop where
  frameCount_eq : arenaFrameCount mem a.base = a.frames
  firstBlock_eq : arenaFirstBlock mem a.base = a.base + 24
  blocksAt : BlocksAt mem 0 (a.base + 24) a.blocks

theorem ArenaAt.congr {mem mem' : WordMemory} {a : Arena} (h : ArenaAt mem a)
    (heq : Set.EqOn mem' mem a.headers) : ArenaAt mem' a where
  frameCount_eq := by
    rw [arenaFrameCount, heq (Or.inl ⟨by omega, by omega⟩)]
    exact h.frameCount_eq
  firstBlock_eq := by
    rw [arenaFirstBlock, heq (Or.inl ⟨by omega, by omega⟩)]
    exact h.firstBlock_eq
  blocksAt := h.blocksAt.congr fun _ hw ↦ heq (Or.inr hw)

/-- The chain of arenas from a pointer on. -/
def ArenasAt (mem : WordMemory) : ℕ → List Arena → Prop
  | ptr, [] => ptr = 0
  | ptr, a :: rest => ptr = a.base ∧ ArenaAt mem a ∧ ArenasAt mem (arenaNext mem a.base) rest

theorem ArenasAt.congr {mem mem' : WordMemory} {arenas : List Arena} :
    ∀ {ptr : ℕ}, ArenasAt mem ptr arenas → (∀ a ∈ arenas, Set.EqOn mem' mem a.headers) →
      ArenasAt mem' ptr arenas := by
  induction arenas with
  | nil => intro ptr h _; exact h
  | cons a rest ih =>
    intro ptr h heq
    obtain ⟨hptr, hat, hrest⟩ := h
    have hhead := heq a List.mem_cons_self
    refine ⟨hptr, hat.congr hhead, ?_⟩
    rw [arenaNext, hhead (Or.inl ⟨le_rfl, by omega⟩)]
    exact ih hrest fun c hc ↦ heq c (List.mem_cons_of_mem _ hc)

theorem ArenasAt.arenaAt {mem : WordMemory} {arenas : List Arena} :
    ∀ {ptr : ℕ}, ArenasAt mem ptr arenas → ∀ a ∈ arenas, ArenaAt mem a := by
  induction arenas with
  | nil => intro ptr _ a ha; simp at ha
  | cons b rest ih =>
    intro ptr h a ha
    obtain ⟨-, hat, hrest⟩ := h
    rcases List.mem_cons.mp ha with rfl | ha
    · exact hat
    · exact ih hrest a ha

/-- Changing one arena of the chain in place. -/
theorem ArenasAt.replace {mem mem' : WordMemory} {a a' : Arena} {after before : List Arena} :
    ∀ {ptr : ℕ}, ArenasAt mem ptr (before ++ a :: after) → a'.base = a.base → ArenaAt mem' a' →
      arenaNext mem' a.base = arenaNext mem a.base →
      (∀ c ∈ before ++ after, Set.EqOn mem' mem c.headers) →
      ArenasAt mem' ptr (before ++ a' :: after) := by
  induction before with
  | nil =>
    intro ptr h hbase hat hnext heq
    obtain ⟨hptr, -, hrest⟩ := h
    refine ⟨hptr.trans hbase.symm, hat, ?_⟩
    rw [hbase, hnext]
    exact hrest.congr heq
  | cons b before ih =>
    intro ptr h hbase hat hnext heq
    obtain ⟨hptr, hb, hrest⟩ := h
    have hhead := heq b List.mem_cons_self
    refine ⟨hptr, hb.congr hhead, ?_⟩
    rw [arenaNext, hhead (Or.inl ⟨le_rfl, by omega⟩)]
    exact ih hrest hbase hat hnext fun c hc ↦ heq c (List.mem_cons_of_mem _ hc)

/-- The outer loop of `kmalloc` finds the first block that fits in the first arena that has one. -/
theorem findInArenas_spec {mem : WordMemory} (size : ℕ) {arenas : List Arena} :
    ∀ {ptr fuel : ℕ}, ArenasAt mem ptr arenas → arenas.length ≤ fuel →
      (∃ before a after pre b post, arenas = before ++ a :: after ∧
        a.blocks = pre ++ ([b] ++ post) ∧ b.Fits size ∧ (∀ c ∈ pre, ¬ c.Fits size) ∧
        (∀ c ∈ before, ∀ d ∈ c.blocks, ¬ d.Fits size) ∧
        findInArenas mem size fuel ptr = some (a.base + 24 + extent pre)) ∨
      ((∀ a ∈ arenas, ∀ b ∈ a.blocks, ¬ b.Fits size) ∧
        findInArenas mem size fuel ptr = none) := by
  induction arenas with
  | nil =>
    intro ptr fuel h _
    have hptr : ptr = 0 := h
    refine Or.inr ⟨by simp, ?_⟩
    cases fuel <;> simp [findInArenas, hptr]
  | cons a rest ih =>
    intro ptr fuel h hfuel
    obtain ⟨hptr, hat, hrest⟩ := h
    obtain ⟨fuel, rfl⟩ : ∃ k, fuel = k + 1 := ⟨fuel - 1, by simp at hfuel; omega⟩
    have hlength : a.blocks.length ≤ 2 ^ 64 := by
      have hextent := length_mul_le_extent a.blocks
      have htiles := a.tiles
      have hbelow := a.below
      omega
    have hfirst : arenaFirstBlock mem a.base = linkTo (a.base + 24) 0 a.blocks := by
      rw [hat.firstBlock_eq]
      obtain ⟨b, blocks, hblocks⟩ := List.exists_cons_of_ne_nil a.blocks_ne_nil
      rw [hblocks, linkTo]
    have hbase : ¬ ptr = 0 := by
      rw [hptr]
      exact a.base_ne_zero
    rcases findInBlocks_spec size hat.blocksAt (by omega) hlength with
      ⟨pre, b, post, hblocks, hfits, hpre, hfind⟩ | ⟨hnone, hfind⟩
    · refine Or.inl ⟨[], a, rest, pre, b, post, rfl, hblocks, hfits, hpre, by simp, ?_⟩
      rw [findInArenas, if_neg hbase, hptr, hfirst, hfind]
    · have hstep : findInArenas mem size (fuel + 1) ptr =
          findInArenas mem size fuel (arenaNext mem a.base) := by
        rw [findInArenas, if_neg hbase, hptr, hfirst, hfind]
      rw [hstep]
      rcases ih hrest (by simpa using hfuel) with
        ⟨before, c, after, pre, b, post, rfl, hblocks, hfits, hpre, hbefore, hfind⟩ |
          ⟨hrestNone, hfind⟩
      · exact Or.inl ⟨a :: before, c, after, pre, b, post, rfl, hblocks, hfits, hpre,
          List.forall_mem_cons.mpr ⟨hnone, hbefore⟩, hfind⟩
      · exact Or.inr ⟨List.forall_mem_cons.mpr ⟨hnone, hrestNone⟩, hfind⟩

end MegKer.Memory
