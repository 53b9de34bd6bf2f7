import MegKer.Foundation.WordMemory
import MegKer.Memory.FrameAllocator

/-!
# The kernel heap

`mm/heap.c` is a first-fit allocator that keeps its bookkeeping inside the memory it manages. The
heap is a linked list of arenas, each a run of frames from the frame allocator; an arena starts
with a 24-byte `heap_arena_t` and is filled by blocks, each a 24-byte `heap_block_t` followed by
its usable bytes. The functions here read and write these headers as words of physical memory at
the offsets the compiler gives them, and compute addresses by the pointer arithmetic of the
source.

The two nested loops of `kmalloc` follow `next` pointers. A chain of distinct 64-bit addresses is
shorter than `2 ^ 64`, which is the bound given to the loops here; `HeapLayout` shows that on a
heap that is laid out properly they stop at a null pointer before it.
-/

set_option autoImplicit false
set_option relaxedAutoImplicit false

namespace MegKer.Memory

open Foundation

/-! ### Headers in memory -/

/-- `sizeof(heap_block_t)`: `size` at offset 0, `free` at 8, `next` at 16. -/
abbrev blockHeader : ℕ := 24

/-- `sizeof(heap_arena_t)`: `next` at offset 0, `frame_count` at 8, `first_block` at 16. -/
abbrev arenaHeader : ℕ := 24

/-- `HEAP_MIN_ARENA_FRAMES`. -/
abbrev minArenaFrames : ℕ := 16

def blockSize (mem : WordMemory) (block : ℕ) : ℕ := mem block

/-- The `free` flag. It is a one-byte `bool` followed by padding, and any value but 0 is true. -/
def blockFree (mem : WordMemory) (block : ℕ) : Bool := mem (block + 8) != 0

def blockNext (mem : WordMemory) (block : ℕ) : ℕ := mem (block + 16)

def arenaNext (mem : WordMemory) (arena : ℕ) : ℕ := mem arena

def arenaFrameCount (mem : WordMemory) (arena : ℕ) : ℕ := mem (arena + 8)

def arenaFirstBlock (mem : WordMemory) (arena : ℕ) : ℕ := mem (arena + 16)

/-- The three assignments that fill in a block header. -/
def writeBlock (mem : WordMemory) (block size : ℕ) (free : Bool) (next : ℕ) : WordMemory :=
  ((mem.store block size).store (block + 8) free.toNat).store (block + 16) next

/-- The assignments that fill in an arena header. -/
def writeArena (mem : WordMemory) (arena frames firstBlock next : ℕ) : WordMemory :=
  ((mem.store (arena + 8) frames).store (arena + 16) firstBlock).store arena next

/-! ### The code of `mm/heap.c` -/

/-- The heap: the frame allocator below it, physical memory, and the static variable
`arena_list`. -/
structure Heap where
  pmm : Pmm
  mem : WordMemory
  arenaList : ℕ

/-- The number of frames `grow_heap` asks for. -/
def arenaFrames (minBytes : ℕ) : ℕ :=
  let needed := wrap (arenaHeader + blockHeader + minBytes)
  let frames := wrap (needed + frameSize - 1) / frameSize
  if frames < minArenaFrames then minArenaFrames else frames

/-- `grow_heap`. The result is the new arena, or 0. -/
def growHeap (s : Heap) (minBytes : ℕ) : Heap × ℕ :=
  let frames := arenaFrames minBytes
  let pmm := (pmmAllocFrames s.pmm frames).1
  let base := (pmmAllocFrames s.pmm frames).2
  if base = 0 then ({ s with pmm := pmm }, 0)
  else
    let block := wrap (base + arenaHeader)
    let size := wrapSub (wrapSub (wrap (frames * frameSize)) arenaHeader) blockHeader
    let mem := writeBlock s.mem block size true 0
    let mem := writeArena mem base frames block s.arenaList
    ({ pmm := pmm, mem := mem, arenaList := base }, base)

/-- `alloc_from_block`. A block is split only when the rest is large enough to be useful. -/
def allocFromBlock (mem : WordMemory) (block size : ℕ) : WordMemory × ℕ :=
  let remainder := wrapSub (blockSize mem block) size
  let mem :=
    if remainder > blockHeader + 8 then
      let split := wrap (block + blockHeader + size)
      let mem := (mem.store split (wrapSub remainder blockHeader)).store (split + 8) 1
      let mem := mem.store (split + 16) (blockNext mem block)
      (mem.store block size).store (block + 16) split
    else mem
  (mem.store (block + 8) 0, wrap (block + blockHeader))

def heapInit (s : Heap) : Heap := (growHeap s 0).1

/-- The inner loop of `kmalloc`: the first free block of the chain with room for `aligned` bytes. -/
def findInBlocks (mem : WordMemory) (aligned : ℕ) : (fuel block : ℕ) → Option ℕ
  | 0, _ => none
  | fuel + 1, block =>
    if block = 0 then none
    else if blockFree mem block && blockSize mem block ≥ aligned then some block
    else findInBlocks mem aligned fuel (blockNext mem block)

/-- The outer loop of `kmalloc`. -/
def findInArenas (mem : WordMemory) (aligned : ℕ) : (fuel arena : ℕ) → Option ℕ
  | 0, _ => none
  | fuel + 1, arena =>
    if arena = 0 then none
    else
      match findInBlocks mem aligned (2 ^ 64) (arenaFirstBlock mem arena) with
      | some block => some block
      | none => findInArenas mem aligned fuel (arenaNext mem arena)

/-- `kmalloc`. The result is the pointer handed out, or 0. -/
def kmalloc (s : Heap) (size : ℕ) : Heap × ℕ :=
  if size = 0 then (s, 0)
  else
    let aligned := alignUp size 8
    match findInArenas s.mem aligned (2 ^ 64) s.arenaList with
    | some block =>
      let taken := allocFromBlock s.mem block aligned
      ({ s with mem := taken.1 }, taken.2)
    | none =>
      let grown := (growHeap s aligned).1
      let arena := (growHeap s aligned).2
      if arena = 0 then (grown, 0)
      else
        let taken := allocFromBlock grown.mem (arenaFirstBlock grown.mem arena) aligned
        ({ grown with mem := taken.1 }, taken.2)

/-- The body of `kfree`: a freed block swallows the block behind it when that one is free too. -/
def freeBlock (mem : WordMemory) (block : ℕ) : WordMemory :=
  let mem := mem.store (block + 8) 1
  let next := blockNext mem block
  if next ≠ 0 && blockFree mem next then
    let mem := mem.store block (wrap (blockSize mem block + (blockHeader + blockSize mem next)))
    mem.store (block + 16) (blockNext mem next)
  else mem

def kfree (s : Heap) (ptr : ℕ) : Heap :=
  if ptr = 0 then s else { s with mem := freeBlock s.mem (wrapSub ptr blockHeader) }

end MegKer.Memory
