import MegKer.Foundation.WordBytes
import MegKer.Memory.FrameAccounting
import MegKer.Memory.FrameReservation
import MegKer.Memory.HeapRequests

/-!
# The heap and the bitmap in one memory

A `Heap` keeps the bitmap of the frame allocator apart from the memory in which the heap works. On the
machine they are in the same memory: `pmm_init` puts the bitmap behind the kernel image, and may leave the
frame of its last bytes free (`FrameReservation`). When `grow_heap` is given that frame, the header of the
new arena goes over the bitmap, and the bits that the next call sets go over the header.

`growHeapInRam`, `kmallocInRam` and `kfreeInRam` are the functions of `mm/heap.c` over one memory: the
allocator's bits are stored where the bitmap is, and after every store the allocator has the bitmap that
is in memory. `InRam` is the invariant of a heap whose frames and whose free frames all lie apart from the
bitmap. It makes the two models agree (`InRam.kmalloc`, `InRam.kfree`), and it holds in every state that is
reached after `pmm_init` when the frame of the last byte of the bitmap is not usable
(`HeapUse.RamReachable.inRam`).
-/

set_option autoImplicit false
set_option relaxedAutoImplicit false

namespace MegKer.Foundation

/-- A byte of a word, put back where it is. -/
theorem setByte_byteOf (word i : ℕ) : setByte word i (byteOf word i) = word := by
  have hbyte : (byteOf word i).toNat = word / 256 ^ i % 256 := UInt8.toNat_ofNat'
  have hdigit : word / 256 ^ (i + 1) = word / 256 ^ i / 256 := by
    rw [pow_succ, Nat.div_div_eq_div_mul]
  rw [setByte, hbyte, hdigit, Nat.mod_add_div, Nat.mod_add_div]

namespace WordMemory

variable (mem : WordMemory)

theorem storeByte_byteAt (a : ℕ) : mem.storeByte a (mem.byteAt a) = mem := by
  rw [storeByte, byteAt, setByte_byteOf]
  exact Function.update_eq_self _ _

/-- Write `n` bytes. -/
def storeBytes (a : ℕ) (bytes : ℕ → UInt8) (n : ℕ) : WordMemory :=
  (List.range n).foldl (fun mem i ↦ mem.storeByte (a + i) (bytes i)) mem

theorem storeBytes_succ (a : ℕ) (bytes : ℕ → UInt8) (n : ℕ) :
    mem.storeBytes a bytes (n + 1) = (mem.storeBytes a bytes n).storeByte (a + n) (bytes n) := by
  rw [storeBytes, List.range_succ, List.foldl_append]
  rfl

theorem byteAt_storeBytes (a : ℕ) (bytes : ℕ → UInt8) {n i : ℕ} (hi : i < n) :
    (mem.storeBytes a bytes n).byteAt (a + i) = bytes i := by
  induction n with
  | zero => exact absurd hi (Nat.not_lt_zero i)
  | succ n ih =>
    rw [storeBytes_succ, byteAt_storeByte]
    rcases Nat.lt_succ_iff_lt_or_eq.mp hi with hlt | rfl
    · rw [if_neg (by omega), ih hlt]
    · exact if_pos rfl

/-- Words without any of the bytes stay. -/
theorem storeBytes_of_ne {a n w : ℕ} (bytes : ℕ → UInt8) (hne : ∀ i < n, (a + i) / 8 * 8 ≠ w) :
    mem.storeBytes a bytes n w = mem w := by
  induction n with
  | zero => rfl
  | succ n ih =>
    rw [storeBytes_succ, storeByte, store_of_ne _ _ (hne n (by omega)).symm,
      ih fun i hi ↦ hne i (by omega)]

/-- Nothing changes when the bytes are there already. -/
theorem storeBytes_eq_self {a n : ℕ} {bytes : ℕ → UInt8}
    (hsame : ∀ i < n, mem.byteAt (a + i) = bytes i) : mem.storeBytes a bytes n = mem := by
  induction n with
  | zero => rfl
  | succ n ih =>
    rw [storeBytes_succ, ih fun i hi ↦ hsame i (by omega), ← hsame n (by omega), storeByte_byteAt]

end WordMemory

end MegKer.Foundation

namespace MegKer.Memory

open Foundation Finset

/-! ### The bitmap in memory -/

/-- Memory has the bitmap of the allocator. -/
def ShowsBitmap (mem : WordMemory) (pmm : Pmm) : Prop :=
  ∀ i < pmm.bitmapBytes, mem.byteAt (pmm.bitmapBase + i) = UInt8.ofBitVec (pmm.bitmap i)

/-- The allocator, with the bitmap that is in memory. -/
def loadBitmap (mem : WordMemory) (pmm : Pmm) : Pmm :=
  { pmm with
    bitmap := fun i ↦
      if i < pmm.bitmapBytes then (mem.byteAt (pmm.bitmapBase + i)).toBitVec else pmm.bitmap i }

/-- Memory, with the bitmap of the allocator. -/
def storeBitmap (mem : WordMemory) (pmm : Pmm) : WordMemory :=
  mem.storeBytes pmm.bitmapBase (fun i ↦ UInt8.ofBitVec (pmm.bitmap i)) pmm.bitmapBytes

section Bitmap

variable {mem mem' : WordMemory} {pmm : Pmm}

theorem loadBitmap_eq (h : ShowsBitmap mem pmm) : loadBitmap mem pmm = pmm := by
  have hbitmap : (fun i ↦ if i < pmm.bitmapBytes then (mem.byteAt (pmm.bitmapBase + i)).toBitVec
      else pmm.bitmap i) = pmm.bitmap := by
    funext i
    split_ifs with hi
    · rw [h i hi]
    · rfl
  rw [loadBitmap, hbitmap]

theorem showsBitmap_storeBitmap (mem : WordMemory) (pmm : Pmm) :
    ShowsBitmap (storeBitmap mem pmm) pmm := fun _ hi ↦ mem.byteAt_storeBytes _ _ hi

theorem storeBitmap_eq (h : ShowsBitmap mem pmm) : storeBitmap mem pmm = mem :=
  mem.storeBytes_eq_self h

/-- Only the words of the bitmap matter. -/
theorem ShowsBitmap.congr (h : ShowsBitmap mem pmm)
    (hsame : ∀ i < pmm.bitmapBytes, mem' ((pmm.bitmapBase + i) / 8 * 8) =
      mem ((pmm.bitmapBase + i) / 8 * 8)) : ShowsBitmap mem' pmm := by
  intro i hi
  rw [← h i hi, WordMemory.byteAt, WordMemory.byteAt, hsame i hi]

end Bitmap

/-! ### The code over one memory -/

/-- The heap, when the allocator has the bitmap that is in memory. -/
def Heap.load (s : Heap) : Heap := { s with pmm := loadBitmap s.mem s.pmm }

/-- `grow_heap`. The bits that `pmm_alloc_frames` sets are in memory before the headers are written. -/
def growHeapInRam (s : Heap) (minBytes : ℕ) : Heap × ℕ :=
  let pmm := (pmmAllocFrames s.pmm (arenaFrames minBytes)).1
  let grown := growHeap { s with mem := storeBitmap s.mem pmm } minBytes
  (grown.1.load, grown.2)

/-- `heap_init`. -/
def heapInitInRam (s : Heap) : Heap := (growHeapInRam s 0).1

/-- `kmalloc`. -/
def kmallocInRam (s : Heap) (size : ℕ) : Heap × ℕ :=
  if size = 0 then (s, 0)
  else
    let aligned := alignUp size 8
    match findInArenas s.mem aligned (2 ^ 64) s.arenaList with
    | some block =>
      let taken := allocFromBlock s.mem block aligned
      (Heap.load { s with mem := taken.1 }, taken.2)
    | none =>
      let grown := (growHeapInRam s aligned).1
      let arena := (growHeapInRam s aligned).2
      if arena = 0 then (grown, 0)
      else
        let taken := allocFromBlock grown.mem (arenaFirstBlock grown.mem arena) aligned
        (Heap.load { grown with mem := taken.1 }, taken.2)

/-- `kfree`. -/
def kfreeInRam (s : Heap) (ptr : ℕ) : Heap := (kfree s ptr).load

/-! ### Where the heap writes -/

section Writes

variable {s : Heap} {arenas : List Arena} {size minBytes w : ℕ}

theorem pmm_growHeap (s : Heap) (minBytes : ℕ) :
    (growHeap s minBytes).1.pmm = (pmmAllocFrames s.pmm (arenaFrames minBytes)).1 := by
  simp only [growHeap]
  split_ifs <;> rfl

/-- `grow_heap` fails and leaves memory alone, or sets up an arena on frames that were free. -/
theorem growHeap_cases (htotal : s.pmm.totalFrames ≤ 2 ^ 52) (hmin : minBytes ≤ 2 ^ 64 - 4144) :
    ((growHeap s minBytes).2 = 0 ∧ (growHeap s minBytes).1.mem = s.mem) ∨
      ∃ start, Ico start (start + arenaFrames minBytes) ⊆ freeSet s.pmm ∧
        0 < arenaFrames minBytes ∧ (growHeap s minBytes).2 = start * 4096 ∧
        (growHeap s minBytes).1.mem =
          writeFreshArena s.mem (start * 4096) (arenaFrames minBytes) s.arenaList := by
  rcases pmmAllocFrames_spec s.pmm (arenaFrames minBytes) with
    ⟨hsame, -⟩ | ⟨start, hcount, hrun, -, hresult, -⟩
  · left
    simp only [growHeap, hsame, if_true]
    exact ⟨trivial, trivial⟩
  have hlast := (mem_freeSet.mp (hrun (mem_Ico.mpr
    ⟨(by omega : start ≤ start + (arenaFrames minBytes - 1)), by omega⟩))).1
  have hbelow : start * 4096 + arenaFrames minBytes * 4096 ≤ 2 ^ 64 := by
    clear hresult
    omega
  rw [wrap_of_lt (by simp only [frameSize]; omega)] at hresult
  by_cases hzero : start = 0
  · left
    rw [hzero, Nat.zero_mul] at hresult
    simp only [growHeap, hresult, if_true]
    exact ⟨trivial, trivial⟩
  · right
    rw [growHeap_eq hmin (Nat.pos_of_ne_zero hzero) hbelow hresult]
    exact ⟨start, hrun, hcount, rfl, rfl⟩

/-- `grow_heap` writes to frames that were free. -/
theorem mem_growHeap_of_used (htotal : s.pmm.totalFrames ≤ 2 ^ 52) (hmin : minBytes ≤ 2 ^ 64 - 4144)
    (hused : w / 4096 ∉ freeSet s.pmm) : (growHeap s minBytes).1.mem w = s.mem w := by
  rcases growHeap_cases htotal hmin with ⟨-, hmem⟩ | ⟨start, hrun, hcount, -, hmem⟩
  · rw [hmem]
  · rw [hmem]
    refine writeFreshArena_of_outside _ _ hcount ?_
    by_contra hinside
    exact hused (hrun (mem_Ico.mpr (by omega)))

/-- The frames of the arena. -/
def Arena.Within (usable : Finset ℕ) (a : Arena) : Prop :=
  ∀ f, a.base / 4096 ≤ f → f < a.base / 4096 + a.frames → f ∈ usable

theorem Arena.Within.outside {usable : Finset ℕ} {a : Arena} (h : a.Within usable)
    (hw : w / 4096 ∉ usable) : w < a.base ∨ a.base + a.frames * 4096 ≤ w := by
  have haligned := a.aligned
  by_contra hinside
  exact hw (h (w / 4096) (by omega) (by omega))

/-- An arena that was added lies on frames that were free. -/
theorem within_growHeap (htotal : s.pmm.totalFrames ≤ 2 ^ 52) (hmin : minBytes ≤ 2 ^ 64 - 4144)
    {a : Arena} (hbase : (growHeap s minBytes).2 = a.base) (hframes : a.frames = arenaFrames minBytes) :
    a.Within (freeSet s.pmm) := by
  rcases growHeap_cases htotal hmin with ⟨hnull, -⟩ | ⟨start, hrun, -, hstart, -⟩
  · exact absurd (hbase.symm.trans hnull) a.base_ne_zero
  · intro f hge hlt
    rw [hframes] at hlt
    rw [← hbase, hstart, Nat.mul_div_cancel _ (by norm_num)] at hge hlt
    exact hrun (mem_Ico.mpr ⟨hge, hlt⟩)

/-- `alloc_from_block` writes inside the arena of the block. -/
theorem HeapAt.mem_allocFromBlock (h : HeapAt s arenas) {a : Arena} (ha : a ∈ arenas)
    {pre post : List Block} {b : Block} (hblocks : a.blocks = pre ++ ([b] ++ post))
    (hle : size ≤ b.size) (hpos : 0 < size) (hw : w < a.base ∨ a.base + a.frames * 4096 ≤ w) :
    (allocFromBlock s.mem (a.base + 24 + extent pre) size).1 w = s.mem w := by
  have hat := (h.chain.arenaAt a ha).blocksAt
  have htiles := a.tiles
  have hbelow := a.below
  rw [hblocks] at hat htiles
  obtain ⟨-, -, hout⟩ := blocksAt_allocFromBlock hat hle hpos (by omega)
  simp only [extent_append, extent_cons, extent_nil] at htiles
  exact hout w (by omega)

/-- `kmalloc` writes inside the arenas and to frames that were free. -/
theorem HeapAt.mem_kmalloc (h : HeapAt s arenas) (hpos : 0 < size) (hsize : size ≤ 2 ^ 64 - 4144)
    (hw : ∀ a ∈ arenas, w < a.base ∨ a.base + a.frames * 4096 ≤ w)
    (hused : w / 4096 ∉ freeSet s.pmm) : (kmalloc s size).1.mem w = s.mem w := by
  have haligned := alignUp_eight (hsize.trans (by omega))
  have halignedPos : 0 < alignUp size 8 := by omega
  have halignedLe : alignUp size 8 ≤ 2 ^ 64 - 4144 := by omega
  clear haligned
  rcases findInArenas_spec (alignUp size 8) h.chain h.length_le with
    ⟨before, a, after, pre, b, post, rfl, hblocks, hfits, -, -, hfind⟩ | ⟨hnone, hfind⟩
  · rw [kmalloc_eq_take hpos hfind]
    exact h.mem_allocFromBlock (by simp) hblocks hfits.2 halignedPos (hw a (by simp))
  · rcases heapAt_growHeap h halignedLe with ⟨hzero, hmem, -⟩ | ⟨a, hbase, hframes, hblocks, hat⟩
    · rw [kmalloc_eq_null hpos hfind hzero]
      exact congrFun hmem w
    · have hsingle : a.blocks = [] ++ ([⟨a.frames * 4096 - 48, true⟩] ++ []) := hblocks
      have hfirst : arenaFirstBlock (growHeap s (alignUp size 8)).1.mem a.base =
          a.base + 24 + extent [] := (hat.chain.arenaAt a List.mem_cons_self).firstBlock_eq
      have hwithin := within_growHeap h.totalFrames_le halignedLe hbase hframes
      rw [kmalloc_eq_grow hpos hfind hbase a.base_ne_zero hfirst]
      exact (hat.mem_allocFromBlock List.mem_cons_self hsingle (Arena.fits_fresh halignedLe hframes).2
        halignedPos (hwithin.outside hused)).trans
          (mem_growHeap_of_used h.totalFrames_le halignedLe hused)

/-- `kfree` writes inside the arena of the block. -/
theorem HeapAt.mem_kfree (h : HeapAt s arenas) {header : ℕ} {b : Block}
    (hmem : (header, b) ∈ heapBlocks arenas) (hpos : 0 < b.size)
    (hw : ∀ a ∈ arenas, w < a.base ∨ a.base + a.frames * 4096 ≤ w) :
    (kfree s (header + 24)).mem w = s.mem w := by
  obtain ⟨a, ha, hlocated⟩ := mem_heapBlocks.mp hmem
  have hbounds := Arena.located_bounds hlocated
  obtain ⟨pre, post, hblocks, rfl⟩ := exists_split_of_located hlocated
  have hat := (h.chain.arenaAt a ha).blocksAt
  have htiles := a.tiles
  have hbelow := a.below
  rw [hblocks] at hat htiles
  obtain ⟨-, hout⟩ := blocksAt_freeBlock hat (by omega) hpos
  have hptr : wrapSub (a.base + 24 + extent pre + 24) 24 = a.base + 24 + extent pre := by
    rw [wrapSub_of_le (by omega) (by omega)]
    omega
  rw [kfree, if_neg (by omega)]
  simp only [blockHeader, hptr]
  have houtside := hw a ha
  exact hout w (by omega)

end Writes

/-! ### The bitmap apart from the heap -/

/-- The frames of the heap and the free frames lie in a set of frames that has none of the bitmap. -/
structure InRam (usable : Finset ℕ) (s : Heap) : Prop where
  shown : ShowsBitmap s.mem s.pmm
  apart : ∀ i < s.pmm.bitmapBytes, (s.pmm.bitmapBase + i) / 4096 ∉ usable
  free_subset : freeSet s.pmm ⊆ usable
  exists_layout : ∃ arenas, HeapAt s arenas ∧ ∀ a ∈ arenas, a.Within usable

namespace InRam

variable {usable : Finset ℕ} {s : Heap} {arenas : List Arena} {size minBytes : ℕ}

theorem load_eq (h : ShowsBitmap s.mem s.pmm) : s.load = s := by
  rw [Heap.load, loadBitmap_eq h]

/-- All layouts have the same arenas. -/
theorem within (h : InRam usable s) (hat : HeapAt s arenas) : ∀ a ∈ arenas, a.Within usable := by
  obtain ⟨arenas₀, hat₀, hwithin⟩ := h.exists_layout
  intro a ha
  obtain ⟨a₀, ha₀, hbase, hframes⟩ := hat.chain.exists_same hat₀.chain a ha
  rw [Arena.Within, ← hbase, ← hframes]
  exact hwithin a₀ ha₀

/-- No word of the bitmap is in a usable frame. -/
theorem word_notMem (h : InRam usable s) {i : ℕ} (hi : i < s.pmm.bitmapBytes) :
    (s.pmm.bitmapBase + i) / 8 * 8 / 4096 ∉ usable := by
  have hframe : (s.pmm.bitmapBase + i) / 8 * 8 / 4096 = (s.pmm.bitmapBase + i) / 4096 := by omega
  rw [hframe]
  exact h.apart i hi

/-- Storing the bitmap writes to no usable frame. -/
theorem storeBitmap_of_usable (h : InRam usable s) {pmm : Pmm} {free : Finset ℕ}
    (hbecomes : Becomes s.pmm pmm free) {w : ℕ} (hw : w / 4096 ∈ usable) :
    storeBitmap s.mem pmm w = s.mem w := by
  refine WordMemory.storeBytes_of_ne _ _ fun i hi heq ↦ ?_
  rw [hbecomes.bitmapBase_eq] at heq
  rw [hbecomes.bitmapBytes_eq] at hi
  exact h.word_notMem hi (heq ▸ hw)

/-- Memory that is the same in usable frames has the same arenas. -/
theorem heapAt_congr (h : InRam usable s) (hat : HeapAt s arenas) {mem : WordMemory}
    (hsame : ∀ w, w / 4096 ∈ usable → mem w = s.mem w) : HeapAt { s with mem := mem } arenas := by
  refine ⟨hat.chain.congr fun a ha w hw ↦ hsame w ?_, hat.apart, hat.used, hat.totalFrames_le⟩
  have hbounds := Arena.headers_subset hw
  have haligned := a.aligned
  exact h.within hat a ha _ (by omega) (by omega)

/-- Over one memory, `grow_heap` does what it does apart from the bitmap. -/
theorem growHeapInRam_eq (h : InRam usable s) (htotal : s.pmm.totalFrames ≤ 2 ^ 52)
    (hmin : minBytes ≤ 2 ^ 64 - 4144) :
    growHeapInRam s minBytes = growHeap { s with
      mem := storeBitmap s.mem (pmmAllocFrames s.pmm (arenaFrames minBytes)).1 } minBytes := by
  obtain ⟨free, hbecomes⟩ := exists_becomes_run s.pmm (.allocFrames (arenaFrames minBytes))
  have hbecomes : Becomes s.pmm (pmmAllocFrames s.pmm (arenaFrames minBytes)).1 free := hbecomes
  have hshown : ShowsBitmap (growHeap { s with
      mem := storeBitmap s.mem (pmmAllocFrames s.pmm (arenaFrames minBytes)).1 } minBytes).1.mem
      (growHeap { s with
        mem := storeBitmap s.mem (pmmAllocFrames s.pmm (arenaFrames minBytes)).1 } minBytes).1.pmm := by
    rw [pmm_growHeap]
    refine (showsBitmap_storeBitmap s.mem _).congr fun i hi ↦ mem_growHeap_of_used htotal hmin ?_
    rw [hbecomes.bitmapBytes_eq] at hi
    rw [hbecomes.bitmapBase_eq]
    exact fun hfree ↦ h.word_notMem hi (h.free_subset hfree)
  exact Prod.ext (load_eq hshown) rfl

/-- Over one memory, `kmalloc` does what it does apart from the bitmap: it answers as from the heap whose
memory has the bits that it sets, and the bitmap stays apart. -/
theorem kmallocInRam_eq (h : InRam usable s) (hpos : 0 < size) (hsize : size ≤ 2 ^ 64 - 4144) :
    ∃ mem, (∀ w, w / 4096 ∈ usable → mem w = s.mem w) ∧
      ((pmmAllocFrames s.pmm (arenaFrames (alignUp size 8))).1 = s.pmm → mem = s.mem) ∧
      kmallocInRam s size = kmalloc { s with mem := mem } size ∧
      ShowsBitmap (kmalloc { s with mem := mem } size).1.mem
        (kmalloc { s with mem := mem } size).1.pmm := by
  obtain ⟨arenas, hat, hwithin⟩ := h.exists_layout
  have halignedLe : alignUp size 8 ≤ 2 ^ 64 - 4144 := by
    rw [alignUp_eight (hsize.trans (by omega))]
    omega
  have hkept : ∀ {mem : WordMemory}, (∀ w, w / 4096 ∈ usable → mem w = s.mem w) → ∀ w,
      w / 4096 ∉ usable → (kmalloc { s with mem := mem } size).1.mem w = mem w := by
    intro mem hsame w hw
    exact (h.heapAt_congr hat hsame).mem_kmalloc hpos hsize (fun a ha ↦ (hwithin a ha).outside hw)
      fun hfree ↦ hw (h.free_subset hfree)
  rcases findInArenas_spec (alignUp size 8) hat.chain hat.length_le with
    ⟨before, a, after, pre, b, post, -, -, -, -, -, hfind⟩ | ⟨hnone, hfind⟩
  · have htake := kmalloc_eq_take (s := s) hpos hfind
    have hshown : ShowsBitmap (kmalloc s size).1.mem (kmalloc s size).1.pmm := by
      have hpmm : (kmalloc s size).1.pmm = s.pmm := by rw [htake]
      rw [hpmm]
      exact h.shown.congr fun i hi ↦ hkept (fun _ _ ↦ rfl) _ (h.word_notMem hi)
    refine ⟨s.mem, fun _ _ ↦ rfl, fun _ ↦ rfl, ?_, hshown⟩
    have hload := load_eq hshown
    rw [htake] at hload
    rw [htake, kmallocInRam, if_neg (Nat.pos_iff_ne_zero.mp hpos)]
    simp only [hfind]
    exact Prod.ext hload rfl
  · obtain ⟨free, hbecomes⟩ := exists_becomes_run s.pmm (.allocFrames (arenaFrames (alignUp size 8)))
    have hbecomes : Becomes s.pmm (pmmAllocFrames s.pmm (arenaFrames (alignUp size 8))).1 free :=
      hbecomes
    have hsame := fun w ↦ h.storeBitmap_of_usable hbecomes (w := w)
    have hgrow := h.growHeapInRam_eq hat.totalFrames_le halignedLe
    have hat₁ := h.heapAt_congr hat hsame
    have hfind₁ := hat₁.find_eq_none hnone
    generalize hmem : storeBitmap s.mem (pmmAllocFrames s.pmm (arenaFrames (alignUp size 8))).1 = mem
      at hsame hgrow hat₁ hfind₁
    have hpmm : (kmalloc { s with mem := mem } size).1.pmm =
        (pmmAllocFrames s.pmm (arenaFrames (alignUp size 8))).1 := by
      rw [← pmm_growHeap { s with mem := mem }]
      simp only [kmalloc, if_neg (Nat.pos_iff_ne_zero.mp hpos), hfind₁]
      split_ifs <;> rfl
    have hshown : ShowsBitmap (kmalloc { s with mem := mem } size).1.mem
        (kmalloc { s with mem := mem } size).1.pmm := by
      rw [hpmm]
      have hstored := showsBitmap_storeBitmap s.mem
        (pmmAllocFrames s.pmm (arenaFrames (alignUp size 8))).1
      rw [hmem] at hstored
      refine hstored.congr fun i hi ↦ hkept hsame _ ?_
      rw [hbecomes.bitmapBytes_eq] at hi
      rw [hbecomes.bitmapBase_eq]
      exact h.word_notMem hi
    refine ⟨mem, hsame, fun hunchanged ↦ ?_, ?_, hshown⟩
    · rw [← hmem, hunchanged, storeBitmap_eq h.shown]
    · have hload := load_eq hshown
      revert hload
      simp only [kmallocInRam, kmalloc, if_neg (Nat.pos_iff_ne_zero.mp hpos), hfind, hfind₁, hgrow]
      split_ifs
      · exact fun _ ↦ rfl
      · exact fun hload ↦ Prod.ext hload rfl

end InRam

/-! ### The invariant -/

section Invariant

variable {usable : Finset ℕ} {s : Heap} {arenas arenas' : List Arena} {size ptr : ℕ}

/-- The arenas stay where they are when a block is taken. -/
theorem TakesBlock.exists_same (h : TakesBlock size ptr arenas arenas') :
    ∀ c ∈ arenas', ∃ d ∈ arenas, d.base = c.base ∧ d.frames = c.frames := by
  obtain ⟨before, after, a, a', pre, post, b, rfl, rfl, hbase, hframes, -⟩ := h
  intro c hc
  rcases List.mem_append.mp hc with hc | hc
  · exact ⟨c, by simp [hc], rfl, rfl⟩
  · rcases List.mem_cons.mp hc with rfl | hc
    · exact ⟨a, by simp, hbase.symm, hframes.symm⟩
    · exact ⟨c, by simp [hc], rfl, rfl⟩

/-- The arenas stay where they are when a block is released. -/
theorem ReleasesBlock.exists_same (h : ReleasesBlock ptr arenas arenas') :
    ∀ c ∈ arenas', ∃ d ∈ arenas, d.base = c.base ∧ d.frames = c.frames := by
  obtain ⟨before, after, a, a', pre, post, b, rfl, rfl, hbase, hframes, -⟩ := h
  intro c hc
  rcases List.mem_append.mp hc with hc | hc
  · exact ⟨c, by simp [hc], rfl, rfl⟩
  · rcases List.mem_cons.mp hc with rfl | hc
    · exact ⟨a, by simp, hbase.symm, hframes.symm⟩
    · exact ⟨c, by simp [hc], rfl, rfl⟩

theorem within_of_same (hwithin : ∀ a ∈ arenas, a.Within usable)
    (hsame : ∀ c ∈ arenas', ∃ d ∈ arenas, d.base = c.base ∧ d.frames = c.frames) :
    ∀ a ∈ arenas', a.Within usable := by
  intro c hc
  obtain ⟨d, hd, hbase, hframes⟩ := hsame c hc
  rw [Arena.Within, ← hbase, ← hframes]
  exact hwithin d hd

/-- `pmm_alloc_frames` takes frames. -/
theorem exists_becomes_allocFrames (pmm : Pmm) (count : ℕ) :
    ∃ free ⊆ freeSet pmm, Becomes pmm (pmmAllocFrames pmm count).1 free := by
  rcases pmmAllocFrames_spec pmm count with ⟨hsame, -⟩ | ⟨start, -, -, -, -, hbecomes⟩
  · rw [hsame]
    exact ⟨_, Subset.refl _, .refl pmm⟩
  · exact ⟨_, sdiff_subset, hbecomes⟩

/-- `kmalloc` takes frames. -/
theorem exists_becomes_kmalloc (s : Heap) (size : ℕ) :
    ∃ free ⊆ freeSet s.pmm, Becomes s.pmm (kmalloc s size).1.pmm free := by
  have hsame : ∃ free ⊆ freeSet s.pmm, Becomes s.pmm s.pmm free :=
    ⟨_, Subset.refl _, .refl s.pmm⟩
  have hgrown := exists_becomes_allocFrames s.pmm (arenaFrames (alignUp size 8))
  rw [← pmm_growHeap] at hgrown
  by_cases hzero : size = 0
  · rw [kmalloc, if_pos hzero]
    exact hsame
  · rw [kmalloc, if_neg hzero]
    dsimp only
    cases findInArenas s.mem (alignUp size 8) (2 ^ 64) s.arenaList with
    | some block => exact hsame
    | none =>
      dsimp only
      split_ifs
      · exact hgrown
      · exact hgrown

namespace InRam

/-- The invariant after a step that takes frames, in a state that has the bitmap in memory. -/
theorem of_becomes (h : InRam usable s) {t : Heap} {free : Finset ℕ} (hfree : free ⊆ usable)
    (hbecomes : Becomes s.pmm t.pmm free) (hshown : ShowsBitmap t.mem t.pmm)
    (hlayout : ∃ arenas, HeapAt t arenas ∧ ∀ a ∈ arenas, a.Within usable) : InRam usable t where
  shown := hshown
  apart := by
    rw [hbecomes.bitmapBase_eq, hbecomes.bitmapBytes_eq]
    exact h.apart
  free_subset := by rwa [hbecomes.freeSet_eq]
  exists_layout := hlayout

/-- `kmalloc` over one memory does what it does apart from the bitmap, and keeps the invariant. -/
theorem kmalloc (h : InRam usable s) (hpos : 0 < size) (hsize : size ≤ 2 ^ 64 - 4144) :
    ∃ mem, (∀ w, w / 4096 ∈ usable → mem w = s.mem w) ∧
      ((pmmAllocFrames s.pmm (arenaFrames (alignUp size 8))).1 = s.pmm → mem = s.mem) ∧
      kmallocInRam s size = Memory.kmalloc { s with mem := mem } size ∧
      InRam usable (kmallocInRam s size).1 := by
  obtain ⟨mem, hsame, hunchanged, heq, hshown⟩ := h.kmallocInRam_eq hpos hsize
  refine ⟨mem, hsame, hunchanged, heq, ?_⟩
  obtain ⟨arenas, hat, hwithin⟩ := h.exists_layout
  have hat₁ := h.heapAt_congr hat hsame
  have halignedLe : alignUp size 8 ≤ 2 ^ 64 - 4144 := by
    rw [alignUp_eight (hsize.trans (by omega))]
    omega
  obtain ⟨free, hfree, hbecomes⟩ := exists_becomes_kmalloc { s with mem := mem } size
  rw [heq]
  refine h.of_becomes (hfree.trans h.free_subset) hbecomes hshown ?_
  rcases heapAt_kmalloc hat₁ hpos hsize with ⟨arenas', htakes, hat'⟩ |
    ⟨-, ⟨-, -, -, hat'⟩ | ⟨a, arenas', hbase, hframes, -, -, htakes, hat'⟩⟩
  · exact ⟨arenas', hat', within_of_same hwithin htakes.exists_same⟩
  · exact ⟨arenas, hat', hwithin⟩
  · refine ⟨arenas', hat', within_of_same (fun c hc ↦ ?_) htakes.exists_same⟩
    rcases List.mem_cons.mp hc with rfl | hc
    · have hnew := within_growHeap hat₁.totalFrames_le halignedLe hbase hframes
      exact fun f hge hlt ↦ h.free_subset (hnew f hge hlt)
    · exact hwithin c hc

/-- `grow_heap` over one memory keeps the invariant. -/
theorem growHeap (h : InRam usable s) {minBytes : ℕ} (hmin : minBytes ≤ 2 ^ 64 - 4144) :
    InRam usable (growHeapInRam s minBytes).1 := by
  obtain ⟨arenas, hat, hwithin⟩ := h.exists_layout
  obtain ⟨free, hfree, hbecomes⟩ := exists_becomes_allocFrames s.pmm (arenaFrames minBytes)
  have hat₁ := h.heapAt_congr hat fun w ↦ h.storeBitmap_of_usable hbecomes (w := w)
  have heq := h.growHeapInRam_eq hat.totalFrames_le hmin
  have hshown : ShowsBitmap (growHeapInRam s minBytes).1.mem (growHeapInRam s minBytes).1.pmm := by
    rw [heq, pmm_growHeap]
    refine (showsBitmap_storeBitmap s.mem _).congr fun i hi ↦
      mem_growHeap_of_used hat.totalFrames_le hmin ?_
    rw [hbecomes.bitmapBytes_eq] at hi
    rw [hbecomes.bitmapBase_eq]
    exact fun hmem ↦ h.word_notMem hi (h.free_subset hmem)
  refine h.of_becomes (hfree.trans h.free_subset) ?_ hshown ?_
  · rw [heq, pmm_growHeap]
    exact hbecomes
  · rw [heq]
    rcases heapAt_growHeap hat₁ hmin with ⟨-, -, hat'⟩ | ⟨a, hbase, hframes, -, hat'⟩
    · exact ⟨arenas, hat', hwithin⟩
    · refine ⟨a :: arenas, hat', fun c hc ↦ ?_⟩
      rcases List.mem_cons.mp hc with rfl | hc
      · have hnew := within_growHeap hat₁.totalFrames_le hmin hbase hframes
        exact fun f hge hlt ↦ h.free_subset (hnew f hge hlt)
      · exact hwithin c hc

/-- `kfree` over one memory does what it does apart from the bitmap, and keeps the invariant. -/
theorem kfree (h : InRam usable s) (hat : HeapAt s arenas) {header : ℕ} {b : Block}
    (hmem : (header, b) ∈ heapBlocks arenas) (hpos : 0 < b.size) :
    kfreeInRam s (header + 24) = Memory.kfree s (header + 24) ∧
      InRam usable (kfreeInRam s (header + 24)) := by
  have hwithin := h.within hat
  have hpmm : (Memory.kfree s (header + 24)).pmm = s.pmm := by
    rw [Memory.kfree]
    split_ifs <;> rfl
  have hshown : ShowsBitmap (Memory.kfree s (header + 24)).mem (Memory.kfree s (header + 24)).pmm := by
    rw [hpmm]
    exact h.shown.congr fun i hi ↦ hat.mem_kfree hmem hpos fun a ha ↦
      (hwithin a ha).outside (h.word_notMem hi)
  have heq : kfreeInRam s (header + 24) = Memory.kfree s (header + 24) := load_eq hshown
  obtain ⟨arenas', hreleases, hat'⟩ := hat.kfree_live hmem hpos
  have hbecomes : Becomes s.pmm (Memory.kfree s (header + 24)).pmm (freeSet s.pmm) := by
    rw [hpmm]
    exact .refl s.pmm
  refine ⟨heq, ?_⟩
  rw [heq]
  exact h.of_becomes h.free_subset hbecomes hshown
    ⟨arenas', hat', within_of_same hwithin hreleases.exists_same⟩

/-- The invariant after other stores to usable frames, when the layout is still there. -/
theorem store (h : InRam usable s) {mem : WordMemory}
    (hsame : ∀ w, w / 4096 ∉ usable → mem w = s.mem w)
    (hat : HeapAt { s with mem := mem } arenas) (hwithin : ∀ a ∈ arenas, a.Within usable) :
    Heap.load { s with mem := mem } = { s with mem := mem } ∧ InRam usable { s with mem := mem } := by
  have hshown : ShowsBitmap mem s.pmm :=
    h.shown.congr fun i hi ↦ hsame _ (h.word_notMem hi)
  exact ⟨load_eq hshown, h.of_becomes h.free_subset (.refl s.pmm) hshown ⟨arenas, hat, hwithin⟩⟩

end InRam

end Invariant

/-! ### Runs over one memory -/

/-- The states after `pmm_init`, which leaves the allocator in the state `start`, and `heap_init`. -/
inductive HeapUse.RamReachable (start : Pmm) : HeapUse → Prop
  | init (mem : WordMemory) :
      HeapUse.RamReachable start ⟨heapInitInRam ⟨start, storeBitmap mem start, 0⟩, []⟩
  | kmalloc {u : HeapUse} (size : ℕ) (hu : HeapUse.RamReachable start u) (hsize : size < 2 ^ 63) :
      HeapUse.RamReachable start
        { heap := (kmallocInRam u.heap size).1
          live := if (kmallocInRam u.heap size).2 = 0 then u.live
            else ((kmallocInRam u.heap size).2, size) :: u.live }
  | kfree {u : HeapUse} (allocation : ℕ × ℕ) (hu : HeapUse.RamReachable start u)
      (hlive : allocation ∈ u.live) :
      HeapUse.RamReachable start
        { heap := kfreeInRam u.heap allocation.1
          live := u.live.erase allocation }
  -- a caller writes inside its allocations
  | write {u : HeapUse} (mem : WordMemory) (hu : HeapUse.RamReachable start u)
      (hinside : ∀ w, mem w ≠ u.heap.mem w →
        ∃ allocation ∈ u.live, allocation.1 ≤ w ∧ w < allocation.1 + allocation.2) :
      HeapUse.RamReachable start { u with heap := Heap.load { u.heap with mem := mem } }
  -- the rest of the kernel allocates frames, and frees such that are not the heap's
  | others {u : HeapUse} (call : PmmCall) (arenas : List Arena) (hu : HeapUse.RamReachable start u)
      (hat : HeapAt u.heap arenas) (hfree : freeSet (call.run u.heap.pmm) ⊆ freeSet start)
      (hused : ∀ a ∈ arenas, ∀ f, a.base / 4096 ≤ f → f < a.base / 4096 + a.frames →
        f ∉ freeSet (call.run u.heap.pmm)) :
      HeapUse.RamReachable start { u with heap :=
        { u.heap with
          pmm := call.run u.heap.pmm
          mem := storeBitmap u.heap.mem (call.run u.heap.pmm) } }
  -- the rest of the kernel writes to frames that were free at the start and are not the heap's
  | fill {u : HeapUse} (mem : WordMemory) (arenas : List Arena) (hu : HeapUse.RamReachable start u)
      (hat : HeapAt u.heap arenas)
      (hmem : ∀ w, mem w ≠ u.heap.mem w → w / 4096 ∈ freeSet start ∧
        ∀ a ∈ arenas, w < a.base ∨ a.base + a.frames * 4096 ≤ w) :
      HeapUse.RamReachable start { u with heap := Heap.load { u.heap with mem := mem } }

section Runs

variable {start : Pmm} {u : HeapUse}

/-- The invariant before `heap_init`, when the bitmap lies in no free frame. -/
theorem inRam_start (mem : WordMemory) (htotal : start.totalFrames ≤ 2 ^ 52)
    (hapart : ∀ i < start.bitmapBytes, (start.bitmapBase + i) / 4096 ∉ freeSet start) :
    InRam (freeSet start) ⟨start, storeBitmap mem start, 0⟩ ∧
      HeapAt ⟨start, storeBitmap mem start, 0⟩ [] := by
  have hat : HeapAt ⟨start, storeBitmap mem start, 0⟩ [] :=
    ⟨rfl, List.Pairwise.nil, fun a ha ↦ absurd ha (by simp), htotal⟩
  exact ⟨⟨showsBitmap_storeBitmap mem start, hapart, Subset.refl _, [], hat,
    fun a ha ↦ absurd ha (by simp)⟩, hat⟩

/-- When the bitmap lies in no frame that is free at the start, the states that are reached over one
memory are states of the model in which the bitmap is apart, and it stays apart from the heap. -/
theorem HeapUse.RamReachable.inRam (htotal : start.totalFrames ≤ 2 ^ 52)
    (hapart : ∀ i < start.bitmapBytes, (start.bitmapBase + i) / 4096 ∉ freeSet start)
    (hu : HeapUse.RamReachable start u) : HeapUse.Reachable u ∧ InRam (freeSet start) u.heap := by
  induction hu with
  | init mem =>
    obtain ⟨hempty, -⟩ := inRam_start mem htotal hapart
    refine ⟨?_, hempty.growHeap (Nat.zero_le _)⟩
    have heq := hempty.growHeapInRam_eq htotal (Nat.zero_le (2 ^ 64 - 4144))
    rw [heapInitInRam, heq]
    exact .init start _ htotal
  | @kmalloc u size _ hsize ih =>
    obtain ⟨hu, h⟩ := ih
    by_cases hzero : size = 0
    · have hnull : kmallocInRam u.heap size = (u.heap, 0) := by
        rw [kmallocInRam, if_pos hzero]
      simp only [hnull, if_true]
      exact ⟨hu, h⟩
    · obtain ⟨mem, hsame, -, heq, hafter⟩ := h.kmalloc (Nat.pos_of_ne_zero hzero)
        (by omega : size ≤ 2 ^ 64 - 4144)
      obtain ⟨arenas, hat, hwithin⟩ := h.exists_layout
      refine ⟨?_, hafter⟩
      have hstored := HeapUse.Reachable.others u.heap.pmm mem arenas hu hat rfl
        (fun a ha f hge hlt ↦ (hat.used a ha f hge hlt).2) fun a ha w hge hlt ↦ by
          have haligned := a.aligned
          exact hsame w (hwithin a ha _ (by omega) (by omega))
      have hanswered := HeapUse.Reachable.kmalloc size hstored hsize
      rw [heq]
      exact hanswered
  | @kfree u allocation _ hlive ih =>
    obtain ⟨hu, h⟩ := ih
    obtain ⟨arenas, hat, hliveAt⟩ := hu.exists_layout
    obtain ⟨hn, header, b, hp, hblock, -, hroom⟩ := hliveAt.block allocation.1 allocation.2 hlive
    obtain ⟨heq, hafter⟩ := h.kfree hat hblock (by omega)
    rw [← hp] at heq hafter
    refine ⟨?_, hafter⟩
    rw [heq]
    exact .kfree allocation hu hlive
  | @write u mem _ hinside ih =>
    obtain ⟨hu, h⟩ := ih
    obtain ⟨arenas, hat, hliveAt⟩ := hu.exists_layout
    have hwithin := h.within hat
    have hwritten := HeapUse.Reachable.write mem hu hinside
    obtain ⟨arenas', hat', -⟩ := hwritten.exists_layout
    have hsame : ∀ w, w / 4096 ∉ freeSet start → mem w = u.heap.mem w := by
      intro w hw
      by_contra hchanged
      obtain ⟨allocation, hlive, hlow, hhigh⟩ := hinside w hchanged
      obtain ⟨-, header, b, hp, hblock, -, hroom⟩ := hliveAt.block allocation.1 allocation.2 hlive
      obtain ⟨a, ha, hlocated⟩ := mem_heapBlocks.mp hblock
      have hbounds := Arena.located_bounds hlocated
      rcases (hwithin a ha).outside hw with hbelow | habove <;> omega
    have hlayout : HeapAt { u.heap with mem := mem } arenas := by
      refine ⟨hat.chain.congr fun c hc w hw ↦ ?_, hat.apart, hat.used, hat.totalFrames_le⟩
      by_contra hchanged
      obtain ⟨allocation, hlive, hlow, hhigh⟩ := hinside w hchanged
      obtain ⟨-, header, b, hp, hblock, -, hroom⟩ := hliveAt.block allocation.1 allocation.2 hlive
      exact notMem_headers_of_inside hat.apart hblock (by omega) (by omega) hc hw
    obtain ⟨hload, hafter⟩ := h.store hsame hlayout hwithin
    rw [hload]
    exact ⟨hwritten, hafter⟩
  | @others u call arenas _ hat hfree hused ih =>
    obtain ⟨hu, h⟩ := ih
    obtain ⟨free, hbecomes⟩ := exists_becomes_run u.heap.pmm call
    have hsame := fun w ↦ h.storeBitmap_of_usable hbecomes (w := w)
    have hwithin := h.within hat
    have hin : ∀ a ∈ arenas, ∀ w, a.base ≤ w → w < a.base + a.frames * 4096 →
        storeBitmap u.heap.mem (call.run u.heap.pmm) w = u.heap.mem w := by
      intro a ha w hge hlt
      have haligned := a.aligned
      exact hsame w (hwithin a ha _ (by omega) (by omega))
    have hafter := HeapUse.Reachable.others _ _ arenas hu hat hbecomes.totalFrames_eq hused hin
    refine ⟨hafter, h.of_becomes (hbecomes.freeSet_eq ▸ hfree) hbecomes
      (showsBitmap_storeBitmap _ _) ?_⟩
    refine ⟨arenas, ⟨hat.chain.congr fun c hc w hw ↦ ?_, hat.apart, fun c hc f hge hlt ↦ ?_,
      hbecomes.totalFrames_eq.trans_le hat.totalFrames_le⟩, hwithin⟩
    · have hbounds := Arena.headers_subset hw
      exact hin c hc w (by omega) (by omega)
    · exact ⟨(hat.used c hc f hge hlt).1.trans_eq hbecomes.totalFrames_eq.symm, hused c hc f hge hlt⟩
  | @fill u mem arenas _ hat hmem ih =>
    obtain ⟨hu, h⟩ := ih
    have hwithin := h.within hat
    have hin : ∀ a ∈ arenas, ∀ w, a.base ≤ w → w < a.base + a.frames * 4096 →
        mem w = u.heap.mem w := by
      intro a ha w hge hlt
      by_contra hchanged
      rcases (hmem w hchanged).2 a ha with hbelow | habove <;> omega
    have hfilled := HeapUse.Reachable.others u.heap.pmm mem arenas hu hat rfl
      (fun a ha f hge hlt ↦ (hat.used a ha f hge hlt).2) hin
    have hlayout : HeapAt { u.heap with mem := mem } arenas :=
      ⟨hat.chain.congr fun c hc w hw ↦ by
        have hbounds := Arena.headers_subset hw
        exact hin c hc w (by omega) (by omega), hat.apart, hat.used, hat.totalFrames_le⟩
    obtain ⟨hload, hafter⟩ := h.store (fun w hw ↦ by
      by_contra hchanged
      exact hw (hmem w hchanged).1) hlayout hwithin
    rw [hload]
    exact ⟨hfilled, hafter⟩

end Runs

/-! ### When `kmalloc` fails -/

/-- A call of `kmalloc` fails exactly when no free block of the arenas has room and there is no run of free
frames for a new arena, and then changes nothing. When no block has room and there is a run, the arena
that is added starts with a block from which the request can be subtracted. -/
structure FailsRightly (s : Heap) (arenas : List Arena) (size : ℕ) : Prop where
  null_iff : (kmallocInRam s size).2 = 0 ↔
    (¬ ∃ a ∈ arenas, ∃ b ∈ a.blocks, b.free = true ∧ alignUp size 8 ≤ b.size) ∧
      ¬ ∃ start, Ico start (start + max 16 ((48 + alignUp size 8 + 4095) / 4096)) ⊆ freeSet s.pmm
  unchanged : (kmallocInRam s size).2 = 0 → (kmallocInRam s size).1 = s
  grown : (¬ ∃ a ∈ arenas, ∃ b ∈ a.blocks, b.free = true ∧ alignUp size 8 ≤ b.size) →
    (∃ start, Ico start (start + max 16 ((48 + alignUp size 8 + 4095) / 4096)) ⊆ freeSet s.pmm) →
      let grown := growHeapInRam s (alignUp size 8)
      let first := arenaFirstBlock grown.1.mem grown.2
      grown.2 ≠ 0 ∧ grown.1.arenaList = grown.2 ∧ alignUp size 8 ≤ blockSize grown.1.mem first ∧
        wrapSub (blockSize grown.1.mem first) (alignUp size 8) =
          blockSize grown.1.mem first - alignUp size 8

theorem InRam.failsRightly {usable : Finset ℕ} {s : Heap} {arenas : List Arena} {size : ℕ}
    (h : InRam usable s) (hat : HeapAt s arenas) (husable : 0 ∉ usable) (hpos : 0 < size)
    (hsize : size < 2 ^ 63) : FailsRightly s arenas size := by
  have hzero : 0 ∉ freeSet s.pmm := fun hfree ↦ husable (h.free_subset hfree)
  have halignedLe : alignUp size 8 ≤ 2 ^ 64 - 4144 := by
    rw [alignUp_eight (by omega)]
    omega
  have hframes := arenaFrames_eq halignedLe
  obtain ⟨mem, hsame, hunchanged, heq, -⟩ := h.kmalloc hpos (by omega : size ≤ 2 ^ 64 - 4144)
  obtain ⟨hnull, hkept, -⟩ := (h.heapAt_congr hat hsame).kmalloc_fails hzero hpos hsize
  obtain ⟨free, -, hbecomes⟩ := exists_becomes_allocFrames s.pmm (arenaFrames (alignUp size 8))
  obtain ⟨-, -, hgrown⟩ := (h.heapAt_congr hat fun w ↦
    h.storeBitmap_of_usable hbecomes (w := w)).kmalloc_fails hzero hpos hsize
  rw [← h.growHeapInRam_eq hat.totalFrames_le halignedLe] at hgrown
  rw [← heq] at hnull hkept
  refine ⟨hnull, fun hfails ↦ ?_, hgrown⟩
  have hnone := (hnull.mp hfails).2
  rw [← hframes] at hnone
  have hpmm : (pmmAllocFrames s.pmm (arenaFrames (alignUp size 8))).1 = s.pmm := by
    have hcount : 0 < arenaFrames (alignUp size 8) := by
      rw [hframes]
      exact lt_of_lt_of_le (by decide) (le_max_left 16 _)
    rcases pmmAllocFrames_cases s.pmm hcount with ⟨hfailed, -⟩ | ⟨start, hrun, -⟩
    · rw [hfailed]
    · exact absurd ⟨start, hrun⟩ hnone
  rw [hkept hfails, hunchanged hpmm]

section Layout

variable {regions : List MemRegion} {reservedStart reservedEnd : ℕ}

/-- When the frame of the last byte of the bitmap is not usable, the bitmap lies in no free frame. -/
theorem bitmap_apart (hrange : reservedStart ≤ reservedEnd)
    (hend : reservedEnd + 7 + (blankPmm regions reservedEnd).bitmapBytes < 2 ^ 64)
    (htail : TailFrameUnusable regions reservedEnd) :
    let start := pmmInit regions reservedStart reservedEnd
    ∀ i < start.bitmapBytes, (start.bitmapBase + i) / 4096 ∉ freeSet start := by
  intro start i hi
  have hinit := becomes_pmmInit regions reservedStart reservedEnd
  have hbase : start.bitmapBase = (blankPmm regions reservedEnd).bitmapBase := hinit.bitmapBase_eq
  have hbytes : start.bitmapBytes = (blankPmm regions reservedEnd).bitmapBytes :=
    hinit.bitmapBytes_eq
  obtain ⟨hafter, hlength⟩ := bitmap_layout hend
  rw [hbytes] at hi
  rw [hbase]
  refine notMem_freeSet_of_meets htail ⟨(blankPmm regions reservedEnd).bitmapBase + i,
    Nat.div_mul_le_self _ _, ?_, by omega, by omega⟩
  simp only [frameSize]
  omega

/-- In every state that is reached over one memory after a `pmm_init` that leaves the frame of the last
byte of the bitmap unusable, and for every size below `2 ^ 63`, a call of `kmalloc` fails exactly when it
has to, changes nothing then, and adds an arena that is large enough when it has to grow. -/
theorem kmallocInRam_fails_iff (hbases : ∀ r ∈ regions, frameSize ≤ r.base)
    (hrange : reservedStart ≤ reservedEnd)
    (hend : reservedEnd + 7 + (blankPmm regions reservedEnd).bitmapBytes < 2 ^ 64)
    (htail : TailFrameUnusable regions reservedEnd) {u : HeapUse}
    (hu : HeapUse.RamReachable (pmmInit regions reservedStart reservedEnd) u) {size : ℕ}
    (hpos : 0 < size) (hsize : size < 2 ^ 63) :
    ∃ arenas, HeapAt u.heap arenas ∧ FailsRightly u.heap arenas size := by
  obtain ⟨-, h⟩ := hu.inRam (counted_pmmInit regions reservedStart reservedEnd).totalFrames_le
    (bitmap_apart hrange hend htail)
  obtain ⟨arenas, hat, -⟩ := h.exists_layout
  exact ⟨arenas, hat,
    h.failsRightly hat (zero_notMem_freeSet_pmmInit reservedStart reservedEnd hbases) hpos hsize⟩

/-- The heap after `heap_init` when the first arena lies over the bitmap. -/
def overlaidHeap : Heap :=
  heapInitInRam ⟨pmmInit [⟨0x1000, 0x20000⟩] 0x1000 0x2000,
    storeBitmap (fun _ ↦ 0) (pmmInit [⟨0x1000, 0x20000⟩] 0x1000 0x2000), 0⟩

/-- Its arena, with one free block. -/
def overlaidArena : Arena where
  base := 0x2000
  frames := 16
  blocks := [⟨65488, true⟩]
  blocks_ne_nil := by simp
  tiles := rfl
  sizes := by simp
  aligned := rfl
  base_ne_zero := by simp
  below := by norm_num

theorem overlaidHeap_arenas : ArenasAt overlaidHeap.mem overlaidHeap.arenaList
    [overlaidArena] := by
  have hnext : arenaNext overlaidHeap.mem overlaidArena.base = 0 := by decide +kernel
  refine ⟨by decide +kernel, ⟨by decide +kernel, by decide +kernel, ?_⟩, ?_⟩
  · exact ⟨by decide +kernel, by decide +kernel, by decide +kernel, trivial⟩
  · rw [hnext]
    rfl

/-- The header of the first arena has cleared the bitmap. A request for 70000 bytes, which do not fit, is
given the frames from frame 0 on, and fails, although there is a run of free frames; the bits that were set
are in the header of the arena, where its `next` pointer is. -/
theorem not_failsRightly_overlaid :
    HeapUse.RamReachable (pmmInit [⟨0x1000, 0x20000⟩] 0x1000 0x2000) ⟨overlaidHeap, []⟩ ∧
      ArenasAt overlaidHeap.mem overlaidHeap.arenaList [overlaidArena] ∧
      (kmallocInRam overlaidHeap 70000).2 = 0 ∧ Ico 0 18 ⊆ freeSet overlaidHeap.pmm ∧
      arenaNext (kmallocInRam overlaidHeap 70000).1.mem 0x2000 = 0x3FFFF ∧
      ¬ FailsRightly overlaidHeap [overlaidArena] 70000 := by
  have hnull : (kmallocInRam overlaidHeap 70000).2 = 0 := by decide +kernel
  have hrun : Ico 0 18 ⊆ freeSet overlaidHeap.pmm := by decide +kernel
  refine ⟨.init _, overlaidHeap_arenas, hnull, hrun, by decide +kernel, fun h ↦ ?_⟩
  refine (h.null_iff.mp hnull).2 ⟨0, ?_⟩
  have hframes : 0 + max 16 ((48 + alignUp 70000 8 + 4095) / 4096) = 18 := by decide
  rw [hframes]
  exact hrun

/-- Of the 31 free frames of a small machine `heap_init` takes 16, and a request for 18 fails. -/
theorem kmallocInRam_fails_iff_small_machine :
    let s := heapInitInRam ⟨smallPmm, storeBitmap (fun _ ↦ 0) smallPmm, 0⟩
    (kmallocInRam s 70000).2 = 0 ∧ (kmallocInRam s 70000).1 = s := by
  intro s
  have hu : HeapUse.RamReachable smallPmm ⟨s, []⟩ := .init _
  obtain ⟨arenas, -, hfails⟩ := kmallocInRam_fails_iff (by decide) (by decide) (by decide +kernel)
    (Or.inl (by decide +kernel)) hu (by decide : 0 < 70000) (by decide)
  have hnull : (kmallocInRam s 70000).2 = 0 := by decide +kernel
  exact ⟨hnull, hfails.unchanged hnull⟩

end Layout

end MegKer.Memory
