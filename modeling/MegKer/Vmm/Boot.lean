import MegKer.Vmm.AArch64
import MegKer.Vmm.AddressSpaces
import MegKer.Vmm.X86

/-!
# The boot page tables

Where runs start. On x86_64 the boot code builds three tables in the kernel image that map the
first gigabyte by huge pages of 2 MiB (`setup_page_tables` in `boot.asm`); on aarch64 it is one L1
table with two blocks of 1 GiB (`aarch64_mmu_init` in `mmu_boot.c`). After that the frame allocator
is initialized with the usable memory and the kernel image as its reservation, and `vmm_init` takes
the active root table for the kernel space.

`X86.Boot` and `AArch64.Boot` collect what is fixed outside of the code: the layout of the kernel
image, from the linker scripts, and on x86_64 the usable regions, which `x86_64_mm_init` has cut to
the window between 1 MiB and 1 GiB. The states they lead to satisfy the invariant of
`AddressSpaces`.
-/

set_option autoImplicit false
set_option relaxedAutoImplicit false

namespace MegKer.Vmm

open Foundation Memory Finset

/-! ### Both architectures -/

/-- The state in which the virtual memory manager starts. -/
def bootSpaces (pmm : Pmm) (mem : WordMemory) (root : ℕ) : Spaces where
  machine := ⟨⟨pmm, []⟩, mem⟩
  kernelRoot := root
  users := fun _ ↦ none
  next := 0
  held := ∅

/-- The frames that are used after the initialization of the allocator. -/
def usedFrames (pmm : Pmm) : Finset ℕ := range pmm.totalFrames \ freeSet pmm

theorem mem_usedFrames {pmm : Pmm} {f : ℕ} :
    f ∈ usedFrames pmm ↔ f < pmm.totalFrames ∧ f ∉ freeSet pmm := by
  rw [usedFrames, mem_sdiff, mem_range]

section BothBoots

variable {regions : List MemRegion} {kernelStart kernelEnd top : ℕ}

theorem highestTop_le (htop : ∀ r ∈ regions, r.base + r.length ≤ top) :
    highestTop regions ≤ top := by
  have hfold : ∀ (rest : List MemRegion) (highest : ℕ), highest ≤ top →
      (∀ r ∈ rest, r.base + r.length ≤ top) → rest.foldl raiseTop highest ≤ top := by
    intro rest
    induction rest with
    | nil => exact fun _ h _ ↦ h
    | cons r rest ih =>
      intro highest hhighest hrest
      refine ih _ ?_ fun r hr ↦ hrest r (List.mem_cons_of_mem _ hr)
      have hle := (wrap_le (r.base + r.length)).trans (hrest r List.mem_cons_self)
      simp only [raiseTop]
      split_ifs <;> omega
  exact hfold regions 0 (Nat.zero_le _) htop

theorem totalFrames_boot_le (htop : ∀ r ∈ regions, r.base + r.length ≤ top) :
    (pmmInit regions kernelStart kernelEnd).totalFrames * frameSize ≤ top := by
  rw [(becomes_pmmInit regions kernelStart kernelEnd).totalFrames_eq]
  exact (Nat.div_mul_le_self _ _).trans (highestTop_le htop)

/-- Frame 0 is in no region, and so it is never handed out. -/
theorem zero_notMem_freeSet_boot (hbase : ∀ r ∈ regions, frameSize ≤ r.base) :
    0 ∉ freeSet (pmmInit regions kernelStart kernelEnd) := by
  rw [mem_freeSet_pmmInit]
  rintro ⟨⟨r, hr, hmem⟩, -⟩
  have hle := (mem_Ico.mp hmem).1
  have hpos := Nat.div_pos (hbase r hr) (by norm_num : 0 < frameSize)
  omega

/-- A frame that lies in the kernel image is reserved. -/
theorem image_notMem_freeSet_boot (htop : ∀ r ∈ regions, r.base + r.length ≤ top)
    (htop_le : top ≤ 2 ^ 32) (hend : kernelEnd ≤ 2 ^ 32) {t : ℕ} (hstart : kernelStart ≤ t)
    (hinside : t + 4096 ≤ kernelEnd) :
    t / frameSize ∉ freeSet (pmmInit regions kernelStart kernelEnd) := by
  rw [mem_freeSet_pmmInit]
  rintro ⟨-, hnot⟩
  refine hnot (mem_Ico.mpr ⟨Nat.div_le_div_right hstart, ?_⟩)
  have halign : alignUp kernelEnd (2 ^ 3) = (kernelEnd + 2 ^ 3 - 1) / 2 ^ 3 * 2 ^ 3 :=
    alignUp_two_pow (by omega) (by omega)
  have hhighest := highestTop_le htop
  have hbitmap : bitmapEnd (blankPmm regions kernelEnd) =
      alignUp kernelEnd 8 + (highestTop regions / frameSize + 7) / 8 := by
    refine wrap_of_lt ?_
    change alignUp kernelEnd 8 + (highestTop regions / frameSize + 7) / 8 < 2 ^ 64
    have hdiv : highestTop regions / frameSize ≤ highestTop regions := Nat.div_le_self _ _
    rw [show (8 : ℕ) = 2 ^ 3 from rfl, halign]
    omega
  rw [hbitmap, show (8 : ℕ) = 2 ^ 3 from rfl, halign]
  simp only [frameSize]
  omega

/-- The invariant holds at boot, when the boot tables are a well-formed tree inside the kernel
image. -/
theorem wellFormed_boot {backend : Backend} (paging : Paging backend) (top : ℕ) {mem : WordMemory}
    {root : ℕ}
    (hlimit : 2 ^ 32 ≤ paging.format.limit) (hlimit_le : paging.format.limit ≤ 2 ^ 64)
    (hbase : ∀ r ∈ regions, frameSize ≤ r.base) (htop : ∀ r ∈ regions, r.base + r.length ≤ top)
    (htop_le : top ≤ 2 ^ 32) (hend : kernelEnd ≤ 2 ^ 32)
    (htree : TreeAt paging.format mem paging.depth root)
    (hinside : ∀ t ∈ paging.tables mem root, kernelStart ≤ t ∧ t + 4096 ≤ kernelEnd) :
    WellFormed paging (usedFrames (pmmInit regions kernelStart kernelEnd))
      (bootSpaces (pmmInit regions kernelStart kernelEnd) mem root) := by
  have hzero : 0 ∉ freeSet (pmmInit regions kernelStart kernelEnd) := zero_notMem_freeSet_boot hbase
  have htotal : (pmmInit regions kernelStart kernelEnd).totalFrames * frameSize ≤ top :=
    totalFrames_boot_le htop
  have himage : ∀ t ∈ paging.tables mem root,
      t / frameSize ∉ freeSet (pmmInit regions kernelStart kernelEnd) :=
    fun t ht ↦ image_notMem_freeSet_boot htop htop_le hend (hinside t ht).1 (hinside t ht).2
  generalize pmmInit regions kernelStart kernelEnd = pmm at hzero htotal himage ⊢
  have hroot : ∀ space otherRoot, (bootSpaces pmm mem root).root space = some otherRoot →
      space = .kernel ∧ otherRoot = root := by
    intro space otherRoot hspace
    cases space with
    | kernel => exact ⟨rfl, (Option.some.inj hspace).symm⟩
    | user n => exact absurd hspace (by simp [bootSpaces, Spaces.root])
  have hserving : Serving paging.format.limit (bootSpaces pmm mem root).machine.frames := by
    refine ⟨hlimit_le, ?_, hzero, List.not_mem_nil⟩
    exact le_trans htotal (le_trans htop_le hlimit)
  refine ⟨hserving, ?_, ?_, fun _ _ ↦ rfl, ?_, ?_, ?_⟩
  · intro space otherRoot hspace
    obtain ⟨-, rfl⟩ := hroot space otherRoot hspace
    refine ⟨htree, fun t ht hmem ↦ himage t ht ?_⟩
    have hmem : t ∈ freeAddresses ⟨pmm, []⟩ := hmem
    rwa [mem_freeAddresses_iff (htree.isFrame t ht)] at hmem
  · intro space firstRoot other otherRoot hspace hother hne
    exact absurd ((hroot _ _ hspace).1.trans (hroot _ _ hother).1.symm) hne
  · intro f
    rw [mem_usedFrames]
    change f ∈ freeSet pmm ↔ f < pmm.totalFrames ∧ _
    constructor
    · intro hf
      refine ⟨(mem_freeSet.mp hf).1, fun h ↦ h.2 hf, notMem_empty f, ?_⟩
      rintro ⟨space, otherRoot, hspace, ht⟩
      obtain ⟨-, rfl⟩ := hroot space otherRoot hspace
      have hnot := himage _ ht
      rw [Nat.mul_div_cancel f (by norm_num)] at hnot
      exact hnot hf
    · rintro ⟨hlt, hnot, -, -⟩
      by_contra hf
      exact hnot ⟨hlt, hf⟩
  · exact fun f hf ↦ absurd hf (notMem_empty f)
  · exact fun n otherRoot huser ↦ absurd huser (by simp [bootSpaces])

end BothBoots

/-! ### x86_64 -/

namespace X86

/-- The functions of `arch/x86_64/mm/vmm.c`. -/
def backend : Backend where
  createAddressSpace := vmmCreateAddressSpace
  destroyAddressSpace := vmmDestroyAddressSpace
  map := vmmMap
  unmap := vmmUnmap
  translate := vmmTranslate

/-- The page tables of x86_64. -/
def paging : Paging backend where
  format := format
  depth := 3
  links := links
  edit := fun phys flags _ ↦ pageEntry phys flags
  address := fun entry ↦ entry &&& addrMask
  create_eq := cloneTableLevel_eq 3
  destroy_eq := freeTableLevel_eq 3
  map_eq := vmmMap_eq
  unmap_eq := vmmUnmap_eq
  translate_eq := vmmTranslate_eq
  isPresent_edit := fun phys flags _ hflags ↦ by
    change hasFlags (pageEntry phys flags) vmmPresent = true
    rw [hasFlags_vmmPresent, testBit_pageEntry phys flags (by omega)]
    exact (hasFlags_two_pow flags 0).symm.trans hflags
  address_edit := fun phys flags _ _ haligned hlt ↦ pageEntry_and_addrMask flags haligned hlt

/-- `mov [a], eax`: the upper half of the word stays as it is. -/
def storeLow (mem : WordMemory) (a value : ℕ) : WordMemory :=
  mem.store a (mem a / 2 ^ 32 * 2 ^ 32 + value % 2 ^ 32)

/-- An entry of the PD: a huge page of 2 MiB. -/
def hugeEntry (i : ℕ) : ℕ := 0x200000 * i ||| 0b10000011

/-- The loop of `setup_page_tables`, for `n` entries. -/
def mapPd (mem : WordMemory) (pdTable n : ℕ) : WordMemory :=
  (List.range n).foldl (fun mem i ↦ storeLow mem (slot pdTable i) (hugeEntry i)) mem

def setupPageTables (mem : WordMemory) (pml4Table pdpTable pdTable : ℕ) : WordMemory :=
  let mem := storeLow mem (slot pml4Table 0) (pdpTable ||| 0b11)
  let mem := storeLow mem (slot pdpTable 0) (pdTable ||| 0b11)
  mapPd mem pdTable 512

/-- The boot of the x86_64 kernel. The image is linked at 1 MiB and lies in the first gigabyte; its
three boot tables are page-aligned, one after the other, and zero when the boot code starts. The
usable regions lie between 1 MiB and 1 GiB. -/
structure Boot where
  regions : List MemRegion
  kernelEnd : ℕ
  pml4Table : ℕ
  mem : WordMemory
  regions_low : ∀ r ∈ regions, 0x100000 ≤ r.base
  regions_high : ∀ r ∈ regions, r.base + r.length ≤ 0x40000000
  aligned : 4096 ∣ pml4Table
  after_start : 0x100000 ≤ pml4Table
  before_end : pml4Table + 3 * 4096 ≤ kernelEnd
  end_le : kernelEnd ≤ 0x40000000
  zeroed : ∀ a, pml4Table ≤ a → a < pml4Table + 3 * 4096 → mem a = 0

namespace Boot

variable (boot : Boot)

def pdpTable : ℕ := boot.pml4Table + 4096

def pdTable : ℕ := boot.pml4Table + 2 * 4096

/-- The memory with the boot tables. -/
def memory : WordMemory := setupPageTables boot.mem boot.pml4Table boot.pdpTable boot.pdTable

/-- The state in which the virtual memory manager starts. -/
def spaces : Spaces :=
  bootSpaces (pmmInit boot.regions 0x100000 boot.kernelEnd) boot.memory
    (boot.pml4Table &&& addrMask)

end Boot

/-! #### The entries of the boot tables -/

theorem storeLow_of_ne (mem : WordMemory) {a b : ℕ} (value : ℕ) (hne : b ≠ a) :
    storeLow mem a value b = mem b :=
  WordMemory.store_of_ne _ _ hne

theorem storeLow_same {mem : WordMemory} {a value : ℕ} (hzero : mem a = 0)
    (hvalue : value < 2 ^ 32) : storeLow mem a value a = value := by
  rw [storeLow, WordMemory.store_same, hzero, Nat.mod_eq_of_lt hvalue]
  omega

theorem hugeEntry_lt {i : ℕ} (hi : i < 512) : hugeEntry i < 2 ^ 32 :=
  Nat.or_lt_two_pow (by omega) (by omega)

theorem mapPd_succ (mem : WordMemory) (table n : ℕ) :
    mapPd mem table (n + 1) = storeLow (mapPd mem table n) (slot table n) (hugeEntry n) := by
  rw [mapPd, List.range_succ, List.foldl_append, List.foldl_cons, List.foldl_nil, mapPd]

theorem mapPd_of_ne (mem : WordMemory) {table a n : ℕ} (hne : ∀ i < n, a ≠ slot table i) :
    mapPd mem table n a = mem a := by
  induction n with
  | zero => rfl
  | succ n ih =>
    rw [mapPd_succ, storeLow_of_ne _ _ (hne n (by omega))]
    exact ih fun i hi ↦ hne i (by omega)

theorem mapPd_slot {mem : WordMemory} {table n : ℕ} (hn : n ≤ 512)
    (hzero : ∀ i < n, mem (slot table i) = 0) {i : ℕ} (hi : i < n) :
    mapPd mem table n (slot table i) = hugeEntry i := by
  induction n with
  | zero => exact absurd hi (by omega)
  | succ n ih =>
    rw [mapPd_succ]
    by_cases heq : i = n
    · rw [heq]
      refine storeLow_same ?_ (hugeEntry_lt (by omega))
      rw [mapPd_of_ne mem fun k hk ↦ slot_ne_of_index_ne (by omega)]
      exact hzero n (by omega)
    · rw [storeLow_of_ne _ _ (slot_ne_of_index_ne heq)]
      exact ih (by omega) (fun k hk ↦ hzero k (by omega)) (by omega)

/-- The low bits of a huge page entry: present, writable, huge, and not for user mode. -/
theorem testBit_hugeEntry (i : ℕ) {k : ℕ} (hk : k < 21) :
    (hugeEntry i).testBit k = (0b10000011 : ℕ).testBit k :=
  testBit_or_of_aligned (show 2 ^ 21 ∣ 0x200000 * i from Dvd.intro i rfl) _ hk

namespace Boot

variable (boot : Boot)

theorem memory_pd {i : ℕ} (hi : i < fanout) :
    boot.memory (slot boot.pdTable i) = hugeEntry i := by
  rw [fanout_eq] at hi
  rw [Boot.memory, setupPageTables]
  refine mapPd_slot le_rfl (fun k hk ↦ ?_) hi
  rw [storeLow_of_ne, storeLow_of_ne]
  · exact boot.zeroed _ (by simp only [slot, pdTable]; omega) (by simp only [slot, pdTable]; omega)
  · simp only [slot, pdTable]
    omega
  · simp only [slot, pdTable, pdpTable]
    omega

theorem memory_pdp {i : ℕ} (hi : i < fanout) :
    boot.memory (slot boot.pdpTable i) = if i = 0 then boot.pdTable ||| 0b11 else 0 := by
  have hend := boot.end_le
  have hbefore := boot.before_end
  rw [fanout_eq] at hi
  have hpd : boot.memory (slot boot.pdpTable i) = storeLow (storeLow boot.mem
      (slot boot.pml4Table 0) (boot.pdpTable ||| 0b11)) (slot boot.pdpTable 0)
        (boot.pdTable ||| 0b11) (slot boot.pdpTable i) := by
    rw [Boot.memory, setupPageTables]
    refine mapPd_of_ne _ fun k hk ↦ ?_
    simp only [slot, pdTable, pdpTable]
    omega
  have hzero : storeLow boot.mem (slot boot.pml4Table 0) (boot.pdpTable ||| 0b11)
      (slot boot.pdpTable i) = 0 := by
    rw [storeLow_of_ne]
    · exact boot.zeroed _ (by simp only [slot, pdpTable]; omega)
        (by simp only [slot, pdpTable]; omega)
    · simp only [slot, pdpTable]
      omega
  rw [hpd]
  split_ifs with hcase
  · rw [hcase] at hzero ⊢
    refine storeLow_same hzero (Nat.or_lt_two_pow ?_ (by omega))
    simp only [pdTable]
    omega
  · rw [storeLow_of_ne _ _ (slot_ne_of_index_ne hcase)]
    exact hzero

theorem memory_pml4 {i : ℕ} (hi : i < fanout) :
    boot.memory (slot boot.pml4Table i) = if i = 0 then boot.pdpTable ||| 0b11 else 0 := by
  have hend := boot.end_le
  have hbefore := boot.before_end
  rw [fanout_eq] at hi
  have hpd : boot.memory (slot boot.pml4Table i) = storeLow (storeLow boot.mem
      (slot boot.pml4Table 0) (boot.pdpTable ||| 0b11)) (slot boot.pdpTable 0)
        (boot.pdTable ||| 0b11) (slot boot.pml4Table i) := by
    rw [Boot.memory, setupPageTables]
    refine mapPd_of_ne _ fun k hk ↦ ?_
    simp only [slot, pdTable]
    omega
  have hzero : boot.mem (slot boot.pml4Table i) = 0 :=
    boot.zeroed _ (by simp only [slot]; omega) (by simp only [slot]; omega)
  rw [hpd, storeLow_of_ne]
  · split_ifs with hcase
    · rw [hcase] at hzero ⊢
      refine storeLow_same hzero (Nat.or_lt_two_pow ?_ (by omega))
      simp only [pdpTable]
      omega
    · rw [storeLow_of_ne _ _ (slot_ne_of_index_ne hcase)]
      exact hzero
  · simp only [slot, pdpTable]
    omega

/-! #### The tree of the boot tables -/

theorem isFrame_pml4 : IsFrame format.limit boot.pml4Table := by
  have hstart := boot.after_start
  have hbefore := boot.before_end
  have hend := boot.end_le
  exact ⟨by omega, boot.aligned, by change _ < 2 ^ 52; omega⟩

theorem isFrame_pdp : IsFrame format.limit boot.pdpTable := by
  have hbefore := boot.before_end
  have hend := boot.end_le
  exact ⟨by simp only [pdpTable]; omega, Nat.dvd_add boot.aligned (dvd_refl 4096),
    by change _ < 2 ^ 52; simp only [pdpTable]; omega⟩

theorem isFrame_pd : IsFrame format.limit boot.pdTable := by
  have hbefore := boot.before_end
  have hend := boot.end_le
  exact ⟨by simp only [pdTable]; omega, Nat.dvd_add boot.aligned (Dvd.intro_left 2 rfl),
    by change _ < 2 ^ 52; simp only [pdTable]; omega⟩

/-- `cr3 & ADDR_MASK` is the address of the PML4. -/
theorem pml4_and_addrMask : boot.pml4Table &&& addrMask = boot.pml4Table := by
  rw [addrMask_eq]
  exact and_fieldMask_of_aligned (by omega) boot.isFrame_pml4.aligned boot.isFrame_pml4.lt_limit

/-- `vmm_init` takes the boot PML4 for the kernel space. -/
theorem kernelRoot_spaces : boot.spaces.kernelRoot = boot.pml4Table := boot.pml4_and_addrMask

theorem mem_spaces : boot.spaces.machine.mem = boot.memory := by
  simp only [spaces, bootSpaces]

theorem next_spaces : boot.spaces.next = 0 := by
  simp only [spaces, bootSpaces]

theorem pmm_spaces : boot.spaces.pmm = pmmInit boot.regions 0x100000 boot.kernelEnd := by
  simp only [Spaces.pmm, spaces, bootSpaces]

/-- A boot link, present and writable, is a link. -/
theorem link_isTable {frame : ℕ} (hframe : IsFrame format.limit frame) :
    format.isTable (frame ||| 0b11) = true ∧ format.child (frame ||| 0b11) = frame := by
  have hfresh : (links 0).fresh frame = frame ||| 0b11 := by
    change frame ||| 1 ||| 2 ||| 0 = _
    rw [Nat.or_zero, Nat.or_assoc]
    rfl
  rw [← hfresh]
  exact ⟨(links 0).isTable_fresh frame hframe, (links 0).child_fresh frame hframe⟩

theorem hugeEntry_isBlock (i : ℕ) :
    format.isBlock (hugeEntry i) = true ∧ format.isPresent (hugeEntry i) = true := by
  change hasFlags (hugeEntry i) vmmHuge = true ∧ hasFlags (hugeEntry i) vmmPresent = true
  rw [hasFlags_vmmHuge, hasFlags_vmmPresent, testBit_hugeEntry i (by omega),
    testBit_hugeEntry i (by omega)]
  decide

/-- The walks to the PD at boot. -/
theorem walk_memory_pd {i j k : ℕ} (hpath : IsPath 2 [i, j, k]) :
    walk format boot.memory boot.pml4Table [i, j, k] =
      if i = 0 then
        if j = 0 then ⟨[boot.pdpTable ||| 0b11, boot.pdTable ||| 0b11], 0, hugeEntry k⟩
        else ⟨[boot.pdpTable ||| 0b11], 1, 0⟩
      else ⟨[], 2, 0⟩ := by
  obtain ⟨hi, hpath2⟩ := IsPath.cons_iff.mp hpath
  obtain ⟨hj, hpath1⟩ := IsPath.cons_iff.mp hpath2
  have hk : k < fanout := hpath1.lt_fanout k List.mem_cons_self
  obtain ⟨hpdp, hpdpChild⟩ := link_isTable boot.isFrame_pdp
  obtain ⟨hpd, hpdChild⟩ := link_isTable boot.isFrame_pd
  have hzero : format.isTable 0 = false := isTable_zero
  by_cases hi0 : i = 0
  · have hentry4 := boot.memory_pml4 hi
    rw [if_pos hi0] at hentry4 ⊢
    rw [walk_of_isTable hpath2 (by rw [hentry4]; exact hpdp), hentry4, hpdpChild]
    have hentry3 := boot.memory_pdp hj
    by_cases hj0 : j = 0
    · rw [if_pos hj0] at hentry3 ⊢
      rw [walk_of_isTable hpath1 (by rw [hentry3]; exact hpd), hentry3, hpdChild, walk_singleton,
        boot.memory_pd hk]
      rfl
    · rw [if_neg hj0] at hentry3 ⊢
      rw [walk_of_not_isTable hpath1 (by rw [hentry3]; exact hzero), hentry3]
      rfl
  · have hentry4 := boot.memory_pml4 hi
    rw [if_neg hi0] at hentry4 ⊢
    rw [walk_of_not_isTable hpath2 (by rw [hentry4]; exact hzero), hentry4]

/-- The walks at boot. -/
theorem walk_memory {i j k l : ℕ} (hpath : IsPath 3 [i, j, k, l]) :
    walk format boot.memory boot.pml4Table [i, j, k, l] =
      if i = 0 then
        if j = 0 then ⟨[boot.pdpTable ||| 0b11, boot.pdTable ||| 0b11], 1, hugeEntry k⟩
        else ⟨[boot.pdpTable ||| 0b11], 2, 0⟩
      else ⟨[], 3, 0⟩ := by
  have hpd : IsPath 2 [i, j, k] := ⟨rfl, fun n hn ↦ hpath.lt_fanout n (List.mem_append_left [l] hn)⟩
  have hzero : format.isTable 0 = false := isTable_zero
  have hhuge := format.isTable_of_isBlock _ (hugeEntry_isBlock k).1
  have hwalk := boot.walk_memory_pd hpd
  have hentry : format.isTable (walk format boot.memory boot.pml4Table [i, j, k]).entry = false := by
    rw [hwalk]
    split_ifs
    · exact hhuge
    · exact hzero
    · exact hzero
  have hmore : walk format boot.memory boot.pml4Table [i, j, k, l] = _ :=
    walk_append [i, j, k] hpd hentry (hpath.lt_fanout l (by simp))
  rw [hmore, hwalk]
  split_ifs <;> rfl

/-- The tables of the boot are the same ones whether the entries of the PD are the leaves or not. -/
theorem tables_memory_perm (depth : ℕ) :
    (Foundation.tables format boot.memory (depth + 2) boot.pml4Table).Perm
      [boot.pdTable, boot.pdpTable, boot.pml4Table] := by
  have hpos : 0 < fanout := by rw [fanout_eq]; omega
  have hzero : format.isTable 0 = false := isTable_zero
  have hpd : Foundation.tables format boot.memory depth boot.pdTable = [boot.pdTable] :=
    tables_of_no_links (fun i hi ↦ by
      rw [boot.memory_pd hi]
      exact format.isTable_of_isBlock _ (hugeEntry_isBlock i).1) depth
  have hpdp : (Foundation.tables format boot.memory (depth + 1) boot.pdpTable).Perm
      [boot.pdTable, boot.pdpTable] := by
    have hperm : (Foundation.tables format boot.memory (depth + 1) boot.pdpTable).Perm
        (tablesThrough format boot.memory (depth + 1) (boot.memory (slot boot.pdpTable 0)) ++
          [boot.pdpTable]) :=
      tables_perm_of_single hpos (fun k hk hne ↦ by
        rw [boot.memory_pdp hk, if_neg hne]
        exact hzero) (depth + 1)
    rw [boot.memory_pdp hpos, if_pos rfl, tablesThrough_of_isTable (link_isTable boot.isFrame_pd).1,
      (link_isTable boot.isFrame_pd).2, hpd] at hperm
    exact hperm
  have hperm : (Foundation.tables format boot.memory (depth + 2) boot.pml4Table).Perm
      (tablesThrough format boot.memory (depth + 2) (boot.memory (slot boot.pml4Table 0)) ++
        [boot.pml4Table]) :=
    tables_perm_of_single hpos (fun k hk hne ↦ by
      rw [boot.memory_pml4 hk, if_neg hne]
      exact hzero) (depth + 2)
  rw [boot.memory_pml4 hpos, if_pos rfl, tablesThrough_of_isTable (link_isTable boot.isFrame_pdp).1,
    (link_isTable boot.isFrame_pdp).2] at hperm
  exact hperm.trans (hpdp.append_right _)

theorem treeAt_memory (depth : ℕ) : TreeAt format boot.memory (depth + 2) boot.pml4Table where
  nodup := by
    refine (boot.tables_memory_perm depth).nodup_iff.mpr ?_
    simp [pdTable, pdpTable]
  isFrame := fun t ht ↦ by
    have hmem := (boot.tables_memory_perm depth).mem_iff.mp ht
    simp only [List.mem_cons, List.not_mem_nil, or_false] at hmem
    rcases hmem with rfl | rfl | rfl
    · exact boot.isFrame_pd
    · exact boot.isFrame_pdp
    · exact boot.isFrame_pml4

/-- The frames that are in use when the x86_64 manager starts. -/
def reserved : Finset ℕ := usedFrames (pmmInit boot.regions 0x100000 boot.kernelEnd)

theorem wellFormed : WellFormed paging boot.reserved boot.spaces := by
  have hbase : ∀ r ∈ boot.regions, frameSize ≤ r.base :=
    fun r hr ↦ le_trans (by decide) (boot.regions_low r hr)
  have hend := boot.end_le
  have hbefore := boot.before_end
  have hstart := boot.after_start
  rw [spaces, pml4_and_addrMask]
  refine wellFormed_boot paging 0x40000000 (by change 2 ^ 32 ≤ 2 ^ 52; omega)
    (by change 2 ^ 52 ≤ 2 ^ 64; omega) hbase boot.regions_high (by omega) (by omega)
    (boot.treeAt_memory 1) fun t ht ↦ ?_
  have hmem := (boot.tables_memory_perm 1).mem_iff.mp ht
  simp only [List.mem_cons, List.not_mem_nil, or_false] at hmem
  rcases hmem with rfl | rfl | rfl
  · simp only [pdTable]
    omega
  · simp only [pdpTable]
    omega
  · omega

/-- A machine with 256 KiB of usable memory. The bitmap behind the kernel image ends with its frame. -/
def sample : Boot where
  regions := [⟨0x100000, 0x40000⟩]
  kernelEnd := 0x105FD8
  pml4Table := 0x101000
  mem := fun _ ↦ 0
  regions_low := by decide
  regions_high := by decide
  aligned := by decide
  after_start := by decide
  before_end := by decide
  end_le := by decide
  zeroed := fun _ _ _ ↦ rfl

/-- The sample has frames for a copy of the boot tables and a path of new tables. -/
theorem sample_free :
    (paging.tables sample.spaces.machine.mem sample.spaces.kernelRoot).length + paging.depth ≤
      (freeSet sample.spaces.pmm).card := by
  have hfree : 6 ≤ (freeSet (pmmInit [⟨0x100000, 0x40000⟩] 0x100000 0x105FD8)).card := by
    decide +kernel
  have hlength : (paging.tables sample.memory sample.pml4Table).length = 3 :=
    (sample.tables_memory_perm 1).length_eq
  rw [sample.kernelRoot_spaces, sample.mem_spaces, hlength, sample.pmm_spaces]
  exact hfree

/-- In the sample, a space can be created and a page mapped in it. -/
theorem sample_create_map (ok : VmmCall → Prop) {virt phys flags : ℕ} (hcreate : ok .create)
    (hmap : ok (.map (.user 0) virt phys flags)) :
    Permitted paging ok sample.spaces [.create, .map (.user 0) virt phys flags] ∧
      NeverExhausted (runs backend sample.spaces
        [.create, .map (.user 0) virt phys flags]).machine.frames ∧
      ∃ root, (runs backend sample.spaces [.create, .map (.user 0) virt phys flags]).root
        (.user 0) = some root := by
  rw [← sample.next_spaces] at hmap ⊢
  exact sample.wellFormed.create_map_served sample_free hcreate hmap

end Boot

end X86

/-! ### aarch64 -/

namespace AArch64

/-- The functions of `arch/aarch64/mm/vmm.c`. -/
def backend : Backend where
  createAddressSpace := vmmCreateAddressSpace
  destroyAddressSpace := vmmDestroyAddressSpace
  map := vmmMap
  unmap := vmmUnmap
  translate := vmmTranslate

/-- The translation tables of aarch64. -/
def paging : Paging backend where
  format := format
  depth := 2
  links := fun _ ↦ links
  edit := mapEdit
  address := fun entry ↦ entry &&& addrMask
  create_eq := cloneTableLevel_eq 2
  destroy_eq := freeTableLevel_eq 2
  map_eq := vmmMap_eq
  unmap_eq := vmmUnmap_eq
  translate_eq := vmmTranslate_eq
  isPresent_edit := fun phys flags old hflags ↦ by
    have hpresent : hasFlags flags vmmPresent = true := hflags
    change hasFlags (mapEdit phys flags old) pteValid = true
    rw [mapEdit, if_pos hpresent, hasFlags_pteValid, testBit_pageEntry_zero]
  address_edit := fun phys flags old hflags haligned hlt ↦ by
    have hpresent : hasFlags flags vmmPresent = true := hflags
    rw [mapEdit, if_pos hpresent]
    exact pageEntry_and_addrMask flags haligned hlt

def ptePxn : ℕ := 1 <<< 53

def pteUxn : ℕ := 1 <<< 54

/-- `PTE_ATTR(idx)`. -/
def pteAttr (index : ℕ) : ℕ := index <<< 2

/-- The block of `[0, 1 GiB)`: devices. -/
def deviceBlock : ℕ :=
  0x00000000 ||| pteValid ||| pteAf ||| pteShInner ||| pteApRwEl1 ||| pteAttr 0 ||| ptePxn ||| pteUxn

/-- The block of `[1 GiB, 2 GiB)`: memory. -/
def memoryBlock : ℕ :=
  0x40000000 ||| pteValid ||| pteAf ||| pteShInner ||| pteApRwEl1 ||| pteAttr 1

/-- The stores of `aarch64_mmu_init` to its table. -/
def mmuInit (mem : WordMemory) (bootL1Table : ℕ) : WordMemory :=
  let mem := mem.store (slot bootL1Table 0) deviceBlock
  mem.store (slot bootL1Table 1) memoryBlock

/-- The boot of the aarch64 kernel. The image is linked at `0x40080000`; its L1 table is
page-aligned, and zero when `aarch64_mmu_init` runs. The one usable region is the gigabyte of memory
that starts at `0x40000000`. -/
structure Boot where
  kernelEnd : ℕ
  bootL1Table : ℕ
  mem : WordMemory
  aligned : 4096 ∣ bootL1Table
  after_start : 0x40080000 ≤ bootL1Table
  before_end : bootL1Table + 4096 ≤ kernelEnd
  end_le : kernelEnd ≤ 0x80000000
  zeroed : ∀ a, bootL1Table ≤ a → a < bootL1Table + 4096 → mem a = 0

namespace Boot

variable (boot : Boot)

/-- The memory with the boot table. -/
def memory : WordMemory := mmuInit boot.mem boot.bootL1Table

/-- The allocator after `arch_mm_init`. -/
def pmm : Pmm := pmmInit [⟨0x40000000, 0x40000000⟩] 0x40080000 boot.kernelEnd

/-- The state in which the virtual memory manager starts. -/
def spaces : Spaces := bootSpaces boot.pmm boot.memory (boot.bootL1Table &&& addrMask)

/-- The frames that are in use when the aarch64 manager starts. -/
def reserved : Finset ℕ := usedFrames boot.pmm

theorem memory_l1 {i : ℕ} (hi : i < fanout) :
    boot.memory (slot boot.bootL1Table i) =
      if i = 0 then deviceBlock else if i = 1 then memoryBlock else 0 := by
  rw [fanout_eq] at hi
  rw [memory, mmuInit]
  by_cases hi1 : i = 1
  · rw [hi1, WordMemory.store_same]
    rfl
  · rw [WordMemory.store_of_ne _ _ (slot_ne_of_index_ne hi1)]
    by_cases hi0 : i = 0
    · rw [hi0, WordMemory.store_same, if_pos rfl]
    · rw [WordMemory.store_of_ne _ _ (slot_ne_of_index_ne hi0), if_neg hi0, if_neg hi1]
      exact boot.zeroed _ (by simp only [slot]; omega) (by simp only [slot]; omega)

theorem memory_not_isTable {i : ℕ} (hi : i < fanout) :
    format.isTable (boot.memory (slot boot.bootL1Table i)) = false := by
  rw [boot.memory_l1 hi]
  split_ifs <;> decide

theorem isFrame_l1 : IsFrame format.limit boot.bootL1Table := by
  have hstart := boot.after_start
  have hbefore := boot.before_end
  have hend := boot.end_le
  exact ⟨by omega, boot.aligned, by change _ < 2 ^ 48; omega⟩

/-- `ttbr0 & ADDR_MASK` is the address of the L1 table. -/
theorem l1_and_addrMask : boot.bootL1Table &&& addrMask = boot.bootL1Table := by
  rw [addrMask_eq]
  exact and_fieldMask_of_aligned (by omega) boot.isFrame_l1.aligned boot.isFrame_l1.lt_limit

/-- `vmm_init` takes the boot L1 table for the kernel space. -/
theorem kernelRoot_spaces : boot.spaces.kernelRoot = boot.bootL1Table := boot.l1_and_addrMask

theorem mem_spaces : boot.spaces.machine.mem = boot.memory := by
  simp only [spaces, bootSpaces]

theorem next_spaces : boot.spaces.next = 0 := by
  simp only [spaces, bootSpaces]

theorem pmm_spaces :
    boot.spaces.pmm = pmmInit [⟨0x40000000, 0x40000000⟩] 0x40080000 boot.kernelEnd := by
  simp only [Spaces.pmm, spaces, bootSpaces, pmm]

/-- The walks at boot. -/
theorem walk_memory {i j k : ℕ} (hpath : IsPath 2 [i, j, k]) :
    walk format boot.memory boot.bootL1Table [i, j, k] =
      ⟨[], 2, if i = 0 then deviceBlock else if i = 1 then memoryBlock else 0⟩ := by
  obtain ⟨hi, hrest⟩ := IsPath.cons_iff.mp hpath
  rw [walk_of_not_isTable hrest (boot.memory_not_isTable hi), boot.memory_l1 hi]

theorem tables_memory :
    Foundation.tables format boot.memory 2 boot.bootL1Table = [boot.bootL1Table] :=
  tables_of_no_links (fun _ hi ↦ boot.memory_not_isTable hi) 2

theorem wellFormed : WellFormed paging boot.reserved boot.spaces := by
  have hend := boot.end_le
  have hbefore := boot.before_end
  have hstart := boot.after_start
  have htree : TreeAt format boot.memory 2 boot.bootL1Table := by
    refine ⟨?_, fun t ht ↦ ?_⟩
    · rw [tables_memory]
      exact List.nodup_singleton _
    · rw [tables_memory, List.mem_singleton] at ht
      rw [ht]
      exact boot.isFrame_l1
  rw [spaces, l1_and_addrMask]
  refine wellFormed_boot paging 0x80000000 (by change 2 ^ 32 ≤ 2 ^ 48; omega)
    (by change 2 ^ 48 ≤ 2 ^ 64; omega) (by decide) (by decide) (by omega) (by omega) htree
    fun t ht ↦ ?_
  have ht : t ∈ Foundation.tables format boot.memory 2 boot.bootL1Table := ht
  rw [tables_memory, List.mem_singleton] at ht
  rw [ht]
  exact ⟨hstart, hbefore⟩

/-- A kernel image of 512 KiB. -/
def sample : Boot where
  kernelEnd := 0x40100000
  bootL1Table := 0x400C0000
  mem := fun _ ↦ 0
  aligned := by decide
  after_start := by decide
  before_end := by decide
  end_le := by decide
  zeroed := fun _ _ _ ↦ rfl

/-- The sample has one table, and more frames than the examples need. -/
theorem sample_frames :
    (paging.tables sample.spaces.machine.mem sample.spaces.kernelRoot).length = 1 ∧
      0x100 ≤ (freeSet sample.spaces.pmm).card := by
  have hhigh : Ico 0x50000 0x50100 ⊆
      freeSet (pmmInit [⟨0x40000000, 0x40000000⟩] 0x40080000 0x40100000) := by
    intro f hf
    rw [mem_Ico] at hf
    refine (mem_freeSet_pmmInit _ _ _ f).mpr ⟨⟨_, List.mem_cons_self, ?_⟩, fun hmem ↦ ?_⟩
    · refine mem_Ico.mpr ⟨le_trans (by decide) hf.1, lt_of_lt_of_le hf.2 (by decide)⟩
    · exact absurd (lt_of_lt_of_le (mem_Ico.mp hmem).2 (by decide)) (not_lt.mpr hf.1)
  have hfree : 0x100 ≤ (freeSet (pmmInit [⟨0x40000000, 0x40000000⟩] 0x40080000 0x40100000)).card := by
    have hcard := card_le_card hhigh
    rwa [Nat.card_Ico] at hcard
  have hlength : (paging.tables sample.memory sample.bootL1Table).length = 1 :=
    congrArg List.length sample.tables_memory
  rw [sample.kernelRoot_spaces, sample.mem_spaces, sample.pmm_spaces]
  exact ⟨hlength, hfree⟩

/-- The sample has frames for a copy of the boot table and a path of new tables. -/
theorem sample_free :
    (paging.tables sample.spaces.machine.mem sample.spaces.kernelRoot).length + paging.depth ≤
      (freeSet sample.spaces.pmm).card := by
  obtain ⟨htables, hfree⟩ := sample_frames
  rw [htables]
  exact le_trans (by decide) hfree

/-- In the sample, a space can be created and a page mapped in it. -/
theorem sample_create_map (ok : VmmCall → Prop) {virt phys flags : ℕ} (hcreate : ok .create)
    (hmap : ok (.map (.user 0) virt phys flags)) :
    Permitted paging ok sample.spaces [.create, .map (.user 0) virt phys flags] ∧
      NeverExhausted (runs backend sample.spaces
        [.create, .map (.user 0) virt phys flags]).machine.frames ∧
      ∃ root, (runs backend sample.spaces [.create, .map (.user 0) virt phys flags]).root
        (.user 0) = some root := by
  rw [← sample.next_spaces] at hmap ⊢
  exact sample.wellFormed.create_map_served sample_free hcreate hmap

end Boot

end AArch64

end MegKer.Vmm
