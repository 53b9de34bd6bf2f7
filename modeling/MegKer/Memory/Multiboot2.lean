import MegKer.Foundation.Loop
import MegKer.Gui.FramebufferMemory
import MegKer.Memory.FrameAllocator

/-!
# The walk over the boot information

`arch/x86_64/mm/multiboot2.c` walks the block of tags that the boot loader passes. A tag starts with its
type and its size, and the next one follows at the next multiple of 8. A memory map tag holds entries at a
stride that the tag itself gives; the usable ones are cut to the range from 1 MiB to 1 GiB and collected
for the frame allocator, up to 64 of them. A framebuffer tag is kept for the display driver.

The block is the bytes at each offset from `boot_info`. The pointer is a 32-bit one, and every offset that
the walk computes is below `2 ^ 34`, so no pointer sum wraps; the rounding of a size is a 32-bit expression
and may wrap.

What a memory map tag does to the collected regions is a function of the entries that it holds:
`returns_entryLoop` says that the inner loop is `RamMap.take` over `mmapEntries`. `RamMap.take_append`
puts tags together.
-/

set_option autoImplicit false
set_option relaxedAutoImplicit false

namespace MegKer.Memory

open Foundation Gui

/-! ### The code of `multiboot2.c` -/

/-- `MULTIBOOT2_BOOTLOADER_MAGIC`. -/
abbrev bootloaderMagic : ℕ := 0x36d76289

/-- `MB2_TAG_END`. -/
abbrev tagEnd : ℕ := 0

/-- `MB2_TAG_MMAP`. -/
abbrev tagMmap : ℕ := 6

/-- `MB2_TAG_FRAMEBUFFER`. -/
abbrev tagFramebuffer : ℕ := 8

/-- `MB2_MEM_AVAILABLE`. -/
abbrev memAvailable : ℕ := 1

abbrev identityMapLimit : ℕ := 0x40000000

abbrev lowMemReserved : ℕ := 0x100000

/-- `ARRAY_SIZE(regions)`. -/
abbrev maxRegions : ℕ := 64

/-- `mb2_mmap_entry_t`, without its reserved field. -/
structure MmapEntry where
  addr : ℕ
  len : ℕ
  type : ℕ
  deriving DecidableEq, Repr

/-- The part of the walk that depends on the memory map: `regions[0 .. region_count)` and
`total_ram_bytes`. -/
structure RamMap where
  regions : List MemRegion
  totalRamBytes : ℕ
  deriving DecidableEq, Repr

/-- The variables that the walk changes, apart from its cursors. -/
structure MmState where
  ram : RamMap
  framebufferInfo : FbInfo

/-- The variables before the walk. -/
def mmStart : MmState := ⟨⟨[], 0⟩, ⟨false, 0, 0, 0, 0, by norm_num, by norm_num, by norm_num⟩⟩

/-- The bounds `lo` and `hi` of an entry, cut to the mapped range; `hi` is a 64-bit sum. -/
def clip (e : MmapEntry) : Option MemRegion :=
  let lo := e.addr
  let hi := wrap (e.addr + e.len)
  let lo := if lo < lowMemReserved then lowMemReserved else lo
  let hi := if hi > identityMapLimit then identityMapLimit else hi
  if lo < hi then some ⟨lo, hi - lo⟩ else none

/-- The body of the inner loop, for the entry that it reads. -/
def RamMap.addEntry (ram : RamMap) (e : MmapEntry) : RamMap :=
  if e.type = memAvailable then
    { regions := ram.regions ++ (clip e).toList
      totalRamBytes := wrap (ram.totalRamBytes + e.len) }
  else ram

section Walk

variable (info : ℕ → UInt8)

/-- `t->type`. -/
def tagType (tag : ℕ) : ℕ := u32At info tag

/-- `t->size`. -/
def tagSize (tag : ℕ) : ℕ := u32At info (tag + 4)

/-- `mmap->entry_size`. -/
def entrySize (tag : ℕ) : ℕ := u32At info (tag + 8)

/-- The entry at an offset. -/
def mmapEntryAt (entry : ℕ) : MmapEntry :=
  ⟨u64At info entry, u64At info (entry + 8), u32At info (entry + 16)⟩

def totalSize : ℕ := u32At info 0

/-- The offset of the tag behind this one. -/
def nextTag (tag : ℕ) : ℕ := tag + alignUp32 (tagSize info tag) 8

/-- The inner loop, from an entry on. -/
def entryLoop (tag : ℕ) : ℕ × RamMap → ℕ → Option (ℕ × RamMap) :=
  loop (fun p ↦ p.1 < tag + tagSize info tag && p.2.regions.length < maxRegions)
    fun p _ ↦ some (p.1 + entrySize info tag, p.2.addEntry (mmapEntryAt info p.1))

/-- The first branch of the outer loop: the inner loop starts behind the header of a memory map tag. -/
def mmapBranch (tag : ℕ) (ram : RamMap) (fuel : ℕ) : Option RamMap :=
  if tagType info tag = tagMmap then (entryLoop info tag (tag + 16, ram) fuel).map Prod.snd
  else some ram

/-- The second branch: of the framebuffer tags, only one with 32 bits for each pixel and direct colours
is used. -/
def framebufferBranch (tag : ℕ) (before : FbInfo) : FbInfo :=
  if tagType info tag = tagFramebuffer && info (tag + 29) = 1 && info (tag + 28) = 32 then
    ⟨true, u64At info (tag + 8), u32At info (tag + 16), u32At info (tag + 20), u32At info (tag + 24),
      u32At_lt _ _, u32At_lt _ _, u32At_lt _ _⟩
  else before

/-- The body of the outer loop, for a tag that is not the last one. -/
def tagBody (p : ℕ × MmState) (fuel : ℕ) : Option (ℕ × MmState) :=
  (mmapBranch info p.1 p.2.ram fuel).map fun ram ↦
    (nextTag info p.1, ⟨ram, framebufferBranch info p.1 p.2.framebufferInfo⟩)

/-- The outer loop, from a tag on. The end tag leaves it by `break`. -/
def tagLoop : ℕ × MmState → ℕ → Option (ℕ × MmState) :=
  loop (fun p ↦ p.1 < totalSize info && tagType info p.1 != tagEnd) (tagBody info)

end Walk

/-- The part of `x86_64_mm_init` before the call of `pmm_init`, where `bootInfo` is `none` for a null
pointer. -/
def walkBootInfo (bootMagic : ℕ) (bootInfo : Option (ℕ → UInt8)) (fuel : ℕ) : Option MmState :=
  match bootInfo with
  | some info =>
    if bootMagic = bootloaderMagic then (tagLoop info (8, mmStart) fuel).map Prod.snd else some mmStart
  | none => some mmStart

/-- `x86_64_mm_init`: the variables and the frame allocator after it. -/
def x8664MmInit (kernelStart kernelEnd bootMagic : ℕ) (bootInfo : Option (ℕ → UInt8)) (fuel : ℕ) :
    Option (MmState × Pmm) :=
  (walkBootInfo bootMagic bootInfo fuel).map fun s ↦ (s, pmmInit s.ram.regions kernelStart kernelEnd)

/-- `x86_64_total_ram`, after the walk. -/
def x8664TotalRam (s : MmState) : ℕ := s.ram.totalRamBytes

/-! ### Collecting entries -/

/-- The region of an entry, if it is available and meets the mapped range. -/
def MmapEntry.region (e : MmapEntry) : Option MemRegion :=
  if e.type = memAvailable then clip e else none

/-- Collect entries, one after the other, while there is room for regions. -/
def RamMap.take (ram : RamMap) : List MmapEntry → RamMap
  | [] => ram
  | e :: es => if ram.regions.length < maxRegions then (ram.addEntry e).take es else ram

theorem RamMap.addEntry_regions (ram : RamMap) (e : MmapEntry) :
    (ram.addEntry e).regions = ram.regions ++ e.region.toList := by
  unfold RamMap.addEntry MmapEntry.region
  split <;> simp

/-- Without room, nothing is collected. -/
theorem RamMap.take_of_full {ram : RamMap} (hfull : maxRegions ≤ ram.regions.length)
    (es : List MmapEntry) : ram.take es = ram := by
  cases es with
  | nil => rfl
  | cons e es => rw [RamMap.take, if_neg (by omega)]

theorem RamMap.take_append (ram : RamMap) (es more : List MmapEntry) :
    ram.take (es ++ more) = (ram.take es).take more := by
  induction es generalizing ram with
  | nil => rfl
  | cons e es ih =>
    by_cases hroom : ram.regions.length < maxRegions
    · rw [List.cons_append, RamMap.take, RamMap.take, if_pos hroom, if_pos hroom, ih]
    · rw [RamMap.take_of_full (not_lt.mp hroom), RamMap.take_of_full (not_lt.mp hroom),
        RamMap.take_of_full (not_lt.mp hroom)]

/-- The regions that are collected are the first ones, in the order of the entries. -/
theorem RamMap.take_regions (ram : RamMap) (es : List MmapEntry) :
    (ram.take es).regions =
      ram.regions ++ (es.filterMap MmapEntry.region).take (maxRegions - ram.regions.length) := by
  induction es generalizing ram with
  | nil => simp [RamMap.take]
  | cons e es ih =>
    by_cases hroom : ram.regions.length < maxRegions
    · rw [RamMap.take, if_pos hroom, ih, RamMap.addEntry_regions]
      cases hregion : e.region with
      | none => simp [hregion]
      | some r =>
        obtain ⟨n, hn⟩ : ∃ n, maxRegions - ram.regions.length = n + 1 :=
          Nat.exists_eq_add_of_lt (by omega) |>.imp fun n h ↦ by omega
        have hless : maxRegions - (ram.regions ++ [r]).length = n := by
          rw [List.length_append, List.length_singleton]
          omega
        rw [List.filterMap_cons_some hregion, Option.toList_some, hn, hless, List.take_succ_cons,
          List.append_assoc, List.singleton_append]
    · rw [RamMap.take_of_full (not_lt.mp hroom), Nat.sub_eq_zero_of_le (not_lt.mp hroom)]
      simp

theorem RamMap.length_take {ram : RamMap} (es : List MmapEntry)
    (hlength : ram.regions.length ≤ maxRegions) :
    (ram.take es).regions.length =
      min maxRegions (ram.regions.length + (es.filterMap MmapEntry.region).length) := by
  rw [RamMap.take_regions, List.length_append, List.length_take]
  omega

/-- The cut of an entry, in terms of the larger and the smaller of two bounds. -/
theorem clip_eq (e : MmapEntry) :
    clip e =
      if max lowMemReserved e.addr < min identityMapLimit (wrap (e.addr + e.len)) then
        some ⟨max lowMemReserved e.addr,
          min identityMapLimit (wrap (e.addr + e.len)) - max lowMemReserved e.addr⟩
      else none := by
  have hlo : (if e.addr < lowMemReserved then lowMemReserved else e.addr) =
      max lowMemReserved e.addr := by
    split <;> omega
  have hhi : (if wrap (e.addr + e.len) > identityMapLimit then identityMapLimit
      else wrap (e.addr + e.len)) = min identityMapLimit (wrap (e.addr + e.len)) := by
    split <;> omega
  simp only [clip, hlo, hhi]

/-- A region is not empty and lies in the mapped range. -/
theorem MmapEntry.region_bounds {e : MmapEntry} {r : MemRegion} (h : e.region = some r) :
    lowMemReserved ≤ r.base ∧ r.base < r.base + r.length ∧ r.base + r.length ≤ identityMapLimit := by
  rw [MmapEntry.region, clip_eq] at h
  split at h
  · split at h
    · rename_i hless
      obtain rfl := Option.some.inj h
      dsimp only
      omega
    · exact absurd h (by simp)
  · exact absurd h (by simp)

/-! ### The inner loop -/

section Entries

variable (info : ℕ → UInt8)

/-- The number of entries that the inner loop reads in a tag when it has room for all. -/
def entryCount (tag : ℕ) : ℕ := (tagSize info tag - 16 + entrySize info tag - 1) / entrySize info tag

/-- The entries that the inner loop reads in a tag. With a stride of 0 it reads the first one again and
again, and the array is full after `maxRegions` regions. -/
def mmapEntries (tag : ℕ) : List MmapEntry :=
  if entrySize info tag = 0 then
    if 16 < tagSize info tag then List.replicate maxRegions (mmapEntryAt info (tag + 16)) else []
  else (List.range (entryCount info tag)).map fun k ↦ mmapEntryAt info (tag + 16 + k * entrySize info tag)

variable {info}

theorem entryLoop_mono (tag : ℕ) (p : ℕ × RamMap) : FuelMono (entryLoop info tag p) :=
  loop_mono (fun _ ↦ fuelMono_const _) p

/-- One round of the inner loop. -/
theorem returns_entryLoop_cons {tag entry : ℕ} {ram : RamMap} {result : ℕ × RamMap}
    (hentry : entry < tag + tagSize info tag) (hroom : ram.regions.length < maxRegions)
    (hrest : Returns (entryLoop info tag
      (entry + entrySize info tag, ram.addEntry (mmapEntryAt info entry))) result) :
    Returns (entryLoop info tag (entry, ram)) result :=
  returns_cons (fun _ ↦ fuelMono_const _) (by simp [hentry, hroom]) ⟨0, rfl⟩ hrest

/-- The inner loop ends behind the last entry. -/
theorem returns_entryLoop_of_end {tag entry : ℕ} (ram : RamMap)
    (hentry : tag + tagSize info tag ≤ entry) : Returns (entryLoop info tag (entry, ram)) (entry, ram) :=
  returns_of_stopped (by simp [hentry])

/-- It ends as well when there is no more room. -/
theorem returns_entryLoop_of_full {tag : ℕ} (entry : ℕ) {ram : RamMap}
    (hfull : maxRegions ≤ ram.regions.length) :
    Returns (entryLoop info tag (entry, ram)) (entry, ram) :=
  returns_of_stopped (by simp [hfull])

/-- With a stride, the loop goes through the entries of the tag. -/
theorem returns_entryLoop_of_stride {tag : ℕ} (hstride : entrySize info tag ≠ 0) (ram : RamMap) {k n : ℕ}
    (hcount : k + n = entryCount info tag) :
    ∃ entry, Returns (entryLoop info tag (tag + 16 + k * entrySize info tag, ram))
      (entry, ram.take ((List.range' k n).map fun k ↦
        mmapEntryAt info (tag + 16 + k * entrySize info tag))) := by
  have hdiv : ∀ j, j < entryCount info tag ↔ j * entrySize info tag < tagSize info tag - 16 := by
    intro j
    rw [entryCount, Nat.lt_div_iff_mul_lt (by omega)]
    omega
  induction n generalizing k ram with
  | zero =>
    refine ⟨_, returns_entryLoop_of_end ram ?_⟩
    have hend := (hdiv k).not.mp (by omega)
    omega
  | succ n ih =>
    by_cases hroom : ram.regions.length < maxRegions
    · have hentry := (hdiv k).mp (by omega)
      obtain ⟨entry, hrest⟩ := ih (ram.addEntry (mmapEntryAt info (tag + 16 + k * entrySize info tag)))
        (by omega : k + 1 + n = entryCount info tag)
      refine ⟨entry, returns_entryLoop_cons (by omega) hroom ?_⟩
      rw [List.range'_succ, List.map_cons, RamMap.take, if_pos hroom]
      rwa [Nat.succ_mul, ← Nat.add_assoc] at hrest
    · rw [RamMap.take_of_full (not_lt.mp hroom)]
      exact ⟨_, returns_entryLoop_of_full _ (not_lt.mp hroom)⟩

/-- Without a stride, an entry that has a region fills the array. -/
theorem returns_entryLoop_of_repeat {tag : ℕ} (hstride : entrySize info tag = 0)
    (hsize : 16 < tagSize info tag) {r : MemRegion}
    (hregion : (mmapEntryAt info (tag + 16)).region = some r) {n : ℕ} {ram : RamMap}
    (hroom : maxRegions ≤ ram.regions.length + n) :
    Returns (entryLoop info tag (tag + 16, ram))
      (tag + 16, ram.take (List.replicate n (mmapEntryAt info (tag + 16)))) := by
  induction n generalizing ram with
  | zero => exact returns_entryLoop_of_full _ hroom
  | succ n ih =>
    by_cases hless : ram.regions.length < maxRegions
    · refine returns_entryLoop_cons (by omega) hless ?_
      rw [hstride, Nat.add_zero, List.replicate_succ, RamMap.take, if_pos hless]
      refine ih ?_
      rw [RamMap.addEntry_regions, hregion, Option.toList_some, List.length_append,
        List.length_singleton]
      omega
    · rw [RamMap.take_of_full (not_lt.mp hless)]
      exact returns_entryLoop_of_full _ (not_lt.mp hless)

/-- The inner loop collects the entries of its tag, unless it has no stride, an entry without a region
and room for one. -/
theorem returns_entryLoop {tag : ℕ} {ram : RamMap}
    (hends : 16 < tagSize info tag → entrySize info tag = 0 →
      (mmapEntryAt info (tag + 16)).region.isSome ∨ maxRegions ≤ ram.regions.length) :
    ∃ entry, Returns (entryLoop info tag (tag + 16, ram)) (entry, ram.take (mmapEntries info tag)) := by
  by_cases hstride : entrySize info tag = 0
  · rw [mmapEntries, if_pos hstride]
    by_cases hsize : 16 < tagSize info tag
    · rw [if_pos hsize]
      rcases hends hsize hstride with hregion | hfull
      · obtain ⟨r, hr⟩ := Option.isSome_iff_exists.mp hregion
        exact ⟨_, returns_entryLoop_of_repeat hstride hsize hr (by omega)⟩
      · rw [RamMap.take_of_full hfull]
        exact ⟨_, returns_entryLoop_of_full _ hfull⟩
    · rw [if_neg hsize]
      exact ⟨_, returns_entryLoop_of_end ram (by omega)⟩
  · rw [mmapEntries, if_neg hstride, List.range_eq_range']
    have hloop := returns_entryLoop_of_stride hstride ram (Nat.zero_add (entryCount info tag))
    rwa [Nat.zero_mul] at hloop

/-- In the remaining case the inner loop never ends. -/
theorem entryLoop_eq_none {tag : ℕ} {ram : RamMap} (hsize : 16 < tagSize info tag)
    (hstride : entrySize info tag = 0) (hregion : (mmapEntryAt info (tag + 16)).region = none)
    (hroom : ram.regions.length < maxRegions) (fuel : ℕ) :
    entryLoop info tag (tag + 16, ram) fuel = none := by
  refine loop_eq_none
    (fun p hp ↦ ?_ : ∀ p : ℕ × RamMap, p.1 = tag + 16 ∧ p.2.regions.length < maxRegions → _)
    (fun _ p next hp hnext ↦ ?_) ⟨rfl, hroom⟩ fuel
  · simp only [hp.1, hp.2]
    simp [hsize]
  · obtain rfl := Option.some.inj hnext
    refine ⟨by rw [hstride]; exact hp.1, ?_⟩
    dsimp only
    rw [RamMap.addEntry_regions, hp.1, hregion]
    simpa using hp.2

/-! ### The outer loop -/

variable (info) in
/-- The entries that the walk reads in a tag. -/
def tagEntries (tag : ℕ) : List MmapEntry :=
  if tagType info tag = tagMmap then mmapEntries info tag else []

/-- The rounded size of a tag. -/
theorem alignUp32_eight (x : ℕ) : alignUp32 x 8 = (x + 7) % 2 ^ 32 / 8 * 8 :=
  alignUp32_two_pow (x := x) (by norm_num : 3 ≤ 32)

theorem tagBody_mono (p : ℕ × MmState) : FuelMono (tagBody info p) :=
  FuelMono.map (FuelMono.ite ((entryLoop_mono p.1 _).map Prod.snd) (fuelMono_const _)) _

theorem tagLoop_mono (p : ℕ × MmState) : FuelMono (tagLoop info p) := loop_mono tagBody_mono p

/-- The inner loop of a tag ends. -/
def EntriesEnd (info : ℕ → UInt8) (tag : ℕ) (ram : RamMap) : Prop :=
  tagType info tag = tagMmap → 16 < tagSize info tag → entrySize info tag = 0 →
    (mmapEntryAt info (tag + 16)).region.isSome ∨ maxRegions ≤ ram.regions.length

/-- Then one round of the outer loop collects the entries of the tag, and goes to the next one. -/
theorem returns_tagBody {tag : ℕ} {s : MmState} (hends : EntriesEnd info tag s.ram) :
    Returns (tagBody info (tag, s)) (nextTag info tag,
      ⟨s.ram.take (tagEntries info tag), framebufferBranch info tag s.framebufferInfo⟩) := by
  by_cases hmmap : tagType info tag = tagMmap
  · obtain ⟨entry, fuel, hentries⟩ := returns_entryLoop (hends hmmap)
    refine ⟨fuel, ?_⟩
    rw [tagBody, mmapBranch, tagEntries, if_pos hmmap, if_pos hmmap, hentries]
    rfl
  · refine ⟨0, ?_⟩
    rw [tagBody, mmapBranch, tagEntries, if_neg hmmap, if_neg hmmap]
    rfl

/-- Otherwise it never ends. -/
theorem tagBody_eq_none {tag : ℕ} {s : MmState} (hends : ¬ EntriesEnd info tag s.ram) (fuel : ℕ) :
    tagBody info (tag, s) fuel = none := by
  unfold EntriesEnd at hends
  push Not at hends
  obtain ⟨hmmap, hsize, hstride, hregion, hroom⟩ := hends
  have hnone := entryLoop_eq_none hsize hstride (by simpa using hregion) hroom fuel
  rw [tagBody, mmapBranch, if_pos hmmap, hnone]
  rfl

theorem x8664MmInit_mono (kernelStart kernelEnd bootMagic : ℕ) (info : ℕ → UInt8) :
    FuelMono (x8664MmInit kernelStart kernelEnd bootMagic (some info)) :=
  FuelMono.map (FuelMono.ite ((tagLoop_mono (8, mmStart)).map Prod.snd) (fuelMono_const _)) _

/-- The call after a walk that ended. -/
theorem returns_x8664MmInit {result : ℕ × MmState} (kernelStart kernelEnd : ℕ)
    (hwalk : Returns (tagLoop info (8, mmStart)) result) :
    Returns (x8664MmInit kernelStart kernelEnd bootloaderMagic (some info))
      (result.2, pmmInit result.2.ram.regions kernelStart kernelEnd) := by
  obtain ⟨fuel, hresult⟩ := hwalk
  exact ⟨fuel, by rw [x8664MmInit, walkBootInfo, if_pos rfl, hresult]; rfl⟩

end Entries

end MegKer.Memory
