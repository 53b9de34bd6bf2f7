import MegKer.Memory.Multiboot2
import Mathlib.Order.Interval.Set.Basic

/-!
# What the walk makes of a well-formed block

A well-formed block is one that lays out a list of tags: each tag has its type, its size and its content
at its place, ends within the block, and is followed by the next one at the next multiple of 8. `LaidOut`
states this of the bytes, and `BootBlock` is a block with the tags that it lays out. `encode` writes a
block for a list of tags, and `laidOut_encode` says that it lays them out.

On such a block the walk is a walk over the memory map entries of the tags, in their order
(`returns_of_laidOut`). It follows what the frame allocator gets: not more than 64 regions, none of them
empty, all of them in the mapped range, and exactly the parts of the available entries that lie in that
range, as long as there are not more than 64 of them and no entry wraps (`regions_of_block`).

The total of the memory is added up in the same loop, which stops when the array of regions is full. So
the total counts the entries up to the 64th one with a region, and is right exactly if the entries behind
that one add up to nothing (`reportsTotal_iff`).
-/

set_option autoImplicit false
set_option relaxedAutoImplicit false

namespace MegKer.Memory

open Foundation Gui

/-! ### Well-formed blocks -/

/-- A tag: a memory map with its stride and its entries, or a tag of another type. -/
inductive BootTag
  | memoryMap (stride : ℕ) (entries : List MmapEntry)
  | other (type size : ℕ)
  deriving DecidableEq, Repr

namespace BootTag

/-- The size that the tag states of itself. -/
def size : BootTag → ℕ
  | memoryMap stride entries => 16 + entries.length * stride
  | other _ size => size

/-- The memory map entries of the tag. -/
def entries : BootTag → List MmapEntry
  | memoryMap _ entries => entries
  | other _ _ => []

/-- The bytes at an offset are those of the tag. -/
def HeldAt (info : ℕ → UInt8) (offset : ℕ) : BootTag → Prop
  | memoryMap stride entries =>
    tagType info offset = tagMmap ∧ tagSize info offset = 16 + entries.length * stride ∧
      entrySize info offset = stride ∧ 24 ≤ stride ∧
        ∀ k (hk : k < entries.length), mmapEntryAt info (offset + 16 + k * stride) = entries[k]
  | other type size =>
    tagType info offset = type ∧ type ≠ tagEnd ∧ type ≠ tagMmap ∧ tagSize info offset = size ∧ 8 ≤ size

end BootTag

/-- The tags lie in the block from an offset on, each at a multiple of 8, up to the end tag or to the end
of the block. -/
def LaidOut (info : ℕ → UInt8) : (offset : ℕ) → List BootTag → Prop
  | offset, [] => totalSize info ≤ offset ∨ tagType info offset = tagEnd
  | offset, tag :: tags =>
    tag.HeldAt info offset ∧ offset + tag.size ≤ totalSize info ∧
      LaidOut info ((offset + tag.size + 7) / 8 * 8) tags

/-- A well-formed block: its bytes, and the tags that they lay out. -/
structure BootBlock where
  info : ℕ → UInt8
  tags : List BootTag
  laidOut : LaidOut info 8 tags

/-- The memory map entries of a block, across its tags. -/
def BootBlock.entries (block : BootBlock) : List MmapEntry := block.tags.flatMap BootTag.entries

/-- The available ones. -/
def BootBlock.available (block : BootBlock) : List MmapEntry :=
  block.entries.filter fun e ↦ e.type = memAvailable

/-! ### Writing a block -/

/-- The bytes of an entry, filled up to the stride. -/
def MmapEntry.encode (stride : ℕ) (e : MmapEntry) : List UInt8 :=
  le64 e.addr ++ (le64 e.len ++ (le32 e.type ++ zeros (stride - 20)))

/-- The bytes of a tag. -/
def BootTag.encode : BootTag → List UInt8
  | memoryMap stride entries =>
    le32 tagMmap ++ (le32 (16 + entries.length * stride) ++ (le32 stride ++ (le32 0 ++
      entries.flatMap (MmapEntry.encode stride))))
  | other type size => le32 type ++ (le32 size ++ zeros (size - 8))

/-- The bytes of tags, each filled up to a multiple of 8, and of the end tag behind them. -/
def encodeTags : List BootTag → List UInt8
  | [] => le32 tagEnd ++ le32 8
  | tag :: tags => ljust ((tag.size + 7) / 8 * 8) tag.encode ++ encodeTags tags

/-- The bytes of a block. -/
def encode (tags : List BootTag) : List UInt8 :=
  le32 (8 + (encodeTags tags).length) ++ (le32 0 ++ encodeTags tags)

/-- The fields of an entry are in the ranges of their types. -/
structure MmapEntry.Fits (e : MmapEntry) : Prop where
  addr_lt : e.addr < 2 ^ 64
  len_lt : e.len < 2 ^ 64
  type_lt : e.type < 2 ^ 32

/-- A tag that can be written. -/
def BootTag.Fits : BootTag → Prop
  | memoryMap stride entries => 24 ≤ stride ∧ stride < 2 ^ 32 ∧ ∀ e ∈ entries, e.Fits
  | other type size => type ≠ tagEnd ∧ type ≠ tagMmap ∧ type < 2 ^ 32 ∧ 8 ≤ size

theorem MmapEntry.length_encode {stride : ℕ} (hstride : 24 ≤ stride) (e : MmapEntry) :
    (e.encode stride).length = stride := by
  simp only [MmapEntry.encode, List.length_append, length_le64, length_le32, length_zeros]
  omega

theorem BootTag.length_encode {tag : BootTag} (h : tag.Fits) : tag.encode.length = tag.size := by
  cases tag with
  | memoryMap stride entries =>
    have hentries : (entries.flatMap (MmapEntry.encode stride)).length = entries.length * stride := by
      rw [List.length_flatMap, List.map_congr_left fun e _ ↦ e.length_encode h.1, List.map_const',
        List.sum_replicate_nat]
    simp only [BootTag.encode, List.length_append, length_le32, hentries, BootTag.size]
    omega
  | other type size =>
    obtain ⟨-, -, -, hsize⟩ := h
    simp only [BootTag.encode, List.length_append, length_le32, length_zeros, BootTag.size]
    omega

section Encoding

variable {image : List UInt8}

/-- The bytes of an entry are read as the entry. -/
theorem MmapEntry.at_of_sitsAt {stride offset : ℕ} {e : MmapEntry} (he : e.Fits)
    (h : SitsAt image offset (e.encode stride)) : mmapEntryAt (image.getD · 0) offset = e := by
  have haddr := h.left.u64At_eq he.addr_lt
  have hlen := h.right.left.u64At_eq he.len_lt
  have htype := h.right.right.left.u32At_eq he.type_lt
  rw [length_le64] at hlen htype
  rw [length_le64] at htype
  rw [mmapEntryAt, haddr, hlen, htype]

/-- The bytes of a tag hold the tag. -/
theorem BootTag.heldAt_of_sitsAt {offset : ℕ} {tag : BootTag} (htag : tag.Fits)
    (hsize : tag.size < 2 ^ 32) (h : SitsAt image offset tag.encode) :
    tag.HeldAt (image.getD · 0) offset := by
  cases tag with
  | memoryMap stride entries =>
    obtain ⟨hlarge, hstride, hentries⟩ := htag
    refine ⟨h.left.u32At_eq (by norm_num), h.right.left.u32At_eq hsize,
      h.right.right.left.u32At_eq hstride, hlarge, fun k hk ↦ ?_⟩
    have hrecord := h.right.right.right.right.record
      (fun e _ ↦ MmapEntry.length_encode hlarge e) hk
    exact MmapEntry.at_of_sitsAt (hentries _ (List.getElem_mem hk)) hrecord
  | other type size =>
    obtain ⟨hend, hmmap, htype, hlarge⟩ := htag
    exact ⟨h.left.u32At_eq htype, hend, hmmap, h.right.left.u32At_eq hsize, hlarge⟩

theorem laidOut_of_sitsAt {tags : List BootTag} (htags : ∀ tag ∈ tags, tag.Fits) {offset : ℕ}
    (haligned : 8 ∣ offset) (hfits : image.length < 2 ^ 32)
    (htotal : totalSize (image.getD · 0) = image.length)
    (h : SitsAt image offset (encodeTags tags)) : LaidOut (image.getD · 0) offset tags := by
  induction tags generalizing offset with
  | nil => exact Or.inr (h.left.u32At_eq (by norm_num))
  | cons tag tags ih =>
    obtain ⟨htag, htags⟩ := List.forall_mem_cons.mp htags
    have hlength : tag.encode.length ≤ (tag.size + 7) / 8 * 8 := by
      rw [BootTag.length_encode htag]
      omega
    have hinside := h.le_length
    rw [encodeTags, List.length_append, length_ljust hlength] at hinside
    have hnext := h.right
    rw [length_ljust hlength] at hnext
    refine ⟨BootTag.heldAt_of_sitsAt htag (by omega) h.left.left, by omega, ih htags ?_ ?_⟩
    · exact Nat.dvd_mul_left 8 _
    · rwa [show (offset + tag.size + 7) / 8 * 8 = offset + (tag.size + 7) / 8 * 8 by omega]

/-- A block that was written for some tags lays them out. -/
theorem laidOut_encode {tags : List BootTag} (htags : ∀ tag ∈ tags, tag.Fits)
    (hfits : (encode tags).length < 2 ^ 32) : LaidOut ((encode tags).getD · 0) 8 tags := by
  have hwhole : SitsAt (encode tags) 0 (encode tags) := SitsAt.whole _
  have hlength : (encode tags).length = 8 + (encodeTags tags).length := by
    simp only [encode, List.length_append, length_le32]
    omega
  refine laidOut_of_sitsAt htags (Nat.dvd_refl 8) hfits ?_ hwhole.right.right
  rw [hlength] at hfits ⊢
  exact hwhole.left.u32At_eq hfits

end Encoding

/-! ### The walk over a well-formed block -/

section Walk

variable {info : ℕ → UInt8}

namespace BootTag

theorem HeldAt.tagSize_eq {offset : ℕ} {tag : BootTag} (h : tag.HeldAt info offset) :
    tagSize info offset = tag.size := by
  cases tag with
  | memoryMap stride entries => exact h.2.1
  | other type size => exact h.2.2.2.1

theorem HeldAt.ne_end {offset : ℕ} {tag : BootTag} (h : tag.HeldAt info offset) :
    tagType info offset ≠ tagEnd := by
  cases tag with
  | memoryMap stride entries => rw [h.1]; decide
  | other type size => exact h.1 ▸ h.2.1

theorem HeldAt.eight_le {offset : ℕ} {tag : BootTag} (h : tag.HeldAt info offset) : 8 ≤ tag.size := by
  cases tag with
  | memoryMap stride entries => exact le_trans (by norm_num) (Nat.le_add_right 16 _)
  | other type size => exact h.2.2.2.2

/-- The walk reads the entries of the tag. -/
theorem HeldAt.tagEntries_eq {offset : ℕ} {tag : BootTag} (h : tag.HeldAt info offset) :
    tagEntries info offset = tag.entries := by
  cases tag with
  | memoryMap stride entries =>
    obtain ⟨htype, hsize, hstride, hlarge, hentries⟩ := h
    have hcount : entryCount info offset = entries.length := by
      rw [entryCount, hsize, hstride, Nat.add_sub_cancel_left]
      exact Nat.div_eq_of_lt_le (by omega) (by rw [Nat.succ_mul]; omega)
    rw [tagEntries, if_pos htype, mmapEntries, if_neg (by omega), hcount, hstride]
    refine List.ext_getElem (by simp [BootTag.entries]) fun k hk _ ↦ ?_
    rw [List.getElem_map, List.getElem_range]
    exact hentries k (by simpa using hk)
  | other type size => rw [tagEntries, if_neg (h.1 ▸ h.2.2.1), BootTag.entries]

theorem HeldAt.entriesEnd {offset : ℕ} {tag : BootTag} (h : tag.HeldAt info offset) (ram : RamMap) :
    EntriesEnd info offset ram := by
  intro htype hsize hstride
  cases tag with
  | memoryMap stride entries =>
    obtain ⟨-, -, hstride', hlarge, -⟩ := h
    omega
  | other type size => exact absurd (h.1 ▸ htype) h.2.2.1

/-- The walk finds the next tag at the next multiple of 8; a size within the block is too small to wrap
when it is rounded. -/
theorem HeldAt.nextTag_eq {offset : ℕ} {tag : BootTag} (h : tag.HeldAt info offset)
    (haligned : 8 ∣ offset) (hpos : 0 < offset) (hfits : offset + tag.size ≤ totalSize info) :
    nextTag info offset = (offset + tag.size + 7) / 8 * 8 := by
  have htotal : totalSize info < 2 ^ 32 := u32At_lt info 0
  rw [nextTag, alignUp32_eight, h.tagSize_eq, Nat.mod_eq_of_lt (by omega)]
  omega

end BootTag

/-- The walk over tags that are laid out collects their entries, in their order. -/
theorem returns_of_laidOut {tags : List BootTag} {offset : ℕ} (hlaid : LaidOut info offset tags)
    (haligned : 8 ∣ offset) (hpos : 0 < offset) (s : MmState) :
    ∃ result, Returns (tagLoop info (offset, s)) result ∧
      result.2.ram = s.ram.take (tags.flatMap BootTag.entries) := by
  induction tags generalizing offset s with
  | nil =>
    refine ⟨_, returns_of_stopped ?_, rfl⟩
    rcases hlaid with hend | hend <;> simp [hend]
  | cons tag tags ih =>
    obtain ⟨hheld, hfits, hrest⟩ := hlaid
    have hsize := hheld.eight_le
    have hnext := hheld.nextTag_eq haligned hpos hfits
    obtain ⟨result, hresult, hram⟩ := ih hrest (by omega) (by omega)
      ⟨s.ram.take (tagEntries info offset), framebufferBranch info offset s.framebufferInfo⟩
    rw [← hnext] at hresult
    refine ⟨result, returns_cons tagBody_mono ?_ (returns_tagBody (hheld.entriesEnd s.ram)) hresult, ?_⟩
    · have hinside : offset < totalSize info := by omega
      simp [hinside, hheld.ne_end]
    · rw [hram, List.flatMap_cons, RamMap.take_append, hheld.tagEntries_eq]

end Walk

/-- The walk over a well-formed block ends, and has one result. -/
theorem BootBlock.returns (block : BootBlock) (kernelStart kernelEnd : ℕ) :
    ∃ s, s.ram = mmStart.ram.take block.entries ∧ ∀ result,
      Returns (x8664MmInit kernelStart kernelEnd bootloaderMagic (some block.info)) result ↔
        result = (s, pmmInit s.ram.regions kernelStart kernelEnd) := by
  obtain ⟨⟨last, s⟩, hwalk, hram⟩ := returns_of_laidOut block.laidOut (Nat.dvd_refl 8) (by norm_num) mmStart
  have hreturns := returns_x8664MmInit kernelStart kernelEnd hwalk
  refine ⟨s, hram, fun result ↦ ⟨fun hresult ↦ ?_, fun hresult ↦ hresult ▸ hreturns⟩⟩
  exact Returns.unique (x8664MmInit_mono kernelStart kernelEnd bootloaderMagic _) hresult hreturns

/-! ### The regions -/

/-- The memory that a region stands for. -/
def MemRegion.range (r : MemRegion) : Set ℕ := Set.Ico r.base (r.base + r.length)

/-- The memory that an entry stands for. -/
def MmapEntry.range (e : MmapEntry) : Set ℕ := Set.Ico e.addr (e.addr + e.len)

/-- The memory that the boot code maps, without the part below 1 MiB. -/
def mappedWindow : Set ℕ := Set.Ico lowMemReserved identityMapLimit

/-- The part of an entry in that memory, if there is one. -/
def MmapEntry.inWindow (e : MmapEntry) : Option MemRegion :=
  let lo := max e.addr lowMemReserved
  let hi := min (e.addr + e.len) identityMapLimit
  if lo < hi then some ⟨lo, hi - lo⟩ else none

theorem MmapEntry.range_inter (e : MmapEntry) :
    e.range ∩ mappedWindow =
      Set.Ico (max e.addr lowMemReserved) (min (e.addr + e.len) identityMapLimit) :=
  Set.Ico_inter_Ico

theorem MmapEntry.range_of_inWindow {e : MmapEntry} {r : MemRegion} (h : e.inWindow = some r) :
    r.range = e.range ∩ mappedWindow ∧ (e.range ∩ mappedWindow).Nonempty := by
  rw [MmapEntry.range_inter]
  simp only [MmapEntry.inWindow] at h
  split at h
  · rename_i hless
    obtain rfl := Option.some.inj h
    refine ⟨?_, Set.nonempty_Ico.mpr hless⟩
    rw [MemRegion.range, Nat.add_sub_of_le hless.le]
  · exact absurd h (by simp)

theorem MmapEntry.inWindow_eq_none_iff (e : MmapEntry) :
    e.inWindow = none ↔ e.range ∩ mappedWindow = ∅ := by
  rw [MmapEntry.range_inter, Set.Ico_eq_empty_iff]
  simp only [MmapEntry.inWindow]
  split <;> simp_all

/-- For an available entry that does not wrap, the walk takes just that part. -/
theorem MmapEntry.region_eq_inWindow {e : MmapEntry} (htype : e.type = memAvailable)
    (hfits : e.addr + e.len < 2 ^ 64) : e.region = e.inWindow := by
  rw [MmapEntry.region, if_pos htype, clip_eq, wrap_of_lt hfits, Nat.max_comm, Nat.min_comm]
  rfl

theorem BootBlock.filterMap_region (block : BootBlock) :
    block.entries.filterMap MmapEntry.region = block.available.filterMap MmapEntry.region := by
  rw [BootBlock.available, List.filterMap_filter]
  refine List.filterMap_congr fun e _ ↦ ?_
  unfold MmapEntry.region
  split <;> simp_all

/-- A memory map of pages above 1 MiB, one entry for each. -/
def pagedMap (n : ℕ) : List BootTag :=
  [.memoryMap 24 ((List.range n).map fun k ↦ ⟨0x100000 + 0x1000 * k, 0x1000, memAvailable⟩)]

theorem fits_pagedMap {n : ℕ} (hn : n < 2 ^ 32) : ∀ tag ∈ pagedMap n, tag.Fits := by
  intro tag htag
  obtain rfl := List.mem_singleton.mp htag
  refine ⟨by norm_num, by norm_num, fun e he ↦ ?_⟩
  obtain ⟨k, hk, rfl⟩ := List.mem_map.mp he
  have hk := List.mem_range.mp hk
  exact ⟨by dsimp only; omega, by norm_num, by norm_num⟩

/-- A block with two entries. -/
def twoPageBlock : BootBlock :=
  ⟨((encode (pagedMap 2)).getD · 0), pagedMap 2,
    laidOut_encode (fits_pagedMap (by norm_num)) (by decide +kernel)⟩

/-- For every well-formed block: the walk ends with one result. The regions that it passes to `pmm_init`
are not empty and lie between 1 MiB and 1 GiB, and there are at most 64 of them. If at most 64 available
entries meet that range and none of them wraps, the regions are their parts in the range, in the order of
the entries. -/
theorem regions_of_block (block : BootBlock) (kernelStart kernelEnd : ℕ) :
    ∃ s, (∀ result, Returns (x8664MmInit kernelStart kernelEnd bootloaderMagic (some block.info)) result ↔
        result = (s, pmmInit s.ram.regions kernelStart kernelEnd)) ∧
      (∀ r ∈ s.ram.regions,
        0x100000 ≤ r.base ∧ r.base < r.base + r.length ∧ r.base + r.length ≤ 0x40000000) ∧
      s.ram.regions.length ≤ 64 ∧
      ((block.available.filterMap MmapEntry.inWindow).length ≤ 64 →
        (∀ e ∈ block.available, e.addr + e.len < 2 ^ 64) →
          s.ram.regions = block.available.filterMap MmapEntry.inWindow) := by
  obtain ⟨s, hram, hresult⟩ := block.returns kernelStart kernelEnd
  have hregions : s.ram.regions = (block.entries.filterMap MmapEntry.region).take 64 := by
    rw [hram, RamMap.take_regions]
    rfl
  refine ⟨s, hresult, fun r hr ↦ ?_, ?_, fun hcount hfits ↦ ?_⟩
  · rw [hregions] at hr
    obtain ⟨e, -, hregion⟩ := List.mem_filterMap.mp (List.mem_of_mem_take hr)
    exact MmapEntry.region_bounds hregion
  · rw [hregions, List.length_take]
    exact Nat.min_le_left _ _
  · have hparts : block.available.filterMap MmapEntry.region =
        block.available.filterMap MmapEntry.inWindow :=
      List.filterMap_congr fun e he ↦
        MmapEntry.region_eq_inWindow (of_decide_eq_true (List.mem_filter.mp he).2) (hfits e he)
    rw [hregions, block.filterMap_region, hparts, List.take_of_length_le hcount]

/-- Both pages of the block are regions. -/
theorem regions_of_block_two_pages :
    ∃ s, Returns (x8664MmInit 0x100000 0x101000 bootloaderMagic (some twoPageBlock.info))
        (s, pmmInit s.ram.regions 0x100000 0x101000) ∧
      s.ram.regions = [⟨0x100000, 0x1000⟩, ⟨0x101000, 0x1000⟩] := by
  obtain ⟨s, hresult, -, -, hregions⟩ := regions_of_block twoPageBlock 0x100000 0x101000
  have hparts : twoPageBlock.available.filterMap MmapEntry.inWindow =
      [⟨0x100000, 0x1000⟩, ⟨0x101000, 0x1000⟩] := by decide +kernel
  have hfits : ∀ e ∈ twoPageBlock.available, e.addr + e.len < 2 ^ 64 := by decide +kernel
  refine ⟨s, (hresult _).mpr rfl, ?_⟩
  rw [hregions (by rw [hparts]; decide) hfits, hparts]

/-! ### The total -/

/-- The lengths of the available entries, added up. -/
def ramSum (es : List MmapEntry) : ℕ := ((es.filter fun e ↦ e.type = memAvailable).map MmapEntry.len).sum

/-- The entries behind the one with the last of `n` regions. -/
def beyond : (n : ℕ) → List MmapEntry → List MmapEntry
  | 0, es => es
  | _ + 1, [] => []
  | n + 1, e :: es => if e.region.isSome then beyond n es else beyond (n + 1) es

theorem ramSum_cons (e : MmapEntry) (es : List MmapEntry) :
    ramSum (e :: es) = (if e.type = memAvailable then e.len else 0) + ramSum es := by
  unfold ramSum
  by_cases htype : e.type = memAvailable <;> simp [htype]

theorem RamMap.addEntry_total (ram : RamMap) (e : MmapEntry) :
    wrap (ram.addEntry e).totalRamBytes =
      wrap (ram.totalRamBytes + if e.type = memAvailable then e.len else 0) := by
  unfold RamMap.addEntry
  split
  · exact Nat.mod_mod _ _
  · rfl

/-- What is collected and what is left behind make up the whole. -/
theorem RamMap.take_total (ram : RamMap) (es : List MmapEntry) :
    wrap ((ram.take es).totalRamBytes + ramSum (beyond (maxRegions - ram.regions.length) es)) =
      wrap (ram.totalRamBytes + ramSum es) := by
  induction es generalizing ram with
  | nil =>
    rw [RamMap.take]
    cases maxRegions - ram.regions.length <;> rfl
  | cons e es ih =>
    by_cases hroom : ram.regions.length < maxRegions
    · have hbeyond : beyond (maxRegions - ram.regions.length) (e :: es) =
          beyond (maxRegions - (ram.addEntry e).regions.length) es := by
        obtain ⟨n, hn⟩ := Nat.exists_eq_add_of_lt hroom
        rw [RamMap.addEntry_regions, List.length_append,
          show maxRegions - ram.regions.length = n + 1 by omega, beyond]
        cases e.region with
        | none => rw [Option.toList_none, List.length_nil]; simp; congr 1; omega
        | some r => rw [Option.toList_some, List.length_singleton]; simp; congr 1; omega
      have hentry := ram.addEntry_total e
      rw [RamMap.take, if_pos hroom, hbeyond, ih, ramSum_cons]
      unfold wrap at hentry ⊢
      omega
    · rw [RamMap.take_of_full (not_lt.mp hroom), Nat.sub_eq_zero_of_le (not_lt.mp hroom), beyond]

theorem RamMap.take_total_lt {ram : RamMap} (es : List MmapEntry) (h : ram.totalRamBytes < 2 ^ 64) :
    (ram.take es).totalRamBytes < 2 ^ 64 := by
  induction es generalizing ram with
  | nil => exact h
  | cons e es ih =>
    rw [RamMap.take]
    split
    · refine ih ?_
      unfold RamMap.addEntry
      split
      · exact wrap_lt _
      · exact h
    · exact h

/-- The total is that of all entries exactly if those that are left behind add up to nothing. -/
theorem BootBlock.total_iff (block : BootBlock) :
    (mmStart.ram.take block.entries).totalRamBytes = ramSum block.entries % 2 ^ 64 ↔
      ramSum (beyond 64 block.entries) % 2 ^ 64 = 0 := by
  have hwhole : ((mmStart.ram.take block.entries).totalRamBytes + ramSum (beyond 64 block.entries)) %
      2 ^ 64 = (0 + ramSum block.entries) % 2 ^ 64 := mmStart.ram.take_total block.entries
  have hlt := mmStart.ram.take_total_lt block.entries (by decide)
  omega

/-- `x86_64_mm_init` ends, and `x86_64_total_ram` is then the length of all available entries of the
block, modulo `2 ^ 64`. -/
def ReportsTotal (block : BootBlock) : Prop :=
  ∀ kernelStart kernelEnd, ∃ s pmm,
    Returns (x8664MmInit kernelStart kernelEnd bootloaderMagic (some block.info)) (s, pmm) ∧
      x8664TotalRam s = ramSum block.entries % 2 ^ 64

theorem not_reportsTotal_of_beyond {block : BootBlock}
    (hbeyond : ramSum (beyond 64 block.entries) % 2 ^ 64 ≠ 0) : ¬ ReportsTotal block := by
  intro hreports
  obtain ⟨s, pmm, hreturns, htotal⟩ := hreports 0 0
  obtain ⟨s', hram, hresult⟩ := block.returns 0 0
  obtain ⟨rfl, -⟩ := Prod.mk.inj ((hresult _).mp hreturns)
  rw [x8664TotalRam, hram] at htotal
  exact hbeyond (block.total_iff.mp htotal)

/-- A block with 65 entries. -/
def longBlock : BootBlock :=
  ⟨((encode (pagedMap 65)).getD · 0), pagedMap 65,
    laidOut_encode (fits_pagedMap (by norm_num)) (by decide +kernel)⟩

/-- Of its 65 pages, 64 are reported. -/
theorem not_reportsTotal_long : ¬ ReportsTotal longBlock :=
  not_reportsTotal_of_beyond (by decide +kernel)

/-- For every well-formed block: the total is reported exactly if the available entries behind the 64th
one with a region add up to a multiple of `2 ^ 64`. -/
theorem reportsTotal_iff (block : BootBlock) :
    ReportsTotal block ↔ ramSum (beyond 64 block.entries) % 2 ^ 64 = 0 := by
  constructor
  · intro hreports
    by_contra hbeyond
    exact not_reportsTotal_of_beyond hbeyond hreports
  · intro hbeyond kernelStart kernelEnd
    obtain ⟨s, hram, hresult⟩ := block.returns kernelStart kernelEnd
    refine ⟨s, _, (hresult _).mpr rfl, ?_⟩
    rw [x8664TotalRam, hram]
    exact block.total_iff.mpr hbeyond

end MegKer.Memory
