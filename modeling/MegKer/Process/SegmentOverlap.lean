import MegKer.Process.ElfLoading

/-!
# Segments that share a page

The loader rounds each segment to pages, and gives each of its pages a new frame, whether or not the
page is mapped already. So a segment takes over the pages that it shares with earlier ones, and what
these had there is replaced by zeros.

`SparesEarlier` states that no segment changes the bytes of an earlier one. For segments that occupy
disjoint ranges, this is so exactly when on shared pages both put the same bytes (`AgreesOnShared`),
that is, when the earlier segment has nothing but zeros there (`sparesEarlier_iff`).
-/

set_option autoImplicit false
set_option relaxedAutoImplicit false

namespace MegKer.Process

open Foundation Memory Vmm

section Definitions

variable (port : Port) (kmalloc : Spaces → Spaces) (image : Image) (s : Spaces)

/-- The state after the first `n` headers. -/
def segmentsLoaded (n : ℕ) : Loader :=
  (List.range n).foldl (loadSegment port.backend image (.user s.next))
    (started port.backend kmalloc image s)

/-- The bytes of an earlier segment are the same before and after a segment is processed. -/
def SparesEarlier : Prop :=
  ∀ i < image.ePhnum, ∀ j < i, ∀ v, (image.programHeader j).Occupies v →
    byteIn port.backend (segmentsLoaded port kmalloc image s (i + 1)).spaces (.user s.next) v =
      byteIn port.backend (segmentsLoaded port kmalloc image s i).spaces (.user s.next) v

/-- No two segments occupy the same address. -/
def OccupyApart : Prop :=
  ∀ i < image.ePhnum, ∀ j < image.ePhnum, i ≠ j →
    ∀ v, (image.programHeader i).Occupies v → ¬ (image.programHeader j).Occupies v

/-- Where the pages or the file bytes of a segment meet an earlier one, both put the same byte. -/
def AgreesOnShared : Prop :=
  ∀ i < image.ePhnum, ∀ j < i, ∀ v, (image.programHeader j).Occupies v →
    (image.programHeader i).Fills v →
      (image.programHeader i).content image v = (image.programHeader j).content image v

/-- Earlier segments have only zeros on the pages of later ones. -/
def ZeroOnShared : Prop :=
  ∀ i < image.ePhnum, ∀ j < i, ∀ v, (image.programHeader j).Occupies v →
    (image.programHeader i).Covers v → (image.programHeader j).content image v = 0

variable {port kmalloc image s}

theorem segmentsLoaded_eq (n : ℕ) :
    segmentsLoaded port kmalloc image s n = loadedBy port kmalloc image s (segmentsPlan image n) := by
  rw [loadedBy, segmentsPlan, List.foldl_flatMap]
  simp only [← loadSegment_eq]
  rfl

/-- The loop over the headers is the first part of `process_run`. -/
theorem processRun_segments (hvalid : elfValid port.elfMachine image = true) :
    port.processRun kmalloc image s = .entered
      ((List.range userStackPages).foldl
        (fun l i ↦ mapStackPage port.backend (.user s.next) l (stackPage port.userStackTop i))
        (segmentsLoaded port kmalloc image s image.ePhnum)) ⟨image.eEntry, port.userStackTop⟩ := by
  rw [Port.processRun_def, processRun, hvalid]
  rfl

end Definitions

section Overlap

variable {port : Port} {kmalloc : Spaces → Spaces} {image : Image} {s : Spaces}

/-- After some of the segments, the address space has the bytes of the abstract model. -/
theorem byteIn_segmentsLoaded (hs : port.Reachable s) (hheap : Allocates port kmalloc s)
    (himage : Mappable port image)
    (hwithin : WithinTables port image)
    (hframes : EnoughFrames port kmalloc s (plan port.userStackTop image)) {n v : ℕ} {byte : UInt8}
    (hn : n ≤ image.ePhnum) (hv : v < 4096 * port.paging.pages)
    (hbyte : image.loadedByte v n = some byte) :
    byteIn port.backend (segmentsLoaded port kmalloc image s n).spaces (.user s.next) v = byte := by
  have hplan : ∃ rest, plan port.userStackTop image = segmentsPlan image n ++ rest := by
    obtain ⟨d, hd⟩ := Nat.exists_eq_add_of_le hn
    refine ⟨((List.range d).map (n + ·)).flatMap (segmentPlan image) ++ stackPlan port.userStackTop,
      ?_⟩
    rw [plan, segmentsPlan, hd, List.range_add, List.flatMap_append, List.append_assoc]
  obtain ⟨rest, hrest⟩ := hplan
  rw [hrest] at hframes
  obtain ⟨root, frameOf, hshows, -⟩ :=
    exists_holds hs hheap (himage.admissible_segments n hn).1 hframes.of_append
  rw [segmentsLoaded_eq]
  exact hshows.byteIn_eq ((himage.read_segments hwithin hv n hn).1.trans hbyte)

/-- The bytes of a segment stay when all later ones agree with it. -/
theorem AgreesOnShared.loadedByte_eq (h : AgreesOnShared image) (himage : Mappable port image)
    {j v : ℕ} (hv : (image.programHeader j).Occupies v) :
    ∀ n ≤ image.ePhnum, j < n →
      image.loadedByte v n = some ((image.programHeader j).content image v) := by
  intro n
  induction n with
  | zero => exact fun _ hj ↦ absurd hj (Nat.not_lt_zero j)
  | succ n ih =>
    intro hn hj
    rw [Image.loadedByte]
    rcases Nat.lt_succ_iff_lt_or_eq.mp hj with hlt | rfl
    · split_ifs with hfills
      · rw [h n hn j hlt v hv hfills]
      · exact ih (by omega) hlt
    · have hfills : (image.programHeader j).Fills v :=
        Or.inl ((himage.noWrap j hn hv.1).covers_of_occupies hv)
      exact if_pos hfills

/-- On the machine, the bytes of earlier segments are spared if they are in the abstract model. -/
theorem sparesEarlier_iff_loadedByte (hs : port.Reachable s) (hheap : Allocates port kmalloc s)
    (himage : Mappable port image)
    (hwithin : WithinTables port image)
    (hframes : EnoughFrames port kmalloc s (plan port.userStackTop image)) :
    SparesEarlier port kmalloc image s ↔ ∀ i < image.ePhnum, ∀ j < i, ∀ v,
      (image.programHeader j).Occupies v → image.loadedByte v (i + 1) = image.loadedByte v i := by
  have hbytes : ∀ i < image.ePhnum, ∀ j < i, ∀ v, (image.programHeader j).Occupies v →
      (byteIn port.backend (segmentsLoaded port kmalloc image s (i + 1)).spaces (.user s.next) v =
        byteIn port.backend (segmentsLoaded port kmalloc image s i).spaces (.user s.next) v ↔
          image.loadedByte v (i + 1) = image.loadedByte v i) := by
    intro i hi j hj v hv
    have hcovers := (himage.noWrap j (by omega) hv.1).covers_of_occupies hv
    have hlt := hwithin j (by omega) v hcovers
    obtain ⟨before, hbefore⟩ := Option.ne_none_iff_exists'.mp
      (Image.loadedByte_ne_none (Or.inl hcovers) hj)
    obtain ⟨after, hafter⟩ := Option.ne_none_iff_exists'.mp
      (Image.loadedByte_ne_none (Or.inl hcovers) (Nat.lt_succ_of_lt hj))
    rw [byteIn_segmentsLoaded hs hheap himage hwithin hframes hi hlt hafter,
      byteIn_segmentsLoaded hs hheap himage hwithin hframes (by omega) hlt hbefore, hbefore, hafter,
      Option.some.injEq]
  exact forall₂_congr fun i hi ↦ forall₂_congr fun j hj ↦ forall₂_congr fun v hv ↦
    hbytes i hi j hj v hv

/-- In the abstract model, they are spared exactly when later segments agree with them. -/
theorem loadedByte_spared_iff (himage : Mappable port image) :
    (∀ i < image.ePhnum, ∀ j < i, ∀ v, (image.programHeader j).Occupies v →
      image.loadedByte v (i + 1) = image.loadedByte v i) ↔ AgreesOnShared image := by
  constructor
  · intro hspared i hi j hj v hv hfills
    have hkept : ∀ n ≤ image.ePhnum, j < n →
        image.loadedByte v n = image.loadedByte v (j + 1) := by
      intro n
      induction n with
      | zero => exact fun _ hj ↦ absurd hj (Nat.not_lt_zero j)
      | succ n ih =>
        intro hn hjn
        rcases Nat.lt_succ_iff_lt_or_eq.mp hjn with hlt | rfl
        · exact (hspared n hn j hlt v hv).trans (ih (by omega) hlt)
        · rfl
    have hown : (image.programHeader j).Fills v :=
      Or.inl ((himage.noWrap j (by omega) hv.1).covers_of_occupies hv)
    have hfirst : image.loadedByte v (j + 1) =
        some ((image.programHeader j).content image v) := if_pos hown
    have hlast : image.loadedByte v (i + 1) =
        some ((image.programHeader i).content image v) := if_pos hfills
    exact Option.some.inj (hlast.symm.trans ((hkept (i + 1) hi (by omega)).trans hfirst))
  · intro hagrees i hi j hj v hv
    rw [hagrees.loadedByte_eq himage hv (i + 1) hi (by omega),
      hagrees.loadedByte_eq himage hv i (by omega) hj]

/-- When the bytes of the file fit into their segments, agreeing means that the earlier one has
zeros. -/
theorem agreesOnShared_iff_zero (himage : Mappable port image) (hapart : OccupyApart image)
    (hfilesz : ∀ i < image.ePhnum, (image.programHeader i).isLoad = true →
      (image.programHeader i).pFilesz ≤ (image.programHeader i).pMemsz) :
    AgreesOnShared image ↔ ZeroOnShared image := by
  have hzero : ∀ i < image.ePhnum, ∀ j < i, ∀ v, (image.programHeader j).Occupies v →
      (image.programHeader i).isLoad = true → (image.programHeader i).content image v = 0 := by
    intro i hi j hj v hv hload
    refine if_neg fun hin ↦ hapart i hi j (by omega) (by omega) v ⟨hload, hin.1, ?_⟩ hv
    have hle := hfilesz i hi hload
    omega
  constructor
  · intro h i hi j hj v hv hcovers
    rw [← h i hi j hj v hv (Or.inl hcovers)]
    exact hzero i hi j hj v hv hcovers.1
  · intro h i hi j hj v hv hfills
    have hcovers : (image.programHeader i).Covers v := by
      rcases hfills with hcovers | ⟨hload, hfirst, hlast⟩
      · exact hcovers
      · have hle := hfilesz i hi hload
        exact (himage.noWrap i hi hload).covers_of_occupies ⟨hload, hfirst, by omega⟩
    rw [h i hi j hj v hv hcovers]
    exact hzero i hi j hj v hv hcovers.1

end Overlap

/-! ### A shared page -/

/-- An image for aarch64 with two segments of four bytes on one page. The first has `filesz` bytes in
the file. -/
def sharedImage (filesz : ℕ) : Image :=
  .ofBytes (elfBytes emAarch64 0x80000000
    [phdrBytes 1 6 176 0x80000000 filesz 4, phdrBytes 1 6 180 0x80000800 4 4]
    [1, 2, 3, 4, 5, 6, 7, 8]) (by simp [ehdrSize, phdrSize])

/-- The fields of the two headers. -/
structure SharedHeaders (filesz : ℕ) : Prop where
  ePhnum : (sharedImage filesz).ePhnum = 2
  isLoad : ∀ i < 2, ((sharedImage filesz).programHeader i).isLoad = true
  pVaddr : ∀ i < 2, ((sharedImage filesz).programHeader i).pVaddr = 0x80000000 + 0x800 * i
  pMemsz : ∀ i < 2, ((sharedImage filesz).programHeader i).pMemsz = 4
  pFilesz : ∀ i < 2, ((sharedImage filesz).programHeader i).pFilesz = if i = 0 then filesz else 4
  vstart : ∀ i < 2, ((sharedImage filesz).programHeader i).vstart = 0x80000000
  vend : ∀ i < 2, ((sharedImage filesz).programHeader i).vend = 0x80001000

theorem sharedHeaders_zero : SharedHeaders 0 :=
  ⟨by decide +kernel, by decide +kernel, by decide +kernel, by decide +kernel, by decide +kernel,
    by decide +kernel, by decide +kernel⟩

theorem sharedHeaders_four : SharedHeaders 4 :=
  ⟨by decide +kernel, by decide +kernel, by decide +kernel, by decide +kernel, by decide +kernel,
    by decide +kernel, by decide +kernel⟩

namespace SharedHeaders

variable {filesz : ℕ} (h : SharedHeaders filesz)

include h

theorem covers_iff {i v : ℕ} (hi : i < 2) :
    ((sharedImage filesz).programHeader i).Covers v ↔ 0x80000000 ≤ v ∧ v < 0x80001000 := by
  rw [ProgramHeader.Covers, h.vstart i hi, h.vend i hi]
  exact and_iff_right (h.isLoad i hi)

theorem occupies_iff {i v : ℕ} (hi : i < 2) :
    ((sharedImage filesz).programHeader i).Occupies v ↔
      0x80000000 + 0x800 * i ≤ v ∧ v < 0x80000000 + 0x800 * i + 4 := by
  rw [ProgramHeader.Occupies, h.pVaddr i hi, h.pMemsz i hi]
  exact and_iff_right (h.isLoad i hi)

theorem filesz_le (hfilesz : filesz ≤ 4) :
    ∀ i < (sharedImage filesz).ePhnum, ((sharedImage filesz).programHeader i).isLoad = true →
      ((sharedImage filesz).programHeader i).pFilesz ≤
        ((sharedImage filesz).programHeader i).pMemsz := by
  rw [h.ePhnum]
  intro i hi _
  rw [h.pFilesz i hi, h.pMemsz i hi]
  split_ifs
  · exact hfilesz
  · exact le_rfl

theorem frames (hfilesz : filesz ≤ 4) :
    EnoughFrames (.aarch64 AArch64.Boot.sample) (takeArena AArch64.backend) AArch64.Boot.sample.spaces
      (plan userStackTopAarch64 (sharedImage filesz)) := by
  refine sample_enoughFrames ((length_plan_le 5 fun i hi ↦ ?_).trans ?_)
  · rw [h.ePhnum] at hi
    rw [ProgramHeader.pageCount, h.vstart i hi, h.vend i hi, h.pFilesz i hi]
    split_ifs <;> omega
  · rw [h.ePhnum]
    decide

/-- The two segments can be mapped, and occupy disjoint ranges. -/
theorem loadable (hfilesz : filesz ≤ 4) :
    Mappable (.aarch64 AArch64.Boot.sample) (sharedImage filesz) ∧
    WithinTables (.aarch64 AArch64.Boot.sample) (sharedImage filesz) ∧
    OccupyApart (sharedImage filesz) := by
  have hwrap : ∀ i < 2, ((sharedImage filesz).programHeader i).NoWrap := by
    intro i hi
    rw [ProgramHeader.NoWrap, h.pVaddr i hi, h.pMemsz i hi]
    omega
  have hbits : (Port.aarch64 AArch64.Boot.sample).vaBits = 39 := rfl
  refine ⟨⟨?_, ?_, ?_⟩, ?_, ?_⟩
  · rw [h.ePhnum]
    exact fun i hi _ ↦ hwrap i hi
  · rw [h.ePhnum]
    intro i hi v hv
    have hbounds := (h.covers_iff hi).mp hv
    rw [pageOf_eq_div (by rw [hbits]; omega)]
    change 0x80000 ≤ v / 4096
    omega
  · intro i hi v ⟨hload, hfirst, hlast⟩
    have hle := h.filesz_le hfilesz i hi hload
    rw [h.ePhnum] at hi
    exact ⟨i, le_rfl, (hwrap i hi).covers_of_occupies ⟨hload, hfirst, by omega⟩⟩
  · rw [WithinTables, h.ePhnum, Port.size_pages, hbits]
    intro i hi v hv
    have hbounds := (h.covers_iff hi).mp hv
    omega
  · rw [OccupyApart, h.ePhnum]
    intro i hi j hj hne v hv hother
    have hbounds := (h.occupies_iff hi).mp hv
    have hotherBounds := (h.occupies_iff hj).mp hother
    omega

end SharedHeaders

/-- The second segment clears the first one, which occupies other addresses of the same page. -/
theorem not_sparesEarlier_shared :
    elfValid emAarch64 (sharedImage 4) = true ∧
    Mappable (.aarch64 AArch64.Boot.sample) (sharedImage 4) ∧
    WithinTables (.aarch64 AArch64.Boot.sample) (sharedImage 4) ∧
    OccupyApart (sharedImage 4) ∧
    EnoughFrames (.aarch64 AArch64.Boot.sample) (takeArena AArch64.backend) AArch64.Boot.sample.spaces
      (plan userStackTopAarch64 (sharedImage 4)) ∧
    ¬ SparesEarlier (.aarch64 AArch64.Boot.sample) (takeArena AArch64.backend) (sharedImage 4)
      AArch64.Boot.sample.spaces := by
  have hheaders := sharedHeaders_four
  obtain ⟨himage, hwithin, hapart⟩ := hheaders.loadable le_rfl
  have hframes := hheaders.frames le_rfl
  refine ⟨by decide +kernel, himage, hwithin, hapart, hframes, fun hspares ↦ ?_⟩
  have hagrees := (loadedByte_spared_iff himage).mp ((sparesEarlier_iff_loadedByte
    (Port.reachable_spaces (.aarch64 AArch64.Boot.sample)) (takeArena_allocates _ _) himage hwithin
    hframes).mp hspares)
  have hsame := hagrees 1 (by rw [hheaders.ePhnum]; decide) 0 (by decide) 0x80000000
    ((hheaders.occupies_iff (by decide)).mpr (by decide))
    (Or.inl ((hheaders.covers_iff (by decide)).mpr (by decide)))
  revert hsame
  decide +kernel

/-- On either port, after every run in which no request for a frame has failed, for every image whose
segments occupy disjoint ranges and can be mapped, and with enough frames: no segment changes the bytes
of an earlier one exactly if, wherever the pages of a segment meet an earlier one, both put the same
byte there. Where the bytes of the file fit into their segments, this means that the earlier one has
only zeros there. -/
theorem sparesEarlier_iff (port : Port) (kmalloc : Spaces → Spaces) (image : Image) (s : Spaces)
    (hs : port.Reachable s) (hheap : Allocates port kmalloc s)
    (himage : Mappable port image) (hwithin : WithinTables port image) (hapart : OccupyApart image)
    (hframes : EnoughFrames port kmalloc s (plan port.userStackTop image)) :
    (SparesEarlier port kmalloc image s ↔ AgreesOnShared image) ∧
      ((∀ i < image.ePhnum, (image.programHeader i).isLoad = true →
        (image.programHeader i).pFilesz ≤ (image.programHeader i).pMemsz) →
          (SparesEarlier port kmalloc image s ↔ ZeroOnShared image)) := by
  have hagrees : SparesEarlier port kmalloc image s ↔ AgreesOnShared image :=
    (sparesEarlier_iff_loadedByte hs hheap himage hwithin hframes).trans (loadedByte_spared_iff himage)
  exact ⟨hagrees, fun hfilesz ↦ hagrees.trans (agreesOnShared_iff_zero himage hapart hfilesz)⟩

/-- A first segment without bytes in the file is spared, even on a shared page. -/
theorem sparesEarlier_iff_shared :
    SparesEarlier (.aarch64 AArch64.Boot.sample) (takeArena AArch64.backend) (sharedImage 0)
      AArch64.Boot.sample.spaces := by
  have hheaders := sharedHeaders_zero
  obtain ⟨himage, hwithin, hapart⟩ := hheaders.loadable (by decide)
  have hframes := hheaders.frames (Nat.zero_le 4)
  refine ((sparesEarlier_iff _ _ _ _ (Port.reachable_spaces _) (takeArena_allocates _ _) himage hwithin
    hapart hframes).2 (hheaders.filesz_le (by decide))).mpr fun i hi j hj v _ _ ↦ ?_
  rw [hheaders.ePhnum] at hi
  obtain rfl : j = 0 := by omega
  refine if_neg fun hin ↦ ?_
  rw [hheaders.pFilesz 0 (by decide)] at hin
  simp only [if_true] at hin
  omega

end MegKer.Process
