import MegKer.Process.UserSpace
import MegKer.Vmm.UserAccess

/-!
# What the plan of an image builds

The plan of an image, carried out in the abstract model. A segment replaces the pages of its rounded
range: each byte there is the byte of the file that belongs to it, or 0 (`content`), whatever was
there before (`read_plan`). So at the end of the loop a byte is what the last segment puts there that
has its page (`read_segments`).

`MapsWithin` is the condition on a segment under which its steps are admissible: its rounded range
does not wrap, lies off the identity map, and contains the addresses of its file bytes.
`exists_holds_segments` carries the abstract result over to the machine.
-/

set_option autoImplicit false
set_option relaxedAutoImplicit false

namespace MegKer.Process

open Foundation Memory Vmm Finset

/-! ### Rounded ranges -/

namespace ProgramHeader

variable {ph : ProgramHeader}

theorem vstart_eq (ph : ProgramHeader) : ph.vstart = ph.pVaddr / 4096 * 4096 := by
  have hdown : alignDown ph.pVaddr (2 ^ 12) = ph.pVaddr / 2 ^ 12 * 2 ^ 12 :=
    alignDown_two_pow ph.pVaddr_lt (by norm_num)
  exact hdown

/-- The end of the segment, rounded up to pages, is an address of 64 bits. -/
def NoWrap (ph : ProgramHeader) : Prop := ph.pVaddr + ph.pMemsz + 4095 < 2 ^ 64

theorem NoWrap.vend_eq (h : ph.NoWrap) : ph.vend = (ph.pVaddr + ph.pMemsz + 4095) / 4096 * 4096 := by
  unfold NoWrap at h
  have hsum : wrap (ph.pVaddr + ph.pMemsz) = ph.pVaddr + ph.pMemsz := wrap_of_lt (by omega)
  have hup : alignUp (ph.pVaddr + ph.pMemsz) (2 ^ 12) =
      (ph.pVaddr + ph.pMemsz + 2 ^ 12 - 1) / 2 ^ 12 * 2 ^ 12 :=
    alignUp_two_pow (by omega) (by norm_num)
  rw [vend, hsum]
  exact hup

theorem NoWrap.pageCount_eq (h : ph.NoWrap) : ph.vstart + 4096 * ph.pageCount = ph.vend := by
  have hend := h.vend_eq
  have hstart := ph.vstart_eq
  unfold pageCount
  omega

/-- The address lies on a page of the segment. -/
def Covers (ph : ProgramHeader) (v : ℕ) : Prop := ph.isLoad = true ∧ ph.vstart ≤ v ∧ v < ph.vend

instance (ph : ProgramHeader) (v : ℕ) : Decidable (ph.Covers v) :=
  inferInstanceAs (Decidable (_ ∧ _ ∧ _))

/-- The address is one of the bytes of the segment in memory. -/
def Occupies (ph : ProgramHeader) (v : ℕ) : Prop :=
  ph.isLoad = true ∧ ph.pVaddr ≤ v ∧ v < ph.pVaddr + ph.pMemsz

theorem NoWrap.covers_of_occupies (h : ph.NoWrap) {v : ℕ} (hv : ph.Occupies v) : ph.Covers v := by
  obtain ⟨hload, hfirst, hlast⟩ := hv
  refine ⟨hload, ?_, ?_⟩
  · rw [vstart_eq]
    omega
  · rw [h.vend_eq]
    omega

/-- The address is one that a byte of the file goes to. -/
def InFile (ph : ProgramHeader) (v : ℕ) : Prop :=
  ph.isLoad = true ∧ ph.pVaddr ≤ v ∧ v < ph.pVaddr + ph.pFilesz

instance (ph : ProgramHeader) (v : ℕ) : Decidable (ph.InFile v) :=
  inferInstanceAs (Decidable (_ ∧ _ ∧ _))

/-- The loading of the segment decides the byte at the address. -/
def Fills (ph : ProgramHeader) (v : ℕ) : Prop := ph.Covers v ∨ ph.InFile v

instance (ph : ProgramHeader) (v : ℕ) : Decidable (ph.Fills v) :=
  inferInstanceAs (Decidable (_ ∨ _))

/-- The byte that the segment puts at an address: the byte of the file, or 0. -/
def content (ph : ProgramHeader) (image : Image) (v : ℕ) : UInt8 :=
  if ph.pVaddr ≤ v ∧ v < ph.pVaddr + ph.pFilesz then image.byte (wrap (ph.pOffset + (v - ph.pVaddr)))
  else 0

end ProgramHeader

/-! ### Reading the abstract model -/

section Read

variable {backend : Backend} (paging : Paging backend) (image : Image)

/-- The byte at a virtual address, when it is known. -/
def UserSpace.read (u : UserSpace) (v : ℕ) : Option UInt8 :=
  (u (paging.pageOf v)).bind fun page ↦ page.bytes.map fun bytes ↦ bytes (v % 4096)

/-- The flags with which a page was mapped. -/
def UserSpace.flagsAt (u : UserSpace) (v : ℕ) : Option ℕ :=
  (u (paging.pageOf v)).map UserPage.flags

variable {paging image} {u : UserSpace}

/-- In the range of the tables, two addresses with the same page and offset are the same. -/
theorem Paging.eq_of_pageOf {v w : ℕ} (hv : v < 4096 * paging.pages) (hw : w < 4096 * paging.pages)
    (hpage : paging.pageOf v = paging.pageOf w) (hoffset : v % 4096 = w % 4096) : v = w := by
  rw [Paging.pageOf_of_lt (Nat.div_lt_of_lt_mul hv), Paging.pageOf_of_lt (Nat.div_lt_of_lt_mul hw)]
    at hpage
  omega

theorem read_step_page (va flags v : ℕ) :
    (u.step paging image (.page va flags)).read paging v =
      if paging.pageOf v = paging.pageOf va then some 0 else u.read paging v := by
  rw [UserSpace.read, UserSpace.step, UserSpace.read]
  split_ifs with heq
  · rw [heq, Function.update_self]
    rfl
  · rw [Function.update_of_ne heq]

theorem flagsAt_step_page (va flags v : ℕ) :
    (u.step paging image (.page va flags)).flagsAt paging v =
      if paging.pageOf v = paging.pageOf va then some flags else u.flagsAt paging v := by
  rw [UserSpace.flagsAt, UserSpace.step, UserSpace.flagsAt]
  split_ifs with heq
  · rw [heq, Function.update_self]
    rfl
  · rw [Function.update_of_ne heq]

theorem read_step_copy {va v : ℕ} (offset : ℕ) (hva : va < 4096 * paging.pages)
    (hv : v < 4096 * paging.pages) :
    (u.step paging image (.copy va offset)).read paging v =
      if v = va then (u.read paging v).map fun _ ↦ image.byte offset else u.read paging v := by
  rw [UserSpace.read, UserSpace.step, UserSpace.read]
  by_cases hpage : paging.pageOf v = paging.pageOf va
  · rw [hpage, Function.update_self]
    cases hu : u (paging.pageOf va) with
    | none => simp
    | some content =>
      simp only [Option.map_some, Option.bind_some, Option.map_map]
      by_cases heq : v = va
      · rw [if_pos heq, heq]
        congr 1
        funext bytes
        exact Function.update_self _ _ _
      · have hoffset : v % 4096 ≠ va % 4096 := fun h ↦ heq (Paging.eq_of_pageOf hv hva hpage h)
        rw [if_neg heq]
        congr 1
        funext bytes
        exact Function.update_of_ne hoffset _ _
  · have heq : v ≠ va := fun h ↦ hpage (by rw [h])
    rw [Function.update_of_ne hpage, if_neg heq]

theorem flagsAt_step_copy (va offset v : ℕ) :
    (u.step paging image (.copy va offset)).flagsAt paging v = u.flagsAt paging v := by
  rw [UserSpace.flagsAt, UserSpace.step, UserSpace.flagsAt]
  by_cases hpage : paging.pageOf v = paging.pageOf va
  · rw [hpage, Function.update_self, Option.map_map]
    rfl
  · rw [Function.update_of_ne hpage]

/-- Mapping a page elsewhere changes nothing here. -/
theorem step_stack_of_ne {va page : ℕ} (hne : page ≠ paging.pageOf va) :
    u.step paging image (.stack va) page = u page :=
  Function.update_of_ne hne _ _

/-! ### One segment -/

variable (u image) in
/-- The pages of a segment are zero, and have its flags. -/
theorem read_pages (vstart flags n : ℕ) (hstart : 4096 ∣ vstart)
    (hend : ∀ k < n, vstart + 4096 * k < 4096 * paging.pages) {v : ℕ}
    (hv : v < 4096 * paging.pages) :
    let after := u.run paging image ((List.range n).map fun k ↦ .page (vstart + 4096 * k) flags)
    (after.read paging v =
      if vstart ≤ v ∧ v < vstart + 4096 * n then some 0 else u.read paging v) ∧
    (after.flagsAt paging v =
      if vstart ≤ v ∧ v < vstart + 4096 * n then some flags else u.flagsAt paging v) := by
  induction n with
  | zero => exact ⟨(if_neg (by omega)).symm, (if_neg (by omega)).symm⟩
  | succ n ih =>
    obtain ⟨hread, hflags⟩ := ih fun k hk ↦ hend k (by omega)
    have hlast : vstart + 4096 * n < 4096 * paging.pages := hend n (by omega)
    have hpage : paging.pageOf v = paging.pageOf (vstart + 4096 * n) ↔
        vstart + 4096 * n ≤ v ∧ v < vstart + 4096 * (n + 1) := by
      rw [Paging.pageOf_of_lt (Nat.div_lt_of_lt_mul hv),
        Paging.pageOf_of_lt (Nat.div_lt_of_lt_mul hlast)]
      omega
    dsimp only at hread hflags ⊢
    rw [List.range_succ, List.map_append, List.map_singleton, UserSpace.run_append,
      UserSpace.run_singleton]
    rw [read_step_page, flagsAt_step_page, hread, hflags]
    by_cases hnew : paging.pageOf v = paging.pageOf (vstart + 4096 * n)
    · have hrange := hpage.mp hnew
      rw [if_pos hnew, if_pos hnew, if_pos (by omega), if_pos (by omega)]
      exact ⟨rfl, rfl⟩
    · have hrange := fun h ↦ hnew (hpage.mpr h)
      rw [if_neg hnew, if_neg hnew]
      exact ⟨if_congr (by omega) rfl rfl, if_congr (by omega) rfl rfl⟩

variable (u image) in
/-- The bytes of the file go to their addresses. -/
theorem read_copies (first offset n : ℕ)
    (hend : ∀ off < n, first + off < 4096 * paging.pages ∧ first + off < 2 ^ 64) {v : ℕ}
    (hv : v < 4096 * paging.pages) :
    let after := u.run paging image
      ((List.range n).map fun off ↦ .copy (wrap (first + off)) (wrap (offset + off)))
    (after.read paging v =
      if first ≤ v ∧ v < first + n then
        (u.read paging v).map fun _ ↦ image.byte (wrap (offset + (v - first)))
      else u.read paging v) ∧
    after.flagsAt paging v = u.flagsAt paging v := by
  induction n with
  | zero => exact ⟨(if_neg (by omega)).symm, rfl⟩
  | succ n ih =>
    obtain ⟨hread, hflags⟩ := ih fun off hoff ↦ hend off (by omega)
    obtain ⟨hrange, hlt⟩ := hend n (by omega)
    have hva : wrap (first + n) = first + n := wrap_of_lt hlt
    dsimp only at hread hflags ⊢
    rw [List.range_succ, List.map_append, List.map_singleton, UserSpace.run_append,
      UserSpace.run_singleton]
    rw [hva, read_step_copy _ hrange hv, flagsAt_step_copy, hread, hflags]
    refine ⟨?_, rfl⟩
    by_cases heq : v = first + n
    · rw [if_pos heq, if_neg (by omega), if_pos (by omega), heq, Nat.add_sub_cancel_left]
    · rw [if_neg heq]
      exact if_congr (by omega) rfl rfl

variable (u image) in
/-- Within the range of the tables, a segment decides the bytes of its pages and of its file, and the
flags of its pages, and leaves the rest. A byte of the file needs a page to go to. -/
theorem read_plan {ph : ProgramHeader} (hwrap : ph.isLoad = true → ph.NoWrap)
    (hcovers : ∀ v, ph.Covers v → v < 4096 * paging.pages)
    (hfile : ∀ v, ph.InFile v → v < 4096 * paging.pages ∧ v < 2 ^ 64) {v : ℕ}
    (hv : v < 4096 * paging.pages)
    (hpage : ph.InFile v → ¬ ph.Covers v → u.read paging v ≠ none) :
    ((u.run paging image ph.plan).read paging v =
      if ph.Fills v then some (ph.content image v) else u.read paging v) ∧
    ((u.run paging image ph.plan).flagsAt paging v =
      if ph.Covers v then some ph.segFlags else u.flagsAt paging v) := by
  unfold ProgramHeader.plan
  by_cases hload : ph.isLoad = true
  · have hcount := (hwrap hload).pageCount_eq
    have hstart : 4096 ∣ ph.vstart := by
      rw [ph.vstart_eq]
      exact Dvd.intro_left _ rfl
    have hpages : ∀ k < ph.pageCount, ph.vstart + 4096 * k < 4096 * paging.pages :=
      fun k hk ↦ hcovers _ ⟨hload, by omega, by omega⟩
    have hbytes : ∀ off < ph.pFilesz,
        ph.pVaddr + off < 4096 * paging.pages ∧ ph.pVaddr + off < 2 ^ 64 :=
      fun off hoff ↦ hfile _ ⟨hload, by omega, by omega⟩
    have hCovers : ph.Covers v ↔ ph.vstart ≤ v ∧ v < ph.vstart + 4096 * ph.pageCount := by
      rw [hcount]
      exact and_iff_right hload
    have hInFile : ph.InFile v ↔ ph.pVaddr ≤ v ∧ v < ph.pVaddr + ph.pFilesz := and_iff_right hload
    obtain ⟨hzero, hflags⟩ := read_pages image u ph.vstart ph.segFlags ph.pageCount hstart hpages hv
    rw [← ProgramHeader.pagePlan, if_congr hCovers.symm rfl rfl] at hzero hflags
    obtain ⟨hcopied, hkept⟩ := read_copies image (u.run paging image ph.pagePlan) ph.pVaddr ph.pOffset
      ph.pFilesz hbytes hv
    rw [← ProgramHeader.copyPlan] at hcopied hkept
    rw [if_congr hInFile.symm rfl rfl, hzero] at hcopied
    rw [if_pos hload, UserSpace.run_append, hcopied, hkept, hflags, ProgramHeader.content,
      if_congr hInFile.symm rfl rfl]
    refine ⟨?_, rfl⟩
    by_cases hin : ph.InFile v
    · have hfills : ph.Fills v := Or.inr hin
      rw [if_pos hin, if_pos hin, if_pos hfills]
      by_cases hcover : ph.Covers v
      · rw [if_pos hcover, Option.map_some]
      · obtain ⟨byte, hbyte⟩ := Option.ne_none_iff_exists'.mp (hpage hin hcover)
        rw [if_neg hcover, hbyte, Option.map_some]
    · rw [if_neg hin, if_neg hin]
      exact if_congr (or_iff_left hin).symm rfl rfl
  · have hcover : ¬ ph.Covers v := fun h ↦ hload h.1
    have hin : ¬ ph.InFile v := fun h ↦ hload h.1
    have hfills : ¬ ph.Fills v := not_or.mpr ⟨hcover, hin⟩
    rw [if_neg hload, if_neg hfills, if_neg hcover]
    exact ⟨rfl, rfl⟩

/-! ### Which pages are mapped -/

theorem step_ne_none {page : ℕ} (hpage : u page ≠ none) (op : LoadOp) :
    u.step paging image op page ≠ none := by
  have hupdate : ∀ {target : ℕ} {content : Option UserPage}, (page = target → content ≠ none) →
      Function.update u target content page ≠ none := by
    intro target content hcontent
    by_cases heq : page = target
    · rw [heq, Function.update_self]
      exact hcontent heq
    · rwa [Function.update_of_ne heq]
  cases op with
  | note offsets => exact hpage
  | page va flags => exact hupdate fun _ ↦ Option.some_ne_none _
  | copy va offset =>
    refine hupdate fun heq hnone ↦ hpage ?_
    rw [heq]
    exact Option.map_eq_none_iff.mp hnone
  | stack va => exact hupdate fun _ ↦ Option.some_ne_none _

theorem run_ne_none {page : ℕ} (ops : List LoadOp) :
    ∀ {u : UserSpace}, u page ≠ none → u.run paging image ops page ≠ none := by
  induction ops with
  | nil => exact fun h ↦ h
  | cons op ops ih => exact fun h ↦ ih (step_ne_none h op)

theorem run_ne_none_of_mem {page : ℕ} {op : LoadOp} (htarget : op.target paging = some page)
    {ops : List LoadOp} (hmem : op ∈ ops) : u.run paging image ops page ≠ none := by
  obtain ⟨earlier, later, rfl⟩ := List.append_of_mem hmem
  rw [UserSpace.run_append]
  refine run_ne_none (u := (u.run paging image earlier).step paging image op) later ?_
  cases op with
  | note offsets => exact absurd htarget (Option.some_ne_none _).symm
  | copy va offset => exact absurd htarget (Option.some_ne_none _).symm
  | page va flags =>
    rw [UserSpace.step, Option.some.inj htarget, Function.update_self]
    exact Option.some_ne_none _
  | stack va =>
    rw [UserSpace.step, Option.some.inj htarget, Function.update_self]
    exact Option.some_ne_none _

/-- Steps are admissible when each of them is admitted wherever at least the present pages are
mapped. -/
theorem admissible_of_forall {blocks : ℕ → Option ℕ} {ops : List LoadOp} :
    ∀ {u : UserSpace}, (∀ op ∈ ops, ∀ u' : UserSpace, (∀ page, u page ≠ none → u' page ≠ none) →
      op.Admitted paging blocks u') → Admissible paging image blocks u ops := by
  induction ops with
  | nil => exact fun _ ↦ trivial
  | cons op ops ih =>
    intro u h
    refine ⟨h op List.mem_cons_self u fun _ hpage ↦ hpage, ih fun other hother u' hu' ↦ ?_⟩
    exact h other (List.mem_cons_of_mem _ hother) u' fun page hpage ↦ hu' page (step_ne_none hpage op)

theorem hasFlags_segFlags (ph : ProgramHeader) : hasFlags ph.segFlags presentFlag = true := by
  unfold ProgramHeader.segFlags
  dsimp only
  split_ifs <;> decide

/-- The pages of a segment are mapped by its steps. -/
theorem run_plan_ne_none {ph : ProgramHeader} (hwrap : ph.NoWrap) {v : ℕ} (hv : ph.Covers v) :
    u.run paging image ph.pagePlan (paging.pageOf v) ≠ none := by
  obtain ⟨-, hfirst, hlast⟩ := hv
  have hcount := hwrap.pageCount_eq
  have hstart := ph.vstart_eq
  have hmem : .page (ph.vstart + 4096 * ((v - ph.vstart) / 4096)) ph.segFlags ∈ ph.pagePlan :=
    List.mem_map_of_mem (List.mem_range.mpr (by omega))
  have hpage : (ph.vstart + 4096 * ((v - ph.vstart) / 4096)) / 4096 = v / 4096 := by omega
  refine run_ne_none_of_mem ?_ hmem
  rw [LoadOp.target, Paging.pageOf, hpage]
  rfl

/-- The steps of a segment are admissible when its pages lie off the blocks, and its bytes go to its
own pages or to pages that are mapped already. -/
theorem admissible_plan {blocks : ℕ → Option ℕ} {ph : ProgramHeader}
    (hwrap : ph.isLoad = true → ph.NoWrap)
    (hblocks : ∀ v, ph.Covers v → blocks (paging.pageOf v) = none)
    (hfile : ∀ v, ph.InFile v → v < 2 ^ 64 ∧ (ph.Covers v ∨ u (paging.pageOf v) ≠ none)) :
    Admissible paging image blocks u ph.plan := by
  unfold ProgramHeader.plan
  split_ifs with hload
  · rw [admissible_append]
    refine ⟨admissible_of_forall fun op hop u' _ ↦ ?_, admissible_of_forall fun op hop u' hu' ↦ ?_⟩
    · obtain ⟨k, hk, rfl⟩ := List.mem_map.mp hop
      have hcount := (hwrap hload).pageCount_eq
      have hlt := List.mem_range.mp hk
      exact ⟨hblocks _ ⟨hload, by omega, by omega⟩, hasFlags_segFlags ph⟩
    · obtain ⟨off, hoff, rfl⟩ := List.mem_map.mp hop
      have hlt := List.mem_range.mp hoff
      obtain ⟨hrange, hpage⟩ := hfile (ph.pVaddr + off) ⟨hload, by omega, by omega⟩
      refine hu' _ ?_
      rw [wrap_of_lt hrange]
      exact hpage.elim (run_plan_ne_none (hwrap hload)) (run_ne_none _)
  · trivial

end Read

/-! ### All segments -/

/-- What is done for the first `n` headers. -/
def segmentsPlan (image : Image) (n : ℕ) : List LoadOp := (List.range n).flatMap (segmentPlan image)

theorem segmentsPlan_succ (image : Image) (n : ℕ) :
    segmentsPlan image (n + 1) = segmentsPlan image n ++ segmentPlan image n := by
  rw [segmentsPlan, List.range_succ, List.flatMap_append, List.flatMap_singleton]
  rfl

namespace Image

variable (image : Image) (v : ℕ)

/-- The byte that the first `n` segments leave at an address. -/
def loadedByte : ℕ → Option UInt8
  | 0 => none
  | n + 1 =>
    if (image.programHeader n).Fills v then some ((image.programHeader n).content image v)
    else loadedByte n

/-- The flags that the first `n` segments leave the page of an address with. -/
def loadedFlags : ℕ → Option ℕ
  | 0 => none
  | n + 1 =>
    if (image.programHeader n).Covers v then some (image.programHeader n).segFlags else loadedFlags n

variable {image v}

theorem loadedByte_ne_none {k : ℕ} (hk : (image.programHeader k).Fills v) :
    ∀ {n : ℕ}, k < n → image.loadedByte v n ≠ none
  | n + 1, hlt => by
    rw [loadedByte]
    split_ifs with hfills
    · exact Option.some_ne_none _
    · have hne : k ≠ n := by
        rintro rfl
        exact hfills hk
      exact loadedByte_ne_none hk (by omega)

/-- A byte stays as a segment has put it when no later one touches it. -/
theorem loadedByte_of_last {k : ℕ} (hk : (image.programHeader k).Fills v) :
    ∀ {n : ℕ}, k < n → (∀ i < n, k < i → ¬ (image.programHeader i).Fills v) →
      image.loadedByte v n = some ((image.programHeader k).content image v)
  | n + 1, hlt, hlater => by
    rw [loadedByte]
    rcases Nat.lt_succ_iff_lt_or_eq.mp hlt with hbefore | rfl
    · rw [if_neg (hlater n (by omega) hbefore)]
      exact loadedByte_of_last hk hbefore fun i hi ↦ hlater i (by omega)
    · exact if_pos hk

theorem loadedFlags_of_last {k : ℕ} (hk : (image.programHeader k).Covers v) :
    ∀ {n : ℕ}, k < n → (∀ i < n, k < i → ¬ (image.programHeader i).Covers v) →
      image.loadedFlags v n = some (image.programHeader k).segFlags
  | n + 1, hlt, hlater => by
    rw [loadedFlags]
    rcases Nat.lt_succ_iff_lt_or_eq.mp hlt with hbefore | rfl
    · rw [if_neg (hlater n (by omega) hbefore)]
      exact loadedFlags_of_last hk hbefore fun i hi ↦ hlater i (by omega)
    · exact if_pos hk

theorem loadedFlags_eq_none :
    ∀ {n : ℕ}, (∀ i < n, ¬ (image.programHeader i).Covers v) → image.loadedFlags v n = none
  | 0, _ => rfl
  | n + 1, hnone => by
    rw [loadedFlags, if_neg (hnone n (by omega))]
    exact loadedFlags_eq_none fun i hi ↦ hnone i (by omega)

end Image

section Segments

variable (port : Port) (image : Image)

/-- The segments of an image can be mapped: no rounded range wraps or lies on the identity map, and
every byte of the file goes to a page of its segment, or of an earlier one. -/
structure Mappable : Prop where
  noWrap : ∀ i < image.ePhnum, (image.programHeader i).isLoad = true →
    (image.programHeader i).NoWrap
  off_identity : ∀ i < image.ePhnum, ∀ v, (image.programHeader i).Covers v →
    port.identityPages ≤ port.paging.pageOf v
  file_mapped : ∀ i < image.ePhnum, ∀ v, (image.programHeader i).InFile v →
    ∃ k ≤ i, (image.programHeader k).Covers v

/-- The pages of the segments are within the range of the tables. -/
def WithinTables : Prop :=
  ∀ i < image.ePhnum, ∀ v, (image.programHeader i).Covers v → v < 4096 * port.paging.pages

variable {port image}

theorem Mappable.lt_of_covers (h : Mappable port image) {i v : ℕ} (hi : i < image.ePhnum)
    (hv : (image.programHeader i).Covers v) : v < 2 ^ 64 := by
  have hwrap := h.noWrap i hi hv.1
  have hend := hwrap.vend_eq
  have hlt := hv.2.2
  unfold ProgramHeader.NoWrap at hwrap
  omega

/-- The steps for the segments are admissible, and map their pages. -/
theorem Mappable.admissible_segments (h : Mappable port image) :
    ∀ n ≤ image.ePhnum,
      Admissible port.paging image port.blocks UserSpace.empty (segmentsPlan image n) ∧
      ∀ k < n, ∀ v, (image.programHeader k).Covers v →
        UserSpace.empty.run port.paging image (segmentsPlan image n) (port.paging.pageOf v) ≠ none := by
  intro n
  induction n with
  | zero => exact fun _ ↦ ⟨trivial, fun k hk ↦ absurd hk (Nat.not_lt_zero k)⟩
  | succ n ih =>
    intro hn
    obtain ⟨hbefore, hmapped⟩ := ih (by omega)
    rw [segmentsPlan_succ, admissible_append, UserSpace.run_append]
    refine ⟨⟨hbefore, trivial, admissible_plan (h.noWrap n hn)
      (fun v hv ↦ (port.blocks_eq_none_iff _).mpr (h.off_identity n hn v hv)) fun v hv ↦ ?_⟩,
      fun k hk v hv ↦ ?_⟩
    · obtain ⟨k, hk, hcovers⟩ := h.file_mapped n hn v hv
      refine ⟨h.lt_of_covers (by omega) hcovers, ?_⟩
      rcases Nat.lt_or_eq_of_le hk with hlt | rfl
      · exact Or.inr (hmapped k hlt v hcovers)
      · exact Or.inl hcovers
    · rcases Nat.lt_succ_iff_lt_or_eq.mp hk with hlt | rfl
      · exact run_ne_none _ (hmapped k hlt v hv)
      · have hplan : (image.programHeader k).plan =
            (image.programHeader k).pagePlan ++ (image.programHeader k).copyPlan := if_pos hv.1
        change UserSpace.run port.paging image _ (image.programHeader k).plan _ ≠ none
        rw [hplan, UserSpace.run_append]
        exact run_ne_none _ (run_plan_ne_none (h.noWrap k hn hv.1) hv)

/-- What the segments leave at each address. -/
theorem Mappable.read_segments (h : Mappable port image) (hwithin : WithinTables port image) {v : ℕ}
    (hv : v < 4096 * port.paging.pages) :
    ∀ n ≤ image.ePhnum,
      (UserSpace.empty.run port.paging image (segmentsPlan image n)).read port.paging v =
        image.loadedByte v n ∧
      (UserSpace.empty.run port.paging image (segmentsPlan image n)).flagsAt port.paging v =
        image.loadedFlags v n := by
  intro n
  induction n with
  | zero => exact fun _ ↦ ⟨rfl, rfl⟩
  | succ n ih =>
    intro hn
    obtain ⟨hread, hflags⟩ := ih (by omega)
    have hplan := read_plan image (UserSpace.empty.run port.paging image (segmentsPlan image n))
      (h.noWrap n hn) (hwithin n hn) (fun w hw ↦ ?_) hv fun hin hnot ↦ ?_
    · rw [segmentsPlan_succ, UserSpace.run_append, Image.loadedByte, Image.loadedFlags, ← hread,
        ← hflags]
      exact hplan
    · obtain ⟨k, hk, hcovers⟩ := h.file_mapped n hn w hw
      exact ⟨hwithin k (by omega) w hcovers, h.lt_of_covers (by omega) hcovers⟩
    · obtain ⟨k, hk, hcovers⟩ := h.file_mapped n hn v hin
      have hne : k ≠ n := by
        rintro rfl
        exact hnot hcovers
      rw [hread]
      exact Image.loadedByte_ne_none (Or.inl hcovers) (by omega)

end Segments

end MegKer.Process
