import MegKer.Vmm.Boot
import MegKer.Vmm.PageMaps

/-!
# The x86_64 manager refines page maps

From the boot tables on, and for every sequence of calls on any number of address spaces,
`vmm_translate` answers as the abstract page maps do. The blocks of the abstract model are the huge
pages of the boot tables, which cover the first gigabyte of every space: no call makes or removes
one.
-/

set_option autoImplicit false
set_option relaxedAutoImplicit false

namespace MegKer.Vmm.X86

open Foundation Memory

/-- The pages of the boot identity map, `[0, 1 GiB)`. -/
def identityMapped (page : ℕ) : Bool := page < 0x40000

/-- The huge page that covers a page. -/
def hugeLeaf (page : ℕ) : Option ℕ :=
  if identityMapped page then some (hugeEntry (page / 512)) else none

theorem coveredBy_hugeLeaf : coveredBy hugeLeaf = identityMapped := by
  funext page
  unfold coveredBy hugeLeaf
  cases identityMapped page <;> rfl

theorem isPresent_hugeLeaf (page entry : ℕ) (hentry : hugeLeaf page = some entry) :
    format.isPresent entry = true := by
  unfold hugeLeaf at hentry
  split_ifs at hentry
  rw [← Option.some.inj hentry]
  exact (Boot.hugeEntry_isBlock _).2

theorem pages_eq : paging.pages = 2 ^ 36 := by
  change fanout ^ 4 = 2 ^ 36
  rw [fanout_eq]
  norm_num

theorem page_lt {virt : ℕ} (hvirt : virt < 2 ^ 48) : virt / 4096 < paging.pages := by
  rw [pages_eq]
  omega

/-- At boot, a walk finds no leaf, and it finds the huge pages of the identity map. -/
theorem Boot.walkTo_memory (boot : Boot) {page : ℕ} (hpage : page < paging.pages) :
    (paging.walkTo boot.memory boot.pml4Table page).leaf = 0 ∧
    (paging.walkTo boot.memory boot.pml4Table page).block format = hugeLeaf page := by
  rw [pages_eq] at hpage
  have hpath : indexPath 3 page = [page / fanout ^ 3 % fanout, page / fanout ^ 2 % fanout,
      page / fanout ^ 1 % fanout, page % fanout] := rfl
  have hwalk : paging.walkTo boot.memory boot.pml4Table page = _ :=
    (congrArg (walk format boot.memory boot.pml4Table) hpath).trans
      (boot.walk_memory (hpath ▸ isPath_indexPath 3 page))
  rw [hwalk]
  simp only [fanout_eq]
  unfold hugeLeaf identityMapped
  by_cases hhigh : page / 512 ^ 3 % 512 = 0
  · by_cases hmiddle : page / 512 ^ 2 % 512 = 0
    · have hlow : page < 0x40000 := by omega
      have hindex : page / 512 ^ 1 % 512 = page / 512 := by omega
      rw [if_pos hhigh, if_pos hmiddle, hindex]
      simp [Walk.leaf, Walk.block, (hugeEntry_isBlock (page / 512)).1, hlow]
    · have hlow : ¬ page < 0x40000 := by omega
      rw [if_pos hhigh, if_neg hmiddle]
      simp [Walk.leaf, Walk.block, format.isBlock_zero, hlow]
  · have hlow : ¬ page < 0x40000 := by omega
    rw [if_neg hhigh]
    simp [Walk.leaf, Walk.block, format.isBlock_zero, hlow]

/-- The boot tables represent the abstract maps at boot. -/
theorem Boot.represents (boot : Boot) (admitted : Mapping → Prop) :
    Represents paging admitted hugeLeaf boot.spaces PageMaps.boot := by
  refine ⟨rfl, fun space ↦ ?_⟩
  cases space with
  | user n => exact Option.Rel.none
  | kernel =>
    refine Option.Rel.some ⟨fun page hpage ↦ ?_, fun page hpage ↦ ?_⟩
    · rw [boot.kernelRoot_spaces, boot.mem_spaces, (boot.walkTo_memory hpage).1]
      exact LeafShows.absent format.isPresent_zero
    · rw [boot.kernelRoot_spaces, boot.mem_spaces]
      exact (boot.walkTo_memory hpage).2

/-- Every run from the boot tables is a run of the abstract maps. -/
theorem Boot.represents_runs (boot : Boot) {admitted : Mapping → Prop}
    (hadmitted : ∀ mapping, admitted mapping → hasFlags mapping.flags presentFlag = true)
    {calls : List VmmCall}
    (hcalls : Permitted paging (MapsOnly admitted (· < 2 ^ 48)) boot.spaces calls)
    (hnever : NeverExhausted (runs backend boot.spaces calls).machine.frames) :
    Represents paging admitted hugeLeaf (runs backend boot.spaces calls)
      (PageMaps.boot.run identityMapped calls) := by
  have hruns := Vmm.represents_runs (fun virt hvirt ↦ page_lt hvirt) hadmitted isPresent_hugeLeaf
    calls boot.wellFormed (boot.represents admitted) hcalls hnever
  rwa [coveredBy_hugeLeaf] at hruns

/-- A virtual address lies under a huge page of a space. -/
def UnderHugeLeaf (m : Machine) (pml4 virt : ℕ) : Prop :=
  (paging.walkTo m.mem pml4 (virt / 4096)).block format ≠ none

/-- The huge pages of every space are the identity map. -/
theorem underHugeLeaf_iff {admitted : Mapping → Prop} {s : Spaces} {a : PageMaps} {space : Handle}
    {pml4 virt : ℕ} (h : Represents paging admitted hugeLeaf s a)
    (hroot : s.root space = some pml4) (hvirt : virt < 2 ^ 48) :
    UnderHugeLeaf s.machine pml4 virt ↔ identityMapped (virt / 4096) = true := by
  obtain ⟨map, -, hshows⟩ := h.exists_map hroot
  have hblock : (paging.walkTo s.machine.mem pml4 (virt / 4096)).block format =
      hugeLeaf (virt / 4096) := hshows.block _ (page_lt hvirt)
  rw [UnderHugeLeaf, hblock, hugeLeaf]
  split_ifs with hcovered
  · simp [hcovered]
  · simp [hcovered]

/-- The mappings a caller asks for: present, and to a page-aligned, nonzero physical address that
fits an entry. -/
structure Mappable (mapping : Mapping) : Prop where
  present : hasFlags mapping.flags vmmPresent = true
  aligned : 4096 ∣ mapping.phys
  pos : 0 < mapping.phys
  lt_limit : mapping.phys < 2 ^ 52

/-- After every sequence of calls, on any number of spaces, with virtual addresses below `2 ^ 48`
and an allocator that is never exhausted: `vmm_translate` is the translation of the abstract page
maps, in every space that exists; the same spaces exist; the pages that `vmm_map` ignores are those
under a huge page, and these are the identity map; and a further call changes no translation of any
space but the one it is about. -/
theorem vmmTranslate_eq_pageMaps (boot : Boot) (calls : List VmmCall)
    (hcalls : Permitted paging (MapsOnly Mappable (· < 2 ^ 48)) boot.spaces calls)
    (hnever : NeverExhausted (runs backend boot.spaces calls).machine.frames) :
    let s := runs backend boot.spaces calls
    let a := PageMaps.boot.run identityMapped calls
    (∀ space pml4, s.root space = some pml4 → ∀ virt < 2 ^ 48,
      vmmTranslate s.machine pml4 virt = a.translate space virt) ∧
    (∀ space, s.root space = none ↔ a.maps space = none) ∧
    (∀ space pml4, s.root space = some pml4 → ∀ virt < 2 ^ 48,
      (UnderHugeLeaf s.machine pml4 virt ↔ identityMapped (virt / 4096) = true)) ∧
    ∀ call : VmmCall, call.Proper paging s →
      NeverExhausted (call.run backend s).machine.frames →
      ∀ space pml4, s.root space = some pml4 → call.subject ≠ some space →
        (call.run backend s).root space = some pml4 ∧
        ∀ virt, vmmTranslate (call.run backend s).machine pml4 virt =
          vmmTranslate s.machine pml4 virt := by
  intro s a
  have hwell : WellFormed paging boot.reserved s := wellFormed_runs calls boot.wellFormed hcalls hnever
  have hrepresents : Represents paging Mappable hugeLeaf s a :=
    boot.represents_runs (fun _ h ↦ h.present) hcalls hnever
  refine ⟨fun space pml4 hroot virt hvirt ↦ ?_, fun space ↦ ?_, fun space pml4 hroot virt hvirt ↦ ?_,
    fun call hproper hafter space pml4 hroot hsubject ↦ ?_⟩
  · exact hrepresents.translate_eq (fun _ h ↦ ⟨h.present, h.aligned, h.lt_limit⟩) hroot
      (page_lt hvirt)
  · exact hrepresents.root_eq_none_iff space
  · exact underHugeLeaf_iff hrepresents hroot hvirt
  · have hlive : s.root space ≠ none := by
      rw [hroot]
      simp
    have huntouched := untouched_run hwell hproper hafter hlive hsubject
    refine ⟨huntouched.1.trans hroot, fun virt ↦ ?_⟩
    change backend.translate _ _ _ = backend.translate _ _ _
    rw [translate_eq_leaf paging, translate_eq_leaf paging, Paging.walkTo_congr huntouched hroot]

/-- A page mapped in a new space is found there, and not in the kernel space. -/
theorem vmmTranslate_eq_pageMaps_new_space :
    let s := runs backend Boot.sample.spaces [.create, .map (.user 0) 0x80000000 0x110000 7]
    ∃ pml4, s.root (.user 0) = some pml4 ∧
      vmmTranslate s.machine pml4 0x80000123 = 0x110123 ∧
      vmmTranslate s.machine s.kernelRoot 0x80000123 = 0 := by
  obtain ⟨hpermitted, hnever, pml4, hroot⟩ := Boot.sample_create_map
    (MapsOnly Mappable (· < 2 ^ 48)) trivial
    (show MapsOnly Mappable (· < 2 ^ 48) (.map (.user 0) 0x80000000 0x110000 7) from
      ⟨by decide, by decide, by decide, by decide, by decide⟩)
  obtain ⟨htranslate, -⟩ := vmmTranslate_eq_pageMaps Boot.sample
    [.create, .map (.user 0) 0x80000000 0x110000 7] hpermitted hnever
  exact ⟨pml4, hroot, (htranslate (.user 0) pml4 hroot 0x80000123 (by decide)).trans (by decide),
    (htranslate .kernel _ rfl 0x80000123 (by decide)).trans (by decide)⟩

end MegKer.Vmm.X86
