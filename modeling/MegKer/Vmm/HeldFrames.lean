import MegKer.Foundation.RadixTableDemand
import MegKer.Foundation.WordBytes
import MegKer.Vmm.PageMaps

/-!
# Frames of the rest of the kernel

The frames that the rest of the kernel takes from the allocator are no tables, so it may write to them
as it likes, and the manager does not write to them when it maps a page. `PageMapped` puts together all
that is known of a state after a page has been mapped, for a page off the blocks and with enough
frames.
-/

set_option autoImplicit false
set_option relaxedAutoImplicit false

namespace MegKer.Vmm

open Foundation Memory Finset

variable {backend : Backend} {paging : Paging backend} {reserved : Finset ℕ} {s : Spaces}
  {space : Handle} {root : ℕ}

/-- Frames that the rest of the kernel holds are no tables. -/
theorem WellFormed.not_claimed_of_held (h : WellFormed paging reserved s) {limit frame : ℕ}
    (hframe : IsFrame limit frame) (hheld : frame / 4096 ∈ s.held) : ¬ Claimed paging s frame := by
  have hnot := (h.held_apart _ hheld).2.2.2
  rwa [Nat.div_mul_cancel hframe.aligned] at hnot

/-- A write to one frame that is no table leaves all tables alone. -/
theorem WellFormed.proper_write_frame (h : WellFormed paging reserved s) {mem : WordMemory}
    {frame : ℕ} (hnot : ¬ Claimed paging s (frame * 4096))
    (hsame : ∀ a, a / 4096 ≠ frame → mem a = s.machine.mem a) :
    (VmmCall.write mem).Proper paging s := by
  intro other otherRoot hother t ht
  have hframe := (h.owned other otherRoot hother).isFrame t ht
  refine sameTable_of_frame hframe (fun heq ↦ hnot ?_) hsame
  rw [← heq, Nat.div_mul_cancel hframe.aligned]
  exact ⟨other, otherRoot, hother, ht⟩

/-- A call that only takes frames is a proper one. -/
theorem proper_of_takes {call : PmmCall} (htakes : freeSet (call.run s.pmm) ⊆ freeSet s.pmm) :
    (VmmCall.others call).Proper paging s :=
  htakes.trans subset_union_left

/-- When the rest of the kernel takes frames, it holds them in addition to those it has. -/
theorem WellFormed.held_take (h : WellFormed paging reserved s) {call : PmmCall}
    (htakes : freeSet (call.run s.pmm) ⊆ freeSet s.pmm) :
    ((VmmCall.others call).run backend s).held =
      s.held ∪ (freeSet s.pmm \ freeSet (call.run s.pmm)) := by
  change (s.held ∪ (freeSet s.pmm \ freeSet (call.run s.pmm))) \ freeSet (call.run s.pmm) = _
  refine sdiff_eq_self_of_disjoint (disjoint_union_left.mpr ⟨?_, sdiff_disjoint⟩)
  exact disjoint_left.mpr fun f hf hmem ↦ ((h.mem_free f).mp (htakes hmem)).2.2.1 hf

/-- `pmm_alloc_frame` takes frames. -/
theorem freeSet_allocFrame_subset (pmm : Pmm) :
    freeSet (PmmCall.allocFrame.run pmm) ⊆ freeSet pmm := by
  rcases pmmAllocFrame_spec pmm with ⟨-, hsame⟩ | ⟨g, -, -, -, hbecomes⟩
  · rw [PmmCall.run, hsame]
  · rw [PmmCall.run, hbecomes.freeSet_eq]
    exact erase_subset _ _

/-- `pmm_alloc_frame` with a free frame: the lowest one is given out, and the rest of the
kernel holds it. -/
theorem WellFormed.allocFrame_spec (h : WellFormed paging reserved s)
    (hfree : (freeSet s.pmm).Nonempty) :
    ∃ g ∈ freeSet s.pmm, (pmmAllocFrame s.pmm).2 = g * 4096 ∧
      freeSet ((VmmCall.others .allocFrame).run backend s).pmm = (freeSet s.pmm).erase g ∧
      ((VmmCall.others .allocFrame).run backend s).held = insert g s.held := by
  rcases pmmAllocFrame_spec s.pmm with ⟨hempty, -⟩ | ⟨g, hg, -, haddr, hbecomes⟩
  · exact absurd hempty hfree.ne_empty
  have hnext : freeSet (PmmCall.allocFrame.run s.pmm) = (freeSet s.pmm).erase g :=
    hbecomes.freeSet_eq
  refine ⟨g, hg, haddr.trans (h.serving.wrap_frame hg), hnext, ?_⟩
  rw [h.held_take (freeSet_allocFrame_subset s.pmm), hnext, sdiff_erase_self hg,
    union_comm, ← insert_eq]

/-- The manager takes nothing for the rest of the kernel. -/
theorem held_map (s : Spaces) (space : Handle) (virt phys flags : ℕ) :
    ((VmmCall.map space virt phys flags).run backend s).held = s.held := by
  rw [VmmCall.run, Spaces.onRoot]
  split <;> rfl

/-- Mapping leaves every frame alone that is no table and stays free, or is held by the rest of the
kernel. -/
theorem WellFormed.sameTable_map (h : WellFormed paging reserved s) (hroot : s.root space = some root)
    {virt phys flags : ℕ}
    (hnever : NeverExhausted ((VmmCall.map space virt phys flags).run backend s).machine.frames)
    {t : ℕ} (ht : IsFrame paging.format.limit t)
    (hcase : t / 4096 ∈ s.held ∨
      t ∈ freeAddresses ((VmmCall.map space virt phys flags).run backend s).machine.frames) :
    SameTable s.machine.mem ((VmmCall.map space virt phys flags).run backend s).machine.mem t := by
  rw [VmmCall.run, Spaces.onRoot_eq hroot] at hnever hcase ⊢
  obtain ⟨⟨added, hgrown⟩, -⟩ := h.map_spec hroot hnever
  have havailable : ∀ t, t ∈ freeAddresses (backend.map s.machine root virt phys flags).frames ↔
      t ∈ freeAddresses s.machine.frames ∧ t ∉ added := by
    intro t
    have heq := congrArg (t ∈ ·) hgrown.available_eq
    simp only [mem_sdiff, List.mem_toFinset] at heq
    exact iff_of_eq heq
  rcases hcase with hheld | hfree
  · have hnot := h.not_claimed_of_held ht hheld
    refine hgrown.same t ht (fun hadded ↦ ?_) fun hmem ↦ hnot ⟨space, root, hroot, hmem⟩
    have hfree := (mem_freeAddresses_iff ht).mp (hgrown.added_available t hadded)
    exact ((h.mem_free _).mp hfree).2.2.1 hheld
  · obtain ⟨hbefore, hnot⟩ := (havailable t).mp hfree
    exact hgrown.same t ht hnot fun hmem ↦ (h.owned space root hroot).not_available t hmem hbefore

/-! ### Mapping a page -/

/-- What mapping a page does to the state. The frames that it takes are those of the tables that were
missing on the way to the page. -/
structure PageMapped (paging : Paging backend) (reserved : Finset ℕ) (space : Handle)
    (root va phys flags : ℕ) (s after : Spaces) : Prop where
  well : WellFormed paging reserved after
  root_eq : ∀ other, after.root other = s.root other
  untouched : ∀ other, other ≠ space → s.root other ≠ none → Untouched paging other s after
  held_eq : after.held = s.held
  subset : freeSet after.pmm ⊆ freeSet s.pmm
  card_eq : (freeSet after.pmm).card +
    (paging.walkTo s.machine.mem root (paging.pageOf va)).level = (freeSet s.pmm).card
  level_eq : ∀ page, (paging.walkTo after.machine.mem root page).level =
    min (paging.walkTo s.machine.mem root page).level
      (apart (indexPath paging.depth (paging.pageOf va)) (indexPath paging.depth page))
  block_eq : ∀ page, (paging.walkTo after.machine.mem root page).block paging.format =
    (paging.walkTo s.machine.mem root page).block paging.format
  leaf_self : (paging.walkTo after.machine.mem root (paging.pageOf va)).leaf =
    paging.edit phys flags (paging.walkTo s.machine.mem root (paging.pageOf va)).leaf
  leaf_other : ∀ page < paging.pages, page ≠ paging.pageOf va →
    (paging.walkTo after.machine.mem root page).leaf =
      (paging.walkTo s.machine.mem root page).leaf
  same : ∀ t, IsFrame paging.format.limit t →
    (t / 4096 ∈ s.held ∨ t ∈ freeAddresses after.machine.frames) →
      SameTable s.machine.mem after.machine.mem t

/-- A page off the blocks is mapped if there are frames for the tables that are missing. -/
theorem WellFormed.pageMapped (h : WellFormed paging reserved s) (hroot : s.root space = some root)
    {va : ℕ} (hnone : (paging.walkTo s.machine.mem root (paging.pageOf va)).block
      paging.format = none)
    (hcard : (paging.walkTo s.machine.mem root (paging.pageOf va)).level ≤ (freeSet s.pmm).card)
    (phys flags : ℕ) :
    PageMapped paging reserved space root va phys flags s
      ((VmmCall.map space va phys flags).run backend s) := by
  have hpage := paging.pageOf_lt va
  have hpath : indexPath paging.depth (va / 4096) = indexPath paging.depth (paging.pageOf va) :=
    (paging.path_pageOf va).symm
  have hproper : (VmmCall.map space va phys flags).Proper paging s := by
    change s.root space ≠ none
    rw [hroot]
    exact Option.some_ne_none root
  have hserved : NeverExhausted ((VmmCall.map space va phys flags).run backend s).machine.frames := by
    refine h.served hproper fun otherRoot hother _ ↦ ?_
    obtain rfl : root = otherRoot := Option.some.inj (hroot.symm.trans hother)
    rw [hpath]
    exact hcard
  have hrun : (VmmCall.map space va phys flags).run backend s =
      { s with machine := backend.map s.machine root va phys flags } := by
    rw [VmmCall.run, Spaces.onRoot_eq hroot]
  have hdescends := descends_map paging s.machine root va phys flags
  have hedited : Edited (paging.links flags) (paging.edit phys flags) paging.depth root
      (indexPath paging.depth (paging.pageOf va)) s.machine.mem
      ((VmmCall.map space va phys flags).run backend s).machine.mem := by
    rw [hrun] at hserved ⊢
    exact hpath ▸ (h.map_spec hroot hserved).2
  have hdemand : (freeSet ((VmmCall.map space va phys flags).run backend s).pmm).card +
      (paging.walkTo s.machine.mem root (paging.pageOf va)).level = (freeSet s.pmm).card ∧
      ∀ page, (paging.walkTo ((VmmCall.map space va phys flags).run backend s).machine.mem root
        page).level = min (paging.walkTo s.machine.mem root page).level
          (Foundation.apart (indexPath paging.depth (paging.pageOf va)) (indexPath paging.depth page)) := by
    rw [hrun] at hserved ⊢
    have hserving := hdescends.serving h.serving hserved
    rw [paging.map_eq, hpath] at hserving
    obtain ⟨hleft, hlevels⟩ := level_editPath paging.source (paging.links flags)
      (paging.edit phys flags) paging.depth (isPath_indexPath _ _) (h.owned space root hroot)
      hserving hnone
    rw [← hpath, ← paging.map_eq] at hleft hlevels
    refine ⟨?_, fun page ↦ ?_⟩
    · rw [← card_freeAddresses, ← card_freeAddresses, Paging.walkTo, ← hpath]
      exact hleft
    · rw [← hpath]
      exact hlevels _ (isPath_indexPath _ page)
  exact
    { well := wellFormed_run h hproper hserved
      root_eq := fun other ↦ by rw [VmmCall.run, Spaces.root_onRoot]
      untouched := fun other hother hlive ↦
        untouched_run h hproper hserved hlive fun heq ↦ hother (Option.some.inj heq).symm
      held_eq := held_map s space va phys flags
      subset := by
        rw [hrun]
        exact hdescends.freeSet_subset
      card_eq := hdemand.1
      level_eq := hdemand.2
      block_eq := fun page ↦ hedited.block_eq _ (isPath_indexPath _ page)
      leaf_self := by
        have hleaf := hedited.leaf_eq _ (isPath_indexPath paging.depth (paging.pageOf va))
        rwa [if_pos ⟨rfl, hnone⟩] at hleaf
      leaf_other := fun page hlt hne ↦ by
        have hleaf := hedited.leaf_eq _ (isPath_indexPath paging.depth page)
        rwa [if_neg fun hcase ↦ hne ((indexPath_inj hlt hpage).mp hcase.1)] at hleaf
      same := fun t ht hcase ↦ h.sameTable_map hroot hserved ht hcase }

end MegKer.Vmm
