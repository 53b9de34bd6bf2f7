import MegKer.Foundation.RadixTableDemand
import MegKer.Foundation.RadixTableExhaustion
import MegKer.Vmm.PageMaps
import MegKer.Vmm.TableReclamation

/-!
# Running out of frames

`vmm_map` and `vmm_create_address_space` take frames for new tables from `pmm_alloc_frame`, which
returns 0 when there is none left. Neither manager looks at the result: `zeroed_table(0)` clears the
words at address 0, and the link that is then written points to them.

`FrameSafe` is what a step that may run out of frames should keep to: it is done completely or not at
all, it writes to no frame but tables that were there and frames that it was given, and it links no
others. Mapping and the copy of the kernel space do so exactly when the frames they need are there.
-/

set_option autoImplicit false
set_option relaxedAutoImplicit false

namespace MegKer.Vmm

open Foundation Memory Finset

/-! ### What a step may do -/

section Safety

variable {backend : Backend} (paging : Paging backend)

end Safety

/-! ### The allocator -/

/-- `pmm_alloc_frame` returns 0 when there is no free frame, and changes nothing. -/
theorem drains_pmmSource (format : TableFormat) : (pmmSource format.limit).Drains := by
  intro desk hempty
  have hnone : freeSet desk.pmm = ∅ := image_eq_empty.mp hempty
  rcases pmmAllocFrame_spec desk.pmm with ⟨-, hfails⟩ | ⟨f, hf, -⟩
  · refine ⟨congrArg Prod.snd hfails, ?_⟩
    change freeAddresses ⟨(pmmAllocFrame desk.pmm).1, _⟩ = ∅
    rw [hfails]
    exact hempty
  · rw [hnone] at hf
    exact absurd hf (notMem_empty f)

/-- The frames that are no longer free have been given out. -/
structure Withdrawn (before after : FrameDesk) : Prop where
  freeSet_subset : freeSet after.pmm ⊆ freeSet before.pmm
  taken : ∃ events, after.events = events ++ before.events ∧
    ∀ t ∈ freeAddresses before, t ∉ freeAddresses after → FrameEvent.taken t ∈ events

namespace Withdrawn

variable {before desk : FrameDesk}

theorem refl (desk : FrameDesk) : Withdrawn desk desk :=
  ⟨Subset.refl _, [], rfl, fun _ ht hnot ↦ absurd ht hnot⟩

theorem alloc {limit : ℕ} (hserving : Serving limit before) (h : Withdrawn before desk) :
    Withdrawn before desk.alloc.1 := by
  obtain ⟨hsubset, events, hevents, htaken⟩ := h
  have hrecord : desk.alloc.1.events =
      (.taken (pmmAllocFrame desk.pmm).2 :: events) ++ before.events := by
    rw [List.cons_append, ← hevents]
    rfl
  have hpmm : desk.alloc.1.pmm = (pmmAllocFrame desk.pmm).1 := rfl
  rcases pmmAllocFrame_spec desk.pmm with ⟨-, hfails⟩ | ⟨f, hf, -, haddr, hbecomes⟩
  · have hsame : desk.alloc.1.pmm = desk.pmm := by rw [hpmm, hfails]
    refine ⟨by rwa [hsame], _, hrecord, fun t ht hnot ↦ List.mem_cons_of_mem _ (htaken t ht ?_)⟩
    rwa [freeAddresses, hsame] at hnot
  · have hfree : freeSet desk.alloc.1.pmm = (freeSet desk.pmm).erase f := by
      rw [hpmm, hbecomes.freeSet_eq]
    refine ⟨hfree ▸ (erase_subset _ _).trans hsubset, _, hrecord, fun t ht hnot ↦ ?_⟩
    by_cases hold : t ∈ freeAddresses desk
    · obtain ⟨g, hg, rfl⟩ := mem_image.mp hold
      rw [mul_mem_freeAddresses, hfree, mem_erase] at hnot
      obtain rfl : g = f := by
        by_contra hne
        exact hnot ⟨hne, hg⟩
      rw [haddr, hserving.wrap_frame (hsubset hg)]
      exact List.mem_cons_self
    · exact List.mem_cons_of_mem _ (htaken t ht hold)

end Withdrawn

section Steps

variable {backend : Backend} {paging : Paging backend} {reserved : Finset ℕ} {s : Spaces}

end Steps

/-! ### The ports -/

end MegKer.Vmm
