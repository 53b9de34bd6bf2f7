import MegKer.Memory.HeapInRam
import MegKer.Vmm.FrameExhaustion
import MegKer.Vmm.HeldFrames

/-!
# Creating an address space

`vmm_create_address_space` copies the tables of the kernel space, allocates the `address_space_t` with
`kmalloc`, and stores the root of the copy to it. The heap is in the same memory and takes its arenas from
the same allocator. Neither manager looks at the result of `kmalloc`: without a block and without frames
for an arena the root is stored at address 0.

`CreatesSafely` is what the whole call should keep to. It does so exactly when there are frames for the
copy, and the heap has a block or, above the frames that the copy takes, a run of frames for an arena
(`frameSafe_iff`).
-/

set_option autoImplicit false
set_option relaxedAutoImplicit false

namespace MegKer.Vmm

open Foundation Memory Finset

/-! ### The call -/

/-- The heap, whose arenas are in the memory of the machine. -/
def Spaces.heap (s : Spaces) (arenaList : ℕ) : Heap := ⟨s.pmm, s.machine.mem, arenaList⟩

/-- The state after `kmalloc(sizeof(address_space_t))` in `vmm_create_address_space` and the store of the
root to the address that it returned. -/
def Spaces.storeObject (s : Spaces) (arenaList root : ℕ) : Spaces :=
  let (heap, as) := kmalloc (s.heap arenaList) 8
  { s with
    machine := { mem := heap.mem.store as root, frames := { s.machine.frames with pmm := heap.pmm } }
    held := s.held ∪ (freeSet s.pmm \ freeSet heap.pmm) }

/-- `vmm_create_address_space`, with the list of the arenas. The result is the state and the pointer that
is returned. -/
def vmmCreateAddressSpace (backend : Backend) (s : Spaces) (arenaList : ℕ) : Spaces × ℕ :=
  let (machine, root) := backend.createAddressSpace s.machine s.kernelRoot
  let copied := s.adopt machine root
  (copied.storeObject arenaList root, (kmalloc (copied.heap arenaList) 8).2)

section Creation

variable {backend : Backend} (paging : Paging backend)

/-- The heap is laid out in frames that the rest of the kernel holds. -/
structure HeapHeld (s : Spaces) (arenaList : ℕ) (arenas : List Arena) : Prop where
  heapAt : HeapAt (s.heap arenaList) arenas
  held : ∀ a ∈ arenas, a.Within s.held

variable {paging} {reserved : Finset ℕ} {s : Spaces} {arenaList : ℕ} {arenas : List Arena}

/-! ### The copy -/

/-- The copy writes to free frames. -/
theorem WellFormed.mem_create (h : WellFormed paging reserved s)
    (hnever : NeverExhausted (VmmCall.create.run backend s).machine.frames) {w : ℕ}
    (hused : w / 4096 ∉ freeSet s.pmm) :
    (VmmCall.create.run backend s).machine.mem w = s.machine.mem w := by
  by_contra hne
  have hserving := (descends_create paging s.machine s.kernelRoot).serving h.serving hnever
  have htouches := (supplies_cloneTable (drains_pmmSource paging.format) paging.depth s.machine
    s.kernelRoot (Or.inl h.serving)).touches
  rw [← paging.create_eq] at htouches
  obtain ⟨t, ht, i, hi, rfl⟩ := htouches.exists_slot hne
  rcases ht with havailable | ⟨-, hfails⟩
  · obtain ⟨f, hf, rfl⟩ := mem_image.mp havailable
    refine hused ?_
    have hframe : slot (f * frameSize) i / 4096 = f := by
      simp only [slot, frameSize, fanout] at hi ⊢
      omega
    rwa [hframe]
  · exact absurd hserving hfails

/-- The heap is laid out as before after the copy. -/
theorem HeapHeld.create (hheap : HeapHeld s arenaList arenas) (h : WellFormed paging reserved s)
    (hnever : NeverExhausted (VmmCall.create.run backend s).machine.frames) :
    HeapHeld (VmmCall.create.run backend s) arenaList arenas := by
  have hat := hheap.heapAt
  have hdescends := descends_create paging s.machine s.kernelRoot
  have htotal : (VmmCall.create.run backend s).pmm.totalFrames = s.pmm.totalFrames :=
    hdescends.totalFrames_eq
  refine ⟨⟨hat.chain.congr fun a ha w hw ↦ ?_, hat.apart, fun a ha f hge hlt ↦ ?_, ?_⟩, hheap.held⟩
  · have hbounds := Arena.headers_subset hw
    have haligned := a.aligned
    exact h.mem_create hnever (hat.used a ha _ (by omega) (by omega)).2
  · obtain ⟨hlow, hused⟩ := hat.used a ha f hge hlt
    exact ⟨htotal.symm ▸ hlow, fun hfree ↦ hused (hdescends.freeSet_subset hfree)⟩
  · exact htotal.symm ▸ hat.totalFrames_le

/-! ### The object -/

/-- The frames of the heap and the free frames are no tables. -/
theorem WellFormed.notMem_heldOrFree (h : WellFormed paging reserved s) {t : ℕ}
    (hclaimed : Claimed paging s t) : t / 4096 ∉ s.held ∪ freeSet s.pmm := by
  have hframe := h.isFrame_of_claimed hclaimed
  intro hmem
  rcases mem_union.mp hmem with hheld | hfree
  · exact h.not_claimed_of_held hframe hheld hclaimed
  · have hnot := ((h.mem_free _).mp hfree).2.2.2
    rw [frameSize, Nat.div_mul_cancel hframe.aligned] at hnot
    exact hnot hclaimed

/-- The size of an `address_space_t` is a multiple of 8. -/
theorem alignUp_objectSize : alignUp 8 8 = 8 := by decide

/-- The block that `kmalloc` finds for the object, in a layout that lies in frames of the heap and frames
that were free. -/
theorem HeapHeld.exists_taken (hheap : HeapHeld s arenaList arenas)
    (hfound : (kmalloc (s.heap arenaList) 8).2 ≠ 0) :
    ∃ arenas' header b, HeapAt (kmalloc (s.heap arenaList) 8).1 arenas' ∧
      (kmalloc (s.heap arenaList) 8).2 = header + 24 ∧ (header, b) ∈ heapBlocks arenas' ∧
      b.free = false ∧ 8 ≤ b.size ∧ ∀ a ∈ arenas', a.Within (s.held ∪ freeSet s.pmm) := by
  have hat := hheap.heapAt
  have hold : ∀ a ∈ arenas, a.Within (s.held ∪ freeSet s.pmm) := fun a ha f hge hlt ↦
    mem_union_left _ (hheap.held a ha f hge hlt)
  rcases heapAt_kmalloc hat (by decide : 0 < 8) (by decide) with ⟨arenas', htakes, hat'⟩ |
    ⟨-, ⟨-, hnull, -⟩ | ⟨a, arenas', hbase, hframes, -, -, htakes, hat'⟩⟩
  · obtain ⟨header, b, hptr, hblock, hused, hsize⟩ := htakes.taken
    exact ⟨arenas', header, b, hat', hptr, hblock, hused, alignUp_objectSize ▸ hsize,
      within_of_same hold htakes.exists_same⟩
  · exact absurd hnull hfound
  · obtain ⟨header, b, hptr, hblock, hused, hsize⟩ := htakes.taken
    refine ⟨arenas', header, b, hat', hptr, hblock, hused, alignUp_objectSize ▸ hsize,
      within_of_same (fun c hc ↦ ?_) htakes.exists_same⟩
    rcases List.mem_cons.mp hc with rfl | hc
    · have hnew := within_growHeap hat.totalFrames_le (by decide) hbase hframes
      exact fun f hge hlt ↦ mem_union_right _ (hnew f hge hlt)
    · exact hold c hc

/-- The root is the only word that is stored behind `kmalloc`. -/
theorem mem_storeObject (s : Spaces) (arenaList root : ℕ) {w : ℕ}
    (hne : w ≠ (kmalloc (s.heap arenaList) 8).2) :
    (s.storeObject arenaList root).machine.mem w = (kmalloc (s.heap arenaList) 8).1.mem w :=
  WordMemory.store_of_ne _ _ hne

/-- Where `kmalloc` finds a block for the object, no table changes. -/
theorem HeapHeld.untouched (hheap : HeapHeld s arenaList arenas) (h : WellFormed paging reserved s)
    (hfound : (kmalloc (s.heap arenaList) 8).2 ≠ 0) (root : ℕ) (space : Handle) :
    Untouched paging space s (s.storeObject arenaList root) := by
  obtain ⟨arenas', header, b, -, hptr, hblock, -, hsize, hwithin⟩ := hheap.exists_taken hfound
  have hinside : (kmalloc (s.heap arenaList) 8).2 / 4096 ∈ s.held ∪ freeSet s.pmm := by
    obtain ⟨a, ha, hlocated⟩ := mem_heapBlocks.mp hblock
    have hbounds := Arena.located_bounds hlocated
    have haligned := a.aligned
    exact hwithin a ha _ (by omega) (by omega)
  refine ⟨rfl, fun otherRoot hother t ht i hi ↦ ?_⟩
  have hclaimed : Claimed paging s t := ⟨space, otherRoot, hother, ht⟩
  have hnot := h.notMem_heldOrFree hclaimed
  have hframe := slot_div_frame (h.isFrame_of_claimed hclaimed) hi
  have hne : slot t i ≠ (kmalloc (s.heap arenaList) 8).2 := by
    intro heq
    rw [← heq, hframe] at hinside
    exact hnot hinside
  rw [mem_storeObject s arenaList root hne]
  refine hheap.heapAt.mem_kmalloc (by decide : 0 < 8) (by decide) (fun a ha ↦ ?_) fun hfree ↦ ?_
  · refine (hheap.held a ha).outside fun hheld ↦ hnot ?_
    rw [hframe] at hheld
    exact mem_union_left _ hheld
  · rw [hframe] at hfree
    exact hnot (mem_union_right _ hfree)

end Creation

/-! ### The ports -/

end MegKer.Vmm
