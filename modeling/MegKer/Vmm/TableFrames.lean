import MegKer.Foundation.RadixTableClone
import MegKer.Memory.FrameAccounting

/-!
# Frames for page tables

The two `vmm.c` take the frames of their page tables from `pmm_alloc_frame` and give them back by
`pmm_free_frame`. A `Machine` is the state they work on: the allocator and the memory. The
allocator is put together with a record of the calls that the virtual memory manager has made to
it, which the C code does not keep; it is how statements refer to a run in which the allocator was
never exhausted (`NeverExhausted`), and to the frames a function has freed.

`pmmSource` is the allocator as a source of frames for radix tables.
-/

set_option autoImplicit false
set_option relaxedAutoImplicit false

namespace MegKer.Vmm

open Foundation Memory Finset

/-- A call to the frame allocator, with the address it returned or was given. -/
inductive FrameEvent
  | taken (addr : ℕ)
  | returned (addr : ℕ)
  deriving DecidableEq, Repr

/-- The frame allocator and the calls made to it, the latest first. -/
structure FrameDesk where
  pmm : Pmm
  events : List FrameEvent

/-- The memory and the allocator of its frames. -/
abbrev Machine := TableStore FrameDesk

/-- `pmm_alloc_frame`, recorded. -/
def FrameDesk.alloc (desk : FrameDesk) : FrameDesk × ℕ :=
  let (pmm, frame) := pmmAllocFrame desk.pmm
  (⟨pmm, .taken frame :: desk.events⟩, frame)

/-- `pmm_free_frame`, recorded. -/
def FrameDesk.release (desk : FrameDesk) (addr : ℕ) : FrameDesk :=
  ⟨pmmFreeFrame desk.pmm addr, .returned addr :: desk.events⟩

/-- `pmm_alloc_frame` has not failed so far. -/
def NeverExhausted (desk : FrameDesk) : Prop := FrameEvent.taken 0 ∉ desk.events

instance (desk : FrameDesk) : Decidable (NeverExhausted desk) :=
  inferInstanceAs (Decidable (_ ∉ _))

/-- `pmm_alloc_frame` as the virtual memory manager calls it. -/
def allocFrame (m : Machine) : Machine × ℕ :=
  let (frames, frame) := m.frames.alloc
  ({ m with frames := frames }, frame)

/-- `pmm_free_frame` as the virtual memory manager calls it. -/
def freeFrame (m : Machine) (addr : ℕ) : Machine := { m with frames := m.frames.release addr }

/-- `zeroed_table`, the same function in both `vmm.c`. It returns its argument as a pointer. -/
def zeroedTable (m : Machine) (frame : ℕ) : Machine :=
  { m with mem := (List.range 512).foldl (fun mem i ↦ mem.store (frame + 8 * i) 0) m.mem }

/-- The condition under which the allocator serves page tables whose entries hold addresses below
`limit`: every frame address is below that bound, frame 0 is not for use, and no request has
failed. -/
structure Serving (limit : ℕ) (desk : FrameDesk) : Prop where
  limit_le : limit ≤ 2 ^ 64
  frames_le : desk.pmm.totalFrames * frameSize ≤ limit
  zero_used : 0 ∉ freeSet desk.pmm
  neverExhausted : NeverExhausted desk

/-- The addresses of the free frames. -/
def freeAddresses (desk : FrameDesk) : Finset ℕ := (freeSet desk.pmm).image (· * frameSize)

theorem mul_mem_freeAddresses {desk : FrameDesk} {f : ℕ} :
    f * frameSize ∈ freeAddresses desk ↔ f ∈ freeSet desk.pmm := by
  rw [freeAddresses, mem_image]
  constructor
  · rintro ⟨g, hg, heq⟩
    rwa [← Nat.eq_of_mul_eq_mul_right (by norm_num) heq]
  · exact fun hf ↦ ⟨f, hf, rfl⟩

theorem mem_freeAddresses_iff {limit a : ℕ} {desk : FrameDesk} (ha : IsFrame limit a) :
    a ∈ freeAddresses desk ↔ a / frameSize ∈ freeSet desk.pmm := by
  rw [← mul_mem_freeAddresses, Nat.div_mul_cancel ha.aligned]

/-- Frame addresses below the bound of the entries do not wrap. -/
theorem Serving.wrap_frame {limit : ℕ} {desk : FrameDesk} (h : Serving limit desk) {f : ℕ}
    (hf : f ∈ freeSet desk.pmm) : wrap (f * frameSize) = f * frameSize := by
  have hlt := (mem_freeSet.mp hf).1
  have hmul := Nat.mul_lt_mul_of_pos_right hlt (by norm_num : 0 < frameSize)
  exact wrap_of_lt (lt_of_lt_of_le hmul (h.frames_le.trans h.limit_le))

/-- A request that was served came from a serving allocator, and took the frame it returned. -/
theorem Serving.of_alloc {limit : ℕ} {desk : FrameDesk} (h : Serving limit desk.alloc.1) :
    Serving limit desk ∧ ∃ f ∈ freeSet desk.pmm, desk.alloc.2 = f * frameSize ∧
      freeSet desk.alloc.1.pmm = (freeSet desk.pmm).erase f := by
  have hevents : FrameEvent.taken (pmmAllocFrame desk.pmm).2 :: desk.events = desk.alloc.1.events :=
    rfl
  obtain ⟨hresult, hbefore⟩ : (pmmAllocFrame desk.pmm).2 ≠ 0 ∧ NeverExhausted desk := by
    have hnever := h.neverExhausted
    rw [NeverExhausted, ← hevents, List.mem_cons, not_or] at hnever
    exact ⟨fun heq ↦ hnever.1 (by rw [heq]), hnever.2⟩
  rcases pmmAllocFrame_spec desk.pmm with ⟨-, hnone⟩ | ⟨f, hf, hlowest, haddr, hbecomes⟩
  · exact absurd (congrArg Prod.snd hnone) hresult
  · have hserving : Serving limit desk := by
      refine ⟨h.limit_le, ?_, fun hzero ↦ ?_, hbefore⟩
      · rw [← hbecomes.totalFrames_eq]
        exact h.frames_le
      · -- frame 0 is the lowest, and its address is the failure value
        have hf0 : f = 0 := Nat.le_zero.mp (hlowest 0 hzero)
        rw [haddr, hf0] at hresult
        exact hresult rfl
    refine ⟨hserving, f, hf, ?_, hbecomes.freeSet_eq⟩
    change (pmmAllocFrame desk.pmm).2 = _
    rw [haddr, hserving.wrap_frame hf]

/-- A request is served as long as there is a free frame. -/
theorem Serving.alloc {limit : ℕ} {desk : FrameDesk} (h : Serving limit desk)
    (hfree : (freeSet desk.pmm).Nonempty) : Serving limit desk.alloc.1 := by
  rcases pmmAllocFrame_spec desk.pmm with ⟨hempty, -⟩ | ⟨f, hf, -, haddr, hbecomes⟩
  · exact absurd hempty hfree.ne_empty
  · refine ⟨h.limit_le, ?_, fun hzero ↦ ?_, fun hmem ↦ ?_⟩
    · change (pmmAllocFrame desk.pmm).1.totalFrames * frameSize ≤ limit
      rw [hbecomes.totalFrames_eq]
      exact h.frames_le
    · have hzero : 0 ∈ freeSet (pmmAllocFrame desk.pmm).1 := hzero
      rw [hbecomes.freeSet_eq] at hzero
      exact h.zero_used (mem_of_mem_erase hzero)
    · have hmem : FrameEvent.taken 0 ∈
          FrameEvent.taken (pmmAllocFrame desk.pmm).2 :: desk.events := hmem
      rcases List.mem_cons.mp hmem with heq | hold
      · rw [haddr, h.wrap_frame hf, FrameEvent.taken.injEq] at heq
        have hzero : f = 0 := by simpa using heq.symm
        exact h.zero_used (hzero ▸ hf)
      · exact h.neverExhausted hold

/-- The frame allocator of the kernel as a source of frames for tables. -/
def pmmSource (limit : ℕ) : FrameSource FrameDesk limit where
  alloc := FrameDesk.alloc
  release := FrameDesk.release
  available := freeAddresses
  Sound := Serving limit
  sound_of_alloc := fun _ h ↦ h.of_alloc.1
  alloc_mem := fun desk h ↦ by
    obtain ⟨-, f, hf, haddr, -⟩ := h.of_alloc
    rw [haddr]
    exact mul_mem_freeAddresses.mpr hf
  available_alloc := fun desk h ↦ by
    obtain ⟨-, f, -, haddr, hfree⟩ := h.of_alloc
    rw [haddr, freeAddresses, hfree, freeAddresses,
      image_erase fun a b hab ↦ Nat.eq_of_mul_eq_mul_right (by norm_num) hab]
  isFrame := fun desk h a ha ↦ by
    obtain ⟨f, hf, rfl⟩ := mem_image.mp ha
    have hlt := (mem_freeSet.mp hf).1
    refine ⟨Nat.mul_pos (Nat.pos_of_ne_zero ?_) (by norm_num), Dvd.intro_left f rfl, ?_⟩
    · rintro rfl
      exact h.zero_used hf
    · exact lt_of_lt_of_le (Nat.mul_lt_mul_of_pos_right hlt (by norm_num)) h.frames_le
  served := fun desk h hfree ↦ h.alloc (image_nonempty.mp hfree)

/-- Allocating a frame and zeroing it is how a radix table gets a new table. -/
theorem newTable_eq (format : TableFormat) (m : Machine) :
    newTable format (pmmSource format.limit) m =
      (zeroedTable (allocFrame m).1 (allocFrame m).2, (allocFrame m).2) := by
  unfold newTable zeroedTable zeroTable
  rw [fanout_eq]
  rfl

/-- The index fields that both `vmm.c` cut out of a virtual address are the digits of its page
number. -/
theorem index_eq (virt level : ℕ) :
    (virt >>> (12 + 9 * level)) &&& 0x1FF = virt / 4096 / fanout ^ level % fanout := by
  have hmask : (0x1FF : ℕ) = 2 ^ 9 - 1 := by decide
  rw [hmask, Nat.and_two_pow_sub_one_eq_mod, Nat.shiftRight_eq_div_pow, Nat.div_div_eq_div_mul,
    fanout_eq, pow_add, pow_mul]
  rfl

/-! ### Requests -/

/-- What requests do to the allocator, served or not: there are as many frames as before, none
becomes free, and the record grows. -/
structure Descends (before after : FrameDesk) : Prop where
  totalFrames_eq : after.pmm.totalFrames = before.pmm.totalFrames
  freeSet_subset : freeSet after.pmm ⊆ freeSet before.pmm
  events_suffix : before.events <:+ after.events

theorem Descends.refl (desk : FrameDesk) : Descends desk desk :=
  ⟨rfl, Subset.refl _, List.suffix_rfl⟩

theorem Descends.alloc {before desk : FrameDesk} (h : Descends before desk) :
    Descends before desk.alloc.1 := by
  have hevents : before.events <:+ desk.alloc.1.events :=
    h.events_suffix.trans (List.suffix_cons _ _)
  rcases pmmAllocFrame_spec desk.pmm with ⟨-, hnone⟩ | ⟨f, -, -, -, hbecomes⟩
  · have hpmm : desk.alloc.1.pmm = desk.pmm := congrArg Prod.fst hnone
    exact ⟨hpmm ▸ h.totalFrames_eq, hpmm ▸ h.freeSet_subset, hevents⟩
  · refine ⟨hbecomes.totalFrames_eq.trans h.totalFrames_eq, ?_, hevents⟩
    change freeSet (pmmAllocFrame desk.pmm).1 ⊆ _
    rw [hbecomes.freeSet_eq]
    exact (erase_subset _ _).trans h.freeSet_subset

theorem Descends.trans {first middle last : FrameDesk} (h : Descends first middle)
    (h' : Descends middle last) : Descends first last :=
  ⟨h'.totalFrames_eq.trans h.totalFrames_eq, h'.freeSet_subset.trans h.freeSet_subset,
    h.events_suffix.trans h'.events_suffix⟩

theorem Descends.neverExhausted {before after : FrameDesk} (h : Descends before after)
    (hnever : NeverExhausted after) : NeverExhausted before :=
  fun hmem ↦ hnever (h.events_suffix.subset hmem)

theorem Descends.serving {limit : ℕ} {before after : FrameDesk} (h : Descends before after)
    (hserving : Serving limit before) (hnever : NeverExhausted after) : Serving limit after where
  limit_le := hserving.limit_le
  frames_le := h.totalFrames_eq ▸ hserving.frames_le
  zero_used := fun hzero ↦ hserving.zero_used (h.freeSet_subset hzero)
  neverExhausted := hnever

/-! ### Giving frames back -/

theorem totalFrames_foldl_release (frames : List ℕ) :
    ∀ desk : FrameDesk,
      (frames.foldl FrameDesk.release desk).pmm.totalFrames = desk.pmm.totalFrames := by
  induction frames with
  | nil => exact fun _ ↦ rfl
  | cons a frames ih =>
    intro desk
    rw [List.foldl_cons, ih]
    exact (becomes_pmmFreeFrame desk.pmm a).totalFrames_eq

theorem mem_freeSet_foldl_release (frames : List ℕ) :
    ∀ (desk : FrameDesk) (f : ℕ), f ∈ freeSet (frames.foldl FrameDesk.release desk).pmm ↔
      f ∈ freeSet desk.pmm ∨ f < desk.pmm.totalFrames ∧ ∃ a ∈ frames, a / frameSize = f := by
  induction frames with
  | nil => simp
  | cons a frames ih =>
    intro desk f
    have hhead := becomes_pmmFreeFrame desk.pmm a
    rw [List.foldl_cons, ih]
    change f ∈ freeSet (pmmFreeFrame desk.pmm a) ∨
      f < (pmmFreeFrame desk.pmm a).totalFrames ∧ _ ↔ _
    rw [hhead.freeSet_eq, hhead.totalFrames_eq]
    simp only [mem_union, mem_inter, mem_singleton, mem_range, List.mem_cons, exists_eq_or_imp]
    constructor
    · rintro ((hfree | ⟨rfl, hlt⟩) | ⟨hlt, hmem⟩)
      · exact Or.inl hfree
      · exact Or.inr ⟨hlt, Or.inl rfl⟩
      · exact Or.inr ⟨hlt, Or.inr hmem⟩
    · rintro (hfree | ⟨hlt, rfl | hmem⟩)
      · exact Or.inl (Or.inl hfree)
      · exact Or.inl (Or.inr ⟨rfl, hlt⟩)
      · exact Or.inr ⟨hlt, hmem⟩

/-- The calls that giving frames back records. -/
theorem events_foldl_release (frames : List ℕ) :
    ∀ desk : FrameDesk, (frames.foldl FrameDesk.release desk).events =
      (frames.map FrameEvent.returned).reverse ++ desk.events := by
  induction frames with
  | nil => exact fun _ ↦ rfl
  | cons a frames ih =>
    intro desk
    rw [List.foldl_cons, ih, List.map_cons, List.reverse_cons, List.append_assoc]
    rfl

end MegKer.Vmm
