import MegKer.Foundation.BitField
import MegKer.Vmm.TableFrames

/-!
# Address spaces

The two virtual memory managers have the same interface, and do the same things to page tables in
different formats. A `Backend` is the functions of one `vmm.c`, and `Paging` says of a backend
which radix tables they work on. Everything in this module holds for every backend with a `Paging`.

`Spaces` is the state of a running kernel as the manager sees it: the machine, the root table of
the kernel space, the root tables of the spaces that have been created and not destroyed, and the
frames that the rest of the kernel holds. `VmmCall` lists what can happen: the calls to the
manager, calls of the rest of the kernel to the frame allocator (frames for programs, and the
growth of the heap), and writes to memory. An `address_space_t` is known by a handle, a new one for
each creation; the object itself lies in the heap, where `vmmCreateAddressSpace` allocates it.

`WellFormed` is the invariant. The tables of all spaces are well-formed trees, no two of which
share a frame, and the used frames are the reserved ones, those the rest of the kernel holds, and
the tables: no frame is lost and none has two owners. `wellFormed_runs` states that it holds after
every sequence of calls in which the allocator is never exhausted.
-/

set_option autoImplicit false
set_option relaxedAutoImplicit false

namespace MegKer.Vmm

open Foundation Memory Finset

/-! ### Backends -/

/-- The functions of one `vmm.c`. Address spaces are given by their root table. -/
structure Backend where
  createAddressSpace : Machine → (kernelRoot : ℕ) → Machine × ℕ
  destroyAddressSpace : Machine → (root : ℕ) → Machine
  map : Machine → (root virt phys flags : ℕ) → Machine
  unmap : Machine → (root virt : ℕ) → Machine
  translate : Machine → (root virt : ℕ) → ℕ

/-- VMM_PRESENT, the same bit in both `vmm.h`. -/
abbrev presentFlag : ℕ := 1

/-- The page tables that a backend works on: their format, the number of levels below the root,
the links that `map` makes for given flags, its entry for a page, and the address in such an
entry. -/
structure Paging (backend : Backend) where
  format : TableFormat
  depth : ℕ
  links : (flags : ℕ) → LinkStyle format
  edit : (phys flags old : ℕ) → ℕ
  address : (entry : ℕ) → ℕ
  create_eq : ∀ m root, backend.createAddressSpace m root =
    cloneTable format (pmmSource format.limit) depth m root
  destroy_eq : ∀ m root, backend.destroyAddressSpace m root =
    releaseTable format (pmmSource format.limit) depth m root
  map_eq : ∀ m root virt phys flags, backend.map m root virt phys flags =
    editPath format (pmmSource format.limit) (links flags) (edit phys flags) m root
      (indexPath depth (virt / 4096))
  unmap_eq : ∀ m root virt, backend.unmap m root virt =
    match leafSlot format m.mem root (indexPath depth (virt / 4096)) with
    | some a => { m with mem := m.mem.store a 0 }
    | none => m
  translate_eq : ∀ m root virt, backend.translate m root virt =
    match leafSlot format m.mem root (indexPath depth (virt / 4096)) with
    | some a => if format.isPresent (m.mem a) then address (m.mem a) ||| (virt &&& 0xFFF) else 0
    | none => 0
  isPresent_edit : ∀ phys flags old, hasFlags flags presentFlag = true →
    format.isPresent (edit phys flags old) = true
  address_edit : ∀ phys flags old, hasFlags flags presentFlag = true → 4096 ∣ phys →
    phys < format.limit → address (edit phys flags old) = phys

/-! ### The system -/

/-- The name of an address space. -/
inductive Handle
  | kernel
  | user (n : ℕ)
  deriving DecidableEq, Repr

/-- The kernel as the virtual memory manager sees it. -/
structure Spaces where
  machine : Machine
  /-- The root table of `kernel_space`. -/
  kernelRoot : ℕ
  /-- The root tables of the spaces that exist, by the number of their creation. -/
  users : ℕ → Option ℕ
  next : ℕ
  /-- The frames that the rest of the kernel has allocated. -/
  held : Finset ℕ

/-- The allocator of the machine. -/
abbrev Spaces.pmm (s : Spaces) : Pmm := s.machine.frames.pmm

/-- The root table of a space. -/
def Spaces.root (s : Spaces) : Handle → Option ℕ
  | .kernel => some s.kernelRoot
  | .user n => s.users n

/-- One step of the system. -/
inductive VmmCall
  | create
  | map (space : Handle) (virt phys flags : ℕ)
  | unmap (space : Handle) (virt : ℕ)
  | destroy (space : Handle)
  /-- The rest of the kernel calls the frame allocator. -/
  | others (call : PmmCall)
  /-- The rest of the kernel, or a program, writes to memory. -/
  | write (mem : WordMemory)

/-- Apply a function of the manager to a space. -/
def Spaces.onRoot (s : Spaces) (space : Handle) (f : Machine → (root : ℕ) → Machine) : Spaces :=
  match s.root space with
  | some root => { s with machine := f s.machine root }
  | none => s

/-- The state after a step. `vmm_destroy_address_space` does nothing to the kernel space. The
frames that a call of the rest of the kernel takes are then held by it, and those it gives back
are not. -/
def VmmCall.run (backend : Backend) (s : Spaces) : VmmCall → Spaces
  | .create =>
    let (machine, root) := backend.createAddressSpace s.machine s.kernelRoot
    { s with
      machine := machine
      users := Function.update s.users s.next (some root)
      next := s.next + 1 }
  | .map space virt phys flags =>
    s.onRoot space fun m root ↦ backend.map m root virt phys flags
  | .unmap space virt => s.onRoot space fun m root ↦ backend.unmap m root virt
  | .destroy .kernel => s
  | .destroy (.user n) =>
    { s.onRoot (.user n) backend.destroyAddressSpace with users := Function.update s.users n none }
  | .others call =>
    let pmm := call.run s.pmm
    { s with
      machine := { s.machine with frames := { s.machine.frames with pmm := pmm } }
      held := (s.held ∪ (freeSet s.pmm \ freeSet pmm)) \ freeSet pmm }
  | .write mem => { s with machine := { s.machine with mem := mem } }

/-- The state after a sequence of steps. -/
def runs (backend : Backend) (s : Spaces) (calls : List VmmCall) : Spaces :=
  calls.foldl (VmmCall.run backend) s

section Paging

variable {backend : Backend} (paging : Paging backend)

/-- The frames of the allocator, as they serve the tables of the backend. -/
abbrev Paging.source : FrameSource FrameDesk paging.format.limit := pmmSource paging.format.limit

/-- The tables of the space with the given root. -/
abbrev Paging.tables (mem : WordMemory) (root : ℕ) : List ℕ :=
  Foundation.tables paging.format mem paging.depth root

/-- What a caller keeps to: a space that is used exists, the rest of the kernel gives back only
frames that it holds, and nobody else writes to page tables. -/
def VmmCall.Proper (s : Spaces) : VmmCall → Prop
  | .create => True
  | .map space _ _ _ => s.root space ≠ none
  | .unmap space _ => s.root space ≠ none
  | .destroy space => s.root space ≠ none
  | .others call => freeSet (call.run s.pmm) ⊆ freeSet s.pmm ∪ s.held
  | .write mem => ∀ space root, s.root space = some root →
    ∀ t ∈ paging.tables s.machine.mem root, SameTable s.machine.mem mem t

/-- A sequence of steps each of which is proper, and satisfies a further condition `ok`. -/
def Permitted (ok : VmmCall → Prop) : Spaces → List VmmCall → Prop
  | _, [] => True
  | s, call :: calls => ok call ∧ call.Proper paging s ∧ Permitted ok (call.run backend s) calls

/-! ### The invariant -/

/-- The frame is a table of some space. -/
def Claimed (s : Spaces) (t : ℕ) : Prop :=
  ∃ space root, s.root space = some root ∧ t ∈ paging.tables s.machine.mem root

/-- The state of the tables and the frames, for the frames `reserved` that are used from the
start. -/
structure WellFormed (reserved : Finset ℕ) (s : Spaces) : Prop where
  serving : Serving paging.format.limit s.machine.frames
  owned : ∀ space root, s.root space = some root →
    OwnedTree paging.source s.machine paging.depth root
  apart : ∀ space root other otherRoot, s.root space = some root → s.root other = some otherRoot →
    space ≠ other →
      List.Disjoint (paging.tables s.machine.mem root) (paging.tables s.machine.mem otherRoot)
  unborn : ∀ n, s.next ≤ n → s.users n = none
  mem_free : ∀ f, f ∈ freeSet s.pmm ↔ f < s.pmm.totalFrames ∧ f ∉ reserved ∧ f ∉ s.held ∧
    ¬ Claimed paging s (f * frameSize)
  held_apart : ∀ f ∈ s.held, 0 < f ∧ f < s.pmm.totalFrames ∧ f ∉ reserved ∧
    ¬ Claimed paging s (f * frameSize)
  users_apart : ∀ n root, s.users n = some root → ∀ t ∈ paging.tables s.machine.mem root,
    t / frameSize < s.pmm.totalFrames ∧ t / frameSize ∉ reserved

/-- A step leaves a space alone: it has the same root, and every table of it is as it was. -/
def Untouched (space : Handle) (before after : Spaces) : Prop :=
  after.root space = before.root space ∧ ∀ root, before.root space = some root →
    ∀ t ∈ paging.tables before.machine.mem root, SameTable before.machine.mem after.machine.mem t

variable {paging} {reserved : Finset ℕ} {s : Spaces}

theorem Untouched.tables_eq {space : Handle} {before after : Spaces} {root : ℕ}
    (h : Untouched paging space before after) (hroot : before.root space = some root) :
    paging.tables after.machine.mem root = paging.tables before.machine.mem root :=
  tables_congr _ _ (h.2 root hroot)

/-- With the same spaces, left alone, the tables are the same. -/
theorem claimed_congr {before after : Spaces}
    (hlive : ∀ space, after.root space ≠ none → before.root space ≠ none)
    (huntouched : ∀ space, before.root space ≠ none → Untouched paging space before after) (t : ℕ) :
    Claimed paging after t ↔ Claimed paging before t := by
  constructor
  · rintro ⟨space, root, hroot, ht⟩
    have hsame := huntouched space (hlive space (hroot ▸ Option.some_ne_none root))
    have hbefore := hsame.1.symm.trans hroot
    rw [hsame.tables_eq hbefore] at ht
    exact ⟨space, root, hbefore, ht⟩
  · rintro ⟨space, root, hroot, ht⟩
    have hsame := huntouched space (hroot ▸ Option.some_ne_none root)
    rw [← hsame.tables_eq hroot] at ht
    exact ⟨space, root, hsame.1.trans hroot, ht⟩

theorem Untouched.walk_eq {space : Handle} {before after : Spaces} {root : ℕ}
    (h : Untouched paging space before after) (hroot : before.root space = some root)
    {path : List ℕ} (hpath : IsPath paging.depth path) :
    walk paging.format after.machine.mem root path =
      walk paging.format before.machine.mem root path :=
  walk_congr _ _ (h.2 root hroot) path hpath

/-- Free frames are not tables. -/
theorem WellFormed.not_claimed_of_available (h : WellFormed paging reserved s) {t : ℕ}
    (havailable : t ∈ paging.source.available s.machine.frames) : ¬ Claimed paging s t := by
  obtain ⟨f, hf, rfl⟩ := mem_image.mp havailable
  exact ((h.mem_free f).mp hf).2.2.2

/-- The table frames of a user space are used. -/
theorem WellFormed.isFrame_of_claimed (h : WellFormed paging reserved s) {t : ℕ}
    (hclaimed : Claimed paging s t) : IsFrame paging.format.limit t := by
  obtain ⟨space, root, hroot, ht⟩ := hclaimed
  exact (h.owned space root hroot).isFrame t ht

/-! ### A space that grows -/

section Grow

variable {space : Handle} {root : ℕ} {machine : Machine} {added : List ℕ}

/-- Nothing happens to the other spaces. -/
theorem WellFormed.untouched_grown (h : WellFormed paging reserved s)
    (hroot : s.root space = some root)
    (hgrown : Grown paging.source paging.depth root s.machine machine added) {other : Handle}
    (hne : other ≠ space) : Untouched paging other s { s with machine := machine } := by
  refine ⟨rfl, fun otherRoot hother t ht ↦ ?_⟩
  refine hgrown.same t ((h.owned other otherRoot hother).isFrame t ht) (fun hadded ↦ ?_) ?_
  · exact h.not_claimed_of_available (hgrown.added_available t hadded)
      ⟨other, otherRoot, hother, ht⟩
  · exact fun hmem ↦ h.apart other otherRoot space root hother hroot hne ht hmem

theorem WellFormed.claimed_grown (h : WellFormed paging reserved s)
    (hroot : s.root space = some root)
    (hgrown : Grown paging.source paging.depth root s.machine machine added) (t : ℕ) :
    Claimed paging { s with machine := machine } t ↔ t ∈ added ∨ Claimed paging s t := by
  constructor
  · rintro ⟨other, otherRoot, hother, ht⟩
    by_cases hne : other = space
    · obtain rfl : otherRoot = root := Option.some.inj (hother.symm.trans (hne ▸ hroot))
      rcases List.mem_append.mp (hgrown.perm.mem_iff.mp ht) with hadded | hold
      · exact Or.inl hadded
      · exact Or.inr ⟨space, otherRoot, hroot, hold⟩
    · rw [(h.untouched_grown hroot hgrown hne).tables_eq hother] at ht
      exact Or.inr ⟨other, otherRoot, hother, ht⟩
  · rintro (hadded | ⟨other, otherRoot, hother, ht⟩)
    · exact ⟨space, root, hroot, hgrown.perm.mem_iff.mpr (List.mem_append_left _ hadded)⟩
    · by_cases hne : other = space
      · obtain rfl : otherRoot = root := Option.some.inj (hother.symm.trans (hne ▸ hroot))
        exact ⟨space, otherRoot, hroot, hgrown.perm.mem_iff.mpr (List.mem_append_right _ ht)⟩
      · refine ⟨other, otherRoot, hother, ?_⟩
        rwa [(h.untouched_grown hroot hgrown hne).tables_eq hother]

/-- The invariant is kept when one space grows. -/
theorem WellFormed.grown (h : WellFormed paging reserved s) (hroot : s.root space = some root)
    (hgrown : Grown paging.source paging.depth root s.machine machine added)
    (hserving : Serving paging.format.limit machine.frames)
    (htotal : machine.frames.pmm.totalFrames = s.pmm.totalFrames) :
    WellFormed paging reserved { s with machine := machine } := by
  have hclaimed := h.claimed_grown hroot hgrown
  have hsame : ∀ other otherRoot, s.root other = some otherRoot → other ≠ space →
      paging.tables machine.mem otherRoot = paging.tables s.machine.mem otherRoot :=
    fun other otherRoot hother hne ↦ (h.untouched_grown hroot hgrown hne).tables_eq hother
  have hfree : ∀ f, f ∈ freeSet machine.frames.pmm ↔
      f ∈ freeSet s.pmm ∧ f * frameSize ∉ added := by
    intro f
    have havailable := congrArg (f * frameSize ∈ ·) hgrown.available_eq
    simp only [mem_sdiff, List.mem_toFinset] at havailable
    exact mul_mem_freeAddresses.symm.trans
      ((iff_of_eq havailable).trans (and_congr_left' mul_mem_freeAddresses))
  have hdisjoint : ∀ other otherRoot, s.root other = some otherRoot → other ≠ space →
      List.Disjoint (paging.tables machine.mem root) (paging.tables machine.mem otherRoot) := by
    intro other otherRoot hother hne t ht hmem
    rw [hsame other otherRoot hother hne] at hmem
    rcases List.mem_append.mp (hgrown.perm.mem_iff.mp ht) with hadded | hold
    · exact h.not_claimed_of_available (hgrown.added_available t hadded)
        ⟨other, otherRoot, hother, hmem⟩
    · exact h.apart other otherRoot space root hother hroot hne hmem hold
  refine ⟨hserving, ?_, ?_, h.unborn, ?_, ?_, ?_⟩
  · intro other otherRoot hother
    by_cases hne : other = space
    · obtain rfl : otherRoot = root := Option.some.inj (hother.symm.trans (hne ▸ hroot))
      exact hgrown.ownedTree (h.owned space otherRoot hroot) h.serving
    · have howned := h.owned other otherRoot hother
      refine ⟨howned.toTreeAt.congr ((h.untouched_grown hroot hgrown hne).2 otherRoot hother),
        fun t ht ↦ ?_⟩
      rw [show tables paging.format machine.mem paging.depth otherRoot = _ from
        hsame other otherRoot hother hne] at ht
      rw [hgrown.available_eq, mem_sdiff]
      exact fun hmem ↦ howned.not_available t ht hmem.1
  · intro first firstRoot other otherRoot hfirst hother hne
    by_cases hfirstSpace : first = space
    · obtain rfl : firstRoot = root := Option.some.inj (hfirst.symm.trans (hfirstSpace ▸ hroot))
      exact hdisjoint other otherRoot hother fun heq ↦ hne (hfirstSpace.trans heq.symm)
    · by_cases hotherSpace : other = space
      · obtain rfl : otherRoot = root := Option.some.inj (hother.symm.trans (hotherSpace ▸ hroot))
        exact (hdisjoint first firstRoot hfirst hfirstSpace).symm
      · change List.Disjoint (paging.tables machine.mem firstRoot)
          (paging.tables machine.mem otherRoot)
        rw [hsame first firstRoot hfirst hfirstSpace, hsame other otherRoot hother hotherSpace]
        exact h.apart first firstRoot other otherRoot hfirst hother hne
  · intro f
    rw [hclaimed, not_or]
    change f ∈ freeSet machine.frames.pmm ↔ f < machine.frames.pmm.totalFrames ∧ _
    rw [hfree, h.mem_free, htotal]
    tauto
  · intro f hf
    obtain ⟨hpos, hlt, hreserved, hnot⟩ := h.held_apart f hf
    refine ⟨hpos, htotal ▸ hlt, hreserved, ?_⟩
    rw [hclaimed, not_or]
    refine ⟨fun hadded ↦ ?_, hnot⟩
    have hmem := mul_mem_freeAddresses.mp (hgrown.added_available _ hadded)
    exact ((h.mem_free f).mp hmem).2.2.1 hf
  · intro n userRoot huser t ht
    change _ < machine.frames.pmm.totalFrames ∧ _
    rw [htotal]
    by_cases hadded : t ∈ added
    · obtain ⟨f, hf, rfl⟩ := mem_image.mp (hgrown.added_available t hadded)
      rw [Nat.mul_div_cancel _ (by norm_num)]
      exact ⟨((h.mem_free f).mp hf).1, ((h.mem_free f).mp hf).2.1⟩
    · refine h.users_apart n userRoot huser t ?_
      by_cases hne : Handle.user n = space
      · obtain rfl : userRoot = root :=
          Option.some.inj ((show s.root (.user n) = some userRoot from huser).symm.trans
            (hne ▸ hroot))
        exact (List.mem_append.mp (hgrown.perm.mem_iff.mp ht)).resolve_left hadded
      · rwa [← hsame (.user n) userRoot huser hne]

end Grow

/-! ### A new space -/

/-- The state with one more space. -/
def Spaces.adopt (s : Spaces) (machine : Machine) (root : ℕ) : Spaces :=
  { s with
    machine := machine
    users := Function.update s.users s.next (some root)
    next := s.next + 1 }

theorem Spaces.root_adopt_new (s : Spaces) (machine : Machine) (root : ℕ) :
    (s.adopt machine root).root (.user s.next) = some root :=
  Function.update_self _ _ _

theorem Spaces.root_adopt (s : Spaces) (machine : Machine) (root : ℕ) {space : Handle}
    (hne : space ≠ .user s.next) : (s.adopt machine root).root space = s.root space := by
  cases space with
  | kernel => rfl
  | user n => exact Function.update_of_ne (fun h ↦ hne (by rw [h])) _ _

section Create

variable {root : ℕ} {machine : Machine}

/-- The space that is about to be created does not exist yet. -/
theorem WellFormed.root_next (h : WellFormed paging reserved s) :
    s.root (.user s.next) = none :=
  h.unborn s.next le_rfl

theorem WellFormed.untouched_adopt (h : WellFormed paging reserved s)
    (hfresh : FreshTree paging.format paging.source paging.depth root s.machine machine)
    {other : Handle} (hne : other ≠ .user s.next) :
    Untouched paging other s (s.adopt machine root) :=
  ⟨s.root_adopt machine root hne,
    fun otherRoot hother ↦ hfresh.same_owned (h.owned other otherRoot hother)⟩

theorem WellFormed.claimed_adopt (h : WellFormed paging reserved s)
    (hfresh : FreshTree paging.format paging.source paging.depth root s.machine machine) (t : ℕ) :
    Claimed paging (s.adopt machine root) t ↔
      t ∈ paging.tables machine.mem root ∨ Claimed paging s t := by
  constructor
  · rintro ⟨other, otherRoot, hother, ht⟩
    by_cases hne : other = .user s.next
    · rw [hne, s.root_adopt_new, Option.some.injEq] at hother
      exact Or.inl (hother ▸ ht)
    · have huntouched := h.untouched_adopt hfresh hne
      rw [huntouched.1] at hother
      rw [huntouched.tables_eq hother] at ht
      exact Or.inr ⟨other, otherRoot, hother, ht⟩
  · rintro (hnew | ⟨other, otherRoot, hother, ht⟩)
    · exact ⟨.user s.next, root, s.root_adopt_new machine root, hnew⟩
    · have hne : other ≠ .user s.next := by
        rintro rfl
        rw [h.root_next] at hother
        exact absurd hother (by simp)
      have huntouched := h.untouched_adopt hfresh hne
      exact ⟨other, otherRoot, huntouched.1.trans hother,
        by rwa [huntouched.tables_eq hother]⟩

/-- The invariant is kept when a space is made of fresh frames. -/
theorem WellFormed.adopt (h : WellFormed paging reserved s)
    (hfresh : FreshTree paging.format paging.source paging.depth root s.machine machine)
    (hserving : Serving paging.format.limit machine.frames)
    (htotal : machine.frames.pmm.totalFrames = s.pmm.totalFrames) :
    WellFormed paging reserved (s.adopt machine root) := by
  have hclaimed := h.claimed_adopt hfresh
  have hold : ∀ {other otherRoot}, (s.adopt machine root).root other = some otherRoot →
      other ≠ .user s.next → s.root other = some otherRoot ∧
        paging.tables machine.mem otherRoot = paging.tables s.machine.mem otherRoot := by
    intro other otherRoot hother hne
    have huntouched := h.untouched_adopt hfresh hne
    rw [huntouched.1] at hother
    exact ⟨hother, huntouched.tables_eq hother⟩
  have hnew : ∀ {other otherRoot}, (s.adopt machine root).root other = some otherRoot →
      other = .user s.next → otherRoot = root := by
    rintro other otherRoot hother rfl
    rw [s.root_adopt_new, Option.some.injEq] at hother
    exact hother.symm
  have hfree : ∀ f, f ∈ freeSet machine.frames.pmm ↔
      f ∈ freeSet s.pmm ∧ f * frameSize ∉ paging.tables machine.mem root := by
    intro f
    have havailable := congrArg (f * frameSize ∈ ·) hfresh.available_eq
    simp only [mem_sdiff, List.mem_toFinset] at havailable
    exact mul_mem_freeAddresses.symm.trans
      ((iff_of_eq havailable).trans (and_congr_left' mul_mem_freeAddresses))
  have hdisjoint : ∀ other otherRoot, s.root other = some otherRoot →
      List.Disjoint (paging.tables machine.mem root) (paging.tables s.machine.mem otherRoot) :=
    fun other otherRoot hother t ht hmem ↦
      h.not_claimed_of_available (hfresh.was_available t ht) ⟨other, otherRoot, hother, hmem⟩
  refine ⟨hserving, ?_, ?_, ?_, ?_, ?_, ?_⟩
  · intro other otherRoot hother
    by_cases hne : other = .user s.next
    · rw [hnew hother hne]
      exact hfresh.ownedTree h.serving
    · exact hfresh.owned_other (h.owned other otherRoot (hold hother hne).1)
  · intro first firstRoot other otherRoot hfirst hother hne
    change List.Disjoint (paging.tables machine.mem firstRoot) (paging.tables machine.mem otherRoot)
    by_cases hfirstNew : first = .user s.next
    · have hotherOld := hold hother fun heq ↦ hne (hfirstNew.trans heq.symm)
      rw [hnew hfirst hfirstNew, hotherOld.2]
      exact hdisjoint other otherRoot hotherOld.1
    · have hfirstOld := hold hfirst hfirstNew
      rw [hfirstOld.2]
      by_cases hotherNew : other = .user s.next
      · rw [hnew hother hotherNew]
        exact (hdisjoint first firstRoot hfirstOld.1).symm
      · rw [(hold hother hotherNew).2]
        exact h.apart first firstRoot other otherRoot hfirstOld.1 (hold hother hotherNew).1 hne
  · intro n hn
    have hlt : s.next + 1 ≤ n := hn
    exact (Function.update_of_ne (by omega) _ _).trans (h.unborn n (by omega))
  · intro f
    rw [hclaimed, not_or]
    change f ∈ freeSet machine.frames.pmm ↔ f < machine.frames.pmm.totalFrames ∧ _
    rw [hfree, h.mem_free, htotal]
    change _ ↔ _ ∧ _ ∧ f ∉ s.held ∧ _
    tauto
  · intro f hf
    obtain ⟨hpos, hlt, hreserved, hnot⟩ := h.held_apart f hf
    refine ⟨hpos, htotal ▸ hlt, hreserved, ?_⟩
    rw [hclaimed, not_or]
    refine ⟨fun hmem ↦ ?_, hnot⟩
    have hmem := mul_mem_freeAddresses.mp (hfresh.was_available _ hmem)
    exact ((h.mem_free f).mp hmem).2.2.1 hf
  · intro n userRoot huser t ht
    change _ < machine.frames.pmm.totalFrames ∧ _
    rw [htotal]
    have huser' : (s.adopt machine root).root (.user n) = some userRoot := huser
    by_cases hne : Handle.user n = .user s.next
    · obtain ⟨f, hf, rfl⟩ := mem_image.mp (hfresh.was_available t (hnew huser' hne ▸ ht))
      rw [Nat.mul_div_cancel _ (by norm_num)]
      exact ⟨((h.mem_free f).mp hf).1, ((h.mem_free f).mp hf).2.1⟩
    · obtain ⟨hroot, htables⟩ := hold huser' hne
      exact h.users_apart n userRoot hroot t (htables ▸ ht)

end Create

/-! ### A space that is destroyed -/

/-- The state without one of its spaces. -/
def Spaces.drop (s : Spaces) (n : ℕ) (frames : FrameDesk) : Spaces :=
  { s with
    machine := { s.machine with frames := frames }
    users := Function.update s.users n none }

theorem Spaces.root_drop (s : Spaces) (n : ℕ) (frames : FrameDesk) {space : Handle}
    (hne : space ≠ .user n) : (s.drop n frames).root space = s.root space := by
  cases space with
  | kernel => rfl
  | user k => exact Function.update_of_ne (fun h ↦ hne (by rw [h])) _ _

theorem Spaces.root_drop_self (s : Spaces) (n : ℕ) (frames : FrameDesk) :
    (s.drop n frames).root (.user n) = none :=
  Function.update_self _ _ _

section Destroy

variable {n root : ℕ}

theorem untouched_drop (frames : FrameDesk) {other : Handle} (hne : other ≠ .user n) :
    Untouched paging other s (s.drop n frames) :=
  ⟨s.root_drop n frames hne, fun _ _ t _ ↦ SameTable.refl _ t⟩

theorem claimed_drop (hroot : s.users n = some root) (frames : FrameDesk) (t : ℕ) :
    Claimed paging s t ↔
      t ∈ paging.tables s.machine.mem root ∨ Claimed paging (s.drop n frames) t := by
  constructor
  · rintro ⟨other, otherRoot, hother, ht⟩
    by_cases hne : other = .user n
    · rw [hne] at hother
      exact Or.inl (Option.some.inj (hother.symm.trans hroot) ▸ ht)
    · exact Or.inr ⟨other, otherRoot, (s.root_drop n frames hne).trans hother, ht⟩
  · rintro (ht | ⟨other, otherRoot, hother, ht⟩)
    · exact ⟨.user n, root, hroot, ht⟩
    · have hne : other ≠ .user n := by
        rintro rfl
        rw [s.root_drop_self] at hother
        exact absurd hother (by simp)
      exact ⟨other, otherRoot, (s.root_drop n frames hne) ▸ hother, ht⟩

theorem WellFormed.drop_apart (h : WellFormed paging reserved s) (hroot : s.users n = some root)
    (frames : FrameDesk) {t : ℕ} (ht : t ∈ paging.tables s.machine.mem root) :
    ¬ Claimed paging (s.drop n frames) t := by
  rintro ⟨other, otherRoot, hother, hmem⟩
  have hne : other ≠ .user n := by
    rintro rfl
    rw [s.root_drop_self] at hother
    exact absurd hother (by simp)
  rw [s.root_drop n frames hne] at hother
  exact h.apart (.user n) root other otherRoot hroot hother hne.symm ht hmem

/-- Giving the tables of a space back, the allocator goes on serving. -/
theorem WellFormed.serving_drop (h : WellFormed paging reserved s) (hroot : s.users n = some root) :
    Serving paging.format.limit
      ((paging.tables s.machine.mem root).foldl FrameDesk.release s.machine.frames) where
  limit_le := h.serving.limit_le
  frames_le := by
    rw [totalFrames_foldl_release]
    exact h.serving.frames_le
  zero_used := by
    rw [mem_freeSet_foldl_release]
    rintro (hfree | ⟨-, t, ht, hzero⟩)
    · exact h.serving.zero_used hfree
    · have hframe := (h.owned (.user n) root hroot).isFrame t ht
      have hpos := hframe.pos
      obtain ⟨k, rfl⟩ := hframe.aligned
      rw [Nat.mul_div_cancel_left k (by norm_num)] at hzero
      omega
  neverExhausted := by
    rw [NeverExhausted, events_foldl_release]
    have hbefore : FrameEvent.taken 0 ∉ s.machine.frames.events := h.serving.neverExhausted
    simpa using hbefore

/-- The invariant is kept when the tables of a user space are given back. -/
theorem WellFormed.drop (h : WellFormed paging reserved s) (hroot : s.users n = some root) :
    WellFormed paging reserved (s.drop n
      ((paging.tables s.machine.mem root).foldl FrameDesk.release s.machine.frames)) := by
  have hserving := h.serving_drop hroot
  have hfree := mem_freeSet_foldl_release (paging.tables s.machine.mem root) s.machine.frames
  have htotal := totalFrames_foldl_release (paging.tables s.machine.mem root) s.machine.frames
  generalize (paging.tables s.machine.mem root).foldl FrameDesk.release s.machine.frames = frames
    at hserving hfree htotal
  have hclaimed : ∀ t, Claimed paging s t ↔ t ∈ paging.tables s.machine.mem root ∨
      Claimed paging (s.drop n frames) t := claimed_drop hroot frames
  have hold : ∀ other otherRoot, (s.drop n frames).root other = some otherRoot →
      other ≠ .user n ∧ s.root other = some otherRoot := by
    intro other otherRoot hother
    have hne : other ≠ .user n := by
      rintro rfl
      rw [s.root_drop_self] at hother
      exact absurd hother (by simp)
    exact ⟨hne, (s.root_drop n frames hne) ▸ hother⟩
  have hframe : ∀ f, (∃ t ∈ paging.tables s.machine.mem root, t / frameSize = f) ↔
      f * frameSize ∈ paging.tables s.machine.mem root := by
    intro f
    constructor
    · rintro ⟨t, ht, rfl⟩
      rwa [Nat.div_mul_cancel ((h.owned (.user n) root hroot).isFrame t ht).aligned]
    · exact fun ht ↦ ⟨_, ht, Nat.mul_div_cancel f (by norm_num)⟩
  refine ⟨hserving, ?_, ?_, ?_, ?_, ?_, ?_⟩
  · intro other otherRoot hother
    obtain ⟨hne, hother⟩ := hold other otherRoot hother
    have howned := h.owned other otherRoot hother
    refine ⟨howned.toTreeAt, fun t ht hmem ↦ ?_⟩
    have hmem := (hfree _).mp ((mem_freeAddresses_iff (howned.isFrame t ht)).mp hmem)
    rcases hmem with hfree | ⟨-, hback⟩
    · exact howned.not_available t ht ((mem_freeAddresses_iff (howned.isFrame t ht)).mpr hfree)
    · rw [hframe, Nat.div_mul_cancel (howned.isFrame t ht).aligned] at hback
      exact h.apart other otherRoot (.user n) root hother hroot hne ht hback
  · intro first firstRoot other otherRoot hfirst hother
    exact h.apart first firstRoot other otherRoot (hold _ _ hfirst).2 (hold _ _ hother).2
  · intro k hk
    by_cases heq : k = n
    · rw [heq]
      exact Function.update_self _ _ _
    · exact (Function.update_of_ne heq _ _).trans (h.unborn k hk)
  · intro f
    change f ∈ freeSet frames.pmm ↔ f < frames.pmm.totalFrames ∧ f ∉ reserved ∧ f ∉ s.held ∧ _
    rw [hfree, h.mem_free, hframe, htotal, hclaimed, not_or]
    constructor
    · rintro (⟨hlt, hreserved, hheld, -, hnot⟩ | ⟨hlt, hmem⟩)
      · exact ⟨hlt, hreserved, hheld, hnot⟩
      · have hreserved := (h.users_apart n root hroot _ hmem).2
        rw [Nat.mul_div_cancel f (by norm_num)] at hreserved
        refine ⟨hlt, hreserved, fun hheld ↦ ?_, h.drop_apart hroot frames hmem⟩
        exact (h.held_apart f hheld).2.2.2 ⟨.user n, root, hroot, hmem⟩
    · rintro ⟨hlt, hreserved, hheld, hnot⟩
      by_cases hmem : f * frameSize ∈ paging.tables s.machine.mem root
      · exact Or.inr ⟨hlt, hmem⟩
      · exact Or.inl ⟨hlt, hreserved, hheld, hmem, hnot⟩
  · intro f hf
    obtain ⟨hpos, hlt, hreserved, hnot⟩ := h.held_apart f hf
    exact ⟨hpos, htotal ▸ hlt, hreserved, fun hmem ↦ hnot ((hclaimed _).mpr (Or.inr hmem))⟩
  · intro k userRoot huser t ht
    change _ < frames.pmm.totalFrames ∧ _
    rw [htotal]
    exact h.users_apart k userRoot (hold (.user k) userRoot huser).2 t ht

end Destroy

/-! ### What the rest of the kernel does -/

/-- The invariant is kept by calls of the rest of the kernel to the allocator, which concern frames
that are free or that it holds. -/
theorem WellFormed.others (h : WellFormed paging reserved s) {call : PmmCall}
    (hproper : (VmmCall.others call).Proper paging s) :
    WellFormed paging reserved ((VmmCall.others call).run backend s) := by
  obtain ⟨free, hbecomes⟩ := exists_becomes_run s.pmm call
  have htotal := hbecomes.totalFrames_eq
  have hproper : freeSet (call.run s.pmm) ⊆ freeSet s.pmm ∪ s.held := hproper
  have hclaimed : ∀ t, Claimed paging ((VmmCall.others call).run backend s) t ↔
      Claimed paging s t := fun _ ↦ Iff.rfl
  have hfresh : ∀ f ∈ freeSet (call.run s.pmm), 0 < f ∧ f < s.pmm.totalFrames ∧ f ∉ reserved ∧
      ¬ Claimed paging s (f * frameSize) := by
    intro f hf
    rcases mem_union.mp (hproper hf) with hfree | hheld
    · obtain ⟨hlt, hreserved, -, hnot⟩ := (h.mem_free f).mp hfree
      exact ⟨Nat.pos_of_ne_zero fun hzero ↦ h.serving.zero_used (hzero ▸ hfree), hlt, hreserved,
        hnot⟩
    · exact h.held_apart f hheld
  refine ⟨⟨h.serving.limit_le, ?_, fun hzero ↦ ?_, h.serving.neverExhausted⟩, ?_, h.apart,
    h.unborn, ?_, ?_, ?_⟩
  · change (call.run s.pmm).totalFrames * frameSize ≤ _
    rw [htotal]
    exact h.serving.frames_le
  · exact absurd (hfresh 0 hzero).1 (by omega)
  · intro space root hroot
    have howned := h.owned space root hroot
    refine ⟨howned.toTreeAt, fun t ht hmem ↦ ?_⟩
    have hmem := (mem_freeAddresses_iff (howned.isFrame t ht)).mp hmem
    have hnot := (hfresh _ hmem).2.2.2
    rw [Nat.div_mul_cancel (howned.isFrame t ht).aligned] at hnot
    exact hnot ⟨space, root, hroot, ht⟩
  · intro f
    rw [hclaimed]
    change f ∈ freeSet (call.run s.pmm) ↔ f < (call.run s.pmm).totalFrames ∧ f ∉ reserved ∧
      f ∉ (s.held ∪ (freeSet s.pmm \ freeSet (call.run s.pmm))) \ freeSet (call.run s.pmm) ∧ _
    rw [htotal]
    constructor
    · intro hf
      obtain ⟨-, hlt, hreserved, hnot⟩ := hfresh f hf
      exact ⟨hlt, hreserved, fun hheld ↦ (mem_sdiff.mp hheld).2 hf, hnot⟩
    · rintro ⟨hlt, hreserved, hheld, hnot⟩
      by_contra hused
      refine hheld (mem_sdiff.mpr ⟨mem_union.mpr ?_, hused⟩)
      by_cases hold : f ∈ s.held
      · exact Or.inl hold
      · exact Or.inr (mem_sdiff.mpr ⟨(h.mem_free f).mpr ⟨hlt, hreserved, hold, hnot⟩, hused⟩)
  · intro f hf
    have hf : f ∈ (s.held ∪ (freeSet s.pmm \ freeSet (call.run s.pmm))) \
        freeSet (call.run s.pmm) := hf
    rw [hclaimed]
    change 0 < f ∧ f < (call.run s.pmm).totalFrames ∧ _
    rw [htotal]
    rcases mem_union.mp (mem_sdiff.mp hf).1 with hheld | htaken
    · exact h.held_apart f hheld
    · have hfree := (mem_sdiff.mp htaken).1
      obtain ⟨hlt, hreserved, -, hnot⟩ := (h.mem_free f).mp hfree
      exact ⟨Nat.pos_of_ne_zero fun hzero ↦ h.serving.zero_used (hzero ▸ hfree), hlt, hreserved,
        hnot⟩
  · intro n root hroot t ht
    change _ < (call.run s.pmm).totalFrames ∧ _
    rw [htotal]
    exact h.users_apart n root hroot t ht

/-- Writes off the page tables leave every space alone. -/
theorem untouched_write {mem : WordMemory} (hproper : (VmmCall.write mem).Proper paging s)
    (space : Handle) : Untouched paging space s ((VmmCall.write mem).run backend s) :=
  ⟨rfl, fun root hroot ↦ hproper space root hroot⟩

theorem WellFormed.write (h : WellFormed paging reserved s) {mem : WordMemory}
    (hproper : (VmmCall.write mem).Proper paging s) :
    WellFormed paging reserved ((VmmCall.write mem).run backend s) := by
  have htables : ∀ space root, s.root space = some root →
      paging.tables mem root = paging.tables s.machine.mem root :=
    fun space root hroot ↦ (untouched_write hproper space).tables_eq hroot
  have hclaimed : ∀ t, Claimed paging ((VmmCall.write mem).run backend s) t ↔
      Claimed paging s t := by
    intro t
    constructor
    · rintro ⟨space, root, hroot, ht⟩
      exact ⟨space, root, hroot, htables space root hroot ▸ ht⟩
    · rintro ⟨space, root, hroot, ht⟩
      exact ⟨space, root, hroot, (htables space root hroot).symm ▸ ht⟩
  refine ⟨h.serving, ?_, ?_, h.unborn, ?_, ?_, ?_⟩
  · intro space root hroot
    have howned := h.owned space root hroot
    refine ⟨howned.toTreeAt.congr (hproper space root hroot), fun t ht ↦ ?_⟩
    have ht : t ∈ paging.tables mem root := ht
    rw [htables space root hroot] at ht
    exact howned.not_available t ht
  · intro space root other otherRoot hroot hother hne
    change List.Disjoint (paging.tables mem root) (paging.tables mem otherRoot)
    rw [htables space root hroot, htables other otherRoot hother]
    exact h.apart space root other otherRoot hroot hother hne
  · intro f
    rw [hclaimed]
    exact h.mem_free f
  · intro f hf
    rw [hclaimed]
    exact h.held_apart f hf
  · intro n root hroot t ht
    exact h.users_apart n root hroot t (htables (.user n) root hroot ▸ ht)

/-! ### What the calls to the manager do -/

section Calls

variable {space : Handle} {root : ℕ}

theorem Spaces.onRoot_eq (hroot : s.root space = some root) (f : Machine → (root : ℕ) → Machine) :
    s.onRoot space f = { s with machine := f s.machine root } := by
  unfold Spaces.onRoot
  rw [hroot]

theorem descends_map (paging : Paging backend) (m : Machine) (root virt phys flags : ℕ) :
    Descends m.frames (backend.map m root virt phys flags).frames := by
  rw [paging.map_eq]
  exact frames_editPath paging.source (Descends m.frames) (fun _ h ↦ h.alloc) _ _ _ (Descends.refl _)

theorem descends_create (paging : Paging backend) (m : Machine) (root : ℕ) :
    Descends m.frames (backend.createAddressSpace m root).1.frames := by
  rw [paging.create_eq]
  exact frames_cloneTable paging.source (Descends m.frames) (fun _ h ↦ h.alloc) _ (Descends.refl _)

/-- `vmm_map` edits one page of one space. -/
theorem WellFormed.map_spec (h : WellFormed paging reserved s) (hroot : s.root space = some root)
    {virt phys flags : ℕ}
    (hnever : NeverExhausted (backend.map s.machine root virt phys flags).frames) :
    (∃ added, Grown paging.source paging.depth root s.machine
      (backend.map s.machine root virt phys flags) added) ∧
    Edited (paging.links flags) (paging.edit phys flags) paging.depth root
      (indexPath paging.depth (virt / 4096)) s.machine.mem
      (backend.map s.machine root virt phys flags).mem := by
  have hserving := (descends_map paging s.machine root virt phys flags).serving h.serving hnever
  rw [paging.map_eq] at hserving ⊢
  obtain ⟨added, hgrown, hedited⟩ := editPath_spec paging.source (paging.links flags)
    (paging.edit phys flags) paging.depth (isPath_indexPath _ (virt / 4096))
    (h.owned space root hroot) hserving
  exact ⟨⟨added, hgrown⟩, hedited⟩

/-- `vmm_unmap` clears one page of one space, and takes no frames. -/
theorem WellFormed.unmap_spec (h : WellFormed paging reserved s) (hroot : s.root space = some root)
    (virt : ℕ) :
    Grown paging.source paging.depth root s.machine (backend.unmap s.machine root virt) [] ∧
    Edited (paging.links 0).still (fun _ ↦ 0) paging.depth root
      (indexPath paging.depth (virt / 4096)) s.machine.mem
      (backend.unmap s.machine root virt).mem := by
  have hpath := isPath_indexPath paging.depth (virt / 4096)
  have hleaf : (walk paging.format s.machine.mem root
      (indexPath paging.depth (virt / 4096))).leaf = _ := leaf_of_leafSlot _ hpath
  rw [paging.unmap_eq]
  cases hslot : leafSlot paging.format s.machine.mem root
      (indexPath paging.depth (virt / 4096)) with
  | some a =>
    exact store_leafSlot_spec paging.source (paging.links 0) (fun _ ↦ 0) hpath
      (h.owned space root hroot) h.serving hslot
  | none =>
    rw [hslot, Option.elim_none] at hleaf
    refine ⟨⟨List.Perm.refl _, List.nodup_nil, by simp, by simp,
      fun t _ _ _ ↦ SameTable.refl _ t⟩, fun _ _ ↦ rfl, fun other _ ↦ ?_, fun _ _ h ↦ h⟩
    split_ifs with hcase
    · rw [hcase.1, hleaf]
    · rfl

/-- `vmm_create_address_space` copies the kernel space. -/
theorem WellFormed.create_spec (h : WellFormed paging reserved s)
    (hnever : NeverExhausted (backend.createAddressSpace s.machine s.kernelRoot).1.frames) :
    Cloned paging.format paging.source paging.depth s.kernelRoot
      (backend.createAddressSpace s.machine s.kernelRoot).2 s.machine
      (backend.createAddressSpace s.machine s.kernelRoot).1 := by
  have hserving := (descends_create paging s.machine s.kernelRoot).serving h.serving hnever
  rw [paging.create_eq] at hserving ⊢
  exact (clones_cloneTable paging.depth).cloned _ _ (h.owned .kernel s.kernelRoot rfl) hserving

theorem run_create (s : Spaces) : VmmCall.create.run backend s =
    s.adopt (backend.createAddressSpace s.machine s.kernelRoot).1
      (backend.createAddressSpace s.machine s.kernelRoot).2 := rfl

/-- `vmm_destroy_address_space` gives back the frames of the tables of the space, each once. -/
theorem run_destroy (paging : Paging backend) {n : ℕ} (hroot : s.users n = some root) :
    (VmmCall.destroy (.user n)).run backend s =
      s.drop n ((paging.tables s.machine.mem root).foldl FrameDesk.release s.machine.frames) := by
  have huser : s.root (.user n) = some root := hroot
  rw [VmmCall.run, Spaces.onRoot_eq huser, paging.destroy_eq, releaseTable_eq]
  rfl

end Calls

/-! ### Runs -/

/-- No step changes the number of frames, and the record of calls to the allocator grows. -/
theorem frames_run (paging : Paging backend) (s : Spaces) (call : VmmCall) :
    (call.run backend s).pmm.totalFrames = s.pmm.totalFrames ∧
      s.machine.frames.events <:+ (call.run backend s).machine.frames.events := by
  have hroot : ∀ space f, (∀ root, (f s.machine root).frames.pmm.totalFrames = s.pmm.totalFrames ∧
      s.machine.frames.events <:+ (f s.machine root).frames.events) →
      (s.onRoot space f).pmm.totalFrames = s.pmm.totalFrames ∧
        s.machine.frames.events <:+ (s.onRoot space f).machine.frames.events := by
    intro space f hf
    unfold Spaces.onRoot
    cases s.root space with
    | none => exact ⟨rfl, List.suffix_rfl⟩
    | some root => exact hf root
  cases call with
  | create =>
    have hdescends := descends_create paging s.machine s.kernelRoot
    exact ⟨hdescends.totalFrames_eq, hdescends.events_suffix⟩
  | map space virt phys flags =>
    refine hroot space _ fun root ↦ ?_
    have hdescends := descends_map paging s.machine root virt phys flags
    exact ⟨hdescends.totalFrames_eq, hdescends.events_suffix⟩
  | unmap space virt =>
    refine hroot space _ fun root ↦ ?_
    rw [paging.unmap_eq]
    split <;> exact ⟨rfl, List.suffix_rfl⟩
  | destroy space =>
    cases space with
    | kernel => exact ⟨rfl, List.suffix_rfl⟩
    | user n =>
      refine hroot (.user n) _ fun root ↦ ?_
      rw [paging.destroy_eq, releaseTable_eq]
      change (List.foldl FrameDesk.release s.machine.frames _).pmm.totalFrames = _ ∧
        _ <:+ (List.foldl FrameDesk.release s.machine.frames _).events
      rw [events_foldl_release]
      exact ⟨totalFrames_foldl_release _ _, List.suffix_append _ _⟩
  | others call =>
    obtain ⟨free, hbecomes⟩ := exists_becomes_run s.pmm call
    exact ⟨hbecomes.totalFrames_eq, List.suffix_rfl⟩
  | write mem => exact ⟨rfl, List.suffix_rfl⟩

theorem neverExhausted_of_runs (paging : Paging backend) (calls : List VmmCall) :
    ∀ {s : Spaces}, NeverExhausted (runs backend s calls).machine.frames →
      NeverExhausted s.machine.frames := by
  induction calls with
  | nil => exact fun h ↦ h
  | cons call calls ih =>
    exact fun h hmem ↦ ih h ((frames_run paging _ call).2.subset hmem)

/-- One step keeps the invariant. -/
theorem wellFormed_run (h : WellFormed paging reserved s) {call : VmmCall}
    (hproper : call.Proper paging s)
    (hnever : NeverExhausted (call.run backend s).machine.frames) :
    WellFormed paging reserved (call.run backend s) := by
  cases call with
  | create =>
    rw [run_create] at hnever ⊢
    have hdescends := descends_create paging s.machine s.kernelRoot
    exact h.adopt (h.create_spec hnever).toFreshTree (hdescends.serving h.serving hnever)
      hdescends.totalFrames_eq
  | map space virt phys flags =>
    obtain ⟨root, hroot⟩ := Option.ne_none_iff_exists'.mp hproper
    rw [VmmCall.run, Spaces.onRoot_eq hroot] at hnever ⊢
    have hdescends := descends_map paging s.machine root virt phys flags
    obtain ⟨⟨added, hgrown⟩, -⟩ := h.map_spec hroot hnever
    exact h.grown hroot hgrown (hdescends.serving h.serving hnever) hdescends.totalFrames_eq
  | unmap space virt =>
    obtain ⟨root, hroot⟩ := Option.ne_none_iff_exists'.mp hproper
    rw [VmmCall.run, Spaces.onRoot_eq hroot]
    have hframes : (backend.unmap s.machine root virt).frames = s.machine.frames := by
      rw [paging.unmap_eq]
      split <;> rfl
    exact h.grown hroot (h.unmap_spec hroot virt).1 (hframes ▸ h.serving) (by rw [hframes])
  | destroy space =>
    cases space with
    | kernel => exact h
    | user n =>
      obtain ⟨root, hroot⟩ := Option.ne_none_iff_exists'.mp hproper
      rw [run_destroy paging hroot]
      exact h.drop hroot
  | others call => exact h.others hproper
  | write mem => exact h.write hproper

theorem Spaces.root_onRoot (s : Spaces) (space : Handle) (f : Machine → (root : ℕ) → Machine) :
    (s.onRoot space f).root = s.root := by
  unfold Spaces.onRoot
  cases s.root space <;> rfl

/-- A space that exists after a step existed before, with the same root table, or it is the one
that the step created. -/
theorem root_run_cases {call : VmmCall} {space : Handle} {root : ℕ}
    (hroot : (call.run backend s).root space = some root) :
    s.root space = some root ∨
      call = .create ∧ space = .user s.next ∧
        (backend.createAddressSpace s.machine s.kernelRoot).2 = root := by
  cases call with
  | create =>
    rw [run_create] at hroot
    by_cases hnew : space = .user s.next
    · rw [hnew, s.root_adopt_new] at hroot
      exact Or.inr ⟨rfl, hnew, Option.some.inj hroot⟩
    · rw [s.root_adopt _ _ hnew] at hroot
      exact Or.inl hroot
  | map target virt phys flags =>
    rw [VmmCall.run, s.root_onRoot] at hroot
    exact Or.inl hroot
  | unmap target virt =>
    rw [VmmCall.run, s.root_onRoot] at hroot
    exact Or.inl hroot
  | destroy target =>
    refine Or.inl ?_
    cases target with
    | kernel => exact hroot
    | user n =>
      cases space with
      | kernel => rwa [← s.root_onRoot (.user n) backend.destroyAddressSpace]
      | user k =>
        have hupdate : Function.update s.users n none k = some root := hroot
        by_cases hk : k = n
        · rw [hk, Function.update_self] at hupdate
          exact absurd hupdate (Option.some_ne_none root).symm
        · rwa [Function.update_of_ne hk] at hupdate
  | others call => exact Or.inl hroot
  | write mem => exact Or.inl hroot

/-- The space that a step is about. -/
def VmmCall.subject : VmmCall → Option Handle
  | .map space _ _ _ => some space
  | .unmap space _ => some space
  | .destroy space => some space
  | .create => none
  | .others _ => none
  | .write _ => none

/-- The steps that are about a space. -/
theorem VmmCall.subject_cases {call : VmmCall} {space : Handle} (h : call.subject = some space) :
    (∃ virt phys flags, call = .map space virt phys flags) ∨ (∃ virt, call = .unmap space virt) ∨
      call = .destroy space := by
  cases call with
  | create => exact absurd h (Option.some_ne_none space).symm
  | map target virt phys flags =>
    exact Or.inl ⟨virt, phys, flags, by rw [Option.some.inj h]⟩
  | unmap target virt => exact Or.inr (Or.inl ⟨virt, by rw [Option.some.inj h]⟩)
  | destroy target => exact Or.inr (Or.inr (congrArg VmmCall.destroy (Option.some.inj h)))
  | others call => exact absurd h (Option.some_ne_none space).symm
  | write mem => exact absurd h (Option.some_ne_none space).symm

/-- Every step leaves all spaces alone but the one it is about. -/
theorem untouched_run (h : WellFormed paging reserved s) {call : VmmCall}
    (hproper : call.Proper paging s)
    (hnever : NeverExhausted (call.run backend s).machine.frames) {space : Handle}
    (hlive : s.root space ≠ none) (hsubject : call.subject ≠ some space) :
    Untouched paging space s (call.run backend s) := by
  cases call with
  | create =>
    rw [run_create] at hnever ⊢
    refine h.untouched_adopt (h.create_spec hnever).toFreshTree fun heq ↦ hlive ?_
    rw [heq]
    exact h.root_next
  | map other virt phys flags =>
    obtain ⟨root, hroot⟩ := Option.ne_none_iff_exists'.mp hproper
    rw [VmmCall.run, Spaces.onRoot_eq hroot] at hnever ⊢
    obtain ⟨⟨added, hgrown⟩, -⟩ := h.map_spec hroot hnever
    exact h.untouched_grown hroot hgrown fun heq ↦ hsubject (congrArg some heq.symm)
  | unmap other virt =>
    obtain ⟨root, hroot⟩ := Option.ne_none_iff_exists'.mp hproper
    rw [VmmCall.run, Spaces.onRoot_eq hroot]
    exact h.untouched_grown hroot (h.unmap_spec hroot virt).1
      fun heq ↦ hsubject (congrArg some heq.symm)
  | destroy other =>
    cases other with
    | kernel => exact ⟨rfl, fun _ _ t _ ↦ SameTable.refl _ t⟩
    | user n =>
      obtain ⟨root, hroot⟩ := Option.ne_none_iff_exists'.mp hproper
      rw [run_destroy paging hroot]
      exact untouched_drop _ fun heq ↦ hsubject (congrArg some heq.symm)
  | others call => exact ⟨rfl, fun _ _ t _ ↦ SameTable.refl _ t⟩
  | write mem => exact untouched_write hproper space

/-- A space that lives through a step is mapped in, is unmapped in, or is left alone. -/
theorem survivor_cases (h : WellFormed paging reserved s) {call : VmmCall}
    (hproper : call.Proper paging s)
    (hnever : NeverExhausted (call.run backend s).machine.frames) {space : Handle} {root : ℕ}
    (hbefore : s.root space = some root) (hafter : (call.run backend s).root space = some root) :
    (∃ virt phys flags, call = .map space virt phys flags) ∨ (∃ virt, call = .unmap space virt) ∨
      Untouched paging space s (call.run backend s) := by
  by_cases hsubject : call.subject = some space
  · rcases VmmCall.subject_cases hsubject with hmap | hunmap | rfl
    · exact Or.inl hmap
    · exact Or.inr (Or.inl hunmap)
    · cases space with
      | kernel => exact Or.inr (Or.inr ⟨rfl, fun _ _ t _ ↦ SameTable.refl _ t⟩)
      | user n =>
        rw [run_destroy paging hbefore, s.root_drop_self] at hafter
        exact absurd hafter (Option.some_ne_none root).symm
  · have hlive : s.root space ≠ none := hbefore ▸ Option.some_ne_none root
    exact Or.inr (Or.inr (untouched_run h hproper hnever hlive hsubject))

/-- What every step keeps holds after every permitted sequence of steps in which the allocator is never
exhausted. -/
theorem invariant_runs {ok : VmmCall → Prop} {P : Spaces → Prop}
    (hkept : ∀ {s : Spaces} {call : VmmCall}, WellFormed paging reserved s → P s →
      call.Proper paging s →
      NeverExhausted (call.run backend s).machine.frames → P (call.run backend s))
    (calls : List VmmCall) :
    ∀ {s : Spaces}, WellFormed paging reserved s → P s → Permitted paging ok s calls →
      NeverExhausted (runs backend s calls).machine.frames → P (runs backend s calls) := by
  induction calls with
  | nil => exact fun _ h _ _ ↦ h
  | cons call calls ih =>
    intro s hwell h hpermitted hnever
    obtain ⟨-, hproper, hrest⟩ := hpermitted
    have hstep := neverExhausted_of_runs (s := call.run backend s) paging calls hnever
    exact ih (wellFormed_run hwell hproper hstep) (hkept hwell h hproper hstep) hrest hnever

theorem wellFormed_runs {ok : VmmCall → Prop} (calls : List VmmCall) {s : Spaces}
    (h : WellFormed paging reserved s) (hpermitted : Permitted paging ok s calls)
    (hnever : NeverExhausted (runs backend s calls).machine.frames) :
    WellFormed paging reserved (runs backend s calls) :=
  invariant_runs (fun _ hwell hproper hstep ↦ wellFormed_run hwell hproper hstep) calls h h
    hpermitted hnever

/-- The condition on the steps holds of each one. -/
theorem Permitted.forall_mem {ok : VmmCall → Prop} {calls : List VmmCall} :
    ∀ {s : Spaces}, Permitted paging ok s calls → ∀ call ∈ calls, ok call := by
  induction calls with
  | nil => exact fun _ ↦ List.forall_mem_nil _
  | cons call calls ih => exact fun h ↦ List.forall_mem_cons.mpr ⟨h.1, ih h.2.2⟩

theorem Permitted.mono {ok ok' : VmmCall → Prop} (hok : ∀ call, ok call → ok' call)
    {calls : List VmmCall} :
    ∀ {s : Spaces}, Permitted paging ok s calls → Permitted paging ok' s calls := by
  induction calls with
  | nil => exact fun _ ↦ trivial
  | cons call calls ih => exact fun h ↦ ⟨hok call h.1, h.2.1, ih h.2.2⟩

theorem runs_append (s : Spaces) (calls more : List VmmCall) :
    runs backend s (calls ++ more) = runs backend (runs backend s calls) more :=
  List.foldl_append

theorem permitted_append {ok : VmmCall → Prop} {calls more : List VmmCall} :
    ∀ {s : Spaces}, Permitted paging ok s (calls ++ more) ↔
      Permitted paging ok s calls ∧ Permitted paging ok (runs backend s calls) more := by
  induction calls with
  | nil => exact (iff_of_eq (true_and _)).symm
  | cons call calls ih =>
    intro s
    rw [List.cons_append, Permitted, Permitted, ih, and_assoc, and_assoc]
    rfl

theorem totalFrames_runs (paging : Paging backend) (calls : List VmmCall) :
    ∀ s : Spaces, (runs backend s calls).pmm.totalFrames = s.pmm.totalFrames := by
  induction calls with
  | nil => exact fun _ ↦ rfl
  | cons call calls ih => exact fun s ↦ (ih _).trans (frames_run paging s call).1

theorem Untouched.trans {space : Handle} {first second third : Spaces}
    (h : Untouched paging space first second) (h' : Untouched paging space second third) :
    Untouched paging space first third := by
  refine ⟨h'.1.trans h.1, fun root hroot t ht ↦ ?_⟩
  refine (h.2 root hroot t ht).trans (h'.2 root (h.1.trans hroot) t ?_)
  rwa [h.tables_eq hroot]

/-- A run that is not about a space leaves it alone. -/
theorem untouched_runs {ok : VmmCall → Prop} (calls : List VmmCall) {space : Handle} :
    ∀ {s : Spaces}, WellFormed paging reserved s → Permitted paging ok s calls →
      NeverExhausted (runs backend s calls).machine.frames → s.root space ≠ none →
      (∀ call ∈ calls, call.subject ≠ some space) →
        Untouched paging space s (runs backend s calls) := by
  induction calls with
  | nil => exact fun _ _ _ _ _ ↦ ⟨rfl, fun _ _ t _ ↦ SameTable.refl _ t⟩
  | cons call calls ih =>
    intro s h hpermitted hnever hlive hsubject
    obtain ⟨-, hproper, hrest⟩ := hpermitted
    obtain ⟨hhead, htail⟩ := List.forall_mem_cons.mp hsubject
    have hstep := neverExhausted_of_runs (s := call.run backend s) paging calls hnever
    have huntouched := untouched_run h hproper hstep hlive hhead
    exact huntouched.trans
      (ih (wellFormed_run h hproper hstep) hrest hnever (huntouched.1 ▸ hlive) htail)

/-- Without a creation, the spaces that exist after a run existed before. -/
theorem root_of_runs {calls : List VmmCall} {space : Handle} {root : ℕ} :
    ∀ {s : Spaces}, (∀ call ∈ calls, call ≠ .create) →
      (runs backend s calls).root space = some root → s.root space = some root := by
  induction calls with
  | nil => exact fun _ hroot ↦ hroot
  | cons call calls ih =>
    intro s hcalls hroot
    obtain ⟨hhead, htail⟩ := List.forall_mem_cons.mp hcalls
    rcases root_run_cases (ih htail hroot) with hbefore | ⟨hcreate, -⟩
    · exact hbefore
    · exact absurd hcreate hhead

/-- Only calls of the rest of the kernel change the frames it holds. -/
theorem held_runs {calls : List VmmCall} :
    ∀ {s : Spaces}, (∀ call ∈ calls, ∀ request, call ≠ .others request) →
      (runs backend s calls).held = s.held := by
  induction calls with
  | nil => exact fun _ ↦ rfl
  | cons call calls ih =>
    intro s hcalls
    obtain ⟨hhead, htail⟩ := List.forall_mem_cons.mp hcalls
    have hroot : ∀ space f, (s.onRoot space f).held = s.held := by
      intro space f
      unfold Spaces.onRoot
      cases s.root space <;> rfl
    refine (ih htail).trans ?_
    cases call with
    | create => rfl
    | map space virt phys flags => exact hroot _ _
    | unmap space virt => exact hroot _ _
    | destroy space =>
      cases space with
      | kernel => rfl
      | user n => exact hroot _ _
    | others request => exact absurd rfl (hhead request)
    | write mem => rfl

/-! ### Enough frames -/

theorem card_freeAddresses (desk : FrameDesk) :
    (freeAddresses desk).card = (freeSet desk.pmm).card :=
  card_image_of_injective _ fun _ _ h ↦ Nat.eq_of_mul_eq_mul_right (by norm_num) h

/-- Creating a space needs as many frames as the kernel space has tables, and takes as many. -/
theorem WellFormed.create_served (h : WellFormed paging reserved s)
    (hcard : (paging.tables s.machine.mem s.kernelRoot).length ≤ (freeSet s.pmm).card) :
    NeverExhausted (VmmCall.create.run backend s).machine.frames ∧
      (freeSet (VmmCall.create.run backend s).pmm).card +
        (paging.tables s.machine.mem s.kernelRoot).length = (freeSet s.pmm).card := by
  have hserving : Serving paging.format.limit
      (backend.createAddressSpace s.machine s.kernelRoot).1.frames := by
    rw [paging.create_eq]
    have hclones : Clones paging.format paging.source paging.depth
        (cloneTable paging.format paging.source paging.depth) := clones_cloneTable paging.depth
    refine hclones.served _ _ (h.owned .kernel s.kernelRoot rfl) h.serving ?_
    change _ ≤ (freeAddresses s.machine.frames).card
    rwa [card_freeAddresses]
  have hcloned := h.create_spec hserving.neverExhausted
  have hleft := hcloned.card_available
  rw [hcloned.length_eq] at hleft
  change (freeAddresses _).card + _ = (freeAddresses _).card at hleft
  rw [card_freeAddresses, card_freeAddresses] at hleft
  exact ⟨hserving.neverExhausted, hleft⟩

/-- Mapping a page needs at most a frame for each level below the root. -/
theorem WellFormed.map_served (h : WellFormed paging reserved s) {space : Handle} {root : ℕ}
    (hroot : s.root space = some root) {virt phys flags : ℕ}
    (hcard : paging.depth ≤ (freeSet s.pmm).card) :
    NeverExhausted ((VmmCall.map space virt phys flags).run backend s).machine.frames := by
  rw [VmmCall.run, Spaces.onRoot_eq hroot, paging.map_eq]
  refine (sound_editPath paging.source (paging.links flags) (paging.edit phys flags) _
    h.serving ?_).neverExhausted
  change _ ≤ (freeAddresses s.machine.frames).card + 1
  rw [card_freeAddresses, (isPath_indexPath paging.depth (virt / 4096)).length_eq]
  exact Nat.succ_le_succ hcard

/-- The allocator has the frames that a step takes: as many as the kernel space has tables for a new
space, and as many as there are tables missing on the way to a page that is mapped. -/
def VmmCall.HasFrames (paging : Paging backend) (s : Spaces) : VmmCall → Prop
  | .create => (paging.tables s.machine.mem s.kernelRoot).length ≤ (freeSet s.pmm).card
  | .map space virt _ _ => ∀ root, s.root space = some root →
    (walk paging.format s.machine.mem root (indexPath paging.depth (virt / 4096))).block
        paging.format = none →
      (walk paging.format s.machine.mem root (indexPath paging.depth (virt / 4096))).level ≤
        (freeSet s.pmm).card
  | .unmap _ _ => True
  | .destroy _ => True
  | .others _ => True
  | .write _ => True

/-- A step that has its frames does not exhaust the allocator. -/
theorem WellFormed.served (h : WellFormed paging reserved s) {call : VmmCall}
    (hproper : call.Proper paging s) (hframes : call.HasFrames paging s) :
    NeverExhausted (call.run backend s).machine.frames := by
  cases call with
  | create => exact (h.create_served hframes).1
  | map space virt phys flags =>
    obtain ⟨root, hroot⟩ := Option.ne_none_iff_exists'.mp hproper
    rw [VmmCall.run, Spaces.onRoot_eq hroot, paging.map_eq]
    refine (sound_editPath_of_walk paging.source (paging.links flags) (paging.edit phys flags)
      paging.depth (isPath_indexPath _ _) (h.owned space root hroot) h.serving
      fun hnone ↦ ?_).neverExhausted
    change _ ≤ (freeAddresses s.machine.frames).card
    rw [card_freeAddresses]
    exact hframes root hroot hnone
  | unmap space virt =>
    obtain ⟨root, hroot⟩ := Option.ne_none_iff_exists'.mp hproper
    rw [VmmCall.run, Spaces.onRoot_eq hroot, paging.unmap_eq]
    split <;> exact h.serving.neverExhausted
  | destroy space =>
    cases space with
    | kernel => exact h.serving.neverExhausted
    | user n =>
      obtain ⟨root, hroot⟩ := Option.ne_none_iff_exists'.mp hproper
      rw [run_destroy paging hroot]
      exact (h.serving_drop hroot).neverExhausted
  | others call => exact h.serving.neverExhausted
  | write mem => exact h.serving.neverExhausted

/-- With enough frames, a space can be created and a page mapped in it. -/
theorem WellFormed.create_map_served (h : WellFormed paging reserved s) {ok : VmmCall → Prop}
    {virt phys flags : ℕ}
    (hcard : (paging.tables s.machine.mem s.kernelRoot).length + paging.depth ≤
      (freeSet s.pmm).card)
    (hcreate : ok .create) (hmap : ok (.map (.user s.next) virt phys flags)) :
    Permitted paging ok s [.create, .map (.user s.next) virt phys flags] ∧
      NeverExhausted
        (runs backend s [.create, .map (.user s.next) virt phys flags]).machine.frames ∧
      ∃ root, (runs backend s [.create, .map (.user s.next) virt phys flags]).root
        (.user s.next) = some root := by
  obtain ⟨hserved, hleft⟩ := h.create_served (by omega)
  have hafter : WellFormed paging reserved (VmmCall.create.run backend s) :=
    wellFormed_run h trivial hserved
  have hroot : (VmmCall.create.run backend s).root (.user s.next) =
      some (backend.createAddressSpace s.machine s.kernelRoot).2 := by
    rw [run_create]
    exact s.root_adopt_new _ _
  refine ⟨⟨hcreate, trivial, hmap, ?_, trivial⟩, ?_,
    (backend.createAddressSpace s.machine s.kernelRoot).2, ?_⟩
  · change (VmmCall.create.run backend s).root (.user s.next) ≠ none
    rw [hroot]
    exact Option.some_ne_none _
  · exact hafter.map_served hroot (by omega)
  · have hsame : ∀ t : Spaces,
        ((VmmCall.map (.user s.next) virt phys flags).run backend t).root = t.root :=
      fun t ↦ t.root_onRoot _ _
    exact (congrFun (hsame _) _).trans hroot

end Paging

end MegKer.Vmm
