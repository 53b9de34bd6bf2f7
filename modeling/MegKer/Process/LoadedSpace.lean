import MegKer.Memory.KernelHeap
import MegKer.Process.LoadedImage

/-!
# The loader on the machine

The simulation of `UserSpace`, applied to `process_run` after any run of the kernel: when the steps are
admissible and there are enough frames, the machine shows what they do in the abstract model
(`exists_holds`). How many frames are enough is known before the first step (`EnoughFrames`): as many as
the kernel space has tables, for the copy of them, and those that the steps demand.

The heap works twice in the meantime: `vmm_create_address_space` calls `kmalloc` for its
`address_space_t`, and between the end of the loading and the entry into user mode the launch stack is
allocated and filled. The heap may take frames and write to memory, but not to page tables or to frames
of others; `HeapSteps` is what is known of it. It keeps all address spaces as they are
(`HeapSteps.keeps`), so the loops start in a state that shows what it showed before
(`exists_created`), and `Shows.heapSteps` states the same of the space of the process. The frames for the
steps have to be there when the first call of the heap is over.
-/

set_option autoImplicit false
set_option relaxedAutoImplicit false

namespace MegKer.Process

open Foundation Memory Vmm Finset

/-- What is reached from a state of the kernel is a state of the kernel. -/
theorem Reaches.reachable {port : Port} {start s : Spaces} (h : Reaches port.paging start s)
    (hstart : port.Reachable start) (hwell : WellFormed port.paging port.reserved s) :
    port.Reachable s := by
  obtain ⟨calls, hcalls, -, rfl⟩ := hstart
  obtain ⟨more, hmore, rfl⟩ := h
  exact ⟨calls ++ more, permitted_append.mpr ⟨hcalls, hmore⟩, hwell.serving.neverExhausted,
    runs_append _ _ _⟩

/-! ### The steps of the heap -/

/-- What the heap does to the machine: it takes frames from the allocator, and it writes to memory,
but to no page table and to none of the frames `kept` by others. -/
inductive HeapSteps {backend : Backend} (paging : Paging backend) (kept : List ℕ) :
    Spaces → Spaces → Prop
  | refl (s : Spaces) : HeapSteps paging kept s s
  | take {s t : Spaces} (h : HeapSteps paging kept s t) (call : PmmCall)
      (htakes : freeSet (call.run t.pmm) ⊆ freeSet t.pmm) :
      HeapSteps paging kept s ((VmmCall.others call).run backend t)
  | write {s t : Spaces} (h : HeapSteps paging kept s t) (mem : WordMemory)
      (hproper : (VmmCall.write mem).Proper paging t)
      (hkept : ∀ frame ∈ kept, SameTable t.machine.mem mem frame) :
      HeapSteps paging kept s ((VmmCall.write mem).run backend t)

/-- The frames that are free in one state, and not in a later one. -/
def takenBetween (before after : Spaces) : Finset ℕ := freeSet before.pmm \ freeSet after.pmm

section Heap

variable {backend : Backend} {paging : Paging backend} {reserved : Finset ℕ} {kept : List ℕ}
  {s t : Spaces}

theorem Reaches.trans {r : Spaces} (h : Reaches paging r s) (h' : Reaches paging s t) :
    Reaches paging r t := by
  obtain ⟨calls, hcalls, rfl⟩ := h
  obtain ⟨more, hmore, rfl⟩ := h'
  exact ⟨calls ++ more, permitted_append.mpr ⟨hcalls, hmore⟩, runs_append _ _ _⟩

theorem Reaches.totalFrames_eq (h : Reaches paging s t) : t.pmm.totalFrames = s.pmm.totalFrames := by
  obtain ⟨calls, -, rfl⟩ := h
  exact totalFrames_runs paging calls s

/-- What the heap leaves as it is. -/
structure HeapKeeps (paging : Paging backend) (reserved : Finset ℕ) (s t : Spaces) : Prop where
  well : WellFormed paging reserved t
  reached : Reaches paging s t
  root_eq : ∀ space, t.root space = s.root space
  untouched : ∀ space, Untouched paging space s t
  free_subset : freeSet t.pmm ⊆ freeSet s.pmm
  held_eq : t.held = s.held ∪ takenBetween s t

/-- The steps of the heap keep all tables, and hold what they take. -/
theorem HeapSteps.keeps (h : HeapSteps paging kept s t) (hwell : WellFormed paging reserved s) :
    HeapKeeps paging reserved s t := by
  induction h with
  | refl =>
    exact ⟨hwell, .refl _, fun _ ↦ rfl, fun _ ↦ ⟨rfl, fun _ _ _ _ _ _ ↦ rfl⟩, Subset.refl _,
      by rw [takenBetween, sdiff_self]; exact (union_empty _).symm⟩
  | @take t _ call htakes ih =>
    refine ⟨ih.well.others (proper_of_takes htakes), ih.reached.step (proper_of_takes htakes),
      ih.root_eq, ih.untouched, htakes.trans ih.free_subset, ?_⟩
    have hsplit : takenBetween s ((VmmCall.others call).run backend t) =
        takenBetween s t ∪ (freeSet t.pmm \ freeSet (call.run t.pmm)) := by
      ext f
      have hsub := @ih.free_subset f
      have hafter : f ∈ freeSet (call.run t.pmm) → f ∈ freeSet t.pmm := @htakes f
      change f ∈ freeSet s.pmm \ freeSet (call.run t.pmm) ↔ _
      rw [takenBetween, mem_union, mem_sdiff, mem_sdiff, mem_sdiff]
      tauto
    rw [ih.well.held_take htakes, ih.held_eq, hsplit, union_assoc]
  | write _ mem hproper _ ih =>
    exact ⟨ih.well.write hproper, ih.reached.step hproper, ih.root_eq,
      fun space ↦ (ih.untouched space).trans (untouched_write hproper space), ih.free_subset,
      ih.held_eq⟩

end Heap

/-- The heap leaves the address space of a process as it is. -/
theorem Shows.heapSteps {backend : Backend} {paging : Paging backend} {reserved : Finset ℕ}
    {start s t : Spaces} {space : Handle} {root : ℕ} {levels : ℕ → ℕ} {u : UserSpace}
    {frameOf : ℕ → ℕ} {kept : List ℕ}
    (h : Shows paging reserved start space root levels u frameOf s)
    (hkept : ∀ page content, u page = some content → frameOf page ∈ kept)
    (hsteps : HeapSteps paging kept s t) :
    Shows paging reserved start space root levels u frameOf t := by
  induction hsteps with
  | refl => exact h
  | take _ call htakes hbefore => exact hbefore.take htakes
  | write _ mem hproper hsame hbefore =>
    refine hbefore.write hproper (fun _ ↦ rfl)
      fun page content bytes hcontent hbytes offset hoffset ↦ ?_
    have hframe := hbefore.isFrame page content hcontent
    refine ((hsame _ (hkept page content hcontent)).byteAt_eq ?_).trans
      (hbefore.bytes_eq page content bytes hcontent hbytes offset hoffset)
    obtain ⟨k, hk⟩ := hframe.aligned
    omega

/-! ### The state in which the loops start -/

section Rebase

variable {backend : Backend} {paging : Paging backend} {reserved : Finset ℕ} {s t r : Spaces}
  {space : Handle} {root startRoot : ℕ} {levels startLevels : ℕ → ℕ} {u startMap : UserSpace}
  {frameOf startFrames : ℕ → ℕ}

/-- The walks in the kernel space are the same as at the start. -/
theorem Shows.kernel_walkTo (h : Shows paging reserved s space root levels u frameOf t)
    (hspace : Handle.kernel ≠ space) (page : ℕ) :
    paging.walkTo t.machine.mem t.kernelRoot page = paging.walkTo s.machine.mem s.kernelRoot page := by
  have hroot : t.kernelRoot = s.kernelRoot := Option.some.inj (h.others_eq .kernel hspace)
  rw [hroot]
  exact Paging.walkTo_congr (h.untouched .kernel hspace (Option.some_ne_none s.kernelRoot)) rfl page

/-- What is shown may be taken as the start of what follows. -/
theorem Shows.holds_self (h : Shows paging reserved s space root levels u frameOf t)
    (hspace : Handle.kernel ≠ space) : Holds paging reserved t space root levels u frameOf t where
  well := h.well
  reached := .refl t
  root_eq := h.root_eq
  others_eq := fun _ _ ↦ rfl
  untouched := fun _ _ _ ↦ ⟨rfl, fun _ _ _ _ _ _ ↦ rfl⟩
  block_eq := fun page hpage ↦ by rw [h.block_eq page hpage, h.kernel_walkTo hspace]
  level_eq := h.level_eq
  vacant := fun page hpage hnone ↦ by rw [h.vacant page hpage hnone, h.kernel_walkTo hspace]
  shown := h.shown
  present := h.present
  isFrame := h.isFrame
  held := h.held
  distinct := h.distinct
  bytes_eq := h.bytes_eq
  fresh := fun _ _ _ _ ↦ rfl
  lowest := .refl t.pmm

/-- What is shown since a later start is shown since the first one. -/
theorem Shows.rebase (h : Shows paging reserved t space root levels u frameOf r)
    (hspace : Handle.kernel ≠ space)
    (hstart : Shows paging reserved s space startRoot startLevels startMap startFrames t) :
    Shows paging reserved s space root levels u frameOf r where
  well := h.well
  reached := hstart.reached.trans h.reached
  root_eq := h.root_eq
  others_eq := fun other hother ↦ (h.others_eq other hother).trans (hstart.others_eq other hother)
  untouched := fun other hother hlive ↦ by
    have hlive' : t.root other ≠ none := by rwa [hstart.others_eq other hother]
    exact (hstart.untouched other hother hlive).trans (h.untouched other hother hlive')
  block_eq := fun page hpage ↦ by rw [h.block_eq page hpage, hstart.kernel_walkTo hspace]
  level_eq := h.level_eq
  vacant := fun page hpage hnone ↦ by rw [h.vacant page hpage hnone, hstart.kernel_walkTo hspace]
  shown := h.shown
  present := h.present
  isFrame := h.isFrame
  held := h.held
  distinct := h.distinct
  bytes_eq := h.bytes_eq

end Rebase

/-! ### Enough frames -/

section Frames

variable (port : Port) (kmalloc : Spaces → Spaces) (image : Image) (s : Spaces)

/-- The tables that are missing on the way to each page of the kernel space. -/
def kernelLevels (page : ℕ) : ℕ := (port.paging.walkTo s.machine.mem s.kernelRoot page).level

/-- The state when `vmm_create_address_space` has returned. -/
def created : Spaces := kmalloc (VmmCall.create.run port.backend s)

/-- In `vmm_create_address_space`, `kmalloc` does what the heap does. -/
def Allocates : Prop :=
  HeapSteps port.paging [] (VmmCall.create.run port.backend s) (created port kmalloc s)

/-- The frames that the loops take for the given steps. -/
def framesFor (ops : List LoadOp) : ℕ := demand port.paging (kernelLevels port s) ops

/-- There are frames for the copy of the kernel space and, when the heap has taken what it needs for
the `address_space_t`, for the steps. -/
structure EnoughFrames (ops : List LoadOp) : Prop where
  copy : (port.paging.tables s.machine.mem s.kernelRoot).length ≤ (freeSet s.pmm).card
  steps : framesFor port s ops ≤ (freeSet (created port kmalloc s).pmm).card

/-- The state after a part of the steps. -/
def loadedBy (ops : List LoadOp) : Loader :=
  ops.foldl (LoadOp.run port.backend image (.user s.next)) (started port.backend kmalloc image s)

variable {port kmalloc image s}

/-- An image that is accepted is loaded, and user mode is entered. -/
theorem processRun_entered (hvalid : elfValid port.elfMachine image = true) :
    port.processRun kmalloc image s = .entered (loadedBy port kmalloc image s (plan port.userStackTop image))
      ⟨image.eEntry, port.userStackTop⟩ := by
  rw [Port.processRun_def, processRun_eq, if_pos hvalid]
  rfl

theorem framesFor_append (ops more : List LoadOp) :
    framesFor port s (ops ++ more) = framesFor port s ops +
      demand port.paging (levelsRun port.paging (kernelLevels port s) ops) more :=
  demand_append ops more _

theorem EnoughFrames.of_append {ops more : List LoadOp}
    (h : EnoughFrames port kmalloc s (ops ++ more)) : EnoughFrames port kmalloc s ops := by
  have hsteps := h.steps
  rw [framesFor_append] at hsteps
  exact ⟨h.copy, by omega⟩

theorem framesFor_le (ops : List LoadOp) :
    framesFor port s ops ≤ (port.paging.depth + 1) * ops.length := by
  have hlevels : ∀ page, kernelLevels port s page ≤ port.paging.depth :=
    fun page ↦ level_walk_le _ (isPath_indexPath _ page)
  exact demand_le ops hlevels

/-- The steps for an image are as many as its headers, pages and bytes, and four for the user stack. -/
theorem length_plan_le (bound : ℕ) {top : ℕ} (hbound : ∀ i < image.ePhnum,
      (image.programHeader i).pageCount + (image.programHeader i).pFilesz ≤ bound) :
    (plan top image).length ≤ image.ePhnum * (bound + 1) + userStackPages := by
  have hsegment : ∀ i < image.ePhnum, (segmentPlan image i).length ≤ bound + 1 := by
    intro i hi
    have hle := hbound i hi
    rw [segmentPlan, List.length_cons, ProgramHeader.plan]
    split_ifs
    · rw [List.length_append, ProgramHeader.pagePlan, ProgramHeader.copyPlan, List.length_map,
        List.length_map, List.length_range, List.length_range]
      omega
    · exact Nat.succ_le_succ (Nat.zero_le _)
  have hsegments : ∀ n ≤ image.ePhnum, (segmentsPlan image n).length ≤ n * (bound + 1) := by
    intro n
    induction n with
    | zero => exact fun _ ↦ Nat.zero_le _
    | succ n ih =>
      intro hn
      have hbefore := ih (by omega)
      have hlast := hsegment n hn
      rw [segmentsPlan_succ, List.length_append, Nat.succ_mul]
      omega
  have hplan : plan top image = segmentsPlan image image.ePhnum ++ stackPlan top := rfl
  rw [hplan, List.length_append, stackPlan, List.length_map, List.length_range]
  exact Nat.add_le_add_right (hsegments _ le_rfl) _

/-- The loops start in a state that shows an address space without pages. The heap has kept what the
creation left, which has only taken frames. -/
theorem exists_created (hs : port.Reachable s) (hheap : Allocates port kmalloc s)
    (hcopy : (port.paging.tables s.machine.mem s.kernelRoot).length ≤ (freeSet s.pmm).card) :
    ∃ root,
      Holds port.paging port.reserved s (.user s.next) root (kernelLevels port s) UserSpace.empty
        (fun _ ↦ 0) (VmmCall.create.run port.backend s) ∧
      Shows port.paging port.reserved s (.user s.next) root (kernelLevels port s) UserSpace.empty
        (fun _ ↦ 0) (created port kmalloc s) ∧
      HeapKeeps port.paging port.reserved (VmmCall.create.run port.backend s)
        (created port kmalloc s) := by
  have hblocks := hs.hasBlocks .kernel s.kernelRoot rfl
  obtain ⟨hserved, -⟩ := hs.wellFormed.create_served hcopy
  obtain ⟨root, hholds⟩ := holds_create hs.wellFormed hserved
    (fun page hpage entry hentry ↦ port.isPresent_blocks page entry
      ((hblocks page hpage).symm.trans hentry)) fun _ ↦ 0
  exact ⟨root, hholds, hholds.toShows.heapSteps
    (fun page content hcontent ↦ absurd hcontent (Option.some_ne_none _).symm) hheap,
    hheap.keeps hholds.well⟩

/-- The steps of the loader on the machine are those of the abstract model. -/
theorem exists_holds (hs : port.Reachable s) (hheap : Allocates port kmalloc s) {ops : List LoadOp}
    (hops : Admissible port.paging image port.blocks UserSpace.empty ops)
    (hframes : EnoughFrames port kmalloc s ops) :
    ∃ root frameOf,
      Shows port.paging port.reserved s (.user s.next) root
        (levelsRun port.paging (kernelLevels port s) ops)
        (UserSpace.empty.run port.paging image ops) frameOf
        (loadedBy port kmalloc image s ops).spaces ∧
      Holds port.paging port.reserved (created port kmalloc s) (.user s.next) root
        (levelsRun port.paging (kernelLevels port s) ops)
        (UserSpace.empty.run port.paging image ops) frameOf
        (loadedBy port kmalloc image s ops).spaces ∧
      Confined (created port kmalloc s) (UserSpace.empty.run port.paging image ops) frameOf
        (loadedBy port kmalloc image s ops) ∧
      (freeSet (loadedBy port kmalloc image s ops).spaces.pmm).card + framesFor port s ops =
        (freeSet (created port kmalloc s).pmm).card := by
  have hspace : Handle.kernel ≠ .user s.next := Handle.noConfusion
  obtain ⟨root, -, hshows, -⟩ := exists_created hs hheap hframes.copy
  have hblocks : ∀ page < port.paging.pages,
      (port.paging.walkTo (created port kmalloc s).machine.mem (created port kmalloc s).kernelRoot
        page).block port.paging.format = port.blocks page := by
    intro page hpage
    rw [hshows.kernel_walkTo hspace]
    exact hs.hasBlocks .kernel s.kernelRoot rfl page hpage
  have hconfined : Confined (created port kmalloc s) UserSpace.empty (fun _ ↦ 0)
      (started port.backend kmalloc image s) :=
    ⟨fun page content hcontent ↦ absurd hcontent (Option.some_ne_none _).symm,
      fun a ha ↦ absurd ha List.not_mem_nil, fun a ha ↦ absurd ha List.not_mem_nil, List.nodup_nil,
      fun f ↦ (or_iff_left List.not_mem_nil).symm⟩
  obtain ⟨frameOf, hholds, hafter, hcost⟩ := Holds.run image hblocks ops
    (l := started port.backend kmalloc image s) (hshows.holds_self hspace) hconfined hops
    hframes.steps
  exact ⟨root, frameOf, hholds.toShows.rebase hspace hshows, hholds, hafter, hcost⟩

end Frames

/-! ### The user stack -/

section Stack

variable {port : Port} {image : Image}

/-- The user stack is a part of the address space, off the identity map. -/
theorem stackPage_bounds (port : Port) {i : ℕ} (hi : i < userStackPages) :
    4096 * port.identityPages ≤ stackPage port.userStackTop i ∧
      stackPage port.userStackTop i + 4096 ≤ 2 ^ port.vaBits ∧
      4096 ∣ stackPage port.userStackTop i := by
  have hi : i < 4 := hi
  have hvalue : ∀ top, stackPage top i = top - (i + 1) * 4096 := fun _ ↦ rfl
  rw [hvalue]
  cases port with
  | x86 boot =>
    change 4096 * 0x40000 ≤ 0x00007FFFFFFFF000 - (i + 1) * 4096 ∧
      0x00007FFFFFFFF000 - (i + 1) * 4096 + 4096 ≤ 2 ^ 48 ∧
      4096 ∣ 0x00007FFFFFFFF000 - (i + 1) * 4096
    omega
  | aarch64 boot =>
    change 4096 * 0x80000 ≤ 0xF0000000 - (i + 1) * 4096 ∧
      0xF0000000 - (i + 1) * 4096 + 4096 ≤ 2 ^ 39 ∧ 4096 ∣ 0xF0000000 - (i + 1) * 4096
    omega

/-- In the range of the tables, the page of an address is its quotient. -/
theorem pageOf_eq_div {v : ℕ} (hv : v < 2 ^ port.vaBits) : port.paging.pageOf v = v / 4096 := by
  rw [← port.size_pages] at hv
  exact Paging.pageOf_of_lt (Nat.div_lt_of_lt_mul hv)

theorem stackPage_off_identity (port : Port) {i : ℕ} (hi : i < userStackPages) :
    port.identityPages ≤ port.paging.pageOf (stackPage port.userStackTop i) := by
  obtain ⟨hlow, hhigh, -⟩ := stackPage_bounds port hi
  rw [pageOf_eq_div (by omega)]
  omega

/-- The steps for the user stack are always admissible. -/
theorem admissible_stackPlan (u : UserSpace) :
    Admissible port.paging image port.blocks u (stackPlan port.userStackTop) := by
  refine admissible_of_forall fun op hop u' _ ↦ ?_
  obtain ⟨i, hi, rfl⟩ := List.mem_map.mp hop
  exact (port.blocks_eq_none_iff _).mpr (stackPage_off_identity port (List.mem_range.mp hi))

/-- Everything that is done for an image is admissible when its segments can be mapped. -/
theorem Mappable.admissible (h : Mappable port image) :
    Admissible port.paging image port.blocks UserSpace.empty (plan port.userStackTop image) :=
  admissible_append.mpr ⟨(h.admissible_segments _ le_rfl).1, admissible_stackPlan _⟩

/-- The user stack changes no other page. -/
theorem run_stackPlan_of_ne {page : ℕ}
    (hne : ∀ i < userStackPages, page ≠ port.paging.pageOf (stackPage port.userStackTop i))
    (u : UserSpace) :
    u.run port.paging image (stackPlan port.userStackTop) page = u page := by
  have hops : ∀ ops : List LoadOp, (∀ op ∈ ops, ∃ va, op = .stack va ∧ page ≠ port.paging.pageOf va) →
      ∀ u : UserSpace, u.run port.paging image ops page = u page := by
    intro ops
    induction ops with
    | nil => exact fun _ _ ↦ rfl
    | cons op ops ih =>
      intro h u
      obtain ⟨va, rfl, hva⟩ := h op List.mem_cons_self
      exact (ih (fun other hother ↦ h other (List.mem_cons_of_mem _ hother)) _).trans
        (step_stack_of_ne hva)
  refine hops _ (fun op hop ↦ ?_) u
  obtain ⟨i, hi, rfl⟩ := List.mem_map.mp hop
  exact ⟨_, rfl, hne i (List.mem_range.mp hi)⟩

end Stack

/-! ### A sample -/

/-- The bytes of a number, the lowest first. -/
def numberBytes (width n : ℕ) : List UInt8 :=
  (List.range width).map fun k ↦ UInt8.ofNat (n / 256 ^ k)

/-- Fields of the given widths, one after the other. -/
def fieldBytes (fields : List (ℕ × ℕ)) : List UInt8 :=
  fields.flatMap fun field ↦ numberBytes field.1 field.2

theorem length_fieldBytes (fields : List (ℕ × ℕ)) :
    (fieldBytes fields).length = (fields.map Prod.fst).sum := by
  have hwidth : ∀ field : ℕ × ℕ, (numberBytes field.1 field.2).length = field.1 := by
    intro field
    rw [numberBytes, List.length_map, List.length_range]
  rw [fieldBytes, List.length_flatMap]
  exact congrArg (fun f ↦ (fields.map f).sum) (funext hwidth)

/-- A program header with the given fields. -/
def phdrBytes (pType pFlags pOffset pVaddr pFilesz pMemsz : ℕ) : List UInt8 :=
  fieldBytes [(4, pType), (4, pFlags), (8, pOffset), (8, pVaddr), (8, 0), (8, pFilesz), (8, pMemsz),
    (8, 4096)]

@[simp]
theorem length_phdrBytes (pType pFlags pOffset pVaddr pFilesz pMemsz : ℕ) :
    (phdrBytes pType pFlags pOffset pVaddr pFilesz pMemsz).length = phdrSize := by
  rw [phdrBytes, length_fieldBytes]
  simp [phdrSize]

/-- A header with the given fields, for program headers that follow it. -/
def ehdrBytes (machine entry phnum : ℕ) : List UInt8 :=
  fieldBytes [(4, 0x464C457F), (1, 2), (1, 1), (1, 1), (9, 0), (2, 2), (2, machine), (4, 1),
    (8, entry), (8, 64), (8, 0), (4, 0), (2, 64), (2, 56), (2, phnum), (2, 0), (2, 0), (2, 0)]

theorem length_ehdrBytes (machine entry phnum : ℕ) :
    (ehdrBytes machine entry phnum).length = ehdrSize := by
  rw [ehdrBytes, length_fieldBytes]
  simp [ehdrSize]

/-- A header that is followed by the program headers and the data. -/
def elfBytes (machine entry : ℕ) (phdrs : List (List UInt8)) (data : List UInt8) : List UInt8 :=
  ehdrBytes machine entry phdrs.length ++ phdrs.flatten ++ data

@[simp]
theorem length_elfBytes (machine entry : ℕ) (phdrs : List (List UInt8)) (data : List UInt8) :
    (elfBytes machine entry phdrs data).length = ehdrSize + phdrs.flatten.length + data.length := by
  rw [elfBytes, List.length_append, List.length_append, length_ehdrBytes]

/-- An image of the given bytes. -/
def Image.ofBytes (bytes : List UInt8) (hlength : bytes.length < 2 ^ 64) : Image where
  byte := fun k ↦ bytes.getD k 0
  size := bytes.length
  size_lt := hlength

/-- `pmm_alloc_frames` takes frames. -/
theorem freeSet_allocFrames_subset (pmm : Pmm) (count : ℕ) :
    freeSet ((PmmCall.allocFrames count).run pmm) ⊆ freeSet pmm := by
  rcases pmmAllocFrames_spec pmm count with ⟨hsame, -⟩ | ⟨start, -, -, -, -, hbecomes⟩
  · rw [PmmCall.run, hsame]
  · rw [PmmCall.run, hbecomes.freeSet_eq]
    exact sdiff_subset

/-- The heap takes the frames of an arena. -/
def takeArena (backend : Backend) (s : Spaces) : Spaces :=
  (VmmCall.others (.allocFrames minArenaFrames)).run backend s

theorem takeArena_allocates (port : Port) (s : Spaces) : Allocates port (takeArena port.backend) s :=
  (HeapSteps.refl _).take _ (freeSet_allocFrames_subset _ _)

/-- An arena has no more frames than it was to have. -/
theorem card_takeArena (backend : Backend) (s : Spaces) :
    (freeSet s.pmm).card ≤ (freeSet (takeArena backend s).pmm).card + minArenaFrames := by
  change _ ≤ (freeSet (pmmAllocFrames s.pmm minArenaFrames).1).card + minArenaFrames
  rcases pmmAllocFrames_spec s.pmm minArenaFrames with ⟨hsame, -⟩ | ⟨start, -, -, -, -, hbecomes⟩
  · rw [hsame]
    exact Nat.le_add_right _ _
  · rw [hbecomes.freeSet_eq]
    have hle := le_card_sdiff (Ico start (start + minArenaFrames)) (freeSet s.pmm)
    rw [Nat.card_Ico] at hle
    omega

/-- There are enough frames if there are enough for a whole arena as well. -/
theorem enoughFrames_takeArena {port : Port} {s : Spaces} (hs : port.Reachable s) {ops : List LoadOp}
    (hframes : (port.paging.tables s.machine.mem s.kernelRoot).length + minArenaFrames +
      framesFor port s ops ≤ (freeSet s.pmm).card) :
    EnoughFrames port (takeArena port.backend) s ops := by
  have hcopy : (port.paging.tables s.machine.mem s.kernelRoot).length ≤ (freeSet s.pmm).card := by
    omega
  have hleft := (hs.wellFormed.create_served hcopy).2
  have harena := card_takeArena port.backend (VmmCall.create.run port.backend s)
  refine ⟨hcopy, ?_⟩
  rw [created]
  omega

/-- The frames of the sample suffice for an image with few steps. -/
theorem sample_enoughFrames {image : Image}
    (hlength : (plan userStackTopAarch64 image).length ≤ 60) :
    EnoughFrames (.aarch64 AArch64.Boot.sample) (takeArena AArch64.backend) AArch64.Boot.sample.spaces
      (plan userStackTopAarch64 image) := by
  obtain ⟨htables, hfree⟩ := AArch64.Boot.sample_frames
  have hsteps : framesFor (.aarch64 AArch64.Boot.sample) AArch64.Boot.sample.spaces
      (plan userStackTopAarch64 image) ≤ (2 + 1) * (plan userStackTopAarch64 image).length :=
    framesFor_le _
  have htables : ((Port.aarch64 AArch64.Boot.sample).paging.tables
    AArch64.Boot.sample.spaces.machine.mem AArch64.Boot.sample.spaces.kernelRoot).length = 1 := htables
  refine enoughFrames_takeArena (s := AArch64.Boot.sample.spaces)
    (Port.reachable_spaces (.aarch64 AArch64.Boot.sample)) (le_trans ?_ hfree)
  have harena : minArenaFrames = 16 := rfl
  rw [htables]
  omega

/-- An image for aarch64 with one segment, of four bytes in the file and eight in memory. -/
def sampleImage : Image :=
  .ofBytes (elfBytes emAarch64 0x80000010 [phdrBytes 1 6 120 0x80000010 4 8] [1, 2, 3, 4])
    (by simp [ehdrSize, phdrSize])

theorem sampleImage_valid : elfValid emAarch64 sampleImage = true := by decide +kernel

/-- The header of the sample. -/
theorem sampleImage_header :
    sampleImage.ePhnum = 1 ∧ (sampleImage.programHeader 0).isLoad = true ∧
      (sampleImage.programHeader 0).pOffset = 120 ∧
      (sampleImage.programHeader 0).pVaddr = 0x80000010 ∧
      (sampleImage.programHeader 0).pFilesz = 4 ∧ (sampleImage.programHeader 0).pMemsz = 8 ∧
      (sampleImage.programHeader 0).vstart = 0x80000000 ∧
      (sampleImage.programHeader 0).vend = 0x80001000 ∧ sampleImage.size = 124 := by
  decide +kernel

theorem sampleImage_frames : EnoughFrames (.aarch64 AArch64.Boot.sample)
    (takeArena AArch64.backend) AArch64.Boot.sample.spaces (plan userStackTopAarch64 sampleImage) := by
  obtain ⟨hcount, -, -, -, hfilesz, -, hstart, hend, -⟩ := sampleImage_header
  refine sample_enoughFrames ((length_plan_le 5 fun i hi ↦ ?_).trans ?_)
  · obtain rfl : i = 0 := by omega
    rw [ProgramHeader.pageCount, hstart, hend, hfilesz]
  · rw [hcount]
    decide

theorem sampleImage_index {i : ℕ} (hi : i < sampleImage.ePhnum) : i = 0 := by
  have hcount := sampleImage_header.1
  omega

theorem sampleImage_covers {i v : ℕ} (hi : i < sampleImage.ePhnum)
    (hv : (sampleImage.programHeader i).Covers v) : 0x80000000 ≤ v ∧ v < 0x80001000 := by
  obtain ⟨-, -, -, -, -, -, hstart, hend, -⟩ := sampleImage_header
  obtain ⟨-, hfirst, hlast⟩ := hv
  rw [sampleImage_index hi, hstart] at hfirst
  rw [sampleImage_index hi, hend] at hlast
  exact ⟨hfirst, hlast⟩

end MegKer.Process
