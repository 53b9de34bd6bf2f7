import MegKer.Process.ElfLoading
import MegKer.Process.LoaderConfinement

/-!
# What a process can see of others

The pages of the segments are cleared before they are mapped, those of the user stack are not: they show
what was in their frames, old tables, data of the heap or of other processes.

`RevealsNothing` states that the bytes that user mode is entered with do not depend on what is in free
frames. It holds of no image. `LowestTaken` determines the frames that the loader is given, so the
frame of the last page of the stack can be named beforehand, and nothing is written to it until user
mode is entered (`Loadable.last_page`); another byte in it is another byte of the stack
(`Loadable.not_revealsNothing`).

Between the loops and the entry into user mode stands the launch stack, a block of the heap. What
happens there is a parameter, `enter`, of which nothing is known but that it does what the heap does
(`EntersBy`). Of the first call of `kmalloc` it is also assumed that the heap neither reads nor writes
what is in free frames (`AllocatesApart`).
-/

set_option autoImplicit false
set_option relaxedAutoImplicit false

namespace MegKer.Process

open Foundation Memory Vmm Finset

section Definitions

variable (port : Port) (kmalloc : Spaces → Spaces) (image : Image) (enter : Loader → Spaces)
  (s s' : Spaces)

/-- After the loops, the launch stack is allocated and filled, and user mode is entered in the state
`enter l`. -/
def EntersBy : Prop :=
  ∀ s, port.Reachable s → Loadable port kmalloc image s →
    HeapSteps port.paging (port.processRun kmalloc image s).loader.taken
      (port.processRun kmalloc image s).loader.spaces (enter (port.processRun kmalloc image s).loader)

/-- The two states differ in what is in free frames, and in nothing else. -/
def DifferInFree : Prop :=
  s' = { s with machine := { s.machine with mem := s'.machine.mem } } ∧
    ∀ a, a / 4096 ∉ freeSet s.pmm → s'.machine.mem a = s.machine.mem a

/-- In `vmm_create_address_space`, `kmalloc` does what the heap does, writes to no frame that it leaves
free, and takes the same frames whatever is in free frames. -/
structure AllocatesApart : Prop where
  steps : ∀ s, port.Reachable s →
    HeapSteps port.paging (freeAddresses (created port kmalloc s).machine.frames).toList
      (VmmCall.create.run port.backend s) (created port kmalloc s)
  freeSet_eq : ∀ s s', port.Reachable s → port.Reachable s' → DifferInFree s s' →
    (port.paging.tables s.machine.mem s.kernelRoot).length ≤ (freeSet s.pmm).card →
      freeSet (created port kmalloc s').pmm = freeSet (created port kmalloc s).pmm

/-- From both states, user mode is entered with the same bytes on all pages that are open to it. -/
def SameUserBytes : Prop :=
  ∀ v permissions,
    permissionsIn port (enter (port.processRun kmalloc image s).loader) (.user s.next) v = some permissions →
    permissions.user = true →
      byteIn port.backend (enter (port.processRun kmalloc image s').loader) (.user s'.next) v =
        byteIn port.backend (enter (port.processRun kmalloc image s).loader) (.user s.next) v

/-- What user mode sees does not depend on what is in free frames. -/
def RevealsNothing : Prop :=
  ∀ s', port.Reachable s' → DifferInFree s s' → Loadable port kmalloc image s' →
    SameUserBytes port kmalloc image enter s s'

end Definitions

/-! ### The last page of the user stack -/

/-- The frame that `pmm_alloc_frame` returns depends only on which frames are free. -/
theorem pmmAllocFrame_congr {a b : Pmm} (h : freeSet a = freeSet b) :
    (pmmAllocFrame a).2 = (pmmAllocFrame b).2 := by
  rcases pmmAllocFrame_spec a with ⟨hempty, hnone⟩ | ⟨f, hf, hlowest, haddr, -⟩
  · rcases pmmAllocFrame_spec b with ⟨-, hnone'⟩ | ⟨g, hg, -⟩
    · rw [hnone, hnone']
    · rw [← h, hempty] at hg
      exact absurd hg (notMem_empty g)
  · rcases pmmAllocFrame_spec b with ⟨hempty, -⟩ | ⟨g, hg, hlowest', haddr', -⟩
    · rw [h, hempty] at hf
      exact absurd hf (notMem_empty f)
    · rw [h] at hf hlowest
      rw [haddr, haddr', le_antisymm (hlowest g hg) (hlowest' f hf)]

/-- Which frames are the lowest depends only on which are free. -/
theorem lowestTaken_congr {before before' after : Pmm} (h : LowestTaken before' after)
    (heq : freeSet before' = freeSet before) : LowestTaken before after :=
  ⟨heq ▸ h.subset, heq ▸ h.lowest⟩

section LastPage

variable {port : Port} {kmalloc : Spaces → Spaces} {image : Image} {s s' : Spaces}

/-- The last page of the user stack, which is the lowest. -/
def lastPage (port : Port) : ℕ := stackPage port.userStackTop 3

/-- All steps but the one for that page. -/
def planButLast (port : Port) (image : Image) : List LoadOp :=
  segmentsPlan image image.ePhnum ++
    (List.range 3).map fun i ↦ .stack (stackPage port.userStackTop i)

theorem plan_eq (port : Port) (image : Image) :
    plan port.userStackTop image = planButLast port image ++ [.stack (lastPage port)] := by
  rw [planButLast, List.append_assoc]
  rfl

/-- The frame that the loader is given for that page. -/
def lastFrame (port : Port) (kmalloc : Spaces → Spaces) (image : Image) (s : Spaces) : ℕ :=
  (pmmAllocFrame (loadedBy port kmalloc image s (planButLast port image)).spaces.pmm).2

/-- What the loading takes depends on the tables of the kernel space only. -/
theorem framesFor_congr (h : Untouched port.paging .kernel s s')
    (hkernel : s'.kernelRoot = s.kernelRoot) (ops : List LoadOp) :
    framesFor port s' ops = framesFor port s ops := by
  have hlevels : kernelLevels port s' = kernelLevels port s := by
    funext page
    rw [kernelLevels, kernelLevels, hkernel, Paging.walkTo_congr h rfl]
  rw [framesFor, framesFor, hlevels]

/-- The steps for all other pages are carried out as in the abstract model, and leave a frame and the
tables for this page. -/
theorem Loadable.exists_holds_butLast (h : Loadable port kmalloc image s) (hs : port.Reachable s)
    (hheap : Allocates port kmalloc s) :
    ∃ root frameOf,
      Shows port.paging port.reserved s (.user s.next) root
        (levelsRun port.paging (kernelLevels port s) (planButLast port image))
        (UserSpace.empty.run port.paging image (planButLast port image)) frameOf
        (loadedBy port kmalloc image s (planButLast port image)).spaces ∧
      Holds port.paging port.reserved (created port kmalloc s) (.user s.next) root
        (levelsRun port.paging (kernelLevels port s) (planButLast port image))
        (UserSpace.empty.run port.paging image (planButLast port image)) frameOf
        (loadedBy port kmalloc image s (planButLast port image)).spaces ∧
      Confined (created port kmalloc s)
        (UserSpace.empty.run port.paging image (planButLast port image)) frameOf
        (loadedBy port kmalloc image s (planButLast port image)) ∧
      (freeSet (loadedBy port kmalloc image s (planButLast port image)).spaces.pmm).card +
        framesFor port s (planButLast port image) = (freeSet (created port kmalloc s).pmm).card ∧
      1 + levelsRun port.paging (kernelLevels port s) (planButLast port image)
          (port.paging.pageOf (lastPage port)) ≤
        (freeSet (loadedBy port kmalloc image s (planButLast port image)).spaces.pmm).card := by
  have hadmissible := h.mappable.admissible
  have hframes := h.frames
  rw [plan_eq] at hframes
  have hsteps := hframes.steps
  rw [framesFor_append] at hsteps
  rw [plan_eq, admissible_append] at hadmissible
  obtain ⟨root, frameOf, hshows, hholds, hconfined, hcard⟩ :=
    exists_holds hs hheap hadmissible.1 hframes.of_append
  have hcost : demand port.paging (levelsRun port.paging (kernelLevels port s)
      (planButLast port image)) [.stack (lastPage port)] =
        1 + levelsRun port.paging (kernelLevels port s) (planButLast port image)
          (port.paging.pageOf (lastPage port)) := rfl
  exact ⟨root, frameOf, hshows, hholds, hconfined, hcard, by omega⟩

/-- Frames that are kept from the heap are as they were. -/
theorem HeapSteps.sameTable {backend : Backend} {paging : Paging backend} {kept : List ℕ} {t : Spaces}
    (h : HeapSteps paging kept s t) {frame : ℕ} (hframe : frame ∈ kept) :
    SameTable s.machine.mem t.machine.mem frame := by
  induction h with
  | refl => exact SameTable.refl _ _
  | take _ _ _ ih => exact ih
  | write _ _ _ hkept ih => exact ih.trans (hkept frame hframe)

/-- Steps that keep to more frames are steps that keep to fewer. -/
theorem HeapSteps.of_kept {backend : Backend} {paging : Paging backend} {kept : List ℕ} {t : Spaces}
    (h : HeapSteps paging kept s t) : HeapSteps paging [] s t := by
  induction h with
  | refl => exact .refl _
  | take _ call htakes ih => exact ih.take call htakes
  | write _ mem hproper _ ih => exact ih.write mem hproper fun _ hmem ↦ absurd hmem List.not_mem_nil

theorem AllocatesApart.allocates (h : AllocatesApart port kmalloc) (hs : port.Reachable s) :
    Allocates port kmalloc s := (h.steps s hs).of_kept

/-- A frame that is free when the loops start has what it had before the call. -/
theorem AllocatesApart.sameTable (h : AllocatesApart port kmalloc) (hs : port.Reachable s)
    (hcopy : (port.paging.tables s.machine.mem s.kernelRoot).length ≤ (freeSet s.pmm).card) {frame : ℕ}
    (hfree : frame ∈ freeAddresses (created port kmalloc s).machine.frames) :
    frame ∈ freeAddresses s.machine.frames ∧
      SameTable s.machine.mem (created port kmalloc s).machine.mem frame := by
  obtain ⟨root, hholds, -, hkeeps⟩ := exists_created hs (h.allocates hs) hcopy
  have hbefore := image_subset_image hkeeps.free_subset hfree
  exact ⟨image_subset_image hholds.lowest.subset hbefore,
    (hholds.fresh frame hbefore).trans ((h.steps s hs).sameTable (mem_toList.mpr hfree))⟩

/-- When user mode is entered, the last page of the user stack is open to it, and shows what was in its
frame. -/
theorem Loadable.last_page (h : Loadable port kmalloc image s) (hs : port.Reachable s)
    (hkmalloc : AllocatesApart port kmalloc) {entry : Spaces}
    (hsteps : HeapSteps port.paging (port.processRun kmalloc image s).loader.taken
      (port.processRun kmalloc image s).loader.spaces entry) :
    lastFrame port kmalloc image s ∈ freeAddresses s.machine.frames ∧
    byteIn port.backend entry (.user s.next) (lastPage port) =
      s.machine.mem.byteAt (lastFrame port kmalloc image s) ∧
    permissionsIn port entry (.user s.next) (lastPage port) = some ⟨true, true⟩ := by
  obtain ⟨root, frameOf, hshows, hholds, hconfined, -, hleft⟩ :=
    h.exists_holds_butLast hs (hkmalloc.allocates hs)
  have hsame : ∀ frame ∈ freeAddresses (created port kmalloc s).machine.frames, _ :=
    fun frame hfree ↦ hkmalloc.sameTable hs h.frames.copy hfree
  obtain ⟨createdRoot, -, hcreated, -⟩ := exists_created hs (hkmalloc.allocates hs) h.frames.copy
  have hspace : Handle.kernel ≠ .user s.next := Handle.noConfusion
  have hloader : (port.processRun kmalloc image s).loader = mapStackPage port.backend (.user s.next)
      (loadedBy port kmalloc image s (planButLast port image)) (lastPage port) := by
    rw [loader_processRun h.valid, plan_eq]
    exact List.foldl_append
  rw [hloader, mapStackPage_eq] at hsteps
  have hframe : lastFrame port kmalloc image s =
      ((loadedBy port kmalloc image s (planButLast port image)).allocFrame port.backend).2 := rfl
  generalize loadedBy port kmalloc image s (planButLast port image) = l at *
  have hblocks : ∀ page < port.paging.pages,
      (port.paging.walkTo (created port kmalloc s).machine.mem (created port kmalloc s).kernelRoot
        page).block port.paging.format = port.blocks page := by
    intro page hpage
    rw [hcreated.kernel_walkTo hspace]
    exact hs.hasBlocks .kernel s.kernelRoot rfl page hpage
  have hblock : port.blocks (port.paging.pageOf (lastPage port)) = none :=
    (port.blocks_eq_none_iff _).mpr (stackPage_off_identity port (by decide))
  obtain ⟨hlast, hconfinedLast, -, havailable⟩ := hholds.mapFresh hblocks hconfined (lastPage port)
    stackFlags l.spaces.machine.mem
    (some fun offset ↦ l.spaces.machine.mem.byteAt ((l.allocFrame port.backend).2 + offset)) hblock
    (by decide) hleft (fun _ _ ↦ rfl)
    fun contents hcontents offset _ ↦ congrFun (Option.some.inj hcontents) offset
  have hentry := (hlast.toShows.rebase hspace hcreated).heapSteps hconfinedLast.taken hsteps
  rw [← hframe] at havailable hentry
  obtain ⟨-, -, haligned⟩ := stackPage_bounds port (i := 3) (by decide)
  have hoffset : lastPage port % 4096 = 0 := Nat.mod_eq_zero_of_dvd haligned
  have hself : lastFrame port kmalloc image s / 4096 * 4096 = lastFrame port kmalloc image s :=
    Nat.div_mul_cancel (port.paging.source.isFrame _ hholds.well.serving _ havailable).aligned
  have hpage : Function.update (UserSpace.empty.run port.paging image (planButLast port image))
      (port.paging.pageOf (lastPage port))
      (some ⟨stackFlags, some fun offset ↦
        l.spaces.machine.mem.byteAt (lastFrame port kmalloc image s + offset)⟩)
      (port.paging.pageOf (lastPage port)) =
        some ⟨stackFlags, some fun offset ↦
          l.spaces.machine.mem.byteAt (lastFrame port kmalloc image s + offset)⟩ :=
    Function.update_self _ _ _
  have hfree := image_subset_image hholds.lowest.subset havailable
  refine ⟨(hsame _ hfree).1, ?_, ?_⟩
  · rw [byteIn, translateIn, hentry.root_eq]
    dsimp only
    rw [hentry.byteAt_translate hpage rfl, hoffset, Nat.add_zero]
    exact ((hsame _ hfree).2.trans (hholds.fresh _ havailable)).byteAt_eq hself
  · have hrequested : X86.requested stackFlags = ⟨true, true⟩ := by decide
    rw [← hrequested]
    exact hentry.permissionsIn_eq hs (congrArg (Option.map UserPage.flags) hpage)

/-- When the same frames are free at the start of the loops, and they take as many, it is the same
frame. -/
theorem Loadable.lastFrame_eq (h : Loadable port kmalloc image s) (hs : port.Reachable s)
    (h' : Loadable port kmalloc image s') (hs' : port.Reachable s')
    (hkmalloc : AllocatesApart port kmalloc)
    (hfree : freeSet (created port kmalloc s').pmm = freeSet (created port kmalloc s).pmm)
    (hframes : framesFor port s' (planButLast port image) =
      framesFor port s (planButLast port image)) :
    lastFrame port kmalloc image s' = lastFrame port kmalloc image s := by
  obtain ⟨root, frameOf, -, hholds, -, hcard, -⟩ :=
    h.exists_holds_butLast hs (hkmalloc.allocates hs)
  obtain ⟨root', frameOf', -, hholds', -, hcard', -⟩ :=
    h'.exists_holds_butLast hs' (hkmalloc.allocates hs')
  have hlowest := lowestTaken_congr hholds'.lowest hfree
  rw [hfree] at hcard'
  exact pmmAllocFrame_congr (hlowest.freeSet_eq hholds.lowest (by omega))

/-- Writing to a free frame leads to a state that differs in free frames only. -/
theorem differInFree_write (hs : port.Reachable s) {frame : ℕ}
    (hfree : frame ∈ freeAddresses s.machine.frames) (byte : UInt8) :
    port.Reachable ((VmmCall.write (s.machine.mem.storeByte frame byte)).run port.backend s) ∧
    DifferInFree s ((VmmCall.write (s.machine.mem.storeByte frame byte)).run port.backend s) ∧
    Untouched port.paging .kernel s
      ((VmmCall.write (s.machine.mem.storeByte frame byte)).run port.backend s) := by
  have hwell := hs.wellFormed
  obtain ⟨f, hf, rfl⟩ := mem_image.mp hfree
  have hdiv : f * frameSize / 4096 = f := Nat.mul_div_cancel f (by norm_num)
  have hsame : ∀ a, a / 4096 ≠ f → s.machine.mem.storeByte (f * frameSize) byte a =
      s.machine.mem a :=
    fun a ha ↦ WordMemory.storeByte_of_frame_ne _ _ (by rwa [hdiv])
  have hproper : (VmmCall.write (s.machine.mem.storeByte (f * frameSize) byte)).Proper port.paging s :=
    hwell.proper_write_frame ((hwell.mem_free f).mp hf).2.2.2 hsame
  refine ⟨((Reaches.refl s).step hproper).reachable hs (hwell.write hproper),
    ⟨rfl, fun a ha ↦ hsame a fun heq ↦ ha (heq ▸ hf)⟩, untouched_write hproper .kernel⟩

/-- No image is loaded without showing what is in a free frame. -/
theorem Loadable.not_revealsNothing {enter : Loader → Spaces} (h : Loadable port kmalloc image s)
    (hs : port.Reachable s) (hkmalloc : AllocatesApart port kmalloc)
    (henter : EntersBy port kmalloc image enter) :
    ¬ RevealsNothing port kmalloc image enter s := by
  intro hreveals
  obtain ⟨hfree, hbyte, hopen⟩ := h.last_page hs hkmalloc (henter s hs h)
  obtain ⟨byte, hne⟩ : ∃ byte, byte ≠ s.machine.mem.byteAt (lastFrame port kmalloc image s) :=
    ⟨s.machine.mem.byteAt (lastFrame port kmalloc image s) + 1, by simp⟩
  obtain ⟨hs', hdiffer, huntouched⟩ := differInFree_write hs hfree byte
  have hframes : ∀ ops, framesFor port
      ((VmmCall.write (s.machine.mem.storeByte (lastFrame port kmalloc image s) byte)).run port.backend s)
      ops = framesFor port s ops := framesFor_congr huntouched rfl
  have hcreated := hkmalloc.freeSet_eq s _ hs hs' hdiffer h.frames.copy
  have hcopy := h.frames.copy
  rw [← huntouched.tables_eq rfl] at hcopy
  have h' : Loadable port kmalloc image
      ((VmmCall.write (s.machine.mem.storeByte (lastFrame port kmalloc image s) byte)).run
        port.backend s) :=
    { h with frames := ⟨hcopy, by rw [hframes, hcreated]; exact h.frames.steps⟩ }
  obtain ⟨-, hbyte', -⟩ := h'.last_page hs' hkmalloc (henter _ hs' h')
  rw [h.lastFrame_eq hs h' hs' hkmalloc hcreated (hframes _)] at hbyte'
  have hsame := hreveals _ hs' hdiffer h' (lastPage port) ⟨true, true⟩ hopen rfl
  rw [hbyte, hbyte'] at hsame
  refine hne (Eq.trans ?_ hsame)
  exact (WordMemory.byteAt_storeByte_same _ _ _).symm

end LastPage

/-- User mode may be entered at once. -/
theorem entersBy_spaces (port : Port) (kmalloc : Spaces → Spaces) (image : Image) :
    EntersBy port kmalloc image Loader.spaces :=
  fun _ _ _ ↦ .refl _

/-- Which frames a call of `pmm_alloc_frames` leaves free depends only on which are free. -/
theorem freeSet_pmmAllocFrames_congr {a b : Pmm} (h : freeSet a = freeSet b) (count : ℕ) :
    freeSet (pmmAllocFrames a count).1 = freeSet (pmmAllocFrames b count).1 := by
  rcases pmmAllocFrames_spec a count with ⟨hsame, hnone⟩ | ⟨start, hcount, hrun, hlowest, -, htaken⟩
  · rcases pmmAllocFrames_spec b count with ⟨hsame', -⟩ | ⟨start', hcount', hrun', -⟩
    · rw [hsame, hsame', h]
    · exact absurd (h ▸ hrun') (hnone.resolve_left hcount'.ne' start')
  · rcases pmmAllocFrames_spec b count with
      ⟨-, hnone'⟩ | ⟨start', -, hrun', hlowest', -, htaken'⟩
    · exact absurd (h ▸ hrun) (hnone'.resolve_left hcount.ne' start)
    · have hle : start' ≤ start := not_lt.mp fun hlt ↦ hlowest' start hlt (h ▸ hrun)
      have hge : start ≤ start' := not_lt.mp fun hlt ↦ hlowest start' hlt (h ▸ hrun')
      rw [htaken.freeSet_eq, htaken'.freeSet_eq, h, le_antisymm hge hle]

/-- The tables of the kernel space are in no free frame. -/
theorem DifferInFree.tables_eq {port : Port} {s s' : Spaces} (h : DifferInFree s s')
    (hs : port.Reachable s) :
    port.paging.tables s'.machine.mem s'.kernelRoot =
      port.paging.tables s.machine.mem s.kernelRoot := by
  have hroot : s'.kernelRoot = s.kernelRoot := by rw [h.1]
  rw [hroot]
  refine tables_congr _ _ fun t ht ↦ ?_
  have hframe := (hs.wellFormed.owned .kernel s.kernelRoot rfl).isFrame t ht
  have hnot : t / 4096 ∉ freeSet s.pmm := by
    intro hfree
    refine ((hs.wellFormed.mem_free _).mp hfree).2.2.2 ⟨.kernel, s.kernelRoot, rfl, ?_⟩
    rwa [frameSize, Nat.div_mul_cancel hframe.aligned]
  intro i hi
  refine h.2 _ ?_
  rwa [slot_div_frame hframe hi]

/-- The frames of an arena are taken whatever is in free frames. -/
theorem takeArena_allocatesApart (port : Port) : AllocatesApart port (takeArena port.backend) where
  steps := fun s _ ↦ (HeapSteps.refl _).take _ (freeSet_allocFrames_subset _ _)
  freeSet_eq := by
    intro s s' hs hs' hdiffer hcopy
    have hpmm : s'.pmm = s.pmm := by rw [hdiffer.1]
    have hcopy' := hcopy
    rw [← hdiffer.tables_eq hs, ← hpmm] at hcopy'
    obtain ⟨-, hcard⟩ := hs.wellFormed.create_served hcopy
    obtain ⟨-, hcard'⟩ := hs'.wellFormed.create_served hcopy'
    obtain ⟨root, hholds, -⟩ := exists_created hs (takeArena_allocates port s) hcopy
    obtain ⟨root', hholds', -⟩ := exists_created hs' (takeArena_allocates port s') hcopy'
    have hlowest := hholds'.lowest
    rw [hpmm] at hlowest hcard'
    rw [hdiffer.tables_eq hs] at hcard'
    exact freeSet_pmmAllocFrames_congr (hlowest.freeSet_eq hholds.lowest (by omega)) _

/-- The stack of the sample shows what was in free frames. -/
theorem not_revealsNothing_sample :
    ¬ RevealsNothing (.aarch64 AArch64.Boot.sample) (takeArena AArch64.backend) sampleImage
      Loader.spaces AArch64.Boot.sample.spaces :=
  sampleImage_loadable.not_revealsNothing (Port.reachable_spaces (.aarch64 AArch64.Boot.sample))
    (takeArena_allocatesApart _) (entersBy_spaces _ _ _)

/-- On either port, after every run in which no request for a frame has failed, for every image that can
be loaded, and whatever the heap does before user mode is entered: what user mode sees depends on what
was in free frames. There is a state that differs from the given one in a single free frame, in which
the image can be loaded as well, and from which user mode is entered with another byte on the last page
of the user stack. -/
theorem processRun_reveals (port : Port) (kmalloc : Spaces → Spaces) (image : Image)
    (enter : Loader → Spaces) (s : Spaces) (hs : port.Reachable s)
    (himage : Loadable port kmalloc image s) (hkmalloc : AllocatesApart port kmalloc)
    (henter : EntersBy port kmalloc image enter) : ¬ RevealsNothing port kmalloc image enter s :=
  himage.not_revealsNothing hs hkmalloc henter

/-- The sample satisfies the conditions. -/
theorem processRun_reveals_sample :
    Loadable (.aarch64 AArch64.Boot.sample) (takeArena AArch64.backend) sampleImage
        AArch64.Boot.sample.spaces ∧
      ¬ RevealsNothing (.aarch64 AArch64.Boot.sample) (takeArena AArch64.backend) sampleImage
        Loader.spaces AArch64.Boot.sample.spaces :=
  ⟨sampleImage_loadable, processRun_reveals (.aarch64 AArch64.Boot.sample) (takeArena AArch64.backend)
    sampleImage Loader.spaces AArch64.Boot.sample.spaces
    (Port.reachable_spaces (.aarch64 AArch64.Boot.sample)) sampleImage_loadable
    (takeArena_allocatesApart _) (entersBy_spaces _ _ _)⟩

end MegKer.Process
