import MegKer.Process.Loader
import MegKer.Vmm.HeldFrames

/-!
# The address space that the loader builds

What the steps of the loader are for: a `UserSpace` says of each page of the new address space whether
the loader has mapped it, with which flags, and which bytes are in it. `UserSpace.step` is the meaning
of a step in these terms. Frames and tables do not occur in it, and the bytes of a stack page are
unknown, as they are whatever was in the frame.

`Holds` relates it to the state of the machine, by the frame that is behind each page. The frames are
distinct and belong to the loader, so a step for one page disturbs no other; this is where the
freshness of frames, the laws of mapping and the framing of physical memory come together.
`Holds.run` is the simulation. It needs two conditions on the steps: that they map no page under a
block and copy only to pages that have been mapped (`Admissible`), and that there are enough frames
(`demand`, which follows from the levels of the walks in the kernel space).
-/

set_option autoImplicit false
set_option relaxedAutoImplicit false

namespace MegKer.Process

open Foundation Memory Vmm Finset

/-! ### The abstract model -/

/-- A page that the loader has mapped. The bytes are those at the offsets below 4096. -/
structure UserPage where
  flags : ℕ
  bytes : Option (ℕ → UInt8)

/-- The pages of an address space that the loader has mapped. -/
abbrev UserSpace := ℕ → Option UserPage

section Abstract

variable {backend : Backend} (paging : Paging backend) (image : Image)

/-- The meaning of a step. -/
def UserSpace.step (u : UserSpace) : LoadOp → UserSpace
  | .note _ => u
  | .page va flags => Function.update u (paging.pageOf va) (some ⟨flags, some fun _ ↦ 0⟩)
  | .copy va offset =>
    Function.update u (paging.pageOf va) ((u (paging.pageOf va)).map fun page ↦
      { page with
        bytes := page.bytes.map fun bytes ↦ Function.update bytes (va % 4096) (image.byte offset) })
  | .stack va => Function.update u (paging.pageOf va) (some ⟨stackFlags, none⟩)

/-- The meaning of a sequence of steps. -/
def UserSpace.run (u : UserSpace) (ops : List LoadOp) : UserSpace :=
  ops.foldl (UserSpace.step paging image) u

/-- No page has been mapped yet. -/
def UserSpace.empty : UserSpace := fun _ ↦ none

/-- The page that a step maps. -/
def LoadOp.target : LoadOp → Option ℕ
  | .note _ => none
  | .page va _ => some (paging.pageOf va)
  | .copy _ _ => none
  | .stack va => some (paging.pageOf va)

/-- The levels that are left of the walks to all pages, once the tables for one page are there. -/
def levelsAfter (levels : ℕ → ℕ) (page : ℕ) : ℕ → ℕ := fun other ↦
  min (levels other) (apart (indexPath paging.depth page) (indexPath paging.depth other))

/-- The frames that a step takes: one for the page that it maps, and those of the tables that are
missing on the way to it. -/
def LoadOp.cost (levels : ℕ → ℕ) (op : LoadOp) : ℕ :=
  match op.target paging with
  | some target => 1 + levels target
  | none => 0

/-- The levels after a step. -/
def LoadOp.levels (levels : ℕ → ℕ) (op : LoadOp) : ℕ → ℕ :=
  match op.target paging with
  | some target => levelsAfter paging levels target
  | none => levels

/-- The frames that a sequence of steps takes. -/
def demand : (levels : ℕ → ℕ) → List LoadOp → ℕ
  | _, [] => 0
  | levels, op :: ops => op.cost paging levels + demand (op.levels paging levels) ops

/-- The levels after a sequence of steps. -/
def levelsRun (levels : ℕ → ℕ) (ops : List LoadOp) : ℕ → ℕ :=
  ops.foldl (LoadOp.levels paging) levels

/-- The step maps a present page off the given blocks, or copies to a page that has been mapped. -/
def LoadOp.Admitted (blocks : ℕ → Option ℕ) (u : UserSpace) : LoadOp → Prop
  | .note _ => True
  | .page va flags => blocks (paging.pageOf va) = none ∧ hasFlags flags presentFlag = true
  | .copy va _ => u (paging.pageOf va) ≠ none
  | .stack va => blocks (paging.pageOf va) = none

/-- Each of the steps is admitted where it is taken. -/
def Admissible (blocks : ℕ → Option ℕ) : UserSpace → List LoadOp → Prop
  | _, [] => True
  | u, op :: ops => op.Admitted paging blocks u ∧ Admissible blocks (u.step paging image op) ops

variable {paging image}

theorem UserSpace.run_append (u : UserSpace) (ops more : List LoadOp) :
    u.run paging image (ops ++ more) = (u.run paging image ops).run paging image more :=
  List.foldl_append

theorem UserSpace.run_singleton (u : UserSpace) (op : LoadOp) :
    u.run paging image [op] = u.step paging image op := rfl

theorem demand_append (ops more : List LoadOp) :
    ∀ levels, demand paging levels (ops ++ more) =
      demand paging levels ops + demand paging (levelsRun paging levels ops) more := by
  induction ops with
  | nil => exact fun _ ↦ (Nat.zero_add _).symm
  | cons op ops ih =>
    intro levels
    rw [List.cons_append, demand, demand, ih, Nat.add_assoc]
    rfl

/-- A step takes at most one frame for the page, and one for each level. -/
theorem demand_le {bound : ℕ} (ops : List LoadOp) :
    ∀ {levels : ℕ → ℕ}, (∀ page, levels page ≤ bound) →
      demand paging levels ops ≤ (bound + 1) * ops.length := by
  induction ops with
  | nil => exact fun _ ↦ Nat.zero_le _
  | cons op ops ih =>
    intro levels hlevels
    have hstep : op.cost paging levels ≤ bound + 1 ∧
        ∀ page, op.levels paging levels page ≤ bound := by
      rw [LoadOp.cost, LoadOp.levels]
      cases op.target paging with
      | none => exact ⟨Nat.zero_le _, hlevels⟩
      | some target =>
        have hle : 1 + levels target ≤ bound + 1 := by
          have htarget := hlevels target
          omega
        exact ⟨hle, fun page ↦ (min_le_left _ _).trans (hlevels page)⟩
    obtain ⟨hcost, hafter⟩ := hstep
    have hrest := ih hafter
    rw [demand, List.length_cons, Nat.mul_succ]
    omega

theorem admissible_append {blocks : ℕ → Option ℕ} {ops more : List LoadOp} :
    ∀ {u : UserSpace}, Admissible paging image blocks u (ops ++ more) ↔
      Admissible paging image blocks u ops ∧
        Admissible paging image blocks (u.run paging image ops) more := by
  induction ops with
  | nil => exact (iff_of_eq (true_and _)).symm
  | cons op ops ih =>
    intro u
    rw [List.cons_append, Admissible, Admissible, ih, and_assoc]
    rfl

end Abstract

/-! ### The relation to the machine -/

section Relation

variable {backend : Backend} (paging : Paging backend)

/-- A state that is reached by steps that keep to the rules. -/
def Reaches (start s : Spaces) : Prop :=
  ∃ calls, Permitted paging (fun _ ↦ True) start calls ∧ runs backend start calls = s

/-- The machine shows an address space of the loader: since `start`, the space with the given handle
has been made and changed, page by page as in `u`, with the frames `frameOf`; the walks in it have the
given levels left; and the spaces that there were have been left alone. -/
structure Shows (reserved : Finset ℕ) (start : Spaces) (space : Handle) (root : ℕ) (levels : ℕ → ℕ)
    (u : UserSpace) (frameOf : ℕ → ℕ) (s : Spaces) : Prop where
  well : WellFormed paging reserved s
  reached : Reaches paging start s
  root_eq : s.root space = some root
  others_eq : ∀ other, other ≠ space → s.root other = start.root other
  untouched : ∀ other, other ≠ space → start.root other ≠ none → Untouched paging other start s
  block_eq : ∀ page < paging.pages, (paging.walkTo s.machine.mem root page).block paging.format =
    (paging.walkTo start.machine.mem start.kernelRoot page).block paging.format
  level_eq : ∀ page < paging.pages,
    (paging.walkTo s.machine.mem root page).block paging.format = none →
      (paging.walkTo s.machine.mem root page).level = levels page
  vacant : ∀ page < paging.pages, u page = none →
    (paging.walkTo s.machine.mem root page).leaf =
      if paging.format.isPresent (paging.walkTo start.machine.mem start.kernelRoot page).leaf then
        (paging.walkTo start.machine.mem start.kernelRoot page).leaf else 0
  shown : ∀ page < paging.pages, ∀ content, u page = some content →
    ∃ old, (paging.walkTo s.machine.mem root page).leaf =
      paging.edit (frameOf page) content.flags old
  present : ∀ page content, u page = some content → hasFlags content.flags presentFlag = true
  isFrame : ∀ page content, u page = some content → IsFrame paging.format.limit (frameOf page)
  held : ∀ page content, u page = some content → frameOf page / 4096 ∈ s.held
  distinct : ∀ page content other otherContent, u page = some content →
    u other = some otherContent → page ≠ other → frameOf page ≠ frameOf other
  bytes_eq : ∀ page content bytes, u page = some content → content.bytes = some bytes →
    ∀ offset < 4096, s.machine.mem.byteAt (frameOf page + offset) = bytes offset

/-- The machine shows an address space of the loader, and nothing but the loader has been at work: the
frames that are still free have not been written to, and those that were taken are the lowest. -/
structure Holds (reserved : Finset ℕ) (start : Spaces) (space : Handle) (root : ℕ) (levels : ℕ → ℕ)
    (u : UserSpace) (frameOf : ℕ → ℕ) (s : Spaces) : Prop
    extends Shows paging reserved start space root levels u frameOf s where
  fresh : ∀ t ∈ freeAddresses s.machine.frames, SameTable start.machine.mem s.machine.mem t
  lowest : LowestTaken start.pmm s.pmm

end Relation

section Simulation

variable {backend : Backend} {paging : Paging backend} {reserved : Finset ℕ} {start s : Spaces}
  {space : Handle} {root : ℕ} {levels : ℕ → ℕ} {u : UserSpace} {frameOf : ℕ → ℕ}

theorem Reaches.refl (s : Spaces) : Reaches paging s s := ⟨[], trivial, rfl⟩

theorem Reaches.step (h : Reaches paging start s) {call : VmmCall} (hproper : call.Proper paging s) :
    Reaches paging start (call.run backend s) := by
  obtain ⟨calls, hpermitted, rfl⟩ := h
  exact ⟨calls ++ [call], permitted_append.mpr ⟨hpermitted, trivial, hproper, trivial⟩,
    runs_append _ _ _⟩

/-- A page of the loader is translated to its frame. -/
theorem Shows.translate_eq (h : Shows paging reserved start space root levels u frameOf s)
    {virt : ℕ} {content : UserPage} (hpage : u (paging.pageOf virt) = some content) :
    backend.translate s.machine root virt = frameOf (paging.pageOf virt) + virt % 4096 := by
  obtain ⟨old, hleaf⟩ := h.shown _ (paging.pageOf_lt virt) content hpage
  have hwalk : paging.walkTo s.machine.mem root (virt / 4096) =
      paging.walkTo s.machine.mem root (paging.pageOf virt) := by
    unfold Paging.walkTo
    rw [paging.path_pageOf]
  have hframe := h.isFrame _ content hpage
  have hpresent := h.present _ content hpage
  rw [translate_eq_leaf paging, hwalk, hleaf,
    if_pos (paging.isPresent_edit _ _ old hpresent),
    paging.address_edit _ _ old hpresent hframe.aligned hframe.lt_limit]
  exact or_offset hframe.aligned virt

/-- The bytes of a page of the loader, read through the address space. -/
theorem Shows.byteAt_translate (h : Shows paging reserved start space root levels u frameOf s)
    {virt : ℕ} {content : UserPage} {bytes : ℕ → UInt8}
    (hpage : u (paging.pageOf virt) = some content) (hbytes : content.bytes = some bytes) :
    s.machine.mem.byteAt (backend.translate s.machine root virt) = bytes (virt % 4096) := by
  rw [h.translate_eq hpage]
  exact h.bytes_eq _ content bytes hpage hbytes _ (Nat.mod_lt _ (by norm_num))

/-- A page that the loader has not mapped is translated as in the kernel space. -/
theorem Shows.translate_vacant (h : Shows paging reserved start space root levels u frameOf s)
    {virt : ℕ} (hpage : u (paging.pageOf virt) = none) :
    backend.translate s.machine root virt =
      backend.translate start.machine start.kernelRoot virt := by
  have hwalk : ∀ (mem : WordMemory) (root : ℕ), paging.walkTo mem root (virt / 4096) =
      paging.walkTo mem root (paging.pageOf virt) := by
    intro mem root
    unfold Paging.walkTo
    rw [paging.path_pageOf]
  have hleaf := h.vacant _ (paging.pageOf_lt virt) hpage
  rw [translate_eq_leaf paging, translate_eq_leaf paging, hwalk, hwalk, hleaf]
  by_cases hpresent : paging.format.isPresent
      (paging.walkTo start.machine.mem start.kernelRoot (paging.pageOf virt)).leaf = true
  · rw [if_pos hpresent]
  · rw [if_neg hpresent, if_neg hpresent, if_neg (by simp [paging.format.isPresent_zero])]

/-- Taking frames changes none of the pages. -/
theorem Shows.take (h : Shows paging reserved start space root levels u frameOf s) {call : PmmCall}
    (htakes : freeSet (call.run s.pmm) ⊆ freeSet s.pmm) :
    Shows paging reserved start space root levels u frameOf ((VmmCall.others call).run backend s) :=
  { well := h.well.others (proper_of_takes htakes)
    reached := h.reached.step (proper_of_takes htakes)
    root_eq := h.root_eq
    others_eq := h.others_eq
    untouched := h.untouched
    block_eq := h.block_eq
    level_eq := h.level_eq
    vacant := h.vacant
    shown := h.shown
    present := h.present
    isFrame := h.isFrame
    held := fun page content hpage ↦ by
      rw [h.well.held_take htakes]
      exact mem_union_left _ (h.held page content hpage)
    distinct := h.distinct
    bytes_eq := h.bytes_eq }

/-- A write that spares the tables changes at most the bytes of the pages. -/
theorem Shows.write (h : Shows paging reserved start space root levels u frameOf s) {mem : WordMemory}
    (hproper : (VmmCall.write mem).Proper paging s) {u' : UserSpace}
    (hflags : ∀ page, (u' page).map UserPage.flags = (u page).map UserPage.flags)
    (hbytes : ∀ page content bytes, u' page = some content → content.bytes = some bytes →
      ∀ offset < 4096, mem.byteAt (frameOf page + offset) = bytes offset) :
    Shows paging reserved start space root levels u' frameOf ((VmmCall.write mem).run backend s) := by
  have huntouched : ∀ other, Untouched paging other s ((VmmCall.write mem).run backend s) :=
    untouched_write hproper
  have hwalk : ∀ page, paging.walkTo mem root page = paging.walkTo s.machine.mem root page :=
    Paging.walkTo_congr (huntouched space) h.root_eq
  have hold : ∀ {page content}, u' page = some content →
      ∃ before, u page = some before ∧ before.flags = content.flags := by
    intro page content hcontent
    have hsame := hflags page
    rw [hcontent, Option.map_some, eq_comm, Option.map_eq_some_iff] at hsame
    exact hsame
  have hnone : ∀ {page}, u' page = none → u page = none := by
    intro page hvacant
    have hsame := hflags page
    rwa [hvacant, Option.map_none, eq_comm, Option.map_eq_none_iff] at hsame
  refine ⟨h.well.write hproper, h.reached.step hproper, h.root_eq, h.others_eq,
    fun other hother hlive ↦ (h.untouched other hother hlive).trans (huntouched other),
    fun page hpage ↦ (congrArg _ (hwalk page)).trans (h.block_eq page hpage),
    fun page hpage hblock ↦ ?_,
    fun page hpage hvacant ↦ (congrArg Walk.leaf (hwalk page)).trans
      (h.vacant page hpage (hnone hvacant)),
    fun page hpage content hcontent ↦ ?_, fun page content hcontent ↦ ?_,
    fun page content hcontent ↦ ?_, fun page content hcontent ↦ ?_,
    fun page content other otherContent hcontent hother hne ↦ ?_, hbytes⟩
  · have hblock : (paging.walkTo mem root page).block paging.format = none := hblock
    rw [hwalk] at hblock
    exact (congrArg Walk.level (hwalk page)).trans (h.level_eq page hpage hblock)
  · obtain ⟨before, hbefore, hsame⟩ := hold hcontent
    obtain ⟨old, hleaf⟩ := h.shown page hpage before hbefore
    exact ⟨old, by rw [← hsame, ← hleaf]; exact congrArg Walk.leaf (hwalk page)⟩
  · obtain ⟨before, hbefore, hsame⟩ := hold hcontent
    exact hsame ▸ h.present page before hbefore
  · obtain ⟨before, hbefore, -⟩ := hold hcontent
    exact h.isFrame page before hbefore
  · obtain ⟨before, hbefore, -⟩ := hold hcontent
    exact h.held page before hbefore
  · obtain ⟨before, hbefore, -⟩ := hold hcontent
    obtain ⟨otherBefore, hotherBefore, -⟩ := hold hother
    exact h.distinct page before other otherBefore hbefore hotherBefore hne

/-- `pmm_alloc_frame` gives the loader a frame that is behind none of the pages. -/
theorem Holds.alloc (h : Holds paging reserved start space root levels u frameOf s)
    (hfree : (freeSet s.pmm).Nonempty) {frame : ℕ} (hframe : (pmmAllocFrame s.pmm).2 = frame) :
    let after := (VmmCall.others .allocFrame).run backend s
    Holds paging reserved start space root levels u frameOf after ∧
    (freeSet after.pmm).card + 1 = (freeSet s.pmm).card ∧
    IsFrame paging.format.limit frame ∧ after.held = insert (frame / 4096) s.held ∧
    frame ∈ freeAddresses s.machine.frames ∧
    ∀ page content, u page = some content → frameOf page ≠ frame := by
  obtain ⟨g, hg, haddr, hfreeAfter, hheldAfter⟩ := h.well.allocFrame_spec hfree
  have htakes := freeSet_allocFrame_subset s.pmm
  obtain rfl : g * 4096 = frame := haddr.symm.trans hframe
  have hdiv : g * 4096 / 4096 = g := Nat.mul_div_cancel g (by norm_num)
  have havailable : g * 4096 ∈ freeAddresses s.machine.frames := mul_mem_freeAddresses.mpr hg
  refine ⟨⟨h.take htakes, fun t ht ↦ h.fresh t (image_subset_image htakes ht), h.lowest.allocFrame⟩,
    ?_, paging.source.isFrame _ h.well.serving _ havailable, hdiv.symm ▸ hheldAfter, havailable,
    fun page content hpage heq ↦ ?_⟩
  · rw [hfreeAfter, card_erase_of_mem hg]
    have hpos := card_pos.mpr hfree
    omega
  · have hold := h.held page content hpage
    rw [heq, hdiv] at hold
    exact ((h.well.mem_free g).mp hg).2.2.1 hold

/-- A write to a frame of the loader changes the bytes of the pages, and nothing else. -/
theorem Holds.write (h : Holds paging reserved start space root levels u frameOf s) {g : ℕ}
    (hg : g ∈ s.held) {mem : WordMemory} (hmem : ∀ a, a / 4096 ≠ g → mem a = s.machine.mem a)
    {u' : UserSpace} (hflags : ∀ page, (u' page).map UserPage.flags = (u page).map UserPage.flags)
    (hbytes : ∀ page content bytes, u' page = some content → content.bytes = some bytes →
      ∀ offset < 4096, mem.byteAt (frameOf page + offset) = bytes offset) :
    Holds paging reserved start space root levels u' frameOf ((VmmCall.write mem).run backend s) := by
  have hproper : (VmmCall.write mem).Proper paging s :=
    h.well.proper_write_frame (h.well.held_apart g hg).2.2.2 hmem
  refine ⟨h.toShows.write hproper hflags hbytes, fun t ht ↦ ?_, h.lowest⟩
  have ht : t ∈ freeAddresses s.machine.frames := ht
  have hframe := paging.source.isFrame _ h.well.serving t ht
  refine (h.fresh t ht).trans (sameTable_of_frame hframe (fun heq ↦ ?_) hmem)
  have hfree := (mem_freeAddresses_iff hframe).mp ht
  rw [show t / frameSize = g from heq] at hfree
  exact ((h.well.mem_free g).mp hfree).2.2.1 hg

/-- With a page added, a page is the new one or an old one. -/
theorem update_page_cases (frameOf : ℕ → ℕ) (frame : ℕ) {new page : ℕ} {added content : UserPage}
    (h : Function.update u new (some added) page = some content) :
    (page = new ∧ content = added ∧ Function.update frameOf new frame page = frame) ∨
      (page ≠ new ∧ u page = some content ∧ Function.update frameOf new frame page = frameOf page) := by
  by_cases heq : page = new
  · rw [heq, Function.update_self] at h ⊢
    exact Or.inl ⟨rfl, (Option.some.inj h).symm, rfl⟩
  · rw [Function.update_of_ne heq] at h ⊢
    exact Or.inr ⟨heq, h, rfl⟩

/-- Mapping a frame of the loader adds a page with what is in the frame. -/
theorem Holds.mapHeld (h : Holds paging reserved start space root levels u frameOf s)
    {va flags frame : ℕ} {bytes : Option (ℕ → UInt8)}
    (hblock : (paging.walkTo start.machine.mem start.kernelRoot (paging.pageOf va)).block
      paging.format = none)
    (hflags : hasFlags flags presentFlag = true)
    (hcard : levels (paging.pageOf va) ≤ (freeSet s.pmm).card)
    (hframe : IsFrame paging.format.limit frame) (hheld : frame / 4096 ∈ s.held)
    (hnew : ∀ page content, u page = some content → frameOf page ≠ frame)
    (hbytes : ∀ contents, bytes = some contents →
      ∀ offset < 4096, s.machine.mem.byteAt (frame + offset) = contents offset) :
    let after := (VmmCall.map space va frame flags).run backend s
    Holds paging reserved start space root (levelsAfter paging levels (paging.pageOf va))
      (Function.update u (paging.pageOf va) (some ⟨flags, bytes⟩))
      (Function.update frameOf (paging.pageOf va) frame) after ∧
    (freeSet after.pmm).card + levels (paging.pageOf va) = (freeSet s.pmm).card := by
  have hpage := paging.pageOf_lt va
  have hnone : (paging.walkTo s.machine.mem root (paging.pageOf va)).block paging.format = none :=
    (h.block_eq _ hpage).trans hblock
  have hlevel := h.level_eq _ hpage hnone
  have hproper : (VmmCall.map space va frame flags).Proper paging s := by
    change s.root space ≠ none
    rw [h.root_eq]
    exact Option.some_ne_none root
  have hreached := h.reached.step hproper
  have hlowest : LowestTaken start.pmm ((VmmCall.map space va frame flags).run backend s).pmm := by
    rw [VmmCall.run, Spaces.onRoot_eq h.root_eq, paging.map_eq]
    exact frames_editPath paging.source (fun desk ↦ LowestTaken start.pmm desk.pmm)
      (fun _ hdesk ↦ hdesk.allocFrame) _ _ _ h.lowest
  have hmap := h.well.pageMapped h.root_eq hnone (hlevel.trans_le hcard) frame flags
  generalize (VmmCall.map space va frame flags).run backend s = after at *
  have hbyte : ∀ t offset, IsFrame paging.format.limit t → t / 4096 ∈ s.held → offset < 4096 →
      after.machine.mem.byteAt (t + offset) = s.machine.mem.byteAt (t + offset) := by
    intro t offset ht htheld hoffset
    refine (hmap.same t ht (Or.inl htheld)).byteAt_eq ?_
    obtain ⟨k, hk⟩ := ht.aligned
    omega
  have hcases {page : ℕ} {content : UserPage}
      (h : Function.update u (paging.pageOf va) (some ⟨flags, bytes⟩) page = some content) :=
    update_page_cases frameOf frame h
  refine ⟨⟨⟨hmap.well, hreached, (hmap.root_eq space).trans h.root_eq,
    fun other hother ↦ (hmap.root_eq other).trans (h.others_eq other hother),
    fun other hother hlive ↦ ?_, fun page hlt ↦ (hmap.block_eq page).trans (h.block_eq page hlt),
    fun page hlt hfree ↦ ?_, fun page hlt hvacant ↦ ?_, fun page hlt content hcontent ↦ ?_,
    fun page content hcontent ↦ ?_, fun page content hcontent ↦ ?_, fun page content hcontent ↦ ?_,
    fun page content other otherContent hcontent hotherContent hne ↦ ?_,
    fun page content contents hcontent hcontents offset hoffset ↦ ?_⟩, fun t ht ↦ ?_, hlowest⟩,
    hlevel ▸ hmap.card_eq⟩
  · have hbefore := h.untouched other hother hlive
    exact hbefore.trans (hmap.untouched other hother (hbefore.1 ▸ hlive))
  · rw [hmap.level_eq, h.level_eq page hlt ((hmap.block_eq page).symm.trans hfree)]
    rfl
  · have hne : page ≠ paging.pageOf va := by
      rintro rfl
      rw [Function.update_self] at hvacant
      exact absurd hvacant (Option.some_ne_none _)
    rw [Function.update_of_ne hne] at hvacant
    rw [hmap.leaf_other page hlt hne]
    exact h.vacant page hlt hvacant
  · rcases hcases hcontent with ⟨rfl, rfl, hframeEq⟩ | ⟨hne, hold, hframeEq⟩
    · exact ⟨_, by rw [hframeEq]; exact hmap.leaf_self⟩
    · obtain ⟨old, hleaf⟩ := h.shown page hlt content hold
      exact ⟨old, by rw [hframeEq, hmap.leaf_other page hlt hne]; exact hleaf⟩
  · rcases hcases hcontent with ⟨-, rfl, -⟩ | ⟨-, hold, -⟩
    · exact hflags
    · exact h.present page content hold
  · rcases hcases hcontent with ⟨-, -, hframeEq⟩ | ⟨-, hold, hframeEq⟩
    · rwa [hframeEq]
    · rw [hframeEq]
      exact h.isFrame page content hold
  · rw [hmap.held_eq]
    rcases hcases hcontent with ⟨-, -, hframeEq⟩ | ⟨-, hold, hframeEq⟩
    · rwa [hframeEq]
    · rw [hframeEq]
      exact h.held page content hold
  · rcases hcases hcontent with ⟨hpageEq, -, hframeEq⟩ | ⟨-, hold, hframeEq⟩
    · rcases hcases hotherContent with ⟨hotherEq, -, -⟩ | ⟨-, hotherOld, hotherFrame⟩
      · exact absurd (hpageEq.trans hotherEq.symm) hne
      · rw [hframeEq, hotherFrame]
        exact (hnew other otherContent hotherOld).symm
    · rcases hcases hotherContent with ⟨-, -, hotherFrame⟩ | ⟨-, hotherOld, hotherFrame⟩
      · rw [hframeEq, hotherFrame]
        exact hnew page content hold
      · rw [hframeEq, hotherFrame]
        exact h.distinct page content other otherContent hold hotherOld hne
  · rcases hcases hcontent with ⟨-, rfl, hframeEq⟩ | ⟨-, hold, hframeEq⟩
    · rw [hframeEq, hbyte frame offset hframe hheld hoffset]
      exact hbytes contents hcontents offset hoffset
    · rw [hframeEq, hbyte _ offset (h.isFrame page content hold) (h.held page content hold) hoffset]
      exact h.bytes_eq page content contents hold hcontents offset hoffset
  · have hframeT := paging.source.isFrame _ hmap.well.serving t ht
    have hbefore : t ∈ freeAddresses s.machine.frames := image_subset_image hmap.subset ht
    exact (h.fresh t hbefore).trans (hmap.same t hframeT (Or.inr ht))

/-- Copying a byte to a page of the loader. -/
theorem Holds.poke (h : Holds paging reserved start space root levels u frameOf s) {va : ℕ}
    {content : UserPage} (hpage : u (paging.pageOf va) = some content) (byte : UInt8) :
    Holds paging reserved start space root levels
      (Function.update u (paging.pageOf va) (some { content with
        bytes := content.bytes.map fun bytes ↦ Function.update bytes (va % 4096) byte })) frameOf
      ((VmmCall.write (s.machine.mem.storeByte (backend.translate s.machine root va) byte)).run
        backend s) := by
  have hpa := h.translate_eq hpage
  have hframe := h.isFrame _ content hpage
  have hoffset : va % 4096 < 4096 := Nat.mod_lt _ (by norm_num)
  obtain ⟨k, hk⟩ := hframe.aligned
  have hdiv : backend.translate s.machine root va / 4096 = frameOf (paging.pageOf va) / 4096 := by
    rw [hpa]
    omega
  refine h.write (h.held _ content hpage) (fun a ha ↦ ?_) (fun page ↦ ?_)
    fun page other bytes hother hbytes offset hlt ↦ ?_
  · exact WordMemory.storeByte_of_frame_ne _ _ (by rwa [hdiv])
  · by_cases heq : page = paging.pageOf va
    · rw [heq, Function.update_self, hpage]
      rfl
    · rw [Function.update_of_ne heq]
  · rw [WordMemory.byteAt_storeByte, hpa]
    by_cases heq : page = paging.pageOf va
    · rw [heq, Function.update_self, Option.some.injEq] at hother
      rw [← hother, Option.map_eq_some_iff] at hbytes
      obtain ⟨before, hbefore, rfl⟩ := hbytes
      have hold := h.bytes_eq _ content before hpage hbefore offset hlt
      rw [heq, hold]
      by_cases hat : offset = va % 4096
      · rw [if_pos (by omega), hat, Function.update_self]
      · rw [if_neg (by omega), Function.update_of_ne hat]
    · rw [Function.update_of_ne heq] at hother
      have hne := h.distinct page other _ content hother hpage heq
      obtain ⟨k', hk'⟩ := (h.isFrame page other hother).aligned
      rw [if_neg (by omega)]
      exact h.bytes_eq page other bytes hother hbytes offset hlt

/-- A new address space, before anything is mapped in it. -/
theorem holds_create (h : WellFormed paging reserved start)
    (hnever : NeverExhausted (VmmCall.create.run backend start).machine.frames)
    (hblocks : ∀ page < paging.pages, ∀ entry,
      (paging.walkTo start.machine.mem start.kernelRoot page).block paging.format = some entry →
        paging.format.isPresent entry = true) (frameOf : ℕ → ℕ) :
    ∃ root, Holds paging reserved start (.user start.next) root
      (fun page ↦ (paging.walkTo start.machine.mem start.kernelRoot page).level) UserSpace.empty
      frameOf (VmmCall.create.run backend start) := by
  have hproper : VmmCall.create.Proper paging start := trivial
  have hwell := wellFormed_run h hproper hnever
  have hreached := (Reaches.refl start).step hproper
  have hlowest : LowestTaken start.pmm (VmmCall.create.run backend start).pmm := by
    rw [run_create, paging.create_eq]
    exact frames_cloneTable paging.source (fun desk ↦ LowestTaken start.pmm desk.pmm)
      (fun _ hdesk ↦ hdesk.allocFrame) _ (LowestTaken.refl _)
  rw [run_create] at *
  have hcloned := h.create_spec hnever
  have hdescends := descends_create paging start.machine start.kernelRoot
  generalize backend.createAddressSpace start.machine start.kernelRoot = made at *
  have hcopy : ∀ page, CopyOf paging.format
      (paging.walkTo start.machine.mem start.kernelRoot page)
      (paging.walkTo made.1.mem made.2 page) := fun page ↦ hcloned.copied _ (isPath_indexPath _ page)
  have hempty : ∀ {page : ℕ} {content : UserPage}, UserSpace.empty page ≠ some content :=
    fun heq ↦ absurd heq (Option.some_ne_none _).symm
  refine ⟨made.2, ⟨hwell, hreached, start.root_adopt_new _ _, fun _ ↦ start.root_adopt _ _,
    fun other hother _ ↦ h.untouched_adopt hcloned.toFreshTree hother,
    fun page hpage ↦ (hcopy page).block_eq fun entry hentry ↦ hblocks page hpage entry hentry,
    fun page _ _ ↦ (hcopy page).level_eq, fun page _ _ ↦ (hcopy page).leaf_eq,
    fun page _ content hcontent ↦ absurd hcontent hempty,
    fun page content hcontent ↦ absurd hcontent hempty,
    fun page content hcontent ↦ absurd hcontent hempty,
    fun page content hcontent ↦ absurd hcontent hempty,
    fun page content other otherContent hcontent ↦ absurd hcontent hempty,
    fun page content bytes hcontent ↦ absurd hcontent hempty⟩, fun t ht ↦ ?_, hlowest⟩
  have ht : t ∈ paging.source.available made.1.frames := ht
  rw [hcloned.available_eq, mem_sdiff, List.mem_toFinset] at ht
  exact hcloned.same t (paging.source.isFrame _ h.serving t ht.1) ht.2

/-! ### The steps of the loader -/

/-- The accounts of the loader: the frames it was given were free at the start, are all different, and
are what the rest of the kernel now holds in addition; the frames behind the pages are among them; and
bytes of the file have been written to such frames only. -/
structure Confined (start : Spaces) (u : UserSpace) (frameOf : ℕ → ℕ) (l : Loader) : Prop where
  taken : ∀ page content, u page = some content → frameOf page ∈ l.taken
  writes : ∀ a ∈ l.writes, a / 4096 * 4096 ∈ l.taken ∧ a / 4096 * 4096 ≠ 0
  free : ∀ a ∈ l.taken, a ∈ freeAddresses start.machine.frames
  nodup : l.taken.Nodup
  mem_held : ∀ f, f ∈ l.spaces.held ↔ f ∈ start.held ∨ f * 4096 ∈ l.taken

/-- The loader is given one more frame, for one page. -/
theorem Confined.cons {l l' : Loader} (h : Confined start u frameOf l) {frame : ℕ} (page : ℕ)
    (content : UserPage) (haligned : 4096 ∣ frame)
    (hfree : frame ∈ freeAddresses start.machine.frames) (hnew : frame ∉ l.taken)
    (htaken : l'.taken = frame :: l.taken) (hwrites : l'.writes = l.writes)
    (hheld : ∀ f, f ∈ l'.spaces.held ↔ f = frame / 4096 ∨ f ∈ l.spaces.held) :
    Confined start (Function.update u page (some content)) (Function.update frameOf page frame)
      l' where
  taken := fun other otherContent hother ↦ by
    rw [htaken]
    rcases update_page_cases frameOf frame hother with ⟨-, -, hframe⟩ | ⟨-, hold, hframe⟩
    · rw [hframe]
      exact List.mem_cons_self
    · rw [hframe]
      exact List.mem_cons_of_mem _ (h.taken other otherContent hold)
  writes := fun a ha ↦ by
    obtain ⟨hold, hne⟩ := h.writes a (hwrites ▸ ha)
    rw [htaken]
    exact ⟨List.mem_cons_of_mem _ hold, hne⟩
  free := by
    rw [htaken]
    exact List.forall_mem_cons.mpr ⟨hfree, h.free⟩
  nodup := by
    rw [htaken]
    exact List.nodup_cons.mpr ⟨hnew, h.nodup⟩
  mem_held := fun f ↦ by
    have hframe : f * 4096 ∈ frame :: l.taken ↔ f = frame / 4096 ∨ f * 4096 ∈ l.taken := by
      rw [List.mem_cons]
      obtain ⟨k, hk⟩ := haligned
      exact or_congr_left (by omega)
    rw [hheld, htaken, hframe, h.mem_held]
    exact or_left_comm

section Steps

variable (image : Image) {blocks : ℕ → Option ℕ} {l : Loader}
  (hblocks : ∀ page < paging.pages,
    (paging.walkTo start.machine.mem start.kernelRoot page).block paging.format = blocks page)

include hblocks

/-- A frame is taken, filled, and mapped. -/
theorem Holds.mapFresh (h : Holds paging reserved start space root levels u frameOf l.spaces)
    (hconfined : Confined start u frameOf l) (va flags : ℕ) (mem : WordMemory)
    (bytes : Option (ℕ → UInt8)) (hblock : blocks (paging.pageOf va) = none)
    (hflags : hasFlags flags presentFlag = true)
    (hcard : 1 + levels (paging.pageOf va) ≤ (freeSet l.spaces.pmm).card)
    (hmem : ∀ a, a / 4096 ≠ (l.allocFrame backend).2 / 4096 → mem a = l.spaces.machine.mem a)
    (hbytes : ∀ contents, bytes = some contents → ∀ offset < 4096,
      mem.byteAt ((l.allocFrame backend).2 + offset) = contents offset) :
    let after := (((l.allocFrame backend).1.step backend (.write mem)).step backend
      (.map space va (l.allocFrame backend).2 flags))
    let frameOf' := Function.update frameOf (paging.pageOf va) (l.allocFrame backend).2
    let u' := Function.update u (paging.pageOf va) (some ⟨flags, bytes⟩)
    Holds paging reserved start space root (levelsAfter paging levels (paging.pageOf va)) u' frameOf'
      after.spaces ∧
    Confined start u' frameOf' after ∧
    (freeSet after.spaces.pmm).card + (1 + levels (paging.pageOf va)) =
      (freeSet l.spaces.pmm).card ∧
    (l.allocFrame backend).2 ∈ freeAddresses l.spaces.machine.frames := by
  have hfree : (freeSet l.spaces.pmm).Nonempty := card_pos.mp (by omega)
  have hpage := (hblocks _ (paging.pageOf_lt va)).trans hblock
  have hresult : (pmmAllocFrame l.spaces.pmm).2 = (l.allocFrame backend).2 := rfl
  obtain ⟨halloc, hleft, hframe, hheldAfter, havailable, hnew⟩ := h.alloc hfree hresult
  have hheld : (l.allocFrame backend).2 / 4096 ∈
      ((VmmCall.others .allocFrame).run backend l.spaces).held := by
    rw [hheldAfter]
    exact mem_insert_self _ _
  have hdiv := hframe.aligned
  have hwrite := halloc.write hheld hmem (fun _ ↦ rfl)
    fun page content contents hcontent hcontents offset hoffset ↦ by
      have holdFrame := h.isFrame page content hcontent
      have hne : frameOf page / 4096 ≠ (l.allocFrame backend).2 / 4096 := by
        intro heq
        refine hnew page content hcontent ?_
        rw [← Nat.div_mul_cancel holdFrame.aligned, heq, Nat.div_mul_cancel hdiv]
      have hsame : SameTable l.spaces.machine.mem mem (frameOf page) :=
        sameTable_of_frame holdFrame hne hmem
      refine (hsame.byteAt_eq ?_).trans (h.bytes_eq page content contents hcontent hcontents offset
        hoffset)
      obtain ⟨k, hk⟩ := holdFrame.aligned
      omega
  obtain ⟨hmapped, hcost⟩ := hwrite.mapHeld hpage hflags
    (by
      change _ ≤ (freeSet ((VmmCall.others .allocFrame).run backend l.spaces).pmm).card
      omega)
    hframe hheld hnew hbytes
  have hnotTaken : (l.allocFrame backend).2 ∉ l.taken := by
    intro hmem
    have hfreeFrame := (mem_freeAddresses_iff hframe).mp havailable
    refine ((h.well.mem_free _).mp hfreeFrame).2.2.1 ((hconfined.mem_held _).mpr (Or.inr ?_))
    rwa [Nat.div_mul_cancel hdiv]
  refine ⟨hmapped, hconfined.cons _ _ hdiv (image_subset_image h.lowest.subset havailable) hnotTaken
    rfl rfl fun f ↦ ?_, ?_, havailable⟩
  · change f ∈ ((VmmCall.map space va (l.allocFrame backend).2 flags).run backend
      ((VmmCall.write mem).run backend
        ((VmmCall.others .allocFrame).run backend l.spaces))).held ↔ _
    rw [held_map]
    change f ∈ ((VmmCall.others .allocFrame).run backend l.spaces).held ↔ _
    rw [hheldAfter, mem_insert]
  · have hpmm : (freeSet ((VmmCall.write mem).run backend
        ((VmmCall.others .allocFrame).run backend l.spaces)).pmm).card =
        (freeSet ((VmmCall.others .allocFrame).run backend l.spaces).pmm).card := rfl
    change (freeSet ((VmmCall.map space va (l.allocFrame backend).2 flags).run backend
      ((VmmCall.write mem).run backend ((VmmCall.others .allocFrame).run backend l.spaces))).pmm).card
        + _ = _
    omega

/-- One step of the loader is one step of the abstract model. -/
theorem Holds.op (h : Holds paging reserved start space root levels u frameOf l.spaces)
    (hconfined : Confined start u frameOf l) {op : LoadOp} (hop : op.Admitted paging blocks u)
    (hcard : op.cost paging levels ≤ (freeSet l.spaces.pmm).card) :
    ∃ frameOf', Holds paging reserved start space root (op.levels paging levels)
        (u.step paging image op) frameOf' (op.run backend image space l).spaces ∧
      Confined start (u.step paging image op) frameOf' (op.run backend image space l) ∧
      (freeSet (op.run backend image space l).spaces.pmm).card + op.cost paging levels =
        (freeSet l.spaces.pmm).card := by
  cases op with
  | note offsets =>
    exact ⟨frameOf, h, ⟨hconfined.taken, hconfined.writes, hconfined.free, hconfined.nodup,
      hconfined.mem_held⟩, rfl⟩
  | page va flags =>
    have hfree : (freeSet l.spaces.pmm).Nonempty := by
      have hcard : 1 + levels (paging.pageOf va) ≤ (freeSet l.spaces.pmm).card := hcard
      exact card_pos.mp (by omega)
    have hresult : (pmmAllocFrame l.spaces.pmm).2 = (l.allocFrame backend).2 := rfl
    obtain ⟨-, -, hframe, -⟩ := h.alloc hfree hresult
    obtain ⟨hmapped, hconfinedAfter, hcost, -⟩ := h.mapFresh hblocks hconfined va flags
      (l.spaces.machine.mem.zeroBytes (l.allocFrame backend).2 4096) (some fun _ ↦ 0) hop.1 hop.2 hcard
      (fun a ha ↦ WordMemory.zeroBytes_of_frame_ne _ le_rfl hframe.aligned ha)
      fun contents hcontents offset hoffset ↦ by
        rw [WordMemory.byteAt_zeroBytes, if_pos (by omega), ← Option.some.inj hcontents]
    exact ⟨_, hmapped, hconfinedAfter, hcost⟩
  | copy va offset =>
    obtain ⟨content, hcontent⟩ := Option.ne_none_iff_exists'.mp hop
    have hpoke := h.poke hcontent (image.byte offset)
    have htranslate : translateIn backend l.spaces space va =
        backend.translate l.spaces.machine root va := by
      rw [translateIn, h.root_eq]
    have hstep : u.step paging image (.copy va offset) = Function.update u (paging.pageOf va)
        (some { content with
          bytes := content.bytes.map fun bytes ↦
            Function.update bytes (va % 4096) (image.byte offset) }) := by
      rw [UserSpace.step, hcontent]
      rfl
    rw [hstep]
    refine ⟨frameOf, ?_, ⟨fun page other hother ↦ ?_, fun a ha ↦ ?_, hconfined.free, hconfined.nodup,
      hconfined.mem_held⟩, rfl⟩
    · change Holds paging reserved start space root levels _ frameOf ((VmmCall.write
        (l.spaces.machine.mem.storeByte (translateIn backend l.spaces space va) _)).run backend _)
      rw [htranslate]
      exact hpoke
    · by_cases heq : page = paging.pageOf va
      · rw [heq]
        exact hconfined.taken _ content hcontent
      · rw [Function.update_of_ne heq] at hother
        exact hconfined.taken page other hother
    · have ha : a ∈ translateIn backend l.spaces space va :: l.writes := ha
      rcases List.mem_cons.mp ha with rfl | hold
      · have hframe := h.isFrame _ content hcontent
        have hbase : translateIn backend l.spaces space va / 4096 * 4096 =
            frameOf (paging.pageOf va) := by
          rw [htranslate, h.translate_eq hcontent]
          obtain ⟨k, hk⟩ := hframe.aligned
          omega
        rw [hbase]
        exact ⟨hconfined.taken _ content hcontent, Nat.pos_iff_ne_zero.mp hframe.pos⟩
      · exact hconfined.writes a hold
  | stack va =>
    obtain ⟨hmapped, hconfinedAfter, hcost, -⟩ := h.mapFresh hblocks hconfined va
      stackFlags l.spaces.machine.mem none hop (by decide) hcard (fun _ _ ↦ rfl) (by simp)
    exact ⟨_, hmapped, hconfinedAfter, hcost⟩

/-- The steps of the loader are those of the abstract model. -/
theorem Holds.run (ops : List LoadOp) :
    ∀ {levels : ℕ → ℕ} {u : UserSpace} {frameOf : ℕ → ℕ} {l : Loader},
      Holds paging reserved start space root levels u frameOf l.spaces → Confined start u frameOf l →
      Admissible paging image blocks u ops →
      demand paging levels ops ≤ (freeSet l.spaces.pmm).card →
        ∃ frameOf', Holds paging reserved start space root (levelsRun paging levels ops)
            (u.run paging image ops) frameOf'
            (ops.foldl (LoadOp.run backend image space) l).spaces ∧
          Confined start (u.run paging image ops) frameOf'
            (ops.foldl (LoadOp.run backend image space) l) ∧
          (freeSet (ops.foldl (LoadOp.run backend image space) l).spaces.pmm).card +
            demand paging levels ops = (freeSet l.spaces.pmm).card := by
  induction ops with
  | nil => exact fun h hconfined _ _ ↦ ⟨_, h, hconfined, rfl⟩
  | cons op ops ih =>
    intro levels u frameOf l h hconfined hadmissible hcard
    obtain ⟨hop, hrest⟩ := hadmissible
    rw [demand] at hcard
    obtain ⟨frameOf', hafter, hconfinedAfter, hcost⟩ :=
      h.op image hblocks hconfined hop (by omega)
    obtain ⟨last, hlast, hconfinedLast, hleft⟩ := ih hafter hconfinedAfter hrest (by omega)
    refine ⟨last, hlast, hconfinedLast, ?_⟩
    rw [demand, List.foldl_cons]
    omega

end Steps

end Simulation

end MegKer.Process
