import MegKer.Foundation.Transition
import MegKer.Vmm.EffectivePermissions

/-!
# Page tables and the translation cache

The processor keeps translations it has used in a cache, the TLB, and goes on using them when the
tables change. `vmm_switch` loads CR3 and so empties the cache; `vmm_unmap` ends with `invlpg`,
which drops the page it has unmapped. `vmm_map` does neither. This is enough for a page that was not
mapped, since absence is not cached, and not for one that was.

`Cpu` is the kernel together with the cache and the active address space. The processor may fill the
cache at any time (`CpuAction.fill`), also between the two parts of `vmm_map`, the walk that makes the
missing tables and the store of the entry. The walk gives no page another translation
(`Sane.tables_walk`), so it does not matter which of its accesses a fill falls between.

`Coherent` states that every cached translation is what the active tables say. It holds after every run
in which no `vmm_map` of the active space is for a page that has another translation there, cached or
not, and such a call is all it takes to lose it (`coherent_map_iff`).

A page of the cache is named by the 36 bits of an address that select its entries, bits 12 to 47.
-/

set_option autoImplicit false
set_option relaxedAutoImplicit false

namespace MegKer.Vmm.X86

open Foundation Memory

/-! ### Translations -/

/-- What the processor caches of a walk: the frame, whether it is that of a huge page, and the
permissions. -/
structure Translation where
  frame : ℕ
  huge : Bool
  permissions : Permissions
  deriving DecidableEq, Repr

/-- The translation at the end of a walk. -/
def translationOf (w : Walk) : Option Translation :=
  (permissions w).map fun granted ↦ ⟨w.entry &&& addrMask, decide (w.level ≠ 0), granted⟩

/-- The translation of a page that `vmm_map` maps. -/
def pageTranslation (phys flags : ℕ) : Translation :=
  ⟨phys &&& addrMask, false, requested flags⟩

/-- The page of a virtual address. -/
def pageOf (virt : ℕ) : ℕ := virt / 4096 % 2 ^ 36

theorem pageOf_lt (virt : ℕ) : pageOf virt < 2 ^ 36 := Nat.mod_lt _ (by norm_num)

/-! ### The processor and the manager -/

/-- A cached translation. -/
structure TlbEntry where
  page : ℕ
  translation : Translation
  deriving DecidableEq, Repr

/-- The kernel on a processor: the address spaces, the one that CR3 points to, the cache, and inside
`vmm_map` the store that is still to be done. -/
structure Cpu where
  spaces : Spaces
  active : Handle
  tlb : List TlbEntry
  pending : Option (ℕ × ℕ)

/-- What the tables of the active space say of a page. -/
def Cpu.tables (c : Cpu) (page : ℕ) : Option Translation :=
  (c.spaces.root c.active).bind fun pml4 ↦
    translationOf (paging.walkTo c.spaces.machine.mem pml4 page)

def invlpg (tlb : List TlbEntry) (virt : ℕ) : List TlbEntry :=
  tlb.filter fun entry ↦ entry.page ≠ pageOf virt

/-- `vmm_unmap`, with the flush of the page at its end. -/
def vmmUnmapFlush (m : Machine) (tlb : List TlbEntry) (pml4 virt : ℕ) : Machine × List TlbEntry :=
  let i4 := (virt >>> 39) &&& 0x1FF
  let i3 := (virt >>> 30) &&& 0x1FF
  let i2 := (virt >>> 21) &&& 0x1FF
  let i1 := (virt >>> 12) &&& 0x1FF
  if noTable (m.mem (slot pml4 i4)) then (m, tlb)
  else
    let pdpt := m.mem (slot pml4 i4) &&& addrMask
    if noTable (m.mem (slot pdpt i3)) then (m, tlb)
    else
      let pd := m.mem (slot pdpt i3) &&& addrMask
      if noTable (m.mem (slot pd i2)) then (m, tlb)
      else
        let pt := m.mem (slot pd i2) &&& addrMask
        ({ m with mem := m.mem.store (slot pt i1) 0 }, invlpg tlb virt)

/-- `vmm_map` up to its store, with the slot of the entry that is left to store. -/
def vmmMapWalk (m : Machine) (pml4 virt flags : ℕ) : Machine × Option ℕ :=
  let i4 := (virt >>> 39) &&& 0x1FF
  let i3 := (virt >>> 30) &&& 0x1FF
  let i2 := (virt >>> 21) &&& 0x1FF
  let i1 := (virt >>> 12) &&& 0x1FF
  let (m, pdpt) := getOrCreateTable m pml4 i4 flags
  if pdpt = 0 then (m, none)
  else
    let (m, pd) := getOrCreateTable m pdpt i3 flags
    if pd = 0 then (m, none)
    else
      let (m, pt) := getOrCreateTable m pd i2 flags
      if pt = 0 then (m, none) else (m, some (slot pt i1))

/-- What can happen: the processor caches the translation of an address that is mapped, the kernel
switches to a space, a step of the manager and its surroundings is taken, or `vmm_map` does the store
that it has walked to. -/
inductive CpuAction
  | fill (virt : ℕ)
  | switch (space : Handle)
  | call (call : VmmCall)
  | store

/-- The cache after a step of the manager. Only `vmm_unmap` flushes. -/
def Cpu.flushed (c : Cpu) : VmmCall → List TlbEntry
  | .unmap space virt =>
    match c.spaces.root space with
    | some pml4 => (vmmUnmapFlush c.spaces.machine c.tlb pml4 virt).2
    | none => c.tlb
  | .create => c.tlb
  | .map _ _ _ _ => c.tlb
  | .destroy _ => c.tlb
  | .others _ => c.tlb
  | .write _ => c.tlb

/-- The walk of `vmm_map`. -/
def Cpu.walk (c : Cpu) (space : Handle) (virt phys flags : ℕ) : Cpu :=
  match c.spaces.root space with
  | some pml4 =>
    let (m, slot) := vmmMapWalk c.spaces.machine pml4 virt flags
    { c with spaces := { c.spaces with machine := m }
             pending := slot.map fun slot ↦ (slot, pageEntry phys flags) }
  | none => c

/-- What the manager does at once when it is called. -/
def Cpu.call (c : Cpu) : VmmCall → Cpu
  | .map space virt phys flags => c.walk space virt phys flags
  | call => { c with spaces := call.run backend c.spaces, tlb := c.flushed call }

/-- One step. The processor caches only what is mapped, `vmm_switch` is about a space that exists, and
while `vmm_map` has a store to do the kernel does nothing else. -/
def Cpu.step (c : Cpu) : CpuAction → Option Cpu
  | .fill virt =>
    (c.tables (pageOf virt)).map fun translation ↦
      { c with tlb := ⟨pageOf virt, translation⟩ :: c.tlb }
  | .switch space =>
    if c.pending = none ∧ (c.spaces.root space).isSome then
      some { c with active := space, tlb := [] }
    else none
  | .call call => if c.pending = none then some (c.call call) else none
  | .store =>
    c.pending.map fun (slot, entry) ↦
      { c with spaces := { c.spaces with machine :=
                 { c.spaces.machine with mem := c.spaces.machine.mem.store slot entry } }
               pending := none }

/-- At boot the kernel space is active. -/
def Boot.cpu (boot : Boot) : Cpu := ⟨boot.spaces, .kernel, [], none⟩

/-- Every cached translation is what the active tables say. -/
def Coherent (c : Cpu) : Prop := ∀ entry ∈ c.tlb, c.tables entry.page = some entry.translation

/-- The steps that callers take: proper ones with VMM_PRESENT in the flags of a mapping, with frames
for the tables they make, and not the destruction of the active space. -/
def Allowed (c : Cpu) : CpuAction → Prop
  | .fill _ => True
  | .switch _ => True
  | .store => True
  | .call call =>
    call.Proper paging c.spaces ∧ call.HasFrames paging c.spaces ∧
      call ≠ .destroy c.active ∧ MapsOnly AsksPresent (fun _ ↦ True) call

/-- The step does not map a page of the active space that has another translation there. Huge pages
are out of reach of `vmm_map`. -/
def Unstale (c : Cpu) : CpuAction → Prop
  | .call (.map space virt phys flags) =>
    space = c.active → ∀ translation, c.tables (pageOf virt) = some translation →
      translation.huge = true ∨ translation = pageTranslation phys flags
  | _ => True

/-! ### The flush -/

/-- The flush is reached exactly when the tables of the page are there. -/
theorem vmmUnmapFlush_eq (m : Machine) (tlb : List TlbEntry) (pml4 virt : ℕ) :
    vmmUnmapFlush m tlb pml4 virt = (vmmUnmap m pml4 virt,
      if (leafSlot format m.mem pml4 (path virt)).isSome then invlpg tlb virt else tlb) := by
  have hchild : ∀ entry, entry &&& addrMask = format.child entry := fun _ ↦ rfl
  rw [path_eq]
  unfold vmmUnmapFlush vmmUnmap
  simp only [noTable_eq, leafSlot, hchild, Bool.not_eq_true', ← Bool.not_eq_true]
  split_ifs <;> first | rfl | simp_all

/-- `vmm_map` is its walk and the store. -/
theorem vmmMap_eq_walk (m : Machine) (pml4 virt phys flags : ℕ) :
    vmmMap m pml4 virt phys flags =
      match (vmmMapWalk m pml4 virt flags).2 with
      | some a =>
        { (vmmMapWalk m pml4 virt flags).1 with
          mem := (vmmMapWalk m pml4 virt flags).1.mem.store a (pageEntry phys flags) }
      | none => (vmmMapWalk m pml4 virt flags).1 := by
  unfold vmmMap vmmMapWalk
  dsimp only
  split_ifs <;> rfl

/-- The walk does what an edit does that leaves the entry as it is. -/
theorem vmmMapWalk_eq (m : Machine) (pml4 virt flags : ℕ) :
    (vmmMapWalk m pml4 virt flags).1 =
      editPath format source (links flags) id m pml4 (path virt) := by
  have hstore : ∀ (m : Machine) (a : ℕ), { m with mem := m.mem.store a (id (m.mem a)) } = m :=
    fun m a ↦ congrArg (fun mem ↦ { m with mem := mem }) (Function.update_eq_self a m.mem)
  rw [path_eq]
  unfold vmmMapWalk
  simp only [getOrCreateTable_eq, editPath, hstore]
  split_ifs <;> rfl

theorem pageOf_eq (virt : ℕ) : paging.pageOf virt = pageOf virt := by
  rw [Paging.pageOf, pages_eq]
  rfl

theorem mem_invlpg {tlb : List TlbEntry} {virt : ℕ} {entry : TlbEntry} :
    entry ∈ invlpg tlb virt ↔ entry ∈ tlb ∧ entry.page ≠ pageOf virt := by
  rw [invlpg, List.mem_filter, decide_eq_true_eq]

/-! ### What the tables say, in the abstract maps -/

/-- The translation in the abstract maps. -/
def abstractTranslation (a : PageMaps) (space : Handle) (page : ℕ) : Option Translation :=
  if identityMapped page then some ⟨hugeEntry (page / 512) &&& addrMask, true, ⟨false, true⟩⟩
  else (a.find space (page * 4096)).map fun mapping ↦ pageTranslation mapping.phys mapping.flags

theorem pageEntry_and_addrMask_eq (phys flags : ℕ) :
    pageEntry phys flags &&& addrMask = phys &&& addrMask := by
  unfold pageEntry
  rw [addrMask_eq, or_and_fieldMask (by omega) _ (pageFlags_lt flags), Nat.and_assoc, Nat.and_self]

/-- A walk that shows a mapping has its entry at the end. -/
theorem entry_of_leafShows {w : Walk} {mapping : Mapping}
    (hleaf : LeafShows paging AsksPresent (some mapping) w.leaf) :
    w.level = 0 ∧ w.entry = pageEntry mapping.phys mapping.flags := by
  generalize hvalue : w.leaf = leaf at hleaf
  cases hleaf with
  | mapped mapping old hok =>
    change w.leaf = pageEntry mapping.phys mapping.flags at hvalue
    have hpresent : w.leaf.testBit 0 = true := by
      rw [hvalue, testBit_pageEntry _ _ (by omega), ← hasFlags_vmmPresent]
      exact hok
    have hlevel : w.level = 0 := by
      by_contra hne
      rw [Walk.leaf, if_neg hne] at hpresent
      exact absurd hpresent (by simp)
    rw [Walk.leaf, if_pos hlevel] at hvalue
    exact ⟨hlevel, hvalue⟩

section Represented

variable {s : Spaces} {a : PageMaps} {space : Handle} {pml4 page : ℕ}

/-- The translation of a page is that of the abstract maps. -/
theorem translationOf_eq (h : Represents paging AsksPresent hugeLeaf s a)
    (hrespect : AllRespect paging LinksAdmit s) (hroot : s.root space = some pml4)
    (hpage : page < 2 ^ 36) :
    translationOf (paging.walkTo s.machine.mem pml4 page) = abstractTranslation a space page := by
  have hpages : page < paging.pages := pages_eq ▸ hpage
  have hcancel : page * 4096 / 4096 = page := Nat.mul_div_cancel page (by norm_num)
  have hgranted := effectivePermissions_eq h (fun _ h ↦ h) hrespect hroot
    (show page * 4096 < 2 ^ 48 by omega)
  obtain ⟨map, hmap, hshows⟩ := h.exists_map hroot
  have hleaf := hshows.leaf page hpages
  have hblock : (paging.walkTo s.machine.mem pml4 page).block format = hugeLeaf page :=
    hshows.block page hpages
  have hfind : a.find space (page * 4096) = map page := by
    rw [PageMaps.find, hmap, Option.bind_some, hcancel]
  rw [effectivePermissions, abstractPermissions, hcancel, hfind] at hgranted
  rw [translationOf, abstractTranslation, hgranted, hfind]
  generalize paging.walkTo s.machine.mem pml4 page = w at hleaf hblock ⊢
  by_cases hcovered : identityMapped page = true
  · rw [hugeLeaf, if_pos hcovered] at hblock
    unfold Walk.block at hblock
    split_ifs at hblock with hcase
    rw [if_pos hcovered, if_pos hcovered, Option.map_some, Option.some.inj hblock]
    simp [hcase.1]
  · rw [if_neg hcovered, if_neg hcovered]
    cases hmapping : map page with
    | none => rfl
    | some mapping =>
      rw [hmapping] at hleaf
      obtain ⟨hlevel, hentry⟩ := entry_of_leafShows hleaf
      rw [Option.map_some, Option.map_some, Option.map_some, hlevel, hentry,
        pageEntry_and_addrMask_eq]
      rfl

end Represented

/-! ### The invariant -/

/-- What is kept by the steps that callers take: the tables are well formed, their links admit
their pages, they represent page maps, and the active space exists. -/
structure Sane (reserved : Finset ℕ) (c : Cpu) (a : PageMaps) : Prop where
  wellFormed : WellFormed paging reserved c.spaces
  respect : AllRespect paging LinksAdmit c.spaces
  represents : Represents paging AsksPresent hugeLeaf c.spaces a
  live : c.spaces.root c.active ≠ none
  pages : ∀ entry ∈ c.tlb, entry.page < 2 ^ 36

variable {reserved : Finset ℕ} {c c' : Cpu} {a : PageMaps}

theorem Boot.sane (boot : Boot) : Sane boot.reserved boot.cpu PageMaps.boot where
  wellFormed := boot.wellFormed
  respect := boot.allRespect_linksAdmit
  represents := boot.represents AsksPresent
  live := Option.some_ne_none _
  pages := fun _ hentry ↦ absurd hentry List.not_mem_nil

/-- The active tables say what the abstract map of the active space says. -/
theorem Sane.tables_eq (h : Sane reserved c a) {page : ℕ} (hpage : page < 2 ^ 36) :
    c.tables page = abstractTranslation a c.active page := by
  obtain ⟨pml4, hroot⟩ := Option.ne_none_iff_exists'.mp h.live
  rw [Cpu.tables, hroot, Option.bind_some, translationOf_eq h.represents h.respect hroot hpage]

theorem mem_of_mem_flushed {call : VmmCall} {entry : TlbEntry} (h : entry ∈ c.flushed call) :
    entry ∈ c.tlb := by
  cases call with
  | unmap space virt =>
    rw [Cpu.flushed] at h
    split at h
    · rw [vmmUnmapFlush_eq] at h
      dsimp only at h
      split_ifs at h
      · exact (mem_invlpg.mp h).1
      · exact h
    · exact h
  | map space virt phys flags => exact h
  | create => exact h
  | destroy space => exact h
  | others call => exact h
  | write mem => exact h

/-- A step of the manager keeps the invariant, and the abstract maps take the same step. -/
theorem Sane.call (h : Sane reserved c a) {call : VmmCall} (hallowed : Allowed c (.call call)) :
    Sane reserved { c with spaces := call.run backend c.spaces, tlb := c.flushed call }
      (a.step identityMapped (paging.canonical call)) := by
  obtain ⟨hproper, hframes, hactive, hmaps⟩ := hallowed
  have hnever := h.wellFormed.served hproper hframes
  have hrun := represents_run_canonical (fun _ h ↦ h) isPresent_hugeLeaf h.wellFormed h.represents
    hmaps hproper hnever
  rw [coveredBy_hugeLeaf] at hrun
  refine ⟨wellFormed_run h.wellFormed hproper hnever,
    allRespect_run keptByCalls_linksAdmit h.wellFormed h.respect hproper hnever, hrun, ?_,
    fun entry hentry ↦ h.pages entry (mem_of_mem_flushed hentry)⟩
  by_cases hsubject : call.subject = some c.active
  · rcases VmmCall.subject_cases hsubject with ⟨virt, phys, flags, rfl⟩ | ⟨virt, rfl⟩ | hdestroy
    · change (VmmCall.run _ _ (.map _ _ _ _)).root _ ≠ none
      rw [VmmCall.run, Spaces.root_onRoot]
      exact h.live
    · change (VmmCall.run _ _ (.unmap _ _)).root _ ≠ none
      rw [VmmCall.run, Spaces.root_onRoot]
      exact h.live
    · exact absurd hdestroy hactive
  · change (call.run backend c.spaces).root c.active ≠ none
    rw [(untouched_run h.wellFormed hproper hnever h.live hsubject).1]
    exact h.live

/-! ### The walk of `vmm_map` -/

/-- Links that are widened or made new admit the leaves behind them. -/
theorem keptByEdit_id (flags : ℕ) : KeptByEdit (links flags) id LinksAdmit where
  touch := (keptByCalls_linksAdmit.map 0 flags).touch
  fresh := (keptByCalls_linksAdmit.map 0 flags).fresh
  edit_touch := (keptByCalls_linksAdmit.map 0 flags).touch
  edit_fresh := (keptByCalls_linksAdmit.map 0 flags).fresh

section Walk

variable {space : Handle} {pml4 virt phys flags : ℕ}

theorem Cpu.walk_eq (c : Cpu) (hroot : c.spaces.root space = some pml4) :
    c.walk space virt phys flags =
      { c with spaces := { c.spaces with machine := (vmmMapWalk c.spaces.machine pml4 virt flags).1 }
               pending := (vmmMapWalk c.spaces.machine pml4 virt flags).2.map fun slot ↦
                 (slot, pageEntry phys flags) } := by
  rw [Cpu.walk, hroot]

/-- Either the walk stops at a huge page, and `vmm_map` is over, or the store completes it. -/
theorem Cpu.walk_cases (virt phys flags : ℕ) (hroot : c.spaces.root space = some pml4)
    (hpending : c.pending = none) :
    c.walk space virt phys flags =
        { c with spaces := (VmmCall.map space virt phys flags).run backend c.spaces } ∨
      (c.walk space virt phys flags).pending ≠ none ∧
        (c.walk space virt phys flags).step .store =
          some { c with spaces := (VmmCall.map space virt phys flags).run backend c.spaces } := by
  have hrun : (VmmCall.map space virt phys flags).run backend c.spaces =
      { c.spaces with machine := vmmMap c.spaces.machine pml4 virt phys flags } :=
    Spaces.onRoot_eq hroot fun m root ↦ vmmMap m root virt phys flags
  rw [c.walk_eq hroot, hrun, vmmMap_eq_walk]
  cases (vmmMapWalk c.spaces.machine pml4 virt flags).2 with
  | none =>
    left
    rw [Option.map_none, hpending]
  | some slot =>
    right
    refine ⟨Option.some_ne_none _, ?_⟩
    rw [Cpu.step, Option.map_some, Option.map_some, hpending]

/-- The walk keeps what the tables say of every page. -/
theorem Sane.walked (h : Sane reserved c a)
    (hallowed : Allowed c (.call (.map space virt phys flags))) :
    Sane reserved (c.walk space virt phys flags) a := by
  obtain ⟨hproper, hframes, -⟩ := hallowed
  obtain ⟨pml4, hroot⟩ := Option.ne_none_iff_exists'.mp hproper
  have hnever := h.wellFormed.served hproper hframes
  rw [VmmCall.run, Spaces.onRoot_eq hroot] at hnever
  have hdescends := descends_map paging c.spaces.machine pml4 virt phys flags
  have hframes : (backend.map c.spaces.machine pml4 virt phys flags).frames =
      (vmmMapWalk c.spaces.machine pml4 virt flags).1.frames := by
    change (vmmMap c.spaces.machine pml4 virt phys flags).frames = _
    rw [vmmMap_eq_walk]
    split <;> rfl
  have hserving := hdescends.serving h.wellFormed.serving hnever
  have htotal := hdescends.totalFrames_eq
  have hspec := editPath_spec source (links flags) id 3 (isPath_indexPath 3 (virt / 4096))
    (h.wellFormed.owned space pml4 hroot)
  rw [hframes] at hserving htotal
  rw [← vmmMapWalk_eq] at hspec
  obtain ⟨added, hgrown, hedited⟩ := hspec hserving
  have huntouched : ∀ other, other ≠ space → Untouched paging other c.spaces
      { c.spaces with machine := (vmmMapWalk c.spaces.machine pml4 virt flags).1 } :=
    fun other hne ↦ h.wellFormed.untouched_grown hroot hgrown hne
  rw [c.walk_eq hroot]
  refine ⟨h.wellFormed.grown hroot hgrown hserving htotal, fun other root hother ↦ ?_,
    ⟨h.represents.next_eq, fun other ↦ ?_⟩, h.live, h.pages⟩
  · have hbefore := h.respect other root hother
    by_cases hne : other = space
    · obtain rfl : root = pml4 := Option.some.inj ((hne ▸ hother).symm.trans hroot)
      exact hedited.respects LinksAdmit (keptByEdit_id flags) hbefore
    · exact Respects.of_untouched (huntouched other hne) hother hbefore
  · by_cases hne : other = space
    · obtain ⟨map, hmap, hshows⟩ := h.represents.exists_map hroot
      rw [hne, hmap]
      change Option.Rel _ (c.spaces.root space) _
      rw [hroot]
      refine Option.Rel.some ⟨fun page hpage ↦ ?_, fun page hpage ↦ ?_⟩
      · have hleaf := hedited.leaf_eq (indexPath 3 page) (isPath_indexPath 3 page)
        rw [id, ite_self] at hleaf
        exact hleaf ▸ hshows.leaf page hpage
      · exact (hedited.block_eq _ (isPath_indexPath 3 page)).trans (hshows.block page hpage)
    · exact rel_of_untouched (huntouched other hne) (h.represents.shows other)

theorem Cpu.active_walk (c : Cpu) : (c.walk space virt phys flags).active = c.active := by
  unfold Cpu.walk
  split <;> rfl

theorem Cpu.tlb_walk (c : Cpu) : (c.walk space virt phys flags).tlb = c.tlb := by
  unfold Cpu.walk
  split <;> rfl

theorem Cpu.walk_tlb (c : Cpu) (tlb : List TlbEntry) :
    { c.walk space virt phys flags with tlb := tlb } =
      { c with tlb := tlb }.walk space virt phys flags := by
  unfold Cpu.walk
  dsimp only
  split <;> rfl

/-- Until the store, no page has another translation. -/
theorem Sane.tables_walk (h : Sane reserved c a)
    (hallowed : Allowed c (.call (.map space virt phys flags))) {page : ℕ} (hpage : page < 2 ^ 36) :
    (c.walk space virt phys flags).tables page = c.tables page := by
  rw [(h.walked hallowed).tables_eq hpage, h.tables_eq hpage, c.active_walk]

theorem Sane.coherent_walk (h : Sane reserved c a) (hcoherent : Coherent c)
    (hallowed : Allowed c (.call (.map space virt phys flags))) :
    Coherent (c.walk space virt phys flags) := by
  intro entry hentry
  rw [c.tlb_walk] at hentry
  rw [h.tables_walk hallowed (h.pages entry hentry)]
  exact hcoherent entry hentry

end Walk

/-! ### One step -/

/-- A step that is about another space leaves the active tables alone. -/
theorem Sane.tables_call_of_ne (h : Sane reserved c a) {call : VmmCall}
    (hallowed : Allowed c (.call call)) (hsubject : call.subject ≠ some c.active)
    (tlb : List TlbEntry) (page : ℕ) :
    Cpu.tables { c with spaces := call.run backend c.spaces, tlb := tlb } page = c.tables page := by
  obtain ⟨hproper, hframes, -⟩ := hallowed
  have huntouched := untouched_run h.wellFormed hproper (h.wellFormed.served hproper hframes)
    h.live hsubject
  obtain ⟨pml4, hroot⟩ := Option.ne_none_iff_exists'.mp h.live
  simp only [Cpu.tables, huntouched.1, hroot, Option.bind_some]
  rw [Paging.walkTo_congr huntouched hroot]

/-- Mapping a page off the identity map changes its translation, and no other. -/
theorem abstractTranslation_map {space : Handle} (hlive : a.maps space ≠ none)
    (virt phys flags page : ℕ) :
    abstractTranslation (a.step identityMapped (.map space virt phys flags)) space page =
      if page = virt / 4096 ∧ identityMapped page = false then some (pageTranslation phys flags)
      else abstractTranslation a space page := by
  have hcancel : page * 4096 / 4096 = page := Nat.mul_div_cancel page (by norm_num)
  unfold abstractTranslation
  by_cases hcovered : identityMapped page = true
  · simp only [hcovered, if_true, Bool.true_eq_false, and_false, if_false]
  · rw [Bool.not_eq_true] at hcovered
    simp only [hcovered, Bool.false_eq_true, if_false, and_true]
    split_ifs with hpage
    · have hsame : PageMaps.find (a.step identityMapped (.map space virt phys flags)) space
          (page * 4096) = some ⟨phys, flags⟩ := by
        rw [PageMaps.find, hcancel, hpage]
        exact a.find_step_map_self phys flags hlive (hpage ▸ hcovered)
      rw [hsame, Option.map_some]
    · rw [a.find_step_map identityMapped phys flags (Or.inr (by rwa [hcancel]))]

/-- A coherent cache marks as huge what lies on the identity map. -/
theorem Sane.huge_eq (h : Sane reserved c a) (hcoherent : Coherent c) {entry : TlbEntry}
    (hentry : entry ∈ c.tlb) : entry.translation.huge = identityMapped entry.page := by
  have htables := hcoherent entry hentry
  rw [h.tables_eq (h.pages entry hentry), abstractTranslation] at htables
  split_ifs at htables with hcovered
  · rw [← Option.some.inj htables, hcovered]
  · obtain ⟨mapping, -, hmapping⟩ := Option.map_eq_some_iff.mp htables
    rw [← hmapping, Bool.eq_false_of_not_eq_true hcovered]
    rfl

/-- The tables after a page of the active space has been mapped. -/
theorem Sane.tables_map (h : Sane reserved c a) {virt phys flags : ℕ}
    (hallowed : Allowed c (.call (.map c.active virt phys flags))) {page : ℕ} (hpage : page < 2 ^ 36) :
    Cpu.tables { c with spaces := (VmmCall.map c.active virt phys flags).run backend c.spaces } page =
      if page = pageOf virt ∧ identityMapped page = false then some (pageTranslation phys flags)
      else c.tables page := by
  have hmaps : a.maps c.active ≠ none :=
    fun hnone ↦ h.live ((h.represents.root_eq_none_iff _).mpr hnone)
  refine ((h.call hallowed).tables_eq hpage).trans ?_
  rw [Paging.canonical, abstractTranslation_map hmaps, paging.page_canonical, pageOf_eq,
    ← h.tables_eq hpage]

/-- A page of the active space that has been mapped leaves the cache coherent exactly when every
translation of that page in the cache is the new one, or the page is under a huge page. -/
theorem coherent_mapped_iff (h : Sane reserved c a) (hcoherent : Coherent c) {virt phys flags : ℕ}
    (hallowed : Allowed c (.call (.map c.active virt phys flags))) :
    Coherent { c with spaces := (VmmCall.map c.active virt phys flags).run backend c.spaces } ↔
      ∀ entry ∈ c.tlb, entry.page = pageOf virt →
        entry.translation.huge = true ∨ entry.translation = pageTranslation phys flags := by
  have htables : ∀ entry ∈ c.tlb,
      Cpu.tables { c with spaces := (VmmCall.map c.active virt phys flags).run backend c.spaces }
        entry.page = if entry.page = pageOf virt ∧ entry.translation.huge = false then
          some (pageTranslation phys flags) else some entry.translation := by
    intro entry hentry
    rw [h.tables_map hallowed (h.pages entry hentry), ← h.huge_eq hcoherent hentry,
      hcoherent entry hentry]
  constructor
  · intro hnew entry hentry hpage
    have heq := (htables entry hentry).symm.trans (hnew entry hentry)
    cases hhuge : entry.translation.huge with
    | true => exact Or.inl rfl
    | false =>
      rw [if_pos ⟨hpage, hhuge⟩] at heq
      exact Or.inr (Option.some.inj heq).symm
  · intro hunstale entry hentry
    refine (htables entry hentry).trans ?_
    split_ifs with hcase
    · rcases hunstale entry hentry hcase.1 with hhuge | hnew
      · exact absurd (hcase.2.symm.trans hhuge) Bool.false_ne_true
      · rw [hnew]
    · rfl

/-- Unmapping a page of the active space keeps the cache coherent: the page is flushed, or there
was no table to change. -/
theorem coherent_unmap (h : Sane reserved c a) (hcoherent : Coherent c) {virt : ℕ}
    (hallowed : Allowed c (.call (.unmap c.active virt))) :
    Coherent { c with
      spaces := (VmmCall.unmap c.active virt).run backend c.spaces
      tlb := c.flushed (.unmap c.active virt) } := by
  obtain ⟨pml4, hroot⟩ := Option.ne_none_iff_exists'.mp h.live
  have hflushed : c.flushed (.unmap c.active virt) =
      if (leafSlot format c.spaces.machine.mem pml4 (path virt)).isSome then invlpg c.tlb virt
      else c.tlb := by
    rw [Cpu.flushed, hroot]
    exact congrArg Prod.snd (vmmUnmapFlush_eq _ _ _ _)
  intro entry hentry
  have hentry : entry ∈ c.flushed (.unmap c.active virt) := hentry
  have hpage := h.pages entry (mem_of_mem_flushed hentry)
  rw [← hcoherent entry (mem_of_mem_flushed hentry)]
  rw [hflushed] at hentry
  cases hslot : leafSlot format c.spaces.machine.mem pml4 (path virt) with
  | none =>
    have hunmap : backend.unmap c.spaces.machine pml4 virt = c.spaces.machine := by
      refine (vmmUnmap_eq c.spaces.machine pml4 virt).trans ?_
      rw [hslot]
    have hsame : (VmmCall.unmap c.active virt).run backend c.spaces = c.spaces := by
      rw [VmmCall.run, Spaces.onRoot_eq hroot, hunmap]
    simp only [Cpu.tables, hsame]
  | some slot =>
    rw [hslot, Option.isSome_some, if_pos rfl] at hentry
    have hne := (mem_invlpg.mp hentry).2
    rw [(h.call hallowed).tables_eq hpage, h.tables_eq hpage, Paging.canonical, abstractTranslation,
      abstractTranslation, a.find_step_unmap identityMapped]
    rwa [paging.page_canonical, pageOf_eq, Nat.mul_div_cancel _ (by norm_num)]

/-- What the manager does keeps the cache coherent when it is done. -/
theorem coherent_call (h : Sane reserved c a) (hcoherent : Coherent c) {call : VmmCall}
    (hallowed : Allowed c (.call call)) (hunstale : Unstale c (.call call)) :
    Coherent { c with spaces := call.run backend c.spaces, tlb := c.flushed call } := by
  by_cases hsubject : call.subject = some c.active
  · rcases VmmCall.subject_cases hsubject with ⟨virt, phys, flags, rfl⟩ | ⟨virt, rfl⟩ | hdestroy
    · refine (coherent_mapped_iff h hcoherent hallowed).mpr fun entry hentry hpage ↦ ?_
      exact hunstale rfl entry.translation (hpage ▸ hcoherent entry hentry)
    · exact coherent_unmap h hcoherent hallowed
    · exact absurd hdestroy hallowed.2.2.1
  · intro entry hentry
    have hbefore : entry ∈ c.tlb := mem_of_mem_flushed hentry
    exact (h.tables_call_of_ne hallowed hsubject _ _).trans (hcoherent entry hbefore)

/-- A fill keeps the cache coherent. -/
theorem Sane.fill (h : Sane reserved c a) (hcoherent : Coherent c) {virt : ℕ} {translation : Translation}
    (htables : c.tables (pageOf virt) = some translation) :
    Sane reserved { c with tlb := ⟨pageOf virt, translation⟩ :: c.tlb } a ∧
      Coherent { c with tlb := ⟨pageOf virt, translation⟩ :: c.tlb } :=
  ⟨⟨h.wellFormed, h.respect, h.represents, h.live,
    List.forall_mem_cons.mpr ⟨pageOf_lt virt, h.pages⟩⟩,
    List.forall_mem_cons.mpr ⟨htables, hcoherent⟩⟩

/-- The invariant between calls, and inside `vmm_map` what was kept when it was called. -/
inductive Kept (reserved : Finset ℕ) : Cpu → Prop
  | idle {c : Cpu} {a : PageMaps} (hpending : c.pending = none) (h : Sane reserved c a)
      (hcoherent : Coherent c) : Kept reserved c
  | mapping {c : Cpu} {a : PageMaps} {space : Handle} {virt phys flags : ℕ}
      (hpending : c.pending = none) (h : Sane reserved c a) (hcoherent : Coherent c)
      (hallowed : Allowed c (.call (.map space virt phys flags)))
      (hunstale : Unstale c (.call (.map space virt phys flags)))
      (hstore : (c.walk space virt phys flags).pending ≠ none) :
      Kept reserved (c.walk space virt phys flags)

theorem Kept.coherent (h : Kept reserved c) : Coherent c := by
  cases h with
  | idle _ _ hcoherent => exact hcoherent
  | mapping _ hsane hcoherent hallowed => exact hsane.coherent_walk hcoherent hallowed

/-- The step lemma. -/
theorem kept_step (h : Kept reserved c) {action : CpuAction}
    (hcondition : Allowed c action ∧ Unstale c action) (hstep : c.step action = some c') :
    Kept reserved c' := by
  cases h with
  | @idle c a hpending hsane hcoherent =>
    cases action with
    | fill virt =>
      obtain ⟨translation, htables, rfl⟩ := Option.map_eq_some_iff.mp hstep
      obtain ⟨hfilled, hcoherent⟩ := hsane.fill hcoherent htables
      exact .idle hpending hfilled hcoherent
    | switch space =>
      rw [Cpu.step] at hstep
      split_ifs at hstep with hlive
      rw [← Option.some.inj hstep]
      exact .idle hpending ⟨hsane.wellFormed, hsane.respect, hsane.represents,
        Option.isSome_iff_ne_none.mp hlive.2, fun entry hentry ↦ absurd hentry List.not_mem_nil⟩
        fun entry hentry ↦ absurd hentry List.not_mem_nil
    | call call =>
      obtain ⟨hallowed, hunstale⟩ := hcondition
      have hdone : Kept reserved
          { c with spaces := call.run backend c.spaces, tlb := c.flushed call } :=
        .idle hpending (hsane.call hallowed) (coherent_call hsane hcoherent hallowed hunstale)
      rw [Cpu.step, if_pos hpending] at hstep
      obtain rfl := Option.some.inj hstep
      cases call with
      | map space virt phys flags =>
        obtain ⟨pml4, hroot⟩ := Option.ne_none_iff_exists'.mp hallowed.1
        change Kept reserved (c.walk space virt phys flags)
        rcases c.walk_cases _ _ _ hroot hpending with hover | ⟨hstore, -⟩
        · rw [hover]
          exact hdone
        · exact .mapping hpending hsane hcoherent hallowed hunstale hstore
      | create => exact hdone
      | unmap space virt => exact hdone
      | destroy space => exact hdone
      | others call => exact hdone
      | write mem => exact hdone
    | store =>
      rw [Cpu.step, hpending] at hstep
      cases hstep
  | @mapping c a space virt phys flags hpending hsane hcoherent hallowed hunstale hstore =>
    cases action with
    | fill virt' =>
      obtain ⟨translation, htables, rfl⟩ := Option.map_eq_some_iff.mp hstep
      rw [hsane.tables_walk hallowed (pageOf_lt virt')] at htables
      obtain ⟨hfilled, hcoherent⟩ := hsane.fill hcoherent htables
      rw [c.tlb_walk, c.walk_tlb]
      refine .mapping hpending hfilled hcoherent hallowed hunstale ?_
      rwa [← c.walk_tlb]
    | switch space =>
      rw [Cpu.step, if_neg fun h ↦ hstore h.1] at hstep
      cases hstep
    | call call =>
      rw [Cpu.step, if_neg hstore] at hstep
      cases hstep
    | store =>
      obtain ⟨pml4, hroot⟩ := Option.ne_none_iff_exists'.mp hallowed.1
      rcases c.walk_cases _ _ _ hroot hpending with hover | ⟨-, hdone⟩
      · exact absurd (congrArg Cpu.pending hover) fun heq ↦ hstore (heq.trans hpending)
      · rw [hdone] at hstep
        exact Option.some.inj hstep ▸ .idle hpending (hsane.call hallowed)
          (coherent_call hsane hcoherent hallowed hunstale)

/-! ### Runs -/

/-- From boot on, the cache agrees with the active tables after every run of cache fills, switches
and steps of the manager, on the active space and on others, in which no page of the active space is
mapped that has another translation there. -/
theorem coherent_of_unstale (boot : Boot) (actions : List CpuAction) (c : Cpu)
    (hactions : AlongRun Cpu.step (fun c action ↦ Allowed c action ∧ Unstale c action) boot.cpu
      actions)
    (hrun : runFrom Cpu.step boot.cpu actions = some c) : Coherent c := by
  have hboot : Kept boot.reserved boot.cpu :=
    .idle rfl boot.sane fun entry hentry ↦ absurd hentry List.not_mem_nil
  exact (invariant_runFrom (fun h hcondition hstep ↦ kept_step h hcondition hstep) hboot hactions
    hrun).coherent

/-- The condition on `vmm_map` is exact: a call on the active space keeps the cache coherent, whatever
is cached on the way, if and only if it meets it. -/
theorem coherent_map_iff (h : Sane reserved c a) (hcoherent : Coherent c) (hpending : c.pending = none)
    {virt phys flags : ℕ} (hallowed : Allowed c (.call (.map c.active virt phys flags))) :
    (∀ actions c', (∀ action ∈ actions, action = .store ∨ ∃ virt, action = .fill virt) →
      runFrom Cpu.step c (.call (.map c.active virt phys flags) :: actions) = some c' → Coherent c') ↔
      Unstale c (.call (.map c.active virt phys flags)) := by
  have hcall : c.step (.call (.map c.active virt phys flags)) =
      some (c.walk c.active virt phys flags) := by
    rw [Cpu.step, if_pos hpending]
    rfl
  constructor
  · intro hall _ translation htables
    obtain ⟨pml4, hroot⟩ := Option.ne_none_iff_exists'.mp hallowed.1
    obtain ⟨hfilled, hcoherentFilled⟩ := h.fill hcoherent htables
    have hfill : (c.walk c.active virt phys flags).step (.fill virt) =
        some ({ c with tlb := ⟨pageOf virt, translation⟩ :: c.tlb }.walk c.active virt phys flags) := by
      rw [Cpu.step, h.tables_walk hallowed (pageOf_lt virt), htables, Option.map_some,
        c.tlb_walk, c.walk_tlb]
    have hmapped : Coherent { c with
        spaces := (VmmCall.map c.active virt phys flags).run backend c.spaces
        tlb := ⟨pageOf virt, translation⟩ :: c.tlb } := by
      rcases Cpu.walk_cases (c := { c with tlb := ⟨pageOf virt, translation⟩ :: c.tlb })
        virt phys flags hroot hpending with hover | ⟨-, hdone⟩
      · refine hall [.fill virt] _ (by simp) ?_
        rw [runFrom, hcall, Option.bind_some, runFrom, hfill, hover]
        rfl
      · refine hall [.fill virt, .store] _ (by simp) ?_
        rw [runFrom, hcall, Option.bind_some, runFrom, hfill, Option.bind_some, runFrom, hdone]
        rfl
    exact (coherent_mapped_iff hfilled hcoherentFilled hallowed).mp hmapped _ List.mem_cons_self rfl
  · intro hunstale actions c' hactions hrun
    have hidle : Kept reserved c := .idle hpending h hcoherent
    have hrest : ∀ next, AlongRun Cpu.step (fun c action ↦ Allowed c action ∧ Unstale c action) next
        actions := by
      clear hrun
      induction actions with
      | nil => exact fun _ ↦ trivial
      | cons action actions ih =>
        obtain ⟨hfirst, hactions⟩ := List.forall_mem_cons.mp hactions
        refine fun next ↦ ⟨?_, fun after _ ↦ ih hactions after⟩
        rcases hfirst with rfl | ⟨virt, rfl⟩ <;> exact ⟨trivial, trivial⟩
    have halong : AlongRun Cpu.step (fun c action ↦ Allowed c action ∧ Unstale c action) c
        (.call (.map c.active virt phys flags) :: actions) :=
      ⟨⟨hallowed, hunstale⟩, fun next _ ↦ hrest next⟩
    exact (invariant_runFrom (fun h hcondition hstep ↦ kept_step h hcondition hstep) hidle halong
      hrun).coherent

/-- A mapped page has its tables, and can be mapped again without a frame. -/
theorem Sane.hasFrames_of_find (h : Sane reserved c a) {space : Handle} {virt : ℕ}
    {mapping : Mapping} (hvirt : virt < 2 ^ 48) (hfind : a.find space virt = some mapping)
    (phys flags : ℕ) : (VmmCall.map space virt phys flags).HasFrames paging c.spaces := by
  intro root hroot _
  obtain ⟨map, hmap, hshows⟩ := h.represents.exists_map hroot
  have hleaf := hshows.leaf (virt / 4096) (page_lt hvirt)
  rw [PageMaps.find, hmap] at hfind
  change map (virt / 4096) = some mapping at hfind
  rw [hfind] at hleaf
  have hlevel : (walk paging.format c.spaces.machine.mem root
      (indexPath paging.depth (virt / 4096))).level = 0 := (entry_of_leafShows hleaf).1
  rw [hlevel]
  exact Nat.zero_le _

/-- Off the identity map, a call of `vmm_map` that changes the tables ends with its store. -/
theorem Sane.runFrom_map (h : Sane reserved c a) (hpending : c.pending = none) {virt phys flags : ℕ}
    (hallowed : Allowed c (.call (.map c.active virt phys flags)))
    (hidentity : identityMapped (pageOf virt) = false)
    (hnew : some (pageTranslation phys flags) ≠ c.tables (pageOf virt)) :
    runFrom Cpu.step c [.call (.map c.active virt phys flags), .store] =
      some { c with spaces := (VmmCall.map c.active virt phys flags).run backend c.spaces } := by
  obtain ⟨pml4, hroot⟩ := Option.ne_none_iff_exists'.mp hallowed.1
  have hcall : c.step (.call (.map c.active virt phys flags)) =
      some (c.walk c.active virt phys flags) := by
    rw [Cpu.step, if_pos hpending]
    rfl
  rcases c.walk_cases virt phys flags hroot hpending with
    hover | ⟨-, hdone⟩
  · have hmapped := h.tables_map hallowed (pageOf_lt virt)
    rw [← hover, if_pos ⟨rfl, hidentity⟩, h.tables_walk hallowed (pageOf_lt virt)] at hmapped
    exact absurd hmapped.symm hnew
  · rw [runFrom, hcall, Option.bind_some, runFrom, hdone]
    rfl

/-! ### A remapped page -/

namespace Boot

/-- A page of the kernel space is mapped, and used. -/
def touchPage : List CpuAction :=
  [.call (.map .kernel 0x80000000 0x110000 3), .store] ++ [.fill 0x80000123]

/-- The page is mapped to another frame. -/
def remapPage : List CpuAction := [.call (.map .kernel 0x80000000 0x111000 3), .store]

/-- The sample after the page has been used. -/
def touched : Cpu where
  spaces := (VmmCall.map .kernel 0x80000000 0x110000 3).run backend sample.spaces
  active := .kernel
  tlb := [⟨0x80000, pageTranslation 0x110000 3⟩]
  pending := none

theorem sample_allowed_map :
    Allowed sample.cpu (.call (.map .kernel 0x80000000 0x110000 3)) := by
  refine ⟨Option.some_ne_none _, fun root hroot _ ↦ ?_, VmmCall.noConfusion, trivial, ?_⟩
  · refine (level_walk_le _ (isPath_indexPath _ _)).trans ?_
    exact (Nat.le_add_left _ _).trans sample_free
  · change hasFlags 3 vmmPresent = true
    decide

theorem sane_touched :
    Sane sample.reserved touched
      (PageMaps.boot.step identityMapped (.map .kernel 0x80000000 0x110000 3)) := by
  have hcanonical : paging.canonical (.map .kernel 0x80000000 0x110000 3) =
      .map .kernel 0x80000000 0x110000 3 := by
    rw [Paging.canonical, pages_eq, Nat.mod_eq_of_lt (by omega)]
  have hmapped := sample.sane.call sample_allowed_map
  rw [hcanonical] at hmapped
  exact ⟨hmapped.wellFormed, hmapped.respect, hmapped.represents, hmapped.live,
    List.forall_mem_singleton.mpr (show 0x80000 < 2 ^ 36 by omega)⟩

theorem tables_touched : touched.tables 0x80000 = some (pageTranslation 0x110000 3) := by
  rw [sane_touched.tables_eq (by omega)]
  decide

/-- The page is not mapped at boot. -/
theorem sample_tables : sample.cpu.tables 0x80000 = none := by
  rw [sample.sane.tables_eq (by omega)]
  decide

/-- The page is mapped, and then cached. -/
theorem runFrom_touchPage : runFrom Cpu.step sample.cpu touchPage = some touched := by
  have hpage : pageOf 0x80000000 = 0x80000 := by decide
  have hmap : runFrom Cpu.step sample.cpu [.call (.map .kernel 0x80000000 0x110000 3), .store] =
      some { touched with tlb := [] } :=
    sample.sane.runFrom_map rfl sample_allowed_map (by rw [hpage]; decide)
      (by rw [hpage]; exact fun h ↦ Option.some_ne_none _ (h.trans sample_tables))
  have hfill : Cpu.step { touched with tlb := [] } (.fill 0x80000123) = some touched := by
    have htables : Cpu.tables { touched with tlb := [] } (pageOf 0x80000123) =
        some (pageTranslation 0x110000 3) := tables_touched
    rw [Cpu.step, htables]
    rfl
  rw [touchPage, runFrom_append hmap, runFrom, hfill]
  rfl

theorem coherent_touched : Coherent touched :=
  List.forall_mem_singleton.mpr tables_touched

theorem allowed_remapPage : Allowed touched (.call (.map .kernel 0x80000000 0x111000 3)) := by
  refine ⟨Option.some_ne_none _, ?_, VmmCall.noConfusion, trivial, ?_⟩
  · exact sane_touched.hasFrames_of_find (by omega)
      (PageMaps.find_step_map_self PageMaps.boot 0x110000 3 (Option.some_ne_none _) rfl) 0x111000 3
  · change hasFlags 3 vmmPresent = true
    decide

/-- The state after the page has been mapped to the other frame. -/
def remapped : Cpu :=
  { touched with spaces := (VmmCall.map .kernel 0x80000000 0x111000 3).run backend touched.spaces }

theorem runFrom_remapPage : runFrom Cpu.step touched remapPage = some remapped := by
  have hpage : pageOf 0x80000000 = 0x80000 := by decide
  refine sane_touched.runFrom_map rfl allowed_remapPage (by rw [hpage]; decide) ?_
  rw [hpage, tables_touched]
  decide

/-- The cache still has the first frame. -/
theorem not_coherent_remapped : ¬ Coherent remapped := by
  intro hcoherent
  have hmapped := (coherent_mapped_iff sane_touched coherent_touched allowed_remapPage).mp hcoherent
  rcases hmapped _ List.mem_cons_self rfl with hhuge | hnew
  · exact absurd hhuge Bool.false_ne_true
  · exact absurd hnew (by decide)

theorem alongRun_touchPage {condition : Cpu → CpuAction → Prop}
    (hmap : condition sample.cpu (.call (.map .kernel 0x80000000 0x110000 3)))
    (hstore : ∀ c, condition c .store) (hfill : ∀ c virt, condition c (.fill virt)) :
    AlongRun Cpu.step condition sample.cpu touchPage :=
  ⟨hmap, fun c _ ↦ ⟨hstore c, fun c' _ ↦ ⟨hfill c' _, fun _ _ ↦ trivial⟩⟩⟩

/-- The page that has been used is cached, as the tables say. -/
theorem coherent_of_unstale_touchPage :
    ∃ c, runFrom Cpu.step sample.cpu touchPage = some c ∧
      c.tlb = [⟨0x80000, ⟨0x110000, false, ⟨false, true⟩⟩⟩] ∧ Coherent c := by
  refine ⟨touched, runFrom_touchPage, by decide, coherent_of_unstale sample touchPage touched ?_
    runFrom_touchPage⟩
  have hpage : pageOf 0x80000000 = 0x80000 := by decide
  refine alongRun_touchPage ⟨sample_allowed_map, fun _ translation htranslation ↦ ?_⟩
    (fun _ ↦ ⟨trivial, trivial⟩) fun _ _ ↦ ⟨trivial, trivial⟩
  rw [hpage, sample_tables] at htranslation
  cases htranslation

/-- When the page is then mapped to another frame, the cache keeps the old one. -/
theorem not_coherent_remapPage :
    ∃ c, AlongRun Cpu.step Allowed sample.cpu (touchPage ++ remapPage) ∧
      runFrom Cpu.step sample.cpu (touchPage ++ remapPage) = some c ∧ ¬ Coherent c := by
  refine ⟨remapped, ?_, (runFrom_append runFrom_touchPage).trans runFrom_remapPage,
    not_coherent_remapped⟩
  refine (alongRun_touchPage sample_allowed_map (fun _ ↦ trivial) fun _ _ ↦ trivial).append
    runFrom_touchPage ?_
  exact ⟨allowed_remapPage, fun _ _ ↦ ⟨trivial, fun _ _ ↦ trivial⟩⟩

end Boot

end MegKer.Vmm.X86
