import MegKer.Vmm.PageMapRefinement

/-!
# Effective permissions

What the processor allows on a page is decided by all entries of the walk: the page is open to user
mode when every one of them has the USER bit, and writable when every one has the WRITABLE bit. The
manager sets the bits of the upper levels as it goes, and a link once widened for a user page stays
so for all pages behind it; the permissions of a page are nevertheless those it was mapped with,
because of the entry of the last level.

The invariant is a relation between the leaf of every walk and the links on the way
(`LinksAdmit`): links are writable, and those to a user page have the USER bit. `allRespect_runs`
carries such a relation through the runs of a backend.
-/

set_option autoImplicit false
set_option relaxedAutoImplicit false

namespace MegKer.Vmm

open Foundation Memory

/-! ### Relations between leaves and links -/

section Respect

variable {backend : Backend} (paging : Paging backend) (relation : ℕ → ℕ → Prop)

/-- The calls of the manager keep a relation between leaves and links. -/
structure KeptByCalls : Prop where
  create : KeptByClone paging.format relation
  map : ∀ phys flags, KeptByEdit (paging.links flags) (paging.edit phys flags) relation
  unmap : KeptByEdit (paging.links 0).still (fun _ ↦ 0) relation

/-- The relation holds in all spaces. -/
def AllRespect (s : Spaces) : Prop :=
  ∀ space root, s.root space = some root →
    Respects paging.format relation s.machine.mem paging.depth root

variable {paging relation} {reserved : Finset ℕ} {s : Spaces}

/-- A space that is left alone goes on to respect the relation. -/
theorem Respects.of_untouched {before after : Spaces} {space : Handle} {root : ℕ}
    (h : Untouched paging space before after) (hroot : before.root space = some root)
    (hrespects : Respects paging.format relation before.machine.mem paging.depth root) :
    Respects paging.format relation after.machine.mem paging.depth root := by
  intro path hpath link hlink
  rw [h.walk_eq hroot hpath] at hlink ⊢
  exact hrespects path hpath link hlink

/-- One step keeps the relation. -/
theorem allRespect_run (hkept : KeptByCalls paging relation) (hwell : WellFormed paging reserved s)
    (h : AllRespect paging relation s) {call : VmmCall} (hproper : call.Proper paging s)
    (hnever : NeverExhausted (call.run backend s).machine.frames) :
    AllRespect paging relation (call.run backend s) := by
  intro space root hroot
  obtain hbefore | ⟨rfl, rfl, rfl⟩ := root_run_cases hroot
  · have hspace := h space root hbefore
    rcases survivor_cases hwell hproper hnever hbefore hroot with
      ⟨virt, phys, flags, rfl⟩ | ⟨virt, rfl⟩ | huntouched
    · rw [VmmCall.run, Spaces.onRoot_eq hbefore] at hnever ⊢
      exact (hwell.map_spec hbefore hnever).2.respects relation (hkept.map phys flags) hspace
    · rw [VmmCall.run, Spaces.onRoot_eq hbefore]
      exact (hwell.unmap_spec hbefore virt).2.respects relation hkept.unmap hspace
    · exact Respects.of_untouched huntouched hbefore hspace
  · exact (hwell.create_spec hnever).respects hkept.create (h .kernel s.kernelRoot rfl)

/-- Every permitted run keeps the relation. -/
theorem allRespect_runs {ok : VmmCall → Prop} (hkept : KeptByCalls paging relation)
    (calls : List VmmCall) :
    ∀ {s : Spaces}, WellFormed paging reserved s → AllRespect paging relation s →
      Permitted paging ok s calls → NeverExhausted (runs backend s calls).machine.frames →
        AllRespect paging relation (runs backend s calls) :=
  invariant_runs (fun hwell h hproper hnever ↦ allRespect_run hkept hwell h hproper hnever) calls

end Respect

/-! ### The relation on x86_64 -/

namespace X86

/-- Links are writable, and those to a page that is open to user mode have the USER bit. -/
structure LinksAdmit (leaf link : ℕ) : Prop where
  writable : link.testBit 1 = true
  user : leaf.testBit 0 = true → leaf.testBit 2 = true → link.testBit 2 = true

theorem linksAdmit_zero {link : ℕ} (hwritable : link.testBit 1 = true) : LinksAdmit 0 link :=
  ⟨hwritable, fun hpresent ↦ absurd hpresent (by simp)⟩

/-- Widening a link sets its USER bit for a user mapping, and changes nothing else. -/
theorem testBit_touch (flags link i : ℕ) :
    ((links flags).touch link).testBit i =
      (link.testBit i || (decide (i = 2) && flags.testBit 2)) := by
  change (if hasFlags flags vmmUser then link ||| vmmUser else link).testBit i = _
  rw [hasFlags_vmmUser]
  split_ifs with huser
  · rw [Nat.testBit_or, testBit_vmmUser, huser, Bool.and_true]
  · rw [Bool.not_eq_true] at huser
    rw [huser, Bool.and_false, Bool.or_false]

/-- The flags of a new link. -/
theorem testBit_fresh (flags : ℕ) {frame i : ℕ} (hframe : IsFrame format.limit frame)
    (hi : i < 12) : ((links flags).fresh frame).testBit i = (linkFlags flags).testBit i := by
  have hfresh : (links flags).fresh frame = frame ||| linkFlags flags := by
    change frame ||| vmmPresent ||| vmmWritable ||| (flags &&& vmmUser) = _
    rw [Nat.or_assoc, Nat.or_assoc, ← Nat.or_assoc vmmPresent]
    rfl
  rw [hfresh]
  exact testBit_or_of_aligned (show 2 ^ 12 ∣ frame from hframe.aligned) _ hi

theorem testBit_fresh_one (flags : ℕ) {frame : ℕ} (hframe : IsFrame format.limit frame) :
    ((links flags).fresh frame).testBit 1 = true := by
  rw [testBit_fresh flags hframe (by omega), testBit_linkFlags]
  simp

/-- The calls of the x86_64 manager keep the relation. -/
theorem keptByCalls_linksAdmit : KeptByCalls paging LinksAdmit where
  create := fun leaf link frame _ h ↦ by
    have hbit : ∀ i < 12, (format.relink link frame).testBit i = link.testBit i :=
      fun i hi ↦ testBit_copiedLink link frame hi
    change LinksAdmit _ (format.relink link frame)
    refine ⟨(hbit 1 (by omega)).trans h.writable, fun hpresent huser ↦ ?_⟩
    rw [hbit 2 (by omega)]
    split_ifs at hpresent huser
    · exact h.user hpresent huser
    · exact absurd hpresent (by simp)
  map := fun phys flags ↦ by
    have hentry : ∀ i < 3, ((paging.edit phys flags) 0).testBit i = flags.testBit i :=
      fun i hi ↦ testBit_pageEntry phys flags hi
    refine ⟨fun leaf link h ↦ ⟨?_, fun hpresent huser ↦ ?_⟩, fun frame hframe ↦ ?_,
      fun leaf link h ↦ ⟨?_, fun hpresent huser ↦ ?_⟩, fun frame hframe ↦
        ⟨testBit_fresh_one flags hframe, fun hpresent huser ↦ ?_⟩⟩
    · exact (testBit_touch flags link 1).trans (by simp [h.writable])
    · exact (testBit_touch flags link 2).trans (by simp [h.user hpresent huser])
    · exact linksAdmit_zero (testBit_fresh_one flags hframe)
    · exact (testBit_touch flags link 1).trans (by simp [h.writable])
    · have hflags : flags.testBit 2 = true := (hentry 2 (by omega)).symm.trans huser
      exact (testBit_touch flags link 2).trans (by simp [hflags])
    · have hflags : flags.testBit 2 = true := (hentry 2 (by omega)).symm.trans huser
      exact (testBit_fresh flags hframe (by omega)).trans (by simp [testBit_linkFlags, hflags])
  unmap :=
    { touch := fun _ _ h ↦ h
      fresh := fun _ hframe ↦ linksAdmit_zero (testBit_fresh_one 0 hframe)
      edit_touch := fun _ _ h ↦ linksAdmit_zero h.writable
      edit_fresh := fun _ hframe ↦ linksAdmit_zero (testBit_fresh_one 0 hframe) }

/-- The boot tables have writable links and no leaves. -/
theorem Boot.allRespect_linksAdmit (boot : Boot) : AllRespect paging LinksAdmit boot.spaces := by
  have hlink : ∀ frame, IsFrame format.limit frame → LinksAdmit 0 (frame ||| 0b11) := by
    intro frame hframe
    refine linksAdmit_zero ?_
    rw [testBit_or_of_aligned (show 2 ^ 12 ∣ frame from hframe.aligned) _ (by omega)]
    decide
  intro space root hroot
  cases space with
  | user n => exact absurd hroot (by simp [Boot.spaces, bootSpaces, Spaces.root])
  | kernel =>
    rw [← Option.some.inj hroot, boot.kernelRoot_spaces, boot.mem_spaces]
    intro path (hpath : IsPath 3 path) link hmem
    obtain ⟨i, _, rfl, -, hrest⟩ := hpath.exists_cons
    obtain ⟨j, _, rfl, -, hrest⟩ := hrest.exists_cons
    obtain ⟨k, _, rfl, -, hrest⟩ := hrest.exists_cons
    obtain ⟨l, rfl, -⟩ := hrest.exists_singleton
    change link ∈ (walk format boot.memory boot.pml4Table [i, j, k, l]).links at hmem
    change LinksAdmit (walk format boot.memory boot.pml4Table [i, j, k, l]).leaf link
    rw [boot.walk_memory hpath] at hmem ⊢
    split_ifs at hmem ⊢
    · rcases List.mem_pair.mp hmem with rfl | rfl
      · exact hlink _ boot.isFrame_pdp
      · exact hlink _ boot.isFrame_pd
    · rw [List.mem_singleton.mp hmem]
      exact hlink _ boot.isFrame_pdp
    · exact absurd hmem List.not_mem_nil

/-! ### The permissions of a page -/

/-- What the processor allows on a page. -/
structure Permissions where
  user : Bool
  writable : Bool
  deriving DecidableEq, Repr

/-- The permissions that the flags of a mapping ask for. -/
def requested (flags : ℕ) : Permissions where
  user := hasFlags flags vmmUser
  writable := hasFlags flags vmmWritable

/-- The permissions at the end of a walk: each one is the conjunction of its bit over all entries
met, down to the page or the huge page. Without a present entry at the end there is no access. -/
def permissions (w : Walk) : Option Permissions :=
  if hasFlags w.entry vmmPresent then
    some
      { user := (w.links ++ [w.entry]).all (hasFlags · vmmUser)
        writable := (w.links ++ [w.entry]).all (hasFlags · vmmWritable) }
  else none

/-- The permissions of the page of a virtual address. -/
def effectivePermissions (m : Machine) (pml4 virt : ℕ) : Option Permissions :=
  permissions (paging.walkTo m.mem pml4 (virt / 4096))

/-- The permissions of a walk whose links are all writable, and all open to user mode when the
entry at the end is: they are those of the entry. -/
theorem permissions_of_links {w : Walk} (hpresent : w.entry.testBit 0 = true)
    (hwritable : ∀ link ∈ w.links, link.testBit 1 = true)
    (huser : w.entry.testBit 2 = true → ∀ link ∈ w.links, link.testBit 2 = true) :
    permissions w = some ⟨w.entry.testBit 2, w.entry.testBit 1⟩ := by
  have hlinks : w.links.all (fun link ↦ link.testBit 1) = true := List.all_eq_true.mpr hwritable
  have hopen : (w.links.all (fun link ↦ link.testBit 2) && w.entry.testBit 2) =
      w.entry.testBit 2 := by
    cases hentry : w.entry.testBit 2 with
    | false => exact Bool.and_false _
    | true =>
      rw [Bool.and_true]
      exact List.all_eq_true.mpr (huser hentry)
  rw [permissions, hasFlags_vmmPresent, if_pos hpresent]
  simp only [List.all_append, List.all_cons, List.all_nil, Bool.and_true, hasFlags_vmmUser,
    hasFlags_vmmWritable, hlinks, Bool.true_and, hopen]

/-- A walk that ends without a page and off the huge pages ends at an entry that is not present. -/
theorem permissions_of_absent {w : Walk} (hnone : hasFlags w.leaf vmmPresent = false)
    (hblock : w.block format = none) (hstop : w.level ≠ 0 → format.isTable w.entry = false) :
    permissions w = none := by
  refine if_neg ?_
  rw [Bool.not_eq_true]
  by_cases hlevel : w.level = 0
  · rwa [Walk.leaf, if_pos hlevel] at hnone
  · have htable : (hasFlags w.entry vmmPresent && !hasFlags w.entry vmmHuge) = false :=
      hstop hlevel
    have hhuge : hasFlags w.entry vmmHuge = false := by
      by_contra hne
      rw [Bool.not_eq_false] at hne
      rw [Walk.block, if_pos ⟨hlevel, hne⟩] at hblock
      exact absurd hblock (Option.some_ne_none _)
    rwa [hhuge, Bool.not_false, Bool.and_true] at htable

/-- Off the huge pages, the permissions at the end of a walk are those of the mapping its leaf
shows. -/
theorem permissions_of_leafShows {admitted : Mapping → Prop} {w : Walk} {mapping : Option Mapping}
    (hadmitted : ∀ mapping, admitted mapping → hasFlags mapping.flags presentFlag = true)
    (hleaf : LeafShows paging admitted mapping w.leaf) (hblock : w.block format = none)
    (hlinks : ∀ link ∈ w.links, LinksAdmit w.leaf link)
    (hstop : w.level ≠ 0 → format.isTable w.entry = false) :
    permissions w = mapping.map fun mapping ↦ requested mapping.flags := by
  have habsent : hasFlags w.leaf vmmPresent = false → permissions w = none :=
    fun hnone ↦ permissions_of_absent hnone hblock hstop
  generalize hvalue : w.leaf = leaf at hleaf
  cases hleaf with
  | absent hnone => exact habsent (hvalue ▸ hnone)
  | mapped mapping old hok =>
    have hentry : ∀ i < 3, w.leaf.testBit i = mapping.flags.testBit i := by
      intro i hi
      rw [hvalue]
      exact testBit_pageEntry mapping.phys mapping.flags hi
    have hpresent : w.leaf.testBit 0 = true := by
      rw [hentry 0 (by omega), ← hasFlags_vmmPresent]
      exact hadmitted mapping hok
    have hlevel : w.level = 0 := by
      by_contra hne
      rw [Walk.leaf, if_neg hne] at hpresent
      exact absurd hpresent (by simp)
    have hleaf : w.leaf = w.entry := if_pos hlevel
    rw [hleaf] at hentry hpresent hlinks
    rw [permissions_of_links hpresent (fun link hlink ↦ (hlinks link hlink).writable)
      (fun huser link hlink ↦ (hlinks link hlink).user hpresent huser), hentry 1 (by omega),
      hentry 2 (by omega), Option.map_some, requested, hasFlags_vmmUser, hasFlags_vmmWritable]

section Effective

variable {admitted : Mapping → Prop} {s : Spaces} {a : PageMaps} {space : Handle} {pml4 virt : ℕ}

/-- The permissions in the abstract maps: those that were asked for, and on the identity map those
of the huge pages. -/
def abstractPermissions (a : PageMaps) (space : Handle) (virt : ℕ) : Option Permissions :=
  if identityMapped (virt / 4096) then some ⟨false, true⟩
  else (a.find space virt).map fun mapping ↦ requested mapping.flags

/-- The effective permissions are those of the abstract maps. -/
theorem effectivePermissions_eq (h : Represents paging admitted hugeLeaf s a)
    (hadmitted : ∀ mapping, admitted mapping → hasFlags mapping.flags presentFlag = true)
    (hrespect : AllRespect paging LinksAdmit s) (hroot : s.root space = some pml4)
    (hvirt : virt < 2 ^ 48) :
    effectivePermissions s.machine pml4 virt = abstractPermissions a space virt := by
  obtain ⟨map, hmap, hshows⟩ := h.exists_map hroot
  have hleaf := hshows.leaf (virt / 4096) (page_lt hvirt)
  have hblock := hshows.block (virt / 4096) (page_lt hvirt)
  have hpath : IsPath 3 (indexPath 3 (virt / 4096)) := isPath_indexPath 3 _
  have hlinks : ∀ link ∈ (paging.walkTo s.machine.mem pml4 (virt / 4096)).links, LinksAdmit
      (paging.walkTo s.machine.mem pml4 (virt / 4096)).leaf link := hrespect space pml4 hroot _ hpath
  have hstop : (paging.walkTo s.machine.mem pml4 (virt / 4096)).level ≠ 0 →
      format.isTable (paging.walkTo s.machine.mem pml4 (virt / 4096)).entry = false :=
    isTable_entry_walk _ hpath
  rw [effectivePermissions, abstractPermissions]
  generalize paging.walkTo s.machine.mem pml4 (virt / 4096) = w at hleaf hblock hlinks hstop ⊢
  by_cases hcovered : identityMapped (virt / 4096) = true
  · rw [hugeLeaf, if_pos hcovered] at hblock
    have hentry : w.entry = hugeEntry (virt / 4096 / 512) := by
      change w.block format = _ at hblock
      unfold Walk.block at hblock
      split_ifs at hblock
      exact Option.some.inj hblock
    have hbit : ∀ i < 8, w.entry.testBit i = (0b10000011 : ℕ).testBit i := by
      intro i hi
      rw [hentry]
      exact testBit_hugeEntry _ (by omega)
    have huser : w.entry.testBit 2 = false := hbit 2 (by omega)
    rw [if_pos hcovered, permissions_of_links (hbit 0 (by omega))
      (fun link hlink ↦ (hlinks link hlink).writable)
      (fun htrue ↦ absurd (huser.symm.trans htrue) Bool.false_ne_true), huser, hbit 1 (by omega)]
    rfl
  · have hfind : a.find space virt = map (virt / 4096) := by
      rw [PageMaps.find, hmap]
      rfl
    rw [hugeLeaf, if_neg hcovered] at hblock
    rw [if_neg hcovered, hfind]
    exact permissions_of_leafShows hadmitted hleaf hblock hlinks hstop

end Effective

/-- The mappings a caller asks for are present. -/
def AsksPresent (mapping : Mapping) : Prop := hasFlags mapping.flags vmmPresent = true

/-- After every sequence of calls, on any number of spaces, with virtual addresses below `2 ^ 48`
and an allocator that is never exhausted: a page that is not under a huge page has the permissions
it was last mapped with, and none when it is not mapped; mapping a page changes the permissions of no
other page of any space; and what lies under a huge page of the kernel at boot is not open to user
mode in any space. -/
theorem effectivePermissions_exact (boot : Boot) (calls : List VmmCall)
    (hcalls : Permitted paging (MapsOnly AsksPresent (· < 2 ^ 48)) boot.spaces calls)
    (hnever : NeverExhausted (runs backend boot.spaces calls).machine.frames) :
    let s := runs backend boot.spaces calls
    let a := PageMaps.boot.run identityMapped calls
    (∀ space pml4, s.root space = some pml4 → ∀ virt < 2 ^ 48,
      ¬ UnderHugeLeaf s.machine pml4 virt →
        effectivePermissions s.machine pml4 virt =
          (a.find space virt).map fun mapping ↦ requested mapping.flags) ∧
    (∀ space virt phys flags, s.root space ≠ none → virt < 2 ^ 48 →
      hasFlags flags vmmPresent = true →
      NeverExhausted ((VmmCall.map space virt phys flags).run backend s).machine.frames →
      ∀ other pml4, s.root other = some pml4 → ∀ otherVirt < 2 ^ 48,
        other ≠ space ∨ otherVirt / 4096 ≠ virt / 4096 →
          effectivePermissions ((VmmCall.map space virt phys flags).run backend s).machine pml4
            otherVirt = effectivePermissions s.machine pml4 otherVirt) ∧
    ∀ virt < 2 ^ 48, UnderHugeLeaf boot.spaces.machine boot.spaces.kernelRoot virt →
      ∀ space pml4, s.root space = some pml4 →
        ∃ granted, effectivePermissions s.machine pml4 virt = some granted ∧
          granted.user = false := by
  intro s a
  have hpresent : ∀ mapping, AsksPresent mapping → hasFlags mapping.flags presentFlag = true :=
    fun _ h ↦ h
  have hwell : WellFormed paging boot.reserved s := wellFormed_runs calls boot.wellFormed hcalls hnever
  have hrespect : AllRespect paging LinksAdmit s :=
    allRespect_runs keptByCalls_linksAdmit calls boot.wellFormed boot.allRespect_linksAdmit hcalls
      hnever
  have hrepresents : Represents paging AsksPresent hugeLeaf s a :=
    boot.represents_runs hpresent hcalls hnever
  refine ⟨fun space pml4 hroot virt hvirt hhuge ↦ ?_,
    fun space virt phys flags hlive hvirt hflags hafter other pml4 hroot otherVirt hother hne ↦ ?_,
    fun virt hvirt hhuge space pml4 hroot ↦ ?_⟩
  · rw [effectivePermissions_eq hrepresents hpresent hrespect hroot hvirt, abstractPermissions,
      if_neg fun hcovered ↦ hhuge ((underHugeLeaf_iff hrepresents hroot hvirt).mpr hcovered)]
  · have hok : MapsOnly AsksPresent (· < 2 ^ 48) (.map space virt phys flags) := ⟨hvirt, hflags⟩
    have hproper : (VmmCall.map space virt phys flags).Proper paging s := hlive
    have hstep := represents_run (fun virt hvirt ↦ page_lt hvirt) hpresent isPresent_hugeLeaf hwell
      hrepresents hok hproper hafter
    rw [coveredBy_hugeLeaf] at hstep
    have hrespectStep := allRespect_run keptByCalls_linksAdmit hwell hrespect hproper hafter
    have hrootStep : ((VmmCall.map space virt phys flags).run backend s).root other = some pml4 := by
      rw [VmmCall.run, Spaces.root_onRoot, hroot]
    rw [effectivePermissions_eq hstep hpresent hrespectStep hrootStep hother,
      effectivePermissions_eq hrepresents hpresent hrespect hroot hother, abstractPermissions,
      abstractPermissions, a.find_step_map identityMapped phys flags hne]
  · have hcovered := (underHugeLeaf_iff (boot.represents AsksPresent)
      (show boot.spaces.root .kernel = some boot.spaces.kernelRoot from rfl) hvirt).mp hhuge
    rw [effectivePermissions_eq hrepresents hpresent hrespect hroot hvirt, abstractPermissions,
      if_pos hcovered]
    exact ⟨_, rfl, rfl⟩

/-- A new space with a user page: the page is open, and the identity map in the same space is
not. -/
theorem effectivePermissions_exact_new_space :
    let s := runs backend Boot.sample.spaces [.create, .map (.user 0) 0x80000000 0x110000 7]
    ∃ pml4, s.root (.user 0) = some pml4 ∧
      effectivePermissions s.machine pml4 0x80000123 = some ⟨true, true⟩ ∧
      ∃ granted, effectivePermissions s.machine pml4 0x1000 = some granted ∧
        granted.user = false := by
  obtain ⟨hpermitted, hnever, pml4, hroot⟩ := Boot.sample_create_map
    (MapsOnly AsksPresent (· < 2 ^ 48)) trivial
    (show MapsOnly AsksPresent (· < 2 ^ 48) (.map (.user 0) 0x80000000 0x110000 7) from
      ⟨by decide, by change hasFlags 7 vmmPresent = true; decide⟩)
  obtain ⟨hpages, -, hidentity⟩ := effectivePermissions_exact Boot.sample
    [.create, .map (.user 0) 0x80000000 0x110000 7] hpermitted hnever
  have hhuge : UnderHugeLeaf Boot.sample.spaces.machine Boot.sample.spaces.kernelRoot 0x1000 :=
    (underHugeLeaf_iff (Boot.sample.represents AsksPresent)
      (show Boot.sample.spaces.root .kernel = some Boot.sample.spaces.kernelRoot from rfl)
      (by decide)).mpr (by decide)
  have hnot : ¬ UnderHugeLeaf (runs backend Boot.sample.spaces
      [.create, .map (.user 0) 0x80000000 0x110000 7]).machine pml4 0x80000123 := by
    rw [underHugeLeaf_iff (Boot.sample.represents_runs (fun _ h ↦ h) hpermitted hnever) hroot
      (by decide)]
    decide
  exact ⟨pml4, hroot, (hpages (.user 0) pml4 hroot 0x80000123 (by decide) hnot).trans (by decide),
    hidentity 0x1000 (by decide) hhuge (.user 0) pml4 hroot⟩

end X86

end MegKer.Vmm
