import MegKer.Vmm.AddressSpaces

/-!
# Page maps

What the virtual memory manager is for: every address space is a map from pages to the frames they
are mapped to, and the flags of the mapping. A new space starts with the map of the kernel space;
mapping and unmapping change one page of one space; destroying a space forgets its map. The only
trace of the machine in this picture is the set of pages that lie under a block of the boot tables,
where mapping has no effect.

`PageMaps` is that abstract state and `PageMaps.step` its behaviour. `Represents` relates it to the
state of a backend: along the path of each page, the walk from the root of the space ends at an entry
that shows the abstract mapping. `represents_runs` is the simulation, for both backends: every
permitted run of the machine is matched by the run of the abstract maps.
-/

set_option autoImplicit false
set_option relaxedAutoImplicit false

namespace MegKer.Vmm

open Foundation Memory

/-! ### The abstract model -/

/-- What a page is mapped to. -/
structure Mapping where
  phys : ℕ
  flags : ℕ
  deriving DecidableEq, Repr

/-- The mappings of one address space, by page number. -/
abbrev PageMap := ℕ → Option Mapping

/-- The page maps of all spaces that exist. -/
structure PageMaps where
  maps : Handle → Option PageMap
  next : ℕ

/-- At boot there is the kernel space, and it has no mapping of a single page. -/
def PageMaps.boot : PageMaps where
  maps := fun space ↦
    match space with
    | .kernel => some fun _ ↦ none
    | .user _ => none
  next := 0

/-- Change the map of one space. -/
def PageMaps.onMap (a : PageMaps) (space : Handle) (f : PageMap → PageMap) : PageMaps :=
  { a with maps := Function.update a.maps space ((a.maps space).map f) }

/-- The abstract behaviour, for a set of pages that lie under a block. -/
def PageMaps.step (covered : ℕ → Bool) (a : PageMaps) : VmmCall → PageMaps
  | .create =>
    { maps := Function.update a.maps (.user a.next) (a.maps .kernel)
      next := a.next + 1 }
  | .map space virt phys flags =>
    if covered (virt / 4096) then a
    else a.onMap space fun map ↦ Function.update map (virt / 4096) (some ⟨phys, flags⟩)
  | .unmap space virt => a.onMap space fun map ↦ Function.update map (virt / 4096) none
  | .destroy .kernel => a
  | .destroy (.user n) => { a with maps := Function.update a.maps (.user n) none }
  | .others _ => a
  | .write _ => a

/-- The abstract maps after a sequence of steps. -/
def PageMaps.run (covered : ℕ → Bool) (a : PageMaps) (calls : List VmmCall) : PageMaps :=
  calls.foldl (PageMaps.step covered) a

/-- The mapping of the page of a virtual address. -/
def PageMaps.find (a : PageMaps) (space : Handle) (virt : ℕ) : Option Mapping :=
  (a.maps space).bind fun map ↦ map (virt / 4096)

/-- The physical address of a virtual one, 0 when it is not mapped. -/
def PageMaps.translate (a : PageMaps) (space : Handle) (virt : ℕ) : ℕ :=
  match a.find space virt with
  | some mapping => mapping.phys + virt % 4096
  | none => 0

/-- Mapping a page changes no other page. -/
theorem PageMaps.find_step_map (a : PageMaps) (covered : ℕ → Bool) {space other : Handle}
    {virt otherVirt : ℕ} (phys flags : ℕ)
    (hne : other ≠ space ∨ otherVirt / 4096 ≠ virt / 4096) :
    (a.step covered (.map space virt phys flags)).find other otherVirt = a.find other otherVirt := by
  rw [PageMaps.step]
  split_ifs
  · rfl
  · simp only [PageMaps.find, PageMaps.onMap]
    by_cases hother : other = space
    · rw [hother, Function.update_self]
      cases a.maps space with
      | none => rfl
      | some map => exact Function.update_of_ne (hne.resolve_left (not_not.mpr hother)) _ _
    · rw [Function.update_of_ne hother]

/-- A page that is mapped off the blocks is found. -/
theorem PageMaps.find_step_map_self (a : PageMaps) {covered : ℕ → Bool} {space : Handle} {virt : ℕ}
    (phys flags : ℕ) (hlive : a.maps space ≠ none) (hcovered : covered (virt / 4096) = false) :
    (a.step covered (.map space virt phys flags)).find space virt = some ⟨phys, flags⟩ := by
  obtain ⟨map, hmap⟩ := Option.ne_none_iff_exists'.mp hlive
  rw [PageMaps.step, if_neg (by simp [hcovered])]
  simp only [PageMaps.find, PageMaps.onMap, Function.update_self, hmap]
  exact Function.update_self _ _ _

/-- Unmapping a page changes no other page. -/
theorem PageMaps.find_step_unmap (a : PageMaps) (covered : ℕ → Bool) {space : Handle}
    {virt otherVirt : ℕ} (hne : otherVirt / 4096 ≠ virt / 4096) (other : Handle) :
    (a.step covered (.unmap space virt)).find other otherVirt = a.find other otherVirt := by
  simp only [PageMaps.step, PageMaps.find, PageMaps.onMap]
  by_cases hother : other = space
  · rw [hother, Function.update_self]
    cases a.maps space with
    | none => rfl
    | some map => exact Function.update_of_ne hne _ _
  · rw [Function.update_of_ne hother]

/-- The calls to the manager, as opposed to what the rest of the kernel does. -/
def VmmCall.ofManager : VmmCall → Bool
  | .create => true
  | .map _ _ _ _ => true
  | .unmap _ _ => true
  | .destroy _ => true
  | .others _ => false
  | .write _ => false

/-- Only the calls to the manager matter to the maps. -/
theorem PageMaps.run_filter (covered : ℕ → Bool) (calls : List VmmCall) :
    ∀ a : PageMaps, a.run covered (calls.filter VmmCall.ofManager) = a.run covered calls := by
  induction calls with
  | nil => exact fun _ ↦ rfl
  | cons call calls ih =>
    intro a
    cases call with
    | create => exact ih _
    | map space virt phys flags => exact ih _
    | unmap space virt => exact ih _
    | destroy space => exact ih _
    | others call => exact ih a
    | write mem => exact ih a

/-! ### The relation to the machine -/

section Refinement

variable {backend : Backend} (paging : Paging backend) (admitted : Mapping → Prop)
  (blocks : ℕ → Option ℕ)

/-- The number of pages of an address space. -/
def Paging.pages : ℕ := fanout ^ (paging.depth + 1)

/-- The walk to a page. -/
def Paging.walkTo (mem : WordMemory) (root page : ℕ) : Walk :=
  walk paging.format mem root (indexPath paging.depth page)

/-- The entry of the last level shows the mapping of a page. -/
inductive LeafShows : Option Mapping → ℕ → Prop
  | absent {leaf : ℕ} (hleaf : paging.format.isPresent leaf = false) : LeafShows none leaf
  | mapped (mapping : Mapping) (old : ℕ) (hadmitted : admitted mapping) :
    LeafShows (some mapping) (paging.edit mapping.phys mapping.flags old)

/-- The tables of a root show a page map, and have the given blocks. -/
structure ShowsMap (mem : WordMemory) (root : ℕ) (map : PageMap) : Prop where
  leaf : ∀ page < paging.pages,
    LeafShows paging admitted (map page) (paging.walkTo mem root page).leaf
  block : ∀ page < paging.pages,
    (paging.walkTo mem root page).block paging.format = blocks page

/-- The state of the machine represents the abstract maps. -/
structure Represents (s : Spaces) (a : PageMaps) : Prop where
  next_eq : a.next = s.next
  shows : ∀ space, Option.Rel (ShowsMap paging admitted blocks s.machine.mem) (s.root space)
    (a.maps space)

/-- The conditions on calls that map pages: virtual addresses that are in range, and mappings
that are admitted. -/
def MapsOnly (inRange : ℕ → Prop) : VmmCall → Prop
  | .map _ virt phys flags => inRange virt ∧ admitted ⟨phys, flags⟩
  | .unmap _ virt => inRange virt
  | _ => True

theorem MapsOnly.mono {admitted admitted' : Mapping → Prop} {inRange inRange' : ℕ → Prop}
    (hadmitted : ∀ mapping, admitted mapping → admitted' mapping)
    (hrange : ∀ virt, inRange virt → inRange' virt) (call : VmmCall)
    (h : MapsOnly admitted inRange call) : MapsOnly admitted' inRange' call := by
  cases call with
  | map space virt phys flags => exact ⟨hrange _ h.1, hadmitted _ h.2⟩
  | unmap space virt => exact hrange _ h
  | create => trivial
  | destroy space => trivial
  | others call => trivial
  | write mem => trivial

/-- Calls off the blocks behave alike for two sets of blocks. -/
theorem PageMaps.run_congr {admitted : Mapping → Prop} {inRange : ℕ → Prop}
    {covered covered' : ℕ → Bool}
    (hcovered : ∀ virt, inRange virt → covered (virt / 4096) = covered' (virt / 4096))
    (calls : List VmmCall) :
    ∀ a : PageMaps, (∀ call ∈ calls, MapsOnly admitted inRange call) →
      a.run covered calls = a.run covered' calls := by
  induction calls with
  | nil => exact fun _ _ ↦ rfl
  | cons call calls ih =>
    intro a hcalls
    obtain ⟨hhead, htail⟩ := List.forall_mem_cons.mp hcalls
    have hstep : a.step covered call = a.step covered' call := by
      cases call with
      | map space virt phys flags => rw [PageMaps.step, PageMaps.step, hcovered virt hhead.1]
      | create => rfl
      | unmap space virt => rfl
      | destroy space => cases space <;> rfl
      | others call => rfl
      | write mem => rfl
    change (a.step covered call).run covered calls = (a.step covered' call).run covered' calls
    rw [hstep]
    exact ih _ htail

/-- The pages under a block. -/
def coveredBy (page : ℕ) : Bool := (blocks page).isSome

end Refinement

section Simulation

variable {backend : Backend} {paging : Paging backend} {admitted : Mapping → Prop}
  {blocks : ℕ → Option ℕ} {reserved : Finset ℕ} {s : Spaces} {a : PageMaps}

theorem Paging.walkTo_congr {space : Handle} {before after : Spaces} {root : ℕ}
    (h : Untouched paging space before after) (hroot : before.root space = some root) (page : ℕ) :
    paging.walkTo after.machine.mem root page = paging.walkTo before.machine.mem root page :=
  h.walk_eq hroot (isPath_indexPath _ _)

/-- A space that a step leaves alone goes on showing its map. -/
theorem rel_of_untouched {space : Handle} {before after : Spaces} {map : Option PageMap}
    (h : Untouched paging space before after)
    (hshows : Option.Rel (ShowsMap paging admitted blocks before.machine.mem) (before.root space)
      map) :
    Option.Rel (ShowsMap paging admitted blocks after.machine.mem) (after.root space) map := by
  rw [h.1]
  cases hroot : before.root space with
  | none =>
    rw [hroot] at hshows
    cases hshows
    exact Option.Rel.none
  | some root =>
    rw [hroot] at hshows
    cases hshows with
    | some hmap =>
      refine Option.Rel.some ⟨fun page hpage ↦ ?_, fun page hpage ↦ ?_⟩
      · rw [Paging.walkTo_congr h hroot]
        exact hmap.leaf page hpage
      · rw [Paging.walkTo_congr h hroot]
        exact hmap.block page hpage

/-- The map of a space that exists. -/
theorem Represents.exists_map (h : Represents paging admitted blocks s a) {space : Handle}
    {root : ℕ} (hroot : s.root space = some root) :
    ∃ map, a.maps space = some map ∧ ShowsMap paging admitted blocks s.machine.mem root map := by
  have hshows := h.shows space
  rw [hroot] at hshows
  cases hmap : a.maps space with
  | none =>
    rw [hmap] at hshows
    cases hshows
  | some map =>
    rw [hmap] at hshows
    cases hshows with
    | some hshows => exact ⟨map, rfl, hshows⟩

/-- The same spaces exist. -/
theorem Represents.root_eq_none_iff (h : Represents paging admitted blocks s a) (space : Handle) :
    s.root space = none ↔ a.maps space = none := by
  have hshows := h.shows space
  constructor
  · intro hnone
    rw [hnone] at hshows
    cases hmap : a.maps space with
    | none => rfl
    | some map =>
      rw [hmap] at hshows
      cases hshows
  · intro hnone
    rw [hnone] at hshows
    cases hroot : s.root space with
    | none => rfl
    | some root =>
      rw [hroot] at hshows
      cases hshows

/-! ### One step -/

/-- An edited space shows the updated map. -/
theorem ShowsMap.edited {before after : WordMemory} {root page : ℕ} {map : PageMap}
    {style : LinkStyle paging.format} {edit : ℕ → ℕ} (mapping : Option Mapping)
    (hshows : ShowsMap paging admitted blocks before root map) (hpage : page < paging.pages)
    (hedited : Edited style edit paging.depth root (indexPath paging.depth page) before after)
    (hleaf : ∀ leaf, LeafShows paging admitted mapping (edit leaf)) :
    ShowsMap paging admitted blocks after root
      (if coveredBy blocks page then map else Function.update map page mapping) := by
  have hblock : (walk paging.format before root (indexPath paging.depth page)).block
      paging.format = blocks page := hshows.block page hpage
  have hpath : ∀ other < paging.pages,
      (indexPath paging.depth other = indexPath paging.depth page ↔ other = page) :=
    fun other hother ↦ indexPath_inj hother hpage
  refine ⟨fun other hother ↦ ?_, fun other hother ↦ ?_⟩
  · have hnew := hedited.leaf_eq (indexPath paging.depth other) (isPath_indexPath _ _)
    simp only [hblock, hpath other hother] at hnew
    change LeafShows paging admitted _ (walk paging.format after root _).leaf
    rw [hnew]
    by_cases hcovered : coveredBy blocks page = true
    · rw [if_pos hcovered, if_neg]
      · exact hshows.leaf other hother
      · rintro ⟨-, hnone⟩
        rw [coveredBy, hnone] at hcovered
        exact Bool.false_ne_true hcovered
    · have hnone : blocks page = none := by simpa [coveredBy] using hcovered
      rw [if_neg hcovered]
      by_cases heq : other = page
      · rw [if_pos ⟨heq, hnone⟩, heq, Function.update_self]
        exact hleaf _
      · rw [if_neg fun h ↦ heq h.1, Function.update_of_ne heq]
        exact hshows.leaf other hother
  · exact (hedited.block_eq _ (isPath_indexPath _ _)).trans (hshows.block other hother)

/-- Pages under a block are not mapped. -/
theorem ShowsMap.absent_of_covered {mem : WordMemory} {root page : ℕ} {map : PageMap}
    (hadmitted : ∀ mapping, admitted mapping → hasFlags mapping.flags presentFlag = true)
    (hshows : ShowsMap paging admitted blocks mem root map) (hpage : page < paging.pages)
    (hcovered : coveredBy blocks page = true) : map page = none := by
  obtain ⟨entry, hentry⟩ := Option.isSome_iff_exists.mp hcovered
  have hzero := Walk.leaf_of_block paging.format ((hshows.block page hpage).trans hentry)
  have hleaf := hshows.leaf page hpage
  rw [hzero] at hleaf
  generalize map page = mapping at hleaf ⊢
  generalize hvalue : (0 : ℕ) = leaf at hleaf
  cases hleaf with
  | absent _ => rfl
  | mapped mapping old hok =>
    have hpresent := paging.isPresent_edit mapping.phys mapping.flags old (hadmitted mapping hok)
    rw [← hvalue, paging.format.isPresent_zero] at hpresent
    exact absurd hpresent Bool.false_ne_true

/-- A copied space shows the same map. -/
theorem ShowsMap.cloned {before after : Machine} {src dst : ℕ} {map : PageMap}
    (hadmitted : ∀ mapping, admitted mapping → hasFlags mapping.flags presentFlag = true)
    (hblocks : ∀ page entry, blocks page = some entry → paging.format.isPresent entry = true)
    (hshows : ShowsMap paging admitted blocks before.mem src map)
    (hcloned : Cloned paging.format paging.source paging.depth src dst before after) :
    ShowsMap paging admitted blocks after.mem dst map := by
  refine ⟨fun page hpage ↦ ?_, fun page hpage ↦ ?_⟩
  · have hcopy := hcloned.copied (indexPath paging.depth page) (isPath_indexPath _ _)
    have hleaf := hshows.leaf page hpage
    change LeafShows paging admitted _ (walk paging.format after.mem dst _).leaf
    rw [hcopy.leaf_eq]
    change LeafShows paging admitted _ (if paging.format.isPresent
      (paging.walkTo before.mem src page).leaf = true then
        (paging.walkTo before.mem src page).leaf else 0)
    generalize map page = mapping at hleaf ⊢
    generalize (paging.walkTo before.mem src page).leaf = leaf at hleaf ⊢
    cases hleaf with
    | absent habsent =>
      rw [if_neg (by simp [habsent])]
      exact LeafShows.absent paging.format.isPresent_zero
    | mapped mapping old hok =>
      rw [if_pos (paging.isPresent_edit _ _ old (hadmitted mapping hok))]
      exact LeafShows.mapped mapping old hok
  · have hcopy := hcloned.copied (indexPath paging.depth page) (isPath_indexPath _ _)
    have hblock := hshows.block page hpage
    refine (hcopy.block_eq fun entry hentry ↦ ?_).trans hblock
    exact hblocks page entry (hblock.symm.trans hentry)

/-- A change to the map of one space, when the machine changes the same space only. -/
theorem Represents.onMap (h : Represents paging admitted blocks s a) {after : Spaces}
    {space : Handle} {root : ℕ} {f : PageMap → PageMap} (hnext : after.next = s.next)
    (hroot : after.root space = some root)
    (huntouched : ∀ other, other ≠ space → Untouched paging other s after) {map : PageMap}
    (hmap : a.maps space = some map)
    (hshows : ShowsMap paging admitted blocks after.machine.mem root (f map)) :
    Represents paging admitted blocks after (a.onMap space f) := by
  refine ⟨h.next_eq.trans hnext.symm, fun other ↦ ?_⟩
  by_cases hother : other = space
  · rw [hother, hroot, PageMaps.onMap, hmap]
    simp only [Function.update_self, Option.map_some]
    exact Option.Rel.some hshows
  · rw [PageMaps.onMap]
    simp only [Function.update_of_ne hother]
    exact rel_of_untouched (huntouched other hother) (h.shows other)

/-- One step of the machine is one step of the abstract maps. -/
theorem represents_run {inRange : ℕ → Prop}
    (hrange : ∀ virt, inRange virt → virt / 4096 < paging.pages)
    (hadmitted : ∀ mapping, admitted mapping → hasFlags mapping.flags presentFlag = true)
    (hblocks : ∀ page entry, blocks page = some entry → paging.format.isPresent entry = true)
    (hwell : WellFormed paging reserved s) (h : Represents paging admitted blocks s a)
    {call : VmmCall} (hok : MapsOnly admitted inRange call) (hproper : call.Proper paging s)
    (hnever : NeverExhausted (call.run backend s).machine.frames) :
    Represents paging admitted blocks (call.run backend s)
      (a.step (coveredBy blocks) call) := by
  cases call with
  | create =>
    rw [run_create] at hnever ⊢
    have hcloned := hwell.create_spec hnever
    obtain ⟨map, hmap, hshows⟩ := h.exists_map (show s.root .kernel = some s.kernelRoot from rfl)
    refine ⟨congrArg (· + 1) h.next_eq, fun space ↦ ?_⟩
    rw [PageMaps.step]
    by_cases hnew : space = .user s.next
    · rw [hnew, h.next_eq, s.root_adopt_new]
      simp only [Function.update_self, hmap]
      exact Option.Rel.some (hshows.cloned hadmitted hblocks hcloned)
    · rw [h.next_eq]
      simp only [Function.update_of_ne hnew]
      exact rel_of_untouched (hwell.untouched_adopt hcloned.toFreshTree hnew) (h.shows space)
  | map space virt phys flags =>
    obtain ⟨root, hroot⟩ := Option.ne_none_iff_exists'.mp hproper
    obtain ⟨hvirt, hmapping⟩ := hok
    rw [VmmCall.run, Spaces.onRoot_eq hroot] at hnever ⊢
    obtain ⟨⟨added, hgrown⟩, hedited⟩ := hwell.map_spec hroot hnever
    obtain ⟨map, hmap, hshows⟩ := h.exists_map hroot
    have hafter := hshows.edited (some ⟨phys, flags⟩) (hrange virt hvirt) hedited
      fun leaf ↦ LeafShows.mapped ⟨phys, flags⟩ leaf hmapping
    have huntouched : ∀ other, other ≠ space → Untouched paging other s
        { s with machine := backend.map s.machine root virt phys flags } :=
      fun other hne ↦ hwell.untouched_grown hroot hgrown hne
    rw [PageMaps.step]
    by_cases hcovered : coveredBy blocks (virt / 4096) = true
    · rw [if_pos hcovered] at hafter ⊢
      refine ⟨h.next_eq, fun other ↦ ?_⟩
      by_cases hother : other = space
      · rw [hother, hmap]
        change Option.Rel _ (s.root space) _
        rw [hroot]
        exact Option.Rel.some hafter
      · exact rel_of_untouched (huntouched other hother) (h.shows other)
    · rw [if_neg hcovered] at hafter ⊢
      exact h.onMap rfl hroot huntouched hmap hafter
  | unmap space virt =>
    obtain ⟨root, hroot⟩ := Option.ne_none_iff_exists'.mp hproper
    rw [VmmCall.run, Spaces.onRoot_eq hroot]
    obtain ⟨hgrown, hedited⟩ := hwell.unmap_spec hroot virt
    obtain ⟨map, hmap, hshows⟩ := h.exists_map hroot
    have hafter := hshows.edited none (hrange virt hok) hedited
      fun leaf ↦ LeafShows.absent paging.format.isPresent_zero
    refine h.onMap rfl hroot (fun other hne ↦ hwell.untouched_grown hroot hgrown hne) hmap ?_
    by_cases hcovered : coveredBy blocks (virt / 4096) = true
    · rw [if_pos hcovered] at hafter
      have habsent := hshows.absent_of_covered hadmitted (hrange virt hok) hcovered
      rwa [← habsent, Function.update_eq_self]
    · rwa [if_neg hcovered] at hafter
  | destroy space =>
    cases space with
    | kernel => exact h
    | user n =>
      obtain ⟨root, hroot⟩ := Option.ne_none_iff_exists'.mp hproper
      rw [run_destroy paging hroot, PageMaps.step]
      refine ⟨h.next_eq, fun other ↦ ?_⟩
      by_cases hother : other = .user n
      · rw [hother, s.root_drop_self]
        simp only [Function.update_self]
        exact Option.Rel.none
      · simp only [Function.update_of_ne hother]
        exact rel_of_untouched (untouched_drop _ hother) (h.shows other)
  | others call => exact ⟨h.next_eq, h.shows⟩
  | write mem => exact ⟨h.next_eq, fun other ↦
      rel_of_untouched (untouched_write hproper other) (h.shows other)⟩

/-- Every permitted run of the machine is a run of the abstract maps. -/
theorem represents_runs {inRange : ℕ → Prop}
    (hrange : ∀ virt, inRange virt → virt / 4096 < paging.pages)
    (hadmitted : ∀ mapping, admitted mapping → hasFlags mapping.flags presentFlag = true)
    (hblocks : ∀ page entry, blocks page = some entry → paging.format.isPresent entry = true)
    (calls : List VmmCall) :
    ∀ {s : Spaces} {a : PageMaps}, WellFormed paging reserved s →
      Represents paging admitted blocks s a →
      Permitted paging (MapsOnly admitted inRange) s calls →
      NeverExhausted (runs backend s calls).machine.frames →
        Represents paging admitted blocks (runs backend s calls)
          (a.run (coveredBy blocks) calls) := by
  induction calls with
  | nil => exact fun _ h _ _ ↦ h
  | cons call calls ih =>
    intro s a hwell h hpermitted hnever
    obtain ⟨hok, hproper, hrest⟩ := hpermitted
    have hstep := neverExhausted_of_runs (s := call.run backend s) paging calls hnever
    exact ih (wellFormed_run hwell hproper hstep)
      (represents_run hrange hadmitted hblocks hwell h hok hproper hstep) hrest hnever

/-! ### Addresses beyond the tables -/

/-- The page that the tables have for a virtual address: they know the lower digits of its number. -/
def Paging.pageOf (paging : Paging backend) (virt : ℕ) : ℕ := virt / 4096 % paging.pages

/-- The step with its virtual address cut to the bits that the tables know. -/
def Paging.canonical (paging : Paging backend) : VmmCall → VmmCall
  | .map space virt phys flags => .map space (virt % (4096 * paging.pages)) phys flags
  | .unmap space virt => .unmap space (virt % (4096 * paging.pages))
  | .create => .create
  | .destroy space => .destroy space
  | .others call => .others call
  | .write mem => .write mem

theorem Paging.pages_pos (paging : Paging backend) : 0 < paging.pages :=
  Nat.pow_pos (by rw [fanout_eq]; norm_num)

theorem Paging.pageOf_lt (paging : Paging backend) (virt : ℕ) : paging.pageOf virt < paging.pages :=
  Nat.mod_lt _ paging.pages_pos

theorem Paging.pageOf_of_lt {paging : Paging backend} {virt : ℕ}
    (hvirt : virt / 4096 < paging.pages) : paging.pageOf virt = virt / 4096 :=
  Nat.mod_eq_of_lt hvirt

theorem Paging.page_canonical (paging : Paging backend) (virt : ℕ) :
    virt % (4096 * paging.pages) / 4096 = paging.pageOf virt :=
  Nat.mod_mul_right_div_self _ _ _

theorem Paging.path_pageOf (paging : Paging backend) (virt : ℕ) :
    indexPath paging.depth (paging.pageOf virt) = indexPath paging.depth (virt / 4096) := by
  rw [indexPath_eq_iff]
  exact Nat.mod_mod _ _

theorem Paging.run_canonical (paging : Paging backend) (call : VmmCall) (s : Spaces) :
    (paging.canonical call).run backend s = call.run backend s := by
  cases call with
  | map space virt phys flags =>
    have hmap : ∀ m root, backend.map m root (virt % (4096 * paging.pages)) phys flags =
        backend.map m root virt phys flags := fun m root ↦ by
      rw [paging.map_eq, paging.map_eq, paging.page_canonical, paging.path_pageOf]
    simp only [Paging.canonical, VmmCall.run, hmap]
  | unmap space virt =>
    have hunmap : ∀ m root, backend.unmap m root (virt % (4096 * paging.pages)) =
        backend.unmap m root virt := fun m root ↦ by
      rw [paging.unmap_eq, paging.unmap_eq, paging.page_canonical, paging.path_pageOf]
    simp only [Paging.canonical, VmmCall.run, hunmap]
  | create => rfl
  | destroy space => rfl
  | others call => rfl
  | write mem => rfl

/-- One step is matched by the abstract maps, whatever its virtual address. -/
theorem represents_run_canonical
    (hadmitted : ∀ mapping, admitted mapping → hasFlags mapping.flags presentFlag = true)
    (hblocks : ∀ page entry, blocks page = some entry → paging.format.isPresent entry = true)
    (hwell : WellFormed paging reserved s) (h : Represents paging admitted blocks s a)
    {call : VmmCall} (hok : MapsOnly admitted (fun _ ↦ True) call) (hproper : call.Proper paging s)
    (hnever : NeverExhausted (call.run backend s).machine.frames) :
    Represents paging admitted blocks (call.run backend s)
      (a.step (coveredBy blocks) (paging.canonical call)) := by
  have hrange : ∀ virt, virt < 4096 * paging.pages → virt / 4096 < paging.pages :=
    fun virt hvirt ↦ Nat.div_lt_of_lt_mul hvirt
  have hpos : 0 < 4096 * paging.pages := Nat.mul_pos (by norm_num) paging.pages_pos
  have hok' : MapsOnly admitted (· < 4096 * paging.pages) (paging.canonical call) := by
    cases call with
    | map space virt phys flags => exact ⟨Nat.mod_lt _ hpos, hok.2⟩
    | unmap space virt => exact Nat.mod_lt _ hpos
    | create => trivial
    | destroy space => trivial
    | others call => trivial
    | write mem => trivial
  have hproper' : (paging.canonical call).Proper paging s := by
    cases call with
    | map space virt phys flags => exact hproper
    | unmap space virt => exact hproper
    | create => exact hproper
    | destroy space => exact hproper
    | others call => exact hproper
    | write mem => exact hproper
  rw [← paging.run_canonical call s] at hnever ⊢
  exact represents_run hrange hadmitted hblocks hwell h hok' hproper' hnever

/-! ### Translation -/

/-- Translation reads the leaf of the page. -/
theorem translate_eq_leaf (paging : Paging backend) (m : Machine) (root virt : ℕ) :
    backend.translate m root virt =
      if paging.format.isPresent (paging.walkTo m.mem root (virt / 4096)).leaf then
        paging.address (paging.walkTo m.mem root (virt / 4096)).leaf ||| (virt &&& 0xFFF)
      else 0 := by
  have hleaf : (paging.walkTo m.mem root (virt / 4096)).leaf =
      (leafSlot paging.format m.mem root (indexPath paging.depth (virt / 4096))).elim 0 m.mem :=
    leaf_of_leafSlot _ (isPath_indexPath _ _)
  rw [paging.translate_eq, hleaf]
  cases leafSlot paging.format m.mem root (indexPath paging.depth (virt / 4096)) with
  | some a => rfl
  | none =>
    rw [Option.elim_none, if_neg (by simp [paging.format.isPresent_zero])]

/-- A space that a step leaves alone translates as before. -/
theorem Untouched.translate_eq {space : Handle} {before after : Spaces} {root : ℕ}
    (h : Untouched paging space before after) (hroot : before.root space = some root) (virt : ℕ) :
    backend.translate after.machine root virt = backend.translate before.machine root virt := by
  rw [translate_eq_leaf paging, translate_eq_leaf paging, Paging.walkTo_congr h hroot]

/-- Putting a page-aligned address and an offset together. -/
theorem or_offset {phys : ℕ} (haligned : 4096 ∣ phys) (virt : ℕ) :
    phys ||| (virt &&& 0xFFF) = phys + virt % 4096 := by
  obtain ⟨k, rfl⟩ := haligned
  have hmask : virt &&& 0xFFF = virt % 2 ^ 12 := Nat.and_two_pow_sub_one_eq_mod virt 12
  rw [hmask, show 4096 * k = 2 ^ 12 * k from rfl,
    ← Nat.two_pow_add_eq_or_of_lt (Nat.mod_lt virt (by norm_num))]

/-- Where the state represents the abstract maps, the machine translates as they do. -/
theorem Represents.translate_eq (h : Represents paging admitted blocks s a)
    (hadmitted : ∀ mapping, admitted mapping → hasFlags mapping.flags presentFlag = true ∧
      4096 ∣ mapping.phys ∧ mapping.phys < paging.format.limit)
    {space : Handle} {root virt : ℕ} (hroot : s.root space = some root)
    (hvirt : virt / 4096 < paging.pages) :
    backend.translate s.machine root virt = a.translate space virt := by
  obtain ⟨map, hmap, hshows⟩ := h.exists_map hroot
  have hleaf := hshows.leaf (virt / 4096) hvirt
  have hfind : a.find space virt = map (virt / 4096) := by
    rw [PageMaps.find, hmap]
    rfl
  rw [translate_eq_leaf paging, PageMaps.translate, hfind]
  generalize map (virt / 4096) = mapping at hleaf ⊢
  generalize (paging.walkTo s.machine.mem root (virt / 4096)).leaf = leaf at hleaf ⊢
  cases hleaf with
  | absent habsent => rw [if_neg (by simp [habsent])]
  | mapped mapping old hok =>
    obtain ⟨hflags, haligned, hlt⟩ := hadmitted mapping hok
    rw [if_pos (paging.isPresent_edit _ _ old hflags),
      paging.address_edit _ _ old hflags haligned hlt]
    exact or_offset haligned virt

end Simulation

end MegKer.Vmm
