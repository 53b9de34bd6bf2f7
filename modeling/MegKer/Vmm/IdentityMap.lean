import MegKer.Vmm.EffectivePermissions

/-!
# Extending the identity map

`arch/x86_64/mm/paging.c` adds huge pages to the live page tables, so that the kernel reaches physical
memory outside of the first gigabyte, such as the framebuffer. It goes down two levels, creates the tables
that are missing, and fills entries of the PD that are not present yet.

The tables are a radix table of depth 2 whose leaves are the entries of the PD. `ensure_table` does not look
at the HUGE bit; since no entry above the PD has it (`IdentityTree.noBlock`), a call for one page is an edit
of one path (`mapPage_eq`). The invariant `IdentityTree` says that each leaf is 0 or the huge page that maps
its own address, and which of the two it is. `hardwareWalk` is what the processor makes of the tables: a
mapped page is present and writable, and translates every address to itself
(`IdentityTree.hardwareWalk_mapped`), and nothing else is mapped (`IdentityTree.hardwareWalk_absent`).

`identityMap_exact` follows for every sequence of calls on the boot tables.
-/

set_option autoImplicit false
set_option relaxedAutoImplicit false

namespace MegKer.Vmm.X86

open Foundation Memory

/-! ### The code of `paging.c` -/

/-- `ensure_table`. The flags and the address mask are those of `vmm.c`, under other names. -/
def ensureTable (m : Machine) (parent index : ℕ) : Machine × ℕ :=
  let m : Machine :=
    if !hasFlags (m.mem (slot parent index)) vmmPresent then
      let (m, frame) := allocFrame m
      let m := zeroedTable m frame
      { m with mem := m.mem.store (slot parent index) (frame ||| vmmPresent ||| vmmWritable) }
    else m
  (m, m.mem (slot parent index) &&& addrMask)

/-- The body of the loop of `paging_identity_map`. -/
def mapPage (pml4 : ℕ) (m : Machine) (addr : ℕ) : Machine :=
  let pml4Index := (addr >>> 39) &&& 0x1FF
  let pdpIndex := (addr >>> 30) &&& 0x1FF
  let pdIndex := (addr >>> 21) &&& 0x1FF
  let (m, pdp) := ensureTable m pml4 pml4Index
  let (m, pd) := ensureTable m pdp pdpIndex
  if !hasFlags (m.mem (slot pd pdIndex)) vmmPresent then
    { m with mem := m.mem.store (slot pd pdIndex) (addr ||| vmmPresent ||| vmmWritable ||| vmmHuge) }
  else m

/-- `paging_identity_map`, for a value of CR3. The addresses of the loop are the multiples of 2 MiB from
`start` up to, but not including, `end`. -/
def pagingIdentityMap (cr3 : ℕ) (m : Machine) (phys size : ℕ) : Machine :=
  let start := alignDown phys 0x200000
  let stop := alignUp (wrap (phys + size)) 0x200000
  let pml4 := cr3 &&& addrMask
  (List.range ((stop - start) / 0x200000)).foldl (fun m k ↦ mapPage pml4 m (start + 0x200000 * k)) m

/-! ### What the processor sees -/

/-- The physical address and the permissions that the processor finds for a virtual address. -/
structure Access where
  phys : ℕ
  granted : Permissions
  deriving DecidableEq, Repr

/-- The walk of the processor. It ends at a page, at a huge page in the PD or in the PDPT, or at an entry
that is not present; the PML4 has no huge pages. -/
def hardwareWalk (mem : WordMemory) (pml4 virt : ℕ) : Option Access :=
  let w := paging.walkTo mem pml4 (virt / 4096)
  (permissions w).bind fun granted ↦
    match w.level with
    | 0 => some ⟨(w.entry &&& addrMask) + virt % 2 ^ 12, granted⟩
    | 1 => some ⟨(w.entry &&& fieldMask 21 52) + virt % 2 ^ 21, granted⟩
    | 2 => some ⟨(w.entry &&& fieldMask 30 52) + virt % 2 ^ 30, granted⟩
    | _ => none

/-! ### One step down -/

section Step

variable {m : Machine}

/-- Off a huge page, `ensure_table` is `get_or_create_table` for a page of the kernel. -/
theorem ensureTable_eq {parent index : ℕ}
    (hhuge : format.isBlock (m.mem (slot parent index)) = false) :
    ensureTable m parent index = ensureChild format source (links 0) m parent index := by
  have hhuge : hasFlags (m.mem (slot parent index)) vmmHuge = false := hhuge
  have huser : hasFlags 0 vmmUser = false := by decide
  rw [← getOrCreateTable_eq]
  unfold ensureTable getOrCreateTable
  simp [hhuge, huser]

theorem descends_ensureTable (m : Machine) (parent index : ℕ) :
    Descends m.frames (ensureTable m parent index).1.frames := by
  unfold ensureTable
  dsimp only
  split
  · exact (Descends.refl m.frames).alloc
  · exact Descends.refl m.frames

theorem descends_mapPage (pml4 : ℕ) (m : Machine) (addr : ℕ) :
    Descends m.frames (mapPage pml4 m addr).frames := by
  unfold mapPage
  dsimp only
  split <;> exact (descends_ensureTable m _ _).trans (descends_ensureTable _ _ _)

theorem descends_mapPages {pml4 : ℕ} (pages : List ℕ) :
    ∀ m : Machine, Descends m.frames
      (pages.foldl (fun m page ↦ mapPage pml4 m (0x200000 * page)) m).frames := by
  induction pages with
  | nil => exact fun m ↦ Descends.refl m.frames
  | cons page pages ih => exact fun m ↦ (descends_mapPage pml4 m _).trans (ih _)

/-- The entry of the PD after a call for its page. -/
def fillEntry (addr entry : ℕ) : ℕ :=
  if hasFlags entry vmmPresent then entry else addr ||| vmmPresent ||| vmmWritable ||| vmmHuge

/-- The indices of `paging_identity_map` are the digits of the number of the huge page. -/
theorem hugePath_eq (addr : ℕ) :
    indexPath 2 (addr / 0x200000) =
      [(addr >>> 39) &&& 0x1FF, (addr >>> 30) &&& 0x1FF, (addr >>> 21) &&& 0x1FF] := by
  have hpage : addr / 0x200000 = addr / 4096 / fanout := by
    rw [fanout_eq, Nat.div_div_eq_div_mul]
  have h3 := index_eq addr 3
  have h2 := index_eq addr 2
  have h1 := index_eq addr 1
  rw [pow_succ' fanout 2, ← Nat.div_div_eq_div_mul, ← hpage] at h3
  rw [pow_succ' fanout 1, ← Nat.div_div_eq_div_mul, ← hpage] at h2
  rw [pow_one, ← hpage] at h1
  simp only [indexPath, ← h1, ← h2, ← h3]

/-- On a tree without huge pages above the PD, a call for one page is an edit of its path. -/
theorem mapPage_eq {pml4 addr : ℕ} (hserving : Serving format.limit m.frames)
    (htree : OwnedTree source m 2 pml4)
    (hblock : (walk format m.mem pml4 (indexPath 2 (addr / 0x200000))).block format = none)
    (hnever : NeverExhausted (mapPage pml4 m addr).frames) :
    mapPage pml4 m addr = editPath format source (links 0) (fillEntry addr) m pml4
      (indexPath 2 (addr / 0x200000)) := by
  have hpath := isPath_indexPath 2 (addr / 0x200000)
  rw [hugePath_eq] at hblock hpath ⊢
  unfold mapPage at hnever ⊢
  dsimp only at hnever ⊢
  generalize (addr >>> 39) &&& 0x1FF = i at *
  generalize (addr >>> 30) &&& 0x1FF = j at *
  generalize (addr >>> 21) &&& 0x1FF = k at *
  obtain ⟨hi, hpath⟩ := IsPath.cons_iff.mp hpath
  obtain ⟨hj, hpath'⟩ := IsPath.cons_iff.mp hpath
  have hnever : NeverExhausted (ensureTable (ensureTable m pml4 i).1
      (ensureTable m pml4 i).2 j).1.frames := by
    split at hnever <;> exact hnever
  have hfirst := (descends_ensureTable m pml4 i).serving hserving
    ((descends_ensureTable _ _ _).neverExhausted hnever)
  have hsecond := (descends_ensureTable _ _ _).serving hfirst hnever
  have hnot := isBlock_of_block_eq_none hpath hblock
  rw [ensureTable_eq hnot] at hfirst hsecond ⊢
  obtain ⟨grown, hentered⟩ := entered_ensureChild (links 0) hi htree hnot hfirst
  have htree' := hentered.ownedTree htree hi hserving
  rw [← hentered.block_eq _ hpath] at hblock
  rw [editPath_of_child _ _ htree'.isFrame_root.pos]
  generalize ensureChild format source (links 0) m pml4 i = next at *
  obtain ⟨m', pdp⟩ := next
  dsimp only at *
  have hnot' := isBlock_of_block_eq_none hpath' hblock
  rw [ensureTable_eq hnot'] at hsecond ⊢
  obtain ⟨grown', hentered'⟩ := entered_ensureChild (links 0) hj htree' hnot' hsecond
  have htree'' := hentered'.ownedTree htree' hj hfirst
  rw [editPath_of_child _ _ htree''.isFrame_root.pos]
  generalize ensureChild format source (links 0) m' pdp j = next at *
  obtain ⟨m'', pd⟩ := next
  dsimp only at *
  rw [editPath, fillEntry]
  cases hpresent : hasFlags (m''.mem (slot pd k)) vmmPresent with
  | false => rfl
  | true =>
    have hstore : m''.mem.store (slot pd k) (m''.mem (slot pd k)) = m''.mem :=
      Function.update_eq_self _ _
    simp [hstore]

end Step

/-! ### The invariant -/

/-- The page tables are an identity map of huge pages: nothing above the PD is huge, all links are writable,
and the entry of each page in the PD is the huge page itself, for the pages that are mapped, or 0. -/
structure IdentityTree (m : Machine) (pml4 : ℕ) (mapped : Set ℕ) : Prop where
  serving : Serving format.limit m.frames
  owned : OwnedTree source m 2 pml4
  noBlock : ∀ path, IsPath 2 path → (walk format m.mem pml4 path).block format = none
  writable : Respects format (fun _ link ↦ link.testBit 1 = true) m.mem 2 pml4
  leaf_mapped : ∀ page < 2 ^ 27, page ∈ mapped →
    (walk format m.mem pml4 (indexPath 2 page)).leaf = hugeEntry page
  leaf_absent : ∀ page < 2 ^ 27, page ∉ mapped → (walk format m.mem pml4 (indexPath 2 page)).leaf = 0

theorem fillEntry_zero (page : ℕ) : fillEntry (0x200000 * page) 0 = hugeEntry page := by
  have hpresent : hasFlags 0 vmmPresent = false := by decide
  rw [fillEntry, hpresent, if_neg Bool.false_ne_true, Nat.or_assoc, Nat.or_assoc]
  rfl

theorem fillEntry_hugeEntry (addr page : ℕ) : fillEntry addr (hugeEntry page) = hugeEntry page := by
  have hpresent : hasFlags (hugeEntry page) vmmPresent = true := (Boot.hugeEntry_isBlock page).2
  rw [fillEntry, if_pos hpresent]

theorem keptByEdit_writable (edit : ℕ → ℕ) :
    KeptByEdit (links 0) edit fun _ link ↦ link.testBit 1 = true where
  touch := fun _ link h ↦ (testBit_touch 0 link 1).trans (by simp [h])
  fresh := fun _ hframe ↦ testBit_fresh_one 0 hframe
  edit_touch := fun _ link h ↦ (testBit_touch 0 link 1).trans (by simp [h])
  edit_fresh := fun _ hframe ↦ testBit_fresh_one 0 hframe

theorem hugePages_eq : fanout ^ (2 + 1) = 2 ^ 27 := by rw [fanout_eq]; norm_num

section Run

variable {m : Machine} {pml4 : ℕ} {mapped : Set ℕ}

/-- A call for one page maps it, and leaves the other pages as they are. -/
theorem IdentityTree.mapPage (h : IdentityTree m pml4 mapped) {page : ℕ} (hpage : page < 2 ^ 27)
    (hnever : NeverExhausted (mapPage pml4 m (0x200000 * page)).frames) :
    IdentityTree (X86.mapPage pml4 m (0x200000 * page)) pml4 (insert page mapped) := by
  have hpath := isPath_indexPath 2 page
  have hserving := (descends_mapPage pml4 m (0x200000 * page)).serving h.serving hnever
  have hdiv : 0x200000 * page / 0x200000 = page := Nat.mul_div_cancel_left page (by norm_num)
  have hedit := mapPage_eq h.serving h.owned (h.noBlock _ (isPath_indexPath 2 _)) hnever
  rw [hdiv] at hedit
  rw [hedit] at hserving ⊢
  obtain ⟨added, hgrown, hedited⟩ := editPath_spec source (links 0) (fillEntry (0x200000 * page)) 2 hpath
    h.owned hserving
  set after := (editPath format source (links 0) (fillEntry (0x200000 * page)) m pml4
    (indexPath 2 page)).mem
  have hself : (walk format after pml4 (indexPath 2 page)).leaf =
      fillEntry (0x200000 * page) (walk format m.mem pml4 (indexPath 2 page)).leaf := by
    rw [hedited.leaf_eq _ hpath, if_pos ⟨rfl, h.noBlock _ hpath⟩]
  have hothers : ∀ other < 2 ^ 27, other ≠ page → (walk format after pml4 (indexPath 2 other)).leaf =
      (walk format m.mem pml4 (indexPath 2 other)).leaf := by
    intro other hother hne
    rw [hedited.leaf_eq _ (isPath_indexPath 2 other), if_neg]
    rintro ⟨hsame, -⟩
    exact hne ((indexPath_inj (hugePages_eq ▸ hother) (hugePages_eq ▸ hpage)).mp hsame)
  refine ⟨hserving, hgrown.ownedTree h.owned h.serving, fun path hpath ↦ ?_,
    hedited.respects _ (keptByEdit_writable _) h.writable, fun other hother hmapped ↦ ?_,
    fun other hother habsent ↦ ?_⟩
  · rw [hedited.block_eq path hpath]
    exact h.noBlock path hpath
  · by_cases heq : other = page
    · rw [heq, hself]
      by_cases hold : page ∈ mapped
      · rw [h.leaf_mapped page hpage hold, fillEntry_hugeEntry]
      · rw [h.leaf_absent page hpage hold, fillEntry_zero]
    · rw [hothers other hother heq]
      exact h.leaf_mapped other hother (hmapped.resolve_left heq)
  · rw [Set.mem_insert_iff, not_or] at habsent
    rw [hothers other hother habsent.1]
    exact h.leaf_absent other hother habsent.2

/-- The same for a list of pages. -/
theorem IdentityTree.mapPages (pages : List ℕ) :
    ∀ {m : Machine} {mapped : Set ℕ}, IdentityTree m pml4 mapped → (∀ page ∈ pages, page < 2 ^ 27) →
      NeverExhausted (pages.foldl (fun m page ↦ X86.mapPage pml4 m (0x200000 * page)) m).frames →
        IdentityTree (pages.foldl (fun m page ↦ X86.mapPage pml4 m (0x200000 * page)) m) pml4
          (mapped ∪ {page | page ∈ pages}) := by
  induction pages with
  | nil =>
    intro m mapped h _ _
    simpa using h
  | cons page pages ih =>
    intro m mapped h hpages hnever
    obtain ⟨hpage, hpages⟩ := List.forall_mem_cons.mp hpages
    have hstep := h.mapPage hpage ((descends_mapPages pages _).neverExhausted hnever)
    have hrun := ih hstep hpages hnever
    have hset : insert page mapped ∪ {p | p ∈ pages} = mapped ∪ {p | p ∈ page :: pages} := by
      ext p
      simp only [Set.mem_union, Set.mem_insert_iff, Set.mem_ofPred_eq, List.mem_cons]
      tauto
    rwa [hset] at hrun

/-! ### Whole calls -/

/-- The arguments of `paging_identity_map`. -/
structure MapCall where
  phys : ℕ
  size : ℕ
  deriving DecidableEq, Repr

namespace MapCall

variable (call : MapCall)

/-- The huge pages of a call. -/
def pages : List ℕ :=
  List.range' (call.phys / 0x200000)
    ((call.phys + call.size + 0x1FFFFF) / 0x200000 - call.phys / 0x200000)

/-- The range of a call, rounded to huge pages. -/
def Covers (virt : ℕ) : Prop :=
  alignDown call.phys 0x200000 ≤ virt ∧ virt < alignUp (call.phys + call.size) 0x200000

variable {call}

theorem alignDown_phys (hend : call.phys + call.size ≤ 2 ^ 47) :
    alignDown call.phys 0x200000 = call.phys / 0x200000 * 0x200000 := by
  have hdown : alignDown call.phys (2 ^ 21) = call.phys / 2 ^ 21 * 2 ^ 21 :=
    alignDown_two_pow (by omega) (by omega)
  rwa [show 2 ^ 21 = 0x200000 by norm_num] at hdown

theorem alignUp_end (hend : call.phys + call.size ≤ 2 ^ 47) :
    alignUp (call.phys + call.size) 0x200000 =
      (call.phys + call.size + 0x1FFFFF) / 0x200000 * 0x200000 := by
  have hup : alignUp (call.phys + call.size) (2 ^ 21) =
      (call.phys + call.size + 2 ^ 21 - 1) / 2 ^ 21 * 2 ^ 21 :=
    alignUp_two_pow (by omega) (by omega)
  have hround : call.phys + call.size + 2 ^ 21 - 1 = call.phys + call.size + 0x1FFFFF := by omega
  rwa [hround, show 2 ^ 21 = 0x200000 by norm_num] at hup

theorem mem_pages_iff (hend : call.phys + call.size ≤ 2 ^ 47) (virt : ℕ) :
    virt / 0x200000 ∈ call.pages ↔ call.Covers virt := by
  rw [pages, List.mem_range'_1, Covers, alignDown_phys hend, alignUp_end hend]
  omega

theorem page_lt (hend : call.phys + call.size ≤ 2 ^ 47) : ∀ page ∈ call.pages, page < 2 ^ 27 := by
  intro page hpage
  rw [pages, List.mem_range'_1] at hpage
  omega

/-- A call goes through its huge pages. -/
theorem pagingIdentityMap_eq (hend : call.phys + call.size ≤ 2 ^ 47) (cr3 : ℕ) (m : Machine) :
    pagingIdentityMap cr3 m call.phys call.size =
      call.pages.foldl (fun m page ↦ mapPage (cr3 &&& addrMask) m (0x200000 * page)) m := by
  have hcount : ((call.phys + call.size + 0x1FFFFF) / 0x200000 * 0x200000 -
      call.phys / 0x200000 * 0x200000) / 0x200000 =
        (call.phys + call.size + 0x1FFFFF) / 0x200000 - call.phys / 0x200000 := by
    omega
  simp only [pagingIdentityMap]
  rw [wrap_of_lt (by omega), alignDown_phys hend, alignUp_end hend, hcount, pages, List.range'_eq_map_range,
    List.foldl_map]
  congr 1
  funext m k
  rw [Nat.mul_add, Nat.mul_comm 0x200000 (call.phys / 0x200000)]

end MapCall

/-- A sequence of calls. -/
def mapRuns (cr3 : ℕ) (m : Machine) (calls : List MapCall) : Machine :=
  calls.foldl (fun m call ↦ pagingIdentityMap cr3 m call.phys call.size) m

theorem descends_mapRuns {cr3 : ℕ} (calls : List MapCall) :
    ∀ {m : Machine}, (∀ call ∈ calls, call.phys + call.size ≤ 2 ^ 47) →
      Descends m.frames (mapRuns cr3 m calls).frames := by
  induction calls with
  | nil => exact fun _ ↦ Descends.refl _
  | cons call calls ih =>
    intro m hcalls
    obtain ⟨hcall, hcalls⟩ := List.forall_mem_cons.mp hcalls
    have hfirst : Descends m.frames (pagingIdentityMap cr3 m call.phys call.size).frames := by
      rw [MapCall.pagingIdentityMap_eq hcall]
      exact descends_mapPages call.pages m
    exact hfirst.trans (ih hcalls)

/-- A call maps its huge pages. -/
theorem IdentityTree.call (h : IdentityTree m pml4 mapped) {cr3 : ℕ} (hroot : cr3 &&& addrMask = pml4)
    {call : MapCall} (hend : call.phys + call.size ≤ 2 ^ 47)
    (hnever : NeverExhausted (pagingIdentityMap cr3 m call.phys call.size).frames) :
    IdentityTree (pagingIdentityMap cr3 m call.phys call.size) pml4
      (mapped ∪ {page | page ∈ call.pages}) := by
  rw [MapCall.pagingIdentityMap_eq hend, hroot] at hnever ⊢
  exact h.mapPages call.pages (MapCall.page_lt hend) hnever

/-- A sequence of calls maps the huge pages of all of them. -/
theorem IdentityTree.mapRuns {cr3 : ℕ} (hroot : cr3 &&& addrMask = pml4) (calls : List MapCall) :
    ∀ {m : Machine} {mapped : Set ℕ}, IdentityTree m pml4 mapped →
      (∀ call ∈ calls, call.phys + call.size ≤ 2 ^ 47) →
      NeverExhausted (X86.mapRuns cr3 m calls).frames →
        IdentityTree (X86.mapRuns cr3 m calls) pml4
          (mapped ∪ {page | ∃ call ∈ calls, page ∈ call.pages}) := by
  induction calls with
  | nil =>
    intro m mapped h _ _
    simpa [X86.mapRuns] using h
  | cons call calls ih =>
    intro m mapped h hcalls hnever
    obtain ⟨hcall, hcalls⟩ := List.forall_mem_cons.mp hcalls
    have hstep := h.call hroot hcall ((descends_mapRuns calls hcalls).neverExhausted hnever)
    have hrun := ih hstep hcalls hnever
    have hset : mapped ∪ {p | p ∈ call.pages} ∪ {p | ∃ c ∈ calls, p ∈ c.pages} =
        mapped ∪ {p | ∃ c ∈ call :: calls, p ∈ c.pages} := by
      ext p
      simp only [Set.mem_union, Set.mem_ofPred_eq, List.mem_cons, exists_eq_or_imp, or_assoc]
    rwa [hset] at hrun

/-! ### The walk of the processor -/

/-- The walk of the processor to an address ends where the walk to the PD does. -/
theorem walkTo_eq {mem : WordMemory} {virt : ℕ}
    (hentry : format.isTable (walk format mem pml4 (indexPath 2 (virt / 0x200000))).entry = false) :
    paging.walkTo mem pml4 (virt / 4096) =
      ⟨(walk format mem pml4 (indexPath 2 (virt / 0x200000))).links,
        (walk format mem pml4 (indexPath 2 (virt / 0x200000))).level + 1,
        (walk format mem pml4 (indexPath 2 (virt / 0x200000))).entry⟩ := by
  have hpage : virt / 4096 / fanout = virt / 0x200000 := by rw [fanout_eq, Nat.div_div_eq_div_mul]
  have hpath : indexPath 3 (virt / 4096) =
      indexPath 2 (virt / 0x200000) ++ [virt / 4096 % fanout] := by
    rw [indexPath_succ, hpage]
  change walk format mem pml4 (indexPath 3 (virt / 4096)) = _
  rw [hpath]
  exact walk_append _ (isPath_indexPath 2 _) hentry (Nat.mod_lt _ (by rw [fanout_eq]; norm_num))

theorem hugeEntry_address {page : ℕ} (hpage : page < 2 ^ 27) :
    hugeEntry page &&& fieldMask 21 52 = 0x200000 * page :=
  address_or_and_fieldMask (by omega) (Dvd.intro page rfl) (by omega) (by omega)

/-- In a page that is mapped, the walk of the processor ends at the huge page. -/
theorem IdentityTree.walkTo_mapped (h : IdentityTree m pml4 mapped) {virt : ℕ} (hvirt : virt < 2 ^ 48)
    (hmapped : virt / 0x200000 ∈ mapped) :
    ∃ links, paging.walkTo m.mem pml4 (virt / 4096) = ⟨links, 1, hugeEntry (virt / 0x200000)⟩ ∧
      ∀ link ∈ links, link.testBit 1 = true := by
  have hleaf := h.leaf_mapped (virt / 0x200000) (by omega) hmapped
  have hlevel : (walk format m.mem pml4 (indexPath 2 (virt / 0x200000))).level = 0 := by
    by_contra hne
    rw [Walk.leaf, if_neg hne] at hleaf
    have hpresent := testBit_hugeEntry (virt / 0x200000) (by omega : 0 < 21)
    rw [← hleaf] at hpresent
    exact absurd hpresent (by decide)
  rw [Walk.leaf, if_pos hlevel] at hleaf
  have hentry : format.isTable (walk format m.mem pml4 (indexPath 2 (virt / 0x200000))).entry = false := by
    rw [hleaf]
    exact format.isTable_of_isBlock _ (Boot.hugeEntry_isBlock _).1
  refine ⟨(walk format m.mem pml4 (indexPath 2 (virt / 0x200000))).links, ?_,
    h.writable _ (isPath_indexPath 2 _)⟩
  rw [walkTo_eq hentry, hlevel, hleaf]

/-- An address in a page that is mapped is translated to itself, and may be written by the kernel. -/
theorem IdentityTree.hardwareWalk_mapped (h : IdentityTree m pml4 mapped) {virt : ℕ}
    (hvirt : virt < 2 ^ 48) (hmapped : virt / 0x200000 ∈ mapped) :
    hardwareWalk m.mem pml4 virt = some ⟨virt, ⟨false, true⟩⟩ := by
  obtain ⟨links, hwalk, hwritable⟩ := h.walkTo_mapped hvirt hmapped
  have hbit : ∀ i < 8, (hugeEntry (virt / 0x200000)).testBit i = (0b10000011 : ℕ).testBit i :=
    fun i hi ↦ testBit_hugeEntry _ (by omega)
  have huser : (hugeEntry (virt / 0x200000)).testBit 2 = false := hbit 2 (by omega)
  have hgranted : permissions ⟨links, 1, hugeEntry (virt / 0x200000)⟩ = some ⟨false, true⟩ := by
    rw [permissions_of_links (hbit 0 (by omega)) hwritable
      fun htrue ↦ absurd (huser.symm.trans htrue) Bool.false_ne_true]
    rw [huser, hbit 1 (by omega)]
    rfl
  have hsplit : 0x200000 * (virt / 0x200000) + virt % 2 ^ 21 = virt := by omega
  simp only [hardwareWalk, hwalk, hgranted, Option.bind_some]
  rw [hugeEntry_address (by omega), hsplit]

/-- An address in another page is not mapped. -/
theorem IdentityTree.hardwareWalk_absent (h : IdentityTree m pml4 mapped) {virt : ℕ}
    (hvirt : virt < 2 ^ 48) (habsent : virt / 0x200000 ∉ mapped) :
    hardwareWalk m.mem pml4 virt = none := by
  have hpath := isPath_indexPath 2 (virt / 0x200000)
  have hleaf := h.leaf_absent (virt / 0x200000) (by omega) habsent
  have hblock := h.noBlock _ hpath
  have hwalk := @walkTo_eq pml4 m.mem virt
  have hstop := @isTable_entry_walk format _ m.mem 2 pml4 hpath
  generalize walk format m.mem pml4 (indexPath 2 (virt / 0x200000)) = w at hleaf hblock hwalk hstop
  have hzero : hasFlags w.leaf vmmPresent = false := by
    rw [hleaf]
    decide
  have hnone := permissions_of_absent hzero hblock hstop
  have hentry : format.isTable w.entry = false := by
    by_cases hlevel : w.level = 0
    · rw [Walk.leaf, if_pos hlevel] at hleaf
      rw [hleaf]
      exact isTable_zero
    · exact hstop hlevel
  have hnone' : permissions ⟨w.links, w.level + 1, w.entry⟩ = none := hnone
  rw [hardwareWalk, hwalk hentry, hnone', Option.bind_none]

end Run

/-! ### From boot -/

namespace Boot

variable (boot : Boot)

/-- The entries of the PD at boot. -/
theorem leaf_memory_pd {page : ℕ} (hpage : page < 2 ^ 27) :
    (walk format boot.memory boot.pml4Table (indexPath 2 page)).leaf =
      if page < 512 then hugeEntry page else 0 := by
  have hpath := isPath_indexPath 2 page
  simp only [indexPath, fanout_eq] at hpath ⊢
  rw [boot.walk_memory_pd hpath]
  by_cases hlow : page < 512
  · rw [if_pos hlow, if_pos (by omega), if_pos (by omega), Nat.mod_eq_of_lt hlow]
    rfl
  · rw [if_neg hlow]
    split_ifs
    · omega
    · rfl
    · rfl

/-- The boot tables own their frames, with the entries of the PD for leaves. -/
theorem ownedTree_pd : OwnedTree source boot.spaces.machine 2 boot.pml4Table where
  toTreeAt := by
    rw [boot.mem_spaces]
    exact boot.treeAt_memory 0
  not_available := fun t ht ↦ by
    have hkernel : boot.spaces.root .kernel = some boot.pml4Table :=
      congrArg some boot.kernelRoot_spaces
    rw [boot.mem_spaces] at ht
    refine (boot.wellFormed.owned .kernel _ hkernel).not_available t ?_
    rw [boot.mem_spaces]
    exact (boot.tables_memory_perm 1).mem_iff.mpr ((boot.tables_memory_perm 0).mem_iff.mp ht)

/-- The boot tables are an identity map of the first gigabyte. -/
theorem identityTree : IdentityTree boot.spaces.machine boot.pml4Table {page | page < 512} := by
  have hlink : ∀ frame, IsFrame format.limit frame → (frame ||| 0b11).testBit 1 = true := by
    intro frame hframe
    rw [testBit_or_of_aligned (show 2 ^ 12 ∣ frame from hframe.aligned) _ (by omega)]
    decide
  refine ⟨boot.wellFormed.serving, boot.ownedTree_pd, fun path hpath ↦ ?_, fun path hpath link hmem ↦ ?_,
    fun page hpage hmapped ↦ ?_, fun page hpage habsent ↦ ?_⟩
  · obtain ⟨i, _, rfl, -, hrest⟩ := hpath.exists_cons
    obtain ⟨j, _, rfl, -, hrest⟩ := hrest.exists_cons
    obtain ⟨k, rfl, -⟩ := hrest.exists_singleton
    rw [boot.mem_spaces, boot.walk_memory_pd hpath]
    split_ifs
    · simp [Walk.block]
    · simp [Walk.block, format.isBlock_zero]
    · simp [Walk.block, format.isBlock_zero]
  · obtain ⟨i, _, rfl, -, hrest⟩ := hpath.exists_cons
    obtain ⟨j, _, rfl, -, hrest⟩ := hrest.exists_cons
    obtain ⟨k, rfl, -⟩ := hrest.exists_singleton
    rw [boot.mem_spaces, boot.walk_memory_pd hpath] at hmem
    split_ifs at hmem
    · rcases List.mem_pair.mp hmem with rfl | rfl
      · exact hlink _ boot.isFrame_pdp
      · exact hlink _ boot.isFrame_pd
    · rw [List.mem_singleton.mp hmem]
      exact hlink _ boot.isFrame_pdp
    · exact absurd hmem List.not_mem_nil
  · rw [boot.mem_spaces, boot.leaf_memory_pd hpage]
    exact if_pos hmapped
  · rw [boot.mem_spaces, boot.leaf_memory_pd hpage]
    exact if_neg habsent

/-- The machine after a sequence of calls of `paging_identity_map` on the boot tables. -/
def afterCalls (calls : List MapCall) : Machine := mapRuns boot.pml4Table boot.spaces.machine calls

/-- The pages that are mapped after a sequence of calls. -/
def mappedPages (calls : List MapCall) : Set ℕ :=
  {page | page < 512} ∪ {page | ∃ call ∈ calls, page ∈ call.pages}

variable {boot}

theorem identityTree_afterCalls {calls : List MapCall}
    (hcalls : ∀ call ∈ calls, call.phys + call.size ≤ 2 ^ 47)
    (hnever : NeverExhausted (boot.afterCalls calls).frames) :
    IdentityTree (boot.afterCalls calls) boot.pml4Table (mappedPages calls) :=
  boot.identityTree.mapRuns boot.pml4_and_addrMask calls hcalls hnever

/-- An allocator that is not exhausted later was not exhausted before. -/
theorem neverExhausted_afterCalls {before after : List MapCall}
    (hcalls : ∀ call ∈ after, call.phys + call.size ≤ 2 ^ 47)
    (hnever : NeverExhausted (boot.afterCalls (before ++ after)).frames) :
    NeverExhausted (boot.afterCalls before).frames := by
  rw [afterCalls, mapRuns, List.foldl_append] at hnever
  exact (descends_mapRuns after hcalls).neverExhausted hnever

end Boot

/-- From the boot tables, after every sequence of calls of `paging_identity_map` whose ranges end at `2 ^ 47`
at the latest, and an allocator that is never exhausted: every address of every range is translated to
itself and may be written; and for each call, an address that was mapped before it has the same translation
and the same permissions after it, and an address outside its range, rounded to huge pages, that was not
mapped before it is not mapped after it. -/
theorem identityMap_exact (boot : Boot) (calls : List MapCall)
    (hcalls : ∀ call ∈ calls, call.phys + call.size ≤ 2 ^ 47)
    (hnever : NeverExhausted (boot.afterCalls calls).frames) :
    (∀ call ∈ calls, ∀ a, call.phys ≤ a → a < call.phys + call.size →
      ∃ granted, hardwareWalk (boot.afterCalls calls).mem boot.pml4Table a = some ⟨a, granted⟩ ∧
        granted.writable = true) ∧
    ∀ before call after, calls = before ++ call :: after → ∀ virt < 2 ^ 48,
      (∀ access, hardwareWalk (boot.afterCalls before).mem boot.pml4Table virt = some access →
        hardwareWalk (boot.afterCalls (before ++ [call])).mem boot.pml4Table virt = some access) ∧
      (hardwareWalk (boot.afterCalls before).mem boot.pml4Table virt = none → ¬ call.Covers virt →
        hardwareWalk (boot.afterCalls (before ++ [call])).mem boot.pml4Table virt = none) := by
  refine ⟨fun call hcall a hlow hhigh ↦ ?_, ?_⟩
  · have hend := hcalls call hcall
    have hcovers : call.Covers a := by
      rw [MapCall.Covers, MapCall.alignDown_phys hend, MapCall.alignUp_end hend]
      omega
    have hmapped : a / 0x200000 ∈ Boot.mappedPages calls :=
      Or.inr ⟨call, hcall, (MapCall.mem_pages_iff hend a).mpr hcovers⟩
    exact ⟨⟨false, true⟩, (Boot.identityTree_afterCalls hcalls hnever).hardwareWalk_mapped (by omega)
      hmapped, rfl⟩
  · rintro before call after rfl virt hvirt
    have hend := hcalls call (by simp)
    rw [List.append_cons] at hcalls hnever
    obtain ⟨hcalls, hlater⟩ := List.forall_mem_append.mp hcalls
    have hthrough := Boot.neverExhausted_afterCalls hlater hnever
    obtain ⟨hearlier, hcall⟩ := List.forall_mem_append.mp hcalls
    have hbefore := Boot.identityTree_afterCalls hearlier (Boot.neverExhausted_afterCalls hcall hthrough)
    have hafter := Boot.identityTree_afterCalls hcalls hthrough
    by_cases hmapped : virt / 0x200000 ∈ Boot.mappedPages before
    · have hkept : virt / 0x200000 ∈ Boot.mappedPages (before ++ [call]) :=
        hmapped.imp_right fun ⟨c, hc, hpage⟩ ↦ ⟨c, by simp [hc], hpage⟩
      rw [hbefore.hardwareWalk_mapped hvirt hmapped, hafter.hardwareWalk_mapped hvirt hkept]
      exact ⟨fun _ ↦ id, fun hnone ↦ absurd hnone (by simp)⟩
    · rw [hbefore.hardwareWalk_absent hvirt hmapped]
      refine ⟨fun access hsome ↦ absurd hsome (by simp), fun _ houtside ↦ ?_⟩
      refine hafter.hardwareWalk_absent hvirt ?_
      rintro (hlow | ⟨c, hc, hpage⟩)
      · exact hmapped (Or.inl hlow)
      · rcases List.mem_append.mp hc with hold | hnew
        · exact hmapped (Or.inr ⟨c, hold, hpage⟩)
        · rw [List.mem_singleton.mp hnew, MapCall.mem_pages_iff hend] at hpage
          exact houtside hpage

/-- A framebuffer of 3 MiB at `0xFD000000`: its last byte can be written. -/
theorem identityMap_exact_framebuffer :
    ∃ granted, hardwareWalk (Boot.sample.afterCalls [⟨0xFD000000, 0x300000⟩]).mem Boot.sample.pml4Table
        0xFD2FFFFF = some ⟨0xFD2FFFFF, granted⟩ ∧ granted.writable = true :=
  (identityMap_exact Boot.sample [⟨0xFD000000, 0x300000⟩] (by decide) (by decide +kernel)).1 _
    (List.mem_singleton.mpr rfl) _ (by decide) (by decide)

end MegKer.Vmm.X86
