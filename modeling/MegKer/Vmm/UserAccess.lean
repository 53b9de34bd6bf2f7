import MegKer.Vmm.BackendAgreement
import MegKer.Vmm.EffectivePermissions
import MegKer.Vmm.TableReclamation

/-!
# What user mode can reach

Two facts about the address spaces of both ports that do not depend on how their pages are mapped.
The blocks of every space are those of the boot tables, whatever is mapped and unmapped
(`Port.hasBlocks_runs`). And a page whose entry `vmm_map` has written is open to user mode, and
writable, as its flags ask (`Port.permissions_edit`): on x86_64 all links on the way have to agree,
on aarch64 the entry of the last level decides, because the links restrict nothing.
-/

set_option autoImplicit false
set_option relaxedAutoImplicit false

namespace MegKer.Vmm

open Foundation Memory

/-! ### Blocks -/

section Blocks

variable {backend : Backend} (paging : Paging backend) (blocks : ℕ → Option ℕ)

/-- Every space has the given blocks. -/
def HasBlocks (s : Spaces) : Prop :=
  ∀ space root, s.root space = some root → ∀ page < paging.pages,
    (paging.walkTo s.machine.mem root page).block paging.format = blocks page

variable {paging blocks} {reserved : Finset ℕ} {s : Spaces}

/-- One step changes no block. -/
theorem hasBlocks_run
    (hblocks : ∀ page entry, blocks page = some entry → paging.format.isPresent entry = true)
    (hwell : WellFormed paging reserved s) (h : HasBlocks paging blocks s) {call : VmmCall}
    (hproper : call.Proper paging s)
    (hnever : NeverExhausted (call.run backend s).machine.frames) :
    HasBlocks paging blocks (call.run backend s) := by
  intro space root hroot page hpage
  obtain hbefore | ⟨rfl, rfl, rfl⟩ := root_run_cases hroot
  · have hspace := h space root hbefore page hpage
    rcases survivor_cases hwell hproper hnever hbefore hroot with
      ⟨virt, phys, flags, rfl⟩ | ⟨virt, rfl⟩ | huntouched
    · rw [VmmCall.run, Spaces.onRoot_eq hbefore] at hnever ⊢
      exact ((hwell.map_spec hbefore hnever).2.block_eq _ (isPath_indexPath _ page)).trans hspace
    · rw [VmmCall.run, Spaces.onRoot_eq hbefore]
      exact ((hwell.unmap_spec hbefore virt).2.block_eq _ (isPath_indexPath _ page)).trans hspace
    · rw [Paging.walkTo_congr huntouched hbefore]
      exact hspace
  · have hkernel := h .kernel s.kernelRoot rfl page hpage
    have hcopy := (hwell.create_spec hnever).copied _ (isPath_indexPath paging.depth page)
    refine (hcopy.block_eq fun entry hentry ↦ ?_).trans hkernel
    exact hblocks page entry (hkernel.symm.trans hentry)

/-- No run changes a block. -/
theorem hasBlocks_runs {ok : VmmCall → Prop}
    (hblocks : ∀ page entry, blocks page = some entry → paging.format.isPresent entry = true)
    (calls : List VmmCall) :
    ∀ {s : Spaces}, WellFormed paging reserved s → HasBlocks paging blocks s →
      Permitted paging ok s calls → NeverExhausted (runs backend s calls).machine.frames →
        HasBlocks paging blocks (runs backend s calls) :=
  invariant_runs (fun hwell h hproper hnever ↦ hasBlocks_run hblocks hwell h hproper hnever) calls

end Blocks

/-- A walk whose leaf is present has reached the last level. -/
theorem entry_eq_of_leaf (format : TableFormat) {w : Walk} {entry : ℕ} (hleaf : w.leaf = entry)
    (hpresent : format.isPresent entry = true) : w.entry = entry := by
  by_cases hlevel : w.level = 0
  · rw [← hleaf]
    exact (if_pos hlevel).symm
  · rw [Walk.leaf, if_neg hlevel] at hleaf
    rw [← hleaf, format.isPresent_zero] at hpresent
    exact absurd hpresent Bool.false_ne_true

/-! ### aarch64 -/

namespace AArch64

/-- Bit 61 of a link, which closes what lies behind it to user mode. -/
def apTableNoEl0 : ℕ := 1 <<< 61

/-- Bit 62 of a link, which makes what lies behind it read-only. -/
def apTableReadOnly : ℕ := 1 <<< 62

/-- The permissions at the end of a walk. The AP field of the last entry decides: its lower bit opens
the page to user mode, its upper bit makes it read-only; a link can restrict both. -/
def permissions (w : Walk) : Option X86.Permissions :=
  if hasFlags w.entry pteValid then
    some
      { user := hasFlags w.entry (1 <<< 6) && w.links.all fun link ↦ !hasFlags link apTableNoEl0
        writable := !hasFlags w.entry (1 <<< 7) &&
          w.links.all fun link ↦ !hasFlags link apTableReadOnly }
  else none

/-- Links that restrict nothing. -/
def LinksPlain (_leaf link : ℕ) : Prop := link < 2 ^ 61

theorem link_lt {frame : ℕ} (hframe : IsFrame format.limit frame) :
    frame ||| pteValid ||| pteTable < 2 ^ 61 := by
  have hlt : frame < 2 ^ 48 := hframe.lt_limit
  refine Nat.or_lt_two_pow (Nat.or_lt_two_pow (by omega) (by decide)) (by decide)

/-- The calls of the aarch64 manager make no other links. -/
theorem keptByCalls_linksPlain : KeptByCalls paging LinksPlain where
  create := fun leaf link frame hframe _ ↦ by
    change (frame &&& addrMask) ||| pteValid ||| pteTable < 2 ^ 61
    rw [addrMask_eq, and_fieldMask_of_aligned (by omega) hframe.aligned hframe.lt_limit]
    exact link_lt hframe
  map := fun _ _ ↦
    { touch := fun _ _ h ↦ h
      fresh := fun _ hframe ↦ link_lt hframe
      edit_touch := fun _ _ h ↦ h
      edit_fresh := fun _ hframe ↦ link_lt hframe }
  unmap :=
    { touch := fun _ _ h ↦ h
      fresh := fun _ hframe ↦ link_lt hframe
      edit_touch := fun _ _ h ↦ h
      edit_fresh := fun _ hframe ↦ link_lt hframe }

/-- The boot table has no links. -/
theorem Boot.allRespect_linksPlain (boot : Boot) : AllRespect paging LinksPlain boot.spaces := by
  intro space root hroot
  cases space with
  | user n => exact absurd hroot (by simp [Boot.spaces, bootSpaces, Spaces.root])
  | kernel =>
    rw [← Option.some.inj hroot, boot.kernelRoot_spaces, boot.mem_spaces]
    intro path (hpath : IsPath 2 path) link hmem
    obtain ⟨i, _, rfl, -, hrest⟩ := hpath.exists_cons
    obtain ⟨j, _, rfl, -, hrest⟩ := hrest.exists_cons
    obtain ⟨k, rfl, -⟩ := hrest.exists_singleton
    change link ∈ (walk format boot.memory boot.bootL1Table [i, j, k]).links at hmem
    rw [boot.walk_memory hpath] at hmem
    exact absurd hmem List.not_mem_nil

/-- The AP field of a page entry follows the flags of the mapping. -/
theorem testBit_leafFlags (flags : ℕ) :
    (leafFlags flags).testBit 6 = hasFlags flags vmmUser ∧
      (leafFlags flags).testBit 7 = !hasFlags flags vmmWritable := by
  unfold leafFlags
  dsimp only
  split_ifs with huser hwritable hwritable
  · rw [huser, hwritable]
    decide
  · rw [Bool.not_eq_true] at hwritable
    rw [huser, hwritable]
    decide
  · rw [Bool.not_eq_true] at huser
    rw [huser, hwritable]
    decide
  · rw [Bool.not_eq_true] at huser hwritable
    rw [huser, hwritable]
    decide

/-- The permissions of a page that was mapped are those that were asked for. -/
theorem permissions_of_leaf {w : Walk} {phys flags : ℕ} (hleaf : w.leaf = pageEntry phys flags)
    (hlinks : ∀ link ∈ w.links, LinksPlain w.leaf link) :
    permissions w = some (X86.requested flags) := by
  have hvalid : hasFlags (pageEntry phys flags) pteValid = true := by
    rw [hasFlags_pteValid]
    exact testBit_pageEntry_zero phys flags
  have hbit : ∀ i < 12, (pageEntry phys flags).testBit i = (leafFlags flags).testBit i := by
    intro i hi
    rw [pageEntry, addrMask_eq,
      testBit_or_of_aligned (two_pow_dvd_and_fieldMask (by omega) phys) _ hi]
  have hplain : ∀ k, 61 ≤ k → w.links.all (fun link ↦ !hasFlags link (1 <<< k)) = true := by
    intro k hk
    refine List.all_eq_true.mpr fun link hlink ↦ ?_
    have hlt : link < 2 ^ k :=
      lt_of_lt_of_le (hlinks link hlink) (Nat.pow_le_pow_right (by omega) hk)
    rw [Nat.one_shiftLeft, hasFlags_two_pow, Nat.testBit_lt_two_pow hlt]
    rfl
  have hentry : w.entry = pageEntry phys flags := entry_eq_of_leaf format hleaf hvalid
  rw [permissions, hentry, if_pos hvalid, apTableNoEl0, apTableReadOnly, hplain 61 le_rfl,
    hplain 62 (by omega), Nat.one_shiftLeft, Nat.one_shiftLeft, hasFlags_two_pow, hasFlags_two_pow,
    hbit 6 (by omega), hbit 7 (by omega), (testBit_leafFlags flags).1, (testBit_leafFlags flags).2,
    Bool.and_true, Bool.and_true, Bool.not_not]
  rfl

end AArch64

/-! ### Both ports -/

namespace Port

variable (port : Port)

/-- The permissions at the end of a walk. -/
def permissions : Port → Walk → Option X86.Permissions
  | x86 _ => X86.permissions
  | aarch64 _ => AArch64.permissions

/-- The pages of the boot identity map. -/
def identityPages : Port → ℕ
  | x86 _ => 0x40000
  | aarch64 _ => 0x80000

/-- The bits of a virtual address that the tables translate. -/
def vaBits : Port → ℕ
  | x86 _ => 48
  | aarch64 _ => 39

theorem size_pages : 4096 * port.paging.pages = 2 ^ port.vaBits := by
  cases port with
  | x86 boot =>
    change 4096 * fanout ^ 4 = 2 ^ 48
    rw [fanout_eq]
    norm_num
  | aarch64 boot =>
    change 4096 * fanout ^ 3 = 2 ^ 39
    rw [fanout_eq]
    norm_num

theorem vaBits_le : 2 ^ port.vaBits ≤ 2 ^ 48 := by
  cases port with
  | x86 boot => exact le_rfl
  | aarch64 boot => exact Nat.pow_le_pow_right (by norm_num) (by decide : 39 ≤ 48)

/-- The blocks of the boot tables. -/
def blocks : Port → ℕ → Option ℕ
  | x86 _ => X86.hugeLeaf
  | aarch64 _ => AArch64.bootBlock

theorem isPresent_blocks (page entry : ℕ) (hentry : port.blocks page = some entry) :
    port.paging.format.isPresent entry = true := by
  cases port with
  | x86 boot => exact X86.isPresent_hugeLeaf page entry hentry
  | aarch64 boot => exact AArch64.isPresent_bootBlock page entry hentry

/-- The blocks cover the identity map, and nothing else. -/
theorem blocks_eq_none_iff (page : ℕ) : port.blocks page = none ↔ port.identityPages ≤ page := by
  cases port with
  | x86 boot =>
    change X86.hugeLeaf page = none ↔ 0x40000 ≤ page
    unfold X86.hugeLeaf X86.identityMapped
    by_cases hlow : page < 0x40000
    · simp [hlow]
    · simp [hlow, Nat.not_lt.mp hlow]
  | aarch64 boot =>
    change AArch64.bootBlock page = none ↔ 0x80000 ≤ page
    unfold AArch64.bootBlock
    split_ifs with hdevice hmemory
    · simp only [false_iff]
      omega
    · simp only [false_iff]
      omega
    · simp only [true_iff]
      omega

theorem hasBlocks_spaces : HasBlocks port.paging port.blocks port.spaces := by
  intro space root hroot page hpage
  cases port with
  | x86 boot =>
    cases space with
    | user n => exact absurd hroot (by simp [Port.spaces, X86.Boot.spaces, bootSpaces, Spaces.root])
    | kernel =>
      have hroot : some boot.spaces.kernelRoot = some root := hroot
      change (X86.paging.walkTo boot.spaces.machine.mem root page).block X86.format = _
      rw [← Option.some.inj hroot, boot.kernelRoot_spaces, boot.mem_spaces]
      exact (boot.walkTo_memory hpage).2
  | aarch64 boot =>
    cases space with
    | user n =>
      exact absurd hroot (by simp [Port.spaces, AArch64.Boot.spaces, bootSpaces, Spaces.root])
    | kernel =>
      have hroot : some boot.spaces.kernelRoot = some root := hroot
      change (AArch64.paging.walkTo boot.spaces.machine.mem root page).block AArch64.format = _
      rw [← Option.some.inj hroot, boot.kernelRoot_spaces, boot.mem_spaces]
      exact (boot.walkTo_memory hpage).2

section Runs

variable {port} {ok : VmmCall → Prop} {calls : List VmmCall}

/-- After every run, the blocks of every space are those of the boot tables. -/
theorem hasBlocks_runs (hcalls : Permitted port.paging ok port.spaces calls)
    (hnever : NeverExhausted (runs port.backend port.spaces calls).machine.frames) :
    HasBlocks port.paging port.blocks (runs port.backend port.spaces calls) :=
  Vmm.hasBlocks_runs port.isPresent_blocks calls port.wellFormed port.hasBlocks_spaces hcalls hnever

/-- After every run, the permissions of a page that shows a mapping are those that were asked for. -/
theorem permissions_edit (hcalls : Permitted port.paging ok port.spaces calls)
    (hnever : NeverExhausted (runs port.backend port.spaces calls).machine.frames) {space : Handle}
    {root page phys flags old : ℕ}
    (hroot : (runs port.backend port.spaces calls).root space = some root)
    (hleaf : (port.paging.walkTo (runs port.backend port.spaces calls).machine.mem root page).leaf =
      port.paging.edit phys flags old) (hflags : hasFlags flags presentFlag = true) :
    port.permissions (port.paging.walkTo (runs port.backend port.spaces calls).machine.mem root page) =
      some (X86.requested flags) := by
  cases port with
  | x86 boot =>
    have hrespect : AllRespect X86.paging X86.LinksAdmit (runs X86.backend boot.spaces calls) :=
      allRespect_runs X86.keptByCalls_linksAdmit calls boot.wellFormed boot.allRespect_linksAdmit
        hcalls hnever
    have hlinks : ∀ link ∈ (walk X86.format (runs X86.backend boot.spaces calls).machine.mem root
        (indexPath 3 page)).links, X86.LinksAdmit (walk X86.format
          (runs X86.backend boot.spaces calls).machine.mem root (indexPath 3 page)).leaf link :=
      hrespect space root hroot _ (isPath_indexPath 3 page)
    have hleaf : (walk X86.format (runs X86.backend boot.spaces calls).machine.mem root
        (indexPath 3 page)).leaf = X86.pageEntry phys flags := hleaf
    change X86.permissions (walk X86.format (runs X86.backend boot.spaces calls).machine.mem root
      (indexPath 3 page)) = _
    generalize walk X86.format (runs X86.backend boot.spaces calls).machine.mem root
      (indexPath 3 page) = w at hlinks hleaf ⊢
    have hbit : ∀ i < 3, (X86.pageEntry phys flags).testBit i = flags.testBit i :=
      fun i hi ↦ X86.testBit_pageEntry phys flags hi
    have hpresent : (X86.pageEntry phys flags).testBit 0 = true := by
      rw [hbit 0 (by omega), ← X86.hasFlags_vmmPresent]
      exact hflags
    have hentry : w.entry = X86.pageEntry phys flags :=
      entry_eq_of_leaf X86.format hleaf
        (by rw [← X86.hasFlags_vmmPresent] at hpresent; exact hpresent)
    rw [hleaf] at hlinks
    rw [← hentry] at hbit hpresent hlinks
    rw [X86.permissions_of_links hpresent (fun link hlink ↦ (hlinks link hlink).writable)
      (fun huser link hlink ↦ (hlinks link hlink).user hpresent huser), hbit 1 (by omega),
      hbit 2 (by omega), X86.requested, X86.hasFlags_vmmUser, X86.hasFlags_vmmWritable]
  | aarch64 boot =>
    have hrespect : AllRespect AArch64.paging AArch64.LinksPlain
        (runs AArch64.backend boot.spaces calls) :=
      allRespect_runs AArch64.keptByCalls_linksPlain calls boot.wellFormed
        boot.allRespect_linksPlain hcalls hnever
    have hedit : AArch64.mapEdit phys flags old = AArch64.pageEntry phys flags := by
      have hpresent : hasFlags flags AArch64.vmmPresent = true := hflags
      rw [AArch64.mapEdit, if_pos hpresent]
    refine AArch64.permissions_of_leaf (hleaf.trans hedit) ?_
    exact hrespect space root hroot _ (isPath_indexPath 2 page)

/-- A state that the kernel can be in: it is reached from the boot by steps that keep to the rules,
and no request for a frame of a table has failed. -/
def Reachable (port : Port) (s : Spaces) : Prop :=
  ∃ calls, Permitted port.paging (fun _ ↦ True) port.spaces calls ∧
    NeverExhausted s.machine.frames ∧ runs port.backend port.spaces calls = s

theorem reachable_spaces (port : Port) : port.Reachable port.spaces :=
  ⟨[], trivial, port.wellFormed.serving.neverExhausted, rfl⟩

theorem Reachable.wellFormed {s : Spaces} (h : port.Reachable s) :
    WellFormed port.paging port.reserved s := by
  obtain ⟨calls, hcalls, hnever, rfl⟩ := h
  exact wellFormed_runs calls port.wellFormed hcalls hnever

theorem Reachable.hasBlocks {s : Spaces} (h : port.Reachable s) :
    HasBlocks port.paging port.blocks s := by
  obtain ⟨calls, hcalls, hnever, rfl⟩ := h
  exact hasBlocks_runs hcalls hnever

end Runs

end Port

end MegKer.Vmm
