import MegKer.Vmm.PageMapRefinement

/-!
# The two managers agree

The aarch64 manager refines the same abstract page maps as the x86_64 one. The tables have three
levels instead of four, and the blocks of its boot table are two of a gigabyte each; off these blocks
nothing of the difference is seen. So on addresses that neither boot table maps, the two managers
answer alike, whatever the rest of each kernel does in between.
-/

set_option autoImplicit false
set_option relaxedAutoImplicit false

namespace MegKer.Vmm

open Foundation Memory

/-! ### The aarch64 manager refines page maps -/

namespace AArch64

/-- The block that covers a page: devices, then memory. -/
def bootBlock (page : ℕ) : Option ℕ :=
  if page < 0x40000 then some deviceBlock
  else if page < 0x80000 then some memoryBlock
  else none

/-- The pages of the boot identity map, `[0, 2 GiB)`. -/
def identityMapped (page : ℕ) : Bool := page < 0x80000

theorem coveredBy_bootBlock : coveredBy bootBlock = identityMapped := by
  funext page
  unfold coveredBy bootBlock identityMapped
  split_ifs with hdevice hmemory
  · rw [Option.isSome_some, eq_comm, decide_eq_true_eq]
    omega
  · simp [hmemory]
  · simp [hmemory]

theorem isPresent_bootBlock (page entry : ℕ) (hentry : bootBlock page = some entry) :
    format.isPresent entry = true := by
  unfold bootBlock at hentry
  split_ifs at hentry
  · rw [← Option.some.inj hentry]
    decide
  · rw [← Option.some.inj hentry]
    decide

theorem page_lt {virt : ℕ} (hvirt : virt < 2 ^ 39) : virt / 4096 < paging.pages := by
  change virt / 4096 < fanout ^ 3
  rw [fanout_eq]
  omega

/-- At boot, a walk finds no leaf, and it finds the two blocks. -/
theorem Boot.walkTo_memory (boot : Boot) {page : ℕ} (hpage : page < paging.pages) :
    (paging.walkTo boot.memory boot.bootL1Table page).leaf = 0 ∧
    (paging.walkTo boot.memory boot.bootL1Table page).block format = bootBlock page := by
  have hpages : paging.pages = 2 ^ 27 := by
    change fanout ^ 3 = _
    rw [fanout_eq]
    norm_num
  rw [hpages] at hpage
  have hpath : indexPath 2 page = [page / fanout ^ 2 % fanout, page / fanout ^ 1 % fanout,
      page % fanout] := rfl
  have hwalk : paging.walkTo boot.memory boot.bootL1Table page = _ :=
    (congrArg (walk format boot.memory boot.bootL1Table) hpath).trans
      (boot.walk_memory (hpath ▸ isPath_indexPath 2 page))
  have hdevice : format.isBlock deviceBlock = true := by decide
  have hmemory : format.isBlock memoryBlock = true := by decide
  rw [hwalk]
  simp only [fanout_eq]
  refine ⟨rfl, ?_⟩
  unfold bootBlock Walk.block
  by_cases hlow : page < 0x40000
  · have hindex : page / 512 ^ 2 % 512 = 0 := by omega
    rw [if_pos hlow, if_pos hindex]
    exact if_pos ⟨by decide, hdevice⟩
  · by_cases hmiddle : page < 0x80000
    · have hindex : page / 512 ^ 2 % 512 = 1 := by omega
      rw [if_neg hlow, if_pos hmiddle, hindex]
      exact if_pos ⟨by decide, hmemory⟩
    · have hfirst : page / 512 ^ 2 % 512 ≠ 0 := by omega
      have hsecond : page / 512 ^ 2 % 512 ≠ 1 := by omega
      rw [if_neg hlow, if_neg hmiddle, if_neg hfirst, if_neg hsecond]
      exact if_neg fun h ↦ absurd h.2 (by simp [format.isBlock_zero])

/-- The boot table represents the abstract maps at boot. -/
theorem Boot.represents (boot : Boot) (admitted : Mapping → Prop) :
    Represents paging admitted bootBlock boot.spaces PageMaps.boot := by
  refine ⟨rfl, fun space ↦ ?_⟩
  cases space with
  | user n => exact Option.Rel.none
  | kernel =>
    refine Option.Rel.some ⟨fun page hpage ↦ ?_, fun page hpage ↦ ?_⟩
    · rw [boot.kernelRoot_spaces, boot.mem_spaces, (boot.walkTo_memory hpage).1]
      exact LeafShows.absent format.isPresent_zero
    · rw [boot.kernelRoot_spaces, boot.mem_spaces]
      exact (boot.walkTo_memory hpage).2

/-- Every run from the boot table is a run of the abstract maps. -/
theorem Boot.represents_runs (boot : Boot) {admitted : Mapping → Prop}
    (hadmitted : ∀ mapping, admitted mapping → hasFlags mapping.flags presentFlag = true)
    {calls : List VmmCall}
    (hcalls : Permitted paging (MapsOnly admitted (· < 2 ^ 39)) boot.spaces calls)
    (hnever : NeverExhausted (runs backend boot.spaces calls).machine.frames) :
    Represents paging admitted bootBlock (runs backend boot.spaces calls)
      (PageMaps.boot.run identityMapped calls) := by
  have hruns := Vmm.represents_runs (fun virt hvirt ↦ page_lt hvirt) hadmitted isPresent_bootBlock
    calls boot.wellFormed (boot.represents admitted) hcalls hnever
  rwa [coveredBy_bootBlock] at hruns

end AArch64

/-! ### Agreement -/

/-- The mappings that both managers can hold: present, and to a page-aligned, nonzero physical
address below `2 ^ 48`. -/
structure SharedMapping (mapping : Mapping) : Prop where
  present : hasFlags mapping.flags presentFlag = true
  aligned : 4096 ∣ mapping.phys
  pos : 0 < mapping.phys
  lt_limit : mapping.phys < 2 ^ 48

/-- The virtual addresses that both managers can map, and that neither boot table maps:
`[2 GiB, 2 ^ 39)`. -/
def SharedRange (virt : ℕ) : Prop := 2 ^ 31 ≤ virt ∧ virt < 2 ^ 39

/-- Let the two kernels make the same calls to their managers, with shared mappings and addresses,
each in its own surroundings (other calls to the frame allocator, and writes to memory), and let no
allocator be exhausted. Then the same spaces exist, and every shared address is translated to the
same physical address. -/
theorem vmmTranslate_agree (x86 : X86.Boot) (aarch64 : AArch64.Boot) (calls calls' : List VmmCall)
    (hsame : calls.filter VmmCall.ofManager = calls'.filter VmmCall.ofManager)
    (hcalls : Permitted X86.paging (MapsOnly SharedMapping SharedRange) x86.spaces calls)
    (hcalls' : Permitted AArch64.paging (MapsOnly SharedMapping SharedRange) aarch64.spaces calls')
    (hnever : NeverExhausted (runs X86.backend x86.spaces calls).machine.frames)
    (hnever' : NeverExhausted (runs AArch64.backend aarch64.spaces calls').machine.frames) :
    let s := runs X86.backend x86.spaces calls
    let s' := runs AArch64.backend aarch64.spaces calls'
    (∀ space, s.root space = none ↔ s'.root space = none) ∧
    ∀ space root root', s.root space = some root → s'.root space = some root' →
      ∀ virt, SharedRange virt →
        X86.vmmTranslate s.machine root virt = AArch64.vmmTranslate s'.machine root' virt := by
  intro s s'
  have hpresent : ∀ mapping, SharedMapping mapping → hasFlags mapping.flags presentFlag = true :=
    fun _ h ↦ h.present
  have hrepresents := x86.represents_runs hpresent
    (hcalls.mono (MapsOnly.mono (fun _ h ↦ h) fun virt hvirt ↦ hvirt.2.trans (by decide))) hnever
  have hrepresents' := aarch64.represents_runs hpresent
    (hcalls'.mono (MapsOnly.mono (fun _ h ↦ h) fun virt hvirt ↦ hvirt.2)) hnever'
  have habstract : PageMaps.boot.run AArch64.identityMapped calls' =
      PageMaps.boot.run X86.identityMapped calls := by
    have hoff : ∀ virt, SharedRange virt →
        AArch64.identityMapped (virt / 4096) = X86.identityMapped (virt / 4096) := by
      intro virt hvirt
      have hlow := hvirt.1
      simp only [AArch64.identityMapped, X86.identityMapped, decide_eq_decide]
      omega
    rw [PageMaps.run_congr hoff calls' _ hcalls'.forall_mem, ← PageMaps.run_filter, ← hsame,
      PageMaps.run_filter]
  rw [habstract] at hrepresents'
  refine ⟨fun space ↦ ?_, fun space root root' hroot hroot' virt hvirt ↦ ?_⟩
  · exact (hrepresents.root_eq_none_iff space).trans (hrepresents'.root_eq_none_iff space).symm
  · have htranslate : X86.vmmTranslate s.machine root virt = _ :=
      hrepresents.translate_eq
        (fun _ h ↦ ⟨h.present, h.aligned, h.lt_limit.trans (show 2 ^ 48 < 2 ^ 52 by decide)⟩)
        hroot (X86.page_lt (hvirt.2.trans (by decide)))
    have htranslate' : AArch64.vmmTranslate s'.machine root' virt = _ :=
      hrepresents'.translate_eq (fun _ h ↦ ⟨h.present, h.aligned, h.lt_limit⟩) hroot'
        (AArch64.page_lt hvirt.2)
    rw [htranslate, htranslate']

/-- Both managers find a page mapped in a new space at the same physical address. -/
theorem vmmTranslate_agree_new_space :
    ∃ root root', (runs X86.backend X86.Boot.sample.spaces
        [.create, .map (.user 0) 0x80000000 0x50000000 7]).root (.user 0) = some root ∧
      (runs AArch64.backend AArch64.Boot.sample.spaces
        [.create, .map (.user 0) 0x80000000 0x50000000 7]).root (.user 0) = some root' ∧
      X86.vmmTranslate (runs X86.backend X86.Boot.sample.spaces
          [.create, .map (.user 0) 0x80000000 0x50000000 7]).machine root 0x80000123 =
        AArch64.vmmTranslate (runs AArch64.backend AArch64.Boot.sample.spaces
          [.create, .map (.user 0) 0x80000000 0x50000000 7]).machine root' 0x80000123 := by
  have hmap : MapsOnly SharedMapping SharedRange (.map (.user 0) 0x80000000 0x50000000 7) :=
    ⟨⟨by decide, by decide⟩, by decide, by decide, by decide, by decide⟩
  obtain ⟨hcalls, hnever, root, hroot⟩ :=
    X86.Boot.sample_create_map (MapsOnly SharedMapping SharedRange) trivial hmap
  obtain ⟨hcalls', hnever', root', hroot'⟩ :=
    AArch64.Boot.sample_create_map (MapsOnly SharedMapping SharedRange) trivial hmap
  obtain ⟨-, hagree⟩ := vmmTranslate_agree X86.Boot.sample AArch64.Boot.sample _ _ rfl hcalls hcalls'
    hnever hnever'
  exact ⟨root, root', hroot, hroot',
    hagree (.user 0) root root' hroot hroot' 0x80000123 ⟨by decide, by decide⟩⟩

end MegKer.Vmm
