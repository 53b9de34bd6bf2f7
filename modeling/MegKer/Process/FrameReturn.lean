import MegKer.Process.LoaderConfinement

/-!
# What a process leaves behind

After the process has called exit, `process_run` destroys its address space and frees the launch stack.
`vmm_destroy_address_space` gives back the frames of the tables; the frames that the pages are mapped to
it takes for the caller's, and `process_run` does not give them back either. So every call loses the
frames of all segments and of the user stack (`Loadable.freeSet_after`), and a computer on which
programs are run one after the other runs out of memory (`Session.card_le`).

Between the entry into user mode and the return, the process writes to its memory, and the heap may
grow. Nothing else is assumed of these steps than that they spare the page tables and give no frames
back; `HeapSteps`, with no frames kept from being written to, describes them.
-/

set_option autoImplicit false
set_option relaxedAutoImplicit false

namespace MegKer.Process

open Foundation Memory Vmm Finset

/-! ### Calls that return -/

section Definitions

variable (port : Port) (kmalloc : Spaces → Spaces) (image : Image) (s exit after : Spaces)

/-- A call of `process_run` in state `s` that enters user mode, resumes in state `exit` when the process
has ended, and returns in state `after`. -/
structure Returns : Prop where
  allocates : Allocates port kmalloc s
  entered : (port.processRun kmalloc image s).isRejected = false
  runs : HeapSteps port.paging [] (port.processRun kmalloc image s).loader.spaces exit
  ends : HeapSteps port.paging [] ((VmmCall.destroy (.user s.next)).run port.backend exit) after

/-- The frames by which the heap has grown during the call. -/
def heapGrowth : Finset ℕ :=
  takenBetween (VmmCall.create.run port.backend s) (created port kmalloc s) ∪
    takenBetween (port.processRun kmalloc image s).loader.spaces exit ∪
    takenBetween ((VmmCall.destroy (.user s.next)).run port.backend exit) after

/-- The call gives back what it has taken, up to the growth of the heap. -/
def GivesBack : Prop := freeSet after.pmm = freeSet s.pmm \ heapGrowth port kmalloc image s exit after

/-- The frames that the loader was given for pages. -/
def pageFrames : Finset ℕ := (port.processRun kmalloc image s).loader.taken.toFinset.image (· / 4096)

end Definitions

/-- Calls of `process_run` that follow one another, each with an image that can be loaded. -/
inductive Session (port : Port) : ℕ → Spaces → Spaces → Prop
  | start (s : Spaces) : Session port 0 s s
  | call {n : ℕ} {s t exit after : Spaces} (kmalloc : Spaces → Spaces) (image : Image)
      (h : Session port n s t) (hloadable : Loadable port kmalloc image t) (hreturns : Returns port kmalloc image t exit after) :
      Session port (n + 1) s after

/-! ### The frames of the loader -/

/-- The step maps a page. -/
def LoadOp.maps : LoadOp → Bool
  | .note _ => false
  | .page _ _ => true
  | .copy _ _ => false
  | .stack _ => true

/-- The loader is given a frame for every page that it maps. -/
theorem length_taken (backend : Backend) (image : Image) (space : Handle) (ops : List LoadOp) :
    ∀ l : Loader, (ops.foldl (LoadOp.run backend image space) l).taken.length =
      l.taken.length + ops.countP LoadOp.maps := by
  induction ops with
  | nil => exact fun _ ↦ rfl
  | cons op ops ih =>
    intro l
    rw [List.foldl_cons, ih, List.countP_cons]
    cases op with
    | note offsets => rfl
    | copy va offset => rfl
    | page va flags =>
      change l.taken.length + 1 + _ = l.taken.length + (_ + 1)
      omega
    | stack va =>
      change l.taken.length + 1 + _ = l.taken.length + (_ + 1)
      omega

section Leak

variable {port : Port} {kmalloc : Spaces → Spaces} {image : Image} {s exit after : Spaces}

namespace Loadable

/-- The frames of the pages were free when `vmm_create_address_space` had returned, and there are at
least those of the user stack. -/
theorem pageFrames_spec (h : Loadable port kmalloc image s) (hs : port.Reachable s)
    (hheap : Allocates port kmalloc s) :
    pageFrames port kmalloc image s ⊆ freeSet (created port kmalloc s).pmm ∧
      userStackPages ≤ (pageFrames port kmalloc image s).card ∧
      ∀ f, f ∈ pageFrames port kmalloc image s ↔
        f * 4096 ∈ (port.processRun kmalloc image s).loader.taken := by
  obtain ⟨root, frameOf, -, -, hconfined, -⟩ :=
    exists_holds hs hheap h.mappable.admissible h.frames
  rw [pageFrames, loader_processRun h.valid]
  have hfree := hconfined.free
  have hnodup := hconfined.nodup
  have hlength : userStackPages ≤
      (loadedBy port kmalloc image s (plan port.userStackTop image)).taken.length := by
    have hstack : (stackPlan port.userStackTop).countP LoadOp.maps = userStackPages := rfl
    rw [loadedBy, length_taken, plan, List.countP_append, hstack]
    omega
  generalize (loadedBy port kmalloc image s (plan port.userStackTop image)).taken = taken at *
  have haligned : ∀ a ∈ taken,
      a / 4096 * 4096 = a ∧ a / 4096 ∈ freeSet (created port kmalloc s).pmm := by
    intro a ha
    obtain ⟨f, hf, rfl⟩ := mem_image.mp (hfree a ha)
    have hdiv : f * frameSize / 4096 = f := Nat.mul_div_cancel f (by norm_num)
    rw [hdiv]
    exact ⟨rfl, hf⟩
  refine ⟨fun f hf ↦ ?_, ?_, fun f ↦ ?_⟩
  · obtain ⟨a, ha, rfl⟩ := mem_image.mp hf
    exact (haligned a (List.mem_toFinset.mp ha)).2
  · rw [card_image_of_injOn, List.toFinset_card_of_nodup hnodup]
    · exact hlength
    · intro a ha b hb heq
      rw [← (haligned a (List.mem_toFinset.mp ha)).1, ← (haligned b (List.mem_toFinset.mp hb)).1]
      exact congrArg (· * 4096) heq
  · rw [mem_image]
    constructor
    · rintro ⟨a, ha, rfl⟩
      rw [(haligned a (List.mem_toFinset.mp ha)).1]
      exact List.mem_toFinset.mp ha
    · intro hf
      exact ⟨_, List.mem_toFinset.mpr hf, Nat.mul_div_cancel f (by norm_num)⟩

/-- What is free when `vmm_create_address_space` has returned was free before the call. -/
theorem freeSet_created_subset (h : Loadable port kmalloc image s) (hs : port.Reachable s)
    (hheap : Allocates port kmalloc s) : freeSet (created port kmalloc s).pmm ⊆ freeSet s.pmm := by
  obtain ⟨root, hholds, -, hkeeps⟩ := exists_created hs hheap h.frames.copy
  exact hkeeps.free_subset.trans hholds.lowest.subset

/-- When the call returns, the frames that are free are those that were free before, without those of
the pages and those of the heap. -/
theorem freeSet_after (h : Loadable port kmalloc image s) (hs : port.Reachable s)
    (hreturns : Returns port kmalloc image s exit after) :
    freeSet after.pmm =
        freeSet s.pmm \ (pageFrames port kmalloc image s ∪ heapGrowth port kmalloc image s exit after) ∧
      Disjoint (pageFrames port kmalloc image s) (heapGrowth port kmalloc image s exit after) ∧
      port.Reachable after := by
  obtain ⟨hheap, -, hruns, hends⟩ := hreturns
  obtain ⟨root, frameOf, hholds, -, hconfined, -⟩ :=
    exists_holds hs hheap h.mappable.admissible h.frames
  obtain ⟨hpages, -, hframes⟩ := h.pageFrames_spec hs hheap
  have hfirst := (exists_created hs hheap h.frames.copy).choose_spec
  have hcreated : (created port kmalloc s).held =
      s.held ∪ takenBetween (VmmCall.create.run port.backend s) (created port kmalloc s) := by
    obtain ⟨-, -, -, hkeeps⟩ := exists_created hs hheap h.frames.copy
    exact hkeeps.held_eq
  unfold heapGrowth
  rw [loader_processRun h.valid] at hruns hframes ⊢
  generalize loadedBy port kmalloc image s (plan port.userStackTop image) = l at *
  generalize takenBetween (VmmCall.create.run port.backend s) (created port kmalloc s) = first at *
  have hexit := hruns.keeps hholds.well
  have hroot : exit.root (.user s.next) = some root :=
    (hexit.root_eq _).trans hholds.root_eq
  have hdestroy := run_destroy port.paging hroot
  have hproper : (VmmCall.destroy (.user s.next)).Proper port.paging exit := by
    change exit.root (.user s.next) ≠ none
    rw [hroot]
    exact Option.some_ne_none root
  have hreached : Reaches port.paging s ((VmmCall.destroy (.user s.next)).run port.backend exit) :=
    (hholds.reached.trans hexit.reached).step hproper
  have hwell : WellFormed port.paging port.reserved
      ((VmmCall.destroy (.user s.next)).run port.backend exit) := hdestroy ▸ hexit.well.drop hroot
  have hheldDestroyed : ((VmmCall.destroy (.user s.next)).run port.backend exit).held =
      exit.held := by
    rw [hdestroy]
    rfl
  have hafter := hends.keeps hwell
  have hheld : ∀ f, f ∈ after.held ↔ f ∈ s.held ∨ f ∈ pageFrames port kmalloc image s ∨ f ∈ first ∨
      f ∈ takenBetween l.spaces exit ∨
      f ∈ takenBetween ((VmmCall.destroy (.user s.next)).run port.backend exit) after := by
    intro f
    rw [hafter.held_eq, mem_union, hheldDestroyed, hexit.held_eq, mem_union, hconfined.mem_held,
      hframes, hcreated, mem_union]
    tauto
  have hothers : ∀ other, other ≠ .user s.next → after.root other = s.root other := by
    intro other hother
    rw [hafter.root_eq, hdestroy, Spaces.root_drop _ _ _ hother, hexit.root_eq]
    exact hholds.others_eq other hother
  have huntouched : ∀ other, other ≠ .user s.next → s.root other ≠ none →
      Untouched port.paging other s after := by
    intro other hother hlive
    have hbefore := (hholds.untouched other hother hlive).trans (hexit.untouched other)
    refine (hbefore.trans ?_).trans (hafter.untouched other)
    rw [hdestroy]
    exact untouched_drop _ hother
  have hclaimed : ∀ t, Claimed port.paging after t ↔ Claimed port.paging s t := by
    refine claimed_congr (fun other hother ↦ ?_) fun other hlive ↦ ?_
    · have hne : other ≠ .user s.next := by
        rintro rfl
        rw [hafter.root_eq, hdestroy, Spaces.root_drop_self] at hother
        exact hother rfl
      rwa [hothers other hne] at hother
    · refine huntouched other ?_ hlive
      rintro rfl
      exact hlive hs.wellFormed.root_next
  have hreachedAfter := hreached.trans hafter.reached
  refine ⟨?_, ?_, hreachedAfter.reachable hs hafter.well⟩
  · ext f
    rw [hafter.well.mem_free, hreachedAfter.totalFrames_eq, hheld, hclaimed, mem_sdiff, mem_union,
      mem_union, mem_union, hs.wellFormed.mem_free]
    tauto
  · -- a frame of a page is held, so the heap cannot be given it
    refine disjoint_left.mpr fun f hf hgrowth ↦ ?_
    have hloaded : f ∈ l.spaces.held := (hconfined.mem_held f).mpr (Or.inr ((hframes f).mp hf))
    rcases mem_union.mp hgrowth with hearly | hending
    rcases mem_union.mp hearly with hstarting | hduring
    · have hheld : f ∈ (created port kmalloc s).held := hcreated ▸ mem_union_right _ hstarting
      obtain ⟨-, -, hkeeps⟩ := hfirst
      exact ((hkeeps.well.mem_free f).mp (hpages hf)).2.2.1 hheld
    · exact ((hholds.well.mem_free f).mp (mem_sdiff.mp hduring).1).2.2.1 hloaded
    · refine ((hwell.mem_free f).mp (mem_sdiff.mp hending).1).2.2.1 ?_
      rw [hheldDestroyed, hexit.held_eq]
      exact mem_union_left _ hloaded

/-- No call gives back what it has taken. -/
theorem not_givesBack (h : Loadable port kmalloc image s) (hs : port.Reachable s)
    (hreturns : Returns port kmalloc image s exit after) : ¬ GivesBack port kmalloc image s exit after := by
  intro hgives
  obtain ⟨hsubset, hcard, -⟩ := h.pageFrames_spec hs hreturns.allocates
  obtain ⟨hfree, hdisjoint, -⟩ := h.freeSet_after hs hreturns
  obtain ⟨f, hf⟩ : (pageFrames port kmalloc image s).Nonempty :=
    card_pos.mp (lt_of_lt_of_le (by decide : 0 < userStackPages) hcard)
  have hafter : f ∈ freeSet after.pmm := by
    rw [hgives, mem_sdiff]
    exact ⟨h.freeSet_created_subset hs hreturns.allocates (hsubset hf), disjoint_left.mp hdisjoint hf⟩
  rw [hfree, mem_sdiff] at hafter
  exact hafter.2 (mem_union_left _ hf)

end Loadable

/-- Each call takes at least the frames of the user stack for good. -/
theorem Session.card_le {n : ℕ} {t : Spaces} (h : Session port n s t) (hs : port.Reachable s) :
    port.Reachable t ∧ (freeSet t.pmm).card + userStackPages * n ≤ (freeSet s.pmm).card := by
  induction h with
  | start => exact ⟨hs, le_rfl⟩
  | @call n s t exit after kmalloc image _ hloadable hreturns ih =>
    obtain ⟨ht, hbefore⟩ := ih hs
    obtain ⟨hpages, hcard, -⟩ := hloadable.pageFrames_spec ht hreturns.allocates
    have hsubset := hpages.trans (hloadable.freeSet_created_subset ht hreturns.allocates)
    obtain ⟨hfree, -, hafter⟩ := hloadable.freeSet_after ht hreturns
    have hleft : (freeSet after.pmm).card ≤ (freeSet t.pmm \ pageFrames port kmalloc image t).card := by
      rw [hfree]
      exact card_le_card (sdiff_subset_sdiff (Subset.refl _) subset_union_left)
    rw [card_sdiff_of_subset hsubset] at hleft
    have hle := card_le_card hsubset
    refine ⟨hafter, ?_⟩
    rw [Nat.mul_succ]
    omega

end Leak

section Sample

/-- The state of the sample after the loading. -/
def sampleLoaded : Spaces :=
  ((Port.aarch64 AArch64.Boot.sample).processRun (takeArena AArch64.backend) sampleImage
    AArch64.Boot.sample.spaces).loader.spaces

/-- The state when the process has ended at once. -/
def sampleEnded : Spaces :=
  (VmmCall.destroy (.user AArch64.Boot.sample.spaces.next)).run
    (Port.aarch64 AArch64.Boot.sample).backend sampleLoaded

theorem sampleImage_returns : Returns (.aarch64 AArch64.Boot.sample) (takeArena AArch64.backend)
    sampleImage AArch64.Boot.sample.spaces sampleLoaded sampleEnded := by
  refine ⟨takeArena_allocates _ _, ?_, .refl _, .refl _⟩
  rw [processRun_entered sampleImage_loadable.valid]
  rfl

/-- The frames of the sample are not given back. -/
theorem not_givesBack_sample : ¬ GivesBack (.aarch64 AArch64.Boot.sample)
    (takeArena AArch64.backend) sampleImage AArch64.Boot.sample.spaces sampleLoaded sampleEnded :=
  sampleImage_loadable.not_givesBack (Port.reachable_spaces (.aarch64 AArch64.Boot.sample))
    sampleImage_returns

end Sample

/-- On either port, after every run in which no request for a frame has failed: no call of
`process_run` that loads an image and returns when its process has ended gives back what it has taken.
The frames that are missing afterwards, apart from those by which the heap has grown, are those of the
pages of the segments and of the user stack, at least four. So each call in a sequence of calls leaves
at least four frames less, and no sequence can be longer than a quarter of the free frames. -/
theorem processRun_leaks (port : Port) (s : Spaces) (hs : port.Reachable s) :
    (∀ kmalloc image exit after, Loadable port kmalloc image s → Returns port kmalloc image s exit after →
      ¬ GivesBack port kmalloc image s exit after ∧
      freeSet after.pmm =
        freeSet s.pmm \ (pageFrames port kmalloc image s ∪ heapGrowth port kmalloc image s exit after) ∧
      pageFrames port kmalloc image s ⊆ freeSet s.pmm ∧
      Disjoint (pageFrames port kmalloc image s) (heapGrowth port kmalloc image s exit after) ∧
      userStackPages ≤ (pageFrames port kmalloc image s).card) ∧
    ∀ n t, Session port n s t → (freeSet t.pmm).card + userStackPages * n ≤ (freeSet s.pmm).card := by
  refine ⟨fun kmalloc image exit after hloadable hreturns ↦ ?_, fun n t hsession ↦ (hsession.card_le hs).2⟩
  obtain ⟨hpages, hcard, -⟩ := hloadable.pageFrames_spec hs hreturns.allocates
  have hsubset := hpages.trans (hloadable.freeSet_created_subset hs hreturns.allocates)
  obtain ⟨hfree, hdisjoint, -⟩ := hloadable.freeSet_after hs hreturns
  exact ⟨hloadable.not_givesBack hs hreturns, hfree, hsubset, hdisjoint, hcard⟩

/-- After the sample has run, at least four frames less are free than before. -/
theorem processRun_leaks_sample :
    (freeSet sampleEnded.pmm).card + userStackPages * 1 ≤
      (freeSet AArch64.Boot.sample.spaces.pmm).card :=
  (processRun_leaks (.aarch64 AArch64.Boot.sample) AArch64.Boot.sample.spaces
    (Port.reachable_spaces (.aarch64 AArch64.Boot.sample))).2 1 sampleEnded
      (.call _ sampleImage (.start _) sampleImage_loadable sampleImage_returns)

end MegKer.Process
