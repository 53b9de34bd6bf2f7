import MegKer.Vmm.Boot

/-!
# Reclaiming page tables

`vmm_destroy_address_space` walks the tables of a space as `vmm_create_address_space` copied them,
and gives every frame back. This module states what the invariant of the address spaces makes of
that, for both ports of the kernel: the frames given back are the tables of the space, each once,
and nothing else, whatever was mapped and unmapped in the space, and whatever happened to other
spaces in between.

A used frame always has a reason: it is reserved, held by the rest of the kernel, or a table of some
space (`WellFormed.mem_usedFrames`). So a space that has come and gone leaves no trace in the set of
used frames.
-/

set_option autoImplicit false
set_option relaxedAutoImplicit false

namespace MegKer.Vmm

open Foundation Memory Finset

/-! ### The ports -/

/-- The kernel on one of its two processors, with the state in which its manager starts. -/
inductive Port
  | x86 (boot : X86.Boot)
  | aarch64 (boot : AArch64.Boot)

namespace Port

/-- The functions of the manager. -/
def backend : Port → Backend
  | x86 _ => X86.backend
  | aarch64 _ => AArch64.backend

/-- The page tables of the processor. -/
def paging : (port : Port) → Paging port.backend
  | x86 _ => X86.paging
  | aarch64 _ => AArch64.paging

/-- The state in which the manager starts. -/
def spaces : Port → Spaces
  | x86 boot => boot.spaces
  | aarch64 boot => boot.spaces

/-- The frames in use when the manager starts. -/
def reserved : Port → Finset ℕ
  | x86 boot => boot.reserved
  | aarch64 boot => boot.reserved

theorem wellFormed (port : Port) : WellFormed port.paging port.reserved port.spaces := by
  cases port with
  | x86 boot => exact boot.wellFormed
  | aarch64 boot => exact boot.wellFormed

end Port

/-! ### Used frames -/

section Used

variable {backend : Backend} {paging : Paging backend} {reserved : Finset ℕ} {s : Spaces}

/-- Why a frame is used. -/
theorem WellFormed.mem_usedFrames (h : WellFormed paging reserved s) (f : ℕ) :
    f ∈ usedFrames s.pmm ↔ f < s.pmm.totalFrames ∧
      (f ∈ reserved ∨ f ∈ s.held ∨ Claimed paging s (f * frameSize)) := by
  rw [usedFrames, mem_sdiff, mem_range, h.mem_free]
  tauto

/-- Frames that are held or tables for the same reason in two states are used in both or in
neither. -/
theorem mem_usedFrames_congr {t : Spaces} {f : ℕ} (hs : WellFormed paging reserved s)
    (ht : WellFormed paging reserved t) (htotal : t.pmm.totalFrames = s.pmm.totalFrames)
    (hheld : f ∈ t.held ↔ f ∈ s.held)
    (hclaimed : Claimed paging t (f * frameSize) ↔ Claimed paging s (f * frameSize)) :
    f ∈ usedFrames t.pmm ↔ f ∈ usedFrames s.pmm := by
  rw [hs.mem_usedFrames, ht.mem_usedFrames, htotal, hheld, hclaimed]

/-- Destroying a space frees the frames of its tables. -/
theorem WellFormed.mem_usedFrames_drop (h : WellFormed paging reserved s) {n root : ℕ}
    (hroot : s.users n = some root) (f : ℕ) :
    f ∈ usedFrames (s.drop n ((paging.tables s.machine.mem root).foldl FrameDesk.release
      s.machine.frames)).pmm ↔
      f ∈ usedFrames s.pmm ∧ f * frameSize ∉ paging.tables s.machine.mem root := by
  have hmem := mem_freeSet_foldl_release (paging.tables s.machine.mem root) s.machine.frames f
  have htotal := totalFrames_foldl_release (paging.tables s.machine.mem root) s.machine.frames
  change f ∈ usedFrames ((paging.tables s.machine.mem root).foldl FrameDesk.release
    s.machine.frames).pmm ↔ _
  have hframe : f * frameSize ∈ paging.tables s.machine.mem root ↔
      ∃ a ∈ paging.tables s.machine.mem root, a / frameSize = f := by
    constructor
    · exact fun ht ↦ ⟨_, ht, Nat.mul_div_cancel f (by norm_num)⟩
    · rintro ⟨a, ha, rfl⟩
      rwa [Nat.div_mul_cancel ((h.owned (.user n) root hroot).isFrame a ha).aligned]
  rw [usedFrames, usedFrames, mem_sdiff, mem_sdiff, mem_range, mem_range, htotal, hmem, hframe]
  constructor
  · rintro ⟨hlt, hnot⟩
    obtain ⟨hused, hown⟩ := not_or.mp hnot
    exact ⟨⟨hlt, hused⟩, fun hmem ↦ hown ⟨hlt, hmem⟩⟩
  · rintro ⟨⟨hlt, hused⟩, hown⟩
    exact ⟨hlt, not_or.mpr ⟨hused, fun hmem ↦ hown hmem.2⟩⟩

end Used

/-! ### A space that comes and goes -/

section Lifetime

variable {backend : Backend} {paging : Paging backend} {reserved : Finset ℕ} {before : Spaces}
  {later : List VmmCall} {root : ℕ} {ok : VmmCall → Prop}

/-- When only the space itself is changed between its creation and its end, the tables of all other
spaces are what they were. -/
theorem claimed_of_lifetime (h : WellFormed paging reserved before)
    (hcalls : Permitted paging ok before (.create :: later))
    (hnever : NeverExhausted (runs backend before (.create :: later)).machine.frames)
    (hlater : ∀ call ∈ later, call.subject = some (.user before.next) ∨ ∃ mem, call = .write mem)
    (frames : FrameDesk) (t : ℕ) :
    Claimed paging ((runs backend before (.create :: later)).drop before.next frames) t ↔
      Claimed paging before t := by
  have hnocreate : ∀ call ∈ later, call ≠ .create := by
    rintro call hcall rfl
    rcases hlater _ hcall with hsubject | ⟨mem, hwrite⟩
    · exact absurd hsubject (Option.some_ne_none _).symm
    · exact absurd hwrite (by simp)
  have hsubject : ∀ other, other ≠ .user before.next →
      ∀ call ∈ VmmCall.create :: later, call.subject ≠ some other := by
    intro other hne call hcall heq
    rcases List.mem_cons.mp hcall with rfl | hcall
    · exact absurd heq (Option.some_ne_none _).symm
    · rcases hlater call hcall with hown | ⟨mem, rfl⟩
      · exact hne (Option.some.inj (heq.symm.trans hown))
      · exact absurd heq (Option.some_ne_none _).symm
  have huntouched : ∀ other, other ≠ .user before.next → before.root other ≠ none →
      Untouched paging other before (runs backend before (.create :: later)) :=
    fun other hne hlive ↦
      untouched_runs (.create :: later) h hcalls hnever hlive (hsubject other hne)
  refine claimed_congr (fun other hother ↦ ?_) (fun other hlive ↦ ?_) t
  · have hne : other ≠ .user before.next := by
      rintro rfl
      exact hother (Spaces.root_drop_self _ _ _)
    rw [Spaces.root_drop _ _ _ hne] at hother
    obtain ⟨otherRoot, hroot⟩ := Option.ne_none_iff_exists'.mp hother
    have hcreated : (VmmCall.create.run backend before).root other = some otherRoot :=
      root_of_runs hnocreate hroot
    rw [run_create, before.root_adopt _ _ hne] at hcreated
    exact hcreated ▸ Option.some_ne_none otherRoot
  · have hne : other ≠ .user before.next := by
      rintro rfl
      exact hlive h.root_next
    exact (huntouched other hne hlive).trans (untouched_drop _ hne)

end Lifetime

/-- On either port, for every run in which a space is created and still exists at the end of
`later`, whatever else happens, with an allocator that is never exhausted: destroying the space gives
back the frames of its tables, each once, and makes no other call to the allocator; none of them is
held by the rest of the kernel (as the frames of mapped data are), reserved, or a table of the kernel
or of another space; exactly these frames become free. Compared with the state before the creation, a
frame that is held by the rest of the kernel, or a table of another space, in both states or in
neither, is used in both or in neither; and when nothing but the space itself was changed in between,
the used frames are the same. -/
theorem destroy_returns_tables (port : Port) (earlier later : List VmmCall) (root : ℕ)
    (hcalls : Permitted port.paging (fun _ ↦ True) port.spaces (earlier ++ .create :: later))
    (hnever : NeverExhausted
      (runs port.backend port.spaces (earlier ++ .create :: later)).machine.frames)
    (hroot : (runs port.backend port.spaces (earlier ++ .create :: later)).root
      (.user (runs port.backend port.spaces earlier).next) = some root) :
    let before := runs port.backend port.spaces earlier
    let s := runs port.backend port.spaces (earlier ++ .create :: later)
    let after := (VmmCall.destroy (.user before.next)).run port.backend s
    let own := port.paging.tables s.machine.mem root
    own.Nodup ∧
    after.machine.frames.events =
      (own.map FrameEvent.returned).reverse ++ s.machine.frames.events ∧
    (∀ t ∈ own, t / frameSize ∉ s.held ∧ t / frameSize ∉ port.reserved ∧
      ∀ other otherRoot, other ≠ .user before.next → s.root other = some otherRoot →
        t ∉ port.paging.tables s.machine.mem otherRoot) ∧
    (∀ f, f ∈ usedFrames after.pmm ↔ f ∈ usedFrames s.pmm ∧ f * frameSize ∉ own) ∧
    (∀ f, (f ∈ after.held ↔ f ∈ before.held) →
      (Claimed port.paging after (f * frameSize) ↔ Claimed port.paging before (f * frameSize)) →
        (f ∈ usedFrames after.pmm ↔ f ∈ usedFrames before.pmm)) ∧
    ((∀ call ∈ later, call.subject = some (.user before.next) ∨ ∃ mem, call = .write mem) →
      usedFrames after.pmm = usedFrames before.pmm) := by
  intro before s after own
  obtain ⟨hearlier, hlater⟩ := permitted_append.mp hcalls
  have hs : s = runs port.backend before (.create :: later) := runs_append _ _ _
  have hneverLater : NeverExhausted (runs port.backend before (.create :: later)).machine.frames :=
    hs ▸ hnever
  have hbefore : WellFormed port.paging port.reserved before :=
    wellFormed_runs earlier port.wellFormed hearlier
      (neverExhausted_of_runs port.paging (.create :: later) hneverLater)
  have hwell : WellFormed port.paging port.reserved s :=
    wellFormed_runs _ port.wellFormed hcalls hnever
  have huser : s.users before.next = some root := hroot
  have hafter : after = s.drop before.next (own.foldl FrameDesk.release s.machine.frames) :=
    run_destroy port.paging huser
  have hwellAfter : WellFormed port.paging port.reserved after := hafter ▸ hwell.drop huser
  have htotal : after.pmm.totalFrames = before.pmm.totalFrames := by
    have hrun := totalFrames_runs port.paging (.create :: later) before
    rw [← hs] at hrun
    exact (frames_run port.paging s _).1.trans hrun
  refine ⟨(hwell.owned _ root hroot).nodup, ?_, fun t ht ↦ ⟨fun hheld ↦ ?_,
    (hwell.users_apart _ root huser t ht).2, fun other otherRoot hne hother ↦ ?_⟩, fun f ↦ ?_,
    fun f hheld hclaimed ↦ mem_usedFrames_congr hbefore hwellAfter htotal hheld hclaimed,
    fun hown ↦ ?_⟩
  · rw [hafter]
    exact events_foldl_release own s.machine.frames
  · refine (hwell.held_apart _ hheld).2.2.2 ?_
    rw [Nat.div_mul_cancel ((hwell.owned _ root hroot).isFrame t ht).aligned]
    exact ⟨_, root, hroot, ht⟩
  · exact hwell.apart _ root other otherRoot hroot hother hne.symm ht
  · rw [hafter]
    exact hwell.mem_usedFrames_drop huser f
  · have hothers : ∀ call ∈ VmmCall.create :: later, ∀ request, call ≠ .others request := by
      rintro call hcall request rfl
      rcases List.mem_cons.mp hcall with hcreate | hcall
      · exact absurd hcreate (by simp)
      · rcases hown _ hcall with hsubject | ⟨mem, hwrite⟩
        · exact absurd hsubject (Option.some_ne_none _).symm
        · exact absurd hwrite (by simp)
    have hheld : after.held = before.held := by
      rw [hafter, hs]
      exact held_runs hothers
    ext f
    refine mem_usedFrames_congr hbefore hwellAfter htotal (by rw [hheld]) ?_
    rw [hafter, hs]
    exact claimed_of_lifetime hbefore hlater hneverLater hown _ _

/-- On both ports, a space in which a page was mapped leaves the used frames as they were. -/
theorem destroy_returns_tables_new_space :
    usedFrames ((VmmCall.destroy (.user 0)).run X86.backend (runs X86.backend
        X86.Boot.sample.spaces [.create, .map (.user 0) 0x80000000 0x50000000 7])).pmm =
      usedFrames X86.Boot.sample.spaces.pmm ∧
    usedFrames ((VmmCall.destroy (.user 0)).run AArch64.backend (runs AArch64.backend
        AArch64.Boot.sample.spaces [.create, .map (.user 0) 0x80000000 0x50000000 7])).pmm =
      usedFrames AArch64.Boot.sample.spaces.pmm := by
  constructor
  · obtain ⟨hpermitted, hnever, root, hroot⟩ := X86.Boot.sample_create_map (fun _ ↦ True)
      trivial (show (fun _ ↦ True) (VmmCall.map (.user 0) 0x80000000 0x50000000 7) from trivial)
    have hnil : runs X86.backend X86.Boot.sample.spaces [] = X86.Boot.sample.spaces := rfl
    have hdestroy := destroy_returns_tables (.x86 X86.Boot.sample) []
      [.map (.user 0) 0x80000000 0x50000000 7] root
    dsimp only [Port.backend, Port.paging, Port.spaces, Port.reserved, List.nil_append] at hdestroy
    rw [hnil, X86.Boot.sample.next_spaces] at hdestroy
    obtain ⟨-, -, -, -, -, hsame⟩ := hdestroy hpermitted hnever hroot
    refine hsame fun call hcall ↦ ?_
    rw [List.mem_singleton.mp hcall]
    exact Or.inl rfl
  · obtain ⟨hpermitted, hnever, root, hroot⟩ := AArch64.Boot.sample_create_map (fun _ ↦ True)
      trivial (show (fun _ ↦ True) (VmmCall.map (.user 0) 0x80000000 0x50000000 7) from trivial)
    have hnil : runs AArch64.backend AArch64.Boot.sample.spaces [] = AArch64.Boot.sample.spaces := rfl
    have hdestroy := destroy_returns_tables (.aarch64 AArch64.Boot.sample) []
      [.map (.user 0) 0x80000000 0x50000000 7] root
    dsimp only [Port.backend, Port.paging, Port.spaces, Port.reserved, List.nil_append] at hdestroy
    rw [hnil, AArch64.Boot.sample.next_spaces] at hdestroy
    obtain ⟨-, -, -, -, -, hsame⟩ := hdestroy hpermitted hnever hroot
    refine hsame fun call hcall ↦ ?_
    rw [List.mem_singleton.mp hcall]
    exact Or.inl rfl

end MegKer.Vmm
