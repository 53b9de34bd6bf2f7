import MegKer.Drivers.InputProbing
import MegKer.Drivers.RamFb

/-!
# What a failed setup keeps

`virtio_mmio_probe_nth` takes three frames for the queue of a device, and `fb_init` the frames of a
screen. Neither gives anything back when it fails behind its allocations: the probe when there are
fewer than three frames, `fb_init` when the device reports an error, and both when they were given frame 0,
whose address they take for a failure (`not_releases_lastFrame`).

The allocations are described by what they do to the set of free frames. Three of them succeed exactly when
there are three frames and frame 0 is not free (`not_threeFail_iff`), and leave the bitmap as it was
only when there was nothing to take (`restored_afterThree_iff`). With the same for the run of frames of a
screen, the two setups release their memory in exactly the cases of `releases_iff`.
-/

set_option autoImplicit false
set_option relaxedAutoImplicit false

namespace MegKer.Drivers

open Foundation Memory Finset

/-! ### The memory of a setup -/

/-- The bitmap and the count of the free frames are as before. -/
structure Restored (before after : Pmm) : Prop where
  bitmap : after.bitmap = before.bitmap
  freeFrames : after.freeFrames = before.freeFrames

section Properties

variable {σ : Type}

/-- A probe that finds no device has released its memory. -/
def ProbeReleases (bus : Bus σ) (deviceId : UInt32) (index : ℕ) (s : σ) (pmm : Pmm) : Prop :=
  ∀ s' pmm', virtioMmioProbeNth bus pmmAllocFrame deviceId index s pmm = (none, s', pmm') →
    Restored pmm pmm'

/-- `fb_init` has released its memory when it returns without a frame buffer. -/
def FbInitReleases (dev : FwCfg σ) (fb : Gui.FbInfo) (s : σ) (pmm : Pmm) : Prop :=
  ∀ fuel fb' s' pmm', fbInit dev fuel fb s pmm = some (fb', s', pmm') → fb'.present = false →
    Restored pmm pmm'

/-- The device is there and its negotiation succeeds. -/
def Negotiated (bus : Bus σ) (deviceId : UInt32) (index : ℕ) (s : σ) : Prop :=
  ∃ base s₁ s₂, findSlot bus deviceId index s = (some base, s₁) ∧
    negotiate bus base s₁ = (true, s₂)

/-- The lowest run of free frames. -/
def LowestRun (pmm : Pmm) (count start : ℕ) : Prop :=
  Ico start (start + count) ⊆ freeSet pmm ∧
    ∀ lower < start, ¬ Ico lower (lower + count) ⊆ freeSet pmm

/-- The transfer of the address of the frame buffer fails. -/
def TransferFails (dev : FwCfg σ) (s : σ) (buf : ℕ) : Prop :=
  DmaFails dev (dev.startDma (fwCfgFindFile dev ramfbFile s).2
    (dmaAccess (fwCfgFindFile dev ramfbFile s).1 (ramfbCfg buf)))

end Properties

/-! ### Three frames -/

section ThreeFrames

variable {pmm : Pmm}

theorem totalFrames_pmmAllocFrame (pmm : Pmm) :
    (pmmAllocFrame pmm).1.totalFrames = pmm.totalFrames := by
  rcases pmmAllocFrame_spec pmm with ⟨-, hsame⟩ | ⟨f, -, -, -, hbecomes⟩
  · rw [hsame]
  · exact hbecomes.totalFrames_eq

theorem freeSet_pmmAllocFrame_subset (pmm : Pmm) :
    freeSet (pmmAllocFrame pmm).1 ⊆ freeSet pmm := by
  rcases pmmAllocFrame_spec pmm with ⟨-, hsame⟩ | ⟨f, -, -, -, hbecomes⟩
  · rw [hsame]
  · rw [hbecomes.freeSet_eq]
    exact erase_subset f _

theorem card_freeSet_pmmAllocFrame (pmm : Pmm) :
    (freeSet (pmmAllocFrame pmm).1).card = (freeSet pmm).card - 1 := by
  rcases pmmAllocFrame_spec pmm with ⟨hempty, hsame⟩ | ⟨f, hf, -, -, hbecomes⟩
  · rw [hsame, hempty, card_empty]
  · rw [hbecomes.freeSet_eq, card_erase_of_mem hf]

/-- An allocation succeeds when there is a frame, and the lowest one is not frame 0. -/
theorem pmmAllocFrame_ne_zero_iff (htotal : pmm.totalFrames ≤ 2 ^ 52) :
    (pmmAllocFrame pmm).2 ≠ 0 ↔ 0 < (freeSet pmm).card ∧ 0 ∉ freeSet pmm := by
  rcases pmmAllocFrame_spec pmm with ⟨hempty, hsame⟩ | ⟨f, hf, hlowest, haddr, -⟩
  · rw [hsame, hempty, card_empty]
    exact iff_of_false (fun h ↦ h rfl) fun h ↦ Nat.lt_irrefl 0 h.1
  · have hlt := (mem_freeSet.mp hf).1
    rw [haddr, wrap_of_lt (by simp only [frameSize]; omega)]
    constructor
    · refine fun hne ↦ ⟨card_pos.mpr ⟨f, hf⟩, fun hzero ↦ hne ?_⟩
      rw [Nat.le_zero.mp (hlowest 0 hzero), Nat.zero_mul]
    · rintro ⟨-, hzero⟩ hnull
      rcases Nat.mul_eq_zero.mp hnull with rfl | h
      · exact hzero hf
      · exact absurd h (by decide)

/-- The state after the three allocations of a probe. -/
def afterThree (pmm : Pmm) : Pmm :=
  (pmmAllocFrame (pmmAllocFrame (pmmAllocFrame pmm).1).1).1

/-- One of the three allocations of a probe returns 0. -/
def ThreeFail (pmm : Pmm) : Prop :=
  (pmmAllocFrame pmm).2 = 0 ∨ (pmmAllocFrame (pmmAllocFrame pmm).1).2 = 0 ∨
    (pmmAllocFrame (pmmAllocFrame (pmmAllocFrame pmm).1).1).2 = 0

/-- The allocations succeed when there are three frames, and frame 0 is not free. -/
theorem not_threeFail_iff (htotal : pmm.totalFrames ≤ 2 ^ 52) :
    ¬ ThreeFail pmm ↔ 3 ≤ (freeSet pmm).card ∧ 0 ∉ freeSet pmm := by
  have htotal₁ : (pmmAllocFrame pmm).1.totalFrames ≤ 2 ^ 52 := by
    rwa [totalFrames_pmmAllocFrame]
  have htotal₂ : (pmmAllocFrame (pmmAllocFrame pmm).1).1.totalFrames ≤ 2 ^ 52 := by
    rwa [totalFrames_pmmAllocFrame]
  have hsub₁ := freeSet_pmmAllocFrame_subset pmm
  have hsub₂ := freeSet_pmmAllocFrame_subset (pmmAllocFrame pmm).1
  rw [ThreeFail, not_or, not_or, ← ne_eq, ← ne_eq, ← ne_eq, pmmAllocFrame_ne_zero_iff htotal,
    pmmAllocFrame_ne_zero_iff htotal₁, pmmAllocFrame_ne_zero_iff htotal₂]
  simp only [card_freeSet_pmmAllocFrame]
  constructor
  · rintro ⟨⟨-, hzero⟩, -, hcard, -⟩
    exact ⟨by omega, hzero⟩
  · rintro ⟨hcard, hzero⟩
    exact ⟨⟨by omega, hzero⟩, ⟨by omega, fun h ↦ hzero (hsub₁ h)⟩, by omega,
      fun h ↦ hzero (hsub₁ (hsub₂ h))⟩

/-- The bitmap tells the free frames. -/
theorem Restored.freeSet_eq {before after : Pmm} (h : Restored before after)
    (htotal : after.totalFrames = before.totalFrames) : freeSet after = freeSet before := by
  ext f
  rw [mem_freeSet, mem_freeSet, bitTest, bitTest, htotal, h.bitmap]

/-- The allocations change the bitmap unless there is nothing to take. -/
theorem restored_afterThree_iff (pmm : Pmm) :
    Restored pmm (afterThree pmm) ↔ freeSet pmm = ∅ := by
  constructor
  · intro h
    have htotal : (afterThree pmm).totalFrames = pmm.totalFrames := by
      rw [afterThree, totalFrames_pmmAllocFrame, totalFrames_pmmAllocFrame,
        totalFrames_pmmAllocFrame]
    have hcard := congrArg card (h.freeSet_eq htotal)
    simp only [afterThree, card_freeSet_pmmAllocFrame] at hcard
    exact card_eq_zero.mp (by omega)
  · intro hempty
    have hsame : pmmAllocFrame pmm = (pmm, 0) := by
      rcases pmmAllocFrame_spec pmm with ⟨-, hsame⟩ | ⟨f, hf, -⟩
      · exact hsame
      · exact absurd (hempty ▸ hf) (notMem_empty f)
    rw [afterThree, hsame, hsame, hsame]
    exact ⟨rfl, rfl⟩

end ThreeFrames

/-! ### The probe -/

section Probe

variable {σ : Type} (bus : Bus σ) (deviceId : UInt32) (index : ℕ) (s : σ)

/-- A probe that does not get to the allocations leaves the allocator alone. -/
theorem probeNth_of_not_negotiated (pmm : Pmm) (h : ¬ Negotiated bus deviceId index s) :
    ∃ s', virtioMmioProbeNth bus pmmAllocFrame deviceId index s pmm = (none, s', pmm) := by
  rw [virtioMmioProbeNth]
  rcases hslot : findSlot bus deviceId index s with ⟨_ | base, s₁⟩
  · exact ⟨s₁, rfl⟩
  · rcases hnegotiate : negotiate bus base s₁ with ⟨_ | _, s₂⟩
    · simp only [hnegotiate]
      exact ⟨s₂, rfl⟩
    · exact absurd ⟨base, s₁, s₂, hslot, hnegotiate⟩ h

/-- Behind the negotiation, the probe takes its three frames, and fails when one of them is missing. -/
theorem probeNth_of_negotiated (pmm : Pmm) (h : Negotiated bus deviceId index s) :
    ∃ dev s', virtioMmioProbeNth bus pmmAllocFrame deviceId index s pmm =
      (dev, s', afterThree pmm) ∧ (dev = none ↔ ThreeFail pmm) := by
  obtain ⟨base, s₁, s₂, hslot, hnegotiate⟩ := h
  simp only [virtioMmioProbeNth, hslot, hnegotiate, allocQueue]
  by_cases hfail : ThreeFail pmm
  · exact ⟨none, s₂, if_pos hfail, iff_of_true rfl hfail⟩
  · exact ⟨_, _, if_neg hfail, iff_of_false (Option.some_ne_none _) hfail⟩

/-- A probe releases its memory if it does not get to the allocations, if there are no frames, or if
there are enough of them. -/
theorem probeReleases_iff {pmm : Pmm} (htotal : pmm.totalFrames ≤ 2 ^ 52) :
    ProbeReleases bus deviceId index s pmm ↔
      ¬ Negotiated bus deviceId index s ∨ freeSet pmm = ∅ ∨
        (3 ≤ (freeSet pmm).card ∧ 0 ∉ freeSet pmm) := by
  by_cases hnegotiated : Negotiated bus deviceId index s
  · obtain ⟨dev, s₁, hprobe, hdev⟩ := probeNth_of_negotiated bus deviceId index s pmm hnegotiated
    have hreleases : ProbeReleases bus deviceId index s pmm ↔
        (ThreeFail pmm → Restored pmm (afterThree pmm)) := by
      rw [ProbeReleases, hprobe]
      constructor
      · intro h hfail
        exact h s₁ (afterThree pmm) (by rw [hdev.mpr hfail])
      · rintro h s' pmm' ⟨⟩
        exact h (hdev.mp rfl)
    rw [hreleases, ← not_threeFail_iff htotal, restored_afterThree_iff]
    tauto
  · refine iff_of_true (fun s' pmm' h ↦ ?_) (Or.inl hnegotiated)
    obtain ⟨s₁, hprobe⟩ := probeNth_of_not_negotiated bus deviceId index s pmm hnegotiated
    rw [hprobe] at h
    obtain rfl : pmm = pmm' := congrArg (fun r ↦ r.2.2) h
    exact ⟨rfl, rfl⟩

end Probe

/-! ### The frame buffer -/

section Screen

variable {σ : Type} (dev : FwCfg σ) {fb : Gui.FbInfo} (s : σ) {pmm : Pmm}

/-- A run of frames that was taken is missing. -/
theorem not_restored_takeRun {start count : ℕ} (hcount : 0 < count)
    (hrun : Ico start (start + count) ⊆ freeSet pmm) : ¬ Restored pmm (takeRun pmm start count) := by
  intro h
  have hbecomes := becomes_takeRun hrun
  have hstart : start ∈ Ico start (start + count) :=
    mem_Ico.mpr ⟨le_rfl, Nat.lt_add_of_pos_right hcount⟩
  have hfree := h.freeSet_eq hbecomes.totalFrames_eq
  have hgone : start ∉ freeSet (takeRun pmm start count) := by
    rw [takeRun, hbecomes.freeSet_eq, mem_sdiff]
    exact fun hmem ↦ hmem.2 hstart
  exact hgone (hfree ▸ hrun hstart)

/-- The lowest run is the one that is taken. -/
theorem pmmAllocFrames_of_lowestRun (hrange : InRange pmm) {count start : ℕ} (hcount : 0 < count)
    (hrun : LowestRun pmm count start) :
    pmmAllocFrames pmm count = (takeRun pmm start count, start * frameSize) := by
  rcases pmmAllocFrames_cases pmm hcount with ⟨-, hnone⟩ | ⟨found, hfound, hlowest, hresult⟩
  · exact absurd hrun.1 (hnone start)
  · obtain rfl : found = start := lowest_run_unique hfound hlowest hrun.1 hrun.2
    have hle := le_totalFrames_of_run hcount hfound
    rw [hresult, hrange.wrap_frame (by omega)]

theorem ramfbFrames_pos : 0 < ramfbFrames := by decide

/-- What `fb_init` has done when it returns without a frame buffer. -/
theorem fbInit_absent_cases (hrange : InRange pmm) {fuel : ℕ} {fb' : Gui.FbInfo} {s' : σ}
    {pmm' : Pmm} (hinit : fbInit dev fuel fb s pmm = some (fb', s', pmm'))
    (habsent : fb'.present = false) :
    pmm' = pmm ∨ (fwCfgFindFile dev ramfbFile s).1 ≠ 0 ∧
      ∃ start, LowestRun pmm ramfbFrames start ∧
        (start = 0 ∨ TransferFails dev s (start * frameSize)) := by
  simp only [fbInit] at hinit
  by_cases hsel : (fwCfgFindFile dev ramfbFile s).1 = 0
  · rw [if_pos hsel] at hinit
    exact Or.inl (congrArg (fun r ↦ r.2.2) (Option.some.inj hinit)).symm
  rw [if_neg hsel] at hinit
  rcases pmmAllocFrames_cases pmm ramfbFrames_pos with ⟨hsame, -⟩ | ⟨start, hfree, hlowest, -⟩
  · rw [hsame, if_pos rfl] at hinit
    exact Or.inl (congrArg (fun r ↦ r.2.2) (Option.some.inj hinit)).symm
  · refine Or.inr ⟨hsel, start, ⟨hfree, hlowest⟩, or_iff_not_imp_left.mpr fun hzero ↦ ?_⟩
    rw [pmmAllocFrames_of_lowestRun hrange ramfbFrames_pos ⟨hfree, hlowest⟩,
      if_neg (Nat.mul_ne_zero hzero (by decide))] at hinit
    refine (exists_dmaWrite_false_iff dev _ _ _).mp ⟨fuel, ?_⟩
    split at hinit
    next => exact absurd hinit (Option.some_ne_none _).symm
    next s₁ hwrite => exact ⟨s₁, hwrite⟩
    next =>
      have hpresent : ramfbInfo (start * frameSize) = fb' :=
        congrArg Prod.fst (Option.some.inj hinit)
      rw [← hpresent] at habsent
      exact absurd habsent Bool.noConfusion

/-- The frames of the screen are kept when their address is 0 or the transfer fails. -/
theorem fbInit_of_lowestRun (fb : Gui.FbInfo) (hrange : InRange pmm) {start : ℕ}
    (hsel : (fwCfgFindFile dev ramfbFile s).1 ≠ 0) (hrun : LowestRun pmm ramfbFrames start)
    (hfails : start = 0 ∨ TransferFails dev s (start * frameSize)) :
    ∃ fuel s', fbInit dev fuel fb s pmm = some (fb, s', takeRun pmm start ramfbFrames) := by
  have halloc := pmmAllocFrames_of_lowestRun hrange ramfbFrames_pos hrun
  by_cases hzero : start = 0
  · refine ⟨0, (fwCfgFindFile dev ramfbFile s).2, ?_⟩
    simp only [fbInit, halloc]
    rw [if_neg hsel, if_pos (by rw [hzero, Nat.zero_mul])]
  · obtain ⟨fuel, s', hwrite⟩ := (exists_dmaWrite_false_iff dev _ _ _).mpr
      (hfails.resolve_left hzero)
    refine ⟨fuel, s', ?_⟩
    simp only [fbInit, halloc, hwrite]
    rw [if_neg hsel, if_neg (Nat.mul_ne_zero hzero (by decide))]

/-- `fb_init` releases its memory if there is no device or no run of frames, or if the run is not at
address 0 and the transfer succeeds. -/
theorem fbInitReleases_iff (hfb : fb.present = false) (hrange : InRange pmm) :
    FbInitReleases dev fb s pmm ↔
      (fwCfgFindFile dev ramfbFile s).1 = 0 ∨
        ∀ start, LowestRun pmm ramfbFrames start →
          start ≠ 0 ∧ ¬ TransferFails dev s (start * frameSize) := by
  constructor
  · intro hreleases
    refine or_iff_not_imp_left.mpr fun hsel start hrun ↦ ?_
    rw [← not_or]
    intro hfails
    obtain ⟨fuel, s', hinit⟩ := fbInit_of_lowestRun dev s fb hrange hsel hrun hfails
    exact not_restored_takeRun ramfbFrames_pos hrun.1 (hreleases fuel fb s' _ hinit hfb)
  · intro hsafe fuel fb' s' pmm' hinit habsent
    rcases fbInit_absent_cases dev s hrange hinit habsent with
      rfl | ⟨hsel, start, hrun, hfails⟩
    · exact ⟨rfl, rfl⟩
    · obtain ⟨hzero, htransfer⟩ := hsafe.resolve_left hsel start hrun
      exact absurd hfails (not_or.mpr ⟨hzero, htransfer⟩)

end Screen

/-! ### Both setups -/

/-- For every state of the allocator and all behaviour of the devices: the exact cases in which a probe
and `fb_init` have released their memory when they fail. -/
theorem releases_iff {σ τ : Type} (bus : Bus σ) (deviceId : UInt32) (index : ℕ) (s : σ)
    (dev : FwCfg τ) (t : τ) (fb : Gui.FbInfo) (hfb : fb.present = false) (pmm : Pmm)
    (hrange : InRange pmm) :
    (ProbeReleases bus deviceId index s pmm ↔
      ¬ Negotiated bus deviceId index s ∨ freeSet pmm = ∅ ∨
        (3 ≤ (freeSet pmm).card ∧ 0 ∉ freeSet pmm)) ∧
    (FbInitReleases dev fb t pmm ↔
      (fwCfgFindFile dev ramfbFile t).1 = 0 ∨
        ∀ start, LowestRun pmm ramfbFrames start →
          start ≠ 0 ∧ ¬ TransferFails dev t (start * frameSize)) :=
  ⟨probeReleases_iff bus deviceId index s hrange.totalFrames_le,
    fbInitReleases_iff dev t hfb hrange⟩

/-- The bytes of a directory with the file of the frame buffer. -/
def ramfbDirectory : List UInt8 :=
  [0, 0, 0, 1] ++ [0, 0, 0, 28] ++ [0, 0x21] ++ [0, 0] ++ ramfbFile ++ List.replicate 46 0

/-- A device that has the file and reports an error for each transfer. Its state is what is left of the
directory. -/
def failingRamfb : FwCfg (List UInt8) where
  select := fun _ _ ↦ ramfbDirectory
  readData := fun bytes ↦ (bytes.headD 0, bytes.tail)
  startDma := fun bytes _ ↦ bytes
  readControl := fun bytes ↦ (bswap32 dmaCtlError, bytes)

/-- `fb` before `fb_init`. -/
def noFb : Gui.FbInfo where
  present := false
  addr := 0
  pitch := 0
  width := 0
  height := 0
  pitch_lt := by decide
  width_lt := by decide
  height_lt := by decide

/-- Three free frames are enough for a queue and not enough for a screen. -/
theorem releases_iff_fewFree :
    ProbeReleases (slotBus fun _ ↦ qemuKeyboard) virtioDevInput 0 SlotState.untouched fewFree ∧
      FbInitReleases failingRamfb noFb [] fewFree := by
  obtain ⟨hprobe, hscreen⟩ := releases_iff (slotBus fun _ ↦ qemuKeyboard) virtioDevInput 0
    SlotState.untouched failingRamfb [] noFb rfl fewFree ⟨by decide, by decide⟩
  refine ⟨hprobe.mpr (Or.inr (Or.inr ⟨by decide, by decide⟩)), hscreen.mpr (Or.inr ?_)⟩
  intro start hrun
  have hle : start + 469 ≤ 8 := le_totalFrames_of_run ramfbFrames_pos hrun.1
  exact absurd hle (by omega)

/-- Eight frames, of which only the second one is free. -/
def lastFrame : Pmm where
  bitmapBase := 0x1000
  bitmap := fun _ ↦ 0b11111101#8
  bitmapBytes := 1
  totalFrames := 8
  freeFrames := 1

/-- The frames of a screen behind a used one. -/
def oneScreen : Pmm where
  bitmapBase := 0x1000
  bitmap := fun byte ↦ if byte = 0 then 1#8 else 0#8
  bitmapBytes := 59
  totalFrames := 470
  freeFrames := 469

theorem lowestRun_oneScreen : LowestRun oneScreen ramfbFrames 1 := by
  have hclear : ∀ f < 470, f ≠ 0 → bitTest oneScreen f = false := by decide +kernel
  refine ⟨fun f hf ↦ ?_, fun lower hlower hrun ↦ ?_⟩
  · obtain ⟨hone, hlt⟩ := mem_Ico.mp hf
    exact mem_freeSet.mpr ⟨hlt, hclear f hlt (by omega)⟩
  · have hzero := hrun (mem_Ico.mpr
      ⟨Nat.le_of_lt_succ hlower, Nat.add_pos_right lower ramfbFrames_pos⟩)
    exact absurd (mem_freeSet.mp hzero).2 (by decide)

/-- The probe keeps the only frame that is left, and `fb_init` keeps the frames of the screen after an
error of the device. -/
theorem not_releases_lastFrame :
    ¬ ProbeReleases (slotBus fun _ ↦ qemuKeyboard) virtioDevInput 0 SlotState.untouched lastFrame ∧
      ¬ FbInitReleases failingRamfb noFb [] oneScreen := by
  constructor
  · have hslot : (inputSlots fun _ ↦ qemuKeyboard)[0]? = some 0 := by decide +kernel
    have husable : qemuKeyboard.usable = true := by decide +kernel
    obtain ⟨s₂, hnegotiate, -⟩ :=
      negotiate_eq (fun _ ↦ qemuKeyboard) 0 SlotState.untouched
    have hnegotiated : Negotiated (slotBus fun _ ↦ qemuKeyboard) virtioDevInput 0
        SlotState.untouched := by
      refine ⟨slotBase 0, SlotState.untouched, s₂, ?_, ?_⟩
      · rw [findSlot_eq, hslot, Option.map_some]
      · rw [hnegotiate, husable]
    rw [probeReleases_iff _ _ _ _ (show lastFrame.totalFrames ≤ 2 ^ 52 by decide)]
    rintro (h | h | ⟨h, -⟩)
    · exact h hnegotiated
    · exact absurd h (by decide)
    · exact absurd h (by decide)
  · rw [fbInitReleases_iff failingRamfb [] rfl ⟨by decide, by decide⟩]
    rintro (h | h)
    · exact absurd h (by decide +kernel)
    · refine (h 1 lowestRun_oneScreen).2 ⟨0, by decide +kernel, fun m hm ↦ ?_⟩
      exact absurd hm (Nat.not_lt_zero m)

end MegKer.Drivers
