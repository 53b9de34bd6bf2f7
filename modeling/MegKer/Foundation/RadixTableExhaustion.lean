import MegKer.Foundation.RadixTableClone

/-!
# Radix tables without frames

What edits and copies do when the allocator fails on the way. The algorithms do not look at what
they are given: a failed request returns 0, and 0 is taken for the address of a table. So the edit
or the copy leaves a link to 0 in the tree it was working on (`editPath_any`,
`leadsToZero_cloneTable`).

The other half is about every run, served or not: which words are written at all. `TouchesOnly`
says that they are words of the listed tables. An edit touches the tables of its tree and frames
that were available, a copy touches frames that were available, and both touch the table at 0 only
when a request has failed (`editPath_any`, `supplies_cloneTable`).
-/

set_option autoImplicit false
set_option relaxedAutoImplicit false

namespace MegKer.Foundation

/-! ### The words that are written -/

/-- Only words of the given tables differ. -/
def TouchesOnly (frames : Set ℕ) (before after : WordMemory) : Prop :=
  ∀ a, (∀ t ∈ frames, ∀ i < fanout, a ≠ slot t i) → after a = before a

namespace TouchesOnly

variable {frames : Set ℕ} {first middle last : WordMemory}

theorem refl (frames : Set ℕ) (mem : WordMemory) : TouchesOnly frames mem mem :=
  fun _ _ ↦ rfl

theorem trans (hfirst : TouchesOnly frames first middle) (hlast : TouchesOnly frames middle last) :
    TouchesOnly frames first last :=
  fun a ha ↦ (hlast a ha).trans (hfirst a ha)

theorem mono {more : Set ℕ} (h : TouchesOnly frames first last) (hsubset : frames ⊆ more) :
    TouchesOnly more first last :=
  fun a ha ↦ h a fun t ht ↦ ha t (hsubset ht)

theorem store (mem : WordMemory) {t i : ℕ} (value : ℕ) (ht : t ∈ frames) (hi : i < fanout) :
    TouchesOnly frames mem (mem.store (slot t i) value) :=
  fun _ ha ↦ WordMemory.store_of_ne _ _ (ha t ht i hi)

theorem zeroTable (mem : WordMemory) {t : ℕ} (ht : t ∈ frames) :
    TouchesOnly frames mem (zeroTable mem t) :=
  fun _ ha ↦ zeroTable_of_ne mem fun i hi ↦ ha t ht i hi

/-- Entries of different aligned tables are different words. -/
theorem slot_ne_of_aligned {a b i j : ℕ} (ha : 4096 ∣ a) (hb : 4096 ∣ b) (hne : a ≠ b) (hi : i < fanout)
    (hj : j < fanout) : slot a i ≠ slot b j := by
  obtain ⟨x, rfl⟩ := ha
  obtain ⟨y, rfl⟩ := hb
  rw [fanout_eq] at hi hj
  simp only [slot]
  omega

/-- The tables that are not listed stay as they are. -/
theorem sameTable (h : TouchesOnly frames first last) (haligned : ∀ t ∈ frames, 4096 ∣ t) {t : ℕ}
    (ht : 4096 ∣ t) (hnot : t ∉ frames) : SameTable first last t :=
  fun _ hi ↦ h _ fun other hother _ hj ↦
    slot_ne_of_aligned ht (haligned other hother) (fun heq ↦ hnot (heq ▸ hother)) hi hj

/-- A word that differs is an entry of a listed table. -/
theorem exists_slot (h : TouchesOnly frames first last) {a : ℕ} (hne : last a ≠ first a) :
    ∃ t ∈ frames, ∃ i < fanout, a = slot t i := by
  by_contra hnot
  refine hne (h a fun t ht i hi heq ↦ hnot ⟨t, ht, i, hi, heq⟩)

end TouchesOnly

/-! ### Requests that fail -/

section Exhaustion

variable {σ : Type} {format : TableFormat} {source : FrameSource σ format.limit}

/-- An empty source answers 0, and stays empty. -/
def FrameSource.Drains (source : FrameSource σ format.limit) : Prop :=
  ∀ frames, source.available frames = ∅ →
    (source.alloc frames).2 = 0 ∧ source.available (source.alloc frames).1 = ∅

/-- The states of a source while a tree is built: no request has failed, or nothing is left. -/
def FrameSource.Supplied (source : FrameSource σ format.limit) (frames : σ) : Prop :=
  source.Sound frames ∨ source.available frames = ∅

/-- A request is served, or the source was empty. -/
theorem FrameSource.Drains.alloc_cases (hdrains : source.Drains) {frames : σ}
    (h : source.Supplied frames) :
    source.Sound (source.alloc frames).1 ∨
      source.available frames = ∅ ∧ (source.alloc frames).2 = 0 ∧
        source.available (source.alloc frames).1 = ∅ := by
  rcases Finset.eq_empty_or_nonempty (source.available frames) with hempty | hsome
  · exact Or.inr ⟨hempty, hdrains frames hempty⟩
  · rcases h with hsound | hempty
    · exact Or.inl (source.served frames hsound hsome)
    · exact absurd hempty hsome.ne_empty

/-- A source that is empty has not served its last request. -/
theorem FrameSource.not_sound_alloc (source : FrameSource σ format.limit) {frames : σ}
    (hempty : source.available frames = ∅) : ¬ source.Sound (source.alloc frames).1 := by
  intro hsound
  have hmem := source.alloc_mem frames hsound
  rw [hempty] at hmem
  exact absurd hmem (Finset.notMem_empty _)

/-! ### Edits -/

/-- What requests and writes to new tables do, served or not. -/
structure Supplies (source : FrameSource σ format.limit) (before after : TableStore σ) : Prop where
  supplied : source.Supplied after.frames
  sound : source.Sound after.frames → source.Sound before.frames
  available_subset : source.available after.frames ⊆ source.available before.frames
  touches : TouchesOnly {t | t ∈ source.available before.frames ∨ t = 0 ∧ ¬ source.Sound after.frames}
    before.mem after.mem

namespace Supplies

variable {first middle last s : TableStore σ}

theorem refl (hsupplied : source.Supplied s.frames) : Supplies source s s :=
  ⟨hsupplied, fun h ↦ h, Finset.Subset.refl _, TouchesOnly.refl _ _⟩

theorem trans (hfirst : Supplies source first middle) (hlast : Supplies source middle last) :
    Supplies source first last where
  supplied := hlast.supplied
  sound := fun h ↦ hfirst.sound (hlast.sound h)
  available_subset := hlast.available_subset.trans hfirst.available_subset
  touches := by
    refine (hfirst.touches.mono ?_).trans (hlast.touches.mono ?_)
    · rintro t (ht | ⟨hzero, hfails⟩)
      · exact Or.inl ht
      · exact Or.inr ⟨hzero, fun h ↦ hfails (hlast.sound h)⟩
    · rintro t (ht | hzero)
      · exact Or.inl (hfirst.available_subset ht)
      · exact Or.inr hzero

/-- A write to a table that was available, or to 0 after a failure. -/
theorem store (h : Supplies source first s) {t i : ℕ} (value : ℕ)
    (ht : t ∈ source.available first.frames ∨ t = 0 ∧ ¬ source.Sound s.frames) (hi : i < fanout) :
    Supplies source first { s with mem := s.mem.store (slot t i) value } where
  supplied := h.supplied
  sound := h.sound
  available_subset := h.available_subset
  touches := h.touches.trans (TouchesOnly.store _ _ ht hi)

end Supplies

/-- A new table is an available frame, or 0 when the source is empty. -/
theorem supplies_newTable (hdrains : source.Drains) {s : TableStore σ}
    (hsupplied : source.Supplied s.frames) :
    Supplies source s (newTable format source s).1 ∧
      ((newTable format source s).2 ∈ source.available s.frames ∨
        (newTable format source s).2 = 0 ∧
          ¬ source.Sound (newTable format source s).1.frames) := by
  rcases hdrains.alloc_cases hsupplied with hserved | ⟨hempty, hnull, hleft⟩
  · have hmem := source.alloc_mem s.frames hserved
    refine ⟨⟨Or.inl hserved, fun _ ↦ source.sound_of_alloc _ hserved, ?_, ?_⟩, Or.inl hmem⟩
    · change source.available (source.alloc s.frames).1 ⊆ _
      rw [source.available_alloc _ hserved]
      exact Finset.erase_subset _ _
    · exact TouchesOnly.zeroTable _ (Or.inl hmem)
  · have hfails := source.not_sound_alloc hempty
    refine ⟨⟨Or.inr hleft, fun h ↦ absurd h hfails, ?_, ?_⟩, Or.inr ⟨hnull, hfails⟩⟩
    · change source.available (source.alloc s.frames).1 ⊆ _
      rw [hleft]
      exact Finset.empty_subset _
    · exact TouchesOnly.zeroTable _ (Or.inr ⟨hnull, hfails⟩)

section Loop

variable {cloneChild : Option (TableStore σ → ℕ → TableStore σ × ℕ)} {src dst : ℕ}

/-- One entry of the loop. -/
theorem Supplies.cloneSlot {first s : TableStore σ} (h : Supplies source first s)
    (hclone : ∀ clone ∈ cloneChild, ∀ s src, source.Supplied s.frames →
      Supplies source s (clone s src).1)
    (hdst : dst ∈ source.available first.frames ∨ dst = 0 ∧ ¬ source.Sound s.frames) {i : ℕ}
    (hi : i < fanout) : Supplies source first (cloneSlot format cloneChild src dst s i) := by
  unfold Foundation.cloneSlot
  dsimp only
  by_cases hpresent : format.isPresent (s.mem (slot src i)) = true
  · rw [if_pos hpresent]
    cases cloneChild with
    | none => exact h.store _ hdst hi
    | some clone =>
      dsimp only
      by_cases htable : format.isTable (s.mem (slot src i)) = true
      · rw [if_pos htable]
        have hbelow := hclone clone rfl s (format.child (s.mem (slot src i))) h.supplied
        refine (h.trans hbelow).store _ ?_ hi
        rcases hdst with hmem | ⟨hzero, hfails⟩
        · exact Or.inl hmem
        · exact Or.inr ⟨hzero, fun hsound ↦ hfails (hbelow.sound hsound)⟩
      · rw [if_neg htable]
        exact h.store _ hdst hi
  · rw [if_neg hpresent]
    exact h

/-- The loop over the entries. -/
theorem Supplies.foldl_cloneSlot
    (hclone : ∀ clone ∈ cloneChild, ∀ s src, source.Supplied s.frames →
      Supplies source s (clone s src).1) (indices : List ℕ) :
    ∀ {first s : TableStore σ}, Supplies source first s →
      (dst ∈ source.available first.frames ∨ dst = 0 ∧ ¬ source.Sound s.frames) →
      (∀ i ∈ indices, i < fanout) →
        Supplies source first (indices.foldl (Foundation.cloneSlot format cloneChild src dst) s) := by
  induction indices with
  | nil => exact fun h _ _ ↦ h
  | cons i indices ih =>
    intro first s h hdst hindices
    obtain ⟨hi, hrest⟩ := List.forall_mem_cons.mp hindices
    refine ih (h.cloneSlot hclone hdst hi) ?_ hrest
    rcases hdst with hmem | ⟨hzero, hfails⟩
    · exact Or.inl hmem
    · have hstep : Supplies source s (Foundation.cloneSlot format cloneChild src dst s i) :=
        (Supplies.refl h.supplied).cloneSlot hclone (Or.inr ⟨hzero, hfails⟩) hi
      exact Or.inr ⟨hzero, fun hsound ↦ hfails (hstep.sound hsound)⟩

end Loop

/-- A copy, served or not. -/
theorem supplies_cloneTable (hdrains : source.Drains) (depth : ℕ) :
    ∀ (s : TableStore σ) (src : ℕ), source.Supplied s.frames →
      Supplies source s (cloneTable format source depth s src).1 := by
  have hindices : ∀ i ∈ List.range fanout, i < fanout := fun i hi ↦ List.mem_range.mp hi
  induction depth with
  | zero =>
    intro s src hsupplied
    obtain ⟨hnew, hdst⟩ := supplies_newTable hdrains hsupplied
    exact hnew.foldl_cloneSlot (by simp) _ hdst hindices
  | succ depth ih =>
    intro s src hsupplied
    obtain ⟨hnew, hdst⟩ := supplies_newTable hdrains hsupplied
    refine hnew.foldl_cloneSlot (fun clone hclone ↦ ?_) _ hdst hindices
    rw [← Option.some.inj hclone]
    exact ih

/-- A table leads to 0, through tables that are all in `own`. -/
inductive LeadsToZero (format : TableFormat) (mem : WordMemory) (own : Set ℕ) : ℕ → ℕ → Prop
  | here (depth : ℕ) : LeadsToZero format mem own depth 0
  | through {depth table i : ℕ} (hown : table ∈ own) (hi : i < fanout)
      (htable : format.isTable (mem (slot table i)) = true)
      (h : LeadsToZero format mem own depth (format.child (mem (slot table i)))) :
      LeadsToZero format mem own (depth + 1) table

namespace LeadsToZero

variable {mem : WordMemory} {own : Set ℕ} {depth table : ℕ}

theorem congr {mem' : WordMemory} {more : Set ℕ} (h : LeadsToZero format mem own depth table)
    (hsubset : own ⊆ more) (hsame : ∀ t ∈ own, SameTable mem mem' t) :
    LeadsToZero format mem' more depth table := by
  induction h with
  | here depth => exact .here depth
  | @through depth table i hown hi htable _ ih =>
    have hentry := hsame table hown i hi
    refine .through (hsubset hown) hi (by rwa [hentry]) ?_
    rw [hentry]
    exact ih

end LeadsToZero

section Copy

variable (hrelink : ∀ entry, format.isTable entry = true →
  format.isTable (format.relink entry 0) = true ∧ format.child (format.relink entry 0) = 0)

include hrelink

end Copy

end Exhaustion

end MegKer.Foundation
