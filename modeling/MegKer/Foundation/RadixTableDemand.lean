import MegKer.Foundation.RadixTableClone

/-!
# The frames that edits of a radix table take

An edit takes a frame for each table that is missing on its path, and these are as many as the walk
along the path has levels left. Afterwards they are there, and other paths may run through them: a
walk along another path then stops no higher than the table in which the two paths part
(`level_editPath`). So the frames that a whole sequence of edits takes follow from the levels of the
walks before the first of them, without looking at the tree again.
-/

set_option autoImplicit false
set_option relaxedAutoImplicit false

namespace MegKer.Foundation

/-- The number of levels below the table in which two paths part, 0 when they do not. -/
def apart : (path other : List ℕ) → ℕ
  | i :: path, j :: other => if i = j then apart path other else path.length
  | _, _ => 0

theorem apart_le {depth : ℕ} {path : List ℕ} (hpath : IsPath depth path) (other : List ℕ) :
    apart path other ≤ depth := by
  induction path generalizing depth other with
  | nil => exact absurd hpath.length_eq (by simp)
  | cons i path ih =>
    have hlength := hpath.length_eq
    rw [List.length_cons] at hlength
    cases other with
    | nil => exact Nat.zero_le _
    | cons j other =>
      rw [apart]
      split_ifs with heq
      · cases depth with
        | zero =>
          rw [List.length_eq_zero_iff.mp (by omega : path.length = 0)]
          exact Nat.zero_le _
        | succ depth => exact (ih (IsPath.cons_iff.mp hpath).2 other).trans (Nat.le_succ depth)
      · omega

section Demand

variable {σ : Type} {format : TableFormat} {source : FrameSource σ format.limit}

/-- The levels of the walks below a link, which the step down keeps. -/
theorem level_entered_of_isTable (style : LinkStyle format) {s : TableStore σ} {depth table i : ℕ}
    (htree : OwnedTree source s (depth + 1) table) (hi : i < fanout)
    (htable : format.isTable (s.mem (slot table i)) = true) {path : List ℕ}
    (hpath : IsPath depth path) :
    (walk format (s.mem.store (slot table i) (style.touch (s.mem (slot table i))))
        (format.child (style.touch (s.mem (slot table i)))) path).level =
      (walk format s.mem table (i :: path)).level := by
  have hentered := entered_of_isTable style htree hi htable
  have hthrough : (walk format s.mem table (i :: path)).level =
      (walk format s.mem (format.child (s.mem (slot table i))) path).level := by
    rw [walk_of_isTable hpath htable]
    rfl
  rw [style.child_touch, hthrough]
  refine congrArg Walk.level (walk_congr depth _ (fun t ht ↦ ?_) path hpath)
  rw [← tablesThrough_of_isTable htable] at ht
  refine hentered.same t (htree.isFrame t (mem_tables_of_through hi ht)) ?_ List.not_mem_nil
  rintro rfl
  exact htree.root_notMem hi ht

/-- The walks from a new table stop in it. -/
theorem level_entered_of_vacant (style : LinkStyle format) {s : TableStore σ} {depth table i : ℕ}
    (htree : OwnedTree source s (depth + 1) table) (hi : i < fanout)
    (hsound : source.Sound (source.alloc s.frames).1) {path : List ℕ} (hpath : IsPath depth path) :
    (walk format ((zeroTable s.mem (source.alloc s.frames).2).store (slot table i)
        (style.fresh (source.alloc s.frames).2))
      (format.child (style.fresh (source.alloc s.frames).2)) path).level = depth := by
  have hmem := source.alloc_mem _ hsound
  have hframe := source.isFrame _ (source.sound_of_alloc _ hsound) _ hmem
  have hne : (source.alloc s.frames).2 ≠ table := by
    intro heq
    exact htree.not_available _ (mem_tables_self _ _ _) (heq ▸ hmem)
  rw [style.child_fresh _ hframe, walk_of_zero (fun k hk ↦ ?_) hpath]
  rw [WordMemory.store_of_ne _ _ (slot_ne_of_frame_ne hframe htree.isFrame_root hne hk hi)]
  exact zeroTable_slot s.mem _ hk

/-- One step down, counted: the walks from the child have the levels of the walks through it, cut at
the child, and the frame of a new child is taken. -/
theorem level_ensureChild (style : LinkStyle format) {s : TableStore σ} {depth table i : ℕ}
    (hi : i < fanout) (htree : OwnedTree source s (depth + 1) table)
    (hblock : format.isBlock (s.mem (slot table i)) = false)
    (hsound : source.Sound (ensureChild format source style s table i).1.frames) {path : List ℕ}
    (hpath : IsPath depth path) :
    (walk format (ensureChild format source style s table i).1.mem
        (ensureChild format source style s table i).2 path).level =
      min depth (walk format s.mem table (i :: path)).level ∧
    (source.available (ensureChild format source style s table i).1.frames).card +
        (walk format s.mem table (i :: path)).level =
      (source.available s.frames).card + (walk format (ensureChild format source style s table i).1.mem
        (ensureChild format source style s table i).2 path).level := by
  by_cases htable : format.isTable (s.mem (slot table i)) = true
  · have hchild : ensureChild format source style s table i =
        ({ s with mem := s.mem.store (slot table i) (style.touch (s.mem (slot table i))) },
          format.child (style.touch (s.mem (slot table i)))) := by
      simp only [ensureChild, hblock, htable, if_true, Bool.false_eq_true, if_false]
    have hthrough : (walk format s.mem table (i :: path)).level ≤ depth := by
      rw [walk_of_isTable hpath htable]
      exact level_walk_le path hpath
    rw [hchild]
    dsimp only
    rw [level_entered_of_isTable style htree hi htable hpath]
    exact ⟨(min_eq_right hthrough).symm, rfl⟩
  · have hnot : format.isTable (s.mem (slot table i)) = false := by simpa using htable
    have hchild : ensureChild format source style s table i =
        (⟨(source.alloc s.frames).1, (zeroTable s.mem (source.alloc s.frames).2).store
          (slot table i) (style.fresh (source.alloc s.frames).2)⟩,
          format.child (style.fresh (source.alloc s.frames).2)) := by
      simp only [ensureChild, newTable, hblock, hnot, Bool.false_eq_true, if_false]
    rw [hchild] at hsound ⊢
    have hmem := source.alloc_mem _ hsound
    have hcard := Finset.card_pos.mpr ⟨_, hmem⟩
    have hthrough : (walk format s.mem table (i :: path)).level = depth + 1 := by
      rw [walk_of_not_isTable hpath hnot]
    dsimp only
    rw [level_entered_of_vacant style htree hi hsound hpath, hthrough,
      source.available_alloc _ hsound, Finset.card_erase_of_mem hmem]
    exact ⟨(min_eq_left (Nat.le_succ depth)).symm, by omega⟩

/-- Off a block, the edit enters the child and goes on there, with the levels counted. -/
theorem exists_entered_level (style : LinkStyle format) (edit : ℕ → ℕ) {s : TableStore σ}
    {depth table i : ℕ} {path : List ℕ} (hpath : IsPath depth path) (hi : i < fanout)
    (htree : OwnedTree source s (depth + 1) table)
    (hblock : format.isBlock (s.mem (slot table i)) = false)
    (hsound : source.Sound (editPath format source style edit s table (i :: path)).frames) :
    ∃ middle child grown, Entered source style depth table i s middle child grown ∧
      editPath format source style edit s table (i :: path) =
        editPath format source style edit middle child path ∧
      (∀ other, IsPath depth other → (walk format middle.mem child other).level =
        min depth (walk format s.mem table (i :: other)).level) ∧
      (source.available middle.frames).card + (walk format s.mem table (i :: path)).level =
        (source.available s.frames).card + (walk format middle.mem child path).level := by
  have hbefore := sound_of_editPath source style edit _ hsound
  cases path with
  | nil => exact absurd hpath.length_eq (by simp)
  | cons j path =>
    have hmiddle := sound_ensureChild_of_editPath style edit hsound
    obtain ⟨grown, hentered⟩ := entered_ensureChild style hi htree hblock hmiddle
    have hpos := (hentered.ownedTree htree hi hbefore).isFrame_root.pos
    exact ⟨_, _, grown, hentered, editPath_of_child style edit hpos,
      fun other hother ↦ (level_ensureChild style hi htree hblock hmiddle hother).1,
      (level_ensureChild style hi htree hblock hmiddle hpath).2⟩

/-- What an edit takes, and what it leaves for others to take: off the blocks, as many frames as its
walk had levels left, and afterwards no walk stops above the table in which its path parts from that
of the edit. -/
theorem level_editPath (source : FrameSource σ format.limit) (style : LinkStyle format)
    (edit : ℕ → ℕ) (depth : ℕ) :
    ∀ {s : TableStore σ} {table : ℕ} {path : List ℕ}, IsPath depth path →
      OwnedTree source s depth table →
      source.Sound (editPath format source style edit s table path).frames →
      (walk format s.mem table path).block format = none →
        (source.available (editPath format source style edit s table path).frames).card +
            (walk format s.mem table path).level = (source.available s.frames).card ∧
        ∀ other, IsPath depth other →
          (walk format (editPath format source style edit s table path).mem table other).level =
            min (walk format s.mem table other).level (apart path other) := by
  induction depth with
  | zero =>
    intro s table path hpath htree _ _
    obtain ⟨i, rfl, -⟩ := hpath.exists_singleton
    refine ⟨?_, fun other hother ↦ ?_⟩
    · rw [walk_singleton]
      rfl
    · obtain ⟨j, rfl, -⟩ := hother.exists_singleton
      rw [walk_singleton, walk_singleton, Nat.zero_min]
  | succ depth ih =>
    intro s table path hpath htree hsound hnone
    obtain ⟨i, rest, rfl, hi, hrest⟩ := hpath.exists_cons
    have hbefore := sound_of_editPath source style edit _ hsound
    by_cases hblock : format.isBlock (s.mem (slot table i)) = true
    · rw [walk_of_not_isTable hrest (format.isTable_of_isBlock _ hblock)] at hnone
      exact absurd hnone (by simp [Walk.block, hblock])
    have hnot : format.isBlock (s.mem (slot table i)) = false := by simpa using hblock
    obtain ⟨middle, child, grown, hentered, hstep, hlevel, hcard⟩ :=
      exists_entered_level style edit hrest hi htree hnot hsound
    have hchild := hentered.ownedTree htree hi hbefore
    rw [hstep] at hsound ⊢
    obtain ⟨hleft, hothers⟩ := ih hrest hchild hsound
      ((hentered.block_eq rest hrest).trans hnone)
    obtain ⟨added, hgrown, -⟩ := editPath_spec source style edit depth hrest hchild hsound
    refine ⟨by omega, fun other hother ↦ ?_⟩
    obtain ⟨k, rest', rfl, hk, hrest'⟩ := hother.exists_cons
    by_cases hki : i = k
    · -- the other path goes through the same child
      subst hki
      have hentry := hentered.sameTable_root htree hi hgrown i hi
      have hle := apart_le hrest rest'
      rw [walk_of_isTable hrest' (by rw [hentry]; exact hentered.isTable), hentry,
        hentered.child_eq, apart, if_pos rfl]
      change (walk format _ child rest').level = _
      rw [hothers rest' hrest', hlevel rest' hrest']
      omega
    · have hle : (walk format s.mem table (k :: rest')).level ≤ depth + 1 := level_walk_le _ hother
      rw [(hentered.onlyThrough_grown htree hi hgrown).walk_eq hother (Ne.symm hki), apart,
        if_neg hki, hrest.length_eq, min_eq_left hle]

end Demand

end MegKer.Foundation
