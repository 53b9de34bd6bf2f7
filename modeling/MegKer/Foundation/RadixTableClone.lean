import MegKer.Foundation.RadixTableEdit

/-!
# Copying and releasing a radix tree

`cloneTable` copies a tree into fresh frames: a link becomes a link to the copy of the child, and
every other present entry is copied as it is. `releaseTable` gives the frames of a tree back,
children before parents.

A copy is specified by `Cloned`. Its frames are fresh and met once, no other frame is written,
and along every path the copy is found to be the same as the original, link by link and in the
entry where the walk stops (`CopyOf`). The proof is an induction on the depth, and inside it a
loop over the entries of one table: `Cloning` is the invariant of that loop after `k` entries.
-/

set_option autoImplicit false
set_option relaxedAutoImplicit false

namespace MegKer.Foundation

/-! ### The algorithms -/

section Algorithms

variable {σ : Type} (format : TableFormat) (source : FrameSource σ format.limit)

/-- Copy entry `i` of `src` to `dst`. `cloneChild` copies the tables below, and is absent at the
last level. -/
def cloneSlot (cloneChild : Option (TableStore σ → ℕ → TableStore σ × ℕ)) (src dst : ℕ)
    (s : TableStore σ) (i : ℕ) : TableStore σ :=
  let entry := s.mem (slot src i)
  if format.isPresent entry then
    match cloneChild with
    | none => { s with mem := s.mem.store (slot dst i) entry }
    | some clone =>
      if format.isTable entry then
        let (s, child) := clone s (format.child entry)
        { s with mem := s.mem.store (slot dst i) (format.relink entry child) }
      else { s with mem := s.mem.store (slot dst i) entry }
  else s

/-- Copy a tree of the given depth, and return the root of the copy. -/
def cloneTable : (depth : ℕ) → TableStore σ → (src : ℕ) → TableStore σ × ℕ
  | 0, s, src =>
    let (s, dst) := newTable format source s
    ((List.range fanout).foldl (cloneSlot format none src dst) s, dst)
  | depth + 1, s, src =>
    let (s, dst) := newTable format source s
    ((List.range fanout).foldl (cloneSlot format (some (cloneTable depth)) src dst) s, dst)

/-- Give the frames of a tree back. -/
def releaseTable : (depth : ℕ) → TableStore σ → (table : ℕ) → TableStore σ
  | 0, s, table => { s with frames := source.release s.frames table }
  | depth + 1, s, table =>
    let s := (List.range fanout).foldl (fun s i ↦
      if format.isTable (s.mem (slot table i)) then
        releaseTable depth s (format.child (s.mem (slot table i)))
      else s) s
    { s with frames := source.release s.frames table }

end Algorithms

/-! ### Releasing -/

section Release

variable {σ : Type} {format : TableFormat} {source : FrameSource σ format.limit}

/-- A tree is released by releasing the frames of its tables, each once and in order. -/
theorem releaseTable_eq (depth : ℕ) :
    ∀ (s : TableStore σ) (table : ℕ), releaseTable format source depth s table =
      { s with frames := (tables format s.mem depth table).foldl source.release s.frames } := by
  induction depth with
  | zero => exact fun _ _ ↦ rfl
  | succ depth ih =>
    intro s table
    have hloop : ∀ (indices : List ℕ) (s : TableStore σ), indices.foldl (fun s i ↦
        if format.isTable (s.mem (slot table i)) then
          releaseTable format source depth s (format.child (s.mem (slot table i)))
        else s) s =
        { s with
          frames := List.foldl source.release s.frames (indices.flatMap fun i ↦
            tablesThrough format s.mem (depth + 1) (s.mem (slot table i))) } := by
      intro indices
      induction indices with
      | nil => exact fun _ ↦ rfl
      | cons i indices ihIndices =>
        intro s
        rw [List.foldl_cons, List.flatMap_cons, List.foldl_append, ihIndices]
        by_cases htable : format.isTable (s.mem (slot table i)) = true
        · rw [if_pos htable, tablesThrough_of_isTable htable, ih]
        · rw [if_neg htable, tablesThrough_of_not_isTable _ (by simpa using htable), List.foldl_nil]
    rw [releaseTable, hloop, tables_eq, List.foldl_append, List.foldl_cons, List.foldl_nil]

end Release

/-! ### What a copy is -/

section Clone

variable {σ : Type} (format : TableFormat) (source : FrameSource σ format.limit)

/-- Two walks, the second in a copy of the tree of the first. -/
structure CopyOf (w copy : Walk) : Prop where
  level_eq : copy.level = w.level
  entry_eq : copy.entry = if format.isPresent w.entry then w.entry else 0
  links : List.Forall₂
    (fun link link' ↦ ∃ frame, IsFrame format.limit frame ∧ link' = format.relink link frame)
    w.links copy.links

/-- A tree made of frames that were available before, off which nothing has been written. -/
structure FreshTree (depth root : ℕ) (before after : TableStore σ) : Prop where
  nodup : (tables format after.mem depth root).Nodup
  was_available : ∀ t ∈ tables format after.mem depth root, t ∈ source.available before.frames
  available_eq : source.available after.frames =
    source.available before.frames \ (tables format after.mem depth root).toFinset
  same : ∀ t, IsFrame format.limit t → t ∉ tables format after.mem depth root →
    SameTable before.mem after.mem t

/-- The tree of `dst` is a copy of the tree of `src`, in fresh frames. -/
structure Cloned (depth src dst : ℕ) (before after : TableStore σ) : Prop
    extends FreshTree format source depth dst before after where
  copied : ∀ path, IsPath depth path →
    CopyOf format (walk format before.mem src path) (walk format after.mem dst path)
  length_eq : (tables format after.mem depth dst).length =
    (tables format before.mem depth src).length

/-- A routine that copies trees of a given depth. -/
structure Clones (depth : ℕ) (clone : TableStore σ → ℕ → TableStore σ × ℕ) : Prop where
  sound : ∀ s src, source.Sound (clone s src).1.frames → source.Sound s.frames
  cloned : ∀ s src, OwnedTree source s depth src → source.Sound (clone s src).1.frames →
    Cloned format source depth src (clone s src).2 s (clone s src).1
  served : ∀ s src, OwnedTree source s depth src → source.Sound s.frames →
    (tables format s.mem depth src).length ≤ (source.available s.frames).card →
      source.Sound (clone s src).1.frames

/-- The routine for the tables below a table of the given depth. -/
def ClonesBelow : ℕ → Option (TableStore σ → ℕ → TableStore σ × ℕ) → Prop
  | 0, none => True
  | depth + 1, some clone => Clones format source depth clone
  | _, _ => False

/-- The loop over the entries, `k` of which have been copied. -/
structure Cloning (depth src dst k : ℕ) (before now : TableStore σ) : Prop
    extends FreshTree format source depth dst before now where
  vacant : ∀ i < fanout, k ≤ i → now.mem (slot dst i) = 0
  copied : ∀ i < k, ∀ path, IsPath depth (i :: path) →
    CopyOf format (walk format before.mem src (i :: path)) (walk format now.mem dst (i :: path))
  length_eq : (tables format now.mem depth dst).length =
    ((List.range k).flatMap fun i ↦
      tablesThrough format before.mem depth (before.mem (slot src i))).length + 1

end Clone

section CloneSpec

variable {σ : Type} {format : TableFormat} {source : FrameSource σ format.limit}

/-- Walks that stop at once, at an entry and at its copy. -/
theorem copyOf_stop (format : TableFormat) (depth entry : ℕ) :
    CopyOf format ⟨[], depth, entry⟩
      ⟨[], depth, if format.isPresent entry then entry else 0⟩ :=
  ⟨rfl, rfl, List.Forall₂.nil⟩

theorem CopyOf.leaf_eq {w copy : Walk} (h : CopyOf format w copy) :
    copy.leaf = if format.isPresent w.leaf then w.leaf else 0 := by
  unfold Walk.leaf
  rw [h.level_eq, h.entry_eq]
  by_cases hlevel : w.level = 0
  · rw [if_pos hlevel, if_pos hlevel]
  · rw [if_neg hlevel, if_neg hlevel]
    simp

/-- Blocks are copied, provided they are present. -/
theorem CopyOf.block_eq {w copy : Walk} (h : CopyOf format w copy)
    (hpresent : ∀ entry, w.block format = some entry → format.isPresent entry = true) :
    copy.block format = w.block format := by
  unfold Walk.block at hpresent ⊢
  rw [h.level_eq, h.entry_eq]
  by_cases hblock : w.level ≠ 0 ∧ format.isBlock w.entry = true
  · have hentry := hpresent w.entry (if_pos hblock)
    rw [if_pos hentry]
  · rw [if_neg hblock, if_neg]
    rintro ⟨hlevel, hcopy⟩
    by_cases hentry : format.isPresent w.entry = true
    · rw [if_pos hentry] at hcopy
      exact hblock ⟨hlevel, hcopy⟩
    · rw [if_neg hentry, format.isBlock_zero] at hcopy
      exact Bool.false_ne_true hcopy

/-- The links of a copy are relinked links of the original. -/
theorem CopyOf.exists_link {w copy : Walk} (h : CopyOf format w copy) {link' : ℕ}
    (hlink : link' ∈ copy.links) :
    ∃ link ∈ w.links, ∃ frame, IsFrame format.limit frame ∧ link' = format.relink link frame := by
  have hforall := h.links
  generalize w.links = links at hforall ⊢
  generalize copy.links = links' at hforall hlink
  induction hforall with
  | nil => exact absurd hlink List.not_mem_nil
  | cons hhead _ ih =>
    rcases List.mem_cons.mp hlink with rfl | htail
    · exact ⟨_, List.mem_cons_self, hhead⟩
    · obtain ⟨link, hmem, hframe⟩ := ih htail
      exact ⟨link, List.mem_cons_of_mem _ hmem, hframe⟩

/-- A relation between leaves and links that copying keeps. -/
def KeptByClone (format : TableFormat) (relation : ℕ → ℕ → Prop) : Prop :=
  ∀ leaf link frame, IsFrame format.limit frame → relation leaf link →
    relation (if format.isPresent leaf then leaf else 0) (format.relink link frame)

theorem Cloned.respects {depth src dst : ℕ} {before after : TableStore σ}
    (hcloned : Cloned format source depth src dst before after) {relation : ℕ → ℕ → Prop}
    (hkept : KeptByClone format relation)
    (hrespects : Respects format relation before.mem depth src) :
    Respects format relation after.mem depth dst := by
  intro path hpath link' hlink'
  have hcopy := hcloned.copied path hpath
  obtain ⟨link, hlink, frame, hframe, rfl⟩ := hcopy.exists_link hlink'
  rw [hcopy.leaf_eq]
  exact hkept _ _ _ hframe (hrespects path hpath link hlink)

/-! ### Fresh trees -/

theorem FreshTree.isFrame {depth root : ℕ} {before after : TableStore σ}
    (hfresh : FreshTree format source depth root before after)
    (hsound : source.Sound before.frames) :
    ∀ t ∈ tables format after.mem depth root, IsFrame format.limit t :=
  fun t ht ↦ source.isFrame _ hsound t (hfresh.was_available t ht)

theorem FreshTree.ownedTree {depth root : ℕ} {before after : TableStore σ}
    (hfresh : FreshTree format source depth root before after)
    (hsound : source.Sound before.frames) : OwnedTree source after depth root where
  nodup := hfresh.nodup
  isFrame := hfresh.isFrame hsound
  not_available := fun t ht ↦ by
    rw [hfresh.available_eq, Finset.mem_sdiff, List.mem_toFinset]
    exact fun h ↦ h.2 ht

/-- A tree that owned its frames before is not touched by a fresh tree. -/
theorem FreshTree.same_owned {depth root otherDepth other : ℕ} {before after : TableStore σ}
    (hfresh : FreshTree format source depth root before after)
    (hother : OwnedTree source before otherDepth other) :
    ∀ t ∈ tables format before.mem otherDepth other, SameTable before.mem after.mem t := by
  intro t ht
  refine hfresh.same t (hother.isFrame t ht) fun hmem ↦ ?_
  exact hother.not_available t ht (hfresh.was_available t hmem)

theorem FreshTree.owned_other {depth root otherDepth other : ℕ} {before after : TableStore σ}
    (hfresh : FreshTree format source depth root before after)
    (hother : OwnedTree source before otherDepth other) :
    OwnedTree source after otherDepth other := by
  have hsame := hfresh.same_owned hother
  refine ⟨hother.toTreeAt.congr hsame, fun t ht ↦ ?_⟩
  rw [tables_congr _ _ hsame] at ht
  rw [hfresh.available_eq, Finset.mem_sdiff]
  exact fun h ↦ hother.not_available t ht h.1

/-- A fresh tree that grows is a fresh tree. -/
theorem FreshTree.grow {depth root : ℕ} {before middle after : TableStore σ} {added : List ℕ}
    (hfresh : FreshTree format source depth root before middle)
    (hgrown : Grown source depth root middle after added)
    (hsound : source.Sound before.frames) (hmiddle : source.Sound middle.frames) :
    FreshTree format source depth root before after where
  nodup := (hgrown.ownedTree (hfresh.ownedTree hsound) hmiddle).nodup
  was_available := fun t ht ↦ by
    rcases List.mem_append.mp (hgrown.perm.mem_iff.mp ht) with hadded | hold
    · have havailable := hgrown.added_available t hadded
      rw [hfresh.available_eq] at havailable
      exact (Finset.mem_sdiff.mp havailable).1
    · exact hfresh.was_available t hold
  available_eq := by
    rw [hgrown.available_eq, hfresh.available_eq, List.toFinset_eq_of_perm _ _ hgrown.perm,
      List.toFinset_append, Finset.union_comm]
    exact sdiff_sdiff_left
  same := fun t ht hnot ↦ by
    obtain ⟨hadded, hold⟩ :=
      not_or.mp fun h ↦ hnot (hgrown.perm.mem_iff.mpr (List.mem_append.mpr h))
    exact (hfresh.same t ht hold).trans (hgrown.same t ht hadded hold)

/-- A new table of zeros is a fresh tree. -/
theorem freshTree_newTable (depth : ℕ) {s : TableStore σ}
    (hsound : source.Sound (newTable format source s).1.frames) :
    FreshTree format source depth (newTable format source s).2 s (newTable format source s).1 := by
  have hmem := source.alloc_mem s.frames hsound
  have hframe := source.isFrame _ (source.sound_of_alloc _ hsound) _ hmem
  have htables : tables format (newTable format source s).1.mem depth
      (newTable format source s).2 = [(newTable format source s).2] :=
    tables_of_zero (fun i hi ↦ zeroTable_slot _ _ hi) depth
  refine ⟨?_, ?_, ?_, ?_⟩
  · rw [htables]
    exact List.nodup_singleton _
  · intro t ht
    rw [htables, List.mem_singleton] at ht
    rw [ht]
    exact hmem
  · rw [htables]
    change source.available (source.alloc s.frames).1 = _ \ [(source.alloc s.frames).2].toFinset
    rw [source.available_alloc _ hsound, Finset.erase_eq]
    simp
  · intro t ht hne
    rw [htables, List.mem_singleton] at hne
    exact sameTable_zeroTable s.mem hframe ht hne

/-! ### One entry of the loop -/

/-- The walk through an entry with nothing below it. -/
theorem walk_stop {mem : WordMemory} {depth table i : ℕ} {path : List ℕ}
    (hpath : IsPath depth (i :: path))
    (hstop : depth = 0 ∨ format.isTable (mem (slot table i)) = false) :
    walk format mem table (i :: path) = ⟨[], depth, mem (slot table i)⟩ := by
  cases depth with
  | zero =>
    obtain ⟨j, hj, -⟩ := hpath.exists_singleton
    obtain ⟨rfl, rfl⟩ := List.cons.inj hj
    exact walk_singleton mem table i
  | succ depth =>
    exact walk_of_not_isTable (IsPath.cons_iff.mp hpath).2 (hstop.resolve_left (by omega))

/-- The tables found through an entry with nothing below it. -/
theorem tablesThrough_stop {mem : WordMemory} {depth entry : ℕ}
    (hstop : depth = 0 ∨ format.isTable entry = false) :
    tablesThrough format mem depth entry = [] := by
  rcases hstop with rfl | hnot
  · rfl
  · exact tablesThrough_of_not_isTable depth hnot

/-- One more entry has been copied when the tree of the copy has grown behind that entry only,
and walks through it are copies. -/
theorem Cloning.next {depth src dst k : ℕ} {before now after : TableStore σ} (added : List ℕ)
    (hcloning : Cloning format source depth src dst k before now)
    (hsound : source.Sound before.frames) (hnow : source.Sound now.frames)
    (honly : OnlyThrough format now.mem after.mem depth dst k)
    (hgrown : Grown source depth dst now after added)
    (hlength : added.length =
      (tablesThrough format before.mem depth (before.mem (slot src k))).length)
    (hcopied : ∀ path, IsPath depth (k :: path) → CopyOf format
      (walk format before.mem src (k :: path)) (walk format after.mem dst (k :: path))) :
    Cloning format source depth src dst (k + 1) before after where
  toFreshTree := hcloning.toFreshTree.grow hgrown hsound hnow
  vacant := fun i hi hle ↦ by
    rw [honly.entry_eq i hi (by omega)]
    exact hcloning.vacant i hi (by omega)
  copied := fun i hi path hpath ↦ by
    by_cases hik : i = k
    · rw [hik] at hpath ⊢
      exact hcopied path hpath
    · rw [honly.walk_eq hpath hik]
      exact hcloning.copied i (by omega) path hpath
  length_eq := by
    rw [hgrown.perm.length_eq, List.length_append, hcloning.length_eq, hlength, List.range_succ,
      List.flatMap_append, List.length_append, List.flatMap_singleton]
    omega

/-- The source of the copy is as it was, with all the tables below it. -/
theorem Cloning.src_entry {depth src dst k i : ℕ} {before now : TableStore σ}
    (hcloning : Cloning format source depth src dst k before now)
    (htree : OwnedTree source before depth src) (hi : i < fanout) :
    now.mem (slot src i) = before.mem (slot src i) :=
  hcloning.same_owned htree src (mem_tables_self _ _ _) i hi

/-- An entry that is not present is left at 0. -/
theorem Cloning.skip {depth src dst k : ℕ} {before now : TableStore σ}
    (hcloning : Cloning format source depth src dst k before now)
    (hsound : source.Sound before.frames) (hnow : source.Sound now.frames) (hk : k < fanout)
    (habsent : format.isPresent (before.mem (slot src k)) = false) :
    Cloning format source depth src dst (k + 1) before now := by
  have hzero := hcloning.vacant k hk le_rfl
  have hnot : format.isTable (before.mem (slot src k)) = false := by
    by_contra h
    have hpresent := format.isPresent_of_isTable _ (by simpa using h)
    rw [habsent] at hpresent
    exact Bool.false_ne_true hpresent
  refine hcloning.next [] hsound hnow ⟨fun _ _ _ ↦ rfl, fun _ _ _ t _ ↦ SameTable.refl _ t⟩
    ⟨List.Perm.refl _, List.nodup_nil, by simp, by simp, fun t _ _ _ ↦ SameTable.refl _ t⟩
    (by rw [tablesThrough_of_not_isTable depth hnot]) fun path hpath ↦ ?_
  rw [walk_stop hpath (Or.inr hnot),
    walk_stop hpath (Or.inr (by rw [hzero]; exact isTable_zero)), hzero]
  have hcopy := copyOf_stop format depth (before.mem (slot src k))
  rwa [if_neg (by simp [habsent])] at hcopy

/-- Storing into entry `k` of the copy, which was vacant, changes the tree of the copy behind
that entry only. -/
theorem Cloning.onlyThrough_store {depth src dst k : ℕ} {before now : TableStore σ}
    (hcloning : Cloning format source depth src dst k before now)
    (hsound : source.Sound before.frames) (hk : k < fanout) (value : ℕ) :
    OnlyThrough format now.mem (now.mem.store (slot dst k) value) depth dst k where
  entry_eq := fun _ _ hne ↦ WordMemory.store_of_ne _ _ (slot_ne_of_index_ne hne)
  same := fun i hi _ t ht ↦ by
    have howned := hcloning.ownedTree hsound
    refine sameTable_store _ _ howned.isFrame_root (howned.isFrame t (mem_tables_of_through hi ht))
      ?_ hk
    rintro rfl
    exact howned.root_notMem hi ht

/-- An entry with nothing below it is copied as it is. -/
theorem Cloning.copy {depth src dst k : ℕ} {before now : TableStore σ}
    (hcloning : Cloning format source depth src dst k before now)
    (hsound : source.Sound before.frames) (hnow : source.Sound now.frames) (hk : k < fanout)
    (hpresent : format.isPresent (before.mem (slot src k)) = true)
    (hstop : depth = 0 ∨ format.isTable (before.mem (slot src k)) = false) :
    Cloning format source depth src dst (k + 1) before
      { now with mem := now.mem.store (slot dst k) (before.mem (slot src k)) } := by
  have honly := hcloning.onlyThrough_store hsound hk (before.mem (slot src k))
  have hentry : now.mem.store (slot dst k) (before.mem (slot src k)) (slot dst k) =
      before.mem (slot src k) := WordMemory.store_same _ _ _
  have hzero := hcloning.vacant k hk le_rfl
  refine hcloning.next [] hsound hnow honly ⟨?_, List.nodup_nil, by simp, by simp, ?_⟩
    (by rw [tablesThrough_stop hstop]) fun path hpath ↦ ?_
  · refine honly.tables_perm hk ?_
    rw [hentry, tablesThrough_stop hstop, hzero, tablesThrough_of_not_isTable _ isTable_zero]
    exact List.Perm.refl _
  · intro t ht _ hne
    refine sameTable_store _ _ (hcloning.ownedTree hsound).isFrame_root ht ?_ hk
    rintro rfl
    exact hne (mem_tables_self _ _ _)
  · dsimp only
    rw [walk_stop hpath hstop,
      walk_stop hpath (by rwa [hentry]), hentry]
    have hcopy := copyOf_stop format depth (before.mem (slot src k))
    rwa [if_pos hpresent] at hcopy

/-- A link is copied by copying what lies behind it and linking to the copy. -/
theorem Cloning.descend {depth src dst k child : ℕ} {before now below : TableStore σ}
    (hcloning : Cloning format source (depth + 1) src dst k before now)
    (htree : OwnedTree source before (depth + 1) src)
    (hsound : source.Sound before.frames) (hnow : source.Sound now.frames) (hk : k < fanout)
    (htable : format.isTable (before.mem (slot src k)) = true)
    (hchild : Cloned format source depth (format.child (before.mem (slot src k))) child now below) :
    Cloning format source (depth + 1) src dst (k + 1) before
      { below with
        mem := below.mem.store (slot dst k) (format.relink (before.mem (slot src k)) child) } := by
  have howned := hcloning.ownedTree hsound
  have hdst := howned.isFrame_root
  have hframe : IsFrame format.limit child := hchild.isFrame hnow child (mem_tables_self _ _ _)
  have hoff : ∀ t ∈ tables format below.mem depth child, t ≠ dst := by
    rintro t ht rfl
    exact howned.not_available _ (mem_tables_self _ _ _) (hchild.was_available _ ht)
  have hbelow := hchild.same_owned howned
  have hsrc : ∀ t ∈ tables format before.mem depth (format.child (before.mem (slot src k))),
      SameTable before.mem now.mem t := by
    intro t ht
    refine hcloning.same_owned htree t (mem_tables_of_through hk ?_)
    rwa [tablesThrough_of_isTable htable]
  generalize hlink : format.relink (before.mem (slot src k)) child = link
  have hlinkTable : format.isTable link = true := hlink ▸ format.isTable_relink _ _ htable hframe
  have hlinkChild : format.child link = child := hlink ▸ format.child_relink _ _ hframe
  have hentry : below.mem.store (slot dst k) link (slot dst k) = link := WordMemory.store_same _ _ _
  have hstore : ∀ t ∈ tables format below.mem depth child,
      SameTable below.mem (below.mem.store (slot dst k) link) t :=
    fun t ht ↦ sameTable_store _ _ hdst (hchild.isFrame hnow t ht) (hoff t ht) hk
  have htables : tables format (below.mem.store (slot dst k) link) depth child =
      tables format below.mem depth child := tables_congr depth child hstore
  have honly : OnlyThrough format now.mem (below.mem.store (slot dst k) link) (depth + 1) dst k := by
    refine ⟨fun i hi hne ↦ ?_, fun i hi hne t ht ↦ ?_⟩
    · rw [WordMemory.store_of_ne _ _ (slot_ne_of_index_ne hne)]
      exact hbelow dst (mem_tables_self _ _ _) i hi
    · have hmem := mem_tables_of_through hi ht
      refine (hbelow t hmem).trans (sameTable_store _ _ hdst (howned.isFrame t hmem) ?_ hk)
      rintro rfl
      exact howned.root_notMem hi ht
  refine hcloning.next (tables format below.mem depth child) hsound hnow honly
    ⟨?_, hchild.nodup, hchild.was_available, hchild.available_eq, ?_⟩ ?_ fun path hpath ↦ ?_
  · refine honly.tables_perm hk ?_
    rw [hentry, tablesThrough_of_isTable hlinkTable, hlinkChild, htables,
      hcloning.vacant k hk le_rfl, tablesThrough_of_not_isTable _ isTable_zero, List.append_nil]
  · intro t ht hnot hold
    refine (hchild.same t ht hnot).trans (sameTable_store _ _ hdst ht ?_ hk)
    rintro rfl
    exact hold (mem_tables_self _ _ _)
  · rw [hchild.length_eq, tablesThrough_of_isTable htable, tables_congr depth _ hsrc]
  · obtain ⟨-, hrest⟩ := IsPath.cons_iff.mp hpath
    have hcopy := hchild.copied path hrest
    rw [walk_congr depth _ hsrc path hrest] at hcopy
    dsimp only
    rw [walk_of_isTable hrest htable, walk_of_isTable hrest (by rwa [hentry]), hentry, hlinkChild,
      walk_congr depth child hstore path hrest]
    exact ⟨hcopy.level_eq, hcopy.entry_eq,
      List.Forall₂.cons ⟨child, hframe, hlink.symm⟩ hcopy.links⟩

/-! ### The loop and the recursion -/

theorem sound_of_cloneSlot {depth src dst : ℕ}
    {cloneChild : Option (TableStore σ → ℕ → TableStore σ × ℕ)}
    (hclone : ClonesBelow format source depth cloneChild) {s : TableStore σ} {i : ℕ}
    (hsound : source.Sound (cloneSlot format cloneChild src dst s i).frames) :
    source.Sound s.frames := by
  unfold cloneSlot at hsound
  by_cases hpresent : format.isPresent (s.mem (slot src i)) = true
  · simp only [hpresent, if_true] at hsound
    cases cloneChild with
    | none => exact hsound
    | some clone =>
      cases depth with
      | zero => exact hclone.elim
      | succ depth =>
        dsimp only at hsound
        split_ifs at hsound
        · exact hclone.sound _ _ hsound
        · exact hsound
  · simpa only [hpresent, Bool.false_eq_true, if_false] using hsound

/-- The loop starts with a table of zeros. -/
theorem cloning_zero (depth src : ℕ) {s : TableStore σ}
    (hsound : source.Sound (newTable format source s).1.frames) :
    Cloning format source depth src (newTable format source s).2 0 s
      (newTable format source s).1 where
  toFreshTree := freshTree_newTable depth hsound
  vacant := fun _ hi _ ↦ zeroTable_slot _ _ hi
  copied := fun i hi ↦ absurd hi (by omega)
  length_eq := by
    have hzero : ∀ i < fanout,
        (newTable format source s).1.mem (slot (newTable format source s).2 i) = 0 :=
      fun i hi ↦ zeroTable_slot _ _ hi
    rw [tables_of_zero hzero]
    simp

/-- One round of the loop. -/
theorem Cloning.cloneSlot {depth src dst k : ℕ} {before now : TableStore σ}
    {cloneChild : Option (TableStore σ → ℕ → TableStore σ × ℕ)}
    (hclone : ClonesBelow format source depth cloneChild)
    (hcloning : Cloning format source depth src dst k before now)
    (htree : OwnedTree source before depth src) (hsound : source.Sound before.frames)
    (hk : k < fanout)
    (hafter : source.Sound (cloneSlot format cloneChild src dst now k).frames) :
    Cloning format source depth src dst (k + 1) before
      (cloneSlot format cloneChild src dst now k) := by
  have hnow := sound_of_cloneSlot hclone hafter
  have hentry := hcloning.src_entry htree hk
  unfold Foundation.cloneSlot at hafter ⊢
  rw [hentry] at hafter ⊢
  by_cases hpresent : format.isPresent (before.mem (slot src k)) = true
  · simp only [hpresent, if_true] at hafter ⊢
    cases depth with
    | zero =>
      cases cloneChild with
      | none => exact hcloning.copy hsound hnow hk hpresent (Or.inl rfl)
      | some clone => exact hclone.elim
    | succ depth =>
      cases cloneChild with
      | none => exact hclone.elim
      | some clone =>
        by_cases htable : format.isTable (before.mem (slot src k)) = true
        · simp only [htable, if_true] at hafter ⊢
          exact hcloning.descend htree hsound hnow hk htable
            (hclone.cloned _ _ (hcloning.owned_other (htree.child hk htable)) hafter)
        · simp only [htable] at hafter ⊢
          exact hcloning.copy hsound hnow hk hpresent (Or.inr (by simpa using htable))
  · simp only [hpresent] at hafter ⊢
    exact hcloning.skip hsound hnow hk (by simpa using hpresent)

/-- The whole loop, and with it the copy of one table. -/
theorem cloned_of_clonesBelow {depth src : ℕ} {s : TableStore σ}
    {cloneChild : Option (TableStore σ → ℕ → TableStore σ × ℕ)}
    (hclone : ClonesBelow format source depth cloneChild) (htree : OwnedTree source s depth src)
    (hsound : source.Sound ((List.range fanout).foldl
      (cloneSlot format cloneChild src (newTable format source s).2)
        (newTable format source s).1).frames) :
    Cloned format source depth src (newTable format source s).2 s
      ((List.range fanout).foldl (cloneSlot format cloneChild src (newTable format source s).2)
        (newTable format source s).1) := by
  have hloop : ∀ n ≤ fanout, source.Sound ((List.range n).foldl
      (cloneSlot format cloneChild src (newTable format source s).2)
        (newTable format source s).1).frames →
      source.Sound s.frames ∧ Cloning format source depth src (newTable format source s).2 n s
        ((List.range n).foldl (cloneSlot format cloneChild src (newTable format source s).2)
          (newTable format source s).1) := by
    intro n
    induction n with
    | zero =>
      intro _ hnew
      exact ⟨source.sound_of_alloc _ hnew, cloning_zero depth src hnew⟩
    | succ n ih =>
      intro hn hnext
      rw [List.range_succ, List.foldl_append, List.foldl_cons, List.foldl_nil] at hnext ⊢
      obtain ⟨hbefore, hcloning⟩ := ih (by omega) (sound_of_cloneSlot hclone hnext)
      exact ⟨hbefore, hcloning.cloneSlot hclone htree hbefore (by omega) hnext⟩
  obtain ⟨-, hcloning⟩ := hloop fanout le_rfl hsound
  refine ⟨hcloning.toFreshTree, fun path hpath ↦ ?_, ?_⟩
  · cases path with
    | nil => exact absurd hpath.length_eq (by simp)
    | cons i path => exact hcloning.copied i (hpath.lt_fanout i List.mem_cons_self) path hpath
  · rw [hcloning.length_eq, tables_eq format s.mem depth src, List.length_append,
      List.length_singleton]

theorem sound_of_clonesBelow {depth src : ℕ}
    {cloneChild : Option (TableStore σ → ℕ → TableStore σ × ℕ)}
    (hclone : ClonesBelow format source depth cloneChild) (indices : List ℕ) :
    ∀ {dst : ℕ} {now : TableStore σ},
      source.Sound (indices.foldl (cloneSlot format cloneChild src dst) now).frames →
        source.Sound now.frames := by
  induction indices with
  | nil => exact fun h ↦ h
  | cons i indices ih => exact fun h ↦ sound_of_cloneSlot hclone (ih h)

/-- A round of the loop is served when there are frames for what lies behind the entry. -/
theorem Cloning.sound_cloneSlot {depth src dst k : ℕ} {before now : TableStore σ}
    {cloneChild : Option (TableStore σ → ℕ → TableStore σ × ℕ)}
    (hclone : ClonesBelow format source depth cloneChild)
    (hcloning : Cloning format source depth src dst k before now)
    (htree : OwnedTree source before depth src) (hnow : source.Sound now.frames) (hk : k < fanout)
    (hcard : (tablesThrough format before.mem depth (before.mem (slot src k))).length ≤
      (source.available now.frames).card) :
    source.Sound (Foundation.cloneSlot format cloneChild src dst now k).frames := by
  unfold Foundation.cloneSlot
  rw [hcloning.src_entry htree hk]
  by_cases hpresent : format.isPresent (before.mem (slot src k)) = true
  · simp only [hpresent, if_true]
    cases depth with
    | zero =>
      cases cloneChild with
      | none => exact hnow
      | some clone => exact hclone.elim
    | succ depth =>
      cases cloneChild with
      | none => exact hclone.elim
      | some clone =>
        by_cases htable : format.isTable (before.mem (slot src k)) = true
        · simp only [htable, if_true]
          have hold : OwnedTree source before depth (format.child (before.mem (slot src k))) :=
            htree.child hk htable
          rw [tablesThrough_of_isTable htable] at hcard
          refine hclone.served _ _ (hcloning.owned_other hold) hnow ?_
          rwa [tables_congr depth _ (hcloning.same_owned hold)]
        · simpa only [htable, Bool.false_eq_true, if_false] using hnow
  · simpa only [hpresent, Bool.false_eq_true, if_false] using hnow

/-- The frames left during the loop. -/
theorem FreshTree.card_available {depth root : ℕ} {before after : TableStore σ}
    (hfresh : FreshTree format source depth root before after) :
    (source.available after.frames).card + (tables format after.mem depth root).length =
      (source.available before.frames).card := by
  have hsubset : (tables format after.mem depth root).toFinset ⊆ source.available before.frames :=
    fun t ht ↦ hfresh.was_available t (List.mem_toFinset.mp ht)
  have hcard := Finset.card_le_card hsubset
  rw [hfresh.available_eq, Finset.card_sdiff_of_subset hsubset,
    List.toFinset_card_of_nodup hfresh.nodup] at *
  omega

/-- The whole loop is served when there are as many frames as the tree has tables. -/
theorem served_of_clonesBelow {depth src : ℕ} {s : TableStore σ}
    {cloneChild : Option (TableStore σ → ℕ → TableStore σ × ℕ)}
    (hclone : ClonesBelow format source depth cloneChild) (htree : OwnedTree source s depth src)
    (hsound : source.Sound s.frames)
    (hcard : (tables format s.mem depth src).length ≤ (source.available s.frames).card) :
    source.Sound ((List.range fanout).foldl
      (cloneSlot format cloneChild src (newTable format source s).2)
        (newTable format source s).1).frames := by
  have hsplit : ∀ n ≤ fanout, ((List.range n).flatMap fun i ↦
      tablesThrough format s.mem depth (s.mem (slot src i))).length ≤
      ((List.range fanout).flatMap fun i ↦
        tablesThrough format s.mem depth (s.mem (slot src i))).length := by
    intro n hn
    obtain ⟨rest, hrest⟩ : (List.range n) <+: List.range fanout :=
      List.prefix_iff_eq_take.mpr (by rw [List.take_range, List.length_range, Nat.min_eq_left hn])
    rw [← hrest, List.flatMap_append, List.length_append]
    omega
  rw [tables_eq, List.length_append, List.length_singleton] at hcard
  have hnew : source.Sound (newTable format source s).1.frames :=
    source.served _ hsound (Finset.card_pos.mp (by omega))
  have hloop : ∀ n ≤ fanout,
      source.Sound ((List.range n).foldl
        (cloneSlot format cloneChild src (newTable format source s).2)
          (newTable format source s).1).frames ∧
      Cloning format source depth src (newTable format source s).2 n s
        ((List.range n).foldl (cloneSlot format cloneChild src (newTable format source s).2)
          (newTable format source s).1) := by
    intro n
    induction n with
    | zero => exact fun _ ↦ ⟨hnew, cloning_zero depth src hnew⟩
    | succ n ih =>
      intro hn
      obtain ⟨hnow, hcloning⟩ := ih (by omega)
      have hleft := hcloning.card_available
      have hbound := hsplit (n + 1) hn
      rw [List.range_succ, List.flatMap_append, List.length_append, List.flatMap_singleton] at hbound
      have hnext := hcloning.sound_cloneSlot hclone htree hnow (by omega) (by
        have hlength := hcloning.length_eq
        omega)
      rw [List.range_succ, List.foldl_append, List.foldl_cons, List.foldl_nil]
      exact ⟨hnext, hcloning.cloneSlot hclone htree hsound (by omega) hnext⟩
  exact (hloop fanout le_rfl).1

/-- `cloneTable` copies trees of every depth. -/
theorem clones_cloneTable (depth : ℕ) :
    Clones format source depth (cloneTable format source depth) := by
  induction depth with
  | zero =>
    have hbelow : ClonesBelow format source 0 none := trivial
    exact ⟨fun s src h ↦ source.sound_of_alloc _ (sound_of_clonesBelow hbelow _ h),
      fun s src htree h ↦ cloned_of_clonesBelow hbelow htree h,
      fun s src htree hsound hcard ↦ served_of_clonesBelow hbelow htree hsound hcard⟩
  | succ depth ih =>
    have hbelow : ClonesBelow format source (depth + 1) (some (cloneTable format source depth)) := ih
    exact ⟨fun s src h ↦ source.sound_of_alloc _ (sound_of_clonesBelow hbelow _ h),
      fun s src htree h ↦ cloned_of_clonesBelow hbelow htree h,
      fun s src htree hsound hcard ↦ served_of_clonesBelow hbelow htree hsound hcard⟩

/-! ### What the allocator keeps -/

section Allocator

variable (source) (property : σ → Prop)
  (halloc : ∀ frames, property frames → property (source.alloc frames).1)

include halloc

/-- What every request keeps, an edit keeps. -/
theorem frames_editPath (style : LinkStyle format) (edit : ℕ → ℕ) (path : List ℕ) :
    ∀ {s : TableStore σ} {table : ℕ}, property s.frames →
      property (editPath format source style edit s table path).frames := by
  induction path with
  | nil => exact fun h ↦ h
  | cons i path ih =>
    intro s table h
    cases path with
    | nil => exact h
    | cons j path =>
      have hchild : property (ensureChild format source style s table i).1.frames := by
        unfold ensureChild
        dsimp only
        split_ifs
        · exact h
        · exact h
        · exact halloc _ h
      rw [editPath]
      dsimp only
      split_ifs
      · exact hchild
      · exact ih hchild

/-- What every request keeps, a copy keeps. -/
theorem frames_cloneTable (depth : ℕ) :
    ∀ {s : TableStore σ} {src : ℕ}, property s.frames →
      property (cloneTable format source depth s src).1.frames := by
  have hloop : ∀ (cloneChild : Option (TableStore σ → ℕ → TableStore σ × ℕ)) (src dst : ℕ),
      (∀ clone ∈ cloneChild, ∀ s src, property s.frames → property (clone s src).1.frames) →
      ∀ (indices : List ℕ) (s : TableStore σ), property s.frames →
        property (indices.foldl (cloneSlot format cloneChild src dst) s).frames := by
    intro cloneChild src dst hchild indices
    induction indices with
    | nil => exact fun _ h ↦ h
    | cons i indices ih =>
      intro s h
      refine ih _ ?_
      unfold cloneSlot
      by_cases hpresent : format.isPresent (s.mem (slot src i)) = true
      · simp only [hpresent, if_true]
        cases cloneChild with
        | none => exact h
        | some clone =>
          dsimp only
          split_ifs
          · exact hchild clone rfl _ _ h
          · exact h
      · simpa only [hpresent, Bool.false_eq_true, if_false] using h
  induction depth with
  | zero => exact fun h ↦ hloop none _ _ (by simp) _ _ (halloc _ h)
  | succ depth ih =>
    intro s src h
    refine hloop (some (cloneTable format source depth)) _ _ ?_ _ _ (halloc _ h)
    intro clone hclone s src h
    rw [← Option.some.inj hclone]
    exact ih h

end Allocator

end CloneSpec

end MegKer.Foundation
