import MegKer.Foundation.RadixTable
import Mathlib.Data.Finset.Card
import Mathlib.Data.Finset.Lattice.Lemmas
import Mathlib.Data.List.Perm.Basic

/-!
# Editing one path of a radix table

`editPath` goes down a path, creates the tables that are missing on the way, and rewrites the
entry of the last level; it gives up on a block. `leafSlot` finds the entry of the last level
without creating anything.

The specification of `editPath` has two halves, proved together by induction on the path.
`Grown` is about frames: the tables of the tree are the old ones and the frames just allocated,
and no other frame is written. `Edited` is about walks: exactly the one leaf changes, unless the
path ends on a block, and then nothing does. Links may be created and touched on the way, which
walks do see; `Respects` states a relation between each leaf and the links that lead to it, and
`Edited` carries every such relation over that the new entries satisfy.
-/

set_option autoImplicit false
set_option relaxedAutoImplicit false

namespace MegKer.Foundation

/-! ### The algorithms -/

section Algorithms

variable {σ : Type} (format : TableFormat) (source : FrameSource σ format.limit)

/-- Allocate a frame and fill it with zeros. -/
def newTable (s : TableStore σ) : TableStore σ × ℕ :=
  let (frames, frame) := source.alloc s.frames
  (⟨frames, zeroTable s.mem frame⟩, frame)

/-- The child table behind an entry, created when the entry is vacant; 0 on a block. -/
def ensureChild (style : LinkStyle format) (s : TableStore σ) (table i : ℕ) : TableStore σ × ℕ :=
  let entry := s.mem (slot table i)
  if format.isBlock entry then (s, 0)
  else if format.isTable entry then
    ({ s with mem := s.mem.store (slot table i) (style.touch entry) },
      format.child (style.touch entry))
  else
    let (s, frame) := newTable format source s
    ({ s with mem := s.mem.store (slot table i) (style.fresh frame) },
      format.child (style.fresh frame))

/-- Go down a path, creating what is missing, and rewrite the last entry. -/
def editPath (style : LinkStyle format) (edit : ℕ → ℕ) :
    TableStore σ → (table : ℕ) → (path : List ℕ) → TableStore σ
  | s, _, [] => s
  | s, table, [i] => { s with mem := s.mem.store (slot table i) (edit (s.mem (slot table i))) }
  | s, table, i :: j :: path =>
    let (s, child) := ensureChild format source style s table i
    if child = 0 then s else editPath style edit s child (j :: path)

/-- The address of the entry of the last level on a path. -/
def leafSlot (mem : WordMemory) : (table : ℕ) → (path : List ℕ) → Option ℕ
  | _, [] => none
  | table, [i] => some (slot table i)
  | table, i :: j :: path =>
    let entry := mem (slot table i)
    if format.isTable entry then leafSlot mem (format.child entry) (j :: path) else none

end Algorithms

/-! ### Changing what lies behind one entry -/

/-- Two lists of lists that differ at one index. -/
theorem flatMap_perm_of_eq_off {l : List ℕ} {f g : ℕ → List ℕ} {i : ℕ} {added : List ℕ}
    (hnodup : l.Nodup) (hi : i ∈ l) (hoff : ∀ k ∈ l, k ≠ i → g k = f k)
    (hat : (g i).Perm (added ++ f i)) : (l.flatMap g).Perm (added ++ l.flatMap f) := by
  induction l with
  | nil => exact absurd hi List.not_mem_nil
  | cons k l ih =>
    obtain ⟨hk, hl⟩ := List.nodup_cons.mp hnodup
    rw [List.flatMap_cons, List.flatMap_cons]
    by_cases heq : k = i
    · have htail : l.flatMap g = l.flatMap f :=
        List.flatMap_congr fun j hj ↦
          hoff j (List.mem_cons_of_mem k hj) fun h ↦ hk (by rw [heq, ← h]; exact hj)
      rw [htail, heq, ← List.append_assoc]
      exact hat.append_right _
    · have htail := ih hl ((List.mem_cons.mp hi).resolve_left fun h ↦ heq h.symm)
        fun j hj ↦ hoff j (List.mem_cons_of_mem k hj)
      rw [hoff k List.mem_cons_self heq]
      exact (htail.append_left (f k)).trans (List.perm_append_comm_assoc _ _ _)

/-- Outside of entry `i` of the root, and of what lies behind it, the tree is the same. -/
structure OnlyThrough (format : TableFormat) (before after : WordMemory) (depth root i : ℕ) :
    Prop where
  entry_eq : ∀ k < fanout, k ≠ i → after (slot root k) = before (slot root k)
  same : ∀ k < fanout, k ≠ i →
    ∀ t ∈ tablesThrough format before depth (before (slot root k)), SameTable before after t

namespace OnlyThrough

variable {format : TableFormat} {before after : WordMemory} {depth root i : ℕ}

theorem through_eq (h : OnlyThrough format before after depth root i) {k : ℕ} (hk : k < fanout)
    (hne : k ≠ i) : tablesThrough format after depth (after (slot root k)) =
      tablesThrough format before depth (before (slot root k)) := by
  rw [h.entry_eq k hk hne]
  exact tablesThrough_congr (h.same k hk hne)

theorem walk_eq (h : OnlyThrough format before after depth root i) {k : ℕ} {path : List ℕ}
    (hpath : IsPath depth (k :: path)) (hne : k ≠ i) :
    walk format after root (k :: path) = walk format before root (k :: path) := by
  have hk : k < fanout := hpath.lt_fanout k List.mem_cons_self
  have hentry := h.entry_eq k hk hne
  cases depth with
  | zero =>
    obtain ⟨j, hj, -⟩ := hpath.exists_singleton
    rw [hj] at hpath ⊢
    rw [walk_singleton, walk_singleton]
    obtain ⟨rfl, -⟩ := List.cons.inj hj
    rw [hentry]
  | succ depth =>
    obtain ⟨-, hrest⟩ := IsPath.cons_iff.mp hpath
    by_cases htable : format.isTable (before (slot root k)) = true
    · have hsame := h.same k hk hne
      rw [tablesThrough_of_isTable htable] at hsame
      rw [walk_of_isTable hrest htable, walk_of_isTable hrest (by rwa [hentry]), hentry,
        walk_congr depth _ hsame path hrest]
    · have hnot : format.isTable (before (slot root k)) = false := by simpa using htable
      rw [walk_of_not_isTable hrest hnot, walk_of_not_isTable hrest (by rwa [hentry]), hentry]

theorem tables_perm (h : OnlyThrough format before after depth root i) (hi : i < fanout)
    {added : List ℕ}
    (hperm : (tablesThrough format after depth (after (slot root i))).Perm
      (added ++ tablesThrough format before depth (before (slot root i)))) :
    (tables format after depth root).Perm (added ++ tables format before depth root) := by
  rw [tables_eq, tables_eq, ← List.append_assoc]
  refine List.Perm.append_right _ (flatMap_perm_of_eq_off List.nodup_range
    (List.mem_range.mpr hi) (fun k hk hne ↦ ?_) hperm)
  exact h.through_eq (List.mem_range.mp hk) hne

end OnlyThrough

/-! ### What an edit does -/

/-- A tree has gained the frames `added`, which were available, and nothing outside of the tree
has been written. -/
structure Grown {σ : Type} {format : TableFormat} (source : FrameSource σ format.limit)
    (depth root : ℕ) (before after : TableStore σ) (added : List ℕ) : Prop where
  perm : (tables format after.mem depth root).Perm (added ++ tables format before.mem depth root)
  added_nodup : added.Nodup
  added_available : ∀ t ∈ added, t ∈ source.available before.frames
  available_eq : source.available after.frames = source.available before.frames \ added.toFinset
  same : ∀ t, IsFrame format.limit t → t ∉ added → t ∉ tables format before.mem depth root →
    SameTable before.mem after.mem t

/-- A relation between every leaf and the links on the way to it. -/
def Respects (format : TableFormat) (relation : ℕ → ℕ → Prop) (mem : WordMemory)
    (depth root : ℕ) : Prop :=
  ∀ path, IsPath depth path → ∀ link ∈ (walk format mem root path).links,
    relation (walk format mem root path).leaf link

/-- The links that an edit writes stand in the relation to the leaves found behind them. -/
structure KeptByEdit {format : TableFormat} (style : LinkStyle format) (edit : ℕ → ℕ)
    (relation : ℕ → ℕ → Prop) : Prop where
  touch : ∀ leaf link, relation leaf link → relation leaf (style.touch link)
  fresh : ∀ frame, IsFrame format.limit frame → relation 0 (style.fresh frame)
  edit_touch : ∀ leaf link, relation leaf link → relation (edit leaf) (style.touch link)
  edit_fresh : ∀ frame, IsFrame format.limit frame → relation (edit 0) (style.fresh frame)

/-- Exactly the leaf at the end of `path` has been edited, or none when there is a block on the
path. -/
structure Edited {format : TableFormat} (style : LinkStyle format) (edit : ℕ → ℕ)
    (depth root : ℕ) (path : List ℕ) (before after : WordMemory) : Prop where
  block_eq : ∀ other, IsPath depth other →
    (walk format after root other).block format = (walk format before root other).block format
  leaf_eq : ∀ other, IsPath depth other →
    (walk format after root other).leaf =
      if other = path ∧ (walk format before root path).block format = none then
        edit (walk format before root other).leaf
      else (walk format before root other).leaf
  respects : ∀ relation, KeptByEdit style edit relation →
    Respects format relation before depth root → Respects format relation after depth root

section Spec

variable {σ : Type} {format : TableFormat} {source : FrameSource σ format.limit}

/-- A well-formed tree none of whose frames is available, the state in which a tree is edited. -/
structure OwnedTree (source : FrameSource σ format.limit) (s : TableStore σ) (depth root : ℕ) :
    Prop extends TreeAt format s.mem depth root where
  not_available : ∀ t ∈ tables format s.mem depth root, t ∉ source.available s.frames

/-- The tree below a link owns its frames too. -/
theorem OwnedTree.child {s : TableStore σ} {depth root i : ℕ}
    (htree : OwnedTree source s (depth + 1) root) (hi : i < fanout)
    (htable : format.isTable (s.mem (slot root i)) = true) :
    OwnedTree source s depth (format.child (s.mem (slot root i))) where
  toTreeAt := htree.toTreeAt.child hi htable
  not_available := fun t ht ↦ htree.not_available t (mem_tables_of_through hi (by
    rwa [tablesThrough_of_isTable htable]))

/-- A tree that has grown is still well formed, and still owns its frames. -/
theorem Grown.ownedTree {depth root : ℕ} {before after : TableStore σ} {added : List ℕ}
    (hgrown : Grown source depth root before after added)
    (htree : OwnedTree source before depth root) (hsound : source.Sound before.frames) :
    OwnedTree source after depth root where
  nodup := by
    refine hgrown.perm.nodup_iff.mpr (List.nodup_append'.mpr
      ⟨hgrown.added_nodup, htree.nodup, fun t hadded hold ↦ ?_⟩)
    exact htree.not_available t hold (hgrown.added_available t hadded)
  isFrame := fun t ht ↦ by
    rcases List.mem_append.mp (hgrown.perm.mem_iff.mp ht) with hadded | hold
    · exact source.isFrame _ hsound t (hgrown.added_available t hadded)
    · exact htree.isFrame t hold
  not_available := fun t ht ↦ by
    rw [hgrown.available_eq, Finset.mem_sdiff, List.mem_toFinset]
    rintro ⟨havailable, hnot⟩
    rcases List.mem_append.mp (hgrown.perm.mem_iff.mp ht) with hadded | hold
    · exact hnot hadded
    · exact htree.not_available t hold havailable

/-! ### Tables without links -/

theorem tables_of_no_links {mem : WordMemory} {table : ℕ}
    (hlinks : ∀ i < fanout, format.isTable (mem (slot table i)) = false) (depth : ℕ) :
    tables format mem depth table = [table] := by
  have hnone : ∀ i ∈ List.range fanout, tablesThrough format mem depth (mem (slot table i)) = [] :=
    fun i hi ↦ tablesThrough_of_not_isTable depth (hlinks i (List.mem_range.mp hi))
  rw [tables_eq, List.flatMap_eq_nil_iff.mpr hnone, List.nil_append]

/-- A table with one link at most. -/
theorem tables_perm_of_single {mem : WordMemory} {table i : ℕ} (hi : i < fanout)
    (hlinks : ∀ k < fanout, k ≠ i → format.isTable (mem (slot table k)) = false) (depth : ℕ) :
    (tables format mem depth table).Perm
      (tablesThrough format mem depth (mem (slot table i)) ++ [table]) := by
  rw [tables_eq]
  refine List.Perm.append_right _ ?_
  have hperm : ((List.range fanout).flatMap fun k ↦
      tablesThrough format mem depth (mem (slot table k))).Perm
      (tablesThrough format mem depth (mem (slot table i)) ++
        (List.range fanout).flatMap fun _ ↦ []) :=
    flatMap_perm_of_eq_off List.nodup_range (List.mem_range.mpr hi)
    (fun k hk hne ↦ tablesThrough_of_not_isTable depth (hlinks k (List.mem_range.mp hk) hne))
    (by rw [List.append_nil])
  rwa [List.flatMap_eq_nil_iff.mpr fun _ _ ↦ rfl, List.append_nil] at hperm

/-! ### A table of zeros -/

theorem tables_of_zero {mem : WordMemory} {table : ℕ}
    (hzero : ∀ i < fanout, mem (slot table i) = 0) (depth : ℕ) :
    tables format mem depth table = [table] :=
  tables_of_no_links (fun i hi ↦ by rw [hzero i hi]; exact isTable_zero) depth

theorem walk_of_zero {mem : WordMemory} {table depth : ℕ} {path : List ℕ}
    (hzero : ∀ i < fanout, mem (slot table i) = 0) (hpath : IsPath depth path) :
    walk format mem table path = ⟨[], depth, 0⟩ := by
  cases depth with
  | zero =>
    obtain ⟨i, rfl, hi⟩ := hpath.exists_singleton
    rw [walk_singleton, hzero i hi]
  | succ depth =>
    obtain ⟨i, rest, rfl, hi, hrest⟩ := hpath.exists_cons
    rw [walk_of_not_isTable hrest (by rw [hzero i hi]; exact isTable_zero), hzero i hi]

/-! ### One step down -/

/-- The state after one step down through entry `i`: the entry links to `child`, which holds the
old tree behind the entry and the frames `grown`. -/
structure Entered (source : FrameSource σ format.limit) (style : LinkStyle format)
    (depth root i : ℕ) (before after : TableStore σ) (child : ℕ) (grown : List ℕ) : Prop where
  isTable : format.isTable (after.mem (slot root i)) = true
  child_eq : format.child (after.mem (slot root i)) = child
  tables_eq : tables format after.mem depth child =
    grown ++ tablesThrough format before.mem (depth + 1) (before.mem (slot root i))
  grown_nodup : grown.Nodup
  grown_available : ∀ t ∈ grown, t ∈ source.available before.frames
  available_eq : source.available after.frames = source.available before.frames \ grown.toFinset
  entry_eq : ∀ k < fanout, k ≠ i → after.mem (slot root k) = before.mem (slot root k)
  same : ∀ t, IsFrame format.limit t → t ≠ root → t ∉ grown → SameTable before.mem after.mem t
  leaf_eq : ∀ path, IsPath depth path →
    (walk format after.mem child path).leaf = (walk format before.mem root (i :: path)).leaf
  block_eq : ∀ path, IsPath depth path → (walk format after.mem child path).block format =
    (walk format before.mem root (i :: path)).block format
  respects : ∀ edit relation, KeptByEdit style edit relation →
    Respects format relation before.mem (depth + 1) root →
      Respects format relation after.mem depth child ∧
      ∀ path, IsPath depth path →
        relation (walk format after.mem child path).leaf (after.mem (slot root i)) ∧
        relation (edit (walk format after.mem child path).leaf) (after.mem (slot root i))

theorem entered_of_isTable {s : TableStore σ} (style : LinkStyle format) {depth root i : ℕ}
    (htree : OwnedTree source s (depth + 1) root) (hi : i < fanout)
    (htable : format.isTable (s.mem (slot root i)) = true) :
    Entered source style depth root i s
      { s with mem := s.mem.store (slot root i) (style.touch (s.mem (slot root i))) }
      (format.child (style.touch (s.mem (slot root i)))) [] := by
  have hroot := htree.isFrame_root
  have hthrough : tablesThrough format s.mem (depth + 1) (s.mem (slot root i)) =
      tables format s.mem depth (format.child (s.mem (slot root i))) :=
    tablesThrough_of_isTable htable
  have hsame : ∀ t, IsFrame format.limit t → t ≠ root →
      SameTable s.mem (s.mem.store (slot root i) (style.touch (s.mem (slot root i)))) t :=
    fun t ht hne ↦ sameTable_store s.mem _ hroot ht hne hi
  have hbelow : ∀ t ∈ tables format s.mem depth (format.child (s.mem (slot root i))),
      SameTable s.mem (s.mem.store (slot root i) (style.touch (s.mem (slot root i)))) t := by
    intro t ht
    rw [← hthrough] at ht
    refine hsame t (htree.isFrame t (mem_tables_of_through hi ht)) ?_
    rintro rfl
    exact htree.root_notMem hi ht
  have hwalk : ∀ path, IsPath depth path →
      walk format (s.mem.store (slot root i) (style.touch (s.mem (slot root i))))
        (format.child (style.touch (s.mem (slot root i)))) path =
      walk format s.mem (format.child (s.mem (slot root i))) path := by
    intro path hpath
    rw [style.child_touch]
    exact walk_congr depth _ hbelow path hpath
  have hstep : ∀ path, IsPath depth path → walk format s.mem root (i :: path) =
      (walk format s.mem (format.child (s.mem (slot root i))) path).after (s.mem (slot root i)) :=
    fun path hpath ↦ walk_of_isTable hpath htable
  refine ⟨?_, ?_, ?_, List.nodup_nil, ?_, ?_, ?_, ?_, ?_, ?_, ?_⟩
  · exact (congrArg format.isTable (WordMemory.store_same _ _ _)).trans
      (style.isTable_touch _ htable)
  · exact congrArg format.child (WordMemory.store_same _ _ _)
  · rw [style.child_touch, List.nil_append, hthrough]
    exact tables_congr depth _ hbelow
  · simp
  · simp
  · exact fun k _ hne ↦ WordMemory.store_of_ne _ _ (slot_ne_of_index_ne hne)
  · exact fun t ht hne _ ↦ hsame t ht hne
  · intro path hpath
    rw [hwalk path hpath, hstep path hpath, Walk.leaf_after]
  · intro path hpath
    rw [hwalk path hpath, hstep path hpath, Walk.block_after]
  · intro edit relation hkept hrespects
    have hlink : ∀ path, IsPath depth path →
        relation (walk format s.mem (format.child (s.mem (slot root i))) path).leaf
          (s.mem (slot root i)) := by
      intro path hpath
      have h := hrespects (i :: path) (IsPath.cons_iff.mpr ⟨hi, hpath⟩) (s.mem (slot root i))
      rw [hstep path hpath] at h
      exact h List.mem_cons_self
    constructor
    · intro path hpath link hmem
      rw [hwalk path hpath] at hmem ⊢
      have h := hrespects (i :: path) (IsPath.cons_iff.mpr ⟨hi, hpath⟩) link
      rw [hstep path hpath] at h
      exact h (List.mem_cons_of_mem _ hmem)
    · intro path hpath
      rw [hwalk path hpath]
      change relation _ (s.mem.store _ _ _) ∧ relation _ (s.mem.store _ _ _)
      rw [WordMemory.store_same]
      exact ⟨hkept.touch _ _ (hlink path hpath), hkept.edit_touch _ _ (hlink path hpath)⟩

theorem entered_of_vacant {s : TableStore σ} (style : LinkStyle format) {depth root i : ℕ}
    (htree : OwnedTree source s (depth + 1) root) (hi : i < fanout)
    (hblock : format.isBlock (s.mem (slot root i)) = false)
    (htable : format.isTable (s.mem (slot root i)) = false)
    (hsound : source.Sound (source.alloc s.frames).1) :
    Entered source style depth root i s
      ⟨(source.alloc s.frames).1,
        (zeroTable s.mem (source.alloc s.frames).2).store (slot root i)
          (style.fresh (source.alloc s.frames).2)⟩
      (format.child (style.fresh (source.alloc s.frames).2)) [(source.alloc s.frames).2] := by
  have havailable := source.alloc_mem s.frames hsound
  have havailable_eq := source.available_alloc s.frames hsound
  have hframe := source.isFrame _ (source.sound_of_alloc _ hsound) _ havailable
  generalize (source.alloc s.frames).2 = frame at *
  have hroot := htree.isFrame_root
  have hne : frame ≠ root := by
    rintro rfl
    exact htree.not_available _ (mem_tables_self _ _ _) havailable
  have hzero : ∀ k < fanout,
      ((zeroTable s.mem frame).store (slot root i) (style.fresh frame)) (slot frame k) = 0 :=
    fun k hk ↦ by
      rw [WordMemory.store_of_ne _ _ (slot_ne_of_frame_ne hframe hroot hne hk hi)]
      exact zeroTable_slot s.mem frame hk
  have hwalk : ∀ path, IsPath depth path →
      walk format ((zeroTable s.mem frame).store (slot root i) (style.fresh frame)) frame path =
        ⟨[], depth, 0⟩ := fun path hpath ↦ walk_of_zero hzero hpath
  have hstop : ∀ path, IsPath depth path → walk format s.mem root (i :: path) =
      ⟨[], depth + 1, s.mem (slot root i)⟩ := fun path hpath ↦ walk_of_not_isTable hpath htable
  have hleaf : (⟨[], depth, 0⟩ : Walk).leaf = 0 := by simp [Walk.leaf]
  refine ⟨?_, ?_, ?_, List.nodup_singleton _, ?_, ?_, ?_, ?_, ?_, ?_, ?_⟩
  · exact (congrArg format.isTable (WordMemory.store_same _ _ _)).trans
      (style.isTable_fresh _ hframe)
  · exact congrArg format.child (WordMemory.store_same _ _ _)
  · rw [style.child_fresh _ hframe, tablesThrough_of_not_isTable _ htable, List.append_nil]
    exact tables_of_zero hzero depth
  · intro t ht
    rwa [List.mem_singleton.mp ht]
  · change source.available (source.alloc s.frames).1 = _
    rw [havailable_eq, Finset.erase_eq]
    simp
  · intro k hk hneq
    change (zeroTable s.mem frame).store _ _ _ = _
    rw [WordMemory.store_of_ne _ _ (slot_ne_of_index_ne hneq)]
    exact zeroTable_of_ne s.mem fun j hj ↦ slot_ne_of_frame_ne hroot hframe hne.symm hk hj
  · intro t ht htroot htframe
    exact (sameTable_zeroTable s.mem hframe ht fun h ↦ htframe (by simp [h])).trans
      (sameTable_store _ _ hroot ht htroot hi)
  · intro path hpath
    rw [style.child_fresh _ hframe, hwalk path hpath, hstop path hpath]
    simp [Walk.leaf]
  · intro path hpath
    rw [style.child_fresh _ hframe, hwalk path hpath, hstop path hpath]
    simp [Walk.block, format.isBlock_zero, hblock]
  · intro edit relation hkept _
    rw [style.child_fresh _ hframe]
    constructor
    · intro path hpath link hmem
      rw [hwalk path hpath] at hmem
      exact absurd hmem List.not_mem_nil
    · intro path hpath
      rw [hwalk path hpath, hleaf]
      change relation _ (WordMemory.store _ _ _ _) ∧ relation _ (WordMemory.store _ _ _ _)
      rw [WordMemory.store_same]
      exact ⟨hkept.fresh frame hframe, hkept.edit_fresh frame hframe⟩

/-- A step down changes the tree of the root behind the entry only. -/
theorem Entered.onlyThrough {style : LinkStyle format} {depth root i child : ℕ}
    {before after : TableStore σ} {grown : List ℕ}
    (hentered : Entered source style depth root i before after child grown)
    (htree : OwnedTree source before (depth + 1) root) :
    OnlyThrough format before.mem after.mem (depth + 1) root i where
  entry_eq := hentered.entry_eq
  same := fun k hk _ t ht ↦ by
    have hmem := mem_tables_of_through hk ht
    refine hentered.same t (htree.isFrame t hmem) ?_ fun hgrown ↦ ?_
    · rintro rfl
      exact htree.root_notMem hk ht
    · exact htree.not_available t hmem (hentered.grown_available t hgrown)

/-- The child is a well-formed tree that owns its frames. -/
theorem Entered.ownedTree {style : LinkStyle format} {depth root i child : ℕ}
    {before after : TableStore σ} {grown : List ℕ}
    (hentered : Entered source style depth root i before after child grown)
    (htree : OwnedTree source before (depth + 1) root) (hi : i < fanout)
    (hsound : source.Sound before.frames) : OwnedTree source after depth child where
  nodup := by
    rw [hentered.tables_eq]
    refine List.nodup_append'.mpr
      ⟨hentered.grown_nodup, htree.nodup_through hi, fun t hgrown hmem ↦ ?_⟩
    exact htree.not_available t (mem_tables_of_through hi hmem) (hentered.grown_available t hgrown)
  isFrame := fun t ht ↦ by
    rw [hentered.tables_eq] at ht
    rcases List.mem_append.mp ht with hgrown | hold
    · exact source.isFrame _ hsound t (hentered.grown_available t hgrown)
    · exact htree.isFrame t (mem_tables_of_through hi hold)
  not_available := fun t ht ↦ by
    rw [hentered.tables_eq] at ht
    rw [hentered.available_eq, Finset.mem_sdiff, List.mem_toFinset]
    rintro ⟨havailable, hnot⟩
    rcases List.mem_append.mp ht with hgrown | hold
    · exact hnot hgrown
    · exact htree.not_available t (mem_tables_of_through hi hold) havailable

/-- The root keeps its entries while the child is edited. -/
theorem Entered.sameTable_root {style : LinkStyle format} {depth root i child : ℕ}
    {before middle after : TableStore σ} {grown added : List ℕ}
    (hentered : Entered source style depth root i before middle child grown)
    (htree : OwnedTree source before (depth + 1) root) (hi : i < fanout)
    (hgrown : Grown source depth child middle after added) :
    SameTable middle.mem after.mem root := by
  have hroot : root ∈ tables format before.mem (depth + 1) root := mem_tables_self _ _ _
  refine hgrown.same root htree.isFrame_root (fun hadded ↦ ?_) fun hmem ↦ ?_
  · have havailable := hgrown.added_available root hadded
    rw [hentered.available_eq] at havailable
    exact htree.not_available root hroot (Finset.mem_sdiff.mp havailable).1
  · rw [hentered.tables_eq] at hmem
    rcases List.mem_append.mp hmem with hnew | hold
    · exact htree.not_available root hroot (hentered.grown_available root hnew)
    · exact htree.root_notMem hi hold

/-- Editing the child changes the tree of the root behind the entry only. -/
theorem Entered.onlyThrough_grown {style : LinkStyle format} {depth root i child : ℕ}
    {before middle after : TableStore σ} {grown added : List ℕ}
    (hentered : Entered source style depth root i before middle child grown)
    (htree : OwnedTree source before (depth + 1) root) (hi : i < fanout)
    (hgrown : Grown source depth child middle after added) :
    OnlyThrough format before.mem after.mem (depth + 1) root i where
  entry_eq := fun k hk hne ↦
    (hentered.sameTable_root htree hi hgrown k hk).trans (hentered.entry_eq k hk hne)
  same := fun k hk hne t ht ↦ by
    have hmem := mem_tables_of_through hk ht
    refine ((hentered.onlyThrough htree).same k hk hne t ht).trans
      (hgrown.same t (htree.isFrame t hmem) (fun hadded ↦ ?_) fun hchild ↦ ?_)
    · have havailable := hgrown.added_available t hadded
      rw [hentered.available_eq] at havailable
      exact htree.not_available t hmem (Finset.mem_sdiff.mp havailable).1
    · rw [hentered.tables_eq] at hchild
      rcases List.mem_append.mp hchild with hnew | hold
      · exact htree.not_available t hmem (hentered.grown_available t hnew)
      · exact htree.disjoint_through hk hi hne ht hold

theorem Entered.grown_root {style : LinkStyle format} {depth root i child : ℕ}
    {before middle after : TableStore σ} {grown added : List ℕ}
    (hentered : Entered source style depth root i before middle child grown)
    (htree : OwnedTree source before (depth + 1) root) (hi : i < fanout)
    (hgrown : Grown source depth child middle after added) :
    Grown source (depth + 1) root before after (added ++ grown) := by
  have honly := hentered.onlyThrough_grown htree hi hgrown
  have hentry := hentered.sameTable_root htree hi hgrown i hi
  have hadded : ∀ t ∈ added, t ∈ source.available before.frames ∧ t ∉ grown := by
    intro t ht
    have havailable := hgrown.added_available t ht
    rw [hentered.available_eq, Finset.mem_sdiff, List.mem_toFinset] at havailable
    exact havailable
  refine ⟨?_, ?_, ?_, ?_, ?_⟩
  · refine honly.tables_perm hi ?_
    rw [hentry, tablesThrough_of_isTable hentered.isTable, hentered.child_eq, List.append_assoc,
      ← hentered.tables_eq]
    exact hgrown.perm
  · exact List.nodup_append'.mpr
      ⟨hgrown.added_nodup, hentered.grown_nodup, fun t ht hnew ↦ (hadded t ht).2 hnew⟩
  · intro t ht
    rcases List.mem_append.mp ht with hnew | hold
    · exact (hadded t hnew).1
    · exact hentered.grown_available t hold
  · rw [hgrown.available_eq, hentered.available_eq, List.toFinset_append, Finset.union_comm]
    exact sdiff_sdiff_left
  · intro t ht hnot hold
    obtain ⟨hnotAdded, hnotGrown⟩ := not_or.mp fun h ↦ hnot (List.mem_append.mpr h)
    refine (hentered.same t ht ?_ hnotGrown).trans (hgrown.same t ht hnotAdded fun hchild ↦ ?_)
    · rintro rfl
      exact hold (mem_tables_self _ _ _)
    · rw [hentered.tables_eq] at hchild
      rcases List.mem_append.mp hchild with hnew | hbelow
      · exact hnotGrown hnew
      · exact hold (mem_tables_of_through hi hbelow)

theorem Entered.edited_root {style : LinkStyle format} {edit : ℕ → ℕ} {depth root i child : ℕ}
    {path : List ℕ} {before middle after : TableStore σ} {grown added : List ℕ}
    (hentered : Entered source style depth root i before middle child grown)
    (htree : OwnedTree source before (depth + 1) root) (hi : i < fanout)
    (hpath : IsPath depth path) (hgrown : Grown source depth child middle after added)
    (hedited : Edited style edit depth child path middle.mem after.mem) :
    Edited style edit (depth + 1) root (i :: path) before.mem after.mem := by
  have honly := hentered.onlyThrough_grown htree hi hgrown
  have hentry := hentered.sameTable_root htree hi hgrown i hi
  have hstep : ∀ rest, IsPath depth rest → walk format after.mem root (i :: rest) =
      (walk format after.mem child rest).after (middle.mem (slot root i)) := by
    intro rest hrest
    rw [walk_of_isTable hrest (by rw [hentry]; exact hentered.isTable), hentry, hentered.child_eq]
  refine ⟨fun other hother ↦ ?_, fun other hother ↦ ?_, fun relation hkept hrespects ↦ ?_⟩
  · obtain ⟨k, rest, rfl, hk, hrest⟩ := hother.exists_cons
    by_cases hki : k = i
    · rw [hki, hstep rest hrest, Walk.block_after, hedited.block_eq rest hrest,
        hentered.block_eq rest hrest]
    · rw [honly.walk_eq hother hki]
  · obtain ⟨k, rest, rfl, hk, hrest⟩ := hother.exists_cons
    by_cases hki : k = i
    · rw [hki, hstep rest hrest, Walk.leaf_after, hedited.leaf_eq rest hrest,
        hentered.leaf_eq rest hrest, hentered.block_eq path hpath]
      simp only [List.cons.injEq, true_and]
    · rw [honly.walk_eq hother hki, if_neg fun h ↦ hki (List.cons.inj h.1).1]
  · obtain ⟨hchild, hlink⟩ := hentered.respects edit relation hkept hrespects
    have hafter := hedited.respects relation hkept hchild
    intro other hother link hmem
    obtain ⟨k, rest, rfl, hk, hrest⟩ := hother.exists_cons
    by_cases hki : k = i
    · rw [hki, hstep rest hrest] at hmem ⊢
      rw [Walk.leaf_after]
      rcases List.mem_cons.mp hmem with rfl | hbelow
      · rw [hedited.leaf_eq rest hrest]
        split_ifs
        · exact (hlink rest hrest).2
        · exact (hlink rest hrest).1
      · exact hafter rest hrest link hbelow
    · rw [honly.walk_eq hother hki] at hmem ⊢
      exact hrespects (k :: rest) hother link hmem

/-! ### The whole path -/

variable (source)

theorem sound_of_ensureChild (style : LinkStyle format) {s : TableStore σ} (table i : ℕ)
    (hsound : source.Sound (ensureChild format source style s table i).1.frames) :
    source.Sound s.frames := by
  unfold ensureChild at hsound
  dsimp only at hsound
  split_ifs at hsound with hblock htable
  · exact hsound
  · exact hsound
  · exact source.sound_of_alloc _ hsound

/-- A request that fails on the way fails the whole edit. -/
theorem sound_of_editPath (style : LinkStyle format) (edit : ℕ → ℕ) (path : List ℕ) :
    ∀ {s : TableStore σ} {table : ℕ},
      source.Sound (editPath format source style edit s table path).frames →
        source.Sound s.frames := by
  induction path with
  | nil => exact fun h ↦ h
  | cons i path ih =>
    intro s table hsound
    cases path with
    | nil => exact hsound
    | cons j path =>
      rw [editPath] at hsound
      refine sound_of_ensureChild source style table i ?_
      by_cases hchild : (ensureChild format source style s table i).2 = 0
      · simpa only [hchild, if_true] using hsound
      · simp only [hchild, if_false] at hsound
        exact ih hsound

variable {source}

/-- Nothing is done below a block. -/
theorem editPath_of_isBlock (style : LinkStyle format) (edit : ℕ → ℕ) {s : TableStore σ}
    {depth table i : ℕ} {path : List ℕ} (hpath : IsPath depth path)
    (hblock : format.isBlock (s.mem (slot table i)) = true) :
    editPath format source style edit s table (i :: path) = s := by
  cases path with
  | nil => exact absurd hpath.length_eq (by simp)
  | cons j path =>
    rw [editPath]
    simp only [ensureChild, hblock, if_true]

/-- With a child to go to, the edit goes on there. -/
theorem editPath_of_child (style : LinkStyle format) (edit : ℕ → ℕ) {s : TableStore σ}
    {table i j : ℕ} {path : List ℕ} (hpos : 0 < (ensureChild format source style s table i).2) :
    editPath format source style edit s table (i :: j :: path) =
      editPath format source style edit (ensureChild format source style s table i).1
        (ensureChild format source style s table i).2 (j :: path) := by
  rw [editPath]
  exact if_neg hpos.ne'

/-- An edit that is served was served at its first step down. -/
theorem sound_ensureChild_of_editPath (style : LinkStyle format) (edit : ℕ → ℕ) {s : TableStore σ}
    {table i j : ℕ} {path : List ℕ}
    (hsound : source.Sound (editPath format source style edit s table (i :: j :: path)).frames) :
    source.Sound (ensureChild format source style s table i).1.frames := by
  have hstep : editPath format source style edit s table (i :: j :: path) =
      if (ensureChild format source style s table i).2 = 0 then
        (ensureChild format source style s table i).1
      else editPath format source style edit (ensureChild format source style s table i).1
        (ensureChild format source style s table i).2 (j :: path) := rfl
  rw [hstep] at hsound
  split_ifs at hsound
  · exact hsound
  · exact sound_of_editPath source style edit _ hsound

/-- Off a block, a step down that is served enters the child. -/
theorem entered_ensureChild (style : LinkStyle format) {s : TableStore σ} {depth table i : ℕ}
    (hi : i < fanout) (htree : OwnedTree source s (depth + 1) table)
    (hblock : format.isBlock (s.mem (slot table i)) = false)
    (hsound : source.Sound (ensureChild format source style s table i).1.frames) :
    ∃ grown, Entered source style depth table i s (ensureChild format source style s table i).1
      (ensureChild format source style s table i).2 grown := by
  by_cases htable : format.isTable (s.mem (slot table i)) = true
  · refine ⟨[], ?_⟩
    simp only [ensureChild, hblock, htable, if_true, Bool.false_eq_true, if_false]
    exact entered_of_isTable style htree hi htable
  · have hnot : format.isTable (s.mem (slot table i)) = false := by simpa using htable
    have halloc : source.Sound (source.alloc s.frames).1 := by
      simpa only [ensureChild, newTable, hblock, hnot, Bool.false_eq_true, if_false] using hsound
    refine ⟨[(source.alloc s.frames).2], ?_⟩
    simp only [ensureChild, hblock, hnot, Bool.false_eq_true, if_false]
    exact entered_of_vacant style htree hi hblock hnot halloc

/-- Off a block, the edit enters the child and goes on there. -/
theorem exists_entered (style : LinkStyle format) (edit : ℕ → ℕ) {s : TableStore σ}
    {depth table i : ℕ} {path : List ℕ} (hpath : IsPath depth path) (hi : i < fanout)
    (htree : OwnedTree source s (depth + 1) table)
    (hblock : format.isBlock (s.mem (slot table i)) = false)
    (hsound : source.Sound (editPath format source style edit s table (i :: path)).frames) :
    ∃ middle child grown, Entered source style depth table i s middle child grown ∧
      editPath format source style edit s table (i :: path) =
        editPath format source style edit middle child path := by
  have hbefore := sound_of_editPath source style edit _ hsound
  cases path with
  | nil => exact absurd hpath.length_eq (by simp)
  | cons j path =>
    have hmiddle := sound_ensureChild_of_editPath style edit hsound
    obtain ⟨grown, hentered⟩ := entered_ensureChild style hi htree hblock hmiddle
    exact ⟨_, _, grown, hentered,
      editPath_of_child style edit (hentered.ownedTree htree hi hbefore).isFrame_root.pos⟩

/-- At the last level, an edit is a store. -/
theorem editPath_last (style : LinkStyle format) (edit : ℕ → ℕ) {s : TableStore σ}
    {table i : ℕ} (hi : i < fanout) (htree : OwnedTree source s 0 table) :
    Grown source 0 table s (editPath format source style edit s table [i]) [] ∧
      Edited style edit 0 table [i] s.mem (editPath format source style edit s table [i]).mem := by
  have hleaf : ∀ mem k, (walk format mem table [k]).leaf = mem (slot table k) :=
    fun mem k ↦ by rw [walk_singleton]; rfl
  have hblock : ∀ mem k, (walk format mem table [k]).block format = none :=
    fun mem k ↦ by rw [walk_singleton]; simp [Walk.block]
  rw [editPath]
  refine ⟨⟨List.Perm.refl _, List.nodup_nil, by simp, by simp, ?_⟩, ?_, ?_, ?_⟩
  · intro t ht _ hne
    exact sameTable_store s.mem _ htree.isFrame_root ht (by simpa [tables] using hne) hi
  · intro other hother
    obtain ⟨k, rfl, -⟩ := hother.exists_singleton
    rw [hblock, hblock]
  · intro other hother
    obtain ⟨k, rfl, -⟩ := hother.exists_singleton
    rw [hleaf, hleaf, hblock]
    by_cases hki : k = i
    · rw [hki, if_pos ⟨rfl, rfl⟩]
      exact WordMemory.store_same _ _ _
    · rw [if_neg (by simpa using hki)]
      exact WordMemory.store_of_ne _ _ (slot_ne_of_index_ne hki)
  · intro relation _ _ other hother link hmem
    obtain ⟨k, rfl, -⟩ := hother.exists_singleton
    rw [walk_singleton] at hmem
    exact absurd hmem List.not_mem_nil

/-- The specification of an edit: the tree grows by fresh frames, and exactly the one leaf is
edited. -/
theorem editPath_spec (source : FrameSource σ format.limit) (style : LinkStyle format)
    (edit : ℕ → ℕ) (depth : ℕ) :
    ∀ {s : TableStore σ} {table : ℕ} {path : List ℕ}, IsPath depth path →
      OwnedTree source s depth table →
      source.Sound (editPath format source style edit s table path).frames →
      ∃ added, Grown source depth table s (editPath format source style edit s table path) added ∧
        Edited style edit depth table path s.mem
          (editPath format source style edit s table path).mem := by
  induction depth with
  | zero =>
    intro s table path hpath htree _
    obtain ⟨i, rfl, hi⟩ := hpath.exists_singleton
    exact ⟨[], editPath_last style edit hi htree⟩
  | succ depth ih =>
    intro s table path hpath htree hsound
    obtain ⟨i, rest, rfl, hi, hrest⟩ := hpath.exists_cons
    by_cases hblock : format.isBlock (s.mem (slot table i)) = true
    · rw [editPath_of_isBlock style edit hrest hblock]
      have hwalk : walk format s.mem table (i :: rest) = ⟨[], depth + 1, s.mem (slot table i)⟩ :=
        walk_of_not_isTable hrest (format.isTable_of_isBlock _ hblock)
      have hstop : (walk format s.mem table (i :: rest)).block format ≠ none := by
        rw [hwalk]
        simp [Walk.block, hblock]
      exact ⟨[], ⟨List.Perm.refl _, List.nodup_nil, by simp, by simp,
          fun t _ _ _ ↦ SameTable.refl _ t⟩,
        fun _ _ ↦ rfl, fun _ _ ↦ by rw [if_neg fun h ↦ hstop h.2], fun _ _ h ↦ h⟩
    · have hnot : format.isBlock (s.mem (slot table i)) = false := by simpa using hblock
      have hbefore := sound_of_editPath source style edit _ hsound
      obtain ⟨middle, child, grown, hentered, hstep⟩ :=
        exists_entered style edit hrest hi htree hnot hsound
      rw [hstep] at hsound ⊢
      obtain ⟨added, hgrown, hedited⟩ := ih hrest (hentered.ownedTree htree hi hbefore) hsound
      exact ⟨added ++ grown, hentered.grown_root htree hi hgrown,
        hentered.edited_root htree hi hrest hgrown hedited⟩

/-- With a frame for each level below the root, an edit is served. -/
theorem sound_editPath (source : FrameSource σ format.limit) (style : LinkStyle format)
    (edit : ℕ → ℕ) (path : List ℕ) :
    ∀ {s : TableStore σ} {table : ℕ}, source.Sound s.frames →
      path.length ≤ (source.available s.frames).card + 1 →
        source.Sound (editPath format source style edit s table path).frames := by
  induction path with
  | nil => exact fun h _ ↦ h
  | cons i path ih =>
    intro s table hsound hcard
    cases path with
    | nil => exact hsound
    | cons j path =>
      rw [List.length_cons] at hcard
      have hchild : source.Sound (ensureChild format source style s table i).1.frames ∧
          (source.available s.frames).card ≤
            (source.available (ensureChild format source style s table i).1.frames).card + 1 := by
        unfold ensureChild
        dsimp only
        split_ifs with hblock htable
        · exact ⟨hsound, Nat.le_succ _⟩
        · exact ⟨hsound, Nat.le_succ _⟩
        · have hpos : 0 < (source.available s.frames).card := by
            rw [List.length_cons] at hcard
            omega
          have hserved := source.served _ hsound (Finset.card_pos.mp hpos)
          refine ⟨hserved, ?_⟩
          change _ ≤ (source.available (source.alloc s.frames).1).card + 1
          rw [source.available_alloc _ hserved,
            Finset.card_erase_of_mem (source.alloc_mem _ hserved)]
          omega
      rw [editPath]
      dsimp only
      split_ifs
      · exact hchild.1
      · exact ih hchild.1 (by omega)

/-- An edit needs frames for the tables that are missing on its path only: as many as the walk has
levels left, and none under a block. -/
theorem sound_editPath_of_walk (source : FrameSource σ format.limit) (style : LinkStyle format)
    (edit : ℕ → ℕ) (depth : ℕ) :
    ∀ {s : TableStore σ} {table : ℕ} {path : List ℕ}, IsPath depth path →
      OwnedTree source s depth table → source.Sound s.frames →
      ((walk format s.mem table path).block format = none →
        (walk format s.mem table path).level ≤ (source.available s.frames).card) →
        source.Sound (editPath format source style edit s table path).frames := by
  induction depth with
  | zero =>
    intro s table path hpath _ hsound _
    obtain ⟨i, rfl, -⟩ := hpath.exists_singleton
    exact hsound
  | succ depth ih =>
    intro s table path hpath htree hsound hlevel
    obtain ⟨i, rest, rfl, hi, hrest⟩ := hpath.exists_cons
    by_cases hblock : format.isBlock (s.mem (slot table i)) = true
    · rw [editPath_of_isBlock style edit hrest hblock]
      exact hsound
    by_cases htable : format.isTable (s.mem (slot table i)) = true
    · have hentered := entered_of_isTable style htree hi htable
      have hchild := hentered.ownedTree htree hi hsound
      rw [walk_of_isTable hrest htable, Walk.block_after] at hlevel
      have hwalk : walk format (s.mem.store (slot table i) (style.touch (s.mem (slot table i))))
          (format.child (style.touch (s.mem (slot table i)))) rest =
          walk format s.mem (format.child (s.mem (slot table i))) rest := by
        rw [style.child_touch]
        refine walk_congr depth _ (fun t ht ↦ ?_) rest hrest
        rw [← tablesThrough_of_isTable htable] at ht
        refine hentered.same t (htree.isFrame t (mem_tables_of_through hi ht)) ?_ List.not_mem_nil
        rintro rfl
        exact htree.root_notMem hi ht
      cases rest with
      | nil => exact absurd hrest.length_eq (by simp)
      | cons j rest =>
        rw [editPath]
        simp only [ensureChild, hblock, htable, Bool.false_eq_true, if_true, if_false]
        rw [if_neg (Nat.pos_iff_ne_zero.mp hchild.isFrame_root.pos)]
        refine ih hrest hchild hsound fun hnone ↦ ?_
        change (walk format (s.mem.store _ _) _ _).level ≤ _
        change (walk format (s.mem.store _ _) _ _).block format = none at hnone
        rw [hwalk] at hnone ⊢
        exact hlevel hnone
    · rw [walk_of_not_isTable hrest (by simpa using htable)] at hlevel
      refine sound_editPath source style edit _ hsound ?_
      rw [hpath.length_eq]
      exact Nat.succ_le_succ (hlevel (if_neg fun h ↦ hblock h.2))

/-! ### An entry that is already there -/

/-- The writer that leaves the links it passes as they are. -/
def LinkStyle.still (style : LinkStyle format) : LinkStyle format :=
  { style with
    touch := id
    isTable_touch := fun _ h ↦ h
    child_touch := fun _ ↦ rfl }

/-- Where the last level is reached, editing it is one store. -/
theorem editPath_still (style : LinkStyle format) (edit : ℕ → ℕ) (path : List ℕ) :
    ∀ {s : TableStore σ} {depth table a : ℕ}, IsPath depth path → OwnedTree source s depth table →
      leafSlot format s.mem table path = some a →
        editPath format source style.still edit s table path =
          { s with mem := s.mem.store a (edit (s.mem a)) } := by
  induction path with
  | nil => exact fun hpath ↦ absurd hpath.length_eq (by simp)
  | cons i path ih =>
    intro s depth table a hpath htree hslot
    cases path with
    | nil =>
      rw [leafSlot, Option.some.injEq] at hslot
      rw [editPath, hslot]
    | cons j path =>
      cases depth with
      | zero => exact absurd hpath.length_eq (by simp)
      | succ depth =>
        obtain ⟨hi, hrest⟩ := IsPath.cons_iff.mp hpath
        rw [leafSlot] at hslot
        split_ifs at hslot with htable
        have hblock : format.isBlock (s.mem (slot table i)) = false := by
          by_contra h
          have := format.isTable_of_isBlock _ (by simpa using h)
          rw [this] at htable
          exact Bool.false_ne_true htable
        have hchild := htree.child hi htable
        have hstore : s.mem.store (slot table i) (s.mem (slot table i)) = s.mem :=
          Function.update_eq_self _ _
        rw [editPath]
        simp only [ensureChild, hblock, htable, LinkStyle.still, id, hstore, if_true,
          Bool.false_eq_true, if_false]
        rw [if_neg (Nat.pos_iff_ne_zero.mp hchild.isFrame_root.pos)]
        exact ih hrest hchild hslot

/-- The leaf of a walk is the word in the slot of the leaf, 0 when there is no such slot. -/
theorem leaf_of_leafSlot (path : List ℕ) :
    ∀ {mem : WordMemory} {depth table : ℕ}, IsPath depth path →
      (walk format mem table path).leaf = (leafSlot format mem table path).elim 0 mem := by
  induction path with
  | nil => exact fun hpath ↦ absurd hpath.length_eq (by simp)
  | cons i path ih =>
    intro mem depth table hpath
    cases path with
    | nil =>
      rw [walk_singleton, leafSlot]
      rfl
    | cons j path =>
      cases depth with
      | zero => exact absurd hpath.length_eq (by simp)
      | succ depth =>
        obtain ⟨-, hrest⟩ := IsPath.cons_iff.mp hpath
        rw [leafSlot]
        by_cases htable : format.isTable (mem (slot table i)) = true
        · simp only [htable, if_true]
          rw [walk_of_isTable hrest htable, Walk.leaf_after]
          exact ih hrest
        · rw [walk_of_not_isTable hrest (by simpa using htable), if_neg htable]
          simp [Walk.leaf]

/-- A store to the entry of the last level edits exactly that leaf, and no frame is allocated. -/
theorem store_leafSlot_spec (source : FrameSource σ format.limit) (style : LinkStyle format)
    (edit : ℕ → ℕ) {s : TableStore σ}
    {depth table a : ℕ} {path : List ℕ} (hpath : IsPath depth path)
    (htree : OwnedTree source s depth table) (hsound : source.Sound s.frames)
    (hslot : leafSlot format s.mem table path = some a) :
    Grown source depth table s { s with mem := s.mem.store a (edit (s.mem a)) } [] ∧
      Edited style.still edit depth table path s.mem (s.mem.store a (edit (s.mem a))) := by
  have hedit := editPath_still style edit path hpath htree hslot
  obtain ⟨added, hgrown, hedited⟩ := editPath_spec source style.still edit depth hpath
    htree (by rw [hedit]; exact hsound)
  rw [hedit] at hgrown hedited
  have hnone : added = [] := by
    refine List.eq_nil_iff_forall_not_mem.mpr fun t ht ↦ ?_
    have havailable := hgrown.added_available t ht
    rw [hgrown.available_eq, Finset.mem_sdiff, List.mem_toFinset] at havailable
    exact havailable.2 ht
  rw [hnone] at hgrown
  exact ⟨hgrown, hedited⟩

end Spec

end MegKer.Foundation
