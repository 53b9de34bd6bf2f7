import MegKer.Foundation.WordMemory
import Mathlib.Data.Finset.Basic
import Mathlib.Data.List.Nodup
import Mathlib.Data.List.Range
import Mathlib.Tactic.Ring

/-!
# Radix tables in word memory

A radix tree of fanout 512 laid out in memory: a table is a frame of 512 words, the word at
`slot table i` being its entry of index `i`, and an entry of a table above the last level either
points to a child table, is a leaf of its own (a block), or is vacant. What an entry means is a
parameter, the `TableFormat`; so is the allocator that supplies the frames, the `FrameSource`.

The module defines the tree found from a root, in the two ways its users need it:

* `tables` lists the frames of all tables, in the order in which a recursive traversal that
  visits a table after its children meets them;
* `walk` follows a path of indices, and records the entries that lead from table to table and
  the entry at which it stops.

`TreeAt` is well-formedness: no frame is met twice and every one is a real frame. Both views
depend only on the words of the listed tables (`tables_congr`, `walk_congr`), so a writer that
stays off these frames does not disturb the tree.
-/

set_option autoImplicit false
set_option relaxedAutoImplicit false

namespace MegKer.Foundation

/-! ### Frames and slots -/

/-- The number of entries of a table. -/
@[irreducible] def fanout : ℕ := 512

theorem fanout_eq : fanout = 512 := by
  unfold fanout
  rfl

/-- The address of entry `i` of a table. -/
def slot (table i : ℕ) : ℕ := table + 8 * i

/-- The address of a frame that may hold a table: a nonzero multiple of 4096 below `limit`. -/
structure IsFrame (limit frame : ℕ) : Prop where
  pos : 0 < frame
  aligned : 4096 ∣ frame
  lt_limit : frame < limit

/-- The slots of different frames are different words. -/
theorem slot_ne_of_frame_ne {limit a b i j : ℕ} (ha : IsFrame limit a) (hb : IsFrame limit b)
    (hne : a ≠ b) (hi : i < fanout) (hj : j < fanout) : slot a i ≠ slot b j := by
  obtain ⟨x, rfl⟩ := ha.aligned
  obtain ⟨y, rfl⟩ := hb.aligned
  rw [fanout_eq] at hi hj
  simp only [slot]
  omega

theorem slot_ne_of_index_ne {table i j : ℕ} (hne : i ≠ j) : slot table i ≠ slot table j := by
  simp only [slot]
  omega

/-- Every entry of one table is the same in two memories. -/
def SameTable (before after : WordMemory) (table : ℕ) : Prop :=
  ∀ i < fanout, after (slot table i) = before (slot table i)

theorem SameTable.refl (mem : WordMemory) (table : ℕ) : SameTable mem mem table :=
  fun _ _ ↦ rfl

theorem SameTable.symm {before after : WordMemory} {table : ℕ}
    (h : SameTable before after table) : SameTable after before table :=
  fun i hi ↦ (h i hi).symm

theorem SameTable.trans {first middle last : WordMemory} {table : ℕ}
    (hfirst : SameTable first middle table) (hlast : SameTable middle last table) :
    SameTable first last table :=
  fun i hi ↦ (hlast i hi).trans (hfirst i hi)

/-- A store into one table leaves every other table alone. -/
theorem sameTable_store {limit table other i : ℕ} (mem : WordMemory) (value : ℕ)
    (htable : IsFrame limit table) (hother : IsFrame limit other) (hne : other ≠ table)
    (hi : i < fanout) : SameTable mem (mem.store (slot table i) value) other :=
  fun _ hj ↦ WordMemory.store_of_ne _ _ (slot_ne_of_frame_ne hother htable hne hj hi)

/-- Fill a table with zeros. -/
def zeroTable (mem : WordMemory) (table : ℕ) : WordMemory :=
  (List.range fanout).foldl (fun mem i ↦ mem.store (slot table i) 0) mem

private theorem foldl_store_zero_of_ne (indices : List ℕ) :
    ∀ (mem : WordMemory) (table a : ℕ), (∀ i ∈ indices, a ≠ slot table i) →
      indices.foldl (fun mem i ↦ mem.store (slot table i) 0) mem a = mem a := by
  induction indices with
  | nil => exact fun _ _ _ _ ↦ rfl
  | cons i indices ih =>
    intro mem table a hne
    rw [List.foldl_cons, ih _ _ _ fun j hj ↦ hne j (List.mem_cons_of_mem i hj)]
    exact WordMemory.store_of_ne _ _ (hne i List.mem_cons_self)

theorem zeroTable_of_ne (mem : WordMemory) {table a : ℕ} (hne : ∀ i < fanout, a ≠ slot table i) :
    zeroTable mem table a = mem a :=
  foldl_store_zero_of_ne _ mem table a fun i hi ↦ hne i (List.mem_range.mp hi)

private theorem foldl_store_zero_slot (n : ℕ) :
    ∀ (mem : WordMemory) (table : ℕ), ∀ i < n,
      (List.range n).foldl (fun mem i ↦ mem.store (slot table i) 0) mem (slot table i) = 0 := by
  induction n with
  | zero => exact fun _ _ i hi ↦ absurd hi (by omega)
  | succ n ih =>
    intro mem table i hi
    rw [List.range_succ, List.foldl_append, List.foldl_cons, List.foldl_nil]
    by_cases heq : i = n
    · rw [heq, WordMemory.store_same]
    · rw [WordMemory.store_of_ne _ _ (slot_ne_of_index_ne heq)]
      exact ih mem table i (by omega)

theorem zeroTable_slot (mem : WordMemory) (table : ℕ) {i : ℕ} (hi : i < fanout) :
    zeroTable mem table (slot table i) = 0 :=
  foldl_store_zero_slot fanout mem table i hi

theorem sameTable_zeroTable {limit table other : ℕ} (mem : WordMemory)
    (htable : IsFrame limit table) (hother : IsFrame limit other) (hne : other ≠ table) :
    SameTable mem (zeroTable mem table) other :=
  fun _ hi ↦ zeroTable_of_ne mem fun _ hj ↦ slot_ne_of_frame_ne hother htable hne hi hj

/-! ### Entry formats and frame sources -/

/-- What the words of a table mean. Entries are classified at the levels above the last; at the
last level only presence matters. -/
structure TableFormat where
  /-- Frame addresses below this bound fit into an entry. -/
  limit : ℕ
  isPresent : ℕ → Bool
  /-- The entry points to a child table. -/
  isTable : ℕ → Bool
  /-- The entry is a leaf above the last level, and there is nothing to descend into. -/
  isBlock : ℕ → Bool
  /-- The address an entry points to. -/
  child : ℕ → ℕ
  /-- An entry like this one that points to another table. -/
  relink : ℕ → ℕ → ℕ
  isPresent_zero : isPresent 0 = false
  isBlock_zero : isBlock 0 = false
  isPresent_of_isTable : ∀ entry, isTable entry = true → isPresent entry = true
  isTable_of_isBlock : ∀ entry, isBlock entry = true → isTable entry = false
  isTable_relink : ∀ entry frame, isTable entry = true → IsFrame limit frame →
    isTable (relink entry frame) = true
  child_relink : ∀ entry frame, IsFrame limit frame → child (relink entry frame) = frame

/-- How a writer makes the entries on its way down: a new link to a frame, and the entry it
leaves in the place of a link that is there. -/
structure LinkStyle (format : TableFormat) where
  fresh : ℕ → ℕ
  touch : ℕ → ℕ
  isTable_fresh : ∀ frame, IsFrame format.limit frame → format.isTable (fresh frame) = true
  child_fresh : ∀ frame, IsFrame format.limit frame → format.child (fresh frame) = frame
  isTable_touch : ∀ entry, format.isTable entry = true → format.isTable (touch entry) = true
  child_touch : ∀ entry, format.child (touch entry) = format.child entry

/-- An allocator of frames. `Sound` states that no request has failed so far (and whatever else
the allocator keeps invariant); it is inherited by earlier states. -/
structure FrameSource (σ : Type) (limit : ℕ) where
  alloc : σ → σ × ℕ
  release : σ → ℕ → σ
  available : σ → Finset ℕ
  Sound : σ → Prop
  sound_of_alloc : ∀ frames, Sound (alloc frames).1 → Sound frames
  alloc_mem : ∀ frames, Sound (alloc frames).1 → (alloc frames).2 ∈ available frames
  available_alloc : ∀ frames, Sound (alloc frames).1 →
    available (alloc frames).1 = (available frames).erase (alloc frames).2
  isFrame : ∀ frames, Sound frames → ∀ frame ∈ available frames, IsFrame limit frame
  served : ∀ frames, Sound frames → (available frames).Nonempty → Sound (alloc frames).1

/-- A frame allocator and the memory its frames lie in. -/
structure TableStore (σ : Type) where
  frames : σ
  mem : WordMemory

/-! ### The tree of a root -/

section Tree

variable (format : TableFormat)

/-- The frames of the tables found from a root, children before parents. `depth` is the number of
levels below the root. -/
def tables (mem : WordMemory) : (depth table : ℕ) → List ℕ
  | 0, table => [table]
  | depth + 1, table =>
    (List.range fanout).flatMap (fun i ↦
      if format.isTable (mem (slot table i)) then tables mem depth (format.child (mem (slot table i)))
      else []) ++ [table]

/-- The frames found through one entry of a table of the given depth. -/
def tablesThrough (mem : WordMemory) : (depth entry : ℕ) → List ℕ
  | 0, _ => []
  | depth + 1, entry =>
    if format.isTable entry then tables format mem depth (format.child entry) else []

theorem tables_eq (mem : WordMemory) (depth table : ℕ) :
    tables format mem depth table =
      (List.range fanout).flatMap (fun i ↦ tablesThrough format mem depth (mem (slot table i))) ++
        [table] := by
  cases depth with
  | zero => simp [tables, tablesThrough]
  | succ depth => rfl

/-- A path through a table of the given depth: one index for each level. -/
structure IsPath (depth : ℕ) (path : List ℕ) : Prop where
  length_eq : path.length = depth + 1
  lt_fanout : ∀ i ∈ path, i < fanout

/-- What following a path finds: the entries that lead from table to table, the number of levels
left below the table in which it stops, and the entry there. -/
structure Walk where
  links : List ℕ
  level : ℕ
  entry : ℕ
  deriving DecidableEq, Repr

/-- The walk that first passes one more link. -/
def Walk.after (link : ℕ) (w : Walk) : Walk := { w with links := link :: w.links }

/-- Follow a path from a table. -/
def walk (mem : WordMemory) : (table : ℕ) → (path : List ℕ) → Walk
  | _, [] => ⟨[], 0, 0⟩
  | table, [i] => ⟨[], 0, mem (slot table i)⟩
  | table, i :: j :: path =>
    let entry := mem (slot table i)
    if format.isTable entry then (walk mem (format.child entry) (j :: path)).after entry
    else ⟨[], path.length + 1, entry⟩

/-- The entry of the last level that the walk has reached, or 0 when it stops before. -/
def Walk.leaf (w : Walk) : ℕ := if w.level = 0 then w.entry else 0

/-- The block on which the walk ends, if it does. -/
def Walk.block (w : Walk) : Option ℕ :=
  if w.level ≠ 0 ∧ format.isBlock w.entry = true then some w.entry else none

@[simp] theorem Walk.leaf_after (link : ℕ) (w : Walk) : (w.after link).leaf = w.leaf := rfl

@[simp] theorem Walk.block_after (link : ℕ) (w : Walk) :
    (w.after link).block format = w.block format := rfl

/-- Under a block there is no leaf. -/
theorem Walk.leaf_of_block {w : Walk} {entry : ℕ} (hblock : w.block format = some entry) :
    w.leaf = 0 := by
  unfold Walk.block at hblock
  split_ifs at hblock with hcase
  exact if_neg hcase.1

@[simp] theorem Walk.links_after (link : ℕ) (w : Walk) : (w.after link).links = link :: w.links :=
  rfl

end Tree

theorem IsPath.cons_iff {depth i : ℕ} {path : List ℕ} :
    IsPath (depth + 1) (i :: path) ↔ i < fanout ∧ IsPath depth path := by
  constructor
  · rintro ⟨hlength, hlt⟩
    exact ⟨hlt i List.mem_cons_self,
      by simpa using hlength, fun j hj ↦ hlt j (List.mem_cons_of_mem i hj)⟩
  · rintro ⟨hi, hlength, hlt⟩
    exact ⟨by simpa using hlength, List.forall_mem_cons.mpr ⟨hi, hlt⟩⟩

theorem IsPath.exists_cons {depth : ℕ} {path : List ℕ} (hpath : IsPath (depth + 1) path) :
    ∃ i rest, path = i :: rest ∧ i < fanout ∧ IsPath depth rest := by
  cases path with
  | nil => exact absurd hpath.length_eq (by simp)
  | cons i rest => exact ⟨i, rest, rfl, IsPath.cons_iff.mp hpath⟩

theorem IsPath.exists_singleton {path : List ℕ} (hpath : IsPath 0 path) :
    ∃ i, path = [i] ∧ i < fanout := by
  obtain ⟨i, rfl⟩ := List.length_eq_one_iff.mp hpath.length_eq
  exact ⟨i, rfl, hpath.lt_fanout i List.mem_cons_self⟩

section TreeLemmas

variable {format : TableFormat}

theorem walk_singleton (mem : WordMemory) (table i : ℕ) :
    walk format mem table [i] = ⟨[], 0, mem (slot table i)⟩ := by
  rw [walk]

/-- A walk through a link goes on in the child. -/
theorem walk_of_isTable {mem : WordMemory} {depth table i : ℕ} {path : List ℕ}
    (hpath : IsPath depth path) (htable : format.isTable (mem (slot table i)) = true) :
    walk format mem table (i :: path) =
      (walk format mem (format.child (mem (slot table i))) path).after (mem (slot table i)) := by
  cases path with
  | nil => exact absurd hpath.length_eq (by simp)
  | cons j path => rw [walk]; simp only [htable, if_true]

/-- A walk that meets anything but a link above the last level stops there. -/
theorem walk_of_not_isTable {mem : WordMemory} {depth table i : ℕ} {path : List ℕ}
    (hpath : IsPath depth path) (htable : format.isTable (mem (slot table i)) = false) :
    walk format mem table (i :: path) = ⟨[], depth + 1, mem (slot table i)⟩ := by
  have hlength := hpath.length_eq
  cases path with
  | nil => exact absurd hlength (by simp)
  | cons j path =>
    rw [walk]
    simp only [htable, Bool.false_eq_true, if_false]
    rw [← hlength, List.length_cons]

/-- A walk that stops above the last level does not stop at a link. -/
theorem isTable_entry_walk (path : List ℕ) :
    ∀ {mem : WordMemory} {depth table : ℕ}, IsPath depth path →
      (walk format mem table path).level ≠ 0 →
        format.isTable (walk format mem table path).entry = false := by
  induction path with
  | nil => exact fun hpath ↦ absurd hpath.length_eq (by simp)
  | cons i path ih =>
    intro mem depth table hpath hlevel
    cases depth with
    | zero =>
      obtain ⟨j, hj, -⟩ := hpath.exists_singleton
      rw [hj, walk_singleton] at hlevel
      exact absurd rfl hlevel
    | succ depth =>
      obtain ⟨-, hrest⟩ := IsPath.cons_iff.mp hpath
      by_cases htable : format.isTable (mem (slot table i)) = true
      · rw [walk_of_isTable hrest htable] at hlevel ⊢
        exact ih hrest hlevel
      · rw [Bool.not_eq_true] at htable
        rw [walk_of_not_isTable hrest htable]
        exact htable

theorem level_walk_le (path : List ℕ) :
    ∀ {mem : WordMemory} {depth table : ℕ}, IsPath depth path →
      (walk format mem table path).level ≤ depth := by
  induction path with
  | nil => exact fun hpath ↦ absurd hpath.length_eq (by simp)
  | cons i path ih =>
    intro mem depth table hpath
    cases depth with
    | zero =>
      obtain ⟨j, hj, -⟩ := hpath.exists_singleton
      rw [hj, walk_singleton]
    | succ depth =>
      obtain ⟨-, hrest⟩ := IsPath.cons_iff.mp hpath
      by_cases htable : format.isTable (mem (slot table i)) = true
      · rw [walk_of_isTable hrest htable]
        exact (ih hrest).trans (Nat.le_succ depth)
      · rw [walk_of_not_isTable hrest (by simpa using htable)]

/-- A walk that meets no block does not start at one. -/
theorem isBlock_of_block_eq_none {mem : WordMemory} {depth table i : ℕ} {path : List ℕ}
    (hpath : IsPath depth path) (h : (walk format mem table (i :: path)).block format = none) :
    format.isBlock (mem (slot table i)) = false := by
  by_contra hblock
  rw [Bool.not_eq_false] at hblock
  rw [walk_of_not_isTable hpath (format.isTable_of_isBlock _ hblock), Walk.block,
    if_pos ⟨Nat.succ_ne_zero depth, hblock⟩] at h
  exact absurd h (Option.some_ne_none _)

/-- Where a walk ends at an entry that is not a link, a walk of one more level ends as well. -/
theorem walk_append (path : List ℕ) :
    ∀ {mem : WordMemory} {depth table : ℕ}, IsPath depth path →
      format.isTable (walk format mem table path).entry = false → ∀ {i : ℕ}, i < fanout →
        walk format mem table (path ++ [i]) =
          ⟨(walk format mem table path).links, (walk format mem table path).level + 1,
            (walk format mem table path).entry⟩ := by
  induction path with
  | nil => exact fun hpath ↦ absurd hpath.length_eq (by simp)
  | cons j path ih =>
    intro mem depth table hpath hentry i hi
    have hsingle : IsPath 0 [i] := ⟨rfl, fun k hk ↦ List.mem_singleton.mp hk ▸ hi⟩
    cases depth with
    | zero =>
      obtain ⟨k, hk, -⟩ := hpath.exists_singleton
      rw [hk, walk_singleton] at hentry ⊢
      exact walk_of_not_isTable hsingle hentry
    | succ depth =>
      obtain ⟨-, hrest⟩ := IsPath.cons_iff.mp hpath
      have hlonger : IsPath (depth + 1) (path ++ [i]) :=
        ⟨by simp [hrest.length_eq], fun k hk ↦ (List.mem_append.mp hk).elim (hrest.lt_fanout k)
          (hsingle.lt_fanout k)⟩
      by_cases htable : format.isTable (mem (slot table j)) = true
      · rw [walk_of_isTable hrest htable] at hentry ⊢
        rw [List.cons_append, walk_of_isTable hlonger htable, ih hrest hentry hi]
        rfl
      · rw [Bool.not_eq_true] at htable
        rw [List.cons_append, walk_of_not_isTable hrest htable, walk_of_not_isTable hlonger htable]

theorem mem_tables_self (mem : WordMemory) (depth table : ℕ) :
    table ∈ tables format mem depth table := by
  rw [tables_eq]
  simp

theorem mem_tables_of_through {mem : WordMemory} {depth table i t : ℕ} (hi : i < fanout)
    (ht : t ∈ tablesThrough format mem depth (mem (slot table i))) :
    t ∈ tables format mem depth table := by
  rw [tables_eq]
  exact List.mem_append_left _ (List.mem_flatMap.mpr ⟨i, List.mem_range.mpr hi, ht⟩)

theorem tablesThrough_of_isTable {mem : WordMemory} {depth entry : ℕ}
    (htable : format.isTable entry = true) :
    tablesThrough format mem (depth + 1) entry = tables format mem depth (format.child entry) := by
  rw [tablesThrough, if_pos htable]

theorem tablesThrough_of_not_isTable {mem : WordMemory} {entry : ℕ} (depth : ℕ)
    (htable : format.isTable entry = false) : tablesThrough format mem depth entry = [] := by
  cases depth with
  | zero => rfl
  | succ depth => rw [tablesThrough, if_neg (by simp [htable])]

theorem isTable_zero : format.isTable 0 = false := by
  by_contra h
  have hpresent := format.isPresent_of_isTable 0 (by simpa using h)
  rw [format.isPresent_zero] at hpresent
  exact Bool.false_ne_true hpresent

/-! ### Paths of page numbers -/

/-- The path to a page: the digits of its number to base 512, the highest first. -/
def indexPath : (depth page : ℕ) → List ℕ
  | 0, page => [page % fanout]
  | depth + 1, page => page / fanout ^ (depth + 1) % fanout :: indexPath depth page

theorem isPath_indexPath (depth page : ℕ) : IsPath depth (indexPath depth page) := by
  have hpos : 0 < fanout := by rw [fanout_eq]; norm_num
  induction depth with
  | zero => exact ⟨rfl, fun i hi ↦ by rw [List.mem_singleton.mp hi]; exact Nat.mod_lt _ hpos⟩
  | succ depth ih => exact IsPath.cons_iff.mpr ⟨Nat.mod_lt _ hpos, ih⟩

/-- Two pages have the same path when they agree in the digits of the path. -/
theorem indexPath_eq_iff (depth page other : ℕ) :
    indexPath depth page = indexPath depth other ↔
      page % fanout ^ (depth + 1) = other % fanout ^ (depth + 1) := by
  induction depth with
  | zero => simp [indexPath]
  | succ depth ih =>
    rw [indexPath, indexPath, List.cons.injEq, ih, Nat.pow_succ fanout (depth + 1),
      Nat.mod_mul, Nat.mod_mul]
    have hpos : 0 < fanout ^ (depth + 1) := Nat.pow_pos (by rw [fanout_eq]; norm_num)
    constructor
    · rintro ⟨hhigh, hlow⟩
      rw [hhigh, hlow]
    · intro heq
      have hlow := congrArg (· % fanout ^ (depth + 1)) heq
      simp only [Nat.add_mul_mod_self_left, Nat.mod_mod] at hlow
      rw [hlow] at heq
      exact ⟨Nat.eq_of_mul_eq_mul_left hpos (Nat.add_left_cancel heq), hlow⟩

theorem indexPath_inj {depth page other : ℕ} (hpage : page < fanout ^ (depth + 1))
    (hother : other < fanout ^ (depth + 1)) :
    indexPath depth page = indexPath depth other ↔ page = other := by
  rw [indexPath_eq_iff, Nat.mod_eq_of_lt hpage, Nat.mod_eq_of_lt hother]

/-- The last digit is the lowest. -/
theorem indexPath_succ (depth page : ℕ) :
    indexPath (depth + 1) page = indexPath depth (page / fanout) ++ [page % fanout] := by
  induction depth with
  | zero => simp [indexPath]
  | succ depth ih =>
    rw [indexPath, ih, indexPath, List.cons_append, Nat.div_div_eq_div_mul, pow_succ' fanout (depth + 1)]

/-! ### The tree depends on its own frames only -/

/-- The tables of a tree are determined by the words in them. -/
theorem tables_congr {before after : WordMemory} (depth : ℕ) :
    ∀ table, (∀ t ∈ tables format before depth table, SameTable before after t) →
      tables format after depth table = tables format before depth table := by
  induction depth with
  | zero => exact fun _ _ ↦ rfl
  | succ depth ih =>
    intro table hsame
    have hroot := hsame table (mem_tables_self before _ table)
    rw [tables_eq, tables_eq]
    congr 1
    refine List.flatMap_congr fun i hi ↦ ?_
    have hlt := List.mem_range.mp hi
    rw [hroot i hlt]
    by_cases htable : format.isTable (before (slot table i)) = true
    · rw [tablesThrough_of_isTable htable, tablesThrough_of_isTable htable]
      refine ih _ fun t ht ↦ hsame t (mem_tables_of_through hlt ?_)
      rwa [tablesThrough_of_isTable htable]
    · rw [tablesThrough_of_not_isTable _ (by simpa using htable),
        tablesThrough_of_not_isTable _ (by simpa using htable)]

theorem tablesThrough_congr {before after : WordMemory} {depth entry : ℕ}
    (hsame : ∀ t ∈ tablesThrough format before depth entry, SameTable before after t) :
    tablesThrough format after depth entry = tablesThrough format before depth entry := by
  cases depth with
  | zero => rfl
  | succ depth =>
    by_cases htable : format.isTable entry = true
    · rw [tablesThrough_of_isTable htable] at hsame ⊢
      rw [tablesThrough_of_isTable htable]
      exact tables_congr depth _ hsame
    · rw [tablesThrough_of_not_isTable _ (by simpa using htable),
        tablesThrough_of_not_isTable _ (by simpa using htable)]

/-- The walks in a tree are determined by the words of its tables. -/
theorem walk_congr {before after : WordMemory} (depth : ℕ) :
    ∀ table, (∀ t ∈ tables format before depth table, SameTable before after t) →
      ∀ path, IsPath depth path →
        walk format after table path = walk format before table path := by
  induction depth with
  | zero =>
    intro table hsame path hpath
    obtain ⟨i, rfl, hi⟩ := hpath.exists_singleton
    rw [walk_singleton, walk_singleton, hsame table (mem_tables_self before 0 table) i hi]
  | succ depth ih =>
    intro table hsame path hpath
    obtain ⟨i, rest, rfl, hi, hrest⟩ := hpath.exists_cons
    have hentry := hsame table (mem_tables_self before _ table) i hi
    by_cases htable : format.isTable (before (slot table i)) = true
    · rw [walk_of_isTable hrest htable, walk_of_isTable hrest (by rwa [hentry]), hentry]
      congr 1
      refine ih _ (fun t ht ↦ hsame t (mem_tables_of_through hi ?_)) rest hrest
      rwa [tablesThrough_of_isTable htable]
    · have hnot : format.isTable (before (slot table i)) = false := by simpa using htable
      rw [walk_of_not_isTable hrest hnot, walk_of_not_isTable hrest (by rwa [hentry]), hentry]

/-! ### Well-formed trees -/

/-- The tree of a root is well formed: no table is met twice, and every table is a frame. -/
structure TreeAt (format : TableFormat) (mem : WordMemory) (depth root : ℕ) : Prop where
  nodup : (tables format mem depth root).Nodup
  isFrame : ∀ t ∈ tables format mem depth root, IsFrame format.limit t

theorem TreeAt.isFrame_root {mem : WordMemory} {depth root : ℕ}
    (htree : TreeAt format mem depth root) : IsFrame format.limit root :=
  htree.isFrame root (mem_tables_self mem depth root)

theorem TreeAt.congr {before after : WordMemory} {depth root : ℕ}
    (htree : TreeAt format before depth root)
    (hsame : ∀ t ∈ tables format before depth root, SameTable before after t) :
    TreeAt format after depth root := by
  have htables := tables_congr depth root hsame
  exact ⟨htables ▸ htree.nodup, htables ▸ htree.isFrame⟩

/-- The root is not met below itself. -/
theorem TreeAt.root_notMem {mem : WordMemory} {depth root i : ℕ}
    (htree : TreeAt format mem depth root) (hi : i < fanout) :
    root ∉ tablesThrough format mem depth (mem (slot root i)) := by
  intro hmem
  have hnodup := htree.nodup
  rw [tables_eq] at hnodup
  exact List.disjoint_of_nodup_append hnodup
    (List.mem_flatMap.mpr ⟨i, List.mem_range.mpr hi, hmem⟩) List.mem_cons_self

theorem TreeAt.nodup_through {mem : WordMemory} {depth root i : ℕ}
    (htree : TreeAt format mem depth root) (hi : i < fanout) :
    (tablesThrough format mem depth (mem (slot root i))).Nodup := by
  have hnodup := htree.nodup
  rw [tables_eq] at hnodup
  exact (List.nodup_flatMap.mp hnodup.of_append_left).1 i (List.mem_range.mpr hi)

/-- Different entries of the root lead to different tables. -/
theorem TreeAt.disjoint_through {mem : WordMemory} {depth root i j : ℕ}
    (htree : TreeAt format mem depth root) (hi : i < fanout) (hj : j < fanout) (hne : i ≠ j) :
    List.Disjoint (tablesThrough format mem depth (mem (slot root i)))
      (tablesThrough format mem depth (mem (slot root j))) := by
  have hnodup := htree.nodup
  rw [tables_eq] at hnodup
  have hpairwise := (List.nodup_flatMap.mp hnodup.of_append_left).2
  have hsymm : Std.Symm (Function.onFun List.Disjoint
      fun i ↦ tablesThrough format mem depth (mem (slot root i))) := ⟨fun _ _ h ↦ h.symm⟩
  exact hpairwise.forall (List.mem_range.mpr hi) (List.mem_range.mpr hj) hne

/-- The tree below a link is well formed. -/
theorem TreeAt.child {mem : WordMemory} {depth root i : ℕ}
    (htree : TreeAt format mem (depth + 1) root) (hi : i < fanout)
    (htable : format.isTable (mem (slot root i)) = true) :
    TreeAt format mem depth (format.child (mem (slot root i))) := by
  have hthrough : tablesThrough format mem (depth + 1) (mem (slot root i)) =
      tables format mem depth (format.child (mem (slot root i))) := tablesThrough_of_isTable htable
  constructor
  · rw [← hthrough]
    exact htree.nodup_through hi
  · intro t ht
    rw [← hthrough] at ht
    exact htree.isFrame t (mem_tables_of_through hi ht)

end TreeLemmas

end MegKer.Foundation
