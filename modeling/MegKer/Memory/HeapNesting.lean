import MegKer.Memory.HeapInRam
import Mathlib.Data.List.Chain

/-!
# Nested use of the heap

`kfree` merges a block with its successor only, since a block has no pointer to the one in front
of it. For callers that free in the reverse order of allocation this is enough. A layout is
*separated* when no arena has two adjacent free blocks. Taking a block of a separated layout leaves
a separated layout, and the pointer that was taken, freed again, gives the layout back as it was:
a rest that was split off is free and is swallowed, and a block that was handed out whole has a
successor that is in use.

The calls are those over one memory, of a heap that lies apart from the bitmap (`InRam`). `Layered` is the
invariant of a nested run: the layout arises from the original one, with some untouched new arenas in
front, by taking a block for each pointer on the stack. An arena that is
added in the middle of a run can be moved to the bottom of the stack (`Layered.cons_fresh`), so the
order of growing and allocating does not matter.
-/

set_option autoImplicit false
set_option relaxedAutoImplicit false

namespace MegKer.Memory

open Foundation

/-! ### Separated layouts -/

/-- No two free blocks are adjacent. -/
def Separated (blocks : List Block) : Prop :=
  blocks.IsChain fun b c ↦ ¬ (b.free = true ∧ c.free = true)

/-- An arena as `grow_heap` leaves it, with one free block. -/
def Arena.Fresh (a : Arena) : Prop := a.blocks = [⟨a.frames * 4096 - 48, true⟩]

theorem Arena.Fresh.separated {a : Arena} (h : a.Fresh) : Separated a.blocks := by
  rw [h]
  exact List.isChain_singleton _

theorem Arena.eq_of_fields {a b : Arena} (hbase : a.base = b.base) (hframes : a.frames = b.frames)
    (hblocks : a.blocks = b.blocks) : a = b := by
  cases a
  cases b
  simp only at hbase hframes hblocks
  subst hbase hframes hblocks
  rfl

/-- The successor of a free block is in use. -/
theorem Separated.next_used {pre rest : List Block} {b next : Block}
    (h : Separated (pre ++ b :: next :: rest)) (hfree : b.free = true) : next.free = false := by
  have hpair := (List.isChain_append_cons_cons.mp h).2.1
  cases hnext : next.free with
  | false => rfl
  | true => exact absurd ⟨hfree, hnext⟩ hpair

/-- Taking a free block keeps a list of blocks separated. -/
theorem Separated.takeBlock {pre post : List Block} {b : Block} {size : ℕ}
    (h : Separated (pre ++ ([b] ++ post))) (hfree : b.free = true) :
    Separated (pre ++ (takeBlock b size ++ post)) := by
  have hpost : ∀ next ∈ post.head?, next.free = false := by
    intro next hnext
    cases post with
    | nil => simp at hnext
    | cons c rest =>
      rw [List.head?_cons, Option.mem_some_iff] at hnext
      rw [← hnext]
      exact Separated.next_used h hfree
  obtain ⟨hpre, htail, -⟩ := List.isChain_append.mp h
  obtain ⟨-, hrest, -⟩ := List.isChain_append.mp htail
  unfold Memory.takeBlock
  split_ifs with hsplit
  · refine List.isChain_append.mpr ⟨hpre, ?_, ?_⟩
    · refine List.isChain_cons_cons.mpr ⟨by simp, ?_⟩
      refine List.isChain_append.mpr ⟨List.isChain_singleton _, hrest, ?_⟩
      intro x _ next hnext
      simp [hpost next hnext]
    · intro x _ c hc
      rw [List.cons_append, List.head?_cons, Option.mem_some_iff] at hc
      simp [← hc]
  · refine List.isChain_append.mpr ⟨hpre, ?_, ?_⟩
    · refine List.isChain_append.mpr ⟨List.isChain_singleton _, hrest, ?_⟩
      intro x _ next hnext
      simp [hpost next hnext]
    · intro x _ c hc
      rw [List.cons_append, List.head?_cons, Option.mem_some_iff] at hc
      simp [← hc]

/-- What is released right after it was taken is the block itself. -/
theorem releaseBlock_takeBlock {pre post : List Block} {b : Block} {size : ℕ}
    (h : Separated (pre ++ ([b] ++ post))) (hfits : b.Fits size) :
    ∃ c rest, takeBlock b size ++ post = c :: rest ∧ size ≤ c.size ∧
      releaseBlock c rest = b :: post := by
  obtain ⟨bsize, bfree⟩ := b
  obtain ⟨rfl, hle⟩ : bfree = true ∧ size ≤ bsize := hfits
  unfold takeBlock
  split_ifs with hsplit
  · -- the rest that was split off is free and is swallowed again
    refine ⟨⟨size, false⟩, ⟨bsize - size - 24, true⟩ :: post, rfl, le_rfl, ?_⟩
    have hsum : size + (24 + (bsize - size - 24)) = bsize := by
      simp only at hsplit
      omega
    simp only [releaseBlock, if_true, hsum]
  · refine ⟨⟨bsize, false⟩, post, rfl, hle, ?_⟩
    cases post with
    | nil => rfl
    | cons next rest =>
      have hused := Separated.next_used h rfl
      simp [releaseBlock, hused]

/-! ### Taking and giving back -/

section TakeAndGiveBack

variable {arenas arenas' : List Arena} {size ptr : ℕ}

theorem TakesBlock.separated (h : TakesBlock size ptr arenas arenas')
    (hseparated : ∀ a ∈ arenas, Separated a.blocks) : ∀ a ∈ arenas', Separated a.blocks := by
  obtain ⟨before, after, a, a', pre, post, b, rfl, rfl, -, -, hblocks, hblocks', hfits, -⟩ := h
  intro c hc
  rcases List.mem_append.mp hc with hc | hc
  · exact hseparated c (by simp [hc])
  · rcases List.mem_cons.mp hc with rfl | hc
    · have ha := hseparated a (by simp)
      rw [hblocks] at ha
      rw [hblocks']
      exact ha.takeBlock hfits.1
    · exact hseparated c (by simp [hc])

/-- A new arena in front does not matter for taking a block. -/
theorem TakesBlock.cons_arena (h : TakesBlock size ptr arenas arenas') (fresh : Arena) :
    TakesBlock size ptr (fresh :: arenas) (fresh :: arenas') := by
  obtain ⟨before, after, a, a', pre, post, b, rfl, rfl, hrest⟩ := h
  exact ⟨fresh :: before, after, a, a', pre, post, b, rfl, rfl, hrest⟩

/-- Freeing the pointer that was taken gives back the layout from before. -/
theorem TakesBlock.kfree {s : Heap} (h : TakesBlock size ptr arenas arenas') (hpos : 0 < size)
    (hseparated : ∀ a ∈ arenas, Separated a.blocks) (hat : HeapAt s arenas') :
    HeapAt (kfree s ptr) arenas := by
  obtain ⟨before, after, a, a', pre, post, b, rfl, rfl, hbase, hframes, hblocks, hblocks', hfits,
    rfl⟩ := h
  have ha := hseparated a (by simp)
  rw [hblocks] at ha
  obtain ⟨c, rest, htake, hroom, hrelease⟩ := releaseBlock_takeBlock ha hfits
  rw [htake] at hblocks'
  obtain ⟨a'', hbase', hframes', hblocks'', hat'⟩ := heapAt_kfree hat hblocks' (by omega)
  have hsame : a'' = a := Arena.eq_of_fields (hbase'.trans hbase) (hframes'.trans hframes)
    (by rw [hblocks'', hrelease, hblocks]; rfl)
  rw [hsame, hbase] at hat'
  exact hat'

end TakeAndGiveBack

/-! ### Nested calls -/

/-- A call of a caller that frees its pointers in the reverse order of allocation. -/
inductive NestedCall
  | kmalloc (size : ℕ)
  -- frees the pointer that was allocated last among those not freed yet
  | kfree
  deriving DecidableEq, Repr

/-- The heap, and the results of `kmalloc` that were not freed yet, the last one first. -/
structure NestedUse where
  heap : Heap
  stack : List ℕ

/-- One call. There is nothing to free when the stack is empty. -/
def NestedUse.step (u : NestedUse) : NestedCall → Option NestedUse
  | .kmalloc size =>
    some ⟨(kmallocInRam u.heap size).1, (kmallocInRam u.heap size).2 :: u.stack⟩
  | .kfree =>
    match u.stack with
    | [] => none
    | ptr :: stack => some ⟨kfreeInRam u.heap ptr, stack⟩

/-- A sequence of calls. -/
def NestedUse.run (u : NestedUse) : List NestedCall → Option NestedUse
  | [] => some u
  | call :: calls => (u.step call).bind fun u' ↦ u'.run calls

/-- The layout arises from `arenas`, behind some fresh arenas, by taking a block for each pointer of
the stack that is not null. -/
inductive Layered (arenas : List Arena) : List ℕ → List Arena → Prop
  | base (added : List Arena) (hfresh : ∀ a ∈ added, a.Fresh) :
      Layered arenas [] (added ++ arenas)
  | failed {stack : List ℕ} {layout : List Arena} (h : Layered arenas stack layout) :
      Layered arenas (0 :: stack) layout
  | taken {stack : List ℕ} {layout layout' : List Arena} {size ptr : ℕ}
      (h : Layered arenas stack layout) (hpos : 0 < size)
      (htakes : TakesBlock size ptr layout layout') : Layered arenas (ptr :: stack) layout'

section Runs

variable {usable : Finset ℕ} {arenas layout : List Arena} {stack : List ℕ}

theorem Layered.separated (h : Layered arenas stack layout)
    (hseparated : ∀ a ∈ arenas, Separated a.blocks) : ∀ a ∈ layout, Separated a.blocks := by
  induction h with
  | base added hfresh =>
    intro a ha
    rcases List.mem_append.mp ha with ha | ha
    · exact (hfresh a ha).separated
    · exact hseparated a ha
  | failed _ ih => exact ih
  | taken _ _ htakes ih => exact htakes.separated ih

/-- An arena added at any time might have been there from the start. -/
theorem Layered.cons_fresh (h : Layered arenas stack layout) {a : Arena} (ha : a.Fresh) :
    Layered arenas stack (a :: layout) := by
  induction h with
  | base added hfresh => exact .base (a :: added) (List.forall_mem_cons.mpr ⟨ha, hfresh⟩)
  | failed _ ih => exact .failed ih
  | taken _ hpos htakes ih => exact .taken ih hpos (htakes.cons_arena a)

/-- The invariant of a nested run. -/
structure NestedUse.LayeredOn (usable : Finset ℕ) (arenas : List Arena) (u : NestedUse) : Prop where
  inRam : InRam usable u.heap
  exists_layout : ∃ layout, HeapAt u.heap layout ∧ Layered arenas u.stack layout

theorem NestedUse.LayeredOn.kmalloc {u : NestedUse} (h : u.LayeredOn usable arenas) {size : ℕ}
    (hsize : size < 2 ^ 63) :
    NestedUse.LayeredOn usable arenas ⟨(kmallocInRam u.heap size).1,
      (kmallocInRam u.heap size).2 :: u.stack⟩ := by
  obtain ⟨hinRam, layout, hat, hlayered⟩ := h
  by_cases hzero : size = 0
  · have hnull : kmallocInRam u.heap size = (u.heap, 0) := by
      rw [kmallocInRam, if_pos hzero]
    rw [hnull]
    exact ⟨hinRam, layout, hat, .failed hlayered⟩
  have haligned : 0 < alignUp size 8 := by
    rw [alignUp_eight (by omega)]
    omega
  have hpos := Nat.pos_of_ne_zero hzero
  have hle : size ≤ 2 ^ 64 - 4144 := by omega
  obtain ⟨mem, hsame, -, heq, hafter⟩ := hinRam.kmalloc hpos hle
  refine ⟨hafter, ?_⟩
  rw [heq]
  rcases heapAt_kmalloc (hinRam.heapAt_congr hat hsame) hpos hle with ⟨layout', htakes, hat'⟩ |
    ⟨-, ⟨-, hnull, -, hat'⟩ | ⟨a, layout', -, -, hfresh, -, htakes, hat'⟩⟩
  · exact ⟨layout', hat', .taken hlayered haligned htakes⟩
  · rw [hnull]
    exact ⟨layout, hat', .failed hlayered⟩
  · exact ⟨layout', hat', .taken (hlayered.cons_fresh hfresh) haligned htakes⟩

theorem NestedUse.LayeredOn.kfree {s : Heap} {ptr : ℕ}
    (h : NestedUse.LayeredOn usable arenas ⟨s, ptr :: stack⟩)
    (hseparated : ∀ a ∈ arenas, Separated a.blocks) :
    NestedUse.LayeredOn usable arenas ⟨kfreeInRam s ptr, stack⟩ := by
  obtain ⟨hinRam, layout, hat, hlayered⟩ := h
  cases hlayered with
  | failed h =>
    have hnull : kfreeInRam s 0 = s := InRam.load_eq hinRam.shown
    rw [hnull]
    exact ⟨hinRam, layout, hat, h⟩
  | taken h hpos htakes =>
    obtain ⟨header, b, rfl, hblock, -, hroom⟩ := htakes.taken
    obtain ⟨heq, hafter⟩ := hinRam.kfree hat hblock (by omega)
    exact ⟨hafter, _, heq ▸ htakes.kfree hpos (h.separated hseparated) hat, h⟩

theorem NestedUse.LayeredOn.run (hseparated : ∀ a ∈ arenas, Separated a.blocks)
    {calls : List NestedCall} :
    ∀ {u u' : NestedUse}, u.LayeredOn usable arenas →
      (∀ size, NestedCall.kmalloc size ∈ calls → size < 2 ^ 63) → u.run calls = some u' →
      u'.LayeredOn usable arenas := by
  induction calls with
  | nil =>
    intro u u' h _ hrun
    rw [NestedUse.run, Option.some.injEq] at hrun
    rwa [← hrun]
  | cons call calls ih =>
    intro u u' h hsizes hrun
    have hrest : ∀ size, NestedCall.kmalloc size ∈ calls → size < 2 ^ 63 := fun size hmem ↦
      hsizes size (List.mem_cons_of_mem _ hmem)
    cases call with
    | kmalloc size => exact ih (h.kmalloc (hsizes size List.mem_cons_self)) hrest hrun
    | kfree =>
      obtain ⟨s, stack⟩ := u
      cases stack with
      | nil => exact absurd hrun (by simp [NestedUse.run, NestedUse.step])
      | cons ptr stack => exact ih (h.kfree hseparated) hrest hrun

end Runs

end MegKer.Memory
