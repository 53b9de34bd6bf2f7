import MegKer.Memory.HeapRefinement

/-!
# Runs of the heap

Callers of the heap hold pointers. `HeapUse` is a heap together with the live allocations, each a
pointer with the number of bytes that were requested, and `HeapUse.Reachable` are the states that
arise after `heap_init` when callers request any sizes below `2 ^ 63`, free pointers that are live,
and write anywhere inside their allocations, while the rest of the kernel uses the frame allocator
and its own frames. The only assumption on the rest of the kernel is that frames the heap obtained
from `pmm_alloc_frames` are the heap's: they stay marked used and nobody else writes to them.

The invariant has two parts. The heap has a layout (`HeapAt`), so every arena is tiled by its
blocks. And every live pointer is the pointer to a block of the layout that is not free and has
room for the request (`LiveAt`). Since the blocks of a layout do not overlap
(`heapBlocks_eq_or_apart`), the live ranges are disjoint from each other and from every
header: `heap_tiled_and_live_disjoint`.
-/

set_option autoImplicit false
set_option relaxedAutoImplicit false

namespace MegKer.Memory

open Foundation

/-! ### The blocks of a layout -/

/-- The blocks of all arenas with their addresses. -/
def heapBlocks (arenas : List Arena) : List (ℕ × Block) := arenas.flatMap Arena.located

theorem mem_heapBlocks {arenas : List Arena} {block : ℕ × Block} :
    block ∈ heapBlocks arenas ↔ ∃ a ∈ arenas, block ∈ a.located := List.mem_flatMap

theorem located_aligned {blocks : List Block} (hsizes : ∀ b ∈ blocks, b.size % 8 = 0) :
    ∀ {addr h : ℕ} {b : Block}, addr % 8 = 0 → (h, b) ∈ located addr blocks → h % 8 = 0 := by
  induction blocks with
  | nil => intro addr h b _ hmem; simp at hmem
  | cons c rest ih =>
    intro addr h b haddr hmem
    have hc := hsizes c List.mem_cons_self
    rcases List.mem_cons.mp hmem with heq | hmem
    · rw [(Prod.mk.inj heq).1]
      exact haddr
    · exact ih (fun d hd ↦ hsizes d (List.mem_cons_of_mem _ hd)) (by omega) hmem

theorem heapBlocks_aligned {arenas : List Arena} {h : ℕ} {b : Block}
    (hmem : (h, b) ∈ heapBlocks arenas) : h % 8 = 0 := by
  obtain ⟨a, -, hlocated⟩ := mem_heapBlocks.mp hmem
  have haligned := a.aligned
  exact located_aligned a.sizes (by omega) hlocated

theorem pairwise_apart_forall {arenas : List Arena} (h : arenas.Pairwise Arena.Apart) {a b : Arena}
    (ha : a ∈ arenas) (hb : b ∈ arenas) (hne : a ≠ b) : a.Apart b :=
  have : Std.Symm Arena.Apart := ⟨fun _ _ h ↦ h.symm⟩
  h.forall ha hb hne

/-- Two blocks of a layout are the same block, or one lies behind the other. -/
theorem heapBlocks_eq_or_apart {arenas : List Arena} (hapart : arenas.Pairwise Arena.Apart)
    {one other : ℕ × Block} (hone : one ∈ heapBlocks arenas) (hother : other ∈ heapBlocks arenas) :
    one = other ∨ one.1 + 24 + one.2.size ≤ other.1 ∨ other.1 + 24 + other.2.size ≤ one.1 := by
  obtain ⟨a, ha, hlocated⟩ := mem_heapBlocks.mp hone
  obtain ⟨c, hc, hlocated'⟩ := mem_heapBlocks.mp hother
  by_cases hsame : a = c
  · subst hsame
    exact located_eq_or_apart hlocated hlocated'
  · right
    have hbounds := Arena.located_bounds hlocated
    have hbounds' := Arena.located_bounds hlocated'
    rcases pairwise_apart_forall hapart ha hc hsame with hle | hle <;> omega

/-- A block of a list, by its position. -/
theorem exists_split_of_located {blocks : List Block} :
    ∀ {addr header : ℕ} {b : Block}, (header, b) ∈ located addr blocks →
      ∃ pre post, blocks = pre ++ b :: post ∧ header = addr + extent pre := by
  induction blocks with
  | nil => intro addr header b hmem; simp at hmem
  | cons c rest ih =>
    intro addr header b hmem
    rcases List.mem_cons.mp hmem with heq | hmem
    · obtain ⟨rfl, rfl⟩ := Prod.mk.inj heq
      exact ⟨[], rest, rfl, by simp⟩
    · obtain ⟨pre, post, rfl, rfl⟩ := ih hmem
      refine ⟨c :: pre, post, rfl, ?_⟩
      rw [extent_cons]
      omega

theorem heapBlocks_replace (before after : List Arena) (a : Arena) :
    heapBlocks (before ++ a :: after) = heapBlocks before ++ (a.located ++ heapBlocks after) := by
  simp [heapBlocks]

section TakeAndRelease

variable {arenas arenas' : List Arena} {size ptr : ℕ}

/-- A block that is taken was free before. -/
theorem TakesBlock.free (h : TakesBlock size ptr arenas arenas') :
    ∃ header b, ptr = header + 24 ∧ (header, b) ∈ heapBlocks arenas ∧ b.free = true := by
  obtain ⟨before, after, a, a', pre, post, b, rfl, rfl, -, -, hblocks, -, hfits, rfl⟩ := h
  refine ⟨a.base + 24 + extent pre, b, rfl, mem_heapBlocks.mpr ⟨a, by simp, ?_⟩, hfits.1⟩
  rw [Arena.located, hblocks, located_append]
  simp

/-- A block that is taken is not free any more, and has room for the request. -/
theorem TakesBlock.taken (h : TakesBlock size ptr arenas arenas') :
    ∃ header b, ptr = header + 24 ∧ (header, b) ∈ heapBlocks arenas' ∧ b.free = false ∧
      size ≤ b.size := by
  obtain ⟨before, after, a, a', pre, post, b, rfl, rfl, hbase, -, -, hblocks, hfits, rfl⟩ := h
  have hhead : ∃ c rest, takeBlock b size = c :: rest ∧ c.free = false ∧ size ≤ c.size := by
    unfold takeBlock
    split_ifs
    · exact ⟨_, _, rfl, rfl, le_rfl⟩
    · exact ⟨_, _, rfl, rfl, hfits.2⟩
  obtain ⟨c, rest, htake, hfree, hroom⟩ := hhead
  refine ⟨a.base + 24 + extent pre, c, rfl, mem_heapBlocks.mpr ⟨a', by simp, ?_⟩, hfree, hroom⟩
  rw [Arena.located, hblocks, located_append, htake, hbase]
  simp

/-- Blocks that are not free stay where they are when a block is taken. -/
theorem TakesBlock.keeps (h : TakesBlock size ptr arenas arenas') {header : ℕ} {c : Block}
    (hmem : (header, c) ∈ heapBlocks arenas) (hused : c.free = false) :
    (header, c) ∈ heapBlocks arenas' := by
  obtain ⟨before, after, a, a', pre, post, b, rfl, rfl, hbase, -, hblocks, hblocks', hfits, -⟩ := h
  rw [heapBlocks_replace, List.mem_append, List.mem_append] at hmem ⊢
  rcases hmem with hmem | hmem | hmem
  · exact Or.inl hmem
  · refine Or.inr (Or.inl ?_)
    rw [Arena.located, hblocks, located_append, located_append] at hmem
    rw [Arena.located, hblocks', hbase, located_append, located_append,
      extent_takeBlock hfits.2]
    simp only [List.mem_append, located_cons, located_nil, List.mem_singleton, extent_cons,
      extent_nil, Nat.add_zero] at hmem ⊢
    rcases hmem with hmem | heq | hmem
    · exact Or.inl hmem
    · obtain ⟨-, rfl⟩ := Prod.mk.inj heq
      rw [hfits.1] at hused
      exact absurd hused (by simp)
    · exact Or.inr (Or.inr hmem)
  · exact Or.inr (Or.inr hmem)

/-- Blocks that are not free, other than the released one, stay where they are. -/
theorem ReleasesBlock.keeps (h : ReleasesBlock ptr arenas arenas') {header : ℕ} {c : Block}
    (hmem : (header, c) ∈ heapBlocks arenas) (hused : c.free = false) (hother : header + 24 ≠ ptr) :
    (header, c) ∈ heapBlocks arenas' := by
  obtain ⟨before, after, a, a', pre, post, b, rfl, rfl, hbase, -, hblocks, hblocks', rfl⟩ := h
  rw [heapBlocks_replace, List.mem_append, List.mem_append] at hmem ⊢
  rcases hmem with hmem | hmem | hmem
  · exact Or.inl hmem
  · refine Or.inr (Or.inl ?_)
    rw [Arena.located, hblocks, located_append, located_cons, List.mem_append, List.mem_cons] at hmem
    rw [Arena.located, hblocks', hbase, located_append, List.mem_append]
    rcases hmem with hmem | heq | hmem
    · exact Or.inl hmem
    · exact absurd (by rw [(Prod.mk.inj heq).1]) hother
    · right
      cases post with
      | nil => simp at hmem
      | cons next rest =>
        rw [located_cons, List.mem_cons] at hmem
        simp only [releaseBlock]
        split_ifs with hfree
        · rcases hmem with heq | hmem
          · obtain ⟨-, rfl⟩ := Prod.mk.inj heq
            rw [hfree] at hused
            exact absurd hused (by simp)
          · have hend : a.base + 24 + extent pre + (24 + b.size) + (24 + next.size) =
                a.base + 24 + extent pre + (24 + (b.size + (24 + next.size))) := by omega
            rw [hend] at hmem
            exact List.mem_cons_of_mem _ hmem
        · exact List.mem_cons_of_mem _ (List.mem_cons.mpr hmem)
  · exact Or.inr (Or.inr hmem)

end TakeAndRelease

/-! ### Live allocations -/

/-- A heap and its live allocations: pointers with the number of requested bytes. -/
structure HeapUse where
  heap : Heap
  live : List (ℕ × ℕ)

def HeapUse.kmalloc (u : HeapUse) (size : ℕ) : HeapUse :=
  { heap := (Memory.kmalloc u.heap size).1
    live := if (Memory.kmalloc u.heap size).2 = 0 then u.live
      else ((Memory.kmalloc u.heap size).2, size) :: u.live }

def HeapUse.kfree (u : HeapUse) (allocation : ℕ × ℕ) : HeapUse :=
  { heap := Memory.kfree u.heap allocation.1
    live := u.live.erase allocation }

/-- The states after `heap_init`. -/
inductive HeapUse.Reachable : HeapUse → Prop
  | init (pmm : Pmm) (mem : WordMemory) (hbound : pmm.totalFrames ≤ 2 ^ 52) :
      HeapUse.Reachable ⟨heapInit ⟨pmm, mem, 0⟩, []⟩
  | kmalloc {u : HeapUse} (size : ℕ) (hu : HeapUse.Reachable u) (hsize : size < 2 ^ 63) :
      HeapUse.Reachable (u.kmalloc size)
  | kfree {u : HeapUse} (allocation : ℕ × ℕ) (hu : HeapUse.Reachable u)
      (hlive : allocation ∈ u.live) : HeapUse.Reachable (u.kfree allocation)
  -- a caller writes inside its allocations
  | write {u : HeapUse} (mem : WordMemory) (hu : HeapUse.Reachable u)
      (hinside : ∀ w, mem w ≠ u.heap.mem w →
        ∃ allocation ∈ u.live, allocation.1 ≤ w ∧ w < allocation.1 + allocation.2) :
      HeapUse.Reachable { u with heap := { u.heap with mem := mem } }
  -- the rest of the kernel allocates and frees frames and writes to frames that are not the heap's
  | others {u : HeapUse} (pmm : Pmm) (mem : WordMemory) (arenas : List Arena)
      (hu : HeapUse.Reachable u) (hat : HeapAt u.heap arenas)
      (htotal : pmm.totalFrames = u.heap.pmm.totalFrames)
      (hused : ∀ a ∈ arenas, ∀ f, a.base / 4096 ≤ f → f < a.base / 4096 + a.frames →
        f ∉ freeSet pmm)
      (hmem : ∀ a ∈ arenas, ∀ w, a.base ≤ w → w < a.base + a.frames * 4096 →
        mem w = u.heap.mem w) :
      HeapUse.Reachable { u with heap := { u.heap with pmm := pmm, mem := mem } }

/-- Every live pointer is the pointer to a block of the layout with room for the request, and no
pointer is live twice. -/
structure LiveAt (arenas : List Arena) (live : List (ℕ × ℕ)) : Prop where
  nodup : (live.map Prod.fst).Nodup
  block : ∀ p n, (p, n) ∈ live → 0 < n ∧
    ∃ header b, p = header + 24 ∧ (header, b) ∈ heapBlocks arenas ∧ b.free = false ∧ n ≤ b.size

theorem LiveAt.takesBlock {arenas arenas' : List Arena} {live : List (ℕ × ℕ)}
    {size aligned ptr : ℕ} (hlive : LiveAt arenas live) (hapart : arenas.Pairwise Arena.Apart)
    (htakes : TakesBlock aligned ptr arenas arenas') (hpos : 0 < size) (hle : size ≤ aligned) :
    LiveAt arenas' ((ptr, size) :: live) where
  nodup := by
    rw [List.map_cons, List.nodup_cons]
    refine ⟨fun hptr ↦ ?_, hlive.nodup⟩
    obtain ⟨⟨p, n⟩, hmem, heq⟩ := List.mem_map.mp hptr
    obtain ⟨-, header, b, hp, hblock, hused, -⟩ := hlive.block p n hmem
    obtain ⟨header', b', hp', hblock', hfree⟩ := htakes.free
    have hsame : header = header' := by
      simp only at heq
      omega
    subst hsame
    rcases heapBlocks_eq_or_apart hapart hblock hblock' with heq | hbehind | hbehind
    · rw [(Prod.mk.inj heq).2, hfree] at hused
      exact absurd hused (by simp)
    · simp only at hbehind
      omega
    · simp only at hbehind
      omega
  block := by
    intro p n hmem
    rcases List.mem_cons.mp hmem with heq | hmem
    · obtain ⟨rfl, rfl⟩ := Prod.mk.inj heq
      obtain ⟨header, b, hp, hblock, hused, hroom⟩ := htakes.taken
      exact ⟨hpos, header, b, hp, hblock, hused, hle.trans hroom⟩
    · obtain ⟨hn, header, b, hp, hblock, hused, hroom⟩ := hlive.block p n hmem
      exact ⟨hn, header, b, hp, htakes.keeps hblock hused, hused, hroom⟩

/-- Growing the heap keeps the live allocations. -/
theorem LiveAt.cons_arena {arenas : List Arena} {live : List (ℕ × ℕ)} (h : LiveAt arenas live)
    (a : Arena) : LiveAt (a :: arenas) live where
  nodup := h.nodup
  block := fun p n hmem ↦ by
    obtain ⟨hn, header, b, hp, hblock, hrest⟩ := h.block p n hmem
    obtain ⟨c, hc, hlocated⟩ := mem_heapBlocks.mp hblock
    exact ⟨hn, header, b, hp, mem_heapBlocks.mpr ⟨c, List.mem_cons_of_mem _ hc, hlocated⟩, hrest⟩

/-- Freeing a live pointer releases its block and keeps the other live allocations. -/
theorem LiveAt.releasesBlock {arenas arenas' : List Arena} {live : List (ℕ × ℕ)}
    {allocation : ℕ × ℕ} (hlive : LiveAt arenas live) (hmem : allocation ∈ live)
    (hreleases : ReleasesBlock allocation.1 arenas arenas') :
    LiveAt arenas' (live.erase allocation) where
  nodup := hlive.nodup.sublist (List.erase_sublist.map _)
  block := fun p n hother ↦ by
    obtain ⟨hn, header, b, hp, hblock, hused, hroom⟩ :=
      hlive.block p n (List.mem_of_mem_erase hother)
    refine ⟨hn, header, b, hp, hreleases.keeps hblock hused fun hsame ↦ ?_, hused, hroom⟩
    have hnodup : ((allocation :: live.erase allocation).map Prod.fst).Nodup :=
      ((List.perm_cons_erase hmem).map Prod.fst).nodup_iff.mp hlive.nodup
    rw [List.map_cons, List.nodup_cons] at hnodup
    exact hnodup.1 (List.mem_map.mpr ⟨(p, n), hother, hp.trans hsame⟩)

/-- Live allocations do not overlap. -/
theorem LiveAt.disjoint {arenas : List Arena} {live : List (ℕ × ℕ)} (hlive : LiveAt arenas live)
    (hapart : arenas.Pairwise Arena.Apart) :
    live.Pairwise fun one other ↦ one.1 + one.2 ≤ other.1 ∨ other.1 + other.2 ≤ one.1 := by
  have hdistinct : live.Pairwise fun one other ↦ one.1 ≠ other.1 :=
    List.pairwise_map.mp hlive.nodup
  refine hdistinct.imp_of_mem fun {one other} hone hother hne ↦ ?_
  obtain ⟨-, header, b, hp, hblock, -, hroom⟩ := hlive.block one.1 one.2 hone
  obtain ⟨-, header', b', hp', hblock', -, hroom'⟩ := hlive.block other.1 other.2 hother
  rcases heapBlocks_eq_or_apart hapart hblock hblock' with heq | hbehind | hbehind
  · exact absurd (by rw [hp, hp', (Prod.mk.inj heq).1]) hne
  · simp only at hbehind
    omega
  · simp only at hbehind
    omega

/-- `kfree` of a live pointer on a laid-out heap. -/
theorem HeapAt.kfree_live {s : Heap} {arenas : List Arena} (hat : HeapAt s arenas) {header : ℕ}
    {b : Block} (hmem : (header, b) ∈ heapBlocks arenas) (hpos : 0 < b.size) :
    ∃ arenas', ReleasesBlock (header + 24) arenas arenas' ∧ HeapAt (kfree s (header + 24)) arenas' := by
  obtain ⟨a, ha, hlocated⟩ := mem_heapBlocks.mp hmem
  obtain ⟨before, after, rfl⟩ := List.append_of_mem ha
  obtain ⟨pre, post, hblocks, rfl⟩ := exists_split_of_located hlocated
  obtain ⟨a', hbase, hframes, hblocks', hat'⟩ := heapAt_kfree hat hblocks hpos
  exact ⟨before ++ a' :: after,
    ⟨before, after, a, a', pre, post, b, rfl, rfl, hbase, hframes, hblocks, hblocks', rfl⟩, hat'⟩

/-! ### The invariant of runs -/

theorem heapAt_heapInit (pmm : Pmm) (mem : WordMemory) (hbound : pmm.totalFrames ≤ 2 ^ 52) :
    ∃ arenas, HeapAt (heapInit ⟨pmm, mem, 0⟩) arenas := by
  have hempty : HeapAt ⟨pmm, mem, 0⟩ [] :=
    ⟨rfl, List.Pairwise.nil, fun a ha ↦ absurd ha (by simp), hbound⟩
  rcases heapAt_growHeap hempty (Nat.zero_le _) with ⟨-, -, hat⟩ | ⟨a, -, -, -, hat⟩
  · exact ⟨[], hat⟩
  · exact ⟨[a], hat⟩

/-- A word inside a block's usable bytes is in no header. -/
theorem notMem_headers_of_inside {arenas : List Arena} (hapart : arenas.Pairwise Arena.Apart)
    {header w : ℕ} {b : Block} (hblock : (header, b) ∈ heapBlocks arenas)
    (hlow : header + 24 ≤ w) (hhigh : w < header + 24 + b.size) {c : Arena} (hc : c ∈ arenas) :
    w ∉ c.headers := by
  obtain ⟨a, ha, hlocated⟩ := mem_heapBlocks.mp hblock
  have hbounds := Arena.located_bounds hlocated
  rintro (⟨hge, hlt⟩ | ⟨header', b', hlocated', hge, hlt⟩)
  · have hpos := c.frames_pos
    by_cases hsame : a = c
    · subst hsame
      omega
    · rcases pairwise_apart_forall hapart ha hc hsame with hle | hle <;> omega
  · rcases heapBlocks_eq_or_apart hapart hblock (mem_heapBlocks.mpr ⟨c, hc, hlocated'⟩) with
      heq | hbehind | hbehind
    · obtain ⟨rfl, -⟩ := Prod.mk.inj heq
      omega
    · simp only at hbehind
      omega
    · simp only at hbehind
      omega

/-- The headers determine where the arenas of a chain are and how many frames they have. -/
theorem ArenasAt.exists_same {mem : WordMemory} {arenas₀ arenas : List Arena} :
    ∀ {ptr : ℕ}, ArenasAt mem ptr arenas → ArenasAt mem ptr arenas₀ →
      ∀ a ∈ arenas, ∃ a₀ ∈ arenas₀, a₀.base = a.base ∧ a₀.frames = a.frames := by
  induction arenas generalizing arenas₀ with
  | nil => intro ptr _ _ a ha; simp at ha
  | cons b rest ih =>
    intro ptr h h₀ a ha
    obtain ⟨hptr, hat, hrest⟩ := h
    cases arenas₀ with
    | nil => exact absurd (hptr.symm.trans h₀) b.base_ne_zero
    | cons b₀ rest₀ =>
      obtain ⟨hptr₀, hat₀, hrest₀⟩ := h₀
      have hbase : b₀.base = b.base := hptr₀.symm.trans hptr
      rcases List.mem_cons.mp ha with rfl | ha
      · refine ⟨b₀, List.mem_cons_self, hbase, ?_⟩
        rw [← hat₀.frameCount_eq, ← hat.frameCount_eq, hbase]
      · rw [hbase] at hrest₀
        obtain ⟨a₀, ha₀, hsame⟩ := ih hrest hrest₀ a ha
        exact ⟨a₀, List.mem_cons_of_mem _ ha₀, hsame⟩

/-- Every reachable heap has a layout that contains the blocks of its live allocations. -/
theorem HeapUse.Reachable.exists_layout {u : HeapUse} (hu : HeapUse.Reachable u) :
    ∃ arenas, HeapAt u.heap arenas ∧ LiveAt arenas u.live := by
  induction hu with
  | init pmm mem hbound =>
    obtain ⟨arenas, hat⟩ := heapAt_heapInit pmm mem hbound
    exact ⟨arenas, hat, by simp, fun p n hmem ↦ absurd hmem (by simp)⟩
  | @kmalloc u size _ hsize ih =>
    obtain ⟨arenas, hat, hlive⟩ := ih
    by_cases hzero : size = 0
    · have hkmalloc : Memory.kmalloc u.heap size = (u.heap, 0) := by
        simp only [Memory.kmalloc, if_pos hzero]
      refine ⟨arenas, ?_⟩
      simp only [HeapUse.kmalloc, hkmalloc, if_true]
      exact ⟨hat, hlive⟩
    have hpos : 0 < size := Nat.pos_of_ne_zero hzero
    have hle : size ≤ alignUp size 8 := by
      rw [alignUp_eight (by omega)]
      omega
    have hcons : ∀ {arenas' arenas₀ : List Arena}, LiveAt arenas₀ u.live →
        arenas₀.Pairwise Arena.Apart →
        TakesBlock (alignUp size 8) (Memory.kmalloc u.heap size).2 arenas₀ arenas' →
        LiveAt arenas' (u.kmalloc size).live := by
      intro arenas' arenas₀ hlive₀ hapart htakes
      obtain ⟨header, b, hptr, -, -⟩ := htakes.free
      simp only [HeapUse.kmalloc]
      rw [if_neg (by omega)]
      exact hlive₀.takesBlock hapart htakes hpos hle
    rcases heapAt_kmalloc hat hpos (by omega) with ⟨arenas', htakes, hat'⟩ |
      ⟨-, ⟨-, hnull, -, hat'⟩ | ⟨a, arenas', -, -, -, hapart, htakes, hat'⟩⟩
    · exact ⟨arenas', hat', hcons hlive hat.apart htakes⟩
    · refine ⟨arenas, hat', ?_⟩
      simp only [HeapUse.kmalloc]
      rw [if_pos hnull]
      exact hlive
    · exact ⟨arenas', hat', hcons (hlive.cons_arena a)
        (List.pairwise_cons.mpr ⟨hapart, hat.apart⟩) htakes⟩
  | @kfree u allocation _ hmem ih =>
    obtain ⟨arenas, hat, hlive⟩ := ih
    obtain ⟨hn, header, b, hp, hblock, -, hroom⟩ := hlive.block allocation.1 allocation.2 hmem
    obtain ⟨arenas', hreleases, hat'⟩ := hat.kfree_live hblock (by omega)
    rw [← hp] at hreleases hat'
    exact ⟨arenas', hat', hlive.releasesBlock hmem hreleases⟩
  | @write u mem _ hinside ih =>
    obtain ⟨arenas, hat, hlive⟩ := ih
    refine ⟨arenas, ⟨hat.chain.congr fun c hc w hw ↦ ?_, hat.apart, hat.used,
      hat.totalFrames_le⟩, hlive⟩
    by_contra hchanged
    obtain ⟨allocation, hmem, hlow, hhigh⟩ := hinside w hchanged
    obtain ⟨-, header, b, hp, hblock, -, hroom⟩ := hlive.block allocation.1 allocation.2 hmem
    exact notMem_headers_of_inside hat.apart hblock (by omega) (by omega) hc hw
  | @others u pmm mem arenas₀ _ hat₀ htotal hused hmem ih =>
    obtain ⟨arenas, hat, hlive⟩ := ih
    have hsame := hat.chain.exists_same hat₀.chain
    refine ⟨arenas, ⟨hat.chain.congr fun c hc w hw ↦ ?_, hat.apart, fun c hc f hge hlt ↦ ?_,
      htotal.trans_le hat.totalFrames_le⟩, hlive⟩
    · obtain ⟨c₀, hc₀, hbase, hframes⟩ := hsame c hc
      have hbounds := Arena.headers_subset hw
      exact hmem c₀ hc₀ w (by omega) (by rw [hbase, hframes]; exact hbounds.2)
    · obtain ⟨c₀, hc₀, hbase, hframes⟩ := hsame c hc
      exact ⟨(hat.used c hc f hge hlt).1.trans_eq htotal.symm,
        hused c₀ hc₀ f (by rw [hbase]; exact hge) (by rw [hbase, hframes]; exact hlt)⟩

/-- In every state after `heap_init`, the heap has a layout in which every arena is tiled by its
blocks. The live ranges are 8-byte aligned, pairwise disjoint, disjoint from every arena header and
block header, and inside frames that the frame allocator has marked used. -/
theorem heap_tiled_and_live_disjoint {u : HeapUse} (hu : HeapUse.Reachable u) :
    ∃ arenas, HeapAt u.heap arenas ∧
      (∀ p n, (p, n) ∈ u.live → p % 8 = 0) ∧
      u.live.Pairwise (fun one other ↦
        one.1 + one.2 ≤ other.1 ∨ other.1 + other.2 ≤ one.1) ∧
      (∀ p n, (p, n) ∈ u.live → ∀ a ∈ arenas,
        (p + n ≤ a.base ∨ a.base + 24 ≤ p) ∧
        ∀ header b, (header, b) ∈ a.located → p + n ≤ header ∨ header + 24 ≤ p) ∧
      ∀ p n, (p, n) ∈ u.live → ∀ x, p ≤ x → x < p + n →
        x / 4096 < u.heap.pmm.totalFrames ∧ bitTest u.heap.pmm (x / 4096) = true := by
  obtain ⟨arenas, hat, hlive⟩ := hu.exists_layout
  refine ⟨arenas, hat, fun p n hmem ↦ ?_, hlive.disjoint hat.apart,
    fun p n hmem a ha ↦ ⟨?_, fun header' b' hloc ↦ ?_⟩, fun p n hmem x hge hlt ↦ ?_⟩
  · obtain ⟨-, header, b, rfl, hblock, -, -⟩ := hlive.block p n hmem
    have haligned := heapBlocks_aligned hblock
    omega
  · obtain ⟨hn, header, b, rfl, hblock, -, hroom⟩ := hlive.block p n hmem
    obtain ⟨c, hc, hlocated⟩ := mem_heapBlocks.mp hblock
    have hbounds := Arena.located_bounds hlocated
    have hpos := a.frames_pos
    by_cases hsame : c = a
    · subst hsame
      omega
    · rcases pairwise_apart_forall hat.apart hc ha hsame with hle | hle <;> omega
  · obtain ⟨hn, header, b, rfl, hblock, -, hroom⟩ := hlive.block p n hmem
    rcases heapBlocks_eq_or_apart hat.apart hblock (mem_heapBlocks.mpr ⟨a, ha, hloc⟩) with
      heq | hbehind | hbehind
    · right
      rw [(Prod.mk.inj heq).1]
    · simp only at hbehind
      omega
    · simp only at hbehind
      omega
  · obtain ⟨hn, header, b, rfl, hblock, -, hroom⟩ := hlive.block p n hmem
    obtain ⟨c, hc, hlocated⟩ := mem_heapBlocks.mp hblock
    have hbounds := Arena.located_bounds hlocated
    have haligned := c.aligned
    obtain ⟨htotal, hused⟩ := hat.used c hc (x / 4096) (by omega) (by omega)
    refine ⟨htotal, ?_⟩
    by_contra hclear
    exact hused (mem_freeSet.mpr ⟨htotal, by simpa using hclear⟩)

/-- The allocator of a machine with 31 free frames. The bitmap fills the end of frame 1. -/
def smallPmm : Pmm := pmmInit [⟨0x1000, 0x20000⟩, ⟨0x40000, 0x800⟩] 0x1000 0x1FF8

/-- A run with two allocations, the first of which is freed again. -/
theorem heap_tiled_and_live_disjoint_two_allocations :
    let u := ((HeapUse.mk (heapInit ⟨smallPmm, fun _ ↦ 0, 0⟩)
      []).kmalloc 100).kmalloc 8
    u.live = [(0x2000 + 176, 8), (0x2000 + 48, 100)] ∧
      (∀ p n, (p, n) ∈ (u.kfree (0x2000 + 48, 100)).live → p % 8 = 0) := by
  intro u
  have hinit : HeapUse.Reachable
      ⟨heapInit ⟨smallPmm, fun _ ↦ 0, 0⟩, []⟩ :=
    .init _ _ (by decide +kernel)
  have hlive : u.live = [(0x2000 + 176, 8), (0x2000 + 48, 100)] := by decide +kernel
  have hu : HeapUse.Reachable u := .kmalloc 8 (.kmalloc 100 hinit (by omega)) (by omega)
  have hfreed : HeapUse.Reachable (u.kfree (0x2000 + 48, 100)) :=
    .kfree _ hu (by rw [hlive]; simp)
  obtain ⟨arenas, -, haligned, -⟩ := heap_tiled_and_live_disjoint hfreed
  exact ⟨hlive, haligned⟩

end MegKer.Memory
