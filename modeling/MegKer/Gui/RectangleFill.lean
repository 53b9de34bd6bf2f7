import MegKer.Gui.FramebufferMemory
import Mathlib.Data.List.Basic

/-!
# Filling rectangles, fast and pixel by pixel

`fb_fill_rect` computes the right and the lower edge of its rectangle once, clips them, and writes rows.
`putRect` is the rectangle drawn by `fb_put_pixel`, which clips each pixel. Both add coordinates modulo
`2 ^ 32`, but a sum that wraps means different things to them: pixel by pixel, the rectangle goes on at
the other side of the range, while an edge that wraps is to the left of the origin, and nothing is
filled (`fillRect_of_wrap`).

So the two agree, on every content of memory, as long as no edge wraps or no pixel is on the screen, and
for no other rectangle (`fillsAlike_iff`). A rectangle at a negative coordinate that reaches into the
screen is one of the others (`not_fillsAlike_cut`).
-/

set_option autoImplicit false
set_option relaxedAutoImplicit false

namespace MegKer.Gui

open Foundation

section Definitions

variable (info : FbInfo)

/-- A rectangle, pixel by pixel. -/
def FbInfo.putRect (mem : ByteMemory) (x y w h rgb : ℕ) : ByteMemory :=
  (List.range h).foldl (fun mem j ↦ (List.range w).foldl (fun mem i ↦
    info.putPixel mem (wrap32 (x + i)) (wrap32 (y + j)) rgb) mem) mem

/-- Whatever is in memory, both ways to fill a rectangle lead to the same. -/
def FillsAlike (x y w h rgb : ℕ) : Prop :=
  ∀ mem, info.fillRect mem x y w h rgb = info.putRect mem x y w h rgb

/-- The range of `length` coordinates from `start` on does not meet the screen: one of them is empty, or
the range is behind the screen and ends before it would wrap. -/
def Misses (size start length : ℕ) : Prop :=
  length = 0 ∨ size = 0 ∨ (size ≤ start ∧ start + length ≤ 2 ^ 32)

end Definitions

theorem misses_iff {size start length : ℕ} (hstart : start < 2 ^ 32) (hlength : length < 2 ^ 32) :
    Misses size start length ↔ ∀ i < length, size ≤ wrap32 (start + i) := by
  constructor
  · rintro (hzero | hzero | ⟨hbehind, hend⟩) i hi
    · omega
    · omega
    · rw [wrap32_of_lt (by omega)]
      omega
  · intro hall
    by_contra hmeets
    simp only [Misses, not_or, not_and, not_le] at hmeets
    obtain ⟨hlong, hsize, hedge⟩ := hmeets
    by_cases hbehind : size ≤ start
    · -- the range wraps, and comes back at 0
      have hback := hall (2 ^ 32 - start) (by have := hedge hbehind; omega)
      rw [wrap32] at hback
      omega
    · have hfirst := hall 0 (by omega)
      rw [wrap32_of_lt (by omega)] at hfirst
      omega

/-- A loop whose rounds do nothing. -/
theorem foldl_of_idle {σ α : Type} {f : σ → α → σ} {xs : List α} (hidle : ∀ a ∈ xs, ∀ s, f s a = s)
    (s : σ) : xs.foldl f s = s := by
  induction xs with
  | nil => rfl
  | cons a xs ih =>
    obtain ⟨hhead, htail⟩ := List.forall_mem_cons.mp hidle
    rw [List.foldl_cons, hhead, ih htail]

/-- Rounds at the end of a loop that do nothing can be left out. -/
theorem foldl_range_clip {σ : Type} {f : σ → ℕ → σ} {m n : ℕ} (hle : m ≤ n)
    (hidle : ∀ i < n, m ≤ i → ∀ s, f s i = s) (s : σ) :
    (List.range n).foldl f s = (List.range m).foldl f s := by
  obtain ⟨d, rfl⟩ := Nat.exists_eq_add_of_le hle
  rw [List.range_add, List.foldl_append]
  refine foldl_of_idle (fun i hi ↦ ?_) _
  obtain ⟨k, hk, rfl⟩ := List.mem_map.mp hi
  have hlt := List.mem_range.mp hk
  exact hidle (m + k) (by omega) (by omega)

section Fill

variable {info : FbInfo} {x y w h rgb : ℕ}

theorem putPixel_of_absent (hpresent : info.present = false) (mem : ByteMemory) (x y rgb : ℕ) :
    info.putPixel mem x y rgb = mem := if_pos (Or.inl hpresent)

theorem putPixel_of_clip {x y : ℕ} (hclip : info.width ≤ x ∨ info.height ≤ y) (mem : ByteMemory)
    (rgb : ℕ) : info.putPixel mem x y rgb = mem := if_pos (Or.inr hclip)

theorem putPixel_of_inside (hpresent : info.present = true) {x y : ℕ} (hx : x < info.width)
    (hy : y < info.height) (mem : ByteMemory) (rgb : ℕ) :
    info.putPixel mem x y rgb = mem.storeU32 (info.cell x y) (stored rgb) := by
  rw [FbInfo.putPixel, if_neg]
  simp only [hpresent, not_or, not_le]
  exact ⟨by simp, hx, hy⟩

/-- Without a pixel on the screen, nothing is drawn. -/
theorem putRect_of_idle
    (hidle : ∀ i < w, ∀ j < h, ∀ mem, info.putPixel mem (wrap32 (x + i)) (wrap32 (y + j)) rgb = mem)
    (mem : ByteMemory) : info.putRect mem x y w h rgb = mem := by
  refine foldl_of_idle (fun j hj mem ↦ ?_) mem
  refine foldl_of_idle (fun i hi mem ↦ ?_) mem
  exact hidle i (List.mem_range.mp hi) j (List.mem_range.mp hj) mem

/-- An edge that wraps is to the left of the origin, or above it. -/
theorem fillRect_of_wrap (hx : x < 2 ^ 32) (hw : w < 2 ^ 32) (hy : y < 2 ^ 32) (hh : h < 2 ^ 32)
    (hwrap : 2 ^ 32 ≤ x + w ∨ 2 ^ 32 ≤ y + h) (mem : ByteMemory) :
    info.fillRect mem x y w h rgb = mem := by
  have hedge : min (wrap32 (x + w)) info.width ≤ x ∨ min (wrap32 (y + h)) info.height ≤ y := by
    simp only [wrap32]
    omega
  rw [FbInfo.fillRect]
  split_ifs
  · rfl
  · exact if_pos hedge

/-- A row of the screen, pixel by pixel. The columns that are clipped come last, and do nothing. -/
theorem putRow_eq_fillCells (hpresent : info.present = true) (hw : x + w < 2 ^ 32)
    (hx : x < min (x + w) info.width) {row : ℕ} (hrow : row < info.height) (mem : ByteMemory) :
    (List.range w).foldl (fun mem i ↦ info.putPixel mem (wrap32 (x + i)) row rgb) mem =
      FbInfo.fillCells mem (info.cell x row) (min (x + w) info.width - x) (stored rgb) := by
  have hclip : (List.range w).foldl (fun mem i ↦ info.putPixel mem (wrap32 (x + i)) row rgb) mem =
      (List.range (min (x + w) info.width - x)).foldl
        (fun mem i ↦ info.putPixel mem (wrap32 (x + i)) row rgb) mem := by
    refine foldl_range_clip (by omega) (fun i hi hlow mem ↦ ?_) mem
    rw [wrap32_of_lt (by omega)]
    exact putPixel_of_clip (Or.inl (by omega)) mem rgb
  rw [hclip]
  refine List.foldl_ext _ _ _ fun mem i hi ↦ ?_
  have hi := List.mem_range.mp hi
  have hpointer : info.cell x row + 4 * i = info.cell (x + i) row := by
    simp only [FbInfo.cell]
    omega
  rw [hpointer, wrap32_of_lt (by omega)]
  exact putPixel_of_inside hpresent (by omega) hrow mem rgb

/-- Without an edge that wraps, the rows are the pixels that are not clipped. -/
theorem fillsAlike_of_no_wrap (hx : x + w < 2 ^ 32) (hy : y + h < 2 ^ 32) :
    FillsAlike info x y w h rgb := by
  intro mem
  cases hpresent : info.present with
  | false =>
    rw [FbInfo.fillRect, if_pos hpresent]
    exact (putRect_of_idle (fun i _ j _ mem ↦ putPixel_of_absent hpresent mem _ _ rgb) mem).symm
  | true =>
    rw [FbInfo.fillRect, if_neg (by simp [hpresent]), wrap32_of_lt hx, wrap32_of_lt hy]
    dsimp only
    split_ifs with hempty
    · refine (putRect_of_idle (fun i hi j hj mem ↦ putPixel_of_clip ?_ mem rgb) mem).symm
      rw [wrap32_of_lt (by omega), wrap32_of_lt (by omega)]
      omega
    · have hclip : info.putRect mem x y w h rgb =
          (List.range (min (y + h) info.height - y)).foldl (fun mem j ↦ (List.range w).foldl
            (fun mem i ↦ info.putPixel mem (wrap32 (x + i)) (wrap32 (y + j)) rgb) mem) mem := by
        refine foldl_range_clip (by omega) (fun j hj hlow mem ↦ ?_) mem
        refine foldl_of_idle (fun i _ mem ↦ putPixel_of_clip (Or.inr ?_) mem rgb) mem
        rw [wrap32_of_lt (by omega)]
        omega
      rw [hclip]
      refine List.foldl_ext _ _ _ fun mem j hj ↦ ?_
      have hj := List.mem_range.mp hj
      rw [wrap32_of_lt (by omega : y + j < 2 ^ 32)]
      exact (putRow_eq_fillCells hpresent hx (by omega) (by omega) mem).symm

/-- Two memories that agree at an address agree there after the same pixel was drawn. -/
theorem putPixel_congr {a : ℕ} {mem mem' : ByteMemory} (hagree : mem a = mem' a) (x y rgb : ℕ) :
    info.putPixel mem x y rgb a = info.putPixel mem' x y rgb a := by
  rw [FbInfo.putPixel, FbInfo.putPixel]
  split_ifs
  · exact hagree
  · by_cases hinside : ∃ k < 4, a = wrap (info.cell x y + k)
    · obtain ⟨k, hk, rfl⟩ := hinside
      rw [ByteMemory.storeU32_inside _ _ _ hk, ByteMemory.storeU32_inside _ _ _ hk]
    · have hout : ∀ k < 4, a ≠ wrap (info.cell x y + k) := fun k hk heq ↦ hinside ⟨k, hk, heq⟩
      rw [ByteMemory.storeU32_outside _ _ hout, ByteMemory.storeU32_outside _ _ hout, hagree]

/-- They agree at the cell of that pixel in any case. -/
theorem putPixel_agree (hpresent : info.present = true) {x y : ℕ} (hx : x < info.width)
    (hy : y < info.height) (mem mem' : ByteMemory) (rgb : ℕ) :
    info.putPixel mem x y rgb (wrap (info.cell x y)) =
      info.putPixel mem' x y rgb (wrap (info.cell x y)) := by
  rw [putPixel_of_inside hpresent hx hy, putPixel_of_inside hpresent hx hy]
  exact (ByteMemory.storeU32_inside mem _ _ (by norm_num : 0 < 4)).trans
    (ByteMemory.storeU32_inside mem' _ _ (by norm_num : 0 < 4)).symm

/-- A loop whose rounds keep two memories in agreement at an address. -/
theorem foldl_congr_at {α : Type} {f : ByteMemory → α → ByteMemory} {a : ℕ} {xs : List α}
    (hkeeps : ∀ b ∈ xs, ∀ mem mem' : ByteMemory, mem a = mem' a → f mem b a = f mem' b a) :
    ∀ {mem mem' : ByteMemory}, mem a = mem' a → xs.foldl f mem a = xs.foldl f mem' a := by
  induction xs with
  | nil => exact id
  | cons b xs ih =>
    intro mem mem' hagree
    obtain ⟨hhead, htail⟩ := List.forall_mem_cons.mp hkeeps
    exact ih htail (hhead mem mem' hagree)

/-- One round after which they agree is enough. -/
theorem foldl_agree_at {α : Type} {f : ByteMemory → α → ByteMemory} {a : ℕ} {xs : List α}
    (hkeeps : ∀ b ∈ xs, ∀ mem mem' : ByteMemory, mem a = mem' a → f mem b a = f mem' b a) {b : α}
    (hb : b ∈ xs) (hmeets : ∀ mem mem' : ByteMemory, f mem b a = f mem' b a) (mem mem' : ByteMemory) :
    xs.foldl f mem a = xs.foldl f mem' a := by
  obtain ⟨before, after, rfl⟩ := List.append_of_mem hb
  rw [List.foldl_append, List.foldl_append, List.foldl_cons, List.foldl_cons]
  exact foldl_congr_at (fun c hc ↦ hkeeps c (by simp [hc])) (hmeets _ _)

/-- A rectangle with a pixel on the screen, drawn pixel by pixel, leaves the same at that pixel,
whatever was there. -/
theorem putRect_agree (hpresent : info.present = true) {i j : ℕ} (hi : i < w) (hj : j < h)
    (hx : wrap32 (x + i) < info.width) (hy : wrap32 (y + j) < info.height) (mem mem' : ByteMemory) :
    info.putRect mem x y w h rgb (wrap (info.cell (wrap32 (x + i)) (wrap32 (y + j)))) =
      info.putRect mem' x y w h rgb (wrap (info.cell (wrap32 (x + i)) (wrap32 (y + j)))) := by
  refine foldl_agree_at (fun j' _ mem mem' hagree ↦ ?_) (List.mem_range.mpr hj) (fun mem mem' ↦ ?_) mem
    mem'
  · exact foldl_congr_at (fun i' _ mem mem' hagree ↦
      putPixel_congr hagree (wrap32 (x + i')) (wrap32 (y + j')) rgb) hagree
  · exact foldl_agree_at (fun i' _ mem mem' hagree ↦
      putPixel_congr hagree (wrap32 (x + i')) (wrap32 (y + j)) rgb) (List.mem_range.mpr hi)
        (fun mem mem' ↦ putPixel_agree hpresent hx hy mem mem' rgb) mem mem'

/-- When an edge wraps and a pixel is on the screen, only one of the two draws it. -/
theorem not_fillsAlike_of_wrap (hx : x < 2 ^ 32) (hw : w < 2 ^ 32) (hy : y < 2 ^ 32) (hh : h < 2 ^ 32)
    (hpresent : info.present = true) (hcolumn : ¬ Misses info.width x w)
    (hrow : ¬ Misses info.height y h) (hwrap : 2 ^ 32 ≤ x + w ∨ 2 ^ 32 ≤ y + h) :
    ¬ FillsAlike info x y w h rgb := by
  intro halike
  rw [misses_iff hx hw] at hcolumn
  rw [misses_iff hy hh] at hrow
  push Not at hcolumn hrow
  obtain ⟨i, hi, hinside⟩ := hcolumn
  obtain ⟨j, hj, hinside'⟩ := hrow
  have hkeeps : ∀ mem : ByteMemory, info.putRect mem x y w h rgb = mem := fun mem ↦
    (halike mem).symm.trans (fillRect_of_wrap hx hw hy hh hwrap mem)
  have hsame : info.putRect (fun _ ↦ 0) x y w h rgb _ = info.putRect (fun _ ↦ 1) x y w h rgb _ :=
    putRect_agree hpresent hi hj hinside hinside' _ _
  rw [hkeeps, hkeeps] at hsame
  exact absurd hsame (by decide)

/-- When no pixel is on the screen, neither way draws anything. -/
theorem fillsAlike_of_misses (hx : x < 2 ^ 32) (hw : w < 2 ^ 32) (hy : y < 2 ^ 32) (hh : h < 2 ^ 32)
    (hwrap : 2 ^ 32 ≤ x + w ∨ 2 ^ 32 ≤ y + h)
    (hmisses : info.present = false ∨ Misses info.width x w ∨ Misses info.height y h) :
    FillsAlike info x y w h rgb := by
  intro mem
  rw [fillRect_of_wrap hx hw hy hh hwrap, putRect_of_idle]
  intro i hi j hj mem
  rcases hmisses with habsent | hcolumns | hrows
  · exact putPixel_of_absent habsent mem _ _ rgb
  · exact putPixel_of_clip (Or.inl ((misses_iff hx hw).mp hcolumns i hi)) mem rgb
  · exact putPixel_of_clip (Or.inr ((misses_iff hy hh).mp hrows j hj)) mem rgb

end Fill

/-- A rectangle of two by two pixels at column `-1`, which is what `draw_cursor` passes for a cursor that
is cut by the left edge: its right half is on the screen, and is not filled. -/
theorem not_fillsAlike_cut : ¬ FillsAlike smallScreen (2 ^ 32 - 1) 0 2 2 0xFFFFFF :=
  not_fillsAlike_of_wrap (by decide) (by decide) (by decide) (by decide) rfl (by unfold Misses; decide)
    (by unfold Misses; decide) (by decide)

/-- For every geometry, every rectangle and every colour: the fast way to fill a rectangle and the slow
one agree on every content of memory exactly if there is no framebuffer, no pixel is on the screen, or
neither the right nor the lower edge wraps. -/
theorem fillsAlike_iff (info : FbInfo) (x y w h rgb : ℕ) (hx : x < 2 ^ 32) (hy : y < 2 ^ 32)
    (hw : w < 2 ^ 32) (hh : h < 2 ^ 32) :
    FillsAlike info x y w h rgb ↔
      info.present = false ∨ Misses info.width x w ∨ Misses info.height y h ∨
        (x + w < 2 ^ 32 ∧ y + h < 2 ^ 32) := by
  constructor
  · intro halike
    cases hpresent : info.present with
    | false => exact Or.inl rfl
    | true =>
      refine Or.inr ?_
      by_contra hcontra
      simp only [not_or, not_and_or, not_lt] at hcontra
      exact not_fillsAlike_of_wrap hx hw hy hh hpresent hcontra.1 hcontra.2.1 hcontra.2.2 halike
  · intro hcondition
    by_cases hwrap : x + w < 2 ^ 32 ∧ y + h < 2 ^ 32
    · exact fillsAlike_of_no_wrap hwrap.1 hwrap.2
    · refine fillsAlike_of_misses hx hw hy hh (by omega) ?_
      rcases hcondition with habsent | hcolumns | hrows | hno
      · exact Or.inl habsent
      · exact Or.inr (Or.inl hcolumns)
      · exact Or.inr (Or.inr hrows)
      · exact absurd hno hwrap

/-- A rectangle that is cut by the right edge is filled in the same way. -/
theorem fillsAlike_iff_right_edge : FillsAlike smallScreen 1 0 4 1 0xFFFFFF :=
  (fillsAlike_iff smallScreen 1 0 4 1 0xFFFFFF (by decide) (by decide) (by decide) (by decide)).mpr
    (Or.inr (Or.inr (Or.inr (by decide))))

end MegKer.Gui
