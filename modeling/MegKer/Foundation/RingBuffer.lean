import Mathlib.Data.List.Range
import Mathlib.Data.Nat.ModEq
import Mathlib.Logic.Function.Basic

/-!
# Ring buffers

A ring buffer is an array of slots that is used around in a circle. Its content is a window: `count`
slots from the slot `first` on, modulo the size. The counters of a ring buffer may run on, and only
their residues count; so they may wrap at any multiple of the size (`window_mod`).

A producer writes the slot behind the window (`window_push`), and a consumer reads the first slot of
the window and moves it on (`window_pop`).

`contents` is the window between the counters of a consumer and a producer, both of which wrap at a
multiple `m` of the size. The producer may write its slot and move its counter in two steps.
-/

set_option autoImplicit false
set_option relaxedAutoImplicit false

namespace MegKer.Foundation

variable {α : Type} {size : ℕ}

/-- The slots from `first` on. -/
def window (size : ℕ) (slots : ℕ → α) (first count : ℕ) : List α :=
  (List.range count).map fun i ↦ slots ((first + i) % size)

variable {slots : ℕ → α} {first count : ℕ}

@[simp] theorem length_window : (window size slots first count).length = count := by
  simp [window]

@[simp] theorem window_zero : window size slots first 0 = [] := rfl

/-- The counter of the first slot may be reduced modulo any multiple of the size. -/
theorem window_mod {m : ℕ} (hsize : size ∣ m) :
    window size slots (first % m) count = window size slots first count := by
  refine List.map_congr_left fun i _ ↦ ?_
  rw [Nat.add_mod, Nat.mod_mod_of_dvd _ hsize, ← Nat.add_mod]

/-- The first slot of a window, and the rest. -/
theorem window_pop :
    window size slots first (count + 1) =
      slots (first % size) :: window size slots (first + 1) count := by
  rw [window, List.range_succ_eq_map, List.map_cons, List.map_map]
  refine congrArg₂ List.cons rfl (List.map_congr_left fun i _ ↦ ?_)
  rw [Function.comp, Nat.succ_eq_add_one, Nat.add_right_comm, Nat.add_assoc]

/-- A window with one more slot. -/
theorem window_succ :
    window size slots first (count + 1) =
      window size slots first count ++ [slots ((first + count) % size)] := by
  rw [window, List.range_succ, List.map_append, List.map_singleton]
  rfl

/-- The slots of a window, and the one behind it, are different as long as they fit. -/
theorem window_slot_ne {i : ℕ} (hi : i < count) (hcount : count < size) :
    (first + i) % size ≠ (first + count) % size := by
  intro heq
  have hmod : i ≡ count [MOD size] := Nat.ModEq.add_left_cancel' first heq
  have hsame : i = count := Nat.ModEq.eq_of_lt_of_lt hmod (hi.trans hcount) hcount
  exact absurd hsame (Nat.ne_of_lt hi)

/-- Writing the slot behind a window leaves the window alone. -/
theorem window_update (hcount : count < size) (x : α) :
    window size (Function.update slots ((first + count) % size) x) first count =
      window size slots first count := by
  refine List.map_congr_left fun i hi ↦ ?_
  exact Function.update_of_ne (window_slot_ne (List.mem_range.mp hi) hcount) _ _

/-- Writing the slot behind a window puts it into the window. -/
theorem window_push (hcount : count < size) (x : α) :
    window size (Function.update slots ((first + count) % size) x) first (count + 1) =
      window size slots first count ++ [x] := by
  rw [window_succ, window_update hcount, Function.update_self]

/-! ### Two counters -/

/-- How far a wrapping counter is ahead of another. -/
def backlog (m first next : ℕ) : ℕ := (next + m - first) % m

/-- The slots from the counter of the consumer to the one of the producer. -/
def contents (size m : ℕ) (slots : ℕ → α) (first next : ℕ) : List α :=
  window size slots first (backlog m first next)

section Counters

variable {m next : ℕ}

@[simp] theorem length_contents : (contents size m slots first next).length = backlog m first next :=
  length_window

theorem backlog_of_le (hle : first ≤ next) (hnext : next < m) : backlog m first next = next - first := by
  rw [backlog, Nat.add_comm, Nat.add_sub_assoc hle, Nat.add_mod_left, Nat.mod_eq_of_lt (by omega)]

theorem backlog_of_lt (hlt : next < first) (hfirst : first < m) :
    backlog m first next = next + m - first :=
  Nat.mod_eq_of_lt (by omega)

/-- The counters are equal exactly when nothing is between them. -/
theorem backlog_eq_zero_iff (hfirst : first < m) (hnext : next < m) :
    backlog m first next = 0 ↔ next = first := by
  rcases Nat.lt_or_ge next first with hlt | hle
  · rw [backlog_of_lt hlt hfirst]
    omega
  · rw [backlog_of_le hle hnext]
    omega

/-- The counter of the producer moves. -/
theorem backlog_succ_next (hfirst : first < m) (hnext : next < m)
    (hroom : backlog m first next + 1 < m) :
    backlog m first ((next + 1) % m) = backlog m first next + 1 := by
  rcases Nat.lt_or_ge next first with hlt | hle
  · rw [backlog_of_lt hlt hfirst] at hroom ⊢
    rw [Nat.mod_eq_of_lt (by omega), backlog_of_lt (by omega) hfirst]
    omega
  · rw [backlog_of_le hle hnext] at hroom ⊢
    rcases Nat.lt_or_ge (next + 1) m with hstays | hwraps
    · rw [Nat.mod_eq_of_lt hstays, backlog_of_le (by omega) hstays]
      omega
    · have hm : next + 1 = m := by omega
      rw [hm, Nat.mod_self, backlog_of_lt (by omega) hfirst]
      omega

/-- The counter of the consumer moves. -/
theorem backlog_succ_first (hfirst : first < m) (hnext : next < m)
    (hsome : 0 < backlog m first next) :
    backlog m ((first + 1) % m) next + 1 = backlog m first next := by
  rcases Nat.lt_or_ge next first with hlt | hle
  · rw [backlog_of_lt hlt hfirst]
    rcases Nat.lt_or_ge (first + 1) m with hstays | hwraps
    · rw [Nat.mod_eq_of_lt hstays, backlog_of_lt (by omega) hstays]
      omega
    · have hm : first + 1 = m := by omega
      rw [hm, Nat.mod_self, backlog_of_le (by omega) hnext]
      omega
  · rw [backlog_of_le hle hnext] at hsome ⊢
    rw [Nat.mod_eq_of_lt (by omega), backlog_of_le (by omega) hnext]
    omega

/-- The slot of the producer is the one behind the window. -/
theorem add_backlog_mod (hsize : size ∣ m) (hfirst : first < m) (hnext : next < m) :
    (first + backlog m first next) % size = next % size := by
  rcases Nat.lt_or_ge next first with hlt | hle
  · obtain ⟨k, rfl⟩ := hsize
    rw [backlog_of_lt hlt hfirst, Nat.add_sub_cancel' (by omega), Nat.add_mul_mod_self_left]
  · rw [backlog_of_le hle hnext, Nat.add_sub_cancel' hle]

variable (hsize : size ∣ m) (hfirst : first < m) (hnext : next < m)

include hsize hfirst hnext

/-- Writing the slot of the producer leaves the contents alone. -/
theorem contents_write (hroom : backlog m first next < size) (x : α) :
    contents size m (Function.update slots (next % size) x) first next =
      contents size m slots first next := by
  rw [← add_backlog_mod hsize hfirst hnext]
  exact window_update hroom x

/-- The slot of the producer holds none of the contents. -/
theorem contents_slot_ne (hroom : backlog m first next < size) {i : ℕ}
    (hi : i < backlog m first next) : (first + i) % size ≠ next % size := by
  rw [← add_backlog_mod hsize hfirst hnext]
  exact window_slot_ne hi hroom

/-- Moving the counter of the producer puts its slot into the contents. -/
theorem contents_push (hroom : backlog m first next + 1 < m) :
    contents size m slots first ((next + 1) % m) =
      contents size m slots first next ++ [slots (next % size)] := by
  rw [contents, backlog_succ_next hfirst hnext hroom, window_succ, add_backlog_mod hsize hfirst hnext]
  rfl

/-- Moving the counter of the consumer takes its slot out of the contents. -/
theorem contents_pop (hsome : 0 < backlog m first next) :
    contents size m slots first next =
      slots (first % size) :: contents size m slots ((first + 1) % m) next := by
  rw [contents, ← backlog_succ_first hfirst hnext hsome, window_pop, contents, window_mod hsize]

end Counters

end MegKer.Foundation
