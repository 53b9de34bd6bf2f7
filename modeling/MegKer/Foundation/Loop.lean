import Mathlib.Data.Nat.Notation
import Mathlib.Data.Option.Basic

/-!
# Loops that need not end

A loop is given by its condition and its body. It is run with some fuel, which bounds the number of its
rounds; the body gets the fuel that is left, so that it may contain loops itself. A run that is cut off
has no result.

More fuel does not change a result (`loop_mono`), so a loop has at most one (`Returns.unique`). There is
one rule for each side of the question whether it has one: an invariant with a measure that every round
lowers gives a result (`exists_returns`), and an invariant under which the condition never fails gives
none (`loop_eq_none`). `returns_cons` takes a round off a loop.

A loop that counts needs no fuel; `foldlM_range'` is the rule for one whose rounds may fail.
-/

set_option autoImplicit false
set_option relaxedAutoImplicit false

namespace MegKer.Foundation

variable {σ : Type}

/-- A loop with a condition and a body, run with some fuel. -/
def loop (running : σ → Bool) (body : σ → ℕ → Option σ) : σ → (fuel : ℕ) → Option σ
  | _, 0 => none
  | s, fuel + 1 =>
    if running s then (body s fuel).bind fun next ↦ loop running body next fuel else some s

/-- A computation that is run with some fuel has a result. -/
def Returns (run : ℕ → Option σ) (result : σ) : Prop := ∃ fuel, run fuel = some result

/-- With more fuel, a result stays the same. -/
def FuelMono (run : ℕ → Option σ) : Prop :=
  ∀ ⦃fuel more : ℕ⦄ ⦃result : σ⦄, run fuel = some result → fuel ≤ more → run more = some result

/-- What needs no fuel. -/
theorem fuelMono_const (result : Option σ) : FuelMono fun _ ↦ result := fun _ _ _ hresult _ ↦ hresult

theorem FuelMono.map {τ : Type} {run : ℕ → Option σ} (h : FuelMono run) (f : σ → τ) :
    FuelMono fun fuel ↦ (run fuel).map f := by
  intro fuel more result hrun hle
  obtain ⟨s, hs, hresult⟩ := Option.map_eq_some_iff.mp hrun
  exact Option.map_eq_some_iff.mpr ⟨s, h hs hle, hresult⟩

theorem FuelMono.ite {condition : Prop} [Decidable condition] {run run' : ℕ → Option σ}
    (h : FuelMono run) (h' : FuelMono run') :
    FuelMono fun fuel ↦ if condition then run fuel else run' fuel := by
  by_cases hcondition : condition
  · simpa only [if_pos hcondition] using h
  · simpa only [if_neg hcondition] using h'

theorem Returns.unique {run : ℕ → Option σ} (hmono : FuelMono run) {first second : σ}
    (hfirst : Returns run first) (hsecond : Returns run second) : first = second := by
  obtain ⟨fuel, hfirst⟩ := hfirst
  obtain ⟨fuel', hsecond⟩ := hsecond
  have hfirst := hmono hfirst (Nat.le_max_left fuel fuel')
  have hsecond := hmono hsecond (Nat.le_max_right fuel fuel')
  exact Option.some.inj (hfirst.symm.trans hsecond)

section Rules

variable {running : σ → Bool} {body : σ → ℕ → Option σ}

theorem loop_mono (hbody : ∀ s, FuelMono (body s)) (s : σ) :
    FuelMono (loop running body s) := by
  intro fuel more result hrun hle
  induction fuel generalizing s more with
  | zero => exact absurd hrun (by simp [loop])
  | succ fuel ih =>
    obtain ⟨more, rfl⟩ := Nat.exists_eq_add_of_le' (Nat.one_le_of_lt (Nat.lt_of_succ_le hle))
    simp only [loop] at hrun ⊢
    split at hrun
    · rename_i hrunning
      obtain ⟨next, hround, hrest⟩ := Option.bind_eq_some_iff.mp hrun
      rw [if_pos hrunning, hbody s hround (Nat.le_of_succ_le_succ hle)]
      exact ih next hrest (Nat.le_of_succ_le_succ hle)
    · rename_i hstopped
      rwa [if_neg hstopped]

/-- A loop whose condition fails is left at once. -/
theorem returns_of_stopped {s : σ} (hstopped : running s = false) :
    Returns (loop running body s) s :=
  ⟨1, by simp [loop, hstopped]⟩

/-- A round, and then the loop again. -/
theorem returns_cons (hbody : ∀ s, FuelMono (body s)) {s next result : σ}
    (hrunning : running s = true) (hround : Returns (body s) next)
    (hrest : Returns (loop running body next) result) :
    Returns (loop running body s) result := by
  obtain ⟨fuel, hround⟩ := hround
  obtain ⟨fuel', hrest⟩ := hrest
  refine ⟨max fuel fuel' + 1, ?_⟩
  simp only [loop]
  rw [if_pos hrunning, hbody s hround (Nat.le_max_left fuel fuel')]
  exact loop_mono hbody next hrest (Nat.le_max_right fuel fuel')

/-- A loop whose rounds have results, keep an invariant and lower a measure has a result, which meets the
invariant. -/
theorem exists_returns (hbody : ∀ s, FuelMono (body s)) {invariant : σ → Prop}
    (measure : σ → ℕ)
    (hround : ∀ s, invariant s → running s = true →
      ∃ next, Returns (body s) next ∧ invariant next ∧ measure next < measure s)
    {s : σ} (hs : invariant s) :
    ∃ result, Returns (loop running body s) result ∧ invariant result := by
  induction hmeasure : measure s using Nat.strongRecOn generalizing s with
  | ind n ih =>
    cases hrunning : running s with
    | false => exact ⟨s, returns_of_stopped hrunning, hs⟩
    | true =>
      obtain ⟨next, hnext, hkept, hless⟩ := hround s hs hrunning
      obtain ⟨result, hresult, hlast⟩ := ih (measure next) (hmeasure ▸ hless) hkept rfl
      exact ⟨result, returns_cons hbody hrunning hnext hresult, hlast⟩

/-- A result is a state in which the loop is left. -/
theorem Returns.stopped {s result : σ} (h : Returns (loop running body s) result) :
    running result = false := by
  obtain ⟨fuel, hrun⟩ := h
  induction fuel generalizing s with
  | zero => cases hrun
  | succ fuel ih =>
    rw [loop] at hrun
    split at hrun
    · obtain ⟨next, -, hrest⟩ := Option.bind_eq_some_iff.mp hrun
      exact ih hrest
    next hstopped =>
      rw [← Option.some.inj hrun]
      exact Bool.eq_false_iff.mpr hstopped

/-- A loop whose rounds keep an invariant under which its condition holds has no result. -/
theorem loop_eq_none {invariant : σ → Prop} (hrunning : ∀ s, invariant s → running s = true)
    (hround : ∀ fuel s next, invariant s → body s fuel = some next → invariant next) {s : σ}
    (hs : invariant s) (fuel : ℕ) : loop running body s fuel = none := by
  induction fuel generalizing s with
  | zero => rfl
  | succ fuel ih =>
    rw [loop, if_pos (hrunning s hs), Option.bind_eq_none_iff]
    intro next hnext
    exact ih (hround fuel s next hs hnext)

end Rules

/-! ### Counting loops -/

/-- A loop over the numbers from `first` on, whose rounds may fail: when each round has a result and takes
the invariant on to the next number, so does the loop. -/
theorem foldlM_range' {first count : ℕ} {body : σ → ℕ → Option σ} (invariant : ℕ → σ → Prop)
    (hround : ∀ i s, first ≤ i → i < first + count → invariant i s →
      ∃ next, body s i = some next ∧ invariant (i + 1) next)
    {s : σ} (hs : invariant first s) :
    ∃ result, (List.range' first count).foldlM body s = some result ∧
      invariant (first + count) result := by
  induction count generalizing first s with
  | zero => exact ⟨s, rfl, hs⟩
  | succ count ih =>
    obtain ⟨next, hnext, hkept⟩ := hround first s (Nat.le_refl first) (by omega) hs
    obtain ⟨result, hresult, hlast⟩ := ih (fun i s hi hlt ↦ hround i s (by omega) (by omega)) hkept
    refine ⟨result, ?_, ?_⟩
    · rw [List.range'_succ, List.foldlM_cons, hnext]
      exact hresult
    · rwa [Nat.add_right_comm] at hlast

end MegKer.Foundation
