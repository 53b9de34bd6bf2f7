import Mathlib.Data.Option.Basic

/-!
# Transition systems

A system is given by a step function on states. An action is possible in a state when the step has a
result. The actions of a run are the choices that the system leaves open: what the parties do next, and
in which order.

`AlongRun` states a condition on each action of a run and on the state before it. The rule for
invariants (`invariant_runFrom`) is: what holds at the start and is kept by the steps that meet the
condition holds after every run that meets it.
-/

set_option autoImplicit false
set_option relaxedAutoImplicit false

namespace MegKer.Foundation

variable {σ α : Type} (step : σ → α → Option σ)

/-- The state after a list of actions, when each of them is possible. -/
def runFrom : σ → List α → Option σ
  | s, [] => some s
  | s, a :: as => (step s a).bind fun s' ↦ runFrom s' as

/-- Every action meets a condition on the state before it. -/
def AlongRun (condition : σ → α → Prop) : σ → List α → Prop
  | _, [] => True
  | s, a :: as => condition s a ∧ ∀ s' ∈ step s a, AlongRun condition s' as

instance decidableAlongRun (condition : σ → α → Prop) [∀ s a, Decidable (condition s a)] :
    (s : σ) → (as : List α) → Decidable (AlongRun step condition s as)
  | _, [] => isTrue trivial
  | s, a :: as =>
    have : ∀ s', Decidable (AlongRun step condition s' as) :=
      fun s' ↦ decidableAlongRun condition s' as
    inferInstanceAs (Decidable (condition s a ∧ ∀ s' ∈ step s a, AlongRun step condition s' as))

variable {step}

theorem runFrom_cons {s s' : σ} {a : α} {as : List α} (h : runFrom step s (a :: as) = some s') :
    ∃ next, step s a = some next ∧ runFrom step next as = some s' :=
  Option.bind_eq_some_iff.mp h

theorem runFrom_append {s s' : σ} {as more : List α} (h : runFrom step s as = some s') :
    runFrom step s (as ++ more) = runFrom step s' more := by
  induction as generalizing s with
  | nil =>
    obtain rfl := Option.some.inj h
    rfl
  | cons a as ih =>
    obtain ⟨next, hstep, hrun⟩ := runFrom_cons h
    rw [List.cons_append, runFrom, hstep]
    exact ih hrun

theorem AlongRun.left {condition : σ → α → Prop} {s : σ} {as more : List α}
    (h : AlongRun step condition s (as ++ more)) : AlongRun step condition s as := by
  induction as generalizing s with
  | nil => trivial
  | cons a as ih => exact ⟨h.1, fun s' hs' ↦ ih (h.2 s' hs')⟩

theorem AlongRun.of_append {condition : σ → α → Prop} {s s' : σ} {as more : List α}
    (h : AlongRun step condition s (as ++ more)) (hrun : runFrom step s as = some s') :
    AlongRun step condition s' more := by
  induction as generalizing s with
  | nil =>
    obtain rfl := Option.some.inj hrun
    exact h
  | cons a as ih =>
    obtain ⟨next, hstep, hrun⟩ := runFrom_cons hrun
    exact ih (h.2 next hstep) hrun

theorem AlongRun.append {condition : σ → α → Prop} {s s' : σ} {as more : List α}
    (h : AlongRun step condition s as) (hrun : runFrom step s as = some s')
    (hmore : AlongRun step condition s' more) : AlongRun step condition s (as ++ more) := by
  induction as generalizing s with
  | nil =>
    obtain rfl := Option.some.inj hrun
    exact hmore
  | cons a as ih =>
    obtain ⟨next, hstep, hrun⟩ := runFrom_cons hrun
    refine ⟨h.1, fun after hafter ↦ ?_⟩
    obtain rfl := Option.some.inj (hstep.symm.trans hafter)
    exact ih (h.2 next hstep) hrun

/-- The invariant rule. -/
theorem invariant_runFrom {condition : σ → α → Prop} {invariant : σ → Prop}
    (hkept : ∀ {s s' a}, invariant s → condition s a → step s a = some s' → invariant s')
    {s s' : σ} {as : List α} (h : invariant s) (has : AlongRun step condition s as)
    (hrun : runFrom step s as = some s') : invariant s' := by
  induction as generalizing s with
  | nil =>
    obtain rfl := Option.some.inj hrun
    exact h
  | cons a as ih =>
    obtain ⟨next, hstep, hrun⟩ := runFrom_cons hrun
    exact ih (hkept h has.1 hstep) (has.2 next hstep) hrun

/-- A condition on the actions alone. -/
theorem alongRun_of_forall {condition : α → Prop} {as : List α} (h : ∀ a ∈ as, condition a) (s : σ) :
    AlongRun step (fun _ a ↦ condition a) s as := by
  induction as generalizing s with
  | nil => trivial
  | cons a as ih =>
    exact ⟨h a List.mem_cons_self, fun s' _ ↦ ih (fun b hb ↦ h b (List.mem_cons_of_mem a hb)) s'⟩

/-- Without a condition, every run meets it. -/
theorem alongRun_true (s : σ) (as : List α) : AlongRun step (fun _ _ ↦ True) s as :=
  alongRun_of_forall (fun _ _ ↦ trivial) s

end MegKer.Foundation
