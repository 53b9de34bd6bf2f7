import Mathlib.Computability.StateTransition

/-!
# Programs in memory

A machine executes a list of instructions. Its state has a part of type `C`, which the instructions work
on, and the number of the next instruction. An instruction says where it goes on; it has no result where
the machine is stuck. `stepAt` is one step, and its runs are those of `StateTransition`.

The rules cut a run into pieces: a block of instructions that go on to the next one (`reaches_block`), a
loop that is left after some rounds (`reaches_rounds`), and an invariant over all that is reached
(`invariant_of_reaches`). The machine is deterministic, so two states in which it halts are the same
(`reaches_unique`).
-/

set_option autoImplicit false
set_option relaxedAutoImplicit false

namespace MegKer.Foundation

open StateTransition

section Runs

variable {σ : Type} {step : σ → Option σ}

theorem reaches_cons {s next s' : σ} (hstep : step s = some next) (hrest : Reaches step next s') :
    Reaches step s s' :=
  .head hstep hrest

/-- What holds at the start and is kept by every step holds wherever a run gets. -/
theorem invariant_of_reaches {invariant : σ → Prop}
    (hkept : ∀ s s', invariant s → step s = some s' → invariant s') {s s' : σ} (h : invariant s)
    (hreaches : Reaches step s s') : invariant s' := by
  induction hreaches with
  | refl => exact h
  | tail _ hstep ih => exact hkept _ _ ih hstep

/-- A loop whose rounds count down is left. -/
theorem reaches_rounds {invariant : ℕ → σ → Prop}
    (hround : ∀ n s, invariant (n + 1) s → ∃ s', Reaches step s s' ∧ invariant n s') {n : ℕ} {s : σ}
    (h : invariant n s) : ∃ s', Reaches step s s' ∧ invariant 0 s' := by
  induction n generalizing s with
  | zero => exact ⟨s, .refl, h⟩
  | succ n ih =>
    obtain ⟨next, hnext, hinvariant⟩ := hround n s h
    obtain ⟨s', hs', hlast⟩ := ih hinvariant
    exact ⟨s', hnext.trans hs', hlast⟩

/-- A machine halts in one state at most. -/
theorem reaches_unique {s first second : σ} (hfirst : Reaches step s first)
    (hsecond : Reaches step s second) (hhalt : step first = none) (hhalt' : step second = none) :
    first = second :=
  Part.mem_unique (mem_eval.mpr ⟨hfirst, hhalt⟩) (mem_eval.mpr ⟨hsecond, hhalt'⟩)

end Runs

section Code

variable {C I : Type} (code : List I) (exec : I → ℕ → C → Option (C × ℕ))

/-- One step: the next instruction is fetched and executed. Outside of the code there is none. -/
def stepAt (s : C × ℕ) : Option (C × ℕ) := code[s.2]?.bind fun instr ↦ exec instr s.2 s.1

variable {code exec}

theorem stepAt_eq {instr : I} {c : C} {i : ℕ} (hinstr : code[i]? = some instr) :
    stepAt code exec (c, i) = exec instr i c := by
  rw [stepAt, hinstr, Option.bind_some]

/-- One instruction, and then the rest. -/
theorem reaches_instr {instr : I} {c : C} {i : ℕ} {next s : C × ℕ} (hinstr : code[i]? = some instr)
    (hexec : exec instr i c = some next) (hrest : Reaches (stepAt code exec) next s) :
    Reaches (stepAt code exec) (c, i) s :=
  reaches_cons ((stepAt_eq hinstr).trans hexec) hrest

/-- A block of instructions that all go on to the next one, where a condition holds that they keep. -/
theorem reaches_block {effect : I → C → C} {condition : C → Prop} (block : List I)
    (hblock : ∀ instr ∈ block, ∀ i c, condition c →
      exec instr i c = some (effect instr c, i + 1) ∧ condition (effect instr c)) :
    ∀ {i : ℕ} {c : C}, block <+: code.drop i → condition c →
      Reaches (stepAt code exec) (c, i) (block.foldl (fun c instr ↦ effect instr c) c, i + block.length) ∧
        condition (block.foldl (fun c instr ↦ effect instr c) c) := by
  induction block with
  | nil => exact fun _ h ↦ ⟨.refl, h⟩
  | cons instr block ih =>
    intro i c hprefix h
    obtain ⟨rest, hrest⟩ := hprefix
    have hinstr : code[i]? = some instr := by
      have hhead := congrArg (fun l ↦ l[0]?) hrest
      simpa using hhead.symm
    have htail : block <+: code.drop (i + 1) := by
      refine ⟨rest, ?_⟩
      have hdrop := congrArg List.tail hrest
      rwa [List.cons_append, List.tail_cons, List.tail_drop] at hdrop
    obtain ⟨hexec, hkept⟩ := hblock instr List.mem_cons_self i c h
    obtain ⟨hreaches, hlast⟩ := ih (fun other hother ↦ hblock other (List.mem_cons_of_mem _ hother))
      htail hkept
    refine ⟨reaches_instr hinstr hexec ?_, hlast⟩
    rwa [List.length_cons, Nat.add_comm block.length 1, ← Nat.add_assoc]

end Code

end MegKer.Foundation
