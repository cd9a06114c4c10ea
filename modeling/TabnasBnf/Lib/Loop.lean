import Mathlib.Logic.Relation
import Mathlib.Order.Basic

/-!
# Loops with a worklist

`run f fuel s` repeats `f` until it has nothing more to do (`none`) or the fuel is spent:
the code's `while let Some(x) = work.pop() { … }` over a state that holds the work.

* `run_invariant`: what every step preserves, the run preserves.
* `run_done`: a run whose fuel is at least a measure that every step lowers ends; under an
  invariant, `run_done_of_invariant`.
* `run_of_steps`: the end that steps lead to is where the run stays.
-/

namespace Loop

variable {σ : Type*} (f : σ → Option σ)

/-- Repeat `f` until it is done. -/
def run : Nat → σ → σ
  | 0, s => s
  | fuel + 1, s =>
    match f s with
    | some s' => run fuel s'
    | none => s

variable {f}

theorem run_invariant {P : σ → Prop} (hP : ∀ s s', f s = some s' → P s → P s') :
    ∀ (fuel : Nat) (s : σ), P s → P (run f fuel s)
  | 0, _, h => h
  | fuel + 1, s, h => by
    unfold run
    cases hs : f s with
    | none => exact h
    | some s' => exact run_invariant hP fuel s' (hP s s' hs h)

/-- With an invariant, a measure the steps lower where it holds is enough. -/
theorem run_done_of_invariant {P : σ → Prop} {μ : σ → Nat}
    (hP : ∀ s s', f s = some s' → P s → P s') (hμ : ∀ s s', f s = some s' → P s → μ s' < μ s) :
    ∀ (fuel : Nat) (s : σ), P s → μ s ≤ fuel → f (run f fuel s) = none
  | 0, s, hs, h => by
    unfold run
    cases hf : f s with
    | none => rfl
    | some s' => exact absurd (hμ s s' hf hs) (by omega)
  | fuel + 1, s, hs, h => by
    unfold run
    cases hf : f s with
    | none => exact hf
    | some s' =>
      have hlt := hμ s s' hf hs
      exact run_done_of_invariant hP hμ fuel s' (hP s s' hf hs) (by omega)

theorem run_done {μ : σ → Nat} (hμ : ∀ s s', f s = some s' → μ s' < μ s) (fuel : Nat) (s : σ)
    (h : μ s ≤ fuel) : f (run f fuel s) = none :=
  run_done_of_invariant (P := fun _ => True) (fun _ _ _ _ => trivial) (fun s s' h _ => hμ s s' h)
    fuel s trivial h

theorem run_of_done {s : σ} (h : f s = none) : ∀ fuel, run f fuel s = s
  | 0 => rfl
  | fuel + 1 => by rw [run, h]

/-- Steps that lead to an end are a run. -/
theorem run_of_steps {s t : σ} (h : Relation.ReflTransGen (fun s s' => f s = some s') s t)
    (ht : f t = none) : ∃ steps, ∀ fuel ≥ steps, run f fuel s = t := by
  induction h using Relation.ReflTransGen.head_induction_on with
  | refl => exact ⟨0, fun fuel _ => run_of_done ht fuel⟩
  | head hstep _ ih =>
    obtain ⟨steps, hsteps⟩ := ih
    refine ⟨steps + 1, fun fuel hfuel => ?_⟩
    obtain ⟨fuel, rfl⟩ : ∃ k, fuel = k + 1 := ⟨fuel - 1, by omega⟩
    rw [run, hstep]
    exact hsteps fuel (by omega)

end Loop
