/-!
# Runs in lockstep

Two computations that may fail, one of which carries more than the other. They run in lockstep if
they fail together, with one error, or both return, related results.
-/

namespace Lockstep

variable {ε α β γ δ : Type}

/-- The results are related, or the errors are one. -/
inductive Runs (R : α → β → Prop) : Except ε α → Except ε β → Prop
  | ok {a : α} {b : β} : R a b → Runs R (.ok a) (.ok b)
  | error (e : ε) : Runs R (.error e) (.error e)

variable {R : α → β → Prop} {S : γ → δ → Prop}

theorem Runs.bind {x : Except ε α} {y : Except ε β} {f : α → Except ε γ} {g : β → Except ε δ}
    (h : Runs R x y) (hf : ∀ {a b}, R a b → Runs S (f a) (g b)) : Runs S (x >>= f) (y >>= g) := by
  cases h with
  | ok hab => exact hf hab
  | error e => exact .error e

/-- A step that only one of them makes. -/
theorem Runs.bind_left {S : γ → β → Prop} {x : Except ε α} {y : Except ε β} {f : α → Except ε γ}
    (h : Runs R x y) (hf : ∀ {a b}, R a b → Runs S (f a) (.ok b)) : Runs S (x >>= f) y := by
  cases h with
  | ok hab => exact hf hab
  | error e => exact .error e

/-- A step that both make. -/
theorem Runs.step (x : Except ε α) {f : α → Except ε γ} {g : α → Except ε δ}
    (h : ∀ a, Runs S (f a) (g a)) : Runs S (x >>= f) (x >>= g) := by
  cases x with
  | error e => exact .error e
  | ok a => exact h a

theorem Runs.of_ok {x : Except ε α} {y : Except ε β} (h : Runs R x y) {a : α} (hx : x = .ok a) :
    ∃ b, y = .ok b ∧ R a b := by
  cases h with
  | ok hab =>
    cases hx
    exact ⟨_, rfl, hab⟩
  | error e => cases hx

end Lockstep
