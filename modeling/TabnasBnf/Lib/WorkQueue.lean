import Mathlib.Logic.Hydra

/-!
# Work queues whose items leave smaller ones

A queue is taken from its front, and what an item leaves goes to the back. When that is smaller in
a well-founded order the queue empties, however many items there are of it.

* **`induction`**: the induction rule for such a queue, with whatever else its loop carries.
-/

namespace WorkQueue

open Relation

variable {α σ : Type*} {r : α → α → Prop}

/-- The front of a queue replaced by smaller items at its back. -/
theorem cutExpand_step {a : α} {queue new : List α} (h : ∀ b ∈ new, r b a) :
    CutExpand r (↑(queue ++ new) : Multiset α) (↑(a :: queue) : Multiset α) := by
  refine ⟨new, a, fun b hb => h b (by simpa using hb), ?_⟩
  rw [← Multiset.coe_add, ← Multiset.cons_coe, ← Multiset.singleton_add]
  exact add_comm _ _ |>.trans (add_assoc _ _ _).symm

/-- **Induction along a queue**: a step takes the front and leaves smaller items at the back. -/
theorem induction (hr : WellFounded r) {P : List α → σ → Prop} (nil : ∀ s, P [] s)
    (cons : ∀ a queue s, (∀ new s', (∀ b ∈ new, r b a) → P (queue ++ new) s') → P (a :: queue) s)
    (queue : List α) (s : σ) : P queue s := by
  induction hq : (queue : Multiset α) using hr.cutExpand.induction generalizing queue s with
  | h m ih =>
    subst hq
    cases queue with
    | nil => exact nil s
    | cons a queue =>
      exact cons a queue s fun new s' hnew => ih _ (cutExpand_step hnew) _ _ rfl

end WorkQueue
