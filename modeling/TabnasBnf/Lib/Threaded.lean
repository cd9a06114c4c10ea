import Mathlib.Data.List.Basic

/-!
# Loops that thread a state and keep a log

A loop takes its items in order, threads a state through them and returns what it made of each. On
the way the state keeps a log that only grows: what an item adds to it was added while the loop was
at that item.

* `visits_of_mem`, `visits_of_mem_log`: what a run returns and what it logs come of an item.
* **`makes_of_mem`**: with a log of results, both were made of an item the run visits.
* **`Makes.related`**: what one step guarantees of them holds of all that is made.
-/

namespace Threaded

variable {α β σ γ ε : Type*}

/-- A loop over items that threads a state. -/
def run (step : α → σ → Except ε (β × σ)) : List α → σ → Except ε (List β × σ)
  | [], s => .ok ([], s)
  | a :: rest, s => do
    let (b, s) ← step a s
    let (bs, s) ← run step rest s
    return (b :: bs, s)

/-- The loop over some items, started in a state, comes to the item `a` in the state `s` and makes
`b` of it, which leaves `s'`. -/
inductive Visits (step : α → σ → Except ε (β × σ)) : List α → σ → α → σ → β → σ → Prop
  | head {a : α} {rest : List α} {s s' : σ} {b : β} (h : step a s = .ok (b, s')) :
    Visits step (a :: rest) s a s b s'
  | tail {a₀ a : α} {rest : List α} {s₀ s₁ s s' : σ} {b₀ b : β} (h : step a₀ s₀ = .ok (b₀, s₁))
    (later : Visits step rest s₁ a s b s') : Visits step (a₀ :: rest) s₀ a s b s'

variable {step : α → σ → Except ε (β × σ)}

/-- What is visited is an item, and its step succeeds. -/
theorem Visits.step_eq {items : List α} {s₀ s s' : σ} {a : α} {b : β}
    (h : Visits step items s₀ a s b s') : a ∈ items ∧ step a s = .ok (b, s') := by
  induction h with
  | head h => exact ⟨List.mem_cons_self, h⟩
  | tail _ _ ih => exact ⟨List.mem_cons_of_mem _ ih.1, ih.2⟩

/-- A run takes its first item, and then runs over the others. -/
theorem run_cons {a : α} {rest : List α} {s s' : σ} {bs : List β}
    (h : run step (a :: rest) s = .ok (bs, s')) : ∃ b s₁ bs', step a s = .ok (b, s₁) ∧
      run step rest s₁ = .ok (bs', s') ∧ bs = b :: bs' := by
  unfold run at h
  cases hstep : step a s with
  | error e =>
    rw [hstep] at h
    cases h
  | ok r =>
    rw [hstep] at h
    change (run step rest r.2 >>= fun r' => pure (r.1 :: r'.1, r'.2)) = _ at h
    cases hrest : run step rest r.2 with
    | error e =>
      rw [hrest] at h
      cases h
    | ok r' =>
      rw [hrest] at h
      cases h
      exact ⟨r.1, r.2, r'.1, rfl, hrest, rfl⟩

/-- **What a run returns** was made of an item. -/
theorem visits_of_mem : ∀ {items : List α} {s s' : σ} {bs : List β},
    run step items s = .ok (bs, s') → ∀ b ∈ bs, ∃ a s₁ s₂, Visits step items s a s₁ b s₂
  | [], _, _, _, h, b, hb => by
    cases h
    cases hb
  | a :: rest, s, _, _, h, b, hb => by
    obtain ⟨b₀, s₁, bs, hstep, hrest, rfl⟩ := run_cons h
    rcases List.mem_cons.mp hb with rfl | hb
    · exact ⟨a, s, s₁, .head hstep⟩
    · obtain ⟨a', t, t', hvisit⟩ := visits_of_mem hrest b hb
      exact ⟨a', t, t', .tail hstep hvisit⟩

/-- **What a run logs** was there before it, or was logged at an item. -/
theorem visits_of_mem_log {log : σ → List γ}
    (grows : ∀ {a s b s'}, step a s = .ok (b, s') → ∃ new, log s' = log s ++ new) :
    ∀ {items : List α} {s s' : σ} {bs : List β}, run step items s = .ok (bs, s') →
      ∀ x ∈ log s', x ∈ log s ∨
        ∃ a s₁ b s₂, Visits step items s a s₁ b s₂ ∧ x ∈ (log s₂).drop (log s₁).length
  | [], _, _, _, h, x, hx => by
    cases h
    exact .inl hx
  | a :: rest, s, _, _, h, x, hx => by
    obtain ⟨b₀, s₁, bs, hstep, hrest, rfl⟩ := run_cons h
    rcases visits_of_mem_log grows hrest x hx with hx | ⟨a', t, b, t', hvisit, hx⟩
    · obtain ⟨new, hnew⟩ := grows hstep
      rw [hnew, List.mem_append] at hx
      refine hx.imp_right fun hx => ⟨a, s, b₀, s₁, .head hstep, ?_⟩
      rwa [hnew, List.drop_left]
    · exact .inr ⟨a', t, b, t', .tail hstep hvisit, hx⟩

/-! ## A log of results -/

/-- The loop makes `b` of the item `a`: it returns it for the item, or logs it there. -/
def Makes (step : α → σ → Except ε (β × σ)) (log : σ → List β) (items : List α) (s₀ : σ) (a : α)
    (b : β) : Prop :=
  ∃ s out s', Visits step items s₀ a s out s' ∧ (b = out ∨ b ∈ (log s').drop (log s).length)

section

variable {log : σ → List β}

/-- **All that a run returns or logs** it makes of an item. -/
theorem makes_of_mem
    (grows : ∀ {a s b s'}, step a s = .ok (b, s') → ∃ new, log s' = log s ++ new)
    {items : List α} {s s' : σ} {bs : List β} (h : run step items s = .ok (bs, s'))
    (hlog : log s = []) : ∀ b ∈ bs ++ log s', ∃ a ∈ items, Makes step log items s a b := by
  intro b hb
  rcases List.mem_append.mp hb with hb | hb
  · obtain ⟨a, s₁, s₂, hvisit⟩ := visits_of_mem h b hb
    exact ⟨a, hvisit.step_eq.1, s₁, b, s₂, hvisit, .inl rfl⟩
  · rcases visits_of_mem_log grows h b hb with hb | ⟨a, s₁, out, s₂, hvisit, hb⟩
    · rw [hlog] at hb
      cases hb
    · exact ⟨a, hvisit.step_eq.1, s₁, out, s₂, hvisit, .inr hb⟩

/-- **What one step guarantees** of its result and of what it logs. -/
theorem Makes.related {R : α → β → Prop}
    (spec : ∀ {a s b s'}, step a s = .ok (b, s') →
      R a b ∧ ∃ new, log s' = log s ++ new ∧ ∀ b' ∈ new, R a b')
    {items : List α} {s₀ : σ} {a : α} {b : β} (h : Makes step log items s₀ a b) : R a b := by
  obtain ⟨s, out, s', hvisit, hb⟩ := h
  obtain ⟨hout, new, hlog, hnew⟩ := spec hvisit.step_eq.2
  rcases hb with rfl | hb
  · exact hout
  · rw [hlog, List.drop_left] at hb
    exact hnew b hb

end

end Threaded
