import Mathlib.Data.List.Nodup
import Mathlib.Data.List.Perm.Subperm
import TabnasBnf.Lib.Loop

/-!
# Saturation of a set of facts

A set of facts grows by rules until no rule adds one: the code's `while changed { changed = false;
for … { … insert … } }`. The facts stand in the order they were added.

* A rule reads the facts so far and answers with facts; a pass runs every rule once, each over
  what the rules before it added.
* `closed`: no rule adds a fact to the result, since the facts are bounded by a universe.
* `subset_of_closed`: the result is below every set closed under the rules.
-/

namespace Saturate

variable {F : Type*} [DecidableEq F]

/-- Insert a fact that is not there yet. -/
def insertNew (s : List F) (x : F) : List F := if s.contains x then s else s ++ [x]

/-- Insert facts in order. -/
def addAll (s xs : List F) : List F := xs.foldl insertNew s

/-- Every rule once, in order. -/
def pass (rules : List (List F → List F)) (s : List F) : List F :=
  rules.foldl (fun s r => addAll s (r s)) s

/-- Passes until one adds nothing. -/
def saturate (rules : List (List F → List F)) (bound : Nat) (s : List F) : List F :=
  Loop.run (fun s =>
    let s' := pass rules s
    if s'.length = s.length then none else some s') bound s

variable {s t xs : List F} {rules : List (List F → List F)}

theorem mem_insertNew {x y : F} : y ∈ insertNew s x ↔ y ∈ s ∨ y = x := by
  unfold insertNew
  split
  · next h =>
    refine ⟨.inl, fun hy => hy.elim id ?_⟩
    rintro rfl
    simpa using h
  · simp

theorem prefix_insertNew (x : F) : s <+: insertNew s x := by
  unfold insertNew
  split
  · exact List.prefix_rfl
  · exact List.prefix_append _ _

theorem nodup_insertNew (h : s.Nodup) (x : F) : (insertNew s x).Nodup := by
  unfold insertNew
  split
  · exact h
  · next hx =>
    refine List.nodup_append.mpr ⟨h, List.nodup_singleton x, fun a ha b hb => ?_⟩
    obtain rfl := List.mem_singleton.mp hb
    rintro rfl
    simp [ha] at hx

theorem mem_addAll {y : F} : y ∈ addAll s xs ↔ y ∈ s ∨ y ∈ xs := by
  induction xs generalizing s with
  | nil => simp [addAll]
  | cons x xs ih =>
    unfold addAll at ih ⊢
    rw [List.foldl_cons, ih, mem_insertNew, List.mem_cons, or_assoc]

theorem prefix_addAll : s <+: addAll s xs := by
  induction xs generalizing s with
  | nil => exact List.prefix_rfl
  | cons x xs ih => exact (prefix_insertNew x).trans ih

theorem nodup_addAll (h : s.Nodup) : (addAll s xs).Nodup := by
  induction xs generalizing s with
  | nil => exact h
  | cons x xs ih => exact ih (nodup_insertNew h x)

theorem prefix_pass : s <+: pass rules s := by
  induction rules generalizing s with
  | nil => exact List.prefix_rfl
  | cons r rules ih => exact prefix_addAll.trans ih

theorem nodup_pass (h : s.Nodup) : (pass rules s).Nodup := by
  induction rules generalizing s with
  | nil => exact h
  | cons r rules ih => exact ih (nodup_addAll h)

/-- What the rules keep inside, a pass keeps inside. -/
theorem pass_subset {C : F → Prop} (hC : ∀ r ∈ rules, ∀ s : List F, (∀ x ∈ s, C x) →
    ∀ x ∈ r s, C x) (hs : ∀ x ∈ s, C x) : ∀ x ∈ pass rules s, C x := by
  induction rules generalizing s with
  | nil => exact hs
  | cons r rules ih =>
    refine ih (fun r hr => hC r (List.mem_cons_of_mem _ hr)) fun x hx => ?_
    rcases mem_addAll.mp hx with hx | hx
    · exact hs x hx
    · exact hC r List.mem_cons_self s hs x hx

/-- A pass that adds nothing leaves every rule without a new fact. -/
theorem closed_of_pass (h : (pass rules s).length = s.length) :
    ∀ r ∈ rules, ∀ x ∈ r s, x ∈ s := by
  have heq : ∀ {rules : List (List F → List F)}, (pass rules s).length = s.length →
      pass rules s = s := fun h => (prefix_pass.eq_of_length h.symm).symm
  induction rules with
  | nil => simp
  | cons r rules ih =>
    have hfirst : addAll s (r s) = s := by
      have hle : s.length ≤ (addAll s (r s)).length := prefix_addAll.length_le
      have hge : (addAll s (r s)).length ≤ (pass (r :: rules) s).length :=
        (prefix_pass (s := addAll s (r s))).length_le
      exact (prefix_addAll.eq_of_length (by omega)).symm
    have hrest : pass rules s = s := by
      have hpass := heq h
      rw [pass, List.foldl_cons, hfirst] at hpass
      exact hpass
    intro r' hr' x hx
    rcases List.mem_cons.mp hr' with rfl | hr'
    · rw [← hfirst]
      exact mem_addAll.mpr (.inr hx)
    · exact ih (by rw [hrest]) r' hr' x hx

theorem addAll_eq_self : ∀ {xs : List F}, (∀ x ∈ xs, x ∈ s) → addAll s xs = s
  | [], _ => rfl
  | x :: xs, h => by
    obtain ⟨hx, hxs⟩ := List.forall_mem_cons.mp h
    have hnew : insertNew s x = s := by simp [insertNew, hx]
    unfold addAll at *
    rw [List.foldl_cons, hnew]
    exact addAll_eq_self hxs

/-- A pass over closed facts adds nothing: the loop has ended. -/
theorem pass_eq_of_closed (h : ∀ r ∈ rules, ∀ x ∈ r s, x ∈ s) : pass rules s = s := by
  induction rules with
  | nil => rfl
  | cons r rules ih =>
    obtain ⟨hr, hrules⟩ := List.forall_mem_cons.mp h
    rw [pass, List.foldl_cons, addAll_eq_self hr]
    exact ih hrules

/-- What holds of the first facts and what the rules keep holds of the result. -/
theorem subset_of_closed {C : F → Prop} (hC : ∀ r ∈ rules, ∀ s : List F, (∀ x ∈ s, C x) →
    ∀ x ∈ r s, C x) (bound : Nat) (hs : ∀ x ∈ s, C x) : ∀ x ∈ saturate rules bound s, C x := by
  refine Loop.run_invariant (P := fun s => ∀ x ∈ s, C x) (fun s s' hstep hs => ?_) bound s hs
  dsimp only at hstep
  split at hstep
  · cases hstep
  · obtain rfl := Option.some.inj hstep
    exact pass_subset hC hs

/-- The first facts stay. -/
theorem subset_saturate (bound : Nat) : ∀ x ∈ s, x ∈ saturate rules bound s := by
  refine Loop.run_invariant (P := fun t => ∀ x ∈ s, x ∈ t) (fun t t' hstep ht => ?_) bound s
    (fun x hx => hx)
  dsimp only at hstep
  split at hstep
  · cases hstep
  · obtain rfl := Option.some.inj hstep
    exact fun x hx => prefix_pass.subset (ht x hx)

/-- **The result is closed**: with a universe no larger than the bound, no rule adds a fact. -/
theorem closed {U : List F} (hU : ∀ r ∈ rules, ∀ s : List F, (∀ x ∈ s, x ∈ U) →
    ∀ x ∈ r s, x ∈ U) (hs : ∀ x ∈ s, x ∈ U) (hnd : s.Nodup) {bound : Nat} (hb : U.length ≤ bound) :
    ∀ r ∈ rules, ∀ x ∈ r (saturate rules bound s), x ∈ saturate rules bound s := by
  apply closed_of_pass
  have hdone := Loop.run_done_of_invariant (P := fun s => s.Nodup ∧ ∀ x ∈ s, x ∈ U)
    (μ := fun s => U.length - s.length) (f := fun s =>
      let s' := pass rules s
      if s'.length = s.length then none else some s') ?_ ?_ bound s ⟨hnd, hs⟩ (by omega)
  · by_contra hne
    dsimp only at hdone
    rw [saturate] at hne
    rw [if_neg hne] at hdone
    cases hdone
  · rintro s s' hstep ⟨hnd, hs⟩
    dsimp only at hstep
    split at hstep
    · cases hstep
    · obtain rfl := Option.some.inj hstep
      exact ⟨nodup_pass hnd, pass_subset hU hs⟩
  · rintro s s' hstep ⟨hnd, hs⟩
    dsimp only at hstep
    split at hstep
    · cases hstep
    · next hne =>
      obtain rfl := Option.some.inj hstep
      have hlt : s.length < (pass rules s).length :=
        Nat.lt_of_le_of_ne prefix_pass.length_le (Ne.symm hne)
      have hle := ((nodup_pass hnd).subperm (pass_subset hU hs)).length_le
      omega

end Saturate
