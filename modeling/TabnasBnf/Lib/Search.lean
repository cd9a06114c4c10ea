import TabnasBnf.Lib.Loop
import Mathlib.Logic.Relation
import Mathlib.Algebra.Order.BigOperators.Group.List
import Mathlib.Algebra.Order.Group.Nat
import Mathlib.Algebra.GroupWithZero.Nat

/-!
# Depth-first search for a vertex

`search` follows the edges of a graph from one vertex, over a stack of its own, until it meets a
vertex that is looked for (`stop`). A vertex without an entry (`succ v = none`) is passed over.

* `Inv` is what holds between two steps; `Inv.next` keeps it.
* **`search_none`**: a search that finds nothing has passed every vertex that can be reached.
-/

namespace Search

open Relation

variable {V : Type*} [DecidableEq V] (succ : V → Option (List V)) (stop : V → Bool)

/-- The search: the vertices entered, those to be visited, and the one found. -/
structure State (V : Type*) where
  seen : List V
  stack : List V
  found : Option V

/-- One vertex is taken off the stack. -/
def next (s : State V) : Option (State V) :=
  match s.found, s.stack with
  | some _, _ | none, [] => none
  | none, v :: rest =>
    if v ∈ s.seen then some { s with stack := rest }
    else match succ v with
      | none => some { s with stack := rest }
      | some vs =>
        if stop v then some { s with seen := v :: s.seen, found := some v }
        else some ⟨v :: s.seen, vs ++ rest, none⟩

/-- What is still to be paid for the vertices that were not entered. -/
def cost (known seen : List V) : Nat :=
  ((known.filter (· ∉ seen)).map fun v => 1 + ((succ v).getD []).length).sum

/-- The search from `v`, where `known` are the vertices with an entry. -/
def search (known : List V) (v : V) : Option V :=
  (Loop.run (next succ stop) (cost succ known [] + 2) ⟨[], [v], none⟩).found

/-- One vertex can be reached from another. -/
def Reaches : V → V → Prop := ReflTransGen fun v w => ∃ vs, succ v = some vs ∧ w ∈ vs

/-- What holds between two steps: the vertices entered are not looked for, and what can be reached
from the start is on its way. -/
structure Inv (start : V) (s : State V) : Prop where
  passed : s.found = none → ∀ v ∈ s.seen, stop v = false
  start : start ∈ s.seen ∨ start ∈ s.stack ∨ succ start = none
  closed : s.found = none → ∀ v ∈ s.seen, ∀ vs, succ v = some vs →
    ∀ w ∈ vs, w ∈ s.seen ∨ w ∈ s.stack ∨ succ w = none

variable {succ stop}

omit [DecidableEq V] in
/-- Leaving out the top of the stack. -/
theorem Inv.skip {start v : V} {rest : List V} {s : State V} (h : Inv succ stop start s)
    (hstack : s.stack = v :: rest) (hv : v ∈ s.seen ∨ succ v = none) :
    Inv succ stop start { s with stack := rest } := by
  have hmove : ∀ w, w ∈ s.seen ∨ w ∈ s.stack ∨ succ w = none →
      w ∈ s.seen ∨ w ∈ rest ∨ succ w = none := by
    rintro w (hw | hw | hw)
    · exact .inl hw
    · rw [hstack] at hw
      obtain rfl | hw := List.mem_cons.mp hw
      · exact hv.imp_right .inr
      · exact .inr (.inl hw)
    · exact .inr (.inr hw)
  exact ⟨h.passed, hmove _ h.start, fun hf v hv vs hvs w hw => hmove w (h.closed hf v hv vs hvs w hw)⟩

theorem Inv.next {start : V} {s s' : State V} (hs : Search.next succ stop s = some s')
    (h : Inv succ stop start s) : Inv succ stop start s' := by
  obtain ⟨seen, stack, found⟩ := s
  match found, stack with
  | some _, _ => cases hs
  | none, [] => cases hs
  | none, v :: rest =>
    simp only [Search.next] at hs
    split at hs
    next hseen =>
      obtain rfl := Option.some.inj hs
      exact h.skip rfl (.inl hseen)
    next hseen =>
      split at hs
      next hnone =>
        obtain rfl := Option.some.inj hs
        exact h.skip rfl (.inr hnone)
      next vs hvs =>
        split at hs
        next hstop =>
          obtain rfl := Option.some.inj hs
          refine ⟨fun hf => absurd hf (by simp), ?_, fun hf => absurd hf (by simp)⟩
          exact h.start.imp_left (List.mem_cons_of_mem _)
        next hstop =>
          obtain rfl := Option.some.inj hs
          have hmove : ∀ w, w ∈ seen ∨ w ∈ v :: rest ∨ succ w = none →
              w ∈ v :: seen ∨ w ∈ vs ++ rest ∨ succ w = none := by
            rintro w (hw | hw | hw)
            · exact .inl (List.mem_cons_of_mem _ hw)
            · obtain rfl | hw := List.mem_cons.mp hw
              · exact .inl List.mem_cons_self
              · exact .inr (.inl (List.mem_append_right _ hw))
            · exact .inr (.inr hw)
          constructor
          case passed =>
            intro _ w hw
            obtain rfl | hw := List.mem_cons.mp hw
            · simpa using hstop
            · exact h.passed rfl w hw
          case start => exact hmove _ h.start
          case closed =>
            intro _ x hx xs hxs w hw
            obtain rfl | hx := List.mem_cons.mp hx
            · obtain rfl := Option.some.inj (hvs.symm.trans hxs)
              exact .inr (.inl (List.mem_append_left _ hw))
            · exact hmove w (h.closed rfl x hx xs hxs w hw)

theorem cost_le (known seen : List V) (v : V) :
    cost succ known (v :: seen) ≤ cost succ known seen := by
  refine List.Sublist.sum_le_sum (List.Sublist.map _ ?_) fun _ _ => Nat.zero_le _
  refine List.monotone_filter_right _ fun x hx => ?_
  simp only [decide_eq_true_eq, List.mem_cons, not_or] at hx ⊢
  exact hx.2

/-- Entering a vertex pays for it. -/
theorem cost_cons {known seen : List V} {v : V} {vs : List V} (hknown : v ∈ known)
    (hseen : v ∉ seen) (hvs : succ v = some vs) :
    cost succ known (v :: seen) + (1 + vs.length) ≤ cost succ known seen := by
  unfold cost
  induction known with
  | nil => exact absurd hknown List.not_mem_nil
  | cons w known ih =>
    by_cases hvw : w = v
    · subst hvw
      rw [List.filter_cons_of_neg (by simp), List.filter_cons_of_pos (by simpa using hseen),
        List.map_cons, List.sum_cons, hvs, Option.getD_some]
      have := @cost_le _ _ succ known seen w
      unfold cost at this
      omega
    · have hknown : v ∈ known := (List.mem_cons.mp hknown).resolve_left fun h => hvw h.symm
      have ih := ih hknown
      by_cases hw : w ∈ seen
      · rw [List.filter_cons_of_neg (by simp [hw]), List.filter_cons_of_neg (by simpa using hw)]
        exact ih
      · rw [List.filter_cons_of_pos (by simp [hw, hvw]), List.filter_cons_of_pos (by simpa using hw),
          List.map_cons, List.map_cons, List.sum_cons, List.sum_cons]
        omega

/-- What is still to be done. -/
def todo (succ : V → Option (List V)) (known : List V) (s : State V) : Nat :=
  cost succ known s.seen + s.stack.length + if s.found.isSome then 0 else 1

theorem todo_next {known : List V} (hknown : ∀ v, succ v ≠ none → v ∈ known) {s s' : State V}
    (hs : next succ stop s = some s') : todo succ known s' < todo succ known s := by
  obtain ⟨seen, stack, found⟩ := s
  match found, stack with
  | some _, _ => cases hs
  | none, [] => cases hs
  | none, v :: rest =>
    simp only [next] at hs
    split at hs
    next => obtain rfl := Option.some.inj hs; simp [todo]
    next hseen =>
      split at hs
      next => obtain rfl := Option.some.inj hs; simp [todo]
      next vs hvs =>
        have hpaid := cost_cons (hknown v (by simp [hvs])) hseen hvs
        split at hs
        next =>
          obtain rfl := Option.some.inj hs
          simp only [todo, Option.isSome_some, Option.isSome_none, if_true, Bool.false_eq_true,
            if_false, List.length_cons]
          omega
        next =>
          obtain rfl := Option.some.inj hs
          simp only [todo, Option.isSome_none, Bool.false_eq_true, if_false, List.length_cons,
            List.length_append]
          omega

/-- **A search that finds nothing has passed every vertex that can be reached.** -/
theorem search_none {known : List V} (hknown : ∀ v, succ v ≠ none → v ∈ known) {v : V}
    (h : search succ stop known v = none) {w : V} (hw : Reaches succ v w) (hentry : succ w ≠ none) :
    stop w = false := by
  have hinv := Loop.run_invariant (P := Inv succ stop v) (fun s s' => Inv.next)
    (cost succ known [] + 2) ⟨[], [v], none⟩
    ⟨fun _ x hx => absurd hx List.not_mem_nil, .inr (.inl List.mem_cons_self),
      fun _ x hx => absurd hx List.not_mem_nil⟩
  have hdone := Loop.run_done (f := next succ stop) (fun s s' => todo_next hknown)
    (cost succ known [] + 2) ⟨[], [v], none⟩ (by simp [todo])
  rw [search] at h
  generalize Loop.run (next succ stop) (cost succ known [] + 2) ⟨[], [v], none⟩ = s at h hinv hdone
  -- nothing is left on the stack
  have hstack : s.stack = [] := by
    obtain ⟨seen, stack, found⟩ := s
    obtain rfl : found = none := h
    match stack with
    | [] => rfl
    | x :: rest =>
      simp only [next] at hdone
      split at hdone
      next => cases hdone
      next =>
        split at hdone
        next => cases hdone
        next => split at hdone <;> cases hdone
  have hreached : w ∈ s.seen ∨ succ w = none := by
    clear hentry
    induction hw with
    | refl => simpa [hstack] using hinv.start
    | tail _ hstep ih =>
      obtain ⟨vs, hvs, hmem⟩ := hstep
      obtain hseen | hnone := ih
      · simpa [hstack] using hinv.closed h _ hseen vs hvs _ hmem
      · rw [hnone] at hvs
        cases hvs
  exact hinv.passed h w (hreached.resolve_right hentry)

end Search
