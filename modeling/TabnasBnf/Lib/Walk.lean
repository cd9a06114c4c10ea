import TabnasBnf.Lib.Loop
import Mathlib.Logic.Relation
import Mathlib.Algebra.Order.BigOperators.Group.List
import Mathlib.Algebra.Order.Group.Nat
import Mathlib.Algebra.GroupWithZero.Nat

/-!
# Walks over items that refer to entries

A walk takes items off a stack of its own, depth first. An item is what is looked for, holds other
items, or refers to an entry: by its key, whose items are walked the first time it is met.

* `Owed` says that an item is still to be walked or needs no walk any more; `owed_next` keeps it.
* **`answer_isSome_iff`**: a walk answers when an item that is looked for can be reached.
* **`mem_seen_iff`**: one that does not has entered the entries that can be reached, beside those
  it was started with; it leaves them settled for the next (`settled_walk`).
-/

namespace Walk

open Relation

variable {α K R : Type*}

/-- What a walk makes of an item. -/
inductive Move (α K R : Type*) where
  /-- It is what the walk looks for. -/
  | found (answer : R)
  /-- It holds other items. -/
  | into (items : List α)
  /-- It refers to an entry, whose items are walked once. -/
  | enter (key : K) (items : List α)

/-- The items an item leads to. -/
def Move.items : Move α K R → List α
  | .found _ => []
  | .into items | .enter _ items => items

/-- The entries entered, the items to be walked, and the answer. -/
structure State (α K R : Type*) where
  seen : List K
  stack : List α
  answer : Option R

section

variable [DecidableEq K] (move : α → Move α K R)

/-- One item is taken off the stack. -/
def next (s : State α K R) : Option (State α K R) :=
  match s.answer, s.stack with
  | some _, _ | none, [] => none
  | none, x :: rest =>
    match move x with
    | .found r => some ⟨s.seen, rest, some r⟩
    | .into items => some ⟨s.seen, items ++ rest, none⟩
    | .enter k items =>
      if k ∈ s.seen then some ⟨s.seen, rest, none⟩ else some ⟨s.seen ++ [k], items ++ rest, none⟩

variable (weight : α → Nat)

/-- What the items weigh together. -/
def load (items : List α) : Nat := (items.map weight).sum

/-- What the entries that were not entered weigh. -/
def cost (known : List (K × List α)) (seen : List K) : Nat :=
  ((known.filter (·.1 ∉ seen)).map fun e => load weight e.2).sum

/-- The walk from the items of a stack, where `known` are the entries. -/
def walk (known : List (K × List α)) (seen : List K) (stack : List α) : State α K R :=
  Loop.run (next move) (cost weight known seen + load weight stack + 1) ⟨seen, stack, none⟩

/-- The weights pay for what an item holds, and the entries are known by their keys. -/
structure Paid (known : List (K × List α)) : Prop where
  pos : ∀ x, 0 < weight x
  into : ∀ x items, move x = .into items → load weight items < weight x
  enter : ∀ x k items, move x = .enter k items → (k, items) ∈ known
  key : ∀ x y k items items', move x = .enter k items → move y = .enter k items' → items = items'

end

variable (move : α → Move α K R)

/-- An item leads to another. -/
def Passes (x y : α) : Prop := y ∈ (move x).items

/-- An item leads to another, over any number of items. -/
def Reaches : α → α → Prop := ReflTransGen (Passes move)

/-- The item is on the stack, holds items that are owed, or refers to an entry that was entered. -/
inductive Owed (seen : List K) (stack : List α) : α → Prop
  | stack {x} : x ∈ stack → Owed seen stack x
  | into {x items} : move x = .into items → (∀ y ∈ items, Owed seen stack y) → Owed seen stack x
  | enter {x k items} : move x = .enter k items → k ∈ seen → Owed seen stack x

/-- The items of the entries entered are owed. -/
def Settled (seen : List K) (stack : List α) : Prop :=
  ∀ k ∈ seen, ∀ x items, move x = .enter k items → ∀ y ∈ items, Owed move seen stack y

section

variable {move} {seen : List K} {stack : List α}

/-- What is owed stays owed when what an item stands for takes its place on the stack. -/
theorem Owed.mono {seen' : List K} {stack' : List α} (hseen : seen ⊆ seen')
    (hstack : ∀ x ∈ stack, Owed move seen' stack' x) {x : α} (h : Owed move seen stack x) :
    Owed move seen' stack' x := by
  induction h with
  | stack h => exact hstack _ h
  | into hmove _ ih => exact .into hmove ih
  | enter hmove hk => exact .enter hmove (hseen hk)

/-- With nothing on the stack, an owed item leads to owed items and is not looked for. -/
theorem Owed.passes (hsettled : Settled move seen []) {x y : α} (h : Owed move seen [] x)
    (hxy : Passes move x y) : Owed move seen [] y := by
  cases h with
  | stack h => cases h
  | into hmove hall => exact hall y (by rwa [Passes, hmove] at hxy)
  | enter hmove hk => exact hsettled _ hk x _ hmove y (by rwa [Passes, hmove] at hxy)

theorem Owed.reaches (hsettled : Settled move seen []) {x y : α} (h : Owed move seen [] x)
    (hxy : Reaches move x y) : Owed move seen [] y := by
  induction hxy with
  | refl => exact h
  | tail _ hstep ih => exact ih.passes hsettled hstep

end

section

variable [DecidableEq K] {move : α → Move α K R} {weight : α → Nat} {known : List (K × List α)}
  {roots : List α} {s s' : State α K R}

/-- The roots are owed, and the entries entered settled. -/
def Inv (move : α → Move α K R) (roots : List α) (s : State α K R) : Prop :=
  s.answer = none → (∀ x ∈ roots, Owed move s.seen s.stack x) ∧ Settled move s.seen s.stack

/-- **One step** keeps what is owed. -/
theorem inv_next (hpaid : Paid move weight known) (hs : next move s = some s')
    (h : Inv move roots s) : Inv move roots s' := by
  obtain ⟨seen, stack, answer⟩ := s
  match answer, stack with
  | some _, _ => cases hs
  | none, [] => cases hs
  | none, x :: rest =>
    obtain ⟨hroots, hsettled⟩ := h rfl
    simp only [next] at hs
    split at hs
    next r hx =>
      obtain rfl := Option.some.inj hs
      exact fun hnone => by cases hnone
    next items hx =>
      obtain rfl := Option.some.inj hs
      have hstack : ∀ y ∈ x :: rest, Owed move seen (items ++ rest) y := by
        intro y hy
        obtain rfl | hy := List.mem_cons.mp hy
        · exact .into hx fun z hz => .stack (List.mem_append_left _ hz)
        · exact .stack (List.mem_append_right _ hy)
      exact fun _ => ⟨fun y hy => (hroots y hy).mono (List.Subset.refl _) hstack,
        fun k hk y items hy z hz => (hsettled k hk y items hy z hz).mono (List.Subset.refl _) hstack⟩
    next k items hx =>
      split at hs
      next hk =>
        obtain rfl := Option.some.inj hs
        have hstack : ∀ y ∈ x :: rest, Owed move seen rest y := by
          intro y hy
          obtain rfl | hy := List.mem_cons.mp hy
          · exact .enter hx hk
          · exact .stack hy
        exact fun _ => ⟨fun y hy => (hroots y hy).mono (List.Subset.refl _) hstack,
          fun k hk y items hy z hz =>
            (hsettled k hk y items hy z hz).mono (List.Subset.refl _) hstack⟩
      next hk =>
        obtain rfl := Option.some.inj hs
        have hseen : seen ⊆ seen ++ [k] := List.subset_append_left _ _
        have hstack : ∀ y ∈ x :: rest, Owed move (seen ++ [k]) (items ++ rest) y := by
          intro y hy
          obtain rfl | hy := List.mem_cons.mp hy
          · exact .enter hx (List.mem_append_right _ (List.mem_singleton_self _))
          · exact .stack (List.mem_append_right _ hy)
        refine fun _ => ⟨fun y hy => (hroots y hy).mono hseen hstack,
          fun k' hk' y items' hy z hz => ?_⟩
        rcases List.mem_append.mp hk' with hk' | hk'
        · exact (hsettled k' hk' y items' hy z hz).mono hseen hstack
        · obtain rfl := List.mem_singleton.mp hk'
          obtain rfl := hpaid.key x y k' items items' hx hy
          exact .stack (List.mem_append_left _ hz)

/-- What the walk has met can be reached from the roots. -/
structure Met (move : α → Move α K R) (roots : List α) (start : List K) (s : State α K R) :
    Prop where
  stack : ∀ y ∈ s.stack, ∃ x ∈ roots, Reaches move x y
  seen : ∀ k ∈ s.seen, k ∈ start ∨ ∃ x ∈ roots, ∃ y items, Reaches move x y ∧
    move y = .enter k items
  answer : ∀ r ∈ s.answer, ∃ x ∈ roots, ∃ y, Reaches move x y ∧ move y = .found r

theorem met_next {start : List K} (hs : next move s = some s') (h : Met move roots start s) :
    Met move roots start s' := by
  obtain ⟨seen, stack, answer⟩ := s
  match answer, stack with
  | some _, _ => cases hs
  | none, [] => cases hs
  | none, x :: rest =>
    obtain ⟨hstack, hseen, -⟩ := h
    obtain ⟨root, hroot, hx⟩ := hstack x List.mem_cons_self
    have hrest : ∀ y ∈ rest, ∃ x ∈ roots, Reaches move x y :=
      fun y hy => hstack y (List.mem_cons_of_mem _ hy)
    have hitems : ∀ items, (move x).items = items → ∀ y ∈ items ++ rest,
        ∃ x ∈ roots, Reaches move x y := by
      rintro items rfl y hy
      rcases List.mem_append.mp hy with hy | hy
      · exact ⟨root, hroot, ReflTransGen.tail hx hy⟩
      · exact hrest y hy
    simp only [next] at hs
    split at hs
    next r hfound =>
      obtain rfl := Option.some.inj hs
      refine ⟨hrest, hseen, fun r' hr' => ?_⟩
      obtain rfl := Option.some.inj hr'
      exact ⟨root, hroot, x, hx, hfound⟩
    next items hinto =>
      obtain rfl := Option.some.inj hs
      exact ⟨hitems items (by rw [hinto, Move.items]), hseen, fun r hr => by cases hr⟩
    next k items henter =>
      split at hs
      next hk =>
        obtain rfl := Option.some.inj hs
        exact ⟨hrest, hseen, fun r hr => by cases hr⟩
      next hk =>
        obtain rfl := Option.some.inj hs
        refine ⟨hitems items (by rw [henter, Move.items]), fun k' hk' => ?_,
          fun r hr => by cases hr⟩
        rcases List.mem_append.mp hk' with hk' | hk'
        · exact hseen k' hk'
        · obtain rfl := List.mem_singleton.mp hk'
          exact .inr ⟨root, hroot, x, items, hx, henter⟩

/-! ## The end of a walk -/

theorem cost_le (known : List (K × List α)) (seen : List K) (k : K) :
    cost weight known (seen ++ [k]) ≤ cost weight known seen := by
  refine List.Sublist.sum_le_sum (List.Sublist.map _ ?_) fun _ _ => Nat.zero_le _
  refine List.monotone_filter_right _ fun e he => ?_
  simp only [decide_eq_true_eq, List.mem_append, not_or] at he ⊢
  exact he.1

/-- Entering an entry pays for its items. -/
theorem cost_append {seen : List K} {k : K} {items : List α} (hknown : (k, items) ∈ known)
    (hk : k ∉ seen) :
    cost weight known (seen ++ [k]) + load weight items ≤ cost weight known seen := by
  unfold cost
  induction known with
  | nil => cases hknown
  | cons e known ih =>
    by_cases he : e.1 ∈ seen
    · have hne : e ≠ (k, items) := by
        rintro rfl
        exact hk he
      rw [List.filter_cons_of_neg (by simp [he]), List.filter_cons_of_neg (by simpa using he)]
      exact ih ((List.mem_cons.mp hknown).resolve_left fun h => hne h.symm)
    · rw [List.filter_cons_of_pos (l := known) (p := (·.1 ∉ seen)) (by simpa using he),
        List.map_cons, List.sum_cons]
      by_cases hek : e.1 = k
      · rw [List.filter_cons_of_neg (by simp [hek])]
        rcases List.mem_cons.mp hknown with rfl | hknown
        · have : cost weight known (seen ++ [k]) ≤ cost weight known seen := cost_le known seen k
          unfold cost at this
          dsimp only
          omega
        · have := ih hknown
          omega
      · have hne : e ≠ (k, items) := by
          rintro rfl
          exact hek rfl
        have := ih ((List.mem_cons.mp hknown).resolve_left fun h => hne h.symm)
        rw [List.filter_cons_of_pos (by simp [he, hek]), List.map_cons, List.sum_cons]
        omega

/-- What is still to be done. -/
def todo (weight : α → Nat) (known : List (K × List α)) (s : State α K R) : Nat :=
  cost weight known s.seen + load weight s.stack + if s.answer.isSome then 0 else 1

theorem todo_next (hpaid : Paid move weight known) (hs : next move s = some s') :
    todo weight known s' < todo weight known s := by
  obtain ⟨seen, stack, answer⟩ := s
  match answer, stack with
  | some _, _ => cases hs
  | none, [] => cases hs
  | none, x :: rest =>
    have hpos := hpaid.pos x
    simp only [next] at hs
    split at hs
    next =>
      obtain rfl := Option.some.inj hs
      simp only [todo, load, List.map_cons, List.sum_cons, Option.isSome_some, Option.isSome_none,
        Bool.false_eq_true, if_false, if_true]
      omega
    next items hinto =>
      have hlt := hpaid.into x items hinto
      obtain rfl := Option.some.inj hs
      simp only [todo, load, List.map_cons, List.map_append, List.sum_append, List.sum_cons] at hlt ⊢
      omega
    next k items henter =>
      split at hs
      next =>
        obtain rfl := Option.some.inj hs
        simp only [todo, load, List.map_cons, List.sum_cons]
        omega
      next hk =>
        have hle : cost weight known (seen ++ [k]) + load weight items ≤ cost weight known seen :=
          cost_append (hpaid.enter x k items henter) hk
        obtain rfl := Option.some.inj hs
        simp only [todo, load, List.map_cons, List.map_append, List.sum_append, List.sum_cons]
          at hle ⊢
        omega

variable {seen : List K} {stack : List α}

/-- A walk ends with an answer or an empty stack. -/
theorem stack_of_answer_none (hpaid : Paid move weight known)
    (h : (walk move weight known seen stack).answer = none) :
    (walk move weight known seen stack).stack = [] := by
  have hdone : next move (walk move weight known seen stack) = none :=
    Loop.run_done (fun s s' => todo_next hpaid) _ _ (by simp [todo])
  generalize walk move weight known seen stack = s at h hdone
  obtain ⟨seen, stack, answer⟩ := s
  obtain rfl : answer = none := h
  cases stack with
  | nil => rfl
  | cons x rest =>
    simp only [next] at hdone
    split at hdone
    next => cases hdone
    next => cases hdone
    next => split at hdone <;> cases hdone

theorem met_walk : Met move stack seen (walk move weight known seen stack) :=
  Loop.run_invariant (P := Met move stack seen) (fun _ _ => met_next) _ _
    ⟨fun y hy => ⟨y, hy, ReflTransGen.refl⟩, fun _ hk => .inl hk, fun _ hr => by cases hr⟩

theorem inv_walk (hpaid : Paid move weight known) (hsettled : Settled move seen stack) :
    Inv move stack (walk move weight known seen stack) :=
  Loop.run_invariant (P := Inv move stack) (fun _ _ => inv_next hpaid) _ _
    fun _ => ⟨fun _ hx => .stack hx, hsettled⟩

/-- What a walk without an answer has entered is settled, with nothing left on the stack. -/
theorem settled_walk (hpaid : Paid move weight known) (hsettled : Settled move seen stack)
    (h : (walk move weight known seen stack).answer = none) :
    Settled move (walk move weight known seen stack).seen [] := by
  have hinv := (inv_walk hpaid hsettled h).2
  rwa [stack_of_answer_none hpaid h] at hinv

/-- What a walk without an answer can reach, it has passed. -/
theorem owed_of_reaches (hpaid : Paid move weight known) (hsettled : Settled move seen stack)
    (h : (walk move weight known seen stack).answer = none) {x y : α} (hx : x ∈ stack)
    (hxy : Reaches move x y) : Owed move (walk move weight known seen stack).seen [] y := by
  have howed := (inv_walk hpaid hsettled h).1 x hx
  rw [stack_of_answer_none hpaid h] at howed
  exact howed.reaches (settled_walk hpaid hsettled h) hxy

/-- **A walk answers when an item that is looked for can be reached.** -/
theorem answer_isSome_iff (hpaid : Paid move weight known) (hsettled : Settled move seen stack) :
    (walk move weight known seen stack).answer.isSome = true ↔
      ∃ x ∈ stack, ∃ y r, Reaches move x y ∧ move y = .found r := by
  constructor
  · intro h
    obtain ⟨r, hr⟩ := Option.isSome_iff_exists.mp h
    obtain ⟨x, hx, y, hxy, hy⟩ := met_walk.answer r hr
    exact ⟨x, hx, y, r, hxy, hy⟩
  · rintro ⟨x, hx, y, r, hxy, hy⟩
    by_contra hnone
    have howed := owed_of_reaches hpaid hsettled (by simpa using hnone) hx hxy
    cases howed with
    | stack h => cases h
    | into hmove _ => cases hy.symm.trans hmove
    | enter hmove _ => cases hy.symm.trans hmove

/-- **What a walk without an answer has entered**: the entries that can be reached, beside those
it started with. -/
theorem mem_seen_iff (hpaid : Paid move weight known) (hsettled : Settled move seen stack)
    (h : (walk move weight known seen stack).answer = none) {k : K} :
    k ∈ (walk move weight known seen stack).seen ↔
      k ∈ seen ∨ ∃ x ∈ stack, ∃ y items, Reaches move x y ∧ move y = .enter k items := by
  constructor
  · exact met_walk.seen k
  · rintro (hk | ⟨x, hx, y, items, hxy, hy⟩)
    · refine Loop.run_invariant (P := fun s : State α K R => k ∈ s.seen) (fun s s' hs hk => ?_) _
        ⟨seen, stack, none⟩ hk
      obtain ⟨seen, stack, answer⟩ := s
      match answer, stack with
      | some _, _ => cases hs
      | none, [] => cases hs
      | none, x :: rest =>
        simp only [next] at hs
        split at hs
        next => exact Option.some.inj hs ▸ hk
        next => exact Option.some.inj hs ▸ hk
        next =>
          split at hs
          next => exact Option.some.inj hs ▸ hk
          next => exact Option.some.inj hs ▸ List.mem_append_left _ hk
    · cases owed_of_reaches hpaid hsettled h hx hxy with
      | stack h => cases h
      | into hmove _ => cases hy.symm.trans hmove
      | enter hmove hk =>
        obtain ⟨rfl, -⟩ := Move.enter.inj (hy.symm.trans hmove)
        exact hk

end

end Walk
