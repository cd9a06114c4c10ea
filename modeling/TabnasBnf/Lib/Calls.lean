import Mathlib.Data.List.Chain
import Mathlib.Data.List.Basic

/-!
# Programs that call operations on a state

A program that reaches a state through the operations it calls alone: a call answers with the
state it leaves, or refuses and ends the program. What its calls keep is said by a *monitor*, a
partial step on a state of its own: a run keeps to it when the monitor follows every call.

* `Program.run`: the calls of a run, in order, and what it returned.
* `Program.Ensures`: what a program's calls and its result keep, one rule a constructor
  (`Ensures.bind`, `Ensures.mono`, `ensures_perform`).
* `Ensures.accepted`, `Ensures.result`: it is kept by the run.
* `run_chained`, `run_refused`: each call is made in the state the one before left, and a refusal
  is the last call and the result.
-/

namespace Calls

/-- A call: the operation, the state it was made in, and the state it left or its refusal. -/
structure Call (Op σ ε : Type) where
  op : Op
  before : σ
  after : Except ε σ

/-- A program over the operations `Op`: it returns or fails, or calls one and goes on from the
state that leaves. -/
inductive Program (Op σ ε : Type) (α : Type) where
  | done (result : Except ε α)
  | call (op : Op) (next : σ → Program Op σ ε α)

variable {Op σ ε α β γ : Type}

namespace Program

/-- One program after another. -/
def bind : Program Op σ ε α → (α → Program Op σ ε β) → Program Op σ ε β
  | .done (.ok a), f => f a
  | .done (.error e), _ => .done (.error e)
  | .call op next, f => .call op fun s => (next s).bind f

instance : Monad (Program Op σ ε) where
  pure a := .done (.ok a)
  bind := Program.bind

/-- The program that calls one operation, and returns the state it leaves. -/
def perform (op : Op) : Program Op σ ε σ := .call op fun s => .done (.ok s)

/-- The program that fails. -/
def fail (e : ε) : Program Op σ ε α := .done (.error e)

/-- The calls of a run from a state, and its result with the state it ends in. -/
def run (exec : Op → σ → Except ε σ) :
    Program Op σ ε α → σ → List (Call Op σ ε) × Except ε (α × σ)
  | .done (.ok a), s => ([], .ok (a, s))
  | .done (.error e), _ => ([], .error e)
  | .call op next, s =>
    match exec op s with
    | .error e => ([⟨op, s, .error e⟩], .error e)
    | .ok s' =>
      let rest := (next s').run exec s'
      (⟨op, s, .ok s'⟩ :: rest.1, rest.2)

/-- Every call of a run from `s` is followed by the monitor from `m` on, and what it returns
satisfies `post` with the states of both. -/
def Ensures (exec : Op → σ → Except ε σ) (watch : γ → Call Op σ ε → Option γ) :
    Program Op σ ε α → σ → γ → (α → σ → γ → Prop) → Prop
  | .done (.ok a), s, m, post => post a s m
  | .done (.error _), _, _, _ => True
  | .call op next, s, m, post =>
    ∃ m', watch m ⟨op, s, exec op s⟩ = some m' ∧
      ∀ s', exec op s = .ok s' → (next s').Ensures exec watch s' m' post

variable {exec : Op → σ → Except ε σ} {watch : γ → Call Op σ ε → Option γ}

theorem pure_bind (a : α) (f : α → Program Op σ ε β) : (pure a >>= f) = f a := rfl

/-! ## The rules -/

theorem Ensures.mono {p : Program Op σ ε α} {s : σ} {m : γ} {post post' : α → σ → γ → Prop}
    (h : p.Ensures exec watch s m post) (hpost : ∀ a s' m', post a s' m' → post' a s' m') :
    p.Ensures exec watch s m post' := by
  induction p generalizing s m with
  | done result =>
    cases result with
    | error e => trivial
    | ok a => exact hpost a s m h
  | call op next ih =>
    obtain ⟨m', hwatch, hnext⟩ := h
    exact ⟨m', hwatch, fun s' hs => ih s' (hnext s' hs)⟩

theorem Ensures.bind {p : Program Op σ ε α} {f : α → Program Op σ ε β} {s : σ} {m : γ}
    {mid : α → σ → γ → Prop} {post : β → σ → γ → Prop} (h : p.Ensures exec watch s m mid)
    (hf : ∀ a s' m', mid a s' m' → (f a).Ensures exec watch s' m' post) :
    (p >>= f).Ensures exec watch s m post := by
  induction p generalizing s m with
  | done result =>
    cases result with
    | error e => trivial
    | ok a => exact hf a s m h
  | call op next ih =>
    obtain ⟨m', hwatch, hnext⟩ := h
    exact ⟨m', hwatch, fun s' hs => ih s' (hnext s' hs)⟩

theorem ensures_pure {a : α} {s : σ} {m : γ} {post : α → σ → γ → Prop} (h : post a s m) :
    (pure a : Program Op σ ε α).Ensures exec watch s m post := h

theorem ensures_fail {e : ε} {s : σ} {m : γ} {post : α → σ → γ → Prop} :
    (fail e : Program Op σ ε α).Ensures exec watch s m post := trivial

theorem ensures_perform {op : Op} {s : σ} {m m' : γ} {post : σ → σ → γ → Prop}
    (hwatch : watch m ⟨op, s, exec op s⟩ = some m')
    (hpost : ∀ s', exec op s = .ok s' → post s' s' m') :
    (perform op : Program Op σ ε σ).Ensures exec watch s m post :=
  ⟨m', hwatch, hpost⟩

/-- A loop keeps what its body keeps of the elements before. -/
theorem ensures_foldlM {f : β → α → Program Op σ ε β} (inv : List α → β → σ → γ → Prop)
    {l before : List α} {b : β} {s : σ} {m : γ} (h : inv before b s m)
    (hf : ∀ before, ∀ a ∈ l, ∀ b s m, inv before b s m →
      (f b a).Ensures exec watch s m (inv (before ++ [a]))) :
    (l.foldlM f b).Ensures exec watch s m (inv (before ++ l)) := by
  induction l generalizing before b s m with
  | nil =>
    rw [List.foldlM_nil, List.append_nil]
    exact ensures_pure h
  | cons a rest ih =>
    rw [List.foldlM_cons]
    refine (hf before a List.mem_cons_self b s m h).bind fun b' s' m' hb => ?_
    have hrest := ih hb fun before c hc => hf before c (List.mem_cons_of_mem a hc)
    rwa [List.append_assoc] at hrest

/-- A program for each element, one after another. -/
theorem ensures_mapM' {f : α → Program Op σ ε β} (inv : List α → List β → σ → γ → Prop)
    {l before : List α} {done : List β} {s : σ} {m : γ} (h : inv before done s m)
    (hf : ∀ before, ∀ a ∈ l, ∀ done s m, inv before done s m →
      (f a).Ensures exec watch s m fun b => inv (before ++ [a]) (done ++ [b])) :
    (l.mapM' f).Ensures exec watch s m fun out => inv (before ++ l) (done ++ out) := by
  induction l generalizing before done s m with
  | nil =>
    rw [List.mapM'_nil, List.append_nil]
    refine ensures_pure ?_
    rwa [List.append_nil]
  | cons a rest ih =>
    rw [List.mapM'_cons]
    refine (hf before a List.mem_cons_self done s m h).bind fun b s' m' hb => ?_
    refine (ih hb fun before c hc => hf before c (List.mem_cons_of_mem a hc)).bind
      fun out s'' m'' hout => ensures_pure ?_
    rwa [List.append_assoc, List.append_assoc] at hout

/-! ## What a run keeps -/

/-- The monitor follows the calls of a run. -/
theorem Ensures.accepted {p : Program Op σ ε α} {s : σ} {m : γ} {post : α → σ → γ → Prop}
    (h : p.Ensures exec watch s m post) : ∃ m', (p.run exec s).1.foldlM watch m = some m' := by
  induction p generalizing s m with
  | done result => cases result <;> exact ⟨m, rfl⟩
  | call op next ih =>
    obtain ⟨m', hwatch, hnext⟩ := h
    unfold run
    cases hexec : exec op s with
    | error e =>
      rw [hexec] at hwatch
      exact ⟨m', by simp [hwatch]⟩
    | ok s' =>
      rw [hexec] at hwatch
      obtain ⟨m'', hrest⟩ := ih s' (hnext s' hexec)
      exact ⟨m'', by simp [hwatch, hrest]⟩

/-- What a run returns satisfies what the program ensures. -/
theorem Ensures.result {p : Program Op σ ε α} {s s' : σ} {m : γ} {a : α}
    {post : α → σ → γ → Prop} (h : p.Ensures exec watch s m post)
    (hrun : (p.run exec s).2 = .ok (a, s')) : ∃ m', post a s' m' := by
  induction p generalizing s m with
  | done result =>
    cases result with
    | error e => cases hrun
    | ok b =>
      cases hrun
      exact ⟨m, h⟩
  | call op next ih =>
    obtain ⟨m', hwatch, hnext⟩ := h
    unfold run at hrun
    cases hexec : exec op s with
    | error e =>
      rw [hexec] at hrun
      cases hrun
    | ok t =>
      rw [hexec] at hrun
      exact ih t (hnext t hexec) hrun

/-- The first call of a run is made in the state it begins with. -/
theorem run_head {p : Program Op σ ε α} {s : σ} {c : Call Op σ ε}
    (h : c ∈ (p.run exec s).1.head?) : c.before = s := by
  cases p with
  | done result => cases result <;> cases h
  | call op next =>
    unfold run at h
    split at h <;>
    · cases h
      rfl

/-- A call leaves what its operation does. -/
theorem run_exec {p : Program Op σ ε α} {s : σ} {c : Call Op σ ε} (hc : c ∈ (p.run exec s).1) :
    c.after = exec c.op c.before := by
  induction p generalizing s with
  | done result => cases result <;> cases hc
  | call op next ih =>
    unfold run at hc
    cases hexec : exec op s with
    | error e =>
      rw [hexec] at hc
      obtain rfl := List.mem_singleton.mp hc
      exact hexec.symm
    | ok s' =>
      rw [hexec] at hc
      obtain rfl | hc := List.mem_cons.mp hc
      · exact hexec.symm
      · exact ih s' hc

/-- **Calls follow each other**: each is made in the state the one before it left. -/
theorem run_chained (p : Program Op σ ε α) (s : σ) :
    (p.run exec s).1.IsChain fun c d => c.after = .ok d.before := by
  induction p generalizing s with
  | done result => cases result <;> exact List.isChain_nil
  | call op next ih =>
    unfold run
    cases hexec : exec op s with
    | error e => exact List.isChain_singleton _
    | ok s' => exact List.isChain_cons.mpr ⟨fun d hd => by rw [run_head hd], ih s' s'⟩

/-- **A refusal ends the run**: it is the last call, and the result. -/
theorem run_refused {p : Program Op σ ε α} {s : σ} {c : Call Op σ ε} {e : ε}
    (hc : c ∈ (p.run exec s).1) (he : c.after = .error e) :
    (p.run exec s).1.getLast? = some c ∧ (p.run exec s).2 = .error e := by
  induction p generalizing s with
  | done result => cases result <;> cases hc
  | call op next ih =>
    unfold run at hc ⊢
    cases hexec : exec op s with
    | error e' =>
      rw [hexec] at hc
      obtain rfl := List.mem_singleton.mp hc
      cases he
      exact ⟨rfl, rfl⟩
    | ok s' =>
      rw [hexec] at hc
      obtain rfl | hc := List.mem_cons.mp hc
      · cases he
      · obtain ⟨hlast, hresult⟩ := ih s' hc
        have hne : ((next s').run exec s').1 ≠ [] := List.ne_nil_of_mem hc
        exact ⟨by simp [List.getLast?_cons, hlast], hresult⟩

end Program

/-- A monitor that asks a condition of every call, and what it asks beside. -/
theorem foldlM_guarded {good : Call Op σ ε → Prop} [DecidablePred good]
    {watch : γ → Call Op σ ε → Option γ} {calls : List (Call Op σ ε)} {m m' : γ}
    (h : calls.foldlM (fun m c => if good c then watch m c else none) m = some m') :
    (∀ c ∈ calls, good c) ∧ calls.foldlM watch m = some m' := by
  induction calls generalizing m with
  | nil => exact ⟨fun c hc => (by cases hc), h⟩
  | cons c rest ih =>
    rw [List.foldlM_cons] at h ⊢
    obtain ⟨m₁, hstep, hrest⟩ := Option.bind_eq_some_iff.mp h
    by_cases hgood : good c
    · rw [if_pos hgood] at hstep
      obtain ⟨hall, hfold⟩ := ih hrest
      refine ⟨List.forall_mem_cons.mpr ⟨hgood, hall⟩, ?_⟩
      rw [hstep]
      exact hfold
    · rw [if_neg hgood] at hstep
      cases hstep

end Calls
