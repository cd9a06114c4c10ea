import Mathlib.Logic.Function.Basic
import Mathlib.Logic.Relation
import TabnasBnf.Emit

/-!
# Runs of the engine

What the engine is assumed to do with an emitted spec, as far as rules and counters go. A frame is
one invocation of a rule: it was pushed, and lives on as the rules it is replaced by, which `trail`
lists, the latest first. Tokens are not modelled: an alternate that names some may match or not, so
these are the runs over every input.

* A taken alternate first changes the counters (`Counters.after`); what it pushes or continues as
  inherits them. `count v x` is what `n: {c: x}` makes of a counter at `v`.
* The alternates are tried in order: one is taken only when none before it matches for sure.
-/

namespace TabnasBnf

open Relation (ReflTransGen)

/-- The counters of a frame; one never set is 0. -/
abbrev Counters := String → Int

/-- The counters after an alternate is taken. -/
def Counters.after (count : Int → Int → Int) (n : Counters) (o : AltSpec) : Counters :=
  (o.n.getD []).foldl (fun n e => Function.update n e.1 (count (n e.1) e.2)) n

/-- One invocation of a rule. -/
structure EngineFrame where
  rule : String
  n : Counters
  closing : Bool
  trail : List String

/-- The alternates a frame tries: the open ones, and once one was taken the close ones. -/
def RuleSpec.alternates (rule : RuleSpec) (closing : Bool) : List AltSpec :=
  if closing then rule.close.getD [] else rule.opens

/-- The counters do not exclude the alternate. -/
def Allows (n : Counters) (o : AltSpec) : Prop := ∀ counter, o.c = some (.zero counter) → n counter = 0

/-- The alternate matches whatever comes: it names no token, and no condition but on the counters. -/
def Certain (n : Counters) (o : AltSpec) : Prop :=
  o.s = [] ∧ (∀ phase, o.c ≠ some (.probePhase phase)) ∧ Allows n o

/-- The first alternate that matches can be this one. -/
def CanTake (alts : List AltSpec) (n : Counters) (o : AltSpec) : Prop :=
  ∃ before behind, alts = before ++ o :: behind ∧ Allows n o ∧ ∀ a ∈ before, ¬ Certain n a

/-- One step of the engine over its stack of frames, the running one first. -/
inductive EngineStep (rules : RuleTable) (count : Int → Int → Int) :
    List EngineFrame → List EngineFrame → Prop
  | push {f rest rule o q} (hrule : rules.lookup f.rule = some rule)
      (ho : CanTake (rule.alternates f.closing) f.n o) (hp : o.p = some q) :
      EngineStep rules count (f :: rest)
        (⟨q, f.n.after count o, false, []⟩ :: ⟨f.rule, f.n.after count o, true, f.trail⟩ :: rest)
  | replace {f rest rule o q} (hrule : rules.lookup f.rule = some rule)
      (ho : CanTake (rule.alternates f.closing) f.n o) (hp : o.p = none) (hr : o.r = some q) :
      EngineStep rules count (f :: rest)
        (⟨q, f.n.after count o, false, f.rule :: f.trail⟩ :: rest)
  | close {f rest rule o} (hrule : rules.lookup f.rule = some rule) (hopen : f.closing = false)
      (ho : CanTake rule.opens f.n o) (hp : o.p = none) (hr : o.r = none) :
      EngineStep rules count (f :: rest) (⟨f.rule, f.n.after count o, true, f.trail⟩ :: rest)
  | leave {f rest rule} (hrule : rules.lookup f.rule = some rule) (hclosing : f.closing = true)
      (hclose : rule.close = none ∨
        ∃ o, CanTake (rule.close.getD []) f.n o ∧ o.p = none ∧ o.r = none) :
      EngineStep rules count (f :: rest) rest

/-- The stacks of the runs that begin with one rule, its counters unset. -/
def EngineReach (rules : RuleTable) (count : Int → Int → Int) (start : String) :
    List EngineFrame → Prop :=
  ReflTransGen (EngineStep rules count) [⟨start, fun _ => 0, false, []⟩]

section

variable {rules : RuleTable} {count : Int → Int → Int} {n : Counters} {o : AltSpec}

theorem CanTake.mem {alts : List AltSpec} (h : CanTake alts n o) : o ∈ alts := by
  obtain ⟨before, behind, rfl, -, -⟩ := h
  exact List.mem_append_right _ List.mem_cons_self

/-- An alternate that matches for sure hides the ones behind it. -/
theorem CanTake.eq_of_certain {a : AltSpec} {alts : List AltSpec} (h : CanTake (a :: alts) n o)
    (ha : Certain n a) : o = a := by
  obtain ⟨before, behind, heq, -, hbefore⟩ := h
  cases before with
  | nil => exact (List.cons.inj heq).1.symm
  | cons b before =>
    obtain ⟨rfl, -⟩ := List.cons.inj heq
    exact absurd ha (hbefore _ List.mem_cons_self)

theorem after_of_none (h : o.n = none) : n.after count o = n := by
  unfold Counters.after
  rw [h]
  rfl

theorem after_single {c : String} {x : Int} (h : o.n = some [(c, x)]) :
    n.after count o c = count (n c) x := by
  unfold Counters.after
  rw [h]
  simp

/-- A counter an alternate does not name stays. -/
theorem after_of_notMem {c : String} (h : ∀ e ∈ o.n.getD [], e.1 ≠ c) :
    n.after count o c = n c := by
  unfold Counters.after
  generalize o.n.getD [] = es at h
  induction es generalizing n with
  | nil => rfl
  | cons e es ih =>
    rw [List.foldl_cons, ih fun e' he' => h e' (List.mem_cons_of_mem _ he')]
    exact Function.update_of_ne (h e List.mem_cons_self).symm _ _

/-- **What every frame keeps**: a property of the first frame that the steps of the running frame
keep, of itself and of what it pushes or continues as, holds of every frame of a run. -/
theorem EngineReach.frames {start : String} {I : EngineFrame → Prop}
    (hstart : I ⟨start, fun _ => 0, false, []⟩)
    (hpush : ∀ f rule o q, I f → rules.lookup f.rule = some rule →
      CanTake (rule.alternates f.closing) f.n o → o.p = some q →
        I ⟨q, f.n.after count o, false, []⟩ ∧ I ⟨f.rule, f.n.after count o, true, f.trail⟩)
    (hreplace : ∀ f rule o q, I f → rules.lookup f.rule = some rule →
      CanTake (rule.alternates f.closing) f.n o → o.p = none → o.r = some q →
        I ⟨q, f.n.after count o, false, f.rule :: f.trail⟩)
    (hclose : ∀ f rule o, I f → rules.lookup f.rule = some rule → f.closing = false →
      CanTake rule.opens f.n o → o.p = none → o.r = none →
        I ⟨f.rule, f.n.after count o, true, f.trail⟩)
    {stack : List EngineFrame} (h : EngineReach rules count start stack) : ∀ f ∈ stack, I f := by
  induction h with
  | refl =>
    intro f hf
    obtain rfl := List.mem_singleton.mp hf
    exact hstart
  | tail _ hstep ih =>
    cases hstep with
    | @push f rest rule o q hrule ho hp =>
      obtain ⟨hchild, hself⟩ := hpush f rule o q (ih f List.mem_cons_self) hrule ho hp
      intro g hg
      rcases List.mem_cons.mp hg with rfl | hg
      · exact hchild
      · rcases List.mem_cons.mp hg with rfl | hg
        · exact hself
        · exact ih g (List.mem_cons_of_mem _ hg)
    | @replace f rest rule o q hrule ho hp hr =>
      intro g hg
      rcases List.mem_cons.mp hg with rfl | hg
      · exact hreplace f rule o q (ih f List.mem_cons_self) hrule ho hp hr
      · exact ih g (List.mem_cons_of_mem _ hg)
    | @close f rest rule o hrule hopen ho hp hr =>
      intro g hg
      rcases List.mem_cons.mp hg with rfl | hg
      · exact hclose f rule o (ih f List.mem_cons_self) hrule hopen ho hp hr
      · exact ih g (List.mem_cons_of_mem _ hg)
    | leave hrule hclosing hclose => exact fun g hg => ih g (List.mem_cons_of_mem _ hg)

end

end TabnasBnf
