import Mathlib.Algebra.GroupWithZero.Nat
import Mathlib.Data.List.Infix
import Mathlib.Data.List.Nodup

/-!
# The grammar IR

Model of `rs/src/ir.rs` and of the working copy of `rs/src/shared.rs`: elements, productions,
grammars and the errors a pass raises.

* `Element` is `ir::Element`: the kind and the source span in one constructor. The working copy
  differs from the public IR only in holding its elements behind `Rc`; the sharing is not
  observable, so one type models both.
* `usize` is `Nat`, `i64` is `Int`. An `IndexMap` is an association list in insertion order, an
  `IndexSet` a list in insertion order.
* `diag_name()`, the thread's diagnostic prefix, is the argument `diag` of the functions that
  raise an error.
* The serde attributes and `SrcSpan`'s constructors are left out: no pass reads them.
-/

namespace TabnasBnf

/-- `SrcSpan`: start and end offset, and the row and column of the start when known. -/
structure SrcSpan where
  s : Nat
  e : Nat
  r : Option Nat
  c : Option Nat
deriving DecidableEq, Repr

/-- `Element` with its `Kind`. -/
inductive Element where
  /-- A string literal. -/
  | term (literal : String) (caseSensitive : Option Bool) (tokenName : Option String)
      (sp : Option SrcSpan)
  /-- A rule reference; `debt` holds its suffix-debt counter mutations. -/
  | ref (name : String) (debt : Option (List (String × Int))) (sp : Option SrcSpan)
  /-- A built-in engine token, named with its `#`. -/
  | token (name : String) (sp : Option SrcSpan)
  /-- `<free text>`. -/
  | prose (text : String) (sp : Option SrcSpan)
  /-- A regular expression terminal. -/
  | regex (pattern flags : String) (sp : Option SrcSpan)
  /-- `[ A ]`. -/
  | opt (inner : Element) (sp : Option SrcSpan)
  /-- `*A`; `debtGuard` names the suffix-debt counter guarding it. -/
  | star (inner : Element) (debtGuard : Option String) (sp : Option SrcSpan)
  /-- `1*A`. -/
  | plus (inner : Element) (sp : Option SrcSpan)
  /-- `m*nA`; `none` is an unbounded maximum. -/
  | rep (min : Nat) (max : Option Nat) (inner : Element) (sp : Option SrcSpan)
  /-- `( A / B )`. -/
  | group (alts : List (List Element)) (sp : Option SrcSpan)
deriving Repr, Inhabited

/-- One alternative of a production. -/
abbrev Sequence := List Element

namespace Element

/-- `Element::term`: a literal with the default case-sensitivity unstated. -/
def lit (literal : String) : Element := .term literal none none none

/-- `Element::reference`. -/
def reference (name : String) : Element := .ref name none none

/-- `ref_name`. -/
def refName : Element → Option String
  | .ref name _ _ => some name
  | _ => none

/-- `is_ref`. -/
def isRef : Element → Bool
  | .ref .. => true
  | _ => false

/-- `is_ref_to`. -/
def isRefTo (name : String) : Element → Bool
  | .ref n _ _ => n == name
  | _ => false

/-- `is_terminal`: a terminal in any of its consuming spellings. -/
def isTerminal : Element → Bool
  | .term .. | .token .. | .regex .. => true
  | _ => false

/-- `inner`: the element an option or a repetition wraps. -/
def inner : Element → Option Element
  | .opt e _ | .star e _ _ | .plus e _ | .rep _ _ e _ => some e
  | _ => none

/-- The element's source span (`Element::sp`). -/
def sp : Element → Option SrcSpan
  | .term _ _ _ sp | .ref _ _ sp | .token _ sp | .prose _ sp | .regex _ _ sp | .opt _ sp
  | .star _ _ sp | .plus _ sp | .rep _ _ _ sp | .group _ sp => sp

/-- `kind_name`. -/
def kindName : Element → String
  | .term .. => "term"
  | .ref .. => "ref"
  | .token .. => "token"
  | .prose .. => "prose"
  | .regex .. => "regex"
  | .opt .. => "opt"
  | .star .. => "star"
  | .plus .. => "plus"
  | .rep .. => "rep"
  | .group .. => "group"

@[simp] theorem isRefTo_iff {name : String} {el : Element} :
    el.isRefTo name = true ↔ el.refName = some name := by
  cases el <;> simp [isRefTo, refName]

theorem isRef_iff {el : Element} : el.isRef = true ↔ ∃ name, el.refName = some name := by
  cases el <;> simp [isRef, refName]

theorem refName_eq_some {el : Element} {name : String} :
    el.refName = some name ↔ ∃ debt sp, el = .ref name debt sp := by
  cases el <;> simp [refName]

end Element

/-- `NodeKind`. -/
inductive NodeKind where
  | user
  | core
  | helper
deriving DecidableEq, Repr, Inhabited

/-- `ValueAnnotation`: what a production builds. The kind stays a string. -/
structure ValueAnnotation where
  kind : String
  members : List String
deriving DecidableEq, Repr

/-- `ProbeDispatchSpec`. -/
structure ProbeDispatchSpec where
  probeRule : String
  disambiguator : Element
  withBranch : String
  noBranch : String
deriving Repr

/-- `ProbeHelperSpec`. -/
structure ProbeHelperSpec where
  vocabElements : List Element
deriving Repr

/-- `TailRepeatSpec`. -/
structure TailRepeatSpec where
  sep : Sequence
deriving Repr

/-- `Production`: one rule of the grammar. The fields after `value` are written by the passes. -/
structure Production where
  name : String
  alts : List Sequence
  incremental : Bool := false
  nodeKind : NodeKind := .user
  origin : Option String := none
  sp : Option SrcSpan := none
  value : Option ValueAnnotation := none
  tailRepeat : Option TailRepeatSpec := none
  repeatHelper : Bool := false
  repeatLoop : Bool := false
  debtGuard : Option String := none
  debtOwed : Option (List String) := none
  probeDispatch : Option ProbeDispatchSpec := none
  probeHelper : Option ProbeHelperSpec := none
deriving Repr, Inhabited

namespace Production

/-- `rebuilt`: the author-facing fields with new alternatives; every rewrite flag is left
behind. -/
def rebuilt (p : Production) (alts : List Sequence) : Production where
  name := p.name
  alts := alts
  nodeKind := p.nodeKind
  origin := p.origin
  sp := p.sp
  value := p.value

/-- `Production::helper`. -/
def helper (name : String) (alts : List Sequence) (origin : String) : Production where
  name := name
  alts := alts
  nodeKind := .helper
  origin := some origin

@[simp] theorem rebuilt_name (p : Production) (alts : List Sequence) :
    (p.rebuilt alts).name = p.name := rfl

@[simp] theorem rebuilt_alts (p : Production) (alts : List Sequence) :
    (p.rebuilt alts).alts = alts := rfl

@[simp] theorem helper_name (name : String) (alts : List Sequence) (origin : String) :
    (helper name alts origin).name = name := rfl

@[simp] theorem helper_alts (name : String) (alts : List Sequence) (origin : String) :
    (helper name alts origin).alts = alts := rfl

/-- `origin_of`: the author-written production a production descends from. -/
def originOf (p : Production) : String := p.origin.getD p.name

end Production

/-- `AmbiguityReport`. -/
structure AmbiguityReport where
  rule : String
  altIdx : Nat
  optIdx : Nat
  reason : String
  resolved : Bool
deriving DecidableEq, Repr

/-- `Grammar`. -/
structure Grammar where
  productions : List Production
  ambiguities : List AmbiguityReport := []
  remove : List String := []
  clearAll : Bool := false
deriving Repr

/-- The names of a list of productions. -/
def namesOf (ps : List Production) : List String := ps.map Production.name

@[simp] theorem namesOf_nil : namesOf [] = [] := rfl

@[simp] theorem namesOf_cons (p : Production) (ps : List Production) :
    namesOf (p :: ps) = p.name :: namesOf ps := rfl

@[simp] theorem namesOf_append (ps qs : List Production) :
    namesOf (ps ++ qs) = namesOf ps ++ namesOf qs := List.map_append

theorem mem_namesOf {n : String} {ps : List Production} :
    n ∈ namesOf ps ↔ ∃ p ∈ ps, p.name = n := List.mem_map

namespace Grammar

/-- The production names, in order. -/
def names (g : Grammar) : List String := namesOf g.productions

/-- `find`: the first production of that name. -/
def find (g : Grammar) (name : String) : Option Production :=
  g.productions.find? fun p => p.name == name

end Grammar

/-- `EmitError`: the message, the rule being compiled and where, when the IR knew. -/
structure EmitError where
  message : String
  rule : Option String
  sp : Option SrcSpan
deriving DecidableEq, Repr

/-- `EmitError::at`. -/
def EmitError.at (message rule : String) (sp : Option SrcSpan) : EmitError :=
  ⟨message, some rule, sp⟩

/-- What a `?` that went on had before it. -/
theorem bind_eq_ok {ε α β : Type} {x : Except ε α} {f : α → Except ε β} {b : β}
    (h : (x >>= f) = .ok b) : ∃ a, x = .ok a ∧ f a = .ok b := by
  cases x with
  | error e => cases h
  | ok a => exact ⟨a, rfl, h⟩

/-- What a `?` that did not go on, or failed behind it, had before it. -/
theorem bind_eq_error {ε α β : Type} {x : Except ε α} {f : α → Except ε β} {e : ε}
    (h : (x >>= f) = .error e) : x = .error e ∨ ∃ a, x = .ok a ∧ f a = .error e := by
  cases x with
  | error e' =>
    obtain rfl := Except.error.inj h
    exact .inl rfl
  | ok a => exact .inr ⟨a, rfl, h⟩

theorem exists_ok {ε α : Type} {x : Except ε α} (h : x.isOk = true) : ∃ a, x = .ok a := by
  cases x with
  | error e => cases h
  | ok a => exact ⟨a, rfl⟩

theorem eq_ok_of_isOk {ε α : Type} {x : Except ε α} (h : x.isOk = true) (d : α) :
    x = .ok (x.toOption.getD d) := by
  obtain ⟨a, rfl⟩ := exists_ok h
  rfl

/-- A run over a list that went on everywhere. -/
theorem mapM_eq_ok {ε α β : Type} {f : α → Except ε β} :
    ∀ {xs : List α} {ys : List β}, xs.mapM f = .ok ys → List.Forall₂ (fun x y => f x = .ok y) xs ys
  | [], ys, h => by
    rw [List.mapM_nil] at h
    cases h
    exact .nil
  | x :: xs, ys, h => by
    rw [List.mapM_cons] at h
    obtain ⟨y, hy, h⟩ := bind_eq_ok h
    obtain ⟨ys', hys, h⟩ := bind_eq_ok h
    cases h
    exact .cons hy (mapM_eq_ok hys)

/-- A run for its refusals alone that went on everywhere. -/
theorem forM_eq_ok {ε α : Type} {f : α → Except ε Unit} {xs : List α} :
    xs.forM f = .ok () ↔ ∀ x ∈ xs, f x = .ok () := by
  induction xs with
  | nil => simp [List.forM, pure, Except.pure]
  | cons x xs ih =>
    rw [List.forall_mem_cons, ← ih]
    constructor
    · intro h
      obtain ⟨⟨⟩, hx, hxs⟩ := bind_eq_ok h
      exact ⟨hx, hxs⟩
    · rintro ⟨hx, hxs⟩
      show (f x >>= fun _ => xs.forM f) = _
      rw [hx]
      exact hxs

/-- A fold whose steps check their item and go on as a function says. -/
theorem foldlM_eq_ok {ε α β : Type} {f : β → α → Except ε β} {check : α → Prop} {add : β → α → β}
    (hf : ∀ s x t, f s x = .ok t ↔ check x ∧ t = add s x) {xs : List α} {s t : β} :
    xs.foldlM f s = .ok t ↔ (∀ x ∈ xs, check x) ∧ t = xs.foldl add s := by
  induction xs generalizing s with
  | nil => simp [pure, Except.pure, eq_comm]
  | cons x xs ih =>
    rw [List.foldlM_cons, List.forall_mem_cons, List.foldl_cons, and_assoc, ← ih]
    constructor
    · intro h
      obtain ⟨s', hx, hxs⟩ := bind_eq_ok h
      obtain ⟨hcheck, rfl⟩ := (hf s x s').mp hx
      exact ⟨hcheck, hxs⟩
    · rintro ⟨hcheck, hxs⟩
      rw [(hf s x (add s x)).mpr ⟨hcheck, rfl⟩]
      exact hxs

theorem exists_left_of_forall₂ {α β : Type} {R : α → β → Prop} {xs : List α} {ys : List β}
    (h : List.Forall₂ R xs ys) {y : β} (hy : y ∈ ys) : ∃ x ∈ xs, R x y := by
  induction h with
  | nil => cases hy
  | cons hR _ ih =>
    rcases List.mem_cons.mp hy with rfl | hy
    · exact ⟨_, List.mem_cons_self, hR⟩
    · obtain ⟨x, hx, hR⟩ := ih hy
      exact ⟨x, List.mem_cons_of_mem _ hx, hR⟩

theorem exists_right_of_forall₂ {α β : Type} {R : α → β → Prop} {xs : List α} {ys : List β}
    (h : List.Forall₂ R xs ys) {x : α} (hx : x ∈ xs) : ∃ y ∈ ys, R x y :=
  exists_left_of_forall₂ h.flip hx

/-- `is_effectively_case_sensitive`. -/
def isEffectivelyCaseSensitive (literal : String) (caseSensitive : Option Bool) : Bool :=
  if caseSensitive = some true then true else !literal.toList.any Char.isAlpha

/-- `term_key`. -/
def termKey (literal : String) (caseSensitive : Option Bool) : String :=
  (if isEffectivelyCaseSensitive literal caseSensitive then "cs:" else "ci:") ++ literal

/-- `regex_key`. -/
def regexKey (pattern flags : String) : String := "/" ++ pattern ++ "/" ++ flags

/-- `BUILTIN_TOKENS`. -/
def builtinTokens : List (String × String) :=
  [("TX", "#TX"), ("NR", "#NR"), ("ST", "#ST"), ("VL", "#VL")]

/-- `builtin_token`. -/
def builtinToken (name : String) : Option String :=
  (builtinTokens.find? fun t => t.1 == name).map Prod.snd

mutual
/-- `refs_in` on one element: the names it refers to, sugar included, in first-seen order with
repetitions. -/
def Element.refs : Element → List String
  | .ref name _ _ => [name]
  | .opt e _ | .star e _ _ | .plus e _ | .rep _ _ e _ => e.refs
  | .group alts _ => refsInAlts alts
  | _ => []

/-- `refs_in`. -/
def refsIn : List Element → List String
  | [] => []
  | el :: rest => el.refs ++ refsIn rest

/-- `refs_in` over the alternatives of a group. -/
def refsInAlts : List (List Element) → List String
  | [] => []
  | alt :: rest => refsIn alt ++ refsInAlts rest
end

theorem mem_refsIn {n : String} {α : List Element} :
    n ∈ refsIn α ↔ ∃ el ∈ α, n ∈ el.refs := by
  induction α with
  | nil => simp [refsIn]
  | cons el α ih => simp [refsIn, ih]

theorem mem_refsInAlts {n : String} {alts : List (List Element)} :
    n ∈ refsInAlts alts ↔ ∃ alt ∈ alts, n ∈ refsIn alt := by
  induction alts with
  | nil => simp [refsInAlts]
  | cons alt alts ih => simp [refsInAlts, ih]

/-- Every name the grammar's alternatives refer to. -/
def Grammar.refs (g : Grammar) : List String := g.productions.flatMap fun p => refsInAlts p.alts

/-! ## Walks through the productions -/

section

variable {grammar : Grammar}

theorem mem_names_of_find {name : String} {p : Production} (h : grammar.find name = some p) :
    name ∈ grammar.names ∧ p ∈ grammar.productions ∧ p.name = name := by
  have hp := List.mem_of_find?_eq_some h
  have hn : p.name = name := by simpa using List.find?_some h
  exact ⟨mem_namesOf.mpr ⟨p, hp, hn⟩, hp, hn⟩

theorem find_of_mem (hnd : grammar.names.Nodup) {p : Production} (hp : p ∈ grammar.productions) :
    grammar.find p.name = some p := by
  cases hfind : grammar.find p.name with
  | none => exact absurd (List.find?_eq_none.mp hfind p hp) (by simp)
  | some q =>
    obtain ⟨-, hq, hn⟩ := mem_names_of_find hfind
    rw [List.inj_on_of_nodup_map hnd hq hp hn]

/-- The names of the productions not visited yet. -/
def unvisited (grammar : Grammar) (visited : List String) : List String :=
  grammar.names.filter fun n => !visited.contains n

theorem length_unvisited_le {visited visited' : List String} (h : visited ⊆ visited') :
    (unvisited grammar visited').length ≤ (unvisited grammar visited).length := by
  unfold unvisited
  refine (List.monotone_filter_right _ fun n hn => ?_).length_le
  simp only [Bool.not_eq_true', List.contains_eq_mem, decide_eq_false_iff_not] at hn ⊢
  exact fun hmem => hn (h hmem)

theorem length_unvisited_nil : (unvisited grammar []).length ≤ grammar.productions.length := by
  unfold unvisited Grammar.names namesOf
  exact Nat.le_trans (List.length_filter_le _ _) (Nat.le_of_eq (List.length_map _))

theorem length_unvisited_cons {visited : List String} {n : String} (hn : n ∈ grammar.names)
    (hv : n ∉ visited) :
    (unvisited grammar (n :: visited)).length < (unvisited grammar visited).length := by
  have hsplit : unvisited grammar (n :: visited) =
      (unvisited grammar visited).filter (· != n) := by
    unfold unvisited
    rw [List.filter_filter]
    refine List.filter_congr fun m _ => ?_
    by_cases hm : m = n <;> simp [hm]
  rw [hsplit, List.length_filter_lt_length_iff_exists]
  exact ⟨n, List.mem_filter.mpr ⟨hn, by simpa using hv⟩, by simp⟩

end

end TabnasBnf
