import TabnasBnf.Ir
import TabnasBnf.Lib.Table

/-!
# The emitted spec

Model of the spec of `rs/src/spec.rs`: rules with their alternates as the engine reads them, field
by field, and the references they name.

* `Json` is `serde_json::Value`; its numbers are integers, the only ones the compiler writes. An
  object is the list of its fields in insertion order, `Fields`.
* A user function acts on what the engine hands it, the type `σ`, and may fail with an `ε`.
-/

namespace TabnasBnf.Wire

/-- `serde_json::Value`. -/
inductive Json where
  | null
  | bool (b : Bool)
  | num (n : Int)
  | str (s : String)
  | arr (items : List Json)
  | obj (fields : List (String × Json))

/-- `Map<String, Value>`. -/
abbrev Fields := List (String × Json)

namespace Json

/-- `as_str`. -/
def asStr : Json → Option String
  | str s => some s
  | _ => none

/-- `as_object`. -/
def asObj : Json → Option Fields
  | obj fields => some fields
  | _ => none

end Json

/-- `AltSpec`: the engine's fields and the mark. -/
structure AltSpec where
  fields : Fields
  m : Option String := none

namespace AltSpec

/-- `get`. -/
def get (a : AltSpec) (key : String) : Option Json := a.fields.lookup key

/-- `set`. -/
def set (a : AltSpec) (key : String) (value : Json) : AltSpec :=
  { a with fields := Table.insert a.fields key value }

/-- `p`. -/
def p (a : AltSpec) : Option String := (a.get "p").bind Json.asStr

/-- `r`. -/
def r (a : AltSpec) : Option String := (a.get "r").bind Json.asStr

/-- `k`. -/
def k (a : AltSpec) : Option Fields := (a.get "k").bind Json.asObj

/-- The references of an `a`. -/
def actionsOf : Option Json → List String
  | some (.str a) => [a]
  | some (.arr list) => list.filterMap Json.asStr
  | _ => []

/-- `actions`. -/
def actions (a : AltSpec) : List String := actionsOf (a.get "a")

/-- The `a` with a reference appended. -/
def appended (a : Option Json) (added : String) : Json :=
  match a with
  | none | some .null => .str added
  | some (.arr list) => .arr (list ++ [.str added])
  | some existing => .arr [existing, .str added]

/-- `append_action`. -/
def appendAction (a : AltSpec) (added : String) : AltSpec :=
  a.set "a" (appended (a.get "a") added)

@[simp] theorem m_appendAction (a : AltSpec) (added : String) : (a.appendAction added).m = a.m :=
  rfl

theorem get_set (a : AltSpec) (key key' : String) (value : Json) :
    (a.set key value).get key' = if key' = key then some value else a.get key' :=
  Table.lookup_insert a.fields key key' value

theorem get_appendAction_of_ne (a : AltSpec) (added : String) {key : String} (h : key ≠ "a") :
    (a.appendAction added).get key = a.get key := by
  rw [appendAction, get_set, if_neg h]

/-- The reference goes to the end of the list. -/
theorem actions_appendAction (a : AltSpec) (added : String) :
    (a.appendAction added).actions = a.actions ++ [added] := by
  rw [actions, appendAction, get_set, if_pos rfl, actions]
  match a.get "a" with
  | none | some .null | some (.bool _) | some (.num _) | some (.str _) | some (.obj _) => rfl
  | some (.arr list) => simp [appended, actionsOf, Json.asStr]

end AltSpec

/-- `RuleSpec`. -/
structure RuleSpec where
  opens : List AltSpec
  close : Option (List AltSpec) := none

/-- `alts`. -/
def RuleSpec.alts (rs : RuleSpec) (phase : String) : List AltSpec :=
  if phase = "open" then rs.opens else rs.close.getD []

/-- A change to the alternates of a phase, through `alts_mut`. -/
def RuleSpec.modifyAlts (rs : RuleSpec) (phase : String) (f : List AltSpec → List AltSpec) :
    RuleSpec :=
  if phase = "open" then { rs with opens := f rs.opens }
  else { rs with close := some (f (rs.close.getD [])) }

/-- `ActionFn`: what it does to the rule and context, and whether it fails. -/
abbrev ActionFn (σ ε : Type) := σ → Except ε Unit × σ

/-- Functions in order, up to the first that fails. -/
def runActions {σ ε : Type} : List (ActionFn σ ε) → ActionFn σ ε
  | [], s => (.ok (), s)
  | f :: fs, s =>
    match f s with
    | (.ok _, s) => runActions fs s
    | (.error e, s) => (.error e, s)

/-- `RefAction`. -/
inductive RefAction (σ ε : Type) where
  | node (init : Bool) (rule : String) (kind : NodeKind) (nterms : Nat)
  | capture (rule : String) (kind : NodeKind)
  | bubble
  | fold (cN : Nat)
  | probeInit
  | probeDecide (disambiguator : String)
  | probePhase (n : Nat)
  | user (f : ActionFn σ ε)
  | phase (fns : List (ActionFn σ ε))

/-- `GrammarSpec`. A rule without a spec is a removal. -/
structure GrammarSpec (σ ε : Type) where
  refs : List (String × RefAction σ ε)
  options : Fields
  rule : List (String × Option RuleSpec)
  metadata : Option Json := none
  clear : Bool := false

/-! ## The compiler's own references -/

/-- `RefRegistry`. -/
structure RefRegistry (σ ε : Type) where
  refs : List (String × RefAction σ ε) := []
  counter : Nat := 0

/-- The name of the compiler's `n`-th reference. -/
def compilerRef (n : Nat) : String := "@bnf_a" ++ toString n

/-- `register`. -/
def RefRegistry.register {σ ε : Type} (reg : RefRegistry σ ε) (action : RefAction σ ε) :
    RefRegistry σ ε :=
  ⟨Table.insert reg.refs (compilerRef reg.counter) action, reg.counter + 1⟩

/-- A spec the compiler made: a rule has one name, and the references are those its registry
handed out, none in builtins mode. -/
structure GrammarSpec.Emitted {σ ε : Type} (spec : GrammarSpec σ ε) : Prop where
  nodup : (spec.rule.map Prod.fst).Nodup
  refs : ∃ actions : List (RefAction σ ε),
    spec.refs = (actions.foldl RefRegistry.register {}).refs

theorem keys_registered {σ ε : Type} (actions : List (RefAction σ ε)) (reg : RefRegistry σ ε)
    (h : ∀ key ∈ reg.refs.map Prod.fst, ∃ n, key = compilerRef n) :
    ∀ key ∈ (actions.foldl RefRegistry.register reg).refs.map Prod.fst,
      ∃ n, key = compilerRef n := by
  induction actions generalizing reg with
  | nil => exact h
  | cons action actions ih =>
    refine ih _ fun key hkey => ?_
    obtain rfl | hkey := Table.mem_keys_insert.mp hkey
    · exact ⟨_, rfl⟩
    · exact h key hkey

theorem GrammarSpec.Emitted.keys {σ ε : Type} {spec : GrammarSpec σ ε} (h : spec.Emitted) :
    ∀ key ∈ spec.refs.map Prod.fst, ∃ n, key = compilerRef n := by
  obtain ⟨actions, hrefs⟩ := h.refs
  rw [hrefs]
  exact keys_registered actions {} fun key hkey => absurd hkey List.not_mem_nil

end TabnasBnf.Wire
