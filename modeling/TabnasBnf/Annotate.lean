import TabnasBnf.Lib.Table
import TabnasBnf.Lib.Walk
import TabnasBnf.LeftRec

/-!
# Value annotations

Model of `rs/src/annotate.rs`: `plan_value_annotations`, which checks the annotations against the
grammar as written and predicts which parts nest, and `plan_array_helpers`, which finds the helpers
that fill an annotated array.

* `reaches_annotated` keeps a stack of its own: it is a `Walk` over elements. `walk` and
  `yields_elements` call themselves for one reference after the other; they are walks over names,
  which meet them in the same order.
* An `IndexMap` that is written twice under one name keeps its place, as `Table.insert` does.
-/

namespace TabnasBnf

/-! ## Elements -/

mutual

/-- The elements an element is made of. -/
def Element.count : Element → Nat
  | .opt e _ | .star e _ _ | .plus e _ | .rep _ _ e _ => e.count + 1
  | .group alts _ => countInAlts alts + 1
  | .term .. | .ref .. | .token .. | .prose .. | .regex .. => 1

def countIn : Sequence → Nat
  | [] => 0
  | el :: rest => el.count + countIn rest

def countInAlts : List Sequence → Nat
  | [] => 0
  | alt :: rest => countIn alt + countInAlts rest

end

/-- `pushes_value`. -/
def pushesValue : Element → Bool
  | .term .. | .regex .. | .token .. | .prose .. => false
  | _ => true

/-- `collects_values`. -/
def collectsValues : Element → Bool
  | .star .. | .plus .. | .opt .. | .rep .. => true
  | _ => false

section

variable (prods : List Production)

/-! ## What an element reaches -/

/-- The loop body of `reaches_annotated`. -/
def reachesMove : Element → Walk.Move Element String String
  | .ref name _ _ =>
    match byName prods name with
    | none => .into []
    | some target =>
      if target.value.isSome then .found target.name
      else .enter target.name target.alts.flatten
  | el => .into el.nested

/-- The productions a walk may enter. -/
def walkEntries : List (String × List Element) := prods.map fun p => (p.name, p.alts.flatten)

/-- `reaches_annotated`, with nothing seen. -/
def reachesAnnotated (el : Element) : Option String :=
  (Walk.walk (reachesMove prods) Element.count (walkEntries prods) [] [el]).answer

mutual

/-- `hidden_annotated`. -/
def hiddenAnnotated : Element → Option String
  | .ref name debt sp =>
    match byName prods name with
    | none => none
    | some target =>
      if target.value.isSome then none else reachesAnnotated prods (.ref name debt sp)
  | .opt inner _ | .star inner _ _ | .plus inner _ | .rep _ _ inner _ => hiddenAnnotated inner
  | .group alts _ => hiddenInAlts alts
  | .term .. | .token .. | .prose .. | .regex .. => none

def hiddenIn : Sequence → Option String
  | [] => none
  | el :: rest => (hiddenAnnotated el).orElse fun _ => hiddenIn rest

def hiddenInAlts : List Sequence → Option String
  | [] => none
  | alt :: rest => (hiddenIn alt).orElse fun _ => hiddenInAlts rest

end

/-- The loop of `resolve_leading_fold`. The names seen are distinct, so the productions bound it. -/
def leadingFold : Nat → List String → Option Production → Bool × Option String
  | _, _, none => (true, none)
  | 0, _, some _ => (false, none)
  | fuel + 1, seen, some p =>
    if seen.contains p.name then (false, none)
    else if p.value.isSome then (false, some p.name)
    else
      match p.alts with
      | [[el]] =>
        if !pushesValue el then (false, none)
        else
          match el.refName with
          | none => (true, none)
          | some next => leadingFold fuel (seen ++ [p.name]) (byName prods next)
      | _ => (false, none)

/-- `resolve_leading_fold`. -/
def resolveLeadingFold (name : String) : Bool × Option String :=
  leadingFold prods (prods.length + 1) [] (byName prods name)

end

/-! ## The checks -/

/-- `ValuePlan`. -/
structure ValuePlan where
  plan : List (String × List Bool) := []
  collect : List (String × List Bool) := []
deriving DecidableEq, Repr

/-- `SRC_FIELD`. -/
def srcField : String := "src"

/-- The letter that makes a word plural. -/
def plural (n : Nat) : String := if n = 1 then "" else "s"

section

variable (diag : String)

/-- The refusal of a rule that begins with one folded into it. -/
def foldRefusal (prod : Production) (firstName hit : String) : EmitError :=
  .at (diag ++ ": rule '" ++ prod.name ++ "' begins with '" ++ firstName ++ "', and '" ++ hit ++
    "' is folded into '" ++ prod.name ++ "' by left-recursion elimination — which erases the " ++
    "value '" ++ hit ++ "' is annotated to build, so nothing would produce it. Put a literal " ++
    "before '" ++ firstName ++ "', or remove the annotation on '" ++ hit ++ "'.") prod.name prod.sp

/-- No alternative begins with a reference that an annotated rule is folded by. -/
def checkLeadingFolds (prods : List Production) (cyclic : List String) : Except EmitError Unit :=
  prods.forM fun prod =>
    if exemptAlias prod cyclic then .ok ()
    else prod.alts.forM fun alt =>
      match alt.head?.bind Element.refName with
      | none => .ok ()
      | some firstName =>
        match (resolveLeadingFold prods firstName).2 with
        | none => .ok ()
        | some hit => .error (foldRefusal diag prod firstName hit)

/-- The loop over the members, with those seen. -/
def checkMembers (prod : Production) : List String → List String → Except EmitError Unit
  | _, [] => .ok ()
  | seen, m :: rest =>
    if m.isEmpty then .error (.at (diag ++ ": rule '" ++ prod.name ++
      "' has a value annotation naming a member that is not a name (\"\"). Every member of an " ++
      "object is named by a non-empty string.") prod.name prod.sp)
    else if seen.contains m then .error (.at (diag ++ ": rule '" ++ prod.name ++
      "' names the member '" ++ m ++ "' twice. Each member is a separate key, so the second " ++
      "part would overwrite the first. Give them different names.") prod.name prod.sp)
    else if m == srcField then .error (.at (diag ++ ": rule '" ++ prod.name ++
      "' names a member '" ++ srcField ++ "'. That name is how a value is told apart from a " ++
      "parse-tree node, so a value carrying it is mistaken for a node and dropped wherever an " ++
      "ordinary rule captures this one. Name the member something else.") prod.name prod.sp)
    else checkMembers prod (seen ++ [m]) rest

/-- The body is no prose, which would be dropped. -/
def checkBody (prod : Production) (alt : Sequence) : Except EmitError Unit :=
  match alt with
  | [.prose text _] => .error (.at (diag ++ ": rule '" ++ prod.name ++
      "' has a value annotation, but its body is prose ('<" ++ text ++ ">'), which describes a " ++
      "built-in token rather than defining a rule — the rule is dropped, so nothing would " ++
      "build the value. Remove the annotation.") prod.name prod.sp)
  | _ => .ok ()

/-- An array names nothing, an object every part. -/
def checkNamed (prod : Production) (v : ValueAnnotation) (parts : Nat) : Except EmitError Unit :=
  let named := v.members.length
  if v.kind == "array" then
    if v.members.isEmpty then .ok ()
    else .error (.at (diag ++ ": rule '" ++ prod.name ++ "' builds an array and names " ++
      toString named ++ " member" ++ plural named ++ ". An array's parts are positional and " ++
      "are not named; annotate it as an object to name them.") prod.name prod.sp)
  else if named == parts then .ok ()
  else .error (.at (diag ++ ": rule '" ++ prod.name ++ "' names " ++ toString named ++ " member" ++
    plural named ++ " but has " ++ toString parts ++ " part" ++
    (if parts = 1 then " that produces" else "s that produce") ++ " a value. A value annotation " ++
    "names one member per part that produces a value; a literal produces no value and is not a " ++
    "member.") prod.name prod.sp)

variable (prods : List Production) (cyclic : List String)

/-- The leading reference is folded into one part. -/
def checkFirst (prod : Production) (alt : Sequence) : Except EmitError Unit :=
  match alt.head?.bind Element.refName with
  | none => .ok ()
  | some firstName =>
    if exemptAlias prod cyclic || (resolveLeadingFold prods firstName).1 then .ok ()
    else .error (.at (diag ++ ": rule '" ++ prod.name ++ "' names '" ++ firstName ++
      "' as its first member, but '" ++ firstName ++ "' is folded into this rule by " ++
      "left-recursion elimination and its body is not a single part, so the member would not " ++
      "cover what the author wrote. Give '" ++ firstName ++ "' a body that is one part (a " ++
      "reference, a repetition or a group), or put a literal before it.") prod.name prod.sp)

/-- A part that refers to an annotated rule itself. -/
def nests (el : Element) : Bool :=
  (el.refName.bind (byName prods)).any fun p => p.value.isSome

/-- The rule whose value a part taken as text would lose. -/
def lostValue (prod : Production) (v : ValueAnnotation) (el : Element) : Option String :=
  match reachesAnnotated prods el with
  | none => none
  | some hit =>
    if v.kind == "array" && collectsValues el && hit != prod.name then hiddenAnnotated prods el
    else some hit

/-- The refusal of a part that is taken as text. -/
def textRefusal (prod : Production) (v : ValueAnnotation) (i : Nat) (hit : String) : EmitError :=
  let which := if v.kind == "array" then "element " ++ toString (i + 1)
    else "member '" ++ v.members.getD i "" ++ "'"
  if hit == prod.name then .at (diag ++ ": rule '" ++ prod.name ++ "' takes " ++ which ++
    " as source text, but that part reaches '" ++ prod.name ++ "' itself, which builds a value " ++
    "— a rule that builds a value contributes no text to the part above it, so a recursive " ++
    "rule cannot take its own repetition as text. Annotate the rule the recursion pushes " ++
    "instead.") prod.name prod.sp
  else .at (diag ++ ": rule '" ++ prod.name ++ "' takes " ++ which ++ " as source text, but '" ++
    hit ++ "' is reached from it and builds a value of its own — a rule that builds a value " ++
    "contributes no text to the part above it, so the member would be missing '" ++ hit ++
    "'s match, or empty. Make that part '" ++ hit ++ "' itself so it nests, or remove the " ++
    "annotation on '" ++ hit ++ "'.") prod.name prod.sp

/-- The parts that do not nest lose no value. -/
def checkTexts (prod : Production) (v : ValueAnnotation) (parts : List Element) :
    Except EmitError Unit :=
  parts.zipIdx.forM fun x =>
    if nests prods x.1 then .ok ()
    else
      match lostValue prods prod v x.1 with
      | none => .ok ()
      | some hit => .error (textRefusal diag prod v x.2 hit)

/-- The parts of an alternative: what pushes. -/
def partsOf (alt : Sequence) : List Element := alt.filter pushesValue

/-- The checks of one annotated production. -/
def checkAnnotation (prod : Production) (v : ValueAnnotation) : Except EmitError Unit := do
  if v.kind != "object" && v.kind != "array" then
    throw (.at (diag ++ ": rule '" ++ prod.name ++ "' has a value annotation of unknown kind '" ++
      v.kind ++ "'. A rule builds an 'object' or an 'array'.") prod.name prod.sp)
  match prod.alts with
  | [alt] => do
    checkMembers diag prod [] v.members
    checkBody diag prod alt
    checkNamed diag prod v (partsOf alt).length
    checkFirst diag prods cyclic prod alt
    checkTexts diag prods prod v (partsOf alt)
  | alts => throw (.at (diag ++ ": rule '" ++ prod.name ++ "' has a value annotation and " ++
      toString alts.length ++ " alternatives. A value annotation names the parts of ONE " ++
      "alternative; with more than one it is ambiguous which alternative's parts are named. " ++
      "Split the rule, or annotate the alternatives' own rules.") prod.name prod.sp)

/-- What is planned for an annotated production that passed. -/
def ValuePlan.add (out : ValuePlan) (prod : Production) (v : ValueAnnotation) : ValuePlan :=
  let parts := partsOf (prod.alts.headD [])
  { plan := Table.insert out.plan prod.name (parts.map (nests prods))
    collect :=
      if v.kind == "array" then Table.insert out.collect prod.name (parts.map collectsValues)
      else out.collect }

/-- The loop body of `plan_value_annotations`. -/
def planProduction (out : ValuePlan) (prod : Production) : Except EmitError ValuePlan :=
  match prod.value with
  | none => .ok out
  | some v => do
    checkAnnotation diag prods cyclic prod v
    return out.add prods prod v

end

/-- `plan_value_annotations`. -/
def planValueAnnotations (diag : String) (grammar : Grammar) : Except EmitError ValuePlan :=
  let prods := grammar.productions
  if !prods.any fun p => p.value.isSome then .ok {}
  else do
    let cyclic := findLeadingRefCycleMembers prods
    checkLeadingFolds diag prods cyclic
    prods.foldlM (planProduction diag prods cyclic) {}

/-! ## The helpers of an array -/

section

variable (prods : List Production)

/-- The references of a production, in order. -/
def refNames (p : Production) : List String := p.alts.flatten.filterMap Element.refName

/-- `walk`, at one name: only a helper is entered. -/
def helperMove (name : String) : Walk.Move String String Unit :=
  match byName prods name with
  | none => .into []
  | some prod => if prod.nodeKind == .helper then .enter name (refNames prod) else .into []

/-- `yields_elements`, at one reference: what is no helper becomes an element. -/
def yieldsMove (name : String) : Walk.Move String String Unit :=
  match byName prods name with
  | none => .found ()
  | some target => if target.nodeKind == .helper then .enter name (refNames target) else .found ()

/-- The productions a walk over names may enter. -/
def nameEntries : List (String × List String) := prods.map fun p => (p.name, refNames p)

/-- `yields_elements`, with nothing seen. -/
def yieldsElements (name : String) : Bool :=
  match byName prods name with
  | none => false
  | some prod =>
    (Walk.walk (yieldsMove prods) (fun _ => 1) (nameEntries prods) [name] (refNames prod)).answer.isSome

/-- `walk`: the helpers, with those that the name leads to. -/
def walkHelpers (helpers : List String) (name : String) : List String :=
  (Walk.walk (helperMove prods) (fun _ => 1) (nameEntries prods) helpers [name]).seen

/-- The references of an alternative whose part collects elements. -/
def collecting (sugar : List Bool) (alt : Sequence) : List String :=
  ((alt.filterMap Element.refName).zipIdx.filter fun x =>
    sugar.getD x.2 false && yieldsElements prods x.1).map Prod.fst

/-- Where the walks of `plan_array_helpers` begin. -/
def arraySeeds (collect : List (String × List Bool)) : List String :=
  prods.flatMap fun prod =>
    if prod.value.map ValueAnnotation.kind != some "array" then []
    else
      match collect.lookup prod.originOf with
      | none => []
      | some sugar => prod.alts.flatMap (collecting prods sugar)

/-- `plan_array_helpers`. -/
def planArrayHelpers (grammar : Grammar) (collect : List (String × List Bool)) : List String :=
  (arraySeeds grammar.productions collect).foldl (walkHelpers grammar.productions) []

end

end TabnasBnf
