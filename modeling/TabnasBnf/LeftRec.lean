import TabnasBnf.Ir
import TabnasBnf.Lib.Loop
import TabnasBnf.Lib.Names

/-!
# Left-recursion elimination

Model of `eliminate_left_recursion_keeping` (`rs/src/leftrec.rs`) and of `exempt_alias`
(`rs/src/annotate.rs`): nullable sugar in front of a self-reference is split off
(`expandNullableLeftPrefixes`), the productions are ordered (`topoOrderForPaull`), and in that
order the leading references of each to the ones before it are substituted (`substituteEarlier`)
and its own are turned into a repetition (`eliminateDirectLeftRec`).

* `diag` is `diag_name()`.
* The charges count in `Nat`: the additions the code saturates or checks against overflow are
  compared with the limit right away, and no sum below the limit overflows.
* The two depth-first walks carry their stack as the code does (`topoNext`, `tarjanNext`), with
  as much fuel as there are names and leading references.
* `paull` keeps the productions before index `i` and from it in two lists, since the loop over
  `i` reads the former and writes the one at `i` only.
* The rewrite sources, on which no decision here depends, are in `RewriteSources.lean`.
-/

namespace TabnasBnf

/-- `MAX_LEFT_RECURSION_EXPANSION`. -/
def maxLeftRecursionExpansion : Nat := 512

/-- `MAX_LEFT_RECURSION_ELEMENTS`. -/
def maxLeftRecursionElements : Nat := 131072

/-! ## Sizes and charges -/

/-- What an element itself counts. -/
def Element.ownSize : Element → Nat
  | .group alts _ => 1 + alts.length
  | _ => 1

/-- What the walk of `deep_size` pushes after an element. -/
def Element.nested : Element → List Element
  | .opt e _ | .star e _ _ | .plus e _ | .rep _ _ e _ => [e]
  | .group alts _ => alts.flatten
  | _ => []

/-- The walk of `deep_size`, the top of its stack first. Every element counts at least 1, so a
walk of `cap` elements has reached the cap. -/
def deepSizeWalk (cap : Nat) : Nat → List Element → Nat → Nat
  | _, [], size => size
  | 0, _ :: _, _ => cap
  | fuel + 1, el :: stack, size =>
    let size := size + el.ownSize
    if size ≥ cap then cap
    else deepSizeWalk cap fuel (el.nested.reverse ++ stack) size

/-- `deep_size`. -/
def deepSize (elements : List Element) (cap : Nat) : Nat :=
  deepSizeWalk cap cap elements.reverse 0

/-- `usize::MAX`. -/
def usizeMax : Nat := 2 ^ 64 - 1

/-- The alternative begins with a reference to `name`. -/
def leads (name : String) : Sequence → Bool
  | el :: _ => el.isRefTo name
  | [] => false

section

variable (diag : String)

/-- `charge_substitution`. -/
def chargeSubstitution (target source : Production) (gained : Nat) : Except EmitError Nat :=
  let led := (target.alts.filter (leads source.name)).length
  let gain := led * (source.alts.length - 1)
  if gain ≤ maxLeftRecursionExpansion - gained then .ok (gained + gain)
  else .error (.at (diag ++ ": rule '" ++ target.name ++
    "' exceeds the left-recursion expansion limit of " ++ toString maxLeftRecursionExpansion ++
    " alternatives while inlining '" ++ source.name ++ "', which begins " ++ toString led ++
    " of its alternatives and has " ++ toString source.alts.length ++ " of its own. Factor '" ++
    source.name ++ "' out of the alternatives it begins.") target.name target.sp)

/-- The loop of `charge_elements` over the alternatives led by `source`: what they gain, or
`none` when it passes `remaining`. -/
def chargeLed (source : Production) (held remaining : Nat) : List Sequence → Nat → Option Nat
  | [], gain => some gain
  | alt :: rest, gain =>
    let m := source.alts.length
    let tail := if m > 1 then deepSize alt.tail (remaining - gain + 2) else 0
    let written := m * (1 + tail) + held
    let gain := gain + (written - (2 + tail))
    if gain > remaining then none else chargeLed source held remaining rest gain

/-- `charge_elements`. -/
def chargeElements (target source : Production) (added : Nat) : Except EmitError Nat :=
  let remaining := maxLeftRecursionElements - added
  let ledAlts := target.alts.filter (leads source.name)
  let refuse := Except.error (EmitError.at (diag ++ ": rule '" ++ target.name ++
    "' exceeds the left-recursion element limit of " ++ toString maxLeftRecursionElements ++
    " elements while inlining '" ++ source.name ++ "', which begins " ++
    toString ledAlts.length ++ " of its alternatives and would add more than " ++
    toString remaining ++ " elements to the " ++ toString added ++
    " already added to the grammar. Factor '" ++ source.name ++
    "' out of the alternatives it begins.") target.name target.sp)
  let held := deepSize source.alts.flatten (remaining + 2)
  if !ledAlts.isEmpty && held > remaining + 1 then refuse
  else match chargeLed source held remaining ledAlts 0 with
    | some gain => .ok (added + gain)
    | none => refuse

/-- `charge_expansion`. -/
def chargeExpansion (prod : Production) (alt present : Sequence) (added : Nat) :
    Except EmitError Nat :=
  let remaining := maxLeftRecursionElements - added
  let lead := deepSize (alt.take 1) usizeMax
  let cap := remaining + lead + 2
  let written := deepSize (present ++ alt.tail) cap
  let gain := written + 1 - lead
  if gain > remaining then
    .error (.at (diag ++ ": rule '" ++ prod.name ++
      "' exceeds the left-recursion element limit of " ++ toString maxLeftRecursionElements ++
      " elements while splitting the elements that can match nothing before '" ++ prod.name ++
      "' in one of its alternatives, which would add more than " ++ toString remaining ++
      " elements to the " ++ toString added ++
      " already added to the grammar. Write that alternative with fewer elements that can match " ++
      "nothing before '" ++ prod.name ++ "'.") prod.name prod.sp)
  else .ok (added + gain)

/-! ## Hidden left recursion -/

/-- `nullable_sugar_present`: the sequence for the branch where the sugar does match. -/
def nullableSugarPresent (el : Element) : Option Sequence :=
  match el with
  | .opt inner _ => some [inner]
  | .star inner _ _ => some [inner, el]
  | .rep 0 max inner _ =>
    match max with
    | some 0 => none
    | none => some [inner, el]
    | some 1 => some [inner]
    | some (max + 1) => some [inner, .rep 0 (some max) inner none]
  | _ => none

/-- The loop of `is_hidden_left_recursive`. -/
def isHiddenFrom (name : String) : Bool → Sequence → Bool
  | _, [] => false
  | sawSugar, el :: rest =>
    match el.refName with
    | some n => sawSugar && n == name
    | none => if (nullableSugarPresent el).isNone then false else isHiddenFrom name true rest

/-- `is_hidden_left_recursive`. -/
def isHiddenLeftRecursive (alt : Sequence) (name : String) : Bool := isHiddenFrom name false alt

/-- The loop of `expand_nullable_left_prefixes` over the hidden recursions of one production. The
`expect` on the leading element's sugar is the last branch, which no hidden recursion takes. -/
def splitHidden (p : Production) :
    Nat → List Sequence → Nat → Except EmitError (List Sequence × Nat)
  | 0, alts, added => .ok (alts, added)
  | guard + 1, alts, added =>
    match alts.span fun alt => !isHiddenLeftRecursive alt p.name with
    | (before, (el :: rest) :: after) =>
      match nullableSugarPresent el with
      | some present => do
        let added ← chargeExpansion diag p (el :: rest) present added
        splitHidden p guard (before ++ [present ++ rest, rest] ++ after) added
      | none => .ok (alts, added)
    | _ => .ok (alts, added)

/-- `expand_nullable_left_prefixes`. -/
def expandNullableLeftPrefixes : List Production → Nat → Except EmitError (List Production × Nat)
  | [], added => .ok ([], added)
  | p :: rest, added => do
    let guard := (p.alts.map List.length).sum + 1
    let (alts, added) ← splitHidden diag p guard p.alts added
    let (rest, added) ← expandNullableLeftPrefixes rest added
    return ({ p with alts := alts } :: rest, added)

end

/-! ## Leading references -/

/-- `by_name.get`: in a map collected from the productions, the last one of a name. -/
def byName (prods : List Production) (name : String) : Option Production :=
  prods.reverse.find? fun p => p.name == name

/-- The references to productions that begin alternatives of `p`. -/
def leadingRefs (prods : List Production) (p : Production) : List String :=
  (p.alts.filterMap fun alt => alt.head?.bind Element.refName).filter fun n =>
    (byName prods n).isSome

/-- `Step` of `topo_order_for_paull`. -/
inductive TopoStep where
  | enter (name : String)
  | exit (name : String)

/-- The state of `visit`: its stack, top first, the names whose colour is not 0, and the order so
far. -/
structure Topo where
  steps : List TopoStep
  seen : List String
  order : List Production

/-- The loop body of `visit`. -/
def topoNext (prods : List Production) (st : Topo) : Option Topo :=
  match st.steps with
  | [] => none
  | .enter name :: steps =>
    if name ∈ st.seen then some { st with steps := steps }
    else match byName prods name with
      | some p => some { st with
          steps := (leadingRefs prods p).map .enter ++ .exit name :: steps,
          seen := name :: st.seen }
      | none => some { st with steps := steps, seen := name :: st.seen }
  | .exit name :: steps =>
    some { st with steps := steps, order := st.order ++ (byName prods name).toList }

/-- More than the pops one `visit` makes: one entry and one exit a name, one entry a leading
reference. -/
def topoFuel (prods : List Production) : Nat :=
  1 + (prods.map fun p => p.alts.length + 1).sum

/-- `visit` on each name in turn. -/
def topoVisit (prods : List Production) : List String → Topo → Topo
  | [], st => st
  | name :: names, st =>
    topoVisit prods names
      (Loop.run (topoNext prods) (topoFuel prods) { st with steps := [.enter name] })

/-- `topo_order_for_paull`. -/
def topoOrderForPaull (prods : List Production) : List Production :=
  (topoVisit prods (namesOf prods) ⟨[], [], []⟩).order

/-- `Frame` of `find_leading_ref_cycle_members`, with the targets from `next` on. -/
structure Frame where
  name : String
  targets : List String

/-- `State` of `find_leading_ref_cycle_members` and the stack of frames, top first. `on_stack` is
the set of the names on `stack`. The newest entry of an association list counts. -/
structure Tarjan where
  index : Nat
  stack : List String
  indices : List (String × Nat)
  lowlinks : List (String × Nat)
  cyclic : List String
  frames : List Frame

/-- `open_frame`, pushing the frame. -/
def Tarjan.openFrame (prods : List Production) (name : String) (st : Tarjan) : Tarjan where
  index := st.index + 1
  stack := name :: st.stack
  indices := (name, st.index) :: st.indices
  lowlinks := (name, st.index) :: st.lowlinks
  cyclic := st.cyclic
  frames := ⟨name, ((byName prods name).map (leadingRefs prods)).getD []⟩ :: st.frames

/-- `st.lowlinks[&name]`. -/
def Tarjan.low (st : Tarjan) (name : String) : Nat := (st.lowlinks.lookup name).getD 0

/-- `st.indices[&name]`. -/
def Tarjan.idx (st : Tarjan) (name : String) : Nat := (st.indices.lookup name).getD 0

/-- Whether a popped component is a cycle. -/
def isCycle (prods : List Production) (scc : List String) : Bool :=
  match scc with
  | [] => false
  | [n] => match byName prods n with
    | some p => (leadingRefs prods p).contains n
    | none => false
  | _ => true

/-- Pop the component of `name`, if `name` is its root. -/
def Tarjan.popComponent (prods : List Production) (name : String) (st : Tarjan) : Tarjan :=
  if st.low name = st.idx name then
    let scc := st.stack.takeWhile (· != name) ++ [name]
    { st with
      stack := (st.stack.dropWhile (· != name)).tail
      cyclic := if isCycle prods scc then st.cyclic ++ scc else st.cyclic }
  else st

/-- The loop body of `strong_connect`. -/
def tarjanNext (prods : List Production) (st : Tarjan) : Option Tarjan :=
  match st.frames with
  | [] => none
  | ⟨name, target :: targets⟩ :: frames =>
    let st := { st with frames := ⟨name, targets⟩ :: frames }
    if (st.indices.lookup target).isNone then some (st.openFrame prods target)
    else if target ∈ st.stack then
      some { st with lowlinks := (name, min (st.low name) (st.idx target)) :: st.lowlinks }
    else some st
  | ⟨name, []⟩ :: frames =>
    let st := { st with frames := frames }.popComponent prods name
    match frames with
    | parent :: _ =>
      some { st with lowlinks := (parent.name, min (st.low parent.name) (st.low name)) ::
        st.lowlinks }
    | [] => some st

/-- `strong_connect` on each name not indexed yet. -/
def tarjanVisit (prods : List Production) : List Production → Tarjan → Tarjan
  | [], st => st
  | p :: rest, st =>
    tarjanVisit prods rest <|
      if (st.indices.lookup p.name).isNone then
        Loop.run (tarjanNext prods) (topoFuel prods) (st.openFrame prods p.name)
      else st

/-- `find_leading_ref_cycle_members`. -/
def findLeadingRefCycleMembers (prods : List Production) : List String :=
  (tarjanVisit prods prods ⟨0, [], [], [], [], []⟩).cyclic

/-- `exempt_alias`. -/
def exemptAlias (p : Production) (cyclic : List String) : Bool :=
  match p.alts with
  | [[el]] => match el.refName with
    | some name => !cyclic.contains p.name && !cyclic.contains name
    | none => false
  | _ => false

/-! ## Substitution -/

/-- `has_leading_ref_to`. -/
def hasLeadingRefTo (prod : Production) (name : String) : Bool := prod.alts.any (leads name)

/-- `substitute_leading_ref`. -/
def substituteLeadingRef (target source : Production) : Production :=
  target.rebuilt <| target.alts.flatMap fun alt =>
    if leads source.name alt then source.alts.map (· ++ alt.tail) else [alt]

/-- `substitute_leading_ref_by_token`. -/
def substituteLeadingRefByToken (target : Production) (className : String) : Production :=
  target.rebuilt <| target.alts.map fun alt =>
    if leads className alt then .token ("#" ++ className) none :: alt.tail else alt

/-- The name `fresh_debt_counter` tries at `i`. -/
def debtCounterName (base : String) (i : Nat) : String :=
  if i = 0 then base else base ++ "_" ++ toString i

/-- `fresh_debt_counter`. -/
def freshDebtCounter (ruleName : String) (used : List String) : String :=
  let base := "debt_" ++ String.ofList (ruleName.toList.map fun c =>
    if c.isAlphanum || c == '_' then c else '_')
  debtCounterName base (Names.freshIndex (debtCounterName base) used 0)

/-- `seeds_reference_self`. -/
def seedsReferenceSelf (seeds : List Sequence) (name : String) : Bool :=
  (refsInAlts seeds).contains name

/-- The element a list of alternatives is written as: the one element of one alternative, or a
group. -/
def asElement : List Sequence → Element
  | [[el]] => el
  | alts => .group alts none

section

variable (diag : String)

/-- `eliminate_direct_left_rec`, with the debt counters handed out so far. -/
def eliminateDirectLeftRec (prod : Production) (debtNames : List String) :
    Except EmitError (Production × List String) :=
  let recursive := (prod.alts.filter (leads prod.name)).map List.tail
  let seeds := prod.alts.filter fun alt => !leads prod.name alt
  let nonTrivial := recursive.filter fun tail => !tail.isEmpty
  if nonTrivial.isEmpty then .ok (prod.rebuilt seeds, debtNames)
  else if seeds.isEmpty then
    .error (.at (diag ++ ": rule '" ++ prod.name ++
      "' is purely left-recursive (no seed alternative); cannot eliminate") prod.name prod.sp)
  else
    let seedElement := asElement seeds
    let tailInner := asElement nonTrivial
    let (debtGuard, debtNames) :=
      if seedsReferenceSelf seeds prod.name then
        let counter := freshDebtCounter prod.name debtNames
        (some counter, debtNames ++ [counter])
      else (none, debtNames)
    .ok (prod.rebuilt [[seedElement, .star tailInner debtGuard none]], debtNames)

/-! ## Paull's algorithm -/

/-- What the substitution loop threads: the production being rewritten, what it has gained and
what the grammar has. -/
structure Substitution where
  target : Production
  gained : Nat
  added : Nat
  changed : Bool

/-- One pass over the productions before the target. -/
def substitutePass (keep : List String) :
    List Production → Substitution → Except EmitError Substitution
  | [], st => .ok st
  | source :: rest, st =>
    if !hasLeadingRefTo st.target source.name then substitutePass keep rest st
    else if keep.contains source.name then
      substitutePass keep rest { st with
        target := substituteLeadingRefByToken st.target source.name, changed := true }
    else do
      let gained ← chargeSubstitution diag st.target source st.gained
      let added ← chargeElements diag st.target source st.added
      substitutePass keep rest ⟨substituteLeadingRef st.target source, gained, added, true⟩

/-- The passes over the productions before the target, until one changes nothing. -/
def substituteEarlier (keep : List String) (earlier : List Production) :
    Nat → Substitution → Except EmitError Substitution
  | 0, st => .ok st
  | guard + 1, st => do
    let st ← substitutePass diag keep earlier { st with changed := false }
    if st.changed then substituteEarlier keep earlier guard st else return st

/-- The substitution of one production, which pure aliases outside every cycle are exempt
from: the production and what the grammar has gained. -/
def substituteInto (keep cyclic : List String) (earlier : List Production) (guard : Nat)
    (p : Production) (added : Nat) : Except EmitError (Production × Nat) :=
  if exemptAlias p cyclic then .ok (p, added)
  else do
    let st ← substituteEarlier diag keep earlier guard ⟨p, 0, added, false⟩
    return (st.target, st.added)

/-- The main loop: the productions already processed, and the ones to come. -/
def paull (keep cyclic : List String) (guard : Nat) :
    List Production → List Production → Nat → List String → Except EmitError (List Production)
  | done, [], _, _ => .ok done
  | done, p :: rest, added, debtNames => do
    let (p, added) ← substituteInto diag keep cyclic done guard p added
    let (p, debtNames) ← eliminateDirectLeftRec diag p debtNames
    paull keep cyclic guard (done ++ [p]) rest added debtNames

end

/-- The slots of the restored order: a repeated name keeps its first place and its last
production. -/
def slotsOf (prods : List Production) : List Production :=
  prods.foldl (fun slots p =>
    if p.name ∈ namesOf slots then slots.map fun q => if q.name = p.name then p else q
    else slots ++ [p]) []

/-- Take the slots in the order of `names`, then what is left. -/
def takeSlots : List String → List Production → List Production
  | [], slots => slots
  | n :: names, slots =>
    (slots.find? (·.name == n)).toList ++ takeSlots names (slots.filter (·.name != n))

/-- `eliminate_left_recursion_keeping`. -/
def eliminateLeftRecursionKeeping (diag : String) (grammar : Grammar) (keep : List String) :
    Except EmitError Grammar := do
  let copies := grammar.productions.map fun p => p.rebuilt p.alts
  let (expanded, added) ← expandNullableLeftPrefixes diag copies 0
  let prods := topoOrderForPaull expanded
  let cyclic := findLeadingRefCycleMembers prods
  let done ← paull diag keep cyclic (prods.length + 1) [] prods added []
  return { productions := takeSlots grammar.names (slotsOf done) }

/-- `eliminate_left_recursion`. -/
def eliminateLeftRecursion (diag : String) (grammar : Grammar) : Except EmitError Grammar :=
  eliminateLeftRecursionKeeping diag grammar []

end TabnasBnf
