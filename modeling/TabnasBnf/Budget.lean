import TabnasBnf.Lib.Calls
import TabnasBnf.Dispatch
import TabnasBnf.Factor

/-!
# The emit budget

Model of `EmitBudget` (`rs/src/budget.rs`) and of the functions that hold what they enumerate
against it (`rs/src/analysis.rs`, `rs/src/emit.rs`), as programs that call its operations.

* `EmitBudget.exec`: what each operation does. `diag` is `diag_name()`.
* `Budgeted.altPrefixesRaw`, `Budgeted.altPrefixes`, `Budgeted.dispatchPrefixes`: the functions
  of `Dispatch.lean` with every call they make on the budget, in order. A reference's
  alternatives are enumerated once for each length of the path that reaches it (`byLength`), as
  in the code: what is held depends on it.
* `Budgeted.decision`: a decision of the emitter, from the count it remembers to its `restore`.
* `Emission`: the programs an emission is made of. Between its decisions it begins steps, charges
  and fails; what it charges, and after which answers, is left open.
* The tokens of a path are shared in the code and copied here. What the code panics on is an
  error.
-/

namespace TabnasBnf

open Calls

/-- `MAX_EMIT_UNITS`. -/
def maxEmitUnits : Nat := 3500000

/-- `EmitStep`: what a step was doing, for a refusal's wording, and what the author can do. -/
structure EmitStep where
  doing : String
  advice : String
deriving DecidableEq, Repr

/-- `STEP_PROBE`. -/
def stepProbe : EmitStep :=
  ⟨"writing the probe for one of its optional prefixes",
    "Write that optional prefix and what follows it as two alternatives, one with the prefix " ++
      "and one without."⟩

/-- `STEP_TOKEN_SET`. -/
def stepTokenSet : EmitStep :=
  ⟨"listing the members of its token set", "Write fewer character classes that overlap it."⟩

/-- `STEP_TOKEN_CLASS`. -/
def stepTokenClass : EmitStep :=
  ⟨"listing the members of its token class", "Give it fewer alternatives."⟩

/-- `STEP_FIRST`. -/
def stepFirst : EmitStep :=
  ⟨"collecting the tokens it can begin with", "Reduce the tokens it can begin with."⟩

/-- `STEP_FOLLOW`. -/
def stepFollow : EmitStep :=
  ⟨"collecting the tokens that can follow it", "Reduce the tokens that can follow it."⟩

/-- `STEP_PAIRS`. -/
def stepPairs : EmitStep :=
  ⟨"collecting the pairs of tokens that can follow it", "Reduce the tokens that can follow it."⟩

/-- `STEP_ALTERNATES`. -/
def stepAlternates : EmitStep :=
  ⟨"writing its alternates", "Factor what its alternatives share into rules of their own."⟩

/-- `STEP_LOOKAHEAD`. -/
def stepLookahead : EmitStep :=
  ⟨"enumerating the token sequences that tell its alternatives apart",
    "Give its alternatives first tokens that tell them apart, or factor what they begin with " ++
      "into a rule of its own."⟩

/-- `STEP_REMOVE`. -/
def stepRemove : EmitStep :=
  ⟨"writing the rules and tokens it removes", "Remove fewer names."⟩

/-- The steps the emitter begins: one holds paths in place of any of them. -/
def emitSteps : List EmitStep :=
  [stepProbe, stepTokenSet, stepTokenClass, stepFirst, stepFollow, stepPairs, stepAlternates,
    stepRemove]

/-- `Subject`: what a refusal names. -/
inductive Subject where
  | rule (name : String)
  | class (pattern : String)
  | removals (n : Nat)
deriving DecidableEq, Repr

/-- How a refusal words its subject, and the rule it carries. -/
def Subject.words : Subject → String × Option String
  | .rule name => ("rule '" ++ name ++ "'", some name)
  | .class pattern => ("the character class /" ++ pattern ++ "/", none)
  | .removals n =>
    (if n = 1 then "the removal list of 1 name"
      else "the removal list of " ++ toString n ++ " names", none)

/-- `Step`. -/
structure BudgetStep where
  subject : Subject
  sp : Option SrcSpan
  step : EmitStep
  start : Nat
deriving DecidableEq, Repr

/-- `EmitBudget`. -/
structure EmitBudget where
  written : Nat
  held : Nat
  step : BudgetStep
deriving DecidableEq, Repr

namespace EmitBudget

/-- `EmitBudget::new`. -/
def new : EmitBudget := ⟨0, 0, ⟨.rule "", none, stepAlternates, 0⟩⟩

/-- `room`. -/
def room (b : EmitBudget) : Nat := maxEmitUnits - (b.written + b.held)

/-- `refusal`. -/
def refusal (diag : String) (b : EmitBudget) (holding : Bool) : EmitError :=
  let doing := if holding then stepLookahead else b.step.step
  let room := maxEmitUnits - b.step.start
  let count :=
    if holding then
      "hold more than " ++ toString room ++ " units on top of the " ++ toString b.step.start ++
        " already written"
    else
      "add more than " ++ toString room ++ " units to the " ++ toString b.step.start ++
        " already written"
  { message := diag ++ ": " ++ b.step.subject.words.1 ++ " exceeds the emit limit of " ++
      toString maxEmitUnits ++ " units while " ++ doing.doing ++ ", which would " ++ count ++
      ". " ++ doing.advice
    rule := b.step.subject.words.2
    sp := b.step.sp }

/-- `charge`. -/
def charge (diag : String) (n : Nat) (b : EmitBudget) : Except EmitError EmitBudget :=
  if n > b.room then .error (b.refusal diag false) else .ok { b with written := b.written + n }

/-- `hold`. -/
def hold (diag : String) (n : Nat) (b : EmitBudget) : Except EmitError EmitBudget :=
  if n > b.room then .error (b.refusal diag true) else .ok { b with held := b.held + n }

/-- `begin`. -/
def beginStep (subject : Subject) (sp : Option SrcSpan) (step : EmitStep) (b : EmitBudget) :
    EmitBudget :=
  { b with step := ⟨subject, sp, step, b.written⟩ }

end EmitBudget

/-- The units of enumerated paths: 1 and 1 for each token, for each. -/
def pathUnits (paths : List PrefixPath) : Nat := (paths.map fun p => 1 + p.tokens.length).sum

/-- The units of the prefixes a decision keeps. -/
def prefixUnits (prefixes : List (List String)) : Nat :=
  (prefixes.map fun p => 1 + p.length).sum

/-- The operations of the budget. A decision of the emitter reads `held()` as it opens. -/
inductive BudgetOp where
  | begin (subject : Subject) (sp : Option SrcSpan) (step : EmitStep)
  | held
  | opens
  | charge (n : Nat)
  | hold (n : Nat)
  | settle (base : Nat) (paths : List PrefixPath)
  | keep (base n : Nat)
  | restore (base : Nat)
deriving DecidableEq, Repr

/-- What an operation does to the budget. -/
def EmitBudget.exec (diag : String) (op : BudgetOp) (b : EmitBudget) :
    Except EmitError EmitBudget :=
  match op with
  | .begin subject sp step => .ok (b.beginStep subject sp step)
  | .held => .ok b
  | .opens => .ok b
  | .charge n => b.charge diag n
  | .hold n => b.hold diag n
  | .settle base paths => .ok { b with held := base + pathUnits paths }
  | .keep base n => .ok { b with held := base + n }
  | .restore base => .ok { b with held := base }

/-- A program over the budget. -/
abbrev Budgeted (α : Type) := Program BudgetOp EmitBudget EmitError α

/-- A call on the budget. -/
abbrev BudgetCall := Call BudgetOp EmitBudget EmitError

/-- The distinct heads of the paths of an alternative. -/
def pathHeads (paths : List PrefixPath) : List String :=
  (paths.filterMap fun p =>
    match p.tokens with
    | [t] => some t
    | _ => none).eraseDups

/-! ## The enumerations -/

namespace Budgeted

/-- The budget's `held()`. -/
def held : Budgeted Nat := do return (← Program.perform .held).held

/-- The budget's `hold`. -/
def hold (n : Nat) : Budgeted Unit := do let _ ← Program.perform (.hold n)

/-- The budget's `charge`. -/
def charge (n : Nat) : Budgeted Unit := do let _ ← Program.perform (.charge n)

/-- The budget's `settle`. -/
def settle (base : Nat) (paths : List PrefixPath) : Budgeted Unit := do
  let _ ← Program.perform (.settle base paths)

/-- The budget's `keep`. -/
def keep (base n : Nat) : Budgeted Unit := do let _ ← Program.perform (.keep base n)

/-- The budget's `begin`. -/
def beginStep (subject : Subject) (sp : Option SrcSpan) (step : EmitStep) : Budgeted Unit := do
  let _ ← Program.perform (.begin subject sp step)

/-- What a walk over the paths has made of an element: the paths, whether one of them can grow
(`open`), and what the element's alternatives are for each length asked about (`by_length`). -/
structure Walk where
  next : List PrefixPath
  grows : Bool
  byLength : List (Nat × List (List PrefixPath))

/-- `put`. -/
def put (maxK : Nat) (w : Walk) (tokens : List String) (done : Bool) : Budgeted Walk := do
  hold (1 + tokens.length)
  return { w with
    next := w.next ++ [⟨tokens, done⟩]
    grows := w.grows || !done && tokens.length < maxK }

section

variable (grammar : Grammar) (tokens : Tokens) (classSets : List (String × String))

/-- The alternatives of a reference for a path of `held` tokens, enumerated the first time. -/
def subsAt (enter : Nat → List String → (String → Bool) → Sequence → Budgeted (List PrefixPath))
    (maxK : Nat) (visited : List String) (headFilter : String → Bool) (name : String)
    (found : Production) (held : Nat) (w : Walk) : Budgeted (Walk × List (List PrefixPath)) :=
  match w.byLength.lookup held with
  | some subs => return (w, subs)
  | none => do
    let subFilter := if held == 0 then headFilter else fun _ => true
    let subs ← found.alts.mapM' fun sub => enter (maxK - held) (name :: visited) subFilter sub
    return ({ w with byLength := w.byLength ++ [(held, subs)] }, subs)

/-- The loop body of `alt_prefixes_raw` for one path. -/
def extendPath
    (enter : Nat → List String → (String → Bool) → Sequence → Budgeted (List PrefixPath))
    (maxK : Nat) (visited : List String) (headFilter : String → Bool) (el : Element) (w : Walk)
    (p : PrefixPath) : Budgeted Walk :=
  if p.closed maxK then return { w with next := w.next ++ [p] }
  else match addedToken tokens classSets el with
  | some tok =>
    if !p.tokens.isEmpty || headFilter tok then put maxK w (p.tokens ++ [tok]) false else return w
  | none =>
    match el.refName with
    | none => put maxK w p.tokens true
    | some name =>
      if visited.contains name then put maxK w p.tokens true
      else match (grammar.find name).filter fun t => !t.alts.isEmpty with
        | none => put maxK w p.tokens true
        | some found => do
          let (w, subs) ← subsAt enter maxK visited headFilter name found p.tokens.length w
          subs.flatten.foldlM
            (fun w sp => put maxK w (p.tokens ++ sp.tokens) sp.done) w

/-- The loop of `alt_prefixes_raw` over the elements. -/
def extendPaths (extend : Element → Walk → PrefixPath → Budgeted Walk) :
    Sequence → List PrefixPath → Budgeted (List PrefixPath)
  | [], paths => return paths
  | el :: rest, paths => do
    let w ← paths.foldlM (extend el) ⟨[], false, []⟩
    if w.grows then extendPaths extend rest w.next else return w.next

/-- `alt_prefixes_raw`. -/
def altPrefixesRaw :
    Nat → Nat → List String → (String → Bool) → Sequence → Budgeted (List PrefixPath)
  | 0, _, _, _, _ => return []
  | depth + 1, maxK, visited, headFilter, alt => do
    hold 1
    extendPaths
      (extendPath grammar tokens classSets (altPrefixesRaw depth) maxK visited headFilter)
      alt [⟨[], false⟩]

/-- The enumeration of an alternative: no reference is entered twice on the way to another. -/
def pathsOf (maxK : Nat) (headFilter : String → Bool) (alt : Sequence) :
    Budgeted (List PrefixPath) :=
  altPrefixesRaw grammar tokens classSets (grammar.productions.length + 1) maxK [] headFilter alt

/-- `alt_prefixes`. -/
def altPrefixes (maxK : Nat) (alt : Sequence) : Budgeted (List (List String)) := do
  let base ← held
  let raw ← pathsOf grammar tokens classSets maxK (fun _ => true) alt
  let out := distinctPrefixes [] (raw.map PrefixPath.tokens)
  keep base (prefixUnits out)
  return out

/-- The prefixes of a reference's peeks, where they are asked for. -/
def peekPaths (contested : Bool) (alt : Sequence) : Budgeted (List (List String)) :=
  if contested then altPrefixes grammar tokens classSets lookaheadK alt else return []

/-- `enumerate` of `dispatch_prefixes`. -/
def enumerate (maxK : Nat) (headFilter : String → Bool) (alt : Sequence) :
    Budgeted (List PrefixPath) := do
  let base ← held
  let paths ← pathsOf grammar tokens classSets maxK headFilter alt
  settle base paths
  return paths

/-- The paths of an alternative cut at one token: none of an empty one. -/
def onePaths (alt : Sequence) : Budgeted (List PrefixPath) :=
  if alt.isEmpty then return [] else enumerate grammar tokens classSets 1 (fun _ => true) alt

/-- The deep paths of an alternative under its contested heads. -/
def deepPaths (maxK : Nat) (contested : List String) (alt : Sequence) :
    Budgeted (List (List String)) :=
  if contested.isEmpty then return []
  else do
    let paths ← enumerate grammar tokens classSets maxK (contested.contains ·) alt
    return (paths.map PrefixPath.tokens).filter (!·.isEmpty)

/-- The prefixes that were not `seen`, each held as it is kept. -/
def keepPrefixes (seen : List String) : List (List String) → Budgeted (List (List String))
  | [] => return []
  | p :: rest =>
    let key := " ".intercalate p
    if seen.contains key then keepPrefixes seen rest
    else do
      hold (1 + p.length)
      return p :: (← keepPrefixes (key :: seen) rest)

variable (diag : String) (contest : String → String → Bool)

/-- `dispatch_prefixes`. -/
def dispatchPrefixes (maxK : Nat) (exits : List (List String)) (alts : List Sequence) :
    Budgeted (List DispatchPrefixes) := do
  let base ← held
  let one ← alts.mapM' (onePaths grammar tokens classSets)
  let heads := one.map pathHeads
  match heads.zipIdx.mapM fun (hs, i) =>
      contestedHeads contest (heads.eraseIdx i).flatten exits hs with
  | none => Program.fail ⟨diag ++ ": internal — an exit path has no token", none, none⟩
  | some contested => do
    let deep ← (contested.zip alts).mapM' fun (c, alt) =>
      deepPaths grammar tokens classSets maxK c alt
    let out ← one.zipIdx.mapM' fun (paths, i) => do
      let rivals := (deep.eraseIdx i).flatten ++ exits
      let prefixes ← keepPrefixes []
        ((pathHeads paths).flatMap
          (prefixesUnder contest (contested.getD i []) (deep.getD i []) rivals))
      return (⟨prefixes, paths.any fun p => p.tokens.isEmpty && !p.done⟩ : DispatchPrefixes)
    keep base (out.map fun d => prefixUnits d.prefixes).sum
    return out

end

/-! ## The decisions -/

/-- A decision of the emitter: what it holds is freed when `body` has used it. -/
def decision {α : Type} (body : Budgeted α) : Budgeted α := do
  let b ← Program.perform .opens
  let a ← body
  let _ ← Program.perform (.restore b.held)
  return a

end Budgeted

/-- **What an emission is made of**: in any order and after any answers, it begins steps, charges
(each made alternate and committed rule, each entry of a table) and fails, and it decides. The
guards of an entry (`synth_keyword_guards`), the peeks of a reference (`emit_production`) and the
entries of a dispatcher (`emit_production`) are written while their decision holds its paths. The
emitter's own functions, in `EmitCharges.lean`, are of these. -/
inductive Emission (diag : String) (grammar : Grammar) (tokens : Tokens)
    (classSets : List (String × String)) (contest : String → String → Bool) :
    {α : Type} → Budgeted α → Prop
  | pure {α : Type} (a : α) : Emission diag grammar tokens classSets contest (pure a : Budgeted α)
  | fail {α : Type} (e : EmitError) :
    Emission diag grammar tokens classSets contest (Program.fail e : Budgeted α)
  | bind {α β : Type} {p : Budgeted α} {f : α → Budgeted β} :
    Emission diag grammar tokens classSets contest p →
    (∀ a, Emission diag grammar tokens classSets contest (f a)) →
    Emission diag grammar tokens classSets contest (p >>= f)
  | begin (subject : Subject) (sp : Option SrcSpan) {step : EmitStep} :
    step ∈ emitSteps →
    Emission diag grammar tokens classSets contest (Budgeted.beginStep subject sp step)
  | charge (n : Nat) : Emission diag grammar tokens classSets contest (Budgeted.charge n)
  | guards (alt : Sequence) :
    Emission diag grammar tokens classSets contest
      (Budgeted.decision (Budgeted.pathsOf grammar tokens classSets 2 (fun _ => true) alt))
  | peeks {β : Type} (contested : Bool) (alt : Sequence) {write : List (List String) → Budgeted β} :
    (∀ paths, Emission diag grammar tokens classSets contest (write paths)) →
    Emission diag grammar tokens classSets contest
      (Budgeted.decision do write (← Budgeted.peekPaths grammar tokens classSets contested alt))
  | dispatch {β : Type} (exits : List (List String)) (alts : List Sequence)
      {write : List DispatchPrefixes → Budgeted β} :
    (∀ out, Emission diag grammar tokens classSets contest (write out)) →
    Emission diag grammar tokens classSets contest
      (Budgeted.decision do
        write (← Budgeted.dispatchPrefixes grammar tokens classSets diag contest lookaheadK exits
          alts))

end TabnasBnf
