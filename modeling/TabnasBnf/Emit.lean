import TabnasBnf.Dispatch
import TabnasBnf.Factor
import TabnasBnf.SuffixDebt
import TabnasBnf.TokenClass

/-!
# Emission

Model of the `Emitter` (`rs/src/emit.rs`): every production of the desugared grammar becomes one or
more rules of alternates.

* An alternate holds what the engine matches and descends by: the tokens `s`, how many of them `b`
  pushes back, the rule it pushes `p` or continues as `r`, its condition `c` and the counters `n` it
  sets. The tree-building actions and their configuration (`a`, `k`), the tag `g` and the mark `m`
  are left out: no function here reads them.
* The code joins the tokens of `s` with spaces, which no token name holds; here they are a list,
  empty for no `s`.
* `ContestCtx` answers about the characters tokens cover; its answers are a structure.
* The charges only refuse, and are left out; what the code panics on is an error here.
-/

namespace TabnasBnf

open Saturate

/-- `LOOP_COUNTER`. -/
def loopCounter : String := "rep"

/-- A condition of an alternate. -/
inductive Cond where
  /-- `{ n.<counter>: 0 }`. -/
  | zero (counter : String)
  /-- The probe dispatcher is in this phase. -/
  | probePhase (phase : Nat)
deriving DecidableEq, Repr

/-- `AltSpec`. -/
structure AltSpec where
  s : List String := []
  b : Nat := 0
  p : Option String := none
  r : Option String := none
  c : Option Cond := none
  n : Option (List (String × Int)) := none
deriving DecidableEq, Repr

/-- `descent_of`. -/
def AltSpec.descent (o : AltSpec) : Option String := o.p.orElse fun _ => o.r

/-- `peek_copy`. -/
def peekCopy (base : AltSpec) (s : List String) (b : Nat) : AltSpec := { base with s := s, b := b }

/-- `RuleSpec`. -/
structure RuleSpec where
  opens : List AltSpec
  close : Option (List AltSpec)
deriving DecidableEq, Repr

/-- The rules of a spec, by name. -/
abbrev RuleTable := List (String × RuleSpec)

/-- `Entry`: an open alternate and the alternative it came from. -/
structure Entry where
  o : AltSpec
  alt : Option Sequence
deriving Repr

/-- The answers of `ContestCtx`. -/
structure ContestCtx where
  tokenRangesOf : String → Option (List CharRange)
  literalHeadRangesOf : String → Option (List CharRange)
  tokensOverlap : String → String → Bool
  headsContest : String → String → Bool
  classSets : List (String × String)

/-- `Emitter`. -/
structure Emitter where
  grammar : Grammar
  tokens : Tokens
  sets : FirstSets
  follow : FollowSets
  pairs : FollowPairs
  contest : ContestCtx
  arrayHelpers : List String
  valuePlan : List (String × List Bool)
  literalHeads : List String
  classHeads : List String

/-! ## Segments -/

/-- `Segment`. -/
structure Segment where
  terms : List String := []
  reference : Option String := none
  debt : Option (List (String × Int)) := none
deriving DecidableEq, Repr

/-- The loop of `segmentize`, with the segment it fills. -/
def segmentsFrom (tokens : Tokens) (current : Segment) : Sequence → List Segment
  | [] => if current.terms.isEmpty then [] else [current]
  | el :: rest =>
    match el with
    | .ref name debt _ =>
      { current with reference := some name, debt := debt } :: segmentsFrom tokens {} rest
    | el => segmentsFrom tokens { current with terms := current.terms ++ [tokens.name el] } rest

/-- `segmentize`: runs of terminals, each followed by at most one reference. -/
def segmentize (tokens : Tokens) (alt : Sequence) : List Segment :=
  match segmentsFrom tokens {} alt with
  | [] => [{}]
  | segs => segs

/-- `is_single_segment`: terminals and then a reference, or none. -/
def isSingleSegment : Sequence → Bool
  | [] => true
  | [el] => el.isTerminal || el.isRef
  | el :: rest => el.isTerminal && isSingleSegment rest

/-- `segment_to_alt`. -/
def segmentToAlt (seg : Segment) : AltSpec := { s := seg.terms, p := seg.reference, n := seg.debt }

/-- `capture_close`. -/
def captureClose (r : Option String) : AltSpec := { r := r }

/-! ## Names -/

/-- The name of the rule of an alternative. -/
def altName (name : String) (i : Nat) : String := name ++ "$alt" ++ toString i

/-- The name of a later step of a chain. -/
def stepName (name : String) (i : Nat) : String := name ++ "$step" ++ toString i

/-- `chain_name`. -/
def chainName (head : String) (i : Nat) : String := if i = 0 then head else stepName head i

section

variable (diag : String) (E : Emitter)

/-! ## What is refused -/

/-- `validate_refs`. -/
def validateRefs (alt : Sequence) (ruleName : String) : Except EmitError Unit :=
  match alt.find? fun el => el.refName.any fun m => !E.grammar.names.contains m with
  | some el => .error (.at (diag ++ ": rule '" ++ ruleName ++ "' references unknown rule '" ++
      el.refName.getD "" ++ "'") ruleName el.sp)
  | none => .ok ()

/-- `loop_item_of`. -/
def loopItemOf (prod : Production) : Except EmitError Element :=
  match prod.alts.length == 2 && prod.alts.any List.isEmpty, prod.alts.find? (!·.isEmpty) with
  | true, some [item, self] =>
    if self.isRefTo prod.name && (match item with | .ref _ debt _ => debt.isNone | _ => true) then
      .ok item
    else .error ⟨diag ++ ": internal — repeat loop '" ++ prod.name ++
      "' is not `item self / (empty)`", none, none⟩
  | _, _ => .error ⟨diag ++ ": internal — repeat loop '" ++ prod.name ++
      "' is not `item self / (empty)`", none, none⟩

/-- The checks of `emit_chain` on a value annotation, of which `pushes` links push. -/
def checkValue (rule : String) (sp : Option SrcSpan) (nested : Option (List Bool)) (pushes : Nat)
    (v : ValueAnnotation) : Except EmitError Unit :=
  if v.kind != "object" && v.kind != "array" then
    .error (.at (diag ++ ": rule '" ++ rule ++ "' has a value annotation of unknown kind '" ++
      v.kind ++ "'. A rule builds an 'object' or an 'array'.") rule sp)
  else if v.kind == "object" && v.members.length != pushes then
    .error (.at (diag ++ ": rule '" ++ rule ++ "' names " ++ toString v.members.length ++
      " member" ++ (if v.members.length = 1 then "" else "s") ++ " but builds " ++
      toString pushes ++ ". A value annotation names one member per part that produces a value. " ++
        "A part made only of literals produces none — and note that a part whose own rule is a " ++
        "single terminal stops being a part here in two ways: as a LEADING part it is folded into " ++
        "this rule by left-recursion elimination, and anywhere else it becomes a named lexer " ++
        "token. Giving that rule a body that is not a bare terminal (a repetition, a group, or " ++
        "more than one element) keeps it nameable.") rule sp)
  else
    match nested with
    | none => .ok ()
    | some flags =>
      if flags.length = pushes then .ok ()
      else .error (.at (diag ++ ": rule '" ++ rule ++ "' has a value annotation for " ++
        toString flags.length ++ " part" ++ (if flags.length = 1 then "" else "s") ++
        " but builds " ++ toString pushes ++ ". A rewrite pass changed how many parts of this " ++
        "rule produce a value, so the annotation no longer describes it. A part whose own rule " ++
        "is a single literal is the usual cause: it becomes a lexer token here and stops being " ++
        "a part at all. Give that rule a body that is not a bare terminal.") rule sp)

/-! ## Chains and loops -/

/-- The rules of `emit_chain` from the step `i` on. -/
def chainFrom (head : String) : Nat → List Segment → RuleTable
  | _, [] => []
  | i, [seg] =>
    [(chainName head i, ⟨[segmentToAlt seg],
      if seg.reference.isSome then some [captureClose none] else none⟩)]
  | i, seg :: segs =>
    (chainName head i, ⟨[segmentToAlt seg], some [captureClose (some (chainName head (i + 1)))]⟩) ::
      chainFrom head (i + 1) segs

/-- `emit_chain`. -/
def emitChain (head : String) (alt : Sequence) (origin : String) (value : Option ValueAnnotation)
    (nested : Option (List Bool)) (sp : Option SrcSpan) : Except EmitError RuleTable := do
  let segs := segmentize E.tokens alt
  if let some v := value then
    checkValue diag origin sp nested (segs.filter (·.reference.isSome)).length v
  return chainFrom head 0 segs

/-- `loop_entry`. -/
def loopEntry (prod : Production) : AltSpec :=
  { c := some (.zero loopCounter), n := some [(loopCounter, 1)], r := some prod.name }

/-- `emit_repeat_loop`: the iteration that takes one item and comes back. -/
def emitRepeatLoop (lp : Production) (name : String) (item : Element) :
    Except EmitError RuleTable :=
  match item.refName with
  | none => .error ⟨diag ++ ": internal — repeat loop '" ++ lp.name ++
      "' dispatches a terminal item through an iteration rule", none, none⟩
  | some itemName => .ok
      [(name, ⟨[{ p := some itemName, n := some [(loopCounter, 0)] }],
        some [{ r := some (stepName name 1), n := some [(loopCounter, 1)] }]⟩),
       (stepName name 1, ⟨[{ r := some lp.name }], none⟩)]

/-! ## Contests -/

/-- Some token that begins the alternative meets one that begins another. -/
def altHeadMeets (meets : String → String → Bool) (idx : Nat) (all : List Sequence) : Bool :=
  match (all[idx]?).bind (firstOfAlt E.tokens E.sets) with
  | none => false
  | some mine => all.zipIdx.any fun (other, j) => j != idx && !other.isEmpty &&
      match firstOfAlt E.tokens E.sets other with
      | none => false
      | some theirs => mine.any fun t => theirs.any (meets t)

/-- `alt_head_contested`. -/
def altHeadContested (idx : Nat) (all : List Sequence) : Bool :=
  altHeadMeets E E.contest.tokensOverlap idx all

/-- `alt_head_shares_token`. -/
def altHeadSharesToken (idx : Nat) (all : List Sequence) : Bool :=
  altHeadMeets E (fun t u => t == u ||
    E.classHeads.contains t && E.classHeads.contains u && E.contest.tokensOverlap t u) idx all

/-- `contested_by_follow`. -/
def contestedByFollow (prod : Production) (alt : Sequence) : Bool :=
  prod.repeatHelper &&
    match firstOfAlt E.tokens E.sets alt with
    | none => false
    | some mine => mine.any fun t => (E.follow.get prod.name).any fun f =>
        f == t || E.contest.tokensOverlap t f

/-- `pair_exit_guards`. -/
def pairExitGuards (prod : Production) (base : AltSpec) : List AltSpec :=
  if !prod.repeatHelper then []
  else
    let contFirst := E.sets.get prod.name
    let keys := (E.pairs.get prod.name).flatMap fun (t, us) =>
      if (E.contest.tokenRangesOf t).isSome &&
          contFirst.any fun f => f != t && E.contest.tokensOverlap t f then us.map fun u => [t, u]
      else []
    (addAll [] keys).map fun s => peekCopy base s 2

/-- `alt_prefixes`. -/
def altPrefixes (alt : Sequence) (maxK : Nat) : List (List String) :=
  distinctPrefixes [] ((enumerate E.grammar E.tokens E.contest.classSets maxK (fun _ => true)
    alt).map PrefixPath.tokens)

/-! ## The order of the entries -/

/-- `apply_debt_guard`. -/
def applyDebtGuard (prod : Production) (list : List Entry) : List Entry :=
  match prod.debtGuard, prod.debtOwed with
  | some guard, some owed => list.map fun e =>
      if e.alt.all List.isEmpty || e.o.s.head?.any (!owed.contains ·) then e
      else { e with o := { e.o with c := some (.zero guard) } }
  | _, _ => list

/-- The characters of an entry's head, for an alternative headed by a character class. -/
def classRangesOf (e : Entry) : Option (List CharRange) :=
  match e.o.s.head? with
  | some f => if e.alt.isSome && E.classHeads.contains f then E.contest.tokenRangesOf f else none
  | none => none

/-- Two entries go to the same place. -/
def sameDescent (e e' : Entry) : Bool := e.o.descent.isSome && e'.o.descent == e.o.descent

/-- The entries whose class head overlaps that of one with another descent. -/
def contestedClasses (entries : List Entry) : List Nat :=
  (entries.zipIdx.filter fun (e, i) => (classRangesOf E e).any fun ri =>
    entries.zipIdx.any fun (e', j) => j != i && (classRangesOf E e').any fun rj =>
      !sameDescent e e' && charRangesOverlap ri rj).map Prod.snd

/-- How much the alternative behind an entry can consume. -/
def entrySpan (e : Entry) : Nat :=
  match e.alt with
  | none => 0
  | some alt => (seqTokenSpan E.grammar alt).getD 1000000000

/-- Longer lookahead first, then the longer alternative. -/
def moreSpecific (e e' : Entry) : Bool :=
  e.o.s.length > e'.o.s.length ||
    e.o.s.length == e'.o.s.length && entrySpan E e ≥ entrySpan E e'

/-- `specificity_permute`. The sort is stable. -/
def specificityPermute (entries : List Entry) : List Entry :=
  let idxs := contestedClasses E entries
  if idxs.length < 2 then entries
  else
    let order := idxs.insertionSort fun i j => (entries[i]?).any fun e =>
      (entries[j]?).any fun e' => moreSpecific E e e'
    entries.zipIdx.map fun (e, i) => (((idxs.zip order).lookup i).bind (entries[·]?)).getD e

/-- `synth_keyword_guards`, for an alternate that pushes `o.b` of its tokens back. -/
def synthKeywordGuards (prod : Production) (o : AltSpec) (alt : Sequence) (f : String) :
    Option (List AltSpec) :=
  let paths := (enumerate E.grammar E.tokens E.contest.classSets 2 (fun _ => true) alt).filter
    fun p => p.tokens.head? == some f
  let fol := E.follow.get prod.name
  if fol.isEmpty && paths.any (·.tokens.length < 2) then none
  else
    let seconds := addAll [] (paths.flatMap fun p =>
      match p.tokens[1]? with
      | some u => [u]
      | none => fol)
    if seconds.isEmpty || seconds.length > 16 then none
    else some (seconds.map fun u => peekCopy o [f, u] (o.b + 1))

/-- `Placed`, with twice the rank of the code, whose halves it makes whole. -/
structure Placed where
  o : AltSpec
  rank : Int
deriving DecidableEq, Repr

/-- The class entries an entry's literal head contests, in order. -/
def contestedBy (entries : List Entry) (e : Entry) : List Nat :=
  match e.o.s.head?.bind fun f =>
      if E.literalHeads.contains f then E.contest.literalHeadRangesOf f else none with
  | none => []
  | some fr =>
    if e.alt.isNone then []
    else (entries.zipIdx.filter fun (e', _) =>
      (match e'.o.s.head? with
        | some g => if E.classHeads.contains g then E.contest.tokenRangesOf g else none
        | none => none).any fun cr => charRangesOverlap fr cr && !sameDescent e e').map Prod.snd

/-- Where one entry goes: its guards ahead of the first class entry it contests, itself behind the
last. -/
def placeEntry (prod : Production) (entries : List Entry) (i : Nat) (e : Entry) : List Placed :=
  let hits := contestedBy E entries e
  match hits.head?, hits.getLast?, e.alt, e.o.s with
  | some firstC, some lastC, some alt, [f] =>
    match if e.o.b ≤ 1 then synthKeywordGuards E prod e.o alt f else none with
    | some guards =>
      guards.map (⟨·, min (2 * i) (2 * firstC - 1)⟩) ++ [⟨e.o, max (2 * i) (2 * lastC + 1)⟩]
    | none => [⟨e.o, 2 * i⟩]
  | some firstC, some _, some _, _ => [⟨e.o, min (2 * i) (2 * firstC - 1)⟩]
  | _, _, _, _ => [⟨e.o, 2 * i⟩]

/-- `reorder_keyword_shadow`. The sort is stable, so ties keep the order of placing (`seq`). -/
def reorderKeywordShadow (prod : Production) (entries : List Entry) : List AltSpec :=
  ((entries.zipIdx.flatMap fun (e, i) => placeEntry E prod entries i e).insertionSort
    fun a b => a.rank ≤ b.rank).map Placed.o

/-- What becomes of the entries of a rule. -/
def placeEntries (prod : Production) (entries : List Entry) : List AltSpec :=
  reorderKeywordShadow E prod (specificityPermute E (applyDebtGuard prod entries))

/-! ## A rule of single segments -/

/-- The peeks of an alternative that is one reference: its FIRST tokens, or the prefixes of a
contested one. -/
def refPeeks (prod : Production) (ordered : List Sequence) (idx : Nat) (alt : Sequence)
    (seg : Segment) (firstTokens : List String) : List Entry :=
  let paths :=
    if altHeadContested E idx ordered || contestedByFollow E prod alt then
      (altPrefixes E alt lookaheadK).filter (!·.isEmpty)
    else []
  let peeks :=
    if !paths.isEmpty && paths.length ≤ 64 then paths else firstTokens.map fun tok => [tok]
  peeks.map fun s => ⟨{ s := s, b := s.length, p := some (seg.reference.getD ""), n := seg.debt },
    some alt⟩

/-- The exits of a repetition helper's empty alternative: the FOLLOW₂ guards and the FOLLOW
peeks. -/
def exitEntries (prod : Production) (o : AltSpec) : List Entry × List Entry :=
  if prod.repeatHelper then
    ((pairExitGuards E prod o).map (⟨·, none⟩),
      (E.follow.get prod.name).map fun tok => ⟨peekCopy o [tok] 1, none⟩)
  else ([], [])

/-- The tokens a `terms… ref` alternative peeks behind its terminals, against a sibling that stops
on the same head. -/
def refPeekTokens (ordered : List Sequence) (idx : Nat) (seg : Segment) : List String :=
  match seg.reference with
  | some r =>
    if ordered.length > 1 && !seg.terms.isEmpty && !E.sets.isNullable r &&
        altHeadSharesToken E idx ordered then
      let peek := E.sets.get r
      if peek.length ≤ 64 then peek else []
    else []
  | none => []

/-- The alternate of a single segment; a loop's continue alternative re-enters the loop. -/
def singleAlternate (prod : Production) (isLoop : Bool) (alt : Sequence) (seg : Segment) :
    AltSpec :=
  if isLoop && !alt.isEmpty then { s := seg.terms, r := some prod.name } else segmentToAlt seg

/-- The entries of one alternative: those for the front, and those that go to the end. -/
def singleEntries (prod : Production) (isLoop : Bool) (ordered : List Sequence) (idx : Nat)
    (alt : Sequence) : List Entry × List Entry :=
  let seg := (segmentize E.tokens alt).headD {}
  let isRefOnly := !alt.isEmpty && alt.all Element.isRef && seg.terms.isEmpty &&
    seg.reference.isSome
  match if ordered.length > 1 && isRefOnly then firstOfAlt E.tokens E.sets alt else none with
  | some firstTokens => ([], refPeeks E prod ordered idx alt seg firstTokens)
  | none =>
    let o := singleAlternate prod isLoop alt seg
    let exits := if alt.isEmpty then exitEntries E prod o else ([], [])
    let peek := refPeekTokens E ordered idx seg
    (exits.1, exits.2 ++
      if peek.isEmpty then [⟨o, if alt.isEmpty then none else some alt⟩]
      else peek.map fun tok => ⟨peekCopy o (seg.terms ++ [tok]) 1, some alt⟩)

/-- The alternatives, the empty ones last. -/
def emptyAltsLast (alts : List Sequence) : List Sequence :=
  alts.filter (!·.isEmpty) ++ alts.filter (·.isEmpty)

/-- The entries of a rule of single segments. -/
def allSingleEntries (prod : Production) (isLoop : Bool) : List Entry :=
  let ordered := emptyAltsLast prod.alts
  ordered.zipIdx.foldl (fun entries (alt, idx) =>
    let new := singleEntries E prod isLoop ordered idx alt
    new.1 ++ entries ++ new.2) []

/-- The rule of a production whose alternatives all are single segments. -/
def singleRule (prod : Production) (isLoop : Bool) : RuleSpec :=
  let placed := placeEntries E prod (allSingleEntries E prod isLoop)
  if isLoop then ⟨loopEntry prod :: placed, none⟩
  else ⟨placed, if prod.alts.any (·.any Element.isRef) then some [captureClose none] else none⟩

/-! ## A dispatcher -/

/-- The ways out of a choice that can end. -/
def exitPaths (prod : Production) : List (List String) :=
  if prod.alts.any fun alt => alt.isEmpty || (firstOfAlt E.tokens E.sets alt).isNone then
    (E.follow.get prod.name).map (fun t => [t]) ++
      (E.pairs.get prod.name).flatMap fun (t, us) => us.map fun u => [t, u]
  else []

/-- The rules of one alternative of a dispatcher. -/
def implRules (prod : Production) (loopItem : Option Element) (i : Nat) (alt : Sequence) :
    Except EmitError RuleTable :=
  if alt.isEmpty then .ok []
  else
    match loopItem with
    | some item => emitRepeatLoop diag prod (altName prod.name i) item
    | none => emitChain diag E (altName prod.name i) alt prod.originOf none none none

/-- The tokens a dispatcher's alternative is entered on: its dispatch prefixes, or its FIRST
tokens. -/
def dispatchPeeks (prod : Production) (i : Nat) (alt : Sequence) (d : DispatchPrefixes) :
    Except EmitError (List (List String)) :=
  if !d.prefixes.isEmpty then .ok d.prefixes
  else
    match firstOfAlt E.tokens E.sets alt with
    | some first => .ok (first.map fun tok => [tok])
    | none => .error (.at (diag ++ ": rule '" ++ prod.name ++ "' alternative " ++ toString i ++
        " is nullable but is not the only empty alt; FIRST set is ambiguous") prod.name prod.sp)

/-- The dispatch entries of one alternative. -/
def implEntries (prod : Production) (isLoop : Bool) (i : Nat) (alt : Sequence)
    (d : DispatchPrefixes) : Except EmitError (List Entry) := do
  if alt.isEmpty then return []
  let peeks ← dispatchPeeks diag E prod i alt d
  let impl := some (altName prod.name i)
  return peeks.map fun s => ⟨if isLoop then { s := s, b := s.length, r := impl }
    else { s := s, b := s.length, p := impl }, some alt⟩

/-- The empty derivation of a nullable alternative, re-issued on FOLLOW and then without a
token. -/
def nullableEntries (prod : Production) (i : Nat) : List Entry :=
  let impl := some (altName prod.name i)
  (E.follow.get prod.name).map (fun tok => ⟨{ s := [tok], b := 1, p := impl }, none⟩) ++
    [⟨{ p := impl }, none⟩]

/-- The entries of a dispatcher. -/
def dispatchEntries (prod : Production) (isLoop : Bool) (dispatch : List DispatchPrefixes) :
    Except EmitError (List Entry) := do
  let content ← (prod.alts.zip dispatch).zipIdx.mapM fun ((alt, d), i) =>
    implEntries diag E prod isLoop i alt d
  let nullable := (prod.alts.zip dispatch).zipIdx.flatMap fun ((alt, d), i) =>
    if !alt.isEmpty && d.nullable && !isLoop then nullableEntries E prod i else []
  if prod.alts.any List.isEmpty then
    let exits := exitEntries E prod {}
    return exits.1 ++ content.flatten ++ nullable ++ exits.2 ++ [⟨{}, none⟩]
  return content.flatten ++ nullable

/-- The rules of a dispatcher: one for each step of each alternative, and its own. -/
def dispatchRules (prod : Production) (loopItem : Option Element) : Except EmitError RuleTable := do
  let some dispatch := dispatchPrefixes E.grammar E.tokens E.contest.classSets
      E.contest.headsContest lookaheadK (exitPaths E prod) prod.alts
    | throw ⟨diag ++ ": internal — an exit path has no token", none, none⟩
  let impls ← prod.alts.zipIdx.mapM fun (alt, i) => implRules diag E prod loopItem i alt
  let entries ← dispatchEntries diag E prod loopItem.isSome dispatch
  let placed := placeEntries E prod entries
  let rule : RuleSpec :=
    if loopItem.isSome then ⟨loopEntry prod :: placed, none⟩
    else ⟨placed, some [captureClose none]⟩
  return impls.flatten ++ [(prod.name, rule)]

/-! ## Productions -/

/-- `emit_tail_repeat`. -/
def emitTailRepeat (prod : Production) (tail : TailRepeatSpec) : RuleSpec :=
  let prefixSeg := (segmentize E.tokens (prod.alts.headD [])).headD {}
  let sepSeg := (segmentize E.tokens tail.sep).headD {}
  ⟨[segmentToAlt prefixSeg], some [{ s := sepSeg.terms, r := some prod.name }, {}]⟩

/-- `emit_production`: the rules it commits, in order. -/
def emitProduction (prod : Production) : Except EmitError RuleTable := do
  prod.alts.forM fun alt => validateRefs diag E alt prod.name
  if let some tail := prod.tailRepeat then return [(prod.name, emitTailRepeat E prod tail)]
  let loopItem ← if prod.repeatLoop then some <$> loopItemOf diag prod else pure none
  let splitAlts := E.arrayHelpers.contains prod.name && prod.alts.length > 1 && !prod.repeatHelper
  if prod.alts.all isSingleSegment && prod.value.isNone && !splitAlts then
    return [(prod.name, singleRule E prod loopItem.isSome)]
  match prod.alts with
  | [alt] =>
    emitChain diag E prod.name alt prod.originOf prod.value
      (E.valuePlan.lookup prod.originOf) prod.sp
  | alts =>
    if prod.value.isSome then
      throw ⟨diag ++ ": rule '" ++ prod.originOf ++ "' has a value annotation and " ++
        toString alts.length ++ " alternatives. A value annotation names the parts of ONE " ++
        "alternative; with more than one it is ambiguous which alternative's parts are named. " ++
        "Split the rule, or annotate the alternatives' own rules.", none, none⟩
    dispatchRules diag E prod loopItem

/-- `emit_probe_helper`. -/
def emitProbeHelper (prod : Production) (helper : ProbeHelperSpec) : RuleSpec :=
  ⟨(helper.vocabElements.filterMap fun el => (E.tokens.of el).map fun tok =>
    ({ s := [tok], r := some prod.name } : AltSpec)) ++ [({} : AltSpec)], none⟩

/-- `emit_probe_dispatch`. -/
def emitProbeDispatch (prod : Production) (pd : ProbeDispatchSpec) : Except EmitError RuleSpec :=
  match E.tokens.of pd.disambiguator with
  | none => .error ⟨diag ++ ": probe-dispatch rule '" ++ prod.name ++
      "' has unresolvable disambiguator (kind=" ++ pd.disambiguator.kindName ++ ")", none, none⟩
  | some _ => .ok
      ⟨[{ c := some (.probePhase 0), p := some pd.probeRule },
        { c := some (.probePhase 1), p := some pd.withBranch },
        { c := some (.probePhase 2), p := some pd.noBranch }],
       some [{ c := some (.probePhase 0), r := some prod.name }, {}]⟩

/-- The rules of one production of the grammar. -/
def emitRule (prod : Production) : Except EmitError RuleTable :=
  match prod.probeHelper, prod.probeDispatch with
  | some helper, _ => .ok [(prod.name, emitProbeHelper E prod helper)]
  | none, some pd => do return [(prod.name, ← emitProbeDispatch diag E prod pd)]
  | none, none => emitProduction diag E prod

/-- The `n`th name tried for the start wrapper. -/
def wrapperName (n : Nat) : String :=
  if n = 0 then "__start__" else "__start" ++ toString (n + 1) ++ "__"

/-- The start wrapper's name: the first one tried that is no production's. -/
def startWrapper : String := wrapperName (Names.freshIndex wrapperName E.grammar.names 0)

/-- The rules `emit_grammar_spec` emits: those of each production, and the start wrapper. -/
def emitRules (start : String) : Except EmitError RuleTable := do
  let rules ← E.grammar.productions.mapM (emitRule diag E)
  return Table.insert (Table.insertAll [] rules.flatten) (startWrapper E)
    ⟨[{ p := some start }], some [{ s := ["#ZZ"] }]⟩

end

/-- The emitter `emit_grammar_spec` sets up over the desugared grammar: FIRST, FOLLOW and the pairs
are those of the grammar before its suffix debts are settled. -/
def emitterOf (grammar : Grammar) (start : String) (tokens : Tokens) (contest : ContestCtx)
    (arrayHelpers : List String) (valuePlan : List (String × List Bool)) : Emitter :=
  let sets := computeFirstSets grammar tokens contest.classSets
  let follow := computeFollowSets grammar tokens contest.classSets sets start
  { grammar := resolveSuffixDebts grammar tokens sets contest.tokensOverlap
    tokens := tokens
    sets := sets
    follow := follow
    pairs := computeFollowPairs grammar tokens contest.classSets sets follow
    contest := contest
    arrayHelpers := arrayHelpers
    valuePlan := valuePlan
    literalHeads := tokens.literals.map Prod.snd ++ contest.classSets.map Prod.snd
    classHeads := tokens.regexTokens.map Prod.snd }

end TabnasBnf
