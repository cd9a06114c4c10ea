import TabnasBnf.Nullable
import TabnasBnf.Probe

/-!
# The check on repetitions

Model of `validate_repetitions` (`rs/src/prose.rs`) and of `rewrite_tail_repeats`
(`rs/src/leftrec.rs`), the pass before it. The check runs on the grammar desugaring is given: it
refuses bounds out of order, expansions past `MAX_REPEAT_EXPANSION` and every unbounded repetition
whose item may match without consuming, whichever way the repetition is written.

`diag` is `diag_name()`; `verdict` is `regex_may_match_without_consuming`. The charges a run of the
check threads are its `Nat`, what the repetitions so far expand to.
-/

namespace TabnasBnf

/-- `MAX_REPEAT_EXPANSION`. -/
def maxRepeatExpansion : Nat := 8192

/-! ## Tail repeats -/

/-- The body of the option an alternative ends with: `sep… X`. -/
def optionBody : Element → Option Sequence
  | .opt (.group [alt] _) _ => some alt
  | .opt (.group _ _) _ => none
  | .opt e _ => some [e]
  | _ => none

/-- The loop body of `rewrite_tail_repeats`. -/
def rewriteTailRepeat (start : String) (prod : Production) : Production :=
  if prod.probeDispatch.isSome || prod.probeHelper.isSome || prod.name == start then prod
  else match prod.alts with
    | [alt] => match alt.getLast?.bind optionBody with
      | some seq =>
        let sep := seq.dropLast
        let pre := alt.dropLast
        if alt.length < 2 || seq.length < 2 then prod
        else if !(seq.getLast?.any (·.isRefTo prod.name)) then prod
        else if !sep.all Element.isTerminal then prod
        else if pre.isEmpty || !pre.all Element.isTerminal then prod
        else { prod with alts := [pre], tailRepeat := some ⟨sep⟩ }
      | none => prod
    | _ => prod

/-- `rewrite_tail_repeats`. -/
def rewriteTailRepeats (grammar : Grammar) (start : String) : Grammar :=
  { grammar with productions := grammar.productions.map (rewriteTailRepeat start) }

/-! ## Where a helper's terminal comes from -/

mutual
/-- `find_vocab_origin` on an element of `current`; `enter` follows a reference. -/
def findVocabOrigin (enter : String → Option (String × Option SrcSpan)) (key : String)
    (current : Production) : Element → Option (String × Option SrcSpan)
  | el@(.term ..) | el@(.regex ..) | el@(.token ..) =>
    if vocabKey el = some key then some (current.originOf, current.sp) else none
  | .ref name _ _ => enter name
  | .opt e _ | .star e _ _ | .plus e _ | .rep _ _ e _ => findVocabOrigin enter key current e
  | .group alts _ => findVocabOriginAlts enter key current alts
  | .prose .. => none

/-- The first element of a sequence that has an origin. -/
def findVocabOriginSeq (enter : String → Option (String × Option SrcSpan)) (key : String)
    (current : Production) : List Element → Option (String × Option SrcSpan)
  | [] => none
  | el :: rest =>
    (findVocabOrigin enter key current el).or (findVocabOriginSeq enter key current rest)

/-- The first alternative with such an element. -/
def findVocabOriginAlts (enter : String → Option (String × Option SrcSpan)) (key : String)
    (current : Production) : List (List Element) → Option (String × Option SrcSpan)
  | [] => none
  | alt :: rest =>
    (findVocabOriginSeq enter key current alt).or (findVocabOriginAlts enter key current rest)
end

/-- The reference case of `find_vocab_origin`. A name on the path is not entered again, so a path
is no longer than there are productions. -/
def enterVocabOrigin (grammar : Grammar) (key : String) :
    Nat → List String → String → Option (String × Option SrcSpan)
  | depth, visited, name =>
    if visited.contains name then none
    else match depth, grammar.find name with
      | depth + 1, some source =>
        findVocabOriginAlts (enterVocabOrigin grammar key depth (name :: visited)) key source
          source.alts
      | _, _ => none

/-- `probe_vocab_origin`: the author-written production that supplied a helper's terminal. -/
def probeVocabOrigin (grammar : Grammar) (helper : Production) (el : Element) :
    Option (String × Option SrcSpan) := do
  let key ← vocabKey el
  let dispatch ← grammar.productions.find? fun prod =>
    prod.probeDispatch.any (·.probeRule == helper.name)
  let spec ← dispatch.probeDispatch
  let withProd ← grammar.find spec.withBranch
  findVocabOriginAlts (enterVocabOrigin grammar key grammar.productions.length []) key withProd
    withProd.alts

/-! ## The check -/

section

variable (diag : String)

/-- `refuse`. -/
def refuse (el : Element) (prod : Production) (message : String) : EmitError :=
  .at (diag ++ ": rule '" ++ prod.originOf ++ "' " ++ message) prod.originOf (el.sp <|> prod.sp)

mutual
/-- `validate_bounds`. -/
def validateBounds (prod : Production) : Element → Except EmitError Unit
  | .group alts _ => validateBoundsAlts prod alts
  | .rep min max e sp =>
    match max with
    | some m =>
      if m < min then
        .error (refuse diag (.rep min max e sp) prod ("has invalid repetition bounds '" ++
          toString min ++ "*" ++ toString m ++ "'. Bounds must be non-negative integers and the " ++
          "upper bound must not be lower than the lower bound."))
      else validateBounds prod e
    | none => validateBounds prod e
  | .opt e _ | .star e _ _ | .plus e _ => validateBounds prod e
  | _ => .ok ()

/-- `validate_bounds` on a sequence. -/
def validateBoundsSeq (prod : Production) : List Element → Except EmitError Unit
  | [] => .ok ()
  | el :: rest => do
    validateBounds prod el
    validateBoundsSeq prod rest

/-- `validate_bounds` on alternatives. -/
def validateBoundsAlts (prod : Production) : List (List Element) → Except EmitError Unit
  | [] => .ok ()
  | alt :: rest => do
    validateBoundsSeq prod alt
    validateBoundsAlts prod rest
end

variable (verdict : Verdict) (nullable : List String)

mutual
/-- `non_consuming_witness`. -/
def nonConsumingWitness : Element → Option Element
  | el@(.group alts _) =>
    if elementMayMatchWithoutConsuming verdict nullable el then
      some ((nonConsumingWitnessAlts alts).getD el)
    else none
  | el@(.plus inner _) | el@(.rep (_ + 1) _ inner _) =>
    if elementMayMatchWithoutConsuming verdict nullable el then
      some ((nonConsumingWitness inner).getD el)
    else none
  | el => if elementMayMatchWithoutConsuming verdict nullable el then some el else none

/-- The first witness in a sequence. -/
def nonConsumingWitnessSeq : List Element → Option Element
  | [] => none
  | el :: rest => (nonConsumingWitness el).or (nonConsumingWitnessSeq rest)

/-- The first witness in the first alternative that may match without consuming. -/
def nonConsumingWitnessAlts : List (List Element) → Option Element
  | [] => none
  | alt :: rest =>
    if sequenceDerivesEmpty verdict nullable alt then nonConsumingWitnessSeq alt
    else nonConsumingWitnessAlts rest
end

/-- What `m*n` costs of the `remaining` expansion, if it fits. -/
def repeatCost (min : Nat) (max : Option Nat) (remaining : Nat) : Option Nat :=
  if 1 > remaining || min > remaining - 1 then none
  else match max with
    | none => if 1 + min ≥ remaining then none else some (1 + min + 1)
    | some max =>
      if max - min > (remaining - (1 + min)) / 2 then none
      else some (1 + min + 2 * (max - min))

/-- The refusal of an unbounded repetition `el` of `inner`. -/
def checkItem (prod : Production) (el inner : Element) : Except EmitError Unit :=
  if elementMayMatchWithoutConsuming verdict nullable inner then
    .error (refuse diag ((nonConsumingWitness verdict nullable inner).getD el) prod
      ("has an unbounded repetition whose item can succeed without consuming input. " ++
        "An unbounded repetition must consume input on every iteration."))
  else .ok ()

/-- The charge for `m*n`. -/
def chargeRepeat (prod : Production) (el : Element) (min : Nat) (max : Option Nat)
    (expansion : Nat) : Except EmitError Nat :=
  match repeatCost min max (maxRepeatExpansion - expansion) with
  | some cost => .ok (expansion + cost)
  | none =>
    .error (refuse diag el prod ("exceeds the repetition expansion limit of " ++
      toString maxRepeatExpansion ++ " while expanding '" ++ toString min ++ "*" ++
      (max.map toString).getD "" ++ "'. Split the repetition into named rules or lower its " ++
      "bounds."))

mutual
/-- `walk`. -/
def walkRepetitions (prod : Production) : Element → Nat → Except EmitError Nat
  | .group alts _, expansion => walkRepetitionsAlts prod alts expansion
  | .opt inner _, expansion => walkRepetitions prod inner expansion
  | .star inner guard sp, expansion => do
    checkItem diag verdict nullable prod (.star inner guard sp) inner
    walkRepetitions prod inner expansion
  | .plus inner sp, expansion => do
    checkItem diag verdict nullable prod (.plus inner sp) inner
    walkRepetitions prod inner expansion
  | .rep min none inner sp, expansion => do
    checkItem diag verdict nullable prod (.rep min none inner sp) inner
    let expansion ← chargeRepeat diag prod (.rep min none inner sp) min none expansion
    walkRepetitions prod inner expansion
  | .rep min (some max) inner sp, expansion => do
    let expansion ← chargeRepeat diag prod (.rep min (some max) inner sp) min (some max) expansion
    walkRepetitions prod inner expansion
  | _, expansion => .ok expansion

/-- `walk` on a sequence. -/
def walkRepetitionsSeq (prod : Production) : List Element → Nat → Except EmitError Nat
  | [], expansion => .ok expansion
  | el :: rest, expansion => do
    let expansion ← walkRepetitions prod el expansion
    walkRepetitionsSeq prod rest expansion

/-- `walk` on alternatives. -/
def walkRepetitionsAlts (prod : Production) : List (List Element) → Nat → Except EmitError Nat
  | [], expansion => .ok expansion
  | alt :: rest, expansion => do
    let expansion ← walkRepetitionsSeq prod alt expansion
    walkRepetitionsAlts prod rest expansion
end

/-- The check of a probe helper's vocabulary. -/
def checkVocab (grammar : Grammar) (prod : Production) : List Element → Except EmitError Unit
  | [] => .ok ()
  | el :: rest =>
    if elementMayMatchWithoutConsuming verdict nullable el then
      let witness := (nonConsumingWitness verdict nullable el).getD el
      let (rule, sourceSp) :=
        (probeVocabOrigin grammar prod el).getD (prod.originOf, prod.sp)
      .error (.at (diag ++ ": rule '" ++ rule ++ "' has a probe helper matcher that can succeed " ++
        "without consuming input. An unbounded repetition must consume input on every iteration.")
        rule (witness.sp <|> sourceSp))
    else checkVocab grammar prod rest

/-- The check of a probe helper, whose vocabulary lives outside the alternatives. -/
def checkProbeHelper (grammar : Grammar) (prod : Production) : Except EmitError Unit :=
  match prod.probeHelper with
  | some helper => checkVocab diag verdict nullable grammar prod helper.vocabElements
  | none => .ok ()

/-- The cycle of a tail repeat: the separator, then the prefix. -/
def tailCycle (prod : Production) (tail : TailRepeatSpec) : Sequence :=
  tail.sep ++ prod.alts.head?.getD []

/-- The check of a tail repeat's cycle. -/
def checkTail (prod : Production) (tail : TailRepeatSpec) : Except EmitError Unit :=
  let cycle := tailCycle prod tail
  match cycle with
  | [] => .ok ()
  | fallback :: _ =>
    if sequenceDerivesEmpty verdict nullable cycle then
      .error (refuse diag ((cycle.findSome? (nonConsumingWitness verdict nullable)).getD fallback)
        prod ("has an unbounded tail repetition that can succeed without consuming input. " ++
          "An unbounded repetition must consume input on every iteration."))
    else .ok ()

/-- The check of a tail repeat. -/
def checkTailRepeat (prod : Production) : Except EmitError Unit :=
  match prod.tailRepeat with
  | some tail => checkTail diag verdict nullable prod tail
  | none => .ok ()

/-- The last loop of `validate_repetitions` on one production. -/
def validateProduction (grammar : Grammar) (prod : Production) (expansion : Nat) :
    Except EmitError Nat := do
  let expansion ← walkRepetitionsAlts diag verdict nullable prod prod.alts expansion
  checkProbeHelper diag verdict nullable grammar prod
  checkTailRepeat diag verdict nullable prod
  return expansion

/-- The last loop of `validate_repetitions`. -/
def validateProductions (grammar : Grammar) :
    List Production → Nat → Except EmitError Unit
  | [], _ => .ok ()
  | prod :: rest, expansion => do
    let expansion ← validateProduction diag verdict nullable grammar prod expansion
    validateProductions grammar rest expansion

end

/-- `validate_repetitions`. -/
def validateRepetitions (diag : String) (verdict : Verdict) (grammar : Grammar) :
    Except EmitError Unit := do
  let _ ← grammar.productions.mapM fun prod => validateBoundsAlts diag prod prod.alts
  let nullable := nonConsumingRules verdict grammar.productions
  validateProductions diag verdict nullable grammar grammar.productions 0

end TabnasBnf
