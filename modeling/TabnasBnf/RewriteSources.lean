import TabnasBnf.LeftRec
import TabnasBnf.Lib.Table
import TabnasBnf.Repetition

/-!
# Rewrite sources

Model of the private provenance of `rs/src/leftrec.rs`: every element of the grammar that is being
rewritten has a source, the rule and the span it was written in. The passes of `LeftRec.lean` rewrite
the sources beside the alternatives, each in its own way; here are these passes with their sources
(`..With`), and `validate_rewrite_repetitions`, which walks elements and sources together.

* A source that is missing, on which the code panics, is an empty list here.
* `Rewriting` is what there is after a step of a pass: the productions and the sources by production.
  The passes hand on the states they go through.
-/

namespace TabnasBnf

/-- `RewriteSource` with its children: none, the source of the element inside, or those of the
elements of each alternative. -/
inductive RewriteSource where
  | leaf (rule : String) (sp : Option SrcSpan)
  | inner (rule : String) (sp : Option SrcSpan) (source : RewriteSource)
  | group (rule : String) (sp : Option SrcSpan) (alts : List (List RewriteSource))

/-- `AltSources`. -/
abbrev AltSources := List RewriteSource

/-- `RewriteSources`. -/
abbrev RewriteSources := List (String × List AltSources)

namespace RewriteSource

/-- The rule. -/
def rule : RewriteSource → String
  | .leaf rule _ | .inner rule _ _ | .group rule _ _ => rule

/-- The span. -/
def sp : RewriteSource → Option SrcSpan
  | .leaf _ sp | .inner _ sp _ | .group _ sp _ => sp

/-- The source of the element inside. -/
def innerSource : RewriteSource → Option RewriteSource
  | .inner _ _ s => some s
  | _ => none

end RewriteSource

/-! ## What is written -/

mutual
/-- `authored_source`. -/
def authoredSource (prod : Production) : Element → RewriteSource
  | .opt e sp => .inner prod.originOf (sp <|> prod.sp) (authoredSource prod e)
  | .star e _ sp => .inner prod.originOf (sp <|> prod.sp) (authoredSource prod e)
  | .plus e sp => .inner prod.originOf (sp <|> prod.sp) (authoredSource prod e)
  | .rep _ _ e sp => .inner prod.originOf (sp <|> prod.sp) (authoredSource prod e)
  | .group alts sp => .group prod.originOf (sp <|> prod.sp) (authoredAlts prod alts)
  | .term _ _ _ sp => .leaf prod.originOf (sp <|> prod.sp)
  | .ref _ _ sp => .leaf prod.originOf (sp <|> prod.sp)
  | .token _ sp => .leaf prod.originOf (sp <|> prod.sp)
  | .prose _ sp => .leaf prod.originOf (sp <|> prod.sp)
  | .regex _ _ sp => .leaf prod.originOf (sp <|> prod.sp)

/-- `authored_source` on a sequence. -/
def authoredSeq (prod : Production) : List Element → AltSources
  | [] => []
  | el :: rest => authoredSource prod el :: authoredSeq prod rest

/-- `authored_source` on alternatives. -/
def authoredAlts (prod : Production) : List (List Element) → List AltSources
  | [] => []
  | alt :: rest => authoredSeq prod alt :: authoredAlts prod rest
end

/-- `generated_group_source`. -/
def generatedGroupSource (alts : List AltSources) (fallback : RewriteSource) : RewriteSource :=
  let first := alts.flatten.head?.getD fallback
  .group first.rule first.sp alts

/-- `nullable_sugar_sources`. -/
def nullableSugarSources (el : Element) (source : RewriteSource) : Option AltSources :=
  match source.innerSource with
  | none => none
  | some inner =>
    match el with
    | .opt .. => some [inner]
    | .star .. => some [inner, source]
    | .rep 0 max _ _ =>
      match max with
      | some 0 => none
      | none => some [inner, source]
      | some 1 => some [inner]
      | some _ => some [inner, source]
    | _ => none

/-! ## The passes with their sources -/

/-- The productions and their sources after a step. -/
structure Rewriting where
  prods : List Production
  sources : RewriteSources

/-- `sources[&name]`. -/
def sourcesOf (sources : RewriteSources) (name : String) : List AltSources :=
  (sources.lookup name).getD []

section

variable (diag : String)

/-- What a split leaves of the sources of a production, the alternative at `idx` being split. -/
def splitSources (el : Element) (idx : Nat) (altSources : List AltSources) : List AltSources :=
  let original := altSources.getD idx []
  let withSources := (original.head?.bind (nullableSugarSources el)).getD []
  altSources.take idx ++ [withSources ++ original.tail, original.tail] ++ altSources.drop (idx + 1)

/-- `splitHidden`: the alternatives, the sources, what has been added and the states after each
split, the alternatives in their `place`. -/
def splitHiddenWith (p : Production) (place : List Sequence → List Production) :
    Nat → List Sequence → RewriteSources → Nat →
      Except EmitError (List Sequence × RewriteSources × Nat × List Rewriting)
  | 0, alts, sources, added => .ok (alts, sources, added, [])
  | guard + 1, alts, sources, added =>
    match alts.span fun alt => !isHiddenLeftRecursive alt p.name with
    | (before, (el :: rest) :: after) =>
      match nullableSugarPresent el with
      | some present => do
        let added ← chargeExpansion diag p (el :: rest) present added
        let alts := before ++ [present ++ rest, rest] ++ after
        let sources := Table.insert sources p.name
          (splitSources el before.length (sourcesOf sources p.name))
        let (out, sources', added, steps) ← splitHiddenWith p place guard alts sources added
        return (out, sources', added, ⟨place alts, sources⟩ :: steps)
      | none => .ok (alts, sources, added, [])
    | _ => .ok (alts, sources, added, [])

/-- `expand_nullable_left_prefixes`: the productions `done`, and the ones to come. -/
def expandWith : List Production → List Production → RewriteSources → Nat →
    Except EmitError (List Production × RewriteSources × Nat × List Rewriting)
  | done, [], sources, added => .ok (done, sources, added, [])
  | done, p :: rest, sources, added => do
    let place := fun alts : List Sequence => done ++ { p with alts := alts } :: rest
    let guard := (p.alts.map List.length).sum + 1
    let (alts, sources, added, steps) ← splitHiddenWith diag p place guard p.alts sources added
    let (out, sources, added, more) ←
      expandWith (done ++ [{ p with alts := alts }]) rest sources added
    return (out, sources, added, steps ++ more)

/-- `substitute_leading_ref`. -/
def substituteLeadingRefWith (target : Production) (targetSources : List AltSources)
    (source : Production) (sourceSources : List AltSources) : Production × List AltSources :=
  let pairs := (target.alts.zip targetSources).flatMap fun (alt, altSources) =>
    if leads source.name alt then
      (source.alts.zip sourceSources).map fun (srcAlt, srcSources) =>
        (srcAlt ++ alt.tail, srcSources ++ altSources.tail)
    else [(alt, altSources)]
  (target.rebuilt (pairs.map Prod.fst), pairs.map Prod.snd)

/-- `substitute_leading_ref_by_token`. -/
def substituteLeadingRefByTokenWith (target : Production) (targetSources : List AltSources)
    (className : String) : Production × List AltSources :=
  let pairs := (target.alts.zip targetSources).map fun (alt, altSources) =>
    if leads className alt then (.token ("#" ++ className) none :: alt.tail, altSources)
    else (alt, altSources)
  (target.rebuilt (pairs.map Prod.fst), pairs.map Prod.snd)

/-- The source of the element a list of alternatives is written as. -/
def asSource (fallback : RewriteSource) : List AltSources → RewriteSource
  | [[s]] => s
  | alts => generatedGroupSource alts fallback

/-- `eliminate_direct_left_rec`. -/
def eliminateDirectLeftRecWith (prod : Production) (prodSources : List AltSources)
    (debtNames : List String) :
    Except EmitError ((Production × List AltSources) × List String) :=
  let pairs := prod.alts.zip prodSources
  let recursive := (pairs.filter fun e => leads prod.name e.1).map fun e => (e.1.tail, e.2.tail)
  let seeds := pairs.filter fun e => !leads prod.name e.1
  let nonTrivial := recursive.filter fun e => !e.1.isEmpty
  if nonTrivial.isEmpty then
    .ok ((prod.rebuilt (seeds.map Prod.fst), seeds.map Prod.snd), debtNames)
  else if seeds.isEmpty then
    .error (.at (diag ++ ": rule '" ++ prod.name ++
      "' is purely left-recursive (no seed alternative); cannot eliminate") prod.name prod.sp)
  else
    let seedElement := asElement (seeds.map Prod.fst)
    let tailInner := asElement (nonTrivial.map Prod.fst)
    let (debtGuard, debtNames) :=
      if seedsReferenceSelf (seeds.map Prod.fst) prod.name then
        let counter := freshDebtCounter prod.name debtNames
        (some counter, debtNames ++ [counter])
      else (none, debtNames)
    let fallback := RewriteSource.leaf prod.originOf prod.sp
    let seedSource := asSource fallback (seeds.map Prod.snd)
    let tailInnerSource := asSource fallback (nonTrivial.map Prod.snd)
    let tailSource := RewriteSource.inner tailInnerSource.rule tailInnerSource.sp tailInnerSource
    .ok ((prod.rebuilt [[seedElement, .star tailInner debtGuard none]],
      [[seedSource, tailSource]]), debtNames)

/-- `Substitution` with the sources and the states after each substitution. -/
structure SubstitutionWith extends Substitution where
  sources : RewriteSources
  steps : List Rewriting

/-- The target in its `place` and its sources after a substitution. -/
def SubstitutionWith.rewrite (place : Production → List Production) (st : SubstitutionWith)
    (next : Production × List AltSources) (gained added : Nat) : SubstitutionWith :=
  let sources := Table.insert st.sources st.target.name next.2
  { target := next.1, gained := gained, added := added, changed := true, sources := sources,
    steps := st.steps ++ [⟨place next.1, sources⟩] }

/-- `substitutePass`. -/
def substitutePassWith (keep : List String) (place : Production → List Production) :
    List Production → SubstitutionWith → Except EmitError SubstitutionWith
  | [], st => .ok st
  | source :: rest, st =>
    if !hasLeadingRefTo st.target source.name then substitutePassWith keep place rest st
    else if keep.contains source.name then
      substitutePassWith keep place rest (st.rewrite place
        (substituteLeadingRefByTokenWith st.target (sourcesOf st.sources st.target.name)
          source.name) st.gained st.added)
    else do
      let gained ← chargeSubstitution diag st.target source st.gained
      let added ← chargeElements diag st.target source st.added
      substitutePassWith keep place rest (st.rewrite place
        (substituteLeadingRefWith st.target (sourcesOf st.sources st.target.name) source
          (sourcesOf st.sources source.name)) gained added)

/-- `substituteEarlier`. -/
def substituteEarlierWith (keep : List String) (place : Production → List Production)
    (earlier : List Production) : Nat → SubstitutionWith → Except EmitError SubstitutionWith
  | 0, st => .ok st
  | guard + 1, st => do
    let st ← substitutePassWith diag keep place earlier { st with changed := false }
    if st.changed then substituteEarlierWith keep place earlier guard st else return st

/-- `substituteInto`. -/
def substituteIntoWith (keep cyclic : List String) (place : Production → List Production)
    (earlier : List Production) (guard : Nat) (p : Production) (sources : RewriteSources)
    (added : Nat) : Except EmitError SubstitutionWith :=
  let st : SubstitutionWith := ⟨⟨p, 0, added, false⟩, sources, []⟩
  if exemptAlias p cyclic then .ok st else substituteEarlierWith diag keep place earlier guard st

/-- The main loop: the productions processed, their sources and the states after each step. -/
def paullWith (keep cyclic : List String) (guard : Nat) :
    List Production → List Production → RewriteSources → Nat → List String →
      Except EmitError (Rewriting × List Rewriting)
  | done, [], sources, _, _ => .ok (⟨done, sources⟩, [])
  | done, p :: rest, sources, added, debtNames => do
    let place := fun p : Production => done ++ p :: rest
    let st ← substituteIntoWith diag keep cyclic place done guard p sources added
    let (next, debtNames) ← eliminateDirectLeftRecWith diag st.target
      (sourcesOf st.sources st.target.name) debtNames
    let sources := Table.insert st.sources st.target.name next.2
    let (out, steps) ←
      paullWith keep cyclic guard (done ++ [next.1]) rest sources st.added debtNames
    return (out, st.steps ++ ⟨place next.1, sources⟩ :: steps)

/-- `EliminatedGrammar`, with the states it went through. -/
structure EliminatedGrammar where
  grammar : Grammar
  sources : RewriteSources
  steps : List Rewriting

/-- `eliminate_left_recursion_keeping`. -/
def eliminateKeepingWith (grammar : Grammar) (keep : List String) :
    Except EmitError EliminatedGrammar := do
  let copies := grammar.productions.map fun p => p.rebuilt p.alts
  let sources := Table.insertAll [] (grammar.productions.map fun p =>
    (p.name, authoredAlts p p.alts))
  let (expanded, sources, added, steps) ← expandWith diag [] copies sources 0
  let prods := topoOrderForPaull expanded
  let cyclic := findLeadingRefCycleMembers prods
  let (done, more) ← paullWith diag keep cyclic (prods.length + 1) [] prods sources added []
  return { grammar := { productions := takeSlots grammar.names (slotsOf done.prods) },
           sources := done.sources, steps := steps ++ more }

end

/-! ## The check with its sources -/

section

variable (diag : String)

/-- `refuse`, at a source. -/
def refuseSource (source : RewriteSource) (message : String) : EmitError :=
  .at (diag ++ ": rule '" ++ source.rule ++ "' " ++ message) source.rule source.sp

mutual
/-- `validate_bounds`. -/
def validateSourceBounds : Element → RewriteSource → Except EmitError Unit
  | .group alts _, .group _ _ sources => validateSourceBoundsAlts alts sources
  | .rep min max e _, source =>
    match max with
    | some m =>
      if m < min then
        .error (refuseSource diag source ("has invalid repetition bounds '" ++
          toString min ++ "*" ++ toString m ++ "'. Bounds must be non-negative integers and the " ++
          "upper bound must not be lower than the lower bound."))
      else match source with
        | .inner _ _ s => validateSourceBounds e s
        | _ => .ok ()
    | none => match source with
      | .inner _ _ s => validateSourceBounds e s
      | _ => .ok ()
  | .opt e _, .inner _ _ s => validateSourceBounds e s
  | .star e _ _, .inner _ _ s => validateSourceBounds e s
  | .plus e _, .inner _ _ s => validateSourceBounds e s
  | _, _ => .ok ()

/-- `validate_bounds` on the elements of an alternative that have a source. -/
def validateSourceBoundsSeq : List Element → AltSources → Except EmitError Unit
  | el :: rest, s :: sources => do
    validateSourceBounds el s
    validateSourceBoundsSeq rest sources
  | _, _ => .ok ()

/-- `validate_bounds` on the alternatives that have sources. -/
def validateSourceBoundsAlts : List (List Element) → List AltSources → Except EmitError Unit
  | alt :: rest, s :: sources => do
    validateSourceBoundsSeq alt s
    validateSourceBoundsAlts rest sources
  | _, _ => .ok ()
end

variable (verdict : Verdict) (nullable : List String)

mutual
/-- `non_consuming_source`. -/
def nonConsumingSource : Element → RewriteSource → Option RewriteSource
  | el@(.group alts _), source@(.group _ _ sources) =>
    if elementMayMatchWithoutConsuming verdict nullable el then
      (nonConsumingSourceAlts alts sources).map fun found => found.getD source
    else none
  | el@(.plus inner _), source@(.inner _ _ s) =>
    if elementMayMatchWithoutConsuming verdict nullable el then
      some ((nonConsumingSource inner s).getD source)
    else none
  | el@(.rep (_ + 1) _ inner _), source@(.inner _ _ s) =>
    if elementMayMatchWithoutConsuming verdict nullable el then
      some ((nonConsumingSource inner s).getD source)
    else none
  | el, source =>
    if elementMayMatchWithoutConsuming verdict nullable el then some source else none

/-- The first of a sequence. -/
def nonConsumingSourceSeq : List Element → AltSources → Option RewriteSource
  | el :: rest, s :: sources => (nonConsumingSource el s).or (nonConsumingSourceSeq rest sources)
  | _, _ => none

/-- The first of the first alternative that may match without consuming, if there is such an
alternative. -/
def nonConsumingSourceAlts : List (List Element) → List AltSources → Option (Option RewriteSource)
  | alt :: rest, s :: sources =>
    if sequenceDerivesEmpty verdict nullable alt then some (nonConsumingSourceSeq alt s)
    else nonConsumingSourceAlts rest sources
  | _, _ => none
end

/-- The refusal of an unbounded repetition of `inner`. -/
def checkSourceItem (inner : Element) (innerSource : RewriteSource) : Except EmitError Unit :=
  if elementMayMatchWithoutConsuming verdict nullable inner then
    .error (refuseSource diag ((nonConsumingSource verdict nullable inner innerSource).getD innerSource)
      ("has an unbounded repetition whose item can succeed without consuming input. " ++
        "An unbounded repetition must consume input on every iteration."))
  else .ok ()

mutual
/-- `walk`. -/
def walkSources : Element → RewriteSource → Except EmitError Unit
  | .group alts _, .group _ _ sources => walkSourcesAlts alts sources
  | .opt e _, source => walkSources e (source.innerSource.getD source)
  | .star e _ _, source => do
    checkSourceItem diag verdict nullable e (source.innerSource.getD source)
    walkSources e (source.innerSource.getD source)
  | .plus e _, source => do
    checkSourceItem diag verdict nullable e (source.innerSource.getD source)
    walkSources e (source.innerSource.getD source)
  | .rep _ none e _, source => do
    checkSourceItem diag verdict nullable e (source.innerSource.getD source)
    walkSources e (source.innerSource.getD source)
  | .rep _ (some _) e _, source => walkSources e (source.innerSource.getD source)
  | _, _ => .ok ()

/-- `walk` on the elements of an alternative that have a source. -/
def walkSourcesSeq : List Element → AltSources → Except EmitError Unit
  | el :: rest, s :: sources => do
    walkSources el s
    walkSourcesSeq rest sources
  | _, _ => .ok ()

/-- `walk` on the alternatives that have sources. -/
def walkSourcesAlts : List (List Element) → List AltSources → Except EmitError Unit
  | alt :: rest, s :: sources => do
    walkSourcesSeq alt s
    walkSourcesAlts rest sources
  | _, _ => .ok ()
end

/-- `validate_rewrite_repetitions`. -/
def validateRewriteRepetitions (grammar : Grammar) (sources : RewriteSources) :
    Except EmitError Unit := do
  let _ ← grammar.productions.mapM fun prod =>
    validateSourceBoundsAlts diag prod.alts (sourcesOf sources prod.name)
  let nullable := nonConsumingRules verdict grammar.productions
  let _ ← grammar.productions.mapM fun prod =>
    walkSourcesAlts diag verdict nullable prod.alts (sourcesOf sources prod.name)
  return ()

end

end TabnasBnf
