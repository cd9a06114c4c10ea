import TabnasBnf.BudgetTrace
import TabnasBnf.EmitEntries
import TabnasBnf.PlaceOrder

/-!
# What an emission charges

The functions of `Emit.lean` with every call they make on the budget, in order: an alternate is
charged as it is made (`made`), a rule for the rest of it when it is committed (`commit_rule`), and
a decision holds its paths while what it decides is written. Each is an `Emission`, and returns what
its namesake of `Emit.lean` computes (`emits_emitRules`).

* `Budgeted.Writing` counts the units of the alternates made for a rule (`pre`).
* `Emits`, `Makes` and `Writes` are what is said of a part, with one rule a constructor.
* A commit takes no more for charged than its rule holds (`makes_singleRule`,
  `writes_dispatchRules`), and what a whole run has written is what its rules hold
  (`emitRules_run`).
-/

namespace TabnasBnf

open Calls Saturate

/-- `alt_units`. -/
def AltSpec.units (o : AltSpec) : Nat :=
  1 + o.s.length + (if o.p.isSome then 1 else 0) + if o.r.isSome then 1 else 0

/-- The units of several alternates. -/
def altUnits (os : List AltSpec) : Nat := (os.map AltSpec.units).sum

/-- `rule_units`. -/
def RuleSpec.units (rs : RuleSpec) : Nat := 1 + altUnits rs.opens + altUnits (rs.close.getD [])

/-- `probe_rule_units`. -/
def probeRuleUnits (n : Nat) : Nat := 3 * n + 2

/-- The units of the alternates of entries. -/
def entryUnits (es : List Entry) : Nat := altUnits (es.map Entry.o)

namespace Budgeted

/-- The writing of a rule, with the units of the alternates made for it so far (`pre`). -/
abbrev Writing (α : Type) := StateT Nat Budgeted α

/-- What the budget has no part in. -/
def check {α : Type} (x : Except EmitError α) : Budgeted α := .done x

/-- A decision whose paths are held while they are written out. -/
def deciding {α β : Type} (paths : Budgeted α) (write : α → Writing β) : Writing β :=
  fun pre => decision do write (← paths) pre

/-- `made`. -/
def made (o : AltSpec) : Writing AltSpec := fun pre => do
  charge o.units
  return (o, pre + o.units)

/-- An entry, its alternate made. -/
def madeEntry (e : Entry) : Writing Entry := do return { e with o := ← made e.o }

section

variable (diag : String) (E : Emitter)

/-- `commit_rule`. -/
def commitRule (name : String) (rs : RuleSpec) (pre : Nat) : Budgeted (String × RuleSpec) :=
  if rs.units < pre then
    Program.fail ⟨diag ++ ": internal — rule '" ++ name ++ "' holds " ++ toString rs.units ++
      " units, fewer than the " ++ toString pre ++ " charged for its alternates", none, none⟩
  else do
    charge (rs.units - pre)
    return (name, rs)

/-- Rules none of whose alternates are charged yet. -/
def commitRules (rules : RuleTable) : Budgeted RuleTable :=
  rules.mapM' fun (name, rs) => commitRule diag name rs 0

/-- `emit_chain`. -/
def emitChain (head : String) (alt : Sequence) (origin : String) (value : Option ValueAnnotation)
    (nested : Option (List Bool)) (sp : Option SrcSpan) : Budgeted RuleTable := do
  commitRules diag (← check (TabnasBnf.emitChain diag E head alt origin value nested sp))

/-! ## The entries of a rule -/

/-- `pair_exit_guards`. -/
def pairExitGuards (prod : Production) (base : AltSpec) : Writing (List AltSpec) :=
  (TabnasBnf.pairExitGuards E prod base).mapM' made

/-- The exits of a repetition helper's empty alternative: the FOLLOW peeks are made before the
guards that go ahead of them. -/
def exitEntries (prod : Production) (o : AltSpec) : Writing (List Entry × List Entry) :=
  if prod.repeatHelper then do
    let peeks ← (E.follow.get prod.name).mapM' fun tok => madeEntry ⟨peekCopy o [tok] 1, none⟩
    let guards ← pairExitGuards E prod o
    return (guards.map (⟨·, none⟩), peeks)
  else return ([], [])

/-- The tokens a keyword is told by, from the paths of its alternative: none where no guard can be
justified. -/
def keywordSeconds (prod : Production) (f : String) (enumerated : List PrefixPath) :
    Option (List String) :=
  let paths := enumerated.filter fun p => p.tokens.head? == some f
  let fol := E.follow.get prod.name
  if fol.isEmpty && paths.any (·.tokens.length < 2) then none
  else
    let seconds := addAll [] (paths.flatMap fun p =>
      match p.tokens[1]? with
      | some u => [u]
      | none => fol)
    if seconds.isEmpty || seconds.length > 16 then none else some seconds

/-- The guards of a keyword, each made. -/
def madeGuards (o : AltSpec) (f : String) : Option (List String) → Writing (Option (List AltSpec))
  | none => return none
  | some seconds => return some (← seconds.mapM' fun u => made (peekCopy o [f, u] (o.b + 1)))

/-- `synth_keyword_guards`. -/
def synthKeywordGuards (prod : Production) (o : AltSpec) (alt : Sequence) (f : String) :
    Writing (Option (List AltSpec)) := do
  let paths ← decision (pathsOf E.grammar E.tokens E.contest.classSets 2 (fun _ => true) alt)
  madeGuards o f (keywordSeconds E prod f paths)

/-- Where one entry goes. -/
def placeEntry (prod : Production) (entries : List Entry) (i : Nat) (e : Entry) :
    Writing (List Placed) :=
  let hits := contestedBy E entries e
  match hits.head?, hits.getLast?, e.alt, e.o.s with
  | some firstC, some lastC, some alt, [f] => do
    let guards ← if e.o.b ≤ 1 then synthKeywordGuards E prod e.o alt f else pure none
    return match guards with
      | some guards =>
        guards.map (⟨·, min (2 * i) (2 * firstC - 1)⟩) ++ [⟨e.o, max (2 * i) (2 * lastC + 1)⟩]
      | none => [⟨e.o, 2 * i⟩]
  | some firstC, some _, some _, _ => return [⟨e.o, min (2 * i) (2 * firstC - 1)⟩]
  | _, _, _, _ => return [⟨e.o, 2 * i⟩]

/-- `reorder_keyword_shadow`. -/
def reorderKeywordShadow (prod : Production) (entries : List Entry) : Writing (List AltSpec) := do
  let placed ← entries.zipIdx.mapM' fun (e, i) => placeEntry E prod entries i e
  return (placed.flatten.insertionSort fun a b => a.rank ≤ b.rank).map Placed.o

/-- What becomes of the entries of a rule. -/
def placeEntries (prod : Production) (entries : List Entry) : Writing (List AltSpec) :=
  reorderKeywordShadow E prod (specificityPermute E (applyDebtGuard prod entries))

/-- The peeks of an alternative that is one reference. -/
def refPeeks (prod : Production) (ordered : List Sequence) (idx : Nat) (alt : Sequence)
    (seg : Segment) (firstTokens : List String) : Writing (List Entry) :=
  deciding
    (peekPaths E.grammar E.tokens E.contest.classSets
      (altHeadContested E idx ordered || contestedByFollow E prod alt) alt)
    fun prefixes =>
      let paths := prefixes.filter (!·.isEmpty)
      let peeks :=
        if !paths.isEmpty && paths.length ≤ 64 then paths else firstTokens.map fun tok => [tok]
      peeks.mapM' fun s => madeEntry
        ⟨{ s := s, b := s.length, p := some (seg.reference.getD ""), n := seg.debt }, some alt⟩

/-! ## A rule of single segments -/

/-- The entries of one alternative: those for the front, and those that go to the end. -/
def singleEntries (prod : Production) (isLoop : Bool) (ordered : List Sequence) (idx : Nat)
    (alt : Sequence) : Writing (List Entry × List Entry) :=
  let seg := (segmentize E.tokens alt).headD {}
  let isRefOnly := !alt.isEmpty && alt.all Element.isRef && seg.terms.isEmpty &&
    seg.reference.isSome
  match if ordered.length > 1 && isRefOnly then firstOfAlt E.tokens E.sets alt else none with
  | some firstTokens => do return ([], ← refPeeks E prod ordered idx alt seg firstTokens)
  | none => do
    let o := singleAlternate prod isLoop alt seg
    let exits ← (if alt.isEmpty then exitEntries E prod o else pure ([], []))
    let peek := refPeekTokens E ordered idx seg
    let own ←
      (if peek.isEmpty then [(⟨o, if alt.isEmpty then none else some alt⟩ : Entry)]
        else peek.map fun tok => ⟨peekCopy o (seg.terms ++ [tok]) 1, some alt⟩).mapM' madeEntry
    return (exits.1, exits.2 ++ own)

/-- The entries of a rule of single segments. -/
def allSingleEntries (prod : Production) (isLoop : Bool) : Writing (List Entry) := do
  let ordered := emptyAltsLast prod.alts
  let news ← ordered.zipIdx.mapM' fun (alt, idx) => singleEntries E prod isLoop ordered idx alt
  return news.foldl (fun entries new => new.1 ++ entries ++ new.2) []

/-- The rule of a production whose alternatives all are single segments, before it is committed. -/
def singleRule (prod : Production) (isLoop : Bool) : Writing RuleSpec := do
  let placed ← placeEntries E prod (← allSingleEntries E prod isLoop)
  return if isLoop then ⟨loopEntry prod :: placed, none⟩
    else ⟨placed, if prod.alts.any (·.any Element.isRef) then some [captureClose none] else none⟩

/-! ## A dispatcher -/

/-- What is written for an alternative of a dispatcher while its prefixes are held: its rules and
its entries. The entries of its empty derivation are made when all alternatives are. -/
structure Impl where
  rules : RuleTable
  entries : List Entry
  empties : List Entry

/-- The loop body of the dispatch of `emit_production` for one alternative. -/
def emitImpl (prod : Production) (loopItem : Option Element) (i : Nat) (alt : Sequence)
    (d : DispatchPrefixes) : Writing Impl := do
  let rules ← check (implRules diag E prod loopItem i alt)
  let committed ← commitRules diag rules
  let entries ← check (implEntries diag E prod loopItem.isSome i alt d)
  let made ← entries.mapM' madeEntry
  return ⟨committed, made,
    if !alt.isEmpty && d.nullable && !loopItem.isSome then nullableEntries E prod i else []⟩

/-- The dispatch of `emit_production`: its prefixes are held until the entries made from them are
written. -/
def emitImpls (prod : Production) (loopItem : Option Element) : Writing (List Impl) :=
  deciding
    (dispatchPrefixes E.grammar E.tokens E.contest.classSets diag E.contest.headsContest lookaheadK
      (exitPaths E prod) prod.alts)
    fun dispatch => (prod.alts.zip dispatch).zipIdx.mapM' fun ((alt, d), i) =>
      emitImpl diag E prod loopItem i alt d

/-- The entries of a dispatcher, behind those of its alternatives the ones that take no token. -/
def dispatchEntries (prod : Production) (impls : List Impl) : Writing (List Entry) := do
  let content := impls.flatMap Impl.entries
  let nullable ← (impls.flatMap Impl.empties).mapM' madeEntry
  if prod.alts.any List.isEmpty then
    let exits ← exitEntries E prod {}
    let bare ← madeEntry ⟨{}, none⟩
    return exits.1 ++ content ++ nullable ++ exits.2 ++ [bare]
  else return content ++ nullable

/-- The rules of a dispatcher, the last of them its own and not committed yet. -/
def dispatchRules (prod : Production) (loopItem : Option Element) :
    Writing (RuleTable × RuleSpec) := do
  let impls ← emitImpls diag E prod loopItem
  let placed ← placeEntries E prod (← dispatchEntries E prod impls)
  return (impls.flatMap Impl.rules,
    if loopItem.isSome then ⟨loopEntry prod :: placed, none⟩
    else ⟨placed, some [captureClose none]⟩)

/-! ## Productions -/

/-- What `emit_production` does behind its checks, of the alternatives as they stand. -/
def emitAlternatives (prod : Production) (loopItem : Option Element) : Budgeted RuleTable :=
  if prod.alts.all isSingleSegment && prod.value.isNone &&
      !(E.arrayHelpers.contains prod.name && prod.alts.length > 1 && !prod.repeatHelper) then do
    let r ← singleRule E prod loopItem.isSome 0
    return [← commitRule diag prod.name r.1 r.2]
  else
    match prod.alts with
    | [alt] =>
      emitChain diag E prod.name alt prod.originOf prod.value (E.valuePlan.lookup prod.originOf)
        prod.sp
    | alts =>
      if prod.value.isSome then
        Program.fail ⟨diag ++ ": rule '" ++ prod.originOf ++ "' has a value annotation and " ++
          toString alts.length ++ " alternatives. A value annotation names the parts of ONE " ++
          "alternative; with more than one it is ambiguous which alternative's parts are named. " ++
          "Split the rule, or annotate the alternatives' own rules.", none, none⟩
      else do
        let r ← dispatchRules diag E prod loopItem 0
        return r.1.1 ++ [← commitRule diag prod.name r.1.2 r.2]

/-- `emit_production`. -/
def emitProduction (prod : Production) : Budgeted RuleTable := do
  check (prod.alts.forM fun alt => validateRefs diag E alt prod.name)
  match prod.tailRepeat with
  | some tail => commitRules diag [(prod.name, emitTailRepeat E prod tail)]
  | none => do
    let loopItem ← check (if prod.repeatLoop then some <$> loopItemOf diag prod else pure none)
    emitAlternatives diag E prod loopItem

/-- The rules of one production of the grammar. -/
def emitRule (prod : Production) : Budgeted RuleTable := do
  beginStep (.rule prod.originOf) prod.sp stepAlternates
  match prod.probeHelper, prod.probeDispatch with
  | some helper, _ => do
    -- charged with the list it is made from
    return [← commitRule diag prod.name (emitProbeHelper E prod helper)
      (probeRuleUnits helper.vocabElements.length)]
  | none, some pd => do
    let rule ← check (emitProbeDispatch diag E prod pd)
    commitRules diag [(prod.name, rule)]
  | none, none => emitProduction diag E prod

/-- The rules `emit_grammar_spec` emits: those of each production, and the start wrapper. -/
def emitRules (start : String) : Budgeted RuleTable := do
  let rules ← E.grammar.productions.mapM' (emitRule diag E)
  beginStep (.rule start) none stepAlternates
  let wrapper ← commitRule diag (startWrapper E)
    ⟨[{ p := some start }], some [{ s := ["#ZZ"] }]⟩ 0
  return Table.insert (Table.insertAll [] rules.flatten) wrapper.1 wrapper.2

end

end Budgeted

/-! ## The rules -/

/-- The operations of an emitter's program are an emission, and where nothing is refused it returns
what `post` says, with the units it charged. -/
structure Emits {α : Type} (diag : String) (E : Emitter) (p : Budgeted α)
    (post : α → Nat → Prop) : Prop where
  emission : Emission diag E.grammar E.tokens E.contest.classSets E.contest.headsContest p
  returns (b : EmitBudget) : b.Fits →
    Abides diag p b fun a b' => ∃ n, post a n ∧ Charged n b b'

/-- A part of the writing of a rule returns `value` and makes `n` units of alternates, whatever was
made before. -/
def Makes {α : Type} (diag : String) (E : Emitter) (p : Budgeted.Writing α) (value : α)
    (n : Nat) : Prop :=
  ∀ pre, Emits diag E (p pre) fun r m => r = (value, pre + n) ∧ m = n

section

variable {α β : Type} {diag : String} {E : Emitter}

theorem Emits.mono {p : Budgeted α} {post post' : α → Nat → Prop} (h : Emits diag E p post)
    (hpost : ∀ a n, post a n → post' a n) : Emits diag E p post' where
  emission := h.emission
  returns b hb := (h.returns b hb).mono fun a _ ⟨n, ha, hn⟩ => ⟨n, hpost a n ha, hn⟩

theorem emits_pure {a : α} {post : α → Nat → Prop} (h : post a 0) :
    Emits diag E (pure a) post where
  emission := .pure a
  returns _ hb := abides_pure ⟨0, h, .zero hb⟩

theorem Emits.bind {p : Budgeted α} {f : α → Budgeted β} {mid : α → Nat → Prop}
    {post : β → Nat → Prop} (h : Emits diag E p mid)
    (hf : ∀ a, Emits diag E (f a) fun x m => ∀ n, mid a n → post x (n + m)) :
    Emits diag E (p >>= f) post where
  emission := .bind h.emission fun a => (hf a).emission
  returns b hb := by
    refine (h.returns b hb).bind ?_
    rintro a b₁ ⟨n, ha, h₁⟩
    refine ((hf a).returns b₁ h₁.fits).mono ?_
    rintro x b₂ ⟨m, hx, h₂⟩
    exact ⟨n + m, hx n ha, h₁.trans h₂⟩

theorem emits_check (x : Except EmitError α) :
    Emits diag E (Budgeted.check x) fun a n => x = .ok a ∧ n = 0 := by
  cases x with
  | error e => exact ⟨.fail e, fun _ _ => abides_fail⟩
  | ok a => exact emits_pure ⟨rfl, rfl⟩

theorem emits_charge (n : Nat) : Emits diag E (Budgeted.charge n) fun _ m => m = n where
  emission := .charge n
  returns _ hb := (abides_charge hb n).mono fun _ _ h => ⟨n, rfl, h⟩

theorem emits_beginStep (subject : Subject) (sp : Option SrcSpan) {step : EmitStep}
    (h : step ∈ emitSteps) :
    Emits diag E (Budgeted.beginStep subject sp step) fun _ n => n = 0 where
  emission := .begin subject sp h
  returns _ hb := (abides_beginStep hb subject sp step).mono fun _ _ h => ⟨0, rfl, h⟩

/-- The decision of a keyword's guards. -/
theorem emits_guards (alt : Sequence) :
    Emits diag E
      (Budgeted.decision
        (Budgeted.pathsOf E.grammar E.tokens E.contest.classSets 2 (fun _ => true) alt))
      fun paths n =>
        paths = enumerate E.grammar E.tokens E.contest.classSets 2 (fun _ => true) alt ∧
          n = 0 where
  emission := .guards alt
  returns b hb := by
    refine (abides_decision (fun paths written =>
      paths = enumerate E.grammar E.tokens E.contest.classSets 2 (fun _ => true) alt ∧
        written = b.written) hb ((abides_pathsOf hb 2 _ alt).mono ?_)).mono ?_
    · rintro paths b₁ ⟨rfl, h₁⟩
      exact ⟨h₁.fits, (Nat.le_add_right _ _).trans h₁.held, rfl, h₁.written⟩
    · rintro paths b' ⟨hfits, hheld, hpaths, hwritten⟩
      exact ⟨0, ⟨hpaths, rfl⟩, hfits, hheld, hwritten⟩

/-- What a decision writes while its paths are held, it charges. -/
theorem abides_deciding {paths : Budgeted α} {write : α → Budgeted β} {value : α → Prop}
    {post : β → Nat → Prop} {b : EmitBudget} (hb : b.Fits)
    (h : Abides diag paths b fun a b' => value a ∧ Holds 0 b b')
    (hwrite : ∀ a, Emits diag E (write a) fun x n => value a → post x n) :
    Abides diag (Budgeted.decision do write (← paths)) b fun x b' =>
      ∃ n, post x n ∧ Charged n b b' := by
  refine (abides_decision (fun x written => ∃ n, post x n ∧ written = b.written + n) hb
    (h.bind ?_)).mono ?_
  · rintro a b₁ ⟨ha, h₁⟩
    refine ((hwrite a).returns b₁ h₁.fits).mono ?_
    rintro x b₂ ⟨n, hx, h₂⟩
    have hheld := h₁.held
    exact ⟨h₂.fits, by rw [h₂.held]; omega, n, hx ha, by rw [h₂.written, h₁.written]⟩
  · rintro x b' ⟨hfits, hheld, n, hx, hwritten⟩
    exact ⟨n, hx, hfits, hheld, hwritten⟩

/-- The decision of a reference's peeks. -/
theorem emits_peeks (contested : Bool) (alt : Sequence) {write : List (List String) → Budgeted β}
    {post : β → Nat → Prop}
    (hwrite : ∀ paths, Emits diag E (write paths) fun x n =>
      paths = (if contested then altPrefixes E alt lookaheadK else []) → post x n) :
    Emits diag E
      (Budgeted.decision do
        write (← Budgeted.peekPaths E.grammar E.tokens E.contest.classSets contested alt))
      post where
  emission := .peeks contested alt fun paths => (hwrite paths).emission
  returns _ hb := abides_deciding hb (abides_peekPaths hb contested alt) hwrite

/-- The decision of a dispatcher. -/
theorem emits_dispatch (exits : List (List String)) (alts : List Sequence)
    {write : List DispatchPrefixes → Budgeted β} {post : β → Nat → Prop}
    (hwrite : ∀ out, Emits diag E (write out) fun x n =>
      dispatchPrefixes E.grammar E.tokens E.contest.classSets E.contest.headsContest lookaheadK
        exits alts = some out → post x n) :
    Emits diag E
      (Budgeted.decision do
        write (← Budgeted.dispatchPrefixes E.grammar E.tokens E.contest.classSets diag
          E.contest.headsContest lookaheadK exits alts))
      post where
  emission := .dispatch exits alts fun out => (hwrite out).emission
  returns _ hb :=
    abides_deciding hb ((abides_dispatchPrefixes hb _ exits alts).mono fun _ _ h =>
      ⟨h.1, h.2.mono (Nat.zero_le _)⟩) hwrite

/-- A program for each element, one after another. -/
theorem emits_mapM' (R : α → β → Prop) (cost : β → Nat) {f : α → Budgeted β}
    (hf : ∀ a, Emits diag E (f a) fun x n => R a x ∧ n = cost x) (l : List α) :
    Emits diag E (l.mapM' f) fun out n => List.Forall₂ R l out ∧ n = (out.map cost).sum := by
  induction l with
  | nil => exact emits_pure ⟨.nil, rfl⟩
  | cons a rest ih =>
    rw [List.mapM'_cons]
    refine (hf a).bind fun x => ih.bind fun out => emits_pure ?_
    rintro n ⟨hout, rfl⟩ m ⟨hx, rfl⟩
    exact ⟨.cons hx hout, by simp⟩

/-! ### The units made for a rule -/

theorem makes_pure (a : α) : Makes diag E (pure a) a 0 := fun _ => emits_pure ⟨rfl, rfl⟩

theorem Makes.bind {p : Budgeted.Writing α} {f : α → Budgeted.Writing β} {a : α} {value : α → β}
    {n : Nat} {cost : α → Nat} (h : Makes diag E p a n)
    (hf : ∀ a, Makes diag E (f a) (value a) (cost a)) :
    Makes diag E (p >>= f) (value a) (n + cost a) := by
  intro pre
  refine (h pre).bind fun r => (hf r.1 r.2).mono ?_
  rintro x m ⟨rfl, rfl⟩ _ ⟨rfl, rfl⟩
  exact ⟨by rw [Nat.add_assoc], rfl⟩

theorem Makes.congr {p : Budgeted.Writing α} {a a' : α} {n n' : Nat} (h : Makes diag E p a n)
    (ha : a = a') (hn : n = n') : Makes diag E p a' n' := ha ▸ hn ▸ h

theorem Makes.map {p : Budgeted.Writing α} {a : α} {n : Nat} (h : Makes diag E p a n)
    (g : α → β) : Makes diag E (do return g (← p)) (g a) n :=
  h.bind fun a => makes_pure (g a)

theorem makes_mapM' {f : α → Budgeted.Writing β} {value : α → β} {cost : α → Nat}
    (hf : ∀ a, Makes diag E (f a) (value a) (cost a)) (l : List α) :
    Makes diag E (l.mapM' f) (l.map value) (l.map cost).sum := by
  induction l with
  | nil => exact makes_pure []
  | cons a rest ih =>
    rw [List.mapM'_cons]
    exact ((hf a).bind fun x => ih.map (x :: ·)).congr rfl (by simp)

theorem makes_made (o : AltSpec) : Makes diag E (Budgeted.made o) o o.units := fun pre =>
  (emits_charge o.units).bind fun _ => emits_pure (by rintro _ rfl; exact ⟨rfl, rfl⟩)

theorem makes_mades (os : List AltSpec) :
    Makes diag E (os.mapM' Budgeted.made) os (altUnits os) :=
  (makes_mapM' makes_made os).congr (List.map_id os) rfl

theorem makes_madeEntry (e : Entry) : Makes diag E (Budgeted.madeEntry e) e e.o.units :=
  (makes_made e.o).map fun o => { e with o := o }

theorem makes_entriesOf (g : α → Entry) (xs : List α) :
    Makes diag E (xs.mapM' fun x => Budgeted.madeEntry (g x)) (xs.map g)
      (entryUnits (xs.map g)) :=
  (makes_mapM' (fun x => makes_madeEntry (g x)) xs).congr rfl
    (by rw [entryUnits, altUnits, List.map_map, List.map_map]; rfl)

theorem makes_madeEntries (es : List Entry) :
    Makes diag E (es.mapM' Budgeted.madeEntry) es (entryUnits es) :=
  (makes_entriesOf id es).congr (List.map_id es) (by rw [List.map_id])

/-- A decision of the writing of a rule. -/
theorem makes_lift {p : Budgeted α} {a : α} (h : Emits diag E p fun x n => x = a ∧ n = 0) :
    Makes diag E (monadLift p) a 0 := fun pre =>
  h.bind fun x => emits_pure (by rintro n ⟨rfl, rfl⟩; exact ⟨rfl, rfl⟩)

/-! ## The entries of a rule -/

@[simp] theorem altUnits_nil : altUnits [] = 0 := rfl

@[simp] theorem altUnits_cons (o : AltSpec) (os : List AltSpec) :
    altUnits (o :: os) = o.units + altUnits os := rfl

@[simp] theorem altUnits_append (os os' : List AltSpec) :
    altUnits (os ++ os') = altUnits os + altUnits os' := by
  simp [altUnits]

@[simp] theorem entryUnits_nil : entryUnits [] = 0 := rfl

@[simp] theorem entryUnits_cons (e : Entry) (es : List Entry) :
    entryUnits (e :: es) = e.o.units + entryUnits es := rfl

@[simp] theorem entryUnits_append (es es' : List Entry) :
    entryUnits (es ++ es') = entryUnits es + entryUnits es' := by
  simp [entryUnits]

theorem altUnits_perm {os os' : List AltSpec} (h : os.Perm os') : altUnits os = altUnits os' :=
  (h.map AltSpec.units).sum_eq

theorem makes_pairExitGuards (prod : Production) (base : AltSpec) :
    Makes diag E (Budgeted.pairExitGuards E prod base) (pairExitGuards E prod base)
      (altUnits (pairExitGuards E prod base)) :=
  makes_mades _

theorem makes_exitEntries (prod : Production) (o : AltSpec) :
    Makes diag E (Budgeted.exitEntries E prod o) (exitEntries E prod o)
      (entryUnits (exitEntries E prod o).1 + entryUnits (exitEntries E prod o).2) := by
  unfold Budgeted.exitEntries exitEntries
  split
  · refine ((makes_entriesOf (fun tok => ⟨peekCopy o [tok] 1, none⟩) _).bind fun peeks =>
      (makes_pairExitGuards prod o).map fun guards =>
        (guards.map fun g => (⟨g, none⟩ : Entry), peeks)).congr rfl ?_
    simp [entryUnits, altUnits, Function.comp_def, Nat.add_comm]
  · exact makes_pure ([], [])

theorem synthKeywordGuards_eq (prod : Production) (o : AltSpec) (alt : Sequence) (f : String) :
    synthKeywordGuards E prod o alt f =
      (Budgeted.keywordSeconds E prod f (enumerate E.grammar E.tokens E.contest.classSets 2
        (fun _ => true) alt)).map fun seconds => seconds.map fun u =>
          peekCopy o [f, u] (o.b + 1) := by
  unfold synthKeywordGuards Budgeted.keywordSeconds
  dsimp only
  rw [apply_ite (Option.map _), apply_ite (Option.map _)]
  rfl

theorem makes_madeGuards (o : AltSpec) (f : String) (seconds : Option (List String)) :
    Makes diag E (Budgeted.madeGuards o f seconds)
      (seconds.map fun us => us.map fun u => peekCopy o [f, u] (o.b + 1))
      (altUnits ((seconds.map fun us => us.map fun u => peekCopy o [f, u] (o.b + 1)).getD [])) := by
  cases seconds with
  | none => exact makes_pure none
  | some us =>
    refine ((makes_mapM' (fun u => makes_made (peekCopy o [f, u] (o.b + 1))) us).map some).congr
      rfl ?_
    simp [altUnits, Function.comp_def]

theorem makes_synthKeywordGuards (prod : Production) (o : AltSpec) (alt : Sequence) (f : String) :
    Makes diag E (Budgeted.synthKeywordGuards E prod o alt f) (synthKeywordGuards E prod o alt f)
      (altUnits ((synthKeywordGuards E prod o alt f).getD [])) := by
  rw [synthKeywordGuards_eq]
  exact ((makes_lift (emits_guards alt)).bind fun paths =>
    makes_madeGuards o f (Budgeted.keywordSeconds E prod f paths)).congr rfl (Nat.zero_add _)

/-- An entry makes its guards. -/
theorem makes_placeEntry (prod : Production) (entries : List Entry) (i : Nat) (e : Entry) :
    Makes diag E (Budgeted.placeEntry E prod entries i e) (placeEntry E prod entries i e)
      (altUnits (guardsOf E prod entries e)) := by
  have hany : entries.any (contests E e) = !(contestedBy E entries e).isEmpty := by
    rw [contestedBy_isEmpty, Bool.not_not]
  unfold Budgeted.placeEntry placeEntry guardsOf
  dsimp only
  rw [hany]
  cases hhits : contestedBy E entries e with
  | nil => cases e.alt <;> rcases e.o.s with _ | ⟨f, _ | ⟨g, s⟩⟩ <;> exact makes_pure _
  | cons c cs =>
    obtain ⟨c', -, hc⟩ := mem_contestedBy.mp (hhits ▸ List.mem_cons_self : c ∈ contestedBy E entries e)
    obtain ⟨⟨alt, halt⟩, ⟨f, s, hs, -⟩, -⟩ := contests_cases hc
    have hlast := List.getLast?_eq_some_getLast (List.cons_ne_nil c cs)
    rw [halt, hs, hlast, List.head?_cons]
    cases s with
    | cons g s => exact makes_pure _
    | nil =>
      by_cases hb : e.o.b ≤ 1
      · simp only [if_pos hb]
        refine ((makes_synthKeywordGuards prod e.o alt f).map _).congr rfl ?_
        simp [hb]
      · simp only [if_neg hb]
        refine ((makes_pure none).map _).congr rfl ?_
        simp [hb]

theorem altUnits_flatMap {γ : Type} (g : γ → List AltSpec) (xs : List γ) :
    altUnits (xs.flatMap g) = (xs.map fun x => altUnits (g x)).sum := by
  induction xs with
  | nil => rfl
  | cons x rest ih => simp [ih]

theorem map_zipIdx_fst {γ δ : Type} (g : γ → δ) (xs : List γ) :
    (xs.zipIdx.map fun x => g x.1) = xs.map g := by
  conv_rhs => rw [← List.zipIdx_map_fst 0 xs, List.map_map]
  rfl

/-- The order of the entries makes their guards. -/
theorem makes_reorderKeywordShadow (prod : Production) (entries : List Entry) :
    Makes diag E (Budgeted.reorderKeywordShadow E prod entries)
      (reorderKeywordShadow E prod entries)
      (altUnits (entries.flatMap (guardsOf E prod entries))) := by
  refine ((makes_mapM' (fun x => makes_placeEntry prod entries x.2 x.1) entries.zipIdx).map
    fun placed => (placed.flatten.insertionSort fun a b => a.rank ≤ b.rank).map Placed.o).congr
    rfl ?_
  rw [altUnits_flatMap, map_zipIdx_fst fun e => altUnits (guardsOf E prod entries e)]

theorem altUnits_reorderKeywordShadow (prod : Production) (entries : List Entry) :
    altUnits (reorderKeywordShadow E prod entries) =
      altUnits (entries.flatMap (guardsOf E prod entries)) + entryUnits entries := by
  unfold reorderKeywordShadow
  rw [altUnits_perm ((List.perm_insertionSort _ _).map Placed.o), List.map_flatMap]
  have hplaced (x : Entry × Nat) : (placeEntry E prod entries x.2 x.1).map Placed.o =
      guardsOf E prod entries x.1 ++ [x.1.o] := by
    rw [placeEntry_eq, List.map_append, List.map_map]
    exact congrArg (· ++ _) (List.map_id _)
  rw [altUnits_flatMap, altUnits_flatMap]
  simp only [hplaced, altUnits_append, altUnits_cons, altUnits_nil, Nat.add_zero]
  rw [map_zipIdx_fst fun e => altUnits (guardsOf E prod entries e) + e.o.units, List.sum_map_add]
  simp [entryUnits, altUnits, Function.comp_def]

theorem eq_flatMap_getElem? {γ : Type} (xs : List γ) :
    xs = (List.range xs.length).flatMap fun k => (xs[k]?).toList := by
  have hzip := flatMap_zipIdx (fun x : γ × Nat => [x.1]) xs
  simpa [List.flatMap_singleton', ← List.map_eq_flatMap] using hzip

theorem perm_specificityPermute (entries : List Entry) :
    (specificityPermute E entries).Perm entries := by
  have hsource : specificityPermute E entries =
      ((List.range entries.length).map (slotSource E entries)).flatMap fun i =>
        (entries[i]?).toList := by
    rw [eq_flatMap_getElem? (specificityPermute E entries), specificityPermute_length,
      List.flatMap_map]
    exact List.flatMap_congr fun k hk =>
      congrArg _ (specificityPermute_getElem? (List.mem_range.mp hk))
  rw [hsource]
  refine (slotSource_perm.flatMap_right _).trans ?_
  rw [← eq_flatMap_getElem?]

theorem entryUnits_applyDebtGuard (prod : Production) (entries : List Entry) :
    entryUnits (applyDebtGuard prod entries) = entryUnits entries := by
  unfold applyDebtGuard
  split
  · unfold entryUnits altUnits
    rw [List.map_map, List.map_map, List.map_map]
    refine congrArg List.sum (List.map_congr_left fun e _ => ?_)
    show AltSpec.units _ = AltSpec.units _
    dsimp only
    split <;> rfl
  · rfl

variable (E) in
/-- The units of the guards made for the keywords among the entries. -/
def keywordUnits (prod : Production) (entries : List Entry) : Nat :=
  let permuted := specificityPermute E (applyDebtGuard prod entries)
  altUnits (permuted.flatMap (guardsOf E prod permuted))

theorem makes_placeEntries (prod : Production) (entries : List Entry) :
    Makes diag E (Budgeted.placeEntries E prod entries) (placeEntries E prod entries)
      (keywordUnits E prod entries) :=
  makes_reorderKeywordShadow prod _

theorem altUnits_placeEntries (prod : Production) (entries : List Entry) :
    altUnits (placeEntries E prod entries) = entryUnits entries + keywordUnits E prod entries := by
  unfold placeEntries
  rw [altUnits_reorderKeywordShadow, Nat.add_comm, entryUnits,
    altUnits_perm ((perm_specificityPermute _).map Entry.o), ← entryUnits,
    entryUnits_applyDebtGuard]
  rfl

/-- The decision of a reference's peeks makes them. -/
theorem makes_refPeeks (prod : Production) (ordered : List Sequence) (idx : Nat) (alt : Sequence)
    (seg : Segment) (firstTokens : List String) :
    Makes diag E (Budgeted.refPeeks E prod ordered idx alt seg firstTokens)
      (refPeeks E prod ordered idx alt seg firstTokens)
      (entryUnits (refPeeks E prod ordered idx alt seg firstTokens)) := by
  intro pre
  refine emits_peeks _ alt fun prefixes => ?_
  refine (makes_entriesOf _ _ pre).mono ?_
  rintro r m ⟨rfl, rfl⟩ rfl
  have hpeeks : ((if altHeadContested E idx ordered || contestedByFollow E prod alt then
      altPrefixes E alt lookaheadK else []).filter (!·.isEmpty)) =
      (if altHeadContested E idx ordered || contestedByFollow E prod alt then
        (altPrefixes E alt lookaheadK).filter (!·.isEmpty) else []) := by
    rw [apply_ite (List.filter _)]
    rfl
  unfold refPeeks
  dsimp only
  rw [hpeeks]
  exact ⟨rfl, rfl⟩

/-- The entries of a rule of single segments. -/
theorem makes_singleEntries (prod : Production) (isLoop : Bool) (ordered : List Sequence)
    (idx : Nat) (alt : Sequence) :
    Makes diag E (Budgeted.singleEntries E prod isLoop ordered idx alt)
      (singleEntries E prod isLoop ordered idx alt)
      (entryUnits (singleEntries E prod isLoop ordered idx alt).1 +
        entryUnits (singleEntries E prod isLoop ordered idx alt).2) := by
  unfold Budgeted.singleEntries singleEntries
  dsimp only
  generalize (segmentize E.tokens alt).headD {} = seg
  cases if ordered.length > 1 && (!alt.isEmpty && alt.all Element.isRef && seg.terms.isEmpty &&
      seg.reference.isSome) then firstOfAlt E.tokens E.sets alt else none with
  | some firstTokens =>
    exact ((makes_refPeeks prod ordered idx alt _ firstTokens).map _).congr rfl
      (Nat.zero_add _).symm
  | none =>
    generalize singleAlternate prod isLoop alt seg = o
    have hexits : Makes diag E
        (if alt.isEmpty then Budgeted.exitEntries E prod o else pure ([], []))
        (if alt.isEmpty then exitEntries E prod o else ([], []))
        (entryUnits (if alt.isEmpty then exitEntries E prod o else ([], [])).1 +
          entryUnits (if alt.isEmpty then exitEntries E prod o else ([], [])).2) := by
      split
      · exact makes_exitEntries prod o
      · exact makes_pure ([], [])
    refine (hexits.bind fun exits => (makes_madeEntries _).map fun own =>
      (exits.1, exits.2 ++ own)).congr rfl ?_
    rw [entryUnits_append, Nat.add_assoc]

theorem makes_allSingleEntries (prod : Production) (isLoop : Bool) :
    Makes diag E (Budgeted.allSingleEntries E prod isLoop) (allSingleEntries E prod isLoop)
      (entryUnits (allSingleEntries E prod isLoop)) := by
  have hfold (news : List (List Entry × List Entry)) (entries : List Entry) :
      entryUnits (news.foldl (fun entries new => new.1 ++ entries ++ new.2) entries) =
        entryUnits entries + (news.map fun new => entryUnits new.1 + entryUnits new.2).sum := by
    induction news generalizing entries with
    | nil => rfl
    | cons new rest ih =>
      rw [List.foldl_cons, ih, entryUnits_append, entryUnits_append, List.map_cons, List.sum_cons]
      omega
  have hvalue : ((emptyAltsLast prod.alts).zipIdx.map fun x =>
      singleEntries E prod isLoop (emptyAltsLast prod.alts) x.2 x.1).foldl
        (fun entries new => new.1 ++ entries ++ new.2) [] = allSingleEntries E prod isLoop :=
    List.foldl_map
  refine ((makes_mapM' (fun x => makes_singleEntries prod isLoop (emptyAltsLast prod.alts) x.2 x.1)
    (emptyAltsLast prod.alts).zipIdx).map fun news =>
      news.foldl (fun entries new => new.1 ++ entries ++ new.2) []).congr hvalue ?_
  rw [← hvalue, hfold, List.map_map]
  exact (Nat.zero_add _).symm

/-- A rule holds what is placed in it, behind the entry of a loop. -/
theorem altUnits_le_opened (prod : Production) (isLoop : Bool) (placed : List AltSpec)
    (close : Option (List AltSpec)) :
    altUnits placed ≤
      RuleSpec.units (if isLoop then ⟨loopEntry prod :: placed, none⟩ else ⟨placed, close⟩) := by
  cases isLoop
  · show altUnits placed ≤ 1 + altUnits placed + altUnits (close.getD [])
    omega
  · show altUnits placed ≤ 1 + altUnits (loopEntry prod :: placed) + 0
    rw [altUnits_cons]
    omega

/-- The alternates of a rule of single segments, made before it is committed. -/
theorem makes_singleRule (prod : Production) (isLoop : Bool) :
    ∃ n ≤ (singleRule E prod isLoop).units,
      Makes diag E (Budgeted.singleRule E prod isLoop) (singleRule E prod isLoop) n := by
  refine ⟨_, altUnits_le_opened prod isLoop
    (placeEntries E prod (allSingleEntries E prod isLoop)) _,
    ((makes_allSingleEntries prod isLoop).bind fun entries =>
      (makes_placeEntries prod entries).map _).congr rfl ?_⟩
  exact (altUnits_placeEntries prod _).symm

/-! ## Committed rules -/

/-- The units of the rules of a table. -/
def tableUnits (rules : RuleTable) : Nat := (rules.map fun r => r.2.units).sum

@[simp] theorem tableUnits_append (rules rules' : RuleTable) :
    tableUnits (rules ++ rules') = tableUnits rules + tableUnits rules' := by
  simp [tableUnits]

@[simp] theorem tableUnits_singleton (name : String) (rs : RuleSpec) :
    tableUnits [(name, rs)] = rs.units := by
  simp [tableUnits]

/-- A commit charges the rest of the rule. -/
theorem emits_commitRule (name : String) (rs : RuleSpec) (pre : Nat) :
    Emits diag E (Budgeted.commitRule diag name rs pre) fun r m =>
      r = (name, rs) ∧ m + pre = rs.units := by
  unfold Budgeted.commitRule
  split
  · exact ⟨.fail _, fun _ _ => abides_fail⟩
  · refine (emits_charge _).bind fun _ => emits_pure ?_
    rintro n rfl
    exact ⟨rfl, by omega⟩

theorem emits_commitRules (rules : RuleTable) :
    Emits diag E (Budgeted.commitRules diag rules) fun out m =>
      out = rules ∧ m = tableUnits out := by
  refine (emits_mapM' (fun r x => x = r) (fun r => r.2.units) (fun r => ?_) rules).mono ?_
  · exact (emits_commitRule r.1 r.2 0).mono fun x m h => ⟨h.1, by rw [h.1]; exact h.2⟩
  · rintro out m ⟨hout, rfl⟩
    exact ⟨(List.forall₂_eq_eq_eq ▸ hout.flip : out = rules), rfl⟩

theorem emits_emitChain (head : String) (alt : Sequence) (origin : String)
    (value : Option ValueAnnotation) (nested : Option (List Bool)) (sp : Option SrcSpan) :
    Emits diag E (Budgeted.emitChain diag E head alt origin value nested sp) fun out m =>
      emitChain diag E head alt origin value nested sp = .ok out ∧ m = tableUnits out := by
  refine (emits_check _).bind fun rules => (emits_commitRules rules).mono ?_
  rintro out m ⟨rfl, rfl⟩ n ⟨hrules, rfl⟩
  exact ⟨hrules, Nat.zero_add _⟩

/-! ## A dispatcher -/

/-- A part of the writing of a rule: `post` holds of what it returns, of the units it makes and of
the units it charges. -/
def Writes {α : Type} (diag : String) (E : Emitter) (p : Budgeted.Writing α)
    (post : α → Nat → Nat → Prop) : Prop :=
  ∀ pre, Emits diag E (p pre) fun r m => ∃ n, r.2 = pre + n ∧ post r.1 n m

theorem Makes.writes {p : Budgeted.Writing α} {a : α} {n : Nat} (h : Makes diag E p a n) :
    Writes diag E p fun x k m => x = a ∧ k = n ∧ m = n := by
  intro pre
  refine (h pre).mono ?_
  rintro r m ⟨rfl, rfl⟩
  exact ⟨_, rfl, rfl, rfl, rfl⟩

theorem Writes.bind {p : Budgeted.Writing α} {f : α → Budgeted.Writing β}
    {mid : α → Nat → Nat → Prop} {post : β → Nat → Nat → Prop} (h : Writes diag E p mid)
    (hf : ∀ a, Writes diag E (f a) fun x k m => ∀ k' m', mid a k' m' → post x (k' + k) (m' + m)) :
    Writes diag E (p >>= f) post := by
  intro pre
  refine (h pre).bind fun r => (hf r.1 r.2).mono ?_
  rintro x m ⟨k, hk, hx⟩ m' ⟨k', hk', hr⟩
  exact ⟨k' + k, by rw [hk, hk', Nat.add_assoc], hx k' m' hr⟩

theorem writes_pure {a : α} {post : α → Nat → Nat → Prop} (h : post a 0 0) :
    Writes diag E (pure a) post := fun _ => emits_pure ⟨0, rfl, h⟩

theorem Writes.mono {p : Budgeted.Writing α} {post post' : α → Nat → Nat → Prop}
    (h : Writes diag E p post) (hpost : ∀ a k m, post a k m → post' a k m) :
    Writes diag E p post' := fun pre =>
  (h pre).mono fun _ _ ⟨k, hk, hr⟩ => ⟨k, hk, hpost _ k _ hr⟩

theorem writes_lift {p : Budgeted α} {post : α → Nat → Prop} (h : Emits diag E p post) :
    Writes diag E (monadLift p) fun a k m => k = 0 ∧ post a m := fun _ =>
  h.bind fun _ => emits_pure fun _ ha => ⟨0, rfl, rfl, ha⟩

theorem writes_mapM' (R : α → β → Prop) (made charged : β → Nat)
    {f : α → Budgeted.Writing β}
    (hf : ∀ a, Writes diag E (f a) fun x k m => R a x ∧ k = made x ∧ m = charged x) (l : List α) :
    Writes diag E (l.mapM' f) fun out k m =>
      List.Forall₂ R l out ∧ k = (out.map made).sum ∧ m = (out.map charged).sum := by
  induction l with
  | nil => exact writes_pure ⟨.nil, rfl, rfl⟩
  | cons a rest ih =>
    rw [List.mapM'_cons]
    refine (hf a).bind fun x => ih.bind fun out => writes_pure ?_
    rintro k m ⟨hout, rfl, rfl⟩ k' m' ⟨hx, rfl, rfl⟩
    exact ⟨.cons hx hout, by simp, by simp⟩

/-- What is written for an alternative of a dispatcher. -/
structure ImplOf (diag : String) (E : Emitter) (prod : Production) (loopItem : Option Element)
    (x : (Sequence × DispatchPrefixes) × Nat) (impl : Budgeted.Impl) : Prop where
  rules : implRules diag E prod loopItem x.2 x.1.1 = .ok impl.rules
  entries : implEntries diag E prod loopItem.isSome x.2 x.1.1 x.1.2 = .ok impl.entries
  empties : impl.empties =
    if !x.1.1.isEmpty && x.1.2.nullable && !loopItem.isSome then nullableEntries E prod x.2 else []

theorem writes_emitImpl (prod : Production) (loopItem : Option Element)
    (x : (Sequence × DispatchPrefixes) × Nat) :
    Writes diag E (Budgeted.emitImpl diag E prod loopItem x.2 x.1.1 x.1.2) fun impl k m =>
      ImplOf diag E prod loopItem x impl ∧ k = entryUnits impl.entries ∧
        m = tableUnits impl.rules + entryUnits impl.entries := by
  refine (writes_lift (emits_check _)).bind fun rules =>
    (writes_lift (emits_commitRules rules)).bind fun committed =>
    (writes_lift (emits_check _)).bind fun entries =>
    (makes_madeEntries entries).writes.bind fun made => writes_pure ?_
  rintro _ _ ⟨rfl, rfl, rfl⟩ _ _ ⟨rfl, hentries, rfl⟩ _ _ ⟨rfl, rfl, rfl⟩ _ _ ⟨rfl, hrules, rfl⟩
  exact ⟨⟨hrules, hentries, rfl⟩, by simp, by simp⟩

/-- **The dispatch** of a production writes the rules and the entries of its alternatives, while it
holds their prefixes. -/
theorem writes_emitImpls (prod : Production) (loopItem : Option Element) :
    Writes diag E (Budgeted.emitImpls diag E prod loopItem) fun impls k m =>
      (∃ dispatch, dispatchPrefixes E.grammar E.tokens E.contest.classSets E.contest.headsContest
          lookaheadK (exitPaths E prod) prod.alts = some dispatch ∧
        List.Forall₂ (ImplOf diag E prod loopItem) (prod.alts.zip dispatch).zipIdx impls) ∧
      k = entryUnits (impls.flatMap Budgeted.Impl.entries) ∧
      m = tableUnits (impls.flatMap Budgeted.Impl.rules) + k := by
  intro pre
  refine emits_dispatch _ _ fun dispatch =>
    (writes_mapM' (ImplOf diag E prod loopItem) (fun impl => entryUnits impl.entries)
      (fun impl => tableUnits impl.rules + entryUnits impl.entries)
      (writes_emitImpl prod loopItem) _ pre).mono ?_
  rintro r m ⟨k, hk, himpls, rfl, rfl⟩ hdispatch
  have hentries : (r.1.map fun impl => entryUnits impl.entries).sum =
      entryUnits (r.1.flatMap Budgeted.Impl.entries) := by
    rw [entryUnits, List.map_flatMap, altUnits_flatMap]
    rfl
  have hrules : (r.1.map fun impl => tableUnits impl.rules).sum =
      tableUnits (r.1.flatMap Budgeted.Impl.rules) := by
    induction r.1 with
    | nil => rfl
    | cons impl rest ih => simp [ih]
  refine ⟨_, hk, ⟨dispatch, hdispatch, himpls⟩, hentries, ?_⟩
  rw [List.sum_map_add, hrules]

variable (E) in
/-- The entries of a dispatcher, from what is written for its alternatives. -/
def listedEntries (prod : Production) (impls : List Budgeted.Impl) : List Entry :=
  let content := impls.flatMap Budgeted.Impl.entries
  let nullable := impls.flatMap Budgeted.Impl.empties
  if prod.alts.any List.isEmpty then
    let exits := exitEntries E prod {}
    exits.1 ++ content ++ nullable ++ exits.2 ++ [⟨{}, none⟩]
  else content ++ nullable

variable (E) in
/-- The units of those that are made after the alternatives. -/
def listedUnits (prod : Production) (impls : List Budgeted.Impl) : Nat :=
  entryUnits (impls.flatMap Budgeted.Impl.empties) +
    if prod.alts.any List.isEmpty then
      entryUnits (exitEntries E prod {}).1 + entryUnits (exitEntries E prod {}).2 +
        AltSpec.units {}
    else 0

theorem makes_dispatchEntries (prod : Production) (impls : List Budgeted.Impl) :
    Makes diag E (Budgeted.dispatchEntries E prod impls) (listedEntries E prod impls)
      (listedUnits E prod impls) := by
  unfold Budgeted.dispatchEntries listedEntries listedUnits
  dsimp only
  by_cases hempty : prod.alts.any List.isEmpty = true
  · simp only [if_pos hempty]
    exact ((makes_madeEntries _).bind fun nullable => (makes_exitEntries prod {}).bind fun exits =>
      (makes_madeEntry ⟨{}, none⟩).map fun bare =>
        exits.1 ++ impls.flatMap Budgeted.Impl.entries ++ nullable ++ exits.2 ++ [bare]).congr
          rfl rfl
  · simp only [if_neg hempty]
    exact (makes_madeEntries _).map (impls.flatMap Budgeted.Impl.entries ++ ·)

theorem entryUnits_listedEntries (prod : Production) (impls : List Budgeted.Impl) :
    entryUnits (listedEntries E prod impls) =
      entryUnits (impls.flatMap Budgeted.Impl.entries) + listedUnits E prod impls := by
  unfold listedEntries listedUnits
  dsimp only
  split
  · simp only [entryUnits_append, entryUnits_cons, entryUnits_nil]
    omega
  · rw [entryUnits_append, Nat.add_zero]

/-- Programs that all return return together. -/
theorem mapM_ok_of_forall₂ {f : α → Except EmitError β} {xs : List α} {ys : List β}
    (h : List.Forall₂ (fun x y => f x = .ok y) xs ys) : xs.mapM f = .ok ys := by
  induction h with
  | nil => rfl
  | cons hx _ ih => rw [List.mapM_cons, hx, ih]; rfl

/-- The entries are those the emitter lists. -/
theorem dispatchEntries_listed {prod : Production} {loopItem : Option Element}
    {dispatch : List DispatchPrefixes} {impls : List Budgeted.Impl}
    (h : List.Forall₂ (ImplOf diag E prod loopItem) (prod.alts.zip dispatch).zipIdx impls) :
    dispatchEntries diag E prod loopItem.isSome dispatch = .ok (listedEntries E prod impls) := by
  have hempties : nullableReissues E prod loopItem.isSome dispatch =
      impls.flatMap Budgeted.Impl.empties := by
    unfold nullableReissues
    generalize (prod.alts.zip dispatch).zipIdx = xs at h
    induction h with
    | nil => rfl
    | cons hx _ ih => rw [List.flatMap_cons, List.flatMap_cons, hx.empties, ih]
  have hcontent : (prod.alts.zip dispatch).zipIdx.mapM (fun x =>
      implEntries diag E prod loopItem.isSome x.2 x.1.1 x.1.2) =
        .ok (impls.map Budgeted.Impl.entries) :=
    mapM_ok_of_forall₂ (List.forall₂_map_right_iff.mpr (h.imp fun _ _ h => h.entries))
  rw [dispatchEntries_eq, hcontent, hempties]
  unfold listedEntries
  dsimp only
  by_cases hempty : prod.alts.any List.isEmpty = true
  · rw [if_pos hempty, List.flatMap_def]
    exact if_pos hempty
  · rw [if_neg hempty, List.flatMap_def]
    exact if_neg hempty

/-- What the dispatch writes is what the emitter writes. -/
theorem dispatchRules_listed {prod : Production} {loopItem : Option Element}
    {dispatch : List DispatchPrefixes} {impls : List Budgeted.Impl}
    (hdispatch : dispatchPrefixes E.grammar E.tokens E.contest.classSets E.contest.headsContest
      lookaheadK (exitPaths E prod) prod.alts = some dispatch)
    (h : List.Forall₂ (ImplOf diag E prod loopItem) (prod.alts.zip dispatch).zipIdx impls) :
    dispatchRules diag E prod loopItem = .ok (impls.flatMap Budgeted.Impl.rules ++
      [(prod.name,
        if loopItem.isSome then
          ⟨loopEntry prod :: placeEntries E prod (listedEntries E prod impls), none⟩
        else ⟨placeEntries E prod (listedEntries E prod impls), some [captureClose none]⟩)]) := by
  have himpls : prod.alts.zipIdx.mapM (fun x => implRules diag E prod loopItem x.2 x.1) =
      .ok (impls.map Budgeted.Impl.rules) := by
    have halts : prod.alts = (prod.alts.zip dispatch).map Prod.fst :=
      (List.map_fst_zip (length_dispatchPrefixes hdispatch).ge).symm
    have hzip : prod.alts.zipIdx = (prod.alts.zip dispatch).zipIdx.map fun x => (x.1.1, x.2) := by
      conv_lhs => rw [halts, List.zipIdx_map]
      rfl
    rw [hzip]
    exact mapM_ok_of_forall₂ (List.forall₂_map_left_iff.mpr
      (List.forall₂_map_right_iff.mpr (h.imp fun _ _ h => h.rules)))
  unfold dispatchRules
  rw [hdispatch]
  dsimp only
  rw [himpls, dispatchEntries_listed h, List.flatMap_def]
  rfl

/-- **A dispatcher** writes the rules the emitter writes, and all its alternates but the entry of a
loop and the close are made before its own rule is committed. -/
theorem writes_dispatchRules (prod : Production) (loopItem : Option Element) :
    Writes diag E (Budgeted.dispatchRules diag E prod loopItem) fun r k m =>
      dispatchRules diag E prod loopItem = .ok (r.1 ++ [(prod.name, r.2)]) ∧
        m = tableUnits r.1 + k ∧ k ≤ r.2.units := by
  refine (writes_emitImpls prod loopItem).bind fun impls =>
    (makes_dispatchEntries prod impls).writes.bind fun entries =>
    (makes_placeEntries prod entries).writes.bind fun placed => writes_pure ?_
  rintro _ _ ⟨rfl, rfl, rfl⟩ _ _ ⟨rfl, rfl, rfl⟩ k m ⟨⟨dispatch, hdispatch, himpls⟩, rfl, rfl⟩
  have hplaced := altUnits_placeEntries (E := E) prod (listedEntries E prod impls)
  rw [entryUnits_listedEntries] at hplaced
  refine ⟨dispatchRules_listed hdispatch himpls, ?_, ?_⟩
  · dsimp only
    omega
  · refine le_trans ?_ (altUnits_le_opened prod loopItem.isSome _ _)
    omega

/-! ## Productions -/

/-- What is written for a rule, and the commit that ends it. -/
theorem emits_commit {p : Budgeted.Writing α} {post : α → Nat → Nat → Prop}
    (h : Writes diag E p post) {f : α × Nat → Budgeted β} {post' : β → Nat → Prop}
    (hf : ∀ r, Emits diag E (f r) fun x m => ∀ m', post r.1 r.2 m' → post' x (m' + m)) :
    Emits diag E (p 0 >>= f) post' := by
  refine (h 0).bind fun r => (hf r).mono ?_
  rintro x m hx m' ⟨k, hk, hr⟩
  rw [Nat.zero_add] at hk
  exact hx m' (hk ▸ hr)

variable (diag E) in
/-- The rules `emitAlternatives` writes. -/
def alternativesRules (prod : Production) (loopItem : Option Element) :
    Except EmitError RuleTable :=
  if prod.alts.all isSingleSegment && prod.value.isNone &&
      !(E.arrayHelpers.contains prod.name && prod.alts.length > 1 && !prod.repeatHelper) then
    return [(prod.name, singleRule E prod loopItem.isSome)]
  else
    match prod.alts with
    | [alt] =>
      emitChain diag E prod.name alt prod.originOf prod.value (E.valuePlan.lookup prod.originOf)
        prod.sp
    | alts =>
      if prod.value.isSome then
        throw ⟨diag ++ ": rule '" ++ prod.originOf ++ "' has a value annotation and " ++
          toString alts.length ++ " alternatives. A value annotation names the parts of ONE " ++
          "alternative; with more than one it is ambiguous which alternative's parts are named. " ++
          "Split the rule, or annotate the alternatives' own rules.", none, none⟩
      else dispatchRules diag E prod loopItem

theorem emitProduction_tail {prod : Production} {tail : TailRepeatSpec}
    (htail : prod.tailRepeat = some tail)
    (hrefs : (prod.alts.forM fun alt => validateRefs diag E alt prod.name) = .ok ()) :
    emitProduction diag E prod = .ok [(prod.name, emitTailRepeat E prod tail)] := by
  unfold emitProduction
  rw [hrefs, htail]
  rfl

theorem emitProduction_alternatives {prod : Production} {loopItem : Option Element}
    (htail : prod.tailRepeat = none)
    (hrefs : (prod.alts.forM fun alt => validateRefs diag E alt prod.name) = .ok ())
    (hloop : (if prod.repeatLoop then some <$> loopItemOf diag prod else pure none) =
      .ok loopItem) :
    emitProduction diag E prod = alternativesRules diag E prod loopItem := by
  unfold emitProduction
  rw [hrefs, htail]
  by_cases hrepeat : prod.repeatLoop = true
  · rw [if_pos hrepeat] at hloop
    simp only [if_pos hrepeat, hloop]
    rfl
  · rw [if_neg hrepeat] at hloop
    obtain rfl := Except.ok.inj hloop
    simp only [if_neg hrepeat]
    rfl

theorem emits_emitAlternatives (prod : Production) (loopItem : Option Element) :
    Emits diag E (Budgeted.emitAlternatives diag E prod loopItem) fun out m =>
      alternativesRules diag E prod loopItem = .ok out ∧ m = tableUnits out := by
  unfold Budgeted.emitAlternatives alternativesRules
  split
  · obtain ⟨_, -, hmakes⟩ := @makes_singleRule diag E prod loopItem.isSome
    refine emits_commit hmakes.writes fun r =>
      (emits_commitRule prod.name r.1 r.2).bind fun own => emits_pure ?_
    rintro n ⟨rfl, hn⟩ m ⟨hrule, hk, rfl⟩
    rw [hrule]
    exact ⟨rfl, by rw [tableUnits_singleton, ← hrule]; omega⟩
  · split
    · exact emits_emitChain _ _ _ _ _ _
    · split
      · exact ⟨.fail _, fun _ _ => abides_fail⟩
      · refine emits_commit (writes_dispatchRules prod loopItem) fun r =>
          (emits_commitRule prod.name r.1.2 r.2).bind fun own => emits_pure ?_
        rintro n ⟨rfl, hn⟩ m ⟨hout, rfl, -⟩
        exact ⟨hout, by rw [tableUnits_append, tableUnits_singleton]; omega⟩

theorem emits_emitProduction (prod : Production) :
    Emits diag E (Budgeted.emitProduction diag E prod) fun out m =>
      emitProduction diag E prod = .ok out ∧ m = tableUnits out := by
  unfold Budgeted.emitProduction
  refine (emits_check _).bind fun _ => ?_
  cases htail : prod.tailRepeat with
  | some tail =>
    refine (emits_commitRules _).mono ?_
    rintro out m ⟨rfl, rfl⟩ n ⟨hrefs, rfl⟩
    exact ⟨emitProduction_tail htail hrefs, Nat.zero_add _⟩
  | none =>
    refine (emits_check _).bind fun loopItem => (emits_emitAlternatives prod loopItem).mono ?_
    rintro out m ⟨hout, rfl⟩ n ⟨hloop, rfl⟩ n' ⟨hrefs, rfl⟩
    exact ⟨(emitProduction_alternatives htail hrefs hloop).trans hout, by omega⟩

/-- The units of a rule that are charged before it is emitted: a probe helper's, with the list it is
made from. -/
def chargedBefore (prod : Production) : Nat :=
  prod.probeHelper.elim 0 fun helper => probeRuleUnits helper.vocabElements.length

theorem emits_emitRule (prod : Production) :
    Emits diag E (Budgeted.emitRule diag E prod) fun out m =>
      emitRule diag E prod = .ok out ∧ m + chargedBefore prod = tableUnits out := by
  unfold Budgeted.emitRule emitRule chargedBefore
  refine (emits_beginStep _ _ (by decide)).bind fun _ => ?_
  cases hhelper : prod.probeHelper with
  | some helper =>
    refine (emits_commitRule _ _ _).bind fun r => emits_pure ?_
    rintro m ⟨rfl, hm⟩ _ rfl
    exact ⟨rfl, by rw [tableUnits_singleton, ← hm]; simp⟩
  | none =>
    cases hdispatch : prod.probeDispatch with
    | some pd =>
      refine (emits_check _).bind fun rule => (emits_commitRules _).mono ?_
      rintro out m ⟨rfl, rfl⟩ _ ⟨hrule, rfl⟩ _ rfl
      exact ⟨by dsimp only; rw [hrule]; rfl, by simp⟩
    | none =>
      refine (emits_emitProduction prod).mono ?_
      rintro out m ⟨hout, rfl⟩ _ rfl
      exact ⟨hout, by simp⟩

theorem emits_productions (prods : List Production) :
    Emits diag E (prods.mapM' (Budgeted.emitRule diag E)) fun tables m =>
      prods.mapM (emitRule diag E) = .ok tables ∧
        m + (prods.map chargedBefore).sum = tableUnits tables.flatten := by
  induction prods with
  | nil => exact emits_pure ⟨rfl, rfl⟩
  | cons prod rest ih =>
    rw [List.mapM'_cons]
    refine (emits_emitRule prod).bind fun out => ih.bind fun tables => emits_pure ?_
    rintro m ⟨htables, hm⟩ n ⟨hout, hn⟩
    refine ⟨by rw [List.mapM_cons, hout, htables]; rfl, ?_⟩
    rw [List.map_cons, List.sum_cons, List.flatten_cons, tableUnits_append]
    omega

/-- **The emission of a grammar.** Its operations on the budget are an emission, and where no charge
and no hold is refused it returns the rules the emitter computes, charging for each rule exactly
the units it holds. -/
theorem emits_emitRules (start : String) :
    Emits diag E (Budgeted.emitRules diag E start) fun out m =>
      emitRules diag E start = .ok out ∧
        ∃ tables, E.grammar.productions.mapM (emitRule diag E) = .ok tables ∧
          m + (E.grammar.productions.map chargedBefore).sum = tableUnits (tables.flatten ++
            [(startWrapper E, ⟨[{ p := some start }], some [{ s := ["#ZZ"] }]⟩)]) := by
  refine (emits_productions _).bind fun tables =>
    (emits_beginStep _ _ (by decide)).bind fun _ =>
    (emits_commitRule _ _ _).bind fun wrapper => emits_pure ?_
  rintro k ⟨rfl, hk⟩ _ rfl m ⟨htables, hm⟩
  refine ⟨?_, tables, htables, ?_⟩
  · unfold emitRules
    rw [htables]
    rfl
  · rw [tableUnits_append, tableUnits_singleton]
    omega

/-- **A whole run.** The emission that is not refused, on the new budget, writes the rules the emitter
computes, with nothing held at its end and no more units written than the limit; all that is
written is what the rules hold. -/
theorem emitRules_run (start : String) {out : RuleTable} {b : EmitBudget}
    (h : ((Budgeted.emitRules diag E start).run (EmitBudget.exec diag) .new).2 = .ok (out, b)) :
    emitRules diag E start = .ok out ∧ b.held = 0 ∧ b.written ≤ maxEmitUnits ∧
      ∃ tables, E.grammar.productions.mapM (emitRule diag E) = .ok tables ∧
        b.written + (E.grammar.productions.map chargedBefore).sum = tableUnits (tables.flatten ++
          [(startWrapper E, ⟨[{ p := some start }], some [{ s := ["#ZZ"] }]⟩)]) := by
  have habides := (@emits_emitRules diag E start).returns .new EmitBudget.fits_new
  obtain ⟨_, -, n, ⟨hout, htables⟩, hfits, hheld, hwritten⟩ := (habides []).result h
  obtain rfl : b.written = n := by rw [hwritten]; exact Nat.zero_add n
  have hwithin := hfits.within
  exact ⟨hout, hheld, by omega, htables⟩

example : (((Budgeted.emitRules "bnf" keywordEmitter "S").run (EmitBudget.exec "bnf")
    .new).2.toOption.map fun r => (r.2.written, r.2.held)) = some (13, 0) := by decide +kernel

end

end TabnasBnf
