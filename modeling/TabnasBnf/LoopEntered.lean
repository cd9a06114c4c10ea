import TabnasBnf.EmitLoops
import TabnasBnf.PassElements
import TabnasBnf.TailCorrect

/-!
# How often a loop is entered

The loops of a compile are those desugaring mints, and no pass writes the loops' counter into an
element: the rules of a compile are a loop table. A loop's rule begins with its entry unless a loop
behind it generates its name.

* `Compile.loopCounter_notMem`: what is desugared names the loops' counter only where the input does.
* `loop_held`: the rule of a loop's name, where no loop behind generates it.
* **`Compile.loop_entered_once`**: in every run, a loop that is pushed takes its entry first, and
  within that invocation never again.
-/

namespace TabnasBnf

/-! ## The counters of a compile -/

mutual
/-- What is resolved to a terminal names no counter, and nothing else changes. -/
theorem counters_resolveRefs {token : String → Option Element}
    (h : ∀ n t, token n = some t → t.counters = []) {c : String} :
    ∀ el : Element, c ∈ (el.resolveRefs token).counters → c ∈ el.counters
  | .ref name debt sp, hc => by
    rw [Element.resolveRefs] at hc
    cases htok : token name with
    | none =>
      rw [htok, Option.getD_none] at hc
      exact hc
    | some t =>
      rw [htok, Option.getD_some, h name t htok] at hc
      cases hc
  | .opt e _, hc => counters_resolveRefs h e hc
  | .star e guard _, hc => by
    rcases List.mem_append.mp hc with hc | hc
    · exact List.mem_append_left _ hc
    · exact List.mem_append_right _ (counters_resolveRefs h e hc)
  | .plus e _, hc => counters_resolveRefs h e hc
  | .rep _ _ e _, hc => counters_resolveRefs h e hc
  | .group alts _, hc => counters_resolveRefsInAlts h alts hc
  | .term .., hc | .regex .., hc | .token .., hc | .prose .., hc => by cases hc

theorem counters_resolveRefsIn {token : String → Option Element}
    (h : ∀ n t, token n = some t → t.counters = []) {c : String} :
    ∀ α : List Element, c ∈ countersIn (resolveRefsIn token α) → c ∈ countersIn α
  | [], hc => hc
  | el :: α, hc => by
    rcases List.mem_append.mp hc with hc | hc
    · exact List.mem_append_left _ (counters_resolveRefs h el hc)
    · exact List.mem_append_right _ (counters_resolveRefsIn h α hc)

theorem counters_resolveRefsInAlts {token : String → Option Element}
    (h : ∀ n t, token n = some t → t.counters = []) {c : String} :
    ∀ alts : List (List Element), c ∈ countersInAlts (resolveRefsInAlts token alts) →
      c ∈ countersInAlts alts
  | [], hc => hc
  | α :: alts, hc => by
    rcases List.mem_append.mp hc with hc | hc
    · exact List.mem_append_left _ (counters_resolveRefsIn h α hc)
    · exact List.mem_append_right _ (counters_resolveRefsInAlts h alts hc)
end

/-- Not to name the loops' counter goes along with what the passes make of elements: the counters
they mint have names of their own. -/
theorem inherited_counters (keep : List String) :
    Inherited keep fun el => loopCounter ∉ el.counters where
  nested el hel e he := by
    cases el with
    | star =>
      obtain rfl := List.mem_singleton.mp he
      exact fun hc => hel (List.mem_append_right _ hc)
    | opt | plus | rep =>
      obtain rfl := List.mem_singleton.mp he
      exact hel
    | group alts sp =>
      obtain ⟨α, hα, he⟩ := List.mem_flatten.mp he
      exact fun hc => hel (mem_countersInAlts.mpr ⟨α, hα, e, he, hc⟩)
    | _ => cases he
  token _ _ _ := List.not_mem_nil
  fewer _ _ hel := hel
  group alts halts hc := by
    obtain ⟨α, hα, el, hel, hc⟩ := mem_countersInAlts.mp hc
    exact halts α hα el hel hc
  tail e guard hel hguard hc := by
    rcases List.mem_append.mp hc with hc | hc
    · obtain ⟨rest, hname⟩ := hguard _ (Option.mem_toList.mp hc)
      have htext := congrArg String.toList hname
      rw [String.toList_append] at htext
      simp [loopCounter] at htext
    · exact hel hc

theorem made_counters_iff {alts : List Sequence} :
    Made (fun el => loopCounter ∉ el.counters) alts ↔ loopCounter ∉ countersInAlts alts := by
  constructor
  · intro h hc
    obtain ⟨α, hα, el, hel, hc⟩ := mem_countersInAlts.mp hc
    exact h α hα el hel hc
  · exact fun h α hα el hel hc => h (mem_countersInAlts.mpr ⟨α, hα, el, hel, hc⟩)

/-- What a production brings to desugaring: no guard of a debt, and no mention of the loops'
counter. -/
def Uncounted (p : Production) : Prop :=
  p.debtGuard = none ∧ Made (fun el => loopCounter ∉ el.counters) p.alts

theorem Uncounted.counters {p : Production} (h : Uncounted p) : loopCounter ∉ p.counters := by
  rw [Production.counters, h.1]
  exact made_counters_iff.mp h.2

theorem Uncounted.rewriteTailRepeat {p : Production} (h : Uncounted p) (start : String) :
    Uncounted (rewriteTailRepeat start p) := by
  rcases rewriteTailRepeat_shape start p with heq | ⟨pre, sep, hshape, heq⟩
  · rwa [heq]
  · rw [heq]
    refine ⟨h.1, fun α hα el hel => ?_⟩
    rw [List.mem_singleton.mp hα] at hel
    obtain ⟨option, self, halts, -⟩ := hshape.alts
    exact h.2 _ (by rw [halts]; exact List.mem_singleton_self _) el (List.mem_append_left _ hel)

namespace Compile

variable {S : Setting} {grammar : Grammar} (c : Compile S grammar)

theorem normalized_made
    (hcounter : ∀ p ∈ grammar.productions, loopCounter ∉ countersInAlts p.alts) :
    ∀ p ∈ c.normalized.productions, Made (fun el => loopCounter ∉ el.counters) p.alts := by
  have hresolved : ∀ p ∈ c.resolved.productions, loopCounter ∉ countersInAlts p.alts :=
    fun p hp => hcounter p ((resolveProseTerminals_sublist c.resolve_eq).subset hp)
  have hlifted : ∀ p ∈ (liftLiteralTokens c.resolved c.start).1.productions,
      loopCounter ∉ countersInAlts p.alts := by
    unfold liftLiteralTokens
    dsimp only
    split
    · exact hresolved
    · intro p hp hc
      obtain ⟨q, hq, rfl⟩ := List.mem_map.mp hp
      refine hresolved q (List.mem_filter.mp hq).1 (counters_resolveRefsInAlts ?_ _ hc)
      intro n t ht
      obtain ⟨l, -, rfl⟩ := Option.map_eq_some_iff.mp ht
      rfl
  intro p hp
  obtain ⟨q, hq, rfl⟩ := List.mem_map.mp hp
  refine made_counters_iff.mpr fun hc => hlifted q hq (counters_resolveRefsInAlts ?_ _ hc)
  intro n t ht
  unfold builtinRef at ht
  split at ht
  · cases ht
  · obtain ⟨tok, -, rfl⟩ := Option.map_eq_some_iff.mp ht
    rfl

/-- **What is desugared names the loops' counter only where the input does.** -/
theorem loopCounter_notMem
    (hcounter : ∀ p ∈ grammar.productions, loopCounter ∉ countersInAlts p.alts) :
    loopCounter ∉
      (rewriteTailRepeats c.factored c.start).productions.flatMap Production.counters := by
  have hmint : ∀ n, loopCounter ∉ (Element.reference n).counters := fun _ => List.not_mem_nil
  have heliminated :=
    eliminate_made (inherited_counters _) (c.normalized_made hcounter) c.eliminate_eq
  have hprobed := rewriteProbeDispatches_made (inherited_counters []) hmint heliminated c.probe_eq
  have hfactored := leftFactor_made (inherited_counters []) hmint hprobed c.factor_eq
  have hguard : ∀ p ∈ c.factored.productions, p.debtGuard = none := by
    refine leftFactor_forall (fun _ _ _ _ => rfl) (fun _ _ _ h => h) ?_ c.factor_eq
    refine rewriteProbeDispatches_forall (fun _ _ => rfl) (fun _ s _ _ _ _ _ _ p hp => ?_)
      (eliminate_forall (fun _ _ => rfl) c.eliminate_eq) c.probe_eq
    simp only [probeProductions, List.mem_cons, List.not_mem_nil, or_false] at hp
    rcases hp with rfl | rfl | rfl | rfl <;> rfl
  intro hc
  obtain ⟨p', hp', hc⟩ := List.mem_flatMap.mp hc
  obtain ⟨p, hp, rfl⟩ := List.mem_map.mp hp'
  have huncounted : Uncounted p := ⟨hguard p hp, hfactored p hp⟩
  exact (huncounted.rewriteTailRepeat c.start).counters hc

/-- The loops of a compile are the helpers desugaring mints. -/
theorem loopNames (tokens : Tokens) (contest : ContestCtx) (arrayHelpers : List String)
    (valuePlan : List (String × List Bool)) :
    LoopNames ((rewriteTailRepeats c.factored c.start).productions.flatMap Production.counters)
      (c.emitter tokens contest arrayHelpers valuePlan).grammar := by
  have hcycles : ∀ p ∈ (rewriteTailRepeats c.factored c.start).productions, TerminalCycles p :=
    rewriteTailRepeats_cycles (leftFactor_cycles
      (rewriteProbeDispatches_cycles (eliminate_cycles c.eliminate_eq) c.probe_eq) c.factor_eq)
  have hnames : LoopNames _ c.desugared := desugar_loops (fun p hp => ⟨(hcycles p hp).loop,
    fun counter hc => List.mem_flatMap.mpr ⟨p, hp, hc⟩⟩) c.desugar_eq
  exact hnames.resolveSuffixDebts

end Compile

/-! ## The entry -/

section

variable {diag : String} {E : Emitter} {rules : RuleTable} {C : List String} {start : String}

/-- **The rule of a loop begins with its entry**, unless a loop behind it generates its name. -/
theorem loop_held (hnames : LoopNames C E.grammar) (h : emitRules diag E start = .ok rules)
    {p : Production} (hp : p ∈ E.grammar.productions) (hloop : p.repeatLoop = true)
    (hkept : ∀ q, [p, q].Sublist E.grammar.productions → q.repeatLoop = true →
      p.name ∉ generatedNames E q) :
    ∃ rule, rules.lookup p.name = some rule ∧ rule.opens.head? = some (loopEntry p) := by
  have hkey : p.name ∈ rules.map Prod.fst := name_mem_emitRules h (mem_namesOf.mpr ⟨p, hp, rfl⟩)
  obtain ⟨rule, hrule⟩ := Table.exists_lookup hkey
  refine ⟨rule, hrule, ?_⟩
  obtain ⟨q, hq, hloopq, hmem, hplace⟩ := writer_of_loop hnames h hp hloop hrule
    (loopRules_of_emitRules hnames h hp hloop).1
  have hname : p.name = q.name := by
    rcases hplace with rfl | hbehind
    · rfl
    · have hkeys := mem_keys_emitRule (emitRule_eq_of_emitRules h hq) p.name
      exact (hkeys.mp (List.mem_map_of_mem hmem)).resolve_right (hkept q hbehind hloopq)
  rcases (loopRules_of_emitRules hnames h hq hloopq).2 _ hmem with
    ⟨-, -, rest, hopens, -⟩ | ⟨item, -, -, hne⟩ | ⟨-, hne⟩
  · have hentry : loopEntry q = loopEntry p := by rw [loopEntry, loopEntry, hname]
    rw [hopens, List.head?_cons, hentry]
  · exact absurd hname hne
  · exact absurd hname hne

end

/-- What the counters allow is taken where it comes first. -/
theorem canTake_cons {o : AltSpec} {n : Counters} (rest : List AltSpec) (h : Allows n o) :
    CanTake (o :: rest) n o :=
  ⟨[], rest, rfl, h, fun _ h => absurd h List.not_mem_nil⟩

/-- While the loops' counter is 0, an entry can be taken. -/
theorem canTake_loopEntry {p : Production} {rule : RuleSpec} {n : Counters}
    (hentry : rule.opens.head? = some (loopEntry p)) (hn : n loopCounter = 0) :
    CanTake rule.opens n (loopEntry p) := by
  obtain ⟨rest, hopens⟩ := List.head?_eq_some_iff.mp hentry
  rw [hopens]
  refine canTake_cons rest fun counter hc => ?_
  obtain rfl : loopCounter = counter := by simpa [loopEntry] using hc
  exact hn

/-- **A repeat loop is entered once for each time it is pushed**, in every run of the engine over
the rules of a compile whose input does not name the loops' counter, where no loop that is emitted
behind it generates its name: pushed, the counter is 0 and the entry is what can be taken, and come
back to within that invocation it is 1 and the entry cannot. -/
theorem Compile.loop_entered_once {S : Setting} {grammar : Grammar} (c : Compile S grammar)
    {tokens : Tokens} {contest : ContestCtx} {arrayHelpers : List String}
    {valuePlan : List (String × List Bool)} {rules : RuleTable} {count : Int → Int → Int}
    {stack : List EngineFrame} {f : EngineFrame} {p : Production}
    (hcounter : ∀ p ∈ grammar.productions, loopCounter ∉ countersInAlts p.alts)
    (hemit : emitRules S.diag (c.emitter tokens contest arrayHelpers valuePlan) c.start =
      .ok rules)
    (hreset : ∀ v, count v 0 = 0) (hset : count 0 1 = 1)
    (hrun : EngineReach rules count
      (startWrapper (c.emitter tokens contest arrayHelpers valuePlan)) stack)
    (hp : p ∈ (c.emitter tokens contest arrayHelpers valuePlan).grammar.productions)
    (hloop : p.repeatLoop = true)
    (hkept : ∀ q,
      [p, q].Sublist (c.emitter tokens contest arrayHelpers valuePlan).grammar.productions →
        q.repeatLoop = true →
        p.name ∉ generatedNames (c.emitter tokens contest arrayHelpers valuePlan) q)
    (hf : f ∈ stack) (hat : f.rule = p.name) (hopen : f.closing = false) :
    ∃ rule, rules.lookup p.name = some rule ∧
      (f.trail = [] → f.n loopCounter = 0 ∧
        ∀ o, CanTake rule.opens f.n o ↔ o = loopEntry p) ∧
      (p.name ∈ f.trail → f.n loopCounter = 1 ∧
        ∀ o, CanTake rule.opens f.n o → o ≠ loopEntry p) := by
  have hnames := c.loopNames tokens contest arrayHelpers valuePlan
  have htable := loopTable_of_emitRules hnames (c.loopCounter_notMem hcounter) hemit
  obtain ⟨rule, hrule, hentry⟩ := loop_held hnames hemit hp hloop hkept
  have hheld : p ∈ heldLoops _ rules := mem_heldLoops.mpr ⟨hp, hloop, rule, hrule, hentry⟩
  obtain ⟨hpushed, hback⟩ := htable.entry_once hreset hset hrun hf hopen hheld hat (hat ▸ hrule)
  refine ⟨rule, hrule, fun htrail => ?_, hback⟩
  obtain ⟨hn, honly⟩ := hpushed htrail
  refine ⟨hn, fun o => ⟨honly o, ?_⟩⟩
  rintro rfl
  exact canTake_loopEntry hentry hn

/-- `list = *item`, `item = "x"`. -/
def starred : Grammar where
  productions :=
    [{ name := "list", alts := [[.star (.ref "item" none none) none none]] },
     { name := "item", alts := [[.token "x" none]] }]

/-- `starred` desugared. -/
def starredPlain : Grammar := (desugar starred).toOption.getD { productions := [] }

/-- `starred` goes through the passes as it is. -/
def starredCompile : Compile plainSetting starred :=
  .leftAlone starredPlain "list" 3
    ⟨rfl, rfl, rfl, rfl, rfl, rfl, eq_ok_of_isOk (by decide +kernel) _⟩

/-- The emitter for `starred`. -/
def starredEmitter : Emitter := starredCompile.emitter {} apartContest [] []

/-- The rules of `starred`. -/
def starredRules : RuleTable := (emitRules "bnf" starredEmitter "list").toOption.getD []

/-- The loop of `starred`. -/
def starredLoop : Production := starredEmitter.grammar.productions[2]?.getD default

theorem eq_some_of_isSome {α : Type} {x : Option α} (h : x.isSome = true) (d : α) :
    x = some (x.getD d) := by
  obtain ⟨a, rfl⟩ := Option.isSome_iff_exists.mp h
  rfl

/-- The counters once alternates in turn have set the loops' counter. -/
def loopCounts (xs : List Int) : Counters :=
  xs.foldl (fun n x => n.after (fun _ v => v) { n := some [(loopCounter, x)] }) fun _ => 0

/-- The loop of `starred` from its push on: it takes its entry and goes on as an iteration, which
pushes an item, and once that has left comes back to the loop. -/
def itemRun (base : List EngineFrame) : List (List EngineFrame) :=
  let loop := starredLoop.name
  let alt := altName loop 0
  [⟨loop, loopCounts [], false, []⟩ :: base,
   ⟨loop, loopCounts [1], false, [loop]⟩ :: base,
   ⟨alt, loopCounts [1], false, [loop, loop]⟩ :: base,
   ⟨"item", loopCounts [1, 0], false, []⟩ ::
     ⟨alt, loopCounts [1, 0], true, [loop, loop]⟩ :: base,
   ⟨"item", loopCounts [1, 0], true, []⟩ ::
     ⟨alt, loopCounts [1, 0], true, [loop, loop]⟩ :: base,
   ⟨alt, loopCounts [1, 0], true, [loop, loop]⟩ :: base,
   ⟨stepName alt 1, loopCounts [1, 0, 1], false, [alt, loop, loop]⟩ :: base,
   ⟨loop, loopCounts [1, 0, 1], false, [stepName alt 1, alt, loop, loop]⟩ :: base]

theorem starred_lookup_loop : starredRules.lookup starredLoop.name =
    some ⟨[loopEntry starredLoop,
      { s := ["x"], b := 1, r := some (altName starredLoop.name 0) },
      { s := ["#ZZ"], b := 1 }, {}], none⟩ := by decide +kernel

theorem itemRun_chain (base : List EngineFrame) :
    (itemRun base).IsChain (EngineStep starredRules fun _ x => x) := by
  have hiter : starredRules.lookup (altName starredLoop.name 0) =
      some (iterationRule (altName starredLoop.name 0) "item") := by decide +kernel
  have hitem : starredRules.lookup "item" = some ⟨[{ s := ["x"] }], none⟩ := by decide +kernel
  have hagain : starredRules.lookup (stepName (altName starredLoop.name 0) 1) =
      some (againRule starredLoop.name) := by decide +kernel
  have hfree : ∀ {n : Counters} {o : AltSpec}, o.c = none → Allows n o := by
    intro n o ho counter hc
    rw [ho] at hc
    cases hc
  have henter : EngineStep starredRules (fun _ x => x)
      (⟨starredLoop.name, loopCounts [], false, []⟩ :: base)
      (⟨starredLoop.name, loopCounts [1], false, [starredLoop.name]⟩ :: base) :=
    .replace (o := loopEntry starredLoop) starred_lookup_loop (canTake_cons _ fun _ _ => rfl)
      rfl rfl
  have hcontinue : EngineStep starredRules (fun _ x => x)
      (⟨starredLoop.name, loopCounts [1], false, [starredLoop.name]⟩ :: base)
      (⟨altName starredLoop.name 0, loopCounts [1], false,
        [starredLoop.name, starredLoop.name]⟩ :: base) := by
    have hset : loopCounts [1] loopCounter = 1 := rfl
    refine .replace (o := { s := ["x"], b := 1, r := some (altName starredLoop.name 0) })
      starred_lookup_loop ⟨[loopEntry starredLoop], _, rfl, hfree rfl, fun a ha hcertain => ?_⟩
      rfl rfl
    obtain rfl := List.mem_singleton.mp ha
    exact absurd (hset.symm.trans (hcertain.2.2 loopCounter rfl)) one_ne_zero
  refine List.isChain_cons_cons.mpr ⟨henter, List.isChain_cons_cons.mpr ⟨hcontinue,
    List.isChain_cons_cons.mpr ⟨?_, List.isChain_cons_cons.mpr ⟨?_,
    List.isChain_cons_cons.mpr ⟨?_, List.isChain_cons_cons.mpr ⟨?_,
    List.isChain_cons_cons.mpr ⟨?_, List.isChain_singleton _⟩⟩⟩⟩⟩⟩⟩
  · exact .push (o := { p := some "item", n := some [(loopCounter, 0)] }) hiter
      (canTake_cons _ (hfree rfl)) rfl
  · exact .close (o := { s := ["x"] }) hitem rfl (canTake_cons _ (hfree rfl)) rfl rfl
  · exact .leave hitem rfl (.inl rfl)
  · exact .replace
      (o := { r := some (stepName (altName starredLoop.name 0) 1), n := some [(loopCounter, 1)] })
      hiter (canTake_cons _ (hfree rfl)) rfl rfl
  · exact .replace (o := { r := some starredLoop.name }) hagain (canTake_cons _ (hfree rfl)) rfl rfl

/-- The start pushes the list, and the list its loop. -/
def starredBase : List EngineFrame :=
  [⟨"list", loopCounts [], true, []⟩, ⟨startWrapper starredEmitter, loopCounts [], true, []⟩]

theorem starred_pushed : EngineReach starredRules (fun _ x => x) (startWrapper starredEmitter)
    (⟨starredLoop.name, loopCounts [], false, []⟩ :: starredBase) := by
  have hwrapper : starredRules.lookup (startWrapper starredEmitter) =
      some (wrapperRule starredEmitter "list").2 := by decide +kernel
  have hlist : starredRules.lookup "list" =
      some ⟨[{ p := some starredLoop.name }], some [{}]⟩ := by decide +kernel
  have hstart : EngineReach starredRules (fun _ x => x) (startWrapper starredEmitter)
      [⟨"list", fun _ => 0, false, []⟩, ⟨startWrapper starredEmitter, fun _ => 0, true, []⟩] :=
    .single (.push (o := { p := some "list" }) hwrapper (canTake_cons _ (by simp [Allows])) rfl)
  exact .tail hstart (.push (o := { p := some starredLoop.name }) hlist
    (canTake_cons _ (by simp [Allows])) rfl)

theorem starred_back : EngineReach starredRules (fun _ x => x) (startWrapper starredEmitter)
    (⟨starredLoop.name, loopCounts [1, 0, 1], false,
      [stepName (altName starredLoop.name 0) 1, altName starredLoop.name 0, starredLoop.name,
        starredLoop.name]⟩ :: starredBase) :=
  starred_pushed.trans (List.relationReflTransGen_of_exists_isChain_cons _
    (itemRun_chain starredBase) rfl)

theorem loop_entered_once_starred : ∃ rule, starredRules.lookup starredLoop.name = some rule ∧
    (∀ o, CanTake rule.opens (loopCounts []) o ↔ o = loopEntry starredLoop) ∧
    loopCounts [1, 0, 1] loopCounter = 1 ∧
      ¬ CanTake rule.opens (loopCounts [1, 0, 1]) (loopEntry starredLoop) := by
  have hcounter : ∀ p ∈ starred.productions, loopCounter ∉ countersInAlts p.alts := by decide
  have hemit : emitRules "bnf" starredEmitter "list" = .ok starredRules :=
    eq_ok_of_isOk (by decide +kernel) _
  have hmem : starredLoop ∈ starredEmitter.grammar.productions :=
    List.mem_of_getElem? (i := 2) (eq_some_of_isSome (by decide +kernel) _)
  have hloop : starredLoop.repeatLoop = true := by decide +kernel
  have hfree : ∀ q ∈ starredEmitter.grammar.productions,
      starredLoop.name ∉ generatedNames starredEmitter q := by decide +kernel
  have hkept : ∀ q, [starredLoop, q].Sublist starredEmitter.grammar.productions →
      q.repeatLoop = true → starredLoop.name ∉ generatedNames starredEmitter q :=
    fun q hq _ => hfree q (hq.subset (List.mem_cons_of_mem _ List.mem_cons_self))
  obtain ⟨rule, hrule, hpushed, -⟩ := starredCompile.loop_entered_once hcounter hemit
    (fun _ => rfl) rfl starred_pushed hmem hloop hkept List.mem_cons_self rfl rfl
  obtain ⟨rule', hrule', -, hback⟩ := starredCompile.loop_entered_once hcounter hemit
    (fun _ => rfl) rfl starred_back hmem hloop hkept List.mem_cons_self rfl rfl
  obtain rfl := Option.some.inj (hrule.symm.trans hrule')
  obtain ⟨hcount, hshut⟩ := hback (by simp)
  exact ⟨rule, hrule, (hpushed rfl).2, hcount, fun htaken => hshut _ htaken rfl⟩

/-- `S = *X$alt0 *X`, with a rule of the name the first loop would take. -/
def shadowed : Grammar where
  productions :=
    [{ name := "S", alts := [[.star (.ref "X$alt0" none none) none none,
        .star (.ref "X" none none) none none]] },
     { name := "X$alt0", alts := [[.token "#NR" none, .token "#TX" none]] },
     { name := "X", alts := [[.token "#ST" none, .token "#TX" none]] },
     { name := "_gen1_star_X$alt0", alts := [[.token "#VL" none, .token "#TX" none]] }]

/-- `shadowed` desugared. -/
def shadowedPlain : Grammar := (desugar shadowed).toOption.getD { productions := [] }

/-- `shadowed` goes through the passes as it is. -/
def shadowedCompile : Compile plainSetting shadowed :=
  .leftAlone shadowedPlain "S" 5
    ⟨rfl, rfl, rfl, rfl, rfl, rfl, eq_ok_of_isOk (by decide +kernel) _⟩

/-- The emitter for `shadowed`. -/
def shadowedEmitter : Emitter := shadowedCompile.emitter {} apartContest [] []

/-- The rules of `shadowed`. -/
def shadowedRules : RuleTable := (emitRules "bnf" shadowedEmitter "S").toOption.getD []

/-- The first loop of `shadowed`. -/
def shadowedLoop : Production := shadowedEmitter.grammar.productions[4]?.getD default

/-- The iteration of the second loop has the name of the first, which is left without its entry:
the claim fails. -/
theorem loop_entered_once_shadowed :
    ¬ ∀ (grammar : Grammar) (c : Compile plainSetting grammar) (rules : RuleTable)
      (stack : List EngineFrame) (f : EngineFrame) (p : Production),
      grammar.names.Nodup →
      emitRules "bnf" (c.emitter {} apartContest [] []) c.start = .ok rules →
      EngineReach rules (fun _ x => x) (startWrapper (c.emitter {} apartContest [] [])) stack →
      p ∈ (c.emitter {} apartContest [] []).grammar.productions → p.repeatLoop = true →
      f ∈ stack → f.rule = p.name → f.closing = false → f.trail = [] →
      ∃ rule, rules.lookup p.name = some rule ∧ CanTake rule.opens f.n (loopEntry p) := by
  intro h
  have hemit : emitRules "bnf" shadowedEmitter "S" = .ok shadowedRules :=
    eq_ok_of_isOk (by decide +kernel) _
  have hmem : shadowedLoop ∈ shadowedEmitter.grammar.productions :=
    List.mem_of_getElem? (i := 4) (eq_some_of_isSome (by decide +kernel) _)
  have hwrapper : shadowedRules.lookup (startWrapper shadowedEmitter) =
      some (wrapperRule shadowedEmitter "S").2 := by decide +kernel
  have hlist : shadowedRules.lookup "S" = some ⟨[{ p := some shadowedLoop.name }],
      some [{ r := some (stepName "S" 1) }]⟩ := by decide +kernel
  have hstart : EngineReach shadowedRules (fun _ x => x) (startWrapper shadowedEmitter)
      [⟨"S", fun _ => 0, false, []⟩, ⟨startWrapper shadowedEmitter, fun _ => 0, true, []⟩] :=
    .single (.push (o := { p := some "S" }) hwrapper (canTake_cons _ (by simp [Allows])) rfl)
  have hpushed : EngineReach shadowedRules (fun _ x => x) (startWrapper shadowedEmitter)
      [⟨shadowedLoop.name, fun _ => 0, false, []⟩, ⟨"S", fun _ => 0, true, []⟩,
        ⟨startWrapper shadowedEmitter, fun _ => 0, true, []⟩] :=
    .tail hstart (.push (o := { p := some shadowedLoop.name }) hlist
      (canTake_cons _ (by simp [Allows])) rfl)
  have hshadowed : shadowedRules.lookup shadowedLoop.name =
      some (iterationRule shadowedLoop.name "X") := by decide +kernel
  obtain ⟨rule, hrule, htaken⟩ := h _ shadowedCompile _ _ _ _ (by decide) hemit hpushed hmem
    (by decide +kernel) List.mem_cons_self rfl rfl rfl
  obtain rfl := Option.some.inj (hshadowed.symm.trans hrule)
  exact absurd htaken.mem (by decide +kernel)

end TabnasBnf
