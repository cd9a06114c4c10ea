import TabnasBnf.Lib.Threaded
import TabnasBnf.Passes

/-!
# Where a production comes from

`Production.origin` names the production the author wrote, and `origin_of` reads it: a production
without one is the author's own. Left recursion rebuilds productions and keeps it; the other passes
give it to every helper they push while they are at a production.

Which production a pass was at is said without reading an origin. The probe and the desugaring pass
are loops that thread a state, so what is pushed is what the log has more after an item
(`Threaded.Makes`); the factoring pass is a queue, where a helper may be factored again.

* `Grammar.Attributed`: the origins of a grammar, as the field is documented.
* `ProbeMakes`, `FactorMakes`, `DesugarMakes`: a pass makes one production of another.
* **`Compile.exists_makes`**: every production of the desugared grammar was made of one of the
  author's, and has its origin.
* **`Compile.credit_or_helper`**: it is the author's, name and origin, or the name is a helper's.
-/

namespace TabnasBnf

open Names

/-! ## Origins -/

/-- The names the author wrote: those of the productions that are their own origin. -/
def Grammar.authoredNames (grammar : Grammar) : List String :=
  (grammar.productions.filter fun p => p.originOf = p.name).map Production.name

/-- The origins of a grammar: each names a production the author wrote, and no name is both the
author's and another's. -/
structure Grammar.Attributed (grammar : Grammar) : Prop where
  descends : ∀ p ∈ grammar.productions, p.originOf ∈ grammar.authoredNames
  apart : ∀ p ∈ grammar.productions, p.name ∈ grammar.authoredNames → p.originOf = p.name

section

variable {grammar : Grammar} {p q : Production}

theorem Grammar.mem_authoredNames {n : String} :
    n ∈ grammar.authoredNames ↔ ∃ p ∈ grammar.productions, p.originOf = n ∧ p.name = n := by
  unfold Grammar.authoredNames
  simp only [List.mem_map, List.mem_filter, decide_eq_true_eq]
  constructor
  · rintro ⟨p, ⟨hp, horigin⟩, rfl⟩
    exact ⟨p, hp, horigin, rfl⟩
  · rintro ⟨p, hp, horigin, rfl⟩
    exact ⟨p, ⟨hp, horigin⟩, rfl⟩

/-- A grammar as a front-end leaves it, without an origin, is all the author's. -/
theorem Grammar.attributed_of_authored (h : ∀ p ∈ grammar.productions, p.origin = none) :
    grammar.Attributed := by
  have howner : ∀ p ∈ grammar.productions, p.originOf = p.name := fun p hp => by
    rw [Production.originOf, h p hp, Option.getD_none]
  exact ⟨fun p hp => Grammar.mem_authoredNames.mpr ⟨p, hp, rfl, (howner p hp).symm⟩,
    fun p hp _ => howner p hp⟩

end

/-! ## Elimination and what comes before -/

section

variable {diag : String} {keep cyclic : List String}

theorem expandNullableLeftPrefixes_credits : ∀ (prods : List Production) (added : Nat)
    {r : List Production × Nat}, expandNullableLeftPrefixes diag prods added = .ok r →
      r.1.map Production.credit = prods.map Production.credit
  | [], _, _, h => by
    cases h
    rfl
  | p :: rest, _, _, h => by
    obtain ⟨⟨alts, added₁⟩, -, h⟩ := bind_eq_ok h
    obtain ⟨⟨rest', added₂⟩, hrest, h⟩ := bind_eq_ok h
    cases h
    exact congrArg (p.credit :: ·) (expandNullableLeftPrefixes_credits rest added₁ hrest)

/-- **Left recursion keeps names and origins.** -/
theorem eliminate_credit {grammar g' : Grammar}
    (h : eliminateLeftRecursionKeeping diag grammar keep = .ok g') :
    ∀ q ∈ g'.productions, ∃ p ∈ grammar.productions, q.credit = p.credit := by
  obtain ⟨⟨expanded, added⟩, hexpand, h⟩ := bind_eq_ok h
  obtain ⟨done, hpaull, h⟩ := bind_eq_ok h
  obtain rfl := Except.ok.inj h
  intro q hq
  have hdone : q ∈ done :=
    mem_slotsOf ((perm_takeSlots grammar.names (nodup_slotsOf done)).mem_iff.mp hq)
  have hcredit : q.credit ∈ (topoOrderForPaull expanded).map Production.credit := by
    rw [← List.nil_append (topoOrderForPaull expanded), ← paull_credits _ _ hpaull]
    exact List.mem_map_of_mem hdone
  obtain ⟨p, hp, hpq⟩ := List.mem_map.mp hcredit
  have hexpanded : p.credit ∈ (grammar.productions.map fun p => p.rebuilt p.alts).map
      Production.credit := by
    rw [← expandNullableLeftPrefixes_credits _ _ hexpand]
    exact List.mem_map_of_mem ((topoOrderForPaull_names expanded).2.1 p hp)
  rw [List.map_map] at hexpanded
  obtain ⟨p₀, hp₀, hcopy⟩ := List.mem_map.mp hexpanded
  exact ⟨p₀, hp₀, hpq.symm.trans hcopy.symm⟩

/-- Prose resolution, literal tokens and engine tokens drop productions and keep the others' names
and origins. -/
theorem Compile.normalized_credit {S : Setting} {grammar : Grammar} (c : Compile S grammar) :
    ∀ q ∈ c.normalized.productions, ∃ p ∈ grammar.productions, q.credit = p.credit := by
  intro q hq
  obtain ⟨q₁, hq₁, rfl⟩ := List.mem_map.mp hq
  have hlifted : ∃ p ∈ c.resolved.productions, q₁.credit = p.credit := by
    unfold liftLiteralTokens at hq₁
    dsimp only at hq₁
    split at hq₁
    · exact ⟨q₁, hq₁, rfl⟩
    · obtain ⟨p, hp, rfl⟩ := List.mem_map.mp hq₁
      exact ⟨p, (List.mem_filter.mp hp).1, rfl⟩
  obtain ⟨p, hp, hcredit⟩ := hlifted
  exact ⟨p, (resolveProseTerminals_sublist c.resolve_eq).subset hp, hcredit⟩

end

/-! ## What a pass that pushes helpers keeps -/

/-- Every production of `g'` is one of `g`, name and origin, or its name is none of `g`. -/
structure Extends (g g' : Grammar) : Prop where
  names : g.names ⊆ g'.names
  credit : ∀ q ∈ g'.productions, (∃ p ∈ g.productions, q.credit = p.credit) ∨ q.name ∉ g.names

theorem Extends.trans {g g' g'' : Grammar} (h : Extends g g') (h' : Extends g' g'') :
    Extends g g'' where
  names := List.Subset.trans h.names h'.names
  credit := fun q hq => by
    rcases h'.credit q hq with ⟨p, hp, hcredit⟩ | hnew
    · rw [hcredit, (Production.credit_eq_iff.mp hcredit).1]
      exact h.credit p hp
    · exact .inr fun hmem => hnew (h.names hmem)

/-! ## Probe dispatch -/

section

variable (diag : String) (grammar : Grammar)

/-- `rewrite_probe_dispatches` at one production. -/
def probeStep (prod : Production) (st : ProbeState) :
    Except EmitError (Production × ProbeState) := do
  let (alts, touched, st) ← rewriteProbeAlts diag grammar prod 0 prod.alts st
  return (if touched then prod.rebuilt alts else prod, st)

/-- Probe rewriting makes `q` of `p`: it is what the pass returns for `p`, or what it pushes
there. -/
def ProbeMakes : Production → Production → Prop :=
  Threaded.Makes (probeStep diag grammar) ProbeState.extra grammar.productions
    ⟨grammar.names, [], grammar.ambiguities⟩

variable {diag grammar}

theorem rewriteProbeProductions_eq_run : ∀ (ps : List Production) (st : ProbeState),
    rewriteProbeProductions diag grammar ps st = Threaded.run (probeStep diag grammar) ps st
  | [], _ => rfl
  | p :: ps, st => by
    unfold rewriteProbeProductions Threaded.run probeStep
    cases rewriteProbeAlts diag grammar p 0 p.alts st with
    | error e => rfl
    | ok r =>
      show (rewriteProbeProductions diag grammar ps r.2.2 >>= _) = (Threaded.run _ ps r.2.2 >>= _)
      rw [rewriteProbeProductions_eq_run ps]
      rfl

theorem rewriteProbeAlt_pushes {prod : Production} {alt : Sequence} {altIdx : Nat}
    {st : ProbeState} {r : Sequence × Bool × ProbeState}
    (h : rewriteProbeAlt diag grammar prod altIdx alt st = .ok r) :
    ∃ new, r.2.2.extra = st.extra ++ new ∧ ∀ q ∈ new, q.originOf = prod.originOf := by
  unfold rewriteProbeAlt at h
  split at h
  · cases h
    exact ⟨[], (List.append_nil _).symm, fun _ hq => absurd hq List.not_mem_nil⟩
  · dsimp only at h
    split at h
    · cases h
    · cases h
      refine ⟨_, rfl, fun q hq => ?_⟩
      simp only [probeProductions, List.mem_cons, List.not_mem_nil, or_false] at hq
      rcases hq with rfl | rfl | rfl | rfl <;> rfl

theorem rewriteProbeAlts_pushes {prod : Production} : ∀ (alts : List Sequence) {altIdx : Nat}
    {st : ProbeState} {r : List Sequence × Bool × ProbeState},
      rewriteProbeAlts diag grammar prod altIdx alts st = .ok r →
      ∃ new, r.2.2.extra = st.extra ++ new ∧ ∀ q ∈ new, q.originOf = prod.originOf
  | [], _, _, _, h => by
    cases h
    exact ⟨[], (List.append_nil _).symm, fun _ hq => absurd hq List.not_mem_nil⟩
  | alt :: rest, _, _, _, h => by
    obtain ⟨⟨alt', touched, st₁⟩, halt, h⟩ := bind_eq_ok h
    obtain ⟨⟨rest', restTouched, st₂⟩, hrest, h⟩ := bind_eq_ok h
    cases h
    obtain ⟨new₁, hextra₁, hnew₁⟩ := rewriteProbeAlt_pushes halt
    obtain ⟨new₂, hextra₂, hnew₂⟩ := rewriteProbeAlts_pushes rest hrest
    refine ⟨new₁ ++ new₂, by rw [hextra₂, hextra₁, List.append_assoc], fun q hq => ?_⟩
    exact (List.mem_append.mp hq).elim (hnew₁ q) (hnew₂ q)

/-- **One step**: the production keeps its name, and all that is made of it has its origin. -/
theorem probeStep_spec {p out : Production} {st st' : ProbeState}
    (h : probeStep diag grammar p st = .ok (out, st')) : out.credit = p.credit ∧
      ∃ new, st'.extra = st.extra ++ new ∧ ∀ q ∈ new, q.originOf = p.originOf := by
  obtain ⟨⟨alts, touched, st₁⟩, halts, h⟩ := bind_eq_ok h
  cases h
  refine ⟨?_, rewriteProbeAlts_pushes _ halts⟩
  split <;> rfl

theorem ProbeMakes.originOf {p q : Production} (h : ProbeMakes diag grammar p q) :
    q.originOf = p.originOf :=
  Threaded.Makes.related (R := fun p q : Production => q.originOf = p.originOf)
    (fun hstep => (probeStep_spec hstep).imp_left
      fun hcredit => (Production.credit_eq_iff.mp hcredit).2) h

theorem exists_probeMakes {g' : Grammar} (h : rewriteProbeDispatches diag grammar = .ok g') :
    ∀ q ∈ g'.productions, ∃ p ∈ grammar.productions, ProbeMakes diag grammar p q := by
  obtain ⟨⟨rewritten, st⟩, hrun, h⟩ := bind_eq_ok h
  obtain rfl := Except.ok.inj h
  rw [rewriteProbeProductions_eq_run] at hrun
  exact Threaded.makes_of_mem
    (fun hstep => (probeStep_spec hstep).2.imp fun _ hnew => hnew.1) hrun rfl

theorem rewriteProbeDispatches_extends {g' : Grammar}
    (h : rewriteProbeDispatches diag grammar = .ok g') : Extends grammar g' := by
  obtain ⟨⟨rewritten, st⟩, hrun, h⟩ := bind_eq_ok h
  obtain rfl := Except.ok.inj h
  obtain ⟨hnames, new, hnew, htaken⟩ := rewriteProbeProductions_names _ hrun
  refine ⟨fun n hn => ?_, fun q hq => ?_⟩
  · show n ∈ namesOf (rewritten ++ st.extra)
    rw [namesOf_append, hnames]
    exact List.mem_append_left _ hn
  · rcases List.mem_append.mp hq with hq | hq
    · rw [rewriteProbeProductions_eq_run] at hrun
      obtain ⟨p, st₁, st₂, hvisit⟩ := Threaded.visits_of_mem hrun q hq
      obtain ⟨hp, hstep⟩ := hvisit.step_eq
      exact .inl ⟨p, hp, (probeStep_spec hstep).1⟩
    · refine .inr (htaken.fresh _ ?_)
      have hmem : q.name ∈ namesOf st.extra := List.mem_map_of_mem hq
      rwa [hnew] at hmem

end

/-! ## Factoring and tail repeats -/

section

variable (diag : String) (lower upper : Char → Char) (grammar : Grammar)

/-- Factoring makes `r` of `p`: it is `p`, with its alternatives factored, or is made of a helper
that was queued meanwhile. -/
inductive FactorMakes : Production → Production → Prop
  | kept {p : Production} (hp : isRewritten p = true) : FactorMakes p p
  | factored {p : Production} {alts : List Sequence} {queued : List Production}
      {used used' : List String} (hp : isRewritten p = false)
      (h : factorAlts diag lower upper grammar p.name p.originOf p.alts.length p.alts used =
        .ok (alts, queued, used')) : FactorMakes p { p with alts := alts }
  | queued {p q r : Production} {alts : List Sequence} {queued : List Production}
      {used used' : List String} (hp : isRewritten p = false)
      (h : factorAlts diag lower upper grammar p.name p.originOf p.alts.length p.alts used =
        .ok (alts, queued, used')) (hq : q ∈ queued) (later : FactorMakes q r) : FactorMakes p r

variable {diag lower upper grammar}

theorem factorRun_helper_originOf {prodName prodOrigin : String} {alts : List Sequence}
    {used : List String} {i plen : Nat} {head : Sequence} {rest : List Member} {q : Production}
    (hq : q ∈ (factorRun prodName prodOrigin alts used i head rest plen).helper) :
    q.originOf = prodOrigin := by
  unfold factorRun at hq
  simp only [Option.mem_def] at hq
  split at hq
  · cases hq
  · cases hq
    rfl

theorem factorAlts_queues {prodName prodOrigin : String} : ∀ (fuel : Nat) {alts : List Sequence}
    {used : List String} {r : List Sequence × List Production × List String},
      factorAlts diag lower upper grammar prodName prodOrigin fuel alts used = .ok r →
      ∀ q ∈ r.2.1, q.originOf = prodOrigin
  | 0, _, _, _, h => by
    cases h
    exact fun _ hq => absurd hq List.not_mem_nil
  | fuel + 1, _, _, _, h => by
    obtain ⟨next, honce, h⟩ := bind_eq_ok h
    cases next with
    | none =>
      cases h
      exact fun _ hq => absurd hq List.not_mem_nil
    | some f =>
      obtain ⟨⟨alts', queued, used'⟩, hrest, h⟩ := bind_eq_ok h
      cases h
      intro q hq
      rcases List.mem_append.mp hq with hq | hq
      · obtain ⟨i, headEl, head, later, -, -, rfl⟩ := factorFrom_cases honce
        exact factorRun_helper_originOf (Option.mem_toList.mp hq)
      · exact factorAlts_queues fuel hrest q hq

theorem FactorMakes.originOf {p r : Production} (h : FactorMakes diag lower upper grammar p r) :
    r.originOf = p.originOf := by
  induction h with
  | kept _ => rfl
  | factored _ _ => rfl
  | queued _ h hq _ ih => exact ih.trans (factorAlts_queues _ h _ hq)

theorem factorQueue_makes : ∀ (fuel : Nat) (queue : List Production) (used : List String)
    (out : List Production) {res : List Production},
      factorQueue diag lower upper grammar fuel queue used out = some (.ok res) →
      ∀ r ∈ res, r ∈ out ∨ ∃ p ∈ queue, FactorMakes diag lower upper grammar p r
  | fuel, [], used, out, res, h, r, hr => by
    unfold factorQueue at h
    cases h
    exact .inl hr
  | 0, _ :: _, _, _, res, h, _, _ => by cases h
  | fuel + 1, p :: queue, used, out, res, h, r, hr => by
    unfold factorQueue at h
    split at h
    · next hp =>
      rcases factorQueue_makes fuel queue used _ h r hr with hr | ⟨q, hq, hmakes⟩
      · rcases List.mem_append.mp hr with hr | hr
        · exact .inl hr
        · obtain rfl := List.mem_singleton.mp hr
          exact .inr ⟨r, List.mem_cons_self, .kept hp⟩
      · exact .inr ⟨q, List.mem_cons_of_mem _ hq, hmakes⟩
    · next hp =>
      have hp : isRewritten p = false := Bool.eq_false_iff.mpr hp
      split at h
      · cases h
      · next alts queued used' halts =>
        rcases factorQueue_makes fuel (queue ++ queued) used' _ h r hr with hr | ⟨q, hq, hmakes⟩
        · rcases List.mem_append.mp hr with hr | hr
          · exact .inl hr
          · obtain rfl := List.mem_singleton.mp hr
            exact .inr ⟨p, List.mem_cons_self, .factored hp halts⟩
        · rcases List.mem_append.mp hq with hq | hq
          · exact .inr ⟨q, List.mem_cons_of_mem _ hq, hmakes⟩
          · exact .inr ⟨p, List.mem_cons_self, .queued hp halts hq hmakes⟩

theorem exists_factorMakes {fuel : Nat} {g' : Grammar}
    (h : leftFactor diag lower upper grammar fuel = some (.ok g')) :
    ∀ r ∈ g'.productions, ∃ p ∈ grammar.productions,
      FactorMakes diag lower upper grammar p r := by
  obtain ⟨res, hres, h⟩ := Option.map_eq_some_iff.mp h
  cases res with
  | error e => cases h
  | ok res =>
    cases h
    intro r hr
    exact (factorQueue_makes fuel _ _ [] hres r hr).resolve_left List.not_mem_nil

theorem factorQueue_credit : ∀ (fuel : Nat) (queue : List Production) (used : List String)
    (out : List Production) {res : List Production},
      factorQueue diag lower upper grammar fuel queue used out = some (.ok res) →
      namesOf (out ++ queue) ⊆ namesOf res ∧
        ∀ r ∈ res, (∃ p ∈ out ++ queue, r.credit = p.credit) ∨ r.name ∉ used
  | fuel, [], used, out, res, h => by
    unfold factorQueue at h
    cases h
    rw [List.append_nil]
    exact ⟨List.Subset.refl _, fun r hr => .inl ⟨r, hr, rfl⟩⟩
  | 0, _ :: _, _, _, res, h => by cases h
  | fuel + 1, p :: queue, used, out, res, h => by
    unfold factorQueue at h
    split at h
    · have hrest := factorQueue_credit fuel queue used _ h
      rwa [List.append_assoc] at hrest
    · split at h
      · cases h
      · next alts queued used' halts =>
        have htaken := factorAlts_names _ halts
        obtain ⟨hnames, hcredit⟩ := factorQueue_credit fuel (queue ++ queued) used' _ h
        refine ⟨fun n hn => hnames ?_, fun r hr => ?_⟩
        · simp only [namesOf_append, namesOf_cons, namesOf_nil, List.mem_append, List.mem_cons,
            List.not_mem_nil, or_false] at hn ⊢
          tauto
        · rcases hcredit r hr with ⟨q, hq, hrq⟩ | hnew
          · rcases List.mem_append.mp hq with hq | hq
            · rcases List.mem_append.mp hq with hq | hq
              · exact .inl ⟨q, List.mem_append_left _ hq, hrq⟩
              · obtain rfl := List.mem_singleton.mp hq
                exact .inl ⟨p, List.mem_append_right _ List.mem_cons_self, hrq⟩
            · rcases List.mem_append.mp hq with hq | hq
              · exact .inl ⟨q, List.mem_append_right _ (List.mem_cons_of_mem _ hq), hrq⟩
              · refine .inr ?_
                rw [(Production.credit_eq_iff.mp hrq).1]
                exact htaken.fresh _ (List.mem_map_of_mem hq)
          · exact .inr fun hmem => hnew (htaken.grows hmem)

theorem leftFactor_extends {fuel : Nat} {g' : Grammar}
    (h : leftFactor diag lower upper grammar fuel = some (.ok g')) : Extends grammar g' := by
  obtain ⟨res, hres, h⟩ := Option.map_eq_some_iff.mp h
  cases res with
  | error e => cases h
  | ok res =>
    cases h
    obtain ⟨hnames, hcredit⟩ := factorQueue_credit fuel _ _ [] hres
    exact ⟨hnames, hcredit⟩

theorem rewriteTailRepeats_extends (start : String) :
    Extends grammar (rewriteTailRepeats grammar start) where
  names := by
    rw [rewriteTailRepeats_names]
    exact List.Subset.refl _
  credit := fun q hq => by
    obtain ⟨p, hp, rfl⟩ := List.mem_map.mp hq
    exact .inl ⟨p, hp, rewriteTailRepeat_credit start p⟩

end

/-! ## Desugaring -/

namespace Desugar

/-- The pass at one production. -/
def productionStep (p : Production) (d : Desugar) : Except String (Production × Desugar) := do
  let (alts, d) ← altList { d with origin := p.originOf } p.alts
  return ({ p.rebuilt alts with
    probeDispatch := p.probeDispatch, probeHelper := p.probeHelper, tailRepeat := p.tailRepeat,
    repeatHelper := p.repeatHelper, repeatLoop := p.repeatLoop, debtGuard := p.debtGuard }, d)

theorem productions_eq_run : ∀ (ps : List Production) (d : Desugar),
    productions d ps = Threaded.run productionStep ps d
  | [], _ => rfl
  | p :: ps, d => by
    unfold productions Threaded.run productionStep
    cases altList { d with origin := p.originOf } p.alts with
    | error e => rfl
    | ok r =>
      show (productions r.2 ps >>= _) = (Threaded.run _ ps r.2 >>= _)
      rw [productions_eq_run ps]
      rfl

/-- A run from `d` to `d'` that pushed productions of the origin at hand. -/
def Pushed (d d' : Desugar) : Prop :=
  d'.origin = d.origin ∧ ∃ new, d'.extra = d.extra ++ new ∧ ∀ q ∈ new, q.originOf = d.origin

section

variable {d d₁ d₂ : Desugar} {inner : Element}

theorem Pushed.same (ho : d₁.origin = d.origin) (he : d₁.extra = d.extra) : Pushed d d₁ :=
  ⟨ho, [], by rw [he, List.append_nil], fun _ hq => absurd hq List.not_mem_nil⟩

theorem Pushed.trans (h₁ : Pushed d d₁) (h₂ : Pushed d₁ d₂) : Pushed d d₂ := by
  obtain ⟨horigin₁, new₁, hextra₁, hnew₁⟩ := h₁
  obtain ⟨horigin₂, new₂, hextra₂, hnew₂⟩ := h₂
  refine ⟨horigin₂.trans horigin₁, new₁ ++ new₂, by rw [hextra₂, hextra₁, List.append_assoc],
    fun q hq => ?_⟩
  exact (List.mem_append.mp hq).elim (hnew₁ q) fun hq => (hnew₂ q hq).trans horigin₁

theorem freshName_pushed (d : Desugar) (hint : String) : Pushed d (d.freshName hint).2 :=
  .same rfl rfl

theorem helper_pushed (d : Desugar) (name : String) (alts : List Sequence) (repeatHelper : Bool) :
    Pushed d (d.helper name alts repeatHelper).2 :=
  ⟨rfl, [_], rfl, fun _ hq => List.mem_singleton.mp hq ▸ rfl⟩

theorem repeatLoop_pushed (d : Desugar) (name : String) (inner : Element)
    (debtGuard : Option String) : Pushed d (d.repeatLoop name inner debtGuard).2 :=
  ⟨rfl, [_], rfl, fun _ hq => List.mem_singleton.mp hq ▸ rfl⟩

theorem nestOptionals_pushed : ∀ (n : Nat) (nested : Option Element) (d : Desugar),
    Pushed d (nestOptionals inner n nested d).2
  | 0, _, _ => .same rfl rfl
  | n + 1, nested, d => by
    rw [nestOptionals_succ, nestStep_eq]
    refine Pushed.trans ?_ (nestOptionals_pushed n _ _)
    exact ((freshName_pushed d _).trans (helper_pushed _ _ _ _)).trans
      ((freshName_pushed _ _).trans (helper_pushed _ _ _ _))

theorem sugar_pushed (el : Element) : Pushed d (d.sugar el inner).2 := by
  cases el with
  | opt e sp => exact (freshName_pushed d _).trans (helper_pushed _ _ _ _)
  | star e guard sp => exact (freshName_pushed d _).trans (repeatLoop_pushed _ _ _ _)
  | plus e sp =>
    rw [sugar_plus]
    exact ((freshName_pushed d _).trans (freshName_pushed _ _)).trans
      ((repeatLoop_pushed _ _ _ _).trans (helper_pushed _ _ _ _))
  | rep min max e sp =>
    cases max with
    | none =>
      exact ((freshName_pushed d _).trans (freshName_pushed _ _)).trans
        ((repeatLoop_pushed _ _ _ _).trans (helper_pushed _ _ _ _))
    | some max =>
      exact ((freshName_pushed d _).trans (nestOptionals_pushed (max - min) none _)).trans
        (helper_pushed _ _ _ _)
  | _ => exact .same rfl rfl

mutual
theorem element_pushed : ∀ (el : Element) {d : Desugar} {r : Element × Desugar},
    element d el = .ok r → Pushed d r.2
  | .prose .., _, _, h => by cases h
  | .ref .., _, _, h | .term .., _, _, h | .regex .., _, _, h | .token .., _, _, h => by
    obtain rfl := Except.ok.inj h
    exact .same rfl rfl
  | .group alts _, _, _, h => by
    obtain ⟨⟨inner, d₁⟩, hinner, h⟩ := bind_eq_ok h
    obtain rfl := Except.ok.inj h
    exact (altList_pushed alts hinner).trans
      ((freshName_pushed _ _).trans (helper_pushed _ _ _ _))
  | .opt e sp, _, _, h | .star e guard sp, _, _, h | .plus e sp, _, _, h
  | .rep min max e sp, _, _, h => by
    obtain ⟨⟨inner, d₁⟩, hinner, h⟩ := bind_eq_ok h
    obtain rfl := Except.ok.inj h
    exact (element_pushed e hinner).trans (sugar_pushed _)

theorem alt_pushed : ∀ (α : List Element) {d : Desugar} {r : List Element × Desugar},
    alt d α = .ok r → Pushed d r.2
  | [], _, _, h => by
    obtain rfl := Except.ok.inj h
    exact .same rfl rfl
  | el :: α, _, _, h => by
    obtain ⟨⟨el', d₁⟩, hel, h⟩ := bind_eq_ok h
    obtain ⟨⟨α', d₂⟩, hα, h⟩ := bind_eq_ok h
    obtain rfl := Except.ok.inj h
    exact (element_pushed el hel).trans (alt_pushed (r := (α', d₂)) α hα)

theorem altList_pushed : ∀ (alts : List (List Element)) {d : Desugar}
    {r : List (List Element) × Desugar}, altList d alts = .ok r → Pushed d r.2
  | [], _, _, h => by
    obtain rfl := Except.ok.inj h
    exact .same rfl rfl
  | α :: alts, _, _, h => by
    obtain ⟨⟨α', d₁⟩, hα, h⟩ := bind_eq_ok h
    obtain ⟨⟨alts', d₂⟩, halts, h⟩ := bind_eq_ok h
    obtain rfl := Except.ok.inj h
    exact (alt_pushed α hα).trans (altList_pushed (r := (alts', d₂)) alts halts)
end

/-- **One step**: the production keeps its name, and all that is made of it has its origin. -/
theorem productionStep_spec {p out : Production} (h : productionStep p d = .ok (out, d₁)) :
    out.credit = p.credit ∧
      ∃ new, d₁.extra = d.extra ++ new ∧ ∀ q ∈ new, q.originOf = p.originOf := by
  obtain ⟨⟨alts, d₂⟩, halts, h⟩ := bind_eq_ok h
  cases h
  exact ⟨rfl, (altList_pushed _ halts).2⟩

end

end Desugar

/-- Desugaring makes `q` of `p`: it is what the pass returns for `p`, or what it pushes there. -/
def DesugarMakes (grammar : Grammar) : Production → Production → Prop :=
  Threaded.Makes Desugar.productionStep Desugar.extra grammar.productions ⟨[], grammar.names, ""⟩

section

variable {grammar : Grammar}

theorem DesugarMakes.originOf {p q : Production} (h : DesugarMakes grammar p q) :
    q.originOf = p.originOf :=
  Threaded.Makes.related (R := fun p q : Production => q.originOf = p.originOf)
    (fun hstep => (Desugar.productionStep_spec hstep).imp_left
      fun hcredit => (Production.credit_eq_iff.mp hcredit).2) h

theorem exists_desugarMakes {g' : Grammar} (h : desugar grammar = .ok g') :
    ∀ q ∈ g'.productions, ∃ p ∈ grammar.productions, DesugarMakes grammar p q := by
  obtain ⟨⟨rewritten, d⟩, hrun, h⟩ := bind_eq_ok h
  obtain rfl := Except.ok.inj h
  rw [Desugar.productions_eq_run] at hrun
  exact Threaded.makes_of_mem
    (fun hstep => (Desugar.productionStep_spec hstep).2.imp fun _ hnew => hnew.1) hrun rfl

theorem desugar_extends {g' : Grammar} (h : desugar grammar = .ok g') : Extends grammar g' := by
  obtain ⟨⟨rewritten, d⟩, hrun, h⟩ := bind_eq_ok h
  obtain rfl := Except.ok.inj h
  obtain ⟨⟨ps, hps⟩, hnames⟩ := Desugar.productions_grown _ hrun
  have hextra : d.extra = ps := by simpa using hps.extra
  refine ⟨fun n hn => ?_, fun q hq => ?_⟩
  · show n ∈ namesOf (rewritten ++ d.extra)
    rw [namesOf_append, hnames]
    exact List.mem_append_left _ hn
  · rcases List.mem_append.mp hq with hq | hq
    · rw [Desugar.productions_eq_run] at hrun
      obtain ⟨p, d₁, d₂, hvisit⟩ := Threaded.visits_of_mem hrun q hq
      obtain ⟨hp, hstep⟩ := hvisit.step_eq
      exact .inl ⟨p, hp, (Desugar.productionStep_spec hstep).1⟩
    · exact .inr (hps.fresh _ (hextra ▸ List.mem_map_of_mem hq))

end

/-! ## Suffix debts -/

section

variable {grammar : Grammar} {tokens : Tokens} {sets : FirstSets}
  {overlap : String → String → Bool}

theorem modifyAt_credits (i : Nat) {f : Production → Production}
    (hf : ∀ p, (f p).credit = p.credit) : (grammar.modifyAt i f).productions.map
      Production.credit = grammar.productions.map Production.credit := by
  unfold Grammar.modifyAt
  dsimp only
  generalize grammar.productions = ps
  induction ps generalizing i with
  | nil => simp
  | cons p ps ih =>
    cases i with
    | zero => simp [hf]
    | succ i => simp [ih i]

theorem resolveLoop_credits (i : Nat) :
    (resolveLoop grammar tokens sets overlap i).productions.map Production.credit =
      grammar.productions.map Production.credit := by
  have hdismissed : (grammar.modifyAt i fun p => { p with debtGuard := none }).productions.map
      Production.credit = grammar.productions.map Production.credit :=
    modifyAt_credits i fun p => rfl
  unfold resolveLoop
  split
  · rfl
  · dsimp only
    split
    · split
      · exact hdismissed
      · split
        · exact hdismissed
        · unfold Grammar.mapAlts
          rw [List.map_map]
          exact modifyAt_credits i fun p => rfl
    · exact hdismissed

/-- **Settling the debts keeps names and origins.** -/
theorem resolveSuffixDebts_credits :
    (resolveSuffixDebts grammar tokens sets overlap).productions.map Production.credit =
      grammar.productions.map Production.credit := by
  unfold resolveSuffixDebts
  generalize (List.range grammar.productions.length).filter _ = idxs
  induction idxs generalizing grammar with
  | nil => rfl
  | cons i idxs ih => exact ih.trans (resolveLoop_credits i)

end

/-! ## A compile -/

namespace Compile

variable {S : Setting} {grammar : Grammar} (c : Compile S grammar)

/-- The passes make `q`, a production of the desugared grammar, of `p`, one of the author's: of
what left recursion leaves under its name, by probe rewriting, factoring and desugaring. -/
def Makes (p q : Production) : Prop :=
  ∃ e ∈ c.eliminated.productions, e.name = p.name ∧ ∃ q₁ q₂,
    ProbeMakes S.diag c.eliminated e q₁ ∧ FactorMakes S.diag S.lower S.upper c.probed q₁ q₂ ∧
      DesugarMakes (rewriteTailRepeats c.factored c.start) (rewriteTailRepeat c.start q₂) q

/-- The productions left recursion leaves are the author's. -/
theorem eliminated_credit :
    ∀ e ∈ c.eliminated.productions, ∃ p ∈ grammar.productions, e.credit = p.credit := by
  intro e he
  obtain ⟨e₁, he₁, hcredit⟩ := eliminate_credit c.eliminate_eq e he
  obtain ⟨p, hp, hcredit'⟩ := c.normalized_credit e₁ he₁
  exact ⟨p, hp, hcredit.trans hcredit'⟩

/-- **Every production was made of one of the author's** and has its origin. -/
theorem exists_makes : ∀ q ∈ c.desugared.productions,
    ∃ p ∈ grammar.productions, c.Makes p q ∧ q.originOf = p.originOf := by
  intro q hq
  obtain ⟨q₃, hq₃, hdesugar⟩ := exists_desugarMakes c.desugar_eq q hq
  obtain ⟨q₂, hq₂, rfl⟩ := List.mem_map.mp hq₃
  obtain ⟨q₁, hq₁, hfactor⟩ := exists_factorMakes c.factor_eq q₂ hq₂
  obtain ⟨e, he, hprobe⟩ := exists_probeMakes c.probe_eq q₁ hq₁
  obtain ⟨p, hp, hcredit⟩ := c.eliminated_credit e he
  obtain ⟨hname, horigin⟩ := Production.credit_eq_iff.mp hcredit
  refine ⟨p, hp, ⟨e, he, hname, q₁, q₂, hprobe, hfactor, hdesugar⟩, ?_⟩
  calc q.originOf
      = (rewriteTailRepeat c.start q₂).originOf := hdesugar.originOf
    _ = q₂.originOf := (Production.credit_eq_iff.mp (rewriteTailRepeat_credit c.start q₂)).2
    _ = q₁.originOf := hfactor.originOf
    _ = e.originOf := hprobe.originOf
    _ = p.originOf := horigin

/-- The names of the helpers the passes mint: those that left recursion has no production of. -/
def helperNames : List String := c.desugared.names.filter fun n => n ∉ c.eliminated.names

/-- **A production is the author's**, name and origin, or a helper. -/
theorem credit_or_helper : ∀ q ∈ c.desugared.productions,
    (∃ p ∈ grammar.productions, q.credit = p.credit) ∨ q.name ∈ c.helperNames := by
  intro q hq
  have hextends : Extends c.eliminated c.desugared :=
    (rewriteProbeDispatches_extends c.probe_eq).trans ((leftFactor_extends c.factor_eq).trans
      ((rewriteTailRepeats_extends c.start).trans (desugar_extends c.desugar_eq)))
  rcases hextends.credit q hq with ⟨e, he, hcredit⟩ | hnew
  · obtain ⟨p, hp, hcredit'⟩ := c.eliminated_credit e he
    exact .inl ⟨p, hp, hcredit.trans hcredit'⟩
  · exact .inr (List.mem_filter.mpr ⟨mem_namesOf.mpr ⟨q, hq, rfl⟩, by simpa using hnew⟩)

end Compile

end TabnasBnf
