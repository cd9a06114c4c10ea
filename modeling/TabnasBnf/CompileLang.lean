import TabnasBnf.Lib.Subst
import TabnasBnf.Settled

/-!
# What a compiled spec matches

From the grammar as written to the rules of its spec: literals are lifted and built-in names
resolved, left recursion is eliminated, probes and tails are rewritten, alternatives are factored,
the sugar is desugared and the rules are emitted. The engine's lexer gives every token of the spec a
meaning, the strings it matches.

* **`Compile.specLang_eq`**: the rule of every production matches what the production, as written,
  derives.
-/

namespace TabnasBnf

open Cf (subst)

/-! ## Tokens and their meaning -/

section

variable {T U : Type*} {τ : Element → Language T} {σ : T → Language U}

/-- What a rule of a spec matches, its tokens standing for `σ`. -/
def specLang (σ : String → Language U) (rules : RuleTable) (n : String) : Language U :=
  subst σ (ruleLang rules n)

/-- The meaning of a terminal is that of its token. -/
def meaning (tokens : Tokens) (σ : String → Language U) (el : Element) : Language U :=
  σ (tokens.name el)

/-- Terminals may be read before a derivation or behind it. -/
theorem nameLang_subst (G : List Production) (n : String) :
    nameLang (fun el => subst σ (τ el)) G n = subst σ (nameLang τ G n) := by
  rw [← lang_ref n none none, ← lang_ref n none none]
  refine Eq.trans ?_ (Cf.lang_subst _)
  unfold lang
  congr 1
  funext el
  cases el <;> simp [leaf]

theorem nameLang_meaning (tokens : Tokens) (σ : String → Language U) (G : List Production)
    (n : String) :
    nameLang (meaning tokens σ) G n = subst σ (nameLang (tokenLeaf tokens) G n) := by
  rw [← nameLang_subst]
  congr 1
  funext el
  rw [tokenLeaf, Cf.subst_singleton, Cf.seq_singleton]
  rfl

/-- Terminals that are equal have one token. -/
theorem respectsEqual_meaning (tokens : Tokens) (σ : String → Language U) :
    RespectsEqual (meaning tokens σ) := by
  intro a b ha hb h
  cases a <;> cases b <;>
    simp_all [Element.isTerminal, elemEqual, meaning, Tokens.name, Tokens.of]

end

/-! ## The emitter of a compile -/

theorem refs_eraseDebt (el : Element) : (eraseDebt el).refs = el.refs := by cases el <;> rfl

theorem SameRule.mem_refs {p q : Production} (h : SameRule p q) {n : String} :
    n ∈ refsInAlts q.alts ↔ n ∈ refsInAlts p.alts := by
  have hmap : ∀ alts : List Sequence,
      n ∈ refsInAlts (alts.map (·.map eraseDebt)) ↔ n ∈ refsInAlts alts := by
    intro alts
    simp only [mem_refsInAlts, mem_refsIn, List.mem_map, exists_exists_and_eq_and, refs_eraseDebt]
  rw [← hmap, h.alts, hmap]

theorem SameRule.tailOfTerminals {p q : Production} (h : SameRule p q) (hp : TailOfTerminals p) :
    TailOfTerminals q := by
  intro spec hspec
  rw [h.tailRepeat] at hspec
  obtain ⟨pre, halts, hne, hterm⟩ := hp spec hspec
  exact ⟨pre, h.alts_terminals halts fun el hel => hterm el (List.mem_append_right _ hel), hne,
    hterm⟩

theorem SameRule.tailed {p q : Production} (h : SameRule p q) : SameRule p.tailed q.tailed := by
  unfold Production.tailed
  rw [h.tailRepeat]
  cases p.tailRepeat with
  | none => exact h
  | some tail =>
    refine ⟨h.name, ?_, rfl, h.probeHelper, h.probeDispatch, h.repeatLoop⟩
    have hfun : ∀ alts : List Sequence, ((alts.map fun pre =>
        pre ++ tail.sep ++ [Element.reference q.name]).map (·.map eraseDebt)) =
          (alts.map (·.map eraseDebt)).map fun pre =>
            pre ++ tail.sep.map eraseDebt ++ [Element.reference q.name] := by
      intro alts
      simp [Element.reference, eraseDebt]
    rw [List.map_append, List.map_append, ← h.name, hfun, hfun, h.alts]

theorem SameRules.tailed {g g' : Grammar} (h : SameRules g g') : SameRules g.tailed g'.tailed := by
  unfold SameRules Grammar.tailed
  rw [List.forall₂_map_left_iff, List.forall₂_map_right_iff]
  exact List.Forall₂.imp (fun _ _ => SameRule.tailed) h

namespace Compile

variable {S : Setting} {grammar : Grammar} (c : Compile S grammar) {tokens : Tokens}
  {contest : ContestCtx} {arrayHelpers : List String} {valuePlan : List (String × List Bool)}

theorem emitter_sameRules (tokens : Tokens) (contest : ContestCtx) (arrayHelpers : List String)
    (valuePlan : List (String × List Bool)) :
    SameRules c.desugared (c.emitter tokens contest arrayHelpers valuePlan).grammar :=
  sameRules_resolveSuffixDebts

/-- What the emitter of a compile is given. -/
theorem settles (hnd : grammar.names.Nodup) (hcap : c.Uncaptured) :
    Settles (c.emitter tokens contest arrayHelpers valuePlan) c.probed.productions := by
  have hsame := c.emitter_sameRules tokens contest arrayHelpers valuePlan
  have hnames := c.emitter_names tokens contest arrayHelpers valuePlan
  constructor
  case nodup =>
    rw [hnames]
    exact c.desugared_nodup
  case plain => exact plain_of_sameRules hsame c.desugared_shape.plain
  case tails =>
    intro q hq
    obtain ⟨p, hp, h⟩ := exists_left_of_forall₂ hsame hq
    exact h.tailOfTerminals (c.desugared_shape.tail p hp)
  case flagged =>
    intro q hq
    obtain ⟨p, hp, h⟩ := exists_left_of_forall₂ hsame hq
    exact (c.flagged p hp).sameRule h
  case subset =>
    rw [hnames]
    exact fun n hn => c.desugared_subset (c.factored_subset hn)
  case apart =>
    intro q hq n hn hmem
    obtain ⟨p, hp, h⟩ := exists_left_of_forall₂ hsame hq
    obtain ⟨q', hq', rfl⟩ := mem_namesOf.mp hmem
    refine mem_plainNames.mpr ⟨q', hq', ?_, rfl⟩
    by_contra hhelper
    obtain ⟨p', hp', h'⟩ := exists_left_of_forall₂ hsame hq'
    refine c.refs_apart hnd hcap (List.mem_flatMap.mpr ⟨p, hp, h.mem_refs.mp hn⟩) ?_
    refine c.mem_probeNames.mpr ⟨p', hp', ?_, h'.name.symm⟩
    rw [← h'.probeHelper]
    exact Option.isSome_iff_ne_none.mpr hhelper

/-- A production of the grammar that the structural passes are given is no probe's. -/
theorem mem_plainNames_emitter (hnd : grammar.names.Nodup) {n : String}
    (hn : n ∈ c.normalized.names) :
    n ∈ plainNames (c.emitter tokens contest arrayHelpers valuePlan).grammar.productions := by
  have hmem := c.normalized_subset hn
  rw [← c.emitter_names tokens contest arrayHelpers valuePlan] at hmem
  obtain ⟨q, hq, rfl⟩ := mem_namesOf.mp hmem
  refine mem_plainNames.mpr ⟨q, hq, ?_, rfl⟩
  by_contra hhelper
  obtain ⟨p, hp, h⟩ := exists_left_of_forall₂ (c.emitter_sameRules tokens contest
    arrayHelpers valuePlan) hq
  refine c.probe_fresh hnd (c.mem_probeNames.mpr ⟨p, hp, ?_, h.name.symm⟩) hn
  rw [← h.probeHelper]
  exact Option.isSome_iff_ne_none.mpr hhelper

/-- The emitted rules derive what the factored grammar does, over its tokens. -/
theorem ruleLang_factored (hnd : grammar.names.Nodup) (hcap : c.Uncaptured) {rules : RuleTable}
    (hclash : Unclashing S.diag (c.emitter tokens contest arrayHelpers valuePlan))
    (h : emitRules S.diag (c.emitter tokens contest arrayHelpers valuePlan) c.start = .ok rules)
    {n : String} (hn : n ∈ c.normalized.names) :
    ruleLang (settledRules rules) n = nameLang (tokenLeaf tokens) c.factored.productions n := by
  have hsame := (c.emitter_sameRules tokens contest arrayHelpers valuePlan).tailed
  have hproduces := produces_of_sameRules tokens hsame
  have hplain : Plain c.desugared.tailed := by
    intro q hq alt halt el hel
    obtain ⟨p, hp, rfl⟩ := List.mem_map.mp hq
    cases htail : p.tailRepeat with
    | none =>
      rw [p.tailed_of_none htail] at halt
      exact c.desugared_shape.plain p hp alt halt el hel
    | some tail =>
      exact Bool.or_eq_true _ _ ▸ ((c.desugared_shape.tail p hp).simple htail).2 alt halt el hel
  have hclosed : FirstClosed c.desugared tokens contest.classSets
      (c.emitter tokens contest arrayHelpers valuePlan).sets := computeFirstSets_closed
  have hlang := ruleLang_settled (c.settles hnd hcap) hclash h (fun m hm => ?_)
    (c.mem_plainNames_emitter hnd hn)
  · rw [hlang, show (c.emitter tokens contest arrayHelpers valuePlan).tokens = tokens from rfl,
      hproduces, ← nameLang_eq_lang hplain]
    exact c.tailed_lang hnd hcap (c.factored_subset (c.probed_subset hn))
  · rw [show (c.emitter tokens contest arrayHelpers valuePlan).tokens = tokens from rfl, hproduces]
    refine lang_of_deadAlts (fun q hq hdead alt halt => ?_) hm
    obtain ⟨p, hp, rfl⟩ := List.mem_map.mp hq
    obtain ⟨alt', halt', hsub⟩ := Production.subset_tailed halt
    obtain ⟨el, hel, hrest⟩ := hclosed.dead_alt hp (p.tailed_name ▸ hdead) halt'
    exact ⟨el, hsub hel, hrest⟩

/-- The start wrapper's rule matches what the start rule does, and the end of the input. -/
theorem ruleLang_startWrapper {rules : RuleTable}
    (hclash : Unclashing S.diag (c.emitter tokens contest arrayHelpers valuePlan))
    (h : emitRules S.diag (c.emitter tokens contest arrayHelpers valuePlan) c.start = .ok rules) :
    ruleLang (settledRules rules) (startWrapper (c.emitter tokens contest arrayHelpers valuePlan)) =
      ruleLang (settledRules rules) c.start * {["#ZZ"]} := by
  have hnodup : (c.emitter tokens contest arrayHelpers valuePlan).grammar.names.Nodup := by
    rw [c.emitter_names]
    exact c.desugared_nodup
  generalize c.emitter tokens contest arrayHelpers valuePlan = E at *
  obtain ⟨hrules, hkeys⟩ := emitRules_spec hnodup hclash h
  have hlookup : (settledRules rules).lookup (startWrapper E) =
      some ⟨[{ p := some c.start }], some [{ s := ["#ZZ"] }]⟩ := by
    refine Table.lookup_of_mem (by rwa [keys_settledRules]) (List.mem_map.mpr
      ⟨wrapperRule E c.start, ?_, rfl⟩)
    rw [hrules]
    exact List.mem_append_right _ (List.mem_singleton.mpr rfl)
  have htok : Cf.lang (emits (settledRules rules)) symLeaf (.tok "#ZZ") = {["#ZZ"]} :=
    lang_tok (fun t β h => h) _
  ext w
  rw [ruleLang, Cf.mem_lang_of_no_leaf (show symLeaf (.rule (startWrapper E)) = 0 from rfl), ← htok]
  constructor
  · rintro ⟨β, ⟨rule, hrule, hβ⟩, hw⟩
    obtain rfl := Option.some.inj (hlookup.symm.trans hrule)
    obtain rfl : β = [.rule c.start, .tok "#ZZ"] := List.mem_singleton.mp hβ
    simpa [ruleLang] using hw
  · intro hw
    refine ⟨[.rule c.start, .tok "#ZZ"], ⟨_, hlookup, List.mem_singleton.mpr rfl⟩, ?_⟩
    simpa [ruleLang] using hw

/-- The factored grammar derives what the grammar as written does. -/
theorem factored_written {T : Type*} {σ : String → Language T} (hnd : grammar.names.Nodup)
    (hcap : c.Uncaptured)
    (hclass : ∀ p ∈ c.normalized.productions, p.name ∈ c.classNames →
      σ ("#" ++ p.name) = members (meaning tokens σ) p)
    {n : String} (hn : n ∈ c.normalized.names) :
    nameLang (meaning tokens σ) c.factored.productions n =
      nameLang (meaning tokens σ) (written c.resolved) n := by
  have hequal := respectsEqual_meaning tokens σ
  have hresolved : c.resolved.names.Nodup :=
    hnd.sublist ((resolveProseTerminals_sublist c.resolve_eq).map Production.name)
  obtain ⟨hkept, hfrom⟩ := lift_normalize_resolves (τ := meaning tokens σ) c.resolved c.start
  rw [c.lang_passes hequal hnd hcap hclass hn]
  obtain ⟨q, hq, rfl⟩ := mem_namesOf.mp hn
  obtain ⟨p, hp, hlift, hres⟩ := hfrom q hq
  have hnone : tokenOf c.start c.resolved q.name = none := by
    rw [hres.name, tokenOf, liftedToken_eq_none.mpr hlift, Option.none_or]
    unfold builtinRef
    have hmem : p.name ∈ c.resolved.names := mem_namesOf.mpr ⟨p, hp, rfl⟩
    rw [if_pos (List.contains_iff_mem.mpr hmem)]
  refine nameLang_resolves (fun m t => isTerminal_of_tokenOf) (fun m t => mem_names_of_tokenOf)
    (fun p hp t ht => altsDen_of_tokenOf hequal hresolved hp ht) (fun p hp hp' => ?_)
    (fun q hq => ?_) hnone
  · obtain ⟨hlift, hbuiltin⟩ := tokenOf_eq_none hp'
    rcases List.mem_append.mp hp with hp | hp
    · exact hkept p hp hlift
    · -- every production of a built-in name is resolved away
      obtain ⟨hn, tok, htok, -⟩ := builtinRules_spec hp
      unfold builtinRef at hbuiltin
      rw [if_neg (by simpa using hn), htok] at hbuiltin
      cases hbuiltin
  · obtain ⟨p, hp, -, hres⟩ := hfrom q hq
    exact ⟨p, List.mem_append_left _ hp, hres⟩

end Compile

/-- **A compiled spec matches what its grammar derives.** The settled rule of every production that
is not lifted matches, for every meaning of the tokens, what the production derives in the grammar as
written; the start rule of the spec matches that of the start production, and the end of the
input. -/
theorem Compile.specLang_eq {S : Setting} {grammar : Grammar} (c : Compile S grammar)
    {tokens : Tokens} {contest : ContestCtx} {arrayHelpers : List String}
    {valuePlan : List (String × List Bool)} {rules : RuleTable} {T : Type*} {σ : String → Language T}
    (hnd : grammar.names.Nodup) (hcap : c.Uncaptured)
    (hclash : Unclashing S.diag (c.emitter tokens contest arrayHelpers valuePlan))
    (h : emitRules S.diag (c.emitter tokens contest arrayHelpers valuePlan) c.start = .ok rules)
    (hclass : ∀ p ∈ c.normalized.productions, p.name ∈ c.classNames →
      σ ("#" ++ p.name) = members (meaning tokens σ) p) :
    (∀ n ∈ c.normalized.names, specLang σ (settledRules rules) n =
      nameLang (meaning tokens σ) (written c.resolved) n) ∧
    (c.start ∈ c.normalized.names →
      specLang σ (settledRules rules)
          (startWrapper (c.emitter tokens contest arrayHelpers valuePlan)) =
        nameLang (meaning tokens σ) (written c.resolved) c.start * σ "#ZZ") := by
  have hrules : ∀ n ∈ c.normalized.names, specLang σ (settledRules rules) n =
      nameLang (meaning tokens σ) (written c.resolved) n := by
    intro n hn
    rw [specLang, c.ruleLang_factored hnd hcap hclash h hn, ← nameLang_meaning,
      c.factored_written hnd hcap hclass hn]
  refine ⟨hrules, fun hstart => ?_⟩
  rw [specLang, c.ruleLang_startWrapper hclash h, Cf.subst_mul, Cf.subst_singleton,
    Cf.seq_singleton]
  exact congrArg (· * σ "#ZZ") (hrules c.start hstart)

/-- `S = [ "a" "@" ] "a" T`, `T = "b" [ "," T ]`: a probe, and a tail repeat. -/
def addressed : Grammar where
  productions := [
    { name := "S",
      alts := [[.opt (.group [[.lit "a", .lit "@"]] none) none, .lit "a", .reference "T"]] },
    { name := "T", alts := [[.lit "b", .opt (.group [[.lit ",", .reference "T"]] none) none]] }]

/-- The productions with the probe rewritten, and `T` as given. -/
def addressedProbed (t : Production) : List Production :=
  [{ name := "S", alts := [[.reference "S$pd0"]] }, t,
    { Production.helper "S$pd0$probe" [] "S" with
      probeHelper := some ⟨[.lit "a", .lit "b", .lit ","]⟩ },
    Production.helper "S$pd0$with" [[.lit "a", .lit "@", .lit "a", .reference "T"]] "S",
    Production.helper "S$pd0$no" [[.lit "a", .reference "T"]] "S",
    { Production.helper "S$pd0" [[.reference "S$pd0$with"], [.reference "S$pd0$no"]] "S" with
      probeDispatch := some ⟨"S$pd0$probe", .lit "@", "S$pd0$with", "S$pd0$no"⟩ }]

def addressedCompile : Compile plainSetting addressed where
  resolved := addressed
  start := "S"
  eliminated := addressed
  probed := {
    productions := addressedProbed
      { name := "T", alts := [[.lit "b", .opt (.group [[.lit ",", .reference "T"]] none) none]] }
    ambiguities := [⟨"S", 0, 0, "optional prefix shares vocabulary with tail", true⟩] }
  fuel := 7
  factored := {
    productions := addressedProbed
      { name := "T", alts := [[.lit "b", .opt (.group [[.lit ",", .reference "T"]] none) none]] } }
  desugared := {
    productions := addressedProbed
      { name := "T", alts := [[.lit "b"]], tailRepeat := some ⟨[.lit ","]⟩ } }
  resolve_eq := rfl
  start_eq := rfl
  eliminate_eq := rfl
  probe_eq := rfl
  factor_eq := rfl
  validate_eq := rfl
  desugar_eq := rfl

/-- The tokens of `addressed`. -/
def addressedTokens : Tokens where
  literals := [("ci:a", "#A"), ("ci:b", "#B"), ("cs:@", "#AT"), ("cs:,", "#CA")]

/-- Its spec matches what it derives, every token standing for itself. -/
theorem Compile.specLang_eq_addressed :
    (emitRules "bnf" (addressedCompile.emitter addressedTokens apartContest [] []) "S").toOption.map
        (fun rules => specLang (fun t => ({[t]} : Language String)) (settledRules rules)
          "__start__") =
      some (nameLang (meaning addressedTokens fun t => ({[t]} : Language String))
        (written addressed) "S" * {["#ZZ"]}) := by
  obtain ⟨rules, hrules⟩ := exists_ok (x := emitRules "bnf"
    (addressedCompile.emitter addressedTokens apartContest [] []) "S") (by decide +kernel)
  rw [hrules]
  exact congrArg some ((addressedCompile.specLang_eq (by decide)
    (by unfold Compile.Uncaptured; decide +kernel) (by decide +kernel) hrules
    (fun _ _ h => by cases h)).2 (by decide))

end TabnasBnf
