import TabnasBnf.CompileLang
import TabnasBnf.EmitWrites
import TabnasBnf.PassTokens
import TabnasBnf.SpecNames

/-!
# A spec names what it declares

* **`Compile.rules_closed`**: every rule a compiled spec descends to is a rule of the spec.
* **`Compile.tokens_declared`**: every token it reads is declared in its options, written in the
  grammar as a token element, or the end of the input.
* **`Compile.spec_closed`**: the two together, of the spec as it is returned.
-/

namespace TabnasBnf

open Saturate

/-! ## The tokens of a compile -/

/-- The tokens the alternatives of a token class are. The code panics on an empty one, which no
class has. -/
def classMembers (tokens : Tokens) (p : Production) : List String :=
  addAll [] (p.alts.map fun alt => (alt.head?.map tokens.name).getD "")

/-- The token classes as token sets, each under the name of its set. -/
def classTokenSets (grammar : Grammar) (tokens : Tokens) (classSets : List (String × String)) :
    List (String × List String) :=
  grammar.productions.filterMap fun p => (classSets.lookup p.name).map fun name =>
    (trimHashes name, classMembers tokens p)

/-- `token_sets`, those of the token classes included. -/
def Allocation.allTokenSets (s : Allocation) (grammar : Grammar)
    (classSets : List (String × String)) : List (String × List String) :=
  Table.insertAll s.tokenSets (classTokenSets grammar s.tokens classSets)

/-- A token the options of the spec declare: fixed, matched, or a set. -/
def Declared (fixed : List (String × Option String)) (matchers : List (String × MatchToken))
    (sets : List (String × List String)) (t : String) : Prop :=
  t ∈ fixed.map Prod.fst ∨ t ∈ matchers.map Prod.fst ∨ trimHashes t ∈ sets.map Prod.fst

/-- The allocation declares the token. -/
def Allocation.Declares (s : Allocation) (t : String) : Prop :=
  Declared s.fixedTokens s.matchTokens s.tokenSets t

section

variable {diag : String} {build : String → Bool → Except String Unit} {wordKeywords : Bool}
  {s s' : Allocation}

/-- What is declared stays declared. -/
structure Allocation.Keeps (s s' : Allocation) : Prop where
  fixed : s.fixedTokens.map Prod.fst ⊆ s'.fixedTokens.map Prod.fst
  matchers : s.matchTokens.map Prod.fst ⊆ s'.matchTokens.map Prod.fst
  sets : s.tokenSets.map Prod.fst ⊆ s'.tokenSets.map Prod.fst

theorem Allocation.Keeps.refl (s : Allocation) : s.Keeps s :=
  ⟨List.Subset.refl _, List.Subset.refl _, List.Subset.refl _⟩

theorem Allocation.Keeps.trans {s₁ s₂ s₃ : Allocation} (h : s₁.Keeps s₂) (h' : s₂.Keeps s₃) :
    s₁.Keeps s₃ :=
  ⟨List.Subset.trans h.fixed h'.fixed, List.Subset.trans h.matchers h'.matchers,
    List.Subset.trans h.sets h'.sets⟩

theorem Allocation.Keeps.declares (h : s.Keeps s') {t : String} (ht : s.Declares t) :
    s'.Declares t :=
  ht.imp (h.fixed ·) (Or.imp (h.matchers ·) (h.sets ·))

theorem subset_keys_insert {β : Type*} (t : List (String × β)) (k : String) (v : β) :
    t.map Prod.fst ⊆ (Table.insert t k v).map Prod.fst := by
  intro k' hk'
  exact Table.mem_keys_insert.mpr (.inr hk')

theorem mem_keys_insert_self {β : Type*} (t : List (String × β)) (k : String) (v : β) :
    k ∈ (Table.insert t k v).map Prod.fst :=
  Table.mem_keys_insert.mpr (.inl rfl)

/-- A literal's token is fixed or matched. -/
theorem emitLiteralToken_declares {literal : String} {caseSensitive : Option Bool}
    {tokenName : Option String}
    (hrun : emitLiteralToken diag build wordKeywords literal caseSensitive tokenName s = .ok s') :
    s.Keeps s' ∧ s'.Declares (allocTokenName literal s.usedNames tokenName) ∧
      s'.tokens = { s.tokens with
        literals := Table.insert s.tokens.literals (termKey literal caseSensitive)
          (allocTokenName literal s.usedNames tokenName) } := by
  unfold emitLiteralToken at hrun
  dsimp only at hrun
  generalize (if (wordKeywords && endsWithWordChar literal) = true then ['\\', 'b'] else []) =
    boundary at hrun
  split at hrun
  · obtain rfl := Except.ok.inj hrun
    exact ⟨⟨subset_keys_insert _ _ _, List.Subset.refl _, List.Subset.refl _⟩,
      .inl (mem_keys_insert_self _ _ _), rfl⟩
  · obtain ⟨flags, -, hrun⟩ := bind_eq_ok hrun
    obtain rfl := Except.ok.inj hrun
    exact ⟨⟨List.Subset.refl _, subset_keys_insert _ _ _, List.Subset.refl _⟩,
      .inr (.inl (mem_keys_insert_self _ _ _)), rfl⟩

theorem coverAtoms_keeps {mine : List CharRange} {codePoints : Bool} :
    ∀ (spans : List CharRange) {acc acc' : List String × Allocation},
      spans.foldlM (coverAtom diag build mine codePoints) acc = .ok acc' →
        acc.2.Keeps acc'.2 ∧ acc'.2.tokens = acc.2.tokens
  | [], acc, acc', hrun => by
    obtain rfl := Except.ok.inj hrun
    exact ⟨.refl _, rfl⟩
  | span :: spans, acc, acc', hrun => by
    rw [List.foldlM_cons] at hrun
    obtain ⟨acc₁, hstep, hrun⟩ := bind_eq_ok hrun
    obtain ⟨hkeeps, htokens⟩ := coverAtoms_keeps spans hrun
    have hone : acc.2.Keeps acc₁.2 ∧ acc₁.2.tokens = acc.2.tokens := by
      unfold coverAtom at hstep
      split at hstep
      · obtain rfl := Except.ok.inj hstep
        exact ⟨.refl _, rfl⟩
      · split at hstep
        · obtain rfl := Except.ok.inj hstep
          exact ⟨.refl _, rfl⟩
        · dsimp only at hstep
          obtain ⟨re, -, hstep⟩ := bind_eq_ok hstep
          obtain rfl := Except.ok.inj hstep
          exact ⟨⟨List.Subset.refl _, subset_keys_insert _ _ _, List.Subset.refl _⟩, rfl⟩
    exact ⟨hone.1.trans hkeeps, htokens.trans hone.2⟩

/-- A pattern's token is matched, or the set of its atoms. -/
theorem emitClassToken_declares {pattern flags : String}
    (hrun : emitClassToken diag build pattern flags s = .ok s') :
    s.Keeps s' ∧ s'.Declares (allocTokenName ("rx_" ++ pattern) s.usedNames none) ∧
      s'.tokens = { s.tokens with
        regexTokens := Table.insert s.tokens.regexTokens (regexKey pattern flags)
          (allocTokenName ("rx_" ++ pattern) s.usedNames none) } := by
  unfold emitClassToken at hrun
  dsimp only at hrun
  obtain ⟨own, -, hrun⟩ := bind_eq_ok hrun
  split at hrun
  · obtain rfl := Except.ok.inj hrun
    exact ⟨⟨List.Subset.refl _, subset_keys_insert _ _ _, List.Subset.refl _⟩,
      .inr (.inl (mem_keys_insert_self _ _ _)), rfl⟩
  · obtain ⟨⟨members, s₂⟩, hloop, hrun⟩ := bind_eq_ok hrun
    obtain rfl := Except.ok.inj hrun
    obtain ⟨⟨hfixed, hmatchers, hsets⟩, htokens⟩ := coverAtoms_keeps _ hloop
    exact ⟨⟨hfixed, hmatchers, List.Subset.trans hsets (subset_keys_insert _ _ _)⟩,
      .inr (.inr (mem_keys_insert_self _ _ _)), htokens⟩

/-- Every token a literal or a pattern has is declared. -/
structure Allocation.Covered (s : Allocation) : Prop where
  literals : ∀ k n, s.tokens.literals.lookup k = some n → s.Declares n
  regexTokens : ∀ k n, s.tokens.regexTokens.lookup k = some n → s.Declares n

/-- **A step declares the token it gives a terminal.** -/
theorem allocTerminal_covered {el : Element} (h : s.Covered)
    (hrun : allocTerminal diag build wordKeywords s el = .ok s') : s'.Covered ∧ s.Keeps s' := by
  have hsame : s' = s → s'.Covered ∧ s.Keeps s' := by
    rintro rfl
    exact ⟨h, .refl _⟩
  cases el with
  | term literal caseSensitive tokenName sp =>
    rw [allocTerminal] at hrun
    split at hrun
    · exact hsame (Except.ok.inj hrun).symm
    · obtain ⟨hkeeps, hdeclares, htokens⟩ := emitLiteralToken_declares hrun
      refine ⟨⟨fun k n hn => ?_, fun k n hn => ?_⟩, hkeeps⟩
      · rw [htokens, Table.lookup_insert] at hn
        split at hn
        · exact Option.some.inj hn ▸ hdeclares
        · exact hkeeps.declares (h.literals k n hn)
      · rw [htokens] at hn
        exact hkeeps.declares (h.regexTokens k n hn)
  | regex pattern flags sp =>
    rw [allocTerminal] at hrun
    split at hrun
    · exact hsame (Except.ok.inj hrun).symm
    · obtain ⟨hkeeps, hdeclares, htokens⟩ := emitClassToken_declares hrun
      refine ⟨⟨fun k n hn => ?_, fun k n hn => ?_⟩, hkeeps⟩
      · rw [htokens] at hn
        exact hkeeps.declares (h.literals k n hn)
      · rw [htokens, Table.lookup_insert] at hn
        split at hn
        · exact Option.some.inj hn ▸ hdeclares
        · exact hkeeps.declares (h.regexTokens k n hn)
  | _ => exact hsame (Except.ok.inj hrun).symm

theorem allocTerminals_covered : ∀ (els : List Element) {s s' : Allocation}, s.Covered →
    els.foldlM (allocTerminal diag build wordKeywords) s = .ok s' → s'.Covered
  | [], s, s', h, hrun => by
    obtain rfl := Except.ok.inj hrun
    exact h
  | el :: els, s, s', h, hrun => by
    rw [List.foldlM_cons] at hrun
    obtain ⟨s₁, hstep, hrun⟩ := bind_eq_ok hrun
    exact allocTerminals_covered els (allocTerminal_covered h hstep).1 hrun

/-- The token of a literal or a pattern is declared, and a token element keeps its name. -/
theorem Allocation.Covered.of (h : s.Covered) {el : Element} {t : String}
    (ht : s.tokens.of el = some t) : s.Declares t ∨ ∃ sp, el = .token t sp := by
  cases el with
  | term literal caseSensitive tokenName sp => exact .inl (h.literals _ _ ht)
  | regex pattern flags sp => exact .inl (h.regexTokens _ _ ht)
  | token name sp => exact .inr ⟨sp, by rw [Option.some.inj ht]⟩
  | _ => cases ht

end

/-! ## A compile -/

namespace Compile

variable {S : Setting} {grammar : Grammar} (c : Compile S grammar)

/-- A token the spec may read: declared in its options, a token element of the grammar, or the end
of the input. -/
def Readable (s : Allocation) (classSets : List (String × String)) (t : String) : Prop :=
  Declared s.fixedTokens s.matchTokens (s.allTokenSets c.desugared classSets) t ∨
    (∃ sp, .token t sp ∈ c.terminals) ∨ t = "#ZZ"

/-- The start rule is never lifted. -/
theorem start_mem_normalized (h : c.start ∈ c.resolved.names) : c.start ∈ c.normalized.names := by
  unfold normalized
  rw [normalizeBuiltinTokens_names]
  refine mem_liftLiteralTokens_names.mpr ⟨h, fun hlift => ?_⟩
  obtain ⟨e, he, hname⟩ := List.mem_map.mp hlift
  obtain ⟨p, -, hp, hliftable⟩ := liftable_of_mem he
  unfold liftable at hliftable
  rw [if_pos (by simp [hp, hname])] at hliftable
  cases hliftable

section

variable {tokens : Tokens} {contest : ContestCtx} {arrayHelpers : List String}
  {valuePlan : List (String × List Bool)} {C N : String → Prop} {rules : RuleTable}

/-- A terminal of the emitted grammar is one that tokens are allocated for. -/
theorem mem_terminals_emitter {q : Production}
    (hq : q ∈ (c.emitter tokens contest arrayHelpers valuePlan).grammar.productions)
    {alt : Sequence} (halt : alt ∈ q.alts) {el : Element} (hel : el ∈ alt)
    (hterm : el.isTerminal = true) : el ∈ c.terminals := by
  obtain ⟨p, hp, hsame⟩ :=
    exists_left_of_forall₂ (c.emitter_sameRules tokens contest arrayHelpers valuePlan) hq
  have hmem := List.mem_map_of_mem (f := List.map eraseDebt) halt
  rw [hsame.alts] at hmem
  obtain ⟨alt', halt', heq⟩ := List.mem_map.mp hmem
  have herased := List.mem_map_of_mem (f := eraseDebt) hel
  rw [← heq] at herased
  obtain ⟨el', hel', herase⟩ := List.mem_map.mp herased
  have hsame' : el' = el := by
    cases el <;> cases el' <;> simp_all [eraseDebt, Element.isTerminal]
  exact c.mem_terminals hp halt' (hsame' ▸ hel')

/-- An element of the emitted grammar is a reference, or a terminal with its token. -/
theorem named_emitter (hterm : ∀ el ∈ c.terminals, el.isTerminal = true → C (tokens.name el))
    {q : Production}
    (hq : q ∈ (c.emitter tokens contest arrayHelpers valuePlan).grammar.productions)
    {alt : Sequence} (halt : alt ∈ q.alts) {el : Element} (hel : el ∈ alt) :
    el.isRef = true ∨ C (tokens.name el) := by
  have hplain := plain_of_sameRules (c.emitter_sameRules tokens contest arrayHelpers valuePlan)
    c.desugared_shape.plain
  rcases hplain q hq alt halt el hel with hel' | href
  · exact .inr (hterm el (c.mem_terminals_emitter hq halt hel hel') hel')
  · exact .inl href

/-- What a production of the emitted grammar names: tokens its terminals have, and productions. -/
theorem prodWithin (hterm : ∀ el ∈ c.terminals, el.isTerminal = true → C (tokens.name el))
    (hN : ∀ n ∈ c.desugared.names, N n)
    (h : emitRules S.diag (c.emitter tokens contest arrayHelpers valuePlan) c.start = .ok rules)
    {q : Production}
    (hq : q ∈ (c.emitter tokens contest arrayHelpers valuePlan).grammar.productions) :
    ProdWithin (c.emitter tokens contest arrayHelpers valuePlan) C N q := by
  have hnames := c.emitter_names tokens contest arrayHelpers valuePlan
  obtain ⟨p, hp, hsame⟩ :=
    exists_left_of_forall₂ (c.emitter_sameRules tokens contest arrayHelpers valuePlan) hq
  have hflagged := (c.flagged p hp).sameRule hsame
  have hprobed : ∀ n ∈ namesOf c.probed.productions, N n :=
    fun n hn => hN n (c.desugared_subset (c.factored_subset hn))
  constructor
  case alts =>
    refine fun alt halt => ⟨fun el hel => c.named_emitter hterm hq halt hel, fun el hel m hm => ?_⟩
    · cases hhelper : q.probeHelper with
      | some helper =>
        rw [hflagged.helper (by simp [hhelper])] at halt
        cases halt
      | none =>
        cases hpd : q.probeDispatch with
        | none =>
          have hmem := mem_names_of_emitRule (emitRule_eq_of_emitRules h hq) hhelper hpd halt hel hm
          exact hN m (hnames ▸ hmem)
        | some pd =>
          obtain ⟨-, halts, hwith, hno, -⟩ := hflagged.dispatch pd hpd
          obtain ⟨n, hn, el', rfl, hname⟩ := mem_dispatcher_alts halts halt
          obtain rfl := List.mem_singleton.mp hel
          obtain rfl := Option.some.inj (hm.symm.trans hname)
          rcases hn with rfl | rfl
          · exact hprobed _ hwith
          · exact hprobed _ hno
  case vocab =>
    intro helper hhelper el hel t ht
    rw [hsame.probeHelper] at hhelper
    have hmem : el ∈ c.terminals := by
      refine List.mem_append_right _ (List.mem_flatMap.mpr ⟨p, hp, List.mem_append_right _ ?_⟩)
      exact List.mem_append_left _ (by simpa [Option.mem_def.mp hhelper] using hel)
    have hel' : el.isTerminal = true := by
      cases el <;> first | rfl | cases ht
    have hname : tokens.name el = t := by
      have hof : tokens.of el = some t := ht
      rw [Tokens.name, hof, Option.getD_some]
    exact hname ▸ hterm el hmem hel'
  case dispatch =>
    intro pd hpd
    obtain ⟨-, -, hwith, hno, probe, hprobe, -, hname⟩ := hflagged.dispatch pd hpd
    exact ⟨hprobed _ (hname ▸ mem_namesOf.mpr ⟨probe, hprobe, rfl⟩), hprobed _ hwith,
      hprobed _ hno⟩
  case sep =>
    intro tail htail el hel
    rw [hsame.tailRepeat] at htail
    obtain ⟨pre, -, -, hall⟩ := c.desugared_shape.tail p hp tail htail
    refine .inr (hterm el ?_ (hall el (List.mem_append_left _ hel)))
    refine List.mem_append_right _ (List.mem_flatMap.mpr ⟨p, hp, List.mem_append_right _ ?_⟩)
    exact List.mem_append_right _ (by simpa [Option.mem_def.mp htail] using hel)

/-- What the emitter of a compile knows. -/
theorem knows (hterm : ∀ el ∈ c.terminals, el.isTerminal = true → C (tokens.name el))
    (hclasses : ∀ n set, contest.classSets.lookup n = some set → C set) (hend : C "#ZZ") :
    (c.emitter tokens contest arrayHelpers valuePlan).Knows C := by
  have hlists : Lists c.desugared tokens contest.classSets C := by
    refine ⟨fun p hp alt halt el hel => ?_, hclasses, hend⟩
    rcases c.desugared_shape.plain p hp alt halt el hel with hel' | href
    · exact .inr (hterm el (c.mem_terminals hp halt hel) hel')
    · exact .inl href
  have hfirst := hlists.first
  have hfollow := hlists.follow hfirst c.start
  exact ⟨⟨fun q hq alt halt el hel => c.named_emitter hterm hq halt hel, hclasses, hend⟩, hfirst,
    hfollow, hlists.pairs hfirst hfollow⟩

/-- Every alternate of a compiled spec names tokens of the terminals, the classes or the end, and
productions, rules of the spec or the start rule. -/
theorem emitRules_within (hterm : ∀ el ∈ c.terminals, el.isTerminal = true → C (tokens.name el))
    (hclasses : ∀ n set, contest.classSets.lookup n = some set → C set) (hend : C "#ZZ")
    (h : emitRules S.diag (c.emitter tokens contest arrayHelpers valuePlan) c.start = .ok rules) :
    ∀ e ∈ rules, e.2.Within C fun m => m ∈ rules.map Prod.fst ∨ m = c.start := by
  refine TabnasBnf.emitRules_within (c.knows hterm hclasses hend) h (fun q hq => ?_)
    (fun k hk => .inl hk) (.inr rfl)
  refine c.prodWithin hterm (fun n hn => .inl (name_mem_emitRules h ?_)) h hq
  rwa [← c.emitter_names tokens contest arrayHelpers valuePlan] at hn

/-- The start rule is written. -/
theorem start_mem_rules (hstart : c.start ∈ c.resolved.names)
    (h : emitRules S.diag (c.emitter tokens contest arrayHelpers valuePlan) c.start = .ok rules) :
    c.start ∈ rules.map Prod.fst := by
  have hmem := c.normalized_subset (c.start_mem_normalized hstart)
  rw [← c.emitter_names tokens contest arrayHelpers valuePlan] at hmem
  exact name_mem_emitRules h hmem

/-- Where the start rule is written, every alternate names rules of the spec. -/
theorem emitRules_within_keys
    (hterm : ∀ el ∈ c.terminals, el.isTerminal = true → C (tokens.name el))
    (hclasses : ∀ n set, contest.classSets.lookup n = some set → C set) (hend : C "#ZZ")
    (hstart : c.start ∈ c.resolved.names)
    (h : emitRules S.diag (c.emitter tokens contest arrayHelpers valuePlan) c.start = .ok rules) :
    ∀ e ∈ rules, ∀ o ∈ e.2.opens ++ e.2.close.getD [], o.Within C (· ∈ rules.map Prod.fst) := by
  intro e he o ho
  obtain ⟨hopens, hclose⟩ := c.emitRules_within hterm hclasses hend h e he
  have hkey : ∀ m, m ∈ rules.map Prod.fst ∨ m = c.start → m ∈ rules.map Prod.fst :=
    fun m hm => hm.elim id fun heq => heq ▸ c.start_mem_rules hstart h
  have ho := (List.mem_append.mp ho).elim (hopens o) (hclose o)
  exact ⟨ho.tokens, fun m hm => hkey m (ho.push m hm), fun m hm => hkey m (ho.replace m hm)⟩

end

section

variable {build : String → Bool → Except String Unit} {wordKeywords : Bool} {s : Allocation}

/-- The token of a terminal is declared, or the terminal is a token element. -/
theorem declared_terminal (hrun : c.allocate build wordKeywords = .ok s) {el : Element}
    (hel : el ∈ c.terminals) (hterm : el.isTerminal = true) (classSets : List (String × String)) :
    Declared s.fixedTokens s.matchTokens (s.allTokenSets c.desugared classSets)
        (s.tokens.name el) ∨ ∃ sp, .token (s.tokens.name el) sp ∈ c.terminals := by
  have hcovered : s.Covered := by
    refine allocTerminals_covered _ ⟨fun k n hn => ?_, fun k n hn => ?_⟩ hrun <;> cases hn
  have hkeys : s.tokenSets.map Prod.fst ⊆ (s.allTokenSets c.desugared classSets).map Prod.fst :=
    fun k hk => Table.mem_keys_insertAll.mpr (.inl hk)
  obtain ⟨t, ht⟩ := Option.isSome_iff_exists.mp ((c.allocate_kept hrun).2 el hel hterm)
  rw [Tokens.name, ht, Option.getD_some]
  rcases hcovered.of ht with hdeclared | ⟨sp, rfl⟩
  · exact .inl (hdeclared.imp id (Or.imp id (hkeys ·)))
  · exact .inr ⟨sp, hel⟩

/-- The set of a token class is declared. -/
theorem declared_classSet (s : Allocation) {n set : String}
    (hlookup : c.classSets.lookup n = some set) :
    Declared s.fixedTokens s.matchTokens (s.allTokenSets c.desugared c.classSets) set := by
  obtain ⟨p, hp, rfl⟩ := mem_classSetNames (Table.mem_of_lookup hlookup)
  refine .inr (.inr (Table.mem_keys_insertAll.mpr (.inr ?_)))
  refine List.mem_map.mpr ⟨(trimHashes set, classMembers s.tokens p), ?_, rfl⟩
  exact List.mem_filterMap.mpr ⟨p, hp, by rw [hlookup, Option.map_some]⟩

end

end Compile

/-- **A compiled spec is closed**: every rule that an alternate pushes or continues as is a rule of
the spec. -/
theorem Compile.rules_closed {S : Setting} {grammar : Grammar} (c : Compile S grammar)
    {tokens : Tokens} {contest : ContestCtx} {arrayHelpers : List String}
    {valuePlan : List (String × List Bool)} {rules : RuleTable}
    (hstart : c.start ∈ c.resolved.names)
    (h : emitRules S.diag (c.emitter tokens contest arrayHelpers valuePlan) c.start = .ok rules) :
    ∀ e ∈ rules, ∀ o ∈ e.2.opens ++ e.2.close.getD [], ∀ m, o.p = some m ∨ o.r = some m →
      m ∈ rules.map Prod.fst := by
  have hwithin := c.emitRules_within_keys (C := fun _ => True) (fun _ _ _ => trivial)
    (fun _ _ _ => trivial) trivial hstart h
  intro e he o ho m hm
  have ho := hwithin e he o ho
  exact hm.elim (ho.push m) (ho.replace m)

/-- The rules of `addressed`, whose dispatcher pushes a probe and two branches. -/
theorem Compile.rules_closed_addressed :
    ∃ rules, emitRules "bnf" (addressedCompile.emitter addressedTokens apartContest [] []) "S" =
        .ok rules ∧
      ∀ e ∈ rules, ∀ o ∈ e.2.opens ++ e.2.close.getD [], ∀ m, o.p = some m ∨ o.r = some m →
        m ∈ rules.map Prod.fst := by
  obtain ⟨rules, hrules⟩ := exists_ok (x := emitRules "bnf"
    (addressedCompile.emitter addressedTokens apartContest [] []) "S") (by decide +kernel)
  exact ⟨rules, hrules, addressedCompile.rules_closed (by decide) hrules⟩

/-- **Every token a compiled spec reads is declared**: fixed, matched or a token set of its options,
a token element of the grammar, or the end of the input. Declared is read off the keys: a removal
may null the fixed token of a literal that the grammar still reads, and keeps its key. -/
theorem Compile.tokens_declared {S : Setting} {grammar : Grammar} (c : Compile S grammar)
    {build : String → Bool → Except String Unit} {wordKeywords : Bool} {s : Allocation}
    (hrun : c.allocate build wordKeywords = .ok s) {contest : ContestCtx}
    (hsets : contest.classSets = classSetNames c.classNames c.desugared.productions [])
    {arrayHelpers : List String} {valuePlan : List (String × List Bool)} {rules : RuleTable}
    (h : emitRules S.diag (c.emitter s.tokens contest arrayHelpers valuePlan) c.start =
      .ok rules) :
    ∀ e ∈ rules, ∀ o ∈ e.2.opens ++ e.2.close.getD [], ∀ t ∈ o.s,
      c.Readable s contest.classSets t := by
  have hterm : ∀ el ∈ c.terminals, el.isTerminal = true →
      c.Readable s contest.classSets (s.tokens.name el) := fun el hel hterm =>
    (c.declared_terminal hrun hel hterm _).imp id .inl
  have hclasses : ∀ n set, contest.classSets.lookup n = some set →
      c.Readable s contest.classSets set := by
    rw [hsets]
    exact fun n set hlookup => .inl (c.declared_classSet s hlookup)
  have hwithin := c.emitRules_within hterm hclasses (.inr (.inr rfl)) h
  intro e he o ho t ht
  obtain ⟨hopens, hclose⟩ := hwithin e he
  rcases List.mem_append.mp ho with ho | ho
  · exact (hopens o ho).tokens t ht
  · exact (hclose o ho).tokens t ht

/-- The tokens of `S = "a b" / "a-b" / #NR`: two that are fixed, and one the grammar names. -/
theorem Compile.tokens_declared_spelled :
    ∃ rules, emitRules "bnf" (spelledCompile.emitter spelledTokens.tokens apartContest [] []) "S" =
        .ok rules ∧
      ∀ e ∈ rules, ∀ o ∈ e.2.opens ++ e.2.close.getD [], ∀ t ∈ o.s,
        spelledCompile.Readable spelledTokens [] t := by
  have hrun : spelledCompile.allocate buildAny false = .ok spelledTokens :=
    eq_ok_of_isOk (by decide +kernel) _
  obtain ⟨rules, hrules⟩ := exists_ok (x := emitRules "bnf"
    (spelledCompile.emitter spelledTokens.tokens apartContest [] []) "S") (by decide +kernel)
  exact ⟨rules, hrules, spelledCompile.tokens_declared hrun (by decide +kernel) hrules⟩

/-! ## The spec that is returned -/

/-- What a spec names: its rules, those without a definition being removed, the rule it starts
with, and the tokens its options declare. -/
structure NamedSpec where
  rule : List (String × Option RuleSpec)
  start : String
  fixed : List (String × Option String)
  matchers : List (String × MatchToken)
  sets : List (String × List String)

/-- The spec `emit_grammar_spec` returns, the removals written last. -/
def Compile.spec {S : Setting} {grammar : Grammar} (c : Compile S grammar) (s : Allocation)
    (E : Emitter) (rules : RuleTable) : NamedSpec where
  rule := Table.insertAll (rules.map fun e => (e.1, some e.2))
    (c.resolved.remove.map fun n => (n, none))
  start := startWrapper E
  fixed := Table.insertAll s.fixedTokens (c.resolved.remove.map fun n => ("#" ++ n, none))
  matchers := s.matchTokens
  sets := s.allTokenSets c.desugared E.contest.classSets

/-- A spec that names no rule and no token it does not define, where the grammar's own token
elements are defined by the engine. -/
structure NamedSpec.Closed (spec : NamedSpec) (own : String → Prop) : Prop where
  start : ∃ rule, spec.rule.lookup spec.start = some (some rule)
  rules : ∀ e ∈ spec.rule, ∀ rule ∈ e.2, ∀ o ∈ rule.opens ++ rule.close.getD [], ∀ m,
    o.p = some m ∨ o.r = some m → ∃ rule', spec.rule.lookup m = some (some rule')
  tokens : ∀ e ∈ spec.rule, ∀ rule ∈ e.2, ∀ o ∈ rule.opens ++ rule.close.getD [], ∀ t ∈ o.s,
    Declared spec.fixed spec.matchers spec.sets t ∨ own t ∨ t = "#ZZ"

/-- Without removals the rules are those that were written, each with a definition. -/
theorem Compile.spec_rule {S : Setting} {grammar : Grammar} (c : Compile S grammar)
    (hremove : c.resolved.remove = []) (s : Allocation) (E : Emitter) (rules : RuleTable) :
    (c.spec s E rules).rule = rules.map fun e => (e.1, some e.2) := by
  rw [spec, hremove]
  rfl

/-- A rule that was written has a definition. -/
theorem exists_lookup_some {rules : RuleTable} {n : String} (h : n ∈ rules.map Prod.fst) :
    ∃ rule, (rules.map fun e => (e.1, some e.2)).lookup n = some (some rule) := by
  have hkey : n ∈ (rules.map fun e => (e.1, some e.2)).map Prod.fst := by simpa using h
  obtain ⟨o, ho⟩ := Table.exists_lookup hkey
  obtain ⟨e, -, heq⟩ := List.mem_map.mp (Table.mem_of_lookup ho)
  exact ⟨e.2, by rw [ho, ← (Prod.mk.inj heq).2]⟩

/-- **A compile without removals returns a closed spec**, when its start rule is not defined by
prose alone. -/
theorem Compile.spec_closed {S : Setting} {grammar : Grammar} (c : Compile S grammar)
    {build : String → Bool → Except String Unit} {wordKeywords : Bool} {s : Allocation}
    (hrun : c.allocate build wordKeywords = .ok s) {contest : ContestCtx}
    (hsets : contest.classSets = c.classSets) {arrayHelpers : List String}
    {valuePlan : List (String × List Bool)} {rules : RuleTable}
    (h : emitRules S.diag (c.emitter s.tokens contest arrayHelpers valuePlan) c.start = .ok rules)
    (hremove : c.resolved.remove = []) {p : Production} (hp : p ∈ grammar.productions)
    (hname : p.name = c.start) (hprose : onlyProse p = none) :
    (c.spec s (c.emitter s.tokens contest arrayHelpers valuePlan) rules).Closed
      (· ∈ c.ownTokens) := by
  let E := c.emitter s.tokens contest arrayHelpers valuePlan
  let C : String → Prop := fun t =>
    Declared s.fixedTokens s.matchTokens (s.allTokenSets c.desugared contest.classSets) t ∨
      t ∈ c.ownTokens ∨ t = "#ZZ"
  have hclasses : ∀ n set, contest.classSets.lookup n = some set →
      Declared s.fixedTokens s.matchTokens (s.allTokenSets c.desugared contest.classSets) set := by
    rw [hsets]
    exact fun n set => c.declared_classSet s
  have hterm : ∀ el ∈ c.terminals, el.isTerminal = true → C (s.tokens.name el) := by
    intro el hel hterm
    rcases c.declared_terminal hrun hel hterm contest.classSets with hdeclared | ⟨sp, htoken⟩
    · exact .inl hdeclared
    · rcases c.token_mem_terminals htoken with hown | ⟨n, hn, hset⟩
      · exact .inr (.inl hown)
      · -- the token elimination put for a class: the class has its set under that name
        rw [hset]
        exact .inl (hclasses n _ (by rw [hsets, c.lookup_classSets hn]))
  have hstart : c.start ∈ c.resolved.names := mem_namesOf.mpr
    ⟨p, mem_resolveProseTerminals hprose c.resolve_eq hp, hname⟩
  have hwithin := c.emitRules_within_keys (C := C) hterm
    (fun n set hlookup => .inl (hclasses n set hlookup)) (.inr (.inr rfl)) hstart h
  have hrule := c.spec_rule hremove s E rules
  constructor
  case start =>
    rw [hrule]
    exact exists_lookup_some (startWrapper_mem_emitRules h)
  case rules =>
    rw [hrule]
    intro e he rule hr o ho m hm
    obtain ⟨e', he', rfl⟩ := List.mem_map.mp he
    obtain rfl := Option.some.inj hr
    have ho := hwithin e' he' o ho
    exact exists_lookup_some (hm.elim (ho.push m) (ho.replace m))
  case tokens =>
    have hfixed : (c.spec s E rules).fixed = s.fixedTokens := by
      rw [spec, hremove]
      rfl
    rw [hrule, hfixed]
    intro e he rule hr o ho t ht
    obtain ⟨e', he', rfl⟩ := List.mem_map.mp he
    obtain rfl := Option.some.inj hr
    exact (hwithin e' he' o ho).tokens t ht

/-- `A = C "p" / A "q" / #NR`, `C = "a" / "b"`: a class that begins a left-recursive rule. -/
def ledClass : Grammar where
  productions := [
    { name := "A", alts := [[.reference "C", .lit "p"], [.reference "A", .lit "q"],
      [.token "#NR" none]] },
    { name := "C", alts := [[.lit "a"], [.lit "b"]] }]

/-- `A = ( #C "p" / #NR ) *"q"`. -/
def ledByToken : Grammar where
  productions := [
    { name := "A", alts := [[.group [[.token "#C" none, .lit "p"], [.token "#NR" none]] none,
      .star (.lit "q") none none]] },
    { name := "C", alts := [[.lit "a"], [.lit "b"]] }]

/-- `ledClass` with token classes. -/
def ledClassCompile : Compile { plainSetting with tokenClasses := true } ledClass where
  resolved := ledClass
  start := "A"
  eliminated := ledByToken
  probed := ledByToken
  fuel := 3
  factored := ledByToken
  desugared := { productions := [
    { name := "A", alts := [[.reference "_gen1_group", .reference "_gen2_star_term"]] },
    { name := "C", alts := [[.lit "a"], [.lit "b"]] },
    .helper "_gen1_group" [[.token "#C" none, .lit "p"], [.token "#NR" none]] "A",
    { Production.helper "_gen2_star_term" [[.lit "q", .reference "_gen2_star_term"], []] "A" with
      repeatHelper := true, repeatLoop := true }] }
  resolve_eq := rfl
  start_eq := rfl
  eliminate_eq := rfl
  probe_eq := rfl
  factor_eq := rfl
  validate_eq := rfl
  desugar_eq := rfl

def ledClassTokens : Allocation :=
  (ledClassCompile.allocate buildAny false).toOption.getD (Allocation.start [] [])

/-- The emitter of `ledClass`. -/
def ledClassEmitter : Emitter :=
  ledClassCompile.emitter ledClassTokens.tokens
    { apartContest with classSets := ledClassCompile.classSets } [] []

/-- Elimination wrote `#C`, which is a set of the spec, and `#NR` is the grammar's own. -/
theorem Compile.spec_closed_ledClass :
    ∃ rules, emitRules "bnf" ledClassEmitter "A" = .ok rules ∧
      (ledClassCompile.spec ledClassTokens ledClassEmitter rules).Closed
        (· ∈ ledClassCompile.ownTokens) ∧
      (ledClassCompile.spec ledClassTokens ledClassEmitter rules).sets = [("C", ["#A", "#B"])] ∧
      ledClassCompile.ownTokens = ["#NR"] := by
  have hrun : ledClassCompile.allocate buildAny false = .ok ledClassTokens :=
    eq_ok_of_isOk (by decide +kernel) _
  obtain ⟨rules, hrules⟩ := exists_ok (x := emitRules "bnf" ledClassEmitter "A")
    (by decide +kernel)
  refine ⟨rules, hrules, ?_, ?_, ?_⟩
  · exact ledClassCompile.spec_closed hrun rfl hrules rfl List.mem_cons_self rfl rfl
  · show ledClassTokens.allTokenSets _ _ = _
    decide +kernel
  · decide +kernel

/-- `NR = <digits>`, `S = "x" "y"`: the first documents a built-in token. -/
def documented : Grammar where
  productions := [{ name := "NR", alts := [[.prose "digits" none]] },
    { name := "S", alts := [[.lit "x", .lit "y"]] }]

/-- `S = "x" "y"`. -/
def undocumented : Grammar where
  productions := [{ name := "S", alts := [[.lit "x", .lit "y"]] }]

/-- `documented`, started with the production that is dropped. -/
def documentedCompile : Compile { plainSetting with start := some "NR" } documented where
  resolved := undocumented
  start := "NR"
  eliminated := undocumented
  probed := undocumented
  fuel := 2
  factored := undocumented
  desugared := undocumented
  resolve_eq := rfl
  start_eq := rfl
  eliminate_eq := rfl
  probe_eq := rfl
  factor_eq := rfl
  validate_eq := rfl
  desugar_eq := rfl

/-- Without removals, and with a start rule that names a production, the spec need not be closed:
the wrapper pushes `NR`, which is no rule. -/
theorem Compile.spec_not_closed :
    ¬ ∀ (S : Setting) (grammar : Grammar) (c : Compile S grammar) (s : Allocation)
        (contest : ContestCtx) (rules : RuleTable), c.allocate buildAny false = .ok s →
      contest.classSets = c.classSets →
      emitRules S.diag (c.emitter s.tokens contest [] []) c.start = .ok rules →
      c.resolved.remove = [] → c.start ∈ grammar.names →
        (c.spec s (c.emitter s.tokens contest [] []) rules).Closed (· ∈ c.ownTokens) := by
  intro hall
  let tokens := (documentedCompile.allocate buildAny false).toOption.getD (Allocation.start [] [])
  let E := documentedCompile.emitter tokens.tokens apartContest [] []
  have hrun : documentedCompile.allocate buildAny false = .ok tokens :=
    eq_ok_of_isOk (by decide +kernel) _
  obtain ⟨rules, hrules⟩ := exists_ok (x := emitRules "bnf" E "NR") (by decide +kernel)
  have hclosed := hall _ _ documentedCompile tokens apartContest rules hrun (by decide +kernel)
    hrules rfl (by decide)
  have hwrapper : (emitRules "bnf" E "NR").toOption.bind (·.lookup "__start__") =
      some ⟨[{ p := some "NR" }], some [{ s := ["#ZZ"] }]⟩ := by decide +kernel
  have hkeys : (emitRules "bnf" E "NR").toOption.map (·.map Prod.fst) =
      some ["S", "__start__"] := by decide +kernel
  rw [hrules] at hwrapper hkeys
  have hmem := List.mem_map_of_mem (f := fun e => (e.1, some e.2)) (Table.mem_of_lookup hwrapper)
  obtain ⟨rule, hrule⟩ := hclosed.rules _ hmem _ rfl _ List.mem_cons_self "NR" (.inl rfl)
  obtain ⟨e, he, heq⟩ := List.mem_map.mp (Table.mem_of_lookup hrule)
  have hkey : e.1 ∈ ["S", "__start__"] := Option.some.inj hkeys ▸ List.mem_map_of_mem he
  rw [(Prod.mk.inj heq).1] at hkey
  exact absurd hkey (by decide)

end TabnasBnf
