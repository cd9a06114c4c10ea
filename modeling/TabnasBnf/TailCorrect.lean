import TabnasBnf.EmitWrites

/-!
# Tail repeats

`rewrite_tail_repeats` takes the option out of `X = prefix [sep X]` and `emit_tail_repeat` writes
the rule of what is left: `prefix` on entry, then `sep` and the rule again, or the end.

* `rewriteTailRepeat_shape`: a production is changed only when it has that shape.
* `ruleLang_emitTailRepeat`: the rule derives what the production did.
* **`Compile.tailRepeat_lang`**: so it is in every compile, for every production the pass marks.
-/

namespace TabnasBnf

/-! ## What is marked -/

/-- `X = prefix [sep X]`, of terminals but for `X`: what `rewrite_tail_repeats` looks for. -/
structure TailShape (start : String) (p : Production) (pre sep : Sequence) : Prop where
  free : p.probeDispatch = none ∧ p.probeHelper = none ∧ p.name ≠ start
  alts : ∃ option self, p.alts = [pre ++ [option]] ∧ optionBody option = some (sep ++ [self]) ∧
    self.isRefTo p.name = true
  pre_ne : pre ≠ []
  sep_ne : sep ≠ []
  pre_terminal : ∀ el ∈ pre, el.isTerminal = true
  sep_terminal : ∀ el ∈ sep, el.isTerminal = true

/-- **Only the shape is rewritten**, and then the option alone leaves the alternative. -/
theorem rewriteTailRepeat_shape (start : String) (p : Production) :
    rewriteTailRepeat start p = p ∨ ∃ pre sep, TailShape start p pre sep ∧
      rewriteTailRepeat start p = { p with alts := [pre], tailRepeat := some ⟨sep⟩ } := by
  unfold rewriteTailRepeat
  split
  · exact .inl rfl
  · next hfree =>
    split
    · next alt halts =>
      split
      · next seq hseq =>
        dsimp only
        split
        · exact .inl rfl
        · next hlen =>
          split
          · exact .inl rfl
          · next hself =>
            split
            · exact .inl rfl
            · next hsep =>
              split
              · exact .inl rfl
              · next hpre =>
                obtain ⟨option, hoption, hbody⟩ := Option.bind_eq_some_iff.mp hseq
                cases hlast : seq.getLast? with
                | none => simp [hlast] at hself
                | some self =>
                  simp only [Bool.or_eq_true, decide_eq_true_eq, not_or, Bool.not_eq_true',
                    Bool.not_eq_true, Bool.not_eq_false, List.isEmpty_eq_false_iff,
                    List.all_eq_true, hlast, Option.any_some, Option.isSome_eq_false_iff,
                    Option.isNone_iff_eq_none, beq_eq_false_iff_ne] at hfree hlen hself hsep hpre
                  refine .inr ⟨alt.dropLast, seq.dropLast, ?_, rfl⟩
                  refine ⟨⟨hfree.1.1, hfree.1.2, hfree.2⟩, ⟨option, self, ?_, ?_, hself⟩, hpre.1,
                    ?_, hpre.2, hsep⟩
                  · rw [halts, List.dropLast_append_getLast? option hoption]
                  · rw [hbody, List.dropLast_append_getLast? self hlast]
                  · intro hnil
                    have := congrArg List.length hnil
                    simp at this
                    omega
      · exact .inl rfl
    · exact .inl rfl

/-- Every production of the shape is rewritten. -/
theorem TailShape.rewrite {start : String} {p : Production} {pre sep : Sequence}
    (h : TailShape start p pre sep) :
    rewriteTailRepeat start p = { p with alts := [pre], tailRepeat := some ⟨sep⟩ } := by
  obtain ⟨option, self, halts, hbody, hself⟩ := h.alts
  have hpre := List.length_pos_iff.mpr h.pre_ne
  have hsep := List.length_pos_iff.mpr h.sep_ne
  unfold rewriteTailRepeat
  rw [if_neg (by simp [h.free.1, h.free.2.1, h.free.2.2])]
  simp only [halts, List.getLast?_append, List.getLast?_singleton, Option.some_or, Option.bind_some,
    hbody, List.length_append, List.length_singleton, List.dropLast_concat, Option.any_some]
  have hlen : ¬ ((pre.length + 1 < 2 || sep.length + 1 < 2) = true) := by
    simp only [Bool.or_eq_true, decide_eq_true_eq]
    omega
  rw [if_neg hlen, if_neg (by simp [hself]),
    if_neg (by simpa using h.sep_terminal),
    if_neg (by simpa using ⟨h.pre_ne, h.pre_terminal⟩)]

section

variable {T : Type*} {τ : Element → Language T} {ρ : Env T}

theorem den_of_optionBody {option : Element} {seq : Sequence} (h : optionBody option = some seq) :
    den τ ρ option = 1 + Cf.seq (den τ ρ) seq := by
  unfold optionBody at h
  split at h
  · obtain rfl := Option.some.inj h
    simp
  · cases h
  · obtain rfl := Option.some.inj h
    simp
  · cases h

/-- The shape derives its prefix, or the prefix, the separator and the production again. -/
theorem altsDen_tailShape {start : String} {p : Production} {pre sep : Sequence}
    (h : TailShape start p pre sep) :
    altsDen τ ρ p.alts =
      Cf.seq (den τ ρ) pre + Cf.seq (den τ ρ) (pre ++ sep ++ [Element.reference p.name]) := by
  obtain ⟨option, self, halts, hbody, hself⟩ := h.alts
  obtain ⟨debt, sp, rfl⟩ := Element.refName_eq_some.mp (Element.isRefTo_iff.mp hself)
  rw [halts, altsDen_cons, altsDen_nil, add_zero, Cf.seq_append, Cf.seq_singleton,
    den_of_optionBody hbody, mul_add, mul_one]
  simp [Element.reference]

end

/-! ## The emitted rule -/

theorem refsIn_of_terminals {α : Sequence} (h : ∀ el ∈ α, el.isTerminal = true) :
    refsIn α = [] := by
  refine List.eq_nil_iff_forall_not_mem.mpr fun n hn => ?_
  obtain ⟨el, hel, hn⟩ := mem_refsIn.mp hn
  have hterm := h el hel
  cases el <;> simp_all [Element.isTerminal, Element.refs]

section

variable {tokens : Tokens}

theorem segmentsFrom_terminals : ∀ (alt : Sequence) (current : Segment),
    (∀ el ∈ alt, el.isTerminal = true) → current.terms ++ alt.map tokens.name ≠ [] →
    segmentsFrom tokens current alt =
      [{ current with terms := current.terms ++ alt.map tokens.name }]
  | [], current, _, hne => by
    rw [List.map_nil, List.append_nil] at hne ⊢
    rw [segmentsFrom, if_neg (by simpa using hne)]
  | el :: alt, current, hterm, hne => by
    obtain ⟨hel, halt⟩ := List.forall_mem_cons.mp hterm
    have hstep : segmentsFrom tokens current (el :: alt) =
        segmentsFrom tokens { current with terms := current.terms ++ [tokens.name el] } alt := by
      cases el <;> first | rfl | simp [Element.isTerminal] at hel
    rw [hstep, segmentsFrom_terminals alt _ halt (by simp)]
    simp

/-- Terminals make one segment. -/
theorem head_segmentize_terminals {alt : Sequence} (hterm : ∀ el ∈ alt, el.isTerminal = true) :
    (segmentize tokens alt).headD {} = { terms := alt.map tokens.name } := by
  by_cases hne : alt = []
  · subst hne
    rfl
  · have hsegs : segmentsFrom tokens {} alt = [{ terms := alt.map tokens.name }] := by
      rw [segmentsFrom_terminals alt {} hterm (by simpa using hne)]
      simp
    unfold segmentize
    rw [hsegs]
    rfl

theorem map_sym_terminals {alt : Sequence} (hterm : ∀ el ∈ alt, el.isTerminal = true) :
    alt.map (sym tokens) = (alt.map tokens.name).map .tok := by
  rw [List.map_map]
  exact List.map_congr_left fun el hel => sym_of_isTerminal (hterm el hel)

variable {E : Emitter} {start : String} {p : Production} {pre sep : Sequence}

/-- The two runs of the rule of a tail repeat. -/
theorem bodies_emitTailRepeat {q : Production} (halts : q.alts = [pre])
    (hpre : ∀ el ∈ pre, el.isTerminal = true) (hsep : ∀ el ∈ sep, el.isTerminal = true) :
    (emitTailRepeat E q ⟨sep⟩).bodies =
      [(pre ++ sep ++ [Element.reference q.name]).map (sym E.tokens), pre.map (sym E.tokens)] := by
  unfold emitTailRepeat
  dsimp only
  rw [halts, List.headD_cons, head_segmentize_terminals hpre, head_segmentize_terminals hsep]
  unfold RuleSpec.bodies
  simp only [List.flatMap_cons, List.flatMap_nil, List.append_nil, List.map_append,
    map_sym_terminals hpre, map_sym_terminals hsep]
  have hopen : (segmentToAlt { terms := pre.map E.tokens.name }).body =
      (pre.map E.tokens.name).map .tok := by
    rw [body_segmentToAlt]
    simp [Segment.syms]
  have hagain : ({ s := sep.map E.tokens.name, r := some q.name } : AltSpec).body =
      (sep.map E.tokens.name).map .tok ++ [.rule q.name] := by
    simp [AltSpec.body, AltSpec.effect, AltSpec.consumed, Effect.body]
  rw [if_neg (by simp [segmentToAlt]), List.map_cons, List.map_singleton, hopen, hagain,
    List.append_assoc, List.map_singleton, show ({} : AltSpec).body = [] from rfl, List.append_nil]
  rfl

/-- **The rule of a tail repeat derives what the production did**, in a grammar that has one
production of its name. -/
theorem ruleLang_emitTailRepeat {grammar : Grammar} (hnd : grammar.names.Nodup)
    (hp : p ∈ grammar.productions) (h : TailShape start p pre sep) {q : Production}
    (hname : q.name = p.name) (halts : q.alts = [pre]) :
    ruleLang [(p.name, emitTailRepeat E q ⟨sep⟩)] p.name =
      nameLang (tokenLeaf E.tokens) grammar.productions p.name := by
  set rules : RuleTable := [(p.name, emitTailRepeat E q ⟨sep⟩)]
  set G := nameLang (tokenLeaf E.tokens) grammar.productions
  have hbodies := bodies_emitTailRepeat (E := E) halts h.pre_terminal h.sep_terminal
  rw [hname] at hbodies
  have hplain : ∀ el ∈ pre ++ sep ++ [Element.reference p.name],
      el.isTerminal = true ∨ el.isRef = true := by
    intro el hel
    simp only [List.mem_append, List.mem_singleton] at hel
    rcases hel with (hel | hel) | rfl
    · exact .inl (h.pre_terminal el hel)
    · exact .inl (h.sep_terminal el hel)
    · exact .inr rfl
  have hplain' : ∀ el ∈ pre, el.isTerminal = true ∨ el.isRef = true := fun el hel =>
    .inl (h.pre_terminal el hel)
  have hemits : ∀ {s : Sym} {β : List Sym}, emits rules s β → s = .rule p.name ∧
      (β = (pre ++ sep ++ [Element.reference p.name]).map (sym E.tokens) ∨
        β = pre.map (sym E.tokens)) := by
    rintro (t | n) β hβ
    · exact hβ.elim
    · obtain ⟨rs, hrs, hβ⟩ := hβ
      obtain ⟨rfl, rfl⟩ : n = p.name ∧ emitTailRepeat E q ⟨sep⟩ = rs := by
        have hmem := Table.mem_of_lookup hrs
        simpa [rules, eq_comm] using hmem
      rw [hbodies] at hβ
      exact ⟨rfl, by simpa using hβ⟩
  have hlookup : rules.lookup p.name = some (emitTailRepeat E q ⟨sep⟩) := by simp [rules]
  have hle : ruleLang rules p.name ≤ G p.name := by
    -- the rule over the production's language
    let L : Sym → Language String := symLang fun n => if n = p.name then G n else 0
    have hG : ∀ α : Sequence, (∀ el ∈ α, el.isTerminal = true ∨ el.isRef = true) →
        (∀ n ∈ refsIn α, n = p.name) → Cf.seq L (α.map (sym E.tokens)) =
          Cf.seq (den (tokenLeaf E.tokens) G) α := by
      intro α hα hrefs
      rw [← seq_den_eq_sym (L := L) (fun t => rfl) hα]
      exact seqDen_congr fun n hn => if_pos (hrefs n hn)
    have hsolve := solves_nameLang (τ := tokenLeaf E.tokens) p hp
    rw [altsDen_tailShape h] at hsolve
    have hself : L (.rule p.name) = G p.name := if_pos rfl
    have hlang := Cf.lang_le (R := emits rules) (τ := symLeaf) (L := L) ?_ ?_ (.rule p.name)
    · exact hlang.trans hself.le
    · rintro (t | n)
      · exact le_refl _
      · exact bot_le
    · intro s β hβ
      obtain ⟨rfl, rfl | rfl⟩ := hemits hβ
      · rw [hG _ hplain, hself]
        · exact le_add_self.trans hsolve
        · simp [refsIn_append, refsIn_of_terminals h.pre_terminal,
            refsIn_of_terminals h.sep_terminal, refsIn, Element.reference, Element.refs]
      · rw [hG _ hplain', hself]
        · exact le_self_add.trans hsolve
        · simp [refsIn_of_terminals h.pre_terminal]
  refine le_antisymm hle ?_
  -- the production over the rule's language
  let ρ : Env String := fun n => if n = p.name then ruleLang rules n else G n
  have hself : ρ p.name = ruleLang rules p.name := if_pos rfl
  rw [← hself]
  refine nameLang_le (fun r hr => ?_) p.name
  by_cases hrp : r.name = p.name
  · obtain rfl := List.inj_on_of_nodup_map hnd hr hp hrp
    have hseq : ∀ α : Sequence, (∀ el ∈ α, el.isTerminal = true ∨ el.isRef = true) →
        (∀ n ∈ refsIn α, n = r.name) →
        emits rules (.rule r.name) (α.map (sym E.tokens)) →
        Cf.seq (den (tokenLeaf E.tokens) ρ) α ≤ ρ r.name := by
      intro α hα hrefs hβ
      have hsame : Cf.seq (den (tokenLeaf E.tokens) ρ) α = Cf.seq (den (tokenLeaf E.tokens)
          fun n => Cf.lang (emits rules) symLeaf (.rule n)) α :=
        seqDen_congr fun n hn => if_pos (hrefs n hn)
      rw [hsame, seq_den_eq_sym (lang_tok fun t β h => h) hα, hself]
      exact Cf.rule_le_lang hβ
    rw [altsDen_tailShape h]
    refine sup_le (hseq pre hplain' ?_ ⟨_, hlookup, by rw [hbodies]; simp⟩)
      (hseq _ hplain ?_ ⟨_, hlookup, by rw [hbodies]; simp⟩)
    · simp [refsIn_of_terminals h.pre_terminal]
    · simp [refsIn_append, refsIn_of_terminals h.pre_terminal,
        refsIn_of_terminals h.sep_terminal, refsIn, Element.reference, Element.refs]
  · have hmono : ∀ n, ρ n ≤ G n := by
      intro n
      by_cases hn : n = p.name
      · rw [hn, hself]
        exact hle
      · exact (if_neg hn).le
    rw [show ρ r.name = G r.name from if_neg hrp]
    exact (altsDen_mono fun n _ => hmono n).trans (solves_nameLang r hr)

end

/-! ## In a compile -/

/-- Desugaring leaves a production of terminals as it is. -/
theorem Desugar.productions_terminals {p : Production}
    (hterm : ∀ α ∈ p.alts, ∀ el ∈ α, el.isTerminal = true) : ∀ (ps : List Production)
      {d : Desugar} {r : List Production × Desugar}, p ∈ ps → productions d ps = .ok r →
        ∃ q ∈ r.1, SameRule p q
  | q :: ps, d, _, hp, h => by
    obtain ⟨⟨alts, d₁⟩, halts, h⟩ := bind_eq_ok h
    obtain ⟨⟨rest, d₂⟩, hrest, h⟩ := bind_eq_ok h
    obtain rfl := Except.ok.inj h
    rcases List.mem_cons.mp hp with rfl | hp
    · rw [altList_terminals p.alts hterm] at halts
      obtain ⟨rfl, rfl⟩ := Prod.mk.inj (Except.ok.inj halts)
      exact ⟨_, List.mem_cons_self, rfl, rfl, rfl, rfl, rfl, rfl⟩
    · obtain ⟨q, hq, hsame⟩ := productions_terminals hterm ps hp hrest
      exact ⟨q, List.mem_cons_of_mem _ hq, hsame⟩

theorem eq_of_eraseDebt {el el' : Element} (h : eraseDebt el' = eraseDebt el)
    (hterm : el.isTerminal = true) : el' = el := by
  cases el <;> cases el' <;> simp_all [eraseDebt, Element.isTerminal]

/-- A debt annotation leaves alternatives of terminals as they are. -/
theorem SameRule.alts_terminals {p q : Production} {pre : Sequence} (h : SameRule p q)
    (halts : p.alts = [pre]) (hterm : ∀ el ∈ pre, el.isTerminal = true) : q.alts = [pre] := by
  have hmap := h.alts
  rw [halts, List.map_singleton, List.map_eq_singleton_iff] at hmap
  obtain ⟨pre', halts', hpre⟩ := hmap
  have hlen : pre'.length = pre.length := by simpa using congrArg List.length hpre
  rw [halts']
  refine congrArg (fun α => [α]) (List.ext_getElem hlen fun i hi hi' => ?_)
  refine eq_of_eraseDebt ?_ (hterm _ (List.getElem_mem hi'))
  have hget := congrArg (fun l => l[i]?) hpre
  simpa [List.getElem?_eq_getElem hi, List.getElem?_eq_getElem hi'] using hget

/-- A tail repeat is emitted by its own path. -/
theorem emitRule_tailRepeat {diag : String} {E : Emitter} {q : Production} {pre sep : Sequence}
    (hfree : q.probeHelper = none ∧ q.probeDispatch = none) (halts : q.alts = [pre])
    (hterm : ∀ el ∈ pre, el.isTerminal = true) (htail : q.tailRepeat = some ⟨sep⟩) :
    emitRule diag E q = .ok [(q.name, emitTailRepeat E q ⟨sep⟩)] := by
  have hvalid : validateRefs diag E pre q.name = .ok () := by
    unfold validateRefs
    have hnone : pre.find? (fun el => el.refName.any fun m => !E.grammar.names.contains m) =
        none := by
      refine List.find?_eq_none.mpr fun el hel => ?_
      have hel := hterm el hel
      cases el <;> simp_all [Element.isTerminal, Element.refName]
    rw [hnone]
  unfold emitRule
  rw [hfree.1, hfree.2]
  unfold emitProduction
  have hforM : ([pre].forM fun alt => validateRefs diag E alt q.name) = .ok () := by
    show (validateRefs diag E pre q.name >>= fun _ => _) = _
    rw [hvalid]
    rfl
  rw [halts, htail, hforM]
  rfl

/-- **Tail repeats in a compile.** A production is left as it is, or it has the shape and the rule
emitted for it derives what the production did. -/
theorem Compile.tailRepeat_lang {S : Setting} {grammar : Grammar} (c : Compile S grammar)
    (tokens : Tokens) (contest : ContestCtx) (arrayHelpers : List String)
    (valuePlan : List (String × List Bool)) (p : Production) (hp : p ∈ c.factored.productions) :
    let E := c.emitter tokens contest arrayHelpers valuePlan
    rewriteTailRepeat c.start p = p ∨ ∃ pre sep, TailShape c.start p pre sep ∧
      ∃ q ∈ E.grammar.productions, q.name = p.name ∧
        emitRule S.diag E q = .ok [(p.name, emitTailRepeat E q ⟨sep⟩)] ∧
        ruleLang [(p.name, emitTailRepeat E q ⟨sep⟩)] p.name =
          nameLang (tokenLeaf tokens) c.factored.productions p.name := by
  intro E
  rcases rewriteTailRepeat_shape c.start p with heq | ⟨pre, sep, hshape, heq⟩
  · exact .inl heq
  refine .inr ⟨pre, sep, hshape, ?_⟩
  -- the production after the pass, after desugaring and as the emitter reads it
  have hmem : rewriteTailRepeat c.start p ∈ (rewriteTailRepeats c.factored c.start).productions :=
    List.mem_map_of_mem hp
  rw [heq] at hmem
  obtain ⟨⟨rewritten, d⟩, hrun, h⟩ := bind_eq_ok c.desugar_eq
  have hdesugared := Except.ok.inj h
  obtain ⟨q₁, hq₁, hsame₁⟩ := Desugar.productions_terminals
    (by simpa using hshape.pre_terminal) _ hmem hrun
  have hq₁' : q₁ ∈ c.desugared.productions := by
    rw [← hdesugared]
    exact List.mem_append_left _ hq₁
  obtain ⟨q, hq, hsame₂⟩ := exists_right_of_forall₂
    (sameRules_resolveSuffixDebts : SameRules c.desugared E.grammar) hq₁'
  have hsame := hsame₁.trans hsame₂
  have hname : q.name = p.name := hsame.name
  have halts : q.alts = [pre] := hsame.alts_terminals rfl hshape.pre_terminal
  have hemit : emitRule S.diag E q = .ok [(q.name, emitTailRepeat E q ⟨sep⟩)] := emitRule_tailRepeat
    ⟨hsame.probeHelper.trans hshape.free.2.1, hsame.probeDispatch.trans hshape.free.1⟩ halts
    hshape.pre_terminal hsame.tailRepeat
  rw [hname] at hemit
  exact ⟨q, hq, hname, hemit, ruleLang_emitTailRepeat c.factored_nodup hp hshape hname halts⟩

/-- `S = X`, `X = "a" [ "," X ]`, and `X` after the pass. -/
def commaList (alt : Sequence) (tail : Option TailRepeatSpec) : Grammar where
  productions :=
    [{ name := "S", alts := [[.reference "X"]] }, { name := "X", alts := [alt], tailRepeat := tail }]

/-- The authored alternative of `X`. -/
def commaTail : Sequence :=
  [.lit "a", .opt (.group [[.lit ",", .reference "X"]] none) none]

def commaCompile : Compile plainSetting (commaList commaTail none) :=
  .leftAlone (commaList [.lit "a"] (some ⟨[.lit ","]⟩)) "S" 2

/-- `X` is marked, and its rule derives what it did. -/
theorem Compile.tailRepeat_lang_comma : ∃ rule,
    ruleLang [("X", rule)] "X" =
      nameLang (tokenLeaf {}) commaCompile.factored.productions "X" := by
  have hmarked : (rewriteTailRepeat "S" commaCompile.factored.productions[1]).tailRepeat.isSome :=
    rfl
  rcases Compile.tailRepeat_lang commaCompile {} apartContest [] []
    commaCompile.factored.productions[1] (List.getElem_mem _) with heq | ⟨pre, sep, -, q, -, -, -, h⟩
  · rw [show commaCompile.start = "S" from rfl] at heq
    rw [heq] at hmarked
    cases hmarked
  · exact ⟨_, h⟩

end TabnasBnf
