import TabnasBnf.EmitLang
import TabnasBnf.Passes

/-!
# The names rules are written under

`commit_rule` writes the rules of each production in turn, and the start wrapper's at the end. The
names it writes under are built by formatting and are not checked against the ones in use; what a
production generates beside its own name is read off its alternatives (`generatedNames`).

* `mem_keys_emitRule`: a production writes its own name and those it generates.
* `commits_nodup_iff`: over productions of distinct names, no rule is written under a name that
  holds one already exactly when no production carries a generated name.
* **`Compile.rules_written_once_iff`**: the same of a compile, whose author gave distinct names.
-/

namespace TabnasBnf

/-- The names of the later steps of a chain of `n` segments. -/
def stepNames (head : String) (n : Nat) : List String :=
  (List.range' 1 (n - 1)).map (stepName head)

section

variable (diag : String) (E : Emitter)

/-- The names of the rules of one alternative of a dispatcher. -/
def implNames (name : String) (alt : Sequence) (i : Nat) : List String :=
  if alt.isEmpty then []
  else altName name i :: stepNames (altName name i) (segmentize E.tokens alt).length

/-- A production is one rule: a probe's, a tail repeat, or a choice between single segments. -/
def oneRule (prod : Production) : Bool :=
  prod.probeHelper.isSome || prod.probeDispatch.isSome || prod.tailRepeat.isSome ||
    prod.alts.all isSingleSegment && prod.value.isNone &&
      !(E.arrayHelpers.contains prod.name && prod.alts.length > 1 && !prod.repeatHelper)

/-- The names a production generates: the steps of a chain, or the alternatives of a dispatcher
with theirs. -/
def generatedNames (prod : Production) : List String :=
  if oneRule E prod then []
  else match prod.alts with
    | [alt] => stepNames prod.name (segmentize E.tokens alt).length
    | alts => alts.zipIdx.flatMap fun (alt, i) => implNames E prod.name alt i

/-- The rules `commit_rule` writes, in order. -/
def commits (start : String) : RuleTable :=
  E.grammar.productions.flatMap (rulesOf diag E) ++ [wrapperRule E start]

end

section

variable {diag : String} {E : Emitter} {prod : Production} {rules : RuleTable}

/-! ## What one production writes -/

theorem keys_chain (head : String) {segs : List Segment} (h : segs ≠ []) :
    (chainFrom head 0 segs).map Prod.fst = head :: stepNames head segs.length := by
  obtain ⟨n, hn⟩ := Nat.exists_eq_succ_of_ne_zero (List.length_pos_iff.mpr h).ne'
  rw [keys_chainFrom, hn, List.range'_succ, List.map_cons]
  congr 1
  refine List.map_congr_left fun i hi => ?_
  rw [chainName, if_neg (by have := (List.mem_range'_1.mp hi).1; omega)]

theorem length_segmentize_loop {tokens : Tokens} {item self : Element} {name : String}
    (hitem : item.refName = some name) {n : String} (hself : self.isRefTo n = true) :
    (segmentize tokens [item, self]).length = 2 := by
  obtain ⟨debt, sp, rfl⟩ := Element.refName_eq_some.mp hitem
  obtain ⟨debt', sp', rfl⟩ := Element.refName_eq_some.mp (Element.isRefTo_iff.mp hself)
  rfl

theorem keys_implRules {loopItem : Option Element} (hitem : ∀ item ∈ loopItem, LoopOf prod item)
    {i : Nat} {alt : Sequence} (halt : alt ∈ prod.alts)
    (h : implRules diag E prod loopItem i alt = .ok rules) :
    rules.map Prod.fst = implNames E prod.name alt i := by
  cases emittedAlt_of_implRules h with
  | empty => rfl
  | @loop _ item itemName hne hname =>
    obtain ⟨self, hself, rfl⟩ := ((hitem item rfl).alts alt halt).resolve_left hne
    rw [implNames, length_segmentize_loop hname hself]
    rfl
  | chain hne =>
    rw [keys_chain _ (segmentize_ne_nil alt), implNames, if_neg (by simpa using hne)]

theorem keys_dispatchRules {loopItem : Option Element} (hitem : ∀ item ∈ loopItem, LoopOf prod item)
    (h : dispatchRules diag E prod loopItem = .ok rules) :
    rules.map Prod.fst =
      (prod.alts.zipIdx.flatMap fun (alt, i) => implNames E prod.name alt i) ++ [prod.name] := by
  unfold dispatchRules at h
  split at h
  · obtain ⟨impls, himpls, h⟩ := bind_eq_ok h
    obtain ⟨entries, -, h⟩ := bind_eq_ok h
    obtain rfl := Except.ok.inj h
    rw [List.map_append, List.map_flatten, List.flatMap_def]
    congr 2
    have hkeys : List.Forall₂ (fun (x : Sequence × Nat) (rs : RuleTable) =>
        implNames E prod.name x.1 x.2 = rs.map Prod.fst) prod.alts.zipIdx impls := by
      refine List.forall₂_iff_get.mpr ⟨(mapM_eq_ok himpls).length_eq, fun k hk hk' => ?_⟩
      have hget := (mapM_eq_ok himpls).get hk hk'
      have halt : (prod.alts.zipIdx.get ⟨k, hk⟩).1 ∈ prod.alts := by
        obtain ⟨-, -, hmem⟩ := List.mem_zipIdx (List.get_mem prod.alts.zipIdx ⟨k, hk⟩)
        rw [hmem]
        exact List.getElem_mem _
      exact (keys_implRules hitem halt hget).symm
    rw [← List.forall₂_eq_eq_eq, List.forall₂_map_left_iff, List.forall₂_map_right_iff]
    exact hkeys.flip.imp fun _ _ h => h.symm
  · cases h

theorem generatedNames_chain (hone : oneRule E prod = false) {alt : Sequence}
    (halts : prod.alts = [alt]) :
    generatedNames E prod = stepNames prod.name (segmentize E.tokens alt).length := by
  rw [generatedNames, if_neg (by simp [hone]), halts]

theorem generatedNames_dispatch (hone : oneRule E prod = false)
    (hmany : ∀ alt, prod.alts = [alt] → False) : generatedNames E prod =
      prod.alts.zipIdx.flatMap fun (alt, i) => implNames E prod.name alt i := by
  rw [generatedNames, if_neg (by simp [hone])]
  split
  · next alt halts => exact (hmany alt halts).elim
  · rfl

/-- **A production writes its own name and those it generates.** -/
theorem mem_keys_emitRule (h : emitRule diag E prod = .ok rules) (k : String) :
    k ∈ rules.map Prod.fst ↔ k = prod.name ∨ k ∈ generatedNames E prod := by
  have hone : ∀ rule : RuleSpec, oneRule E prod = true →
      (k ∈ [(prod.name, rule)].map Prod.fst ↔ k = prod.name ∨ k ∈ generatedNames E prod) := by
    intro rule hrule
    simp [generatedNames, hrule]
  unfold emitRule at h
  split at h
  · next helper hhelper =>
    cases h
    exact hone _ (by simp [oneRule, hhelper])
  · next pd hhelper hpd =>
    obtain ⟨rule, -, h⟩ := bind_eq_ok h
    cases h
    exact hone _ (by simp [oneRule, hpd])
  · next hhelper hpd =>
    unfold emitProduction at h
    obtain ⟨-, -, h⟩ := bind_eq_ok h
    dsimp only at h
    split at h
    · next tail htail =>
      cases h
      exact hone _ (by simp [oneRule, htail])
    · next hnone =>
      have htail : prod.tailRepeat = none := Option.eq_none_iff_forall_ne_some.mpr hnone
      split at h <;> obtain ⟨loopItem, hloopItem, h⟩ := bind_eq_ok h
      all_goals
        obtain ⟨hitem, hloop⟩ := @loopOf_of_repeatLoop diag prod loopItem
          (by split <;> first | exact hloopItem | contradiction)
        split at h
        · next hsingle =>
          cases h
          exact hone _ (by simp only [oneRule, hsingle, Bool.or_true])
        · next hsingle =>
          have hnot : oneRule E prod = false := by
            simp only [oneRule, hhelper, hpd, htail, Option.isSome_none, Bool.false_or]
            exact Bool.eq_false_iff.mpr hsingle
          split at h
          · next alt halts =>
            obtain rfl := chain_of_emitChain h
            rw [generatedNames_chain hnot halts, keys_chain _ (segmentize_ne_nil alt),
              List.mem_cons]
          · next hmany =>
            rw [generatedNames_dispatch hnot hmany]
            split at h
            · cases h
            · rw [keys_dispatchRules hitem h, List.mem_append, List.mem_singleton, or_comm]

/-! ## What a grammar writes -/

/-- Every production has a rule of its name. -/
theorem name_mem_emitRules {start : String} (h : emitRules diag E start = .ok rules) {n : String}
    (hn : n ∈ E.grammar.names) : n ∈ rules.map Prod.fst := by
  obtain ⟨p, hp, rfl⟩ := mem_namesOf.mp hn
  rw [emitRules_eq h, Table.mem_keys_insert, Table.mem_keys_insertAll, List.map_flatMap]
  refine .inr (.inr (List.mem_flatMap.mpr ⟨p, hp, ?_⟩))
  exact (mem_keys_emitRule (emitRule_eq_of_emitRules h hp) p.name).mpr (.inl rfl)

theorem startWrapper_mem_emitRules {start : String} (h : emitRules diag E start = .ok rules) :
    startWrapper E ∈ rules.map Prod.fst := by
  rw [emitRules_eq h, Table.mem_keys_insert]
  exact .inl rfl

theorem name_notMem_stepNames {name head : String} {n : Nat}
    (hlen : name.toList.length ≤ head.toList.length) : name ∉ stepNames head n := by
  intro hmem
  obtain ⟨i, -, h⟩ := List.mem_map.mp hmem
  have hlen' := congrArg List.length (congrArg String.toList h)
  rw [toList_stepName, List.length_append, List.length_cons] at hlen'
  omega

/-- A production generates no second rule of its own name. -/
theorem name_notMem_generatedNames (prod : Production) : prod.name ∉ generatedNames E prod := by
  unfold generatedNames
  split
  · exact List.not_mem_nil
  · split
    · exact name_notMem_stepNames le_rfl
    · intro hmem
      obtain ⟨⟨alt, i⟩, -, hmem⟩ := List.mem_flatMap.mp hmem
      dsimp only at hmem
      unfold implNames at hmem
      split at hmem
      · exact absurd hmem List.not_mem_nil
      · rcases List.mem_cons.mp hmem with h | h
        · exact altName_ne_self _ _ h.symm
        · refine name_notMem_stepNames ?_ h
          rw [toList_altName, List.length_append]
          omega

theorem unclashing_iff {start : String} (h : emitRules diag E start = .ok rules) :
    Unclashing diag E ↔
      ∀ p ∈ E.grammar.productions, ∀ n ∈ generatedNames E p, n ∉ E.grammar.names := by
  have hrun := fun p (hp : p ∈ E.grammar.productions) => emitRule_eq_of_emitRules h hp
  constructor
  · intro hclash p hp n hn hmem
    have hkey := (mem_keys_emitRule (hrun p hp) n).mpr (.inr hn)
    obtain ⟨e, he, rfl⟩ := List.mem_map.mp hkey
    have hname := hclash p hp _ (by rw [hrun p hp]; rfl) e he hmem
    exact name_notMem_generatedNames p (hname ▸ hn)
  · intro hfree p hp rs hrs e he hmem
    rw [hrun p hp] at hrs
    obtain rfl := Option.some.inj hrs
    have hkey := (mem_keys_emitRule (hrun p hp) e.1).mp (List.mem_map_of_mem he)
    exact hkey.resolve_right fun hgen => hfree p hp e.1 hgen hmem

/-- **No rule is written twice** exactly when no production carries a generated name. -/
theorem commits_nodup_iff {start : String} (hnd : E.grammar.names.Nodup)
    (h : emitRules diag E start = .ok rules) :
    ((commits diag E start).map Prod.fst).Nodup ↔
      ∀ p ∈ E.grammar.productions, ∀ n ∈ generatedNames E p, n ∉ E.grammar.names := by
  rw [← unclashing_iff h]
  constructor
  · intro hnodup
    rw [unclashing_iff h]
    intro p hp n hn hmem
    obtain ⟨q, hq, rfl⟩ := mem_namesOf.mp hmem
    have hne : p ≠ q := by
      rintro rfl
      exact name_notMem_generatedNames p hn
    have hkey := (mem_keys_emitRule (emitRule_eq_of_emitRules h hp) q.name).mpr (.inr hn)
    have hkey' := (mem_keys_emitRule (emitRule_eq_of_emitRules h hq) q.name).mpr (.inl rfl)
    unfold commits at hnodup
    rw [List.map_append, List.map_flatMap] at hnodup
    have hdisjoint := (List.nodup_flatMap.mp (List.nodup_append.mp hnodup).1).2
    have hsymm : Std.Symm (fun p q : Production => List.Disjoint
        ((rulesOf diag E p).map Prod.fst) ((rulesOf diag E q).map Prod.fst)) :=
      ⟨fun _ _ h => h.symm⟩
    exact hdisjoint.forall hp hq hne hkey hkey'
  · intro hclash
    obtain ⟨hrules, hkeys⟩ := emitRules_spec hnd hclash h
    rwa [hrules] at hkeys

end

/-! ## A compile -/

/-- **A compile writes every rule once** exactly when no production of the grammar it emits carries
the name of a step or of an alternative that another production generates. -/
theorem Compile.rules_written_once_iff {S : Setting} {grammar : Grammar} (c : Compile S grammar)
    {tokens : Tokens} {contest : ContestCtx} {arrayHelpers : List String}
    {valuePlan : List (String × List Bool)} {rules : RuleTable} (hnd : grammar.names.Nodup)
    (h : emitRules S.diag (c.emitter tokens contest arrayHelpers valuePlan) c.start = .ok rules) :
    ((commits S.diag (c.emitter tokens contest arrayHelpers valuePlan) c.start).map
        Prod.fst).Nodup ↔
      ∀ p ∈ (c.emitter tokens contest arrayHelpers valuePlan).grammar.productions,
        ∀ n ∈ generatedNames (c.emitter tokens contest arrayHelpers valuePlan) p,
          n ∉ c.desugared.names := by
  have hnames := c.emitter_names tokens contest arrayHelpers valuePlan
  rw [commits_nodup_iff (by rw [hnames]; exact c.names_nodup hnd) h, hnames]

/-- No options, and literals that are read as they stand. -/
def plainSetting : Setting where
  diag := "bnf"
  start := none
  tokenClasses := false
  lower := id
  upper := id
  lowercase := id
  regexDerivesEmpty := fun _ _ => false
  mayMatchWithoutConsuming := fun _ _ => false

/-- `S = "a" <second> "b" <second>`, `<second> = "x" / "y"`: a chain of two steps. -/
def twoSteps (second : String) : Grammar where
  productions := [
    { name := "S", alts := [[.lit "a", .reference second, .lit "b", .reference second]] },
    { name := second, alts := [[.lit "x"], [.lit "y"]] }]

/-- The tokens of `twoSteps`. -/
def twoStepsTokens : Tokens where
  literals := ["a", "b", "x", "y"].map fun l => (termKey l none, "#" ++ l)

/-- `twoSteps` with a second production named apart. -/
def twoStepsApart : Compile plainSetting (twoSteps "X") := .leftAlone (twoSteps "X") "S" 3

/-- `twoSteps` with a second production named as the step is. -/
def twoStepsClash : Compile plainSetting (twoSteps "S$step1") :=
  .leftAlone (twoSteps "S$step1") "S" 3

theorem rules_written_once_twoSteps :
    ((commits "bnf" (twoStepsApart.emitter twoStepsTokens apartContest [] []) "S").map
      Prod.fst).Nodup := by
  have hemit : emitRules "bnf" (twoStepsApart.emitter twoStepsTokens apartContest [] []) "S" =
      .ok ((emitRules "bnf" (twoStepsApart.emitter twoStepsTokens apartContest [] [])
        "S").toOption.getD []) := eq_ok_of_isOk (by decide +kernel) _
  exact (twoStepsApart.rules_written_once_iff (by decide) hemit).mpr (by decide +kernel)

/-- The step of the start rule and the production of its name: the claim fails. -/
theorem rules_written_twice :
    ¬ ∀ (grammar : Grammar) (c : Compile plainSetting grammar) (tokens : Tokens)
      (rules : RuleTable), grammar.names.Nodup →
      emitRules "bnf" (c.emitter tokens apartContest [] []) c.start = .ok rules →
      ((commits "bnf" (c.emitter tokens apartContest [] []) c.start).map Prod.fst).Nodup := by
  intro h
  have hemit : emitRules "bnf" (twoStepsClash.emitter twoStepsTokens apartContest [] []) "S" =
      .ok ((emitRules "bnf" (twoStepsClash.emitter twoStepsTokens apartContest [] [])
        "S").toOption.getD []) := eq_ok_of_isOk (by decide +kernel) _
  exact absurd (h _ twoStepsClash _ _ (by decide) hemit) (by decide +kernel)

end TabnasBnf
