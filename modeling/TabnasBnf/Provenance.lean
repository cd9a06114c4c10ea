import TabnasBnf.EmitWrites
import TabnasBnf.Origins

/-!
# The provenance map

With `provenance` on, the emitter records for the rules it generates which production the author
wrote them as: `record_prov` when it comes to a production that is not its own origin, for each
alternative of a dispatcher and each later step of a chain before it decides what to write, and for
the start wrapper. `meta.provenance` is the table of the records, whose entries are then sorted.

* `records_eq`: what is recorded at a production that is emitted is its own name, where the author
  did not write it, and the names it generates.
* `exists_writer`: the production a record is from wrote the rule that has its name in the end.
* **`Compile.provenance_exact`**: the map has the rules the author did not write, each under the
  author's production it was made of.
-/

namespace TabnasBnf

section

variable (E : Emitter)

/-- What `emit_chain` records: the steps after the head. -/
def chainRecords (head origin : String) (segs : List Segment) : List (String × String) :=
  segs.zipIdx.filterMap fun (_, i) => if 0 < i then some (chainName head i, origin) else none

/-- What is recorded for an alternative of a dispatcher: its rule, then the second step of
`emit_repeat_loop` or the later steps of `emit_chain`. -/
def implRecords (prod : Production) (alt : Sequence) (i : Nat) : List (String × String) :=
  if alt.isEmpty then []
  else
    let implName := altName prod.name i
    (implName, prod.originOf) ::
      if prod.repeatLoop then [(stepName implName 1, prod.originOf)]
      else chainRecords implName prod.originOf (segmentize E.tokens alt)

/-- What `emit_production` records. -/
def productionRecords (prod : Production) : List (String × String) :=
  let splitAlts := E.arrayHelpers.contains prod.name && prod.alts.length > 1 && !prod.repeatHelper
  if prod.tailRepeat.isSome then []
  else if prod.alts.all isSingleSegment && prod.value.isNone && !splitAlts then []
  else match prod.alts with
    | [alt] => chainRecords prod.name prod.originOf (segmentize E.tokens alt)
    | alts => alts.zipIdx.flatMap fun (alt, i) => implRecords E prod alt i

/-- What the loop over the productions records at one of them. -/
def records (prod : Production) : List (String × String) :=
  (if prod.originOf ≠ prod.name then [(prod.name, prod.originOf)] else []) ++
    match prod.probeHelper, prod.probeDispatch with
    | none, none => productionRecords E prod
    | _, _ => []

/-- `prov`, after the loop over the productions and the start wrapper. -/
def provenance (start : String) : List (String × String) :=
  Table.insert (Table.insertAll [] (E.grammar.productions.flatMap (records E))) (startWrapper E)
    start

end

section

variable {diag : String} {E : Emitter} {prod : Production} {rules : RuleTable}

/-! ## What is recorded at a production -/

theorem chainRecords_eq (head origin : String) (segs : List Segment) :
    chainRecords head origin segs = (stepNames head segs.length).map fun k => (k, origin) := by
  have hindices : ∀ (segs : List Segment) (m : Nat), 0 < m →
      (segs.zipIdx m).filterMap
          (fun (_, i) => if 0 < i then some (chainName head i, origin) else none) =
        ((List.range' m segs.length).map (stepName head)).map fun k => (k, origin) := by
    intro segs
    induction segs with
    | nil => exact fun m _ => rfl
    | cons seg segs ih =>
      intro m hm
      have hname : chainName head m = stepName head m := if_neg (Nat.ne_of_gt hm)
      simp only [List.zipIdx_cons, List.filterMap_cons, if_pos hm, List.length_cons,
        List.range'_succ, List.map_cons, hname]
      exact congrArg _ (ih (m + 1) (Nat.succ_pos m))
  cases segs with
  | nil => rfl
  | cons seg segs => exact hindices segs 1 Nat.one_pos

theorem implRecords_eq {loopItem : Option Element} (hloop : loopItem.isSome = prod.repeatLoop)
    (hitem : ∀ item ∈ loopItem, LoopOf prod item) {i : Nat} {alt : Sequence}
    (halt : alt ∈ prod.alts) (h : implRules diag E prod loopItem i alt = .ok rules) :
    implRecords E prod alt i = (implNames E prod.name alt i).map fun k => (k, prod.originOf) := by
  cases emittedAlt_of_implRules h with
  | empty => rfl
  | @loop _ item itemName hne hname =>
    obtain ⟨self, hself, rfl⟩ := ((hitem item rfl).alts alt halt).resolve_left hne
    have hrepeat : prod.repeatLoop = true := hloop.symm
    rw [implNames, length_segmentize_loop hname hself]
    simp only [implRecords, hrepeat, List.isEmpty_cons, if_true, Bool.false_eq_true, if_false]
    rfl
  | chain hne =>
    have hrepeat : prod.repeatLoop = false := hloop.symm
    have hempty : alt.isEmpty = false := by simpa using hne
    simp only [implRecords, implNames, hempty, hrepeat, Bool.false_eq_true, if_false,
      chainRecords_eq, List.map_cons]

theorem dispatchRecords_eq {loopItem : Option Element} (hloop : loopItem.isSome = prod.repeatLoop)
    (hitem : ∀ item ∈ loopItem, LoopOf prod item)
    (h : dispatchRules diag E prod loopItem = .ok rules) :
    (prod.alts.zipIdx.flatMap fun (alt, i) => implRecords E prod alt i) =
      (prod.alts.zipIdx.flatMap fun (alt, i) => implNames E prod.name alt i).map
        fun k => (k, prod.originOf) := by
  unfold dispatchRules at h
  split at h
  · obtain ⟨impls, himpls, h⟩ := bind_eq_ok h
    rw [List.map_flatMap]
    refine List.flatMap_congr fun x hx => ?_
    obtain ⟨rs, -, hrs⟩ := exists_right_of_forall₂ (mapM_eq_ok himpls) hx
    obtain ⟨-, -, hmem⟩ := List.mem_zipIdx hx
    exact implRecords_eq hloop hitem (hmem ▸ List.getElem_mem _) hrs
  · cases h

theorem productionRecords_one (hhelper : prod.probeHelper = none) (hpd : prod.probeDispatch = none)
    (hone : oneRule E prod = true) : productionRecords E prod = [] := by
  simp only [oneRule, hhelper, hpd, Option.isSome_none, Bool.false_or, Bool.or_eq_true] at hone
  unfold productionRecords
  dsimp only
  rcases hone with htail | hsingle
  · rw [if_pos htail]
  · rw [if_pos hsingle, ite_self]

theorem productionRecords_many (hone : oneRule E prod = false) :
    productionRecords E prod = match prod.alts with
      | [alt] => chainRecords prod.name prod.originOf (segmentize E.tokens alt)
      | alts => alts.zipIdx.flatMap fun (alt, i) => implRecords E prod alt i := by
  simp only [oneRule, Bool.or_eq_false_iff] at hone
  obtain ⟨⟨-, htail⟩, hsingle⟩ := hone
  unfold productionRecords
  dsimp only
  rw [if_neg (Bool.eq_false_iff.mp htail), if_neg (Bool.eq_false_iff.mp hsingle)]

theorem productionRecords_chain (hone : oneRule E prod = false) {alt : Sequence}
    (halts : prod.alts = [alt]) : productionRecords E prod =
      chainRecords prod.name prod.originOf (segmentize E.tokens alt) := by
  rw [productionRecords_many hone, halts]

theorem productionRecords_dispatch (hone : oneRule E prod = false)
    (hmany : ∀ alt, prod.alts = [alt] → False) : productionRecords E prod =
      prod.alts.zipIdx.flatMap fun (alt, i) => implRecords E prod alt i := by
  rw [productionRecords_many hone]
  split
  · next alt halts => exact (hmany alt halts).elim
  · rfl

/-- **What is recorded at a production** that is emitted. -/
theorem records_eq (h : emitRule diag E prod = .ok rules) : records E prod =
    (if prod.originOf ≠ prod.name then [(prod.name, prod.originOf)] else []) ++
      (generatedNames E prod).map fun k => (k, prod.originOf) := by
  have hnone : oneRule E prod = true → (generatedNames E prod).map (fun k => (k, prod.originOf)) =
      [] := fun hone => by rw [generatedNames, if_pos hone, List.map_nil]
  unfold records
  congr 1
  unfold emitRule at h
  split at h
  · next helper hhelper => rw [hnone (by simp [oneRule, hhelper]), hhelper]
  · next pd hhelper hpd => rw [hnone (by simp [oneRule, hpd]), hhelper, hpd]
  · next hhelper hpd =>
    have hrecords : productionRecords E prod =
        (generatedNames E prod).map fun k => (k, prod.originOf) := by
      unfold emitProduction at h
      obtain ⟨-, -, h⟩ := bind_eq_ok h
      dsimp only at h
      split at h
      · next tail htail =>
        have hone : oneRule E prod = true := by simp [oneRule, htail]
        rw [hnone hone, productionRecords_one hhelper hpd hone]
      · next hnot =>
        have htail : prod.tailRepeat = none := Option.eq_none_iff_forall_ne_some.mpr hnot
        split at h <;> obtain ⟨loopItem, hloopItem, h⟩ := bind_eq_ok h
        all_goals
          obtain ⟨hitem, hloop⟩ := @loopOf_of_repeatLoop diag prod loopItem
            (by split <;> first | exact hloopItem | contradiction)
          split at h
          · next hsingle =>
            have hone : oneRule E prod = true := by simp only [oneRule, hsingle, Bool.or_true]
            rw [hnone hone, productionRecords_one hhelper hpd hone]
          · next hsingle =>
            have hone : oneRule E prod = false := by
              simp only [oneRule, hhelper, hpd, htail, Option.isSome_none, Bool.false_or]
              exact Bool.eq_false_iff.mpr hsingle
            split at h
            · next alt halts =>
              rw [generatedNames_chain hone halts, productionRecords_chain hone halts,
                chainRecords_eq]
            · next hmany =>
              rw [generatedNames_dispatch hone hmany, productionRecords_dispatch hone hmany]
              split at h
              · cases h
              · exact dispatchRecords_eq hloop hitem h
    rw [hhelper, hpd]
    exact hrecords

theorem mem_keys_records (h : emitRule diag E prod = .ok rules) {k : String} :
    k ∈ (records E prod).map Prod.fst ↔
      k = prod.name ∧ prod.originOf ≠ prod.name ∨ k ∈ generatedNames E prod := by
  rw [records_eq h, List.map_append, List.mem_append, List.map_map]
  refine or_congr ?_ ?_
  · split
    · next hne => simp [hne]
    · next heq => simp [not_ne_iff.mp heq]
  · simp [Function.comp_def]

theorem originOf_of_mem_records (h : emitRule diag E prod = .ok rules) {k v : String}
    (hmem : (k, v) ∈ records E prod) : v = prod.originOf := by
  rw [records_eq h] at hmem
  rcases List.mem_append.mp hmem with hmem | hmem
  · split at hmem
    · exact (Prod.mk_inj.mp (List.mem_singleton.mp hmem)).2
    · cases hmem
  · obtain ⟨n, -, heq⟩ := List.mem_map.mp hmem
    exact (Prod.mk_inj.mp heq).2.symm

/-! ## The map of a grammar -/

section

variable {start : String}

theorem mem_keys_provenance (h : emitRules diag E start = .ok rules) {k : String} :
    k ∈ (provenance E start).map Prod.fst ↔ k = startWrapper E ∨ ∃ p ∈ E.grammar.productions,
      k = p.name ∧ p.originOf ≠ p.name ∨ k ∈ generatedNames E p := by
  unfold provenance
  rw [Table.mem_keys_insert, Table.mem_keys_insertAll, List.map_flatMap, List.mem_flatMap]
  simp only [List.map_nil, List.not_mem_nil, false_or]
  refine or_congr_right (exists_congr fun p => and_congr_right fun hp => ?_)
  exact mem_keys_records (emitRule_eq_of_emitRules h hp)

theorem mem_keys_emitRules (h : emitRules diag E start = .ok rules) {k : String} :
    k ∈ rules.map Prod.fst ↔ k = startWrapper E ∨ ∃ p ∈ E.grammar.productions,
      k = p.name ∨ k ∈ generatedNames E p := by
  rw [emitRules_eq h, Table.mem_keys_insert, Table.mem_keys_insertAll, List.map_flatMap,
    List.mem_flatMap]
  simp only [List.map_nil, List.not_mem_nil, false_or]
  refine or_congr_right (exists_congr fun p => and_congr_right fun hp => ?_)
  exact mem_keys_emitRule (emitRule_eq_of_emitRules h hp) k

/-- **The record of a name** is from the production whose rule has the name in the end, unless it is
that of a production that is its own origin. -/
theorem exists_writer (h : emitRules diag E start = .ok rules) {k v : String}
    (hown : ∀ p ∈ E.grammar.productions, p.originOf = p.name → p.name ≠ k)
    (hrecord : (provenance E start).lookup k = some v) :
    k = startWrapper E ∧ v = start ∨ ∃ p ∈ E.grammar.productions, p.originOf = v ∧
      ∃ rule, (k, rule) ∈ rulesOf diag E p ∧ rules.lookup k = some rule := by
  unfold provenance at hrecord
  rw [Table.lookup_insert] at hrecord
  split at hrecord
  · next hk => exact .inl ⟨hk, (Option.some.inj hrecord).symm⟩
  · next hk =>
    obtain ⟨before, p, behind, hsplit, hmem, hlast⟩ := Table.last_of_lookup hrecord
    have hin : ∀ q ∈ p :: behind, q ∈ E.grammar.productions := fun q hq => by
      rw [hsplit]
      exact List.mem_append_right _ hq
    have hp := emitRule_eq_of_emitRules h (hin p List.mem_cons_self)
    have hkey : k ∈ (rulesOf diag E p).map Prod.fst := by
      rw [mem_keys_emitRule hp]
      have hkeys := (mem_keys_records hp).mp (List.mem_map_of_mem (f := Prod.fst) hmem)
      exact hkeys.imp_left And.left
    -- a later production that writes the name would record it too
    have hbehind : ∀ q ∈ behind, k ∉ (rulesOf diag E q).map Prod.fst := by
      intro q hq hwritten
      have hq' := emitRule_eq_of_emitRules h (hin q (List.mem_cons_of_mem _ hq))
      refine hlast q hq ((mem_keys_records hq').mpr ?_)
      rcases (mem_keys_emitRule hq' k).mp hwritten with rfl | hgenerated
      · exact .inl ⟨rfl, fun horigin => hown q (hin q (List.mem_cons_of_mem _ hq)) horigin rfl⟩
      · exact .inr hgenerated
    obtain ⟨rule, hrule, hlookup⟩ := Table.lookup_of_last before hkey hbehind
    have horigin : p.originOf = v := (originOf_of_mem_records hp hmem).symm
    refine .inr ⟨p, hin p List.mem_cons_self, horigin, rule, hrule, ?_⟩
    rw [emitRules_eq h, Table.lookup_insert, if_neg hk, hsplit]
    exact hlookup

end

end

/-! ## A compile -/

namespace Compile

variable {S : Setting} {grammar : Grammar} (c : Compile S grammar)

section

variable (tokens : Tokens) (contest : ContestCtx) (arrayHelpers : List String)
  (valuePlan : List (String × List Bool))

/-- The names a compile generates: those of helpers, of the steps and alternatives the emitter
gives a production, and the start wrapper's. -/
def generated : List String :=
  let E := c.emitter tokens contest arrayHelpers valuePlan
  c.helperNames ++ E.grammar.productions.flatMap (generatedNames E) ++ [startWrapper E]

/-- Rewriting `p` produces the rule that has the name `k` in the end: the emitter writes it for a
production the passes made of `p`. -/
def Produces (rules : RuleTable) (p : Production) (k : String) : Prop :=
  let E := c.emitter tokens contest arrayHelpers valuePlan
  ∃ q ∈ c.desugared.productions, c.Makes p q ∧ ∃ q' ∈ E.grammar.productions, SameRule q q' ∧
    ∃ rule, (k, rule) ∈ rulesOf S.diag E q' ∧ rules.lookup k = some rule

end

/-- The emitter's productions are those of the desugared grammar, with their origins. -/
theorem exists_sameRule {tokens : Tokens} {contest : ContestCtx} {arrayHelpers : List String}
    {valuePlan : List (String × List Bool)} :
    ∀ q' ∈ (c.emitter tokens contest arrayHelpers valuePlan).grammar.productions,
      ∃ q ∈ c.desugared.productions, SameRule q q' ∧ q'.credit = q.credit := by
  intro q' hq'
  obtain ⟨q, hq, hsame⟩ := exists_left_of_forall₂ sameRules_resolveSuffixDebts hq'
  have hcredits : q'.credit ∈ c.desugared.productions.map Production.credit := by
    rw [← resolveSuffixDebts_credits]
    exact List.mem_map_of_mem hq'
  obtain ⟨q₁, hq₁, hcredit⟩ := List.mem_map.mp hcredits
  have hname : q₁.name = q.name := (Production.credit_eq_iff.mp hcredit).1.trans hsame.name
  obtain rfl := eq_of_name_eq c.desugared_nodup hq₁ hq hname
  exact ⟨q₁, hq, hsame, hcredit.symm⟩

/-- **The provenance map.** Its keys are the rules the author did not write, and each is under the
name of the author's production whose rewriting produced the rule (the start wrapper, under the
start rule). The author's names collide with no generated one. -/
theorem provenance_exact {tokens : Tokens} {contest : ContestCtx} {arrayHelpers : List String}
    {valuePlan : List (String × List Bool)} {rules : RuleTable}
    (h : emitRules S.diag (c.emitter tokens contest arrayHelpers valuePlan) c.start = .ok rules)
    (horigins : grammar.Attributed) (hstart : c.start ∈ grammar.authoredNames)
    (hclash : ∀ n ∈ c.generated tokens contest arrayHelpers valuePlan, n ∉ grammar.authoredNames) :
    let E := c.emitter tokens contest arrayHelpers valuePlan
    (∀ k, k ∈ (provenance E c.start).map Prod.fst ↔
      k ∈ rules.map Prod.fst ∧ k ∉ grammar.authoredNames) ∧
    ∀ k v, (provenance E c.start).lookup k = some v → v ∈ grammar.authoredNames ∧
      (k = startWrapper E ∧ v = c.start ∨ ∃ p ∈ grammar.productions, p.originOf = v ∧
        c.Produces tokens contest arrayHelpers valuePlan rules p k) := by
  intro E
  have hwrapper : startWrapper E ∉ grammar.authoredNames :=
    hclash _ (List.mem_append_right _ (List.mem_singleton.mpr rfl))
  have hgenerated : ∀ q' ∈ E.grammar.productions, ∀ k ∈ generatedNames E q',
      k ∉ grammar.authoredNames := fun q' hq' k hk =>
    hclash k (List.mem_append_left _ (List.mem_append_right _
      (List.mem_flatMap.mpr ⟨q', hq', hk⟩)))
  -- a production is its own origin exactly when the author wrote its name
  have hown : ∀ q' ∈ E.grammar.productions,
      q'.originOf = q'.name ↔ q'.name ∈ grammar.authoredNames := by
    intro q' hq'
    obtain ⟨q, hq, -, hcredit⟩ := c.exists_sameRule q' hq'
    obtain ⟨hname, horigin⟩ := Production.credit_eq_iff.mp hcredit
    rw [hname, horigin]
    constructor
    · intro hself
      obtain ⟨p, hp, -, hcreditor⟩ := c.exists_makes q hq
      rw [← hself, hcreditor]
      exact horigins.descends p hp
    · intro hauthored
      rcases c.credit_or_helper q hq with ⟨p, hp, hcredit⟩ | hhelper
      · obtain ⟨hpname, hporigin⟩ := Production.credit_eq_iff.mp hcredit
        rw [hpname, hporigin]
        exact horigins.apart p hp (hpname ▸ hauthored)
      · exact absurd hauthored
          (hclash _ (List.mem_append_left _ (List.mem_append_left _ hhelper)))
  have hkeys : ∀ k, k ∈ (provenance E c.start).map Prod.fst ↔
      k ∈ rules.map Prod.fst ∧ k ∉ grammar.authoredNames := by
    intro k
    rw [mem_keys_provenance h, mem_keys_emitRules h]
    constructor
    · rintro (rfl | ⟨q', hq', ⟨rfl, hne⟩ | hk⟩)
      · exact ⟨.inl rfl, hwrapper⟩
      · exact ⟨.inr ⟨q', hq', .inl rfl⟩, fun hk => hne ((hown q' hq').mpr hk)⟩
      · exact ⟨.inr ⟨q', hq', .inr hk⟩, hgenerated q' hq' k hk⟩
    · rintro ⟨rfl | ⟨q', hq', rfl | hk⟩, hnot⟩
      · exact .inl rfl
      · exact .inr ⟨q', hq', .inl ⟨rfl, fun hself => hnot ((hown q' hq').mp hself)⟩⟩
      · exact .inr ⟨q', hq', .inr hk⟩
  refine ⟨hkeys, fun k v hrecord => ?_⟩
  have hnot : k ∉ grammar.authoredNames :=
    ((hkeys k).mp (List.mem_map_of_mem (f := Prod.fst) (Table.mem_of_lookup hrecord))).2
  have hother : ∀ q' ∈ E.grammar.productions, q'.originOf = q'.name → q'.name ≠ k := by
    rintro q' hq' hself rfl
    exact hnot ((hown q' hq').mp hself)
  rcases exists_writer h hother hrecord with
    ⟨hk, hv⟩ | ⟨q', hq', horigin, rule, hrule, hlookup⟩
  · exact ⟨hv ▸ hstart, .inl ⟨hk, hv⟩⟩
  · obtain ⟨q, hq, hsame, hcredit⟩ := c.exists_sameRule q' hq'
    obtain ⟨p, hp, hmakes, hcreditor⟩ := c.exists_makes q hq
    have hv : p.originOf = v :=
      hcreditor.symm.trans ((Production.credit_eq_iff.mp hcredit).2.symm.trans horigin)
    exact ⟨hv ▸ horigins.descends p hp,
      .inr ⟨p, hp, hv, q, hq, hmakes, q', hq', hsame, rule, hrule, hlookup⟩⟩

end Compile

/-- `S = "s" *X`, `X = "x" / "y"`: a helper, its alternative and the step of that. -/
def starOfX : Grammar where
  productions := [
    { name := "S", alts := [[.lit "s", .star (.reference "X") none none]] },
    { name := "X", alts := [[.lit "x"], [.lit "y"]] }]

/-- The tokens of `starOfX`. -/
def starOfXTokens : Tokens where
  literals := ["s", "x", "y"].map fun l => (termKey l none, "#" ++ l)

/-- The passes over `starOfX`, of which desugaring alone changes it. -/
def starOfXCompile : Compile plainSetting starOfX :=
  .leftAlone ((desugar starOfX).toOption.getD { productions := [] }) "S" 3
    ⟨rfl, rfl, rfl, rfl, rfl, rfl, eq_ok_of_isOk (by decide +kernel) _⟩

/-- The step of the loop's alternative comes of the author's `S`. -/
theorem provenance_exact_starOfX :
    "_gen1_star_X$alt0$step1" ∈ (provenance
        (starOfXCompile.emitter starOfXTokens apartContest [] []) "S").map Prod.fst ∧
      ∃ p ∈ starOfX.productions, p.originOf = "S" ∧
        starOfXCompile.Produces starOfXTokens apartContest [] []
          ((emitRules "bnf" (starOfXCompile.emitter starOfXTokens apartContest [] [])
            "S").toOption.getD []) p "_gen1_star_X$alt0$step1" := by
  have hemit : emitRules "bnf" (starOfXCompile.emitter starOfXTokens apartContest [] []) "S" =
      .ok ((emitRules "bnf" (starOfXCompile.emitter starOfXTokens apartContest [] [])
        "S").toOption.getD []) := eq_ok_of_isOk (by decide +kernel) _
  have hauthored : ∀ p ∈ starOfX.productions, p.origin = none := by decide
  obtain ⟨hkeys, hvalues⟩ := starOfXCompile.provenance_exact hemit
    (Grammar.attributed_of_authored hauthored) (by decide) (by decide +kernel)
  refine ⟨(hkeys _).mpr ⟨by decide +kernel, by decide⟩, ?_⟩
  exact (hvalues "_gen1_star_X$alt0$step1" "S" (by decide +kernel)).2.resolve_left
    (by decide +kernel)

end TabnasBnf
