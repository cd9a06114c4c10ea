import Mathlib.Data.List.Flatten
import TabnasBnf.ProbesApart

/-!
# The emitted rules behind their probes

A dispatcher first runs its probe, in phase 0, then rewinds and runs one of its branches, in phase
1 or 2. The rules are settled when what they do in phase 0 is left out.

* `Emitted.settled`: only dispatchers have alternates of phase 0.
* `Emitted.stands_settled`: the settled rules of every production stand for it, a tail repeat for
  the alternatives of `Production.tailed`.
* **`ruleLang_settled`**: the settled rules derive what the productions do.
-/

namespace TabnasBnf

/-- The alternate is taken while the probe runs. -/
def AltSpec.probing (o : AltSpec) : Bool := o.c == some (.probePhase 0)

/-- The rule without its alternates of phase 0. -/
def RuleSpec.settled (rule : RuleSpec) : RuleSpec :=
  ⟨rule.opens.filter (!·.probing), rule.close.map fun close => close.filter (!·.probing)⟩

/-- The rules without their alternates of phase 0. -/
def settledRules (rules : RuleTable) : RuleTable := rules.map fun e => (e.1, e.2.settled)

/-! ## Which alternates are of phase 0 -/

/-- The alternate has no condition on a phase. -/
def AltSpec.Unphased (o : AltSpec) : Prop := ∀ phase, o.c ≠ some (.probePhase phase)

section

variable {diag : String} {E : Emitter} {prod : Production} {rules : RuleTable} {o : AltSpec}

theorem AltSpec.Unphased.probing (h : o.Unphased) : o.probing = false := by
  unfold AltSpec.probing
  exact beq_eq_false_iff_ne.mpr (h 0)

theorem unphased_of_none (h : o.c = none) : o.Unphased := by simp [AltSpec.Unphased, h]

theorem unphased_peekCopy (h : o.Unphased) (s : List String) (b : Nat) : (peekCopy o s b).Unphased :=
  h

theorem RuleSpec.settled_eq {rule : RuleSpec} (hopens : ∀ o ∈ rule.opens, o.Unphased)
    (hclose : ∀ o ∈ rule.close.getD [], o.Unphased) : rule.settled = rule := by
  obtain ⟨opens, close⟩ := rule
  unfold RuleSpec.settled
  rw [List.filter_eq_self.mpr fun o ho => by simp [(hopens o ho).probing]]
  cases close with
  | none => rfl
  | some close =>
    rw [Option.map_some, List.filter_eq_self.mpr fun o ho => by simp [(hclose o ho).probing]]

/-- Placing adds conditions on counters alone. -/
theorem unphased_placeEntries {entries : List Entry} (h : ∀ e ∈ entries, e.o.Unphased) :
    ∀ o ∈ placeEntries E prod entries, o.Unphased := by
  have hguarded : ∀ e ∈ specificityPermute E (applyDebtGuard prod entries), e.o.Unphased := by
    intro e he
    rw [mem_specificityPermute] at he
    unfold applyDebtGuard at he
    split at he
    · obtain ⟨e₀, he₀, rfl⟩ := List.mem_map.mp he
      split
      · exact h e₀ he₀
      · simp [AltSpec.Unphased]
    · exact h e he
  intro o ho
  obtain ⟨a, ha, rfl⟩ := List.mem_map.mp ho
  obtain ⟨⟨e, i⟩, he, ha⟩ := List.mem_flatMap.mp ((List.mem_insertionSort _).mp ha)
  have he := hguarded e (List.fst_mem_of_mem_zipIdx he)
  unfold placeEntry at ha
  dsimp only at ha
  split at ha
  · split at ha
    · next guards hguards =>
      rcases List.mem_append.mp ha with ha | ha
      · obtain ⟨g, hg, rfl⟩ := List.mem_map.mp ha
        split at hguards
        · unfold synthKeywordGuards at hguards
          dsimp only at hguards
          split at hguards
          · cases hguards
          · split at hguards
            · cases hguards
            · obtain rfl := Option.some.inj hguards
              obtain ⟨u, -, rfl⟩ := List.mem_map.mp hg
              exact unphased_peekCopy he _ _
        · cases hguards
      · rwa [List.mem_singleton.mp ha]
    · rwa [List.mem_singleton.mp ha]
  · rwa [List.mem_singleton.mp ha]
  · rwa [List.mem_singleton.mp ha]

theorem unphased_exitEntries (h : o.Unphased) :
    ∀ e ∈ (exitEntries E prod o).1 ++ (exitEntries E prod o).2, e.o.Unphased := by
  intro e he
  unfold exitEntries at he
  split at he
  · rcases List.mem_append.mp he with he | he
    · obtain ⟨g, hg, rfl⟩ := List.mem_map.mp he
      unfold pairExitGuards at hg
      dsimp only at hg
      split at hg
      · cases hg
      · obtain ⟨s, -, rfl⟩ := List.mem_map.mp hg
        exact unphased_peekCopy h _ _
    · obtain ⟨tok, -, rfl⟩ := List.mem_map.mp he
      exact unphased_peekCopy h _ _
  · cases he

theorem unphased_singleAlternate (isLoop : Bool) (alt : Sequence) (seg : Segment) :
    (singleAlternate prod isLoop alt seg).Unphased := by
  unfold singleAlternate
  split <;> exact unphased_of_none rfl

theorem unphased_allSingleEntries {isLoop : Bool} :
    ∀ e ∈ allSingleEntries E prod isLoop, e.o.Unphased := by
  intro e he
  obtain ⟨alt, idx, -, he⟩ := mem_allSingleEntries.mp he
  unfold singleEntries at he
  dsimp only at he
  split at he
  · rw [List.nil_append] at he
    unfold refPeeks at he
    obtain ⟨s, -, rfl⟩ := List.mem_map.mp he
    exact unphased_of_none rfl
  · have hown : (singleAlternate prod isLoop alt (segmentOf E.tokens alt)).Unphased :=
      unphased_singleAlternate isLoop alt (segmentOf E.tokens alt)
    rcases List.mem_append.mp he with he | he
    · split at he
      · exact unphased_exitEntries hown e (List.mem_append_left _ he)
      · cases he
    · rcases List.mem_append.mp he with he | he
      · split at he
        · exact unphased_exitEntries hown e (List.mem_append_right _ he)
        · cases he
      · split at he
        · rwa [List.mem_singleton.mp he]
        · obtain ⟨tok, -, rfl⟩ := List.mem_map.mp he
          exact unphased_peekCopy hown _ _

theorem unphased_dispatchEntries {isLoop : Bool} {dispatch : List DispatchPrefixes}
    {entries : List Entry} (h : dispatchEntries diag E prod isLoop dispatch = .ok entries) :
    ∀ e ∈ entries, e.o.Unphased := by
  obtain ⟨content, hcontent, h⟩ := bind_eq_ok h
  have hflat : ∀ e ∈ content.flatten, e.o.Unphased := by
    intro e he
    obtain ⟨es, hes, he⟩ := List.mem_flatten.mp he
    obtain ⟨⟨⟨alt, d⟩, i⟩, -, hes⟩ := exists_left_of_forall₂ (mapM_eq_ok hcontent) hes
    dsimp only at hes
    unfold implEntries at hes
    split at hes
    · cases hes
      cases he
    · obtain ⟨peeks, -, hes⟩ := bind_eq_ok hes
      obtain rfl := Except.ok.inj hes
      obtain ⟨s, -, rfl⟩ := List.mem_map.mp he
      dsimp only
      split <;> exact unphased_of_none rfl
  have hnullable : ∀ e ∈ (prod.alts.zip dispatch).zipIdx.flatMap (fun x =>
      if !x.1.1.isEmpty && x.1.2.nullable && !isLoop then nullableEntries E prod x.2 else []),
      e.o.Unphased := by
    intro e he
    obtain ⟨x, -, he⟩ := List.mem_flatMap.mp he
    split at he
    · unfold nullableEntries at he
      rcases List.mem_append.mp he with he | he
      · obtain ⟨tok, -, rfl⟩ := List.mem_map.mp he
        exact unphased_of_none rfl
      · rw [List.mem_singleton.mp he]
        exact unphased_of_none rfl
    · cases he
  have hexit : ∀ e ∈ (exitEntries E prod {}).1 ++ (exitEntries E prod {}).2, e.o.Unphased :=
    unphased_exitEntries (unphased_of_none rfl)
  dsimp only at h
  split at h <;> obtain rfl := Except.ok.inj h <;> intro e he <;>
    simp only [List.mem_append, List.mem_singleton] at he
  · rcases he with (((he | he) | he) | he) | rfl
    · exact hexit e (List.mem_append_left _ he)
    · exact hflat e he
    · exact hnullable e he
    · exact hexit e (List.mem_append_right _ he)
    · exact unphased_of_none rfl
  · exact he.elim (hflat e) (hnullable e)

theorem settled_chainFrom {head : String} {segs : List Segment} :
    ∀ i, ∀ e ∈ chainFrom head i segs, e.2.settled = e.2 := by
  induction segs with
  | nil => exact fun i e he => absurd he List.not_mem_nil
  | cons seg segs ih =>
    intro i e he
    have hopen : ∀ o ∈ [segmentToAlt seg], o.Unphased := by
      simpa using unphased_of_none (o := segmentToAlt seg) rfl
    cases segs with
    | nil =>
      obtain rfl := List.mem_singleton.mp he
      refine RuleSpec.settled_eq hopen ?_
      dsimp only
      split <;> simp [captureClose, AltSpec.Unphased]
    | cons seg' segs =>
      rcases List.mem_cons.mp he with rfl | he
      · exact RuleSpec.settled_eq hopen (by simp [captureClose, AltSpec.Unphased])
      · exact ih (i + 1) e he

theorem unphased_loopEntry : (loopEntry prod).Unphased := by
  simp [loopEntry, AltSpec.Unphased]

/-- **Only dispatchers have alternates of phase 0.** -/
theorem Emitted.settled (h : Emitted diag E prod rules) (hpd : prod.probeDispatch = none) :
    ∀ e ∈ rules, e.2.settled = e.2 := by
  intro e he
  cases h with
  | probeHelper h =>
    obtain rfl := List.mem_singleton.mp he
    refine RuleSpec.settled_eq (fun o ho => ?_) (by simp [emitProbeHelper])
    rcases List.mem_append.mp ho with ho | ho
    · obtain ⟨el, -, hel⟩ := List.mem_filterMap.mp ho
      obtain ⟨tok, -, rfl⟩ := Option.map_eq_some_iff.mp hel
      exact unphased_of_none rfl
    · rw [List.mem_singleton.mp ho]
      exact unphased_of_none rfl
  | probeDispatch h hrule =>
    rw [hpd] at h
    cases h
  | tailRepeat h =>
    obtain rfl := List.mem_singleton.mp he
    exact RuleSpec.settled_eq (by simp [emitTailRepeat, segmentToAlt, AltSpec.Unphased])
      (by simp [emitTailRepeat, AltSpec.Unphased])
  | @single loopItem hitem hsome hsingle =>
    obtain rfl := List.mem_singleton.mp he
    have hplaced : ∀ o ∈ placeEntries E prod (allSingleEntries E prod loopItem.isSome),
        o.Unphased :=
      unphased_placeEntries unphased_allSingleEntries
    unfold singleRule
    dsimp only
    split
    · exact RuleSpec.settled_eq (List.forall_mem_cons.mpr ⟨unphased_loopEntry, hplaced⟩) (by simp)
    · refine RuleSpec.settled_eq hplaced ?_
      dsimp only
      split <;> simp [captureClose, AltSpec.Unphased]
  | chain halts => exact settled_chainFrom 0 e he
  | @dispatch loopItem dispatch impls entries hitem hsome hdispatch himpls hentries =>
    have hplaced : ∀ o ∈ placeEntries E prod entries, o.Unphased :=
      unphased_placeEntries (unphased_dispatchEntries hentries)
    rcases List.mem_append.mp he with he | he
    · obtain ⟨rs, hrs, he⟩ := List.mem_flatten.mp he
      obtain ⟨⟨alt, i⟩, hat, hemitted⟩ := exists_left_of_forall₂ himpls hrs
      cases hemitted with
      | empty => cases he
      | chain hne => exact settled_chainFrom 0 e he
      | loop hne hname =>
        simp only [List.mem_cons, List.not_mem_nil, or_false] at he
        rcases he with rfl | rfl <;>
          exact RuleSpec.settled_eq (by simp [AltSpec.Unphased]) (by simp [AltSpec.Unphased])
    · obtain rfl := List.mem_singleton.mp he
      dsimp only
      split
      · exact RuleSpec.settled_eq (List.forall_mem_cons.mpr ⟨unphased_loopEntry, hplaced⟩) (by simp)
      · exact RuleSpec.settled_eq hplaced (by simp [captureClose, AltSpec.Unphased])

/-! ## What the settled rules of a production stand for -/

/-- The rule of a tail repeat stands for the alternatives it is read as. -/
theorem stands_tailRepeat (h : TailOfTerminals prod) {tail : TailRepeatSpec}
    (htail : prod.tailRepeat = some tail) :
    Stands E prod.tailed [(prod.name, emitTailRepeat E prod tail)]
      [(prod.name, [.rule prod.name])] := by
  obtain ⟨pre, halts, hpre, hsep, htailed⟩ := h.tailed htail
  have hbodies := bodies_emitTailRepeat (E := E) halts hpre hsep
  rw [show (⟨tail.sep⟩ : TailRepeatSpec) = tail from rfl] at hbodies
  refine ⟨rfl, ?_, fun T hT hrefs k rule hmem β hβ => .inr ?_, fun L hL alt halt _ => ?_⟩
  · rw [prod.tailed_name]
    exact List.mem_singleton.mpr rfl
  · obtain ⟨rfl, rfl⟩ := Prod.mk.inj (List.mem_singleton.mp hmem)
    rw [hbodies] at hβ
    simp only [List.mem_cons, List.not_mem_nil, or_false] at hβ
    refine ⟨prod.tailed_name.symm, ?_⟩
    rcases hβ with rfl | rfl
    · exact ⟨_, by simp [htailed], unfold_syms (hrefs _ (by simp [htailed]))⟩
    · exact ⟨_, by simp [htailed], unfold_syms (hrefs _ (by simp [htailed]))⟩
  · rw [prod.tailed_name]
    refine hL _ _ (List.mem_singleton.mpr rfl) _ ?_
    rw [hbodies]
    rw [htailed] at halt
    simp only [List.mem_cons, List.not_mem_nil, or_false] at halt ⊢
    exact halt.symm.imp (congrArg _) (congrArg _)

/-- The settled rule of a dispatcher pushes one branch or the other. -/
theorem bodies_emitProbeDispatch {pd : ProbeDispatchSpec} {rule : RuleSpec}
    (h : emitProbeDispatch diag E prod pd = .ok rule) :
    rule.settled.bodies = [[.rule pd.withBranch], [.rule pd.noBranch]] := by
  unfold emitProbeDispatch at h
  split at h
  · cases h
  · obtain rfl := Except.ok.inj h
    rfl

/-- The alternatives of a dispatcher refer to its branches. -/
theorem mem_dispatcher_alts {pd : ProbeDispatchSpec} {alt : Sequence}
    (halts : prod.alts.map (·.map eraseDebt) =
      [[.reference pd.withBranch], [.reference pd.noBranch]]) (halt : alt ∈ prod.alts) :
    ∃ n, (n = pd.withBranch ∨ n = pd.noBranch) ∧ ∃ el, alt = [el] ∧ el.refName = some n := by
  have hmem := List.mem_map_of_mem (f := List.map eraseDebt) halt
  rw [halts] at hmem
  have hone : ∀ m, alt.map eraseDebt = [Element.reference m] → ∃ el, alt = [el] ∧
      el.refName = some m := by
    intro m hm
    obtain ⟨el, rfl, hel⟩ := List.map_eq_singleton_iff.mp hm
    refine ⟨el, rfl, ?_⟩
    cases el <;> simp_all [eraseDebt, Element.reference, Element.refName]
  simp only [List.mem_cons, List.not_mem_nil, or_false] at hmem
  rcases hmem with h | h
  · exact ⟨_, .inl rfl, hone _ h⟩
  · exact ⟨_, .inr rfl, hone _ h⟩

theorem exists_dispatcher_alt {pd : ProbeDispatchSpec} {n : String}
    (halts : prod.alts.map (·.map eraseDebt) =
      [[.reference pd.withBranch], [.reference pd.noBranch]])
    (hn : n = pd.withBranch ∨ n = pd.noBranch) :
    ∃ alt ∈ prod.alts, ∃ el, alt = [el] ∧ el.refName = some n := by
  have hmem : [Element.reference n] ∈ prod.alts.map (·.map eraseDebt) := by
    rw [halts]
    rcases hn with rfl | rfl <;> simp
  obtain ⟨alt, halt, heq⟩ := List.mem_map.mp hmem
  obtain ⟨el, rfl, hel⟩ := List.map_eq_singleton_iff.mp heq
  refine ⟨_, halt, el, rfl, ?_⟩
  cases el <;> simp_all [eraseDebt, Element.reference, Element.refName]

/-- The settled rule of a dispatcher stands for its branches. -/
theorem stands_dispatcher {pd : ProbeDispatchSpec} {rule : RuleSpec}
    (halts : prod.alts.map (·.map eraseDebt) =
      [[.reference pd.withBranch], [.reference pd.noBranch]])
    (h : emitProbeDispatch diag E prod pd = .ok rule) :
    Stands E prod [(prod.name, rule.settled)] [(prod.name, [.rule prod.name])] := by
  have hbodies := bodies_emitProbeDispatch h
  refine ⟨rfl, List.mem_singleton.mpr rfl, fun T hT hrefs k rule' hmem β hβ => .inr ?_,
    fun L hL alt halt _ => ?_⟩
  · obtain ⟨rfl, rfl⟩ := Prod.mk.inj (List.mem_singleton.mp hmem)
    rw [hbodies] at hβ
    obtain ⟨n, hn, rfl⟩ : ∃ n, (n = pd.withBranch ∨ n = pd.noBranch) ∧ β = [.rule n] := by
      simp only [List.mem_cons, List.not_mem_nil, or_false] at hβ
      exact hβ.elim (fun h => ⟨_, .inl rfl, h⟩) fun h => ⟨_, .inr rfl, h⟩
    obtain ⟨alt, halt, el, rfl, hel⟩ := exists_dispatcher_alt halts hn
    refine ⟨rfl, [el], halt, ?_⟩
    rw [List.map_singleton, sym_of_refName hel, List.flatMap_singleton]
    exact hrefs _ halt el (List.mem_singleton.mpr rfl) n hel
  · obtain ⟨n, hn, el, rfl, hel⟩ := mem_dispatcher_alts halts halt
    refine hL _ _ (List.mem_singleton.mpr rfl) _ ?_
    rw [hbodies, List.map_singleton, sym_of_refName hel]
    rcases hn with rfl | rfl <;> simp

theorem settledRules_eq (h : ∀ e ∈ rules, e.2.settled = e.2) : settledRules rules = rules := by
  unfold settledRules
  conv_rhs => rw [← List.map_id rules]
  exact List.map_congr_left fun e he => by rw [h e he, id]

/-- **Every path of the emitter but a probe's**: the settled rules stand for the production. -/
theorem stands_settled {ps : List Production} (h : emitRule diag E prod = .ok rules)
    (hflag : Flagged ps prod) (hhelper : prod.probeHelper = none) (htails : TailOfTerminals prod)
    (hplain : ∀ alt ∈ prod.alts, ∀ el ∈ alt, el.isTerminal = true ∨ el.isRef = true) :
    ∃ ts, Stands E prod.tailed (settledRules rules) ts := by
  have hemitted := emitRule_cases h
  unfold emitRule at h
  rw [hhelper] at h
  cases hpd : prod.probeDispatch with
  | some pd =>
    have htail : prod.tailRepeat = none := by
      by_contra hne
      have hnone := (hflag.tail (Option.isSome_iff_ne_none.mpr hne)).2
      rw [hpd] at hnone
      cases hnone
    rw [hpd] at h
    obtain ⟨rule, hrule, h⟩ := bind_eq_ok h
    obtain rfl := Except.ok.inj h
    rw [prod.tailed_of_none htail]
    exact ⟨_, stands_dispatcher (hflag.dispatch pd hpd).2.1 hrule⟩
  | none =>
    rw [settledRules_eq (hemitted.settled hpd)]
    cases htail : prod.tailRepeat with
    | none =>
      rw [prod.tailed_of_none htail]
      exact hemitted.stands hhelper hpd htail hplain
    | some tail =>
      rw [hpd] at h
      unfold emitProduction at h
      obtain ⟨-, -, h⟩ := bind_eq_ok h
      rw [htail] at h
      obtain rfl := Except.ok.inj h
      exact ⟨_, stands_tailRepeat htails htail⟩

end

/-! ## All rules together -/

section

variable {diag : String} {E : Emitter} {start : String} {rules : RuleTable}
  {ps : List Production}

theorem keys_settledRules (rules : RuleTable) :
    (settledRules rules).map Prod.fst = rules.map Prod.fst := by
  unfold settledRules
  rw [List.map_map]
  rfl

/-- What the emitter is given: marks that say what they should, alternatives of terminals and
references, and no reference to a probe. -/
structure Settles (E : Emitter) (ps : List Production) : Prop where
  nodup : E.grammar.names.Nodup
  plain : Plain E.grammar
  tails : ∀ q ∈ E.grammar.productions, TailOfTerminals q
  flagged : ∀ q ∈ E.grammar.productions, Flagged ps q
  subset : namesOf ps ⊆ E.grammar.names
  apart : ∀ q ∈ E.grammar.productions, ∀ n ∈ refsInAlts q.alts, n ∈ E.grammar.names →
    n ∈ plainNames E.grammar.productions

variable (diag) in
/-- A production that is no probe's, with the settled rules emitted for it. -/
def settledOf (E : Emitter) (targets : Production → List (String × List Sym)) (q : Production) :
    Standing := ⟨q.tailed, settledRules (rulesOf diag E q), targets q⟩

variable (E) in
/-- The productions that are no probe's. -/
def plainProductions : List Production := E.grammar.productions.filter (·.probeHelper.isNone)

theorem mem_plainProductions {q : Production} :
    q ∈ plainProductions E ↔ q ∈ E.grammar.productions ∧ q.probeHelper = none := by
  simp [plainProductions]

variable {targets : Production → List (String × List Sym)}

theorem tabled_settled (hs : Settles E ps) (hclash : Unclashing diag E)
    (h : emitRules diag E start = .ok rules)
    (htargets : ∀ q ∈ plainProductions E,
      Stands E q.tailed (settledRules (rulesOf diag E q)) (targets q)) :
    Tabled E (plainNames E.grammar.productions)
      ((plainProductions E).map (settledOf diag E targets)) (settledRules rules) := by
  obtain ⟨hrules, hall⟩ := emitRules_spec hs.nodup hclash h
  have hkeys := keys_nodup hs.nodup hclash h
  have hkeysOf : (((plainProductions E).map (settledOf diag E targets)).flatMap
      Standing.rules).map Prod.fst =
        (plainProductions E).flatMap fun q => (rulesOf diag E q).map Prod.fst := by
    rw [List.flatMap_map, List.map_flatMap]
    exact List.flatMap_congr fun q _ => keys_settledRules _
  have hunits : ∀ k, k ∈ (((plainProductions E).map (settledOf diag E targets)).flatMap
      Standing.rules).map Prod.fst →
        ∃ q ∈ plainProductions E, k ∈ (rulesOf diag E q).map Prod.fst := by
    intro k hk
    rw [hkeysOf] at hk
    exact List.mem_flatMap.mp hk
  constructor
  case stands =>
    intro u hu
    obtain ⟨q, hq, rfl⟩ := List.mem_map.mp hu
    exact htargets q hq
  case nodup =>
    rw [hkeysOf]
    rw [List.map_flatMap] at hkeys
    exact hkeys.sublist (List.filter_sublist.flatMap _)
  case lookup =>
    intro u hu k rule hmem
    obtain ⟨q, hq, rfl⟩ := List.mem_map.mp hu
    refine Table.lookup_of_mem (by rwa [keys_settledRules]) ?_
    obtain ⟨e, he, heq⟩ := List.mem_map.mp hmem
    refine List.mem_map.mpr ⟨e, ?_, heq⟩
    rw [hrules]
    exact List.mem_append_left _ (List.mem_flatMap.mpr ⟨q, (mem_plainProductions.mp hq).1, he⟩)
  case rows =>
    intro k rule hlookup
    obtain ⟨e, he, heq⟩ := List.mem_map.mp (Table.mem_of_lookup hlookup)
    obtain ⟨rfl, rfl⟩ := Prod.mk.inj heq
    rw [hrules] at he
    rcases List.mem_append.mp he with he | he
    · obtain ⟨p, hp, he⟩ := List.mem_flatMap.mp he
      by_cases hhelper : p.probeHelper = none
      · exact .inl ⟨_, List.mem_map_of_mem (mem_plainProductions.mpr ⟨hp, hhelper⟩),
          List.mem_map_of_mem he⟩
      · -- a probe's own rule, which takes the name of no other production
        have hname : e.1 = p.name := by
          obtain ⟨helper, hhelper⟩ := Option.ne_none_iff_exists'.mp hhelper
          have hrule := emitRule_eq_of_emitRules h hp
          unfold emitRule at hrule
          rw [hhelper] at hrule
          rw [← Except.ok.inj hrule] at he
          rw [List.mem_singleton.mp he]
        have hother : ∀ q ∈ E.grammar.productions, q.probeHelper = none → q.name ≠ e.1 := by
          intro q hq hnone hsame
          obtain rfl := List.inj_on_of_nodup_map hs.nodup hq hp (hsame.trans hname)
          exact hhelper hnone
        refine .inr ⟨fun hmem => ?_, fun hkey => ?_⟩
        · obtain ⟨q, hq, hnone, hsame⟩ := mem_plainNames.mp hmem
          exact hother q hq hnone hsame
        · obtain ⟨q, hq, hkey⟩ := hunits _ hkey
          obtain ⟨hq, hnone⟩ := mem_plainProductions.mp hq
          obtain ⟨e', he', hkey⟩ := List.mem_map.mp hkey
          refine hother q hq hnone (hkey ▸ (hclash q hq _ ?_ e' he' ?_).symm)
          · rw [emitRule_eq_of_emitRules h hq]
            rfl
          · rw [hkey, hname]
            exact mem_namesOf.mpr ⟨p, hp, rfl⟩
    · obtain rfl := List.mem_singleton.mp he
      refine .inr ⟨fun hmem => startWrapper_notMem E ?_, fun hkey => ?_⟩
      · obtain ⟨p, hp, -, hname⟩ := mem_plainNames.mp hmem
        exact mem_namesOf.mpr ⟨p, hp, hname⟩
      · obtain ⟨q, hq, hkey⟩ := hunits _ hkey
        rw [hrules, List.map_append, List.nodup_append] at hall
        refine absurd rfl (hall.2.2 _ ?_ _ (List.mem_singleton.mpr rfl))
        rw [List.map_flatMap]
        exact List.mem_flatMap.mpr ⟨q, (mem_plainProductions.mp hq).1, hkey⟩
  case named =>
    intro m hm
    obtain ⟨p, hp, hhelper, rfl⟩ := mem_plainNames.mp hm
    exact .inl ⟨_, List.mem_map_of_mem (mem_plainProductions.mpr ⟨hp, hhelper⟩), p.tailed_name⟩
  case own =>
    intro u hu
    obtain ⟨q, hq, rfl⟩ := List.mem_map.mp hu
    obtain ⟨hq, hhelper⟩ := mem_plainProductions.mp hq
    exact mem_plainNames.mpr ⟨q, hq, hhelper, q.tailed_name.symm⟩

/-- What the productions refer to, read so, are productions that are no probe's. -/
theorem Settles.refs (hs : Settles E ps) (h : emitRules diag E start = .ok rules) {q : Production}
    (hq : q ∈ plainProductions E) {alt : Sequence} (halt : alt ∈ q.tailed.alts) {el : Element}
    (hel : el ∈ alt) {m : String} (hm : el.refName = some m) :
    m ∈ plainNames E.grammar.productions := by
  obtain ⟨hq, hhelper⟩ := mem_plainProductions.mp hq
  have hrefs : m ∈ refsInAlts q.tailed.alts := by
    obtain ⟨debt, sp, rfl⟩ := Element.refName_eq_some.mp hm
    exact mem_refsInAlts.mpr ⟨alt, halt, mem_refsIn.mpr ⟨_, hel, List.mem_singleton.mpr rfl⟩⟩
  rcases refs_tailed (hs.tails q hq) hrefs with hrefs | rfl
  · refine hs.apart q hq m hrefs ?_
    obtain ⟨alt', halt', hin⟩ := mem_refsInAlts.mp hrefs
    obtain ⟨el', hel', hin⟩ := mem_refsIn.mp hin
    have hm' : el'.refName = some m := by
      rcases hs.plain q hq alt' halt' el' hel' with hterm | href
      · cases el' <;> simp_all [Element.isTerminal, Element.refs]
      · obtain ⟨m', hm'⟩ := Element.isRef_iff.mp href
        obtain ⟨debt, sp, rfl⟩ := Element.refName_eq_some.mp hm'
        rw [List.mem_singleton.mp hin]
        rfl
    cases hpd : q.probeDispatch with
    | none =>
      exact mem_names_of_emitRule (emitRule_eq_of_emitRules h hq) hhelper hpd halt' hel' hm'
    | some pd =>
      obtain ⟨-, halts, hwith, hno, -⟩ := (hs.flagged q hq).dispatch pd hpd
      obtain ⟨n, hn, el, rfl, hname⟩ := mem_dispatcher_alts halts halt'
      obtain rfl := List.mem_singleton.mp hel'
      obtain rfl := Option.some.inj (hm'.symm.trans hname)
      rcases hn with rfl | rfl
      · exact hs.subset hwith
      · exact hs.subset hno
  · exact mem_plainNames.mpr ⟨q, hq, hhelper, rfl⟩

/-- A probe derives nothing. -/
theorem produces_plainProductions (hs : Settles E ps) :
    produces E.tokens ((plainProductions E).map Production.tailed) =
      produces E.tokens E.grammar.tailed.productions := by
  funext s β
  cases s with
  | tok t => rfl
  | rule n =>
    refine propext ⟨?_, ?_⟩
    · rintro ⟨p, hp, rfl, alt, halt, rfl⟩
      exact ⟨p, List.map_subset _ List.filter_sublist.subset hp, rfl, alt, halt, rfl⟩
    · rintro ⟨p, hp, rfl, alt, halt, rfl⟩
      obtain ⟨q, hq, rfl⟩ := List.mem_map.mp hp
      refine ⟨q.tailed, List.mem_map_of_mem (mem_plainProductions.mpr ⟨hq, ?_⟩), rfl, alt, halt, rfl⟩
      obtain ⟨alt', halt', -⟩ := Production.subset_tailed halt
      by_contra hhelper
      rw [(hs.flagged q hq).helper (Option.isSome_iff_ne_none.mpr hhelper)] at halt'
      exact List.not_mem_nil halt'

/-- **The settled rules derive what the productions do**, tail repeats read as alternatives. -/
theorem ruleLang_settled (hs : Settles E ps) (hclash : Unclashing diag E)
    (h : emitRules diag E start = .ok rules)
    (hdead : ∀ m, E.sets.Dead m →
      Cf.lang (produces E.tokens E.grammar.tailed.productions) symLeaf (.rule m) = 0)
    {n : String} (hn : n ∈ plainNames E.grammar.productions) :
    ruleLang (settledRules rules) n =
      Cf.lang (produces E.tokens E.grammar.tailed.productions) symLeaf (.rule n) := by
  have hstands : ∀ q ∈ plainProductions E,
      ∃ ts, Stands E q.tailed (settledRules (rulesOf diag E q)) ts := by
    intro q hq
    obtain ⟨hq, hhelper⟩ := mem_plainProductions.mp hq
    exact stands_settled (emitRule_eq_of_emitRules h hq) (hs.flagged q hq) hhelper (hs.tails q hq)
      (hs.plain q hq)
  choose! targets htargets using hstands
  have htabled := tabled_settled hs hclash h htargets
  have hprods : ((plainProductions E).map (settledOf diag E targets)).map Standing.prod =
      (plainProductions E).map Production.tailed := by
    rw [List.map_map]
    rfl
  have hle := htabled.ruleLang_le (fun u hu alt halt el hel m hm => ?_) hn
  · have hge := htabled.le_ruleLang (by rwa [hprods, produces_plainProductions hs]) n
    rw [hprods, produces_plainProductions hs] at hle hge
    exact le_antisymm hle hge
  · obtain ⟨q, hq, rfl⟩ := List.mem_map.mp hu
    exact hs.refs h hq halt hel hm

end

end TabnasBnf
