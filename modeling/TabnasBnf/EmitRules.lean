import TabnasBnf.EmitEntries
import TabnasBnf.EmitNames

/-!
# The rules one production comes out as

`emitRule_cases` says once what `emit_production` and the emission of the probes can produce:
`Emitted` has one case for each of the paths, with what was checked on it. What follows is read off
its cases: the names of the rules are those `Generated` allows and are distinct
(`Emitted.generated`, `Emitted.nodup_keys`).
-/

namespace TabnasBnf

/-- The alternatives of a repeat loop over an item: the item and the loop again, or nothing. -/
structure LoopOf (prod : Production) (item : Element) : Prop where
  length : prod.alts.length = 2
  empty : [] ∈ prod.alts
  alts : ∀ alt ∈ prod.alts, alt = [] ∨ ∃ self, self.isRefTo prod.name = true ∧ alt = [item, self]
  debt : ∀ name debt sp, item = .ref name debt sp → debt = none

section

variable {diag : String} {E : Emitter} {prod : Production} {rules : RuleTable}

theorem loopOf_of_loopItemOf {item : Element} (h : loopItemOf diag prod = .ok item) :
    LoopOf prod item := by
  unfold loopItemOf at h
  split at h
  · next item' self hcond hfind =>
    rw [ite_eq_iff] at h
    obtain ⟨hself, h⟩ := h.resolve_right fun h => by cases h.2
    cases h
    simp only [Bool.and_eq_true, beq_iff_eq, List.any_eq_true] at hcond hself
    obtain ⟨hlen, e, he, hempty⟩ := hcond
    obtain rfl := List.isEmpty_iff.mp hempty
    refine ⟨hlen, he, fun alt halt => ?_, ?_⟩
    · -- of two alternatives one is empty, the other one is the one found
      by_cases hne : alt = []
      · exact .inl hne
      · refine .inr ⟨self, hself.1, ?_⟩
        match hab : prod.alts, hlen with
        | [a, b], _ =>
          rw [hab] at hfind he halt
          simp only [List.mem_cons, List.not_mem_nil, or_false] at he halt
          rcases he with rfl | rfl <;> rcases halt with rfl | rfl <;>
            first | exact absurd rfl hne | simpa [hne] using hfind
    · rintro name debt sp rfl
      simpa using hself.2
  · cases h

/-- The rules of one alternative of a dispatcher. -/
inductive EmittedAlt (E : Emitter) (prod : Production) (i : Nat) :
    Option Element → Sequence → RuleTable → Prop
  | empty {loopItem} : EmittedAlt E prod i loopItem [] []
  | loop {alt item itemName} (halt : alt ≠ []) (hitem : item.refName = some itemName) :
      EmittedAlt E prod i (some item) alt
        [(altName prod.name i, ⟨[{ p := some itemName, n := some [(loopCounter, 0)] }],
          some [{ r := some (stepName (altName prod.name i) 1), n := some [(loopCounter, 1)] }]⟩),
         (stepName (altName prod.name i) 1, ⟨[{ r := some prod.name }], none⟩)]
  | chain {alt} (halt : alt ≠ []) :
      EmittedAlt E prod i none alt (chainFrom (altName prod.name i) 0 (segmentize E.tokens alt))

theorem emittedAlt_of_implRules {loopItem : Option Element} {i : Nat} {alt : Sequence}
    (h : implRules diag E prod loopItem i alt = .ok rules) :
    EmittedAlt E prod i loopItem alt rules := by
  unfold implRules at h
  split at h
  · next hempty =>
    obtain rfl := List.isEmpty_iff.mp hempty
    cases h
    exact .empty
  · next hne =>
    have halt : alt ≠ [] := by simpa using hne
    split at h
    · next item =>
      unfold emitRepeatLoop at h
      split at h
      · cases h
      · next itemName hitem =>
        cases h
        exact .loop halt hitem
    · unfold emitChain at h
      cases h
      exact .chain halt

/-- The rules a production comes out as, one case for each path of the emitter. -/
inductive Emitted (diag : String) (E : Emitter) (prod : Production) : RuleTable → Prop
  | probeHelper {helper} (h : prod.probeHelper = some helper) :
      Emitted diag E prod [(prod.name, emitProbeHelper E prod helper)]
  | probeDispatch {pd rule} (h : prod.probeDispatch = some pd)
      (hrule : emitProbeDispatch diag E prod pd = .ok rule) :
      Emitted diag E prod [(prod.name, rule)]
  | tailRepeat {tail} (h : prod.tailRepeat = some tail) :
      Emitted diag E prod [(prod.name, emitTailRepeat E prod tail)]
  | single {loopItem : Option Element} (hitem : ∀ item ∈ loopItem, LoopOf prod item)
      (hloop : loopItem.isSome = prod.repeatLoop)
      (hsingle : ∀ alt ∈ prod.alts, isSingleSegment alt = true) :
      Emitted diag E prod [(prod.name, singleRule E prod loopItem.isSome)]
  | chain {alt} (halts : prod.alts = [alt]) :
      Emitted diag E prod (chainFrom prod.name 0 (segmentize E.tokens alt))
  | dispatch {loopItem : Option Element} {dispatch impls entries}
      (hitem : ∀ item ∈ loopItem, LoopOf prod item)
      (hloop : loopItem.isSome = prod.repeatLoop)
      (hdispatch : dispatchPrefixes E.grammar E.tokens E.contest.classSets E.contest.headsContest
        lookaheadK (exitPaths E prod) prod.alts = some dispatch)
      (himpls : List.Forall₂ (fun (x : Sequence × Nat) rs => EmittedAlt E prod x.2 loopItem x.1 rs)
        prod.alts.zipIdx impls)
      (hentries : dispatchEntries diag E prod loopItem.isSome dispatch = .ok entries) :
      Emitted diag E prod (impls.flatten ++ [(prod.name,
        if loopItem.isSome then ⟨loopEntry prod :: placeEntries E prod entries, none⟩
        else ⟨placeEntries E prod entries, some [captureClose none]⟩)])

/-- The item of a production marked as a loop. -/
theorem loopOf_of_repeatLoop {loopItem : Option Element}
    (h : (if prod.repeatLoop = true then some <$> loopItemOf diag prod else pure none) =
      Except.ok loopItem) :
    (∀ item ∈ loopItem, LoopOf prod item) ∧ loopItem.isSome = prod.repeatLoop := by
  split at h
  · next hrl =>
    cases hitem : loopItemOf diag prod with
    | error err =>
      rw [hitem] at h
      cases h
    | ok item =>
      rw [hitem] at h
      cases h
      refine ⟨fun item' h => ?_, hrl.symm⟩
      cases h
      exact loopOf_of_loopItemOf hitem
  · next hrl =>
    cases h
    exact ⟨fun _ h => absurd h (Option.not_mem_none _), by simpa using hrl⟩

theorem chain_of_emitChain {head origin : String} {alt : Sequence} {value : Option ValueAnnotation}
    {nested : Option (List Bool)} {sp : Option SrcSpan}
    (h : emitChain diag E head alt origin value nested sp = .ok rules) :
    rules = chainFrom head 0 (segmentize E.tokens alt) := by
  unfold emitChain at h
  dsimp only at h
  split at h
  · obtain ⟨-, -, h⟩ := bind_eq_ok h
    exact (Except.ok.inj h).symm
  · exact (Except.ok.inj h).symm

theorem emitted_of_dispatchRules {loopItem : Option Element}
    (hitem : ∀ item ∈ loopItem, LoopOf prod item) (hloop : loopItem.isSome = prod.repeatLoop)
    (h : dispatchRules diag E prod loopItem = .ok rules) : Emitted diag E prod rules := by
  unfold dispatchRules at h
  split at h
  · next dispatch hdispatch =>
    obtain ⟨impls, himpls, h⟩ := bind_eq_ok h
    obtain ⟨entries, hentries, h⟩ := bind_eq_ok h
    obtain rfl := Except.ok.inj h
    refine .dispatch hitem hloop hdispatch ?_ hentries
    exact (mapM_eq_ok himpls).imp fun x rs hrs => emittedAlt_of_implRules hrs
  · cases h

/-- The references of alternatives that were checked name productions. -/
theorem mem_names_of_forM {alts : List Sequence}
    (h : (alts.forM fun alt => validateRefs diag E alt prod.name) = .ok ()) {alt : Sequence}
    (halt : alt ∈ alts) {el : Element} (hel : el ∈ alt) {m : String} (hm : el.refName = some m) :
    m ∈ E.grammar.names := by
  induction alts with
  | nil => cases halt
  | cons first alts ih =>
    obtain ⟨_, hfirst, hrest⟩ := bind_eq_ok h
    rcases List.mem_cons.mp halt with rfl | halt
    · unfold validateRefs at hfirst
      dsimp only at hfirst
      split at hfirst
      · cases hfirst
      · next hfind =>
        have := List.find?_eq_none.mp hfind el hel
        simpa [hm] using this
    · exact ih hrest halt

/-- **What the emission of a production comes to.** -/
theorem emitRule_cases (h : emitRule diag E prod = .ok rules) : Emitted diag E prod rules := by
  unfold emitRule at h
  split at h
  · next helper hhelper =>
    cases h
    exact .probeHelper hhelper
  · next pd _ hpd =>
    obtain ⟨rule, hrule, h⟩ := bind_eq_ok h
    cases h
    exact .probeDispatch hpd hrule
  · unfold emitProduction at h
    obtain ⟨-, -, h⟩ := bind_eq_ok h
    dsimp only at h
    split at h
    · next tail htail =>
      cases h
      exact .tailRepeat htail
    · split at h <;> obtain ⟨loopItem, hloopItem, h⟩ := bind_eq_ok h
      all_goals
        obtain ⟨hitem, hloop⟩ := @loopOf_of_repeatLoop diag prod loopItem
          (by split <;> first | exact hloopItem | contradiction)
        split at h
        · next hsingle =>
          cases h
          simp only [Bool.and_eq_true, List.all_eq_true] at hsingle
          exact .single hitem hloop hsingle.1.1
        · split at h
          · next alt halts =>
            obtain rfl := chain_of_emitChain h
            exact .chain halts
          · split at h
            · cases h
            · exact emitted_of_dispatchRules hitem hloop h

/-- A production that is no probe's refers to productions alone. -/
theorem mem_names_of_emitRule (h : emitRule diag E prod = .ok rules)
    (hhelper : prod.probeHelper = none) (hdispatch : prod.probeDispatch = none) {alt : Sequence}
    (halt : alt ∈ prod.alts) {el : Element} (hel : el ∈ alt) {m : String}
    (hm : el.refName = some m) : m ∈ E.grammar.names := by
  unfold emitRule at h
  rw [hhelper, hdispatch] at h
  unfold emitProduction at h
  obtain ⟨_, hforM, -⟩ := bind_eq_ok h
  exact mem_names_of_forM hforM halt hel hm

/-! ## The names of the rules -/

theorem keys_chainFrom (head : String) (segs : List Segment) :
    ∀ i, (chainFrom head i segs).map Prod.fst =
      (List.range' i segs.length).map (chainName head) := by
  induction segs with
  | nil => exact fun i => rfl
  | cons seg segs ih =>
    intro i
    cases segs with
    | nil => rfl
    | cons seg' segs =>
      rw [List.length_cons, List.range'_succ, List.map_cons, ← ih (i + 1)]
      rfl

/-- The names of the rules of one alternative: the alternative's, and those of later steps. -/
theorem keys_emittedAlt {loopItem : Option Element} {i : Nat} {alt : Sequence}
    (h : EmittedAlt E prod i loopItem alt rules) :
    rules = [] ∨ ∃ n, rules.map Prod.fst =
      (List.range' 0 (n + 1)).map (chainName (altName prod.name i)) := by
  cases h with
  | empty => exact .inl rfl
  | loop halt hitem => exact .inr ⟨1, rfl⟩
  | chain halt =>
    refine .inr ⟨(segmentize E.tokens alt).length - 1, ?_⟩
    have hpos : 0 < (segmentize E.tokens alt).length :=
      List.length_pos_iff.mpr (segmentize_ne_nil alt)
    rw [keys_chainFrom, show (segmentize E.tokens alt).length - 1 + 1 =
      (segmentize E.tokens alt).length by omega]

theorem mem_chainNames {head k : String} {n : Nat}
    (h : k ∈ (List.range' 0 (n + 1)).map (chainName head)) :
    k = head ∨ ∃ i, k = stepName head i := by
  obtain ⟨i, -, rfl⟩ := List.mem_map.mp h
  unfold chainName
  split
  · exact .inl rfl
  · exact .inr ⟨i, rfl⟩

theorem head_mem_chainNames (head : String) (n : Nat) :
    head ∈ (List.range' 0 (n + 1)).map (chainName head) :=
  List.mem_map.mpr ⟨0, by simp, rfl⟩

/-- The rules of the alternatives, one table for each. -/
theorem emittedAlt_get {loopItem : Option Element} {impls : List RuleTable}
    (h : List.Forall₂ (fun (x : Sequence × Nat) rs => EmittedAlt E prod x.2 loopItem x.1 rs)
      prod.alts.zipIdx impls) {i : Nat} {rs : RuleTable} (hrs : impls[i]? = some rs) :
    ∃ alt, prod.alts[i]? = some alt ∧ EmittedAlt E prod i loopItem alt rs := by
  obtain ⟨hi, rfl⟩ := List.getElem?_eq_some_iff.mp hrs
  have hi' : i < prod.alts.zipIdx.length := by rwa [h.length_eq]
  have hget := h.get hi' hi
  simp only [List.get_eq_getElem, List.getElem_zipIdx, Nat.zero_add] at hget
  have hlt : i < prod.alts.length := by simpa using hi'
  exact ⟨prod.alts[i], List.getElem?_eq_getElem hlt, hget⟩

/-- **The names a production generates.** -/
theorem Emitted.generated (h : Emitted diag E prod rules) :
    Generated prod.name (rules.map Prod.fst) := by
  have hself : ∀ rule : RuleSpec, Generated prod.name ([(prod.name, rule)].map Prod.fst) :=
    fun rule => ⟨fun k hk => .inl (List.mem_singleton.mp hk)⟩
  cases h with
  | probeHelper h => exact hself _
  | probeDispatch h hrule => exact hself _
  | tailRepeat h => exact hself _
  | single hitem hloop hsingle => exact hself _
  | @chain alt halts =>
    refine ⟨fun k hk => ?_⟩
    rw [keys_chainFrom] at hk ⊢
    obtain ⟨i, hi, rfl⟩ := List.mem_map.mp hk
    by_cases h0 : i = 0
    · exact .inl (by rw [h0]; rfl)
    · refine .inr (.inr ⟨prod.name, i, by rw [chainName, if_neg h0], ?_, .inl rfl⟩)
      have hlt := (List.mem_range'_1.mp hi).2
      exact List.mem_map.mpr ⟨0, List.mem_range'_1.mpr ⟨Nat.le_refl _, by omega⟩, rfl⟩
  | dispatch hitem hloop hdispatch himpls hentries =>
    refine ⟨fun k hk => ?_⟩
    rw [List.map_append, List.mem_append] at hk
    rcases hk with hk | hk
    · obtain ⟨e, he, rfl⟩ := List.mem_map.mp hk
      obtain ⟨rs, hrs, he⟩ := List.mem_flatten.mp he
      obtain ⟨i, hi⟩ := List.mem_iff_getElem?.mp hrs
      obtain ⟨alt, -, hemitted⟩ := emittedAlt_get himpls hi
      rcases keys_emittedAlt hemitted with rfl | ⟨n, hn⟩
      · cases he
      · have hmem := List.mem_map_of_mem (f := Prod.fst) he
        rw [hn] at hmem
        rcases mem_chainNames hmem with h | ⟨j, h⟩
        · exact .inr (.inl ⟨i, h⟩)
        · refine .inr (.inr ⟨altName prod.name i, j, h, ?_, .inr ⟨i, rfl⟩⟩)
          rw [List.map_append, List.map_flatten]
          refine List.mem_append_left _ (List.mem_flatten.mpr ⟨_, List.mem_map_of_mem hrs, ?_⟩)
          rw [hn]
          exact head_mem_chainNames _ _
    · exact .inl (List.mem_singleton.mp hk)

theorem nodup_chainNames (head : String) (i n : Nat) :
    ((List.range' i n).map (chainName head)).Nodup :=
  List.Nodup.map (chainName_injective head) List.nodup_range'

/-- **No name is generated twice** by one production. -/
theorem Emitted.nodup_keys (h : Emitted diag E prod rules) : (rules.map Prod.fst).Nodup := by
  cases h with
  | probeHelper h => exact List.nodup_singleton _
  | probeDispatch h hrule => exact List.nodup_singleton _
  | tailRepeat h => exact List.nodup_singleton _
  | single hitem hloop hsingle => exact List.nodup_singleton _
  | @chain alt halts =>
    rw [keys_chainFrom]
    exact nodup_chainNames _ _ _
  | @dispatch loopItem dispatch impls entries hitem hloop hdispatch himpls hentries =>
    -- the names of an alternative hold its number
    have hat : ∀ (i : Nat) (rs : RuleTable) (k : String), impls[i]? = some rs →
        k ∈ rs.map Prod.fst → k = altName prod.name i ∨ ∃ j, k = stepName (altName prod.name i) j := by
      intro i rs k hi hk
      obtain ⟨alt, -, hemitted⟩ := emittedAlt_get himpls hi
      rcases keys_emittedAlt hemitted with rfl | ⟨n, hn⟩
      · cases hk
      · rw [hn] at hk
        exact mem_chainNames hk
    rw [List.map_append, List.nodup_append, List.map_flatten, List.nodup_flatten]
    refine ⟨⟨fun ks hks => ?_, ?_⟩, List.nodup_singleton _, ?_⟩
    · obtain ⟨rs, hrs, rfl⟩ := List.mem_map.mp hks
      obtain ⟨i, hi⟩ := List.mem_iff_getElem?.mp hrs
      obtain ⟨alt, -, hemitted⟩ := emittedAlt_get himpls hi
      rcases keys_emittedAlt hemitted with rfl | ⟨n, hn⟩
      · exact List.nodup_nil
      · rw [hn]
        exact nodup_chainNames _ _ _
    · rw [List.pairwise_map, List.pairwise_iff_getElem]
      intro i j hi hj hij k hki hkj
      have hne : altName prod.name i ≠ altName prod.name j := fun h => by
        have := (altName_inj.mp h).2
        omega
      rcases hat i _ k (List.getElem?_eq_getElem hi) hki with rfl | ⟨a, rfl⟩ <;>
        rcases hat j _ _ (List.getElem?_eq_getElem hj) hkj with h | ⟨b, h⟩
      · exact hne h
      · exact altName_ne_stepName _ _ _ _ h
      · exact altName_ne_stepName _ _ _ _ h.symm
      · exact hne (stepName_inj.mp h).1
    · intro k hk k' hk'
      obtain rfl := List.mem_singleton.mp hk'
      obtain ⟨ks, hks, hk⟩ := List.mem_flatten.mp hk
      obtain ⟨rs, hrs, rfl⟩ := List.mem_map.mp hks
      obtain ⟨i, hi⟩ := List.mem_iff_getElem?.mp hrs
      rintro rfl
      rcases hat i rs _ hi hk with h | ⟨j, h⟩
      · exact altName_ne_self _ _ h.symm
      · have hlen := congrArg List.length (congrArg String.toList h)
        rw [toList_stepName, toList_altName] at hlen
        simp at hlen

/-! ## The rules of a grammar -/

variable (diag E) in
/-- No rule generated for a production takes the name of another. -/
def Unclashing : Prop :=
  ∀ p ∈ E.grammar.productions, ∀ rules ∈ (emitRule diag E p).toOption,
    ∀ e ∈ rules, e.1 ∈ E.grammar.names → e.1 = p.name

instance : Decidable (Unclashing diag E) := by
  unfold Unclashing
  infer_instance

variable (diag E) in
/-- The rules of one production, none where it is refused. -/
def rulesOf (p : Production) : RuleTable := (emitRule diag E p).toOption.getD []

variable (E) in
/-- The start wrapper's rule. -/
def wrapperRule (start : String) : String × RuleSpec :=
  (startWrapper E, ⟨[{ p := some start }], some [{ s := ["#ZZ"] }]⟩)

theorem emitRule_eq_of_emitRules {start : String} (h : emitRules diag E start = .ok rules)
    {p : Production} (hp : p ∈ E.grammar.productions) :
    emitRule diag E p = .ok (rulesOf diag E p) := by
  unfold emitRules at h
  obtain ⟨ruless, hruless, -⟩ := bind_eq_ok h
  obtain ⟨rs, -, hrs⟩ := exists_right_of_forall₂ (mapM_eq_ok hruless) hp
  unfold rulesOf
  rw [hrs]
  rfl

/-- The rules of the productions are written one after the other, and the start wrapper's last. -/
theorem emitRules_eq {start : String} (h : emitRules diag E start = .ok rules) :
    rules = Table.insert (Table.insertAll [] (E.grammar.productions.flatMap (rulesOf diag E)))
      (startWrapper E) (wrapperRule E start).2 := by
  unfold emitRules at h
  obtain ⟨ruless, hruless, h⟩ := bind_eq_ok h
  have hall : List.Forall₂ (· = ·) ruless (E.grammar.productions.map (rulesOf diag E)) := by
    rw [List.forall₂_map_right_iff]
    refine List.Forall₂.flip ((mapM_eq_ok hruless).imp fun p rs hrs => ?_)
    show rs = rulesOf diag E p
    unfold rulesOf
    rw [hrs]
    rfl
  rw [List.forall₂_eq_eq_eq] at hall
  rw [List.flatMap_def, ← hall]
  exact (Except.ok.inj h).symm

theorem keys_nodup {start : String} (hnd : E.grammar.names.Nodup) (hclash : Unclashing diag E)
    (h : emitRules diag E start = .ok rules) :
    ((E.grammar.productions.flatMap (rulesOf diag E)).map Prod.fst).Nodup := by
  have hemitted : ∀ p ∈ E.grammar.productions, Emitted diag E p (rulesOf diag E p) :=
    fun p hp => emitRule_cases (emitRule_eq_of_emitRules h hp)
  have hfresh : ∀ p ∈ E.grammar.productions, ∀ k ∈ (rulesOf diag E p).map Prod.fst,
      k ∈ E.grammar.names → k = p.name := by
    intro p hp k hk hmem
    obtain ⟨e, he, rfl⟩ := List.mem_map.mp hk
    exact hclash p hp _ (by rw [emitRule_eq_of_emitRules h hp]; rfl) e he hmem
  rw [List.map_flatMap, List.nodup_flatMap]
  refine ⟨fun p hp => (hemitted p hp).nodup_keys, ?_⟩
  have hpairs : E.grammar.productions.Pairwise fun p q => p.name ≠ q.name :=
    List.pairwise_map.mp hnd
  refine hpairs.imp_of_mem fun {p q} hp hq hne k hkp hkq => hne ?_
  exact (hemitted p hp).generated.eq_of_shared (hemitted q hq).generated
    (mem_namesOf.mpr ⟨p, hp, rfl⟩) (mem_namesOf.mpr ⟨q, hq, rfl⟩) (hfresh p hp) (hfresh q hq) hkp hkq

/-- **The rules of a grammar**: those of its productions one after the other, and the start wrapper,
all of distinct names. -/
theorem emitRules_spec {start : String} (hnd : E.grammar.names.Nodup)
    (hclash : Unclashing diag E) (h : emitRules diag E start = .ok rules) :
    rules = E.grammar.productions.flatMap (rulesOf diag E) ++ [wrapperRule E start] ∧
      (rules.map Prod.fst).Nodup := by
  have hkeys := keys_nodup hnd hclash h
  have hwrapper : startWrapper E ∉
      (E.grammar.productions.flatMap (rulesOf diag E)).map Prod.fst := by
    rw [List.map_flatMap]
    intro hmem
    obtain ⟨p, hp, hk⟩ := List.mem_flatMap.mp hmem
    by_cases hname : startWrapper E = p.name
    · exact startWrapper_notMem E (hname ▸ mem_namesOf.mpr ⟨p, hp, rfl⟩)
    · exact (emitRule_cases (emitRule_eq_of_emitRules h hp)).generated.ne_wrapperName hk hname _ rfl
  have hrules : rules = E.grammar.productions.flatMap (rulesOf diag E) ++ [wrapperRule E start] := by
    rw [emitRules_eq h, Table.insertAll_of_nodup (by rwa [List.nil_append]), List.nil_append,
      Table.insert_of_notMem hwrapper]
    rfl
  refine ⟨hrules, ?_⟩
  rw [hrules, List.map_append, List.nodup_append]
  refine ⟨hkeys, List.nodup_singleton _, fun k hk k' hk' => ?_⟩
  obtain rfl := List.mem_singleton.mp hk'
  rintro rfl
  exact hwrapper hk

end

end TabnasBnf
