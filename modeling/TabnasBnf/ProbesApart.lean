import TabnasBnf.Tailed

/-!
# Nothing refers to a probe

The rule of a probe is reached by its dispatcher's first alternate alone. Each pass refers to what
the grammar it is given did or to productions it mints, and of the productions of a dispatch only
the dispatcher and its branches are referred to.

* **`Compile.refs_apart`**: no reference of the grammar that is emitted names a probe.
-/

namespace TabnasBnf

/-- The names of the productions that are no probe's. -/
def plainNames (ps : List Production) : List String := namesOf (ps.filter (·.probeHelper.isNone))

theorem mem_plainNames {ps : List Production} {n : String} :
    n ∈ plainNames ps ↔ ∃ p ∈ ps, p.probeHelper = none ∧ p.name = n := by
  simp [plainNames, mem_namesOf, and_assoc]

theorem plainNames_append (ps qs : List Production) :
    plainNames (ps ++ qs) = plainNames ps ++ plainNames qs := by
  rw [plainNames, List.filter_append, namesOf_append]
  rfl

/-! ## Probe dispatch -/

section

variable {diag : String} {grammar : Grammar}

/-- The parts of an alternative refer to what it does. -/
theorem Splits.refs {alt : Sequence} {s : ProbeSplit} (h : Splits grammar alt s) :
    refsIn s.before ⊆ refsIn alt ∧ refsIn (s.x ++ [s.disambiguator] ++ s.y) ⊆ refsIn alt ∧
      refsIn s.y ⊆ refsIn alt := by
  obtain ⟨⟨sp, sp', hopt⟩, -⟩ := isProbeableOpt_eq h.optional
  rw [h.alt, hopt]
  simp only [refsIn_append, refsIn, Element.refs, refsInAlts, List.append_nil]
  refine ⟨fun n hn => ?_, fun n hn => ?_, fun n hn => ?_⟩ <;> simp_all

/-- The productions of a dispatch refer to what the alternative did, or to its branches. -/
theorem refs_probeProductions {alt : Sequence} {s : ProbeSplit} (h : Splits grammar alt s)
    (origin probe withName noName dispatch : String) :
    ∀ p ∈ probeProductions s origin probe withName noName dispatch, ∀ n ∈ refsInAlts p.alts,
      n ∈ refsIn alt ∨
        n ∈ plainNames (probeProductions s origin probe withName noName dispatch) := by
  obtain ⟨-, hwith, hno⟩ := h.refs
  intro p hp n hn
  simp only [probeProductions, List.mem_cons, List.not_mem_nil, or_false] at hp
  rcases hp with rfl | rfl | rfl | rfl
  · cases hn
  · exact .inl (hwith (by simpa [Production.helper, refsInAlts] using hn))
  · exact .inl (hno (by simpa [Production.helper, refsInAlts] using hn))
  · right
    simp only [Production.helper, refsInAlts, refsIn, Element.reference, Element.refs,
      List.append_nil, List.mem_append, List.mem_cons, List.not_mem_nil, or_false] at hn
    rcases hn with rfl | rfl <;> simp [plainNames, probeProductions, Production.helper, namesOf]

/-- What is added stays. -/
theorem adds_plainNames (n : String) :
    AddsProbes grammar (fun _ => True) fun extra => n ∈ plainNames extra := by
  intro extra alt s _ _ _ _ _ _ _ hn
  rw [plainNames_append]
  exact List.mem_append_left _ hn

theorem rewriteProbeAlt_refs {prod : Production} {alt : Sequence} {altIdx : Nat} {st : ProbeState}
    {r : Sequence × Bool × ProbeState} (h : rewriteProbeAlt diag grammar prod altIdx alt st = .ok r) :
    ∀ n ∈ refsIn r.1, n ∈ refsIn alt ∨ n ∈ plainNames r.2.2.extra := by
  unfold rewriteProbeAlt at h
  split at h
  · cases h
    exact fun n hn => .inl hn
  · next s hs =>
    have hsplit := probeSplit_spec [] alt hs
    rw [List.nil_append] at hsplit
    dsimp only at h
    split at h
    · cases h
    · cases h
      intro n hn
      rw [refsIn_append] at hn
      rcases List.mem_append.mp hn with hn | hn
      · exact .inl (hsplit.refs.1 hn)
      · right
        rw [plainNames_append]
        refine List.mem_append_right _ ?_
        rw [show n = _ from List.mem_singleton.mp hn]
        simp [plainNames, probeProductions, Production.helper, namesOf]

theorem rewriteProbeAlts_refs {prod : Production} : ∀ (alts : List Sequence) {altIdx : Nat}
    {st : ProbeState} {r : List Sequence × Bool × ProbeState},
      rewriteProbeAlts diag grammar prod altIdx alts st = .ok r →
      ∀ n ∈ refsInAlts r.1, n ∈ refsInAlts alts ∨ n ∈ plainNames r.2.2.extra
  | [], _, _, _, h => by
    obtain rfl := Except.ok.inj h
    exact fun n hn => absurd hn List.not_mem_nil
  | alt :: rest, _, st, _, h => by
    obtain ⟨⟨alt', touched, st₁⟩, halt, h⟩ := bind_eq_ok h
    obtain ⟨⟨rest', restTouched, st₂⟩, hrest, h⟩ := bind_eq_ok h
    obtain rfl := Except.ok.inj h
    intro n hn
    rcases List.mem_append.mp hn with hn | hn
    · rcases rewriteProbeAlt_refs halt n hn with hn | hn
      · exact .inl (List.mem_append_left _ hn)
      · have hkept := rewriteProbeAlts_extra (adds_plainNames n) rest (fun _ _ => trivial) hn hrest
        exact .inr hkept
    · exact (rewriteProbeAlts_refs rest hrest n hn).imp_left (List.mem_append_right _)

theorem rewriteProbeProductions_refs : ∀ (ps : List Production) {st : ProbeState}
    {r : List Production × ProbeState}, rewriteProbeProductions diag grammar ps st = .ok r →
      ∀ p ∈ r.1, ∀ n ∈ refsInAlts p.alts,
        (∃ q ∈ ps, n ∈ refsInAlts q.alts) ∨ n ∈ plainNames r.2.extra
  | [], _, _, h => by
    obtain rfl := Except.ok.inj h
    exact fun p hp => absurd hp List.not_mem_nil
  | prod :: rest, _, _, h => by
    obtain ⟨⟨alts, touched, st₁⟩, halts, h⟩ := bind_eq_ok h
    obtain ⟨⟨rest', st₂⟩, hrest, h⟩ := bind_eq_ok h
    obtain rfl := Except.ok.inj h
    intro p hp n hn
    rcases List.mem_cons.mp hp with rfl | hp
    · cases touched with
      | false => exact .inl ⟨prod, List.mem_cons_self, hn⟩
      | true =>
        rcases rewriteProbeAlts_refs prod.alts halts n hn with hn | hn
        · exact .inl ⟨prod, List.mem_cons_self, hn⟩
        · have hkept := rewriteProbeProductions_extra (adds_plainNames n) rest
            (fun _ _ _ _ => trivial) hn hrest
          exact .inr hkept
    · rcases rewriteProbeProductions_refs rest hrest p hp n hn with ⟨q, hq, hn⟩ | hn
      · exact .inl ⟨q, List.mem_cons_of_mem _ hq, hn⟩
      · exact .inr hn

/-- **The rewriting of probes** refers to what the grammar did, or to productions that are no
probe's. -/
theorem rewriteProbeDispatches_refs {g' : Grammar}
    (h : rewriteProbeDispatches diag grammar = .ok g') :
    ∀ n ∈ g'.refs, n ∈ grammar.refs ∨ n ∈ plainNames g'.productions := by
  obtain ⟨⟨rewritten, st⟩, hrun, h⟩ := bind_eq_ok h
  obtain rfl := Except.ok.inj h
  have hextra := rewriteProbeProductions_extra (A := fun alt => refsIn alt ⊆ grammar.refs)
    (Q := fun extra => ∀ p ∈ extra, ∀ n ∈ refsInAlts p.alts,
      n ∈ grammar.refs ∨ n ∈ plainNames extra)
    (fun extra alt s halt hs origin probe withName noName dispatch hextra p hp n hn => ?_) _
    (fun p hp => within_of_mem_refs hp) (fun _ hp => absurd hp List.not_mem_nil) hrun
  · intro n hn
    rw [plainNames_append]
    obtain ⟨p, hp, hn⟩ := List.mem_flatMap.mp hn
    rcases List.mem_append.mp hp with hp | hp
    · rcases rewriteProbeProductions_refs _ hrun p hp n hn with ⟨q, hq, hn⟩ | hn
      · exact .inl (List.mem_flatMap.mpr ⟨q, hq, hn⟩)
      · exact .inr (List.mem_append_right _ hn)
    · exact (hextra p hp n hn).imp_right (List.mem_append_right _)
  · rw [plainNames_append]
    have hsplit := probeSplit_spec [] alt hs
    rw [List.nil_append] at hsplit
    rcases List.mem_append.mp hp with hp | hp
    · exact (hextra p hp n hn).imp_right (List.mem_append_left _)
    · exact (refs_probeProductions hsplit origin probe withName noName dispatch p hp n hn).imp
        (fun hn => halt hn) (List.mem_append_right _)

end

/-! ## Factoring -/

section

variable {diag : String} {lower upper : Char → Char} {grammar : Grammar}

/-- A reference of the grammar, or a name it does not have. -/
def OldOrMinted (grammar : Grammar) (n : String) : Prop := n ∈ grammar.refs ∨ n ∉ grammar.names

theorem factorAlts_refs {prodName prodOrigin : String} : ∀ (fuel : Nat) {alts : List Sequence}
    {used : List String} {r : List Sequence × List Production × List String},
      grammar.names ⊆ used → (∀ n ∈ refsInAlts alts, OldOrMinted grammar n) →
      factorAlts diag lower upper grammar prodName prodOrigin fuel alts used = .ok r →
      (∀ n ∈ refsInAlts r.1, OldOrMinted grammar n) ∧
        ∀ q ∈ r.2.1, ∀ n ∈ refsInAlts q.alts, OldOrMinted grammar n
  | 0, _, _, _, _, halts, h => by
    cases h
    exact ⟨halts, fun _ hq => absurd hq List.not_mem_nil⟩
  | fuel + 1, alts, used, _, hused, halts, h => by
    obtain ⟨next, honce, h⟩ := bind_eq_ok h
    cases next with
    | none =>
      cases h
      exact ⟨halts, fun _ hq => absurd hq List.not_mem_nil⟩
    | some f =>
      obtain ⟨⟨alts', queued, used'⟩, hrest, h⟩ := bind_eq_ok h
      cases h
      have hspec : StepSpec (fun _ => (0 : Language Unit)) grammar prodName alts used f :=
        factorOnce_spec (fun _ _ _ _ _ => rfl) honce
      have hold : ∀ n ∈ refsInAlts alts ++ grammar.refs, OldOrMinted grammar n := fun n hn =>
        (List.mem_append.mp hn).elim (halts n) .inl
      have hf : ∀ n ∈ refsInAlts f.alts, OldOrMinted grammar n := by
        intro n hn
        rcases List.mem_append.mp (hspec.refs hn) with hn | hn
        · exact hold n hn
        · obtain ⟨q, hq, rfl⟩ := mem_namesOf.mp hn
          right
          rw [hspec.name q (Option.mem_toList.mp hq)]
          exact fun hmem => freshFactName_notMem _ _ (hused hmem)
      obtain ⟨hrefs, hqueued⟩ := factorAlts_refs fuel
        (fun n hn => List.mem_append_left _ (hused hn)) hf hrest
      refine ⟨hrefs, fun q hq => ?_⟩
      rcases List.mem_append.mp hq with hq | hq
      · exact fun n hn => hold n (hspec.helperRefs q (Option.mem_toList.mp hq) hn)
      · exact hqueued q hq

theorem factorQueue_refs : ∀ (fuel : Nat) (queue : List Production) (used : List String)
    (out : List Production) {res : List Production}, grammar.names ⊆ used →
      factorQueue diag lower upper grammar fuel queue used out = some (.ok res) →
      (∀ p ∈ out ++ queue, ∀ n ∈ refsInAlts p.alts, OldOrMinted grammar n) →
      ∀ p ∈ res, ∀ n ∈ refsInAlts p.alts, OldOrMinted grammar n
  | fuel, [], used, out, res, _, h, hps => by
    unfold factorQueue at h
    cases h
    simpa using hps
  | 0, _ :: _, _, _, res, _, h, _ => by cases h
  | fuel + 1, prod :: queue, used, out, res, hused, h, hps => by
    unfold factorQueue at h
    split at h
    · exact factorQueue_refs fuel queue used _ hused h (by simpa using hps)
    · split at h
      · cases h
      · next alts queued used' hfactored =>
        obtain ⟨hgrown, -⟩ := factorAlts_fresh _ _ _ hfactored
        obtain ⟨halts, hqueued⟩ := factorAlts_refs _ hused
          (hps prod (List.mem_append_right _ List.mem_cons_self)) hfactored
        refine factorQueue_refs fuel (queue ++ queued) used' _
          (fun n hn => hgrown (hused hn)) h fun p hp => ?_
        simp only [List.mem_append, List.mem_singleton] at hp
        rcases hp with (hp | rfl) | hp | hp
        · exact hps p (List.mem_append_left _ hp)
        · exact halts
        · exact hps p (List.mem_append_right _ (List.mem_cons_of_mem _ hp))
        · exact hqueued p hp

/-- **Factoring** refers to what the grammar did, or to productions it mints. -/
theorem leftFactor_refs {fuel : Nat} {g' : Grammar}
    (h : leftFactor diag lower upper grammar fuel = some (.ok g')) :
    ∀ n ∈ g'.refs, OldOrMinted grammar n := by
  obtain ⟨r, hr, h⟩ := Option.map_eq_some_iff.mp h
  cases r with
  | error e => cases h
  | ok res =>
    cases h
    intro n hn
    obtain ⟨p, hp, hn⟩ := List.mem_flatMap.mp hn
    exact factorQueue_refs fuel _ _ [] (List.Subset.refl _) hr
      (fun p hp n hn => .inl (List.mem_flatMap.mpr ⟨p, hp, hn⟩)) p hp n hn

end

/-! ## Desugaring -/

/-- **Desugaring** refers to what the grammar did, or to productions it mints. -/
theorem desugar_refs {G G' : Grammar} (hp : ∀ p ∈ G.productions, ProperAlts p.alts)
    (hcap : ∀ n ∈ G.refs, n ∈ G'.names → n ∈ G.names) (h : desugar G = .ok G') :
    ∀ n ∈ G'.refs, OldOrMinted G n := by
  obtain ⟨⟨rewritten, d⟩, hrun, h⟩ := bind_eq_ok h
  obtain rfl := Except.ok.inj h
  obtain ⟨⟨ps, hps⟩, -⟩ := Desugar.productions_grown _ hrun
  have hextra : d.extra = ps := by simpa using hps.extra
  have hspares : Desugar.Spares G.refs d := by
    intro n hn href
    have hmint : n ∈ namesOf (rewritten ++ d.extra) := by
      rw [namesOf_append]
      exact List.mem_append_right _ hn
    exact hps.fresh n (hextra ▸ hn) (hcap n href hmint)
  have hreserved := Desugar.productions_reserve G.productions (r := (rewritten, d)) hspares hrun
  obtain ⟨r, hr, -, -, qs, hm, hR, hex⟩ :=
    Desugar.productions_spec (τ := fun _ => (0 : Language Unit)) G.productions (U := G.refs)
      (d := ({ extra := [], used := G.names, origin := "" } : Desugar).reserve G.refs) hp
      (fun p hp => within_iff.mp (within_of_mem_refs hp)) (List.subset_append_left _ _)
  obtain rfl := Except.ok.inj (hreserved.symm.trans hr)
  have hqs : d.extra = qs := by simpa [Desugar.reserve] using hm.extra
  -- the names minted are none of the grammar's
  have hscope : ∀ n ∈ G.refs ++ namesOf qs, OldOrMinted G n := by
    intro n hn
    refine (List.mem_append.mp hn).imp_right fun hn hmem => ?_
    exact hm.fresh n hn (List.mem_append_right _ hmem)
  intro n hn
  obtain ⟨p, hp, hn⟩ := List.mem_flatMap.mp hn
  rcases List.mem_append.mp hp with hp | hp
  · exact hscope n (hR (List.mem_flatMap.mpr ⟨p, hp, hn⟩))
  · exact hscope n (hex.closed p (hqs ▸ hp) hn)

/-! ## In a compile -/

namespace Compile

variable {S : Setting} {grammar : Grammar} (c : Compile S grammar)

/-- The names of the rules of probes. -/
def probeNames : List String :=
  namesOf (c.desugared.productions.filter (·.probeHelper.isSome))

theorem mem_probeNames {n : String} : n ∈ c.probeNames ↔
    ∃ p ∈ c.desugared.productions, p.probeHelper.isSome = true ∧ p.name = n := by
  simp [probeNames, mem_namesOf, and_assoc]

/-- A probe of the grammar that is emitted was minted with its dispatch. -/
theorem probe_of_mem {n : String} (hn : n ∈ c.probeNames) :
    ∃ p ∈ c.probed.productions, p.probeHelper.isSome = true ∧ p.name = n := by
  obtain ⟨q, hq, hhelper, rfl⟩ := c.mem_probeNames.mp hn
  have hfactored : ∀ p ∈ c.factored.productions, p.probeHelper.isSome = true →
      ∃ p' ∈ c.probed.productions, p'.probeHelper.isSome = true ∧ p'.name = p.name := by
    refine leftFactor_forall (P := fun p => p.probeHelper.isSome = true →
      ∃ p' ∈ c.probed.productions, p'.probeHelper.isSome = true ∧ p'.name = p.name)
      (fun _ _ _ _ h => by cases h) (fun p alts hfree _ h => ?_) (fun p hp h => ⟨p, hp, h, rfl⟩)
      c.factor_eq
    simp only [isRewritten, Bool.or_eq_false_iff] at hfree
    rw [show p.probeHelper.isSome = true from h] at hfree
    cases hfree.1.2
  rcases desugar_from c.desugar_eq q hq with hminted | ⟨p, hp, hto⟩
  · rw [hminted.probeHelper] at hhelper
    cases hhelper
  · obtain ⟨p₀, hp₀, rfl⟩ := List.mem_map.mp hp
    rw [hto.probeHelper] at hhelper
    rw [hto.name]
    rcases rewriteTailRepeat_shape c.start p₀ with heq | ⟨pre, sep, -, heq⟩ <;>
    · rw [heq] at hhelper ⊢
      exact hfactored p₀ hp₀ hhelper

/-- The name of a probe was free. -/
theorem probe_fresh (hnd : grammar.names.Nodup) {n : String} (hn : n ∈ c.probeNames) :
    n ∉ c.normalized.names := by
  obtain ⟨p, hp, hhelper, rfl⟩ := c.probe_of_mem hn
  rw [← c.eliminated_names hnd]
  have heliminated : ∀ p ∈ c.eliminated.productions, p.probeHelper = none :=
    eliminate_forall (fun _ _ => rfl) c.eliminate_eq
  obtain ⟨⟨rewritten, st⟩, hrun, h⟩ := bind_eq_ok c.probe_eq
  have hprobed := Except.ok.inj h
  obtain ⟨-, new, hnew, htaken⟩ := rewriteProbeProductions_names _ hrun
  rw [← hprobed] at hp
  rcases List.mem_append.mp hp with hp | hp
  · rw [rewriteProbeProductions_forall (P := fun p => p.probeHelper = none) (fun _ _ => rfl) _
      heliminated hrun p hp] at hhelper
    cases hhelper
  · exact htaken.fresh p.name (by simpa [hnew] using mem_namesOf.mpr ⟨p, hp, rfl⟩)

/-- **No reference names a probe**, unless a production takes the name of a reference that named
none. -/
theorem refs_apart (hnd : grammar.names.Nodup) (hcap : c.Uncaptured) {n : String}
    (hn : n ∈ c.desugared.refs) : n ∉ c.probeNames := by
  intro hprobe
  obtain ⟨p, hp, hhelper, rfl⟩ := c.probe_of_mem hprobe
  obtain ⟨-, -, hdesugar⟩ := c.refs_passes hnd hcap
  have hprobed : p.name ∈ c.probed.names := mem_namesOf.mpr ⟨p, hp, rfl⟩
  have hfactored := c.factored_subset hprobed
  -- back through the passes, none of which mints a name the grammar had
  have hn := (desugar_refs (proper_of_validated c.validate_eq c.desugar_eq) hdesugar c.desugar_eq
    p.name hn).resolve_right fun h => h (by rwa [rewriteTailRepeats_names])
  have hn := (leftFactor_refs c.factor_eq p.name (rewriteTailRepeats_refs _ _ hn)).resolve_right
    fun h => h hprobed
  rcases rewriteProbeDispatches_refs c.probe_eq p.name hn with hn | hn
  · have hrefs : c.eliminated.refs ⊆ c.normalized.refs := eliminate_refs c.eliminate_eq
    exact c.probe_fresh hnd hprobe (hcap _ (hrefs hn) (c.desugared_subset hfactored))
  · obtain ⟨q, hq, hnone, hname⟩ := mem_plainNames.mp hn
    obtain rfl := List.inj_on_of_nodup_map c.probed_nodup hq hp hname
    rw [hnone] at hhelper
    cases hhelper

end Compile

end TabnasBnf
