import TabnasBnf.Desugared
import TabnasBnf.EmptyInput
import TabnasBnf.PassKeeps
import TabnasBnf.TailCorrect

/-!
# Tail repeats as alternatives

A production marked as a tail repeat stands for two alternatives: its prefix, and its prefix, the
separator and the production again (`Production.tailed`). Read so, the rewriting of tails keeps the
language, and desugaring does not look at the mark.

* **`Compile.tailed_lang`**: what desugaring leaves, read so, derives what the factored grammar does.
* `Compile.flagged`: the probes of a desugared grammar, and the branches their dispatchers choose
  between.
-/

namespace TabnasBnf

variable {T : Type*} {τ : Element → Language T}

/-! ## The reading -/

/-- The production with the mark of a tail repeat read as the alternatives it stands for. -/
def Production.tailed (p : Production) : Production :=
  match p.tailRepeat with
  | none => p
  | some tail => { p with
      alts := p.alts ++ p.alts.map fun pre => pre ++ tail.sep ++ [.reference p.name]
      tailRepeat := none }

/-- The grammar with its tail repeats read as alternatives. -/
def Grammar.tailed (g : Grammar) : Grammar :=
  { g with productions := g.productions.map Production.tailed }

theorem Production.tailed_of_none {p : Production} (h : p.tailRepeat = none) : p.tailed = p := by
  unfold Production.tailed
  rw [h]

theorem Production.tailed_alts {p : Production} {tail : TailRepeatSpec}
    (h : p.tailRepeat = some tail) : p.tailed.alts =
      p.alts ++ p.alts.map fun pre => pre ++ tail.sep ++ [.reference p.name] := by
  unfold Production.tailed
  rw [h]

@[simp] theorem Production.tailed_name (p : Production) : p.tailed.name = p.name := by
  unfold Production.tailed
  split <;> rfl

theorem namesOf_tailed (ps : List Production) : namesOf (ps.map Production.tailed) = namesOf ps := by
  unfold namesOf
  rw [List.map_map]
  exact List.map_congr_left fun p _ => p.tailed_name

@[simp] theorem Grammar.tailed_names (g : Grammar) : g.tailed.names = g.names :=
  namesOf_tailed g.productions

/-- An alternative of the reading holds one of the production. -/
theorem Production.subset_tailed {p : Production} {alt : Sequence} (h : alt ∈ p.tailed.alts) :
    ∃ alt' ∈ p.alts, alt' ⊆ alt := by
  cases htail : p.tailRepeat with
  | none =>
    rw [p.tailed_of_none htail] at h
    exact ⟨alt, h, List.Subset.refl _⟩
  | some tail =>
    rw [p.tailed_alts htail] at h
    rcases List.mem_append.mp h with h | h
    · exact ⟨alt, h, List.Subset.refl _⟩
    · obtain ⟨pre, hpre, rfl⟩ := List.mem_map.mp h
      refine ⟨pre, hpre, fun el hel => ?_⟩
      simp [hel]

/-- The alternatives of a tail repeat of terminals. -/
theorem TailOfTerminals.tailed {p : Production} (h : TailOfTerminals p) {tail : TailRepeatSpec}
    (htail : p.tailRepeat = some tail) : ∃ pre, p.alts = [pre] ∧ (∀ el ∈ pre, el.isTerminal = true) ∧
      (∀ el ∈ tail.sep, el.isTerminal = true) ∧
      p.tailed.alts = [pre, pre ++ tail.sep ++ [.reference p.name]] := by
  obtain ⟨pre, halts, -, hterm⟩ := h tail htail
  refine ⟨pre, halts, fun el hel => hterm el (by simp [hel]), fun el hel => hterm el (by simp [hel]),
    ?_⟩
  rw [p.tailed_alts htail, halts]
  rfl

theorem TailOfTerminals.simple {p : Production} (h : TailOfTerminals p) {tail : TailRepeatSpec}
    (htail : p.tailRepeat = some tail) : SimpleAlts p.alts ∧ SimpleAlts p.tailed.alts := by
  obtain ⟨pre, halts, hpre, hsep, htailed⟩ := h.tailed htail
  rw [halts, htailed]
  have hsimple : ∀ el ∈ pre, el.isSimple = true := fun el hel => by simp [Element.isSimple, hpre el hel]
  have hsimple' : ∀ el ∈ tail.sep, el.isSimple = true := fun el hel => by
    simp [Element.isSimple, hsep el hel]
  constructor
  · simpa [SimpleAlts] using hsimple
  · intro α hα el hel
    simp only [List.mem_cons, List.not_mem_nil, or_false] at hα
    rcases hα with rfl | rfl
    · exact hsimple el hel
    · simp only [List.mem_append, List.mem_singleton] at hel
      rcases hel with (hel | hel) | rfl
      · exact hsimple el hel
      · exact hsimple' el hel
      · rfl

/-! ## The rewriting of tails -/

/-- Productions whose alternatives come to the same derive the same. -/
theorem nameLang_map {G : List Production} {f : Production → Production}
    (hname : ∀ p ∈ G, (f p).name = p.name)
    (hden : ∀ p ∈ G, ∀ ρ : Env T, altsDen τ ρ (f p).alts = altsDen τ ρ p.alts) (n : String) :
    nameLang τ (G.map f) n = nameLang τ G n := by
  refine nameLang_eq (fun q hq => ?_) (fun p hp => ?_) n
  · obtain ⟨p, hp, rfl⟩ := List.mem_map.mp hq
    rw [hden p hp, hname p hp]
    exact solves_nameLang p hp
  · rw [← hden p hp, ← hname p hp]
    exact solves_nameLang (f p) (List.mem_map_of_mem hp)

/-- **The rewriting of tails keeps the language**, the marks read as alternatives. -/
theorem rewriteTailRepeats_tailed {g : Grammar} (h : ∀ p ∈ g.productions, p.tailRepeat = none)
    (start n : String) :
    nameLang τ (rewriteTailRepeats g start).tailed.productions n = nameLang τ g.productions n := by
  have hmap : (rewriteTailRepeats g start).tailed.productions =
      g.productions.map fun p => (rewriteTailRepeat start p).tailed := List.map_map
  rw [hmap]
  refine nameLang_map (fun p hp => ?_) (fun p hp ρ => ?_) n <;>
    rcases rewriteTailRepeat_shape start p with heq | ⟨pre, sep, hshape, heq⟩
  · rw [heq, p.tailed_of_none (h p hp)]
  · rw [heq]
    rfl
  · rw [heq, p.tailed_of_none (h p hp)]
  · rw [heq, altsDen_tailShape hshape]
    simp [Production.tailed]

/-! ## Desugaring -/

namespace Desugar

/-- Desugaring does not look at the marks. -/
theorem productions_tailed : ∀ (ps : List Production) {d : Desugar} {r : List Production × Desugar},
    (∀ p ∈ ps, TailOfTerminals p) → productions d ps = .ok r →
      productions d (ps.map Production.tailed) = .ok (r.1.map Production.tailed, r.2)
  | [], _, _, _, h => by
    obtain rfl := Except.ok.inj h
    rfl
  | p :: ps, d, _, hps, h => by
    obtain ⟨⟨alts, d₁⟩, halts, h⟩ := bind_eq_ok h
    obtain ⟨⟨rest, d₂⟩, hrest, h⟩ := bind_eq_ok h
    obtain rfl := Except.ok.inj h
    obtain ⟨hp, hps⟩ := List.forall_mem_cons.mp hps
    have hrest' := productions_tailed ps hps hrest
    cases htail : p.tailRepeat with
    | none =>
      rw [List.map_cons, p.tailed_of_none htail, productions, halts]
      show (productions d₁ (ps.map Production.tailed) >>= fun r => _) = _
      rw [hrest']
      refine congrArg (fun q => Except.ok (q :: rest.map Production.tailed, d₂)) ?_
      rw [htail]
      rfl
    | some tail =>
      obtain ⟨hsimple, hsimple'⟩ := hp.simple htail
      rw [altList_of_simple p.alts hsimple] at halts
      obtain ⟨rfl, rfl⟩ := Prod.mk.inj (Except.ok.inj halts)
      have horigin : p.tailed.originOf = p.originOf := by
        unfold Production.tailed
        rw [htail]
        rfl
      rw [List.map_cons, productions, altList_of_simple p.tailed.alts hsimple', horigin]
      show (productions { d with origin := p.originOf } (ps.map Production.tailed) >>= fun r => _) = _
      rw [hrest']
      unfold Production.tailed
      rw [htail]
      rfl

end Desugar

theorem desugar_tailed {g g' : Grammar} (hg : ∀ p ∈ g.productions, TailOfTerminals p)
    (h : desugar g = .ok g') : desugar g.tailed = .ok g'.tailed := by
  obtain ⟨⟨rewritten, d⟩, hrun, h⟩ := bind_eq_ok h
  obtain rfl := Except.ok.inj h
  obtain ⟨-, hd⟩ := Desugar.productions_simple g.productions
    (fun p hp => absurd hp List.not_mem_nil) hg hrun
  have hextra : d.extra.map Production.tailed = d.extra :=
    (List.map_congr_left fun p hp => p.tailed_of_none (hd p hp).2).trans (List.map_id _)
  unfold desugar
  rw [g.tailed_names]
  show (Desugar.productions _ (g.productions.map Production.tailed) >>= fun r => _) = _
  rw [Desugar.productions_tailed g.productions hg hrun]
  show Except.ok _ = Except.ok _
  unfold Grammar.tailed
  rw [List.map_append, hextra]

theorem properSeq_of_simple : ∀ {α : List Element}, (∀ el ∈ α, el.isSimple = true) → ProperSeq α
  | [], _ => trivial
  | el :: α, h => by
    obtain ⟨hel, hα⟩ := List.forall_mem_cons.mp h
    refine ⟨?_, properSeq_of_simple hα⟩
    cases el <;> trivial

theorem properAlts_of_simple : ∀ {alts : List (List Element)}, SimpleAlts alts → ProperAlts alts
  | [], _ => trivial
  | α :: alts, h => by
    obtain ⟨hα, halts⟩ := List.forall_mem_cons.mp h
    exact ⟨properSeq_of_simple hα, properAlts_of_simple halts⟩

theorem refs_tailed {p : Production} (h : TailOfTerminals p) {n : String}
    (hn : n ∈ refsInAlts p.tailed.alts) : n ∈ refsInAlts p.alts ∨ n = p.name := by
  cases htail : p.tailRepeat with
  | none =>
    rw [p.tailed_of_none htail] at hn
    exact .inl hn
  | some tail =>
    obtain ⟨pre, -, hpre, hsep, htailed⟩ := h.tailed htail
    rw [htailed] at hn
    right
    simpa [refsInAlts, refsIn_append, refsIn_of_terminals hpre, refsIn_of_terminals hsep, refsIn,
      Element.reference, Element.refs] using hn

/-! ## Probes -/

/-- What the probe and tail marks of a production say about it, and about the productions `ps` it
was split off among. -/
structure Flagged (ps : List Production) (p : Production) : Prop where
  helper : p.probeHelper.isSome = true → p.alts = []
  /-- A dispatcher refers to its branches, which are productions, as is its probe. -/
  dispatch : ∀ pd ∈ p.probeDispatch, p.probeHelper = none ∧
    p.alts.map (·.map eraseDebt) = [[.reference pd.withBranch], [.reference pd.noBranch]] ∧
    pd.withBranch ∈ namesOf ps ∧ pd.noBranch ∈ namesOf ps ∧
    ∃ q ∈ ps, q.probeHelper.isSome = true ∧ q.name = pd.probeRule
  tail : p.tailRepeat.isSome = true → p.probeHelper = none ∧ p.probeDispatch = none

section

variable {ps : List Production} {p : Production}

theorem Flagged.of_none (hhelper : p.probeHelper = none) (hdispatch : p.probeDispatch = none) :
    Flagged ps p := by
  refine ⟨fun h => ?_, fun pd hpd => ?_, fun _ => ⟨hhelper, hdispatch⟩⟩
  · rw [hhelper] at h
    cases h
  · rw [hdispatch] at hpd
    cases hpd

theorem Flagged.mono {qs : List Production} (h : Flagged ps p) (hsub : ps ⊆ qs) :
    Flagged qs p where
  helper := h.helper
  tail := h.tail
  dispatch pd hpd := by
    obtain ⟨hhelper, halts, hwith, hno, q, hq, hprobe⟩ := h.dispatch pd hpd
    exact ⟨hhelper, halts, List.map_subset _ hsub hwith, List.map_subset _ hsub hno, q, hsub hq,
      hprobe⟩

/-- A production with the same marks, and the same alternatives where a probe is marked. -/
theorem Flagged.of_same {q : Production} (h : Flagged ps p) (htail : q.tailRepeat = p.tailRepeat)
    (hhelper : q.probeHelper = p.probeHelper) (hdispatch : q.probeDispatch = p.probeDispatch)
    (hnil : p.alts = [] → q.alts = [])
    (halts : ∀ x y, p.alts.map (·.map eraseDebt) = [[.reference x], [.reference y]] →
      q.alts.map (·.map eraseDebt) = [[.reference x], [.reference y]]) : Flagged ps q where
  helper hq := hnil (h.helper (hhelper ▸ hq))
  tail hq := by
    rw [hhelper, hdispatch]
    exact h.tail (htail ▸ hq)
  dispatch pd hpd := by
    obtain ⟨hp, hsame, hrest⟩ := h.dispatch pd (hdispatch ▸ hpd)
    exact ⟨hhelper.trans hp, halts _ _ hsame, hrest⟩

theorem Flagged.sameRule {q : Production} (h : Flagged ps p) (hsame : SameRule p q) : Flagged ps q :=
  h.of_same hsame.tailRepeat hsame.probeHelper hsame.probeDispatch
    (fun hnil => by simpa [hnil] using hsame.alts) (fun _ _ halts => hsame.alts.trans halts)

end

/-- The productions of a dispatch carry the marks of it. -/
theorem flagged_probeProductions (s : ProbeSplit)
    (origin probe withName noName dispatch : String) :
    ∀ p ∈ probeProductions s origin probe withName noName dispatch,
      Flagged (probeProductions s origin probe withName noName dispatch) p := by
  intro p hp
  simp only [probeProductions, List.mem_cons, List.not_mem_nil, or_false] at hp
  rcases hp with rfl | rfl | rfl | rfl
  · exact ⟨fun _ => rfl, fun _ h => absurd h (Option.not_mem_none _), fun h => by cases h⟩
  · exact .of_none rfl rfl
  · exact .of_none rfl rfl
  · refine ⟨fun h => (by cases h), fun pd hpd => ?_, fun h => by cases h⟩
    obtain rfl := Option.some.inj hpd
    exact ⟨rfl, rfl, by simp [namesOf, probeProductions, Production.helper],
      by simp [namesOf, probeProductions, Production.helper], _, List.mem_cons_self, rfl, rfl⟩

theorem rewriteProbeDispatches_flagged {diag : String} {grammar g' : Grammar}
    (hg : ∀ p ∈ grammar.productions, p.probeHelper = none ∧ p.probeDispatch = none)
    (h : rewriteProbeDispatches diag grammar = .ok g') :
    ∀ p ∈ g'.productions, Flagged g'.productions p := by
  obtain ⟨⟨rewritten, st⟩, hrun, h⟩ := bind_eq_ok h
  obtain rfl := Except.ok.inj h
  have hextra := rewriteProbeProductions_extra (A := fun _ => True)
    (Q := fun extra => ∀ p ∈ extra, Flagged extra p)
    (fun extra alt s _ _ origin probe withName noName dispatch hextra p hp => ?_) _
    (fun _ _ _ _ => trivial) (fun _ hp => absurd hp List.not_mem_nil) hrun
  · intro p hp
    rcases List.mem_append.mp hp with hp | hp
    · obtain ⟨hhelper, hdispatch⟩ := rewriteProbeProductions_forall
        (P := fun p => p.probeHelper = none ∧ p.probeDispatch = none) (fun _ _ => ⟨rfl, rfl⟩) _ hg
        hrun p hp
      exact .of_none hhelper hdispatch
    · exact (hextra p hp).mono (List.subset_append_right _ _)
  · rcases List.mem_append.mp hp with hp | hp
    · exact (hextra p hp).mono (List.subset_append_left _ _)
    · exact (flagged_probeProductions s _ _ _ _ _ p hp).mono (List.subset_append_right _ _)

/-- What desugaring leaves of a production that it does not mint. -/
structure DesugaredTo (p q : Production) : Prop where
  name : q.name = p.name
  tailRepeat : q.tailRepeat = p.tailRepeat
  probeHelper : q.probeHelper = p.probeHelper
  probeDispatch : q.probeDispatch = p.probeDispatch
  alts : SimpleAlts p.alts → q.alts = p.alts

theorem Desugar.productions_from : ∀ (ps : List Production) {d : Desugar}
    {r : List Production × Desugar}, (∀ p ∈ d.extra, DesugarHelper p) → productions d ps = .ok r →
      (∀ p ∈ r.2.extra, DesugarHelper p) ∧ List.Forall₂ DesugaredTo ps r.1
  | [], _, _, hd, h => by
    obtain rfl := Except.ok.inj h
    exact ⟨hd, .nil⟩
  | p :: ps, d, _, hd, h => by
    obtain ⟨⟨alts, d₁⟩, halts, h⟩ := bind_eq_ok h
    obtain ⟨⟨rest, d₂⟩, hrest, h⟩ := bind_eq_ok h
    obtain rfl := Except.ok.inj h
    obtain ⟨qs, hqs, hminted⟩ := (altList_mints p.alts (List.Subset.refl _) halts).1
    have hd₁ : ∀ q ∈ d₁.extra, DesugarHelper q := by
      intro q hq
      rw [hqs] at hq
      exact (List.mem_append.mp hq).elim (hd q) fun hq => (hminted q hq).1
    obtain ⟨hd₂, hrest⟩ := productions_from ps hd₁ hrest
    refine ⟨hd₂, .cons ⟨rfl, rfl, rfl, rfl, fun hsimple => ?_⟩ hrest⟩
    rw [altList_of_simple p.alts hsimple] at halts
    exact (congrArg Prod.fst (Except.ok.inj halts)).symm

/-- **Where the productions of a desugared grammar come from.** -/
theorem desugar_from {g g' : Grammar} (h : desugar g = .ok g') :
    ∀ q ∈ g'.productions, DesugarHelper q ∨ ∃ p ∈ g.productions, DesugaredTo p q := by
  obtain ⟨⟨rewritten, d⟩, hrun, h⟩ := bind_eq_ok h
  obtain rfl := Except.ok.inj h
  obtain ⟨hd, hall⟩ := Desugar.productions_from g.productions
    (fun p hp => absurd hp List.not_mem_nil) hrun
  intro q hq
  rcases List.mem_append.mp hq with hq | hq
  · exact .inr (exists_left_of_forall₂ hall hq)
  · exact .inl (hd q hq)

theorem Flagged.desugaredTo {ps : List Production} {p q : Production} (h : Flagged ps p)
    (hto : DesugaredTo p q) : Flagged ps q := by
  refine h.of_same hto.tailRepeat hto.probeHelper hto.probeDispatch (fun hnil => ?_)
    fun x y halts => ?_
  · rw [hto.alts (by simp [hnil, SimpleAlts]), hnil]
  · rw [hto.alts ?_, halts]
    intro α hα el hel
    have hmem : el.isSimple = (eraseDebt el).isSimple := by cases el <;> rfl
    have hα' := List.mem_map_of_mem (f := List.map eraseDebt) hα
    rw [halts] at hα'
    have hel' := List.mem_map_of_mem (f := eraseDebt) hel
    rw [hmem]
    simp only [List.mem_cons, List.not_mem_nil, or_false] at hα'
    rcases hα' with hα' | hα' <;>
    · rw [hα'] at hel'
      rw [List.mem_singleton.mp hel']
      rfl

namespace Compile

variable {S : Setting} {grammar : Grammar} (c : Compile S grammar)

/-- Before the rewriting of tails no production is marked as a tail repeat. -/
theorem factored_flagged : ∀ p ∈ c.factored.productions,
    p.tailRepeat = none ∧ Flagged c.probed.productions p := by
  have heliminated : ∀ p ∈ c.eliminated.productions,
      p.probeHelper = none ∧ p.probeDispatch = none ∧ p.tailRepeat = none :=
    eliminate_forall (fun _ _ => ⟨rfl, rfl, rfl⟩) c.eliminate_eq
  have hflagged := rewriteProbeDispatches_flagged
    (fun p hp => ⟨(heliminated p hp).1, (heliminated p hp).2.1⟩) c.probe_eq
  have htail : ∀ p ∈ c.probed.productions, p.tailRepeat = none :=
    rewriteProbeDispatches_forall (fun _ _ => rfl) (fun _ s _ _ _ _ _ _ p hp => by
      simp only [probeProductions, List.mem_cons, List.not_mem_nil, or_false] at hp
      rcases hp with rfl | rfl | rfl | rfl <;> rfl) (fun p hp => (heliminated p hp).2.2) c.probe_eq
  refine leftFactor_forall (P := fun p => p.tailRepeat = none ∧ Flagged c.probed.productions p)
    (fun _ _ _ _ => ⟨rfl, .of_none rfl rfl⟩) (fun p alts hfree hp => ?_)
    (fun p hp => ⟨htail p hp, hflagged p hp⟩) c.factor_eq
  simp only [isRewritten, Bool.or_eq_false_iff, Option.isSome_eq_false_iff,
    Option.isNone_iff_eq_none] at hfree
  exact ⟨hp.1, .of_none hfree.1.2 hfree.1.1⟩

/-- The marks of the productions the emitter is given. -/
theorem flagged : ∀ q ∈ c.desugared.productions, Flagged c.probed.productions q := by
  intro q hq
  rcases desugar_from c.desugar_eq q hq with hhelper | ⟨p, hp, hto⟩
  · exact .of_none hhelper.probeHelper hhelper.probeDispatch
  · obtain ⟨p₀, hp₀, rfl⟩ := List.mem_map.mp hp
    have hflagged := (c.factored_flagged p₀ hp₀).2
    refine Flagged.desugaredTo ?_ hto
    rcases rewriteTailRepeat_shape c.start p₀ with heq | ⟨pre, sep, hshape, heq⟩
    · rwa [heq]
    · rw [heq]
      exact .of_none hshape.free.2.1 hshape.free.1

/-- The tail repeats that are desugared are of terminals. -/
theorem rewritten_tails : ∀ p ∈ (rewriteTailRepeats c.factored c.start).productions,
    TailOfTerminals p := by
  have hcycles : ∀ p ∈ (rewriteTailRepeats c.factored c.start).productions, TerminalCycles p :=
    rewriteTailRepeats_cycles (leftFactor_cycles
      (rewriteProbeDispatches_cycles (eliminate_cycles c.eliminate_eq) c.probe_eq) c.factor_eq)
  exact fun p hp => (hcycles p hp).tail

/-- **The passes behind factoring keep the language**, the marks of tail repeats read as
alternatives. -/
theorem tailed_lang (hnd : grammar.names.Nodup) (hcap : c.Uncaptured) {n : String}
    (hn : n ∈ c.factored.names) :
    nameLang τ c.desugared.tailed.productions n = nameLang τ c.factored.productions n := by
  obtain ⟨-, -, hcaptured⟩ := c.refs_passes hnd hcap
  have htails := c.rewritten_tails
  have hproper := proper_of_validated c.validate_eq c.desugar_eq
  have hlang := desugar_lang (τ := τ) (G := (rewriteTailRepeats c.factored c.start).tailed)
    (fun q hq => ?_) (fun m hm hmem => ?_) (desugar_tailed htails c.desugar_eq)
  · rw [hlang.2.2 n (by rwa [Grammar.tailed_names, rewriteTailRepeats_names])]
    exact rewriteTailRepeats_tailed (fun p hp => (c.factored_flagged p hp).1) c.start n
  · obtain ⟨p, hp, rfl⟩ := List.mem_map.mp hq
    cases htail : p.tailRepeat with
    | none =>
      rw [p.tailed_of_none htail]
      exact hproper p hp
    | some tail => exact properAlts_of_simple ((htails p hp).simple htail).2
  · rw [Grammar.tailed_names] at hmem ⊢
    obtain ⟨q, hq, hm⟩ := List.mem_flatMap.mp hm
    obtain ⟨p, hp, rfl⟩ := List.mem_map.mp hq
    rcases refs_tailed (htails p hp) hm with hm | rfl
    · exact hcaptured m (List.mem_flatMap.mpr ⟨p, hp, hm⟩) hmem
    · exact mem_namesOf.mpr ⟨p, hp, rfl⟩

end Compile

end TabnasBnf
