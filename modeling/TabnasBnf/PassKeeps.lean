import TabnasBnf.FactorCorrect
import TabnasBnf.ProbeCorrect

/-!
# What every production keeps through the passes

Elimination rebuilds every production, the rewriting of probes rebuilds some and adds those of its
dispatches, and factoring gives new alternatives to the productions it does not leave alone and adds
helpers. A property of productions that these keep holds of all that a pass returns.
-/

namespace TabnasBnf

variable {P : Production → Prop}

/-! ## Elimination -/

section

variable {diag : String} {keep cyclic : List String}

theorem eliminateDirectLeftRec_rebuilt {p : Production} {names : List String}
    {r : Production × List String} (h : eliminateDirectLeftRec diag p names = .ok r) :
    ∃ alts, r.1 = p.rebuilt alts := by
  unfold eliminateDirectLeftRec at h
  dsimp only at h
  split at h
  · cases h
    exact ⟨_, rfl⟩
  · split at h
    · cases h
    · cases h
      exact ⟨_, rfl⟩

theorem paull_forall (hrebuilt : ∀ (p : Production) alts, P (p.rebuilt alts)) {guard : Nat} :
    ∀ (rest done : List Production) {added : Nat} {names : List String} {r : List Production},
      (∀ p ∈ done, P p) → paull diag keep cyclic guard done rest added names = .ok r →
      ∀ p ∈ r, P p
  | [], _, _, _, _, hdone, h => by
    obtain rfl := Except.ok.inj h
    exact hdone
  | q :: rest, done, _, _, _, hdone, h => by
    obtain ⟨⟨q₁, added₁⟩, -, h⟩ := bind_eq_ok h
    obtain ⟨⟨q₂, names₂⟩, hq, h⟩ := bind_eq_ok h
    refine paull_forall hrebuilt rest (done ++ [q₂]) (fun p hp => ?_) h
    rcases List.mem_append.mp hp with hp | hp
    · exact hdone p hp
    · obtain ⟨alts, hq⟩ := eliminateDirectLeftRec_rebuilt hq
      rw [List.mem_singleton.mp hp, show q₂ = q₁.rebuilt alts from hq]
      exact hrebuilt _ _

theorem mem_slotsOf {prods : List Production} {p : Production} (h : p ∈ slotsOf prods) :
    p ∈ prods := by
  have key : ∀ (ps slots : List Production), (∀ q ∈ slots, q ∈ prods) → (∀ q ∈ ps, q ∈ prods) →
      ∀ q ∈ ps.foldl (fun slots p =>
        if p.name ∈ namesOf slots then slots.map fun q => if q.name = p.name then p else q
        else slots ++ [p]) slots, q ∈ prods := by
    intro ps
    induction ps with
    | nil => exact fun slots hslots _ => hslots
    | cons p ps ih =>
      intro slots hslots hps
      obtain ⟨hp, hps⟩ := List.forall_mem_cons.mp hps
      refine ih _ (fun q hq => ?_) hps
      dsimp only at hq
      split at hq
      · obtain ⟨q', hq', rfl⟩ := List.mem_map.mp hq
        split
        · exact hp
        · exact hslots q' hq'
      · rcases List.mem_append.mp hq with hq | hq
        · exact hslots q hq
        · rwa [List.mem_singleton.mp hq]
  exact key prods [] (fun _ hq => absurd hq List.not_mem_nil) (fun _ hq => hq) p h

theorem mem_takeSlots {p : Production} : ∀ {names : List String} {slots : List Production},
    p ∈ takeSlots names slots → p ∈ slots
  | [], _, h => h
  | n :: names, slots, h => by
    rcases List.mem_append.mp h with h | h
    · exact List.mem_of_find?_eq_some (Option.mem_toList.mp h)
    · exact (List.mem_filter.mp (mem_takeSlots h)).1

/-- **Elimination returns rebuilt productions alone.** -/
theorem eliminate_forall (hrebuilt : ∀ (p : Production) alts, P (p.rebuilt alts)) {grammar g' : Grammar}
    (h : eliminateLeftRecursionKeeping diag grammar keep = .ok g') : ∀ p ∈ g'.productions, P p := by
  obtain ⟨⟨expanded, added⟩, -, h⟩ := bind_eq_ok h
  obtain ⟨done, hdone, h⟩ := bind_eq_ok h
  obtain rfl := Except.ok.inj h
  exact fun p hp => paull_forall hrebuilt _ [] (fun _ hq => absurd hq List.not_mem_nil) hdone p
    (mem_slotsOf (mem_takeSlots hp))

end

/-! ## Probe dispatch -/

section

variable {diag : String} {grammar : Grammar} {A : Sequence → Prop} {Q : List Production → Prop}

variable (grammar A Q) in
/-- The productions of the dispatch of an alternative may be added. -/
def AddsProbes : Prop := ∀ extra alt s, A alt → probeSplit grammar [] alt = some s →
  ∀ origin probe withName noName dispatch, Q extra →
    Q (extra ++ probeProductions s origin probe withName noName dispatch)

theorem rewriteProbeAlt_extra (hQ : AddsProbes grammar A Q) {prod : Production} {alt : Sequence}
    {altIdx : Nat} {st : ProbeState} {r : Sequence × Bool × ProbeState} (halt : A alt)
    (hst : Q st.extra)
    (h : rewriteProbeAlt diag grammar prod altIdx alt st = .ok r) : Q r.2.2.extra := by
  unfold rewriteProbeAlt at h
  split at h
  · cases h
    exact hst
  · next s hs =>
    dsimp only at h
    split at h
    · cases h
    · cases h
      exact hQ _ alt s halt hs _ _ _ _ _ hst

theorem rewriteProbeAlts_extra (hQ : AddsProbes grammar A Q) {prod : Production} :
    ∀ (alts : List Sequence) {altIdx : Nat} {st : ProbeState}
      {r : List Sequence × Bool × ProbeState}, (∀ alt ∈ alts, A alt) → Q st.extra →
      rewriteProbeAlts diag grammar prod altIdx alts st = .ok r → Q r.2.2.extra
  | [], _, _, _, _, hst, h => by
    obtain rfl := Except.ok.inj h
    exact hst
  | alt :: rest, _, st, _, hA, hst, h => by
    obtain ⟨⟨alt', touched, st₁⟩, halt, h⟩ := bind_eq_ok h
    obtain ⟨⟨rest', restTouched, st₂⟩, hrest, h⟩ := bind_eq_ok h
    obtain rfl := Except.ok.inj h
    obtain ⟨hAalt, hA⟩ := List.forall_mem_cons.mp hA
    have hextra := rewriteProbeAlts_extra hQ rest hA (rewriteProbeAlt_extra hQ hAalt hst halt) hrest
    exact hextra

theorem rewriteProbeProductions_extra (hQ : AddsProbes grammar A Q) :
    ∀ (ps : List Production) {st : ProbeState} {r : List Production × ProbeState},
      (∀ p ∈ ps, ∀ alt ∈ p.alts, A alt) → Q st.extra →
      rewriteProbeProductions diag grammar ps st = .ok r → Q r.2.extra
  | [], _, _, _, hst, h => by
    obtain rfl := Except.ok.inj h
    exact hst
  | prod :: rest, _, _, hA, hst, h => by
    obtain ⟨⟨alts, touched, st₁⟩, halts, h⟩ := bind_eq_ok h
    obtain ⟨⟨rest', st₂⟩, hrest, h⟩ := bind_eq_ok h
    obtain rfl := Except.ok.inj h
    obtain ⟨hAprod, hA⟩ := List.forall_mem_cons.mp hA
    have hextra := rewriteProbeProductions_extra hQ rest hA
      (rewriteProbeAlts_extra hQ prod.alts hAprod hst halts) hrest
    exact hextra

theorem rewriteProbeProductions_forall (hrebuilt : ∀ (p : Production) alts, P (p.rebuilt alts)) :
    ∀ (ps : List Production) {st : ProbeState} {r : List Production × ProbeState},
      (∀ p ∈ ps, P p) → rewriteProbeProductions diag grammar ps st = .ok r → ∀ p ∈ r.1, P p
  | [], _, _, _, h => by
    obtain rfl := Except.ok.inj h
    exact fun p hp => absurd hp List.not_mem_nil
  | prod :: rest, _, _, hps, h => by
    obtain ⟨⟨alts, touched, st₁⟩, halts, h⟩ := bind_eq_ok h
    obtain ⟨⟨rest', st₂⟩, hrest, h⟩ := bind_eq_ok h
    obtain rfl := Except.ok.inj h
    obtain ⟨hprod, hps⟩ := List.forall_mem_cons.mp hps
    refine List.forall_mem_cons.mpr ⟨?_, rewriteProbeProductions_forall hrebuilt rest hps hrest⟩
    split
    · exact hrebuilt _ _
    · exact hprod

/-- **The rewriting of probes** rebuilds productions and adds those of its dispatches. -/
theorem rewriteProbeDispatches_forall (hrebuilt : ∀ (p : Production) alts, P (p.rebuilt alts))
    (hprobes : ∀ alt s, probeSplit grammar [] alt = some s → ∀ origin probe withName noName dispatch,
      ∀ p ∈ probeProductions s origin probe withName noName dispatch, P p) {g' : Grammar}
    (hg : ∀ p ∈ grammar.productions, P p) (h : rewriteProbeDispatches diag grammar = .ok g') :
    ∀ p ∈ g'.productions, P p := by
  obtain ⟨⟨rewritten, st⟩, hrun, h⟩ := bind_eq_ok h
  obtain rfl := Except.ok.inj h
  have hextra := rewriteProbeProductions_extra (A := fun _ => True)
    (Q := fun extra => ∀ p ∈ extra, P p)
    (fun extra alt s _ hs _ _ _ _ _ hextra p hp => (List.mem_append.mp hp).elim (hextra p)
      (hprobes alt s hs _ _ _ _ _ p)) _ (fun _ _ _ _ => trivial)
    (fun _ hp => absurd hp List.not_mem_nil) hrun
  intro p hp
  rcases List.mem_append.mp hp with hp | hp
  · exact rewriteProbeProductions_forall hrebuilt _ hg hrun p hp
  · exact hextra p hp

end

/-! ## Vocabularies -/

/-- A vocabulary of terminals with the property. -/
def VocabOf (K : Element → Prop) (out : List (String × Element)) : Prop :=
  ∀ kv ∈ out, kv.2.isTerminal = true ∧ K kv.2

section

variable {K : Element → Prop} {enter : String → Vocab → Vocab} {grammar : Grammar}

theorem vocabOf_insertKey {out : List (String × Element)} {key : String} {el : Element}
    (h : VocabOf K out) (hterm : el.isTerminal = true) (hel : K el) :
    VocabOf K (insertKey out key el) := by
  unfold insertKey
  split
  · exact h
  · exact List.forall_mem_append.mpr ⟨h, List.forall_mem_singleton.mpr ⟨hterm, hel⟩⟩

theorem vocabOf_jointVocab {x y : List (String × Element)} (hx : VocabOf K x) (hy : VocabOf K y)
    (dKey : Option String) : VocabOf K (jointVocab x y dKey) := by
  have hfold : ∀ (ys out : List (String × Element)), VocabOf K ys → VocabOf K out →
      VocabOf K (ys.foldl (fun out kv => insertKey out kv.1 kv.2) out) := by
    intro ys
    induction ys with
    | nil => exact fun out _ hout => hout
    | cons kv ys ih =>
      intro out hys hout
      obtain ⟨⟨hterm, hkv⟩, hys⟩ := List.forall_mem_cons.mp hys
      exact ih _ hys (vocabOf_insertKey hout hterm hkv)
  exact fun kv hkv => hfold y x hy hx kv (List.mem_filter.mp hkv).1

mutual
theorem vocabOf_collectElement (hnested : ∀ el, K el → ∀ e ∈ el.nested, K e)
    (henter : ∀ n st, VocabOf K st.out → VocabOf K (enter n st).out) :
    ∀ (el : Element) (st : Vocab), K el → VocabOf K st.out →
      VocabOf K (collectElement enter el st).out
  | .term .., _, hel, h => vocabOf_insertKey h rfl hel
  | .regex .., _, hel, h => vocabOf_insertKey h rfl hel
  | .token .., _, hel, h => vocabOf_insertKey h rfl hel
  | .ref name _ _, st, _, h => henter name st h
  | .opt e _, st, hel, h =>
    vocabOf_collectElement hnested henter e st (hnested _ hel e (List.mem_singleton_self e)) h
  | .star e _ _, st, hel, h =>
    vocabOf_collectElement hnested henter e st (hnested _ hel e (List.mem_singleton_self e)) h
  | .plus e _, st, hel, h =>
    vocabOf_collectElement hnested henter e st (hnested _ hel e (List.mem_singleton_self e)) h
  | .rep _ _ e _, st, hel, h =>
    vocabOf_collectElement hnested henter e st (hnested _ hel e (List.mem_singleton_self e)) h
  | .group alts _, st, hel, h => vocabOf_collectAlts hnested henter alts st
      (fun α hα e he => hnested _ hel e (List.mem_flatten.mpr ⟨α, hα, he⟩)) h
  | .prose .., _, _, h => h

theorem vocabOf_collectSeq (hnested : ∀ el, K el → ∀ e ∈ el.nested, K e)
    (henter : ∀ n st, VocabOf K st.out → VocabOf K (enter n st).out) :
    ∀ (α : List Element) (st : Vocab), (∀ el ∈ α, K el) → VocabOf K st.out →
      VocabOf K (collectSeq enter α st).out
  | [], _, _, h => h
  | el :: α, st, hα, h => by
    obtain ⟨hel, hα⟩ := List.forall_mem_cons.mp hα
    have hhead := vocabOf_collectElement hnested henter el st hel h
    exact vocabOf_collectSeq hnested henter α _ hα hhead

theorem vocabOf_collectAlts (hnested : ∀ el, K el → ∀ e ∈ el.nested, K e)
    (henter : ∀ n st, VocabOf K st.out → VocabOf K (enter n st).out) :
    ∀ (alts : List (List Element)) (st : Vocab), (∀ α ∈ alts, ∀ el ∈ α, K el) →
      VocabOf K st.out → VocabOf K (collectAlts enter alts st).out
  | [], _, _, h => h
  | α :: alts, st, halts, h => by
    obtain ⟨hα, halts⟩ := List.forall_mem_cons.mp halts
    have hhead := vocabOf_collectSeq hnested henter α st hα h
    exact vocabOf_collectAlts hnested henter alts _ halts hhead
end

variable (hnested : ∀ el, K el → ∀ e ∈ el.nested, K e)
  (hg : ∀ p ∈ grammar.productions, ∀ α ∈ p.alts, ∀ el ∈ α, K el)

include hnested hg

theorem vocabOf_enterVocab : ∀ (depth : Nat) (n : String) (st : Vocab), VocabOf K st.out →
    VocabOf K (enterVocab grammar depth n st).out
  | 0, n, st, h => by
    unfold enterVocab
    split <;> exact h
  | depth + 1, n, st, h => by
    unfold enterVocab
    split
    · exact h
    · dsimp only
      split
      · next hd hfind =>
        cases hd
        exact vocabOf_collectAlts hnested (vocabOf_enterVocab depth) _ _
          (hg _ (List.mem_of_find?_eq_some hfind)) h
      · exact h

theorem vocabOf_collectSeqVocab {α : Sequence} (hα : ∀ el ∈ α, K el) :
    VocabOf K (collectSeqVocab grammar α) :=
  vocabOf_collectSeq hnested (vocabOf_enterVocab hnested hg _) α {} hα
    fun _ h => absurd h List.not_mem_nil

/-- **The vocabulary of a probe** is of terminals that stand in the grammar. -/
theorem vocabOf_probeSplit {s : ProbeSplit} : ∀ (before alt : Sequence), (∀ el ∈ alt, K el) →
    probeSplit grammar before alt = some s → VocabOf K s.vocab
  | _, [], _, h => by cases h
  | before, el :: y, halt, h => by
    obtain ⟨hel, hy⟩ := List.forall_mem_cons.mp halt
    unfold probeSplit at h
    split at h
    · exact vocabOf_probeSplit _ y hy h
    · next x d hopt =>
      dsimp only at h
      split at h
      · exact vocabOf_probeSplit _ y hy h
      · cases h
        have hx : ∀ e ∈ x, K e := by
          obtain ⟨⟨sp, sp', rfl⟩, -⟩ := isProbeableOpt_eq hopt
          have hgroup := hnested _ hel _ (List.mem_singleton_self _)
          exact fun e he => hnested _ hgroup e (by simp [Element.nested, he])
        exact vocabOf_jointVocab (vocabOf_collectSeqVocab hnested hg hx)
          (vocabOf_collectSeqVocab hnested hg hy) _

end

/-! ## Factoring -/

section

variable {diag : String} {lower upper : Char → Char} {grammar : Grammar}

theorem factorRun_helper_eq {prodName prodOrigin : String} {alts : List Sequence}
    {used : List String} {i : Nat} {head : Sequence} {rest : List Member} {plen : Nat}
    {q : Production} (h : q ∈ (factorRun prodName prodOrigin alts used i head rest plen).helper) :
    ∃ name alts origin repeatHelper,
      q = { Production.helper name alts origin with repeatHelper := repeatHelper } := by
  unfold factorRun at h
  simp only [Option.mem_def] at h
  split at h
  · cases h
  · cases h
    exact ⟨_, _, _, _, rfl⟩

variable (hhelper : ∀ name alts origin repeatHelper,
  P { Production.helper name alts origin with repeatHelper := repeatHelper })

include hhelper

theorem factorAlts_forall {prodName prodOrigin : String} : ∀ (fuel : Nat) {alts : List Sequence}
    {used : List String} {r : List Sequence × List Production × List String},
      factorAlts diag lower upper grammar prodName prodOrigin fuel alts used = .ok r →
      ∀ q ∈ r.2.1, P q
  | 0, _, _, _, h => by
    cases h
    exact fun _ hq => absurd hq List.not_mem_nil
  | fuel + 1, _, _, _, h => by
    obtain ⟨next, honce, h⟩ := bind_eq_ok h
    cases next with
    | none =>
      cases h
      exact fun _ hq => absurd hq List.not_mem_nil
    | some f =>
      obtain ⟨⟨alts', queued, used'⟩, hrest, h⟩ := bind_eq_ok h
      cases h
      intro q hq
      rcases List.mem_append.mp hq with hq | hq
      · obtain ⟨i, headEl, head, later, -, -, rfl⟩ := factorFrom_cases honce
        obtain ⟨name, alts, origin, repeatHelper, rfl⟩ :=
          factorRun_helper_eq (Option.mem_toList.mp hq)
        exact hhelper _ _ _ _
      · exact factorAlts_forall fuel hrest q hq

variable (halts : ∀ (p : Production) alts, isRewritten p = false → P p → P { p with alts := alts })

include halts

theorem factorQueue_forall : ∀ (fuel : Nat) (queue : List Production) (used : List String)
    (out : List Production) {res : List Production},
      factorQueue diag lower upper grammar fuel queue used out = some (.ok res) →
      (∀ p ∈ out ++ queue, P p) → ∀ p ∈ res, P p
  | fuel, [], used, out, res, h, hps => by
    unfold factorQueue at h
    cases h
    simpa using hps
  | 0, _ :: _, _, _, res, h, _ => by cases h
  | fuel + 1, prod :: queue, used, out, res, h, hps => by
    unfold factorQueue at h
    split at h
    · exact factorQueue_forall fuel queue used _ h (by simpa using hps)
    · next hfree =>
      split at h
      · cases h
      · next alts queued used' hfactored =>
        refine factorQueue_forall fuel (queue ++ queued) used' _ h fun p hp => ?_
        simp only [List.mem_append, List.mem_singleton] at hp
        rcases hp with (hp | rfl) | hp | hp
        · exact hps p (List.mem_append_left _ hp)
        · exact halts prod alts (by simpa using hfree)
            (hps prod (List.mem_append_right _ List.mem_cons_self))
        · exact hps p (List.mem_append_right _ (List.mem_cons_of_mem _ hp))
        · exact factorAlts_forall hhelper _ hfactored p hp

/-- **Factoring** gives new alternatives to the productions it does not leave alone, and adds
helpers. -/
theorem leftFactor_forall {fuel : Nat} {g' : Grammar} (hg : ∀ p ∈ grammar.productions, P p)
    (h : leftFactor diag lower upper grammar fuel = some (.ok g')) : ∀ p ∈ g'.productions, P p := by
  obtain ⟨r, hr, h⟩ := Option.map_eq_some_iff.mp h
  cases r with
  | error e => cases h
  | ok res =>
    cases h
    exact factorQueue_forall hhelper halts fuel _ _ [] hr hg

end

end TabnasBnf
