import TabnasBnf.EmitWrites
import TabnasBnf.FirstFollow
import TabnasBnf.PassLang
import TabnasBnf.ProseCorrect
import TabnasBnf.TokenAlloc

/-!
# Which rules derive the empty string

`nullable_rules` answers on the grammar as written, and decides whether the engine admits empty
input; `compute_first_sets` answers on the desugared grammar, and decides how the emitted rules
dispatch. The first takes an empty literal, a pattern that can match nothing, `#ZZ` and `#AA` to
match nothing (`asMatched`), the second takes every terminal for a token (`oneToken`).

* `Compile.nil_iff`: a rule derives the empty string of tokens in the desugared grammar exactly when
  it does in the grammar as written.
* **`Compile.nullable_agree`**: so the two agree on every rule but those that derive the empty string
  by way of such a terminal alone.
-/

namespace TabnasBnf

open Saturate

variable {T : Type*} {τ : Element → Language T}

/-! ## References resolved to tokens -/

section

variable {ρ : Env T} {token : String → Option Element}

mutual
theorem nil_mem_den_resolveRefs (h : ∀ n t, token n = some t → ([] ∈ den τ ρ t ↔ [] ∈ ρ n)) :
    ∀ el : Element, [] ∈ den τ ρ (el.resolveRefs token) ↔ [] ∈ den τ ρ el
  | .ref name debt sp => by
    rw [Element.resolveRefs]
    cases htok : token name with
    | none => exact Iff.rfl
    | some t =>
      rw [Option.getD_some, den_ref]
      exact h name t htok
  | .opt e sp => by
    simp [Element.resolveRefs, Language.mem_add, Language.mem_one]
  | .star e guard sp => by
    simp [Element.resolveRefs, Language.nil_mem_kstar]
  | .plus e sp => by
    rw [Element.resolveRefs, den_plus, den_plus, nil_mem_mul, nil_mem_mul,
      nil_mem_den_resolveRefs h e]
    simp [Language.nil_mem_kstar]
  | .rep min max e sp => by
    have he := nil_mem_den_resolveRefs h e
    have hpow : ∀ k : Nat, [] ∈ den τ ρ (e.resolveRefs token) ^ k ↔ [] ∈ den τ ρ e ^ k := by
      intro k
      induction k with
      | zero => exact Iff.rfl
      | succ k ih => rw [pow_succ, pow_succ, nil_mem_mul, nil_mem_mul, ih, he]
    rw [Element.resolveRefs, mem_den_rep, mem_den_rep]
    simp only [hpow]
  | .group alts sp => by
    rw [Element.resolveRefs, den_group, den_group]
    exact nil_mem_altsDen_resolveRefs h alts
  | .term .. | .regex .. | .token .. | .prose .. => Iff.rfl

theorem nil_mem_seq_resolveRefs (h : ∀ n t, token n = some t → ([] ∈ den τ ρ t ↔ [] ∈ ρ n)) :
    ∀ α : List Element, [] ∈ Cf.seq (den τ ρ) (resolveRefsIn token α) ↔ [] ∈ Cf.seq (den τ ρ) α
  | [] => Iff.rfl
  | el :: α => by
    rw [resolveRefsIn, Cf.seq_cons, Cf.seq_cons, nil_mem_mul, nil_mem_mul,
      nil_mem_den_resolveRefs h el, nil_mem_seq_resolveRefs h α]

theorem nil_mem_altsDen_resolveRefs
    (h : ∀ n t, token n = some t → ([] ∈ den τ ρ t ↔ [] ∈ ρ n)) :
    ∀ alts : List (List Element), [] ∈ altsDen τ ρ (resolveRefsInAlts token alts) ↔
      [] ∈ altsDen τ ρ alts
  | [] => Iff.rfl
  | α :: alts => by
    rw [resolveRefsInAlts, altsDen_cons, altsDen_cons, Language.mem_add, Language.mem_add,
      nil_mem_seq_resolveRefs h α, nil_mem_altsDen_resolveRefs h alts]
end

end

/-- **The built-in tokens derive the empty string no more than the names they stand for.** -/
theorem normalizeBuiltinTokens_nil (hτ : Consuming τ) (grammar : Grammar) (n : String) :
    [] ∈ nameLang τ (normalizeBuiltinTokens grammar).productions n ↔
      [] ∈ nameLang τ grammar.productions n := by
  -- a reference that is resolved names no production
  have htoken : ∀ G : Grammar, G.names = grammar.names → ∀ m t,
      builtinRef grammar.names m = some t →
        ([] ∈ den τ (nameLang τ G.productions) t ↔ [] ∈ nameLang τ G.productions m) := by
    intro G hG m t ht
    unfold builtinRef at ht
    split at ht
    · cases ht
    · next hm =>
      obtain ⟨tok, -, rfl⟩ := Option.map_eq_some_iff.mp ht
      have hnot : m ∉ namesOf G.productions := fun hmem => hm (by
        rw [List.contains_iff_mem]
        exact hG ▸ hmem)
      rw [nameLang_of_notMem hnot, den_terminal rfl]
      exact iff_of_false (hτ _ rfl) (Language.notMem_zero _)
  constructor
  · refine nil_mem_nameLang_of fun p' hp' hnil => ?_
    obtain ⟨p, hp, rfl⟩ := List.mem_map.mp hp'
    rw [Production.resolveRefs_name]
    exact nil_mem_nameLang_of_mem hp
      ((nil_mem_altsDen_resolveRefs (htoken grammar rfl) p.alts).mp hnil)
  · refine nil_mem_nameLang_of fun p hp hnil => ?_
    exact nil_mem_nameLang_of_mem (p := p.resolveRefs (builtinRef grammar.names))
      (List.mem_map_of_mem hp)
      ((nil_mem_altsDen_resolveRefs (htoken _ (normalizeBuiltinTokens_names grammar)) p.alts).mpr
        hnil)

/-! ## Lifted literals -/

/-- **Lifting keeps which of the kept rules derive the empty string.** -/
theorem liftLiteralTokens_nil (hτ : Consuming τ) {grammar : Grammar} (hnd : grammar.names.Nodup)
    (start n : String) :
    [] ∈ nameLang τ (liftLiteralTokens grammar start).1.productions n ↔
      [] ∈ nameLang τ grammar.productions n := by
  unfold liftLiteralTokens
  dsimp only
  set lifted := liftedLiterals start grammar.productions
  split
  · exact Iff.rfl
  · -- a rule that is lifted is one terminal
    have hlifted : ∀ p ∈ grammar.productions, (lifted.lookup p.name).isSome →
        ∀ ρ : Env T, [] ∉ altsDen τ ρ p.alts := by
      intro p hp hsome ρ
      obtain ⟨l, hl⟩ := Option.isSome_iff_exists.mp hsome
      obtain ⟨q, hq, hname, hliftable⟩ := liftable_of_mem (Table.mem_of_lookup hl)
      obtain ⟨name, sp, halts⟩ := alts_of_liftable hliftable
      rw [List.inj_on_of_nodup_map hnd hp hq hname.symm, halts]
      exact nil_notMem_of_first hτ rfl []
    have hdead : ∀ m, (lifted.lookup m).isSome → [] ∉ nameLang τ grammar.productions m := by
      intro m hm hnil
      obtain ⟨p, hp, rfl, halts⟩ := mem_nameLang_iff_alts.mp hnil
      exact hlifted p hp hm _ halts
    have htoken : ∀ G : List Production, (∀ m, (lifted.lookup m).isSome → [] ∉ nameLang τ G m) →
        ∀ m t, liftedToken lifted m = some t →
          ([] ∈ den τ (nameLang τ G) t ↔ [] ∈ nameLang τ G m) := by
      intro G hG m t ht
      obtain ⟨l, hl, rfl⟩ := Option.map_eq_some_iff.mp ht
      rw [show den τ (nameLang τ G) (liftedTerm m l) = τ (liftedTerm m l) from den_terminal rfl]
      exact iff_of_false (hτ _ rfl) (hG m (by rw [hl]; rfl))
    constructor
    · refine nil_mem_nameLang_of fun p' hp' hnil => ?_
      obtain ⟨p, hp, rfl⟩ := List.mem_map.mp hp'
      rw [Production.resolveRefs_name]
      exact nil_mem_nameLang_of_mem (List.mem_filter.mp hp).1
        ((nil_mem_altsDen_resolveRefs (htoken _ hdead) p.alts).mp hnil)
    · refine nil_mem_nameLang_of fun p hp hnil => ?_
      by_cases hkept : (lifted.lookup p.name).isNone = true
      · have hp' : p.resolveRefs (liftedToken lifted) ∈ (grammar.productions.filter fun p =>
            (lifted.lookup p.name).isNone).map (·.resolveRefs (liftedToken lifted)) :=
          List.mem_map_of_mem (List.mem_filter.mpr ⟨hp, hkept⟩)
        rw [← Production.resolveRefs_name (liftedToken lifted) p]
        refine nil_mem_nameLang_of_mem hp' ((nil_mem_altsDen_resolveRefs (htoken _ ?_)
          p.alts).mpr hnil)
        intro m hm hmem
        obtain ⟨q', hq', rfl, -⟩ := mem_nameLang_iff_alts.mp hmem
        obtain ⟨q, hq, rfl⟩ := List.mem_map.mp hq'
        have hnone := (List.mem_filter.mp hq).2
        rw [Option.isNone_iff_eq_none] at hnone
        rw [Production.resolveRefs_name, hnone] at hm
        cases hm
      · exact absurd hnil (hlifted p hp (by simpa [Option.isSome_iff_ne_none] using hkept) _)

/-! ## The two fixed points -/

section

variable {verdict : Verdict} {N : List String} {ρ : Env T}

/-- A terminal that may match nothing derives the empty string. -/
def MatchesNothing (verdict : Verdict) (τ : Element → Language T) : Prop :=
  ∀ el, el.isTerminal = true → elementDerivesEmpty verdict [] el = true → [] ∈ τ el

mutual
/-- What the code says derives the empty string does, when the bounds are in order. -/
theorem nil_mem_of_derivesEmpty (hτ : MatchesNothing verdict τ) (hρ : ∀ n ∈ N, [] ∈ ρ n) :
    ∀ el : Element, el.Proper → elementDerivesEmpty verdict N el = true → [] ∈ den τ ρ el
  | .opt .., _, _ => by simp [Language.mem_add, Language.mem_one]
  | .star .., _, _ => by simp [Language.nil_mem_kstar]
  | .plus e _, hp, h => by
    rw [den_plus, nil_mem_mul]
    exact ⟨nil_mem_of_derivesEmpty hτ hρ e hp h, Language.nil_mem_kstar _⟩
  | .rep min max e _, hp, h => by
    refine mem_den_rep.mpr ⟨min, le_refl _, hp.1, ?_⟩
    rw [elementDerivesEmpty, Bool.or_eq_true, beq_iff_eq] at h
    rcases h with rfl | h
    · exact Language.nil_mem_one
    · have he := nil_mem_of_derivesEmpty hτ hρ e hp.2 h
      clear hp
      induction min with
      | zero => exact Language.nil_mem_one
      | succ k ih => exact pow_succ (den τ ρ e) k ▸ nil_mem_mul.mpr ⟨ih, he⟩
  | .group alts _, hp, h => by
    rw [den_group]
    exact nil_mem_of_someDerivesEmpty hτ hρ alts hp h
  | .ref name _ _, _, h => by
    rw [den_ref]
    exact hρ name (by simpa [elementDerivesEmpty] using h)
  | .prose .., hp, _ => hp.elim
  | .term l cs tn sp, _, h => by
    rw [den_terminal rfl]
    exact hτ (.term l cs tn sp) rfl h
  | .regex pat fl sp, _, h => by
    rw [den_terminal rfl]
    exact hτ (.regex pat fl sp) rfl h
  | .token name sp, _, h => by
    rw [den_terminal rfl]
    exact hτ (.token name sp) rfl h

theorem nil_mem_of_sequenceDerivesEmpty (hτ : MatchesNothing verdict τ)
    (hρ : ∀ n ∈ N, [] ∈ ρ n) : ∀ α : List Element, ProperSeq α →
      sequenceDerivesEmpty verdict N α = true → [] ∈ Cf.seq (den τ ρ) α
  | [], _, _ => Language.nil_mem_one
  | el :: α, hp, h => by
    rw [sequenceDerivesEmpty, Bool.and_eq_true] at h
    exact nil_mem_mul.mpr ⟨nil_mem_of_derivesEmpty hτ hρ el hp.1 h.1,
      nil_mem_of_sequenceDerivesEmpty hτ hρ α hp.2 h.2⟩

theorem nil_mem_of_someDerivesEmpty (hτ : MatchesNothing verdict τ)
    (hρ : ∀ n ∈ N, [] ∈ ρ n) : ∀ alts : List (List Element), ProperAlts alts →
      someSequenceDerivesEmpty verdict N alts = true → [] ∈ altsDen τ ρ alts
  | [], _, h => by cases h
  | α :: alts, hp, h => by
    rw [someSequenceDerivesEmpty, Bool.or_eq_true] at h
    rw [altsDen_cons, Language.mem_add]
    exact h.imp (nil_mem_of_sequenceDerivesEmpty hτ hρ α hp.1)
      (nil_mem_of_someDerivesEmpty hτ hρ alts hp.2)
end

/-- **`nullable_rules` finds the rules that derive the empty string.** -/
theorem mem_nullableRules_iff (hτ : ZeroWidth verdict τ) {prods : List Production}
    (hp : ∀ p ∈ prods, ProperAlts p.alts) {n : String} :
    n ∈ nullableRules verdict prods ↔ [] ∈ nameLang τ prods n := by
  constructor
  · refine subset_of_closed (C := fun n => [] ∈ nameLang τ prods n) ?_ _
      (fun x hx => absurd hx List.not_mem_nil) n
    intro r hr N hN x hx
    obtain ⟨p, hmem, rfl⟩ := List.mem_map.mp hr
    obtain ⟨rfl, hempty⟩ := nullableRule_subset hx
    exact nil_mem_nameLang_of_mem hmem (nil_mem_of_someDerivesEmpty
      (fun el hel h => (hτ el hel).mpr h) hN p.alts (hp p hmem) hempty)
  · exact nil_mem_nameLang_le hτ nullableRules_closed n

end

section

variable {grammar : Grammar} {tokens : Tokens} {classSets : List (String × String)}
  {sets : FirstSets}

/-- **FIRST finds the rules that derive the empty string of tokens.** -/
theorem isNullable_computeFirstSets_iff (hτ : Consuming τ)
    (hsimple : ∀ p ∈ grammar.productions, SimpleAlts p.alts)
    (hclass : ∀ n, (classSets.lookup n).isSome → [] ∉ nameLang τ grammar.productions n)
    {n : String} : (computeFirstSets grammar tokens classSets).isNullable n = true ↔
      [] ∈ nameLang τ grammar.productions n := by
  set sets := computeFirstSets grammar tokens classSets
  have hsound : ∀ m, sets.isNullable m = true → [] ∈ nameLang τ grammar.productions m := by
    have hfacts : ∀ f ∈ sets, ∀ m, f = .nullable m → [] ∈ nameLang τ grammar.productions m := by
      refine subset_of_closed (C := fun f => ∀ m, f = FirstFact.nullable m →
        [] ∈ nameLang τ grammar.productions m) ?_ _ ?_
      · intro r hr s hs f hf m hfm
        obtain ⟨p, hp, hr⟩ := List.mem_flatMap.mp hr
        split at hr
        · cases hr
        · obtain ⟨α, hα, rfl⟩ := List.mem_map.mp hr
          subst hfm
          obtain ⟨rfl, hall⟩ := nullable_mem_altFirst hf
          refine nil_mem_nameLang_of_mem hp (mem_altsDen.mpr ⟨α, hα, nil_mem_seq.mpr ?_⟩)
          intro el hel
          obtain ⟨r, href, hnull⟩ := hall el hel
          obtain ⟨debt, sp, rfl⟩ := Element.refName_eq_some.mp href
          rw [den_ref]
          exact hs _ (FirstSets.isNullable_iff.mp hnull) r rfl
      · intro f hf m hfm
        obtain ⟨p, -, hset⟩ := List.mem_filterMap.mp ((mem_addAll.mp hf).resolve_left (by simp))
        obtain ⟨set, -, rfl⟩ := Option.map_eq_some_iff.mp hset
        cases hfm
    exact fun m hm => hfacts _ (FirstSets.isNullable_iff.mp hm) m rfl
  refine ⟨hsound n, fun hn => ?_⟩
  have hclosed : FirstClosed grammar tokens classSets sets := computeFirstSets_closed
  let ρ : Env T := fun m => unlessEmpty (sets.isNullable m = true)
  have hsolves : Solves τ grammar.productions ρ := by
    intro p hp w hw hnil
    subst hnil
    cases hlookup : classSets.lookup p.name with
    | some set =>
      -- a class derives no empty string, whatever its members are called
      refine absurd (nil_mem_nameLang_of_mem hp (nil_mem_altsDen_mono (fun m hm => ?_) hw))
        (hclass p.name (by rw [hlookup]; rfl))
      exact hsound m (nil_mem_unlessEmpty.mp hm)
    | none =>
      obtain ⟨α, hα, hnil⟩ := mem_altsDen.mp hw
      refine FirstSets.isNullable_iff.mpr (hclosed.of_alt p hp hlookup α hα _
        (altFirst_nullable fun el hel => ?_))
      have hel' := nil_mem_seq.mp hnil el hel
      rcases Bool.or_eq_true _ _ ▸ hsimple p hp α hα el hel with hterm | href
      · rw [den_terminal hterm] at hel'
        exact absurd hel' (hτ el hterm)
      · cases el with
        | ref r debt sp =>
          rw [den_ref] at hel'
          exact ⟨r, rfl, nil_mem_unlessEmpty.mp hel'⟩
        | _ => cases href
  exact nil_mem_unlessEmpty.mp (nameLang_le hsolves n hn)

end

/-! ## The whole run -/

section

variable {diag : String}

mutual
/-- What passed the check on bounds and was desugared is proper. -/
theorem proper_of_ok {prod : Production} : ∀ (el : Element) {d : Desugar} {r : Element × Desugar},
    validateBounds diag prod el = .ok () → Desugar.element d el = .ok r → el.Proper
  | .prose .., _, _, _, h => by cases h
  | .term .., _, _, _, _ | .regex .., _, _, _, _ | .token .., _, _, _, _ | .ref .., _, _, _, _ =>
    trivial
  | .group alts _, _, _, hb, h => by
    obtain ⟨r, hr, -⟩ := bind_eq_ok h
    exact properAlts_of_ok alts hb hr
  | .opt e _, _, _, hb, h | .star e _ _, _, _, hb, h | .plus e _, _, _, hb, h => by
    obtain ⟨r, hr, -⟩ := bind_eq_ok h
    exact proper_of_ok e hb hr
  | .rep min max e _, _, _, hb, h => by
    obtain ⟨r, hr, -⟩ := bind_eq_ok h
    cases max with
    | none => exact ⟨fun m hm => absurd hm (Option.not_mem_none m), proper_of_ok e hb hr⟩
    | some m =>
      unfold validateBounds at hb
      dsimp only at hb
      split at hb
      · cases hb
      · next hle =>
        refine ⟨fun m' hm' => ?_, proper_of_ok e hb hr⟩
        obtain rfl := Option.some.inj hm'
        omega

theorem properSeq_of_ok {prod : Production} : ∀ (α : List Element) {d : Desugar}
    {r : List Element × Desugar}, validateBoundsSeq diag prod α = .ok () →
      Desugar.alt d α = .ok r → ProperSeq α
  | [], _, _, _, _ => trivial
  | el :: α, _, _, hb, h => by
    obtain ⟨⟨⟩, hel, hb⟩ := bind_eq_ok hb
    obtain ⟨r, hr, h⟩ := bind_eq_ok h
    obtain ⟨r', hr', -⟩ := bind_eq_ok h
    exact ⟨proper_of_ok el hel hr, properSeq_of_ok α hb hr'⟩

theorem properAlts_of_ok {prod : Production} : ∀ (alts : List (List Element)) {d : Desugar}
    {r : List (List Element) × Desugar}, validateBoundsAlts diag prod alts = .ok () →
      Desugar.altList d alts = .ok r → ProperAlts alts
  | [], _, _, _, _ => trivial
  | α :: alts, _, _, hb, h => by
    obtain ⟨⟨⟩, hα, hb⟩ := bind_eq_ok hb
    obtain ⟨r, hr, h⟩ := bind_eq_ok h
    obtain ⟨r', hr', -⟩ := bind_eq_ok h
    exact ⟨properSeq_of_ok α hα hr, properAlts_of_ok alts hb hr'⟩
end

/-- What is desugared after the check on repetitions is proper. -/
theorem proper_of_validated {verdict : Verdict} {grammar g' : Grammar}
    (hvalid : validateRepetitions diag verdict grammar = .ok ()) (h : desugar grammar = .ok g') :
    ∀ p ∈ grammar.productions, ProperAlts p.alts := by
  obtain ⟨_, hbounds, -⟩ := bind_eq_ok hvalid
  obtain ⟨r, hr, -⟩ := bind_eq_ok h
  have key : ∀ (ps : List Production) {d : Desugar} {r : List Production × Desugar},
      (∀ p ∈ ps, validateBoundsAlts diag p p.alts = .ok ()) → Desugar.productions d ps = .ok r →
      ∀ p ∈ ps, ProperAlts p.alts := by
    intro ps
    induction ps with
    | nil => exact fun _ _ p hp => absurd hp List.not_mem_nil
    | cons p ps ih =>
      intro d r hb h
      obtain ⟨hp, hb⟩ := List.forall_mem_cons.mp hb
      obtain ⟨r₁, hr₁, h⟩ := bind_eq_ok h
      obtain ⟨r₂, hr₂, -⟩ := bind_eq_ok h
      exact List.forall_mem_cons.mpr ⟨properAlts_of_ok p.alts hp hr₁, ih hb hr₂⟩
  refine key _ (fun p hp => ?_) hr
  obtain ⟨_, -, hok⟩ := exists_right_of_forall₂ (mapM_eq_ok hbounds) hp
  exact hok

end

/-- Every terminal is a token. -/
def oneToken : Element → Language Unit := fun _ => {[()]}

/-- A terminal that may match nothing matches nothing, or a token. -/
def asMatched (verdict : Verdict) (el : Element) : Language Unit :=
  if elementDerivesEmpty verdict [] el then 1 + {[()]} else {[()]}

theorem consuming_oneToken : Consuming oneToken := fun _ _ h => by cases h

theorem zeroWidth_asMatched (verdict : Verdict) : ZeroWidth verdict (asMatched verdict) := by
  intro el _
  unfold asMatched
  split
  · next h => exact ⟨fun _ => h, fun _ => Or.inl rfl⟩
  · next h => exact ⟨fun hnil => absurd hnil (by intro h; cases h), fun he => absurd he h⟩

theorem nil_mem_oneToken_le {verdict : Verdict} {G : List Production} {n : String}
    (h : [] ∈ nameLang oneToken G n) : [] ∈ nameLang (asMatched verdict) G n := by
  have hle : ∀ el, leaf oneToken (fun _ => 0) el ≤ leaf (asMatched verdict) (fun _ => 0) el := by
    intro el
    have hterm : oneToken el ≤ asMatched verdict el := by
      unfold asMatched
      split
      · exact le_add_self
      · exact le_refl _
    cases el <;> first | exact hterm | exact le_refl _
  have hlang : lang oneToken G (.ref n none none) ≤ lang (asMatched verdict) G (.ref n none none) :=
    Cf.lang_mono hle (fun _ _ h => h) _
  have href' := hlang (show [] ∈ lang oneToken G (.ref n none none) by rwa [lang_ref])
  rwa [lang_ref] at href'

namespace Compile

variable {S : Setting} {grammar : Grammar} (c : Compile S grammar)

/-- The token classes elimination keeps. -/
def classNames : List String :=
  if S.tokenClasses then tokenClassNames S.regexDerivesEmpty c.normalized else []

/-- No production that is minted takes the name of a reference that named none. -/
def Uncaptured : Prop := ∀ n ∈ c.normalized.refs, n ∈ c.desugared.names → n ∈ c.normalized.names

theorem eliminated_names (hnd : grammar.names.Nodup) :
    c.eliminated.names = c.normalized.names :=
  eliminate_names (hnd.sublist c.normalized_names) c.eliminate_eq

theorem probed_subset : c.normalized.names ⊆ c.probed.names := by
  obtain ⟨⟨rewritten, st⟩, hrun, h⟩ := bind_eq_ok c.probe_eq
  have hprobed := Except.ok.inj h
  obtain ⟨hnames, -⟩ := rewriteProbeProductions_names _ hrun
  refine List.Subset.trans (eliminate_names_subset c.eliminate_eq) ?_
  rw [← hprobed]
  show namesOf c.eliminated.productions ⊆ namesOf (rewritten ++ st.extra)
  rw [namesOf_append, ← hnames]
  exact List.subset_append_left _ _

theorem factored_subset : c.probed.names ⊆ c.factored.names := by
  obtain ⟨r, hr, h⟩ := Option.map_eq_some_iff.mp c.factor_eq
  cases r with
  | error e => cases h
  | ok res =>
    have hfactored := Except.ok.inj h
    rw [← hfactored]
    exact factorQueue_names _ _ _ [] hr

theorem desugared_subset : c.factored.names ⊆ c.desugared.names := by
  obtain ⟨⟨rewritten, d⟩, hrun, h⟩ := bind_eq_ok c.desugar_eq
  have hdesugared := Except.ok.inj h
  obtain ⟨-, hnames⟩ := Desugar.productions_grown _ hrun
  rw [← rewriteTailRepeats_names c.start, ← hdesugared]
  show namesOf (rewriteTailRepeats c.factored c.start).productions ⊆ namesOf (rewritten ++ d.extra)
  rw [namesOf_append, ← hnames]
  exact List.subset_append_left _ _

/-- What the structural passes are given keeps its names to the end. -/
theorem normalized_subset : c.normalized.names ⊆ c.desugared.names :=
  fun _ hn => c.desugared_subset (c.factored_subset (c.probed_subset hn))

/-- Under what a capture leaves out, every pass refers to what the grammar referred to, or to
productions of its own result. -/
theorem refs_passes (hnd : grammar.names.Nodup) (hcap : c.Uncaptured) :
    (∀ n ∈ c.eliminated.refs, n ∈ c.probed.names → n ∈ c.eliminated.names) ∧
    (∀ n ∈ c.probed.refs, n ∈ c.factored.names → n ∈ c.probed.names) ∧
    ∀ n ∈ (rewriteTailRepeats c.factored c.start).refs, n ∈ c.desugared.names →
      n ∈ (rewriteTailRepeats c.factored c.start).names := by
  have hnormalized := hnd.sublist c.normalized_names
  have heliminated : c.eliminated.refs ⊆ c.normalized.refs := eliminate_refs c.eliminate_eq
  have hnames := c.eliminated_names hnd
  -- a reference of the grammar that names a production of any result names one of its own
  have hown : ∀ n ∈ c.normalized.refs, n ∈ c.desugared.names → n ∈ c.probed.names :=
    fun n hn hmem => c.probed_subset (hcap n hn hmem)
  have hprobe : ∀ n ∈ c.eliminated.refs, n ∈ c.probed.names → n ∈ c.eliminated.names :=
    fun n hn hmem => hnames ▸ hcap n (heliminated hn) (c.desugared_subset (c.factored_subset hmem))
  have hprobed := (rewriteProbeDispatches_lang (τ := oneToken) hprobe c.probe_eq).1
  have hfactor : ∀ n ∈ c.probed.refs, n ∈ c.factored.names → n ∈ c.probed.names := by
    intro n hn hmem
    rcases List.mem_append.mp (hprobed hn) with hn | hn
    · exact hown n (heliminated hn) (c.desugared_subset hmem)
    · exact hn
  have hprobedNodup : c.probed.names.Nodup :=
    rewriteProbeDispatches_names (hnames ▸ hnormalized) c.probe_eq
  have hfactored := (leftFactor_keeps (τ := oneToken) (fun _ _ _ _ _ => rfl) hprobedNodup
    c.factor_eq hfactor).1
  refine ⟨hprobe, hfactor, fun n hn hmem => ?_⟩
  rw [rewriteTailRepeats_names]
  rcases List.mem_append.mp (hfactored (rewriteTailRepeats_refs _ _ hn)) with hn | hn
  · rcases List.mem_append.mp (hprobed hn) with hn | hn
    · exact c.factored_subset (hown n (heliminated hn) hmem)
    · exact c.factored_subset hn
  · exact hn

/-- **Elimination, probing and factoring keep the language**, the token of a class that is kept
standing for its members. -/
theorem lang_passes (hτ : RespectsEqual τ) (hnd : grammar.names.Nodup) (hcap : c.Uncaptured)
    (hclass : ∀ p ∈ c.normalized.productions, p.name ∈ c.classNames →
      τ (.token ("#" ++ p.name) none) = members τ p) {n : String} (hn : n ∈ c.normalized.names) :
    nameLang τ c.factored.productions n = nameLang τ c.normalized.productions n := by
  have hnormalized := hnd.sublist c.normalized_names
  obtain ⟨hprobe, hfactor, -⟩ := c.refs_passes hnd hcap
  have hkeep : ClassTokens τ c.classNames (nameLang τ c.normalized.productions) := by
    intro n hn
    have hmem := hn
    unfold classNames at hmem
    split at hmem
    · obtain ⟨p, hp, rfl, hclassp⟩ := mem_tokenClassNames hmem
      rw [hclass p hp hn, nameLang_of_nodup hnormalized hp, altsDen_of_isTokenClass hclassp]
    · cases hmem
  have heliminated := (keeping_spec hnormalized hkeep c.eliminate_eq).2
  have hnames := c.eliminated_names hnd
  have hprobed := (rewriteProbeDispatches_lang (τ := τ) hprobe c.probe_eq).2 n (hnames ▸ hn)
  have hfactored := (leftFactor_keeps hτ c.probed_nodup c.factor_eq hfactor).2 n
    (c.probed_subset hn)
  rw [hfactored, hprobed, heliminated]

/-- A token class derives no empty string. -/
theorem nil_notMem_class (hnd : grammar.names.Nodup) {n : String} (hn : n ∈ c.classNames) :
    [] ∉ nameLang oneToken c.normalized.productions n := by
  unfold classNames at hn
  split at hn
  · obtain ⟨p, hp, rfl, hclass⟩ := mem_tokenClassNames hn
    rw [nameLang_of_nodup (hnd.sublist c.normalized_names) hp, altsDen_of_isTokenClass hclass]
    rintro ⟨el, -, hel⟩
    cases hel
  · cases hn

/-- **A rule derives the empty string of tokens after the passes exactly when it did before.** -/
theorem nil_iff (hnd : grammar.names.Nodup) (hcap : c.Uncaptured) {n : String}
    (hn : n ∈ c.normalized.names) :
    [] ∈ nameLang oneToken c.desugared.productions n ↔
      [] ∈ nameLang oneToken c.resolved.productions n := by
  have hnormalized := hnd.sublist c.normalized_names
  have hresolved : c.resolved.names.Nodup :=
    hnd.sublist ((resolveProseTerminals_sublist c.resolve_eq).map Production.name)
  obtain ⟨-, -, hdesugar⟩ := c.refs_passes hnd hcap
  -- a class has members, each of which is a token
  have hclass : ∀ p ∈ c.normalized.productions, p.name ∈ c.classNames →
      oneToken (.token ("#" ++ p.name) none) = members oneToken p := by
    intro p hp hmem
    unfold classNames at hmem
    split at hmem
    · obtain ⟨q, hq, hname, hclass⟩ := mem_tokenClassNames hmem
      obtain rfl := List.inj_on_of_nodup_map hnormalized hq hp hname
      unfold isTokenClass at hclass
      simp only [Bool.and_eq_true, Bool.not_eq_true', Bool.or_eq_false_iff,
        decide_eq_false_iff_not, List.all_eq_true] at hclass
      cases halts : q.alts with
      | nil => simp [halts] at hclass
      | cons α rest =>
        obtain ⟨el, rfl, -⟩ := isClassMember_iff (hclass.2 α (by simp [halts]))
        ext w
        exact ⟨fun hw => ⟨el, by simp [halts], hw⟩, fun ⟨_, _, hw⟩ => hw⟩
    · cases hmem
  have hpasses := c.lang_passes (τ := oneToken) (fun _ _ _ _ _ => rfl) hnd hcap hclass hn
  have htail := rewriteTailRepeats_nil consuming_oneToken c.factored c.start n
  have hdesugared := (desugar_lang (τ := oneToken)
    (proper_of_validated c.validate_eq c.desugar_eq) hdesugar c.desugar_eq).2.2 n
    (by rw [rewriteTailRepeats_names]; exact c.factored_subset (c.probed_subset hn))
  rw [hdesugared, htail, hpasses]
  exact (normalizeBuiltinTokens_nil consuming_oneToken _ n).trans
    (liftLiteralTokens_nil consuming_oneToken hresolved c.start n)

/-- The token sets of the classes: each is named after its class, when the name is free. -/
def classSetNames (classNames : List String) :
    List Production → List String → List (String × String)
  | [], _ => []
  | p :: rest, used =>
    if classNames.contains p.name then
      let name := allocTokenName p.name used (some p.name)
      (p.name, name) :: classSetNames classNames rest (used ++ [name])
    else classSetNames classNames rest used

/-- `class_sets`, as `emit_grammar_spec` fills them. -/
abbrev classSets : List (String × String) :=
  classSetNames c.classNames c.desugared.productions []

/-- FIRST, as the emitter computes it. -/
def firstSets (tokens : Tokens) : FirstSets :=
  computeFirstSets c.desugared tokens (classSetNames c.classNames c.desugared.productions [])

/-- `accepts_empty`: whether the engine admits empty input. -/
def acceptsEmpty : Bool :=
  (nullableRules S.regexDerivesEmpty c.resolved.productions).contains c.start

theorem mem_of_classSetNames {classNames : List String} {n : String} :
    ∀ {prods : List Production} {used : List String},
      ((classSetNames classNames prods used).lookup n).isSome → n ∈ classNames
  | [], _, h => by cases h
  | p :: rest, used, h => by
    unfold classSetNames at h
    split at h
    · next hp =>
      rw [List.lookup_cons] at h
      split at h
      · next heq =>
        rw [eq_of_beq heq]
        exact List.contains_iff_mem.mp hp
      · exact mem_of_classSetNames h
    · exact mem_of_classSetNames h

theorem mem_classSetNames {classNames : List String} {n set : String} :
    ∀ {prods : List Production} {used : List String},
      (n, set) ∈ classSetNames classNames prods used → ∃ p ∈ prods, p.name = n
  | [], _, h => by cases h
  | p :: rest, used, h => by
    unfold classSetNames at h
    split at h
    · rcases List.mem_cons.mp h with heq | h
      · exact ⟨p, List.mem_cons_self, (Prod.mk.inj heq).1.symm⟩
      · obtain ⟨q, hq, hname⟩ := mem_classSetNames h
        exact ⟨q, List.mem_cons_of_mem _ hq, hname⟩
    · obtain ⟨q, hq, hname⟩ := mem_classSetNames h
      exact ⟨q, List.mem_cons_of_mem _ hq, hname⟩

/-- A token class of the emitter is a production. -/
theorem classSets_named {n set : String} (h : c.classSets.lookup n = some set) :
    n ∈ c.desugared.names := by
  obtain ⟨p, hp, rfl⟩ := mem_classSetNames (Table.mem_of_lookup h)
  exact mem_namesOf.mpr ⟨p, hp, rfl⟩

theorem classNames_subset : c.classNames ⊆ c.normalized.names := by
  intro n hn
  unfold classNames at hn
  split at hn
  · obtain ⟨p, hp, rfl, -⟩ := mem_tokenClassNames hn
    exact mem_namesOf.mpr ⟨p, hp, rfl⟩
  · cases hn

/-- **FIRST and `nullable_rules` each find the rules that derive the empty string**, FIRST taking
every terminal for a token. -/
theorem nullable_iffs (hnd : grammar.names.Nodup)
    (hbounds : ∀ p ∈ c.resolved.productions, ProperAlts p.alts) (hcap : c.Uncaptured)
    (tokens : Tokens) {n : String} (hn : n ∈ c.normalized.names) :
    ((c.firstSets tokens).isNullable n = true ↔
      [] ∈ nameLang oneToken c.resolved.productions n) ∧
    (n ∈ nullableRules S.regexDerivesEmpty c.resolved.productions ↔
      [] ∈ nameLang (asMatched S.regexDerivesEmpty) c.resolved.productions n) := by
  refine ⟨?_, mem_nullableRules_iff (zeroWidth_asMatched _) hbounds⟩
  have hresolved : c.resolved.names.Nodup :=
    hnd.sublist ((resolveProseTerminals_sublist c.resolve_eq).map Production.name)
  obtain ⟨-, -, hdesugar⟩ := c.refs_passes hnd hcap
  have hsimple := (desugar_lang (τ := oneToken)
    (proper_of_validated c.validate_eq c.desugar_eq) hdesugar c.desugar_eq).1
  have hclass : ∀ m, ((classSetNames c.classNames c.desugared.productions []).lookup m).isSome →
      [] ∉ nameLang oneToken c.desugared.productions m := by
    intro m hm hnil
    have hmem := mem_of_classSetNames hm
    refine c.nil_notMem_class hnd hmem ?_
    have hwritten := (c.nil_iff hnd hcap (c.classNames_subset hmem)).mp hnil
    exact (normalizeBuiltinTokens_nil consuming_oneToken _ m).mpr
      ((liftLiteralTokens_nil consuming_oneToken hresolved c.start m).mpr hwritten)
  exact (isNullable_computeFirstSets_iff consuming_oneToken hsimple hclass).trans
    (c.nil_iff hnd hcap hn)

end Compile

/-- **`nullable_rules` and FIRST agree on a rule** unless it derives the empty string only by way of
a terminal that may match nothing, where `nullable_rules` alone says that it does; so does the option
that admits empty input, of the start rule. -/
theorem Compile.nullable_agree {S : Setting} {grammar : Grammar} (c : Compile S grammar)
    (hnd : grammar.names.Nodup) (hbounds : ∀ p ∈ c.resolved.productions, ProperAlts p.alts)
    (hcap : c.Uncaptured) (tokens : Tokens) (n : String) (hn : n ∈ c.normalized.names) :
    ((c.firstSets tokens).isNullable n = true →
      n ∈ nullableRules S.regexDerivesEmpty c.resolved.productions) ∧
    ((n ∈ nullableRules S.regexDerivesEmpty c.resolved.productions ↔
        (c.firstSets tokens).isNullable n = true) ↔
      ([] ∈ nameLang (asMatched S.regexDerivesEmpty) c.resolved.productions n →
        [] ∈ nameLang oneToken c.resolved.productions n)) ∧
    (n = c.start → ((c.acceptsEmpty = true ↔ (c.firstSets tokens).isNullable n = true) ↔
      ([] ∈ nameLang (asMatched S.regexDerivesEmpty) c.resolved.productions n →
        [] ∈ nameLang oneToken c.resolved.productions n))) := by
  obtain ⟨hfirst, hrules⟩ := c.nullable_iffs hnd hbounds hcap tokens hn
  have hle : [] ∈ nameLang oneToken c.resolved.productions n →
      [] ∈ nameLang (asMatched S.regexDerivesEmpty) c.resolved.productions n := nil_mem_oneToken_le
  have hagree : (n ∈ nullableRules S.regexDerivesEmpty c.resolved.productions ↔
      (c.firstSets tokens).isNullable n = true) ↔
      ([] ∈ nameLang (asMatched S.regexDerivesEmpty) c.resolved.productions n →
        [] ∈ nameLang oneToken c.resolved.productions n) := by
    rw [hfirst, hrules]
    exact ⟨fun h => h.mp, fun h => ⟨h, hle⟩⟩
  refine ⟨fun h => hrules.mpr (hle (hfirst.mp h)), hagree, ?_⟩
  rintro rfl
  rwa [acceptsEmpty, List.contains_iff_mem]

/-- `S = [ "x" ]`, `Q` as given. -/
def withOptional (q : Sequence) : Grammar where
  productions := [
    { name := "S", alts := [[.opt (.lit "x") none]] },
    { name := "Q", alts := [q] }]

/-- What `withOptional` is desugared into. -/
def withHelper (q : Sequence) : Grammar where
  productions := [
    { name := "S", alts := [[.reference "_gen1_opt_term"]] },
    { name := "Q", alts := [q] },
    { Production.helper "_gen1_opt_term" [[.lit "x"], []] "S" with repeatHelper := true }]

/-- `Q = "y" "z"`. -/
def optionalCompile : Compile plainSetting (withOptional [.lit "y", .lit "z"]) :=
  .leftAlone (withHelper [.lit "y", .lit "z"]) "S" 3

theorem nullable_agree_optional :
    ("S" ∈ nullableRules (fun _ _ => false) (withOptional [.lit "y", .lit "z"]).productions ↔
        (optionalCompile.firstSets {}).isNullable "S" = true) ↔
      ([] ∈ nameLang (asMatched fun _ _ => false)
          (withOptional [.lit "y", .lit "z"]).productions "S" →
        [] ∈ nameLang oneToken (withOptional [.lit "y", .lit "z"]).productions "S") :=
  (optionalCompile.nullable_agree (by decide)
    (by simp [optionalCompile, withOptional, ProperAlts, ProperSeq, Element.Proper, Element.lit])
    (by unfold Compile.Uncaptured; decide) {} "S" (by decide)).2.1

/-- `S = ""`. -/
def emptyLiteral : Compile plainSetting { productions := [{ name := "S", alts := [[.lit ""]] }] } :=
  .leftAlone { productions := [{ name := "S", alts := [[.lit ""]] }] } "S" 2

/-- `Q = _gen1_opt_term`: the name desugaring gives the helper. -/
def capturedCompile : Compile plainSetting (withOptional [.reference "_gen1_opt_term"]) :=
  .leftAlone (withHelper [.reference "_gen1_opt_term"]) "S" 3

/-- `S = `, and again `S = "a"`. -/
def writtenTwice : Grammar where
  productions := [{ name := "S", alts := [[]] }, { name := "S", alts := [[.lit "a"]] }]

/-- Elimination keeps the second. -/
def twiceCompile : Compile plainSetting writtenTwice where
  resolved := writtenTwice
  start := "S"
  eliminated := { productions := [{ name := "S", alts := [[.lit "a"]] }] }
  probed := { productions := [{ name := "S", alts := [[.lit "a"]] }] }
  fuel := 2
  factored := { productions := [{ name := "S", alts := [[.lit "a"]] }] }
  desugared := { productions := [{ name := "S", alts := [[.lit "a"]] }] }
  resolve_eq := rfl
  start_eq := rfl
  eliminate_eq := rfl
  probe_eq := rfl
  factor_eq := rfl
  validate_eq := rfl
  desugar_eq := rfl

/-- The two disagree on an empty literal, on a captured reference and on a name written twice. -/
theorem nullable_disagree :
    ¬ ("S" ∈ nullableRules (fun _ _ => false) emptyLiteral.resolved.productions ↔
      (emptyLiteral.firstSets {}).isNullable "S" = true) ∧
    ¬ ("Q" ∈ nullableRules (fun _ _ => false) capturedCompile.resolved.productions ↔
      (capturedCompile.firstSets {}).isNullable "Q" = true) ∧
    ¬ ("S" ∈ nullableRules (fun _ _ => false) twiceCompile.resolved.productions ↔
      (twiceCompile.firstSets {}).isNullable "S" = true) := by
  refine ⟨?_, ?_, ?_⟩ <;> decide +kernel

end TabnasBnf
