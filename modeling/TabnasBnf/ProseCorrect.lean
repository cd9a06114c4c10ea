import TabnasBnf.FactorCorrect
import TabnasBnf.Prose

/-!
# Lifting literals and resolving built-ins keep the language

The two passes replace references by terminals, at any depth (`den_resolveRefs`,
`refs_resolveRefs`). A production that is lifted is one literal, and the references to it become
that literal; a built-in name that is not defined counts as the production of its engine token
(`builtinRules`).

* **`lift_normalize_lang`**: what survives the two passes derives what it did.
-/

namespace TabnasBnf

variable {T : Type*} {τ : Element → Language T} {ρ : Env T} {token : String → Option Element}

/-! ## References resolved to tokens -/

mutual
theorem den_resolveRefs (h : ∀ n t, token n = some t → den τ ρ t = ρ n) :
    ∀ el : Element, den τ ρ (el.resolveRefs token) = den τ ρ el
  | .ref name debt sp => by
    rw [Element.resolveRefs]
    cases htok : token name with
    | none => rfl
    | some t => rw [Option.getD_some, den_ref, h name t htok]
  | .opt e sp => by rw [Element.resolveRefs, den_opt, den_opt, den_resolveRefs h e]
  | .star e guard sp => by rw [Element.resolveRefs, den_star, den_star, den_resolveRefs h e]
  | .plus e sp => by rw [Element.resolveRefs, den_plus, den_plus, den_resolveRefs h e]
  | .rep min max e sp => by
    ext w
    rw [Element.resolveRefs, mem_den_rep, mem_den_rep, den_resolveRefs h e]
  | .group alts sp => by
    rw [Element.resolveRefs, den_group, den_group, altsDen_resolveRefs h alts]
  | .term .. | .regex .. | .token .. | .prose .. => rfl

theorem seqDen_resolveRefs (h : ∀ n t, token n = some t → den τ ρ t = ρ n) :
    ∀ α : List Element, Cf.seq (den τ ρ) (resolveRefsIn token α) = Cf.seq (den τ ρ) α
  | [] => rfl
  | el :: α => by
    rw [resolveRefsIn, Cf.seq_cons, Cf.seq_cons, den_resolveRefs h el, seqDen_resolveRefs h α]

theorem altsDen_resolveRefs (h : ∀ n t, token n = some t → den τ ρ t = ρ n) :
    ∀ alts : List (List Element), altsDen τ ρ (resolveRefsInAlts token alts) = altsDen τ ρ alts
  | [] => rfl
  | α :: alts => by
    rw [resolveRefsInAlts, altsDen_cons, altsDen_cons, seqDen_resolveRefs h α,
      altsDen_resolveRefs h alts]
end

mutual
/-- What is resolved to a terminal is referred to no more, and nothing else is. -/
theorem refs_resolveRefs (h : ∀ n t, token n = some t → t.refs = []) {n : String} :
    ∀ el : Element, n ∈ (el.resolveRefs token).refs → n ∈ el.refs ∧ token n = none
  | .ref name debt sp, hn => by
    rw [Element.resolveRefs] at hn
    cases htok : token name with
    | none =>
      rw [htok, Option.getD_none] at hn
      obtain rfl := List.mem_singleton.mp hn
      exact ⟨hn, htok⟩
    | some t =>
      rw [htok, Option.getD_some, h name t htok] at hn
      cases hn
  | .opt e _, hn => refs_resolveRefs h e hn
  | .star e _ _, hn => refs_resolveRefs h e hn
  | .plus e _, hn => refs_resolveRefs h e hn
  | .rep _ _ e _, hn => refs_resolveRefs h e hn
  | .group alts _, hn => refs_resolveRefsInAlts h hn
  | .term .., hn | .regex .., hn | .token .., hn | .prose .., hn => by cases hn

theorem refs_resolveRefsIn (h : ∀ n t, token n = some t → t.refs = []) {n : String} :
    ∀ {α : List Element}, n ∈ refsIn (resolveRefsIn token α) → n ∈ refsIn α ∧ token n = none
  | [], hn => by cases hn
  | el :: α, hn => by
    rcases List.mem_append.mp hn with hn | hn
    · exact (refs_resolveRefs h _ hn).imp_left (List.mem_append_left _)
    · exact (refs_resolveRefsIn h hn).imp_left (List.mem_append_right _)

theorem refs_resolveRefsInAlts (h : ∀ n t, token n = some t → t.refs = []) {n : String} :
    ∀ {alts : List (List Element)}, n ∈ refsInAlts (resolveRefsInAlts token alts) →
      n ∈ refsInAlts alts ∧ token n = none
  | [], hn => by cases hn
  | α :: alts, hn => by
    rcases List.mem_append.mp hn with hn | hn
    · exact (refs_resolveRefsIn h hn).imp_left (List.mem_append_left _)
    · exact (refs_resolveRefsInAlts h hn).imp_left (List.mem_append_right _)
end

/-! ## What is lifted -/

/-- A lifted literal is the whole definition of a production of its name. -/
theorem liftable_of_mem {start : String} {prods : List Production} {e : String × Literal}
    (h : e ∈ liftedLiterals start prods) :
    ∃ p ∈ prods, p.name = e.1 ∧ liftable start p = some e.2 := by
  have hcandidates : ∀ f ∈ liftCandidates start prods,
      ∃ p ∈ prods, p.name = f.1 ∧ liftable start p = some f.2 := by
    unfold liftCandidates
    refine List.foldlRecOn prods _
      (motive := fun lifted : List (String × Literal) =>
        ∀ f ∈ lifted, ∃ p ∈ prods, p.name = f.1 ∧ liftable start p = some f.2)
      (fun f hf => absurd hf List.not_mem_nil) ?_
    intro lifted hlifted p hp f hf
    cases hliteral : liftable start p with
    | none =>
      rw [hliteral] at hf
      exact hlifted f hf
    | some literal =>
      rw [hliteral] at hf
      rcases Table.mem_insert hf with hf | rfl
      · exact hlifted f hf
      · exact ⟨p, hp, rfl, hliteral⟩
  exact hcandidates e (List.mem_filter.mp h).1

/-- A production that may be lifted is one literal, which is not empty. -/
theorem alts_of_liftable {start : String} {p : Production} {l : Literal}
    (h : liftable start p = some l) : ∃ name sp, p.alts = [[.term l.1 l.2 name sp]] := by
  unfold liftable at h
  split at h
  · cases h
  · split at h
    · next halts =>
      split at h
      · cases h
      · cases h
        exact ⟨_, _, halts⟩
    · cases h

/-- No two lifted literals have one token key. -/
theorem nodup_liftedKeys (start : String) (prods : List Production) :
    ((liftedLiterals start prods).map fun e => e.2.key).Nodup := by
  unfold liftedLiterals
  dsimp only
  set lifted := liftCandidates start prods
  rw [List.nodup_iff_sublist]
  intro key hkey
  obtain ⟨l, hl, hmap⟩ := List.sublist_map_iff.mp hkey
  -- two entries of one key are counted twice
  obtain ⟨x, y, rfl⟩ := List.length_eq_two.mp
    (show l.length = 2 by rw [← List.length_map, ← hmap]; rfl)
  obtain ⟨hx, hy⟩ : key = x.2.key ∧ key = y.2.key := by simpa using hmap
  have hmem := (List.mem_filter.mp (hl.subset List.mem_cons_self)).2
  have hsub := (hl.trans List.filter_sublist).filter fun f => f.2.key == x.2.key
  have hlen := hsub.length_le
  rw [decide_eq_true_iff] at hmem
  simp [← hx, ← hy] at hlen hmem
  omega

/-! ## Grammars with their references resolved -/

/-- `q` is `p` with references resolved to terminals. -/
structure Resolves (τ : Element → Language T) (token : String → Option Element)
    (p q : Production) : Prop where
  name : q.name = p.name
  den : ∀ ρ : Env T, (∀ n t, token n = some t → den τ ρ t = ρ n) →
    altsDen τ ρ q.alts = altsDen τ ρ p.alts
  refs : ∀ n ∈ refsInAlts q.alts, n ∈ refsInAlts p.alts ∧ token n = none

theorem resolves_resolveRefs (h : ∀ n t, token n = some t → t.refs = []) (p : Production) :
    Resolves τ token p (p.resolveRefs token) :=
  ⟨rfl, fun _ hρ => altsDen_resolveRefs hρ p.alts, fun _ hn => refs_resolveRefsInAlts h hn⟩

/-- One resolution after another, of different names. -/
theorem Resolves.trans {token' : String → Option Element} {p q r : Production}
    (hdisjoint : ∀ n, (token n).isSome → token' n = none) (h : Resolves τ token p q)
    (h' : Resolves τ token' q r) : Resolves τ (fun n => (token n).or (token' n)) p r := by
  refine ⟨h'.name.trans h.name, fun ρ hρ => ?_, fun n hn => ?_⟩
  · rw [h'.den ρ, h.den ρ]
    · exact fun n t ht => hρ n t (by rw [ht]; rfl)
    · intro n t ht
      cases hn : token n with
      | none => exact hρ n t (by rw [hn, ht]; rfl)
      | some t' =>
        have hnone := hdisjoint n (by rw [hn]; rfl)
        rw [hnone] at ht
        cases ht
  · obtain ⟨hn, hnone'⟩ := h'.refs n hn
    obtain ⟨hn, hnone⟩ := h.refs n hn
    exact ⟨hn, by rw [hnone, hnone']; rfl⟩

/-- **Resolving references keeps the language** of every name that is left, when each name that is
resolved derived its terminal. -/
theorem nameLang_resolves {ps qs : List Production}
    (hterminal : ∀ n t, token n = some t → t.isTerminal = true)
    (hdefined : ∀ n t, token n = some t → n ∈ namesOf ps)
    (hdef : ∀ p ∈ ps, ∀ t, token p.name = some t → ∀ ρ : Env T, altsDen τ ρ p.alts = τ t)
    (hkept : ∀ p ∈ ps, token p.name = none → ∃ q ∈ qs, Resolves τ token p q)
    (hfrom : ∀ q ∈ qs, ∃ p ∈ ps, Resolves τ token p q) {n : String} (hn : token n = none) :
    nameLang τ qs n = nameLang τ ps n := by
  refine le_antisymm (nameLang_le (fun q hq => ?_) n) ?_
  · obtain ⟨p, hp, hres⟩ := hfrom q hq
    rw [hres.den, hres.name]
    · exact solves_nameLang p hp
    · intro m t ht
      rw [den_terminal (hterminal m t ht)]
      obtain ⟨p₀, hp₀, rfl⟩ := mem_namesOf.mp (hdefined m t ht)
      refine le_antisymm ?_ fun w hw => ?_
      · rw [← hdef p₀ hp₀ t ht (nameLang τ ps)]
        exact solves_nameLang p₀ hp₀
      · obtain ⟨p', hp', hname, hw⟩ := mem_nameLang_iff_alts.mp hw
        rwa [hdef p' hp' t (hname ▸ ht)] at hw
  · -- the names that are resolved stand for their terminals, the others for what is left of them
    let ρ : Env T := fun m => ((token m).map τ).getD (nameLang τ qs m)
    have hρ : ∀ m t, token m = some t → den τ ρ t = ρ m := by
      intro m t ht
      rw [den_terminal (hterminal m t ht)]
      simp [ρ, ht]
    have hle : nameLang τ ps n ≤ ρ n := by
      refine nameLang_le (fun p hp => ?_) n
      cases ht : token p.name with
      | some t =>
        rw [hdef p hp t ht ρ]
        simp [ρ, ht]
      | none =>
        obtain ⟨q, hq, hres⟩ := hkept p hp ht
        have hsame : altsDen τ ρ q.alts = altsDen τ (nameLang τ qs) q.alts :=
          altsDen_congr fun m hm => by simp [ρ, (hres.refs m hm).2]
        rw [← hres.den ρ hρ, hsame, ← hres.name]
        refine (solves_nameLang q hq).trans ?_
        simp [ρ, hres.name, ht]
    simpa [ρ, hn] using hle

/-! ## The two passes -/

/-- The productions that built-in names without one stand for. -/
def builtinRules (defined : List String) : List Production :=
  (builtinTokens.filter fun t => !defined.contains t.1).map fun t =>
    { name := t.1, alts := [[.token t.2 none]] }

theorem isMatcherTokenName_of_builtinToken {n tok : String} (h : builtinToken n = some tok) :
    isMatcherTokenName n = true ∧ (n, tok) ∈ builtinTokens := by
  obtain ⟨e, he, rfl⟩ := Option.map_eq_some_iff.mp h
  obtain rfl : e.1 = n := by simpa using List.find?_some he
  have hmem := List.mem_of_find?_eq_some he
  have hmatcher : ∀ t ∈ builtinTokens, isMatcherTokenName t.1 = true := by decide
  exact ⟨hmatcher e hmem, hmem⟩

theorem builtinRef_eq_some {defined : List String} {n : String} {t : Element}
    (h : builtinRef defined n = some t) :
    n ∉ defined ∧ ∃ tok, builtinToken n = some tok ∧ t = .token tok none := by
  unfold builtinRef at h
  split at h
  · cases h
  · next hn =>
    obtain ⟨tok, htok, rfl⟩ := Option.map_eq_some_iff.mp h
    exact ⟨by simpa using hn, tok, htok, rfl⟩

section

variable {grammar : Grammar} {start : String}

/-- The names of the lifted productions. -/
def liftedNames (start : String) (prods : List Production) : List String :=
  (liftedLiterals start prods).map Prod.fst

theorem liftedToken_eq_some {lifted : List (String × Literal)} {n : String} {t : Element}
    (h : liftedToken lifted n = some t) : ∃ l, (n, l) ∈ lifted ∧ t = liftedTerm n l := by
  obtain ⟨l, hl, rfl⟩ := Option.map_eq_some_iff.mp h
  exact ⟨l, Table.mem_of_lookup hl, rfl⟩

theorem liftedToken_eq_none {prods : List Production} {n : String} :
    liftedToken (liftedLiterals start prods) n = none ↔ n ∉ liftedNames start prods := by
  rw [liftedToken, Option.map_eq_none_iff]
  constructor
  · intro h hn
    obtain ⟨e, he, rfl⟩ := List.mem_map.mp hn
    exact absurd (List.lookup_eq_none_iff.mp h e he) (by simp)
  · exact Table.lookup_eq_none

/-- Lifting keeps the productions it does not lift. -/
theorem liftLiteralTokens_resolves (grammar : Grammar) (start : String) :
    (∀ p ∈ grammar.productions, p.name ∉ liftedNames start grammar.productions →
      ∃ q ∈ (liftLiteralTokens grammar start).1.productions,
        Resolves τ (liftedToken (liftedLiterals start grammar.productions)) p q) ∧
    ∀ q ∈ (liftLiteralTokens grammar start).1.productions, ∃ p ∈ grammar.productions,
      p.name ∉ liftedNames start grammar.productions ∧
        Resolves τ (liftedToken (liftedLiterals start grammar.productions)) p q := by
  have hkept : ∀ p : Production, ((liftedLiterals start grammar.productions).lookup p.name).isNone =
      true ↔ p.name ∉ liftedNames start grammar.productions := by
    intro p
    rw [← liftedToken_eq_none, liftedToken, Option.map_eq_none_iff, Option.isNone_iff_eq_none]
  have hrefs : ∀ n t, liftedToken (liftedLiterals start grammar.productions) n = some t →
      t.refs = [] := by
    intro n t ht
    obtain ⟨l, -, rfl⟩ := liftedToken_eq_some ht
    rfl
  unfold liftLiteralTokens
  dsimp only
  split
  · next hempty =>
    have hnil := List.isEmpty_iff.mp hempty
    have hsame : ∀ p : Production, Resolves τ (liftedToken []) p p := fun p =>
      ⟨rfl, fun _ _ => rfl, fun n hn => ⟨hn, rfl⟩⟩
    simp only [liftedNames, hnil, List.map_nil, List.not_mem_nil, not_false_eq_true, true_and]
    exact ⟨fun p hp _ => ⟨p, hp, hsame p⟩, fun q hq => ⟨q, hq, hsame q⟩⟩
  · refine ⟨fun p hp hn => ?_, fun q hq => ?_⟩
    · have hmem : p ∈ grammar.productions.filter fun p =>
          ((liftedLiterals start grammar.productions).lookup p.name).isNone :=
        List.mem_filter.mpr ⟨hp, (hkept p).mpr hn⟩
      exact ⟨_, List.mem_map_of_mem hmem, resolves_resolveRefs hrefs p⟩
    · obtain ⟨p, hp, rfl⟩ := List.mem_map.mp hq
      obtain ⟨hp, hn⟩ := List.mem_filter.mp hp
      exact ⟨p, hp, (hkept p).mp hn, resolves_resolveRefs hrefs p⟩

theorem mem_liftLiteralTokens_names {n : String} :
    n ∈ (liftLiteralTokens grammar start).1.names ↔
      n ∈ grammar.names ∧ n ∉ liftedNames start grammar.productions := by
  obtain ⟨hkept, hfrom⟩ := liftLiteralTokens_resolves (τ := fun _ => (0 : Language Unit))
    grammar start
  constructor
  · intro hn
    obtain ⟨q, hq, rfl⟩ := mem_namesOf.mp hn
    obtain ⟨p, hp, hlift, hres⟩ := hfrom q hq
    rw [hres.name]
    exact ⟨mem_namesOf.mpr ⟨p, hp, rfl⟩, hlift⟩
  · rintro ⟨hn, hlift⟩
    obtain ⟨p, hp, rfl⟩ := mem_namesOf.mp hn
    obtain ⟨q, hq, hres⟩ := hkept p hp hlift
    exact mem_namesOf.mpr ⟨q, hq, hres.name⟩

/-- A built-in name is never lifted. -/
theorem notMem_liftedNames_of_builtinToken {n tok : String} (h : builtinToken n = some tok) :
    n ∉ liftedNames start grammar.productions := by
  intro hn
  obtain ⟨e, he, rfl⟩ := List.mem_map.mp hn
  obtain ⟨p, -, hname, hlift⟩ := liftable_of_mem he
  unfold liftable at hlift
  rw [hname, (isMatcherTokenName_of_builtinToken h).1] at hlift
  simp at hlift

/-- The start production is never lifted. -/
theorem start_notMem_liftedNames : start ∉ liftedNames start grammar.productions := by
  intro hn
  obtain ⟨e, he, hstart⟩ := List.mem_map.mp hn
  obtain ⟨p, -, hname, hlift⟩ := liftable_of_mem he
  unfold liftable at hlift
  simp [hname, hstart] at hlift

/-- What a reference becomes in the two passes. -/
def tokenOf (start : String) (grammar : Grammar) (n : String) : Option Element :=
  (liftedToken (liftedLiterals start grammar.productions) n).or (builtinRef grammar.names n)

theorem builtinRef_liftLiteralTokens (n : String) :
    builtinRef (liftLiteralTokens grammar start).1.names n = builtinRef grammar.names n := by
  unfold builtinRef
  cases hb : builtinToken n with
  | none => simp
  | some tok =>
    have hlift : n ∉ liftedNames start grammar.productions :=
      notMem_liftedNames_of_builtinToken hb
    have hmem : (liftLiteralTokens grammar start).1.names.contains n =
        grammar.names.contains n := by
      rw [Bool.eq_iff_iff, List.contains_iff_mem, List.contains_iff_mem,
        mem_liftLiteralTokens_names]
      exact ⟨And.left, fun h => ⟨h, hlift⟩⟩
    rw [hmem]

/-- The two passes as one resolution. -/
theorem lift_normalize_resolves (grammar : Grammar) (start : String) :
    (∀ p ∈ grammar.productions, p.name ∉ liftedNames start grammar.productions →
      ∃ q ∈ (normalizeBuiltinTokens (liftLiteralTokens grammar start).1).productions,
        Resolves τ (tokenOf start grammar) p q) ∧
    ∀ q ∈ (normalizeBuiltinTokens (liftLiteralTokens grammar start).1).productions,
      ∃ p ∈ grammar.productions, p.name ∉ liftedNames start grammar.productions ∧
        Resolves τ (tokenOf start grammar) p q := by
  obtain ⟨hkept, hfrom⟩ := liftLiteralTokens_resolves (τ := τ) grammar start
  have hrefs : ∀ n t, builtinRef (liftLiteralTokens grammar start).1.names n = some t →
      t.refs = [] := by
    intro n t ht
    obtain ⟨-, tok, -, rfl⟩ := builtinRef_eq_some ht
    rfl
  have hdisjoint : ∀ n, (liftedToken (liftedLiterals start grammar.productions) n).isSome →
      builtinRef (liftLiteralTokens grammar start).1.names n = none := by
    intro n hn
    cases hb : builtinRef (liftLiteralTokens grammar start).1.names n with
    | none => rfl
    | some t =>
      obtain ⟨-, tok, htok, -⟩ := builtinRef_eq_some hb
      rw [liftedToken_eq_none.mpr (notMem_liftedNames_of_builtinToken htok)] at hn
      cases hn
  have htokens : (fun n => (liftedToken (liftedLiterals start grammar.productions) n).or
      (builtinRef (liftLiteralTokens grammar start).1.names n)) = tokenOf start grammar := by
    funext n
    rw [builtinRef_liftLiteralTokens]
    rfl
  have hboth : ∀ p q, Resolves τ (liftedToken (liftedLiterals start grammar.productions)) p q →
      Resolves τ (tokenOf start grammar) p
        (q.resolveRefs (builtinRef (liftLiteralTokens grammar start).1.names)) := fun p q h =>
    htokens ▸ h.trans hdisjoint (resolves_resolveRefs hrefs q)
  refine ⟨fun p hp hn => ?_, fun q hq => ?_⟩
  · obtain ⟨q, hq, hres⟩ := hkept p hp hn
    exact ⟨_, List.mem_map_of_mem hq, hboth p q hres⟩
  · obtain ⟨q₁, hq₁, rfl⟩ := List.mem_map.mp hq
    obtain ⟨p, hp, hn, hres⟩ := hfrom q₁ hq₁
    exact ⟨p, hp, hn, hboth p q₁ hres⟩

/-- What the two passes are given, with the built-in names that are not defined. -/
def written (grammar : Grammar) : List Production :=
  grammar.productions ++ builtinRules grammar.names

theorem builtinRules_spec {p : Production} (hp : p ∈ builtinRules grammar.names) :
    p.name ∉ grammar.names ∧
      ∃ tok, builtinToken p.name = some tok ∧ p.alts = [[.token tok none]] := by
  obtain ⟨e, he, rfl⟩ := List.mem_map.mp hp
  obtain ⟨he, hdef⟩ := List.mem_filter.mp he
  have hfind : ∀ t ∈ builtinTokens, builtinToken t.1 = some t.2 := by decide
  exact ⟨by simpa using hdef, e.2, hfind e he, rfl⟩

theorem isTerminal_of_tokenOf {n : String} {t : Element} (ht : tokenOf start grammar n = some t) :
    t.isTerminal = true := by
  rcases Option.or_eq_some_iff.mp ht with ht | ⟨-, ht⟩
  · obtain ⟨l, -, rfl⟩ := liftedToken_eq_some ht
    rfl
  · obtain ⟨-, tok, -, rfl⟩ := builtinRef_eq_some ht
    rfl

theorem mem_names_of_tokenOf {n : String} {t : Element} (ht : tokenOf start grammar n = some t) :
    n ∈ namesOf (written grammar) := by
  unfold written
  rw [namesOf_append]
  rcases Option.or_eq_some_iff.mp ht with ht | ⟨-, ht⟩
  · obtain ⟨l, hl, -⟩ := liftedToken_eq_some ht
    obtain ⟨p, hp, hname, -⟩ := liftable_of_mem hl
    exact List.mem_append_left _ (mem_namesOf.mpr ⟨p, hp, hname⟩)
  · obtain ⟨hn, tok, htok, -⟩ := builtinRef_eq_some ht
    refine List.mem_append_right _ (mem_namesOf.mpr ⟨_, List.mem_map_of_mem
      (List.mem_filter.mpr ⟨(isMatcherTokenName_of_builtinToken htok).2, ?_⟩), rfl⟩)
    simpa using hn

/-- A production of a lifted name is its literal. -/
theorem altsDen_of_lifted (hτ : RespectsEqual τ) (hnd : grammar.names.Nodup) {p : Production}
    (hp : p ∈ grammar.productions) {l : Literal}
    (hl : (p.name, l) ∈ liftedLiterals start grammar.productions) (ρ : Env T) :
    altsDen τ ρ p.alts = τ (liftedTerm p.name l) := by
  obtain ⟨q, hq, hname, hlift⟩ := liftable_of_mem hl
  obtain ⟨name, sp, halts⟩ := alts_of_liftable hlift
  rw [List.inj_on_of_nodup_map hnd hp hq hname.symm, halts, altsDen_cons, altsDen_nil, add_zero,
    Cf.seq_singleton, den_terminal rfl]
  exact hτ _ _ rfl rfl (by simp [elemEqual, liftedTerm])

/-- A production of a name that is resolved is its terminal. -/
theorem altsDen_of_tokenOf (hτ : RespectsEqual τ) (hnd : grammar.names.Nodup) {p : Production}
    (hp : p ∈ written grammar) {t : Element} (ht : tokenOf start grammar p.name = some t)
    (ρ : Env T) : altsDen τ ρ p.alts = τ t := by
  rcases List.mem_append.mp hp with hp | hp
  · rcases Option.or_eq_some_iff.mp ht with ht | ⟨-, ht⟩
    · obtain ⟨l, hl, rfl⟩ := liftedToken_eq_some ht
      exact altsDen_of_lifted hτ hnd hp hl ρ
    · exact absurd (mem_namesOf.mpr ⟨p, hp, rfl⟩) (builtinRef_eq_some ht).1
  · obtain ⟨hn, tok, htok, halts⟩ := builtinRules_spec hp
    have hlift : p.name ∉ liftedNames start grammar.productions :=
      notMem_liftedNames_of_builtinToken htok
    have hnone := liftedToken_eq_none.mpr hlift
    rw [tokenOf, hnone, Option.none_or] at ht
    obtain ⟨-, tok', htok', rfl⟩ := builtinRef_eq_some ht
    obtain rfl := Option.some.inj (htok.symm.trans htok')
    rw [halts, altsDen_cons, altsDen_nil, add_zero, Cf.seq_singleton, den_terminal rfl]

theorem tokenOf_eq_none {n : String} (h : tokenOf start grammar n = none) :
    n ∉ liftedNames start grammar.productions ∧ builtinRef grammar.names n = none :=
  ⟨liftedToken_eq_none.mp (Option.or_eq_none_iff.mp h).1, (Option.or_eq_none_iff.mp h).2⟩

/-- **The two passes before the structural ones keep the language.** What survives them derives what
it did, a built-in name that is not defined counting as its engine token; a production that is
lifted derived its literal, is not the start production and is referred to no more; and no two of
them have one token key. -/
theorem lift_normalize_lang (hτ : RespectsEqual τ) (hnd : grammar.names.Nodup) (start : String) :
    let g' := normalizeBuiltinTokens (liftLiteralTokens grammar start).1
    (∀ n, n ∈ g'.names ↔ n ∈ grammar.names ∧ n ∉ liftedNames start grammar.productions) ∧
    (∀ n ∈ g'.names, nameLang τ g'.productions n = nameLang τ (written grammar) n) ∧
    (∀ e ∈ liftedLiterals start grammar.productions,
      nameLang τ (written grammar) e.1 = τ (liftedTerm e.1 e.2)) ∧
    start ∉ liftedNames start grammar.productions ∧
    ((liftedLiterals start grammar.productions).map fun e => e.2.key).Nodup ∧
    ∀ n ∈ liftedNames start grammar.productions, n ∉ g'.refs := by
  intro g'
  obtain ⟨hkept, hfrom⟩ := lift_normalize_resolves (τ := τ) grammar start
  have hnames : ∀ n, n ∈ g'.names ↔
      n ∈ grammar.names ∧ n ∉ liftedNames start grammar.productions := fun n => by
    rw [show g'.names = _ from normalizeBuiltinTokens_names _, mem_liftLiteralTokens_names]
  refine ⟨hnames, fun n hn => ?_, fun e he => ?_, start_notMem_liftedNames, nodup_liftedKeys _ _,
    fun n hn href => ?_⟩
  · obtain ⟨hmem, hnot⟩ := (hnames n).mp hn
    have hnone : tokenOf start grammar n = none := by
      rw [tokenOf, liftedToken_eq_none.mpr hnot, Option.none_or]
      unfold builtinRef
      rw [if_pos (by simpa using hmem)]
    refine nameLang_resolves (fun m t => isTerminal_of_tokenOf) (fun m t => mem_names_of_tokenOf)
      (fun p hp t ht => altsDen_of_tokenOf hτ hnd hp ht) (fun p hp hp' => ?_) (fun q hq => ?_) hnone
    · obtain ⟨hlift, hbuiltin⟩ := tokenOf_eq_none hp'
      rcases List.mem_append.mp hp with hp | hp
      · exact hkept p hp hlift
      · -- every production of a built-in name is resolved away
        obtain ⟨hn, tok, htok, -⟩ := builtinRules_spec hp
        unfold builtinRef at hbuiltin
        rw [if_neg (by simpa using hn), htok] at hbuiltin
        cases hbuiltin
    · obtain ⟨p, hp, -, hres⟩ := hfrom q hq
      exact ⟨p, List.mem_append_left _ hp, hres⟩
  · obtain ⟨p, hp, hname, -⟩ := liftable_of_mem he
    have he' : (p.name, e.2) ∈ liftedLiterals start grammar.productions := by
      rw [hname]
      exact he
    have hden := altsDen_of_lifted hτ hnd hp he'
    rw [← hname]
    refine le_antisymm (fun w hw => ?_) ?_
    · obtain ⟨p', hp', hname', hw⟩ := mem_nameLang_iff_alts.mp hw
      rcases List.mem_append.mp hp' with hp' | hp'
      · rw [List.inj_on_of_nodup_map hnd hp' hp hname', hden] at hw
        exact hw
      · exact absurd (mem_namesOf.mpr ⟨p, hp, hname'.symm⟩) (builtinRules_spec hp').1
    · rw [← hden (nameLang τ (written grammar))]
      exact solves_nameLang p (List.mem_append_left _ hp)
  · obtain ⟨q, hq, hn'⟩ := List.mem_flatMap.mp href
    obtain ⟨p, -, -, hres⟩ := hfrom q hq
    exact (tokenOf_eq_none (hres.refs n hn').2).1 hn

end

/-- `S = [ PLUS TX ] *( PLUS )` with `PLUS = "+"`. -/
def plusList : Grammar where
  productions :=
    [{ name := "S", alts := [[.opt (.group [[.reference "PLUS", .reference "TX"]] none) none,
        .star (.reference "PLUS") none none]] },
     { name := "PLUS", alts := [[.lit "+"]] }]

/-- The literal is lifted and `TX` resolved at any depth. -/
theorem lift_normalize_lang_plusList :
    nameLang literalTokens (normalizeBuiltinTokens (liftLiteralTokens plusList "S").1).productions
        "S" = nameLang literalTokens (written plusList) "S" ∧
      "PLUS" ∉ (normalizeBuiltinTokens (liftLiteralTokens plusList "S").1).refs := by
  obtain ⟨hnames, hlang, -, -, -, hrefs⟩ := lift_normalize_lang
    respectsEqual_literalTokens (show plusList.names.Nodup by decide) "S"
  exact ⟨hlang "S" ((hnames "S").mpr ⟨by decide, by decide +kernel⟩),
    hrefs "PLUS" (by decide +kernel)⟩

end TabnasBnf
