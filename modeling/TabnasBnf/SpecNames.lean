import TabnasBnf.EmitRules
import TabnasBnf.FollowCovers

/-!
# The names in the alternates of a rule

The names an emitted spec holds are made in many places: tokens come out of FIRST, FOLLOW, the
FOLLOW pairs and the dispatch prefixes, rules out of references and of the names that chains and
alternatives are given. Over any two predicates, `C` on tokens and `N` on rules:

* `Lists.first`, `Lists.follow`, `Lists.pairs`, `Lists.dispatchPrefixes`: the sets and the prefixes
  hold tokens of `C` when the grammar and its token classes do.
* **`Emitted.within`**: on every path of the emitter, so do the alternates of a production's rules,
  and they descend to rules of `N`.
-/

namespace TabnasBnf

open Saturate

/-! ## The tokens of the sets -/

section

variable (grammar : Grammar) (tokens : Tokens) (classSets : List (String × String))
  (C : String → Prop)

/-- The tokens of the grammar's terminals and of the token classes are among `C`, and so is the end
of the input. -/
structure Lists : Prop where
  alts : ∀ p ∈ grammar.productions, ∀ alt ∈ p.alts, ∀ el ∈ alt,
    el.isRef = true ∨ C (tokens.name el)
  classes : ∀ n set, classSets.lookup n = some set → C set
  ends : C "#ZZ"

end

section

variable {grammar : Grammar} {tokens : Tokens} {classSets : List (String × String)}
  {C : String → Prop} {sets : FirstSets}

/-- What a sequence begins with. -/
theorem begins_within (hsets : ∀ n, ∀ t ∈ sets.get n, C t) {t : String} : ∀ {β : Sequence},
    (∀ el ∈ β, el.isRef = true ∨ C (tokens.name el)) → Begins tokens sets t β → C t
  | [], _, h => h.elim
  | el :: β, hβ, h => by
    obtain ⟨hel, hrest⟩ := List.forall_mem_cons.mp hβ
    cases el with
    | ref m debt sp =>
      rcases h with h | ⟨-, h⟩
      · exact hsets m t (FirstSets.mem_get.mpr h)
      · exact begins_within hsets hrest h
    | _ => exact h ▸ hel.resolve_left (by simp [Element.isRef])

theorem firstOfSeq_within (hsets : ∀ n, ∀ t ∈ sets.get n, C t) {β : Sequence}
    (hβ : ∀ el ∈ β, el.isRef = true ∨ C (tokens.name el)) :
    ∀ t ∈ (firstOfSeq tokens sets β).1, C t := by
  intro t ht
  rcases (mem_firstOfSeqFrom β).mp ht with h | h
  · exact absurd h List.not_mem_nil
  · exact begins_within hsets hβ h

theorem firstOfAlt_within (hsets : ∀ n, ∀ t ∈ sets.get n, C t) {alt : Sequence}
    (halt : ∀ el ∈ alt, el.isRef = true ∨ C (tokens.name el)) {first : List String}
    (h : firstOfAlt tokens sets alt = some first) : ∀ t ∈ first, C t := by
  have hseq := firstOfSeq_within hsets halt
  unfold firstOfAlt at h
  split at h
  · cases h
  · next out heq =>
    obtain rfl := Option.some.inj h
    rwa [heq] at hseq

/-- A fact of FIRST about a token of `C`. -/
def FirstFact.Within (C : String → Prop) (f : FirstFact) : Prop := ∀ n t, f = .first n t → C t

theorem altFirst_within (hsets : ∀ f ∈ sets, f.Within C) {name : String} : ∀ {β : Sequence},
    (∀ el ∈ β, el.isRef = true ∨ C (tokens.name el)) →
      ∀ f ∈ altFirst tokens sets name β, f.Within C
  | [], _, f, hf => by
    obtain rfl := List.mem_singleton.mp hf
    rintro n t ⟨⟩
  | el :: β, hβ, f, hf => by
    obtain ⟨hel, hrest⟩ := List.forall_mem_cons.mp hβ
    cases el with
    | ref m debt sp =>
      rcases List.mem_append.mp hf with hf | hf
      · obtain ⟨t, ht, rfl⟩ := List.mem_map.mp hf
        rintro n t' ⟨⟩
        exact hsets _ (FirstSets.mem_get.mp ht) m t rfl
      · split at hf
        · exact altFirst_within hsets hrest f hf
        · cases hf
    | _ =>
      obtain rfl := List.mem_singleton.mp hf
      rintro n t ⟨⟩
      exact hel.resolve_left (by simp [Element.isRef])

/-- FIRST holds tokens of the grammar. -/
theorem Lists.first (h : Lists grammar tokens classSets C) :
    ∀ n, ∀ t ∈ (computeFirstSets grammar tokens classSets).get n, C t := by
  have hall : ∀ f ∈ computeFirstSets grammar tokens classSets, f.Within C := by
    refine subset_of_closed (fun r hr sets hsets => ?_) _ fun f hf => ?_
    · obtain ⟨p, hp, hr⟩ := List.mem_flatMap.mp hr
      split at hr
      · cases hr
      · obtain ⟨alt, halt, rfl⟩ := List.mem_map.mp hr
        exact altFirst_within hsets (h.alts p hp alt halt)
    · obtain ⟨p, -, hset⟩ := List.mem_filterMap.mp ((mem_addAll.mp hf).resolve_left (by simp))
      obtain ⟨set, hlookup, rfl⟩ := Option.map_eq_some_iff.mp hset
      rintro n t ⟨⟩
      exact h.classes p.name set hlookup
  exact fun n t ht => hall _ (FirstSets.mem_get.mp ht) n t rfl

/-- What stands behind a reference of the grammar. -/
theorem Lists.suffix (h : Lists grammar tokens classSets C) {n m : String} {β : Sequence}
    (href : (n, m, β) ∈ references grammar) :
    ∀ el ∈ β, el.isRef = true ∨ C (tokens.name el) := by
  obtain ⟨p, hp, -, alt, halt, -, u, el, rfl, -⟩ := mem_references.mp href
  exact fun x hx => h.alts p hp _ halt x (List.mem_append_right _ (List.mem_cons_of_mem _ hx))

theorem Lists.follow (h : Lists grammar tokens classSets C)
    (hsets : ∀ n, ∀ t ∈ sets.get n, C t) (start : String) :
    ∀ n, ∀ t ∈ (computeFollowSets grammar tokens classSets sets start).get n, C t := by
  have hall : ∀ f ∈ computeFollowSets grammar tokens classSets sets start, C f.2 := by
    refine subset_of_closed (fun r hr follow hfollow => ?_) _ fun f hf => ?_
    · obtain ⟨⟨n, m, β⟩, href, rfl⟩ := List.mem_map.mp hr
      rintro ⟨m', t⟩ hf
      obtain rfl : m = m' := by
        obtain ⟨t', -, heq⟩ := List.mem_map.mp hf
        exact (Prod.mk.inj heq).1
      rcases mem_followRule.mp hf with hbegins | ⟨-, hmem⟩
      · exact begins_within hsets (h.suffix href) hbegins
      · exact hfollow (n, t) hmem
    · split at hf
      · obtain rfl := List.mem_singleton.mp hf
        exact h.ends
      · cases hf
  exact fun n t ht => hall _ (FollowSets.mem_get.mp ht)

theorem FollowPairs.mem_get {pairs : FollowPairs} {n t : String} {us : List String}
    (h : (t, us) ∈ pairs.get n) : (∃ u, (n, t, u) ∈ pairs) ∧ ∀ u ∈ us, (n, t, u) ∈ pairs := by
  unfold FollowPairs.get at h
  obtain ⟨t', ht', heq⟩ := List.mem_map.mp h
  obtain ⟨rfl, rfl⟩ := Prod.mk.inj heq
  constructor
  · obtain ⟨⟨t₁, u⟩, htu, rfl⟩ := List.mem_map.mp ((mem_addAll.mp ht').resolve_left (by simp))
    exact ⟨u, by simpa using htu⟩
  · intro u hu
    simpa using hu

theorem suffixPairs_within (hsets : ∀ n, ∀ t ∈ sets.get n, C t) {follow : FollowSets}
    (hfollow : ∀ n, ∀ t ∈ follow.get n, C t) {pairs : FollowPairs}
    (hpairs : ∀ f ∈ pairs, C f.2.1 ∧ C f.2.2) {name : String} : ∀ {β : Sequence},
      (∀ el ∈ β, el.isRef = true ∨ C (tokens.name el)) →
        ∀ tu ∈ suffixPairs tokens sets follow pairs name β, C tu.1 ∧ C tu.2
  | [], _, tu, htu => by
    obtain ⟨⟨t, us⟩, hmem, htu⟩ := List.mem_flatMap.mp htu
    obtain ⟨u, hu, rfl⟩ := List.mem_map.mp htu
    exact hpairs _ ((FollowPairs.mem_get hmem).2 u hu)
  | el :: β, hβ, tu, htu => by
    obtain ⟨hel, hrest⟩ := List.forall_mem_cons.mp hβ
    have hterm : el.isRef = false → ∀ t, tokens.of el = some t →
        tu ∈ (((firstOfSeq tokens sets β).1 ++
          if (firstOfSeq tokens sets β).2 then follow.get name else []).map (t, ·)) →
        C tu.1 ∧ C tu.2 := by
      intro hnot t hof htu
      have hname := hel.resolve_left (by simp [hnot])
      rw [Tokens.name, hof] at hname
      obtain ⟨u, hu, rfl⟩ := List.mem_map.mp htu
      refine ⟨hname, ?_⟩
      rcases List.mem_append.mp hu with hu | hu
      · exact firstOfSeq_within hsets hrest u hu
      · split at hu
        · exact hfollow _ u hu
        · cases hu
    cases el with
    | ref m debt sp =>
      rw [suffixPairs] at htu
      split at htu
      · exact suffixPairs_within hsets hfollow hpairs hrest tu htu
      · cases htu
    | _ =>
      simp only [suffixPairs] at htu
      split at htu
      next => cases htu
      next t hof => exact hterm rfl t hof htu

theorem Lists.pairs (h : Lists grammar tokens classSets C)
    (hsets : ∀ n, ∀ t ∈ sets.get n, C t) {follow : FollowSets}
    (hfollow : ∀ n, ∀ t ∈ follow.get n, C t) :
    ∀ n, ∀ tus ∈ (computeFollowPairs grammar tokens classSets sets follow).get n,
      C tus.1 ∧ ∀ u ∈ tus.2, C u := by
  have hall : ∀ f ∈ computeFollowPairs grammar tokens classSets sets follow,
      C f.2.1 ∧ C f.2.2 := by
    refine subset_of_closed (fun r hr pairs hpairs f hf => ?_) _ fun f hf => by cases hf
    obtain ⟨⟨n, m, β⟩, href, rfl⟩ := List.mem_map.mp hr
    obtain ⟨tu, htu, rfl⟩ := List.mem_map.mp hf
    exact suffixPairs_within hsets hfollow hpairs (h.suffix href) tu htu
  rintro n ⟨t, us⟩ hmem
  obtain ⟨⟨u, hu⟩, hus⟩ := FollowPairs.mem_get hmem
  exact ⟨(hall _ hu).1, fun u hu => (hall _ (hus u hu)).2⟩

/-! ## The tokens of the dispatch prefixes -/

theorem Lists.adds (h : Lists grammar tokens classSets C) {alt : Sequence}
    (halt : ∀ el ∈ alt, el.isRef = true ∨ C (tokens.name el)) : Adds tokens classSets C alt := by
  intro el hel t ht
  rcases halt el hel with href | hname
  · obtain ⟨m, hm⟩ := Element.isRef_iff.mp href
    obtain ⟨debt, sp, rfl⟩ := Element.refName_eq_some.mp hm
    exact h.classes m t ht
  · cases el with
    | ref m debt sp => exact h.classes m t ht
    | term | regex | token => exact Option.some.inj ht ▸ hname
    | _ => cases ht

theorem Lists.enumerate (h : Lists grammar tokens classSets C) {alt : Sequence}
    (halt : ∀ el ∈ alt, el.isRef = true ∨ C (tokens.name el)) {k : Nat}
    {headFilter : String → Bool} {q : PrefixPath}
    (hq : q ∈ enumerate grammar tokens classSets k headFilter alt) : ∀ t ∈ q.tokens, C t :=
  (within_enumerate (fun p hp alt' halt' => h.adds (h.alts p hp alt' halt')) (h.adds halt) hq).2

theorem Lists.dispatchPrefixes (h : Lists grammar tokens classSets C)
    {contest : String → String → Bool} {maxK : Nat} {exits : List (List String)}
    {alts : List Sequence} (halts : ∀ alt ∈ alts, ∀ el ∈ alt, el.isRef = true ∨ C (tokens.name el))
    {out : List DispatchPrefixes}
    (hout : dispatchPrefixes grammar tokens classSets contest maxK exits alts = some out) :
    ∀ d ∈ out, ∀ p ∈ d.prefixes, ∀ t ∈ p, C t := by
  obtain ⟨contested, deep, hd⟩ := dispatchPrefixes_spec hout
  intro d hmem p hp t ht
  obtain ⟨i, hi⟩ := List.mem_iff_getElem?.mp hmem
  obtain ⟨alt, cs, halt, -, hcuts⟩ := hd.cuts i d hi
  have halt := halts alt (List.mem_of_getElem? halt)
  cases hcuts p hp with
  | head hmem =>
    obtain rfl := List.mem_singleton.mp ht
    unfold headsOf onePaths at hmem
    obtain ⟨q, hq, htok⟩ := List.mem_filterMap.mp (List.mem_eraseDups.mp hmem)
    split at hq
    · cases hq
    · split at htok
      · next t' heq =>
        obtain rfl := Option.some.inj htok
        exact h.enumerate halt hq _ (by rw [heq]; simp)
      · cases htok
  | path hmem hpath =>
    obtain ⟨done, hwhole⟩ := whole_of_deep hpath
    exact h.enumerate halt hwhole t (List.mem_of_mem_take ht)

end

/-! ## The alternates of a rule -/

/-- The tokens an emitter reads off its sets, its token classes and its grammar are among `C`. -/
structure Emitter.Knows (E : Emitter) (C : String → Prop) : Prop where
  lists : Lists E.grammar E.tokens E.contest.classSets C
  sets : ∀ n, ∀ t ∈ E.sets.get n, C t
  follow : ∀ n, ∀ t ∈ E.follow.get n, C t
  pairs : ∀ n, ∀ tus ∈ E.pairs.get n, C tus.1 ∧ ∀ u ∈ tus.2, C u

/-- An alternate reads tokens of `C` and descends to rules of `N`. -/
structure AltSpec.Within (C N : String → Prop) (o : AltSpec) : Prop where
  tokens : ∀ t ∈ o.s, C t
  push : ∀ m ∈ o.p, N m
  replace : ∀ m ∈ o.r, N m

/-- All alternates of a rule do. -/
structure RuleSpec.Within (C N : String → Prop) (rule : RuleSpec) : Prop where
  opens : ∀ o ∈ rule.opens, o.Within C N
  close : ∀ o ∈ rule.close.getD [], o.Within C N

section

variable {diag : String} {E : Emitter} {C N : String → Prop} {prod : Production} {o : AltSpec}

variable (E C) in
/-- The entry's alternate does, and the alternative it came from has tokens of `C`. -/
structure Entry.Within (N : String → Prop) (e : Entry) : Prop where
  alternate : e.o.Within C N
  origin : ∀ alt ∈ e.alt, ∀ el ∈ alt, el.isRef = true ∨ C (E.tokens.name el)

variable (E C N) in
/-- The references of an alternative are rules of `N`, and its terminals have tokens of `C`. -/
structure AltWithin (alt : Sequence) : Prop where
  tokens : ∀ el ∈ alt, el.isRef = true ∨ C (E.tokens.name el)
  refs : ∀ el ∈ alt, ∀ m, el.refName = some m → N m

theorem AltSpec.Within.mono {N' : String → Prop} (h : o.Within C N) (hN : ∀ m, N m → N' m) :
    o.Within C N' :=
  ⟨h.tokens, fun m hm => hN m (h.push m hm), fun m hm => hN m (h.replace m hm)⟩

theorem RuleSpec.Within.mono {N' : String → Prop} {rule : RuleSpec} (h : rule.Within C N)
    (hN : ∀ m, N m → N' m) : rule.Within C N' :=
  ⟨fun o ho => (h.opens o ho).mono hN, fun o ho => (h.close o ho).mono hN⟩

theorem within_empty : ({} : AltSpec).Within C N := by constructor <;> simp

theorem within_peekCopy (h : o.Within C N) {s : List String} (hs : ∀ t ∈ s, C t) (b : Nat) :
    (peekCopy o s b).Within C N :=
  ⟨hs, h.push, h.replace⟩

theorem within_captureClose {r : Option String} (h : ∀ m ∈ r, N m) :
    (captureClose r).Within C N := by
  refine ⟨?_, ?_, h⟩ <;> simp [captureClose]

/-! ### Segments -/

theorem segmentsFrom_tokens : ∀ {alt : Sequence} {current : Segment},
    (∀ t ∈ current.terms, C t) → (∀ el ∈ alt, el.isRef = true ∨ C (E.tokens.name el)) →
      ∀ seg ∈ segmentsFrom E.tokens current alt, ∀ t ∈ seg.terms, C t
  | [], current, hcurrent, _, seg, hseg => by
    unfold segmentsFrom at hseg
    split at hseg
    · cases hseg
    · rwa [List.mem_singleton.mp hseg]
  | el :: rest, current, hcurrent, halt, seg, hseg => by
    obtain ⟨hel, hrest⟩ := List.forall_mem_cons.mp halt
    by_cases href : el.isRef = true
    · obtain ⟨m, hm⟩ := Element.isRef_iff.mp href
      obtain ⟨debt, sp, rfl⟩ := Element.refName_eq_some.mp hm
      rcases List.mem_cons.mp hseg with rfl | hseg
      · exact hcurrent
      · exact segmentsFrom_tokens (by simp) hrest seg hseg
    · have hstep : segmentsFrom E.tokens current (el :: rest) =
          segmentsFrom E.tokens { current with terms := current.terms ++ [E.tokens.name el] }
            rest := by
        cases el <;> first | rfl | exact absurd rfl href
      rw [hstep] at hseg
      refine segmentsFrom_tokens (fun t ht => ?_) hrest seg hseg
      rcases List.mem_append.mp ht with ht | ht
      · exact hcurrent t ht
      · exact List.mem_singleton.mp ht ▸ hel.resolve_left href

theorem segmentize_tokens {alt : Sequence}
    (halt : ∀ el ∈ alt, el.isRef = true ∨ C (E.tokens.name el)) {seg : Segment}
    (hseg : seg ∈ segmentize E.tokens alt) : ∀ t ∈ seg.terms, C t := by
  unfold segmentize at hseg
  split at hseg
  · rw [List.mem_singleton.mp hseg]
    simp
  · exact segmentsFrom_tokens (by simp) halt seg hseg

/-- The segments of an alternative push its references and read its terminals. -/
theorem segmentToAlt_within {alt : Sequence} (halt : AltWithin E C N alt) {seg : Segment}
    (hseg : seg ∈ segmentize E.tokens alt) : (segmentToAlt seg).Within C N where
  tokens := segmentize_tokens halt.tokens hseg
  push m hm := by
    obtain ⟨el, hel, hname⟩ := refName_of_segment hseg hm
    exact halt.refs el hel m hname
  replace := by simp [segmentToAlt]

theorem segmentOf_mem (tokens : Tokens) (alt : Sequence) :
    segmentOf tokens alt ∈ segmentize tokens alt := by
  obtain ⟨seg, segs, h⟩ := List.exists_cons_of_ne_nil (@segmentize_ne_nil tokens alt)
  simp [segmentOf, h]

/-! ### Placing -/

theorem synthKeywordGuards_within (hk : E.Knows C) {alt : Sequence} {f : String}
    {guards : List AltSpec} (h : synthKeywordGuards E prod o alt f = some guards)
    (ho : o.Within C N) (halt : ∀ el ∈ alt, el.isRef = true ∨ C (E.tokens.name el))
    (hf : C f) : ∀ g ∈ guards, g.Within C N := by
  unfold synthKeywordGuards at h
  dsimp only at h
  split at h
  · cases h
  · split at h
    · cases h
    · obtain rfl := Option.some.inj h
      intro g hg
      obtain ⟨u, hu, rfl⟩ := List.mem_map.mp hg
      refine within_peekCopy ho ?_ _
      have hu : C u := by
        obtain ⟨q, hq, hu⟩ := List.mem_flatMap.mp ((mem_addAll.mp hu).resolve_left (by simp))
        have hq := hk.lists.enumerate halt (List.mem_of_mem_filter hq)
        split at hu
        · next u' hsome =>
          obtain rfl := List.mem_singleton.mp hu
          exact hq _ (List.mem_of_getElem? hsome)
        · exact hk.follow _ u hu
      simp [hf, hu]

/-- **Placing keeps to it**, the keyword guards included. -/
theorem placeEntries_within (hk : E.Knows C) {entries : List Entry}
    (h : ∀ e ∈ entries, e.Within E C N) : ∀ o ∈ placeEntries E prod entries, o.Within C N := by
  have hguarded : ∀ e ∈ specificityPermute E (applyDebtGuard prod entries), e.Within E C N := by
    intro e he
    rw [mem_specificityPermute] at he
    unfold applyDebtGuard at he
    split at he
    · obtain ⟨e₀, he₀, rfl⟩ := List.mem_map.mp he
      obtain ⟨halternate, horigin⟩ := h e₀ he₀
      split
      · exact ⟨halternate, horigin⟩
      · exact ⟨⟨halternate.tokens, halternate.push, halternate.replace⟩, horigin⟩
    · exact h e he
  intro o ho
  obtain ⟨a, ha, rfl⟩ := List.mem_map.mp ho
  obtain ⟨⟨e, i⟩, he, ha⟩ := List.mem_flatMap.mp ((List.mem_insertionSort _).mp ha)
  obtain ⟨halternate, horigin⟩ := hguarded e (List.fst_mem_of_mem_zipIdx he)
  unfold placeEntry at ha
  dsimp only at ha
  split at ha
  · next firstC lastC alt f _ _ halt hs =>
    split at ha
    · next guards hguards =>
      rcases List.mem_append.mp ha with ha | ha
      · obtain ⟨g, hg, rfl⟩ := List.mem_map.mp ha
        by_cases hb : e.o.b ≤ 1
        · rw [if_pos hb] at hguards
          exact synthKeywordGuards_within hk hguards halternate (horigin alt halt)
            (halternate.tokens f (by simp [hs])) g hg
        · rw [if_neg hb] at hguards
          cases hguards
      · rwa [List.mem_singleton.mp ha]
    · rwa [List.mem_singleton.mp ha]
  · rwa [List.mem_singleton.mp ha]
  · rwa [List.mem_singleton.mp ha]

/-! ### Entries -/

theorem exitEntries_within (hk : E.Knows C) (ho : o.Within C N) :
    ∀ e ∈ (exitEntries E prod o).1 ++ (exitEntries E prod o).2, e.Within E C N := by
  intro e he
  unfold exitEntries at he
  split at he
  · rcases List.mem_append.mp he with he | he
    · obtain ⟨g, hg, rfl⟩ := List.mem_map.mp he
      refine ⟨?_, by simp⟩
      unfold pairExitGuards at hg
      dsimp only at hg
      split at hg
      · cases hg
      · obtain ⟨s, hs, rfl⟩ := List.mem_map.mp hg
        obtain ⟨tus, htus, hs⟩ := List.mem_flatMap.mp ((mem_addAll.mp hs).resolve_left (by simp))
        obtain ⟨ht, hus⟩ := hk.pairs _ tus htus
        split at hs
        · obtain ⟨u, hu, rfl⟩ := List.mem_map.mp hs
          exact within_peekCopy ho (by simp [ht, hus u hu]) _
        · cases hs
    · obtain ⟨tok, htok, rfl⟩ := List.mem_map.mp he
      exact ⟨within_peekCopy ho (by simpa using hk.follow _ tok htok) _, by simp⟩
  · cases he

theorem refPeekTokens_within (hk : E.Knows C) {ordered : List Sequence} {idx : Nat}
    {seg : Segment} : ∀ t ∈ refPeekTokens E ordered idx seg, C t := by
  intro t ht
  unfold refPeekTokens at ht
  split at ht
  · split at ht
    · dsimp only at ht
      split at ht
      · exact hk.sets _ t ht
      · cases ht
    · cases ht
  · cases ht

theorem refPeeks_within (hk : E.Knows C) {ordered : List Sequence} {idx : Nat} {alt : Sequence}
    (halt : AltWithin E C N alt) {seg : Segment} (hseg : seg ∈ segmentize E.tokens alt)
    (href : seg.reference.isSome = true) {firstTokens : List String}
    (hfirst : ∀ t ∈ firstTokens, C t) :
    ∀ e ∈ refPeeks E prod ordered idx alt seg firstTokens, e.Within E C N := by
  have hpaths : ∀ s ∈ (if altHeadContested E idx ordered || contestedByFollow E prod alt then
      (altPrefixes E alt lookaheadK).filter (!·.isEmpty) else []), ∀ t ∈ s, C t := by
    intro s hs
    split at hs
    · obtain ⟨q, hq, rfl⟩ := List.mem_map.mp (mem_distinctPrefixes (List.mem_of_mem_filter hs))
      exact hk.lists.enumerate halt.tokens hq
    · cases hs
  intro e he
  unfold refPeeks at he
  dsimp only at he
  obtain ⟨s, hs, rfl⟩ := List.mem_map.mp he
  refine ⟨⟨?_, fun m hm => ?_, by simp⟩, fun alt' halt' => ?_⟩
  · generalize (if (altHeadContested E idx ordered || contestedByFollow E prod alt) = true then
      (altPrefixes E alt lookaheadK).filter (!·.isEmpty) else []) = paths at hs hpaths
    split at hs
    · exact hpaths s hs
    · obtain ⟨tok, htok, rfl⟩ := List.mem_map.mp hs
      simpa using hfirst tok htok
  · obtain ⟨r, hr⟩ := Option.isSome_iff_exists.mp href
    rw [hr] at hm
    exact (segmentToAlt_within halt hseg).push m (by rw [segmentToAlt, hr]; exact hm)
  · exact Option.some.inj halt' ▸ halt.tokens

theorem singleAlternate_within {isLoop : Bool} (hloop : isLoop = true → N prod.name)
    {alt : Sequence} (halt : AltWithin E C N alt) :
    (singleAlternate prod isLoop alt (segmentOf E.tokens alt)).Within C N := by
  have hseg := segmentToAlt_within halt (segmentOf_mem E.tokens alt)
  unfold singleAlternate
  split
  · next h =>
    refine ⟨hseg.tokens, by simp, fun m hm => ?_⟩
    obtain rfl := Option.some.inj hm
    exact hloop (Bool.and_eq_true _ _ ▸ h).1
  · exact hseg

theorem allSingleEntries_within (hk : E.Knows C) {isLoop : Bool}
    (hloop : isLoop = true → N prod.name) (halts : ∀ alt ∈ prod.alts, AltWithin E C N alt) :
    ∀ e ∈ allSingleEntries E prod isLoop, e.Within E C N := by
  intro e he
  obtain ⟨alt, idx, hat, he⟩ := mem_allSingleEntries.mp he
  have halt := halts alt (mem_emptyAltsLast.mp (List.fst_mem_of_mem_zipIdx hat))
  have hown : (singleAlternate prod isLoop alt (segmentOf E.tokens alt)).Within C N :=
    singleAlternate_within hloop halt
  unfold singleEntries at he
  dsimp only at he
  rw [show (segmentize E.tokens alt).headD {} = segmentOf E.tokens alt from rfl] at he
  split at he
  · next firstTokens hfirst =>
    split at hfirst
    · next honly =>
      rw [List.nil_append] at he
      refine refPeeks_within hk halt (segmentOf_mem E.tokens alt) ?_
        (firstOfAlt_within hk.sets halt.tokens hfirst) e he
      simp only [Bool.and_eq_true] at honly
      exact honly.2.2
    · cases hfirst
  · rcases List.mem_append.mp he with he | he
    · split at he
      · exact exitEntries_within hk hown e (List.mem_append_left _ he)
      · cases he
    · rcases List.mem_append.mp he with he | he
      · split at he
        · exact exitEntries_within hk hown e (List.mem_append_right _ he)
        · cases he
      · split at he
        · rw [List.mem_singleton.mp he]
          refine ⟨hown, fun alt' halt' => ?_⟩
          split at halt'
          · cases halt'
          · exact Option.some.inj halt' ▸ halt.tokens
        · obtain ⟨tok, htok, rfl⟩ := List.mem_map.mp he
          refine ⟨within_peekCopy hown (fun t ht => ?_) _, fun alt' halt' => ?_⟩
          · rcases List.mem_append.mp ht with ht | ht
            · exact (segmentToAlt_within halt (segmentOf_mem E.tokens alt)).tokens t ht
            · exact List.mem_singleton.mp ht ▸ refPeekTokens_within hk tok htok
          · exact Option.some.inj halt' ▸ halt.tokens

theorem dispatchEntries_within (hk : E.Knows C) {isLoop : Bool} {dispatch : List DispatchPrefixes}
    (halts : ∀ alt ∈ prod.alts, ∀ el ∈ alt, el.isRef = true ∨ C (E.tokens.name el))
    (hnames : ∀ i alt, prod.alts[i]? = some alt → alt ≠ [] → N (altName prod.name i))
    (hdispatch : ∀ d ∈ dispatch, ∀ p ∈ d.prefixes, ∀ t ∈ p, C t) {entries : List Entry}
    (h : dispatchEntries diag E prod isLoop dispatch = .ok entries) :
    ∀ e ∈ entries, e.Within E C N := by
  obtain ⟨content, hcontent, hmem⟩ := mem_dispatchEntries h
  intro e he
  rcases (hmem e).mp he with he | ⟨i, alt, d, hat, hne, -, -, he⟩ | ⟨-, he⟩
  · obtain ⟨es, hes, he⟩ := List.mem_flatten.mp he
    obtain ⟨⟨⟨alt, d⟩, i⟩, hat, hok⟩ := exists_left_of_forall₂ hcontent hes
    have hsome := getElem?_of_mem_zip hat
    have halt := halts alt (List.mem_of_getElem? hsome)
    dsimp only at hok
    unfold implEntries at hok
    split at hok
    · cases hok
      cases he
    · next hne =>
      have hname := hnames i alt hsome (by simpa using hne)
      obtain ⟨peeks, hpeeks, hok⟩ := bind_eq_ok hok
      obtain rfl := Except.ok.inj hok
      obtain ⟨s, hs, rfl⟩ := List.mem_map.mp he
      have hs : ∀ t ∈ s, C t := by
        unfold dispatchPeeks at hpeeks
        split at hpeeks
        · obtain rfl := Except.ok.inj hpeeks
          exact hdispatch d (List.of_mem_zip (List.fst_mem_of_mem_zipIdx hat)).2 s hs
        · split at hpeeks
          · next first hfirst =>
            obtain rfl := Except.ok.inj hpeeks
            obtain ⟨tok, htok, rfl⟩ := List.mem_map.mp hs
            simpa using firstOfAlt_within hk.sets halt hfirst tok htok
          · cases hpeeks
      refine ⟨?_, fun alt' halt' => Option.some.inj halt' ▸ halt⟩
      dsimp only
      split <;> constructor <;> simp_all
  · have hname := hnames i alt (getElem?_of_mem_zip hat) hne
    unfold nullableEntries at he
    rcases List.mem_append.mp he with he | he
    · obtain ⟨tok, htok, rfl⟩ := List.mem_map.mp he
      refine ⟨⟨?_, ?_, by simp⟩, by simp⟩
      · simpa using hk.follow _ tok htok
      · simpa using hname
    · rw [List.mem_singleton.mp he]
      exact ⟨⟨by simp, by simpa using hname, by simp⟩, by simp⟩
  · rcases he with he | rfl
    · exact exitEntries_within hk within_empty e he
    · exact ⟨within_empty, by simp⟩

end

/-! ## The rules of a production -/

section

variable {diag : String} {E : Emitter} {C N : String → Prop} {prod : Production}
  {rules : RuleTable}

theorem chainFrom_within {head : String} : ∀ {segs : List Segment} {i : Nat},
    (∀ seg ∈ segs, (segmentToAlt seg).Within C N) →
      (∀ k ∈ (chainFrom head i segs).map Prod.fst, N k) →
        ∀ e ∈ chainFrom head i segs, e.2.Within C N
  | [], _, _, _, e, he => by cases he
  | [seg], i, hsegs, _, e, he => by
    obtain rfl := List.mem_singleton.mp he
    refine ⟨by simpa using hsegs, fun o ho => ?_⟩
    dsimp only at ho
    split at ho
    · obtain rfl := List.mem_singleton.mp ho
      exact within_captureClose (by simp)
    · cases ho
  | seg :: seg' :: segs, i, hsegs, hkeys, e, he => by
    obtain ⟨hseg, hrest⟩ := List.forall_mem_cons.mp hsegs
    have hkeys' : ∀ k ∈ (chainFrom head (i + 1) (seg' :: segs)).map Prod.fst, N k :=
      fun k hk => hkeys k (List.mem_cons_of_mem _ hk)
    rcases List.mem_cons.mp he with rfl | he
    · refine ⟨by simpa using hseg, fun o ho => ?_⟩
      obtain rfl := List.mem_singleton.mp ho
      refine within_captureClose fun m hm => ?_
      obtain rfl := Option.some.inj hm
      refine hkeys' _ ?_
      rw [keys_chainFrom, List.length_cons, List.range'_succ]
      exact List.mem_cons_self
    · exact chainFrom_within hrest hkeys' e he

theorem emittedAlt_within {loopItem : Option Element} {i : Nat} {alt : Sequence}
    (h : EmittedAlt E prod i loopItem alt rules) (hitem : ∀ item ∈ loopItem, item ∈ alt)
    (halt : AltWithin E C N alt) (hself : N prod.name) (hkeys : ∀ k ∈ rules.map Prod.fst, N k) :
    ∀ e ∈ rules, e.2.Within C N := by
  cases h with
  | empty => exact fun e he => by cases he
  | @loop _ item itemName hne hname =>
    have hpush : N itemName := halt.refs item (hitem item rfl) itemName hname
    intro e he
    simp only [List.mem_cons, List.not_mem_nil, or_false] at he
    rcases he with rfl | rfl
    · refine ⟨?_, ?_⟩ <;> intro o ho <;> obtain rfl := List.mem_singleton.mp ho
      · exact ⟨by simp, by simpa using hpush, by simp⟩
      · exact ⟨by simp, by simp, by simpa using hkeys _ (by simp)⟩
    · refine ⟨fun o ho => ?_, by simp⟩
      obtain rfl := List.mem_singleton.mp ho
      exact ⟨by simp, by simp, by simpa using hself⟩
  | chain hne => exact chainFrom_within (fun seg hseg => segmentToAlt_within halt hseg) hkeys

theorem loopEntry_within (h : N prod.name) : (loopEntry prod).Within C N :=
  ⟨by simp [loopEntry], by simp [loopEntry], by simpa [loopEntry] using h⟩

/-- What a production, its marks included, may name. -/
structure ProdWithin (E : Emitter) (C N : String → Prop) (prod : Production) : Prop where
  alts : ∀ alt ∈ prod.alts, AltWithin E C N alt
  vocab : ∀ helper ∈ prod.probeHelper, ∀ el ∈ helper.vocabElements, ∀ t ∈ E.tokens.of el, C t
  dispatch : ∀ pd ∈ prod.probeDispatch, N pd.probeRule ∧ N pd.withBranch ∧ N pd.noBranch
  sep : ∀ tail ∈ prod.tailRepeat, ∀ el ∈ tail.sep, el.isRef = true ∨ C (E.tokens.name el)

/-- **The rules of a production keep to it**, on every path of the emitter, its own rules among
`N`. -/
theorem Emitted.within (hk : E.Knows C) (h : Emitted diag E prod rules)
    (hprod : ProdWithin E C N prod) (hkeys : ∀ k ∈ rules.map Prod.fst, N k) :
    ∀ e ∈ rules, e.2.Within C N := by
  have hplaced : ∀ {entries : List Entry}, N prod.name →
      (∀ e ∈ entries, e.Within E C N) → ∀ close : Option (List AltSpec),
        (∀ o ∈ close.getD [], o.Within C N) →
          (⟨placeEntries E prod entries, close⟩ : RuleSpec).Within C N ∧
          (⟨loopEntry prod :: placeEntries E prod entries, none⟩ : RuleSpec).Within C N := by
    intro entries hname hentries close hclose
    have hopens : ∀ o ∈ placeEntries E prod entries, o.Within C N :=
      placeEntries_within hk hentries
    exact ⟨⟨hopens, hclose⟩, ⟨List.forall_mem_cons.mpr ⟨loopEntry_within hname, hopens⟩, by simp⟩⟩
  have hcapture : (captureClose none).Within C N := within_captureClose (by simp)
  cases h with
  | @probeHelper helper h =>
    intro e he
    obtain rfl := List.mem_singleton.mp he
    refine ⟨fun o ho => ?_, by simp [emitProbeHelper]⟩
    rcases List.mem_append.mp ho with ho | ho
    · obtain ⟨el, hel, ho⟩ := List.mem_filterMap.mp ho
      obtain ⟨tok, htok, rfl⟩ := Option.map_eq_some_iff.mp ho
      exact ⟨by simpa using hprod.vocab helper h el hel tok htok, by simp,
        by simpa using hkeys _ (by simp)⟩
    · rw [List.mem_singleton.mp ho]
      exact within_empty
  | @probeDispatch pd rule h hrule =>
    obtain ⟨hprobe, hwith, hno⟩ := hprod.dispatch pd h
    have hname : N prod.name := hkeys _ (by simp)
    intro e he
    obtain rfl := List.mem_singleton.mp he
    unfold emitProbeDispatch at hrule
    split at hrule
    · cases hrule
    · obtain rfl := Except.ok.inj hrule
      refine ⟨fun o ho => ?_, fun o ho => ?_⟩
      · simp only [List.mem_cons, List.not_mem_nil, or_false] at ho
        rcases ho with rfl | rfl | rfl <;> constructor <;> simp [hprobe, hwith, hno]
      · simp only [Option.getD_some, List.mem_cons, List.not_mem_nil, or_false] at ho
        rcases ho with rfl | rfl <;> constructor <;> simp [hname]
  | @tailRepeat tail h =>
    have hfirst : AltWithin E C N (prod.alts.headD []) := by
      cases halts : prod.alts with
      | nil => exact ⟨by simp, by simp⟩
      | cons alt rest => exact hprod.alts alt (by simp [halts])
    intro e he
    obtain rfl := List.mem_singleton.mp he
    refine ⟨fun o ho => ?_, fun o ho => ?_⟩
    · obtain rfl := List.mem_singleton.mp ho
      exact segmentToAlt_within hfirst (segmentOf_mem E.tokens _)
    · simp only [emitTailRepeat, Option.getD_some, List.mem_cons, List.not_mem_nil,
        or_false] at ho
      rcases ho with rfl | rfl
      · exact ⟨segmentize_tokens (hprod.sep tail h) (segmentOf_mem E.tokens tail.sep), by simp,
          by simpa using hkeys _ (by simp)⟩
      · exact within_empty
  | @single loopItem hitem hloop hsingle =>
    have hname : N prod.name := hkeys _ (by simp)
    have hentries : ∀ e ∈ allSingleEntries E prod loopItem.isSome, e.Within E C N :=
      allSingleEntries_within hk (fun _ => hname) hprod.alts
    intro e he
    obtain rfl := List.mem_singleton.mp he
    unfold singleRule
    dsimp only
    split
    · exact (hplaced hname hentries none (by simp)).2
    · refine (hplaced hname hentries _ fun o ho => ?_).1
      split at ho
      · rwa [List.mem_singleton.mp ho]
      · cases ho
  | @chain alt halts =>
    exact chainFrom_within (fun seg hseg => segmentToAlt_within (hprod.alts alt (by simp [halts]))
      hseg) hkeys
  | @dispatch loopItem dispatch impls entries hitem hloop hdispatch himpls hentries =>
    have hname : N prod.name := hkeys _ (by simp)
    have hin : ∀ rs ∈ impls, ∀ k ∈ rs.map Prod.fst, N k := by
      intro rs hrs k hk
      refine hkeys k ?_
      rw [List.map_append, List.map_flatten]
      exact List.mem_append_left _ (List.mem_flatten.mpr ⟨_, List.mem_map_of_mem hrs, hk⟩)
    have hnames : ∀ i alt, prod.alts[i]? = some alt → alt ≠ [] → N (altName prod.name i) := by
      intro i alt halt hne
      have hat : (alt, i) ∈ prod.alts.zipIdx := List.mk_mem_zipIdx_iff_getElem?.mpr halt
      obtain ⟨rs, hrs, hemitted⟩ := exists_right_of_forall₂ himpls hat
      refine hin rs hrs _ ?_
      cases hemitted with
      | empty => exact absurd rfl hne
      | loop => exact List.mem_cons_self
      | chain =>
        rw [keys_chainFrom]
        have hpos := List.length_pos_iff.mpr (@segmentize_ne_nil E.tokens alt)
        exact List.mem_map.mpr ⟨0, by simpa using hpos, rfl⟩
    have hentries := dispatchEntries_within hk (fun alt halt => (hprod.alts alt halt).tokens) hnames
      (hk.lists.dispatchPrefixes (fun alt halt => (hprod.alts alt halt).tokens) hdispatch) hentries
    intro e he
    rcases List.mem_append.mp he with he | he
    · obtain ⟨rs, hrs, he⟩ := List.mem_flatten.mp he
      obtain ⟨⟨alt, i⟩, hat, hemitted⟩ := exists_left_of_forall₂ himpls hrs
      have halt : alt ∈ prod.alts := List.fst_mem_of_mem_zipIdx hat
      by_cases hempty : alt = []
      · subst hempty
        cases hemitted with
        | empty => cases he
        | loop hne => exact absurd rfl hne
        | chain hne => exact absurd rfl hne
      · refine emittedAlt_within hemitted (fun item hsome => ?_) (hprod.alts alt halt) hname
          (hin rs hrs) e he
        obtain ⟨self, -, rfl⟩ := ((hitem item hsome).alts alt halt).resolve_left hempty
        exact List.mem_cons_self
    · obtain rfl := List.mem_singleton.mp he
      dsimp only
      split
      · exact (hplaced hname hentries none (by simp)).2
      · exact (hplaced hname hentries _ (by simpa using hcapture)).1

/-- The rules of a grammar, and the start wrapper, keep to it. -/
theorem emitRules_within (hk : E.Knows C) {start : String}
    (h : emitRules diag E start = .ok rules)
    (hprods : ∀ p ∈ E.grammar.productions, ProdWithin E C N p)
    (hkeys : ∀ k ∈ rules.map Prod.fst, N k) (hstart : N start) :
    ∀ e ∈ rules, e.2.Within C N := by
  have hrules := emitRules_eq h
  have hmem : ∀ {es : RuleTable} {t : RuleTable} {e : String × RuleSpec},
      e ∈ Table.insertAll t es → e ∈ t ∨ e ∈ es := by
    intro es
    induction es with
    | nil => exact fun h => .inl h
    | cons x es ih =>
      intro t e he
      rcases ih he with he | he
      · rcases Table.mem_insert he with he | rfl
        · exact .inl he
        · exact .inr List.mem_cons_self
      · exact .inr (List.mem_cons_of_mem _ he)
  intro e he
  rw [hrules] at he
  rcases Table.mem_insert he with he | rfl
  · obtain ⟨p, hp, he⟩ := List.mem_flatMap.mp ((hmem he).resolve_left List.not_mem_nil)
    refine (emitRule_cases (emitRule_eq_of_emitRules h hp)).within hk (hprods p hp)
      (fun k hk => hkeys k ?_) e he
    rw [hrules, Table.mem_keys_insert, Table.mem_keys_insertAll]
    refine .inr (.inr ?_)
    rw [List.map_flatMap]
    exact List.mem_flatMap.mpr ⟨p, hp, hk⟩
  · refine ⟨fun o ho => ?_, fun o ho => ?_⟩ <;> obtain rfl := List.mem_singleton.mp ho
    · exact ⟨by simp, by simpa using hstart, by simp⟩
    · exact ⟨by simpa using hk.lists.ends, by simp, by simp⟩

end

end TabnasBnf
