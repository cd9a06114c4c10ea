import TabnasBnf.KeywordGuards

/-!
# FOLLOW is exact

Where every element derives something and every production with a reference stands in a sentence,
what FOLLOW says is not more than what the sentences show (FollowCovers.lean has the converse): each
token of a set comes behind its production in some sentence, and so do the two tokens of each pair
of `compute_follow_pairs`.

* `spelledLang` is what the names derive step by step, tail repeats and token classes included.
* `MayFollow.within`: what stands behind a production stands behind a reference in it, after what
  the rest of the alternative derives.
* **`Compile.mem_follow_iff`**, **`Compile.mayFollow_of_mem_pairs`**.
-/

namespace TabnasBnf

open Saturate

/-! ## What a name derives step by step -/

section

variable {grammar : Grammar} {tokens : Tokens} {classSets : List (String × String)}

variable (grammar tokens classSets) in
/-- The strings of a name: the tokens of the terminals a reference derives. -/
def spelledLang : Env String := fun n =>
  {w | ∀ debt sp, ∃ γ, Cf.Derives (Unfolds grammar classSets) [.ref n debt sp] γ ∧
    SpellsTokens tokens γ w}

/-- A sequence derives the terminals of what its references do. -/
theorem derives_of_mem_seq {w : List String} : ∀ {α : Sequence},
    (∀ el ∈ α, el.isTerminal = true ∨ el.isRef = true) →
      w ∈ Cf.seq (den (tokenLeaf tokens) (spelledLang grammar tokens classSets)) α →
      ∃ γ, Cf.Derives (Unfolds grammar classSets) α γ ∧ SpellsTokens tokens γ w
  | [], _, hw => by
    obtain rfl := (Language.mem_one _).mp hw
    exact ⟨[], .refl, by simp [SpellsTokens]⟩
  | el :: α, hplain, hw => by
    obtain ⟨hel, hplain⟩ := List.forall_mem_cons.mp hplain
    rw [Cf.seq_cons] at hw
    obtain ⟨a, ha, b, hb, rfl⟩ := Language.mem_mul.mp hw
    obtain ⟨γ, hγ, hspells⟩ := derives_of_mem_seq hplain hb
    obtain ⟨γ₁, hγ₁, hspells₁⟩ : ∃ γ, Cf.Derives (Unfolds grammar classSets) [el] γ ∧
        SpellsTokens tokens γ a := by
      rcases hel with hterm | href
      · rw [den_terminal hterm] at ha
        obtain rfl : a = [tokens.name el] := ha
        exact ⟨[el], .refl, List.forall_mem_singleton.mpr hterm, rfl⟩
      · obtain ⟨m, hm⟩ := Element.isRef_iff.mp href
        obtain ⟨debt, sp, rfl⟩ := Element.refName_eq_some.mp hm
        rw [den_ref] at ha
        exact ha debt sp
    exact ⟨γ₁ ++ γ, Cf.derives_append hγ₁ hγ, hspells₁.append hspells⟩

/-- A reference may be replaced by every alternative of its production, a tail repeat's without a
repetition. -/
theorem unfolds_of_alt {p : Production} (hp : p ∈ grammar.productions)
    (hclass : classSets.lookup p.name = none) {alt : Sequence} (halt : alt ∈ p.alts)
    (debt : Option (List (String × Int))) (sp : Option SrcSpan) :
    Unfolds grammar classSets (.ref p.name debt sp) alt := by
  cases htail : p.tailRepeat with
  | none => exact .ofAlt hp hclass htail halt
  | some spec =>
    have hunfolds : Unfolds grammar classSets (.ref p.name debt sp)
        (alt ++ (List.replicate 0 (spec.sep ++ alt)).flatten) := .ofTail 0 hp hclass htail halt
    simpa using hunfolds

/-- The strings of a name solve the equations of its production. -/
theorem seq_le_spelledLang (hplain : Plain grammar) {p : Production}
    (hp : p ∈ grammar.productions) (hclass : classSets.lookup p.name = none) {alt : Sequence}
    (halt : alt ∈ p.alts) :
    Cf.seq (den (tokenLeaf tokens) (spelledLang grammar tokens classSets)) alt ≤
      spelledLang grammar tokens classSets p.name := by
  intro w hw debt sp
  obtain ⟨γ, hγ, hspells⟩ := derives_of_mem_seq (hplain p hp alt halt) hw
  have hstep := Cf.Rewrite.mk [] [] (unfolds_of_alt hp hclass halt debt sp)
  rw [List.nil_append, List.nil_append, List.append_nil] at hstep
  exact ⟨γ, .head hstep hγ, hspells⟩

/-- A token class spells its set's token. -/
theorem class_mem_spelledLang {p : Production} (hp : p ∈ grammar.productions) {set : String}
    (hclass : classSets.lookup p.name = some set) :
    [set] ∈ spelledLang grammar tokens classSets p.name := by
  intro debt sp
  have hunfolds : Unfolds grammar classSets (.ref p.name debt sp) [.token set none] :=
    .ofClass hp hclass
  exact ⟨_, .single (Cf.Rewrite.mk [] [] hunfolds), by simp [Element.isTerminal], rfl⟩

/-- What the alternatives derive, the steps do. -/
theorem altsLang_le_spelledLang (hplain : Plain grammar) (n : String) :
    altsLang grammar tokens classSets n ≤ spelledLang grammar tokens classSets n := by
  refine nameLang_le (fun q hq w hw => ?_) n
  obtain ⟨p, hp, rfl⟩ := List.mem_map.mp hq
  rw [name_readClass]
  obtain ⟨alt, halt, hw⟩ := mem_altsDen.mp hw
  unfold readClass at halt
  split at halt
  · next set hset =>
    obtain rfl := List.mem_singleton.mp halt
    rw [Cf.seq_singleton, den_terminal rfl] at hw
    obtain rfl : w = [set] := hw
    exact class_mem_spelledLang hp hset
  · next hnone => exact seq_le_spelledLang hplain hp hnone halt hw

/-- A live grammar: every name an alternative refers to has a string. -/
theorem exists_spelled_of_live (hplain : Plain grammar)
    (hlive : ∀ p ∈ grammar.productions, ∀ α ∈ p.alts, Live grammar tokens classSets α) :
    ∀ n ∈ grammar.refs, ∃ w, w ∈ spelledLang grammar tokens classSets n := by
  intro n hn
  obtain ⟨p, hp, hn⟩ := List.mem_flatMap.mp hn
  obtain ⟨α, hα, hn⟩ := mem_refsInAlts.mp hn
  obtain ⟨el, hel, hn⟩ := mem_refsIn.mp hn
  obtain ⟨a, ha⟩ := hlive p hp α hα el hel
  rcases hplain p hp α hα el hel with hterm | href
  · cases el <;> first | cases hn; done | cases hterm
  · obtain ⟨m, hm⟩ := Element.isRef_iff.mp href
    obtain ⟨debt, sp, rfl⟩ := Element.refName_eq_some.mp hm
    obtain rfl := List.mem_singleton.mp hn
    rw [den_ref] at ha
    exact ⟨a, altsLang_le_spelledLang hplain n ha⟩

/-- FIRST says what the steps derive. -/
theorem holds_spelledLang (hplain : Plain grammar)
    (hrefs : ∀ n ∈ grammar.refs, ∃ w, w ∈ spelledLang grammar tokens classSets n) :
    ∀ f ∈ computeFirstSets grammar tokens classSets,
      f.Holds (spelledLang grammar tokens classSets) :=
  holds_computeFirstSets hplain hrefs (fun _ hp _ hset => class_mem_spelledLang hp hset)
    fun _ hp hnone _ hα => seq_le_spelledLang hplain hp hnone hα

/-- What may vanish derives the empty string. -/
theorem nil_mem_seq_of_canVanish {ρ : Env String} {sets : FirstSets}
    (hsets : ∀ f ∈ sets, f.Holds ρ) {β : Sequence} (h : CanVanish sets β) :
    [] ∈ Cf.seq (den (tokenLeaf tokens) ρ) β := by
  refine nil_mem_seq.mpr fun el hel => ?_
  obtain ⟨m, hm, hnull⟩ := h el hel
  obtain ⟨debt, sp, rfl⟩ := Element.refName_eq_some.mp hm
  rw [den_ref]
  exact hsets _ (FirstSets.isNullable_iff.mp hnull)

/-- What may begin with a token derives a string that does. -/
theorem exists_mem_seq_of_begins {ρ : Env String} {sets : FirstSets}
    (hsets : ∀ f ∈ sets, f.Holds ρ) {t : String} : ∀ {β : Sequence},
      (∀ el ∈ β, el.isTerminal = true ∨ el.isRef = true) → (∀ n ∈ refsIn β, ∃ w, w ∈ ρ n) →
      Begins tokens sets t β → ∃ w, t :: w ∈ Cf.seq (den (tokenLeaf tokens) ρ) β
  | [], _, _, h => h.elim
  | el :: β, hplain, hrefs, h => by
    obtain ⟨hel, hplain'⟩ := List.forall_mem_cons.mp hplain
    have hrefs' : ∀ n ∈ refsIn β, ∃ w, w ∈ ρ n := fun n hn =>
      hrefs n (List.mem_append_right _ hn)
    have hbegin : ∀ w, t :: w ∈ den (tokenLeaf tokens) ρ el →
        ∃ w, t :: w ∈ Cf.seq (den (tokenLeaf tokens) ρ) (el :: β) := by
      intro w hw
      obtain ⟨v, hv⟩ : ∃ v, v ∈ Cf.seq (den (tokenLeaf tokens) ρ) β :=
        exists_mem_seq β hplain' hrefs'
      exact ⟨w ++ v, by rw [Cf.seq_cons]; exact Language.append_mem_mul hw hv⟩
    rcases hel with hterm | href
    · have hname : t = tokens.name el := by cases el <;> first | exact h | cases hterm
      exact hbegin [] (by rw [den_terminal hterm, hname]; rfl)
    · obtain ⟨m, hm⟩ := Element.isRef_iff.mp href
      obtain ⟨debt, sp, rfl⟩ := Element.refName_eq_some.mp hm
      rcases h with hfirst | ⟨hnull, h⟩
      · obtain ⟨w, hw⟩ := hsets _ hfirst
        exact hbegin w (by rwa [den_ref])
      · obtain ⟨w, hw⟩ := exists_mem_seq_of_begins (β := β) hsets hplain' hrefs' h
        have hnil : [] ∈ ρ m := hsets _ (FirstSets.isNullable_iff.mp hnull)
        exact ⟨w, by rw [Cf.seq_cons, den_ref]; exact Language.append_mem_mul hnil hw⟩

end

/-! ## Pairs -/

theorem FollowPairs.mem_of_get {pairs : FollowPairs} {n t u : String} {us : List String}
    (h : (t, us) ∈ pairs.get n) (hu : u ∈ us) : (n, t, u) ∈ pairs := by
  obtain ⟨t', -, heq⟩ := List.mem_map.mp h
  obtain ⟨rfl, rfl⟩ := Prod.mk.inj heq
  obtain ⟨⟨t₁, u₁⟩, hmine, hsecond⟩ := List.mem_filterMap.mp hu
  obtain ⟨⟨n₁, tu⟩, hpair, hmine⟩ := List.mem_filterMap.mp hmine
  simp only [Option.ite_none_right_eq_some, Option.some.injEq, beq_iff_eq] at hsecond hmine
  obtain ⟨rfl, rfl⟩ := hsecond
  obtain ⟨rfl, rfl⟩ := hmine
  exact hpair

section

variable {tokens : Tokens} {sets : FirstSets} {follow : FollowSets} {pairs : FollowPairs}
  {n t u : String} {β : Sequence}

theorem mem_suffixPairs_ref {m : String} {debt : Option (List (String × Int))}
    {sp : Option SrcSpan} :
    (t, u) ∈ suffixPairs tokens sets follow pairs n (.ref m debt sp :: β) ↔
      sets.isNullable m = true ∧ (t, u) ∈ suffixPairs tokens sets follow pairs n β := by
  rw [suffixPairs]
  by_cases hnull : sets.isNullable m = true <;> simp [hnull]

theorem mem_suffixPairs_terminal {el : Element} (hterm : el.isTerminal = true) :
    (t, u) ∈ suffixPairs tokens sets follow pairs n (el :: β) ↔
      tokens.of el = some t ∧
        (Begins tokens sets u β ∨ CanVanish sets β ∧ (n, u) ∈ follow) := by
  cases htok : tokens.of el with
  | none => cases el <;> first | cases hterm; done | simp [suffixPairs, htok]
  | some tok =>
    have heq : suffixPairs tokens sets follow pairs n (el :: β) =
        followRule tokens sets (n, tok, β) follow := by
      cases el <;> first | cases hterm; done | (simp only [suffixPairs, htok]; rfl)
    rw [heq, Option.some.injEq]
    constructor
    · intro h
      obtain rfl : tok = t := by
        obtain ⟨u', -, heq⟩ := List.mem_map.mp h
        exact (Prod.mk.inj heq).1
      exact ⟨rfl, mem_followRule.mp h⟩
    · rintro ⟨rfl, h⟩
      exact mem_followRule.mpr h

end

/-! ## What stands behind -/

section

variable {E : Emitter} {start : String}

variable (E start) in
/-- Every production with a reference stands in a sentence, and is no token class. -/
def Reached : Prop :=
  ∀ p ∈ E.grammar.productions, (∃ α ∈ p.alts, ∃ el ∈ α, el.isRef = true) →
    E.contest.classSets.lookup p.name = none ∧ ∃ s, MayFollow E start p.name s

/-- The start rule stands alone in a sentence. -/
theorem mayFollow_start : MayFollow E start start [] :=
  ⟨[], none, none, [], [], .refl, by simp [SpellsTokens], by simp [SpellsTokens]⟩

/-- **What stands behind a production stands behind a reference in it**, after what the rest of the
alternative derives. -/
theorem MayFollow.within {p : Production} {s : List String} (h : MayFollow E start p.name s)
    (hp : p ∈ E.grammar.productions) (hclass : E.contest.classSets.lookup p.name = none)
    {u β : Sequence} {el : Element} {m : String} (halt : u ++ el :: β ∈ p.alts)
    (hm : el.refName = some m) (hplain : Plain E.grammar) {v w : List String}
    (hv : v ∈ Cf.seq (den (tokenLeaf E.tokens)
      (spelledLang E.grammar E.tokens E.contest.classSets)) u)
    (hw : w ∈ Cf.seq (den (tokenLeaf E.tokens)
      (spelledLang E.grammar E.tokens E.contest.classSets)) β) :
    MayFollow E start m (w ++ s) := by
  obtain ⟨x, debt, sp, y, r, hderives, hx, hy⟩ := h
  have hels := hplain p hp _ halt
  obtain ⟨γu, hγu, hu⟩ := derives_of_mem_seq
    (fun el hel => hels el (List.mem_append_left _ hel)) hv
  obtain ⟨γβ, hγβ, hβ⟩ := derives_of_mem_seq
    (fun el hel => hels el (List.mem_append_right _ (List.mem_cons_of_mem _ hel))) hw
  obtain ⟨debt', sp', rfl⟩ := Element.refName_eq_some.mp hm
  have hstep := Cf.Rewrite.mk x y (unfolds_of_alt hp hclass halt debt sp)
  have hbehind : Cf.Derives (Unfolds E.grammar E.contest.classSets)
      (.ref m debt' sp' :: β) (.ref m debt' sp' :: γβ) := by
    simpa using hγβ.context [.ref m debt' sp'] []
  refine ⟨x ++ γu, debt', sp', γβ ++ y, r ++ v, ?_, hx.append hu, hβ.append hy⟩
  have hall : Cf.Derives (Unfolds E.grammar E.contest.classSets) [.reference start]
      (x ++ (γu ++ .ref m debt' sp' :: γβ) ++ y) :=
    (hderives.tail hstep).trans ((Cf.derives_append hγu hbehind).context x y)
  simpa using hall

variable (E) in
/-- What the sequence derives step by step. -/
abbrev Emitter.spelled (α : Sequence) : Language String :=
  Cf.seq (den (tokenLeaf E.tokens) (spelledLang E.grammar E.tokens E.contest.classSets)) α

variable (E start) in
/-- The suffix of a reference, in a production that stands in a sentence: what it derives, and then
what stands behind the production, stands behind the reference. -/
structure Suffix (n m : String) (β : Sequence) : Prop where
  reached : ∃ s, MayFollow E start n s
  plain : ∀ el ∈ β, el.isTerminal = true ∨ el.isRef = true
  live : ∀ n ∈ refsIn β, ∃ w, w ∈ spelledLang E.grammar E.tokens E.contest.classSets n
  behind : ∀ {s}, MayFollow E start n s → ∀ {w}, w ∈ E.spelled β → MayFollow E start m (w ++ s)

variable (hplain : Plain E.grammar)
  (hrefs : ∀ n ∈ E.grammar.refs, ∃ w, w ∈ spelledLang E.grammar E.tokens E.contest.classSets n)
  (hreached : Reached E start)

include hplain hrefs hreached

theorem suffix_of_reference {n m : String} {β : Sequence} (h : (n, m, β) ∈ references E.grammar) :
    Suffix E start n m β := by
  obtain ⟨p, hp, rfl, alt, halt, -, u, el, rfl, hm⟩ := mem_references.mp h
  have hels := hplain p hp _ halt
  have hlive : ∀ n ∈ refsIn (u ++ el :: β),
      ∃ w, w ∈ spelledLang E.grammar E.tokens E.contest.classSets n := fun n hn =>
    hrefs n (List.mem_flatMap.mpr ⟨p, hp, mem_refsInAlts.mpr ⟨_, halt, hn⟩⟩)
  rw [refsIn_append] at hlive
  obtain ⟨hclass, hs⟩ := hreached p hp ⟨_, halt, el, by simp, Element.isRef_iff.mpr ⟨m, hm⟩⟩
  obtain ⟨v, hv⟩ : ∃ v, v ∈ E.spelled u :=
    exists_mem_seq u (fun el hel => hels el (List.mem_append_left _ hel)) fun n hn =>
      hlive n (List.mem_append_left _ hn)
  refine ⟨hs, fun el hel => hels el (List.mem_append_right _ (List.mem_cons_of_mem _ hel)),
    fun n hn => hlive n (List.mem_append_right _ (List.mem_append_right _ hn)), ?_⟩
  exact fun hs w hw => hs.within hp hclass halt hm hplain hv hw

/-- **A token of a FOLLOW set comes behind its production** in a sentence. -/
theorem mayFollow_of_follow : ∀ f ∈ computeFollowSets E.grammar E.tokens E.contest.classSets
    (computeFirstSets E.grammar E.tokens E.contest.classSets) start,
      ∃ s, MayFollow E start f.1 s ∧ (s ++ ["#ZZ"]).head? = some f.2 := by
  have hfirst := holds_spelledLang hplain hrefs
  refine subset_of_closed (fun r hr follow hfollow => ?_) _ fun f hf => ?_
  · obtain ⟨⟨n, m, β⟩, href, rfl⟩ := List.mem_map.mp hr
    have hsuffix := suffix_of_reference hplain hrefs hreached href
    rintro ⟨m', t⟩ hf
    obtain rfl : m' = m := by
      obtain ⟨t', -, heq⟩ := List.mem_map.mp hf
      exact (Prod.mk.inj heq).1.symm
    rcases mem_followRule.mp hf with hbegins | ⟨hvanish, hmem⟩
    · obtain ⟨w, hw⟩ := exists_mem_seq_of_begins hfirst hsuffix.plain hsuffix.live hbegins
      obtain ⟨s, hs⟩ := hsuffix.reached
      exact ⟨_, hsuffix.behind hs hw, rfl⟩
    · obtain ⟨s, hs, ht⟩ := hfollow _ hmem
      exact ⟨s, hsuffix.behind hs (nil_mem_seq_of_canVanish hfirst hvanish), ht⟩
  · split at hf
    · obtain rfl := List.mem_singleton.mp hf
      exact ⟨[], mayFollow_start, rfl⟩
    · cases hf

variable {follow : FollowSets}
  (hfollow : ∀ f ∈ follow, ∃ s, MayFollow E start f.1 s ∧ (s ++ ["#ZZ"]).head? = some f.2)

include hfollow

omit hreached in
/-- The pairs of a suffix are the first two tokens of what it derives and what stands behind the
production. -/
theorem exists_of_suffixPairs {n : String} (hn : ∃ s, MayFollow E start n s) {pairs : FollowPairs}
    (hpairs : ∀ f ∈ pairs, ∃ s, MayFollow E start f.1 s ∧
      (s ++ ["#ZZ"]).take 2 = [f.2.1, f.2.2]) {t u : String} : ∀ {β : Sequence},
      (∀ el ∈ β, el.isTerminal = true ∨ el.isRef = true) →
      (∀ n ∈ refsIn β, ∃ w, w ∈ spelledLang E.grammar E.tokens E.contest.classSets n) →
      (t, u) ∈ suffixPairs E.tokens
        (computeFirstSets E.grammar E.tokens E.contest.classSets) follow pairs n β →
      ∃ w ∈ E.spelled β, ∃ s, MayFollow E start n s ∧ (w ++ s ++ ["#ZZ"]).take 2 = [t, u]
  | [], _, _, h => by
    obtain ⟨⟨t', us⟩, hmem, h⟩ := List.mem_flatMap.mp h
    obtain ⟨u', hu, heq⟩ := List.mem_map.mp h
    obtain ⟨rfl, rfl⟩ := Prod.mk.inj heq
    obtain ⟨s, hs, htake⟩ := hpairs _ (FollowPairs.mem_of_get hmem hu)
    exact ⟨[], rfl, s, hs, htake⟩
  | el :: β, hels, hlive, h => by
    have hfirst := holds_spelledLang hplain hrefs
    obtain ⟨hel, hels'⟩ := List.forall_mem_cons.mp hels
    have hlive' : ∀ n ∈ refsIn β, ∃ w, w ∈ spelledLang E.grammar E.tokens E.contest.classSets n :=
      fun n hn => hlive n (List.mem_append_right _ hn)
    rcases hel with hterm | href
    · obtain ⟨htok, h⟩ := (mem_suffixPairs_terminal hterm).mp h
      have hcons : ∀ {w}, w ∈ E.spelled β → t :: w ∈ E.spelled (el :: β) := by
        intro w hw
        have hname : [t] ∈ tokenLeaf E.tokens el := by
          rw [tokenLeaf, Tokens.name, htok]
          rfl
        show _ ∈ Cf.seq _ _
        rw [Cf.seq_cons, den_terminal hterm]
        exact Language.append_mem_mul hname hw
      rcases h with hbegins | ⟨hvanish, hmem⟩
      · obtain ⟨w, hw⟩ := exists_mem_seq_of_begins hfirst hels' hlive' hbegins
        obtain ⟨s, hs⟩ := hn
        exact ⟨_, hcons hw, s, hs, rfl⟩
      · obtain ⟨s, hs, hhead⟩ := hfollow _ hmem
        obtain ⟨rest, hrest⟩ := List.head?_eq_some_iff.mp hhead
        refine ⟨_, hcons (nil_mem_seq_of_canVanish hfirst hvanish), s, hs, ?_⟩
        rw [List.append_assoc, hrest]
        rfl
    · obtain ⟨m, hm⟩ := Element.isRef_iff.mp href
      obtain ⟨debt, sp, rfl⟩ := Element.refName_eq_some.mp hm
      obtain ⟨hnull, h⟩ := mem_suffixPairs_ref.mp h
      obtain ⟨w, hw, hbehind⟩ := exists_of_suffixPairs hn hpairs hels' hlive' h
      refine ⟨w, ?_, hbehind⟩
      have hnil : [] ∈ spelledLang E.grammar E.tokens E.contest.classSets m :=
        hfirst _ (FirstSets.isNullable_iff.mp hnull)
      show w ∈ Cf.seq _ _
      rw [Cf.seq_cons, den_ref]
      exact Language.append_mem_mul hnil hw

/-- **The tokens of a FOLLOW pair come behind its production** in a sentence. -/
theorem mayFollow_of_pair : ∀ f ∈ computeFollowPairs E.grammar E.tokens E.contest.classSets
    (computeFirstSets E.grammar E.tokens E.contest.classSets) follow,
      ∃ s, MayFollow E start f.1 s ∧ (s ++ ["#ZZ"]).take 2 = [f.2.1, f.2.2] := by
  refine subset_of_closed (fun r hr pairs hpairs => ?_) _ fun f hf => by cases hf
  obtain ⟨⟨n, m, β⟩, href, rfl⟩ := List.mem_map.mp hr
  have hsuffix := suffix_of_reference hplain hrefs hreached href
  intro f hf
  obtain ⟨⟨t, u⟩, htu, rfl⟩ := List.mem_map.mp hf
  obtain ⟨w, hw, s, hs, htake⟩ := exists_of_suffixPairs hplain hrefs hfollow hsuffix.reached hpairs
    hsuffix.plain hsuffix.live htu
  exact ⟨w ++ s, hsuffix.behind hs hw, htake⟩

end

/-! ## A compile -/

namespace Compile

variable {S : Setting} {grammar : Grammar} (c : Compile S grammar) {tokens : Tokens}
  {contest : ContestCtx} {arrayHelpers : List String} {valuePlan : List (String × List Bool)}
  (hlive : ∀ p ∈ (c.emitter tokens contest arrayHelpers valuePlan).grammar.productions,
    ∀ α ∈ p.alts, Live (c.emitter tokens contest arrayHelpers valuePlan).grammar tokens
      contest.classSets α)
  (hreached : Reached (c.emitter tokens contest arrayHelpers valuePlan) c.start)

include hlive hreached

/-- **FOLLOW is exact** in a live and reached grammar: it has the tokens that come behind a
production in a sentence, and `#ZZ` where nothing does. -/
theorem mem_follow_iff {p : Production}
    (hp : p ∈ (c.emitter tokens contest arrayHelpers valuePlan).grammar.productions) {u : String} :
    u ∈ (c.emitter tokens contest arrayHelpers valuePlan).follow.get p.name ↔
      ∃ s, MayFollow (c.emitter tokens contest arrayHelpers valuePlan) c.start p.name s ∧
        (s ++ ["#ZZ"]).head? = some u := by
  refine ⟨fun hu => ?_, fun ⟨s, hs, hu⟩ => c.mem_follow hp hs hu⟩
  have hplain := (c.emitter_desugared tokens contest arrayHelpers valuePlan).plain
  rw [c.emitter_follow] at hu
  exact mayFollow_of_follow hplain (exists_spelled_of_live hplain hlive) hreached (p.name, u)
    (FollowSets.mem_get.mp hu)

/-- The tokens of a FOLLOW pair come behind the production in a sentence. -/
theorem mayFollow_of_mem_pairs {n t u : String} {us : List String}
    (h : (t, us) ∈ (c.emitter tokens contest arrayHelpers valuePlan).pairs.get n) (hu : u ∈ us) :
    ∃ s, MayFollow (c.emitter tokens contest arrayHelpers valuePlan) c.start n s ∧
      (s ++ ["#ZZ"]).take 2 = [t, u] := by
  set E := c.emitter tokens contest arrayHelpers valuePlan
  have hplain := (c.emitter_desugared tokens contest arrayHelpers valuePlan).plain
  have hrefs := exists_spelled_of_live hplain hlive
  have hsame : SameRules c.desugared E.grammar := sameRules_resolveSuffixDebts
  have hpairs : E.pairs = computeFollowPairs E.grammar tokens contest.classSets
      (computeFirstSets E.grammar tokens contest.classSets) E.follow := by
    rw [computeFirstSets_of_sameRules hsame, computeFollowPairs_of_sameRules hsame]
    rfl
  have hmem := FollowPairs.mem_of_get h hu
  rw [hpairs, c.emitter_follow] at hmem
  exact mayFollow_of_pair hplain hrefs hreached (mayFollow_of_follow hplain hrefs hreached) _ hmem

end Compile

end TabnasBnf
