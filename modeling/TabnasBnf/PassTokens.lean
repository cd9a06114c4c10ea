import TabnasBnf.PassElements
import TabnasBnf.Tailed
import TabnasBnf.TokenNames

/-!
# The token elements of a compile

Which token elements the emitter is given. Desugaring writes what it was given (`desugar_made`, see
PassElements.lean for the passes before it), and what stands beside the alternatives, the vocabulary
of a probe and the separator of a tail repeat, was taken out of them (`Beside`). So a token element
is one the grammar spells, or one that elimination puts for a class it keeps, and the set of a class
is declared under that name.

* **`Compile.token_mem_terminals`**, **`Compile.lookup_classSets`**.
-/

namespace TabnasBnf

/-! ## Desugaring -/

namespace Desugar

/-- The helpers minted so far are made of elements with the property. -/
def HelpersOf (K : Element → Prop) (d : Desugar) : Prop := ∀ p ∈ d.extra, Made K p.alts

section

variable {K : Element → Prop} {d : Desugar} {inner : Element}

theorem HelpersOf.freshName (hd : HelpersOf K d) (hint : String) :
    HelpersOf K (d.freshName hint).2 := hd

theorem HelpersOf.helper (hd : HelpersOf K d) {alts : List Sequence} (halts : Made K alts)
    (name : String) (repeatHelper : Bool) : HelpersOf K (d.helper name alts repeatHelper).2 :=
  List.forall_mem_append.mpr ⟨hd, List.forall_mem_singleton.mpr halts⟩

variable (hmint : ∀ n, K (.reference n))

include hmint

theorem HelpersOf.repeatLoop (hd : HelpersOf K d) (hinner : K inner) (name : String)
    (guard : Option String) : HelpersOf K (d.repeatLoop name inner guard).2 := by
  refine List.forall_mem_append.mpr ⟨hd, List.forall_mem_singleton.mpr ?_⟩
  refine List.forall_mem_cons.mpr ⟨?_, List.forall_mem_singleton.mpr ?_⟩
  · exact List.forall_mem_cons.mpr ⟨hinner, List.forall_mem_singleton.mpr (hmint name)⟩
  · exact fun _ hel => absurd hel List.not_mem_nil

theorem HelpersOf.nestStep (hd : HelpersOf K d) (hinner : K inner) {nested : Option Element}
    (hnested : ∀ e ∈ nested.toList, K e) : HelpersOf K (nestStep inner nested d).2 := by
  have hseq : Made K [inner :: nested.toList] :=
    List.forall_mem_singleton.mpr (List.forall_mem_cons.mpr ⟨hinner, hnested⟩)
  have hoption : ∀ n, Made K [[.reference n], []] := fun n => List.forall_mem_cons.mpr
    ⟨List.forall_mem_singleton.mpr (hmint n), List.forall_mem_singleton.mpr
      fun _ hel => absurd hel List.not_mem_nil⟩
  exact (((hd.freshName _).helper hseq _ _).freshName _).helper (hoption _) _ _

theorem HelpersOf.nestOptionals (hinner : K inner) : ∀ (n : Nat) (nested : Option Element)
    (d : Desugar), HelpersOf K d → (∀ e ∈ nested.toList, K e) →
      HelpersOf K (nestOptionals inner n nested d).2 ∧
        ∀ e ∈ (nestOptionals inner n nested d).1.toList, K e
  | 0, _, _, hd, hnested => ⟨hd, hnested⟩
  | n + 1, nested, d, hd, hnested => by
    rw [nestOptionals_succ]
    exact HelpersOf.nestOptionals hinner n _ _ (hd.nestStep hmint hinner hnested)
      (List.forall_mem_singleton.mpr (hmint _))

theorem HelpersOf.sugar (hd : HelpersOf K d) (el : Element) (hel : el.inner.isSome = true)
    (hinner : K inner) : HelpersOf K (d.sugar el inner).2 ∧ K (d.sugar el inner).1 := by
  have hcopies : ∀ (n : Nat) {rest : Sequence}, (∀ e ∈ rest, K e) →
      Made K [List.replicate n inner ++ rest] := fun n _ hrest => List.forall_mem_singleton.mpr
    (List.forall_mem_append.mpr ⟨fun e he => List.eq_of_mem_replicate he ▸ hinner, hrest⟩)
  cases el with
  | opt e sp =>
    refine ⟨HelpersOf.helper hd (List.forall_mem_cons.mpr ⟨List.forall_mem_singleton.mpr hinner,
      List.forall_mem_singleton.mpr fun _ hel => absurd hel List.not_mem_nil⟩) _ _, hmint _⟩
  | star e guard sp => exact ⟨HelpersOf.repeatLoop hmint hd hinner _ _, hmint _⟩
  | plus e sp =>
    refine ⟨HelpersOf.helper (HelpersOf.repeatLoop hmint hd hinner _ _) ?_ _ _, hmint _⟩
    exact hcopies 1 (List.forall_mem_singleton.mpr (hmint _))
  | rep min max e sp =>
    cases max with
    | none =>
      refine ⟨HelpersOf.helper (HelpersOf.repeatLoop hmint hd hinner _ _) ?_ _ _, hmint _⟩
      exact hcopies min (List.forall_mem_singleton.mpr (hmint _))
    | some max =>
      obtain ⟨hrun, hnested⟩ := HelpersOf.nestOptionals hmint hinner (max - min) none
        (d.freshName ("rep_" ++ hintOf inner)).2 (hd.freshName _) fun _ he => absurd he List.not_mem_nil
      exact ⟨HelpersOf.helper hrun (hcopies min hnested) _ _, hmint _⟩
  | _ => cases hel

end

section

variable {K : Element → Prop}

mutual
theorem element_made (hmint : ∀ n, K (.reference n)) (hnested : ∀ el, K el → ∀ e ∈ el.nested, K e) :
    ∀ (el : Element) {d : Desugar} {r : Element × Desugar}, HelpersOf K d →
    K el → element d el = .ok r → HelpersOf K r.2 ∧ K r.1
  | .prose .., _, _, _, _, h => by cases h
  | .ref .., _, _, hd, hel, h => by
    obtain rfl := Except.ok.inj h
    exact ⟨hd, hel⟩
  | .term .., _, _, hd, hel, h => by
    obtain rfl := Except.ok.inj h
    exact ⟨hd, hel⟩
  | .regex .., _, _, hd, hel, h => by
    obtain rfl := Except.ok.inj h
    exact ⟨hd, hel⟩
  | .token .., _, _, hd, hel, h => by
    obtain rfl := Except.ok.inj h
    exact ⟨hd, hel⟩
  | .group alts _, _, _, hd, hel, h => by
    obtain ⟨⟨inner, d₁⟩, hinner, h⟩ := bind_eq_ok h
    obtain rfl := Except.ok.inj h
    obtain ⟨hrun, hmade⟩ := altList_made hmint hnested alts hd
      (fun α hα e he => hnested _ hel e (List.mem_flatten.mpr ⟨α, hα, he⟩)) hinner
    exact ⟨HelpersOf.helper hrun hmade _ _, hmint _⟩
  | .opt e sp, _, _, hd, hel, h => by
    obtain ⟨⟨inner, d₁⟩, hinner, h⟩ := bind_eq_ok h
    obtain rfl := Except.ok.inj h
    have he := hnested _ hel e (List.mem_singleton_self e)
    obtain ⟨hrun, hi⟩ := element_made hmint hnested e hd he hinner
    exact hrun.sugar hmint (.opt e sp) rfl hi
  | .star e guard sp, _, _, hd, hel, h => by
    obtain ⟨⟨inner, d₁⟩, hinner, h⟩ := bind_eq_ok h
    obtain rfl := Except.ok.inj h
    have he := hnested _ hel e (List.mem_singleton_self e)
    obtain ⟨hrun, hi⟩ := element_made hmint hnested e hd he hinner
    exact hrun.sugar hmint (.star e guard sp) rfl hi
  | .plus e sp, _, _, hd, hel, h => by
    obtain ⟨⟨inner, d₁⟩, hinner, h⟩ := bind_eq_ok h
    obtain rfl := Except.ok.inj h
    have he := hnested _ hel e (List.mem_singleton_self e)
    obtain ⟨hrun, hi⟩ := element_made hmint hnested e hd he hinner
    exact hrun.sugar hmint (.plus e sp) rfl hi
  | .rep min max e sp, _, _, hd, hel, h => by
    obtain ⟨⟨inner, d₁⟩, hinner, h⟩ := bind_eq_ok h
    obtain rfl := Except.ok.inj h
    have he := hnested _ hel e (List.mem_singleton_self e)
    obtain ⟨hrun, hi⟩ := element_made hmint hnested e hd he hinner
    exact hrun.sugar hmint (.rep min max e sp) rfl hi

theorem alt_made (hmint : ∀ n, K (.reference n)) (hnested : ∀ el, K el → ∀ e ∈ el.nested, K e) :
    ∀ (α : List Element) {d : Desugar} {r : List Element × Desugar},
    HelpersOf K d → (∀ el ∈ α, K el) → alt d α = .ok r → HelpersOf K r.2 ∧ ∀ el ∈ r.1, K el
  | [], _, _, hd, hα, h => by
    obtain rfl := Except.ok.inj h
    exact ⟨hd, hα⟩
  | el :: α, _, _, hd, hα, h => by
    obtain ⟨⟨el', d₁⟩, hel, h⟩ := bind_eq_ok h
    obtain ⟨⟨α', d₂⟩, hrest, h⟩ := bind_eq_ok h
    obtain rfl := Except.ok.inj h
    obtain ⟨hK, hα⟩ := List.forall_mem_cons.mp hα
    obtain ⟨hd₁, hel'⟩ := element_made hmint hnested el hd hK hel
    obtain ⟨hd₂, hα'⟩ := alt_made hmint hnested α hd₁ hα hrest
    exact ⟨hd₂, List.forall_mem_cons.mpr ⟨hel', hα'⟩⟩

theorem altList_made (hmint : ∀ n, K (.reference n))
    (hnested : ∀ el, K el → ∀ e ∈ el.nested, K e) : ∀ (alts : List (List Element)) {d : Desugar}
    {r : List (List Element) × Desugar}, HelpersOf K d → Made K alts → altList d alts = .ok r →
      HelpersOf K r.2 ∧ Made K r.1
  | [], _, _, hd, halts, h => by
    obtain rfl := Except.ok.inj h
    exact ⟨hd, halts⟩
  | α :: alts, _, _, hd, halts, h => by
    obtain ⟨⟨α', d₁⟩, hα, h⟩ := bind_eq_ok h
    obtain ⟨⟨alts', d₂⟩, hrest, h⟩ := bind_eq_ok h
    obtain rfl := Except.ok.inj h
    obtain ⟨hmade, halts⟩ := List.forall_mem_cons.mp halts
    obtain ⟨hd₁, hα'⟩ := alt_made hmint hnested α hd hmade hα
    obtain ⟨hd₂, halts'⟩ := altList_made hmint hnested alts hd₁ halts hrest
    exact ⟨hd₂, List.forall_mem_cons.mpr ⟨hα', halts'⟩⟩
end

theorem productions_made (hmint : ∀ n, K (.reference n))
    (hnested : ∀ el, K el → ∀ e ∈ el.nested, K e) : ∀ (ps : List Production) {d : Desugar}
    {r : List Production × Desugar}, HelpersOf K d → (∀ p ∈ ps, Made K p.alts) →
      productions d ps = .ok r → HelpersOf K r.2 ∧ ∀ p ∈ r.1, Made K p.alts
  | [], _, _, hd, hps, h => by
    obtain rfl := Except.ok.inj h
    exact ⟨hd, hps⟩
  | p :: ps, d, _, hd, hps, h => by
    obtain ⟨⟨alts, d₁⟩, halts, h⟩ := bind_eq_ok h
    obtain ⟨⟨rest, d₂⟩, hrest, h⟩ := bind_eq_ok h
    obtain rfl := Except.ok.inj h
    obtain ⟨hp, hps⟩ := List.forall_mem_cons.mp hps
    have hd : HelpersOf K { d with origin := p.originOf } := hd
    obtain ⟨hd₁, hmade⟩ := altList_made hmint hnested p.alts hd hp halts
    obtain ⟨hd₂, hrest⟩ := productions_made hmint hnested ps hd₁ hps hrest
    exact ⟨hd₂, List.forall_mem_cons.mpr ⟨hmade, hrest⟩⟩

end

end Desugar

/-- **Desugaring writes what it was given**, and references to what it mints. -/
theorem desugar_made {K : Element → Prop} (hnested : ∀ el, K el → ∀ e ∈ el.nested, K e)
    (hmint : ∀ n, K (.reference n)) {g g' : Grammar} (hg : ∀ p ∈ g.productions, Made K p.alts)
    (h : desugar g = .ok g') : ∀ p ∈ g'.productions, Made K p.alts := by
  obtain ⟨⟨rewritten, d⟩, hrun, h⟩ := bind_eq_ok h
  obtain rfl := Except.ok.inj h
  obtain ⟨hd, hps⟩ := Desugar.productions_made hmint hnested g.productions
    (fun p hp => absurd hp List.not_mem_nil) hg hrun
  exact List.forall_mem_append.mpr ⟨hps, hd⟩

/-! ## Beside the alternatives -/

/-- What stands beside the alternatives of a production has the property. -/
structure Beside (K : Element → Prop) (p : Production) : Prop where
  vocab : ∀ helper ∈ p.probeHelper, ∀ el ∈ helper.vocabElements, K el
  sep : ∀ tail ∈ p.tailRepeat, ∀ el ∈ tail.sep, K el

theorem Beside.of_none {K : Element → Prop} {p : Production} (hhelper : p.probeHelper = none)
    (htail : p.tailRepeat = none) : Beside K p :=
  ⟨by simp [hhelper], by simp [htail]⟩

section

variable {K : Element → Prop} (hnested : ∀ el, K el → ∀ e ∈ el.nested, K e) {diag : String}
  {grammar : Grammar}

include hnested

/-- **The rewriting of probes** takes the vocabularies out of the alternatives. -/
theorem rewriteProbeDispatches_beside {g' : Grammar}
    (hg : ∀ p ∈ grammar.productions, Made K p.alts)
    (hbeside : ∀ p ∈ grammar.productions, Beside K p)
    (h : rewriteProbeDispatches diag grammar = .ok g') : ∀ p ∈ g'.productions, Beside K p := by
  obtain ⟨⟨rewritten, st⟩, hrun, h⟩ := bind_eq_ok h
  obtain rfl := Except.ok.inj h
  have hextra := rewriteProbeProductions_extra (A := fun alt => ∀ el ∈ alt, K el)
    (Q := fun extra => ∀ p ∈ extra, Beside K p)
    (fun extra alt s halt hs _ _ _ _ _ hextra p hp => ?_) _ hg
    (fun _ hp => absurd hp List.not_mem_nil) hrun
  · exact List.forall_mem_append.mpr
      ⟨rewriteProbeProductions_forall (fun _ _ => .of_none rfl rfl) _ hbeside hrun, hextra⟩
  · rcases List.mem_append.mp hp with hp | hp
    · exact hextra p hp
    · have hvocab := vocabOf_probeSplit hnested hg [] alt halt hs
      simp only [probeProductions, List.mem_cons, List.not_mem_nil, or_false] at hp
      rcases hp with rfl | rfl | rfl | rfl
      · refine ⟨fun helper hhelper el hel => ?_, fun _ h => absurd h (Option.not_mem_none _)⟩
        obtain rfl := Option.some.inj hhelper
        obtain ⟨kv, hkv, rfl⟩ := List.mem_map.mp hel
        exact (hvocab kv hkv).2
      · exact .of_none rfl rfl
      · exact .of_none rfl rfl
      · exact .of_none rfl rfl

/-- What stands in the body of an option. -/
theorem optionBody_made {option : Element} {seq : Sequence} (h : optionBody option = some seq)
    (hoption : K option) : ∀ el ∈ seq, K el := by
  unfold optionBody at h
  split at h
  · next alt _ _ =>
    cases h
    have hgroup := hnested _ hoption _ (List.mem_singleton_self _)
    exact fun el hel => hnested _ hgroup el (by simp [Element.nested, hel])
  · cases h
  · cases h
    exact List.forall_mem_singleton.mpr (hnested _ hoption _ (List.mem_singleton_self _))
  · cases h

theorem rewriteTailRepeat_made {p : Production} (hmade : Made K p.alts) (hbeside : Beside K p)
    (start : String) :
    Made K (rewriteTailRepeat start p).alts ∧ Beside K (rewriteTailRepeat start p) := by
  rcases rewriteTailRepeat_shape start p with heq | ⟨pre, sep, hshape, heq⟩
  · rw [heq]
    exact ⟨hmade, hbeside⟩
  · rw [heq]
    obtain ⟨option, self, halts, hbody, -⟩ := hshape.alts
    have hseq := hmade (pre ++ [option]) (by simp [halts])
    obtain ⟨hpre, hoption⟩ := List.forall_mem_append.mp hseq
    have hsep := optionBody_made hnested hbody (List.forall_mem_singleton.mp hoption)
    refine ⟨List.forall_mem_singleton.mpr hpre, hbeside.vocab, fun tail htail el hel => ?_⟩
    obtain rfl := Option.some.inj htail
    exact hsep el (List.mem_append_left _ hel)

end

/-! ## What a compile spells -/

/-- An element whose token elements all have the property. -/
def Spelled (P : String → Prop) (el : Element) : Prop := ∀ t ∈ el.tokens, P t

theorem mem_tokensIn {t : String} {α : Sequence} : t ∈ tokensIn α ↔ ∃ el ∈ α, t ∈ el.tokens := by
  induction α with
  | nil => simp [tokensIn]
  | cons el α ih => simp [tokensIn, ih]

theorem mem_tokensInAlts {t : String} {alts : List Sequence} :
    t ∈ tokensInAlts alts ↔ ∃ α ∈ alts, ∃ el ∈ α, t ∈ el.tokens := by
  induction alts with
  | nil => simp [tokensInAlts]
  | cons α alts ih => simp [tokensInAlts, ih, mem_tokensIn]

/-- Spelling no other tokens goes along with what elimination makes of elements, but for the tokens
of the classes it keeps. -/
theorem inherited_spelled {P : String → Prop} {keep : List String}
    (hkeep : ∀ n ∈ keep, P ("#" ++ n)) : Inherited keep (Spelled P) where
  nested el hel e he := by
    cases el with
    | opt | star | plus | rep =>
      obtain rfl := List.mem_singleton.mp he
      exact hel
    | group alts sp =>
      obtain ⟨α, hα, he⟩ := List.mem_flatten.mp he
      exact fun t ht => hel t (mem_tokensInAlts.mpr ⟨α, hα, e, he, ht⟩)
    | _ => cases he
  token n hn _ := List.forall_mem_singleton.mpr (hkeep n hn)
  fewer _ _ hel := hel
  group alts halts t ht := by
    obtain ⟨α, hα, el, hel, ht⟩ := mem_tokensInAlts.mp ht
    exact halts α hα el hel t ht
  tail _ _ hel _ := hel

/-! ## The names of the class sets -/

theorem allocTokenName_preferred {literal name : String} {used : List String}
    (hspace : name.toList.any isNameSpace = false)
    (howned : isEngineOwnedToken ("#" ++ name) = false) (hused : "#" ++ name ∉ used) :
    allocTokenName literal used (some name) = "#" ++ name := by
  have hwant : ((some name).filter fun p => !p.toList.any isNameSpace) = some name :=
    Option.filter_eq_some_iff.mpr ⟨rfl, by rw [hspace]; rfl⟩
  have hfree : ((some ("#" ++ name)).filter fun want =>
      !used.contains want && !isEngineOwnedToken want) = some ("#" ++ name) :=
    Option.filter_eq_some_iff.mpr ⟨rfl, by rw [howned]; simp [hused]⟩
  unfold allocTokenName
  rw [hwant, Option.map_some]
  dsimp only
  rw [hfree]

namespace Compile

/-- A class takes the name of its own set, when no name is written twice. -/
theorem lookup_classSetNames {classNames : List String}
    (hspace : ∀ n ∈ classNames, n.toList.any isNameSpace = false)
    (howned : ∀ n ∈ classNames, isEngineOwnedToken ("#" ++ n) = false) {n : String}
    (hn : n ∈ classNames) : ∀ (prods : List Production) (used : List String),
      (namesOf prods).Nodup → (∀ m ∈ namesOf prods, "#" ++ m ∉ used) → n ∈ namesOf prods →
        (classSetNames classNames prods used).lookup n = some ("#" ++ n)
  | [], _, _, _, h => absurd h List.not_mem_nil
  | p :: rest, used, hnd, hused, h => by
    rw [namesOf_cons] at hnd hused h
    obtain ⟨hp, hnd⟩ := List.nodup_cons.mp hnd
    obtain ⟨hfree, hused⟩ := List.forall_mem_cons.mp hused
    unfold classSetNames
    by_cases hclass : p.name ∈ classNames
    · have hname : allocTokenName p.name used (some p.name) = "#" ++ p.name :=
        allocTokenName_preferred (hspace _ hclass) (howned _ hclass) hfree
      rw [if_pos (List.contains_iff_mem.mpr hclass)]
      dsimp only
      rw [hname]
      rw [List.lookup_cons]
      by_cases hsame : n = p.name
      · rw [hsame, beq_self_eq_true]
      · rw [beq_eq_false_iff_ne.mpr hsame]
        have h := (List.mem_cons.mp h).resolve_left hsame
        refine lookup_classSetNames hspace howned hn rest _ hnd (fun m hm hmem => ?_) h
        rcases List.mem_append.mp hmem with hmem | hmem
        · exact hused m hm hmem
        · have heq := (String.append_right_inj "#").mp (List.mem_singleton.mp hmem)
          exact hp (heq ▸ hm)
    · rw [if_neg (by simpa using hclass)]
      rcases List.mem_cons.mp h with rfl | h
      · exact absurd hn hclass
      · exact lookup_classSetNames hspace howned hn rest used hnd hused h

variable {S : Setting} {grammar : Grammar} (c : Compile S grammar)

/-- The token elements the grammar itself names, its bare built-in names read as tokens. -/
def ownTokens : List String := c.normalized.productions.flatMap fun p => tokensInAlts p.alts

/-- **A token element that the emitter is given** is spelled in the grammar, or stands for a class
that elimination keeps. -/
theorem token_mem_terminals {t : String} {sp : Option SrcSpan} (h : .token t sp ∈ c.terminals) :
    t ∈ c.ownTokens ∨ ∃ n ∈ c.classNames, t = "#" ++ n := by
  let P : String → Prop := fun t => t ∈ c.ownTokens ∨ ∃ n ∈ c.classNames, t = "#" ++ n
  have hK : Inherited c.classNames (Spelled P) := inherited_spelled fun n hn => .inr ⟨n, hn, rfl⟩
  have hmint : ∀ n, Spelled P (.reference n) := fun _ _ ht => absurd ht List.not_mem_nil
  have hnormalized : ∀ p ∈ c.normalized.productions, Made (Spelled P) p.alts :=
    fun p hp α hα el hel t ht =>
      .inl (List.mem_flatMap.mpr ⟨p, hp, mem_tokensInAlts.mpr ⟨α, hα, el, hel, ht⟩⟩)
  have heliminated := eliminate_made hK hnormalized c.eliminate_eq
  have hprobed := rewriteProbeDispatches_made hK hmint heliminated c.probe_eq
  have hfactored := leftFactor_made hK hmint hprobed c.factor_eq
  have hbeside : ∀ p ∈ c.factored.productions, Beside (Spelled P) p := by
    refine leftFactor_forall (fun _ _ _ _ => .of_none rfl rfl) (fun _ _ _ h => ⟨h.1, h.2⟩) ?_
      c.factor_eq
    exact rewriteProbeDispatches_beside hK.nested heliminated
      (eliminate_forall (fun _ _ => .of_none rfl rfl) c.eliminate_eq) c.probe_eq
  have htailed : ∀ p ∈ (rewriteTailRepeats c.factored c.start).productions,
      Made (Spelled P) p.alts ∧ Beside (Spelled P) p := by
    intro p' hp'
    obtain ⟨p, hp, rfl⟩ := List.mem_map.mp hp'
    exact rewriteTailRepeat_made hK.nested (hfactored p hp) (hbeside p hp) c.start
  have hdesugared := desugar_made hK.nested hmint (fun p hp => (htailed p hp).1) c.desugar_eq
  have hspelled : ∀ {el : Element}, Spelled P el → el = .token t sp → P t := by
    rintro _ hel rfl
    exact hel t (List.mem_singleton_self t)
  rcases List.mem_append.mp h with hlifted | h
  · unfold liftLiteralTokens at hlifted
    dsimp only at hlifted
    split at hlifted
    · cases hlifted
    · obtain ⟨e, -, he⟩ := List.mem_map.mp hlifted
      cases he
  · obtain ⟨q, hq, h⟩ := List.mem_flatMap.mp h
    have hbesideq : Beside (Spelled P) q := by
      rcases desugar_from c.desugar_eq q hq with hhelper | ⟨p, hp, hto⟩
      · exact .of_none hhelper.probeHelper hhelper.tailRepeat
      · have hp' := (htailed p hp).2
        exact ⟨hto.probeHelper ▸ hp'.vocab, hto.tailRepeat ▸ hp'.sep⟩
    rcases List.mem_append.mp h with halts | h
    · obtain ⟨α, hα, hel⟩ := List.mem_flatten.mp halts
      exact hspelled (hdesugared q hq α hα _ hel) rfl
    · rcases List.mem_append.mp h with hvocab | hsep
      · cases hhelper : q.probeHelper with
        | none => simp [hhelper] at hvocab
        | some helper =>
          rw [hhelper] at hvocab
          exact hspelled (hbesideq.vocab helper hhelper _ hvocab) rfl
      · cases htail : q.tailRepeat with
        | none => simp [htail] at hsep
        | some tail =>
          rw [htail] at hsep
          exact hspelled (hbesideq.sep tail htail _ hsep) rfl

theorem isTokenClass_classNames {n : String} (hn : n ∈ c.classNames) :
    ∃ p ∈ c.normalized.productions, p.name = n ∧ isTokenClass S.regexDerivesEmpty p = true := by
  unfold classNames at hn
  split at hn
  · exact mem_tokenClassNames hn
  · cases hn

/-- **The set of a class** is declared under the name elimination writes. -/
theorem lookup_classSets {n : String} (hn : n ∈ c.classNames) :
    c.classSets.lookup n = some ("#" ++ n) := by
  have hname : ∀ m ∈ c.classNames, m.toList.any isNameSpace = false ∧
      isEngineOwnedToken ("#" ++ m) = false := by
    intro m hm
    obtain ⟨p, -, rfl, hclass⟩ := c.isTokenClass_classNames hm
    unfold isTokenClass at hclass
    simp only [Bool.and_eq_true, Bool.not_eq_true', Bool.or_eq_false_iff] at hclass
    exact ⟨hclass.1.2.1.2, hclass.1.2.2⟩
  exact lookup_classSetNames (fun m hm => (hname m hm).1) (fun m hm => (hname m hm).2) hn _ []
    c.desugared_nodup (fun _ _ => List.not_mem_nil)
    (c.normalized_subset (c.classNames_subset hn))

end Compile

end TabnasBnf
