import TabnasBnf.Passes
import TabnasBnf.ProbeCorrect

/-!
# What the passes write

The structural passes take elements apart and put them together again: what they write is made of
elements they were given, of the tokens of classes, of groups and tail loops of these, and of
references to what they mint. A property that goes along with all this (`Inherited`) holds of the
elements of every alternative a pass returns, when it holds of those it was given.

* **`eliminate_made`**, **`rewriteProbeDispatches_made`**, **`leftFactor_made`**: the passes in turn.
-/

namespace TabnasBnf

/-- A name `fresh_debt_counter` gives: no rule's name makes another. -/
def DebtNamed (counter : String) : Prop := ∃ rest, counter = "debt_" ++ rest

/-- Alternatives of elements with the property. -/
def Made (K : Element → Prop) (alts : List Sequence) : Prop := ∀ α ∈ alts, ∀ el ∈ α, K el

/-- A property of elements that goes along with what elimination makes of them: what stands in them,
the token of a class it keeps, a repetition with one copy less, a group, and the loop over the
tails. -/
structure Inherited (keep : List String) (K : Element → Prop) : Prop where
  nested : ∀ el, K el → ∀ e ∈ el.nested, K e
  token : ∀ name ∈ keep, ∀ sp, K (.token ("#" ++ name) sp)
  fewer : ∀ e max, K e → K (.rep 0 max e none)
  group : ∀ alts, Made K alts → K (.group alts none)
  tail : ∀ e guard, K e → (∀ c ∈ guard, DebtNamed c) → K (.star e guard none)

section

variable {K : Element → Prop} {alts alts' : List Sequence}

theorem Made.of_subset (h : Made K alts) (halts : ∀ α ∈ alts', α ∈ alts) : Made K alts' :=
  fun α hα => h α (halts α hα)

theorem debtNamed_freshDebtCounter (ruleName : String) (used : List String) :
    DebtNamed (freshDebtCounter ruleName used) := by
  unfold freshDebtCounter debtCounterName
  dsimp only
  split
  · exact ⟨_, rfl⟩
  · exact ⟨_, by rw [String.append_assoc, String.append_assoc]⟩

end

/-! ## Elimination -/

section

variable {diag : String} {keep cyclic : List String} {K : Element → Prop} (hK : Inherited keep K)

include hK

theorem made_nullableSugarPresent {el : Element} {present : Sequence} (hel : K el)
    (h : nullableSugarPresent el = some present) : ∀ e ∈ present, K e := by
  have hinner : ∀ e, el.nested = [e] → K e := fun e he =>
    hK.nested el hel e (by rw [he]; exact List.mem_singleton_self _)
  unfold nullableSugarPresent at h
  repeat' split at h
  all_goals cases h
  · exact List.forall_mem_singleton.mpr (hinner _ rfl)
  · exact List.forall_mem_cons.mpr ⟨hinner _ rfl, List.forall_mem_singleton.mpr hel⟩
  · exact List.forall_mem_cons.mpr ⟨hinner _ rfl, List.forall_mem_singleton.mpr hel⟩
  · exact List.forall_mem_singleton.mpr (hinner _ rfl)
  · exact List.forall_mem_cons.mpr
      ⟨hinner _ rfl, List.forall_mem_singleton.mpr (hK.fewer _ _ (hinner _ rfl))⟩

theorem splitHidden_made {p : Production} : ∀ (guard : Nat) {alts : List Sequence} {added : Nat}
    {r : List Sequence × Nat}, Made K alts →
      splitHidden diag p guard alts added = .ok r → Made K r.1
  | 0, _, _, _, hmade, h => by
    cases h
    exact hmade
  | guard + 1, alts, _, _, hmade, h => by
    unfold splitHidden at h
    split at h
    · next before el rest after hspan =>
      split at h
      · next present hpresent =>
        obtain ⟨added', -, h⟩ := bind_eq_ok h
        have halts : alts = before ++ (el :: rest) :: after := eq_append_of_span hspan
        obtain ⟨hel, hrest⟩ := List.forall_mem_cons.mp (hmade (el :: rest) (by simp [halts]))
        refine splitHidden_made guard (fun α hα => ?_) h
        simp only [List.mem_append, List.mem_cons, List.not_mem_nil, or_false] at hα
        rcases hα with (hα | rfl | rfl) | hα
        · exact hmade α (by simp [halts, hα])
        · exact List.forall_mem_append.mpr ⟨made_nullableSugarPresent hK hel hpresent, hrest⟩
        · exact hrest
        · exact hmade α (by simp [halts, hα])
      · cases h
        exact hmade
    · cases h
      exact hmade

theorem expand_made : ∀ (prods : List Production) {added : Nat} {r : List Production × Nat},
    (∀ p ∈ prods, Made K p.alts) → expandNullableLeftPrefixes diag prods added = .ok r →
      ∀ p ∈ r.1, Made K p.alts
  | [], _, _, hmade, h => by
    cases h
    exact hmade
  | p :: rest, _, _, hmade, h => by
    obtain ⟨⟨alts, added₁⟩, hsplit, h⟩ := bind_eq_ok h
    obtain ⟨⟨rest', added₂⟩, hrest, h⟩ := bind_eq_ok h
    cases h
    obtain ⟨hp, hmade⟩ := List.forall_mem_cons.mp hmade
    exact List.forall_mem_cons.mpr ⟨splitHidden_made hK _ hp hsplit, expand_made rest hmade hrest⟩

omit hK in
theorem substituteLeadingRef_made {target source : Production} (ht : Made K target.alts)
    (hs : Made K source.alts) : Made K (substituteLeadingRef target source).alts := by
  intro α hα
  obtain ⟨alt, halt, hα⟩ := List.mem_flatMap.mp hα
  split at hα
  · obtain ⟨body, hbody, rfl⟩ := List.mem_map.mp hα
    exact List.forall_mem_append.mpr
      ⟨hs body hbody, fun el hel => ht alt halt el (List.mem_of_mem_tail hel)⟩
  · rw [List.mem_singleton.mp hα]
    exact ht alt halt

theorem substituteLeadingRefByToken_made {target : Production} {className : String}
    (hkept : className ∈ keep) (ht : Made K target.alts) :
    Made K (substituteLeadingRefByToken target className).alts := by
  intro α hα
  obtain ⟨alt, halt, rfl⟩ := List.mem_map.mp hα
  split
  · exact List.forall_mem_cons.mpr
      ⟨hK.token className hkept _, fun el hel => ht alt halt el (List.mem_of_mem_tail hel)⟩
  · exact ht alt halt

theorem substitutePass_made : ∀ (earlier : List Production) {st st' : Substitution},
    (∀ p ∈ earlier, Made K p.alts) → Made K st.target.alts →
      substitutePass diag keep earlier st = .ok st' → Made K st'.target.alts
  | [], _, _, _, ht, h => by
    cases h
    exact ht
  | source :: rest, st, _, hmade, ht, h => by
    obtain ⟨hsource, hmade⟩ := List.forall_mem_cons.mp hmade
    unfold substitutePass at h
    split at h
    · exact substitutePass_made rest hmade ht h
    · split at h
      · next hkept =>
        exact substitutePass_made rest hmade
          (substituteLeadingRefByToken_made hK (List.contains_iff_mem.mp hkept) ht) h
      · obtain ⟨gained, -, h⟩ := bind_eq_ok h
        obtain ⟨added, -, h⟩ := bind_eq_ok h
        exact substitutePass_made rest hmade (substituteLeadingRef_made ht hsource) h

theorem substituteEarlier_made {earlier : List Production}
    (hmade : ∀ p ∈ earlier, Made K p.alts) : ∀ (guard : Nat) {st st' : Substitution},
      Made K st.target.alts → substituteEarlier diag keep earlier guard st = .ok st' →
      Made K st'.target.alts
  | 0, _, _, ht, h => by
    cases h
    exact ht
  | guard + 1, st, _, ht, h => by
    obtain ⟨st₁, hpass, h⟩ := bind_eq_ok h
    have hst : Made K { st with changed := false }.target.alts := ht
    have ht₁ := substitutePass_made hK earlier hmade hst hpass
    split at h
    · exact substituteEarlier_made hmade guard ht₁ h
    · cases h
      exact ht₁

theorem substituteInto_made {earlier : List Production} {guard added : Nat} {p : Production}
    {r : Production × Nat} (hmade : ∀ q ∈ earlier, Made K q.alts) (hp : Made K p.alts)
    (h : substituteInto diag keep cyclic earlier guard p added = .ok r) : Made K r.1.alts := by
  unfold substituteInto at h
  split at h
  · cases h
    exact hp
  · obtain ⟨st, hst, h⟩ := bind_eq_ok h
    cases h
    exact substituteEarlier_made hK hmade guard hp hst

theorem made_asElement {alts : List Sequence} (h : Made K alts) : K (asElement alts) := by
  unfold asElement
  split
  · exact h _ (List.mem_singleton_self _) _ (List.mem_singleton_self _)
  · exact hK.group _ h

theorem eliminateDirectLeftRec_made {p : Production} {names : List String}
    {r : Production × List String} (hp : Made K p.alts)
    (h : eliminateDirectLeftRec diag p names = .ok r) : Made K r.1.alts := by
  have hseeds : Made K (p.alts.filter fun alt => !leads p.name alt) :=
    hp.of_subset fun _ hα => (List.mem_filter.mp hα).1
  have htails : Made K (((p.alts.filter (leads p.name)).map List.tail).filter
      fun tail => !tail.isEmpty) := by
    intro α hα el hel
    obtain ⟨alt, halt, rfl⟩ := List.mem_map.mp (List.mem_filter.mp hα).1
    exact hp alt (List.mem_filter.mp halt).1 el (List.mem_of_mem_tail hel)
  unfold eliminateDirectLeftRec at h
  dsimp only at h
  split at h
  · cases h
    exact hseeds
  · split at h
    · cases h
    · cases h
      intro α hα
      rw [List.mem_singleton.mp hα]
      refine List.forall_mem_cons.mpr ⟨made_asElement hK hseeds, List.forall_mem_singleton.mpr
        (hK.tail _ _ (made_asElement hK htails) fun c hc => ?_)⟩
      split at hc
      · rw [← Option.mem_some.mp hc]
        exact debtNamed_freshDebtCounter _ _
      · cases hc

theorem paull_made {guard : Nat} : ∀ (rest done : List Production) {added : Nat}
    {names : List String} {out : List Production}, (∀ p ∈ done ++ rest, Made K p.alts) →
      paull diag keep cyclic guard done rest added names = .ok out → ∀ p ∈ out, Made K p.alts
  | [], done, _, _, _, hmade, h => by
    cases h
    simpa using hmade
  | p :: rest, done, _, _, _, hmade, h => by
    obtain ⟨⟨p₁, added₁⟩, hsub, h⟩ := bind_eq_ok h
    obtain ⟨⟨p₂, names₂⟩, hdir, h⟩ := bind_eq_ok h
    have hdone : ∀ q ∈ done, Made K q.alts := fun q hq => hmade q (List.mem_append_left _ hq)
    have hp₁ := substituteInto_made hK hdone (hmade p (by simp)) hsub
    refine paull_made rest (done ++ [p₂]) (fun q hq => ?_) h
    simp only [List.mem_append, List.mem_singleton] at hq
    rcases hq with (hq | rfl) | hq
    · exact hdone q hq
    · exact eliminateDirectLeftRec_made hK hp₁ hdir
    · exact hmade q (by simp [hq])

/-- **Elimination writes what it was given.** -/
theorem eliminate_made {grammar g' : Grammar} (hg : ∀ p ∈ grammar.productions, Made K p.alts)
    (h : eliminateLeftRecursionKeeping diag grammar keep = .ok g') :
    ∀ p ∈ g'.productions, Made K p.alts := by
  obtain ⟨⟨expanded, added⟩, hexp, h⟩ := bind_eq_ok h
  obtain ⟨done, hpaull, h⟩ := bind_eq_ok h
  obtain rfl := Except.ok.inj h
  have hcopies : ∀ p ∈ grammar.productions.map fun p => p.rebuilt p.alts, Made K p.alts := by
    intro p hp
    obtain ⟨q, hq, rfl⟩ := List.mem_map.mp hp
    exact hg q hq
  have hexpanded := expand_made hK _ hcopies hexp
  have hdone := paull_made hK _ [] (fun p hp =>
    hexpanded p ((topoOrderForPaull_names expanded).2.1 p hp)) hpaull
  exact fun p hp => hdone p (mem_slotsOf (mem_takeSlots hp))

end

/-! ## Probe dispatch -/

section

variable {diag : String} {grammar : Grammar} {keep : List String} {K : Element → Prop}
  (hK : Inherited keep K)
  (hmint : ∀ n, K (.reference n))

include hK in
/-- The parts of an alternative. -/
theorem Splits.made {alt : Sequence} {s : ProbeSplit} (h : Splits grammar alt s)
    (halt : ∀ el ∈ alt, K el) :
    (∀ el ∈ s.before, K el) ∧ (∀ el ∈ s.x ++ [s.disambiguator] ++ s.y, K el) ∧
      ∀ el ∈ s.y, K el := by
  obtain ⟨⟨sp, sp', hopt⟩, -⟩ := isProbeableOpt_eq h.optional
  rw [h.alt] at halt
  obtain ⟨hbefore, hrest⟩ := List.forall_mem_append.mp halt
  obtain ⟨hoptional, hy⟩ := List.forall_mem_cons.mp hrest
  rw [hopt] at hoptional
  have hgroup : K (.group [s.x ++ [s.disambiguator]] sp) :=
    hK.nested _ hoptional _ (List.mem_singleton_self _)
  have hseq : ∀ el ∈ s.x ++ [s.disambiguator], K el := fun el hel =>
    hK.nested _ hgroup el (by simpa [Element.nested] using hel)
  exact ⟨hbefore, List.forall_mem_append.mpr ⟨hseq, hy⟩, hy⟩

include hK hmint

theorem made_probeProductions {alt : Sequence} {s : ProbeSplit} (h : Splits grammar alt s)
    (halt : ∀ el ∈ alt, K el) (origin probe withName noName dispatch : String) :
    ∀ p ∈ probeProductions s origin probe withName noName dispatch, Made K p.alts := by
  obtain ⟨-, hwith, hno⟩ := h.made hK halt
  intro p hp α hα
  simp only [probeProductions, List.mem_cons, List.not_mem_nil, or_false] at hp
  rcases hp with rfl | rfl | rfl | rfl
  · cases hα
  · exact List.mem_singleton.mp hα ▸ hwith
  · exact List.mem_singleton.mp hα ▸ hno
  · simp only [Production.helper, List.mem_cons, List.not_mem_nil, or_false] at hα
    rcases hα with rfl | rfl
    · exact List.forall_mem_singleton.mpr (hmint _)
    · exact List.forall_mem_singleton.mpr (hmint _)

theorem rewriteProbeAlt_made {prod : Production} {alt : Sequence} {altIdx : Nat} {st : ProbeState}
    {r : Sequence × Bool × ProbeState} (halt : ∀ el ∈ alt, K el)
    (h : rewriteProbeAlt diag grammar prod altIdx alt st = .ok r) : ∀ el ∈ r.1, K el := by
  unfold rewriteProbeAlt at h
  split at h
  · cases h
    exact halt
  · next s hs =>
    have hsplit := probeSplit_spec [] alt hs
    rw [List.nil_append] at hsplit
    dsimp only at h
    split at h
    · cases h
    · cases h
      exact List.forall_mem_append.mpr
        ⟨(hsplit.made hK halt).1, List.forall_mem_singleton.mpr (hmint _)⟩

theorem rewriteProbeAlts_made {prod : Production} : ∀ (alts : List Sequence) {altIdx : Nat}
    {st : ProbeState} {r : List Sequence × Bool × ProbeState}, Made K alts →
      rewriteProbeAlts diag grammar prod altIdx alts st = .ok r → Made K r.1
  | [], _, _, _, hmade, h => by
    obtain rfl := Except.ok.inj h
    exact hmade
  | alt :: rest, _, _, _, hmade, h => by
    obtain ⟨⟨alt', touched, st₁⟩, halt, h⟩ := bind_eq_ok h
    obtain ⟨⟨rest', restTouched, st₂⟩, hrest, h⟩ := bind_eq_ok h
    obtain rfl := Except.ok.inj h
    obtain ⟨hmadeAlt, hmade⟩ := List.forall_mem_cons.mp hmade
    exact List.forall_mem_cons.mpr
      ⟨rewriteProbeAlt_made hK hmint hmadeAlt halt, rewriteProbeAlts_made rest hmade hrest⟩

theorem rewriteProbeProductions_made : ∀ (ps : List Production) {st : ProbeState}
    {r : List Production × ProbeState}, (∀ p ∈ ps, Made K p.alts) →
      rewriteProbeProductions diag grammar ps st = .ok r → ∀ p ∈ r.1, Made K p.alts
  | [], _, _, hmade, h => by
    obtain rfl := Except.ok.inj h
    exact hmade
  | prod :: rest, _, _, hmade, h => by
    obtain ⟨⟨alts, touched, st₁⟩, halts, h⟩ := bind_eq_ok h
    obtain ⟨⟨rest', st₂⟩, hrest, h⟩ := bind_eq_ok h
    obtain rfl := Except.ok.inj h
    obtain ⟨hprod, hmade⟩ := List.forall_mem_cons.mp hmade
    refine List.forall_mem_cons.mpr ⟨?_, rewriteProbeProductions_made rest hmade hrest⟩
    cases touched with
    | false => exact hprod
    | true =>
      show Made K alts
      exact rewriteProbeAlts_made hK hmint prod.alts hprod halts

/-- **The rewriting of probes writes what it was given**, and references to what it mints. -/
theorem rewriteProbeDispatches_made {g' : Grammar} (hg : ∀ p ∈ grammar.productions, Made K p.alts)
    (h : rewriteProbeDispatches diag grammar = .ok g') : ∀ p ∈ g'.productions, Made K p.alts := by
  obtain ⟨⟨rewritten, st⟩, hrun, h⟩ := bind_eq_ok h
  obtain rfl := Except.ok.inj h
  have hextra := rewriteProbeProductions_extra (A := fun alt => ∀ el ∈ alt, K el)
    (Q := fun extra => ∀ p ∈ extra, Made K p.alts)
    (fun extra alt s halt hs _ _ _ _ _ hextra p hp => by
      have hsplit := probeSplit_spec [] alt hs
      rw [List.nil_append] at hsplit
      rcases List.mem_append.mp hp with hp | hp
      · exact hextra p hp
      · exact made_probeProductions hK hmint hsplit halt _ _ _ _ _ p hp)
    _ hg (fun _ hp => absurd hp List.not_mem_nil) hrun
  intro p hp
  rcases List.mem_append.mp hp with hp | hp
  · exact rewriteProbeProductions_made hK hmint _ hg hrun p hp
  · exact hextra p hp

end

/-! ## Factoring -/

section

variable {diag : String} {lower upper : Char → Char} {grammar : Grammar} {keep : List String}
  {K : Element → Prop} (hK : Inherited keep K)

include hK

theorem made_unwrapped : ∀ el : Element, K el → ∀ e ∈ el.unwrapped, K e := by
  intro el
  fun_induction Element.unwrapped el with
  | case1 el sp ih =>
    exact fun hel => ih (hK.nested _ hel el (by simp [Element.nested]))
  | case2 sp alt h =>
    exact fun hel e he => hK.nested _ hel e (by simpa [Element.nested] using he)
  | case3 el h1 h2 => exact fun hel => List.forall_mem_singleton.mpr hel

theorem made_unwrapAlt {α : Sequence} (hα : ∀ el ∈ α, K el) : ∀ el ∈ unwrapAlt α, K el := by
  unfold unwrapAlt
  split
  · exact made_unwrapped hK _ (hα _ (List.mem_singleton_self _))
  · exact hα

theorem inlineHeadRef_made (hg : ∀ p ∈ grammar.productions, Made K p.alts) {headEl : Element}
    {v seq : Sequence} {annotated : Option String} (hv : ∀ el ∈ v, K el)
    (h : inlineHeadRef grammar headEl v = some (seq, annotated)) : ∀ el ∈ seq, K el := by
  obtain ⟨target, hmem, debt, sp, rest, alt, bodyHead, body, rfl, halts, hview, -, rfl⟩ :=
    inlineHeadRef_cases h
  rw [← hview]
  refine List.forall_mem_append.mpr
    ⟨made_unwrapAlt hK (hg target hmem alt (halts ▸ List.mem_singleton_self _)), ?_⟩
  exact (List.forall_mem_cons.mp hv).2

theorem gatherRun_made (hg : ∀ p ∈ grammar.productions, Made K p.alts) {headEl : Element}
    {views : List (Nat × Sequence)} (hviews : ∀ e ∈ views, ∀ el ∈ e.2, K el) {m : Member}
    (hm : m ∈ gatherRun lower upper grammar headEl views) : ∀ el ∈ m.view, K el := by
  obtain ⟨e, he, -, ⟨hv, -⟩ | hinl⟩ := gatherRun_cases hm
  · exact hv ▸ hviews e he
  · exact inlineHeadRef_made hK hg (hviews e he) hinl

omit hK in
theorem made_tailsOfRun {members : List Member} {plen : Nat}
    (h : ∀ m ∈ members, ∀ el ∈ m.view, K el) : Made K (tailsOfRun members plen) := by
  intro α hα el hel
  have hα := (mem_distinctTails (mem_emptyLast.mp hα)).resolve_left List.not_mem_nil
  obtain ⟨m, hm, rfl⟩ := List.mem_map.mp hα
  exact h m hm el (List.mem_of_mem_drop hel)

variable (hmint : ∀ n, K (.reference n))

include hmint

theorem factorOnce_made (hg : ∀ p ∈ grammar.productions, Made K p.alts)
    {prodName prodOrigin : String} {alts : List Sequence} {used : List String} {f : Factored}
    (halts : Made K alts)
    (h : factorOnce diag lower upper grammar prodName prodOrigin alts used = .ok (some f)) :
    Made K f.alts ∧ ∀ q ∈ f.helper, Made K q.alts := by
  obtain ⟨i, headEl, head, later, hsuffix, -, rfl⟩ := factorFrom_cases h
  have hviews : ∀ e ∈ (i, headEl :: head) :: later, ∀ el ∈ e.2, K el := by
    intro e he
    obtain ⟨⟨α, k⟩, hmem, rfl⟩ := List.mem_map.mp (hsuffix.subset he)
    exact made_unwrapAlt hK (halts α (List.fst_mem_of_mem_zipIdx hmem))
  obtain ⟨hhead, hlater⟩ := List.forall_mem_cons.mp hviews
  have hmembers : ∀ m ∈ (⟨i, headEl :: head, none⟩ : Member) ::
      gatherRun lower upper grammar headEl later, ∀ el ∈ m.view, K el :=
    List.forall_mem_cons.mpr ⟨hhead, fun m hm => gatherRun_made hK hg hlater hm⟩
  refine ⟨?_, fun q hq => (factorRun_helper hq).2 ▸ made_tailsOfRun hmembers⟩
  obtain ⟨replacement, hr, heq⟩ := factorRun_alts alts prodName prodOrigin used i
    (prefixLength (headEl :: head) (gatherRun lower upper grammar headEl later)) (headEl :: head)
    (gatherRun lower upper grammar headEl later)
  have hfactored : ∀ el ∈ factoredOf prodName used (headEl :: head)
      (⟨i, headEl :: head, none⟩ :: gatherRun lower upper grammar headEl later)
      (prefixLength (headEl :: head) (gatherRun lower upper grammar headEl later)), K el := by
    refine List.forall_mem_append.mpr ⟨fun el hel => hhead el (List.mem_of_mem_take hel), ?_⟩
    split
    · next tail htail =>
      exact made_tailsOfRun hmembers _ (htail ▸ List.mem_singleton_self _)
    · exact List.forall_mem_singleton.mpr (hmint _)
  have hreplacement : ∀ el ∈ replacement, K el := by
    rcases hr with rfl | rfl
    · exact hfactored
    · exact List.forall_mem_singleton.mpr
        (hK.group _ fun α hα => List.mem_singleton.mp hα ▸ hfactored)
  intro β hβ
  rw [heq] at hβ
  obtain ⟨α, k, hα, -, rfl⟩ := mem_replaceRun.mp hβ
  split
  · exact hreplacement
  · exact halts α (List.mem_of_getElem? hα)

theorem factorAlts_made (hg : ∀ p ∈ grammar.productions, Made K p.alts)
    {prodName prodOrigin : String} : ∀ (fuel : Nat) {alts : List Sequence} {used : List String}
      {r : List Sequence × List Production × List String}, Made K alts →
      factorAlts diag lower upper grammar prodName prodOrigin fuel alts used = .ok r →
      Made K r.1 ∧ ∀ q ∈ r.2.1, Made K q.alts
  | 0, _, _, _, halts, h => by
    cases h
    exact ⟨halts, fun _ hq => absurd hq List.not_mem_nil⟩
  | fuel + 1, _, _, _, halts, h => by
    obtain ⟨next, honce, h⟩ := bind_eq_ok h
    cases next with
    | none =>
      cases h
      exact ⟨halts, fun _ hq => absurd hq List.not_mem_nil⟩
    | some f =>
      obtain ⟨⟨alts', queued, used'⟩, hrest, h⟩ := bind_eq_ok h
      cases h
      obtain ⟨hf, hhelper⟩ := factorOnce_made hK hmint hg halts honce
      obtain ⟨halts', hqueued⟩ := factorAlts_made hg fuel hf hrest
      refine ⟨halts', fun q hq => ?_⟩
      exact (List.mem_append.mp hq).elim (fun hq => hhelper q (Option.mem_toList.mp hq)) (hqueued q)

theorem factorQueue_made (hg : ∀ p ∈ grammar.productions, Made K p.alts) : ∀ (fuel : Nat)
    (queue : List Production) (used : List String) (out : List Production) {res : List Production},
      factorQueue diag lower upper grammar fuel queue used out = some (.ok res) →
      (∀ p ∈ out ++ queue, Made K p.alts) → ∀ p ∈ res, Made K p.alts
  | fuel, [], used, out, res, h, hps => by
    unfold factorQueue at h
    cases h
    simpa using hps
  | 0, _ :: _, _, _, res, h, _ => by cases h
  | fuel + 1, prod :: queue, used, out, res, h, hps => by
    unfold factorQueue at h
    split at h
    · exact factorQueue_made hg fuel queue used _ h (by simpa using hps)
    · split at h
      · cases h
      · next alts queued used' hfactored =>
        obtain ⟨halts, hqueued⟩ := factorAlts_made hK hmint hg _
          (hps prod (List.mem_append_right _ List.mem_cons_self)) hfactored
        refine factorQueue_made hg fuel (queue ++ queued) used' _ h fun p hp => ?_
        simp only [List.mem_append, List.mem_singleton] at hp
        rcases hp with (hp | rfl) | hp | hp
        · exact hps p (List.mem_append_left _ hp)
        · exact halts
        · exact hps p (List.mem_append_right _ (List.mem_cons_of_mem _ hp))
        · exact hqueued p hp

/-- **Factoring writes what it was given**, and references to what it mints. -/
theorem leftFactor_made {fuel : Nat} {g' : Grammar} (hg : ∀ p ∈ grammar.productions, Made K p.alts)
    (h : leftFactor diag lower upper grammar fuel = some (.ok g')) :
    ∀ p ∈ g'.productions, Made K p.alts := by
  obtain ⟨r, hr, h⟩ := Option.map_eq_some_iff.mp h
  cases r with
  | error e => cases h
  | ok res =>
    cases h
    exact factorQueue_made hK hmint hg fuel _ _ [] hr hg

end

end TabnasBnf
