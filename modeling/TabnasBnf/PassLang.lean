import TabnasBnf.PassRefs
import TabnasBnf.ProbeCorrect

/-!
# What the passes keep of the language

Elimination and factoring keep the language of every name; here the same of the rewriting of probes,
and of desugaring when some references name nothing. A tail repeat changes the language of its rule,
but not whether the rule derives the empty string.

* **`rewriteProbeDispatches_lang`**, **`desugar_lang`**: both keep the language of every name, unless
  a minted production takes the name of a reference that named none.
* **`rewriteTailRepeats_nil`**: a rule derives the empty string after the rewriting of tails exactly
  when it did before.
-/

namespace TabnasBnf

open Names

variable {T : Type*} {τ : Element → Language T}

/-! ## Probe dispatch -/

section

variable {U : List String} {diag : String} {grammar : Grammar}

/-- **The dispatcher stands for the optional and what follows it.** -/
theorem expands_probe {s : ProbeSplit} {origin probe withName noName dispatch : String}
    (hs : isProbeableOpt s.optional = some (s.x, s.disambiguator))
    (hU : refsIn (s.optional :: s.y) ⊆ U)
    (hnd : (namesOf (probeProductions s origin probe withName noName dispatch)).Nodup)
    (hfresh : ∀ n ∈ namesOf (probeProductions s origin probe withName noName dispatch), n ∉ U) :
    Expands τ U (fun ρ => Cf.seq (den τ ρ) (s.optional :: s.y))
      (probeProductions s origin probe withName noName dispatch) (fun ρ => ρ dispatch) := by
  obtain ⟨⟨sp, sp', hopt⟩, -⟩ := isProbeableOpt_eq hs
  rw [hopt] at hU
  simp only [refsIn, Element.refs, refsInAlts, List.append_nil] at hU
  obtain ⟨hx, hy⟩ := List.append_subset.mp hU
  simp only [probeProductions, namesOf_cons, namesOf_nil, Production.helper_name,
    List.nodup_cons, List.mem_cons, List.not_mem_nil, or_false, not_or, List.nodup_nil, and_true,
    not_false_eq_true, forall_eq_or_imp, forall_eq] at hnd hfresh
  obtain ⟨⟨hpw, hpn, hpd⟩, ⟨hwn, hwd⟩, hnd'⟩ := hnd
  obtain ⟨hp, hw, hn, hd⟩ := hfresh
  -- the probe's own rule has no alternatives, and nothing refers to it
  let probeProd : Production :=
    { Production.helper probe [] origin with probeHelper := some ⟨s.vocab.map Prod.snd⟩ }
  let withProd : Production :=
    Production.helper withName [s.x ++ [s.disambiguator] ++ s.y] origin
  let noProd : Production := Production.helper noName [s.y] origin
  let dispatchProd : Production :=
    { Production.helper dispatch [[.reference withName], [.reference noName]] origin with
      probeDispatch := some ⟨probe, s.disambiguator, withName, noName⟩ }
  have hprobe : Expands τ U (fun ρ => altsDen τ ρ probeProd.alts) [probeProd]
      fun ρ => ρ probeProd.name :=
    expands_helper hp (List.nil_subset _)
  have hwith : Expands τ U (fun ρ => altsDen τ ρ withProd.alts) [withProd]
      fun ρ => ρ withProd.name := by
    refine expands_helper hw ?_
    simp only [withProd, Production.helper_alts, refsInAlts, List.append_nil]
    exact refsIn_append_subset.mpr ⟨hx, hy⟩
  have hno : Expands τ U (fun ρ => altsDen τ ρ noProd.alts) [noProd]
      fun ρ => ρ noProd.name := by
    refine expands_helper hn ?_
    simpa [noProd, refsInAlts] using hy
  have hbranches := (hprobe.map₂ (fun _ b => b) (fun _ _ _ _ _ h => h) hwith
    (by simpa [withProd, probeProd] using Ne.symm hpw)).map₂ (· + ·)
    (fun _ _ h _ _ h' => add_le_add h h') hno
    (by simpa [withProd, probeProd, noProd] using ⟨Ne.symm hpn, Ne.symm hwn⟩)
  have hdispatch : Expands τ (U ++ namesOf ([probeProd] ++ [withProd] ++ [noProd]))
      (fun ρ => altsDen τ ρ dispatchProd.alts) [dispatchProd]
      fun ρ => ρ dispatchProd.name := by
    refine expands_helper ?_ ?_
    · simpa [withProd, probeProd, noProd, dispatchProd] using
        ⟨hd, Ne.symm hpd, Ne.symm hwd, Ne.symm hnd'⟩
    · simp [withProd, probeProd, noProd, dispatchProd, refsInAlts, refsIn, Element.reference,
        Element.refs]
  have hsame : (fun ρ => altsDen τ ρ dispatchProd.alts) =
      fun ρ : Env T => ρ withProd.name + ρ noProd.name := by
    funext ρ
    simp [dispatchProd, withProd, noProd, Element.reference]
  rw [hsame] at hdispatch
  have hall := hbranches.trans hdispatch
  have hsrc : (fun ρ => Cf.seq (den τ ρ) (s.optional :: s.y)) =
      fun ρ => altsDen τ ρ withProd.alts + altsDen τ ρ noProd.alts := by
    funext ρ
    rw [hopt]
    simp [withProd, noProd, add_mul, mul_assoc, add_comm]
  rw [hsrc]
  exact hall

/-- From `st` to `st'` something that denoted `f` became something that denotes `g` and refers to
`R`, in the scope `U`. -/
def Probed (τ : Element → Language T) (U : List String) (st st' : ProbeState) (R : List String)
    {V : Type*} [Preorder V] (f g : Env T → V) : Prop :=
  ∃ ps, st'.extra = st.extra ++ ps ∧ Taken st.used st'.used (namesOf ps) ∧ R ⊆ U ++ namesOf ps ∧
    Expands τ U f ps g

theorem Probed.refl {st : ProbeState} {R : List String} {V : Type*} [Preorder V] {f : Env T → V}
    (hf : Local U f) (hR : R ⊆ U) : Probed τ U st st R f f :=
  ⟨[], (List.append_nil _).symm, Taken.refl _, List.subset_append_of_subset_left _ hR,
    Expands.refl hf⟩

theorem Probed.map₂ {st st₁ st₂ : ProbeState} {R R' : List String} {V W X : Type*} [Preorder V]
    [Preorder W] [Preorder X] {f g : Env T → V} {f' g' : Env T → W} (op : V → W → X)
    (hop : ∀ ⦃a b⦄, a ≤ b → ∀ ⦃c d⦄, c ≤ d → op a c ≤ op b d)
    (h₁ : Probed τ U st st₁ R f g) (h₂ : Probed τ U st₁ st₂ R' f' g') :
    Probed τ U st st₂ (R ++ R') (fun ρ => op (f ρ) (f' ρ)) (fun ρ => op (g ρ) (g' ρ)) := by
  obtain ⟨ps, hextra, htaken, hR, hex⟩ := h₁
  obtain ⟨qs, hextra', htaken', hR', hex'⟩ := h₂
  refine ⟨ps ++ qs, by rw [hextra', hextra, List.append_assoc], ?_, fun n hn => ?_,
    hex.map₂ op hop hex' fun n hn hp => htaken'.fresh n hn (htaken.names hp)⟩
  · rw [namesOf_append]
    exact htaken.trans htaken'
  · simp only [namesOf_append, List.mem_append]
    rcases List.mem_append.mp hn with hn | hn
    · exact (List.mem_append.mp (hR hn)).imp_right Or.inl
    · exact (List.mem_append.mp (hR' hn)).imp_right Or.inr

theorem ProbesAdded.subset {st st' : ProbeState} (h : ProbesAdded st st') :
    namesOf st.extra ⊆ namesOf st'.extra := by
  obtain ⟨new, hnames, -⟩ := h
  rw [hnames]
  exact List.subset_append_left _ _

theorem rewriteProbeAlt_probed {prod : Production} {alt : Sequence} {altIdx : Nat}
    {st : ProbeState} {r : Sequence × Bool × ProbeState} (hU : refsIn alt ⊆ U)
    (hclear : ∀ n ∈ namesOf r.2.2.extra, n ∉ U)
    (h : rewriteProbeAlt diag grammar prod altIdx alt st = .ok r) :
    Probed τ U st r.2.2 (refsIn r.1) (fun ρ => Cf.seq (den τ ρ) alt)
      (fun ρ => Cf.seq (den τ ρ) r.1) := by
  unfold rewriteProbeAlt at h
  split at h
  · cases h
    exact .refl (fun _ _ hρ => seqDen_congr fun n hn => hρ n (hU hn)) hU
  · next s hs =>
    have hsplit := probeSplit_spec [] alt hs
    rw [List.nil_append] at hsplit
    rw [hsplit.alt] at hU ⊢
    obtain ⟨hbefore, hopt⟩ := refsIn_append_subset.mp hU
    dsimp only at h
    split at h
    · cases h
    · set dispatch := freshProbeName (prod.name ++ "$pd" ++ toString s.before.length) st.used
      generalize hprobe : freshProbeName (dispatch ++ "$probe") _ = probe at h
      generalize hwith : freshProbeName (dispatch ++ "$with") _ = withName at h
      generalize hno : freshProbeName (dispatch ++ "$no") _ = noName at h
      cases h
      have htaken : Taken st.used (noName :: withName :: probe :: dispatch :: st.used)
          (namesOf (probeProductions s prod.originOf probe withName noName dispatch)) :=
        probeProductions_taken
          (freshProbeName_notMem (prod.name ++ "$pd" ++ toString s.before.length) st.used)
          (hprobe ▸ freshProbeName_notMem (dispatch ++ "$probe") _)
          (hwith ▸ freshProbeName_notMem (dispatch ++ "$with") _)
          (hno ▸ freshProbeName_notMem (dispatch ++ "$no") _)
      have hdispatch : ∀ reports, Probed τ U st
          ⟨noName :: withName :: probe :: dispatch :: st.used, st.extra ++
            probeProductions s prod.originOf probe withName noName dispatch, reports⟩ [dispatch]
          (fun ρ => Cf.seq (den τ ρ) (s.optional :: s.y)) (fun ρ => ρ dispatch) := fun _ =>
        ⟨_, rfl, htaken, fun n hn => by simp_all [probeProductions],
          expands_probe hsplit.optional hopt htaken.nodup fun n hn => hclear n
            (by rw [namesOf_append]; exact List.mem_append_right _ hn)⟩
      have hstay : Probed τ U st st (refsIn s.before) (fun ρ => Cf.seq (den τ ρ) s.before)
          (fun ρ => Cf.seq (den τ ρ) s.before) :=
        .refl (fun _ _ hρ => seqDen_congr fun n hn => hρ n (hbefore hn)) hbefore
      have hboth := fun reports => hstay.map₂ (· * ·) (fun _ _ h _ _ h' => mul_le_mul' h h')
        (hdispatch reports)
      simpa only [Cf.seq_append, refsIn_append, Cf.seq_singleton, Element.reference, den_ref, refsIn,
        Element.refs, List.append_nil] using hboth _

theorem rewriteProbeAlts_probed {prod : Production} : ∀ (alts : List Sequence) {altIdx : Nat}
    {st : ProbeState} {r : List Sequence × Bool × ProbeState}, Within U alts →
      (∀ n ∈ namesOf r.2.2.extra, n ∉ U) →
      rewriteProbeAlts diag grammar prod altIdx alts st = .ok r →
      Probed τ U st r.2.2 (refsInAlts r.1) (fun ρ => altsDen τ ρ alts)
        (fun ρ => altsDen τ ρ r.1) ∧ (r.2.1 = false → r.1 = alts)
  | [], _, st, _, _, _, h => by
    cases h
    exact ⟨.refl (fun _ _ _ => rfl) (List.nil_subset _), fun _ => rfl⟩
  | alt :: rest, _, st, _, hU, hclear, h => by
    obtain ⟨⟨alt', touched, st₁⟩, halt, h⟩ := bind_eq_ok h
    obtain ⟨⟨rest', restTouched, st₂⟩, hrest, h⟩ := bind_eq_ok h
    cases h
    obtain ⟨hUalt, hU⟩ := List.forall_mem_cons.mp hU
    have hclear₁ : ∀ n ∈ namesOf st₁.extra, n ∉ U := fun n hn =>
      hclear n ((rewriteProbeAlts_names rest hrest).subset hn)
    have hhead := rewriteProbeAlt_probed (τ := τ) hUalt hclear₁ halt
    obtain ⟨htail, hsame⟩ :=
      rewriteProbeAlts_probed (r := (rest', restTouched, st₂)) rest hU hclear hrest
    refine ⟨hhead.map₂ (· + ·) (fun _ _ h _ _ h' => add_le_add h h') htail, fun htouched => ?_⟩
    obtain ⟨htouched, hrestTouched⟩ := Bool.or_eq_false_iff.mp htouched
    have halt' : alt' = alt := by
      unfold rewriteProbeAlt at halt
      split at halt
      · cases halt
        rfl
      · dsimp only at halt
        split at halt
        · cases halt
        · cases halt
          cases htouched
    rw [halt', show rest' = rest from hsame hrestTouched]

theorem rewriteProbeProductions_probed : ∀ (ps : List Production) {st : ProbeState}
    {r : List Production × ProbeState}, (∀ p ∈ ps, Within U p.alts) →
      (∀ n ∈ namesOf r.2.extra, n ∉ U) →
      rewriteProbeProductions diag grammar ps st = .ok r →
      Probed τ U st r.2 (r.1.flatMap fun p => refsInAlts p.alts) (step τ ps) (step τ r.1)
  | [], st, _, _, _, h => by
    cases h
    exact .refl (fun _ _ _ => rfl) (List.nil_subset _)
  | prod :: rest, st, _, hU, hclear, h => by
    obtain ⟨⟨alts, touched, st₁⟩, halts, h⟩ := bind_eq_ok h
    obtain ⟨⟨rest', st₂⟩, hrest, h⟩ := bind_eq_ok h
    cases h
    obtain ⟨hUprod, hU⟩ := List.forall_mem_cons.mp hU
    have hclear₁ : ∀ n ∈ namesOf st₁.extra, n ∉ U := fun n hn =>
      hclear n ((rewriteProbeProductions_names rest hrest).2.subset hn)
    obtain ⟨hhead, hsame⟩ := rewriteProbeAlts_probed (τ := τ) _ hUprod hclear₁ halts
    have htail := rewriteProbeProductions_probed (r := (rest', st₂)) rest hU hclear hrest
    have halts' : (if touched then prod.rebuilt alts else prod).alts = alts := by
      cases touched with
      | true => rfl
      | false => exact (hsame rfl).symm
    have hname : (if touched then prod.rebuilt alts else prod).name = prod.name := by
      cases touched <;> rfl
    have hboth := hhead.map₂
      (fun (a : Language T) (b : Env T) n => (if prod.name = n then a else 0) + b n)
      (fun _ _ h _ _ h' n => add_le_add (by split <;> [exact h; exact le_refl _]) (h' n)) htail
    simpa only [step_cons', List.flatMap_cons, halts', hname] using hboth

/-- **The rewriting of probes keeps the language**, unless a production it mints takes the name of a
reference that named none. -/
theorem rewriteProbeDispatches_lang {g' : Grammar}
    (hcap : ∀ n ∈ grammar.refs, n ∈ g'.names → n ∈ grammar.names)
    (h : rewriteProbeDispatches diag grammar = .ok g') :
    g'.refs ⊆ grammar.refs ++ g'.names ∧ ∀ n ∈ grammar.names,
      nameLang τ g'.productions n = nameLang τ grammar.productions n := by
  obtain ⟨⟨rewritten, st⟩, hrun, h⟩ := bind_eq_ok h
  obtain rfl := Except.ok.inj h
  obtain ⟨hnames, new, hnew, htaken⟩ := rewriteProbeProductions_names _ hrun
  have hfresh : ∀ n ∈ namesOf st.extra, n ∉ grammar.names := fun n hn =>
    htaken.fresh n (by simpa [hnew] using hn)
  have hclear : ∀ n ∈ namesOf st.extra, n ∉ grammar.names ++ grammar.refs := by
    intro n hn hmem
    have hmint : n ∈ namesOf (rewritten ++ st.extra) := by
      rw [namesOf_append]
      exact List.mem_append_right _ hn
    exact (List.mem_append.mp hmem).elim (hfresh n hn) fun href => hfresh n hn (hcap n href hmint)
  obtain ⟨ps, hextra, -, hR, hex⟩ := rewriteProbeProductions_probed (τ := τ) grammar.productions
    (U := grammar.names ++ grammar.refs)
    (fun p hp => (within_of_mem_refs hp).mono (List.subset_append_right _ _)) hclear hrun
  have hps : st.extra = ps := by simpa using hextra
  have hscope : (grammar.names ++ grammar.refs) ++ namesOf ps ⊆
      grammar.refs ++ namesOf (rewritten ++ st.extra) := by
    intro n
    simp only [namesOf_append, hnames, hps, List.mem_append, Grammar.names]
    tauto
  refine ⟨refs_subset_iff.mpr fun p hp => ?_, fun n hn => ?_⟩
  · rw [within_iff]
    rcases List.mem_append.mp hp with hp | hp
    · exact fun n hn => hscope (hR (List.mem_flatMap.mpr ⟨p, hp, hn⟩))
    · exact fun n hn => hscope (hex.closed p (hps ▸ hp) hn)
  · show nameLang τ (rewritten ++ st.extra) n = _
    rw [hps]
    exact hex.nameLang_eq (List.subset_append_left _ _) (List.mem_append_left _ hn)

end

/-! ## Factoring -/

/-- Factoring refers to what the grammar did or to productions of its own, and keeps the language. -/
theorem leftFactor_keeps {diag : String} {lower upper : Char → Char} {grammar g' : Grammar}
    {fuel : Nat} (hτ : RespectsEqual τ) (hnd : grammar.names.Nodup)
    (h : leftFactor diag lower upper grammar fuel = some (.ok g'))
    (hcap : ∀ n ∈ grammar.refs, n ∈ g'.names → n ∈ grammar.names) :
    g'.refs ⊆ grammar.refs ++ g'.names ∧ ∀ n ∈ grammar.names,
      nameLang τ g'.productions n = nameLang τ grammar.productions n := by
  obtain ⟨r, hr, h⟩ := Option.map_eq_some_iff.mp h
  cases r with
  | error e => cases h
  | ok res =>
    cases h
    obtain ⟨used', hi⟩ := factorQueue_spec hτ fuel _ _ _ hr hcap (List.Subset.refl _)
      ⟨hnd, List.Subset.refl _, List.Subset.refl _, fun q hq n hn => List.mem_append_left _
        (List.mem_flatMap.mpr ⟨q, hq, hn⟩), fun t ht _ => ⟨t, ht, rfl, rfl⟩, fun _ _ => rfl⟩
    exact ⟨refs_subset_iff.mpr fun p hp => within_iff.mpr (hi.refs p hp), hi.lang⟩

/-! ## Desugaring -/

namespace Desugar

/-- The names `D` counted as used besides. -/
def reserve (D : List String) (d : Desugar) : Desugar := { d with used := D ++ d.used }

section

variable {D : List String} {d : Desugar} {inner : Element}

/-- No helper has a name of `D`. -/
def Spares (D : List String) (d : Desugar) : Prop := ∀ n ∈ namesOf d.extra, n ∉ D

theorem Spares.helper {name : String} {alts : List Sequence} {repeatHelper : Bool}
    (h : Spares D (d.helper name alts repeatHelper).2) : Spares D d ∧ name ∉ D := by
  have hnames : namesOf (d.helper name alts repeatHelper).2.extra = namesOf d.extra ++ [name] :=
    namesOf_append _ _
  refine ⟨fun n hn => h n ?_, h name ?_⟩ <;> rw [hnames] <;> simp [*]

theorem Spares.of_freshName {hint : String} (h : Spares D (d.freshName hint).2) : Spares D d := h

theorem Spares.loop {name : String} {guard : Option String}
    (h : Spares D (d.repeatLoop name inner guard).2) : Spares D d ∧ name ∉ D := by
  have hnames : namesOf (d.repeatLoop name inner guard).2.extra = namesOf d.extra ++ [name] :=
    namesOf_append _ _
  refine ⟨fun n hn => h n ?_, h name ?_⟩ <;> rw [hnames] <;> simp [*]

theorem Spares.of_grown {d₁ : Desugar} (h : Spares D d₁) (hgrown : Grown d d₁) : Spares D d := by
  obtain ⟨ps, hps⟩ := hgrown
  intro n hn
  refine h n ?_
  rw [hps.extra, namesOf_append]
  exact List.mem_append_left _ hn

theorem helper_reserve (name : String) (alts : List Sequence) (repeatHelper : Bool) :
    (d.reserve D).helper name alts repeatHelper =
      ((d.helper name alts repeatHelper).1, (d.helper name alts repeatHelper).2.reserve D) := rfl

theorem repeatLoop_reserve (name : String) (guard : Option String) :
    (d.reserve D).repeatLoop name inner guard =
      ((d.repeatLoop name inner guard).1, (d.repeatLoop name inner guard).2.reserve D) := rfl

theorem freshName_reserve {hint : String} (h : (d.freshName hint).1 ∉ D) :
    (d.reserve D).freshName hint = ((d.freshName hint).1, (d.freshName hint).2.reserve D) := by
  have hname : ((d.reserve D).freshName hint).1 = (d.freshName hint).1 :=
    congrArg (helperName hint)
      (Names.freshIndex_append (fun _ _ h => Names.numbered_injective "_gen" ("_" ++ hint) h) h)
  refine Prod.ext hname ?_
  show ({ d.reserve D with used := (D ++ d.used) ++ [((d.reserve D).freshName hint).1] } : Desugar)
    = _
  rw [hname, List.append_assoc]
  rfl

theorem nestStep_reserve {nested : Option Element} (h : Spares D (nestStep inner nested d).2) :
    nestStep inner nested (d.reserve D) =
      ((nestStep inner nested d).1, (nestStep inner nested d).2.reserve D) := by
  rw [nestStep_eq] at h
  obtain ⟨h₁, hopt⟩ := h.helper
  have hgroup := h₁.of_freshName.helper.2
  simp only [nestStep, freshName_reserve hgroup, helper_reserve, freshName_reserve hopt]

theorem nestOptionals_reserve : ∀ (n : Nat) (nested : Option Element) {d : Desugar},
    Spares D (nestOptionals inner n nested d).2 →
    nestOptionals inner n nested (d.reserve D) =
      ((nestOptionals inner n nested d).1, (nestOptionals inner n nested d).2.reserve D)
  | 0, _, _, _ => rfl
  | n + 1, nested, d, h => by
    rw [nestOptionals_succ] at h
    have hstep := h.of_grown (nestOptionals_grown n _ _)
    rw [nestOptionals_succ, nestStep_reserve hstep, nestOptionals_succ]
    exact nestOptionals_reserve n _ h

/-- The sugar branches mint the same. -/
theorem sugar_reserve (el : Element) (h : Spares D (d.sugar el inner).2) :
    (d.reserve D).sugar el inner = ((d.sugar el inner).1, (d.sugar el inner).2.reserve D) := by
  cases el with
  | opt e sp =>
    have hopt := (Spares.helper h).2
    simp only [sugar, freshName_reserve hopt, helper_reserve]
  | star e guard sp =>
    have hstar := (Spares.loop h).2
    simp only [sugar, freshName_reserve hstar, repeatLoop_reserve]
  | plus e sp =>
    have hplus : ((d.freshName ("star_" ++ hintOf inner)).2.freshName
        ("plus_" ++ hintOf inner)).1 ∉ D := (Spares.helper h).2
    have htail : (d.freshName ("star_" ++ hintOf inner)).1 ∉ D :=
      (Spares.loop (Spares.helper h).1).2
    simp only [sugar, freshName_reserve htail, freshName_reserve hplus, repeatLoop_reserve,
      helper_reserve]
  | rep min max e sp =>
    have hrep : (d.freshName ("rep_" ++ hintOf inner)).1 ∉ D := by
      cases max <;> exact (Spares.helper h).2
    cases max with
    | none =>
      have htail : ((d.freshName ("rep_" ++ hintOf inner)).2.freshName
          ("star_" ++ hintOf inner)).1 ∉ D := (Spares.loop (Spares.helper h).1).2
      simp only [sugar, freshName_reserve hrep, freshName_reserve htail, repeatLoop_reserve,
        helper_reserve]
    | some max =>
      have hnested : Spares D (nestOptionals inner (max - min) none
          (d.freshName ("rep_" ++ hintOf inner)).2).2 := (Spares.helper h).1
      simp only [sugar, freshName_reserve hrep, nestOptionals_reserve _ _ hnested, helper_reserve]
  | _ => rfl

mutual
theorem element_reserve : ∀ (el : Element) {d : Desugar} {r : Element × Desugar},
    Spares D r.2 → element d el = .ok r → element (d.reserve D) el = .ok (r.1, r.2.reserve D)
  | .prose .., _, _, _, h => by cases h
  | .ref .., _, _, _, h | .term .., _, _, _, h | .regex .., _, _, _, h | .token .., _, _, _, h => by
    obtain rfl := Except.ok.inj h
    rfl
  | .group alts _, _, _, hD, h => by
    obtain ⟨⟨inner, d₁⟩, hinner, h⟩ := bind_eq_ok h
    obtain rfl : (d₁.freshName "group").2.helper (d₁.freshName "group").1 inner false = _ :=
      Except.ok.inj h
    obtain ⟨hD₁, hgroup⟩ := Spares.helper hD
    have hinner' := altList_reserve alts (r := (inner, d₁)) hD₁ hinner
    rw [element, hinner']
    simp only [bind, Except.bind, freshName_reserve hgroup, helper_reserve, pure, Except.pure]
  | .opt e sp, _, _, hD, h => by
    obtain ⟨⟨inner, d₁⟩, hinner, h⟩ := bind_eq_ok h
    obtain rfl : d₁.sugar (.opt e sp) inner = _ := Except.ok.inj h
    have he := element_reserve e (r := (inner, d₁)) (hD.of_grown (sugar_grown _)) hinner
    rw [element, he]
    exact congrArg Except.ok (sugar_reserve _ hD)
  | .star e guard sp, _, _, hD, h => by
    obtain ⟨⟨inner, d₁⟩, hinner, h⟩ := bind_eq_ok h
    obtain rfl : d₁.sugar (.star e guard sp) inner = _ := Except.ok.inj h
    have he := element_reserve e (r := (inner, d₁)) (hD.of_grown (sugar_grown _)) hinner
    rw [element, he]
    exact congrArg Except.ok (sugar_reserve _ hD)
  | .plus e sp, _, _, hD, h => by
    obtain ⟨⟨inner, d₁⟩, hinner, h⟩ := bind_eq_ok h
    obtain rfl : d₁.sugar (.plus e sp) inner = _ := Except.ok.inj h
    have he := element_reserve e (r := (inner, d₁)) (hD.of_grown (sugar_grown _)) hinner
    rw [element, he]
    exact congrArg Except.ok (sugar_reserve _ hD)
  | .rep min max e sp, _, _, hD, h => by
    obtain ⟨⟨inner, d₁⟩, hinner, h⟩ := bind_eq_ok h
    obtain rfl : d₁.sugar (.rep min max e sp) inner = _ := Except.ok.inj h
    have he := element_reserve e (r := (inner, d₁)) (hD.of_grown (sugar_grown _)) hinner
    rw [element, he]
    exact congrArg Except.ok (sugar_reserve _ hD)

theorem alt_reserve : ∀ (α : List Element) {d : Desugar} {r : List Element × Desugar},
    Spares D r.2 → alt d α = .ok r → alt (d.reserve D) α = .ok (r.1, r.2.reserve D)
  | [], _, _, _, h => by
    obtain rfl := Except.ok.inj h
    rfl
  | el :: α, _, _, hD, h => by
    obtain ⟨⟨el', d₁⟩, hel, h⟩ := bind_eq_ok h
    obtain ⟨⟨α', d₂⟩, hα, h⟩ := bind_eq_ok h
    obtain rfl := Except.ok.inj h
    have hrest := alt_reserve α (r := (α', d₂)) hD hα
    have hgrown := alt_grown (r := (α', d₂)) α hα
    have hfirst := element_reserve el (r := (el', d₁)) (Spares.of_grown hD hgrown) hel
    rw [alt, hfirst]
    simp only [bind, Except.bind, hrest]
    rfl

theorem altList_reserve : ∀ (alts : List (List Element)) {d : Desugar}
    {r : List (List Element) × Desugar}, Spares D r.2 → altList d alts = .ok r →
      altList (d.reserve D) alts = .ok (r.1, r.2.reserve D)
  | [], _, _, _, h => by
    obtain rfl := Except.ok.inj h
    rfl
  | α :: alts, _, _, hD, h => by
    obtain ⟨⟨α', d₁⟩, hα, h⟩ := bind_eq_ok h
    obtain ⟨⟨alts', d₂⟩, halts, h⟩ := bind_eq_ok h
    obtain rfl := Except.ok.inj h
    have hrest := altList_reserve alts (r := (alts', d₂)) hD halts
    have hgrown := altList_grown (r := (alts', d₂)) alts halts
    have hfirst := alt_reserve α (r := (α', d₁)) (Spares.of_grown hD hgrown) hα
    rw [altList, hfirst]
    simp only [bind, Except.bind, hrest]
    rfl
end

theorem productions_reserve : ∀ (ps : List Production) {d : Desugar}
    {r : List Production × Desugar}, Spares D r.2 → productions d ps = .ok r →
      productions (d.reserve D) ps = .ok (r.1, r.2.reserve D)
  | [], _, _, _, h => by
    obtain rfl := Except.ok.inj h
    rfl
  | p :: ps, d, _, hD, h => by
    obtain ⟨⟨alts, d₁⟩, halts, h⟩ := bind_eq_ok h
    obtain ⟨⟨rest, d₂⟩, hrest, h⟩ := bind_eq_ok h
    obtain rfl := Except.ok.inj h
    have hlater := productions_reserve ps (r := (rest, d₂)) hD hrest
    have hfirst := altList_reserve p.alts (r := (alts, d₁))
      (Spares.of_grown hD (productions_grown ps hrest).1) halts
    rw [productions]
    show (altList (reserve D { d with origin := p.originOf }) p.alts >>= _) = _
    rw [hfirst]
    simp only [bind, Except.bind, hlater]
    rfl

end

end Desugar

/-- **Desugaring keeps the language**, unless a helper takes the name of a reference that named no
production. -/
theorem desugar_lang {G G' : Grammar} (hp : ∀ p ∈ G.productions, ProperAlts p.alts)
    (hcap : ∀ n ∈ G.refs, n ∈ G'.names → n ∈ G.names) (h : desugar G = .ok G') :
    (∀ p ∈ G'.productions, SimpleAlts p.alts) ∧ G'.refs ⊆ G.refs ++ G'.names ∧
      ∀ n ∈ G.names, nameLang τ G'.productions n = nameLang τ G.productions n := by
  obtain ⟨⟨rewritten, d⟩, hrun, h⟩ := bind_eq_ok h
  obtain rfl := Except.ok.inj h
  obtain ⟨⟨ps, hps⟩, hnames⟩ := Desugar.productions_grown _ hrun
  have hextra : d.extra = ps := by simpa using hps.extra
  have hspares : Desugar.Spares G.refs d := by
    intro n hn href
    have hmint : n ∈ namesOf (rewritten ++ d.extra) := by
      rw [namesOf_append]
      exact List.mem_append_right _ hn
    exact hps.fresh n (hextra ▸ hn) (hcap n href hmint)
  have hreserved := Desugar.productions_reserve G.productions (r := (rewritten, d)) hspares hrun
  obtain ⟨r, hr, -, hsimple, qs, hm, hR, hex⟩ := Desugar.productions_spec (τ := τ) G.productions
    (U := G.refs ++ G.names) (d := ({ extra := [], used := G.names, origin := "" } :
      Desugar).reserve G.refs) hp
    (fun p hp => within_iff.mp ((within_of_mem_refs hp).mono (List.subset_append_left _ _)))
    (List.Subset.refl _)
  obtain rfl := Except.ok.inj (hreserved.symm.trans hr)
  have hqs : d.extra = qs := by simpa [Desugar.reserve] using hm.extra
  have hscope : (G.refs ++ G.names) ++ namesOf qs ⊆ G.refs ++ namesOf (rewritten ++ d.extra) := by
    intro n
    rw [namesOf_append, show namesOf rewritten = namesOf G.productions from hnames, hqs]
    simp only [List.mem_append, Grammar.names]
    tauto
  refine ⟨fun p hp => ?_, refs_subset_iff.mpr fun p hp => ?_, fun n hn => ?_⟩
  · rcases List.mem_append.mp hp with hp | hp
    · exact hsimple p hp
    · exact hm.holds p (hqs ▸ hp)
  · rw [within_iff]
    rcases List.mem_append.mp hp with hp | hp
    · exact fun n hn => hscope (hR (List.mem_flatMap.mpr ⟨p, hp, hn⟩))
    · exact fun n hn => hscope (hex.closed p (hqs ▸ hp) hn)
  · show nameLang τ (rewritten ++ d.extra) n = _
    rw [hqs]
    exact hex.nameLang_eq (List.subset_append_right _ _) (List.mem_append_right _ hn)

/-! ## The empty string -/

section

variable {ρ ρ' : Env T} {G G' : List Production} {n : String}

/-- Every string, the empty one where `P` holds. -/
def unlessEmpty (P : Prop) : Language T := {w | w = [] → P}

theorem nil_mem_unlessEmpty {P : Prop} : [] ∈ (unlessEmpty P : Language T) ↔ P :=
  ⟨fun h => h rfl, fun h _ => h⟩

/-- Whether an element derives the empty string depends on the names that do. -/
theorem nil_mem_den_mono (h : ∀ n, [] ∈ ρ n → [] ∈ ρ' n) {el : Element}
    (hel : [] ∈ den τ ρ el) : [] ∈ den τ ρ' el := by
  have hseq : ∀ α : Sequence, Cf.seq (fun s => unlessEmpty ([] ∈ den τ ρ' s)) α ≤
      (unlessEmpty ([] ∈ Cf.seq (den τ ρ') α) : Language T) := by
    intro α
    induction α with
    | nil => exact fun _ _ _ => Language.nil_mem_one
    | cons s α ih =>
      rw [Cf.seq_cons, Cf.seq_cons]
      intro w hw hnil
      obtain ⟨u, hu, v, hv, rfl⟩ := Language.mem_mul.mp hw
      obtain ⟨rfl, rfl⟩ := List.append_eq_nil_iff.mp hnil
      exact nil_mem_mul.mpr ⟨hu rfl, ih hv rfl⟩
  have key : ∀ s, den τ ρ s ≤ unlessEmpty ([] ∈ den τ ρ' s) := by
    refine Cf.lang_le (fun s w hw hnil => ?_) (fun s β hr w hw hnil => ?_)
    · subst hnil
      refine Cf.leaf_le_lang s ?_
      cases hs : s.refName with
      | none => rwa [leaf_of_not_ref hs] at hw
      | some n =>
        obtain ⟨debt, sp, rfl⟩ := Element.refName_eq_some.mp hs
        exact h n hw
    · exact Cf.rule_le_lang hr (hseq β hw hnil)
  exact nil_mem_unlessEmpty.mp (key el hel)

theorem nil_mem_altsDen_mono (h : ∀ n, [] ∈ ρ n → [] ∈ ρ' n) {alts : List Sequence}
    (halts : [] ∈ altsDen τ ρ alts) : [] ∈ altsDen τ ρ' alts := by
  obtain ⟨α, hα, hnil⟩ := mem_altsDen.mp halts
  exact mem_altsDen.mpr ⟨α, hα, nil_mem_seq.mpr fun el hel =>
    nil_mem_den_mono h (nil_mem_seq.mp hnil el hel)⟩

/-- **The names that derive the empty string are the least closed under the productions.** -/
theorem nil_mem_nameLang_of (h : ∀ p ∈ G, [] ∈ altsDen τ (nameLang τ G') p.alts →
    [] ∈ nameLang τ G' p.name) (hn : [] ∈ nameLang τ G n) : [] ∈ nameLang τ G' n := by
  let ρ : Env T := fun n => unlessEmpty ([] ∈ nameLang τ G' n)
  have hsolves : Solves τ G ρ := by
    intro p hp w hw hnil
    subst hnil
    exact h p hp (nil_mem_altsDen_mono (fun _ hm => nil_mem_unlessEmpty.mp hm) hw)
  exact nil_mem_unlessEmpty.mp (nameLang_le hsolves n hn)

theorem nil_mem_nameLang_of_mem {p : Production} (hp : p ∈ G)
    (h : [] ∈ altsDen τ (nameLang τ G) p.alts) : [] ∈ nameLang τ G p.name :=
  mem_nameLang_iff_alts.mpr ⟨p, hp, rfl, h⟩

end

/-! ## Tail repeats -/

/-- No terminal matches nothing. -/
def Consuming (τ : Element → Language T) : Prop := ∀ el, el.isTerminal = true → [] ∉ τ el

/-- A rule that is rewritten begins with terminals, and the rewriting keeps those. -/
theorem rewriteTailRepeat_cases (start : String) (p : Production) :
    rewriteTailRepeat start p = p ∨ ∃ first pre last, first.isTerminal = true ∧
      p.alts = [first :: pre ++ [last]] ∧ (rewriteTailRepeat start p).alts = [first :: pre] := by
  unfold rewriteTailRepeat
  split
  · exact .inl rfl
  · split
    · next alt halts =>
      split
      · next seq hseq =>
        dsimp only
        repeat' split
        · exact .inl rfl
        · exact .inl rfl
        · exact .inl rfl
        · exact .inl rfl
        · next hpre =>
          obtain ⟨last, hlast, -⟩ := Option.bind_eq_some_iff.mp hseq
          have halt := List.dropLast_append_getLast? last hlast
          cases hdrop : alt.dropLast with
          | nil => simp [hdrop] at hpre
          | cons first pre =>
            rw [hdrop] at halt hpre
            simp only [List.isEmpty_cons, Bool.false_or, Bool.not_eq_true', Bool.not_eq_false,
              List.all_cons, Bool.and_eq_true] at hpre
            exact .inr ⟨first, pre, last, hpre.1, by rw [halts, halt], rfl⟩
      · exact .inl rfl
    · exact .inl rfl

theorem nil_notMem_of_first {ρ : Env T} (hτ : Consuming τ) {first : Element}
    (h : first.isTerminal = true) (rest : Sequence) : [] ∉ altsDen τ ρ [first :: rest] := by
  intro hnil
  obtain ⟨α, hα, hnil⟩ := mem_altsDen.mp hnil
  rw [List.mem_singleton.mp hα] at hnil
  have hfirst := nil_mem_seq.mp hnil first List.mem_cons_self
  rw [den_terminal h] at hfirst
  exact hτ first h hfirst

/-- **The rewriting of tails keeps which rules derive the empty string.** -/
theorem rewriteTailRepeats_nil (hτ : Consuming τ) (grammar : Grammar) (start n : String) :
    [] ∈ nameLang τ (rewriteTailRepeats grammar start).productions n ↔
      [] ∈ nameLang τ grammar.productions n := by
  constructor
  · refine nil_mem_nameLang_of fun p' hp' hnil => ?_
    obtain ⟨p, hp, rfl⟩ := List.mem_map.mp hp'
    rw [rewriteTailRepeat_name]
    rcases rewriteTailRepeat_cases start p with heq | ⟨first, pre, last, hfirst, -, halts⟩
    · rw [heq] at hnil
      exact nil_mem_nameLang_of_mem hp hnil
    · rw [halts] at hnil
      exact absurd hnil (nil_notMem_of_first hτ hfirst pre)
  · refine nil_mem_nameLang_of fun p hp hnil => ?_
    have hp' : rewriteTailRepeat start p ∈ (rewriteTailRepeats grammar start).productions :=
      List.mem_map_of_mem hp
    rcases rewriteTailRepeat_cases start p with heq | ⟨first, pre, last, hfirst, halts, -⟩
    · rw [heq] at hp'
      exact nil_mem_nameLang_of_mem hp' hnil
    · rw [halts] at hnil
      exact absurd hnil (nil_notMem_of_first hτ hfirst _)

theorem rewriteTailRepeats_refs (grammar : Grammar) (start : String) :
    (rewriteTailRepeats grammar start).refs ⊆ grammar.refs := by
  refine refs_subset_iff.mpr fun p' hp' => ?_
  obtain ⟨p, hp, rfl⟩ := List.mem_map.mp hp'
  have hrefs := within_of_mem_refs hp
  rcases rewriteTailRepeat_cases start p with heq | ⟨first, pre, last, -, halts, halts'⟩
  · rwa [heq]
  · intro α hα
    rw [halts', List.mem_singleton] at hα
    subst hα
    have hall := hrefs (first :: pre ++ [last]) (by rw [halts]; exact List.mem_singleton_self _)
    exact (refsIn_append_subset.mp hall).1

end TabnasBnf
