import TabnasBnf.Emit
import TabnasBnf.IterationsConsume
import TabnasBnf.Prose

/-!
# The passes before emission

`Compile` is a run of `emit_grammar_spec` from prose resolution to desugaring. The passes that only
refuse (`check_element_depth`, the check on what elimination copied) are left out, and so is
`plan_value_annotations`: what it plans is an argument of the emitter.

* `Production.credit`: elimination and the rewriting of tails keep the names with the origins.
* **`Compile.names_nodup`**: distinct names stay distinct. Some passes drop productions, elimination
  and the rewriting of tails keep the names, and the other passes mint names that are not in use.
-/

namespace TabnasBnf

open Names

/-! ## Elimination -/

/-- A production's name with its origin. -/
def Production.credit (p : Production) : String × String := (p.name, p.originOf)

theorem Production.credit_eq_iff {p q : Production} :
    q.credit = p.credit ↔ q.name = p.name ∧ q.originOf = p.originOf :=
  Prod.mk_inj

section

variable {diag : String} {keep cyclic : List String}

theorem substitutePass_credit : ∀ (earlier : List Production) {st st' : Substitution},
    substitutePass diag keep earlier st = .ok st' → st'.target.credit = st.target.credit
  | [], _, _, h => by
    cases h
    rfl
  | source :: rest, st, _, h => by
    unfold substitutePass at h
    split at h
    · exact substitutePass_credit rest h
    · split at h
      · have hcredit := substitutePass_credit rest h
        exact hcredit
      · obtain ⟨gained, -, h⟩ := bind_eq_ok h
        obtain ⟨added, -, h⟩ := bind_eq_ok h
        have hcredit := substitutePass_credit rest h
        exact hcredit

theorem substituteEarlier_credit {earlier : List Production} : ∀ (guard : Nat)
    {st st' : Substitution}, substituteEarlier diag keep earlier guard st = .ok st' →
      st'.target.credit = st.target.credit
  | 0, _, _, h => by
    cases h
    rfl
  | guard + 1, st, _, h => by
    obtain ⟨st₁, hpass, h⟩ := bind_eq_ok h
    have hcredit := substitutePass_credit earlier hpass
    split at h
    · exact (substituteEarlier_credit guard h).trans hcredit
    · cases h
      exact hcredit

theorem substituteInto_credit {earlier : List Production} {guard added : Nat} {p : Production}
    {r : Production × Nat} (h : substituteInto diag keep cyclic earlier guard p added = .ok r) :
    r.1.credit = p.credit := by
  unfold substituteInto at h
  split at h
  · cases h
    rfl
  · obtain ⟨st, hst, h⟩ := bind_eq_ok h
    cases h
    exact substituteEarlier_credit guard hst

theorem substituteInto_name {earlier : List Production} {guard added : Nat} {p : Production}
    {r : Production × Nat} (h : substituteInto diag keep cyclic earlier guard p added = .ok r) :
    r.1.name = p.name := (Production.credit_eq_iff.mp (substituteInto_credit h)).1

theorem eliminateDirectLeftRec_credit {p : Production} {names : List String}
    {r : Production × List String} (h : eliminateDirectLeftRec diag p names = .ok r) :
    r.1.credit = p.credit := by
  unfold eliminateDirectLeftRec at h
  dsimp only at h
  split at h
  · cases h
    rfl
  · split at h
    · cases h
    · cases h
      rfl

theorem paull_credits {guard : Nat} : ∀ (rest done : List Production) {added : Nat}
    {names : List String} {out : List Production},
      paull diag keep cyclic guard done rest added names = .ok out →
      out.map Production.credit = (done ++ rest).map Production.credit
  | [], done, _, _, _, h => by
    cases h
    rw [List.append_nil]
  | p :: rest, done, _, _, _, h => by
    obtain ⟨⟨p₁, added₁⟩, hsub, h⟩ := bind_eq_ok h
    obtain ⟨⟨p₂, names₂⟩, hdirect, h⟩ := bind_eq_ok h
    have hcredit : p₂.credit = p.credit :=
      (eliminateDirectLeftRec_credit hdirect).trans (substituteInto_credit hsub)
    rw [paull_credits rest (done ++ [p₂]) h]
    simp [hcredit]

theorem paull_names {guard added : Nat} {rest done out : List Production} {names : List String}
    (h : paull diag keep cyclic guard done rest added names = .ok out) :
    namesOf out = namesOf (done ++ rest) := by
  have hnames := congrArg (List.map Prod.fst) (paull_credits rest done h)
  rwa [List.map_map, List.map_map] at hnames

theorem nodup_slotsOf (prods : List Production) : (namesOf (slotsOf prods)).Nodup := by
  have key : ∀ (ps slots : List Production), (namesOf slots).Nodup →
      (namesOf (ps.foldl (fun slots p =>
        if p.name ∈ namesOf slots then slots.map fun q => if q.name = p.name then p else q
        else slots ++ [p]) slots)).Nodup := by
    intro ps
    induction ps with
    | nil => exact fun slots hnd => hnd
    | cons p ps ih =>
      intro slots hnd
      refine ih _ ?_
      dsimp only
      split
      · -- a slot is filled again under its own name
        have hnames : namesOf (slots.map fun q => if q.name = p.name then p else q) =
            namesOf slots := by
          unfold namesOf
          rw [List.map_map]
          refine List.map_congr_left fun q _ => ?_
          rw [Function.comp]
          split <;> simp_all
        rwa [hnames]
      · next hp =>
        rw [namesOf_append]
        exact hnd.append (List.nodup_singleton _) (by simpa using hp)
  exact key prods [] List.nodup_nil

/-- Slots are taken, each once. -/
theorem perm_takeSlots : ∀ (names : List String) {slots : List Production},
    (namesOf slots).Nodup → (takeSlots names slots).Perm slots
  | [], _, _ => .refl _
  | n :: names, slots, hnd => by
    have hnd' : (namesOf (slots.filter (·.name != n))).Nodup :=
      hnd.sublist (List.filter_sublist.map _)
    have hrest := perm_takeSlots names hnd'
    rw [takeSlots]
    refine (hrest.append_left _).trans ?_
    cases hfind : slots.find? (·.name == n) with
    | none =>
      have hall : slots.filter (·.name != n) = slots := List.filter_eq_self.mpr fun q hq => by
        simpa using List.find?_eq_none.mp hfind q hq
      rw [hall]
      exact .refl _
    | some p =>
      obtain ⟨hp, before, after, rfl, hbefore⟩ := List.find?_eq_some_iff_append.mp hfind
      obtain rfl : p.name = n := by simpa using hp
      have hafter : after.filter (·.name != p.name) = after := List.filter_eq_self.mpr fun q hq => by
        rw [namesOf_append, namesOf_cons] at hnd
        have hnot := (List.nodup_cons.mp (List.Nodup.of_append_right hnd)).1
        simp only [bne_iff_ne]
        exact fun h => hnot (h ▸ mem_namesOf.mpr ⟨q, hq, rfl⟩)
      have hbefore' : before.filter (·.name != p.name) = before :=
        List.filter_eq_self.mpr fun q hq => by simpa using hbefore q hq
      rw [List.filter_append, hbefore', List.filter_cons, if_neg (by simp), hafter,
        Option.toList_some, List.singleton_append]
      exact List.perm_middle.symm

/-- **The names are distinct after elimination**, whatever they were before it. -/
theorem eliminate_names_nodup {grammar g' : Grammar}
    (h : eliminateLeftRecursionKeeping diag grammar keep = .ok g') : g'.names.Nodup := by
  obtain ⟨⟨expanded, added⟩, -, h⟩ := bind_eq_ok h
  obtain ⟨done, -, h⟩ := bind_eq_ok h
  obtain rfl := Except.ok.inj h
  have hslots := nodup_slotsOf done
  exact ((perm_takeSlots grammar.names hslots).map Production.name).nodup_iff.mpr hslots

/-- Elimination keeps every name, written twice or not. -/
theorem eliminate_names_subset {grammar g' : Grammar}
    (h : eliminateLeftRecursionKeeping diag grammar keep = .ok g') : grammar.names ⊆ g'.names := by
  obtain ⟨⟨expanded, added⟩, hexp, h⟩ := bind_eq_ok h
  obtain ⟨done, hpaull, h⟩ := bind_eq_ok h
  obtain rfl := Except.ok.inj h
  have hcopies : namesOf (grammar.productions.map fun p => p.rebuilt p.alts) = grammar.names := by
    simp [namesOf, Grammar.names]
  have hnames : namesOf expanded = grammar.names :=
    ((expand_spec (τ := fun _ => (0 : Language Unit)) _ _ hexp).1).trans hcopies
  obtain ⟨hnd, -, hsub⟩ := topoOrderForPaull_names expanded
  have hdone : namesOf done = namesOf (topoOrderForPaull expanded) := paull_names hpaull
  have hndDone : (namesOf done).Nodup := by rwa [hdone]
  have hperm := (perm_takeSlots grammar.names (nodup_slotsOf done)).map Production.name
  intro n hn
  show n ∈ namesOf (takeSlots _ _)
  refine hperm.mem_iff.mpr ?_
  show n ∈ namesOf (slotsOf done)
  rw [slotsOf_eq hndDone, hdone]
  exact hsub (hnames ▸ hn)

/-- Elimination keeps the names and their order. -/
theorem eliminate_names {grammar g' : Grammar} (hnd : grammar.names.Nodup)
    (h : eliminateLeftRecursionKeeping diag grammar keep = .ok g') : g'.names = grammar.names := by
  obtain ⟨⟨expanded, added⟩, hexp, h⟩ := bind_eq_ok h
  obtain ⟨done, hpaull, h⟩ := bind_eq_ok h
  obtain rfl := Except.ok.inj h
  have hcopies : namesOf (grammar.productions.map fun p => p.rebuilt p.alts) = grammar.names := by
    simp [namesOf, Grammar.names]
  have hnames : namesOf expanded = grammar.names :=
    ((expand_spec (τ := fun _ => (0 : Language Unit)) _ _ hexp).1).trans hcopies
  obtain ⟨hndTopo, hmem⟩ := topoOrderForPaull_spec (hnames ▸ hnd : (namesOf expanded).Nodup)
  have hdone : namesOf done = namesOf (topoOrderForPaull expanded) := paull_names hpaull
  have hndDone : (namesOf done).Nodup := by rwa [hdone]
  have hsame : ∀ n, n ∈ grammar.names ↔ n ∈ namesOf done := by
    intro n
    rw [hdone, ← hnames, mem_namesOf, mem_namesOf]
    simp only [hmem]
  show namesOf (takeSlots _ _) = _
  rw [slotsOf_eq hndDone]
  exact (takeSlots_spec grammar.names done hnd hndDone hsame).1

end

/-! ## Probe dispatch -/

section

variable {diag : String} {grammar : Grammar}

theorem probeName_injective (hint : String) : Function.Injective (probeName hint) := by
  intro i j h
  have hself : ∀ n : Nat, n ≠ 0 → hint ++ toString n ≠ hint := by
    intro n _ h
    have hlen := congrArg List.length (congrArg String.toList h)
    rw [String.toList_append, List.length_append] at hlen
    have hpos : (toString n).toList ≠ [] := by
      rw [show (toString n).toList = Nat.toDigits 10 n from Nat.toList_repr]
      exact Nat.toDigits_ne_nil
    have := List.length_pos_iff.mpr hpos
    omega
  unfold probeName at h
  by_cases hi : i = 0 <;> by_cases hj : j = 0
  · omega
  · rw [if_pos hi, if_neg hj] at h
    exact absurd h.symm (hself j hj)
  · rw [if_neg hi, if_pos hj] at h
    exact absurd h (hself i hi)
  · rw [if_neg hi, if_neg hj] at h
    exact toString_injective ((String.append_right_inj hint).mp h)

theorem freshProbeName_notMem (hint : String) (used : List String) :
    freshProbeName hint used ∉ used := mk_freshIndex_notMem (probeName_injective hint) 0

/-- What the rewriting of probes adds: productions of new names. -/
def ProbesAdded (st st' : ProbeState) : Prop :=
  ∃ new, namesOf st'.extra = namesOf st.extra ++ new ∧ Taken st.used st'.used new

theorem ProbesAdded.refl (st : ProbeState) : ProbesAdded st st :=
  ⟨[], (List.append_nil _).symm, Taken.refl _⟩

theorem ProbesAdded.trans {st st₁ st₂ : ProbeState} (h₁ : ProbesAdded st st₁)
    (h₂ : ProbesAdded st₁ st₂) : ProbesAdded st st₂ := by
  obtain ⟨new₁, hnames₁, htaken₁⟩ := h₁
  obtain ⟨new₂, hnames₂, htaken₂⟩ := h₂
  exact ⟨new₁ ++ new₂, by rw [hnames₂, hnames₁, List.append_assoc], htaken₁.trans htaken₂⟩

/-- The four names of a dispatch; the dispatcher is named first and pushed last. -/
theorem probeProductions_taken {s : ProbeSplit} {origin probe withName noName dispatch : String}
    {used : List String} (hd : dispatch ∉ used) (hp : probe ∉ dispatch :: used)
    (hw : withName ∉ probe :: dispatch :: used)
    (hn : noName ∉ withName :: probe :: dispatch :: used) :
    Taken used (noName :: withName :: probe :: dispatch :: used)
      (namesOf (probeProductions s origin probe withName noName dispatch)) := by
  have htake : ∀ {n : String} {names : List String}, n ∉ names → Taken names (n :: names) [n] :=
    fun h => .single (List.subset_cons_self _ _) h List.mem_cons_self
  have htaken := (htake hd).trans ((htake hp).trans ((htake hw).trans (htake hn)))
  exact htaken.perm (@List.perm_append_comm _ [dispatch] [probe, withName, noName])

theorem rewriteProbeAlt_names {prod : Production} {alt : Sequence} {altIdx : Nat}
    {st : ProbeState} {r : Sequence × Bool × ProbeState}
    (h : rewriteProbeAlt diag grammar prod altIdx alt st = .ok r) : ProbesAdded st r.2.2 := by
  unfold rewriteProbeAlt at h
  split at h
  · cases h
    exact .refl st
  · next s _ =>
    dsimp only at h
    split at h
    · cases h
    · cases h
      refine ⟨_, namesOf_append _ _, ?_⟩
      exact probeProductions_taken (freshProbeName_notMem _ _) (freshProbeName_notMem _ _)
        (freshProbeName_notMem _ _) (freshProbeName_notMem _ _)

theorem rewriteProbeAlts_names {prod : Production} : ∀ (alts : List Sequence) {altIdx : Nat}
    {st : ProbeState} {r : List Sequence × Bool × ProbeState},
      rewriteProbeAlts diag grammar prod altIdx alts st = .ok r → ProbesAdded st r.2.2
  | [], _, st, _, h => by
    cases h
    exact .refl st
  | alt :: rest, _, _, _, h => by
    obtain ⟨⟨alt', touched, st₁⟩, halt, h⟩ := bind_eq_ok h
    obtain ⟨⟨rest', restTouched, st₂⟩, hrest, h⟩ := bind_eq_ok h
    cases h
    have hadded := rewriteProbeAlts_names rest hrest
    exact (rewriteProbeAlt_names halt).trans hadded

theorem rewriteProbeProductions_names : ∀ (ps : List Production) {st : ProbeState}
    {r : List Production × ProbeState}, rewriteProbeProductions diag grammar ps st = .ok r →
      namesOf r.1 = namesOf ps ∧ ProbesAdded st r.2
  | [], st, _, h => by
    cases h
    exact ⟨rfl, .refl st⟩
  | prod :: rest, _, _, h => by
    obtain ⟨⟨alts, touched, st₁⟩, halts, h⟩ := bind_eq_ok h
    obtain ⟨⟨rest', st₂⟩, hrest, h⟩ := bind_eq_ok h
    cases h
    obtain ⟨hnames, hadded⟩ := rewriteProbeProductions_names rest hrest
    refine ⟨?_, (rewriteProbeAlts_names _ halts).trans hadded⟩
    rw [namesOf_cons, namesOf_cons, ← hnames]
    split <;> rfl

theorem rewriteProbeDispatches_names {g' : Grammar} (hnd : grammar.names.Nodup)
    (h : rewriteProbeDispatches diag grammar = .ok g') : g'.names.Nodup := by
  obtain ⟨⟨rewritten, st⟩, hrun, h⟩ := bind_eq_ok h
  obtain rfl := Except.ok.inj h
  obtain ⟨hnames, new, hnew, htaken⟩ := rewriteProbeProductions_names _ hrun
  show (namesOf (rewritten ++ st.extra)).Nodup
  rw [namesOf_append, hnames, hnew]
  exact htaken.append_nodup hnd (List.Subset.refl _)

end

/-! ## Factoring and tail repeats -/

section

variable {diag : String} {lower upper : Char → Char} {grammar : Grammar}

theorem factorAlts_names {prodName prodOrigin : String} : ∀ (fuel : Nat) {alts : List Sequence}
    {used : List String} {r : List Sequence × List Production × List String},
      factorAlts diag lower upper grammar prodName prodOrigin fuel alts used = .ok r →
      Taken used r.2.2 (namesOf r.2.1)
  | 0, _, _, _, h => by
    cases h
    exact .refl _
  | fuel + 1, _, used, _, h => by
    obtain ⟨next, honce, h⟩ := bind_eq_ok h
    cases next with
    | none =>
      cases h
      exact .refl _
    | some f =>
      obtain ⟨⟨alts', queued, used'⟩, hrest, h⟩ := bind_eq_ok h
      cases h
      have hstep : Taken used (used ++ (f.helper.map Production.name).toList)
          (namesOf f.helper.toList) := by
        cases hhelper : f.helper with
        | none => simpa using Taken.refl used
        | some q =>
          obtain ⟨i, headEl, head, later, -, -, rfl⟩ := factorFrom_cases honce
          have hname := (factorRun_helper (Option.mem_def.mpr hhelper)).1
          refine .single (List.subset_append_left _ _) ?_ (by simp)
          rw [hname]
          exact freshFactName_notMem _ _
      have hlater := factorAlts_names fuel hrest
      rw [namesOf_append]
      exact hstep.trans hlater

theorem factorQueue_nodup : ∀ (fuel : Nat) (queue : List Production) (used : List String)
    (out : List Production) {res : List Production},
      factorQueue diag lower upper grammar fuel queue used out = some (.ok res) →
      (namesOf (out ++ queue)).Nodup → namesOf (out ++ queue) ⊆ used → (namesOf res).Nodup
  | fuel, [], used, out, res, h, hnd, _ => by
    unfold factorQueue at h
    cases h
    simpa using hnd
  | 0, _ :: _, _, _, res, h, _, _ => by cases h
  | fuel + 1, prod :: queue, used, out, res, h, hnd, hused => by
    unfold factorQueue at h
    split at h
    · exact factorQueue_nodup fuel queue used _ h (by simpa using hnd) (by simpa using hused)
    · split at h
      · cases h
      · next alts queued used' halts =>
        have htaken := factorAlts_names _ halts
        have hnames : namesOf ((out ++ [{ prod with alts := alts }]) ++ (queue ++ queued)) =
            namesOf (out ++ prod :: queue) ++ namesOf queued := by
          simp
        refine factorQueue_nodup fuel (queue ++ queued) used' _ h ?_ ?_
        · rw [hnames]
          exact htaken.append_nodup hnd hused
        · rw [hnames]
          exact List.append_subset.mpr ⟨List.Subset.trans hused htaken.grows, htaken.names⟩

theorem leftFactor_names {fuel : Nat} {g' : Grammar} (hnd : grammar.names.Nodup)
    (h : leftFactor diag lower upper grammar fuel = some (.ok g')) : g'.names.Nodup := by
  obtain ⟨r, hr, h⟩ := Option.map_eq_some_iff.mp h
  cases r with
  | error e => cases h
  | ok res =>
    cases h
    exact factorQueue_nodup fuel _ _ [] hr hnd (List.Subset.refl _)

theorem rewriteTailRepeat_credit (start : String) (p : Production) :
    (rewriteTailRepeat start p).credit = p.credit := by
  unfold rewriteTailRepeat
  split
  · rfl
  · split
    · split
      · dsimp only
        repeat' split
        all_goals rfl
      · rfl
    · rfl

theorem rewriteTailRepeat_name (start : String) (p : Production) :
    (rewriteTailRepeat start p).name = p.name :=
  (Production.credit_eq_iff.mp (rewriteTailRepeat_credit start p)).1

theorem rewriteTailRepeats_names (start : String) :
    (rewriteTailRepeats grammar start).names = grammar.names := by
  unfold rewriteTailRepeats Grammar.names namesOf
  rw [List.map_map]
  exact List.map_congr_left fun p _ => rewriteTailRepeat_name start p

end

/-! ## Desugaring -/

namespace Desugar

/-- A run from `d` to `d'` that pushed productions of new names. -/
def Grown (d d' : Desugar) : Prop := ∃ ps, Minted (fun _ => True) d d' ps

section

variable {d d₁ d₂ : Desugar} {inner : Element}

theorem Grown.same (he : d₁.extra = d.extra) (hu : d.used ⊆ d₁.used) : Grown d d₁ :=
  ⟨[], minted_refl he hu⟩

theorem Grown.trans (h₁ : Grown d d₁) (h₂ : Grown d₁ d₂) : Grown d d₂ := by
  obtain ⟨ps, hps⟩ := h₁
  obtain ⟨qs, hqs⟩ := h₂
  exact ⟨ps ++ qs, hps.trans hqs⟩

/-- A name that was reserved before others is pushed after them. -/
theorem Grown.push {d₀ : Desugar} {p : Production} (h : Grown d₀ d₁) (he : d₀.extra = d.extra)
    (hu : d.used ⊆ d₀.used) (hp : p.name ∈ d₀.used) (hn : p.name ∉ d.used) :
    Grown d { d₁ with extra := d₁.extra ++ [p] } := by
  obtain ⟨ps, hps⟩ := h
  exact ⟨ps ++ [p], hps.push he hu hp hn trivial⟩

/-- A production pushed under the next fresh name. -/
theorem grown_fresh {p : Production} (hint : String) (hp : p.name = (d.freshName hint).1) :
    Grown d { (d.freshName hint).2 with extra := (d.freshName hint).2.extra ++ [p] } :=
  Grown.push (Grown.same (d := (d.freshName hint).2) rfl (List.Subset.refl _)) rfl
    (freshName_used d hint) (hp ▸ freshName_mem d hint) (hp ▸ freshName_notMem d hint)

theorem nestStep_grown (nested : Option Element) (d : Desugar) :
    Grown d (nestStep inner nested d).2 := by
  have hgroup : Grown d ((d.freshName "group").2.helper (d.freshName "group").1
      [inner :: nested.toList] false).2 := grown_fresh "group" rfl
  rw [nestStep_eq]
  exact hgroup.trans (grown_fresh ("opt_" ++ (d.freshName "group").1) rfl)

theorem nestOptionals_grown : ∀ (n : Nat) (nested : Option Element) (d : Desugar),
    Grown d (nestOptionals inner n nested d).2
  | 0, _, _ => .same rfl (List.Subset.refl _)
  | n + 1, nested, d => by
    rw [nestOptionals_succ]
    exact (nestStep_grown nested d).trans (nestOptionals_grown n _ _)

theorem sugar_plus_grown (e : Element) (sp : Option SrcSpan) :
    Grown d (d.sugar (.plus e sp) inner).2 := by
  rw [sugar_plus]
  let tail := d.freshName ("star_" ++ hintOf inner)
  let plus := tail.2.freshName ("plus_" ++ hintOf inner)
  have hplus : plus.1 ∉ tail.2.used := freshName_notMem _ _
  have htail : tail.1 ∈ tail.2.used := freshName_mem _ _
  -- the loop is pushed first, under the name reserved first; the helper's name counts as used
  let d₀ : Desugar := { d with used := plus.1 :: d.used }
  have hloop : Grown d₀ (plus.2.repeatLoop tail.1 inner none).2 :=
    Grown.push (Grown.same (d := plus.2) rfl (List.Subset.refl _)) rfl
      (List.cons_subset.mpr ⟨freshName_mem _ _,
        List.Subset.trans (freshName_used d _) (freshName_used tail.2 _)⟩)
      (freshName_used tail.2 _ htail)
      fun hmem => (List.mem_cons.mp hmem).elim (fun h => hplus (h ▸ htail)) (freshName_notMem d _)
  exact hloop.push rfl (List.subset_cons_self _ _) List.mem_cons_self
    fun hmem => hplus (freshName_used d _ hmem)

/-- The sugar branches push productions of new names. -/
theorem sugar_grown (el : Element) : Grown d (d.sugar el inner).2 := by
  cases el with
  | opt e sp => exact grown_fresh ("opt_" ++ hintOf inner) rfl
  | star e guard sp => exact grown_fresh ("star_" ++ hintOf inner) rfl
  | plus e sp => exact sugar_plus_grown e sp
  | rep min max e sp =>
    let rep := d.freshName ("rep_" ++ hintOf inner)
    have hpush : ∀ {d₁ : Desugar} {alts : List Sequence}, Grown rep.2 d₁ →
        Grown d (d₁.helper rep.1 alts false).2 := fun h =>
      h.push rfl (freshName_used d _) (freshName_mem d _) (freshName_notMem d _)
    cases max with
    | none =>
      have htail := grown_fresh (d := rep.2) (p := { Production.helper
        (rep.2.freshName ("star_" ++ hintOf inner)).1 [[inner, .reference
        (rep.2.freshName ("star_" ++ hintOf inner)).1], []] d.origin with
          repeatHelper := true, repeatLoop := true }) ("star_" ++ hintOf inner) rfl
      exact hpush htail
    | some max => exact hpush (nestOptionals_grown (max - min) none rep.2)
  | _ => exact .same rfl (List.Subset.refl _)

mutual
theorem element_grown : ∀ (el : Element) {d : Desugar} {r : Element × Desugar},
    element d el = .ok r → Grown d r.2
  | .prose .., _, _, h => by cases h
  | .ref .., _, _, h | .term .., _, _, h | .regex .., _, _, h | .token .., _, _, h => by
    obtain rfl := Except.ok.inj h
    exact .same rfl (List.Subset.refl _)
  | .group alts _, _, _, h => by
    obtain ⟨⟨inner, d₁⟩, hinner, h⟩ := bind_eq_ok h
    obtain rfl := Except.ok.inj h
    exact (altList_grown alts hinner).trans (grown_fresh "group" rfl)
  | .opt e sp, _, _, h | .star e guard sp, _, _, h | .plus e sp, _, _, h
  | .rep min max e sp, _, _, h => by
    obtain ⟨⟨inner, d₁⟩, hinner, h⟩ := bind_eq_ok h
    obtain rfl := Except.ok.inj h
    exact (element_grown e hinner).trans (sugar_grown _)

theorem alt_grown : ∀ (α : List Element) {d : Desugar} {r : List Element × Desugar},
    alt d α = .ok r → Grown d r.2
  | [], _, _, h => by
    obtain rfl := Except.ok.inj h
    exact .same rfl (List.Subset.refl _)
  | el :: α, _, _, h => by
    obtain ⟨⟨el', d₁⟩, hel, h⟩ := bind_eq_ok h
    obtain ⟨⟨α', d₂⟩, hα, h⟩ := bind_eq_ok h
    obtain rfl := Except.ok.inj h
    exact (element_grown el hel).trans (alt_grown (r := (α', d₂)) α hα)

theorem altList_grown : ∀ (alts : List (List Element)) {d : Desugar}
    {r : List (List Element) × Desugar}, altList d alts = .ok r → Grown d r.2
  | [], _, _, h => by
    obtain rfl := Except.ok.inj h
    exact .same rfl (List.Subset.refl _)
  | α :: alts, _, _, h => by
    obtain ⟨⟨α', d₁⟩, hα, h⟩ := bind_eq_ok h
    obtain ⟨⟨alts', d₂⟩, halts, h⟩ := bind_eq_ok h
    obtain rfl := Except.ok.inj h
    exact (alt_grown α hα).trans (altList_grown (r := (alts', d₂)) alts halts)
end

theorem productions_grown : ∀ (ps : List Production) {d : Desugar}
    {r : List Production × Desugar}, productions d ps = .ok r →
      Grown d r.2 ∧ namesOf r.1 = namesOf ps
  | [], _, _, h => by
    obtain rfl := Except.ok.inj h
    exact ⟨.same rfl (List.Subset.refl _), rfl⟩
  | p :: ps, d, _, h => by
    obtain ⟨⟨alts, d₁⟩, halts, h⟩ := bind_eq_ok h
    obtain ⟨⟨rest, d₂⟩, hrest, h⟩ := bind_eq_ok h
    obtain rfl := Except.ok.inj h
    obtain ⟨hgrown, hnames⟩ := productions_grown ps hrest
    have horigin : Grown d { d with origin := p.originOf } := .same rfl (List.Subset.refl _)
    exact ⟨horigin.trans ((altList_grown p.alts halts).trans hgrown), by simp [hnames]⟩

end

end Desugar

theorem desugar_names {g g' : Grammar} (hnd : g.names.Nodup) (h : desugar g = .ok g') :
    g'.names.Nodup := by
  obtain ⟨⟨rewritten, d⟩, hrun, h⟩ := bind_eq_ok h
  obtain rfl := Except.ok.inj h
  obtain ⟨⟨ps, hps⟩, hnames⟩ := Desugar.productions_grown _ hrun
  have hextra : d.extra = ps := by simpa using hps.extra
  show (namesOf (rewritten ++ d.extra)).Nodup
  rw [namesOf_append, hnames, hextra]
  exact hnd.append hps.nodup fun n hn hm => hps.fresh n hm hn

/-! ## A compile -/

/-- What the passes are given beside the grammar: the diagnostic prefix, the options they read and
the answers of the standard library and of the regex crate. -/
structure Setting where
  diag : String
  start : Option String
  tokenClasses : Bool
  lower : Char → Char
  upper : Char → Char
  lowercase : String → String
  regexDerivesEmpty : String → String → Bool
  mayMatchWithoutConsuming : Verdict

/-- The start rule: the one asked for, or the first production. -/
def Setting.startOf (S : Setting) (grammar : Grammar) : Option String :=
  S.start.orElse fun _ => (grammar.productions.head?).map Production.name

/-- A run of `emit_grammar_spec` through its passes, each of which succeeded. -/
structure Compile (S : Setting) (grammar : Grammar) where
  resolved : Grammar
  start : String
  eliminated : Grammar
  probed : Grammar
  fuel : Nat
  factored : Grammar
  desugared : Grammar
  resolve_eq : resolveProseTerminals S.diag S.lowercase grammar = .ok resolved
  start_eq : S.startOf resolved = some start
  eliminate_eq :
    let normalized := normalizeBuiltinTokens (liftLiteralTokens resolved start).1
    eliminateLeftRecursionKeeping S.diag normalized
      (if S.tokenClasses then tokenClassNames S.regexDerivesEmpty normalized else []) =
        .ok eliminated
  probe_eq : rewriteProbeDispatches S.diag eliminated = .ok probed
  factor_eq : leftFactor S.diag S.lower S.upper probed fuel = some (.ok factored)
  validate_eq : validateRepetitions S.diag S.mayMatchWithoutConsuming
    (rewriteTailRepeats factored start) = .ok ()
  desugar_eq : desugar (rewriteTailRepeats factored start) = .ok desugared

/-- The passes before desugaring leave the grammar as it is, but for its tail repeats. -/
structure LeftAlone (S : Setting) (grammar desugared : Grammar) (start : String) (fuel : Nat) :
    Prop where
  resolve_eq : resolveProseTerminals S.diag S.lowercase grammar = .ok grammar
  start_eq : S.startOf grammar = some start
  eliminate_eq :
    let normalized := normalizeBuiltinTokens (liftLiteralTokens grammar start).1
    eliminateLeftRecursionKeeping S.diag normalized
      (if S.tokenClasses then tokenClassNames S.regexDerivesEmpty normalized else []) = .ok grammar
  probe_eq : rewriteProbeDispatches S.diag grammar = .ok grammar
  factor_eq : leftFactor S.diag S.lower S.upper grammar fuel = some (.ok grammar)
  validate_eq : validateRepetitions S.diag S.mayMatchWithoutConsuming
    (rewriteTailRepeats grammar start) = .ok ()
  desugar_eq : desugar (rewriteTailRepeats grammar start) = .ok desugared

/-- The compile of a grammar that is left alone: of a small one, by evaluation. -/
abbrev Compile.leftAlone {S : Setting} {grammar : Grammar} (desugared : Grammar) (start : String)
    (fuel : Nat) (h : LeftAlone S grammar desugared start fuel := by constructor <;> rfl) :
    Compile S grammar where
  resolved := grammar
  start := start
  eliminated := grammar
  probed := grammar
  fuel := fuel
  factored := grammar
  desugared := desugared
  resolve_eq := h.resolve_eq
  start_eq := h.start_eq
  eliminate_eq := h.eliminate_eq
  probe_eq := h.probe_eq
  factor_eq := h.factor_eq
  validate_eq := h.validate_eq
  desugar_eq := h.desugar_eq

namespace Compile

variable {S : Setting} {grammar : Grammar} (c : Compile S grammar)

/-- The grammar the structural passes are given. -/
def normalized : Grammar := normalizeBuiltinTokens (liftLiteralTokens c.resolved c.start).1

/-- The emitter over the desugared grammar. -/
def emitter (tokens : Tokens) (contest : ContestCtx) (arrayHelpers : List String)
    (valuePlan : List (String × List Bool)) : Emitter :=
  emitterOf c.desugared c.start tokens contest arrayHelpers valuePlan

/-- The passes before the structural ones drop productions and rename none. -/
theorem normalized_names : c.normalized.names.Sublist grammar.names := by
  unfold normalized
  rw [normalizeBuiltinTokens_names]
  exact (liftLiteralTokens_names c.resolved c.start).trans
    ((resolveProseTerminals_sublist c.resolve_eq).map Production.name)

theorem probed_nodup : c.probed.names.Nodup :=
  rewriteProbeDispatches_names (eliminate_names_nodup c.eliminate_eq) c.probe_eq

theorem factored_nodup : c.factored.names.Nodup := leftFactor_names c.probed_nodup c.factor_eq

/-- The names are distinct in the end, whatever the author's were. -/
theorem desugared_nodup : c.desugared.names.Nodup := by
  refine desugar_names ?_ c.desugar_eq
  rw [rewriteTailRepeats_names]
  exact c.factored_nodup

/-- **Distinct names stay distinct.** -/
theorem names_nodup (hnd : grammar.names.Nodup) : c.desugared.names.Nodup := by
  have hnormalized : c.normalized.names.Nodup := hnd.sublist c.normalized_names
  have heliminated : c.eliminated.names.Nodup := by
    rw [eliminate_names hnormalized c.eliminate_eq]
    exact hnormalized
  have hprobed := rewriteProbeDispatches_names heliminated c.probe_eq
  have hfactored := leftFactor_names hprobed c.factor_eq
  refine desugar_names ?_ c.desugar_eq
  rwa [rewriteTailRepeats_names]

theorem emitter_names (tokens : Tokens) (contest : ContestCtx) (arrayHelpers : List String)
    (valuePlan : List (String × List Bool)) :
    (c.emitter tokens contest arrayHelpers valuePlan).grammar.names = c.desugared.names :=
  names_of_sameRules sameRules_resolveSuffixDebts

end Compile

end TabnasBnf
