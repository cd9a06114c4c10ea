import TabnasBnf.LeftCorner
import TabnasBnf.LeftRecLang

/-!
# What left-recursion elimination eliminates

The pass rewrites the references that begin an alternative. Just before a production's direct
left recursion is removed, some references at its left corners are none of the ones it treats
(`Untreated`): those in a group, an option or a repetition, or behind elements that derive
nothing, and a leading reference to an earlier production that the substitution left standing.

* `mem_corners_direct`: the rewritten production keeps its left corners, less the bare leading
  references to itself.
* `acyclic_step`: so a production closes a cycle exactly when an untreated reference of it leads
  back to it through the productions before it (`LoopsBack`).
* **`eliminateLeftRecursion_leftRecursive`**: no production of the result is left-recursive
  exactly when none did. Such references exist: the seeds `A z / t` of `B = A z / B w / t` become
  a group, behind which `A = B x / s` no longer sees itself (`wrapped_leftRecursive`).
-/

namespace TabnasBnf

open Relation

variable {L : String → Language Unit} {G : List Production} {n m : String}

/-! ## The corners of an alternative -/

theorem mem_cornersSeq_iff {alt : Sequence} :
    m ∈ cornersSeq L alt ↔ leads m alt = true ∨ m ∈ hidden L alt := by
  cases alt with
  | nil => simp [cornersSeq, hidden, leads]
  | cons el rest =>
    simp only [cornersSeq, hidden, leads, Set.mem_union, Set.mem_ofPred_eq, Element.isRefTo_iff]
    cases hr : el.refName with
    | none =>
      have hel : el.isRef = false := by
        rw [Bool.eq_false_iff, Ne, Element.isRef_iff, hr]
        simp
      simp [hel]
    | some n =>
      obtain ⟨debt, sp, rfl⟩ := Element.refName_eq_some.mp hr
      simp [corners_ref, Element.isRef, eq_comm]

theorem mem_hidden_of_leads {alt : Sequence} (h : leads n alt = true) :
    m ∈ hidden L alt ↔ [] ∈ L n ∧ m ∈ cornersSeq L alt.tail := by
  cases alt with
  | nil => simp [leads] at h
  | cons el rest =>
    obtain ⟨debt, sp, rfl⟩ := Element.refName_eq_some.mp (Element.isRefTo_iff.mp h)
    simp [hidden, Element.isRef, Vanishes]

theorem leads_inj {alt : Sequence} (hn : leads n alt = true) (hm : leads m alt = true) :
    n = m := by
  cases alt with
  | nil => simp [leads] at hn
  | cons el rest =>
    have hr := Element.isRefTo_iff.mp hn
    exact Option.some.inj (hr.symm.trans (Element.isRefTo_iff.mp hm))

theorem corners_asElement (alts : List Sequence) :
    corners L (asElement alts) = cornersAlts L alts := by
  unfold asElement
  split
  · simp [cornersAlts, cornersSeq]
  · rw [corners]

/-! ## Direct left recursion -/

/-- What `eliminate_direct_left_rec` writes. -/
theorem direct_alts {diag : String} {p : Production} {debtNames : List String}
    {r : Production × List String} (h : eliminateDirectLeftRec diag p debtNames = .ok r) :
    r.1.alts = seedsOf p ∧ tailsOf p = [] ∨
      ∃ guard, r.1.alts = [[asElement (seedsOf p), .star (asElement (tailsOf p)) guard none]] := by
  unfold eliminateDirectLeftRec at h
  simp only at h
  split at h
  · rename_i htails
    cases h
    exact .inl ⟨rfl, List.isEmpty_iff.mp htails⟩
  · split at h
    · cases h
    · split at h
      all_goals
        cases h
        exact .inr ⟨_, rfl⟩

theorem mem_cornersAlts_seeds {p : Production} :
    m ∈ cornersAlts L (seedsOf p) ↔
      ∃ alt ∈ p.alts, leads p.name alt = false ∧ (leads m alt = true ∨ m ∈ hidden L alt) := by
  simp only [mem_cornersAlts, seedsOf, List.mem_filter, mem_cornersSeq_iff, Bool.not_eq_true',
    and_assoc]

theorem mem_cornersAlts_tails {p : Production} :
    m ∈ cornersAlts L (tailsOf p) ↔
      ∃ alt ∈ p.alts, leads p.name alt = true ∧ m ∈ cornersSeq L alt.tail := by
  simp only [mem_cornersAlts, tailsOf, List.mem_filter, List.mem_map]
  constructor
  · rintro ⟨_, ⟨⟨alt, ⟨ha, hl⟩, rfl⟩, -⟩, hm⟩
    exact ⟨alt, ha, hl, hm⟩
  · rintro ⟨alt, ha, hl, hm⟩
    refine ⟨alt.tail, ⟨⟨alt, ⟨ha, hl⟩, rfl⟩, ?_⟩, hm⟩
    cases htail : alt.tail with
    | nil => simp [htail, cornersSeq] at hm
    | cons el rest => rfl

/-- **The rewritten production's corners** are those of the production, less the leading
references to itself. -/
theorem mem_corners_direct {diag : String} {p : Production} {debtNames : List String}
    {r : Production × List String} (h : eliminateDirectLeftRec diag p debtNames = .ok r)
    (hnull : [] ∈ L p.name ↔ [] ∈ altsDen consuming L (seedsOf p)) :
    m ∈ cornersAlts L r.1.alts ↔
      m ≠ p.name ∧ hasLeadingRefTo p m = true ∨ ∃ alt ∈ p.alts, m ∈ hidden L alt := by
  have hcorners : m ∈ cornersAlts L r.1.alts ↔ m ∈ cornersAlts L (seedsOf p) ∨
      [] ∈ L p.name ∧ m ∈ cornersAlts L (tailsOf p) := by
    rcases direct_alts h with ⟨halts, htails⟩ | ⟨guard, halts⟩
    · simp [halts, htails, cornersAlts]
    · simp only [halts, cornersAlts, cornersSeq, corners, corners_asElement, Set.union_empty,
        Set.mem_union, Set.mem_ofPred_eq, Vanishes, den_asElement, hnull]
      simp
  rw [hcorners, mem_cornersAlts_seeds, mem_cornersAlts_tails]
  constructor
  · rintro (⟨alt, ha, hl, hm | hm⟩ | ⟨hnil, alt, ha, hl, hm⟩)
    · refine .inl ⟨?_, List.any_eq_true.mpr ⟨alt, ha, hm⟩⟩
      rintro rfl
      rw [hl] at hm
      cases hm
    · exact .inr ⟨alt, ha, hm⟩
    · exact .inr ⟨alt, ha, (mem_hidden_of_leads hl).mpr ⟨hnil, hm⟩⟩
  · rintro (⟨hne, hm⟩ | ⟨alt, ha, hm⟩)
    · obtain ⟨alt, ha, hm⟩ := List.any_eq_true.mp hm
      refine .inl ⟨alt, ha, ?_, .inl hm⟩
      cases hl : leads p.name alt with
      | false => rfl
      | true => exact absurd (leads_inj hm hl) hne
    · cases hl : leads p.name alt with
      | false => exact .inl ⟨alt, ha, hl, .inr hm⟩
      | true =>
        obtain ⟨hnil, hm⟩ := (mem_hidden_of_leads hl).mp hm
        exact .inr ⟨hnil, alt, ha, hl, hm⟩

/-! ## One step -/

/-- References of a production the pass does not treat: hidden ones, and leading ones to earlier
productions that the substitution left. -/
def Untreated (L : String → Language Unit) (done : List Production) (p : Production)
    (m : String) : Prop :=
  (∃ alt ∈ p.alts, m ∈ hidden L alt) ∨ hasLeadingRefTo p m = true ∧ m ∈ namesOf done

/-- Such a reference leads back through the earlier productions. -/
def LoopsBack (L : String → Language Unit) (done : List Production) (p : Production) : Prop :=
  ∃ m, Untreated L done p m ∧ ReflTransGen (leadsTo L done) m p.name

/-- No name is on a cycle of left corners. -/
def Acyclic (L : String → Language Unit) (G : List Production) : Prop :=
  ∀ n, ¬ TransGen (leadsTo L G) n n

theorem leadsTo_concat {p : Production} {n m : String} :
    leadsTo L (G ++ [p]) n m ↔ leadsTo L G n m ∨ n = p.name ∧ m ∈ cornersAlts L p.alts := by
  simp only [leadsTo, List.mem_append, List.mem_singleton, or_and_right, exists_or,
    exists_eq_left]
  exact or_congr_right (and_congr_left' eq_comm)

theorem leadsTo_source {n m : String} (h : leadsTo L G n m) : n ∈ namesOf G := by
  obtain ⟨p, hp, hn, -⟩ := h
  exact mem_namesOf.mpr ⟨p, hp, hn⟩

/-- **A processed production closes a cycle exactly when it loops back.** `p` is the production
before its direct left recursion is removed, `p'` after. -/
theorem acyclic_step {done : List Production} {p p' : Production} (hname : p'.name = p.name)
    (hfresh : p.name ∉ namesOf done)
    (hcorners : ∀ m, m ∈ cornersAlts L p'.alts ↔
      m ≠ p.name ∧ hasLeadingRefTo p m = true ∨ ∃ alt ∈ p.alts, m ∈ hidden L alt) :
    Acyclic L (done ++ [p']) ↔ Acyclic L done ∧ ¬ LoopsBack L done p := by
  have hsteps : leadsTo L (done ++ [p']) = fun x y => leadsTo L done x y ∨
      x = p.name ∧ y ∈ cornersAlts L p'.alts := by
    funext x y
    rw [← hname]
    exact propext leadsTo_concat
  have hsource : ∀ x y, (x = p.name ∧ y ∈ cornersAlts L p'.alts) → x = p.name :=
    fun _ _ h => h.1
  unfold Acyclic
  rw [hsteps]
  constructor
  · intro h
    refine ⟨fun n hn => h n (TransGen.mono (fun _ _ => Or.inl) _ _ hn), ?_⟩
    rintro ⟨m, hm, hback⟩
    have hcorner : m ∈ cornersAlts L p'.alts := by
      rw [hcorners]
      rcases hm with hm | ⟨hm, hdone⟩
      · exact .inr hm
      · refine .inl ⟨?_, hm⟩
        rintro rfl
        exact hfresh hdone
    exact h p.name (TransGen.head' (.inr ⟨rfl, hcorner⟩)
      (ReflTransGen.mono (fun _ _ => Or.inl) _ _ hback))
  · rintro ⟨hdone, hloop⟩ n hn
    rcases Cf.transGen_or_through hsource hn with hn | hp
    · exact hdone n hn
    · obtain ⟨m, ⟨-, hm⟩, hback⟩ := Cf.exists_first_return hsource
        (fun y hy => hfresh (leadsTo_source hy)) hp
      refine hloop ⟨m, ?_, hback⟩
      rcases (hcorners m).mp hm with ⟨hne, hm⟩ | hm
      · -- A leading reference that comes back starts at an earlier production.
        rcases ReflTransGen.cases_head hback with rfl | ⟨x, hx, -⟩
        · exact absurd rfl hne
        · exact .inr ⟨hm, leadsTo_source hx⟩
      · exact .inl hm

/-! ## The run -/

section Run

variable {diag : String} {keep cyclic names : List String}

variable (diag keep cyclic) in
/-- The states of `paull` just before each direct elimination: the productions processed, and the
next one after its substitution. -/
def beforeDirect (guard : Nat) : List Production → List Production → Nat → List String →
    List (List Production × Production)
  | _, [], _, _ => []
  | done, p :: rest, added, debtNames =>
    match substituteInto diag keep cyclic done guard p added with
    | .error _ => []
    | .ok (p, added) => (done, p) ::
      match eliminateDirectLeftRec diag p debtNames with
      | .error _ => []
      | .ok (p, debtNames) => beforeDirect guard (done ++ [p]) rest added debtNames

/-- Whether a production derives nothing is up to its seeds. -/
theorem nil_mem_seeds {before after : List Production} {p : Production} {debtNames : List String}
    {r : Production × List String} (hnd : names.Nodup)
    (hk : Keeps consuming names L (before ++ p :: after))
    (h : eliminateDirectLeftRec diag p debtNames = .ok r) :
    [] ∈ L p.name ↔ [] ∈ altsDen consuming L (seedsOf p) := by
  have hk' := direct_keeps hnd hk h
  obtain ⟨hname, halts⟩ := direct_spec (τ := consuming) h
  have hlang : L p.name = altsDen consuming L r.1.alts := by
    have hnd' : (namesOf (before ++ r.1 :: after)).Nodup := by rw [hk'.1]; exact hnd
    have hp := nameLang_of_nodup (τ := consuming) hnd' (p := r.1) (by simp)
    rwa [hk'.2, hname] at hp
  rw [hlang, halts L, Language.mem_mul]
  constructor
  · rintro ⟨u, hu, v, -, huv⟩
    obtain ⟨rfl, -⟩ := List.append_eq_nil_iff.mp huv
    exact hu
  · intro h
    exact ⟨[], h, [], Language.nil_mem_kstar _, rfl⟩

theorem paull_acyclic (hkeep : ClassTokens consuming keep L) (hnd : names.Nodup) {guard : Nat} :
    ∀ (rest done : List Production) (added : Nat) (debtNames : List String)
      {out : List Production}, Keeps consuming names L (done ++ rest) →
      paull diag keep cyclic guard done rest added debtNames = .ok out →
      (Acyclic L out ↔ Acyclic L done ∧
        ∀ st ∈ beforeDirect diag keep cyclic guard done rest added debtNames,
          ¬ LoopsBack L st.1 st.2)
  | [], done, _, _, out, _, h => by
    cases h
    simp [beforeDirect]
  | p :: rest, done, added, debtNames, out, hk, h => by
    obtain ⟨⟨p₁, added₁⟩, hsub, h⟩ := bind_eq_ok h
    obtain ⟨⟨p₂, debtNames₂⟩, hdir, h⟩ := bind_eq_ok h
    have hk₁ := substituteInto_spec hkeep hnd hk hsub
    have hk₂ := direct_keeps hnd hk₁ hdir
    have hfresh : p₁.name ∉ namesOf done := by
      have hnd₁ : (namesOf (done ++ p₁ :: rest)).Nodup := by rw [hk₁.1]; exact hnd
      rw [namesOf_append, namesOf_cons] at hnd₁
      exact fun hmem => List.disjoint_of_nodup_append hnd₁ hmem List.mem_cons_self
    have hstep := acyclic_step (L := L) (direct_spec (τ := consuming) hdir).1 hfresh
      fun m => mem_corners_direct hdir (nil_mem_seeds hnd hk₁ hdir)
    rw [paull_acyclic hkeep hnd rest (done ++ [p₂]) added₁ debtNames₂ (by simpa using hk₂) h,
      hstep]
    simp only [beforeDirect, hsub, hdir, List.forall_mem_cons, and_assoc]

variable (diag keep) in
/-- The states just before each direct elimination of `eliminate_left_recursion_keeping`. -/
def directSteps (grammar : Grammar) : List (List Production × Production) :=
  match expandNullableLeftPrefixes diag (grammar.productions.map fun p => p.rebuilt p.alts) 0 with
  | .error _ => []
  | .ok (expanded, added) =>
    let prods := topoOrderForPaull expanded
    beforeDirect diag keep (findLeadingRefCycleMembers prods) (prods.length + 1) [] prods added []

theorem leadsTo_congr (h : ∀ p, p ∈ G ↔ p ∈ G') : leadsTo L G = leadsTo L G' := by
  funext n m
  simp only [leadsTo, h]

theorem keeping_acyclic {grammar g' : Grammar} (hnd : grammar.names.Nodup)
    (hkeep : ClassTokens consuming keep (nameLang consuming grammar.productions))
    (h : eliminateLeftRecursionKeeping diag grammar keep = .ok g') :
    Acyclic (nameLang consuming grammar.productions) g'.productions ↔
      ∀ st ∈ directSteps diag keep grammar,
        ¬ LoopsBack (nameLang consuming grammar.productions) st.1 st.2 := by
  obtain ⟨⟨expanded, added⟩, hexp, h⟩ := bind_eq_ok h
  obtain ⟨done, hpaull, h⟩ := bind_eq_ok h
  cases h
  obtain ⟨names', hnd', hmem, hk⟩ := start_keeps (τ := consuming) hnd hexp
  have hout := paull_spec hkeep hnd' _ [] _ _ hk hpaull
  have hnd₂ : (namesOf done).Nodup := by rw [hout.1]; exact hnd'
  have htake := takeSlots_spec grammar.names done hnd hnd₂ fun n => by rw [hout.1, hmem]
  have hrun := paull_acyclic hkeep hnd' _ [] _ _ hk hpaull
  have hempty : Acyclic (nameLang consuming grammar.productions) [] := by
    intro n hn
    obtain ⟨m, ⟨p, hp, -⟩, -⟩ := TransGen.head'_iff.mp hn
    cases hp
  have hsteps : directSteps diag keep grammar = beforeDirect diag keep
      (findLeadingRefCycleMembers (topoOrderForPaull expanded))
      ((topoOrderForPaull expanded).length + 1) [] (topoOrderForPaull expanded) added [] := by
    unfold directSteps
    rw [hexp]
  rw [hsteps]
  show Acyclic _ (takeSlots _ _) ↔ _
  rw [slotsOf_eq hnd₂]
  unfold Acyclic at hrun ⊢
  rw [leadsTo_congr htake.2, hrun]
  exact and_iff_right hempty

/-- **Left-recursion elimination eliminates all left recursion exactly when no reference it does
not treat leads back**, through the productions before it, to the production it stands in. -/
theorem eliminateLeftRecursion_leftRecursive {grammar g' : Grammar} (hnd : grammar.names.Nodup)
    (h : eliminateLeftRecursion diag grammar = .ok g') :
    (∀ p ∈ g'.productions, ¬ LeftRecursive g'.productions p.name) ↔
      ∀ st ∈ directSteps diag [] grammar,
        ¬ LoopsBack (nameLang consuming grammar.productions) st.1 st.2 := by
  have hkeep : ClassTokens consuming [] (nameLang consuming grammar.productions) :=
    fun c hc => absurd hc List.not_mem_nil
  rw [← keeping_acyclic hnd hkeep h]
  have hlang := (keeping_spec hnd hkeep h).2
  unfold Acyclic
  rw [← hlang]
  constructor
  · intro hp n hn
    obtain ⟨m, hm, -⟩ := TransGen.head'_iff.mp hn
    obtain ⟨p, hp', rfl, -⟩ := hm
    exact hp p hp' (leftRecursive_iff.mpr hn)
  · intro hn p _ hp
    exact hn p.name (leftRecursive_iff.mp hp)

end Run

/-- `A = B "x" / "s"`, `B = A "z" / B "w" / "t"`. -/
def wrapped : Grammar where
  productions := [
    { name := "A", alts := [[.reference "B", .lit "x"], [.lit "s"]] },
    { name := "B", alts := [[.reference "A", .lit "z"], [.reference "B", .lit "w"],
      [.lit "t"]] }]

/-- `A = (A "z" / "t") *"w" "x" / "s"`, `B = (A "z" / "t") *"w"`. -/
def stillRecursive : Grammar where
  productions :=
    let seeds := Element.group [[.reference "A", .lit "z"], [.lit "t"]] none
    [{ name := "A", alts := [[seeds, .star (.lit "w") none none, .lit "x"], [.lit "s"]] },
      { name := "B", alts := [[seeds, .star (.lit "w") none none]] }]

theorem eliminateLeftRecursion_leftRecursive_wrapped :
    ∃ g', eliminateLeftRecursion "bnf" wrapped = .ok g' ∧
      ((∀ p ∈ g'.productions, ¬ LeftRecursive g'.productions p.name) ↔
        ∀ st ∈ directSteps "bnf" [] wrapped,
          ¬ LoopsBack (nameLang consuming wrapped.productions) st.1 st.2) := by
  obtain ⟨g', hg'⟩ := exists_ok
    (show (eliminateLeftRecursion "bnf" wrapped).isOk = true by decide +kernel)
  exact ⟨g', hg', eliminateLeftRecursion_leftRecursive (by decide) hg'⟩

/-- The seeds of `B` hide the reference to `A` from the substitution. -/
theorem wrapped_leftRecursive :
    wrapped.names.Nodup ∧ eliminateLeftRecursion "bnf" wrapped = .ok stillRecursive ∧
      LeftRecursive stillRecursive.productions "A" := by
  refine ⟨by decide, rfl, none, none, Cf.leftReaches_iff.mpr ?_⟩
  have hgroup : Cf.Corner (FormRule stillRecursive.productions) (.reference "A")
      (.group [[.reference "A", .lit "z"], [.lit "t"]] none) :=
    ⟨[], _, .inl (.ref List.mem_cons_self List.mem_cons_self), .refl⟩
  exact .tail (.single hgroup) ⟨[], _, .inl (.sugar (.group List.mem_cons_self)), .refl⟩

end TabnasBnf
