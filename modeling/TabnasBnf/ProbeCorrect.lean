import TabnasBnf.Probe
import TabnasBnf.Semantics

/-!
# Which branch a probe dispatcher commits to

The probe's vocabulary holds every terminal of `X` and of `Y` but the disambiguator `D`
(`mem_vocab`), so on a string of `[X D] Y` the scan stops at its first `D`, or at the end of the
input (`committed_eq`).

* `collectSeqVocab_covers`: the walk collects every terminal a sequence derives.
* **`rewriteProbeDispatches_commits`**: every string is committed to a branch that derives it
  exactly when `X D Y` derives the strings of `Y` that hold a `D`, all of them where `D` is the
  end of the input. It need not: `[ "a" "@" ] "a" "@" "b"` (`probing_miscommits`).
-/

namespace TabnasBnf

/-! ## The terminals of an element -/

mutual
/-- The keys of the terminals of an element. -/
def Element.keys : Element → List String
  | el@(.term ..) | el@(.regex ..) | el@(.token ..) => [(vocabKey el).getD ""]
  | .opt e _ | .star e _ _ | .plus e _ | .rep _ _ e _ => e.keys
  | .group alts _ => keysInAlts alts
  | _ => []

/-- The keys of the terminals of a sequence. -/
def keysIn : List Element → List String
  | [] => []
  | el :: rest => el.keys ++ keysIn rest

/-- The keys of the terminals of alternatives. -/
def keysInAlts : List (List Element) → List String
  | [] => []
  | alt :: rest => keysIn alt ++ keysInAlts rest
end

theorem mem_keysIn {k : String} {α : List Element} : k ∈ keysIn α ↔ ∃ el ∈ α, k ∈ el.keys := by
  induction α with
  | nil => simp [keysIn]
  | cons el α ih => simp [keysIn, ih]

theorem mem_keysInAlts {k : String} {alts : List (List Element)} :
    k ∈ keysInAlts alts ↔ ∃ alt ∈ alts, k ∈ keysIn alt := by
  induction alts with
  | nil => simp [keysInAlts]
  | cons alt alts ih => simp [keysInAlts, ih]

/-- A terminal stands for its key. -/
def keyLeaf (el : Element) : Language String := {[(vocabKey el).getD ""]}

/-- The words over the keys `S`. -/
def wordsOver (S : List String) : Language String := {w | w ⊆ S}

variable {grammar : Grammar} {ρ : String → Language String}

theorem nil_mem_wordsOver (S : List String) : [] ∈ wordsOver S := List.nil_subset S

theorem wordsOver_mul_le (S : List String) : wordsOver S * wordsOver S ≤ wordsOver S := by
  intro w hw
  obtain ⟨u, hu, v, hv, rfl⟩ := (Language.mem_mul).mp hw
  exact List.append_subset.mpr ⟨hu, hv⟩

theorem seq_le_wordsOver {S : List String} {L : Element → Language String} {α : List Element}
    (h : ∀ el ∈ α, L el ≤ wordsOver S) : Cf.seq L α ≤ wordsOver S := by
  induction α with
  | nil =>
    rw [Cf.seq_nil]
    intro w hw
    rw [(Language.mem_one w).mp hw]
    exact nil_mem_wordsOver S
  | cons el α ih =>
    rw [Cf.seq_cons]
    exact (mul_le_mul' (h el List.mem_cons_self)
      (ih fun x hx => h x (List.mem_cons_of_mem _ hx))).trans (wordsOver_mul_le S)

theorem keys_of_sugar {e : Element} {β : List Element} (h : Sugar e β) {x : Element}
    (hx : x ∈ β) : x.keys ⊆ e.keys := by
  intro k hk
  cases h with
  | optNone => exact absurd hx List.not_mem_nil
  | optSome => rw [List.mem_singleton] at hx; subst hx; simpa [Element.keys] using hk
  | star j => rw [List.eq_of_mem_replicate hx] at hk; simpa [Element.keys] using hk
  | plus j => rw [List.eq_of_mem_replicate hx] at hk; simpa [Element.keys] using hk
  | rep _ _ => rw [List.eq_of_mem_replicate hx] at hk; simpa [Element.keys] using hk
  | group ha =>
    simp only [Element.keys]
    exact mem_keysInAlts.mpr ⟨_, ha, mem_keysIn.mpr ⟨x, hx, hk⟩⟩

theorem leaf_le_wordsOver {S : List String} {e : Element} (hk : e.keys ⊆ S)
    (hr : ∀ n ∈ e.refs, ρ n ≤ wordsOver S) : leaf keyLeaf ρ e ≤ wordsOver S := by
  have hterm : [(vocabKey e).getD ""] ⊆ S → keyLeaf e ≤ wordsOver S := by
    rintro h _ rfl
    exact h
  cases e with
  | ref n debt sp => exact hr n (by simp [Element.refs])
  | term _ _ _ _ => exact hterm (by simpa only [Element.keys] using hk)
  | regex _ _ _ => exact hterm (by simpa only [Element.keys] using hk)
  | token _ _ => exact hterm (by simpa only [Element.keys] using hk)
  | _ => exact fun w hw => absurd hw (Language.notMem_zero w)

/-- What an element derives is made of its terminals and of what its references stand for. -/
theorem den_le_wordsOver {S : List String} {e : Element} (hk : e.keys ⊆ S)
    (hr : ∀ n ∈ e.refs, ρ n ≤ wordsOver S) : den keyLeaf ρ e ≤ wordsOver S := by
  have key : ∀ s : Element, den keyLeaf ρ s ≤
      {w | s.keys ⊆ S → (∀ n ∈ s.refs, ρ n ≤ wordsOver S) → w ∈ wordsOver S} := by
    refine Cf.lang_le (fun s w hw hk hr => leaf_le_wordsOver hk hr hw) (fun s β h w hw hk hr => ?_)
    refine seq_le_wordsOver (α := β) (fun x hx => ?_) hw
    exact fun v hv => hv (fun k hk' => hk (keys_of_sugar h hx hk'))
      fun n hn => hr n (refs_of_sugar h hx hn)
  exact fun w hw => key e hw hk hr

theorem seqDen_le_wordsOver {S : List String} {α : Sequence} (hk : keysIn α ⊆ S)
    (hr : ∀ n ∈ refsIn α, ρ n ≤ wordsOver S) : Cf.seq (den keyLeaf ρ) α ≤ wordsOver S :=
  seq_le_wordsOver fun el hel => den_le_wordsOver (fun _ h => hk (mem_keysIn.mpr ⟨el, hel, h⟩))
    fun n hn => hr n (mem_refsIn.mpr ⟨el, hel, hn⟩)

/-- Terminals derive the string of their keys. -/
theorem mem_seqDen_terminals : ∀ {α : Sequence}, (α.all Element.isTerminal = true) →
    ∀ {w : List String}, w ∈ Cf.seq (den keyLeaf ρ) α ↔ w = α.map fun el => (vocabKey el).getD ""
  | [], _, w => by simp [Language.mem_one]
  | el :: α, h, w => by
    rw [List.all_cons, Bool.and_eq_true] at h
    obtain ⟨hel, hα⟩ := h
    rw [Cf.seq_cons, den_terminal hel, Language.mem_mul]
    simp only [mem_seqDen_terminals hα, List.map_cons]
    constructor
    · rintro ⟨_, rfl, _, rfl, rfl⟩
      rfl
    · rintro rfl
      exact ⟨[_], rfl, _, rfl, rfl⟩

/-! ## The walk -/

/-- What a walk over those keys and references collects: every production it enters on the way
is collected whole. -/
structure Collects (grammar : Grammar) (keys refs : List String) (st st' : Vocab) : Prop where
  visited : st.visited ⊆ st'.visited
  out : keysOf st.out ⊆ keysOf st'.out
  keys : keys ⊆ keysOf st'.out
  refs : refs ⊆ st'.visited
  closed : ∀ n ∈ st'.visited, n ∉ st.visited → ∀ p, grammar.find n = some p →
    keysInAlts p.alts ⊆ keysOf st'.out ∧ refsInAlts p.alts ⊆ st'.visited

theorem Collects.refl (st : Vocab) : Collects grammar [] [] st st where
  visited := List.Subset.refl _
  out := List.Subset.refl _
  keys := List.nil_subset _
  refs := List.nil_subset _
  closed := fun _ h h' => absurd h h'

theorem Collects.append {keys keys' refs refs' : List String} {st st₁ st₂ : Vocab}
    (h : Collects grammar keys refs st st₁) (h' : Collects grammar keys' refs' st₁ st₂) :
    Collects grammar (keys ++ keys') (refs ++ refs') st st₂ where
  visited := List.Subset.trans h.visited h'.visited
  out := List.Subset.trans h.out h'.out
  keys := List.append_subset.mpr ⟨List.Subset.trans h.keys h'.out, h'.keys⟩
  refs := List.append_subset.mpr ⟨List.Subset.trans h.refs h'.visited, h'.refs⟩
  closed := fun n hn hn' p hp => by
    by_cases hmid : n ∈ st₁.visited
    · obtain ⟨hk, hr⟩ := h.closed n hmid hn' p hp
      exact ⟨List.Subset.trans hk h'.out, List.Subset.trans hr h'.visited⟩
    · exact h'.closed n hn hmid p hp

section

variable {enter : String → Vocab → Vocab} {depth : Nat}

/-- A step into the productions, with fewer than `depth` of them left. -/
def Enters (grammar : Grammar) (depth : Nat) (enter : String → Vocab → Vocab) : Prop :=
  ∀ name st, (unvisited grammar st.visited).length ≤ depth →
    Collects grammar [] [name] st (enter name st)

theorem keysOf_insertKey (out : List (String × Element)) (key : String) (el : Element) :
    keysOf out ⊆ keysOf (insertKey out key el) ∧ key ∈ keysOf (insertKey out key el) := by
  unfold insertKey
  split
  · next h => exact ⟨List.Subset.refl _, by simpa using h⟩
  · simp [keysOf]

theorem collects_terminal (key : String) (el : Element) (st : Vocab) :
    Collects grammar [key] [] st { st with out := insertKey st.out key el } where
  visited := List.Subset.refl _
  out := (keysOf_insertKey st.out key el).1
  keys := List.cons_subset.mpr ⟨(keysOf_insertKey st.out key el).2, List.nil_subset _⟩
  refs := List.nil_subset _
  closed := fun _ h h' => absurd h h'

mutual
theorem collectElement_spec (henter : Enters grammar depth enter) :
    ∀ (el : Element) (st : Vocab), (unvisited grammar st.visited).length ≤ depth →
      Collects grammar el.keys el.refs st (collectElement enter el st)
  | .term .., st, _ | .regex .., st, _ | .token .., st, _ => by
    simp only [Element.keys, Element.refs, collectElement]
    exact collects_terminal _ _ st
  | .ref name _ _, st, h => by
    simp only [Element.keys, Element.refs, collectElement]
    exact henter name st h
  | .opt e _, st, h | .star e _ _, st, h | .plus e _, st, h | .rep _ _ e _, st, h => by
    simp only [Element.keys, Element.refs, collectElement]
    exact collectElement_spec henter e st h
  | .group alts _, st, h => by
    simp only [Element.keys, Element.refs, collectElement]
    exact collectAlts_spec henter alts st h
  | .prose .., st, _ => by
    simp only [Element.keys, Element.refs, collectElement]
    exact .refl st

theorem collectSeq_spec (henter : Enters grammar depth enter) :
    ∀ (α : List Element) (st : Vocab), (unvisited grammar st.visited).length ≤ depth →
      Collects grammar (keysIn α) (refsIn α) st (collectSeq enter α st)
  | [], st, _ => by
    simp only [keysIn, refsIn, collectSeq]
    exact .refl st
  | el :: rest, st, h => by
    simp only [keysIn, refsIn, collectSeq]
    have hel := collectElement_spec henter el st h
    exact hel.append (collectSeq_spec henter rest _
      ((length_unvisited_le hel.visited).trans h))

theorem collectAlts_spec (henter : Enters grammar depth enter) :
    ∀ (alts : List (List Element)) (st : Vocab), (unvisited grammar st.visited).length ≤ depth →
      Collects grammar (keysInAlts alts) (refsInAlts alts) st (collectAlts enter alts st)
  | [], st, _ => by
    simp only [keysInAlts, refsInAlts, collectAlts]
    exact .refl st
  | alt :: rest, st, h => by
    simp only [keysInAlts, refsInAlts, collectAlts]
    have halt := collectSeq_spec henter alt st h
    exact halt.append (collectAlts_spec henter rest _
      ((length_unvisited_le halt.visited).trans h))
end

end

/-- Nothing is collected of a name that is no production. -/
theorem collects_unknown {name : String} {st : Vocab} (hfind : grammar.find name = none) :
    Collects grammar [] [name] st { st with visited := name :: st.visited } where
  visited := List.subset_cons_self _ _
  out := List.Subset.refl _
  keys := List.nil_subset _
  refs := List.cons_subset.mpr ⟨List.mem_cons_self, List.nil_subset _⟩
  closed := fun n hn hn' p hp => by
    rcases List.mem_cons.mp hn with rfl | hn
    · rw [hfind] at hp
      cases hp
    · exact absurd hn hn'

theorem collects_production {name : String} {st st' : Vocab} {p : Production}
    (hfind : grammar.find name = some p) (h : Collects grammar (keysInAlts p.alts)
      (refsInAlts p.alts) { st with visited := name :: st.visited } st') :
    Collects grammar [] [name] st st' where
  visited := fun _ hn => h.visited (List.mem_cons_of_mem _ hn)
  out := h.out
  keys := List.nil_subset _
  refs := List.cons_subset.mpr ⟨h.visited List.mem_cons_self, List.nil_subset _⟩
  closed := fun n hn hn' q hq => by
    by_cases hname : n = name
    · subst hname
      obtain rfl : p = q := Option.some.inj (hfind.symm.trans hq)
      exact ⟨h.keys, h.refs⟩
    · refine h.closed n hn (fun hmem => ?_) q hq
      rcases List.mem_cons.mp hmem with rfl | hmem
      · exact hname rfl
      · exact hn' hmem

theorem collects_visited {name : String} {st : Vocab} (h : name ∈ st.visited) :
    Collects grammar [] [name] st st :=
  { Collects.refl st with refs := List.cons_subset.mpr ⟨h, List.nil_subset _⟩ }

/-- Every production is entered, however deep the walk already is. -/
theorem enterVocab_spec : ∀ depth, Enters grammar depth (enterVocab grammar depth)
  | 0 => by
    intro name st h
    unfold enterVocab
    by_cases hv : name ∈ st.visited
    · simp only [List.contains_eq_mem, hv, decide_true, if_true]
      exact collects_visited hv
    · simp only [List.contains_eq_mem, hv, decide_false, Bool.false_eq_true, if_false]
      cases hfind : grammar.find name with
      | none => exact collects_unknown hfind
      | some p =>
        have hlt := length_unvisited_cons (mem_names_of_find hfind).1 hv
        omega
  | depth + 1 => by
    intro name st h
    unfold enterVocab
    by_cases hv : name ∈ st.visited
    · simp only [List.contains_eq_mem, hv, decide_true, if_true]
      exact collects_visited hv
    · simp only [List.contains_eq_mem, hv, decide_false, Bool.false_eq_true, if_false]
      cases hfind : grammar.find name with
      | none => exact collects_unknown hfind
      | some p =>
        have hlt := length_unvisited_cons (mem_names_of_find hfind).1 hv
        refine collects_production hfind (collectAlts_spec (enterVocab_spec depth) p.alts _ ?_)
        show (unvisited grammar (name :: st.visited)).length ≤ depth
        omega

/-- **The walk collects every terminal a sequence derives.** -/
theorem collectSeqVocab_covers (hnd : grammar.names.Nodup) (seq : Sequence) :
    Cf.seq (den keyLeaf (nameLang keyLeaf grammar.productions)) seq ≤
      wordsOver (keysOf (collectSeqVocab grammar seq)) := by
  have henter : Enters grammar grammar.productions.length
      (enterVocab grammar grammar.productions.length) := enterVocab_spec _
  have hspec := collectSeq_spec henter seq {} (by
      refine (List.length_filter_le _ _).trans ?_
      simp [Grammar.names, namesOf])
  set st := collectSeq (enterVocab grammar grammar.productions.length) seq {} with hst
  have hnames : ∀ n, nameLang keyLeaf grammar.productions n ≤
      {w | n ∈ st.visited → w ∈ wordsOver (keysOf st.out)} := by
    refine nameLang_le fun p hp w hw hv => ?_
    obtain ⟨hk, hr⟩ := hspec.closed p.name hv List.not_mem_nil p (find_of_mem hnd hp)
    obtain ⟨α, hα, hw⟩ := mem_altsDen.mp hw
    refine seqDen_le_wordsOver (fun k hk' => hk (mem_keysInAlts.mpr ⟨α, hα, hk'⟩)) ?_ hw
    exact fun n hn v hv' => hv' (hr (mem_refsInAlts.mpr ⟨α, hα, hn⟩))
  exact seqDen_le_wordsOver hspec.keys fun n hn w hw => hnames n hw (hspec.refs hn)

/-! ## The split -/

theorem isProbeableOpt_eq {el : Element} {x : Sequence} {d : Element}
    (h : isProbeableOpt el = some (x, d)) :
    (∃ sp sp', el = .opt (.group [x ++ [d]] sp) sp') ∧ ∃ k, vocabKey d = some k ∧
      d.isTerminal = true := by
  unfold isProbeableOpt at h
  split at h
  · next seq sp sp' =>
    split at h
    · cases h
    · split at h
      · next last hlast =>
        split at h
        · next hterm =>
          obtain ⟨rfl, rfl⟩ := Prod.mk.inj (Option.some.inj h)
          refine ⟨⟨sp, sp', ?_⟩, ?_⟩
          · rw [List.dropLast_append_getLast? last hlast]
          · cases last <;> first | exact ⟨_, rfl, rfl⟩ | simp [Element.isTerminal] at hterm
        · cases h
      · cases h
  · cases h

/-- What a split is of. -/
structure Splits (grammar : Grammar) (alt : Sequence) (s : ProbeSplit) : Prop where
  alt : alt = s.before ++ s.optional :: s.y
  optional : isProbeableOpt s.optional = some (s.x, s.disambiguator)
  vocab : s.vocab = jointVocab (collectSeqVocab grammar s.x) (collectSeqVocab grammar s.y)
    (vocabKey s.disambiguator)

theorem probeSplit_spec {s : ProbeSplit} : ∀ (before alt : Sequence),
    probeSplit grammar before alt = some s → Splits grammar (before ++ alt) s
  | before, [], h => by cases h
  | before, el :: y, h => by
    have hnext : probeSplit grammar (before ++ [el]) y = some s →
        Splits grammar (before ++ el :: y) s := fun h => by
      rw [← List.singleton_append, ← List.append_assoc]
      exact probeSplit_spec (before ++ [el]) y h
    unfold probeSplit at h
    split at h
    · exact hnext h
    · next x d hopt =>
      dsimp only at h
      split at h
      · exact hnext h
      · obtain rfl := Option.some.inj h
        exact ⟨rfl, hopt, rfl⟩

theorem mem_keysOf_insertKey {out : List (String × Element)} {key k : String} {el : Element} :
    k ∈ keysOf (insertKey out key el) ↔ k ∈ keysOf out ∨ k = key := by
  unfold insertKey
  split
  · next h =>
    refine ⟨Or.inl, fun hk => hk.elim id ?_⟩
    rintro rfl
    simpa using h
  · simp [keysOf]

theorem mem_keysOf_insertAll {k : String} :
    ∀ {more out : List (String × Element)},
      k ∈ keysOf (more.foldl (fun out (k, v) => insertKey out k v) out) ↔
        k ∈ keysOf out ∨ k ∈ keysOf more
  | [], out => by simp [keysOf]
  | (key, el) :: more, out => by
    rw [List.foldl_cons, mem_keysOf_insertAll, mem_keysOf_insertKey]
    simp [keysOf, or_assoc]

/-- **The vocabulary** holds what `X` and `Y` do, but the disambiguator. -/
theorem mem_vocab {alt : Sequence} {s : ProbeSplit} (h : Splits grammar alt s) {d k : String}
    (hd : vocabKey s.disambiguator = some d) :
    k ∈ keysOf s.vocab ↔ (k ∈ keysOf (collectSeqVocab grammar s.x) ∨
      k ∈ keysOf (collectSeqVocab grammar s.y)) ∧ k ≠ d := by
  rw [h.vocab, hd, ← mem_keysOf_insertAll]
  unfold jointVocab keysOf
  simp only [List.mem_map, List.mem_filter]
  constructor
  · rintro ⟨e, ⟨he, hne⟩, rfl⟩
    exact ⟨⟨e, he, rfl⟩, by simpa using hne⟩
  · rintro ⟨⟨e, he, rfl⟩, hne⟩
    exact ⟨e, ⟨he, by simpa using hne⟩, rfl⟩

/-! ## The decision -/

theorem getElem?_length_takeWhile (f : String → Bool) :
    ∀ input : List String, input[(input.takeWhile f).length]? = input.find? fun t => !f t
  | [] => rfl
  | t :: rest => by
    cases hf : f t with
    | false => simp [hf]
    | true =>
      simpa [List.takeWhile_cons, hf] using getElem?_length_takeWhile f rest

/-- The scan stops at the first disambiguator, or at the end. -/
theorem committed_eq {s : ProbeSplit} {d : String} (hd : vocabKey s.disambiguator = some d)
    {input : List String} (hvocab : ∀ t ∈ input, t ≠ d → t ∈ keysOf s.vocab)
    (hnot : d ∉ keysOf s.vocab) : committed s input =
      if d ∈ input ∨ d = "#ZZ" then s.x ++ [s.disambiguator] ++ s.y else s.y := by
  have hpeek : input[(input.takeWhile (keysOf s.vocab).contains).length]? =
      if d ∈ input then some d else none := by
    rw [getElem?_length_takeWhile]
    cases hfind : input.find? fun t => !(keysOf s.vocab).contains t with
    | none =>
      have hin := List.find?_eq_none.mp hfind
      rw [if_neg fun hmem => hin d hmem (by simpa using hnot)]
    | some t =>
      have hstop : t ∉ keysOf s.vocab := by simpa using List.find?_some hfind
      have hmem := List.mem_of_find?_eq_some hfind
      obtain rfl : t = d := by_contra fun hne => hstop (hvocab t hmem hne)
      rw [if_pos hmem]
  have hrun : (probeRun (keysOf s.vocab) ((vocabKey s.disambiguator).getD "") input
      ⟨0, 0, 0⟩).phase = if d ∈ input ∨ d = "#ZZ" then 1 else 2 := by
    unfold probeRun probeDecide probeScan probeInit
    simp only [hd, Option.getD_some, List.drop_zero, Nat.zero_add, hpeek]
    by_cases hmem : d ∈ input
    · simp [hmem]
    · simp [hmem, beq_iff_eq, eq_comm (a := d)]
  unfold committed
  dsimp only
  rw [hrun]
  by_cases h : d ∈ input ∨ d = "#ZZ" <;> simp [h]

/-- **When every string of `[X D] Y` is committed to a branch that derives it.** -/
theorem commits_iff (hnd : grammar.names.Nodup) {alt : Sequence} {s : ProbeSplit}
    (h : Splits grammar alt s) {d : String} (hd : vocabKey s.disambiguator = some d) :
    (∀ u ∈ Cf.seq (den keyLeaf (nameLang keyLeaf grammar.productions)) (s.optional :: s.y),
      u ∈ Cf.seq (den keyLeaf (nameLang keyLeaf grammar.productions)) (committed s u)) ↔
    ∀ u ∈ Cf.seq (den keyLeaf (nameLang keyLeaf grammar.productions)) s.y, d ∈ u ∨ d = "#ZZ" →
      u ∈ Cf.seq (den keyLeaf (nameLang keyLeaf grammar.productions))
        (s.x ++ [s.disambiguator] ++ s.y) := by
  set D := Cf.seq (den keyLeaf (nameLang keyLeaf grammar.productions)) with hD
  obtain ⟨⟨sp, sp', hopt⟩, -, -, hterm⟩ := isProbeableOpt_eq h.optional
  have hleaf : D [s.disambiguator] = {[d]} := by
    rw [hD, Cf.seq_singleton, den_terminal hterm, keyLeaf, hd]
    rfl
  have hwith : D (s.x ++ [s.disambiguator] ++ s.y) = D s.x * {[d]} * D s.y := by
    rw [← hleaf, hD, Cf.seq_append, Cf.seq_append]
  have hall : ∀ u, u ∈ D (s.optional :: s.y) ↔
      u ∈ D s.y ∨ u ∈ D (s.x ++ [s.disambiguator] ++ s.y) := by
    intro u
    rw [hD, Cf.seq_cons, hopt]
    simp only [den_opt, den_group, altsDen_cons, altsDen_nil, add_zero, add_mul, one_mul,
      Language.mem_add, Cf.seq_append]
  have hx := collectSeqVocab_covers hnd s.x
  have hy := collectSeqVocab_covers hnd s.y
  have hnot : d ∉ keysOf s.vocab := fun hmem => ((mem_vocab h hd).mp hmem).2 rfl
  have hvocabY : ∀ u ∈ D s.y, ∀ t ∈ u, t ≠ d → t ∈ keysOf s.vocab := fun u hu t ht hne =>
    (mem_vocab h hd).mpr ⟨.inr (hy hu ht), hne⟩
  have hvocabWith : ∀ u ∈ D (s.x ++ [s.disambiguator] ++ s.y),
      d ∈ u ∧ ∀ t ∈ u, t ≠ d → t ∈ keysOf s.vocab := by
    intro u hu
    rw [hwith] at hu
    obtain ⟨v, hv, y, hy', rfl⟩ := (Language.mem_mul).mp hu
    obtain ⟨x, hx', _, rfl, rfl⟩ := (Language.mem_mul).mp hv
    refine ⟨by simp, fun t ht hne => ?_⟩
    simp only [List.mem_append, List.mem_singleton] at ht
    rcases ht with (ht | rfl) | ht
    · exact (mem_vocab h hd).mpr ⟨.inl (hx hx' ht), hne⟩
    · exact absurd rfl hne
    · exact hvocabY y hy' t ht hne
  constructor
  · intro hcommit u hu hdu
    have hu' := hcommit u ((hall u).mpr (.inl hu))
    rwa [committed_eq hd (hvocabY u hu) hnot, if_pos hdu] at hu'
  · intro hcond u hu
    rcases (hall u).mp hu with hu | hu
    · rw [committed_eq hd (hvocabY u hu) hnot]
      split
      · next hdu => exact hcond u hu hdu
      · exact hu
    · obtain ⟨hdu, hvocab⟩ := hvocabWith u hu
      rw [committed_eq hd hvocab hnot, if_pos (.inl hdu)]
      exact hu

/-! ## The result -/

section

variable {diag : String}

/-- A split's four productions are among these. -/
def HasProbe (prod : Production) (s : ProbeSplit) (extra : List Production) : Prop :=
  ∃ probe withName noName dispatch,
    probeProductions s prod.originOf probe withName noName dispatch ⊆ extra

theorem HasProbe.mono {prod : Production} {s : ProbeSplit} {extra extra' : List Production}
    (h : HasProbe prod s extra) (hsub : extra ⊆ extra') : HasProbe prod s extra' := by
  obtain ⟨probe, withName, noName, dispatch, h⟩ := h
  exact ⟨probe, withName, noName, dispatch, List.Subset.trans h hsub⟩

theorem rewriteProbeAlt_spec {prod : Production} {altIdx : Nat} {alt : Sequence}
    {st : ProbeState} {r : Sequence × Bool × ProbeState}
    (h : rewriteProbeAlt diag grammar prod altIdx alt st = .ok r) :
    st.extra ⊆ r.2.2.extra ∧
      ∀ s, probeSplit grammar [] alt = some s → HasProbe prod s r.2.2.extra := by
  unfold rewriteProbeAlt at h
  split at h
  · next hnone =>
    cases h
    exact ⟨List.Subset.refl _, fun s hs => by rw [hnone] at hs; cases hs⟩
  · next s hsome =>
    dsimp only at h
    split at h
    · cases h
    · cases h
      refine ⟨List.subset_append_left _ _, fun s' hs' => ?_⟩
      obtain rfl : s = s' := Option.some.inj (hsome.symm.trans hs')
      exact ⟨_, _, _, _, List.subset_append_right _ _⟩

theorem rewriteProbeAlts_spec {prod : Production} :
    ∀ {alts : List Sequence} {altIdx : Nat} {st : ProbeState}
      {r : List Sequence × Bool × ProbeState},
      rewriteProbeAlts diag grammar prod altIdx alts st = .ok r →
      st.extra ⊆ r.2.2.extra ∧ ∀ alt ∈ alts, ∀ s, probeSplit grammar [] alt = some s →
        HasProbe prod s r.2.2.extra
  | [], altIdx, st, r, h => by
    cases h
    exact ⟨List.Subset.refl _, by simp⟩
  | alt :: rest, altIdx, st, r, h => by
    obtain ⟨⟨alt', touched, st₁⟩, halt, h⟩ := bind_eq_ok h
    obtain ⟨⟨rest', restTouched, st₂⟩, hrest, h⟩ := bind_eq_ok h
    cases h
    obtain ⟨hsub, hhas⟩ := rewriteProbeAlt_spec halt
    obtain ⟨hsub', hhas'⟩ := rewriteProbeAlts_spec hrest
    refine ⟨List.Subset.trans hsub hsub', fun a ha s hs => ?_⟩
    rcases List.mem_cons.mp ha with rfl | ha
    · exact (hhas s hs).mono hsub'
    · exact hhas' a ha s hs

theorem rewriteProbeProductions_spec :
    ∀ {prods : List Production} {st : ProbeState} {r : List Production × ProbeState},
      rewriteProbeProductions diag grammar prods st = .ok r →
      st.extra ⊆ r.2.extra ∧ ∀ p ∈ prods, ∀ alt ∈ p.alts, ∀ s,
        probeSplit grammar [] alt = some s → HasProbe p s r.2.extra
  | [], st, r, h => by
    cases h
    exact ⟨List.Subset.refl _, by simp⟩
  | prod :: rest, st, r, h => by
    obtain ⟨⟨alts, touched, st₁⟩, halts, h⟩ := bind_eq_ok h
    obtain ⟨⟨rest', st₂⟩, hrest, h⟩ := bind_eq_ok h
    cases h
    obtain ⟨hsub, hhas⟩ := rewriteProbeAlts_spec halts
    obtain ⟨hsub', hhas'⟩ := rewriteProbeProductions_spec hrest
    refine ⟨List.Subset.trans hsub hsub', fun p hp => ?_⟩
    rcases List.mem_cons.mp hp with rfl | hp
    · exact fun a ha s hs => (hhas a ha s hs).mono hsub'
    · exact hhas' p hp

/-- **What the dispatcher of a rewritten alternative commits to.** Its productions are in the
result, and every string of `[X D] Y` is committed to a branch that derives it exactly when
`X D Y` derives every string of `Y` that holds `D`, or every string of `Y` where `D` is the end
of the input. -/
theorem rewriteProbeDispatches_commits {g' : Grammar} (hnd : grammar.names.Nodup)
    (h : rewriteProbeDispatches diag grammar = .ok g') {p : Production}
    (hp : p ∈ grammar.productions) {alt : Sequence} (ha : alt ∈ p.alts) {s : ProbeSplit}
    (hs : probeSplit grammar [] alt = some s) :
    alt = s.before ++ s.optional :: s.y ∧ HasProbe p s g'.productions ∧
      ∃ d, vocabKey s.disambiguator = some d ∧
      ((∀ u ∈ Cf.seq (den keyLeaf (nameLang keyLeaf grammar.productions)) (s.optional :: s.y),
        u ∈ Cf.seq (den keyLeaf (nameLang keyLeaf grammar.productions)) (committed s u)) ↔
      ∀ u ∈ Cf.seq (den keyLeaf (nameLang keyLeaf grammar.productions)) s.y,
        d ∈ u ∨ d = "#ZZ" → u ∈ Cf.seq (den keyLeaf (nameLang keyLeaf grammar.productions))
          (s.x ++ [s.disambiguator] ++ s.y)) := by
  have hsplit := probeSplit_spec [] alt hs
  obtain ⟨⟨rewritten, st⟩, hrun, h⟩ := bind_eq_ok h
  cases h
  obtain ⟨-, d, hd, -⟩ := isProbeableOpt_eq hsplit.optional
  exact ⟨hsplit.alt, ((rewriteProbeProductions_spec hrun).2 p hp alt ha s hs).mono
    (List.subset_append_right _ _), d, hd, commits_iff hnd hsplit hd⟩

end

/-- `P = [ "a" "@" ] "a" "@" "b"`. -/
def probing : Grammar where
  productions := [{ name := "P", alts := [[
    .opt (.group [[.lit "a", .lit "@"]] none) none, .lit "a", .lit "@", .lit "b"]] }]

/-- Its split. -/
def probingSplit : ProbeSplit where
  before := []
  optional := .opt (.group [[.lit "a", .lit "@"]] none) none
  x := [.lit "a"]
  disambiguator := .lit "@"
  y := [.lit "a", .lit "@", .lit "b"]
  vocab := [("ci:a", .lit "a"), ("ci:b", .lit "b")]

theorem rewriteProbeDispatches_commits_probing :
    ∃ g', rewriteProbeDispatches "bnf" probing = .ok g' ∧
      ∃ d, vocabKey probingSplit.disambiguator = some d ∧
      ((∀ u ∈ Cf.seq (den keyLeaf (nameLang keyLeaf probing.productions))
          (probingSplit.optional :: probingSplit.y),
        u ∈ Cf.seq (den keyLeaf (nameLang keyLeaf probing.productions))
          (committed probingSplit u)) ↔
      ∀ u ∈ Cf.seq (den keyLeaf (nameLang keyLeaf probing.productions)) probingSplit.y,
        d ∈ u ∨ d = "#ZZ" → u ∈ Cf.seq (den keyLeaf (nameLang keyLeaf probing.productions))
          (probingSplit.x ++ [probingSplit.disambiguator] ++ probingSplit.y)) := by
  obtain ⟨g', hg'⟩ := exists_ok
    (show (rewriteProbeDispatches "bnf" probing).isOk = true by decide +kernel)
  exact ⟨g', hg', (rewriteProbeDispatches_commits (by decide) hg' List.mem_cons_self
    List.mem_cons_self rfl).2.2⟩

/-- `"a" "@" "b"` is a string of `Y` alone, and the dispatcher commits to `X D Y`. -/
theorem probing_miscommits :
    probing.names.Nodup ∧ (rewriteProbeDispatches "bnf" probing).isOk = true ∧
    (∃ p ∈ probing.productions, ∃ alt ∈ p.alts, probeSplit probing [] alt = some probingSplit) ∧
    ["ci:a", "cs:@", "ci:b"] ∈ Cf.seq (den keyLeaf (nameLang keyLeaf probing.productions))
      (probingSplit.optional :: probingSplit.y) ∧
    ["ci:a", "cs:@", "ci:b"] ∉ Cf.seq (den keyLeaf (nameLang keyLeaf probing.productions))
      (committed probingSplit ["ci:a", "cs:@", "ci:b"]) := by
  refine ⟨by decide, by decide +kernel, ⟨_, List.mem_cons_self, _, List.mem_cons_self, rfl⟩, ?_, ?_⟩
  · have hy : ["ci:a", "cs:@", "ci:b"] ∈ Cf.seq
        (den keyLeaf (nameLang keyLeaf probing.productions)) probingSplit.y :=
      (mem_seqDen_terminals (by decide)).mpr (by decide)
    rw [Cf.seq_cons]
    exact Language.append_mem_mul (a := []) (by simp [probingSplit, Language.mem_add]) hy
  · have hwith : committed probingSplit ["ci:a", "cs:@", "ci:b"] =
        [.lit "a", .lit "@", .lit "a", .lit "@", .lit "b"] := rfl
    rw [hwith, mem_seqDen_terminals (by decide)]
    decide

end TabnasBnf
