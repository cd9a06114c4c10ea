import TabnasBnf.EmitPlace

/-!
# The entries of a rule

What the entries of a production do, before they are placed: those of an alternative of a rule of
single segments what its segment does (`effect_singleEntries`), those of a dispatcher's alternative
descend to its rule (`effect_dispatchEntries`). An alternative without an entry is one FIRST knows
no token of.
-/

namespace TabnasBnf

open Saturate

section

variable {E : Emitter} {prod : Production}

/-- The exits of an empty alternative do what it does. -/
theorem effect_exitEntries {o : AltSpec} (ho : o.consumed = []) {e : Entry}
    (h : e ∈ (exitEntries E prod o).1 ++ (exitEntries E prod o).2) : e.o.effect = o.effect := by
  unfold exitEntries at h
  split at h
  · rcases List.mem_append.mp h with h | h
    · obtain ⟨g, hg, rfl⟩ := List.mem_map.mp h
      unfold pairExitGuards at hg
      dsimp only at hg
      split at hg
      · cases hg
      · obtain ⟨s, hs, rfl⟩ := List.mem_map.mp hg
        have hs := (mem_addAll.mp hs).resolve_left (by simp)
        obtain ⟨⟨t, us⟩, -, hs⟩ := List.mem_flatMap.mp hs
        dsimp only at hs
        split at hs
        · obtain ⟨u, -, rfl⟩ := List.mem_map.mp hs
          exact effect_peekCopy ho.symm
        · cases hs
    · obtain ⟨tok, -, rfl⟩ := List.mem_map.mp h
      exact effect_peekCopy ho.symm
  · cases h

/-! ## Single segments -/

/-- The segment of a single-segment alternative. -/
def segmentOf (tokens : Tokens) (alt : Sequence) : Segment := (segmentize tokens alt).headD {}

theorem effect_refPeeks {ordered : List Sequence} {idx : Nat} {alt : Sequence} {seg : Segment}
    {firstTokens : List String} {e : Entry} (h : e ∈ refPeeks E prod ordered idx alt seg firstTokens) :
    e.o.effect = ⟨[], some (seg.reference.getD ""), none, seg.debt⟩ := by
  unfold refPeeks at h
  dsimp only at h
  obtain ⟨s, -, rfl⟩ := List.mem_map.mp h
  unfold AltSpec.effect AltSpec.consumed
  simp

/-- An alternative FIRST knows a token of is peeked for. -/
theorem refPeeks_ne_nil {ordered : List Sequence} {idx : Nat} {alt : Sequence} {seg : Segment}
    {firstTokens : List String} (h : firstTokens ≠ []) :
    refPeeks E prod ordered idx alt seg firstTokens ≠ [] := by
  unfold refPeeks
  dsimp only
  generalize (if (altHeadContested E idx ordered || contestedByFollow E prod alt) = true then
    (altPrefixes E alt lookaheadK).filter (!·.isEmpty) else []) = paths
  rw [Ne, List.map_eq_nil_iff]
  split
  · next hpaths =>
    rintro rfl
    simp at hpaths
  · simpa using h

/-- What an alternative of single segments does. -/
theorem effect_segmentToAlt (seg : Segment) :
    (segmentToAlt seg).effect = ⟨seg.terms, seg.reference, none, seg.debt⟩ := by
  unfold AltSpec.effect AltSpec.consumed segmentToAlt
  simp

theorem consumed_singleAlternate (isLoop : Bool) (alt : Sequence) (seg : Segment) :
    (singleAlternate prod isLoop alt seg).consumed = seg.terms := by
  unfold singleAlternate AltSpec.consumed
  split <;> simp [segmentToAlt]

variable {ordered : List Sequence} {idx : Nat} {alt : Sequence} {isLoop : Bool}

/-- **The entries of an alternative do what it does**; a loop's continue alternative begins with a
terminal. -/
theorem effect_singleEntries
    (hloop : isLoop = true → alt ≠ [] → (segmentOf E.tokens alt).terms ≠ []) {e : Entry}
    (h : e ∈ (singleEntries E prod isLoop ordered idx alt).1 ++
      (singleEntries E prod isLoop ordered idx alt).2) :
    e.o.effect = (singleAlternate prod isLoop alt (segmentOf E.tokens alt)).effect := by
  unfold singleEntries at h
  dsimp only at h
  rw [show (segmentize E.tokens alt).headD {} = segmentOf E.tokens alt from rfl] at h
  split at h
  · next firstTokens hfirst =>
    rw [List.nil_append] at h
    rw [effect_refPeeks h]
    split at hfirst
    · next hrefOnly =>
      simp only [Bool.and_eq_true, Bool.not_eq_true', List.isEmpty_iff, decide_eq_true_eq]
        at hrefOnly
      obtain ⟨-, ⟨⟨hne, -⟩, hterms⟩, href⟩ := hrefOnly
      have hnot : isLoop = false := by
        cases isLoop with
        | false => rfl
        | true => exact absurd hterms (hloop rfl (by simpa using hne))
      obtain ⟨m, hm⟩ := Option.isSome_iff_exists.mp href
      unfold singleAlternate
      rw [hnot, Bool.false_and, if_neg Bool.false_ne_true, effect_segmentToAlt, hterms, hm]
      rfl
    · cases hfirst
  · rcases List.mem_append.mp h with h | h
    · split at h
      · next hempty =>
        refine effect_exitEntries ?_ (List.mem_append_left _ h)
        rw [consumed_singleAlternate, List.isEmpty_iff.mp hempty]
        rfl
      · cases h
    · rcases List.mem_append.mp h with h | h
      · split at h
        · next hempty =>
          refine effect_exitEntries ?_ (List.mem_append_right _ h)
          rw [consumed_singleAlternate, List.isEmpty_iff.mp hempty]
          rfl
        · cases h
      · split at h
        · rw [List.mem_singleton.mp h]
        · obtain ⟨tok, -, rfl⟩ := List.mem_map.mp h
          refine effect_peekCopy ?_
          rw [consumed_singleAlternate]
          simp

/-- An alternative has an entry, unless FIRST knows no token of it. -/
theorem singleEntries_ne_nil (h : firstOfAlt E.tokens E.sets alt ≠ some []) :
    (singleEntries E prod isLoop ordered idx alt).2 ≠ [] := by
  unfold singleEntries
  dsimp only
  split
  · next firstTokens hfirst =>
    refine refPeeks_ne_nil ?_
    rintro rfl
    split at hfirst
    · exact h hfirst
    · cases hfirst
  · refine List.append_ne_nil_of_right_ne_nil _ ?_
    split
    · simp
    · next hpeek => simpa using hpeek

/-- The entries of a rule are those of its alternatives. -/
theorem mem_allSingleEntries {e : Entry} :
    e ∈ allSingleEntries E prod isLoop ↔ ∃ alt idx,
      (alt, idx) ∈ (emptyAltsLast prod.alts).zipIdx ∧
        e ∈ (singleEntries E prod isLoop (emptyAltsLast prod.alts) idx alt).1 ++
          (singleEntries E prod isLoop (emptyAltsLast prod.alts) idx alt).2 := by
  unfold allSingleEntries
  dsimp only
  generalize emptyAltsLast prod.alts = ordered
  have hfold : ∀ (pairs : List (Sequence × Nat)) (entries : List Entry),
      e ∈ pairs.foldl (fun entries x =>
        (singleEntries E prod isLoop ordered x.2 x.1).1 ++ entries ++
          (singleEntries E prod isLoop ordered x.2 x.1).2) entries ↔
        e ∈ entries ∨ ∃ alt idx, (alt, idx) ∈ pairs ∧
          e ∈ (singleEntries E prod isLoop ordered idx alt).1 ++
            (singleEntries E prod isLoop ordered idx alt).2 := by
    intro pairs
    induction pairs with
    | nil => simp
    | cons pair pairs ih =>
      obtain ⟨alt, idx⟩ := pair
      intro entries
      rw [List.foldl_cons, ih]
      simp only [List.mem_append, List.mem_cons, Prod.mk.injEq]
      constructor
      · rintro (((h | h) | h) | ⟨alt', idx', h, he⟩)
        · exact .inr ⟨alt, idx, .inl ⟨rfl, rfl⟩, .inl h⟩
        · exact .inl h
        · exact .inr ⟨alt, idx, .inl ⟨rfl, rfl⟩, .inr h⟩
        · exact .inr ⟨alt', idx', .inr h, he⟩
      · rintro (h | ⟨alt', idx', ⟨rfl, rfl⟩ | h, he⟩)
        · exact .inl (.inl (.inr h))
        · exact .inl (he.elim (fun he => .inl (.inl he)) fun he => .inr he)
        · exact .inr ⟨alt', idx', h, he⟩
  refine (hfold ordered.zipIdx []).trans ?_
  simp

theorem mem_emptyAltsLast {alts : List Sequence} : alt ∈ emptyAltsLast alts ↔ alt ∈ alts := by
  unfold emptyAltsLast
  cases alt <;> simp

/-! ## A dispatcher -/

/-- Descending to a rule: a loop goes on as it, another dispatcher pushes it. -/
def descentTo (isLoop : Bool) (name : String) : Effect :=
  if isLoop then ⟨[], none, some name, none⟩ else ⟨[], some name, none, none⟩

/-- Doing nothing. -/
def noEffect : Effect := ⟨[], none, none, none⟩

variable {diag : String} {i : Nat} {d : DispatchPrefixes} {entries : List Entry}

theorem effect_implEntries (h : implEntries diag E prod isLoop i alt d = .ok entries) {e : Entry}
    (he : e ∈ entries) : alt ≠ [] ∧ e.o.effect = descentTo isLoop (altName prod.name i) := by
  unfold implEntries at h
  dsimp only at h
  split at h
  · cases h
    cases he
  · next hempty =>
    refine ⟨by simpa using hempty, ?_⟩
    obtain ⟨peeks, -, h⟩ := bind_eq_ok h
    cases h
    obtain ⟨s, -, rfl⟩ := List.mem_map.mp he
    unfold descentTo AltSpec.effect AltSpec.consumed
    cases isLoop <;> simp

theorem implEntries_ne_nil (h : implEntries diag E prod isLoop i alt d = .ok entries)
    (hne : alt ≠ []) (hfirst : firstOfAlt E.tokens E.sets alt ≠ some []) : entries ≠ [] := by
  unfold implEntries at h
  rw [if_neg (by simpa using hne)] at h
  obtain ⟨peeks, hpeeks, h⟩ := bind_eq_ok h
  cases h
  rw [Ne, List.map_eq_nil_iff]
  rintro rfl
  unfold dispatchPeeks at hpeeks
  split at hpeeks
  · next hprefixes =>
    obtain hnil := Except.ok.inj hpeeks
    simp [hnil] at hprefixes
  · split at hpeeks
    · next first hsome =>
      have hnil : first = [] := by simpa using Except.ok.inj hpeeks
      exact hfirst (hnil ▸ hsome)
    · cases hpeeks

variable {dispatch : List DispatchPrefixes}

theorem effect_nullableEntries {e : Entry} (h : e ∈ nullableEntries E prod i) :
    e.o.effect = descentTo false (altName prod.name i) := by
  unfold nullableEntries at h
  dsimp only at h
  rcases List.mem_append.mp h with h | h
  · obtain ⟨tok, -, rfl⟩ := List.mem_map.mp h
    rfl
  · rw [List.mem_singleton.mp h]
    rfl

variable (E prod isLoop dispatch) in
/-- The empty derivations of the nullable alternatives, re-issued. -/
def nullableReissues : List Entry :=
  (prod.alts.zip dispatch).zipIdx.flatMap fun x =>
    if !x.1.1.isEmpty && x.1.2.nullable && !isLoop then nullableEntries E prod x.2 else []

theorem dispatchEntries_eq : dispatchEntries diag E prod isLoop dispatch = (do
    let content ← (prod.alts.zip dispatch).zipIdx.mapM fun x =>
      implEntries diag E prod isLoop x.2 x.1.1 x.1.2
    let nullable := nullableReissues E prod isLoop dispatch
    if prod.alts.any List.isEmpty then
      let exits := exitEntries E prod {}
      return exits.1 ++ content.flatten ++ nullable ++ exits.2 ++ [⟨{}, none⟩]
    return content.flatten ++ nullable) := rfl

/-- The entries of a dispatcher: those of each alternative's dispatch prefixes, of nullable
alternatives, and of empty ones. -/
theorem mem_dispatchEntries (h : dispatchEntries diag E prod isLoop dispatch = .ok entries) :
    ∃ content, List.Forall₂ (fun (x : (Sequence × DispatchPrefixes) × Nat) es =>
        implEntries diag E prod isLoop x.2 x.1.1 x.1.2 = .ok es)
          (prod.alts.zip dispatch).zipIdx content ∧
      ∀ e, e ∈ entries ↔ e ∈ content.flatten ∨
        (∃ (i : Nat) (alt : Sequence) (d : DispatchPrefixes),
          ((alt, d), i) ∈ (prod.alts.zip dispatch).zipIdx ∧ alt ≠ [] ∧ d.nullable = true ∧
            isLoop = false ∧ e ∈ nullableEntries E prod i) ∨
        [] ∈ prod.alts ∧ (e ∈ (exitEntries E prod {}).1 ++ (exitEntries E prod {}).2 ∨
          e = ⟨{}, none⟩) := by
  rw [dispatchEntries_eq] at h
  obtain ⟨content, hcontent, h⟩ := bind_eq_ok h
  refine ⟨content, mapM_eq_ok hcontent, fun e => ?_⟩
  have hnull : e ∈ nullableReissues E prod isLoop dispatch ↔
      ∃ (i : Nat) (alt : Sequence) (d : DispatchPrefixes),
        ((alt, d), i) ∈ (prod.alts.zip dispatch).zipIdx ∧ alt ≠ [] ∧ d.nullable = true ∧
          isLoop = false ∧ e ∈ nullableEntries E prod i := by
    unfold nullableReissues
    rw [List.mem_flatMap]
    constructor
    · rintro ⟨⟨⟨alt, d⟩, i⟩, hmem, he⟩
      dsimp only at he
      split at he
      · next hif =>
        simp only [Bool.and_eq_true, Bool.not_eq_true', List.isEmpty_eq_false_iff] at hif
        exact ⟨i, alt, d, hmem, hif.1.1, hif.1.2, hif.2, he⟩
      · cases he
    · rintro ⟨i, alt, d, hmem, hne, hd, hloop, he⟩
      refine ⟨((alt, d), i), hmem, ?_⟩
      dsimp only
      rw [if_pos (by simp [hne, hd, hloop])]
      exact he
  have hany : prod.alts.any List.isEmpty = true ↔ [] ∈ prod.alts := by
    rw [List.any_eq_true]
    exact ⟨fun ⟨alt, halt, he⟩ => List.isEmpty_iff.mp he ▸ halt, fun h => ⟨[], h, rfl⟩⟩
  dsimp only at h
  split at h
  · next hempty =>
    cases h
    simp only [List.mem_append, hnull, List.mem_singleton, hany.mp hempty, true_and]
    constructor
    · rintro ((((h | h) | h) | h) | h)
      · exact .inr (.inr (.inl (.inl h)))
      · exact .inl h
      · exact .inr (.inl h)
      · exact .inr (.inr (.inl (.inr h)))
      · exact .inr (.inr (.inr h))
    · rintro (h | h | (h | h) | h)
      · exact .inl (.inl (.inl (.inr h)))
      · exact .inl (.inl (.inr h))
      · exact .inl (.inl (.inl (.inl h)))
      · exact .inl (.inr h)
      · exact .inr h
  · next hempty =>
    cases h
    have hno : [] ∉ prod.alts := fun h => hempty (hany.mpr h)
    simp only [List.mem_append, hnull, hno, false_and, or_false]

theorem getElem?_of_mem_zip {alt : Sequence} {d : DispatchPrefixes} {i : Nat}
    (h : ((alt, d), i) ∈ (prod.alts.zip dispatch).zipIdx) : prod.alts[i]? = some alt :=
  (List.getElem?_zip_eq_some.mp (List.mk_mem_zipIdx_iff_getElem?.mp h)).1

/-- **The entries of a dispatcher** descend to the rule of an alternative, or do nothing for an
empty one. -/
theorem effect_dispatchEntries (h : dispatchEntries diag E prod isLoop dispatch = .ok entries)
    {e : Entry} (he : e ∈ entries) :
    (∃ (i : Nat) (alt : Sequence), prod.alts[i]? = some alt ∧ alt ≠ [] ∧
      e.o.effect = descentTo isLoop (altName prod.name i)) ∨
      [] ∈ prod.alts ∧ e.o.effect = noEffect := by
  obtain ⟨content, hcontent, hmem⟩ := mem_dispatchEntries h
  rcases (hmem e).mp he with he | ⟨i, alt, d, hat, hne, -, hloop, he⟩ | ⟨hempty, he⟩
  · obtain ⟨es, hes, he⟩ := List.mem_flatten.mp he
    obtain ⟨⟨⟨alt, d⟩, i⟩, hat, hok⟩ := exists_left_of_forall₂ hcontent hes
    obtain ⟨hne, heff⟩ := effect_implEntries hok he
    exact .inl ⟨i, alt, getElem?_of_mem_zip hat, hne, heff⟩
  · exact .inl ⟨i, alt, getElem?_of_mem_zip hat, hne, hloop ▸ effect_nullableEntries he⟩
  · rcases he with he | rfl
    · exact .inr ⟨hempty, effect_exitEntries rfl he⟩
    · exact .inr ⟨hempty, rfl⟩

/-- Every alternative of a dispatcher has an entry, unless FIRST knows no token of it. -/
theorem exists_dispatchEntry (h : dispatchEntries diag E prod isLoop dispatch = .ok entries)
    (hlen : dispatch.length = prod.alts.length) {i : Nat} {alt : Sequence}
    (halt : prod.alts[i]? = some alt) (hne : alt ≠ [])
    (hfirst : firstOfAlt E.tokens E.sets alt ≠ some []) :
    ∃ e ∈ entries, e.o.effect = descentTo isLoop (altName prod.name i) := by
  obtain ⟨content, hcontent, hmem⟩ := mem_dispatchEntries h
  have hi : i < dispatch.length := by
    rw [hlen]
    exact (List.getElem?_eq_some_iff.mp halt).1
  have hat : ((alt, dispatch[i]), i) ∈ (prod.alts.zip dispatch).zipIdx :=
    List.mk_mem_zipIdx_iff_getElem?.mpr
      (List.getElem?_zip_eq_some.mpr ⟨halt, List.getElem?_eq_getElem hi⟩)
  obtain ⟨es, hes, hok⟩ := exists_right_of_forall₂ hcontent hat
  obtain ⟨e, he⟩ := List.exists_mem_of_ne_nil es (implEntries_ne_nil hok hne hfirst)
  exact ⟨e, (hmem e).mpr (.inl (List.mem_flatten.mpr ⟨es, hes, he⟩)), (effect_implEntries hok he).2⟩

/-- A dispatcher with an empty alternative can do nothing. -/
theorem mem_dispatchEntries_of_empty
    (h : dispatchEntries diag E prod isLoop dispatch = .ok entries) (hempty : [] ∈ prod.alts) :
    (⟨{}, none⟩ : Entry) ∈ entries := by
  obtain ⟨content, -, hmem⟩ := mem_dispatchEntries h
  exact (hmem _).mpr (.inr (.inr ⟨hempty, .inr rfl⟩))

/-- A dispatch holds the prefixes of every alternative. -/
theorem length_dispatchPrefixes {grammar : Grammar} {tokens : Tokens}
    {classSets : List (String × String)} {contest : String → String → Bool} {maxK : Nat}
    {exits : List (List String)} {alts : List Sequence}
    (h : dispatchPrefixes grammar tokens classSets contest maxK exits alts = some dispatch) :
    dispatch.length = alts.length := by
  unfold dispatchPrefixes at h
  simp only [Option.bind_eq_bind, Option.bind_eq_some_iff, Option.pure_def,
    Option.some.injEq] at h
  obtain ⟨contested, -, rfl⟩ := h
  simp

end

end TabnasBnf
