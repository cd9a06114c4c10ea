import Mathlib.Data.List.Forall2
import TabnasBnf.LeftRecLang
import TabnasBnf.PassRefs
import TabnasBnf.Lib.Lockstep
import TabnasBnf.RepetitionCheck
import TabnasBnf.RewriteSources

/-!
# Sources mirror the alternatives

Left-recursion elimination rewrites alternatives and sources side by side, four ways, and zips them
wherever it reads both. A zip is silent about what is left over.

* `Mirrors`: a source with the shape of its element, at every depth.
* `Lockstep.Runs`: the passes with their sources do what the passes of `LeftRec.lean` do.
* **`eliminateKeepingWith_mirrors`**: in every state the rewriting goes through, and in its result,
  the sources of every production mirror its alternatives. So `validateRewriteRepetitions` passes
  exactly when no repetition, however deep, is out of bounds or unbounded over what may not consume.
-/

namespace TabnasBnf

open Lockstep

/-! ## Shapes -/

/-- The element holds no other. -/
def Element.isLeaf : Element → Bool
  | .opt .. | .star .. | .plus .. | .rep .. | .group .. => false
  | _ => true

theorem Element.inner_of_isLeaf {el : Element} (h : el.isLeaf = true) : el.inner = none := by
  cases el <;> simp [Element.isLeaf, Element.inner] at h ⊢

/-- A source has the shape of its element. -/
inductive Mirrors : Element → RewriteSource → Prop
  | leaf {el : Element} {rule : String} {sp : Option SrcSpan} : el.isLeaf = true →
    Mirrors el (.leaf rule sp)
  | inner {el e : Element} {rule : String} {sp : Option SrcSpan} {s : RewriteSource} :
    el.inner = some e → Mirrors e s → Mirrors el (.inner rule sp s)
  | group {alts : List Sequence} {sources : List AltSources} {rule : String}
    {sp sp' : Option SrcSpan} : List.Forall₂ (List.Forall₂ Mirrors) alts sources →
    Mirrors (.group alts sp) (.group rule sp' sources)

/-- The sources of alternatives: one of each element of each. -/
def MirrorsAlts (alts : List Sequence) (sources : List AltSources) : Prop :=
  List.Forall₂ (List.Forall₂ Mirrors) alts sources

/-- The sources of every production are there, and mirror its alternatives. -/
def Rewriting.Mirrored (st : Rewriting) : Prop :=
  ∀ p ∈ st.prods, ∃ sources, st.sources.lookup p.name = some sources ∧ MirrorsAlts p.alts sources

mutual
theorem mirrors_authored (prod : Production) : ∀ el : Element, Mirrors el (authoredSource prod el)
  | .opt e _ => .inner rfl (mirrors_authored prod e)
  | .star e _ _ => .inner rfl (mirrors_authored prod e)
  | .plus e _ => .inner rfl (mirrors_authored prod e)
  | .rep _ _ e _ => .inner rfl (mirrors_authored prod e)
  | .group alts _ => .group (mirrorsAlts_authored prod alts)
  | .term .. => .leaf rfl
  | .ref .. => .leaf rfl
  | .token .. => .leaf rfl
  | .prose .. => .leaf rfl
  | .regex .. => .leaf rfl

theorem mirrorsSeq_authored (prod : Production) :
    ∀ α : List Element, List.Forall₂ Mirrors α (authoredSeq prod α)
  | [] => .nil
  | el :: rest => .cons (mirrors_authored prod el) (mirrorsSeq_authored prod rest)

theorem mirrorsAlts_authored (prod : Production) :
    ∀ alts : List (List Element), List.Forall₂ (List.Forall₂ Mirrors) alts (authoredAlts prod alts)
  | [] => .nil
  | alt :: rest => .cons (mirrorsSeq_authored prod alt) (mirrorsAlts_authored prod rest)
end

/-- **Sugar that is split has a source for every element of its present branch.** -/
theorem mirrors_nullableSugar {el : Element} {s : RewriteSource} (h : Mirrors el s)
    {present : Sequence} (hpresent : nullableSugarPresent el = some present) :
    ∃ sources, nullableSugarSources el s = some sources ∧ List.Forall₂ Mirrors present sources := by
  have hsource := h
  unfold nullableSugarPresent at hpresent
  split at hpresent
  · cases hpresent
    cases h with
    | leaf hleaf => cases hleaf
    | inner he hs =>
      cases he
      exact ⟨_, rfl, .cons hs .nil⟩
  · cases hpresent
    cases h with
    | leaf hleaf => cases hleaf
    | inner he hs =>
      cases he
      exact ⟨_, rfl, .cons hs (.cons hsource .nil)⟩
  · next max e _ =>
    cases h with
    | leaf hleaf => cases hleaf
    | inner he hs =>
      cases he
      split at hpresent
      · cases hpresent
      · cases hpresent
        exact ⟨_, rfl, .cons hs (.cons hsource .nil)⟩
      · cases hpresent
        exact ⟨_, rfl, .cons hs .nil⟩
      · next hone =>
        cases hpresent
        obtain ⟨max, rfl⟩ := Nat.exists_eq_succ_of_ne_zero hone
        exact ⟨_, rfl, .cons hs (.cons (.inner rfl hs) .nil)⟩
  · cases hpresent

theorem mirrors_asElement {alts : List Sequence} {sources : List AltSources}
    (h : MirrorsAlts alts sources) (fallback : RewriteSource) :
    Mirrors (asElement alts) (asSource fallback sources) := by
  unfold asElement
  split
  · next el =>
    obtain ⟨s, hs, rfl⟩ : ∃ s, Mirrors el s ∧ sources = [[s]] := by
      cases h with
      | cons hα hrest =>
        cases hrest
        cases hα with
        | cons hel hnil =>
          cases hnil
          exact ⟨_, hel, rfl⟩
    exact hs
  · next hne =>
    unfold asSource
    split
    · next s =>
      cases h with
      | cons hα hrest =>
        cases hrest
        cases hα with
        | cons hel hnil =>
          cases hnil
          exact absurd rfl (hne _)
    · exact .group h

/-! ## Alternatives zipped with their sources -/

section

variable {pairs : List (Sequence × AltSources)} {alts : List Sequence} {sources : List AltSources}

theorem mirrorsAlts_pairs (h : ∀ e ∈ pairs, List.Forall₂ Mirrors e.1 e.2) :
    MirrorsAlts (pairs.map Prod.fst) (pairs.map Prod.snd) := by
  induction pairs with
  | nil => exact .nil
  | cons e pairs ih =>
    obtain ⟨he, h⟩ := List.forall_mem_cons.mp h
    exact .cons he (ih h)

/-- Nothing is left over when sources that mirror the alternatives are zipped with them. -/
theorem MirrorsAlts.zip (h : MirrorsAlts alts sources) :
    (alts.zip sources).map Prod.fst = alts ∧
      ∀ e ∈ alts.zip sources, List.Forall₂ Mirrors e.1 e.2 := by
  induction h with
  | nil => exact ⟨rfl, fun _ he => absurd he List.not_mem_nil⟩
  | cons hα _ ih =>
    refine ⟨?_, List.forall_mem_cons.mpr ⟨hα, ih.2⟩⟩
    rw [List.zip_cons_cons, List.map_cons, ih.1]

theorem forall₂_tail {α : Sequence} {s : AltSources} (h : List.Forall₂ Mirrors α s) :
    List.Forall₂ Mirrors α.tail s.tail := by
  cases h with
  | nil => exact .nil
  | cons _ hrest => exact hrest

/-- Substitution copies the alternatives of the source with their sources. -/
theorem substituteLeadingRefWith_spec {target source : Production}
    {targetSources sourceSources : List AltSources} (ht : MirrorsAlts target.alts targetSources)
    (hs : MirrorsAlts source.alts sourceSources) :
    (substituteLeadingRefWith target targetSources source sourceSources).1 =
        substituteLeadingRef target source ∧
      MirrorsAlts (substituteLeadingRef target source).alts
        (substituteLeadingRefWith target targetSources source sourceSources).2 := by
  obtain ⟨htarget, htpairs⟩ := ht.zip
  obtain ⟨hsource, hspairs⟩ := hs.zip
  have hfst : (substituteLeadingRefWith target targetSources source sourceSources).1 =
      substituteLeadingRef target source := by
    unfold substituteLeadingRefWith substituteLeadingRef
    dsimp only
    rw [List.map_flatMap]
    congr 1
    conv => rhs; rw [← htarget, List.flatMap_map]
    refine List.flatMap_congr fun e _ => ?_
    split
    · conv => rhs; rw [← hsource, List.map_map]
      rw [List.map_map]
      rfl
    · rfl
  refine ⟨hfst, ?_⟩
  rw [← hfst]
  refine mirrorsAlts_pairs fun e he => ?_
  obtain ⟨e', he', hmem⟩ := List.mem_flatMap.mp he
  have htail := htpairs e' he'
  dsimp only at hmem
  split at hmem
  · obtain ⟨body, hbody, rfl⟩ := List.mem_map.mp hmem
    exact List.rel_append (hspairs body hbody) (forall₂_tail htail)
  · rw [List.mem_singleton.mp hmem]
    exact htail

/-- A token takes the place and the source of the reference. -/
theorem substituteLeadingRefByTokenWith_spec {target : Production}
    {targetSources : List AltSources} (ht : MirrorsAlts target.alts targetSources)
    (className : String) :
    (substituteLeadingRefByTokenWith target targetSources className).1 =
        substituteLeadingRefByToken target className ∧
      MirrorsAlts (substituteLeadingRefByToken target className).alts
        (substituteLeadingRefByTokenWith target targetSources className).2 := by
  obtain ⟨htarget, htpairs⟩ := ht.zip
  have hfst : (substituteLeadingRefByTokenWith target targetSources className).1 =
      substituteLeadingRefByToken target className := by
    unfold substituteLeadingRefByTokenWith substituteLeadingRefByToken
    dsimp only
    rw [List.map_map]
    congr 1
    conv => rhs; rw [← htarget, List.map_map]
    refine List.map_congr_left fun e _ => ?_
    dsimp only [Function.comp]
    split <;> rfl
  refine ⟨hfst, ?_⟩
  rw [← hfst]
  refine mirrorsAlts_pairs fun e he => ?_
  obtain ⟨e', he', rfl⟩ := List.mem_map.mp he
  have hpair := htpairs e' he'
  obtain ⟨alt, altSources⟩ := e'
  dsimp only at hpair ⊢
  split
  · next hlead =>
    cases hpair with
    | nil => cases hlead
    | @cons el s _ _ hel hrest =>
      -- a reference is a leaf, as the token is
      obtain ⟨debt, sp, rfl⟩ := Element.refName_eq_some.mp (Element.isRefTo_iff.mp hlead)
      cases hel with
      | leaf _ => exact .cons (.leaf rfl) hrest
      | inner hinner _ => cases hinner
  · exact hpair

/-- Direct elimination sorts the alternatives with their sources, and wraps both alike. -/
theorem eliminateDirectLeftRecWith_runs (diag : String) {prod : Production}
    (h : MirrorsAlts prod.alts sources) (debtNames : List String) :
    Runs (fun r r' => (r.1.1, r.2) = r' ∧ r.1.1.name = prod.name ∧ MirrorsAlts r.1.1.alts r.1.2)
      (eliminateDirectLeftRecWith diag prod sources debtNames)
      (eliminateDirectLeftRec diag prod debtNames) := by
  obtain ⟨hfst, hpairs⟩ := h.zip
  have hseeds : ((prod.alts.zip sources).filter fun e => !leads prod.name e.1).map Prod.fst =
      prod.alts.filter fun alt => !leads prod.name alt := by
    conv => rhs; rw [← hfst, List.filter_map]
    rfl
  have htails : ((((prod.alts.zip sources).filter fun e => leads prod.name e.1).map
      fun e => (e.1.tail, e.2.tail)).filter fun e => !e.1.isEmpty).map Prod.fst =
      ((prod.alts.filter (leads prod.name)).map List.tail).filter fun tail => !tail.isEmpty := by
    conv => rhs; rw [← hfst]
    simp only [List.filter_map, List.map_map]
    rfl
  have hseedPairs : ∀ e ∈ (prod.alts.zip sources).filter fun e => !leads prod.name e.1,
      List.Forall₂ Mirrors e.1 e.2 := fun e he => hpairs e (List.mem_filter.mp he).1
  have htailPairs : ∀ e ∈ (((prod.alts.zip sources).filter fun e => leads prod.name e.1).map
      fun e => (e.1.tail, e.2.tail)).filter fun e => !e.1.isEmpty,
      List.Forall₂ Mirrors e.1 e.2 := by
    intro e he
    obtain ⟨e', he', rfl⟩ := List.mem_map.mp (List.mem_filter.mp he).1
    exact forall₂_tail (hpairs e' (List.mem_filter.mp he').1)
  unfold eliminateDirectLeftRecWith eliminateDirectLeftRec
  dsimp only
  rw [← hseeds, ← htails]
  simp only [List.isEmpty_map]
  split
  · exact .ok ⟨rfl, rfl, mirrorsAlts_pairs hseedPairs⟩
  · split
    · exact .error _
    · refine .ok ⟨rfl, rfl, .cons (.cons ?_ (.cons ?_ .nil)) .nil⟩
      · exact mirrors_asElement (mirrorsAlts_pairs hseedPairs) _
      · exact .inner rfl (mirrors_asElement (mirrorsAlts_pairs htailPairs) _)

end

/-! ## A step -/

theorem exists_of_forall₂_append {α β : Type} {R : α → β → Prop} {l₁ l₂ : List α} {l : List β}
    (h : List.Forall₂ R (l₁ ++ l₂) l) :
    ∃ k₁ k₂, l = k₁ ++ k₂ ∧ List.Forall₂ R l₁ k₁ ∧ List.Forall₂ R l₂ k₂ := by
  induction l₁ generalizing l with
  | nil => exact ⟨[], l, rfl, .nil, h⟩
  | cons a l₁ ih =>
    cases h with
    | cons hab hrest =>
      obtain ⟨k₁, k₂, rfl, h₁, h₂⟩ := ih hrest
      exact ⟨_ :: k₁, k₂, rfl, .cons hab h₁, h₂⟩

/-- A split puts the sources of both branches where the alternative was. -/
theorem mirrorsAlts_split {before after : List Sequence} {el : Element} {rest present : Sequence}
    {sources : List AltSources} (h : MirrorsAlts (before ++ (el :: rest) :: after) sources)
    (hpresent : nullableSugarPresent el = some present) :
    MirrorsAlts (before ++ [present ++ rest, rest] ++ after)
      (splitSources el before.length sources) := by
  obtain ⟨s₁, s₂, rfl, hbefore, hsplit⟩ := exists_of_forall₂_append h
  cases hsplit with
  | @cons _ original _ s₂ hα hafter =>
    cases hα with
    | @cons _ first _ others hel hrest =>
      obtain ⟨with', hwith, hpresent⟩ := mirrors_nullableSugar hel hpresent
      have hsources : splitSources el before.length (s₁ ++ (first :: others) :: s₂) =
          s₁ ++ [with' ++ others, others] ++ s₂ := by
        rw [hbefore.length_eq]
        simp [splitSources, hwith]
      rw [hsources]
      exact List.rel_append (List.rel_append hbefore
        (.cons (List.rel_append hpresent hrest) (.cons hrest .nil))) hafter

section

variable {done rest : List Production} {p q : Production} {sources : RewriteSources}

theorem Rewriting.Mirrored.sourcesOf {st : Rewriting} (h : st.Mirrored) (hp : p ∈ st.prods) :
    MirrorsAlts p.alts (sourcesOf st.sources p.name) := by
  obtain ⟨s, hs, hmirrors⟩ := h p hp
  rw [TabnasBnf.sourcesOf, hs]
  exact hmirrors

/-- A rewritten production gets its own sources, and no other production any. -/
theorem Rewriting.Mirrored.insert (hnd : (namesOf (done ++ p :: rest)).Nodup)
    (h : Rewriting.Mirrored ⟨done ++ p :: rest, sources⟩) (hname : q.name = p.name)
    {s : List AltSources} (hs : MirrorsAlts q.alts s) :
    Rewriting.Mirrored ⟨done ++ q :: rest, Table.insert sources p.name s⟩ := by
  have hother : ∀ r ∈ done ++ rest, r.name ≠ p.name := by
    intro r hr heq
    have hperm : (namesOf (p :: (done ++ rest))).Nodup :=
      ((List.perm_middle).map Production.name).nodup_iff.mp hnd
    exact (List.nodup_cons.mp hperm).1 (mem_namesOf.mpr ⟨r, hr, heq⟩)
  intro r hr
  dsimp only at hr ⊢
  rw [Table.lookup_insert]
  rcases List.mem_append.mp hr with hr | hr
  · rw [if_neg (hother r (List.mem_append_left _ hr))]
    exact h r (List.mem_append_left _ hr)
  · rcases List.mem_cons.mp hr with rfl | hr
    · rw [if_pos hname]
      exact ⟨s, rfl, hs⟩
    · rw [if_neg (hother r (List.mem_append_right _ hr))]
      exact h r (List.mem_append_right _ (List.mem_cons_of_mem _ hr))

/-! ## The splitting of nullable prefixes -/

variable {diag : String}

/-- What the splits of one production leave, with their sources and without. -/
structure SplitTo (done rest : List Production) (p : Production)
    (r : List Sequence × RewriteSources × Nat × List Rewriting) (r' : List Sequence × Nat) :
    Prop where
  same : (r.1, r.2.2.1) = r'
  mirrored : Rewriting.Mirrored ⟨done ++ { p with alts := r.1 } :: rest, r.2.1⟩
  steps : ∀ st ∈ r.2.2.2, Rewriting.Mirrored st

theorem splitHiddenWith_runs (hnd : (namesOf (done ++ p :: rest)).Nodup) :
    ∀ (guard : Nat) {alts : List Sequence} {sources : RewriteSources} {added : Nat},
      Rewriting.Mirrored ⟨done ++ { p with alts := alts } :: rest, sources⟩ →
      Runs (SplitTo done rest p)
        (splitHiddenWith diag p (fun alts => done ++ { p with alts := alts } :: rest) guard alts
          sources added)
        (splitHidden diag p guard alts added)
  | 0, _, _, _, h => .ok ⟨rfl, h, fun _ hst => absurd hst List.not_mem_nil⟩
  | guard + 1, alts, sources, added, h => by
    have hstop : Runs (SplitTo done rest p)
        (.ok (alts, sources, added, []) : Except EmitError _) (.ok (alts, added)) :=
      .ok ⟨rfl, h, fun _ hst => absurd hst List.not_mem_nil⟩
    unfold splitHiddenWith splitHidden
    rcases hspan : alts.span fun alt => !isHiddenLeftRecursive alt p.name with
      ⟨before, _ | ⟨_ | ⟨el, tail⟩, after⟩⟩
    · exact hstop
    · exact hstop
    · have halts : alts = before ++ (el :: tail) :: after := eq_append_of_span hspan
      cases hpresent : nullableSugarPresent el with
      | none =>
        simp only [hpresent]
        exact hstop
      | some present =>
        simp only [hpresent]
        refine Runs.step _ fun added' => ?_
        have hsources := h.sourcesOf (List.mem_append_right _ List.mem_cons_self)
        rw [halts] at hsources
        have hsplit := h.insert
          (q := { p with alts := before ++ [present ++ tail, tail] ++ after })
          (by simpa using hnd) rfl (mirrorsAlts_split hsources hpresent)
        refine (splitHiddenWith_runs hnd guard hsplit).bind_left fun {a b} hab => .ok ?_
        exact ⟨hab.same, hab.mirrored, List.forall_mem_cons.mpr ⟨hsplit, hab.steps⟩⟩

/-- What the splitting leaves, with its sources and without. -/
structure ExpandTo (done : List Production) (names : List String)
    (r : List Production × RewriteSources × Nat × List Rewriting) (r' : List Production × Nat) :
    Prop where
  prods : r.1 = done ++ r'.1
  names : namesOf r.1 = names
  added : r.2.2.1 = r'.2
  mirrored : Rewriting.Mirrored ⟨r.1, r.2.1⟩
  steps : ∀ st ∈ r.2.2.2, Rewriting.Mirrored st

theorem expandWith_runs : ∀ (prods done : List Production) {sources : RewriteSources} {added : Nat},
    (namesOf (done ++ prods)).Nodup → Rewriting.Mirrored ⟨done ++ prods, sources⟩ →
    Runs (ExpandTo done (namesOf (done ++ prods))) (expandWith diag done prods sources added)
      (expandNullableLeftPrefixes diag prods added)
  | [], done, sources, added, _, h => by
    rw [List.append_nil] at h ⊢
    exact .ok ⟨(List.append_nil done).symm, rfl, rfl, h, fun _ hst => absurd hst List.not_mem_nil⟩
  | p :: rest, done, sources, added, hnd, h => by
    unfold expandWith expandNullableLeftPrefixes
    refine (splitHiddenWith_runs hnd _ h).bind fun {a b} hsplit => ?_
    obtain rfl := hsplit.same
    have hmirrored := hsplit.mirrored
    rw [List.append_cons] at hmirrored
    refine (expandWith_runs rest (done ++ [{ p with alts := a.1 }]) (by simpa using hnd)
      hmirrored).bind fun {a' b'} hrest => ?_
    refine .ok ⟨?_, ?_, hrest.added, hrest.mirrored, fun st hst => ?_⟩
    · rw [hrest.prods, List.append_assoc]
      rfl
    · rw [hrest.names]
      simp [namesOf]
    · rcases List.mem_append.mp hst with hst | hst
      · exact hsplit.steps st hst
      · exact hrest.steps st hst

/-! ## Substitution -/

variable {keep cyclic : List String}

/-- A substitution under way: its target in its place, with the sources. -/
structure SubstitutionWith.Mirrored (done rest : List Production) (name : String)
    (st : SubstitutionWith) : Prop where
  name : st.target.name = name
  now : Rewriting.Mirrored ⟨done ++ st.target :: rest, st.sources⟩
  steps : ∀ st' ∈ st.steps, Rewriting.Mirrored st'

/-- The state without the sources, and its invariant. -/
def SubstitutedTo (done rest : List Production) (name : String) (st : SubstitutionWith)
    (st' : Substitution) : Prop := st.toSubstitution = st' ∧ st.Mirrored done rest name

theorem SubstitutionWith.Mirrored.rewrite {st : SubstitutionWith}
    (hnd : (namesOf (done ++ p :: rest)).Nodup) (h : st.Mirrored done rest p.name)
    {next : Production × List AltSources} (hname : next.1.name = st.target.name)
    (hnext : MirrorsAlts next.1.alts next.2) (gained added : Nat) :
    (st.rewrite (fun p => done ++ p :: rest) next gained added).Mirrored done rest p.name := by
  have hnd' : (namesOf (done ++ st.target :: rest)).Nodup := by
    simpa [namesOf, h.name] using hnd
  have hnow := h.now.insert hnd' hname hnext
  refine ⟨hname.trans h.name, hnow, fun st' hst => ?_⟩
  rcases List.mem_append.mp hst with hst | hst
  · exact h.steps st' hst
  · rw [List.mem_singleton.mp hst]
    exact hnow

theorem substitutePassWith_runs (hnd : (namesOf (done ++ p :: rest)).Nodup) :
    ∀ (earlier : List Production) {st : SubstitutionWith}, earlier ⊆ done →
      st.Mirrored done rest p.name →
      Runs (SubstitutedTo done rest p.name)
        (substitutePassWith diag keep (fun p => done ++ p :: rest) earlier st)
        (substitutePass diag keep earlier st.toSubstitution)
  | [], _, _, h => .ok ⟨rfl, h⟩
  | source :: earlier, st, hsub, h => by
    obtain ⟨hsource, hsub⟩ := List.cons_subset.mp hsub
    have htarget := h.now.sourcesOf (List.mem_append_right _ List.mem_cons_self)
    unfold substitutePassWith substitutePass
    by_cases hlead : (!hasLeadingRefTo st.target source.name) = true
    · rw [if_pos hlead, if_pos hlead]
      exact substitutePassWith_runs hnd earlier hsub h
    · rw [if_neg hlead, if_neg hlead]
      by_cases hkeep : keep.contains source.name = true
      · rw [if_pos hkeep, if_pos hkeep]
        obtain ⟨hfst, hmirrors⟩ := substituteLeadingRefByTokenWith_spec htarget source.name
        rw [← hfst] at hmirrors
        have hnext := h.rewrite hnd (by rw [hfst]; rfl) hmirrors st.gained st.added
        have hruns := substitutePassWith_runs hnd earlier hsub hnext
        rw [SubstitutionWith.rewrite, hfst] at hruns
        rw [SubstitutionWith.rewrite, hfst]
        exact hruns
      · rw [if_neg hkeep, if_neg hkeep]
        refine Runs.step _ fun gained => Runs.step _ fun added => ?_
        have hbody := h.now.sourcesOf (List.mem_append_left _ hsource)
        obtain ⟨hfst, hmirrors⟩ := substituteLeadingRefWith_spec htarget hbody
        rw [← hfst] at hmirrors
        have hnext := h.rewrite hnd (by rw [hfst]; rfl) hmirrors gained added
        have hruns := substitutePassWith_runs hnd earlier hsub hnext
        rw [SubstitutionWith.rewrite, hfst] at hruns
        rw [SubstitutionWith.rewrite, hfst]
        exact hruns

theorem substituteEarlierWith_runs (hnd : (namesOf (done ++ p :: rest)).Nodup) :
    ∀ (guard : Nat) {st : SubstitutionWith}, st.Mirrored done rest p.name →
      Runs (SubstitutedTo done rest p.name)
        (substituteEarlierWith diag keep (fun p => done ++ p :: rest) done guard st)
        (substituteEarlier diag keep done guard st.toSubstitution)
  | 0, _, h => .ok ⟨rfl, h⟩
  | guard + 1, st, h => by
    unfold substituteEarlierWith substituteEarlier
    have hst : SubstitutionWith.Mirrored done rest p.name { st with changed := false } :=
      ⟨h.name, h.now, h.steps⟩
    refine (substitutePassWith_runs hnd done (List.Subset.refl _) hst).bind fun {a b} hab => ?_
    obtain ⟨rfl, ha⟩ := hab
    by_cases hchanged : a.changed = true
    · rw [if_pos hchanged, if_pos hchanged]
      exact substituteEarlierWith_runs hnd guard ha
    · rw [if_neg hchanged, if_neg hchanged]
      exact .ok ⟨rfl, ha⟩

/-! ## The main loop -/

/-- What the main loop leaves, with its sources and without. -/
structure PaullTo (r : Rewriting × List Rewriting) (prods : List Production) : Prop where
  same : r.1.prods = prods
  mirrored : r.1.Mirrored
  steps : ∀ st ∈ r.2, Rewriting.Mirrored st

theorem substituteIntoWith_runs (hnd : (namesOf (done ++ p :: rest)).Nodup) {guard added : Nat}
    (h : Rewriting.Mirrored ⟨done ++ p :: rest, sources⟩) :
    Runs (fun st (r : Production × Nat) => (st.target, st.added) = r ∧
        SubstitutionWith.Mirrored done rest p.name st)
      (substituteIntoWith diag keep cyclic (fun p => done ++ p :: rest) done guard p sources added)
      (substituteInto diag keep cyclic done guard p added) := by
  have hst : SubstitutionWith.Mirrored done rest p.name ⟨⟨p, 0, added, false⟩, sources, []⟩ :=
    ⟨rfl, h, fun _ hst => absurd hst List.not_mem_nil⟩
  unfold substituteIntoWith substituteInto
  by_cases hexempt : exemptAlias p cyclic = true
  · rw [if_pos hexempt, if_pos hexempt]
    exact .ok ⟨rfl, hst⟩
  · rw [if_neg hexempt, if_neg hexempt]
    rw [← bind_pure (substituteEarlierWith diag keep _ done guard _)]
    refine (substituteEarlierWith_runs hnd guard hst).bind fun {a b} hab => ?_
    obtain ⟨rfl, ha⟩ := hab
    exact .ok ⟨rfl, ha⟩

theorem paullWith_runs {guard : Nat} : ∀ (rest done : List Production) {sources : RewriteSources}
    {added : Nat} {debtNames : List String}, (namesOf (done ++ rest)).Nodup →
    Rewriting.Mirrored ⟨done ++ rest, sources⟩ →
    Runs PaullTo (paullWith diag keep cyclic guard done rest sources added debtNames)
      (paull diag keep cyclic guard done rest added debtNames)
  | [], done, sources, _, _, _, h => by
    rw [List.append_nil] at h
    exact .ok ⟨rfl, h, fun _ hst => absurd hst List.not_mem_nil⟩
  | p :: rest, done, sources, added, debtNames, hnd, h => by
    unfold paullWith paull
    refine (substituteIntoWith_runs hnd h).bind fun {st r} hsub => ?_
    obtain ⟨rfl, hst⟩ := hsub
    have htarget := hst.now.sourcesOf (List.mem_append_right _ List.mem_cons_self)
    have hnd' : (namesOf (done ++ st.target :: rest)).Nodup := by
      simpa [namesOf, hst.name] using hnd
    refine (eliminateDirectLeftRecWith_runs diag htarget debtNames).bind fun {next r} hdir => ?_
    obtain ⟨⟨q, s⟩, debtNames⟩ := next
    obtain ⟨rfl, hname, hmirrors⟩ := hdir
    dsimp only at hname hmirrors
    have hnow := hst.now.insert hnd' hname hmirrors
    have hnext := hnow
    rw [List.append_cons] at hnext
    have hndNext : (namesOf (done ++ [q] ++ rest)).Nodup := by
      simpa [namesOf, hname] using hnd'
    refine (paullWith_runs rest (done ++ [q]) hndNext hnext).bind_left fun {a b} hrest => ?_
    refine .ok ⟨hrest.same, hrest.mirrored, fun st' hst' => ?_⟩
    rcases List.mem_append.mp hst' with hst' | hst'
    · exact hst.steps st' hst'
    · rcases List.mem_cons.mp hst' with rfl | hst'
      · exact hnow
      · exact hrest.steps st' hst'

/-- The sources that are written mirror what is written. -/
theorem mirrored_authored (prods : List Production) (hnd : (namesOf prods).Nodup) :
    Rewriting.Mirrored ⟨prods.map fun p => p.rebuilt p.alts,
      Table.insertAll [] (prods.map fun p => (p.name, authoredAlts p p.alts))⟩ := by
  have hkeys : (prods.map fun p => (p.name, authoredAlts p p.alts)).map Prod.fst = namesOf prods := by
    rw [List.map_map]
    rfl
  have htable : Table.insertAll [] (prods.map fun p => (p.name, authoredAlts p p.alts)) =
      prods.map fun p => (p.name, authoredAlts p p.alts) :=
    Table.insertAll_of_nodup (by rw [List.nil_append, hkeys]; exact hnd)
  intro q hq
  obtain ⟨p, hp, rfl⟩ := List.mem_map.mp hq
  refine ⟨authoredAlts p p.alts, ?_, mirrorsAlts_authored p p.alts⟩
  dsimp only
  rw [htable]
  exact Table.lookup_of_mem (by rw [hkeys]; exact hnd) (List.mem_map.mpr ⟨p, hp, rfl⟩)

/-- What elimination leaves, with its sources and without. -/
structure EliminatedTo (r : EliminatedGrammar) (g : Grammar) : Prop where
  same : r.grammar = g
  mirrored : Rewriting.Mirrored ⟨r.grammar.productions, r.sources⟩
  steps : ∀ st ∈ r.steps, Rewriting.Mirrored st

theorem Rewriting.Mirrored.mono {prods prods' : List Production}
    (h : Rewriting.Mirrored ⟨prods, sources⟩) (hsub : ∀ q ∈ prods', q ∈ prods) :
    Rewriting.Mirrored ⟨prods', sources⟩ := fun q hq => h q (hsub q hq)

theorem eliminateKeepingWith_runs {grammar : Grammar} (hnd : grammar.names.Nodup) :
    Runs EliminatedTo (eliminateKeepingWith diag grammar keep)
      (eliminateLeftRecursionKeeping diag grammar keep) := by
  have hnames : namesOf (grammar.productions.map fun p => p.rebuilt p.alts) = grammar.names := by
    simp [namesOf, Grammar.names]
  have hauthored := mirrored_authored grammar.productions hnd
  unfold eliminateKeepingWith eliminateLeftRecursionKeeping
  refine (expandWith_runs _ [] (by rwa [List.nil_append, hnames]) hauthored).bind
    fun {a b} hexpand => ?_
  obtain ⟨expanded, sources, added, steps⟩ := a
  obtain ⟨expanded', added'⟩ := b
  obtain ⟨rfl, hexpNames, rfl, hmirrored, hsteps⟩ := hexpand
  dsimp only [List.nil_append] at hexpNames hmirrored hsteps ⊢
  obtain ⟨hndTopo, hmem⟩ := topoOrderForPaull_spec
    (by rw [hexpNames, hnames]; exact hnd : (namesOf expanded).Nodup)
  refine (paullWith_runs _ [] hndTopo (hmirrored.mono fun q hq => (hmem q).mp hq)).bind
    fun {out done} hpaull => ?_
  obtain ⟨rfl, hout, hmore⟩ := hpaull
  refine .ok ⟨rfl, hout.mono fun q hq => mem_slotsOf (mem_takeSlots hq), fun st hst => ?_⟩
  exact (List.mem_append.mp hst).elim (hsteps st) (hmore st)

end

/-! ## What the check examines -/

mutual
/-- No repetition in an element has its upper bound below its lower. -/
def Element.Bounded : Element → Prop
  | .rep min (some max) e _ => min ≤ max ∧ e.Bounded
  | .rep _ none e _ => e.Bounded
  | .opt e _ => e.Bounded
  | .star e _ _ => e.Bounded
  | .plus e _ => e.Bounded
  | .group alts _ => BoundedAlts alts
  | _ => True

/-- The same of a sequence. -/
def BoundedSeq : List Element → Prop
  | [] => True
  | el :: rest => el.Bounded ∧ BoundedSeq rest

/-- The same of alternatives. -/
def BoundedAlts : List (List Element) → Prop
  | [] => True
  | α :: rest => BoundedSeq α ∧ BoundedAlts rest
end

theorem Mirrors.of_inner {el e : Element} {s : RewriteSource} (h : Mirrors el s)
    (he : el.inner = some e) : ∃ rule sp s', s = .inner rule sp s' ∧ Mirrors e s' := by
  cases h with
  | leaf hleaf =>
    rw [Element.inner_of_isLeaf hleaf] at he
    cases he
  | inner he' hs =>
    rw [he] at he'
    cases he'
    exact ⟨_, _, _, rfl, hs⟩
  | group _ => cases he

theorem Mirrors.of_group {alts : List Sequence} {sp : Option SrcSpan} {s : RewriteSource}
    (h : Mirrors (.group alts sp) s) :
    ∃ rule sp' sources, s = .group rule sp' sources ∧ MirrorsAlts alts sources := by
  cases h with
  | leaf hleaf => cases hleaf
  | inner he _ => cases he
  | group hs => exact ⟨_, _, _, rfl, hs⟩

section

variable {diag : String} {verdict : Verdict} {nullable : List String}

theorem andThen_ok {x y : Except EmitError Unit} :
    (x >>= fun _ => y) = .ok () ↔ x = .ok () ∧ y = .ok () := by
  cases x with
  | error e => exact ⟨fun h => (nomatch h), fun h => (nomatch h.1)⟩
  | ok u => exact ⟨fun h => ⟨rfl, h⟩, fun h => h.2⟩

mutual
theorem validateSourceBounds_iff : ∀ (el : Element) {s : RewriteSource}, Mirrors el s →
    (validateSourceBounds diag el s = .ok () ↔ el.Bounded)
  | .group alts _, _, h => by
    obtain ⟨_, _, _, rfl, hs⟩ := h.of_group
    exact validateSourceBoundsAlts_iff alts hs
  | .rep min (some max) e _, _, h => by
    obtain ⟨_, _, _, rfl, hs⟩ := h.of_inner rfl
    have ih := validateSourceBounds_iff e hs
    rw [validateSourceBounds, Element.Bounded, ← ih]
    split
    · next hlt => exact ⟨fun h => (nomatch h), fun h => absurd h.1 (Nat.not_le.mpr hlt)⟩
    · next hlt => exact (and_iff_right (Nat.le_of_not_lt hlt)).symm
  | .rep _ none e _, _, h => by
    obtain ⟨_, _, _, rfl, hs⟩ := h.of_inner rfl
    exact validateSourceBounds_iff e hs
  | .opt e _, _, h => by
    obtain ⟨_, _, _, rfl, hs⟩ := h.of_inner rfl
    exact validateSourceBounds_iff e hs
  | .star e _ _, _, h => by
    obtain ⟨_, _, _, rfl, hs⟩ := h.of_inner rfl
    exact validateSourceBounds_iff e hs
  | .plus e _, _, h => by
    obtain ⟨_, _, _, rfl, hs⟩ := h.of_inner rfl
    exact validateSourceBounds_iff e hs
  | .term .., _, _ | .ref .., _, _ | .token .., _, _ | .prose .., _, _ | .regex .., _, _ =>
    iff_of_true rfl trivial

theorem validateSourceBoundsSeq_iff : ∀ (α : List Element) {s : AltSources},
    List.Forall₂ Mirrors α s → (validateSourceBoundsSeq diag α s = .ok () ↔ BoundedSeq α)
  | [], _, .nil => iff_of_true rfl trivial
  | el :: α, _, .cons hel h => by
    rw [validateSourceBoundsSeq, andThen_ok, BoundedSeq, validateSourceBounds_iff el hel,
      validateSourceBoundsSeq_iff α h]

theorem validateSourceBoundsAlts_iff : ∀ (alts : List (List Element)) {s : List AltSources},
    List.Forall₂ (List.Forall₂ Mirrors) alts s →
      (validateSourceBoundsAlts diag alts s = .ok () ↔ BoundedAlts alts)
  | [], _, .nil => iff_of_true rfl trivial
  | α :: alts, _, .cons hα h => by
    rw [validateSourceBoundsAlts, andThen_ok, BoundedAlts, validateSourceBoundsSeq_iff α hα,
      validateSourceBoundsAlts_iff alts h]
end

theorem checkSourceItem_iff {inner : Element} {s : RewriteSource} :
    checkSourceItem diag verdict nullable inner s = .ok () ↔
      elementMayMatchWithoutConsuming verdict nullable inner = false := by
  unfold checkSourceItem
  split
  · next hc => exact ⟨fun h => (nomatch h), fun h => (nomatch hc.symm.trans h)⟩
  · next hc => exact iff_of_true rfl (Bool.eq_false_iff.mpr hc)

mutual
theorem walkSources_iff : ∀ (el : Element) {s : RewriteSource}, Mirrors el s →
    (walkSources diag verdict nullable el s = .ok () ↔ el.LoopsConsume verdict nullable)
  | .group alts _, _, h => by
    obtain ⟨_, _, _, rfl, hs⟩ := h.of_group
    exact walkSourcesAlts_iff alts hs
  | .opt e _, _, h => by
    obtain ⟨_, _, _, rfl, hs⟩ := h.of_inner rfl
    exact walkSources_iff e hs
  | .rep _ (some _) e _, _, h => by
    obtain ⟨_, _, _, rfl, hs⟩ := h.of_inner rfl
    exact walkSources_iff e hs
  | .star e _ _, _, h => by
    obtain ⟨_, _, _, rfl, hs⟩ := h.of_inner rfl
    rw [walkSources, andThen_ok, checkSourceItem_iff]
    exact and_congr_right' (walkSources_iff e hs)
  | .plus e _, _, h => by
    obtain ⟨_, _, _, rfl, hs⟩ := h.of_inner rfl
    rw [walkSources, andThen_ok, checkSourceItem_iff]
    exact and_congr_right' (walkSources_iff e hs)
  | .rep _ none e _, _, h => by
    obtain ⟨_, _, _, rfl, hs⟩ := h.of_inner rfl
    rw [walkSources, andThen_ok, checkSourceItem_iff]
    exact and_congr_right' (walkSources_iff e hs)
  | .term .., _, _ | .ref .., _, _ | .token .., _, _ | .prose .., _, _ | .regex .., _, _ =>
    iff_of_true rfl trivial

theorem walkSourcesSeq_iff : ∀ (α : List Element) {s : AltSources}, List.Forall₂ Mirrors α s →
    (walkSourcesSeq diag verdict nullable α s = .ok () ↔ LoopsConsumeSeq verdict nullable α)
  | [], _, .nil => iff_of_true rfl trivial
  | el :: α, _, .cons hel h => by
    rw [walkSourcesSeq, andThen_ok, LoopsConsumeSeq, walkSources_iff el hel, walkSourcesSeq_iff α h]

theorem walkSourcesAlts_iff : ∀ (alts : List (List Element)) {s : List AltSources},
    List.Forall₂ (List.Forall₂ Mirrors) alts s →
      (walkSourcesAlts diag verdict nullable alts s = .ok () ↔
        LoopsConsumeAlts verdict nullable alts)
  | [], _, .nil => iff_of_true rfl trivial
  | α :: alts, _, .cons hα h => by
    rw [walkSourcesAlts, andThen_ok, LoopsConsumeAlts, walkSourcesSeq_iff α hα,
      walkSourcesAlts_iff alts h]
end

theorem mapM_ok_iff {α : Type} {f : α → Except EmitError Unit} {l : List α} :
    (∃ us, l.mapM f = .ok us) ↔ ∀ x ∈ l, f x = .ok () := by
  induction l with
  | nil => exact iff_of_true ⟨[], rfl⟩ fun _ hx => absurd hx List.not_mem_nil
  | cons x l ih =>
    rw [List.forall_mem_cons, ← ih]
    constructor
    · rintro ⟨us, h⟩
      rw [List.mapM_cons] at h
      obtain ⟨u, hu, h⟩ := bind_eq_ok h
      obtain ⟨us', hus, -⟩ := bind_eq_ok h
      exact ⟨hu, us', hus⟩
    · rintro ⟨hx, us, hus⟩
      exact ⟨() :: us, by rw [List.mapM_cons, hx, hus]; rfl⟩

/-- **The check examines every repetition**, if the sources mirror the alternatives. -/
theorem validateRewriteRepetitions_iff {grammar : Grammar} {sources : RewriteSources}
    (h : Rewriting.Mirrored ⟨grammar.productions, sources⟩) :
    validateRewriteRepetitions diag verdict grammar sources = .ok () ↔
      ∀ p ∈ grammar.productions, BoundedAlts p.alts ∧
        LoopsConsumeAlts verdict (nonConsumingRules verdict grammar.productions) p.alts := by
  have hbounds : (∃ us, (grammar.productions.mapM fun prod =>
      validateSourceBoundsAlts diag prod.alts (sourcesOf sources prod.name)) = .ok us) ↔
      ∀ p ∈ grammar.productions, BoundedAlts p.alts :=
    mapM_ok_iff.trans (forall₂_congr fun p hp => validateSourceBoundsAlts_iff _ (h.sourcesOf hp))
  have hwalk : (∃ us, (grammar.productions.mapM fun prod =>
      walkSourcesAlts diag verdict (nonConsumingRules verdict grammar.productions) prod.alts
        (sourcesOf sources prod.name)) = .ok us) ↔
      ∀ p ∈ grammar.productions,
        LoopsConsumeAlts verdict (nonConsumingRules verdict grammar.productions) p.alts :=
    mapM_ok_iff.trans (forall₂_congr fun p hp => walkSourcesAlts_iff _ (h.sourcesOf hp))
  rw [forall₂_and, ← hbounds, ← hwalk]
  constructor
  · intro hok
    obtain ⟨us, hus, hok⟩ := bind_eq_ok hok
    obtain ⟨us', hus', -⟩ := bind_eq_ok hok
    exact ⟨⟨us, hus⟩, us', hus'⟩
  · rintro ⟨⟨us, hus⟩, us', hus'⟩
    unfold validateRewriteRepetitions
    dsimp only
    rw [hus]
    exact congrArg (fun x => x >>= fun _ => (pure () : Except EmitError Unit)) hus'

end

/-- **The sources mirror the alternatives after every step of the rewriting, and in its result.** So
the check on the sources examines every repetition there is. -/
theorem eliminateKeepingWith_mirrors {diag : String} {grammar : Grammar} {keep : List String}
    (hnd : grammar.names.Nodup) {out : EliminatedGrammar}
    (h : eliminateKeepingWith diag grammar keep = .ok out) :
    eliminateLeftRecursionKeeping diag grammar keep = .ok out.grammar ∧
    (∀ st ∈ out.steps, Rewriting.Mirrored st) ∧
    Rewriting.Mirrored ⟨out.grammar.productions, out.sources⟩ ∧
    ∀ verdict, validateRewriteRepetitions diag verdict out.grammar out.sources = .ok () ↔
      ∀ p ∈ out.grammar.productions, BoundedAlts p.alts ∧
        LoopsConsumeAlts verdict (nonConsumingRules verdict out.grammar.productions) p.alts := by
  obtain ⟨g, hg, rfl, hmirrored, hsteps⟩ := (eliminateKeepingWith_runs hnd).of_ok h
  exact ⟨hg, hsteps, hmirrored, fun verdict => validateRewriteRepetitions_iff hmirrored⟩

/-- `A = ["x"] A "y" / B "z" / "w"`, `B = A *("b" / 2*3"c") / "d"`. -/
def hiddenAndIndirect : Grammar where
  productions := [
    { name := "A", alts := [[.opt (.lit "x") none, .reference "A", .lit "y"],
      [.reference "B", .lit "z"], [.lit "w"]] },
    { name := "B", alts := [[.reference "A",
      .star (.group [[.lit "b"], [.rep 2 (some 3) (.lit "c") none]] none) none none],
      [.lit "d"]] }]

/-- A grammar with every kind of step: the states it goes through are mirrored. -/
theorem eliminateKeepingWith_mirrors_hidden :
    ∃ out, eliminateKeepingWith "bnf" hiddenAndIndirect [] = .ok out ∧ out.steps ≠ [] ∧
      (∀ st ∈ out.steps, Rewriting.Mirrored st) ∧
      Rewriting.Mirrored ⟨out.grammar.productions, out.sources⟩ := by
  have hrun : ((eliminateKeepingWith "bnf" hiddenAndIndirect []).toOption.any fun out =>
      !out.steps.isEmpty) = true := by decide +kernel
  cases hout : eliminateKeepingWith "bnf" hiddenAndIndirect [] with
  | error e =>
    rw [hout] at hrun
    cases hrun
  | ok out =>
    rw [hout] at hrun
    obtain ⟨-, hsteps, hmirrored, -⟩ := eliminateKeepingWith_mirrors (by decide) hout
    refine ⟨out, rfl, fun hnil => ?_, hsteps, hmirrored⟩
    simp [Except.toOption, hnil] at hrun

end TabnasBnf
