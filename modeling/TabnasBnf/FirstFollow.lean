import TabnasBnf.Analysis
import TabnasBnf.Lib.Saturate

/-!
# FIRST, FOLLOW and the FOLLOW pairs

Model of `compute_first_sets`, `first_of_seq`, `compute_follow_sets` and `compute_follow_pairs`
(`rs/src/analysis.rs`), each the saturation of a set of facts.

* A set a production is a list of facts naming the production, in insertion order: the order of
  the `IndexSet` of one production is that of its facts.
* A pass goes over the alternatives in order; what an alternative adds does not depend on what it
  has added itself, so its walk is one rule. `changed` is a pass that added a fact.
* The code panics on an element that is neither a terminal nor a reference, which `desugar`
  leaves none of. The charges only refuse, and are left out.
-/

namespace TabnasBnf

open Saturate

/-- A member of FIRST, or a production that derives the empty string. -/
inductive FirstFact where
  | first (name tok : String)
  | nullable (name : String)
deriving DecidableEq, Repr

/-- `FirstSets` and `Nullable`. -/
abbrev FirstSets := List FirstFact

/-- `first_sets.get(name)`. -/
def FirstSets.get (sets : FirstSets) (name : String) : List String :=
  sets.filterMap fun
    | .first n tok => if n == name then some tok else none
    | .nullable _ => none

/-- `nullable.contains(name)`. -/
def FirstSets.isNullable (sets : FirstSets) (name : String) : Bool := sets.contains (.nullable name)

section

variable (grammar : Grammar) (tokens : Tokens) (classSets : List (String × String))

/-- What the walk over an alternative adds to the sets of its production. -/
def altFirst (sets : FirstSets) (name : String) : Sequence → List FirstFact
  | [] => [.nullable name]
  | el :: rest =>
    match el with
    | .ref m _ _ => (sets.get m).map (.first name) ++
        if sets.isNullable m then altFirst sets name rest else []
    | el => [.first name (tokens.name el)]

/-- The rules of `compute_first_sets`: an alternative each, but for the token classes. -/
def firstRules : List (FirstSets → FirstSets) :=
  grammar.productions.flatMap fun p =>
    if (classSets.lookup p.name).isSome then []
    else p.alts.map fun alt sets => altFirst tokens sets p.name alt

/-- What FIRST holds of the token classes before the first pass. -/
def classFacts : List FirstFact :=
  grammar.productions.filterMap fun p => (classSets.lookup p.name).map (.first p.name)

/-- The token names of the grammar's terminals and of its token classes. -/
def tokenNames : List String :=
  (grammar.productions.flatMap fun p => p.alts.flatMap fun alt => alt.map tokens.name) ++
    grammar.productions.filterMap fun p => classSets.lookup p.name

/-- Every fact FIRST can hold. -/
def firstUniverse : List FirstFact :=
  grammar.names.flatMap fun n =>
    .nullable n :: (tokenNames grammar tokens classSets).map (.first n)

/-- `compute_first_sets`. -/
def computeFirstSets : FirstSets :=
  saturate (firstRules grammar tokens classSets) (firstUniverse grammar tokens classSets).length
    (addAll [] (classFacts grammar classSets))

variable (sets : FirstSets)

/-- `first_of_seq`, with the tokens so far. -/
def firstOfSeqFrom (out : List String) : Sequence → List String × Bool
  | [] => (out, true)
  | el :: rest =>
    match el with
    | .ref m _ _ =>
      if sets.isNullable m then firstOfSeqFrom (addAll out (sets.get m)) rest
      else (addAll out (sets.get m), false)
    | el => (insertNew out (tokens.name el), false)

/-- `first_of_seq`. -/
def firstOfSeq (seq : Sequence) : List String × Bool := firstOfSeqFrom tokens sets [] seq

/-- `first_of_alt`: `none` for a nullable alternative. -/
def firstOfAlt (alt : Sequence) : Option (List String) :=
  match firstOfSeq tokens sets alt with
  | (_, true) => none
  | (out, false) => some out

/-- `FollowSets`: a production and a token that may follow it. -/
abbrev FollowSets := List (String × String)

/-- `follow_sets.get(name)`. -/
def FollowSets.get (follow : FollowSets) (name : String) : List String :=
  follow.filterMap fun (n, tok) => if n == name then some tok else none

/-- The references of an alternative to a production, each with what follows it. -/
def refSuffixes : Sequence → List (String × Sequence)
  | [] => []
  | el :: rest =>
    match el.refName with
    | some m => if grammar.names.contains m then (m, rest) :: refSuffixes rest else refSuffixes rest
    | none => refSuffixes rest

/-- Every reference of the grammar: the production it stands in, the one it names, the suffix. -/
def references : List (String × String × Sequence) :=
  grammar.productions.flatMap fun p => p.alts.flatMap fun alt =>
    (refSuffixes grammar alt).map (p.name, ·)

/-- What a reference adds to the FOLLOW set of the production it names. -/
def followRule (ref : String × String × Sequence) (follow : FollowSets) : FollowSets :=
  let (rest, restNullable) := firstOfSeq tokens sets ref.2.2
  (rest ++ if restNullable then follow.get ref.1 else []).map (ref.2.1, ·)

/-- `compute_follow_sets`. -/
def computeFollowSets (start : String) : FollowSets :=
  saturate ((references grammar).map (followRule tokens sets))
    (grammar.names.length * ((tokenNames grammar tokens classSets).length + 1))
    (if grammar.names.contains start then [(start, "#ZZ")] else [])

/-- `FollowPairs`: a production, a token that may follow it, and one that may follow then. -/
abbrev FollowPairs := List (String × String × String)

/-- `follow_pairs.get(name)`: each first token with its second tokens. -/
def FollowPairs.get (pairs : FollowPairs) (name : String) : List (String × List String) :=
  let mine := pairs.filterMap fun (n, tu) => if n == name then some tu else none
  (addAll [] (mine.map Prod.fst)).map fun t =>
    (t, mine.filterMap fun (t', u) => if t' == t then some u else none)

/-- The pairs a suffix leaves behind the reference before it: of its first terminal, unless a
reference that cannot vanish comes before it. -/
def suffixPairs (follow : FollowSets) (pairs : FollowPairs) (name : String) :
    Sequence → List (String × String)
  | [] => (pairs.get name).flatMap fun (t, us) => us.map (t, ·)
  | el :: rest =>
    match el with
    | .ref m _ _ => if sets.isNullable m then suffixPairs follow pairs name rest else []
    | el =>
      match tokens.of el with
      | none => []
      | some t =>
        let (us, restNullable) := firstOfSeq tokens sets rest
        (us ++ if restNullable then follow.get name else []).map (t, ·)

/-- `compute_follow_pairs`. -/
def computeFollowPairs (follow : FollowSets) : FollowPairs :=
  saturate
    ((references grammar).map fun ref pairs =>
      (suffixPairs tokens sets follow pairs ref.1 ref.2.2).map (ref.2.1, ·))
    (grammar.names.length * ((tokenNames grammar tokens classSets).length + 1) ^ 2) []

end

/-! ## FIRST is closed -/

section

variable {grammar : Grammar} {tokens : Tokens} {classSets : List (String × String)}
  {sets : FirstSets}

theorem FirstSets.mem_get {name tok : String} : tok ∈ sets.get name ↔ .first name tok ∈ sets := by
  unfold FirstSets.get
  rw [List.mem_filterMap]
  constructor
  · rintro ⟨f, hf, h⟩
    cases f with
    | first n t =>
      by_cases hn : n = name
      · simp only [hn, beq_self_eq_true, if_true, Option.some.injEq] at h
        rwa [← h, ← hn]
      · simp [hn] at h
    | nullable n => cases h
  · exact fun h => ⟨_, h, by simp⟩

theorem FirstSets.isNullable_iff {name : String} :
    sets.isNullable name = true ↔ .nullable name ∈ sets := by
  simp [FirstSets.isNullable]

variable (grammar tokens classSets) in
/-- FIRST holds the set of every token class, and all that the walk over an alternative of another
production adds. -/
structure FirstClosed (sets : FirstSets) : Prop where
  of_class : ∀ p ∈ grammar.productions, ∀ set, classSets.lookup p.name = some set →
    .first p.name set ∈ sets
  of_alt : ∀ p ∈ grammar.productions, classSets.lookup p.name = none → ∀ alt ∈ p.alts,
    ∀ f ∈ altFirst tokens sets p.name alt, f ∈ sets

/-- The facts an alternative adds to facts about tokens of the grammar are about them too. -/
theorem altFirst_subset {p : Production} (hp : p ∈ grammar.productions)
    (hsets : ∀ f ∈ sets, f ∈ firstUniverse grammar tokens classSets) :
    ∀ (β : Sequence), (∀ el ∈ β, tokens.name el ∈ tokenNames grammar tokens classSets) →
      ∀ f ∈ altFirst tokens sets p.name β, f ∈ firstUniverse grammar tokens classSets := by
  have hname : p.name ∈ grammar.names := mem_namesOf.mpr ⟨p, hp, rfl⟩
  have hfirst : ∀ t ∈ tokenNames grammar tokens classSets,
      .first p.name t ∈ firstUniverse grammar tokens classSets := fun t ht =>
    List.mem_flatMap.mpr ⟨_, hname, List.mem_cons_of_mem _ (List.mem_map.mpr ⟨t, ht, rfl⟩)⟩
  have hget : ∀ m, ∀ t ∈ sets.get m, t ∈ tokenNames grammar tokens classSets := by
    intro m t ht
    obtain ⟨n, -, hf⟩ := List.mem_flatMap.mp (hsets _ (FirstSets.mem_get.mp ht))
    simp only [List.mem_cons, reduceCtorEq, List.mem_map, FirstFact.first.injEq, false_or] at hf
    obtain ⟨t', ht', -, rfl⟩ := hf
    exact ht'
  intro β hβ f hf
  induction β with
  | nil =>
    obtain rfl := List.mem_singleton.mp hf
    exact List.mem_flatMap.mpr ⟨_, hname, List.mem_cons_self⟩
  | cons el β ih =>
    have hβ' := fun el hel => hβ el (List.mem_cons_of_mem _ hel)
    cases el with
    | ref m debt sp =>
      rcases List.mem_append.mp hf with hf | hf
      · obtain ⟨t, ht, rfl⟩ := List.mem_map.mp hf
        exact hfirst t (hget m t ht)
      · split at hf
        · exact ih hβ' hf
        · cases hf
    | _ =>
      obtain rfl := List.mem_singleton.mp hf
      exact hfirst _ (hβ _ List.mem_cons_self)

theorem classFacts_subset : ∀ f ∈ addAll [] (classFacts grammar classSets),
    f ∈ firstUniverse grammar tokens classSets := by
  intro f hf
  obtain ⟨p, hp, hset⟩ := List.mem_filterMap.mp ((mem_addAll.mp hf).resolve_left (by simp))
  obtain ⟨set, hlookup, rfl⟩ := Option.map_eq_some_iff.mp hset
  refine List.mem_flatMap.mpr ⟨p.name, mem_namesOf.mpr ⟨p, hp, rfl⟩, List.mem_cons_of_mem _ ?_⟩
  exact List.mem_map.mpr ⟨set, List.mem_append_right _ (List.mem_filterMap.mpr ⟨p, hp, hlookup⟩), rfl⟩

theorem firstRules_subset : ∀ r ∈ firstRules grammar tokens classSets, ∀ sets : FirstSets,
    (∀ f ∈ sets, f ∈ firstUniverse grammar tokens classSets) →
      ∀ f ∈ r sets, f ∈ firstUniverse grammar tokens classSets := by
  intro r hr sets hsets f hf
  obtain ⟨q, hq, hr⟩ := List.mem_flatMap.mp hr
  split at hr
  · cases hr
  · obtain ⟨β, hβ, rfl⟩ := List.mem_map.mp hr
    refine altFirst_subset hq hsets β (fun el hel => List.mem_append_left _ ?_) f hf
    exact List.mem_flatMap.mpr ⟨q, hq, List.mem_flatMap.mpr ⟨β, hβ, List.mem_map.mpr ⟨el, hel, rfl⟩⟩⟩

/-- FIRST holds facts about the tokens of the grammar. -/
theorem computeFirstSets_subset : ∀ f ∈ computeFirstSets grammar tokens classSets,
    f ∈ firstUniverse grammar tokens classSets :=
  subset_of_closed firstRules_subset _ classFacts_subset

/-- **`compute_first_sets` ends closed.** -/
theorem computeFirstSets_closed :
    FirstClosed grammar tokens classSets (computeFirstSets grammar tokens classSets) := by
  refine ⟨fun p hp set hset => ?_, fun p hp hclass alt halt f hf => ?_⟩
  · refine subset_saturate _ _ (mem_addAll.mpr (.inr (List.mem_filterMap.mpr ⟨p, hp, ?_⟩)))
    rw [hset, Option.map_some]
  · refine closed (U := firstUniverse grammar tokens classSets) firstRules_subset classFacts_subset
      (nodup_addAll List.nodup_nil) (Nat.le_refl _) (altFirst tokens · p.name alt) ?_ f hf
    refine List.mem_flatMap.mpr ⟨p, hp, ?_⟩
    rw [if_neg (by rw [hclass]; simp)]
    exact List.mem_map.mpr ⟨alt, halt, rfl⟩

/-- The walk over an alternative ends when all of it is nullable. -/
theorem nullable_mem_altFirst {name m : String} : ∀ {α : Sequence},
    .nullable m ∈ altFirst tokens sets name α →
      m = name ∧ ∀ el ∈ α, ∃ r, el.refName = some r ∧ sets.isNullable r = true
  | [], h => by
    obtain rfl := FirstFact.nullable.inj (List.mem_singleton.mp h)
    exact ⟨rfl, fun _ hel => absurd hel List.not_mem_nil⟩
  | el :: α, h => by
    cases el with
    | ref r debt sp =>
      rcases List.mem_append.mp h with h | h
      · obtain ⟨t, -, h⟩ := List.mem_map.mp h
        cases h
      · split at h
        · next hr =>
          obtain ⟨hm, hall⟩ := nullable_mem_altFirst h
          exact ⟨hm, List.forall_mem_cons.mpr ⟨⟨r, rfl, hr⟩, hall⟩⟩
        · cases h
    | _ => cases List.mem_singleton.mp h

theorem altFirst_nullable {name : String} : ∀ {α : Sequence},
    (∀ el ∈ α, ∃ r, el.refName = some r ∧ sets.isNullable r = true) →
      .nullable name ∈ altFirst tokens sets name α
  | [], _ => List.mem_cons_self
  | el :: α, h => by
    obtain ⟨⟨r, hr, hnull⟩, hα⟩ := List.forall_mem_cons.mp h
    obtain ⟨debt, sp, rfl⟩ := Element.refName_eq_some.mp hr
    refine List.mem_append_right _ ?_
    rw [if_pos hnull]
    exact altFirst_nullable hα

/-- FIRST says that no token string comes from the name. -/
def FirstSets.Dead (sets : FirstSets) (name : String) : Prop :=
  sets.get name = [] ∧ sets.isNullable name = false

/-- An alternative of a dead production refers to a dead name. -/
theorem FirstClosed.dead_alt (h : FirstClosed grammar tokens classSets sets) {p : Production}
    (hp : p ∈ grammar.productions) (hdead : sets.Dead p.name) {alt : Sequence}
    (halt : alt ∈ p.alts) : ∃ el ∈ alt, ∃ m, el.refName = some m ∧ sets.Dead m := by
  have hfirst : ∀ t, .first p.name t ∉ sets := fun t ht => by
    have := FirstSets.mem_get.mpr ht
    rw [hdead.1] at this
    cases this
  have hclass : classSets.lookup p.name = none := by
    cases hset : classSets.lookup p.name with
    | none => rfl
    | some set => exact absurd (h.of_class p hp set hset) (hfirst set)
  have hwalk : ∀ β : Sequence, (∀ f ∈ altFirst tokens sets p.name β, f ∈ sets) →
      ∃ el ∈ β, ∃ m, el.refName = some m ∧ sets.Dead m := by
    intro β hβ
    induction β with
    | nil =>
      have hnull := FirstSets.isNullable_iff.mpr (hβ _ (List.mem_singleton.mpr rfl))
      rw [hdead.2] at hnull
      cases hnull
    | cons el β ih =>
      cases el with
      | ref m debt sp =>
        have hget : sets.get m = [] := by
          refine List.eq_nil_iff_forall_not_mem.mpr fun t ht => hfirst t (hβ _ ?_)
          exact List.mem_append_left _ (List.mem_map.mpr ⟨t, ht, rfl⟩)
        by_cases hnull : sets.isNullable m = true
        · obtain ⟨el, hel, hm⟩ := ih fun f hf => hβ f (List.mem_append_right _ (by rwa [if_pos hnull]))
          exact ⟨el, List.mem_cons_of_mem _ hel, hm⟩
        · exact ⟨_, List.mem_cons_self, m, rfl, hget, by simpa using hnull⟩
      | _ => exact absurd (hβ _ (List.mem_singleton.mpr rfl)) (hfirst _)
  exact hwalk alt (h.of_alt p hp hclass alt halt)

/-- An alternative FIRST knows no token of, and which cannot vanish, refers to a dead name. -/
theorem dead_of_firstOfAlt {alt : Sequence} (h : firstOfAlt tokens sets alt = some []) :
    ∃ el ∈ alt, ∃ m, el.refName = some m ∧ sets.Dead m := by
  have hwalk : ∀ (β : Sequence) (out : List String), firstOfSeqFrom tokens sets out β = ([], false) →
      ∃ el ∈ β, ∃ m, el.refName = some m ∧ sets.Dead m := by
    intro β
    induction β with
    | nil => simp [firstOfSeqFrom]
    | cons el β ih =>
      intro out hout
      have hempty : ∀ {xs : List String}, addAll out xs = [] → xs = [] := fun hxs =>
        List.eq_nil_iff_forall_not_mem.mpr fun x hx =>
          List.ne_nil_of_mem (mem_addAll.mpr (.inr hx)) hxs
      cases el with
      | ref m debt sp =>
        unfold firstOfSeqFrom at hout
        by_cases hnull : sets.isNullable m = true
        · obtain ⟨el, hel, hm⟩ := ih _ (by simpa only [hnull, if_true] using hout)
          exact ⟨el, List.mem_cons_of_mem _ hel, hm⟩
        · have hget : addAll out (sets.get m) = [] := by
            simp only [hnull, Bool.false_eq_true, if_false] at hout
            exact congrArg Prod.fst hout
          exact ⟨_, List.mem_cons_self, m, rfl, hempty hget, by simpa using hnull⟩
      | _ =>
        have hnil : insertNew out _ = [] := congrArg Prod.fst hout
        exact absurd hnil (List.ne_nil_of_mem (mem_insertNew.mpr (.inr rfl)))
  unfold firstOfAlt at h
  split at h
  · cases h
  · next out heq =>
    obtain rfl := Option.some.inj h
    exact hwalk alt [] heq

end

end TabnasBnf
