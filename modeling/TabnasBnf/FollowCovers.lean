import Mathlib.Data.List.ProdSigma
import TabnasBnf.FirstExact
import TabnasBnf.Lib.Corner

/-!
# FOLLOW is complete

In every derivation from the start rule, the token behind an occurrence of a production is in
`compute_follow_sets`' set of the production, and `#ZZ` is when nothing is behind it
(`computeFollowSets_complete`). A production carrying `tail_repeat` derives
`prefix (sep prefix)*`, a token class the token of its set: FOLLOW names the set, never a member of
it (`computeFollowSets_class`).

* `Unfolds` is what a reference may be replaced by.
* `Followed` says that the suffix behind an occurrence begins with tokens of its FOLLOW set alone.
  A derivation keeps it of every occurrence (`Cf.derives_occurrences`): behind the symbol that is
  replaced, since FIRST of the right-hand side is part of FIRST of the symbol; within the right-hand
  side, since FOLLOW is closed.
-/

namespace TabnasBnf

open Saturate

section

variable (grammar : Grammar) (classSets : List (String × String))

/-- What a reference may be replaced by: the token of a class's set, `prefix (sep prefix)*` of a
production carrying `tail_repeat`, an alternative of any other. -/
inductive Unfolds : Element → Sequence → Prop
  | ofClass {p : Production} {set : String} {debt : Option (List (String × Int))}
      {sp : Option SrcSpan} (hp : p ∈ grammar.productions)
      (hclass : classSets.lookup p.name = some set) : Unfolds (.ref p.name debt sp) [.token set none]
  | ofTail {p : Production} {spec : TailRepeatSpec} {alt : Sequence}
      {debt : Option (List (String × Int))} {sp : Option SrcSpan} (k : Nat)
      (hp : p ∈ grammar.productions) (hclass : classSets.lookup p.name = none)
      (htail : p.tailRepeat = some spec) (halt : alt ∈ p.alts) :
      Unfolds (.ref p.name debt sp) (alt ++ (List.replicate k (spec.sep ++ alt)).flatten)
  | ofAlt {p : Production} {alt : Sequence} {debt : Option (List (String × Int))}
      {sp : Option SrcSpan} (hp : p ∈ grammar.productions) (hclass : classSets.lookup p.name = none)
      (htail : p.tailRepeat = none) (halt : alt ∈ p.alts) : Unfolds (.ref p.name debt sp) alt

end

section

variable (tokens : Tokens) (sets : FirstSets)

/-- FIRST says that all of the sequence may vanish. -/
def CanVanish (β : Sequence) : Prop := ∀ el ∈ β, ∃ m, el.refName = some m ∧ sets.isNullable m = true

/-- FIRST says that the sequence may begin with the token. -/
def Begins (t : String) : Sequence → Prop
  | [] => False
  | el :: rest =>
    match el with
    | .ref m _ _ => .first m t ∈ sets ∨ sets.isNullable m = true ∧ Begins t rest
    | el => t = tokens.name el

end

section

variable {grammar : Grammar} {tokens : Tokens} {classSets : List (String × String)}
  {sets : FirstSets}

theorem vanishes_append {α β : Sequence} :
    CanVanish sets (α ++ β) ↔ CanVanish sets α ∧ CanVanish sets β := List.forall_mem_append

theorem begins_append {t : String} {β : Sequence} : ∀ {α : Sequence},
    Begins tokens sets t (α ++ β) ↔
      Begins tokens sets t α ∨ CanVanish sets α ∧ Begins tokens sets t β
  | [] => by simp [Begins, CanVanish]
  | el :: α => by
    cases el with
    | ref m debt sp =>
      have hcons : CanVanish sets (.ref m debt sp :: α) ↔
          sets.isNullable m = true ∧ CanVanish sets α := by
        simp [CanVanish, Element.refName]
      rw [hcons, List.cons_append, Begins, Begins, begins_append]
      tauto
    | _ => simp [Begins, CanVanish, Element.refName]

/-- `first_of_seq` finds the tokens a sequence may begin with. -/
theorem mem_firstOfSeqFrom {t : String} : ∀ (β : Sequence) {out : List String},
    t ∈ (firstOfSeqFrom tokens sets out β).1 ↔ t ∈ out ∨ Begins tokens sets t β
  | [], out => by simp [firstOfSeqFrom, Begins]
  | el :: β, out => by
    cases el with
    | ref m debt sp =>
      unfold firstOfSeqFrom
      rw [Begins]
      by_cases hnull : sets.isNullable m = true
      · simp only [hnull, if_true, true_and]
        rw [mem_firstOfSeqFrom β, mem_addAll, FirstSets.mem_get, or_assoc]
      · simp only [hnull, Bool.false_eq_true, if_false, false_and, or_false]
        rw [mem_addAll, FirstSets.mem_get]
    | _ => exact mem_insertNew

theorem firstOfSeqFrom_snd : ∀ (β : Sequence) {out : List String},
    (firstOfSeqFrom tokens sets out β).2 = true ↔ CanVanish sets β
  | [], out => by simp [firstOfSeqFrom, CanVanish]
  | el :: β, out => by
    cases el with
    | ref m debt sp =>
      unfold firstOfSeqFrom
      by_cases hnull : sets.isNullable m = true
      · simp only [hnull, if_true]
        rw [firstOfSeqFrom_snd β]
        simp [CanVanish, Element.refName, hnull]
      · simp [CanVanish, Element.refName, hnull]
    | _ => simp [firstOfSeqFrom, CanVanish, Element.refName]

/-- The walk over an alternative adds the tokens it may begin with. -/
theorem altFirst_begins {name t : String} : ∀ {α : Sequence}, Begins tokens sets t α →
    .first name t ∈ altFirst tokens sets name α
  | [], h => h.elim
  | el :: α, h => by
    cases el with
    | ref m debt sp =>
      rcases h with h | ⟨hnull, h⟩
      · exact List.mem_append_left _ (List.mem_map.mpr ⟨t, FirstSets.mem_get.mpr h, rfl⟩)
      · refine List.mem_append_right _ ?_
        rw [if_pos hnull]
        exact altFirst_begins h
    | _ => exact List.mem_singleton.mpr (congrArg _ h)

/-! ## FOLLOW is closed -/

theorem FollowSets.mem_get {follow : FollowSets} {name tok : String} :
    tok ∈ follow.get name ↔ (name, tok) ∈ follow := by
  unfold FollowSets.get
  rw [List.mem_filterMap]
  constructor
  · rintro ⟨⟨n, t⟩, hf, h⟩
    by_cases hn : n = name
    · simp only [hn, beq_self_eq_true, if_true, Option.some.injEq] at h
      rwa [← h, ← hn]
    · simp [hn] at h
  · exact fun h => ⟨_, h, by simp⟩

variable (grammar tokens classSets) in
/-- Every pair FOLLOW can hold. -/
def followUniverse : FollowSets :=
  grammar.names ×ˢ ("#ZZ" :: tokenNames grammar tokens classSets)

/-- What FIRST says a sequence of the grammar's terminals begins with is a token of the grammar. -/
theorem mem_tokenNames_of_begins {t : String}
    (hsets : ∀ f ∈ sets, f ∈ firstUniverse grammar tokens classSets) : ∀ {β : Sequence},
      (∀ el ∈ β, tokens.name el ∈ tokenNames grammar tokens classSets) →
        Begins tokens sets t β → t ∈ tokenNames grammar tokens classSets
  | [], _, h => h.elim
  | el :: β, hβ, h => by
    obtain ⟨hel, hβ'⟩ := List.forall_mem_cons.mp hβ
    cases el with
    | ref m debt sp =>
      rcases h with h | ⟨-, h⟩
      · obtain ⟨n, -, hf⟩ := List.mem_flatMap.mp (hsets _ h)
        simp only [List.mem_cons, reduceCtorEq, List.mem_map, FirstFact.first.injEq,
          false_or] at hf
        obtain ⟨t', ht', -, rfl⟩ := hf
        exact ht'
      · exact mem_tokenNames_of_begins hsets hβ' h
    | _ => exact h ▸ hel

theorem mem_refSuffixes {m : String} {β : Sequence} : ∀ {α : Sequence},
    (m, β) ∈ refSuffixes grammar α ↔
      m ∈ grammar.names ∧ ∃ u el, α = u ++ el :: β ∧ el.refName = some m
  | [] => by simp [refSuffixes]
  | el :: α => by
    have hcons : (∃ u x, el :: α = u ++ x :: β ∧ x.refName = some m) ↔
        (α = β ∧ el.refName = some m) ∨ ∃ u x, α = u ++ x :: β ∧ x.refName = some m := by
      constructor
      · rintro ⟨u, x, heq, hx⟩
        rcases List.cons_eq_append_iff.mp heq with ⟨-, hx'⟩ | ⟨u', -, hα⟩
        · obtain ⟨rfl, rfl⟩ := List.cons.inj hx'
          exact .inl ⟨rfl, hx⟩
        · exact .inr ⟨u', x, hα, hx⟩
      · rintro (⟨rfl, hx⟩ | ⟨u, x, rfl, hx⟩)
        · exact ⟨[], el, rfl, hx⟩
        · exact ⟨el :: u, x, rfl, hx⟩
    rw [hcons, and_or_left, ← mem_refSuffixes, refSuffixes]
    cases hel : el.refName with
    | none => simp
    | some m' =>
      by_cases hm : grammar.names.contains m' = true
      · simp only [hm, if_true, List.mem_cons, Prod.mk.injEq, Option.some.injEq]
        refine or_congr_left ⟨?_, ?_⟩
        · rintro ⟨rfl, rfl⟩
          exact ⟨List.contains_iff_mem.mp hm, rfl, rfl⟩
        · rintro ⟨-, rfl, rfl⟩
          exact ⟨rfl, rfl⟩
      · simp only [hm, Bool.false_eq_true, if_false, Option.some.injEq]
        refine ⟨.inr, fun h => h.resolve_left ?_⟩
        rintro ⟨hmem, -, rfl⟩
        exact hm (List.contains_iff_mem.mpr hmem)

theorem mem_followRule {p m t : String} {β : Sequence} {follow : FollowSets} :
    (m, t) ∈ followRule tokens sets (p, m, β) follow ↔
      Begins tokens sets t β ∨ CanVanish sets β ∧ (p, t) ∈ follow := by
  have hmap : (m, t) ∈ followRule tokens sets (p, m, β) follow ↔
      t ∈ (firstOfSeq tokens sets β).1 ∨
        (firstOfSeq tokens sets β).2 = true ∧ t ∈ follow.get p := by
    unfold followRule
    simp only [List.mem_map, Prod.mk.injEq, true_and, exists_eq_right, List.mem_append]
    cases (firstOfSeq tokens sets β).2 <;> simp
  rw [hmap, FollowSets.mem_get, firstOfSeq, mem_firstOfSeqFrom, firstOfSeqFrom_snd]
  simp

theorem mem_references {n m : String} {β : Sequence} :
    (n, m, β) ∈ references grammar ↔ ∃ p ∈ grammar.productions, p.name = n ∧ ∃ alt ∈ p.alts,
      m ∈ grammar.names ∧ ∃ u el, alt = u ++ el :: β ∧ el.refName = some m := by
  simp only [references, List.mem_flatMap, List.mem_map, Prod.exists, Prod.mk.injEq, mem_refSuffixes]
  constructor
  · rintro ⟨p, hp, alt, halt, m', β', h, hn, rfl, rfl⟩
    exact ⟨p, hp, hn, alt, halt, h⟩
  · rintro ⟨p, hp, hn, alt, halt, h⟩
    exact ⟨p, hp, alt, halt, m, β, h, hn, rfl, rfl⟩

theorem mem_followUniverse {m t : String} :
    (m, t) ∈ followUniverse grammar tokens classSets ↔
      m ∈ grammar.names ∧ (t = "#ZZ" ∨ t ∈ tokenNames grammar tokens classSets) := by
  exact List.pair_mem_product.trans (and_congr_right' List.mem_cons)

/-- The rules of FOLLOW add pairs of a production and a token of the grammar. -/
theorem followRules_subset (hsets : ∀ f ∈ sets, f ∈ firstUniverse grammar tokens classSets) :
    ∀ r ∈ (references grammar).map (followRule tokens sets), ∀ follow : FollowSets,
      (∀ f ∈ follow, f ∈ followUniverse grammar tokens classSets) →
        ∀ f ∈ r follow, f ∈ followUniverse grammar tokens classSets := by
  rintro r hr follow hfollow ⟨m', t⟩ hf
  obtain ⟨⟨n, m, β⟩, href, rfl⟩ := List.mem_map.mp hr
  obtain ⟨p, hp, rfl, alt, halt, hm, u, el, rfl, -⟩ := mem_references.mp href
  have hname : m' = m := by
    obtain ⟨t', -, heq⟩ := List.mem_map.mp hf
    exact (Prod.mk.inj heq).1.symm
  subst hname
  refine mem_followUniverse.mpr ⟨hm, ?_⟩
  rcases mem_followRule.mp hf with hbegins | ⟨-, hmem⟩
  · refine .inr (mem_tokenNames_of_begins hsets (fun x hx => ?_) hbegins)
    refine List.mem_append_left _ (List.mem_flatMap.mpr ⟨p, hp, List.mem_flatMap.mpr ⟨_, halt, ?_⟩⟩)
    exact List.mem_map.mpr ⟨x, List.mem_append_right _ (List.mem_cons_of_mem _ hx), rfl⟩
  · exact (mem_followUniverse.mp (hfollow _ hmem)).2

variable (grammar tokens) in
/-- `#ZZ` follows the start rule, and FOLLOW holds what stands behind every reference, and what
follows its production where that may vanish. -/
structure FollowClosed (sets : FirstSets) (start : String) (follow : FollowSets) : Prop where
  of_start : start ∈ grammar.names → (start, "#ZZ") ∈ follow
  of_ref : ∀ p ∈ grammar.productions, ∀ u el β m, u ++ el :: β ∈ p.alts → el.refName = some m →
    m ∈ grammar.names → (∀ t, Begins tokens sets t β → (m, t) ∈ follow) ∧
      (CanVanish sets β → ∀ t, (p.name, t) ∈ follow → (m, t) ∈ follow)

/-- **`compute_follow_sets` ends closed.** -/
theorem computeFollowSets_closed {start : String}
    (hsets : ∀ f ∈ sets, f ∈ firstUniverse grammar tokens classSets) :
    FollowClosed grammar tokens sets start
      (computeFollowSets grammar tokens classSets sets start) := by
  have hstart : ∀ f ∈ (if grammar.names.contains start then [(start, "#ZZ")] else []),
      f ∈ followUniverse grammar tokens classSets := by
    intro f hf
    split at hf
    · next hs =>
      obtain rfl := List.mem_singleton.mp hf
      exact mem_followUniverse.mpr ⟨List.contains_iff_mem.mp hs, .inl rfl⟩
    · cases hf
  have hnd : (if grammar.names.contains start then [(start, "#ZZ")] else []).Nodup := by
    split
    · exact List.nodup_singleton _
    · exact List.nodup_nil
  have hbound : (followUniverse grammar tokens classSets).length ≤
      grammar.names.length * ((tokenNames grammar tokens classSets).length + 1) := by
    rw [followUniverse, List.length_product, List.length_cons]
  refine ⟨fun hs => ?_, fun p hp u el β m halt hel hm => ?_⟩
  · refine subset_saturate _ _ ?_
    rw [if_pos (List.contains_iff_mem.mpr hs)]
    exact List.mem_singleton.mpr rfl
  · have hclosed := closed (followRules_subset hsets) hstart hnd hbound
      (followRule tokens sets (p.name, m, β))
      (List.mem_map.mpr ⟨_, mem_references.mpr ⟨p, hp, rfl, _, halt, hm, u, el, rfl, hel⟩, rfl⟩)
    exact ⟨fun t ht => hclosed _ (mem_followRule.mpr (.inl ht)),
      fun hβ t ht => hclosed _ (mem_followRule.mpr (.inr ⟨hβ, ht⟩))⟩

/-! ## What stands behind an occurrence -/

/-- What a tail repeat unfolds to is of terminals. -/
theorem Desugared.terminal_of_tail (hg : Desugared grammar) {p : Production}
    (hp : p ∈ grammar.productions) {spec : TailRepeatSpec} (htail : p.tailRepeat = some spec)
    {alt : Sequence} (halt : alt ∈ p.alts) {k : Nat} {el : Element}
    (hel : el ∈ alt ++ (List.replicate k (spec.sep ++ alt)).flatten) : el.isTerminal = true := by
  obtain ⟨pre, halts, -, hterm⟩ := hg.tail p hp spec htail
  obtain rfl : alt = pre := by simpa [halts] using halt
  rcases List.mem_append.mp hel with hel | hel
  · exact hterm el (List.mem_append_right _ hel)
  · obtain ⟨cycle, hcycle, hel⟩ := List.mem_flatten.mp hel
    exact hterm el (List.eq_of_mem_replicate hcycle ▸ hel)

/-- A production that unfolds has its tokens in FIRST, and its name among the nullable where it may
vanish. -/
theorem FirstClosed.of_unfolds (h : FirstClosed grammar tokens classSets sets)
    (hg : Desugared grammar) {n : Element} {γ : Sequence} (hγ : Unfolds grammar classSets n γ) :
    ∃ m, n.refName = some m ∧ (∀ t, Begins tokens sets t γ → .first m t ∈ sets) ∧
      (CanVanish sets γ → sets.isNullable m = true) := by
  cases hγ with
  | @ofClass p set debt sp hp hclass =>
    refine ⟨p.name, rfl, fun t ht => ?_, fun hvanish => ?_⟩
    · obtain rfl : t = set := ht
      exact h.of_class p hp _ hclass
    · obtain ⟨m, hm, -⟩ := hvanish _ (List.mem_singleton.mpr rfl)
      cases hm
  | @ofTail p spec alt debt sp k hp hclass htail halt =>
    obtain ⟨pre, halts, hne, hterm⟩ := hg.tail p hp spec htail
    obtain rfl : alt = pre := by simpa [halts] using halt
    have hvanish : ¬ CanVanish sets alt := by
      intro hvanish
      obtain ⟨el, hel⟩ := List.exists_mem_of_ne_nil alt hne
      obtain ⟨m, hm, -⟩ := hvanish el hel
      have hterminal := hterm el (List.mem_append_right _ hel)
      cases el <;> first | cases hm; done | cases hterminal
    refine ⟨p.name, rfl, fun t ht => ?_, fun h => absurd (vanishes_append.mp h).1 hvanish⟩
    rcases begins_append.mp ht with ht | ⟨hv, -⟩
    · exact h.of_alt p hp hclass alt halt _ (altFirst_begins ht)
    · exact absurd hv hvanish
  | @ofAlt p alt debt sp hp hclass htail halt =>
    refine ⟨p.name, rfl, fun t ht => ?_, fun hvanish => ?_⟩
    · exact h.of_alt p hp hclass _ halt _ (altFirst_begins ht)
    · exact FirstSets.isNullable_iff.mpr (h.of_alt p hp hclass _ halt _ (altFirst_nullable hvanish))

variable (grammar tokens) in
/-- The suffix behind an occurrence of a production begins with tokens that follow it. -/
def Followed (sets : FirstSets) (follow : FollowSets) (n : Element) (v : Sequence) : Prop :=
  ∀ m, n.refName = some m → m ∈ grammar.names →
    (∀ t, Begins tokens sets t v → (m, t) ∈ follow) ∧ (CanVanish sets v → (m, "#ZZ") ∈ follow)

/-- The start rule has nothing behind it. -/
theorem FollowClosed.followed_start {start : String} {follow : FollowSets}
    (h : FollowClosed grammar tokens sets start follow) :
    Cf.Occurrences (Followed grammar tokens sets follow) [.reference start] := by
  intro u s v heq
  obtain ⟨rfl, hs⟩ | ⟨u', -, hs⟩ := List.cons_eq_append_iff.mp heq
  · obtain ⟨rfl, rfl⟩ := List.cons.inj hs
    intro m hm hmem
    obtain rfl : start = m := Option.some.inj hm
    exact ⟨fun t ht => ht.elim, fun _ => h.of_start hmem⟩
  · simp at hs

/-- Replacing a symbol behind an occurrence adds no token to what begins there. -/
theorem FirstClosed.followed_behind (h : FirstClosed grammar tokens classSets sets)
    (hg : Desugared grammar) {follow : FollowSets} {n s : Element} {γ w v : Sequence}
    (hγ : Unfolds grammar classSets s γ)
    (hn : Followed grammar tokens sets follow n (w ++ s :: v)) :
    Followed grammar tokens sets follow n (w ++ (γ ++ v)) := by
  obtain ⟨r, hr, hbegins, hvanish⟩ := h.of_unfolds hg hγ
  obtain ⟨debt, sp, rfl⟩ := Element.refName_eq_some.mp hr
  intro m hm hmem
  obtain ⟨htokens, hend⟩ := hn m hm hmem
  refine ⟨fun t ht => htokens t ?_, fun hv => hend ?_⟩
  · rcases begins_append.mp ht with ht | ⟨hw, ht⟩
    · exact begins_append.mpr (.inl ht)
    · refine begins_append.mpr (.inr ⟨hw, ?_⟩)
      rcases begins_append.mp ht with ht | ⟨hγ, ht⟩
      · exact .inl (hbegins t ht)
      · exact .inr ⟨hvanish hγ, ht⟩
  · obtain ⟨hw, hv⟩ := vanishes_append.mp hv
    obtain ⟨hγ, hv⟩ := vanishes_append.mp hv
    exact vanishes_append.mpr ⟨hw, List.forall_mem_cons.mpr ⟨⟨r, rfl, hvanish hγ⟩, hv⟩⟩

/-- Within a right-hand side, a reference is followed by what is behind it there, and by what
follows the symbol that is replaced where that may vanish. -/
theorem FollowClosed.followed_within {start : String} {follow : FollowSets}
    (h : FollowClosed grammar tokens sets start follow) (hg : Desugared grammar) {n s : Element}
    {w w' v : Sequence} (hs : Unfolds grammar classSets s (w ++ n :: w'))
    (hv : Followed grammar tokens sets follow s v) :
    Followed grammar tokens sets follow n (w' ++ v) := by
  intro m hm hmem
  obtain ⟨p, hp, hname, halt⟩ : ∃ p ∈ grammar.productions, s.refName = some p.name ∧
      w ++ n :: w' ∈ p.alts := by
    have hmem : n ∈ w ++ n :: w' := List.mem_append_right _ List.mem_cons_self
    generalize hγ : w ++ n :: w' = γ at hs hmem ⊢
    cases hs with
    | ofClass hp hclass =>
      rw [List.mem_singleton.mp hmem] at hm
      cases hm
    | ofTail k hp hclass htail halt =>
      -- a tail repeat is of terminals
      have hterm := hg.terminal_of_tail hp htail halt hmem
      obtain ⟨debt, sp, rfl⟩ := Element.refName_eq_some.mp hm
      cases hterm
    | ofAlt hp hclass htail halt => exact ⟨_, hp, rfl, halt⟩
  obtain ⟨htokens, hend⟩ := hv p.name hname (mem_namesOf.mpr ⟨p, hp, rfl⟩)
  obtain ⟨hbegins, hfollow⟩ := h.of_ref p hp w n w' m halt hm hmem
  refine ⟨fun t ht => ?_, fun hvanish => ?_⟩
  · rcases begins_append.mp ht with ht | ⟨hw', ht⟩
    · exact hbegins t ht
    · exact hfollow hw' t (htokens t ht)
  · obtain ⟨hw', hvanish⟩ := vanishes_append.mp hvanish
    exact hfollow hw' _ (hend hvanish)

variable (tokens) in
/-- What a derivation from the start rule puts behind a production is in its set. -/
theorem followed_of_derives (hg : Desugared grammar) {start : String} {β : Sequence}
    (h : Cf.Derives (Unfolds grammar classSets) [.reference start] β) :
    Cf.Occurrences (Followed grammar tokens (computeFirstSets grammar tokens classSets)
      (computeFollowSets grammar tokens classSets (computeFirstSets grammar tokens classSets) start))
      β := by
  have hfirst : FirstClosed grammar tokens classSets (computeFirstSets grammar tokens classSets) :=
    computeFirstSets_closed
  have hclosed : FollowClosed grammar tokens (computeFirstSets grammar tokens classSets) start
      (computeFollowSets grammar tokens classSets (computeFirstSets grammar tokens classSets)
        start) := computeFollowSets_closed computeFirstSets_subset
  exact Cf.derives_occurrences (fun n s γ w v => hfirst.followed_behind hg)
    (fun n s w w' v => hclosed.followed_within hg) h hclosed.followed_start

/-- **FOLLOW is complete.** In every derivation from the start rule, the token behind an occurrence
of a production is in its set, and `#ZZ` is when nothing is behind it. -/
theorem computeFollowSets_complete (hg : Desugared grammar) (start : String) {p : Production}
    (hp : p ∈ grammar.productions) (debt : Option (List (String × Int))) (sp : Option SrcSpan)
    (u : Sequence) :
    let follow := computeFollowSets grammar tokens classSets
      (computeFirstSets grammar tokens classSets) start
    (∀ el v, el.isTerminal = true →
      Cf.Derives (Unfolds grammar classSets) [.reference start]
        (u ++ .ref p.name debt sp :: el :: v) → tokens.name el ∈ follow.get p.name) ∧
    (Cf.Derives (Unfolds grammar classSets) [.reference start] (u ++ [.ref p.name debt sp]) →
      "#ZZ" ∈ follow.get p.name) := by
  intro follow
  have hfirst : FirstClosed grammar tokens classSets (computeFirstSets grammar tokens classSets) :=
    computeFirstSets_closed
  have hclosed : FollowClosed grammar tokens (computeFirstSets grammar tokens classSets) start
      follow := computeFollowSets_closed computeFirstSets_subset
  have hname : p.name ∈ grammar.names := mem_namesOf.mpr ⟨p, hp, rfl⟩
  have hall : ∀ β, Cf.Derives (Unfolds grammar classSets) [.reference start] β →
      Cf.Occurrences (Followed grammar tokens (computeFirstSets grammar tokens classSets) follow)
        β := fun β h => Cf.derives_occurrences
    (fun n s γ w v => hfirst.followed_behind hg) (fun n s w w' v => hclosed.followed_within hg) h
    hclosed.followed_start
  refine ⟨fun el v hel h => ?_, fun h => ?_⟩
  · obtain ⟨hbegins, -⟩ := hall _ h u _ _ rfl p.name rfl hname
    refine FollowSets.mem_get.mpr (hbegins _ ?_)
    cases el <;> first | rfl | cases hel
  · obtain ⟨-, hvanish⟩ := hall _ h u _ [] rfl p.name rfl hname
    exact FollowSets.mem_get.mpr (hvanish fun _ hx => absurd hx List.not_mem_nil)

end

/-! ## A list, and a token class -/

/-- In `numberLists` a list is followed by the next one, or by nothing. -/
theorem computeFollowSets_complete_numberLists :
    "#NR" ∈ (computeFollowSets numberLists {} [] (computeFirstSets numberLists {} []) "S").get "X" ∧
    "#ZZ" ∈ (computeFollowSets numberLists {} [] (computeFirstSets numberLists {} []) "S").get
      "X" := by
  let S : Element := .reference "S"
  let X : Element := .reference "X"
  have hS : ∀ alt ∈ numberLists.productions[0].alts, Unfolds numberLists [] S alt :=
    fun alt halt => .ofAlt (p := numberLists.productions[0]) List.mem_cons_self rfl rfl halt
  have hX : Unfolds numberLists [] X [.token "#NR" none, .token "#CA" none, .token "#NR" none] :=
    .ofTail (p := numberLists.productions[1]) 1 (by simp [numberLists]) rfl rfl
      (List.mem_singleton.mpr rfl)
  have hmore := hS [X, S] (by simp [numberLists, X, S])
  have hone : Cf.Derives (Unfolds numberLists []) [S] [X, S] :=
    .single (Cf.Rewrite.mk [] [] hmore)
  have hend : Cf.Derives (Unfolds numberLists []) [S] [X] :=
    hone.tail (Cf.Rewrite.mk [X] [] (hS [] (by simp [numberLists])))
  have htwo := (hone.tail (Cf.Rewrite.mk [X] [] hmore)).tail (Cf.Rewrite.mk [X] [S] hX)
  obtain ⟨hnext, hlast⟩ := @computeFollowSets_complete numberLists {} [] desugared_numberLists "S"
    numberLists.productions[1] (by simp [numberLists]) none none []
  exact ⟨hnext _ _ rfl htwo, hlast hend⟩

/-- `S = P C`, `P = #TX`, `C = #NR / #ST`. -/
def classBehind : Grammar where
  productions :=
    [{ name := "S", alts := [[.reference "P", .reference "C"]] },
     { name := "P", alts := [[.token "#TX" none]] },
     { name := "C", alts := [[.token "#NR" none], [.token "#ST" none]] }]

/-- Of the token class `C` FOLLOW has the set, not the members its alternatives derive. -/
theorem computeFollowSets_class :
    ¬ ∀ (grammar : Grammar) (classSets : List (String × String)) (start : String), Desugared grammar →
      ∀ p ∈ grammar.productions, ∀ u el v, el.isTerminal = true →
        Cf.Derives (Unfolds grammar []) [.reference start]
          (u ++ .ref p.name none none :: el :: v) →
        Tokens.name {} el ∈ (computeFollowSets grammar {} classSets
          (computeFirstSets grammar {} classSets) start).get p.name := by
  intro h
  have hshape : Desugared classBehind := by
    refine ⟨by simp [Plain, classBehind, Element.reference, Element.isTerminal, Element.isRef], ?_⟩
    simp [TailOfTerminals, classBehind]
  have hS : Unfolds classBehind [] (.reference "S") [.reference "P", .reference "C"] :=
    .ofAlt (p := classBehind.productions[0]) List.mem_cons_self rfl rfl (List.mem_singleton.mpr rfl)
  have hC : Unfolds classBehind [] (.reference "C") [.token "#NR" none] :=
    .ofAlt (p := classBehind.productions[2]) (by simp [classBehind]) rfl rfl List.mem_cons_self
  have hone : Cf.Derives (Unfolds classBehind []) [.reference "S"] [.reference "P", .reference "C"] :=
    .single (Cf.Rewrite.mk [] [] hS)
  have hderives := hone.tail (Cf.Rewrite.mk [Element.reference "P"] [] hC)
  have hfollow := h classBehind [("C", "#C")] "S" hshape classBehind.productions[1]
    (by simp [classBehind]) [] (.token "#NR" none) [] rfl hderives
  exact absurd hfollow (by decide +kernel)

end TabnasBnf
