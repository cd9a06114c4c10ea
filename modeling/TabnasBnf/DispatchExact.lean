import TabnasBnf.FollowCovers

/-!
# Dispatch prefixes are exact

The paths of `alt_prefixes_raw`, without a head filter, against the derivations of the alternative
(`altPrefixesRaw_exact`): each begins a sentential form of it, and is all of it unless truncated or
as long as the window; each token string begins with one; one that is empty and not truncated says
that the alternative may vanish.

* `Begun` relates a path to the form it begins; `walk_begun` is the step over the elements.
* A truncation never hides that the alternative vanishes: a name is known to vanish by way of names
  known earlier (`VanishesWithin`), none of which is on the way (`mem_altPrefixesRaw_nil`).
-/

namespace TabnasBnf

open Saturate

section

variable {grammar : Grammar} {tokens : Tokens} {classSets : List (String × String)}

/-- The depth is enough: what is enumerated no longer depends on it once it is more than the
productions not entered. -/
theorem altPrefixesRaw_stable (depth : Nat) : ∀ (k : Nat) (visited : List String)
    (headFilter : String → Bool) (alt : Sequence), (unvisited grammar visited).length < depth →
      altPrefixesRaw grammar tokens classSets (depth + 1) k visited headFilter alt =
        altPrefixesRaw grammar tokens classSets depth k visited headFilter alt := by
  induction depth with
  | zero => exact fun _ _ _ _ h => absurd h (Nat.not_lt_zero _)
  | succ depth ih =>
    intro k visited headFilter alt hlt
    have hstep : extendPath grammar tokens classSets
        (altPrefixesRaw grammar tokens classSets (depth + 1)) k visited headFilter =
      extendPath grammar tokens classSets (altPrefixesRaw grammar tokens classSets depth) k visited
        headFilter := by
      funext el p
      unfold extendPath
      split
      · rfl
      split
      · rfl
      next name _ =>
      split
      · rfl
      next hvisited =>
      split
      · rfl
      next found hfound =>
      have hfind := (Option.filter_eq_some_iff.mp hfound).1
      have hless := length_unvisited_cons (mem_names_of_find hfind).1 (by simpa using hvisited)
      dsimp only
      simp only [ih _ (name :: visited) _ _ (by omega)]
    rw [altPrefixesRaw, altPrefixesRaw, hstep]

/-- An alternative needs one more than the productions there are. -/
theorem altPrefixesRaw_eq_enumerate {depth : Nat} (h : grammar.productions.length < depth) (k : Nat)
    (headFilter : String → Bool) (alt : Sequence) :
    altPrefixesRaw grammar tokens classSets depth k [] headFilter alt =
      enumerate grammar tokens classSets k headFilter alt := by
  have hlen := @length_unvisited_nil grammar
  induction depth, h using Nat.le_induction with
  | base => rfl
  | succ depth hle ih =>
    rw [← ih]
    exact altPrefixesRaw_stable depth k [] headFilter alt (by omega)

/-! ## What a path begins -/

variable (tokens) in
/-- Terminals that spell the tokens. -/
def SpellsTokens (γ : Sequence) (w : List String) : Prop :=
  (∀ el ∈ γ, el.isTerminal = true) ∧ γ.map tokens.name = w

theorem SpellsTokens.append {γ γ' : Sequence} {w w' : List String} (h : SpellsTokens tokens γ w)
    (h' : SpellsTokens tokens γ' w') : SpellsTokens tokens (γ ++ γ') (w ++ w') :=
  ⟨List.forall_mem_append.mpr ⟨h.1, h'.1⟩, by rw [List.map_append, h.2, h'.2]⟩

theorem SpellsTokens.mem_seq {γ : Sequence} {w : List String} (h : SpellsTokens tokens γ w)
    (ρ : Env String) :
    w ∈ Cf.seq (den (tokenLeaf tokens) ρ) γ := by
  obtain ⟨hterm, rfl⟩ := h
  induction γ with
  | nil => rfl
  | cons el γ ih =>
    obtain ⟨hel, hγ⟩ := List.forall_mem_cons.mp hterm
    rw [Cf.seq_cons, den_terminal hel]
    exact Language.append_mem_mul (show [tokens.name el] ∈ tokenLeaf tokens el from rfl) (ih hγ)

variable (grammar tokens classSets) in
/-- The path begins a sentential form of the sequence, which holds no more when the path is neither
truncated nor as long as the window. -/
def Begun (k : Nat) (α : Sequence) (q : PrefixPath) : Prop :=
  ∃ γ δ, Cf.Derives (Unfolds grammar classSets) α (γ ++ δ) ∧ SpellsTokens tokens γ q.tokens ∧
    (q.done = false → q.tokens.length < k → δ = [])

/-- A path that was cut before it gained a token. -/
theorem begun_cut {k : Nat} (α : Sequence) {q : PrefixPath} (htokens : q.tokens = [])
    (hcut : q.done = true ∨ k = 0) : Begun grammar tokens classSets k α q := by
  refine ⟨[], α, .refl, ⟨by simp, by rw [htokens]; rfl⟩, fun hdone hlt => ?_⟩
  rcases hcut with h | rfl
  · rw [hdone] at h
    cases h
  · exact absurd hlt (Nat.not_lt_zero _)

/-- What an element begins, and what follows it. -/
theorem Begun.cons {k : Nat} {el : Element} {β γ : Sequence} {v v' : List String} {done : Bool}
    (hel : Cf.Derives (Unfolds grammar classSets) [el] γ) (hγ : SpellsTokens tokens γ v)
    (h : Begun grammar tokens classSets (k - v.length) β ⟨v', done⟩) :
    Begun grammar tokens classSets k (el :: β) ⟨v ++ v', done⟩ := by
  obtain ⟨γ', δ, hβ, hγ', hwhole⟩ := h
  refine ⟨γ ++ γ', δ, ?_, hγ.append hγ', fun hdone hlt => hwhole hdone ?_⟩
  · rw [List.append_assoc]
    exact Cf.derives_append hel hβ
  · dsimp only at hlt ⊢
    rw [List.length_append] at hlt
    omega

/-- What an element begins, cut within it. -/
theorem Begun.within {k : Nat} {el : Element} (β : Sequence) {q : PrefixPath}
    (h : Begun grammar tokens classSets k [el] q) (hcut : q.done = true ∨ k ≤ q.tokens.length) :
    Begun grammar tokens classSets k (el :: β) q := by
  obtain ⟨γ, δ, hel, hγ, -⟩ := h
  refine ⟨γ, δ ++ β, ?_, hγ, fun hdone hlt => ?_⟩
  · rw [← List.append_assoc]
    exact Cf.derives_append hel .refl
  · rcases hcut with h | h
    · rw [hdone] at h
      cases h
    · omega

/-- No production repeats a tail, and the token classes are productions. -/
structure Unrepeated (grammar : Grammar) (classSets : List (String × String)) : Prop where
  plain : Plain grammar
  tail : ∀ p ∈ grammar.productions, p.tailRepeat = none
  named : ∀ n set, classSets.lookup n = some set → n ∈ grammar.names

/-- The token an element adds is one it derives. -/
theorem Unrepeated.spells_added (hg : Unrepeated grammar classSets) {el : Element} {tok : String}
    (h : addedToken tokens classSets el = some tok) :
    ∃ γ, Cf.Derives (Unfolds grammar classSets) [el] γ ∧ SpellsTokens tokens γ [tok] := by
  have hterm : el.isTerminal = true → some (tokens.name el) = some tok →
      ∃ γ, Cf.Derives (Unfolds grammar classSets) [el] γ ∧ SpellsTokens tokens γ [tok] :=
    fun hterm htok => ⟨[el], .refl, by simpa using hterm,
      congrArg (fun t => [t]) (Option.some.inj htok)⟩
  cases el with
  | term literal caseSensitive tokenName sp => exact hterm rfl h
  | regex pattern flags sp => exact hterm rfl h
  | token name sp => exact hterm rfl h
  | ref m debt sp =>
    obtain ⟨p, hp, rfl⟩ := mem_namesOf.mp (hg.named m tok h)
    have hunfolds : Cf.Rewrite (Unfolds grammar classSets) ([] ++ .ref p.name debt sp :: [])
        ([] ++ [.token tok none] ++ []) := .mk [] [] (.ofClass hp h)
    exact ⟨[.token tok none], .single hunfolds, by simp [Element.isTerminal], rfl⟩
  | _ => cases h

/-- What a reference contributes is begun by the reference. -/
theorem Unrepeated.begun_ref (hg : Unrepeated grammar classSets) {k : Nat} {p : Production}
    {sub : Sequence} {debt : Option (List (String × Int))} {sp : Option SrcSpan}
    (hp : p ∈ grammar.productions) (hclass : classSets.lookup p.name = none) (hsub : sub ∈ p.alts)
    {q : PrefixPath} (h : Begun grammar tokens classSets k sub q) :
    Begun grammar tokens classSets k [.ref p.name debt sp] q := by
  obtain ⟨γ, δ, hderives, hγ, hwhole⟩ := h
  have hunfolds : Cf.Rewrite (Unfolds grammar classSets) ([] ++ .ref p.name debt sp :: [])
      ([] ++ sub ++ []) := .mk [] [] (.ofAlt hp hclass (hg.tail p hp) hsub)
  rw [List.append_nil] at hunfolds
  exact ⟨γ, δ, .head hunfolds hderives, hγ, hwhole⟩

/-- What `extendPath` makes of a path: it cuts it, at a name it is within or one without
alternatives if at a reference, adds a token, or enters a reference. -/
theorem mem_extendPath_cases {enter : Nat → List String → (String → Bool) → Sequence →
      List PrefixPath} {k : Nat} {visited : List String} {el : Element} {w : List String}
    {r : PrefixPath}
    (h : r ∈ extendPath grammar tokens classSets enter k visited (fun _ => true) el ⟨w, false⟩) :
    (r = ⟨w, true⟩ ∧ addedToken tokens classSets el = none ∧ ∀ m, el.refName = some m →
        m ∈ visited ∨ ∀ p, grammar.find m = some p → p.alts = []) ∨
      (∃ tok, addedToken tokens classSets el = some tok ∧ r = ⟨w ++ [tok], false⟩) ∨
      ∃ p sub q, el.refName = some p.name ∧ classSets.lookup p.name = none ∧ p.name ∉ visited ∧
        grammar.find p.name = some p ∧ sub ∈ p.alts ∧
        q ∈ enter (k - w.length) (p.name :: visited) (fun _ => true) sub ∧
          r = ⟨w ++ q.tokens, q.done⟩ := by
  cases hadded : addedToken tokens classSets el with
  | some tok =>
    rw [extendPath_token hadded] at h
    exact .inr (.inl ⟨tok, rfl, List.mem_singleton.mp h⟩)
  | none =>
    unfold extendPath at h
    rw [hadded] at h
    dsimp only at h
    split at h
    · next href =>
      refine .inl ⟨List.mem_singleton.mp h, rfl, fun m hm => ?_⟩
      rw [href] at hm
      cases hm
    next name href =>
    split at h
    · next hvisited =>
      refine .inl ⟨List.mem_singleton.mp h, rfl, fun m hm => .inl ?_⟩
      obtain rfl := Option.some.inj (href.symm.trans hm)
      exact List.contains_iff_mem.mp hvisited
    next hvisited =>
    split at h
    · next hnone =>
      refine .inl ⟨List.mem_singleton.mp h, rfl, fun m hm => .inr fun p hfind => ?_⟩
      obtain rfl := Option.some.inj (href.symm.trans hm)
      simpa [hfind] using hnone
    next found hfound =>
    obtain ⟨hfind, -⟩ := Option.filter_eq_some_iff.mp hfound
    obtain ⟨-, -, rfl⟩ := mem_names_of_find hfind
    have hclass : classSets.lookup found.name = none := by
      obtain ⟨debt, sp, rfl⟩ := Element.refName_eq_some.mp href
      exact hadded
    rw [ite_self, List.mem_flatMap] at h
    obtain ⟨sub, hsub, h⟩ := h
    obtain ⟨q, hq, rfl⟩ := List.mem_map.mp h
    exact .inr (.inr ⟨found, sub, q, href, hclass, by simpa using hvisited, hfind, hsub, hq, rfl⟩)

/-- **The step.** What a path grows into over the elements begins a form of what is left of them. -/
theorem Unrepeated.walk_begun (hg : Unrepeated grammar classSets) {depth k : Nat}
    {visited : List String}
    (henter : ∀ k' visited' sub, (∀ el ∈ sub, el.isTerminal = true ∨ el.isRef = true) →
      ∀ q ∈ altPrefixesRaw grammar tokens classSets depth k' visited' (fun _ => true) sub,
        Begun grammar tokens classSets k' sub q) :
    ∀ (β : Sequence) (w : List String) (q : PrefixPath),
      q ∈ walk (extendAt grammar tokens classSets depth k visited) k β ⟨w, false⟩ →
        ∃ v, q.tokens = w ++ v ∧ Begun grammar tokens classSets (k - w.length) β ⟨v, q.done⟩
  | [], w, q, hq => by
    obtain rfl := List.mem_singleton.mp hq
    exact ⟨[], by simp, [], [], .refl, ⟨by simp, rfl⟩, fun _ _ => rfl⟩
  | el :: β, w, q, hq => by
    by_cases hfull : k ≤ w.length
    · rw [walk_closed (by simpa [PrefixPath.closed] using hfull)] at hq
      obtain rfl := List.mem_singleton.mp hq
      exact ⟨[], by simp, begun_cut _ rfl (.inr (by omega))⟩
    · have hopen : PrefixPath.closed k ⟨w, false⟩ = false := by
        simpa [PrefixPath.closed] using hfull
      simp only [walk, hopen, Bool.false_eq_true, if_false, List.mem_flatMap] at hq
      obtain ⟨r, hr, hq⟩ := hq
      rcases mem_extendPath_cases hr with ⟨rfl, -⟩ | ⟨tok, hadded, rfl⟩ |
        ⟨p, sub, sq, href, hclass, -, hfind, hsub, hsq, rfl⟩
      · rw [walk_closed (by simp [PrefixPath.closed])] at hq
        obtain rfl := List.mem_singleton.mp hq
        exact ⟨[], by simp, begun_cut _ rfl (.inl rfl)⟩
      · obtain ⟨v, hv, hbegun⟩ := Unrepeated.walk_begun hg henter β (w ++ [tok]) q hq
        obtain ⟨γ, hel, hγ⟩ := hg.spells_added hadded
        refine ⟨[tok] ++ v, by rw [hv, List.append_assoc], Begun.cons hel hγ ?_⟩
        rwa [List.length_append, ← Nat.sub_sub] at hbegun
      · have hp : p ∈ grammar.productions := List.mem_of_find?_eq_some hfind
        obtain ⟨debt, sp, rfl⟩ := Element.refName_eq_some.mp href
        have hbegun : Begun grammar tokens classSets (k - w.length) [.ref p.name debt sp] sq :=
          hg.begun_ref hp hclass hsub (henter _ _ sub (hg.plain p hp sub hsub) sq hsq)
        by_cases hclosed : sq.done = true ∨ k - w.length ≤ sq.tokens.length
        · rw [walk_closed] at hq
          · obtain rfl := List.mem_singleton.mp hq
            exact ⟨sq.tokens, rfl, hbegun.within β hclosed⟩
          · simp only [PrefixPath.closed, List.length_append, ge_iff_le, Bool.or_eq_true,
              decide_eq_true_eq]
            exact hclosed.imp_right fun h => by omega
        · -- all of the alternative, and the path goes on
          rw [not_or, Bool.not_eq_true, not_le] at hclosed
          obtain ⟨hdone, hlt⟩ := hclosed
          rw [hdone] at hq
          obtain ⟨v, hv, hrest⟩ := Unrepeated.walk_begun hg henter β (w ++ sq.tokens) q hq
          obtain ⟨γ, δ, hel, hγ, hwhole⟩ := hbegun
          obtain rfl := hwhole hdone hlt
          rw [List.append_nil] at hel
          refine ⟨sq.tokens ++ v, by rw [hv, List.append_assoc], Begun.cons hel hγ ?_⟩
          rwa [List.length_append, ← Nat.sub_sub] at hrest

/-- **Every path begins a sentential form.** -/
theorem Unrepeated.begun (hg : Unrepeated grammar classSets) : ∀ (depth k : Nat)
    (visited : List String) (alt : Sequence),
    (∀ el ∈ alt, el.isTerminal = true ∨ el.isRef = true) →
      ∀ q ∈ altPrefixesRaw grammar tokens classSets depth k visited (fun _ => true) alt,
        Begun grammar tokens classSets k alt q := by
  intro depth
  induction depth with
  | zero => exact fun _ _ _ _ q hq => by cases hq
  | succ depth ih =>
    intro k visited alt _ q hq
    rw [altPrefixesRaw_succ] at hq
    obtain ⟨v, hv, hbegun⟩ := hg.walk_begun ih alt [] q hq
    obtain rfl : q.tokens = v := hv
    exact hbegun

/-! ## What may vanish -/

variable (grammar classSets) in
/-- The name may vanish, by way of names known to in fewer rounds. -/
def VanishesWithin : Nat → String → Prop
  | 0, _ => False
  | i + 1, n => classSets.lookup n = none ∧ ∃ p, grammar.find n = some p ∧ ∃ alt ∈ p.alts,
      ∀ el ∈ alt, ∃ m, el.refName = some m ∧ VanishesWithin i m

theorem VanishesWithin.succ : ∀ {i : Nat} {n : String}, VanishesWithin grammar classSets i n →
    VanishesWithin grammar classSets (i + 1) n
  | _ + 1, _, ⟨hclass, p, hfind, alt, halt, hall⟩ =>
    ⟨hclass, p, hfind, alt, halt, fun el hel => (hall el hel).imp fun _ h => ⟨h.1, h.2.succ⟩⟩

theorem VanishesWithin.mono {i j : Nat} (hij : i ≤ j) {n : String}
    (h : VanishesWithin grammar classSets i n) : VanishesWithin grammar classSets j n := by
  induction hij with
  | refl => exact h
  | step _ ih => exact ih.succ

/-- The round a name is first known in. -/
theorem VanishesWithin.least : ∀ {i : Nat} {n : String}, VanishesWithin grammar classSets i n →
    ∃ j < i, VanishesWithin grammar classSets (j + 1) n ∧ ¬ VanishesWithin grammar classSets j n
  | i + 1, n, h => by
    by_cases hi : VanishesWithin grammar classSets i n
    · obtain ⟨j, hj, hleast⟩ := hi.least
      exact ⟨j, by omega, hleast⟩
    · exact ⟨i, Nat.lt_succ_self i, h, hi⟩

/-- References that may all vanish do within some number of rounds. -/
theorem exists_rounds : ∀ {α : Sequence},
    (∀ el ∈ α, ∃ m, el.refName = some m ∧ ∃ i, VanishesWithin grammar classSets i m) →
      ∃ i, ∀ el ∈ α, ∃ m, el.refName = some m ∧ VanishesWithin grammar classSets i m
  | [], _ => ⟨0, by simp⟩
  | el :: α, h => by
    obtain ⟨⟨m, hm, i, hi⟩, hα⟩ := List.forall_mem_cons.mp h
    obtain ⟨j, hj⟩ := exists_rounds hα
    refine ⟨max i j, List.forall_mem_cons.mpr ⟨⟨m, hm, hi.mono (le_max_left i j)⟩, fun x hx => ?_⟩⟩
    exact (hj x hx).imp fun _ h => ⟨h.1, h.2.mono (le_max_right i j)⟩

/-- FIRST says of no other name that it may vanish. -/
theorem rounds_of_nullable (hnd : grammar.names.Nodup) {m : String}
    (h : (computeFirstSets grammar tokens classSets).isNullable m = true) :
    ∃ i, VanishesWithin grammar classSets i m := by
  have hfacts : ∀ f ∈ computeFirstSets grammar tokens classSets, ∀ m, f = .nullable m →
      ∃ i, VanishesWithin grammar classSets i m := by
    refine subset_of_closed (C := fun f => ∀ m, f = FirstFact.nullable m →
      ∃ i, VanishesWithin grammar classSets i m) ?_ _ ?_
    · intro r hr sets hsets f hf m hfm
      obtain ⟨p, hp, hr⟩ := List.mem_flatMap.mp hr
      split at hr
      · cases hr
      · next hclass =>
        obtain ⟨α, hα, rfl⟩ := List.mem_map.mp hr
        subst hfm
        obtain ⟨rfl, hall⟩ := nullable_mem_altFirst hf
        obtain ⟨i, hi⟩ := exists_rounds fun el hel =>
          (hall el hel).imp fun n hn => ⟨hn.1, hsets _ (FirstSets.isNullable_iff.mp hn.2) n rfl⟩
        refine ⟨i + 1, Option.not_isSome_iff_eq_none.mp hclass, p, find_of_mem hnd hp, α, hα, hi⟩
    · intro f hf m hfm
      obtain ⟨p, -, hset⟩ := List.mem_filterMap.mp ((mem_addAll.mp hf).resolve_left (by simp))
      obtain ⟨set, -, rfl⟩ := Option.map_eq_some_iff.mp hset
      cases hfm
  exact hfacts _ (FirstSets.isNullable_iff.mp h) m rfl

/-- **An alternative that may vanish has a path that says so**, as long as no name on the way is
known to vanish as early. -/
theorem mem_altPrefixesRaw_nil {k : Nat} (hk : 0 < k) (i : Nat) : ∀ (depth : Nat)
    (visited : List String) (alt : Sequence), (unvisited grammar visited).length < depth →
      (∀ v ∈ visited, ¬ VanishesWithin grammar classSets i v) →
      (∀ el ∈ alt, ∃ m, el.refName = some m ∧ VanishesWithin grammar classSets i m) →
        ⟨[], false⟩ ∈ altPrefixesRaw grammar tokens classSets depth k visited (fun _ => true) alt := by
  induction i using Nat.strong_induction_on with
  | _ i ih =>
    intro depth visited alt hdepth hvisited halt
    obtain ⟨depth, rfl⟩ : ∃ d, depth = d + 1 := ⟨depth - 1, by omega⟩
    rw [altPrefixesRaw_succ]
    induction alt with
    | nil => exact List.mem_singleton.mpr rfl
    | cons el β ihβ =>
      obtain ⟨⟨m, hm, hrounds⟩, hβ⟩ := List.forall_mem_cons.mp halt
      obtain ⟨debt, sp, rfl⟩ := Element.refName_eq_some.mp hm
      obtain ⟨j, hj, hearlier, hleast⟩ := hrounds.least
      obtain ⟨hclass, p, hfind, sub, hsub, hrefs⟩ := hearlier
      have hnot : m ∉ visited := fun hmem => hvisited m hmem hrounds
      have hless := length_unvisited_cons (mem_names_of_find hfind).1 hnot
      have hnil : ⟨[], false⟩ ∈ altPrefixesRaw grammar tokens classSets depth
          (k - ([] : List String).length) (m :: visited) (fun _ => true) sub := by
        refine ih j hj depth (m :: visited) sub (by omega) ?_ hrefs
        rw [List.forall_mem_cons]
        exact ⟨hleast, fun v hv hwithin => hvisited v hv (hwithin.mono (by omega))⟩
      exact mem_walk_cons (w := []) (by simpa using hk.ne')
        (mem_extendAt_ref hclass hnot hfind hsub hnil) (ihβ hβ)

/-- What derives the empty form, FIRST says may vanish. -/
theorem FirstClosed.canVanish {sets : FirstSets} (h : FirstClosed grammar tokens classSets sets)
    (hg : Desugared grammar) {α : Sequence} (hα : Cf.Derives (Unfolds grammar classSets) α []) :
    CanVanish sets α := by
  induction hα using Relation.ReflTransGen.head_induction_on with
  | refl => exact fun _ hel => by cases hel
  | head hstep _ ih =>
    cases hstep with
    | @mk s γ u v hs =>
      obtain ⟨m, hm, -, hvanish⟩ := h.of_unfolds hg hs
      obtain ⟨hu, hv⟩ := vanishes_append.mp ih
      obtain ⟨hu, hγ⟩ := vanishes_append.mp hu
      exact vanishes_append.mpr ⟨hu, List.forall_mem_cons.mpr ⟨⟨m, hm, hvanish hγ⟩, hv⟩⟩

/-! ## The enumeration -/

/-- Without tail repeats the alternatives are all that is derived. -/
theorem Unrepeated.tailLang_eq (hg : Unrepeated grammar classSets) :
    tailLang grammar tokens classSets = altsLang grammar tokens classSets := by
  have hread : grammar.productions.map (fun p => readClass classSets (readTail p)) =
      grammar.productions.map (readClass classSets) := by
    refine List.map_congr_left fun p hp => ?_
    have htail : readTail p = p := by rw [readTail, hg.tail p hp]
    rw [htail]
  unfold tailLang altsLang
  rw [hread]

/-- A reference derives what it may be replaced by. -/
theorem Unrepeated.unfolds_le (hg : Unrepeated grammar classSets) {el : Element} {γ : Sequence}
    (h : Unfolds grammar classSets el γ) :
    Cf.seq (den (tokenLeaf tokens) (tailLang grammar tokens classSets)) γ ≤
      den (tokenLeaf tokens) (tailLang grammar tokens classSets) el := by
  intro w hw
  cases h with
  | @ofClass p set debt sp hp hclass =>
    have hname : (readTail p).name = p.name := by rw [readTail, hg.tail p hp]
    rw [den_ref]
    refine mem_nameLang_iff_alts.mpr ⟨_, List.mem_map_of_mem hp, ?_, mem_altsDen.mpr ⟨_, ?_, hw⟩⟩
    · rw [readClass, hname, hclass]
    · rw [readClass, hname, hclass]
      exact List.mem_singleton.mpr rfl
  | ofTail k hp hclass htail halt =>
    rw [hg.tail _ hp] at htail
    cases htail
  | @ofAlt p alt debt sp hp hclass htail halt =>
    rw [den_ref]
    refine mem_tailLang hp hclass (mem_altsDen.mpr ⟨γ, ?_, hw⟩)
    rw [readTail, htail]
    exact halt

/-- Every string of an alternative begins with a path. -/
theorem exists_path (hnd : grammar.names.Nodup) (hplain : Plain grammar) {alt : Sequence}
    (halt : ∀ el ∈ alt, el.isTerminal = true ∨ el.isRef = true) (k : Nat) {u : List String}
    (hu : u ∈ Cf.seq (den (tokenLeaf tokens) (altsLang grammar tokens classSets)) alt) :
    ∃ q ∈ enumerate grammar tokens classSets k (fun _ => true) alt, Covers k q u := by
  have hS : Closed grammar tokens classSets ∅ := fun n hn => absurd hn (Set.notMem_empty n)
  have hlisted : u ∈ Cf.seq (den (tokenLeaf tokens) (Listed grammar tokens classSets ∅)) alt :=
    seqDen_mono (fun n _ => altsLang_le_listed hnd hplain hS n) hu
  obtain ⟨q, hq, hcovers, -⟩ := walk_covers (k := k) hS length_unvisited_nil alt halt [] u hlisted
  refine ⟨q, ?_, hcovers⟩
  rw [enumerate, altPrefixesRaw_succ]
  exact hq

/-- An alternative has a path that says it may vanish exactly when FIRST says so. -/
theorem Unrepeated.nil_path_iff (hg : Unrepeated grammar classSets) (hnd : grammar.names.Nodup)
    (hshape : Desugared grammar) {alt : Sequence}
    (halt : ∀ el ∈ alt, el.isTerminal = true ∨ el.isRef = true) {k : Nat} (hk : 0 < k) :
    ⟨[], false⟩ ∈ enumerate grammar tokens classSets k (fun _ => true) alt ↔
      (firstOfSeq tokens (computeFirstSets grammar tokens classSets) alt).2 = true := by
  rw [firstOfSeq, firstOfSeqFrom_snd]
  constructor
  · intro hmem
    obtain ⟨γ, δ, hderives, ⟨-, hγ⟩, hwhole⟩ := hg.begun _ k [] alt halt _ hmem
    obtain rfl := hwhole rfl hk
    obtain rfl := List.map_eq_nil_iff.mp hγ
    exact computeFirstSets_closed.canVanish hshape hderives
  · intro hvanish
    obtain ⟨i, hi⟩ := exists_rounds fun el hel =>
      (hvanish el hel).imp fun m hm => ⟨hm.1, rounds_of_nullable hnd hm.2⟩
    have hlen := @length_unvisited_nil grammar
    exact mem_altPrefixesRaw_nil hk i _ [] alt (by omega) (by simp) hi

end

/-- **The paths of an alternative are exact**, in a desugared grammar that repeats no tail: any depth
beyond the number of productions gives the same ones; each begins a sentential form of the
alternative, and is a string of it when it is shorter than the window and not truncated; each string
begins with one; and the empty one that is not truncated is there just when FIRST says the
alternative may vanish. -/
theorem altPrefixesRaw_exact {S : Setting} {grammar : Grammar} (c : Compile S grammar)
    (tokens : Tokens) {classSets : List (String × String)}
    (hnamed : ∀ n set, classSets.lookup n = some set → n ∈ c.desugared.names)
    (htail : ∀ p ∈ c.desugared.productions, p.tailRepeat = none) {p : Production}
    (hp : p ∈ c.desugared.productions) {alt : Sequence} (halt : alt ∈ p.alts) {k : Nat}
    (hk : 0 < k) :
    let paths := enumerate c.desugared tokens classSets k (fun _ => true) alt
    let strings := Cf.seq (den (tokenLeaf tokens) (tailLang c.desugared tokens classSets)) alt
    (∀ depth, c.desugared.productions.length < depth →
      altPrefixesRaw c.desugared tokens classSets depth k [] (fun _ => true) alt = paths) ∧
    (∀ q ∈ paths, q.done = false → q.tokens.length < k → q.tokens ∈ strings) ∧
    (∀ q ∈ paths, ∃ γ δ, Cf.Derives (Unfolds c.desugared classSets) alt (γ ++ δ) ∧
      SpellsTokens tokens γ q.tokens) ∧
    (∀ u ∈ strings, ∃ q ∈ paths, q.tokens <+: u) ∧
    (⟨[], false⟩ ∈ paths ↔
      (firstOfSeq tokens (computeFirstSets c.desugared tokens classSets) alt).2 = true) := by
  intro paths strings
  have hshape := c.desugared_shape
  have hg : Unrepeated c.desugared classSets := ⟨hshape.plain, htail, hnamed⟩
  have hplain := hshape.plain p hp alt halt
  have hbegun : ∀ q ∈ paths, Begun c.desugared tokens classSets k alt q := hg.begun _ k [] alt hplain
  refine ⟨fun depth hdepth => altPrefixesRaw_eq_enumerate hdepth k _ alt, fun q hq hdone hlt => ?_,
    fun q hq => ?_, fun u hu => ?_, hg.nil_path_iff c.desugared_nodup hshape hplain hk⟩
  · obtain ⟨γ, δ, hderives, hγ, hwhole⟩ := hbegun q hq
    obtain rfl := hwhole hdone hlt
    rw [List.append_nil] at hderives
    exact Cf.seq_le_of_derives (fun _ _ => hg.unfolds_le) hderives (hγ.mem_seq _)
  · obtain ⟨γ, δ, hderives, hγ, -⟩ := hbegun q hq
    exact ⟨γ, δ, hderives, hγ⟩
  · rw [show strings = Cf.seq (den (tokenLeaf tokens) (altsLang c.desugared tokens classSets)) alt
      by rw [← hg.tailLang_eq]] at hu
    obtain ⟨q, hq, hcovers⟩ := exists_path c.desugared_nodup hshape.plain hplain k hu
    exact ⟨q, hq, hcovers.1⟩

/-- `S = #NR X / #TX`, `X = #ST S / (empty)`. -/
def items : Grammar where
  productions :=
    [{ name := "S", alts := [[.token "#NR" none, .reference "X"], [.token "#TX" none]] },
     { name := "X", alts := [[.token "#ST" none, .reference "S"], []] }]

def itemsCompile : Compile plainSetting items := .leftAlone items "S" 2

/-- `S` meets `X` again behind three tokens. -/
theorem altPrefixesRaw_exact_items :
    enumerate items {} [] 4 (fun _ => true) [.token "#NR" none, .reference "X"] =
      [⟨["#NR", "#ST", "#NR"], true⟩, ⟨["#NR", "#ST", "#TX"], false⟩, ⟨["#NR"], false⟩] ∧
    ∀ u ∈ Cf.seq (den (tokenLeaf {}) (tailLang items {} [])) [.token "#NR" none, .reference "X"],
      ∃ q ∈ enumerate items {} [] 4 (fun _ => true) [.token "#NR" none, .reference "X"],
        q.tokens <+: u := by
  have hp : items.productions[0] ∈ itemsCompile.desugared.productions := List.mem_cons_self
  have hnamed : ∀ n set, List.lookup n ([] : List (String × String)) = some set →
      n ∈ itemsCompile.desugared.names := fun _ _ h => by cases h
  refine ⟨by decide +kernel, ?_⟩
  exact (altPrefixesRaw_exact itemsCompile {} hnamed (by simp [itemsCompile, items]) hp
    List.mem_cons_self (by decide)).2.2.2.1

end TabnasBnf
