import TabnasBnf.Contest
import TabnasBnf.EmitLang
import TabnasBnf.EmptyInput
import TabnasBnf.PathCuts

/-!
# The guards of a keyword

The two-token guards `synth_keyword_guards` gives a literal-headed entry, against the sentences: a
guard for every token that comes behind the keyword, wherever the enumeration reads on
(`Compile.keywordGuards_cover`). A path truncated behind the keyword is taken for one that ends the
alternative, so that a token behind the cut has no guard (`keywordGuards_missed`).

* `MayFollow` is what stands behind a production in a sentence.
* FIRST and FOLLOW of the emitter are those of the grammar it emits (`Compile.emitter_follow`).
-/

namespace TabnasBnf

open Saturate

/-! ## The grammar that is emitted -/

/-- Settling the debts leaves a grammar as desugaring does. -/
theorem desugared_of_sameRules {g g' : Grammar} (h : SameRules g g') (hg : Desugared g) :
    Desugared g' := by
  refine ⟨plain_of_sameRules h hg.plain, fun p' hp' spec hspec => ?_⟩
  obtain ⟨p, hp, hsame⟩ := exists_left_of_forall₂ h hp'
  rw [hsame.tailRepeat] at hspec
  obtain ⟨pre, halts, hne, hterm⟩ := hg.tail p hp spec hspec
  have hmap := hsame.alts
  rw [halts, List.map_singleton, List.map_eq_singleton_iff] at hmap
  obtain ⟨pre', halts', herase⟩ := hmap
  refine ⟨pre', halts', ?_, fun el hel => ?_⟩
  · rintro rfl
    exact hne (List.map_eq_nil_iff.mp herase.symm)
  · rcases List.mem_append.mp hel with hel | hel
    · exact hterm el (List.mem_append_left _ hel)
    · have hmem := List.mem_map_of_mem (f := eraseDebt) hel
      rw [herase] at hmem
      obtain ⟨x, hx, hxel⟩ := List.mem_map.mp hmem
      rw [← isTerminal_eraseDebt, ← hxel, isTerminal_eraseDebt]
      exact hterm x (List.mem_append_right _ hx)

namespace Compile

variable {S : Setting} {grammar : Grammar} (c : Compile S grammar) (tokens : Tokens)
  (contest : ContestCtx) (arrayHelpers : List String) (valuePlan : List (String × List Bool))

theorem emitter_desugared : Desugared (c.emitter tokens contest arrayHelpers valuePlan).grammar :=
  desugared_of_sameRules sameRules_resolveSuffixDebts c.desugared_shape

theorem emitter_nodup :
    (c.emitter tokens contest arrayHelpers valuePlan).grammar.names.Nodup := by
  rw [c.emitter_names]
  exact c.desugared_nodup

/-- FOLLOW is that of the grammar that is emitted. -/
theorem emitter_follow :
    let E := c.emitter tokens contest arrayHelpers valuePlan
    E.follow = computeFollowSets E.grammar tokens contest.classSets
      (computeFirstSets E.grammar tokens contest.classSets) c.start := by
  intro E
  have hsame : SameRules c.desugared E.grammar := sameRules_resolveSuffixDebts
  rw [computeFirstSets_of_sameRules hsame, computeFollowSets_of_sameRules hsame]
  rfl

end Compile

/-! ## What follows a production -/

section

variable (E : Emitter)

/-- The tokens may stand behind the production in a sentence. -/
def MayFollow (start n : String) (s : List String) : Prop :=
  ∃ u debt sp v r, Cf.Derives (Unfolds E.grammar E.contest.classSets) [.reference start]
    (u ++ .ref n debt sp :: v) ∧ SpellsTokens E.tokens u r ∧ SpellsTokens E.tokens v s

/-- What the alternative derives, tail repeats included. -/
abbrev Emitter.strings (alt : Sequence) : Language String :=
  tailSeq E.grammar E.tokens E.contest.classSets alt

end

/-- FOLLOW has the token that comes behind a production, `#ZZ` at the end of the input. -/
theorem Compile.mem_follow {S : Setting} {grammar : Grammar} (c : Compile S grammar)
    {tokens : Tokens} {contest : ContestCtx} {arrayHelpers : List String}
    {valuePlan : List (String × List Bool)} {p : Production}
    (hp : p ∈ (c.emitter tokens contest arrayHelpers valuePlan).grammar.productions)
    {s : List String}
    (hs : MayFollow (c.emitter tokens contest arrayHelpers valuePlan) c.start p.name s)
    {u : String} (hu : (s ++ ["#ZZ"]).head? = some u) :
    u ∈ (c.emitter tokens contest arrayHelpers valuePlan).follow.get p.name := by
  obtain ⟨x, debt, sp, v, r, hderives, -, hterm, rfl⟩ := hs
  obtain ⟨hbegins, hvanish⟩ := followed_of_derives tokens
    (c.emitter_desugared tokens contest arrayHelpers valuePlan) hderives x _ v rfl p.name rfl
    (mem_namesOf.mpr ⟨p, hp, rfl⟩)
  rw [c.emitter_follow]
  refine FollowSets.mem_get.mpr ?_
  cases v with
  | nil =>
    obtain rfl : "#ZZ" = u := Option.some.inj hu
    exact hvanish fun _ hel => absurd hel List.not_mem_nil
  | cons el v =>
    obtain rfl : tokens.name el = u := Option.some.inj hu
    refine hbegins _ ?_
    have hel := hterm el List.mem_cons_self
    cases el <;> first | rfl | cases hel

/-! ## A guard for every continuation -/

/-- A path under the keyword gives a guard: with its second token, or with each token that follows
the production. -/
theorem mem_synthKeywordGuards {E : Emitter} {prod : Production} {o : AltSpec} {alt : Sequence}
    {f : String} {guards : List AltSpec} (h : synthKeywordGuards E prod o alt f = some guards)
    {q : PrefixPath}
    (hq : q ∈ enumerate E.grammar E.tokens E.contest.classSets 2 (fun _ => true) alt)
    (hf : q.tokens.head? = some f) {u : String}
    (hu : q.tokens[1]? = some u ∨ q.tokens[1]? = none ∧ u ∈ E.follow.get prod.name) :
    [f, u] ∈ guards.map AltSpec.s := by
  unfold synthKeywordGuards at h
  dsimp only at h
  split at h
  · cases h
  split at h
  · cases h
  obtain rfl := Option.some.inj h
  refine List.mem_map.mpr ⟨_, List.mem_map.mpr ⟨u, ?_, rfl⟩, rfl⟩
  refine mem_addAll.mpr (.inr (List.mem_flatMap.mpr ⟨q, ?_, ?_⟩))
  · exact List.mem_filter.mpr ⟨hq, by simp [hf]⟩
  rcases hu with hu | ⟨hnone, hu⟩
  · rw [hu]
    exact List.mem_singleton.mpr rfl
  · rw [hnone]
    exact hu

/-- **The guards of a keyword cover its continuations**, where the enumeration reads on behind
nothing and behind the keyword: for every string of the alternative that begins with the keyword,
and whatever follows the production in a sentence, one of the guards is the first two tokens. -/
theorem Compile.keywordGuards_cover {S : Setting} {grammar : Grammar} (c : Compile S grammar)
    (tokens : Tokens) (contest : ContestCtx) (arrayHelpers : List String)
    (valuePlan : List (String × List Bool))
    (hnamed : ∀ n set, contest.classSets.lookup n = some set → n ∈ c.desugared.names) :
    let E := c.emitter tokens contest arrayHelpers valuePlan
    ∀ prod ∈ E.grammar.productions, ∀ alt ∈ prod.alts, ∀ o f guards,
      synthKeywordGuards E prod o alt f = some guards →
      (∀ w, w <+: [f] → ¬ UnreadBehind E.grammar tokens contest.classSets alt w) →
      ∀ a ∈ E.strings alt, a.head? = some f → ∀ s, MayFollow E c.start prod.name s →
        (a ++ s ++ ["#ZZ"]).take 2 ∈ guards.map AltSpec.s := by
  intro E prod hprod alt halt o f guards hguards hread a ha hf s hs
  have hshape : Desugared E.grammar := c.emitter_desugared tokens contest arrayHelpers valuePlan
  have hnames : ∀ n set, contest.classSets.lookup n = some set → n ∈ E.grammar.names := by
    rw [show E.grammar.names = c.desugared.names from c.emitter_names ..]
    exact hnamed
  obtain ⟨a, rfl⟩ : ∃ a', a = f :: a' := by
    cases a with
    | nil => cases hf
    | cons t a => exact ⟨a, congrArg (· :: a) (Option.some.inj hf)⟩
  have hbegin : ∀ w, w <+: f :: a → w.length < 2 →
      ¬ UnreadBehind E.grammar tokens contest.classSets alt w := by
    intro w ⟨v, hv⟩ hlt
    refine hread w ?_
    rcases w with _ | ⟨t, _ | ⟨t', w⟩⟩
    · exact List.nil_prefix
    · obtain ⟨rfl, -⟩ := List.cons.inj hv
      exact List.prefix_rfl
    · simp only [List.length_cons] at hlt
      omega
  obtain ⟨⟨ts, done⟩, hq, hqa, hcovers⟩ := exists_path_of_read (c.emitter_nodup ..) hshape.plain
    hnames (hshape.plain prod hprod alt halt) ha hbegin
  have hlen : ts.length ≤ 2 := within_true hq
  rcases hcovers with hfull | ⟨-, hwhole⟩
  · -- the path has the second token
    obtain ⟨t, u, rfl⟩ := List.length_eq_two.mp (le_antisymm hlen hfull)
    obtain ⟨rest, hrest⟩ := hqa
    obtain ⟨rfl, rfl⟩ := List.cons.inj hrest
    exact mem_synthKeywordGuards hguards hq rfl (.inl rfl)
  · -- all of the string: the second token is what follows
    obtain rfl : ts = f :: a := hwhole
    cases a with
    | nil =>
      obtain ⟨u, rest, hnext⟩ : ∃ u rest, s ++ ["#ZZ"] = u :: rest := by
        cases s with
        | nil => exact ⟨_, _, rfl⟩
        | cons u s => exact ⟨_, _, rfl⟩
      have hu : u ∈ E.follow.get prod.name := c.mem_follow hprod hs (by rw [hnext]; rfl)
      have htake : ([f] ++ s ++ ["#ZZ"]).take 2 = [f, u] := by
        rw [List.append_assoc, hnext]
        rfl
      rw [htake]
      exact mem_synthKeywordGuards hguards hq rfl (.inr ⟨rfl, hu⟩)
    | cons u a =>
      obtain rfl : a = [] := by simpa using hlen
      exact mem_synthKeywordGuards hguards hq rfl (.inl rfl)

/-! ## A repetition before a keyword -/

/-- The answers over tables alone, nothing being kept in memos yet. -/
def ContestTables.answers (t : ContestTables) (casing : Casing) (limit : Nat) : ContestCtx where
  tokenRangesOf := t.tokenRanges
  literalHeadRangesOf tok := ((literalHeadRangesOf t tok).run []).bind Prod.fst
  tokensOverlap a b := ((tokensOverlap t limit a b).run ⟨[], []⟩).any Prod.fst
  headsContest a b := ((headsContest t casing limit a b).run ⟨[], ⟨[], []⟩⟩).any Prod.fst
  classSets := t.classSets

/-- `P = "f" ["c"] / [a-z]`. -/
def optKeyword : Grammar where
  productions :=
    [{ name := "P", alts := [[.lit "f", .opt (.lit "c") none], [.regex "[a-z]" "" none]] }]

/-- `P = "f" _gen1_opt_term / [a-z]`, `_gen1_opt_term = "c" / (empty)`. -/
def optKeywordPlain : Grammar where
  productions :=
    [{ name := "P", alts := [[.lit "f", .reference "_gen1_opt_term"], [.regex "[a-z]" "" none]] },
     { Production.helper "_gen1_opt_term" [[.lit "c"], []] "P" with repeatHelper := true }]

def optKeywordCompile : Compile plainSetting optKeyword := .leftAlone optKeywordPlain "P" 2

/-- The literals `f` and `c`, and a class of letters. -/
def keywordTokens : Tokens where
  literals := [("ci:f", "#F"), ("ci:c", "#C")]
  regexTokens := [("/[a-z]/", "#A_Z")]

def keywordContest : ContestCtx :=
  ContestTables.answers
    { matchTokens := [("#F", ⟨"^(?:f)", "i", false⟩), ("#C", ⟨"^(?:c)", "i", false⟩),
        ("#A_Z", ⟨"^[a-z]", "", true⟩)]
      literalByToken := [("#F", ("f", false)), ("#C", ("c", false))] }
    ⟨String.toLower, String.toUpper⟩ 16

def optKeywordEmitter : Emitter := optKeywordCompile.emitter keywordTokens keywordContest [] []

/-- The keyword has a guard for what the option begins with, and for what follows `P`. -/
theorem keywordGuards_cover_optKeyword :
    (synthKeywordGuards optKeywordEmitter optKeywordPlain.productions[0] {}
      [.lit "f", .reference "_gen1_opt_term"] "#F").map (·.map AltSpec.s) =
        some [["#F", "#C"], ["#F", "#ZZ"]] ∧
    ∀ a ∈ optKeywordEmitter.strings [.lit "f", .reference "_gen1_opt_term"], a.head? = some "#F" →
      ∀ s, MayFollow optKeywordEmitter "P" "P" s →
        (a ++ s ++ ["#ZZ"]).take 2 ∈ [["#F", "#C"], ["#F", "#ZZ"]] := by
  have hguards : synthKeywordGuards optKeywordEmitter optKeywordPlain.productions[0] {}
      [.lit "f", .reference "_gen1_opt_term"] "#F" =
        some [{ s := ["#F", "#C"], b := 1 }, { s := ["#F", "#ZZ"], b := 1 }] := by decide +kernel
  have hlead : ∀ w m, LeadsTo optKeywordPlain keywordTokens []
      [.lit "f", .reference "_gen1_opt_term"] w m → m = "_gen1_opt_term" := fun w m h =>
    h.mem_of_closed (N := (· = "_gen1_opt_term"))
      (by simp [optKeywordPlain, Production.helper, Element.lit, Element.refName])
      (by simp [Element.lit, Element.reference, Element.refName])
  have hnone : ∀ alt ∈ optKeywordPlain.productions[1].alts, ∀ w m,
      ¬ LeadsTo optKeywordPlain keywordTokens [] alt w m := fun alt halt w m h =>
    h.mem_of_closed (N := fun _ => False) (fun _ _ h => h.elim) fun el hel m hm => by
      rcases List.mem_pair.mp halt with rfl | rfl
      · obtain rfl := List.mem_singleton.mp hel
        cases hm
      · cases hel
  have hread : ∀ w, ¬ UnreadBehind optKeywordPlain keywordTokens []
      [.lit "f", .reference "_gen1_opt_term"] w := by
    have hopt : ∀ p ∈ optKeywordPlain.productions, p.name = "_gen1_opt_term" →
        p = optKeywordPlain.productions[1] := by simp [optKeywordPlain]
    rintro w ((⟨h, -, halts⟩ | ⟨h, hp, -, halt, hback⟩) | ⟨w₁, w₂, p, h, hp, -, htail, -⟩)
    · obtain rfl := hlead _ _ h
      exact absurd (halts _ rfl) (by simp [Production.helper])
    · obtain rfl := hopt _ hp (hlead _ _ h)
      exact hnone _ halt _ _ hback
    · obtain rfl := hopt _ hp (hlead _ _ h)
      cases htail
  have hsets : keywordContest.classSets = optKeywordCompile.classSets := by decide +kernel
  refine ⟨by rw [hguards]; rfl, fun a ha hf s hs => ?_⟩
  exact Compile.keywordGuards_cover optKeywordCompile keywordTokens keywordContest [] []
    (fun n set h => optKeywordCompile.classSets_named (hsets ▸ h)) optKeywordPlain.productions[0]
    List.mem_cons_self _ List.mem_cons_self _ _ _ hguards (fun w _ => hread w) a ha hf s hs

/-- `P = *"f" "c" / [a-z]`. -/
def starKeyword : Grammar where
  productions :=
    [{ name := "P", alts := [[.star (.lit "f") none none, .lit "c"], [.regex "[a-z]" "" none]] }]

/-- `P = _gen1_star_term "c" / [a-z]`, `_gen1_star_term = "f" _gen1_star_term / (empty)`. -/
def starKeywordPlain : Grammar where
  productions :=
    [{ name := "P", alts := [[.reference "_gen1_star_term", .lit "c"], [.regex "[a-z]" "" none]] },
     { Production.helper "_gen1_star_term" [[.lit "f", .reference "_gen1_star_term"], []] "P" with
        repeatHelper := true, repeatLoop := true }]

def starKeywordCompile : Compile plainSetting starKeyword := .leftAlone starKeywordPlain "P" 2

def starKeywordEmitter : Emitter := starKeywordCompile.emitter keywordTokens keywordContest [] []

/-- In `P = *"f" "c" / [a-z]` the repetition may go on behind the keyword, or end: the guards are
for the end of the input alone, and the class comes before the keyword. -/
theorem keywordGuards_missed :
    ((emitRules "bnf" starKeywordEmitter "P").toOption.bind (·.lookup "P")).map
        (fun rule => rule.opens.map AltSpec.s) =
      some [["#F", "#ZZ"], ["#C", "#ZZ"], ["#A_Z"], ["#F"], ["#C"]] ∧
    ∃ guards, synthKeywordGuards starKeywordEmitter starKeywordPlain.productions[0]
        { s := ["#F"], b := 1, p := some (altName "P" 0) }
        [.reference "_gen1_star_term", .lit "c"] "#F" = some guards ∧
      MayFollow starKeywordEmitter "P" "P" [] ∧
      ∀ u ∈ ["#F", "#C"], ∃ a ∈ starKeywordEmitter.strings [.reference "_gen1_star_term", .lit "c"],
        (a ++ [] ++ ["#ZZ"]).take 2 = ["#F", u] ∧ ["#F", u] ∉ guards.map AltSpec.s := by
  have hguards : synthKeywordGuards starKeywordEmitter starKeywordPlain.productions[0]
      { s := ["#F"], b := 1, p := some (altName "P" 0) }
      [.reference "_gen1_star_term", .lit "c"] "#F" =
        some [{ s := ["#F", "#ZZ"], b := 2, p := some (altName "P" 0) }] := by decide +kernel
  have hhelper : ∀ {u}, u ∈ altsDen (tokenLeaf keywordTokens)
      (tailLang starKeywordPlain keywordTokens []) starKeywordPlain.productions[1].alts →
      u ∈ tailLang starKeywordPlain keywordTokens [] "_gen1_star_term" := fun hu =>
    mem_tailLang (p := starKeywordPlain.productions[1]) (by simp [starKeywordPlain]) rfl hu
  have hnil : [] ∈ tailLang starKeywordPlain keywordTokens [] "_gen1_star_term" :=
    hhelper (mem_altsDen.mpr ⟨[], by simp [starKeywordPlain, Production.helper], rfl⟩)
  have hmore : ∀ {u}, u ∈ tailLang starKeywordPlain keywordTokens [] "_gen1_star_term" →
      "#F" :: u ∈ tailLang starKeywordPlain keywordTokens [] "_gen1_star_term" := by
    intro u hu
    refine hhelper (mem_altsDen.mpr ⟨_, List.mem_cons_self, ?_⟩)
    rw [Cf.seq_cons, Cf.seq_singleton, den_terminal rfl, Element.reference, den_ref]
    have hf : ["#F"] ∈ tokenLeaf keywordTokens (.lit "f") := rfl
    exact Language.append_mem_mul hf hu
  have hstring : ∀ {u}, u ∈ tailLang starKeywordPlain keywordTokens [] "_gen1_star_term" →
      u ++ ["#C"] ∈ starKeywordEmitter.strings [.reference "_gen1_star_term", .lit "c"] := by
    intro u hu
    show _ ∈ Cf.seq _ _
    rw [Cf.seq_cons, Cf.seq_singleton, @den_terminal _ _ _ (.lit "c") rfl, Element.reference,
      den_ref]
    exact Language.append_mem_mul hu rfl
  refine ⟨by decide +kernel, _, hguards, ?_, ?_⟩
  · exact ⟨[], none, none, [], [], .refl, ⟨by simp, rfl⟩, ⟨by simp, rfl⟩⟩
  · simp only [List.forall_mem_cons, List.not_mem_nil, false_implies, implies_true, and_true]
    exact ⟨⟨_, hstring (hmore (hmore hnil)), rfl, by decide⟩,
      ⟨_, hstring (hmore hnil), rfl, by decide⟩⟩

end TabnasBnf
