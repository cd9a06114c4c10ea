import TabnasBnf.FollowExact

/-!
# The exit guards of a repetition

The two-token guards `pair_exit_guards` places ahead of a contested repetition's continue
alternatives, against the sentences in which the repetition goes on. Nothing compares a guard with
what an iteration may begin with, so a guard can be read where the repetition has to go on
(`pairExitGuards_steals`); it is not just where no path of a continue alternative, with what FOLLOW
has behind the helper, can be read as one (`PathsApart`, **`Compile.pairExitGuards_apart`**).
-/

namespace TabnasBnf

open Saturate

section

variable (E : Emitter)

/-- The lexer can read the first two tokens of the input as the guard's: each is the same or
overlaps. -/
def ReadAs (guard x : List String) : Prop :=
  ∃ t u t' u', guard = [t, u] ∧ x.take 2 = [t', u'] ∧
    competes E.contest.tokensOverlap t t' = true ∧ competes E.contest.tokensOverlap u u' = true

/-- The tokens the guard's first one can be read in place of, or none. -/
def BeginsReadAs (guard w : List String) : Prop :=
  w = [] ∨ ∃ t u t', guard = [t, u] ∧ w = [t'] ∧ competes E.contest.tokensOverlap t t' = true

/-- No path of the alternative is empty or can be read as the guard, and none of a single token can
be with one that FOLLOW has behind the helper. -/
def PathsApart (prod : Production) (guard : List String) (alt : Sequence) : Prop :=
  ∀ q ∈ enumerate E.grammar E.tokens E.contest.classSets 2 (fun _ => true) alt,
    q.tokens ≠ [] ∧ ¬ ReadAs E guard q.tokens ∧
      ∀ x, q.tokens = [x] → ∀ u ∈ E.follow.get prod.name, ¬ ReadAs E guard [x, u]

end

/-- A guard is a FOLLOW pair of the helper. -/
theorem mem_pairExitGuards {E : Emitter} {prod : Production} {base g : AltSpec}
    (h : g ∈ pairExitGuards E prod base) :
    ∃ t us u, (t, us) ∈ E.pairs.get prod.name ∧ u ∈ us ∧ g.s = [t, u] := by
  unfold pairExitGuards at h
  dsimp only at h
  split at h
  · cases h
  · obtain ⟨s, hs, rfl⟩ := List.mem_map.mp h
    obtain ⟨⟨t, us⟩, htus, hs⟩ := List.mem_flatMap.mp ((mem_addAll.mp hs).resolve_left (by simp))
    split at hs
    · obtain ⟨u, hu, rfl⟩ := List.mem_map.mp hs
      exact ⟨t, us, u, htus, hu, rfl⟩
    · cases hs

/-- What is read as a guard is read so by its first two tokens. -/
theorem readAs_congr {E : Emitter} {guard x y : List String} (h : x.take 2 = y.take 2) :
    ReadAs E guard x ↔ ReadAs E guard y := by
  unfold ReadAs
  rw [h]

/-- A path that is all of a string, or fills the window, decides its first two tokens. -/
theorem take_two_of_path {ts a : List String} (hts : ts <+: a) (hcovers : 2 ≤ ts.length ∨ ts = a)
    (z : List String) : (ts ++ z).take 2 = (a ++ z).take 2 := by
  obtain ⟨v, rfl⟩ := hts
  rcases hcovers with hfull | hwhole
  · rw [List.append_assoc, List.take_append_of_le_length hfull, List.take_append_of_le_length hfull]
  · rw [← hwhole]

/-- What is shorter than two tokens and begins an input read as the guard. -/
theorem ReadAs.begins {E : Emitter} {guard w a : List String} (h : ReadAs E guard (w ++ a))
    (hlt : w.length < 2) : BeginsReadAs E guard w := by
  obtain ⟨t, u, t', u', hguard, htake, ht, -⟩ := h
  rcases w with _ | ⟨x, _ | ⟨y, w⟩⟩
  · exact .inl rfl
  · obtain ⟨rfl, -⟩ := List.cons.inj htake
    exact .inr ⟨t, u, x, hguard, rfl, ht⟩
  · simp only [List.length_cons] at hlt
    omega

/-- **An exit guard leaves no repetition that goes on** just where no path of its continue
alternatives, with what FOLLOW has behind the helper, can be read as the guard: given that the
enumeration reads on behind nothing and behind a token the guard's first can be read as, and, for
the converse, that the grammar is live and reached. -/
theorem Compile.pairExitGuards_apart {S : Setting} {grammar : Grammar} (c : Compile S grammar)
    (tokens : Tokens) (contest : ContestCtx) (arrayHelpers : List String)
    (valuePlan : List (String × List Bool)) (hsets : contest.classSets = c.classSets) :
    let E := c.emitter tokens contest arrayHelpers valuePlan
    ∀ prod ∈ E.grammar.productions, ∀ base, ∀ g ∈ pairExitGuards E prod base,
      ∀ alt ∈ prod.alts, alt ≠ [] →
      (∀ w, BeginsReadAs E g.s w → ¬ UnreadBehind E.grammar tokens contest.classSets alt w) →
      let apart := ∀ a ∈ E.strings alt, ∀ s, MayFollow E c.start prod.name s →
        ¬ ReadAs E g.s (a ++ s ++ ["#ZZ"])
      (PathsApart E prod g.s alt → apart) ∧
        ((∀ p ∈ E.grammar.productions, ∀ α ∈ p.alts,
          Live E.grammar tokens contest.classSets α) → Reached E c.start → apart →
            PathsApart E prod g.s alt) := by
  intro E prod hprod base g hg alt halt _ hread apart
  have hshape : Desugared E.grammar := c.emitter_desugared tokens contest arrayHelpers valuePlan
  have hnames : ∀ n set, contest.classSets.lookup n = some set → n ∈ E.grammar.names := by
    intro n set hset
    rw [show E.grammar.names = c.desugared.names from c.emitter_names ..]
    exact c.classSets_named (hsets ▸ hset)
  have hplain := hshape.plain prod hprod alt halt
  refine ⟨fun hpaths a ha s hs hreads => ?_, fun hlive hreached hapart q hq => ?_⟩
  · obtain ⟨q, hq, hqa, hcovers⟩ := exists_path_of_read (c.emitter_nodup ..) hshape.plain hnames
      hplain ha (k := 2) fun w hw hlt => by
        obtain ⟨v, rfl⟩ := hw
        rw [List.append_assoc, List.append_assoc] at hreads
        exact hread w (hreads.begins hlt)
    obtain ⟨hne, hapart, hsingle⟩ := hpaths q hq
    have htake := take_two_of_path hqa (hcovers.imp_right And.right) (s ++ ["#ZZ"])
    rw [List.append_assoc, ← readAs_congr htake] at hreads
    rcases hlist : q.tokens with _ | ⟨x, _ | ⟨y, rest⟩⟩
    · exact hne hlist
    · -- the path is all of the string, and what follows comes second
      obtain ⟨u, rest, hnext⟩ := List.exists_cons_of_ne_nil (l := s ++ ["#ZZ"]) (by simp)
      have hu := c.mem_follow hprod hs (by rw [hnext]; rfl)
      refine hsingle x hlist u hu ((readAs_congr ?_).mp hreads)
      rw [hlist, hnext]
      rfl
    · refine hapart ((readAs_congr ?_).mp hreads)
      rw [hlist]
      rfl
  · obtain ⟨t, us, u, hpair, hu, hguard⟩ := mem_pairExitGuards hg
    obtain ⟨s, hs, hsguard⟩ := c.mayFollow_of_mem_pairs hlive hreached hpair hu
    -- a path that may be read as the guard is not cut
    have hstring : BeginsReadAs E g.s q.tokens ∨ 2 ≤ q.tokens.length →
        ∃ a ∈ E.strings alt, q.tokens <+: a ∧ (2 ≤ q.tokens.length ∨ q.tokens = a) := by
      refine fun hq' => exists_string_of_path hshape.plain hnames hlive hprod halt hq fun hdone => ?_
      refine hq'.resolve_left fun hbegins => ?_
      rcases (reads_of_mem hnames hshape.plain _ 2 [] alt hplain q hq).cut hdone with hcut | ⟨m, hm, -⟩
      · exact hread _ hbegins (.inl hcut)
      · cases hm
    refine ⟨fun hnil => ?_, fun hreads => ?_, fun x hx v hv hreads => ?_⟩
    · -- the alternative may be empty, and the guard is what follows
      obtain ⟨a, ha, -, hcovers⟩ := hstring (.inl (.inl hnil))
      obtain rfl : a = [] := by simpa [hnil, eq_comm] using hcovers
      refine hapart [] ha s hs ⟨t, u, t, u, hguard, hsguard, ?_, ?_⟩ <;> simp [competes]
    · have hlen : 2 ≤ q.tokens.length := by
        obtain ⟨-, -, t', u', -, htake, -⟩ := hreads
        have hlen := congrArg List.length htake
        rw [List.length_take] at hlen
        exact (min_eq_left_iff.mp hlen)
      obtain ⟨a, ha, hqa, hcovers⟩ := hstring (.inr hlen)
      refine hapart a ha s hs ((readAs_congr ?_).mp hreads)
      rw [List.append_assoc, ← take_two_of_path hqa hcovers,
        List.take_append_of_le_length hlen]
    · obtain ⟨s', hs', hnext⟩ := (c.mem_follow_iff hlive hreached hprod).mp hv
      have hbegins : BeginsReadAs E g.s q.tokens := by
        rw [hx]
        exact ReadAs.begins (a := [v]) hreads (by simp)
      obtain ⟨a, ha, -, hcovers⟩ := hstring (.inl hbegins)
      obtain rfl : a = [x] := by simpa [hx, eq_comm] using hcovers
      refine hapart [x] ha s' hs' ((readAs_congr ?_).mp hreads)
      obtain ⟨rest, hrest⟩ := List.head?_eq_some_iff.mp hnext
      rw [List.append_assoc, hrest]
      rfl

/-! ## Letters before a word -/

/-- The literals `x`, `y` and `5`, and a class of letters. -/
def wordTokens : Tokens where
  literals := [("ci:x", "#X"), ("ci:y", "#Y"), ("cs:5", "#T")]
  regexTokens := [("/[a-z]/", "#A_Z")]

def wordContest : ContestCtx :=
  ContestTables.answers
    { fixedTokens := [("#T", some "5")]
      matchTokens := [("#X", ⟨"^(?:x)", "i", false⟩), ("#Y", ⟨"^(?:y)", "i", false⟩),
        ("#A_Z", ⟨"^[a-z]", "", true⟩)]
      literalByToken := [("#X", ("x", false)), ("#Y", ("y", false)), ("#T", ("5", true))] }
    ⟨String.toLower, String.toUpper⟩ 16

/-- `S = [[a-z]] "x" "5"`. -/
def optLetter : Grammar where
  productions :=
    [{ name := "S", alts := [[.opt (.regex "[a-z]" "" none) none, .lit "x", .lit "5"]] }]

/-- `S = _gen1_opt_x "x" "5"`, `_gen1_opt_x = [a-z] / (empty)`. -/
def optLetterPlain : Grammar where
  productions :=
    [{ name := "S", alts := [[.reference "_gen1_opt_x", .lit "x", .lit "5"]] },
     { Production.helper "_gen1_opt_x" [[.regex "[a-z]" "" none], []] "S" with
        repeatHelper := true }]

def optLetterCompile : Compile plainSetting optLetter := .leftAlone optLetterPlain "S" 2

def optLetterEmitter : Emitter := optLetterCompile.emitter wordTokens wordContest [] []

/-- The guard reads `x5`, and a letter of the option is followed by `x`. -/
theorem pairExitGuards_apart_optLetter :
    (pairExitGuards optLetterEmitter optLetterPlain.productions[1] {}).map AltSpec.s =
      [["#X", "#T"]] ∧
    ∀ a ∈ optLetterEmitter.strings [.regex "[a-z]" "" none],
      ∀ s, MayFollow optLetterEmitter "S" "_gen1_opt_x" s →
        ¬ ReadAs optLetterEmitter ["#X", "#T"] (a ++ s ++ ["#ZZ"]) := by
  have hguards : pairExitGuards optLetterEmitter optLetterPlain.productions[1] {} =
      [{ s := ["#X", "#T"], b := 2 }] := by decide +kernel
  have hread : ∀ w, ¬ UnreadBehind optLetterPlain wordTokens [] [.regex "[a-z]" "" none] w := by
    have hlead : ∀ {w m}, ¬ LeadsTo optLetterPlain wordTokens [] [.regex "[a-z]" "" none] w m :=
      fun h => h.mem_of_closed (N := fun _ => False) (fun _ _ h => h.elim) fun el hel m hm => by
        obtain rfl := List.mem_singleton.mp hel
        cases hm
    rintro w ((⟨h, -, -⟩ | ⟨h, -, -, -, -⟩) | ⟨w₁, w₂, p, h, -⟩) <;> exact hlead h
  have hpaths : enumerate optLetterPlain wordTokens [] 2 (fun _ => true) [.regex "[a-z]" "" none] =
      [⟨["#A_Z"], false⟩] := by decide +kernel
  have hsets : wordContest.classSets = optLetterCompile.classSets := by decide +kernel
  have hfollow : optLetterEmitter.follow.get "_gen1_opt_x" = ["#X"] := by decide +kernel
  have hprod : optLetterPlain.productions[1] ∈ optLetterPlain.productions :=
    List.mem_cons_of_mem _ List.mem_cons_self
  have hg : { s := ["#X", "#T"], b := 2 } ∈
      pairExitGuards optLetterEmitter optLetterPlain.productions[1] {} := by
    rw [hguards]
    exact List.mem_cons_self
  refine ⟨by rw [hguards]; rfl, ?_⟩
  refine (Compile.pairExitGuards_apart optLetterCompile wordTokens wordContest [] [] hsets _ hprod
    {} _ hg _ List.mem_cons_self (by simp) fun w _ => hread w).1 ?_
  intro q hq
  have hpath : q ∈ [⟨["#A_Z"], false⟩] := by
    rw [← hpaths]
    exact hq
  obtain rfl := List.mem_singleton.mp hpath
  refine ⟨by simp, ?_, fun x hx u hu => ?_⟩
  · rintro ⟨t, u, t', u', -, htake, -⟩
    simp at htake
  · -- the second token is one that follows the option
    rintro ⟨t, v, t', u', hguard, htake, -, hread⟩
    have hu : u ∈ optLetterEmitter.follow.get "_gen1_opt_x" := hu
    rw [hfollow, List.mem_singleton] at hu
    obtain ⟨-, hguard⟩ := List.cons.inj hguard
    obtain ⟨rfl, -⟩ := List.cons.inj hguard
    obtain ⟨-, htake⟩ := List.cons.inj htake
    obtain ⟨rfl, -⟩ := List.cons.inj htake
    rw [hu] at hread
    exact absurd hread (by decide +kernel)

/-- `S = *[a-z] "x" "y"`. -/
def starLetters : Grammar where
  productions :=
    [{ name := "S", alts := [[.star (.regex "[a-z]" "" none) none none, .lit "x", .lit "y"]] }]

/-- `S = _gen1_star_x "x" "y"`, `_gen1_star_x = [a-z] _gen1_star_x / (empty)`. -/
def starLettersPlain : Grammar where
  productions :=
    [{ name := "S", alts := [[.reference "_gen1_star_x", .lit "x", .lit "y"]] },
     { Production.helper "_gen1_star_x" [[.regex "[a-z]" "" none, .reference "_gen1_star_x"], []]
          "S" with
        repeatHelper := true, repeatLoop := true }]

def starLettersCompile : Compile plainSetting starLetters := .leftAlone starLettersPlain "S" 2

def starLettersEmitter : Emitter := starLettersCompile.emitter wordTokens wordContest [] []

/-- In `S = *[a-z] "x" "y"` the guard `x y` is tried first, and the letters may go on with two that
read the same. -/
theorem pairExitGuards_steals :
    ((emitRules "bnf" starLettersEmitter "S").toOption.bind (·.lookup "_gen1_star_x")).map
        (fun rule => rule.opens.map AltSpec.s) =
      some [[], ["#X", "#Y"], ["#A_Z"], ["#X"], []] ∧
    (pairExitGuards starLettersEmitter starLettersPlain.productions[1] {}).map AltSpec.s =
      [["#X", "#Y"]] ∧
    ∃ a ∈ starLettersEmitter.strings [.regex "[a-z]" "" none, .reference "_gen1_star_x"],
      ∃ s, MayFollow starLettersEmitter "S" "_gen1_star_x" s ∧
        ReadAs starLettersEmitter ["#X", "#Y"] (a ++ s ++ ["#ZZ"]) := by
  have hnil : [] ∈ tailLang starLettersPlain wordTokens [] "_gen1_star_x" := by
    refine mem_tailLang (p := starLettersPlain.productions[1]) ?_ rfl ?_
    · exact List.mem_cons_of_mem _ List.mem_cons_self
    · exact mem_altsDen.mpr ⟨[], List.mem_cons_of_mem _ List.mem_cons_self, rfl⟩
  have hmore : ∀ {u}, u ∈ tailLang starLettersPlain wordTokens [] "_gen1_star_x" →
      ["#A_Z"] ++ u ∈
        starLettersEmitter.strings [.regex "[a-z]" "" none, .reference "_gen1_star_x"] := by
    intro u hu
    show _ ∈ Cf.seq _ _
    rw [Cf.seq_cons, Cf.seq_singleton, den_terminal rfl, Element.reference, den_ref]
    exact Language.append_mem_mul rfl hu
  have hone : ["#A_Z"] ∈ tailLang starLettersPlain wordTokens [] "_gen1_star_x" := by
    refine mem_tailLang (p := starLettersPlain.productions[1]) ?_ rfl ?_
    · exact List.mem_cons_of_mem _ List.mem_cons_self
    · exact mem_altsDen.mpr ⟨_, List.mem_cons_self, hmore hnil⟩
  have hfollow : MayFollow starLettersEmitter "S" "_gen1_star_x" ["#X", "#Y"] := by
    refine ⟨[], none, none, [.lit "x", .lit "y"], [], ?_, ⟨by simp, rfl⟩,
      by simp [Element.lit, Element.isTerminal], by decide⟩
    have hstep : Unfolds starLettersPlain [] (.reference "S")
        [.reference "_gen1_star_x", .lit "x", .lit "y"] :=
      .ofAlt (p := starLettersPlain.productions[0]) List.mem_cons_self rfl rfl List.mem_cons_self
    exact .single (.mk [] [] hstep)
  exact ⟨by decide +kernel, by decide +kernel, _, hmore hone, _, hfollow, _, _, _, _, rfl, rfl,
    by decide +kernel, by decide +kernel⟩

end TabnasBnf
