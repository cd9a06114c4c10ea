import TabnasBnf.DesugarConsumes
import TabnasBnf.PassKeeps
import TabnasBnf.RewriteSources

/-!
# Every iteration consumes

From the grammar elimination is given to the desugared one: no pass marks a loop or a tail repeat
on the way to the check but `rewrite_tail_repeats`, whose cycles are made of terminals
(`TerminalCycles`), and after the check only desugaring mints loops.

* **`iterations_consume`**: in the desugared grammar every loop's item, tail repeat's cycle and
  probe helper's terminal consumes, unless a helper takes the name of a reference that named no
  production.
-/

namespace TabnasBnf

/-- What the passes before desugaring leave of a production: no loop, and cycles of terminals. -/
structure TerminalCycles (p : Production) : Prop where
  loop : p.repeatLoop = false
  tail : ∀ spec ∈ p.tailRepeat, ∃ pre, p.alts = [pre] ∧ pre ≠ [] ∧
    ∀ el ∈ spec.sep ++ pre, el.isTerminal = true
  vocab : ∀ helper ∈ p.probeHelper, ∀ el ∈ helper.vocabElements, el.isTerminal = true

theorem TerminalCycles.rebuilt (p : Production) (alts : List Sequence) :
    TerminalCycles (p.rebuilt alts) :=
  ⟨rfl, fun _ h => absurd h (Option.not_mem_none _), fun _ h => absurd h (Option.not_mem_none _)⟩

theorem TerminalCycles.helper (name : String) (alts : List Sequence) (origin : String)
    (repeatHelper : Bool) :
    TerminalCycles { Production.helper name alts origin with repeatHelper := repeatHelper } :=
  ⟨rfl, fun _ h => absurd h (Option.not_mem_none _), fun _ h => absurd h (Option.not_mem_none _)⟩

/-! ## Elimination -/

theorem eliminate_cycles {diag : String} {keep : List String} {grammar g' : Grammar}
    (h : eliminateLeftRecursionKeeping diag grammar keep = .ok g') :
    ∀ p ∈ g'.productions, TerminalCycles p := eliminate_forall .rebuilt h

/-! ## Probe dispatch -/

section

variable {diag : String} {grammar : Grammar}

theorem probeProductions_cycles {s : ProbeSplit} (h : VocabOf (fun _ => True) s.vocab)
    (origin probe withName noName dispatch : String) :
    ∀ p ∈ probeProductions s origin probe withName noName dispatch, TerminalCycles p := by
  intro p hp
  simp only [probeProductions, List.mem_cons, List.not_mem_nil, or_false] at hp
  rcases hp with rfl | rfl | rfl | rfl
  · refine ⟨rfl, fun _ h => absurd h (Option.not_mem_none _), fun helper hhelper el hel => ?_⟩
    obtain rfl := Option.some.inj hhelper
    obtain ⟨kv, hkv, rfl⟩ := List.mem_map.mp hel
    exact (h kv hkv).1
  · exact .helper _ _ _ false
  · exact .helper _ _ _ false
  · exact ⟨rfl, fun _ h => absurd h (Option.not_mem_none _),
      fun _ h => absurd h (Option.not_mem_none _)⟩

theorem rewriteProbeDispatches_cycles {g' : Grammar}
    (hg : ∀ p ∈ grammar.productions, TerminalCycles p)
    (h : rewriteProbeDispatches diag grammar = .ok g') :
    ∀ p ∈ g'.productions, TerminalCycles p :=
  rewriteProbeDispatches_forall .rebuilt (fun alt _ hs => probeProductions_cycles
    (vocabOf_probeSplit (fun _ _ _ _ => trivial) (fun _ _ _ _ _ _ => trivial) [] alt
      (fun _ _ => trivial) hs)) hg h

end

/-! ## Factoring and tail repeats -/

section

variable {diag : String} {lower upper : Char → Char} {grammar : Grammar}

theorem leftFactor_cycles {fuel : Nat} {g' : Grammar}
    (hg : ∀ p ∈ grammar.productions, TerminalCycles p)
    (h : leftFactor diag lower upper grammar fuel = some (.ok g')) :
    ∀ p ∈ g'.productions, TerminalCycles p := by
  refine leftFactor_forall .helper (fun p alts hfree hp => ⟨hp.loop, fun spec hspec => ?_, hp.vocab⟩)
    hg h
  have htail : p.tailRepeat = some spec := hspec
  simp [isRewritten, htail] at hfree

theorem rewriteTailRepeat_cycles {start : String} {p : Production} (hp : TerminalCycles p) :
    TerminalCycles (rewriteTailRepeat start p) := by
  unfold rewriteTailRepeat
  split
  · exact hp
  · split
    · next alt _ =>
      split
      · next seq _ =>
        dsimp only
        split
        · exact hp
        · split
          · exact hp
          · split
            · exact hp
            · next hsep =>
              split
              · exact hp
              · next hpre =>
                refine ⟨hp.loop, fun spec hspec => ?_, hp.vocab⟩
                obtain rfl := Option.some.inj hspec
                simp only [Bool.or_eq_true, Bool.not_eq_true', not_or, Bool.not_eq_true,
                  Bool.not_eq_false, List.isEmpty_eq_false_iff, List.all_eq_true] at hsep hpre
                refine ⟨_, rfl, hpre.1, fun el hel => ?_⟩
                exact (List.mem_append.mp hel).elim (hsep el) (hpre.2 el)
      · exact hp
    · exact hp

theorem rewriteTailRepeats_cycles {start : String}
    (hg : ∀ p ∈ grammar.productions, TerminalCycles p) :
    ∀ p ∈ (rewriteTailRepeats grammar start).productions, TerminalCycles p := by
  intro p hp
  obtain ⟨q, hq, rfl⟩ := List.mem_map.mp hp
  exact rewriteTailRepeat_cycles (hg q hq)

end

/-! ## The desugared grammar -/

/-- Every iteration of the loops, tail repeats and probe scans of a desugared grammar consumes. -/
structure IterationsConsume {T : Type*} (τ : Element → Language T) (g : Grammar) : Prop where
  loop : ∀ p ∈ g.productions, p.repeatLoop = true → ∃ item,
    p.alts = [[item, .reference p.name], []] ∧ [] ∉ lang τ g.productions item
  tail : ∀ p ∈ g.productions, ∀ spec ∈ p.tailRepeat,
    [] ∉ Cf.seq (lang τ g.productions) (tailCycle p spec)
  probe : ∀ p ∈ g.productions, ∀ helper ∈ p.probeHelper, ∀ el ∈ helper.vocabElements,
    [] ∉ lang τ g.productions el

section

variable {T : Type*} {τ : Element → Language T} {verdict : Verdict}

/-- A checked grammar whose cycles are of terminals is desugared into one whose iterations
consume. -/
theorem iterationsConsume_desugar {g g' : Grammar} (hτ : ZeroWidth verdict τ)
    (hcheck : ∀ p ∈ g.productions, Consumes verdict (nonConsumingRules verdict g.productions) p)
    (hcycles : ∀ p ∈ g.productions, TerminalCycles p)
    (hcap : ∀ n ∈ g.refs, n ∈ g'.names → n ∈ g.names) (h : desugar g = .ok g') :
    IterationsConsume τ g' := by
  obtain ⟨M, hM⟩ := desugar_consumes hcheck (fun p hp => (hcycles p hp).loop) hcap h
  have hempty : ∀ el, [] ∈ lang τ g'.productions el → elementDerivesEmpty verdict M el = true :=
    fun el => derivesEmpty_of_nil_mem_lang hτ hM.closed
  refine ⟨fun p hp hloop => ?_, fun p' hp' spec hspec hnil => ?_,
    fun p' hp' helper hhelper el hel hnil => ?_⟩
  · obtain ⟨x, halts, hx⟩ := hM.loop p hp hloop
    refine ⟨x, halts, fun hnil => ?_⟩
    exact absurd (hx.symm.trans (hempty x hnil)) Bool.false_ne_true
  · rcases hM.source p' hp' with hhelper | ⟨p, hp, hrw⟩
    · rw [hhelper.tailRepeat] at hspec
      cases hspec
    · rw [hrw.tailRepeat] at hspec
      obtain ⟨pre, halts, hne, hterm⟩ := (hcycles p hp).tail spec hspec
      have halts' : p'.alts = [pre] := by
        rw [hrw.terminals, halts]
        intro α hα el hel
        rw [halts, List.mem_singleton] at hα
        exact hterm el (List.mem_append_right _ (hα ▸ hel))
      have hcycle : tailCycle p' spec = spec.sep ++ pre := by rw [tailCycle, halts']; rfl
      have hsame : tailCycle p spec = spec.sep ++ pre := by rw [tailCycle, halts]; rfl
      have hfalse := (hcheck p hp).tail spec hspec (by simp [hsame, hne])
      rw [hsame] at hfalse
      rw [hcycle, lang_eq_den', nil_mem_seq] at hnil
      refine absurd (hfalse.symm.trans (sequenceDerivesEmpty_iff.mpr fun el hel => ?_))
        Bool.false_ne_true
      have hmem := hnil el hel
      rw [← lang_eq_den'] at hmem
      rw [derivesEmpty_terminal (hterm el hel)]
      exact hempty el hmem
  · rcases hM.source p' hp' with hmint | ⟨p, hp, hrw⟩
    · rw [hmint.probeHelper] at hhelper
      cases hhelper
    · rw [hrw.probeHelper] at hhelper
      have hterm := (hcycles p hp).vocab helper hhelper el hel
      have hfalse := (hcheck p hp).vocab helper hhelper el hel
      unfold elementMayMatchWithoutConsuming at hfalse
      rw [derivesEmpty_terminal hterm] at hfalse
      exact absurd (hfalse.symm.trans (hempty el hnil)) Bool.false_ne_true

/-- **Every iteration consumes**, of the grammar any grammar is rewritten and desugared to, unless
a helper takes the name of a reference that named no production. -/
theorem iterations_consume {diag start : String} {lower upper : Char → Char}
    {keep : List String} {fuel : Nat} {grammar g₁ g₂ g₃ g' : Grammar}
    (hτ : ZeroWidth verdict τ)
    (heliminate : eliminateLeftRecursionKeeping diag grammar keep = .ok g₁)
    (hprobe : rewriteProbeDispatches diag g₁ = .ok g₂)
    (hfactor : leftFactor diag lower upper g₂ fuel = some (.ok g₃))
    (hvalidate : validateRepetitions diag verdict (rewriteTailRepeats g₃ start) = .ok ())
    (hdesugar : desugar (rewriteTailRepeats g₃ start) = .ok g')
    (hcap : ∀ n ∈ (rewriteTailRepeats g₃ start).refs,
      n ∈ g'.names → n ∈ (rewriteTailRepeats g₃ start).names) :
    IterationsConsume τ g' :=
  iterationsConsume_desugar hτ (validateRepetitions_ok hvalidate)
    (rewriteTailRepeats_cycles (leftFactor_cycles
      (rewriteProbeDispatches_cycles (eliminate_cycles heliminate) hprobe) hfactor)) hcap hdesugar

end

/-- A terminal stands for every word, the empty one where it may match nothing. -/
def anyWord (verdict : Verdict) (el : Element) : Language String :=
  {w | w = [] → elementDerivesEmpty verdict [] el = true}

theorem zeroWidth_anyWord (verdict : Verdict) : ZeroWidth verdict (anyWord verdict) :=
  fun _ _ => ⟨fun h => h rfl, fun h _ => h⟩

/-- `S = 1*( X ";" )`, `X = "a" [ "," X ]`: a loop and a tail repeat. -/
def repeating : Grammar where
  productions := [
    { name := "S", alts := [[.plus (.group [[.reference "X", .lit ";"]] none) none]] },
    { name := "X", alts := [[.lit "a",
      .opt (.group [[.lit ",", .reference "X"]] none) none]] }]

theorem repeating_eliminated :
    eliminateLeftRecursionKeeping "bnf" repeating [] = .ok repeating := rfl

theorem repeating_probed : rewriteProbeDispatches "bnf" repeating = .ok repeating := rfl

theorem repeating_factored : leftFactor "bnf" id id repeating 3 = some (.ok repeating) := rfl

theorem iterations_consume_repeating :
    ∃ g', desugar (rewriteTailRepeats repeating "S") = .ok g' ∧
      IterationsConsume (anyWord fun _ _ => false) g' := by
  have hok : (desugar (rewriteTailRepeats repeating "S")).isOk = true := by decide +kernel
  have hcap : ∀ g', desugar (rewriteTailRepeats repeating "S") = .ok g' →
      ∀ n ∈ (rewriteTailRepeats repeating "S").refs, n ∈ g'.names →
        n ∈ (rewriteTailRepeats repeating "S").names :=
    fun g' _ n hn _ => (by decide : ∀ n ∈ (rewriteTailRepeats repeating "S").refs,
      n ∈ (rewriteTailRepeats repeating "S").names) n hn
  obtain ⟨g', hg'⟩ := exists_ok hok
  exact ⟨g', hg', iterations_consume (zeroWidth_anyWord _) repeating_eliminated repeating_probed
    repeating_factored rfl hg' (hcap g' hg')⟩

/-- `S = *X`, `X = "a" / _gen1_star_X`: the name desugaring gives the loop. -/
def spinning : Grammar where
  productions := [
    { name := "S", alts := [[.star (.reference "X") none none]] },
    { name := "X", alts := [[.lit "a"], [.reference "_gen1_star_X"]] }]

/-- What `spinning` is desugared into. -/
def spun : Grammar where
  productions := [
    { name := "S", alts := [[.reference "_gen1_star_X"]] },
    { name := "X", alts := [[.lit "a"], [.reference "_gen1_star_X"]] },
    { Production.helper "_gen1_star_X" [[.reference "X", .reference "_gen1_star_X"], []] "S" with
      repeatHelper := true, repeatLoop := true }]

/-- The loop over `X` is what `X` refers to now: the claim fails on `spinning`, which passes both
validations. -/
theorem iterations_spin :
    ¬ ∀ (grammar g₁ g₂ g₃ g' : Grammar) (out : EliminatedGrammar) (fuel : Nat),
      eliminateLeftRecursionKeeping "bnf" grammar [] = .ok g₁ →
      eliminateKeepingWith "bnf" grammar [] = .ok out →
      validateRewriteRepetitions "bnf" (fun _ _ => false) out.grammar out.sources = .ok () →
      rewriteProbeDispatches "bnf" g₁ = .ok g₂ →
      leftFactor "bnf" id id g₂ fuel = some (.ok g₃) →
      validateRepetitions "bnf" (fun _ _ => false) (rewriteTailRepeats g₃ "S") = .ok () →
      desugar (rewriteTailRepeats g₃ "S") = .ok g' →
      IterationsConsume (anyWord fun _ _ => false) g' := by
  intro h
  obtain ⟨out, hout⟩ := exists_ok
    (show (eliminateKeepingWith "bnf" spinning []).isOk = true by decide +kernel)
  have hfirst : ((eliminateKeepingWith "bnf" spinning []).toOption.any fun out =>
      (validateRewriteRepetitions "bnf" (fun _ _ => false) out.grammar out.sources).isOk) =
        true := by decide +kernel
  rw [hout] at hfirst
  have hvalid := eq_ok_of_isOk hfirst ()
  have hspun := h spinning spinning spinning spinning spun out 3 rfl hout hvalid rfl rfl rfl rfl
  obtain ⟨item, halts, hnil⟩ := hspun.loop _ (List.mem_of_getElem? (i := 2) rfl) rfl
  obtain rfl : Element.reference "X" = item := by
    simpa [Production.helper] using congrArg (fun alts => (alts.head?.bind List.head?)) halts
  rw [lang_eq_den, Element.reference, den_ref] at hnil
  have hloop : [] ∈ nameLang (anyWord fun _ _ => false) spun.productions "_gen1_star_X" :=
    mem_nameLang.mpr ⟨_, List.mem_of_getElem? (i := 2) rfl, rfl, [],
      List.mem_of_getElem? (i := 1) rfl, rfl⟩
  refine hnil (mem_nameLang.mpr ⟨_, List.mem_of_getElem? (i := 1) rfl, rfl,
    [.reference "_gen1_star_X"], List.mem_of_getElem? (i := 1) rfl, ?_⟩)
  rwa [Cf.seq_singleton, Element.reference, den_ref]

end TabnasBnf
