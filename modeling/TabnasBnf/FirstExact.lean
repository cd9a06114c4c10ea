import TabnasBnf.Desugared
import TabnasBnf.EmitWrites

/-!
# FIRST is exact

`compute_first_sets` on a desugared grammar without token classes: the tokens a production's
strings begin with, and whether it derives the empty string (`computeFirstSets_exact`), as long as
every name that is referred to derives a token string. A name that derives none makes FIRST list
tokens no string begins with (`computeFirstSets_dangling`): the walk over an alternative does not
know that what follows an element is never reached.

* `FirstFact.Holds` is what a fact says; each rule of the saturation keeps it (`holds_altFirst`), so
  the saturation does. That the facts are all is the least-solution rule `nameLang_le`.
-/

namespace TabnasBnf

open Saturate

section

variable {grammar : Grammar} {tokens : Tokens}

/-- What a fact says of the languages of the names. -/
def FirstFact.Holds (ρ : Env String) : FirstFact → Prop
  | .first n t => ∃ w, t :: w ∈ ρ n
  | .nullable n => [] ∈ ρ n

/-- An alternative derives what the production does. -/
theorem mem_tailLang_of_alt {p : Production} (hp : p ∈ grammar.productions) {alt : Sequence}
    (halt : alt ∈ p.alts) {w : List String}
    (hw : w ∈ Cf.seq (den (tokenLeaf tokens) (tailLang grammar tokens [])) alt) :
    w ∈ tailLang grammar tokens [] p.name := by
  refine mem_tailLang hp rfl ?_
  unfold readTail
  split
  · next tail htail =>
    -- no repetition of the cycle
    refine mem_altsDen.mpr ⟨_, List.mem_map_of_mem halt, ?_⟩
    rw [Cf.seq_append, Cf.seq_singleton, den_star]
    have hmul := Language.append_mem_mul hw (Language.nil_mem_kstar
      (den (tokenLeaf tokens) (tailLang grammar tokens []) (.group [tail.sep ++ alt] none)))
    rwa [List.append_nil] at hmul
  · exact mem_altsDen.mpr ⟨alt, halt, hw⟩

/-- A sequence whose references derive a string derives one. -/
theorem exists_mem_seq {ρ : Env String} : ∀ (β : Sequence),
    (∀ el ∈ β, el.isTerminal = true ∨ el.isRef = true) → (∀ n ∈ refsIn β, ∃ w, w ∈ ρ n) →
      ∃ w, w ∈ Cf.seq (den (tokenLeaf tokens) ρ) β
  | [], _, _ => ⟨[], rfl⟩
  | el :: β, hplain, hrefs => by
    obtain ⟨hel, hplain⟩ := List.forall_mem_cons.mp hplain
    obtain ⟨v, hv⟩ := exists_mem_seq β hplain fun n hn => hrefs n (List.mem_append_right _ hn)
    have hhead : ∃ w, w ∈ den (tokenLeaf tokens) ρ el := by
      rcases hel with hterm | href
      · exact ⟨[tokens.name el], by rw [den_terminal hterm]; rfl⟩
      · obtain ⟨n, hn⟩ := Element.isRef_iff.mp href
        obtain ⟨debt, sp, rfl⟩ := Element.refName_eq_some.mp hn
        obtain ⟨w, hw⟩ := hrefs n (List.mem_append_left _ (List.mem_singleton.mpr rfl))
        exact ⟨w, by rwa [den_ref]⟩
    obtain ⟨w, hw⟩ := hhead
    exact ⟨w ++ v, by rw [Cf.seq_cons]; exact Language.append_mem_mul hw hv⟩

/-- What the walk over an alternative adds holds, when what it reads holds. -/
theorem holds_altFirst {ρ : Env String} {sets : FirstSets} {name : String}
    (hsets : ∀ f ∈ sets, f.Holds ρ) : ∀ (β : Sequence),
      (∀ el ∈ β, el.isTerminal = true ∨ el.isRef = true) → (∀ n ∈ refsIn β, ∃ w, w ∈ ρ n) →
      Cf.seq (den (tokenLeaf tokens) ρ) β ≤ ρ name →
        ∀ f ∈ altFirst tokens sets name β, f.Holds ρ
  | [], _, _, hle, f, hf => by
    obtain rfl := List.mem_singleton.mp hf
    exact hle (Language.mem_one _ |>.mpr rfl)
  | el :: β, hplain, hrefs, hle, f, hf => by
    obtain ⟨hel, hplain'⟩ := List.forall_mem_cons.mp hplain
    have hrefs' : ∀ n ∈ refsIn β, ∃ w, w ∈ ρ n := fun n hn =>
      hrefs n (List.mem_append_right _ hn)
    obtain ⟨v, hv⟩ : ∃ v, v ∈ Cf.seq (den (tokenLeaf tokens) ρ) β :=
      exists_mem_seq β hplain' hrefs'
    have hbegin : ∀ t w, t :: w ∈ den (tokenLeaf tokens) ρ el →
        (FirstFact.first name t).Holds ρ := by
      intro t w hw
      refine ⟨w ++ v, hle ?_⟩
      rw [Cf.seq_cons]
      exact Language.append_mem_mul hw hv
    rcases hel with hterm | href
    · have hfact : f = .first name (tokens.name el) := by
        cases el <;> first | exact List.mem_singleton.mp hf | cases hterm
      rw [hfact]
      exact hbegin _ [] (by rw [den_terminal hterm]; rfl)
    · obtain ⟨m, hm⟩ := Element.isRef_iff.mp href
      obtain ⟨debt, sp, rfl⟩ := Element.refName_eq_some.mp hm
      rcases List.mem_append.mp hf with hf | hf
      · obtain ⟨t, ht, rfl⟩ := List.mem_map.mp hf
        obtain ⟨w, hw⟩ := hsets _ (FirstSets.mem_get.mp ht)
        exact hbegin t w (by rwa [den_ref])
      · split at hf
        · next hnull =>
          -- what follows a reference that may vanish may come first
          refine holds_altFirst hsets β hplain' hrefs' (fun w hw => hle ?_) f hf
          have hnil : [] ∈ ρ m := hsets _ (FirstSets.isNullable_iff.mp hnull)
          rw [Cf.seq_cons, den_ref]
          exact Language.append_mem_mul hnil hw
        · cases hf

/-- **What FIRST says holds** of languages that solve the grammar's equations, when every name
referred to has a string. -/
theorem holds_computeFirstSets {classSets : List (String × String)} {ρ : Env String}
    (hplain : Plain grammar) (hrefs : ∀ n ∈ grammar.refs, ∃ w, w ∈ ρ n)
    (hclass : ∀ p ∈ grammar.productions, ∀ set, classSets.lookup p.name = some set →
      [set] ∈ ρ p.name)
    (halts : ∀ p ∈ grammar.productions, classSets.lookup p.name = none → ∀ α ∈ p.alts,
      Cf.seq (den (tokenLeaf tokens) ρ) α ≤ ρ p.name) :
    ∀ f ∈ computeFirstSets grammar tokens classSets, f.Holds ρ := by
  refine subset_of_closed (fun r hr s hs => ?_) _ fun f hf => ?_
  · obtain ⟨p, hp, hr⟩ := List.mem_flatMap.mp hr
    split at hr
    · cases hr
    · next hnone =>
      obtain ⟨α, hα, rfl⟩ := List.mem_map.mp hr
      refine holds_altFirst hs α (hplain p hp α hα) (fun n hn => hrefs n ?_)
        (halts p hp (Option.not_isSome_iff_eq_none.mp hnone) α hα)
      exact List.mem_flatMap.mpr ⟨p, hp, mem_refsInAlts.mpr ⟨α, hα, hn⟩⟩
  · obtain ⟨p, hp, hf⟩ := List.mem_filterMap.mp ((mem_addAll.mp hf).resolve_left List.not_mem_nil)
    obtain ⟨set, hset, rfl⟩ := Option.map_eq_some_iff.mp hf
    exact ⟨[], hclass p hp set hset⟩

/-- A string that says nothing the facts do not: they have its first token, or say that the name
vanishes. -/
def Told (sets : FirstSets) (n : String) : List String → Prop
  | [] => .nullable n ∈ sets
  | t :: _ => .first n t ∈ sets

/-- What an alternative derives is told by what its walk adds. -/
theorem told_of_altFirst {ρ : Env String} {sets : FirstSets} {name : String}
    (hρ : ∀ n, ∀ w ∈ ρ n, Told sets n w) : ∀ (β : Sequence),
      (∀ el ∈ β, el.isTerminal = true ∨ el.isRef = true) →
      (∀ f ∈ altFirst tokens sets name β, f ∈ sets) →
        ∀ w ∈ Cf.seq (den (tokenLeaf tokens) ρ) β, Told sets name w
  | [], _, hclosed, w, hw => by
    obtain rfl := (Language.mem_one _).mp hw
    exact hclosed _ (List.mem_singleton.mpr rfl)
  | el :: β, hplain, hclosed, w, hw => by
    obtain ⟨hel, hplain'⟩ := List.forall_mem_cons.mp hplain
    rw [Cf.seq_cons] at hw
    obtain ⟨a, ha, b, hb, rfl⟩ := Language.mem_mul.mp hw
    rcases hel with hterm | href
    · rw [den_terminal hterm] at ha
      obtain rfl : a = [tokens.name el] := ha
      refine hclosed _ ?_
      cases el <;> first | exact List.mem_singleton.mpr rfl | cases hterm
    · obtain ⟨m, hm⟩ := Element.isRef_iff.mp href
      obtain ⟨debt, sp, rfl⟩ := Element.refName_eq_some.mp hm
      rw [den_ref] at ha
      cases a with
      | cons t a =>
        have ht : .first m t ∈ sets := hρ m _ ha
        exact hclosed _ (List.mem_append_left _
          (List.mem_map.mpr ⟨t, FirstSets.mem_get.mpr ht, rfl⟩))
      | nil =>
        have hnull : sets.isNullable m = true := FirstSets.isNullable_iff.mpr (hρ m _ ha)
        refine told_of_altFirst hρ β hplain' (fun f hf => hclosed f ?_) b hb
        refine List.mem_append_right _ ?_
        rwa [if_pos hnull]

/-- **FIRST tells every string.** -/
theorem told_computeFirstSets (hg : Desugared grammar) {n : String} {w : List String}
    (hw : w ∈ tailLang grammar tokens [] n) : Told (computeFirstSets grammar tokens []) n w := by
  set sets := computeFirstSets grammar tokens []
  have hclosed : FirstClosed grammar tokens [] sets := computeFirstSets_closed
  let ρ : Env String := fun m => {w | Told sets m w}
  have hρ : ∀ m, ∀ w ∈ ρ m, Told sets m w := fun _ _ h => h
  have hsolves : Solves (tokenLeaf tokens)
      (grammar.productions.map fun p => readClass [] (readTail p)) ρ := by
    intro q hq w hw
    obtain ⟨p, hp, rfl⟩ := List.mem_map.mp hq
    show Told sets (readTail p).name w
    have halt : ∀ α ∈ p.alts, ∀ w ∈ Cf.seq (den (tokenLeaf tokens) ρ) α, Told sets p.name w :=
      fun α hα => told_of_altFirst hρ α (hg.plain p hp α hα) (hclosed.of_alt p hp rfl α hα)
    unfold readClass at hw
    change w ∈ altsDen (tokenLeaf tokens) ρ (readTail p).alts at hw
    unfold readTail at hw ⊢
    split at hw
    · next spec hspec =>
      -- the prefix is not empty, and what is repeated comes behind it
      obtain ⟨pre, halts, hne, hterm⟩ := hg.tail p hp spec hspec
      obtain ⟨el, rest, rfl⟩ := List.exists_cons_of_ne_nil hne
      have hel := hterm el (List.mem_append_right _ List.mem_cons_self)
      rw [halts, List.map_singleton] at hw
      simp only [altsDen_cons, altsDen_nil, add_zero, List.cons_append, Cf.seq_cons] at hw
      rw [den_terminal hel] at hw
      obtain ⟨a, ha, b, -, rfl⟩ := Language.mem_mul.mp hw
      obtain rfl : a = [tokens.name el] := ha
      refine hclosed.of_alt p hp rfl (el :: rest) (halts ▸ List.mem_singleton.mpr rfl) _ ?_
      cases el <;> first | exact List.mem_singleton.mpr rfl | cases hel
    · obtain ⟨α, hα, hw⟩ := mem_altsDen.mp hw
      exact halt α hα w hw
  exact nameLang_le hsolves n hw

/-- **FIRST is exact** on a desugared grammar without token classes in which every name that is
referred to derives a token string: it has the tokens the strings of a name begin with, and the
names that derive the empty string. The last pass has added nothing. -/
theorem computeFirstSets_exact (hg : Desugared grammar)
    (hrefs : ∀ n ∈ grammar.refs, ∃ w, w ∈ tailLang grammar tokens [] n) :
    let sets := computeFirstSets grammar tokens []
    pass (firstRules grammar tokens []) sets = sets ∧
      ∀ n, (∀ t, t ∈ sets.get n ↔ ∃ w, t :: w ∈ tailLang grammar tokens [] n) ∧
        (sets.isNullable n = true ↔ [] ∈ tailLang grammar tokens [] n) := by
  intro sets
  have hsound : ∀ f ∈ sets, f.Holds (tailLang grammar tokens []) :=
    holds_computeFirstSets hg.plain hrefs (fun _ _ _ h => by cases h)
      fun p hp _ α hα _ hw => mem_tailLang_of_alt hp hα hw
  refine ⟨?_, fun n => ⟨fun t => ⟨fun ht => ?_, fun ⟨w, hw⟩ => ?_⟩, fun hn => ?_, fun hn => ?_⟩⟩
  · refine pass_eq_of_closed fun r hr f hf => ?_
    obtain ⟨p, hp, hr⟩ := List.mem_flatMap.mp hr
    rw [if_neg (by simp)] at hr
    obtain ⟨α, hα, rfl⟩ := List.mem_map.mp hr
    exact computeFirstSets_closed.of_alt p hp rfl α hα f hf
  · exact hsound _ (FirstSets.mem_get.mp ht)
  · exact FirstSets.mem_get.mpr (told_computeFirstSets hg hw)
  · exact hsound _ (FirstSets.isNullable_iff.mp hn)
  · exact FirstSets.isNullable_iff.mpr (told_computeFirstSets hg hn)

end

/-! ## A list, and a reference to nothing -/

/-- `S = X S / (empty)`, `X = #NR (#CA #NR)*`. -/
def numberLists : Grammar where
  productions :=
    [{ name := "S", alts := [[.reference "X", .reference "S"], []] },
     { name := "X", alts := [[.token "#NR" none]], tailRepeat := some ⟨[.token "#CA" none]⟩ }]

theorem numberLists_derives : ∀ n ∈ numberLists.refs, ∃ w, w ∈ tailLang numberLists {} [] n := by
  have hs : [] ∈ tailLang numberLists {} [] "S" :=
    mem_tailLang_of_alt (p := numberLists.productions[0]) (by simp [numberLists])
      (show [] ∈ numberLists.productions[0].alts by simp [numberLists]) rfl
  have hx : ["#NR"] ∈ tailLang numberLists {} [] "X" := by
    refine mem_tailLang_of_alt (p := numberLists.productions[1]) (by simp [numberLists])
      (List.mem_singleton.mpr rfl) ?_
    rw [Cf.seq_singleton, den_terminal rfl]
    rfl
  intro n hn
  obtain rfl | rfl : n = "X" ∨ n = "S" := by
    simpa [numberLists, Grammar.refs, refsInAlts, refsIn, Element.reference, Element.refs] using hn
  · exact ⟨_, hx⟩
  · exact ⟨_, hs⟩

theorem desugared_numberLists : Desugared numberLists := by
  refine ⟨by simp [Plain, numberLists, Element.reference, Element.isTerminal, Element.isRef], ?_⟩
  simp [TailOfTerminals, numberLists, Element.isTerminal]

theorem computeFirstSets_exact_numberLists :
    (∀ t, t ∈ (computeFirstSets numberLists {} []).get "S" ↔
      ∃ w, t :: w ∈ tailLang numberLists {} [] "S") ∧
    ((computeFirstSets numberLists {} []).isNullable "S" = true ↔
      [] ∈ tailLang numberLists {} [] "S") :=
  (computeFirstSets_exact desugared_numberLists numberLists_derives).2 "S"

/-- `S = #NR nope / #TX`. -/
def unreached : Grammar where
  productions := [{ name := "S", alts := [[.token "#NR" none, .reference "nope"],
    [.token "#TX" none]] }]

def unreachedCompile : Compile plainSetting unreached := .leftAlone unreached "S" 2

/-- `S` derives `#TX` alone, and FIRST has `#NR` too. -/
theorem computeFirstSets_unreached :
    ¬ ∀ (grammar : Grammar) (c : Compile plainSetting grammar),
      (∀ n ∈ c.desugared.names, ∃ w, w ∈ tailLang c.desugared {} [] n) →
      ∀ n t, t ∈ (computeFirstSets c.desugared {} []).get n →
        ∃ w, t :: w ∈ tailLang c.desugared {} [] n := by
  intro h
  have hderives : ["#TX"] ∈ tailLang unreached {} [] "S" := by
    have halt : [.token "#TX" none] ∈ unreached.productions[0].alts := by simp [unreached]
    refine mem_tailLang_of_alt (p := unreached.productions[0]) List.mem_cons_self halt ?_
    rw [Cf.seq_singleton, den_terminal rfl]
    rfl
  have hfirst : "#NR" ∈ (computeFirstSets unreached {} []).get "S" := by decide +kernel
  have hall : ∀ n ∈ unreached.names, ∃ w, w ∈ tailLang unreached {} [] n := by
    intro n hn
    obtain rfl : n = "S" := by simpa [unreached, Grammar.names, namesOf] using hn
    exact ⟨_, hderives⟩
  obtain ⟨w, hw⟩ := h unreached unreachedCompile hall "S" "#NR" hfirst
  let ρ : Env String := fun n => if n = "S" then {["#TX"]} else 0
  have hsolves : Solves (tokenLeaf {})
      (unreached.productions.map fun p => readClass [] (readTail p)) ρ := by
    intro p hp w hw
    obtain rfl := List.mem_singleton.mp hp
    obtain ⟨α, hα, hw⟩ := mem_altsDen.mp hw
    obtain rfl | rfl : α = [.token "#NR" none, .reference "nope"] ∨ α = [.token "#TX" none] := by
      simpa [readClass, readTail] using hα
    · rw [Cf.seq_cons, Cf.seq_singleton, Element.reference, den_ref] at hw
      simp [ρ] at hw
    · rw [Cf.seq_singleton, den_terminal rfl] at hw
      exact hw
  have hmem : "#NR" :: w = ["#TX"] := nameLang_le hsolves "S" hw
  simp at hmem

end TabnasBnf
