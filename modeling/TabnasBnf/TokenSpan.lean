import TabnasBnf.Factor
import TabnasBnf.Lib.Loop
import Mathlib.Data.ENat.Lattice

/-!
# The span of a sequence

`seq_token_span` answers how many tokens a sequence can span at most, up to the dispatcher's
lookahead. Here its walk is the machine of the source, frame by frame (`spanStep`), and the answer
is compared with the span itself, which knows no bound (`mostSeq`).

* `capped_element`: the recursion of `spanElement` is exact up to the room it is given.
* `runs_element`: the walk computes that recursion, and leaves every rule it entered.
* **`spanWalk_spec`**: the walk ends, with the span when that is within the lookahead.
-/

namespace TabnasBnf

/-! ## The span -/

section

variable (enter : String → ℕ∞)

mutual
/-- The most tokens an element spans; `enter` spans a rule. -/
noncomputable def mostElement : Element → ℕ∞
  | .term .. | .regex .. | .token .. => 1
  | .prose .. | .star .. | .plus .. => ⊤
  | .opt inner _ => mostElement inner
  | .rep _ none _ _ => ⊤
  | .rep _ (some 0) _ _ => 0
  | .rep _ (some (times + 1)) inner _ => (times + 1 : Nat) * mostElement inner
  | .group alts _ => mostAlts alts
  | .ref name _ _ => enter name

/-- The most tokens a sequence spans. -/
noncomputable def mostSeq : List Element → ℕ∞
  | [] => 0
  | el :: rest => mostElement el + mostSeq rest

/-- The most tokens an alternative spans. -/
noncomputable def mostAlts : List (List Element) → ℕ∞
  | [] => 0
  | alt :: rest => max (mostSeq alt) (mostAlts rest)
end

end

/-- The most tokens a rule spans, on a way through other rules: one met again is unbounded. -/
noncomputable def mostRule (grammar : Grammar) (way : List String) (name : String) : ℕ∞ :=
  if _hway : name ∈ way then ⊤
  else match _hfind : grammar.find name with
    | none => ⊤
    | some target =>
      if target.alts.isEmpty then ⊤
      else mostAlts (fun next => mostRule grammar (name :: way) next) target.alts
termination_by (unvisited grammar way).length
decreasing_by exact length_unvisited_cons (mem_names_of_find _hfind).1 _hway

theorem mostRule_eq (grammar : Grammar) (way : List String) (name : String) :
    mostRule grammar way name =
      if name ∈ way then ⊤
      else match grammar.find name with
        | none => ⊤
        | some target =>
          if target.alts.isEmpty then ⊤
          else mostAlts (mostRule grammar (name :: way)) target.alts := by
  rw [mostRule]
  split
  · rfl
  · split
    next hfind => rw [hfind]
    next target hfind => rw [hfind]

/-! ## The recursion is exact up to its room -/

/-- `v` is `m` as far as the room goes: it is right, and there when `m` fits. -/
def Capped (room : Nat) (v : Option Nat) (m : ℕ∞) : Prop :=
  (∀ n, v = some n → m = n) ∧ (m ≤ room → v.isSome)

theorem capped_some {room n : Nat} : Capped room (some n) n :=
  ⟨fun _ h => congrArg _ (Option.some.inj h), fun _ => rfl⟩

theorem capped_none {room : Nat} {m : ℕ∞} (h : ¬m ≤ room) : Capped room none m := by
  refine ⟨fun n hn => ?_, fun hm => absurd hm h⟩
  cases hn

theorem capped_top {room : Nat} : Capped room none ⊤ := capped_none (by simp)

/-- What does not fit beside what is there does not fit. -/
theorem not_add_le {room total : Nat} {m : ℕ∞} (h : ¬m ≤ (room - total : Nat)) :
    ¬(total : ℕ∞) + m ≤ room := by
  intro hm
  have hfinite : m ≠ ⊤ := by
    rintro rfl
    simp at hm
  obtain ⟨k, rfl⟩ := ENat.ne_top_iff_exists.mp hfinite
  have hle : total + k ≤ room := by exact_mod_cast hm
  have hk : k ≤ room - total := by omega
  exact h (by exact_mod_cast hk)

/-- A repetition spreads its room over its iterations. -/
theorem capped_rep {room times : Nat} {v : Option Nat} {m : ℕ∞} (hroom : room ≤ lookaheadK)
    (h : Capped (room / (times + 1)) v m) :
    Capped room (v.bind (checkedMul (times + 1))) ((times + 1 : Nat) * m) := by
  constructor
  · intro n hn
    obtain ⟨k, rfl, hk⟩ := Option.bind_eq_some_iff.mp hn
    rw [h.1 k rfl]
    unfold checkedMul at hk
    split at hk
    · rw [← Option.some.inj hk]
      push_cast
      rfl
    · cases hk
  · intro hm
    have hfinite : m ≠ ⊤ := by
      rintro rfl
      rw [ENat.mul_top (by simp)] at hm
      simp at hm
    obtain ⟨k, rfl⟩ := ENat.ne_top_iff_exists.mp hfinite
    have hle : (times + 1) * k ≤ room := by exact_mod_cast hm
    have hdiv : k ≤ room / (times + 1) :=
      (Nat.le_div_iff_mul_le (by omega)).mpr (by rwa [Nat.mul_comm])
    obtain ⟨j, rfl⟩ := Option.isSome_iff_exists.mp (h.2 (by exact_mod_cast hdiv))
    have hj : k = j := by exact_mod_cast h.1 j rfl
    subst hj
    have hsmall : (times + 1) * k < 2 ^ 64 := by
      have : lookaheadK < 2 ^ 64 := by decide
      omega
    rw [Option.bind_some, checkedMul, if_pos hsmall]
    rfl

section

variable {enter : String → Nat → Option Nat} {most : String → ℕ∞}

mutual
theorem capped_element (h : ∀ name, ∀ room ≤ lookaheadK, Capped room (enter name room) (most name)) :
    ∀ (el : Element) (room : Nat), room ≤ lookaheadK →
      Capped room (spanElement enter room el) (mostElement most el)
  | .term .., _, _ | .regex .., _, _ | .token .., _, _ => capped_some (n := 1)
  | .prose .., _, _ | .star .., _, _ | .plus .., _, _ => capped_top
  | .opt inner _, room, hroom => capped_element h inner room hroom
  | .rep _ none _ _, _, _ => capped_top
  | .rep _ (some 0) _ _, _, _ => capped_some (n := 0)
  | .rep _ (some (times + 1)) inner _, room, hroom =>
    capped_rep hroom (capped_element h inner _ ((Nat.div_le_self _ _).trans hroom))
  | .group alts _, room, hroom => by
    have halts := capped_alts h alts room 0 hroom
    simpa [spanElement, mostElement] using halts
  | .ref name _ _, room, hroom => h name room hroom

theorem capped_seq (h : ∀ name, ∀ room ≤ lookaheadK, Capped room (enter name room) (most name)) :
    ∀ (seq : List Element) (room total : Nat), room ≤ lookaheadK →
      Capped room (spanSeq enter room seq total) (total + mostSeq most seq) ∧
        ∀ n, spanSeq enter room seq total = some n → n ≤ room
  | [], room, total, _ => by
    rw [spanSeq, mostSeq, add_zero]
    split
    next hover =>
      have hnot : ¬(total : ℕ∞) ≤ room := by exact_mod_cast hover.not_ge
      exact ⟨capped_none hnot, fun n hn => by cases hn⟩
    next hover => exact ⟨capped_some, fun n hn => Option.some.inj hn ▸ Nat.not_lt.mp hover⟩
  | el :: rest, room, total, hroom => by
    have hel := capped_element h el (room - total) ((Nat.sub_le _ _).trans hroom)
    rw [spanSeq, mostSeq]
    split
    next hover =>
      have hnot : ¬(total : ℕ∞) ≤ room := by exact_mod_cast hover.not_ge
      exact ⟨capped_none fun hm => hnot (le_self_add.trans hm), fun n hn => by cases hn⟩
    next hover =>
      split
      next hnone =>
        have hover : ¬mostElement most el ≤ (room - total : Nat) := fun hm => by
          simpa [hnone] using hel.2 hm
        refine ⟨capped_none fun hm => not_add_le hover (le_trans ?_ hm), fun n hn => by cases hn⟩
        rw [← add_assoc]
        exact le_self_add
      next n hn =>
        rw [hel.1 n hn, ← add_assoc, ← Nat.cast_add]
        exact capped_seq h rest room (total + n) hroom

theorem capped_alts (h : ∀ name, ∀ room ≤ lookaheadK, Capped room (enter name room) (most name)) :
    ∀ (alts : List (List Element)) (room found : Nat), room ≤ lookaheadK →
      Capped room (spanAlts enter room alts found) (max found (mostAlts most alts))
  | [], room, found, _ => by
    have hmax : max (found : ℕ∞) 0 = found := max_eq_left bot_le
    rw [spanAlts, mostAlts, hmax]
    exact capped_some
  | alt :: rest, room, found, hroom => by
    have halt := (capped_seq h alt room 0 hroom).1
    rw [Nat.cast_zero, zero_add] at halt
    rw [spanAlts, mostAlts]
    split
    next hnone =>
      refine capped_none fun hm => ?_
      have hfits := halt.2 ((le_max_left _ _).trans ((le_max_right _ _).trans hm))
      simp [hnone] at hfits
    next n hn =>
      have hmax : max (found : ℕ∞) n = (max found n : Nat) := (Nat.mono_cast.map_max).symm
      rw [halt.1 n hn, ← max_assoc, hmax]
      exact capped_alts h rest room (max found n) hroom
end

end

/-- A rule's span is exact up to its room, with depth for every rule that is not on the way. -/
theorem capped_rule {grammar : Grammar} {depth : Nat} {way : List String}
    (hdepth : (unvisited grammar way).length < depth) (name : String) (room : Nat)
    (hroom : room ≤ lookaheadK) :
    Capped room (enterRule grammar depth way name room) (mostRule grammar way name) := by
  induction depth generalizing way name room with
  | zero => exact absurd hdepth (Nat.not_lt_zero _)
  | succ depth ih =>
    rw [enterRule, mostRule_eq]
    by_cases hway : name ∈ way
    · rw [if_pos (by simpa using hway), if_pos hway]
      exact capped_top
    · rw [if_neg (by simpa using hway), if_neg hway]
      cases hfind : grammar.find name with
      | none => exact capped_top
      | some target =>
        dsimp only
        split
        next => exact capped_top
        next =>
          have hless := length_unvisited_cons (mem_names_of_find hfind).1 hway
          have hrest := capped_alts (fun next room hroom =>
            @ih (name :: way) (by omega) next room hroom) target.alts room 0 hroom
          have hmax : ∀ m : ℕ∞, max ((0 : Nat) : ℕ∞) m = m := fun m => max_eq_right bot_le
          rwa [hmax] at hrest

/-! ## The walk -/

/-- `SpanFrame`: the elements and the alternatives still to come. -/
inductive SpanFrame where
  | seq (elements : List Element) (total room : Nat)
  | alts (alternatives : List (List Element)) (most room : Nat) (rule : Option String)
  | rep (times : Nat)

/-- The walk: its frames, the rules on its way, and what the frame on top was waiting for. -/
structure SpanState where
  stack : List SpanFrame
  onWay : List String
  back : Option (Option Nat)

/-- `saturating_add`. -/
def saturatingAdd (a b : Nat) : Nat := min (a + b) (2 ^ 64 - 1)

/-- `begin_span`. -/
def beginSpan (grammar : Grammar) (room : Nat) (stack : List SpanFrame) (onWay : List String) :
    Element → SpanState
  | .term .. | .regex .. | .token .. => ⟨stack, onWay, some (some 1)⟩
  | .prose .. | .star .. | .plus .. => ⟨stack, onWay, some none⟩
  | .opt inner _ => beginSpan grammar room stack onWay inner
  | .rep _ none _ _ => ⟨stack, onWay, some none⟩
  | .rep _ (some 0) _ _ => ⟨stack, onWay, some (some 0)⟩
  | .rep _ (some (times + 1)) inner _ =>
    beginSpan grammar (room / (times + 1)) (.rep (times + 1) :: stack) onWay inner
  | .group alts _ => ⟨.alts alts 0 room none :: stack, onWay, none⟩
  | .ref name _ _ =>
    if onWay.contains name then ⟨stack, onWay, some none⟩
    else match grammar.find name with
      | none => ⟨stack, onWay, some none⟩
      | some target =>
        if target.alts.isEmpty then ⟨stack, onWay, some none⟩
        else ⟨.alts target.alts 0 room (some name) :: stack, name :: onWay, none⟩

/-- `Next::Finish`: the frame on top is done, and its rule is no longer on the way. -/
def finishSpan (rest : List SpanFrame) (onWay : List String) (rule : Option String)
    (span : Option Nat) : SpanState :=
  ⟨rest, (rule.map onWay.erase).getD onWay, some span⟩

/-- One round of the loop of `seq_token_span`; without a frame it is over. -/
def spanStep (grammar : Grammar) (s : SpanState) : Option SpanState :=
  match s.stack with
  | [] => none
  | .seq elements total room :: rest =>
    match s.back with
    | some none => some (finishSpan rest s.onWay none none)
    | waited =>
      let total := match waited with
        | some (some n) => saturatingAdd total n
        | _ => total
      if total > room then some (finishSpan rest s.onWay none none)
      else match elements with
        | [] => some (finishSpan rest s.onWay none (some total))
        | el :: elements =>
          some (beginSpan grammar (room - total) (.seq elements total room :: rest) s.onWay el)
  | .alts alternatives most room rule :: rest =>
    match s.back with
    | some none => some (finishSpan rest s.onWay rule none)
    | waited =>
      let most := match waited with
        | some (some n) => max most n
        | _ => most
      match alternatives with
      | [] => some (finishSpan rest s.onWay rule (some most))
      | elements :: alternatives =>
        some ⟨.seq elements 0 room :: .alts alternatives most room rule :: rest, s.onWay, none⟩
  | .rep times :: rest =>
    match s.back with
    | some (some n) => some (finishSpan rest s.onWay none (checkedMul times n))
    | _ => some (finishSpan rest s.onWay none none)

/-- The loop of `seq_token_span`. -/
def spanWalk (grammar : Grammar) (seq : Sequence) (fuel : Nat) : SpanState :=
  Loop.run (spanStep grammar) fuel ⟨[.seq seq 0 lookaheadK], [], none⟩

/-! ## The walk computes the recursion -/

section

variable (grammar : Grammar)

/-- The walk comes from one state to another. -/
def Walks : SpanState → SpanState → Prop :=
  Relation.ReflTransGen fun s s' => spanStep grammar s = some s'

variable {grammar} {enter : String → Nat → Option Nat} {way : List String}

/-- A state that steps like another comes to what that one comes to. -/
theorem Walks.of_step_eq {s s' t : SpanState} (h : Walks grammar s' t)
    (hne : s'.stack ≠ t.stack) (heq : spanStep grammar s = spanStep grammar s') :
    Walks grammar s t := by
  obtain rfl | ⟨s₁, hstep, hrest⟩ := h.cases_head
  · exact absurd rfl hne
  · exact .head (heq.trans hstep) hrest

/-- A sum that saturates is past the room all the same. -/
theorem spanSeq_saturatingAdd {room : Nat} (hroom : room ≤ lookaheadK) (seq : List Element)
    (total n : Nat) :
    spanSeq enter room seq (saturatingAdd total n) = spanSeq enter room seq (total + n) := by
  by_cases hsmall : total + n ≤ 2 ^ 64 - 1
  · rw [saturatingAdd, Nat.min_eq_left hsmall]
  · have hK : lookaheadK < 2 ^ 64 - 1 := by decide
    have hover : total + n > room := by omega
    have hover' : saturatingAdd total n > room := by
      rw [saturatingAdd, Nat.min_eq_right (by omega)]
      omega
    cases seq with
    | nil => rw [spanSeq, spanSeq, if_pos hover, if_pos hover']
    | cons el seq => rw [spanSeq, spanSeq, if_pos hover, if_pos hover']

mutual
/-- An element's frames come to what the recursion says, on whatever stands below. -/
theorem runs_element (h : ∀ name debt sp, ∀ room ≤ lookaheadK, ∀ rest,
      Walks grammar (beginSpan grammar room rest way (.ref name debt sp))
        ⟨rest, way, some (enter name room)⟩) :
    ∀ (el : Element) (room : Nat) (rest : List SpanFrame), room ≤ lookaheadK →
      Walks grammar (beginSpan grammar room rest way el)
        ⟨rest, way, some (spanElement enter room el)⟩
  | .term .., _, _, _ | .regex .., _, _, _ | .token .., _, _, _ => .refl
  | .prose .., _, _, _ | .star .., _, _, _ | .plus .., _, _, _ => .refl
  | .opt inner _, room, rest, hroom => runs_element h inner room rest hroom
  | .rep _ none _ _, _, _, _ => .refl
  | .rep _ (some 0) _ _, _, _, _ => .refl
  | .rep _ (some (times + 1)) inner _, room, rest, hroom => by
    have hinner := runs_element h inner (room / (times + 1)) (.rep (times + 1) :: rest)
      ((Nat.div_le_self _ _).trans hroom)
    refine hinner.tail ?_
    rw [spanElement]
    cases spanElement enter (room / (times + 1)) inner <;> rfl
  | .group alts _, room, rest, hroom => runs_alts h alts room 0 none rest hroom
  | .ref name debt sp, room, rest, hroom => h name debt sp room hroom rest

theorem runs_seq (h : ∀ name debt sp, ∀ room ≤ lookaheadK, ∀ rest,
      Walks grammar (beginSpan grammar room rest way (.ref name debt sp))
        ⟨rest, way, some (enter name room)⟩) :
    ∀ (seq : List Element) (room total : Nat) (rest : List SpanFrame), room ≤ lookaheadK →
      Walks grammar ⟨.seq seq total room :: rest, way, none⟩
        ⟨rest, way, some (spanSeq enter room seq total)⟩
  | [], room, total, rest, _ => by
    refine .single ?_
    rw [spanSeq]
    simp only [spanStep]
    split <;> rfl
  | el :: seq, room, total, rest, hroom => by
    rw [spanSeq]
    by_cases hover : total > room
    · refine .single ?_
      rw [if_pos hover]
      simp only [spanStep, if_pos hover]
      rfl
    · have hbegin : spanStep grammar ⟨.seq (el :: seq) total room :: rest, way, none⟩ =
          some (beginSpan grammar (room - total) (.seq seq total room :: rest) way el) := by
        simp only [spanStep, if_neg hover]
      have hel := runs_element h el (room - total) (.seq seq total room :: rest)
        ((Nat.sub_le _ _).trans hroom)
      rw [if_neg hover]
      refine .head hbegin (hel.trans ?_)
      cases spanElement enter (room - total) el with
      | none => exact .single rfl
      | some n =>
        have hrest := runs_seq h seq room (saturatingAdd total n) rest hroom
        rw [spanSeq_saturatingAdd hroom] at hrest
        exact hrest.of_step_eq (by simp) rfl

theorem runs_alts (h : ∀ name debt sp, ∀ room ≤ lookaheadK, ∀ rest,
      Walks grammar (beginSpan grammar room rest way (.ref name debt sp))
        ⟨rest, way, some (enter name room)⟩) :
    ∀ (alts : List (List Element)) (room most : Nat) (rule : Option String)
      (rest : List SpanFrame), room ≤ lookaheadK →
      Walks grammar ⟨.alts alts most room rule :: rest, way, none⟩
        (finishSpan rest way rule (spanAlts enter room alts most))
  | [], room, most, rule, rest, _ => .single rfl
  | alt :: alts, room, most, rule, rest, hroom => by
    rw [spanAlts]
    have halt := runs_seq h alt room 0 (.alts alts most room rule :: rest) hroom
    refine .head rfl (halt.trans ?_)
    cases spanSeq enter room alt 0 with
    | none => exact .single rfl
    | some n =>
      exact (runs_alts h alts room (max most n) rule rest hroom).of_step_eq
        (by simp [finishSpan]) rfl
end

/-- **A rule is entered and left**: the walk computes the recursion, with depth for every rule that
is not on the way. -/
theorem runs_rule {depth : Nat} {way : List String}
    (hdepth : (unvisited grammar way).length < depth) (name : String)
    (debt : Option (List (String × Int))) (sp : Option SrcSpan) (room : Nat)
    (hroom : room ≤ lookaheadK) (rest : List SpanFrame) :
    Walks grammar (beginSpan grammar room rest way (.ref name debt sp))
      ⟨rest, way, some (enterRule grammar depth way name room)⟩ := by
  induction depth generalizing way name debt sp room rest with
  | zero => exact absurd hdepth (Nat.not_lt_zero _)
  | succ depth ih =>
    rw [enterRule, beginSpan]
    by_cases hway : way.contains name = true
    · rw [if_pos hway, if_pos hway]
      exact .refl
    · rw [if_neg hway, if_neg hway]
      cases hfind : grammar.find name with
      | none => exact .refl
      | some target =>
        dsimp only
        split
        next => exact .refl
        next =>
          have hless := length_unvisited_cons (mem_names_of_find hfind).1 (by simpa using hway)
          have hwalk := @runs_alts grammar _ (name :: way)
            (fun next debt sp room hroom rest => ih (by omega) next debt sp room hroom rest)
            target.alts room 0 (some name) rest hroom
          -- the rule is no longer on the way
          rwa [finishSpan, Option.map_some, Option.getD_some, List.erase_cons_head] at hwalk

/-- The walk ends with what `seqTokenSpan` says. -/
theorem spanWalk_eq (grammar : Grammar) (seq : Sequence) :
    ∃ steps, ∀ fuel ≥ steps, spanWalk grammar seq fuel =
      ⟨[], [], some (seqTokenSpan grammar seq)⟩ := by
  have hdepth : (unvisited grammar []).length < grammar.productions.length + 1 :=
    Nat.lt_succ_of_le length_unvisited_nil
  have hwalk := runs_seq (runs_rule hdepth) seq lookaheadK 0 [] (Nat.le_refl _)
  exact Loop.run_of_steps hwalk rfl

/-- **The span of a sequence.** The walk of `seq_token_span` ends, and answers with the most tokens
the sequence can span exactly when these are within the lookahead. -/
theorem spanWalk_spec (grammar : Grammar) (seq : Sequence) :
    ∃ span, (∃ steps, ∀ fuel ≥ steps, spanWalk grammar seq fuel = ⟨[], [], some span⟩) ∧
      ∀ n, span = some n ↔ mostSeq (mostRule grammar []) seq = n ∧ n ≤ lookaheadK := by
  refine ⟨_, spanWalk_eq grammar seq, fun n => ?_⟩
  have hdepth : (unvisited grammar []).length < grammar.productions.length + 1 :=
    Nat.lt_succ_of_le length_unvisited_nil
  obtain ⟨⟨hright, hfits⟩, hle⟩ := capped_seq (capped_rule hdepth) seq lookaheadK 0 (Nat.le_refl _)
  rw [Nat.cast_zero, zero_add] at hright hfits
  constructor
  · intro hn
    exact ⟨hright n hn, hle n hn⟩
  · rintro ⟨hmost, hn⟩
    obtain ⟨k, hk⟩ := Option.isSome_iff_exists.mp (hfits (by rw [hmost]; exact_mod_cast hn))
    have hkn : k = n := by exact_mod_cast (hright k hk).symm.trans hmost
    rw [seqTokenSpan, hk, hkn]

end

end TabnasBnf
