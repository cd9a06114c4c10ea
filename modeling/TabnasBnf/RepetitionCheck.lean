import TabnasBnf.Repetition

/-!
# What the check on repetitions establishes

* **`validateRepetitions_ok`**: in a grammar that passes, no unbounded repetition's item, no probe
  helper's terminal and no cycle of a tail repeat may match without consuming (`Consumes`).
-/

namespace TabnasBnf

section

variable (verdict : Verdict) (nullable : List String)

mutual
/-- The item of every unbounded repetition in an element consumes. -/
def Element.LoopsConsume : Element → Prop
  | .star e _ _ | .plus e _ | .rep _ none e _ =>
    elementMayMatchWithoutConsuming verdict nullable e = false ∧ e.LoopsConsume
  | .opt e _ | .rep _ (some _) e _ => e.LoopsConsume
  | .group alts _ => LoopsConsumeAlts alts
  | _ => True

/-- The same of a sequence. -/
def LoopsConsumeSeq : List Element → Prop
  | [] => True
  | el :: rest => el.LoopsConsume ∧ LoopsConsumeSeq rest

/-- The same of alternatives. -/
def LoopsConsumeAlts : List (List Element) → Prop
  | [] => True
  | α :: rest => LoopsConsumeSeq α ∧ LoopsConsumeAlts rest
end

/-- What the check establishes of a production. -/
structure Consumes (p : Production) : Prop where
  loops : LoopsConsumeAlts verdict nullable p.alts
  vocab : ∀ helper ∈ p.probeHelper, ∀ el ∈ helper.vocabElements,
    elementMayMatchWithoutConsuming verdict nullable el = false
  tail : ∀ spec ∈ p.tailRepeat, tailCycle p spec ≠ [] →
    sequenceDerivesEmpty verdict nullable (tailCycle p spec) = false

end

variable {diag : String} {verdict : Verdict} {nullable : List String} {prod : Production}

theorem checkItem_ok {el inner : Element} {u : Unit}
    (h : checkItem diag verdict nullable prod el inner = .ok u) :
    elementMayMatchWithoutConsuming verdict nullable inner = false := by
  unfold checkItem at h
  split at h
  · cases h
  · next hc => exact Bool.eq_false_iff.mpr hc

mutual
theorem walkRepetitions_ok : ∀ (el : Element) {n m : Nat},
    walkRepetitions diag verdict nullable prod el n = .ok m → el.LoopsConsume verdict nullable
  | .group alts _, _, _, h => walkRepetitionsAlts_ok alts h
  | .opt inner _, _, _, h => walkRepetitions_ok inner h
  | .star inner _ _, _, _, h => by
    obtain ⟨u, hu, h⟩ := bind_eq_ok h
    exact ⟨checkItem_ok hu, walkRepetitions_ok inner h⟩
  | .plus inner _, _, _, h => by
    obtain ⟨u, hu, h⟩ := bind_eq_ok h
    exact ⟨checkItem_ok hu, walkRepetitions_ok inner h⟩
  | .rep _ none inner _, _, _, h => by
    obtain ⟨u, hu, h⟩ := bind_eq_ok h
    obtain ⟨k, -, h⟩ := bind_eq_ok h
    exact ⟨checkItem_ok hu, walkRepetitions_ok inner h⟩
  | .rep _ (some _) inner _, _, _, h => by
    obtain ⟨k, -, h⟩ := bind_eq_ok h
    exact walkRepetitions_ok inner h
  | .term .., _, _, _ | .ref .., _, _, _ | .token .., _, _, _ | .prose .., _, _, _
  | .regex .., _, _, _ => trivial

theorem walkRepetitionsSeq_ok : ∀ (α : List Element) {n m : Nat},
    walkRepetitionsSeq diag verdict nullable prod α n = .ok m → LoopsConsumeSeq verdict nullable α
  | [], _, _, _ => trivial
  | el :: α, _, _, h => by
    obtain ⟨k, hk, h⟩ := bind_eq_ok h
    exact ⟨walkRepetitions_ok el hk, walkRepetitionsSeq_ok α h⟩

theorem walkRepetitionsAlts_ok : ∀ (alts : List (List Element)) {n m : Nat},
    walkRepetitionsAlts diag verdict nullable prod alts n = .ok m →
      LoopsConsumeAlts verdict nullable alts
  | [], _, _, _ => trivial
  | α :: alts, _, _, h => by
    obtain ⟨k, hk, h⟩ := bind_eq_ok h
    exact ⟨walkRepetitionsSeq_ok α hk, walkRepetitionsAlts_ok alts h⟩
end

theorem checkVocab_ok {grammar : Grammar} : ∀ (els : List Element) {u : Unit},
    checkVocab diag verdict nullable grammar prod els = .ok u →
      ∀ el ∈ els, elementMayMatchWithoutConsuming verdict nullable el = false
  | [], _, _ => fun _ hel => absurd hel List.not_mem_nil
  | el :: els, _, h => by
    unfold checkVocab at h
    split at h
    · cases h
    · next hc =>
      exact List.forall_mem_cons.mpr ⟨Bool.eq_false_iff.mpr hc, checkVocab_ok els h⟩

theorem checkTail_ok {spec : TailRepeatSpec} {u : Unit}
    (h : checkTail diag verdict nullable prod spec = .ok u) (hne : tailCycle prod spec ≠ []) :
    sequenceDerivesEmpty verdict nullable (tailCycle prod spec) = false := by
  unfold checkTail at h
  cases hcycle : tailCycle prod spec with
  | nil => exact absurd hcycle hne
  | cons fallback rest =>
    rw [hcycle] at h
    dsimp only at h
    split at h
    · cases h
    · next hc => exact Bool.eq_false_iff.mpr hc

theorem validateProduction_ok {grammar : Grammar} {n m : Nat}
    (h : validateProduction diag verdict nullable grammar prod n = .ok m) :
    Consumes verdict nullable prod := by
  obtain ⟨k, hk, h⟩ := bind_eq_ok h
  obtain ⟨u, hu, h⟩ := bind_eq_ok h
  obtain ⟨v, hv, h⟩ := bind_eq_ok h
  refine ⟨walkRepetitionsAlts_ok _ hk, fun helper hhelper => ?_, fun spec hspec hne => ?_⟩
  · rw [checkProbeHelper, Option.mem_def.mp hhelper] at hu
    exact checkVocab_ok _ hu
  · rw [checkTailRepeat, Option.mem_def.mp hspec] at hv
    exact checkTail_ok hv hne

theorem validateProductions_ok {grammar : Grammar} : ∀ (ps : List Production) {n : Nat} {u : Unit},
    validateProductions diag verdict nullable grammar ps n = .ok u →
      ∀ p ∈ ps, Consumes verdict nullable p
  | [], _, _, _ => fun _ hp => absurd hp List.not_mem_nil
  | p :: ps, _, _, h => by
    obtain ⟨k, hk, h⟩ := bind_eq_ok h
    exact List.forall_mem_cons.mpr ⟨validateProduction_ok hk, validateProductions_ok ps h⟩

/-- **The check reaches every repetition.** -/
theorem validateRepetitions_ok {grammar : Grammar} {u : Unit}
    (h : validateRepetitions diag verdict grammar = .ok u) :
    ∀ p ∈ grammar.productions,
      Consumes verdict (nonConsumingRules verdict grammar.productions) p := by
  obtain ⟨_, -, h⟩ := bind_eq_ok h
  exact validateProductions_ok _ h

end TabnasBnf
