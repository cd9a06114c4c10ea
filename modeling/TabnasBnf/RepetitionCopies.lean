import TabnasBnf.DesugarCorrect
import TabnasBnf.RepetitionCost

/-!
# What desugaring writes for a repetition

Each bit of sugar becomes a block of helper productions, the item's blocks before its own.

* **`desugar_blocks`**: the helpers are one block for each bit of sugar, and that of `m*n` is
  `repeatHelpers m n` helpers, the last with `m` copies of the item and at most a reference to
  one of the others.
* **`validateRepetitions_expansion`**: what the check on repetitions decides.
-/

namespace TabnasBnf

mutual
/-- The sugar in an element, in the order it is desugared. -/
def Element.sugars : Element → List Element
  | .opt e sp => e.sugars ++ [.opt e sp]
  | .star e guard sp => e.sugars ++ [.star e guard sp]
  | .plus e sp => e.sugars ++ [.plus e sp]
  | .rep min max e sp => e.sugars ++ [.rep min max e sp]
  | .group alts sp => sugarsAlts alts ++ [.group alts sp]
  | _ => []

/-- The same in a sequence. -/
def sugarsSeq : List Element → List Element
  | [] => []
  | el :: rest => el.sugars ++ sugarsSeq rest

/-- The same in alternatives. -/
def sugarsAlts : List (List Element) → List Element
  | [] => []
  | alt :: rest => sugarsSeq alt ++ sugarsAlts rest
end

/-- The same in a grammar. -/
def Grammar.sugars (grammar : Grammar) : List Element :=
  grammar.productions.flatMap fun p => sugarsAlts p.alts

/-- The copies and helpers of a bit of sugar, if it is a bounded repetition. -/
def Element.repeatExpansion : Element → Nat
  | .rep min max _ _ => TabnasBnf.repeatExpansion min max
  | _ => 0

/-- The helpers `block` are what a bit of sugar becomes. -/
def Element.Becomes : Element → List Production → Prop
  | .rep min max _ _, block => block.length = repeatHelpers min max ∧
    ∃ first last item tail, block = first ++ [last] ∧
      last.alts = [List.replicate min item ++ tail] ∧
      (tail = [] ∨ ∃ h ∈ first, tail = [.reference h.name])
  | .plus .., block => block.length = 2
  | _, block => block.length = 1

mutual
theorem Element.expansion_eq : ∀ el : Element,
    el.expansion = (el.sugars.map Element.repeatExpansion).sum
  | .opt e _ | .star e _ _ | .plus e _ => by
    simp [Element.expansion, Element.sugars, Element.repeatExpansion, Element.expansion_eq e]
  | .rep min max e _ => by
    simp [Element.expansion, Element.sugars, Element.repeatExpansion, Element.expansion_eq e,
      Nat.add_comm]
  | .group alts _ => by
    simp [Element.expansion, Element.sugars, Element.repeatExpansion, expansionAlts_eq alts]
  | .term .. | .ref .. | .token .. | .prose .. | .regex .. => rfl

theorem expansionSeq_eq : ∀ α : List Element,
    expansionSeq α = ((sugarsSeq α).map Element.repeatExpansion).sum
  | [] => rfl
  | el :: α => by
    simp [expansionSeq, sugarsSeq, Element.expansion_eq el, expansionSeq_eq α]

theorem expansionAlts_eq : ∀ alts : List (List Element),
    expansionAlts alts = ((sugarsAlts alts).map Element.repeatExpansion).sum
  | [] => rfl
  | α :: alts => by
    simp [expansionAlts, sugarsAlts, expansionSeq_eq α, expansionAlts_eq alts]
end

theorem Grammar.expansion_eq (grammar : Grammar) :
    grammar.expansion = (grammar.sugars.map Element.repeatExpansion).sum := by
  unfold Grammar.expansion Grammar.sugars
  induction grammar.productions with
  | nil => rfl
  | cons p ps ih =>
    rw [List.map_cons, List.sum_cons, List.flatMap_cons, List.map_append, List.sum_append, ih,
      expansionAlts_eq]

namespace Desugar

variable {d d₁ d₂ : Desugar} {inner : Element}

/-- A run from `d` to `d'` that wrote a block for each bit of sugar. -/
def WritesBlocks (sugars : List Element) (d d' : Desugar) : Prop :=
  ∃ blocks, d'.extra = d.extra ++ blocks.flatten ∧ List.Forall₂ Element.Becomes sugars blocks

theorem WritesBlocks.refl (h : d₁.extra = d.extra) : WritesBlocks [] d d₁ :=
  ⟨[], by rw [h, List.flatten_nil, List.append_nil], .nil⟩

theorem WritesBlocks.trans {s s' : List Element} (h₁ : WritesBlocks s d d₁)
    (h₂ : WritesBlocks s' d₁ d₂) : WritesBlocks (s ++ s') d d₂ := by
  obtain ⟨blocks, hextra, hblocks⟩ := h₁
  obtain ⟨blocks', hextra', hblocks'⟩ := h₂
  refine ⟨blocks ++ blocks', ?_, List.rel_append hblocks hblocks'⟩
  rw [hextra', hextra, List.flatten_append, List.append_assoc]

/-- One block. -/
theorem WritesBlocks.one {el : Element} (block : List Production)
    (hextra : d₁.extra = d.extra ++ block) (h : el.Becomes block) : WritesBlocks [el] d d₁ :=
  ⟨[block], by rw [hextra, List.flatten_singleton], .cons h .nil⟩

/-- The loop over nested optionals writes two helpers for each, and answers with the last. -/
theorem nestOptionals_block : ∀ (n : Nat) (nested : Option Element) (d : Desugar),
    ∃ block, (nestOptionals inner n nested d).2.extra = d.extra ++ block ∧
      block.length = 2 * n ∧
      ((nestOptionals inner n nested d).1 = nested ∨
        ∃ h ∈ block, (nestOptionals inner n nested d).1 = some (.reference h.name))
  | 0, nested, d => ⟨[], (List.append_nil _).symm, rfl, .inl rfl⟩
  | n + 1, nested, d => by
    rw [nestOptionals_succ]
    obtain ⟨block, hextra, hlength, hlast⟩ :=
      nestOptionals_block n (some (nestStep inner nested d).1) (nestStep inner nested d).2
    obtain ⟨group, opt, hstep, href⟩ : ∃ group opt : Production,
        (nestStep inner nested d).2.extra = d.extra ++ [group, opt] ∧
          (nestStep inner nested d).1 = .reference opt.name :=
      ⟨_, _, List.append_assoc .., rfl⟩
    refine ⟨group :: opt :: block, ?_, ?_, .inr ?_⟩
    · rw [hextra, hstep, List.append_assoc]
      rfl
    · rw [List.length_cons, List.length_cons, hlength]
      omega
    · obtain hlast | ⟨h, hmem, hlast⟩ := hlast
      · exact ⟨opt, by simp, by rw [hlast, href]⟩
      · exact ⟨h, by simp [hmem], hlast⟩

/-- The sugar branches write one block. -/
theorem sugar_writes (el : Element) (hel : el.inner.isSome = true) :
    WritesBlocks [el] d (d.sugar el inner).2 := by
  cases el with
  | opt e sp => exact .one [_] rfl rfl
  | star e guard sp => exact .one [_] rfl rfl
  | plus e sp => exact .one _ (List.append_assoc _ [_] [_]) rfl
  | rep min max e sp =>
    cases max with
    | none =>
      exact .one _ (List.append_assoc _ [_] [_]) ⟨rfl, [_], _, inner, [_], rfl, rfl,
        .inr ⟨_, List.mem_singleton_self _, rfl⟩⟩
    | some max =>
      obtain ⟨block, hextra, hlength, hnested⟩ := nestOptionals_block (max - min) none
        (d.freshName ("rep_" ++ hintOf inner)).2
      obtain ⟨last, hpush, halts⟩ : ∃ last : Production,
          (d.sugar (.rep min (some max) e sp) inner).2.extra = (nestOptionals inner (max - min)
            none (d.freshName ("rep_" ++ hintOf inner)).2).2.extra ++ [last] ∧
          last.alts = [List.replicate min inner ++ (nestOptionals inner (max - min) none
            (d.freshName ("rep_" ++ hintOf inner)).2).1.toList] := ⟨_, rfl, rfl⟩
      refine .one (block ++ [last]) ?_ ⟨?_, block, last, inner, _, rfl, halts, ?_⟩
      · rw [hpush, hextra, List.append_assoc]
        rfl
      · rw [List.length_append, hlength, repeatHelpers, Nat.add_comm]
        rfl
      · obtain hnested | ⟨h, hmem, hnested⟩ := hnested
        · exact .inl (by rw [hnested]; rfl)
        · exact .inr ⟨h, hmem, by rw [hnested]; rfl⟩
  | _ => cases hel

mutual
theorem element_writes : ∀ (el : Element) {d : Desugar} {r : Element × Desugar},
    element d el = .ok r → WritesBlocks el.sugars d r.2
  | .prose .., _, _, h => by cases h
  | .ref .., _, _, h | .term .., _, _, h | .regex .., _, _, h | .token .., _, _, h => by
    obtain rfl := Except.ok.inj h
    exact .refl rfl
  | .group alts _, _, _, h => by
    obtain ⟨⟨inner, d₁⟩, hinner, h⟩ := bind_eq_ok h
    obtain rfl := Except.ok.inj h
    exact (altList_writes alts hinner).trans (.one [_] rfl rfl)
  | .opt e sp, _, _, h => by
    obtain ⟨⟨inner, d₁⟩, hinner, h⟩ := bind_eq_ok h
    obtain rfl := Except.ok.inj h
    exact (element_writes e hinner).trans (sugar_writes (.opt e sp) rfl)
  | .star e guard sp, _, _, h => by
    obtain ⟨⟨inner, d₁⟩, hinner, h⟩ := bind_eq_ok h
    obtain rfl := Except.ok.inj h
    exact (element_writes e hinner).trans (sugar_writes (.star e guard sp) rfl)
  | .plus e sp, _, _, h => by
    obtain ⟨⟨inner, d₁⟩, hinner, h⟩ := bind_eq_ok h
    obtain rfl := Except.ok.inj h
    exact (element_writes e hinner).trans (sugar_writes (.plus e sp) rfl)
  | .rep min max e sp, _, _, h => by
    obtain ⟨⟨inner, d₁⟩, hinner, h⟩ := bind_eq_ok h
    obtain rfl := Except.ok.inj h
    exact (element_writes e hinner).trans (sugar_writes (.rep min max e sp) rfl)

theorem alt_writes : ∀ (α : List Element) {d : Desugar} {r : List Element × Desugar},
    alt d α = .ok r → WritesBlocks (sugarsSeq α) d r.2
  | [], _, _, h => by
    obtain rfl := Except.ok.inj h
    exact .refl rfl
  | el :: α, _, _, h => by
    obtain ⟨⟨el', d₁⟩, hel, h⟩ := bind_eq_ok h
    obtain ⟨⟨α', d₂⟩, hα, h⟩ := bind_eq_ok h
    obtain rfl := Except.ok.inj h
    have hrest : WritesBlocks (sugarsSeq α) d₁ d₂ := alt_writes α hα
    exact (element_writes el hel).trans hrest

theorem altList_writes : ∀ (alts : List (List Element)) {d : Desugar}
    {r : List (List Element) × Desugar},
    altList d alts = .ok r → WritesBlocks (sugarsAlts alts) d r.2
  | [], _, _, h => by
    obtain rfl := Except.ok.inj h
    exact .refl rfl
  | α :: alts, _, _, h => by
    obtain ⟨⟨α', d₁⟩, hα, h⟩ := bind_eq_ok h
    obtain ⟨⟨alts', d₂⟩, halts, h⟩ := bind_eq_ok h
    obtain rfl := Except.ok.inj h
    have hrest : WritesBlocks (sugarsAlts alts) d₁ d₂ := altList_writes alts halts
    exact (alt_writes α hα).trans hrest
end

theorem productions_writes : ∀ (ps : List Production) {d : Desugar}
    {r : List Production × Desugar}, productions d ps = .ok r →
      namesOf r.1 = namesOf ps ∧ WritesBlocks (ps.flatMap fun p => sugarsAlts p.alts) d r.2
  | [], _, _, h => by
    obtain rfl := Except.ok.inj h
    exact ⟨rfl, .refl rfl⟩
  | p :: ps, d, _, h => by
    obtain ⟨⟨alts, d₁⟩, halts, h⟩ := bind_eq_ok h
    obtain ⟨⟨rest, d₂⟩, hrest, h⟩ := bind_eq_ok h
    obtain rfl := Except.ok.inj h
    have hrun : WritesBlocks (sugarsAlts p.alts) { d with origin := p.originOf } d₁ :=
      altList_writes p.alts halts
    obtain ⟨hnames, hruns⟩ := productions_writes ps hrest
    exact ⟨congrArg (p.name :: ·) hnames,
      (show WritesBlocks (sugarsAlts p.alts) d d₁ from hrun).trans hruns⟩

end Desugar

/-- **A block of helpers for each bit of sugar.** -/
theorem desugar_blocks {g g' : Grammar} (h : desugar g = .ok g') :
    ∃ rewritten blocks, g'.productions = rewritten ++ blocks.flatten ∧
      namesOf rewritten = g.names ∧ List.Forall₂ Element.Becomes g.sugars blocks := by
  obtain ⟨⟨rewritten, d⟩, hrun, h⟩ := bind_eq_ok h
  obtain rfl := Except.ok.inj h
  obtain ⟨hnames, blocks, hextra, hblocks⟩ := Desugar.productions_writes g.productions hrun
  rw [List.nil_append] at hextra
  exact ⟨rewritten, blocks, congrArg (rewritten ++ ·) hextra, hnames, hblocks⟩

/-- **The check on repetitions counts what desugaring writes.** -/
theorem validateRepetitions_expansion (diag : String) (verdict : Verdict) (g : Grammar) :
    (validateRepetitions diag verdict g = .ok () → g.expansion ≤ maxRepeatExpansion) ∧
      (∀ e, validateRepetitions diag verdict g = .error e → ExpansionRefusal diag e →
        maxRepeatExpansion < g.expansion) ∧
      (∀ w, 16 ≤ w → validateRepetitionsChecked w diag verdict g =
        some (validateRepetitions diag verdict g)) ∧
      g.expansion = (g.sugars.map Element.repeatExpansion).sum ∧
      ∀ g', desugar g = .ok g' → ∃ rewritten blocks,
        g'.productions = rewritten ++ blocks.flatten ∧ namesOf rewritten = g.names ∧
          List.Forall₂ Element.Becomes g.sugars blocks := by
  have hcount := @counts_validateProductions diag verdict
    (nonConsumingRules verdict g.productions) g g.productions 0 (Nat.zero_le _)
  rw [Nat.zero_add] at hcount
  refine ⟨fun h => ?_, fun e h he => ?_, fun w hw => validateRepetitionsChecked_eq hw g,
    g.expansion_eq, fun g' => desugar_blocks⟩
  · obtain ⟨_, -, h⟩ := bind_eq_ok h
    exact hcount.1 h
  · obtain h | ⟨_, -, h⟩ := bind_eq_error h
    · exact absurd he (validateBounds_productions h)
    · exact hcount.2 e h he

/-- `8190*"x"` just fits. -/
def atLimit : Grammar where
  productions := [{ name := "r", alts := [[.rep 8190 none (.lit "x") none]] }]

theorem validateRepetitions_expansion_limit : atLimit.expansion ≤ maxRepeatExpansion :=
  (validateRepetitions_expansion "bnf" (fun _ _ => false) atLimit).1 (by decide)

end TabnasBnf
