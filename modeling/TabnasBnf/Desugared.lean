import TabnasBnf.IterationsConsume
import TabnasBnf.DispatchCovers
import TabnasBnf.Passes

/-!
# The shape of a desugared grammar

What the analyses of the emitter are given: alternatives of terminals and references, and tail
repeats over one alternative of terminals (`Desugared`). Every grammar `desugar` is handed in a
compile is desugared into one (`Compile.desugared_shape`), whatever its repetitions are bounded by.
-/

namespace TabnasBnf

/-- `prefix (sep prefix)*`: one alternative, of terminals. -/
def TailOfTerminals (p : Production) : Prop :=
  ∀ spec ∈ p.tailRepeat, ∃ pre, p.alts = [pre] ∧ pre ≠ [] ∧
    ∀ el ∈ spec.sep ++ pre, el.isTerminal = true

/-- A grammar as desugaring leaves it. -/
structure Desugared (grammar : Grammar) : Prop where
  plain : Plain grammar
  tail : ∀ p ∈ grammar.productions, TailOfTerminals p

namespace Desugar

variable {d : Desugar} {inner : Element}

/-- The helpers minted so far hold terminals and references, and repeat no tail. -/
def Simple (d : Desugar) : Prop := ∀ p ∈ d.extra, SimpleAlts p.alts ∧ p.tailRepeat = none

theorem Simple.push {d₁ : Desugar} {p : Production} (h : d.Simple) (hp : SimpleAlts p.alts)
    (htail : p.tailRepeat = none) (hextra : d₁.extra = d.extra ++ [p]) : d₁.Simple := by
  intro q hq
  rw [hextra] at hq
  rcases List.mem_append.mp hq with hq | hq
  · exact h q hq
  · obtain rfl := List.mem_singleton.mp hq
    exact ⟨hp, htail⟩

theorem Simple.freshName (h : d.Simple) (hint : String) : (d.freshName hint).2.Simple := h

theorem Simple.helper {name : String} {alts : List Sequence} {repeatHelper : Bool} (h : d.Simple)
    (halts : SimpleAlts alts) : (d.helper name alts repeatHelper).2.Simple :=
  h.push (p := { Production.helper name alts d.origin with repeatHelper := repeatHelper }) halts rfl
    rfl

theorem Simple.repeatLoop {name : String} {guard : Option String} (h : d.Simple)
    (hinner : inner.isSimple = true) : (d.repeatLoop name inner guard).2.Simple := by
  refine h.push ?_ rfl rfl
  simp [SimpleAlts, Production.helper, hinner]

theorem simpleAlts_copies {rest : Sequence} (n : Nat) (hinner : inner.isSimple = true)
    (hrest : ∀ el ∈ rest, el.isSimple = true) : SimpleAlts [List.replicate n inner ++ rest] := by
  intro α hα el hel
  rw [List.mem_singleton.mp hα] at hel
  rcases List.mem_append.mp hel with hel | hel
  · rwa [List.eq_of_mem_replicate hel]
  · exact hrest el hel

theorem nestStep_simple {nested : Option Element} (h : d.Simple) (hinner : inner.isSimple = true)
    (hnested : ∀ el ∈ nested, el.isSimple = true) : (nestStep inner nested d).2.Simple := by
  have hgroup : SimpleAlts [inner :: nested.toList] := by
    simpa [SimpleAlts] using ⟨hinner, hnested⟩
  exact (((h.freshName _).helper hgroup).freshName _).helper
    (by simp [SimpleAlts, Element.reference, Element.isSimple, Element.isRef])

theorem Simple.nestOptionals (hinner : inner.isSimple = true) :
    ∀ (n : Nat) (nested : Option Element) {d : Desugar}, d.Simple →
      (∀ el ∈ nested, el.isSimple = true) → (nestOptionals inner n nested d).2.Simple
  | 0, _, _, h, _ => h
  | n + 1, nested, d, h, hnested => by
    rw [nestOptionals_succ]
    exact Simple.nestOptionals hinner n _ (nestStep_simple h hinner hnested) fun el hel => by
      cases hel
      rfl

/-- The sugar branches mint helpers of terminals and references, and refer to one. -/
theorem Simple.sugar (el : Element) (hel : el.inner.isSome = true) (h : d.Simple)
    (hinner : inner.isSimple = true) :
    (d.sugar el inner).1.isSimple = true ∧ (d.sugar el inner).2.Simple := by
  have hloop : ∀ (d' : Desugar) (name : String), d'.Simple →
      (d'.repeatLoop name inner none).2.Simple := fun d' name hd' => hd'.repeatLoop hinner
  cases el with
  | opt e sp =>
    refine ⟨rfl, Simple.helper (d := (d.freshName _).2) h ?_⟩
    simp [SimpleAlts, hinner]
  | star e guard sp => exact ⟨rfl, Simple.repeatLoop (d := (d.freshName _).2) h hinner⟩
  | plus e sp =>
    refine ⟨rfl, Simple.helper (hloop ((d.freshName _).2.freshName _).2 _ h) ?_⟩
    simp only [SimpleAlts, List.mem_singleton, forall_eq]
    exact List.forall_mem_cons.mpr ⟨hinner, List.forall_mem_singleton.mpr rfl⟩
  | rep min max e sp =>
    cases max with
    | none =>
      refine ⟨rfl, Simple.helper (hloop ((d.freshName _).2.freshName _).2 _ h) ?_⟩
      exact simpleAlts_copies min hinner (List.forall_mem_singleton.mpr rfl)
    | some max =>
      have hnone : ∀ el ∈ (none : Option Element), el.isSimple = true := fun _ hel => by cases hel
      refine ⟨rfl, Simple.helper (Simple.nestOptionals hinner (max - min) none
        (d := (d.freshName _).2) h hnone) (simpleAlts_copies min hinner ?_)⟩
      exact fun el hel => nestOptionals_simple _ _ _ hnone el (Option.mem_toList.mp hel)
  | _ => cases hel

mutual
theorem element_simple : ∀ (el : Element) {d : Desugar} {r : Element × Desugar}, d.Simple →
    element d el = .ok r → r.1.isSimple = true ∧ r.2.Simple
  | .prose .., _, _, _, h => by cases h
  | .ref .., _, _, hd, h | .term .., _, _, hd, h | .regex .., _, _, hd, h
  | .token .., _, _, hd, h => by
    obtain rfl := Except.ok.inj h
    exact ⟨rfl, hd⟩
  | .group alts _, _, _, hd, h => by
    obtain ⟨⟨inner, d₁⟩, hinner, h⟩ := bind_eq_ok h
    obtain rfl := Except.ok.inj h
    obtain ⟨halts, hd₁⟩ := altList_simple alts hd hinner
    exact ⟨rfl, Simple.helper (d := (d₁.freshName _).2) hd₁ halts⟩
  | .opt e sp, _, _, hd, h => by
    obtain ⟨⟨inner, d₁⟩, hinner, h⟩ := bind_eq_ok h
    obtain rfl := Except.ok.inj h
    obtain ⟨hsimple, hd₁⟩ := element_simple e hd hinner
    exact Simple.sugar (.opt e sp) rfl hd₁ hsimple
  | .star e guard sp, _, _, hd, h => by
    obtain ⟨⟨inner, d₁⟩, hinner, h⟩ := bind_eq_ok h
    obtain rfl := Except.ok.inj h
    obtain ⟨hsimple, hd₁⟩ := element_simple e hd hinner
    exact Simple.sugar (.star e guard sp) rfl hd₁ hsimple
  | .plus e sp, _, _, hd, h => by
    obtain ⟨⟨inner, d₁⟩, hinner, h⟩ := bind_eq_ok h
    obtain rfl := Except.ok.inj h
    obtain ⟨hsimple, hd₁⟩ := element_simple e hd hinner
    exact Simple.sugar (.plus e sp) rfl hd₁ hsimple
  | .rep min max e sp, _, _, hd, h => by
    obtain ⟨⟨inner, d₁⟩, hinner, h⟩ := bind_eq_ok h
    obtain rfl := Except.ok.inj h
    obtain ⟨hsimple, hd₁⟩ := element_simple e hd hinner
    exact Simple.sugar (.rep min max e sp) rfl hd₁ hsimple

theorem alt_simple : ∀ (α : List Element) {d : Desugar} {r : List Element × Desugar}, d.Simple →
    alt d α = .ok r → (∀ el ∈ r.1, el.isSimple = true) ∧ r.2.Simple
  | [], _, _, hd, h => by
    obtain rfl := Except.ok.inj h
    exact ⟨fun _ hel => absurd hel List.not_mem_nil, hd⟩
  | el :: α, _, _, hd, h => by
    obtain ⟨⟨el', d₁⟩, hel, h⟩ := bind_eq_ok h
    obtain ⟨⟨α', d₂⟩, hα, h⟩ := bind_eq_ok h
    obtain rfl := Except.ok.inj h
    obtain ⟨hsimple, hd₁⟩ := element_simple el hd hel
    obtain ⟨hrest, hd₂⟩ := alt_simple α hd₁ hα
    exact ⟨List.forall_mem_cons.mpr ⟨hsimple, hrest⟩, hd₂⟩

theorem altList_simple : ∀ (alts : List (List Element)) {d : Desugar}
    {r : List (List Element) × Desugar}, d.Simple → altList d alts = .ok r →
      SimpleAlts r.1 ∧ r.2.Simple
  | [], _, _, hd, h => by
    obtain rfl := Except.ok.inj h
    exact ⟨fun _ hα => absurd hα List.not_mem_nil, hd⟩
  | α :: alts, _, _, hd, h => by
    obtain ⟨⟨α', d₁⟩, hα, h⟩ := bind_eq_ok h
    obtain ⟨⟨alts', d₂⟩, halts, h⟩ := bind_eq_ok h
    obtain rfl := Except.ok.inj h
    obtain ⟨hsimple, hd₁⟩ := alt_simple α hd hα
    obtain ⟨hrest, hd₂⟩ := altList_simple alts hd₁ halts
    exact ⟨List.forall_mem_cons.mpr ⟨hsimple, hrest⟩, hd₂⟩
end

theorem productions_simple : ∀ (ps : List Production) {d : Desugar}
    {r : List Production × Desugar}, d.Simple → (∀ p ∈ ps, TailOfTerminals p) →
      productions d ps = .ok r →
        (∀ p ∈ r.1, SimpleAlts p.alts ∧ TailOfTerminals p) ∧ r.2.Simple
  | [], _, _, hd, _, h => by
    obtain rfl := Except.ok.inj h
    exact ⟨fun _ hp => absurd hp List.not_mem_nil, hd⟩
  | p :: ps, d, _, hd, hps, h => by
    obtain ⟨⟨alts, d₁⟩, halts, h⟩ := bind_eq_ok h
    obtain ⟨⟨rest, d₂⟩, hrest, h⟩ := bind_eq_ok h
    obtain rfl := Except.ok.inj h
    obtain ⟨hp, hps⟩ := List.forall_mem_cons.mp hps
    obtain ⟨hsimple, hd₁⟩ := altList_simple p.alts (d := { d with origin := p.originOf }) hd halts
    obtain ⟨hrest', hd₂⟩ := productions_simple ps hd₁ hps hrest
    refine ⟨List.forall_mem_cons.mpr ⟨⟨hsimple, fun spec hspec => ?_⟩, hrest'⟩, hd₂⟩
    obtain ⟨pre, hpre, hne, hterm⟩ := hp spec hspec
    have hsame := altList_terminals (d := { d with origin := p.originOf }) p.alts fun α hα el hel => by
      rw [hpre, List.mem_singleton] at hα
      exact hterm el (List.mem_append_right _ (hα ▸ hel))
    obtain rfl : p.alts = alts := congrArg Prod.fst (Except.ok.inj (hsame.symm.trans halts))
    exact ⟨pre, hpre, hne, hterm⟩

end Desugar

/-- A grammar whose tail repeats are of terminals is desugared into one of the shape. -/
theorem desugar_shape {g g' : Grammar} (hg : ∀ p ∈ g.productions, TailOfTerminals p)
    (h : desugar g = .ok g') : Desugared g' := by
  obtain ⟨⟨rewritten, d⟩, hrun, h⟩ := bind_eq_ok h
  obtain rfl := Except.ok.inj h
  obtain ⟨hrewritten, hd⟩ := Desugar.productions_simple g.productions
    (fun p hp => absurd hp List.not_mem_nil) hg hrun
  have hall : ∀ p ∈ rewritten ++ d.extra, SimpleAlts p.alts ∧ TailOfTerminals p := by
    intro p hp
    rcases List.mem_append.mp hp with hp | hp
    · exact hrewritten p hp
    · refine ⟨(hd p hp).1, fun spec hspec => ?_⟩
      rw [(hd p hp).2] at hspec
      cases hspec
  refine ⟨fun p hp α hα el hel => ?_, fun p hp => (hall p hp).2⟩
  exact Bool.or_eq_true _ _ ▸ (hall p hp).1 α hα el hel

/-- **The emitter is given a grammar of the shape.** -/
theorem Compile.desugared_shape {S : Setting} {grammar : Grammar} (c : Compile S grammar) :
    Desugared c.desugared := by
  have hcycles : ∀ p ∈ (rewriteTailRepeats c.factored c.start).productions, TerminalCycles p :=
    rewriteTailRepeats_cycles (leftFactor_cycles
      (rewriteProbeDispatches_cycles (eliminate_cycles c.eliminate_eq) c.probe_eq) c.factor_eq)
  exact desugar_shape (fun p hp => (hcycles p hp).tail) c.desugar_eq

end TabnasBnf
