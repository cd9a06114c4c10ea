import TabnasBnf.DesugarCorrect

/-!
# The loops desugaring mints

Desugaring is the only pass that marks a repeat loop, and every loop it mints is named after a star.
It puts its helpers behind the productions that were there, so that a loop is followed by helpers
alone (`LoopNames`).

* **`desugar_loops`**: a desugared grammar is so, and names no counter its source did not.
-/

namespace TabnasBnf

open Desugar

/-! ## Counters -/

mutual
/-- The counters an element names: those of its debt and of the stars' guards in it. -/
def Element.counters : Element → List String
  | .ref _ debt _ => (debt.getD []).map Prod.fst
  | .star e guard _ => guard.toList ++ e.counters
  | .opt e _ | .plus e _ | .rep _ _ e _ => e.counters
  | .group alts _ => countersInAlts alts
  | _ => []

/-- The same of a sequence. -/
def countersIn : List Element → List String
  | [] => []
  | el :: rest => el.counters ++ countersIn rest

/-- The same of a list of alternatives. -/
def countersInAlts : List (List Element) → List String
  | [] => []
  | α :: rest => countersIn α ++ countersInAlts rest
end

/-- The counters a production names. -/
def Production.counters (p : Production) : List String :=
  p.debtGuard.toList ++ countersInAlts p.alts

theorem mem_countersIn {c : String} {α : List Element} :
    c ∈ countersIn α ↔ ∃ el ∈ α, c ∈ el.counters := by
  induction α with
  | nil => simp [countersIn]
  | cons el α ih => simp [countersIn, ih]

theorem mem_countersInAlts {c : String} {alts : List (List Element)} :
    c ∈ countersInAlts alts ↔ ∃ α ∈ alts, ∃ el ∈ α, c ∈ el.counters := by
  induction alts with
  | nil => simp [countersInAlts]
  | cons α alts ih => simp [countersInAlts, ih, mem_countersIn]

/-! ## Helpers -/

/-- The name of a loop. -/
def StarNamed (name : String) : Prop := ∃ hint i, name = helperName ("star_" ++ hint) i

/-- The name of another helper: its hint begins otherwise. -/
def OtherNamed (name : String) : Prop :=
  ∃ hint i, name = helperName hint i ∧ ∃ c ∈ hint.toList.head?, c ≠ 's'

/-- A helper desugaring mints: a loop of two alternatives, or another helper. -/
structure DesugarHelper (p : Production) : Prop where
  tailRepeat : p.tailRepeat = none
  probeHelper : p.probeHelper = none
  probeDispatch : p.probeDispatch = none
  named : p.repeatLoop = true ∧ p.alts.length = 2 ∧ StarNamed p.name ∨
    p.repeatLoop = false ∧ OtherNamed p.name

/-- What desugaring leaves of a grammar whose counters are among `C`: the loops are helpers, and so
is what follows a loop. -/
structure LoopNames (C : List String) (g : Grammar) : Prop where
  counters : ∀ p ∈ g.productions, p.counters ⊆ C
  helper : ∀ p ∈ g.productions, p.repeatLoop = true → DesugarHelper p
  behind : g.productions.Pairwise fun p q => p.repeatLoop = true → DesugarHelper q

namespace Desugar

variable {C : List String} {d d₁ d₂ : Desugar} {inner : Element}

/-- A run from `d` to `d'` that minted helpers, whose counters are among `C`. -/
def Mints (C : List String) (d d' : Desugar) : Prop :=
  ∃ ps, d'.extra = d.extra ++ ps ∧ ∀ p ∈ ps, DesugarHelper p ∧ p.counters ⊆ C

theorem Mints.refl (h : d₁.extra = d.extra) : Mints C d d₁ :=
  ⟨[], by rw [h, List.append_nil], fun _ hp => absurd hp List.not_mem_nil⟩

theorem Mints.trans (h₁ : Mints C d d₁) (h₂ : Mints C d₁ d₂) : Mints C d d₂ := by
  obtain ⟨ps, hps, hp⟩ := h₁
  obtain ⟨qs, hqs, hq⟩ := h₂
  refine ⟨ps ++ qs, by rw [hqs, hps, List.append_assoc], fun p hmem => ?_⟩
  exact (List.mem_append.mp hmem).elim (hp p) (hq p)

/-- The loop over an item. -/
theorem repeatLoop_mints {guard : Option String} (hint : String) (i : Nat)
    (hguard : guard.toList ⊆ C) (hinner : inner.counters ⊆ C) :
    Mints C d (d.repeatLoop (helperName ("star_" ++ hint) i) inner guard).2 := by
  refine ⟨_, rfl, fun p hp => ?_⟩
  obtain rfl := List.mem_singleton.mp hp
  refine ⟨⟨rfl, rfl, rfl, .inl ⟨rfl, rfl, hint, i, rfl⟩⟩, ?_⟩
  simp [Production.counters, Production.helper, countersInAlts, countersIn, Element.reference,
    Element.counters, hguard, hinner]

/-- Another helper. -/
theorem helper_mints {alts : List Sequence} (hint : String) (i : Nat) (repeatHelper : Bool)
    (hhint : ∃ c ∈ hint.toList.head?, c ≠ 's') (hc : countersInAlts alts ⊆ C) :
    Mints C d (d.helper (helperName hint i) alts repeatHelper).2 := by
  refine ⟨_, rfl, fun p hp => ?_⟩
  obtain rfl := List.mem_singleton.mp hp
  refine ⟨⟨rfl, rfl, rfl, .inr ⟨rfl, hint, i, rfl, hhint⟩⟩, ?_⟩
  simpa [Production.counters, Production.helper] using hc

theorem countersIn_append (α β : Sequence) :
    countersIn (α ++ β) = countersIn α ++ countersIn β := by
  induction α with
  | nil => rfl
  | cons el α ih => rw [List.cons_append, countersIn, countersIn, ih, List.append_assoc]

theorem countersIn_replicate (n : Nat) (h : inner.counters ⊆ C) :
    countersIn (List.replicate n inner) ⊆ C := by
  intro c hc
  obtain ⟨el, hel, hc⟩ := mem_countersIn.mp hc
  rw [List.eq_of_mem_replicate hel] at hc
  exact h hc

/-- The copies of a repetition, and what follows them. -/
theorem counters_copies {rest : Sequence} (n : Nat) (h : inner.counters ⊆ C)
    (hrest : countersIn rest ⊆ C) : countersInAlts [List.replicate n inner ++ rest] ⊆ C := by
  rw [countersInAlts, countersIn_append, countersInAlts, List.append_nil]
  exact List.append_subset.mpr ⟨countersIn_replicate n h, hrest⟩

theorem counters_reference (name : String) : (Element.reference name).counters = [] := rfl

theorem nestStep_mints {nested : Option Element} (hinner : inner.counters ⊆ C)
    (hnested : countersIn nested.toList ⊆ C) : Mints C d (nestStep inner nested d).2 := by
  refine (Mints.refl rfl).trans ((helper_mints "group" _ false ⟨'g', rfl, by decide⟩
    ?_).trans ((Mints.refl rfl).trans (helper_mints _ _ true ⟨'o', ?_, by decide⟩ ?_)))
  · simpa [countersInAlts, countersIn] using ⟨hinner, hnested⟩
  · simp
  · simp [countersInAlts, countersIn, counters_reference]

theorem nestOptionals_mints (hinner : inner.counters ⊆ C) :
    ∀ (n : Nat) (nested : Option Element) (d : Desugar), countersIn nested.toList ⊆ C →
      Mints C d (nestOptionals inner n nested d).2 ∧
        countersIn (nestOptionals inner n nested d).1.toList ⊆ C
  | 0, nested, d, hnested => ⟨.refl rfl, hnested⟩
  | n + 1, nested, d, hnested => by
    rw [nestOptionals_succ]
    have hstep : countersIn (some (nestStep inner nested d).1).toList ⊆ C := by
      simp [nestStep, helper, countersIn, counters_reference]
    obtain ⟨hrest, hc⟩ := nestOptionals_mints hinner n _ (nestStep inner nested d).2 hstep
    exact ⟨(nestStep_mints hinner hnested).trans hrest, hc⟩

/-- The sugar branches mint helpers. -/
theorem sugar_mints (el : Element) (hel : el.inner.isSome = true) (hguard : el.counters ⊆ C)
    (hinner : inner.counters ⊆ C) :
    Mints C d (d.sugar el inner).2 ∧ (d.sugar el inner).1.counters = [] := by
  cases el with
  | opt e sp =>
    refine ⟨(Mints.refl rfl).trans (helper_mints _ _ true ⟨'o', by simp, by decide⟩ ?_), rfl⟩
    simpa [countersInAlts, countersIn] using hinner
  | star e guard sp =>
    refine ⟨(Mints.refl rfl).trans (repeatLoop_mints _ _ ?_ hinner), rfl⟩
    exact fun c hc => hguard (List.mem_append_left _ hc)
  | plus e sp =>
    refine ⟨(Mints.refl rfl).trans ((repeatLoop_mints _ _ (List.nil_subset _) hinner).trans
      (helper_mints _ _ false ⟨'p', by simp, by decide⟩ ?_)), rfl⟩
    simpa [countersInAlts, countersIn, repeatLoop, counters_reference] using hinner
  | rep min max e sp =>
    cases max with
    | none =>
      refine ⟨(Mints.refl rfl).trans ((repeatLoop_mints _ _ (List.nil_subset _) hinner).trans
        (helper_mints _ _ false ⟨'r', by simp, by decide⟩ (counters_copies min hinner ?_))), rfl⟩
      simp [countersIn, counters_reference]
    | some max =>
      obtain ⟨hrun, hnested⟩ := nestOptionals_mints hinner (max - min) none
        (d.freshName ("rep_" ++ hintOf inner)).2 (List.nil_subset _)
      exact ⟨(Mints.refl rfl).trans (hrun.trans (helper_mints _ _ false ⟨'r', by simp, by decide⟩
        (counters_copies min hinner hnested))), rfl⟩
  | _ => cases hel

mutual
theorem element_mints : ∀ (el : Element) {d : Desugar} {r : Element × Desugar},
    el.counters ⊆ C → element d el = .ok r → Mints C d r.2 ∧ r.1.counters ⊆ C
  | .prose .., _, _, _, h => by cases h
  | .ref .., _, _, hc, h => by
    obtain rfl := Except.ok.inj h
    exact ⟨.refl rfl, hc⟩
  | .term .., _, _, hc, h => by
    obtain rfl := Except.ok.inj h
    exact ⟨.refl rfl, hc⟩
  | .regex .., _, _, hc, h => by
    obtain rfl := Except.ok.inj h
    exact ⟨.refl rfl, hc⟩
  | .token .., _, _, hc, h => by
    obtain rfl := Except.ok.inj h
    exact ⟨.refl rfl, hc⟩
  | .group alts _, _, _, hc, h => by
    obtain ⟨⟨inner, d₁⟩, hinner, h⟩ := bind_eq_ok h
    obtain rfl := Except.ok.inj h
    obtain ⟨hrun, hcs⟩ := altList_mints alts hc hinner
    exact ⟨hrun.trans ((Mints.refl rfl).trans
      (helper_mints "group" _ false ⟨'g', rfl, by decide⟩ hcs)), List.nil_subset _⟩
  | .opt e sp, _, _, hc, h => by
    obtain ⟨⟨inner, d₁⟩, hinner, h⟩ := bind_eq_ok h
    obtain rfl := Except.ok.inj h
    obtain ⟨hrun, hci⟩ := element_mints e hc hinner
    obtain ⟨hsugar, hnil⟩ := sugar_mints (d := d₁) (.opt e sp) rfl hc hci
    exact ⟨hrun.trans hsugar, hnil ▸ List.nil_subset _⟩
  | .star e guard sp, _, _, hc, h => by
    obtain ⟨⟨inner, d₁⟩, hinner, h⟩ := bind_eq_ok h
    obtain rfl := Except.ok.inj h
    obtain ⟨hrun, hci⟩ := element_mints e (List.append_subset.mp hc).2 hinner
    obtain ⟨hsugar, hnil⟩ := sugar_mints (d := d₁) (.star e guard sp) rfl hc hci
    exact ⟨hrun.trans hsugar, hnil ▸ List.nil_subset _⟩
  | .plus e sp, _, _, hc, h => by
    obtain ⟨⟨inner, d₁⟩, hinner, h⟩ := bind_eq_ok h
    obtain rfl := Except.ok.inj h
    obtain ⟨hrun, hci⟩ := element_mints e hc hinner
    obtain ⟨hsugar, hnil⟩ := sugar_mints (d := d₁) (.plus e sp) rfl hc hci
    exact ⟨hrun.trans hsugar, hnil ▸ List.nil_subset _⟩
  | .rep min max e sp, _, _, hc, h => by
    obtain ⟨⟨inner, d₁⟩, hinner, h⟩ := bind_eq_ok h
    obtain rfl := Except.ok.inj h
    obtain ⟨hrun, hci⟩ := element_mints e hc hinner
    obtain ⟨hsugar, hnil⟩ := sugar_mints (d := d₁) (.rep min max e sp) rfl hc hci
    exact ⟨hrun.trans hsugar, hnil ▸ List.nil_subset _⟩

theorem alt_mints : ∀ (α : List Element) {d : Desugar} {r : List Element × Desugar},
    countersIn α ⊆ C → alt d α = .ok r → Mints C d r.2 ∧ countersIn r.1 ⊆ C
  | [], _, _, hc, h => by
    obtain rfl := Except.ok.inj h
    exact ⟨.refl rfl, hc⟩
  | el :: α, _, _, hc, h => by
    obtain ⟨⟨el', d₁⟩, hel, h⟩ := bind_eq_ok h
    obtain ⟨⟨α', d₂⟩, hα, h⟩ := bind_eq_ok h
    obtain rfl := Except.ok.inj h
    have hc := List.append_subset.mp hc
    obtain ⟨hrun, hce⟩ := element_mints el hc.1 hel
    obtain ⟨hrun', hcα⟩ := alt_mints α hc.2 hα
    exact ⟨hrun.trans hrun', List.append_subset.mpr ⟨hce, hcα⟩⟩

theorem altList_mints : ∀ (alts : List (List Element)) {d : Desugar}
    {r : List (List Element) × Desugar}, countersInAlts alts ⊆ C → altList d alts = .ok r →
      Mints C d r.2 ∧ countersInAlts r.1 ⊆ C
  | [], _, _, hc, h => by
    obtain rfl := Except.ok.inj h
    exact ⟨.refl rfl, hc⟩
  | α :: alts, _, _, hc, h => by
    obtain ⟨⟨α', d₁⟩, hα, h⟩ := bind_eq_ok h
    obtain ⟨⟨alts', d₂⟩, halts, h⟩ := bind_eq_ok h
    obtain rfl := Except.ok.inj h
    have hc := List.append_subset.mp hc
    obtain ⟨hrun, hcα⟩ := alt_mints α hc.1 hα
    obtain ⟨hrun', hcalts⟩ := altList_mints alts hc.2 halts
    exact ⟨hrun.trans hrun', List.append_subset.mpr ⟨hcα, hcalts⟩⟩
end

theorem productions_mints : ∀ (ps : List Production) {d : Desugar}
    {r : List Production × Desugar}, (∀ p ∈ ps, p.repeatLoop = false ∧ p.counters ⊆ C) →
      productions d ps = .ok r →
        Mints C d r.2 ∧ ∀ p ∈ r.1, p.repeatLoop = false ∧ p.counters ⊆ C
  | [], _, _, _, h => by
    obtain rfl := Except.ok.inj h
    exact ⟨.refl rfl, fun _ hp => absurd hp List.not_mem_nil⟩
  | p :: ps, _, _, hps, h => by
    obtain ⟨⟨alts, d₁⟩, halts, h⟩ := bind_eq_ok h
    obtain ⟨⟨rest, d₂⟩, hrest, h⟩ := bind_eq_ok h
    obtain rfl := Except.ok.inj h
    obtain ⟨hloop, hc⟩ := hps p List.mem_cons_self
    have hc := List.append_subset.mp hc
    obtain ⟨hrun, hca⟩ := altList_mints p.alts hc.2 halts
    obtain ⟨hrun', hcs⟩ := productions_mints ps (fun q hq => hps q (List.mem_cons_of_mem _ hq)) hrest
    refine ⟨(Mints.refl rfl).trans (hrun.trans hrun'), List.forall_mem_cons.mpr ⟨⟨hloop, ?_⟩, hcs⟩⟩
    exact List.append_subset.mpr ⟨hc.1, hca⟩

end Desugar

/-- **Loops are named after stars, and helpers follow them.** -/
theorem desugar_loops {C : List String} {g₀ g : Grammar}
    (h₀ : ∀ p ∈ g₀.productions, p.repeatLoop = false ∧ p.counters ⊆ C)
    (h : desugar g₀ = .ok g) : LoopNames C g := by
  obtain ⟨⟨users, d⟩, hrun, h⟩ := bind_eq_ok h
  obtain rfl := Except.ok.inj h
  obtain ⟨⟨ps, hextra, hps⟩, husers⟩ := productions_mints g₀.productions h₀ hrun
  rw [List.nil_append] at hextra
  have hno : ∀ p ∈ users, ∀ P : Prop, p.repeatLoop = true → P := by
    intro p hp P hloop
    rw [(husers p hp).1] at hloop
    cases hloop
  refine ⟨fun p hp => ?_, fun p hp hloop => ?_, ?_⟩
  · exact (List.mem_append.mp hp).elim (fun hp => (husers p hp).2)
      fun hp => (hps p (hextra ▸ hp)).2
  · rcases List.mem_append.mp hp with hp | hp
    · exact hno p hp _ hloop
    · exact (hps p (hextra ▸ hp)).1
  · refine List.pairwise_append.mpr ⟨?_, ?_, fun p hp q _ => hno p hp _⟩
    · exact List.pairwise_of_forall_mem_list fun p hp q _ => hno p hp _
    · exact List.pairwise_of_forall_mem_list fun p _ q hq _ => (hps q (hextra ▸ hq)).1

end TabnasBnf
