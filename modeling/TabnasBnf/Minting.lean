import TabnasBnf.Semantics

/-!
# Minting helper productions

Several passes replace a part of an alternative by a reference to helper productions they mint.
`Expands τ U f ps g` says that this is sound: whatever the names in scope `U` stand for, `f`
(what the part denoted) is what `g` (what replaces it) denotes once the names of `ps` are given
their languages by `ps`.

* `Expands.trans`, `Expands.map₂`: the rules for a pass that mints in several places.
* `expands_helper`, `expands_loop`: one helper production.
* **`Expands.nameLang_eq`**: productions rewritten so keep the language of every name.
-/

namespace TabnasBnf

variable {T : Type*}

/-- The languages of the names. -/
abbrev Env (T : Type*) := String → Language T

/-- `f` depends on the names of `U` alone. -/
def Local (U : List String) {V : Type*} (f : Env T → V) : Prop :=
  ∀ ⦃ρ ρ' : Env T⦄, (∀ n ∈ U, ρ n = ρ' n) → f ρ = f ρ'

/-- `f` is `g` once the names of `ps`, all new, have the languages `ps` gives them. -/
structure Expands (τ : Element → Language T) (U : List String) {V : Type*} [Preorder V]
    (f : Env T → V) (ps : List Production) (g : Env T → V) : Prop where
  src : Local U f
  tgt : Local (U ++ namesOf ps) g
  closed : ∀ p ∈ ps, refsInAlts p.alts ⊆ U ++ namesOf ps
  fresh : ∀ n ∈ namesOf ps, n ∉ U
  low : ∀ ρ, Solves τ ps ρ → f ρ ≤ g ρ
  up : ∀ ρ, ∃ ρ', (∀ n ∉ namesOf ps, ρ' n = ρ n) ∧ Solves τ ps ρ' ∧ g ρ' ≤ f ρ

variable {τ : Element → Language T} {U : List String} {ps qs : List Production}
  {V W X : Type*} [Preorder V] [Preorder W] [Preorder X]

omit [Preorder V] in
theorem Local.mono {U' : List String} {f : Env T → V} (h : Local U f) (hU : U ⊆ U') :
    Local U' f := fun _ _ hρ => h fun n hn => hρ n (hU hn)

theorem local_altsDen {alts : List Sequence} (h : refsInAlts alts ⊆ U) :
    Local U fun ρ => altsDen τ ρ alts := fun _ _ hρ => altsDen_congr fun n hn => hρ n (h hn)

theorem local_den {el : Element} (h : el.refs ⊆ U) : Local U fun ρ => den τ ρ el :=
  fun _ _ hρ => den_congr fun n hn => hρ n (h hn)

namespace Expands

theorem refl {f : Env T → V} (h : Local U f) : Expands τ U f [] f where
  src := h
  tgt := h.mono (List.subset_append_left _ _)
  closed := fun _ hp => absurd hp List.not_mem_nil
  fresh := fun _ hn => absurd hn List.not_mem_nil
  low := fun _ _ => le_refl _
  up := fun ρ => ⟨ρ, fun _ _ => rfl, fun _ hp => absurd hp List.not_mem_nil, le_refl _⟩

/-- Names that agree off `qs` agree on a scope `qs` is new to. -/
private theorem agree {ρ ρ' : Env T} (h : ∀ n ∉ namesOf qs, ρ' n = ρ n)
    (hf : ∀ n ∈ namesOf qs, n ∉ U) : ∀ n ∈ U, ρ' n = ρ n :=
  fun n hn => h n fun hq => hf n hq hn

/-- A solution of `ps` stays one when names that `ps` does not mention change. -/
private theorem solves_of_agree {ρ ρ' : Env T} (hc : ∀ p ∈ ps, refsInAlts p.alts ⊆ U ++ namesOf ps)
    (h : ∀ n ∈ U ++ namesOf ps, ρ' n = ρ n) (hs : Solves τ ps ρ) : Solves τ ps ρ' :=
  (solves_congr (fun p hp => h _ (List.mem_append_right _ (mem_namesOf.mpr ⟨p, hp, rfl⟩)))
    (fun p hp n hn => h n (hc p hp hn))).mpr hs

/-- What is minted for `g` serves `f`, when `g` is what `f` was replaced by. -/
theorem trans {f g h : Env T → V} (hf : Expands τ U f ps g)
    (hg : Expands τ (U ++ namesOf ps) g qs h) : Expands τ U f (ps ++ qs) h where
  src := hf.src
  tgt := hg.tgt.mono (by rw [namesOf_append, List.append_assoc]; exact List.Subset.refl _)
  closed := by
    rw [namesOf_append, ← List.append_assoc]
    intro p hp
    rcases List.mem_append.mp hp with hp | hp
    · exact List.subset_append_of_subset_left _ (hf.closed p hp)
    · exact hg.closed p hp
  fresh := by
    intro n hn hU
    rw [namesOf_append] at hn
    rcases List.mem_append.mp hn with hn | hn
    · exact hf.fresh n hn hU
    · exact hg.fresh n hn (List.mem_append_left _ hU)
  low := fun ρ hρ => by
    rw [solves_append] at hρ
    exact (hf.low ρ hρ.1).trans (hg.low ρ hρ.2)
  up := fun ρ => by
    obtain ⟨ρ₁, h₁, hs₁, hle₁⟩ := hf.up ρ
    obtain ⟨ρ₂, h₂, hs₂, hle₂⟩ := hg.up ρ₁
    refine ⟨ρ₂, fun n hn => ?_, solves_append.mpr ⟨?_, hs₂⟩, hle₂.trans hle₁⟩
    · rw [namesOf_append, List.mem_append, not_or] at hn
      rw [h₂ n hn.2, h₁ n hn.1]
    · exact solves_of_agree hf.closed (agree h₂ hg.fresh) hs₁

/-- A monotone operation of two parts, each replaced in turn. -/
theorem map₂ {f g : Env T → V} {f' g' : Env T → W} (op : V → W → X)
    (hop : ∀ ⦃a b⦄, a ≤ b → ∀ ⦃c d⦄, c ≤ d → op a c ≤ op b d)
    (hf : Expands τ U f ps g) (hg : Expands τ U f' qs g')
    (hdisj : ∀ n ∈ namesOf qs, n ∉ namesOf ps) :
    Expands τ U (fun ρ => op (f ρ) (f' ρ)) (ps ++ qs) (fun ρ => op (g ρ) (g' ρ)) where
  src := fun ρ ρ' h => by
    show op _ _ = op _ _
    rw [hf.src h, hg.src h]
  tgt := fun ρ ρ' h => by
    simp only [namesOf_append, List.mem_append] at h
    show op _ _ = op _ _
    have hps : g ρ = g ρ' := hf.tgt fun n hn => h n ((List.mem_append.mp hn).imp_right Or.inl)
    have hqs : g' ρ = g' ρ' := hg.tgt fun n hn => h n ((List.mem_append.mp hn).imp_right Or.inr)
    rw [hps, hqs]
  closed := by
    intro p hp n hn
    simp only [namesOf_append, List.mem_append]
    rcases List.mem_append.mp hp with hp | hp
    · exact (List.mem_append.mp (hf.closed p hp hn)).imp_right Or.inl
    · exact (List.mem_append.mp (hg.closed p hp hn)).imp_right Or.inr
  fresh := by
    intro n hn
    rw [namesOf_append] at hn
    exact (List.mem_append.mp hn).elim (hf.fresh n) (hg.fresh n)
  low := fun ρ hρ => by
    rw [solves_append] at hρ
    exact hop (hf.low ρ hρ.1) (hg.low ρ hρ.2)
  up := fun ρ => by
    obtain ⟨ρ₁, h₁, hs₁, hle₁⟩ := hf.up ρ
    obtain ⟨ρ₂, h₂, hs₂, hle₂⟩ := hg.up ρ₁
    -- the second part's helpers are new to the first's scope and to its helpers
    have hnew : ∀ n ∈ U ++ namesOf ps, ρ₂ n = ρ₁ n := by
      intro n hn
      refine h₂ n fun hq => ?_
      exact (List.mem_append.mp hn).elim (hg.fresh n hq) (hdisj n hq)
    refine ⟨ρ₂, fun n hn => ?_, solves_append.mpr ⟨?_, hs₂⟩, hop ?_ ?_⟩
    · rw [namesOf_append, List.mem_append, not_or] at hn
      rw [h₂ n hn.2, h₁ n hn.1]
    · exact solves_of_agree hf.closed hnew hs₁
    · rw [hf.tgt hnew]
      exact hle₁
    · rw [hg.src fun n hn => (agree h₁ hf.fresh n hn).symm]
      exact hle₂

theorem map {f g : Env T → V} {op : V → W} (hop : Monotone op) (hf : Expands τ U f ps g) :
    Expands τ U (fun ρ => op (f ρ)) ps (fun ρ => op (g ρ)) := by
  have h := map₂ (fun a (_ : V) => op a) (fun _ _ hab _ _ _ => hop hab) hf
    (refl (τ := τ) hf.src) (fun _ hn => absurd hn List.not_mem_nil)
  rwa [List.append_nil] at h

end Expands

/-- Give one name a language. -/
def Env.set (ρ : Env T) (n : String) (L : Language T) : Env T := fun m => if m = n then L else ρ m

@[simp] theorem Env.set_self (ρ : Env T) (n : String) (L : Language T) : ρ.set n L n = L :=
  if_pos rfl

theorem Env.set_of_ne {ρ : Env T} {n m : String} {L : Language T} (h : m ≠ n) :
    ρ.set n L m = ρ m := if_neg h

/-- **A helper production stands for its alternatives.** -/
theorem expands_helper {p : Production} (hn : p.name ∉ U) (hr : refsInAlts p.alts ⊆ U) :
    Expands τ U (fun ρ => altsDen τ ρ p.alts) [p] (fun ρ => ρ p.name) where
  src := local_altsDen hr
  tgt := fun ρ ρ' h => h _ (by simp)
  closed := fun q hq => by
    rw [List.mem_singleton] at hq
    subst hq
    exact List.subset_append_of_subset_left _ hr
  fresh := by simpa using hn
  low := fun ρ hρ => hρ p List.mem_cons_self
  up := fun ρ => by
    have hset : ∀ n ∈ U, ρ.set p.name (altsDen τ ρ p.alts) n = ρ n := fun n hU =>
      Env.set_of_ne fun h => hn (h ▸ hU)
    refine ⟨ρ.set p.name (altsDen τ ρ p.alts), fun n h => Env.set_of_ne (by simpa using h), ?_,
      (Env.set_self _ _ _).le⟩
    intro q hq
    rw [List.mem_singleton] at hq
    subst hq
    rw [Env.set_self, altsDen_congr fun n h => hset n (hr h)]

/-- **A loop helper `H = x H / (empty)` stands for the repetitions of `x`.** -/
theorem expands_loop {p : Production} {x : Element} (hn : p.name ∉ U) (hr : x.refs ⊆ U)
    (hp : p.alts = [[x, .reference p.name], []]) :
    Expands τ U (fun ρ => KStar.kstar (den τ ρ x)) [p] (fun ρ => ρ p.name) where
  src := fun ρ ρ' h => by
    show KStar.kstar _ = KStar.kstar _
    rw [den_congr fun n hn => h n (hr hn)]
  tgt := fun ρ ρ' h => h _ (by simp)
  closed := fun q hq => by
    rw [List.mem_singleton] at hq
    subst hq
    rw [hp]
    intro n
    simp only [refsInAlts, refsIn, Element.reference, Element.refs, List.append_nil,
      List.mem_append, List.mem_singleton, namesOf_cons, namesOf_nil]
    exact Or.imp_left (@hr n)
  fresh := by simpa using hn
  low := fun ρ hρ => by
    have h := hρ p List.mem_cons_self
    simp only [hp, altsDen_cons, altsDen_nil, Cf.seq_cons, Cf.seq_nil, Element.reference,
      den_ref, add_zero, mul_one] at h
    have hone : (1 : Language T) ≤ ρ p.name := le_trans le_add_self h
    have hmul : den τ ρ x * ρ p.name ≤ ρ p.name := le_trans le_self_add h
    simpa using Cf.kstar_mul_le hone hmul
  up := fun ρ => by
    have hset : ∀ n ∈ U, ρ.set p.name (KStar.kstar (den τ ρ x)) n = ρ n := fun n hU =>
      Env.set_of_ne fun h => hn (h ▸ hU)
    refine ⟨ρ.set p.name (KStar.kstar (den τ ρ x)), fun n h => Env.set_of_ne (by simpa using h),
      ?_, (Env.set_self _ _ _).le⟩
    intro q hq
    rw [List.mem_singleton] at hq
    subst hq
    simp only [hp, altsDen_cons, altsDen_nil, Cf.seq_cons, Cf.seq_nil, Element.reference,
      den_ref, add_zero, mul_one, Env.set_self]
    rw [den_congr fun n h => hset n (hr h), add_comm, Language.one_add_self_mul_kstar_eq_kstar]

/-- **Rewritten productions with their helpers keep every name's language**: `G` is rewritten to
`G'`, and the helpers `ps` are added. -/
theorem Expands.nameLang_eq {G G' : List Production}
    (h : Expands τ U (step τ G) ps (step τ G')) (hG : namesOf G ⊆ U) {n : String}
    (hn : n ∈ U) : nameLang τ (G' ++ ps) n = nameLang τ G n := by
  refine le_antisymm ?_ ?_
  · obtain ⟨ρ', hag, hs, hle⟩ := h.up (nameLang τ G)
    have hsol : Solves τ (G' ++ ps) ρ' := by
      refine solves_append.mpr ⟨solves_iff_step_le.mpr fun m => ?_, hs⟩
      refine (hle m).trans ?_
      by_cases hm : m ∈ namesOf ps
      · intro w hw
        obtain ⟨p, hp, rfl, _⟩ := mem_step.mp hw
        exact absurd (hG (mem_namesOf.mpr ⟨p, hp, rfl⟩)) (h.fresh _ hm)
      · rw [hag m hm, nameLang_eq_step]
    refine (nameLang_le hsol n).trans (hag n fun hp => h.fresh n hp hn).le
  · refine nameLang_le (solves_iff_step_le.mpr fun m => ?_) n
    have hsol := solves_append.mp (solves_nameLang (τ := τ) (G := G' ++ ps))
    exact (h.low _ hsol.2 m).trans (solves_iff_step_le.mp hsol.1 m)

end TabnasBnf
