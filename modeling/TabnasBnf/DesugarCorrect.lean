import Mathlib.Algebra.Order.Monoid.Unbundled.Pow
import TabnasBnf.Desugar
import TabnasBnf.Minting

/-!
# Desugaring keeps the language

Of `desugar` on a grammar without prose whose references name productions, whose production
names are distinct and whose repetition bounds are ordered:

* **`desugar_correct`**: it returns a grammar whose alternatives hold terminals and references
  only, whose production names are distinct, and in which every production of the input derives
  what it derived before, whatever the terminals stand for.

Each function of the pass gets one lemma saying what it mints (`Minted`) and what the result
denotes over it (`Expands`); `Yielded` is the two together.
-/

namespace TabnasBnf

variable {T : Type*} {τ : Element → Language T}

mutual
/-- No prose, and repetition bounds with `min ≤ max`. -/
def Element.Proper : Element → Prop
  | .prose .. => False
  | .rep min max e _ => (∀ m, max = some m → min ≤ m) ∧ e.Proper
  | .opt e _ | .star e _ _ | .plus e _ => e.Proper
  | .group alts _ => ProperAlts alts
  | _ => True

/-- The same of the elements of a sequence. -/
def ProperSeq : List Element → Prop
  | [] => True
  | el :: rest => el.Proper ∧ ProperSeq rest

/-- The same of a list of alternatives. -/
def ProperAlts : List (List Element) → Prop
  | [] => True
  | α :: rest => ProperSeq α ∧ ProperAlts rest
end

/-- A terminal or a reference. -/
def Element.isSimple (el : Element) : Bool := el.isTerminal || el.isRef

@[simp] theorem isSimple_reference (n : String) : (Element.reference n).isSimple = true := rfl

@[simp] theorem isSimple_ref (n : String) (debt : Option (List (String × Int)))
    (sp : Option SrcSpan) : (Element.ref n debt sp).isSimple = true := rfl

/-- Alternatives of terminals and references. -/
def SimpleAlts (alts : List Sequence) : Prop := ∀ α ∈ alts, ∀ el ∈ α, el.isSimple = true

/-! ## The meaning of a bounded repetition -/

/-- `n` nested optionals `[A [A [A … b]]]`. -/
def nest (a : Language T) : Nat → Language T → Language T
  | 0, b => b
  | n + 1, b => nest a n (1 + a * b)

theorem nest_mono {a a' : Language T} (ha : a ≤ a') :
    ∀ (n : Nat) {b b' : Language T}, b ≤ b' → nest a n b ≤ nest a' n b'
  | 0, _, _, hb => hb
  | n + 1, _, _, hb => nest_mono ha n (add_le_add (le_refl _) (mul_le_mul' ha hb))

theorem mem_nest {a : Language T} {w : List T} : ∀ {n : Nat} {b : Language T},
    w ∈ nest a n b ↔ (∃ k < n, w ∈ a ^ k) ∨ w ∈ a ^ n * b
  | 0, b => by simp [nest]
  | n + 1, b => by
    rw [nest, mem_nest, mul_add, mul_one, Language.mem_add, ← mul_assoc, ← pow_succ, ← or_assoc]
    refine or_congr ⟨?_, ?_⟩ Iff.rfl
    · rintro (⟨k, hk, hw⟩ | hw)
      · exact ⟨k, by omega, hw⟩
      · exact ⟨n, by omega, hw⟩
    · rintro ⟨k, hk, hw⟩
      rcases Nat.lt_succ_iff_lt_or_eq.mp hk with h | rfl
      · exact Or.inl ⟨k, h, hw⟩
      · exact Or.inr hw

variable {ρ : Env T}

theorem den_rep_some {min max : Nat} (h : min ≤ max) (e : Element) (sp : Option SrcSpan) :
    den τ ρ (.rep min (some max) e sp) = den τ ρ e ^ min * nest (den τ ρ e) (max - min) 1 := by
  ext w
  rw [mem_den_rep, Language.mem_mul]
  constructor
  · rintro ⟨k, hk, hmax, hw⟩
    obtain ⟨j, rfl⟩ := Nat.exists_eq_add_of_le hk
    rw [pow_add, Language.mem_mul] at hw
    obtain ⟨u, hu, v, hv, rfl⟩ := hw
    have hj : j ≤ max - min := by have := hmax max rfl; omega
    refine ⟨u, hu, v, mem_nest.mpr ?_, rfl⟩
    rcases Nat.lt_or_eq_of_le hj with hj | rfl
    · exact Or.inl ⟨j, hj, hv⟩
    · exact Or.inr (by rwa [mul_one])
  · rintro ⟨u, hu, v, hv, rfl⟩
    have hj : ∃ j ≤ max - min, v ∈ den τ ρ e ^ j := by
      rcases mem_nest.mp hv with ⟨j, hj, hv⟩ | hv
      · exact ⟨j, hj.le, hv⟩
      · exact ⟨_, le_refl _, by rwa [mul_one] at hv⟩
    obtain ⟨j, hj, hv⟩ := hj
    refine ⟨min + j, by omega, fun m hm => ?_, ?_⟩
    · cases hm; omega
    · rw [pow_add]
      exact Language.append_mem_mul hu hv

namespace Desugar

/-! ## Bookkeeping -/

/-- From `d` to `d'` the productions `ps` were minted, each as `P` says, under new names. -/
structure Minted (P : Production → Prop) (d d' : Desugar) (ps : List Production) : Prop where
  extra : d'.extra = d.extra ++ ps
  used : d.used ⊆ d'.used
  names : namesOf ps ⊆ d'.used
  fresh : ∀ n ∈ namesOf ps, n ∉ d.used
  nodup : (namesOf ps).Nodup
  holds : ∀ p ∈ ps, P p

/-- A helper of terminals and references. -/
def SimpleHelper (p : Production) : Prop := SimpleAlts p.alts

variable {P : Production → Prop}

theorem minted_refl {d d' : Desugar} (he : d'.extra = d.extra) (hu : d.used ⊆ d'.used) :
    Minted P d d' [] where
  extra := by rw [he, List.append_nil]
  used := hu
  names := List.nil_subset _
  fresh := fun _ hn => absurd hn List.not_mem_nil
  nodup := List.nodup_nil
  holds := fun _ hp => absurd hp List.not_mem_nil

theorem Minted.trans {d d₁ d₂ : Desugar} {ps qs : List Production} (h₁ : Minted P d d₁ ps)
    (h₂ : Minted P d₁ d₂ qs) : Minted P d d₂ (ps ++ qs) where
  extra := by rw [h₂.extra, h₁.extra, List.append_assoc]
  used := fun _ hn => h₂.used (h₁.used hn)
  names := by
    rw [namesOf_append]
    exact List.append_subset.mpr ⟨fun _ hn => h₂.used (h₁.names hn), h₂.names⟩
  fresh := fun n hn hd => by
    rw [namesOf_append] at hn
    rcases List.mem_append.mp hn with hn | hn
    · exact h₁.fresh n hn hd
    · exact h₂.fresh n hn (h₁.used hd)
  nodup := by
    rw [namesOf_append]
    exact h₁.nodup.append h₂.nodup fun n hn hm => h₂.fresh n hm (h₁.names hn)
  holds := fun p hp => (List.mem_append.mp hp).elim (h₁.holds p) (h₂.holds p)

theorem freshName_notMem (d : Desugar) (hint : String) : (d.freshName hint).1 ∉ d.used :=
  Names.mk_freshIndex_notMem (fun _ _ h => Names.numbered_injective "_gen" ("_" ++ hint) h) _

/-- A production pushed under a name that was reserved before `ps` were minted. -/
theorem Minted.push {d d₀ d₁ : Desugar} {ps : List Production} {p : Production}
    (h : Minted P d₀ d₁ ps) (he : d₀.extra = d.extra) (hu : d.used ⊆ d₀.used)
    (hp : p.name ∈ d₀.used) (hn : p.name ∉ d.used) (hs : P p) :
    Minted P d { d₁ with extra := d₁.extra ++ [p] } (ps ++ [p]) where
  extra := by
    show d₁.extra ++ [p] = _
    rw [h.extra, he, List.append_assoc]
  used := fun _ hm => h.used (hu hm)
  names := by
    rw [namesOf_append]
    refine List.append_subset.mpr ⟨h.names, ?_⟩
    simpa using h.used hp
  fresh := fun m hm hd => by
    rw [namesOf_append] at hm
    rcases List.mem_append.mp hm with hm | hm
    · exact h.fresh m hm (hu hd)
    · simp only [namesOf_cons, namesOf_nil, List.mem_singleton] at hm
      exact hn (hm ▸ hd)
  nodup := by
    rw [namesOf_append]
    refine h.nodup.append (List.nodup_singleton _) fun m hm hm' => ?_
    simp only [namesOf_cons, namesOf_nil, List.mem_singleton] at hm'
    exact h.fresh m hm (hm' ▸ hp)
  holds := fun q hq => by
    rcases List.mem_append.mp hq with hq | hq
    · exact h.holds q hq
    · rw [List.mem_singleton.mp hq]
      exact hs

/-- A run from `d` to `d'` in the scope `U`: something that denoted `f` became something that
denotes `g` and refers to `R`. -/
def Yielded (τ : Element → Language T) (U : List String) (d d' : Desugar) (R : List String)
    {V : Type*} [Preorder V] (f g : Env T → V) : Prop :=
  ∃ ps, Minted SimpleHelper d d' ps ∧ R ⊆ U ++ namesOf ps ∧ Expands τ U f ps g

section

variable {U R R' : List String} {d d₁ d₂ : Desugar} {V W X : Type*} [Preorder V] [Preorder W]
  [Preorder X]

theorem Yielded.refl {f : Env T → V} (hf : Local U f) (hR : R ⊆ U) : Yielded τ U d d R f f :=
  ⟨[], minted_refl rfl (List.Subset.refl _), List.subset_append_of_subset_left _ hR,
    Expands.refl hf⟩

theorem Yielded.trans {f g h : Env T → V} (hU : U ⊆ d.used) (h₁ : Yielded τ U d d₁ R f g)
    (h₂ : ∀ S, S ⊆ d₁.used → R ⊆ S → Yielded τ S d₁ d₂ R' g h) : Yielded τ U d d₂ R' f h := by
  obtain ⟨ps, hm, hR, he⟩ := h₁
  have hS : U ++ namesOf ps ⊆ d₁.used :=
    List.append_subset.mpr ⟨fun _ hn => hm.used (hU hn), hm.names⟩
  obtain ⟨qs, hm', hR', he'⟩ := h₂ _ hS hR
  refine ⟨ps ++ qs, hm.trans hm', ?_, he.trans he'⟩
  rwa [namesOf_append, ← List.append_assoc]

theorem Yielded.map₂ {f g : Env T → V} {f' g' : Env T → W} (op : V → W → X)
    (hop : ∀ ⦃a b⦄, a ≤ b → ∀ ⦃c d⦄, c ≤ d → op a c ≤ op b d)
    (h₁ : Yielded τ U d d₁ R f g) (h₂ : Yielded τ U d₁ d₂ R' f' g') :
    Yielded τ U d d₂ (R ++ R') (fun ρ => op (f ρ) (f' ρ)) (fun ρ => op (g ρ) (g' ρ)) := by
  obtain ⟨ps, hm, hR, he⟩ := h₁
  obtain ⟨qs, hm', hR', he'⟩ := h₂
  refine ⟨ps ++ qs, hm.trans hm', fun n hn => ?_,
    he.map₂ op hop he' fun n hn hp => hm'.fresh n hn (hm.names hp)⟩
  simp only [namesOf_append, List.mem_append]
  rcases List.mem_append.mp hn with hn | hn
  · exact (List.mem_append.mp (hR hn)).imp_right Or.inl
  · exact (List.mem_append.mp (hR' hn)).imp_right Or.inr

theorem Yielded.map {f g : Env T → V} (op : V → W) (hop : Monotone op)
    (h : Yielded τ U d d₁ R f g) :
    Yielded τ U d d₁ R (fun ρ => op (f ρ)) (fun ρ => op (g ρ)) := by
  obtain ⟨ps, hm, hR, he⟩ := h
  exact ⟨ps, hm, hR, he.map hop⟩

/-- A helper pushed under a reserved name stands for what its alternatives denote. -/
theorem Yielded.push (d₀ : Desugar) (p : Production) {f : Env T → Language T}
    (hU : U ⊆ d.used) (h : Yielded τ U d₀ d₁ R f fun ρ => altsDen τ ρ p.alts)
    (he : d₀.extra = d.extra) (hu : d.used ⊆ d₀.used) (hp : p.name ∈ d₀.used)
    (hn : p.name ∉ d.used) (hs : SimpleAlts p.alts) (hR : refsInAlts p.alts ⊆ R) :
    Yielded τ U d { d₁ with extra := d₁.extra ++ [p] } [p.name] f fun ρ => ρ p.name := by
  obtain ⟨ps, hm, hRU, hex⟩ := h
  have hfresh : p.name ∉ U ++ namesOf ps := fun hmem =>
    (List.mem_append.mp hmem).elim (fun h => hn (hU h)) fun h => hm.fresh _ h hp
  exact ⟨ps ++ [p], hm.push he hu hp hn hs, by simp,
    hex.trans (expands_helper hfresh fun _ h => hRU (hR h))⟩

/-- A loop helper pushed under a reserved name stands for the repetitions of `x`. -/
theorem Yielded.pushLoop (d₀ : Desugar) (p : Production) {x : Element} (hU : U ⊆ d.used)
    (he : d₀.extra = d.extra) (hu : d.used ⊆ d₀.used) (hp : p.name ∈ d₀.used)
    (hn : p.name ∉ d.used) (hx : x.isSimple = true) (hr : x.refs ⊆ U)
    (ha : p.alts = [[x, .reference p.name], []]) :
    Yielded τ U d { d₀ with extra := d₀.extra ++ [p] } [p.name]
      (fun ρ => KStar.kstar (den τ ρ x)) fun ρ => ρ p.name := by
  have hs : SimpleAlts p.alts := by
    rw [ha]
    simp [SimpleAlts, hx]
  exact ⟨[p], (minted_refl rfl (List.Subset.refl _)).push he hu hp hn hs, by simp,
    expands_loop (fun h => hn (hU h)) hr ha⟩

/-- A helper pushed under the next fresh name. -/
theorem yielded_helper (hint : String) (alts : List Sequence) (repeatHelper : Bool)
    (hU : U ⊆ d.used) (hr : refsInAlts alts ⊆ U) (hs : SimpleAlts alts) :
    Yielded τ U d ((d.freshName hint).2.helper (d.freshName hint).1 alts repeatHelper).2
      [(d.freshName hint).1] (fun ρ => altsDen τ ρ alts) fun ρ => ρ (d.freshName hint).1 :=
  Yielded.push (d.freshName hint).2
    { Production.helper (d.freshName hint).1 alts d.origin with repeatHelper := repeatHelper } hU
    (Yielded.refl (local_altsDen hr) hr) rfl (List.subset_append_left _ _)
    (List.mem_append_right _ (List.mem_singleton_self _)) (freshName_notMem d hint) hs
    (List.Subset.refl _)

/-! ## The sugar -/

variable {inner : Element}

/-- What a run that ends in a reference to a helper establishes. -/
def HelperFor (τ : Element → Language T) (U : List String) (d : Desugar) (f : Env T → Language T)
    (r : Element × Desugar) : Prop :=
  ∃ name, r.1 = .reference name ∧ Yielded τ U d r.2 [name] f fun ρ => ρ name

theorem opt_spec (e : Element) (sp : Option SrcSpan) (hU : U ⊆ d.used)
    (hi : inner.isSimple = true) (hr : inner.refs ⊆ U) :
    HelperFor τ U d (fun ρ => 1 + den τ ρ inner) (d.sugar (.opt e sp) inner) := by
  have hf : (fun ρ => 1 + den τ ρ inner) = fun ρ => altsDen τ ρ [[inner], []] := by
    funext ρ
    simp [add_comm]
  rw [hf]
  exact ⟨_, rfl, yielded_helper ("opt_" ++ hintOf inner) [[inner], []] true hU
    (by simpa [refsInAlts, refsIn] using hr) (by simp [SimpleAlts, hi])⟩

theorem star_spec (e : Element) (guard : Option String) (sp : Option SrcSpan) (hU : U ⊆ d.used)
    (hi : inner.isSimple = true) (hr : inner.refs ⊆ U) :
    HelperFor τ U d (fun ρ => KStar.kstar (den τ ρ inner))
      (d.sugar (.star e guard sp) inner) := by
  let X := d.freshName ("star_" ++ hintOf inner)
  let loop : Production := { Production.helper X.1 [[inner, .reference X.1], []] d.origin with
    repeatHelper := true, repeatLoop := true, debtGuard := guard }
  exact ⟨X.1, rfl, Yielded.pushLoop X.2 loop hU rfl (List.subset_append_left _ _)
    (List.mem_append_right _ (List.mem_singleton_self _)) (freshName_notMem d _) hi hr rfl⟩

/-- An unbounded repetition `x … x x∗` under two reserved names, the loop's and the helper's. -/
theorem yielded_counted {X : Desugar} {loop name : String} (k : Nat) (q p : Production)
    (hU : U ⊆ d.used) (he : X.extra = d.extra) (hu : d.used ⊆ X.used) (hl : loop ∈ X.used)
    (hn : name ∈ X.used) (hld : loop ∉ d.used) (hnd : name ∉ d.used) (hne : loop ≠ name)
    (hi : inner.isSimple = true) (hr : inner.refs ⊆ U)
    (hq : q.name = loop) (hqa : q.alts = [[inner, .reference loop], []])
    (hp : p.name = name) (hpa : p.alts = [List.replicate k inner ++ [.reference loop]]) :
    Yielded τ U d { X with extra := X.extra ++ [q] ++ [p] } [name]
      (fun ρ => den τ ρ inner ^ k * KStar.kstar (den τ ρ inner)) fun ρ => ρ name := by
  subst hq hp
  -- `name` is reserved first, so that the loop is minted between its reservation and its use
  let d₀ : Desugar := { d with used := d.used ++ [p.name] }
  have hloop : Yielded τ U d₀ { X with extra := X.extra ++ [q] } [q.name]
      (fun ρ => KStar.kstar (den τ ρ inner)) fun ρ => ρ q.name := by
    refine Yielded.pushLoop X q (fun n hm => List.mem_append_left _ (hU hm)) he ?_ hl ?_ hi hr hqa
    · exact List.append_subset.mpr ⟨hu, by simpa using hn⟩
    · simpa [d₀] using ⟨hld, hne⟩
  have hinner : Yielded τ U d₀ d₀ inner.refs (den τ · inner) (den τ · inner) :=
    Yielded.refl (local_den hr) hr
  have hbody : Yielded τ U d₀ { X with extra := X.extra ++ [q] } (inner.refs ++ [q.name])
      (fun ρ => den τ ρ inner ^ k * KStar.kstar (den τ ρ inner)) fun ρ => altsDen τ ρ p.alts := by
    have h := hinner.map₂ (fun a b => a ^ k * b)
      (fun _ _ h _ _ h' => mul_le_mul' (pow_le_pow_left' h k) h') hloop
    simpa [hpa, Cf.seq_replicate, Element.reference] using h
  refine Yielded.push d₀ p hU hbody rfl (List.subset_append_left _ _)
    (List.mem_append_right _ (List.mem_singleton_self _)) hnd ?_ ?_
  · simp only [SimpleAlts, hpa, List.mem_singleton, forall_eq, List.mem_append]
    rintro el (h | rfl)
    · rwa [List.eq_of_mem_replicate h]
    · rfl
  · intro n
    rw [hpa, mem_refsInAlts]
    simp only [List.mem_singleton, exists_eq_left, mem_refsIn, List.mem_append]
    rintro ⟨el, h | rfl, hn⟩
    · rw [List.eq_of_mem_replicate h] at hn
      exact Or.inl hn
    · exact Or.inr (by simpa [Element.reference, Element.refs] using hn)

theorem freshName_mem (d : Desugar) (hint : String) :
    (d.freshName hint).1 ∈ (d.freshName hint).2.used :=
  List.mem_append_right _ (List.mem_singleton_self _)

theorem freshName_used (d : Desugar) (hint : String) : d.used ⊆ (d.freshName hint).2.used :=
  List.subset_append_left _ _

theorem plus_spec (e : Element) (sp : Option SrcSpan) (hU : U ⊆ d.used)
    (hi : inner.isSimple = true) (hr : inner.refs ⊆ U) :
    HelperFor τ U d (fun ρ => den τ ρ inner * KStar.kstar (den τ ρ inner))
      (d.sugar (.plus e sp) inner) := by
  let tail := d.freshName ("star_" ++ hintOf inner)
  let plus := tail.2.freshName ("plus_" ++ hintOf inner)
  let q : Production := { Production.helper tail.1 [[inner, .reference tail.1], []] d.origin with
    repeatHelper := true, repeatLoop := true }
  let p : Production := Production.helper plus.1 [[inner, .reference tail.1]] d.origin
  have hplus : plus.1 ∉ tail.2.used := freshName_notMem _ _
  have h := yielded_counted (τ := τ) (X := plus.2) 1 q p hU rfl
    (fun _ hn => freshName_used _ _ (freshName_used _ _ hn))
    (freshName_used _ _ (freshName_mem d _)) (freshName_mem _ _) (freshName_notMem d _)
    (fun hn => hplus (freshName_used _ _ hn)) (fun h => hplus (h ▸ freshName_mem d _)) hi hr rfl rfl
    rfl rfl
  simp only [pow_one] at h
  exact ⟨plus.1, rfl, h⟩

theorem rep_none_spec (min : Nat) (e : Element) (sp : Option SrcSpan) (hU : U ⊆ d.used)
    (hi : inner.isSimple = true) (hr : inner.refs ⊆ U) :
    HelperFor τ U d (fun ρ => den τ ρ inner ^ min * KStar.kstar (den τ ρ inner))
      (d.sugar (.rep min none e sp) inner) := by
  let rep := d.freshName ("rep_" ++ hintOf inner)
  let tail := rep.2.freshName ("star_" ++ hintOf inner)
  let q : Production := { Production.helper tail.1 [[inner, .reference tail.1], []] d.origin with
    repeatHelper := true, repeatLoop := true }
  let p : Production :=
    Production.helper rep.1 [List.replicate min inner ++ [.reference tail.1]] d.origin
  have htail : tail.1 ∉ rep.2.used := freshName_notMem _ _
  exact ⟨rep.1, rfl, yielded_counted (X := tail.2) min q p hU rfl
    (fun _ hn => freshName_used _ _ (freshName_used _ _ hn)) (freshName_mem _ _)
    (freshName_used _ _ (freshName_mem d _)) (fun hn => htail (freshName_used _ _ hn))
    (freshName_notMem d _) (fun h => htail (h ▸ freshName_mem d _)) hi hr rfl rfl rfl rfl⟩

/-- One round of `nestOptionals`: the group helper, then the optional around it. -/
def nestStep (inner : Element) (nested : Option Element) (d : Desugar) : Element × Desugar :=
  let group := d.freshName "group"
  let d := (group.2.helper group.1 [inner :: nested.toList] false).2
  let opt := d.freshName ("opt_" ++ group.1)
  opt.2.helper opt.1 [[.reference group.1], []] true

theorem nestOptionals_succ (n : Nat) (nested : Option Element) (d : Desugar) :
    nestOptionals inner (n + 1) nested d =
      nestOptionals inner n (some (nestStep inner nested d).1) (nestStep inner nested d).2 := by
  cases nested <;> rfl

theorem nestStep_spec {nested : Option Element} (hi : inner.isSimple = true) (hU : U ⊆ d.used)
    (hr : inner.refs ⊆ U) (hn : refsIn nested.toList ⊆ U)
    (hs : ∀ el ∈ nested, el.isSimple = true) :
    HelperFor τ U d (fun ρ => 1 + den τ ρ inner * Cf.seq (den τ ρ) nested.toList)
      (nestStep inner nested d) := by
  have hgroup := yielded_helper (τ := τ) "group" [inner :: nested.toList] false hU
    (by simpa [refsInAlts, refsIn] using ⟨hr, hn⟩) (by simpa [SimpleAlts, hi] using hs)
  have hopt := hgroup.map (1 + ·) fun _ _ h => add_le_add (le_refl _) h
  simp only [altsDen_cons, altsDen_nil, Cf.seq_cons, add_zero] at hopt
  refine ⟨_, rfl, Yielded.trans hU hopt fun S hS hg => ?_⟩
  have hf : (fun ρ : Env T => 1 + ρ (d.freshName "group").1) =
      fun ρ => altsDen τ ρ [[.reference (d.freshName "group").1], []] := by
    funext ρ
    simp [Element.reference, add_comm]
  rw [hf]
  exact yielded_helper _ _ true hS
    (by simpa [refsInAlts, refsIn, Element.reference, Element.refs] using hg) (by simp [SimpleAlts])

theorem nestOptionals_simple :
    ∀ (n : Nat) (nested : Option Element) (d : Desugar), (∀ el ∈ nested, el.isSimple = true) →
      ∀ el ∈ (nestOptionals inner n nested d).1, el.isSimple = true
  | 0, _, _, hs => hs
  | n + 1, nested, d, _ => by
    rw [nestOptionals_succ]
    exact nestOptionals_simple n _ _ fun el hel => by cases hel; rfl

/-- The nested optionals, on top of the ones already built. -/
theorem nestOptionals_spec (hi : inner.isSimple = true) :
    ∀ (n : Nat) (nested : Option Element) {U : List String} {d : Desugar}, U ⊆ d.used →
      inner.refs ⊆ U → refsIn nested.toList ⊆ U → (∀ el ∈ nested, el.isSimple = true) →
      Yielded τ U d (nestOptionals inner n nested d).2
        (refsIn (nestOptionals inner n nested d).1.toList)
        (fun ρ => nest (den τ ρ inner) n (Cf.seq (den τ ρ) nested.toList))
        (fun ρ => Cf.seq (den τ ρ) (nestOptionals inner n nested d).1.toList)
  | 0, nested, U, d, _, _, hn, _ =>
    Yielded.refl (fun _ _ h => seqDen_congr fun m hm => h m (hn hm)) hn
  | n + 1, nested, U, d, hU, hr, hn, hs => by
    obtain ⟨name, href, hstep⟩ := nestStep_spec (τ := τ) hi hU hr hn hs
    have hinner : Yielded τ U d d inner.refs (den τ · inner) (den τ · inner) :=
      Yielded.refl (local_den hr) hr
    have hround := hinner.map₂ (fun a b => nest a n b) (fun _ _ h _ _ h' => nest_mono h n h') hstep
    rw [nestOptionals_succ]
    refine Yielded.trans hU hround fun S hS hR => ?_
    have hrS : inner.refs ⊆ S := fun m hm => hR (List.mem_append_left _ hm)
    have hnS : refsIn (some (nestStep inner nested d).1).toList ⊆ S := by
      intro m hm
      rw [href] at hm
      exact hR (List.mem_append_right _ (by
        simpa [refsIn, Element.reference, Element.refs] using hm))
    have hrest := nestOptionals_spec hi n (some (nestStep inner nested d).1) hS hrS hnS
      fun el hel => by cases hel; rfl
    simpa [href, Element.reference] using hrest

theorem rep_some_spec {min max : Nat} (e : Element) (sp : Option SrcSpan) (hU : U ⊆ d.used)
    (hi : inner.isSimple = true) (hr : inner.refs ⊆ U) :
    HelperFor τ U d (fun ρ => den τ ρ inner ^ min * nest (den τ ρ inner) (max - min) 1)
      (d.sugar (.rep min (some max) e sp) inner) := by
  let rep := d.freshName ("rep_" ++ hintOf inner)
  let nested := nestOptionals inner (max - min) none rep.2
  let p := Production.helper rep.1 [List.replicate min inner ++ nested.1.toList] nested.2.origin
  have hnested := nestOptionals_spec (τ := τ) hi (max - min) none (d := rep.2)
    (fun n hn => freshName_used _ _ (hU hn)) hr (List.nil_subset _) (by simp)
  have hinner : Yielded τ U rep.2 rep.2 inner.refs (den τ · inner) (den τ · inner) :=
    Yielded.refl (local_den hr) hr
  have hmul := hinner.map₂ (fun a b => a ^ min * b)
    (fun _ _ h _ _ h' => mul_le_mul' (pow_le_pow_left' h min) h') hnested
  have hbody : Yielded τ U rep.2 nested.2 (inner.refs ++ refsIn nested.1.toList)
      (fun ρ => den τ ρ inner ^ min * nest (den τ ρ inner) (max - min) 1)
      fun ρ => altsDen τ ρ p.alts := by
    simpa [p, Cf.seq_replicate] using hmul
  have hsimple : SimpleAlts p.alts := by
    simp only [p, SimpleAlts, Production.helper_alts, List.mem_singleton, forall_eq,
      List.mem_append]
    rintro el (h | h)
    · rwa [List.eq_of_mem_replicate h]
    · exact nestOptionals_simple _ _ _ (by simp) el (Option.mem_toList.mp h)
  have hrefs : refsInAlts p.alts ⊆ inner.refs ++ refsIn nested.1.toList := by
    intro n
    rw [mem_refsInAlts]
    simp only [p, Production.helper_alts, List.mem_singleton, exists_eq_left, mem_refsIn,
      List.mem_append]
    rintro ⟨el, h | h, hn⟩
    · rw [List.eq_of_mem_replicate h] at hn
      exact Or.inl hn
    · exact Or.inr ⟨el, h, hn⟩
  exact ⟨rep.1, rfl, Yielded.push rep.2 p hU hbody rfl (freshName_used _ _) (freshName_mem _ _)
    (freshName_notMem _ _) hsimple hrefs⟩

/-! ## Elements, sequences, alternatives -/

/-- A run that returns something simple in `R`'s place: what it is, and what it denotes. -/
theorem sugar_spec (el : Element) (op : Language T → Language T) {e : Element} {d₁ : Desugar}
    (hop : Monotone op) (hU : U ⊆ d.used)
    (he : Yielded τ U d d₁ inner.refs (den τ · e) (den τ · inner))
    (hs : ∀ S, S ⊆ d₁.used → inner.refs ⊆ S →
      HelperFor τ S d₁ (fun ρ => op (den τ ρ inner)) (d₁.sugar el inner)) :
    (d₁.sugar el inner).1.isSimple = true ∧
      Yielded τ U d (d₁.sugar el inner).2 (d₁.sugar el inner).1.refs (fun ρ => op (den τ ρ e))
        (den τ · (d₁.sugar el inner).1) := by
  have hname : ∃ name, (d₁.sugar el inner).1 = .reference name := by
    obtain ⟨ps, hm, hR, _⟩ := he
    obtain ⟨name, h, _⟩ := hs (U ++ namesOf ps)
      (List.append_subset.mpr ⟨fun _ hn => hm.used (hU hn), hm.names⟩) hR
    exact ⟨name, h⟩
  obtain ⟨name, hname⟩ := hname
  refine ⟨by rw [hname]; rfl, Yielded.trans hU (he.map op hop) fun S hS hR => ?_⟩
  obtain ⟨name', h, hy⟩ := hs S hS hR
  simpa [h, Element.reference, Element.refs] using hy

mutual
theorem element_spec : ∀ (el : Element) {U : List String} {d : Desugar}, el.Proper →
    el.refs ⊆ U → U ⊆ d.used →
    ∃ r, element d el = .ok r ∧ r.1.isSimple = true ∧
      Yielded τ U d r.2 r.1.refs (den τ · el) (den τ · r.1)
  | .prose _ _, _, _, hp, _, _ => hp.elim
  | .term .., _, d, _, hr, _ | .ref .., _, d, _, hr, _ | .token .., _, d, _, hr, _
  | .regex .., _, d, _, hr, _ => ⟨(_, d), rfl, rfl, Yielded.refl (local_den hr) hr⟩
  | .opt e sp, _, d, hp, hr, hU => by
    obtain ⟨⟨inner, d₁⟩, he, hs, hy⟩ := element_spec e (d := d) hp hr hU
    have h := sugar_spec (.opt e sp) (1 + ·) (fun _ _ h => add_le_add (le_refl _) h)
      hU hy fun S hS hR => opt_spec e sp hS hs hR
    exact ⟨_, by rw [element, he]; rfl, h.1, by simpa only [den_opt] using h.2⟩
  | .star e guard sp, _, d, hp, hr, hU => by
    obtain ⟨⟨inner, d₁⟩, he, hs, hy⟩ := element_spec e (d := d) hp hr hU
    have h := sugar_spec (.star e guard sp) KStar.kstar kstar_mono hU hy
      fun S hS hR => star_spec e guard sp hS hs hR
    exact ⟨_, by rw [element, he]; rfl, h.1, by simpa only [den_star] using h.2⟩
  | .plus e sp, _, d, hp, hr, hU => by
    obtain ⟨⟨inner, d₁⟩, he, hs, hy⟩ := element_spec e (d := d) hp hr hU
    have h := sugar_spec (.plus e sp) (fun a => a * KStar.kstar a)
      (fun _ _ h => mul_le_mul' h (kstar_mono h)) hU hy fun S hS hR => plus_spec e sp hS hs hR
    exact ⟨_, by rw [element, he]; rfl, h.1, by simpa only [den_plus] using h.2⟩
  | .rep min none e sp, _, d, hp, hr, hU => by
    obtain ⟨⟨inner, d₁⟩, he, hs, hy⟩ := element_spec e (d := d) hp.2 hr hU
    have h := sugar_spec (.rep min none e sp) (fun a => a ^ min * KStar.kstar a)
      (fun _ _ h => mul_le_mul' (pow_le_pow_left' h min) (kstar_mono h)) hU hy
      fun S hS hR => rep_none_spec min e sp hS hs hR
    exact ⟨_, by rw [element, he]; rfl, h.1, by simpa only [den_rep_none] using h.2⟩
  | .rep min (some max) e sp, _, d, hp, hr, hU => by
    obtain ⟨⟨inner, d₁⟩, he, hs, hy⟩ := element_spec e (d := d) hp.2 hr hU
    have h := sugar_spec (.rep min (some max) e sp)
      (fun a => a ^ min * nest a (max - min) 1)
      (fun _ _ h => mul_le_mul' (pow_le_pow_left' h min) (nest_mono h _ (le_refl _))) hU hy
      fun S hS hR => rep_some_spec e sp hS hs hR
    exact ⟨_, by rw [element, he]; rfl, h.1,
      by simpa only [den_rep_some (hp.1 max rfl)] using h.2⟩
  | .group alts sp, _, d, hp, hr, hU => by
    obtain ⟨⟨innerAlts, d₁⟩, he, hs, hy⟩ := altList_spec alts (d := d) hp hr hU
    refine ⟨(d₁.freshName "group").2.helper (d₁.freshName "group").1 innerAlts false,
      by rw [element, he]; rfl, rfl, ?_⟩
    simp only [den_group, helper, Element.reference, den_ref]
    exact Yielded.trans hU hy fun S hS hR => yielded_helper _ _ false hS hR hs

theorem alt_spec : ∀ (α : List Element) {U : List String} {d : Desugar}, ProperSeq α →
    refsIn α ⊆ U → U ⊆ d.used →
    ∃ r, alt d α = .ok r ∧ (∀ el ∈ r.1, el.isSimple = true) ∧
      Yielded τ U d r.2 (refsIn r.1) (fun ρ => Cf.seq (den τ ρ) α)
        (fun ρ => Cf.seq (den τ ρ) r.1)
  | [], _, d, _, hr, _ =>
    ⟨([], d), rfl, fun _ h => absurd h List.not_mem_nil, Yielded.refl (fun _ _ _ => rfl) hr⟩
  | el :: α, _, d, hp, hr, hU => by
    have hr' := List.append_subset.mp hr
    obtain ⟨⟨el', d₁⟩, he, hs, hy⟩ := element_spec el (d := d) hp.1 hr'.1 hU
    have hU₁ : _ ⊆ d₁.used := fun n hn => by
      obtain ⟨ps, hm, _⟩ := hy
      exact hm.used (hU hn)
    obtain ⟨⟨α', d₂⟩, ha, hs', hy'⟩ := alt_spec α (d := d₁) hp.2 hr'.2 hU₁
    refine ⟨(el' :: α', d₂), by rw [alt, he]; simp only [bind, Except.bind, ha]; rfl,
      List.forall_mem_cons.mpr ⟨hs, hs'⟩, ?_⟩
    have h := hy.map₂ (· * ·) (fun _ _ h _ _ h' => mul_le_mul' h h') hy'
    simpa only [Cf.seq_cons, refsIn] using h

theorem altList_spec : ∀ (alts : List (List Element)) {U : List String} {d : Desugar},
    ProperAlts alts → refsInAlts alts ⊆ U → U ⊆ d.used →
    ∃ r, altList d alts = .ok r ∧ SimpleAlts r.1 ∧
      Yielded τ U d r.2 (refsInAlts r.1) (fun ρ => altsDen τ ρ alts)
        (fun ρ => altsDen τ ρ r.1)
  | [], _, d, _, hr, _ =>
    ⟨([], d), rfl, fun _ h => absurd h List.not_mem_nil, Yielded.refl (fun _ _ _ => rfl) hr⟩
  | α :: alts, _, d, hp, hr, hU => by
    have hr' := List.append_subset.mp hr
    obtain ⟨⟨α', d₁⟩, he, hs, hy⟩ := alt_spec α (d := d) hp.1 hr'.1 hU
    have hU₁ : _ ⊆ d₁.used := fun n hn => by
      obtain ⟨ps, hm, _⟩ := hy
      exact hm.used (hU hn)
    obtain ⟨⟨alts', d₂⟩, ha, hs', hy'⟩ := altList_spec alts (d := d₁) hp.2 hr'.2 hU₁
    refine ⟨(α' :: alts', d₂), by rw [altList, he]; simp only [bind, Except.bind, ha]; rfl,
      List.forall_mem_cons.mpr ⟨hs, hs'⟩, ?_⟩
    have h := hy.map₂ (· + ·) (fun _ _ h _ _ h' => add_le_add h h') hy'
    simpa only [altsDen_cons, refsInAlts] using h
end

/-! ## Productions -/

theorem productions_spec : ∀ (G : List Production) {U : List String} {d : Desugar},
    (∀ p ∈ G, ProperAlts p.alts) → (∀ p ∈ G, refsInAlts p.alts ⊆ U) → U ⊆ d.used →
    ∃ r, productions d G = .ok r ∧ namesOf r.1 = namesOf G ∧
      (∀ p ∈ r.1, SimpleAlts p.alts) ∧
      Yielded τ U d r.2 (r.1.flatMap fun p => refsInAlts p.alts) (step τ G) (step τ r.1)
  | [], _, d, _, _, _ =>
    ⟨([], d), rfl, rfl, fun _ h => absurd h List.not_mem_nil,
      Yielded.refl (fun _ _ _ => rfl) (List.nil_subset _)⟩
  | p :: G, U, d, hp, hr, hU => by
    obtain ⟨⟨alts, d₁⟩, he, hs, hy⟩ := altList_spec (τ := τ) p.alts
      (d := { d with origin := p.originOf })
      (hp p List.mem_cons_self) (hr p List.mem_cons_self) hU
    have hU₁ : _ ⊆ d₁.used := fun n hn => by
      obtain ⟨ps, hm, _⟩ := hy
      exact hm.used (hU hn)
    obtain ⟨⟨G', d₂⟩, hG, hn, hs', hy'⟩ := productions_spec G (d := d₁)
      (fun q hq => hp q (List.mem_cons_of_mem _ hq)) (fun q hq => hr q (List.mem_cons_of_mem _ hq))
      hU₁
    have hd : Yielded τ U d d₁ (refsInAlts alts) (fun ρ => altsDen τ ρ p.alts)
        (fun ρ => altsDen τ ρ alts) := by
      obtain ⟨ps, hm, h⟩ := hy
      exact ⟨ps, ⟨hm.extra, hm.used, hm.names, hm.fresh, hm.nodup, hm.holds⟩, h⟩
    have h := hd.map₂ (fun (a : Language T) (b : Env T) n => (if p.name = n then a else 0) + b n)
      (fun _ _ h _ _ h' n => add_le_add (by split <;> [exact h; exact le_refl _]) (h' n)) hy'
    refine ⟨_, by rw [productions, he]; simp only [bind, Except.bind, hG]; rfl, by simpa using hn,
      ?_, ?_⟩
    · intro q hq
      rcases List.mem_cons.mp hq with rfl | hq
      · exact hs
      · exact hs' q hq
    · simpa only [step_cons', List.flatMap_cons, Production.rebuilt_name, Production.rebuilt_alts]
        using h

end

end Desugar

/-- **Desugaring is total and keeps the language.** -/
theorem desugar_correct (G : Grammar) (hnd : G.names.Nodup)
    (hp : ∀ p ∈ G.productions, ProperAlts p.alts)
    (hr : ∀ p ∈ G.productions, refsInAlts p.alts ⊆ G.names) :
    ∃ G', desugar G = .ok G' ∧
      (∀ p ∈ G'.productions, ∀ α ∈ p.alts, ∀ el ∈ α, el.isTerminal = true ∨ el.isRef = true) ∧
      G'.names.Nodup ∧
      ∀ n ∈ G.names, nameLang τ G'.productions n = nameLang τ G.productions n := by
  obtain ⟨⟨rewritten, d⟩, he, hn, hs, ps, hm, _, hex⟩ :=
    Desugar.productions_spec (τ := τ) G.productions (d := ⟨[], G.names, ""⟩) hp hr
      (List.Subset.refl _)
  have hextra : d.extra = ps := by simpa using hm.extra
  refine ⟨{ productions := rewritten ++ d.extra },
    by rw [desugar]; simp only [bind, Except.bind, he]; rfl, ?_, ?_, ?_⟩
  · intro p hp α hα el hel
    rw [← Bool.or_eq_true]
    rcases List.mem_append.mp hp with h | h
    · exact hs p h α hα el hel
    · exact hm.holds p (hextra ▸ h) α hα el hel
  · show (namesOf (rewritten ++ d.extra)).Nodup
    rw [namesOf_append, hn, hextra]
    exact hnd.append hm.nodup fun n hG hps => hm.fresh n hps hG
  · intro n hG
    show nameLang τ (rewritten ++ d.extra) n = _
    rw [hextra]
    exact hex.nameLang_eq (List.Subset.refl _) hG

/-- `s = [ "a" ] *t`, `t = 1*2( "b" / s "c" )`. -/
def sugared : Grammar where
  productions := [
    { name := "s", alts := [[.opt (.lit "a") none, .star (.reference "t") none none]] },
    { name := "t",
      alts := [[.rep 1 (some 2) (.group [[.lit "b"], [.reference "s", .lit "c"]] none) none]] }]

theorem desugar_correct_sugared :
    ∃ G', desugar sugared = .ok G' ∧
      (∀ p ∈ G'.productions, ∀ α ∈ p.alts, ∀ el ∈ α, el.isTerminal = true ∨ el.isRef = true) ∧
      G'.names.Nodup ∧
      ∀ n ∈ sugared.names, nameLang (fun el => {[el.kindName]}) G'.productions n =
        nameLang (fun el => {[el.kindName]}) sugared.productions n := by
  refine desugar_correct sugared (by decide) ?_ ?_
  · simp [sugared, ProperAlts, ProperSeq, Element.Proper, Element.lit, Element.reference]
  · decide

end TabnasBnf
