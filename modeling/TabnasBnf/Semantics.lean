import TabnasBnf.Ir
import TabnasBnf.Lib.Cf

/-!
# What a grammar derives

The language an IR grammar describes, by context-free derivation over its elements. A reference
may be replaced by an alternative of a production of that name, and each kind of sugar by what
it abbreviates: `[X]` by nothing or `X`, `*X`, `1*X` and `m*nX` by so many copies of `X`, a group
by one of its alternatives (`Rule`). What a terminal stands for is the parameter `τ`, so every
result about a pass holds whatever its terminals match. A reference that names no production, a
production without alternatives and a prose element derive nothing.

* `lang τ G` is the language of an element, `nameLang τ G` of a name.
* `den τ ρ` is the language of an element when the names stand for the languages `ρ`
  (`lang_eq_den`), computed kind by kind (`den_opt`, `den_star`, …).
* **`nameLang_le`**: `nameLang` is the least solution of the grammar's equations
  (`Solves`), the rule every pass is proved with.
-/

namespace TabnasBnf

variable {T : Type*}

/-- The rules of the sugar: what each kind of element abbreviates. -/
inductive Sugar : Element → List Element → Prop
  | optNone {e sp} : Sugar (.opt e sp) []
  | optSome {e sp} : Sugar (.opt e sp) [e]
  | star {e guard sp} (k : Nat) : Sugar (.star e guard sp) (List.replicate k e)
  | plus {e sp} (k : Nat) : Sugar (.plus e sp) (List.replicate (k + 1) e)
  | rep {min max e sp} {k : Nat} (hmin : min ≤ k) (hmax : ∀ m, max = some m → k ≤ m) :
      Sugar (.rep min max e sp) (List.replicate k e)
  | group {alts alt sp} (ha : alt ∈ alts) : Sugar (.group alts sp) alt

/-- The rules of a grammar: the sugar's, and a reference's alternatives. -/
inductive Rule (G : List Production) : Element → List Element → Prop
  | sugar {e β} (h : Sugar e β) : Rule G e β
  | ref {p alt debt sp} (hp : p ∈ G) (ha : alt ∈ p.alts) : Rule G (.ref p.name debt sp) alt

/-- Terminals stand for `τ`, names for `ρ`; nothing else stands for itself. -/
def leaf (τ : Element → Language T) (ρ : String → Language T) : Element → Language T
  | .ref name _ _ => ρ name
  | .opt .. | .star .. | .plus .. | .rep .. | .group .. | .prose .. => 0
  | el => τ el

/-- The language of an element when names stand for the languages `ρ`. -/
def den (τ : Element → Language T) (ρ : String → Language T) : Element → Language T :=
  Cf.lang Sugar (leaf τ ρ)

/-- The language of an element in the grammar `G`. -/
def lang (τ : Element → Language T) (G : List Production) : Element → Language T :=
  Cf.lang (Rule G) (leaf τ fun _ => 0)

/-- The language of a name in the grammar `G`. -/
def nameLang (τ : Element → Language T) (G : List Production) (n : String) : Language T :=
  {w | ∃ p ∈ G, p.name = n ∧ ∃ alt ∈ p.alts, w ∈ Cf.seq (lang τ G) alt}

variable {τ : Element → Language T} {ρ ρ' : String → Language T} {G G' : List Production}

/-! ## The kinds of element -/

@[simp] theorem den_ref (n : String) (debt : Option (List (String × Int)))
    (sp : Option SrcSpan) : den τ ρ (.ref n debt sp) = ρ n :=
  Cf.lang_of_no_rule fun _ h => by cases h

theorem den_terminal {el : Element} (h : el.isTerminal = true) : den τ ρ el = τ el := by
  have hrule : ∀ β, ¬ Sugar el β := by
    intro β hβ
    cases hβ <;> simp [Element.isTerminal] at h
  rw [den, Cf.lang_of_no_rule hrule]
  cases el <;> first | rfl | simp [Element.isTerminal] at h

@[simp] theorem den_prose (text : String) (sp : Option SrcSpan) :
    den τ ρ (.prose text sp) = 0 := Cf.lang_of_no_rule fun _ h => by cases h

theorem mem_den {e : Element} (h : leaf τ ρ e = 0) {w : List T} :
    w ∈ den τ ρ e ↔ ∃ β, Sugar e β ∧ w ∈ Cf.seq (den τ ρ) β := Cf.mem_lang_of_no_leaf h

@[simp] theorem den_opt (e : Element) (sp : Option SrcSpan) :
    den τ ρ (.opt e sp) = 1 + den τ ρ e := by
  ext w
  rw [mem_den rfl, Language.mem_add, Language.mem_one]
  constructor
  · rintro ⟨β, hβ, hw⟩
    cases hβ with
    | optNone => left; simpa using hw
    | optSome => right; rwa [Cf.seq_singleton] at hw
  · rintro (rfl | hw)
    · exact ⟨_, .optNone, by simp⟩
    · exact ⟨_, .optSome, by rwa [Cf.seq_singleton]⟩

@[simp] theorem den_star (e : Element) (guard : Option String) (sp : Option SrcSpan) :
    den τ ρ (.star e guard sp) = KStar.kstar (den τ ρ e) := by
  ext w
  rw [mem_den rfl, Cf.mem_kstar_iff_pow]
  constructor
  · rintro ⟨β, hβ, hw⟩
    cases hβ with
    | star k => exact ⟨k, by rwa [Cf.seq_replicate] at hw⟩
  · rintro ⟨k, hw⟩
    exact ⟨_, .star k, by rwa [Cf.seq_replicate]⟩

theorem mem_den_rep {min : Nat} {max : Option Nat} {e : Element} {sp : Option SrcSpan}
    {w : List T} : w ∈ den τ ρ (.rep min max e sp) ↔
      ∃ k, min ≤ k ∧ (∀ m, max = some m → k ≤ m) ∧ w ∈ den τ ρ e ^ k := by
  rw [mem_den rfl]
  constructor
  · rintro ⟨β, hβ, hw⟩
    cases hβ with
    | rep hmin hmax => exact ⟨_, hmin, hmax, by rwa [Cf.seq_replicate] at hw⟩
  · rintro ⟨k, hmin, hmax, hw⟩
    exact ⟨_, .rep hmin hmax, by rwa [Cf.seq_replicate]⟩

@[simp] theorem den_plus (e : Element) (sp : Option SrcSpan) :
    den τ ρ (.plus e sp) = den τ ρ e * KStar.kstar (den τ ρ e) := by
  ext w
  rw [mem_den rfl, Language.mem_mul]
  constructor
  · rintro ⟨β, hβ, hw⟩
    cases hβ with
    | plus k =>
      rw [Cf.seq_replicate, pow_succ', Language.mem_mul] at hw
      obtain ⟨u, hu, v, hv, rfl⟩ := hw
      exact ⟨u, hu, v, Cf.mem_kstar_iff_pow _ |>.mpr ⟨k, hv⟩, rfl⟩
  · rintro ⟨u, hu, v, hv, rfl⟩
    obtain ⟨k, hv⟩ := Cf.mem_kstar_iff_pow _ |>.mp hv
    refine ⟨_, .plus k, ?_⟩
    rw [Cf.seq_replicate, pow_succ']
    exact Language.append_mem_mul hu hv

theorem den_rep_none (min : Nat) (e : Element) (sp : Option SrcSpan) :
    den τ ρ (.rep min none e sp) = den τ ρ e ^ min * KStar.kstar (den τ ρ e) := by
  ext w
  rw [mem_den_rep, Language.mem_mul]
  constructor
  · rintro ⟨k, hk, -, hw⟩
    obtain ⟨j, rfl⟩ := Nat.exists_eq_add_of_le hk
    rw [pow_add, Language.mem_mul] at hw
    obtain ⟨u, hu, v, hv, rfl⟩ := hw
    exact ⟨u, hu, v, (Cf.mem_kstar_iff_pow _).mpr ⟨j, hv⟩, rfl⟩
  · rintro ⟨u, hu, v, hv, rfl⟩
    obtain ⟨j, hj⟩ := (Cf.mem_kstar_iff_pow _).mp hv
    refine ⟨min + j, by omega, by simp, ?_⟩
    rw [pow_add]
    exact Language.append_mem_mul hu hj

theorem mem_den_group {alts : List Sequence} {sp : Option SrcSpan} {w : List T} :
    w ∈ den τ ρ (.group alts sp) ↔ ∃ alt ∈ alts, w ∈ Cf.seq (den τ ρ) alt := by
  rw [mem_den rfl]
  constructor
  · rintro ⟨β, hβ, hw⟩
    cases hβ with
    | group ha => exact ⟨β, ha, hw⟩
  · rintro ⟨alt, ha, hw⟩
    exact ⟨alt, .group ha, hw⟩

/-- What a list of alternatives derives: their union. -/
def altsDen (τ : Element → Language T) (ρ : String → Language T) (alts : List Sequence) :
    Language T := (alts.map (Cf.seq (den τ ρ))).sum

@[simp] theorem altsDen_nil : altsDen τ ρ [] = 0 := rfl

@[simp] theorem altsDen_cons (α : Sequence) (alts : List Sequence) :
    altsDen τ ρ (α :: alts) = Cf.seq (den τ ρ) α + altsDen τ ρ alts := List.sum_cons

@[simp] theorem altsDen_append (as bs : List Sequence) :
    altsDen τ ρ (as ++ bs) = altsDen τ ρ as + altsDen τ ρ bs := by
  unfold altsDen
  rw [List.map_append, List.sum_append]

theorem mem_altsDen {alts : List Sequence} {w : List T} :
    w ∈ altsDen τ ρ alts ↔ ∃ α ∈ alts, w ∈ Cf.seq (den τ ρ) α := by
  induction alts with
  | nil => simp [Language.notMem_zero]
  | cons α alts ih => simp [Language.mem_add, ih]

@[simp] theorem den_group (alts : List Sequence) (sp : Option SrcSpan) :
    den τ ρ (.group alts sp) = altsDen τ ρ alts := by
  ext w
  rw [mem_den_group, mem_altsDen]

/-! ## Equations and their least solution -/

theorem nameLang_of_mem {p : Production} (hp : p ∈ G) {alt : Sequence} (ha : alt ∈ p.alts) :
    Cf.seq (lang τ G) alt ≤ nameLang τ G p.name := fun _ hw => ⟨p, hp, rfl, alt, ha, hw⟩

theorem lang_ref (n : String) (debt : Option (List (String × Int))) (sp : Option SrcSpan) :
    lang τ G (.ref n debt sp) = nameLang τ G n := by
  ext w
  rw [lang, Cf.mem_lang_of_no_leaf (show leaf τ (fun _ => 0) (.ref n debt sp) = 0 from rfl)]
  constructor
  · rintro ⟨β, hβ, hw⟩
    cases hβ with
    | sugar h => cases h
    | ref hp ha => exact ⟨_, hp, rfl, β, ha, hw⟩
  · rintro ⟨p, hp, rfl, alt, ha, hw⟩
    exact ⟨alt, .ref hp ha, hw⟩

theorem leaf_of_not_ref {s : Element} (h : s.refName = none) : leaf τ ρ s = leaf τ ρ' s := by
  cases s <;> first | rfl | simp [Element.refName] at h

theorem leaf_zero_le (s : Element) : leaf τ (fun _ => 0) s ≤ leaf τ ρ s := by
  cases s <;> first | exact le_refl _ | exact fun _ h => absurd h (Language.notMem_zero _)

/-- **The language of an element is its denotation over the languages of the names.** -/
theorem lang_eq_den (e : Element) : lang τ G e = den τ (nameLang τ G) e := by
  have hle : ∀ e, den τ (nameLang τ G) e ≤ lang τ G e := by
    refine Cf.lang_le (fun s => ?_) (fun s β h => Cf.rule_le_lang (.sugar h))
    cases hs : s.refName with
    | none => exact (leaf_of_not_ref hs).le.trans (Cf.leaf_le_lang s)
    | some n =>
      obtain ⟨debt, sp, rfl⟩ := Element.refName_eq_some.mp hs
      exact (lang_ref n debt sp).ge
  refine le_antisymm (Cf.lang_le (fun s => ?_) (fun s β h => ?_) e) (hle e)
  · exact (leaf_zero_le s).trans (Cf.leaf_le_lang s)
  · cases h with
    | sugar h => exact Cf.rule_le_lang h
    | ref hp ha =>
      rw [den_ref]
      exact (Cf.seq_mono fun s _ => hle s).trans (nameLang_of_mem hp ha)

/-- `ρ` contains what every alternative of `G` denotes over `ρ`. -/
def Solves (τ : Element → Language T) (G : List Production) (ρ : String → Language T) : Prop :=
  ∀ p ∈ G, altsDen τ ρ p.alts ≤ ρ p.name

theorem lang_eq_den' : lang τ G = den τ (nameLang τ G) := funext lang_eq_den

theorem mem_nameLang {n : String} {w : List T} : w ∈ nameLang τ G n ↔
    ∃ p ∈ G, p.name = n ∧ ∃ alt ∈ p.alts, w ∈ Cf.seq (den τ (nameLang τ G)) alt := by
  rw [← lang_eq_den']
  exact Iff.rfl

theorem mem_nameLang_iff_alts {n : String} {w : List T} : w ∈ nameLang τ G n ↔
    ∃ p ∈ G, p.name = n ∧ w ∈ altsDen τ (nameLang τ G) p.alts := by
  rw [mem_nameLang]
  simp only [mem_altsDen]

theorem nameLang_of_notMem {n : String} (h : n ∉ namesOf G) : nameLang τ G n = 0 := by
  ext w
  refine iff_of_false (fun hw => ?_) (Language.notMem_zero w)
  obtain ⟨p, hp, hn, _⟩ := mem_nameLang.mp hw
  exact h (mem_namesOf.mpr ⟨p, hp, hn⟩)

theorem solves_nameLang : Solves τ G (nameLang τ G) := fun _ hp _ hw =>
  mem_nameLang_iff_alts.mpr ⟨_, hp, rfl, hw⟩

/-- **The names' languages are the least solution of the grammar's equations.** -/
theorem nameLang_le (h : Solves τ G ρ) (n : String) : nameLang τ G n ≤ ρ n := by
  have key : ∀ e, lang τ G e ≤ den τ ρ e := by
    refine Cf.lang_le (fun s => ?_) (fun s β hr => ?_)
    · exact (leaf_zero_le s).trans (Cf.leaf_le_lang s)
    · cases hr with
      | sugar hs => exact Cf.rule_le_lang hs
      | ref hp ha =>
        rw [den_ref]
        exact fun w hw => h _ hp (mem_altsDen.mpr ⟨_, ha, hw⟩)
  have := key (.ref n none none)
  rwa [lang_ref, den_ref] at this

/-- Two grammars whose least solutions solve each other's equations derive the same words. -/
theorem nameLang_eq (h : Solves τ G (nameLang τ G')) (h' : Solves τ G' (nameLang τ G))
    (n : String) : nameLang τ G n = nameLang τ G' n :=
  le_antisymm (nameLang_le h n) (nameLang_le h' n)

/-! ## What a denotation depends on -/

theorem refs_of_sugar {e : Element} {β : List Element} (h : Sugar e β) {x : Element}
    (hx : x ∈ β) : x.refs ⊆ e.refs := by
  intro n hn
  cases h with
  | optNone => exact absurd hx List.not_mem_nil
  | optSome => rw [List.mem_singleton] at hx; subst hx; simpa [Element.refs] using hn
  | star k => rw [List.eq_of_mem_replicate hx] at hn; simpa [Element.refs] using hn
  | plus k => rw [List.eq_of_mem_replicate hx] at hn; simpa [Element.refs] using hn
  | rep _ _ => rw [List.eq_of_mem_replicate hx] at hn; simpa [Element.refs] using hn
  | group ha =>
    simp only [Element.refs]
    exact mem_refsInAlts.mpr ⟨_, ha, mem_refsIn.mpr ⟨x, hx, hn⟩⟩

/-- A denotation is monotone in the languages of the names it refers to. -/
theorem den_mono {e : Element} (h : ∀ n ∈ e.refs, ρ n ≤ ρ' n) : den τ ρ e ≤ den τ ρ' e := by
  have key : ∀ s, den τ ρ s ≤ {w | (∀ n ∈ s.refs, ρ n ≤ ρ' n) → w ∈ den τ ρ' s} := by
    refine Cf.lang_le (fun s w hw hs => ?_) (fun s β hr w hw hs => ?_)
    · refine Cf.leaf_le_lang s ?_
      cases hr : s.refName with
      | none => rwa [leaf_of_not_ref hr] at hw
      | some n =>
        obtain ⟨debt, sp, rfl⟩ := Element.refName_eq_some.mp hr
        exact hs n (by simp [Element.refs]) hw
    · refine Cf.rule_le_lang hr (Cf.seq_mono (fun x hx w hw => ?_) hw)
      exact hw fun n hn => hs n (refs_of_sugar hr hx hn)
  exact fun w hw => key e hw h

theorem den_congr {e : Element} (h : ∀ n ∈ e.refs, ρ n = ρ' n) : den τ ρ e = den τ ρ' e :=
  le_antisymm (den_mono fun n hn => (h n hn).le) (den_mono fun n hn => (h n hn).ge)

theorem seqDen_mono {α : Sequence} (h : ∀ n ∈ refsIn α, ρ n ≤ ρ' n) :
    Cf.seq (den τ ρ) α ≤ Cf.seq (den τ ρ') α :=
  Cf.seq_mono fun _ he => den_mono fun n hn => h n (mem_refsIn.mpr ⟨_, he, hn⟩)

theorem seqDen_congr {α : Sequence} (h : ∀ n ∈ refsIn α, ρ n = ρ' n) :
    Cf.seq (den τ ρ) α = Cf.seq (den τ ρ') α :=
  Cf.seq_congr fun _ he => den_congr fun n hn => h n (mem_refsIn.mpr ⟨_, he, hn⟩)

theorem altsDen_mono {alts : List Sequence} (h : ∀ n ∈ refsInAlts alts, ρ n ≤ ρ' n) :
    altsDen τ ρ alts ≤ altsDen τ ρ' alts := by
  intro w hw
  obtain ⟨α, hα, hw⟩ := mem_altsDen.mp hw
  exact mem_altsDen.mpr ⟨α, hα, seqDen_mono (fun n hn => h n (mem_refsInAlts.mpr ⟨α, hα, hn⟩)) hw⟩

theorem altsDen_congr {alts : List Sequence} (h : ∀ n ∈ refsInAlts alts, ρ n = ρ' n) :
    altsDen τ ρ alts = altsDen τ ρ' alts :=
  le_antisymm (altsDen_mono fun n hn => (h n hn).le) (altsDen_mono fun n hn => (h n hn).ge)

/-! ## A grammar as an operator on the languages of its names -/

/-- What the productions of each name derive over `ρ`. -/
def step (τ : Element → Language T) (G : List Production) (ρ : String → Language T)
    (n : String) : Language T := ((G.filter (·.name == n)).map (altsDen τ ρ ·.alts)).sum

theorem step_nil (n : String) : step τ [] ρ n = 0 := rfl

theorem step_cons (p : Production) (n : String) : step τ (p :: G) ρ n =
    (if p.name = n then altsDen τ ρ p.alts else 0) + step τ G ρ n := by
  unfold step
  by_cases h : p.name = n <;> simp [h]

theorem step_cons' (p : Production) : step τ (p :: G) = fun ρ n =>
    (if p.name = n then altsDen τ ρ p.alts else 0) + step τ G ρ n :=
  funext fun _ => funext fun n => step_cons p n

theorem mem_step {n : String} {w : List T} :
    w ∈ step τ G ρ n ↔ ∃ p ∈ G, p.name = n ∧ w ∈ altsDen τ ρ p.alts := by
  induction G with
  | nil => simp [step_nil, Language.notMem_zero]
  | cons p G ih =>
    rw [step_cons, Language.mem_add, ih]
    by_cases h : p.name = n
    · simp [h]
    · simp [h, Language.notMem_zero]

theorem solves_iff_step_le : Solves τ G ρ ↔ ∀ n, step τ G ρ n ≤ ρ n := by
  constructor
  · intro h n w hw
    obtain ⟨p, hp, rfl, hp'⟩ := mem_step.mp hw
    exact h p hp hp'
  · intro h p hp w hw
    exact h p.name (mem_step.mpr ⟨p, hp, rfl, hw⟩)

theorem nameLang_eq_step (n : String) : nameLang τ G n = step τ G (nameLang τ G) n := by
  ext w
  rw [mem_nameLang_iff_alts, mem_step]

theorem solves_append : Solves τ (G ++ G') ρ ↔ Solves τ G ρ ∧ Solves τ G' ρ := by
  unfold Solves
  simp only [List.mem_append]
  exact ⟨fun h => ⟨fun p hp => h p (Or.inl hp), fun p hp => h p (Or.inr hp)⟩,
    fun h p hp => hp.elim (h.1 p) (h.2 p)⟩

/-- Whether `ρ` solves `G` depends on `G`'s names and references alone. -/
theorem solves_congr (h : ∀ p ∈ G, ρ p.name = ρ' p.name)
    (hr : ∀ p ∈ G, ∀ n ∈ refsInAlts p.alts, ρ n = ρ' n) : Solves τ G ρ ↔ Solves τ G ρ' := by
  unfold Solves
  refine forall₂_congr fun p hp => ?_
  rw [h p hp, altsDen_congr (hr p hp)]

end TabnasBnf
