import Mathlib.Logic.Relation
import TabnasBnf.Lib.Cf

/-!
# Left corners of context-free derivations

Sentential forms over a rule relation `R : S → List S → Prop`, rewritten one symbol at a time,
and the symbols they can come to begin with.

* `Derives R α β`: the form `α` rewrites to `β`; `derives_nil_iff` reads the empty form off the
  big-step derivation, erasing the symbols that stand for the empty word.
* `LeftReaches R s t`: `s` derives, in one step or more, a form `γ t δ` whose `γ` derives the
  empty form.
* **`leftReaches_iff`**: that is a path of left corners (`Corner`), each a single rule.
* `derives_occurrences`: **the induction rule** for what a derivation keeps of every occurrence of a
  symbol and of what stands behind it.
* `exists_first_return`, `transGen_or_through`: the cycles of a relation that is given more steps
  out of one point.
-/

namespace Cf

open Relation

variable {S T : Type*} (R : S → List S → Prop)

/-- One symbol of a sentential form replaced by the right-hand side of a rule. -/
inductive Rewrite : List S → List S → Prop
  | mk {s : S} {β : List S} (u v : List S) (h : R s β) : Rewrite (u ++ s :: v) (u ++ β ++ v)

/-- A sentential form rewrites to another. -/
def Derives : List S → List S → Prop := ReflTransGen (Rewrite R)

/-- The symbol derives a form in which the other stands behind what derives nothing. -/
def LeftReaches (s t : S) : Prop :=
  ∃ γ δ, TransGen (Rewrite R) [s] (γ ++ t :: δ) ∧ Derives R γ []

/-- A rule of the symbol has the other behind what derives nothing. -/
def Corner (s t : S) : Prop := ∃ u v, R s (u ++ t :: v) ∧ Derives R u []

/-- The rules, and the erasure of the symbols that stand for the empty word. -/
def Erasing (τ : S → Language T) (s : S) (β : List S) : Prop := R s β ∨ β = [] ∧ [] ∈ τ s

variable {R}

theorem Rewrite.context {α β : List S} (h : Rewrite R α β) (u v : List S) :
    Rewrite R (u ++ α ++ v) (u ++ β ++ v) := by
  cases h with
  | mk u' v' h => simpa using Rewrite.mk (u ++ u') (v' ++ v) h

theorem Derives.context {α β : List S} (h : Derives R α β) (u v : List S) :
    Derives R (u ++ α ++ v) (u ++ β ++ v) :=
  ReflTransGen.lift (fun α => u ++ α ++ v) (fun _ _ h => h.context u v) _ _ h

theorem derives_append {α α' β β' : List S} (hα : Derives R α α') (hβ : Derives R β β') :
    Derives R (α ++ β) (α' ++ β') := by
  have h : Derives R (α ++ β) (α' ++ β) := by simpa using hα.context [] β
  have h' : Derives R (α' ++ β) (α' ++ β') := by simpa using hβ.context α' []
  exact h.trans h'

/-- Languages closed under the rules: what a form derives, derives no more than the form. -/
theorem seq_le_of_derives {L : S → Language T} (hR : ∀ s β, R s β → seq L β ≤ L s)
    {α β : List S} (h : Derives R α β) : seq L β ≤ seq L α := by
  induction h with
  | refl => exact le_refl _
  | tail _ hstep ih =>
    refine le_trans ?_ ih
    cases hstep with
    | @mk s γ u v hs =>
      rw [seq_append, seq_append, seq_append, seq_cons, mul_assoc]
      exact mul_le_mul' (le_refl _) (mul_le_mul' (hR s γ hs) (le_refl _))

theorem derives_append_nil {α β : List S} (hα : Derives R α []) (hβ : Derives R β []) :
    Derives R (α ++ β) [] := by
  have h : Derives R (α ++ β) β := by simpa using hα.context [] β
  exact h.trans hβ

/-! ## What stands behind a symbol -/

/-- Something holds of every symbol of a form and of what stands behind it. -/
def Occurrences (P : S → List S → Prop) (α : List S) : Prop := ∀ u s v, α = u ++ s :: v → P s v

/-- A symbol of two forms one behind the other stands in the one or in the other. -/
theorem split_append {α β u v : List S} {s : S} (h : α ++ β = u ++ s :: v) :
    (∃ w, α = u ++ s :: w ∧ v = w ++ β) ∨ ∃ w, β = w ++ s :: v := by
  rcases List.append_eq_append_iff.mp h with ⟨w, -, hβ⟩ | ⟨w, hα, hv⟩
  · exact .inr ⟨w, hβ⟩
  · rcases List.cons_eq_append_iff.mp hv with ⟨-, hβ⟩ | ⟨w', rfl, htail⟩
    · exact .inr ⟨[], hβ⟩
    · exact .inl ⟨w', hα, htail⟩

/-- **What holds of every occurrence of a symbol** a derivation keeps, when replacing a symbol behind
the occurrence does, and when it holds within a right-hand side wherever it holds of the symbol that
is replaced. -/
theorem derives_occurrences {P : S → List S → Prop}
    (hbehind : ∀ n s γ w v, R s γ → P n (w ++ s :: v) → P n (w ++ (γ ++ v)))
    (hwithin : ∀ n s w w' v, R s (w ++ n :: w') → P s v → P n (w' ++ v))
    {α β : List S} (h : Derives R α β) (hα : Occurrences P α) : Occurrences P β := by
  induction h with
  | refl => exact hα
  | tail _ hstep ih =>
    cases hstep with
    | @mk s γ x y hR =>
      intro u n v heq
      rw [List.append_assoc] at heq
      rcases split_append heq with ⟨w, rfl, rfl⟩ | ⟨w, hw⟩
      · -- before the symbol that is replaced
        exact hbehind n s γ w y hR (ih u n (w ++ s :: y) (by simp))
      · rcases split_append hw with ⟨w', rfl, rfl⟩ | ⟨w', rfl⟩
        · exact hwithin n s w w' y hR (ih x s y rfl)
        · exact ih (x ++ s :: w') n v (by simp)

/-! ## Forms that vanish -/

section Erasing

variable {τ : S → Language T}

theorem yields_append_nil_iff {α β : List S} :
    Yields R τ (α ++ β) [] ↔ Yields R τ α [] ∧ Yields R τ β [] := by
  constructor
  · intro h
    rw [← mem_seq_lang, seq_append, Language.mem_mul] at h
    obtain ⟨u, hu, v, hv, huv⟩ := h
    obtain ⟨rfl, rfl⟩ := List.append_eq_nil_iff.mp huv
    exact ⟨mem_seq_lang.mp hu, mem_seq_lang.mp hv⟩
  · rintro ⟨hα, hβ⟩
    exact yields_append hα hβ

theorem yields_nil_of_rewrite {α β : List S} (h : Rewrite (Erasing R τ) α β)
    (hβ : Yields R τ β []) : Yields R τ α [] := by
  cases h with
  | @mk s ρ u v h =>
    rw [List.append_assoc, yields_append_nil_iff, yields_append_nil_iff] at hβ
    obtain ⟨hu, hρ, hv⟩ := hβ
    refine yields_append hu ?_
    rcases h with h | ⟨-, h⟩
    · exact Yields.node h hρ hv
    · exact Yields.leaf h hv

/-- **A form vanishes exactly when its language has the empty word.** -/
theorem derives_nil_iff {α : List S} : Derives (Erasing R τ) α [] ↔ Yields R τ α [] := by
  constructor
  · intro h
    induction h using ReflTransGen.head_induction_on with
    | refl => exact Yields.nil
    | head hstep _ ih => exact yields_nil_of_rewrite hstep ih
  · intro h
    generalize hw : ([] : List T) = w at h
    induction h with
    | nil => exact ReflTransGen.refl
    | @leaf s α w v hleaf _ ih =>
      obtain ⟨rfl, rfl⟩ := List.append_eq_nil_iff.mp hw.symm
      have hs : Rewrite (Erasing R τ) ([] ++ s :: α) ([] ++ [] ++ α) :=
        .mk [] α (.inr ⟨rfl, hleaf⟩)
      exact ReflTransGen.head hs (ih rfl)
    | @node s β α w v hrule _ _ ihβ ihα =>
      obtain ⟨rfl, rfl⟩ := List.append_eq_nil_iff.mp hw.symm
      have hs : Rewrite (Erasing R τ) ([] ++ s :: α) ([] ++ β ++ α) := .mk [] α (.inl hrule)
      exact ReflTransGen.head hs (derives_append_nil (ihβ rfl) (ihα rfl))

theorem derives_nil_iff_forall {α : List S} :
    Derives (Erasing R τ) α [] ↔ ∀ s ∈ α, [] ∈ lang R τ s := by
  rw [derives_nil_iff]
  induction α with
  | nil => exact ⟨fun _ => by simp, fun _ => Yields.nil⟩
  | cons s α ih =>
    rw [← List.singleton_append, yields_append_nil_iff, ih]
    simp only [List.singleton_append, List.forall_mem_cons]
    exact Iff.rfl

end Erasing

/-! ## Left corners -/

theorem derives_append_nil_iff {α β : List S} :
    Derives R (α ++ β) [] ↔ Derives R α [] ∧ Derives R β [] := by
  have hR : Derives R = Derives (Erasing R fun _ => (0 : Language Unit)) := by
    congr 1
    funext s γ
    simp [Erasing, Language.notMem_zero]
  rw [hR, derives_nil_iff, derives_nil_iff, derives_nil_iff, yields_append_nil_iff]

/-- Where a symbol of `a ++ b` stands. -/
theorem append_eq_split {a b u v : List S} {x : S} (h : a ++ b = u ++ x :: v) :
    (∃ a₂, a = u ++ x :: a₂) ∨ ∃ u₂, u = a ++ u₂ ∧ b = u₂ ++ x :: v := by
  rcases List.append_eq_append_iff.mp h with ⟨u₂, rfl, hb⟩ | ⟨a₂, rfl, hv⟩
  · exact .inr ⟨u₂, rfl, hb⟩
  · cases a₂ with
    | nil => exact .inr ⟨[], by simp, by simpa using hv.symm⟩
    | cons y a₂ =>
      obtain ⟨rfl, -⟩ := List.cons.inj hv
      exact .inl ⟨a₂, rfl⟩

/-- A form that comes to begin with `t` has a symbol behind what vanishes that leads to `t`. -/
theorem corner_of_derives {α γ δ : List S} {t : S} (h : Derives R α (γ ++ t :: δ))
    (hγ : Derives R γ []) :
    ∃ u x v, α = u ++ x :: v ∧ Derives R u [] ∧ ReflTransGen (Corner R) x t := by
  induction h using ReflTransGen.head_induction_on with
  | refl => exact ⟨γ, t, δ, rfl, hγ, .refl⟩
  | head hstep _ ih =>
    obtain ⟨u', x', v', heq, hu', hx'⟩ := ih
    cases hstep with
    | @mk s ρ a b hs =>
      rw [List.append_assoc] at heq
      rcases append_eq_split heq with ⟨a₂, rfl⟩ | ⟨u₁, rfl, hρ⟩
      · exact ⟨u', x', a₂ ++ s :: b, by simp, hu', hx'⟩
      · rw [derives_append_nil_iff] at hu'
        rcases append_eq_split hρ with ⟨ρ₂, rfl⟩ | ⟨b₁, rfl, rfl⟩
        · exact ⟨a, s, b, rfl, hu'.1, .head ⟨u₁, ρ₂, hs, hu'.2⟩ hx'⟩
        · -- The symbol stands behind the rewritten one, which vanishes with what it became.
          have hstep : Rewrite R (a ++ s :: b₁) (a ++ ρ ++ b₁) := .mk a b₁ hs
          refine ⟨a ++ s :: b₁, x', v', by simp, ReflTransGen.head hstep ?_, hx'⟩
          rw [List.append_assoc]
          exact derives_append_nil hu'.1 hu'.2

theorem rule_of_rewrite {s : S} {α : List S} (h : Rewrite R [s] α) : R s α := by
  generalize hs : [s] = σ at h
  cases h with
  | mk u v h =>
    cases u with
    | nil =>
      obtain ⟨rfl, rfl⟩ := List.cons.inj hs
      simpa using h
    | cons x u => simp at hs

theorem leftReaches_of_corner {s t : S} (h : Corner R s t) : LeftReaches R s t := by
  obtain ⟨u, v, hs, hu⟩ := h
  have hstep : Rewrite R ([] ++ s :: []) ([] ++ (u ++ t :: v) ++ []) := .mk [] [] hs
  exact ⟨u, v, by simpa using TransGen.single hstep, hu⟩

theorem LeftReaches.trans {s t x : S} (h : LeftReaches R s t) (h' : LeftReaches R t x) :
    LeftReaches R s x := by
  obtain ⟨γ, δ, hst, hγ⟩ := h
  obtain ⟨γ', δ', htx, hγ'⟩ := h'
  have hlift : TransGen (Rewrite R) (γ ++ [t] ++ δ) (γ ++ (γ' ++ x :: δ') ++ δ) :=
    TransGen.lift (fun α => γ ++ α ++ δ) (fun _ _ h => h.context γ δ) _ _ htx
  refine ⟨γ ++ γ', δ' ++ δ, hst.trans ?_, derives_append_nil hγ hγ'⟩
  simpa using hlift

/-- **Left reach is a path of left corners.** -/
theorem leftReaches_iff {s t : S} : LeftReaches R s t ↔ TransGen (Corner R) s t := by
  constructor
  · rintro ⟨γ, δ, hst, hγ⟩
    obtain ⟨α, hstep, hα⟩ := TransGen.head'_iff.mp hst
    obtain ⟨u, x, v, rfl, hu, hx⟩ := corner_of_derives hα hγ
    exact TransGen.head' ⟨u, v, rule_of_rewrite hstep, hu⟩ hx
  · intro h
    induction h with
    | single h => exact leftReaches_of_corner h
    | tail _ h ih => exact ih.trans (leftReaches_of_corner h)

/-! ## Cycles through one point -/

section Cycles

variable {α : Type*} {r s : α → α → Prop} {a : α}

/-- A path to the point the further steps lead out of needs none of them. -/
theorem reflTransGen_cut (hs : ∀ x y, s x y → x = a) {x : α}
    (h : ReflTransGen (fun x y => r x y ∨ s x y) x a) : ReflTransGen r x a := by
  induction h using ReflTransGen.head_induction_on with
  | refl => exact .refl
  | head hstep _ ih =>
    rcases hstep with hr | hs'
    · exact .head hr ih
    · obtain rfl := hs _ _ hs'
      exact .refl

/-- A cycle through that point takes one of them, and comes back without. -/
theorem exists_first_return (hs : ∀ x y, s x y → x = a) (hr : ∀ y, ¬ r a y)
    (h : TransGen (fun x y => r x y ∨ s x y) a a) : ∃ y, s a y ∧ ReflTransGen r y a := by
  obtain ⟨y, hstep, hback⟩ := TransGen.head'_iff.mp h
  rcases hstep with h | h
  · exact absurd h (hr y)
  · exact ⟨y, h, reflTransGen_cut hs hback⟩

theorem transGen_through (hs : ∀ x y, s x y → x = a) {x y : α}
    (h : TransGen (fun x y => r x y ∨ s x y) x y) :
    TransGen r x y ∨ ReflTransGen (fun x y => r x y ∨ s x y) x a ∧
      TransGen (fun x y => r x y ∨ s x y) a y := by
  induction h with
  | single h =>
    rcases h with hr | hs'
    · exact .inl (.single hr)
    · obtain rfl := hs _ _ hs'
      exact .inr ⟨.refl, .single (.inr hs')⟩
  | tail h hstep ih =>
    rcases ih with ih | ⟨hxa, hay⟩
    · rcases hstep with hr | hs'
      · exact .inl (.tail ih hr)
      · obtain rfl := hs _ _ hs'
        exact .inr ⟨h.to_reflTransGen, .single (.inr hs')⟩
    · exact .inr ⟨hxa, .tail hay hstep⟩

/-- Every other cycle was one before. -/
theorem transGen_or_through (hs : ∀ x y, s x y → x = a) {x : α}
    (h : TransGen (fun x y => r x y ∨ s x y) x x) :
    TransGen r x x ∨ TransGen (fun x y => r x y ∨ s x y) a a :=
  (transGen_through hs h).imp_right fun ⟨hxa, hax⟩ => TransGen.trans_left hax hxa

end Cycles

end Cf
