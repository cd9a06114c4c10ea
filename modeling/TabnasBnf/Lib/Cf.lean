import Mathlib.Algebra.BigOperators.Group.List.Basic
import Mathlib.Computability.Language
import Mathlib.Order.CompletePartialOrder

/-!
# Context-free derivations over an arbitrary symbol type

A rule relation `R : S → List S → Prop` says what a symbol may be replaced by, and a leaf
interpretation `τ : S → Language T` what it may stand for by itself. `Yields R τ α w` is the
big-step derivation of the word `w` from the sequence `α`; `lang R τ s` is the language of one
symbol.

Nothing here fixes what a symbol is: a nonterminal, an EBNF expression (whose rules unfold the
sugar) or a state of an automaton are all symbols.

* `lang_eq`: the language of a symbol is its leaves together with its rules' products.
* `lang_le`: **the induction rule**. Languages that contain the leaves and are closed under
  the rules contain `lang`; `lang` is the least such family.
* `lang_mono`: more rules and more leaves derive more.
* `mem_kstar_iff_pow`, `mul_kstar_le`, `kstar_mul_le`: powers, and recursion unrolled into them.
-/

namespace Cf

variable {S T : Type*}

/-- The product of the languages of a sequence's symbols. -/
def seq (L : S → Language T) (α : List S) : Language T := (α.map L).prod

@[simp] theorem seq_nil (L : S → Language T) : seq L [] = 1 := rfl

@[simp] theorem seq_cons (L : S → Language T) (s : S) (α : List S) :
    seq L (s :: α) = L s * seq L α := List.prod_cons

@[simp] theorem seq_append (L : S → Language T) (α β : List S) :
    seq L (α ++ β) = seq L α * seq L β := by
  unfold seq
  rw [List.map_append, List.prod_append]

theorem seq_singleton (L : S → Language T) (s : S) : seq L [s] = L s := by simp

theorem seq_replicate (L : S → Language T) (k : Nat) (s : S) :
    seq L (List.replicate k s) = L s ^ k := by
  unfold seq
  rw [List.map_replicate, List.prod_replicate]

theorem seq_mono {L L' : S → Language T} {α : List S} (h : ∀ s ∈ α, L s ≤ L' s) :
    seq L α ≤ seq L' α := by
  induction α with
  | nil => exact le_refl _
  | cons s α ih =>
    rw [seq_cons, seq_cons]
    exact mul_le_mul' (h s List.mem_cons_self) (ih fun t ht => h t (List.mem_cons_of_mem s ht))

theorem seq_congr {L L' : S → Language T} {α : List S} (h : ∀ s ∈ α, L s = L' s) :
    seq L α = seq L' α :=
  le_antisymm (seq_mono fun s hs => (h s hs).le) (seq_mono fun s hs => (h s hs).ge)

/-- The words a sequence derives: each symbol in turn is either a leaf, read through `τ`, or
replaced by the right-hand side of one of its rules. -/
inductive Yields (R : S → List S → Prop) (τ : S → Language T) : List S → List T → Prop
  | nil : Yields R τ [] []
  | leaf {s α w v} (hw : w ∈ τ s) (hα : Yields R τ α v) : Yields R τ (s :: α) (w ++ v)
  | node {s β α w v} (hR : R s β) (hβ : Yields R τ β w) (hα : Yields R τ α v) :
      Yields R τ (s :: α) (w ++ v)

/-- The language of one symbol. -/
def lang (R : S → List S → Prop) (τ : S → Language T) (s : S) : Language T :=
  {w | Yields R τ [s] w}

variable {R : S → List S → Prop} {τ : S → Language T}

theorem yields_append {α β : List S} {u v : List T} (hα : Yields R τ α u)
    (hβ : Yields R τ β v) : Yields R τ (α ++ β) (u ++ v) := by
  induction hα with
  | nil => exact hβ
  | leaf hw _ ih => rw [List.append_assoc]; exact Yields.leaf hw ih
  | node hR hβ' _ _ ih => rw [List.append_assoc]; exact Yields.node hR hβ' ih

/-- A word of `s :: α` is a word of `s` followed by a word of `α`. -/
theorem yields_cons_iff {s : S} {α : List S} {w : List T} :
    Yields R τ (s :: α) w ↔ ∃ u v, Yields R τ [s] u ∧ Yields R τ α v ∧ w = u ++ v := by
  constructor
  · intro h
    cases h with
    | leaf hw hα => exact ⟨_, _, by simpa using Yields.leaf hw Yields.nil, hα, rfl⟩
    | node hR hβ hα => exact ⟨_, _, by simpa using Yields.node hR hβ Yields.nil, hα, rfl⟩
  · rintro ⟨u, v, hu, hv, rfl⟩
    exact yields_append hu hv

/-- **A sequence derives the product of its symbols' languages.** -/
theorem mem_seq_lang {α : List S} {w : List T} : w ∈ seq (lang R τ) α ↔ Yields R τ α w := by
  induction α generalizing w with
  | nil =>
    rw [seq_nil, Language.mem_one]
    constructor
    · rintro rfl; exact Yields.nil
    · intro h; cases h; rfl
  | cons s α ih =>
    rw [seq_cons, yields_cons_iff, Language.mem_mul]
    constructor
    · rintro ⟨u, hu, v, hv, rfl⟩
      exact ⟨u, v, hu, ih.mp hv, rfl⟩
    · rintro ⟨u, v, hu, hv, rfl⟩
      exact ⟨u, hu, v, ih.mpr hv, rfl⟩

theorem mem_lang {s : S} {w : List T} :
    w ∈ lang R τ s ↔ w ∈ τ s ∨ ∃ β, R s β ∧ w ∈ seq (lang R τ) β := by
  constructor
  · intro h
    cases h with
    | leaf hw hα => cases hα; left; simpa using hw
    | node hR hβ hα => cases hα; right; exact ⟨_, hR, by simpa using mem_seq_lang.mpr hβ⟩
  · rintro (hw | ⟨β, hR, hw⟩)
    · have h : Yields R τ [s] (w ++ []) := Yields.leaf hw Yields.nil
      rwa [List.append_nil] at h
    · have h : Yields R τ [s] (w ++ []) := Yields.node hR (mem_seq_lang.mp hw) Yields.nil
      rwa [List.append_nil] at h

theorem leaf_le_lang (s : S) : τ s ≤ lang R τ s := fun _ hw => mem_lang.mpr (Or.inl hw)

theorem rule_le_lang {s : S} {β : List S} (h : R s β) : seq (lang R τ) β ≤ lang R τ s :=
  fun _ hw => mem_lang.mpr (Or.inr ⟨β, h, hw⟩)

/-- **The induction rule.** A family of languages that contains the leaves and is closed under
the rules contains every symbol's language. -/
theorem lang_le {L : S → Language T} (hτ : ∀ s, τ s ≤ L s)
    (hR : ∀ s β, R s β → seq L β ≤ L s) (s : S) : lang R τ s ≤ L s := by
  have key : ∀ {α : List S} {w : List T}, Yields R τ α w → w ∈ seq L α := by
    intro α w h
    induction h with
    | nil => exact Language.mem_one _ |>.mpr rfl
    | leaf hw _ ih => rw [seq_cons]; exact Language.append_mem_mul (hτ _ hw) ih
    | node hr _ _ ihβ ihα => rw [seq_cons]; exact Language.append_mem_mul (hR _ _ hr ihβ) ihα
  intro w hw
  have := key hw
  rwa [seq_singleton] at this

theorem lang_mono {R' : S → List S → Prop} {τ' : S → Language T}
    (hτ : ∀ s, τ s ≤ τ' s) (hR : ∀ s β, R s β → R' s β) (s : S) :
    lang R τ s ≤ lang R' τ' s :=
  lang_le (fun s => (hτ s).trans (leaf_le_lang s)) (fun _ _ h => rule_le_lang (hR _ _ h)) s

/-- The language of a symbol without rules is its leaves. -/
theorem lang_of_no_rule {s : S} (h : ∀ β, ¬ R s β) : lang R τ s = τ s := by
  ext w
  rw [mem_lang]
  exact ⟨fun hw => hw.elim id fun ⟨β, hβ, _⟩ => absurd hβ (h β), Or.inl⟩

/-- The language of a symbol without leaves is the union of its rules' products. -/
theorem mem_lang_of_no_leaf {s : S} (h : τ s = 0) {w : List T} :
    w ∈ lang R τ s ↔ ∃ β, R s β ∧ w ∈ seq (lang R τ) β := by
  rw [mem_lang, h]
  exact ⟨fun hw => hw.elim (fun hw => absurd hw (Language.notMem_zero w)) id, Or.inr⟩

/-! ## Powers -/

theorem mem_kstar_iff_pow (l : Language T) {w : List T} :
    w ∈ KStar.kstar l ↔ ∃ k : Nat, w ∈ l ^ k := by
  rw [Language.kstar_eq_iSup_pow, Language.mem_iSup]

/-- **Left recursion unrolled** (Arden): the least `x` above `b + x * a` is `b * a∗`; here the
half that needs no leastness. -/
theorem mul_kstar_le {a b x : Language T} (hb : b ≤ x) (ha : x * a ≤ x) :
    b * KStar.kstar a ≤ x :=
  (mul_le_mul' hb (le_refl _)).trans (mul_kstar_le_self ha)

/-- Right recursion unrolled, the same half. -/
theorem kstar_mul_le {a b x : Language T} (hb : b ≤ x) (ha : a * x ≤ x) :
    KStar.kstar a * b ≤ x :=
  (mul_le_mul' (le_refl _) hb).trans (kstar_mul_le_self ha)

end Cf
