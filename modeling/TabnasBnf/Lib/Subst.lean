import TabnasBnf.Lib.Cf

/-!
# Substitution of languages for letters

`subst σ L` reads every letter of a word of `L` as a language: the words that spell the letters in
turn. A letter may stand for several words, for a longer one, or for none.

* `subst_seq`: substitution goes through products.
* **`lang_subst`**: what a symbol derives over substituted leaves is the substitution of what it
  derives, so leaves may be read before a derivation or behind it.
-/

namespace Cf

variable {S T U : Type*}

/-- The words of `L` with every letter `t` spelled by a word of `σ t`. -/
def subst (σ : T → Language U) (L : Language T) : Language U :=
  {w | ∃ u ∈ L, w ∈ seq σ u}

variable {σ : T → Language U} {L M : Language T}

theorem mem_subst {w : List U} : w ∈ subst σ L ↔ ∃ u ∈ L, w ∈ seq σ u := Iff.rfl

theorem subst_mono (h : L ≤ M) : subst σ L ≤ subst σ M := fun _ ⟨u, hu, hw⟩ => ⟨u, h hu, hw⟩

@[simp] theorem subst_zero : subst σ (0 : Language T) = 0 := by
  ext w
  simp [mem_subst, Language.notMem_zero]

@[simp] theorem subst_singleton (u : List T) : subst σ {u} = seq σ u := by
  ext w
  constructor
  · rintro ⟨v, rfl, hw⟩
    exact hw
  · exact fun hw => ⟨u, rfl, hw⟩

theorem subst_one : subst σ (1 : Language T) = 1 := subst_singleton []

theorem subst_mul : subst σ (L * M) = subst σ L * subst σ M := by
  ext w
  constructor
  · rintro ⟨_, ⟨u, hu, v, hv, rfl⟩, hw⟩
    rw [seq_append] at hw
    obtain ⟨a, ha, b, hb, rfl⟩ := Language.mem_mul.mp hw
    exact Language.append_mem_mul ⟨u, hu, ha⟩ ⟨v, hv, hb⟩
  · rintro ⟨a, ⟨u, hu, ha⟩, b, ⟨v, hv, hb⟩, rfl⟩
    refine ⟨u ++ v, Language.append_mem_mul hu hv, ?_⟩
    rw [seq_append]
    exact Language.append_mem_mul ha hb

theorem subst_seq (L : S → Language T) (α : List S) :
    subst σ (seq L α) = seq (fun s => subst σ (L s)) α := by
  induction α with
  | nil => exact subst_one
  | cons s α ih => rw [seq_cons, seq_cons, subst_mul, ih]

variable {R : S → List S → Prop} {τ : S → Language T}

/-- What a product of languages spells lies in the product of what they spell. -/
theorem seq_of_spelled {L : S → Language T} {M : S → Language U} {α : List S}
    (h : ∀ s ∈ α, ∀ u ∈ L s, seq σ u ≤ M s) {u : List T} (hu : u ∈ seq L α) :
    seq σ u ≤ seq M α := by
  induction α generalizing u with
  | nil =>
    obtain rfl : u = [] := hu
    exact le_refl _
  | cons s α ih =>
    rw [seq_cons] at hu ⊢
    obtain ⟨v, hv, w, hw, rfl⟩ := Language.mem_mul.mp hu
    rw [seq_append]
    exact mul_le_mul' (h s List.mem_cons_self v hv)
      (ih (fun t ht => h t (List.mem_cons_of_mem s ht)) hw)

/-- **Leaves may be read before a derivation or behind it.** -/
theorem lang_subst (s : S) : lang R (fun s => subst σ (τ s)) s = subst σ (lang R τ s) := by
  refine le_antisymm ?_ ?_
  · refine lang_le (L := fun s => subst σ (lang R τ s)) (fun s => subst_mono (leaf_le_lang s))
      (fun s β hβ => ?_) s
    rw [← subst_seq]
    exact subst_mono (rule_le_lang hβ)
  · -- the words all of whose spellings are derived
    have key : lang R τ s ≤ {u | seq σ u ≤ lang R (fun s => subst σ (τ s)) s} := by
      refine lang_le (L := fun s => {u | seq σ u ≤ lang R (fun s => subst σ (τ s)) s})
        (fun s u hu => ?_) (fun s β hβ u hu => ?_) s
      · exact le_trans (fun w hw => ⟨u, hu, hw⟩) (leaf_le_lang s)
      · exact (seq_of_spelled (fun _ _ _ hv => hv) hu).trans (rule_le_lang hβ)
    rintro w ⟨u, hu, hw⟩
    exact key hu hw

end Cf
