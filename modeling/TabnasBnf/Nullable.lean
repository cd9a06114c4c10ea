import TabnasBnf.Lib.Saturate
import TabnasBnf.Semantics
import TabnasBnf.TokenClass

/-!
# The rules that match nothing

Model of `nullable_rules` and `non_consuming_rules` (`rs/src/prose.rs`): the least set of rules
one of whose alternatives is satisfied without consuming. The two, and the `element_…` function
each rests on, differ only in what they ask of a regular expression, which is the parameter
`verdict`: `regex_derives_empty`, or `regex_may_match_without_consuming`.

* **`nil_mem_nameLang_le`**: a name that derives the empty string is among them, when the
  terminals match nothing exactly where the code says so (`ZeroWidth`).
-/

namespace TabnasBnf

open Saturate

/-- The regex crate's verdict on a pattern and its flags. -/
abbrev Verdict := String → String → Bool

variable (verdict : Verdict)

/-- `element_may_match_without_consuming`: `element_derives_empty` with the other verdict. -/
def elementMayMatchWithoutConsuming (nullable : List String) (el : Element) : Bool :=
  elementDerivesEmpty verdict nullable el

/-- The loop body of `nullable_rules`: the name of a production that derives the empty string over
what is known to. -/
def nullableRule (p : Production) (nullable : List String) : List String :=
  if !nullable.contains p.name && someSequenceDerivesEmpty verdict nullable p.alts then [p.name]
  else []

/-- `nullable_rules`. -/
def nullableRules (prods : List Production) : List String :=
  saturate (prods.map (nullableRule verdict)) prods.length []

/-- `non_consuming_rules`. -/
def nonConsumingRules (prods : List Production) : List String := nullableRules verdict prods

variable {verdict} {N N' : List String}

/-! ## Sequences and alternatives -/

theorem sequenceDerivesEmpty_iff {α : Sequence} : sequenceDerivesEmpty verdict N α = true ↔
    ∀ el ∈ α, elementDerivesEmpty verdict N el = true := by
  induction α with
  | nil => simp [sequenceDerivesEmpty]
  | cons el α ih => simp [sequenceDerivesEmpty, ih]

theorem someSequenceDerivesEmpty_iff {alts : List Sequence} :
    someSequenceDerivesEmpty verdict N alts = true ↔
      ∃ α ∈ alts, sequenceDerivesEmpty verdict N α = true := by
  induction alts with
  | nil => simp [someSequenceDerivesEmpty]
  | cons α alts ih => simp [someSequenceDerivesEmpty, ih]

/-- A terminal does not ask which rules are nullable. -/
theorem derivesEmpty_terminal {el : Element} (h : el.isTerminal = true) :
    elementDerivesEmpty verdict N el = elementDerivesEmpty verdict N' el := by
  cases el <;> first | rfl | cases h

mutual
/-- Only the names an element refers to count. -/
theorem elementDerivesEmpty_congr : ∀ (el : Element), (∀ n ∈ el.refs, n ∈ N ↔ n ∈ N') →
    elementDerivesEmpty verdict N el = elementDerivesEmpty verdict N' el
  | .ref name _ _, h => by
    have hname := h name List.mem_cons_self
    simp only [elementDerivesEmpty, List.contains_eq_mem, hname]
  | .plus e _, h => elementDerivesEmpty_congr e h
  | .rep min max e _, h => by
    rw [elementDerivesEmpty, elementDerivesEmpty, elementDerivesEmpty_congr e h]
  | .group alts _, h => someSequenceDerivesEmpty_congr alts h
  | .opt .., _ | .star .., _ | .term .., _ | .regex .., _ | .token .., _ | .prose .., _ => rfl

theorem sequenceDerivesEmpty_congr : ∀ (α : List Element), (∀ n ∈ refsIn α, n ∈ N ↔ n ∈ N') →
    sequenceDerivesEmpty verdict N α = sequenceDerivesEmpty verdict N' α
  | [], _ => rfl
  | el :: α, h => by
    rw [sequenceDerivesEmpty, sequenceDerivesEmpty,
      elementDerivesEmpty_congr el fun n hn => h n (List.mem_append_left _ hn),
      sequenceDerivesEmpty_congr α fun n hn => h n (List.mem_append_right _ hn)]

theorem someSequenceDerivesEmpty_congr : ∀ (alts : List (List Element)),
    (∀ n ∈ refsInAlts alts, n ∈ N ↔ n ∈ N') →
    someSequenceDerivesEmpty verdict N alts = someSequenceDerivesEmpty verdict N' alts
  | [], _ => rfl
  | α :: alts, h => by
    rw [someSequenceDerivesEmpty, someSequenceDerivesEmpty,
      sequenceDerivesEmpty_congr α fun n hn => h n (List.mem_append_left _ hn),
      someSequenceDerivesEmpty_congr alts fun n hn => h n (List.mem_append_right _ hn)]
end

/-! ## The fixed point -/

/-- No production of `G` outside `N` derives the empty string over `N`. -/
def NullClosed (verdict : Verdict) (N : List String) (G : List Production) : Prop :=
  ∀ p ∈ G, someSequenceDerivesEmpty verdict N p.alts = true → p.name ∈ N

variable {prods : List Production}

theorem nullableRule_subset {p : Production} {n : String} (h : n ∈ nullableRule verdict p N) :
    n = p.name ∧ someSequenceDerivesEmpty verdict N p.alts = true := by
  unfold nullableRule at h
  split at h
  · next hc =>
    rw [Bool.and_eq_true] at hc
    exact ⟨List.mem_singleton.mp h, hc.2⟩
  · cases h

theorem nullableRules_closed : NullClosed verdict (nullableRules verdict prods) prods := by
  intro p hp hempty
  by_contra hn
  refine hn (closed (U := namesOf prods) ?_ (fun x hx => absurd hx List.not_mem_nil)
    List.nodup_nil (List.length_map _).le (nullableRule verdict p)
    (List.mem_map_of_mem hp) p.name ?_)
  · intro r hr s _ x hx
    obtain ⟨q, hq, rfl⟩ := List.mem_map.mp hr
    exact mem_namesOf.mpr ⟨q, hq, (nullableRule_subset hx).1.symm⟩
  · have hnot : (nullableRules verdict prods).contains p.name = false := by simpa using hn
    show p.name ∈ nullableRule verdict p (nullableRules verdict prods)
    unfold nullableRule
    rw [hnot, hempty]
    exact List.mem_cons_self

theorem nonConsumingRules_closed : NullClosed verdict (nonConsumingRules verdict prods) prods :=
  nullableRules_closed

theorem nullableRules_names : nullableRules verdict prods ⊆ namesOf prods := by
  refine subset_of_closed (C := (· ∈ namesOf prods)) ?_ _ fun x hx => absurd hx List.not_mem_nil
  intro r hr s _ x hx
  obtain ⟨q, hq, rfl⟩ := List.mem_map.mp hr
  exact mem_namesOf.mpr ⟨q, hq, (nullableRule_subset hx).1.symm⟩

/-! ## What it means -/

section

variable {T : Type*} {τ : Element → Language T} {ρ : String → Language T}

/-- The terminals that match nothing are those the code says may. -/
def ZeroWidth (verdict : Verdict) (τ : Element → Language T) : Prop :=
  ∀ el, el.isTerminal = true → ([] ∈ τ el ↔ elementDerivesEmpty verdict [] el = true)

theorem nil_mem_mul {a b : Language T} : [] ∈ a * b ↔ [] ∈ a ∧ [] ∈ b := by
  rw [Language.mem_mul]
  constructor
  · rintro ⟨u, hu, v, hv, huv⟩
    obtain ⟨rfl, rfl⟩ := List.append_eq_nil_iff.mp huv
    exact ⟨hu, hv⟩
  · rintro ⟨ha, hb⟩
    exact ⟨[], ha, [], hb, rfl⟩

theorem nil_mem_seq {α : Sequence} :
    [] ∈ Cf.seq (den τ ρ) α ↔ ∀ el ∈ α, [] ∈ den τ ρ el := by
  induction α with
  | nil => simp [Language.mem_one]
  | cons el α ih => rw [Cf.seq_cons, nil_mem_mul, ih, List.forall_mem_cons]

theorem nil_mem_of_pow {a : Language T} {k : Nat} (hk : k ≠ 0) (h : [] ∈ a ^ k) : [] ∈ a := by
  obtain ⟨k, rfl⟩ := Nat.exists_eq_succ_of_ne_zero hk
  rw [pow_succ', nil_mem_mul] at h
  exact h.1

mutual
/-- What derives the empty string, the code says does. -/
theorem derivesEmpty_of_nil_mem (hτ : ZeroWidth verdict τ) (hρ : ∀ n, [] ∈ ρ n → n ∈ N) :
    ∀ (el : Element), [] ∈ den τ ρ el → elementDerivesEmpty verdict N el = true
  | .opt .., _ | .star .., _ => rfl
  | .plus e _, h => by
    rw [den_plus, nil_mem_mul] at h
    exact derivesEmpty_of_nil_mem hτ hρ e h.1
  | .rep min max e _, h => by
    obtain ⟨k, hk, -, hw⟩ := mem_den_rep.mp h
    rw [elementDerivesEmpty, Bool.or_eq_true, beq_iff_eq]
    by_cases hmin : min = 0
    · exact .inl hmin
    · exact .inr (derivesEmpty_of_nil_mem hτ hρ e (nil_mem_of_pow (by omega) hw))
  | .group alts _, h => by
    rw [den_group] at h
    exact someDerivesEmpty_of_nil_mem hτ hρ alts h
  | .ref name _ _, h => by
    rw [den_ref] at h
    simpa [elementDerivesEmpty] using hρ name h
  | .prose .., h => by
    rw [den_prose] at h
    exact absurd h (Language.notMem_zero _)
  | .term l cs tn sp, h => by
    rw [den_terminal rfl] at h
    exact (hτ (.term l cs tn sp) rfl).mp h
  | .regex pat fl sp, h => by
    rw [den_terminal rfl] at h
    exact (hτ (.regex pat fl sp) rfl).mp h
  | .token name sp, h => by
    rw [den_terminal rfl] at h
    exact (hτ (.token name sp) rfl).mp h

theorem sequenceDerivesEmpty_of_nil_mem (hτ : ZeroWidth verdict τ)
    (hρ : ∀ n, [] ∈ ρ n → n ∈ N) : ∀ (α : List Element), [] ∈ Cf.seq (den τ ρ) α →
      sequenceDerivesEmpty verdict N α = true
  | [], _ => rfl
  | el :: α, h => by
    rw [Cf.seq_cons, nil_mem_mul] at h
    rw [sequenceDerivesEmpty, derivesEmpty_of_nil_mem hτ hρ el h.1,
      sequenceDerivesEmpty_of_nil_mem hτ hρ α h.2, Bool.and_self]

theorem someDerivesEmpty_of_nil_mem (hτ : ZeroWidth verdict τ)
    (hρ : ∀ n, [] ∈ ρ n → n ∈ N) : ∀ (alts : List (List Element)), [] ∈ altsDen τ ρ alts →
      someSequenceDerivesEmpty verdict N alts = true
  | [], h => absurd h (Language.notMem_zero _)
  | α :: alts, h => by
    rw [altsDen_cons, Language.mem_add] at h
    rw [someSequenceDerivesEmpty, Bool.or_eq_true]
    exact h.imp (sequenceDerivesEmpty_of_nil_mem hτ hρ α) (someDerivesEmpty_of_nil_mem hτ hρ alts)
end

/-- **A name that derives the empty string is in every set closed under the productions.** -/
theorem nil_mem_nameLang_le {G : List Production} (hτ : ZeroWidth verdict τ)
    (hN : NullClosed verdict N G) (n : String) (h : [] ∈ nameLang τ G n) : n ∈ N := by
  let ρ : String → Language T := fun n => {w | w = [] → n ∈ N}
  have hρ : ∀ n, [] ∈ ρ n → n ∈ N := fun n hn => hn rfl
  have hsolves : Solves τ G ρ := by
    intro p hp w hw hnil
    obtain rfl := hnil
    exact hN p hp (someDerivesEmpty_of_nil_mem hτ hρ p.alts hw)
  exact hρ n (nameLang_le hsolves n h)

/-- The same of an element. -/
theorem derivesEmpty_of_nil_mem_lang {G : List Production} (hτ : ZeroWidth verdict τ)
    (hN : NullClosed verdict N G) {el : Element} (h : [] ∈ lang τ G el) :
    elementDerivesEmpty verdict N el = true := by
  rw [lang_eq_den] at h
  exact derivesEmpty_of_nil_mem hτ (nil_mem_nameLang_le hτ hN) el h

end

end TabnasBnf
