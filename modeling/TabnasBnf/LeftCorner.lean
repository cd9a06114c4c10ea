import TabnasBnf.Lib.Corner
import TabnasBnf.Semantics

/-!
# Left recursion

When a name comes to begin with itself: `LeftRecursive G n`, by derivations of sentential forms
that unfold every kind of element. Terminals consume, an empty literal apart (`consuming`).

* `corners L el` are the names at a left corner of an element, what stands before them deriving
  nothing when the names stand for the languages `L`; `hidden L alt` are those of an alternative
  that are not its first element itself.
* **`leftRecursive_iff`**: a name is left-recursive when it is on a cycle of `leadsTo`, the names
  at the left corners of a production's alternatives.
-/

namespace TabnasBnf

open Relation

/-- Every terminal consumes, an empty literal apart. -/
def consuming : Element → Language Unit
  | .term "" _ _ _ => 1
  | _ => {[()]}

/-- The derivations of a grammar: its rules, and an empty literal erased. -/
abbrev FormRule (G : List Production) : Element → List Element → Prop :=
  Cf.Erasing (Rule G) (leaf consuming fun _ => 0)

/-- `n =>+ γ n δ` with `γ` deriving the empty string. -/
def LeftRecursive (G : List Production) (n : String) : Prop :=
  ∃ debt sp, Cf.LeftReaches (FormRule G) (.ref n none none) (.ref n debt sp)

section

variable (L : String → Language Unit)

/-- The element derives the empty string. -/
def Vanishes (el : Element) : Prop := [] ∈ den consuming L el

mutual
/-- The names at a left corner of an element. -/
def corners : Element → Set String
  | .ref n _ _ => {n}
  | .opt e _ | .star e _ _ | .plus e _ => corners e
  | .rep min max e _ =>
    {n | n ∈ corners e ∧ ∃ k, min ≤ k + 1 ∧ ∀ m, max = some m → k + 1 ≤ m}
  | .group alts _ => cornersAlts alts
  | _ => ∅

/-- The names at a left corner of a sequence. -/
def cornersSeq : List Element → Set String
  | [] => ∅
  | el :: rest => corners el ∪ {n | Vanishes L el ∧ n ∈ cornersSeq rest}

/-- The names at a left corner of some alternative. -/
def cornersAlts : List (List Element) → Set String
  | [] => ∅
  | alt :: rest => cornersSeq alt ∪ cornersAlts rest
end

/-- The names at a left corner of an alternative that does not begin with them. -/
def hidden : Sequence → Set String
  | [] => ∅
  | el :: rest =>
    {n | el.isRef = false ∧ n ∈ corners L el} ∪ {n | Vanishes L el ∧ n ∈ cornersSeq L rest}

/-- Some production of that name has the other at a left corner. -/
def leadsTo (G : List Production) (n m : String) : Prop :=
  ∃ p ∈ G, p.name = n ∧ m ∈ cornersAlts L p.alts

end

variable {L : String → Language Unit} {G : List Production} {n m : String}

theorem mem_cornersAlts {alts : List Sequence} :
    n ∈ cornersAlts L alts ↔ ∃ alt ∈ alts, n ∈ cornersSeq L alt := by
  induction alts with
  | nil => simp [cornersAlts]
  | cons alt alts ih => simp [cornersAlts, ih]

theorem mem_cornersSeq {α : Sequence} :
    n ∈ cornersSeq L α ↔
      ∃ u el v, α = u ++ el :: v ∧ (∀ x ∈ u, Vanishes L x) ∧ n ∈ corners L el := by
  induction α with
  | nil => simp [cornersSeq]
  | cons x α ih =>
    simp only [cornersSeq, Set.mem_union, Set.mem_ofPred_eq, ih]
    constructor
    · rintro (h | ⟨hx, u, el, v, rfl, hu, hn⟩)
      · exact ⟨[], x, α, rfl, by simp, h⟩
      · exact ⟨x :: u, el, v, rfl, by simpa using ⟨hx, hu⟩, hn⟩
    · rintro ⟨u, el, v, heq, hu, hn⟩
      cases u with
      | nil =>
        obtain ⟨rfl, -⟩ := List.cons.inj heq
        exact .inl hn
      | cons y u =>
        obtain ⟨rfl, rfl⟩ := List.cons.inj heq
        exact .inr ⟨hu x List.mem_cons_self, u, el, v, rfl,
          fun z hz => hu z (List.mem_cons_of_mem _ hz), hn⟩

/-! ## Derivations and corners -/

theorem derives_nil_iff {u : List Element} :
    Cf.Derives (FormRule G) u [] ↔ ∀ x ∈ u, Vanishes (nameLang consuming G) x := by
  rw [Cf.derives_nil_iff_forall]
  refine forall₂_congr fun x _ => ?_
  show [] ∈ lang consuming G x ↔ _
  rw [lang_eq_den]
  exact Iff.rfl

/-- The corner of an element that is no reference, through one rule. -/
theorem corners_of_corner {el t : Element} (hel : el.isRef = false)
    (h : Cf.Corner (FormRule G) el t) :
    corners (nameLang consuming G) t ⊆ corners (nameLang consuming G) el := by
  obtain ⟨u, v, hrule, hu⟩ := h
  rcases hrule with hrule | ⟨hnil, -⟩
  swap
  · simp at hnil
  have hcopy : ∀ {e : Element} {k : Nat}, List.replicate k e = u ++ t :: v → t = e ∧ 0 < k := by
    intro e k hk
    have hmem : t ∈ List.replicate k e := by rw [hk]; simp
    exact ⟨List.eq_of_mem_replicate hmem, Nat.pos_of_ne_zero fun h0 => by simp [h0] at hmem⟩
  cases hrule with
  | ref hp ha => simp [Element.isRef] at hel
  | sugar hs =>
    generalize hβ : u ++ t :: v = β at hs
    cases hs with
    | optNone => simp at hβ
    | @optSome e sp =>
      obtain ⟨rfl, -⟩ := hcopy (k := 1) (by simpa using hβ.symm)
      exact fun n hn => by simpa only [corners] using hn
    | star k =>
      obtain ⟨rfl, -⟩ := hcopy hβ.symm
      exact fun n hn => by simpa only [corners] using hn
    | plus k =>
      obtain ⟨rfl, -⟩ := hcopy hβ.symm
      exact fun n hn => by simpa only [corners] using hn
    | @rep min max e sp k hmin hmax =>
      obtain ⟨rfl, hpos⟩ := hcopy hβ.symm
      intro n hn
      refine ⟨hn, k - 1, ?_, ?_⟩ <;> rw [Nat.sub_add_cancel hpos] <;> assumption
    | group ha =>
      subst hβ
      intro n hn
      simp only [corners]
      exact mem_cornersAlts.mpr ⟨_, ha, mem_cornersSeq.mpr ⟨u, t, v, rfl, derives_nil_iff.mp hu, hn⟩⟩

theorem leadsTo_of_corner {debt : Option (List (String × Int))} {sp : Option SrcSpan}
    {t : Element} (h : Cf.Corner (FormRule G) (.ref n debt sp) t)
    (hm : m ∈ corners (nameLang consuming G) t) : leadsTo (nameLang consuming G) G n m := by
  obtain ⟨u, v, hrule, hu⟩ := h
  rcases hrule with hrule | ⟨hnil, -⟩
  swap
  · simp at hnil
  generalize hβ : u ++ t :: v = β at hrule
  cases hrule with
  | sugar hs => cases hs
  | @ref p alt debt sp hp ha =>
    subst hβ
    exact ⟨p, hp, rfl, mem_cornersAlts.mpr
      ⟨_, ha, mem_cornersSeq.mpr ⟨u, t, v, rfl, derives_nil_iff.mp hu, hm⟩⟩⟩

theorem corners_ref (n : String) (debt : Option (List (String × Int))) (sp : Option SrcSpan) :
    corners L (.ref n debt sp) = {n} := by rw [corners]

theorem leads_of_corner {el t : Element} (h : Cf.Corner (FormRule G) el t) {c : String}
    (hc : c ∈ corners (nameLang consuming G) t)
    (hm : ReflTransGen (leadsTo (nameLang consuming G) G) c m) :
    (∃ c ∈ corners (nameLang consuming G) el,
      ReflTransGen (leadsTo (nameLang consuming G) G) c m) ∧
    ∀ n, el.refName = some n → TransGen (leadsTo (nameLang consuming G) G) n m := by
  cases hr : el.refName with
  | none =>
    have hel : el.isRef = false := by
      rw [Bool.eq_false_iff, Ne, Element.isRef_iff, hr]
      simp
    exact ⟨⟨c, corners_of_corner hel h hc, hm⟩, by simp⟩
  | some n =>
    obtain ⟨debt, sp, rfl⟩ := Element.refName_eq_some.mp hr
    have hstep := leadsTo_of_corner h hc
    refine ⟨⟨n, by rw [corners_ref]; rfl, .head hstep hm⟩, fun n' hn' => ?_⟩
    obtain rfl := Option.some.inj hn'
    exact TransGen.head' hstep hm

/-- Where an element leads, one of its corners leads; a reference takes a step more. -/
theorem leads_of_path {el : Element} {debt : Option (List (String × Int))}
    {sp : Option SrcSpan}
    (h : TransGen (Cf.Corner (FormRule G)) el (.ref m debt sp)) :
    (∃ c ∈ corners (nameLang consuming G) el,
      ReflTransGen (leadsTo (nameLang consuming G) G) c m) ∧
    ∀ n, el.refName = some n → TransGen (leadsTo (nameLang consuming G) G) n m := by
  induction h using TransGen.head_induction_on with
  | single h => exact leads_of_corner h (by rw [corners_ref]; rfl) .refl
  | head h _ ih =>
    obtain ⟨⟨c, hc, hm⟩, -⟩ := ih
    exact leads_of_corner h hc hm

mutual
/-- A corner of an element is reached from it. -/
theorem path_of_corners :
    ∀ {el : Element} {n : String}, n ∈ corners (nameLang consuming G) el →
      ∃ debt sp, ReflTransGen (Cf.Corner (FormRule G)) el (.ref n debt sp)
  | .ref m debt sp, n, h => by
    obtain rfl : n = m := by rwa [corners_ref] at h
    exact ⟨debt, sp, .refl⟩
  | .opt e sp, n, h => by
    have hn : n ∈ corners (nameLang consuming G) e := by simpa only [corners] using h
    obtain ⟨debt, sp', he⟩ := path_of_corners hn
    exact ⟨debt, sp', .head ⟨[], [], .inl (.sugar .optSome), .refl⟩ he⟩
  | .star e guard sp, n, h => by
    have hn : n ∈ corners (nameLang consuming G) e := by simpa only [corners] using h
    obtain ⟨debt, sp', he⟩ := path_of_corners hn
    exact ⟨debt, sp', .head ⟨[], [], .inl (.sugar (.star 1)), .refl⟩ he⟩
  | .plus e sp, n, h => by
    have hn : n ∈ corners (nameLang consuming G) e := by simpa only [corners] using h
    obtain ⟨debt, sp', he⟩ := path_of_corners hn
    exact ⟨debt, sp', .head ⟨[], [], .inl (.sugar (.plus 0)), .refl⟩ he⟩
  | .rep min max e sp, n, h => by
    simp only [corners] at h
    obtain ⟨hn, k, hmin, hmax⟩ := h
    obtain ⟨debt, sp', he⟩ := path_of_corners hn
    exact ⟨debt, sp', .head ⟨[], List.replicate k e, .inl (.sugar (.rep hmin hmax)), .refl⟩ he⟩
  | .group alts sp, n, h => by
    simp only [corners] at h
    obtain ⟨alt, ha, u, el, v, heq, hu, debt, sp', he⟩ := path_of_cornersAlts h
    subst heq
    exact ⟨debt, sp', .head ⟨u, v, .inl (.sugar (.group ha)), derives_nil_iff.mpr hu⟩ he⟩
  | .term .., n, h => by simp [corners] at h
  | .regex .., n, h => by simp [corners] at h
  | .token .., n, h => by simp [corners] at h
  | .prose .., n, h => by simp [corners] at h

theorem path_of_cornersSeq :
    ∀ {α : List Element} {n : String}, n ∈ cornersSeq (nameLang consuming G) α →
      ∃ u el v, α = u ++ el :: v ∧ (∀ x ∈ u, Vanishes (nameLang consuming G) x) ∧
        ∃ debt sp, ReflTransGen (Cf.Corner (FormRule G)) el (.ref n debt sp)
  | [], n, h => by simp [cornersSeq] at h
  | el :: rest, n, h => by
    simp only [cornersSeq] at h
    rcases h with h | ⟨hv, h⟩
    · exact ⟨[], el, rest, rfl, by simp, path_of_corners h⟩
    · obtain ⟨u, el', v, rfl, hu, hpath⟩ := path_of_cornersSeq h
      exact ⟨el :: u, el', v, rfl, by simpa using ⟨hv, hu⟩, hpath⟩

theorem path_of_cornersAlts :
    ∀ {alts : List (List Element)} {n : String}, n ∈ cornersAlts (nameLang consuming G) alts →
      ∃ alt ∈ alts, ∃ u el v, alt = u ++ el :: v ∧
        (∀ x ∈ u, Vanishes (nameLang consuming G) x) ∧
        ∃ debt sp, ReflTransGen (Cf.Corner (FormRule G)) el (.ref n debt sp)
  | [], n, h => by simp [cornersAlts] at h
  | alt :: rest, n, h => by
    simp only [cornersAlts] at h
    rcases h with h | h
    · exact ⟨alt, List.mem_cons_self, path_of_cornersSeq h⟩
    · obtain ⟨alt', ha, hpath⟩ := path_of_cornersAlts h
      exact ⟨alt', List.mem_cons_of_mem _ ha, hpath⟩
end

theorem path_of_leadsTo (h : leadsTo (nameLang consuming G) G n m)
    (debt : Option (List (String × Int))) (sp : Option SrcSpan) :
    ∃ debt' sp', TransGen (Cf.Corner (FormRule G)) (.ref n debt sp) (.ref m debt' sp') := by
  obtain ⟨p, hp, rfl, hm⟩ := h
  obtain ⟨alt, ha, u, el, v, rfl, hu, debt', sp', hpath⟩ := path_of_cornersAlts hm
  exact ⟨debt', sp', TransGen.head' ⟨u, v, .inl (.ref hp ha), derives_nil_iff.mpr hu⟩ hpath⟩

/-- **A name is left-recursive when it is on a cycle of left corners.** -/
theorem leftRecursive_iff :
    LeftRecursive G n ↔ TransGen (leadsTo (nameLang consuming G) G) n n := by
  constructor
  · rintro ⟨debt, sp, h⟩
    exact (leads_of_path (Cf.leftReaches_iff.mp h)).2 n rfl
  · intro h
    have key : ∀ {m}, TransGen (leadsTo (nameLang consuming G) G) n m →
        ∃ debt sp, TransGen (Cf.Corner (FormRule G)) (.ref n none none) (.ref m debt sp) := by
      intro m h
      induction h with
      | single h => exact path_of_leadsTo h none none
      | tail _ h ih =>
        obtain ⟨debt, sp, hpath⟩ := ih
        obtain ⟨debt', sp', hstep⟩ := path_of_leadsTo h debt sp
        exact ⟨debt', sp', hpath.trans hstep⟩
    obtain ⟨debt, sp, hpath⟩ := key h
    exact ⟨debt, sp, Cf.leftReaches_iff.mpr hpath⟩

end TabnasBnf
