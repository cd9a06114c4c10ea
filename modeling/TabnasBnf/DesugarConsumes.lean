import TabnasBnf.DesugarLoops
import TabnasBnf.RepetitionCheck

/-!
# Desugaring keeps what may match nothing

Desugaring mints one helper a piece of sugar. A helper refers to rules of the source and to helpers
minted before it, a loop to itself besides, so the helpers that may match nothing are found in the
order they are minted (`Helpers`).

* `element_replaced`: the element that stands for a piece of sugar may match nothing exactly where
  the sugar may, and the loops minted for it consume.

A reference that names no rule of the source may be taken for a helper that is given its name
(`Uncaptured` rules it out); desugaring reserves the names of the rules alone.
-/

namespace TabnasBnf

open Desugar

/-- The helpers `ps`, in the order they are minted over the names `S`, of which `N` may match
nothing, and the rules of both that may. -/
inductive Helpers (verdict : Verdict) (S N : List String) : List Production → List String → Prop
  | nil : Helpers verdict S N [] N
  | helper {ps : List Production} {M : List String} {p : Production}
      (h : Helpers verdict S N ps M) (hnew : p.name ∉ S ++ namesOf ps)
      (hrefs : refsInAlts p.alts ⊆ S ++ namesOf ps) (hloop : p.repeatLoop = false) :
      Helpers verdict S N (ps ++ [p])
        (if someSequenceDerivesEmpty verdict M p.alts then M ++ [p.name] else M)
  | loop {ps : List Production} {M : List String} {p : Production} {x : Element}
      (h : Helpers verdict S N ps M) (hnew : p.name ∉ S ++ namesOf ps)
      (hrefs : x.refs ⊆ S ++ namesOf ps)
      (hitem : elementMayMatchWithoutConsuming verdict M x = false)
      (halts : p.alts = [[x, .reference p.name], []]) :
      Helpers verdict S N (ps ++ [p]) (M ++ [p.name])

/-- What is left of a helper: `M` is closed under it, and a loop's item consumes. -/
structure HelperConsumes (verdict : Verdict) (M : List String) (p : Production) : Prop where
  closed : someSequenceDerivesEmpty verdict M p.alts = true → p.name ∈ M
  item : p.repeatLoop = true → ∃ x, p.alts = [[x, .reference p.name], []] ∧
    elementMayMatchWithoutConsuming verdict M x = false

section

variable {verdict : Verdict} {S N M M' : List String} {ps : List Production}

theorem mem_append_singleton_of_ne {m n : String} (h : n ≠ m) : n ∈ M ++ [m] ↔ n ∈ M := by
  simp [h]

theorem mem_ite_append_singleton_of_ne {m n : String} {b : Bool} (h : n ≠ m) :
    n ∈ (if b then M ++ [m] else M) ↔ n ∈ M := by
  split
  · exact mem_append_singleton_of_ne h
  · exact Iff.rfl

/-- The helpers settle nothing about the names they are minted over. -/
theorem Helpers.agree (h : Helpers verdict S N ps M) : ∀ n ∈ S, n ∈ M ↔ n ∈ N := by
  induction h with
  | nil => exact fun n _ => Iff.rfl
  | @helper ps M p _ hnew _ _ ih =>
    intro n hn
    rw [mem_ite_append_singleton_of_ne, ih n hn]
    rintro rfl
    exact hnew (List.mem_append_left _ hn)
  | @loop ps M p x _ hnew _ _ _ ih =>
    intro n hn
    rw [mem_append_singleton_of_ne, ih n hn]
    rintro rfl
    exact hnew (List.mem_append_left _ hn)

theorem Helpers.subset (h : Helpers verdict S N ps M) : M ⊆ N ++ namesOf ps := by
  induction h with
  | nil => simp
  | @helper ps M p _ _ _ _ ih =>
    intro n hn
    rw [namesOf_append, ← List.append_assoc]
    split at hn
    · exact (List.mem_append.mp hn).elim (fun hn => List.mem_append_left _ (ih hn))
        (List.mem_append_right _)
    · exact List.mem_append_left _ (ih hn)
  | @loop ps M p x _ _ _ _ _ ih =>
    intro n hn
    rw [namesOf_append, ← List.append_assoc]
    exact (List.mem_append.mp hn).elim (fun hn => List.mem_append_left _ (ih hn))
      (List.mem_append_right _)

/-- Helpers refer to what was there before them. -/
theorem Helpers.refs (h : Helpers verdict S N ps M) :
    ∀ p ∈ ps, refsInAlts p.alts ⊆ S ++ namesOf ps := by
  have hgrow : ∀ {ps : List Production} {p : Production},
      S ++ namesOf ps ⊆ S ++ namesOf (ps ++ [p]) := by
    intro ps p
    rw [namesOf_append, ← List.append_assoc]
    exact List.subset_append_left _ _
  induction h with
  | nil => exact fun p hp => absurd hp List.not_mem_nil
  | @helper ps M p _ _ hrefs _ ih =>
    intro q hq
    rcases List.mem_append.mp hq with hq | hq
    · exact List.Subset.trans (ih q hq) hgrow
    · obtain rfl := List.mem_singleton.mp hq
      exact List.Subset.trans hrefs hgrow
  | @loop ps M p x _ _ hrefs _ halts ih =>
    intro q hq
    rcases List.mem_append.mp hq with hq | hq
    · exact List.Subset.trans (ih q hq) hgrow
    · obtain rfl := List.mem_singleton.mp hq
      rw [halts]
      intro n hn
      simp only [refsInAlts, refsIn, Element.reference, Element.refs, List.append_nil,
        List.mem_append, List.mem_singleton] at hn
      rcases hn with hn | rfl
      · exact hgrow (hrefs hn)
      · simp

/-- What holds of a helper goes on holding when `M` settles other names. -/
theorem HelperConsumes.mono {p : Production} (h : HelperConsumes verdict M p)
    (hrefs : ∀ n ∈ refsInAlts p.alts, n ∈ M' ↔ n ∈ M) (hname : p.name ∈ M → p.name ∈ M') :
    HelperConsumes verdict M' p := by
  refine ⟨fun hempty => hname (h.closed ?_), fun hloop => ?_⟩
  · rwa [someSequenceDerivesEmpty_congr p.alts hrefs] at hempty
  · obtain ⟨x, halts, hx⟩ := h.item hloop
    refine ⟨x, halts, ?_⟩
    unfold elementMayMatchWithoutConsuming at hx ⊢
    rw [elementDerivesEmpty_congr x fun n hn => hrefs n ?_]
    · exact hx
    · rw [halts]
      exact List.mem_append_left _ (List.mem_append_left _ hn)

/-- **`M` is closed under the helpers, and their loops consume.** -/
theorem Helpers.consumes (h : Helpers verdict S N ps M) : ∀ p ∈ ps, HelperConsumes verdict M p := by
  induction h with
  | nil => exact fun p hp => absurd hp List.not_mem_nil
  | @helper ps M p h hnew hrefs hloop ih =>
    intro q hq
    have hsame : ∀ n ∈ S ++ namesOf ps,
        n ∈ (if someSequenceDerivesEmpty verdict M p.alts then M ++ [p.name] else M) ↔ n ∈ M :=
      fun n hn => mem_ite_append_singleton_of_ne (by rintro rfl; exact hnew hn)
    rcases List.mem_append.mp hq with hq | hq
    · refine (ih q hq).mono (fun n hn => hsame n (h.refs q hq hn)) fun hmem => ?_
      exact (hsame q.name (List.mem_append_right _ (mem_namesOf.mpr ⟨q, hq, rfl⟩))).mpr hmem
    · obtain rfl := List.mem_singleton.mp hq
      refine ⟨fun hempty => ?_, fun h => absurd (hloop.symm.trans h) Bool.false_ne_true⟩
      rw [someSequenceDerivesEmpty_congr q.alts fun n hn => hsame n (hrefs hn)] at hempty
      rw [if_pos hempty]
      exact List.mem_append_right _ (List.mem_singleton_self _)
  | @loop ps M p x h hnew hrefs hitem halts ih =>
    intro q hq
    have hsame : ∀ n ∈ S ++ namesOf ps, n ∈ M ++ [p.name] ↔ n ∈ M :=
      fun n hn => mem_append_singleton_of_ne (by rintro rfl; exact hnew hn)
    rcases List.mem_append.mp hq with hq | hq
    · refine (ih q hq).mono (fun n hn => hsame n (h.refs q hq hn)) fun hmem => ?_
      exact List.mem_append_left _ hmem
    · obtain rfl := List.mem_singleton.mp hq
      refine ⟨fun _ => List.mem_append_right _ (List.mem_singleton_self _), fun _ =>
        ⟨x, halts, ?_⟩⟩
      unfold elementMayMatchWithoutConsuming at hitem ⊢
      rw [elementDerivesEmpty_congr x fun n hn => hsame n (hrefs hn)]
      exact hitem

end

namespace Desugar

variable {verdict : Verdict} {U V N M M₀ M₁ M₂ : List String} {d d₀ d₁ d₂ : Desugar} {inner : Element}

/-- No helper has taken the name of a reference that names no rule. -/
def Uncaptured (U V : List String) (d : Desugar) : Prop := ∀ n ∈ namesOf d.extra, n ∈ V → n ∈ U

/-- A state of the pass over the rules `U` and the references `V`, and the rules that may match
nothing. -/
structure Filled (verdict : Verdict) (U V N : List String) (d : Desugar) (M : List String) :
    Prop where
  helpers : Helpers verdict (U ++ V) N d.extra M
  used : namesOf d.extra ⊆ d.used
  rules : U ⊆ d.used
  nulls : N ⊆ U

/-- A run from one such state to another. -/
structure Fill (verdict : Verdict) (U V N : List String) (d : Desugar) (M : List String)
    (d' : Desugar) (M' : List String) : Prop where
  filled : Filled verdict U V N d' M'
  used : d.used ⊆ d'.used
  extra : namesOf d.extra ⊆ namesOf d'.extra
  fresh : ∀ n ∈ namesOf d'.extra, n ∈ namesOf d.extra ∨ n ∉ d.used
  agree : ∀ n ∈ (U ++ V) ++ namesOf d.extra, n ∈ M' ↔ n ∈ M

/-- A run that ends in an element that may match nothing as `b` says. -/
def Replaced (verdict : Verdict) (U V N : List String) (d : Desugar) (M : List String)
    (r : Element × Desugar) (b : Bool) : Prop :=
  ∃ M', Fill verdict U V N d M r.2 M' ∧ r.1.refs ⊆ (U ++ V) ++ namesOf r.2.extra ∧
    elementDerivesEmpty verdict M' r.1 = b

theorem Filled.refl (h : Filled verdict U V N d M) : Fill verdict U V N d M d M :=
  ⟨h, List.Subset.refl _, List.Subset.refl _, fun _ => .inl, fun _ _ => Iff.rfl⟩

theorem scope_mono (h : namesOf d.extra ⊆ namesOf d₁.extra) :
    (U ++ V) ++ namesOf d.extra ⊆ (U ++ V) ++ namesOf d₁.extra :=
  List.append_subset.mpr ⟨List.subset_append_left _ _, fun _ hn => List.mem_append_right _ (h hn)⟩

theorem Fill.trans (h₁ : Fill verdict U V N d M d₁ M₁) (h₂ : Fill verdict U V N d₁ M₁ d₂ M₂) :
    Fill verdict U V N d M d₂ M₂ where
  filled := h₂.filled
  used := List.Subset.trans h₁.used h₂.used
  extra := List.Subset.trans h₁.extra h₂.extra
  fresh := fun n hn => by
    rcases h₂.fresh n hn with hn | hn
    · exact h₁.fresh n hn
    · exact .inr fun hmem => hn (h₁.used hmem)
  agree := fun n hn => (h₂.agree n (scope_mono h₁.extra hn)).trans (h₁.agree n hn)

theorem Fill.replaced {r : Element × Desugar} {b : Bool} (h : Fill verdict U V N d M d₁ M₁)
    (hr : Replaced verdict U V N d₁ M₁ r b) : Replaced verdict U V N d M r b := by
  obtain ⟨M', hfill, hrefs, hb⟩ := hr
  exact ⟨M', h.trans hfill, hrefs, hb⟩

/-- Reserving a name changes nothing else. -/
theorem Filled.freshName (h : Filled verdict U V N d M) (hint : String) :
    Fill verdict U V N d M (d.freshName hint).2 M where
  filled := ⟨h.helpers, List.Subset.trans h.used (freshName_used d hint),
    List.Subset.trans h.rules (freshName_used d hint), h.nulls⟩
  used := freshName_used d hint
  extra := List.Subset.refl _
  fresh := fun _ => .inl
  agree := fun _ _ => Iff.rfl

/-- A name that was not used is new. -/
theorem Filled.new {name : String} (h : Filled verdict U V N d M) (hd : name ∉ d.used)
    (hV : name ∈ V → name ∈ U) : name ∉ (U ++ V) ++ namesOf d.extra := by
  simp only [List.mem_append, not_or]
  exact ⟨⟨fun hU => hd (h.rules hU), fun hm => hd (h.rules (hV hm))⟩, fun hm => hd (h.used hm)⟩

/-- A new name that is reserved stays new to the helpers of a run. -/
theorem Fill.new {name : String} (h : Fill verdict U V N d M d₁ M₁) (hd : name ∈ d.used)
    (hnew : name ∉ (U ++ V) ++ namesOf d.extra) : name ∉ (U ++ V) ++ namesOf d₁.extra := by
  intro hm
  rcases List.mem_append.mp hm with hm | hm
  · exact hnew (List.mem_append_left _ hm)
  · rcases h.fresh name hm with hm | hm
    · exact hnew (List.mem_append_right _ hm)
    · exact hm hd

/-- A helper is pushed under a reserved name. -/
theorem Fill.push (p : Production) {b : Bool} (h : Fill verdict U V N d M d₁ M₁)
    (hd : p.name ∉ d.used) (hd₁ : p.name ∈ d₁.used)
    (hnew : p.name ∉ (U ++ V) ++ namesOf d₁.extra)
    (hhelpers : Helpers verdict (U ++ V) N (d₁.extra ++ [p])
      (if b then M₁ ++ [p.name] else M₁)) :
    Replaced verdict U V N d M
      (.reference p.name, { d₁ with extra := d₁.extra ++ [p] }) b := by
  have hnames : namesOf (d₁.extra ++ [p]) = namesOf d₁.extra ++ [p.name] := namesOf_append _ _
  have hM : p.name ∉ M₁ := by
    intro hm
    rcases List.mem_append.mp (h.filled.helpers.subset hm) with hm | hm
    · exact hnew (List.mem_append_left _ (List.mem_append_left _ (h.filled.nulls hm)))
    · exact hnew (List.mem_append_right _ hm)
  refine ⟨_, ⟨⟨hhelpers, ?_, h.filled.rules, h.filled.nulls⟩, h.used, ?_, fun n hn => ?_,
    fun n hn => ?_⟩, fun n hn => ?_, ?_⟩
  · rw [hnames]
    exact List.append_subset.mpr ⟨h.filled.used, List.cons_subset.mpr ⟨hd₁, List.nil_subset _⟩⟩
  · rw [hnames]
    exact List.Subset.trans h.extra (List.subset_append_left _ _)
  · rw [hnames, List.mem_append, List.mem_singleton] at hn
    rcases hn with hn | rfl
    · exact h.fresh n hn
    · exact .inr hd
  · rw [mem_ite_append_singleton_of_ne, h.agree n hn]
    rintro rfl
    exact hnew (scope_mono h.extra hn)
  · obtain rfl := List.mem_singleton.mp hn
    rw [hnames]
    simp
  · show List.contains _ p.name = b
    cases b <;> simp [hM]

theorem Fill.helper (name : String) (alts : List Sequence) (repeatHelper : Bool)
    (h : Fill verdict U V N d M d₁ M₁) (hd : name ∉ d.used) (hd₁ : name ∈ d₁.used)
    (hnew : name ∉ (U ++ V) ++ namesOf d₁.extra)
    (hrefs : refsInAlts alts ⊆ (U ++ V) ++ namesOf d₁.extra) :
    Replaced verdict U V N d M (d₁.helper name alts repeatHelper)
      (someSequenceDerivesEmpty verdict M₁ alts) :=
  Fill.push { Production.helper name alts d₁.origin with repeatHelper := repeatHelper }
    h hd hd₁ hnew (.helper h.filled.helpers hnew hrefs rfl)

theorem Fill.loop {name : String} (guard : Option String) (h : Fill verdict U V N d M d₁ M₁)
    (hd : name ∉ d.used) (hd₁ : name ∈ d₁.used) (hnew : name ∉ (U ++ V) ++ namesOf d₁.extra)
    (hrefs : inner.refs ⊆ (U ++ V) ++ namesOf d₁.extra)
    (hitem : elementMayMatchWithoutConsuming verdict M₁ inner = false) :
    Replaced verdict U V N d M (d₁.repeatLoop name inner guard) true :=
  Fill.push { Production.helper name [[inner, .reference name], []] d₁.origin with
    repeatHelper := true, repeatLoop := true, debtGuard := guard }
    h hd hd₁ hnew (.loop h.filled.helpers hnew hrefs hitem rfl)

/-- What the last helper's name is taken for. -/
theorem Uncaptured.helper {name : String} {alts : List Sequence} {repeatHelper : Bool}
    (h : Uncaptured U V (d.helper name alts repeatHelper).2) :
    Uncaptured U V d ∧ (name ∈ V → name ∈ U) := by
  have hnames : namesOf (d.helper name alts repeatHelper).2.extra = namesOf d.extra ++ [name] :=
    namesOf_append _ _
  refine ⟨fun n hn => h n ?_, h name ?_⟩ <;> rw [hnames] <;> simp [*]

theorem Uncaptured.loop {name : String} {guard : Option String}
    (h : Uncaptured U V (d.repeatLoop name inner guard).2) :
    Uncaptured U V d ∧ (name ∈ V → name ∈ U) := by
  have hnames : namesOf (d.repeatLoop name inner guard).2.extra = namesOf d.extra ++ [name] :=
    namesOf_append _ _
  refine ⟨fun n hn => h n ?_, h name ?_⟩ <;> rw [hnames] <;> simp [*]

/-- Reserving a name takes none. -/
theorem Uncaptured.unreserve {hint : String} (h : Uncaptured U V (d.freshName hint).2) :
    Uncaptured U V d := fun n hn => h n hn

/-- A helper is pushed under the next fresh name. -/
theorem Filled.helper (hint : String) (alts : List Sequence) (repeatHelper : Bool)
    (h : Filled verdict U V N d M) (hrefs : refsInAlts alts ⊆ (U ++ V) ++ namesOf d.extra)
    (hcap : Uncaptured U V
      ((d.freshName hint).2.helper (d.freshName hint).1 alts repeatHelper).2) :
    Replaced verdict U V N d M ((d.freshName hint).2.helper (d.freshName hint).1 alts repeatHelper)
      (someSequenceDerivesEmpty verdict M alts) := by
  exact (h.freshName hint).helper _ alts repeatHelper (freshName_notMem d hint)
    (freshName_mem d hint) (h.new (freshName_notMem d hint) hcap.helper.2) hrefs

/-! ## The sugar -/

theorem sequenceDerivesEmpty_singleton (el : Element) :
    sequenceDerivesEmpty verdict M [el] = elementDerivesEmpty verdict M el := Bool.and_true _

theorem sequenceDerivesEmpty_copies (n : Nat) (β : Sequence) :
    sequenceDerivesEmpty verdict M (List.replicate n inner ++ β) =
      ((n == 0 || elementDerivesEmpty verdict M inner) && sequenceDerivesEmpty verdict M β) := by
  induction n with
  | zero => simp
  | succ n ih =>
    rw [List.replicate_succ, List.cons_append, sequenceDerivesEmpty, ih]
    cases elementDerivesEmpty verdict M inner <;> simp

theorem refs_copies (n : Nat) {β : Sequence} {S : List String} (h : inner.refs ⊆ S)
    (hβ : refsIn β ⊆ S) : refsInAlts [List.replicate n inner ++ β] ⊆ S := by
  intro m hm
  obtain ⟨α, hα, hm⟩ := mem_refsInAlts.mp hm
  obtain rfl := List.mem_singleton.mp hα
  obtain ⟨el, hel, hm⟩ := mem_refsIn.mp hm
  rcases List.mem_append.mp hel with hel | hel
  · rw [List.eq_of_mem_replicate hel] at hm
    exact h hm
  · exact hβ (mem_refsIn.mpr ⟨el, hel, hm⟩)

theorem refsIn_cons_subset {el : Element} {α : Sequence} {S : List String} :
    refsIn (el :: α) ⊆ S ↔ el.refs ⊆ S ∧ refsIn α ⊆ S := List.append_subset

theorem refsInAlts_cons_subset {α : Sequence} {alts : List Sequence} {S : List String} :
    refsInAlts (α :: alts) ⊆ S ↔ refsIn α ⊆ S ∧ refsInAlts alts ⊆ S := List.append_subset

/-- The references of an alternative of one element, beside an empty one or not. -/
theorem refsInAlts_single {S : List String} (h : inner.refs ⊆ S) :
    refsInAlts [[inner], []] ⊆ S := by
  simpa [refsInAlts, refsIn] using h

theorem nestStep_eq (nested : Option Element) : nestStep inner nested d =
    let group := d.freshName "group"
    let d₁ := (group.2.helper group.1 [inner :: nested.toList] false).2
    let opt := d₁.freshName ("opt_" ++ group.1)
    opt.2.helper opt.1 [[.reference group.1], []] true := rfl

theorem nestStep_replaced {nested : Option Element} (h : Filled verdict U V N d M)
    (hi : inner.refs ⊆ (U ++ V) ++ namesOf d.extra)
    (hn : refsIn nested.toList ⊆ (U ++ V) ++ namesOf d.extra)
    (hcap : Uncaptured U V (nestStep inner nested d).2) :
    Replaced verdict U V N d M (nestStep inner nested d) true := by
  rw [nestStep_eq] at hcap ⊢
  obtain ⟨M₁, hfill, hrefs, -⟩ := h.helper "group" [inner :: nested.toList] false
    (refsInAlts_cons_subset.mpr ⟨refsIn_cons_subset.mpr ⟨hi, hn⟩, List.nil_subset _⟩)
    hcap.helper.1.unreserve
  have hopt := hfill.filled.helper ("opt_" ++ (d.freshName "group").1)
    [[.reference (d.freshName "group").1], []] true
    (refsInAlts_single hrefs) hcap
  have htrue : someSequenceDerivesEmpty verdict M₁
      [[.reference (d.freshName "group").1], []] = true := by
    simp [someSequenceDerivesEmpty, sequenceDerivesEmpty]
  rw [htrue] at hopt
  exact hfill.replaced hopt

theorem names_nestOptionals : ∀ (n : Nat) (nested : Option Element) (d : Desugar),
    namesOf d.extra ⊆ namesOf (nestOptionals inner n nested d).2.extra
  | 0, _, _ => List.Subset.refl _
  | n + 1, nested, d => by
    rw [nestOptionals_succ]
    refine List.Subset.trans (fun m hm => ?_) (names_nestOptionals n _ _)
    simp [nestStep, Desugar.helper, Desugar.freshName, hm]

/-- The nested optionals may match nothing. -/
theorem nestOptionals_filled : ∀ (n : Nat) (nested : Option Element) {d : Desugar}
    {M : List String}, Filled verdict U V N d M → inner.refs ⊆ (U ++ V) ++ namesOf d.extra →
      refsIn nested.toList ⊆ (U ++ V) ++ namesOf d.extra →
      sequenceDerivesEmpty verdict M nested.toList = true →
      Uncaptured U V (nestOptionals inner n nested d).2 →
      ∃ M', Fill verdict U V N d M (nestOptionals inner n nested d).2 M' ∧
        refsIn (nestOptionals inner n nested d).1.toList ⊆
          (U ++ V) ++ namesOf (nestOptionals inner n nested d).2.extra ∧
        sequenceDerivesEmpty verdict M' (nestOptionals inner n nested d).1.toList = true
  | 0, _, _, M, h, _, hn, hempty, _ => ⟨M, h.refl, hn, hempty⟩
  | n + 1, nested, d, M, h, hi, hn, _, hcap => by
    rw [nestOptionals_succ] at hcap ⊢
    have hcap₁ : Uncaptured U V (nestStep inner nested d).2 :=
      fun m hm => hcap m (names_nestOptionals n _ _ hm)
    obtain ⟨M₁, hfill, hrefs, hb⟩ := nestStep_replaced h hi hn hcap₁
    obtain ⟨M', hfill', hrest⟩ := nestOptionals_filled n (some (nestStep inner nested d).1)
      hfill.filled (List.Subset.trans hi (scope_mono hfill.extra)) (by simpa [refsIn] using hrefs)
      (by simpa [sequenceDerivesEmpty] using hb) hcap
    exact ⟨M', hfill.trans hfill', hrest⟩

theorem sugar_plus (e : Element) (sp : Option SrcSpan) : d.sugar (.plus e sp) inner =
    let tail := d.freshName ("star_" ++ hintOf inner)
    let plus := tail.2.freshName ("plus_" ++ hintOf inner)
    (plus.2.repeatLoop tail.1 inner none).2.helper plus.1 [[inner, .reference tail.1]] false := rfl

theorem plus_replaced {e : Element} {sp : Option SrcSpan} (h : Filled verdict U V N d M)
    (hi : inner.refs ⊆ (U ++ V) ++ namesOf d.extra)
    (hitem : elementMayMatchWithoutConsuming verdict M inner = false)
    (hcap : Uncaptured U V (d.sugar (.plus e sp) inner).2) :
    Replaced verdict U V N d M (d.sugar (.plus e sp) inner) false := by
  rw [sugar_plus] at hcap ⊢
  let tail := d.freshName ("star_" ++ hintOf inner)
  let plus := tail.2.freshName ("plus_" ++ hintOf inner)
  have hfill : Fill verdict U V N d M plus.2 M :=
    (h.freshName _).trans ((h.freshName _).filled.freshName _)
  have htail : tail.1 ∈ plus.2.used := freshName_used _ _ (freshName_mem d _)
  have hplus : plus.1 ∉ tail.2.used := freshName_notMem _ _
  have hplusd : plus.1 ∉ d.used := fun hm => hplus (freshName_used _ _ hm)
  have hcap : Uncaptured U V ((plus.2.repeatLoop tail.1 inner none).2.helper plus.1
      [[inner, .reference tail.1]] false).2 := hcap
  have hcaps := hcap.helper
  obtain ⟨M₁, hloop, hrefs, -⟩ := hfill.loop none (freshName_notMem d _) htail
    (h.new (freshName_notMem d _) hcaps.1.loop.2) hi hitem
  have hnames : namesOf (plus.2.repeatLoop tail.1 inner none).2.extra =
      namesOf d.extra ++ [tail.1] := namesOf_append _ _
  have hnew : plus.1 ∉ (U ++ V) ++ namesOf (plus.2.repeatLoop tail.1 inner none).2.extra := by
    rw [hnames, ← List.append_assoc, List.mem_append, List.mem_singleton]
    rintro (hm | heq)
    · exact h.new hplusd hcaps.2 hm
    · exact hplus (heq ▸ freshName_mem d _)
  have hinner : elementDerivesEmpty verdict M₁ inner = false :=
    (elementDerivesEmpty_congr inner fun n hn => hloop.agree n (hi hn)).trans hitem
  have hbody := hloop.helper plus.1 [[inner, .reference tail.1]] false
    hplusd (freshName_mem _ _) hnew (refsInAlts_cons_subset.mpr ⟨refsIn_cons_subset.mpr
      ⟨List.Subset.trans hi (scope_mono hloop.extra),
        refsIn_cons_subset.mpr ⟨hrefs, List.nil_subset _⟩⟩, List.nil_subset _⟩)
  have hvalue : someSequenceDerivesEmpty verdict M₁ [[inner, .reference tail.1]] = false := by
    simp [someSequenceDerivesEmpty, sequenceDerivesEmpty, hinner]
  rwa [hvalue] at hbody

/-- The copies of a repetition, and a tail that may match nothing. -/
theorem copies_replaced {β : Sequence} {rep : String × Desugar} {min : Nat} {b : Bool}
    (h : Filled verdict U V N d M) (hrep : rep = d.freshName ("rep_" ++ hintOf inner))
    (hi : inner.refs ⊆ (U ++ V) ++ namesOf d.extra)
    (hb : elementDerivesEmpty verdict M inner = b)
    (hfill : Fill verdict U V N rep.2 M d₁ M₁)
    (hβ : refsIn β ⊆ (U ++ V) ++ namesOf d₁.extra)
    (hempty : sequenceDerivesEmpty verdict M₁ β = true)
    (hcap : Uncaptured U V (d₁.helper rep.1 [List.replicate min inner ++ β] false).2) :
    Replaced verdict U V N d M (d₁.helper rep.1 [List.replicate min inner ++ β] false)
      (min == 0 || b) := by
  subst hrep
  have hnew := hfill.new (freshName_mem d _) (h.new (freshName_notMem d _) hcap.helper.2)
  have hinner : elementDerivesEmpty verdict M₁ inner = b :=
    (elementDerivesEmpty_congr inner fun n hn => hfill.agree n (hi hn)).trans hb
  have hbody := ((h.freshName _).trans hfill).helper _ [List.replicate min inner ++ β]
    false (freshName_notMem d _) (hfill.used (freshName_mem d _)) hnew
    (refs_copies min (List.Subset.trans hi (scope_mono hfill.extra)) hβ)
  have hvalue : someSequenceDerivesEmpty verdict M₁ [List.replicate min inner ++ β] =
      (min == 0 || b) := by
    rw [someSequenceDerivesEmpty, someSequenceDerivesEmpty, Bool.or_false,
      sequenceDerivesEmpty_copies, hempty, hinner, Bool.and_true]
  rwa [hvalue] at hbody

/-- The sugar branches, on an element whose inner element was replaced. -/
theorem sugar_replaced {el e : Element} (he : el.inner = some e) (h : Filled verdict U V N d M)
    (hi : inner.refs ⊆ (U ++ V) ++ namesOf d.extra)
    (hb : elementDerivesEmpty verdict M inner = elementDerivesEmpty verdict N e)
    (hloops : el.LoopsConsume verdict N) (hcap : Uncaptured U V (d.sugar el inner).2) :
    Replaced verdict U V N d M (d.sugar el inner) (elementDerivesEmpty verdict N el) := by
  cases el with
  | opt e sp =>
    have hopt := h.helper ("opt_" ++ hintOf inner) [[inner], []] true
      (refsInAlts_single hi) hcap
    have htrue : someSequenceDerivesEmpty verdict M [[inner], []] = true := by
      simp [someSequenceDerivesEmpty, sequenceDerivesEmpty]
    rwa [htrue] at hopt
  | star e guard sp =>
    obtain rfl := Option.some.inj he
    exact (h.freshName ("star_" ++ hintOf inner)).loop guard (freshName_notMem d _) (freshName_mem d _)
      (h.new (freshName_notMem d _) hcap.loop.2) hi (hb.trans hloops.1)
  | plus e sp =>
    obtain rfl := Option.some.inj he
    have hitem : elementDerivesEmpty verdict N (.plus e sp) = false := hloops.1
    rw [hitem]
    exact plus_replaced h hi (hb.trans hloops.1) hcap
  | rep min max e sp =>
    obtain rfl := Option.some.inj he
    let rep := d.freshName ("rep_" ++ hintOf inner)
    have hrep : Filled verdict U V N rep.2 M := (h.freshName ("rep_" ++ hintOf inner)).filled
    cases max with
    | none =>
      let tail := rep.2.freshName ("star_" ++ hintOf inner)
      have hcap : Uncaptured U V ((tail.2.repeatLoop tail.1 inner none).2.helper rep.1
          [List.replicate min inner ++ [.reference tail.1]] false).2 := hcap
      have hfill := hrep.freshName ("star_" ++ hintOf inner)
      obtain ⟨M₁, hloop, hrefs, htrue⟩ := hfill.loop none (freshName_notMem rep.2 _)
        (freshName_mem rep.2 _) (hrep.new (freshName_notMem rep.2 _) hcap.helper.1.loop.2) hi
        (hb.trans hloops.1)
      exact copies_replaced h rfl hi hb hloop
        (refsIn_cons_subset.mpr ⟨hrefs, List.nil_subset _⟩)
        ((sequenceDerivesEmpty_singleton _).trans htrue) hcap
    | some max =>
      let nest := nestOptionals inner (max - min) none rep.2
      have hcap : Uncaptured U V (nest.2.helper rep.1
          [List.replicate min inner ++ nest.1.toList] false).2 := hcap
      obtain ⟨M₁, hnest, hrefs, htrue⟩ := nestOptionals_filled (max - min) none hrep hi
        (List.nil_subset _) rfl hcap.helper.1
      exact copies_replaced h rfl hi hb hnest hrefs htrue hcap
  | _ => cases he

/-! ## The pass -/

theorem Mints.names {C : List String} (h : Mints C d d₁) :
    namesOf d.extra ⊆ namesOf d₁.extra := by
  obtain ⟨ps, hps, -⟩ := h
  rw [hps, namesOf_append]
  exact List.subset_append_left _ _

/-- A run that ends in a sequence that may match nothing as `b` says. -/
def ReplacedSeq (verdict : Verdict) (U V N : List String) (d : Desugar) (M : List String)
    (r : List Element × Desugar) (b : Bool) : Prop :=
  ∃ M', Fill verdict U V N d M r.2 M' ∧ refsIn r.1 ⊆ (U ++ V) ++ namesOf r.2.extra ∧
    sequenceDerivesEmpty verdict M' r.1 = b

/-- The same of alternatives. -/
def ReplacedAlts (verdict : Verdict) (U V N : List String) (d : Desugar) (M : List String)
    (r : List (List Element) × Desugar) (b : Bool) : Prop :=
  ∃ M', Fill verdict U V N d M r.2 M' ∧ refsInAlts r.1 ⊆ (U ++ V) ++ namesOf r.2.extra ∧
    someSequenceDerivesEmpty verdict M' r.1 = b

/-- An element that stays may match nothing as before: the helpers settle nothing about it. -/
theorem Filled.same {el : Element} (h : Filled verdict U V N d M) (hV : el.refs ⊆ V) :
    Replaced verdict U V N d M (el, d) (elementDerivesEmpty verdict N el) := by
  have hrefs : el.refs ⊆ U ++ V := fun n hn => List.mem_append_right _ (hV hn)
  exact ⟨M, h.refl, fun n hn => List.mem_append_left _ (hrefs hn),
    elementDerivesEmpty_congr el fun n hn => h.helpers.agree n (hrefs hn)⟩

/-- A piece of sugar, once its inner element is replaced. -/
theorem Replaced.sugar {el e : Element} {r : Element × Desugar} (he : el.inner = some e)
    (hr : Replaced verdict U V N d M r (elementDerivesEmpty verdict N e))
    (hloops : el.LoopsConsume verdict N) (hcap : Uncaptured U V (r.2.sugar el r.1).2) :
    Replaced verdict U V N d M (r.2.sugar el r.1) (elementDerivesEmpty verdict N el) := by
  obtain ⟨M₁, hfill, hrefs, hb⟩ := hr
  exact hfill.replaced (sugar_replaced he hfill.filled hrefs hb hloops hcap)

theorem Uncaptured.sugar {el e : Element} (he : el.inner = some e)
    (h : Uncaptured U V (d.sugar el inner).2) : Uncaptured U V d := by
  have hmints := (sugar_mints (C := el.counters ++ inner.counters) (d := d) el (by rw [he]; rfl)
    (List.subset_append_left _ _) (List.subset_append_right _ _)).1
  exact fun n hn => h n (hmints.names hn)

mutual
theorem element_replaced : ∀ (el : Element) {d : Desugar} {M : List String}
    {r : Element × Desugar}, Filled verdict U V N d M → el.refs ⊆ V →
      el.LoopsConsume verdict N → element d el = .ok r → Uncaptured U V r.2 →
      Replaced verdict U V N d M r (elementDerivesEmpty verdict N el)
  | .prose .., _, _, _, _, _, _, h, _ => by cases h
  | .ref .., _, _, _, hd, hV, _, h, _ => by
    obtain rfl := Except.ok.inj h
    exact hd.same hV
  | .term .., _, _, _, hd, hV, _, h, _ => by
    obtain rfl := Except.ok.inj h
    exact hd.same hV
  | .regex .., _, _, _, hd, hV, _, h, _ => by
    obtain rfl := Except.ok.inj h
    exact hd.same hV
  | .token .., _, _, _, hd, hV, _, h, _ => by
    obtain rfl := Except.ok.inj h
    exact hd.same hV
  | .group alts _, _, _, _, hd, hV, hloops, h, hcap => by
    obtain ⟨⟨inner, d₁⟩, hinner, h⟩ := bind_eq_ok h
    obtain rfl := Except.ok.inj h
    obtain ⟨M₁, hfill, hrefs, hb⟩ := altList_replaced alts hd hV hloops hinner hcap.helper.1
    have hgroup := hfill.filled.helper "group" inner false hrefs hcap
    rw [hb] at hgroup
    exact hfill.replaced hgroup
  | .opt e sp, _, _, _, hd, hV, hloops, h, hcap => by
    obtain ⟨⟨inner, d₁⟩, hinner, h⟩ := bind_eq_ok h
    obtain rfl := Except.ok.inj h
    exact (element_replaced e hd hV hloops hinner (hcap.sugar rfl)).sugar rfl hloops hcap
  | .star e guard sp, _, _, _, hd, hV, hloops, h, hcap => by
    obtain ⟨⟨inner, d₁⟩, hinner, h⟩ := bind_eq_ok h
    obtain rfl := Except.ok.inj h
    exact (element_replaced e hd hV hloops.2 hinner (hcap.sugar rfl)).sugar rfl hloops hcap
  | .plus e sp, _, _, _, hd, hV, hloops, h, hcap => by
    obtain ⟨⟨inner, d₁⟩, hinner, h⟩ := bind_eq_ok h
    obtain rfl := Except.ok.inj h
    exact (element_replaced e hd hV hloops.2 hinner (hcap.sugar rfl)).sugar rfl hloops hcap
  | .rep min none e sp, _, _, _, hd, hV, hloops, h, hcap => by
    obtain ⟨⟨inner, d₁⟩, hinner, h⟩ := bind_eq_ok h
    obtain rfl := Except.ok.inj h
    exact (element_replaced e hd hV hloops.2 hinner (hcap.sugar rfl)).sugar rfl hloops hcap
  | .rep min (some max) e sp, _, _, _, hd, hV, hloops, h, hcap => by
    obtain ⟨⟨inner, d₁⟩, hinner, h⟩ := bind_eq_ok h
    obtain rfl := Except.ok.inj h
    exact (element_replaced e hd hV hloops hinner (hcap.sugar rfl)).sugar rfl hloops hcap

theorem alt_replaced : ∀ (α : List Element) {d : Desugar} {M : List String}
    {r : List Element × Desugar}, Filled verdict U V N d M → refsIn α ⊆ V →
      LoopsConsumeSeq verdict N α → alt d α = .ok r → Uncaptured U V r.2 →
      ReplacedSeq verdict U V N d M r (sequenceDerivesEmpty verdict N α)
  | [], _, M, _, hd, _, _, h, _ => by
    obtain rfl := Except.ok.inj h
    exact ⟨M, hd.refl, List.nil_subset _, rfl⟩
  | el :: α, _, _, _, hd, hV, hloops, h, hcap => by
    obtain ⟨⟨el', d₁⟩, hel, h⟩ := bind_eq_ok h
    obtain ⟨⟨α', d₂⟩, hα, h⟩ := bind_eq_ok h
    obtain rfl := Except.ok.inj h
    obtain ⟨hVe, hVα⟩ := refsIn_cons_subset.mp hV
    have hgrow := (alt_mints α (List.Subset.refl _) hα).1.names
    obtain ⟨M₁, hfill, hrefs, hb⟩ := element_replaced el hd hVe hloops.1 hel
      fun n hn => hcap n (hgrow hn)
    obtain ⟨M₂, hfill', hrefs', hb'⟩ := alt_replaced α hfill.filled hVα hloops.2 hα hcap
    refine ⟨M₂, hfill.trans hfill', refsIn_cons_subset.mpr
      ⟨List.Subset.trans hrefs (scope_mono hfill'.extra), hrefs'⟩, ?_⟩
    rw [sequenceDerivesEmpty, sequenceDerivesEmpty, hb',
      elementDerivesEmpty_congr el' fun n hn => hfill'.agree n (hrefs hn), hb]

theorem altList_replaced : ∀ (alts : List (List Element)) {d : Desugar} {M : List String}
    {r : List (List Element) × Desugar}, Filled verdict U V N d M → refsInAlts alts ⊆ V →
      LoopsConsumeAlts verdict N alts → altList d alts = .ok r → Uncaptured U V r.2 →
      ReplacedAlts verdict U V N d M r (someSequenceDerivesEmpty verdict N alts)
  | [], _, M, _, hd, _, _, h, _ => by
    obtain rfl := Except.ok.inj h
    exact ⟨M, hd.refl, List.nil_subset _, rfl⟩
  | α :: alts, _, _, _, hd, hV, hloops, h, hcap => by
    obtain ⟨⟨α', d₁⟩, hα, h⟩ := bind_eq_ok h
    obtain ⟨⟨alts', d₂⟩, halts, h⟩ := bind_eq_ok h
    obtain rfl := Except.ok.inj h
    obtain ⟨hVα, hVs⟩ := refsInAlts_cons_subset.mp hV
    have hgrow := (altList_mints alts (List.Subset.refl _) halts).1.names
    obtain ⟨M₁, hfill, hrefs, hb⟩ := alt_replaced α hd hVα hloops.1 hα
      fun n hn => hcap n (hgrow hn)
    obtain ⟨M₂, hfill', hrefs', hb'⟩ := altList_replaced alts hfill.filled hVs hloops.2 halts hcap
    refine ⟨M₂, hfill.trans hfill', refsInAlts_cons_subset.mpr
      ⟨List.Subset.trans hrefs (scope_mono hfill'.extra), hrefs'⟩, ?_⟩
    rw [someSequenceDerivesEmpty, someSequenceDerivesEmpty, hb',
      sequenceDerivesEmpty_congr α' fun n hn => hfill'.agree n (hrefs hn), hb]
end

/-- What desugaring leaves of a production: it may match nothing where it might before. -/
structure Rewritten (verdict : Verdict) (N M : List String) (p p' : Production) : Prop where
  name : p'.name = p.name
  repeatLoop : p'.repeatLoop = p.repeatLoop
  tailRepeat : p'.tailRepeat = p.tailRepeat
  probeHelper : p'.probeHelper = p.probeHelper
  empty : someSequenceDerivesEmpty verdict M p'.alts = someSequenceDerivesEmpty verdict N p.alts
  terminals : (∀ α ∈ p.alts, ∀ el ∈ α, el.isTerminal = true) → p'.alts = p.alts

theorem element_of_simple {el : Element} (h : el.isSimple = true) : element d el = .ok (el, d) := by
  cases el <;> first | rfl | cases h

theorem alt_of_simple : ∀ (α : List Element), (∀ el ∈ α, el.isSimple = true) →
    alt d α = .ok (α, d)
  | [], _ => rfl
  | el :: α, h => by
    obtain ⟨hel, hα⟩ := List.forall_mem_cons.mp h
    rw [alt, element_of_simple hel]
    show (alt d α >>= fun r => _) = _
    rw [alt_of_simple α hα]
    rfl

/-- Terminals and references are left as they are. -/
theorem altList_of_simple : ∀ (alts : List (List Element)), SimpleAlts alts →
    altList d alts = .ok (alts, d)
  | [], _ => rfl
  | α :: alts, h => by
    obtain ⟨hα, halts⟩ := List.forall_mem_cons.mp h
    rw [altList, alt_of_simple α hα]
    show (altList d alts >>= fun r => _) = _
    rw [altList_of_simple alts halts]
    rfl

theorem altList_terminals (alts : List (List Element))
    (h : ∀ α ∈ alts, ∀ el ∈ α, el.isTerminal = true) : altList d alts = .ok (alts, d) :=
  altList_of_simple alts fun α hα el hel => by rw [Element.isSimple, h α hα el hel, Bool.true_or]

theorem names_productions : ∀ (ps : List Production) {d : Desugar}
    {r : List Production × Desugar}, productions d ps = .ok r →
      namesOf d.extra ⊆ namesOf r.2.extra
  | [], _, _, h => by
    obtain rfl := Except.ok.inj h
    exact List.Subset.refl _
  | p :: ps, d, _, h => by
    obtain ⟨⟨alts, d₁⟩, halts, h⟩ := bind_eq_ok h
    obtain ⟨⟨rest, d₂⟩, hrest, h⟩ := bind_eq_ok h
    obtain rfl := Except.ok.inj h
    have hgrow : namesOf d.extra ⊆ namesOf d₁.extra :=
      (altList_mints p.alts (List.Subset.refl _) halts).1.names
    have hgrow' := names_productions ps hrest
    exact List.Subset.trans hgrow hgrow'

theorem Filled.origin (h : Filled verdict U V N d M) (origin : String) :
    Fill verdict U V N d M { d with origin := origin } M :=
  ⟨⟨h.helpers, h.used, h.rules, h.nulls⟩, List.Subset.refl _, List.Subset.refl _, fun _ => .inl,
    fun _ _ => Iff.rfl⟩

theorem Rewritten.mono {p p' : Production} (h : Rewritten verdict N M p p')
    (hsame : ∀ n ∈ refsInAlts p'.alts, n ∈ M₁ ↔ n ∈ M) : Rewritten verdict N M₁ p p' :=
  { h with empty := (someSequenceDerivesEmpty_congr p'.alts hsame).trans h.empty }

theorem productions_replaced : ∀ (ps : List Production) {d : Desugar} {M : List String}
    {r : List Production × Desugar}, Filled verdict U V N d M →
      (∀ p ∈ ps, refsInAlts p.alts ⊆ V ∧ LoopsConsumeAlts verdict N p.alts) →
      productions d ps = .ok r → Uncaptured U V r.2 →
      ∃ M', Fill verdict U V N d M r.2 M' ∧
        ∀ p' ∈ r.1, ∃ p ∈ ps, Rewritten verdict N M' p p' ∧
          refsInAlts p'.alts ⊆ (U ++ V) ++ namesOf r.2.extra
  | [], _, M, _, hd, _, h, _ => by
    obtain rfl := Except.ok.inj h
    exact ⟨M, hd.refl, fun _ hp => absurd hp List.not_mem_nil⟩
  | p :: ps, d, M, _, hd, hps, h, hcap => by
    obtain ⟨⟨alts, d₁⟩, halts, h⟩ := bind_eq_ok h
    obtain ⟨⟨rest, d₂⟩, hrest, h⟩ := bind_eq_ok h
    obtain rfl := Except.ok.inj h
    obtain ⟨⟨hV, hloops⟩, hps⟩ := List.forall_mem_cons.mp hps
    have horigin := hd.origin p.originOf
    obtain ⟨M₁, hfill, hrefs, hb⟩ := altList_replaced p.alts horigin.filled hV hloops halts
      fun n hn => hcap n (names_productions ps hrest hn)
    obtain ⟨M₂, hfill', hrest'⟩ := productions_replaced ps hfill.filled hps hrest hcap
    refine ⟨M₂, horigin.trans (hfill.trans hfill'), List.forall_mem_cons.mpr ⟨?_, fun p' hp' => ?_⟩⟩
    · have hp : Rewritten verdict N M₁ p { p.rebuilt alts with
          probeDispatch := p.probeDispatch, probeHelper := p.probeHelper,
          tailRepeat := p.tailRepeat, repeatHelper := p.repeatHelper, repeatLoop := p.repeatLoop,
          debtGuard := p.debtGuard } := by
        refine ⟨rfl, rfl, rfl, rfl, hb, fun hterm => ?_⟩
        rw [altList_terminals p.alts hterm] at halts
        exact (congrArg Prod.fst (Except.ok.inj halts)).symm
      exact ⟨p, List.mem_cons_self, hp.mono fun n hn => hfill'.agree n (hrefs hn),
        List.Subset.trans hrefs (scope_mono hfill'.extra)⟩
    · obtain ⟨q, hq, hrw⟩ := hrest' p' hp'
      exact ⟨q, List.mem_cons_of_mem _ hq, hrw⟩

end Desugar

/-- What desugaring leaves of a checked grammar: a set closed under it over which the loops consume.
What is no helper comes from the source. -/
structure DesugarConsumes (verdict : Verdict) (g g' : Grammar) (M : List String) : Prop where
  closed : NullClosed verdict M g'.productions
  loop : ∀ p ∈ g'.productions, p.repeatLoop = true → ∃ x,
    p.alts = [[x, .reference p.name], []] ∧ elementMayMatchWithoutConsuming verdict M x = false
  source : ∀ p' ∈ g'.productions, DesugarHelper p' ∨
    ∃ p ∈ g.productions, Rewritten verdict (nonConsumingRules verdict g.productions) M p p'

/-- **Desugaring a grammar that passed the check mints loops that consume.** -/
theorem desugar_consumes {verdict : Verdict} {g g' : Grammar}
    (hcheck : ∀ p ∈ g.productions,
      Consumes verdict (nonConsumingRules verdict g.productions) p)
    (hloop : ∀ p ∈ g.productions, p.repeatLoop = false)
    (hcap : ∀ n ∈ g.refs, n ∈ g'.names → n ∈ g.names) (h : desugar g = .ok g') :
    ∃ M, DesugarConsumes verdict g g' M := by
  obtain ⟨⟨users, d⟩, hrun, h⟩ := bind_eq_ok h
  obtain rfl := Except.ok.inj h
  let N := nonConsumingRules verdict g.productions
  have hstart : Filled verdict g.names g.refs N ⟨[], g.names, ""⟩ N :=
    ⟨.nil, List.nil_subset _, List.Subset.refl _, nullableRules_names⟩
  have hrefs : ∀ p ∈ g.productions,
      refsInAlts p.alts ⊆ g.refs ∧ LoopsConsumeAlts verdict N p.alts :=
    fun p hp => ⟨fun n hn => List.mem_flatMap.mpr ⟨p, hp, hn⟩, (hcheck p hp).loops⟩
  have huncaptured : Uncaptured g.names g.refs d := by
    intro n hn href
    refine hcap n href ?_
    show n ∈ namesOf (users ++ d.extra)
    rw [namesOf_append]
    exact List.mem_append_right _ hn
  have hcounters : ∀ p ∈ g.productions, p.repeatLoop = false ∧
      p.counters ⊆ g.productions.flatMap Production.counters :=
    fun p hp => ⟨hloop p hp, fun c hc => List.mem_flatMap.mpr ⟨p, hp, hc⟩⟩
  obtain ⟨⟨ps, hextra, hps⟩, -⟩ := productions_mints g.productions hcounters hrun
  obtain ⟨M, hfill, husers⟩ := productions_replaced g.productions hstart hrefs hrun huncaptured
  have hhelpers := hfill.filled.helpers.consumes
  refine ⟨M, fun p' hp' hempty => ?_, fun p' hp' hloop' => ?_, fun p' hp' => ?_⟩
  · rcases List.mem_append.mp hp' with hp' | hp'
    · obtain ⟨p, hp, hrw, -⟩ := husers p' hp'
      have hname : p.name ∈ N := nonConsumingRules_closed p hp (hrw.empty.symm.trans hempty)
      rw [hrw.name]
      exact (hfill.agree p.name (List.mem_append_left _ (List.mem_append_left _
        (mem_namesOf.mpr ⟨p, hp, rfl⟩)))).mpr hname
    · exact (hhelpers p' hp').closed hempty
  · rcases List.mem_append.mp hp' with hp' | hp'
    · obtain ⟨p, hp, hrw, -⟩ := husers p' hp'
      rw [hrw.repeatLoop, hloop p hp] at hloop'
      cases hloop'
    · exact (hhelpers p' hp').item hloop'
  · rcases List.mem_append.mp hp' with hp' | hp'
    · obtain ⟨p, hp, hrw, -⟩ := husers p' hp'
      exact .inr ⟨p, hp, hrw⟩
    · have hmem : p' ∈ ps := by
        rw [hextra] at hp'
        simpa using hp'
      exact .inl (hps p' hmem).1

end TabnasBnf
