import Mathlib.Algebra.Order.BigOperators.Group.List
import Mathlib.Algebra.Order.Group.Nat
import TabnasBnf.Lib.Checked
import TabnasBnf.Passes

/-!
# The charges of left-recursion elimination

Elimination counts what it adds in the deep sizes of elements, up to a cap that still decides.
Here these are compared with the sizes themselves (`deepSeq`).

* `deepSize_eq`: a capped count is the size or the cap.
* `chargeElements_eq`, `chargeExpansion_eq`: a charge refuses exactly what does not fit.
* `Paid`: what every step keeps, that all growth is counted and the count fits.
* `eliminateChecked_eq`: no subtraction of a run goes below zero.
* **`eliminateLeftRecursion_charges`**: all of this, and what a grammar can grow to.
-/

namespace TabnasBnf

/-! ## Sizes -/

mutual
/-- The deep size of an element. -/
def Element.deep : Element → Nat
  | .opt e _ | .star e _ _ | .plus e _ | .rep _ _ e _ => 1 + e.deep
  | .group alts _ => 1 + deepAlts alts
  | .term .. | .ref .. | .token .. | .prose .. | .regex .. => 1

/-- The deep size of a run of elements. -/
def deepSeq : List Element → Nat
  | [] => 0
  | el :: rest => el.deep + deepSeq rest

/-- The deep size of alternatives, each of which counts 1. -/
def deepAlts : List (List Element) → Nat
  | [] => 0
  | alt :: rest => 1 + deepSeq alt + deepAlts rest
end

/-- The deep size of a grammar's productions. -/
def deepProds (prods : List Production) : Nat := (prods.map fun p => deepAlts p.alts).sum

theorem deepSeq_eq_sum (α : List Element) : deepSeq α = (α.map Element.deep).sum := by
  induction α with
  | nil => rfl
  | cons el α ih => rw [deepSeq, ih, List.map_cons, List.sum_cons]

theorem deepAlts_eq_sum (alts : List (List Element)) :
    deepAlts alts = (alts.map fun alt => 1 + deepSeq alt).sum := by
  induction alts with
  | nil => rfl
  | cons alt alts ih => rw [deepAlts, ih, List.map_cons, List.sum_cons]

@[simp] theorem deepSeq_append (α β : List Element) : deepSeq (α ++ β) = deepSeq α + deepSeq β := by
  simp only [deepSeq_eq_sum, List.map_append, List.sum_append]

@[simp] theorem deepSeq_reverse (α : List Element) : deepSeq α.reverse = deepSeq α := by
  simp only [deepSeq_eq_sum, List.map_reverse, List.sum_reverse]

@[simp] theorem deepAlts_append (as bs : List (List Element)) :
    deepAlts (as ++ bs) = deepAlts as + deepAlts bs := by
  simp only [deepAlts_eq_sum, List.map_append, List.sum_append]

theorem deepAlts_eq_flatten (alts : List (List Element)) :
    deepAlts alts = alts.length + deepSeq alts.flatten := by
  induction alts with
  | nil => rfl
  | cons alt alts ih =>
    rw [deepAlts, ih, List.length_cons, List.flatten_cons, deepSeq_append]
    omega

theorem deep_eq_nested (el : Element) : el.deep = el.ownSize + deepSeq el.nested := by
  cases el with
  | group alts sp =>
    rw [Element.deep, Element.ownSize, Element.nested, deepAlts_eq_flatten]
    omega
  | _ => simp [Element.deep, Element.ownSize, Element.nested, deepSeq]

theorem ownSize_pos (el : Element) : 1 ≤ el.ownSize := by
  cases el <;> simp [Element.ownSize]

/-- A walk with fuel up to its cap counts what is left, or gives up at the cap. -/
theorem deepSizeWalk_eq {cap : Nat} : ∀ (fuel : Nat) (stack : List Element) (size : Nat),
    size ≤ cap → cap ≤ fuel + size →
      deepSizeWalk cap fuel stack size = min cap (size + deepSeq stack)
  | _, [], size, hsize, _ => by
    rw [deepSizeWalk, deepSeq, Nat.add_zero, Nat.min_eq_right hsize]
  | 0, el :: stack, size, hsize, hfuel => by
    rw [deepSizeWalk, Nat.min_eq_left (by omega)]
  | fuel + 1, el :: stack, size, hsize, hfuel => by
    have hown := ownSize_pos el
    have hdeep := deep_eq_nested el
    rw [deepSizeWalk, deepSeq]
    split
    next hover => rw [Nat.min_eq_left (by omega)]
    next hover =>
      rw [deepSizeWalk_eq fuel _ _ (by omega) (by omega), deepSeq_append, deepSeq_reverse, hdeep]
      congr 1
      omega

/-- **A capped count is the size or the cap.** -/
theorem deepSize_eq (elements : List Element) (cap : Nat) :
    deepSize elements cap = min cap (deepSeq elements) := by
  have hwalk := @deepSizeWalk_eq cap cap elements.reverse 0 (Nat.zero_le _) (Nat.le_refl _)
  rw [deepSize, hwalk, deepSeq_reverse, Nat.zero_add]

/-! ## The charge for a substitution -/

/-- What replacing one alternative adds: `m` alternatives that hold `held`, each with the tail. -/
def ledGain (source : Production) (alt : Sequence) : Nat :=
  source.alts.length * (1 + deepSeq alt.tail) + deepSeq source.alts.flatten -
    (2 + deepSeq alt.tail)

/-- What a substitution adds. -/
def elementsGain (target source : Production) : Nat :=
  ((target.alts.filter (leads source.name)).map (ledGain source)).sum

/-- What the charge counts for an alternative, in the room that is left. -/
def countedGain (source : Production) (room : Nat) (alt : Sequence) : Nat :=
  let tail := if source.alts.length > 1 then deepSize alt.tail (room + 2) else 0
  source.alts.length * (1 + tail) + deepSeq source.alts.flatten - (2 + tail)

/-- A capped tail makes no difference: the gain is what is counted, or both are too much. -/
theorem countedGain_eq (source : Production) (room : Nat) (alt : Sequence) :
    countedGain source room alt = ledGain source alt ∨
      (room < countedGain source room alt ∧ room < ledGain source alt) := by
  rw [countedGain, ledGain, deepSize_eq]
  generalize hheld : deepSeq source.alts.flatten = held
  generalize deepSeq alt.tail = tail
  match hm : source.alts.length with
  | 0 =>
    have hempty : source.alts = [] := List.eq_nil_of_length_eq_zero hm
    rw [hempty] at hheld
    have hzero : held = 0 := hheld.symm
    left
    simp [hzero]
  | 1 =>
    left
    simp only [Nat.lt_irrefl, gt_iff_lt, if_false]
    omega
  | m + 2 =>
    simp only [gt_iff_lt, show 1 < m + 2 by omega, if_true]
    have hmul : ∀ n, 2 * n ≤ (m + 2) * n := fun n => Nat.mul_le_mul_right n (by omega)
    by_cases hfits : tail ≤ room + 2
    · rw [Nat.min_eq_right hfits]
      exact .inl rfl
    · rw [Nat.min_eq_left (by omega)]
      have hcapped := hmul (1 + (room + 2))
      have htrue := hmul (1 + tail)
      exact .inr ⟨by omega, by omega⟩

/-- The loop over the alternatives is exact. -/
theorem chargeLed_eq {source : Production} {remaining : Nat} : ∀ (led : List Sequence) (gain : Nat),
    gain ≤ remaining →
      chargeLed source (deepSeq source.alts.flatten) remaining led gain =
        if gain + (led.map (ledGain source)).sum ≤ remaining
        then some (gain + (led.map (ledGain source)).sum) else none
  | [], gain, hgain => by
    rw [chargeLed, List.map_nil, List.sum_nil, Nat.add_zero, if_pos hgain]
  | alt :: led, gain, hgain => by
    have hstep : chargeLed source (deepSeq source.alts.flatten) remaining (alt :: led) gain =
        if gain + countedGain source (remaining - gain) alt > remaining then none
        else chargeLed source (deepSeq source.alts.flatten) remaining led
          (gain + countedGain source (remaining - gain) alt) := rfl
    rw [hstep, List.map_cons, List.sum_cons]
    obtain hexact | ⟨hcounted, htrue⟩ := countedGain_eq source (remaining - gain) alt
    · rw [hexact]
      by_cases hover : gain + ledGain source alt > remaining
      · rw [if_pos hover, if_neg (by omega)]
      · rw [if_neg hover, chargeLed_eq led _ (by omega), Nat.add_assoc]
    · rw [if_pos (by omega), if_neg (by omega)]

/-- What a source's alternatives hold is added but for the reference. -/
theorem held_le_ledGain {source : Production} (h : source.alts ≠ []) (alt : Sequence) :
    deepSeq source.alts.flatten ≤ ledGain source alt + 1 := by
  have hpos : 1 ≤ source.alts.length := List.length_pos_of_ne_nil h
  have hmul := Nat.mul_le_mul_right (1 + deepSeq alt.tail) hpos
  rw [ledGain]
  omega

/-- **A substitution is refused exactly when what it adds does not fit**, and else adds that. -/
theorem chargeElements_eq (diag : String) (target source : Production) (added : Nat) :
    (elementsGain target source ≤ maxLeftRecursionElements - added →
        chargeElements diag target source added = .ok (added + elementsGain target source)) ∧
      (maxLeftRecursionElements - added < elementsGain target source →
        ∃ e, chargeElements diag target source added = .error e) := by
  rw [chargeElements, deepSize_eq]
  generalize hremaining : maxLeftRecursionElements - added = remaining
  rw [elementsGain]
  generalize target.alts.filter (leads source.name) = led
  by_cases hled : led = []
  · subst hled
    simp [chargeLed]
  · have hnot : led.isEmpty = false := by simpa using hled
    by_cases hheld : deepSeq source.alts.flatten ≤ remaining + 1
    · rw [Nat.min_eq_right (by omega), if_neg (by simp [hheld]), chargeLed_eq led 0 (Nat.zero_le _),
        Nat.zero_add]
      refine ⟨fun hfits => by rw [if_pos hfits], fun hover => ?_⟩
      rw [if_neg (by omega)]
      exact ⟨_, rfl⟩
    · -- the alternatives of the source alone are too much
      obtain ⟨alt, halt⟩ := List.exists_mem_of_ne_nil led hled
      have hne : source.alts ≠ [] := by
        intro hempty
        rw [hempty] at hheld
        exact hheld (Nat.zero_le _)
      have hgain := held_le_ledGain hne alt
      have hsum : ledGain source alt ≤ (led.map (ledGain source)).sum :=
        List.single_le_sum (fun _ _ => Nat.zero_le _) _ (List.mem_map_of_mem halt)
      have hrefused : remaining + 1 < min (remaining + 2) (deepSeq source.alts.flatten) := by omega
      refine ⟨fun hfits => by omega, fun _ => ⟨_, if_pos ?_⟩⟩
      rw [hnot, Bool.not_false, Bool.true_and]
      exact decide_eq_true hrefused

/-! ## The charge for a split -/

/-- What splitting an alternative adds. -/
def expansionGain (alt present : Sequence) : Nat :=
  deepSeq (present ++ alt.tail) + 1 - deepSeq (alt.take 1)

/-- **A split is refused exactly when what it adds does not fit**, and else adds that; the leading
element is counted in a machine word. -/
theorem chargeExpansion_eq (diag : String) (prod : Production) (alt present : Sequence)
    (added : Nat) (hlead : deepSeq (alt.take 1) ≤ usizeMax) :
    (expansionGain alt present ≤ maxLeftRecursionElements - added →
        chargeExpansion diag prod alt present added = .ok (added + expansionGain alt present)) ∧
      (maxLeftRecursionElements - added < expansionGain alt present →
        ∃ e, chargeExpansion diag prod alt present added = .error e) := by
  rw [chargeExpansion, deepSize_eq, deepSize_eq, expansionGain, Nat.min_eq_right hlead]
  generalize maxLeftRecursionElements - added = remaining
  generalize deepSeq (alt.take 1) = lead
  generalize deepSeq (present ++ alt.tail) = written
  constructor
  · intro hfits
    rw [Nat.min_eq_right (by omega), if_neg (by omega)]
  · intro hover
    refine ⟨_, if_pos ?_⟩
    rcases Nat.le_total (remaining + lead + 2) written with hle | hle
    · rw [Nat.min_eq_left hle]
      omega
    · rw [Nat.min_eq_right hle]
      omega

/-! ## What the steps add -/

/-- Between two sizes and the totals counted there, all growth is counted, within the limit. -/
structure Paid (size added size' added' : Nat) : Prop where
  mono : added ≤ added'
  fits : added' ≤ maxLeftRecursionElements
  grows : size' + added ≤ size + added'

theorem Paid.refl {size added : Nat} (h : added ≤ maxLeftRecursionElements) :
    Paid size added size added := ⟨Nat.le_refl _, h, Nat.le_refl _⟩

theorem Paid.trans {s a s' a' s'' a'' : Nat} (h : Paid s a s' a') (h' : Paid s' a' s'' a'') :
    Paid s a s'' a'' := by
  obtain ⟨hmono, -, hgrows⟩ := h
  obtain ⟨hmono', hfits', hgrows'⟩ := h'
  exact ⟨by omega, hfits', by omega⟩

section

variable {diag : String} {keep cyclic : List String}

/-- A charged split adds no more than it counts, however large the leading element is. -/
theorem paid_chargeExpansion (size : Nat) {p : Production} {alt present : Sequence}
    {added n : Nat}
    (h : chargeExpansion diag p alt present added = .ok n)
    (hle : added ≤ maxLeftRecursionElements) :
    Paid size added (size + expansionGain alt present) n := by
  rw [chargeExpansion, deepSize_eq, deepSize_eq] at h
  rw [expansionGain]
  generalize hremaining : maxLeftRecursionElements - added = remaining at h
  generalize deepSeq (alt.take 1) = lead at h ⊢
  generalize deepSeq (present ++ alt.tail) = written at h ⊢
  split at h
  · cases h
  · obtain rfl := Except.ok.inj h
    exact ⟨by omega, by omega, by omega⟩

theorem deepAlts_split (before after : List Sequence) (el : Element) (rest present : Sequence) :
    deepAlts (before ++ [present ++ rest, rest] ++ after) ≤
      deepAlts (before ++ (el :: rest) :: after) + expansionGain (el :: rest) present := by
  have hgain : expansionGain (el :: rest) present =
      deepSeq present + deepSeq rest + 1 - el.deep := by
    simp only [expansionGain, List.tail_cons, deepSeq_append, List.take_succ_cons, List.take_zero,
      deepSeq, Nat.add_zero]
  rw [hgain]
  simp only [deepAlts_append, deepAlts, deepSeq_append, deepSeq]
  omega

theorem Paid.weaken {s a s' t a' : Nat} (h : Paid s a t a') (hle : s' ≤ t) : Paid s a s' a' :=
  ⟨h.mono, h.fits, (Nat.add_le_add_right hle a).trans h.grows⟩

theorem paid_splitHidden {p : Production} : ∀ (guard : Nat) {alts : List Sequence} {added : Nat}
    {r : List Sequence × Nat}, splitHidden diag p guard alts added = .ok r →
      added ≤ maxLeftRecursionElements → Paid (deepAlts alts) added (deepAlts r.1) r.2
  | 0, _, _, _, h, hle => by
    cases h
    exact .refl hle
  | guard + 1, alts, added, r, h, hle => by
    unfold splitHidden at h
    split at h
    · next before el rest after hspan =>
      have halts : alts = before ++ (el :: rest) :: after := eq_append_of_span hspan
      split at h
      · next present hpresent =>
        obtain ⟨added₁, hcharge, h⟩ := bind_eq_ok h
        have hpaid := paid_chargeExpansion (deepAlts alts) hcharge hle
        have hsplit : Paid (deepAlts alts) added
            (deepAlts (before ++ [present ++ rest, rest] ++ after)) added₁ :=
          hpaid.weaken (halts ▸ deepAlts_split before after el rest present)
        exact hsplit.trans (paid_splitHidden guard h hsplit.fits)
      · cases h
        exact .refl hle
    · cases h
      exact .refl hle

/-- A part is paid next to the others. -/
theorem Paid.add {s a s' a' : Nat} (h : Paid s a s' a') (n : Nat) :
    Paid (n + s) a (n + s') a' :=
  ⟨h.mono, h.fits, by have hgrows := h.grows; omega⟩

theorem deepProds_cons (p : Production) (prods : List Production) :
    deepProds (p :: prods) = deepAlts p.alts + deepProds prods := List.sum_cons

theorem paid_expandNullableLeftPrefixes : ∀ (prods : List Production) {added : Nat}
    {r : List Production × Nat}, expandNullableLeftPrefixes diag prods added = .ok r →
      added ≤ maxLeftRecursionElements → Paid (deepProds prods) added (deepProds r.1) r.2
  | [], _, _, h, hle => by
    cases h
    exact .refl hle
  | p :: prods, added, _, h, hle => by
    obtain ⟨⟨alts, added₁⟩, hsplit, h⟩ := bind_eq_ok h
    obtain ⟨⟨rest, added₂⟩, hrest, h⟩ := bind_eq_ok h
    cases h
    have hpaid := paid_splitHidden _ hsplit hle
    rw [deepProds_cons, deepProds_cons]
    refine Paid.trans ?_ ((paid_expandNullableLeftPrefixes prods hrest hpaid.fits).add _)
    rw [Nat.add_comm (deepAlts p.alts), Nat.add_comm (deepAlts alts)]
    exact hpaid.add _

theorem deepSeq_of_leads {name : String} {alt : Sequence} (h : leads name alt = true) :
    deepSeq alt = 1 + deepSeq alt.tail := by
  cases alt with
  | nil => cases h
  | cons el rest =>
    obtain ⟨debt, sp, rfl⟩ := Element.refName_eq_some.mp (Element.isRefTo_iff.mp h)
    rw [deepSeq, Element.deep, List.tail_cons]

theorem deepAlts_map_append (tail : Sequence) (alts : List Sequence) :
    deepAlts (alts.map (· ++ tail)) =
      alts.length * (1 + deepSeq tail) + deepSeq alts.flatten := by
  induction alts with
  | nil => rw [List.map_nil, deepAlts, List.length_nil, Nat.zero_mul, List.flatten_nil, deepSeq]
  | cons alt alts ih =>
    rw [List.map_cons, deepAlts, ih, deepSeq_append, List.length_cons, Nat.succ_mul,
      List.flatten_cons, deepSeq_append]
    omega

/-- A substitution writes what it adds. -/
theorem deepAlts_substituteLeadingRef (target source : Production) :
    deepAlts (substituteLeadingRef target source).alts ≤
      deepAlts target.alts + elementsGain target source := by
  show deepAlts (target.alts.flatMap _) ≤ _
  rw [elementsGain]
  induction target.alts with
  | nil => exact Nat.le_refl _
  | cons alt alts ih =>
    rw [List.flatMap_cons, deepAlts_append, deepAlts]
    by_cases hleads : leads source.name alt = true
    · rw [if_pos hleads, List.filter_cons_of_pos hleads, List.map_cons, List.sum_cons, ledGain,
        deepAlts_map_append, deepSeq_of_leads hleads]
      omega
    · rw [if_neg hleads, List.filter_cons_of_neg hleads]
      simp only [deepAlts]
      omega

theorem paid_chargeElements {target source : Production} {added n : Nat}
    (h : chargeElements diag target source added = .ok n)
    (hle : added ≤ maxLeftRecursionElements) :
    Paid (deepAlts target.alts) added (deepAlts (substituteLeadingRef target source).alts) n := by
  obtain ⟨hfits, hover⟩ := chargeElements_eq diag target source added
  have hwritten := deepAlts_substituteLeadingRef target source
  rcases Nat.lt_or_ge (maxLeftRecursionElements - added) (elementsGain target source) with hlt | hge
  · obtain ⟨e, he⟩ := hover hlt
    rw [he] at h
    cases h
  · obtain rfl := Except.ok.inj ((hfits hge).symm.trans h)
    exact ⟨by omega, by omega, by omega⟩

/-- A token in the place of a reference counts the same. -/
theorem deepAlts_substituteLeadingRefByToken (target : Production) (className : String) :
    deepAlts (substituteLeadingRefByToken target className).alts = deepAlts target.alts := by
  show deepAlts (target.alts.map _) = _
  rw [deepAlts_eq_sum, deepAlts_eq_sum, List.map_map]
  refine congrArg List.sum (List.map_congr_left fun alt _ => ?_)
  rw [Function.comp]
  split
  next hleads => rw [deepSeq_of_leads hleads, deepSeq, Element.deep]
  next => rfl

theorem paid_substitutePass : ∀ (earlier : List Production) {st st' : Substitution},
    substitutePass diag keep earlier st = .ok st' → st.added ≤ maxLeftRecursionElements →
      Paid (deepAlts st.target.alts) st.added (deepAlts st'.target.alts) st'.added
  | [], _, _, h, hle => by
    cases h
    exact .refl hle
  | source :: rest, st, st', h, hle => by
    unfold substitutePass at h
    split at h
    · exact paid_substitutePass rest h hle
    · split at h
      · have hpaid := paid_substitutePass rest h hle
        rwa [deepAlts_substituteLeadingRefByToken] at hpaid
      · obtain ⟨gained, -, h⟩ := bind_eq_ok h
        obtain ⟨added, hcharge, h⟩ := bind_eq_ok h
        have hpaid := paid_chargeElements hcharge hle
        exact hpaid.trans (paid_substitutePass rest h hpaid.fits)

theorem paid_substituteEarlier {earlier : List Production} : ∀ (guard : Nat)
    {st st' : Substitution}, substituteEarlier diag keep earlier guard st = .ok st' →
      st.added ≤ maxLeftRecursionElements →
      Paid (deepAlts st.target.alts) st.added (deepAlts st'.target.alts) st'.added
  | 0, _, _, h, hle => by
    cases h
    exact .refl hle
  | guard + 1, st, _, h, hle => by
    obtain ⟨st₁, hpass, h⟩ := bind_eq_ok h
    have hpaid := paid_substitutePass earlier hpass hle
    split at h
    · exact hpaid.trans (paid_substituteEarlier guard h hpaid.fits)
    · cases h
      exact hpaid

theorem paid_substituteInto {earlier : List Production} {guard added : Nat} {p : Production}
    {r : Production × Nat} (h : substituteInto diag keep cyclic earlier guard p added = .ok r)
    (hle : added ≤ maxLeftRecursionElements) :
    Paid (deepAlts p.alts) added (deepAlts r.1.alts) r.2 := by
  unfold substituteInto at h
  split at h
  · cases h
    exact .refl hle
  · obtain ⟨st, hst, h⟩ := bind_eq_ok h
    cases h
    exact paid_substituteEarlier guard hst hle

/-! ## What direct elimination adds -/

theorem deep_asElement (alts : List Sequence) : (asElement alts).deep ≤ 1 + deepAlts alts := by
  unfold asElement
  split
  · simp only [deepAlts, deepSeq]
    omega
  · exact Nat.le_refl _

/-- The alternatives, as direct elimination divides them: each tail it keeps lost its reference. -/
theorem deepAlts_divided (name : String) (alts : List Sequence) :
    deepAlts (alts.filter fun alt => !leads name alt) +
      (deepAlts (((alts.filter (leads name)).map List.tail).filter fun tail => !tail.isEmpty) +
        (((alts.filter (leads name)).map List.tail).filter fun tail => !tail.isEmpty).length) ≤
      deepAlts alts := by
  induction alts with
  | nil => exact Nat.le_refl _
  | cons alt alts ih =>
    rw [deepAlts]
    cases hleads : leads name alt with
    | false =>
      simp only [List.filter_cons, hleads, Bool.not_false, if_true, Bool.false_eq_true, if_false,
        deepAlts]
      omega
    | true =>
      have hsize := deepSeq_of_leads hleads
      rw [List.filter_cons_of_neg (by simp [hleads]), List.filter_cons_of_pos hleads,
        List.map_cons]
      cases hempty : alt.tail.isEmpty with
      | true =>
        rw [List.filter_cons_of_neg (by simp [hempty])]
        omega
      | false =>
        rw [List.filter_cons_of_pos (by simp [hempty]), deepAlts, List.length_cons]
        omega

/-- Direct elimination adds at most 3: two groups and the loop, and an alternative in the place of
one at least. -/
theorem deepAlts_eliminateDirectLeftRec {p : Production} {names : List String}
    {r : Production × List String} (h : eliminateDirectLeftRec diag p names = .ok r) :
    deepAlts r.1.alts ≤ deepAlts p.alts + 3 := by
  have hdivided := deepAlts_divided p.name p.alts
  unfold eliminateDirectLeftRec at h
  dsimp only at h
  generalize p.alts.filter (fun alt => !leads p.name alt) = seeds at h hdivided
  generalize ((p.alts.filter (leads p.name)).map List.tail).filter (fun tail => !tail.isEmpty) =
    tails at h hdivided
  split at h
  · cases h
    show deepAlts seeds ≤ _
    omega
  next htails =>
    split at h
    · cases h
    · cases h
      have hseed := deep_asElement seeds
      have htail := deep_asElement tails
      have hpos : 1 ≤ tails.length := List.length_pos_iff.mpr (by simpa using htails)
      simp only [Production.rebuilt, deepAlts, deepSeq, Element.deep]
      omega

/-- The main loop adds what it counts, and 3 for each production. -/
theorem deepProds_paull {guard : Nat} : ∀ (rest done : List Production) {added : Nat}
    {names : List String} {out : List Production},
      paull diag keep cyclic guard done rest added names = .ok out →
      added ≤ maxLeftRecursionElements →
      deepProds out + added ≤
        deepProds (done ++ rest) + maxLeftRecursionElements + 3 * rest.length
  | [], done, _, _, _, h, hle => by
    cases h
    rw [List.append_nil]
    simp only [List.length_nil]
    omega
  | p :: rest, done, _, _, _, h, hle => by
    obtain ⟨⟨p₁, added₁⟩, hsub, h⟩ := bind_eq_ok h
    obtain ⟨⟨p₂, names₂⟩, hdir, h⟩ := bind_eq_ok h
    obtain ⟨hmono, hfits, hgrows⟩ := paid_substituteInto hsub hle
    have hdirect := deepAlts_eliminateDirectLeftRec hdir
    have hrest := deepProds_paull rest (done ++ [p₂]) h hfits
    simp only [deepProds, List.map_append, List.map_cons, List.sum_append, List.sum_cons,
      List.map_nil, List.sum_nil, List.length_cons] at hrest ⊢
    dsimp only at hmono hfits hgrows hdirect
    omega

/-! ## The result -/

/-- Productions among others are no larger than these. -/
theorem deepProds_le {ps qs : List Production} (h : ps.Subperm qs) :
    deepProds ps ≤ deepProds qs := by
  obtain ⟨rs, hperm, hsub⟩ := h
  have hsum : deepProds ps = deepProds rs := (hperm.map _).sum_eq.symm
  rw [hsum]
  exact List.Sublist.sum_le_sum (hsub.map _) fun _ _ => Nat.zero_le _

/-- **A grammar grows by what is counted at most**, and by 3 for each production. -/
theorem deepProds_eliminate {grammar g' : Grammar}
    (h : eliminateLeftRecursionKeeping diag grammar keep = .ok g') :
    deepProds g'.productions ≤
      deepProds grammar.productions + maxLeftRecursionElements + 3 * grammar.productions.length := by
  obtain ⟨⟨expanded, added⟩, hexp, h⟩ := bind_eq_ok h
  obtain ⟨done, hpaull, h⟩ := bind_eq_ok h
  obtain rfl := Except.ok.inj h
  obtain ⟨-, hfits, hexpanded⟩ := paid_expandNullableLeftPrefixes _ hexp (Nat.zero_le _)
  have hcopies : deepProds (grammar.productions.map fun p => p.rebuilt p.alts) =
      deepProds grammar.productions := by
    rw [deepProds, List.map_map]
    rfl
  have hlength : expanded.length = grammar.productions.length := by
    have hnames := (expand_spec (τ := fun _ => (0 : Language Unit)) _ _ hexp).1
    simpa [namesOf] using congrArg List.length hnames
  -- the order takes each production once at most
  obtain ⟨hndTopo, hsub, -⟩ := topoOrderForPaull_names expanded
  have htopo : (topoOrderForPaull expanded).Subperm expanded :=
    List.subperm_of_subset (List.Nodup.of_map _ hndTopo) hsub
  have hdone := deepProds_paull _ [] hpaull hfits
  have hndDone : (namesOf done).Nodup := by
    rw [paull_names hpaull]
    exact hndTopo
  have hslots : slotsOf done = done := slotsOf_eq hndDone
  have htaken : deepProds (takeSlots grammar.names (slotsOf done)) = deepProds done := by
    rw [hslots]
    exact ((perm_takeSlots grammar.names hndDone).map _).sum_eq
  have hle := deepProds_le htopo
  have hcount := htopo.length_le
  show deepProds (takeSlots grammar.names (slotsOf done)) ≤ _
  rw [htaken]
  rw [hcopies] at hexpanded
  rw [List.nil_append] at hdone
  dsimp only at hexpanded
  omega

end

/-! ## Without underflow -/

section

/-- `chargeLed` with the subtraction it makes checked. -/
def chargeLedChecked (source : Production) (held remaining : Nat) :
    List Sequence → Nat → Option (Option Nat)
  | [], gain => some (some gain)
  | alt :: rest, gain => do
    let m := source.alts.length
    let tail ← (if m > 1 then
        (Checked.sub remaining gain).map fun room => deepSize alt.tail (room + 2)
      else some 0)
    let written := m * (1 + tail) + held
    let gain := gain + (written - (2 + tail))
    if gain > remaining then pure none else chargeLedChecked source held remaining rest gain

variable (diag : String)

/-- The refusal of `charge_elements`. -/
def elementsRefusal (target source : Production) (added remaining : Nat) : EmitError :=
  .at (diag ++ ": rule '" ++ target.name ++
    "' exceeds the left-recursion element limit of " ++ toString maxLeftRecursionElements ++
    " elements while inlining '" ++ source.name ++ "', which begins " ++
    toString (target.alts.filter (leads source.name)).length ++
    " of its alternatives and would add more than " ++
    toString remaining ++ " elements to the " ++ toString added ++
    " already added to the grammar. Factor '" ++ source.name ++
    "' out of the alternatives it begins.") target.name target.sp

/-- `chargeElements` with its subtractions checked. -/
def chargeElementsChecked (target source : Production) (added : Nat) :
    ExceptT EmitError Option Nat := do
  let remaining ← Checked.sub maxLeftRecursionElements added
  let ledAlts := target.alts.filter (leads source.name)
  let held := deepSize source.alts.flatten (remaining + 2)
  if !ledAlts.isEmpty && held > remaining + 1 then
    throw (elementsRefusal diag target source added remaining)
  else match ← chargeLedChecked source held remaining ledAlts 0 with
    | some gain => pure (added + gain)
    | none => throw (elementsRefusal diag target source added remaining)

/-- `chargeExpansion` with its subtraction checked: the one it takes off `lead` with saturates. -/
def chargeExpansionChecked (prod : Production) (alt present : Sequence) (added : Nat) :
    ExceptT EmitError Option Nat := do
  let _remaining ← Checked.sub maxLeftRecursionElements added
  ExceptT.mk (some (chargeExpansion diag prod alt present added))

/-- `splitHidden` with the subtractions checked. -/
def splitHiddenChecked (p : Production) :
    Nat → List Sequence → Nat → ExceptT EmitError Option (List Sequence × Nat)
  | 0, alts, added => pure (alts, added)
  | guard + 1, alts, added =>
    match alts.span fun alt => !isHiddenLeftRecursive alt p.name with
    | (before, (el :: rest) :: after) =>
      match nullableSugarPresent el with
      | some present => do
        let added ← chargeExpansionChecked diag p (el :: rest) present added
        splitHiddenChecked p guard (before ++ [present ++ rest, rest] ++ after) added
      | none => pure (alts, added)
    | _ => pure (alts, added)

/-- `expandNullableLeftPrefixes` with the subtractions checked. -/
def expandNullableLeftPrefixesChecked :
    List Production → Nat → ExceptT EmitError Option (List Production × Nat)
  | [], added => pure ([], added)
  | p :: rest, added => do
    let guard := (p.alts.map List.length).sum + 1
    let (alts, added) ← splitHiddenChecked diag p guard p.alts added
    let (rest, added) ← expandNullableLeftPrefixesChecked rest added
    pure ({ p with alts := alts } :: rest, added)

/-- `substitutePass` with the subtractions checked. -/
def substitutePassChecked (keep : List String) :
    List Production → Substitution → ExceptT EmitError Option Substitution
  | [], st => pure st
  | source :: rest, st =>
    if !hasLeadingRefTo st.target source.name then substitutePassChecked keep rest st
    else if keep.contains source.name then
      substitutePassChecked keep rest { st with
        target := substituteLeadingRefByToken st.target source.name, changed := true }
    else do
      let gained ← ExceptT.mk (some (chargeSubstitution diag st.target source st.gained))
      let added ← chargeElementsChecked diag st.target source st.added
      substitutePassChecked keep rest
        ⟨substituteLeadingRef st.target source, gained, added, true⟩

/-- `substituteEarlier` with the subtractions checked. -/
def substituteEarlierChecked (keep : List String) (earlier : List Production) :
    Nat → Substitution → ExceptT EmitError Option Substitution
  | 0, st => pure st
  | guard + 1, st => do
    let st ← substitutePassChecked diag keep earlier { st with changed := false }
    if st.changed then substituteEarlierChecked keep earlier guard st else pure st

/-- `substituteInto` with the subtractions checked. -/
def substituteIntoChecked (keep cyclic : List String) (earlier : List Production) (guard : Nat)
    (p : Production) (added : Nat) : ExceptT EmitError Option (Production × Nat) :=
  if exemptAlias p cyclic then pure (p, added)
  else do
    let st ← substituteEarlierChecked diag keep earlier guard ⟨p, 0, added, false⟩
    pure (st.target, st.added)

/-- `paull` with the subtractions checked. -/
def paullChecked (keep cyclic : List String) (guard : Nat) : List Production → List Production →
    Nat → List String → ExceptT EmitError Option (List Production)
  | done, [], _, _ => pure done
  | done, p :: rest, added, debtNames => do
    let (p, added) ← substituteIntoChecked diag keep cyclic done guard p added
    let (p, debtNames) ← ExceptT.mk (some (eliminateDirectLeftRec diag p debtNames))
    paullChecked keep cyclic guard (done ++ [p]) rest added debtNames

/-- `eliminateLeftRecursionKeeping` with the subtractions checked; `none` is an underflow. -/
def eliminateChecked (grammar : Grammar) (keep : List String) : Option (Except EmitError Grammar) :=
  ExceptT.run do
    let copies := grammar.productions.map fun p => p.rebuilt p.alts
    let (expanded, added) ← expandNullableLeftPrefixesChecked diag copies 0
    let prods := topoOrderForPaull expanded
    let cyclic := findLeadingRefCycleMembers prods
    let done ← paullChecked diag keep cyclic (prods.length + 1) [] prods added []
    pure { productions := takeSlots grammar.names (slotsOf done) }

end

section

variable {diag : String} {keep cyclic : List String}

theorem chargeLedChecked_eq {source : Production} {held remaining : Nat} :
    ∀ (led : List Sequence) {gain : Nat}, gain ≤ remaining →
      chargeLedChecked source held remaining led gain =
        some (chargeLed source held remaining led gain)
  | [], _, _ => rfl
  | alt :: led, gain, hle => by
    unfold chargeLedChecked chargeLed
    simp only [Checked.sub_eq hle, Option.map_some, ← apply_ite some, Option.bind_eq_bind,
      Option.bind_some]
    generalize ite (source.alts.length > 1) _ 0 = tail
    split
    · rfl
    · exact chargeLedChecked_eq led (by omega)

theorem chargeElementsChecked_eq {target source : Production} {added : Nat}
    (hle : added ≤ maxLeftRecursionElements) :
    chargeElementsChecked diag target source added =
      some (chargeElements diag target source added) := by
  unfold chargeElementsChecked chargeElements
  rw [Checked.sub_eq hle]
  change (if _ then _ else _) = some (if _ then _ else _)
  split
  · rfl
  · rw [chargeLedChecked_eq _ (Nat.zero_le _)]
    generalize chargeLed _ _ _ _ _ = gain
    cases gain with
    | some gain => rfl
    | none => rfl

theorem chargeExpansionChecked_eq {p : Production} {alt present : Sequence} {added : Nat}
    (hle : added ≤ maxLeftRecursionElements) :
    chargeExpansionChecked diag p alt present added =
      some (chargeExpansion diag p alt present added) := by
  rw [chargeExpansionChecked, Checked.sub_eq hle]
  rfl

theorem splitHiddenChecked_eq {p : Production} : ∀ (guard : Nat) {alts : List Sequence}
    {added : Nat}, added ≤ maxLeftRecursionElements →
      splitHiddenChecked diag p guard alts added = some (splitHidden diag p guard alts added)
  | 0, _, _, _ => rfl
  | guard + 1, alts, added, hle => by
    unfold splitHiddenChecked splitHidden
    generalize alts.span _ = cut
    obtain ⟨before, _ | ⟨_ | ⟨el, rest⟩, after⟩⟩ := cut
    · rfl
    · rfl
    · dsimp only
      cases nullableSugarPresent el with
      | none => rfl
      | some present =>
        exact Checked.bind_eq_some (chargeExpansionChecked_eq hle) fun _ hcharge =>
          splitHiddenChecked_eq guard (paid_chargeExpansion 0 hcharge hle).fits

theorem expandNullableLeftPrefixesChecked_eq : ∀ (prods : List Production) {added : Nat},
    added ≤ maxLeftRecursionElements →
      expandNullableLeftPrefixesChecked diag prods added =
        some (expandNullableLeftPrefixes diag prods added)
  | [], _, _ => rfl
  | _ :: prods, _, hle =>
    Checked.bind_eq_some (splitHiddenChecked_eq _ hle) fun _ hsplit =>
      Checked.bind_eq_some
        (expandNullableLeftPrefixesChecked_eq prods (paid_splitHidden _ hsplit hle).fits)
        fun _ _ => rfl

theorem substitutePassChecked_eq : ∀ (earlier : List Production) {st : Substitution},
    st.added ≤ maxLeftRecursionElements →
      substitutePassChecked diag keep earlier st = some (substitutePass diag keep earlier st)
  | [], _, _ => rfl
  | source :: rest, st, hle => by
    unfold substitutePassChecked substitutePass
    split
    · exact substitutePassChecked_eq rest hle
    · split
      · exact substitutePassChecked_eq rest hle
      · exact Checked.bind_eq_some rfl fun _ _ =>
          Checked.bind_eq_some (chargeElementsChecked_eq hle) fun _ hcharge =>
            substitutePassChecked_eq rest (paid_chargeElements hcharge hle).fits

theorem substituteEarlierChecked_eq {earlier : List Production} : ∀ (guard : Nat)
    {st : Substitution}, st.added ≤ maxLeftRecursionElements →
      substituteEarlierChecked diag keep earlier guard st =
        some (substituteEarlier diag keep earlier guard st)
  | 0, _, _ => rfl
  | guard + 1, st, hle => by
    refine Checked.bind_eq_some (substitutePassChecked_eq earlier hle) fun st₁ hpass => ?_
    have hfits := (paid_substitutePass earlier hpass hle).fits
    split
    · exact substituteEarlierChecked_eq guard hfits
    · rfl

theorem substituteIntoChecked_eq {earlier : List Production} {guard added : Nat} {p : Production}
    (hle : added ≤ maxLeftRecursionElements) :
    substituteIntoChecked diag keep cyclic earlier guard p added =
      some (substituteInto diag keep cyclic earlier guard p added) := by
  unfold substituteIntoChecked substituteInto
  split
  · rfl
  · exact Checked.bind_eq_some (substituteEarlierChecked_eq guard hle) fun _ _ => rfl

theorem paullChecked_eq {guard : Nat} : ∀ (rest done : List Production) {added : Nat}
    {names : List String}, added ≤ maxLeftRecursionElements →
      paullChecked diag keep cyclic guard done rest added names =
        some (paull diag keep cyclic guard done rest added names)
  | [], _, _, _, _ => rfl
  | _ :: rest, _, _, _, hle =>
    Checked.bind_eq_some (substituteIntoChecked_eq hle) fun _ hsub =>
      Checked.bind_eq_some rfl fun _ _ =>
        paullChecked_eq rest _ (paid_substituteInto hsub hle).fits

/-- **No subtraction of a run goes below zero.** -/
theorem eliminateChecked_eq (grammar : Grammar) :
    eliminateChecked diag grammar keep =
      some (eliminateLeftRecursionKeeping diag grammar keep) :=
  Checked.bind_eq_some (expandNullableLeftPrefixesChecked_eq _ (Nat.zero_le _)) fun _ hexp =>
    Checked.bind_eq_some
      (paullChecked_eq _ [] (paid_expandNullableLeftPrefixes _ hexp (Nat.zero_le _)).fits)
      fun _ _ => rfl

end

/-! ## The charges -/

/-- Whatever was added before it, a charge refuses a gain exactly when it does not fit into what
remains, and else adds it. -/
def Decides (charge : Nat → Except EmitError Nat) (gain : Nat) : Prop :=
  ∀ added ≤ maxLeftRecursionElements,
    ((∃ e, charge added = .error e) ↔ maxLeftRecursionElements - added < gain) ∧
      (gain ≤ maxLeftRecursionElements - added → charge added = .ok (added + gain))

theorem decides_of {charge : Nat → Except EmitError Nat} {gain : Nat}
    (h : ∀ added, (gain ≤ maxLeftRecursionElements - added → charge added = .ok (added + gain)) ∧
      (maxLeftRecursionElements - added < gain → ∃ e, charge added = .error e)) :
    Decides charge gain := by
  intro added _
  obtain ⟨hfits, hover⟩ := h added
  refine ⟨⟨?_, hover⟩, hfits⟩
  rintro ⟨e, he⟩
  by_contra hle
  rw [hfits (Nat.le_of_not_lt hle)] at he
  cases he

/-- **Elimination charges exactly.** A substitution and a split are refused exactly when what they
add does not fit, counted to the end; nothing is subtracted below zero; and an accepted grammar
grows by the limit at most, and by 3 for each production. The leading element of a split is a value
in memory, which a machine word counts. -/
theorem eliminateLeftRecursion_charges (diag : String) :
    (∀ target source, Decides (chargeElements diag target source) (elementsGain target source)) ∧
    (∀ prod alt present, deepSeq (alt.take 1) ≤ usizeMax →
      Decides (chargeExpansion diag prod alt present) (expansionGain alt present)) ∧
    ∀ grammar keep,
      eliminateChecked diag grammar keep =
        some (eliminateLeftRecursionKeeping diag grammar keep) ∧
      ∀ g', eliminateLeftRecursionKeeping diag grammar keep = .ok g' →
        deepProds g'.productions ≤ deepProds grammar.productions + maxLeftRecursionElements +
          3 * grammar.productions.length :=
  ⟨fun target source => decides_of (chargeElements_eq diag target source),
    fun prod alt present hlead =>
      decides_of fun added => chargeExpansion_eq diag prod alt present added hlead,
    fun grammar _ => ⟨eliminateChecked_eq grammar, fun _ => deepProds_eliminate⟩⟩

theorem eliminateLeftRecursion_charges_sum :
    Decides (chargeExpansion "bnf" { name := "e", alts := [] }
        [.opt (.lit "-") none, .reference "e", .lit "!"] [.lit "-"]) 2 ∧
      ∃ g', eliminateLeftRecursionKeeping "bnf" recursiveSum ["id"] = .ok g' ∧
        deepProds g'.productions ≤ 15 + maxLeftRecursionElements + 6 := by
  obtain ⟨-, hsplit, hrun⟩ := eliminateLeftRecursion_charges "bnf"
  obtain ⟨g', hg'⟩ := exists_ok
    (show (eliminateLeftRecursionKeeping "bnf" recursiveSum ["id"]).isOk = true by decide +kernel)
  exact ⟨hsplit _ [.opt (.lit "-") none, .reference "e", .lit "!"] [.lit "-"] (by decide), g', hg',
    (hrun recursiveSum ["id"]).2 g' hg'⟩

end TabnasBnf
