import Mathlib.Algebra.BigOperators.Group.List.Basic
import Mathlib.Data.ENat.Lattice
import Mathlib.Data.List.TakeWhile
import Mathlib.Tactic.Ring
import TabnasBnf.LeftRec

/-!
# The splits that hidden left recursion needs

`expandNullableLeftPrefixes` splits one hidden recursion at a time, as often as its guard lets it.
How many splits an alternative needs depends on the sugar in front of its self-reference alone
(`splitsOf`): an element causes splits of its own and leaves what follows it in front some number
of times (`Element.weight`), which sugar inside of sugar makes more than one.

* `splitsOf_split`: a split takes one off.
* `splitsOf_le_length`: sugar that wraps no sugar needs no more splits than there are elements.
* **`expandNullableLeftPrefixes_hidden`**: what is returned has no hidden left recursion exactly
  when no production needs more splits than its guard has.
-/

namespace TabnasBnf

/-! ## Sugar in front of a self-reference -/

/-- Everything in `alt` before a reference to `name` is nullable sugar. -/
def reachesSelf (name : String) (alt : Sequence) : Bool := isHiddenFrom name true alt

variable {name : String} {el : Element} {rest : Sequence}

theorem nullableSugarPresent_of_refName {n : String} (h : el.refName = some n) :
    nullableSugarPresent el = none := by
  obtain ⟨debt, sp, rfl⟩ := Element.refName_eq_some.mp h
  rfl

theorem isHiddenLeftRecursive_cons : isHiddenLeftRecursive (el :: rest) name = true ↔
    (nullableSugarPresent el).isSome = true ∧ reachesSelf name rest = true := by
  unfold isHiddenLeftRecursive reachesSelf
  rw [isHiddenFrom]
  cases hr : el.refName with
  | some n => simp [nullableSugarPresent_of_refName hr]
  | none => cases nullableSugarPresent el <;> simp

theorem reachesSelf_cons (h : (nullableSugarPresent el).isSome = true) :
    reachesSelf name (el :: rest) = reachesSelf name rest := by
  have hr : el.refName = none := by
    by_contra hne
    obtain ⟨n, hn⟩ := Option.ne_none_iff_exists'.mp hne
    rw [nullableSugarPresent_of_refName hn] at h
    cases h
  have hsome : (nullableSugarPresent el).isNone = false := by
    rw [← Option.not_isSome, h]
    rfl
  unfold reachesSelf
  rw [isHiddenFrom, hr]
  dsimp only
  rw [hsome, if_neg Bool.false_ne_true]

/-! ## How many splits -/

/-- The weight of `n` optional copies of an item of weight `w`. -/
def repWeight (w : ℕ∞ × ℕ∞) : Nat → ℕ∞ × ℕ∞
  | 0 => (0, 1)
  | n + 1 => (1 + w.1 + w.2 * (repWeight w n).1, w.2 * (repWeight w n).2 + 1)

/-- The splits that an element in front of a recursion causes, and how often they leave what
follows it in front. A loop over nullable sugar is split without end. -/
def Element.weight : Element → ℕ∞ × ℕ∞
  | .opt inner _ => (1 + inner.weight.1, inner.weight.2 + 1)
  | .star inner _ _ | .rep 0 none inner _ =>
    if (nullableSugarPresent inner).isSome then (⊤, ⊤) else (1, 1)
  | .rep 0 (some (n + 1)) inner _ => repWeight inner.weight (n + 1)
  | _ => (0, 0)

/-- The splits until nothing that comes of an alternative is hidden left recursion. -/
def splitsOf (name : String) : Sequence → ℕ∞
  | [] => 0
  | el :: rest =>
    if isHiddenLeftRecursive (el :: rest) name then
      el.weight.1 + el.weight.2 * splitsOf name rest
    else 0

/-- The splits of all alternatives of a production. -/
def splitsAlts (name : String) (alts : List Sequence) : ℕ∞ := (alts.map (splitsOf name)).sum

/-- The guard of `expand_nullable_left_prefixes`. -/
def splitGuard (p : Production) : Nat := (p.alts.map List.length).sum + 1

theorem weight_of_not_sugar (h : nullableSugarPresent el = none) : el.weight = (0, 0) := by
  unfold nullableSugarPresent at h
  split at h <;> try cases h
  · split at h <;> cases h
    rfl
  · unfold Element.weight
    split <;> simp_all

theorem splitsOf_of_not_hidden {alt : Sequence} (h : isHiddenLeftRecursive alt name = false) :
    splitsOf name alt = 0 := by
  cases alt with
  | nil => rfl
  | cons el rest => rw [splitsOf, h, if_neg Bool.false_ne_true]

/-- In front of sugar up to the recursion, an element adds its weight. -/
theorem splitsOf_cons (hreach : reachesSelf name rest = true) :
    splitsOf name (el :: rest) = el.weight.1 + el.weight.2 * splitsOf name rest := by
  cases hsugar : nullableSugarPresent el with
  | some present =>
    rw [splitsOf, if_pos (isHiddenLeftRecursive_cons.mpr ⟨by rw [hsugar]; rfl, hreach⟩)]
  | none =>
    have hnot : ¬ isHiddenLeftRecursive (el :: rest) name = true := fun h => by
      have hsome := (isHiddenLeftRecursive_cons.mp h).1
      rw [hsugar] at hsome
      cases hsome
    rw [splitsOf, if_neg hnot, weight_of_not_sugar hsugar, zero_mul, add_zero]

/-- Sugar leaves what follows it in front at least once. -/
theorem weight_snd_ne_zero (h : (nullableSugarPresent el).isSome = true) : el.weight.2 ≠ 0 := by
  unfold nullableSugarPresent at h
  split at h
  · simp [Element.weight]
  · simp only [Element.weight]
    split <;> simp
  · split at h
    · cases h
    · simp only [Element.weight]
      split <;> simp
    · simp [Element.weight, repWeight]
    · simp [Element.weight, repWeight]
  · cases h

/-- Before sugar and what follows it, an item adds its weight. -/
theorem splitsOf_cons_cons {inner : Element} (hreach : reachesSelf name rest = true)
    (hsugar : (nullableSugarPresent el).isSome = true) :
    splitsOf name (inner :: el :: rest) = inner.weight.1 +
      inner.weight.2 * (el.weight.1 + el.weight.2 * splitsOf name rest) := by
  rw [splitsOf_cons ((reachesSelf_cons hsugar).trans hreach), splitsOf_cons hreach]

/-- A loop: over sugar nothing is ever enough. -/
theorem splitsOf_loop {inner : Element} (hreach : reachesSelf name rest = true)
    (hsugar : (nullableSugarPresent el).isSome = true)
    (hweight : el.weight = if (nullableSugarPresent inner).isSome then (⊤, ⊤) else (1, 1)) :
    splitsOf name (el :: rest) =
      1 + splitsOf name ([inner, el] ++ rest) + splitsOf name rest := by
  rw [List.cons_append, List.singleton_append, splitsOf_cons_cons hreach hsugar,
    splitsOf_cons hreach, hweight]
  cases hinner : nullableSugarPresent inner with
  | some present =>
    have hne : inner.weight.2 ≠ 0 := weight_snd_ne_zero (by rw [hinner]; rfl)
    simp [ENat.mul_top hne]
  | none =>
    rw [weight_of_not_sugar hinner]
    simp

/-- **A split takes one off.** -/
theorem splitsOf_split {present : Sequence} (hpresent : nullableSugarPresent el = some present)
    (hreach : reachesSelf name rest = true) :
    splitsOf name (el :: rest) =
      1 + splitsOf name (present ++ rest) + splitsOf name rest := by
  have hsugar : (nullableSugarPresent el).isSome = true := by rw [hpresent]; rfl
  unfold nullableSugarPresent at hpresent
  split at hpresent
  · -- `[ inner ]`
    next inner sp =>
    obtain rfl := Option.some.inj hpresent
    rw [List.singleton_append, splitsOf_cons hreach, splitsOf_cons hreach, Element.weight]
    ring
  · obtain rfl := Option.some.inj hpresent
    exact splitsOf_loop hreach hsugar (by rw [Element.weight])
  · next max inner sp =>
    match max with
    | some 0 => cases hpresent
    | none =>
      obtain rfl := Option.some.inj hpresent
      exact splitsOf_loop hreach hsugar (by rw [Element.weight])
    | some 1 =>
      obtain rfl := Option.some.inj hpresent
      rw [List.singleton_append, splitsOf_cons hreach, splitsOf_cons hreach, Element.weight,
        repWeight, repWeight]
      ring
    | some (n + 2) =>
      -- one copy, and one optional copy less behind it
      obtain rfl := Option.some.inj hpresent
      rw [List.cons_append, List.singleton_append, splitsOf_cons_cons hreach (by
        cases n <;> rfl), splitsOf_cons hreach, Element.weight, Element.weight, repWeight]
      ring
  · cases hpresent

/-! ## The guard -/

theorem splitsAlts_append (as bs : List Sequence) :
    splitsAlts name (as ++ bs) = splitsAlts name as + splitsAlts name bs := by
  unfold splitsAlts
  rw [List.map_append, List.sum_append]

theorem splitsAlts_cons (alt : Sequence) (alts : List Sequence) :
    splitsAlts name (alt :: alts) = splitsOf name alt + splitsAlts name alts := List.sum_cons

theorem splitsAlts_eq_zero {alts : List Sequence}
    (h : ∀ alt ∈ alts, isHiddenLeftRecursive alt name = false) : splitsAlts name alts = 0 := by
  refine List.sum_eq_zero fun n hn => ?_
  obtain ⟨alt, halt, rfl⟩ := List.mem_map.mp hn
  exact splitsOf_of_not_hidden (h alt halt)

/-- Where the loop splits: at the first hidden recursion, one split less being needed after it. -/
theorem span_hidden (name : String) (alts : List Sequence) :
    (∀ alt ∈ alts, isHiddenLeftRecursive alt name = false) ∧
        (alts.span fun alt => !isHiddenLeftRecursive alt name) = (alts, []) ∨
      ∃ before el rest after present,
        (alts.span fun alt => !isHiddenLeftRecursive alt name) =
          (before, (el :: rest) :: after) ∧
        nullableSugarPresent el = some present ∧
        isHiddenLeftRecursive (el :: rest) name = true ∧
        splitsAlts name alts =
          1 + splitsAlts name (before ++ [present ++ rest, rest] ++ after) := by
  have happend := List.takeWhile_append_dropWhile
    (p := fun alt => !isHiddenLeftRecursive alt name) (l := alts)
  rw [List.span_eq_takeWhile_dropWhile]
  generalize alts.takeWhile _ = before at happend
  cases hdrop : alts.dropWhile fun alt => !isHiddenLeftRecursive alt name with
  | nil =>
    rw [hdrop, List.append_nil] at happend
    refine .inl ⟨fun alt halt => ?_, by rw [happend]⟩
    simpa using List.dropWhile_eq_nil_iff.mp hdrop alt halt
  | cons alt after =>
    refine .inr ?_
    have hhidden : isHiddenLeftRecursive alt name = true := by
      have hhead := List.head_dropWhile_not (fun alt => !isHiddenLeftRecursive alt name)
        (l := alts) (by rw [hdrop]; exact List.cons_ne_nil _ _)
      simpa [hdrop] using hhead
    rw [hdrop] at happend
    cases alt with
    | nil => cases hhidden
    | cons el rest =>
      obtain ⟨hsugar, hreach⟩ := isHiddenLeftRecursive_cons.mp hhidden
      obtain ⟨present, hpresent⟩ := Option.isSome_iff_exists.mp hsugar
      refine ⟨before, el, rest, after, present, rfl, hpresent, hhidden, ?_⟩
      rw [← happend, splitsAlts_append, splitsAlts_cons, splitsOf_split hpresent hreach,
        splitsAlts_append, splitsAlts_append, splitsAlts_cons, splitsAlts_cons]
      simp only [splitsAlts, List.map_nil, List.sum_nil]
      ring

/-- Sugar that wraps no sugar is split once. -/
theorem weight_le_one (h : ∀ inner ∈ el.nested, nullableSugarPresent inner = none) :
    el.weight.1 ≤ 1 ∧ el.weight.2 ≤ 1 := by
  unfold Element.weight
  split
  · next inner sp =>
    rw [weight_of_not_sugar (h inner List.mem_cons_self)]
    simp
  · next inner _ _ =>
    rw [h inner List.mem_cons_self]
    simp
  · next inner _ =>
    rw [h inner List.mem_cons_self]
    simp
  · next n inner sp =>
    rw [weight_of_not_sugar (h inner List.mem_cons_self), repWeight]
    simp
  · simp

/-- Where no sugar wraps sugar, an alternative has at least as many elements as it needs splits. -/
theorem splitsOf_le_length : ∀ {alt : Sequence},
    (∀ el ∈ alt, ∀ inner ∈ el.nested, nullableSugarPresent inner = none) →
      splitsOf name alt ≤ alt.length
  | [], _ => le_refl _
  | el :: rest, h => by
    obtain ⟨hel, hrest⟩ := List.forall_mem_cons.mp h
    obtain ⟨hown, hcopies⟩ := weight_le_one hel
    rw [splitsOf, List.length_cons, Nat.cast_add, Nat.cast_one, add_comm (rest.length : ℕ∞)]
    split
    · exact add_le_add hown ((mul_le_mul' hcopies (splitsOf_le_length hrest)).trans
        (one_mul _).le)
    · exact zero_le

variable {diag : String}

/-- The loop leaves no hidden recursion exactly when its guard is enough. -/
theorem splitHidden_iff {p : Production} : ∀ (guard : Nat) {alts : List Sequence} {added : Nat}
    {r : List Sequence × Nat}, splitHidden diag p guard alts added = .ok r →
      ((∀ alt ∈ r.1, isHiddenLeftRecursive alt p.name = false) ↔
        splitsAlts p.name alts ≤ guard)
  | 0, alts, _, _, h => by
    cases h
    constructor
    · intro hall
      rw [splitsAlts_eq_zero hall]
      exact le_refl _
    · intro hle
      rcases span_hidden p.name alts with
        ⟨hall, -⟩ | ⟨before, el, rest, after, present, -, -, -, hsum⟩
      · exact hall
      · rw [hsum] at hle
        simp at hle
  | guard + 1, alts, added, r, h => by
    unfold splitHidden at h
    rcases span_hidden p.name alts with
      ⟨hall, hspan⟩ | ⟨before, el, rest, after, present, hspan, hpresent, hhidden, hsum⟩
    · rw [hspan] at h
      cases h
      exact iff_of_true hall (by rw [splitsAlts_eq_zero hall]; exact zero_le)
    · rw [hspan] at h
      dsimp only at h
      rw [hpresent] at h
      obtain ⟨added₁, -, h⟩ := bind_eq_ok h
      rw [splitHidden_iff guard h, hsum, add_comm 1, Nat.cast_add, Nat.cast_one]
      exact (ENat.add_le_add_iff_right (by simp)).symm

/-- **Nothing returned is hidden left recursive exactly when no production needs more splits than
its guard has.** -/
theorem expandNullableLeftPrefixes_hidden : ∀ {prods : List Production} {added : Nat}
    {r : List Production × Nat}, expandNullableLeftPrefixes diag prods added = .ok r →
      ((∀ p ∈ r.1, ∀ alt ∈ p.alts, isHiddenLeftRecursive alt p.name = false) ↔
        ∀ p ∈ prods, splitsAlts p.name p.alts ≤ splitGuard p)
  | [], _, _, h => by
    cases h
    simp
  | p :: prods, added, _, h => by
    obtain ⟨⟨alts, added₁⟩, hsplit, h⟩ := bind_eq_ok h
    obtain ⟨⟨rest, added₂⟩, hrest, h⟩ := bind_eq_ok h
    cases h
    rw [List.forall_mem_cons, List.forall_mem_cons, expandNullableLeftPrefixes_hidden hrest]
    exact and_congr_left fun _ => splitHidden_iff _ hsplit

/-- `A = [ [ [ [ [ "x" ] ] ] ] ] A / "y"`. -/
def nestedOptions : Production where
  name := "A"
  alts := [[.opt (.opt (.opt (.opt (.opt (.lit "x") none) none) none) none) none, .reference "A"],
    [.lit "y"]]

theorem expandNullableLeftPrefixes_nestedOptions :
    ∃ r, expandNullableLeftPrefixes "bnf" [nestedOptions] 0 = .ok r ∧
      ∃ p ∈ r.1, ∃ alt ∈ p.alts, isHiddenLeftRecursive alt p.name = true := by
  obtain ⟨r, hr⟩ := exists_ok
    (show (expandNullableLeftPrefixes "bnf" [nestedOptions] 0).isOk = true by decide +kernel)
  have hhidden : ((expandNullableLeftPrefixes "bnf" [nestedOptions] 0).toOption.any fun r =>
      r.1.any fun p => p.alts.any fun alt => isHiddenLeftRecursive alt p.name) = true := by
    decide +kernel
  rw [hr] at hhidden
  obtain ⟨p, hp, hany⟩ := List.any_eq_true.mp hhidden
  exact ⟨r, hr, p, hp, List.any_eq_true.mp hany⟩

theorem expandNullableLeftPrefixes_hidden_nestedOptions :
    ∃ r, expandNullableLeftPrefixes "bnf" [nestedOptions] 0 = .ok r ∧
      ((∀ p ∈ r.1, ∀ alt ∈ p.alts, isHiddenLeftRecursive alt p.name = false) ↔
        ∀ p ∈ [nestedOptions], splitsAlts p.name p.alts ≤ splitGuard p) := by
  obtain ⟨r, hr⟩ := exists_ok
    (show (expandNullableLeftPrefixes "bnf" [nestedOptions] 0).isOk = true by decide +kernel)
  exact ⟨r, hr, expandNullableLeftPrefixes_hidden hr⟩

end TabnasBnf
