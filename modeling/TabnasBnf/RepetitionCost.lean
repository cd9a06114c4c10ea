import TabnasBnf.Desugar
import TabnasBnf.Lib.Checked
import TabnasBnf.RepetitionCheck

/-!
# What a repetition expands to

Desugaring writes `m*n` as `m` copies of its item and `repeatHelpers m n` helper productions. The
check on repetitions counts both ahead of it, in one total over the grammar (`Grammar.expansion`).

* **`counts_validateProductions`**: the check accepts within `MAX_REPEAT_EXPANSION` alone, and
  refuses on account of it (`ExpansionRefusal`) beyond it alone.
* **`validateRepetitionsChecked_eq`**: no step of the count leaves the machine's integers.
-/

namespace TabnasBnf

/-! ## The total -/

/-- The helper productions of `m*n`: its own, and a loop or two for each optional copy. -/
def repeatHelpers (min : Nat) (max : Option Nat) : Nat :=
  1 + match max with
    | none => 1
    | some max => 2 * (max - min)

/-- The copies and the helper productions of `m*n`. -/
def repeatExpansion (min : Nat) (max : Option Nat) : Nat := min + repeatHelpers min max

mutual
/-- What the bounded repetitions of an element expand to. -/
def Element.expansion : Element → Nat
  | .rep min max e _ => repeatExpansion min max + e.expansion
  | .opt e _ | .star e _ _ | .plus e _ => e.expansion
  | .group alts _ => expansionAlts alts
  | _ => 0

/-- The same of a sequence. -/
def expansionSeq : List Element → Nat
  | [] => 0
  | el :: rest => el.expansion + expansionSeq rest

/-- The same of alternatives. -/
def expansionAlts : List (List Element) → Nat
  | [] => 0
  | alt :: rest => expansionSeq alt + expansionAlts rest
end

/-- What the bounded repetitions of a grammar expand to. -/
def Grammar.expansion (grammar : Grammar) : Nat :=
  (grammar.productions.map fun p => expansionAlts p.alts).sum

/-- The charge is what is written, if that fits. -/
theorem repeatCost_eq (min : Nat) (max : Option Nat) (remaining : Nat) :
    repeatCost min max remaining = if repeatExpansion min max ≤ remaining then
      some (repeatExpansion min max) else none := by
  unfold repeatCost repeatExpansion repeatHelpers
  cases max with
  | none =>
    dsimp only
    split
    · rw [if_neg (by simp_all; omega)]
    · split
      · rw [if_neg (by omega)]
      · rw [if_pos (by omega)]
        congr 1
        omega
  | some max =>
    dsimp only
    split
    · rw [if_neg (by simp_all; omega)]
    · split
      · rw [if_neg (by omega)]
      · simp only [Bool.or_eq_true, decide_eq_true_eq, not_or, not_lt] at *
        rw [if_pos (by omega)]
        congr 1
        omega

/-! ## The refusals -/

section

variable (diag : String)

/-- The text of a refusal on account of expansion. -/
def expansionText (min : Nat) (max : Option Nat) : String :=
  "exceeds the repetition expansion limit of " ++ toString maxRepeatExpansion ++
    " while expanding '" ++ toString min ++ "*" ++ (max.map toString).getD "" ++
    "'. Split the repetition into named rules or lower its " ++ "bounds."

/-- The refusal is on account of expansion. -/
def ExpansionRefusal (e : EmitError) : Prop :=
  ∃ el prod min max, e = refuse diag el prod (expansionText min max)

variable {diag}

theorem head_expansionText (min : Nat) (max : Option Nat) :
    (expansionText min max).toList.head? = some 'e' := by
  unfold expansionText
  generalize toString maxRepeatExpansion = limit, toString min = low,
    (max.map toString).getD "" = high
  rw [String.append_assoc, String.append_assoc, String.append_assoc, String.append_assoc,
    String.append_assoc, String.append_assoc, String.toList_append]
  rfl

/-- Every other refusal says what the rule has. -/
theorem not_expansionRefusal {rule text : String} {sp : Option SrcSpan}
    (h : text.toList[2]? = some 'h') :
    ¬ ExpansionRefusal diag (.at (diag ++ ": rule '" ++ rule ++ text) rule sp) := by
  rintro ⟨el, prod, min, max, heq⟩
  have hrule : some rule = some prod.originOf := congrArg EmitError.rule heq
  have hmessage : diag ++ ": rule '" ++ rule ++ text =
      diag ++ ": rule '" ++ prod.originOf ++ ("' " ++ expansionText min max) :=
    (congrArg EmitError.message heq).trans String.append_assoc
  rw [Option.some.inj hrule, String.append_right_inj] at hmessage
  have hhead : (expansionText min max).toList[0]? = some 'e' := by
    rw [← List.head?_eq_getElem?, head_expansionText]
  rw [hmessage, String.toList_append, List.getElem?_append_right (by decide)] at h
  exact absurd (hhead.symm.trans h) (by decide)

theorem not_expansionRefusal_refuse {el : Element} {prod : Production} {text : String}
    (h : text.toList.head? = some 'h') : ¬ ExpansionRefusal diag (refuse diag el prod text) := by
  have hrefuse : refuse diag el prod text = .at (diag ++ ": rule '" ++ prod.originOf ++
      ("' " ++ text)) prod.originOf (el.sp <|> prod.sp) :=
    congrArg (EmitError.at · _ _) String.append_assoc
  rw [hrefuse]
  refine not_expansionRefusal ?_
  rw [String.toList_append, List.getElem?_append_right (by decide), ← h, List.head?_eq_getElem?]
  rfl

/-! ## The count -/

variable (diag) in
/-- What a count from `n` says of a part that expands to `k`: the total when it goes on, too much
when it is refused on account of it. -/
def Counts (n k : Nat) : Except EmitError Nat → Prop
  | .ok m => m = n + k ∧ m ≤ maxRepeatExpansion
  | .error e => ExpansionRefusal diag e → maxRepeatExpansion < n + k

theorem Counts.shift {n k k' : Nat} {x : Except EmitError Nat} (h : Counts diag (n + k) k' x) :
    Counts diag n (k + k') x := by
  cases x with
  | error e => exact fun he => (h he).trans_eq (Nat.add_assoc n k k')
  | ok m => exact ⟨h.1.trans (Nat.add_assoc n k k'), h.2⟩

theorem Counts.bind {n k k' : Nat} {x : Except EmitError Nat} {f : Nat → Except EmitError Nat}
    (hx : Counts diag n k x) (hf : ∀ m, m ≤ maxRepeatExpansion → Counts diag m k' (f m)) :
    Counts diag n (k + k') (x >>= f) := by
  cases x with
  | error e => exact fun he => (hx he).trans_le (by omega)
  | ok m =>
    obtain ⟨rfl, hle⟩ := hx
    exact (hf _ hle).shift

/-- A check that counts nothing, and fails otherwise. -/
theorem Counts.check {n k : Nat} {u : Except EmitError Unit} {x : Except EmitError Nat}
    (hu : ∀ e, u = .error e → ¬ ExpansionRefusal diag e) (hx : Counts diag n k x) :
    Counts diag n k (u >>= fun _ => x) := by
  cases u with
  | error e => exact fun he => absurd he (hu e rfl)
  | ok _ => exact hx

variable {verdict : Verdict} {nullable : List String} {prod : Production}

theorem checkItem_error {el inner : Element} {e : EmitError}
    (h : checkItem diag verdict nullable prod el inner = .error e) : ¬ ExpansionRefusal diag e := by
  unfold checkItem at h
  split at h
  · obtain rfl := Except.error.inj h
    refine not_expansionRefusal_refuse ?_
    rw [String.toList_append]
    rfl
  · cases h

/-- What does not fit is refused on account of expansion. -/
theorem chargeRepeat_error {el : Element} {min : Nat} {max : Option Nat} {n : Nat} {e : EmitError}
    (h : chargeRepeat diag prod el min max n = .error e) : ExpansionRefusal diag e := by
  unfold chargeRepeat at h
  split at h
  · cases h
  · exact ⟨el, prod, min, max, (Except.error.inj h).symm⟩

theorem counts_chargeRepeat {el : Element} {min : Nat} {max : Option Nat} {n : Nat}
    (hn : n ≤ maxRepeatExpansion) :
    Counts diag n (repeatExpansion min max) (chargeRepeat diag prod el min max n) := by
  unfold chargeRepeat
  rw [repeatCost_eq]
  by_cases hfits : repeatExpansion min max ≤ maxRepeatExpansion - n
  · rw [if_pos hfits]
    exact ⟨rfl, by omega⟩
  · rw [if_neg hfits]
    exact fun _ => by omega

mutual
/-- The walk counts what the repetitions expand to. -/
theorem counts_walk : ∀ (el : Element) {n : Nat}, n ≤ maxRepeatExpansion →
    Counts diag n el.expansion (walkRepetitions diag verdict nullable prod el n)
  | .group alts _, _, hn => counts_walkAlts alts hn
  | .opt inner _, _, hn => counts_walk inner hn
  | .star inner _ _, _, hn => .check (fun _ => checkItem_error) (counts_walk inner hn)
  | .plus inner _, _, hn => .check (fun _ => checkItem_error) (counts_walk inner hn)
  | .rep _ none inner _, _, hn =>
    .check (fun _ => checkItem_error) ((counts_chargeRepeat hn).bind fun _ => counts_walk inner)
  | .rep _ (some _) inner _, _, hn => (counts_chargeRepeat hn).bind fun _ => counts_walk inner
  | .term .., _, hn | .ref .., _, hn | .token .., _, hn | .prose .., _, hn | .regex .., _, hn =>
    ⟨rfl, hn⟩

theorem counts_walkSeq : ∀ (α : List Element) {n : Nat}, n ≤ maxRepeatExpansion →
    Counts diag n (expansionSeq α) (walkRepetitionsSeq diag verdict nullable prod α n)
  | [], _, hn => ⟨rfl, hn⟩
  | el :: α, _, hn => (counts_walk el hn).bind fun _ => counts_walkSeq α

theorem counts_walkAlts : ∀ (alts : List (List Element)) {n : Nat}, n ≤ maxRepeatExpansion →
    Counts diag n (expansionAlts alts) (walkRepetitionsAlts diag verdict nullable prod alts n)
  | [], _, hn => ⟨rfl, hn⟩
  | α :: alts, _, hn => (counts_walkSeq α hn).bind fun _ => counts_walkAlts alts
end

theorem checkVocab_error {grammar : Grammar} {e : EmitError} : ∀ {els : List Element},
    checkVocab diag verdict nullable grammar prod els = .error e → ¬ ExpansionRefusal diag e
  | [], h => by cases h
  | el :: els, h => by
    unfold checkVocab at h
    split at h
    · generalize (probeVocabOrigin grammar prod el).getD (prod.originOf, prod.sp) = source at h
      obtain ⟨rule, sourceSp⟩ := source
      obtain rfl := Except.error.inj h
      rw [@String.append_assoc (diag ++ ": rule '" ++ rule)]
      refine not_expansionRefusal ?_
      rw [String.toList_append]
      rfl
    · exact checkVocab_error h

theorem checkProbeHelper_error {grammar : Grammar} {e : EmitError}
    (h : checkProbeHelper diag verdict nullable grammar prod = .error e) :
    ¬ ExpansionRefusal diag e := by
  unfold checkProbeHelper at h
  split at h
  · exact checkVocab_error h
  · cases h

theorem checkTailRepeat_error {e : EmitError}
    (h : checkTailRepeat diag verdict nullable prod = .error e) : ¬ ExpansionRefusal diag e := by
  unfold checkTailRepeat checkTail at h
  split at h
  · dsimp only at h
    split at h
    · cases h
    · split at h
      · obtain rfl := Except.error.inj h
        refine not_expansionRefusal_refuse ?_
        rw [String.toList_append]
        rfl
      · cases h
  · cases h

theorem counts_validateProduction {grammar : Grammar} {n : Nat} (hn : n ≤ maxRepeatExpansion) :
    Counts diag n (expansionAlts prod.alts)
      (validateProduction diag verdict nullable grammar prod n) := by
  refine @Counts.bind _ _ _ 0 _ _ (counts_walkAlts prod.alts hn) fun m hm => ?_
  refine .check (fun _ => checkProbeHelper_error) (.check (fun _ => checkTailRepeat_error) ?_)
  exact ⟨rfl, hm⟩

/-- The last loop accepts within the limit alone, and refuses on account of it beyond it alone. -/
theorem counts_validateProductions {grammar : Grammar} : ∀ (ps : List Production) {n : Nat},
    n ≤ maxRepeatExpansion →
      (validateProductions diag verdict nullable grammar ps n = .ok () →
        n + (ps.map fun p => expansionAlts p.alts).sum ≤ maxRepeatExpansion) ∧
      ∀ e, validateProductions diag verdict nullable grammar ps n = .error e →
        ExpansionRefusal diag e →
          maxRepeatExpansion < n + (ps.map fun p => expansionAlts p.alts).sum
  | [], n, hn => ⟨fun _ => hn, fun e h => by cases h⟩
  | p :: ps, n, hn => by
    have hp : Counts diag n (expansionAlts p.alts)
        (validateProduction diag verdict nullable grammar p n) := counts_validateProduction hn
    rw [List.map_cons, List.sum_cons, ← Nat.add_assoc, validateProductions]
    cases hx : validateProduction diag verdict nullable grammar p n with
    | error e =>
      rw [hx] at hp
      refine ⟨fun h => (by cases h), fun e' h he => ?_⟩
      obtain rfl := Except.error.inj h
      exact (hp he).trans_le (Nat.le_add_right _ _)
    | ok m =>
      rw [hx] at hp
      obtain ⟨rfl, hm⟩ := hp
      exact counts_validateProductions ps hm

mutual
/-- The check on the bounds refuses on account of them alone. -/
theorem validateBounds_error {e : EmitError} : ∀ (el : Element),
    validateBounds diag prod el = .error e → ¬ ExpansionRefusal diag e
  | .group alts _, h => validateBoundsAlts_error alts h
  | .rep min (some max) inner _, h => by
    simp only [validateBounds] at h
    split at h
    · obtain rfl := Except.error.inj h
      refine not_expansionRefusal_refuse ?_
      generalize toString min = low, toString max = high
      rw [String.append_assoc, String.append_assoc, String.append_assoc, String.append_assoc,
        String.toList_append]
      rfl
    · exact validateBounds_error inner h
  | .rep _ none inner _, h | .opt inner _, h | .star inner _ _, h | .plus inner _, h =>
    validateBounds_error inner h
  | .term .., h | .ref .., h | .token .., h | .prose .., h | .regex .., h => by cases h

theorem validateBoundsSeq_error {e : EmitError} : ∀ (α : List Element),
    validateBoundsSeq diag prod α = .error e → ¬ ExpansionRefusal diag e
  | [], h => by cases h
  | el :: α, h => (bind_eq_error h).elim (validateBounds_error el) fun ⟨_, _, h⟩ =>
    validateBoundsSeq_error α h

theorem validateBoundsAlts_error {e : EmitError} : ∀ (alts : List (List Element)),
    validateBoundsAlts diag prod alts = .error e → ¬ ExpansionRefusal diag e
  | [], h => by cases h
  | α :: alts, h => (bind_eq_error h).elim (validateBoundsSeq_error α) fun ⟨_, _, h⟩ =>
    validateBoundsAlts_error alts h
end

theorem validateBounds_productions {e : EmitError} : ∀ {ps : List Production},
    ps.mapM (fun prod => validateBoundsAlts diag prod prod.alts) = .error e →
      ¬ ExpansionRefusal diag e
  | [], h => by cases h
  | p :: ps, h => by
    rw [List.mapM_cons] at h
    obtain h | ⟨_, _, h⟩ := bind_eq_error h
    · exact validateBoundsAlts_error _ h
    · obtain h | ⟨_, _, h⟩ := bind_eq_error h
      · exact validateBounds_productions h
      · cases h

end

/-! ## In the machine's integers -/

section

variable (w : Nat)

/-- `repeatCost` as the code computes it, in a machine's integers. -/
def repeatCostChecked (min : Nat) (max : Option Nat) (remaining : Nat) : Option (Option Nat) := do
  let cost := 1
  if cost > remaining || min > remaining - cost then return none
  let cost ← Checked.add w cost min
  match max with
  | none =>
    let tooLarge := cost ≥ remaining
    let cost ← Checked.add w cost 1
    return if tooLarge then none else some cost
  | some max =>
    let optional := max - min
    if optional > (remaining - cost) / 2 then return none
    let twice ← Checked.mul w 2 optional
    let cost ← Checked.add w cost twice
    return some cost

variable (diag : String) (verdict : Verdict) (nullable : List String)

/-- `chargeRepeat` in a machine's integers. -/
def chargeRepeatChecked (prod : Production) (el : Element) (min : Nat) (max : Option Nat)
    (expansion : Nat) : ExceptT EmitError Option Nat := do
  let remaining ← Checked.sub maxRepeatExpansion expansion
  match ← repeatCostChecked w min max remaining with
  | some cost => Checked.add w expansion cost
  | none => throw (refuse diag el prod (expansionText min max))

mutual
/-- `walk` in a machine's integers. -/
def walkChecked (prod : Production) : Element → Nat → ExceptT EmitError Option Nat
  | .group alts _, expansion => walkAltsChecked prod alts expansion
  | .opt inner _, expansion => walkChecked prod inner expansion
  | .star inner guard sp, expansion => do
    ExceptT.mk (some (checkItem diag verdict nullable prod (.star inner guard sp) inner))
    walkChecked prod inner expansion
  | .plus inner sp, expansion => do
    ExceptT.mk (some (checkItem diag verdict nullable prod (.plus inner sp) inner))
    walkChecked prod inner expansion
  | .rep min none inner sp, expansion => do
    ExceptT.mk (some (checkItem diag verdict nullable prod (.rep min none inner sp) inner))
    let expansion ← chargeRepeatChecked w diag prod (.rep min none inner sp) min none expansion
    walkChecked prod inner expansion
  | .rep min (some max) inner sp, expansion => do
    let expansion ←
      chargeRepeatChecked w diag prod (.rep min (some max) inner sp) min (some max) expansion
    walkChecked prod inner expansion
  | _, expansion => pure expansion

/-- The same on a sequence. -/
def walkSeqChecked (prod : Production) : List Element → Nat → ExceptT EmitError Option Nat
  | [], expansion => pure expansion
  | el :: rest, expansion => do
    let expansion ← walkChecked prod el expansion
    walkSeqChecked prod rest expansion

/-- The same on alternatives. -/
def walkAltsChecked (prod : Production) :
    List (List Element) → Nat → ExceptT EmitError Option Nat
  | [], expansion => pure expansion
  | alt :: rest, expansion => do
    let expansion ← walkSeqChecked prod alt expansion
    walkAltsChecked prod rest expansion
end

/-- `validateProductions` in a machine's integers. -/
def validateProductionsChecked (grammar : Grammar) :
    List Production → Nat → ExceptT EmitError Option Unit
  | [], _ => pure ()
  | prod :: rest, expansion => do
    let expansion ← walkAltsChecked w diag verdict nullable prod prod.alts expansion
    ExceptT.mk (some (checkProbeHelper diag verdict nullable grammar prod))
    ExceptT.mk (some (checkTailRepeat diag verdict nullable prod))
    validateProductionsChecked grammar rest expansion

/-- `validate_repetitions` in a machine's integers of `w` bits; `none` is a panic. -/
def validateRepetitionsChecked (grammar : Grammar) : Option (Except EmitError Unit) :=
  ExceptT.run (do
    let _ ← ExceptT.mk (some (grammar.productions.mapM fun prod =>
      validateBoundsAlts diag prod prod.alts))
    validateProductionsChecked w diag verdict (nonConsumingRules verdict grammar.productions)
      grammar grammar.productions 0)

end

section

variable {w : Nat} {diag : String} {verdict : Verdict} {nullable : List String}
  {prod : Production}

/-- No step of a charge overflows. -/
theorem repeatCostChecked_eq (hw : 16 ≤ w) {min : Nat} {max : Option Nat} {remaining : Nat}
    (hle : remaining ≤ maxRepeatExpansion) :
    repeatCostChecked w min max remaining = some (repeatCost min max remaining) := by
  have hsmall : ∀ {a : Nat}, a ≤ maxRepeatExpansion + 1 → a < 2 ^ w := fun ha =>
    Checked.lt_of_sixteen hw (ha.trans_lt (by decide))
  unfold repeatCostChecked repeatCost
  by_cases hlow : (decide (1 > remaining) || decide (min > remaining - 1)) = true
  · dsimp only
    rw [if_pos hlow, if_pos hlow]
    rfl
  · have hmin : 1 + min ≤ remaining := by
      simp only [Bool.or_eq_true, decide_eq_true_eq, not_or] at hlow
      omega
    dsimp only
    rw [if_neg hlow, if_neg hlow, Checked.add_eq (hsmall (by omega))]
    cases max with
    | none =>
      simp only [Option.bind_eq_bind, Option.bind_some]
      rw [Checked.add_eq (hsmall (by omega))]
      rfl
    | some max =>
      simp only [Option.bind_eq_bind, Option.bind_some]
      split
      · rfl
      · rw [Checked.mul_eq (hsmall (by omega)), Option.bind_some,
          Checked.add_eq (hsmall (by omega))]
        rfl

theorem chargeRepeatChecked_eq (hw : 16 ≤ w) {el : Element} {min : Nat} {max : Option Nat}
    {n : Nat} (hn : n ≤ maxRepeatExpansion) :
    chargeRepeatChecked w diag prod el min max n = some (chargeRepeat diag prod el min max n) := by
  have hcost : repeatCostChecked w min max (maxRepeatExpansion - n) =
      some (repeatCost min max (maxRepeatExpansion - n)) :=
    repeatCostChecked_eq hw (Nat.sub_le _ _)
  have hmachine : chargeRepeatChecked w diag prod el min max n =
      match repeatCost min max (maxRepeatExpansion - n) with
      | some cost => (Checked.add w n cost).map Except.ok
      | none => some (.error (refuse diag el prod (expansionText min max))) := by
    unfold chargeRepeatChecked
    rw [Checked.sub_eq hn]
    change ((liftM (repeatCostChecked w min max (maxRepeatExpansion - n)) :
      ExceptT EmitError Option _) >>= _) = _
    rw [hcost]
    cases repeatCost min max (maxRepeatExpansion - n) with
    | none => rfl
    | some cost =>
      change (liftM (Checked.add w n cost) : ExceptT EmitError Option Nat) =
        (Checked.add w n cost).map Except.ok
      cases Checked.add w n cost <;> rfl
  rw [hmachine, chargeRepeat]
  cases hfits : repeatCost min max (maxRepeatExpansion - n) with
  | none => rfl
  | some cost =>
    have hle : n + cost ≤ maxRepeatExpansion := by
      rw [repeatCost_eq] at hfits
      split at hfits
      · obtain rfl := Option.some.inj hfits
        omega
      · cases hfits
    dsimp only
    rw [Checked.add_eq (Checked.lt_of_sixteen hw (hle.trans_lt (by decide)))]
    rfl

/-- The count that a part goes on with is within the limit. -/
theorem Counts.le {n k m : Nat} {x : Except EmitError Nat} (h : Counts diag n k x)
    (hx : x = .ok m) : m ≤ maxRepeatExpansion := by
  rw [hx] at h
  exact h.2

mutual
theorem walkChecked_eq (hw : 16 ≤ w) : ∀ (el : Element) {n : Nat}, n ≤ maxRepeatExpansion →
    walkChecked w diag verdict nullable prod el n =
      some (walkRepetitions diag verdict nullable prod el n)
  | .group alts _, _, hn => walkAltsChecked_eq hw alts hn
  | .opt inner _, _, hn => walkChecked_eq hw inner hn
  | .star inner _ _, _, hn => Checked.bind_eq_some rfl fun _ _ => walkChecked_eq hw inner hn
  | .plus inner _, _, hn => Checked.bind_eq_some rfl fun _ _ => walkChecked_eq hw inner hn
  | .rep _ none inner _, _, hn => Checked.bind_eq_some rfl fun _ _ =>
    Checked.bind_eq_some (chargeRepeatChecked_eq hw hn) fun _ hm =>
      walkChecked_eq hw inner ((counts_chargeRepeat hn).le hm)
  | .rep _ (some _) inner _, _, hn =>
    Checked.bind_eq_some (chargeRepeatChecked_eq hw hn) fun _ hm =>
      walkChecked_eq hw inner ((counts_chargeRepeat hn).le hm)
  | .term .., _, _ | .ref .., _, _ | .token .., _, _ | .prose .., _, _ | .regex .., _, _ => rfl

theorem walkSeqChecked_eq (hw : 16 ≤ w) : ∀ (α : List Element) {n : Nat},
    n ≤ maxRepeatExpansion → walkSeqChecked w diag verdict nullable prod α n =
      some (walkRepetitionsSeq diag verdict nullable prod α n)
  | [], _, _ => rfl
  | el :: α, _, hn => Checked.bind_eq_some (walkChecked_eq hw el hn) fun _ hm =>
    walkSeqChecked_eq hw α ((counts_walk el hn).le hm)

theorem walkAltsChecked_eq (hw : 16 ≤ w) : ∀ (alts : List (List Element)) {n : Nat},
    n ≤ maxRepeatExpansion → walkAltsChecked w diag verdict nullable prod alts n =
      some (walkRepetitionsAlts diag verdict nullable prod alts n)
  | [], _, _ => rfl
  | α :: alts, _, hn => Checked.bind_eq_some (walkSeqChecked_eq hw α hn) fun _ hm =>
    walkAltsChecked_eq hw alts ((counts_walkSeq α hn).le hm)
end

theorem validateProductionsChecked_eq (hw : 16 ≤ w) {grammar : Grammar} :
    ∀ (ps : List Production) {n : Nat}, n ≤ maxRepeatExpansion →
      validateProductionsChecked w diag verdict nullable grammar ps n =
        some (validateProductions diag verdict nullable grammar ps n)
  | [], _, _ => rfl
  | p :: ps, n, hn => by
    have hassoc : validateProductions diag verdict nullable grammar (p :: ps) n =
        (walkRepetitionsAlts diag verdict nullable p p.alts n >>= fun m =>
          checkProbeHelper diag verdict nullable grammar p >>= fun _ =>
          checkTailRepeat diag verdict nullable p >>= fun _ =>
          validateProductions diag verdict nullable grammar ps m) := by
      simp only [validateProductions, validateProduction, bind_assoc, pure_bind]
    rw [hassoc]
    exact Checked.bind_eq_some (walkAltsChecked_eq hw p.alts hn) fun m hm =>
      Checked.bind_eq_some rfl fun _ _ => Checked.bind_eq_some rfl fun _ _ =>
      validateProductionsChecked_eq hw ps ((counts_walkAlts p.alts hn).le hm)

/-- The check on repetitions does not panic. -/
theorem validateRepetitionsChecked_eq (hw : 16 ≤ w) (grammar : Grammar) :
    validateRepetitionsChecked w diag verdict grammar =
      some (validateRepetitions diag verdict grammar) :=
  Checked.bind_eq_some rfl fun _ _ =>
    validateProductionsChecked_eq hw grammar.productions (Nat.zero_le _)

end

end TabnasBnf
