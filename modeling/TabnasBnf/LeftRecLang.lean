import TabnasBnf.LeftRecOrder
import TabnasBnf.Minting
import TabnasBnf.TokenClass

/-!
# Left-recursion elimination keeps the language

Each rewrite of the pass keeps what every name derives (`nameLang`), whatever the terminals stand
for:

* `splitHidden_den`: nullable sugar split into its present and its absent branch;
* `nameLang_substitute`, `nameLang_substituteByToken`: a leading reference replaced by the
  alternatives it names, or by the token of a class that stands for them;
* `nameLang_direct`: direct left recursion `A = A α / β` turned into `A = β α∗`;
* `nameLang_of_mem_iff`: a new order.

**`eliminateLeftRecursionKeeping_lang`** puts them together.
-/

namespace TabnasBnf

variable {T : Type*} {τ : Element → Language T} {ρ : Env T} {G G' : List Production}

/-! ## Grammars with the same equations -/

theorem nameLang_of_step_eq (h : ∀ ρ n, step τ G ρ n = step τ G' ρ n) :
    nameLang τ G = nameLang τ G' := by
  funext n
  refine nameLang_eq (solves_iff_step_le.mpr fun m => ?_) (solves_iff_step_le.mpr fun m => ?_) n
  · rw [h, ← nameLang_eq_step]
  · rw [← h, ← nameLang_eq_step]

/-- The order of the productions, and how often each stands, is no matter. -/
theorem nameLang_of_mem_iff (h : ∀ p, p ∈ G ↔ p ∈ G') : nameLang τ G = nameLang τ G' :=
  nameLang_of_step_eq fun ρ n => by
    ext w
    rw [mem_step, mem_step]
    simp only [h]

/-- Productions that denote the same, name by name. -/
theorem nameLang_of_forall₂ (h : List.Forall₂ (fun p q => p.name = q.name ∧
    ∀ ρ : Env T, altsDen τ ρ p.alts = altsDen τ ρ q.alts) G G') :
    nameLang τ G = nameLang τ G' :=
  nameLang_of_step_eq fun ρ n => by
    induction h with
    | nil => rfl
    | cons hpq _ ih => rw [step_cons, step_cons, hpq.1, hpq.2, ih]

/-- With distinct names, a name derives what its production's alternatives do. -/
theorem nameLang_of_nodup (h : (namesOf G).Nodup) {p : Production} (hp : p ∈ G) :
    nameLang τ G p.name = altsDen τ (nameLang τ G) p.alts := by
  refine le_antisymm (fun w hw => ?_) (solves_nameLang p hp)
  obtain ⟨q, hq, hn, hw⟩ := mem_nameLang_iff_alts.mp hw
  rwa [← eq_of_name_eq h hq hp hn]

/-- **One production rewritten.** The grammars derive the same when each production, read over
the other grammar's languages, stays within its name's language there; that the rewritten one
derives no more may be used for the converse. -/
theorem nameLang_replace {before after : List Production} {p p' : Production}
    (hn : p'.name = p.name)
    (h : altsDen τ (nameLang τ (before ++ p :: after)) p'.alts ≤
      nameLang τ (before ++ p :: after) p.name)
    (h' : nameLang τ (before ++ p' :: after) ≤ nameLang τ (before ++ p :: after) →
      altsDen τ (nameLang τ (before ++ p' :: after)) p.alts ≤
        nameLang τ (before ++ p' :: after) p.name) :
    nameLang τ (before ++ p' :: after) = nameLang τ (before ++ p :: after) := by
  have key : ∀ {p p' : Production}, p'.name = p.name →
      altsDen τ (nameLang τ (before ++ p :: after)) p'.alts ≤
        nameLang τ (before ++ p :: after) p.name →
      Solves τ (before ++ p' :: after) (nameLang τ (before ++ p :: after)) := by
    intro p p' hn h q hq
    rcases List.mem_append.mp hq with hq | hq
    · exact solves_nameLang q (List.mem_append_left _ hq)
    · rcases List.mem_cons.mp hq with rfl | hq
      · rwa [hn]
      · exact solves_nameLang q (List.mem_append_right _ (List.mem_cons_of_mem _ hq))
  have hle : nameLang τ (before ++ p' :: after) ≤ nameLang τ (before ++ p :: after) :=
    fun n => nameLang_le (key hn h) n
  exact le_antisymm hle fun n => nameLang_le (key hn.symm (by rw [hn]; exact h' hle)) n

/-! ## Splitting nullable sugar -/

theorem den_rep_succ (max : Nat) (e : Element) (sp sp' : Option SrcSpan) :
    den τ ρ (.rep 0 (some (max + 1)) e sp) =
      1 + den τ ρ e * den τ ρ (.rep 0 (some max) e sp') := by
  ext w
  rw [mem_den_rep, Language.mem_add, Language.mem_one, Language.mem_mul]
  constructor
  · rintro ⟨k, -, hk, hw⟩
    cases k with
    | zero => exact Or.inl (by rwa [pow_zero, Language.mem_one] at hw)
    | succ k =>
      rw [pow_succ', Language.mem_mul] at hw
      obtain ⟨u, hu, v, hv, rfl⟩ := hw
      have hle := hk _ rfl
      exact Or.inr ⟨u, hu, v, mem_den_rep.mpr ⟨k, Nat.zero_le _, fun m hm => by
        cases hm; omega, hv⟩, rfl⟩
  · rintro (rfl | ⟨u, hu, v, hv, rfl⟩)
    · exact ⟨0, le_refl _, fun m _ => Nat.zero_le _, by rw [pow_zero]; exact Language.nil_mem_one⟩
    · obtain ⟨k, -, hk, hv⟩ := mem_den_rep.mp hv
      have hle := hk _ rfl
      refine ⟨k + 1, Nat.zero_le _, fun m hm => by cases hm; omega, ?_⟩
      rw [pow_succ']
      exact Language.append_mem_mul hu hv

/-- Nullable sugar is nothing, or its present branch. -/
theorem den_nullableSugar {el : Element} {present : Sequence}
    (h : nullableSugarPresent el = some present) :
    den τ ρ el = 1 + Cf.seq (den τ ρ) present := by
  unfold nullableSugarPresent at h
  split at h
  · cases h
    simp
  · cases h
    simp [Language.one_add_self_mul_kstar_eq_kstar]
  · rename_i max inner sp
    split at h
    · cases h
    · cases h
      simp only [Cf.seq_cons, Cf.seq_nil, mul_one, den_rep_none, pow_zero, one_mul,
        Language.one_add_self_mul_kstar_eq_kstar]
    · cases h
      have hzero : den τ ρ (.rep 0 (some 0) inner none) = 1 := by
        ext w
        rw [mem_den_rep]
        constructor
        · rintro ⟨k, -, hk, hw⟩
          obtain rfl := Nat.le_zero.mp (hk 0 rfl)
          rwa [pow_zero] at hw
        · exact fun hw => ⟨0, le_refl _, fun _ _ => Nat.zero_le _, by rwa [pow_zero]⟩
      rw [den_rep_succ 0 inner sp none, hzero]
      simp
    · cases h
      rw [den_rep_succ _ inner sp none]
      simp
  · cases h

/-- What a list is split at. -/
theorem eq_append_of_span {α : Type*} {f : α → Bool} {l before after : List α}
    (h : l.span f = (before, after)) : l = before ++ after := by
  rw [List.span_eq_takeWhile_dropWhile, Prod.mk.injEq] at h
  rw [← h.1, ← h.2, List.takeWhile_append_dropWhile]

theorem splitHidden_den {diag : String} {p : Production} :
    ∀ (guard : Nat) (alts : List Sequence) (added : Nat) {r : List Sequence × Nat},
      splitHidden diag p guard alts added = .ok r →
      ∀ ρ : Env T, altsDen τ ρ r.1 = altsDen τ ρ alts
  | 0, alts, added, r, h, ρ => by
    cases h
    rfl
  | guard + 1, alts, added, r, h, ρ => by
    unfold splitHidden at h
    split at h
    · rename_i before el rest after hspan
      split at h
      · rename_i present hpresent
        obtain ⟨added', hadd, h⟩ := bind_eq_ok h
        have halts : alts = before ++ (el :: rest) :: after := eq_append_of_span hspan
        rw [splitHidden_den guard _ _ h, halts]
        simp only [altsDen_append, altsDen_cons, altsDen_nil, Cf.seq_append, Cf.seq_cons,
          den_nullableSugar hpresent, add_mul, one_mul, add_zero]
        ac_rfl
      · cases h
        rfl
    · cases h
      rfl

theorem expand_spec {diag : String} :
    ∀ (prods : List Production) (added : Nat) {r : List Production × Nat},
      expandNullableLeftPrefixes diag prods added = .ok r →
      namesOf r.1 = namesOf prods ∧ nameLang τ r.1 = nameLang τ prods := by
  have key : ∀ (prods : List Production) (added : Nat) {r : List Production × Nat},
      expandNullableLeftPrefixes diag prods added = .ok r →
      List.Forall₂ (fun p q => p.name = q.name ∧
        ∀ ρ : Env T, altsDen τ ρ p.alts = altsDen τ ρ q.alts) r.1 prods := by
    intro prods
    induction prods with
    | nil =>
      intro added r h
      cases h
      exact .nil
    | cons p prods ih =>
      intro added r h
      obtain ⟨⟨alts, added₁⟩, hsplit, h⟩ := bind_eq_ok h
      obtain ⟨⟨rest, added₂⟩, hrest, h⟩ := bind_eq_ok h
      cases h
      exact .cons ⟨rfl, splitHidden_den _ _ _ hsplit⟩ (ih _ hrest)
  intro prods added r h
  have hall := key prods added h
  refine ⟨?_, nameLang_of_forall₂ hall⟩
  generalize r.1 = expanded at hall
  clear h
  induction hall with
  | nil => rfl
  | cons hpq _ ih => rw [namesOf_cons, namesOf_cons, hpq.1, ih]

/-! ## Substitution -/

theorem seq_of_leads {name : String} {alt : Sequence} (h : leads name alt = true) :
    Cf.seq (den τ ρ) alt = ρ name * Cf.seq (den τ ρ) alt.tail := by
  cases alt with
  | nil => simp [leads] at h
  | cons el rest =>
    obtain ⟨debt, sp, rfl⟩ := Element.refName_eq_some.mp (Element.isRefTo_iff.mp h)
    rw [Cf.seq_cons, den_ref, List.tail_cons]

theorem altsDen_map_append (alts : List Sequence) (tail : Sequence) :
    altsDen τ ρ (alts.map (· ++ tail)) = altsDen τ ρ alts * Cf.seq (den τ ρ) tail := by
  induction alts with
  | nil => simp
  | cons alt alts ih => simp [ih, add_mul]

theorem altsDen_substitute {target source : Production}
    (h : ρ source.name = altsDen τ ρ source.alts) :
    altsDen τ ρ (substituteLeadingRef target source).alts = altsDen τ ρ target.alts := by
  show altsDen τ ρ (target.alts.flatMap _) = _
  induction target.alts with
  | nil => rfl
  | cons alt alts ih =>
    rw [List.flatMap_cons, altsDen_append, altsDen_cons, ih]
    split
    · rename_i hl
      rw [altsDen_map_append, ← h, seq_of_leads hl]
    · simp

/-- A token for a leading reference, when one denotes no more than the other. -/
theorem altsDen_byToken_le {target : Production} {className : String}
    (h : τ (.token ("#" ++ className) none) ≤ ρ className) :
    altsDen τ ρ (substituteLeadingRefByToken target className).alts ≤
      altsDen τ ρ target.alts := by
  show altsDen τ ρ (target.alts.map _) ≤ _
  induction target.alts with
  | nil => exact le_refl _
  | cons alt alts ih =>
    rw [List.map_cons, altsDen_cons, altsDen_cons]
    refine add_le_add ?_ ih
    split
    · rename_i hl
      rw [seq_of_leads hl, Cf.seq_cons, den_terminal rfl]
      exact mul_le_mul' h (le_refl _)
    · exact le_refl _

theorem le_altsDen_byToken {target : Production} {className : String}
    (h : ρ className ≤ τ (.token ("#" ++ className) none)) :
    altsDen τ ρ target.alts ≤
      altsDen τ ρ (substituteLeadingRefByToken target className).alts := by
  show _ ≤ altsDen τ ρ (target.alts.map _)
  induction target.alts with
  | nil => exact le_refl _
  | cons alt alts ih =>
    rw [List.map_cons, altsDen_cons, altsDen_cons]
    refine add_le_add ?_ ih
    split
    · rename_i hl
      rw [seq_of_leads hl, Cf.seq_cons, den_terminal rfl]
      exact mul_le_mul' h (le_refl _)
    · exact le_refl _

section Rewrites

variable {before after : List Production} {p q : Production}

theorem namesOf_replace (hn : q.name = p.name) :
    namesOf (before ++ q :: after) = namesOf (before ++ p :: after) := by
  simp [hn]

theorem nameLang_substitute (hnd : (namesOf (before ++ p :: after)).Nodup) {source : Production}
    (hs : source ∈ before) :
    nameLang τ (before ++ substituteLeadingRef p source :: after) =
      nameLang τ (before ++ p :: after) := by
  refine nameLang_replace rfl ?_ fun _ => ?_
  · rw [altsDen_substitute (nameLang_of_nodup hnd (List.mem_append_left _ hs))]
    exact solves_nameLang p (by simp)
  · have hnd' : (namesOf (before ++ substituteLeadingRef p source :: after)).Nodup := by
      rwa [namesOf_replace (show (substituteLeadingRef p source).name = p.name from rfl)]
    rw [← altsDen_substitute (nameLang_of_nodup hnd' (List.mem_append_left _ hs))]
    exact solves_nameLang (substituteLeadingRef p source) (by simp)

theorem nameLang_substituteByToken {className : String}
    (hc : τ (.token ("#" ++ className) none) = nameLang τ (before ++ p :: after) className) :
    nameLang τ (before ++ substituteLeadingRefByToken p className :: after) =
      nameLang τ (before ++ p :: after) := by
  refine nameLang_replace rfl ?_ fun hle => ?_
  · exact (altsDen_byToken_le hc.le).trans (solves_nameLang p (by simp))
  · exact (le_altsDen_byToken ((hle className).trans hc.ge)).trans
      (solves_nameLang (substituteLeadingRefByToken p className) (by simp))

end Rewrites

/-! ## Direct left recursion -/

theorem den_asElement (alts : List Sequence) : den τ ρ (asElement alts) = altsDen τ ρ alts := by
  unfold asElement
  split
  · simp
  · rw [den_group]

/-- Alternatives are the ones that begin with `name`, followed by the others. -/
theorem altsDen_partition (name : String) (alts : List Sequence) :
    altsDen τ ρ alts = altsDen τ ρ (alts.filter fun alt => !leads name alt) +
      ρ name * altsDen τ ρ ((alts.filter (leads name)).map List.tail) := by
  induction alts with
  | nil => simp
  | cons alt alts ih =>
    rw [altsDen_cons, ih]
    cases hl : leads name alt
    · simp [hl, add_assoc]
    · simp only [hl, List.filter_cons, Bool.not_true, if_true, List.map_cons, altsDen_cons,
        seq_of_leads hl, mul_add, Bool.false_eq_true, if_false]
      ac_rfl

/-- Dropping the empty tails drops at most the empty string. -/
theorem altsDen_nonTrivial_le (tails : List Sequence) :
    altsDen τ ρ (tails.filter fun tail => !tail.isEmpty) ≤ altsDen τ ρ tails := by
  intro w hw
  obtain ⟨α, hα, hw⟩ := mem_altsDen.mp hw
  exact mem_altsDen.mpr ⟨α, (List.mem_filter.mp hα).1, hw⟩

theorem altsDen_le_nonTrivial (tails : List Sequence) :
    altsDen τ ρ tails ≤ altsDen τ ρ (tails.filter fun tail => !tail.isEmpty) + 1 := by
  intro w hw
  obtain ⟨α, hα, hw⟩ := mem_altsDen.mp hw
  refine (Language.mem_add _ _ _).mpr ?_
  cases α with
  | nil => exact Or.inr hw
  | cons el α => exact Or.inl (mem_altsDen.mpr ⟨el :: α, List.mem_filter.mpr ⟨hα, rfl⟩, hw⟩)

/-- The alternatives of `A` that do not begin with `A`. -/
def seedsOf (p : Production) : List Sequence := p.alts.filter fun alt => !leads p.name alt

/-- What follows `A` in the others, empty tails dropped. -/
def tailsOf (p : Production) : List Sequence :=
  ((p.alts.filter (leads p.name)).map List.tail).filter fun tail => !tail.isEmpty

/-- The rewritten production is `β α∗`. -/
theorem direct_spec {diag : String} {p : Production} {debtNames : List String}
    {r : Production × List String} (h : eliminateDirectLeftRec diag p debtNames = .ok r) :
    r.1.name = p.name ∧ ∀ ρ : Env T, altsDen τ ρ r.1.alts =
      altsDen τ ρ (seedsOf p) * KStar.kstar (altsDen τ ρ (tailsOf p)) := by
  unfold eliminateDirectLeftRec at h
  simp only at h
  split at h
  · rename_i htails
    cases h
    have hnil : tailsOf p = [] := List.isEmpty_iff.mp htails
    refine ⟨rfl, fun ρ => ?_⟩
    rw [hnil, altsDen_nil, kstar_zero, mul_one]
    rfl
  · split at h
    · cases h
    · split at h
      all_goals
        cases h
        refine ⟨rfl, fun ρ => ?_⟩
        simp only [Production.rebuilt_alts, altsDen_cons, altsDen_nil, Cf.seq_cons, Cf.seq_nil,
          den_star, den_asElement, mul_one, add_zero]
        rfl

theorem nameLang_direct {before after : List Production} {p p' : Production}
    (hnd : (namesOf (before ++ p :: after)).Nodup) (hn : p'.name = p.name)
    (h : ∀ ρ : Env T, altsDen τ ρ p'.alts =
      altsDen τ ρ (seedsOf p) * KStar.kstar (altsDen τ ρ (tailsOf p))) :
    nameLang τ (before ++ p' :: after) = nameLang τ (before ++ p :: after) := by
  refine nameLang_replace hn ?_ fun _ => ?_
  · -- `A` contains `β` and is closed under a further `α`
    have hA := solves_nameLang (τ := τ) (G := before ++ p :: after) p (by simp)
    rw [altsDen_partition p.name] at hA
    have hseed := le_trans le_self_add hA
    have htail := le_trans le_add_self hA
    rw [h]
    refine Cf.mul_kstar_le hseed (le_trans (mul_le_mul' (le_refl _) ?_) htail)
    exact altsDen_nonTrivial_le _
  · have hnd' : (namesOf (before ++ p' :: after)).Nodup := by rwa [namesOf_replace hn]
    have hA := nameLang_of_nodup (τ := τ) hnd' (p := p') (by simp)
    rw [h, hn] at hA
    rw [altsDen_partition p.name, hA]
    generalize nameLang τ (before ++ p' :: after) = ρ
    refine add_le ?_ ?_
    · exact le_mul_of_one_le_right' one_le_kstar
    · refine (mul_le_mul' (le_refl _) (altsDen_le_nonTrivial _)).trans ?_
      rw [mul_add, mul_one, mul_assoc]
      refine add_le (mul_le_mul' (le_refl _) ?_) (le_refl _)
      exact kstar_mul_le_kstar

/-! ## The run -/

section Run

variable {diag : String} {keep cyclic : List String} {L : Env T}

/-- What the whole run keeps: the names, and the language of each. -/
def Keeps (τ : Element → Language T) (names : List String) (L : Env T) (G : List Production) :
    Prop := namesOf G = names ∧ nameLang τ G = L

/-- The tokens of the classes kept stand for what the classes derive. -/
def ClassTokens (τ : Element → Language T) (keep : List String) (L : Env T) : Prop :=
  ∀ c ∈ keep, τ (.token ("#" ++ c) none) = L c

variable {names : List String}

theorem substitutePass_spec (hkeep : ClassTokens τ keep L) (hnd : names.Nodup)
    {before after : List Production} :
    ∀ (earlier : List Production) (st : Substitution) {st' : Substitution},
      earlier ⊆ before → Keeps τ names L (before ++ st.target :: after) →
      substitutePass diag keep earlier st = .ok st' →
      Keeps τ names L (before ++ st'.target :: after)
  | [], st, st', _, hk, h => by
    cases h
    exact hk
  | source :: earlier, st, st', hsub, hk, h => by
    have hrest : ∀ s : Substitution, namesOf (before ++ s.target :: after) = names →
        nameLang τ (before ++ s.target :: after) = L →
        substitutePass diag keep earlier s = .ok st' →
        Keeps τ names L (before ++ st'.target :: after) := fun s hn hl =>
      substitutePass_spec hkeep hnd earlier s (fun _ hp => hsub (List.mem_cons_of_mem _ hp))
        ⟨hn, hl⟩
    unfold substitutePass at h
    split at h
    · exact substitutePass_spec hkeep hnd earlier st (fun _ hp => hsub (List.mem_cons_of_mem _ hp))
        hk h
    · split at h
      · rename_i hc
        refine hrest _ ?_ ?_ h
        · rw [← hk.1]; exact namesOf_replace rfl
        · rw [nameLang_substituteByToken ?_, hk.2]
          rw [hk.2]
          exact hkeep _ (by simpa using hc)
      · obtain ⟨gained, hg, h⟩ := bind_eq_ok h
        obtain ⟨added, ha, h⟩ := bind_eq_ok h
        refine hrest _ ?_ ?_ h
        · rw [← hk.1]; exact namesOf_replace rfl
        · rw [nameLang_substitute (by rw [hk.1]; exact hnd) (hsub List.mem_cons_self), hk.2]

theorem substituteEarlier_spec (hkeep : ClassTokens τ keep L) (hnd : names.Nodup)
    {before after : List Production} :
    ∀ (guard : Nat) (st : Substitution) {st' : Substitution},
      Keeps τ names L (before ++ st.target :: after) →
      substituteEarlier diag keep before guard st = .ok st' →
      Keeps τ names L (before ++ st'.target :: after)
  | 0, st, st', hk, h => by
    cases h
    exact hk
  | guard + 1, st, st', hk, h => by
    obtain ⟨st₁, hpass, h⟩ := bind_eq_ok h
    have hk₁ := substitutePass_spec hkeep hnd before { st with changed := false }
      (List.Subset.refl _) hk hpass
    split at h
    · exact substituteEarlier_spec hkeep hnd guard st₁ hk₁ h
    · cases h
      exact hk₁

theorem substituteInto_spec (hkeep : ClassTokens τ keep L) (hnd : names.Nodup)
    {before after : List Production} {guard added : Nat} {p : Production} {r : Production × Nat}
    (hk : Keeps τ names L (before ++ p :: after))
    (h : substituteInto diag keep cyclic before guard p added = .ok r) :
    Keeps τ names L (before ++ r.1 :: after) := by
  unfold substituteInto at h
  split at h
  · cases h
    exact hk
  · obtain ⟨st, hst, h⟩ := bind_eq_ok h
    cases h
    exact substituteEarlier_spec hkeep hnd guard ⟨p, 0, added, false⟩ hk hst

theorem direct_keeps (hnd : names.Nodup) {before after : List Production} {p : Production}
    {debtNames : List String} {r : Production × List String}
    (hk : Keeps τ names L (before ++ p :: after))
    (h : eliminateDirectLeftRec diag p debtNames = .ok r) :
    Keeps τ names L (before ++ r.1 :: after) := by
  obtain ⟨hn, -⟩ := direct_spec (τ := τ) h
  refine ⟨(namesOf_replace hn).trans hk.1, ?_⟩
  rw [nameLang_direct (by rw [hk.1]; exact hnd) hn (direct_spec h).2, hk.2]

theorem paull_spec (hkeep : ClassTokens τ keep L) (hnd : names.Nodup) {guard : Nat} :
    ∀ (rest done : List Production) (added : Nat) (debtNames : List String)
      {out : List Production}, Keeps τ names L (done ++ rest) →
      paull diag keep cyclic guard done rest added debtNames = .ok out → Keeps τ names L out
  | [], done, _, _, out, hk, h => by
    cases h
    rwa [List.append_nil] at hk
  | p :: rest, done, added, debtNames, out, hk, h => by
    obtain ⟨⟨p₁, added₁⟩, hsub, h⟩ := bind_eq_ok h
    obtain ⟨⟨p₂, debtNames₂⟩, hdir, h⟩ := bind_eq_ok h
    have hk₁ := direct_keeps hnd (substituteInto_spec hkeep hnd hk hsub) hdir
    exact paull_spec hkeep hnd rest (done ++ [p₂]) added₁ debtNames₂ (by simpa using hk₁) h

/-- The productions Paull's algorithm starts from. -/
theorem start_keeps {grammar : Grammar} (hnd : grammar.names.Nodup)
    {r : List Production × Nat} (h : expandNullableLeftPrefixes diag
      (grammar.productions.map fun p => p.rebuilt p.alts) 0 = .ok r) :
    ∃ names', names'.Nodup ∧ (∀ n, n ∈ names' ↔ n ∈ grammar.names) ∧
      Keeps τ names' (nameLang τ grammar.productions) (topoOrderForPaull r.1) := by
  have hcopies : namesOf (grammar.productions.map fun p => p.rebuilt p.alts) = grammar.names := by
    simp [namesOf, Grammar.names]
  obtain ⟨hn, hl⟩ := expand_spec (τ := τ) _ _ h
  have hnd₁ : (namesOf r.1).Nodup := by rw [hn, hcopies]; exact hnd
  obtain ⟨hnd₂, hmem⟩ := topoOrderForPaull_spec hnd₁
  refine ⟨_, hnd₂, fun n => ?_, rfl, ?_⟩
  · rw [← hcopies, ← hn, mem_namesOf, mem_namesOf]
    simp only [hmem]
  · rw [nameLang_of_mem_iff hmem, hl]
    refine nameLang_of_forall₂ ?_
    rw [List.forall₂_map_left_iff]
    exact List.forall₂_same.mpr fun p _ => ⟨rfl, fun _ => rfl⟩

/-- **Left-recursion elimination keeps the names, their order and their languages**, when the
tokens of the classes kept stand for what the classes derive. -/
theorem keeping_spec {grammar g' : Grammar} (hnd : grammar.names.Nodup)
    (hkeep : ClassTokens τ keep (nameLang τ grammar.productions))
    (h : eliminateLeftRecursionKeeping diag grammar keep = .ok g') :
    Keeps τ grammar.names (nameLang τ grammar.productions) g'.productions := by
  obtain ⟨r, hexp, h⟩ := bind_eq_ok h
  obtain ⟨done, hpaull, h⟩ := bind_eq_ok h
  cases h
  obtain ⟨names', hnd', hmem, hk⟩ := start_keeps (τ := τ) hnd hexp
  obtain ⟨hn, hl⟩ := paull_spec hkeep hnd' _ [] _ _ hk hpaull
  have hnd₂ : (namesOf done).Nodup := by rw [hn]; exact hnd'
  have htake := takeSlots_spec grammar.names done hnd hnd₂ fun n => by rw [hn, hmem]
  refine ⟨?_, ?_⟩
  · show namesOf (takeSlots _ _) = _
    rw [slotsOf_eq hnd₂]
    exact htake.1
  · show nameLang τ (takeSlots _ _) = _
    rw [slotsOf_eq hnd₂, nameLang_of_mem_iff htake.2, hl]

end Run

/-- The union of what a class's members stand for. -/
def members (τ : Element → Language T) (p : Production) : Language T :=
  {w | ∃ el, [el] ∈ p.alts ∧ w ∈ τ el}

theorem isClassMember_iff {regexDerivesEmpty : String → String → Bool} {alt : Sequence}
    (h : isClassMember regexDerivesEmpty alt = true) :
    ∃ el, alt = [el] ∧ el.isTerminal = true := by
  unfold isClassMember at h
  split at h
  · rename_i el
    refine ⟨el, rfl, ?_⟩
    cases el <;> first | rfl | simp at h
  · cases h

theorem mem_tokenClassNames {regexDerivesEmpty : String → String → Bool} {grammar : Grammar}
    {c : String} (h : c ∈ tokenClassNames regexDerivesEmpty grammar) :
    ∃ p ∈ grammar.productions, p.name = c ∧ isTokenClass regexDerivesEmpty p = true := by
  have hc := List.mem_eraseDups.mp (List.mem_filter.mp h).1
  obtain ⟨p, hp, rfl⟩ := List.mem_map.mp hc
  exact ⟨p, (List.mem_filter.mp hp).1, rfl, (List.mem_filter.mp hp).2⟩

/-- A token class derives the union of its members. -/
theorem altsDen_of_isTokenClass {regexDerivesEmpty : String → String → Bool} {p : Production}
    (h : isTokenClass regexDerivesEmpty p = true) : altsDen τ ρ p.alts = members τ p := by
  unfold isTokenClass at h
  rw [Bool.and_eq_true, List.all_eq_true] at h
  ext w
  rw [mem_altsDen]
  constructor
  · rintro ⟨α, hα, hw⟩
    obtain ⟨el, rfl, hel⟩ := isClassMember_iff (h.2 α hα)
    rw [Cf.seq_singleton, den_terminal hel] at hw
    exact ⟨el, hα, hw⟩
  · rintro ⟨el, hα, hw⟩
    obtain ⟨el', heq, hel⟩ := isClassMember_iff (h.2 _ hα)
    cases heq
    exact ⟨[el], hα, by rwa [Cf.seq_singleton, den_terminal hel]⟩

/-- **Left-recursion elimination keeps the names, their order and their languages**, with no
class kept, or with every class of the grammar kept and its token standing for its members. -/
theorem eliminateLeftRecursionKeeping_lang {regexDerivesEmpty : String → String → Bool}
    {diag : String} {keep : List String} {grammar g' : Grammar} (hnd : grammar.names.Nodup)
    (hkeep : keep = [] ∨ keep = tokenClassNames regexDerivesEmpty grammar)
    (hclass : ∀ p ∈ grammar.productions, p.name ∈ keep →
      τ (.token ("#" ++ p.name) none) = members τ p)
    (h : eliminateLeftRecursionKeeping diag grammar keep = .ok g') :
    g'.names = grammar.names ∧
      ∀ n ∈ grammar.names, nameLang τ g'.productions n = nameLang τ grammar.productions n := by
  have htokens : ClassTokens τ keep (nameLang τ grammar.productions) := by
    intro c hc
    rcases hkeep with rfl | rfl
    · exact absurd hc List.not_mem_nil
    · obtain ⟨p, hp, rfl, hclassp⟩ := mem_tokenClassNames hc
      rw [hclass p hp hc, nameLang_of_nodup hnd hp, altsDen_of_isTokenClass hclassp]
  obtain ⟨hn, hl⟩ := keeping_spec hnd htokens h
  exact ⟨hn, fun n _ => by rw [hl]⟩

/-- `e = e "+" id / [ "-" ] e "!" / id`, `id = "x" / "y"`. -/
def recursiveSum : Grammar where
  productions := [
    { name := "e", alts := [[.reference "e", .lit "+", .reference "id"],
      [.opt (.lit "-") none, .reference "e", .lit "!"], [.reference "id"]] },
    { name := "id", alts := [[.lit "x"], [.lit "y"]] }]

/-- A literal stands for itself, any other token for a member of `id`. -/
def sumTerminals : Element → Language String
  | .term literal _ _ _ => {[literal]}
  | _ => {["x"], ["y"]}

theorem eliminateLeftRecursionKeeping_lang_sum :
    ∃ g', eliminateLeftRecursionKeeping "bnf" recursiveSum ["id"] = .ok g' ∧
      g'.names = recursiveSum.names ∧ ∀ n ∈ recursiveSum.names,
        nameLang sumTerminals g'.productions n =
          nameLang sumTerminals recursiveSum.productions n := by
  have hkeep : ["id"] = tokenClassNames (fun _ _ => false) recursiveSum := by decide
  obtain ⟨g', hg'⟩ := exists_ok
    (show (eliminateLeftRecursionKeeping "bnf" recursiveSum ["id"]).isOk = true by decide +kernel)
  refine ⟨g', hg', eliminateLeftRecursionKeeping_lang (by decide) (Or.inr hkeep) ?_ hg'⟩
  intro p hp hc
  obtain rfl : p = { name := "id", alts := [[.lit "x"], [.lit "y"]] } := by
    simp only [recursiveSum, List.mem_cons, List.not_mem_nil, or_false] at hp
    rcases hp with rfl | rfl
    · simp at hc
    · rfl
  ext w
  simp only [members, sumTerminals, Element.lit, List.mem_cons, List.cons.injEq, and_true,
    List.not_mem_nil, or_false, or_and_right, exists_or, exists_eq_left]
  exact Iff.rfl

end TabnasBnf
