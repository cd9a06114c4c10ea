import Mathlib.Logic.Function.Iterate
import TabnasBnf.HiddenSplits
import TabnasBnf.LeadingCycles
import TabnasBnf.Passes

/-!
# When the substitution loop settles

`substituteEarlier` passes over the productions before its target until a pass changes nothing, or
its guard is used up. A pass replaces leading references place by place (`passAlt`), so that it
resolves a chain of them as long as the chain goes up the order, and stops where it comes down.

* `alts_substituteEarlier`: what the loop leaves is what its guard's number of passes leaves.
* `substituted_iff`: they have no leading reference to an earlier production exactly when no chain comes
  down as often as there are passes (`ComesDown`).
* `comesDown_lt`: a chain comes down at exempt aliases alone, each of which it meets once, if no
  alternative is empty; an empty one shows a tail, which may lead anywhere.
* **`substituteEarlier_settles`**: both, for every production that is not exempt.
-/

namespace TabnasBnf

open Relation

/-! ## A pass -/

/-- What one source makes of an alternative. -/
def unfoldLead (keep : List String) (source : Production) (alt : Sequence) : List Sequence :=
  if leads source.name alt then
    if keep.contains source.name then [.token ("#" ++ source.name) none :: alt.tail]
    else source.alts.map (· ++ alt.tail)
  else [alt]

/-- What a pass over the sources makes of an alternative. -/
def passAlt (keep : List String) : List Production → Sequence → List Sequence
  | [], alt => [alt]
  | source :: rest, alt => (unfoldLead keep source alt).flatMap (passAlt keep rest)

/-- No alternative begins with a reference to one of `sources`. -/
def Substituted (sources : List Production) (alts : List Sequence) : Prop :=
  ∀ source ∈ sources, ∀ alt ∈ alts, leads source.name alt = false

section

variable {diag : String} {keep cyclic : List String} {earlier : List Production}

theorem unfoldLead_of_not {source : Production} {alt : Sequence}
    (h : leads source.name alt = false) : unfoldLead keep source alt = [alt] := by
  rw [unfoldLead, h, if_neg Bool.false_ne_true]

theorem passAlt_of_substituted : ∀ {sources : List Production} {alt : Sequence},
    (∀ source ∈ sources, leads source.name alt = false) → passAlt keep sources alt = [alt]
  | [], _, _ => rfl
  | source :: sources, alt, h => by
    obtain ⟨hsource, hrest⟩ := List.forall_mem_cons.mp h
    rw [passAlt, unfoldLead_of_not hsource, List.flatMap_singleton, passAlt_of_substituted hrest]

theorem flatMap_of_eq_singleton {α : Type} {f : α → List α} {xs : List α}
    (h : ∀ x ∈ xs, f x = [x]) : xs.flatMap f = xs := by
  induction xs with
  | nil => rfl
  | cons x xs ih =>
    obtain ⟨hx, hxs⟩ := List.forall_mem_cons.mp h
    rw [List.flatMap_cons, hx, ih hxs, List.singleton_append]

variable (keep) in
theorem flatMap_passAlt_of_substituted {alts : List Sequence} (h : Substituted earlier alts) :
    alts.flatMap (passAlt keep earlier) = alts :=
  flatMap_of_eq_singleton fun alt halt => passAlt_of_substituted fun source hs => h source hs alt halt

theorem not_hasLeadingRefTo {target : Production} {name : String}
    (h : hasLeadingRefTo target name = false) : ∀ alt ∈ target.alts, leads name alt = false :=
  fun alt halt => by simpa using List.any_eq_false.mp h alt halt

theorem alts_substituteLeadingRef {target source : Production}
    (h : keep.contains source.name = false) :
    (substituteLeadingRef target source).alts = target.alts.flatMap (unfoldLead keep source) := by
  show target.alts.flatMap _ = _
  refine List.flatMap_congr fun alt _ => ?_
  rw [unfoldLead, h, if_neg Bool.false_ne_true]

theorem alts_substituteLeadingRefByToken {target source : Production}
    (h : keep.contains source.name = true) :
    (substituteLeadingRefByToken target source.name).alts =
      target.alts.flatMap (unfoldLead keep source) := by
  show target.alts.map _ = _
  rw [List.map_eq_flatMap]
  refine List.flatMap_congr fun alt _ => ?_
  rw [unfoldLead, h, if_pos rfl]
  split <;> rfl

/-- A change made is remembered. -/
theorem substitutePass_changed : ∀ (sources : List Production) {st st' : Substitution},
    substitutePass diag keep sources st = .ok st' → st.changed = true → st'.changed = true
  | [], _, _, h, hchanged => by
    cases h
    exact hchanged
  | source :: sources, st, _, h, hchanged => by
    unfold substitutePass at h
    split at h
    · exact substitutePass_changed sources h hchanged
    · split at h
      · exact substitutePass_changed sources h rfl
      · obtain ⟨gained, -, h⟩ := bind_eq_ok h
        obtain ⟨added, -, h⟩ := bind_eq_ok h
        exact substitutePass_changed sources h rfl

/-- A pass works on each alternative by itself, and says whether it changed one. -/
theorem substitutePass_alts : ∀ (sources : List Production) {st st' : Substitution},
    substitutePass diag keep sources st = .ok st' →
      st'.target.alts = st.target.alts.flatMap (passAlt keep sources) ∧
        (st'.changed = false → Substituted sources st.target.alts)
  | [], st, _, h => by
    cases h
    exact ⟨(flatMap_of_eq_singleton fun _ _ => rfl).symm,
      fun _ source hs => absurd hs List.not_mem_nil⟩
  | source :: sources, st, st', h => by
    have hpass : ∀ {target : Production},
        target.alts = st.target.alts.flatMap (unfoldLead keep source) →
          target.alts.flatMap (passAlt keep sources) =
            st.target.alts.flatMap (passAlt keep (source :: sources)) := by
      intro target htarget
      rw [htarget, List.flatMap_assoc]
      rfl
    unfold substitutePass at h
    split at h
    · next hlead =>
      have hnot := not_hasLeadingRefTo (by simpa using hlead)
      obtain ⟨halts, hsettled⟩ := substitutePass_alts sources h
      refine ⟨halts.trans (hpass ?_), fun hst => ?_⟩
      · exact (flatMap_of_eq_singleton fun alt halt => unfoldLead_of_not (hnot alt halt)).symm
      · exact List.forall_mem_cons.mpr ⟨hnot, hsettled hst⟩
    · split at h
      · next hkeep =>
        obtain ⟨halts, -⟩ := substitutePass_alts sources h
        have hchanged := substitutePass_changed sources h rfl
        refine ⟨halts.trans (hpass (alts_substituteLeadingRefByToken hkeep)), fun hst => ?_⟩
        rw [hchanged] at hst
        cases hst
      · next hkeep =>
        obtain ⟨gained, -, h⟩ := bind_eq_ok h
        obtain ⟨added, -, h⟩ := bind_eq_ok h
        obtain ⟨halts, -⟩ := substitutePass_alts sources h
        have hchanged := substitutePass_changed sources h rfl
        refine ⟨halts.trans (hpass (alts_substituteLeadingRef (by simpa using hkeep))),
          fun hst => ?_⟩
        rw [hchanged] at hst
        cases hst

/-- What the loop leaves is what its guard's number of passes leaves. -/
theorem alts_substituteEarlier : ∀ (guard : Nat) {st st' : Substitution},
    substituteEarlier diag keep earlier guard st = .ok st' →
      st'.target.alts =
        (fun alts => alts.flatMap (passAlt keep earlier))^[guard] st.target.alts
  | 0, _, _, h => by
    cases h
    rfl
  | guard + 1, st, _, h => by
    obtain ⟨st₁, hpass, h⟩ := bind_eq_ok h
    obtain ⟨halts, hsettled⟩ := substitutePass_alts earlier hpass
    dsimp only at halts
    rw [Function.iterate_succ_apply, ← halts]
    split at h
    · exact alts_substituteEarlier guard h
    · next hchanged =>
      cases h
      have hfixed := flatMap_passAlt_of_substituted keep
        (hsettled (by simpa using hchanged))
      dsimp only at hfixed
      rw [halts, hfixed, Function.iterate_fixed hfixed]

end

/-! ## Chains -/

section

variable (keep : List String) (earlier : List Production) (alts : List Sequence)

/-- A chain of replaced leading references from one of `alts` to an alternative: how often it came
down the order, its start counted, and the place it has come to. -/
inductive Chained : Nat → Nat → Sequence → Prop
  | start {alt : Sequence} : alt ∈ alts → Chained 0 earlier.length alt
  | up {k j m : Nat} {alt alt' : Sequence} {source : Production} : Chained k j alt → j ≤ m →
      earlier[m]? = some source → leads source.name alt = true →
      alt' ∈ unfoldLead keep source alt → Chained k (m + 1) alt'
  | down {k j m : Nat} {alt alt' : Sequence} {source : Production} : Chained k j alt → m < j →
      earlier[m]? = some source → leads source.name alt = true →
      alt' ∈ unfoldLead keep source alt → Chained (k + 1) (m + 1) alt'

/-- A chain that came down `k` times leads down once more. -/
def ComesDown (k : Nat) : Prop :=
  ∃ j alt m source, Chained keep earlier alts k j alt ∧ m < j ∧ earlier[m]? = some source ∧
    leads source.name alt = true

end

theorem leads_iff {name : String} {alt : Sequence} :
    leads name alt = true ↔ alt.head?.bind Element.refName = some name := by
  cases alt with
  | nil => simp [leads]
  | cons el rest => exact Element.isRefTo_iff

section

variable {keep : List String} {earlier : List Production} {alts : List Sequence}

/-- Only the source that an alternative begins with is a place of it. -/
theorem place_unique (hnd : (namesOf earlier).Nodup) {i j : Nat} {p q : Production}
    {alt : Sequence} (hi : earlier[i]? = some p) (hj : earlier[j]? = some q)
    (hp : leads p.name alt = true) (hq : leads q.name alt = true) : i = j := by
  have hname : p.name = q.name :=
    Option.some.inj ((leads_iff.mp hp).symm.trans (leads_iff.mp hq))
  obtain ⟨hlt, -⟩ := List.getElem?_eq_some_iff.mp hi
  have hlt' : i < (namesOf earlier).length := by rwa [namesOf, List.length_map]
  refine (List.getElem?_inj hlt' hnd).mp ?_
  rw [namesOf, List.getElem?_map, List.getElem?_map, hi, hj, Option.map_some, Option.map_some,
    hname]

variable (keep) in
/-- From a place up to its source, a pass leaves an alternative alone. -/
theorem passAlt_up (hnd : (namesOf earlier).Nodup) {m : Nat} {source : Production} {alt : Sequence}
    (hm : earlier[m]? = some source) (hlead : leads source.name alt = true) :
    ∀ {j : Nat}, j ≤ m → passAlt keep (earlier.drop j) alt =
      (unfoldLead keep source alt).flatMap (passAlt keep (earlier.drop (m + 1))) := by
  have hlt : m < earlier.length := (List.getElem?_eq_some_iff.mp hm).1
  intro j hj
  induction hdist : m - j generalizing j with
  | zero =>
    obtain rfl : j = m := by omega
    obtain ⟨_, hsource⟩ := List.getElem?_eq_some_iff.mp hm
    rw [List.drop_eq_getElem_cons hlt, hsource, passAlt]
  | succ n ih =>
    have hj' : j < earlier.length := by omega
    have hnot : leads earlier[j].name alt = false := by
      by_contra hne
      have hplace := place_unique hnd (List.getElem?_eq_getElem hj') hm (by simpa using hne) hlead
      omega
    rw [List.drop_eq_getElem_cons hj', passAlt, unfoldLead_of_not hnot, List.flatMap_singleton,
      ih (by omega) (by omega)]

/-- Past the place of its source, a pass leaves an alternative alone. -/
theorem passAlt_down (hnd : (namesOf earlier).Nodup) {m j : Nat} {source : Production}
    {alt : Sequence} (hm : earlier[m]? = some source) (hlead : leads source.name alt = true)
    (hj : m < j) : passAlt keep (earlier.drop j) alt = [alt] := by
  refine passAlt_of_substituted fun p hp => ?_
  by_contra hne
  obtain ⟨i, hi⟩ := List.mem_iff_getElem?.mp hp
  rw [List.getElem?_drop] at hi
  have hplace := place_unique hnd hi hm (by simpa using hne) hlead
  omega

/-- What a chain comes to, the rest of its pass leaves. -/
theorem Chained.mem_iterate (hnd : (namesOf earlier).Nodup) {k j : Nat} {alt : Sequence}
    (h : Chained keep earlier alts k j alt) :
    ∀ β ∈ passAlt keep (earlier.drop j) alt,
      β ∈ (fun alts => alts.flatMap (passAlt keep earlier))^[k] alts := by
  induction h with
  | start halt =>
    intro β hβ
    rw [List.drop_length, passAlt, List.mem_singleton] at hβ
    exact hβ ▸ halt
  | up _ hjm hm hlead halt ih =>
    intro β hβ
    refine ih β ?_
    rw [passAlt_up keep hnd hm hlead hjm]
    exact List.mem_flatMap.mpr ⟨_, halt, hβ⟩
  | down _ hmj hm hlead halt ih =>
    intro β hβ
    rw [passAlt_down hnd hm hlead hmj] at ih
    rw [Function.iterate_succ_apply']
    refine List.mem_flatMap.mpr ⟨_, ih _ List.mem_cons_self, ?_⟩
    have hwhole := passAlt_up keep hnd hm hlead (Nat.zero_le _)
    rw [List.drop_zero] at hwhole
    rw [hwhole]
    exact List.mem_flatMap.mpr ⟨_, halt, hβ⟩

/-- What the rest of a pass leaves of what a chain comes to, the chain goes up to. -/
theorem Chained.rest (hnd : (namesOf earlier).Nodup) {k : Nat} : ∀ (n : Nat) {j : Nat}
    {alt β : Sequence}, Chained keep earlier alts k j alt → earlier.length - j ≤ n →
      β ∈ passAlt keep (earlier.drop j) alt →
      ∃ j', Chained keep earlier alts k j' β ∧
        ∀ m source, earlier[m]? = some source → leads source.name β = true → m < j' := by
  intro n
  induction n with
  | zero =>
    intro j alt β h hn hβ
    rw [List.drop_eq_nil_of_le (by omega), passAlt, List.mem_singleton] at hβ
    subst hβ
    refine ⟨j, h, fun m source hm _ => ?_⟩
    have hlt := (List.getElem?_eq_some_iff.mp hm).1
    omega
  | succ n ih =>
    intro j alt β h hn hβ
    by_cases hup : ∃ m source, j ≤ m ∧ earlier[m]? = some source ∧ leads source.name alt = true
    · obtain ⟨m, source, hjm, hm, hlead⟩ := hup
      have hlt := (List.getElem?_eq_some_iff.mp hm).1
      rw [passAlt_up keep hnd hm hlead hjm] at hβ
      obtain ⟨alt', halt', hβ⟩ := List.mem_flatMap.mp hβ
      exact ih (h.up hjm hm hlead halt') (by omega) hβ
    · have hnone : ∀ m source, earlier[m]? = some source → leads source.name alt = true → m < j :=
        fun m source hm hlead => by
          by_contra hle
          exact hup ⟨m, source, Nat.le_of_not_lt hle, hm, hlead⟩
      have hstay : passAlt keep (earlier.drop j) alt = [alt] := by
        refine passAlt_of_substituted fun p hp => ?_
        by_contra hne
        obtain ⟨i, hi⟩ := List.mem_iff_getElem?.mp hp
        rw [List.getElem?_drop] at hi
        have hlt := hnone _ p hi (by simpa using hne)
        omega
      rw [hstay, List.mem_singleton] at hβ
      exact ⟨j, hβ ▸ h, hβ ▸ hnone⟩

/-- What `k` passes leave, a chain comes to; one that came down `k` times, if it is not settled. -/
theorem exists_chain (hnd : (namesOf earlier).Nodup) : ∀ (k : Nat) {β : Sequence},
    β ∈ (fun alts => alts.flatMap (passAlt keep earlier))^[k] alts →
      ∃ k' j, Chained keep earlier alts k' j β ∧
        (∀ m source, earlier[m]? = some source → leads source.name β = true → m < j) ∧
        ((∃ source ∈ earlier, leads source.name β = true) → k' = k)
  | 0, β, hβ => by
    refine ⟨0, earlier.length, .start hβ, fun m source hm _ => ?_, fun _ => rfl⟩
    exact (List.getElem?_eq_some_iff.mp hm).1
  | k + 1, β, hβ => by
    rw [Function.iterate_succ_apply'] at hβ
    obtain ⟨α, hα, hpass⟩ := List.mem_flatMap.mp hβ
    obtain ⟨k', j, hchain, hbelow, hk⟩ := exists_chain hnd k hα
    by_cases hopen : ∃ source ∈ earlier, leads source.name α = true
    · obtain rfl := hk hopen
      obtain ⟨source, hsource, hlead⟩ := hopen
      obtain ⟨m, hm⟩ := List.mem_iff_getElem?.mp hsource
      have hwhole := passAlt_up keep hnd hm hlead (Nat.zero_le _)
      rw [List.drop_zero] at hwhole
      rw [hwhole] at hpass
      obtain ⟨α', hα', hrest⟩ := List.mem_flatMap.mp hpass
      have hdown := hchain.down (hbelow m source hm hlead) hm hlead hα'
      obtain ⟨j', hchain', hbelow'⟩ := hdown.rest hnd _ (Nat.le_refl _) hrest
      exact ⟨_, j', hchain', hbelow', fun _ => rfl⟩
    · have hsettled : passAlt keep earlier α = [α] := passAlt_of_substituted fun source hs => by
        by_contra hne
        exact hopen ⟨source, hs, by simpa using hne⟩
      rw [hsettled, List.mem_singleton] at hpass
      subst hpass
      exact ⟨k', j, hchain, hbelow, fun h => absurd h hopen⟩

variable (keep alts) in
/-- **A number of passes settles the alternatives exactly when no chain comes down as often.** -/
theorem substituted_iff (hnd : (namesOf earlier).Nodup) (g : Nat) :
    Substituted earlier ((fun alts => alts.flatMap (passAlt keep earlier))^[g] alts) ↔
      ∀ k, ComesDown keep earlier alts k → k < g := by
  constructor
  · rintro hsettled k ⟨j, alt, m, source, hchain, hmj, hm, hlead⟩
    by_contra hle
    have hmem := hchain.mem_iterate hnd alt (by
      rw [passAlt_down hnd hm hlead hmj]
      exact List.mem_cons_self)
    obtain ⟨d, rfl⟩ := Nat.exists_eq_add_of_le' (Nat.le_of_not_lt hle)
    rw [Function.iterate_add_apply,
      Function.iterate_fixed (flatMap_passAlt_of_substituted keep hsettled)] at hmem
    rw [hsettled source (List.mem_of_getElem? hm) alt hmem] at hlead
    cases hlead
  · intro hdown source hs β hβ
    by_contra hne
    have hlead : leads source.name β = true := by simpa using hne
    obtain ⟨k, j, hchain, hbelow, hk⟩ := exists_chain hnd g hβ
    obtain rfl := hk ⟨source, hs, hlead⟩
    obtain ⟨m, hm⟩ := List.mem_iff_getElem?.mp hs
    exact absurd (hdown k ⟨j, β, m, source, hchain, hbelow m source hm hlead, hm, hlead⟩)
      (Nat.lt_irrefl k)

end

/-! ## Without empty alternatives -/

section

variable {G done : List Production} {keep cyclic : List String} {p : Production}

/-- What the main loop keeps of the productions it has processed, if no alternative is empty:
a leading reference leads where leading references led, and up the order but from exempt aliases,
which lie on no cycle. -/
structure Processed (G : List Production) (cyclic : List String) (done : List Production) :
    Prop where
  nonempty : ∀ q ∈ done, [] ∉ q.alts
  known : namesOf done ⊆ namesOf G
  reach : ∀ q ∈ done, ∀ alt ∈ q.alts, ∀ n ∈ namesOf G, leads n alt = true →
    TransGen (LeadingEdge G) q.name n
  place : ∀ (j : Nat) (q : Production), done[j]? = some q → q.name ∉ cyclic ∨
    ∀ (m : Nat) (source : Production), m ≤ j → done[m]? = some source →
      ∀ alt ∈ q.alts, leads source.name alt = false

/-- What a chain knows of its way: the production at its place, whose alternatives it begins as,
and the ones it came down from, once each. -/
structure Trail (G done : List Production) (p : Production) (k j : Nat) (alt : Sequence)
    (q : Production) (passed : List String) : Prop where
  place : done[j - 1]? = some q
  started : 1 ≤ j
  begins : ∀ n, leads n alt = true → ∃ a ∈ q.alts, leads n a = true
  reached : TransGen (LeadingEdge G) p.name q.name
  nodup : passed.Nodup
  count : k = passed.length + 1
  passed : ∀ n ∈ passed, n ∈ namesOf done ∧ TransGen (LeadingEdge G) n q.name

theorem leads_append {n : String} {alt tail : Sequence} (h : alt ≠ []) :
    leads n (alt ++ tail) = leads n alt := by
  cases alt with
  | nil => exact absurd rfl h
  | cons el rest => rfl

/-- What a source puts in front begins as its alternatives do. -/
theorem begins_unfoldLead {source : Production} {alt alt' : Sequence} (hne : [] ∉ source.alts)
    (hlead : leads source.name alt = true) (h : alt' ∈ unfoldLead keep source alt) :
    alt' ≠ [] ∧ ∀ n, leads n alt' = true → ∃ a ∈ source.alts, leads n a = true := by
  rw [unfoldLead, if_pos hlead] at h
  split at h
  · obtain rfl := List.mem_singleton.mp h
    exact ⟨List.cons_ne_nil _ _, fun n hn => by cases hn⟩
  · obtain ⟨a, ha, rfl⟩ := List.mem_map.mp h
    have hane : a ≠ [] := fun hnil => hne (hnil ▸ ha)
    refine ⟨List.append_ne_nil_of_left_ne_nil hane _, fun n hn => ⟨a, ha, ?_⟩⟩
    rwa [leads_append hane] at hn

theorem Processed.edge (hdone : Processed G cyclic done) {q source : Production} (hq : q ∈ done)
    (hsource : source ∈ done) (h : ∃ a ∈ q.alts, leads source.name a = true) :
    TransGen (LeadingEdge G) q.name source.name := by
  obtain ⟨a, ha, hlead⟩ := h
  exact hdone.reach q hq a ha _ (hdone.known (mem_namesOf.mpr ⟨source, hsource, rfl⟩)) hlead

/-- Where a chain comes down it leaves an exempt alias, which it was not at before. -/
theorem Trail.fresh (hcyclic : ∀ n, TransGen (LeadingEdge G) n n → n ∈ cyclic)
    (hdone : Processed G cyclic done) {k j m : Nat} {alt : Sequence} {q source : Production}
    {passed : List String} (h : Trail G done p k j alt q passed) (hmj : m < j)
    (hm : done[m]? = some source) (hlead : leads source.name alt = true) :
    (q.name :: passed).Nodup ∧ ∀ n ∈ q.name :: passed, n ∈ namesOf done := by
  have hq : q ∈ done := List.mem_of_getElem? h.place
  have halias : q.name ∉ cyclic := by
    rcases hdone.place _ q h.place with hnot | hup
    · exact hnot
    · obtain ⟨a, ha, hlead'⟩ := h.begins _ hlead
      have hstarted := h.started
      rw [hup m source (by omega) hm a ha] at hlead'
      cases hlead'
  refine ⟨List.nodup_cons.mpr ⟨fun hmem => ?_, h.nodup⟩, List.forall_mem_cons.mpr ⟨?_, ?_⟩⟩
  · exact halias (hcyclic _ (h.passed _ hmem).2)
  · exact mem_namesOf.mpr ⟨q, hq, rfl⟩
  · exact fun n hn => (h.passed n hn).1

/-- Every chain has a trail, from its first step on. -/
theorem Chained.trail (hcyclic : ∀ n, TransGen (LeadingEdge G) n n → n ∈ cyclic)
    (hdone : Processed G cyclic done) (hp : p ∈ G) (hne : [] ∉ p.alts) {k j : Nat} {alt : Sequence}
    (h : Chained keep done p.alts k j alt) :
    alt ≠ [] ∧ ((k = 0 ∧ j = done.length ∧ alt ∈ p.alts) ∨
      ∃ q passed, Trail G done p k j alt q passed) := by
  induction h with
  | start halt => exact ⟨fun hnil => hne (hnil ▸ halt), .inl ⟨rfl, rfl, halt⟩⟩
  | @up k j m alt alt' source _ hjm hm hlead halt' ih =>
    have hsource := List.mem_of_getElem? hm
    obtain ⟨hne', hbegins⟩ := begins_unfoldLead (hdone.nonempty _ hsource) hlead halt'
    rcases ih.2 with ⟨-, rfl, -⟩ | ⟨q, passed, htrail⟩
    · have hlt := (List.getElem?_eq_some_iff.mp hm).1
      omega
    · have hedge := hdone.edge (List.mem_of_getElem? htrail.place) hsource
        (htrail.begins _ hlead)
      exact ⟨hne', .inr ⟨source, passed, hm, Nat.succ_pos m, hbegins, htrail.reached.trans hedge,
        htrail.nodup, htrail.count, fun n hn =>
          ⟨(htrail.passed n hn).1, (htrail.passed n hn).2.trans hedge⟩⟩⟩
  | @down k j m alt alt' source _ hmj hm hlead halt' ih =>
    have hsource := List.mem_of_getElem? hm
    obtain ⟨hne', hbegins⟩ := begins_unfoldLead (hdone.nonempty _ hsource) hlead halt'
    rcases ih.2 with ⟨rfl, rfl, halt⟩ | ⟨q, passed, htrail⟩
    · have hedge : LeadingEdge G p.name source.name := by
        refine ⟨p, hp, rfl, hdone.known (mem_namesOf.mpr ⟨source, hsource, rfl⟩), alt, halt, ?_⟩
        exact Option.bind_eq_some_iff.mp (leads_iff.mp hlead)
      exact ⟨hne', .inr ⟨source, [], hm, Nat.succ_pos m, hbegins, .single hedge, List.nodup_nil,
        rfl, fun n hn => absurd hn List.not_mem_nil⟩⟩
    · obtain ⟨hnodup, hnames⟩ := htrail.fresh hcyclic hdone hmj hm hlead
      have hedge := hdone.edge (List.mem_of_getElem? htrail.place) hsource
        (htrail.begins _ hlead)
      refine ⟨hne', .inr ⟨source, q.name :: passed, hm, Nat.succ_pos m, hbegins,
        htrail.reached.trans hedge, hnodup, congrArg (· + 1) htrail.count, fun n hn => ?_⟩⟩
      refine ⟨hnames n hn, ?_⟩
      rcases List.mem_cons.mp hn with rfl | hn
      · exact hedge
      · exact (htrail.passed n hn).2.trans hedge

/-- **A chain comes down once for each production before the target at most**, if no alternative
is empty. -/
theorem comesDown_le (hcyclic : ∀ n, TransGen (LeadingEdge G) n n → n ∈ cyclic)
    (hdone : Processed G cyclic done) (hp : p ∈ G) (hne : [] ∉ p.alts) {k : Nat}
    (h : ComesDown keep done p.alts k) : k ≤ done.length := by
  obtain ⟨j, alt, m, source, hchain, hmj, hm, hlead⟩ := h
  rcases (hchain.trail hcyclic hdone hp hne).2 with ⟨rfl, -⟩ | ⟨q, passed, htrail⟩
  · exact Nat.zero_le _
  · obtain ⟨hnodup, hnames⟩ := htrail.fresh hcyclic hdone hmj hm hlead
    have hle := (List.subperm_of_subset hnodup hnames).length_le
    rwa [List.length_cons, ← htrail.count, namesOf, List.length_map] at hle

variable (keep) in
/-- What the loop leaves begins where chains lead. -/
theorem reach_iterate (g : Nat) (hnd : (namesOf done).Nodup)
    (hcyclic : ∀ n, TransGen (LeadingEdge G) n n → n ∈ cyclic)
    (hdone : Processed G cyclic done) (hp : p ∈ G) (hne : [] ∉ p.alts) {alt : Sequence}
    (h : alt ∈ (fun alts => alts.flatMap (passAlt keep done))^[g] p.alts) :
    alt ≠ [] ∧ ∀ n ∈ namesOf G, leads n alt = true → TransGen (LeadingEdge G) p.name n := by
  obtain ⟨k, j, hchain, -⟩ := exists_chain hnd g h
  obtain ⟨hne', hway⟩ := hchain.trail hcyclic hdone hp hne
  refine ⟨hne', fun n hn hlead => ?_⟩
  rcases hway with ⟨-, -, halt⟩ | ⟨q, passed, htrail⟩
  · exact .single ⟨p, hp, rfl, hn, alt, halt, Option.bind_eq_some_iff.mp (leads_iff.mp hlead)⟩
  · obtain ⟨a, ha, hlead'⟩ := htrail.begins n hlead
    exact htrail.reached.trans (hdone.reach q (List.mem_of_getElem? htrail.place) a ha n hn hlead')

/-- Direct elimination keeps what alternatives begin with, but for the production itself. -/
theorem leads_eliminateDirectLeftRec {diag : String} {debtNames : List String}
    {r : Production × List String} (h : eliminateDirectLeftRec diag p debtNames = .ok r) :
    ([] ∉ p.alts → [] ∉ r.1.alts) ∧ ∀ alt ∈ r.1.alts, ∀ n, leads n alt = true →
      n ≠ p.name ∧ ∃ a ∈ p.alts, leads n a = true := by
  have hseeds : ∀ alt ∈ p.alts.filter (fun alt => !leads p.name alt), ∀ n, leads n alt = true →
      n ≠ p.name ∧ ∃ a ∈ p.alts, leads n a = true := by
    intro alt halt n hn
    obtain ⟨hmem, hnot⟩ := List.mem_filter.mp halt
    refine ⟨fun heq => ?_, alt, hmem, hn⟩
    rw [← heq, hn] at hnot
    cases hnot
  unfold eliminateDirectLeftRec at h
  dsimp only at h
  split at h
  · cases h
    exact ⟨fun hne hmem => hne (List.mem_filter.mp hmem).1, hseeds⟩
  · split at h
    · cases h
    · cases h
      refine ⟨fun _ hmem => List.cons_ne_nil _ _ (List.mem_singleton.mp hmem).symm, ?_⟩
      intro alt halt n hn
      obtain rfl := List.mem_singleton.mp halt
      unfold asElement at hn
      split at hn
      · next el hel =>
        rw [hel] at hseeds
        exact hseeds [el] List.mem_cons_self n hn
      · cases hn

end

/-! ## The run -/

/-- A state in which the main loop begins to substitute: the productions it has processed, the next
one, and what the grammar has gained. -/
structure SubstitutionStart where
  done : List Production
  target : Production
  added : Nat

section

variable (diag : String) (keep cyclic : List String)

/-- The states in which `paull` begins to substitute. -/
def startsFrom (guard : Nat) :
    List Production → List Production → Nat → List String → List SubstitutionStart
  | _, [], _, _ => []
  | done, p :: rest, added, debtNames =>
    (if exemptAlias p cyclic then [] else [⟨done, p, added⟩]) ++
      match substituteInto diag keep cyclic done guard p added with
      | .error _ => []
      | .ok (p, added) =>
        match eliminateDirectLeftRec diag p debtNames with
        | .error _ => []
        | .ok (p, debtNames) => startsFrom guard (done ++ [p]) rest added debtNames

/-- The states in which `eliminate_left_recursion_keeping` begins to substitute. -/
def substitutionStarts (grammar : Grammar) : List SubstitutionStart :=
  match expandNullableLeftPrefixes diag (grammar.productions.map fun p => p.rebuilt p.alts) 0 with
  | .error _ => []
  | .ok (expanded, added) =>
    let prods := topoOrderForPaull expanded
    startsFrom diag keep (findLeadingRefCycleMembers prods) (prods.length + 1) [] prods added []

end

section

variable {diag : String} {keep cyclic : List String} {G : List Production}

theorem not_mem_of_exemptAlias {p : Production} (h : exemptAlias p cyclic = true) :
    p.name ∉ cyclic := by
  unfold exemptAlias at h
  split at h
  · split at h
    · intro hmem
      simp [hmem] at h
    · cases h
  · cases h

/-- What substitution makes of a production: nothing, if it is exempt, or what the loop leaves. -/
theorem alts_substituteInto {done : List Production} {guard added : Nat} {p : Production}
    {r : Production × Nat} (h : substituteInto diag keep cyclic done guard p added = .ok r) :
    (p.name ∉ cyclic ∧ r.1.alts = p.alts) ∨
      r.1.alts = (fun alts => alts.flatMap (passAlt keep done))^[guard] p.alts := by
  unfold substituteInto at h
  split at h
  · next hexempt =>
    cases h
    exact .inl ⟨not_mem_of_exemptAlias hexempt, rfl⟩
  · obtain ⟨st, hst, h⟩ := bind_eq_ok h
    cases h
    exact .inr (alts_substituteEarlier guard hst)

theorem direct_name {p : Production} {debtNames : List String} {q : Production × List String}
    (h : eliminateDirectLeftRec diag p debtNames = .ok q) : q.1.name = p.name :=
  (Production.credit_eq_iff.mp (eliminateDirectLeftRec_credit h)).1

/-- The main loop keeps what it knows of the productions processed. -/
theorem Processed.snoc (hcyclic : ∀ n, TransGen (LeadingEdge G) n n → n ∈ cyclic)
    {done : List Production} (hdone : Processed G cyclic done) {p : Production} (hp : p ∈ G)
    (hne : [] ∉ p.alts) (hnd : (namesOf done).Nodup) {guard added : Nat} {r : Production × Nat}
    (hguard : done.length < guard)
    (hsub : substituteInto diag keep cyclic done guard p added = .ok r) {debtNames : List String}
    {q : Production × List String} (hdir : eliminateDirectLeftRec diag r.1 debtNames = .ok q) :
    Processed G cyclic (done ++ [q.1]) := by
  have hname : r.1.name = p.name := substituteInto_name hsub
  have hqname : q.1.name = p.name := (direct_name hdir).trans hname
  obtain ⟨hkept, hbegins⟩ := leads_eliminateDirectLeftRec hdir
  -- the alternatives that substitution leaves
  have halts : ∀ alt ∈ r.1.alts, alt ≠ [] ∧
      ∀ n ∈ namesOf G, leads n alt = true → TransGen (LeadingEdge G) p.name n := by
    intro alt halt
    rcases alts_substituteInto hsub with ⟨-, heq⟩ | heq
    · rw [heq] at halt
      exact reach_iterate keep 0 hnd hcyclic hdone hp hne halt
    · rw [heq] at halt
      exact reach_iterate keep _ hnd hcyclic hdone hp hne halt
  refine ⟨?_, ?_, ?_, ?_⟩
  · intro p' hp'
    rcases List.mem_append.mp hp' with hp' | hp'
    · exact hdone.nonempty p' hp'
    · rw [List.mem_singleton.mp hp']
      exact hkept fun hmem => (halts [] hmem).1 rfl
  · rw [namesOf_append]
    refine List.append_subset.mpr ⟨hdone.known, fun n hn => ?_⟩
    obtain rfl := List.mem_singleton.mp hn
    exact mem_namesOf.mpr ⟨p, hp, hqname.symm⟩
  · intro p' hp' alt halt n hn hlead
    rcases List.mem_append.mp hp' with hp' | hp'
    · exact hdone.reach p' hp' alt halt n hn hlead
    · rw [List.mem_singleton.mp hp'] at halt ⊢
      obtain ⟨-, a, ha, hlead'⟩ := hbegins alt halt n hlead
      rw [hqname]
      exact (halts a ha).2 n hn hlead'
  · intro j p' hj
    rcases Nat.lt_or_ge j done.length with hlt | hge
    · rw [List.getElem?_append_left hlt] at hj
      refine (hdone.place j p' hj).imp id fun hup m source hmj hm => hup m source hmj ?_
      rwa [List.getElem?_append_left (by omega)] at hm
    · rw [List.getElem?_append_right hge] at hj
      obtain ⟨hlt, rfl⟩ := List.getElem?_eq_some_iff.mp hj
      rw [List.length_singleton] at hlt
      obtain rfl : j = done.length := by omega
      simp only [Nat.sub_self, List.getElem_cons_zero]
      rw [hqname]
      rcases alts_substituteInto hsub with ⟨hnot, -⟩ | heq
      · exact .inl hnot
      · -- the loop has settled, and direct elimination takes its own references away
        have hsettled := (substituted_iff keep p.alts hnd guard).mpr fun k hk =>
          (comesDown_le hcyclic hdone hp hne hk).trans_lt hguard
        refine .inr fun m source hmj hm alt halt => ?_
        by_contra hlead
        obtain ⟨hown, a, ha, hlead'⟩ := hbegins alt halt source.name (by simpa using hlead)
        rcases Nat.lt_or_ge m done.length with hlt' | hge'
        · rw [List.getElem?_append_left hlt'] at hm
          rw [heq] at ha
          rw [hsettled source (List.mem_of_getElem? hm) a ha] at hlead'
          cases hlead'
        · obtain rfl : m = done.length := by omega
          rw [List.getElem?_append_right (Nat.le_refl _)] at hm
          simp only [Nat.sub_self, List.getElem?_cons_zero, Option.some.injEq] at hm
          exact hown (hm ▸ direct_name hdir)

/-- What holds of the processed productions and the ones to come after each step of the main loop
holds where a substitution begins. -/
theorem startsFrom_invariant {guard : Nat} {I : List Production → List Production → Prop}
    (hstep : ∀ {done rest : List Production} {p : Production} {added : Nat} {r : Production × Nat}
      {debtNames : List String} {q : Production × List String}, I done (p :: rest) →
      substituteInto diag keep cyclic done guard p added = .ok r →
      eliminateDirectLeftRec diag r.1 debtNames = .ok q → I (done ++ [q.1]) rest) :
    ∀ (rest done : List Production) {added : Nat} {debtNames : List String}, I done rest →
      ∀ s ∈ startsFrom diag keep cyclic guard done rest added debtNames,
        ∃ rest', I s.done (s.target :: rest')
  | [], _, _, _, _, s, hs => absurd hs List.not_mem_nil
  | p :: rest, done, added, debtNames, hI, s, hs => by
    unfold startsFrom at hs
    rcases List.mem_append.mp hs with hs | hs
    · split at hs
      · cases hs
      · obtain rfl := List.mem_singleton.mp hs
        exact ⟨rest, hI⟩
    · cases hsub : substituteInto diag keep cyclic done guard p added with
      | error e =>
        rw [hsub] at hs
        cases hs
      | ok r =>
        rw [hsub] at hs
        dsimp only at hs
        cases hdir : eliminateDirectLeftRec diag r.1 debtNames with
        | error e =>
          rw [hdir] at hs
          cases hs
        | ok q =>
          rw [hdir] at hs
          exact startsFrom_invariant hstep rest (done ++ [q.1]) (hstep hI hsub hdir) s hs

/-- The names of the productions stay as they are ordered. -/
theorem startsFrom_names {guard : Nat} {names : List String} {rest done : List Production}
    {added : Nat} {debtNames : List String} (h : namesOf (done ++ rest) = names) :
    ∀ s ∈ startsFrom diag keep cyclic guard done rest added debtNames,
      ∃ rest', namesOf (s.done ++ s.target :: rest') = names := by
  refine startsFrom_invariant (I := fun done rest => namesOf (done ++ rest) = names)
    (fun hI hsub hdir => ?_) rest done h
  rw [← hI]
  simp [(direct_name hdir).trans (substituteInto_name hsub)]

/-- Without an empty alternative, the main loop knows of every production processed. -/
theorem startsFrom_processed (hcyclic : ∀ n, TransGen (LeadingEdge G) n n → n ∈ cyclic)
    (hnd : (namesOf G).Nodup) (hne : ∀ p ∈ G, [] ∉ p.alts) {added : Nat} {debtNames : List String} :
    ∀ s ∈ startsFrom diag keep cyclic (G.length + 1) [] G added debtNames,
      Processed G cyclic s.done ∧ s.target ∈ G := by
  have hstep : ∀ {done rest : List Production} {p : Production} {added : Nat}
      {r : Production × Nat} {debtNames : List String} {q : Production × List String},
      ((Processed G cyclic done ∧ ∀ p' ∈ p :: rest, p' ∈ G) ∧
        namesOf (done ++ p :: rest) = namesOf G) →
      substituteInto diag keep cyclic done (G.length + 1) p added = .ok r →
      eliminateDirectLeftRec diag r.1 debtNames = .ok q →
      (Processed G cyclic (done ++ [q.1]) ∧ ∀ p' ∈ rest, p' ∈ G) ∧
        namesOf (done ++ [q.1] ++ rest) = namesOf G := by
    rintro done rest p added r debtNames q ⟨⟨hproc, hrest⟩, hnames⟩ hsub hdir
    obtain ⟨hp, hrest⟩ := List.forall_mem_cons.mp hrest
    have hlength : (done ++ p :: rest).length = G.length := by
      simpa [namesOf] using congrArg List.length hnames
    have hnodup : (namesOf done).Nodup := by
      rw [← hnames, namesOf_append] at hnd
      exact hnd.of_append_left
    have hguard : done.length < G.length + 1 := by
      rw [List.length_append] at hlength
      omega
    refine ⟨⟨hproc.snoc hcyclic hp (hne p hp) hnodup hguard hsub hdir, hrest⟩, ?_⟩
    rw [← hnames]
    simp [(direct_name hdir).trans (substituteInto_name hsub)]
  have hstart : Processed G cyclic [] := ⟨fun _ h => absurd h List.not_mem_nil,
    List.nil_subset _, fun _ h => absurd h List.not_mem_nil, fun _ _ h => by cases h⟩
  intro s hs
  obtain ⟨rest', ⟨hproc, hrest⟩, -⟩ := startsFrom_invariant
    (I := fun done rest => (Processed G cyclic done ∧ ∀ p ∈ rest, p ∈ G) ∧
      namesOf (done ++ rest) = namesOf G) hstep G [] ⟨⟨hstart, fun _ h => h⟩, rfl⟩ s hs
  exact ⟨hproc, hrest s.target List.mem_cons_self⟩

/-- Splitting leaves no empty alternative where there was none. -/
theorem splitHidden_nonempty {p : Production} : ∀ (guard : Nat) {alts : List Sequence}
    {added : Nat} {r : List Sequence × Nat}, splitHidden diag p guard alts added = .ok r →
      [] ∉ alts → [] ∉ r.1
  | 0, _, _, _, h, hne => by
    cases h
    exact hne
  | guard + 1, alts, added, r, h, hne => by
    unfold splitHidden at h
    rcases span_hidden p.name alts with
      ⟨-, hspan⟩ | ⟨before, el, rest, after, present, hspan, hpresent, hhidden, -⟩
    · rw [hspan] at h
      cases h
      exact hne
    · have halts : alts = before ++ (el :: rest) :: after := eq_append_of_span hspan
      have hrest : rest ≠ [] := by
        rintro rfl
        cases (isHiddenLeftRecursive_cons.mp hhidden).2
      rw [hspan] at h
      dsimp only at h
      rw [hpresent] at h
      obtain ⟨added₁, -, h⟩ := bind_eq_ok h
      refine splitHidden_nonempty guard h ?_
      simp only [halts, List.mem_append, List.mem_cons, List.not_mem_nil, or_false] at hne ⊢
      rintro ((hbefore | hwith | hwithout) | hafter)
      · exact hne (.inl hbefore)
      · exact hrest (List.append_eq_nil_iff.mp hwith.symm).2
      · exact hrest hwithout.symm
      · exact hne (.inr (.inr hafter))

theorem expand_nonempty : ∀ {prods : List Production} {added : Nat} {r : List Production × Nat},
    expandNullableLeftPrefixes diag prods added = .ok r → (∀ p ∈ prods, [] ∉ p.alts) →
      ∀ p ∈ r.1, [] ∉ p.alts
  | [], _, _, h, _ => by
    cases h
    exact fun p hp => absurd hp List.not_mem_nil
  | p :: prods, added, _, h, hne => by
    obtain ⟨⟨alts, added₁⟩, hsplit, h⟩ := bind_eq_ok h
    obtain ⟨⟨rest, added₂⟩, hrest, h⟩ := bind_eq_ok h
    cases h
    obtain ⟨hp, hprods⟩ := List.forall_mem_cons.mp hne
    exact List.forall_mem_cons.mpr
      ⟨splitHidden_nonempty _ hsplit hp, expand_nonempty hrest hprods⟩

/-- **The substitution loop of a production that is not exempt leaves no leading reference to an
earlier production exactly when no chain comes down more often than there are productions**, which
none does if no alternative of the grammar is empty. -/
theorem substituteEarlier_settles {grammar : Grammar} (hnd : grammar.names.Nodup) :
    ∀ s ∈ substitutionStarts diag keep grammar,
      (∀ st, substituteEarlier diag keep s.done (grammar.productions.length + 1)
          ⟨s.target, 0, s.added, false⟩ = .ok st →
        ((∀ q ∈ s.done, hasLeadingRefTo st.target q.name = false) ↔
          ∀ k, ComesDown keep s.done s.target.alts k → k ≤ grammar.productions.length)) ∧
      ((∀ p ∈ grammar.productions, [] ∉ p.alts) →
        ∀ k, ComesDown keep s.done s.target.alts k → k ≤ grammar.productions.length) := by
  unfold substitutionStarts
  cases hexp : expandNullableLeftPrefixes diag
    (grammar.productions.map fun p => p.rebuilt p.alts) 0 with
  | error e => exact fun s hs => absurd hs List.not_mem_nil
  | ok r =>
    obtain ⟨expanded, added⟩ := r
    intro s hs
    dsimp only at hs
    have hnames : namesOf expanded = grammar.names :=
      ((expand_spec (τ := fun _ => (0 : Language Unit)) _ _ hexp).1).trans
        (by simp [namesOf, Grammar.names])
    obtain ⟨hndTopo, hmem⟩ := topoOrderForPaull_spec (hnames ▸ hnd : (namesOf expanded).Nodup)
    have hlength : (topoOrderForPaull expanded).length = grammar.productions.length := by
      have hperm : (topoOrderForPaull expanded).Perm expanded :=
        (List.perm_ext_iff_of_nodup hndTopo.of_map
          (hnames ▸ hnd : (namesOf expanded).Nodup).of_map).mpr hmem
      have hcount : expanded.length = grammar.productions.length := by
        simpa [namesOf, Grammar.names] using congrArg List.length hnames
      exact hperm.length_eq.trans hcount
    obtain ⟨rest', hrest⟩ := startsFrom_names
      (rfl : namesOf ([] ++ topoOrderForPaull expanded) = _) s hs
    rw [namesOf_append] at hrest
    have hdone : (namesOf s.done).Nodup := (hrest ▸ hndTopo).of_append_left
    refine ⟨fun st hst => ?_, fun hne k hk => ?_⟩
    · have hsettled := substituted_iff keep s.target.alts hdone
        (grammar.productions.length + 1)
      rw [← alts_substituteEarlier _ hst] at hsettled
      simp only [Nat.lt_succ_iff] at hsettled
      rw [← hsettled]
      unfold Substituted hasLeadingRefTo
      simp only [List.any_eq_false, Bool.not_eq_true]
    · have hexpanded : ∀ p ∈ topoOrderForPaull expanded, [] ∉ p.alts := fun p hp =>
        expand_nonempty hexp (fun q hq => by
          obtain ⟨q', hq', rfl⟩ := List.mem_map.mp hq
          exact hne q' hq') p ((hmem p).mp hp)
      obtain ⟨hproc, htarget⟩ := startsFrom_processed
        (fun n => (mem_cyclic_iff hndTopo n).mpr) hndTopo hexpanded s hs
      have hle := comesDown_le (fun n => (mem_cyclic_iff hndTopo n).mpr) hproc htarget
        (hexpanded _ htarget) hk
      have hcount : s.done.length + (rest'.length + 1) = grammar.productions.length := by
        rw [← hlength]
        simpa [namesOf] using congrArg List.length hrest
      omega

end

/-- `M = / "m"`, `N = / "n"`, `A = N M N M N M N M "z"`. -/
def alternating : Grammar where
  productions := [
    { name := "M", alts := [[], [.lit "m"]] },
    { name := "N", alts := [[], [.lit "n"]] },
    { name := "A", alts := [[.reference "N", .reference "M", .reference "N", .reference "M",
      .reference "N", .reference "M", .reference "N", .reference "M", .lit "z"]] }]

/-- The fourth pass over `A` leaves `M "z"`. -/
theorem substituteEarlier_alternating :
    alternating.names.Nodup ∧ ∃ s ∈ substitutionStarts "bnf" [] alternating, ∃ st,
      substituteEarlier "bnf" [] s.done (alternating.productions.length + 1)
        ⟨s.target, 0, s.added, false⟩ = .ok st ∧
      ∃ q ∈ s.done, hasLeadingRefTo st.target q.name = true := by
  have hrun : ((substitutionStarts "bnf" [] alternating).any fun s =>
      (substituteEarlier "bnf" [] s.done (alternating.productions.length + 1)
        ⟨s.target, 0, s.added, false⟩).toOption.any fun st =>
          s.done.any fun q => hasLeadingRefTo st.target q.name) = true := by decide +kernel
  obtain ⟨s, hs, hrun⟩ := List.any_eq_true.mp hrun
  refine ⟨by decide, s, hs, ?_⟩
  cases hst : substituteEarlier "bnf" [] s.done (alternating.productions.length + 1)
      ⟨s.target, 0, s.added, false⟩ with
  | error e =>
    rw [hst] at hrun
    cases hrun
  | ok st =>
    rw [hst] at hrun
    exact ⟨st, rfl, List.any_eq_true.mp hrun⟩

theorem substituteEarlier_settles_alternating :
    alternating.names.Nodup ∧ ∀ s ∈ substitutionStarts "bnf" [] alternating,
      (∀ st, substituteEarlier "bnf" [] s.done 4 ⟨s.target, 0, s.added, false⟩ = .ok st →
        ((∀ q ∈ s.done, hasLeadingRefTo st.target q.name = false) ↔
          ∀ k, ComesDown [] s.done s.target.alts k → k ≤ 3)) ∧
      ((∀ p ∈ alternating.productions, [] ∉ p.alts) →
        ∀ k, ComesDown [] s.done s.target.alts k → k ≤ 3) :=
  ⟨by decide, substituteEarlier_settles (by decide)⟩

end TabnasBnf
