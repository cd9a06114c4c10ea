import TabnasBnf.LeftRecOrder
import TabnasBnf.Lib.Scc

/-!
# Cycles of leading references

`find_leading_ref_cycle_members` is a search for strongly connected components (`Refines`), and
of a component it answers with the names when it is a cycle.

* **`mem_findLeadingRefCycleMembers`**: in a grammar of distinct names, it answers with the names
  on a cycle of leading references, and with no other.
-/

namespace TabnasBnf

open Relation

/-- An alternative of `a` begins with a reference to the production `b`. -/
def LeadingEdge (prods : List Production) (a b : String) : Prop :=
  ∃ p ∈ prods, p.name = a ∧ b ∈ namesOf prods ∧
    ∃ alt ∈ p.alts, ∃ el ∈ alt.head?, el.refName = some b

section

variable {prods : List Production} {st st' : Tarjan} {s : Scc.State String}

/-- The targets of a name's frame. -/
def leadingTargets (prods : List Production) (n : String) : List String :=
  ((byName prods n).map (leadingRefs prods)).getD []

theorem edge_leadingTargets (h : (namesOf prods).Nodup) {a b : String} :
    Scc.Edge (leadingTargets prods) a b ↔ LeadingEdge prods a b := by
  unfold Scc.Edge leadingTargets LeadingEdge
  constructor
  · intro hb
    cases hp : byName prods a with
    | none => simp [hp] at hb
    | some p =>
      simp only [hp, Option.map_some, Option.getD_some] at hb
      obtain ⟨hmem, hname⟩ := mem_of_byName hp
      obtain ⟨hrefs, hknown⟩ := List.mem_filter.mp hb
      obtain ⟨alt, halt, href⟩ := List.mem_filterMap.mp hrefs
      obtain ⟨el, hel, href⟩ := Option.bind_eq_some_iff.mp href
      exact ⟨p, hmem, hname, byName_isSome.mp hknown, alt, halt, el, hel, href⟩
  · rintro ⟨p, hmem, rfl, hb, alt, halt, el, hel, href⟩
    rw [byName_eq h hmem, Option.map_some, Option.getD_some]
    refine List.mem_filter.mpr ⟨List.mem_filterMap.mpr ⟨alt, halt, ?_⟩, byName_isSome.mpr hb⟩
    exact Option.bind_eq_some_iff.mpr ⟨el, hel, href⟩

/-- A state of the code's search is a state of the search for components. -/
structure Refines (prods : List Production) (st : Tarjan) (s : Scc.State String) : Prop where
  index : s.index = st.index
  num : s.num = fun n => st.indices.lookup n
  low : s.low = st.low
  stack : s.stack = st.stack
  frames : s.frames = st.frames.map fun f => (f.name, f.targets)
  cyclic : st.cyclic = (s.comps.filter (isCycle prods)).flatten

theorem lookup_cons_eq_update {α : Type} (l : List (String × α)) (n : String) (a : α) :
    (fun m => ((n, a) :: l).lookup m) = Function.update (fun m => l.lookup m) n (some a) := by
  funext m
  by_cases h : m = n
  · simp [h]
  · have hb : (m == n) = false := beq_false_of_ne h
    simp [List.lookup_cons, h, hb]

theorem low_cons_eq_update (st : Tarjan) (n : String) (i : Nat) :
    ({ st with lowlinks := (n, i) :: st.lowlinks } : Tarjan).low = Function.update st.low n i := by
  funext m
  unfold Tarjan.low
  by_cases h : m = n
  · simp [h]
  · have hb : (m == n) = false := beq_false_of_ne h
    simp [List.lookup_cons, h, hb]

theorem Refines.idx (h : Refines prods st s) (n : String) : s.idx n = st.idx n := by
  rw [Scc.State.idx, h.num, Tarjan.idx]

theorem Refines.enter (h : Refines prods st s) (n : String) :
    Refines prods (st.openFrame prods n) (s.enter (leadingTargets prods) n) where
  index := congrArg (· + 1) h.index
  num := by
    rw [Tarjan.openFrame, Scc.State.enter, h.num, h.index, lookup_cons_eq_update]
  low := by
    have hlow := low_cons_eq_update st n st.index
    rw [Scc.State.enter, h.low, h.index, ← hlow]
    rfl
  stack := congrArg (n :: ·) h.stack
  frames := by
    rw [Tarjan.openFrame, Scc.State.enter, h.frames, List.map_cons]
    rfl
  cyclic := h.cyclic

theorem Refines.lower (h : Refines prods st s) (n : String) (i : Nat) :
    Refines prods { st with lowlinks := (n, min (st.low n) i) :: st.lowlinks } (s.lower n i) where
  index := h.index
  num := h.num
  low := by rw [low_cons_eq_update, Scc.State.lower, h.low]
  stack := h.stack
  frames := h.frames
  cyclic := h.cyclic

theorem Refines.close (h : Refines prods st s) (n : String) :
    Refines prods (st.popComponent prods n) (s.close n) := by
  have hne : (fun m : String => m != n) = fun m => decide (m ≠ n) := by
    funext m
    simp [bne, beq_eq_decide]
  unfold Tarjan.popComponent Scc.State.close
  rw [h.low, h.idx]
  split
  · refine ⟨h.index, h.num, rfl, ?_, h.frames, ?_⟩
    · rw [h.stack, hne]
    · rw [List.filter_append, List.flatten_append, ← h.cyclic, ← hne, ← h.stack]
      dsimp only
      split
      · next hc =>
        rw [List.filter_cons_of_pos hc]
        simp
      · next hc =>
        rw [List.filter_cons_of_neg hc]
        simp
  · exact h

/-- The frames after a step changed them. -/
theorem Refines.withFrames (h : Refines prods st s) (frames : List Frame) :
    Refines prods { st with frames := frames }
      { s with frames := frames.map fun f => (f.name, f.targets) } :=
  ⟨h.index, h.num, h.low, h.stack, rfl, h.cyclic⟩

/-- One step of the code's search is one step of the search for components. -/
theorem Refines.next (h : Refines prods st s) (hst : tarjanNext prods st = some st') :
    ∃ s', Scc.next (leadingTargets prods) s = some s' ∧ Refines prods st' s' := by
  unfold tarjanNext at hst
  split at hst
  · cases hst
  · next name target targets frames hframes =>
    have h' := h.withFrames (⟨name, targets⟩ :: frames)
    have hs : s.frames = (name, target :: targets) :: frames.map fun f => (f.name, f.targets) := by
      rw [h.frames, hframes, List.map_cons]
    have hnum : s.num target = st.indices.lookup target := congrFun h.num target
    rw [Scc.next_follow hs, hnum, h.idx]
    dsimp only at hst
    by_cases hnew : st.indices.lookup target = none
    · rw [if_pos (by rw [hnew]; rfl)] at hst
      obtain rfl := Option.some.inj hst
      exact ⟨_, if_pos hnew, h'.enter target⟩
    · rw [if_neg (by simpa using hnew)] at hst
      rw [if_neg hnew]
      by_cases hmem : target ∈ st.stack
      · rw [if_pos hmem] at hst
        obtain rfl := Option.some.inj hst
        exact ⟨_, if_pos (h.stack ▸ hmem), h'.lower name (st.idx target)⟩
      · rw [if_neg hmem] at hst
        obtain rfl := Option.some.inj hst
        exact ⟨_, if_neg (h.stack ▸ hmem), h'⟩
  · next name frames hframes =>
    have h' := (h.withFrames frames).close name
    have hs : s.frames = (name, []) :: frames.map fun f => (f.name, f.targets) := by
      rw [h.frames, hframes, List.map_cons]
    rw [Scc.next_leave hs]
    cases frames with
    | nil =>
      obtain rfl := Option.some.inj hst
      exact ⟨_, rfl, h'⟩
    | cons parent frames =>
      obtain rfl := Option.some.inj hst
      refine ⟨_, rfl, ?_⟩
      rw [congrFun h'.low name]
      exact h'.lower parent.name _

/-! ## The search ends -/

/-- The names entered. -/
def Tarjan.seen (st : Tarjan) : List String := st.indices.map Prod.fst

theorem lookup_eq_none_iff_seen {n : String} : st.indices.lookup n = none ↔ n ∉ st.seen := by
  unfold Tarjan.seen
  rw [List.lookup_eq_none_iff, List.mem_map]
  constructor
  · rintro h ⟨e, he, rfl⟩
    exact absurd (h e he) (by simp)
  · exact fun h e he => bne_iff_ne.mpr fun heq => h ⟨e, he, heq.symm⟩

/-- The names not entered, with their alternatives. -/
def unseenWork (prods : List Production) (seen : List String) : Nat :=
  ((prods.filter fun p => p.name ∉ seen).map fun p => p.alts.length + 1).sum

/-- What the search has still to do: its frames, and the names not entered. -/
def tarjanWork (prods : List Production) (st : Tarjan) : Nat :=
  (st.frames.map fun f => f.targets.length + 1).sum + unseenWork prods st.seen

theorem tarjanWork_openFrame {n : String} (hn : n ∈ namesOf prods) (hnew : n ∉ st.seen) :
    tarjanWork prods (st.openFrame prods n) ≤ tarjanWork prods st := by
  obtain ⟨p, hp⟩ := Option.isSome_iff_exists.mp (byName_isSome.mpr hn)
  obtain ⟨hmem, rfl⟩ := mem_of_byName hp
  have hlen := length_leadingRefs_le prods p
  have hsum : unseenWork prods (p.name :: st.seen) + (p.alts.length + 1) ≤
      unseenWork prods st.seen := sum_unseen_add_le hmem hnew fun q => q.alts.length + 1
  have hseen : (st.openFrame prods p.name).seen = p.name :: st.seen := rfl
  rw [tarjanWork, tarjanWork, hseen]
  simp only [Tarjan.openFrame, hp, Option.map_some, Option.getD_some, List.map_cons, List.sum_cons]
  omega

@[simp] theorem seen_popComponent (n : String) : (st.popComponent prods n).seen = st.seen := by
  unfold Tarjan.popComponent
  split <;> rfl

@[simp] theorem frames_popComponent (n : String) :
    (st.popComponent prods n).frames = st.frames := by
  unfold Tarjan.popComponent
  split <;> rfl

/-- A state that stands for one of the search for components. -/
def Searching (prods : List Production) (st : Tarjan) : Prop :=
  ∃ s, Refines prods st s ∧ Scc.Inv (leadingTargets prods) s

theorem searching_next (hst : tarjanNext prods st = some st') (h : Searching prods st) :
    Searching prods st' := by
  obtain ⟨s, hs, hinv⟩ := h
  obtain ⟨s', hnext, hs'⟩ := hs.next hst
  exact ⟨s', hs', hinv.next hnext⟩

theorem mem_leadingTargets {n m : String} (h : m ∈ leadingTargets prods n) :
    m ∈ namesOf prods := by
  unfold leadingTargets at h
  cases hp : byName prods n with
  | none => simp [hp] at h
  | some p =>
    simp only [hp, Option.map_some, Option.getD_some] at h
    exact mem_leadingRefs h

theorem tarjanNext_lt (hst : tarjanNext prods st = some st') (h : Searching prods st) :
    tarjanWork prods st' < tarjanWork prods st := by
  obtain ⟨s, hs, hinv⟩ := h
  unfold tarjanNext at hst
  split at hst
  · cases hst
  · next name target targets frames hframes =>
    have hknown : target ∈ namesOf prods := by
      refine mem_leadingTargets (hinv.targets name target ⟨target :: targets, ?_, by simp⟩)
      rw [hs.frames, hframes]
      exact List.mem_cons_self
    have htaken : tarjanWork prods { st with frames := ⟨name, targets⟩ :: frames } <
        tarjanWork prods st := by
      have hseen : ({ st with frames := ⟨name, targets⟩ :: frames } : Tarjan).seen = st.seen := rfl
      rw [tarjanWork, tarjanWork, hseen, hframes]
      simp only [List.map_cons, List.sum_cons, List.length_cons]
      omega
    dsimp only at hst
    split at hst
    · next hnew =>
      obtain rfl := Option.some.inj hst
      refine (tarjanWork_openFrame hknown ?_).trans_lt htaken
      exact lookup_eq_none_iff_seen.mp (Option.isNone_iff_eq_none.mp hnew)
    · split at hst
      · obtain rfl := Option.some.inj hst
        exact htaken
      · obtain rfl := Option.some.inj hst
        exact htaken
  · next name frames hframes =>
    have htaken : tarjanWork prods (({ st with frames := frames } : Tarjan).popComponent prods name) <
        tarjanWork prods st := by
      have hseen : ({ st with frames := frames } : Tarjan).seen = st.seen := rfl
      rw [tarjanWork, tarjanWork, seen_popComponent, frames_popComponent, hseen, hframes]
      simp only [List.map_cons, List.sum_cons, List.length_nil]
      omega
    cases frames with
    | nil =>
      obtain rfl := Option.some.inj hst
      exact htaken
    | cons parent frames =>
      obtain rfl := Option.some.inj hst
      exact htaken

theorem seen_tarjanNext (hst : tarjanNext prods st = some st') : st.seen ⊆ st'.seen := by
  unfold tarjanNext at hst
  split at hst
  · cases hst
  · dsimp only at hst
    split at hst
    · obtain rfl := Option.some.inj hst
      exact List.subset_cons_self _ _
    · split at hst <;> obtain rfl := Option.some.inj hst <;> exact List.Subset.refl _
  · next name frames hframes =>
    have hsame : (({ st with frames := frames } : Tarjan).popComponent prods name).seen = st.seen :=
      seen_popComponent name
    cases frames with
    | nil =>
      obtain rfl := Option.some.inj hst
      exact hsame ▸ List.Subset.refl _
    | cons parent frames =>
      obtain rfl := Option.some.inj hst
      exact hsame ▸ List.Subset.refl _

/-- One `strong_connect` runs until its frames are gone, and its root is entered. -/
theorem strongConnect_spec {n : String} (hn : n ∈ namesOf prods) (hnew : st.indices.lookup n = none)
    (hfr : st.frames = []) (h : Searching prods st) :
    let st' := Loop.run (tarjanNext prods) (topoFuel prods) (st.openFrame prods n)
    Searching prods st' ∧ st'.frames = [] ∧ n ∈ st'.seen ∧ st.seen ⊆ st'.seen := by
  intro st'
  have hstart : Searching prods (st.openFrame prods n) := by
    obtain ⟨s, hs, hinv⟩ := h
    refine ⟨_, hs.enter n, hinv.start ?_ ((congrFun hs.num n).trans hnew)⟩
    rw [hs.frames, hfr]
    rfl
  have hwork : tarjanWork prods (st.openFrame prods n) ≤ topoFuel prods := by
    have hle := @tarjanWork_openFrame _ st _ hn (lookup_eq_none_iff_seen.mp hnew)
    have hall : unseenWork prods st.seen ≤ ((prods.filter fun _ => true).map
        fun p => p.alts.length + 1).sum := sum_filter_le_of_imp prods _ fun _ _ _ => rfl
    rw [List.filter_true] at hall
    have hidle : tarjanWork prods st = unseenWork prods st.seen := by
      rw [tarjanWork, hfr, List.map_nil, List.sum_nil, Nat.zero_add]
    rw [topoFuel]
    omega
  have hrun := Loop.run_invariant (f := tarjanNext prods)
    (P := fun t => Searching prods t ∧ n :: st.seen ⊆ t.seen)
    (fun t t' ht hP => ⟨searching_next ht hP.1, List.Subset.trans hP.2 (seen_tarjanNext ht)⟩)
    (topoFuel prods) (st.openFrame prods n) ⟨hstart, List.Subset.refl _⟩
  have hdone : tarjanNext prods st' = none :=
    Loop.run_done_of_invariant (fun _ _ => searching_next) (fun _ _ => tarjanNext_lt) _ _ hstart hwork
  have hempty : st'.frames = [] := by
    unfold tarjanNext at hdone
    split at hdone
    · assumption
    · dsimp only at hdone
      split at hdone
      · cases hdone
      · split at hdone <;> cases hdone
    · dsimp only at hdone
      split at hdone <;> cases hdone
  exact ⟨hrun.1, hempty, hrun.2 List.mem_cons_self, fun m hm => hrun.2 (List.mem_cons_of_mem _ hm)⟩

theorem tarjanVisit_spec : ∀ (ps : List Production) (st : Tarjan),
    (∀ p ∈ ps, p.name ∈ namesOf prods) → st.frames = [] → Searching prods st →
      Searching prods (tarjanVisit prods ps st) ∧ (tarjanVisit prods ps st).frames = [] ∧
        ∀ n, n ∈ namesOf ps ∨ n ∈ st.seen → n ∈ (tarjanVisit prods ps st).seen
  | [], _, _, hfr, h => ⟨h, hfr, fun _ hn => hn.resolve_left List.not_mem_nil⟩
  | p :: ps, st, hps, hfr, h => by
    obtain ⟨hp, hps⟩ := List.forall_mem_cons.mp hps
    obtain ⟨t, ht, hsearch, hfr', hmem, hsub⟩ : ∃ t,
        t = (if (st.indices.lookup p.name).isNone then
          Loop.run (tarjanNext prods) (topoFuel prods) (st.openFrame prods p.name) else st) ∧
        Searching prods t ∧ t.frames = [] ∧ p.name ∈ t.seen ∧ st.seen ⊆ t.seen := by
      refine ⟨_, rfl, ?_⟩
      by_cases hnew : st.indices.lookup p.name = none
      · rw [if_pos (by rw [hnew]; rfl)]
        exact strongConnect_spec hp hnew hfr h
      · rw [if_neg (by simpa using hnew)]
        refine ⟨h, hfr, ?_, List.Subset.refl _⟩
        by_contra hnot
        exact hnew (lookup_eq_none_iff_seen.mpr hnot)
    rw [tarjanVisit, ← ht]
    obtain ⟨h₁, h₂, h₃⟩ := tarjanVisit_spec ps t hps hfr' hsearch
    refine ⟨h₁, h₂, fun n hn => h₃ n ?_⟩
    obtain hn | hn := hn
    · rw [namesOf_cons] at hn
      exact (List.mem_cons.mp hn).elim (fun heq => .inr (heq ▸ hmem)) .inl
    · exact .inr (hsub hn)

/-- A component is a cycle when it has two names, or a name that leads to itself. -/
theorem isCycle_iff {c : List String} {n : String} (hn : n ∈ c) :
    isCycle prods c = true ↔ c ≠ [n] ∨ Scc.Edge (leadingTargets prods) n n := by
  unfold isCycle
  match c with
  | [] => cases hn
  | [m] =>
    obtain rfl := List.mem_singleton.mp hn
    unfold Scc.Edge leadingTargets
    cases hp : byName prods n with
    | none => simp [hp]
    | some p => simp [hp]
  | m :: m' :: c => simp

/-- The search answers with the names that lead back to themselves. -/
theorem mem_cyclic_iff (h : (namesOf prods).Nodup) (n : String) :
    n ∈ findLeadingRefCycleMembers prods ↔ TransGen (LeadingEdge prods) n n := by
  have hstart : Searching prods ⟨0, [], [], [], [], []⟩ :=
    ⟨.empty, ⟨rfl, rfl, rfl, rfl, rfl, rfl⟩, .empty⟩
  obtain ⟨⟨s, hs, hinv⟩, hfr, hseen⟩ := tarjanVisit_spec prods _
    (fun p hp => mem_namesOf.mpr ⟨p, hp, rfl⟩) rfl hstart
  obtain ⟨-, hcomps⟩ := hinv.mem_comps (by rw [hs.frames, hfr]; rfl)
  have hedge : Scc.Edge (leadingTargets prods) = LeadingEdge prods :=
    funext fun a => funext fun b => propext (edge_leadingTargets h)
  rw [findLeadingRefCycleMembers, hs.cyclic, List.mem_flatten]
  constructor
  · rintro ⟨c, hc, hn⟩
    obtain ⟨hc, hcycle⟩ := List.mem_filter.mp hc
    rw [← hedge]
    exact (hinv.cyclic_iff hc hn).mpr ((isCycle_iff hn).mp hcycle)
  · intro hcycle
    obtain ⟨m, ⟨p, hp, hname, -⟩, -⟩ := TransGen.head'_iff.mp hcycle
    have hvis : s.Visited n := by
      have hmem := hseen n (.inl (mem_namesOf.mpr ⟨p, hp, hname⟩))
      rw [Scc.State.Visited, hs.num, Option.isSome_iff_ne_none]
      exact fun hnone => lookup_eq_none_iff_seen.mp hnone hmem
    obtain ⟨c, hc, hn⟩ := (hcomps n).mp hvis
    rw [← hedge] at hcycle
    exact ⟨c, List.mem_filter.mpr ⟨hc, (isCycle_iff hn).mpr ((hinv.cyclic_iff hc hn).mp hcycle)⟩, hn⟩

/-- **The names on cycles of leading references.** -/
theorem mem_findLeadingRefCycleMembers (h : (namesOf prods).Nodup) (n : String) :
    n ∈ findLeadingRefCycleMembers prods ↔ TransGen (LeadingEdge prods) n n :=
  mem_cyclic_iff h n

end

/-- `a = b / "x"`, `b = a`. -/
def crossed : List Production :=
  [{ name := "a", alts := [[.reference "b"], [.lit "x"]] }, { name := "b", alts := [[.reference "a"]] }]

theorem mem_findLeadingRefCycleMembers_crossed : TransGen (LeadingEdge crossed) "b" "b" :=
  (mem_findLeadingRefCycleMembers (by decide) "b").mp (by decide)

end TabnasBnf
