import Mathlib.Data.List.Nodup
import TabnasBnf.LeftRec

/-!
# The two orders of left-recursion elimination

With pairwise distinct names, the order Paull's algorithm runs in and the one it returns its
productions in rearrange the productions, and lose none:

* **`mem_topoOrderForPaull`**, `nodup_topoOrderForPaull`: the depth-first order. Its fuel is
  enough (`topoNext_lt`), so that every name is exited.
* **`mem_takeSlots`**, `namesOf_takeSlots`: the restored order lists the names as given.
-/

namespace TabnasBnf

/-! ## Productions by name -/

theorem eq_of_name_eq {prods : List Production} (h : (namesOf prods).Nodup) {p q : Production}
    (hp : p ∈ prods) (hq : q ∈ prods) (hn : p.name = q.name) : p = q :=
  List.inj_on_of_nodup_map h hp hq hn

theorem mem_of_byName {prods : List Production} {n : String} {p : Production}
    (h : byName prods n = some p) : p ∈ prods ∧ p.name = n := by
  have hf := List.find?_some h
  exact ⟨List.mem_reverse.mp (List.mem_of_find?_eq_some h), by simpa using hf⟩

theorem byName_isSome {prods : List Production} {n : String} :
    (byName prods n).isSome = true ↔ n ∈ namesOf prods := by
  rw [byName, List.find?_isSome, mem_namesOf]
  simp

theorem byName_eq {prods : List Production} (h : (namesOf prods).Nodup) {p : Production}
    (hp : p ∈ prods) : byName prods p.name = some p := by
  obtain ⟨q, hq⟩ := Option.isSome_iff_exists.mp (byName_isSome.mpr (mem_namesOf.mpr ⟨p, hp, rfl⟩))
  obtain ⟨hmem, hname⟩ := mem_of_byName hq
  rw [hq, eq_of_name_eq h hmem hp hname]

theorem mem_leadingRefs {prods : List Production} {p : Production} {n : String}
    (h : n ∈ leadingRefs prods p) : n ∈ namesOf prods :=
  byName_isSome.mp (List.mem_filter.mp h).2

theorem length_leadingRefs_le (prods : List Production) (p : Production) :
    (leadingRefs prods p).length ≤ p.alts.length :=
  (List.length_filter_le _ _).trans (List.length_filterMap_le _ _)

/-! ## The depth-first order -/

/-- The name a step exits, if it is an exit. -/
def TopoStep.exits : TopoStep → Option String
  | .exit name => some name
  | .enter _ => none

/-- The names still to be exited. -/
def pending (st : Topo) : List String := st.steps.filterMap TopoStep.exits

/-- Every name seen is either in the order or still to be exited, once. -/
structure TopoInv (prods : List Production) (st : Topo) : Prop where
  order : ∀ p ∈ st.order, p ∈ prods
  known : ∀ n ∈ pending st, n ∈ namesOf prods
  enters : ∀ n, .enter n ∈ st.steps → n ∈ namesOf prods
  nodup : (namesOf st.order ++ pending st).Nodup
  seen : ∀ n, n ∈ st.seen ↔ n ∈ namesOf st.order ++ pending st

/-- What the walk has still to do: its stack, and the names not seen. -/
def topoWork (prods : List Production) (st : Topo) : Nat :=
  st.steps.length +
    ((prods.filter fun p => p.name ∉ st.seen).map fun p => p.alts.length + 1).sum

theorem sum_filter_le_of_imp (prods : List Production) {P Q : Production → Bool}
    (f : Production → Nat) (h : ∀ p ∈ prods, P p = true → Q p = true) :
    ((prods.filter P).map f).sum ≤ ((prods.filter Q).map f).sum := by
  induction prods with
  | nil => exact le_refl _
  | cons p prods ih =>
    have ih := ih fun q hq => h q (List.mem_cons_of_mem _ hq)
    have hp := h p List.mem_cons_self
    simp only [List.filter_cons]
    cases hP : P p <;> cases hQ : Q p <;> simp_all
    omega

/-- A name newly seen takes its production out of the names not seen. -/
theorem sum_unseen_add_le {prods : List Production} {seen : List String} {p : Production}
    (hp : p ∈ prods) (hs : p.name ∉ seen) (f : Production → Nat) :
    ((prods.filter fun q => q.name ∉ p.name :: seen).map f).sum + f p ≤
      ((prods.filter fun q => q.name ∉ seen).map f).sum := by
  obtain ⟨before, after, rfl⟩ := List.append_of_mem hp
  have hle := fun l => sum_filter_le_of_imp l
    (P := fun q => q.name ∉ p.name :: seen) (Q := fun q => q.name ∉ seen) f
    (by simp +contextual)
  have hb := hle before
  have ha := hle after
  simp only [List.filter_append, List.filter_cons, List.map_append, List.sum_append] at *
  simp [hs] at *
  omega

theorem topoNext_lt (prods : List Production) (st st' : Topo) (h : topoNext prods st = some st') :
    topoWork prods st' < topoWork prods st := by
  unfold topoNext at h
  split at h
  · cases h
  · rename_i name steps hsteps
    split at h
    · cases h
      simp [topoWork, hsteps]
    · rename_i hseen
      cases hb : byName prods name with
      | some p =>
        simp only [hb] at h
        cases h
        obtain ⟨hp, rfl⟩ := mem_of_byName hb
        have hlen := length_leadingRefs_le prods p
        have hsum := sum_unseen_add_le hp hseen fun q => q.alts.length + 1
        simp only [topoWork, hsteps, List.length_append, List.length_map, List.length_cons]
        omega
      | none =>
        simp only [hb] at h
        cases h
        have hsum := sum_filter_le_of_imp prods
          (P := fun q => q.name ∉ name :: st.seen) (Q := fun q => q.name ∉ st.seen)
          (fun q => q.alts.length + 1) (by simp +contextual)
        simp only [topoWork, hsteps, List.length_cons]
        omega
  · rename_i name steps hsteps
    cases h
    simp [topoWork, hsteps]

@[simp] theorem filterMap_exits_enter (names : List String) :
    (names.map TopoStep.enter).filterMap TopoStep.exits = [] := by
  induction names with
  | nil => rfl
  | cons n names ih => exact ih

/-- The invariant looks at the stack through its exits and entries alone. -/
theorem TopoInv.congr {prods : List Production} {st st' : Topo} (hi : TopoInv prods st)
    (hp : pending st' = pending st) (ho : st'.order = st.order) (hs : st'.seen = st.seen)
    (he : ∀ n, .enter n ∈ st'.steps → n ∈ namesOf prods) : TopoInv prods st' where
  order := ho ▸ hi.order
  known := hp ▸ hi.known
  enters := he
  nodup := by rw [hp, ho]; exact hi.nodup
  seen := by rw [hp, ho, hs]; exact hi.seen

theorem topoInv_next {prods : List Production} (st st' : Topo)
    (h : topoNext prods st = some st') (hi : TopoInv prods st) : TopoInv prods st' := by
  unfold topoNext at h
  split at h
  · cases h
  · rename_i name steps hsteps
    have hpend : pending st = steps.filterMap TopoStep.exits := by
      rw [pending, hsteps]
      rfl
    have hname : name ∈ namesOf prods := hi.enters name (by rw [hsteps]; exact List.mem_cons_self)
    have htail : ∀ n, .enter n ∈ steps → n ∈ namesOf prods := fun n hn =>
      hi.enters n (by rw [hsteps]; exact List.mem_cons_of_mem _ hn)
    split at h
    · cases h
      exact hi.congr hpend.symm rfl rfl htail
    · rename_i hseen
      obtain ⟨p, hb⟩ := Option.isSome_iff_exists.mp (byName_isSome.mpr hname)
      simp only [hb] at h
      cases h
      have hpend' : pending { st with
          steps := (leadingRefs prods p).map .enter ++ .exit name :: steps,
          seen := name :: st.seen } = name :: pending st := by
        rw [hpend]
        simp [pending, TopoStep.exits]
      have hmiddle : List.Perm (namesOf st.order ++ name :: pending st)
          (name :: (namesOf st.order ++ pending st)) := List.perm_middle
      refine ⟨hi.order, ?_, ?_, ?_, ?_⟩
      · rw [hpend']
        exact List.forall_mem_cons.mpr ⟨hname, hi.known⟩
      · intro n hn
        rcases List.mem_append.mp hn with hn | hn
        · obtain ⟨m, hm, hmn⟩ := List.mem_map.mp hn
          cases hmn
          exact mem_leadingRefs hm
        · exact htail n (by simpa using hn)
      · rw [hpend', hmiddle.nodup_iff, List.nodup_cons]
        exact ⟨fun hmem => hseen ((hi.seen name).mpr hmem), hi.nodup⟩
      · intro n
        rw [hpend', hmiddle.mem_iff, List.mem_cons, List.mem_cons, hi.seen n]
  · rename_i name steps hsteps
    cases h
    have hpend : pending st = name :: steps.filterMap TopoStep.exits := by
      rw [pending, hsteps]
      rfl
    obtain ⟨p, hb⟩ := Option.isSome_iff_exists.mp
      (byName_isSome.mpr (hi.known name (hpend ▸ List.mem_cons_self)))
    obtain ⟨hp, rfl⟩ := mem_of_byName hb
    have heq : namesOf (st.order ++ [p]) ++ steps.filterMap TopoStep.exits =
        namesOf st.order ++ pending st := by
      rw [hpend, namesOf_append, List.append_assoc]
      rfl
    refine ⟨?_, ?_, ?_, ?_, ?_⟩
    · simp only [hb, Option.toList_some]
      intro q hq
      rcases List.mem_append.mp hq with hq | hq
      · exact hi.order q hq
      · exact List.mem_singleton.mp hq ▸ hp
    · exact fun n hn => hi.known n (hpend ▸ List.mem_cons_of_mem _ hn)
    · exact fun n hn => hi.enters n (by rw [hsteps]; exact List.mem_cons_of_mem _ hn)
    · simp only [hb, Option.toList_some, pending]
      rw [heq]
      exact hi.nodup
    · simp only [hb, Option.toList_some, pending]
      rw [heq]
      exact hi.seen

theorem seen_next {prods : List Production} {st st' : Topo} (h : topoNext prods st = some st') :
    st.seen ⊆ st'.seen ∧ ∀ n, .enter n ∈ st.steps → n ∈ st'.seen ∨ .enter n ∈ st'.steps := by
  unfold topoNext at h
  split at h
  · cases h
  · rename_i name steps hsteps
    rw [hsteps]
    have hcases : ∀ n, TopoStep.enter n ∈ TopoStep.enter name :: steps →
        n = name ∨ .enter n ∈ steps := fun n hn => by simpa using hn
    split at h
    · rename_i hseen
      cases h
      refine ⟨List.Subset.refl _, fun n hn => ?_⟩
      rcases hcases n hn with rfl | hn
      · exact Or.inl hseen
      · exact Or.inr hn
    · cases hb : byName prods name <;> simp only [hb] at h <;> cases h
      · refine ⟨List.subset_cons_self _ _, fun n hn => ?_⟩
        rcases hcases n hn with rfl | hn
        · exact Or.inl List.mem_cons_self
        · exact Or.inr hn
      · refine ⟨List.subset_cons_self _ _, fun n hn => ?_⟩
        rcases hcases n hn with rfl | hn
        · exact Or.inl List.mem_cons_self
        · exact Or.inr (List.mem_append_right _ (List.mem_cons_of_mem _ hn))
  · rename_i name steps hsteps
    cases h
    rw [hsteps]
    exact ⟨List.Subset.refl _, fun n hn => Or.inr (by simpa using hn)⟩

/-- One `visit` runs until its stack is empty, and its root is seen. -/
theorem topoVisit_root {prods : List Production} {name : String} {st : Topo}
    (hname : name ∈ namesOf prods) (hs : st.steps = []) (hi : TopoInv prods st) :
    let st' := Loop.run (topoNext prods) (topoFuel prods) { st with steps := [.enter name] }
    TopoInv prods st' ∧ st'.steps = [] ∧ name ∈ st'.seen ∧ st.seen ⊆ st'.seen := by
  intro st'
  have hstart : TopoInv prods { st with steps := [.enter name] } := by
    refine hi.congr ?_ rfl rfl fun n hn => ?_
    · simp [pending, hs, TopoStep.exits]
    · rw [List.mem_singleton] at hn
      cases hn
      exact hname
  have hwork : topoWork prods { st with steps := [.enter name] } ≤ topoFuel prods := by
    have h := sum_filter_le_of_imp prods (P := fun p => p.name ∉ st.seen)
      (Q := fun _ => true) (fun p => p.alts.length + 1) (fun _ _ _ => rfl)
    rw [List.filter_true] at h
    simp only [topoWork, topoFuel, List.length_singleton]
    omega
  have hrun := Loop.run_invariant (f := topoNext prods)
    (P := fun s => TopoInv prods s ∧ st.seen ⊆ s.seen ∧ (name ∈ s.seen ∨ .enter name ∈ s.steps))
    (fun s s' h hP => ⟨topoInv_next s s' h hP.1, fun n hn => (seen_next h).1 (hP.2.1 hn),
      hP.2.2.elim (fun hn => Or.inl ((seen_next h).1 hn)) ((seen_next h).2 name)⟩)
    (topoFuel prods) { st with steps := [.enter name] }
    ⟨hstart, List.Subset.refl _, Or.inr List.mem_cons_self⟩
  have hempty : st'.steps = [] := by
    have hdone := Loop.run_done (topoNext_lt prods) _ _ hwork
    unfold topoNext at hdone
    split at hdone
    · assumption
    · split at hdone
      · cases hdone
      · split at hdone <;> cases hdone
    · cases hdone
  refine ⟨hrun.1, hempty, hrun.2.2.resolve_right ?_, hrun.2.1⟩
  show .enter name ∉ st'.steps
  rw [hempty]
  exact List.not_mem_nil

theorem topoVisit_spec (prods : List Production) :
    ∀ (names : List String) (st : Topo), names ⊆ namesOf prods → st.steps = [] →
      TopoInv prods st →
      TopoInv prods (topoVisit prods names st) ∧ (topoVisit prods names st).steps = [] ∧
        (∀ n, n ∈ names ∨ n ∈ st.seen → n ∈ (topoVisit prods names st).seen)
  | [], _, _, hs, hi => ⟨hi, hs, fun _ hn => hn.resolve_left List.not_mem_nil⟩
  | name :: names, st, hsub, hs, hi => by
    obtain ⟨hi', hs', hname, hseen⟩ := topoVisit_root (hsub List.mem_cons_self) hs hi
    obtain ⟨h1, h2, h3⟩ := topoVisit_spec prods names _
      (fun n hn => hsub (List.mem_cons_of_mem _ hn)) hs' hi'
    refine ⟨h1, h2, fun n hn => h3 n ?_⟩
    rcases hn with hn | hn
    · rcases List.mem_cons.mp hn with rfl | hn
      · exact Or.inr hname
      · exact Or.inl hn
    · exact Or.inr (hseen hn)

/-- The order of Paull's algorithm takes one production of each name. -/
theorem topoOrderForPaull_names (prods : List Production) :
    (namesOf (topoOrderForPaull prods)).Nodup ∧ (∀ p ∈ topoOrderForPaull prods, p ∈ prods) ∧
      namesOf prods ⊆ namesOf (topoOrderForPaull prods) := by
  obtain ⟨hi, hs, hseen⟩ := topoVisit_spec prods (namesOf prods) ⟨[], [], []⟩
    (List.Subset.refl _) rfl
    ⟨fun _ hp => absurd hp List.not_mem_nil, fun _ hn => absurd hn List.not_mem_nil,
      fun _ hn => absurd hn List.not_mem_nil, List.nodup_nil, fun _ => Iff.rfl⟩
  have hpend : pending (topoVisit prods (namesOf prods) ⟨[], [], []⟩) = [] := by
    simp [pending, hs]
  have hnodup := hi.nodup
  rw [hpend, List.append_nil] at hnodup
  refine ⟨hnodup, hi.order, fun n hn => ?_⟩
  have hmem := (hi.seen n).mp (hseen n (Or.inl hn))
  rwa [hpend, List.append_nil] at hmem

/-- **The order of Paull's algorithm rearranges the productions.** -/
theorem topoOrderForPaull_spec {prods : List Production} (h : (namesOf prods).Nodup) :
    (namesOf (topoOrderForPaull prods)).Nodup ∧
      ∀ p, p ∈ topoOrderForPaull prods ↔ p ∈ prods := by
  obtain ⟨hnodup, hsub, hnames⟩ := topoOrderForPaull_names prods
  refine ⟨hnodup, fun p => ⟨hsub p, fun hp => ?_⟩⟩
  obtain ⟨q, hq, hname⟩ := mem_namesOf.mp (hnames (mem_namesOf.mpr ⟨p, hp, rfl⟩))
  rwa [eq_of_name_eq h hp (hsub q hq) hname.symm]

/-! ## The restored order -/

theorem slotsOf_eq {prods : List Production} (h : (namesOf prods).Nodup) :
    slotsOf prods = prods := by
  have key : ∀ (ps slots : List Production), (namesOf (slots ++ ps)).Nodup →
      ps.foldl (fun slots p =>
        if p.name ∈ namesOf slots then slots.map fun q => if q.name = p.name then p else q
        else slots ++ [p]) slots = slots ++ ps := by
    intro ps
    induction ps with
    | nil => exact fun slots _ => (List.append_nil slots).symm
    | cons p ps ih =>
      intro slots hn
      have hp : p.name ∉ namesOf slots := by
        rw [namesOf_append, namesOf_cons] at hn
        exact fun hmem => (List.nodup_append'.mp hn).2.2 hmem List.mem_cons_self
      rw [List.foldl_cons, if_neg hp, ih (slots ++ [p]) (by simpa using hn)]
      simp
  exact key prods [] h

theorem takeSlots_spec : ∀ (names : List String) (slots : List Production), names.Nodup →
    (namesOf slots).Nodup → (∀ n, n ∈ names ↔ n ∈ namesOf slots) →
    namesOf (takeSlots names slots) = names ∧ ∀ p, p ∈ takeSlots names slots ↔ p ∈ slots
  | [], slots, _, _, hmem => by
    have hnil : slots = [] := by
      cases slots with
      | nil => rfl
      | cons p slots => exact absurd ((hmem p.name).mpr List.mem_cons_self) List.not_mem_nil
    subst hnil
    exact ⟨rfl, fun _ => Iff.rfl⟩
  | n :: names, slots, hnd, hns, hmem => by
    obtain ⟨p, hp, rfl⟩ := mem_namesOf.mp ((hmem n).mp List.mem_cons_self)
    have hfind : slots.find? (·.name == p.name) = some p := by
      obtain ⟨q, hq⟩ := Option.isSome_iff_exists.mp
        (List.find?_isSome (p := fun q : Production => q.name == p.name).mpr ⟨p, hp, by simp⟩)
      have hname : q.name = p.name := by simpa using List.find?_some hq
      rw [hq, eq_of_name_eq hns (List.mem_of_find?_eq_some hq) hp hname]
    have hfilter : ∀ q, q ∈ slots.filter (·.name != p.name) ↔ q ∈ slots ∧ q.name ≠ p.name :=
      fun q => by simp
    obtain ⟨h1, h2⟩ := takeSlots_spec names (slots.filter (·.name != p.name))
      (List.nodup_cons.mp hnd).2 (hns.sublist (List.filter_sublist.map _)) fun m => by
        constructor
        · intro hm
          obtain ⟨q, hq, rfl⟩ := mem_namesOf.mp ((hmem m).mp (List.mem_cons_of_mem _ hm))
          exact mem_namesOf.mpr ⟨q, (hfilter q).mpr
            ⟨hq, fun h => (List.nodup_cons.mp hnd).1 (h ▸ hm)⟩, rfl⟩
        · intro hm
          obtain ⟨q, hq, rfl⟩ := mem_namesOf.mp hm
          obtain ⟨hq, hne⟩ := (hfilter q).mp hq
          exact (List.mem_cons.mp ((hmem q.name).mpr (mem_namesOf.mpr ⟨q, hq, rfl⟩))).resolve_left
            hne
    rw [takeSlots, hfind]
    refine ⟨by simpa using h1, fun q => ?_⟩
    rw [Option.toList_some, List.singleton_append, List.mem_cons, h2, hfilter]
    constructor
    · rintro (rfl | ⟨hq, -⟩)
      · exact hp
      · exact hq
    · intro hq
      by_cases hne : q.name = p.name
      · exact Or.inl (eq_of_name_eq hns hq hp hne)
      · exact Or.inr ⟨hq, hne⟩

end TabnasBnf
