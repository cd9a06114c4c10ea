import Mathlib.Data.List.Sort
import TabnasBnf.EmitRead

/-!
# What placing the entries of a rule keeps

The debt guards, the specificity permutation and the keyword guards reorder the entries of a rule,
add conditions and peek further, but no alternate that comes out does anything else than an entry
that went in, and every entry's effect is still there (`mem_effect_placeEntries`).
-/

namespace TabnasBnf

section

variable {E : Emitter} {prod : Production} {entries : List Entry}

theorem effect_peekCopy {o : AltSpec} {s : List String} {b : Nat}
    (h : s.take (s.length - b) = o.consumed) : (peekCopy o s b).effect = o.effect := by
  unfold AltSpec.effect
  rw [show (peekCopy o s b).consumed = o.consumed from h]
  rfl

/-- The debt guards only add conditions. -/
theorem effects_applyDebtGuard :
    (applyDebtGuard prod entries).map (·.o.effect) = entries.map (·.o.effect) := by
  unfold applyDebtGuard
  split
  · rw [List.map_map]
    refine List.map_congr_left fun e _ => ?_
    simp only [Function.comp_apply]
    split <;> rfl
  · rfl

/-! ## The permutation -/

theorem nodup_contestedClasses : (contestedClasses E entries).Nodup := by
  unfold contestedClasses
  refine List.Sublist.nodup (List.Sublist.map _ List.filter_sublist) ?_
  rw [List.zipIdx_map_snd]
  exact List.nodup_range'

theorem lt_of_mem_contestedClasses {i : Nat} (h : i ∈ contestedClasses E entries) :
    i < entries.length := by
  unfold contestedClasses at h
  obtain ⟨⟨e, j⟩, hmem, rfl⟩ := List.mem_map.mp h
  exact (List.mem_zipIdx' (List.mem_of_mem_filter hmem)).1

/-- Positions that trade their elements among themselves lose none and gain none. -/
theorem mem_permuted {α : Type*} {xs : List α} {idxs order : List Nat} (hnd : idxs.Nodup)
    (hlt : ∀ i ∈ idxs, i < xs.length) (hperm : order.Perm idxs) {x : α} :
    x ∈ xs.zipIdx.map (fun (e, i) => (((idxs.zip order).lookup i).bind (xs[·]?)).getD e) ↔
      x ∈ xs := by
  have hkeys : (idxs.zip order).map Prod.fst = idxs := List.map_fst_zip hperm.length_eq.ge
  constructor
  · intro h
    obtain ⟨⟨e, i⟩, hmem, rfl⟩ := List.mem_map.mp h
    cases hto : ((idxs.zip order).lookup i).bind (xs[·]?) with
    | none => simpa [hto] using List.fst_mem_of_mem_zipIdx hmem
    | some e' =>
      obtain ⟨j, -, hj⟩ := Option.bind_eq_some_iff.mp hto
      simpa [hto] using List.mem_of_getElem? hj
  · intro h
    obtain ⟨k, hk⟩ := List.mem_iff_getElem?.mp h
    by_cases hmem : k ∈ order
    · -- the place the element goes to
      obtain ⟨q, hq⟩ := List.mem_iff_getElem?.mp hmem
      have hqlt : q < idxs.length := by
        rw [← hperm.length_eq]
        exact (List.getElem?_eq_some_iff.mp hq).1
      have hzip : (idxs[q], k) ∈ idxs.zip order :=
        List.mem_iff_getElem?.mpr ⟨q, List.getElem?_zip_eq_some.mpr
          ⟨List.getElem?_eq_getElem hqlt, hq⟩⟩
      have hlookup : (idxs.zip order).lookup idxs[q] = some k :=
        Table.lookup_of_mem (by rwa [hkeys]) hzip
      have hpos : idxs[q] < xs.length := hlt _ (List.getElem_mem hqlt)
      refine List.mem_map.mpr ⟨(xs[idxs[q]], idxs[q]), ?_, by simp [hlookup, hk]⟩
      exact List.mk_mem_zipIdx_iff_getElem?.mpr (List.getElem?_eq_getElem hpos)
    · refine List.mem_map.mpr ⟨(x, k), List.mk_mem_zipIdx_iff_getElem?.mpr hk, ?_⟩
      have hnone : (idxs.zip order).lookup k = none := by
        cases hto : (idxs.zip order).lookup k with
        | none => rfl
        | some j =>
          have hkey := List.mem_map_of_mem (f := Prod.fst) (Table.mem_of_lookup hto)
          rw [hkeys] at hkey
          exact absurd (hperm.mem_iff.mpr hkey) hmem
      simp [hnone]

/-- The permutation drops no entry and adds none. -/
theorem mem_specificityPermute {e : Entry} : e ∈ specificityPermute E entries ↔ e ∈ entries := by
  unfold specificityPermute
  dsimp only
  split
  · exact Iff.rfl
  · exact mem_permuted nodup_contestedClasses (fun i hi => lt_of_mem_contestedClasses hi)
      (List.perm_insertionSort _ _)

/-! ## The keyword guards -/

/-- The guards of an alternate headed by `f` alone do what it does. -/
theorem effect_synthKeywordGuards {o : AltSpec} {alt : Sequence} {f : String} {guards : List AltSpec}
    (h : synthKeywordGuards E prod o alt f = some guards) (hs : o.s = [f]) (hb : o.b ≤ 1) :
    ∀ g ∈ guards, g.effect = o.effect := by
  unfold synthKeywordGuards at h
  dsimp only at h
  split at h
  · cases h
  · split at h
    · cases h
    · obtain rfl := Option.some.inj h
      intro g hg
      obtain ⟨u, -, rfl⟩ := List.mem_map.mp hg
      refine effect_peekCopy ?_
      unfold AltSpec.consumed
      rw [hs]
      rcases Nat.le_one_iff_eq_zero_or_eq_one.mp hb with h | h <;> rw [h] <;> rfl

/-- Every alternate placed for an entry does what the entry does. -/
theorem effect_placeEntry {i : Nat} {e : Entry} {a : Placed}
    (h : a ∈ placeEntry E prod entries i e) : a.o.effect = e.o.effect := by
  unfold placeEntry at h
  dsimp only at h
  split at h
  · next firstC lastC alt f _ _ _ hs =>
    split at h
    · next guards hguards =>
      rcases List.mem_append.mp h with h | h
      · obtain ⟨g, hg, rfl⟩ := List.mem_map.mp h
        by_cases hb : e.o.b ≤ 1
        · rw [if_pos hb] at hguards
          exact effect_synthKeywordGuards hguards hs hb g hg
        · rw [if_neg hb] at hguards
          cases hguards
      · rw [List.mem_singleton.mp h]
    · rw [List.mem_singleton.mp h]
  · rw [List.mem_singleton.mp h]
  · rw [List.mem_singleton.mp h]

/-- An entry is placed itself. -/
theorem mem_placeEntry (i : Nat) (e : Entry) :
    ∃ a ∈ placeEntry E prod entries i e, a.o = e.o := by
  unfold placeEntry
  dsimp only
  split
  · split
    · exact ⟨_, List.mem_append_right _ (List.mem_singleton.mpr rfl), rfl⟩
    · exact ⟨_, List.mem_singleton.mpr rfl, rfl⟩
  · exact ⟨_, List.mem_singleton.mpr rfl, rfl⟩
  · exact ⟨_, List.mem_singleton.mpr rfl, rfl⟩

/-- Reordering for the keywords keeps the effects of the entries. -/
theorem mem_effect_reorderKeywordShadow {f : Effect} :
    f ∈ (reorderKeywordShadow E prod entries).map AltSpec.effect ↔
      f ∈ entries.map (·.o.effect) := by
  unfold reorderKeywordShadow
  constructor
  · intro h
    obtain ⟨o, ho, rfl⟩ := List.mem_map.mp h
    obtain ⟨a, ha, rfl⟩ := List.mem_map.mp ho
    obtain ⟨⟨e, i⟩, he, ha⟩ := List.mem_flatMap.mp ((List.mem_insertionSort _).mp ha)
    rw [effect_placeEntry ha]
    exact List.mem_map_of_mem (List.fst_mem_of_mem_zipIdx he)
  · intro h
    obtain ⟨e, he, rfl⟩ := List.mem_map.mp h
    obtain ⟨i, hi⟩ := List.mem_iff_getElem?.mp he
    obtain ⟨a, ha, hao⟩ : ∃ a ∈ placeEntry E prod entries i e, a.o = e.o := mem_placeEntry i e
    refine List.mem_map.mpr ⟨a.o, List.mem_map_of_mem ?_, by rw [hao]⟩
    refine (List.mem_insertionSort _).mpr (List.mem_flatMap.mpr ⟨(e, i), ?_, ha⟩)
    exact List.mk_mem_zipIdx_iff_getElem?.mpr hi

/-- **Placing keeps the effects** of the entries. -/
theorem mem_effect_placeEntries {f : Effect} :
    f ∈ (placeEntries E prod entries).map AltSpec.effect ↔ f ∈ entries.map (·.o.effect) := by
  have hperm : f ∈ (specificityPermute E (applyDebtGuard prod entries)).map (·.o.effect) ↔
      f ∈ (applyDebtGuard prod entries).map (·.o.effect) := by
    simp only [List.mem_map, mem_specificityPermute]
  unfold placeEntries
  rw [mem_effect_reorderKeywordShadow, hperm, effects_applyDebtGuard]

end

end TabnasBnf
