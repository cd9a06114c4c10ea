import Mathlib.Data.List.Nodup

/-!
# Insertion-ordered tables

A table is the list of its entries in the order their keys were first inserted: inserting a key it
holds replaces the value in place, a new key goes to the end.
-/

namespace Table

variable {α β : Type*} [DecidableEq α]

/-- Insert a key with its value. -/
def insert (t : List (α × β)) (k : α) (v : β) : List (α × β) :=
  if (t.map Prod.fst).contains k then t.map fun e => if e.1 = k then (k, v) else e else t ++ [(k, v)]

/-- Insert entries in order. -/
def insertAll (t es : List (α × β)) : List (α × β) := es.foldl (fun t e => insert t e.1 e.2) t

/-- A new key goes to the end. -/
theorem insert_of_notMem {t : List (α × β)} {k : α} (h : k ∉ t.map Prod.fst) (v : β) :
    insert t k v = t ++ [(k, v)] := by
  unfold insert
  rw [if_neg (by simpa using h)]

/-- Entries whose keys are all new follow the ones there. -/
theorem insertAll_of_nodup {t es : List (α × β)} (h : ((t ++ es).map Prod.fst).Nodup) :
    insertAll t es = t ++ es := by
  induction es generalizing t with
  | nil => simp [insertAll]
  | cons e es ih =>
    have hnew : e.1 ∉ t.map Prod.fst := by
      rw [List.map_append, List.map_cons, List.nodup_append] at h
      exact fun hmem => h.2.2 _ hmem _ List.mem_cons_self rfl
    have hcons : insertAll t (e :: es) = insertAll (t ++ [e]) es := by
      rw [insertAll, List.foldl_cons, insert_of_notMem hnew]
      rfl
    rw [hcons, ih (by simpa using h), List.append_assoc]
    rfl

theorem mem_keys_insert {t : List (α × β)} {k k' : α} {v : β} :
    k' ∈ (insert t k v).map Prod.fst ↔ k' = k ∨ k' ∈ t.map Prod.fst := by
  unfold insert
  by_cases hmem : k ∈ t.map Prod.fst
  · rw [if_pos (by simpa using hmem), List.map_map]
    have hkeys : (Prod.fst ∘ fun e : α × β => if e.1 = k then (k, v) else e) = Prod.fst := by
      funext e
      by_cases he : e.1 = k
      · simp [he]
      · simp [he]
    rw [hkeys]
    exact ⟨.inr, fun h => h.elim (fun h => h ▸ hmem) id⟩
  · rw [if_neg (by simpa using hmem), List.map_append, List.mem_append]
    simp [or_comm]

theorem mem_insert {t : List (α × β)} {k : α} {v : β} {e : α × β} (h : e ∈ insert t k v) :
    e ∈ t ∨ e = (k, v) := by
  unfold insert at h
  split at h
  · obtain ⟨e, he, rfl⟩ := List.mem_map.mp h
    split
    · exact .inr rfl
    · exact .inl he
  · obtain he | he := List.mem_append.mp h
    · exact .inl he
    · exact .inr (List.mem_singleton.mp he)

theorem nodup_keys_insert {t : List (α × β)} (h : (t.map Prod.fst).Nodup) (k : α) (v : β) :
    ((insert t k v).map Prod.fst).Nodup := by
  by_cases hmem : k ∈ t.map Prod.fst
  · unfold insert
    rw [if_pos (by simpa using hmem), List.map_map]
    have hkeys : (Prod.fst ∘ fun e : α × β => if e.1 = k then (k, v) else e) = Prod.fst := by
      funext e
      by_cases he : e.1 = k
      · simp [he]
      · simp [he]
    rwa [hkeys]
  · rw [insert_of_notMem hmem, List.map_append, List.nodup_append]
    refine ⟨h, List.nodup_singleton _, fun a ha b hb heq => hmem ?_⟩
    rwa [heq, List.mem_singleton.mp hb] at ha

theorem lookup_eq_none {t : List (α × β)} {k : α} (h : k ∉ t.map Prod.fst) :
    t.lookup k = none := by
  rw [List.lookup_eq_none_iff]
  intro e he
  have hne : k ≠ e.1 := fun hk => h (hk ▸ List.mem_map_of_mem he)
  simpa using hne

theorem exists_lookup {t : List (α × β)} {k : α} (h : k ∈ t.map Prod.fst) :
    ∃ v, t.lookup k = some v := by
  obtain ⟨e, he, rfl⟩ := List.mem_map.mp h
  exact Option.isSome_iff_exists.mp (List.lookup_isSome_iff.mpr ⟨e, he, by simp⟩)

theorem lookup_replace (t : List (α × β)) (k k' : α) (v : β) :
    (t.map fun e => if e.1 = k then (k, v) else e).lookup k' =
      if k' = k then (t.lookup k).map fun _ => v else t.lookup k' := by
  induction t with
  | nil => simp
  | cons e t ih =>
    rw [List.map_cons, List.lookup_cons, List.lookup_cons, List.lookup_cons, ih]
    by_cases he : e.1 = k
    · by_cases hk : k' = k
      · simp [he, hk]
      · simp [he, hk, show (k' == k) = false by simpa using hk]
    · by_cases hk : k' = k
      · simp [he, hk, show (k == e.1) = false by simpa using Ne.symm he]
      · simp [he, hk]

/-- The last value inserted under a key is the one it has. -/
theorem lookup_insert (t : List (α × β)) (k k' : α) (v : β) :
    (insert t k v).lookup k' = if k' = k then some v else t.lookup k' := by
  unfold insert
  by_cases hmem : k ∈ t.map Prod.fst
  · rw [if_pos (by simpa using hmem), lookup_replace]
    obtain ⟨v', hv'⟩ := exists_lookup hmem
    rw [hv']
    rfl
  · rw [if_neg (by simpa using hmem), List.lookup_append]
    by_cases hk : k' = k
    · rw [if_pos hk, hk, lookup_eq_none hmem]
      simp
    · rw [if_neg hk, List.lookup_cons, show (k' == k) = false by simpa using hk]
      simp

theorem lookup_insertAll (t es : List (α × β)) (k : α) :
    (insertAll t es).lookup k = (es.reverse ++ t).lookup k := by
  induction es generalizing t with
  | nil => rfl
  | cons e es ih =>
    rw [show insertAll t (e :: es) = insertAll (insert t e.1 e.2) es from rfl, ih, List.lookup_append,
      lookup_insert, List.reverse_cons, List.append_assoc, List.lookup_append, List.singleton_append,
      List.lookup_cons]
    by_cases hk : k = e.1
    · simp [hk]
    · rw [if_neg hk, show (k == e.1) = false by simpa using hk]

/-- With distinct keys, an entry is found under its key. -/
theorem lookup_of_mem {t : List (α × β)} (h : (t.map Prod.fst).Nodup) {k : α} {v : β}
    (hmem : (k, v) ∈ t) : t.lookup k = some v := by
  induction t with
  | nil => cases hmem
  | cons e t ih =>
    rw [List.map_cons, List.nodup_cons] at h
    rcases List.mem_cons.mp hmem with rfl | hmem
    · simp
    · have hne : k ≠ e.1 := by
        rintro rfl
        exact h.1 (List.mem_map.mpr ⟨_, hmem, rfl⟩)
      rw [List.lookup_cons, show (k == e.1) = false by simpa using hne]
      exact ih h.2 hmem

theorem mem_of_lookup {t : List (α × β)} {k : α} {v : β} (h : t.lookup k = some v) :
    (k, v) ∈ t := by
  induction t with
  | nil => cases h
  | cons e t ih =>
    rw [List.lookup_cons] at h
    by_cases hk : k = e.1
    · simp only [hk, beq_self_eq_true, Option.some.injEq] at h
      rw [hk, ← h]
      exact List.mem_cons_self
    · rw [show (k == e.1) = false by simpa using hk] at h
      exact List.mem_cons_of_mem _ (ih h)

/-- A table holds the keys inserted into it. -/
theorem mem_keys_insertAll {t es : List (α × β)} {k : α} :
    k ∈ (insertAll t es).map Prod.fst ↔ k ∈ t.map Prod.fst ∨ k ∈ es.map Prod.fst := by
  induction es generalizing t with
  | nil => simp [insertAll]
  | cons e es ih =>
    rw [show insertAll t (e :: es) = insertAll (insert t e.1 e.2) es from rfl, ih, mem_keys_insert,
      List.map_cons, List.mem_cons]
    tauto

/-- An entry of tables written one after the other is the last one under its key. -/
theorem last_of_lookup {ι : Type*} {f : ι → List (α × β)} {is : List ι} {k : α} {v : β}
    (h : (insertAll [] (is.flatMap f)).lookup k = some v) :
    ∃ before i behind, is = before ++ i :: behind ∧ (k, v) ∈ f i ∧
      ∀ j ∈ behind, k ∉ (f j).map Prod.fst := by
  rw [lookup_insertAll, List.append_nil] at h
  induction is with
  | nil => cases h
  | cons i is ih =>
    rw [List.flatMap_cons, List.reverse_append, List.lookup_append] at h
    cases hlater : (is.flatMap f).reverse.lookup k with
    | some v' =>
      rw [hlater] at h
      obtain ⟨before, j, behind, rfl, hmem, hbehind⟩ := ih (hlater.trans h)
      exact ⟨i :: before, j, behind, rfl, hmem, hbehind⟩
    | none =>
      rw [hlater, Option.none_or] at h
      refine ⟨[], i, is, rfl, List.mem_reverse.mp (mem_of_lookup h), fun j hj hmem => ?_⟩
      obtain ⟨e, he, rfl⟩ := List.mem_map.mp hmem
      have hin : e ∈ (is.flatMap f).reverse :=
        List.mem_reverse.mpr (List.mem_flatMap.mpr ⟨j, hj, he⟩)
      have := List.lookup_eq_none_iff.mp hlater e hin
      simp at this

/-- The last table that has a key says what is under it. -/
theorem lookup_of_last {ι : Type*} {f : ι → List (α × β)} (before : List ι) {behind : List ι}
    {i : ι} {k : α} (hk : k ∈ (f i).map Prod.fst) (hbehind : ∀ j ∈ behind, k ∉ (f j).map Prod.fst) :
    ∃ v, (k, v) ∈ f i ∧ (insertAll [] ((before ++ i :: behind).flatMap f)).lookup k = some v := by
  have hnone : (behind.flatMap f).reverse.lookup k = none := by
    refine lookup_eq_none fun hmem => ?_
    rw [List.map_reverse, List.mem_reverse, List.map_flatMap] at hmem
    obtain ⟨j, hj, hmem⟩ := List.mem_flatMap.mp hmem
    exact hbehind j hj hmem
  obtain ⟨v, hv⟩ : ∃ v, (f i).reverse.lookup k = some v :=
    exists_lookup (by rwa [List.map_reverse, List.mem_reverse])
  refine ⟨v, List.mem_reverse.mp (mem_of_lookup hv), ?_⟩
  rw [lookup_insertAll, List.append_nil, List.flatMap_append, List.flatMap_cons, List.reverse_append,
    List.reverse_append, List.append_assoc, List.lookup_append, hnone, Option.none_or,
    List.lookup_append, hv, Option.some_or]

end Table
