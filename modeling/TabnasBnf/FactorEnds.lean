import TabnasBnf.FactorCorrect
import TabnasBnf.Lib.WorkQueue
import Mathlib.Data.Prod.Lex

/-!
# Left factoring ends

An inlined reference may make a member of a run longer, but the head of a run is never inlined.
What a helper is left with is smaller than the production it came from (`rank`): it has fewer
alternatives, or as many and the first of them lost the common prefix.

* `factorOnce_rank`: a step leaves fewer alternatives and a smaller helper.
* **`leftFactor_ends`**: the loop over one production stops because nothing is left to factor, and
  the work queue empties.
-/

namespace TabnasBnf

/-! ## The rank of alternatives -/

/-- The size of the first view; nothing when a view is empty, since such an alternative joins no
run. -/
noncomputable def headSize (alts : List Sequence) : Nat :=
  if (alts.map unwrapAlt).any List.isEmpty then 0
  else match alts with
    | [] => 0
    | alt :: _ => 1 + sizeOf (unwrapAlt alt)

/-- The number of alternatives, and then the size of the first. -/
noncomputable def rank (alts : List Sequence) : Nat ×ₗ Nat := toLex (alts.length, headSize alts)

theorem sizeOf_unwrapped (el : Element) : sizeOf el.unwrapped ≤ sizeOf [el] := by
  fun_induction Element.unwrapped el with
  | case1 sp el ih =>
    simp only [List.cons.sizeOf_spec, List.nil.sizeOf_spec, Element.group.sizeOf_spec] at ih ⊢
    omega
  | case2 alt sp =>
    simp only [List.cons.sizeOf_spec, List.nil.sizeOf_spec, Element.group.sizeOf_spec]
    omega
  | case3 el => exact Nat.le_refl _

theorem sizeOf_unwrapAlt (alt : Sequence) : sizeOf (unwrapAlt alt) ≤ sizeOf alt := by
  match alt with
  | [] => exact Nat.le_refl _
  | [el] => exact sizeOf_unwrapped el
  | _ :: _ :: _ => exact Nat.le_refl _

theorem sizeOf_drop_lt {α : Sequence} {n : Nat} (hn : 0 < n) (hα : α ≠ []) :
    sizeOf (α.drop n) < sizeOf α := by
  induction α generalizing n with
  | nil => exact absurd rfl hα
  | cons el α ih =>
    obtain ⟨n, rfl⟩ : ∃ k, n = k + 1 := ⟨n - 1, by omega⟩
    rw [List.drop_succ_cons, List.cons.sizeOf_spec]
    by_cases hempty : α = []
    · subst hempty
      rw [List.drop_nil]
      omega
    · rcases Nat.eq_zero_or_pos n with rfl | hpos
      · rw [List.drop_zero]
        omega
      · have := ih hpos hempty
        omega

/-! ## The tails of a run -/

theorem distinctTails_sublist : ∀ (new tails : List Sequence),
    ∃ left : List Sequence, left.Sublist new ∧ distinctTails new tails = tails ++ left
  | [], tails => ⟨[], List.Sublist.refl _, (List.append_nil _).symm⟩
  | tail :: new, tails => by
    unfold distinctTails
    split
    · obtain ⟨left, hsub, heq⟩ := distinctTails_sublist new tails
      exact ⟨left, hsub.cons _, heq⟩
    · obtain ⟨left, hsub, heq⟩ := distinctTails_sublist new (tails ++ [tail])
      exact ⟨tail :: left, hsub.cons_cons _, by rw [heq, List.append_assoc]; rfl⟩

theorem length_emptyLast_le (tails : List Sequence) : (emptyLast tails).length ≤ tails.length := by
  unfold emptyLast
  rw [List.length_append]
  split
  next hany =>
    obtain ⟨t, ht, hempty⟩ := List.any_eq_true.mp hany
    have hlt : (tails.filter fun t => !t.isEmpty).length < tails.length :=
      List.length_filter_lt_length_iff_exists.mpr ⟨t, ht, by simp [hempty]⟩
    exact hlt
  next => exact List.length_filter_le _ _

theorem emptyLast_of_ne_nil {tails : List Sequence} (h : ∀ tail ∈ tails, tail ≠ []) :
    emptyLast tails = tails := by
  have hany : tails.any List.isEmpty = false :=
    List.any_eq_false.mpr fun tail htail => by simpa using h tail htail
  have hfilter : tails.filter (fun t => !t.isEmpty) = tails :=
    List.filter_eq_self.mpr fun tail htail => by simpa using h tail htail
  rw [emptyLast, hany, hfilter]
  exact List.append_nil _

/-- The tails are no more than the members, and when they are as many none was dropped. -/
theorem tailsOfRun_length (members : List Member) (plen : Nat) :
    (tailsOfRun members plen).length ≤ members.length ∧
      ((tailsOfRun members plen).length = members.length →
        tailsOfRun members plen = emptyLast (members.map fun m => m.view.drop plen)) := by
  obtain ⟨left, hsub, heq⟩ := distinctTails_sublist (members.map fun m => m.view.drop plen) []
  rw [List.nil_append] at heq
  have hlast := length_emptyLast_le left
  have hleft := hsub.length_le
  rw [List.length_map] at hleft
  rw [tailsOfRun, heq]
  refine ⟨hlast.trans hleft, fun hlength => ?_⟩
  rw [hsub.eq_of_length (by rw [List.length_map]; omega)]

/-- A view joins the run, or is skipped, or ends it. -/
theorem gatherRun_cons (headEl : Element) (j : Nat) (first : Element) (v : Sequence)
    (rest : List (Nat × Sequence)) :
    (∃ m, gatherRun lower upper grammar headEl ((j, first :: v) :: rest) =
        m :: gatherRun lower upper grammar headEl rest) ∨
      gatherRun lower upper grammar headEl ((j, first :: v) :: rest) =
        gatherRun lower upper grammar headEl rest ∨
      gatherRun lower upper grammar headEl ((j, first :: v) :: rest) = [] := by
  rw [gatherRun]
  split
  · exact .inl ⟨_, rfl⟩
  · split
    · exact .inl ⟨_, rfl⟩
    · split
      · exact .inr (.inr rfl)
      · split
        · exact .inr (.inr rfl)
        · split
          · exact .inr (.inr rfl)
          · exact .inr (.inl rfl)

/-- A run has no more members than there are views, and takes them all only where none is empty. -/
theorem gatherRun_length (headEl : Element) (views : List (Nat × Sequence)) :
    (gatherRun lower upper grammar headEl views).length ≤ views.length ∧
      ((gatherRun lower upper grammar headEl views).length = views.length →
        ∀ e ∈ views, e.2 ≠ []) := by
  induction views with
  | nil => exact ⟨Nat.le_refl _, fun _ e he => absurd he List.not_mem_nil⟩
  | cons e rest ih =>
    obtain ⟨j, v⟩ := e
    cases v with
    | nil => exact ⟨Nat.zero_le _, fun h => by simp [gatherRun] at h⟩
    | cons first v =>
      rw [List.length_cons]
      obtain ⟨m, hm⟩ | hskip | hstop := gatherRun_cons headEl j first v rest
      · rw [hm, List.length_cons]
        refine ⟨Nat.succ_le_succ ih.1, fun h => ?_⟩
        exact List.forall_mem_cons.mpr ⟨List.cons_ne_nil _ _, ih.2 (Nat.succ.inj h)⟩
      · rw [hskip]
        exact ⟨Nat.le_succ_of_le ih.1, fun h => absurd ih.1 (by omega)⟩
      · rw [hstop]
        exact ⟨Nat.zero_le _, fun h => by simp at h⟩

/-! ## A step -/

section

variable {diag prodName prodOrigin : String} {alts : List Sequence} {used : List String}
  {f : Factored}

/-- A run that is replaced leaves fewer alternatives. -/
theorem length_replaceRun {i k : Nat} {members : List Member} (replacement : Sequence)
    (hk : k < alts.length) (hmem : ∃ m ∈ members, m.idx = k) (hne : k ≠ i) :
    (replaceRun alts i members replacement).length < alts.length := by
  rw [replaceRun, List.length_map]
  have hlength : alts.length = alts.zipIdx.length := by simp
  rw [hlength, List.length_filter_lt_length_iff_exists]
  obtain ⟨m, hm, hidx⟩ := hmem
  refine ⟨(alts[k], k), List.mem_zipIdx_iff_getElem?.mpr (List.getElem?_eq_getElem hk), ?_⟩
  have hany : (members.any fun m => m.idx == k) = true :=
    List.any_eq_true.mpr ⟨m, hm, by simpa using hidx⟩
  simp [hany, hne]

theorem le_extendPrefix (first : Sequence) (run : List Sequence) :
    ∀ (fuel plen : Nat), plen ≤ extendPrefix first run fuel plen
  | 0, plen => Nat.le_refl _
  | fuel + 1, plen => by
    unfold extendPrefix
    split
    · exact (Nat.le_succ plen).trans (le_extendPrefix first run fuel (plen + 1))
    · exact Nat.le_refl _

/-- The indices of the views after one are indices of other alternatives. -/
theorem index_of_suffix {i : Nat} {view : Sequence} {later : List (Nat × Sequence)}
    (h : (i, view) :: later <:+ alts.zipIdx.map fun (alt, k) => (k, unwrapAlt alt))
    {e : Nat × Sequence} (he : e ∈ later) : e.1 < alts.length ∧ e.1 ≠ i := by
  constructor
  · obtain ⟨⟨alt, k⟩, hmem, rfl⟩ := List.mem_map.mp (h.subset (List.mem_cons_of_mem _ he))
    exact (List.getElem?_eq_some_iff.mp (List.mem_zipIdx_iff_getElem?.mp hmem)).1
  · have hindices : (alts.zipIdx.map fun (alt, k) => (k, unwrapAlt alt)).map Prod.fst =
        List.range' 0 alts.length := by
      rw [List.map_map]
      exact List.zipIdx_map_snd 0 alts
    have hnodup : (((i, view) :: later).map Prod.fst).Nodup := by
      refine (h.map Prod.fst).sublist.nodup ?_
      rw [hindices]
      exact List.nodup_range'
    rw [List.map_cons, List.nodup_cons] at hnodup
    intro heq
    exact hnodup.1 (List.mem_map.mpr ⟨e, he, heq⟩)

/-- The head of a run of every alternative loses the common prefix. -/
theorem headSize_tails_lt {i plen : Nat} {headEl : Element} {head : Sequence}
    {later : List (Nat × Sequence)} {members : List Member}
    (hviews : (alts.zipIdx.map fun (alt, k) => (k, unwrapAlt alt)) = (i, headEl :: head) :: later)
    (hlater : ∀ e ∈ later, e.2 ≠ []) (hplen : 1 ≤ plen) :
    headSize (emptyLast ((⟨i, headEl :: head, none⟩ :: members).map fun m => m.view.drop plen)) <
      headSize alts := by
  have hmap : alts.map unwrapAlt = (headEl :: head) :: later.map Prod.snd := by
    calc alts.map unwrapAlt = (alts.zipIdx.map Prod.fst).map unwrapAlt := by rw [List.zipIdx_map_fst]
      _ = (alts.zipIdx.map fun (alt, k) => (k, unwrapAlt alt)).map Prod.snd := by
        rw [List.map_map, List.map_map]
        rfl
      _ = (headEl :: head) :: later.map Prod.snd := by rw [hviews, List.map_cons]
  have hsize : headSize alts = 1 + sizeOf (headEl :: head) := by
    have hfull : (alts.map unwrapAlt).any List.isEmpty = false := by
      rw [hmap, List.any_eq_false]
      intro view hview
      obtain rfl | hview := List.mem_cons.mp hview
      · simp
      · obtain ⟨e, he, rfl⟩ := List.mem_map.mp hview
        simpa using hlater e he
    cases alts with
    | nil => cases hmap
    | cons alt rest =>
      unfold headSize
      rw [hfull, ← (List.cons.inj hmap).1]
      rfl
  rw [hsize]
  unfold headSize
  split
  next => omega
  next hfull =>
    -- no tail is empty, so the head's stands first
    have hnone : ∀ tail ∈ ((⟨i, headEl :: head, none⟩ :: members : List Member).map
        fun m => m.view.drop plen), tail ≠ [] := by
      rintro _ htail rfl
      refine hfull (List.any_eq_true.mpr ⟨[], ?_, rfl⟩)
      exact List.mem_map.mpr ⟨[], mem_emptyLast.mpr htail, rfl⟩
    rw [emptyLast_of_ne_nil hnone, List.map_cons]
    have hunwrap := sizeOf_unwrapAlt ((headEl :: head).drop plen)
    have hdrop := sizeOf_drop_lt hplen (List.cons_ne_nil headEl head)
    show 1 + sizeOf (unwrapAlt ((headEl :: head).drop plen)) < _
    omega

/-- **A step leaves fewer alternatives, and a helper of smaller rank.** -/
theorem factorOnce_rank
    (h : factorOnce diag lower upper grammar prodName prodOrigin alts used = .ok (some f)) :
    f.alts.length < alts.length ∧ ∀ q ∈ f.helper, rank q.alts < rank alts := by
  obtain ⟨i, headEl, head, later, hsuffix, hne, rfl⟩ := factorFrom_cases h
  obtain ⟨hcount, hall⟩ := @gatherRun_length lower upper grammar headEl later
  have hlater := hsuffix.length_le
  rw [List.length_cons, List.length_map, List.length_zipIdx] at hlater
  constructor
  · obtain ⟨replacement, -, hreplaced⟩ := factorRun_alts alts prodName prodOrigin used i
      (prefixLength (headEl :: head) (gatherRun lower upper grammar headEl later)) (headEl :: head)
      (gatherRun lower upper grammar headEl later)
    obtain ⟨m, hm⟩ := List.exists_mem_of_ne_nil _ hne
    obtain ⟨e, he, hidx, -⟩ := gatherRun_cases hm
    obtain ⟨hlt, hother⟩ := index_of_suffix hsuffix he
    rw [hreplaced]
    exact length_replaceRun replacement hlt ⟨m, List.mem_cons_of_mem _ hm, hidx⟩ hother
  · intro q hq
    rw [(factorRun_helper hq).2, rank, rank, Prod.Lex.toLex_lt_toLex]
    generalize hplen : prefixLength (headEl :: head) (gatherRun lower upper grammar headEl later) =
      plen
    obtain ⟨htails, hkept⟩ := tailsOfRun_length
      (⟨i, headEl :: head, none⟩ :: gatherRun lower upper grammar headEl later) plen
    rw [List.length_cons] at htails hkept
    rcases Nat.lt_or_ge (tailsOfRun (⟨i, headEl :: head, none⟩ ::
      gatherRun lower upper grammar headEl later) plen).length alts.length with hless | hmore
    · exact .inl hless
    · -- every alternative is a member, and the head lost the prefix
      refine .inr ⟨by omega, ?_⟩
      have hviews := hsuffix.eq_of_length (by
        rw [List.length_cons, List.length_map, List.length_zipIdx]
        omega)
      have hpos : 1 ≤ plen := hplen ▸ le_extendPrefix _ _ _ _
      rw [hkept (by omega)]
      exact headSize_tails_lt hviews.symm (hall (by omega)) hpos

/-- The steps of a production: the helpers queued are of smaller rank, and the last step was the
last there is. -/
theorem factorAlts_rank : ∀ (fuel : Nat) (alts : List Sequence) (used : List String)
    {r : List Sequence × List Production × List String}, alts.length ≤ fuel →
    factorAlts diag lower upper grammar prodName prodOrigin fuel alts used = .ok r →
      (∀ q ∈ r.2.1, rank q.alts < rank alts) ∧
        factorOnce diag lower upper grammar prodName prodOrigin r.1 r.2.2 = .ok none
  | 0, alts, used, r, hfuel, h => by
    obtain rfl := Except.ok.inj h
    obtain rfl := List.eq_nil_of_length_eq_zero (Nat.le_zero.mp hfuel)
    exact ⟨fun q hq => absurd hq List.not_mem_nil, rfl⟩
  | fuel + 1, alts, used, r, hfuel, h => by
    obtain ⟨next, honce, h⟩ := bind_eq_ok h
    cases next with
    | none =>
      obtain rfl := Except.ok.inj h
      exact ⟨fun q hq => absurd hq List.not_mem_nil, honce⟩
    | some f =>
      obtain ⟨⟨alts', queued, used'⟩, hrest, h⟩ := bind_eq_ok h
      obtain rfl := Except.ok.inj h
      obtain ⟨hfewer, hhelper⟩ := factorOnce_rank honce
      obtain ⟨hqueued, hlast⟩ := factorAlts_rank fuel f.alts _ (by omega) hrest
      refine ⟨fun q hq => ?_, hlast⟩
      have hless : rank f.alts < rank alts := Prod.Lex.toLex_lt_toLex.mpr (.inl hfewer)
      obtain hq | hq := List.mem_append.mp hq
      · exact hhelper q (Option.mem_toList.mp hq)
      · exact (hqueued q hq).trans hless

/-- The queue of productions empties. -/
theorem factorQueue_ends (queue : List Production) (used : List String) (out : List Production) :
    ∃ result steps, ∀ fuel ≥ steps,
      factorQueue diag lower upper grammar fuel queue used out = some result := by
  have hwf : WellFounded fun p q : Production => rank p.alts < rank q.alts :=
    InvImage.wf (fun p : Production => rank p.alts) wellFounded_lt
  refine @WorkQueue.induction _ (List String × List Production) _ hwf
    (fun queue s => ∃ result steps, ∀ fuel ≥ steps,
      factorQueue diag lower upper grammar fuel queue s.1 s.2 = some result)
    ?_ ?_ queue (used, out)
  · rintro ⟨used, out⟩
    exact ⟨.ok out, 0, fun fuel _ => by cases fuel <;> rfl⟩
  · rintro prod queue ⟨used, out⟩ ih
    by_cases hrewritten : isRewritten prod = true
    · obtain ⟨result, steps, hsteps⟩ := ih [] (used, out ++ [prod]) fun q hq =>
        absurd hq List.not_mem_nil
      rw [List.append_nil] at hsteps
      refine ⟨result, steps + 1, fun fuel hfuel => ?_⟩
      obtain ⟨fuel, rfl⟩ : ∃ k, fuel = k + 1 := ⟨fuel - 1, by omega⟩
      rw [factorQueue, if_pos hrewritten]
      exact hsteps fuel (by omega)
    · cases halts : factorAlts diag lower upper grammar prod.name prod.originOf prod.alts.length
          prod.alts used with
      | error e =>
        refine ⟨.error e, 1, fun fuel hfuel => ?_⟩
        obtain ⟨fuel, rfl⟩ : ∃ k, fuel = k + 1 := ⟨fuel - 1, by omega⟩
        rw [factorQueue, if_neg hrewritten, halts]
      | ok r =>
        obtain ⟨alts, queued, used'⟩ := r
        obtain ⟨result, steps, hsteps⟩ := ih queued (used', out ++ [{ prod with alts := alts }])
          (factorAlts_rank _ _ _ (Nat.le_refl _) halts).1
        refine ⟨result, steps + 1, fun fuel hfuel => ?_⟩
        obtain ⟨fuel, rfl⟩ : ∃ k, fuel = k + 1 := ⟨fuel - 1, by omega⟩
        rw [factorQueue, if_neg hrewritten, halts]
        exact hsteps fuel (by omega)

/-- **Left factoring ends.** The loop over a production stops at alternatives that no step changes,
and the work queue of productions and helpers empties. -/
theorem leftFactor_ends (diag : String) (lower upper : Char → Char) (grammar : Grammar) :
    (∀ prodName prodOrigin alts used r,
      factorAlts diag lower upper grammar prodName prodOrigin alts.length alts used = .ok r →
        factorOnce diag lower upper grammar prodName prodOrigin r.1 r.2.2 = .ok none) ∧
      ∃ result steps, ∀ fuel ≥ steps, leftFactor diag lower upper grammar fuel = some result := by
  refine ⟨fun prodName prodOrigin alts used r h => (factorAlts_rank _ _ _ (Nat.le_refl _) h).2, ?_⟩
  obtain ⟨result, steps, hsteps⟩ := @factorQueue_ends diag lower upper grammar grammar.productions
    grammar.names []
  exact ⟨_, steps, fun fuel hfuel => by rw [leftFactor, hsteps fuel hfuel]; rfl⟩

end

end TabnasBnf
