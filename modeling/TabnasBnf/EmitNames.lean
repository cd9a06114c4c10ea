import TabnasBnf.EmitRead

/-!
# The names of emitted rules

A generated name is a name, a `$` tag and a number; no tag holds a `$`, so the name and the number
are read back from the last one (`altName_inj`, `stepName_inj`). `Generated` says which names one
production generates: with names that no production of the grammar carries, those of two
productions are apart (`Generated.eq_of_shared`).
-/

namespace TabnasBnf

/-! ## Reading a generated name back -/

theorem mark_notMem {tag : List Char} (h : '$' ∉ tag) (i : Nat) :
    '$' ∉ tag ++ (toString i).toList :=
  List.not_mem_append h (Names.notMem_toString (by decide) i)

theorem toList_altName (name : String) (i : Nat) :
    (altName name i).toList = name.toList ++ '$' :: (['a', 'l', 't'] ++ (toString i).toList) := by
  unfold altName
  rw [String.toList_append, String.toList_append, List.append_assoc]
  rfl

theorem toList_stepName (name : String) (i : Nat) :
    (stepName name i).toList =
      name.toList ++ '$' :: (['s', 't', 'e', 'p'] ++ (toString i).toList) := by
  unfold stepName
  rw [String.toList_append, String.toList_append, List.append_assoc]
  rfl

theorem altName_inj {a b : String} {i j : Nat} : altName a i = altName b j ↔ a = b ∧ i = j := by
  refine ⟨fun h => ?_, fun ⟨ha, hi⟩ => by rw [ha, hi]⟩
  have h := congrArg String.toList h
  rw [toList_altName, toList_altName] at h
  obtain ⟨ha, hi⟩ := Names.split_last (mark_notMem (by decide) i) (mark_notMem (by decide) j) h
  exact ⟨String.toList_inj.mp ha,
    Names.toString_injective (String.toList_inj.mp (List.append_cancel_left hi))⟩

theorem stepName_inj {a b : String} {i j : Nat} : stepName a i = stepName b j ↔ a = b ∧ i = j := by
  refine ⟨fun h => ?_, fun ⟨ha, hi⟩ => by rw [ha, hi]⟩
  have h := congrArg String.toList h
  rw [toList_stepName, toList_stepName] at h
  obtain ⟨ha, hi⟩ := Names.split_last (mark_notMem (by decide) i) (mark_notMem (by decide) j) h
  exact ⟨String.toList_inj.mp ha,
    Names.toString_injective (String.toList_inj.mp (List.append_cancel_left hi))⟩

theorem altName_ne_stepName (a b : String) (i j : Nat) : altName a i ≠ stepName b j := by
  intro h
  have h := congrArg String.toList h
  rw [toList_altName, toList_stepName] at h
  have htag := (Names.split_last (mark_notMem (by decide) i) (mark_notMem (by decide) j) h).2
  simp at htag

theorem altName_ne_self (a : String) (i : Nat) : altName a i ≠ a := by
  intro h
  have hlen := congrArg List.length (congrArg String.toList h)
  rw [toList_altName] at hlen
  simp at hlen

theorem stepName_ne_self (a : String) (i : Nat) : stepName a i ≠ a := by
  intro h
  have hlen := congrArg List.length (congrArg String.toList h)
  rw [toList_stepName] at hlen
  simp at hlen

theorem stepName_altName_ne_self (a : String) (i j : Nat) : stepName (altName a i) j ≠ a := by
  intro h
  have hlen := congrArg List.length (congrArg String.toList h)
  rw [toList_stepName, toList_altName] at hlen
  simp at hlen

theorem chainName_injective (head : String) : Function.Injective (chainName head) := by
  intro i j h
  unfold chainName at h
  by_cases hi : i = 0 <;> by_cases hj : j = 0
  · omega
  · rw [if_pos hi, if_neg hj] at h
    exact absurd h.symm (stepName_ne_self head j)
  · rw [if_neg hi, if_pos hj] at h
    exact absurd h (stepName_ne_self head i)
  · rw [if_neg hi, if_neg hj] at h
    exact (stepName_inj.mp h).2

/-! ## The start wrapper -/

theorem mark_notMem_wrapperName (n : Nat) : '$' ∉ (wrapperName n).toList := by
  unfold wrapperName
  split
  · decide
  · rw [String.toList_append, String.toList_append, List.mem_append, not_or]
    have hnum : '$' ∉ "__start".toList ++ (toString (n + 1)).toList := mark_notMem (by decide) _
    exact ⟨hnum, by decide⟩

theorem wrapperName_injective : Function.Injective wrapperName := by
  have hne : ∀ n : Nat, "__start__" ≠ "__start" ++ toString (n + 1) ++ "__" := by
    intro n h
    have h : ("__start" ++ "" ++ "__") = "__start" ++ toString (n + 1) ++ "__" := h
    have hnum := (String.append_right_inj _).mp ((String.append_left_inj _).mp h)
    have hdigits := congrArg String.toList hnum
    rw [show (toString (n + 1)).toList = Nat.toDigits 10 (n + 1) from Nat.toList_repr] at hdigits
    exact Nat.toDigits_ne_nil hdigits.symm
  intro i j h
  unfold wrapperName at h
  by_cases hi : i = 0 <;> by_cases hj : j = 0
  · omega
  · rw [if_pos hi, if_neg hj] at h
    exact absurd h (hne j)
  · rw [if_neg hi, if_pos hj] at h
    exact absurd h.symm (hne i)
  · rw [if_neg hi, if_neg hj] at h
    have := Names.numbered_injective "__start" "__" h
    omega

/-- The start wrapper is no production of the grammar. -/
theorem startWrapper_notMem (E : Emitter) : startWrapper E ∉ E.grammar.names :=
  Names.mk_freshIndex_notMem wrapperName_injective 0

/-! ## What a production generates -/

/-- The names of the rules of one production `name`, `keys`: each is the production's own, or that
of one of its alternatives, or that of a later step of one of these. -/
structure Generated (name : String) (keys : List String) : Prop where
  shape : ∀ k ∈ keys, k = name ∨ (∃ i, k = altName name i) ∨
    ∃ b i, k = stepName b i ∧ b ∈ keys ∧ (b = name ∨ ∃ j, b = altName name j)

/-- A generated name other than the production's own holds a `$`. -/
theorem Generated.ne_wrapperName {name : String} {keys : List String} (h : Generated name keys)
    {k : String} (hk : k ∈ keys) (hne : k ≠ name) (n : Nat) : k ≠ wrapperName n := by
  have hmark : '$' ∈ k.toList := by
    rcases h.shape k hk with rfl | ⟨i, rfl⟩ | ⟨b, i, rfl, -, -⟩
    · exact absurd rfl hne
    · rw [toList_altName]
      simp
    · rw [toList_stepName]
      simp
  rintro rfl
  exact mark_notMem_wrapperName n hmark

/-- Two productions whose generated names are no production's share no rule name. -/
theorem Generated.eq_of_shared {names : List String} {p q : String} {ps qs : List String}
    (hp : Generated p ps) (hq : Generated q qs) (hpn : p ∈ names) (hqn : q ∈ names)
    (hpf : ∀ k ∈ ps, k ∈ names → k = p) (hqf : ∀ k ∈ qs, k ∈ names → k = q) {k : String}
    (hkp : k ∈ ps) (hkq : k ∈ qs) : p = q := by
  -- a name of both that is no later step of `p`
  have hhead : ∀ b ∈ ps, b ∈ qs → (b = p ∨ ∃ j, b = altName p j) → p = q := by
    rintro b hbp hbq (rfl | ⟨j, rfl⟩)
    · exact hqf _ hbq hpn
    · rcases hq.shape _ hbq with h | ⟨i, h⟩ | ⟨b, i, h, -, -⟩
      · exact (hpf _ hbp (h ▸ hqn)).symm.trans h
      · exact (altName_inj.mp h).1
      · exact absurd h (altName_ne_stepName _ _ _ _)
  rcases hp.shape k hkp with h | ⟨i, h⟩ | ⟨b, i, h, hb, hbshape⟩
  · exact hhead k hkp hkq (.inl h)
  · exact hhead k hkp hkq (.inr ⟨i, h⟩)
  · rcases hq.shape k hkq with h' | ⟨i', h'⟩ | ⟨b', i', h', hb', -⟩
    · exact (hpf k hkp (h' ▸ hqn)).symm.trans h'
    · exact absurd (h'.symm.trans h) (altName_ne_stepName _ _ _ _)
    · obtain ⟨rfl, -⟩ := stepName_inj.mp (h.symm.trans h')
      exact hhead b hb hb' hbshape

end TabnasBnf
