import Mathlib.Data.List.Nodup
import Mathlib.Data.List.Perm.Subperm
import Mathlib.Data.List.Range

/-!
# Fresh names

`freshIndex mk used i` is the least index from `i` on whose name `mk` is not used yet: the loop
`while used.contains(mk(i)) { i += 1 }`. It looks at no more than `used.length` indices before
the one it returns, since `mk` is injective (`mk_freshIndex_notMem`).
-/

namespace Names

variable {α : Type*} [DecidableEq α] (mk : Nat → α) (used : List α)

/-- The loop, with the number of names it may still reject. -/
def firstFree : Nat → Nat → Nat
  | 0, i => i
  | fuel + 1, i => if mk i ∈ used then firstFree fuel (i + 1) else i

/-- The least index from `i` on whose name is not used. -/
def freshIndex (i : Nat) : Nat := firstFree mk used used.length i

variable {mk used}

theorem le_firstFree (fuel i : Nat) : i ≤ firstFree mk used fuel i := by
  induction fuel generalizing i with
  | zero => exact le_refl _
  | succ fuel ih =>
    unfold firstFree
    split
    · exact (Nat.le_succ i).trans (ih (i + 1))
    · exact le_refl _

theorem mem_of_lt_firstFree {fuel i j : Nat} (hij : i ≤ j) (hj : j < firstFree mk used fuel i) :
    mk j ∈ used := by
  induction fuel generalizing i with
  | zero => exact absurd hj (by unfold firstFree; omega)
  | succ fuel ih =>
    unfold firstFree at hj
    split at hj
    · rename_i h
      rcases Nat.eq_or_lt_of_le hij with rfl | hlt
      · exact h
      · exact ih hlt hj
    · omega

/-- A loop that ran out of indices rejected every name it looked at. -/
theorem mem_of_firstFree_mem {fuel i : Nat} (h : mk (firstFree mk used fuel i) ∈ used)
    {j : Nat} (hij : i ≤ j) (hj : j ≤ i + fuel) : mk j ∈ used := by
  induction fuel generalizing i with
  | zero =>
    have : j = i := by omega
    subst this
    exact h
  | succ fuel ih =>
    unfold firstFree at h
    split at h
    · rename_i hi
      rcases Nat.eq_or_lt_of_le hij with rfl | hlt
      · exact hi
      · exact ih h hlt (by omega)
    · contradiction

/-- **A fresh name is not used.** -/
theorem mk_freshIndex_notMem (hinj : Function.Injective mk) (i : Nat) :
    mk (freshIndex mk used i) ∉ used := by
  intro h
  have hsub : (List.range' i (used.length + 1)).map mk ⊆ used := by
    intro x hx
    obtain ⟨j, hj, rfl⟩ := List.mem_map.mp hx
    rw [List.mem_range'_1] at hj
    exact mem_of_firstFree_mem h hj.1 (by omega)
  have hnd : ((List.range' i (used.length + 1)).map mk).Nodup :=
    List.Nodup.map hinj List.nodup_range'
  have hlen := (hnd.subperm hsub).length_le
  rw [List.length_map, List.length_range'] at hlen
  omega

/-- No index before the fresh one is free. -/
theorem mem_of_lt_freshIndex {i j : Nat} (hij : i ≤ j) (hj : j < freshIndex mk used i) :
    mk j ∈ used := mem_of_lt_firstFree hij hj

/-- More used names, the fresh one not among them, leave it fresh. -/
theorem freshIndex_append (hinj : Function.Injective mk) {more : List α} {i : Nat}
    (h : mk (freshIndex mk used i) ∉ more) :
    freshIndex mk (more ++ used) i = freshIndex mk used i := by
  have hnew : mk (freshIndex mk (more ++ used) i) ∉ more ++ used := mk_freshIndex_notMem hinj i
  have hold : mk (freshIndex mk used i) ∉ used := mk_freshIndex_notMem hinj i
  rcases Nat.lt_trichotomy (freshIndex mk (more ++ used) i) (freshIndex mk used i) with
    hlt | heq | hlt
  · have hmem := mem_of_lt_freshIndex (le_firstFree _ i) hlt
    exact absurd (List.mem_append_right _ hmem) hnew
  · exact heq
  · have hmem := mem_of_lt_freshIndex (le_firstFree _ i) hlt
    exact absurd hmem fun hmem => (List.mem_append.mp hmem).elim h hold

/-- From `old` to `now` the names `new` were taken. -/
structure Taken {β : Type*} (old now new : List β) : Prop where
  grows : old ⊆ now
  names : new ⊆ now
  fresh : ∀ n ∈ new, n ∉ old
  nodup : new.Nodup

section

variable {β : Type*} {old now new : List β}

theorem Taken.refl (old : List β) : Taken old old [] :=
  ⟨List.Subset.refl _, List.nil_subset _, fun _ hn => absurd hn List.not_mem_nil, List.nodup_nil⟩

theorem Taken.single {n : β} (h : old ⊆ now) (hn : n ∉ old) (hmem : n ∈ now) :
    Taken old now [n] :=
  ⟨h, List.cons_subset.mpr ⟨hmem, List.nil_subset _⟩,
    fun _ hm => List.mem_singleton.mp hm ▸ hn, List.nodup_singleton n⟩

theorem Taken.trans {now₁ new₁ now₂ new₂ : List β} (h₁ : Taken old now₁ new₁)
    (h₂ : Taken now₁ now₂ new₂) : Taken old now₂ (new₁ ++ new₂) where
  grows := List.Subset.trans h₁.grows h₂.grows
  names := List.append_subset.mpr ⟨List.Subset.trans h₁.names h₂.grows, h₂.names⟩
  fresh := fun n hn hmem => (List.mem_append.mp hn).elim (fun h => h₁.fresh n h hmem)
    fun h => h₂.fresh n h (h₁.grows hmem)
  nodup := h₁.nodup.append h₂.nodup fun n hn hm => h₂.fresh n hm (h₁.names hn)

/-- The order in which names are taken does not count. -/
theorem Taken.perm {new' : List β} (h : Taken old now new) (hp : new.Perm new') :
    Taken old now new' where
  grows := h.grows
  names := fun _ hn => h.names (hp.mem_iff.mpr hn)
  fresh := fun n hn => h.fresh n (hp.mem_iff.mpr hn)
  nodup := hp.nodup_iff.mp h.nodup

/-- Distinct names stay distinct with those taken. -/
theorem Taken.append_nodup {base : List β} (h : Taken old now new) (hbase : base.Nodup)
    (hsub : base ⊆ old) : (base ++ new).Nodup :=
  hbase.append h.nodup fun n hn hm => h.fresh n hm (hsub hn)

end

/-- A decimal numeral determines its number. -/
theorem toString_injective : Function.Injective (toString : Nat → String) := by
  intro i j h
  have hl : (toString i).toList = (toString j).toList := by rw [h]
  rw [show (toString i).toList = Nat.toDigits 10 i from Nat.toList_repr,
    show (toString j).toList = Nat.toDigits 10 j from Nat.toList_repr] at hl
  rw [← @Nat.ofDigitChars_ten_toDigits i, hl, Nat.ofDigitChars_ten_toDigits]

/-- A decimal numeral between a fixed prefix and a fixed suffix determines its number. -/
theorem numbered_injective (pre post : String) :
    Function.Injective fun i : Nat => pre ++ toString i ++ post := by
  intro i j h
  exact toString_injective ((String.append_right_inj pre).mp ((String.append_left_inj post).mp h))

/-- A numeral holds digits alone. -/
theorem notMem_toString {c : Char} (hc : c.isDigit = false) (i : Nat) :
    c ∉ (toString i).toList := by
  intro hmem
  rw [show (toString i).toList = Nat.toDigits 10 i from Nat.toList_repr] at hmem
  rw [Nat.isDigit_of_mem_toDigits (by decide) (by decide) hmem] at hc
  cases hc

/-- A list is split in one way at the last occurrence of an element. -/
theorem split_last {β : Type*} {c : β} {x x' z z' : List β} (hz : c ∉ z) (hz' : c ∉ z')
    (h : x ++ c :: z = x' ++ c :: z') : x = x' ∧ z = z' := by
  rcases List.append_eq_append_iff.mp h with ⟨y, hx, hy⟩ | ⟨y, hx, hy⟩ <;> cases y with
  | nil => simp_all
  | cons d y =>
    simp only [List.cons_append, List.cons.injEq] at hy
    simp_all

/-! ## Occurrences -/

/-- Each name with its number among the occurrences of the name, `seen` of which come before. -/
def occurrences : List α → (α → Nat) → List (α × Nat)
  | [], _ => []
  | a :: as, seen => (a, seen a + 1) :: occurrences as (Function.update seen a (seen a + 1))

theorem mem_occurrences {as : List α} : ∀ {seen : α → Nat} {a : α} {n : Nat},
    (a, n) ∈ occurrences as seen ↔ seen a < n ∧ n ≤ seen a + as.count a := by
  induction as with
  | nil =>
    intro seen a n
    simp only [occurrences, List.not_mem_nil, List.count_nil, false_iff]
    omega
  | cons b as ih =>
    intro seen a n
    rw [occurrences, List.mem_cons, ih, List.count_cons, Prod.mk.injEq]
    by_cases hab : a = b
    · subst hab
      rw [Function.update_self, beq_self_eq_true, if_pos rfl]
      constructor
      · rintro (⟨-, rfl⟩ | ⟨hlt, hle⟩) <;> omega
      · rintro ⟨hlt, hle⟩
        rcases Nat.lt_or_ge (seen a + 1) n with h | h
        · exact .inr ⟨h, by omega⟩
        · exact .inl ⟨rfl, by omega⟩
    · rw [Function.update_of_ne hab, show (b == a) = false by simpa using Ne.symm hab]
      simp [hab]

theorem nodup_occurrences {as : List α} : ∀ {seen : α → Nat}, (occurrences as seen).Nodup := by
  induction as with
  | nil => exact List.nodup_nil
  | cons a as ih =>
    intro seen
    rw [occurrences, List.nodup_cons, mem_occurrences, Function.update_self]
    exact ⟨fun h => Nat.lt_irrefl _ h.1, ih⟩

/-- The first occurrences are those of the names. -/
theorem mem_occurrences_one {as : List α} {a : α} :
    (a, 1) ∈ occurrences as (fun _ => 0) ↔ a ∈ as := by
  rw [mem_occurrences, ← List.count_pos_iff]
  omega

end Names
