import TabnasBnf.Factor
import TabnasBnf.LeftRecLang

/-!
# Left factoring keeps the language

Of `factorOnce`, over any languages of the names that the one-alternative rules it inlines and
the helper it queues solve:

* `factorOnce_den`: the alternatives after a step denote what they did before.

Of a whole run of `leftFactor`:

* **`leftFactor_lang`**: every production of the input derives what it derived before, unless a
  helper takes the name of a reference that named no production.
* `leftFactor_captures`: such a grammar, and a string it gains.
-/

namespace TabnasBnf

variable {T : Type*} {τ : Element → Language T} {ρ : Env T}
  {lower upper : Char → Char} {grammar : Grammar} {alts : List Sequence}

/-! ## Structural equality -/

/-- Terminals with one token stand for one language. -/
def RespectsEqual (τ : Element → Language T) : Prop :=
  ∀ a b : Element, a.isTerminal = true → b.isTerminal = true → elemEqual a b = true → τ a = τ b

mutual
theorem den_of_elemEqual (hτ : RespectsEqual τ) :
    ∀ a b : Element, elemEqual a b = true → den τ ρ a = den τ ρ b
  | .term l cs n sp, b, h => by
    cases b <;> first | exact absurd h Bool.false_ne_true | skip
    rw [den_terminal rfl, den_terminal rfl]
    exact hτ _ _ rfl rfl h
  | .token n sp, b, h => by
    cases b <;> first | exact absurd h Bool.false_ne_true | skip
    rw [den_terminal rfl, den_terminal rfl]
    exact hτ _ _ rfl rfl h
  | .regex p f sp, b, h => by
    cases b <;> first | exact absurd h Bool.false_ne_true | skip
    rw [den_terminal rfl, den_terminal rfl]
    exact hτ _ _ rfl rfl h
  | .ref n d sp, b, h => by
    cases b <;> first | exact absurd h Bool.false_ne_true | skip
    simp only [elemEqual, Bool.and_eq_true, beq_iff_eq] at h
    rw [den_ref, den_ref, h.1]
  | .prose t sp, b, h => by
    cases b <;> exact absurd h Bool.false_ne_true
  | .opt a sp, b, h => by
    cases b <;> first | exact absurd h Bool.false_ne_true | skip
    rw [den_opt, den_opt, den_of_elemEqual hτ a _ h]
  | .star a g sp, b, h => by
    cases b <;> first | exact absurd h Bool.false_ne_true | skip
    simp only [elemEqual, Bool.and_eq_true] at h
    rw [den_star, den_star, den_of_elemEqual hτ a _ h.2]
  | .plus a sp, b, h => by
    cases b <;> first | exact absurd h Bool.false_ne_true | skip
    rw [den_plus, den_plus, den_of_elemEqual hτ a _ h]
  | .rep m n a sp, b, h => by
    cases b <;> first | exact absurd h Bool.false_ne_true | skip
    simp only [elemEqual, Bool.and_eq_true, beq_iff_eq] at h
    obtain ⟨⟨rfl, rfl⟩, h⟩ := h
    ext w
    rw [mem_den_rep, mem_den_rep, den_of_elemEqual hτ a _ h]
  | .group as sp, b, h => by
    cases b <;> first | exact absurd h Bool.false_ne_true | skip
    rw [den_group, den_group, altsDen_of_altsEqual hτ as _ h]

theorem seqDen_of_seqEqual (hτ : RespectsEqual τ) :
    ∀ α β : List Element, seqEqual α β = true → Cf.seq (den τ ρ) α = Cf.seq (den τ ρ) β
  | [], [], _ => rfl
  | [], _ :: _, h => absurd h Bool.false_ne_true
  | _ :: _, [], h => absurd h Bool.false_ne_true
  | a :: α, b :: β, h => by
    simp only [seqEqual, Bool.and_eq_true] at h
    rw [Cf.seq_cons, Cf.seq_cons, den_of_elemEqual hτ a b h.1, seqDen_of_seqEqual hτ α β h.2]

theorem altsDen_of_altsEqual (hτ : RespectsEqual τ) :
    ∀ as bs : List (List Element), altsEqual as bs = true → altsDen τ ρ as = altsDen τ ρ bs
  | [], [], _ => rfl
  | [], _ :: _, h => absurd h Bool.false_ne_true
  | _ :: _, [], h => absurd h Bool.false_ne_true
  | α :: as, β :: bs, h => by
    simp only [altsEqual, Bool.and_eq_true] at h
    rw [altsDen_cons, altsDen_cons, seqDen_of_seqEqual hτ α β h.1,
      altsDen_of_altsEqual hτ as bs h.2]
end

/-! ## Views -/

theorem seqDen_unwrapped : ∀ el : Element, Cf.seq (den τ ρ) el.unwrapped = den τ ρ el := by
  intro el
  fun_induction Element.unwrapped el with
  | case1 el sp ih => rw [ih, den_group]; simp
  | case2 sp alt h => rw [den_group]; simp
  | case3 el h1 h2 => simp

theorem seqDen_unwrapAlt (α : Sequence) : Cf.seq (den τ ρ) (unwrapAlt α) = Cf.seq (den τ ρ) α := by
  unfold unwrapAlt
  split
  · rw [seqDen_unwrapped, Cf.seq_singleton]
  · rfl

theorem refsIn_append (α β : Sequence) : refsIn (α ++ β) = refsIn α ++ refsIn β := by
  induction α with
  | nil => rfl
  | cons el α ih => simp [refsIn, ih]

theorem refsIn_unwrapped : ∀ el : Element, refsIn el.unwrapped = el.refs := by
  intro el
  fun_induction Element.unwrapped el with
  | case1 el sp ih => rw [ih]; simp [Element.refs, refsInAlts, refsIn]
  | case2 sp alt h => simp [Element.refs, refsInAlts]
  | case3 el h1 h2 => simp [refsIn]

theorem refsIn_unwrapAlt (α : Sequence) : refsIn (unwrapAlt α) = refsIn α := by
  unfold unwrapAlt
  split
  · rw [refsIn_unwrapped]; simp [refsIn]
  · rfl

/-- The languages of the names solve the one-alternative rules, which a step may inline. -/
def SolvesSingles (τ : Element → Language T) (grammar : Grammar) (ρ : Env T) : Prop :=
  ∀ t ∈ grammar.productions, t.alts.length = 1 → ρ t.name = altsDen τ ρ t.alts

/-- An inlined view is a one-alternative rule's body in place of the reference to it. -/
theorem inlineHeadRef_cases {headEl : Element} {v seq : Sequence} {annotated : Option String}
    (h : inlineHeadRef grammar headEl v = some (seq, annotated)) :
    ∃ target ∈ grammar.productions, ∃ debt sp rest alt bodyHead body,
      v = .ref target.name debt sp :: rest ∧ target.alts = [alt] ∧
      unwrapAlt alt = bodyHead :: body ∧ elemEqual bodyHead headEl = true ∧
      seq = bodyHead :: body ++ rest := by
  cases v with
  | nil => cases h
  | cons first rest =>
    obtain ⟨name, hname, h'⟩ := Option.bind_eq_some_iff.mp h
    obtain ⟨target, htarget, hbody⟩ := Option.bind_eq_some_iff.mp h'
    clear h h'
    obtain ⟨hmem, rfl⟩ := (mem_names_of_find htarget).2
    obtain ⟨debt, sp, rfl⟩ := Element.refName_eq_some.mp hname
    split at hbody
    · rename_i alt halts
      split at hbody
      · cases hbody
      · split at hbody
        · cases hbody
        · rename_i bodyHead body hview
          split at hbody
          · cases hbody
          · rename_i heq
            cases hbody
            exact ⟨target, hmem, debt, sp, rest, alt, bodyHead, body, rfl, halts, hview,
              by simpa using heq, rfl⟩
    · cases hbody

/-- An inlined view denotes what the view did, and begins with what the head denotes. -/
theorem inlineHeadRef_spec (hτ : RespectsEqual τ) (hs : SolvesSingles τ grammar ρ)
    {headEl : Element} {v seq : Sequence} {annotated : Option String}
    (h : inlineHeadRef grammar headEl v = some (seq, annotated)) :
    Cf.seq (den τ ρ) seq = Cf.seq (den τ ρ) v ∧
      ∃ first rest, seq = first :: rest ∧ den τ ρ headEl = den τ ρ first := by
  obtain ⟨target, hmem, debt, sp, rest, alt, bodyHead, body, rfl, halts, hview, heq, rfl⟩ :=
    inlineHeadRef_cases h
  refine ⟨?_, bodyHead, body ++ rest, rfl, (den_of_elemEqual hτ _ _ heq).symm⟩
  rw [Cf.seq_append, ← hview, seqDen_unwrapAlt, Cf.seq_cons, den_ref,
    hs target hmem (by rw [halts]; rfl), halts]
  simp

theorem inlineHeadRef_refs {headEl : Element} {v seq : Sequence} {annotated : Option String}
    (h : inlineHeadRef grammar headEl v = some (seq, annotated)) :
    refsIn seq ⊆ refsIn v ++ grammar.refs := by
  obtain ⟨target, hmem, debt, sp, rest, alt, bodyHead, body, rfl, halts, hview, -, rfl⟩ :=
    inlineHeadRef_cases h
  rw [refsIn_append, ← hview, refsIn_unwrapAlt]
  intro n hn
  rcases List.mem_append.mp hn with hn | hn
  · refine List.mem_append_right _ (List.mem_flatMap.mpr ⟨target, hmem, ?_⟩)
    rw [halts]
    exact mem_refsInAlts.mpr ⟨alt, List.mem_singleton_self _, hn⟩
  · exact List.mem_append_left _ (List.mem_append_right _ hn)

/-! ## Runs -/

/-- A member of a run over `alts` whose head denotes what `headEl` does: its view stands for the
alternative at its index, and begins as the head does. -/
structure MemberOf (τ : Element → Language T) (ρ : Env T) (alts : List Sequence)
    (headEl : Element) (m : Member) : Prop where
  alt : ∃ α, alts[m.idx]? = some α ∧ Cf.seq (den τ ρ) m.view = Cf.seq (den τ ρ) α
  head : ∃ first rest, m.view = first :: rest ∧ den τ ρ headEl = den τ ρ first

/-- The indexed views of alternatives. -/
def ViewsOf (alts : List Sequence) (views : List (Nat × Sequence)) : Prop :=
  ∀ e ∈ views, ∃ α, alts[e.1]? = some α ∧ e.2 = unwrapAlt α

/-- A member joined the run as its view stands, or with its leading reference inlined. -/
def Joined (grammar : Grammar) (headEl : Element) (m : Member) (e : Nat × Sequence) : Prop :=
  m.idx = e.1 ∧
    ((m.view = e.2 ∧ ∃ first rest, e.2 = first :: rest ∧ elemEqual headEl first = true) ∨
      inlineHeadRef grammar headEl e.2 = some (m.view, m.annotated))

theorem gatherRun_cases {headEl : Element} :
    ∀ {views : List (Nat × Sequence)} {m : Member},
      m ∈ gatherRun lower upper grammar headEl views → ∃ e ∈ views, Joined grammar headEl m e
  | [], m, hm => absurd hm List.not_mem_nil
  | (j, []) :: rest, m, hm => absurd hm List.not_mem_nil
  | (j, first :: v) :: rest, m, hm => by
    have hrest : m ∈ gatherRun lower upper grammar headEl rest →
        ∃ e ∈ (j, first :: v) :: rest, Joined grammar headEl m e := fun h =>
      have ⟨e, he, hj⟩ := gatherRun_cases h
      ⟨e, List.mem_cons_of_mem _ he, hj⟩
    unfold gatherRun at hm
    split at hm
    · rename_i heq
      rcases List.mem_cons.mp hm with rfl | hm
      · exact ⟨_, List.mem_cons_self, rfl, Or.inl ⟨rfl, first, v, rfl, heq⟩⟩
      · exact hrest hm
    · split at hm
      · rename_i seq annotated hinl
        rcases List.mem_cons.mp hm with rfl | hm
        · exact ⟨_, List.mem_cons_self, rfl, Or.inr hinl⟩
        · exact hrest hm
      · split at hm
        · exact absurd hm List.not_mem_nil
        · split at hm
          · exact absurd hm List.not_mem_nil
          · split at hm
            · exact absurd hm List.not_mem_nil
            · exact hrest hm

theorem gatherRun_mem (hτ : RespectsEqual τ) (hs : SolvesSingles τ grammar ρ) {headEl : Element}
    {views : List (Nat × Sequence)} (hv : ViewsOf alts views) {m : Member}
    (hm : m ∈ gatherRun lower upper grammar headEl views) : MemberOf τ ρ alts headEl m := by
  obtain ⟨e, he, hidx, hcase⟩ := gatherRun_cases hm
  obtain ⟨α, hα, hview⟩ := hv e he
  rw [← hidx] at hα
  rcases hcase with ⟨hv, first, rest, hfirst, heq⟩ | hinl
  · refine ⟨⟨α, hα, ?_⟩, first, rest, hv.trans hfirst, den_of_elemEqual hτ _ _ heq⟩
    rw [hv, hview, seqDen_unwrapAlt]
  · obtain ⟨hden, hhead⟩ := inlineHeadRef_spec hτ hs hinl
    exact ⟨⟨α, hα, by rw [hden, hview, seqDen_unwrapAlt]⟩, hhead⟩

/-- The views of a run refer to what the alternatives and the grammar refer to. -/
theorem gatherRun_refs {headEl : Element} {views : List (Nat × Sequence)}
    (hv : ViewsOf alts views) {m : Member}
    (hm : m ∈ gatherRun lower upper grammar headEl views) :
    refsIn m.view ⊆ refsInAlts alts ++ grammar.refs := by
  obtain ⟨e, he, hidx, hcase⟩ := gatherRun_cases hm
  obtain ⟨α, hα, hview⟩ := hv e he
  have hsub : refsIn e.2 ⊆ refsInAlts alts := fun n hn => by
    rw [hview, refsIn_unwrapAlt] at hn
    exact mem_refsInAlts.mpr ⟨α, List.mem_of_getElem? hα, hn⟩
  rcases hcase with ⟨hv, -⟩ | hinl
  · rw [hv]
    exact fun n hn => List.mem_append_left _ (hsub hn)
  · intro n hn
    rcases List.mem_append.mp (inlineHeadRef_refs hinl hn) with hn | hn
    · exact List.mem_append_left _ (hsub hn)
    · exact List.mem_append_right _ hn

/-! ## The common prefix -/

theorem seqDen_take_add_one {α : Sequence} {k : Nat} {el : Element} (h : α[k]? = some el) :
    Cf.seq (den τ ρ) (α.take (k + 1)) = Cf.seq (den τ ρ) (α.take k) * den τ ρ el := by
  rw [List.take_add_one, h, Cf.seq_append]
  simp

/-- The views of a run denote the same as far as its common prefix. -/
theorem extendPrefix_spec (hτ : RespectsEqual τ) {first : Sequence} {run : List Sequence} :
    ∀ (fuel plen : Nat),
      (∀ v ∈ run, Cf.seq (den τ ρ) (v.take plen) = Cf.seq (den τ ρ) (first.take plen)) →
      ∀ v ∈ run, Cf.seq (den τ ρ) (v.take (extendPrefix first run fuel plen)) =
        Cf.seq (den τ ρ) (first.take (extendPrefix first run fuel plen))
  | 0, _, h => h
  | fuel + 1, plen, h => by
    unfold extendPrefix
    split
    · rename_i hall
      refine extendPrefix_spec hτ fuel (plen + 1) fun v hv => ?_
      have hv' := List.all_eq_true.mp hall v hv
      split at hv'
      · rename_i a b ha hb
        rw [seqDen_take_add_one hb, seqDen_take_add_one ha, h v hv, den_of_elemEqual hτ a b hv']
      · cases hv'
    · exact h

/-! ## Tails -/

theorem seqDen_le_altsDen {α : Sequence} {alts : List Sequence} (h : α ∈ alts) :
    Cf.seq (den τ ρ) α ≤ altsDen τ ρ alts := fun _ hw => mem_altsDen.mpr ⟨α, h, hw⟩

theorem altsDen_distinctTails (hτ : RespectsEqual τ) :
    ∀ (new tails : List Sequence),
      altsDen τ ρ (distinctTails new tails) = altsDen τ ρ tails + altsDen τ ρ new
  | [], tails => by rw [distinctTails, altsDen_nil, add_zero]
  | tail :: new, tails => by
    unfold distinctTails
    split
    · rename_i h
      obtain ⟨t, ht, heq⟩ := List.any_eq_true.mp h
      have hle : Cf.seq (den τ ρ) tail ≤ altsDen τ ρ tails := by
        rw [← seqDen_of_seqEqual hτ t tail heq]
        exact seqDen_le_altsDen ht
      rw [altsDen_distinctTails hτ new, altsDen_cons, ← add_assoc, add_eq_left_iff_le.mpr hle]
    · rw [altsDen_distinctTails hτ new, altsDen_append, altsDen_cons, altsDen_cons, altsDen_nil,
        add_zero, add_assoc]

theorem mem_emptyLast {tails : List Sequence} {α : Sequence} :
    α ∈ emptyLast tails ↔ α ∈ tails := by
  unfold emptyLast
  rw [List.mem_append, List.mem_filter]
  cases α with
  | nil =>
    constructor
    · rintro (⟨-, h⟩ | h)
      · exact absurd h Bool.false_ne_true
      · split at h
        · rename_i hany
          obtain ⟨t, ht, hnil⟩ := List.any_eq_true.mp hany
          rwa [← List.isEmpty_iff.mp hnil]
        · exact absurd h List.not_mem_nil
    · intro h
      rw [if_pos (List.any_eq_true.mpr ⟨[], h, rfl⟩)]
      exact Or.inr List.mem_cons_self
  | cons el α =>
    constructor
    · rintro (⟨h, -⟩ | h)
      · exact h
      · split at h
        · exact absurd (List.mem_singleton.mp h) (List.cons_ne_nil _ _)
        · exact absurd h List.not_mem_nil
    · exact fun h => Or.inl ⟨h, rfl⟩

theorem altsDen_of_mem_iff {as bs : List Sequence} (h : ∀ α, α ∈ as ↔ α ∈ bs) :
    altsDen τ ρ as = altsDen τ ρ bs := by
  ext w
  rw [mem_altsDen, mem_altsDen]
  simp only [h]

theorem mem_distinctTails {α : Sequence} :
    ∀ {new tails : List Sequence}, α ∈ distinctTails new tails → α ∈ tails ∨ α ∈ new
  | [], _, h => Or.inl h
  | tail :: new, tails, h => by
    unfold distinctTails at h
    split at h
    · exact (mem_distinctTails h).imp_right (List.mem_cons_of_mem _)
    · rcases mem_distinctTails h with h | h
      · rcases List.mem_append.mp h with h | h
        · exact Or.inl h
        · exact Or.inr (List.mem_singleton.mp h ▸ List.mem_cons_self)
      · exact Or.inr (List.mem_cons_of_mem _ h)

/-! ## One step -/

theorem mem_replaceRun {i : Nat} {members : List Member} {replacement β : Sequence} :
    β ∈ replaceRun alts i members replacement ↔
      ∃ α k, alts[k]? = some α ∧ ((∀ m ∈ members, m.idx ≠ k) ∨ k = i) ∧
        β = if k = i then replacement else α := by
  unfold replaceRun
  simp only [List.mem_map, List.mem_filter, Prod.exists, List.mem_zipIdx_iff_getElem?,
    Bool.or_eq_true, Bool.not_eq_true', List.any_eq_false, beq_iff_eq]
  constructor
  · rintro ⟨α, k, ⟨hα, hk⟩, rfl⟩
    exact ⟨α, k, hα, hk, rfl⟩
  · rintro ⟨α, k, hα, hk, rfl⟩
    exact ⟨α, k, ⟨hα, hk⟩, rfl⟩

/-- A run replaced by what denotes the union of its members. -/
theorem altsDen_replaceRun {i : Nat} {head : Sequence} {headEl : Element} {rest : List Member}
    {replacement : Sequence} (hmem : ∀ m ∈ ⟨i, head, none⟩ :: rest, MemberOf τ ρ alts headEl m)
    (hr : Cf.seq (den τ ρ) replacement =
      altsDen τ ρ ((⟨i, head, none⟩ :: rest : List Member).map Member.view)) :
    altsDen τ ρ (replaceRun alts i (⟨i, head, none⟩ :: rest) replacement) = altsDen τ ρ alts := by
  ext w
  simp only [mem_altsDen, mem_replaceRun]
  constructor
  · rintro ⟨β, ⟨α, k, hα, hk, rfl⟩, hw⟩
    split at hw
    · rw [hr, mem_altsDen] at hw
      obtain ⟨v, hv, hw⟩ := hw
      obtain ⟨m, hm, rfl⟩ := List.mem_map.mp hv
      obtain ⟨⟨α', hα', hden⟩, -⟩ := hmem m hm
      exact ⟨α', List.mem_of_getElem? hα', by rwa [← hden]⟩
    · exact ⟨α, List.mem_of_getElem? hα, hw⟩
  · rintro ⟨α, hα, hw⟩
    obtain ⟨k, hk⟩ := List.mem_iff_getElem?.mp hα
    by_cases hin : ∃ m ∈ (⟨i, head, none⟩ :: rest : List Member), m.idx = k
    · obtain ⟨m, hm, rfl⟩ := hin
      obtain ⟨⟨α', hα', hden⟩, -⟩ := hmem m hm
      obtain ⟨⟨αi, hαi, -⟩, -⟩ := hmem _ List.mem_cons_self
      obtain rfl : α' = α := by rw [hα'] at hk; exact Option.some.inj hk
      refine ⟨replacement, ⟨αi, i, hαi, Or.inr rfl, (if_pos rfl).symm⟩, ?_⟩
      rw [hr, mem_altsDen]
      exact ⟨m.view, List.mem_map.mpr ⟨m, hm, rfl⟩, by rwa [hden]⟩
    · have hne : ∀ m ∈ (⟨i, head, none⟩ :: rest : List Member), m.idx ≠ k :=
        fun m hm h => hin ⟨m, hm, h⟩
      have hki : k ≠ i := fun h => hne _ List.mem_cons_self h.symm
      exact ⟨α, ⟨α, k, hk, Or.inl hne, (if_neg hki).symm⟩, hw⟩

/-- The common prefix, distributed over the tails. -/
theorem altsDen_views {pre : Sequence} {plen : Nat} {views : List Sequence}
    (h : ∀ v ∈ views, Cf.seq (den τ ρ) (v.take plen) = Cf.seq (den τ ρ) pre) :
    altsDen τ ρ views =
      Cf.seq (den τ ρ) pre * altsDen τ ρ (views.map fun v => v.drop plen) := by
  induction views with
  | nil => simp
  | cons v views ih =>
    have hv : Cf.seq (den τ ρ) v = Cf.seq (den τ ρ) pre * Cf.seq (den τ ρ) (v.drop plen) := by
      rw [← h v List.mem_cons_self, ← Cf.seq_append, List.take_append_drop]
    rw [altsDen_cons, hv, ih fun u hu => h u (List.mem_cons_of_mem _ hu), List.map_cons,
      altsDen_cons, mul_add]

/-- The tails of a run. -/
def tailsOfRun (members : List Member) (plen : Nat) : List Sequence :=
  emptyLast (distinctTails (members.map fun m => m.view.drop plen) [])

theorem altsDen_tailsOfRun (hτ : RespectsEqual τ) (members : List Member) (plen : Nat) :
    altsDen τ ρ (tailsOfRun members plen) =
      altsDen τ ρ ((members.map Member.view).map fun v => v.drop plen) := by
  rw [tailsOfRun, altsDen_of_mem_iff fun _ => mem_emptyLast, altsDen_distinctTails hτ, altsDen_nil,
    zero_add, List.map_map]
  rfl

theorem refs_of_tailsOfRun {members : List Member} {plen : Nat} {R : List String}
    (h : ∀ m ∈ members, refsIn m.view ⊆ R) : refsInAlts (tailsOfRun members plen) ⊆ R := by
  intro n hn
  obtain ⟨α, hα, hn⟩ := mem_refsInAlts.mp hn
  have hα := (mem_distinctTails (mem_emptyLast.mp hα)).resolve_left List.not_mem_nil
  obtain ⟨m, hm, rfl⟩ := List.mem_map.mp hα
  obtain ⟨el, hel, hn⟩ := mem_refsIn.mp hn
  exact h m hm (mem_refsIn.mpr ⟨el, List.mem_of_mem_drop hel, hn⟩)

section FactorRun

variable {prodName prodOrigin : String} {used : List String} {i plen : Nat} {headEl : Element}
  {head : Sequence} {rest : List Member}

/-- The helper of a step, if it queues one: its name is fresh, and its alternatives are the
tails. -/
theorem factorRun_helper {h : Production}
    (hh : h ∈ (factorRun prodName prodOrigin alts used i head rest plen).helper) :
    h.name = freshFactName prodName used ∧
      h.alts = tailsOfRun (⟨i, head, none⟩ :: rest) plen := by
  unfold factorRun at hh
  simp only [Option.mem_def] at hh
  split at hh
  · cases hh
  · cases hh
    exact ⟨rfl, rfl⟩

variable (alts prodName prodOrigin used) in
theorem exists_helper (hne : ∀ tail, tailsOfRun (⟨i, head, none⟩ :: rest) plen ≠ [tail]) :
    ∃ h, h ∈ (factorRun prodName prodOrigin alts used i head rest plen).helper := by
  unfold factorRun
  simp only
  split
  · rename_i t ht
    exact absurd ht (hne t)
  · exact ⟨_, rfl⟩

/-- What a run is replaced by, before it is wrapped. -/
def factoredOf (prodName : String) (used : List String) (head : Sequence) (members : List Member)
    (plen : Nat) : Sequence :=
  head.take plen ++ match tailsOfRun members plen with
    | [tail] => tail
    | _ => [.reference (freshFactName prodName used)]

variable (alts prodName prodOrigin used i plen head rest) in
theorem factorRun_alts : ∃ replacement,
    (replacement = factoredOf prodName used head (⟨i, head, none⟩ :: rest) plen ∨
      replacement = [.group [factoredOf prodName used head (⟨i, head, none⟩ :: rest) plen] none]) ∧
    (factorRun prodName prodOrigin alts used i head rest plen).alts =
      replaceRun alts i (⟨i, head, none⟩ :: rest) replacement := by
  refine ⟨_, ?_, rfl⟩
  split
  · exact Or.inr rfl
  · exact Or.inl rfl

theorem seqDen_factoredOf (hτ : RespectsEqual τ)
    (hpre : ∀ v ∈ head :: rest.map Member.view,
      Cf.seq (den τ ρ) (v.take plen) = Cf.seq (den τ ρ) (head.take plen))
    (hh : ∀ h ∈ (factorRun prodName prodOrigin alts used i head rest plen).helper,
      ρ h.name = altsDen τ ρ h.alts) :
    Cf.seq (den τ ρ) (factoredOf prodName used head (⟨i, head, none⟩ :: rest) plen) =
      altsDen τ ρ (head :: rest.map Member.view) := by
  have htails := altsDen_tailsOfRun (ρ := ρ) hτ (⟨i, head, none⟩ :: rest) plen
  rw [altsDen_views hpre, factoredOf, Cf.seq_append]
  rw [List.map_cons] at htails
  congr 1
  rw [← htails]
  split
  · rename_i tail ht
    rw [ht]
    simp
  · rename_i hne
    obtain ⟨h, hmem⟩ := exists_helper alts prodName prodOrigin used hne
    obtain ⟨hname, halts⟩ := factorRun_helper hmem
    rw [Cf.seq_singleton, Element.reference, den_ref, ← hname, hh h hmem, halts]

theorem factorRun_den (hτ : RespectsEqual τ)
    (hmem : ∀ m ∈ ⟨i, head, none⟩ :: rest, MemberOf τ ρ alts headEl m)
    (hpre : ∀ v ∈ head :: rest.map Member.view,
      Cf.seq (den τ ρ) (v.take plen) = Cf.seq (den τ ρ) (head.take plen))
    (hh : ∀ h ∈ (factorRun prodName prodOrigin alts used i head rest plen).helper,
      ρ h.name = altsDen τ ρ h.alts) :
    altsDen τ ρ (factorRun prodName prodOrigin alts used i head rest plen).alts =
      altsDen τ ρ alts := by
  obtain ⟨replacement, hr, halts⟩ := factorRun_alts alts prodName prodOrigin used i plen head rest
  rw [halts]
  refine altsDen_replaceRun hmem ?_
  have hden := seqDen_factoredOf hτ hpre hh
  rcases hr with rfl | rfl
  · exact hden
  · rw [Cf.seq_singleton, den_group, altsDen_cons, altsDen_nil, add_zero]
    exact hden

theorem factorRun_refs {R : List String} (halts : refsInAlts alts ⊆ R)
    (hviews : ∀ m ∈ ⟨i, head, none⟩ :: rest, refsIn m.view ⊆ R) :
    refsInAlts (factorRun prodName prodOrigin alts used i head rest plen).alts ⊆
      R ++ namesOf (factorRun prodName prodOrigin alts used i head rest plen).helper.toList := by
  have hfactored : refsIn (factoredOf prodName used head (⟨i, head, none⟩ :: rest) plen) ⊆
      R ++ namesOf (factorRun prodName prodOrigin alts used i head rest plen).helper.toList := by
    intro n hn
    rw [factoredOf, refsIn_append] at hn
    rcases List.mem_append.mp hn with hn | hn
    · obtain ⟨el, hel, hn⟩ := mem_refsIn.mp hn
      exact List.mem_append_left _ (hviews _ List.mem_cons_self
        (mem_refsIn.mpr ⟨el, List.mem_of_mem_take hel, hn⟩))
    · split at hn
      · rename_i tail ht
        have hmem : n ∈ refsInAlts (tailsOfRun (⟨i, head, none⟩ :: rest) plen) := by
          rw [ht]
          exact mem_refsInAlts.mpr ⟨tail, List.mem_singleton_self _, hn⟩
        exact List.mem_append_left _ (refs_of_tailsOfRun hviews hmem)
      · rename_i hne
        obtain ⟨h, hmem⟩ := exists_helper alts prodName prodOrigin used hne
        have hname : n = h.name := by
          rw [(factorRun_helper hmem).1]
          simpa [refsIn, Element.reference, Element.refs] using hn
        exact List.mem_append_right _
          (mem_namesOf.mpr ⟨h, Option.mem_toList.mpr hmem, hname.symm⟩)
  obtain ⟨replacement, hr, heq⟩ := factorRun_alts alts prodName prodOrigin used i plen head rest
  intro n hn
  rw [heq] at hn
  obtain ⟨β, hβ, hn⟩ := mem_refsInAlts.mp hn
  obtain ⟨α, k, hα, -, rfl⟩ := mem_replaceRun.mp hβ
  split at hn
  · refine hfactored ?_
    rcases hr with rfl | rfl
    · exact hn
    · simpa [refsIn, Element.refs, refsInAlts] using hn
  · exact List.mem_append_left _
      (halts (mem_refsInAlts.mpr ⟨α, List.mem_of_getElem? hα, hn⟩))

end FactorRun

/-- What one step establishes: the alternatives denote what they did, given that the languages
of the names solve the rules inlined and the helper; the helper's name is fresh; and nothing
new is referred to but the helper. -/
structure StepSpec (τ : Element → Language T) (grammar : Grammar) (prodName : String)
    (alts : List Sequence) (used : List String) (f : Factored) : Prop where
  den : ∀ ρ, SolvesSingles τ grammar ρ → (∀ h ∈ f.helper, ρ h.name = altsDen τ ρ h.alts) →
    altsDen τ ρ f.alts = altsDen τ ρ alts
  name : ∀ h ∈ f.helper, h.name = freshFactName prodName used
  helperRefs : ∀ h ∈ f.helper, refsInAlts h.alts ⊆ refsInAlts alts ++ grammar.refs
  refs : refsInAlts f.alts ⊆ refsInAlts alts ++ grammar.refs ++ namesOf f.helper.toList
  two : 2 ≤ alts.length

section FactorOnce

variable {diag prodName prodOrigin : String} {used : List String} {f : Factored}

/-- The common prefix of a run, as `factor_once` computes it. -/
def prefixLength (head : Sequence) (members : List Member) : Nat :=
  extendPrefix head (head :: members.map Member.view) head.length 1

/-- A step factors the run of one of the views. -/
theorem factorFrom_cases :
    ∀ {views : List (Nat × Sequence)},
      factorFrom diag lower upper grammar prodName prodOrigin alts used views = .ok (some f) →
      ∃ i headEl head later, (i, headEl :: head) :: later <:+ views ∧
        gatherRun lower upper grammar headEl later ≠ [] ∧
        f = factorRun prodName prodOrigin alts used i (headEl :: head)
          (gatherRun lower upper grammar headEl later)
          (prefixLength (headEl :: head) (gatherRun lower upper grammar headEl later))
  | [], h => by cases h
  | (_, []) :: later, h => by
    have h' : factorFrom diag lower upper grammar prodName prodOrigin alts used later =
        .ok (some f) := h
    obtain ⟨i, headEl, head, rest, hsub, hf⟩ := factorFrom_cases h'
    exact ⟨i, headEl, head, rest, hsub.trans (List.suffix_cons _ _), hf⟩
  | (i, headEl :: head) :: later, h => by
    have hlater : factorFrom diag lower upper grammar prodName prodOrigin alts used later =
        .ok (some f) → ∃ i' headEl' head' rest,
          (i', headEl' :: head') :: rest <:+ (i, headEl :: head) :: later ∧
          gatherRun lower upper grammar headEl' rest ≠ [] ∧
          f = factorRun prodName prodOrigin alts used i' (headEl' :: head')
            (gatherRun lower upper grammar headEl' rest)
            (prefixLength (headEl' :: head') (gatherRun lower upper grammar headEl' rest)) := by
      intro h
      obtain ⟨i', headEl', head', rest, hsub, hf⟩ := factorFrom_cases h
      exact ⟨i', headEl', head', rest, hsub.trans (List.suffix_cons _ _), hf⟩
    unfold factorFrom at h
    simp only at h
    split at h
    · exact hlater h
    · rename_i hne
      split at h
      · exact hlater h
      · split at h
        · cases h
        · cases h
          exact ⟨i, headEl, head, later, List.suffix_refl _,
            fun hnil => hne (List.isEmpty_iff.mpr hnil), rfl⟩

theorem factorFrom_spec (hτ : RespectsEqual τ) {views : List (Nat × Sequence)}
    (hv : ViewsOf alts views) (hlen : views.length = alts.length)
    (h : factorFrom diag lower upper grammar prodName prodOrigin alts used views =
      .ok (some f)) : StepSpec τ grammar prodName alts used f := by
  obtain ⟨i, headEl, head, later, hsuffix, hne, rfl⟩ := factorFrom_cases h
  have hsub := hsuffix.subset
  have hlater : ViewsOf alts later := fun e he => hv e (hsub (List.mem_cons_of_mem _ he))
  obtain ⟨α, hα, hview⟩ := hv _ (hsub List.mem_cons_self)
  have hview : headEl :: head = unwrapAlt α := hview
  have hrefs : ∀ m ∈ (⟨i, headEl :: head, none⟩ : Member) ::
      gatherRun lower upper grammar headEl later,
      refsIn m.view ⊆ refsInAlts alts ++ grammar.refs := by
    refine List.forall_mem_cons.mpr ⟨fun n hn => List.mem_append_left _ ?_,
      fun m hm => gatherRun_refs hlater hm⟩
    rw [hview, refsIn_unwrapAlt] at hn
    exact mem_refsInAlts.mpr ⟨α, List.mem_of_getElem? hα, hn⟩
  refine ⟨fun ρ hs hh => ?_, fun h hh => (factorRun_helper hh).1, fun h hh => ?_,
    factorRun_refs (List.subset_append_left _ _) hrefs, ?_⟩
  · have hmem : ∀ m ∈ (⟨i, headEl :: head, none⟩ : Member) ::
        gatherRun lower upper grammar headEl later, MemberOf τ ρ alts headEl m := by
      refine List.forall_mem_cons.mpr ⟨⟨⟨α, hα, ?_⟩, headEl, head, rfl, rfl⟩,
        fun m hm => gatherRun_mem hτ hs hlater hm⟩
      rw [hview, seqDen_unwrapAlt]
    refine factorRun_den hτ hmem (extendPrefix_spec hτ _ 1 fun v hv => ?_) hh
    -- every view begins with an element that denotes what the head does
    have hv : v ∈ ((⟨i, headEl :: head, none⟩ : Member) ::
        gatherRun lower upper grammar headEl later).map Member.view := hv
    obtain ⟨m, hm, rfl⟩ := List.mem_map.mp hv
    obtain ⟨-, first, rest, hfirst, hden⟩ := hmem m hm
    rw [hfirst]
    simp [hden]
  · rw [(factorRun_helper hh).2]
    exact refs_of_tailsOfRun hrefs
  · -- a run has a member after its head
    have hlater : later ≠ [] := fun hnil => hne (by rw [hnil]; rfl)
    have h1 := hsuffix.length_le
    have h2 := List.length_pos_of_ne_nil hlater
    rw [List.length_cons, hlen] at h1
    omega

theorem factorOnce_spec (hτ : RespectsEqual τ)
    (h : factorOnce diag lower upper grammar prodName prodOrigin alts used = .ok (some f)) :
    StepSpec τ grammar prodName alts used f := by
  refine factorFrom_spec hτ (fun e he => ?_) (by simp) h
  obtain ⟨⟨α, k⟩, hmem, rfl⟩ := List.mem_map.mp he
  exact ⟨α, List.mem_zipIdx_iff_getElem?.mp hmem, rfl⟩

end FactorOnce

/-! ## The run -/

theorem freshFactName_notMem (base : String) (used : List String) :
    freshFactName base used ∉ used :=
  Names.mk_freshIndex_notMem
    (fun _ _ h => Names.toString_injective ((String.append_right_inj _).mp h)) _

/-- What the queue keeps about `H`, the productions done and to be done: the names are distinct
and in use, only the input's references and the productions' names are referred to, the
one-alternative rules stand, and the input's names keep their languages. -/
structure FactorInv (τ : Element → Language T) (grammar : Grammar) (used : List String)
    (H : List Production) : Prop where
  nodup : (namesOf H).Nodup
  used : namesOf H ⊆ used
  input : grammar.names ⊆ namesOf H
  refs : ∀ q ∈ H, refsInAlts q.alts ⊆ grammar.refs ++ namesOf H
  singles : ∀ t ∈ grammar.productions, t.alts.length = 1 → ∃ q ∈ H, q.name = t.name ∧
    q.alts = t.alts
  lang : ∀ n ∈ grammar.names, nameLang τ H n = nameLang τ grammar.productions n

theorem FactorInv.solvesSingles {used : List String} {H : List Production}
    (hi : FactorInv τ grammar used H) : SolvesSingles τ grammar (nameLang τ H) := by
  intro t ht hlen
  obtain ⟨q, hq, hn, ha⟩ := hi.singles t ht hlen
  rw [← hn, ← ha]
  exact nameLang_of_nodup hi.nodup hq

section Step

variable {used : List String} {before after : List Production} {p p' : Production} {f : Factored}

theorem mem_replaced {q : Production} :
    q ∈ before ++ p' :: (after ++ f.helper.toList) ↔
      q ∈ before ++ after ∨ q = p' ∨ q ∈ f.helper := by
  simp only [List.mem_append, List.mem_cons, Option.mem_toList]
  tauto

theorem mem_of_rest {q : Production} (h : q ∈ before ++ after) : q ∈ before ++ p :: after :=
  (List.mem_append.mp h).elim (List.mem_append_left _)
    fun h => List.mem_append_right _ (List.mem_cons_of_mem _ h)

/-- Nothing refers to the helper of a step yet. -/
theorem helper_not_referred (hi : FactorInv τ grammar used (before ++ p :: after))
    (hf : StepSpec τ grammar p.name p.alts used f)
    (hcap : ∀ h ∈ f.helper, h.name ∉ grammar.refs) {h : Production} (hh : h ∈ f.helper) :
    h.name ∉ namesOf (before ++ p :: after) ∧
      (∀ q ∈ before ++ p :: after, h.name ∉ refsInAlts q.alts) ∧ h.name ∉ refsInAlts h.alts := by
  have hnew : h.name ∉ namesOf (before ++ p :: after) := fun hmem => by
    have hused := hi.used hmem
    rw [hf.name h hh] at hused
    exact freshFactName_notMem _ _ hused
  have hrefs : ∀ q ∈ before ++ p :: after, h.name ∉ refsInAlts q.alts := fun q hq hmem =>
    (List.mem_append.mp (hi.refs q hq hmem)).elim (hcap h hh) hnew
  refine ⟨hnew, hrefs, fun hmem => ?_⟩
  exact (List.mem_append.mp (hf.helperRefs h hh hmem)).elim (hrefs p (by simp)) (hcap h hh)

theorem singles_step (hi : FactorInv τ grammar used (before ++ p :: after))
    (hf : StepSpec τ grammar p.name p.alts used f) {t : Production}
    (ht : t ∈ grammar.productions) (hlen : t.alts.length = 1) :
    ∃ q ∈ before ++ p' :: (after ++ f.helper.toList), q.name = t.name ∧ q.alts = t.alts := by
  obtain ⟨q, hq, hn, ha⟩ := hi.singles t ht hlen
  refine ⟨q, mem_replaced.mpr (Or.inl ?_), hn, ha⟩
  rcases List.mem_append.mp hq with hq | hq
  · exact List.mem_append_left _ hq
  · rcases List.mem_cons.mp hq with rfl | hq
    · -- a production of one alternative is not factored
      have := hf.two
      rw [ha] at this
      omega
    · exact List.mem_append_right _ hq

/-- The languages of the names, with the helper's. -/
theorem exists_extension (ρ : Env T) (helper : Option Production) :
    ∃ ρ' : Env T, (∀ m, (∀ h ∈ helper, m ≠ h.name) → ρ' m = ρ m) ∧
      ∀ h ∈ helper, ρ' h.name = altsDen τ ρ h.alts := by
  cases helper with
  | none => exact ⟨ρ, fun _ _ => rfl, fun _ h => by cases h⟩
  | some h =>
    refine ⟨ρ.set h.name (altsDen τ ρ h.alts), fun m hm => Env.set_of_ne (hm h rfl), ?_⟩
    rintro _ ⟨⟩
    exact Env.set_self _ _ _

variable (hi : FactorInv τ grammar used (before ++ p :: after))
  (hf : StepSpec τ grammar p.name p.alts used f) (hcap : ∀ h ∈ f.helper, h.name ∉ grammar.refs)
  (hn : p'.name = p.name) (ha : p'.alts = f.alts)

include hi hf hn in
theorem nodup_step : (namesOf (before ++ p' :: (after ++ f.helper.toList))).Nodup := by
  have hnames : namesOf (before ++ p' :: (after ++ f.helper.toList)) =
      namesOf (before ++ p :: after) ++ namesOf f.helper.toList := by
    simp [hn]
  rw [hnames]
  refine hi.nodup.append ?_ ?_
  · cases f.helper <;> simp
  · intro n hmem hhelper
    obtain ⟨h, hh, rfl⟩ := mem_namesOf.mp hhelper
    have hused := hi.used hmem
    rw [hf.name h (Option.mem_toList.mp hh)] at hused
    exact freshFactName_notMem _ _ hused

include hi hf hn in
theorem solvesSingles_step :
    SolvesSingles τ grammar (nameLang τ (before ++ p' :: (after ++ f.helper.toList))) := by
  intro t ht hlen
  obtain ⟨q, hq, hqn, hqa⟩ : ∃ q ∈ before ++ p' :: (after ++ f.helper.toList),
      q.name = t.name ∧ q.alts = t.alts := singles_step hi hf ht hlen
  rw [← hqn, ← hqa]
  exact nameLang_of_nodup (nodup_step hi hf hn) hq

include hi hf hcap hn ha in
theorem lang_step {n : String} (hmem : n ∈ namesOf (before ++ p :: after)) :
    nameLang τ (before ++ p' :: (after ++ f.helper.toList)) n =
      nameLang τ (before ++ p :: after) n := by
  have hnd' := nodup_step hi hf hn
  refine le_antisymm ?_ ?_
  · obtain ⟨ρ', hag, hhelper⟩ := exists_extension (τ := τ)
      (nameLang τ (before ++ p :: after)) f.helper
    have hnew := fun {h} hh => helper_not_referred hi hf hcap (h := h) hh
    have hold : ∀ m ∈ namesOf (before ++ p :: after), ρ' m = nameLang τ (before ++ p :: after) m :=
      fun m hm => hag m fun h hh heq => (hnew hh).1 (heq ▸ hm)
    have halts : ∀ alts : List Sequence, (∀ h ∈ f.helper, h.name ∉ refsInAlts alts) →
        altsDen τ ρ' alts = altsDen τ (nameLang τ (before ++ p :: after)) alts :=
      fun alts h => altsDen_congr fun m hm => hag m fun q hq heq => h q hq (heq ▸ hm)
    have hsingles : SolvesSingles τ grammar ρ' := by
      intro t ht hlen
      obtain ⟨q, hq, hqn, hqa⟩ := hi.singles t ht hlen
      rw [← hqa, halts q.alts fun h hh => (hnew hh).2.1 q hq, ← hqn,
        hold _ (mem_namesOf.mpr ⟨q, hq, rfl⟩)]
      exact nameLang_of_nodup hi.nodup hq
    have hself : ∀ h ∈ f.helper, ρ' h.name = altsDen τ ρ' h.alts := by
      intro h hh
      refine (hhelper h hh).trans (halts _ fun q hq => ?_).symm
      obtain rfl : h = q := Option.mem_unique hh hq
      exact (hnew hh).2.2
    have hp : altsDen τ ρ' f.alts = altsDen τ (nameLang τ (before ++ p :: after)) p.alts := by
      rw [hf.den ρ' hsingles hself]
      exact halts _ fun h hh => (hnew hh).2.1 p (by simp)
    refine (nameLang_le (fun q hq => ?_) n).trans (hold n hmem).le
    rcases mem_replaced.mp hq with hq | rfl | hq
    · have hqH : q ∈ before ++ p :: after := mem_of_rest hq
      rw [halts _ fun h hh => (hnew hh).2.1 q hqH, hold _ (mem_namesOf.mpr ⟨q, hqH, rfl⟩)]
      exact solves_nameLang q hqH
    · rw [ha, hp, hn, hold _ (by simp)]
      exact solves_nameLang p (by simp)
    · exact (hself q hq).ge
  · refine nameLang_le (fun q hq => ?_) n
    by_cases hqp : q = p
    · subst hqp
      have hden := hf.den _ (solvesSingles_step hi hf hn) fun h hh =>
        nameLang_of_nodup hnd' (mem_replaced.mpr (Or.inr (Or.inr hh)))
      rw [← hden, ← ha, ← hn]
      exact solves_nameLang p' (by simp)
    · refine solves_nameLang q (mem_replaced.mpr (Or.inl ?_))
      rcases List.mem_append.mp hq with h | h
      · exact List.mem_append_left _ h
      · exact List.mem_append_right _ ((List.mem_cons.mp h).resolve_left hqp)

include hi hf hcap hn ha in
theorem factorInv_step : FactorInv τ grammar (used ++ (f.helper.map Production.name).toList)
    (before ++ p' :: (after ++ f.helper.toList)) := by
  have hsub : namesOf (before ++ p :: after) ⊆
      namesOf (before ++ p' :: (after ++ f.helper.toList)) := by
    intro m hm
    simp only [namesOf_append, namesOf_cons, List.mem_append, List.mem_cons] at hm ⊢
    rw [hn]
    tauto
  have hhelper : namesOf f.helper.toList ⊆
      namesOf (before ++ p' :: (after ++ f.helper.toList)) := by
    intro m hm
    simp [hm]
  refine ⟨nodup_step hi hf hn, ?_, fun m hm => hsub (hi.input hm), ?_,
    fun t ht hlen => singles_step hi hf ht hlen,
    fun m hm => (lang_step hi hf hcap hn ha (hi.input hm)).trans (hi.lang m hm)⟩
  · intro m hm
    obtain ⟨q, hq, rfl⟩ := mem_namesOf.mp hm
    rcases mem_replaced.mp hq with hq | rfl | hq
    · exact List.mem_append_left _ (hi.used (mem_namesOf.mpr ⟨q, mem_of_rest hq, rfl⟩))
    · exact List.mem_append_left _ (hi.used (by simp [hn]))
    · refine List.mem_append_right _ (Option.mem_toList.mpr ?_)
      rw [Option.mem_def] at hq
      rw [hq]
      rfl
  · have hlift : grammar.refs ++ namesOf (before ++ p :: after) ⊆
        grammar.refs ++ namesOf (before ++ p' :: (after ++ f.helper.toList)) := fun m hm =>
      List.mem_append.mpr ((List.mem_append.mp hm).imp_right fun h => hsub h)
    have hp := hi.refs p (by simp)
    have hpg : refsInAlts p.alts ++ grammar.refs ⊆
        grammar.refs ++ namesOf (before ++ p :: after) := fun m hm =>
      (List.mem_append.mp hm).elim (fun h => hp h) fun h => List.mem_append_left _ h
    intro q hq
    rcases mem_replaced.mp hq with hq | rfl | hq
    · exact fun m hm => hlift (hi.refs q (mem_of_rest hq) hm)
    · rw [ha]
      intro m hm
      rcases List.mem_append.mp (hf.refs hm) with hm | hm
      · exact hlift (hpg hm)
      · exact List.mem_append_right _ (hhelper hm)
    · exact fun m hm => hlift (hpg (hf.helperRefs q hq hm))

end Step

theorem factorAlts_spec (hτ : RespectsEqual τ) {diag : String} {prod : Production}
    {before after : List Production} :
    ∀ (fuel : Nat) (alts : List Sequence) (used : List String)
      {r : List Sequence × List Production × List String},
      factorAlts diag lower upper grammar prod.name prod.originOf fuel alts used = .ok r →
      (∀ q ∈ r.2.1, q.name ∉ grammar.refs) →
      FactorInv τ grammar used (before ++ { prod with alts := alts } :: after) →
      FactorInv τ grammar r.2.2 (before ++ { prod with alts := r.1 } :: (after ++ r.2.1))
  | 0, alts, used, r, h, _, hi => by
    cases h
    rwa [List.append_nil]
  | fuel + 1, alts, used, r, h, hcap, hi => by
    obtain ⟨next, honce, h⟩ := bind_eq_ok h
    cases next with
    | none =>
      cases h
      rwa [List.append_nil]
    | some f =>
      obtain ⟨⟨alts', queued, used'⟩, hrest, h⟩ := bind_eq_ok h
      cases h
      have hstep : FactorInv τ grammar (used ++ (f.helper.map Production.name).toList)
          (before ++ { prod with alts := f.alts } :: (after ++ f.helper.toList)) :=
        factorInv_step (p := { prod with alts := alts }) hi (factorOnce_spec hτ honce)
          (fun q hq => hcap q (List.mem_append_left _ (Option.mem_toList.mpr hq))) rfl rfl
      have hfin := factorAlts_spec hτ fuel f.alts _ hrest
        (fun q hq => hcap q (List.mem_append_right _ hq)) hstep
      rwa [List.append_assoc] at hfin

/-- The productions queued have new names. -/
theorem factorAlts_fresh {diag prodName prodOrigin : String} :
    ∀ (fuel : Nat) (alts : List Sequence) (used : List String)
      {r : List Sequence × List Production × List String},
      factorAlts diag lower upper grammar prodName prodOrigin fuel alts used = .ok r →
      used ⊆ r.2.2 ∧ ∀ q ∈ r.2.1, q.name ∉ used
  | 0, alts, used, r, h => by
    cases h
    exact ⟨List.Subset.refl _, fun _ hq => absurd hq List.not_mem_nil⟩
  | fuel + 1, alts, used, r, h => by
    obtain ⟨next, honce, h⟩ := bind_eq_ok h
    cases next with
    | none =>
      cases h
      exact ⟨List.Subset.refl _, fun _ hq => absurd hq List.not_mem_nil⟩
    | some f =>
      obtain ⟨⟨alts', queued, used'⟩, hrest, h⟩ := bind_eq_ok h
      cases h
      obtain ⟨hsub, hnew⟩ := factorAlts_fresh fuel f.alts _ hrest
      refine ⟨fun n hn => hsub (List.mem_append_left _ hn), fun q hq hused => ?_⟩
      rcases List.mem_append.mp hq with hq | hq
      · obtain ⟨i, headEl, head, later, -, -, rfl⟩ := factorFrom_cases honce
        rw [(factorRun_helper (Option.mem_toList.mp hq)).1] at hused
        exact freshFactName_notMem _ _ hused
      · exact hnew q hq (List.mem_append_left _ hused)

theorem factorQueue_names {diag : String} :
    ∀ (fuel : Nat) (queue : List Production) (used : List String) (out : List Production)
      {res : List Production},
      factorQueue diag lower upper grammar fuel queue used out = some (.ok res) →
      namesOf (out ++ queue) ⊆ namesOf res
  | fuel, [], used, out, res, h => by
    unfold factorQueue at h
    cases h
    rw [List.append_nil]
    exact List.Subset.refl _
  | 0, _ :: _, _, _, res, h => by cases h
  | fuel + 1, prod :: queue, used, out, res, h => by
    unfold factorQueue at h
    split at h
    · have := factorQueue_names fuel queue used _ h
      simpa using this
    · split at h
      · cases h
      · rename_i alts queued used' _
        have hsub := factorQueue_names fuel (queue ++ queued) used' _ h
        intro n hn
        refine hsub ?_
        simp only [namesOf_append, namesOf_cons, List.mem_append, List.mem_cons] at hn ⊢
        tauto

theorem factorQueue_spec (hτ : RespectsEqual τ) {diag : String} :
    ∀ (fuel : Nat) (queue : List Production) (used : List String) (out : List Production)
      {res : List Production},
      factorQueue diag lower upper grammar fuel queue used out = some (.ok res) →
      (∀ r ∈ grammar.refs, r ∈ namesOf res → r ∈ grammar.names) →
      grammar.names ⊆ used → FactorInv τ grammar used (out ++ queue) →
      ∃ used', FactorInv τ grammar used' res
  | fuel, [], used, out, res, h, _, _, hi => by
    unfold factorQueue at h
    cases h
    rw [List.append_nil] at hi
    exact ⟨used, hi⟩
  | 0, _ :: _, _, _, res, h, _, _, _ => by cases h
  | fuel + 1, prod :: queue, used, out, res, h, hcap, hnames, hi => by
    unfold factorQueue at h
    split at h
    · exact factorQueue_spec hτ fuel queue used _ h hcap hnames (by simpa using hi)
    · split at h
      · cases h
      · rename_i alts queued used' halts
        obtain ⟨hused, hnew⟩ := factorAlts_fresh _ _ _ halts
        have hres := factorQueue_names fuel (queue ++ queued) used' _ h
        have hqueued : ∀ q ∈ queued, q.name ∉ grammar.refs := fun q hq href => by
          refine hnew q hq (hnames (hcap _ href (hres ?_)))
          exact mem_namesOf.mpr ⟨q, by simp [hq], rfl⟩
        have hstep := factorAlts_spec hτ _ _ _ halts hqueued hi
        exact factorQueue_spec hτ fuel (queue ++ queued) used' _ h hcap
          (fun n hn => hused (hnames hn)) (by simpa using hstep)

/-- **Left factoring keeps the language**, unless a helper takes the name of a reference that
named no production. -/
theorem leftFactor_lang {diag : String} {fuel : Nat} {g' : Grammar} (hτ : RespectsEqual τ)
    (hnd : grammar.names.Nodup)
    (h : leftFactor diag lower upper grammar fuel = some (.ok g'))
    (hcap : ∀ r ∈ grammar.refs, r ∈ g'.names → r ∈ grammar.names) :
    ∀ n ∈ grammar.names,
      nameLang τ g'.productions n = nameLang τ grammar.productions n := by
  obtain ⟨r, hr, h⟩ := Option.map_eq_some_iff.mp h
  cases r with
  | error e => cases h
  | ok res =>
    cases h
    obtain ⟨used', hi⟩ := factorQueue_spec hτ fuel _ _ _ hr hcap (List.Subset.refl _)
      ⟨hnd, List.Subset.refl _, List.Subset.refl _, fun q hq n hn => List.mem_append_left _
        (List.mem_flatMap.mpr ⟨q, hq, hn⟩), fun t ht _ => ⟨t, ht, rfl, rfl⟩, fun _ _ => rfl⟩
    exact hi.lang

/-- A literal stands for itself; so does any other terminal, by its kind. -/
def literalTokens : Element → Language String
  | .term literal cs _ _ => {[termKey literal cs]}
  | .token name _ => {[name]}
  | .regex pattern flags _ => {[pattern, flags]}
  | _ => 0

theorem respectsEqual_literalTokens : RespectsEqual literalTokens := by
  intro a b ha hb h
  cases a <;> cases b <;>
    simp_all [Element.isTerminal, elemEqual, literalTokens]

/-- `P = *"x" "a" / *"x" "b"`, `Q = P$fact0 "c"`: a name no production has. -/
def capturing : Grammar where
  productions := [
    { name := "P", alts := [[.star (.lit "x") none none, .lit "a"],
      [.star (.lit "x") none none, .lit "b"]] },
    { name := "Q", alts := [[.reference "P$fact0", .lit "c"]] }]

/-- What `capturing` is factored into. -/
def captured : Grammar where
  productions := [
    { name := "P", alts := [[.star (.lit "x") none none, .reference "P$fact0"]] },
    { name := "Q", alts := [[.reference "P$fact0", .lit "c"]] },
    { Production.helper "P$fact0" [[.lit "a"], [.lit "b"]] "P" with repeatHelper := false }]

theorem leftFactor_capturing : leftFactor "bnf" id id capturing 3 = some (.ok captured) := rfl

/-- The helper is what `Q` refers to now: the claim fails on `capturing`. -/
theorem leftFactor_captures :
    ¬ ∀ (grammar g' : Grammar) (fuel : Nat), grammar.names.Nodup →
      leftFactor "bnf" id id grammar fuel = some (.ok g') →
      ∀ n ∈ grammar.names, nameLang literalTokens g'.productions n =
        nameLang literalTokens grammar.productions n := by
  intro h
  have hq := h capturing captured 3 (by decide) leftFactor_capturing "Q" (by decide)
  have hfact : ["ci:a"] ∈ nameLang literalTokens captured.productions "P$fact0" := by
    refine mem_nameLang.mpr ⟨_, List.mem_of_getElem? (i := 2) rfl, rfl, [.lit "a"],
      List.mem_cons_self, ?_⟩
    rw [Cf.seq_singleton, den_terminal rfl]
    rfl
  have hmem : ["ci:a"] ++ ["ci:c"] ∈ nameLang literalTokens captured.productions "Q" := by
    refine mem_nameLang.mpr ⟨_, List.mem_of_getElem? (i := 1) rfl, rfl,
      [.reference "P$fact0", .lit "c"], List.mem_cons_self, ?_⟩
    rw [Cf.seq_cons, Element.reference, den_ref, Cf.seq_singleton, den_terminal rfl]
    exact Language.append_mem_mul hfact rfl
  rw [hq] at hmem
  obtain ⟨p, hp, hn, alt, halt, hw⟩ := mem_nameLang.mp hmem
  simp only [capturing, List.mem_cons, List.not_mem_nil, or_false] at hp
  rcases hp with rfl | rfl
  · exact absurd hn (by decide)
  · rw [List.mem_singleton.mp halt, Cf.seq_cons, Element.reference, den_ref,
      nameLang_of_notMem (by decide), zero_mul] at hw
    exact Language.notMem_zero _ hw

/-- `P = *"x" "a" / *"x" "b"`. -/
def sharing : Grammar where
  productions := [{ name := "P", alts := [[.star (.lit "x") none none, .lit "a"],
    [.star (.lit "x") none none, .lit "b"]] }]

/-- What `sharing` is factored into. -/
def shared : Grammar where
  productions := [
    { name := "P", alts := [[.star (.lit "x") none none, .reference "P$fact0"]] },
    { Production.helper "P$fact0" [[.lit "a"], [.lit "b"]] "P" with repeatHelper := false }]

theorem leftFactor_sharing : leftFactor "bnf" id id sharing 2 = some (.ok shared) := rfl

theorem leftFactor_lang_sharing : nameLang literalTokens shared.productions "P" =
    nameLang literalTokens sharing.productions "P" :=
  leftFactor_lang respectsEqual_literalTokens (by decide) leftFactor_sharing (by decide) "P"
    (by decide)

end TabnasBnf
