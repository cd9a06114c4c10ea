import TabnasBnf.Annotate
import TabnasBnf.LeadingCycles

/-!
# What the plan of the value annotations accepts and predicts

* `reachesAnnotated_eq_none`: the walk over elements finds an annotated rule when one can be
  reached, and the first that the sugar names when none is hidden
  (`reachesAnnotated_eq_namedValue`).
* `resolveLeadingFold_tells`: the fold follows a chain of aliases to its end.
* **`planValueAnnotations_eq_ok`**: in a grammar of distinct names the plan is made when no rule
  begins with one whose value would be folded away and every annotation is one its rule can build
  (`Annotated`), and then it is the one read off the parts.
-/

namespace TabnasBnf

open Relation

/-! ## Reaching a value -/

section

variable {prods : List Production}

/-- The rule of that name builds a value. -/
def BuildsValue (prods : List Production) (n : String) : Prop :=
  ∃ p, byName prods n = some p ∧ p.value.isSome = true

/-- The rule of that name builds none, and has the element in its body. -/
def HoldsElement (prods : List Production) (n : String) (el : Element) : Prop :=
  ∃ p, byName prods n = some p ∧ p.value.isSome = false ∧ el ∈ p.alts.flatten

/-- A rule that builds a value can be reached from an element, through rules that build none. -/
inductive ReachesValue (prods : List Production) : Element → String → Prop
  | here {n debt sp} : BuildsValue prods n → ReachesValue prods (.ref n debt sp) n
  | through {n debt sp el m} : HoldsElement prods n el → ReachesValue prods el m →
      ReachesValue prods (.ref n debt sp) m
  | nested {el inner m} : inner ∈ el.nested → ReachesValue prods inner m → ReachesValue prods el m

/-- Within the sugar of an element, a rule that builds no value reaches one that does. -/
inductive HidesValue (prods : List Production) : Element → Prop
  | here {n debt sp m} : ¬BuildsValue prods n → ReachesValue prods (.ref n debt sp) m →
      HidesValue prods (.ref n debt sp)
  | nested {el inner} : inner ∈ el.nested → HidesValue prods inner → HidesValue prods el

theorem load_count (els : List Element) : Walk.load Element.count els = countIn els := by
  induction els with
  | nil => rfl
  | cons el els ih => rw [countIn, ← ih, Walk.load, Walk.load, List.map_cons, List.sum_cons]

theorem countIn_append (els els' : List Element) :
    countIn (els ++ els') = countIn els + countIn els' := by
  simp [← load_count, Walk.load]

theorem countInAlts_eq (alts : List Sequence) : countInAlts alts = countIn alts.flatten := by
  induction alts with
  | nil => rfl
  | cons alt alts ih => rw [countInAlts, List.flatten_cons, countIn_append, ih]

/-- An element counts itself beside what it holds. -/
theorem count_eq (el : Element) : el.count = countIn el.nested + 1 := by
  cases el with
  | group alts sp => rw [Element.count, Element.nested, countInAlts_eq]
  | _ => simp [Element.count, Element.nested, countIn]

theorem reachesMove_of_refName {el : Element} (h : el.refName = none) :
    reachesMove prods el = .into el.nested := by
  cases el with
  | ref name debt sp => cases h
  | _ => rfl

theorem reachesMove_enter {el : Element} {k : String} {items : List Element}
    (h : reachesMove prods el = .enter k items) :
    ∃ p, byName prods k = some p ∧ p.value.isSome = false ∧ items = p.alts.flatten ∧
      el.refName = some k := by
  cases el with
  | ref name debt sp =>
    rw [reachesMove] at h
    cases hp : byName prods name with
    | none => simp [hp] at h
    | some p =>
      cases hv : p.value.isSome with
      | true => simp [hp, hv] at h
      | false =>
        simp only [hp, hv, Bool.false_eq_true, if_false, Walk.Move.enter.injEq] at h
        obtain ⟨rfl, rfl⟩ := h
        obtain ⟨-, hname⟩ := mem_of_byName hp
        exact ⟨p, by rw [hname]; exact hp, hv, rfl, by rw [hname, Element.refName]⟩
  | _ => cases h

theorem reachesMove_found {el : Element} {m : String} (h : reachesMove prods el = .found m) :
    BuildsValue prods m ∧ el.refName = some m := by
  cases el with
  | ref name debt sp =>
    rw [reachesMove] at h
    cases hp : byName prods name with
    | none => simp [hp] at h
    | some p =>
      cases hv : p.value.isSome with
      | false => simp [hp, hv] at h
      | true =>
        simp only [hp, hv, if_true, Walk.Move.found.injEq] at h
        obtain ⟨-, hname⟩ := mem_of_byName hp
        rw [← h]
        exact ⟨⟨p, by rw [hname]; exact hp, hv⟩, by rw [hname, Element.refName]⟩
  | _ => cases h

theorem reachesMove_builds {n : String} (h : BuildsValue prods n)
    (debt : Option (List (String × Int))) (sp : Option SrcSpan) :
    reachesMove prods (.ref n debt sp) = .found n := by
  obtain ⟨p, hp, hv⟩ := h
  obtain ⟨-, hname⟩ := mem_of_byName hp
  simp [reachesMove, hp, hv, hname]

theorem reachesMove_into {el : Element} {items : List Element}
    (h : reachesMove prods el = .into items) : items = el.nested := by
  cases hr : el.refName with
  | none => exact (Walk.Move.into.inj ((reachesMove_of_refName hr).symm.trans h)).symm
  | some name =>
    obtain ⟨debt, sp, rfl⟩ := Element.refName_eq_some.mp hr
    rw [reachesMove] at h
    cases hp : byName prods name with
    | none =>
      simp only [hp, Walk.Move.into.injEq] at h
      exact h.symm
    | some p => cases hv : p.value.isSome <;> simp [hp, hv] at h

theorem paid_reachesMove : Walk.Paid (reachesMove prods) Element.count (walkEntries prods) where
  pos el := by
    rw [count_eq]
    exact Nat.succ_pos _
  into el items h := by
    rw [load_count, count_eq, reachesMove_into h]
    exact Nat.lt_succ_self _
  enter el k items h := by
    obtain ⟨p, hp, -, rfl, -⟩ := reachesMove_enter h
    obtain ⟨hmem, rfl⟩ := mem_of_byName hp
    exact List.mem_map.mpr ⟨p, hmem, rfl⟩
  key el el' k items items' h h' := by
    obtain ⟨p, hp, -, rfl, -⟩ := reachesMove_enter h
    obtain ⟨p', hp', -, rfl, -⟩ := reachesMove_enter h'
    rw [Option.some.inj (hp.symm.trans hp')]

theorem passes_reachesMove {el inner : Element} (h : Walk.Passes (reachesMove prods) el inner) :
    inner ∈ el.nested ∨ ∃ n, el.refName = some n ∧ HoldsElement prods n inner := by
  rw [Walk.Passes] at h
  cases hmove : reachesMove prods el with
  | found m => simp [hmove, Walk.Move.items] at h
  | into items =>
    rw [hmove, Walk.Move.items, reachesMove_into hmove] at h
    exact .inl h
  | enter k items =>
    rw [hmove, Walk.Move.items] at h
    obtain ⟨p, hp, hv, rfl, hr⟩ := reachesMove_enter hmove
    exact .inr ⟨k, hr, p, hp, hv, h⟩

/-- What the walk finds is a value that can be reached. -/
theorem reachesValue_iff {el : Element} {m : String} :
    ReachesValue prods el m ↔
      ∃ inner, Walk.Reaches (reachesMove prods) el inner ∧ reachesMove prods inner = .found m := by
  constructor
  · intro h
    induction h with
    | here hb => exact ⟨_, ReflTransGen.refl, reachesMove_builds hb _ _⟩
    | @through n debt sp el m hh _ ih =>
      obtain ⟨inner, hreach, hfound⟩ := ih
      obtain ⟨p, hp, hv, hel⟩ := hh
      refine ⟨inner, ReflTransGen.head ?_ hreach, hfound⟩
      simpa [Walk.Passes, reachesMove, hp, hv, Walk.Move.items] using hel
    | @nested el inner m hin _ ih =>
      obtain ⟨target, hreach, hfound⟩ := ih
      refine ⟨target, ReflTransGen.head ?_ hreach, hfound⟩
      have hr : el.refName = none := by
        cases hr : el.refName with
        | none => rfl
        | some n =>
          obtain ⟨debt, sp, rfl⟩ := Element.refName_eq_some.mp hr
          cases hin
      rwa [Walk.Passes, reachesMove_of_refName hr, Walk.Move.items]
  · rintro ⟨inner, hreach, hfound⟩
    induction hreach using ReflTransGen.head_induction_on with
    | refl =>
      obtain ⟨hb, hr⟩ := reachesMove_found hfound
      obtain ⟨debt, sp, rfl⟩ := Element.refName_eq_some.mp hr
      exact .here hb
    | head hstep _ ih =>
      rcases passes_reachesMove hstep with hin | ⟨n, hr, hh⟩
      · exact .nested hin ih
      · obtain ⟨debt, sp, rfl⟩ := Element.refName_eq_some.mp hr
        exact .through hh ih

theorem settled_nil {α K R : Type} {move : α → Walk.Move α K R} {stack : List α} :
    Walk.Settled move [] stack := fun _ hk => absurd hk List.not_mem_nil

/-- **The walk finds nothing where nothing can be reached.** -/
theorem reachesAnnotated_eq_none {el : Element} :
    reachesAnnotated prods el = none ↔ ∀ m, ¬ReachesValue prods el m := by
  have hsettled : Walk.Settled (reachesMove prods) [] [el] := settled_nil
  rw [← Option.not_isSome_iff_eq_none, reachesAnnotated,
    Walk.answer_isSome_iff paid_reachesMove hsettled]
  simp only [List.mem_singleton, exists_eq_left, reachesValue_iff]
  constructor
  · rintro h m ⟨inner, hreach, hfound⟩
    exact h ⟨inner, m, hreach, hfound⟩
  · rintro h ⟨inner, m, hreach, hfound⟩
    exact h m ⟨inner, hreach, hfound⟩

theorem reachesValue_of_reachesAnnotated {el : Element} {m : String}
    (h : reachesAnnotated prods el = some m) : ReachesValue prods el m := by
  obtain ⟨x, hx, inner, hreach, hfound⟩ := Walk.met_walk.answer m h
  obtain rfl := List.mem_singleton.mp hx
  exact reachesValue_iff.mpr ⟨inner, hreach, hfound⟩

/-! ## Values hidden in sugar -/

theorem count_lt_of_mem_nested {el inner : Element} (h : inner ∈ el.nested) :
    inner.count < el.count := by
  have hle : inner.count ≤ countIn el.nested := by
    rw [← load_count]
    exact List.single_le_sum (fun _ _ => Nat.zero_le _) _ (List.mem_map_of_mem h)
  have heq := count_eq el
  omega

theorem hiddenIn_eq_none {els : List Element} :
    hiddenIn prods els = none ↔ ∀ el ∈ els, hiddenAnnotated prods el = none := by
  induction els with
  | nil => simp [hiddenIn]
  | cons el els ih => cases h : hiddenAnnotated prods el <;> simp [hiddenIn, h, ih]

theorem hiddenIn_append (els els' : List Element) :
    hiddenIn prods (els ++ els') = (hiddenIn prods els).orElse fun _ => hiddenIn prods els' := by
  induction els with
  | nil => simp [hiddenIn]
  | cons el els ih => cases h : hiddenAnnotated prods el <;> simp [hiddenIn, h, ih]

theorem hiddenInAlts_eq (alts : List Sequence) :
    hiddenInAlts prods alts = hiddenIn prods alts.flatten := by
  induction alts with
  | nil => rfl
  | cons alt alts ih => rw [hiddenInAlts, List.flatten_cons, hiddenIn_append, ih]

/-- Sugar hides what one of its elements hides. -/
theorem hiddenAnnotated_of_refName {el : Element} (h : el.refName = none) :
    hiddenAnnotated prods el = hiddenIn prods el.nested := by
  cases el with
  | ref name debt sp => cases h
  | group alts sp => rw [hiddenAnnotated, hiddenInAlts_eq, Element.nested]
  | _ => simp [hiddenAnnotated, hiddenIn, Element.nested]

theorem hidesValue_of_refName {el : Element} (h : el.refName = none) :
    HidesValue prods el ↔ ∃ inner ∈ el.nested, HidesValue prods inner := by
  constructor
  · intro hv
    cases hv with
    | here => cases h
    | nested hin hv => exact ⟨_, hin, hv⟩
  · rintro ⟨inner, hin, hv⟩
    exact .nested hin hv

theorem hidesValue_ref {n : String} {debt : Option (List (String × Int))} {sp : Option SrcSpan} :
    HidesValue prods (.ref n debt sp) ↔
      ¬BuildsValue prods n ∧ ∃ m, ReachesValue prods (.ref n debt sp) m := by
  constructor
  · intro hv
    cases hv with
    | here hn hm => exact ⟨hn, _, hm⟩
    | nested hin _ => cases hin
  · rintro ⟨hn, m, hm⟩
    exact .here hn hm

/-- **The search through sugar finds nothing where nothing is hidden.** -/
theorem hiddenAnnotated_eq_none {el : Element} :
    hiddenAnnotated prods el = none ↔ ¬HidesValue prods el := by
  induction hn : el.count using Nat.strong_induction_on generalizing el with
  | _ n ih =>
    cases hr : el.refName with
    | none =>
      rw [hiddenAnnotated_of_refName hr, hiddenIn_eq_none, hidesValue_of_refName hr]
      push Not
      refine forall₂_congr fun inner hin => ih inner.count ?_ rfl
      exact hn ▸ count_lt_of_mem_nested hin
    | some name =>
      obtain ⟨debt, sp, rfl⟩ := Element.refName_eq_some.mp hr
      rw [hidesValue_ref, hiddenAnnotated]
      cases hp : byName prods name with
      | none =>
        have hstuck : reachesAnnotated prods (.ref name debt sp) = none := by
          rw [reachesAnnotated_eq_none]
          rintro m (⟨p, hp', -⟩ | ⟨⟨p, hp', -, -⟩, -⟩ | ⟨hin, -⟩)
          · simp [hp] at hp'
          · simp [hp] at hp'
          · cases hin
        have := reachesAnnotated_eq_none.mp hstuck
        simp [this]
      | some p =>
        cases hv : p.value.isSome with
        | true =>
          have hbuilds : BuildsValue prods name := ⟨p, hp, hv⟩
          simp [hv, hbuilds]
        | false =>
          have hbuilds : ¬BuildsValue prods name := by
            rintro ⟨p', hp', hv'⟩
            rw [← Option.some.inj (hp.symm.trans hp'), hv] at hv'
            cases hv'
          simp [hv, hbuilds, reachesAnnotated_eq_none]

/-- Whether the rule of that name builds a value. -/
def valued (prods : List Production) (n : String) : Bool :=
  (byName prods n).any fun p => p.value.isSome

theorem valued_iff {n : String} : valued prods n = true ↔ BuildsValue prods n := by
  cases hp : byName prods n <;> simp [valued, BuildsValue, hp]

/-- The first rule that the sugar of an element names and that builds a value. -/
def namedValue (prods : List Production) (el : Element) : Option String :=
  el.refs.find? (valued prods)

theorem namedValue_of_refName {el : Element} (h : el.refName = none) :
    namedValue prods el = el.nested.findSome? (namedValue prods) := by
  unfold namedValue
  have hrefs : el.refs = el.nested.flatMap Element.refs := by
    have hflat : ∀ els : List Element, refsIn els = els.flatMap Element.refs := by
      intro els
      induction els with
      | nil => rfl
      | cons el els ih => rw [refsIn, List.flatMap_cons, ih]
    have halts : ∀ alts : List Sequence, refsInAlts alts = refsIn alts.flatten := by
      intro alts
      induction alts with
      | nil => rfl
      | cons alt alts ih => rw [refsInAlts, ih, List.flatten_cons, hflat, hflat, hflat, List.flatMap_append]
    cases el with
    | ref name debt sp => cases h
    | group alts sp => rw [Element.refs, halts, hflat, Element.nested]
    | _ => simp [Element.refs, Element.nested]
  rw [hrefs, List.find?_flatMap]

theorem reachesValue_of_namedValue {el : Element} {m : String} (h : namedValue prods el = some m) :
    ReachesValue prods el m := by
  induction hn : el.count using Nat.strong_induction_on generalizing el with
  | _ n ih =>
    cases hr : el.refName with
    | none =>
      rw [namedValue_of_refName hr] at h
      obtain ⟨inner, hin, hm⟩ := List.exists_of_findSome?_eq_some h
      exact .nested hin (ih inner.count (hn ▸ count_lt_of_mem_nested hin) hm rfl)
    | some name =>
      obtain ⟨debt, sp, rfl⟩ := Element.refName_eq_some.mp hr
      obtain rfl : m = name := by simpa [Element.refs] using List.mem_of_find?_eq_some h
      exact .here (valued_iff.mp (List.find?_some h))

theorem HidesValue.reaches {el : Element} (h : HidesValue prods el) :
    ∃ m, ReachesValue prods el m := by
  induction h with
  | here _ hm => exact ⟨_, hm⟩
  | nested hin _ ih =>
    obtain ⟨m, hm⟩ := ih
    exact ⟨m, .nested hin hm⟩

theorem namedValue_of_into {el : Element} {items : List Element}
    (h : reachesMove prods el = .into items) :
    namedValue prods el = el.nested.findSome? (namedValue prods) := by
  cases hr : el.refName with
  | none => exact namedValue_of_refName hr
  | some n =>
    have hundefined : ¬BuildsValue prods n := by
      intro hb
      obtain ⟨debt, sp, rfl⟩ := Element.refName_eq_some.mp hr
      cases (reachesMove_builds hb debt sp).symm.trans h
    obtain ⟨debt, sp, rfl⟩ := Element.refName_eq_some.mp hr
    simp [namedValue, Element.refs, Element.nested, Bool.eq_false_iff.mpr (mt valued_iff.mp hundefined)]

/-- What is still to be walked hides nothing, and the first value it names is the answer. -/
def Foretold (prods : List Production) (m : Option String) (s : Walk.State Element String String) :
    Prop :=
  (∀ el ∈ s.stack, ¬HidesValue prods el) ∧ s.answer.or (s.stack.findSome? (namedValue prods)) = m

theorem foretold_next {m : Option String} {s s' : Walk.State Element String String}
    (hs : Walk.next (reachesMove prods) s = some s') (h : Foretold prods m s) :
    Foretold prods m s' := by
  obtain ⟨seen, stack, answer⟩ := s
  obtain ⟨hhides, rfl⟩ := h
  cases answer with
  | some r => simp [Walk.next] at hs
  | none =>
    cases stack with
    | nil => simp [Walk.next] at hs
    | cons el rest =>
      obtain ⟨hel, hrest⟩ := List.forall_mem_cons.mp hhides
      simp only [Walk.next] at hs
      cases hmove : reachesMove prods el with
      | found r =>
        rw [hmove] at hs
        obtain rfl := Option.some.inj hs
        obtain ⟨hb, hr⟩ := reachesMove_found hmove
        obtain ⟨debt, sp, rfl⟩ := Element.refName_eq_some.mp hr
        refine ⟨hrest, ?_⟩
        simp [namedValue, Element.refs, valued_iff.mpr hb]
      | into items =>
        rw [hmove] at hs
        obtain rfl := Option.some.inj hs
        obtain rfl := reachesMove_into hmove
        refine ⟨fun y hy => ?_, ?_⟩
        · rcases List.mem_append.mp hy with hy | hy
          · exact fun hv => hel (.nested hy hv)
          · exact hrest y hy
        · rw [List.findSome?_append, List.findSome?_cons, namedValue_of_into hmove]
          cases el.nested.findSome? (namedValue prods) <;> rfl
      | enter k items =>
        rw [hmove] at hs
        obtain ⟨p, hp, hv, rfl, hr⟩ := reachesMove_enter hmove
        obtain ⟨debt, sp, rfl⟩ := Element.refName_eq_some.mp hr
        have hbuilds : ¬BuildsValue prods k := by
          rintro ⟨p', hp', hv'⟩
          rw [← Option.some.inj (hp.symm.trans hp'), hv] at hv'
          cases hv'
        have hnamed : namedValue prods (.ref k debt sp) = none := by
          simp [namedValue, Element.refs, Bool.eq_false_iff.mpr (mt valued_iff.mp hbuilds)]
        have hbody : ∀ y ∈ p.alts.flatten, ∀ r, ¬ReachesValue prods y r := fun y hy r hreach =>
          hel (.here hbuilds (.through ⟨p, hp, hv, hy⟩ hreach))
        by_cases hseen : k ∈ seen
        · simp only [hseen, if_true, Option.some.injEq] at hs
          rw [← hs]
          exact ⟨hrest, by simp [hnamed]⟩
        · simp only [hseen, if_false, Option.some.injEq] at hs
          rw [← hs]
          refine ⟨fun y hy => ?_, ?_⟩
          · rcases List.mem_append.mp hy with hy | hy
            · intro hv
              obtain ⟨r, hr⟩ := hv.reaches
              exact hbody y hy r hr
            · exact hrest y hy
          · have hitems : p.alts.flatten.findSome? (namedValue prods) = none := by
              refine List.findSome?_eq_none_iff.mpr fun y hy => ?_
              cases hm : namedValue prods y with
              | none => rfl
              | some r => exact absurd (reachesValue_of_namedValue hm) (hbody y hy r)
            simp [List.findSome?_append, hnamed, hitems]

/-- **Where nothing is hidden, the walk finds the first rule that the sugar names.** -/
theorem reachesAnnotated_eq_namedValue {el : Element} (h : ¬HidesValue prods el) :
    reachesAnnotated prods el = namedValue prods el := by
  obtain ⟨-, hend⟩ : Foretold prods (namedValue prods el) (Walk.walk (reachesMove prods)
      Element.count (walkEntries prods) [] [el]) :=
    Loop.run_invariant (P := Foretold prods (namedValue prods el)) (fun _ _ => foretold_next) _ _
      ⟨by simpa using h, by cases hm : namedValue prods el <;> simp [hm]⟩
  rw [reachesAnnotated, ← hend]
  cases hanswer : (Walk.walk (reachesMove prods) Element.count (walkEntries prods) [] [el]).answer with
  | some r => rfl
  | none => rw [Walk.stack_of_answer_none paid_reachesMove hanswer]; rfl

/-! ## Leading folds -/

/-- A rule that the fold passes: it builds nothing and is one reference. -/
def Aliases (prods : List Production) (n m : String) : Prop :=
  ∃ p el, byName prods n = some p ∧ p.value.isSome = false ∧ p.alts = [[el]] ∧ el.refName = some m

/-- A rule that is undefined, or is one part and builds nothing. -/
def EndsAsPart (prods : List Production) (n : String) : Prop :=
  ∀ p, byName prods n = some p → p.value.isSome = false ∧
    ∃ el, p.alts = [[el]] ∧ pushesValue el = true ∧ el.refName = none

/-- What a chain of aliases leads to. -/
def Folds (prods : List Production) : String → String → Prop := ReflTransGen (Aliases prods)

theorem aliases_unique {n m m' : String} (h : Aliases prods n m) (h' : Aliases prods n m') :
    m = m' := by
  obtain ⟨p, el, hp, -, halts, hr⟩ := h
  obtain ⟨p', el', hp', -, halts', hr'⟩ := h'
  obtain rfl := Option.some.inj (hp.symm.trans hp')
  simp only [halts, List.cons.injEq, and_true] at halts'
  exact Option.some.inj (hr.symm.trans (halts' ▸ hr'))

theorem not_aliases_of_builds {n m : String} (h : BuildsValue prods n) : ¬Aliases prods n m := by
  rintro ⟨p, el, hp, hv, -⟩
  obtain ⟨p', hp', hv'⟩ := h
  rw [← Option.some.inj (hp.symm.trans hp'), hv] at hv'
  cases hv'

theorem not_aliases_of_endsAsPart {n m : String} (h : EndsAsPart prods n) :
    ¬Aliases prods n m := by
  rintro ⟨p, el, hp, -, halts, hr⟩
  obtain ⟨-, el', halts', -, hr'⟩ := h p hp
  simp only [halts, List.cons.injEq, and_true] at halts'
  rw [← halts', hr] at hr'
  cases hr'

/-- Where a chain stops, it goes no further. -/
theorem folds_of_stop {n q : String} (hstop : ∀ m, ¬Aliases prods n m) :
    Folds prods n q ↔ q = n := by
  constructor
  · intro h
    rcases ReflTransGen.cases_head h with rfl | ⟨m, hm, -⟩
    · rfl
    · exact absurd hm (hstop m)
  · rintro rfl
    exact .refl

theorem folds_of_aliases {n m q : String} (h : Aliases prods n m) (hq : ∀ m, ¬Aliases prods q m) :
    Folds prods n q ↔ Folds prods m q := by
  constructor
  · intro hfold
    rcases ReflTransGen.cases_head hfold with rfl | ⟨m', hm', hfold⟩
    · exact absurd h (hq m)
    · exact aliases_unique h hm' ▸ hfold
  · exact ReflTransGen.head h

/-- A chain that comes back to a name never ends. -/
theorem not_folds_of_cycle {n q : String} (hcycle : TransGen (Aliases prods) n n)
    (hq : ∀ m, ¬Aliases prods q m) : ¬Folds prods n q := by
  intro hfold
  induction hfold using ReflTransGen.head_induction_on with
  | refl =>
    obtain ⟨m, hm, -⟩ := TransGen.head'_iff.mp hcycle
    exact hq m hm
  | head hstep _ ih =>
    obtain ⟨m, hm, hback⟩ := TransGen.head'_iff.mp hcycle
    obtain rfl := aliases_unique hstep hm
    exact ih (TransGen.tail' hback hstep)

/-- What the answer of a fold from a name says. -/
structure FoldTells (prods : List Production) (n : String) (answer : Bool × Option String) : Prop where
  hit : ∀ q, answer.2 = some q ↔ Folds prods n q ∧ BuildsValue prods q
  part : answer.1 = true ↔ ∃ q, Folds prods n q ∧ EndsAsPart prods q

/-- The answer where the chain stops. -/
theorem foldTells_stop {n : String} {answer : Bool × Option String}
    (hstop : ∀ m, ¬Aliases prods n m)
    (hhit : ∀ q, answer.2 = some q ↔ q = n ∧ BuildsValue prods n)
    (hpart : answer.1 = true ↔ EndsAsPart prods n) : FoldTells prods n answer where
  hit q := by
    rw [folds_of_stop hstop, hhit]
    constructor
    · rintro ⟨rfl, h⟩
      exact ⟨rfl, h⟩
    · rintro ⟨rfl, h⟩
      exact ⟨rfl, h⟩
  part := by simp [folds_of_stop hstop, hpart]

theorem FoldTells.of_aliases {n m : String} {answer : Bool × Option String}
    (h : Aliases prods n m) (htells : FoldTells prods m answer) : FoldTells prods n answer where
  hit q := by
    rw [htells.hit]
    refine and_congr_left fun hq => (folds_of_aliases h fun _ => not_aliases_of_builds hq).symm
  part := by
    rw [htells.part]
    refine exists_congr fun q => and_congr_left fun hq => ?_
    exact (folds_of_aliases h fun _ => not_aliases_of_endsAsPart hq).symm

/-- **One run of the fold**: the names seen lead to the one looked at, and the fuel is more than
the productions left. -/
theorem leadingFold_tells : ∀ (fuel : Nat) (seen : List String) (n : String), seen.Nodup →
    (∀ s ∈ seen, s ∈ namesOf prods ∧ TransGen (Aliases prods) s n) →
    prods.length < fuel + seen.length → FoldTells prods n (leadingFold prods fuel seen (byName prods n))
  | fuel, seen, n, hnodup, hseen, hfuel => by
    have hlen : seen.length ≤ prods.length := by
      rw [← List.length_map (f := Production.name)]
      exact (List.subperm_of_subset hnodup fun s hs => (hseen s hs).1).length_le
    obtain ⟨fuel, rfl⟩ : ∃ k, fuel = k + 1 := ⟨fuel - 1, by omega⟩
    cases hp : byName prods n with
    | none =>
      refine foldTells_stop ?_ ?_ ?_
      · rintro m ⟨p, el, hp', -⟩
        simp [hp] at hp'
      · intro q
        simp [leadingFold, BuildsValue, hp]
      · simp [leadingFold, EndsAsPart, hp]
    | some p =>
      obtain ⟨hmem, hname⟩ := mem_of_byName hp
      rw [leadingFold, hname]
      by_cases hin : n ∈ seen
      · -- the chain came back
        have hcycle := (hseen n hin).2
        rw [if_pos (by simpa using hin)]
        constructor
        · intro q
          refine iff_of_false (by simp) fun ⟨hfold, hq⟩ => ?_
          exact not_folds_of_cycle hcycle (fun _ => not_aliases_of_builds hq) hfold
        · refine iff_of_false (by simp) fun ⟨q, hfold, hq⟩ => ?_
          exact not_folds_of_cycle hcycle (fun _ => not_aliases_of_endsAsPart hq) hfold
      · rw [if_neg (by simpa using hin)]
        have hbuilds : BuildsValue prods n ↔ p.value.isSome = true := by simp [BuildsValue, hp]
        have hends : EndsAsPart prods n ↔ p.value.isSome = false ∧
            ∃ el, p.alts = [[el]] ∧ pushesValue el = true ∧ el.refName = none := by
          simp [EndsAsPart, hp]
        have halias : ∀ m, Aliases prods n m ↔ p.value.isSome = false ∧
            ∃ el, p.alts = [[el]] ∧ el.refName = some m := by
          intro m
          simp [Aliases, hp]
        cases hv : p.value.isSome with
        | true =>
          rw [if_pos rfl]
          refine foldTells_stop (fun m => by simp [halias, hv]) (fun q => ?_) ?_
          · simp [hbuilds, hv, eq_comm]
          · simp [hends, hv]
        | false =>
          rw [if_neg Bool.false_ne_true]
          by_cases hone : ∃ el, p.alts = [[el]]
          · obtain ⟨el, halts⟩ := hone
            rw [halts]
            dsimp only
            by_cases hpush : pushesValue el = true
            · rw [if_neg (by simp [hpush])]
              cases hr : el.refName with
              | none =>
                refine foldTells_stop (fun m => by simp [halias, halts, hr]) (fun q => ?_) ?_
                · simp [hbuilds, hv]
                · simp [hends, hv, halts, hpush, hr]
              | some next =>
                have hnext : Aliases prods n next := (halias next).mpr ⟨hv, el, halts, hr⟩
                refine FoldTells.of_aliases hnext (leadingFold_tells fuel (seen ++ [n]) next ?_ ?_ ?_)
                · simpa using hnodup.concat hin
                · intro s hs
                  rcases List.mem_append.mp hs with hs | hs
                  · exact ⟨(hseen s hs).1, (hseen s hs).2.tail hnext⟩
                  · obtain rfl := List.mem_singleton.mp hs
                    exact ⟨mem_namesOf.mpr ⟨p, hmem, hname⟩, .single hnext⟩
                · rw [List.length_append, List.length_singleton]
                  omega
            · have hr : el.refName = none := by
                cases el <;> first | rfl | simp [pushesValue] at hpush
              rw [if_pos (by simpa using hpush)]
              refine foldTells_stop (fun m => by simp [halias, halts, hr]) (fun q => ?_) ?_
              · simp [hbuilds, hv]
              · simp [hends, halts, hpush]
          · split
            next el halts => exact absurd ⟨el, halts⟩ hone
            next =>
              refine foldTells_stop (fun m => ?_) (fun q => ?_) ?_
              · rw [halias]
                rintro ⟨-, el, halts, -⟩
                exact hone ⟨el, halts⟩
              · simp [hbuilds, hv]
              · rw [hends]
                refine iff_of_false (by simp) ?_
                rintro ⟨-, el, halts, -⟩
                exact hone ⟨el, halts⟩

/-- **What `resolve_leading_fold` answers.** -/
theorem resolveLeadingFold_tells (n : String) : FoldTells prods n (resolveLeadingFold prods n) :=
  leadingFold_tells (prods.length + 1) [] n .nil (fun _ hs => absurd hs List.not_mem_nil) (by simp)

/-! ## What is accepted -/

/-- A rule whose leading reference stays: it is one reference, and neither it nor its target leads
back to itself. -/
def KeepsLeading (prods : List Production) (prod : Production) : Prop :=
  ∃ el n, prod.alts = [[el]] ∧ el.refName = some n ∧
    ¬TransGen (LeadingEdge prods) prod.name prod.name ∧ ¬TransGen (LeadingEdge prods) n n

/-- The reference that begins an alternative. -/
def leadingRef (alt : Sequence) : Option String := alt.head?.bind Element.refName

/-- No alternative that is substituted into begins with a chain to a rule that builds a value. -/
def FoldsNoValue (prods : List Production) : Prop :=
  ∀ prod ∈ prods, ¬KeepsLeading prods prod → ∀ alt ∈ prod.alts, ∀ n, leadingRef alt = some n →
    ∀ q, Folds prods n q → ¬BuildsValue prods q

/-- A part nests as the rule that builds its value, or is taken as text and reaches none; or an array
collects from it, whose sugar hides no value and does not name the array's own rule first. -/
def KeepsValues (prods : List Production) (prod : Production) (v : ValueAnnotation)
    (el : Element) : Prop :=
  (∃ n, el.refName = some n ∧ BuildsValue prods n) ∨ (∀ m, ¬ReachesValue prods el m) ∨
    v.kind = "array" ∧ collectsValues el = true ∧ namedValue prods el ≠ some prod.name ∧
      ¬HidesValue prods el

/-- The annotation of a rule is one that its only alternative can build. -/
structure Annotated (prods : List Production) (prod : Production) (v : ValueAnnotation)
    (alt : Sequence) : Prop where
  one : prod.alts = [alt]
  kind : v.kind = "object" ∨ v.kind = "array"
  distinct : v.members.Nodup
  names : ∀ m ∈ v.members, m ≠ "" ∧ m ≠ srcField
  body : ∀ text sp, alt ≠ [.prose text sp]
  named : v.members.length = if v.kind = "array" then 0 else (partsOf alt).length
  first : ¬KeepsLeading prods prod → ∀ n, leadingRef alt = some n →
    ∃ q, Folds prods n q ∧ EndsAsPart prods q
  texts : ∀ el ∈ partsOf alt, KeepsValues prods prod v el

section

variable {diag : String} {prod : Production} {v : ValueAnnotation} {alt : Sequence}

theorem exemptAlias_iff (hnd : (namesOf prods).Nodup) :
    exemptAlias prod (findLeadingRefCycleMembers prods) = true ↔ KeepsLeading prods prod := by
  unfold KeepsLeading
  simp only [← mem_cyclic_iff hnd]
  unfold exemptAlias
  split
  next el halts =>
    cases hr : el.refName with
    | none => simp [halts, hr]
    | some n => simp [halts, hr]
  next hother =>
    refine iff_of_false Bool.false_ne_true ?_
    rintro ⟨el, n, halts, -⟩
    exact hother el halts

variable (diag) in
theorem checkLeadingFolds_eq_ok (hnd : (namesOf prods).Nodup) :
    checkLeadingFolds diag prods (findLeadingRefCycleMembers prods) = .ok () ↔
      FoldsNoValue prods := by
  rw [checkLeadingFolds, forM_eq_ok]
  refine forall₂_congr fun prod _ => ?_
  by_cases hkeeps : KeepsLeading prods prod
  · simp [(exemptAlias_iff hnd).mpr hkeeps, hkeeps]
  · rw [if_neg fun h => hkeeps ((exemptAlias_iff hnd).mp h), forM_eq_ok, imp_iff_right hkeeps]
    refine forall₂_congr fun alt _ => ?_
    cases hr : leadingRef alt with
    | none => simp [show alt.head?.bind Element.refName = none from hr]
    | some n =>
      have htells : FoldTells prods n (resolveLeadingFold prods n) := resolveLeadingFold_tells n
      simp only [show alt.head?.bind Element.refName = some n from hr, Option.some.injEq,
        forall_eq']
      cases hhit : (resolveLeadingFold prods n).2 with
      | none =>
        refine iff_of_true rfl fun q hfold hq => ?_
        simpa [hhit] using (htells.hit q).mpr ⟨hfold, hq⟩
      | some hit =>
        obtain ⟨hfold, hq⟩ := (htells.hit hit).mp hhit
        exact iff_of_false (by simp) fun h => h hit hfold hq

theorem checkMembers_eq_ok {seen ms : List String} :
    checkMembers diag prod seen ms = .ok () ↔
      (∀ m ∈ ms, m ≠ "" ∧ m ∉ seen ∧ m ≠ srcField) ∧ ms.Nodup := by
  induction ms generalizing seen with
  | nil => simp [checkMembers]
  | cons m ms ih =>
    rw [checkMembers, List.forall_mem_cons, List.nodup_cons]
    by_cases hempty : m = ""
    · simp [hempty]
    · rw [if_neg (by simpa [String.isEmpty_iff] using hempty)]
      by_cases hseen : m ∈ seen
      · simp [hseen]
      · rw [if_neg (by simpa using hseen)]
        by_cases hsrc : m = srcField
        · simp [hsrc]
        · rw [if_neg (by simpa using hsrc), ih]
          simp only [List.mem_append, List.mem_singleton, not_or]
          constructor
          · rintro ⟨hall, hnodup⟩
            refine ⟨⟨⟨hempty, hseen, hsrc⟩, fun x hx => ?_⟩, fun hm => ?_, hnodup⟩
            · exact ⟨(hall x hx).1, (hall x hx).2.1.1, (hall x hx).2.2⟩
            · exact (hall m hm).2.1.2 rfl
          · rintro ⟨⟨-, hall⟩, hm, hnodup⟩
            refine ⟨fun x hx => ⟨(hall x hx).1, ⟨(hall x hx).2.1, ?_⟩, (hall x hx).2.2⟩, hnodup⟩
            rintro rfl
            exact hm hx

theorem checkBody_eq_ok : checkBody diag prod alt = .ok () ↔ ∀ text sp, alt ≠ [.prose text sp] := by
  unfold checkBody
  split
  next text sp => exact iff_of_false (by simp) fun h => h text sp rfl
  next hother => exact iff_of_true rfl hother

theorem checkNamed_eq_ok {parts : Nat} :
    checkNamed diag prod v parts = .ok () ↔
      v.members.length = if v.kind = "array" then 0 else parts := by
  unfold checkNamed
  by_cases harray : v.kind = "array"
  · by_cases hmembers : v.members = []
    · simp [harray, hmembers]
    · simp [harray, hmembers]
  · by_cases hparts : v.members.length = parts
    · simp [harray, hparts]
    · simp [harray, hparts]

theorem checkFirst_eq_ok (hnd : (namesOf prods).Nodup) :
    checkFirst diag prods (findLeadingRefCycleMembers prods) prod alt = .ok () ↔
      (¬KeepsLeading prods prod → ∀ n, leadingRef alt = some n →
        ∃ q, Folds prods n q ∧ EndsAsPart prods q) := by
  unfold checkFirst
  cases hr : leadingRef alt with
  | none => simp [show alt.head?.bind Element.refName = none from hr]
  | some n =>
    rw [show alt.head?.bind Element.refName = some n from hr]
    by_cases hkeeps : KeepsLeading prods prod
    · simp [(exemptAlias_iff hnd).mpr hkeeps, hkeeps]
    · have hexempt : exemptAlias prod (findLeadingRefCycleMembers prods) = false := by
        rw [← Bool.not_eq_true, exemptAlias_iff hnd]
        exact hkeeps
      simp only [hexempt, Bool.false_or, Option.some.injEq, forall_eq', hkeeps, not_false_eq_true,
        forall_const, ← (resolveLeadingFold_tells n).part]
      by_cases hpart : (resolveLeadingFold prods n).1 = true
      · simp [hpart]
      · simp [hpart]

theorem nests_iff {el : Element} :
    nests prods el = true ↔ ∃ n, el.refName = some n ∧ BuildsValue prods n := by
  cases hr : el.refName with
  | none => simp [nests, hr]
  | some n => cases hp : byName prods n <;> simp [nests, BuildsValue, hr, hp]

/-- A part that does not nest is accepted when nothing is lost. -/
theorem lostValue_eq_none {el : Element} :
    lostValue prods prod v el = none ↔ (∀ m, ¬ReachesValue prods el m) ∨
      v.kind = "array" ∧ collectsValues el = true ∧ namedValue prods el ≠ some prod.name ∧
        ¬HidesValue prods el := by
  have hnamed : namedValue prods el ≠ some prod.name ∧ ¬HidesValue prods el ↔
      reachesAnnotated prods el ≠ some prod.name ∧ ¬HidesValue prods el :=
    and_congr_left fun h => by rw [reachesAnnotated_eq_namedValue h]
  rw [hnamed, ← reachesAnnotated_eq_none, ← hiddenAnnotated_eq_none, lostValue]
  cases hhit : reachesAnnotated prods el with
  | none => simp
  | some hit =>
    by_cases harray : v.kind = "array"
    · by_cases hown : hit = prod.name
      · simp [hown]
      · cases hcollects : collectsValues el <;> simp [harray, hown]
    · simp [harray]

theorem forall_mem_zipIdx {α : Type} {xs : List α} {P : α → Prop} (k : Nat) :
    (∀ x ∈ xs.zipIdx k, P x.1) ↔ ∀ x ∈ xs, P x := by
  induction xs generalizing k with
  | nil => simp
  | cons x xs ih => rw [List.zipIdx_cons, List.forall_mem_cons, List.forall_mem_cons, ih]

theorem checkTexts_eq_ok {parts : List Element} :
    checkTexts diag prods prod v parts = .ok () ↔ ∀ el ∈ parts, KeepsValues prods prod v el := by
  rw [checkTexts, forM_eq_ok]
  refine Iff.trans (forall₂_congr fun x _ => ?_) (forall_mem_zipIdx (P := KeepsValues prods prod v) 0)
  rw [KeepsValues, ← nests_iff, ← lostValue_eq_none]
  by_cases hnests : nests prods x.1 = true
  · simp [hnests]
  · rw [if_neg hnests]
    cases lostValue prods prod v x.1 <;> simp [hnests]

/-- Two checks, one after the other. -/
theorem then_eq_ok {ε : Type} {x y : Except ε Unit} :
    (x >>= fun _ => y) = .ok () ↔ x = .ok () ∧ y = .ok () := by
  cases x with
  | error e => simp [bind, Except.bind]
  | ok u => simp [bind, Except.bind]

variable (diag) in
theorem checkAnnotation_eq_ok (hnd : (namesOf prods).Nodup) :
    checkAnnotation diag prods (findLeadingRefCycleMembers prods) prod v = .ok () ↔
      ∃ alt, Annotated prods prod v alt := by
  unfold checkAnnotation
  by_cases hkind : v.kind = "object" ∨ v.kind = "array"
  · have hcond : (v.kind != "object" && v.kind != "array") = false := by
      rcases hkind with h | h <;> simp [h]
    simp only [hcond, Bool.false_eq_true, if_false]
    split
    next alt halts =>
      simp only [then_eq_ok, checkMembers_eq_ok, checkBody_eq_ok, checkNamed_eq_ok,
        checkFirst_eq_ok hnd, checkTexts_eq_ok]
      constructor
      · rintro ⟨⟨hnames, hdistinct⟩, hbody, hnamed, hfirst, htexts⟩
        exact ⟨alt, halts, hkind, hdistinct, fun m hm => ⟨(hnames m hm).1, (hnames m hm).2.2⟩, hbody,
          hnamed, hfirst, htexts⟩
      · rintro ⟨alt', h⟩
        obtain rfl : alt = alt' := by simpa [halts] using h.one
        exact ⟨⟨fun m hm => ⟨(h.names m hm).1, List.not_mem_nil, (h.names m hm).2⟩, h.distinct⟩,
          h.body, h.named, h.first, h.texts⟩
    next hother =>
      refine iff_of_false (by simp [throw, throwThe, MonadExceptOf.throw]) ?_
      rintro ⟨alt, h⟩
      exact hother alt h.one
  · have hcond : (v.kind != "object" && v.kind != "array") = true := by
      rw [not_or] at hkind
      simp [hkind]
    simp only [hcond, if_true]
    refine iff_of_false (by simp [throw, throwThe, MonadExceptOf.throw, bind, Except.bind]) ?_
    rintro ⟨alt, h⟩
    exact hkind h.kind

/-! ## What is predicted -/

/-- The entry planned for a rule that builds a value. -/
def plannedEntry (prods : List Production) (p : Production) : Option (String × List Bool) :=
  if p.value.isSome then some (p.name, (partsOf (p.alts.headD [])).map (nests prods)) else none

/-- The entry of a rule that builds an array: which parts it collects from. -/
def collectEntry (p : Production) : Option (String × List Bool) :=
  if p.value.map ValueAnnotation.kind = some "array" then
    some (p.name, (partsOf (p.alts.headD [])).map collectsValues)
  else none

theorem fst_plannedEntry {p : Production} {e : String × List Bool}
    (h : plannedEntry prods p = some e) : e.1 = p.name := by
  unfold plannedEntry at h
  split at h
  · rw [← Option.some.inj h]
  · cases h

theorem fst_collectEntry {p : Production} {e : String × List Bool}
    (h : collectEntry p = some e) : e.1 = p.name := by
  unfold collectEntry at h
  split at h
  · rw [← Option.some.inj h]
  · cases h

/-- The plan read off the rules, in their order. -/
def predictedPlan (prods : List Production) : ValuePlan where
  plan := prods.filterMap (plannedEntry prods)
  collect := prods.filterMap collectEntry

/-- What one production adds to a plan. -/
def ValuePlan.step (prods : List Production) (out : ValuePlan) (p : Production) : ValuePlan :=
  (p.value.map (out.add prods p)).getD out

theorem planProduction_eq_ok (hnd : (namesOf prods).Nodup) {out out' : ValuePlan} {p : Production} :
    planProduction diag prods (findLeadingRefCycleMembers prods) out p = .ok out' ↔
      (∀ v, p.value = some v → ∃ alt, Annotated prods p v alt) ∧ out' = out.step prods p := by
  unfold planProduction ValuePlan.step
  cases hv : p.value with
  | none => simp [eq_comm]
  | some v =>
    simp only [Option.some.injEq, forall_eq', Option.map_some, Option.getD_some,
      ← checkAnnotation_eq_ok diag hnd]
    cases hcheck : checkAnnotation diag prods (findLeadingRefCycleMembers prods) p v with
    | error e => simp [bind, Except.bind]
    | ok u => simp [bind, Except.bind, pure, Except.pure, eq_comm]

/-- A plan that holds other rules only gets its entries at the end. -/
theorem foldl_step {ps : List Production} : ∀ {out : ValuePlan}, (namesOf ps).Nodup →
    (∀ p ∈ ps, p.name ∉ out.plan.map Prod.fst ∧ p.name ∉ out.collect.map Prod.fst) →
    ps.foldl (ValuePlan.step prods) out =
      ⟨out.plan ++ ps.filterMap (plannedEntry prods), out.collect ++ ps.filterMap collectEntry⟩ := by
  induction ps with
  | nil =>
    intro out _ _
    simp
  | cons p ps ih =>
    intro out hnd hnew
    obtain ⟨hp, hnd⟩ := List.nodup_cons.mp hnd
    obtain ⟨hnewp, hnew⟩ := List.forall_mem_cons.mp hnew
    have hne : ∀ q ∈ ps, q.name ≠ p.name := by
      intro q hq heq
      exact hp (mem_namesOf.mpr ⟨q, hq, heq⟩)
    have hstep : out.step prods p =
        ⟨out.plan ++ (plannedEntry prods p).toList, out.collect ++ (collectEntry p).toList⟩ := by
      unfold ValuePlan.step plannedEntry collectEntry
      cases hv : p.value with
      | none => simp
      | some v =>
        by_cases harray : v.kind = "array"
        · simp [ValuePlan.add, harray, Table.insert_of_notMem hnewp.1,
            Table.insert_of_notMem hnewp.2]
        · simp [ValuePlan.add, harray, Table.insert_of_notMem hnewp.1]
    rw [List.foldl_cons, hstep, ih hnd ?_]
    · cases hplanned : plannedEntry prods p <;> cases hcollect : collectEntry p <;>
        simp [hplanned, hcollect]
    · intro q hq
      obtain ⟨hplan, hcollect⟩ := hnew q hq
      simp only [List.map_append, List.mem_append, List.mem_map, Option.mem_toList, not_or,
        not_exists, not_and]
      refine ⟨⟨?_, fun e he heq => hne q hq ?_⟩, ?_, fun e he heq => hne q hq ?_⟩
      · exact fun e he heq => hplan (List.mem_map.mpr ⟨e, he, heq⟩)
      · rw [← heq, fst_plannedEntry he]
      · exact fun e he heq => hcollect (List.mem_map.mpr ⟨e, he, heq⟩)
      · rw [← heq, fst_collectEntry he]

/-- **When the annotations of a grammar are accepted, and what is planned for them.** -/
theorem planValueAnnotations_eq_ok {grammar : Grammar} {plan : ValuePlan}
    (hnd : grammar.names.Nodup) :
    planValueAnnotations diag grammar = .ok plan ↔
      (FoldsNoValue grammar.productions ∧
        ∀ p ∈ grammar.productions, ∀ v, p.value = some v →
          ∃ alt, Annotated grammar.productions p v alt) ∧
      plan = predictedPlan grammar.productions := by
  unfold planValueAnnotations
  by_cases hany : (grammar.productions.any fun p => p.value.isSome) = true
  · simp only [hany, Bool.not_true, Bool.false_eq_true, if_false]
    have hstep : ∀ (out : ValuePlan) (p : Production) (out' : ValuePlan),
        planProduction diag grammar.productions (findLeadingRefCycleMembers grammar.productions) out
            p = .ok out' ↔
          (∀ v, p.value = some v → ∃ alt, Annotated grammar.productions p v alt) ∧
            out' = out.step grammar.productions p := fun _ _ _ => planProduction_eq_ok hnd
    have hrun : grammar.productions.foldlM (planProduction diag grammar.productions
        (findLeadingRefCycleMembers grammar.productions)) {} = .ok plan ↔ _ :=
      foldlM_eq_ok hstep
    rw [foldl_step hnd (fun _ _ => ⟨List.not_mem_nil, List.not_mem_nil⟩)] at hrun
    simp only [List.nil_append] at hrun
    rw [and_assoc, ← checkLeadingFolds_eq_ok diag hnd, predictedPlan, ← hrun]
    cases hfolds : checkLeadingFolds diag grammar.productions
        (findLeadingRefCycleMembers grammar.productions) with
    | error e => simp [bind, Except.bind]
    | ok u => simp [bind, Except.bind]
  · have hnone : ∀ p ∈ grammar.productions, p.value = none := by
      intro p hp
      by_contra hv
      exact hany (List.any_eq_true.mpr ⟨p, hp, Option.isSome_iff_ne_none.mpr hv⟩)
    have hpredicted : predictedPlan grammar.productions = {} := by
      have hplanned : grammar.productions.filterMap (plannedEntry grammar.productions) = [] :=
        List.filterMap_eq_nil_iff.mpr fun p hp => by simp [plannedEntry, hnone p hp]
      have hcollect : grammar.productions.filterMap collectEntry = [] :=
        List.filterMap_eq_nil_iff.mpr fun p hp => by simp [collectEntry, hnone p hp]
      rw [predictedPlan, hplanned, hcollect]
    simp only [hany, Bool.not_false, if_true, hpredicted, Except.ok.injEq]
    have hfolds : FoldsNoValue grammar.productions := by
      rintro p hp - alt halt n hn q hfold ⟨target, htarget, hv⟩
      rw [hnone target (mem_of_byName htarget).1] at hv
      cases hv
    have hall : ∀ p ∈ grammar.productions, ∀ v, p.value = some v →
        ∃ alt, Annotated grammar.productions p v alt := by
      intro p hp v hv
      rw [hnone p hp] at hv
      cases hv
    exact ⟨fun h => ⟨⟨hfolds, hall⟩, h.symm⟩, fun h => h.2.symm⟩

end

end

/-- `list = "[" *pair "]"` builds an array and `pair = "(" item ")"` an object; `item = "x" / "y"
leaf` and `leaf = "z"` build nothing. -/
def annotatedGrammar : Grammar where
  productions :=
    [{ name := "list", alts := [[.lit "[", .star (.reference "pair") none none, .lit "]"]]
       value := some ⟨"array", []⟩ },
     { name := "pair", alts := [[.lit "(", .reference "item", .lit ")"]]
       value := some ⟨"object", ["v"]⟩ },
     { name := "item", alts := [[.lit "x"], [.lit "y", .reference "leaf"]] },
     { name := "leaf", alts := [[.lit "z"]] }]

theorem planValueAnnotations_eq_ok_annotated :
    (FoldsNoValue annotatedGrammar.productions ∧
      ∀ p ∈ annotatedGrammar.productions, ∀ v, p.value = some v →
        ∃ alt, Annotated annotatedGrammar.productions p v alt) ∧
    ValuePlan.mk [("list", [false]), ("pair", [false])] [("list", [true])] =
      predictedPlan annotatedGrammar.productions :=
  (@planValueAnnotations_eq_ok "bnf" annotatedGrammar _ (by decide)).mp (by decide)

end TabnasBnf
