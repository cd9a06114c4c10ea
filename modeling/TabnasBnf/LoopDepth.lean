import TabnasBnf.Lib.Frames
import TabnasBnf.LoopEntered

/-!
# The depth of a loop

A frame pushed as a repeat loop lives on as the loop, its iterations and the steps back
(`LivesOn`), none of which pushes anything but an item. What is above it at any time is therefore a
stack of one item's run, as that item needs it alone.

* `LoopKinds.hosts`: one step of a loop's frame.
* `loopItem_own`: the items are the ones the loop repeats.
* **`Compile.loop_depth_le`**: the depth above a loop does not grow with the number of its items,
  and the loop leaves no frame behind.
-/

namespace TabnasBnf

/-- The rules a frame pushed as a rule may live on as: what their alternates continue as. -/
inductive LivesOn (rules : RuleTable) (k : String) : String → Prop
  | self : LivesOn rules k k
  | replaced {k' rule closing o q} (h : LivesOn rules k k') (hrule : rules.lookup k' = some rule)
      (ho : o ∈ rule.alternates closing) (hr : o.r = some q) : LivesOn rules k q

/-- A frame pushed as an item of a loop: by an iteration the loop lives on as. -/
structure LoopItem (rules : RuleTable) (loop : String) (h : EngineFrame) : Prop where
  opened : h.trail = [] ∧ h.closing = false
  iterated : ∃ k, LivesOn rules loop k ∧ rules.lookup k = some (iterationRule k h.rule)

section

variable {rules : RuleTable} {count : Int → Int → Int} {loops : List Production}
  {warm : String → Prop} {loop : String}

theorem topOnly_engineStep : Frames.TopOnly (EngineStep rules count) where
  nil := fun _ h => by cases h
  cons := by
    intro f rest S
    constructor
    · intro h
      cases h with
      | push hrule ho hp => exact ⟨[_, _], rfl, .push hrule ho hp⟩
      | replace hrule ho hp hr => exact ⟨[_], rfl, .replace hrule ho hp hr⟩
      | close hrule hopen ho hp hr => exact ⟨[_], rfl, .close hrule hopen ho hp hr⟩
      | leave hrule hclosing hclose => exact ⟨[], rfl, .leave hrule hclosing hclose⟩
    · rintro ⟨l, rfl, h⟩
      cases h with
      | push hrule ho hp => exact .push hrule ho hp
      | replace hrule ho hp hr => exact .replace hrule ho hp hr
      | close hrule hopen ho hp hr => exact .close hrule hopen ho hp hr
      | leave hrule hclosing hclose => exact .leave hrule hclosing hclose

/-- **An alternate of a rule a loop lives on as** pushes an iteration's item, or nothing, and
continues as such a rule. -/
theorem LoopKinds.alternate (h : LoopKinds rules loops warm) {k : String} {rule : RuleSpec}
    (hrule : rules.lookup k = some rule) (hwarm : warm k) {closing : Bool} {o : AltSpec}
    (ho : o ∈ rule.alternates closing) :
    (∀ q, o.p = some q → rule = iterationRule k q) ∧ ∀ q, o.r = some q → warm q := by
  rcases h.kinds k rule hrule hwarm with ⟨p, hp, rfl⟩ | ⟨item, rfl, hstep⟩ | ⟨name, rfl, hname⟩
  · obtain ⟨hclose, rest, hopens, hrest⟩ := h.loop p hp rule hrule
    cases closing with
    | true => simp [RuleSpec.alternates, hclose] at ho
    | false =>
      have ho : o ∈ rule.opens := ho
      rw [hopens] at ho
      rcases List.mem_cons.mp ho with rfl | ho
      · refine ⟨fun q hq => (by cases hq), fun q hq => ?_⟩
        cases hq
        exact h.loops_warm p hp
      · obtain ⟨hpush, -, hr⟩ := hrest o ho
        exact ⟨fun q hq => (by rw [hpush] at hq; cases hq), hr⟩
  · cases closing with
    | true =>
      obtain rfl := List.mem_singleton.mp ho
      refine ⟨fun q hq => (by cases hq), fun q hq => ?_⟩
      cases hq
      exact hstep
    | false =>
      obtain rfl := List.mem_singleton.mp ho
      refine ⟨fun q hq => ?_, fun q hq => (by cases hq)⟩
      cases hq
      rfl
  · cases closing with
    | true => simp [RuleSpec.alternates, againRule] at ho
    | false =>
      obtain rfl := List.mem_singleton.mp ho
      refine ⟨fun q hq => (by cases hq), fun q hq => ?_⟩
      cases hq
      exact hname

theorem LivesOn.keeps {k : String} (h : LivesOn rules loop k) (hkinds : LoopKinds rules loops warm)
    (hloop : warm loop) : warm k := by
  induction h with
  | self => exact hloop
  | replaced _ hrule ho hr ih => exact (hkinds.alternate hrule ih ho).2 _ hr

/-- **A loop's frame hosts items**: it leaves, lives on, or pushes one item. -/
theorem LoopKinds.hosts (h : LoopKinds rules loops warm) (hloop : warm loop) :
    Frames.Hosts (EngineStep rules count) (fun f => LivesOn rules loop f.rule)
      (LoopItem rules loop) := by
  intro f l hf hstep
  have hwarm := hf.keeps h hloop
  cases hstep with
  | push hrule ho hp =>
    obtain rfl := (h.alternate hrule hwarm ho.mem).1 _ hp
    exact .inr (.inr ⟨_, _, rfl, ⟨⟨rfl, rfl⟩, f.rule, hf, hrule⟩, hf⟩)
  | replace hrule ho hp hr => exact .inr (.inl ⟨_, rfl, hf.replaced hrule ho.mem hr⟩)
  | close hrule hopen ho hp hr => exact .inr (.inl ⟨_, rfl, hf⟩)
  | leave hrule hclosing hclose => exact .inl rfl

end

section

variable {diag : String} {E : Emitter} {prod : Production} {rules : RuleTable} {start : String}
  {C : List String}

/-- An iteration of a loop pushes what the loop repeats. -/
theorem Emitted.iteration_item (h : Emitted diag E prod rules) (hloop : prod.repeatLoop = true)
    (hhelper : DesugarHelper prod) {k q : String} (hk : (k, iterationRule k q) ∈ rules) :
    ∃ item self, item.refName = some q ∧ [item, self] ∈ prod.alts := by
  have hclose : ∀ {rule : RuleSpec}, rule.close = none → iterationRule k q ≠ rule := by
    rintro rule hrule rfl
    cases hrule
  cases h with
  | probeHelper h =>
    rw [hhelper.probeHelper] at h
    cases h
  | probeDispatch h hrule =>
    rw [hhelper.probeDispatch] at h
    cases h
  | tailRepeat h =>
    rw [hhelper.tailRepeat] at h
    cases h
  | chain halts =>
    have hlen := (hhelper.star hloop).1
    rw [halts] at hlen
    cases hlen
  | single hitem hloopItem hsingle =>
    rw [hloopItem, hloop] at hk
    exact absurd (Prod.mk.inj (List.mem_singleton.mp hk)).2 (hclose rfl)
  | @dispatch loopItem dispatch impls entries hitem hloopItem hdispatch himpls hentries =>
    rw [hloopItem, hloop] at hk
    rcases List.mem_append.mp hk with hk | hk
    · obtain ⟨rs, hrs, hk⟩ := List.mem_flatten.mp hk
      obtain ⟨⟨alt, i⟩, hat, hemitted⟩ := exists_left_of_forall₂ himpls hrs
      have halt : alt ∈ prod.alts := List.fst_mem_of_mem_zipIdx hat
      cases hemitted with
      | empty => cases hk
      | chain => rw [hloop] at hloopItem; cases hloopItem
      | @loop alt item itemName hne hname =>
        rcases List.mem_cons.mp hk with hk | hk
        · have hitemName : q = itemName := by
            simpa [iterationRule] using congrArg (fun r => (r.2.opens.head?.bind AltSpec.p)) hk
          obtain ⟨self, -, rfl⟩ := ((hitem item rfl).alts alt halt).resolve_left hne
          exact ⟨item, self, hitemName ▸ hname, halt⟩
        · exact absurd (Prod.mk.inj (List.mem_singleton.mp hk)).2 (hclose rfl)
    · exact absurd (Prod.mk.inj (List.mem_singleton.mp hk)).2 (hclose rfl)

/-- Over a table that holds what a loop writes, the loop lives on as its own rules alone. -/
theorem LivesOn.mem_keys (hnames : LoopNames C E.grammar) (h : emitRules diag E start = .ok rules)
    {p : Production} (hp : p ∈ E.grammar.productions) (hloop : p.repeatLoop = true)
    (hheld : ∀ e ∈ rulesOf diag E p, rules.lookup e.1 = some e.2) {k : String}
    (hk : LivesOn rules p.name k) : k ∈ (rulesOf diag E p).map Prod.fst := by
  obtain ⟨hself, hall⟩ := loopRules_of_emitRules hnames h hp hloop
  induction hk with
  | self => exact hself
  | @replaced k' rule closing o q _ hrule ho hr ih =>
    obtain ⟨e, he, rfl⟩ := List.mem_map.mp ih
    obtain rfl := Option.some.inj ((hheld e he).symm.trans hrule)
    rcases hall e he with ⟨-, hclose, rest, hopens, hrest⟩ | ⟨item, hitem, hstep, -⟩ | ⟨hagain, -⟩
    · cases closing with
      | true => simp [RuleSpec.alternates, hclose] at ho
      | false =>
        have ho : o ∈ e.2.opens := ho
        rw [hopens] at ho
        rcases List.mem_cons.mp ho with rfl | ho
        · cases hr
          exact hself
        · exact (hrest o ho).2.2 q hr
    · rw [hitem] at ho
      cases closing with
      | true =>
        obtain rfl := List.mem_singleton.mp ho
        cases hr
        exact hstep
      | false =>
        obtain rfl := List.mem_singleton.mp ho
        cases hr
    · rw [hagain] at ho
      cases closing with
      | true => simp [RuleSpec.alternates, againRule] at ho
      | false =>
        obtain rfl := List.mem_singleton.mp ho
        cases hr
        exact hself

/-- **The items of a loop** are what it repeats, in a table that holds what the loop writes. -/
theorem loopItem_own (hnames : LoopNames C E.grammar) (h : emitRules diag E start = .ok rules)
    {p : Production} (hp : p ∈ E.grammar.productions) (hloop : p.repeatLoop = true)
    (hheld : ∀ e ∈ rulesOf diag E p, rules.lookup e.1 = some e.2) {f : EngineFrame}
    (hf : LoopItem rules p.name f) :
    ∃ item self, item.refName = some f.rule ∧ [item, self] ∈ p.alts := by
  obtain ⟨k, hk, hrule⟩ := hf.iterated
  obtain ⟨e, he, rfl⟩ := List.mem_map.mp (hk.mem_keys hnames h hp hloop hheld)
  have heq : e = (e.1, iterationRule e.1 f.rule) :=
    Prod.ext rfl (Option.some.inj ((hheld e he).symm.trans hrule))
  exact (emitRule_cases (emitRule_eq_of_emitRules h hp)).iteration_item hloop
    (hnames.helper p hp hloop) (heq ▸ he)

end

/-! ## A compile -/

/-- **The depth above a loop** is at most the largest one an item of it has when it runs alone,
from the push of the loop to its end and whatever the number of items. Nothing but an item is
pushed by the rules the loop lives on as, and its last step leaves the stack it was pushed on. -/
theorem Compile.loop_depth_le {S : Setting} {grammar : Grammar} (c : Compile S grammar)
    {tokens : Tokens} {contest : ContestCtx} {arrayHelpers : List String}
    {valuePlan : List (String × List Bool)} {rules : RuleTable} {count : Int → Int → Int}
    (h : emitRules S.diag (c.emitter tokens contest arrayHelpers valuePlan) c.start = .ok rules)
    {p : Production}
    (hp : p ∈ (c.emitter tokens contest arrayHelpers valuePlan).grammar.productions)
    (hloop : p.repeatLoop = true) {n : Counters} {base : List EngineFrame}
    {trace : List (List EngineFrame)} (hrun : trace.IsChain (EngineStep rules count))
    (hpushed : trace.head? = some (⟨p.name, n, false, []⟩ :: base))
    (hlasts : ∀ stack ∈ trace, base.length < stack.length) {depth : Nat}
    (hitems : ∀ run,
      Frames.Excursion (EngineStep rules count) (LoopItem rules p.name) base trace run →
        ∀ above ∈ run, above.length ≤ depth) :
    (∀ stack ∈ trace, stack.length ≤ base.length + 1 + depth) ∧
      (∀ stack ∈ trace, ∀ stack', EngineStep rules count stack stack' →
        stack'.length ≤ base.length → stack' = base) ∧
      ∀ k rule closing o q, LivesOn rules p.name k → rules.lookup k = some rule →
        o ∈ rule.alternates closing → o.p = some q → rule = iterationRule k q := by
  have hnames := c.loopNames tokens contest arrayHelpers valuePlan
  have hkinds := loopKinds_of_emitRules hnames h
  have hwarm : Warm S.diag (c.emitter tokens contest arrayHelpers valuePlan) p.name :=
    ⟨p, hp, hloop, (loopRules_of_emitRules hnames h hp hloop).1⟩
  have hhosts : Frames.Hosts (EngineStep rules count) _ _ := hkinds.hosts hwarm
  refine ⟨fun stack hstack => ?_, fun stack hstack stack' hstep hend => ?_,
    fun k rule closing o q hk hrule ho hq => ?_⟩
  · exact Frames.length_le topOnly_engineStep hhosts .self hrun hpushed hlasts hitems hstack
  · exact Frames.eq_of_leaves topOnly_engineStep hhosts .self hrun hpushed hlasts hstack hstep hend
  · exact (hkinds.alternate hrule (hk.keeps hkinds hwarm) ho).1 q hq

/-- The loop of `starred` alone, through an item. -/
def starredTrace : List (List EngineFrame) := itemRun []

theorem loop_depth_le_starred :
    (∀ stack ∈ starredTrace, stack.length ≤ List.length ([] : List EngineFrame) + 1 + 1) ∧
      (∀ stack ∈ starredTrace, ∀ stack', EngineStep starredRules (fun _ x => x) stack stack' →
        stack'.length ≤ List.length ([] : List EngineFrame) → stack' = []) ∧
      ∀ k rule closing o q, LivesOn starredRules starredLoop.name k →
        starredRules.lookup k = some rule → o ∈ rule.alternates closing → o.p = some q →
          rule = iterationRule k q := by
  have hemit : emitRules "bnf" starredEmitter "list" = .ok starredRules :=
    eq_ok_of_isOk (by decide +kernel) _
  have hloop : starredLoop ∈ starredEmitter.grammar.productions :=
    List.mem_of_getElem? (i := 2) (eq_some_of_isSome (by decide +kernel) _)
  refine starredCompile.loop_depth_le hemit hloop (by decide +kernel) (itemRun_chain []) rfl
    (by simp [itemRun]) fun run hrun above habove => ?_
  -- a stack of an excursion is one of the trace without the loop's frame
  have hshort : ∀ stack ∈ starredTrace, stack.length ≤ 2 := by
    simp [starredTrace, itemRun]
  obtain ⟨f, hpart⟩ := hrun.part
  have hle := hshort _ (hpart.subset (List.mem_map_of_mem habove))
  rw [List.length_append, List.length_singleton] at hle
  omega

end TabnasBnf
