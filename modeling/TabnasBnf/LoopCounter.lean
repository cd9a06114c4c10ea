import TabnasBnf.Engine

/-!
# The loop counter

All repeat loops share one inherited counter. `LoopTable` is what a rule table has to be for it to
work: the rules that may run while it is 1 (`warm`) are loops, their iterations and the steps back,
every one of which leads to such rules alone, and no other rule touches it.

* `LoopTable.keeps`: the invariant of a frame, `Counted`, holds in every run.
* **`LoopTable.entry_once`**: a loop that was pushed takes its entry first, and while the
  invocation lasts never again.
-/

namespace TabnasBnf

/-- The rule of a loop's iteration: one item, and the step back. -/
def iterationRule (name item : String) : RuleSpec where
  opens := [{ p := some item, n := some [(loopCounter, 0)] }]
  close := some [{ r := some (stepName name 1), n := some [(loopCounter, 1)] }]

/-- The step back to a loop. -/
def againRule (loop : String) : RuleSpec where
  opens := [{ r := some loop }]
  close := none

/-- No alternate of the rule names the loop counter. -/
def RuleSpec.Cold (rule : RuleSpec) : Prop :=
  ∀ closing, ∀ o ∈ rule.alternates closing, ∀ e ∈ o.n.getD [], e.1 ≠ loopCounter

/-- A table in which a rule a loop may live on as continues as such rules alone. -/
structure LoopKinds (rules : RuleTable) (loops : List Production) (warm : String → Prop) :
    Prop where
  kinds : ∀ k rule, rules.lookup k = some rule → warm k →
    (∃ p ∈ loops, k = p.name) ∨ (∃ item, rule = iterationRule k item ∧ warm (stepName k 1)) ∨
      ∃ name, rule = againRule name ∧ warm name
  loops_warm : ∀ p ∈ loops, warm p.name
  loop : ∀ p ∈ loops, ∀ rule, rules.lookup p.name = some rule → rule.close = none ∧
    ∃ rest, rule.opens = loopEntry p :: rest ∧
      ∀ o ∈ rest, o.p = none ∧ o.n = none ∧ ∀ q ∈ o.r, warm q

/-- A table in which the counter is set by loops and their iterations alone, and a rule that may
run while it is 1 continues as such rules alone. -/
structure LoopTable (rules : RuleTable) (loops : List Production) (warm : String → Prop) : Prop
    extends LoopKinds rules loops warm where
  cold : ∀ k rule, rules.lookup k = some rule → ¬ warm k → rule.Cold

section

variable {rules : RuleTable} {loops : List Production} {warm : String → Prop}
  {count : Int → Int → Int} {start : String}

variable (rules loops warm) in
/-- The invariant of a frame. -/
structure Counted (f : EngineFrame) : Prop where
  range : f.n loopCounter = 0 ∨ f.n loopCounter = 1 ∧ warm f.rule
  pushed : f.trail = [] → f.closing = false → f.n loopCounter = 0
  /-- A frame that has been a loop is one of its rules, and the counter is 1 whenever it is
  replaced. -/
  entered : (∃ p ∈ loops, p.name ∈ f.trail) →
    warm f.rule ∧ (f.closing = false → f.n loopCounter = 1)
  /-- An iteration whose item is back has the counter at 0. -/
  item : f.closing = true → ∀ name, rules.lookup f.rule = some (iterationRule f.rule name) →
    f.n loopCounter = 0

/-- An alternate of a loop that can be taken: its entry while the counter is 0, another one while
it is 1. -/
theorem LoopTable.taken (h : LoopTable rules loops warm) {p : Production} (hp : p ∈ loops)
    {rule : RuleSpec} (hrule : rules.lookup p.name = some rule) {n : Counters} {o : AltSpec}
    (ho : CanTake rule.opens n o) :
    o = loopEntry p ∧ n loopCounter = 0 ∨
      n loopCounter ≠ 0 ∧ o.p = none ∧ o.n = none ∧ ∀ q ∈ o.r, warm q := by
  obtain ⟨-, rest, hopens, hrest⟩ := h.loop p hp rule hrule
  rw [hopens] at ho
  by_cases h0 : n loopCounter = 0
  · have hentry : Certain n (loopEntry p) := by
      refine ⟨rfl, by simp [loopEntry], fun counter hc => ?_⟩
      obtain rfl : loopCounter = counter := by simpa [loopEntry] using hc
      exact h0
    exact .inl ⟨ho.eq_of_certain hentry, h0⟩
  · refine .inr ⟨h0, ?_⟩
    rcases List.mem_cons.mp ho.mem with rfl | hmem
    · obtain ⟨-, -, -, hallows, -⟩ := ho
      exact absurd (hallows loopCounter rfl) h0
    · exact hrest o hmem

variable (loops warm) in
/-- What a taken alternate leaves the counter at, by where it goes. -/
structure TakenWith (f : EngineFrame) (o : AltSpec) (left : Int) : Prop where
  push : ∀ q, o.p = some q → left = 0
  replace : ∀ q, o.p = none → o.r = some q →
    left = 0 ∧ (∀ p ∈ loops, p.name ∉ f.rule :: f.trail) ∨ left = 1 ∧ warm q
  close : o.p = none → o.r = none → left = f.n loopCounter

/-- **One step**: what an alternate does to the counter. -/
theorem LoopTable.takenWith (h : LoopTable rules loops warm) (hreset : ∀ v, count v 0 = 0)
    (hset : count 0 1 = 1) {f : EngineFrame} (hf : Counted rules loops warm f) {rule : RuleSpec}
    (hrule : rules.lookup f.rule = some rule) {o : AltSpec}
    (ho : CanTake (rule.alternates f.closing) f.n o) :
    TakenWith loops warm f o (f.n.after count o loopCounter) := by
  by_cases hwarm : warm f.rule
  · rcases h.kinds f.rule rule hrule hwarm with
      ⟨p, hp, hname⟩ | ⟨item, rfl, hstep⟩ | ⟨name, rfl, hname⟩
    · -- a loop has no close alternates
      rw [hname] at hrule
      cases hclosing : f.closing with
      | true =>
        rw [hclosing] at ho
        simp [RuleSpec.alternates, (h.loop p hp rule hrule).1, CanTake] at ho
      | false =>
        rw [hclosing] at ho
        rcases h.taken hp hrule ho with ⟨rfl, h0⟩ | ⟨hne, hpush, hn, hr⟩
        · have hleft : f.n.after count (loopEntry p) loopCounter = 1 := by
            rw [after_single rfl, h0, hset]
          refine ⟨fun q hq => (by cases hq), fun q _ hq => .inr ⟨hleft, ?_⟩,
            fun _ hq => (by cases hq)⟩
          cases hq
          exact h.loops_warm p hp
        · rw [after_of_none hn]
          have hone : f.n loopCounter = 1 := (hf.range.resolve_left hne).1
          exact ⟨fun q hq => (by rw [hpush] at hq; cases hq),
            fun q _ hq => .inr ⟨hone, hr q hq⟩, fun _ _ => rfl⟩
    · cases hclosing : f.closing with
      | true =>
        rw [hclosing] at ho
        have h0 := hf.item hclosing item hrule
        obtain rfl := List.mem_singleton.mp ho.mem
        refine ⟨fun q hq => (by cases hq), fun q _ hq => .inr ⟨?_, ?_⟩, fun _ hq => (by cases hq)⟩
        · rw [after_single rfl, h0, hset]
        · cases hq
          exact hstep
      | false =>
        rw [hclosing] at ho
        obtain rfl := List.mem_singleton.mp ho.mem
        refine ⟨fun q _ => ?_, fun q hq => (by cases hq), fun hq => (by cases hq)⟩
        rw [after_single rfl, hreset]
    · cases hclosing : f.closing with
      | true =>
        rw [hclosing] at ho
        simp [RuleSpec.alternates, againRule, CanTake] at ho
      | false =>
        rw [hclosing] at ho
        obtain rfl := List.mem_singleton.mp ho.mem
        refine ⟨fun q hq => (by cases hq), fun q _ hq => ?_, fun _ hq => (by cases hq)⟩
        rw [after_of_none rfl]
        cases hq
        rcases hf.range with h0 | ⟨h1, -⟩
        · refine .inl ⟨h0, fun q hq hmem => ?_⟩
          rcases List.mem_cons.mp hmem with hself | hmem
          · rw [← hself] at hrule
            obtain ⟨-, rest, hopens, -⟩ := h.loop q hq _ hrule
            simp [againRule, loopEntry] at hopens
          · have := (hf.entered ⟨q, hq, hmem⟩).2 hclosing
            omega
        · exact .inr ⟨h1, hname⟩
  · have hzero := hf.range.resolve_right fun hr => hwarm hr.2
    rw [after_of_notMem (h.cold f.rule rule hrule hwarm f.closing o ho.mem)]
    refine ⟨fun _ _ => hzero, fun q _ _ => .inl ⟨hzero, fun p hp hmem => ?_⟩, fun _ _ => rfl⟩
    rcases List.mem_cons.mp hmem with hself | hmem
    · exact hwarm (hself ▸ h.loops_warm p hp)
    · exact hwarm (hf.entered ⟨p, hp, hmem⟩).1

/-- **The invariant holds in every run.** -/
theorem LoopTable.keeps (h : LoopTable rules loops warm) (hreset : ∀ v, count v 0 = 0)
    (hset : count 0 1 = 1) {stack : List EngineFrame} (hrun : EngineReach rules count start stack) :
    ∀ f ∈ stack, Counted rules loops warm f := by
  refine hrun.frames ⟨.inl rfl, fun _ _ => rfl, by simp, by simp⟩ ?_ ?_ ?_
  · intro f rule o q hf hrule ho hp
    have hzero := (h.takenWith hreset hset hf hrule ho).push q hp
    exact ⟨⟨.inl hzero, fun _ _ => hzero, by simp, by simp⟩,
      ⟨.inl hzero, by simp, fun he => ⟨(hf.entered he).1, by simp⟩, fun _ _ _ => hzero⟩⟩
  · intro f rule o q hf hrule ho hp hr
    rcases (h.takenWith hreset hset hf hrule ho).replace q hp hr with ⟨hzero, hno⟩ | ⟨hone, hwarm⟩
    · exact ⟨.inl hzero, by simp, fun ⟨p, hpl, hmem⟩ => absurd hmem (hno p hpl), by simp⟩
    · exact ⟨.inr ⟨hone, hwarm⟩, by simp, fun _ => ⟨hwarm, fun _ => hone⟩, by simp⟩
  · intro f rule o hf hrule hopen ho hp hr
    have hleft := (h.takenWith hreset hset hf hrule (o := o) (by rw [hopen]; exact ho)).close hp hr
    refine ⟨?_, by simp, fun he => ⟨(hf.entered he).1, by simp⟩, fun _ name hiter => ?_⟩
    · exact hf.range.imp hleft.trans fun hr => ⟨hleft.trans hr.1, hr.2⟩
    · -- an iteration's one open alternate pushes its item
      rw [hrule] at hiter
      obtain rfl := Option.some.inj hiter
      obtain rfl := List.mem_singleton.mp ho.mem
      cases hp

/-- **The entry of a loop** is the one alternate a frame pushed as the loop can take; a frame that
has been the loop before can take any other one only. -/
theorem LoopTable.entry_once (h : LoopTable rules loops warm) (hreset : ∀ v, count v 0 = 0)
    (hset : count 0 1 = 1) {stack : List EngineFrame} (hrun : EngineReach rules count start stack)
    {f : EngineFrame} (hf : f ∈ stack) (hopen : f.closing = false) {p : Production} (hp : p ∈ loops)
    (hname : f.rule = p.name) {rule : RuleSpec} (hrule : rules.lookup f.rule = some rule) :
    (f.trail = [] → f.n loopCounter = 0 ∧ ∀ o, CanTake rule.opens f.n o → o = loopEntry p) ∧
      (p.name ∈ f.trail → f.n loopCounter = 1 ∧ ∀ o, CanTake rule.opens f.n o → o ≠ loopEntry p) := by
  have hinv := h.keeps hreset hset hrun f hf
  rw [hname] at hrule
  refine ⟨fun htrail => ?_, fun hmem => ?_⟩
  · have h0 := hinv.pushed htrail hopen
    refine ⟨h0, fun o ho => ?_⟩
    rcases h.taken hp hrule ho with ⟨ho, -⟩ | ⟨hne, -⟩
    · exact ho
    · exact absurd h0 hne
  · have h1 := (hinv.entered ⟨p, hp, hmem⟩).2 hopen
    refine ⟨h1, fun o ho => ?_⟩
    rintro rfl
    obtain ⟨-, -, -, hallows, -⟩ := ho
    have := hallows loopCounter rfl
    omega

end

end TabnasBnf
