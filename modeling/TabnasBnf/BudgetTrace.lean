import TabnasBnf.Budget
import TabnasBnf.DispatchDecides

/-!
# What an emission keeps of its budget

Over the operations of a whole emission, in order (`Program.run`): what is written and held
together never passes the limit, what assigns the held count never raises it, a decision ends
with the count it began with, and a refusal ends the emission.

* `BudgetSound` and `decided`: what is asked of one operation, and of the decisions. `Abides`
  is what a program keeps to of both.
* `abides_altPrefixesRaw`, `abides_dispatchPrefixes`: the enumerations hold at least what they
  return, and return what `Dispatch.lean` computes.
* `Emission.abides`, by one case for each constructor, and `Emission.within_budget` from it.
-/

namespace TabnasBnf

open Calls

/-! ## One operation -/

/-- Written and held together are within the limit, and the step began with no more written. -/
structure EmitBudget.Fits (b : EmitBudget) : Prop where
  within : b.written + b.held ≤ maxEmitUnits
  start : b.step.start ≤ b.written

instance (b : EmitBudget) : Decidable b.Fits :=
  decidable_of_iff (b.written + b.held ≤ maxEmitUnits ∧ b.step.start ≤ b.written)
    ⟨fun h => ⟨h.1, h.2⟩, fun h => ⟨h.1, h.2⟩⟩

/-- The operations that assign what is held outright. -/
def BudgetOp.assigns : BudgetOp → Bool
  | .settle .. | .keep .. | .restore .. => true
  | _ => false

/-- The operations that can refuse. -/
def BudgetOp.refuses : BudgetOp → Bool
  | .charge .. | .hold .. => true
  | _ => false

/-- What is asked of an operation: the budget fits before it and after it, and one that assigns
what is held does not raise it. -/
def BudgetSound (c : BudgetCall) : Prop :=
  c.before.Fits ∧
    ∀ b ∈ c.after.toOption, b.Fits ∧ (c.op.assigns = true → b.held ≤ c.before.held)

instance : DecidablePred BudgetSound := fun _ => instDecidableAnd

/-- The counts the decisions under way began with, after an operation; none where a decision ends
with another count than it began with. -/
def decided (began : List Nat) (c : BudgetCall) : Option (List Nat) :=
  match c.op with
  | .opens => some (c.before.held :: began)
  | .restore _ =>
    match began, c.after with
    | held :: rest, .ok b => if b.held = held then some rest else none
    | _, _ => none
  | _ => some began

/-- The monitor of an emission. -/
def budgetMonitor (began : List Nat) (c : BudgetCall) : Option (List Nat) :=
  if BudgetSound c then decided began c else none

/-- What a program keeps from a budget: the monitor follows its operations, it leaves the
decisions under way as they were, and `post` holds of what it returns. -/
def Abides {α : Type} (diag : String) (p : Budgeted α) (b : EmitBudget)
    (post : α → EmitBudget → Prop) : Prop :=
  ∀ began, p.Ensures (EmitBudget.exec diag) budgetMonitor b began fun a b' began' =>
    began' = began ∧ post a b'

/-- What a program leaves that has held `n` units more. -/
structure Holds (n : Nat) (b b' : EmitBudget) : Prop where
  fits : b'.Fits
  written : b'.written = b.written
  held : b.held + n ≤ b'.held

/-- What a part of an emission leaves: it holds what it held, with no less written. -/
structure Advances (b b' : EmitBudget) : Prop where
  fits : b'.Fits
  held : b'.held = b.held
  written : b.written ≤ b'.written

/-- What charging `n` units leaves. -/
structure Charged (n : Nat) (b b' : EmitBudget) : Prop where
  fits : b'.Fits
  held : b'.held = b.held
  written : b'.written = b.written + n

variable {α β : Type} {diag : String} {b b' b'' : EmitBudget}

theorem Charged.zero (h : b.Fits) : Charged 0 b b := ⟨h, rfl, rfl⟩

theorem Charged.trans {n m : Nat} (h : Charged n b b') (h' : Charged m b' b'') :
    Charged (n + m) b b'' :=
  ⟨h'.fits, h'.held.trans h.held, by rw [h'.written, h.written, Nat.add_assoc]⟩

theorem Charged.advances {n : Nat} (h : Charged n b b') : Advances b b' :=
  ⟨h.fits, h.held, h.written.ge.trans' (Nat.le_add_right _ _)⟩

theorem Advances.refl (h : b.Fits) : Advances b b := ⟨h, rfl, le_rfl⟩

theorem Advances.trans (h : Advances b b') (h' : Advances b' b'') : Advances b b'' :=
  ⟨h'.fits, h'.held.trans h.held, h.written.trans h'.written⟩

theorem Holds.zero (h : b.Fits) : Holds 0 b b := ⟨h, rfl, le_rfl⟩

theorem Holds.trans {n m : Nat} (h : Holds n b b') (h' : Holds m b' b'') :
    Holds (n + m) b b'' :=
  ⟨h'.fits, h'.written.trans h.written, by have := h.held; have := h'.held; omega⟩

theorem Holds.mono {n m : Nat} (h : Holds n b b') (hle : m ≤ n) : Holds m b b' :=
  ⟨h.fits, h.written, by have := h.held; omega⟩

/-! ## Rules -/

theorem Abides.bind {p : Budgeted α} {f : α → Budgeted β} {mid : α → EmitBudget → Prop}
    {post : β → EmitBudget → Prop} (h : Abides diag p b mid)
    (hf : ∀ a b', mid a b' → Abides diag (f a) b' post) : Abides diag (p >>= f) b post := by
  intro began
  refine (h began).bind ?_
  rintro a b' _ ⟨rfl, hmid⟩
  exact hf a b' hmid _

theorem Abides.mono {p : Budgeted α} {post post' : α → EmitBudget → Prop} (h : Abides diag p b post)
    (hpost : ∀ a b', post a b' → post' a b') : Abides diag p b post' := fun began =>
  (h began).mono fun a b' _ hab => ⟨hab.1, hpost a b' hab.2⟩

theorem abides_pure {a : α} {post : α → EmitBudget → Prop} (h : post a b) :
    Abides diag (pure a) b post := fun _ => Program.ensures_pure ⟨rfl, h⟩

theorem abides_fail {e : EmitError} {post : α → EmitBudget → Prop} :
    Abides diag (Program.fail e) b post := fun _ => Program.ensures_fail

theorem abides_foldlM {f : β → α → Budgeted β} (inv : List α → β → EmitBudget → Prop) {l : List α}
    {x : β} (h : inv [] x b)
    (hf : ∀ before, ∀ a ∈ l, ∀ x b, inv before x b → Abides diag (f x a) b (inv (before ++ [a]))) :
    Abides diag (l.foldlM f x) b (inv l) := by
  intro began
  refine Program.ensures_foldlM (fun before x b began' => began' = began ∧ inv before x b)
    ⟨rfl, h⟩ ?_
  rintro before a ha x b _ ⟨rfl, hinv⟩
  exact hf before a ha x b hinv _

theorem abides_mapM' {f : α → Budgeted β} (inv : List α → List β → EmitBudget → Prop)
    {l : List α} (h : inv [] [] b)
    (hf : ∀ before, ∀ a ∈ l, ∀ done b, inv before done b →
      Abides diag (f a) b fun x => inv (before ++ [a]) (done ++ [x])) :
    Abides diag (l.mapM' f) b (inv l) := by
  intro began
  refine Program.ensures_mapM' (fun before done b began' => began' = began ∧ inv before done b)
    ⟨rfl, h⟩ ?_
  rintro before a ha done b _ ⟨rfl, hinv⟩
  exact hf before a ha done b hinv _

/-- An operation that leaves the decisions under way as they are. -/
theorem abides_perform {op : BudgetOp} {post : EmitBudget → Prop} (hb : b.Fits)
    (hplain : ∀ began after, decided began ⟨op, b, after⟩ = some began)
    (h : ∀ b', b.exec diag op = .ok b' →
      b'.Fits ∧ (op.assigns = true → b'.held ≤ b.held) ∧ post b') :
    Abides diag (Program.perform op) b fun c b' => c = b' ∧ post b' := by
  intro began
  have hsound : BudgetSound ⟨op, b, b.exec diag op⟩ := by
    refine ⟨hb, fun b' hb' => ?_⟩
    cases hexec : b.exec diag op with
    | error e => simp [hexec, Except.toOption] at hb'
    | ok b'' =>
      obtain rfl : b'' = b' := by simpa [hexec, Except.toOption] using hb'
      exact ⟨(h b'' hexec).1, (h b'' hexec).2.1⟩
  have hwatch : budgetMonitor began ⟨op, b, b.exec diag op⟩ = some began :=
    (if_pos hsound).trans (hplain began _)
  exact Program.ensures_perform hwatch fun b' hexec => ⟨rfl, rfl, (h b' hexec).2.2⟩

/-- A call whose answer is not read. -/
theorem abides_call {op : BudgetOp} {post : EmitBudget → Prop} (hb : b.Fits)
    (hplain : ∀ began after, decided began ⟨op, b, after⟩ = some began)
    (h : ∀ b', b.exec diag op = .ok b' →
      b'.Fits ∧ (op.assigns = true → b'.held ≤ b.held) ∧ post b') :
    Abides diag (do let _ ← Program.perform op : Budgeted Unit) b fun _ => post :=
  (abides_perform hb hplain h).bind fun _ _ hpost => abides_pure hpost.2

theorem abides_held (hb : b.Fits) :
    Abides diag Budgeted.held b fun n b' => n = b.held ∧ b' = b := by
  have hread : Abides diag (Program.perform .held) b fun c b' => c = b' ∧ b' = b := by
    refine abides_perform hb (fun _ _ => rfl) fun b' h => ?_
    cases h
    exact ⟨hb, fun h => (by cases h), rfl⟩
  refine hread.bind ?_
  rintro c _ ⟨rfl, rfl⟩
  exact abides_pure ⟨rfl, rfl⟩

theorem abides_hold (hb : b.Fits) (n : Nat) :
    Abides diag (Budgeted.hold n) b fun _ => Holds n b := by
  refine abides_call hb (fun _ _ => rfl) fun b' h => ?_
  replace h : b.hold diag n = .ok b' := h
  unfold EmitBudget.hold at h
  split at h
  · cases h
  · next hroom =>
    cases h
    have hwithin := hb.within
    have hfits : (⟨b.written, b.held + n, b.step⟩ : EmitBudget).Fits := by
      refine ⟨?_, hb.start⟩
      unfold EmitBudget.room at hroom
      show b.written + (b.held + n) ≤ maxEmitUnits
      omega
    exact ⟨hfits, fun h => (by cases h), hfits, rfl, le_rfl⟩

theorem abides_charge (hb : b.Fits) (n : Nat) :
    Abides diag (Budgeted.charge n) b fun _ => Charged n b := by
  refine abides_call hb (fun _ _ => rfl) fun b' h => ?_
  replace h : b.charge diag n = .ok b' := h
  unfold EmitBudget.charge at h
  split at h
  · cases h
  · next hroom =>
    cases h
    have hwithin := hb.within
    have hstart := hb.start
    have hfits : (⟨b.written + n, b.held, b.step⟩ : EmitBudget).Fits := by
      unfold EmitBudget.room at hroom
      refine ⟨?_, ?_⟩
      · show b.written + n + b.held ≤ maxEmitUnits
        omega
      · show b.step.start ≤ b.written + n
        omega
    exact ⟨hfits, fun h => (by cases h), hfits, rfl, rfl⟩

theorem abides_beginStep (hb : b.Fits) (subject : Subject) (sp : Option SrcSpan)
    (step : EmitStep) :
    Abides diag (Budgeted.beginStep subject sp step) b fun _ => Charged 0 b := by
  refine abides_call hb (fun _ _ => rfl) fun b' h => ?_
  cases h
  have hfits : (b.beginStep subject sp step).Fits := ⟨hb.within, le_rfl⟩
  exact ⟨hfits, fun h => (by cases h), hfits, rfl, rfl⟩

/-- What a `settle` or a `keep` leaves: `n` units held on top of the base, of those that were. -/
theorem fits_assign {base n : Nat} (hb : b.Fits) (hle : base + n ≤ b.held) :
    ({ b with held := base + n } : EmitBudget).Fits := by
  refine ⟨?_, hb.start⟩
  have hwithin := hb.within
  show b.written + (base + n) ≤ maxEmitUnits
  omega

theorem abides_settle (hb : b.Fits) {base : Nat} {paths : List PrefixPath}
    (hle : base + pathUnits paths ≤ b.held) :
    Abides diag (Budgeted.settle base paths) b fun _ b' =>
      b' = { b with held := base + pathUnits paths } := by
  refine abides_call hb (fun _ _ => rfl) fun b' h => ?_
  cases h
  exact ⟨fits_assign hb hle, fun _ => hle, rfl⟩

theorem abides_keep (hb : b.Fits) {base n : Nat} (hle : base + n ≤ b.held) :
    Abides diag (Budgeted.keep base n) b fun _ b' => b' = { b with held := base + n } := by
  refine abides_call hb (fun _ _ => rfl) fun b' h => ?_
  cases h
  exact ⟨fits_assign hb hle, fun _ => hle, rfl⟩

/-! ## The enumerations -/

theorem pathUnits_append (ps qs : List PrefixPath) :
    pathUnits (ps ++ qs) = pathUnits ps + pathUnits qs := by
  simp [pathUnits]

theorem pathUnits_singleton (p : PrefixPath) : pathUnits [p] = 1 + p.tokens.length := by
  simp [pathUnits]

/-- What a walk has made of more paths. -/
structure Budgeted.Walk.Made (maxK : Nat) (paths : List PrefixPath) (w w' : Budgeted.Walk) :
    Prop where
  next : w'.next = w.next ++ paths
  grows : w'.grows = (w.grows || paths.any fun p => !p.closed maxK)

theorem Budgeted.Walk.Made.trans {maxK : Nat} {ps qs : List PrefixPath}
    {w w' w'' : Budgeted.Walk} (h : w.Made maxK ps w') (h' : w'.Made maxK qs w'') :
    w.Made maxK (ps ++ qs) w'' :=
  ⟨by rw [h'.next, h.next, List.append_assoc],
    by rw [h'.grows, h.grows, List.any_append, Bool.or_assoc]⟩

theorem Budgeted.Walk.Made.refl (maxK : Nat) (w : Budgeted.Walk) : w.Made maxK [] w :=
  ⟨(List.append_nil _).symm, by simp⟩

theorem abides_put (hb : b.Fits) (maxK : Nat) (w : Budgeted.Walk) (tokens : List String)
    (done : Bool) :
    Abides diag (Budgeted.put maxK w tokens done) b fun w' b' =>
      w.Made maxK [⟨tokens, done⟩] w' ∧ w'.byLength = w.byLength ∧
        Holds (pathUnits [⟨tokens, done⟩]) b b' := by
  refine (abides_hold hb _).bind fun _ b' h => abides_pure ⟨⟨rfl, ?_⟩, rfl, ?_⟩
  · have hroom : decide (tokens.length < maxK) = !decide (maxK ≤ tokens.length) := by
      rw [← decide_not, decide_eq_decide, Nat.not_le]
    simp [PrefixPath.closed, hroom]
  · rwa [pathUnits_singleton]

section

variable {grammar : Grammar} {tokens : Tokens} {classSets : List (String × String)}
  {enter : Nat → List String → (String → Bool) → Sequence → Budgeted (List PrefixPath)}
  {value : Nat → List String → (String → Bool) → Sequence → List PrefixPath}
  {maxK : Nat} {visited : List String} {headFilter : String → Bool}

/-- An enumeration holds what it returns, and returns what `value` computes. -/
def Enumerates (diag : String)
    (enter : Nat → List String → (String → Bool) → Sequence → Budgeted (List PrefixPath))
    (value : Nat → List String → (String → Bool) → Sequence → List PrefixPath) : Prop :=
  ∀ maxK visited headFilter alt b, b.Fits →
    Abides diag (enter maxK visited headFilter alt) b fun paths b' =>
      paths = value maxK visited headFilter alt ∧ Holds (pathUnits paths) b b'

/-- The alternatives a walk remembers for a length are those a path of it asks for. -/
def Remembers
    (value : Nat → List String → (String → Bool) → Sequence → List PrefixPath) (grammar : Grammar)
    (maxK : Nat) (visited : List String) (headFilter : String → Bool) (el : Element)
    (w : Budgeted.Walk) : Prop :=
  ∀ name found, el.refName = some name → grammar.find name = some found →
    ∀ held subs, (held, subs) ∈ w.byLength →
      subs = found.alts.map
        (value (maxK - held) (name :: visited) (if held == 0 then headFilter else fun _ => true))

theorem abides_subsAt (henter : Enumerates diag enter value) {el : Element} {w : Budgeted.Walk}
    (hw : Remembers value grammar maxK visited headFilter el w) (hb : b.Fits) {name : String}
    {found : Production} (hname : el.refName = some name)
    (hfound : grammar.find name = some found) (held : Nat) :
    Abides diag (Budgeted.subsAt enter maxK visited headFilter name found held w) b fun r b' =>
      w.Made maxK [] r.1 ∧ Remembers value grammar maxK visited headFilter el r.1 ∧
        r.2 = found.alts.map (value (maxK - held) (name :: visited)
          (if held == 0 then headFilter else fun _ => true)) ∧
        Holds 0 b b' := by
  unfold Budgeted.subsAt
  split
  · next subs hlookup =>
    have hmem : (held, subs) ∈ w.byLength := by
      obtain ⟨l₁, l₂, hsplit, -⟩ := List.lookup_eq_some_iff.mp hlookup
      rw [hsplit]
      exact List.mem_append_right _ List.mem_cons_self
    exact abides_pure ⟨.refl maxK w, hw, hw name found hname hfound held subs hmem, .zero hb⟩
  · refine (abides_mapM' (fun before done b' => done = before.map (value (maxK - held)
      (name :: visited) (if held == 0 then headFilter else fun _ => true)) ∧ Holds 0 b b')
      ⟨rfl, .zero hb⟩ ?_).bind ?_
    · rintro before sub - done b₁ ⟨rfl, hb₁⟩
      refine (henter _ _ _ sub b₁ hb₁.fits).mono ?_
      rintro paths b₂ ⟨rfl, hb₂⟩
      exact ⟨by simp, hb₁.trans (hb₂.mono (Nat.zero_le _))⟩
    · rintro subs b' ⟨rfl, hb'⟩
      refine abides_pure ⟨⟨(List.append_nil _).symm, by simp⟩, ?_, rfl, hb'⟩
      intro name' found' hname' hfound' held' subs' hmem
      rcases List.mem_append.mp hmem with hold | hnew
      · exact hw name' found' hname' hfound' held' subs' hold
      · obtain ⟨rfl, rfl⟩ := Prod.mk.injEq .. ▸ List.mem_singleton.mp hnew
        obtain rfl : name = name' := Option.some.inj (hname.symm.trans hname')
        obtain rfl : found = found' := Option.some.inj (hfound.symm.trans hfound')
        rfl

/-- A path of a reference's alternative, after the tokens of the path that reaches it. -/
def PrefixPath.after (tokens : List String) (sp : PrefixPath) : PrefixPath :=
  ⟨tokens ++ sp.tokens, sp.done⟩

theorem abides_puts {pre : List String} (hb : b.Fits) (w : Budgeted.Walk)
    (subs : List PrefixPath) :
    Abides diag
      (subs.foldlM (fun w sp => Budgeted.put maxK w (pre ++ sp.tokens) sp.done) w) b
      fun w' b' =>
        w.Made maxK (subs.map (.after pre)) w' ∧ w'.byLength = w.byLength ∧
          Holds (pathUnits (subs.map (.after pre))) b b' := by
  refine abides_foldlM (fun before w' b' =>
      w.Made maxK (before.map (.after pre)) w' ∧ w'.byLength = w.byLength ∧
        Holds (pathUnits (before.map (.after pre))) b b')
    ⟨.refl maxK w, rfl, .zero hb⟩ ?_
  rintro before sp - w₁ b₁ ⟨hmade, hlengths, hholds⟩
  refine (abides_put hholds.fits maxK w₁ _ _).mono ?_
  rintro w₂ b₂ ⟨hmade', hlengths', hholds'⟩
  rw [List.map_append, pathUnits_append]
  exact ⟨hmade.trans hmade', hlengths'.trans hlengths, hholds.trans hholds'⟩

/-- What the walk makes of a path. -/
def nextOf (extend : Element → PrefixPath → List PrefixPath) (maxK : Nat) (el : Element)
    (p : PrefixPath) : List PrefixPath :=
  if p.closed maxK then [p] else extend el p

/-- The units it holds for it: none for a path it copies. -/
def costOf (extend : Element → PrefixPath → List PrefixPath) (maxK : Nat) (el : Element)
    (p : PrefixPath) : Nat :=
  if p.closed maxK then 0 else pathUnits (extend el p)

/-- What a walk makes of one path holds the units of every path made. -/
theorem abides_extendPath (henter : Enumerates diag enter value) {el : Element}
    {w : Budgeted.Walk} (hw : Remembers value grammar maxK visited headFilter el w) (hb : b.Fits)
    (p : PrefixPath) :
    Abides diag
      (Budgeted.extendPath grammar tokens classSets enter maxK visited headFilter el w p) b
      fun w' b' =>
        w.Made maxK (nextOf (extendPath grammar tokens classSets value maxK visited headFilter)
          maxK el p) w' ∧
        Remembers value grammar maxK visited headFilter el w' ∧
        Holds (costOf (extendPath grammar tokens classSets value maxK visited headFilter) maxK
          el p) b b' := by
  unfold Budgeted.extendPath nextOf costOf
  have hput : ∀ tokens done, Abides diag (Budgeted.put maxK w tokens done) b fun w' b' =>
      w.Made maxK [⟨tokens, done⟩] w' ∧ Remembers value grammar maxK visited headFilter el w' ∧
        Holds (pathUnits [⟨tokens, done⟩]) b b' := by
    intro tokens done
    refine (abides_put hb maxK w tokens done).mono ?_
    rintro w' b' ⟨hmade, hlengths, hholds⟩
    refine ⟨hmade, ?_, hholds⟩
    unfold Remembers
    rwa [hlengths]
  by_cases hclosed : p.closed maxK = true
  · rw [if_pos hclosed, if_pos hclosed, if_pos hclosed]
    exact abides_pure ⟨⟨rfl, by simp [hclosed]⟩, hw, .zero hb⟩
  rw [if_neg hclosed, if_neg hclosed, if_neg hclosed]
  unfold extendPath
  cases addedToken tokens classSets el with
  | some tok =>
    dsimp only
    by_cases hadmit : (!p.tokens.isEmpty || headFilter tok) = true
    · rw [if_pos hadmit, if_pos hadmit]
      exact hput _ _
    · rw [if_neg hadmit, if_neg hadmit]
      exact abides_pure ⟨.refl maxK w, hw, .zero hb⟩
  | none =>
    dsimp only
    cases hname : el.refName with
    | none => exact hput _ _
    | some name =>
      dsimp only
      by_cases hvisited : visited.contains name = true
      · rw [if_pos hvisited, if_pos hvisited]
        exact hput _ _
      rw [if_neg hvisited, if_neg hvisited]
      cases hfound : (grammar.find name).filter fun t => !t.alts.isEmpty with
      | none => exact hput _ _
      | some found =>
        have hfind : grammar.find name = some found := (Option.filter_eq_some_iff.mp hfound).1
        refine (abides_subsAt henter hw hb hname hfind p.tokens.length).bind ?_
        rintro ⟨w₁, subs⟩ b₁ ⟨hmade, hremembers, hsubs, hholds⟩
        dsimp only at hsubs ⊢
        have hflat : (found.alts.flatMap fun sub => (value (maxK - p.tokens.length)
            (name :: visited) (if p.tokens.length == 0 then headFilter else fun _ => true)
            sub).map fun sp => (⟨p.tokens ++ sp.tokens, sp.done⟩ : PrefixPath)) =
            subs.flatten.map (PrefixPath.after p.tokens) := by
          rw [hsubs, ← List.flatMap_def, List.map_flatMap]
          rfl
        rw [hflat]
        refine (abides_puts hholds.fits w₁ subs.flatten).mono ?_
        rintro w₂ b₂ ⟨hmade', hlengths, hholds'⟩
        refine ⟨hmade.trans hmade', ?_, (hholds.trans hholds').mono (Nat.zero_add _).ge⟩
        unfold Remembers
        rwa [hlengths]

/-- A walk over the paths holds what it adds to them. -/
theorem pathUnits_nextOf (maxK : Nat)
    (extend : Element → PrefixPath → List PrefixPath) (el : Element)
    (paths : List PrefixPath) :
    pathUnits (paths.flatMap (nextOf extend maxK el)) ≤
      pathUnits paths + (paths.map (costOf extend maxK el)).sum := by
  induction paths with
  | nil => exact le_rfl
  | cons p rest ih =>
    have hcons : pathUnits (p :: rest) = pathUnits [p] + pathUnits rest :=
      pathUnits_append [p] rest
    have hp : pathUnits (nextOf extend maxK el p) ≤ pathUnits [p] + costOf extend maxK el p := by
      unfold nextOf costOf
      split
      · exact Nat.le_add_right _ _
      · exact Nat.le_add_left _ _
    rw [List.flatMap_cons, pathUnits_append, hcons, List.map_cons, List.sum_cons]
    omega

theorem abides_walk (henter : Enumerates diag enter value) (hb : b.Fits) (el : Element)
    (paths : List PrefixPath) :
    Abides diag
      (paths.foldlM
        (Budgeted.extendPath grammar tokens classSets enter maxK visited headFilter el)
        ⟨[], false, []⟩) b
      fun w b' =>
        let extend := extendPath grammar tokens classSets value maxK visited headFilter
        w.next = paths.flatMap (nextOf extend maxK el) ∧
          w.grows = w.next.any (fun p => !p.closed maxK) ∧
          Holds (paths.map (costOf extend maxK el)).sum b b' := by
  refine Abides.mono (abides_foldlM (fun before w b' =>
    Budgeted.Walk.Made maxK (before.flatMap (nextOf (extendPath grammar tokens classSets value
        maxK visited headFilter) maxK el)) ⟨[], false, []⟩ w ∧
      Remembers value grammar maxK visited headFilter el w ∧
      Holds (before.map (costOf (extendPath grammar tokens classSets value maxK visited
        headFilter) maxK el)).sum b b') ⟨.refl maxK _, ?_, .zero hb⟩ ?_) ?_
  · intro name found _ _ held subs hmem
    cases hmem
  · rintro before p - w b₁ ⟨hmade, hremembers, hholds⟩
    refine (abides_extendPath henter hremembers hholds.fits p).mono ?_
    rintro w' b₂ ⟨hmade', hremembers', hholds'⟩
    rw [List.flatMap_append, List.map_append, List.sum_append, List.flatMap_singleton,
      List.map_singleton, List.sum_singleton]
    exact ⟨hmade.trans hmade', hremembers', hholds.trans hholds'⟩
  · rintro w b' ⟨hmade, -, hholds⟩
    have hnext := hmade.next
    have hgrows := hmade.grows
    rw [List.nil_append] at hnext
    rw [Bool.false_or, ← hnext] at hgrows
    exact ⟨hnext, hgrows, hholds⟩

theorem extendPaths_cons (extend : Element → PrefixPath → List PrefixPath) (el : Element)
    (rest : Sequence) (paths : List PrefixPath) :
    extendPaths extend maxK (el :: rest) paths =
      let next := paths.flatMap (nextOf extend maxK el)
      if next.all (PrefixPath.closed maxK) then next else extendPaths extend maxK rest next := rfl

theorem abides_extendPaths (henter : Enumerates diag enter value) (base : Nat) :
    ∀ (alt : Sequence) (paths : List PrefixPath) (b : EmitBudget), b.Fits →
      base + pathUnits paths ≤ b.held →
      Abides diag
        (Budgeted.extendPaths
          (Budgeted.extendPath grammar tokens classSets enter maxK visited headFilter) alt paths) b
        fun out b' =>
          out = extendPaths (extendPath grammar tokens classSets value maxK visited headFilter)
            maxK alt paths ∧
          Holds 0 b b' ∧ base + pathUnits out ≤ b'.held
  | [], paths, b, hb, hle => abides_pure ⟨rfl, .zero hb, hle⟩
  | el :: rest, paths, b, hb, hle => by
    rw [extendPaths_cons]
    refine (abides_walk henter hb el paths).bind ?_
    rintro w b' ⟨hnext, hgrows, hholds⟩
    have hunits := pathUnits_nextOf maxK
      (extendPath grammar tokens classSets value maxK visited headFilter) el paths
    rw [← hnext] at hunits
    have hheld := hholds.held
    have hle' : base + pathUnits w.next ≤ b'.held := by omega
    have hall : (w.next.all (PrefixPath.closed maxK) = true) ↔ ¬ w.grows = true := by
      rw [hgrows, List.all_eq_not_any_not]
      simp
    rw [← hnext]
    dsimp only
    by_cases hgrow : w.grows = true
    · rw [if_pos hgrow, if_neg (fun h => hall.mp h hgrow)]
      refine (abides_extendPaths henter base rest w.next b' hholds.fits hle').mono ?_
      rintro out b'' ⟨hout, hholds', hle''⟩
      exact ⟨hout, (hholds.mono (Nat.zero_le _)).trans hholds', hle''⟩
    · rw [if_neg hgrow, if_pos (hall.mpr hgrow)]
      exact abides_pure ⟨rfl, hholds.mono (Nat.zero_le _), hle'⟩

/-- **The recursive enumeration** holds at least the paths it returns, at every level. -/
theorem abides_altPrefixesRaw : ∀ depth, Enumerates diag
    (Budgeted.altPrefixesRaw grammar tokens classSets depth)
    (altPrefixesRaw grammar tokens classSets depth)
  | 0 => fun _ _ _ _ _ hb => abides_pure ⟨rfl, .zero hb⟩
  | depth + 1 => by
    intro maxK visited headFilter alt b hb
    unfold Budgeted.altPrefixesRaw altPrefixesRaw
    refine (abides_hold hb 1).bind fun _ b₁ h₁ => ?_
    refine (abides_extendPaths (abides_altPrefixesRaw depth) b.held alt [⟨[], false⟩] b₁ h₁.fits
      h₁.held).mono ?_
    rintro paths b₂ ⟨hpaths, h₂, hle⟩
    exact ⟨hpaths, h₂.fits, h₂.written.trans h₁.written, hle⟩

theorem extendPath_congr
    {enter enter' : Nat → List String → (String → Bool) → Sequence → Budgeted (List PrefixPath)}
    {visited : List String}
    (h : ∀ maxK name headFilter alt, name ∈ grammar.names → ¬ visited.contains name = true →
      enter maxK (name :: visited) headFilter alt = enter' maxK (name :: visited) headFilter alt)
    (maxK : Nat) (headFilter : String → Bool) :
    Budgeted.extendPath grammar tokens classSets enter maxK visited headFilter =
      Budgeted.extendPath grammar tokens classSets enter' maxK visited headFilter := by
  funext el w p
  unfold Budgeted.extendPath
  split
  · rfl
  split
  · rfl
  split
  · rfl
  next name _ =>
  split
  · rfl
  next hvisited =>
  split
  · rfl
  next found hfound =>
  have hfind := (Option.filter_eq_some_iff.mp hfound).1
  have hmem : name ∈ grammar.names := (mem_names_of_find hfind).1
  unfold Budgeted.subsAt
  simp only [h _ name _ _ hmem hvisited]

/-- **The depth is enough**: what is enumerated no longer depends on it once it is more than the
productions not entered. -/
theorem altPrefixesRaw_depth (depth : Nat) : ∀ (maxK : Nat) (visited : List String)
    (headFilter : String → Bool) (alt : Sequence), (unvisited grammar visited).length < depth →
      Budgeted.altPrefixesRaw grammar tokens classSets (depth + 1) maxK visited headFilter alt =
        Budgeted.altPrefixesRaw grammar tokens classSets depth maxK visited headFilter alt := by
  induction depth with
  | zero => exact fun _ _ _ _ h => absurd h (Nat.not_lt_zero _)
  | succ depth ih =>
    intro maxK visited headFilter alt hlt
    rw [Budgeted.altPrefixesRaw, Budgeted.altPrefixesRaw, extendPath_congr]
    intro maxK' name headFilter' alt' hname hvisited
    have hless := length_unvisited_cons hname (by simpa using hvisited)
    exact ih maxK' (name :: visited) headFilter' alt' (by omega)

theorem abides_pathsOf (hb : b.Fits) (maxK : Nat) (headFilter : String → Bool) (alt : Sequence) :
    Abides diag (Budgeted.pathsOf grammar tokens classSets maxK headFilter alt) b fun paths b' =>
      paths = enumerate grammar tokens classSets maxK headFilter alt ∧
        Holds (pathUnits paths) b b' :=
  abides_altPrefixesRaw _ maxK [] headFilter alt b hb

theorem prefixUnits_cons (p : List String) (rest : List (List String)) :
    prefixUnits (p :: rest) = 1 + p.length + prefixUnits rest := by
  simp [prefixUnits]

theorem prefixUnits_tokens (paths : List PrefixPath) :
    prefixUnits (paths.map PrefixPath.tokens) = pathUnits paths := by
  simp [prefixUnits, pathUnits, Function.comp_def]

theorem prefixUnits_distinctPrefixes (seen : List String) (prefixes : List (List String)) :
    prefixUnits (distinctPrefixes seen prefixes) ≤ prefixUnits prefixes := by
  induction prefixes generalizing seen with
  | nil => exact le_rfl
  | cons p rest ih =>
    unfold distinctPrefixes
    rw [prefixUnits_cons]
    dsimp only
    split
    · exact (ih seen).trans (Nat.le_add_left _ _)
    · rw [prefixUnits_cons]
      exact Nat.add_le_add_left (ih _) _

/-- What is kept or settled of what was held since the base was read. -/
theorem holds_assign {n m : Nat} (h : Holds n b b') (hle : m ≤ n) :
    Holds m b { b' with held := b.held + m } := by
  have hheld := h.held
  exact ⟨fits_assign h.fits (by omega), h.written, le_rfl⟩

theorem abides_altPrefixes (hb : b.Fits) (maxK : Nat) (alt : Sequence) :
    Abides diag (Budgeted.altPrefixes grammar tokens classSets maxK alt) b fun out b' =>
      out = distinctPrefixes [] ((enumerate grammar tokens classSets maxK (fun _ => true)
        alt).map PrefixPath.tokens) ∧ Holds (prefixUnits out) b b' := by
  refine (abides_held hb).bind ?_
  rintro _ _ ⟨rfl, rfl⟩
  refine (abides_pathsOf hb maxK _ alt).bind ?_
  rintro raw b₁ ⟨rfl, h₁⟩
  have hunits := prefixUnits_distinctPrefixes [] ((enumerate grammar tokens classSets maxK
    (fun _ => true) alt).map PrefixPath.tokens)
  rw [prefixUnits_tokens] at hunits
  have hheld := h₁.held
  refine (abides_keep h₁.fits (by omega)).bind ?_
  rintro _ _ rfl
  exact abides_pure ⟨rfl, holds_assign h₁ hunits⟩

theorem abides_peekPaths (hb : b.Fits) (contested : Bool) (alt : Sequence) :
    Abides diag (Budgeted.peekPaths grammar tokens classSets contested alt) b fun out b' =>
      out = (if contested then distinctPrefixes [] ((enumerate grammar tokens classSets lookaheadK
        (fun _ => true) alt).map PrefixPath.tokens) else []) ∧ Holds 0 b b' := by
  unfold Budgeted.peekPaths
  split
  · exact (abides_altPrefixes hb _ alt).mono fun _ _ h => ⟨h.1, h.2.mono (Nat.zero_le _)⟩
  · exact abides_pure ⟨rfl, .zero hb⟩

theorem abides_enumerate (hb : b.Fits) (maxK : Nat) (headFilter : String → Bool)
    (alt : Sequence) :
    Abides diag (Budgeted.enumerate grammar tokens classSets maxK headFilter alt) b fun paths b' =>
      paths = enumerate grammar tokens classSets maxK headFilter alt ∧ Holds 0 b b' := by
  refine (abides_held hb).bind ?_
  rintro _ _ ⟨rfl, rfl⟩
  refine (abides_pathsOf hb maxK headFilter alt).bind ?_
  rintro paths b₁ ⟨hpaths, h₁⟩
  refine (abides_settle h₁.fits h₁.held).bind ?_
  rintro _ _ rfl
  exact abides_pure ⟨hpaths, (holds_assign h₁ le_rfl).mono (Nat.zero_le _)⟩

theorem abides_onePaths (hb : b.Fits) (alt : Sequence) :
    Abides diag (Budgeted.onePaths grammar tokens classSets alt) b fun paths b' =>
      paths = onePaths grammar tokens classSets alt ∧ Holds 0 b b' := by
  unfold Budgeted.onePaths onePaths
  split
  · exact abides_pure ⟨rfl, .zero hb⟩
  · exact abides_enumerate hb 1 _ alt

theorem abides_deepPaths (hb : b.Fits) (maxK : Nat) (contested : List String) (alt : Sequence) :
    Abides diag (Budgeted.deepPaths grammar tokens classSets maxK contested alt) b fun paths b' =>
      paths = deepPaths grammar tokens classSets maxK contested alt ∧ Holds 0 b b' := by
  unfold Budgeted.deepPaths deepPaths
  split
  · exact abides_pure ⟨rfl, .zero hb⟩
  · refine (abides_enumerate hb maxK _ alt).bind ?_
    rintro paths b' ⟨rfl, h⟩
    exact abides_pure ⟨rfl, h⟩

theorem abides_keepPrefixes (prefixes : List (List String)) (hb : b.Fits) (seen : List String) :
    Abides diag (Budgeted.keepPrefixes seen prefixes) b fun out b' =>
      out = distinctPrefixes seen prefixes ∧ Holds (prefixUnits out) b b' := by
  induction prefixes generalizing b seen with
  | nil => exact abides_pure ⟨rfl, .zero hb⟩
  | cons p rest ih =>
    unfold Budgeted.keepPrefixes distinctPrefixes
    dsimp only
    split
    · exact ih hb seen
    · refine (abides_hold hb _).bind fun _ b₁ h₁ => ?_
      refine (ih h₁.fits _).bind ?_
      rintro out b₂ ⟨rfl, h₂⟩
      refine abides_pure ⟨rfl, ?_⟩
      rw [prefixUnits_cons]
      exact h₁.trans h₂

/-- A program for each element that computes a value and holds no less than before. -/
theorem abides_values {α β : Type} {f : α → Budgeted β} (value : α → β) (cost : β → Nat)
    (hf : ∀ a b, b.Fits → Abides diag (f a) b fun x b' => x = value a ∧ Holds (cost x) b b')
    (hb : b.Fits) (l : List α) :
    Abides diag (l.mapM' f) b fun out b' =>
      out = l.map value ∧ Holds (out.map cost).sum b b' := by
  refine abides_mapM' (fun before out b' => out = before.map value ∧ Holds (out.map cost).sum b b')
    ⟨rfl, .zero hb⟩ ?_
  rintro before a - done b₁ ⟨rfl, h₁⟩
  refine (hf a b₁ h₁.fits).mono ?_
  rintro x b₂ ⟨rfl, h₂⟩
  refine ⟨by simp, ?_⟩
  rw [List.map_append, List.sum_append, List.map_singleton, List.sum_singleton]
  exact h₁.trans h₂

variable {contest : String → String → Bool}

/-- **A choice's prefixes** are held when they are returned, and are those `dispatchPrefixes`
computes. -/
theorem abides_dispatchPrefixes (hb : b.Fits) (maxK : Nat) (exits : List (List String))
    (alts : List Sequence) :
    Abides diag
      (Budgeted.dispatchPrefixes grammar tokens classSets diag contest maxK exits alts) b
      fun out b' =>
        dispatchPrefixes grammar tokens classSets contest maxK exits alts = some out ∧
          Holds (out.map fun d => prefixUnits d.prefixes).sum b b' := by
  refine (abides_held hb).bind ?_
  rintro _ b₀ ⟨rfl, rfl⟩
  refine (abides_values _ (fun _ => 0) (fun alt b hb => abides_onePaths hb alt) hb alts).bind ?_
  rintro one b₁ ⟨rfl, h₁⟩
  have hheads : (alts.map (onePaths grammar tokens classSets)).map pathHeads =
      alts.map (headsOf grammar tokens classSets) := List.map_map
  rw [hheads]
  dsimp only
  split
  · exact abides_fail
  next contested hcontested =>
  refine (abides_values (fun x => deepPaths grammar tokens classSets maxK x.1 x.2) (fun _ => 0)
    (fun x b hb => abides_deepPaths hb maxK x.1 x.2) h₁.fits (contested.zip alts)).bind ?_
  rintro deep b₂ ⟨rfl, h₂⟩
  refine (abides_values (fun x =>
      (⟨distinctPrefixes [] ((pathHeads x.1).flatMap (prefixesUnder contest
          (contested.getD x.2 []) (((contested.zip alts).map fun x =>
            deepPaths grammar tokens classSets maxK x.1 x.2).getD x.2 [])
          ((((contested.zip alts).map fun x =>
            deepPaths grammar tokens classSets maxK x.1 x.2).eraseIdx x.2).flatten ++ exits))),
        x.1.any fun p => p.tokens.isEmpty && !p.done⟩ : DispatchPrefixes))
    (fun d => prefixUnits d.prefixes) (fun x b hb => ?_) h₂.fits _).bind ?_
  · refine (abides_keepPrefixes _ hb []).bind ?_
    rintro prefixes b' ⟨rfl, h⟩
    exact abides_pure ⟨rfl, h⟩
  rintro out b₃ ⟨hout, h₃⟩
  have hheld := (h₁.trans (h₂.trans h₃)).held
  refine (abides_keep (b := b₃) (n := (out.map fun d => prefixUnits d.prefixes).sum) h₃.fits
    ?_).bind ?_
  · omega
  rintro _ _ rfl
  refine abides_pure ⟨?_, holds_assign (h₁.trans (h₂.trans h₃)) (by omega)⟩
  rw [hout, List.zipIdx_map, List.map_map]
  unfold dispatchPrefixes
  dsimp only
  rw [hcontested]
  rfl

end

/-! ## The decisions -/

/-- A decision whose body frees no more than it holds ends with the count it began with. -/
theorem abides_decision {body : Budgeted α} (mid : α → Nat → Prop) (hb : b.Fits)
    (h : Abides diag body b fun a b' => b'.Fits ∧ b.held ≤ b'.held ∧ mid a b'.written) :
    Abides diag (Budgeted.decision body) b fun a b' =>
      b'.Fits ∧ b'.held = b.held ∧ mid a b'.written := by
  intro began
  have hopens : budgetMonitor began ⟨.opens, b, .ok b⟩ = some (b.held :: began) :=
    if_pos ⟨hb, fun b' hb' => by cases hb'; exact ⟨hb, fun h => (by cases h)⟩⟩
  refine ⟨b.held :: began, hopens, fun b' hexec => ?_⟩
  cases hexec
  refine (h (b.held :: began)).bind ?_
  rintro a b₁ _ ⟨rfl, hfits, hheld, hmid⟩
  have hleft : ({ b₁ with held := b.held } : EmitBudget).Fits :=
    fits_assign (n := 0) hfits hheld
  have hrestore : budgetMonitor (b.held :: began)
      ⟨.restore b.held, b₁, .ok { b₁ with held := b.held }⟩ = some began :=
    (if_pos ⟨hfits, fun b' hb' => by cases hb'; exact ⟨hleft, fun _ => hheld⟩⟩).trans (if_pos rfl)
  refine ⟨began, hrestore, fun b' hexec => ?_⟩
  cases hexec
  exact ⟨rfl, hleft, rfl, hmid⟩

/-- A decision whose body writes no less. -/
theorem abides_decision_advances {body : Budgeted α} (hb : b.Fits)
    (h : Abides diag body b fun _ b' => b'.Fits ∧ b.held ≤ b'.held ∧ b.written ≤ b'.written) :
    Abides diag (Budgeted.decision body) b fun _ => Advances b :=
  (abides_decision (fun _ written => b.written ≤ written) hb h).mono fun _ _ h =>
    ⟨h.1, h.2.1, h.2.2⟩

/-! ## An emission -/

section

variable {grammar : Grammar} {tokens : Tokens} {classSets : List (String × String)}
  {contest : String → String → Bool}

/-- **Every part of an emission** leaves the budget fitting, holding what it held and with no less
written. -/
theorem Emission.abides {p : Budgeted α} (h : Emission diag grammar tokens classSets contest p) :
    ∀ b : EmitBudget, b.Fits → Abides diag p b fun _ => Advances b := by
  induction h with
  | pure a => exact fun b hb => abides_pure (.refl hb)
  | fail e => exact fun b _ => abides_fail
  | bind _ _ ihp ihf =>
    exact fun b hb => (ihp b hb).bind fun a b₁ h₁ =>
      (ihf a b₁ h₁.fits).mono fun _ _ h₂ => h₁.trans h₂
  | begin subject sp _ =>
    exact fun b hb => (abides_beginStep hb subject sp _).mono fun _ _ h => h.advances
  | charge n => exact fun b hb => (abides_charge hb n).mono fun _ _ h => h.advances
  | guards alt =>
    intro b hb
    refine abides_decision_advances hb ((abides_pathsOf hb 2 _ alt).mono ?_)
    rintro paths b₁ ⟨-, h₁⟩
    exact ⟨h₁.fits, (Nat.le_add_right _ _).trans h₁.held, h₁.written.ge⟩
  | peeks contested alt _ ihwrite =>
    intro b hb
    refine abides_decision_advances hb ((abides_peekPaths hb contested alt).bind ?_)
    rintro paths b₁ ⟨-, h₁⟩
    refine (ihwrite paths b₁ h₁.fits).mono fun x b₂ h₂ => ?_
    exact ⟨h₂.fits, h₁.held.trans h₂.held.ge, h₁.written.ge.trans h₂.written⟩
  | dispatch exits alts _ ihwrite =>
    intro b hb
    refine abides_decision_advances hb ((abides_dispatchPrefixes hb _ exits alts).bind ?_)
    rintro out b₁ ⟨-, h₁⟩
    refine (ihwrite out b₁ h₁.fits).mono fun x b₂ h₂ => ?_
    exact ⟨h₂.fits, ((Nat.le_add_right _ _).trans h₁.held).trans h₂.held.ge,
      h₁.written.ge.trans h₂.written⟩

theorem EmitBudget.fits_new : EmitBudget.new.Fits := ⟨Nat.zero_le _, le_rfl⟩

/-- Only a charge or a hold refuses. -/
theorem EmitBudget.exec_error {op : BudgetOp} {e : EmitError} (h : b.exec diag op = .error e) :
    op.refuses = true := by
  cases op with
  | charge n => rfl
  | hold n => rfl
  | _ => cases h

/-- **An emission within its budget.** The operations of an emission follow each other from the
new budget on. At each of them what is written and held together is within the limit, before it
and after it, and so is what a refusal subtracts from it; what settles, keeps or restores never
raises what is held; every decision ends with the count it began with; and a charge or a hold that
is refused is the last operation and the result. What an emission returns, it returns with
nothing held. -/
theorem Emission.within_budget {p : Budgeted α}
    (h : Emission diag grammar tokens classSets contest p) :
    (∀ c ∈ (p.run (EmitBudget.exec diag) .new).1.head?, c.before = .new) ∧
      (p.run (EmitBudget.exec diag) .new).1.IsChain (fun c d => c.after = .ok d.before) ∧
      (∀ c ∈ (p.run (EmitBudget.exec diag) .new).1,
        c.before.written + c.before.held ≤ maxEmitUnits ∧
        c.before.step.start ≤ maxEmitUnits ∧
        (∀ b, c.after = .ok b → b.written + b.held ≤ maxEmitUnits ∧
          (c.op.assigns = true → b.held ≤ c.before.held)) ∧
        ∀ e, c.after = .error e → c.op.refuses = true ∧
          (p.run (EmitBudget.exec diag) .new).1.getLast? = some c ∧
          (p.run (EmitBudget.exec diag) .new).2 = .error e) ∧
      (∃ began, (p.run (EmitBudget.exec diag) .new).1.foldlM decided [] = some began) ∧
      ∀ a b, (p.run (EmitBudget.exec diag) .new).2 = .ok (a, b) →
        b.written ≤ maxEmitUnits ∧ b.held = 0 := by
  have habides := h.abides .new EmitBudget.fits_new []
  obtain ⟨began, hbegan⟩ := habides.accepted
  obtain ⟨hsound, hdecided⟩ := foldlM_guarded hbegan
  refine ⟨fun c hc => Program.run_head hc, Program.run_chained p .new, fun c hc => ?_,
    ⟨began, hdecided⟩, fun a b hresult => ?_⟩
  · obtain ⟨hbefore, hafter⟩ := hsound c hc
    have hwithin := hbefore.within
    have hstart := hbefore.start
    refine ⟨hwithin, by omega, fun b hb => ?_, fun e he => ?_⟩
    · obtain ⟨hfits, hassigns⟩ := hafter b (by rw [hb]; rfl)
      exact ⟨hfits.within, hassigns⟩
    · exact ⟨EmitBudget.exec_error ((Program.run_exec hc).symm.trans he), Program.run_refused hc he⟩
  · obtain ⟨began', -, hfits, hheld, -⟩ := habides.result hresult
    have hwithin := hfits.within
    exact ⟨by omega, hheld⟩

end

/-- The emission of a choice: its step and its dispatch, and while its prefixes are held the paths of
a keyword and a charge for each. -/
def choiceEmission : Budgeted Unit := do
  Budgeted.beginStep (.rule "item") none stepAlternates
  Budgeted.decision do
    let out ← Budgeted.dispatchPrefixes sharedHead {} [] "bnf" (· == ·) lookaheadK [["d"]]
      sharedHeadAlts
    let paths ← Budgeted.decision
      (Budgeted.pathsOf sharedHead {} [] 2 (fun _ => true) (sharedHeadAlts.headD []))
    Budgeted.charge (out.length + paths.length)

theorem emission_choiceEmission :
    Emission "bnf" sharedHead {} [] (· == ·) choiceEmission :=
  .bind (.begin _ _ (by decide)) fun _ => .dispatch _ _ fun _ =>
    .bind (.guards _) fun _ => .charge _

/-- An emission that is refused while a decision holds its paths. -/
def refusedEmission : Budgeted Unit := do
  choiceEmission
  Budgeted.decision do
    let prefixes ← Budgeted.peekPaths sharedHead {} [] true (sharedHeadAlts.headD [])
    Budgeted.charge (maxEmitUnits - prefixes.length)

theorem emission_refusedEmission :
    Emission "bnf" sharedHead {} [] (· == ·) refusedEmission :=
  .bind emission_choiceEmission fun _ => .peeks _ _ fun _ => .charge _

theorem within_budget_choiceEmission :
    ((∀ c ∈ (choiceEmission.run (EmitBudget.exec "bnf") .new).1,
        c.before.written + c.before.held ≤ maxEmitUnits ∧
          ∀ b, c.after = .ok b → c.op.assigns = true → b.held ≤ c.before.held) ∧
      (∃ began, (choiceEmission.run (EmitBudget.exec "bnf") .new).1.foldlM decided [] =
        some began) ∧
      (choiceEmission.run (EmitBudget.exec "bnf") .new).1.map (fun c => c.before.held) =
        [0, 0, 0, 0, 0, 1, 3, 2, 2, 3, 4, 6, 7, 9, 11, 13, 6, 6, 7, 9, 12, 9, 9, 10, 11, 13, 14,
          16, 18, 20, 23, 26, 15, 18, 21, 24, 9, 9, 10, 12, 15, 9, 9]) ∧
    ((refusedEmission.run (EmitBudget.exec "bnf") .new).1.getLast?.map fun c =>
        (c.op, c.before.written, c.before.held)) = some (.charge (maxEmitUnits - 1), 3, 3) ∧
      (refusedEmission.run (EmitBudget.exec "bnf") .new).2.isOk = false ∧
      ∀ c ∈ (refusedEmission.run (EmitBudget.exec "bnf") .new).1, ∀ e, c.after = .error e →
        (refusedEmission.run (EmitBudget.exec "bnf") .new).1.getLast? = some c ∧
          (refusedEmission.run (EmitBudget.exec "bnf") .new).2 = .error e := by
  obtain ⟨-, -, hsound, hdecided, -⟩ := emission_choiceEmission.within_budget
  obtain ⟨-, -, hrefused, -, -⟩ := emission_refusedEmission.within_budget
  refine ⟨⟨fun c hc => ⟨(hsound c hc).1, fun b hb => ((hsound c hc).2.2.1 b hb).2⟩, hdecided,
    by decide +kernel⟩, by decide +kernel, by decide +kernel, fun c hc e he => ?_⟩
  exact ((hrefused c hc).2.2.2 e he).2

end TabnasBnf
