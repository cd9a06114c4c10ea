import TabnasBnf.FirstFollow
import TabnasBnf.Lib.Table

/-!
# Suffix debts

Model of `resolve_suffix_debts` and `ref_callers_of` (`rs/src/analysis.rs`): the contested loops of
left-recursion elimination are confirmed against FIRST, and every push that can reach one is
annotated with what it does to the loop's counter.

* `overlap` is `tokens_overlap`.
* The pending annotations are read from elements whose debts nothing reads, so they are written
  where they are found.
-/

namespace TabnasBnf

open Saturate

section

variable (grammar : Grammar)

/-- The names a production pushes: those of its alternatives and of a dispatcher's branches. -/
def pushedBy (p : Production) : List String :=
  addAll [] (refsInAlts p.alts ++
    match p.probeDispatch with
    | some pd => [pd.probeRule, pd.withBranch, pd.noBranch]
    | none => [])

/-- `rev`: the productions that push a name. -/
def callersOf (name : String) : List String :=
  (grammar.productions.filter fun p => (pushedBy p).contains name).map Production.name

/-- The backward walk: the names seen and the ones to go on from, the last first. -/
structure CallerWalk where
  seen : List String
  queue : List String
deriving DecidableEq, Repr

/-- What one caller adds to the walk. -/
def seeCaller (w : CallerWalk) (f : String) : CallerWalk :=
  if w.seen.contains f then w else ⟨f :: w.seen, f :: w.queue⟩

/-- `ref_callers_of`. A name is queued once, so there are as many steps as names at most. -/
def refCallersOf (target : String) : List String :=
  (Loop.run (fun w : CallerWalk =>
    match w.queue with
    | [] => none
    | next :: queue => some ((callersOf grammar next).foldl seeCaller ⟨w.seen, queue⟩))
    (grammar.names.length + 1) ⟨[target], [target]⟩).seen

variable (tokens : Tokens) (sets : FirstSets) (overlap : String → String → Bool)

/-- Whether the loop's token `t` and the token `u` of a suffix compete. -/
def competes (t u : String) : Bool := t == u || overlap t u

/-- The tokens a suffix owes the loop, and what its push does to the counter: nothing when the
suffix is empty or can vanish. -/
def suffixDebt (loopFirst : List String) (suffix : Sequence) : Option (List String × Int) :=
  if suffix.isEmpty then none
  else
    match firstOfSeq tokens sets suffix with
    | (_, true) => none
    | (first, false) =>
      let owed := first.flatMap fun u => loopFirst.filter fun t => competes overlap t u
      some (owed, if owed.isEmpty then 0 else 1)

/-- `el` with the counter's mutation written into its debt. -/
def setDebt (counter : String) (delta : Int) : Element → Element
  | .ref name debt sp => .ref name (some (Table.insert (debt.getD []) counter delta)) sp
  | el => el

/-- A reference that can reach the recursive rule, with the debt of the suffix behind it. -/
def pushDebt (loopFirst carries : List String) (el : Element) (suffix : Sequence) :
    Option (List String × Int) :=
  if el.refName.any carries.contains then suffixDebt tokens sets overlap loopFirst suffix else none

/-- The tokens the suffixes of an alternative owe the loop. -/
def owedBy (loopFirst carries : List String) : Sequence → List String
  | [] => []
  | el :: rest =>
    ((pushDebt tokens sets overlap loopFirst carries el rest).map Prod.fst).getD [] ++
      owedBy loopFirst carries rest

/-- The pushes of an alternative annotated. -/
def annotate (loopFirst carries : List String) (counter : String) : Sequence → Sequence
  | [] => []
  | el :: rest =>
    (match pushDebt tokens sets overlap loopFirst carries el rest with
      | some (_, delta) => setDebt counter delta el
      | none => el) :: annotate loopFirst carries counter rest

/-- The production at an index changed. -/
def Grammar.modifyAt (g : Grammar) (i : Nat) (f : Production → Production) : Grammar :=
  { g with productions := g.productions.modify i f }

/-- Every alternative changed. -/
def Grammar.mapAlts (g : Grammar) (f : Sequence → Sequence) : Grammar :=
  { g with productions := g.productions.map fun p => { p with alts := p.alts.map f } }

/-- The loop's own rule: the first other production that refers to it. -/
def ownerOf (loopIdx : Nat) (loopName : String) : Option Production :=
  (grammar.productions.zipIdx.find? fun (p, i) =>
    i != loopIdx && p.alts.any fun alt => alt.any (Element.isRefTo loopName)).map Prod.fst

/-- One contested loop settled: dismissed when nothing competes with it. -/
def resolveLoop (loopIdx : Nat) : Grammar :=
  match grammar.productions[loopIdx]? with
  | none => grammar
  | some lp =>
    let dismissed := grammar.modifyAt loopIdx fun p => { p with debtGuard := none }
    match lp.debtGuard, ownerOf grammar loopIdx lp.name with
    | some counter, some owner =>
      let loopFirst := sets.get lp.name
      if loopFirst.isEmpty then dismissed
      else
        let carries := refCallersOf grammar owner.name
        let owed := addAll [] (grammar.productions.flatMap fun p =>
          p.alts.flatMap (owedBy tokens sets overlap loopFirst carries))
        if owed.isEmpty then dismissed
        else
          (grammar.modifyAt loopIdx fun p => { p with debtOwed := some owed }).mapAlts
            (annotate tokens sets overlap loopFirst carries counter)
    | _, _ => dismissed

/-- `resolve_suffix_debts`. -/
def resolveSuffixDebts : Grammar :=
  ((List.range grammar.productions.length).filter fun i =>
    (grammar.productions[i]?.bind Production.debtGuard).isSome).foldl
    (fun g i => resolveLoop g tokens sets overlap i) grammar

end

/-! ## Only debts and guards change -/

/-- An element without its debt. -/
def eraseDebt : Element → Element
  | .ref name _ sp => .ref name none sp
  | el => el

@[simp] theorem eraseDebt_setDebt (counter : String) (delta : Int) (el : Element) :
    eraseDebt (setDebt counter delta el) = eraseDebt el := by
  cases el <;> rfl

/-- A production the settling leaves as it was, debts and guards aside. -/
structure SameRule (p p' : Production) : Prop where
  name : p'.name = p.name
  alts : p'.alts.map (·.map eraseDebt) = p.alts.map (·.map eraseDebt)
  tailRepeat : p'.tailRepeat = p.tailRepeat
  probeHelper : p'.probeHelper = p.probeHelper
  probeDispatch : p'.probeDispatch = p.probeDispatch
  repeatLoop : p'.repeatLoop = p.repeatLoop

theorem SameRule.refl (p : Production) : SameRule p p := ⟨rfl, rfl, rfl, rfl, rfl, rfl⟩

theorem SameRule.trans {p q r : Production} (h : SameRule p q) (h' : SameRule q r) :
    SameRule p r :=
  ⟨h'.name.trans h.name, h'.alts.trans h.alts, h'.tailRepeat.trans h.tailRepeat,
    h'.probeHelper.trans h.probeHelper, h'.probeDispatch.trans h.probeDispatch,
    h'.repeatLoop.trans h.repeatLoop⟩

section

variable {grammar : Grammar} {tokens : Tokens} {sets : FirstSets}
  {overlap : String → String → Bool}

theorem map_eraseDebt_annotate (loopFirst carries : List String) (counter : String)
    (alt : Sequence) :
    (annotate tokens sets overlap loopFirst carries counter alt).map eraseDebt =
      alt.map eraseDebt := by
  induction alt with
  | nil => rfl
  | cons el rest ih =>
    unfold annotate
    rw [List.map_cons, List.map_cons, ih]
    split
    · rw [eraseDebt_setDebt]
    · rfl

/-- The productions of two grammars, rule by rule the same. -/
def SameRules (g g' : Grammar) : Prop := List.Forall₂ SameRule g.productions g'.productions

theorem SameRules.trans {g g' g'' : Grammar} (h : SameRules g g') (h' : SameRules g' g'') :
    SameRules g g'' := by
  unfold SameRules at *
  revert h h'
  generalize g.productions = ps, g'.productions = qs, g''.productions = rs
  intro h h'
  induction h generalizing rs with
  | nil =>
    cases h'
    exact .nil
  | cons hp _ ih =>
    cases h' with
    | cons hq hrest => exact .cons (hp.trans hq) (ih _ hrest)

theorem sameRules_modifyAt (i : Nat) {f : Production → Production}
    (hf : ∀ p, SameRule p (f p)) : SameRules grammar (grammar.modifyAt i f) := by
  unfold SameRules Grammar.modifyAt
  dsimp only
  generalize grammar.productions = ps
  induction ps generalizing i with
  | nil => simp
  | cons p ps ih =>
    cases i with
    | zero => exact .cons (hf p) (List.forall₂_same.mpr fun q _ => .refl q)
    | succ i => exact .cons (.refl p) (ih i)

theorem sameRules_mapAlts {f : Sequence → Sequence}
    (hf : ∀ alt, (f alt).map eraseDebt = alt.map eraseDebt) :
    SameRules grammar (grammar.mapAlts f) := by
  unfold SameRules Grammar.mapAlts
  rw [List.forall₂_map_right_iff, List.forall₂_same]
  intro p _
  refine ⟨rfl, ?_, rfl, rfl, rfl, rfl⟩
  rw [List.map_map]
  exact List.map_congr_left fun alt _ => hf alt

theorem sameRules_resolveLoop (i : Nat) :
    SameRules grammar (resolveLoop grammar tokens sets overlap i) := by
  have hdismissed : SameRules grammar
      (grammar.modifyAt i fun p => { p with debtGuard := none }) :=
    sameRules_modifyAt i fun p => ⟨rfl, rfl, rfl, rfl, rfl, rfl⟩
  unfold resolveLoop
  split
  · exact List.forall₂_same.mpr fun q _ => .refl q
  · dsimp only
    split
    · split
      · exact hdismissed
      · split
        · exact hdismissed
        · refine SameRules.trans (sameRules_modifyAt i ?_)
            (sameRules_mapAlts (map_eraseDebt_annotate _ _ _))
          exact fun p => ⟨rfl, rfl, rfl, rfl, rfl, rfl⟩
    · exact hdismissed

/-- **Settling the debts changes no rule** but its debts and guards. -/
theorem sameRules_resolveSuffixDebts :
    SameRules grammar (resolveSuffixDebts grammar tokens sets overlap) := by
  unfold resolveSuffixDebts
  generalize (List.range grammar.productions.length).filter _ = idxs
  have hfold : ∀ g, SameRules grammar g →
      SameRules grammar (idxs.foldl (fun g i => resolveLoop g tokens sets overlap i) g) := by
    induction idxs with
    | nil => exact fun g hg => hg
    | cons i idxs ih => exact fun g hg => ih _ (hg.trans (sameRules_resolveLoop i))
  exact hfold grammar (List.forall₂_same.mpr fun q _ => .refl q)

theorem names_of_sameRules {g g' : Grammar} (h : SameRules g g') : g'.names = g.names := by
  have hnames : List.Forall₂ (· = ·) (g'.productions.map Production.name)
      (g.productions.map Production.name) := by
    rw [List.forall₂_map_left_iff, List.forall₂_map_right_iff]
    exact List.Forall₂.flip (h.imp fun p p' hp => hp.name)
  rwa [List.forall₂_eq_eq_eq] at hnames

end

/-! ## The analysis reads no debts -/

section

variable {g g' : Grammar} {tokens : Tokens} {classSets : List (String × String)} {sets : FirstSets}

theorem map_of_sameRules {β : Type*} {f : Production → β} (h : SameRules g g')
    (hf : ∀ p p', SameRule p p' → f p' = f p) : g'.productions.map f = g.productions.map f := by
  have hmap : List.Forall₂ (· = ·) (g'.productions.map f) (g.productions.map f) := by
    rw [List.forall₂_map_left_iff, List.forall₂_map_right_iff]
    exact List.Forall₂.flip (h.imp fun p p' hp => hf p p' hp)
  rwa [List.forall₂_eq_eq_eq] at hmap

theorem flatMap_of_sameRules {β : Type*} {f : Production → List β} (h : SameRules g g')
    (hf : ∀ p p', SameRule p p' → f p' = f p) :
    g'.productions.flatMap f = g.productions.flatMap f := by
  rw [List.flatMap_def, List.flatMap_def, map_of_sameRules h hf]

theorem filterMap_of_sameRules {β : Type*} {f : Production → Option β} (h : SameRules g g')
    (hf : ∀ p p', SameRule p p' → f p' = f p) :
    g'.productions.filterMap f = g.productions.filterMap f := by
  have hmap := congrArg (List.filterMap id) (map_of_sameRules h hf)
  simpa only [List.filterMap_map, Function.id_comp] using hmap

theorem SameRule.map_alts {β : Type*} {f : Sequence → β} {p p' : Production} (h : SameRule p p')
    (hf : ∀ α, f (α.map eraseDebt) = f α) : p'.alts.map f = p.alts.map f := by
  have hmap := congrArg (List.map f) h.alts
  rw [List.map_map, List.map_map] at hmap
  simpa only [Function.comp_def, hf] using hmap

theorem name_eraseDebt (el : Element) : tokens.name (eraseDebt el) = tokens.name el := by
  cases el <;> rfl

theorem refName_eraseDebt (el : Element) : (eraseDebt el).refName = el.refName := by
  cases el <;> rfl

theorem altFirst_map_eraseDebt (name : String) : ∀ α : Sequence,
    altFirst tokens sets name (α.map eraseDebt) = altFirst tokens sets name α
  | [] => rfl
  | el :: α => by
    have ih := altFirst_map_eraseDebt name α
    cases el <;> simp only [List.map_cons, eraseDebt, altFirst, ih]

theorem firstOfSeqFrom_map_eraseDebt : ∀ (α : Sequence) (out : List String),
    firstOfSeqFrom tokens sets out (α.map eraseDebt) = firstOfSeqFrom tokens sets out α
  | [], _ => rfl
  | el :: α, out => by
    have ih := firstOfSeqFrom_map_eraseDebt α
    cases el <;> simp only [List.map_cons, eraseDebt, firstOfSeqFrom, ih]

theorem suffixPairs_map_eraseDebt (follow : FollowSets) (pairs : FollowPairs) (name : String) :
    ∀ α : Sequence, suffixPairs tokens sets follow pairs name (α.map eraseDebt) =
      suffixPairs tokens sets follow pairs name α
  | [] => rfl
  | el :: α => by
    have ih := suffixPairs_map_eraseDebt follow pairs name α
    cases el <;> simp only [List.map_cons, eraseDebt, suffixPairs, firstOfSeq, ih,
      firstOfSeqFrom_map_eraseDebt] <;> rfl

theorem tokenNames_of_sameRules (h : SameRules g g') :
    tokenNames g' tokens classSets = tokenNames g tokens classSets := by
  unfold tokenNames
  refine congr_arg₂ (· ++ ·) (flatMap_of_sameRules h fun p p' hp => ?_)
    (filterMap_of_sameRules h fun p p' hp => by rw [hp.name])
  rw [List.flatMap_def, List.flatMap_def, hp.map_alts fun α => ?_]
  rw [List.map_map]
  exact List.map_congr_left fun el _ => name_eraseDebt el

/-- FIRST is that of the rules without their debts. -/
theorem computeFirstSets_of_sameRules (h : SameRules g g') :
    computeFirstSets g' tokens classSets = computeFirstSets g tokens classSets := by
  have hrules : firstRules g' tokens classSets = firstRules g tokens classSets := by
    refine flatMap_of_sameRules h fun p p' hp => ?_
    rw [hp.name, hp.map_alts fun α => ?_]
    funext sets
    exact altFirst_map_eraseDebt p.name α
  have hfacts : classFacts g' classSets = classFacts g classSets :=
    filterMap_of_sameRules h fun p p' hp => by rw [hp.name]
  unfold computeFirstSets firstUniverse
  rw [hrules, hfacts, names_of_sameRules h, tokenNames_of_sameRules h]

/-- A reference with the suffix behind it, without debts. -/
def eraseSuffix (ref : String × String × Sequence) : String × String × Sequence :=
  (ref.1, ref.2.1, ref.2.2.map eraseDebt)

theorem eraseDebt_eraseDebt (el : Element) : eraseDebt (eraseDebt el) = eraseDebt el := by
  cases el <;> rfl

theorem refSuffixes_of_names (h : g'.names = g.names) : ∀ α : Sequence,
    refSuffixes g' α = refSuffixes g α
  | [] => rfl
  | el :: α => by
    unfold refSuffixes
    rw [h, refSuffixes_of_names h α]

theorem refSuffixes_map_eraseDebt (name : String) : ∀ α : Sequence,
    (refSuffixes g (α.map eraseDebt)).map (fun r => eraseSuffix (name, r)) =
      (refSuffixes g α).map fun r => eraseSuffix (name, r)
  | [] => rfl
  | el :: α => by
    have ih := refSuffixes_map_eraseDebt name α
    have hsuffix : (α.map eraseDebt).map eraseDebt = α.map eraseDebt := by
      rw [List.map_map]
      exact List.map_congr_left fun el _ => eraseDebt_eraseDebt el
    simp only [List.map_cons, refSuffixes, refName_eraseDebt]
    split
    · split
      · rw [List.map_cons, List.map_cons, ih, eraseSuffix, eraseSuffix, hsuffix]
      · exact ih
    · exact ih

theorem references_of_sameRules (h : SameRules g g') :
    (references g').map eraseSuffix = (references g).map eraseSuffix := by
  unfold references
  simp only [List.map_flatMap, List.map_map, Function.comp_def,
    refSuffixes_of_names (names_of_sameRules h)]
  refine flatMap_of_sameRules h fun p p' hp => ?_
  rw [List.flatMap_def, List.flatMap_def, hp.name, hp.map_alts fun α => ?_]
  exact refSuffixes_map_eraseDebt p.name α

/-- FOLLOW is that of the rules without their debts. -/
theorem computeFollowSets_of_sameRules (h : SameRules g g') (start : String) :
    computeFollowSets g' tokens classSets sets start =
      computeFollowSets g tokens classSets sets start := by
  have hrule : ∀ ref, followRule tokens sets (eraseSuffix ref) = followRule tokens sets ref := by
    rintro ⟨n, m, β⟩
    funext follow
    simp only [eraseSuffix, followRule, firstOfSeq, firstOfSeqFrom_map_eraseDebt]
    rfl
  have hrules := congrArg (List.map (followRule tokens sets)) (references_of_sameRules h)
  simp only [List.map_map, Function.comp_def, hrule] at hrules
  unfold computeFollowSets
  rw [hrules, names_of_sameRules h, tokenNames_of_sameRules h]

/-- The FOLLOW pairs are those of the rules without their debts. -/
theorem computeFollowPairs_of_sameRules (h : SameRules g g') (follow : FollowSets) :
    computeFollowPairs g' tokens classSets sets follow =
      computeFollowPairs g tokens classSets sets follow := by
  have hrules := congrArg (List.map fun (ref : String × String × Sequence) (pairs : FollowPairs) =>
    (suffixPairs tokens sets follow pairs ref.1 ref.2.2).map (ref.2.1, ·))
    (references_of_sameRules h)
  simp only [List.map_map, Function.comp_def, eraseSuffix, suffixPairs_map_eraseDebt] at hrules
  unfold computeFollowPairs
  rw [hrules, names_of_sameRules h, tokenNames_of_sameRules h]

end

end TabnasBnf
