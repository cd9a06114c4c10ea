import TabnasBnf.DesugarLoops
import TabnasBnf.EmitLang
import TabnasBnf.LoopCounter

/-!
# The loops an emitted spec holds

The rules of a desugared grammar are a `LoopTable`, whatever the names of its productions: where a
production takes the name of another's rule, the rule that is written last stays
(`writer_of_lookup`), and what writes the name of a loop's rule last is a loop itself.

* `Emitted.cold`, `Emitted.loop`: the rules of a production that is no loop, and of one that is.
* `writer_of_loop`: the rule of a name a loop writes is that loop's, or one of a loop behind it.
* **`loopTable_of_emitRules`**: the rules of a desugared grammar are a loop table.
-/

namespace TabnasBnf

open Desugar

/-! ## Settling the debts -/

/-- A property of every production that a change of one keeps. -/
theorem forall_modify {P : Production → Prop} {f : Production → Production}
    (hf : ∀ p, P p → P (f p)) {ps : List Production} (h : ∀ p ∈ ps, P p) (i : Nat) :
    ∀ p ∈ ps.modify i f, P p := by
  induction ps generalizing i with
  | nil => simp
  | cons p ps ih =>
    obtain ⟨hp, hps⟩ := List.forall_mem_cons.mp h
    cases i with
    | zero => exact List.forall_mem_cons.mpr ⟨hf p hp, hps⟩
    | succ i => exact List.forall_mem_cons.mpr ⟨hp, ih hps i⟩

section

variable {C : List String} {g : Grammar} {tokens : Tokens} {sets : FirstSets}
  {overlap : String → String → Bool}

theorem counters_setDebt {counter : String} {delta : Int} {el : Element} (hcounter : counter ∈ C)
    (hel : el.counters ⊆ C) : (setDebt counter delta el).counters ⊆ C := by
  cases el with
  | ref name debt sp =>
    intro c hc
    rcases Table.mem_keys_insert.mp hc with rfl | hc
    · exact hcounter
    · exact hel hc
  | _ => exact hel

theorem counters_annotate {counter : String} (hcounter : counter ∈ C) (loopFirst carries : List String)
    {alt : Sequence} (halt : countersIn alt ⊆ C) :
    countersIn (annotate tokens sets overlap loopFirst carries counter alt) ⊆ C := by
  induction alt with
  | nil => exact halt
  | cons el rest ih =>
    obtain ⟨hel, hrest⟩ := List.append_subset.mp halt
    refine List.append_subset.mpr ⟨?_, ih hrest⟩
    split
    · exact counters_setDebt hcounter hel
    · exact hel

/-- Settling the debts writes the counters of guards. -/
theorem counters_resolveLoop (hg : ∀ p ∈ g.productions, p.counters ⊆ C) (i : Nat) :
    ∀ p ∈ (resolveLoop g tokens sets overlap i).productions, p.counters ⊆ C := by
  have hdismissed : ∀ p ∈ (g.modifyAt i fun p => { p with debtGuard := none }).productions,
      p.counters ⊆ C :=
    forall_modify (fun p hp => (List.append_subset.mp hp).2) hg i
  unfold resolveLoop
  split
  · exact hg
  · next lp hlp =>
    dsimp only
    split
    · next counter owner hguard _ =>
      split
      · exact hdismissed
      · split
        · exact hdismissed
        · have hcounter : counter ∈ C := by
            refine hg lp (List.mem_of_getElem? hlp) (List.mem_append_left _ ?_)
            simp [hguard]
          intro p hp
          obtain ⟨q, hq, rfl⟩ := List.mem_map.mp hp
          have hq : q.counters ⊆ C := by
            refine forall_modify ?_ hg i q hq
            exact fun p hp => hp
          obtain ⟨hguard, halts⟩ := List.append_subset.mp hq
          refine List.append_subset.mpr ⟨hguard, fun c hc => ?_⟩
          obtain ⟨α, hα, el, hel, hc⟩ := mem_countersInAlts.mp hc
          obtain ⟨alt, halt, rfl⟩ := List.mem_map.mp hα
          have hin : countersIn alt ⊆ C := fun c hc => by
            obtain ⟨el, hel, hc⟩ := mem_countersIn.mp hc
            exact halts (mem_countersInAlts.mpr ⟨alt, halt, el, hel, hc⟩)
          exact counters_annotate hcounter _ _ hin (mem_countersIn.mpr ⟨el, hel, hc⟩)
    · exact hdismissed

theorem counters_resolveSuffixDebts (hg : ∀ p ∈ g.productions, p.counters ⊆ C) :
    ∀ p ∈ (resolveSuffixDebts g tokens sets overlap).productions, p.counters ⊆ C := by
  unfold resolveSuffixDebts
  generalize (List.range g.productions.length).filter _ = idxs
  induction idxs generalizing g with
  | nil => exact hg
  | cons i idxs ih => exact ih (counters_resolveLoop hg i)

theorem SameRule.helper {p p' : Production} (h : SameRule p p') (hp : DesugarHelper p) :
    DesugarHelper p' where
  tailRepeat := h.tailRepeat.trans hp.tailRepeat
  probeHelper := h.probeHelper.trans hp.probeHelper
  probeDispatch := h.probeDispatch.trans hp.probeDispatch
  named := by
    have hlen : p'.alts.length = p.alts.length := by
      simpa using congrArg List.length h.alts
    rw [h.repeatLoop, h.name, hlen]
    exact hp.named

theorem pairwise_of_forall₂ {α β : Type} {R : α → β → Prop} {S : α → α → Prop}
    {S' : β → β → Prop} (himp : ∀ a b a' b', R a b → R a' b' → S a a' → S' b b') {l : List α}
    {l' : List β} (h : List.Forall₂ R l l') (hl : l.Pairwise S) : l'.Pairwise S' := by
  induction h with
  | nil => exact .nil
  | @cons a b l l' hab hrest ih =>
    obtain ⟨ha, hl⟩ := List.pairwise_cons.mp hl
    refine List.pairwise_cons.mpr ⟨fun b' hb' => ?_, ih hl⟩
    obtain ⟨a', ha', hR⟩ := exists_left_of_forall₂ hrest hb'
    exact himp a b a' b' hab hR (ha a' ha')

/-- Settling the debts keeps the loops. -/
theorem LoopNames.resolveSuffixDebts (h : LoopNames C g) :
    LoopNames C (resolveSuffixDebts g tokens sets overlap) := by
  have hsame : SameRules g (TabnasBnf.resolveSuffixDebts g tokens sets overlap) :=
    sameRules_resolveSuffixDebts
  refine ⟨counters_resolveSuffixDebts h.counters, fun p' hp' hloop => ?_, ?_⟩
  · obtain ⟨p, hp, hpp⟩ := exists_left_of_forall₂ hsame hp'
    exact hpp.helper (h.helper p hp (hpp.repeatLoop ▸ hloop))
  · refine pairwise_of_forall₂ (fun p p' q q' hp hq hpq hloop => ?_) hsame h.behind
    exact hq.helper (hpq (hp.repeatLoop ▸ hloop))

end

/-! ## The rules of a production -/

/-- The counters a debt names do not include the loop counter. -/
def Quiet (n : Option (List (String × Int))) : Prop := ∀ e ∈ n.getD [], e.1 ≠ loopCounter

theorem quiet_none : Quiet none := fun _ he => absurd he List.not_mem_nil

section

variable {diag : String} {E : Emitter} {prod : Production} {rules : RuleTable}

theorem quiet_segmentsFrom {alt : Sequence} (halt : loopCounter ∉ countersIn alt) :
    ∀ {current : Segment}, Quiet current.debt →
      ∀ seg ∈ segmentsFrom E.tokens current alt, Quiet seg.debt := by
  induction alt with
  | nil =>
    intro current hcurrent seg hseg
    unfold segmentsFrom at hseg
    split at hseg
    · cases hseg
    · rw [List.mem_singleton.mp hseg]
      exact hcurrent
  | cons el rest ih =>
    intro current hcurrent seg hseg
    rw [countersIn, List.mem_append, not_or] at halt
    unfold segmentsFrom at hseg
    split at hseg
    · next name debt sp =>
      rcases List.mem_cons.mp hseg with rfl | hseg
      · intro e he heq
        exact halt.1 (List.mem_map.mpr ⟨e, he, heq⟩)
      · exact ih halt.2 (by exact quiet_none) seg hseg
    · exact ih halt.2 (by exact hcurrent) seg hseg

theorem quiet_segmentize {alt : Sequence} (halt : loopCounter ∉ countersIn alt) :
    ∀ seg ∈ segmentize E.tokens alt, Quiet seg.debt := by
  intro seg hseg
  unfold segmentize at hseg
  split at hseg
  · rw [List.mem_singleton.mp hseg]
    exact quiet_none
  · have hempty : Quiet ({} : Segment).debt := quiet_none
    exact quiet_segmentsFrom halt hempty seg hseg

theorem quiet_segmentOf {alt : Sequence} (halt : loopCounter ∉ countersIn alt) :
    Quiet (segmentOf E.tokens alt).debt := by
  unfold segmentOf
  cases hsegs : segmentize E.tokens alt with
  | nil => exact quiet_none
  | cons seg segs => exact quiet_segmentize halt seg (hsegs ▸ List.mem_cons_self)

theorem cold_iff {rule : RuleSpec} : rule.Cold ↔
    (∀ o ∈ rule.opens, Quiet o.n) ∧ ∀ o ∈ rule.close.getD [], Quiet o.n := by
  refine ⟨fun h => ⟨h false, h true⟩, fun h closing => ?_⟩
  cases closing with
  | false => exact h.1
  | true => exact h.2

theorem quiet_placeEntries {entries : List Entry} (h : ∀ e ∈ entries, Quiet e.o.effect.n) :
    ∀ o ∈ placeEntries E prod entries, Quiet o.n := by
  intro o ho
  obtain ⟨e, he, heq⟩ := List.mem_map.mp (mem_effect_placeEntries.mp (List.mem_map_of_mem ho))
  have := h e he
  rwa [heq] at this

theorem cold_chainFrom {head : String} {segs : List Segment} (h : ∀ seg ∈ segs, Quiet seg.debt) :
    ∀ i, ∀ e ∈ chainFrom head i segs, e.2.Cold := by
  induction segs with
  | nil => exact fun i e he => absurd he List.not_mem_nil
  | cons seg segs ih =>
    obtain ⟨hseg, hsegs⟩ := List.forall_mem_cons.mp h
    intro i e he
    cases segs with
    | nil =>
      obtain rfl := List.mem_singleton.mp he
      refine cold_iff.mpr ⟨by simpa [segmentToAlt] using hseg, ?_⟩
      dsimp only
      split <;> simp [captureClose, quiet_none]
    | cons seg' segs =>
      rcases List.mem_cons.mp he with rfl | he
      · exact cold_iff.mpr ⟨by simpa [segmentToAlt] using hseg, by simp [captureClose, quiet_none]⟩
      · exact ih hsegs (i + 1) e he

theorem mem_counters_of_alt {alt : Sequence} (h : loopCounter ∉ prod.counters)
    (halt : alt ∈ prod.alts) : loopCounter ∉ countersIn alt := by
  intro hc
  obtain ⟨el, hel, hc⟩ := mem_countersIn.mp hc
  exact h (List.mem_append_right _ (mem_countersInAlts.mpr ⟨alt, halt, el, hel, hc⟩))

/-- **The rules of a production that is no loop** leave the loop counter alone. -/
theorem Emitted.cold (h : Emitted diag E prod rules) (hloop : prod.repeatLoop = false)
    (hc : loopCounter ∉ prod.counters) : ∀ e ∈ rules, e.2.Cold := by
  have hno : ∀ {loopItem : Option Element}, loopItem.isSome = prod.repeatLoop → loopItem = none := by
    intro loopItem h
    rw [hloop] at h
    simpa using h
  intro e he
  cases h with
  | @probeHelper helper h =>
    obtain rfl := List.mem_singleton.mp he
    refine cold_iff.mpr ⟨fun o ho => ?_, by simp [emitProbeHelper]⟩
    rcases List.mem_append.mp ho with ho | ho
    · obtain ⟨el, -, hel⟩ := List.mem_filterMap.mp ho
      obtain ⟨tok, -, rfl⟩ := Option.map_eq_some_iff.mp hel
      exact quiet_none
    · rw [List.mem_singleton.mp ho]
      exact quiet_none
  | probeDispatch h hrule =>
    obtain rfl := List.mem_singleton.mp he
    unfold emitProbeDispatch at hrule
    split at hrule
    · cases hrule
    · cases hrule
      exact cold_iff.mpr (by simp [quiet_none])
  | @tailRepeat tail h =>
    obtain rfl := List.mem_singleton.mp he
    refine cold_iff.mpr ⟨?_, by simp [emitTailRepeat, quiet_none]⟩
    have hquiet : Quiet (segmentOf E.tokens (prod.alts.headD [])).debt := by
      refine quiet_segmentOf ?_
      cases halts : prod.alts with
      | nil => simp [countersIn]
      | cons alt alts => exact mem_counters_of_alt hc (by simp [halts])
    intro o ho
    rw [List.mem_singleton.mp ho]
    exact hquiet
  | single hitem hsome hsingle =>
    obtain rfl := List.mem_singleton.mp he
    rw [hno hsome]
    refine cold_iff.mpr ⟨quiet_placeEntries fun e he => ?_, ?_⟩
    · obtain ⟨alt, idx, hat, he⟩ := mem_allSingleEntries.mp he
      have halt : alt ∈ prod.alts := mem_emptyAltsLast.mp (List.fst_mem_of_mem_zipIdx hat)
      rw [effect_singleEntries (fun h => (by cases h)) he]
      exact quiet_segmentOf (mem_counters_of_alt hc halt)
    · rw [Option.isSome_none, singleRule, if_neg Bool.false_ne_true]
      dsimp only
      split <;> simp [captureClose, quiet_none]
  | @chain alt halts =>
    have halt : loopCounter ∉ countersIn alt := mem_counters_of_alt hc (by simp [halts])
    exact cold_chainFrom (quiet_segmentize halt) 0 e he
  | @dispatch loopItem dispatch impls entries hitem hsome hdispatch himpls hentries =>
    obtain rfl := hno hsome
    rcases List.mem_append.mp he with he | he
    · obtain ⟨rs, hrs, he⟩ := List.mem_flatten.mp he
      obtain ⟨⟨alt, i⟩, hat, hemitted⟩ := exists_left_of_forall₂ himpls hrs
      have halt : alt ∈ prod.alts := List.fst_mem_of_mem_zipIdx hat
      cases hemitted with
      | empty => cases he
      | chain hne =>
        exact cold_chainFrom (quiet_segmentize (mem_counters_of_alt hc halt)) 0 e he
    · obtain rfl := List.mem_singleton.mp he
      refine cold_iff.mpr ⟨quiet_placeEntries fun e he => ?_, by simp [captureClose, quiet_none]⟩
      rcases effect_dispatchEntries hentries he with ⟨i, alt, -, -, heff⟩ | ⟨-, heff⟩
      · rw [heff]
        exact quiet_none
      · rw [heff]
        exact quiet_none

/-- What a rule of a loop is: the loop's own, its iteration, or the step back. -/
def LoopRule (prod : Production) (keys : List String) (e : String × RuleSpec) : Prop :=
  (e.1 = prod.name ∧ e.2.close = none ∧ ∃ rest, e.2.opens = loopEntry prod :: rest ∧
    ∀ o ∈ rest, o.p = none ∧ o.n = none ∧ ∀ q ∈ o.r, q ∈ keys) ∨
  (∃ item, e.2 = iterationRule e.1 item ∧ stepName e.1 1 ∈ keys ∧ e.1 ≠ prod.name) ∨
  e.2 = againRule prod.name ∧ e.1 ≠ prod.name

theorem effect_of_mem_placeEntries {entries : List Entry} {o : AltSpec}
    (h : o ∈ placeEntries E prod entries) : ∃ e ∈ entries, e.o.effect = o.effect :=
  List.mem_map.mp (mem_effect_placeEntries.mp (List.mem_map_of_mem h))

/-- A loop of single segments goes on as itself. -/
theorem effect_loopEntry {item : Element} (hitem : LoopOf prod item)
    (hsingle : ∀ alt ∈ prod.alts, isSingleSegment alt = true) {e : Entry}
    (he : e ∈ allSingleEntries E prod true) :
    e.o.p = none ∧ e.o.n = none ∧ ∀ q ∈ e.o.r, q = prod.name := by
  obtain ⟨alt, idx, hat, he⟩ := mem_allSingleEntries.mp he
  have halt : alt ∈ prod.alts := mem_emptyAltsLast.mp (List.fst_mem_of_mem_zipIdx hat)
  have heff : e.o.effect = (singleAlternate prod true alt (segmentOf E.tokens alt)).effect := by
    refine effect_singleEntries (fun _ hne => ?_) he
    obtain ⟨self, hself, rfl⟩ := (hitem.alts alt halt).resolve_left hne
    rw [(segmentOf_loop (hsingle _ halt) hself).1]
    exact List.cons_ne_nil _ _
  obtain ⟨-, hp, hr, hn⟩ := Effect.mk.inj heff
  rw [hp, hr, hn]
  cases alt with
  | nil => exact ⟨rfl, rfl, fun q hq => (by cases hq)⟩
  | cons el rest => exact ⟨rfl, rfl, fun q hq => (Option.some.inj hq).symm⟩

/-- **The rules of a loop.** -/
theorem Emitted.loop (h : Emitted diag E prod rules) (hloop : prod.repeatLoop = true)
    (hhelper : DesugarHelper prod) (hlen : prod.alts.length = 2) :
    prod.name ∈ rules.map Prod.fst ∧ ∀ e ∈ rules, LoopRule prod (rules.map Prod.fst) e := by
  have hsome : ∀ {loopItem : Option Element}, loopItem.isSome = prod.repeatLoop →
      ∃ item, loopItem = some item := by
    intro loopItem h
    rw [hloop] at h
    exact Option.isSome_iff_exists.mp h
  cases h with
  | probeHelper h =>
    rw [hhelper.probeHelper] at h
    cases h
  | probeDispatch h hrule =>
    rw [hhelper.probeDispatch] at h
    cases h
  | tailRepeat h =>
    rw [hhelper.tailRepeat] at h
    cases h
  | chain halts =>
    rw [halts] at hlen
    cases hlen
  | single hitem hloopItem hsingle =>
    obtain ⟨item, rfl⟩ := hsome hloopItem
    refine ⟨List.mem_singleton_self _, fun e he => ?_⟩
    obtain rfl := List.mem_singleton.mp he
    refine .inl ⟨rfl, rfl, _, rfl, fun o ho => ?_⟩
    obtain ⟨e, he, heff⟩ := effect_of_mem_placeEntries ho
    obtain ⟨-, hp, hr, hn⟩ := Effect.mk.inj heff
    obtain ⟨hp', hn', hr'⟩ := effect_loopEntry (hitem item rfl) hsingle he
    refine ⟨hp ▸ hp', hn ▸ hn', fun q hq => ?_⟩
    rw [hr' q (hr ▸ hq)]
    exact List.mem_singleton_self _
  | @dispatch loopItem dispatch impls entries hitem hloopItem hdispatch himpls hentries =>
    obtain ⟨item, rfl⟩ := hsome hloopItem
    -- the rules of an alternative that is not empty
    have himpl : ∀ (i : Nat) (alt : Sequence), prod.alts[i]? = some alt → alt ≠ [] →
        ∃ rs ∈ impls, EmittedAlt E prod i (some item) alt rs := by
      intro i alt halt hne
      have hat : (alt, i) ∈ prod.alts.zipIdx := List.mk_mem_zipIdx_iff_getElem?.mpr halt
      exact exists_right_of_forall₂ himpls hat
    have hkey : ∀ (i : Nat) (alt : Sequence), prod.alts[i]? = some alt → alt ≠ [] →
        altName prod.name i ∈ impls.flatten.map Prod.fst := by
      intro i alt halt hne
      obtain ⟨rs, hrs, hemitted⟩ := himpl i alt halt hne
      cases hemitted with
      | empty => exact absurd rfl hne
      | loop _ _ =>
        rw [List.map_flatten]
        exact List.mem_flatten.mpr ⟨_, List.mem_map_of_mem hrs, List.mem_cons_self⟩
    refine ⟨by simp, fun e he => ?_⟩
    rcases List.mem_append.mp he with he | he
    · obtain ⟨rs, hrs, he⟩ := List.mem_flatten.mp he
      obtain ⟨⟨alt, i⟩, hat, hemitted⟩ := exists_left_of_forall₂ himpls hrs
      cases hemitted with
      | empty => cases he
      | @loop alt item itemName hne hname =>
        rcases List.mem_cons.mp he with rfl | he
        · refine .inr (.inl ⟨itemName, rfl, ?_, altName_ne_self _ i⟩)
          rw [List.map_append, List.map_flatten]
          refine List.mem_append_left _ (List.mem_flatten.mpr ⟨_, List.mem_map_of_mem hrs, ?_⟩)
          exact List.mem_cons_of_mem _ List.mem_cons_self
        · obtain rfl := List.mem_singleton.mp he
          exact .inr (.inr ⟨rfl, stepName_altName_ne_self _ i 1⟩)
    · obtain rfl := List.mem_singleton.mp he
      refine .inl ⟨rfl, rfl, _, rfl, fun o ho => ?_⟩
      obtain ⟨e, he, heff⟩ := effect_of_mem_placeEntries ho
      rw [List.map_append]
      rcases effect_dispatchEntries hentries he with ⟨i, alt, halt, hne, heff'⟩ | ⟨-, heff'⟩
      · obtain ⟨-, hp, hr, hn⟩ := Effect.mk.inj (heff.symm.trans heff')
        refine ⟨hp, hn, fun q hq => List.mem_append_left _ ?_⟩
        rw [hr] at hq
        obtain rfl := Option.some.inj hq
        exact hkey i alt halt hne
      · obtain ⟨-, hp, hr, hn⟩ := Effect.mk.inj (heff.symm.trans heff')
        refine ⟨hp, hn, fun q hq => ?_⟩
        rw [hr] at hq
        cases hq

/-! ## Names that clash -/

/-- A list is split in one way at the first occurrence of an element. -/
theorem split_first {α : Type*} {c : α} {x x' z z' : List α} (hx : c ∉ x) (hx' : c ∉ x')
    (h : x ++ c :: z = x' ++ c :: z') : x = x' ∧ z = z' := by
  rcases List.append_eq_append_iff.mp h with ⟨y, hy, hz⟩ | ⟨y, hy, hz⟩ <;> cases y with
  | nil => simp_all
  | cons d y =>
    simp only [List.cons_append, List.cons.injEq] at hz
    simp_all

theorem toList_helperName (hint : String) (i : Nat) : (helperName hint i).toList =
    "_gen".toList ++ ((toString i).toList ++ '_' :: hint.toList) := by
  unfold helperName
  rw [String.toList_append, String.toList_append, String.toList_append, List.append_assoc]
  rfl

theorem underscore_notMem (i : Nat) : '_' ∉ (toString i).toList :=
  Names.notMem_toString (by decide) i

/-- No name begins with that of a loop and with that of another helper. -/
theorem StarNamed.apart {p q : String} (hp : StarNamed p) (hq : OtherNamed q) {x : List Char}
    (hpx : p.toList <+: x) (hqx : q.toList <+: x) : False := by
  obtain ⟨hint, i, rfl⟩ := hp
  obtain ⟨hint', j, rfl, c, hc, hne⟩ := hq
  obtain ⟨rest, rfl⟩ := hpx
  obtain ⟨rest', h⟩ := hqx
  rw [toList_helperName, toList_helperName, List.append_assoc, List.append_assoc,
    List.append_assoc, List.append_assoc] at h
  have h : _ ++ '_' :: (hint'.toList ++ rest') = _ ++ '_' :: (("star_" ++ hint).toList ++ rest) :=
    List.append_cancel_left h
  have hhint := (split_first (underscore_notMem j) (underscore_notMem i) h).2
  cases hchars : hint'.toList with
  | nil =>
    rw [hchars] at hc
    cases hc
  | cons c' cs =>
    rw [hchars] at hc hhint
    obtain rfl : c' = c := by simpa using hc
    rw [String.toList_append] at hhint
    exact hne (List.cons.inj hhint).1

theorem Generated.isPrefix {name : String} {keys : List String} (h : Generated name keys)
    {k : String} (hk : k ∈ keys) : name.toList <+: k.toList := by
  have halt : ∀ i, name.toList <+: (altName name i).toList := fun i => by
    rw [toList_altName]
    exact List.prefix_append _ _
  rcases h.shape k hk with rfl | ⟨i, rfl⟩ | ⟨b, i, rfl, -, hb⟩
  · exact List.prefix_refl _
  · exact halt i
  · rw [toList_stepName]
    refine List.IsPrefix.trans ?_ (List.prefix_append _ _)
    rcases hb with rfl | ⟨j, rfl⟩
    · exact List.prefix_refl _
    · exact halt j

/-! ## The table -/

/-- **What is written last stays**: a rule of the table is the start wrapper's, or one of a
production behind which none writes its name. -/
theorem writer_of_lookup {start k : String} {rule : RuleSpec}
    (h : emitRules diag E start = .ok rules) (hk : rules.lookup k = some rule) :
    k = startWrapper E ∧ rule = (wrapperRule E start).2 ∨
      ∃ before p behind, E.grammar.productions = before ++ p :: behind ∧
        (k, rule) ∈ rulesOf diag E p ∧ ∀ q ∈ behind, k ∉ (rulesOf diag E q).map Prod.fst := by
  rw [emitRules_eq h, Table.lookup_insert] at hk
  by_cases hwrapper : k = startWrapper E
  · rw [if_pos hwrapper] at hk
    exact .inl ⟨hwrapper, (Option.some.inj hk).symm⟩
  · rw [if_neg hwrapper] at hk
    exact .inr (Table.last_of_lookup hk)

end

section

variable {diag : String} {E : Emitter} {rules : RuleTable} {C : List String} {start : String}

variable (diag E) in
/-- The rules that may run while the loop counter is 1: those that a loop writes. -/
def Warm (k : String) : Prop :=
  ∃ p ∈ E.grammar.productions, p.repeatLoop = true ∧ k ∈ (rulesOf diag E p).map Prod.fst

variable (E rules) in
/-- The loops whose rule the table holds. -/
def heldLoops : List Production :=
  E.grammar.productions.filter fun p =>
    p.repeatLoop && (rules.lookup p.name).any (·.opens.head? == some (loopEntry p))

theorem mem_heldLoops {p : Production} : p ∈ heldLoops E rules ↔
    p ∈ E.grammar.productions ∧ p.repeatLoop = true ∧
      ∃ rule, rules.lookup p.name = some rule ∧ rule.opens.head? = some (loopEntry p) := by
  unfold heldLoops
  simp only [List.mem_filter, Bool.and_eq_true, Option.any_eq_true, beq_iff_eq]

theorem DesugarHelper.star {p : Production} (h : DesugarHelper p) (hloop : p.repeatLoop = true) :
    p.alts.length = 2 ∧ StarNamed p.name := by
  rcases h.named with ⟨-, hlen, hname⟩ | ⟨hno, -⟩
  · exact ⟨hlen, hname⟩
  · rw [hloop] at hno
    cases hno

/-- The rule of a name a loop writes is that loop's, or one of a loop behind it. -/
theorem writer_of_loop (hnames : LoopNames C E.grammar) (h : emitRules diag E start = .ok rules)
    {p : Production} (hp : p ∈ E.grammar.productions) (hloop : p.repeatLoop = true) {k : String}
    {rule : RuleSpec} (hk : rules.lookup k = some rule)
    (hkp : k ∈ (rulesOf diag E p).map Prod.fst) :
    ∃ q ∈ E.grammar.productions, q.repeatLoop = true ∧ (k, rule) ∈ rulesOf diag E q ∧
      (q = p ∨ [p, q].Sublist E.grammar.productions) := by
  have hgenerated : ∀ q ∈ E.grammar.productions,
      Generated q.name ((rulesOf diag E q).map Prod.fst) :=
    fun q hq => (emitRule_cases (emitRule_eq_of_emitRules h hq)).generated
  rcases writer_of_lookup h hk with ⟨hwrapper, -⟩ | ⟨before, q, behind, heq, hmem, hbehind⟩
  · by_cases hname : k = p.name
    · exact absurd (mem_namesOf.mpr ⟨p, hp, hname.symm⟩) (hwrapper ▸ startWrapper_notMem E)
    · exact absurd hwrapper ((hgenerated p hp).ne_wrapperName hkp hname _)
  · have hq : q ∈ E.grammar.productions := by
      rw [heq]
      exact List.mem_append_right _ List.mem_cons_self
    have hplace : q = p ∨ [p, q].Sublist E.grammar.productions := by
      rw [heq] at hp
      rcases List.mem_append.mp hp with hp | hp
      · refine .inr (heq ▸ ?_)
        exact (List.singleton_sublist.mpr hp).append
          (List.singleton_sublist.mpr List.mem_cons_self)
      · rcases List.mem_cons.mp hp with rfl | hp
        · exact .inl rfl
        · exact absurd hkp (hbehind p hp)
    refine ⟨q, hq, ?_, hmem, hplace⟩
    have hhelper : DesugarHelper q := by
      rcases hplace with rfl | hsub
      · exact hnames.helper _ hq hloop
      · exact List.pairwise_iff_forall_sublist.mp hnames.behind hsub hloop
    rcases hhelper.named with ⟨hloop', -⟩ | ⟨-, hother⟩
    · exact hloop'
    · have hstar := ((hnames.helper p hp hloop).star hloop).2
      exact absurd ((hgenerated q hq).isPrefix (List.mem_map_of_mem hmem))
        fun hprefix => hstar.apart hother ((hgenerated p hp).isPrefix hkp) hprefix

/-- What a loop writes stays a loop's. -/
theorem loop_of_lookup (hnames : LoopNames C E.grammar) (h : emitRules diag E start = .ok rules)
    {k : String} {rule : RuleSpec} (hk : rules.lookup k = some rule) (hwarm : Warm diag E k) :
    ∃ q ∈ E.grammar.productions, q.repeatLoop = true ∧ (k, rule) ∈ rulesOf diag E q := by
  obtain ⟨p, hp, hloop, hkp⟩ := hwarm
  obtain ⟨q, hq, hloop', hmem, -⟩ := writer_of_loop hnames h hp hloop hk hkp
  exact ⟨q, hq, hloop', hmem⟩

/-- The rules of a production that is a loop. -/
theorem loopRules_of_emitRules (hnames : LoopNames C E.grammar)
    (h : emitRules diag E start = .ok rules) {p : Production} (hp : p ∈ E.grammar.productions)
    (hloop : p.repeatLoop = true) : p.name ∈ (rulesOf diag E p).map Prod.fst ∧
      ∀ e ∈ rulesOf diag E p, LoopRule p ((rulesOf diag E p).map Prod.fst) e := by
  have hhelper := hnames.helper p hp hloop
  exact (emitRule_cases (emitRule_eq_of_emitRules h hp)).loop hloop hhelper (hhelper.star hloop).1

/-- What a loop lives on as in the rules of a desugared grammar. -/
theorem loopKinds_of_emitRules (hnames : LoopNames C E.grammar)
    (h : emitRules diag E start = .ok rules) :
    LoopKinds rules (heldLoops E rules) (Warm diag E) := by
  refine ⟨fun k rule hk hwarm => ?_, fun p hp => ?_, fun p hp rule hrule => ?_⟩
  · obtain ⟨p, hp, hloop, hmem⟩ := loop_of_lookup hnames h hk hwarm
    obtain ⟨hself, hall⟩ := loopRules_of_emitRules hnames h hp hloop
    rcases hall _ hmem with ⟨rfl, -, rest, hopens, -⟩ | ⟨item, hitem, hstep, -⟩ | ⟨hagain, -⟩
    · exact .inl ⟨p, mem_heldLoops.mpr ⟨hp, hloop, rule, hk, by rw [hopens]; rfl⟩, rfl⟩
    · exact .inr (.inl ⟨item, hitem, p, hp, hloop, hstep⟩)
    · exact .inr (.inr ⟨p.name, hagain, p, hp, hloop, hself⟩)
  · obtain ⟨hp, hloop, -⟩ := mem_heldLoops.mp hp
    exact ⟨p, hp, hloop, (loopRules_of_emitRules hnames h hp hloop).1⟩
  · obtain ⟨hp, hloop, rule', hrule', hentry⟩ := mem_heldLoops.mp hp
    obtain rfl := Option.some.inj (hrule'.symm.trans hrule)
    have hwarm : Warm diag E p.name :=
      ⟨p, hp, hloop, (loopRules_of_emitRules hnames h hp hloop).1⟩
    obtain ⟨q, hq, hloopq, hmem⟩ := loop_of_lookup hnames h hrule hwarm
    rcases (loopRules_of_emitRules hnames h hq hloopq).2 _ hmem with
      ⟨hname, hclose, rest, hopens, hrest⟩ |
      ⟨item, hitem, -⟩ | ⟨hagain, -⟩
    · refine ⟨hclose, rest, ?_, fun o ho => ?_⟩
      · have hname : p.name = q.name := hname
        rw [hopens]
        unfold loopEntry
        rw [hname]
      · obtain ⟨hp', hn', hr'⟩ := hrest o ho
        exact ⟨hp', hn', fun k hk => ⟨q, hq, hloopq, hr' k hk⟩⟩
    · dsimp only at hitem
      rw [hitem] at hentry
      simp [iterationRule, loopEntry] at hentry
    · dsimp only at hagain
      rw [hagain] at hentry
      simp [againRule, loopEntry] at hentry

/-- **The rules of a desugared grammar are a loop table.** -/
theorem loopTable_of_emitRules (hnames : LoopNames C E.grammar) (hC : loopCounter ∉ C)
    (h : emitRules diag E start = .ok rules) :
    LoopTable rules (heldLoops E rules) (Warm diag E) := by
  refine ⟨loopKinds_of_emitRules hnames h, fun k rule hk hwarm => ?_⟩
  rcases writer_of_lookup h hk with ⟨-, rfl⟩ | ⟨before, p, behind, heq, hmem, -⟩
  · exact cold_iff.mpr (by simp [wrapperRule, quiet_none])
  · have hp : p ∈ E.grammar.productions := by
      rw [heq]
      exact List.mem_append_right _ List.mem_cons_self
    have hno : p.repeatLoop = false := by
      rw [← Bool.not_eq_true]
      exact fun hloop => hwarm ⟨p, hp, hloop, List.mem_map_of_mem hmem⟩
    exact (emitRule_cases (emitRule_eq_of_emitRules h hp)).cold hno
      (fun hc => hC (hnames.counters p hp hc)) _ hmem

end

end TabnasBnf
