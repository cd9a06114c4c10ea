import TabnasBnf.EmitRules

/-!
# The emitted rules derive what the grammar does

Each rule beside a production's own stands for symbols of the production it was split off from
(`Stands`): a step of a chain for what is left of its alternative, a loop's iteration for an item
and the loop. Read so, every run of an emitted rule is an alternative of the grammar, and every
alternative is one run, or one that nothing can derive.

* `Emitted.stands`: every path of the emitter.
* **`ruleLang_emitRules`**: the emitted rules derive, for every production, the token strings the
  grammar does.
-/

namespace TabnasBnf

/-! ## Unfolding helper rules -/

/-- A symbol with the rule it may name unfolded. -/
def unfoldSym (T : String → List Sym) : Sym → List Sym
  | .tok t => [.tok t]
  | .rule n => T n

section

variable {T : String → List Sym} {tokens : Tokens}

theorem unfold_toks (ts : List String) :
    (ts.map Sym.tok).flatMap (unfoldSym T) = ts.map Sym.tok := by
  induction ts with
  | nil => rfl
  | cons t ts ih =>
    rw [List.map_cons, List.flatMap_cons, ih]
    rfl

/-- An alternative whose references stand for themselves unfolds to itself. -/
theorem unfold_syms {alt : Sequence}
    (h : ∀ el ∈ alt, ∀ m, el.refName = some m → T m = [.rule m]) :
    (alt.map (sym tokens)).flatMap (unfoldSym T) = alt.map (sym tokens) := by
  induction alt with
  | nil => rfl
  | cons el alt ih =>
    rw [List.map_cons, List.flatMap_cons, ih fun x hx => h x (List.mem_cons_of_mem _ hx)]
    cases el with
    | ref m debt sp => exact congrArg (· ++ _) (h _ List.mem_cons_self m rfl)
    | _ => rfl

theorem unfold_segment {seg : Segment} (h : ∀ m ∈ seg.reference, T m = [.rule m]) :
    seg.syms.flatMap (unfoldSym T) = seg.syms := by
  unfold Segment.syms
  rw [List.flatMap_append, unfold_toks]
  cases href : seg.reference with
  | none => rfl
  | some m => exact congrArg (_ ++ ·) ((List.append_nil _).trans (h m href))

end

/-! ## Bodies -/

theorem bodies_of_capture {rule : RuleSpec}
    (h : rule.close = none ∨ rule.close = some [captureClose none]) :
    rule.bodies = rule.opens.map AltSpec.body := by
  unfold RuleSpec.bodies
  rw [← List.flatMap_singleton' (rule.opens.map AltSpec.body), List.flatMap_map]
  refine List.flatMap_congr fun o _ => ?_
  split
  · rfl
  · rcases h with h | h
    · rw [h]
    · rw [h]
      simp [captureClose, AltSpec.body, AltSpec.effect, AltSpec.consumed, Effect.body]

theorem body_segmentToAlt (seg : Segment) : (segmentToAlt seg).body = seg.syms := by
  unfold AltSpec.body
  rw [effect_segmentToAlt]
  unfold Effect.body Segment.syms
  simp

theorem bodies_chainStep (seg : Segment) (next : String) :
    RuleSpec.bodies ⟨[segmentToAlt seg], some [captureClose (some next)]⟩ =
      [seg.syms ++ [.rule next]] := by
  unfold RuleSpec.bodies
  simp only [List.flatMap_cons, List.flatMap_nil, List.append_nil]
  rw [if_neg (by simp [segmentToAlt]), List.map_singleton, body_segmentToAlt]
  rfl

/-! ## Chains -/

/-- What the steps of a chain stand for: the segments left. -/
def chainTargets (head : String) : Nat → List Segment → List (String × List Sym)
  | _, [] => []
  | i, seg :: segs =>
    (chainName head i, (seg :: segs).flatMap Segment.syms) :: chainTargets head (i + 1) segs

theorem keys_chainTargets (head : String) (segs : List Segment) :
    ∀ i, (chainTargets head i segs).map Prod.fst = (chainFrom head i segs).map Prod.fst := by
  induction segs with
  | nil => exact fun i => rfl
  | cons seg segs ih =>
    intro i
    unfold chainTargets
    rw [List.map_cons, ih, keys_chainFrom, keys_chainFrom, List.length_cons, List.range'_succ,
      List.map_cons]

/-- A step of a chain runs as what it stands for, when the later steps do. -/
theorem sound_chainFrom {T : String → List Sym} {head : String} {segs : List Segment}
    (hrefs : ∀ seg ∈ segs, ∀ m ∈ seg.reference, T m = [.rule m]) :
    ∀ i, (∀ k σ, (k, σ) ∈ (chainTargets head i segs).tail → T k = σ) →
      ∀ k rule, (k, rule) ∈ chainFrom head i segs → ∀ β ∈ rule.bodies,
        (k, β.flatMap (unfoldSym T)) ∈ chainTargets head i segs := by
  induction segs with
  | nil => exact fun i _ k rule h => absurd h List.not_mem_nil
  | cons seg segs ih =>
    have hseg : seg.syms.flatMap (unfoldSym T) = seg.syms :=
      unfold_segment (hrefs seg List.mem_cons_self)
    intro i hT k rule hmem β hβ
    cases segs with
    | nil =>
      obtain ⟨rfl, rfl⟩ := Prod.mk.inj (List.mem_singleton.mp hmem)
      rw [bodies_of_capture (by dsimp only; split <;> simp)] at hβ
      obtain rfl := List.mem_singleton.mp hβ
      rw [body_segmentToAlt, hseg]
      simp [chainTargets]
    | cons seg' segs =>
      rcases List.mem_cons.mp hmem with h | hmem
      · obtain ⟨rfl, rfl⟩ := Prod.mk.inj h
        rw [bodies_chainStep] at hβ
        obtain rfl := List.mem_singleton.mp hβ
        have hnext : T (chainName head (i + 1)) = (seg' :: segs).flatMap Segment.syms :=
          hT _ _ List.mem_cons_self
        rw [List.flatMap_append, hseg]
        unfold chainTargets
        refine List.mem_cons.mpr (.inl ?_)
        simp only [List.flatMap_cons, List.flatMap_nil, List.append_nil, unfoldSym, hnext]
      · refine List.mem_cons_of_mem _ (ih (fun s hs => hrefs s (List.mem_cons_of_mem _ hs)) (i + 1)
          (fun k σ h => hT k σ (List.mem_of_mem_tail h)) k rule hmem β hβ)

/-- A chain derives its segments. -/
theorem complete_chainFrom {L : Sym → Language String} {head : String} {segs : List Segment}
    (hne : segs ≠ []) :
    ∀ i, (∀ k rule, (k, rule) ∈ chainFrom head i segs → ∀ β ∈ rule.bodies,
        Cf.seq L β ≤ L (.rule k)) →
      Cf.seq L (segs.flatMap Segment.syms) ≤ L (.rule (chainName head i)) := by
  induction segs with
  | nil => exact absurd rfl hne
  | cons seg segs ih =>
    intro i hL
    cases segs with
    | nil =>
      refine hL _ _ (List.mem_singleton.mpr rfl) _ ?_
      rw [bodies_of_capture (by dsimp only; split <;> simp), List.map_singleton, body_segmentToAlt]
      simp
    | cons seg' segs =>
      have hrest := ih (by simp) (i + 1) fun k rule h => hL k rule (List.mem_cons_of_mem _ h)
      have hstep := hL _ _ List.mem_cons_self (seg.syms ++ [.rule (chainName head (i + 1))])
        (by rw [bodies_chainStep]; exact List.mem_singleton.mpr rfl)
      refine le_trans ?_ hstep
      rw [List.flatMap_cons, Cf.seq_append, Cf.seq_append, Cf.seq_singleton]
      exact mul_le_mul' (le_refl _) hrest

/-! ## The alternatives of a dispatcher -/

section

variable {E : Emitter} {prod : Production} {i : Nat} {loopItem : Option Element} {alt : Sequence}
  {rules : RuleTable}

variable (E prod) in
/-- What the rules of an alternative stand for: an iteration for the item and the loop. -/
def altTargets (loopItem : Option Element) (i : Nat) (alt : Sequence) : List (String × List Sym) :=
  if alt.isEmpty then []
  else
    match loopItem with
    | some item =>
      [(altName prod.name i, [sym E.tokens item, .rule prod.name]),
       (stepName (altName prod.name i) 1, [.rule prod.name])]
    | none => chainTargets (altName prod.name i) 0 (segmentize E.tokens alt)

theorem keys_altTargets (h : EmittedAlt E prod i loopItem alt rules) :
    (altTargets E prod loopItem i alt).map Prod.fst = rules.map Prod.fst := by
  unfold altTargets
  cases h with
  | empty => rfl
  | loop halt hitem =>
    rw [if_neg (by simpa using halt)]
    rfl
  | chain halt =>
    rw [if_neg (by simpa using halt)]
    exact keys_chainTargets _ _ _

/-- The references of an alternative stand for themselves. -/
def SelfRefs (T : String → List Sym) (alt : Sequence) : Prop :=
  ∀ el ∈ alt, ∀ m, el.refName = some m → T m = [.rule m]

theorem SelfRefs.segments {T : String → List Sym} (h : SelfRefs T alt) :
    ∀ seg ∈ segmentize E.tokens alt, ∀ m ∈ seg.reference, T m = [.rule m] := by
  intro seg hseg m hm
  obtain ⟨el, hel, href⟩ := refName_of_segment hseg hm
  exact h el hel m href

theorem target_chain (hplain : ∀ el ∈ alt, el.isTerminal = true ∨ el.isRef = true)
    {T : String → List Sym} {head : String}
    (hT : ∀ k σ, (k, σ) ∈ chainTargets head 0 (segmentize E.tokens alt) → T k = σ) :
    T head = alt.map (sym E.tokens) := by
  cases hsegs : segmentize E.tokens alt with
  | nil => exact absurd hsegs (segmentize_ne_nil alt)
  | cons seg segs =>
    rw [← flatMap_segmentize hplain, hsegs]
    refine hT head _ ?_
    rw [hsegs]
    exact List.mem_cons_self

/-- The rule of an alternative stands for it. -/
theorem target_altName (halt : alt ∈ prod.alts) (hne : alt ≠ [])
    (hplain : ∀ el ∈ alt, el.isTerminal = true ∨ el.isRef = true)
    (hitem : ∀ item ∈ loopItem, LoopOf prod item) {T : String → List Sym}
    (hT : ∀ k σ, (k, σ) ∈ altTargets E prod loopItem i alt → T k = σ) :
    T (altName prod.name i) = alt.map (sym E.tokens) := by
  unfold altTargets at hT
  rw [if_neg (by simpa using hne)] at hT
  cases loopItem with
  | none => exact target_chain hplain hT
  | some item =>
    rw [hT _ _ List.mem_cons_self]
    obtain ⟨self, hself, rfl⟩ := ((hitem item rfl).alts alt halt).resolve_left hne
    obtain ⟨debt, sp, rfl⟩ := Element.refName_eq_some.mp (Element.isRefTo_iff.mp hself)
    rfl

/-- The rules of an alternative run as what they stand for. -/
theorem sound_emittedAlt (h : EmittedAlt E prod i loopItem alt rules) (halt : alt ∈ prod.alts)
    (hitem : ∀ item ∈ loopItem, LoopOf prod item) {T : String → List Sym}
    (hself : T prod.name = [.rule prod.name]) (hrefs : SelfRefs T alt)
    (hT : ∀ k σ, (k, σ) ∈ altTargets E prod loopItem i alt → T k = σ) :
    ∀ k rule, (k, rule) ∈ rules → ∀ β ∈ rule.bodies, β.flatMap (unfoldSym T) = T k := by
  unfold altTargets at hT
  cases h with
  | empty => exact fun k rule h => absurd h List.not_mem_nil
  | @loop _ item itemName hne hname =>
    rw [if_neg (by simpa using hne)] at hT
    have hstep := hT _ _ (List.mem_cons_of_mem _ List.mem_cons_self)
    have hiter := hT _ _ List.mem_cons_self
    rw [sym_of_refName hname] at hiter
    obtain ⟨self, -, rfl⟩ := ((hitem item rfl).alts alt halt).resolve_left hne
    have hitemSelf : T itemName = [.rule itemName] := hrefs item List.mem_cons_self itemName hname
    intro k rule hmem β hβ
    simp only [List.mem_cons, Prod.mk.injEq, List.not_mem_nil, or_false] at hmem
    rcases hmem with ⟨rfl, rfl⟩ | ⟨rfl, rfl⟩
    · obtain rfl : β = [.rule itemName, .rule (stepName (altName prod.name i) 1)] :=
        List.mem_singleton.mp hβ
      simp only [List.flatMap_cons, List.flatMap_nil, unfoldSym, hitemSelf, hstep, hiter]
      rfl
    · obtain rfl : β = [.rule prod.name] := List.mem_singleton.mp hβ
      simp only [List.flatMap_cons, List.flatMap_nil, unfoldSym, hself, hstep]
      rfl
  | chain hne =>
    rw [if_neg (by simpa using hne)] at hT
    intro k rule hmem β hβ
    refine (hT _ _ ?_).symm
    exact sound_chainFrom (hrefs.segments) 0 (fun k σ h => hT k σ (List.mem_of_mem_tail h)) k rule
      hmem β hβ

/-- The rule of an alternative derives it. -/
theorem complete_emittedAlt (h : EmittedAlt E prod i loopItem alt rules) (hne : alt ≠ [])
    (halt : alt ∈ prod.alts) (hplain : ∀ el ∈ alt, el.isTerminal = true ∨ el.isRef = true)
    (hitem : ∀ item ∈ loopItem, LoopOf prod item) {L : Sym → Language String}
    (hL : ∀ k rule, (k, rule) ∈ rules → ∀ β ∈ rule.bodies, Cf.seq L β ≤ L (.rule k)) :
    Cf.seq L (alt.map (sym E.tokens)) ≤ L (.rule (altName prod.name i)) := by
  cases h with
  | empty => exact absurd rfl hne
  | @loop _ item itemName _ hname =>
    obtain ⟨self, hself, rfl⟩ := ((hitem item rfl).alts alt halt).resolve_left hne
    obtain ⟨debt, sp, rfl⟩ := Element.refName_eq_some.mp (Element.isRefTo_iff.mp hself)
    have hiter := hL _ _ List.mem_cons_self
      [.rule itemName, .rule (stepName (altName prod.name i) 1)] (List.mem_singleton.mpr rfl)
    have hstep := hL _ _ (List.mem_cons_of_mem _ List.mem_cons_self) [.rule prod.name]
      (List.mem_singleton.mpr rfl)
    refine le_trans ?_ hiter
    rw [Cf.seq_singleton] at hstep
    simp only [List.map_cons, List.map_nil, sym_of_refName hname, Cf.seq_cons, Cf.seq_nil, mul_one]
    exact mul_le_mul' (le_refl _) hstep
  | chain _ =>
    rw [← flatMap_segmentize hplain]
    exact complete_chainFrom (segmentize_ne_nil alt) 0 hL

/-! ## Rules of single segments -/

theorem syms_segmentOf (hsingle : isSingleSegment alt = true)
    (hplain : ∀ el ∈ alt, el.isTerminal = true ∨ el.isRef = true) :
    (segmentOf E.tokens alt).syms = alt.map (sym E.tokens) := by
  rw [← flatMap_segmentize hplain, segmentize_single hsingle]
  simp [segmentOf]

/-- The segment of a loop's alternative of single segments: a terminal, and the loop. -/
theorem segmentOf_loop {item self : Element}
    (hsingle : isSingleSegment [item, self] = true) (hself : self.isRefTo prod.name = true) :
    (segmentOf E.tokens [item, self]).terms = [E.tokens.name item] ∧
      (segmentOf E.tokens [item, self]).reference = some prod.name := by
  obtain ⟨debt, sp, rfl⟩ := Element.refName_eq_some.mp (Element.isRefTo_iff.mp hself)
  have hterm : item.isTerminal = true := by
    simp only [isSingleSegment, Bool.and_eq_true] at hsingle
    exact hsingle.1
  cases item <;> first | exact ⟨rfl, rfl⟩ | simp [Element.isTerminal] at hterm

variable {isLoop : Bool}

/-- A single segment runs as its alternative. -/
theorem body_singleAlternate (hsingle : isSingleSegment alt = true)
    (hplain : ∀ el ∈ alt, el.isTerminal = true ∨ el.isRef = true)
    (hloop : isLoop = true → alt = [] ∨ ∃ item self, self.isRefTo prod.name = true ∧
      alt = [item, self]) :
    (singleAlternate prod isLoop alt (segmentOf E.tokens alt)).effect.body =
      alt.map (sym E.tokens) := by
  rw [← syms_segmentOf hsingle hplain]
  by_cases hcont : (isLoop && !alt.isEmpty) = true
  · have hcont' := hcont
    simp only [Bool.and_eq_true, Bool.not_eq_true', List.isEmpty_eq_false_iff] at hcont'
    obtain ⟨item, self, hself, rfl⟩ := (hloop hcont'.1).resolve_left hcont'.2
    obtain ⟨hterms, href⟩ := segmentOf_loop (E := E) hsingle hself
    unfold singleAlternate Segment.syms
    rw [if_pos hcont, hterms, href]
    rfl
  · unfold singleAlternate
    rw [if_neg hcont]
    exact body_segmentToAlt _

/-- The bodies of a rule of single segments: its alternatives, and the loop's entry. -/
theorem mem_bodies_singleRule (hsingle : ∀ alt ∈ prod.alts, isSingleSegment alt = true)
    (hplain : ∀ alt ∈ prod.alts, ∀ el ∈ alt, el.isTerminal = true ∨ el.isRef = true)
    (hloop : isLoop = true → ∀ alt ∈ prod.alts, alt = [] ∨ ∃ item self,
      self.isRefTo prod.name = true ∧ alt = [item, self]) :
    (∀ β ∈ (singleRule E prod isLoop).bodies, β = [.rule prod.name] ∨
        ∃ alt ∈ prod.alts, β = alt.map (sym E.tokens)) ∧
      ∀ alt ∈ prod.alts, firstOfAlt E.tokens E.sets alt ≠ some [] →
        alt.map (sym E.tokens) ∈ (singleRule E prod isLoop).bodies := by
  have hbodies : (singleRule E prod isLoop).bodies =
      (if isLoop then [(loopEntry prod).body] else []) ++
        ((placeEntries E prod (allSingleEntries E prod isLoop)).map AltSpec.effect).map
          Effect.body := by
    rw [bodies_of_capture (by unfold singleRule; dsimp only; split <;> [simp; split <;> simp])]
    unfold singleRule
    rw [List.map_map]
    cases isLoop <;> rfl
  have heffect : ∀ {alt : Sequence} {idx : Nat}, alt ∈ prod.alts → ∀ e : Entry,
      e ∈ (singleEntries E prod isLoop (emptyAltsLast prod.alts) idx alt).1 ++
        (singleEntries E prod isLoop (emptyAltsLast prod.alts) idx alt).2 →
      e.o.effect.body = alt.map (sym E.tokens) := by
    intro alt idx halt e he
    rw [effect_singleEntries ?_ he]
    · exact body_singleAlternate (hsingle alt halt) (hplain alt halt) fun h => hloop h alt halt
    · intro hl hne
      obtain ⟨item, self, hself, rfl⟩ := (hloop hl alt halt).resolve_left hne
      rw [(segmentOf_loop (E := E) (hsingle _ halt) hself).1]
      simp
  rw [hbodies]
  constructor
  · intro β hβ
    rcases List.mem_append.mp hβ with hβ | hβ
    · left
      split at hβ
      · exact List.mem_singleton.mp hβ
      · cases hβ
    · obtain ⟨f, hf, rfl⟩ := List.mem_map.mp hβ
      obtain ⟨e, he, rfl⟩ := List.mem_map.mp (mem_effect_placeEntries.mp hf)
      obtain ⟨alt, idx, hat, he⟩ := mem_allSingleEntries.mp he
      have halt : alt ∈ prod.alts := mem_emptyAltsLast.mp (List.fst_mem_of_mem_zipIdx hat)
      exact .inr ⟨alt, halt, heffect halt e he⟩
  · intro alt halt hfirst
    obtain ⟨idx, hidx⟩ := List.mem_iff_getElem?.mp (mem_emptyAltsLast.mpr halt)
    have hat := List.mk_mem_zipIdx_iff_getElem?.mpr hidx
    have hsome : (singleEntries E prod isLoop (emptyAltsLast prod.alts) idx alt).2 ≠ [] :=
      singleEntries_ne_nil hfirst
    obtain ⟨e, he⟩ := List.exists_mem_of_ne_nil _ hsome
    have he := List.mem_append_right
      (singleEntries E prod isLoop (emptyAltsLast prod.alts) idx alt).1 he
    refine List.mem_append_right _ (List.mem_map.mpr ⟨e.o.effect, ?_, heffect halt e he⟩)
    refine mem_effect_placeEntries.mpr (List.mem_map_of_mem ?_)
    exact mem_allSingleEntries.mpr ⟨alt, idx, hat, he⟩

/-! ## Every path of the emitter -/

variable {diag : String}

variable (E prod) in
/-- The rules of a production, the symbols `ts` they stand for, and what they derive with them. -/
structure Stands (rules : RuleTable) (ts : List (String × List Sym)) : Prop where
  keys : ts.map Prod.fst = rules.map Prod.fst
  own : (prod.name, [.rule prod.name]) ∈ ts
  /-- A run is what the rule stands for, or an alternative of the production. -/
  sound : ∀ T : String → List Sym, (∀ k σ, (k, σ) ∈ ts → T k = σ) →
    (∀ alt ∈ prod.alts, SelfRefs T alt) → ∀ k rule, (k, rule) ∈ rules → ∀ β ∈ rule.bodies,
      β.flatMap (unfoldSym T) = T k ∨
        k = prod.name ∧ ∃ alt ∈ prod.alts, β.flatMap (unfoldSym T) = alt.map (sym E.tokens)
  /-- An alternative is derived, unless FIRST knows no token of it. -/
  complete : ∀ L : Sym → Language String,
    (∀ k rule, (k, rule) ∈ rules → ∀ β ∈ rule.bodies, Cf.seq L β ≤ L (.rule k)) →
    ∀ alt ∈ prod.alts, firstOfAlt E.tokens E.sets alt ≠ some [] →
      Cf.seq L (alt.map (sym E.tokens)) ≤ L (.rule prod.name)

/-- The rule of a production of single segments. -/
theorem stands_single (hitem : ∀ item ∈ loopItem, LoopOf prod item)
    (hsingle : ∀ alt ∈ prod.alts, isSingleSegment alt = true)
    (hplain : ∀ alt ∈ prod.alts, ∀ el ∈ alt, el.isTerminal = true ∨ el.isRef = true) :
    Stands E prod [(prod.name, singleRule E prod loopItem.isSome)]
      [(prod.name, [.rule prod.name])] := by
  have hloop : loopItem.isSome = true → ∀ alt ∈ prod.alts, alt = [] ∨ ∃ item self,
      self.isRefTo prod.name = true ∧ alt = [item, self] := by
    intro hl alt halt
    obtain ⟨item, hi⟩ := Option.isSome_iff_exists.mp hl
    rcases (hitem item hi).alts alt halt with h | ⟨self, hself, h⟩
    · exact .inl h
    · exact .inr ⟨item, self, hself, h⟩
  obtain ⟨hsound, hcomplete⟩ := mem_bodies_singleRule (E := E) hsingle hplain hloop
  refine ⟨rfl, List.mem_singleton.mpr rfl, fun T hT hrefs k rule hmem β hβ => ?_,
    fun L hL alt halt hfirst => ?_⟩
  · obtain ⟨rfl, rfl⟩ := Prod.mk.inj (List.mem_singleton.mp hmem)
    rcases hsound β hβ with rfl | ⟨alt, halt, rfl⟩
    · left
      simp [unfoldSym]
    · exact .inr ⟨rfl, alt, halt, unfold_syms (hrefs alt halt)⟩
  · exact hL _ _ (List.mem_singleton.mpr rfl) _ (hcomplete alt halt hfirst)

/-- The chain of a production of one alternative. -/
theorem stands_chain (halts : prod.alts = [alt])
    (hplain : ∀ el ∈ alt, el.isTerminal = true ∨ el.isRef = true) :
    Stands E prod (chainFrom prod.name 0 (segmentize E.tokens alt))
      ((prod.name, [.rule prod.name]) ::
        (chainTargets prod.name 0 (segmentize E.tokens alt)).tail) := by
  have halt : alt ∈ prod.alts := by
    rw [halts]
    exact List.mem_singleton.mpr rfl
  refine ⟨?_, List.mem_cons_self, fun T hT hrefs k rule hmem β hβ => ?_,
    fun L hL alt' halt' hfirst => ?_⟩
  · rw [← keys_chainTargets]
    cases hsegs : segmentize E.tokens alt with
    | nil => exact absurd hsegs (segmentize_ne_nil alt)
    | cons seg segs => rfl
  · have hσ := sound_chainFrom (hrefs alt halt).segments 0
      (fun k σ h => hT k σ (List.mem_cons_of_mem _ h)) k rule hmem β hβ
    cases hsegs : segmentize E.tokens alt with
    | nil => exact absurd hsegs (segmentize_ne_nil alt)
    | cons seg segs =>
      rw [hsegs] at hσ
      rcases List.mem_cons.mp hσ with hσ | hσ
      · obtain ⟨rfl, heq⟩ := Prod.mk.inj hσ
        refine .inr ⟨rfl, alt, halt, ?_⟩
        rw [heq, ← hsegs, flatMap_segmentize hplain]
      · refine .inl (hT k _ (List.mem_cons_of_mem _ ?_)).symm
        rw [hsegs]
        exact hσ
  · rw [halts] at halt'
    obtain rfl := List.mem_singleton.mp halt'
    rw [← flatMap_segmentize hplain]
    exact complete_chainFrom (segmentize_ne_nil alt') 0 hL

theorem body_descentTo (isLoop : Bool) (name : String) :
    (descentTo isLoop name).body = [.rule name] := by
  unfold descentTo Effect.body
  cases isLoop <;> rfl

variable (E prod) in
/-- The rule of a dispatcher. -/
def dispatcherRule (isLoop : Bool) (entries : List Entry) : RuleSpec :=
  if isLoop then ⟨loopEntry prod :: placeEntries E prod entries, none⟩
  else ⟨placeEntries E prod entries, some [captureClose none]⟩

/-- The bodies of a dispatcher: what its entries do, and a loop's entry. -/
theorem mem_bodies_dispatcherRule {entries : List Entry} {β : List Sym} :
    β ∈ (dispatcherRule E prod isLoop entries).bodies ↔
      isLoop = true ∧ β = [.rule prod.name] ∨ ∃ e ∈ entries, β = e.o.effect.body := by
  have hplaced : β ∈ (placeEntries E prod entries).map AltSpec.body ↔
      ∃ e ∈ entries, β = e.o.effect.body := by
    rw [show (placeEntries E prod entries).map AltSpec.body =
      ((placeEntries E prod entries).map AltSpec.effect).map Effect.body by rw [List.map_map]; rfl]
    constructor
    · intro h
      obtain ⟨f, hf, rfl⟩ := List.mem_map.mp h
      obtain ⟨e, he, rfl⟩ := List.mem_map.mp (mem_effect_placeEntries.mp hf)
      exact ⟨e, he, rfl⟩
    · rintro ⟨e, he, rfl⟩
      exact List.mem_map_of_mem (mem_effect_placeEntries.mpr
        (List.mem_map_of_mem (f := fun e : Entry => e.o.effect) he))
  unfold dispatcherRule
  cases isLoop with
  | false =>
    rw [if_neg Bool.false_ne_true, bodies_of_capture (.inr rfl), hplaced]
    simp
  | true =>
    rw [if_pos rfl, bodies_of_capture (.inl rfl), List.map_cons, List.mem_cons, hplaced]
    simp only [true_and]
    exact Iff.rfl

/-- A dispatcher and the rules of its alternatives. -/
theorem stands_dispatch {dispatch : List DispatchPrefixes} {impls : List RuleTable}
    {entries : List Entry} (hitem : ∀ item ∈ loopItem, LoopOf prod item)
    (hlen : dispatch.length = prod.alts.length)
    (himpls : List.Forall₂ (fun (x : Sequence × Nat) rs => EmittedAlt E prod x.2 loopItem x.1 rs)
      prod.alts.zipIdx impls)
    (hentries : dispatchEntries diag E prod loopItem.isSome dispatch = .ok entries)
    (hplain : ∀ alt ∈ prod.alts, ∀ el ∈ alt, el.isTerminal = true ∨ el.isRef = true) :
    Stands E prod (impls.flatten ++ [(prod.name, dispatcherRule E prod loopItem.isSome entries)])
      ((prod.alts.zipIdx.map fun (alt, i) => altTargets E prod loopItem i alt).flatten ++
        [(prod.name, [.rule prod.name])]) where
  keys := by
    have hkeys : List.Forall₂ (· = ·)
        ((prod.alts.zipIdx.map fun (alt, i) => altTargets E prod loopItem i alt).map
          (List.map Prod.fst)) (impls.map (List.map Prod.fst)) := by
      rw [List.map_map, List.forall₂_map_left_iff, List.forall₂_map_right_iff]
      exact himpls.imp fun x rs h => keys_altTargets h
    rw [List.forall₂_eq_eq_eq] at hkeys
    rw [List.map_append, List.map_append, List.map_flatten, List.map_flatten, hkeys]
    rfl
  own := List.mem_append_right _ (List.mem_singleton.mpr rfl)
  sound := by
    intro T hT hrefs k rule hmem β hβ
    have hown : T prod.name = [.rule prod.name] :=
      hT _ _ (List.mem_append_right _ (List.mem_singleton.mpr rfl))
    have hat : ∀ (i : Nat) (alt : Sequence), prod.alts[i]? = some alt →
        ∀ k σ, (k, σ) ∈ altTargets E prod loopItem i alt → T k = σ := by
      intro i alt hi k σ h
      refine hT k σ (List.mem_append_left _ (List.mem_flatten.mpr ⟨_, ?_, h⟩))
      exact List.mem_map.mpr ⟨(alt, i), List.mk_mem_zipIdx_iff_getElem?.mpr hi, rfl⟩
    rcases List.mem_append.mp hmem with hmem | hmem
    · obtain ⟨rs, hrs, hmem⟩ := List.mem_flatten.mp hmem
      obtain ⟨i, hi⟩ := List.mem_iff_getElem?.mp hrs
      obtain ⟨alt, halt, hemitted⟩ := emittedAlt_get himpls hi
      have hmemAlt := List.mem_of_getElem? halt
      exact .inl (sound_emittedAlt hemitted hmemAlt hitem hown (hrefs alt hmemAlt) (hat i alt halt)
        k rule hmem β hβ)
    · obtain ⟨rfl, rfl⟩ := Prod.mk.inj (List.mem_singleton.mp hmem)
      rcases mem_bodies_dispatcherRule.mp hβ with ⟨-, rfl⟩ | ⟨e, he, rfl⟩
      · left
        simp [unfoldSym]
      · rcases effect_dispatchEntries hentries he with ⟨i, alt, halt, hne, heff⟩ | ⟨hempty, heff⟩
        · have hmemAlt := List.mem_of_getElem? halt
          refine .inr ⟨rfl, alt, hmemAlt, ?_⟩
          rw [heff, body_descentTo, List.flatMap_singleton]
          exact target_altName hmemAlt hne (hplain alt hmemAlt) hitem (hat i alt halt)
        · refine .inr ⟨rfl, [], hempty, ?_⟩
          rw [heff]
          rfl
  complete := by
    intro L hL alt halt hfirst
    have hrule := hL prod.name _ (List.mem_append_right _ (List.mem_singleton.mpr rfl))
    by_cases hne : alt = []
    · subst hne
      exact hrule _ (mem_bodies_dispatcherRule.mpr
        (.inr ⟨⟨{}, none⟩, mem_dispatchEntries_of_empty hentries halt, rfl⟩))
    · obtain ⟨i, hi⟩ := List.mem_iff_getElem?.mp halt
      obtain ⟨e, he, heff⟩ := exists_dispatchEntry hentries hlen hi hne hfirst
      have hdescent := hrule _ (mem_bodies_dispatcherRule.mpr (.inr ⟨e, he, rfl⟩))
      rw [heff, body_descentTo, Cf.seq_singleton] at hdescent
      refine le_trans ?_ hdescent
      obtain ⟨rs, hrs, hemitted⟩ := exists_right_of_forall₂ himpls
        (List.mk_mem_zipIdx_iff_getElem?.mpr hi)
      exact complete_emittedAlt hemitted hne halt (hplain alt halt) hitem fun k rule h =>
        hL k rule (List.mem_append_left _ (List.mem_flatten.mpr ⟨rs, hrs, h⟩))

/-- **Every path of the emitter** splits a production into rules that stand for it. -/
theorem Emitted.stands (h : Emitted diag E prod rules) (hhelper : prod.probeHelper = none)
    (hpd : prod.probeDispatch = none) (htail : prod.tailRepeat = none)
    (hplain : ∀ alt ∈ prod.alts, ∀ el ∈ alt, el.isTerminal = true ∨ el.isRef = true) :
    ∃ ts, Stands E prod rules ts := by
  cases h with
  | probeHelper h => rw [hhelper] at h; cases h
  | probeDispatch h hrule => rw [hpd] at h; cases h
  | tailRepeat h => rw [htail] at h; cases h
  | single hitem hloop hsingle => exact ⟨_, stands_single hitem hsingle hplain⟩
  | @chain alt halts =>
    refine ⟨_, stands_chain halts (hplain alt ?_)⟩
    rw [halts]
    exact List.mem_singleton.mpr rfl
  | dispatch hitem hloop hdispatch himpls hentries =>
    exact ⟨_, stands_dispatch hitem (length_dispatchPrefixes hdispatch) himpls hentries hplain⟩

end

/-! ## All rules together -/

/-- Names FIRST calls dead derive nothing, where each of their alternatives refers to another. -/
theorem lang_of_deadAlts {tokens : Tokens} {sets : FirstSets} {ps : List Production}
    (halts : ∀ p ∈ ps, sets.Dead p.name → ∀ alt ∈ p.alts,
      ∃ el ∈ alt, ∃ m, el.refName = some m ∧ sets.Dead m) {n : String} (hdead : sets.Dead n) :
    Cf.lang (produces tokens ps) symLeaf (.rule n) = 0 := by
  classical
  refine le_antisymm ?_ bot_le
  have hle := Cf.lang_le (R := produces tokens ps) (τ := symLeaf)
    (L := fun s => match s with
      | .tok _ => ⊤
      | .rule m => if sets.Dead m then 0 else ⊤) ?_ ?_ (.rule n)
  · dsimp only at hle
    rwa [if_pos hdead] at hle
  · rintro (t | m)
    · exact le_top
    · exact bot_le
  · rintro (t | m) β h
    · exact h.elim
    · obtain ⟨p, hp, rfl, alt, halt, rfl⟩ := h
      dsimp only
      split
      · next hm =>
        obtain ⟨el, hel, m, href, hm⟩ := halts p hp hm alt halt
        refine (Cf.seq_of_mem_zero (List.mem_map_of_mem hel) ?_).le
        rw [sym_of_refName href]
        exact if_pos hm
      · exact le_top

theorem lang_of_dead {grammar : Grammar} {tokens : Tokens} {classSets : List (String × String)}
    {sets : FirstSets} (hclosed : FirstClosed grammar tokens classSets sets) {n : String}
    (hdead : sets.Dead n) : Cf.lang (produces tokens grammar.productions) symLeaf (.rule n) = 0 :=
  lang_of_deadAlts (fun _ hp hm _ halt => hclosed.dead_alt hp hm halt) hdead

/-- Rules that differ in debts alone have the same alternatives. -/
theorem SameRule.syms_mem {p p' : Production} (h : SameRule p p') (tokens : Tokens)
    {alt : Sequence} (halt : alt ∈ p'.alts) :
    ∃ alt' ∈ p.alts, alt.map (sym tokens) = alt'.map (sym tokens) := by
  have hsym : ∀ alt : Sequence, (alt.map eraseDebt).map (sym tokens) = alt.map (sym tokens) := by
    intro alt
    rw [List.map_map]
    exact List.map_congr_left fun el _ => sym_eraseDebt el
  have hmem := List.mem_map_of_mem (f := List.map eraseDebt) halt
  rw [h.alts] at hmem
  obtain ⟨alt', halt', heq⟩ := List.mem_map.mp hmem
  exact ⟨alt', halt', by rw [← hsym alt, ← hsym alt', heq]⟩

theorem SameRule.symm {p p' : Production} (h : SameRule p p') : SameRule p' p :=
  ⟨h.name.symm, h.alts.symm, h.tailRepeat.symm, h.probeHelper.symm, h.probeDispatch.symm,
    h.repeatLoop.symm⟩

/-- The settling of the debts changes no production. -/
theorem produces_of_sameRules (tokens : Tokens) {g g' : Grammar} (h : SameRules g g') :
    produces tokens g'.productions = produces tokens g.productions := by
  funext s β
  cases s with
  | tok t => rfl
  | rule n =>
    refine propext ⟨?_, ?_⟩
    · rintro ⟨p', hp', rfl, alt, halt, rfl⟩
      obtain ⟨p, hp, hsame⟩ := exists_left_of_forall₂ h hp'
      obtain ⟨alt', halt', heq⟩ := hsame.syms_mem tokens halt
      exact ⟨p, hp, hsame.name.symm, alt', halt', heq⟩
    · rintro ⟨p, hp, rfl, alt, halt, rfl⟩
      obtain ⟨p', hp', hsame⟩ := exists_right_of_forall₂ h hp
      obtain ⟨alt', halt', heq⟩ := hsame.symm.syms_mem tokens halt
      exact ⟨p', hp', hsame.name, alt', halt', heq⟩

/-- A production with its rules and what they stand for. -/
structure Standing where
  prod : Production
  rules : RuleTable
  targets : List (String × List Sym)

/-- What every rule stands for, read off the targets. -/
def unfolding (units : List Standing) (k : String) : List Sym :=
  ((units.flatMap Standing.targets).lookup k).getD [.rule k]

/-- A table that holds the rules of productions, each of which stands for its own, and beside them
rules that none of the names is. -/
structure Tabled (E : Emitter) (names : List String) (units : List Standing) (rules : RuleTable) :
    Prop where
  stands : ∀ u ∈ units, Stands E u.prod u.rules u.targets
  nodup : ((units.flatMap Standing.rules).map Prod.fst).Nodup
  lookup : ∀ u ∈ units, ∀ k rule, (k, rule) ∈ u.rules → rules.lookup k = some rule
  rows : ∀ k rule, rules.lookup k = some rule →
    (∃ u ∈ units, (k, rule) ∈ u.rules) ∨
      k ∉ names ∧ k ∉ (units.flatMap Standing.rules).map Prod.fst
  named : ∀ m ∈ names, (∃ u ∈ units, u.prod.name = m) ∨
    m ∉ (units.flatMap Standing.rules).map Prod.fst
  own : ∀ u ∈ units, u.prod.name ∈ names

section

variable {E : Emitter} {names : List String} {units : List Standing} {rules : RuleTable}

theorem Tabled.keys (h : Tabled E names units rules) :
    (units.flatMap Standing.targets).map Prod.fst = (units.flatMap Standing.rules).map Prod.fst := by
  rw [List.map_flatMap, List.map_flatMap]
  exact List.flatMap_congr fun u hu => (h.stands u hu).keys

theorem Tabled.unfolding_of_mem (h : Tabled E names units rules) {u : Standing} (hu : u ∈ units)
    {k : String} {σ : List Sym} (hσ : (k, σ) ∈ u.targets) : unfolding units k = σ := by
  unfold unfolding
  rw [Table.lookup_of_mem (by rw [h.keys]; exact h.nodup) (List.mem_flatMap.mpr ⟨u, hu, hσ⟩)]
  rfl

theorem Tabled.unfolding_of_notMem (h : Tabled E names units rules) {k : String}
    (hk : k ∉ (units.flatMap Standing.rules).map Prod.fst) : unfolding units k = [.rule k] := by
  unfold unfolding
  cases hsome : (units.flatMap Standing.targets).lookup k with
  | none => rfl
  | some σ =>
    have hkey := List.mem_map_of_mem (f := Prod.fst) (Table.mem_of_lookup hsome)
    rw [h.keys] at hkey
    exact absurd hkey hk

theorem Tabled.unfolding_name (h : Tabled E names units rules) {m : String} (hm : m ∈ names) :
    unfolding units m = [.rule m] := by
  rcases h.named m hm with ⟨u, hu, rfl⟩ | hm
  · exact h.unfolding_of_mem hu (h.stands u hu).own
  · exact h.unfolding_of_notMem hm

/-- The rules derive no more than the productions. -/
theorem Tabled.ruleLang_le (h : Tabled E names units rules)
    (hrefs : ∀ u ∈ units, ∀ alt ∈ u.prod.alts, ∀ el ∈ alt, ∀ m, el.refName = some m → m ∈ names)
    {n : String} (hn : n ∈ names) : ruleLang rules n ≤
      Cf.lang (produces E.tokens (units.map Standing.prod)) symLeaf (.rule n) := by
  classical
  -- the rules beside the productions' are no one's reference, and may derive anything
  let G := Cf.lang (produces E.tokens (units.map Standing.prod)) symLeaf
  let L : Sym → Language String := fun s =>
    if ∃ k, s = .rule k ∧ k ∉ names ∧ k ∉ (units.flatMap Standing.rules).map Prod.fst then ⊤
    else G s
  have hL : ∀ m ∈ names, L (.rule m) = G (.rule m) := by
    intro m hm
    refine if_neg ?_
    rintro ⟨k, hk, hnot, -⟩
    cases hk
    exact hnot hm
  have htok : ∀ t, L (.tok t) = G (.tok t) := fun t => if_neg (by simp)
  have hle := Cf.lang_le_unfold (R := emits rules) (τ := symLeaf) (L := L)
    (unfoldSym (unfolding units)) ?_ ?_ (.rule n)
  · simp only [unfoldSym, h.unfolding_name hn, Cf.seq_singleton, hL n hn] at hle
    exact hle
  · rintro (t | m)
    · refine (Cf.leaf_le_lang (R := produces E.tokens (units.map Standing.prod)) _).trans ?_
      rw [unfoldSym, Cf.seq_singleton, htok]
    · exact bot_le
  · rintro (t | k) β hβ
    · exact hβ.elim
    · obtain ⟨rule, hlookup, hβ⟩ := hβ
      rcases h.rows k rule hlookup with ⟨u, hu, hmem⟩ | ⟨hnot, hkey⟩
      · have hself : ∀ alt ∈ u.prod.alts, SelfRefs (unfolding units) alt :=
          fun alt halt el hel m hm => h.unfolding_name (hrefs u hu alt halt el hel m hm)
        rcases (h.stands u hu).sound _ (fun k σ hσ => h.unfolding_of_mem hu hσ) hself k rule hmem β
          hβ with heq | ⟨rfl, alt, halt, heq⟩
        · exact (congrArg (Cf.seq L) heq).le
        · have hown := h.own u hu
          simp only [heq, unfoldSym, h.unfolding_name hown, Cf.seq_singleton, hL _ hown]
          refine le_trans (Cf.seq_mono fun s hs => ?_)
            (Cf.rule_le_lang ⟨u.prod, List.mem_map_of_mem hu, rfl, alt, halt, rfl⟩)
          obtain ⟨el, hel, rfl⟩ := List.mem_map.mp hs
          cases href : el.refName with
          | some m =>
            rw [sym_of_refName href]
            exact (hL m (hrefs u hu alt halt el hel m href)).le
          | none =>
            obtain ⟨t, ht⟩ := sym_of_refName_none E.tokens href
            rw [ht]
            exact (htok t).le
      · simp only [unfoldSym, h.unfolding_of_notMem hkey, Cf.seq_singleton]
        exact le_top.trans_eq (if_pos ⟨k, rfl, hnot, hkey⟩).symm

/-- The rules derive what the productions do, dead names aside. -/
theorem Tabled.le_ruleLang (h : Tabled E names units rules)
    (hdead : ∀ m, E.sets.Dead m →
      Cf.lang (produces E.tokens (units.map Standing.prod)) symLeaf (.rule m) = 0) (n : String) :
    Cf.lang (produces E.tokens (units.map Standing.prod)) symLeaf (.rule n) ≤ ruleLang rules n := by
  have hle := Cf.lang_le (R := produces E.tokens (units.map Standing.prod)) (τ := symLeaf)
    (L := fun s => Cf.lang (emits rules) symLeaf s ⊓
      Cf.lang (produces E.tokens (units.map Standing.prod)) symLeaf s)
    (fun s => le_inf (Cf.leaf_le_lang s) (Cf.leaf_le_lang s)) ?_ (.rule n)
  · exact hle.trans inf_le_left
  · intro s β hβ
    refine le_inf ?_ ((Cf.seq_mono fun s _ => inf_le_right).trans (Cf.rule_le_lang hβ))
    cases s with
    | tok t => exact hβ.elim
    | rule m =>
      obtain ⟨p, hp, rfl, alt, halt, rfl⟩ := hβ
      obtain ⟨u, hu, rfl⟩ := List.mem_map.mp hp
      by_cases hfirst : firstOfAlt E.tokens E.sets alt = some []
      · obtain ⟨el, hel, m, href, hm⟩ := dead_of_firstOfAlt hfirst
        refine (Cf.seq_of_mem_zero (List.mem_map_of_mem hel) ?_).le.trans bot_le
        rw [sym_of_refName href]
        exact le_antisymm (inf_le_right.trans (hdead m hm).le) bot_le
      · refine (Cf.seq_mono fun s _ => inf_le_left).trans ?_
        exact (h.stands u hu).complete _ (fun k rule hmem β hβ =>
          Cf.rule_le_lang ⟨rule, h.lookup u hu k rule hmem, hβ⟩) alt halt hfirst

end

section

variable {diag : String} {E : Emitter} {start : String} {rules : RuleTable}
  {targets : Production → List (String × List Sym)}

/-- A production as it is, with the rules emitted for it. -/
def standingOf (diag : String) (E : Emitter) (targets : Production → List (String × List Sym))
    (p : Production) : Standing := ⟨p, rulesOf diag E p, targets p⟩

theorem tabled_of_stands (hnd : E.grammar.names.Nodup) (hclash : Unclashing diag E)
    (h : emitRules diag E start = .ok rules)
    (htargets : ∀ p ∈ E.grammar.productions, Stands E p (rulesOf diag E p) (targets p)) :
    Tabled E E.grammar.names (E.grammar.productions.map (standingOf diag E targets)) rules := by
  obtain ⟨hrules, hall⟩ := emitRules_spec hnd hclash h
  have hflat : (E.grammar.productions.map (standingOf diag E targets)).flatMap Standing.rules =
      E.grammar.productions.flatMap (rulesOf diag E) := by
    rw [List.flatMap_map]
    rfl
  have hkeys := keys_nodup hnd hclash h
  constructor
  case stands =>
    intro u hu
    obtain ⟨p, hp, rfl⟩ := List.mem_map.mp hu
    exact htargets p hp
  case nodup => rwa [hflat]
  case lookup =>
    intro u hu k rule hmem
    obtain ⟨p, hp, rfl⟩ := List.mem_map.mp hu
    refine Table.lookup_of_mem hall ?_
    rw [hrules]
    exact List.mem_append_left _ (List.mem_flatMap.mpr ⟨p, hp, hmem⟩)
  case rows =>
    intro k rule hlookup
    have hmem := Table.mem_of_lookup hlookup
    rw [hrules] at hmem
    rcases List.mem_append.mp hmem with hmem | hmem
    · obtain ⟨p, hp, hmem⟩ := List.mem_flatMap.mp hmem
      exact .inl ⟨_, List.mem_map_of_mem hp, hmem⟩
    · obtain ⟨rfl, -⟩ := Prod.mk.inj (List.mem_singleton.mp hmem)
      refine .inr ⟨startWrapper_notMem E, fun hkey => ?_⟩
      rw [hflat] at hkey
      rw [hrules, List.map_append, List.nodup_append] at hall
      exact absurd rfl (hall.2.2 _ hkey _ (List.mem_singleton.mpr rfl))
  case named =>
    intro m hm
    obtain ⟨p, hp, rfl⟩ := mem_namesOf.mp hm
    exact .inl ⟨_, List.mem_map_of_mem hp, rfl⟩
  case own =>
    intro u hu
    obtain ⟨p, hp, rfl⟩ := List.mem_map.mp hu
    exact mem_namesOf.mpr ⟨p, hp, rfl⟩

theorem prods_standingOf (ps : List Production) :
    (ps.map (standingOf diag E targets)).map Standing.prod = ps := by
  rw [List.map_map]
  exact List.map_id _

/-- The emitted rules derive no more than the productions. -/
theorem ruleLang_le (hnd : E.grammar.names.Nodup) (hclash : Unclashing diag E)
    (h : emitRules diag E start = .ok rules)
    (hrefs : ∀ p ∈ E.grammar.productions, ∀ alt ∈ p.alts, ∀ el ∈ alt, ∀ m,
      el.refName = some m → m ∈ E.grammar.names)
    (htargets : ∀ p ∈ E.grammar.productions, Stands E p (rulesOf diag E p) (targets p))
    {n : String} (hn : n ∈ E.grammar.names) :
    ruleLang rules n ≤ Cf.lang (produces E.tokens E.grammar.productions) symLeaf (.rule n) := by
  have hle := (tabled_of_stands hnd hclash h htargets).ruleLang_le (fun u hu => ?_) hn
  · rwa [prods_standingOf] at hle
  · obtain ⟨p, hp, rfl⟩ := List.mem_map.mp hu
    exact hrefs p hp

/-- The emitted rules derive what the productions do, dead names aside. -/
theorem le_ruleLang (hnd : E.grammar.names.Nodup) (hclash : Unclashing diag E)
    (h : emitRules diag E start = .ok rules)
    (htargets : ∀ p ∈ E.grammar.productions, Stands E p (rulesOf diag E p) (targets p))
    (hdead : ∀ m, E.sets.Dead m →
      Cf.lang (produces E.tokens E.grammar.productions) symLeaf (.rule m) = 0) (n : String) :
    Cf.lang (produces E.tokens E.grammar.productions) symLeaf (.rule n) ≤ ruleLang rules n := by
  have hle := (tabled_of_stands hnd hclash h htargets).le_ruleLang
    (by rwa [prods_standingOf]) n
  rwa [prods_standingOf] at hle

end

theorem isTerminal_eraseDebt (el : Element) : (eraseDebt el).isTerminal = el.isTerminal := by
  cases el <;> rfl

theorem isRef_eraseDebt (el : Element) : (eraseDebt el).isRef = el.isRef := by cases el <;> rfl

theorem plain_of_sameRules {g g' : Grammar} (h : SameRules g g') (hplain : Plain g) : Plain g' := by
  intro p' hp' alt' halt' el' hel'
  obtain ⟨p, hp, hsame⟩ := exists_left_of_forall₂ h hp'
  have hmem := List.mem_map_of_mem (f := List.map eraseDebt) halt'
  rw [hsame.alts] at hmem
  obtain ⟨alt, halt, heq⟩ := List.mem_map.mp hmem
  have hel := List.mem_map_of_mem (f := eraseDebt) hel'
  rw [← heq] at hel
  obtain ⟨el, hel, herase⟩ := List.mem_map.mp hel
  rw [← isTerminal_eraseDebt, ← isRef_eraseDebt, ← herase, isTerminal_eraseDebt, isRef_eraseDebt]
  exact hplain p hp alt halt el hel

/-- **The emitted rules derive what the grammar does**: every production's name the token strings it
derives there. -/
theorem ruleLang_emitRules {diag : String} {grammar : Grammar} {start : String} {tokens : Tokens}
    {contest : ContestCtx} {arrayHelpers : List String} {valuePlan : List (String × List Bool)}
    {rules : RuleTable} (hnd : grammar.names.Nodup) (hplain : Plain grammar)
    (hprobe : ∀ p ∈ grammar.productions,
      p.probeHelper = none ∧ p.probeDispatch = none ∧ p.tailRepeat = none)
    (hclash : Unclashing diag (emitterOf grammar start tokens contest arrayHelpers valuePlan))
    (h : emitRules diag (emitterOf grammar start tokens contest arrayHelpers valuePlan) start =
      .ok rules) {n : String} (hn : n ∈ grammar.names) :
    ruleLang rules n = nameLang (tokenLeaf tokens) grammar.productions n := by
  have hsame : SameRules grammar
      (emitterOf grammar start tokens contest arrayHelpers valuePlan).grammar :=
    sameRules_resolveSuffixDebts
  have hproduces := produces_of_sameRules tokens hsame
  have hnames := names_of_sameRules hsame
  have hplain' := plain_of_sameRules hsame hplain
  have hprobe' : ∀ p ∈ (emitterOf grammar start tokens contest arrayHelpers
      valuePlan).grammar.productions,
      p.probeHelper = none ∧ p.probeDispatch = none ∧ p.tailRepeat = none := by
    intro p' hp'
    obtain ⟨p, hp, hrule⟩ := exists_left_of_forall₂ hsame hp'
    rw [hrule.probeHelper, hrule.probeDispatch, hrule.tailRepeat]
    exact hprobe p hp
  have hdead : ∀ m, (emitterOf grammar start tokens contest arrayHelpers valuePlan).sets.Dead m →
      Cf.lang (produces tokens grammar.productions) symLeaf (.rule m) = 0 :=
    fun m hm => lang_of_dead computeFirstSets_closed hm
  have htokens : (emitterOf grammar start tokens contest arrayHelpers valuePlan).tokens = tokens :=
    rfl
  rw [nameLang_eq_lang hplain, ← hproduces]
  rw [← hproduces] at hdead
  rw [← hnames] at hnd hn
  generalize emitterOf grammar start tokens contest arrayHelpers valuePlan = E at *
  subst htokens
  have hemit := fun p hp => emitRule_eq_of_emitRules (p := p) h hp
  have hrefs : ∀ p ∈ E.grammar.productions, ∀ alt ∈ p.alts, ∀ el ∈ alt, ∀ m,
      el.refName = some m → m ∈ E.grammar.names := fun p hp alt halt el hel m hm =>
    mem_names_of_emitRule (hemit p hp) (hprobe' p hp).1 (hprobe' p hp).2.1 halt hel hm
  have hstands : ∀ p ∈ E.grammar.productions, ∃ ts, Stands E p (rulesOf diag E p) ts :=
    fun p hp => (emitRule_cases (hemit p hp)).stands (hprobe' p hp).1 (hprobe' p hp).2.1
      (hprobe' p hp).2.2 (hplain' p hp)
  choose! targets htargets using hstands
  exact le_antisymm (ruleLang_le hnd hclash h hrefs htargets hn)
    (le_ruleLang hnd hclash h htargets hdead n)

/-- `list = item rest`, `rest = *( "," item )`, `item = "x" / "(" list ")"`, desugared. -/
def bracketed : Grammar where
  productions :=
    [{ name := "list", alts := [[.ref "item" none none, .ref "rest" none none]] },
     { name := "rest", alts := [[.ref "pair" none none, .ref "rest" none none], []],
       repeatHelper := true, repeatLoop := true },
     { name := "pair", alts := [[.token "," none, .ref "item" none none]] },
     { name := "item", alts := [[.token "x" none],
        [.token "(" none, .ref "list" none none, .token ")" none]] }]

/-- The answers about tokens that overlap themselves alone. -/
def apartContest : ContestCtx where
  tokenRangesOf _ := none
  literalHeadRangesOf _ := none
  tokensOverlap := (· == ·)
  headsContest := (· == ·)
  classSets := []

theorem ruleLang_emitRules_bracketed :
    (emitRules "bnf" (emitterOf bracketed "list" {} apartContest [] []) "list").toOption.map
        (ruleLang · "rest") =
      some (nameLang (tokenLeaf {}) bracketed.productions "rest") := by
  obtain ⟨rules, hrules⟩ := exists_ok (x := emitRules "bnf"
    (emitterOf bracketed "list" {} apartContest [] []) "list") (by decide +kernel)
  rw [hrules]
  exact congrArg some (ruleLang_emitRules (by decide)
    (by simp [Plain, bracketed, Element.isTerminal, Element.isRef]) (by decide)
    (by decide +kernel) hrules (by decide))

end TabnasBnf
