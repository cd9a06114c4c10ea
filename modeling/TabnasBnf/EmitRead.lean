import TabnasBnf.Emit
import TabnasBnf.DispatchCovers

/-!
# The emitted rules as a grammar

An emitted rule is read as context-free productions, one for each run of an open alternate and a
close alternate: conditions, counters and peeked tokens are ignored (`RuleSpec.bodies`). The
productions of the desugared grammar are read over the same symbols (`produces`), and their
languages are those of `nameLang` (`nameLang_eq_lang`).

* `Cf.lang_le_unfold` relates a grammar with helper symbols to one without: each helper stands for
  the symbols it was split off from.
-/

/-! ## Helper symbols -/

namespace Cf

variable {S T : Type*} {R : S → List S → Prop} {τ : S → Language T}

theorem seq_flatMap (L : S → Language T) (f : S → List S) (β : List S) :
    seq (fun s => seq L (f s)) β = seq L (β.flatMap f) := by
  induction β with
  | nil => rfl
  | cons s β ih => rw [seq_cons, List.flatMap_cons, seq_append, ih]

/-- A grammar whose every rule, with each symbol unfolded, derives no more than what its own symbol
stands for. -/
theorem lang_le_unfold {L : S → Language T} (f : S → List S) (hτ : ∀ s, τ s ≤ seq L (f s))
    (hR : ∀ s β, R s β → seq L (β.flatMap f) ≤ seq L (f s)) (s : S) :
    lang R τ s ≤ seq L (f s) :=
  lang_le (L := fun s => seq L (f s)) hτ
    (fun s β h => (seq_flatMap _ f β).le.trans (hR s β h)) s

/-- A sequence with a symbol of no words has none. -/
theorem seq_of_mem_zero {L : S → Language T} {α : List S} {s : S} (hs : s ∈ α) (h : L s = 0) :
    seq L α = 0 := by
  induction α with
  | nil => cases hs
  | cons t α ih =>
    rw [seq_cons]
    rcases List.mem_cons.mp hs with rfl | hs
    · rw [h, zero_mul]
    · rw [ih hs, mul_zero]

end Cf

namespace TabnasBnf

/-! ## The readings -/

/-- A symbol of the reading: a token, or the language of a rule. -/
inductive Sym where
  | tok (t : String)
  | rule (n : String)
deriving DecidableEq, Repr

/-- The tokens an alternate consumes: those of `s` less the ones pushed back. -/
def AltSpec.consumed (o : AltSpec) : List String := o.s.take (o.s.length - o.b)

/-- What an alternate does once it is taken: what it consumes, where it goes and the counters it
sets. -/
structure Effect where
  consumed : List String
  p : Option String
  r : Option String
  n : Option (List (String × Int))
deriving DecidableEq, Repr

/-- The effect of an alternate. -/
def AltSpec.effect (o : AltSpec) : Effect := ⟨o.consumed, o.p, o.r, o.n⟩

/-- What an alternate of this effect derives: tokens, and the rules it goes to. -/
def Effect.body (f : Effect) : List Sym :=
  f.consumed.map .tok ++ f.p.toList.map .rule ++ f.r.toList.map .rule

/-- One run of an alternate. -/
def AltSpec.body (o : AltSpec) : List Sym := o.effect.body

/-- One run of a rule: an open alternate, and a close alternate where the open one does not go
on as another rule. -/
def RuleSpec.bodies (rs : RuleSpec) : List (List Sym) :=
  rs.opens.flatMap fun o =>
    if o.r.isSome then [o.body]
    else
      match rs.close with
      | none => [o.body]
      | some cs => cs.map fun c => o.body ++ c.body

/-- The emitted rules as productions. -/
def emits (rules : RuleTable) : Sym → List Sym → Prop
  | .rule n, β => ∃ rs, rules.lookup n = some rs ∧ β ∈ rs.bodies
  | .tok _, _ => False

/-- The languages of the symbols, over those of the rules. -/
def symLang (ρ : String → Language String) : Sym → Language String
  | .tok t => {[t]}
  | .rule n => ρ n

/-- A token derives itself. -/
def symLeaf : Sym → Language String
  | .tok t => {[t]}
  | .rule _ => 0

/-- What an emitted rule derives. -/
def ruleLang (rules : RuleTable) (n : String) : Language String :=
  Cf.lang (emits rules) symLeaf (.rule n)

/-- A terminal or a reference as a symbol. -/
def sym (tokens : Tokens) : Element → Sym
  | .ref name _ _ => .rule name
  | el => .tok (tokens.name el)

/-- The productions of a grammar over the symbols. -/
def produces (tokens : Tokens) (ps : List Production) : Sym → List Sym → Prop
  | .rule n, β => ∃ p ∈ ps, p.name = n ∧ ∃ alt ∈ p.alts, β = alt.map (sym tokens)
  | .tok _, _ => False

section

variable {tokens : Tokens}

theorem sym_of_refName {el : Element} {m : String} (h : el.refName = some m) :
    sym tokens el = .rule m := by
  obtain ⟨debt, sp, rfl⟩ := Element.refName_eq_some.mp h
  rfl

theorem sym_of_isTerminal {el : Element} (h : el.isTerminal = true) :
    sym tokens el = .tok (tokens.name el) := by
  cases el <;> first | rfl | simp [Element.isTerminal] at h

theorem sym_of_refName_none (tokens : Tokens) {el : Element} (h : el.refName = none) :
    ∃ t, sym tokens el = .tok t := by
  cases el <;> first | exact ⟨_, rfl⟩ | simp [Element.refName] at h

@[simp] theorem sym_eraseDebt (el : Element) : sym tokens (eraseDebt el) = sym tokens el := by
  cases el <;> rfl

theorem lang_tok {R : Sym → List Sym → Prop} (h : ∀ t β, ¬ R (.tok t) β) (t : String) :
    Cf.lang R symLeaf (.tok t) = {[t]} :=
  Cf.lang_of_no_rule (h t)

/-- The denotation of an element is that of its symbol. -/
theorem den_eq_sym {L : Sym → Language String} (htok : ∀ t, L (.tok t) = {[t]}) {el : Element}
    (h : el.isTerminal = true ∨ el.isRef = true) :
    den (tokenLeaf tokens) (fun n => L (.rule n)) el = L (sym tokens el) := by
  rcases h with h | h
  · rw [den_terminal h, sym_of_isTerminal h, htok]
    rfl
  · obtain ⟨m, hm⟩ := Element.isRef_iff.mp h
    obtain ⟨debt, sp, rfl⟩ := Element.refName_eq_some.mp hm
    rw [den_ref]
    rfl

theorem seq_den_eq_sym {L : Sym → Language String} (htok : ∀ t, L (.tok t) = {[t]})
    {alt : Sequence} (h : ∀ el ∈ alt, el.isTerminal = true ∨ el.isRef = true) :
    Cf.seq (den (tokenLeaf tokens) fun n => L (.rule n)) alt = Cf.seq L (alt.map (sym tokens)) := by
  unfold Cf.seq
  rw [List.map_map]
  exact congrArg List.prod (List.map_congr_left fun el hel => den_eq_sym htok (h el hel))

/-- The two readings of a plain grammar agree. -/
theorem nameLang_eq_lang {grammar : Grammar} (hplain : Plain grammar) (n : String) :
    nameLang (tokenLeaf tokens) grammar.productions n =
      Cf.lang (produces tokens grammar.productions) symLeaf (.rule n) := by
  have htok : ∀ t, Cf.lang (produces tokens grammar.productions) symLeaf (.tok t) = {[t]} :=
    lang_tok fun t β h => h
  refine le_antisymm ?_ ?_
  · refine nameLang_le (ρ := fun n =>
      Cf.lang (produces tokens grammar.productions) symLeaf (.rule n)) (fun p hp w hw => ?_) n
    obtain ⟨alt, halt, hw⟩ := mem_altsDen.mp hw
    rw [seq_den_eq_sym htok (hplain p hp alt halt)] at hw
    exact Cf.rule_le_lang ⟨p, hp, rfl, alt, halt, rfl⟩ hw
  · have hle := Cf.lang_le (R := produces tokens grammar.productions) (τ := symLeaf)
      (L := symLang (nameLang (tokenLeaf tokens) grammar.productions)) ?_ ?_ (.rule n)
    · exact hle
    · rintro (t | m)
      · exact le_refl _
      · exact bot_le
    · rintro (t | m) β h
      · exact h.elim
      · obtain ⟨p, hp, rfl, alt, halt, rfl⟩ := h
        intro w hw
        refine solves_nameLang p hp (mem_altsDen.mpr ⟨alt, halt, ?_⟩)
        rw [← seq_den_eq_sym (fun t => rfl) (hplain p hp alt halt)] at hw
        exact hw

end

/-! ## Segments -/

/-- The symbols of a segment. -/
def Segment.syms (seg : Segment) : List Sym := seg.terms.map .tok ++ seg.reference.toList.map .rule

section

variable {tokens : Tokens}

theorem flatMap_segmentsFrom {alt : Sequence} :
    ∀ (current : Segment), current.reference = none →
      (∀ el ∈ alt, el.isTerminal = true ∨ el.isRef = true) →
      (segmentsFrom tokens current alt).flatMap Segment.syms =
        current.terms.map .tok ++ alt.map (sym tokens) := by
  induction alt with
  | nil =>
    intro current href _
    unfold segmentsFrom
    split
    · next h => simp [List.isEmpty_iff.mp h]
    · simp [Segment.syms, href]
  | cons el rest ih =>
    intro current href h
    have hrest := fun x hx => h x (List.mem_cons_of_mem _ hx)
    rcases h el List.mem_cons_self with hterm | href'
    · have hstep : segmentsFrom tokens current (el :: rest) =
          segmentsFrom tokens { current with terms := current.terms ++ [tokens.name el] } rest := by
        cases el <;> first | rfl | simp [Element.isTerminal] at hterm
      rw [hstep, ih { current with terms := current.terms ++ [tokens.name el] } href hrest,
        List.map_cons, sym_of_isTerminal hterm]
      simp
    · obtain ⟨m, hm⟩ := Element.isRef_iff.mp href'
      obtain ⟨debt, sp, rfl⟩ := Element.refName_eq_some.mp hm
      unfold segmentsFrom
      rw [List.flatMap_cons, ih {} rfl hrest]
      simp [Segment.syms, sym]

/-- The segments of an alternative are its symbols, in order. -/
theorem flatMap_segmentize {alt : Sequence}
    (h : ∀ el ∈ alt, el.isTerminal = true ∨ el.isRef = true) :
    (segmentize tokens alt).flatMap Segment.syms = alt.map (sym tokens) := by
  have hsegs : (segmentsFrom tokens {} alt).flatMap Segment.syms = _ :=
    flatMap_segmentsFrom {} rfl h
  unfold segmentize
  split
  · next heq =>
    rw [heq] at hsegs
    simpa [Segment.syms] using hsegs
  · simpa using hsegs

theorem refName_of_segmentsFrom {alt : Sequence} {seg : Segment} {m : String}
    (hm : m ∈ seg.reference) :
    ∀ current : Segment, current.reference = none → seg ∈ segmentsFrom tokens current alt →
      ∃ el ∈ alt, el.refName = some m := by
  induction alt with
  | nil =>
    intro current href h
    unfold segmentsFrom at h
    split at h
    · cases h
    · obtain rfl := List.mem_singleton.mp h
      rw [href] at hm
      cases hm
  | cons el rest ih =>
    intro current href h
    unfold segmentsFrom at h
    split at h
    · next name debt sp =>
      rcases List.mem_cons.mp h with rfl | h
      · exact ⟨_, List.mem_cons_self, hm⟩
      · obtain ⟨el, hel, href⟩ := ih {} rfl h
        exact ⟨el, List.mem_cons_of_mem _ hel, href⟩
    · obtain ⟨el', hel, href⟩ :=
        ih { current with terms := current.terms ++ [tokens.name el] } href h
      exact ⟨el', List.mem_cons_of_mem _ hel, href⟩

/-- The reference of a segment is one of the alternative. -/
theorem refName_of_segment {alt : Sequence} {seg : Segment} {m : String}
    (h : seg ∈ segmentize tokens alt) (hm : m ∈ seg.reference) :
    ∃ el ∈ alt, el.refName = some m := by
  unfold segmentize at h
  split at h
  · obtain rfl := List.mem_singleton.mp h
    cases hm
  · exact refName_of_segmentsFrom hm {} rfl h

theorem segmentize_ne_nil (alt : Sequence) : segmentize tokens alt ≠ [] := by
  unfold segmentize
  split
  · simp
  · next h => exact h

theorem segmentsFrom_single {alt : Sequence} (h : isSingleSegment alt = true) :
    ∀ current : Segment, (segmentsFrom tokens current alt).length ≤ 1 := by
  induction alt with
  | nil =>
    intro current
    unfold segmentsFrom
    split <;> simp
  | cons el rest ih =>
    intro current
    cases rest with
    | nil =>
      cases el <;> simp [segmentsFrom]
    | cons el' rest =>
      have hterm : el.isTerminal = true ∧ isSingleSegment (el' :: rest) = true := by
        simpa [isSingleSegment] using h
      have hstep : segmentsFrom tokens current (el :: el' :: rest) =
          segmentsFrom tokens { current with terms := current.terms ++ [tokens.name el] }
            (el' :: rest) := by
        cases el <;> first | rfl | simp [Element.isTerminal] at hterm
      rw [hstep]
      exact ih hterm.2 _

/-- A single-segment alternative has one segment. -/
theorem segmentize_single {alt : Sequence} (h : isSingleSegment alt = true) :
    segmentize tokens alt = [(segmentize tokens alt).headD {}] := by
  have hlen : (segmentsFrom tokens {} alt).length ≤ 1 := segmentsFrom_single h {}
  unfold segmentize
  split
  · rfl
  · next hne =>
    match hsegs : segmentsFrom tokens {} alt, hne, hlen with
    | [seg], _, _ => rfl

end

end TabnasBnf
