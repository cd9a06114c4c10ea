import TabnasBnf.DispatchExact

/-!
# What the enumeration does not read

Two things of an alternative `alt_prefixes_raw` leaves unread: what stands behind a reference it
cuts (`CutBehind`), and the separator of a tail repeat (`RepeatsBehind`). Up to there every path and
every string agrees with the alternatives (`PathReads`, `tailSeq_le_agreeing`).

* `LeadsTo` follows the references of an alternative through the alternatives of what they name.
* A truncated path is cut within a name that leads back to itself, or at a name that has no
  alternatives (`reads_of_mem`).
-/

namespace TabnasBnf

section

variable (grammar : Grammar) (tokens : Tokens) (classSets : List (String × String))

/-- What a sequence derives by the alternatives alone. -/
def altsSeq (α : Sequence) : Language String :=
  Cf.seq (den (tokenLeaf tokens) (altsLang grammar tokens classSets)) α

/-- What a sequence derives, tail repeats included. -/
def tailSeq (α : Sequence) : Language String :=
  Cf.seq (den (tokenLeaf tokens) (tailLang grammar tokens classSets)) α

/-- The sequence refers to the name behind elements that derive the tokens. -/
def RefersTo (α : Sequence) (w : List String) (m : String) : Prop :=
  ∃ u el v, α = u ++ el :: v ∧ el.refName = some m ∧ w ∈ altsSeq grammar tokens classSets u

/-- The sequence leads to the name behind the tokens. -/
inductive LeadsTo : Sequence → List String → String → Prop
  | here {α : Sequence} {w : List String} {m : String}
      (h : RefersTo grammar tokens classSets α w m) : LeadsTo α w m
  | within {α alt : Sequence} {w w' : List String} {p : Production} {m : String}
      (h : RefersTo grammar tokens classSets α w p.name) (hp : p ∈ grammar.productions)
      (hclass : classSets.lookup p.name = none) (halt : alt ∈ p.alts) (hm : LeadsTo alt w' m) :
      LeadsTo α (w ++ w') m

/-- The alternatives may have read the tokens: they begin a string of the sequence's first elements,
or lead through a name behind such a string to what its alternatives may have read. -/
inductive ReadsUpTo : Sequence → List String → Prop
  | before {α u v : Sequence} {w x : List String} (hα : α = u ++ v)
      (hw : w ∈ altsSeq grammar tokens classSets u) (hx : x <+: w) : ReadsUpTo α x
  | within {α alt : Sequence} {w x : List String} {p : Production}
      (h : RefersTo grammar tokens classSets α w p.name) (hp : p ∈ grammar.productions)
      (hclass : classSets.lookup p.name = none) (halt : alt ∈ p.alts) (hx : ReadsUpTo alt x) :
      ReadsUpTo α (w ++ x)

/-- The enumeration is cut behind the tokens: at a name without alternatives, or at one that leads
back to itself. -/
inductive CutBehind : Sequence → List String → Prop
  | stuck {α : Sequence} {w : List String} {m : String} (h : LeadsTo grammar tokens classSets α w m)
      (hclass : classSets.lookup m = none) (halts : ∀ p, grammar.find m = some p → p.alts = []) :
      CutBehind α w
  | back {α alt : Sequence} {w w' : List String} {p : Production}
      (h : LeadsTo grammar tokens classSets α w p.name) (hp : p ∈ grammar.productions)
      (hclass : classSets.lookup p.name = none) (halt : alt ∈ p.alts)
      (hback : LeadsTo grammar tokens classSets alt w' p.name) : CutBehind α (w ++ w')

/-- A tail repeat the sequence leads to may take its separator behind the tokens. -/
def RepeatsBehind (α : Sequence) (w : List String) : Prop :=
  ∃ w₁ w₂ p, LeadsTo grammar tokens classSets α w₁ p.name ∧ p ∈ grammar.productions ∧
    classSets.lookup p.name = none ∧ p.tailRepeat.isSome = true ∧
    (∃ alt ∈ p.alts, w₂ ∈ altsSeq grammar tokens classSets alt) ∧ w = w₁ ++ w₂

/-- The enumeration does not say what stands behind the tokens. -/
def UnreadBehind (α : Sequence) (w : List String) : Prop :=
  CutBehind grammar tokens classSets α w ∨ RepeatsBehind grammar tokens classSets α w

end

section

variable {grammar : Grammar} {tokens : Tokens} {classSets : List (String × String)}

theorem mem_altsSeq_cons {el : Element} {β : Sequence} {a w : List String}
    (hel : a ∈ den (tokenLeaf tokens) (altsLang grammar tokens classSets) el)
    (hw : w ∈ altsSeq grammar tokens classSets β) :
    a ++ w ∈ altsSeq grammar tokens classSets (el :: β) := by
  unfold altsSeq
  rw [Cf.seq_cons]
  exact Language.append_mem_mul hel hw

theorem refersTo_head {el : Element} {m : String} (hel : el.refName = some m) (β : Sequence) :
    RefersTo grammar tokens classSets (el :: β) [] m :=
  ⟨[], el, β, rfl, hel, rfl⟩

theorem RefersTo.mem {α : Sequence} {w : List String} {m : String}
    (h : RefersTo grammar tokens classSets α w m) : ∃ el ∈ α, el.refName = some m := by
  obtain ⟨u, el, v, rfl, hel, -⟩ := h
  exact ⟨el, List.mem_append_right u List.mem_cons_self, hel⟩

/-- Names closed under the references of their productions are all a sequence of them leads to. -/
theorem LeadsTo.mem_of_closed {N : String → Prop}
    (hN : ∀ p ∈ grammar.productions, N p.name → ∀ alt ∈ p.alts, ∀ el ∈ alt, ∀ m,
      el.refName = some m → N m) {α : Sequence} {w : List String} {m : String}
    (h : LeadsTo grammar tokens classSets α w m)
    (hα : ∀ el ∈ α, ∀ m, el.refName = some m → N m) : N m := by
  induction h with
  | here h =>
    obtain ⟨el, hel, hm⟩ := h.mem
    exact hα el hel _ hm
  | within h hp hclass halt _ ih =>
    obtain ⟨el, hel, hm⟩ := h.mem
    exact ih (hN _ hp (hα el hel _ hm) _ halt)

theorem mem_altsSeq_append {u v : Sequence} {w w' : List String}
    (hw : w ∈ altsSeq grammar tokens classSets u) (hw' : w' ∈ altsSeq grammar tokens classSets v) :
    w ++ w' ∈ altsSeq grammar tokens classSets (u ++ v) := by
  unfold altsSeq
  rw [Cf.seq_append]
  exact Language.append_mem_mul hw hw'

theorem RefersTo.cons {el : Element} {β : Sequence} {a w : List String} {m : String}
    (h : RefersTo grammar tokens classSets β w m)
    (hel : a ∈ den (tokenLeaf tokens) (altsLang grammar tokens classSets) el) :
    RefersTo grammar tokens classSets (el :: β) (a ++ w) m := by
  obtain ⟨u, x, v, rfl, hx, hw⟩ := h
  exact ⟨el :: u, x, v, rfl, hx, mem_altsSeq_cons hel hw⟩

theorem LeadsTo.cons {el : Element} {β : Sequence} {a w : List String} {m : String}
    (h : LeadsTo grammar tokens classSets β w m)
    (hel : a ∈ den (tokenLeaf tokens) (altsLang grammar tokens classSets) el) :
    LeadsTo grammar tokens classSets (el :: β) (a ++ w) m := by
  cases h with
  | here h => exact .here (h.cons hel)
  | within h hp hclass halt hm =>
    rw [← List.append_assoc]
    exact .within (h.cons hel) hp hclass halt hm

theorem LeadsTo.trans {α alt : Sequence} {w w' : List String} {p : Production} {m : String}
    (h : LeadsTo grammar tokens classSets α w p.name) (hp : p ∈ grammar.productions)
    (hclass : classSets.lookup p.name = none) (halt : alt ∈ p.alts)
    (hm : LeadsTo grammar tokens classSets alt w' m) :
    LeadsTo grammar tokens classSets α (w ++ w') m := by
  generalize hname : p.name = n at h
  induction h with
  | here h =>
    subst hname
    exact .within h hp hclass halt hm
  | within h hq hqclass hsub _ ih =>
    rw [List.append_assoc]
    exact .within h hq hqclass hsub (ih hname)

theorem CutBehind.cons {el : Element} {β : Sequence} {a w : List String}
    (h : CutBehind grammar tokens classSets β w)
    (hel : a ∈ den (tokenLeaf tokens) (altsLang grammar tokens classSets) el) :
    CutBehind grammar tokens classSets (el :: β) (a ++ w) := by
  cases h with
  | stuck h hclass halts => exact .stuck (h.cons hel) hclass halts
  | back h hp hclass halt hback =>
    rw [← List.append_assoc]
    exact .back (h.cons hel) hp hclass halt hback

theorem CutBehind.within {α alt : Sequence} {w w' : List String} {p : Production}
    (h : CutBehind grammar tokens classSets alt w')
    (hlead : LeadsTo grammar tokens classSets α w p.name) (hp : p ∈ grammar.productions)
    (hclass : classSets.lookup p.name = none) (halt : alt ∈ p.alts) :
    CutBehind grammar tokens classSets α (w ++ w') := by
  cases h with
  | stuck h hmclass halts => exact .stuck (hlead.trans hp hclass halt h) hmclass halts
  | back h hq hqclass hsub hback =>
    rw [← List.append_assoc]
    exact .back (hlead.trans hp hclass halt h) hq hqclass hsub hback

theorem RepeatsBehind.cons {el : Element} {β : Sequence} {a w : List String}
    (h : RepeatsBehind grammar tokens classSets β w)
    (hel : a ∈ den (tokenLeaf tokens) (altsLang grammar tokens classSets) el) :
    RepeatsBehind grammar tokens classSets (el :: β) (a ++ w) := by
  obtain ⟨w₁, w₂, p, hlead, hp, hclass, htail, halt, rfl⟩ := h
  exact ⟨a ++ w₁, w₂, p, hlead.cons hel, hp, hclass, htail, halt, (List.append_assoc ..).symm⟩

theorem ReadsUpTo.nil (α : Sequence) : ReadsUpTo grammar tokens classSets α [] :=
  .before (u := []) (w := []) rfl rfl List.nil_prefix

theorem ReadsUpTo.cons {el : Element} {β : Sequence} {a x : List String}
    (h : ReadsUpTo grammar tokens classSets β x)
    (hel : a ∈ den (tokenLeaf tokens) (altsLang grammar tokens classSets) el) :
    ReadsUpTo grammar tokens classSets (el :: β) (a ++ x) := by
  cases h with
  | @before _ u v w _ hβ hw hx =>
    exact .before (u := el :: u) (by rw [hβ, List.cons_append]) (mem_altsSeq_cons hel hw)
      ((List.prefix_append_right_inj a).mpr hx)
  | within h hp hclass halt hx =>
    rw [← List.append_assoc]
    exact .within (h.cons hel) hp hclass halt hx

/-- What begins what the alternatives may have read, they may have read. -/
theorem ReadsUpTo.of_isPrefix {α : Sequence} {x y : List String}
    (h : ReadsUpTo grammar tokens classSets α x) (hy : y <+: x) :
    ReadsUpTo grammar tokens classSets α y := by
  induction h generalizing y with
  | before hα hw hx => exact .before hα hw (hy.trans hx)
  | @within α alt w x p h hp hclass halt _ ih =>
    by_cases hlen : y.length ≤ w.length
    · obtain ⟨u, el, v, hα, -, hw⟩ := h
      exact .before hα hw (List.prefix_of_prefix_length_le hy (List.prefix_append w x) hlen)
    · obtain ⟨z, rfl⟩ := List.prefix_of_prefix_length_le (List.prefix_append w x) hy (by omega)
      exact .within h hp hclass halt (ih ((List.prefix_append_right_inj w).mp hy))

/-! ## What a path says -/

theorem mem_altsLang {p : Production} (hp : p ∈ grammar.productions)
    (hclass : classSets.lookup p.name = none) {alt : Sequence} (halt : alt ∈ p.alts)
    {w : List String} (hw : w ∈ altsSeq grammar tokens classSets alt) :
    w ∈ altsLang grammar tokens classSets p.name := by
  have hread : readClass classSets p = p := by rw [readClass, hclass]
  refine mem_nameLang_iff_alts.mpr ⟨readClass classSets p, List.mem_map_of_mem hp, ?_, ?_⟩
  · rw [hread]
  · rw [hread]
    exact mem_altsDen.mpr ⟨alt, halt, hw⟩

theorem altsSeq_reference (n : String) : altsSeq grammar tokens classSets [.reference n] =
    altsLang grammar tokens classSets n := by
  rw [altsSeq, Cf.seq_singleton, Element.reference, den_ref]

/-- A token class derives the token of its set. -/
theorem set_mem_altsLang {p : Production} (hp : p ∈ grammar.productions) {set : String}
    (hclass : classSets.lookup p.name = some set) :
    [set] ∈ altsLang grammar tokens classSets p.name := by
  refine mem_nameLang_iff_alts.mpr ⟨_, List.mem_map_of_mem hp, name_readClass classSets p, ?_⟩
  rw [readClass, hclass]
  refine mem_altsDen.mpr ⟨[.token set none], List.mem_singleton.mpr rfl, ?_⟩
  rw [Cf.seq_singleton, den_terminal rfl]
  rfl

/-- The token an element adds is a string of it. -/
theorem mem_den_added (hnamed : ∀ n set, classSets.lookup n = some set → n ∈ grammar.names)
    {el : Element} {tok : String} (h : addedToken tokens classSets el = some tok) :
    [tok] ∈ den (tokenLeaf tokens) (altsLang grammar tokens classSets) el := by
  have hterm : el.isTerminal = true → some (tokens.name el) = some tok →
      [tok] ∈ den (tokenLeaf tokens) (altsLang grammar tokens classSets) el := by
    intro hterm htok
    rw [den_terminal hterm, ← Option.some.inj htok]
    rfl
  cases el with
  | term literal caseSensitive tokenName sp => exact hterm rfl h
  | regex pattern flags sp => exact hterm rfl h
  | token name sp => exact hterm rfl h
  | ref m debt sp =>
    obtain ⟨p, hp, rfl⟩ := mem_namesOf.mp (hnamed m tok h)
    rw [den_ref]
    exact set_mem_altsLang hp h
  | _ => cases h

variable (grammar tokens classSets) in
/-- Every element derives something. -/
def Live (α : Sequence) : Prop :=
  ∀ el ∈ α, ∃ a, a ∈ den (tokenLeaf tokens) (altsLang grammar tokens classSets) el

theorem Live.exists_mem : ∀ {α : Sequence}, Live grammar tokens classSets α →
    ∃ w, w ∈ altsSeq grammar tokens classSets α
  | [], _ => ⟨[], rfl⟩
  | el :: β, h => by
    obtain ⟨⟨a, ha⟩, hβ⟩ := List.forall_mem_cons.mp h
    obtain ⟨w, hw⟩ := Live.exists_mem hβ
    exact ⟨a ++ w, mem_altsSeq_cons ha hw⟩

/-- What the alternatives may have read begins a string, where everything derives something. -/
theorem ReadsUpTo.begins
    (hgrammar : ∀ p ∈ grammar.productions, ∀ alt ∈ p.alts, Live grammar tokens classSets alt)
    {α : Sequence} {x : List String} (h : ReadsUpTo grammar tokens classSets α x)
    (hα : Live grammar tokens classSets α) :
    ∃ w ∈ altsSeq grammar tokens classSets α, x <+: w := by
  induction h with
  | @before α u v w x hsplit hw hx =>
    subst hsplit
    obtain ⟨b, hb⟩ := Live.exists_mem (α := v) fun el hel => hα el (List.mem_append_right u hel)
    exact ⟨w ++ b, mem_altsSeq_append hw hb, hx.trans (List.prefix_append w b)⟩
  | @within α alt w x p h hp hclass halt _ ih =>
    obtain ⟨u, el, v, rfl, hel, hw⟩ := h
    obtain ⟨debt, sp, rfl⟩ := Element.refName_eq_some.mp hel
    obtain ⟨y, hy, hxy⟩ := ih (hgrammar p hp alt halt)
    obtain ⟨b, hb⟩ := Live.exists_mem (α := v) fun el hel =>
      hα el (List.mem_append_right u (List.mem_cons_of_mem _ hel))
    have hname : y ∈ den (tokenLeaf tokens) (altsLang grammar tokens classSets)
        (.ref p.name debt sp) := by
      rw [den_ref]
      exact mem_altsLang hp hclass halt hy
    refine ⟨w ++ (y ++ b), mem_altsSeq_append hw (mem_altsSeq_cons hname hb), ?_⟩
    exact (List.prefix_append_right_inj w).mpr (hxy.trans (List.prefix_append y b))

variable (grammar tokens classSets) in
/-- What a path says of the sequence it is listed for, within the names visited: it is a string of
it, or cut, and the alternatives may have read it. -/
structure PathReads (k : Nat) (visited : List String) (α : Sequence) (q : PrefixPath) : Prop where
  whole : q.done = false → q.tokens.length < k → q.tokens ∈ altsSeq grammar tokens classSets α
  cut : q.done = true → CutBehind grammar tokens classSets α q.tokens ∨
    ∃ m ∈ visited, LeadsTo grammar tokens classSets α q.tokens m
  upTo : ReadsUpTo grammar tokens classSets α q.tokens

theorem PathReads.cons {k : Nat} {visited : List String} {el : Element} {β : Sequence}
    {a v : List String} {done : Bool}
    (hel : a ∈ den (tokenLeaf tokens) (altsLang grammar tokens classSets) el)
    (h : PathReads grammar tokens classSets (k - a.length) visited β ⟨v, done⟩) :
    PathReads grammar tokens classSets k visited (el :: β) ⟨a ++ v, done⟩ where
  whole hdone hlt := by
    refine mem_altsSeq_cons hel (h.whole hdone ?_)
    dsimp only at hlt ⊢
    rw [List.length_append] at hlt
    omega
  cut hdone := (h.cut hdone).imp (·.cons hel) fun ⟨m, hm, hlead⟩ => ⟨m, hm, hlead.cons hel⟩
  upTo := h.upTo.cons hel

/-- A path that has its window full, or was cut, before it gained a token. -/
theorem reads_nil {k : Nat} {visited : List String} {α : Sequence} {q : PrefixPath}
    (htokens : q.tokens = []) (hfull : q.done = false → k = 0)
    (hcut : q.done = true → CutBehind grammar tokens classSets α [] ∨
      ∃ m ∈ visited, LeadsTo grammar tokens classSets α [] m) :
    PathReads grammar tokens classSets k visited α q where
  whole hdone hlt := absurd hlt (by simp [hfull hdone])
  cut hdone := by
    rw [htokens]
    exact hcut hdone
  upTo := by
    rw [htokens]
    exact .nil α

/-- A path cut, or full, within the production it entered. -/
theorem PathReads.enter {k : Nat} {visited : List String} {p : Production} {sub : Sequence}
    {el : Element} (hel : el.refName = some p.name) (hp : p ∈ grammar.productions)
    (hclass : classSets.lookup p.name = none) (hsub : sub ∈ p.alts) {q : PrefixPath}
    (h : PathReads grammar tokens classSets k (p.name :: visited) sub q) (β : Sequence)
    (hclosed : q.done = true ∨ k ≤ q.tokens.length) :
    PathReads grammar tokens classSets k visited (el :: β) q where
  whole hdone hlt := by
    rcases hclosed with hcut | hfull
    · rw [hdone] at hcut
      cases hcut
    · omega
  cut hdone := by
    have hhead : RefersTo grammar tokens classSets (el :: β) [] p.name := refersTo_head hel β
    rcases h.cut hdone with hcut | ⟨m, hm, hlead⟩
    · exact .inl (hcut.within (.here hhead) hp hclass hsub)
    · rcases List.mem_cons.mp hm with rfl | hm
      · exact .inl (.back (.here hhead) hp hclass hsub hlead)
      · exact .inr ⟨m, hm, .within hhead hp hclass hsub hlead⟩
  upTo := .within (refersTo_head hel β) hp hclass hsub h.upTo

/-- **The step.** What a path grows into over the elements says of them what a path says. -/
theorem walk_reads (hnamed : ∀ n set, classSets.lookup n = some set → n ∈ grammar.names)
    (hplain : Plain grammar) {depth k : Nat} {visited : List String}
    (henter : ∀ k' visited' sub, (∀ el ∈ sub, el.isTerminal = true ∨ el.isRef = true) →
      ∀ q ∈ altPrefixesRaw grammar tokens classSets depth k' visited' (fun _ => true) sub,
        PathReads grammar tokens classSets k' visited' sub q) :
    ∀ (β : Sequence), (∀ el ∈ β, el.isTerminal = true ∨ el.isRef = true) →
      ∀ (w : List String) (q : PrefixPath),
        q ∈ walk (extendAt grammar tokens classSets depth k visited) k β ⟨w, false⟩ →
          ∃ v, q.tokens = w ++ v ∧
            PathReads grammar tokens classSets (k - w.length) visited β ⟨v, q.done⟩
  | [], _, w, q, hq => by
    obtain rfl := List.mem_singleton.mp hq
    exact ⟨[], by simp, fun _ _ => rfl, fun h => (by cases h), .nil []⟩
  | el :: β, hβ, w, q, hq => by
    obtain ⟨hel, hβ⟩ := List.forall_mem_cons.mp hβ
    by_cases hfull : k ≤ w.length
    · rw [walk_closed (by simpa [PrefixPath.closed] using hfull)] at hq
      obtain rfl := List.mem_singleton.mp hq
      exact ⟨[], by simp, reads_nil rfl (fun _ => by omega) fun h => by cases h⟩
    · have hopen : PrefixPath.closed k ⟨w, false⟩ = false := by
        simpa [PrefixPath.closed] using hfull
      simp only [walk, hopen, Bool.false_eq_true, if_false, List.mem_flatMap] at hq
      obtain ⟨r, hr, hq⟩ := hq
      rcases mem_extendPath_cases hr with ⟨rfl, hnone, hcut⟩ | ⟨tok, hadded, rfl⟩ |
        ⟨p, sub, sq, href, hclass, -, hfind, hsub, hsq, rfl⟩
      · rw [walk_closed (by simp [PrefixPath.closed])] at hq
        obtain rfl := List.mem_singleton.mp hq
        refine ⟨[], by simp, reads_nil rfl (fun h => by cases h) fun _ => ?_⟩
        obtain ⟨m, hm⟩ : ∃ m, el.refName = some m := by
          cases el with
          | ref m debt sp => exact ⟨m, rfl⟩
          | term literal caseSensitive tokenName sp => cases hnone
          | regex pattern flags sp => cases hnone
          | token name sp => cases hnone
          | _ => simp [Element.isTerminal, Element.isRef] at hel
        have hhead : LeadsTo grammar tokens classSets (el :: β) [] m := .here (refersTo_head hm β)
        rcases hcut m hm with hvisited | halts
        · exact .inr ⟨m, hvisited, hhead⟩
        · obtain ⟨debt, sp, rfl⟩ := Element.refName_eq_some.mp hm
          exact .inl (.stuck hhead hnone halts)
      · obtain ⟨v, hv, hreads⟩ := walk_reads hnamed hplain henter β hβ (w ++ [tok]) q hq
        refine ⟨[tok] ++ v, by rw [hv, List.append_assoc],
          PathReads.cons (mem_den_added hnamed hadded) ?_⟩
        rwa [List.length_append, ← Nat.sub_sub] at hreads
      · have hp : p ∈ grammar.productions := List.mem_of_find?_eq_some hfind
        have hreads := henter _ _ sub (hplain p hp sub hsub) sq hsq
        by_cases hclosed : sq.done = true ∨ k - w.length ≤ sq.tokens.length
        · rw [walk_closed] at hq
          · obtain rfl := List.mem_singleton.mp hq
            exact ⟨sq.tokens, rfl, hreads.enter href hp hclass hsub β hclosed⟩
          · simp only [PrefixPath.closed, List.length_append, ge_iff_le, Bool.or_eq_true,
              decide_eq_true_eq]
            exact hclosed.imp_right fun h => by omega
        · -- all of the alternative, and the path goes on
          rw [not_or, Bool.not_eq_true, not_le] at hclosed
          obtain ⟨hdone, hlt⟩ := hclosed
          rw [hdone] at hq
          obtain ⟨v, hv, hrest⟩ := walk_reads hnamed hplain henter β hβ (w ++ sq.tokens) q hq
          obtain ⟨debt, sp, rfl⟩ := Element.refName_eq_some.mp href
          have hwhole : sq.tokens ∈ den (tokenLeaf tokens) (altsLang grammar tokens classSets)
              (.ref p.name debt sp) := by
            rw [den_ref]
            exact mem_altsLang hp hclass hsub (hreads.whole hdone hlt)
          refine ⟨sq.tokens ++ v, by rw [hv, List.append_assoc], PathReads.cons hwhole ?_⟩
          rwa [List.length_append, ← Nat.sub_sub] at hrest

/-- **Every path reads its sequence**: as far as the alternatives go, and up to where it is cut. -/
theorem reads_of_mem (hnamed : ∀ n set, classSets.lookup n = some set → n ∈ grammar.names)
    (hplain : Plain grammar) : ∀ (depth k : Nat) (visited : List String) (alt : Sequence),
    (∀ el ∈ alt, el.isTerminal = true ∨ el.isRef = true) →
      ∀ q ∈ altPrefixesRaw grammar tokens classSets depth k visited (fun _ => true) alt,
        PathReads grammar tokens classSets k visited alt q := by
  intro depth
  induction depth with
  | zero => exact fun _ _ _ _ q hq => by cases hq
  | succ depth ih =>
    intro k visited alt halt q hq
    rw [altPrefixesRaw_succ] at hq
    obtain ⟨v, hv, hreads⟩ := walk_reads hnamed hplain ih alt halt [] q hq
    obtain rfl : q.tokens = v := hv
    exact hreads

/-! ## Tail repeats -/

theorem RefersTo.of_reference {m n : String} {w : List String} {el : Element}
    (h : RefersTo grammar tokens classSets [.reference m] w n) (hel : el.refName = some m)
    (β : Sequence) : RefersTo grammar tokens classSets (el :: β) w n := by
  obtain ⟨u, x, v, heq, hx, hw⟩ := h
  obtain ⟨rfl, hxv⟩ | ⟨u', -, hu'⟩ := List.cons_eq_append_iff.mp heq
  · obtain ⟨rfl, rfl⟩ := List.cons.inj hxv
    obtain rfl : m = n := Option.some.inj hx
    obtain rfl : w = [] := hw
    exact refersTo_head hel β
  · simp at hu'

theorem LeadsTo.of_reference {m n : String} {w : List String} {el : Element}
    (h : LeadsTo grammar tokens classSets [.reference m] w n) (hel : el.refName = some m)
    (β : Sequence) : LeadsTo grammar tokens classSets (el :: β) w n := by
  cases h with
  | here h => exact .here (h.of_reference hel β)
  | within h hp hclass halt hm => exact .within (h.of_reference hel β) hp hclass halt hm

theorem RepeatsBehind.of_reference {m : String} {w : List String} {el : Element}
    (h : RepeatsBehind grammar tokens classSets [.reference m] w) (hel : el.refName = some m)
    (β : Sequence) : RepeatsBehind grammar tokens classSets (el :: β) w := by
  obtain ⟨w₁, w₂, p, hlead, h⟩ := h
  exact ⟨w₁, w₂, p, hlead.of_reference hel β, h⟩

/-- A tail repeat within an alternative is one within the production. -/
theorem RepeatsBehind.within {p : Production} (hp : p ∈ grammar.productions)
    (hclass : classSets.lookup p.name = none) {alt : Sequence} (halt : alt ∈ p.alts)
    {w : List String} (h : RepeatsBehind grammar tokens classSets alt w) :
    RepeatsBehind grammar tokens classSets [.reference p.name] w := by
  obtain ⟨w₁, w₂, q, hlead, h⟩ := h
  exact ⟨w₁, w₂, q, .within (refersTo_head rfl []) hp hclass halt hlead, h⟩

variable (grammar tokens classSets) in
/-- The strings that agree with the alternatives of a sequence, up to a tail repeat. -/
def Agreeing (α : Sequence) : Language String :=
  {a | ∃ v ∈ altsSeq grammar tokens classSets α,
    a = v ∨ ∃ w, RepeatsBehind grammar tokens classSets α w ∧ w <+: a ∧ w <+: v}

theorem mem_agreeing_cons {el : Element} {β : Sequence} {a x : List String}
    (hel : a ∈ den (tokenLeaf tokens) (altsLang grammar tokens classSets) el)
    (hx : x ∈ Agreeing grammar tokens classSets β) :
    a ++ x ∈ Agreeing grammar tokens classSets (el :: β) := by
  obtain ⟨v, hv, rfl | ⟨w, hw, hwx, hwv⟩⟩ := hx
  · exact ⟨a ++ x, mem_altsSeq_cons hel hv, .inl rfl⟩
  · exact ⟨a ++ v, mem_altsSeq_cons hel hv, .inr ⟨a ++ w, hw.cons hel,
      (List.prefix_append_right_inj a).mpr hwx, (List.prefix_append_right_inj a).mpr hwv⟩⟩

/-- Names whose strings agree make sequences whose strings do. -/
theorem seq_le_agreeing : ∀ {α : Sequence}, (∀ el ∈ α, el.isTerminal = true ∨ el.isRef = true) →
    Cf.seq (den (tokenLeaf tokens) fun n => Agreeing grammar tokens classSets [.reference n]) α ≤
      Agreeing grammar tokens classSets α
  | [], _, a, ha => ⟨a, ha, .inl rfl⟩
  | el :: β, hα, a, ha => by
    obtain ⟨hel, hβ⟩ := List.forall_mem_cons.mp hα
    rw [Cf.seq_cons] at ha
    obtain ⟨y, hy, x, hx, rfl⟩ := Language.mem_mul.mp ha
    have hrest := seq_le_agreeing hβ hx
    rcases hel with hterm | href
    · refine mem_agreeing_cons ?_ hrest
      rwa [den_terminal hterm] at hy ⊢
    · obtain ⟨m, hm⟩ := Element.isRef_iff.mp href
      obtain ⟨debt, sp, rfl⟩ := Element.refName_eq_some.mp hm
      rw [den_ref] at hy
      obtain ⟨v, hv, hagree⟩ := hy
      have hel : v ∈ den (tokenLeaf tokens) (altsLang grammar tokens classSets)
          (.ref m debt sp) := by
        rw [altsSeq_reference] at hv
        rwa [den_ref]
      rcases hagree with rfl | ⟨w, hw, hwy, hwv⟩
      · exact mem_agreeing_cons hel hrest
      · obtain ⟨v', hv', -⟩ := hrest
        exact ⟨v ++ v', mem_altsSeq_cons hel hv', .inr ⟨w, hw.of_reference rfl β,
          hwy.trans (List.prefix_append y x), hwv.trans (List.prefix_append v v')⟩⟩

/-- What the alternatives of a production agree with, the production does. -/
theorem agreeing_alt {p : Production} (hp : p ∈ grammar.productions)
    (hclass : classSets.lookup p.name = none) {alt : Sequence} (halt : alt ∈ p.alts)
    {a : List String} (ha : a ∈ Agreeing grammar tokens classSets alt) :
    a ∈ Agreeing grammar tokens classSets [.reference p.name] := by
  obtain ⟨v, hv, hagree⟩ := ha
  refine ⟨v, ?_, hagree.imp_right fun ⟨w, hw, h⟩ => ⟨w, hw.within hp hclass halt, h⟩⟩
  rw [altsSeq_reference]
  exact mem_altsLang hp hclass halt hv

theorem mem_readTail_alts {p : Production} {α : Sequence} (h : α ∈ (readTail p).alts) :
    α ∈ p.alts ∨ ∃ spec alt, p.tailRepeat = some spec ∧ alt ∈ p.alts ∧
      α = alt ++ [.star (.group [spec.sep ++ alt] none) none none] := by
  unfold readTail at h
  split at h
  · next spec htail =>
    obtain ⟨alt, halt, rfl⟩ := List.mem_map.mp h
    exact .inr ⟨spec, alt, htail, halt, rfl⟩
  · exact .inl h

/-- **Every string of a name agrees with its alternatives** up to a tail repeat. -/
theorem tailLang_le_agreeing (hplain : Plain grammar) (n : String) :
    tailLang grammar tokens classSets n ≤ Agreeing grammar tokens classSets [.reference n] := by
  have hsolves : Solves (tokenLeaf tokens)
      (grammar.productions.map fun p => readClass classSets (readTail p))
      fun n => Agreeing grammar tokens classSets [.reference n] := by
    intro q hq x hx
    obtain ⟨p, hp, rfl⟩ := List.mem_map.mp hq
    rw [name_readClass, name_readTail]
    unfold readClass at hx
    rw [name_readTail] at hx
    split at hx
    · next set hclass =>
      simp only [altsDen_cons, altsDen_nil, add_zero, Cf.seq_singleton] at hx
      rw [den_terminal rfl] at hx
      obtain rfl : x = [set] := hx
      refine ⟨[set], ?_, .inl rfl⟩
      rw [altsSeq_reference]
      exact set_mem_altsLang hp hclass
    · next hclass =>
      obtain ⟨α, hα, hx⟩ := mem_altsDen.mp hx
      rcases mem_readTail_alts hα with halt | ⟨spec, alt, htail, halt, rfl⟩
      · exact agreeing_alt hp hclass halt (seq_le_agreeing (hplain p hp α halt) hx)
      · rw [Cf.seq_append] at hx
        obtain ⟨a, ha, r, -, rfl⟩ := Language.mem_mul.mp hx
        obtain ⟨v, hv, hagree⟩ := seq_le_agreeing (hplain p hp alt halt) ha
        refine ⟨v, by rw [altsSeq_reference]; exact mem_altsLang hp hclass halt hv, .inr ?_⟩
        rcases hagree with rfl | ⟨w, hw, hwa, hwv⟩
        · have hlead : LeadsTo grammar tokens classSets [.reference p.name] [] p.name :=
            .here (refersTo_head rfl [])
          exact ⟨a, ⟨[], a, p, hlead, hp, hclass, by rw [htail]; rfl, ⟨alt, halt, hv⟩, rfl⟩,
            List.prefix_append a r, List.prefix_rfl⟩
        · exact ⟨w, hw.within hp hclass halt, hwa.trans (List.prefix_append a r), hwv⟩
  exact nameLang_le hsolves n

/-- Every string of a sequence agrees with the alternatives up to a tail repeat. -/
theorem tailSeq_le_agreeing (hplain : Plain grammar) {α : Sequence}
    (hα : ∀ el ∈ α, el.isTerminal = true ∨ el.isRef = true) :
    tailSeq grammar tokens classSets α ≤ Agreeing grammar tokens classSets α :=
  (seqDen_mono fun n _ => tailLang_le_agreeing hplain n).trans (seq_le_agreeing hα)

theorem mem_readTail {p : Production} {alt : Sequence} (halt : alt ∈ p.alts)
    {τ : Element → Language String} {ρ : Env String} {w : List String}
    (hw : w ∈ Cf.seq (den τ ρ) alt) :
    w ∈ altsDen τ ρ (readTail p).alts := by
  unfold readTail
  split
  · next spec _ =>
    refine mem_altsDen.mpr ⟨_, List.mem_map_of_mem halt, ?_⟩
    rw [Cf.seq_append, Cf.seq_singleton, den_star]
    exact ⟨w, hw, [], Language.nil_mem_kstar _, List.append_nil w⟩
  · exact mem_altsDen.mpr ⟨alt, halt, hw⟩

/-- What the alternatives alone derive is derived. -/
theorem altsLang_le_tailLang (n : String) :
    altsLang grammar tokens classSets n ≤ tailLang grammar tokens classSets n := by
  have hsolves : Solves (tokenLeaf tokens) (grammar.productions.map (readClass classSets))
      (tailLang grammar tokens classSets) := by
    intro q hq x hx
    obtain ⟨p, hp, rfl⟩ := List.mem_map.mp hq
    rw [name_readClass]
    unfold readClass at hx
    split at hx
    · next set hclass =>
      refine mem_nameLang_iff_alts.mpr ⟨_, List.mem_map_of_mem hp, ?_, ?_⟩
      · rw [name_readClass, name_readTail]
      · rw [readClass, name_readTail, hclass]
        exact hx
    · next hclass =>
      obtain ⟨alt, halt, hx⟩ := mem_altsDen.mp hx
      exact mem_tailLang hp hclass (mem_readTail halt hx)
  exact nameLang_le hsolves n

theorem altsSeq_le_tailSeq (α : Sequence) :
    altsSeq grammar tokens classSets α ≤ tailSeq grammar tokens classSets α :=
  seqDen_mono fun n _ => altsLang_le_tailLang n

/-! ## The enumeration -/

/-- **A string begins with a path**, which is all of it or fills the window, where the enumeration
reads all that comes before. -/
theorem exists_path_of_read (hnd : grammar.names.Nodup) (hplain : Plain grammar)
    (hnamed : ∀ n set, classSets.lookup n = some set → n ∈ grammar.names) {alt : Sequence}
    (halt : ∀ el ∈ alt, el.isTerminal = true ∨ el.isRef = true) {k : Nat} {a : List String}
    (ha : a ∈ tailSeq grammar tokens classSets alt)
    (hread : ∀ w, w <+: a → w.length < k → ¬ UnreadBehind grammar tokens classSets alt w) :
    ∃ q ∈ enumerate grammar tokens classSets k (fun _ => true) alt,
      q.tokens <+: a ∧ (k ≤ q.tokens.length ∨ q.done = false ∧ q.tokens = a) := by
  obtain ⟨v, hv, hagree⟩ := tailSeq_le_agreeing hplain halt ha
  obtain ⟨q, hq, hqv, hcovers⟩ := exists_path hnd hplain halt k hv
  -- a path cut within the window would be cut behind tokens of the string
  have hcut : q.tokens <+: a → q.done = true → k ≤ q.tokens.length := by
    intro hqa hdone
    by_contra hlt
    rcases (reads_of_mem hnamed hplain _ k [] alt halt q hq).cut hdone with hcut | ⟨m, hm, -⟩
    · exact hread _ hqa (Nat.lt_of_not_le hlt) (.inl hcut)
    · cases hm
  rcases hagree with rfl | ⟨w, hw, hwa, hwv⟩
  · refine ⟨q, hq, hqv, ?_⟩
    cases hdone : q.done with
    | true => exact .inl (hcut hqv hdone)
    | false =>
      rw [hdone] at hcovers
      rcases hcovers with h | h | h
      · cases h
      · exact .inr ⟨rfl, h⟩
      · exact .inl h
  · have hfull : k ≤ w.length := by
      by_contra hlt
      exact hread w hwa (Nat.lt_of_not_le hlt) (.inr hw)
    have hqa : q.tokens <+: a :=
      (List.prefix_of_prefix_length_le hqv hwv ((within_true hq).trans hfull)).trans hwa
    refine ⟨q, hq, hqa, .inl ?_⟩
    rcases hcovers with h | h | h
    · exact hcut hqa h
    · rw [h]
      exact hfull.trans hwv.length_le
    · exact h

/-- **A path begins a string**, and is one when it is neither truncated nor fills the window, in a
grammar where everything derives something. -/
theorem exists_string_of_path (hplain : Plain grammar)
    (hnamed : ∀ n set, classSets.lookup n = some set → n ∈ grammar.names)
    (hlive : ∀ p ∈ grammar.productions, ∀ alt ∈ p.alts, Live grammar tokens classSets alt)
    {p : Production} (hp : p ∈ grammar.productions) {alt : Sequence} (halt : alt ∈ p.alts) {k : Nat}
    {q : PrefixPath} (hq : q ∈ enumerate grammar tokens classSets k (fun _ => true) alt)
    (hcut : q.done = true → k ≤ q.tokens.length) :
    ∃ a ∈ tailSeq grammar tokens classSets alt, q.tokens <+: a ∧
      (k ≤ q.tokens.length ∨ q.tokens = a) := by
  have hreads := reads_of_mem hnamed hplain _ k [] alt (hplain p hp alt halt) q hq
  by_cases hfull : k ≤ q.tokens.length
  · obtain ⟨a, ha, hqa⟩ := hreads.upTo.begins hlive (hlive p hp alt halt)
    exact ⟨a, altsSeq_le_tailSeq alt ha, hqa, .inl hfull⟩
  · have hdone : q.done = false := by
      cases h : q.done with
      | true => exact absurd (hcut h) hfull
      | false => rfl
    exact ⟨q.tokens, altsSeq_le_tailSeq alt (hreads.whole hdone (Nat.lt_of_not_le hfull)),
      List.prefix_rfl, .inr rfl⟩

end

end TabnasBnf
