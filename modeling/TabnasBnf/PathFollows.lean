import TabnasBnf.PathCuts

/-!
# The enumeration follows what the alternatives read

The other half of `reads_of_mem`. What the alternatives of a sequence may have read (`ReadsUpTo`),
`alt_prefixes_raw` follows: a path goes on past the tokens, or stops within them, cut or with its
window full (`exists_path_of_readsUpTo`); and where the enumeration stops (`StopsAt`), a path does
(`exists_path_of_stopsAt`).

* `stops_or_reaches` walks the first elements of a sequence, `stops_or_enters` a reference behind
  them; the runs are the inductions over `CutWithin` and over `ReadsUpTo`.
* A path cut before its first token is lost. Without left recursion at the corner none is that a
  string needs (`LeadsOn`).
-/

namespace TabnasBnf

section

variable {grammar : Grammar} {tokens : Tokens} {classSets : List (String × String)}

/-! ## Walks go on -/

theorem walk_append (extend : Element → PrefixPath → List PrefixPath) (maxK : Nat) :
    ∀ (α β : Sequence) (p : PrefixPath),
      walk extend maxK (α ++ β) p = (walk extend maxK α p).flatMap (walk extend maxK β)
  | [], β, p => by simp [walk]
  | el :: α, β, p => by
    by_cases hp : p.closed maxK = true
    · simp [walk_closed hp]
    · simp only [List.cons_append, walk, hp, Bool.false_eq_true, if_false, List.flatMap_assoc]
      congr 1
      funext r
      exact walk_append extend maxK α β r

/-- Steps that lead on make walks that do. -/
theorem exists_walk {extend : Element → PrefixPath → List PrefixPath} {maxK : Nat}
    (hextend : ∀ el p, p.closed maxK = false → ∃ r ∈ extend el p, p.tokens <+: r.tokens) :
    ∀ (β : Sequence) (p : PrefixPath), ∃ q ∈ walk extend maxK β p, p.tokens <+: q.tokens
  | [], p => ⟨p, List.mem_singleton.mpr rfl, List.prefix_rfl⟩
  | el :: β, p => by
    cases hp : p.closed maxK with
    | true => exact ⟨p, by rw [walk_closed hp]; exact List.mem_singleton.mpr rfl, List.prefix_rfl⟩
    | false =>
      obtain ⟨r, hr, hpr⟩ := hextend el p hp
      obtain ⟨q, hq, hrq⟩ := exists_walk hextend β r
      refine ⟨q, ?_, hpr.trans hrq⟩
      simp only [walk, hp, Bool.false_eq_true, if_false, List.mem_flatMap]
      exact ⟨r, hr, hq⟩

/-- Every element leads on, as long as every alternative has a path. -/
theorem exists_extendAt {depth k : Nat} {visited : List String}
    (henter : ∀ m k' sub, m ∈ grammar.names → m ∉ visited →
      ∃ q, q ∈ altPrefixesRaw grammar tokens classSets depth k' (m :: visited) (fun _ => true) sub)
    (el : Element) (p : PrefixPath) :
    ∃ r ∈ extendAt grammar tokens classSets depth k visited el p, p.tokens <+: r.tokens := by
  have hcut : ∃ r ∈ [(⟨p.tokens, true⟩ : PrefixPath)], p.tokens <+: r.tokens :=
    ⟨_, List.mem_singleton.mpr rfl, List.prefix_rfl⟩
  unfold extendAt extendPath
  split
  · next tok _ =>
    rw [if_pos (by simp)]
    exact ⟨_, List.mem_singleton.mpr rfl, List.prefix_append _ _⟩
  split
  · exact hcut
  next name _ =>
  split
  · exact hcut
  next hvisited =>
  split
  · exact hcut
  next found hfound =>
  obtain ⟨hfind, halts⟩ := Option.filter_eq_some_iff.mp hfound
  obtain ⟨sub, hsub⟩ := List.exists_mem_of_ne_nil found.alts (by simpa using halts)
  obtain ⟨q, hq⟩ := henter name (k - p.tokens.length) sub (mem_names_of_find hfind).1
    (by simpa using hvisited)
  refine ⟨⟨p.tokens ++ q.tokens, q.done⟩, ?_, List.prefix_append _ _⟩
  dsimp only
  rw [ite_self]
  exact List.mem_flatMap.mpr ⟨sub, hsub, List.mem_map.mpr ⟨q, hq, rfl⟩⟩

/-- **Every alternative has a path.** -/
theorem exists_altPrefixesRaw (depth : Nat) : ∀ (k : Nat) (visited : List String) (alt : Sequence),
    (unvisited grammar visited).length < depth →
      ∃ q, q ∈ altPrefixesRaw grammar tokens classSets depth k visited (fun _ => true) alt := by
  induction depth with
  | zero => exact fun _ _ _ h => absurd h (Nat.not_lt_zero _)
  | succ depth ih =>
    intro k visited alt hdepth
    have henter : ∀ m k' sub, m ∈ grammar.names → m ∉ visited → ∃ q,
        q ∈ altPrefixesRaw grammar tokens classSets depth k' (m :: visited) (fun _ => true) sub := by
      intro m k' sub hm hvisited
      have hless := length_unvisited_cons hm hvisited
      exact ih k' (m :: visited) sub (by omega)
    have hwalk : ∃ q ∈ walk (extendAt grammar tokens classSets depth k visited) k alt ⟨[], false⟩,
        [] <+: q.tokens := exists_walk (fun el p _ => exists_extendAt henter el p) alt ⟨[], false⟩
    obtain ⟨q, hq, -⟩ := hwalk
    refine ⟨q, ?_⟩
    rwa [altPrefixesRaw_succ]

/-- Whatever the path so far, it is gone on with. -/
theorem exists_walk_extendAt {depth k : Nat} {visited : List String}
    (hdepth : (unvisited grammar visited).length ≤ depth) (β : Sequence) (p : PrefixPath) :
    ∃ q ∈ walk (extendAt grammar tokens classSets depth k visited) k β p,
      p.tokens <+: q.tokens := by
  refine exists_walk (fun el p _ => exists_extendAt (fun m k' sub hm hvisited => ?_) el p) β p
  have hless := length_unvisited_cons hm hvisited
  exact exists_altPrefixesRaw depth k' (m :: visited) sub (by omega)

/-! ## What the enumeration follows -/

variable {S : Set String}

theorem AtCorner.append {α : Sequence} {m : String} (h : AtCorner grammar tokens classSets α m)
    (β : Sequence) : AtCorner grammar tokens classSets (α ++ β) m := by
  obtain ⟨u, el, v, rfl, hel, hu⟩ := h
  exact ⟨u, el, v ++ β, by simp, hel, hu⟩

/-- A name referred to behind no token is at the corner. -/
theorem RefersTo.atCorner {α : Sequence} {m : String}
    (h : RefersTo grammar tokens classSets α [] m) : AtCorner grammar tokens classSets α m := by
  obtain ⟨u, el, v, rfl, hel, hw⟩ := h
  refine ⟨u, el, v, rfl, hel, fun x hx => ?_⟩
  exact nil_mem_seq.mp hw x hx

theorem LeadsOn.enter {visited : List String} {p : Production} {alt α : Sequence}
    (h : LeadsOn grammar tokens classSets S visited α) (hS : Closed grammar tokens classSets S)
    (hα : AtCorner grammar tokens classSets α p.name) (hp : p ∈ grammar.productions)
    (halt : alt ∈ p.alts) : LeadsOn grammar tokens classSets S (p.name :: visited) alt := by
  intro m hm
  obtain ⟨hname, hlead⟩ := h p.name hα
  have hcorner : TokenCorner grammar tokens classSets p.name m := ⟨p, hp, rfl, alt, halt, hm⟩
  refine ⟨(hS _ hname).1 m hcorner, fun v hv => ?_⟩
  rcases List.mem_cons.mp hv with rfl | hv
  · exact .single hcorner
  · exact (hlead v hv).tail hcorner

variable (grammar tokens classSets) in
/-- A path of the walk is cut, or full, within the tokens; and it has one, unless a name on the way
is left-recursive. -/
def StopsWithin (S : Set String) (depth k : Nat) (visited : List String) (α : Sequence)
    (x : List String) : Prop :=
  ∃ q ∈ walk (extendAt grammar tokens classSets depth k visited) k α ⟨[], false⟩,
    q.tokens <+: x ∧ q.closed k = true ∧
      (x ≠ [] → LeadsOn grammar tokens classSets S visited α → ¬ q.lost)

variable (grammar tokens classSets) in
/-- The enumeration within the names visited is cut behind the tokens: at a name without
alternatives, or at one visited. -/
inductive CutWithin : List String → Sequence → List String → Prop
  | here {visited : List String} {α : Sequence} {w : List String} {m : String}
      (h : RefersTo grammar tokens classSets α w m) (hclass : classSets.lookup m = none)
      (hcut : m ∈ visited ∨ ∀ p, grammar.find m = some p → p.alts = []) : CutWithin visited α w
  | within {visited : List String} {α alt : Sequence} {w x : List String} {p : Production}
      (h : RefersTo grammar tokens classSets α w p.name) (hp : p ∈ grammar.productions)
      (hclass : classSets.lookup p.name = none) (halt : alt ∈ p.alts)
      (hx : CutWithin (p.name :: visited) alt x) : CutWithin visited α (w ++ x)

theorem LeadsTo.cutWithin {α : Sequence} {w : List String} {m : String}
    (h : LeadsTo grammar tokens classSets α w m) (hclass : classSets.lookup m = none)
    {visited : List String} (hcut : m ∈ visited ∨ ∀ p, grammar.find m = some p → p.alts = []) :
    CutWithin grammar tokens classSets visited α w := by
  induction h generalizing visited with
  | here h => exact .here h hclass hcut
  | within h hp hpclass halt _ ih =>
    exact .within h hp hpclass halt (ih hclass (hcut.imp_left (List.mem_cons_of_mem _)))

theorem LeadsTo.cutWithin_back {α alt : Sequence} {w x : List String} {p : Production}
    (h : LeadsTo grammar tokens classSets α w p.name) (hp : p ∈ grammar.productions)
    (hclass : classSets.lookup p.name = none) (halt : alt ∈ p.alts)
    (hback : LeadsTo grammar tokens classSets alt x p.name) {visited : List String} :
    CutWithin grammar tokens classSets visited α (w ++ x) := by
  generalize hname : p.name = n at h
  induction h generalizing visited with
  | here h =>
    subst hname
    exact .within h hp hclass halt (hback.cutWithin hclass (.inl List.mem_cons_self))
  | within h hq hqclass hsub _ ih =>
    rw [List.append_assoc]
    exact .within h hq hqclass hsub (ih hname)

/-- Where the enumeration is cut, it is within any names visited. -/
theorem CutBehind.cutWithin {α : Sequence} {x : List String}
    (h : CutBehind grammar tokens classSets α x) {visited : List String} :
    CutWithin grammar tokens classSets visited α x := by
  cases h with
  | stuck h hclass halts => exact h.cutWithin hclass (.inr halts)
  | back h hp hclass halt hback => exact h.cutWithin_back hp hclass halt hback

/-- What is made of a path at a reference that cuts it. -/
theorem extendPath_cut {enter : Nat → List String → (String → Bool) → Sequence → List PrefixPath}
    {k : Nat} {visited : List String} {m : String} {debt : Option (List (String × Int))}
    {sp : Option SrcSpan} (hclass : classSets.lookup m = none)
    (hcut : m ∈ visited ∨ ∀ p, grammar.find m = some p → p.alts = []) (w : List String) :
    extendPath grammar tokens classSets enter k visited (fun _ => true) (.ref m debt sp)
      ⟨w, false⟩ = [⟨w, true⟩] := by
  by_cases hvisited : m ∈ visited
  · simp [extendPath, addedToken, hclass, Element.refName, hvisited]
  · have hnone : (grammar.find m).filter (fun p => !p.alts.isEmpty) = none := by
      refine Option.filter_eq_none_iff.mpr fun p hp => ?_
      simp [hcut.resolve_left hvisited p hp]
    simp [extendPath, addedToken, hclass, Element.refName, hvisited, hnone]

/-- A path within the alternative is one of the sequence, and is cut or full when that is. -/
theorem StopsWithin.enter (hS : Closed grammar tokens classSets S) {depth d k : Nat}
    {visited : List String} {α alt : Sequence} {w x : List String} {p : Production}
    (h : RefersTo grammar tokens classSets α w p.name) (hp : p ∈ grammar.productions)
    (halt : alt ∈ p.alts) {β : Sequence}
    (henters : ∀ q ∈ walk (extendAt grammar tokens classSets d (k - w.length) (p.name :: visited))
        (k - w.length) alt ⟨[], false⟩,
      ∀ r ∈ walk (extendAt grammar tokens classSets depth k visited) k β ⟨w ++ q.tokens, q.done⟩,
        r ∈ walk (extendAt grammar tokens classSets depth k visited) k α ⟨[], false⟩)
    (hstops : StopsWithin grammar tokens classSets S d (k - w.length) (p.name :: visited) alt x) :
    StopsWithin grammar tokens classSets S depth k visited α (w ++ x) := by
  obtain ⟨q, hq, hqx, hclosed, hlost⟩ := hstops
  have hclosed' : PrefixPath.closed k ⟨w ++ q.tokens, q.done⟩ = true := by
    simp only [PrefixPath.closed, List.length_append, ge_iff_le, Bool.or_eq_true,
      decide_eq_true_eq] at hclosed ⊢
    exact hclosed.imp_right fun h => by omega
  refine ⟨⟨w ++ q.tokens, q.done⟩, henters q hq _ ?_, (List.prefix_append_right_inj w).mpr hqx,
    hclosed', fun hne hleads hl => ?_⟩
  · rw [walk_closed hclosed']
    exact List.mem_singleton.mpr rfl
  · obtain ⟨rfl, hnil⟩ := List.append_eq_nil_iff.mp hl.1
    exact hlost hne (hleads.enter hS h.atCorner hp halt) ⟨hnil, hl.2⟩

section Follow

variable (hnd : grammar.names.Nodup) (hplain : Plain grammar)
  (hS : Closed grammar tokens classSets S)

include hnd hplain hS

/-- Over the first elements of a sequence the enumeration follows each of their strings: to its end,
or until it stops. -/
theorem stops_or_reaches {depth k : Nat} {visited : List String}
    (hdepth : (unvisited grammar visited).length ≤ depth) {u β : Sequence}
    (hu : ∀ el ∈ u, el.isTerminal = true ∨ el.isRef = true) {w : List String}
    (hw : w ∈ altsSeq grammar tokens classSets u) :
    (∃ q ∈ walk (extendAt grammar tokens classSets depth k visited) k (u ++ β) ⟨[], false⟩,
        q.tokens <+: w ∧ q.closed k = true ∧
          (LeadsOn grammar tokens classSets S visited (u ++ β) → ¬ q.lost)) ∨
      ¬ k ≤ w.length ∧
        ∀ q ∈ walk (extendAt grammar tokens classSets depth k visited) k β ⟨w, false⟩,
          q ∈ walk (extendAt grammar tokens classSets depth k visited) k (u ++ β) ⟨[], false⟩ := by
  have hlisted : w ∈ Cf.seq (den (tokenLeaf tokens) (Listed grammar tokens classSets S)) u :=
    seqDen_mono (fun n _ => altsLang_le_listed hnd hplain hS n) hw
  obtain ⟨q, hq, ⟨hqw, hcovers⟩, hlost⟩ := walk_covers (k := k) hS hdepth u hu [] w hlisted
  by_cases hclosed : q.closed k = true
  · refine .inl ⟨q, ?_, hqw, hclosed, fun hleads => hlost fun _ m hm => hleads m (hm.append β)⟩
    rw [walk_append, List.mem_flatMap]
    exact ⟨q, hq, by rw [walk_closed hclosed]; exact List.mem_singleton.mpr rfl⟩
  · obtain ⟨ts, done⟩ := q
    simp only [PrefixPath.closed, ge_iff_le, Bool.or_eq_true, decide_eq_true_eq, not_or,
      Bool.not_eq_true] at hclosed
    obtain ⟨rfl, hlen⟩ := hclosed
    obtain rfl : ts = w := by
      rcases hcovers with h | h | h
      · cases h
      · exact h
      · exact absurd h hlen
    refine .inr ⟨hlen, fun r hr => ?_⟩
    rw [walk_append, List.mem_flatMap]
    exact ⟨⟨ts, false⟩, hq, hr⟩

/-- At a reference behind its tokens the enumeration has stopped, or it enters the name. -/
theorem stops_or_enters {depth k : Nat} {visited : List String}
    (hdepth : (unvisited grammar visited).length ≤ depth) {α : Sequence}
    (hα : ∀ el ∈ α, el.isTerminal = true ∨ el.isRef = true) {w : List String} {p : Production}
    (h : RefersTo grammar tokens classSets α w p.name) (hp : p ∈ grammar.productions)
    (hclass : classSets.lookup p.name = none) {alt : Sequence} (halt : alt ∈ p.alts) :
    (∃ q ∈ walk (extendAt grammar tokens classSets depth k visited) k α ⟨[], false⟩,
        q.tokens <+: w ∧ q.closed k = true ∧
          (LeadsOn grammar tokens classSets S visited α → ¬ q.lost)) ∨
      ∃ d β, (unvisited grammar (p.name :: visited)).length ≤ d ∧
        ∀ q ∈ walk (extendAt grammar tokens classSets d (k - w.length) (p.name :: visited))
            (k - w.length) alt ⟨[], false⟩,
          ∀ r ∈ walk (extendAt grammar tokens classSets depth k visited) k β
              ⟨w ++ q.tokens, q.done⟩,
            r ∈ walk (extendAt grammar tokens classSets depth k visited) k α ⟨[], false⟩ := by
  have hname := h
  obtain ⟨u, el, β, rfl, hel, hw⟩ := h
  obtain ⟨debt, sp, rfl⟩ := Element.refName_eq_some.mp hel
  obtain hstops | ⟨hopen, hreach⟩ := stops_or_reaches hnd hplain hS hdepth
    (fun el hel => hα el (List.mem_append_left _ hel)) hw
  · exact .inl hstops
  by_cases hvisited : p.name ∈ visited
  · refine .inl ⟨⟨w, true⟩, hreach _ ?_, List.prefix_rfl, rfl, fun hleads hlost => ?_⟩
    · refine mem_walk_cons (r := ⟨w, true⟩) hopen ?_ ?_
      · rw [extendAt, extendPath_cut hclass (.inl hvisited)]
        exact List.mem_singleton.mpr rfl
      · rw [walk_closed (by simp [PrefixPath.closed])]
        exact List.mem_singleton.mpr rfl
    · obtain rfl : w = [] := hlost.1
      obtain ⟨hmS, hcycle⟩ := hleads p.name hname.atCorner
      exact (hS p.name hmS).2 (hcycle p.name hvisited)
  · have hless := length_unvisited_cons (mem_namesOf.mpr ⟨p, hp, rfl⟩) hvisited
    obtain ⟨d, rfl⟩ : ∃ d, depth = d + 1 := ⟨depth - 1, by omega⟩
    refine .inr ⟨d, β, by omega, fun q hq r hr => hreach _ (mem_walk_cons hopen ?_ hr)⟩
    refine mem_extendAt_ref hclass hvisited (find_of_mem hnd hp) halt ?_
    rwa [altPrefixesRaw_succ]

/-- **Where the enumeration is cut, it stops.** -/
theorem CutWithin.stopsWithin {visited : List String} {α : Sequence} {x : List String}
    (h : CutWithin grammar tokens classSets visited α x) : ∀ {depth k : Nat},
    (unvisited grammar visited).length ≤ depth →
      (∀ el ∈ α, el.isTerminal = true ∨ el.isRef = true) →
        StopsWithin grammar tokens classSets S depth k visited α x := by
  induction h with
  | @here visited α w m h hclass hcut =>
    intro depth k hdepth hα
    obtain ⟨u, el, β, rfl, hel, hw⟩ := h
    obtain ⟨debt, sp, rfl⟩ := Element.refName_eq_some.mp hel
    obtain ⟨q, hq, hqw, hclosed, hlost⟩ | ⟨hopen, hreach⟩ := stops_or_reaches hnd hplain hS hdepth
      (fun el hel => hα el (List.mem_append_left _ hel)) hw
    · exact ⟨q, hq, hqw, hclosed, fun _ => hlost⟩
    · refine ⟨⟨w, true⟩, hreach _ ?_, List.prefix_rfl, rfl, fun hne _ hlost => hne hlost.1⟩
      refine mem_walk_cons (r := ⟨w, true⟩) hopen ?_ ?_
      · rw [extendAt, extendPath_cut hclass hcut]
        exact List.mem_singleton.mpr rfl
      · rw [walk_closed (by simp [PrefixPath.closed])]
        exact List.mem_singleton.mpr rfl
  | @within visited α alt w x p h hp hclass halt _ ih =>
    intro depth k hdepth hα
    obtain ⟨q, hq, hqw, hclosed, hlost⟩ | ⟨d, β, hd, henters⟩ :=
      stops_or_enters hnd hplain hS hdepth hα h hp hclass halt
    · exact ⟨q, hq, hqw.trans (List.prefix_append w x), hclosed, fun _ => hlost⟩
    · exact .enter hS h hp halt henters (ih hd (hplain p hp alt halt))

/-- **What the alternatives may have read, the enumeration follows**: it stops within the tokens, or
a path goes on past them. -/
theorem ReadsUpTo.follows {α : Sequence} {x : List String}
    (h : ReadsUpTo grammar tokens classSets α x) : ∀ {depth k : Nat} {visited : List String},
    (unvisited grammar visited).length ≤ depth →
      (∀ el ∈ α, el.isTerminal = true ∨ el.isRef = true) →
        StopsWithin grammar tokens classSets S depth k visited α x ∨
          ∃ q ∈ walk (extendAt grammar tokens classSets depth k visited) k α ⟨[], false⟩,
            x <+: q.tokens := by
  induction h with
  | @before α u β w x hα hw hx =>
    intro depth k visited hdepth hplainα
    subst hα
    obtain ⟨q, hq, hqw, hclosed, hlost⟩ | ⟨-, hreach⟩ := stops_or_reaches hnd hplain hS hdepth
      (fun el hel => hplainα el (List.mem_append_left _ hel)) hw
    · rcases List.prefix_or_prefix_of_prefix hqw hx with hqx | hxq
      · exact .inl ⟨q, hq, hqx, hclosed, fun _ => hlost⟩
      · exact .inr ⟨q, hq, hxq⟩
    · obtain ⟨q, hq, hwq⟩ := exists_walk_extendAt hdepth β ⟨w, false⟩
      exact .inr ⟨q, hreach q hq, hx.trans hwq⟩
  | @within α alt w x p h hp hclass halt _ ih =>
    intro depth k visited hdepth hα
    obtain ⟨q, hq, hqw, hclosed, hlost⟩ | ⟨d, β, hd, henters⟩ :=
      stops_or_enters hnd hplain hS hdepth hα h hp hclass halt
    · exact .inl ⟨q, hq, hqw.trans (List.prefix_append w x), hclosed, fun _ => hlost⟩
    · rcases ih hd (hplain p hp alt halt) with hstops | ⟨q, hq, hxq⟩
      · exact .inl (.enter hS h hp halt henters hstops)
      · obtain ⟨r, hr, hqr⟩ := exists_walk_extendAt hdepth β ⟨w ++ q.tokens, q.done⟩
        exact .inr ⟨r, henters q hq r hr, ((List.prefix_append_right_inj w).mpr hxq).trans hqr⟩

end Follow

/-! ## Where the enumeration stops -/

variable (grammar tokens classSets) in
/-- The enumeration goes no further than the tokens: they fill its window, are a whole string, or
are where it is cut. -/
def StopsAt (maxK : Nat) (α : Sequence) (x : List String) : Prop :=
  maxK ≤ x.length ∨ x ∈ altsSeq grammar tokens classSets α ∨ CutBehind grammar tokens classSets α x

section Paths

variable {k : Nat} {α : Sequence} {x : List String}

/-- What a path holds, the alternatives may have read, and there the enumeration stops. -/
theorem readsUpTo_of_mem (hplain : Plain grammar)
    (hnamed : ∀ n set, classSets.lookup n = some set → n ∈ grammar.names)
    (hα : ∀ el ∈ α, el.isTerminal = true ∨ el.isRef = true) {q : PrefixPath}
    (hq : q ∈ enumerate grammar tokens classSets k (fun _ => true) α) :
    ReadsUpTo grammar tokens classSets α q.tokens ∧
      StopsAt grammar tokens classSets k α q.tokens := by
  have hreads := reads_of_mem hnamed hplain _ k [] α hα q hq
  refine ⟨hreads.upTo, ?_⟩
  cases hdone : q.done with
  | true =>
    rcases hreads.cut hdone with hcut | ⟨m, hm, -⟩
    · exact .inr (.inr hcut)
    · cases hm
  | false =>
    by_cases hfull : k ≤ q.tokens.length
    · exact .inl hfull
    · exact .inr (.inl (hreads.whole hdone (Nat.lt_of_not_le hfull)))

theorem exists_path_of_stopsWithin (hlr : NoLeftRecursion grammar tokens classSets α) (hk : 0 < k)
    (hne : x ≠ [])
    (h : ∀ S, Closed grammar tokens classSets S → StopsWithin grammar tokens classSets S
      grammar.productions.length k [] α x) :
    ∃ q ∈ enumerate grammar tokens classSets k (fun _ => true) α, q.tokens ≠ [] ∧ q.tokens <+: x := by
  obtain ⟨S, hS, hleads⟩ := hlr.exists_closed
  obtain ⟨q, hq, hqx, hclosed, hlost⟩ := h S hS
  refine ⟨q, ?_, fun hnil => hlost hne hleads ⟨hnil, ?_⟩, hqx⟩
  · rw [enumerate, altPrefixesRaw_succ]
    exact hq
  · simpa [PrefixPath.closed, hnil, hk.ne'] using hclosed

section Exists

variable (hnd : grammar.names.Nodup) (hplain : Plain grammar)
  (hα : ∀ el ∈ α, el.isTerminal = true ∨ el.isRef = true)
  (hlr : NoLeftRecursion grammar tokens classSets α) (hk : 0 < k) (hne : x ≠ [])

include hnd hplain hα hlr hk hne

/-- **A path follows what the alternatives may have read.** -/
theorem exists_path_of_readsUpTo (h : ReadsUpTo grammar tokens classSets α x) :
    ∃ q ∈ enumerate grammar tokens classSets k (fun _ => true) α,
      q.tokens ≠ [] ∧ (q.tokens <+: x ∨ x <+: q.tokens) := by
  by_cases hpast : ∃ q ∈ enumerate grammar tokens classSets k (fun _ => true) α, x <+: q.tokens
  · obtain ⟨q, hq, hxq⟩ := hpast
    exact ⟨q, hq, fun hnil => hne (List.prefix_nil.mp (hnil ▸ hxq)), .inr hxq⟩
  · obtain ⟨q, hq, hqne, hqx⟩ := exists_path_of_stopsWithin hlr hk hne fun S hS => by
      refine (h.follows hnd hplain hS length_unvisited_nil hα).resolve_right fun ⟨q, hq, hxq⟩ => ?_
      exact hpast ⟨q, by rw [enumerate, altPrefixesRaw_succ]; exact hq, hxq⟩
    exact ⟨q, hq, hqne, .inl hqx⟩

/-- **A path stops within tokens at which the enumeration does.** -/
theorem exists_path_of_stopsAt (h : ReadsUpTo grammar tokens classSets α x)
    (hstops : StopsAt grammar tokens classSets k α x) :
    ∃ q ∈ enumerate grammar tokens classSets k (fun _ => true) α, q.tokens ≠ [] ∧ q.tokens <+: x := by
  rcases hstops with hfull | hwhole | hcut
  · obtain ⟨q, hq, hqne, hqx | hxq⟩ := exists_path_of_readsUpTo hnd hplain hα hlr hk hne h
    · exact ⟨q, hq, hqne, hqx⟩
    · obtain rfl : x = q.tokens := hxq.eq_of_length_le ((within_true hq).trans hfull)
      exact ⟨q, hq, hqne, List.prefix_rfl⟩
  · obtain ⟨q, hq, ⟨hqx, hcovers⟩, hlost⟩ := enumerate_covers hnd hplain hα hlr k hwhole
    refine ⟨q, hq, fun hnil => ?_, hqx⟩
    rcases hcovers with hdone | hx | hfull
    · exact hlost ⟨hnil, hdone⟩
    · exact hne (hx ▸ hnil)
    · rw [hnil] at hfull
      exact absurd hfull (by simpa using hk.ne')
  · exact exists_path_of_stopsWithin hlr hk hne fun S hS =>
      hcut.cutWithin.stopsWithin hnd hplain hS length_unvisited_nil hα

end Exists

end Paths

end

end TabnasBnf
