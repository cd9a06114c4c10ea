import Mathlib.Logic.Relation
import TabnasBnf.DispatchDecides
import TabnasBnf.Semantics

/-!
# The enumeration covers

Every string of an alternative begins with a path of its enumeration, when no production at its
left corner is left-recursive (`enumerate_covers`), as far as the alternatives alone derive it. A
production carrying `tail_repeat` derives more than its alternatives do; what that leaves of the
dispatch prefixes is in `DispatchRepeats.lean`.

* A token of the strings is a token name; a token class is read as its set's token.
* `Covers k p u`: the path `p` is a prefix of `u`, and all of it unless truncated or `k` long.
* `walk_covers` is the step, over the elements of an alternative; the run over the productions is
  the least-solution rule `nameLang_le`.
-/

namespace TabnasBnf

open Relation

/-- A terminal stands for its token. -/
def tokenLeaf (tokens : Tokens) (el : Element) : Language String := {[tokens.name el]}

/-- A token class read as its set's token. -/
def readClass (classSets : List (String × String)) (p : Production) : Production :=
  match classSets.lookup p.name with
  | some set => { p with alts := [[.token set none]] }
  | none => p

/-- A production carrying `tail_repeat` read as `prefix (sep prefix)*`. -/
def readTail (p : Production) : Production :=
  match p.tailRepeat with
  | some tail => { p with
      alts := p.alts.map fun alt => alt ++ [.star (.group [tail.sep ++ alt] none) none none] }
  | none => p

@[simp] theorem name_readClass (classSets : List (String × String)) (p : Production) :
    (readClass classSets p).name = p.name := by
  unfold readClass
  split <;> rfl

@[simp] theorem name_readTail (p : Production) : (readTail p).name = p.name := by
  unfold readTail
  split <;> rfl

/-- Every alternative holds terminals and references alone. -/
def Plain (grammar : Grammar) : Prop :=
  ∀ p ∈ grammar.productions, ∀ alt ∈ p.alts, ∀ el ∈ alt, el.isTerminal = true ∨ el.isRef = true

section

variable (grammar : Grammar) (tokens : Tokens) (classSets : List (String × String))

/-- What a name derives by the alternatives alone. -/
def altsLang : String → Language String :=
  nameLang (tokenLeaf tokens) (grammar.productions.map (readClass classSets))

/-- What a name derives, tail repeats included. -/
def tailLang : String → Language String :=
  nameLang (tokenLeaf tokens) (grammar.productions.map fun p => readClass classSets (readTail p))

/-- A name is referred to behind elements that derive the empty string. -/
def AtCorner (alt : Sequence) (m : String) : Prop :=
  ∃ u el v, alt = u ++ el :: v ∧ el.refName = some m ∧
    ∀ x ∈ u, [] ∈ den (tokenLeaf tokens) (altsLang grammar tokens classSets) x

/-- A production of the name has the other at a left corner. -/
def TokenCorner (n m : String) : Prop :=
  ∃ p ∈ grammar.productions, p.name = n ∧ ∃ alt ∈ p.alts, AtCorner grammar tokens classSets alt m

/-- No name the alternative leads to is on a cycle of left corners. -/
def NoLeftRecursion (alt : Sequence) : Prop :=
  ∀ c n, AtCorner grammar tokens classSets alt c →
    ReflTransGen (TokenCorner grammar tokens classSets) c n →
    ¬ TransGen (TokenCorner grammar tokens classSets) n n

end

variable {grammar : Grammar} {tokens : Tokens} {classSets : List (String × String)}

/-- The path says how the string begins: all of it, unless truncated or `k` tokens long. -/
def Covers (k : Nat) (p : PrefixPath) (u : List String) : Prop :=
  p.tokens <+: u ∧ (p.done = true ∨ p.tokens = u ∨ k ≤ p.tokens.length)

/-- A truncated path that has no token. -/
def PrefixPath.lost (p : PrefixPath) : Prop := p.tokens = [] ∧ p.done = true

/-! ## The run over an alternative -/

/-- A path in front of one that covers. -/
theorem Covers.append {k : Nat} {p : PrefixPath} {a : List String} (w u : List String)
    (h : Covers (k - w.length) p a) (hclosed : p.done = true ∨ k - w.length ≤ p.tokens.length) :
    Covers k ⟨w ++ p.tokens, p.done⟩ (w ++ (a ++ u)) := by
  obtain ⟨⟨v, hv⟩, -⟩ := h
  refine ⟨⟨v ++ u, by rw [← hv]; simp⟩, ?_⟩
  rcases hclosed with h | h
  · exact .inl h
  · refine .inr (.inr ?_)
    rw [List.length_append]
    omega

variable {S : Set String}

variable (grammar tokens classSets) in
/-- The strings of a name whose beginning every enumeration of its alternatives lists. In `S`, no
path without a token is truncated, as long as the names on the way lead to the name. -/
def Listed (S : Set String) (n : String) : Language String :=
  {a | a ∈ altsLang grammar tokens classSets n ∧
    ∀ p, grammar.find n = some p → classSets.lookup n = none →
    ∀ depth k visited, (unvisited grammar visited).length < depth →
      ∃ alt ∈ p.alts, ∃ q ∈ altPrefixesRaw grammar tokens classSets depth k visited
        (fun _ => true) alt, Covers k q a ∧
          (n ∈ S → (∀ v ∈ visited, ReflTransGen (TokenCorner grammar tokens classSets) v n) →
            ¬ q.lost)}

variable (grammar tokens classSets) in
/-- `S` is closed under left corners and free of left recursion. -/
def Closed (S : Set String) : Prop :=
  ∀ n ∈ S, (∀ m, TokenCorner grammar tokens classSets n m → m ∈ S) ∧
    ¬ TransGen (TokenCorner grammar tokens classSets) n n

variable (grammar tokens classSets) in
/-- Every name on the way leads to the names at the corner of what is left. -/
def LeadsOn (S : Set String) (visited : List String) (β : Sequence) : Prop :=
  ∀ m, AtCorner grammar tokens classSets β m →
    m ∈ S ∧ ∀ v ∈ visited, TransGen (TokenCorner grammar tokens classSets) v m

theorem LeadsOn.tail {visited : List String} {el : Element} {β : Sequence}
    (h : LeadsOn grammar tokens classSets S visited (el :: β))
    (hel : [] ∈ den (tokenLeaf tokens) (altsLang grammar tokens classSets) el) :
    LeadsOn grammar tokens classSets S visited β := by
  rintro m ⟨u, x, v, rfl, hx, hu⟩
  exact h m ⟨el :: u, x, v, rfl, hx, List.forall_mem_cons.mpr ⟨hel, hu⟩⟩

theorem LeadsOn.head {visited : List String} {m : String}
    {debt : Option (List (String × Int))} {sp : Option SrcSpan} {β : Sequence}
    (h : LeadsOn grammar tokens classSets S visited (.ref m debt sp :: β)) :
    m ∈ S ∧ ∀ v ∈ visited, TransGen (TokenCorner grammar tokens classSets) v m :=
  h m ⟨[], _, β, rfl, rfl, by simp⟩

theorem AtCorner.mem_refsIn {alt : Sequence} {m : String}
    (h : AtCorner grammar tokens classSets alt m) : m ∈ refsIn alt := by
  obtain ⟨u, el, v, rfl, hel, -⟩ := h
  obtain ⟨debt, sp, rfl⟩ := Element.refName_eq_some.mp hel
  exact TabnasBnf.mem_refsIn.mpr
    ⟨_, List.mem_append_right _ List.mem_cons_self, by simp [Element.refs]⟩

/-- A class derives its set's token. -/
theorem altsLang_of_class {n set : String} (h : classSets.lookup n = some set) {a : List String}
    (ha : a ∈ altsLang grammar tokens classSets n) : a = [set] := by
  obtain ⟨p, hp, hn, hw⟩ := mem_nameLang_iff_alts.mp ha
  obtain ⟨p, -, rfl⟩ := List.mem_map.mp hp
  have hname : p.name = n := (name_readClass classSets p).symm.trans hn
  rw [readClass, hname, h] at hw
  simp only [altsDen_cons, altsDen_nil, add_zero, Cf.seq_singleton] at hw
  rw [den_terminal rfl] at hw
  exact hw

/-- What an alternative derives, once its names' strings are known. -/
theorem mem_tailLang {p : Production} (hp : p ∈ grammar.productions)
    (hclass : classSets.lookup p.name = none) {u : List String}
    (hu : u ∈ altsDen (tokenLeaf tokens) (tailLang grammar tokens classSets) (readTail p).alts) :
    u ∈ tailLang grammar tokens classSets p.name := by
  have hread : readClass classSets (readTail p) = readTail p := by
    rw [readClass, name_readTail, hclass]
  exact mem_nameLang_iff_alts.mpr ⟨readTail p, List.mem_map.mpr ⟨p, hp, hread⟩, name_readTail p, hu⟩

theorem mem_names_of_altsLang {n : String} {a : List String}
    (ha : a ∈ altsLang grammar tokens classSets n) : n ∈ grammar.names := by
  obtain ⟨p, hp, rfl, -⟩ := mem_nameLang_iff_alts.mp ha
  obtain ⟨q, hq, rfl⟩ := List.mem_map.mp hp
  exact mem_namesOf.mpr ⟨q, hq, (name_readClass classSets q).symm⟩

/-- What an element whose token is known adds. -/
theorem extendPath_token {enter : Nat → List String → (String → Bool) → Sequence →
    List PrefixPath} {k : Nat} {visited : List String} {el : Element} {tok : String}
    (h : addedToken tokens classSets el = some tok) (w : List String) :
    extendPath grammar tokens classSets enter k visited (fun _ => true) el ⟨w, false⟩ =
      [⟨w ++ [tok], false⟩] := by
  simp only [extendPath, h, Bool.or_true, if_true]

variable (grammar tokens classSets) in
/-- `extendPath` as `altPrefixesRaw` runs it at `depth + 1`, without a head filter. -/
abbrev extendAt (depth k : Nat) (visited : List String) : Element → PrefixPath → List PrefixPath :=
  extendPath grammar tokens classSets (altPrefixesRaw grammar tokens classSets depth) k visited
    fun _ => true

variable (grammar tokens classSets) in
/-- Some path that `w` grows into over `β` covers `w` followed by `x`, and is not lost when the
names on the way lead on. -/
def WalkCovers (S : Set String) (depth k : Nat) (visited : List String) (β : Sequence)
    (w x : List String) : Prop :=
  ∃ q ∈ walk (extendAt grammar tokens classSets depth k visited) k β ⟨w, false⟩,
    Covers k q (w ++ x) ∧
      ((w = [] → LeadsOn grammar tokens classSets S visited β) → ¬ q.lost)

section Step

variable {depth k : Nat} {visited : List String} {el : Element} {β : Sequence}
  {w x : List String}

theorem mem_walk_cons {q r : PrefixPath} (hopen : ¬ k ≤ w.length)
    (hr : r ∈ extendAt grammar tokens classSets depth k visited el ⟨w, false⟩)
    (hq : q ∈ walk (extendAt grammar tokens classSets depth k visited) k β r) :
    q ∈ walk (extendAt grammar tokens classSets depth k visited) k (el :: β) ⟨w, false⟩ := by
  have hclosed : PrefixPath.closed k ⟨w, false⟩ = false := by simpa [PrefixPath.closed] using hopen
  simp only [walk, hclosed, Bool.false_eq_true, if_false, List.mem_flatMap]
  exact ⟨r, hr, hq⟩

/-- A window already full. -/
theorem walkCovers_full (hfull : k ≤ w.length) :
    WalkCovers grammar tokens classSets S depth k visited β w x := by
  have hclosed : PrefixPath.closed k ⟨w, false⟩ = true := by simpa [PrefixPath.closed] using hfull
  refine ⟨⟨w, false⟩, ?_, ⟨List.prefix_append _ _, .inr (.inr hfull)⟩, fun _ h => by cases h.2⟩
  rw [walk_closed hclosed]
  exact List.mem_singleton.mpr rfl

/-- An element that adds its token. -/
theorem WalkCovers.token {tok : String} (htok : addedToken tokens classSets el = some tok)
    (h : WalkCovers grammar tokens classSets S depth k visited β (w ++ [tok]) x)
    (hopen : ¬ k ≤ w.length) :
    WalkCovers grammar tokens classSets S depth k visited (el :: β) w ([tok] ++ x) := by
  obtain ⟨q, hq, hcovers, hlost⟩ := h
  refine ⟨q, mem_walk_cons hopen ?_ hq, by simpa using hcovers, fun _ => hlost (by simp)⟩
  rw [extendAt, extendPath_token htok]
  exact List.mem_singleton.mpr rfl

variable {m : String} {debt : Option (List (String × Int))} {sp : Option SrcSpan}

/-- A reference met again: the path is truncated. -/
theorem walkCovers_visited (hS : Closed grammar tokens classSets S) (hopen : ¬ k ≤ w.length)
    (hclass : classSets.lookup m = none) (hm : m ∈ visited) :
    WalkCovers grammar tokens classSets S depth k visited (.ref m debt sp :: β) w x := by
  refine ⟨⟨w, true⟩, mem_walk_cons (r := ⟨w, true⟩) hopen ?_ ?_,
    ⟨List.prefix_append _ _, .inl rfl⟩, fun hleads hlost => ?_⟩
  · simp [extendAt, extendPath, addedToken, hclass, Element.refName, hm]
  · rw [walk_closed (by simp [PrefixPath.closed])]
    exact List.mem_singleton.mpr rfl
  · obtain ⟨hmS, hcycle⟩ := (hleads hlost.1).head
    exact (hS m hmS).2 (hcycle m hm)

theorem mem_extendAt_ref {p : Production} (hclass : classSets.lookup m = none)
    (hm : m ∉ visited) (hfind : grammar.find m = some p) {alt : Sequence} (ha : alt ∈ p.alts)
    {q : PrefixPath} (hq : q ∈ altPrefixesRaw grammar tokens classSets depth (k - w.length)
      (m :: visited) (fun _ => true) alt) :
    ⟨w ++ q.tokens, q.done⟩ ∈ extendAt grammar tokens classSets depth k visited
      (.ref m debt sp) ⟨w, false⟩ := by
  have halts : p.alts.isEmpty = false := by
    cases hp : p.alts with
    | nil => rw [hp] at ha; cases ha
    | cons _ _ => rfl
  simp only [extendAt, extendPath, addedToken, hclass, Element.refName, List.contains_eq_mem,
    hm, decide_false, Bool.false_eq_true, if_false, hfind, Option.filter, halts, Bool.not_false,
    if_true, ite_self, List.mem_flatMap, List.mem_map]
  exact ⟨alt, ha, q, hq, rfl⟩

/-- A reference entered. -/
theorem walkCovers_ref (hdepth : (unvisited grammar visited).length ≤ depth)
    (hopen : ¬ k ≤ w.length) (hclass : classSets.lookup m = none) (hm : m ∉ visited)
    {a : List String} (ha : a ∈ Listed grammar tokens classSets S m)
    (h : WalkCovers grammar tokens classSets S depth k visited β (w ++ a) x) :
    WalkCovers grammar tokens classSets S depth k visited (.ref m debt sp :: β) w (a ++ x) := by
  obtain ⟨halts, hlisted⟩ := ha
  have hname := mem_names_of_altsLang halts
  obtain ⟨p, hfind⟩ : ∃ p, grammar.find m = some p := by
    obtain ⟨p, hp, hn⟩ := mem_namesOf.mp hname
    cases hfind : grammar.find m with
    | none => exact absurd (List.find?_eq_none.mp hfind p hp) (by simpa using hn)
    | some p => exact ⟨p, rfl⟩
  have hlt := length_unvisited_cons hname hm
  obtain ⟨alt, halt, q, hq, hcovers, hlost⟩ :=
    hlisted p hfind hclass depth (k - w.length) (m :: visited) (by omega)
  have hmem : _ ∈ extendAt grammar tokens classSets depth k visited (.ref m debt sp) ⟨w, false⟩ :=
    mem_extendAt_ref hclass hm hfind halt hq
  by_cases hclosed : q.done = true ∨ k - w.length ≤ q.tokens.length
  · refine ⟨_, mem_walk_cons hopen hmem ?_, hcovers.append w x hclosed, fun hleads hl => ?_⟩
    · rw [walk_closed]
      · exact List.mem_singleton.mpr rfl
      · simp only [PrefixPath.closed, List.length_append, ge_iff_le, Bool.or_eq_true,
          decide_eq_true_eq]
        exact hclosed.imp_right fun h => by omega
    · obtain ⟨hnil, hdone⟩ := hl
      obtain ⟨hw, hq'⟩ := List.append_eq_nil_iff.mp hnil
      obtain ⟨hmS, hlead⟩ := (hleads hw).head
      refine hlost hmS (fun v hv => ?_) ⟨hq', hdone⟩
      rcases List.mem_cons.mp hv with rfl | hv
      · exact .refl
      · exact (hlead v hv).to_reflTransGen
  · -- The whole of `a` is consumed, and the path goes on.
    rw [not_or] at hclosed
    obtain rfl : q.tokens = a := by
      rcases hcovers.2 with h | h | h
      · exact absurd h hclosed.1
      · exact h
      · exact absurd h hclosed.2
    obtain ⟨r, hr, hrcovers, hrlost⟩ := h
    have hdone : q.done = false := by simpa using hclosed.1
    rw [hdone] at hmem
    refine ⟨r, mem_walk_cons hopen hmem hr, by simpa using hrcovers, fun hleads => hrlost ?_⟩
    intro hnil
    obtain ⟨hw, hq'⟩ := List.append_eq_nil_iff.mp hnil
    refine (hleads hw).tail ?_
    rw [den_ref, ← hq']
    exact halts

/-- **The step.** Whatever the path so far, the paths it grows into over the elements cover what
the elements derive. -/
theorem walk_covers (hS : Closed grammar tokens classSets S)
    (hdepth : (unvisited grammar visited).length ≤ depth) :
    ∀ (β : Sequence), (∀ el ∈ β, el.isTerminal = true ∨ el.isRef = true) →
    ∀ (w x : List String),
      x ∈ Cf.seq (den (tokenLeaf tokens) (Listed grammar tokens classSets S)) β →
      WalkCovers grammar tokens classSets S depth k visited β w x
  | [], _, w, x, hx => by
    rw [Cf.seq_nil, Language.mem_one] at hx
    subst hx
    exact ⟨⟨w, false⟩, List.mem_singleton.mpr rfl, ⟨by simp, .inr (.inl (by simp))⟩,
      fun _ h => by cases h.2⟩
  | el :: β, hplain, w, x, hx => by
    by_cases hfull : k ≤ w.length
    · exact walkCovers_full hfull
    rw [Cf.seq_cons, Language.mem_mul] at hx
    obtain ⟨a, ha, x, hx, rfl⟩ := hx
    have hβ : ∀ w, WalkCovers grammar tokens classSets S depth k visited β w x := fun w =>
      walk_covers hS hdepth β (fun el hel => hplain el (List.mem_cons_of_mem _ hel)) w x hx
    rcases hplain el List.mem_cons_self with hterm | href
    · rw [den_terminal hterm] at ha
      obtain rfl : a = [tokens.name el] := ha
      refine (hβ _).token ?_ hfull
      cases el <;> first | rfl | simp [Element.isTerminal] at hterm
    · obtain ⟨m, hm⟩ := Element.isRef_iff.mp href
      obtain ⟨debt, sp, rfl⟩ := Element.refName_eq_some.mp hm
      rw [den_ref] at ha
      cases hclass : classSets.lookup m with
      | some set =>
        obtain rfl := altsLang_of_class hclass ha.1
        exact (hβ _).token hclass hfull
      | none =>
        by_cases hv : m ∈ visited
        · exact walkCovers_visited hS hfull hclass hv
        · exact walkCovers_ref hdepth hfull hclass hv ha (hβ _)

end Step

/-! ## The run over the productions -/

theorem altPrefixesRaw_succ (depth k : Nat) (visited : List String) (alt : Sequence) :
    altPrefixesRaw grammar tokens classSets (depth + 1) k visited (fun _ => true) alt =
      walk (extendAt grammar tokens classSets depth k visited) k alt ⟨[], false⟩ := by
  simp only [altPrefixesRaw, extendPaths_eq, List.flatMap_cons, List.flatMap_nil,
    List.append_nil]

/-- **Every string of a name is listed.** -/
theorem altsLang_le_listed (hnd : grammar.names.Nodup) (hplain : Plain grammar)
    (hS : Closed grammar tokens classSets S) (n : String) :
    altsLang grammar tokens classSets n ≤ Listed grammar tokens classSets S n := by
  have hle : ∀ m, Listed grammar tokens classSets S m ≤ altsLang grammar tokens classSets m :=
    fun m a ha => ha.1
  refine nameLang_le (fun q hq x hx => ?_) n
  refine ⟨solves_nameLang q hq (altsDen_mono (fun m _ => hle m) hx), ?_⟩
  intro p hfind hclass depth k visited hdepth
  obtain ⟨p', hp', rfl⟩ := List.mem_map.mp hq
  have hname : (readClass classSets p').name = p'.name := name_readClass classSets p'
  rw [hname] at hfind hclass ⊢
  obtain rfl : p' = p := Option.some.inj ((find_of_mem hnd hp').symm.trans hfind)
  obtain ⟨alt, ha, hx⟩ := mem_altsDen.mp hx
  rw [readClass, hclass] at ha
  cases depth with
  | zero => omega
  | succ depth =>
    have hdepth' : (unvisited grammar visited).length ≤ depth := by omega
    obtain ⟨q, hq, hcovers, hlost⟩ :=
      walk_covers (k := k) hS hdepth' alt (hplain p' hp' alt ha) [] x hx
    refine ⟨alt, ha, q, ?_, hcovers, fun hn hvisited => hlost fun _ m hm => ?_⟩
    · rw [altPrefixesRaw_succ]
      exact hq
    · have hcorner : TokenCorner grammar tokens classSets p'.name m := ⟨p', hp', rfl, alt, ha, hm⟩
      exact ⟨(hS _ hn).1 m hcorner, fun v hv => TransGen.tail' (hvisited v hv) hcorner⟩

/-- Without left recursion no name is left of itself. -/
theorem NoLeftRecursion.exists_closed {α : Sequence}
    (hlr : NoLeftRecursion grammar tokens classSets α) :
    ∃ S, Closed grammar tokens classSets S ∧ LeadsOn grammar tokens classSets S [] α := by
  refine ⟨{n | ∃ m, AtCorner grammar tokens classSets α m ∧
    ReflTransGen (TokenCorner grammar tokens classSets) m n}, ?_,
    fun m hm => ⟨⟨m, hm, .refl⟩, by simp⟩⟩
  rintro n ⟨m, hm, hmn⟩
  exact ⟨fun m' hm' => ⟨m, hm, hmn.tail hm'⟩, hlr m n hm hmn⟩

/-- **Every string of an alternative begins with a path of its enumeration**, and one with a
token or not truncated, when no name it leads to is left-recursive. -/
theorem enumerate_covers (hnd : grammar.names.Nodup) (hplain : Plain grammar) {alt : Sequence}
    (halt : ∀ el ∈ alt, el.isTerminal = true ∨ el.isRef = true)
    (hlr : NoLeftRecursion grammar tokens classSets alt) (k : Nat) {u : List String}
    (hu : u ∈ Cf.seq (den (tokenLeaf tokens) (altsLang grammar tokens classSets)) alt) :
    ∃ q ∈ enumerate grammar tokens classSets k (fun _ => true) alt, Covers k q u ∧ ¬ q.lost := by
  obtain ⟨S, hS, hleads⟩ := hlr.exists_closed
  have hlisted : u ∈ Cf.seq (den (tokenLeaf tokens) (Listed grammar tokens classSets S)) alt :=
    seqDen_mono (fun n _ => altsLang_le_listed hnd hplain hS n) hu
  obtain ⟨q, hq, hcovers, hlost⟩ :=
    walk_covers (k := k) hS length_unvisited_nil alt halt [] u hlisted
  refine ⟨q, ?_, hcovers, hlost fun _ => hleads⟩
  rw [enumerate, altPrefixesRaw_succ]
  exact hq

/-! ## The tokens of a path -/

section Tokens

variable (tokens classSets) in
/-- Every token the elements add has the property. -/
def Adds (P : String → Prop) (alt : Sequence) : Prop :=
  ∀ el ∈ alt, ∀ t, addedToken tokens classSets el = some t → P t

/-- The window bounds the path, and its tokens have the property. -/
def PrefixPath.Within (P : String → Prop) (k : Nat) (q : PrefixPath) : Prop :=
  q.tokens.length ≤ k ∧ ∀ t ∈ q.tokens, P t

variable {P : String → Prop}
  {enter : Nat → List String → (String → Bool) → Sequence → List PrefixPath} {k : Nat}
  {visited : List String} {headFilter : String → Bool}

theorem tokens_of_extendPath
    (hgrammar : ∀ p ∈ grammar.productions, ∀ alt ∈ p.alts, Adds tokens classSets P alt)
    (henter : ∀ k visited headFilter alt, Adds tokens classSets P alt →
      ∀ q ∈ enter k visited headFilter alt, q.Within P k)
    {el : Element} (hel : ∀ t, addedToken tokens classSets el = some t → P t) {p : PrefixPath}
    (hopen : p.done = false ∧ p.tokens.length < k) (hp : ∀ t ∈ p.tokens, P t) :
    ∀ r ∈ extendPath grammar tokens classSets enter k visited headFilter el p, r.Within P k := by
  intro r hr
  have htruncated : r ∈ [(⟨p.tokens, true⟩ : PrefixPath)] → r.Within P k := by
    intro h
    obtain rfl := List.mem_singleton.mp h
    exact ⟨hopen.2.le, hp⟩
  unfold extendPath at hr
  split at hr
  · next tok htok =>
    split at hr
    · obtain rfl := List.mem_singleton.mp hr
      refine ⟨by simpa using Nat.succ_le_of_lt hopen.2, fun t ht => ?_⟩
      rcases List.mem_append.mp ht with ht | ht
      · exact hp t ht
      · obtain rfl := List.mem_singleton.mp ht
        exact hel t htok
    · cases hr
  · split at hr
    · exact htruncated hr
    · split at hr
      · exact htruncated hr
      · split at hr
        · exact htruncated hr
        · next name _ found hfound =>
          obtain ⟨sub, hsub, hr⟩ := List.mem_flatMap.mp hr
          obtain ⟨q, hq, rfl⟩ := List.mem_map.mp hr
          obtain ⟨hfind, -⟩ := Option.filter_eq_some_iff.mp hfound
          have hsub := hgrammar found (mem_names_of_find hfind).2.1 sub hsub
          obtain ⟨hlen, hq⟩ := henter _ _ _ sub hsub q hq
          refine ⟨by rw [List.length_append]; omega, fun t ht => ?_⟩
          rcases List.mem_append.mp ht with ht | ht
          · exact hp t ht
          · exact hq t ht

/-- A property of every token an element of the grammar adds is one of every token of a path. -/
theorem mem_tokens_of_walk
    (hgrammar : ∀ p ∈ grammar.productions, ∀ alt ∈ p.alts, Adds tokens classSets P alt)
    (henter : ∀ k visited headFilter alt, Adds tokens classSets P alt →
      ∀ q ∈ enter k visited headFilter alt, q.Within P k) :
    ∀ (β : Sequence), Adds tokens classSets P β → ∀ (p : PrefixPath), p.Within P k →
    ∀ q ∈ walk (extendPath grammar tokens classSets enter k visited headFilter) k β p, q.Within P k
  | [], _, p, hp, q, hq => by
    obtain rfl := List.mem_singleton.mp hq
    exact hp
  | el :: β, hβ, p, hp, q, hq => by
    unfold walk at hq
    split at hq
    · obtain rfl := List.mem_singleton.mp hq
      exact hp
    · next hopen =>
      obtain ⟨r, hr, hq⟩ := List.mem_flatMap.mp hq
      have hr' := tokens_of_extendPath hgrammar henter (hβ el List.mem_cons_self)
        (by simpa [PrefixPath.closed] using hopen) hp.2 r hr
      exact mem_tokens_of_walk hgrammar henter β (fun x hx => hβ x (List.mem_cons_of_mem _ hx))
        r hr' q hq

theorem mem_tokens_of_altPrefixesRaw
    (hgrammar : ∀ p ∈ grammar.productions, ∀ alt ∈ p.alts, Adds tokens classSets P alt) :
    ∀ depth k visited headFilter alt, Adds tokens classSets P alt →
      ∀ q ∈ altPrefixesRaw grammar tokens classSets depth k visited headFilter alt, q.Within P k
  | 0, _, _, _, _, _, q, hq => by simp [altPrefixesRaw] at hq
  | depth + 1, k, visited, headFilter, alt, halt, q, hq => by
    simp only [altPrefixesRaw, extendPaths_eq, List.flatMap_cons, List.flatMap_nil,
      List.append_nil] at hq
    exact mem_tokens_of_walk hgrammar (mem_tokens_of_altPrefixesRaw hgrammar depth) alt halt
      ⟨[], false⟩ ⟨by simp, by simp⟩ q hq

end Tokens

/-- The paths of an enumeration stay within its window. -/
theorem within_enumerate {P : String → Prop}
    (hgrammar : ∀ p ∈ grammar.productions, ∀ alt ∈ p.alts, Adds tokens classSets P alt)
    {alt : Sequence} (halt : Adds tokens classSets P alt) {k : Nat} {headFilter : String → Bool}
    {q : PrefixPath} (hq : q ∈ enumerate grammar tokens classSets k headFilter alt) :
    q.Within P k :=
  mem_tokens_of_altPrefixesRaw hgrammar _ _ _ _ _ halt _ hq

theorem within_true {alt : Sequence} {k : Nat} {headFilter : String → Bool} {q : PrefixPath}
    (hq : q ∈ enumerate grammar tokens classSets k headFilter alt) : q.tokens.length ≤ k :=
  (within_enumerate (P := fun _ => True) (fun _ _ _ _ _ _ _ _ => trivial)
    (fun _ _ _ _ => trivial) hq).1

end TabnasBnf
