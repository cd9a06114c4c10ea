import TabnasBnf.Dispatch

/-!
# Dispatch prefixes decide

The prefixes of `dispatchPrefixes` tell the alternatives of a choice apart as far as the window
can: of two alternatives, and of an alternative and an exit, two prefixes differ by tokens that
do not contest, or are paths of the whole enumeration, which nothing extends
(`dispatchPrefixes_decides`).

* `walk` is the enumeration of one path, which the paths of `extendPaths` do not share
  (`extendPaths_eq`).
* `mem_enumerate`: the head filter keeps the paths whose head it admits, and changes no other.
* `depthOf_spec`: a depth is past every first difference, or the whole length.
-/

namespace TabnasBnf

section

variable {grammar : Grammar} {tokens : Tokens} {classSets : List (String × String)}

/-! ## One path at a time -/

/-- The paths one path grows into. -/
def walk (extend : Element → PrefixPath → List PrefixPath) (maxK : Nat) :
    Sequence → PrefixPath → List PrefixPath
  | [], p => [p]
  | el :: rest, p =>
    if p.closed maxK then [p] else (extend el p).flatMap (walk extend maxK rest)

theorem walk_closed {extend : Element → PrefixPath → List PrefixPath} {maxK : Nat}
    {p : PrefixPath} (h : p.closed maxK = true) (alt : Sequence) :
    walk extend maxK alt p = [p] := by
  cases alt with
  | nil => rfl
  | cons el rest => simp only [walk, h, if_true]

/-- Stopping once no path can grow changes nothing. -/
theorem extendPaths_eq (extend : Element → PrefixPath → List PrefixPath) (maxK : Nat) :
    ∀ (alt : Sequence) (paths : List PrefixPath),
      extendPaths extend maxK alt paths = paths.flatMap (walk extend maxK alt)
  | [], paths => by
    unfold extendPaths
    exact List.flatMap_singleton' paths |>.symm
  | el :: rest, paths => by
    have hstep : (paths.flatMap fun p => if p.closed maxK then [p] else extend el p).flatMap
        (walk extend maxK rest) = paths.flatMap (walk extend maxK (el :: rest)) := by
      rw [List.flatMap_assoc]
      congr 1
      funext p
      by_cases hp : p.closed maxK
      · simp only [walk, hp, if_true, List.flatMap_cons, List.flatMap_nil, List.append_nil]
        exact walk_closed hp rest
      · simp only [walk, hp, Bool.false_eq_true, if_false]
    unfold extendPaths
    dsimp only
    split
    · next hall =>
      rw [← hstep]
      rw [List.flatMap_congr fun p hp => walk_closed (List.all_eq_true.mp hall p hp) rest]
      exact (List.flatMap_singleton' _).symm
    · rw [extendPaths_eq extend maxK rest, hstep]

/-- A path grows at its end. -/
theorem extendPath_tokens {enter : Nat → List String → (String → Bool) → Sequence →
    List PrefixPath} {maxK : Nat} {visited : List String} {headFilter : String → Bool}
    {el : Element} {p q : PrefixPath}
    (h : q ∈ extendPath grammar tokens classSets enter maxK visited headFilter el p) :
    p.tokens <+: q.tokens := by
  unfold extendPath at h
  split at h
  · split at h
    · obtain rfl := List.mem_singleton.mp h
      exact List.prefix_append _ _
    · cases h
  · split at h
    · obtain rfl := List.mem_singleton.mp h
      exact List.prefix_rfl
    · split at h
      · obtain rfl := List.mem_singleton.mp h
        exact List.prefix_rfl
      · split at h
        · obtain rfl := List.mem_singleton.mp h
          exact List.prefix_rfl
        · obtain ⟨sub, -, hq⟩ := List.mem_flatMap.mp h
          obtain ⟨sp, -, rfl⟩ := List.mem_map.mp hq
          exact List.prefix_append _ _

theorem walk_tokens {extend : Element → PrefixPath → List PrefixPath} {maxK : Nat}
    (hextend : ∀ el p q, q ∈ extend el p → p.tokens <+: q.tokens) :
    ∀ (alt : Sequence) {p q : PrefixPath}, q ∈ walk extend maxK alt p → p.tokens <+: q.tokens
  | [], p, q, h => by
    obtain rfl := List.mem_singleton.mp h
    exact List.prefix_rfl
  | el :: rest, p, q, h => by
    unfold walk at h
    split at h
    · obtain rfl := List.mem_singleton.mp h
      exact List.prefix_rfl
    · obtain ⟨r, hr, hq⟩ := List.mem_flatMap.mp h
      exact (hextend el p r hr).trans (walk_tokens hextend rest hq)

/-! ## The head filter -/

/-- The head filter admits the path: its head, once it has one. -/
def PrefixPath.admitted (headFilter : String → Bool) (p : PrefixPath) : Bool :=
  p.tokens.head?.all headFilter

@[simp] theorem admitted_nil (headFilter : String → Bool) (done : Bool) :
    PrefixPath.admitted headFilter ⟨[], done⟩ = true := rfl

@[simp] theorem admitted_cons (headFilter : String → Bool) (t : String) (ts : List String)
    (done : Bool) : PrefixPath.admitted headFilter ⟨t :: ts, done⟩ = headFilter t := by
  simp [PrefixPath.admitted]

@[simp] theorem admitted_true (p : PrefixPath) : p.admitted (fun _ => true) = true := by
  simp [PrefixPath.admitted]

/-- What a path grew from had its head admitted too. -/
theorem admitted_of_isPrefix {headFilter : String → Bool} {p q : PrefixPath}
    (h : p.tokens <+: q.tokens) (hq : q.admitted headFilter = true) :
    p.admitted headFilter = true := by
  obtain ⟨tokens, done⟩ := p
  cases tokens with
  | nil => rfl
  | cons t ts =>
    obtain ⟨us, hus⟩ := h
    obtain ⟨qtokens, qdone⟩ := q
    obtain rfl : t :: (ts ++ us) = qtokens := hus
    rw [admitted_cons] at hq ⊢
    exact hq

/-- Growing a path that has a head leaves it as admitted as it was. -/
theorem admitted_append {headFilter : String → Bool} {ts : List String} (hts : ts ≠ [])
    (us : List String) (done done' : Bool) :
    PrefixPath.admitted headFilter ⟨ts ++ us, done⟩ =
      PrefixPath.admitted headFilter ⟨ts, done'⟩ := by
  cases ts with
  | nil => exact absurd rfl hts
  | cons t ts => simp

/-- What is enumerated under a head filter is what it admits of what is enumerated without. -/
def Filters (enter : Nat → List String → (String → Bool) → Sequence → List PrefixPath) : Prop :=
  ∀ maxK visited headFilter alt q, q ∈ enter maxK visited headFilter alt ↔
    q ∈ enter maxK visited (fun _ => true) alt ∧ q.admitted headFilter = true

section

variable {enter : Nat → List String → (String → Bool) → Sequence → List PrefixPath}
  {headFilter : String → Bool}

theorem mem_extendPath_filter (henter : Filters enter) (maxK : Nat) (visited : List String)
    (el : Element) {p : PrefixPath} (hp : p.admitted headFilter = true) (q : PrefixPath) :
    q ∈ extendPath grammar tokens classSets enter maxK visited headFilter el p ↔
      q ∈ extendPath grammar tokens classSets enter maxK visited (fun _ => true) el p ∧
        q.admitted headFilter = true := by
  have htruncated : q ∈ [(⟨p.tokens, true⟩ : PrefixPath)] ↔
      q ∈ [(⟨p.tokens, true⟩ : PrefixPath)] ∧ q.admitted headFilter = true := by
    refine ⟨fun h => ⟨h, ?_⟩, And.left⟩
    obtain rfl := List.mem_singleton.mp h
    exact hp
  unfold extendPath
  split
  · next tok _ =>
    by_cases hnil : p.tokens = []
    · by_cases htok : headFilter tok = true
      · simp only [hnil, htok, List.isEmpty_nil, Bool.not_true, Bool.false_or, if_true,
          List.nil_append, List.mem_singleton]
        exact ⟨fun h => ⟨h, by rw [h, admitted_cons, htok]⟩, And.left⟩
      · simp only [hnil, htok, List.isEmpty_nil, Bool.not_true, Bool.false_or, if_true,
          Bool.false_eq_true, if_false, List.nil_append, List.mem_singleton, List.not_mem_nil,
          false_iff, not_and]
        rintro rfl
        rw [admitted_cons]
        exact htok
    · have hne : (!p.tokens.isEmpty) = true := by simp [hnil]
      simp only [hne, Bool.true_or, if_true, List.mem_singleton]
      refine ⟨fun h => ⟨h, ?_⟩, And.left⟩
      rw [h, admitted_append hnil _ _ p.done]
      exact hp
  · split
    · exact htruncated
    · split
      · exact htruncated
      · split
        · exact htruncated
        · next found _ =>
          simp only [List.mem_flatMap, List.mem_map]
          by_cases hnil : p.tokens = []
          · -- The head of the sub-path is the head of the path.
            simp only [hnil, List.length_nil, beq_self_eq_true, if_true, List.nil_append]
            constructor
            · rintro ⟨sub, hsub, sp, hsp, rfl⟩
              obtain ⟨hsp, hadm⟩ := (henter _ _ _ _ _).mp hsp
              exact ⟨⟨sub, hsub, sp, hsp, rfl⟩, hadm⟩
            · rintro ⟨⟨sub, hsub, sp, hsp, rfl⟩, hadm⟩
              exact ⟨sub, hsub, sp, (henter _ _ _ _ _).mpr ⟨hsp, hadm⟩, rfl⟩
          · have hne : (p.tokens.length == 0) = false := by simp [hnil]
            simp only [hne, Bool.false_eq_true, if_false, ite_self]
            refine ⟨fun h => ⟨h, ?_⟩, And.left⟩
            obtain ⟨sub, -, sp, -, rfl⟩ := h
            rw [admitted_append hnil _ _ p.done]
            exact hp

theorem mem_walk_filter (henter : Filters enter) (maxK : Nat) (visited : List String) :
    ∀ (alt : Sequence) {p : PrefixPath}, p.admitted headFilter = true → ∀ q,
      q ∈ walk (extendPath grammar tokens classSets enter maxK visited headFilter) maxK alt p ↔
        q ∈ walk (extendPath grammar tokens classSets enter maxK visited fun _ => true) maxK alt p ∧
          q.admitted headFilter = true
  | [], p, hp, q => by
    refine ⟨fun h => ⟨h, ?_⟩, And.left⟩
    obtain rfl := List.mem_singleton.mp h
    exact hp
  | el :: rest, p, hp, q => by
    unfold walk
    split
    · refine ⟨fun h => ⟨h, ?_⟩, And.left⟩
      obtain rfl := List.mem_singleton.mp h
      exact hp
    · simp only [List.mem_flatMap]
      constructor
      · rintro ⟨r, hr, hq⟩
        obtain ⟨hr, hadm⟩ := (mem_extendPath_filter henter maxK visited el hp r).mp hr
        obtain ⟨hq, hqadm⟩ := (mem_walk_filter henter maxK visited rest hadm q).mp hq
        exact ⟨⟨r, hr, hq⟩, hqadm⟩
      · rintro ⟨⟨r, hr, hq⟩, hqadm⟩
        have hadm : r.admitted headFilter = true :=
          admitted_of_isPrefix (walk_tokens (fun _ _ _ => extendPath_tokens) rest hq) hqadm
        exact ⟨r, (mem_extendPath_filter henter maxK visited el hp r).mpr ⟨hr, hadm⟩,
          (mem_walk_filter henter maxK visited rest hadm q).mpr ⟨hq, hqadm⟩⟩

end

theorem altPrefixesRaw_filters :
    ∀ depth, Filters (altPrefixesRaw grammar tokens classSets depth)
  | 0 => fun _ _ _ _ _ => by simp [altPrefixesRaw]
  | depth + 1 => fun maxK visited headFilter alt q => by
    simp only [altPrefixesRaw, extendPaths_eq, List.flatMap_cons, List.flatMap_nil,
      List.append_nil]
    exact mem_walk_filter (altPrefixesRaw_filters depth) maxK visited alt
      (admitted_nil headFilter false) q

/-- The enumeration under a head filter is the whole one, less the heads not admitted. -/
theorem mem_enumerate {maxK : Nat} {headFilter : String → Bool} {alt : Sequence}
    {q : PrefixPath} :
    q ∈ enumerate grammar tokens classSets maxK headFilter alt ↔
      q ∈ enumerate grammar tokens classSets maxK (fun _ => true) alt ∧
        q.admitted headFilter = true :=
  altPrefixesRaw_filters _ _ _ _ _ _

/-! ## Differences -/

variable {contest : String → String → Bool}

/-- Two paths differ at some common position by tokens that do not contest. -/
def Differ (contest : String → String → Bool) (p q : List String) : Prop :=
  ∃ (k : Nat) (a b : String), p[k]? = some a ∧ q[k]? = some b ∧ contest a b = false

theorem differAt_some : ∀ {p q : List String} {k : Nat}, differAt contest p q = some k →
    ∃ a b, p[k]? = some a ∧ q[k]? = some b ∧ contest a b = false
  | [], q, k, h => by simp [differAt] at h
  | a :: p, [], k, h => by simp [differAt] at h
  | a :: p, b :: q, k, h => by
    unfold differAt at h
    split at h
    · obtain ⟨k, hk, rfl⟩ := Option.map_eq_some_iff.mp h
      exact differAt_some (p := p) (q := q) hk
    · next hab =>
      obtain rfl : 0 = k := by simpa using h
      exact ⟨a, b, rfl, rfl, by simpa using hab⟩

theorem differAt_comm (hcontest : ∀ a b, contest a b = contest b a) :
    ∀ p q : List String, differAt contest p q = differAt contest q p
  | [], q => by cases q <;> rfl
  | a :: p, [] => rfl
  | a :: p, b :: q => by
    unfold differAt
    rw [hcontest a b, differAt_comm hcontest p q]

variable (contest) in
/-- A depth goes past every first difference; without one it is the whole length. -/
theorem depthOf_spec (p : List String) : ∀ (rivals : List (List String)) (d : Nat),
    p.length ≤ depthOf contest p rivals d ∨
      d ≤ depthOf contest p rivals d ∧
        ∀ q ∈ rivals, ∃ k, differAt contest p q = some k ∧ k < depthOf contest p rivals d
  | [], d => Or.inr ⟨Nat.le_refl d, by simp⟩
  | q :: rest, d => by
    unfold depthOf
    split
    · exact Or.inl (Nat.le_refl _)
    · next k hk =>
      rcases depthOf_spec p rest (max d (k + 1)) with hwhole | ⟨hle, hrest⟩
      · exact Or.inl hwhole
      · refine Or.inr ⟨by omega, ?_⟩
        intro r hr
        rcases List.mem_cons.mp hr with rfl | hr
        · exact ⟨k, hk, by omega⟩
        · exact hrest r hr

variable (contest) in
/-- A cut keeps the first difference from every rival, and is whole where there is none. -/
theorem take_depthOf (p : List String) {rivals : List (List String)} {q : List String}
    (hq : q ∈ rivals) :
    (∃ k, differAt contest p q = some k ∧ k < depthOf contest p rivals 1) ∨
      p.take (depthOf contest p rivals 1) = p := by
  rcases depthOf_spec contest p rivals 1 with hwhole | ⟨-, h⟩
  · exact Or.inr (List.take_of_length_le hwhole)
  · exact Or.inl (h q hq)

/-! ## What is returned -/

theorem exitContests_false {h : String} :
    ∀ {exits : List (List String)}, exitContests contest h exits = some false →
      ∀ e ∈ exits, ∃ t, e.head? = some t ∧ contest h t = false
  | [], _, e, he => by simp at he
  | [] :: _, hex, _, _ => by simp [exitContests] at hex
  | (t :: ts) :: rest, hex, e, he => by
    unfold exitContests at hex
    split at hex
    · simp at hex
    · next ht =>
      rcases List.mem_cons.mp he with rfl | he
      · exact ⟨t, rfl, by simpa using ht⟩
      · exact exitContests_false hex e he

/-- A head that is not contested meets no other head and no exit. -/
theorem contestedHeads_spec {others : List String} {exits : List (List String)} :
    ∀ {hs out : List String}, contestedHeads contest others exits hs = some out →
      ∀ h ∈ hs, h ∉ out → (∀ o ∈ others, contest h o = false) ∧
        ∀ e ∈ exits, ∃ t, e.head? = some t ∧ contest h t = false
  | [], out, _, h, hh, _ => by simp at hh
  | h :: rest, out, hc, h', hh, hout => by
    simp only [contestedHeads, Option.bind_eq_bind, Option.bind_eq_some_iff, Option.pure_def,
      Option.some.injEq] at hc
    obtain ⟨hit, hhit, out', hrest, rfl⟩ := hc
    by_cases hm : h' ∈ rest ∧ h' ∉ out'
    · exact contestedHeads_spec hrest h' hm.1 hm.2
    · obtain ⟨rfl, rfl⟩ : h' = h ∧ hit = false := by
        cases hit <;> grind
      unfold headContested at hhit
      split at hhit
      · simp at hhit
      · next hany =>
        refine ⟨fun o ho => ?_, exitContests_false hhit⟩
        by_contra hne
        exact hany (List.any_eq_true.mpr ⟨o, ho, by simpa using hne⟩)

theorem mem_distinctPrefixes {p : List String} :
    ∀ {ps : List (List String)} {seen : List String}, p ∈ distinctPrefixes seen ps → p ∈ ps
  | [], _, h => h
  | q :: rest, seen, h => by
    unfold distinctPrefixes at h
    dsimp only at h
    split at h
    · exact List.mem_cons_of_mem _ (mem_distinctPrefixes h)
    · rcases List.mem_cons.mp h with rfl | h
      · exact List.mem_cons_self
      · exact List.mem_cons_of_mem _ (mem_distinctPrefixes h)

theorem mapM_eq_some_getElem? {α β : Type} {f : α → Option β} :
    ∀ {l : List α} {r : List β}, l.mapM f = some r →
      ∀ (i : Nat) (a : α), l[i]? = some a → ∃ b, r[i]? = some b ∧ f a = some b
  | [], _, _, i, a, ha => by simp at ha
  | x :: l, r, h, i, a, ha => by
    simp only [List.mapM_cons, Option.bind_eq_bind, Option.bind_eq_some_iff, Option.pure_def,
      Option.some.injEq] at h
    obtain ⟨y, hy, ys, hys, rfl⟩ := h
    cases i with
    | zero =>
      obtain rfl : x = a := by simpa using ha
      exact ⟨y, rfl, hy⟩
    | succ i => exact mapM_eq_some_getElem? hys i a (by simpa using ha)

variable (grammar tokens classSets contest) in
/-- Where a prefix of an alternative comes from: an uncontested head, or the cut of a deep path
under a contested one. -/
inductive Cut (maxK : Nat) (contested : List String) (rivals : List (List String))
    (alt : Sequence) : List String → Prop
  | head {h : String} (hmem : h ∈ headsOf grammar tokens classSets alt)
      (hfree : h ∉ contested) : Cut maxK contested rivals alt [h]
  | path {h : String} {path : List String} (hmem : h ∈ headsOf grammar tokens classSets alt)
      (hpath : path ∈ deepPaths grammar tokens classSets maxK contested alt)
      (hhead : path.head? = some h) :
      Cut maxK contested rivals alt (path.take (depthOf contest path rivals 1))

variable (grammar tokens classSets contest) in
/-- One call of `dispatch_prefixes`: the contested heads and the deep paths of its alternatives,
by index. -/
structure Dispatched (maxK : Nat) (exits : List (List String)) (alts : List Sequence)
    (contested : List (List String)) (deep : List (List (List String)))
    (out : List DispatchPrefixes) : Prop where
  heads : ∀ (i : Nat) (alt : Sequence), alts[i]? = some alt → ∃ cs, contested[i]? = some cs ∧
    contestedHeads contest ((alts.map (headsOf grammar tokens classSets)).eraseIdx i).flatten
      exits (headsOf grammar tokens classSets alt) = some cs
  paths : ∀ (i : Nat) (alt : Sequence) (cs : List String), alts[i]? = some alt →
    contested[i]? = some cs →
    deep[i]? = some (deepPaths grammar tokens classSets maxK cs alt)
  rivals : ∀ (i : Nat) (ps : List (List String)), deep[i]? = some ps →
    ∃ alt cs, alts[i]? = some alt ∧ ps = deepPaths grammar tokens classSets maxK cs alt
  prefixes : ∀ (i : Nat) (d : DispatchPrefixes), out[i]? = some d → ∃ alt cs,
    alts[i]? = some alt ∧ contested[i]? = some cs ∧
    d.prefixes = distinctPrefixes [] ((headsOf grammar tokens classSets alt).flatMap
      (prefixesUnder contest cs (deepPaths grammar tokens classSets maxK cs alt)
        ((deep.eraseIdx i).flatten ++ exits)))

theorem dispatchPrefixes_spec {maxK : Nat} {exits : List (List String)} {alts : List Sequence}
    {out : List DispatchPrefixes}
    (h : dispatchPrefixes grammar tokens classSets contest maxK exits alts = some out) :
    ∃ contested deep, Dispatched grammar tokens classSets contest maxK exits alts contested deep
      out := by
  unfold dispatchPrefixes at h
  simp only [Option.bind_eq_bind, Option.bind_eq_some_iff, Option.pure_def,
    Option.some.injEq] at h
  obtain ⟨contested, hcontested, rfl⟩ := h
  have hheads : ∀ (i : Nat) (alt : Sequence), alts[i]? = some alt → ∃ cs, contested[i]? = some cs ∧
      contestedHeads contest ((alts.map (headsOf grammar tokens classSets)).eraseIdx i).flatten
        exits (headsOf grammar tokens classSets alt) = some cs := by
    intro i alt halt
    exact mapM_eq_some_getElem? hcontested i (headsOf grammar tokens classSets alt, i)
      (by simp [halt])
  have hpaths : ∀ (i : Nat) (alt : Sequence) (cs : List String), alts[i]? = some alt →
      contested[i]? = some cs →
      ((contested.zip alts).map fun x =>
        deepPaths grammar tokens classSets maxK x.1 x.2)[i]? =
        some (deepPaths grammar tokens classSets maxK cs alt) := by
    intro i alt cs halt hcs
    simp [List.getElem?_zip_eq_some, halt, hcs]
  have hrivals : ∀ (i : Nat) (ps : List (List String)),
      ((contested.zip alts).map fun x =>
        deepPaths grammar tokens classSets maxK x.1 x.2)[i]? = some ps →
      ∃ alt cs, alts[i]? = some alt ∧ ps = deepPaths grammar tokens classSets maxK cs alt := by
    intro i ps hps
    rw [List.getElem?_map] at hps
    obtain ⟨⟨cs, alt⟩, hzip, rfl⟩ := Option.map_eq_some_iff.mp hps
    exact ⟨alt, cs, (List.getElem?_zip_eq_some.mp hzip).2, rfl⟩
  refine ⟨contested, _, hheads, hpaths, hrivals, fun i d hd => ?_⟩
  simp only [List.getElem?_map, Option.map_eq_some_iff, List.getElem?_zipIdx,
    Prod.exists, Prod.mk.injEq, Nat.zero_add] at hd
  obtain ⟨alt, _, ⟨_, halt, rfl, rfl⟩, rfl⟩ := hd
  obtain ⟨cs, hcs, -⟩ := hheads i _ halt
  refine ⟨_, cs, halt, hcs, ?_⟩
  have hdeep := hpaths i _ cs halt hcs
  simp only [List.getD_eq_getElem?_getD, hcs, hdeep, Option.getD_some]

theorem Dispatched.cuts {maxK : Nat} {exits : List (List String)} {alts : List Sequence}
    {contested : List (List String)} {deep : List (List (List String))}
    {out : List DispatchPrefixes}
    (hd : Dispatched grammar tokens classSets contest maxK exits alts contested deep out)
    (i : Nat) (d : DispatchPrefixes) (hi : out[i]? = some d) :
    ∃ alt cs, alts[i]? = some alt ∧ contested[i]? = some cs ∧
      ∀ p ∈ d.prefixes, Cut grammar tokens classSets contest maxK cs
        ((deep.eraseIdx i).flatten ++ exits) alt p := by
  obtain ⟨alt, cs, halt, hcs, hprefixes⟩ := hd.prefixes i d hi
  refine ⟨alt, cs, halt, hcs, fun p hp => ?_⟩
  rw [hprefixes] at hp
  obtain ⟨h, hmem, hp⟩ := List.mem_flatMap.mp (mem_distinctPrefixes hp)
  unfold prefixesUnder at hp
  split at hp
  · next hfree =>
    obtain rfl := List.mem_singleton.mp hp
    exact .head hmem (by simpa using hfree)
  · obtain ⟨path, hpath, rfl⟩ := List.mem_map.mp hp
    obtain ⟨hpath, hhead⟩ := List.mem_filter.mp hpath
    exact .path hmem hpath (by simpa using hhead)

/-! ## Two prefixes -/

section

variable {maxK : Nat} {exits : List (List String)} {alts : List Sequence}

variable (contest) in
theorem depthOf_pos {p : List String} (hp : p ≠ []) (rivals : List (List String)) :
    0 < depthOf contest p rivals 1 := by
  have hlen := List.length_pos_iff.mpr hp
  rcases depthOf_spec contest p rivals 1 with h | ⟨h, -⟩ <;> omega

/-- The head of a prefix is the head it was made under. -/
theorem Cut.head_mem {contested : List String} {rivals : List (List String)} {alt : Sequence}
    {p : List String} (h : Cut grammar tokens classSets contest maxK contested rivals alt p) :
    ∃ t, p.head? = some t ∧ t ∈ headsOf grammar tokens classSets alt := by
  cases h with
  | head hmem hfree => exact ⟨_, rfl, hmem⟩
  | @path t path hmem hpath hhead =>
    have hne : path ≠ [] := by rintro rfl; cases hhead
    refine ⟨t, ?_, hmem⟩
    rw [List.head?_take, if_neg (Nat.ne_of_gt (depthOf_pos contest hne rivals)), hhead]

theorem differ_heads {p q : List String} {a b : String} (hp : p.head? = some a)
    (hq : q.head? = some b) (hab : contest a b = false) : Differ contest p q :=
  ⟨0, a, b, by rw [← List.head?_eq_getElem?, hp], by rw [← List.head?_eq_getElem?, hq], hab⟩

theorem Differ.symm (hcontest : ∀ a b, contest a b = contest b a) {p q : List String}
    (h : Differ contest p q) : Differ contest q p := by
  obtain ⟨k, a, b, ha, hb, hab⟩ := h
  exact ⟨k, b, a, hb, ha, hcontest b a ▸ hab⟩

/-- A cut path holds its first difference from a rival. -/
theorem getElem?_take_depthOf {p q : List String} {rivals : List (List String)}
    (hq : q ∈ rivals) {k : Nat} (hk : differAt contest p q = some k) :
    (p.take (depthOf contest p rivals 1))[k]? = p[k]? := by
  rcases take_depthOf contest p hq with ⟨k', hk', hlt⟩ | hwhole
  · obtain rfl : k = k' := by simpa [hk] using hk'
    exact List.getElem?_take_of_lt hlt
  · rw [hwhole]

/-- A path that differs from no rival is not cut. -/
theorem take_depthOf_eq {p q : List String} {rivals : List (List String)} (hq : q ∈ rivals)
    (hnone : differAt contest p q = none) : p.take (depthOf contest p rivals 1) = p := by
  rcases take_depthOf contest p hq with ⟨k, hk, -⟩ | hwhole
  · rw [hnone] at hk
    cases hk
  · exact hwhole

variable (grammar tokens classSets maxK) in
/-- A whole path of the alternative's enumeration of `maxK` tokens. -/
def Whole (alt : Sequence) (p : List String) : Prop :=
  ∃ done, ⟨p, done⟩ ∈ enumerate grammar tokens classSets maxK (fun _ => true) alt

theorem whole_of_deep {contested : List String} {alt : Sequence} {p : List String}
    (h : p ∈ deepPaths grammar tokens classSets maxK contested alt) :
    Whole grammar tokens classSets maxK alt p := by
  unfold deepPaths at h
  split at h
  · cases h
  · obtain ⟨hp, -⟩ := List.mem_filter.mp h
    obtain ⟨⟨ts, done⟩, hq, rfl⟩ := List.mem_map.mp hp
    exact ⟨done, (mem_enumerate.mp hq).1⟩

variable {contested : List (List String)} {deep : List (List (List String))}
  {out : List DispatchPrefixes}

/-- An uncontested head differs from the prefixes of every other alternative. -/
theorem differ_of_free
    (hd : Dispatched grammar tokens classSets contest maxK exits alts contested deep out)
    {i j : Nat} (hij : j ≠ i) {alt alt' : Sequence} {cs : List String}
    (halt : alts[i]? = some alt) (halt' : alts[j]? = some alt') (hcs : contested[i]? = some cs)
    {h : String} (hmem : h ∈ headsOf grammar tokens classSets alt) (hfree : h ∉ cs)
    {q : List String} (hq : ∃ t, q.head? = some t ∧ t ∈ headsOf grammar tokens classSets alt') :
    Differ contest [h] q := by
  obtain ⟨cs', hcs', hheads⟩ := hd.heads i alt halt
  obtain rfl : cs' = cs := by simpa [hcs'] using hcs
  obtain ⟨t, hqt, ht⟩ := hq
  refine differ_heads rfl hqt ((contestedHeads_spec hheads h hmem hfree).1 t ?_)
  refine List.mem_flatten.mpr ⟨_, List.mem_eraseIdx_iff_getElem?.mpr ⟨j, hij, ?_⟩, ht⟩
  rw [List.getElem?_map, halt', Option.map_some]

/-- A deep path of one alternative is a rival of every other. -/
theorem mem_rivals
    (hd : Dispatched grammar tokens classSets contest maxK exits alts contested deep out)
    {i j : Nat} (hij : j ≠ i) {alt : Sequence} {cs : List String} (halt : alts[j]? = some alt)
    (hcs : contested[j]? = some cs) {p : List String}
    (hp : p ∈ deepPaths grammar tokens classSets maxK cs alt) :
    p ∈ (deep.eraseIdx i).flatten ++ exits :=
  List.mem_append_left _ (List.mem_flatten.mpr
    ⟨_, List.mem_eraseIdx_iff_getElem?.mpr ⟨j, hij, hd.paths j alt cs halt hcs⟩, hp⟩)

/-- **The dispatch prefixes decide.** Prefixes of two alternatives differ at a common position by
tokens that do not contest, or both are whole paths of `maxK` tokens; and so are a prefix and an
exit path. -/
theorem dispatchPrefixes_decides (hcontest : ∀ a b, contest a b = contest b a)
    (h : dispatchPrefixes grammar tokens classSets contest maxK exits alts = some out) :
    (∀ (i j : Nat) (d e : DispatchPrefixes), i ≠ j → out[i]? = some d → out[j]? = some e →
      ∃ alt alt', alts[i]? = some alt ∧ alts[j]? = some alt' ∧
        ∀ p ∈ d.prefixes, ∀ q ∈ e.prefixes, Differ contest p q ∨
          Whole grammar tokens classSets maxK alt p ∧
            Whole grammar tokens classSets maxK alt' q) ∧
    ∀ (i : Nat) (d : DispatchPrefixes), out[i]? = some d →
      ∃ alt, alts[i]? = some alt ∧ ∀ p ∈ d.prefixes, ∀ x ∈ exits, Differ contest p x ∨
        Whole grammar tokens classSets maxK alt p := by
  obtain ⟨contested, deep, hd⟩ := dispatchPrefixes_spec h
  constructor
  · intro i j d e hij hi hj
    obtain ⟨alt, cs, halt, hcs, hcut⟩ := hd.cuts i d hi
    obtain ⟨alt', cs', halt', hcs', hcut'⟩ := hd.cuts j e hj
    refine ⟨alt, alt', halt, halt', fun p hp q hq => ?_⟩
    have hpcut := hcut p hp
    have hqcut := hcut' q hq
    cases hpcut with
    | head hmem hfree =>
      exact .inl (differ_of_free hd hij.symm halt halt' hcs hmem hfree hqcut.head_mem)
    | @path _ path hmem hpath hhead =>
      have hpq : Cut grammar tokens classSets contest maxK cs ((deep.eraseIdx i).flatten ++ exits)
          alt _ := .path hmem hpath hhead
      cases hqcut with
      | head hmem' hfree' =>
        exact .inl (.symm hcontest
          (differ_of_free hd hij halt' halt hcs' hmem' hfree' hpq.head_mem))
      | @path _ path' hmem' hpath' hhead' =>
        have hrival := mem_rivals hd hij.symm halt' hcs' hpath'
        have hrival' := mem_rivals hd hij halt hcs hpath
        cases hdiff : differAt contest path path' with
        | some k =>
          obtain ⟨a, b, ha, hb, hab⟩ := differAt_some hdiff
          have hdiff' : differAt contest path' path = some k := by
            rw [differAt_comm hcontest, hdiff]
          exact .inl ⟨k, a, b, by rw [getElem?_take_depthOf hrival hdiff, ha],
            by rw [getElem?_take_depthOf hrival' hdiff', hb], hab⟩
        | none =>
          have hdiff' : differAt contest path' path = none := by
            rw [differAt_comm hcontest, hdiff]
          rw [take_depthOf_eq hrival hdiff, take_depthOf_eq hrival' hdiff']
          exact .inr ⟨whole_of_deep hpath, whole_of_deep hpath'⟩
  · intro i d hi
    obtain ⟨alt, cs, halt, hcs, hcut⟩ := hd.cuts i d hi
    refine ⟨alt, halt, fun p hp x hx => ?_⟩
    have hpcut := hcut p hp
    cases hpcut with
    | head hmem hfree =>
      obtain ⟨cs', hcs', hheads⟩ := hd.heads i alt halt
      obtain rfl : cs' = cs := by simpa [hcs'] using hcs
      obtain ⟨t, ht, hfalse⟩ := (contestedHeads_spec hheads _ hmem hfree).2 x hx
      exact .inl (differ_heads rfl ht hfalse)
    | @path _ path hmem hpath hhead =>
      have hrival : x ∈ (deep.eraseIdx i).flatten ++ exits := List.mem_append_right _ hx
      cases hdiff : differAt contest path x with
      | some k =>
        obtain ⟨a, b, ha, hb, hab⟩ := differAt_some hdiff
        exact .inl ⟨k, a, b, by rw [getElem?_take_depthOf hrival hdiff, ha], hb, hab⟩
      | none =>
        rw [take_depthOf_eq hrival hdiff]
        exact .inr (whole_of_deep hpath)

end

/-- `a b / A "c"` with `A = "a" / "d"`, and the exit `d`. -/
def sharedHead : Grammar where
  productions :=
    [{ name := "A", alts := [[.token "a" none], [.token "d" none]] }]

/-- The alternatives of that choice. -/
def sharedHeadAlts : List Sequence :=
  [[.token "a" none, .token "b" none], [.ref "A" none none, .token "c" none]]

theorem dispatchPrefixes_decides_sharing :
    dispatchPrefixes sharedHead {} [] (· == ·) 4 [["d"]] sharedHeadAlts =
        some [⟨[["a", "b"]], false⟩, ⟨[["a", "c"], ["d", "c"]], false⟩] ∧
      ∀ p ∈ [["a", "b"]], ∀ q ∈ [["a", "c"], ["d", "c"]], Differ (· == ·) p q ∨
        Whole sharedHead {} [] 4 [.token "a" none, .token "b" none] p ∧
          Whole sharedHead {} [] 4 [.ref "A" none none, .token "c" none] q := by
  have hrun : dispatchPrefixes sharedHead {} [] (· == ·) 4 [["d"]] sharedHeadAlts =
      some [⟨[["a", "b"]], false⟩, ⟨[["a", "c"], ["d", "c"]], false⟩] := by decide +kernel
  obtain ⟨alt, alt', halt, halt', h⟩ := (dispatchPrefixes_decides
    (fun _ _ => BEq.comm) hrun).1 0 1 _ _ (by decide) rfl rfl
  obtain rfl := Option.some.inj halt
  obtain rfl := Option.some.inj halt'
  exact ⟨hrun, h⟩

end

end TabnasBnf
