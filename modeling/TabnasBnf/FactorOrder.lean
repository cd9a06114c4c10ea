import TabnasBnf.Classes
import TabnasBnf.FactorCorrect

/-!
# Factoring over an alternative in between

`factor_once` merges alternatives over one between them whose first characters it takes for disjoint
from the head's. The merge leaves an ordered choice as it was when no input character begins a match
of both (`ShareStart`).

* `factorOnce_apart`: none can when the coverages are in full (`ReadInFull`: what the matches begin
  with is covered) and hold no character in common; when they hold nothing else either, only then.
  The sweep tells that they do not meet when both are in order.
* A literal in any case is covered by its lower-case character first and its upper-case one behind
  it, which is not in order (`factorOnce_contested`).
* `Leads` are the terminals the matches of an element can begin with; `beginsIn_firstRanges` is the
  step over an element, one case for each kind.
-/

namespace TabnasBnf

/-! ## What a match begins with -/

/-- No match is empty, and each begins with a character of the coverage. -/
def BeginsIn (r : List CharRange) (L : Language Char) : Prop :=
  [] ∉ L ∧ ∀ c w, c :: w ∈ L → InRanges r c.toNat

theorem BeginsIn.mul {r : List CharRange} {L : Language Char} (h : BeginsIn r L)
    (L' : Language Char) : BeginsIn r (L * L') := by
  refine ⟨fun hnil => ?_, fun c w hw => ?_⟩
  · obtain ⟨u, hu, v, -, huv⟩ := Language.mem_mul.mp hnil
    exact h.1 ((List.append_eq_nil_iff.mp huv).1 ▸ hu)
  · obtain ⟨u, hu, v, -, huv⟩ := Language.mem_mul.mp hw
    cases u with
    | nil => exact absurd hu h.1
    | cons d u =>
      obtain ⟨rfl, -⟩ := List.cons.inj huv
      exact h.2 d u hu

section

variable (grammar : Grammar) (τ : Element → Language Char) (ρ : Env Char)

/-- The terminals the matches of an element can begin with: what stands behind them derives
something. -/
inductive Leads : Element → Element → Prop
  | here {el : Element} (h : el.isTerminal = true) : Leads el el
  | group {alts : List Sequence} {sp : Option SrcSpan} {first t : Element} {rest : Sequence}
      (ha : first :: rest ∈ alts) (hrest : ∃ w, w ∈ Cf.seq (den τ ρ) rest) (h : Leads first t) :
      Leads (.group alts sp) t
  | plus {inner t : Element} {sp : Option SrcSpan} (h : Leads inner t) : Leads (.plus inner sp) t
  | rep {min : Nat} {max : Option Nat} {inner t : Element} {sp : Option SrcSpan} {k : Nat}
      (hmin : min ≤ k + 1) (hmax : ∀ m, max = some m → k + 1 ≤ m)
      (hrest : ∃ w, w ∈ den τ ρ inner ^ k) (h : Leads inner t) : Leads (.rep min max inner sp) t
  | ref {p : Production} {debt : Option (List (String × Int))} {sp : Option SrcSpan}
      {first t : Element} {rest : Sequence} (hp : p ∈ grammar.productions)
      (ha : first :: rest ∈ p.alts) (hrest : ∃ w, w ∈ Cf.seq (den τ ρ) rest) (h : Leads first t) :
      Leads (.ref p.name debt sp) t

/-- Every name derives what its alternatives do. -/
def DerivesAlts : Prop := ∀ p ∈ grammar.productions, ρ p.name = altsDen τ ρ p.alts

variable (lower upper : Char → Char)

/-- The coverage of every terminal that leads the element holds what it begins with. -/
def ReadInFull (el : Element) : Prop :=
  ∀ t, Leads grammar τ ρ el t → ∀ r, firstRanges lower upper (fun _ => none) t = some r →
    BeginsIn r (τ t)

end

section

variable {grammar : Grammar} {τ : Element → Language Char} {ρ : Env Char}
  {lower upper : Char → Char} {enter : String → Option (List CharRange)}

/-- What a terminal that leads an element begins with, the element begins with. -/
theorem Leads.begins (hρ : DerivesAlts grammar τ ρ) {el t : Element}
    (h : Leads grammar τ ρ el t) {c : Char} {w : List Char} (hw : c :: w ∈ τ t) :
    ∃ w', c :: w' ∈ den τ ρ el := by
  induction h with
  | here hterm =>
    rw [den_terminal hterm]
    exact ⟨w, hw⟩
  | group ha hrest _ ih =>
    obtain ⟨u, hu⟩ := ih hw
    obtain ⟨v, hv⟩ := hrest
    rw [den_group]
    refine ⟨u ++ v, mem_altsDen.mpr ⟨_, ha, ?_⟩⟩
    rw [Cf.seq_cons]
    exact Language.append_mem_mul hu hv
  | plus _ ih =>
    obtain ⟨u, hu⟩ := ih hw
    rw [den_plus]
    exact ⟨u ++ [], Language.append_mem_mul hu (Language.nil_mem_kstar _)⟩
  | @rep min max inner t sp k hmin hmax hrest _ ih =>
    obtain ⟨u, hu⟩ := ih hw
    obtain ⟨v, hv⟩ := hrest
    refine ⟨u ++ v, mem_den_rep.mpr ⟨k + 1, hmin, hmax, ?_⟩⟩
    rw [pow_succ']
    exact Language.append_mem_mul hu hv
  | ref hp ha hrest _ ih =>
    obtain ⟨u, hu⟩ := ih hw
    obtain ⟨v, hv⟩ := hrest
    rw [den_ref, hρ _ hp]
    refine ⟨u ++ v, mem_altsDen.mpr ⟨_, ha, ?_⟩⟩
    rw [Cf.seq_cons]
    exact Language.append_mem_mul hu hv

mutual
/-- **The step.** The coverage of an element holds what its matches begin with, when those of the
rules do. -/
theorem beginsIn_firstRanges
    (henter : ∀ name debt sp r, enter name = some r →
      ReadInFull grammar τ ρ lower upper (.ref name debt sp) → BeginsIn r (ρ name)) :
    ∀ (el : Element) {r : List CharRange}, firstRanges lower upper enter el = some r →
      ReadInFull grammar τ ρ lower upper el → BeginsIn r (den τ ρ el)
  | .term literal caseSensitive tokenName sp, r, hr, hread => by
    rw [den_terminal rfl]
    exact hread _ (.here rfl) r hr
  | .regex pattern flags sp, r, hr, hread => by
    rw [den_terminal rfl]
    exact hread _ (.here rfl) r hr
  | .ref name debt sp, r, hr, hread => by
    rw [den_ref]
    exact henter name debt sp r hr hread
  | .group alts sp, r, hr, hread => by
    rw [den_group]
    exact beginsIn_firstRangesAlts henter alts hr fun first rest ha hrest t ht =>
      hread t (.group ha hrest ht)
  | .plus inner sp, r, hr, hread => by
    rw [den_plus]
    exact (beginsIn_firstRanges henter inner hr fun t ht => hread t (.plus ht)).mul _
  | .rep min max inner sp, r, hr, hread => by
    unfold firstRanges at hr
    split at hr
    · next hmin =>
      -- a match of so many is one of the element and the others behind it
      have hone : ∀ w ∈ den τ ρ (.rep min max inner sp), BeginsIn r (den τ ρ inner) ∧
          ∃ k, w ∈ den τ ρ inner * den τ ρ inner ^ k := by
        intro w hw
        obtain ⟨k, hk, hmax, hw⟩ := mem_den_rep.mp hw
        obtain ⟨k, rfl⟩ : ∃ j, k = j + 1 := ⟨k - 1, by omega⟩
        rw [pow_succ'] at hw
        obtain ⟨u, hu, v, hv, huv⟩ := Language.mem_mul.mp hw
        exact ⟨beginsIn_firstRanges henter inner hr fun t ht => hread t (.rep hk hmax ⟨v, hv⟩ ht),
          k, hw⟩
      refine ⟨fun hnil => ?_, fun c w hw => ?_⟩
      · obtain ⟨hinner, k, hw⟩ := hone [] hnil
        exact (hinner.mul _).1 hw
      · obtain ⟨hinner, k, hw⟩ := hone (c :: w) hw
        exact (hinner.mul _).2 c w hw
    · cases hr
  | .opt _ _, _, hr, _ => by cases hr
  | .star _ _ _, _, hr, _ => by cases hr
  | .token _ _, _, hr, _ => by cases hr
  | .prose _ _, _, hr, _ => by cases hr

theorem beginsIn_firstRangesAlts
    (henter : ∀ name debt sp r, enter name = some r →
      ReadInFull grammar τ ρ lower upper (.ref name debt sp) → BeginsIn r (ρ name)) :
    ∀ (alts : List (List Element)) {r : List CharRange},
      firstRangesAlts lower upper enter alts = some r →
      (∀ first rest, first :: rest ∈ alts → (∃ w, w ∈ Cf.seq (den τ ρ) rest) →
        ReadInFull grammar τ ρ lower upper first) → BeginsIn r (altsDen τ ρ alts)
  | [], r, _, _ => ⟨Language.notMem_zero _, fun _ _ hw => absurd hw (Language.notMem_zero _)⟩
  | [] :: _, _, hr, _ => by cases hr
  | (first :: tail) :: rest, r, hr, hread => by
    obtain ⟨r₁, hr₁, hr⟩ := Option.bind_eq_some_iff.mp hr
    obtain ⟨r₂, hr₂, hr⟩ := Option.bind_eq_some_iff.mp hr
    obtain rfl := Option.some.inj hr
    have hrest := beginsIn_firstRangesAlts henter rest hr₂ fun first' rest' ha =>
      hread first' rest' (List.mem_cons_of_mem _ ha)
    have hfirst : ∀ w ∈ Cf.seq (den τ ρ) (first :: tail), BeginsIn r₁ (den τ ρ first) := by
      intro w hw
      rw [Cf.seq_cons] at hw
      obtain ⟨u, -, v, hv, -⟩ := Language.mem_mul.mp hw
      exact beginsIn_firstRanges henter first hr₁ (hread first tail List.mem_cons_self ⟨v, hv⟩)
    rw [altsDen_cons]
    refine ⟨fun hnil => ?_, fun c w hw => ?_⟩
    · rcases (Language.mem_add _ _ _).mp hnil with hnil | hnil
      · have hmul := (hfirst _ hnil).mul (Cf.seq (den τ ρ) tail)
        rw [Cf.seq_cons] at hnil
        exact hmul.1 hnil
      · exact hrest.1 hnil
    · rw [inRanges_append]
      rcases (Language.mem_add _ _ _).mp hw with hw | hw
      · have hmul := (hfirst _ hw).mul (Cf.seq (den τ ρ) tail)
        rw [Cf.seq_cons] at hw
        exact .inl (hmul.2 c w hw)
      · exact .inr (hrest.2 c w hw)
end

/-- The coverage of a rule, at any depth. -/
theorem beginsIn_rangesOfRule (hρ : DerivesAlts grammar τ ρ) : ∀ (depth : Nat)
    (visited : List String) (name : String) (debt : Option (List (String × Int)))
    (sp : Option SrcSpan) (r : List CharRange),
    rangesOfRule lower upper grammar depth visited name = some r →
      ReadInFull grammar τ ρ lower upper (.ref name debt sp) → BeginsIn r (ρ name) := by
  intro depth
  induction depth with
  | zero => exact fun _ _ _ _ _ hr => by cases hr
  | succ depth ih =>
    intro visited name debt sp r hr hread
    unfold rangesOfRule at hr
    split at hr
    · cases hr
    split at hr
    · cases hr
    next target hfind =>
    split at hr
    · cases hr
    obtain ⟨-, hp, rfl⟩ := mem_names_of_find hfind
    rw [hρ target hp]
    exact beginsIn_firstRangesAlts (ih (target.name :: visited)) target.alts hr
      fun first rest ha hrest t ht => hread t (.ref hp ha hrest ht)

/-- **The coverage of an element holds what its matches begin with.** -/
theorem beginsIn_firstCharRanges (hρ : DerivesAlts grammar τ ρ) {el : Element} {r : List CharRange}
    (hr : firstCharRangesOfElement lower upper grammar el = some r)
    (hread : ReadInFull grammar τ ρ lower upper el) : BeginsIn r (den τ ρ el) :=
  beginsIn_firstRanges (fun name debt sp r' => beginsIn_rangesOfRule hρ _ [] name debt sp r') el hr
    hread

/-! ## The alternative in between -/

/-- An alternative that is no member of the run, before one that is, was covered, and found
disjoint. -/
theorem gatherRun_between {headEl : Element} {j : Nat} {v : Sequence} {m : Member} :
    ∀ {views : List (Nat × Sequence)}, views.Pairwise (fun x y => x.1 < y.1) →
      m ∈ gatherRun lower upper grammar headEl views → (j, v) ∈ views → j < m.idx →
      (∀ m' ∈ gatherRun lower upper grammar headEl views, m'.idx ≠ j) →
        ∃ first rest hr r, v = first :: rest ∧
          firstCharRangesOfElement lower upper grammar headEl = some hr ∧
          firstCharRangesOfElement lower upper grammar first = some r ∧
          charRangesOverlap hr r = false
  | [], _, hm, _, _, _ => absurd hm List.not_mem_nil
  | (k, []) :: views, _, hm, _, _, _ => absurd hm List.not_mem_nil
  | (k, first :: u) :: views, hsorted, hm, hv, hlt, hnot => by
    obtain ⟨hk, hsorted'⟩ := List.pairwise_cons.mp hsorted
    have hlater : ∀ {ms : List Member}, gatherRun lower upper grammar headEl views ⊆ ms →
        (∀ m' ∈ ms, m'.idx ≠ j) → m ∈ gatherRun lower upper grammar headEl views →
        (j, v) ∈ views → ∃ first rest hr r, v = first :: rest ∧
          firstCharRangesOfElement lower upper grammar headEl = some hr ∧
          firstCharRangesOfElement lower upper grammar first = some r ∧
          charRangesOverlap hr r = false :=
      fun hsub hnot hm hv => gatherRun_between hsorted' hm hv hlt fun m' hm' => hnot m' (hsub hm')
    have hhead : ∀ {view annotated}, (∀ m' ∈ ⟨k, view, annotated⟩ ::
        gatherRun lower upper grammar headEl views, m'.idx ≠ j) →
        m ∈ ⟨k, view, annotated⟩ :: gatherRun lower upper grammar headEl views →
        ∃ first rest hr r, v = first :: rest ∧
          firstCharRangesOfElement lower upper grammar headEl = some hr ∧
          firstCharRangesOfElement lower upper grammar first = some r ∧
          charRangesOverlap hr r = false := by
      intro view annotated hnot hm
      rcases List.mem_cons.mp hv with heq | hv
      · exact absurd (Prod.mk.inj heq).1.symm (hnot _ List.mem_cons_self)
      · rcases List.mem_cons.mp hm with rfl | hm
        · exact absurd (hk _ hv) (by simpa using hlt.le)
        · exact hlater (List.subset_cons_self _ _) hnot hm hv
    unfold gatherRun at hm hnot
    split at hm
    · next heq =>
      rw [if_pos heq] at hnot
      exact hhead hnot hm
    next hne =>
    rw [if_neg hne] at hnot
    split at hm
    · next seq annotated hinline =>
      rw [hinline] at hnot
      exact hhead hnot hm
    next hinline =>
    rw [hinline] at hnot
    dsimp only at hnot
    split at hm
    · cases hm
    next hr hhr =>
    rw [hhr] at hnot
    dsimp only at hnot
    split at hm
    · cases hm
    next r hrr =>
    rw [hrr] at hnot
    dsimp only at hnot
    split at hm
    · cases hm
    next hdisjoint =>
    rw [if_neg hdisjoint] at hnot
    rcases List.mem_cons.mp hv with heq | hv
    · exact ⟨first, u, hr, r, (Prod.mk.inj heq).2, hhr, hrr, by simpa using hdisjoint⟩
    · exact hlater (List.Subset.refl _) hnot hm hv

variable (diag : String) (lower upper : Char → Char) (grammar : Grammar) in
/-- A step of `factor_once` merges alternatives that begin with `headEl`, one before the alternative
`j` and one behind it, which is no member of the run. -/
def MergesOver (prodName prodOrigin : String) (alts : List Sequence) (used : List String)
    (headEl : Element) (j : Nat) : Prop :=
  ∃ f i head later,
    factorOnce diag lower upper grammar prodName prodOrigin alts used = .ok (some f) ∧
    (i, headEl :: head) :: later <:+ alts.zipIdx.map (fun (alt, k) => (k, unwrapAlt alt)) ∧
    f = factorRun prodName prodOrigin alts used i (headEl :: head)
      (gatherRun lower upper grammar headEl later)
      (prefixLength (headEl :: head) (gatherRun lower upper grammar headEl later)) ∧
    i < j ∧ (∃ m ∈ gatherRun lower upper grammar headEl later, j < m.idx) ∧
    ∀ m ∈ gatherRun lower upper grammar headEl later, m.idx ≠ j

/-- Some character begins a match of the element and one of the alternative. -/
def ShareStart (τ : Element → Language Char) (ρ : Env Char) (el : Element) (alt : Sequence) : Prop :=
  ∃ c, (∃ w, c :: w ∈ den τ ρ el) ∧ ∃ w, c :: w ∈ Cf.seq (den τ ρ) alt

/-- Some character is in both coverages. -/
def ShareCharacter (r r' : List CharRange) : Prop :=
  ∃ c : Char, InRanges r c.toNat ∧ InRanges r' c.toNat

/-- Each character of the coverage is one that a terminal which leads the element begins with. -/
def ReadExactly (grammar : Grammar) (τ : Element → Language Char) (ρ : Env Char) (el : Element)
    (r : List CharRange) : Prop :=
  ∀ c : Char, InRanges r c.toNat → ∃ t, Leads grammar τ ρ el t ∧ ∃ w, c :: w ∈ τ t

/-- The languages of a grammar are such that each name derives what its alternatives do. -/
theorem derivesAlts_nameLang (hnd : grammar.names.Nodup) :
    DerivesAlts grammar τ (nameLang τ grammar.productions) := by
  intro p hp
  ext w
  rw [mem_nameLang_iff_alts]
  constructor
  · rintro ⟨q, hq, hname, hw⟩
    rwa [List.inj_on_of_nodup_map hnd hq hp hname] at hw
  · exact fun hw => ⟨p, hp, rfl, hw⟩

/-- What is merged over was covered, and the sweep found it disjoint from the head. -/
theorem MergesOver.covered {diag prodName prodOrigin : String} {alts : List Sequence}
    {used : List String} {headEl : Element} {j : Nat} {alt : Sequence}
    (h : MergesOver diag lower upper grammar prodName prodOrigin alts used headEl j)
    (halt : alts[j]? = some alt) :
    ∃ first rest hr r, unwrapAlt alt = first :: rest ∧
      firstCharRangesOfElement lower upper grammar headEl = some hr ∧
      firstCharRangesOfElement lower upper grammar first = some r ∧
      charRangesOverlap hr r = false := by
  obtain ⟨-, i, head, later, -, hsuffix, -, hij, ⟨m, hm, hlt⟩, hnot⟩ := h
  have hmap : (alts.zipIdx.map fun (alt, k) => (k, unwrapAlt alt)).map Prod.fst =
      List.range alts.length := by
    rw [List.map_map, show (Prod.fst ∘ fun e : Sequence × Nat => (e.2, unwrapAlt e.1)) = Prod.snd
      from rfl, List.zipIdx_map_snd, List.range_eq_range']
  have hsorted : (alts.zipIdx.map fun (alt, k) => (k, unwrapAlt alt)).Pairwise
      fun x y => x.1 < y.1 := by
    rw [← List.pairwise_map (f := Prod.fst) (R := (· < ·)), hmap]
    exact List.pairwise_lt_range
  obtain ⟨hhead, hlater⟩ := List.pairwise_cons.mp (hsorted.sublist hsuffix.sublist)
  have hmem : (j, unwrapAlt alt) ∈ alts.zipIdx.map fun (alt, k) => (k, unwrapAlt alt) :=
    List.mem_map.mpr ⟨(alt, j), List.mem_zipIdx_iff_getElem?.mpr halt, rfl⟩
  -- what stands before the head has an index below it
  have hin : (j, unwrapAlt alt) ∈ later := by
    obtain ⟨before, hbefore⟩ := hsuffix
    rw [← hbefore] at hmem hsorted
    rcases List.mem_append.mp hmem with hmem | hmem
    · have := (List.pairwise_append.mp hsorted).2.2 _ hmem _ List.mem_cons_self
      dsimp only at this
      omega
    · rcases List.mem_cons.mp hmem with heq | hmem
      · have := (Prod.mk.inj heq).1
        omega
      · exact hmem
  exact gatherRun_between hlater hm hin hlt hnot

end

/-- **No character begins a match of the head and of an alternative that is merged over** when their
coverages are in full and share no character; when the coverages are exact, only then. In order, they
share none. -/
theorem factorOnce_apart {diag : String} {lower upper : Char → Char} {grammar : Grammar}
    {prodName prodOrigin : String} {alts : List Sequence} {used : List String} {headEl : Element}
    {j : Nat} {alt : Sequence}
    (hmerge : MergesOver diag lower upper grammar prodName prodOrigin alts used headEl j)
    (halt : alts[j]? = some alt) {τ : Element → Language Char} {ρ : Env Char}
    (hρ : DerivesAlts grammar τ ρ) :
    ∃ first rest hr r, unwrapAlt alt = first :: rest ∧
      firstCharRangesOfElement lower upper grammar headEl = some hr ∧
      firstCharRangesOfElement lower upper grammar first = some r ∧
      (Apart hr → Apart r → ¬ ShareCharacter hr r) ∧
      (ReadInFull grammar τ ρ lower upper headEl → ReadInFull grammar τ ρ lower upper first →
        (¬ ShareCharacter hr r → ¬ ShareStart τ ρ headEl alt) ∧
        (ReadExactly grammar τ ρ headEl hr → ReadExactly grammar τ ρ first r →
          (∃ w, w ∈ Cf.seq (den τ ρ) rest) →
            (¬ ShareStart τ ρ headEl alt ↔ ¬ ShareCharacter hr r))) := by
  obtain ⟨first, rest, hr, r, hview, hhr, hrr, hdisjoint⟩ := hmerge.covered halt
  have hseq : Cf.seq (den τ ρ) alt = den τ ρ first * Cf.seq (den τ ρ) rest := by
    rw [← seqDen_unwrapAlt, hview, Cf.seq_cons]
  refine ⟨first, rest, hr, r, hview, hhr, hrr, fun hahr har => ?_, fun hhead hfirst => ?_⟩
  · rintro ⟨c, ⟨x, hx, hxc⟩, y, hy, hyc⟩
    have hmeet : charRangesOverlap hr r = true :=
      (charRangesOverlap_iff hahr har).mpr ⟨x, hx, y, hy, by omega, by omega⟩
    rw [hdisjoint] at hmeet
    cases hmeet
  · have hsound : ShareStart τ ρ headEl alt → ShareCharacter hr r := by
      rintro ⟨c, ⟨w, hw⟩, w', hw'⟩
      rw [hseq] at hw'
      exact ⟨c, (beginsIn_firstCharRanges hρ hhr hhead).2 c w hw,
        ((beginsIn_firstCharRanges hρ hrr hfirst).mul _).2 c w' hw'⟩
    refine ⟨fun hnone hshare => hnone (hsound hshare), fun hexact hexact' hrest =>
      ⟨fun hnone hshare => hnone ?_, fun hnone hshare => hnone (hsound hshare)⟩⟩
    obtain ⟨c, hc, hc'⟩ := hshare
    obtain ⟨t, ht, w, hw⟩ := hexact c hc
    obtain ⟨t', ht', w', hw'⟩ := hexact' c hc'
    obtain ⟨u, hu⟩ := ht'.begins hρ hw'
    obtain ⟨v, hv⟩ := hrest
    refine ⟨c, ht.begins hρ hw, u ++ v, ?_⟩
    rw [hseq]
    exact Language.append_mem_mul hu hv

/-! ## A coverage that is not in order -/

/-- What the token of a literal takes: the literal, in any case where it is not sensitive to it. -/
def inAnyCase : Element → Language Char
  | .term literal caseSensitive _ _ =>
    if isEffectivelyCaseSensitive literal caseSensitive then {literal.toList}
    else {w | w.map Char.toLower = literal.toList.map Char.toLower}
  | _ => 0

/-- The literals and `x`, the alternative in between, the literals and `y`. -/
def around (literals : List String) (middle : Sequence) : List Sequence :=
  [(literals ++ ["x"]).map Element.lit, middle, (literals ++ ["y"]).map Element.lit]

/-- `S` with these alternatives. -/
def aroundRule (literals : List String) (middle : Sequence) : Grammar where
  productions := [{ name := "S", alts := around literals middle }]

/-- `S = 1 2 3 4 5 x / - / 1 2 3 4 5 y`. -/
theorem mergesOver_dash : MergesOver "bnf" Char.toLower Char.toUpper
    (aroundRule ["1", "2", "3", "4", "5"] [.lit "-"]) "S" "S"
    (around ["1", "2", "3", "4", "5"] [.lit "-"]) [] (.lit "1") 1 := by
  refine ⟨_, 0, (["2", "3", "4", "5"] ++ ["x"]).map Element.lit, _, rfl, List.suffix_refl _, rfl,
    by decide, ⟨_, List.mem_cons_self, by decide⟩, fun m hm => ?_⟩
  rw [List.mem_singleton.mp hm]
  decide

/-- A literal without letters is read in full. -/
theorem readInFull_lit {grammar : Grammar} {ρ : Env Char} {literal : String} {c : Char}
    {w : List Char} (hlit : literal.toList = c :: w)
    (hletters : isEffectivelyCaseSensitive literal none = true) :
    ReadInFull grammar inAnyCase ρ Char.toLower Char.toUpper (.lit literal) := by
  intro t ht r hr
  cases ht with
  | here _ =>
    unfold Element.lit firstRanges at hr
    rw [hlit, hletters] at hr
    obtain rfl := Option.some.inj hr
    rw [show inAnyCase (.lit literal) = {literal.toList} from if_pos hletters]
    refine ⟨fun hnil => ?_, fun d v hd => ?_⟩
    · have hlist : [] = literal.toList := hnil
      rw [hlit] at hlist
      cases hlist
    · have hlist : d :: v = literal.toList := hd
      rw [hlit] at hlist
      obtain ⟨rfl, -⟩ := List.cons.inj hlist
      exact inRanges_append.mpr (.inl ⟨(d.toNat, d.toNat), List.mem_singleton.mpr rfl, by simp⟩)

theorem factorOnce_apart_dash :
    ¬ ShareStart inAnyCase
      (nameLang inAnyCase (aroundRule ["1", "2", "3", "4", "5"] [.lit "-"]).productions)
      (.lit "1") [.lit "-"] := by
  obtain ⟨first, rest, hr, r, hview, hhr, hrr, horder, hfull⟩ :=
    factorOnce_apart mergesOver_dash
      (show (around ["1", "2", "3", "4", "5"] [.lit "-"])[1]? = some [.lit "-"] from rfl)
      (derivesAlts_nameLang (τ := inAnyCase) (by decide))
  obtain ⟨rfl, rfl⟩ := List.cons.inj hview
  obtain rfl : [(49, 49)] = hr := Option.some.inj hhr
  obtain rfl : [(45, 45)] = r := Option.some.inj hrr
  exact (hfull (readInFull_lit (c := '1') (w := []) rfl (by decide +kernel))
    (readInFull_lit (c := '-') (w := []) rfl (by decide +kernel))).1
      (horder (List.pairwise_singleton _ _) (List.pairwise_singleton _ _))

/-- `%s"Z" "q"`. -/
def capitalZ : Sequence := [.term "Z" (some true) none none, .lit "q"]

/-- `S = z a b c d x / %s"Z" q / z a b c d y`. -/
theorem mergesOver_capitalZ : MergesOver "bnf" Char.toLower Char.toUpper
    (aroundRule ["z", "a", "b", "c", "d"] capitalZ) "S" "S"
    (around ["z", "a", "b", "c", "d"] capitalZ) [] (.lit "z") 1 := by
  refine ⟨_, 0, (["a", "b", "c", "d"] ++ ["x"]).map Element.lit, _, rfl, List.suffix_refl _, rfl,
    by decide, ⟨_, List.mem_cons_self, by decide⟩, fun m hm => ?_⟩
  rw [List.mem_singleton.mp hm]
  decide

/-- The head's coverage is `z` and then `Z`, and the sweep does not come back to the second; `Z`
begins a match of either. -/
theorem factorOnce_contested :
    ¬ ∀ (grammar : Grammar) (alts : List Sequence) (headEl : Element) (j : Nat) (alt : Sequence),
      MergesOver "bnf" Char.toLower Char.toUpper grammar "S" "S" alts [] headEl j →
        alts[j]? = some alt →
          ¬ ShareStart inAnyCase (nameLang inAnyCase grammar.productions) headEl alt := by
  intro h
  refine h _ _ _ _ capitalZ mergesOver_capitalZ rfl ⟨'Z', ⟨[], ?_⟩, ['q'], ?_⟩
  · rw [den_terminal rfl]
    have hfold : ['Z'].map Char.toLower = "z".toList.map Char.toLower := by decide
    exact hfold
  · rw [capitalZ, Cf.seq_cons, Cf.seq_singleton, den_terminal rfl, den_terminal rfl]
    have hfold : ['q'].map Char.toLower = "q".toList.map Char.toLower := by decide
    exact Language.append_mem_mul (show ['Z'] ∈ inAnyCase (.term "Z" (some true) none none) from rfl)
      (show ['q'] ∈ inAnyCase (.lit "q") from hfold)

end TabnasBnf
