import Mathlib.Data.List.Dedup
import TabnasBnf.Lib.Checked
import TabnasBnf.Lib.Cuts
import TabnasBnf.Lib.Table
import TabnasBnf.Ranges

/-!
# Character classes and their partition

Model of the rest of `rs/src/ranges.rs`: which patterns are one code point (`singleCodePointRanges`),
the partition of coverages into atoms (`partitionRanges`), the class an atom is written as
(`classPattern`), and `class_analysis`.

* `inRanges_normalizeRanges`: merging changes no coverage, with spans that run backwards among them.
* **`normalizeRanges_overlap`**: coverages are normalised, and then the sweep finds whether they
  share a code point.
* `ClassAnalysis.Partitioned`: the atoms rise, cover what the contested classes cover, and each lies
  in one span of a class or outside the class.
* **`partitioned_classAnalysis`**.
* `regexKey_injective`: two patterns of one code point with one key are one.
* **`classPattern_eq`**: an atom is written alike for every class that covers it.
-/

namespace TabnasBnf

/-! ## Patterns of one code point -/

/-- `code_unit_matcher_past_bmp`. -/
def codeUnitMatcherPastBmp (r : List CharRange) (flags : String) : Bool :=
  readsUnits flags && r.any fun s => s.2 > 0xFFFF

/-- The regex syntax a lone character must not be. -/
def regexSyntax : List Char :=
  ['\\', '[', ']', '(', ')', '|', '*', '+', '?', '\x7b', '\x7d', '^', '$', '.']

/-- `is_single_code_point_pattern`. -/
def isSingleCodePointPattern : List Char → Bool
  | [c] => c.toNat ≤ 0xFFFF && !regexSyntax.contains c
  | '\\' :: rest => (readEscape ('\\' :: rest)).any fun e => e.1 == ('\\' :: rest).length
  | _ => false

/-- The pattern is one class: its closing bracket is its last character. -/
def isOneClass : List Char → Bool
  | '[' :: '^' :: rest => classBodyEnd rest 2 == some (rest.length + 2)
  | '[' :: rest => classBodyEnd rest 1 == some (rest.length + 1)
  | _ => false

/-- `single_code_point_coverage`. -/
def singleCodePointCoverage (pattern flags : String) : Option (List CharRange) :=
  if flags.toList.contains 'i' then none
  else if pattern = "[\\s\\S]" then patternCharRanges pattern flags
  else if pattern.toList.head? = some '[' then
    if isOneClass pattern.toList then patternCharRanges pattern flags else none
  else if isSingleCodePointPattern pattern.toList then patternCharRanges pattern flags
  else none

/-- `single_code_point_ranges`. -/
def singleCodePointRanges (pattern flags : String) : Option (List CharRange) :=
  (singleCodePointCoverage pattern flags).filter fun r => !codeUnitMatcherPastBmp r flags

/-- `lead_surrogates`. -/
def leadSurrogates (r : List CharRange) : List CharRange :=
  (r.filter fun s => s.1 ≤ 0xDBFF && 0xD800 ≤ s.2).map fun s => (max s.1 0xD800, min s.2 0xDBFF)

/-! ## The partition -/

/-- Where a coverage begins or ends. -/
def cutPoints (coverages : List (List CharRange)) : List Nat :=
  let cuts := coverages.flatMap fun ranges => ranges.flatMap fun r => [r.1, r.2 + 1]
  cuts.dedup.insertionSort (· ≤ ·)

/-- The span lies in a span of the coverage. -/
def spanWithin (ranges : List CharRange) (span : CharRange) : Bool :=
  ranges.any fun r => r.1 ≤ span.1 && span.2 ≤ r.2

/-- `partition_ranges`. -/
def partitionRanges (coverages : List (List CharRange)) : List CharRange :=
  ((Cuts.windows (cutPoints coverages)).map fun w => (w.1, w.2 - 1)).filter fun span =>
    !(span.2 < span.1 : Bool) && coverages.any fun ranges => spanWithin ranges span

/-- Hexadecimal, in upper case. -/
def hexUpper (n : Nat) : String := String.ofList ((Nat.toDigits 16 n).map Char.toUpper)

/-- A bound of an atom's class. -/
def escapeBound (unicode : Bool) (cp : Nat) : String :=
  if unicode then "\\u\x7b" ++ hexUpper cp ++ "\x7d"
  else "\\u" ++ String.ofList (List.replicate (4 - (hexUpper cp).length) '0') ++ hexUpper cp

/-- `class_pattern`: the class of one span, and whether it is compiled with `u`. -/
def classPattern (lo hi : Nat) (codePoints : Bool) : String × Bool :=
  let unicode := hi > 0xFFFF || codePoints && lo ≤ 0xDBFF && 0xD800 ≤ hi
  ("[" ++ escapeBound unicode lo ++ "-" ++ escapeBound unicode hi ++ "]", unicode)

/-! ## The analysis -/

/-- `ClassAnalysis`. -/
structure ClassAnalysis where
  coverage : List (String × List CharRange)
  contested : List String
  atoms : List CharRange
  /-- The key of an atom's span, and the token minted for it. -/
  atomTokens : List (String × String) := []

/-- The loop body of `class_analysis`: the classes read, and those of them the canonical matcher
reads in UTF-16 code units. -/
def addClass (read : List (String × List CharRange) × List String) :
    Element → List (String × List CharRange) × List String
  | .regex pattern flags _ =>
    let key := regexKey pattern flags
    if (read.1.lookup key).isSome then read
    else
      match singleCodePointRanges pattern flags with
      | none => read
      | some r => (Table.insert read.1 key (normalizeRanges r),
          if readsUnits flags then read.2 ++ [key] else read.2)
  | _ => read

/-- The classes without those that name, in code units, a lead surrogate a class names in code
points. -/
def dropLeads (read : List (String × List CharRange) × List String) :
    List (String × List CharRange) :=
  let points := read.1.filter fun e => !read.2.contains e.1
  let pointLeads := normalizeRanges (points.flatMap fun e => leadSurrogates e.2)
  read.1.filter fun e =>
    !(read.2.contains e.1 && charRangesOverlap (leadSurrogates e.2) pointLeads)

/-- The classes that overlap another. -/
def contestedKeys (coverage : List (String × List CharRange)) : List String :=
  (coverage.filter fun mine => coverage.any fun theirs =>
    theirs.1 != mine.1 && charRangesOverlap mine.2 theirs.2).map Prod.fst

/-- What a class covers. -/
def coverageOf (coverage : List (String × List CharRange)) (key : String) : List CharRange :=
  (coverage.lookup key).getD []

/-- `class_analysis`. -/
def classAnalysis (terminals : List Element) : ClassAnalysis :=
  let coverage := dropLeads (terminals.foldl addClass ([], []))
  let contested := contestedKeys coverage
  { coverage
    contested
    atoms := if contested.isEmpty then [] else partitionRanges (contested.map (coverageOf coverage)) }

/-! ## Coverages as sets -/

/-- The code points of a coverage. -/
def InRanges (r : List CharRange) (c : Nat) : Prop := ∃ s ∈ r, s.1 ≤ c ∧ c ≤ s.2

theorem inRanges_cons {s : CharRange} {r : List CharRange} {c : Nat} :
    InRanges (s :: r) c ↔ s.1 ≤ c ∧ c ≤ s.2 ∨ InRanges r c := by
  simp [InRanges]

theorem inRanges_append {r r' : List CharRange} {c : Nat} :
    InRanges (r ++ r') c ↔ InRanges r c ∨ InRanges r' c := by
  simp [InRanges, or_and_right, exists_or]

theorem inRanges_mergeRanges {rest : List CharRange} {c : Nat} :
    ∀ {last : CharRange}, (last :: rest).Pairwise (fun x y => x.1 ≤ y.1) →
      (InRanges (mergeRanges last rest) c ↔ InRanges (last :: rest) c) := by
  induction rest with
  | nil => exact fun _ => Iff.rfl
  | cons cur rest ih =>
    intro last hsorted
    obtain ⟨hlast, hrest⟩ := List.pairwise_cons.mp hsorted
    have hcur := hlast cur List.mem_cons_self
    unfold mergeRanges
    split
    · next htouch =>
      rw [ih, inRanges_cons, inRanges_cons, inRanges_cons, ← or_assoc]
      · refine or_congr_left ?_
        dsimp only
        omega
      · exact List.pairwise_cons.mpr
          ⟨fun y hy => hlast y (List.mem_cons_of_mem _ hy), (List.pairwise_cons.mp hrest).2⟩
    · rw [inRanges_cons, ih hrest, inRanges_cons (s := last)]

/-- **Merging changes no coverage.** -/
theorem inRanges_normalizeRanges (r : List CharRange) (c : Nat) :
    InRanges (normalizeRanges r) c ↔ InRanges r c := by
  unfold normalizeRanges
  split
  · exact Iff.rfl
  · split
    · next hsort =>
      have hperm := List.perm_insertionSort SpanLe r
      rw [hsort] at hperm
      rw [hperm.symm.eq_nil]
    · next first rest hsort =>
      have hperm := List.perm_insertionSort SpanLe r
      rw [hsort] at hperm
      rw [inRanges_mergeRanges]
      · exact ⟨fun ⟨s, hs, h⟩ => ⟨s, hperm.mem_iff.mp hs, h⟩,
          fun ⟨s, hs, h⟩ => ⟨s, hperm.mem_iff.mpr hs, h⟩⟩
      · exact pairwise_sorted hsort

/-! ## Normalised coverages -/

/-- `mergeRanges` in integers of `w` bits; `none` is an overflow. -/
def mergeRangesChecked (w : Nat) : CharRange → List CharRange → Option (List CharRange)
  | last, [] => some [last]
  | last, cur :: rest => do
    let next ← Checked.add w last.2 1
    if cur.1 ≤ next then mergeRangesChecked w (last.1, max last.2 cur.2) rest
    else (last :: ·) <$> mergeRangesChecked w cur rest

/-- `normalizeRanges` in integers of `w` bits. -/
def normalizeRangesChecked (w : Nat) (r : List CharRange) : Option (List CharRange) :=
  if r.length < 2 then some r
  else
    match r.insertionSort SpanLe with
    | [] => some []
    | first :: rest => mergeRangesChecked w first rest

/-- Spans of code points. -/
def CodePoints (r : List CharRange) : Prop := ∀ s ∈ r, s.1 ≤ s.2 ∧ s.2 ≤ maxCodePoint

/-- `out` normalises `r`: its spans rise with a gap between two of them, and cover what `r` does;
`u32` is wide enough. -/
structure Normalized (r out : List CharRange) : Prop where
  valid : CodePoints out
  gaps : out.Pairwise fun x y => x.2 + 1 < y.1
  covers : ∀ c, InRanges out c ↔ InRanges r c
  computed : normalizeRangesChecked 32 r = some out

theorem codePoints_mergeRanges {rest : List CharRange} : ∀ {last : CharRange},
    CodePoints (last :: rest) → CodePoints (mergeRanges last rest) := by
  induction rest with
  | nil => exact fun h => h
  | cons cur rest ih =>
    intro last h
    obtain ⟨hlast, hrest⟩ := List.forall_mem_cons.mp h
    obtain ⟨hcur, hrest'⟩ := List.forall_mem_cons.mp hrest
    unfold mergeRanges
    split
    · refine ih (List.forall_mem_cons.mpr ⟨?_, hrest'⟩)
      dsimp only
      omega
    · exact List.forall_mem_cons.mpr ⟨hlast, ih hrest⟩

theorem mergeRangesChecked_eq {rest : List CharRange} : ∀ {last : CharRange},
    CodePoints (last :: rest) →
      mergeRangesChecked 32 last rest = some (mergeRanges last rest) := by
  induction rest with
  | nil => exact fun _ => rfl
  | cons cur rest ih =>
    intro last h
    obtain ⟨hlast, hrest⟩ := List.forall_mem_cons.mp h
    obtain ⟨hcur, hrest'⟩ := List.forall_mem_cons.mp hrest
    have hsmall : last.2 + 1 < 2 ^ 32 := by
      unfold maxCodePoint at hlast
      omega
    unfold mergeRangesChecked mergeRanges
    rw [Checked.add_eq hsmall]
    simp only [Option.bind_eq_bind, Option.bind_some]
    split
    · refine ih (List.forall_mem_cons.mpr ⟨?_, hrest'⟩)
      dsimp only
      omega
    · rw [ih hrest]
      rfl

theorem normalized_normalizeRanges {r : List CharRange} (h : CodePoints r) :
    Normalized r (normalizeRanges r) := by
  have hsorted : ∀ {sorted}, r.insertionSort SpanLe = sorted → CodePoints sorted :=
    fun hsort s hs => h s ((List.perm_insertionSort SpanLe r).mem_iff.mp (hsort ▸ hs))
  refine ⟨?_, gaps_normalizeRanges r, inRanges_normalizeRanges r, ?_⟩
  · unfold normalizeRanges
    split
    · exact h
    · split
      · exact fun s hs => absurd hs List.not_mem_nil
      · next first rest hsort => exact codePoints_mergeRanges (hsorted hsort)
  · unfold normalizeRangesChecked normalizeRanges
    split
    · rfl
    · cases hsort : r.insertionSort SpanLe with
      | nil => rfl
      | cons first rest => exact mergeRangesChecked_eq (hsorted hsort)

/-- Spans that are not empty meet in a code point. -/
theorem meet_iff {x y : CharRange} (hx : x.1 ≤ x.2) (hy : y.1 ≤ y.2) :
    x.1 ≤ y.2 ∧ y.1 ≤ x.2 ↔ ∃ c, (x.1 ≤ c ∧ c ≤ x.2) ∧ y.1 ≤ c ∧ c ≤ y.2 := by
  constructor
  · rintro ⟨hxy, hyx⟩
    exact ⟨max x.1 y.1, by omega, by omega⟩
  · rintro ⟨c, hcx, hcy⟩
    omega

/-- **Two coverages are normalised, and then the sweep finds whether they share a code point.** -/
theorem normalizeRanges_overlap {a b : List CharRange} (ha : CodePoints a) (hb : CodePoints b) :
    Normalized a (normalizeRanges a) ∧ Normalized b (normalizeRanges b) ∧
      (charRangesOverlap (normalizeRanges a) (normalizeRanges b) = true ↔
        ∃ c, InRanges a c ∧ InRanges b c) := by
  have hna := normalized_normalizeRanges ha
  have hnb := normalized_normalizeRanges hb
  refine ⟨hna, hnb, ?_⟩
  rw [charRangesOverlap_iff (apart_normalizeRanges a) (apart_normalizeRanges b)]
  constructor
  · rintro ⟨x, hx, y, hy, hmeet⟩
    obtain ⟨c, hcx, hcy⟩ := (meet_iff (hna.valid x hx).1 (hnb.valid y hy).1).mp hmeet
    exact ⟨c, (hna.covers c).mp ⟨x, hx, hcx⟩, (hnb.covers c).mp ⟨y, hy, hcy⟩⟩
  · rintro ⟨c, hca, hcb⟩
    obtain ⟨x, hx, hcx⟩ := (hna.covers c).mpr hca
    obtain ⟨y, hy, hcy⟩ := (hnb.covers c).mpr hcb
    exact ⟨x, hx, y, hy, (meet_iff (hna.valid x hx).1 (hnb.valid y hy).1).mpr ⟨c, hcx, hcy⟩⟩

theorem normalizeRanges_overlap_digits :
    charRangesOverlap (normalizeRanges [(0x35, 0x39), (0x30, 0x34)])
        (normalizeRanges [(0x61, 0x7A), (0x39, 0x41), (0x40, 0x5A)]) = true ↔
      ∃ c, InRanges [(0x35, 0x39), (0x30, 0x34)] c ∧
        InRanges [(0x61, 0x7A), (0x39, 0x41), (0x40, 0x5A)] c :=
  (normalizeRanges_overlap (by unfold CodePoints; decide) (by unfold CodePoints; decide)).2.2

/-! ## Atoms -/

section

variable {coverages : List (List CharRange)} {span : CharRange} {ranges : List CharRange} {c : Nat}

theorem mem_cutPoints {r : CharRange} (hranges : ranges ∈ coverages) (hr : r ∈ ranges) :
    r.1 ∈ cutPoints coverages ∧ r.2 + 1 ∈ cutPoints coverages := by
  unfold cutPoints
  simp only [List.mem_insertionSort, List.mem_dedup, List.mem_flatMap]
  exact ⟨⟨ranges, hranges, r, hr, by simp⟩, ⟨ranges, hranges, r, hr, by simp⟩⟩

theorem pairwise_cutPoints (coverages : List (List CharRange)) :
    (cutPoints coverages).Pairwise (· < ·) := by
  unfold cutPoints
  have hsorted := List.pairwise_insertionSort (· ≤ ·)
    (coverages.flatMap fun ranges => ranges.flatMap fun r => [r.1, r.2 + 1]).dedup
  have hnodup := (List.perm_insertionSort (· ≤ ·) _).nodup_iff.mpr
    (List.nodup_dedup (coverages.flatMap fun ranges => ranges.flatMap fun r => [r.1, r.2 + 1]))
  exact (hsorted.and hnodup).imp fun h => lt_of_le_of_ne h.1 h.2

theorem spanWithin_iff : spanWithin ranges span = true ↔
    ∃ r ∈ ranges, r.1 ≤ span.1 ∧ span.2 ≤ r.2 := by
  simp [spanWithin]

theorem mem_partitionRanges : span ∈ partitionRanges coverages ↔
    (∃ w ∈ Cuts.windows (cutPoints coverages), span = (w.1, w.2 - 1)) ∧
      ∃ ranges ∈ coverages, spanWithin ranges span = true := by
  unfold partitionRanges
  rw [List.mem_filter, List.mem_map]
  simp only [Bool.and_eq_true, Bool.not_eq_true', decide_eq_false_iff_not, List.any_eq_true]
  constructor
  · rintro ⟨⟨w, hw, rfl⟩, -, hin⟩
    exact ⟨⟨w, hw, rfl⟩, hin⟩
  · rintro ⟨⟨w, hw, rfl⟩, hin⟩
    have := Cuts.lt_of_mem_windows (pairwise_cutPoints coverages) hw
    exact ⟨⟨w, hw, rfl⟩, by dsimp only; omega, hin⟩

/-- An atom lies in a span of a coverage or outside of it. -/
theorem within_or_outside (hspan : span ∈ partitionRanges coverages) (hranges : ranges ∈ coverages) :
    spanWithin ranges span = true ∨ ∀ c, span.1 ≤ c → c ≤ span.2 → ¬ InRanges ranges c := by
  by_cases hin : spanWithin ranges span = true
  · exact .inl hin
  · refine .inr fun c hlo hhi hc => hin ?_
    obtain ⟨⟨w, hw, rfl⟩, -⟩ := mem_partitionRanges.mp hspan
    obtain ⟨r, hr, hrc⟩ := hc
    obtain ⟨hcut, hcut'⟩ := mem_cutPoints hranges hr
    have h₁ := Cuts.le_or_le_of_mem_windows (pairwise_cutPoints _) hw _ hcut
    have h₂ := Cuts.le_or_le_of_mem_windows (pairwise_cutPoints _) hw _ hcut'
    refine spanWithin_iff.mpr ⟨r, hr, ?_⟩
    dsimp only at hlo hhi ⊢
    omega

theorem le_of_mem_partitionRanges (hspan : span ∈ partitionRanges coverages) :
    span.1 ≤ span.2 := by
  obtain ⟨⟨w, hw, rfl⟩, -⟩ := mem_partitionRanges.mp hspan
  have := Cuts.lt_of_mem_windows (pairwise_cutPoints coverages) hw
  dsimp only
  omega

/-- A code point of a coverage lies in an atom of it. -/
theorem exists_atom (hranges : ranges ∈ coverages) (hc : InRanges ranges c) :
    ∃ span ∈ partitionRanges coverages, spanWithin ranges span = true ∧ span.1 ≤ c ∧ c ≤ span.2 := by
  obtain ⟨r, hr, hrc⟩ := hc
  obtain ⟨hcut, hcut'⟩ := mem_cutPoints hranges hr
  obtain ⟨w, hw, hin⟩ :=
    Cuts.exists_window (pairwise_cutPoints _) hcut hcut' hrc.1 (Nat.lt_succ_of_le hrc.2)
  have hwithin : spanWithin ranges (w.1, w.2 - 1) = true := by
    have h₁ := Cuts.le_or_le_of_mem_windows (pairwise_cutPoints _) hw _ hcut
    have h₂ := Cuts.le_or_le_of_mem_windows (pairwise_cutPoints _) hw _ hcut'
    refine spanWithin_iff.mpr ⟨r, hr, ?_⟩
    dsimp only
    omega
  refine ⟨(w.1, w.2 - 1), mem_partitionRanges.mpr ⟨⟨w, hw, rfl⟩, ranges, hranges, hwithin⟩,
    hwithin, ?_⟩
  dsimp only
  omega

theorem pairwise_partitionRanges (coverages : List (List CharRange)) :
    (partitionRanges coverages).Pairwise fun x y => x.2 < y.1 := by
  have hwindows := Cuts.pairwise_windows (pairwise_cutPoints coverages)
  have hlt : ∀ w ∈ Cuts.windows (cutPoints coverages), w.1 < w.2 :=
    fun w hw => Cuts.lt_of_mem_windows (pairwise_cutPoints coverages) hw
  refine List.Pairwise.filter _ (List.pairwise_map.mpr ?_)
  refine hwindows.imp_of_mem fun {x y} hx _ hxy => ?_
  have := hlt x hx
  dsimp only
  omega

end

/-- What the atoms of an analysis are. -/
structure ClassAnalysis.Partitioned (a : ClassAnalysis) : Prop where
  proper : ∀ s ∈ a.atoms, s.1 ≤ s.2
  apart : a.atoms.Pairwise fun x y => x.2 < y.1
  /-- The atoms cover what the contested classes cover. -/
  covers : ∀ c, InRanges a.atoms c ↔ ∃ key ∈ a.contested, InRanges (coverageOf a.coverage key) c
  /-- No atom straddles the edge of a contested class. -/
  whole : ∀ s ∈ a.atoms, ∀ key ∈ a.contested,
    spanWithin (coverageOf a.coverage key) s = true ∨
      ∀ c, s.1 ≤ c → c ≤ s.2 → ¬ InRanges (coverageOf a.coverage key) c

theorem inRanges_of_spanWithin {ranges : List CharRange} {s : CharRange} {c : Nat}
    (h : spanWithin ranges s = true) (hlo : s.1 ≤ c) (hhi : c ≤ s.2) : InRanges ranges c := by
  obtain ⟨r, hr, hin⟩ := spanWithin_iff.mp h
  exact ⟨r, hr, by omega, by omega⟩

theorem classAnalysis_atoms (terminals : List Element) :
    (classAnalysis terminals).atoms = partitionRanges ((classAnalysis terminals).contested.map
      (coverageOf (classAnalysis terminals).coverage)) := by
  unfold classAnalysis
  dsimp only
  split
  · next hempty =>
    rw [List.isEmpty_iff.mp hempty]
    rfl
  · rfl

/-- **The atoms partition what the contested classes cover.** -/
theorem partitioned_classAnalysis (terminals : List Element) :
    (classAnalysis terminals).Partitioned where
  proper := by
    rw [classAnalysis_atoms]
    exact fun s hs => le_of_mem_partitionRanges hs
  apart := by
    rw [classAnalysis_atoms]
    exact pairwise_partitionRanges _
  covers := by
    intro c
    rw [classAnalysis_atoms]
    constructor
    · rintro ⟨s, hs, hlo, hhi⟩
      obtain ⟨-, ranges, hranges, hin⟩ := mem_partitionRanges.mp hs
      obtain ⟨key, hkey, rfl⟩ := List.mem_map.mp hranges
      exact ⟨key, hkey, inRanges_of_spanWithin hin hlo hhi⟩
    · rintro ⟨key, hkey, hc⟩
      obtain ⟨s, hs, -, hin⟩ := exists_atom (List.mem_map_of_mem hkey) hc
      exact ⟨s, hs, hin⟩
  whole := by
    intro s hs key hkey
    rw [classAnalysis_atoms] at hs
    exact within_or_outside hs (List.mem_map_of_mem hkey)

/-! ## The classes an analysis reads -/

theorem classBodyEnd_append {l : List Char} (more : List Char) {i e : Nat}
    (h : classBodyEnd l i = some e) : classBodyEnd (l ++ more) i = some e := by
  induction l, i using classBodyEnd.induct with
  | case1 i => cases h
  | case2 rest i => exact h
  | case3 c rest i ih => exact ih h
  | case4 c rest i hclose hescape ih =>
    rw [classBodyEnd] at h
    · rw [List.cons_append, classBodyEnd]
      · exact ih h
      · exact hclose
      · intro d rest' heq hrest
        cases rest with
        | nil => cases h
        | cons d' rest => exact hescape d' rest heq rfl
    · exact hclose
    · exact hescape

theorem takeWhile_append_of_length_ne {α : Type} {p : α → Bool} {l : List α} (more : List α)
    (h : (l.takeWhile p).length ≠ l.length) : (l ++ more).takeWhile p = l.takeWhile p := by
  rw [List.takeWhile_append, if_neg h]

theorem escapeDigits_pos (m : Char) : 0 < escapeDigits m := by
  unfold escapeDigits
  split
  · decide
  · split <;> decide

theorem readEscape_append {l : List Char} (more : List Char) {e : Nat × Nat}
    (h : readEscape l = some e) : readEscape (l ++ more) = some e := by
  match l with
  | [] => cases h
  | [_] => cases h
  | b :: m :: rest =>
    simp only [readEscape, List.cons_append] at h ⊢
    split at h
    · next hm =>
      rw [if_pos hm]
      split at h
      · next rest =>
        rw [List.cons_append]
        by_cases hopen : (rest.takeWhile (· != '\x7d')).length = rest.length
        · rw [if_pos hopen] at h
          cases h
        · rw [if_neg hopen] at h
          split
          · next rest' heq =>
            obtain rfl := (List.cons.inj heq).2
            rw [takeWhile_append_of_length_ne more hopen, if_neg]
            · exact h
            · have := (List.takeWhile_prefix (l := rest) (· != '\x7d')).length_le
              rw [List.length_append]
              omega
          · next hbrace => exact absurd rfl (hbrace _)
      · next hbrace =>
        split at h
        · cases h
        · next hlen =>
          have hne : ∀ more', rest ++ more ≠ '\x7b' :: more' := by
            intro more' heq
            cases rest with
            | nil => exact hlen (escapeDigits_pos m)
            | cons c rest => exact hbrace rest (by rw [← (List.cons.inj heq).1])
          split
          · next heq => exact absurd heq (hne _)
          · rw [if_neg (by rw [List.length_append]; omega),
              List.take_append_of_le_length (by omega)]
            exact h
    · next hm =>
      rw [if_neg hm]
      exact h

/-- The pattern is one class or one code point. -/
def IsSingle (pattern : List Char) : Prop :=
  if pattern.head? = some '[' then isOneClass pattern = true
  else isSingleCodePointPattern pattern = true

theorem isSingle_of_ranges {pattern flags : String} {r : List CharRange}
    (h : singleCodePointRanges pattern flags = some r) : IsSingle pattern.toList := by
  have hcoverage := (Option.filter_eq_some_iff.mp h).1
  unfold singleCodePointCoverage at hcoverage
  unfold IsSingle
  split at hcoverage
  · cases hcoverage
  · split at hcoverage
    · next hall =>
      rw [hall]
      decide
    · split at hcoverage
      · next hhead =>
        rw [if_pos hhead]
        split at hcoverage
        · assumption
        · cases hcoverage
      · next hhead =>
        rw [if_neg hhead]
        split at hcoverage
        · assumption
        · cases hcoverage

theorem isOneClass_append {rest more : List Char} {c : Char}
    (h : isOneClass ('[' :: rest) = true) : isOneClass ('[' :: rest ++ c :: more) = false := by
  have hlonger : ∀ {l : List Char} {i : Nat}, classBodyEnd l i = some (l.length + i) →
      (classBodyEnd (l ++ c :: more) i == some ((l ++ c :: more).length + i)) = false := by
    intro l i hend
    rw [classBodyEnd_append _ hend]
    simp
  rw [List.cons_append]
  cases rest with
  | nil => simp [isOneClass, classBodyEnd] at h
  | cons d rest =>
    by_cases hd : d = '^'
    · subst hd
      simp only [isOneClass, beq_iff_eq, List.cons_append] at h ⊢
      exact hlonger h
    · have hclass : ∀ l, isOneClass ('[' :: d :: l) =
          (classBodyEnd (d :: l) 1 == some ((d :: l).length + 1)) := by
        intro l
        unfold isOneClass
        split
        · next heq => exact absurd (List.cons.inj (List.cons.inj heq).2).1 hd
        · next heq => rw [← (List.cons.inj heq).2]
        · next hno => exact absurd rfl (hno _)
      rw [hclass, beq_iff_eq] at h
      rw [List.cons_append, hclass]
      exact hlonger (l := d :: rest) h

theorem isSingleCodePointPattern_escape (rest : List Char) (h : rest ≠ []) :
    isSingleCodePointPattern ('\\' :: rest) =
      (readEscape ('\\' :: rest)).any fun e => e.1 == ('\\' :: rest).length := by
  cases rest with
  | nil => exact absurd rfl h
  | cons c rest => rfl

/-- What is one code point is no more with a character added. -/
theorem IsSingle.not_append {pattern more : List Char} {c : Char} (h : IsSingle pattern) :
    ¬ IsSingle (pattern ++ c :: more) := by
  unfold IsSingle at h ⊢
  cases pattern with
  | nil => simp [isSingleCodePointPattern] at h
  | cons first rest =>
    rw [List.cons_append, List.head?_cons]
    rw [List.head?_cons] at h
    split at h
    · next hfirst =>
      obtain rfl := Option.some.inj hfirst
      rw [if_pos rfl, ← List.cons_append, isOneClass_append h]
      decide
    · next hfirst =>
      rw [if_neg hfirst]
      by_cases hescape : first = '\\'
      · subst hescape
        cases rest with
        | nil => simp [isSingleCodePointPattern, regexSyntax] at h
        | cons d rest =>
          rw [isSingleCodePointPattern_escape _ (by simp), Option.any_eq_true] at h ⊢
          obtain ⟨e, hread, hlen⟩ := h
          rintro ⟨e', hread', hlen'⟩
          have := readEscape_append (c :: more) hread
          rw [List.cons_append] at this
          obtain rfl := Option.some.inj (this.symm.trans hread')
          have hsame := (beq_iff_eq.mp hlen).symm.trans (beq_iff_eq.mp hlen')
          simp at hsame
      · cases rest with
        | nil =>
          unfold isSingleCodePointPattern
          split
          · next heq => cases (List.cons.inj heq).2
          · next heq => exact absurd (List.cons.inj heq).1 hescape
          · simp
        | cons d rest =>
          unfold isSingleCodePointPattern at h
          split at h
          · next heq => cases (List.cons.inj heq).2
          · next heq => exact absurd (List.cons.inj heq).1 hescape
          · cases h

/-- **Two patterns of one code point with one key are one.** -/
theorem regexKey_injective {pattern flags pattern' flags' : String} (h : IsSingle pattern.toList)
    (h' : IsSingle pattern'.toList) (hkey : regexKey pattern flags = regexKey pattern' flags') :
    pattern = pattern' ∧ flags = flags' := by
  have hlists : pattern.toList ++ '/' :: flags.toList = pattern'.toList ++ '/' :: flags'.toList := by
    have := congrArg String.toList hkey
    simpa [regexKey, String.toList_append] using this
  have hpattern : pattern.toList = pattern'.toList := by
    rcases List.append_eq_append_iff.mp hlists with ⟨rest, hlonger, hrest⟩ | ⟨rest, hlonger, hrest⟩
    · cases rest with
      | nil => rw [hlonger, List.append_nil]
      | cons c rest =>
        rw [hlonger] at h'
        exact absurd h' h.not_append
    · cases rest with
      | nil => rw [hlonger, List.append_nil]
      | cons c rest =>
        rw [hlonger] at h
        exact absurd h h'.not_append
  rw [hpattern] at hlists
  have hflags := List.append_cancel_left hlists
  exact ⟨String.toList_inj.mp hpattern, String.toList_inj.mp (List.cons.inj hflags).2⟩

/-- What the loop of `class_analysis` has read from the terminals. -/
structure ReadFrom (terminals : List Element)
    (read : List (String × List CharRange) × List String) : Prop where
  source : ∀ key cov, read.1.lookup key = some cov → ∃ pattern flags sp r,
    Element.regex pattern flags sp ∈ terminals ∧ key = regexKey pattern flags ∧
      singleCodePointRanges pattern flags = some r ∧ cov = normalizeRanges r ∧
        (key ∈ read.2 ↔ readsUnits flags = true)
  units : ∀ key ∈ read.2, (read.1.lookup key).isSome
  nodup : (read.1.map Prod.fst).Nodup

theorem ReadFrom.addClass {terminals : List Element}
    {read : List (String × List CharRange) × List String} (h : ReadFrom terminals read)
    {el : Element} (hel : el ∈ terminals) : ReadFrom terminals (addClass read el) := by
  unfold TabnasBnf.addClass
  split
  · next pattern flags sp =>
    dsimp only
    split
    · exact h
    · next hnew =>
      have hunit : regexKey pattern flags ∉ read.2 := fun hmem => hnew (h.units _ hmem)
      split
      · exact h
      · next r hr =>
        refine ⟨fun key cov hcov => ?_, fun key hkey => ?_, Table.nodup_keys_insert h.nodup _ _⟩
        · rw [Table.lookup_insert] at hcov
          by_cases hk : key = regexKey pattern flags
          · rw [if_pos hk] at hcov
            refine ⟨pattern, flags, sp, r, hel, hk, hr, (Option.some.inj hcov).symm, ?_⟩
            subst hk
            by_cases hflags : readsUnits flags = true
            · simp [hflags]
            · simp [hflags, hunit]
          · rw [if_neg hk] at hcov
            obtain ⟨pattern', flags', sp', r', hmem, hkey, hr', hcov, hiff⟩ := h.source key cov hcov
            refine ⟨pattern', flags', sp', r', hmem, hkey, hr', hcov, ?_⟩
            rw [← hiff]
            split
            · simp [hk]
            · exact Iff.rfl
        · rw [Table.lookup_insert]
          by_cases hk : key = regexKey pattern flags
          · rw [if_pos hk]
            rfl
          · rw [if_neg hk]
            refine h.units key ?_
            dsimp only at hkey
            split at hkey
            · simpa [hk] using hkey
            · exact hkey
  · exact h

theorem readFrom_foldl {terminals : List Element} : ∀ (els : List Element),
    (∀ el ∈ els, el ∈ terminals) → ∀ {read : List (String × List CharRange) × List String},
      ReadFrom terminals read → ReadFrom terminals (els.foldl addClass read)
  | [], _, _, h => h
  | el :: els, hels, _, h => by
    obtain ⟨hel, hels⟩ := List.forall_mem_cons.mp hels
    exact readFrom_foldl els hels (h.addClass hel)

/-- The classes `classAnalysis` reads, before it drops any. -/
def readClasses (terminals : List Element) : List (String × List CharRange) × List String :=
  terminals.foldl addClass ([], [])

theorem readFrom_readClasses (terminals : List Element) :
    ReadFrom terminals (readClasses terminals) :=
  readFrom_foldl terminals (fun _ h => h)
    ⟨fun _ _ h => (by cases h), fun _ h => (by cases h), List.nodup_nil⟩

/-- A contested class of the terminals. -/
structure IsContested (terminals : List Element) (pattern flags : String) (r : List CharRange) :
    Prop where
  ranges : singleCodePointRanges pattern flags = some r
  contested : regexKey pattern flags ∈ (classAnalysis terminals).contested

theorem classAnalysis_coverage (terminals : List Element) :
    (classAnalysis terminals).coverage = dropLeads (readClasses terminals) := rfl

theorem mem_contested {terminals : List Element} {key : String}
    (h : key ∈ (classAnalysis terminals).contested) :
    ((classAnalysis terminals).coverage.lookup key).isSome := by
  obtain ⟨e, he, rfl⟩ := List.mem_map.mp h
  exact List.lookup_isSome_iff.mpr ⟨e, List.mem_of_mem_filter he, by simp⟩

/-- A contested class covers what its pattern does, and was not dropped. -/
theorem IsContested.read {terminals : List Element} {pattern flags : String} {r : List CharRange}
    (h : IsContested terminals pattern flags r) :
    coverageOf (classAnalysis terminals).coverage (regexKey pattern flags) = normalizeRanges r ∧
      (regexKey pattern flags, normalizeRanges r) ∈ dropLeads (readClasses terminals) ∧
        (regexKey pattern flags ∈ (readClasses terminals).2 ↔ readsUnits flags = true) := by
  obtain ⟨cov, hcov⟩ := Option.isSome_iff_exists.mp (mem_contested h.contested)
  have hmem := Table.mem_of_lookup hcov
  rw [classAnalysis_coverage] at hmem
  have hread := readFrom_readClasses terminals
  have hlookup := Table.lookup_of_mem hread.nodup (List.mem_of_mem_filter hmem)
  obtain ⟨pattern', flags', sp, r', -, hkey, hr', rfl, hiff⟩ := hread.source _ _ hlookup
  obtain ⟨rfl, rfl⟩ :=
    regexKey_injective (isSingle_of_ranges h.ranges) (isSingle_of_ranges hr') hkey
  obtain rfl := Option.some.inj (h.ranges.symm.trans hr')
  exact ⟨by rw [coverageOf, hcov]; rfl, hmem, hiff⟩

theorem apart_leadSurrogates {r : List CharRange} (h : Apart r) : Apart (leadSurrogates r) := by
  refine List.pairwise_map.mpr ((List.Pairwise.filter _ h).imp_of_mem fun {x y} hx hy hxy => ?_)
  have hx := (List.mem_filter.mp hx).2
  have hy := (List.mem_filter.mp hy).2
  simp only [Bool.and_eq_true, decide_eq_true_eq] at hx hy
  dsimp only
  omega

theorem inRanges_leadSurrogates {r : List CharRange} {c : Nat} (h : InRanges r c)
    (hlo : 0xD800 ≤ c) (hhi : c ≤ 0xDBFF) : InRanges (leadSurrogates r) c := by
  obtain ⟨s, hs, hsc⟩ := h
  refine ⟨(max s.1 0xD800, min s.2 0xDBFF), List.mem_map.mpr ⟨s, List.mem_filter.mpr ⟨hs, ?_⟩, rfl⟩,
    ?_⟩
  · simp only [Bool.and_eq_true, decide_eq_true_eq]
    omega
  · dsimp only
    omega

theorem charRangesOverlap_of_inRanges {x y : List CharRange} (hx : Apart x) (hy : Apart y) {c : Nat}
    (hxc : InRanges x c) (hyc : InRanges y c) : charRangesOverlap x y = true := by
  obtain ⟨s, hs, hsc⟩ := hxc
  obtain ⟨s', hs', hsc'⟩ := hyc
  exact (charRangesOverlap_iff hx hy).mpr ⟨s, hs, s', hs', by omega, by omega⟩

/-- A contested class read in code units shares no lead surrogate with one read in code points. -/
theorem IsContested.no_lead {terminals : List Element} {pattern flags pattern' flags' : String}
    {r r' : List CharRange} (h : IsContested terminals pattern flags r)
    (h' : IsContested terminals pattern' flags' r') (hunits : readsUnits flags = true)
    (hpoints : readsUnits flags' = false) {c : Nat} (hc : InRanges (normalizeRanges r) c)
    (hc' : InRanges (normalizeRanges r') c) (hlo : 0xD800 ≤ c) : 0xDBFF < c := by
  obtain ⟨-, hkept, hunit⟩ := h.read
  obtain ⟨-, hkept', hunit'⟩ := h'.read
  by_contra hhi
  rw [not_lt] at hhi
  have hpoint : regexKey pattern' flags' ∉ (readClasses terminals).2 := by
    rw [hunit', hpoints]
    exact Bool.false_ne_true
  have hlead := inRanges_leadSurrogates hc' hlo hhi
  have hleads : InRanges (normalizeRanges (((readClasses terminals).1.filter fun e =>
      !(readClasses terminals).2.contains e.1).flatMap fun e => leadSurrogates e.2)) c := by
    rw [inRanges_normalizeRanges]
    obtain ⟨s, hs, hsc⟩ := hlead
    refine ⟨s, List.mem_flatMap.mpr ⟨_, List.mem_filter.mpr ⟨List.mem_of_mem_filter hkept', ?_⟩, hs⟩,
      hsc⟩
    simpa using hpoint
  have hoverlap := charRangesOverlap_of_inRanges (apart_leadSurrogates (apart_normalizeRanges r))
    (apart_normalizeRanges _) (inRanges_leadSurrogates hc hlo hhi) hleads
  have hdropped := (List.mem_filter.mp hkept).2
  rw [hoverlap, show (readClasses terminals).2.contains (regexKey pattern flags) = true by
    simpa using hunit.mpr hunits] at hdropped
  cases hdropped

/-- **An atom is written alike for every contested class that covers it.** -/
theorem classPattern_eq {terminals : List Element} {pattern flags pattern' flags' : String}
    {r r' : List CharRange} (h : IsContested terminals pattern flags r)
    (h' : IsContested terminals pattern' flags' r') {span : CharRange} (hspan : span.1 ≤ span.2)
    (hin : spanWithin (normalizeRanges r) span = true)
    (hin' : spanWithin (normalizeRanges r') span = true) :
    classPattern span.1 span.2 (!readsUnits flags) =
      classPattern span.1 span.2 (!readsUnits flags') := by
  by_cases hflags : readsUnits flags = readsUnits flags'
  · rw [hflags]
  by_cases hlead : span.1 ≤ 0xDBFF ∧ 0xD800 ≤ span.2
  · have hlow : span.1 ≤ max span.1 0xD800 := Nat.le_max_left _ _
    have hhigh : max span.1 0xD800 ≤ span.2 := by omega
    have hc := inRanges_of_spanWithin hin hlow hhigh
    have hc' := inRanges_of_spanWithin hin' hlow hhigh
    have hover : 0xDBFF < max span.1 0xD800 := by
      cases hunits : readsUnits flags with
      | true =>
        have hpoints : readsUnits flags' = false := by
          simpa [hunits] using Ne.symm hflags
        exact h.no_lead h' hunits hpoints hc hc' (Nat.le_max_right _ _)
      | false =>
        have hunits' : readsUnits flags' = true := by
          simpa [hunits] using Ne.symm hflags
        exact h'.no_lead h hunits' hunits hc' hc (Nat.le_max_right _ _)
    omega
  · have hflat : ∀ codePoints : Bool,
        (codePoints && decide (span.1 ≤ 0xDBFF) && decide (0xD800 ≤ span.2)) = false := by
      intro codePoints
      rw [Bool.and_assoc, show (decide (span.1 ≤ 0xDBFF) && decide (0xD800 ≤ span.2)) = false by
        simpa using hlead, Bool.and_false]
    unfold classPattern
    rw [hflat, hflat]

end TabnasBnf
