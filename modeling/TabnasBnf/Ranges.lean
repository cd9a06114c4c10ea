import Mathlib.Data.List.Sort
import TabnasBnf.Ir

/-!
# Character coverage

Model of what the passes ask of `rs/src/ranges.rs`: which characters can begin a match of a
regular expression (`patternCharRanges`, `readEscape`), where its first atom ends
(`regexHeadAtomEnd`), and whether two coverages overlap.

* `charRangesOverlap_iff`: on merged coverages the sweep finds every pair of spans that meet, so it
  is symmetric (`charRangesOverlap_comm`).

Code points are `Nat`. `sort_by_key` is an insertion sort, stable as well.
-/

namespace TabnasBnf

/-- `CharRange`: an inclusive code-point span. -/
abbrev CharRange := Nat × Nat

/-- `MAX_CODE_POINT`. -/
def maxCodePoint : Nat := 0x10FFFF

/-- `char::to_digit(16)`. -/
def hexDigit (c : Char) : Option Nat :=
  if '0' ≤ c ∧ c ≤ '9' then some (c.toNat - 0x30)
  else if 'a' ≤ c ∧ c ≤ 'f' then some (c.toNat - 0x61 + 10)
  else if 'A' ≤ c ∧ c ≤ 'F' then some (c.toNat - 0x41 + 10)
  else none

/-- `char::from_u32(cp).is_some()`: a Unicode scalar value. -/
def isScalar (cp : Nat) : Bool := cp < 0xD800 || (0xDFFF < cp && cp ≤ maxCodePoint)

/-- `scalar` of `read_escape`: hex digits that spell a scalar value. -/
def hexScalar (digits : List Char) : Option Nat :=
  if digits.isEmpty then none
  else do
    let values ← digits.mapM hexDigit
    let cp := values.foldl (fun n d => 16 * n + d) 0
    if isScalar cp then some cp else none

/-- How many digits a hex escape without braces has. -/
def escapeDigits (m : Char) : Nat :=
  if m = 'x' then 2 else if m = 'u' then 4 else 8

/-- `read_escape` on the characters from the backslash on: how many it reads and the code
point. -/
def readEscape : List Char → Option (Nat × Nat)
  | _ :: m :: rest =>
    if m = 'x' ∨ m = 'u' ∨ m = 'U' then
      match rest with
      | '\x7b' :: rest =>
        let digits := rest.takeWhile (· != '\x7d')
        if digits.length = rest.length then none
        else if m = 'u' ∧ 6 < digits.length then none
        else (hexScalar digits).map fun cp => (digits.length + 4, cp)
      | rest =>
        let n := escapeDigits m
        if rest.length < n then none
        else (hexScalar (rest.take n)).map fun cp => (2 + n, cp)
    else if m = 'a' then some (2, 0x07)
    else if m.toNat < 128 ∧ !m.isAlphanum ∧ m ≠ '<' ∧ m ≠ '>' then some (2, m.toNat)
    else none
  | _ => none

/-- `one` of `pattern_char_ranges`: one code point, and what follows it. -/
def readOne : List Char → Option (Nat × List Char)
  | [] => none
  | c :: rest =>
    if c ≠ '\\' then some (c.toNat, rest)
    else (readEscape (c :: rest)).map fun (n, cp) => (cp, (c :: rest).drop n)

/-- Without `u` or `v` the canonical matcher reads a pattern in UTF-16 code units. -/
def readsUnits (flags : String) : Bool := !(flags.toList.contains 'u' || flags.toList.contains 'v')

/-- `split` of `pattern_char_ranges`: the surrogates an astral character in a class is. -/
def splitUnits (flags : String) (raw : Bool) (cp : Nat) : List CharRange :=
  if raw && readsUnits flags && cp > 0xFFFF then
    let lead := 0xD800 + (cp - 0x10000) / 1024
    let trail := 0xDC00 + (cp - 0x10000) % 1024
    [(lead, lead), (trail, trail)]
  else []

/-- The loop of `pattern_char_ranges` over the members of a class, up to its bracket. Every
member is at least one character. -/
def classRanges (flags : String) : Nat → List Char → List CharRange → Option (List CharRange)
  | _, [], _ => none
  | _, ']' :: _, ranges => some ranges
  | 0, _ :: _, _ => none
  | fuel + 1, c :: rest, ranges => do
    let (lo, rest) ← readOne (c :: rest)
    let ranges := ranges ++ splitUnits flags (c != '\\') lo
    match rest with
    | '-' :: d :: rest' =>
      if d != ']' then
        let (hi, rest') ← readOne (d :: rest')
        classRanges flags fuel rest' (ranges ++ splitUnits flags (d != '\\') hi ++ [(lo, hi)])
      else classRanges flags fuel rest (ranges ++ [(lo, lo)])
    | _ => classRanges flags fuel rest (ranges ++ [(lo, lo)])

/-- The loop over sorted ranges that complements them. -/
def complementFrom : List CharRange → Nat → List CharRange
  | [], next => if next ≤ maxCodePoint then [(next, maxCodePoint)] else []
  | (lo, hi) :: rest, next =>
    (if next < lo then [(next, lo - 1)] else []) ++ complementFrom rest (max (hi + 1) next)

/-- `pattern_char_ranges`. -/
def patternCharRanges (pattern flags : String) : Option (List CharRange) :=
  if pattern = "[\\s\\S]" then some [(0, maxCodePoint)]
  else match pattern.toList with
    | '[' :: '^' :: rest => (classRanges flags rest.length rest []).map fun ranges =>
        complementFrom (ranges.insertionSort fun a b => a.1 ≤ b.1) 0
    | '[' :: rest => classRanges flags rest.length rest []
    | chars => (readOne chars).map fun (cp, _) => [(cp, cp)]

/-- `code_unit_reach`. -/
def codeUnitReach (r : List CharRange) (flags : String) : List CharRange :=
  if readsUnits flags then
    r ++ r.filterMap fun (lo, hi) =>
      let a := max lo 0xD800
      let b := min hi 0xDBFF
      if a ≤ b then
        some (0x10000 + (a - 0xD800) * 1024, 0x10000 + (b - 0xD800) * 1024 + 0x3FF)
      else none
  else r

/-- The sweep of `char_ranges_overlap`, which moves one of its two places on at a time. -/
def overlapSweep : Nat → List CharRange → List CharRange → Bool
  | fuel + 1, a :: as, b :: bs =>
    if a.1 ≤ b.2 && b.1 ≤ a.2 then true
    else if a.2 < b.2 then overlapSweep fuel as (b :: bs)
    else overlapSweep fuel (a :: as) bs
  | _, _, _ => false

/-- `char_ranges_overlap`. -/
def charRangesOverlap (a b : List CharRange) : Bool := overlapSweep (a.length + b.length) a b

/-- The members of a class up to its bracket, from the character number `i` on. -/
def classBodyEnd : List Char → Nat → Option Nat
  | [], _ => none
  | ']' :: _, i => some (i + 1)
  | '\\' :: _ :: rest, i => classBodyEnd rest (i + 2)
  | _ :: rest, i => classBodyEnd rest (i + 1)

/-- `regex_head_atom_end`: where a pattern's first atom or class ends. -/
def regexHeadAtomEnd : List Char → Option Nat
  | [] => none
  | '[' :: '^' :: ']' :: rest => classBodyEnd rest 3
  | '[' :: '^' :: rest => classBodyEnd rest 2
  | '[' :: ']' :: rest => classBodyEnd rest 2
  | '[' :: rest => classBodyEnd rest 1
  | '\\' :: rest => (readEscape ('\\' :: rest)).map Prod.fst
  | c :: _ => if ['(', '.', '|', ')', '?', '*', '+', '\x7b'].contains c then none else some 1

/-- `fold_case_ranges`. -/
def foldCaseRanges (ranges : List CharRange) : List CharRange :=
  ranges ++ ranges.flatMap fun (lo, hi) =>
    (if max lo 0x41 ≤ min hi 0x5A then [(max lo 0x41 + 0x20, min hi 0x5A + 0x20)] else []) ++
      if max lo 0x61 ≤ min hi 0x7A then [(max lo 0x61 - 0x20, min hi 0x7A - 0x20)] else []

/-- The loop of `normalize_ranges` over sorted spans, with the span it merges into. -/
def mergeRanges : CharRange → List CharRange → List CharRange
  | last, [] => [last]
  | last, cur :: rest =>
    if cur.1 ≤ last.2 + 1 then mergeRanges (last.1, max last.2 cur.2) rest
    else last :: mergeRanges cur rest

/-- The order `normalize_ranges` sorts by. -/
def SpanLe (x y : CharRange) : Prop := x.1 < y.1 ∨ x.1 = y.1 ∧ x.2 ≤ y.2

instance : DecidableRel SpanLe := fun _ _ => inferInstanceAs (Decidable (_ ∨ _))

instance : Std.Total SpanLe := ⟨fun x y => by unfold SpanLe; omega⟩

instance : IsTrans CharRange SpanLe := ⟨fun x y z => by unfold SpanLe; omega⟩

/-- `normalize_ranges`. -/
def normalizeRanges (r : List CharRange) : List CharRange :=
  if r.length < 2 then r
  else
    match r.insertionSort SpanLe with
    | [] => []
    | first :: rest => mergeRanges first rest

/-! ## Merged coverages -/

/-- Spans in order, each behind the end of those before. -/
def Apart (r : List CharRange) : Prop := r.Pairwise fun x y => x.2 < y.1

/-- A merged span begins where one of its spans does. -/
theorem le_of_mem_mergeRanges {n : Nat} {rest : List CharRange} :
    ∀ {last z : CharRange}, n ≤ last.1 → (∀ y ∈ rest, n ≤ y.1) → z ∈ mergeRanges last rest →
      n ≤ z.1 := by
  induction rest with
  | nil =>
    intro last z hlast _ hz
    rw [List.mem_singleton.mp hz]
    exact hlast
  | cons cur rest ih =>
    intro last z hlast hrest hz
    obtain ⟨hcur, hrest⟩ := List.forall_mem_cons.mp hrest
    unfold mergeRanges at hz
    split at hz
    · have hle : n ≤ (last.1, max last.2 cur.2).1 := hlast
      exact ih hle hrest hz
    · rcases List.mem_cons.mp hz with rfl | hz
      · exact hlast
      · exact ih hcur hrest hz

/-- Merged spans leave a gap between two of them. -/
theorem gaps_mergeRanges {rest : List CharRange} :
    ∀ {last : CharRange}, (last :: rest).Pairwise (fun x y => x.1 ≤ y.1) →
      (mergeRanges last rest).Pairwise fun x y => x.2 + 1 < y.1 := by
  induction rest with
  | nil => exact fun _ => List.pairwise_singleton _ _
  | cons cur rest ih =>
    intro last hsorted
    obtain ⟨hlast, hrest⟩ := List.pairwise_cons.mp hsorted
    obtain ⟨hcur, hrest'⟩ := List.pairwise_cons.mp hrest
    unfold mergeRanges
    split
    · refine ih (List.pairwise_cons.mpr ⟨fun y hy => ?_, hrest'⟩)
      exact hlast y (List.mem_cons_of_mem _ hy)
    · next hgap =>
      refine List.pairwise_cons.mpr ⟨fun z hz => ?_, ih hrest⟩
      have := le_of_mem_mergeRanges (Nat.le_refl _) hcur hz
      omega

theorem pairwise_sorted {r sorted : List CharRange} (h : r.insertionSort SpanLe = sorted) :
    sorted.Pairwise fun x y => x.1 ≤ y.1 := by
  refine List.Pairwise.imp ?_ (h ▸ List.pairwise_insertionSort _ r)
  intro x y hxy
  unfold SpanLe at hxy
  omega

theorem gaps_normalizeRanges (r : List CharRange) :
    (normalizeRanges r).Pairwise fun x y => x.2 + 1 < y.1 := by
  unfold normalizeRanges
  split
  · next hlen =>
    match r, hlen with
    | [], _ => exact .nil
    | [x], _ => exact List.pairwise_singleton _ _
  · split
    · exact .nil
    · next first rest hsort => exact gaps_mergeRanges (pairwise_sorted hsort)

/-- **Normalised spans lie apart.** -/
theorem apart_normalizeRanges (r : List CharRange) : Apart (normalizeRanges r) :=
  (gaps_normalizeRanges r).imp fun h => by omega

/-- The sweep passes a span only when nothing behind can meet it. -/
theorem overlapSweep_iff {fuel : Nat} : ∀ {a b : List CharRange}, Apart a → Apart b →
    a.length + b.length ≤ fuel →
      (overlapSweep fuel a b = true ↔ ∃ x ∈ a, ∃ y ∈ b, x.1 ≤ y.2 ∧ y.1 ≤ x.2) := by
  induction fuel with
  | zero =>
    intro a b _ _ hfuel
    have ha : a = [] := List.length_eq_zero_iff.mp (by omega)
    simp [overlapSweep, ha]
  | succ fuel ih =>
    intro a b ha hb hfuel
    match a, b with
    | [], _ => simp [overlapSweep]
    | _ :: _, [] => simp [overlapSweep]
    | x :: as, y :: bs =>
      obtain ⟨hx, has⟩ := List.pairwise_cons.mp ha
      obtain ⟨hy, hbs⟩ := List.pairwise_cons.mp hb
      simp only [List.length_cons] at hfuel
      unfold overlapSweep
      by_cases hmeet : x.1 ≤ y.2 ∧ y.1 ≤ x.2
      · simp [hmeet]
      · rw [if_neg (by simpa using hmeet)]
        by_cases hlt : x.2 < y.2
        · rw [if_pos hlt, ih has hb (by simp; omega)]
          refine ⟨fun ⟨x', hx', h⟩ => ⟨x', List.mem_cons_of_mem _ hx', h⟩, ?_⟩
          rintro ⟨x', hx', y', hy', h⟩
          rcases List.mem_cons.mp hx' with rfl | hx'
          · rcases List.mem_cons.mp hy' with rfl | hy'
            · exact absurd h hmeet
            · have := hy y' hy'
              omega
          · exact ⟨x', hx', y', hy', h⟩
        · rw [if_neg hlt, ih ha hbs (by simp; omega)]
          refine ⟨fun ⟨x', hx', y', hy', h⟩ => ⟨x', hx', y', List.mem_cons_of_mem _ hy', h⟩, ?_⟩
          rintro ⟨x', hx', y', hy', h⟩
          rcases List.mem_cons.mp hy' with rfl | hy'
          · rcases List.mem_cons.mp hx' with rfl | hx'
            · exact absurd h hmeet
            · have := hx x' hx'
              omega
          · exact ⟨x', hx', y', hy', h⟩

/-- **The sweep finds every pair of spans that meet.** -/
theorem charRangesOverlap_iff {a b : List CharRange} (ha : Apart a) (hb : Apart b) :
    charRangesOverlap a b = true ↔ ∃ x ∈ a, ∃ y ∈ b, x.1 ≤ y.2 ∧ y.1 ≤ x.2 :=
  overlapSweep_iff ha hb (Nat.le_refl _)

end TabnasBnf
