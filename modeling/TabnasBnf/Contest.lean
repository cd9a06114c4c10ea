import TabnasBnf.Analysis
import TabnasBnf.Lib.Memo
import TabnasBnf.Ranges

/-!
# Contests between tokens

Model of `ContestCtx` (`rs/src/emit.rs`): which characters a token covers, whether two tokens can
claim one character (`tokensOverlap`) and whether the lexer can hand one input to two heads
(`headsContest`), with the memos these keep. Each function runs in the state it reads and writes.

* The code joins the two names of a memo's key with a NUL, which no token name holds; here the key
  is the pair.
* `str::to_lowercase` and `str::to_uppercase` are `Casing`: Lean's own map ASCII alone.
-/

namespace TabnasBnf

/-- `MatchToken`. -/
structure MatchToken where
  source : String
  flags : String
  eager : Bool
deriving DecidableEq, Repr

/-- `str::to_lowercase` and `str::to_uppercase`. -/
structure Casing where
  lower : String → String
  upper : String → String

/-- What `ContestCtx` is built of. -/
structure ContestTables where
  fixedTokens : List (String × Option String) := []
  matchTokens : List (String × MatchToken) := []
  setRanges : List (String × List CharRange) := []
  classSets : List (String × String) := []
  classMembers : List (String × List String) := []
  tokenSets : List (String × List String) := []
  literalByToken : List (String × (String × Bool)) := []
  wordKeywords : Bool := false

/-- `range_cache`. -/
abbrev RangeCache := List (String × Option (List CharRange))

/-- `overlap_cache`, beside the range cache. -/
abbrev OverlapMemo := Memo.State (String × String) RangeCache

/-- `contest_cache`, beside the other two. -/
abbrev ContestMemo := Memo.State (String × String) OverlapMemo

/-! ## Coverage -/

/-- `flags.contains(c)`. -/
def hasFlag (flags : String) (c : Char) : Bool := flags.toList.contains c

/-- A matcher's pattern without the emitter's anchor and grouping. -/
def MatchToken.pattern (re : MatchToken) : List Char :=
  let src := match re.source.toList with
    | '^' :: rest => rest
    | src => src
  match src with
  | '(' :: '?' :: ':' :: inner => if inner.getLast? = some ')' then inner.dropLast else src
  | _ => src

section

variable (t : ContestTables)

/-- What `token_ranges_of` computes for a token it has not cached. -/
def ContestTables.tokenRanges (tok : String) : Option (List CharRange) :=
  match t.setRanges.lookup tok with
  | some spanned => some (normalizeRanges spanned)
  | none =>
    let r := match t.fixedTokens.lookup tok, t.matchTokens.lookup tok with
      | some (some lit), _ => lit.toList.head?.map fun (c : Char) => codeUnitReach [(c.toNat, c.toNat)] ""
      | _, some re =>
        (patternCharRanges (String.ofList re.pattern) re.flags).map fun r =>
          codeUnitReach (if hasFlag re.flags 'i' then foldCaseRanges r else r) re.flags
      | _, none => none
    r.map normalizeRanges

/-- `token_ranges_of`. -/
def tokenRangesOf (tok : String) : StateT RangeCache Option (Option (List CharRange)) :=
  Memo.cached t.tokenRanges tok

/-- The key of a memo: the pair in order. -/
def pairKey (a b : String) : String × String := if a < b then (a, b) else (b, a)

/-! ## Overlap -/

/-- A pair `tokens_overlap` asks about; members of a class that are one token overlap at once. -/
structure OverlapPair where
  a : String
  b : String
  member : Bool

/-- The questions of `tokens_overlap`. -/
def overlapProblem : Memo.Problem OverlapPair (String × String) RangeCache where
  quick n := if n.member && n.a == n.b then some true else none
  key n := pairKey n.a n.b
  parts n :=
    match t.classMembers.lookup n.a, t.classMembers.lookup n.b with
    | none, none => none
    | ma, mb => some ((ma.getD [n.a]).flatMap fun x => (mb.getD [n.b]).map fun y => ⟨x, y, true⟩)
  leaf n := do
    let ra ← tokenRangesOf t n.a
    let rb ← tokenRangesOf t n.b
    match ra, rb with
    | some ra, some rb => return charRangesOverlap ra rb
    | _, _ => return false

/-- More steps than there are pairs of two names and the members of sets. -/
def pairFuel (sets : List (String × List String)) (a b : String) : Nat :=
  (a :: b :: sets.flatMap Prod.snd).length ^ 2 + 1

/-- `tokens_overlap`. -/
def tokensOverlap (limit : Nat) (a b : String) : StateT OverlapMemo Option Bool :=
  Memo.search (overlapProblem t) limit (pairFuel t.classMembers a b) ⟨a, b, false⟩

/-! ## Heads -/

variable (casing : Casing)

/-- `folded_prefix`. -/
def foldedPrefix (short long : String) : Bool :=
  (casing.lower short).toList.isPrefixOf (casing.lower long).toList ||
    (casing.upper short).toList.isPrefixOf (casing.upper long).toList

/-- `is_word_char`. -/
def isWordChar (c : Char) : Bool := c == '_' || c.toNat < 128 && c.isAlphanum

/-- `ends_with_word_char`. -/
def endsWithWordChar (s : String) : Bool := s.toList.getLast?.any isWordChar

/-- `is_word_literal`. -/
def isWordLiteral (lit : String) : Bool := t.wordKeywords && endsWithWordChar lit

/-- Two literals, each with whether it is case-sensitive, as `heads_contest` compares them. -/
def literalsContest (la lb : String × Bool) : Bool :=
  let (short, long) := if la.1.length ≤ lb.1.length then (la.1, lb.1) else (lb.1, la.1)
  let isPrefix :=
    if la.2 && lb.2 then short.toList.isPrefixOf long.toList else foldedPrefix casing short long
  isPrefix && !(isWordLiteral t la.1 && isWordLiteral t lb.1 &&
    long.toList[short.length]?.any isWordChar)

/-- The coverage of a case-insensitive matcher says all it folds to. -/
def foldIsKnown (tok : String) (re : MatchToken) : StateT RangeCache Option Bool :=
  if hasFlag re.flags 'i' then do
    let r ← tokenRangesOf t tok
    return r.any fun r => r.all fun s => s.2 ≤ 0x7F
  else return true

/-- The pattern is one atom or one class, alone or repeated, whose coverage is known. -/
def patternIsAtom (tok : String) (re : MatchToken) : StateT RangeCache Option Bool :=
  match regexHeadAtomEnd re.pattern with
  | none => return false
  | some last =>
    if readsUnits re.flags ∧ ['\\', 'u', '\x7b'] <:+: re.pattern.take last then return false
    else if re.pattern.drop last = [] ∨ re.pattern.drop last = ['+'] then do
      let r ← tokenRangesOf t tok
      return r.isSome
    else return false

/-- `regex_head_is_exact`. -/
def regexHeadIsExact (tok : String) : StateT RangeCache Option Bool :=
  match t.matchTokens.lookup tok with
  | none => return true
  | some re => do
    if !(← foldIsKnown t tok re) then return false
    else if (t.literalByToken.lookup tok).isSome then return true
    else patternIsAtom t tok re

/-- The characters the number matcher and the string matcher begin on. -/
def engineStart (eng : String) : Option (List CharRange) :=
  if eng = "#NR" then some [(0x2B, 0x2B), (0x2D, 0x2E), (0x30, 0x39)]
  else if eng = "#ST" then some [(0x22, 0x22), (0x27, 0x27), (0x60, 0x60)]
  else none

/-- `engine_token_meets`. -/
def engineTokenMeets (eng other : String) : StateT RangeCache Option Bool :=
  if eng = "#TX" then
    return other == "#NR" || other == "#ST" || (t.matchTokens.lookup other).isSome
  else
    match engineStart eng with
    | none => return false
    | some starts => return (← tokenRangesOf t other).any (charRangesOverlap starts)

/-- `trim_start_matches('#')`. -/
def trimHashes (s : String) : String := String.ofList (s.toList.dropWhile (· == '#'))

/-- Two heads of which one at least is no literal: by coverage, when both coverages are exact. -/
def coverageContest (limit : Nat) (a b : String) : StateT OverlapMemo Option Bool := do
  if !(← Memo.inRest (regexHeadIsExact t a)) then return true
  else if !(← Memo.inRest (regexHeadIsExact t b)) then return true
  else if ← tokensOverlap t limit a b then return true
  else if ← Memo.inRest (engineTokenMeets t a b) then return true
  else Memo.inRest (engineTokenMeets t b a)

/-- The questions of `heads_contest`. -/
def contestProblem (limit : Nat) : Memo.Problem (String × String) (String × String) OverlapMemo where
  quick n := if n.1 = n.2 ∨ n.1 = "#AA" ∨ n.2 = "#AA" then some true else none
  key n := pairKey n.1 n.2
  parts n :=
    match t.tokenSets.lookup (trimHashes n.1), t.tokenSets.lookup (trimHashes n.2) with
    | none, none => none
    | ma, mb => some ((ma.getD [n.1]).flatMap fun x => (mb.getD [n.2]).map fun y => (x, y))
  leaf n :=
    match t.literalByToken.lookup n.1, t.literalByToken.lookup n.2 with
    | some la, some lb => return literalsContest t casing la lb
    | _, _ => coverageContest t limit n.1 n.2

/-- `heads_contest`. -/
def headsContest (limit : Nat) (a b : String) : StateT ContestMemo Option Bool :=
  Memo.search (contestProblem t casing limit) limit (pairFuel t.tokenSets a b) (a, b)

/-- `literal_head_ranges_of`. -/
def literalHeadRangesOf (tok : String) : StateT RangeCache Option (Option (List CharRange)) :=
  match t.classMembers.lookup tok with
  | none => tokenRangesOf t tok
  | some members => members.foldlM (fun out m => do
      match ← tokenRangesOf t m with
      | some r => return some (out.getD [] ++ r)
      | none => return out) none

end

end TabnasBnf
