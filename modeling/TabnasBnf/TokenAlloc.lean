import TabnasBnf.Classes
import TabnasBnf.Contest
import TabnasBnf.Lib.Names
import TabnasBnf.TokenClass

/-!
# Token allocation

Model of how `rs/src/emit.rs` allocates the lexer tokens: `alloc_token_name`, `emit_literal_token`
and `emit_class_token`, with the pattern a matcher is compiled from (`anchorable`,
`js_regex_source`) and the check of its flags.

* The verdict of the regex crate on a pattern, with whether it is read in any case, is the parameter
  `build`. The charges of the budget are left out.
* `allocTokenName_fresh`: a name is new.
-/

namespace TabnasBnf

/-! ## Patterns -/

/-- The loop of `has_top_level_alternation`. -/
def topLevelAlternation : List Char → Bool → Nat → Bool
  | [], _, _ => false
  | ['\\'], _, _ => false
  | '\\' :: _ :: rest, inClass, depth => topLevelAlternation rest inClass depth
  | c :: rest, true, depth => topLevelAlternation rest (c != ']') depth
  | c :: rest, false, depth =>
    if c = '[' then topLevelAlternation rest true depth
    else if c = '(' then topLevelAlternation rest false (depth + 1)
    else if c = ')' then topLevelAlternation rest false (depth - 1)
    else if c = '|' && depth = 0 then true
    else topLevelAlternation rest false depth

/-- `anchorable`. -/
def anchorable (pattern : List Char) : List Char :=
  if topLevelAlternation pattern false 0 then ['(', '?', ':'] ++ pattern ++ [')'] else pattern

/-- A line terminator as its escape. -/
def escapeLine (c : Char) : List Char :=
  if c = '\n' then ['\\', 'n']
  else if c = '\r' then ['\\', 'r']
  else if c.toNat = 0x2028 then ['\\', 'u', '2', '0', '2', '8']
  else if c.toNat = 0x2029 then ['\\', 'u', '2', '0', '2', '9']
  else [c]

/-- The loop of `js_regex_source`. -/
def jsSource : List Char → Bool → List Char
  | [], _ => []
  | ['\\'], _ => ['\\']
  | '\\' :: next :: rest, inClass => '\\' :: escapeLine next ++ jsSource rest inClass
  | c :: rest, inClass =>
    if c = '[' then c :: jsSource rest true
    else if c = ']' then c :: jsSource rest false
    else if c = '/' && !inClass then '\\' :: '/' :: jsSource rest inClass
    else escapeLine c ++ jsSource rest inClass

/-- `js_regex_source`. -/
def jsRegexSource (pattern : List Char) : String := String.ofList (jsSource pattern false)

/-- `escape_regexp`. -/
def escapeRegexp (s : List Char) : List Char :=
  s.flatMap fun c =>
    if ['\\', '^', '$', '.', '*', '+', '?', '(', ')', '[', ']', '\x7b', '\x7d', '|'].contains c then
      ['\\', c]
    else [c]

/-- `REGEX_FLAGS`. -/
def regexFlags : List Char := ['d', 'g', 'i', 'm', 's', 'u', 'v', 'y']

/-- The loop of `canonical_regex_flags`, with the flags seen. -/
def seenFlags (flags : String) : List Char → List Char → Except String (List Char)
  | [], seen => .ok seen
  | flag :: rest, seen =>
    if !regexFlags.contains flag then
      .error ("unknown flag '" ++ String.ofList [flag] ++ "' in \"" ++ flags ++ "\"")
    else if seen.contains flag then
      .error ("duplicate flag '" ++ String.ofList [flag] ++ "' in \"" ++ flags ++ "\"")
    else seenFlags flags rest (seen ++ [flag])

section

variable (diag : String)

/-- `canonical_regex_flags`. -/
def canonicalRegexFlags (flags name : String) : Except String String :=
  let refuse (detail : String) : Except String String :=
    .error (diag ++ ": invalid regular expression flags for token " ++ name ++ ": " ++ detail)
  match seenFlags flags flags.toList [] with
  | .error detail => refuse detail
  | .ok seen =>
    if seen.contains 'u' && seen.contains 'v' then
      refuse ("flags \"" ++ flags ++ "\" set both u and v")
    else .ok (String.ofList (regexFlags.filter fun f => seen.contains f))

variable (build : String → Bool → Except String Unit)

/-- `check_regex`. -/
def checkRegex (source flags name : String) : Except String String := do
  let flags ← canonicalRegexFlags diag flags name
  match build source (hasFlag flags 'i') with
  | .ok () => .ok flags
  | .error err =>
    .error (diag ++ ": invalid regular expression for token " ++ name ++ ": " ++ err)

/-- `eager` of `emit_class_token`: the matcher of a class. -/
def eagerMatch (pattern flags name : String) : Except String MatchToken := do
  let source := jsRegexSource ('^' :: anchorable pattern.toList)
  let flags ← checkRegex diag build source flags name
  return ⟨source, flags, true⟩

end

/-! ## Names -/

/-- `trim_matches('_')`. -/
def trimUnderscores (l : List Char) : List Char :=
  ((l.dropWhile (· == '_')).reverse.dropWhile (· == '_')).reverse

/-- The characters of a token's name that come of one of the literal's. -/
def nameChars (c : Char) : List Char :=
  if c.toNat < 128 && c.isAlphanum then [c.toUpper]
  else if c.toNat > 0xFFFF then ['_', '_']
  else ['_']

/-- The name a literal's text gives it. -/
def nameCandidate (literal : String) : String :=
  let base := trimUnderscores (literal.toList.flatMap nameChars)
  if base.isEmpty then "#T" else "#" ++ String.ofList base

/-- `alloc_token_name`: the name, which the caller adds to the used ones. -/
def allocTokenName (literal : String) (used : List String) (preferred : Option String) : String :=
  let want := (preferred.filter fun p => !p.toList.any isNameSpace).map ("#" ++ ·)
  match want.filter fun want => !used.contains want && !isEngineOwnedToken want with
  | some want => want
  | none =>
    let candidate := nameCandidate literal
    if !used.contains candidate && !isEngineOwnedToken candidate then candidate
    else candidate ++ toString (Names.freshIndex (fun i => candidate ++ toString i) used 1)

theorem allocTokenName_fresh (literal : String) (used : List String) (preferred : Option String) :
    allocTokenName literal used preferred ∉ used := by
  unfold allocTokenName
  dsimp only
  split
  · next want hwant =>
    have := (Option.filter_eq_some_iff.mp hwant).2
    simp only [Bool.and_eq_true, Bool.not_eq_true', List.contains_eq_mem,
      decide_eq_false_iff_not] at this
    exact this.1
  · split
    · next hfree =>
      simp only [Bool.and_eq_true, Bool.not_eq_true', List.contains_eq_mem,
        decide_eq_false_iff_not] at hfree
      exact hfree.1
    · have hinj : Function.Injective fun i : Nat => nameCandidate literal ++ toString i :=
        fun i j h => Names.toString_injective ((String.append_right_inj _).mp h)
      exact Names.mk_freshIndex_notMem hinj 1

/-! ## Allocation -/

/-- What allocation writes. -/
structure Allocation where
  tokens : Tokens := {}
  fixedTokens : List (String × Option String) := []
  matchTokens : List (String × MatchToken) := []
  tokenSets : List (String × List String) := []
  setRanges : List (String × List CharRange) := []
  classes : ClassAnalysis
  usedNames : List String := []

section

variable (diag : String) (build : String → Bool → Except String Unit) (wordKeywords : Bool)

/-- `emit_literal_token`, with the name it is given allocated before. -/
def emitLiteralToken (literal : String) (caseSensitive : Option Bool) (tokenName : Option String)
    (s : Allocation) : Except String Allocation := do
  let name := allocTokenName literal s.usedNames tokenName
  let s := { s with
    usedNames := s.usedNames ++ [name]
    tokens := { s.tokens with
      literals := Table.insert s.tokens.literals (termKey literal caseSensitive) name } }
  let boundary := if wordKeywords && endsWithWordChar literal then ['\\', 'b'] else []
  let sensitive := isEffectivelyCaseSensitive literal caseSensitive
  if sensitive && boundary.isEmpty then
    return { s with fixedTokens := Table.insert s.fixedTokens name (some literal) }
  else do
    let source := jsRegexSource ('^' :: escapeRegexp literal.toList ++ boundary)
    let flags ← checkRegex diag build source (if sensitive then "" else "i") name
    return { s with matchTokens := Table.insert s.matchTokens name ⟨source, flags, true⟩ }

/-- The key of an atom's span. -/
def spanKey (span : CharRange) : String := toString span.1 ++ "-" ++ toString span.2

/-- The loop body of `emit_class_token` over the atoms, with the members so far. -/
def coverAtom (mine : List CharRange) (codePoints : Bool) (acc : List String × Allocation)
    (span : CharRange) : Except String (List String × Allocation) :=
  if !spanWithin mine span then .ok acc
  else
    match acc.2.classes.atomTokens.lookup (spanKey span) with
    | some atom => .ok (acc.1 ++ [atom], acc.2)
    | none => do
      let (atomPattern, unicode) := classPattern span.1 span.2 codePoints
      let atom := allocTokenName ("rxa_" ++ atomPattern) acc.2.usedNames none
      let matcher ← eagerMatch diag build atomPattern (if unicode then "u" else "") atom
      return (acc.1 ++ [atom], { acc.2 with
        usedNames := acc.2.usedNames ++ [atom]
        matchTokens := Table.insert acc.2.matchTokens atom matcher
        classes := { acc.2.classes with
          atomTokens := Table.insert acc.2.classes.atomTokens (spanKey span) atom } })

/-- `emit_class_token`. -/
def emitClassToken (pattern flags : String) (s : Allocation) : Except String Allocation := do
  let key := regexKey pattern flags
  let name := allocTokenName ("rx_" ++ pattern) s.usedNames none
  let s := { s with
    usedNames := s.usedNames ++ [name]
    tokens := { s.tokens with regexTokens := Table.insert s.tokens.regexTokens key name } }
  let own ← eagerMatch diag build pattern flags name
  if !s.classes.contested.contains key then
    return { s with matchTokens := Table.insert s.matchTokens name own }
  else do
    let mine := coverageOf s.classes.coverage key
    let (members, s) ← s.classes.atoms.foldlM (coverAtom diag build mine (!readsUnits flags)) ([], s)
    return { s with
      tokenSets := Table.insert s.tokenSets (trimHashes name) members
      setRanges := Table.insert s.setRanges name (codeUnitReach mine flags) }

/-- A token that is asked for. -/
inductive TokenCall where
  | literal (literal : String) (caseSensitive : Option Bool) (tokenName : Option String)
  | class (pattern flags : String)
deriving DecidableEq, Repr

/-- Allocate one. -/
def emitToken (s : Allocation) : TokenCall → Except String Allocation
  | .literal literal caseSensitive tokenName =>
    emitLiteralToken diag build wordKeywords literal caseSensitive tokenName s
  | .class pattern flags => emitClassToken diag build pattern flags s

/-- Allocate them in order. -/
def emitTokens (calls : List TokenCall) (s : Allocation) : Except String Allocation :=
  calls.foldlM (emitToken diag build wordKeywords) s

end

end TabnasBnf
