import TabnasBnf.Ir

/-!
# Token classes

Model of `token_class_names` (`rs/src/analysis.rs`) and of what it asks: which elements derive
the empty string (`rs/src/prose.rs`), which token names are the engine's (`rs/src/emit.rs`) and
which tokens the grammar spells (`rs/src/shared.rs`).

The regex crate's verdict on a pattern and its flags, `regex_derives_empty`, is the parameter
`regexDerivesEmpty`.
-/

namespace TabnasBnf

/-- `char::is_whitespace`: the characters with the Unicode property `White_Space`. -/
def charIsWhitespace (c : Char) : Bool :=
  (9 ≤ c.toNat && c.toNat ≤ 13) || (0x2000 ≤ c.toNat && c.toNat ≤ 0x200A) ||
    [0x20, 0x85, 0xA0, 0x1680, 0x2028, 0x2029, 0x202F, 0x205F, 0x3000].contains c.toNat

/-- `is_name_space`: whitespace by every runtime's reading. -/
def isNameSpace (c : Char) : Bool := charIsWhitespace c || c.toNat == 0xFEFF

/-- `is_engine_owned_token`. -/
def isEngineOwnedToken (name : String) : Bool :=
  (builtinToken (String.ofList (name.toList.dropWhile (· == '#')))).isSome ||
    ["#BD", "#ZZ", "#UK", "#AA", "#SP", "#LN", "#CM"].contains name

section

variable (regexDerivesEmpty : String → String → Bool)

mutual
/-- `element_derives_empty`. -/
def elementDerivesEmpty (nullable : List String) : Element → Bool
  | .opt .. | .star .. => true
  | .plus inner _ => elementDerivesEmpty nullable inner
  | .rep min _ inner _ => min == 0 || elementDerivesEmpty nullable inner
  | .group alts _ => someSequenceDerivesEmpty nullable alts
  | .ref name _ _ => nullable.contains name
  | .term literal _ _ _ => literal == ""
  | .regex pattern flags _ => regexDerivesEmpty pattern flags
  | .token name _ => name == "#ZZ" || name == "#AA"
  | .prose .. => false

/-- `sequence_derives_empty`. -/
def sequenceDerivesEmpty (nullable : List String) : List Element → Bool
  | [] => true
  | el :: rest => elementDerivesEmpty nullable el && sequenceDerivesEmpty nullable rest

/-- Some alternative derives the empty string. -/
def someSequenceDerivesEmpty (nullable : List String) : List (List Element) → Bool
  | [] => false
  | alt :: rest => sequenceDerivesEmpty nullable alt || someSequenceDerivesEmpty nullable rest
end

mutual
/-- `tokens_in` on one element, with repetitions. -/
def Element.tokens : Element → List String
  | .token name _ => [name]
  | .opt e _ | .star e _ _ | .plus e _ | .rep _ _ e _ => e.tokens
  | .group alts _ => tokensInAlts alts
  | _ => []

/-- `tokens_in`. -/
def tokensIn : List Element → List String
  | [] => []
  | el :: rest => el.tokens ++ tokensIn rest

/-- `tokens_in` over alternatives. -/
def tokensInAlts : List (List Element) → List String
  | [] => []
  | alt :: rest => tokensIn alt ++ tokensInAlts rest
end

/-- A member of a token class: one literal or engine token that consumes. -/
def isClassMember : Sequence → Bool
  | [el] => (match el with
      | .term .. | .token .. => true
      | _ => false) && !elementDerivesEmpty regexDerivesEmpty [] el
  | _ => false

/-- The loop body of `token_class_names`: whether a production is a class by itself. -/
def isTokenClass (prod : Production) : Bool :=
  !(prod.probeHelper.isSome || prod.probeDispatch.isSome || prod.tailRepeat.isSome) &&
  !(prod.value.isSome || prod.alts.length < 2) &&
  !(prod.name == "" || prod.name.toList.any isNameSpace ||
    isEngineOwnedToken ("#" ++ prod.name)) &&
  prod.alts.all (isClassMember regexDerivesEmpty)

/-- `token_class_names`: the classes no token of the grammar is spelled like. -/
def tokenClassNames (grammar : Grammar) : List String :=
  let out := (grammar.productions.filter (isTokenClass regexDerivesEmpty)).map Production.name
  let spelled := grammar.productions.flatMap fun prod => tokensInAlts prod.alts
  out.eraseDups.filter fun name => !spelled.contains ("#" ++ name)

end

end TabnasBnf
