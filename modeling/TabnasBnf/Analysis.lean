import TabnasBnf.Ir

/-!
# Token tables

Model of the token tables of `rs/src/analysis.rs`, which name the token of every terminal.

* An `IndexMap` is the list of its entries in insertion order, with one entry a key.
-/

namespace TabnasBnf

/-- `Tokens`: literal key to token name, and regex key to token name. -/
structure Tokens where
  literals : List (String × String) := []
  regexTokens : List (String × String) := []
deriving Repr

/-- `Tokens::of`. -/
def Tokens.of (tokens : Tokens) : Element → Option String
  | .term literal caseSensitive _ _ => tokens.literals.lookup (termKey literal caseSensitive)
  | .regex pattern flags _ => tokens.regexTokens.lookup (regexKey pattern flags)
  | .token name _ => some name
  | _ => none

/-- `Tokens::name`. -/
def Tokens.name (tokens : Tokens) (el : Element) : String := (tokens.of el).getD ""

end TabnasBnf
