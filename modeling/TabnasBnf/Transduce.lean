import TabnasBnf.WireSpec
import TabnasBnf.Lib.Search

/-!
# The transducer part

Model of `rs/src/transduce.rs`: what the value actions of each rule of an emitted spec do
(`ruleEntries`), the rules that carry a container on (`handDown`), the refusals, and the text of the
part (`transduceAlc`).

The entries stand in the order they were made; `inOrder` is the order of a `BTreeMap`.
-/

namespace TabnasBnf.Wire

/-- Two hexadecimal digits. -/
def hexByte (n : Nat) : String := String.ofList [Nat.digitChar (n / 16), Nat.digitChar (n % 16)]

/-- The characters of a string of a JSON text, as `serde_json` writes them. -/
def jsonEscape (c : Char) : String :=
  if c = '"' then "\\\"" else if c = '\\' then "\\\\"
  else if c = '\x08' then "\\b" else if c = '\x0c' then "\\f"
  else if c = '\n' then "\\n" else if c = '\r' then "\\r" else if c = '\t' then "\\t"
  else if c.toNat < 0x20 then "\\u00" ++ hexByte c.toNat
  else String.singleton c

mutual
/-- `Value`'s `Display`. -/
def Json.text : Json → String
  | .null => "null"
  | .bool b => toString b
  | .num n => toString n
  | .str s => "\"" ++ String.join (s.toList.map jsonEscape) ++ "\""
  | .arr items => "[" ++ ",".intercalate (itemTexts items) ++ "]"
  | .obj fields => "\x7b" ++ ",".intercalate (fieldTexts fields) ++ "\x7d"

/-- The texts of the items of an array. -/
def itemTexts : List Json → List String
  | [] => []
  | v :: items => v.text :: itemTexts items

/-- The texts of the fields of an object. -/
def fieldTexts : List (String × Json) → List String
  | [] => []
  | (key, v) :: fields => (Json.text (.str key) ++ ":" ++ v.text) :: fieldTexts fields
end

/-- `is_symbol`. -/
def isSymbol (name : String) : Bool :=
  match name.toList with
  | [] => false
  | first :: rest =>
    (first.isAlpha || first == '_') &&
      rest.all (fun c => c.isAlphanum || "_.$-".toList.contains c) &&
      !(["true", "false", "null"].contains name)

/-- `quoted`. -/
def quoted (text : String) : String :=
  "\"" ++ String.join (text.toList.map fun c =>
    if c = '"' || c = '\\' then "\\" ++ String.singleton c
    else if c.toNat < 0x20 then "\\u00" ++ hexByte c.toNat
    else String.singleton c) ++ "\""

/-! ## The value actions of a rule -/

/-- `Fills`. -/
inductive Fills where
  | text
  | value
deriving DecidableEq, Repr

/-- The kind of a container. -/
inductive Container where
  | object
  | array
deriving DecidableEq, Repr

/-- The kind as the part writes it. -/
def Container.word : Container → String
  | .object => "object"
  | .array => "array"

/-- The action that begins a container. -/
def Container.action : Container → String
  | .object => "@object$"
  | .array => "@array$"

/-- `Entry`. -/
structure Entry where
  container : Option Container := none
  continues : Bool := false
  member : Option String := none
  fills : Option Fills := none
deriving DecidableEq, Repr

/-- The entries of the rules. -/
abbrev Entries := List (String × Entry)

/-- `VALUE_ACTIONS`. -/
def valueActions : List String :=
  ["@object$", "@array$", "@key$", "@setval$", "@push$", "@value$", "@reset$"]

/-- The value actions of an alternate, each with its configuration. -/
def valueActs (alt : AltSpec) : List (String × Json) :=
  (alt.actions.filter valueActions.contains).map fun a =>
    (a, ((alt.k.bind (·.lookup (String.ofList (a.toList.drop 1)))).getD .null))

/-- `acts_of`. -/
def actsOf (alt : AltSpec) : List (String × Json) × String :=
  (valueActs alt, String.join ((valueActs alt).map fun act => act.1 ++ " " ++ act.2.text ++ ";"))

/-- The value actions of a side, which its alternates share. -/
def sideActs (name side : String) : List AltSpec → Except String (List (String × Json))
  | [] => .ok []
  | alt :: alts =>
    if alts.all fun alt' => (actsOf alt').2 == (actsOf alt).2 then .ok (actsOf alt).1
    else .error ("rule " ++ name ++ "'s " ++ side ++ " alternates build its value differently")

/-- A field of a configuration. -/
def cfgField (cfg : Json) (key : String) : Option Json := cfg.asObj.bind (·.lookup key)

/-- One value action. -/
def addAct (name side : String) (entry : Entry) (act : String × Json) : Except String Entry :=
  let lit := (cfgField act.2 "lit").bind Json.asStr
  if (act.1 == "@object$" || act.1 == "@array$") && side == "open" && entry.container.isNone then
    .ok { entry with
      container := some (if act.1 = "@object$" then .object else .array) }
  else if act.1 == "@key$" && side == "open" && lit.isSome && entry.member.isNone then
    .ok { entry with member := lit }
  else if (act.1 == "@setval$" || act.1 == "@push$") && side == "close" && entry.fills.isNone then
    .ok { entry with
      fills := some (match cfgField act.2 "src" with
        | some (.bool true) => .text
        | _ => .value) }
  else .error ("rule " ++ name ++ "'s " ++ side ++ " alternates use " ++ act.1 ++
    " as no transducer part reads it")

/-- One side of a rule. -/
def addSide (name : String) (rs : RuleSpec) (entry : Entry) (side : String) : Except String Entry :=
  sideActs name side (rs.alts side) >>= fun acts => acts.foldlM (addAct name side) entry

/-- What a rule's value actions do. -/
def ruleEntry (name : String) (rs : RuleSpec) : Except String Entry :=
  ["open", "close"].foldlM (addSide name rs) {}

section

variable {σ ε : Type} (spec : GrammarSpec σ ε)

/-- `rule`. -/
def GrammarSpec.ruleOf (name : String) : Option RuleSpec := (spec.rule.lookup name).join

/-- The names of the rules that stay, in byte order. -/
def ruleNames : List String :=
  ((spec.rule.filter fun e => e.2.isSome).map Prod.fst).mergeSort fun a b => decide (a ≤ b)

/-- `alts`. -/
def GrammarSpec.altsOf (name side : String) : List AltSpec :=
  ((spec.ruleOf name).map (·.alts side)).getD []

/-- A rule's entry, where its value actions do something. -/
def addEntry (entries : Entries) (name : String) : Except String Entries :=
  match spec.ruleOf name with
  | none => .ok entries
  | some rs => ruleEntry name rs >>= fun entry =>
    .ok (if entry.container.isSome || entry.member.isSome || entry.fills.isSome then
      Table.insert entries name entry else entries)

/-- What the value actions of each rule do. -/
def ruleEntries : Except String Entries := (ruleNames spec).foldlM (addEntry spec) []

/-! ## The containers that are carried on -/

/-- The rules a reference field names. -/
def named (target : Option String) : List String :=
  (target.filter fun t => !t.isEmpty).toList

/-- The rules a rule's close replaces it with. -/
def replacements (name : String) : List String :=
  (spec.altsOf name "close").flatMap fun alt => named alt.r

/-- A container is handed on to one rule; the flag says whether an entry changed. -/
def handOn (name : String) (container : Container) (st : Entries × Bool) (next : String) :
    Except String (Entries × Bool) :=
  if (spec.ruleOf next).isNone then
    .error ("rule " ++ name ++ " hands its " ++ container.word ++ " on to rule " ++ next ++
      ", which the grammar does not define")
  else
    let target := (st.1.lookup next).getD {}
    match target.container with
    | none =>
      .ok (Table.insert st.1 next { target with container := some container, continues := true },
        true)
    | some kind =>
      if kind ≠ container then
        .error ("rule " ++ name ++ " hands its " ++ container.word ++ " on to rule " ++ next ++
          ", a rule of " ++ (if kind = .object then "an object" else "an array"))
      else if !target.continues then
        .error ("rule " ++ name ++ " hands its " ++ container.word ++ " on to rule " ++ next ++
          ", which begins one of its own")
      else .ok st

/-- The container of a rule, handed on to the rules its close replaces it with. -/
def handRule (st : Entries × Bool) (name : String) : Except String (Entries × Bool) :=
  match (st.1.lookup name).bind Entry.container with
  | none => .ok st
  | some container => (replacements spec name).foldlM (handOn spec name container) st

/-- One scan of the rules. -/
def scan (entries : Entries) : Except String (Entries × Bool) :=
  (ruleNames spec).foldlM (handRule spec) (entries, false)

/-- Scans until one changes nothing, at most so many. -/
def handDown : Nat → Entries → Except String Entries
  | 0, entries => .ok entries
  | scans + 1, entries => scan spec entries >>= fun st =>
    if st.2 then handDown scans st.1 else .ok st.1

/-! ## The refusals -/

/-- The entries in byte order of their rules. -/
def inOrder (entries : Entries) : Entries := entries.mergeSort fun a b => decide (a.1 ≤ b.1)

/-- Every name can be written as a keyword. -/
def checkSymbols (entries : Entries) : Except String Unit :=
  match (inOrder entries).find? fun e => !isSymbol e.1 with
  | none => .ok ()
  | some bad => .error ("rule " ++ quoted bad.1 ++ " has no name alchemy can write as a keyword")

/-- A rule whose close the part reads is not replaced by its open alternates. -/
def checkReplaced (entries : Entries) : Except String Unit :=
  (inOrder entries).forM fun e =>
    if e.2.container.isNone && e.2.fills != some .text then .ok ()
    else if (spec.altsOf e.1 "open").any fun alt => !(named alt.r).isEmpty then
      .error ("rule " ++ e.1 ++ "'s open alternate replaces it, so its close never runs")
    else .ok ()

/-- The rules an alternate pushes or replaces its own with. -/
def targets (alt : AltSpec) : List String := named alt.p ++ named alt.r

/-- The rules a rule of the grammar pushes and is replaced with, in either phase. -/
def succOf (name : String) : Option (List String) :=
  (spec.ruleOf name).map fun rs => ["open", "close"].flatMap fun side =>
    (rs.alts side).flatMap targets

/-- `beneath`. -/
def beneath (entries : Entries) (start : String) : Option String :=
  Search.search (succOf spec) (fun name => (entries.map Prod.fst).contains name)
    (spec.rule.map Prod.fst) start

/-- The rules a rule's open alternates push. -/
def pushes (name : String) : List String :=
  (spec.altsOf name "open").flatMap fun alt => named alt.p

/-- No rule builds a value beneath a text. -/
def checkTexts (entries : Entries) : Except String Unit :=
  (inOrder entries).forM fun e =>
    if e.2.fills != some .text then .ok ()
    else (pushes spec e.1).forM fun pushed =>
      match beneath spec entries pushed with
      | none => .ok ()
      | some found =>
        .error ("rule " ++ e.1 ++ "'s member is the text of rule " ++ pushed ++
          ", beneath which rule " ++ found ++ " builds a value of its own")

/-- The entries of the part, or why there is none. -/
def partEntries : Except String Entries := do
  let entries ← ruleEntries spec
  let entries ← handDown spec ((ruleNames spec).length + 1) entries
  checkSymbols entries
  checkReplaced spec entries
  checkTexts spec entries
  return entries

/-! ## The part -/

/-- `TransducePart`. -/
inductive TransducePart where
  | part (entry source : String)
  | whole (why : String)

/-- The rule the start wrapper pushes. -/
def startRule : Option String :=
  let wrapper := (spec.options.lookup "rule").bind fun r => (cfgField r "start").bind Json.asStr
  (wrapper.filter fun w => (spec.ruleOf w).isSome).bind fun w => (pushes spec w).head?

/-- The line of an entry. -/
def entryLine (e : String × Entry) : List String :=
  let fields :=
    (e.2.container.map fun c => "(entry :container :" ++ c.word ++ ")").toList ++
    (e.2.member.map fun m => "(entry :member " ++ quoted m ++ ")").toList ++
    if e.2.fills = some .text then ["(entry :text true)"] else []
  if fields.isEmpty then []
  else ["      entry :" ++ e.1 ++ " (record " ++ " ".intercalate fields ++ ")"]

/-- The text of the part. -/
def partSource (name : String) (entries : Entries) : String :=
  "\n".intercalate ([
    "; The transducer part of the grammar " ++ name ++ ": the JSON events of the value",
    "; its @object and @array annotations build, from its rule passes, as",
    "; tabnas-bnf wrote them from the value actions those annotations attach.",
    "def " ++ name ++ "-transduce [input]",
    "  transduce-tree",
    "    record"] ++ (inOrder entries).flatMap entryLine ++ ["    input", ""])

/-- `transduce_alc`. -/
def transduceAlc (name : String) : TransducePart :=
  if !isSymbol name then
    .whole ("the name " ++ quoted name ++ " is not one alchemy can give a definition")
  else match partEntries spec with
    | .error why => .whole why
    | .ok entries =>
      match startRule spec with
      | none => .whole "the grammar has no start rule a wrapper pushes"
      | some start =>
        if ((entries.lookup start).any fun root => root.container.isSome && !root.continues) then
          .part (name ++ "-transduce") (partSource name entries)
        else
          .whole ("the start rule " ++ start ++ " has no annotation, so the value is the " ++
            "\x7brule, src, kids\x7d tree, whose src comes before its kids and holds the text " ++
            "of every node beneath it: no stream writes the root before the document has ended")

end

end TabnasBnf.Wire
