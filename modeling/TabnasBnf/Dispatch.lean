import TabnasBnf.Analysis

/-!
# Dispatch prefixes

Model of `alt_prefixes_raw` and `dispatch_prefixes` (`rs/src/analysis.rs`): the token prefixes
on which the dispatcher of a choice tells its alternatives apart.

* `maxK` is `max_k`, `contest` is the caller's `heads_contest`; no head filter is the filter that
  admits every token, no class set the empty map.
* What a reference contributes depends on the length of the path that reaches it alone, so the
  code enumerates it once for each length (`by_length`); the model asks again for each path.
* Every reference entered adds a production's name to `visited`, so the recursion of
  `altPrefixesRaw` is as deep as there are productions at most (`depth`).
* The numbered tokens and the table of `meets` hold the answers of `contest`, which is asked
  directly here. The charges only refuse, and are left out.
-/

namespace TabnasBnf

/-- `PrefixPath`. -/
structure PrefixPath where
  tokens : List String
  done : Bool
deriving DecidableEq, Repr

/-- A path the enumeration copies: truncated, or with its window full. -/
def PrefixPath.closed (maxK : Nat) (p : PrefixPath) : Bool := p.done || p.tokens.length ≥ maxK

section

variable (grammar : Grammar) (tokens : Tokens) (classSets : List (String × String))

/-- `added`: the token an element adds to a path, when it adds one. -/
def addedToken (el : Element) : Option String :=
  match el with
  | .term .. | .regex .. | .token .. => some (tokens.name el)
  | .ref name _ _ => classSets.lookup name
  | _ => none

/-- The loop body of `alt_prefixes_raw`: what an element makes of a path that can grow.
`enter` enumerates an alternative of the production a reference names. -/
def extendPath (enter : Nat → List String → (String → Bool) → Sequence → List PrefixPath)
    (maxK : Nat) (visited : List String) (headFilter : String → Bool) (el : Element)
    (p : PrefixPath) : List PrefixPath :=
  match addedToken tokens classSets el with
  | some tok =>
    if !p.tokens.isEmpty || headFilter tok then [⟨p.tokens ++ [tok], false⟩] else []
  | none =>
    match el.refName with
    | none => [⟨p.tokens, true⟩]
    | some name =>
      if visited.contains name then [⟨p.tokens, true⟩]
      else match (grammar.find name).filter fun t => !t.alts.isEmpty with
        | none => [⟨p.tokens, true⟩]
        | some found =>
          let held := p.tokens.length
          let subFilter := if held == 0 then headFilter else fun _ => true
          found.alts.flatMap fun sub =>
            (enter (maxK - held) (name :: visited) subFilter sub).map fun sp =>
              ⟨p.tokens ++ sp.tokens, sp.done⟩

/-- The loop of `alt_prefixes_raw` over the elements. Once no path can grow the walk is over. -/
def extendPaths (extend : Element → PrefixPath → List PrefixPath) (maxK : Nat) :
    Sequence → List PrefixPath → List PrefixPath
  | [], paths => paths
  | el :: rest, paths =>
    let next := paths.flatMap fun p => if p.closed maxK then [p] else extend el p
    if next.all (PrefixPath.closed maxK) then next else extendPaths extend maxK rest next

/-- `alt_prefixes_raw`. -/
def altPrefixesRaw : Nat → Nat → List String → (String → Bool) → Sequence → List PrefixPath
  | 0, _, _, _, _ => []
  | depth + 1, maxK, visited, headFilter, alt =>
    extendPaths (extendPath grammar tokens classSets (altPrefixesRaw depth) maxK visited headFilter)
      maxK alt [⟨[], false⟩]

/-- `enumerate` of `dispatch_prefixes`. -/
def enumerate (maxK : Nat) (headFilter : String → Bool) (alt : Sequence) : List PrefixPath :=
  altPrefixesRaw grammar tokens classSets (grammar.productions.length + 1) maxK [] headFilter alt

/-- `DispatchPrefixes`. -/
structure DispatchPrefixes where
  prefixes : List (List String)
  nullable : Bool
deriving DecidableEq, Repr

/-- The paths of an alternative cut at one token: none of an empty one. -/
def onePaths (alt : Sequence) : List PrefixPath :=
  if alt.isEmpty then [] else enumerate grammar tokens classSets 1 (fun _ => true) alt

/-- The distinct heads of an alternative. -/
def headsOf (alt : Sequence) : List String :=
  ((onePaths grammar tokens classSets alt).filterMap fun p =>
    match p.tokens with
    | [t] => some t
    | _ => none).eraseDups

variable (contest : String → String → Bool)

/-- Some exit path begins with a token that contests `h`; `none` where `e[0]` of an empty exit
path panics. -/
def exitContests (h : String) : List (List String) → Option Bool
  | [] => some false
  | [] :: _ => none
  | (t :: _) :: rest => if contest h t then some true else exitContests h rest

/-- Another alternative, whose heads are `others`, or an exit contests the head. -/
def headContested (others : List String) (exits : List (List String)) (h : String) : Option Bool :=
  if others.any (contest h) then some true else exitContests contest h exits

/-- The contested heads of an alternative, `others` the heads of the other ones. -/
def contestedHeads (others : List String) (exits : List (List String)) :
    List String → Option (List String)
  | [] => some []
  | h :: rest => do
    let hit ← headContested contest others exits h
    let out ← contestedHeads others exits rest
    return if hit then h :: out else out

/-- The first position where two paths do not meet, of those both have. -/
def differAt : List String → List String → Option Nat
  | a :: p, b :: q => if contest a b then (differAt p q).map (· + 1) else some 0
  | _, _ => none

/-- `depth_of`, with the depth found so far: the whole path once a rival never differs. -/
def depthOf (p : List String) : List (List String) → Nat → Nat
  | [], d => d
  | q :: rest, d =>
    match differAt contest p q with
    | none => p.length
    | some k => depthOf p rest (max d (k + 1))

/-- The prefixes of a head: the head, or the deep paths under it cut where they differ. -/
def prefixesUnder (contested : List String) (deep rivals : List (List String)) (h : String) :
    List (List String) :=
  if !contested.contains h then [[h]]
  else (deep.filter fun p => p.head? == some h).map fun p => p.take (depthOf contest p rivals 1)

/-- The prefixes whose tokens, joined with spaces, were not `seen`. -/
def distinctPrefixes (seen : List String) : List (List String) → List (List String)
  | [] => []
  | p :: rest =>
    let key := " ".intercalate p
    if seen.contains key then distinctPrefixes seen rest
    else p :: distinctPrefixes (key :: seen) rest

/-- The deep paths of an alternative: its paths of `maxK` tokens under its contested heads. -/
def deepPaths (maxK : Nat) (contested : List String) (alt : Sequence) : List (List String) :=
  if contested.isEmpty then []
  else ((enumerate grammar tokens classSets maxK (contested.contains ·) alt).map
    PrefixPath.tokens).filter (!·.isEmpty)

/-- `dispatch_prefixes`. -/
def dispatchPrefixes (maxK : Nat) (exits : List (List String)) (alts : List Sequence) :
    Option (List DispatchPrefixes) := do
  let heads := alts.map (headsOf grammar tokens classSets)
  let contested ← heads.zipIdx.mapM fun (hs, i) =>
    contestedHeads contest (heads.eraseIdx i).flatten exits hs
  let deep := (contested.zip alts).map fun (c, alt) =>
    deepPaths grammar tokens classSets maxK c alt
  return alts.zipIdx.map fun (alt, i) =>
    let rivals := (deep.eraseIdx i).flatten ++ exits
    { prefixes := distinctPrefixes []
        ((headsOf grammar tokens classSets alt).flatMap
          (prefixesUnder contest (contested.getD i []) (deep.getD i []) rivals))
      nullable := (onePaths grammar tokens classSets alt).any fun p => p.tokens.isEmpty && !p.done }

end

end TabnasBnf
