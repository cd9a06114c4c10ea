import TabnasBnf.Lib.Names
import TabnasBnf.Ir

/-!
# Probe dispatch

Model of `rs/src/probe.rs`, which rewrites `[X D] Y` where `X` and `Y` share a terminal into a
dispatcher over the branches `X D Y` and `Y`, and of the dispatcher's run as `emit_probe_helper`,
`emit_probe_dispatch` (`rs/src/emit.rs`) and the actions `ProbeInit`, `ProbeDecide` and
`ProbePhase` (`rs/src/spec.rs`) make it.

* `diag` is `diag_name()`. An `IndexMap` is the list of its entries, with one entry a key.
* The walk of `collect_terminal_vocab_elements` enters a production once, so it is as deep as
  there are productions at most (`enterVocab`).
* A token is the key its terminal is collected under (`vocab_key`); the end of the input is the
  token `#ZZ`. The charges only refuse, and are left out.
-/

namespace TabnasBnf

/-- `is_probeable_opt`: `X` and `D` of `[ X D ]`. -/
def isProbeableOpt : Element → Option (Sequence × Element)
  | .opt (.group [seq] _) _ =>
    if seq.length < 2 then none
    else match seq.getLast? with
      | some last => if last.isTerminal then some (seq.dropLast, last) else none
      | none => none
  | _ => none

/-- `vocab_key`. -/
def vocabKey : Element → Option String
  | .term literal caseSensitive _ _ => some (termKey literal caseSensitive)
  | .regex pattern flags _ => some (regexKey pattern flags)
  | .token name _ => some name
  | _ => none

/-- `out` and `visited` of `collect_terminal_vocab_elements`. -/
structure Vocab where
  out : List (String × Element) := []
  visited : List String := []

/-- The keys of a vocabulary. -/
def keysOf (out : List (String × Element)) : List String := out.map Prod.fst

/-- `entry(key).or_insert(el)`. -/
def insertKey (out : List (String × Element)) (key : String) (el : Element) :
    List (String × Element) :=
  if (keysOf out).contains key then out else out ++ [(key, el)]

mutual
/-- `collect_terminal_vocab_elements`; `enter` follows a reference. -/
def collectElement (enter : String → Vocab → Vocab) : Element → Vocab → Vocab
  | el@(.term ..), st | el@(.regex ..), st | el@(.token ..), st =>
    { st with out := insertKey st.out ((vocabKey el).getD "") el }
  | .ref name _ _, st => enter name st
  | .opt e _, st | .star e _ _, st | .plus e _, st | .rep _ _ e _, st => collectElement enter e st
  | .group alts _, st => collectAlts enter alts st
  | .prose .., st => st

/-- `collect_terminal_vocab_elements` on each element of a sequence. -/
def collectSeq (enter : String → Vocab → Vocab) : List Element → Vocab → Vocab
  | [], st => st
  | el :: rest, st => collectSeq enter rest (collectElement enter el st)

/-- `collect_terminal_vocab_elements` on each alternative. -/
def collectAlts (enter : String → Vocab → Vocab) : List (List Element) → Vocab → Vocab
  | [], st => st
  | alt :: rest, st => collectAlts enter rest (collectSeq enter alt st)
end

/-- The reference case of `collect_terminal_vocab_elements`. -/
def enterVocab (grammar : Grammar) : Nat → String → Vocab → Vocab
  | depth, name, st =>
    if st.visited.contains name then st
    else
      let st := { st with visited := name :: st.visited }
      match depth, grammar.find name with
      | depth + 1, some prod => collectAlts (enterVocab grammar depth) prod.alts st
      | _, _ => st

/-- `collect_seq_vocab_elements`. -/
def collectSeqVocab (grammar : Grammar) (seq : Sequence) : List (String × Element) :=
  (collectSeq (enterVocab grammar grammar.productions.length) seq {}).out

/-- The joint vocabulary: `X`'s, then what `Y` adds, less the disambiguator's. -/
def jointVocab (xVocab yVocab : List (String × Element)) (dKey : Option String) :
    List (String × Element) :=
  (yVocab.foldl (fun out (k, v) => insertKey out k v) xVocab).filter fun (k, _) => some k != dKey

/-- An alternative `before [X D] Y` that is rewritten. -/
structure ProbeSplit where
  before : Sequence
  optional : Element
  x : Sequence
  disambiguator : Element
  y : Sequence
  vocab : List (String × Element)

/-- The loop of `rewrite_probe_dispatches` over an alternative: the first `[X D]` of it that
something follows, with a terminal in common. What follows goes with it. -/
def probeSplit (grammar : Grammar) (before : Sequence) : Sequence → Option ProbeSplit
  | [] => none
  | el :: y =>
    match isProbeableOpt el with
    | none => probeSplit grammar (before ++ [el]) y
    | some (x, d) =>
      let xVocab := collectSeqVocab grammar x
      let yVocab := collectSeqVocab grammar y
      if y.isEmpty || !(keysOf xVocab).any fun k => (keysOf yVocab).contains k then
        probeSplit grammar (before ++ [el]) y
      else some ⟨before, el, x, d, y, jointVocab xVocab yVocab (vocabKey d)⟩

/-- The name `fresh_name` tries at `i`. -/
def probeName (hint : String) (i : Nat) : String := if i = 0 then hint else hint ++ toString i

/-- `fresh_name`. -/
def freshProbeName (hint : String) (used : List String) : String :=
  probeName hint (Names.freshIndex (probeName hint) used 0)

/-- What `rewrite_probe_dispatches` threads through the alternatives. -/
structure ProbeState where
  used : List String
  extra : List Production
  reports : List AmbiguityReport

section

variable (diag : String) (grammar : Grammar)

/-- The four productions an alternative is rewritten to: the probe, its branches and the
dispatcher. -/
def probeProductions (s : ProbeSplit) (origin probe withName noName dispatch : String) :
    List Production :=
  [{ Production.helper probe [] origin with probeHelper := some ⟨s.vocab.map Prod.snd⟩ },
    Production.helper withName [s.x ++ [s.disambiguator] ++ s.y] origin,
    Production.helper noName [s.y] origin,
    { Production.helper dispatch [[.reference withName], [.reference noName]] origin with
      probeDispatch := some ⟨probe, s.disambiguator, withName, noName⟩ }]

/-- `rewrite_probe_dispatches` on one alternative. -/
def rewriteProbeAlt (prod : Production) (altIdx : Nat) (alt : Sequence) (st : ProbeState) :
    Except EmitError (Sequence × Bool × ProbeState) :=
  match probeSplit grammar [] alt with
  | none => .ok (alt, false, st)
  | some s =>
    let origin := prod.originOf
    let dispatch := freshProbeName (prod.name ++ "$pd" ++ toString s.before.length) st.used
    let used := dispatch :: st.used
    let probe := freshProbeName (dispatch ++ "$probe") used
    let used := probe :: used
    let withName := freshProbeName (dispatch ++ "$with") used
    let used := withName :: used
    let noName := freshProbeName (dispatch ++ "$no") used
    if prod.value.isSome then
      .error (.at (diag ++ ": rule '" ++ origin ++
        "' has a value annotation, but its optional prefix shares vocabulary with what " ++
        "follows it, so the two are compiled into one dispatch helper — a member cannot cover " ++
        "the optional alone any more. Give the optional its own rule and annotate that, or " ++
        "make the prefix and the tail start with different tokens.") origin prod.sp)
    else .ok (s.before ++ [.reference dispatch], true,
      { used := noName :: used
        extra := st.extra ++ probeProductions s origin probe withName noName dispatch
        reports := st.reports ++ [⟨prod.name, altIdx, s.before.length,
          "optional prefix shares vocabulary with tail", true⟩] })

/-- `rewrite_probe_dispatches` on the alternatives from index `altIdx` on. -/
def rewriteProbeAlts (prod : Production) :
    Nat → List Sequence → ProbeState → Except EmitError (List Sequence × Bool × ProbeState)
  | _, [], st => .ok ([], false, st)
  | altIdx, alt :: rest, st => do
    let (alt, touched, st) ← rewriteProbeAlt diag grammar prod altIdx alt st
    let (rest, restTouched, st) ← rewriteProbeAlts prod (altIdx + 1) rest st
    return (alt :: rest, touched || restTouched, st)

/-- `rewrite_probe_dispatches` on the productions. -/
def rewriteProbeProductions :
    List Production → ProbeState → Except EmitError (List Production × ProbeState)
  | [], st => .ok ([], st)
  | prod :: rest, st => do
    let (alts, touched, st) ← rewriteProbeAlts diag grammar prod 0 prod.alts st
    let (rest, st) ← rewriteProbeProductions rest st
    return ((if touched then prod.rebuilt alts else prod) :: rest, st)

/-- `rewrite_probe_dispatches`. -/
def rewriteProbeDispatches : Except EmitError Grammar := do
  let (rewritten, st) ← rewriteProbeProductions diag grammar grammar.productions
    ⟨grammar.names, [], grammar.ambiguities⟩
  return { productions := rewritten ++ st.extra, ambiguities := st.reports }

end

/-! ## The dispatcher's run -/

/-- A dispatcher over an input: its phase `pd_phase`, its mark `pd_mark` and the position. -/
structure ProbeRun where
  phase : Nat
  mark : Nat
  pos : Nat
deriving DecidableEq, Repr

variable (vocab : List String) (disambiguator : String) (input : List String)

/-- `ProbeInit`: mark the position. -/
def probeInit (run : ProbeRun) : ProbeRun := { run with phase := 0, mark := run.pos }

/-- The probe's rule restarts on every token of the vocabulary, and ends on any other. -/
def probeScan (run : ProbeRun) : ProbeRun :=
  { run with pos := run.pos + ((input.drop run.pos).takeWhile vocab.contains).length }

/-- `ProbeDecide`: look at the next token, rewind, and choose the phase. -/
def probeDecide (run : ProbeRun) : ProbeRun :=
  let peek := input[run.pos]?.getD "#ZZ"
  { run with pos := run.mark, phase := if peek == disambiguator then 1 else 2 }

/-- The dispatcher from its first pass to its decision. -/
def probeRun (run : ProbeRun) : ProbeRun :=
  probeDecide disambiguator input (probeScan vocab input (probeInit run))

/-- The sequence the dispatcher commits to at the start of the input: phase 1 pushes the branch
with the optional, phase 2 the one without. -/
def committed (s : ProbeSplit) (input : List String) : Sequence :=
  let run := probeRun (keysOf s.vocab) ((vocabKey s.disambiguator).getD "") input ⟨0, 0, 0⟩
  if run.phase = 1 then s.x ++ [s.disambiguator] ++ s.y else s.y

end TabnasBnf
