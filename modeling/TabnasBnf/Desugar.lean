import TabnasBnf.Ir
import TabnasBnf.Lib.Names

/-!
# Desugaring

Model of `rs/src/desugar.rs`: each `[X]`, `*X`, `1*X`, `m*nX` and `( … )` becomes a reference to
a generated helper production.

`Desugar` is the struct of that name; the functions thread it and return it beside their result.
The one `panic!` (a prose element, which prose resolution has removed by then) is the error of
the `Except`, carrying the panic's message without the thread's diagnostic prefix. `unreachable!`
and `expect` have no counterpart: the match on the kind makes them so.
-/

namespace TabnasBnf

/-- `Desugar`: the helpers minted so far, the names in use and the origin of the production being
desugared. -/
structure Desugar where
  extra : List Production
  used : List String
  origin : String
deriving Repr

namespace Desugar

/-- The name `fresh_name` tries at `i`. -/
def helperName (hint : String) (i : Nat) : String := "_gen" ++ toString i ++ ("_" ++ hint)

/-- `fresh_name`: the first of `_gen1_<hint>`, `_gen2_<hint>`, … from the number of helpers on
that is not used. -/
def freshName (d : Desugar) (hint : String) : String × Desugar :=
  let name := helperName hint (Names.freshIndex (helperName hint) d.used (d.extra.length + 1))
  (name, { d with used := d.used ++ [name] })

/-- `helper`: push a helper production and refer to it. -/
def helper (d : Desugar) (name : String) (alts : List Sequence) (repeatHelper : Bool) :
    Element × Desugar :=
  let prod := { Production.helper name alts d.origin with repeatHelper := repeatHelper }
  (.reference name, { d with extra := d.extra ++ [prod] })

/-- `repeat_loop`: push the helper `H = inner H / (empty)` of an unbounded repetition. -/
def repeatLoop (d : Desugar) (name : String) (inner : Element) (debtGuard : Option String) :
    Element × Desugar :=
  let prod := { Production.helper name [[inner, .reference name], []] d.origin with
    repeatHelper := true, repeatLoop := true, debtGuard := debtGuard }
  (.reference name, { d with extra := d.extra ++ [prod] })

/-- What a helper is named after: the element it repeats. -/
def hintOf : Element → String
  | .ref name _ _ => name
  | .term _ _ tokenName _ => tokenName.getD "term"
  | .token name _ => String.ofList (name.toList.dropWhile (· == '#'))
  | _ => "x"

/-- The loop over `max - min` nested optionals `[A [A [A ...]]]`, built bottom-up: the group
helper first, then the optional wrapping a reference to it. -/
def nestOptionals (inner : Element) : Nat → Option Element → Desugar → Option Element × Desugar
  | 0, nestedRef, d => (nestedRef, d)
  | n + 1, nestedRef, d =>
    let seq := match nestedRef with
      | some r => [inner, r]
      | none => [inner]
    let (groupName, d) := d.freshName "group"
    let (_, d) := d.helper groupName [seq] false
    let (optName, d) := d.freshName ("opt_" ++ groupName)
    let (_, d) := d.helper optName [[.reference groupName], []] true
    nestOptionals inner n (some (.reference optName)) d

/-- The sugar branches of `element`, on an element whose inner element is already desugared. The
copies `rep` makes are terminals and references, which desugaring returns as they stand. -/
def sugar (d : Desugar) (el inner : Element) : Element × Desugar :=
  let hint := hintOf inner
  match el with
  | .opt .. =>
    let (name, d) := d.freshName ("opt_" ++ hint)
    d.helper name [[inner], []] true
  | .star _ debtGuard _ =>
    let (name, d) := d.freshName ("star_" ++ hint)
    d.repeatLoop name inner debtGuard
  | .plus .. =>
    let (tailName, d) := d.freshName ("star_" ++ hint)
    let (plusName, d) := d.freshName ("plus_" ++ hint)
    let (tailRef, d) := d.repeatLoop tailName inner none
    d.helper plusName [[inner, tailRef]] false
  | .rep min none .. =>
    let (repName, d) := d.freshName ("rep_" ++ hint)
    let (tailStarName, d) := d.freshName ("star_" ++ hint)
    let (tailStarRef, d) := d.repeatLoop tailStarName inner none
    d.helper repName [List.replicate min inner ++ [tailStarRef]] false
  | .rep min (some max) .. =>
    let (repName, d) := d.freshName ("rep_" ++ hint)
    let (nestedRef, d) := nestOptionals inner (max - min) none d
    d.helper repName [List.replicate min inner ++ nestedRef.toList] false
  | _ => (el, d)

mutual
/-- `element`. -/
def element (d : Desugar) : Element → Except String (Element × Desugar)
  | .prose text _ => .error ("internal: unresolved prose terminal '<" ++ text ++ ">'")
  | .group alts _ => do
    let (innerAlts, d) ← altList d alts
    let (name, d) := d.freshName "group"
    return d.helper name innerAlts false
  | .opt e sp => do
    let (inner, d) ← element d e
    return d.sugar (.opt e sp) inner
  | .star e guard sp => do
    let (inner, d) ← element d e
    return d.sugar (.star e guard sp) inner
  | .plus e sp => do
    let (inner, d) ← element d e
    return d.sugar (.plus e sp) inner
  | .rep min max e sp => do
    let (inner, d) ← element d e
    return d.sugar (.rep min max e sp) inner
  | el => .ok (el, d)

/-- `alt`: a sequence, element by element. -/
def alt (d : Desugar) : List Element → Except String (List Element × Desugar)
  | [] => .ok ([], d)
  | el :: rest => do
    let (el, d) ← element d el
    let (rest, d) ← alt d rest
    return (el :: rest, d)

/-- The alternatives of a production or a group, in order. -/
def altList (d : Desugar) : List (List Element) → Except String (List (List Element) × Desugar)
  | [] => .ok ([], d)
  | a :: rest => do
    let (a, d) ← alt d a
    let (rest, d) ← altList d rest
    return (a :: rest, d)
end

/-- The production loop of `desugar`. Probe-dispatch, tail-repeat and repetition flags survive. -/
def productions (d : Desugar) : List Production → Except String (List Production × Desugar)
  | [] => .ok ([], d)
  | p :: rest => do
    let (alts, d) ← altList { d with origin := p.originOf } p.alts
    let out := { p.rebuilt alts with
      probeDispatch := p.probeDispatch, probeHelper := p.probeHelper, tailRepeat := p.tailRepeat,
      repeatHelper := p.repeatHelper, repeatLoop := p.repeatLoop, debtGuard := p.debtGuard }
    let (rest, d) ← productions d rest
    return (out :: rest, d)

end Desugar

/-- `desugar`. -/
def desugar (grammar : Grammar) : Except String Grammar := do
  let d : Desugar := ⟨[], grammar.names, ""⟩
  let (rewritten, d) ← d.productions grammar.productions
  return { productions := rewritten ++ d.extra }

end TabnasBnf
