import TabnasBnf.Lib.Names
import TabnasBnf.Ranges

/-!
# Left factoring

Model of `left_factor` (`rs/src/factor.rs`): alternatives that share a leading span the
dispatcher's lookahead cannot see past are merged, the span written once and the choice between
what follows it put off to a helper production, which is factored in its turn.

* `diag` is `diag_name()`; `lower` and `upper` are the first characters of `char::to_lowercase`
  and `char::to_uppercase`.
* The explicit stack of `seq_token_span` is the recursion of `spanElement`, `spanSeq` and
  `spanAlts`. Every rule on the way to another is a different production, so a way has as many
  rules as the grammar at most (`enterRule`); the same of `firstCharRanges`.
* `leftFactor` is the work queue, with fuel: `none` is a queue not yet empty when it is spent.
-/

namespace TabnasBnf

/-- `LOOKAHEAD_K`. -/
def lookaheadK : Nat := 4

/-! ## Structural equality -/

/-- The UTF-16 code units of a character. -/
def utf16Units (c : Char) : List Nat :=
  if c.toNat ≤ 0xFFFF then [c.toNat]
  else [0xD800 + (c.toNat - 0x10000) / 1024, 0xDC00 + (c.toNat - 0x10000) % 1024]

/-- `encode_utf16`. -/
def encodeUtf16 (s : String) : List Nat := s.toList.flatMap utf16Units

/-- `debt_key`. -/
def debtKey : Option (List (String × Int)) → String
  | none => ""
  | some debt =>
    let sorted := debt.insertionSort fun a b => encodeUtf16 a.1 ≤ encodeUtf16 b.1
    ",".intercalate (sorted.map fun (k, v) => k ++ "=" ++ toString v)

mutual
/-- `elem_equal`. -/
def elemEqual : Element → Element → Bool
  | .term l cs _ _, .term l' cs' _ _ => termKey l cs == termKey l' cs'
  | .token x _, .token y _ => x == y
  | .ref x dx _, .ref y dy _ => x == y && debtKey dx == debtKey dy
  | .regex px fx _, .regex py fy _ => px == py && fx == fy
  | .star ix gx _, .star iy gy _ => gx == gy && elemEqual ix iy
  | .opt ix _, .opt iy _ => elemEqual ix iy
  | .plus ix _, .plus iy _ => elemEqual ix iy
  | .rep mx nx ix _, .rep my ny iy _ => mx == my && nx == ny && elemEqual ix iy
  | .group ax _, .group ay _ => altsEqual ax ay
  | _, _ => false

/-- `seq_equal`. -/
def seqEqual : List Element → List Element → Bool
  | [], [] => true
  | x :: xs, y :: ys => elemEqual x y && seqEqual xs ys
  | _, _ => false

/-- `seq_equal` of the alternatives of two groups, pairwise. -/
def altsEqual : List (List Element) → List (List Element) → Bool
  | [], [] => true
  | x :: xs, y :: ys => seqEqual x y && altsEqual xs ys
  | _, _ => false
end

/-! ## Token spans -/

/-- `usize::checked_mul` of a repetition's count and what its element spans. -/
def checkedMul (times n : Nat) : Option Nat := if times * n < 2 ^ 64 then some (times * n) else none

mutual
/-- The span of an element in `room`; `none` is unbounded or unknown. `enter` spans a rule. -/
def spanElement (enter : String → Nat → Option Nat) (room : Nat) : Element → Option Nat
  | .term .. | .regex .. | .token .. => some 1
  | .prose .. | .star .. | .plus .. => none
  | .opt inner _ => spanElement enter room inner
  | .rep _ none _ _ => none
  | .rep _ (some 0) _ _ => some 0
  | .rep _ (some (times + 1)) inner _ =>
    (spanElement enter (room / (times + 1)) inner).bind (checkedMul (times + 1))
  | .group alts _ => spanAlts enter room alts 0
  | .ref name _ _ => enter name room

/-- A sequence being summed: what the elements before span, and the room it has. -/
def spanSeq (enter : String → Nat → Option Nat) (room : Nat) : List Element → Nat → Option Nat
  | [], total => if total > room then none else some total
  | el :: rest, total =>
    if total > room then none
    else match spanElement enter (room - total) el with
      | none => none
      | some n => spanSeq enter room rest (total + n)

/-- The most any alternative spans. -/
def spanAlts (enter : String → Nat → Option Nat) (room : Nat) :
    List (List Element) → Nat → Option Nat
  | [], most => some most
  | alt :: rest, most =>
    match spanSeq enter room alt 0 with
    | none => none
    | some n => spanAlts enter room rest (max most n)
end

/-- The span of a rule, with the rules on the way to it. -/
def enterRule (grammar : Grammar) : Nat → List String → String → Nat → Option Nat
  | 0, _, _, _ => none
  | depth + 1, onWay, name, room =>
    if onWay.contains name then none
    else match grammar.find name with
      | none => none
      | some target =>
        if target.alts.isEmpty then none
        else spanAlts (enterRule grammar depth (name :: onWay)) room target.alts 0

/-- `seq_token_span`. -/
def seqTokenSpan (grammar : Grammar) (seq : Sequence) : Option Nat :=
  spanSeq (enterRule grammar (grammar.productions.length + 1) []) lookaheadK seq 0

/-! ## First characters -/

section

variable (lower upper : Char → Char)

mutual
/-- The element cases of `first_char_ranges_of_element`; `enter` covers a rule. -/
def firstRanges (enter : String → Option (List CharRange)) : Element → Option (List CharRange)
  | .term literal caseSensitive _ _ =>
    match literal.toList with
    | [] => none
    | c :: _ =>
      if !isEffectivelyCaseSensitive literal caseSensitive then
        let lo := (lower c).toNat
        let up := (upper c).toNat
        some (codeUnitReach (if lo = up then [(c.toNat, c.toNat)] else [(lo, lo), (up, up)]) "")
      else some (codeUnitReach [(c.toNat, c.toNat)] "")
  | .regex pattern flags _ => (patternCharRanges pattern flags).map (codeUnitReach · flags)
  | .ref name _ _ => enter name
  | .group alts _ => firstRangesAlts enter alts
  | .plus inner _ => firstRanges enter inner
  | .rep min _ inner _ => if min > 0 then firstRanges enter inner else none
  | .opt .. | .star .. | .token .. | .prose .. => none

/-- The first element of every alternative. -/
def firstRangesAlts (enter : String → Option (List CharRange)) :
    List (List Element) → Option (List CharRange)
  | [] => some []
  | [] :: _ => none
  | (first :: _) :: rest => do
    let r ← firstRanges enter first
    let rs ← firstRangesAlts enter rest
    return r ++ rs
end

/-- The coverage of a rule, with the rules visited on the way to it. -/
def rangesOfRule (grammar : Grammar) : Nat → List String → String → Option (List CharRange)
  | 0, _, _ => none
  | depth + 1, visited, name =>
    if visited.contains name then none
    else match grammar.find name with
      | none => none
      | some target =>
        if target.alts.isEmpty then none
        else firstRangesAlts lower upper (rangesOfRule grammar depth (name :: visited)) target.alts

/-- `first_char_ranges_of_element`, from no rule. -/
def firstCharRangesOfElement (grammar : Grammar) (el : Element) : Option (List CharRange) :=
  firstRanges lower upper
    (rangesOfRule lower upper grammar (grammar.productions.length + 1) []) el

end

/-! ## Factoring -/

/-- The element of an alternative of one element, seen through groups of one alternative. -/
def Element.unwrapped : Element → Sequence
  | .group [[el]] _ => el.unwrapped
  | .group [alt] _ => alt
  | el => [el]

/-- `unwrap_alt`. -/
def unwrapAlt : Sequence → Sequence
  | [el] => el.unwrapped
  | alt => alt

/-- `inline_head_ref`, on a view that is not empty. -/
def inlineHeadRef (grammar : Grammar) (headEl : Element) :
    Sequence → Option (Sequence × Option String)
  | [] => none
  | first :: rest => do
    let name ← first.refName
    let target ← grammar.find name
    match target.alts with
    | [alt] =>
      if target.probeDispatch.isSome || target.probeHelper.isSome || target.tailRepeat.isSome then
        none
      else match unwrapAlt alt with
        | [] => none
        | bodyHead :: body =>
          if !elemEqual bodyHead headEl then none
          else some (bodyHead :: body ++ rest,
            if target.value.isSome then some target.name else none)
    | _ => none

/-- A member of a run: its index, its view and the annotated rule inlined to form it. -/
structure Member where
  idx : Nat
  view : Sequence
  annotated : Option String

section

variable (diag : String) (lower upper : Char → Char) (grammar : Grammar)

/-- The loop that gathers the members of a run after its head, over the indexed views after it. -/
def gatherRun (headEl : Element) : List (Nat × Sequence) → List Member
  | [] => []
  | (_, []) :: _ => []
  | (j, first :: v) :: rest =>
    if elemEqual headEl first then ⟨j, first :: v, none⟩ :: gatherRun headEl rest
    else match inlineHeadRef grammar headEl (first :: v) with
      | some (seq, annotated) => ⟨j, seq, annotated⟩ :: gatherRun headEl rest
      | none =>
        match firstCharRangesOfElement lower upper grammar headEl with
        | none => []
        | some hr =>
          match firstCharRangesOfElement lower upper grammar first with
          | none => []
          | some r => if charRangesOverlap hr r then [] else gatherRun headEl rest

/-- The loop that extends the common prefix of a run, of which `first` is the head's view. -/
def extendPrefix (first : Sequence) (run : List Sequence) : Nat → Nat → Nat
  | 0, plen => plen
  | fuel + 1, plen =>
    if run.all fun v => match first[plen]?, v[plen]? with
      | some a, some b => elemEqual a b
      | _, _ => false
    then extendPrefix first run fuel (plen + 1) else plen

/-- `prefix_beyond_lookahead`. -/
def prefixBeyondLookahead (pre : Sequence) : Bool :=
  match seqTokenSpan grammar pre with
  | none => true
  | some n => n > lookaheadK

/-- Structurally duplicate tails collapse. -/
def distinctTails : List Sequence → List Sequence → List Sequence
  | [], tails => tails
  | tail :: rest, tails =>
    if tails.any fun t => seqEqual t tail then distinctTails rest tails
    else distinctTails rest (tails ++ [tail])

/-- The empty tail last. -/
def emptyLast (tails : List Sequence) : List Sequence :=
  (tails.filter fun t => !t.isEmpty) ++ (if tails.any List.isEmpty then [[]] else [])

/-- The name `fresh_fact_name` tries at `i`. -/
def factName (base : String) (i : Nat) : String := base ++ "$fact" ++ toString i

/-- `fresh_fact_name`. -/
def freshFactName (base : String) (used : List String) : String :=
  factName base (Names.freshIndex (factName base) used 0)

/-- What a factoring step leaves: the alternatives, and the helper it queues. -/
structure Factored where
  alts : List Sequence
  helper : Option Production

/-- An alternative that is one group. -/
def isGroupAlt : Sequence → Bool
  | [.group ..] => true
  | _ => false

/-- The alternatives after the run of `members`, headed by the one at `i`, is replaced. -/
def replaceRun (alts : List Sequence) (i : Nat) (members : List Member)
    (replacement : Sequence) : List Sequence :=
  (alts.zipIdx.filter fun (_, k) => !(members.any fun m => m.idx == k)
    || k == i).map fun (alt, k) => if k = i then replacement else alt

/-- `factor_once` once the run is known: `rest` are its members after the head, whose view is
`head`. -/
def factorRun (prodName prodOrigin : String) (alts : List Sequence) (used : List String)
    (i : Nat) (head : Sequence) (rest : List Member) (plen : Nat) : Factored :=
  let members : List Member := ⟨i, head, none⟩ :: rest
  let tails := emptyLast (distinctTails (members.map fun m => m.view.drop plen) [])
  let name := freshFactName prodName used
  let helper : Option Production := match tails with
    | [_] => none
    | _ => some { Production.helper name tails prodOrigin with
        repeatHelper := tails.any List.isEmpty }
  let factored := head.take plen ++ match tails with
    | [tail] => tail
    | _ => [.reference name]
  let wrapped := members.all fun m => isGroupAlt (alts[m.idx]?.getD [])
  let replacement := if wrapped then [.group [factored] none] else factored
  ⟨replaceRun alts i members replacement, helper⟩

/-- The loop of `factor_once` over the heads of runs: `views` are the indexed views from the
head's on. -/
def factorFrom (prodName prodOrigin : String) (alts : List Sequence) (used : List String) :
    List (Nat × Sequence) → Except EmitError (Option Factored)
  | [] => .ok none
  | (_, []) :: later => factorFrom prodName prodOrigin alts used later
  | (i, headEl :: head) :: later =>
    let members := gatherRun lower upper grammar headEl later
    if members.isEmpty then factorFrom prodName prodOrigin alts used later
    else
      let run := (headEl :: head) :: members.map Member.view
      let plen := extendPrefix (headEl :: head) run (head.length + 1) 1
      if !prefixBeyondLookahead grammar ((headEl :: head).take plen) then
        factorFrom prodName prodOrigin alts used later
      else match members.findSome? Member.annotated with
        | some name => .error (.at (diag ++ ": rule '" ++ name ++
            "' builds a value, but it is the shared prefix of two alternatives of '" ++ prodName ++
            "' that have to be left-factored — factoring inlines it, which would erase the value " ++
            "it is annotated to build. Give the alternatives leading tokens that tell them apart, " ++
            "or move the annotation to a rule that is not a shared prefix.") name
            ((grammar.find name).bind Production.sp))
        | none => .ok (some
            (factorRun prodName prodOrigin alts used i (headEl :: head) members plen))

/-- `factor_once`. The head of a run is never the last alternative, which no other follows. -/
def factorOnce (prodName prodOrigin : String) (alts : List Sequence) (used : List String) :
    Except EmitError (Option Factored) :=
  factorFrom diag lower upper grammar prodName prodOrigin alts used
    (alts.zipIdx.map fun (alt, k) => (k, unwrapAlt alt))

/-- The loop of `left_factor` over one production: its alternatives, the helpers queued and the
names in use. Each step merges alternatives, so there are fewer steps than alternatives. -/
def factorAlts (prodName prodOrigin : String) :
    Nat → List Sequence → List String → Except EmitError (List Sequence × List Production ×
      List String)
  | 0, alts, used => .ok (alts, [], used)
  | fuel + 1, alts, used => do
    match ← factorOnce diag lower upper grammar prodName prodOrigin alts used with
    | none => return (alts, [], used)
    | some f =>
      let used := used ++ (f.helper.map Production.name).toList
      let (alts, queued, used) ← factorAlts prodName prodOrigin fuel f.alts used
      return (alts, f.helper.toList ++ queued, used)

/-- Probe and tail-repeat productions are left alone. -/
def isRewritten (prod : Production) : Bool :=
  prod.probeDispatch.isSome || prod.probeHelper.isSome || prod.tailRepeat.isSome

/-- The work queue of `left_factor`. -/
def factorQueue : Nat → List Production → List String → List Production →
    Option (Except EmitError (List Production))
  | _, [], _, out => some (.ok out)
  | 0, _ :: _, _, _ => none
  | fuel + 1, prod :: queue, used, out =>
    if isRewritten prod then factorQueue fuel queue used (out ++ [prod])
    else match factorAlts diag lower upper grammar prod.name prod.originOf prod.alts.length
        prod.alts used with
      | .error e => some (.error e)
      | .ok (alts, queued, used) =>
        factorQueue fuel (queue ++ queued) used (out ++ [{ prod with alts := alts }])

/-- `left_factor`. -/
def leftFactor (fuel : Nat) : Option (Except EmitError Grammar) :=
  (factorQueue diag lower upper grammar fuel grammar.productions grammar.names []).map
    fun r => r.map fun out => { productions := out }

end

end TabnasBnf
