import TabnasBnf.Lib.Table
import TabnasBnf.TokenClass

/-!
# The grammar as written

Model of the passes of `rs/src/prose.rs` that run before any structural rewrite:
`resolve_prose_terminals`, `lift_literal_tokens` and `normalize_builtin_tokens`.

* `diag` is `diag_name()`; `lowercase` is `str::to_lowercase`.
* The two passes over references, `walk` in either, are one definition, `resolveRefs`, applied to
  what each makes of a name.
* None of the three renames a production: each keeps some of the productions it is given, in order
  (`resolveProseTerminals_sublist`, `liftLiteralTokens_names`, `normalizeBuiltinTokens_names`).
-/

namespace TabnasBnf

/-! ## Prose -/

/-- `str::trim`. -/
def trimmed (text : String) : String :=
  let start := text.toList.dropWhile charIsWhitespace
  String.ofList (start.reverse.dropWhile charIsWhitespace).reverse

/-- `is_prose_name`. -/
def isProseName (name : String) : Bool :=
  name.toList.head? == some '<' && name.toList.getLast? == some '>'

/-- What stands between the brackets of a prose name. -/
def proseTarget (name : String) : String := String.ofList name.toList.dropLast.tail

/-- `REMOVE_PROSE`. -/
def removeProse : String := "remove"

/-- `REMOVE_ALL`. -/
def removeAll : String := "all"

mutual
/-- `find_stray`: the first prose element inside an element. -/
def findStray : Element → Option (String × Option SrcSpan)
  | .prose text sp => some (text, sp)
  | .opt e _ | .star e _ _ | .plus e _ | .rep _ _ e _ => findStray e
  | .group alts _ => findStrayAlts alts
  | _ => none

/-- `find_stray` over a sequence. -/
def findStraySeq : List Element → Option (String × Option SrcSpan)
  | [] => none
  | el :: rest => (findStray el).orElse fun _ => findStraySeq rest

/-- `find_stray` over alternatives. -/
def findStrayAlts : List (List Element) → Option (String × Option SrcSpan)
  | [] => none
  | alt :: rest => (findStraySeq alt).orElse fun _ => findStrayAlts rest
end

/-- The text of a production defined by prose alone. -/
def onlyProse (prod : Production) : Option String :=
  match prod.alts with
  | [[.prose text _]] => some text
  | _ => none

section

variable (diag : String) (lowercase : String → String)

/-- A refusal without a rule (`EmitError::new`). -/
def EmitError.plain (message : String) : EmitError := ⟨message, none, none⟩

/-- The refusal of a prose name that is no removal directive. -/
def proseNameRefusal (name : String) : EmitError :=
  .plain (diag ++ ": '" ++ name ++ "' is prose, and prose is only valid as a production name " ++
    "for the removal directive '<all> = <remove>'.")

/-- The loop body of `resolve_prose_terminals`, on the grammar of what was kept so far. -/
def resolveProse (grammar : Grammar) (prod : Production) : Except EmitError Grammar :=
  match onlyProse prod with
  | none =>
    if isProseName prod.name then .error (proseNameRefusal diag prod.name)
    else match findStrayAlts prod.alts with
      | some (text, sp) => .error (.at (diag ++ ": rule '" ++ prod.name ++ "' uses prose ('<" ++
          text ++ ">') inside an expression; prose may only stand alone as the whole definition " ++
          "of a built-in lexer token.") prod.name (sp.orElse fun _ => prod.sp))
      | none => .ok { grammar with productions := grammar.productions ++ [prod] }
  | some text =>
    if lowercase (trimmed text) = removeProse then
      if isProseName prod.name then
        let target := lowercase (trimmed (proseTarget prod.name))
        if target = removeAll then .ok { grammar with clearAll := true }
        else .error (.plain (diag ++ ": '<" ++ target ++ ">' is not a removal target. The only " ++
          "prose name is '<all>', as in '<all> = <remove>', which clears the whole grammar. To " ++
          "remove one rule or token, name it directly: '" ++ target ++ " = <remove>'."))
      else .ok { grammar with remove := grammar.remove ++ [prod.name] }
    else if isProseName prod.name then .error (proseNameRefusal diag prod.name)
    else if (builtinToken prod.name).isSome then .ok grammar
    else .error (.at (diag ++ ": rule '" ++ prod.name ++ "' is defined only by prose ('<" ++ text ++
      ">'), which describes a terminal but does not define one. Prose is allowed only for " ++
      "built-in lexer tokens (" ++ ", ".intercalate (builtinTokens.map Prod.fst) ++ ").")
      prod.name prod.sp)

/-- The loop of `resolve_prose_terminals`. -/
def resolveProses : Grammar → List Production → Except EmitError Grammar
  | grammar, [] => .ok grammar
  | grammar, prod :: rest => do
    let grammar ← resolveProse diag lowercase grammar prod
    resolveProses grammar rest

/-- `resolve_prose_terminals`. -/
def resolveProseTerminals (grammar : Grammar) : Except EmitError Grammar := do
  let g ← resolveProses diag lowercase { grammar with productions := [] } grammar.productions
  if g.productions.isEmpty && !g.clearAll && g.remove.isEmpty then
    .error (.plain (diag ++ ": grammar defines no rules — only informational prose terminals."))
  else .ok g

end

/-! ## References resolved to tokens -/

mutual
/-- The `walk` of a pass that puts a token for some references. -/
def Element.resolveRefs (token : String → Option Element) : Element → Element
  | .ref name debt sp => (token name).getD (.ref name debt sp)
  | .opt e sp => .opt (e.resolveRefs token) sp
  | .star e guard sp => .star (e.resolveRefs token) guard sp
  | .plus e sp => .plus (e.resolveRefs token) sp
  | .rep min max e sp => .rep min max (e.resolveRefs token) sp
  | .group alts _ => .group (resolveRefsInAlts token alts) none
  | el => el

/-- `walk` over a sequence. -/
def resolveRefsIn (token : String → Option Element) : List Element → List Element
  | [] => []
  | el :: rest => el.resolveRefs token :: resolveRefsIn token rest

/-- `walk` over alternatives. -/
def resolveRefsInAlts (token : String → Option Element) :
    List (List Element) → List (List Element)
  | [] => []
  | alt :: rest => resolveRefsIn token alt :: resolveRefsInAlts token rest
end

/-- A production with its references resolved. -/
def Production.resolveRefs (token : String → Option Element) (p : Production) : Production :=
  { p with alts := resolveRefsInAlts token p.alts }

/-! ## Lifting literals -/

/-- `is_matcher_token_name`. -/
def isMatcherTokenName (name : String) : Bool :=
  ["BD", "ZZ", "UK", "AA", "SP", "LN", "CM", "NR", "ST", "TX", "VL"].contains name

/-- A literal and whether it is case-sensitive, when known. -/
abbrev Literal := String × Option Bool

/-- The literal a production is the definition of, when it may be lifted. -/
def liftable (start : String) (prod : Production) : Option Literal :=
  if prod.name == start || isMatcherTokenName prod.name || prod.nodeKind == .core ||
      prod.value.isSome then none
  else match prod.alts with
    | [[.term literal caseSensitive _ _]] =>
      if literal = "" then none else some (literal, caseSensitive)
    | _ => none

/-- The definitions that may be lifted, by name. -/
def liftCandidates (start : String) (prods : List Production) : List (String × Literal) :=
  prods.foldl (fun lifted prod => match liftable start prod with
    | some literal => Table.insert lifted prod.name literal
    | none => lifted) []

/-- The key of a literal's token. -/
def Literal.key (l : Literal) : String := termKey l.1 l.2

/-- The definitions lifted: those that alone claim their literal. -/
def liftedLiterals (start : String) (prods : List Production) : List (String × Literal) :=
  let lifted := liftCandidates start prods
  lifted.filter fun e => (lifted.filter fun f => f.2.key == e.2.key).length ≤ 1

/-- The terminal of a lifted definition. -/
def liftedTerm (name : String) (l : Literal) : Element := .term l.1 l.2 (some name) none

/-- What a reference to a lifted definition becomes. -/
def liftedToken (lifted : List (String × Literal)) (name : String) : Option Element :=
  (lifted.lookup name).map (liftedTerm name)

/-- `lift_literal_tokens`, with the definitions it lifted. -/
def liftLiteralTokens (grammar : Grammar) (start : String) : Grammar × List Element :=
  let lifted := liftedLiterals start grammar.productions
  if lifted.isEmpty then (grammar, [])
  else
    let kept := grammar.productions.filter fun p => (lifted.lookup p.name).isNone
    ({ grammar with productions := kept.map (·.resolveRefs (liftedToken lifted)) },
      lifted.map fun e => liftedTerm e.1 e.2)

/-! ## Built-in tokens -/

/-- What a reference to a name that is not defined becomes. -/
def builtinRef (defined : List String) (name : String) : Option Element :=
  if defined.contains name then none else (builtinToken name).map fun tok => .token tok none

/-- `normalize_builtin_tokens`. -/
def normalizeBuiltinTokens (grammar : Grammar) : Grammar :=
  { grammar with
    productions := grammar.productions.map (·.resolveRefs (builtinRef grammar.names)) }

/-! ## The names -/

section

variable {diag : String} {lowercase : String → String} {grammar g : Grammar}

theorem resolveProse_kept {prod : Production}
    (h : resolveProse diag lowercase grammar prod = .ok g) :
    g.productions = grammar.productions ∨ g.productions = grammar.productions ++ [prod] := by
  unfold resolveProse at h
  dsimp only at h
  repeat' split at h
  all_goals cases h
  all_goals first | exact .inl rfl | exact .inr rfl

/-- What prose resolution keeps, it keeps as it is. -/
theorem resolveProses_sublist : ∀ (prods : List Production) {grammar g : Grammar},
    resolveProses diag lowercase grammar prods = .ok g →
      ∃ kept, kept.Sublist prods ∧ g.productions = grammar.productions ++ kept
  | [], grammar, _, h => by
    cases h
    exact ⟨[], List.nil_sublist _, (List.append_nil _).symm⟩
  | prod :: rest, _, _, h => by
    obtain ⟨g₁, hprod, h⟩ := bind_eq_ok h
    obtain ⟨kept, hkept, hg⟩ := resolveProses_sublist rest h
    rcases resolveProse_kept hprod with heq | heq
    · exact ⟨kept, hkept.cons prod, by rw [hg, heq]⟩
    · exact ⟨prod :: kept, hkept.cons_cons prod, by rw [hg, heq, List.append_assoc]; rfl⟩

theorem resolveProseTerminals_sublist (h : resolveProseTerminals diag lowercase grammar = .ok g) :
    g.productions.Sublist grammar.productions := by
  obtain ⟨g₁, hloop, h⟩ := bind_eq_ok h
  obtain ⟨kept, hkept, hg⟩ := resolveProses_sublist _ hloop
  split at h
  · cases h
  · cases h
    rw [hg]
    exact hkept

/-- A production that is not prose alone is kept. -/
theorem mem_resolveProses {p : Production} (hprose : onlyProse p = none) :
    ∀ (prods : List Production) {grammar g : Grammar},
      resolveProses diag lowercase grammar prods = .ok g →
        p ∈ grammar.productions ∨ p ∈ prods → p ∈ g.productions
  | [], _, _, h, hp => by
    cases h
    exact hp.resolve_right List.not_mem_nil
  | prod :: rest, grammar, _, h, hp => by
    obtain ⟨g₁, hprod, h⟩ := bind_eq_ok h
    refine mem_resolveProses hprose rest h ?_
    have hkept : p ∈ grammar.productions → p ∈ g₁.productions := by
      intro hp
      rcases resolveProse_kept hprod with heq | heq
      · exact heq ▸ hp
      · exact heq ▸ List.mem_append_left _ hp
    rcases hp with hp | hp
    · exact .inl (hkept hp)
    · rcases List.mem_cons.mp hp with rfl | hp
      · left
        unfold resolveProse at hprod
        rw [hprose] at hprod
        dsimp only at hprod
        repeat' split at hprod
        all_goals cases hprod
        exact List.mem_append_right _ (List.mem_singleton_self _)
      · exact .inr hp

theorem mem_resolveProseTerminals {p : Production} (hprose : onlyProse p = none)
    (h : resolveProseTerminals diag lowercase grammar = .ok g) (hp : p ∈ grammar.productions) :
    p ∈ g.productions := by
  obtain ⟨g₁, hloop, h⟩ := bind_eq_ok h
  split at h
  · cases h
  · cases h
    exact mem_resolveProses hprose _ hloop (.inr hp)

@[simp] theorem Production.resolveRefs_name (token : String → Option Element) (p : Production) :
    (p.resolveRefs token).name = p.name := rfl

theorem namesOf_map_resolveRefs (token : String → Option Element) (ps : List Production) :
    namesOf (ps.map (·.resolveRefs token)) = namesOf ps := by
  simp [namesOf]

theorem liftLiteralTokens_names (grammar : Grammar) (start : String) :
    (liftLiteralTokens grammar start).1.names.Sublist grammar.names := by
  unfold liftLiteralTokens
  dsimp only
  split
  · exact List.Sublist.refl _
  · show (namesOf (List.map _ _)).Sublist _
    rw [namesOf_map_resolveRefs]
    exact List.filter_sublist.map _

theorem normalizeBuiltinTokens_names (grammar : Grammar) :
    (normalizeBuiltinTokens grammar).names = grammar.names := namesOf_map_resolveRefs _ _

end

end TabnasBnf
