import Mathlib.Data.List.TakeWhile
import TabnasBnf.ClassTokens
import TabnasBnf.EmptyInput

/-!
# Token names

The tokens of a compiled grammar: `emit_grammar_spec` walks its terminals, the named ones first, and
allocates a token for each literal and pattern it has not seen (`Compile.allocate`). Two terminals
then get one name just when they are the same, and no name that was allocated is one of the engine's
or holds whitespace (`Compile.tokenNames`).

* A token element keeps the name it is written with, which no table of used names holds: it is told
  apart from what is allocated because the engine owns it. One that the engine does not own may be
  taken for a literal, and two patterns may have one key when their flags hold a slash
  (`Compile.tokenNames_clash`).
* `NamesKept` is the invariant of the walk; one step is `allocTerminal_kept`.
-/

namespace TabnasBnf

/-! ## The walk over the terminals -/

/-- The terminals `emit_grammar_spec` allocates tokens for: the lifted literals, and those of the
alternatives, the probe vocabularies and the separators. -/
def grammarTerminals (lifted : List Element) (grammar : Grammar) : List Element :=
  lifted ++ grammar.productions.flatMap fun p =>
    p.alts.flatten ++ ((p.probeHelper.map ProbeHelperSpec.vocabElements).getD [] ++
      (p.tailRepeat.map TailRepeatSpec.sep).getD [])

/-- A literal that carries the name of a lifted production. -/
def isNamedTerm : Element → Bool
  | .term _ _ (some _) _ => true
  | _ => false

section

variable (diag : String) (build : String → Bool → Except String Unit) (wordKeywords : Bool)

/-- The loop body of the allocation: a token for a literal or a pattern that has none. -/
def allocTerminal (s : Allocation) : Element → Except String Allocation
  | .term literal caseSensitive tokenName _ =>
    if (s.tokens.literals.lookup (termKey literal caseSensitive)).isSome then .ok s
    else emitLiteralToken diag build wordKeywords literal caseSensitive tokenName s
  | .regex pattern flags _ =>
    if (s.tokens.regexTokens.lookup (regexKey pattern flags)).isSome then .ok s
    else emitClassToken diag build pattern flags s
  | _ => .ok s

/-- The named terminals, and then all of them. -/
def allocTerminals (terminals : List Element) (s : Allocation) : Except String Allocation :=
  (terminals.filter isNamedTerm ++ terminals).foldlM (allocTerminal diag build wordKeywords) s

end

/-- Two terminals are the same: literal and effective case sensitivity, pattern and flags, or token
element. -/
def SameTerminal : Element → Element → Prop
  | .term l cs _ _, .term l' cs' _ _ =>
    l = l' ∧ isEffectivelyCaseSensitive l cs = isEffectivelyCaseSensitive l' cs'
  | .regex p f _, .regex p' f' _ => p = p' ∧ f = f'
  | .token n _, .token n' _ => n = n'
  | _, _ => False

/-- A name the engine does not own, without whitespace. -/
def ProperName (n : String) : Prop :=
  isEngineOwnedToken n = false ∧ ∀ c ∈ n.toList, isNameSpace c = false

/-! ## Names -/

/-- The characters of a name its text gives. -/
theorem isNameSpace_of_mem_nameChars {c d : Char} (h : d ∈ nameChars c) : isNameSpace d = false := by
  unfold nameChars at h
  split at h
  · next halnum =>
    simp only [Bool.and_eq_true, decide_eq_true_eq] at halnum
    have hascii : ∀ n < 128, (Char.ofNat n).isAlphanum = true →
        isNameSpace (Char.ofNat n).toUpper = false := by decide
    rw [List.mem_singleton.mp h, ← Char.ofNat_toNat c]
    exact hascii c.toNat halnum.1 (by rw [Char.ofNat_toNat]; exact halnum.2)
  · have hd : d = '_' := by
      split at h <;> simpa using h
    rw [hd]
    decide

theorem mem_of_mem_trimUnderscores {l : List Char} {c : Char} (h : c ∈ trimUnderscores l) :
    c ∈ l := by
  unfold trimUnderscores at h
  have h₁ := (List.dropWhile_sublist _).subset (List.mem_reverse.mp h)
  exact (List.dropWhile_sublist _).subset (List.mem_reverse.mp h₁)

theorem isNameSpace_nameCandidate (literal : String) :
    ∀ c ∈ (nameCandidate literal).toList, isNameSpace c = false := by
  intro c hc
  unfold nameCandidate at hc
  dsimp only at hc
  split at hc
  · obtain rfl | rfl : c = '#' ∨ c = 'T' := by simpa using show c ∈ ['#', 'T'] from hc
    · decide
    · decide
  · rw [String.toList_append, List.mem_append] at hc
    rcases hc with hc | hc
    · rw [List.mem_singleton.mp (show c ∈ ['#'] from hc)]
      decide
    · rw [String.toList_ofList] at hc
      obtain ⟨d, -, hd⟩ := List.mem_flatMap.mp (mem_of_mem_trimUnderscores hc)
      exact isNameSpace_of_mem_nameChars hd

/-- The engine numbers none of its tokens. -/
theorem isEngineOwnedToken_of_digit {name : String} {d : Char} (hmem : d ∈ name.toList)
    (hd : d.isDigit = true) : isEngineOwnedToken name = false := by
  have hbuiltin : ∀ t ∈ builtinTokens, t.1.toList.any Char.isDigit = false := by decide +kernel
  have howned : ∀ n ∈ ["#BD", "#ZZ", "#UK", "#AA", "#SP", "#LN", "#CM"],
      n.toList.any Char.isDigit = false := by decide +kernel
  have hkept : d ∈ name.toList.dropWhile (· == '#') := by
    rw [← List.takeWhile_append_dropWhile (p := (· == '#')) (l := name.toList), List.mem_append]
      at hmem
    refine hmem.resolve_left fun htaken => ?_
    have hhash := List.mem_takeWhile_imp htaken
    rw [eq_of_beq hhash] at hd
    exact absurd hd (by decide)
  unfold isEngineOwnedToken
  rw [Bool.or_eq_false_iff]
  constructor
  · rw [Option.isSome_eq_false_iff, Option.isNone_iff_eq_none]
    unfold builtinToken
    rw [Option.map_eq_none_iff, List.find?_eq_none]
    intro t ht heq
    have hletters := hbuiltin t ht
    rw [eq_of_beq heq, String.toList_ofList, List.any_eq_false] at hletters
    exact hletters d hkept hd
  · rw [List.contains_eq_mem, decide_eq_false_iff_not]
    intro hmem'
    exact List.any_eq_false.mp (howned name hmem') d hmem hd

theorem toString_digits (i : Nat) :
    (∃ d ∈ (toString i).toList, d.isDigit = true) ∧
      ∀ c ∈ (toString i).toList, isNameSpace c = false := by
  have hdigits : ∀ c ∈ (toString i).toList, c.isDigit = true := fun c hc => by
    by_contra hnot
    exact Names.notMem_toString (Bool.eq_false_iff.mpr hnot) i hc
  refine ⟨?_, fun c hc => ?_⟩
  · have hne : (toString i).toList ≠ [] := by
      rw [show (toString i).toList = Nat.toDigits 10 i from Nat.toList_repr]
      exact Nat.toDigits_ne_nil
    obtain ⟨d, hd⟩ := List.exists_mem_of_ne_nil _ hne
    exact ⟨d, hd, hdigits d hd⟩
  · have hascii : ∀ n < 58, (Char.ofNat n).isDigit = true → isNameSpace (Char.ofNat n) = false := by
      decide
    have hdigit := hdigits c hc
    have hlt : c.toNat < 58 := by
      simp only [Char.isDigit, Bool.and_eq_true, decide_eq_true_eq] at hdigit
      have := UInt32.le_iff_toNat_le.mp hdigit.2
      simp only [Char.toNat]
      have hnine : '9'.val.toNat = 57 := rfl
      omega
    rw [← Char.ofNat_toNat c] at hdigit ⊢
    exact hascii c.toNat hlt hdigit

/-- **A name that is allocated is proper.** -/
theorem properName_allocTokenName (literal : String) (used : List String)
    (preferred : Option String) : ProperName (allocTokenName literal used preferred) := by
  unfold allocTokenName
  dsimp only
  split
  · next want hwant =>
    obtain ⟨hpreferred, hfree⟩ := Option.filter_eq_some_iff.mp hwant
    obtain ⟨p, hp, rfl⟩ := Option.map_eq_some_iff.mp hpreferred
    have hspace := (Option.filter_eq_some_iff.mp hp).2
    simp only [Bool.and_eq_true, Bool.not_eq_true'] at hfree hspace
    refine ⟨hfree.2, fun c hc => ?_⟩
    rw [String.toList_append, List.mem_append] at hc
    rcases hc with hc | hc
    · rw [List.mem_singleton.mp (show c ∈ ['#'] from hc)]
      decide
    · exact Bool.eq_false_iff.mpr fun hsp => Bool.eq_false_iff.mp hspace
        (List.any_eq_true.mpr ⟨c, hc, hsp⟩)
  · split
    · next hfree =>
      simp only [Bool.and_eq_true, Bool.not_eq_true'] at hfree
      exact ⟨hfree.2, isNameSpace_nameCandidate literal⟩
    · obtain ⟨⟨d, hd, hdigit⟩, hspace⟩ := toString_digits
        (Names.freshIndex (fun i => nameCandidate literal ++ toString i) used 1)
      refine ⟨isEngineOwnedToken_of_digit (d := d) ?_ hdigit, fun c hc => ?_⟩
      · rw [String.toList_append]
        exact List.mem_append_right _ hd
      · rw [String.toList_append, List.mem_append] at hc
        exact hc.elim (isNameSpace_nameCandidate literal c) (hspace c)

/-! ## What the walk keeps -/

/-- The names a run has allocated: of literals, of patterns and of atoms. -/
def Allocation.names (s : Allocation) : List String :=
  s.tokens.literals.map Prod.snd ++ (s.tokens.regexTokens.map Prod.snd ++
    s.classes.atomTokens.map Prod.snd)

/-- The used names are those taken before the run and each of those it allocated once. -/
structure NamesKept (taken : List String) (s : Allocation) : Prop where
  perm : s.usedNames.Perm (taken ++ s.names)
  nodup : s.usedNames.Nodup
  proper : ∀ n ∈ s.names, ProperName n

/-- A terminal keeps the token it has. -/
def KeepsTokens (s s' : Allocation) : Prop :=
  ∀ el n, s.tokens.of el = some n → s'.tokens.of el = some n

variable {taken : List String} {s s' : Allocation}

theorem NamesKept.add (h : NamesKept taken s) {n : String} (hfresh : n ∉ s.usedNames)
    (hproper : ProperName n) (hused : s'.usedNames = s.usedNames ++ [n])
    (hnames : s'.names.Perm (n :: s.names)) : NamesKept taken s' where
  perm := by
    rw [hused]
    have hend : (s.usedNames ++ [n]).Perm (n :: s.usedNames) := List.perm_append_singleton _ _
    exact hend.trans
      (((h.perm.cons n).trans List.perm_middle.symm).trans (hnames.symm.append_left taken))
  nodup := by
    rw [hused, ← List.concat_eq_append]
    exact h.nodup.concat hfresh
  proper := by
    intro m hm
    rcases List.mem_cons.mp (hnames.mem_iff.mp hm) with rfl | hm
    · exact hproper
    · exact h.proper m hm

theorem NamesKept.congr (h : NamesKept taken s) (hused : s'.usedNames = s.usedNames)
    (hnames : s'.names = s.names) : NamesKept taken s' := by
  refine ⟨?_, ?_, ?_⟩
  · rw [hused, hnames]
    exact h.perm
  · rw [hused]
    exact h.nodup
  · rw [hnames]
    exact h.proper

/-- A key without a value is new, and its value follows the others. -/
theorem map_snd_insert {t : List (String × String)} {k v : String} (h : t.lookup k = none) :
    (Table.insert t k v).map Prod.snd = t.map Prod.snd ++ [v] := by
  rw [Table.insert_of_notMem, List.map_append]
  · rfl
  · intro hmem
    obtain ⟨e, he, rfl⟩ := List.mem_map.mp hmem
    have := List.lookup_eq_none_iff.mp h e he
    simp at this

section

variable {diag : String} {build : String → Bool → Except String Unit} {wordKeywords : Bool}

/-- A literal without a token is given a name of its own. -/
theorem emitLiteralToken_kept {literal : String} {caseSensitive : Option Bool}
    {tokenName : Option String} (h : NamesKept taken s)
    (hnone : s.tokens.literals.lookup (termKey literal caseSensitive) = none)
    (hrun : emitLiteralToken diag build wordKeywords literal caseSensitive tokenName s = .ok s') :
    NamesKept taken s' ∧ s'.tokens = { s.tokens with
      literals := Table.insert s.tokens.literals (termKey literal caseSensitive)
        (allocTokenName literal s.usedNames tokenName) } := by
  have hfresh := allocTokenName_fresh literal s.usedNames tokenName
  have hproper := properName_allocTokenName literal s.usedNames tokenName
  have hnames : ∀ s'' : Allocation, s''.classes = s.classes → s''.tokens = { s.tokens with
      literals := Table.insert s.tokens.literals (termKey literal caseSensitive)
        (allocTokenName literal s.usedNames tokenName) } →
      s''.names.Perm (allocTokenName literal s.usedNames tokenName :: s.names) := by
    intro s'' hclasses htokens
    unfold Allocation.names
    rw [hclasses, htokens]
    dsimp only
    rw [map_snd_insert hnone, List.append_assoc]
    exact List.perm_middle
  unfold emitLiteralToken at hrun
  dsimp only at hrun
  generalize (if (wordKeywords && endsWithWordChar literal) = true then ['\\', 'b'] else []) =
    boundary at hrun
  split at hrun
  · obtain rfl := Except.ok.inj hrun
    exact ⟨h.add hfresh hproper rfl (hnames _ rfl rfl), rfl⟩
  · obtain ⟨flags, -, hrun⟩ := bind_eq_ok hrun
    obtain rfl := Except.ok.inj hrun
    exact ⟨h.add hfresh hproper rfl (hnames _ rfl rfl), rfl⟩

/-- An atom without a token is given a name of its own. -/
theorem coverAtom_kept {mine : List CharRange} {codePoints : Bool} {span : CharRange}
    {acc acc' : List String × Allocation} (h : NamesKept taken acc.2)
    (hrun : coverAtom diag build mine codePoints acc span = .ok acc') :
    NamesKept taken acc'.2 ∧ acc'.2.tokens = acc.2.tokens := by
  unfold coverAtom at hrun
  split at hrun
  · obtain rfl := Except.ok.inj hrun
    exact ⟨h, rfl⟩
  · split at hrun
    · obtain rfl := Except.ok.inj hrun
      exact ⟨h, rfl⟩
    · next hnone =>
      dsimp only at hrun
      obtain ⟨re, -, hrun⟩ := bind_eq_ok hrun
      obtain rfl := Except.ok.inj hrun
      refine ⟨h.add (allocTokenName_fresh _ _ _) (properName_allocTokenName _ _ _) rfl ?_, rfl⟩
      unfold Allocation.names
      dsimp only
      rw [map_snd_insert hnone, ← List.append_assoc, ← List.append_assoc, ← List.append_assoc]
      exact List.perm_append_singleton _ _

theorem coverAtoms_kept {mine : List CharRange} {codePoints : Bool} :
    ∀ (spans : List CharRange) {acc acc' : List String × Allocation}, NamesKept taken acc.2 →
      spans.foldlM (coverAtom diag build mine codePoints) acc = .ok acc' →
      NamesKept taken acc'.2 ∧ acc'.2.tokens = acc.2.tokens
  | [], acc, acc', h, hrun => by
    obtain rfl := Except.ok.inj hrun
    exact ⟨h, rfl⟩
  | span :: spans, acc, acc', h, hrun => by
    rw [List.foldlM_cons] at hrun
    obtain ⟨acc₁, hstep, hrun⟩ := bind_eq_ok hrun
    obtain ⟨h₁, htokens⟩ := coverAtom_kept h hstep
    obtain ⟨h', htokens'⟩ := coverAtoms_kept spans h₁ hrun
    exact ⟨h', htokens'.trans htokens⟩

/-- A pattern without a token is given a name of its own, and so is each atom it is the first to
cover. -/
theorem emitClassToken_kept {pattern flags : String} (h : NamesKept taken s)
    (hnone : s.tokens.regexTokens.lookup (regexKey pattern flags) = none)
    (hrun : emitClassToken diag build pattern flags s = .ok s') :
    NamesKept taken s' ∧ s'.tokens = { s.tokens with
      regexTokens := Table.insert s.tokens.regexTokens (regexKey pattern flags)
        (allocTokenName ("rx_" ++ pattern) s.usedNames none) } := by
  have hfresh := allocTokenName_fresh ("rx_" ++ pattern) s.usedNames none
  have hproper := properName_allocTokenName ("rx_" ++ pattern) s.usedNames none
  unfold emitClassToken at hrun
  generalize allocTokenName ("rx_" ++ pattern) s.usedNames none = name at hfresh hproper hrun ⊢
  dsimp only at hrun
  obtain ⟨own, -, hrun⟩ := bind_eq_ok hrun
  have hnamed : NamesKept taken { s with
      usedNames := s.usedNames ++ [name]
      tokens := { s.tokens with
        regexTokens := Table.insert s.tokens.regexTokens (regexKey pattern flags) name } } := by
    refine h.add hfresh hproper rfl ?_
    unfold Allocation.names
    dsimp only
    rw [map_snd_insert hnone, List.append_assoc]
    exact (List.perm_middle.append_left _).trans List.perm_middle
  split at hrun
  · obtain rfl := Except.ok.inj hrun
    exact ⟨hnamed.congr rfl rfl, rfl⟩
  · obtain ⟨⟨members, s₂⟩, hloop, hrun⟩ := bind_eq_ok hrun
    obtain rfl := Except.ok.inj hrun
    obtain ⟨hkept, htokens⟩ := coverAtoms_kept _ hnamed hloop
    exact ⟨hkept.congr rfl rfl, htokens⟩

/-- A new key of the literals, or of the patterns, changes the token of no other. -/
theorem keepsTokens_literal {k n : String} (hnone : s.tokens.literals.lookup k = none)
    (htokens : s'.tokens = { s.tokens with literals := Table.insert s.tokens.literals k n }) :
    KeepsTokens s s' := by
  intro el m hm
  rw [htokens]
  cases el with
  | term literal caseSensitive tokenName sp =>
    rw [Tokens.of] at hm ⊢
    rw [Table.lookup_insert, if_neg]
    · exact hm
    · rintro rfl
      rw [hnone] at hm
      cases hm
  | _ => exact hm

theorem keepsTokens_regex {k n : String} (hnone : s.tokens.regexTokens.lookup k = none)
    (htokens : s'.tokens = { s.tokens with
      regexTokens := Table.insert s.tokens.regexTokens k n }) : KeepsTokens s s' := by
  intro el m hm
  rw [htokens]
  cases el with
  | regex pattern flags sp =>
    rw [Tokens.of] at hm ⊢
    rw [Table.lookup_insert, if_neg]
    · exact hm
    · rintro rfl
      rw [hnone] at hm
      cases hm
  | _ => exact hm

/-- **A step keeps the names, and gives its terminal a token.** -/
theorem allocTerminal_kept {el : Element} (h : NamesKept taken s)
    (hrun : allocTerminal diag build wordKeywords s el = .ok s') :
    NamesKept taken s' ∧ KeepsTokens s s' ∧
      (el.isTerminal = true → (s'.tokens.of el).isSome = true) := by
  have hsame : s' = s → (el.isTerminal = true → (s.tokens.of el).isSome = true) →
      NamesKept taken s' ∧ KeepsTokens s s' ∧
        (el.isTerminal = true → (s'.tokens.of el).isSome = true) := by
    rintro rfl hof
    exact ⟨h, fun _ _ hm => hm, hof⟩
  cases el with
  | term literal caseSensitive tokenName sp =>
    rw [allocTerminal] at hrun
    split at hrun
    · next hsome => exact hsame (Except.ok.inj hrun).symm fun _ => hsome
    · next hnone =>
      rw [Bool.not_eq_true, Option.isSome_eq_false_iff, Option.isNone_iff_eq_none] at hnone
      obtain ⟨hkept, htokens⟩ := emitLiteralToken_kept h hnone hrun
      refine ⟨hkept, keepsTokens_literal hnone htokens, fun _ => ?_⟩
      rw [htokens, Tokens.of, Table.lookup_insert, if_pos rfl]
      rfl
  | regex pattern flags sp =>
    rw [allocTerminal] at hrun
    split at hrun
    · next hsome => exact hsame (Except.ok.inj hrun).symm fun _ => hsome
    · next hnone =>
      rw [Bool.not_eq_true, Option.isSome_eq_false_iff, Option.isNone_iff_eq_none] at hnone
      obtain ⟨hkept, htokens⟩ := emitClassToken_kept h hnone hrun
      refine ⟨hkept, keepsTokens_regex hnone htokens, fun _ => ?_⟩
      rw [htokens, Tokens.of, Table.lookup_insert, if_pos rfl]
      rfl
  | token name sp => exact hsame (Except.ok.inj hrun).symm fun _ => rfl
  | _ => exact hsame (Except.ok.inj hrun).symm fun hterm => by cases hterm

/-- **A run keeps the names, and gives each terminal it walks a token.** -/
theorem allocTerminals_kept : ∀ (els : List Element) {s s' : Allocation}, NamesKept taken s →
    els.foldlM (allocTerminal diag build wordKeywords) s = .ok s' →
    NamesKept taken s' ∧ KeepsTokens s s' ∧
      ∀ el ∈ els, el.isTerminal = true → (s'.tokens.of el).isSome = true
  | [], s, s', h, hrun => by
    obtain rfl := Except.ok.inj hrun
    exact ⟨h, fun _ _ hm => hm, by simp⟩
  | el :: els, s, s', h, hrun => by
    rw [List.foldlM_cons] at hrun
    obtain ⟨s₁, hstep, hrun⟩ := bind_eq_ok hrun
    obtain ⟨h₁, hkeeps₁, hel⟩ := allocTerminal_kept h hstep
    obtain ⟨h', hkeeps, hels⟩ := allocTerminals_kept els h₁ hrun
    refine ⟨h', fun el' m hm => hkeeps el' m (hkeeps₁ el' m hm), ?_⟩
    rw [List.forall_mem_cons]
    refine ⟨fun hterm => ?_, hels⟩
    obtain ⟨n, hn⟩ := Option.isSome_iff_exists.mp (hel hterm)
    rw [hkeeps el n hn]
    rfl

end

/-! ## Two terminals with one name -/

theorem termKey_inj {l l' : String} {cs cs' : Option Bool} (h : termKey l cs = termKey l' cs') :
    l = l' ∧ isEffectivelyCaseSensitive l cs = isEffectivelyCaseSensitive l' cs' := by
  have hlists := congrArg String.toList h
  unfold termKey at hlists
  have hcs : "cs:".toList = ['c', 's', ':'] := rfl
  have hci : "ci:".toList = ['c', 'i', ':'] := rfl
  cases hsens : isEffectivelyCaseSensitive l cs <;>
    cases hsens' : isEffectivelyCaseSensitive l' cs' <;>
      simp [hsens, hsens', hcs, hci, String.toList_inj] at hlists ⊢ <;>
      exact hlists

/-- A pattern and its flags are read back off their key when the flags hold no slash. -/
theorem regexKey_inj {p p' f f' : String} (hf : '/' ∉ f.toList) (hf' : '/' ∉ f'.toList)
    (h : regexKey p f = regexKey p' f') : p = p' ∧ f = f' := by
  have hlists := congrArg String.toList h
  unfold regexKey at hlists
  have hslash : "/".toList = ['/'] := rfl
  simp only [String.toList_append, hslash, List.append_assoc, List.cons_append, List.nil_append,
    List.cons.injEq, true_and] at hlists
  obtain ⟨hp, hflags⟩ := Names.split_last hf hf' hlists
  exact ⟨String.toList_inj.mp hp, String.toList_inj.mp hflags⟩

/-- A terminal whose name is its own: a token the engine owns, a pattern with flags that leave its
key readable, or any literal. -/
def NamedApart : Element → Prop
  | .token name _ => isEngineOwnedToken name = true
  | .regex _ flags _ => '/' ∉ flags.toList
  | _ => True

/-- A value a table holds once has one key. -/
theorem key_of_nodup {t : List (String × String)} (hnd : (t.map Prod.snd).Nodup) {k k' v : String}
    (hk : t.lookup k = some v) (hk' : t.lookup k' = some v) : k = k' :=
  congrArg Prod.fst (List.inj_on_of_nodup_map hnd (Table.mem_of_lookup hk) (Table.mem_of_lookup hk')
    rfl)

theorem mem_values {t : List (String × String)} {k v : String} (hk : t.lookup k = some v) :
    v ∈ t.map Prod.snd :=
  List.mem_map_of_mem (Table.mem_of_lookup hk)

/-- One name is of one terminal. -/
theorem NamesKept.same (h : NamesKept taken s) {el el' : Element} (hel : NamedApart el)
    (hel' : NamedApart el') {n : String} (hn : s.tokens.of el = some n)
    (hn' : s.tokens.of el' = some n) : SameTerminal el el' := by
  have hnd : s.names.Nodup := (List.nodup_append.mp (h.perm.nodup_iff.mp h.nodup)).2.1
  unfold Allocation.names at hnd
  obtain ⟨hliterals, hrest, happart⟩ := List.nodup_append.mp hnd
  have hregex := (List.nodup_append.mp hrest).1
  have hproper : ∀ n ∈ s.names, isEngineOwnedToken n ≠ true := fun n hn => by
    rw [(h.proper n hn).1]
    exact Bool.false_ne_true
  unfold Allocation.names at hproper
  cases el with
  | term l cs tokenName sp =>
    rw [Tokens.of] at hn
    cases el' with
    | term l' cs' tokenName' sp' =>
      rw [Tokens.of] at hn'
      exact termKey_inj (key_of_nodup hliterals hn hn')
    | regex p f sp' =>
      rw [Tokens.of] at hn'
      exact absurd rfl (happart n (mem_values hn) n (List.mem_append_left _ (mem_values hn')))
    | token name sp' =>
      obtain rfl := Option.some.inj hn'
      exact absurd hel' (hproper _ (List.mem_append_left _ (mem_values hn)))
    | _ => cases hn'
  | regex p f sp =>
    rw [Tokens.of] at hn
    cases el' with
    | term l' cs' tokenName' sp' =>
      rw [Tokens.of] at hn'
      exact absurd rfl (happart n (mem_values hn') n (List.mem_append_left _ (mem_values hn)))
    | regex p' f' sp' =>
      rw [Tokens.of] at hn'
      exact regexKey_inj hel hel' (key_of_nodup hregex hn hn')
    | token name sp' =>
      obtain rfl := Option.some.inj hn'
      exact absurd hel'
        (hproper _ (List.mem_append_right _ (List.mem_append_left _ (mem_values hn))))
    | _ => cases hn'
  | token name sp =>
    obtain rfl := Option.some.inj hn
    cases el' with
    | term l' cs' tokenName' sp' =>
      rw [Tokens.of] at hn'
      exact absurd hel (hproper _ (List.mem_append_left _ (mem_values hn')))
    | regex p' f' sp' =>
      rw [Tokens.of] at hn'
      exact absurd hel
        (hproper _ (List.mem_append_right _ (List.mem_append_left _ (mem_values hn'))))
    | token name' sp' => exact (Option.some.inj hn').symm
    | _ => cases hn'
  | _ => cases hn

/-- The same terminal has the same name. -/
theorem of_eq_of_same (tokens : Tokens) {el el' : Element} (h : SameTerminal el el') :
    tokens.of el = tokens.of el' := by
  cases el <;> cases el' <;> try exact absurd h id
  · obtain ⟨rfl, hsens⟩ := h
    simp only [Tokens.of, termKey, hsens]
  · exact congrArg some h
  · obtain ⟨rfl, rfl⟩ := h
    rfl

/-! ## The names of a compile -/

namespace Compile

variable {S : Setting} {grammar : Grammar} (c : Compile S grammar)

/-- The terminals tokens are allocated for. -/
def terminals : List Element :=
  grammarTerminals (liftLiteralTokens c.resolved c.start).2 c.desugared

/-- The allocation of the tokens, after the names of the token classes. -/
def allocate (build : String → Bool → Except String Unit) (wordKeywords : Bool) :
    Except String Allocation :=
  allocTerminals S.diag build wordKeywords c.terminals (Allocation.start c.terminals
    ((classSetNames c.classNames c.desugared.productions []).map Prod.snd))

theorem mem_terminals {p : Production} (hp : p ∈ c.desugared.productions) {α : Sequence}
    (hα : α ∈ p.alts) {el : Element} (hel : el ∈ α) : el ∈ c.terminals :=
  List.mem_append_right _ (List.mem_flatMap.mpr
    ⟨p, hp, List.mem_append_left _ (List.mem_flatten.mpr ⟨α, hα, hel⟩)⟩)

theorem nodup_classSetNames (classNames : List String) :
    ∀ (prods : List Production) (used : List String),
      ((classSetNames classNames prods used).map Prod.snd).Nodup ∧
        ∀ n ∈ (classSetNames classNames prods used).map Prod.snd, n ∉ used
  | [], _ => ⟨List.nodup_nil, fun _ h => (by cases h)⟩
  | p :: rest, used => by
    unfold classSetNames
    split
    · obtain ⟨hnd, hfresh⟩ := nodup_classSetNames classNames rest
        (used ++ [allocTokenName p.name used (some p.name)])
      dsimp only
      rw [List.map_cons, List.nodup_cons, List.forall_mem_cons]
      refine ⟨⟨fun hmem => hfresh _ hmem ?_, hnd⟩, allocTokenName_fresh _ _ _, fun n hn => ?_⟩
      · exact List.mem_append_right _ (List.mem_singleton_self _)
      · exact fun hmem => hfresh n hn (List.mem_append_left _ hmem)
    · exact nodup_classSetNames classNames rest used

theorem allocate_kept {build : String → Bool → Except String Unit} {wordKeywords : Bool}
    {s : Allocation} (hrun : c.allocate build wordKeywords = .ok s) :
    NamesKept ((classSetNames c.classNames c.desugared.productions []).map Prod.snd) s ∧
      ∀ el ∈ c.terminals, el.isTerminal = true → (s.tokens.of el).isSome = true := by
  have hstart : NamesKept ((classSetNames c.classNames c.desugared.productions []).map Prod.snd)
      (Allocation.start c.terminals
        ((classSetNames c.classNames c.desugared.productions []).map Prod.snd)) := by
    refine ⟨?_, (nodup_classSetNames _ _ []).1, fun n hn => ?_⟩
    · exact List.Perm.of_eq (List.append_nil _).symm
    · cases hn
  obtain ⟨hkept, -, hall⟩ := allocTerminals_kept _ hstart hrun
  exact ⟨hkept, fun el hel => hall el (List.mem_append_right _ hel)⟩

/-- No literal and no token class has the name of a pattern: the two kinds of heads the dispatch
entries are placed by are apart. -/
theorem heads_apart {build : String → Bool → Except String Unit} {wordKeywords : Bool}
    {s : Allocation} (hrun : c.allocate build wordKeywords = .ok s) {contest : ContestCtx}
    (hsets : contest.classSets = classSetNames c.classNames c.desugared.productions [])
    (arrayHelpers : List String) (valuePlan : List (String × List Bool)) :
    ∀ f ∈ (c.emitter s.tokens contest arrayHelpers valuePlan).literalHeads,
      f ∉ (c.emitter s.tokens contest arrayHelpers valuePlan).classHeads := by
  obtain ⟨hkept, -⟩ := c.allocate_kept hrun
  have hnd := hkept.perm.nodup_iff.mp hkept.nodup
  unfold Allocation.names at hnd
  obtain ⟨-, hnames, htaken⟩ := List.nodup_append.mp hnd
  obtain ⟨-, -, hliterals⟩ := List.nodup_append.mp hnames
  intro f hf hclass
  have hregex : f ∈ s.tokens.regexTokens.map Prod.snd ++ s.classes.atomTokens.map Prod.snd :=
    List.mem_append_left _ hclass
  rcases List.mem_append.mp hf with hliteral | hset
  · exact hliterals f hliteral f hregex rfl
  · rw [hsets] at hset
    exact htaken f hset f (List.mem_append_right _ hregex) rfl

end Compile

/-- **Two terminals have one token name exactly when they are the same**, and what is allocated is
neither a name the engine owns nor holds whitespace. -/
theorem Compile.tokenNames {S : Setting} {grammar : Grammar} (c : Compile S grammar)
    {build : String → Bool → Except String Unit} {wordKeywords : Bool} {s : Allocation}
    (hrun : c.allocate build wordKeywords = .ok s) :
    (∀ el ∈ c.terminals, ∀ el' ∈ c.terminals, el.isTerminal = true → el'.isTerminal = true →
      NamedApart el → NamedApart el' →
        (s.tokens.name el = s.tokens.name el' ↔ SameTerminal el el')) ∧
    ∀ n ∈ s.names, ProperName n := by
  obtain ⟨hkept, hall⟩ := c.allocate_kept hrun
  refine ⟨fun el hel el' hel' hterm hterm' hnamed hnamed' => ?_, hkept.proper⟩
  obtain ⟨n, hn⟩ := Option.isSome_iff_exists.mp (hall el hel hterm)
  obtain ⟨n', hn'⟩ := Option.isSome_iff_exists.mp (hall el' hel' hterm')
  unfold Tokens.name
  refine ⟨fun heq => ?_, fun hsame => by rw [of_eq_of_same s.tokens hsame]⟩
  rw [hn, hn', Option.getD_some, Option.getD_some] at heq
  exact hkept.same hnamed hnamed' hn (heq ▸ hn')

/-- `S = "a b" / "a-b" / #NR`. -/
def spelled : Grammar where
  productions := [{ name := "S", alts := [[.lit "a b"], [.lit "a-b"], [.token "#NR" none]] }]

def spelledCompile : Compile plainSetting spelled := .leftAlone spelled "S" 2

def spelledTokens : Allocation :=
  (spelledCompile.allocate buildAny false).toOption.getD (Allocation.start [] [])

/-- One base, and so the second literal takes a number. -/
theorem Compile.tokenNames_spelled :
    ((∀ el ∈ spelledCompile.terminals, ∀ el' ∈ spelledCompile.terminals, el.isTerminal = true →
      el'.isTerminal = true → NamedApart el → NamedApart el' →
        (spelledTokens.tokens.name el = spelledTokens.tokens.name el' ↔ SameTerminal el el')) ∧
      ∀ n ∈ spelledTokens.names, ProperName n) ∧
    spelledTokens.names = ["#A_B", "#A_B1"] := by
  have hrun : spelledCompile.allocate buildAny false = .ok spelledTokens :=
    eq_ok_of_isOk (by decide +kernel) _
  exact ⟨spelledCompile.tokenNames hrun, by decide +kernel⟩

/-- `S = "foo" / #FOO`, with a token the engine does not own. -/
def unowned : Grammar where
  productions := [{ name := "S", alts := [[.lit "foo"], [.token "#FOO" none]] }]

/-- `S = /a\/i/ / /a/i\/`, where the second pattern's flags are `i/`. -/
def slashed : Grammar where
  productions := [{ name := "S", alts := [[.regex "a/i" "" none], [.regex "a" "i/" none]] }]

def unownedCompile : Compile plainSetting unowned := .leftAlone unowned "S" 2

def slashedCompile : Compile plainSetting slashed := .leftAlone slashed "S" 2

/-- Every compile in which two terminals have one name only when they are the same. -/
def NamesApart {S : Setting} {grammar : Grammar} (c : Compile S grammar) : Prop :=
  ∀ s, c.allocate buildAny false = .ok s → ∀ el ∈ c.terminals, ∀ el' ∈ c.terminals,
    el.isTerminal = true → el'.isTerminal = true →
      (s.tokens.name el = s.tokens.name el' ↔ SameTerminal el el')

/-- `"foo"` takes the name the other alternative has, and the two patterns have one key. -/
theorem Compile.tokenNames_clash : ¬ NamesApart unownedCompile ∧ ¬ NamesApart slashedCompile := by
  constructor
  · intro h
    have hrun : unownedCompile.allocate buildAny false =
        .ok ((unownedCompile.allocate buildAny false).toOption.getD (Allocation.start [] [])) :=
      eq_ok_of_isOk (by decide +kernel) _
    have hp : unowned.productions[0] ∈ unownedCompile.desugared.productions := List.mem_cons_self
    exact (h _ hrun (.lit "foo")
      (unownedCompile.mem_terminals hp (α := [.lit "foo"]) (by simp [unowned]) (by simp))
      (.token "#FOO" none)
      (unownedCompile.mem_terminals hp (α := [.token "#FOO" none]) (by simp [unowned]) (by simp))
      rfl rfl).mp (by decide +kernel)
  · intro h
    have hrun : slashedCompile.allocate buildAny false =
        .ok ((slashedCompile.allocate buildAny false).toOption.getD (Allocation.start [] [])) :=
      eq_ok_of_isOk (by decide +kernel) _
    have hp : slashed.productions[0] ∈ slashedCompile.desugared.productions := List.mem_cons_self
    have hsame := (h _ hrun (.regex "a/i" "" none)
      (slashedCompile.mem_terminals hp (α := [.regex "a/i" "" none]) (by simp [slashed]) (by simp))
      (.regex "a" "i/" none)
      (slashedCompile.mem_terminals hp (α := [.regex "a" "i/" none]) (by simp [slashed]) (by simp))
      rfl rfl).mp (by decide +kernel)
    exact absurd hsame.1 (by decide)

end TabnasBnf
