import TabnasBnf.TokenAlloc

/-!
# The tokens of character classes

After any calls of `emitToken`, in any order, a contested class has a token set that names the atoms
of its coverage, and each atom has one token, whose matcher is the atom's class.

* `AtomsSound`, `SetsSound`: the invariants of a run, over the atoms and over the sets.
* `emitTokens_sound`: every run keeps both.
* **`classes_partitioned`**: so a code point is taken by exactly one member of a class's set when the
  class covers it, and by none when it does not.
-/

namespace TabnasBnf

/-! ## The matcher of an atom -/

/-- A character `js_regex_source` copies. -/
def PlainChar (c : Char) : Prop :=
  c ∉ ['\\', '[', ']', '/', '\n', '\r'] ∧ c.toNat ≠ 0x2028 ∧ c.toNat ≠ 0x2029

instance : DecidablePred PlainChar := fun _ => inferInstanceAs (Decidable (_ ∧ _))

theorem escapeLine_of_plain {c : Char} (h : PlainChar c) : escapeLine c = [c] := by
  obtain ⟨hc, h₁, h₂⟩ := h
  simp only [List.mem_cons, List.not_mem_nil, not_or] at hc
  unfold escapeLine
  rw [if_neg hc.2.2.2.2.1, if_neg hc.2.2.2.2.2.1, if_neg h₁, if_neg h₂]

theorem jsSource_plain {c : Char} (h : PlainChar c) (rest : List Char) (inClass : Bool) :
    jsSource (c :: rest) inClass = c :: jsSource rest inClass := by
  have hc := h.1
  simp only [List.mem_cons, List.not_mem_nil, not_or] at hc
  conv => lhs; unfold jsSource
  split
  · next heq => cases heq
  · next heq => exact absurd (List.cons.inj heq).1 hc.1
  · next heq => exact absurd (List.cons.inj heq).1 hc.1
  · next heq =>
    obtain ⟨rfl, rfl⟩ := List.cons.inj heq
    rw [if_neg hc.2.1, if_neg hc.2.2.1, if_neg (by simp [hc.2.2.2.1]), escapeLine_of_plain h]
    rfl

theorem jsSource_append {l : List Char} (h : ∀ c ∈ l, PlainChar c) (rest : List Char)
    (inClass : Bool) : jsSource (l ++ rest) inClass = l ++ jsSource rest inClass := by
  induction l with
  | nil => rfl
  | cons c l ih =>
    obtain ⟨hc, hl⟩ := List.forall_mem_cons.mp h
    rw [List.cons_append, jsSource_plain hc, ih hl, List.cons_append]

theorem topLevelAlternation_plain {l : List Char} (h : ∀ c ∈ l, PlainChar c) (rest : List Char)
    (depth : Nat) :
    topLevelAlternation (l ++ rest) true depth = topLevelAlternation rest true depth := by
  induction l with
  | nil => rfl
  | cons c l ih =>
    obtain ⟨⟨hc, -⟩, hl⟩ := List.forall_mem_cons.mp h
    simp only [List.mem_cons, List.not_mem_nil, not_or] at hc
    rw [List.cons_append]
    conv => lhs; unfold topLevelAlternation
    split
    · next heq => cases heq
    · next heq => exact absurd (List.cons.inj heq).1 hc.1
    · next heq => exact absurd (List.cons.inj heq).1 hc.1
    · next heq _ =>
      obtain ⟨rfl, rfl⟩ := List.cons.inj heq
      rw [show (c != ']') = true by simpa using hc.2.2.1, ih hl]
    · next hfalse => cases hfalse

theorem plainChar_hexUpper (n : Nat) : ∀ c ∈ (hexUpper n).toList, PlainChar c := by
  have hdigit : ∀ d < 16, PlainChar (Nat.digitChar d).toUpper := by decide
  unfold hexUpper
  rw [String.toList_ofList]
  induction n using Nat.strongRecOn with
  | ind n ih =>
    intro c hc
    rw [Nat.toDigits_eq_if (by decide)] at hc
    split at hc
    · next hlt =>
      rw [List.mem_singleton.mp hc]
      exact hdigit n hlt
    · next hge =>
      rw [List.map_append, List.mem_append] at hc
      rcases hc with hc | hc
      · exact ih (n / 16) (Nat.div_lt_self (by omega) (by decide)) c hc
      · rw [List.mem_singleton.mp hc]
        exact hdigit (n % 16) (Nat.mod_lt n (by decide))

/-- A bound is an escape and plain characters. -/
theorem toList_escapeBound (unicode : Bool) (cp : Nat) :
    ∃ l, (escapeBound unicode cp).toList = '\\' :: 'u' :: l ∧ ∀ c ∈ l, PlainChar c := by
  unfold escapeBound
  cases unicode with
  | true =>
    refine ⟨'\x7b' :: (hexUpper cp).toList ++ ['\x7d'], by simp, fun c hc => ?_⟩
    rw [List.cons_append, List.mem_cons, List.mem_append, List.mem_singleton] at hc
    rcases hc with rfl | hc | rfl
    · decide
    · exact plainChar_hexUpper cp c hc
    · decide
  | false =>
    refine ⟨List.replicate (4 - (hexUpper cp).length) '0' ++ (hexUpper cp).toList, by simp,
      fun c hc => ?_⟩
    rcases List.mem_append.mp hc with hc | hc
    · rw [List.eq_of_mem_replicate hc]
      decide
    · exact plainChar_hexUpper cp c hc

/-- The class of a span is compiled as it stands. -/
theorem jsRegexSource_classPattern (lo hi : Nat) (codePoints : Bool) :
    jsRegexSource ('^' :: anchorable (classPattern lo hi codePoints).1.toList) =
      "^" ++ (classPattern lo hi codePoints).1 := by
  obtain ⟨l, hl, hplain⟩ := toList_escapeBound (classPattern lo hi codePoints).2 lo
  obtain ⟨l', hl', hplain'⟩ := toList_escapeBound (classPattern lo hi codePoints).2 hi
  have hlist : (classPattern lo hi codePoints).1.toList =
      '[' :: '\\' :: 'u' :: (l ++ '-' :: '\\' :: 'u' :: (l' ++ [']'])) := by
    show ("[" ++ escapeBound (classPattern lo hi codePoints).2 lo ++ "-" ++
      escapeBound (classPattern lo hi codePoints).2 hi ++ "]").toList = _
    simp only [String.toList_append, hl, hl']
    simp
  have hflat : topLevelAlternation (classPattern lo hi codePoints).1.toList false 0 = false := by
    rw [hlist]
    show topLevelAlternation (l ++ '-' :: '\\' :: 'u' :: (l' ++ [']'])) true 0 = false
    rw [topLevelAlternation_plain hplain]
    show topLevelAlternation (l' ++ [']']) true 0 = false
    rw [topLevelAlternation_plain hplain']
    rfl
  unfold anchorable jsRegexSource
  rw [hflat, if_neg Bool.false_ne_true, jsSource_plain (by decide)]
  refine String.toList_inj.mp ?_
  rw [String.toList_ofList, String.toList_append, hlist]
  refine congrArg ('^' :: ·) ?_
  show '[' :: '\\' :: 'u' :: jsSource (l ++ '-' :: '\\' :: 'u' :: (l' ++ [']'])) true = _
  rw [jsSource_append hplain]
  show '[' :: '\\' :: 'u' :: (l ++ '-' :: '\\' :: 'u' :: jsSource (l' ++ [']']) true) = _
  rw [jsSource_append hplain']
  rfl

/-- The matcher of an atom. -/
def atomMatcher (span : CharRange) (codePoints : Bool) : MatchToken :=
  ⟨"^" ++ (classPattern span.1 span.2 codePoints).1,
    if (classPattern span.1 span.2 codePoints).2 then "u" else "", true⟩

section

variable {diag : String} {build : String → Bool → Except String Unit}

theorem eagerMatch_classPattern {span : CharRange} {codePoints : Bool} {name : String}
    {re : MatchToken} (h : eagerMatch diag build (classPattern span.1 span.2 codePoints).1
      (if (classPattern span.1 span.2 codePoints).2 then "u" else "") name = .ok re) :
    re = atomMatcher span codePoints ∧ build re.source false = .ok () := by
  unfold eagerMatch at h
  rw [jsRegexSource_classPattern] at h
  obtain ⟨flags, hflags, h⟩ := bind_eq_ok h
  obtain rfl := Except.ok.inj h
  obtain ⟨flags', hcanonical, hbuild⟩ := bind_eq_ok hflags
  have hsame : flags' = (if (classPattern span.1 span.2 codePoints).2 then "u" else "") ∧
      hasFlag flags' 'i' = false := by
    cases hunicode : (classPattern span.1 span.2 codePoints).2 with
    | true =>
      rw [hunicode] at hcanonical
      obtain rfl : "u" = flags' := Except.ok.inj hcanonical
      exact ⟨rfl, by decide⟩
    | false =>
      rw [hunicode] at hcanonical
      obtain rfl : "" = flags' := Except.ok.inj hcanonical
      exact ⟨rfl, by decide⟩
  rw [hsame.2] at hbuild
  split at hbuild
  · next hok =>
    obtain rfl := Except.ok.inj hbuild
    exact ⟨by rw [hsame.1]; rfl, hok⟩
  · cases hbuild

end

/-! ## Names of sets -/

theorem ne_hash_of_mem_nameChars {c d : Char} (h : d ∈ nameChars c) : d ≠ '#' := by
  unfold nameChars at h
  split at h
  · next halnum =>
    simp only [Bool.and_eq_true, decide_eq_true_eq] at halnum
    have hascii : ∀ n < 128, (Char.ofNat n).isAlphanum = true → (Char.ofNat n).toUpper ≠ '#' := by
      decide
    rw [List.mem_singleton.mp h, ← Char.ofNat_toNat c]
    exact hascii c.toNat halnum.1 (by rw [Char.ofNat_toNat]; exact halnum.2)
  · split at h
    · rintro rfl
      simp at h
    · rintro rfl
      simp at h

/-- The name a text gives is one `#` and then none. -/
theorem nameCandidate_eq (literal : String) :
    ∃ c rest, nameCandidate literal = "#" ++ String.ofList (c :: rest) ∧ c ≠ '#' := by
  unfold nameCandidate
  dsimp only
  split
  · exact ⟨'T', [], rfl, by decide⟩
  · next hne =>
    cases hbase : trimUnderscores (literal.toList.flatMap nameChars) with
    | nil => rw [hbase] at hne; exact absurd rfl hne
    | cons c rest =>
      refine ⟨c, rest, rfl, ?_⟩
      have hc : c ∈ trimUnderscores (literal.toList.flatMap nameChars) := hbase ▸ List.mem_cons_self
      unfold trimUnderscores at hc
      have hc := (List.dropWhile_sublist _).mem (List.mem_reverse.mp hc)
      have hc := (List.dropWhile_sublist _).mem (List.mem_reverse.mp hc)
      obtain ⟨d, -, hd⟩ := List.mem_flatMap.mp hc
      exact ne_hash_of_mem_nameChars hd

/-- A name its text gave is read back from the key of its set. -/
theorem hash_trimHashes (literal : String) (used : List String) :
    "#" ++ trimHashes (allocTokenName literal used none) = allocTokenName literal used none := by
  have htrim : ∀ (c : Char) (rest : List Char) (tail : String), c ≠ '#' →
      "#" ++ trimHashes ("#" ++ String.ofList (c :: rest) ++ tail) =
        "#" ++ String.ofList (c :: rest) ++ tail := by
    intro c rest tail hc
    refine String.toList_inj.mp ?_
    unfold trimHashes
    simp [hc]
  obtain ⟨c, rest, hname, hc⟩ := nameCandidate_eq literal
  have hempty := htrim c rest "" hc
  unfold allocTokenName
  dsimp only [Option.filter_none, Option.map_none]
  rw [hname]
  split
  · simpa using hempty
  · exact htrim c rest _ hc

/-! ## The atoms of a run -/

section

variable {diag : String} {build : String → Bool → Except String Unit} {wordKeywords : Bool}
  {a : ClassAnalysis} {calls : List TokenCall} {s s' : Allocation}

/-- A contested class among the calls that covers a span. -/
def AskedFor (a : ClassAnalysis) (calls : List TokenCall) (span : CharRange) (codePoints : Bool) :
    Prop :=
  ∃ pattern flags, TokenCall.class pattern flags ∈ calls ∧ regexKey pattern flags ∈ a.contested ∧
    spanWithin (coverageOf a.coverage (regexKey pattern flags)) span = true ∧
      codePoints = !readsUnits flags

variable (build a calls) in
/-- The atoms minted have a token each, which no other has, and whose matcher is the atom's. -/
structure AtomsSound (s : Allocation) : Prop where
  classes : s.classes.coverage = a.coverage ∧ s.classes.contested = a.contested ∧
    s.classes.atoms = a.atoms
  used : ∀ tok ∈ s.matchTokens.map Prod.fst, tok ∈ s.usedNames
  minted : ∀ k tok, s.classes.atomTokens.lookup k = some tok → ∃ span codePoints,
    k = spanKey span ∧ AskedFor a calls span codePoints ∧
      s.matchTokens.lookup tok = some (atomMatcher span codePoints) ∧
        build (atomMatcher span codePoints).source false = .ok ()
  distinct : ∀ k k' tok, s.classes.atomTokens.lookup k = some tok →
    s.classes.atomTokens.lookup k' = some tok → k = k'

theorem mem_keys_of_lookup {α β : Type} [DecidableEq α] {t : List (α × β)} {k : α} {v : β}
    (h : t.lookup k = some v) : k ∈ t.map Prod.fst :=
  List.mem_map.mpr ⟨(k, v), Table.mem_of_lookup h, rfl⟩

theorem AtomsSound.mem_used (h : AtomsSound build a calls s) {k tok : String}
    (hk : s.classes.atomTokens.lookup k = some tok) : tok ∈ s.usedNames := by
  obtain ⟨span, codePoints, -, -, hmatch, -⟩ := h.minted k tok hk
  exact h.used tok (mem_keys_of_lookup hmatch)

/-- More names may be used. -/
theorem AtomsSound.grow (h : AtomsSound build a calls s) (hclasses : s'.classes = s.classes)
    (hmatch : s'.matchTokens = s.matchTokens) (hused : s.usedNames ⊆ s'.usedNames) :
    AtomsSound build a calls s' where
  classes := hclasses ▸ h.classes
  used := fun tok htok => hused (h.used tok (hmatch ▸ htok))
  minted := by
    rw [hclasses, hmatch]
    exact h.minted
  distinct := by
    rw [hclasses]
    exact h.distinct

/-- A new name may be given a matcher. -/
theorem AtomsSound.insertMatch (h : AtomsSound build a calls s) {name : String} {re : MatchToken}
    (hnew : name ∉ s.usedNames) (hclasses : s'.classes = s.classes)
    (hmatch : s'.matchTokens = Table.insert s.matchTokens name re)
    (hused : s'.usedNames = s.usedNames ++ [name]) : AtomsSound build a calls s' where
  classes := hclasses ▸ h.classes
  used := by
    intro tok htok
    rw [hmatch, Table.mem_keys_insert] at htok
    rw [hused, List.mem_append, List.mem_singleton]
    exact htok.symm.imp_left (h.used tok)
  minted := by
    rw [hclasses, hmatch]
    intro k tok hk
    obtain ⟨span, codePoints, hspan, hasked, hlookup, hbuild⟩ := h.minted k tok hk
    refine ⟨span, codePoints, hspan, hasked, ?_, hbuild⟩
    rw [Table.lookup_insert, if_neg]
    · exact hlookup
    · rintro rfl
      exact hnew (h.mem_used hk)
  distinct := by
    rw [hclasses]
    exact h.distinct

/-- A span's key determines the span. -/
theorem spanKey_inj {x y : CharRange} (h : spanKey x = spanKey y) : x = y := by
  have hlists := congrArg String.toList h
  unfold spanKey at hlists
  simp only [String.toList_append, List.append_assoc] at hlists
  obtain ⟨h₁, h₂⟩ := Names.split_last (Names.notMem_toString (by decide) x.2)
    (Names.notMem_toString (by decide) y.2) hlists
  exact Prod.ext (Names.toString_injective (String.toList_inj.mp h₁))
    (Names.toString_injective (String.toList_inj.mp h₂))

/-- What a run leaves of the tokens before it. -/
structure Allocation.Grows (s s' : Allocation) : Prop where
  used : s.usedNames ⊆ s'.usedNames
  atoms : ∀ k tok, s.classes.atomTokens.lookup k = some tok →
    s'.classes.atomTokens.lookup k = some tok
  regexTokens : s'.tokens.regexTokens = s.tokens.regexTokens
  tokenSets : s'.tokenSets = s.tokenSets

theorem Allocation.Grows.refl (s : Allocation) : s.Grows s :=
  ⟨List.Subset.refl _, fun _ _ h => h, rfl, rfl⟩

theorem Allocation.Grows.trans {s₁ s₂ s₃ : Allocation} (h : s₁.Grows s₂) (h' : s₂.Grows s₃) :
    s₁.Grows s₃ :=
  ⟨List.Subset.trans h.used h'.used, fun k tok hk => h'.atoms k tok (h.atoms k tok hk),
    h'.regexTokens.trans h.regexTokens, h'.tokenSets.trans h.tokenSets⟩

/-- The token of a span. -/
def Allocation.atomToken (s : Allocation) (span : CharRange) : Option String :=
  s.classes.atomTokens.lookup (spanKey span)

/-- One atom is laid under a class, and minted if it is not yet. -/
theorem coverAtom_sound {mine : List CharRange} {codePoints : Bool} {span : CharRange}
    {acc acc' : List String × Allocation} (h : AtomsSound build a calls acc.2)
    (hasked : spanWithin mine span = true → AskedFor a calls span codePoints)
    (hrun : coverAtom diag build mine codePoints acc span = .ok acc') :
    AtomsSound build a calls acc'.2 ∧ acc.2.Grows acc'.2 ∧
      ∃ toks, acc'.1 = acc.1 ++ toks ∧
        List.Forall₂ (fun span tok => acc'.2.atomToken span = some tok)
          ([span].filter (spanWithin mine)) toks := by
  unfold coverAtom at hrun
  by_cases hin : spanWithin mine span = true
  · rw [hin, Bool.not_true, if_neg Bool.false_ne_true] at hrun
    rw [List.filter_cons_of_pos hin, List.filter_nil]
    split at hrun
    · next atom hatom =>
      obtain rfl := Except.ok.inj hrun
      exact ⟨h, .refl _, [atom], rfl, .cons hatom .nil⟩
    · next hnone =>
      dsimp only at hrun
      obtain ⟨re, hre, hrun⟩ := bind_eq_ok hrun
      obtain rfl := Except.ok.inj hrun
      obtain ⟨rfl, hbuild⟩ := eagerMatch_classPattern hre
      have hfresh := allocTokenName_fresh ("rxa_" ++ (classPattern span.1 span.2 codePoints).1)
        acc.2.usedNames none
      refine ⟨⟨h.classes, fun tok htok => ?_, fun k tok hk => ?_, fun k k' tok hk hk' => ?_⟩,
        ⟨List.subset_append_left _ _, fun k tok hk => ?_, rfl, rfl⟩, [_], rfl, .cons ?_ .nil⟩
      · rw [Table.mem_keys_insert] at htok
        rw [List.mem_append, List.mem_singleton]
        exact htok.symm.imp_left (h.used tok)
      · dsimp only at hk ⊢
        rw [Table.lookup_insert] at hk
        by_cases hkey : k = spanKey span
        · rw [if_pos hkey] at hk
          obtain rfl := Option.some.inj hk
          refine ⟨span, codePoints, hkey, hasked hin, ?_, hbuild⟩
          rw [Table.lookup_insert, if_pos rfl]
        · rw [if_neg hkey] at hk
          obtain ⟨span', codePoints', hspan, hasked', hlookup, hbuild'⟩ := h.minted k tok hk
          refine ⟨span', codePoints', hspan, hasked', ?_, hbuild'⟩
          rw [Table.lookup_insert, if_neg]
          · exact hlookup
          · rintro rfl
            exact hfresh (h.mem_used hk)
      · dsimp only at hk hk'
        rw [Table.lookup_insert] at hk hk'
        by_cases hkey : k = spanKey span
        · rw [if_pos hkey] at hk
          by_cases hkey' : k' = spanKey span
          · rw [hkey, hkey']
          · rw [if_neg hkey', ← Option.some.inj hk] at hk'
            exact absurd (h.mem_used hk') hfresh
        · rw [if_neg hkey] at hk
          by_cases hkey' : k' = spanKey span
          · rw [if_pos hkey'] at hk'
            rw [← Option.some.inj hk'] at hk
            exact absurd (h.mem_used hk) hfresh
          · rw [if_neg hkey'] at hk'
            exact h.distinct k k' tok hk hk'
      · dsimp only
        rw [Table.lookup_insert, if_neg]
        · exact hk
        · rintro rfl
          rw [hnone] at hk
          cases hk
      · unfold Allocation.atomToken
        dsimp only
        rw [Table.lookup_insert, if_pos rfl]
  · rw [show spanWithin mine span = false by simpa using hin, Bool.not_false, if_pos rfl] at hrun
    obtain rfl := Except.ok.inj hrun
    rw [List.filter_cons_of_neg hin, List.filter_nil]
    exact ⟨h, .refl _, [], (List.append_nil _).symm, .nil⟩

/-- The atoms are laid under a class in order. -/
theorem coverAtoms_sound {mine : List CharRange} {codePoints : Bool} :
    ∀ (spans : List CharRange) {acc acc' : List String × Allocation},
      AtomsSound build a calls acc.2 →
      (∀ span ∈ spans, spanWithin mine span = true → AskedFor a calls span codePoints) →
      spans.foldlM (coverAtom diag build mine codePoints) acc = .ok acc' →
      AtomsSound build a calls acc'.2 ∧ acc.2.Grows acc'.2 ∧
        ∃ toks, acc'.1 = acc.1 ++ toks ∧
          List.Forall₂ (fun span tok => acc'.2.atomToken span = some tok)
            (spans.filter (spanWithin mine)) toks
  | [], acc, acc', h, _, hrun => by
    obtain rfl := Except.ok.inj hrun
    exact ⟨h, .refl _, [], (List.append_nil _).symm, .nil⟩
  | span :: spans, acc, acc', h, hasked, hrun => by
    obtain ⟨hspan, hspans⟩ := List.forall_mem_cons.mp hasked
    rw [List.foldlM_cons] at hrun
    obtain ⟨acc₁, hstep, hrun⟩ := bind_eq_ok hrun
    obtain ⟨hsound, hgrows, toks, htoks, hall⟩ := coverAtom_sound h hspan hstep
    obtain ⟨hsound', hgrows', toks', htoks', hall'⟩ := coverAtoms_sound spans hsound hspans hrun
    refine ⟨hsound', hgrows.trans hgrows', toks ++ toks', ?_, ?_⟩
    · rw [htoks', htoks, List.append_assoc]
    · rw [← List.singleton_append, List.filter_append]
      exact List.rel_append (hall.imp fun span tok htok => hgrows'.atoms _ tok htok) hall'

/-! ## The sets of a run -/

/-- The tokens of a class's atoms, in order. -/
def IsSetOf (a : ClassAnalysis) (s : Allocation) (key : String) (members : List String) : Prop :=
  List.Forall₂ (fun span tok => s.atomToken span = some tok)
    (a.atoms.filter (spanWithin (coverageOf a.coverage key))) members

variable (a) in
/-- The class tokens have names of their own, and a contested one names its set. -/
structure SetsSound (s : Allocation) : Prop where
  named : ∀ key name, s.tokens.regexTokens.lookup key = some name →
    name ∈ s.usedNames ∧ "#" ++ trimHashes name = name
  sets : ∀ key ∈ a.contested, ∀ name, s.tokens.regexTokens.lookup key = some name →
    ∃ members, s.tokenSets.lookup (trimHashes name) = some members ∧ IsSetOf a s key members

theorem SetsSound.grows (h : SetsSound a s) (hgrows : s.Grows s') : SetsSound a s' where
  named := by
    rw [hgrows.regexTokens]
    intro key name hname
    exact (h.named key name hname).imp_left fun hused => hgrows.used hused
  sets := by
    rw [hgrows.regexTokens, hgrows.tokenSets]
    intro key hkey name hname
    obtain ⟨members, hmembers, hset⟩ := h.sets key hkey name hname
    exact ⟨members, hmembers, hset.imp fun span tok htok => hgrows.atoms _ tok htok⟩

/-- A literal's token touches no class. -/
theorem emitLiteralToken_sound {literal : String} {caseSensitive : Option Bool}
    {tokenName : Option String} (h : AtomsSound build a calls s) (hsets : SetsSound a s)
    (hrun : emitLiteralToken diag build wordKeywords literal caseSensitive tokenName s = .ok s') :
    AtomsSound build a calls s' ∧ SetsSound a s' := by
  have hfresh := allocTokenName_fresh literal s.usedNames tokenName
  unfold emitLiteralToken at hrun
  dsimp only at hrun
  generalize (if (wordKeywords && endsWithWordChar literal) = true then ['\\', 'b'] else []) =
    boundary at hrun
  split at hrun
  · obtain rfl := Except.ok.inj hrun
    exact ⟨h.grow rfl rfl (List.subset_append_left _ _),
      hsets.grows ⟨List.subset_append_left _ _, fun _ _ hk => hk, rfl, rfl⟩⟩
  · obtain ⟨flags, -, hrun⟩ := bind_eq_ok hrun
    obtain rfl := Except.ok.inj hrun
    exact ⟨h.insertMatch hfresh rfl rfl rfl,
      hsets.grows ⟨List.subset_append_left _ _, fun _ _ hk => hk, rfl, rfl⟩⟩

/-- A class's token is new, and names its set when the class is contested. -/
theorem emitClassToken_sound {pattern flags : String} (h : AtomsSound build a calls s)
    (hsets : SetsSound a s) (hcall : TokenCall.class pattern flags ∈ calls)
    (hrun : emitClassToken diag build pattern flags s = .ok s') :
    AtomsSound build a calls s' ∧ SetsSound a s' := by
  have hfresh := allocTokenName_fresh ("rx_" ++ pattern) s.usedNames none
  have hshape := hash_trimHashes ("rx_" ++ pattern) s.usedNames
  unfold emitClassToken at hrun
  generalize allocTokenName ("rx_" ++ pattern) s.usedNames none = name at hfresh hshape hrun
  dsimp only at hrun
  obtain ⟨own, -, hrun⟩ := bind_eq_ok hrun
  obtain ⟨hcoverage, hcontested, hatoms⟩ := h.classes
  split at hrun
  · next hfree =>
    obtain rfl := Except.ok.inj hrun
    refine ⟨h.insertMatch hfresh rfl rfl rfl, fun key name' hname => ?_,
      fun key hkey name' hname => ?_⟩
    · dsimp only at hname ⊢
      rw [Table.lookup_insert] at hname
      split at hname
      · rw [← Option.some.inj hname]
        exact ⟨List.mem_append_right _ (List.mem_singleton_self _), hshape⟩
      · exact (hsets.named key name' hname).imp_left (List.mem_append_left _)
    · dsimp only at hname ⊢
      rw [Table.lookup_insert, if_neg] at hname
      · exact hsets.sets key hkey name' hname
      · rintro rfl
        rw [hcontested] at hfree
        simp [hkey] at hfree
  · next hkept =>
    have hkey : regexKey pattern flags ∈ a.contested := by
      rw [hcontested] at hkept
      simpa using hkept
    obtain ⟨⟨members, s₂⟩, hloop, hrun⟩ := bind_eq_ok hrun
    obtain rfl := Except.ok.inj hrun
    rw [hatoms, hcoverage] at hloop
    have hstart : AtomsSound build a calls { s with
        usedNames := s.usedNames ++ [name]
        tokens := { s.tokens with
          regexTokens := Table.insert s.tokens.regexTokens (regexKey pattern flags) name } } :=
      h.grow rfl rfl (List.subset_append_left _ _)
    obtain ⟨hsound, hgrows, toks, htoks, hall⟩ := coverAtoms_sound a.atoms hstart
      (fun span _ hin => ⟨pattern, flags, hcall, hkey, hin, rfl⟩) hloop
    rw [List.nil_append] at htoks
    dsimp only at hsound hgrows htoks hall
    obtain rfl := htoks
    have hused := hgrows.used
    have hregex := hgrows.regexTokens
    dsimp only at hused hregex
    refine ⟨hsound.grow rfl rfl (List.Subset.refl _), fun key name' hname => ?_,
      fun key hkey' name' hname => ?_⟩
    · dsimp only at hname ⊢
      rw [hregex, Table.lookup_insert] at hname
      split at hname
      · rw [← Option.some.inj hname]
        exact ⟨hused (List.mem_append_right _ (List.mem_singleton_self _)), hshape⟩
      · exact (hsets.named key name' hname).imp_left
          fun hmem => hused (List.mem_append_left _ hmem)
    · dsimp only at hname ⊢
      rw [hregex, Table.lookup_insert] at hname
      rw [Table.lookup_insert]
      by_cases hsame : key = regexKey pattern flags
      · rw [if_pos hsame] at hname
        rw [← Option.some.inj hname, if_pos rfl, hsame]
        exact ⟨members, rfl, hall⟩
      · rw [if_neg hsame] at hname
        obtain ⟨hmem, hshape'⟩ := hsets.named key name' hname
        obtain ⟨members', hmembers, hset⟩ := hsets.sets key hkey' name' hname
        refine ⟨members', ?_, hset.imp fun span tok htok => hgrows.atoms _ tok htok⟩
        rw [if_neg, hgrows.tokenSets]
        · exact hmembers
        · -- sets of one key are of one name, and this name is new
          intro htrim
          rw [← hshape', htrim, hshape] at hmem
          exact hfresh hmem

theorem emitToken_sound {call : TokenCall} (hcall : call ∈ calls) (h : AtomsSound build a calls s)
    (hsets : SetsSound a s) (hrun : emitToken diag build wordKeywords s call = .ok s') :
    AtomsSound build a calls s' ∧ SetsSound a s' := by
  cases call with
  | literal literal caseSensitive tokenName => exact emitLiteralToken_sound h hsets hrun
  | «class» pattern flags => exact emitClassToken_sound h hsets hcall hrun

/-- **Every run keeps the atoms and the sets sound.** -/
theorem emitTokens_sound : ∀ (rest : List TokenCall) {s s' : Allocation},
    (∀ call ∈ rest, call ∈ calls) → AtomsSound build a calls s → SetsSound a s →
      emitTokens diag build wordKeywords rest s = .ok s' →
      AtomsSound build a calls s' ∧ SetsSound a s'
  | [], _, _, _, h, hsets, hrun => by
    obtain rfl := Except.ok.inj hrun
    exact ⟨h, hsets⟩
  | call :: rest, s, s', hrest, h, hsets, hrun => by
    obtain ⟨hcall, hrest⟩ := List.forall_mem_cons.mp hrest
    unfold emitTokens at hrun
    rw [List.foldlM_cons] at hrun
    obtain ⟨s₁, hstep, hrun⟩ := bind_eq_ok hrun
    obtain ⟨h₁, hsets₁⟩ := emitToken_sound hcall h hsets hstep
    exact emitTokens_sound rest hrest h₁ hsets₁ hrun

/-! ## What a set takes -/

/-- Nothing allocated yet but the names in `used`. -/
def Allocation.start (terminals : List Element) (used : List String) : Allocation :=
  { classes := classAnalysis terminals, usedNames := used }

theorem start_sound (terminals : List Element) (used : List String) :
    AtomsSound build (classAnalysis terminals) calls (Allocation.start terminals used) ∧
      SetsSound (classAnalysis terminals) (Allocation.start terminals used) :=
  ⟨⟨⟨rfl, rfl, rfl⟩, fun _ h => (by cases h), fun _ _ h => (by cases h), fun _ _ _ h => (by cases h)⟩,
    ⟨fun _ _ h => (by cases h), fun _ _ _ h => (by cases h)⟩⟩

/-- The matcher of a token takes a code point. -/
def Allocation.Takes (s : Allocation) (takes : MatchToken → Nat → Prop) (tok : String) (c : Nat) :
    Prop :=
  ∃ re, s.matchTokens.lookup tok = some re ∧ takes re c

/-- The class of an atom, when it compiles, takes the scalar values from its lower bound to its
upper one. -/
def TakesSpans (build : String → Bool → Except String Unit) (takes : MatchToken → Nat → Prop)
    (atoms : List CharRange) : Prop :=
  ∀ span ∈ atoms, ∀ codePoints c, isScalar c = true →
    build (atomMatcher span codePoints).source false = .ok () →
      (takes (atomMatcher span codePoints) c ↔ span.1 ≤ c ∧ c ≤ span.2)

theorem apart_unique {r : List CharRange} (h : Apart r) {x y : CharRange} (hx : x ∈ r) (hy : y ∈ r)
    {c : Nat} (hxc : x.1 ≤ c ∧ c ≤ x.2) (hyc : y.1 ≤ c ∧ c ≤ y.2) : x = y := by
  induction r with
  | nil => cases hx
  | cons z r ih =>
    obtain ⟨hz, hr⟩ := List.pairwise_cons.mp h
    rcases List.mem_cons.mp hx with rfl | hx' <;> rcases List.mem_cons.mp hy with rfl | hy'
    · rfl
    · have := hz y hy'
      omega
    · have := hz x hx'
      omega
    · exact ih hr hx' hy'

theorem apart_nodup {r : List CharRange} (hproper : ∀ x ∈ r, x.1 ≤ x.2) (h : Apart r) :
    r.Nodup := by
  refine List.Pairwise.imp_of_mem (fun {x y} hx _ hxy => ?_) h
  rintro rfl
  have := hproper x hx
  omega

/-- Members and atoms correspond one to one. -/
theorem forall₂_member {α β : Type} {R : α → β → Prop} {l : List α} {l' : List β}
    (h : List.Forall₂ R l l') :
    (∀ x ∈ l, ∃ y ∈ l', R x y) ∧ ∀ y ∈ l', ∃ x ∈ l, R x y := by
  induction h with
  | nil => simp
  | cons hxy _ ih =>
    refine ⟨List.forall_mem_cons.mpr ⟨⟨_, List.mem_cons_self, hxy⟩, fun x hx => ?_⟩,
      List.forall_mem_cons.mpr ⟨⟨_, List.mem_cons_self, hxy⟩, fun y hy => ?_⟩⟩
    · obtain ⟨y, hy, h⟩ := ih.1 x hx
      exact ⟨y, List.mem_cons_of_mem _ hy, h⟩
    · obtain ⟨x, hx, h⟩ := ih.2 y hy
      exact ⟨x, List.mem_cons_of_mem _ hx, h⟩

theorem forall₂_nodup {α β : Type} {R : α → β → Prop} (hinj : ∀ x x' y, R x y → R x' y → x = x')
    {l : List α} {l' : List β} (h : List.Forall₂ R l l') (hl : l.Nodup) : l'.Nodup := by
  induction h with
  | nil => exact List.nodup_nil
  | cons hxy hrest ih =>
    obtain ⟨hx, hl⟩ := List.nodup_cons.mp hl
    refine List.nodup_cons.mpr ⟨fun hy => ?_, ih hl⟩
    obtain ⟨x', hx', hx'y⟩ := (forall₂_member hrest).2 _ hy
    exact hx (hinj _ _ _ hxy hx'y ▸ hx')

theorem AtomsSound.atomToken_inj (h : AtomsSound build a calls s) {x y : CharRange} {tok : String}
    (hx : s.atomToken x = some tok) (hy : s.atomToken y = some tok) : x = y :=
  spanKey_inj (h.distinct _ _ _ hx hy)

/-- An atom's token takes what lies in the atom. -/
theorem AtomsSound.takes_iff {takes : MatchToken → Nat → Prop} (h : AtomsSound build a calls s)
    (htakes : TakesSpans build takes a.atoms) {span : CharRange} (hspan : span ∈ a.atoms)
    {tok : String} (htok : s.atomToken span = some tok) {c : Nat} (hc : isScalar c = true) :
    s.Takes takes tok c ↔ span.1 ≤ c ∧ c ≤ span.2 := by
  obtain ⟨span', codePoints, hkey, -, hlookup, hbuild⟩ := h.minted _ _ htok
  obtain rfl := spanKey_inj hkey
  rw [← htakes span hspan codePoints c hc hbuild]
  refine ⟨fun ⟨re, hre, hrec⟩ => ?_, fun hrec => ⟨_, hlookup, hrec⟩⟩
  rw [hlookup] at hre
  rwa [Option.some.inj hre]

/-- A set of a contested class takes each code point the class covers by one member, and no
other. -/
theorem IsSetOf.takes {takes : MatchToken → Nat → Prop} {key : String} {members : List String}
    (h : AtomsSound build a calls s) (ha : a.Partitioned) (htakes : TakesSpans build takes a.atoms)
    (hkey : key ∈ a.contested) (hset : IsSetOf a s key members) {c : Nat} (hc : isScalar c = true) :
    (InRanges (coverageOf a.coverage key) c → ∃! tok, tok ∈ members ∧ s.Takes takes tok c) ∧
      (¬ InRanges (coverageOf a.coverage key) c → ∀ tok ∈ members, ¬ s.Takes takes tok c) := by
  obtain ⟨hto, hfrom⟩ := forall₂_member hset
  have hof : ∀ tok ∈ members, s.Takes takes tok c →
      ∃ span ∈ a.atoms, spanWithin (coverageOf a.coverage key) span = true ∧
        s.atomToken span = some tok ∧ span.1 ≤ c ∧ c ≤ span.2 := by
    intro tok htok hcase
    obtain ⟨span, hspan, hspantok⟩ := hfrom tok htok
    obtain ⟨hspan, hin⟩ := List.mem_filter.mp hspan
    exact ⟨span, hspan, hin, hspantok, (h.takes_iff htakes hspan hspantok hc).mp hcase⟩
  constructor
  · intro hcover
    obtain ⟨span, hspan, hlo, hhi⟩ := (ha.covers c).mpr ⟨key, hkey, hcover⟩
    have hin : spanWithin (coverageOf a.coverage key) span = true := by
      rcases ha.whole span hspan key hkey with hin | hout
      · exact hin
      · exact absurd hcover (hout c hlo hhi)
    obtain ⟨tok, htok, hspantok⟩ := hto span (List.mem_filter.mpr ⟨hspan, hin⟩)
    refine ⟨tok, ⟨htok, (h.takes_iff htakes hspan hspantok hc).mpr ⟨hlo, hhi⟩⟩, ?_⟩
    rintro tok' ⟨htok', htakes'⟩
    obtain ⟨span', hspan', -, hspantok', hc'⟩ := hof tok' htok' htakes'
    obtain rfl := apart_unique ha.apart hspan hspan' ⟨hlo, hhi⟩ hc'
    exact Option.some.inj (hspantok'.symm.trans hspantok)
  · intro hout tok htok htakes'
    obtain ⟨span, -, hin, -, hlo, hhi⟩ := hof tok htok htakes'
    exact hout (inRanges_of_spanWithin hin hlo hhi)

end

/-- What a run has made of the contested classes, read by matchers that take what `takes` says. -/
structure Allocation.Partitions (a : ClassAnalysis) (calls : List TokenCall)
    (takes : MatchToken → Nat → Prop) (s : Allocation) : Prop where
  /-- An atom's token has the matcher of the atom, minted for a class that covers it. -/
  matcher : ∀ span tok, s.atomToken span = some tok → ∃ codePoints,
    AskedFor a calls span codePoints ∧ s.matchTokens.lookup tok = some (atomMatcher span codePoints)
  distinct : ∀ span span' tok, s.atomToken span = some tok → s.atomToken span' = some tok →
    span = span'
  sets : ∀ key ∈ a.contested, ∀ name, s.tokens.regexTokens.lookup key = some name →
    ∃ members, s.tokenSets.lookup (trimHashes name) = some members ∧ members.Nodup ∧
      IsSetOf a s key members ∧ ∀ c, isScalar c = true →
        (InRanges (coverageOf a.coverage key) c → ∃! tok, tok ∈ members ∧ s.Takes takes tok c) ∧
          (¬ InRanges (coverageOf a.coverage key) c → ∀ tok ∈ members, ¬ s.Takes takes tok c)

/-- **The contested classes are laid over atoms that partition them, whichever is allocated
first.** -/
theorem classes_partitioned (terminals : List Element) :
    (classAnalysis terminals).Partitioned ∧
      (∀ pattern flags r, IsContested terminals pattern flags r → ∀ c,
        InRanges (coverageOf (classAnalysis terminals).coverage (regexKey pattern flags)) c ↔
          InRanges r c) ∧
      (∀ pattern flags r pattern' flags' r', IsContested terminals pattern flags r →
        IsContested terminals pattern' flags' r' → ∀ span ∈ (classAnalysis terminals).atoms,
          spanWithin (normalizeRanges r) span = true → spanWithin (normalizeRanges r') span = true →
            atomMatcher span (!readsUnits flags) = atomMatcher span (!readsUnits flags')) ∧
      ∀ (diag : String) (build : String → Bool → Except String Unit) (wordKeywords : Bool)
        (used : List String) (calls : List TokenCall) (s : Allocation)
        (takes : MatchToken → Nat → Prop),
        emitTokens diag build wordKeywords calls (Allocation.start terminals used) = .ok s →
          TakesSpans build takes (classAnalysis terminals).atoms →
            s.Partitions (classAnalysis terminals) calls takes := by
  have hatoms := partitioned_classAnalysis terminals
  refine ⟨hatoms, fun pattern flags r h c => ?_, ?_, ?_⟩
  · rw [h.read.1]
    exact inRanges_normalizeRanges r c
  · intro pattern flags r pattern' flags' r' h h' span hspan hin hin'
    unfold atomMatcher
    rw [classPattern_eq h h' (hatoms.proper span hspan) hin hin']
  · intro diag build wordKeywords used calls s takes hrun htakes
    obtain ⟨hstart, hsets⟩ := start_sound terminals used
    obtain ⟨hsound, hsets⟩ := emitTokens_sound calls (fun _ h => h) hstart hsets hrun
    refine ⟨fun span tok htok => ?_, fun span span' tok h h' => hsound.atomToken_inj h h',
      fun key hkey name hname => ?_⟩
    · obtain ⟨span', codePoints, hspan, hasked, hlookup, -⟩ := hsound.minted _ _ htok
      obtain rfl := spanKey_inj hspan
      exact ⟨codePoints, hasked, hlookup⟩
    · obtain ⟨members, hmembers, hset⟩ := hsets.sets key hkey name hname
      refine ⟨members, hmembers, ?_, hset, fun c hc => hset.takes hsound hatoms htakes hkey hc⟩
      exact forall₂_nodup (R := fun span tok => s.atomToken span = some tok)
        (fun x y tok hx hy => hsound.atomToken_inj hx hy) hset
        ((apart_nodup hatoms.proper hatoms.apart).filter _)

/-- Two classes that overlap, and the calls for them, the later one first. -/
def letters : List Element := [.regex "[a-m]" "" none, .regex "[h-z]" "" none]

def letterCalls : List TokenCall :=
  [.class "[h-z]" "", .literal "if" (some true) none, .class "[a-m]" ""]

/-- Every pattern compiles. -/
def buildAny (_ : String) (_ : Bool) : Except String Unit := .ok ()

/-- A class takes what its pattern spells. -/
def takesClass (re : MatchToken) (c : Nat) : Prop :=
  ∃ r, patternCharRanges (String.ofList re.pattern) re.flags = some r ∧ InRanges r c

def letterTokens : Allocation :=
  (emitTokens "bnf" buildAny false letterCalls (Allocation.start letters [])).toOption.getD
    (Allocation.start letters [])

theorem takesSpans_letters : TakesSpans buildAny takesClass (classAnalysis letters).atoms := by
  have hatoms : (classAnalysis letters).atoms = [(97, 103), (104, 109), (110, 122)] := by
    decide +kernel
  have hread : ∀ span ∈ [(97, 103), (104, 109), (110, 122)], ∀ codePoints : Bool,
      patternCharRanges (String.ofList (atomMatcher span codePoints).pattern)
        (atomMatcher span codePoints).flags = some [span] := by decide +kernel
  rw [hatoms]
  intro span hspan codePoints c _ _
  unfold takesClass
  rw [hread span hspan codePoints]
  constructor
  · rintro ⟨r, hr, s, hs, hsc⟩
    obtain rfl := Option.some.inj hr
    rwa [List.mem_singleton.mp hs] at hsc
  · exact fun h => ⟨[span], rfl, span, List.mem_singleton_self _, h⟩

theorem classes_partitioned_letters :
    letterTokens.Partitions (classAnalysis letters) letterCalls takesClass ∧
      letterTokens.tokenSets.lookup (trimHashes "#RX__A_M") =
        some ["#RXA___U0061__U0067", "#RXA___U0068__U006D"] := by
  have hrun : emitTokens "bnf" buildAny false letterCalls (Allocation.start letters []) =
      .ok letterTokens := eq_ok_of_isOk (by decide +kernel) _
  exact ⟨(classes_partitioned letters).2.2.2 "bnf" buildAny false [] letterCalls letterTokens
    takesClass hrun takesSpans_letters, by decide +kernel⟩

end TabnasBnf
