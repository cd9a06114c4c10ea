import Mathlib.Data.Bool.AllAny
import TabnasBnf.ClassReads
import TabnasBnf.TokenAlloc

/-!
# The pattern of a literal

A literal that needs a matcher is escaped (`escapeRegexp`), and what comes out is rewritten as a
`RegExp.source` (`jsRegexSource`). The second pass goes over the escapes of the first, and turns
slashes and line terminators into escapes of its own.

* `LiteralText`: the text of a pattern that is one character after the other.
* `LiteralDialect`: what the `regex` crate documents of such patterns, with and without the flag `i`.
  The crate is not part of the repository: its language is a parameter. Its limit on the size of a
  compiled pattern is set aside.
* `literalLanguage`: a language with these properties (`literalDialect`).
* `literalText_jsSource`: the two passes make such a text of any literal.
* **`jsRegexSource_escapeRegexp`**: so the pattern is accepted, and takes the literal alone.
-/

namespace TabnasBnf

/-! ## The dialect -/

/-- The text of one character of a pattern. -/
inductive LiteralAtom : List Char → Char → Prop
  | char {c : Char} : c ∉ regexSyntax → LiteralAtom [c] c
  | escape {text : List Char} {c : Char} : Escape text c.toNat → LiteralAtom text c
  | newline : LiteralAtom ['\\', 'n'] '\n'
  | carriageReturn : LiteralAtom ['\\', 'r'] '\r'

/-- The text of a pattern that is one character after the other. -/
inductive LiteralText : List Char → List Char → Prop
  | nil : LiteralText [] []
  | cons {text rest l : List Char} {c : Char} : LiteralAtom text c → LiteralText rest l →
    LiteralText (text ++ rest) (c :: l)

/-- **What the crate documents**, of `language`: the strings a pattern matches as a whole, none
where it is refused. The flag says whether case is ignored, which `simpleFold` then decides. -/
structure LiteralDialect (simpleFold : Char → Char)
    (language : Bool → List Char → Option (List Char → Prop)) : Prop where
  /-- The pattern of no character matches the empty string. -/
  empty : ∀ anyCase, language anyCase [] = some (· = [])
  /-- A character takes itself, or what folds to the same, and leaves the rest to the rest. -/
  atom : ∀ {text rest l : List Char} {c : Char} {L : List Char → Prop} (anyCase : Bool),
    LiteralAtom text c → LiteralText rest l → language anyCase rest = some L →
      language anyCase (text ++ rest) = some fun s => ∃ d s', s = d :: s' ∧
        (if anyCase then simpleFold d = simpleFold c else d = c) ∧ L s'

/-! ## A language of the dialect -/

/-- One character of a pattern, and what follows it. -/
def readAtom : List Char → Option (Char × List Char)
  | [] => none
  | '\\' :: 'n' :: rest => some ('\n', rest)
  | '\\' :: 'r' :: rest => some ('\r', rest)
  | '\\' :: rest =>
    (readEscape ('\\' :: rest)).map fun (n, cp) => (Char.ofNat cp, ('\\' :: rest).drop n)
  | c :: rest => if c ∈ regexSyntax then none else some (c, rest)

/-- The characters of a pattern that is one after the other. -/
def readAtoms : Nat → List Char → Option (List Char)
  | _, [] => some []
  | 0, _ :: _ => none
  | fuel + 1, c :: rest => do
    let (d, rest) ← readAtom (c :: rest)
    let l ← readAtoms fuel rest
    some (d :: l)

/-- What a pattern takes, one character after the other, as a whole. -/
def literalLanguage (simpleFold : Char → Char) (anyCase : Bool) (pattern : List Char) :
    Option (List Char → Prop) :=
  (readAtoms pattern.length pattern).map fun l s =>
    if anyCase then s.map simpleFold = l.map simpleFold else s = l

/-- An escape by its code point is none of a line terminator by its letter. -/
theorem Escape.second {text : List Char} {cp : Nat} (h : Escape text cp) :
    ∃ m more, text = '\\' :: m :: more ∧ m ≠ 'n' ∧ m ≠ 'r' := by
  cases h with
  | punctuation _ hpunct _ _ =>
    refine ⟨_, [], rfl, ?_, ?_⟩ <;> rintro rfl <;> cases hpunct
  | bell => exact ⟨'a', [], rfl, by decide, by decide⟩
  | digits hm _ => refine ⟨_, _, rfl, ?_, ?_⟩ <;> rintro rfl <;> simp at hm
  | braces hm _ _ => refine ⟨_, _, rfl, ?_, ?_⟩ <;> rintro rfl <;> simp at hm

theorem readAtom_append {text : List Char} {c : Char} (h : LiteralAtom text c) (rest : List Char) :
    readAtom (text ++ rest) = some (c, rest) := by
  cases h with
  | char hc =>
    have hne : c ≠ '\\' := fun heq => hc (heq ▸ by decide)
    simp [readAtom, hne, hc]
  | newline => rfl
  | carriageReturn => rfl
  | escape h =>
    have hread := readEscape_append rest h.readEscape
    obtain ⟨m, more, rfl, hn, hr⟩ := h.second
    simp only [List.cons_append] at hread ⊢
    simp [readAtom, hn, hr, hread, Char.ofNat_toNat]

theorem LiteralAtom.ne_nil {text : List Char} {c : Char} (h : LiteralAtom text c) : text ≠ [] := by
  rintro rfl
  have := readAtom_append h []
  cases this

/-- More fuel than a text has characters reads it. -/
theorem readAtoms_eq {text l : List Char} (h : LiteralText text l) :
    ∀ {fuel : Nat}, text.length ≤ fuel → readAtoms fuel text = some l := by
  induction h with
  | nil => intro fuel _; cases fuel <;> rfl
  | @cons text rest l c hatom hrest ih =>
    intro fuel hfuel
    have hread := readAtom_append hatom rest
    obtain ⟨d, more, rfl⟩ := List.exists_cons_of_ne_nil hatom.ne_nil
    rw [List.length_append, List.length_cons] at hfuel
    obtain ⟨fuel, rfl⟩ : ∃ n, fuel = n + 1 := ⟨fuel - 1, by omega⟩
    rw [List.cons_append] at hread ⊢
    rw [readAtoms, hread]
    simp [ih (by omega : rest.length ≤ fuel)]

/-- **The dialect has a language.** -/
theorem literalDialect (simpleFold : Char → Char) :
    LiteralDialect simpleFold (literalLanguage simpleFold) where
  empty anyCase := by cases anyCase <;> simp [literalLanguage, readAtoms]
  atom {text rest l c L} anyCase hatom hrest hL := by
    unfold literalLanguage at hL ⊢
    rw [readAtoms_eq hrest le_rfl] at hL
    rw [readAtoms_eq (.cons hatom hrest) le_rfl]
    cases hL
    rw [Option.map_some]
    congr 1
    funext s
    cases anyCase <;> cases s <;> simp

/-! ## The two passes -/

/-- The characters `escape_regexp` escapes are those of the syntax. -/
theorem contains_escaped (c : Char) :
    ['\\', '^', '$', '.', '*', '+', '?', '(', ')', '[', ']', '\x7b', '\x7d', '|'].contains c = true ↔
      c ∈ regexSyntax := by
  rw [List.contains_iff_mem]
  have hforth : ∀ d ∈ ['\\', '^', '$', '.', '*', '+', '?', '(', ')', '[', ']', '\x7b', '\x7d', '|'],
      d ∈ regexSyntax := List.all_iff_forall_prop.mp (by decide)
  have hback : ∀ d ∈ regexSyntax,
      d ∈ ['\\', '^', '$', '.', '*', '+', '?', '(', ')', '[', ']', '\x7b', '\x7d', '|'] :=
    List.all_iff_forall_prop.mp (by decide)
  exact ⟨hforth c, hback c⟩

theorem escapeRegexp_cons (c : Char) (l : List Char) :
    escapeRegexp (c :: l) = (if c ∈ regexSyntax then ['\\', c] else [c]) ++ escapeRegexp l := by
  unfold escapeRegexp
  rw [List.flatMap_cons]
  simp only [contains_escaped]

theorem jsSource_escape (c : Char) (rest : List Char) (inClass : Bool) :
    jsSource ('\\' :: c :: rest) inClass = '\\' :: escapeLine c ++ jsSource rest inClass := by
  rw [jsSource]

/-- An escaped character of the syntax stays as it is, and opens no class. -/
theorem literalAtom_meta {c : Char} (h : c ∈ regexSyntax) :
    LiteralAtom ('\\' :: escapeLine c) c := by
  have hall : ∀ d ∈ regexSyntax, escapeLine d = [d] ∧
      d.toNat < 128 ∧ d.isAlphanum = false ∧ d ≠ '<' ∧ d ≠ '>' :=
    List.all_iff_forall_prop.mp (by decide)
  obtain ⟨hline, hascii, hpunct, hlt, hgt⟩ := hall c h
  rw [hline]
  exact .escape (.punctuation hascii hpunct hlt hgt)

theorem literalAtom_escapeLine {c : Char} (h : c ∉ regexSyntax) : LiteralAtom (escapeLine c) c := by
  unfold escapeLine
  split
  · next hc => exact hc ▸ .newline
  split
  · next hc => exact hc ▸ .carriageReturn
  split
  · next hc =>
    exact .escape (hc ▸ .digits (m := 'u') (by simp) ⟨by simp, ⟨[2, 0, 2, 8], rfl, rfl⟩, rfl⟩)
  split
  · next hc =>
    exact .escape (hc ▸ .digits (m := 'u') (by simp) ⟨by simp, ⟨[2, 0, 2, 9], rfl, rfl⟩, rfl⟩)
  · exact .char h

/-- A character that is not escaped opens no class, so a slash after it is escaped. -/
theorem jsSource_plainLiteral {c : Char} (h : c ∉ regexSyntax) (rest : List Char) :
    ∃ text, LiteralAtom text c ∧ jsSource (c :: rest) false = text ++ jsSource rest false := by
  have hspecial : ∀ d ∈ ['\\', '[', ']'], d ∈ regexSyntax := List.all_iff_forall_prop.mp (by decide)
  have hne : ∀ d ∈ ['\\', '[', ']'], c ≠ d := by
    rintro d hd rfl
    exact h (hspecial _ hd)
  have hstep : jsSource (c :: rest) false =
      if c = '/' then ['\\', '/'] ++ jsSource rest false
      else escapeLine c ++ jsSource rest false := by
    conv => lhs; unfold jsSource
    split
    · next heq => cases heq
    · next heq => exact absurd (List.cons.inj heq).1 (hne _ (by simp))
    · next heq => exact absurd (List.cons.inj heq).1 (hne _ (by simp))
    · next heq =>
      obtain ⟨rfl, rfl⟩ := List.cons.inj heq
      rw [if_neg (hne _ (by simp)), if_neg (hne _ (by simp))]
      simp
  rw [hstep]
  split
  · next hc =>
    subst hc
    exact ⟨_, .escape (.punctuation (by decide) (by decide) (by decide) (by decide)), rfl⟩
  · exact ⟨_, literalAtom_escapeLine h, rfl⟩

/-- **The two passes leave the text of the literal**, whatever its characters. -/
theorem literalText_jsSource (l : List Char) : LiteralText (jsSource (escapeRegexp l) false) l := by
  induction l with
  | nil => exact .nil
  | cons c l ih =>
    rw [escapeRegexp_cons]
    split
    · next hc =>
      show LiteralText (jsSource ('\\' :: c :: escapeRegexp l) false) (c :: l)
      rw [jsSource_escape]
      exact .cons (literalAtom_meta hc) ih
    · next hc =>
      obtain ⟨text, hatom, htext⟩ := jsSource_plainLiteral hc (escapeRegexp l)
      show LiteralText (jsSource (c :: escapeRegexp l) false) (c :: l)
      rw [htext]
      exact .cons hatom ih

/-! ## What the pattern takes -/

section

variable {simpleFold : Char → Char} {language : Bool → List Char → Option (List Char → Prop)}

/-- A text takes its own characters, with or without their case. -/
theorem LiteralDialect.language_eq (hd : LiteralDialect simpleFold language) (anyCase : Bool)
    {text l : List Char} (h : LiteralText text l) :
    language anyCase text =
      some fun s => if anyCase then s.map simpleFold = l.map simpleFold else s = l := by
  induction h with
  | nil =>
    rw [hd.empty]
    cases anyCase <;> simp
  | @cons text rest l c hatom hrest ih =>
    rw [hd.atom anyCase hatom hrest ih]
    congr 1
    funext s
    cases anyCase <;> cases s <;> simp

/-- **The pattern of a literal matches the literal, and nothing else**: with the flag `i`, what
folds to the same. -/
theorem jsRegexSource_escapeRegexp (hd : LiteralDialect simpleFold language) (l : List Char) :
    language false (jsRegexSource (escapeRegexp l)).toList = some (· = l) ∧
    language true (jsRegexSource (escapeRegexp l)).toList =
      some fun s => s.map simpleFold = l.map simpleFold := by
  rw [jsRegexSource, String.toList_ofList]
  exact ⟨hd.language_eq false (literalText_jsSource l), hd.language_eq true (literalText_jsSource l)⟩

end

/-- A literal of every kind of character: its pattern takes it in any case. -/
theorem jsRegexSource_escapeRegexp_kinds :
    literalLanguage Char.toLower true
        (jsRegexSource (escapeRegexp "a/[\\\n]\u2028".toList)).toList =
      some fun s => s.map Char.toLower = "a/[\\\n]\u2028".toList.map Char.toLower :=
  (jsRegexSource_escapeRegexp (literalDialect Char.toLower) _).2

end TabnasBnf
