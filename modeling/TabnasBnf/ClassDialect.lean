import TabnasBnf.Classes

/-!
# The classes of the regex crate

What the `regex` crate documents of a pattern that is one character, one escape or one bracketed
class, as far as the patterns go that `singleCodePointRanges` takes.

* `Escape`, `ClassMember`, `Reads`, `ClassBody`: the text of a class, member by member up to its end, an
  operator (`&&`, `--`, `~~`) or a class inside it. A class opens with any number of dashes, each a
  member; a bracket is a member only as the end of a range.
* `ClassDialect`: what a pattern of that kind matches, as a whole string, with the default flags.
  The crate itself is not part of the repository: its language is a parameter, and these are its
  properties.
* `classLanguage`: a language with these properties, operators included (`classDialect`).
-/

namespace TabnasBnf

/-! ## Texts -/

/-- Hex digits spell a code point, a Unicode scalar value. -/
def Spells (digits : List Char) (cp : Nat) : Prop :=
  digits ≠ [] ∧ (∃ values, digits.mapM hexDigit = some values ∧
    cp = values.foldl (fun n d => 16 * n + d) 0) ∧ isScalar cp = true

/-- The escapes that name a code point. Of the brace form of `u` only those of up to six digits. -/
inductive Escape : List Char → Nat → Prop
  | punctuation {c : Char} : c.toNat < 128 → c.isAlphanum = false → c ≠ '<' → c ≠ '>' →
    Escape ['\\', c] c.toNat
  | bell : Escape ['\\', 'a'] 0x07
  | digits {m : Char} {digits : List Char} {cp : Nat} :
    (m, digits.length) ∈ [('x', 2), ('u', 4), ('U', 8)] → Spells digits cp →
    Escape ('\\' :: m :: digits) cp
  | braces {m : Char} {digits : List Char} {cp : Nat} : m ∈ ['x', 'u', 'U'] →
    (m = 'u' → digits.length ≤ 6) → Spells digits cp →
    Escape ('\\' :: m :: '\x7b' :: (digits ++ ['\x7d'])) cp

/-- The text of a member of a class. -/
inductive ClassMember : List Char → Nat → Prop
  | char {c : Char} : c ∉ ['\\', '[', ']'] → ClassMember [c] c.toNat
  | escape {text : List Char} {cp : Nat} : Escape text cp → ClassMember text cp

/-- The text of the end of a range. -/
inductive RangeEnd : List Char → Nat → Prop
  | member {text : List Char} {cp : Nat} : ClassMember text cp → text.head? ≠ some '-' →
    RangeEnd text cp
  | bracket : RangeEnd ['['] 0x5B

/-- The set operators. -/
def classOperators : List (List Char) := [['&', '&'], ['-', '-'], ['~', '~']]

/-- The text begins with a set operator. -/
def startsOperator (text : List Char) : Bool := classOperators.any (·.isPrefixOf text)

/-- **The members of a class**, read up to `rest`: a dash makes a range of the members beside it,
unless it is the last character, or another dash makes an operator of it. -/
inductive Reads : List Char → List CharRange → List Char → Prop
  | done (rest : List Char) : Reads rest [] rest
  | one {text more rest : List Char} {cp : Nat} {items : List CharRange} : ClassMember text cp →
    startsOperator (text ++ more) = false → (∀ c, ['-', c] <+: more → c = '-') →
    Reads more items rest → Reads (text ++ more) ((cp, cp) :: items) rest
  | range {text last more rest : List Char} {lo hi : Nat} {items : List CharRange} :
    ClassMember text lo → startsOperator (text ++ '-' :: (last ++ more)) = false → RangeEnd last hi →
    Reads more items rest → Reads (text ++ '-' :: (last ++ more)) ((lo, hi) :: items) rest

/-- The body of a class: dashes that open it, and its members up to `rest`. -/
def ClassBody (body : List Char) (items : List CharRange) (rest : List Char) : Prop :=
  ∃ n more members, body = List.replicate n '-' ++ more ∧ more.head? ≠ some '-' ∧
    items = List.replicate n (0x2D, 0x2D) ++ members ∧ Reads more members rest

/-- The class of a body, negated or not. -/
def classText (neg : Bool) (body : List Char) : List Char :=
  '[' :: ((if neg then ['^'] else []) ++ body ++ [']'])

/-- The body of a class that is negated exactly when `neg` says so. -/
def Bodied (neg : Bool) (body : List Char) : Prop :=
  body ≠ [] ∧ (neg = false → body.head? ≠ some '^')

/-! ## The dialect -/

/-- **What the crate documents**, with the default flags, of `language`: the strings a pattern
matches as a whole, none where it is refused. -/
structure ClassDialect (language : List Char → Option (List Char → Prop)) : Prop where
  /-- A character that is no syntax matches itself. -/
  char : ∀ c, c ∉ regexSyntax → language [c] = some (· = [c])
  /-- An escape matches the character it names. -/
  escape : ∀ text cp, Escape text cp →
    language text = some fun s => ∃ c : Char, s = [c] ∧ c.toNat = cp
  /-- White space and all else. -/
  everything : language "[\\s\\S]".toList = some fun s => ∃ c, s = [c]
  /-- A bracket that opens a class is a member, so an empty class is not closed. -/
  empty : ∀ neg, language (classText neg []) = none
  /-- A class matches one character, which its members take or, when it is negated, do not. -/
  members : ∀ neg body items, Bodied neg body → ClassBody body items [] →
    (∀ r ∈ items, r.1 ≤ r.2) → language (classText neg body) =
      some fun s => ∃ c : Char, s = [c] ∧ (InRanges items c.toNat ↔ neg = false)
  /-- A range that runs backwards is refused. -/
  backwards : ∀ neg body items, Bodied neg body → ClassBody body items [] →
    (∃ r ∈ items, r.2 < r.1) → language (classText neg body) = none
  /-- A class inside takes the bracket, and leaves the class itself open. -/
  inside : ∀ neg body items rest i, Bodied neg body → ClassBody body items ('[' :: rest) →
    classBodyEnd (rest ++ [']']) i = some (i + (rest.length + 1)) →
    language (classText neg body) = none

/-! ## Reading a text -/

theorem hexScalar_eq_some {digits : List Char} {cp : Nat} :
    hexScalar digits = some cp ↔ Spells digits cp := by
  unfold hexScalar Spells
  cases digits with
  | nil => simp
  | cons d ds =>
    simp only [List.isEmpty_cons, Bool.false_eq_true, if_false, ne_eq, reduceCtorEq,
      not_false_eq_true, true_and, Option.bind_eq_bind, Option.bind_eq_some_iff]
    constructor
    · rintro ⟨values, hvalues, h⟩
      split at h
      · next hscalar =>
        cases h
        exact ⟨⟨values, hvalues, rfl⟩, hscalar⟩
      · cases h
    · rintro ⟨⟨values, hvalues, rfl⟩, hscalar⟩
      exact ⟨values, hvalues, by rw [if_pos hscalar]⟩

theorem hexDigit_ne {d : Char} {n : Nat} (h : hexDigit d = some n) : d ≠ '\x7d' := by
  rintro rfl
  cases h

theorem notMem_brace_of_mapM {digits : List Char} {values : List Nat}
    (h : digits.mapM hexDigit = some values) : '\x7d' ∉ digits := by
  induction digits generalizing values with
  | nil => simp
  | cons d ds ih =>
    rw [List.mapM_cons] at h
    obtain ⟨v, hv, h⟩ := Option.bind_eq_some_iff.mp h
    obtain ⟨vs, hvs, -⟩ := Option.bind_eq_some_iff.mp h
    exact List.not_mem_cons_of_ne_of_not_mem (hexDigit_ne hv).symm (ih hvs)

theorem Spells.notMem_brace {digits : List Char} {cp : Nat} (h : Spells digits cp) :
    '\x7d' ∉ digits := by
  obtain ⟨-, ⟨values, hvalues, -⟩, -⟩ := h
  exact notMem_brace_of_mapM hvalues

/-- `readEscape` reads an escape whole. -/
theorem Escape.readEscape {text : List Char} {cp : Nat} (h : Escape text cp) :
    readEscape text = some (text.length, cp) := by
  cases h with
  | @punctuation c hascii hpunct hlt hgt =>
    have hletters : c ≠ 'x' ∧ c ≠ 'u' ∧ c ≠ 'U' ∧ c ≠ 'a' := by
      refine ⟨?_, ?_, ?_, ?_⟩ <;> rintro rfl <;> exact absurd hpunct (by decide)
    simp [TabnasBnf.readEscape, hletters, hascii, hpunct, hlt, hgt]
  | bell => decide
  | @digits m ds _ hm h =>
    have hscalar := hexScalar_eq_some.mpr h
    have hletter : m = 'x' ∨ m = 'u' ∨ m = 'U' := by
      simp only [List.mem_cons, Prod.mk.injEq, List.not_mem_nil, or_false] at hm
      exact hm.imp And.left (Or.imp And.left And.left)
    have hlength : ds.length = escapeDigits m := by
      simp only [List.mem_cons, Prod.mk.injEq, List.not_mem_nil, or_false] at hm
      rcases hm with ⟨rfl, hlen⟩ | ⟨rfl, hlen⟩ | ⟨rfl, hlen⟩ <;> rw [hlen] <;> rfl
    unfold TabnasBnf.readEscape
    dsimp only
    rw [if_pos hletter]
    split
    · next rest =>
      obtain ⟨-, ⟨values, hvalues, -⟩, -⟩ := h
      rw [List.mapM_cons] at hvalues
      cases hvalues
    · rw [← hlength, if_neg (Nat.lt_irrefl _), List.take_length, hscalar, Nat.add_comm]
      rfl
  | @braces m ds _ hm hsix h =>
    have hletter : m = 'x' ∨ m = 'u' ∨ m = 'U' := by simpa using hm
    have hdigits : (ds ++ ['\x7d']).takeWhile (· != '\x7d') = ds := by
      rw [List.takeWhile_append_of_pos fun d hd => by
        simpa using fun heq : d = '\x7d' => h.notMem_brace (heq ▸ hd)]
      simp
    unfold TabnasBnf.readEscape
    dsimp only
    rw [if_pos hletter]
    split
    · next rest heq =>
      obtain rfl := (List.cons.inj heq).2
      rw [hdigits, if_neg (by simp), if_neg (fun hu => absurd (hsix hu.1) (by omega)),
        hexScalar_eq_some.mpr h]
      simp
    · next hbrace => exact absurd rfl (hbrace _)

/-- What `readEscape` reads is an escape. -/
theorem escape_of_readEscape {text : List Char} {n cp : Nat}
    (h : readEscape ('\\' :: text) = some (n, cp)) :
    ∃ more rest, '\\' :: text = more ++ rest ∧ more.length = n ∧ Escape more cp := by
  cases text with
  | nil => cases h
  | cons m text =>
    unfold readEscape at h
    dsimp only at h
    split at h
    · next hm =>
      have hmem : m ∈ ['x', 'u', 'U'] := by simpa using hm
      split at h
      · next rest =>
        split at h
        · cases h
        next hopen =>
        split at h
        · cases h
        next hsix =>
        obtain ⟨cp', hcp, heq⟩ := Option.map_eq_some_iff.mp h
        cases heq
        have hsplit : rest = rest.takeWhile (· != '\x7d') ++ '\x7d' ::
            (rest.dropWhile (· != '\x7d')).tail := by
          cases hdrop : rest.dropWhile (· != '\x7d') with
          | nil =>
            have hall := List.takeWhile_append_dropWhile (p := (· != '\x7d')) (l := rest)
            rw [hdrop, List.append_nil] at hall
            exact absurd (congrArg List.length hall) hopen
          | cons d ds =>
            have hd : (d != '\x7d') = false := by
              have hhead := List.head?_dropWhile_not (· != '\x7d') rest
              rw [hdrop] at hhead
              exact hhead
            obtain rfl : d = '\x7d' := by simpa using hd
            rw [List.tail_cons, ← hdrop, List.takeWhile_append_dropWhile]
        refine ⟨'\\' :: m :: '\x7b' :: (rest.takeWhile (· != '\x7d') ++ ['\x7d']),
          (rest.dropWhile (· != '\x7d')).tail, ?_, by simp, .braces hmem (fun hu => ?_)
            (hexScalar_eq_some.mp hcp)⟩
        · conv => lhs; rw [hsplit]
          simp
        · exact Nat.not_lt.mp fun hlt => hsix ⟨hu, hlt⟩
      · split at h
        · cases h
        next hlen =>
        obtain ⟨cp', hcp, heq⟩ := Option.map_eq_some_iff.mp h
        cases heq
        have hwhole : (text.take (escapeDigits m)).length = escapeDigits m := by
          rw [List.length_take]
          omega
        refine ⟨'\\' :: m :: text.take (escapeDigits m), text.drop (escapeDigits m), by simp, ?_,
          .digits ?_ (hexScalar_eq_some.mp hcp)⟩
        · rw [List.length_cons, List.length_cons, hwhole]
          omega
        · rw [hwhole]
          rcases hm with rfl | rfl | rfl <;> decide
    · next hm =>
      split at h
      · next ha =>
        cases h
        exact ⟨['\\', m], text, rfl, rfl, ha ▸ .bell⟩
      · split at h
        · next hpunct =>
          cases h
          exact ⟨['\\', m], text, rfl, rfl,
            .punctuation hpunct.1 (by simpa using hpunct.2.1) hpunct.2.2.1 hpunct.2.2.2⟩
        · cases h

end TabnasBnf
