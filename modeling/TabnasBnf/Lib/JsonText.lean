import Mathlib.Algebra.Field.Rat
import Mathlib.Data.Bool.AllAny
import Mathlib.Data.List.TakeWhile
import Mathlib.Tactic.Common

/-!
# JSON texts

The grammar of RFC 8259 as relations between a text and the value it denotes, and a reader of it.

* `CharText`, `NumberText`, `ValueText`, `Text`: the grammar, in its own words. Numbers are
  denoted exactly, and an object is the list of its members, names that repeat included. An escape
  that is half of a surrogate pair denotes no character.
* `parse`: the reader. Its fuel is the length of the text, which is enough.
* **`parse_eq_some_iff`**: the reader accepts a text with a value exactly when the grammar gives the
  text that value. So no text has two values (`Text.unique`).
-/

namespace JsonText

/-- A JSON value: numbers as rationals, strings as their characters. -/
inductive Value where
  | null
  | bool (b : Bool)
  | number (q : ℚ)
  | string (s : List Char)
  | array (items : List Value)
  | object (members : List (List Char × Value))

/-! ## The grammar -/

/-- The characters of `ws`. -/
def isWs (c : Char) : Bool := c = ' ' || c = '\t' || c = '\n' || c = '\r'

/-- `ws`. -/
def Ws (text : List Char) : Prop := ∀ c ∈ text, isWs c = true

/-- `HEXDIG`, in both cases. -/
def hexVal (c : Char) : Option Nat :=
  if '0' ≤ c ∧ c ≤ '9' then some (c.toNat - '0'.toNat)
  else if 'a' ≤ c ∧ c ≤ 'f' then some (c.toNat - 'a'.toNat + 10)
  else if 'A' ≤ c ∧ c ≤ 'F' then some (c.toNat - 'A'.toNat + 10)
  else none

/-- `4HEXDIG`: a UTF-16 code unit. -/
def hexUnit : List Char → Option Nat
  | [a, b, c, d] => do
    let a ← hexVal a
    let b ← hexVal b
    let c ← hexVal c
    let d ← hexVal d
    some (((a * 16 + b) * 16 + c) * 16 + d)
  | _ => none

/-- The character of a surrogate pair. -/
def joined (hi lo : Nat) : Option Char :=
  if 0xD800 ≤ hi ∧ hi < 0xDC00 ∧ 0xDC00 ≤ lo ∧ lo < 0xE000 then
    some (Char.ofNat (0x10000 + (hi - 0xD800) * 0x400 + (lo - 0xDC00)))
  else none

/-- The letters of the escapes of two characters. -/
def shortEscapes : List (Char × Char) :=
  [('"', '"'), ('\\', '\\'), ('/', '/'), ('b', '\x08'), ('f', '\x0c'), ('n', '\n'), ('r', '\r'),
    ('t', '\t')]

/-- `char`: the text of one character of a string. -/
inductive CharText : List Char → Char → Prop
  | unescaped {c : Char} : 0x20 ≤ c.toNat → c ≠ '"' → c ≠ '\\' → CharText [c] c
  | short {e c : Char} : (e, c) ∈ shortEscapes → CharText ['\\', e] c
  | unit {digits : List Char} {n : Nat} : hexUnit digits = some n → n.isValidChar →
    CharText ('\\' :: 'u' :: digits) (Char.ofNat n)
  | pair {high low : List Char} {hi lo : Nat} {c : Char} : hexUnit high = some hi →
    hexUnit low = some lo → joined hi lo = some c →
    CharText ('\\' :: 'u' :: (high ++ '\\' :: 'u' :: low)) c

/-- `*char`, between the quotation marks of a string. -/
inductive CharsText : List Char → List Char → Prop
  | nil : CharsText [] []
  | cons {t more s : List Char} {c : Char} : CharText t c → CharsText more s →
    CharsText (t ++ more) (c :: s)

/-- `1*DIGIT`. -/
def Digits (text : List Char) : Prop := text ≠ [] ∧ ∀ c ∈ text, c.isDigit = true

/-- What digits say. -/
def decimal (digits : List Char) : Nat := Nat.ofDigitChars 10 digits 0

/-- `int`: digits, the first of which is zero only if it is alone. -/
def IntText (text : List Char) : Prop := Digits text ∧ (text.head? = some '0' → text = ['0'])

/-- `[ frac ]`, with its digits. -/
inductive FracText : List Char → List Char → Prop
  | none : FracText [] []
  | digits {ds : List Char} : Digits ds → FracText ('.' :: ds) ds

/-- `[ minus / plus ] 1*DIGIT`. -/
inductive SignedDigits : List Char → Int → Prop
  | plain {ds : List Char} : Digits ds → SignedDigits ds (decimal ds)
  | plus {ds : List Char} : Digits ds → SignedDigits ('+' :: ds) (decimal ds)
  | minus {ds : List Char} : Digits ds → SignedDigits ('-' :: ds) (-(decimal ds : Int))

/-- `[ exp ]`. -/
inductive ExpText : List Char → Int → Prop
  | none : ExpText [] 0
  | exp {e : Char} {t : List Char} {n : Int} : e ∈ ['e', 'E'] → SignedDigits t n → ExpText (e :: t) n

/-- What the parts of a number say. -/
def magnitude (int frac : List Char) (exp : Int) : ℚ :=
  (decimal (int ++ frac) : ℚ) * 10 ^ (exp - frac.length)

/-- `number`. -/
inductive NumberText : List Char → ℚ → Prop
  | plain {i f fd e : List Char} {x : Int} : IntText i → FracText f fd → ExpText e x →
    NumberText (i ++ f ++ e) (magnitude i fd x)
  | minus {i f fd e : List Char} {x : Int} : IntText i → FracText f fd → ExpText e x →
    NumberText ('-' :: (i ++ f ++ e)) (-magnitude i fd x)

/-- One or more items between commas, with white space around them. -/
inductive Separated {α : Type*} (item : List Char → α → Prop) : List Char → List α → Prop
  | one {w t w' : List Char} {v : α} : Ws w → item t v → Ws w' → Separated item (w ++ t ++ w') [v]
  | cons {w t w' more : List Char} {v : α} {vs : List α} : Ws w → item t v → Ws w' →
    Separated item more vs → Separated item (w ++ t ++ w' ++ ',' :: more) (v :: vs)

/-- `member`. -/
inductive MemberText (value : List Char → Value → Prop) : List Char → List Char × Value → Prop
  | member {k key w w' t : List Char} {v : Value} : CharsText k key → Ws w → Ws w' → value t v →
    MemberText value ('"' :: k ++ '"' :: w ++ ':' :: w' ++ t) (key, v)

/-- `value`. -/
inductive ValueText : List Char → Value → Prop
  | null : ValueText ['n', 'u', 'l', 'l'] .null
  | yes : ValueText ['t', 'r', 'u', 'e'] (.bool true)
  | no : ValueText ['f', 'a', 'l', 's', 'e'] (.bool false)
  | number {t : List Char} {q : ℚ} : NumberText t q → ValueText t (.number q)
  | string {t s : List Char} : CharsText t s → ValueText ('"' :: t ++ ['"']) (.string s)
  | emptyArray {w : List Char} : Ws w → ValueText ('[' :: w ++ [']']) (.array [])
  | array {t : List Char} {vs : List Value} : Separated ValueText t vs →
    ValueText ('[' :: t ++ [']']) (.array vs)
  | emptyObject {w : List Char} : Ws w → ValueText ('\x7b' :: w ++ ['\x7d']) (.object [])
  | object {t : List Char} {ms : List (List Char × Value)} : Separated (MemberText ValueText) t ms →
    ValueText ('\x7b' :: t ++ ['\x7d']) (.object ms)

/-- `JSON-text`. -/
inductive Text : List Char → Value → Prop
  | text {w t w' : List Char} {v : Value} : Ws w → ValueText t v → Ws w' → Text (w ++ t ++ w') v

/-! ## The reader -/

/-- Past white space. -/
def skipWs (text : List Char) : List Char := text.dropWhile isWs

/-- An escape, past its backslash. -/
def readEscape : List Char → Option (Char × List Char)
  | 'u' :: a :: b :: c :: d :: rest => do
    let hi ← hexUnit [a, b, c, d]
    if hi.isValidChar then some (Char.ofNat hi, rest)
    else
      match rest with
      | '\\' :: 'u' :: a :: b :: c :: d :: rest => do
        let lo ← hexUnit [a, b, c, d]
        let c ← joined hi lo
        some (c, rest)
      | _ => none
  | e :: rest => (shortEscapes.lookup e).map (·, rest)
  | [] => none

/-- One character of a string. -/
def readChar : List Char → Option (Char × List Char)
  | '\\' :: rest => readEscape rest
  | c :: rest => if 0x20 ≤ c.toNat ∧ c ≠ '"' then some (c, rest) else none
  | [] => none

/-- The characters of a string, past its closing quotation mark. -/
def readChars : Nat → List Char → Option (List Char × List Char)
  | 0, _ => none
  | fuel + 1, text =>
    if text.head? = some '"' then some ([], text.tail)
    else do
      let (c, rest) ← readChar text
      let (s, rest) ← readChars fuel rest
      some (c :: s, rest)

/-- As many digits as there are. -/
def readDigits (text : List Char) : Option (List Char × List Char) :=
  match text.takeWhile Char.isDigit with
  | [] => none
  | d :: ds => some (d :: ds, text.dropWhile Char.isDigit)

/-- `int`. -/
def readInt (text : List Char) : Option (List Char × List Char) := do
  let (ds, rest) ← readDigits text
  if ds.head? = some '0' ∧ ds ≠ ['0'] then none else some (ds, rest)

/-- `[ frac ]`, as its digits. -/
def readFrac : List Char → Option (List Char × List Char)
  | '.' :: rest => readDigits rest
  | text => some ([], text)

/-- The digits of an exponent with their sign. -/
def readSigned : List Char → Option (Int × List Char)
  | '+' :: rest => (readDigits rest).map fun r => ((decimal r.1 : Int), r.2)
  | '-' :: rest => (readDigits rest).map fun r => (-(decimal r.1 : Int), r.2)
  | text => (readDigits text).map fun r => ((decimal r.1 : Int), r.2)

/-- `[ exp ]`. -/
def readExp : List Char → Option (Int × List Char)
  | c :: rest => if c ∈ ['e', 'E'] then readSigned rest else some (0, c :: rest)
  | [] => some (0, [])

/-- A number without its sign. -/
def readMagnitude (text : List Char) : Option (ℚ × List Char) := do
  let (int, rest) ← readInt text
  let (frac, rest) ← readFrac rest
  let (exp, rest) ← readExp rest
  some (magnitude int frac exp, rest)

/-- `number`. -/
def readNumber : List Char → Option (ℚ × List Char)
  | '-' :: rest => (readMagnitude rest).map fun r => (-r.1, r.2)
  | text => readMagnitude text

/-- Items between commas, past what closes them. -/
def readSeparated {α : Type*} (read : List Char → Option (α × List Char)) (close : Char) :
    Nat → List Char → Option (List α × List Char)
  | 0, _ => none
  | fuel + 1, text => do
    let (v, rest) ← read (skipWs text)
    match skipWs rest with
    | [] => none
    | c :: rest =>
      if c = ',' then do
        let (vs, rest) ← readSeparated read close fuel rest
        some (v :: vs, rest)
      else if c = close then some ([v], rest)
      else none

/-- `member`. -/
def readMember (read : List Char → Option (Value × List Char)) :
    List Char → Option ((List Char × Value) × List Char)
  | '"' :: rest => do
    let (key, rest) ← readChars rest.length rest
    match skipWs rest with
    | ':' :: rest => do
      let (v, rest) ← read (skipWs rest)
      some ((key, v), rest)
    | _ => none
  | _ => none

/-- What stands between brackets: nothing, or items. -/
def readBody {α : Type*} (read : List Char → Option (α × List Char)) (close : Char) (fuel : Nat)
    (text : List Char) : Option (List α × List Char) :=
  if (skipWs text).head? = some close then some ([], (skipWs text).tail)
  else readSeparated read close fuel text

/-- `value`. -/
def readValue : Nat → List Char → Option (Value × List Char)
  | 0, _ => none
  | fuel + 1, text =>
    match text with
    | 'n' :: 'u' :: 'l' :: 'l' :: rest => some (.null, rest)
    | 't' :: 'r' :: 'u' :: 'e' :: rest => some (.bool true, rest)
    | 'f' :: 'a' :: 'l' :: 's' :: 'e' :: rest => some (.bool false, rest)
    | '"' :: rest => (readChars rest.length rest).map fun r => (.string r.1, r.2)
    | '[' :: rest =>
      (readBody (readValue fuel) ']' fuel rest).map fun r => (.array r.1, r.2)
    | '\x7b' :: rest =>
      (readBody (readMember (readValue fuel)) '\x7d' fuel rest).map fun r => (.object r.1, r.2)
    | text => (readNumber text).map fun r => (.number r.1, r.2)

/-- `JSON-text`. -/
def parse (text : List Char) : Option Value := do
  let (v, rest) ← readValue text.length (skipWs text)
  if (skipWs rest).isEmpty then some v else none

/-! ## What is read is of the grammar -/

/-- A text that is read begins with a text of the grammar. -/
def Sound {α : Type*} (read : List Char → Option (α × List Char)) (text : List Char → α → Prop) :
    Prop :=
  ∀ {l : List Char} {v : α} {rest : List Char}, read l = some (v, rest) →
    ∃ t, l = t ++ rest ∧ text t v

theorem mem_shortEscapes {e c : Char} (h : shortEscapes.lookup e = some c) :
    (e, c) ∈ shortEscapes := by
  obtain ⟨l₁, l₂, heq, -⟩ := List.lookup_eq_some_iff.mp h
  rw [heq]
  simp

theorem readChar_sound : Sound readChar CharText := by
  intro l c rest h
  unfold readChar at h
  split at h
  · next l =>
    unfold readEscape at h
    split at h
    · next a b c' d l =>
      simp only [Option.bind_eq_bind, Option.bind_eq_some_iff] at h
      obtain ⟨hi, hhi, h⟩ := h
      split at h
      · next hvalid =>
        cases h
        exact ⟨'\\' :: 'u' :: [a, b, c', d], rfl, .unit hhi hvalid⟩
      · split at h
        · next a' b' c'' d' l =>
          simp only [Option.bind_eq_some_iff] at h
          obtain ⟨lo, hlo, ch, hjoined, h⟩ := h
          cases h
          exact ⟨'\\' :: 'u' :: ([a, b, c', d] ++ '\\' :: 'u' :: [a', b', c'', d']), rfl,
            .pair hhi hlo hjoined⟩
        · cases h
    · next e l _ =>
      obtain ⟨c', hc', h⟩ := Option.map_eq_some_iff.mp h
      cases h
      exact ⟨['\\', e], rfl, .short (mem_shortEscapes hc')⟩
    · cases h
  · next c' l hslash =>
    split at h
    · next hc =>
      cases h
      exact ⟨[c], rfl, .unescaped hc.1 hc.2 hslash⟩
    · cases h
  · cases h

/-- The characters of a string end in its quotation mark. -/
theorem readChars_sound {fuel : Nat} {l s rest : List Char} (h : readChars fuel l = some (s, rest)) :
    ∃ t, l = t ++ '"' :: rest ∧ CharsText t s := by
  induction fuel generalizing l s with
  | zero => cases h
  | succ fuel ih =>
    rw [readChars] at h
    split at h
    · next hquote =>
      cases h
      obtain ⟨tail, rfl⟩ := List.head?_eq_some_iff.mp hquote
      exact ⟨[], rfl, .nil⟩
    · simp only [Option.bind_eq_bind, Option.bind_eq_some_iff] at h
      obtain ⟨⟨c, l'⟩, hc, ⟨s', rest'⟩, hs, h⟩ := h
      cases h
      obtain ⟨t, rfl, ht⟩ := readChar_sound hc
      obtain ⟨t', rfl, ht'⟩ := ih hs
      exact ⟨t ++ t', by simp, .cons ht ht'⟩

theorem readDigits_sound : Sound readDigits fun t ds => t = ds ∧ Digits t := by
  intro l ds rest h
  unfold readDigits at h
  split at h
  · cases h
  · next d ds' htake =>
    cases h
    refine ⟨_, (List.takeWhile_append_dropWhile (p := Char.isDigit)).symm, htake, ?_, ?_⟩
    · rw [htake]
      exact List.cons_ne_nil _ _
    · exact fun c hc => List.mem_takeWhile_imp hc

theorem readInt_sound : Sound readInt fun t ds => t = ds ∧ IntText t := by
  intro l ds rest h
  unfold readInt at h
  simp only [Option.bind_eq_bind, Option.bind_eq_some_iff] at h
  obtain ⟨⟨ds', rest'⟩, hds, h⟩ := h
  obtain ⟨t, rfl, rfl, ht⟩ := readDigits_sound hds
  split at h
  · cases h
  · next hzero =>
    cases h
    exact ⟨t, rfl, rfl, ht, fun hhead => by_contra fun hne => hzero ⟨hhead, hne⟩⟩

theorem readFrac_sound : Sound readFrac FracText := by
  intro l ds rest h
  unfold readFrac at h
  split at h
  · obtain ⟨t, rfl, rfl, ht⟩ := readDigits_sound h
    exact ⟨'.' :: t, rfl, .digits ht⟩
  · cases h
    exact ⟨[], rfl, .none⟩

theorem readSigned_sound : Sound readSigned SignedDigits := by
  intro l n rest h
  unfold readSigned at h
  split at h
  all_goals
    obtain ⟨⟨ds, rest'⟩, hds, h⟩ := Option.map_eq_some_iff.mp h
    cases h
    obtain ⟨t, rfl, rfl, ht⟩ := readDigits_sound hds
  · exact ⟨'+' :: t, rfl, .plus ht⟩
  · exact ⟨'-' :: t, rfl, .minus ht⟩
  · exact ⟨t, rfl, .plain ht⟩

theorem readExp_sound : Sound readExp ExpText := by
  intro l n rest h
  unfold readExp at h
  split at h
  · next c l =>
    split at h
    · next hc =>
      obtain ⟨t, rfl, ht⟩ := readSigned_sound h
      exact ⟨c :: t, rfl, .exp hc ht⟩
    · cases h
      exact ⟨[], rfl, .none⟩
  · cases h
    exact ⟨[], rfl, .none⟩

theorem readMagnitude_sound {l rest : List Char} {q : ℚ} (h : readMagnitude l = some (q, rest)) :
    ∃ i f fd e x, l = i ++ f ++ e ++ rest ∧ IntText i ∧ FracText f fd ∧ ExpText e x ∧
      q = magnitude i fd x := by
  unfold readMagnitude at h
  simp only [Option.bind_eq_bind, Option.bind_eq_some_iff] at h
  obtain ⟨⟨int, l₁⟩, hint, ⟨frac, l₂⟩, hfrac, ⟨exp, l₃⟩, hexp, h⟩ := h
  cases h
  obtain ⟨i, rfl, rfl, hi⟩ := readInt_sound hint
  obtain ⟨f, rfl, hf⟩ := readFrac_sound hfrac
  obtain ⟨e, rfl, he⟩ := readExp_sound hexp
  exact ⟨i, f, frac, e, exp, by simp, hi, hf, he, rfl⟩

theorem readNumber_sound : Sound readNumber NumberText := by
  intro l q rest h
  unfold readNumber at h
  split at h
  · obtain ⟨⟨q', rest'⟩, hq, h⟩ := Option.map_eq_some_iff.mp h
    cases h
    obtain ⟨i, f, fd, e, x, rfl, hi, hf, he, rfl⟩ := readMagnitude_sound hq
    exact ⟨_, rfl, .minus hi hf he⟩
  · obtain ⟨i, f, fd, e, x, rfl, hi, hf, he, rfl⟩ := readMagnitude_sound h
    exact ⟨_, rfl, .plain hi hf he⟩

theorem exists_skipWs (l : List Char) : ∃ w, Ws w ∧ l = w ++ skipWs l :=
  ⟨l.takeWhile isWs, fun _ hc => List.mem_takeWhile_imp hc, List.takeWhile_append_dropWhile.symm⟩

section

variable {α : Type*} {item : List Char → α → Prop} {read : List Char → Option (α × List Char)}

theorem readSeparated_sound (hread : Sound read item) {close : Char} {fuel : Nat} {l : List Char}
    {vs : List α} {rest : List Char} (h : readSeparated read close fuel l = some (vs, rest)) :
    ∃ t, l = t ++ close :: rest ∧ Separated item t vs := by
  induction fuel generalizing l vs with
  | zero => cases h
  | succ fuel ih =>
    rw [readSeparated] at h
    simp only [Option.bind_eq_bind, Option.bind_eq_some_iff] at h
    obtain ⟨⟨v, l₁⟩, hv, h⟩ := h
    obtain ⟨w, hw, hl⟩ := exists_skipWs l
    obtain ⟨w', hw', hl₁⟩ := exists_skipWs l₁
    obtain ⟨t, ht, htv⟩ := hread hv
    rw [ht] at hl
    split at h
    · cases h
    · next c l₂ hskip =>
      rw [hskip] at hl₁
      subst hl₁ hl
      split at h
      · next hc =>
        simp only [Option.bind_eq_some_iff] at h
        obtain ⟨⟨vs', l₃⟩, hvs, h⟩ := h
        cases h
        subst hc
        obtain ⟨more, rfl, hmore⟩ := ih hvs
        exact ⟨w ++ t ++ w' ++ ',' :: more, by simp, .cons hw htv hw' hmore⟩
      · split at h
        · next hc =>
          cases h
          subst hc
          exact ⟨w ++ t ++ w', by simp, .one hw htv hw'⟩
        · cases h

/-- Between brackets there is white space, or there are items. -/
theorem readBody_sound (hread : Sound read item) {close : Char} {fuel : Nat} {l : List Char}
    {vs : List α} {rest : List Char} (h : readBody read close fuel l = some (vs, rest)) :
    ∃ t, l = t ++ close :: rest ∧ (Ws t ∧ vs = [] ∨ Separated item t vs) := by
  unfold readBody at h
  split at h
  · next hclose =>
    cases h
    obtain ⟨w, hw, hl⟩ := exists_skipWs l
    obtain ⟨tail, htail⟩ := List.head?_eq_some_iff.mp hclose
    rw [htail] at hl ⊢
    exact ⟨w, hl, .inl ⟨hw, rfl⟩⟩
  · obtain ⟨t, hl, ht⟩ := readSeparated_sound hread h
    exact ⟨t, hl, .inr ht⟩

end

theorem readMember_sound {read : List Char → Option (Value × List Char)}
    (hread : Sound read ValueText) : Sound (readMember read) (MemberText ValueText) := by
  intro l m rest h
  unfold readMember at h
  split at h
  · next l =>
    simp only [Option.bind_eq_bind, Option.bind_eq_some_iff] at h
    obtain ⟨⟨key, l₁⟩, hkey, h⟩ := h
    obtain ⟨k, rfl, hk⟩ := readChars_sound hkey
    obtain ⟨w, hw, hl₁⟩ := exists_skipWs l₁
    split at h
    · next l₂ hskip =>
      simp only [Option.bind_eq_some_iff] at h
      obtain ⟨⟨v, l₃⟩, hv, h⟩ := h
      cases h
      obtain ⟨w', hw', hl₂⟩ := exists_skipWs l₂
      obtain ⟨t, ht, htv⟩ := hread hv
      rw [ht] at hl₂
      rw [hskip, hl₂] at hl₁
      rw [hl₁]
      exact ⟨'"' :: k ++ '"' :: w ++ ':' :: w' ++ t, by simp, .member hk hw hw' htv⟩
    · cases h
  · cases h

theorem readValue_sound (fuel : Nat) : Sound (readValue fuel) ValueText := by
  induction fuel with
  | zero =>
    intro l v rest h
    cases h
  | succ fuel ih =>
    intro l v rest h
    unfold readValue at h
    split at h
    · cases h
      exact ⟨_, rfl, .null⟩
    · cases h
      exact ⟨_, rfl, .yes⟩
    · cases h
      exact ⟨_, rfl, .no⟩
    all_goals
      obtain ⟨⟨r, rest'⟩, hr, h⟩ := Option.map_eq_some_iff.mp h
      cases h
    · obtain ⟨t, rfl, ht⟩ := readChars_sound hr
      exact ⟨'"' :: t ++ ['"'], by simp, .string ht⟩
    · obtain ⟨t, rfl, ⟨ht, rfl⟩ | ht⟩ := readBody_sound ih hr
      · exact ⟨'[' :: t ++ [']'], by simp, .emptyArray ht⟩
      · exact ⟨'[' :: t ++ [']'], by simp, .array ht⟩
    · obtain ⟨t, rfl, ⟨ht, rfl⟩ | ht⟩ := readBody_sound (readMember_sound ih) hr
      · exact ⟨'\x7b' :: t ++ ['\x7d'], by simp, .emptyObject ht⟩
      · exact ⟨'\x7b' :: t ++ ['\x7d'], by simp, .object ht⟩
    · obtain ⟨t, rfl, ht⟩ := readNumber_sound hr
      exact ⟨t, rfl, .number ht⟩

theorem text_of_parse {text : List Char} {v : Value} (h : parse text = some v) : Text text v := by
  unfold parse at h
  simp only [Option.bind_eq_bind, Option.bind_eq_some_iff] at h
  obtain ⟨⟨v', rest⟩, hv, h⟩ := h
  split at h
  · next hrest =>
    cases h
    obtain ⟨w, hw, hl⟩ := exists_skipWs text
    obtain ⟨w', hw', hl'⟩ := exists_skipWs rest
    obtain ⟨t, ht, htv⟩ := readValue_sound _ hv
    rw [List.isEmpty_iff.mp hrest, List.append_nil] at hl'
    rw [ht, hl', ← List.append_assoc] at hl
    rw [hl]
    exact .text hw htv hw'
  · cases h

/-! ## What is of the grammar is read -/

theorem length_of_hexUnit {digits : List Char} {n : Nat} (h : hexUnit digits = some n) :
    ∃ a b c d, digits = [a, b, c, d] := by
  unfold hexUnit at h
  split at h
  · exact ⟨_, _, _, _, rfl⟩
  · cases h

theorem readEscape_short {e c : Char} (h : (e, c) ∈ shortEscapes) (rest : List Char) :
    readEscape (e :: rest) = some (c, rest) := by
  have hlookup : ∀ p ∈ shortEscapes, p.1 ≠ 'u' ∧ shortEscapes.lookup p.1 = some p.2 := by decide
  obtain ⟨hu, hc⟩ := hlookup _ h
  unfold readEscape
  split
  · next heq => exact absurd (List.cons.inj heq).1 hu
  · next heq =>
    obtain ⟨rfl, rfl⟩ := List.cons.inj heq
    rw [hc, Option.map_some]
  · next heq => cases heq

theorem readChar_text {t : List Char} {c : Char} (h : CharText t c) (rest : List Char) :
    readChar (t ++ rest) = some (c, rest) := by
  cases h with
  | unescaped hlow hquote hslash =>
    show readChar (c :: rest) = _
    unfold readChar
    split
    · next heq => exact absurd (List.cons.inj heq).1 hslash
    · next heq =>
      obtain ⟨rfl, rfl⟩ := List.cons.inj heq
      rw [if_pos ⟨hlow, hquote⟩]
    · next heq => cases heq
  | short hmem => exact readEscape_short hmem rest
  | unit hunit hvalid =>
    obtain ⟨a, b, c, d, rfl⟩ := length_of_hexUnit hunit
    show readEscape ('u' :: a :: b :: c :: d :: rest) = _
    simp [readEscape, hunit, hvalid]
  | @pair _ _ hi lo _ hhigh hlow hjoined =>
    obtain ⟨a, b, c, d, rfl⟩ := length_of_hexUnit hhigh
    obtain ⟨a', b', c', d', rfl⟩ := length_of_hexUnit hlow
    show readEscape ('u' :: a :: b :: c :: d :: '\\' :: 'u' :: a' :: b' :: c' :: d' :: rest) = _
    -- half a pair is no character
    have hinvalid : ¬hi.isValidChar := by
      unfold joined at hjoined
      split at hjoined
      · next hrange =>
        rintro (hlow | hhigh) <;> omega
      · cases hjoined
    simp [readEscape, hhigh, hinvalid, hlow, hjoined]

theorem CharText.head {t : List Char} {c : Char} (h : CharText t c) :
    ∃ d more, t = d :: more ∧ d ≠ '"' := by
  cases h with
  | unescaped _ hquote _ => exact ⟨_, _, rfl, hquote⟩
  | short _ => exact ⟨_, _, rfl, by decide⟩
  | unit _ _ => exact ⟨_, _, rfl, by decide⟩
  | pair _ _ _ => exact ⟨_, _, rfl, by decide⟩

theorem readChars_text {t s : List Char} (h : CharsText t s) (rest : List Char) :
    ∀ {fuel : Nat}, t.length < fuel → readChars fuel (t ++ '"' :: rest) = some (s, rest) := by
  induction h with
  | nil =>
    intro fuel hfuel
    obtain ⟨fuel, rfl⟩ : ∃ n, fuel = n + 1 := ⟨fuel - 1, by omega⟩
    rfl
  | @cons t more s c hc _ ih =>
    intro fuel hfuel
    have hread := readChar_text hc (more ++ '"' :: rest)
    obtain ⟨d, t', rfl, hd⟩ := hc.head
    rw [List.length_append, List.length_cons] at hfuel
    obtain ⟨fuel, rfl⟩ : ∃ n, fuel = n + 1 := ⟨fuel - 1, by omega⟩
    rw [List.append_assoc, readChars, hread, if_neg (by simpa using hd)]
    simp [ih (by omega : more.length < fuel)]

/-- No digit comes first. -/
def NoDigit (l : List Char) : Prop := ∀ c, l.head? = some c → c.isDigit = false

/-- Nothing that comes first could belong to a number before it. -/
def NumberEnds (l : List Char) : Prop :=
  NoDigit l ∧ ∀ c, l.head? = some c → c ∉ ['.', 'e', 'E']

theorem readDigits_text {t rest : List Char} (h : Digits t) (hrest : NoDigit rest) :
    readDigits (t ++ rest) = some (t, rest) := by
  obtain ⟨hne, hall⟩ := h
  have hnil : rest.takeWhile Char.isDigit = [] ∧ rest.dropWhile Char.isDigit = rest := by
    cases rest with
    | nil => exact ⟨rfl, rfl⟩
    | cons c rest => simp [hrest c rfl]
  obtain ⟨d, ds, rfl⟩ := List.exists_cons_of_ne_nil hne
  unfold readDigits
  rw [List.takeWhile_append_of_pos hall, List.dropWhile_append_of_pos hall, hnil.1, hnil.2,
    List.append_nil]

theorem readInt_text {t rest : List Char} (h : IntText t) (hrest : NoDigit rest) :
    readInt (t ++ rest) = some (t, rest) := by
  unfold readInt
  rw [readDigits_text h.1 hrest]
  simpa using h.2

theorem FracText.noDigit {f fd rest : List Char} (h : FracText f fd) (hrest : NoDigit rest) :
    NoDigit (f ++ rest) := by
  cases h with
  | none => exact hrest
  | digits _ =>
    rintro c hc
    cases hc
    rfl

theorem ExpText.numberEnds {e rest : List Char} {x : Int} (h : ExpText e x)
    (hrest : NumberEnds rest) : NoDigit (e ++ rest) ∧ (e ++ rest).head? ≠ some '.' := by
  cases h with
  | none => exact ⟨hrest.1, fun hdot => hrest.2 _ hdot (by simp)⟩
  | exp he _ =>
    have hall : ∀ c ∈ ['e', 'E'], c.isDigit = false ∧ c ≠ '.' :=
      List.all_iff_forall_prop.mp (by decide)
    refine ⟨fun c hc => ?_, fun hdot => ?_⟩
    · cases hc
      exact (hall _ he).1
    · cases hdot
      exact (hall _ he).2 rfl

theorem readFrac_text {f fd rest : List Char} (h : FracText f fd) (hrest : NoDigit rest)
    (hdot : rest.head? ≠ some '.') : readFrac (f ++ rest) = some (fd, rest) := by
  cases h with
  | none =>
    show readFrac rest = _
    unfold readFrac
    split
    · exact absurd rfl hdot
    · rfl
  | digits hds => exact readDigits_text hds hrest

theorem readSigned_text {t rest : List Char} {n : Int} (h : SignedDigits t n)
    (hrest : NoDigit rest) : readSigned (t ++ rest) = some (n, rest) := by
  cases h with
  | plain hds =>
    have hread := readDigits_text hds hrest
    obtain ⟨hne, hall⟩ := hds
    obtain ⟨d, ds, rfl⟩ := List.exists_cons_of_ne_nil hne
    have hd := hall d (List.mem_cons_self ..)
    rw [List.cons_append] at hread ⊢
    unfold readSigned
    split
    · next heq =>
      obtain ⟨rfl, -⟩ := List.cons.inj heq
      cases hd
    · next heq =>
      obtain ⟨rfl, -⟩ := List.cons.inj heq
      cases hd
    · rw [hread, Option.map_some]
  | plus hds =>
    show (readDigits (_ ++ rest)).map _ = _
    rw [readDigits_text hds hrest, Option.map_some]
  | minus hds =>
    show (readDigits (_ ++ rest)).map _ = _
    rw [readDigits_text hds hrest, Option.map_some]

theorem readExp_text {e rest : List Char} {x : Int} (h : ExpText e x) (hrest : NumberEnds rest) :
    readExp (e ++ rest) = some (x, rest) := by
  cases h with
  | none =>
    cases rest with
    | nil => rfl
    | cons c rest =>
      have hc := hrest.2 c rfl
      simp only [List.mem_cons, List.not_mem_nil, not_or] at hc
      show readExp (c :: rest) = _
      simp [readExp, hc]
  | exp he ht =>
    rw [List.cons_append, readExp, if_pos he]
    exact readSigned_text ht hrest.1

theorem readMagnitude_text {i f fd e rest : List Char} {x : Int} (hi : IntText i)
    (hf : FracText f fd) (he : ExpText e x) (hrest : NumberEnds rest) :
    readMagnitude (i ++ f ++ e ++ rest) = some (magnitude i fd x, rest) := by
  obtain ⟨hdigit, hdot⟩ := he.numberEnds hrest
  unfold readMagnitude
  rw [List.append_assoc, List.append_assoc, readInt_text hi (hf.noDigit hdigit)]
  simp [readFrac_text hf hdigit hdot, readExp_text he hrest]

theorem readNumber_text {t rest : List Char} {q : ℚ} (h : NumberText t q) (hrest : NumberEnds rest) :
    readNumber (t ++ rest) = some (q, rest) := by
  cases h with
  | @plain i f fd e x hi hf he =>
    have hread := readMagnitude_text hi hf he hrest
    obtain ⟨⟨hne, hall⟩, -⟩ := hi
    obtain ⟨d, ds, rfl⟩ := List.exists_cons_of_ne_nil hne
    have hd := hall d (List.mem_cons_self ..)
    simp only [List.cons_append] at hread ⊢
    unfold readNumber
    split
    · next heq =>
      obtain ⟨rfl, -⟩ := List.cons.inj heq
      cases hd
    · exact hread
  | minus hi hf he =>
    show (readMagnitude (_ ++ rest)).map _ = _
    rw [readMagnitude_text hi hf he hrest, Option.map_some]

theorem skipWs_append {w : List Char} (h : Ws w) (l : List Char) : skipWs (w ++ l) = skipWs l :=
  List.dropWhile_append_of_pos h

theorem skipWs_cons {c : Char} (h : isWs c = false) (l : List Char) : skipWs (c :: l) = c :: l := by
  rw [skipWs, List.dropWhile_cons_of_neg (by simp [h])]

/-- After an item comes white space, or what ends it. -/
theorem numberEnds_ws {w : List Char} (hw : Ws w) {c : Char} (hc : c ∈ [',', ']', '\x7d'])
    (l : List Char) : NumberEnds (w ++ c :: l) := by
  have hall : ∀ d ∈ [' ', '\t', '\n', '\r', ',', ']', '\x7d'],
      d.isDigit = false ∧ d ∉ ['.', 'e', 'E'] := List.all_iff_forall_prop.mp (by decide)
  have hhead : ∀ d, (w ++ c :: l).head? = some d →
      d ∈ [' ', '\t', '\n', '\r', ',', ']', '\x7d'] := by
    cases w with
    | nil =>
      rintro d hd
      cases hd
      exact List.mem_append_right [' ', '\t', '\n', '\r'] hc
    | cons d w =>
      rintro _ hd
      cases hd
      have hd := hw d (List.mem_cons_self ..)
      simp only [isWs, Bool.or_eq_true, decide_eq_true_eq] at hd
      rcases hd with ((rfl | rfl) | rfl) | rfl <;> decide
  exact ⟨fun d hd => (hall d (hhead d hd)).1, fun d hd => (hall d (hhead d hd)).2⟩

section

variable {α : Type*} {item : List Char → α → Prop} {read : List Char → Option (α × List Char)}
  {close : Char} {n : Nat}

/-- Items are read between commas, if each is, and none begins like what may stand before it. -/
theorem readSeparated_text
    (hhead : ∀ {t v}, item t v → ∃ c t', t = c :: t' ∧ isWs c = false ∧ c ≠ close)
    (hread : ∀ {t v rest}, item t v → t.length ≤ n → NumberEnds rest →
      read (t ++ rest) = some (v, rest))
    (hclose : close ∈ [']', '\x7d']) {text : List Char} {vs : List α}
    (h : Separated item text vs) (hn : text.length ≤ n) (rest : List Char) :
    ∀ {fuel : Nat}, text.length ≤ fuel →
      readSeparated read close fuel (text ++ close :: rest) = some (vs, rest) := by
  have hends : isWs close = false ∧ close ≠ ',' :=
    List.all_iff_forall_prop.mp
      (by decide : ([']', '\x7d'].all fun c => isWs c = false ∧ c ≠ ',') = true) close hclose
  induction h with
  | @one w t w' v hw ht hw' =>
    intro fuel hfuel
    simp only [List.length_append] at hn hfuel
    have hv := hread ht (by omega) (numberEnds_ws hw' (List.mem_cons_of_mem _ hclose) rest)
    obtain ⟨c, t', rfl, hc, -⟩ := hhead ht
    obtain ⟨fuel, rfl⟩ : ∃ k, fuel = k + 1 :=
      ⟨fuel - 1, by simp only [List.length_cons] at hfuel; omega⟩
    have hskip : skipWs (w ++ (c :: t') ++ w' ++ close :: rest) =
        c :: t' ++ (w' ++ close :: rest) := by
      simp only [List.append_assoc, skipWs_append hw]
      exact skipWs_cons hc _
    rw [readSeparated, hskip, hv]
    simp [skipWs_append hw', skipWs_cons hends.1, hends.2]
  | @cons w t w' more v vs hw ht hw' _ ih =>
    intro fuel hfuel
    simp only [List.length_append, List.length_cons] at hn hfuel
    have hv := hread ht (by omega)
      (numberEnds_ws hw' (List.mem_cons_self ..) (more ++ close :: rest))
    obtain ⟨c, t', rfl, hc, -⟩ := hhead ht
    obtain ⟨fuel, rfl⟩ : ∃ k, fuel = k + 1 := ⟨fuel - 1, by omega⟩
    have hskip : skipWs (w ++ (c :: t') ++ w' ++ ',' :: more ++ close :: rest) =
        c :: t' ++ (w' ++ ',' :: (more ++ close :: rest)) := by
      simp only [List.append_assoc, skipWs_append hw]
      exact skipWs_cons hc _
    rw [readSeparated, hskip, hv]
    simp [skipWs_append hw', skipWs_cons (by decide : isWs ',' = false),
      ih (by omega) (by omega : more.length ≤ fuel)]

theorem Separated.head {text : List Char} {vs : List α} (h : Separated item text vs) :
    ∃ w t v more, text = w ++ t ++ more ∧ Ws w ∧ item t v := by
  cases h with
  | one hw ht _ => exact ⟨_, _, _, _, rfl, hw, ht⟩
  | cons hw ht _ _ => exact ⟨_, _, _, _, by simp only [List.append_assoc]; rfl, hw, ht⟩

theorem readBody_items
    (hhead : ∀ {t v}, item t v → ∃ c t', t = c :: t' ∧ isWs c = false ∧ c ≠ close)
    (hread : ∀ {t v rest}, item t v → t.length ≤ n → NumberEnds rest →
      read (t ++ rest) = some (v, rest))
    (hclose : close ∈ [']', '\x7d']) {text : List Char} {vs : List α}
    (h : Separated item text vs) (hn : text.length ≤ n) (rest : List Char) :
    readBody read close n (text ++ close :: rest) = some (vs, rest) := by
  have hitems := readSeparated_text hhead hread hclose h hn rest hn
  obtain ⟨w, t, v, more, rfl, hw, ht⟩ := h.head
  obtain ⟨c, t', rfl, hc, hne⟩ := hhead ht
  have hskip : skipWs (w ++ (c :: t') ++ more ++ close :: rest) =
      c :: (t' ++ (more ++ close :: rest)) := by
    simp only [List.append_assoc, skipWs_append hw]
    exact skipWs_cons hc _
  rw [readBody, hskip, if_neg (by simpa using hne)]
  exact hitems

theorem readBody_ws (hclose : close ∈ [']', '\x7d']) {w : List Char} (hw : Ws w)
    (rest : List Char) : readBody read close n (w ++ close :: rest) = some ([], rest) := by
  have hends : isWs close = false :=
    List.all_iff_forall_prop.mp (by decide : ([']', '\x7d'].all fun c => isWs c = false) = true)
      close hclose
  rw [readBody, skipWs_append hw, skipWs_cons hends, List.head?_cons, if_pos rfl]
  rfl

end

/-- A number begins with a digit or a minus. -/
theorem NumberText.head {t : List Char} {q : ℚ} (h : NumberText t q) :
    ∃ c t', t = c :: t' ∧ (c = '-' ∨ c.isDigit = true) := by
  cases h with
  | plain hi _ _ =>
    obtain ⟨⟨hne, hall⟩, -⟩ := hi
    obtain ⟨d, ds, rfl⟩ := List.exists_cons_of_ne_nil hne
    exact ⟨d, _, by simp only [List.cons_append]; rfl, .inr (hall d (List.mem_cons_self ..))⟩
  | minus _ _ _ => exact ⟨'-', _, rfl, .inl rfl⟩

theorem ValueText.head {t : List Char} {v : Value} (h : ValueText t v) :
    ∃ c t', t = c :: t' ∧ isWs c = false ∧ c ≠ ']' := by
  cases h with
  | number hq =>
    obtain ⟨c, t', rfl, hc⟩ := hq.head
    have hws : ∀ c, isWs c = true → c ≠ '-' ∧ c.isDigit = false := by
      intro c hc
      simp only [isWs, Bool.or_eq_true, decide_eq_true_eq] at hc
      rcases hc with ((rfl | rfl) | rfl) | rfl <;> decide
    refine ⟨c, t', rfl, Bool.eq_false_iff.mpr fun hisWs => ?_, ?_⟩
    · obtain ⟨hminus, hdigit⟩ := hws c hisWs
      rcases hc with hc | hc
      · exact hminus hc
      · rw [hdigit] at hc
        cases hc
    · rintro rfl
      rcases hc with hc | hc <;> cases hc
  | _ => exact ⟨_, _, rfl, by decide, by decide⟩

theorem readMember_text {read : List Char → Option (Value × List Char)} {n : Nat}
    (hread : ∀ {t v rest}, ValueText t v → t.length ≤ n → NumberEnds rest →
      read (t ++ rest) = some (v, rest)) {t rest : List Char} {m : List Char × Value}
    (h : MemberText ValueText t m) (hn : t.length ≤ n) (hrest : NumberEnds rest) :
    readMember read (t ++ rest) = some (m, rest) := by
  cases h with
  | @member k key w w' t v hk hw hw' ht =>
    simp only [List.length_append, List.length_cons] at hn
    have hv := hread ht (by omega) hrest
    have hkey := readChars_text hk (w ++ ':' :: (w' ++ (t ++ rest)))
      (by simp only [List.length_append, List.length_cons]; omega :
        k.length < (k ++ '"' :: (w ++ ':' :: (w' ++ (t ++ rest)))).length)
    have hskip : skipWs (w' ++ (t ++ rest)) = t ++ rest := by
      obtain ⟨c, t', rfl, hc, -⟩ := ht.head
      rw [skipWs_append hw']
      exact skipWs_cons hc _
    have htext : '"' :: k ++ '"' :: w ++ ':' :: w' ++ t ++ rest =
        '"' :: (k ++ '"' :: (w ++ ':' :: (w' ++ (t ++ rest)))) := by simp
    rw [htext, readMember, hkey]
    simp [skipWs_append hw, skipWs_cons (by decide : isWs ':' = false), hskip, hv]

theorem MemberText.head {t : List Char} {m : List Char × Value} (h : MemberText ValueText t m) :
    ∃ c t', t = c :: t' ∧ isWs c = false ∧ c ≠ '\x7d' := by
  cases h with
  | member _ _ _ _ => exact ⟨'"', _, rfl, by decide, by decide⟩

/-- Fuel for its length reads a value, up to what is not of its last number. -/
theorem readValue_text (fuel : Nat) {t rest : List Char} {v : Value} (h : ValueText t v)
    (hfuel : t.length ≤ fuel) (hrest : NumberEnds rest) :
    readValue fuel (t ++ rest) = some (v, rest) := by
  induction fuel generalizing t v rest with
  | zero =>
    obtain ⟨c, t', rfl, -⟩ := h.head
    exact absurd hfuel (by simp)
  | succ fuel ih =>
    cases h with
    | null => rfl
    | yes => rfl
    | no => rfl
    | number hq =>
      have hread := readNumber_text hq hrest
      obtain ⟨c, t', rfl, hc⟩ := hq.head
      rw [List.cons_append] at hread ⊢
      unfold readValue
      split
      all_goals try
        next heq =>
        obtain ⟨rfl, -⟩ := List.cons.inj heq
        exact absurd hc (by decide)
      rw [hread, Option.map_some]
    | @string t s hs =>
      simp only [List.length_append, List.length_cons] at hfuel
      have hread := readChars_text hs rest
        (by simp only [List.length_append, List.length_cons]; omega :
          t.length < (t ++ '"' :: rest).length)
      have htext : '"' :: t ++ ['"'] ++ rest = '"' :: (t ++ '"' :: rest) := by simp
      rw [htext, readValue, hread, Option.map_some]
    | @emptyArray w hw =>
      have htext : '[' :: w ++ [']'] ++ rest = '[' :: (w ++ ']' :: rest) := by simp
      rw [htext, readValue, readBody_ws (by decide) hw, Option.map_some]
    | @array t vs hvs =>
      simp only [List.length_append, List.length_cons, List.length_nil] at hfuel
      have htext : '[' :: t ++ [']'] ++ rest = '[' :: (t ++ ']' :: rest) := by simp
      rw [htext, readValue, readBody_items ValueText.head ih (by decide) hvs (by omega),
        Option.map_some]
    | @emptyObject w hw =>
      have htext : '\x7b' :: w ++ ['\x7d'] ++ rest = '\x7b' :: (w ++ '\x7d' :: rest) := by simp
      rw [htext, readValue, readBody_ws (by decide) hw, Option.map_some]
    | @object t ms hms =>
      simp only [List.length_append, List.length_cons, List.length_nil] at hfuel
      have htext : '\x7b' :: t ++ ['\x7d'] ++ rest = '\x7b' :: (t ++ '\x7d' :: rest) := by simp
      rw [htext, readValue, readBody_items MemberText.head (readMember_text ih) (by decide) hms
        (by omega), Option.map_some]

/-- **The reader accepts exactly the texts of the grammar, with the value they denote.** -/
theorem parse_eq_some_iff {text : List Char} {v : Value} : parse text = some v ↔ Text text v := by
  refine ⟨text_of_parse, fun h => ?_⟩
  cases h with
  | @text w t w' v hw ht hw' =>
    have hends : NumberEnds w' := by
      cases w' with
      | nil => exact ⟨fun _ hc => (nomatch hc), fun _ hc => (nomatch hc)⟩
      | cons d w' =>
        have hd := hw' d (List.mem_cons_self ..)
        have := numberEnds_ws (w := [d]) (by simpa [Ws] using hd) (List.mem_cons_self ..) []
        exact ⟨fun c hc => this.1 c hc, fun c hc => this.2 c hc⟩
    have hskip : skipWs (w ++ t ++ w') = t ++ w' := by
      obtain ⟨c, t', rfl, hc, -⟩ := ht.head
      rw [List.append_assoc, skipWs_append hw]
      exact skipWs_cons hc _
    have hread := readValue_text (w ++ t ++ w').length ht (by simp; omega) hends
    have hnil : skipWs w' = [] := by
      rw [← List.append_nil w', skipWs_append hw']
      rfl
    rw [parse, hskip, hread]
    simp [hnil]

/-- No text denotes two values. -/
theorem Text.unique {text : List Char} {v v' : Value} (h : Text text v) (h' : Text text v') :
    v = v' :=
  Option.some.inj ((parse_eq_some_iff.mpr h).symm.trans (parse_eq_some_iff.mpr h'))

/-! ## Integers -/

theorem eq_zero_of_head_toDigits {n : Nat} (h : (Nat.toDigits 10 n).head? = some '0') : n = 0 := by
  induction n using Nat.strong_induction_on with
  | _ n ih =>
    rw [Nat.toDigits_eq_if (by decide)] at h
    split at h
    · next hlt =>
      have hall : ∀ m < 10, [Nat.digitChar m].head? = some '0' → m = 0 := by decide
      exact hall n hlt h
    · next hle =>
      obtain ⟨c, cs, hcons⟩ := List.exists_cons_of_ne_nil (@Nat.toDigits_ne_nil (n / 10) 10)
      rw [hcons] at h
      have := ih (n / 10) (by omega) (by rw [hcons]; exact h)
      omega

theorem intText_toDigits (n : Nat) : IntText (Nat.toDigits 10 n) := by
  refine ⟨⟨Nat.toDigits_ne_nil, fun c hc => ?_⟩, fun hhead => ?_⟩
  · exact Nat.isDigit_of_mem_toDigits (by decide) (by decide) hc
  · rw [eq_zero_of_head_toDigits hhead]
    rfl

theorem magnitude_toDigits (n : Nat) : magnitude (Nat.toDigits 10 n) [] 0 = n := by
  rw [magnitude, decimal, List.append_nil, Nat.ofDigitChars_ten_toDigits]
  simp

/-- An integer is written as a number. -/
theorem numberText_int (n : Int) : NumberText (toString n).toList n := by
  rw [show toString n = n.repr from rfl, Int.repr_eq_if]
  split
  · next hpos =>
    have htext := NumberText.plain (intText_toDigits n.toNat) .none .none
    rw [magnitude_toDigits, List.append_nil, List.append_nil] at htext
    rw [Nat.toList_repr]
    convert htext
    exact_mod_cast (Int.toNat_of_nonneg hpos).symm
  · next hneg =>
    have htext := NumberText.minus (intText_toDigits (-n).toNat) .none .none
    rw [magnitude_toDigits, List.append_nil, List.append_nil] at htext
    rw [String.toList_append, Nat.toList_repr]
    have hn : ((-n).toNat : ℚ) = -(n : ℚ) := by
      exact_mod_cast Int.toNat_of_nonneg (by omega : 0 ≤ -n)
    rw [hn, neg_neg] at htext
    exact htext

end JsonText
