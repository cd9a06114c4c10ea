import Mathlib.Data.List.Forall2
import TabnasBnf.Lib.JsonText
import TabnasBnf.WireSpec

/-!
# The text of a document

Model of `to_jsonic` of `rs/src/spec.rs`: a JSON value as jsonic text, or, in strict mode, as JSON.

* An integer that is no safe JavaScript number is printed as the double nearest to it. Doubles are
  not modelled: the text is the parameter `jsNumber`. The product of the indent and the depth cannot
  overflow before the white space of one level has exhausted memory.
* `Json.value`, `ofValue`: a value of the document as one of the grammar, and back.
* **`toJsonic_strict`**: strict text is JSON, and reading it gives the value back.
-/

namespace TabnasBnf.Wire

open JsonText

/-! ## The printer -/

/-- `JsonicOptions`. -/
structure JsonicOptions where
  strict : Bool := false
  indent : Option Nat := none

/-- `is_ident`. -/
def isIdent : List Char → Bool
  | [] => false
  | c :: rest =>
    (c.isAlpha || c = '_' || c = '$') && rest.all fun c => c.isAlphanum || c = '_' || c = '$'

/-- `JS_SAFE_INTEGER`. -/
def jsSafeInteger : Nat := 9007199254740991

/-- One character of `quote`. -/
def quoteChar (ch c : Char) : List Char :=
  if c = '\\' then ['\\', '\\']
  else if c = ch then ['\\', ch]
  else if c = '\x08' then ['\\', 'b']
  else if c = '\t' then ['\\', 't']
  else if c = '\n' then ['\\', 'n']
  else if c = '\x0c' then ['\\', 'f']
  else if c = '\r' then ['\\', 'r']
  else if c.toNat < 0x20 then '\\' :: 'u' :: (Nat.toDigits 16 c.toNat).leftpad 4 '0'
  else [c]

/-- `quote`. -/
def quote (s : String) (ch : Char) : List Char := ch :: s.toList.flatMap (quoteChar ch) ++ [ch]

section

variable (jsNumber : Int → List Char) (opts : JsonicOptions)

/-- `pad`. -/
def pad (n : Nat) : List Char := List.replicate (opts.indent.getD 2 * n) ' '

/-- `sep`. -/
def sep : List Char := if opts.strict then [',', '\n'] else ['\n']

/-- `str_`. -/
def quoteStr (s : String) : List Char := if opts.strict then quote s '"' else quote s '\''

/-- `key`. -/
def quoteKey (k : String) : List Char :=
  if !opts.strict && isIdent k.toList then k.toList else quote k '"'

/-- `number`. -/
def numberText (n : Int) : List Char :=
  if n.natAbs ≤ jsSafeInteger then (toString n).toList else jsNumber n

/-- The lines of a container between its brackets. -/
def container (opening closing : Char) (depth : Nat) (lines : List (List Char)) : List Char :=
  if lines.isEmpty then [opening, closing]
  else opening :: '\n' :: List.intercalate (sep opts) lines ++ '\n' :: pad opts depth ++ [closing]

mutual
/-- `ser`. -/
def ser (depth : Nat) : Json → List Char
  | .null => ['n', 'u', 'l', 'l']
  | .bool b => if b then ['t', 'r', 'u', 'e'] else ['f', 'a', 'l', 's', 'e']
  | .num n => numberText jsNumber n
  | .str s => quoteStr opts s
  | .arr items => container opts '[' ']' depth (serItems (depth + 1) items)
  | .obj fields => container opts '\x7b' '\x7d' depth (serFields (depth + 1) fields)

/-- The lines of an array. -/
def serItems (depth : Nat) : List Json → List (List Char)
  | [] => []
  | x :: rest => (pad opts depth ++ ser depth x) :: serItems depth rest

/-- The lines of an object. -/
def serFields (depth : Nat) : List (String × Json) → List (List Char)
  | [] => []
  | e :: rest => (pad opts depth ++ serField depth e) :: serFields depth rest

/-- One field. -/
def serField (depth : Nat) : String × Json → List Char
  | (k, x) => quoteKey opts k ++ [':', ' '] ++ ser depth x
end

/-- `to_jsonic`. -/
def toJsonic (v : Json) : String := String.ofList (ser jsNumber opts 0 v)

end

/-! ## Values of the grammar -/

mutual
/-- A value of the document as the value its text denotes. -/
def Json.value : Json → Value
  | .null => .null
  | .bool b => .bool b
  | .num n => .number n
  | .str s => .string s.toList
  | .arr items => .array (itemValues items)
  | .obj fields => .object (fieldValues fields)

/-- The items of an array. -/
def itemValues : List Json → List Value
  | [] => []
  | x :: rest => x.value :: itemValues rest

/-- The fields of an object. -/
def fieldValues : List (String × Json) → List (List Char × Value)
  | [] => []
  | e :: rest => fieldValue e :: fieldValues rest

/-- One field. -/
def fieldValue : String × Json → List Char × Value
  | (k, x) => (k.toList, x.value)
end

mutual
/-- A value of the grammar as one of the document, which has integers alone. -/
def ofValue : Value → Option Json
  | .null => some .null
  | .bool b => some (.bool b)
  | .number q => if q.den = 1 then some (.num q.num) else none
  | .string s => some (.str (String.ofList s))
  | .array items => (ofItems items).map .arr
  | .object members => (ofMembers members).map .obj

/-- The items of an array. -/
def ofItems : List Value → Option (List Json)
  | [] => some []
  | v :: rest => do
    let x ← ofValue v
    let items ← ofItems rest
    some (x :: items)

/-- The members of an object. -/
def ofMembers : List (List Char × Value) → Option (List (String × Json))
  | [] => some []
  | m :: rest => do
    let e ← ofMember m
    let fields ← ofMembers rest
    some (e :: fields)

/-- One member. -/
def ofMember : List Char × Value → Option (String × Json)
  | (k, v) => (ofValue v).map (String.ofList k, ·)
end

/-- The value of a JSON text, if its numbers are integers. -/
def readJson (text : String) : Option Json := (parse text.toList).bind ofValue

mutual
theorem ofValue_value : ∀ v : Json, ofValue v.value = some v
  | .null => rfl
  | .bool _ => rfl
  | .num n => by simp [Json.value, ofValue]
  | .str s => by simp [Json.value, ofValue]
  | .arr items => by rw [Json.value, ofValue, ofItems_itemValues items, Option.map_some]
  | .obj fields => by rw [Json.value, ofValue, ofMembers_fieldValues fields, Option.map_some]

theorem ofItems_itemValues : ∀ items : List Json, ofItems (itemValues items) = some items
  | [] => rfl
  | x :: rest => by simp [itemValues, ofItems, ofValue_value x, ofItems_itemValues rest]

theorem ofMembers_fieldValues :
    ∀ fields : List (String × Json), ofMembers (fieldValues fields) = some fields
  | [] => rfl
  | e :: rest => by
    simp [fieldValues, ofMembers, ofMember_fieldValue e, ofMembers_fieldValues rest]

theorem ofMember_fieldValue : ∀ e : String × Json, ofMember (fieldValue e) = some e
  | (k, x) => by simp [fieldValue, ofMember, ofValue_value x]
end

/-! ## Strict text -/

mutual
/-- Every number is a safe JavaScript integer. -/
def Json.Safe : Json → Prop
  | .num n => n.natAbs ≤ jsSafeInteger
  | .arr items => SafeItems items
  | .obj fields => SafeFields fields
  | .null => True
  | .bool _ => True
  | .str _ => True

/-- Every number of the items is. -/
def SafeItems : List Json → Prop
  | [] => True
  | x :: rest => x.Safe ∧ SafeItems rest

/-- Every number of the fields is. -/
def SafeFields : List (String × Json) → Prop
  | [] => True
  | e :: rest => SafeField e ∧ SafeFields rest

/-- Every number of one field is. -/
def SafeField : String × Json → Prop
  | (_, x) => x.Safe
end

/-- A control character is escaped as its code unit, and any other as itself. -/
theorem charText_quoteChar (c : Char) : CharText (quoteChar '"' c) c := by
  unfold quoteChar
  split
  · next hc =>
    subst hc
    exact .short (by decide)
  next hslash =>
  split
  · next hc =>
    subst hc
    exact .short (by decide)
  next hquote =>
  split
  · next hc => exact hc ▸ .short (by decide)
  split
  · next hc => exact hc ▸ .short (by decide)
  split
  · next hc => exact hc ▸ .short (by decide)
  split
  · next hc => exact hc ▸ .short (by decide)
  split
  · next hc => exact hc ▸ .short (by decide)
  split
  · next hcontrol =>
    have hunit : ∀ n < 0x20, hexUnit ((Nat.toDigits 16 n).leftpad 4 '0') = some n := by decide
    have htext := CharText.unit (hunit _ hcontrol) c.valid
    rwa [Char.ofNat_toNat] at htext
  · next hcontrol => exact .unescaped (Nat.le_of_not_lt hcontrol) hquote hslash

theorem charsText_flatMap (s : List Char) : CharsText (s.flatMap (quoteChar '"')) s := by
  induction s with
  | nil => exact .nil
  | cons c s ih => exact .cons (charText_quoteChar c) ih

theorem ws_pad (opts : JsonicOptions) (depth : Nat) : Ws (pad opts depth) := by
  intro c hc
  rw [List.eq_of_mem_replicate hc]
  rfl

/-- Lines that are joined by commas and line feeds are items between commas. -/
theorem separated_intercalate {α : Type} {item : List Char → α → Prop} {lines : List (List Char)}
    {vs : List α} (hne : lines ≠ [])
    (h : List.Forall₂ (fun line v => ∃ w t, Ws w ∧ item t v ∧ line = w ++ t) lines vs)
    {w w' : List Char} (hw : Ws w) (hw' : Ws w') :
    Separated item (w ++ List.intercalate [',', '\n'] lines ++ w') vs := by
  induction h generalizing w with
  | nil => exact absurd rfl hne
  | @cons line v lines vs hline hlines ih =>
    obtain ⟨p, t, hp, ht, rfl⟩ := hline
    have hwp : Ws (w ++ p) := fun c hc => (List.mem_append.mp hc).elim (hw c) (hp c)
    cases lines with
    | nil =>
      cases hlines
      have hone := Separated.one hwp ht hw'
      simpa [List.intercalate] using hone
    | cons line lines =>
      -- the line feed is white space before the next item
      have hmore := ih (List.cons_ne_nil _ _) (by simp [Ws, isWs] : Ws ['\n'])
      have hcons := Separated.cons hwp ht (by simp [Ws] : Ws []) hmore
      rw [List.intercalate_cons_cons]
      simpa using hcons

section

variable {jsNumber : Int → List Char} {opts : JsonicOptions}

theorem container_eq (hstrict : opts.strict = true) (opening closing : Char) (depth : Nat)
    (line : List Char) (lines : List (List Char)) :
    container opts opening closing depth (line :: lines) =
      opening :: (['\n'] ++ List.intercalate [',', '\n'] (line :: lines) ++
        ('\n' :: pad opts depth)) ++ [closing] := by
  simp [container, sep, hstrict]

mutual
/-- **What is printed in strict mode denotes the value printed.** -/
theorem valueText_ser (hstrict : opts.strict = true) :
    ∀ (v : Json) (depth : Nat), v.Safe → ValueText (ser jsNumber opts depth v) v.value
  | .null, _, _ => .null
  | .bool true, _, _ => .yes
  | .bool false, _, _ => .no
  | .num n, _, h => by
    rw [Json.Safe] at h
    rw [ser, numberText, if_pos h]
    exact .number (numberText_int n)
  | .str s, _, _ => by
    rw [ser, quoteStr, if_pos hstrict]
    exact .string (charsText_flatMap s.toList)
  | .arr [], _, _ => .emptyArray (by simp [Ws] : Ws [])
  | .arr (x :: rest), depth, h => by
    rw [Json.Safe] at h
    have hlines := forall₂_serItems hstrict (x :: rest) (depth + 1) h
    have hpad : Ws ('\n' :: pad opts depth) := List.forall_mem_cons.mpr ⟨rfl, ws_pad opts depth⟩
    rw [ser, serItems, container_eq hstrict]
    rw [serItems] at hlines
    exact .array (separated_intercalate (List.cons_ne_nil _ _) hlines (by simp [Ws, isWs]) hpad)
  | .obj [], _, _ => .emptyObject (by simp [Ws] : Ws [])
  | .obj (e :: rest), depth, h => by
    rw [Json.Safe] at h
    have hlines := forall₂_serFields hstrict (e :: rest) (depth + 1) h
    have hpad : Ws ('\n' :: pad opts depth) := List.forall_mem_cons.mpr ⟨rfl, ws_pad opts depth⟩
    rw [ser, serFields, container_eq hstrict]
    rw [serFields] at hlines
    exact .object (separated_intercalate (List.cons_ne_nil _ _) hlines (by simp [Ws, isWs]) hpad)

theorem forall₂_serItems (hstrict : opts.strict = true) :
    ∀ (items : List Json) (depth : Nat), SafeItems items →
      List.Forall₂ (fun line v => ∃ w t, Ws w ∧ ValueText t v ∧ line = w ++ t)
        (serItems jsNumber opts depth items) (itemValues items)
  | [], _, _ => .nil
  | x :: rest, depth, h => by
    rw [SafeItems] at h
    rw [serItems, itemValues]
    exact .cons ⟨_, _, ws_pad opts depth, valueText_ser hstrict x depth h.1, rfl⟩
      (forall₂_serItems hstrict rest depth h.2)

theorem forall₂_serFields (hstrict : opts.strict = true) :
    ∀ (fields : List (String × Json)) (depth : Nat), SafeFields fields →
      List.Forall₂ (fun line m => ∃ w t, Ws w ∧ MemberText ValueText t m ∧ line = w ++ t)
        (serFields jsNumber opts depth fields) (fieldValues fields)
  | [], _, _ => .nil
  | e :: rest, depth, h => by
    rw [SafeFields] at h
    rw [serFields, fieldValues]
    exact .cons ⟨_, _, ws_pad opts depth, memberText_serField hstrict e depth h.1, rfl⟩
      (forall₂_serFields hstrict rest depth h.2)

theorem memberText_serField (hstrict : opts.strict = true) :
    ∀ (e : String × Json) (depth : Nat), SafeField e →
      MemberText ValueText (serField jsNumber opts depth e) (fieldValue e)
  | (k, x), depth, h => by
    rw [SafeField] at h
    have hmember := MemberText.member (charsText_flatMap k.toList) (by simp [Ws] : Ws [])
      (by simp [Ws, isWs] : Ws [' ']) (valueText_ser hstrict x depth h)
    rw [serField, fieldValue, quoteKey, hstrict]
    simpa [quote] using hmember
end

end

/-- **Strict text is JSON, whatever the strings, the nesting and the indent, and reading it gives
the value back.** -/
theorem toJsonic_strict (jsNumber : Int → List Char) (indent : Option Nat) (v : Json)
    (h : v.Safe) :
    Text (toJsonic jsNumber ⟨true, indent⟩ v).toList v.value ∧
      readJson (toJsonic jsNumber ⟨true, indent⟩ v) = some v := by
  have hvalue := @valueText_ser jsNumber ⟨true, indent⟩ rfl v 0 h
  have htext : Text (toJsonic jsNumber ⟨true, indent⟩ v).toList v.value := by
    have := Text.text (by simp [Ws] : Ws []) hvalue (by simp [Ws] : Ws [])
    rw [toJsonic, String.toList_ofList]
    simpa using this
  refine ⟨htext, ?_⟩
  rw [readJson, parse_eq_some_iff.mpr htext, Option.bind_some, ofValue_value]

/-- Control characters, nesting and the largest number there is. -/
theorem toJsonic_strict_controls :
    readJson (toJsonic (fun _ => []) ⟨true, some 4⟩
        (.obj [("a\t\x0b\"\\", .arr [.num (-9007199254740991), .obj [], .str "\x00/\r"])])) =
      some (.obj [("a\t\x0b\"\\", .arr [.num (-9007199254740991), .obj [], .str "\x00/\r"])]) :=
  (toJsonic_strict (fun _ => []) (some 4) _
    (by simp [Json.Safe, SafeItems, SafeFields, SafeField, jsSafeInteger])).2

end TabnasBnf.Wire
