import TabnasBnf.AttachActions
import TabnasBnf.Factor

/-!
# The recognition grammar

Model of `to_recognition_spec` of `rs/src/spec.rs`: a copy of the emitted document without the
actions that build a tree or a value. One copier walks options and rules alike and goes by the
names of the fields (`cloneRecognition`).

* `EmittedSpec` says what the compiler writes, and attachments keep it.
* **`toRecognitionSpec_keeps`**: exactly when the copy keeps the options and the rules, up to the
  actions. A token set that is named like a hook is taken for one.

The order of the entries left in a `k`, which `swap_remove` disturbs, is not modelled.
-/

namespace TabnasBnf.Wire

/-- `REF_FIELDS`. -/
def refFields : List String := ["a", "bo", "bc"]

/-- `TREE_BUILTINS`. -/
def treeBuiltins : List String :=
  ["@node$", "@capture$", "@bubble$", "@fold$", "@object$", "@array$", "@reset$", "@key$",
    "@setval$", "@push$", "@value$"]

/-- `TREE_CONFIG_KEYS`. -/
def treeConfigKeys : List String :=
  ["node$", "capture$", "fold$", "object$", "array$", "key$", "setval$", "push$", "value$"]

/-- Whether a value is a string that is dropped. -/
def droppedStr (dropped : String → Bool) : Json → Bool
  | .str s => dropped s
  | _ => false

/-- A list of actions without those dropped. -/
def keptActions (dropped : String → Bool) (list : List Json) : Option Json :=
  match list.filter (!droppedStr dropped ·) with
  | [] => none
  | [one] => some one
  | kept => some (.arr kept)

/-- Fields without the configuration of the builders; nothing is written of an empty `k`. -/
def keptConfig (fields : Fields) : Option Json :=
  match fields.filter fun e => !treeConfigKeys.contains e.1 with
  | [] => none
  | kept => some (.obj kept)

mutual
/-- `clone_recognition`. -/
def cloneRecognition (dropped : String → Bool) : Json → Json
  | .arr items => .arr (cloneItems dropped items)
  | .obj fields => .obj (cloneFields dropped fields)
  | .null => .null
  | .bool b => .bool b
  | .num n => .num n
  | .str s => .str s

/-- `clone_recognition` on the items of an array. -/
def cloneItems (dropped : String → Bool) : List Json → List Json
  | [] => []
  | x :: rest => cloneRecognition dropped x :: cloneItems dropped rest

/-- `clone_recognition` on the fields of an object, whose names are distinct. -/
def cloneFields (dropped : String → Bool) : List (String × Json) → List (String × Json)
  | [] => []
  | e :: rest => (cloneField dropped e).toList ++ cloneFields dropped rest

/-- One field. -/
def cloneField (dropped : String → Bool) : String × Json → Option (String × Json)
  | (key, .str s) => if refFields.contains key && dropped s then none else some (key, .str s)
  | (key, .arr items) =>
    if refFields.contains key then (keptActions dropped items).map (key, ·)
    else some (key, .arr (cloneItems dropped items))
  | (key, .obj fields) =>
    if key = "k" then (keptConfig (cloneFields dropped fields)).map (key, ·)
    else some (key, .obj (cloneFields dropped fields))
  | (key, .null) => some (key, .null)
  | (key, .bool b) => some (key, .bool b)
  | (key, .num n) => some (key, .num n)
end

mutual
/-- `scan`: whether a field other than a hook names a reference. -/
def namesRef (isRef : String → Bool) : Json → Bool
  | .arr items => itemsNameRef isRef items
  | .obj fields => fieldsNameRef isRef fields
  | _ => false

/-- `scan` on the items of an array. -/
def itemsNameRef (isRef : String → Bool) : List Json → Bool
  | [] => false
  | x :: rest => namesRef isRef x || itemsNameRef isRef rest

/-- `scan` on the fields of an object. -/
def fieldsNameRef (isRef : String → Bool) : List (String × Json) → Bool
  | [] => false
  | e :: rest => fieldNamesRef isRef e || fieldsNameRef isRef rest

/-- `scan` on one field. -/
def fieldNamesRef (isRef : String → Bool) : String × Json → Bool
  | (key, .str s) => !refFields.contains key && isRef s
  | (_, .arr items) => itemsNameRef isRef items
  | (_, .obj fields) => fieldsNameRef isRef fields
  | _ => false
end

/-- `control_ref_rules`. -/
def controlRefRules (isRef : String → Bool) (rules : Fields) : List String :=
  ((rules.filter fun e => namesRef isRef e.2).map Prod.fst).mergeSort fun a b =>
    !decide (encodeUtf16 b < encodeUtf16 a)

/-! ## The document -/

/-- `to_value` of an alternate: the mark stays behind. -/
def AltSpec.toValue (a : AltSpec) : Json := .obj a.fields

/-- `to_value` of a rule. -/
def RuleSpec.toValue (rs : RuleSpec) : Json :=
  .obj (("open", .arr (rs.opens.map AltSpec.toValue)) ::
    (rs.close.map fun close => ("close", .arr (close.map AltSpec.toValue))).toList)

/-- `rules_value`. -/
def rulesValue (rules : List (String × Option RuleSpec)) : Fields :=
  rules.map fun e => (e.1, (e.2.map RuleSpec.toValue).getD .null)

/-- `CompileError`. -/
structure CompileError where
  message : String
  rules : List String

section

variable {σ ε : Type}

/-- Whether a string names a reference of the spec. -/
def GrammarSpec.isRef (spec : GrammarSpec σ ε) (s : String) : Bool := (spec.refs.lookup s).isSome

/-- `is_dropped`. -/
def GrammarSpec.isDropped (spec : GrammarSpec σ ε) (s : String) : Bool :=
  spec.isRef s || treeBuiltins.contains s

/-- `to_recognition_spec`; `version` is the engine's `BUILTIN_SCHEMA_VERSION`. -/
def toRecognitionSpec (diag : String) (version : Int) (spec : GrammarSpec σ ε) :
    Except CompileError Fields :=
  let rules := rulesValue spec.rule
  let offenders := controlRefRules spec.isRef rules
  if !offenders.isEmpty then
    .error ⟨diag ++ ": grammar needs control functions (probe / unbounded lookahead) and " ++
      "cannot be emitted as a pure recognition grammar; recompile with `builtins: true`. " ++
      "Offending rule(s): " ++ ", ".intercalate offenders, offenders⟩
  else
    .ok (cloneFields spec.isDropped [("options", .obj spec.options), ("rule", .obj rules)] ++
      ("v", .num version) :: (spec.metadata.map fun m => ("meta", m)).toList)

end

/-! ## What the compiler writes -/

/-- The name of a token, which begins with `#`. -/
def TokenName (name : String) : Prop := name.toList.head? = some '#'

/-- The options of an emitted spec. -/
def emittedOptions (fixed : List (String × Option String)) (start : String) (empty : Bool)
    (patterns : List (String × String)) (sets : List (String × List String)) : Fields :=
  [("fixed", .obj [("token", .obj (fixed.map fun e => (e.1, (e.2.map Json.str).getD .null)))]),
    ("rule", .obj [("start", .str start)]), ("lex", .obj [("empty", .bool empty)])] ++
  (if patterns.isEmpty then []
    else [("match", .obj [("token", .obj (patterns.map fun e => (e.1, .str e.2)))])]) ++
  if sets.isEmpty then []
  else [("tokenSet", .obj (sets.map fun e => (e.1, .arr (e.2.map Json.str))))]

/-- A field of an emitted alternate. -/
inductive EmittedField : String × Json → Prop
  | text (key s : String) (h : key ∈ ["s", "p", "r", "g", "c"]) : EmittedField (key, .str s)
  | back (n : Int) : EmittedField ("b", .num n)
  | counters (key : String) (ns : List (String × Int)) (h : key ∈ ["n", "c"]) :
    EmittedField (key, .obj (ns.map fun e => (e.1, .num e.2)))
  | action (s : String) : EmittedField ("a", .str s)
  | actions (list : List String) : EmittedField ("a", .arr (list.map Json.str))
  | config (fields : Fields)
    (h : ∀ e ∈ fields, e.1 ∈ treeConfigKeys ∨ ∃ s, e = ("pd_d", .str s)) :
    EmittedField ("k", .obj fields)

/-- An alternate of an emitted spec. -/
structure AltSpec.Emitted (a : AltSpec) : Prop where
  nodup : (a.fields.map Prod.fst).Nodup
  fields : ∀ e ∈ a.fields, EmittedField e

/-- An emitted spec with its token sets, actions attached or not. -/
structure EmittedSpec {σ ε : Type} (spec : GrammarSpec σ ε) (sets : List (String × List String)) :
    Prop where
  options : ∃ fixed start empty patterns,
    spec.options = emittedOptions fixed start empty patterns sets ∧
      (∀ e ∈ fixed, TokenName e.1) ∧ ∀ e ∈ patterns, TokenName e.1
  alts : ∀ name rs, (name, some rs) ∈ spec.rule → ∀ a ∈ rs.opens ++ rs.close.getD [], a.Emitted

/-- An action is appended to a string or to a list. -/
theorem AltSpec.Emitted.appendAction {a : AltSpec} (h : a.Emitted) (added : String) :
    (a.appendAction added).Emitted := by
  refine ⟨Table.nodup_keys_insert h.nodup _ _, fun e he => ?_⟩
  obtain he | rfl := Table.mem_insert he
  · exact h.fields e he
  · rw [AltSpec.get]
    cases hget : a.fields.lookup "a" with
    | none => exact .action added
    | some v =>
      have hv := h.fields _ (Table.mem_of_lookup hget)
      generalize ha : "a" = key at hv
      cases hv with
      | text key s hkey =>
        rw [← ha] at hkey
        exact absurd hkey (by decide)
      | back n => exact absurd ha (by decide)
      | counters key ns hkey =>
        rw [← ha] at hkey
        exact absurd hkey (by decide)
      | action s => exact .actions [s, added]
      | actions list =>
        have happ : list.map Json.str ++ [.str added] = (list ++ [added]).map Json.str := by simp
        rw [AltSpec.appended, happ]
        exact .actions (list ++ [added])
      | config fields _ => exact absurd ha (by decide)

theorem attachedAlts_emitted {alts : List AltSpec} (h : ∀ a ∈ alts, a.Emitted)
    (refs : Nat → List String) : ∀ a ∈ attachedAlts refs alts, a.Emitted := by
  intro a ha
  obtain ⟨i, hi, rfl⟩ := List.mem_mapIdx.mp ha
  have hstart := h _ (List.getElem_mem hi)
  generalize alts[i] = a at hstart
  generalize refs i = added
  induction added generalizing a with
  | nil => exact hstart
  | cons s added ih => exact ih _ (hstart.appendAction s)

/-- Attachments leave an emitted spec. -/
theorem EmittedSpec.attached {σ ε : Type} {spec₀ spec : GrammarSpec σ ε}
    {sets : List (String × List String)} {atts : List (Attachment σ ε)}
    {hooks : List ((String × String) × List (ActionFn σ ε))} (h : EmittedSpec spec₀ sets)
    (hatt : Attached spec₀ atts hooks spec) : EmittedSpec spec sets := by
  refine ⟨hatt.options ▸ h.options, fun name rs hrs a ha => ?_⟩
  rw [hatt.rules] at hrs
  obtain ⟨⟨name', rs₀⟩, hmem, heq⟩ := List.mem_map.mp hrs
  obtain ⟨rfl, hattached⟩ := Prod.mk.inj heq
  obtain ⟨rs₀, rfl, rfl⟩ := Option.map_eq_some_iff.mp hattached
  have halts := h.alts name' rs₀ hmem
  obtain ha | ha := List.mem_append.mp ha
  · exact attachedAlts_emitted (fun a ha => halts a (List.mem_append_left _ ha)) _ a ha
  · rw [attachedRule] at ha
    cases hclose : rs₀.close with
    | none =>
      rw [hclose] at ha
      exact absurd ha List.not_mem_nil
    | some close =>
      rw [hclose] at ha
      exact attachedAlts_emitted (fun a ha => halts a (by
        rw [hclose]
        exact List.mem_append_right _ ha)) _ a ha

/-! ## What is kept -/

/-- The fields of a `k`. -/
def configOf : Option Json → Fields
  | some (.obj fields) => fields
  | _ => []

/-- `v` is the alternate without the actions and the configuration that are dropped, and it names
no function. -/
structure KeepsAlt (isRef dropped : String → Bool) (a : AltSpec) (v : Json) : Prop where
  fields : ∃ fields, v = .obj fields ∧
    (∀ key ∈ ["s", "b", "p", "r", "n", "c", "g"], fields.lookup key = a.get key) ∧
    AltSpec.actionsOf (fields.lookup "a") = a.actions.filter (!dropped ·) ∧
    configOf (fields.lookup "k") = (a.k.getD []).filter (fun e => !treeConfigKeys.contains e.1) ∧
    ∀ key s, key ∉ refFields → fields.lookup key = some (.str s) → isRef s = false

/-- `v` is the rule with its alternates kept in order. -/
def KeepsRule (isRef dropped : String → Bool) : Option RuleSpec → Json → Prop
  | none, v => v = .null
  | some rs, v => ∃ opens close, v = .obj (("open", .arr opens) ::
      (close.map fun alts => ("close", Json.arr alts)).toList) ∧
    List.Forall₂ (KeepsAlt isRef dropped) rs.opens opens ∧
    Option.Rel (List.Forall₂ (KeepsAlt isRef dropped)) rs.close close

/-- `out` is the spec with its options and rules kept. -/
def Keeps {σ ε : Type} (spec : GrammarSpec σ ε) (out : Fields) : Prop :=
  out.lookup "options" = some (.obj spec.options) ∧
    ∃ rules, out.lookup "rule" = some (.obj rules) ∧
      List.Forall₂ (fun (e : String × Option RuleSpec) (e' : String × Json) =>
        e'.1 = e.1 ∧ KeepsRule spec.isRef spec.isDropped e.2 e'.2) spec.rule rules

section

variable {dropped isRef : String → Bool}

theorem cloneFields_cons (e : String × Json) (fields : Fields) :
    cloneFields dropped (e :: fields) = (cloneField dropped e).toList ++ cloneFields dropped fields :=
  rfl

theorem cloneFields_append (fields fields' : Fields) :
    cloneFields dropped (fields ++ fields') =
      cloneFields dropped fields ++ cloneFields dropped fields' := by
  induction fields with
  | nil => rfl
  | cons e fields ih =>
    rw [List.cons_append, cloneFields_cons, cloneFields_cons, ih, List.append_assoc]

/-- Fields that are all left as they are. -/
theorem cloneFields_eq {fields : Fields} (h : ∀ e ∈ fields, cloneField dropped e = some e) :
    cloneFields dropped fields = fields := by
  induction fields with
  | nil => rfl
  | cons e fields ih =>
    obtain ⟨he, hfields⟩ := List.forall_mem_cons.mp h
    rw [cloneFields_cons, he, ih hfields]
    rfl

/-- A field keeps its name. -/
theorem cloneField_key {e e' : String × Json} (h : cloneField dropped e = some e') :
    e'.1 = e.1 := by
  obtain ⟨key, v⟩ := e
  match v with
  | .null | .bool _ | .num _ =>
    obtain rfl := Option.some.inj h
    rfl
  | .str s =>
    simp only [cloneField] at h
    split at h
    · cases h
    · obtain rfl := Option.some.inj h
      rfl
  | .arr items =>
    simp only [cloneField] at h
    split at h
    · obtain ⟨_, -, rfl⟩ := Option.map_eq_some_iff.mp h
      rfl
    · obtain rfl := Option.some.inj h
      rfl
  | .obj fields =>
    simp only [cloneField] at h
    split at h
    · obtain ⟨_, -, rfl⟩ := Option.map_eq_some_iff.mp h
      rfl
    · obtain rfl := Option.some.inj h
      rfl

theorem keys_cloneFields {fields : Fields} :
    (cloneFields dropped fields).map Prod.fst ⊆ fields.map Prod.fst := by
  induction fields with
  | nil => exact List.Subset.refl _
  | cons e fields ih =>
    rw [cloneFields_cons, List.map_append, List.map_cons]
    refine List.append_subset.mpr ⟨?_, fun key hkey => List.mem_cons_of_mem _ (ih hkey)⟩
    cases hclone : cloneField dropped e with
    | none => exact List.nil_subset _
    | some e' =>
      intro key hkey
      obtain rfl := List.mem_singleton.mp hkey
      exact cloneField_key hclone ▸ List.mem_cons_self

theorem length_cloneFields (fields : Fields) :
    (cloneFields dropped fields).length ≤ fields.length := by
  induction fields with
  | nil => exact Nat.le_refl _
  | cons e fields ih =>
    rw [cloneFields_cons, List.length_append, List.length_cons]
    cases cloneField dropped e with
    | none => rw [Option.toList_none, List.length_nil]; omega
    | some e' => rw [Option.toList_some, List.length_singleton]; omega

/-- A field of the copy is the copy of the field. -/
theorem lookup_cloneFields {fields : Fields} (h : (fields.map Prod.fst).Nodup) (key : String) :
    (cloneFields dropped fields).lookup key =
      (fields.lookup key).bind fun v => (cloneField dropped (key, v)).map Prod.snd := by
  induction fields with
  | nil => rfl
  | cons e fields ih =>
    rw [List.map_cons, List.nodup_cons] at h
    rw [cloneFields_cons, List.lookup_append, List.lookup_cons, ih h.2]
    obtain ⟨name, v⟩ := e
    by_cases hkey : key = name
    · subst hkey
      have hgone : fields.lookup key = none := Table.lookup_eq_none h.1
      cases hclone : cloneField dropped (key, v) with
      | none => simp [hclone, hgone]
      | some e' =>
        obtain ⟨key', v'⟩ := e'
        obtain rfl : key' = key := cloneField_key hclone
        simp [hclone]
    · rw [beq_false_of_ne hkey]
      cases hclone : cloneField dropped (name, v) with
      | none => simp
      | some e' =>
        obtain ⟨name', v'⟩ := e'
        obtain rfl : name' = name := cloneField_key hclone
        simp [List.lookup_cons, beq_false_of_ne hkey]

theorem structural_notMem {key : String} (h : key ∈ ["s", "b", "p", "r", "n", "c", "g"]) :
    key ∉ refFields ∧ key ≠ "k" ∧ key ≠ "a" := by
  have hall : ∀ key ∈ ["s", "b", "p", "r", "n", "c", "g"],
      key ∉ refFields ∧ key ≠ "k" ∧ key ≠ "a" := by decide
  exact hall key h

theorem cloneField_num (key : String) (n : Int) :
    cloneField dropped (key, .num n) = some (key, .num n) := rfl

theorem cloneField_str {key : String} (h : key ∉ refFields) (s : String) :
    cloneField dropped (key, .str s) = some (key, .str s) := by
  simp [cloneField, h]

theorem cloneField_obj {key : String} (h : key ≠ "k") (fields : Fields) :
    cloneField dropped (key, .obj fields) = some (key, .obj (cloneFields dropped fields)) := by
  simp [cloneField, h]

theorem cloneField_arr {key : String} (h : key ∉ refFields) (items : List Json) :
    cloneField dropped (key, .arr items) = some (key, .arr (cloneItems dropped items)) := by
  simp [cloneField, h]

theorem cloneItems_map {α : Type} (f : α → Json) (l : List α) :
    cloneItems dropped (l.map f) = l.map fun a => cloneRecognition dropped (f a) := by
  induction l with
  | nil => rfl
  | cons a l ih => rw [List.map_cons, cloneItems, ih, List.map_cons]

theorem cloneFields_nums (ns : List (String × Int)) :
    cloneFields dropped (ns.map fun e => (e.1, .num e.2)) = ns.map fun e => (e.1, .num e.2) := by
  refine cloneFields_eq fun e he => ?_
  obtain ⟨_, -, rfl⟩ := List.mem_map.mp he
  exact cloneField_num _ _

/-! ## The alternates -/

/-- A field of the structure is left as it is. -/
theorem cloneField_structural {key : String} {v : Json}
    (hkey : key ∈ ["s", "b", "p", "r", "n", "c", "g"]) (h : EmittedField (key, v)) :
    cloneField dropped (key, v) = some (key, v) := by
  obtain ⟨href, hk, ha⟩ := structural_notMem hkey
  cases h with
  | text key s _ => exact cloneField_str href s
  | back n => rfl
  | counters key ns _ => rw [cloneField_obj hk, cloneFields_nums]
  | action s => exact absurd rfl ha
  | actions list => exact absurd rfl ha
  | config fields _ => exact absurd rfl hk

theorem filter_map_str (list : List String) :
    ((list.map Json.str).filter fun v => !droppedStr dropped v) =
      (list.filter (!dropped ·)).map Json.str := by
  rw [List.filter_map]
  rfl

/-- The actions that are left. -/
theorem actionsOf_clone {v : Json} (h : EmittedField ("a", v)) :
    AltSpec.actionsOf ((cloneField dropped ("a", v)).map Prod.snd) =
      (AltSpec.actionsOf (some v)).filter (!dropped ·) := by
  generalize ha : "a" = key at h
  cases h with
  | text key s hkey =>
    rw [← ha] at hkey
    exact absurd hkey (by decide)
  | back n => exact absurd ha (by decide)
  | counters key ns hkey =>
    rw [← ha] at hkey
    exact absurd hkey (by decide)
  | action s =>
    cases hs : dropped s <;> simp [cloneField, AltSpec.actionsOf, refFields, hs]
  | actions list =>
    have hmap : ∀ list : List String, (list.map Json.str).filterMap Json.asStr = list := by
      intro list
      rw [List.filterMap_map]
      exact List.filterMap_some
    have hkept : AltSpec.actionsOf (keptActions dropped (list.map Json.str)) =
        list.filter (!dropped ·) := by
      unfold keptActions
      rw [filter_map_str]
      rcases list.filter (!dropped ·) with _ | ⟨s, _ | ⟨s', rest⟩⟩
      · rfl
      · rfl
      · exact hmap (s :: s' :: rest)
    have hclone : cloneField dropped ("a", .arr (list.map Json.str)) =
        (keptActions dropped (list.map Json.str)).map ("a", ·) := by
      simp [cloneField, refFields]
    rw [hclone, Option.map_map]
    have hid : (Prod.snd ∘ fun v : Json => ("a", v)) = id := rfl
    rw [hid, Option.map_id, id, hkept]
    exact congrArg (List.filter _) (hmap list).symm
  | config fields _ => exact absurd ha (by decide)

/-- The configuration that is left. -/
theorem configOf_clone {v : Json} (h : EmittedField ("k", v)) :
    configOf ((cloneField dropped ("k", v)).map Prod.snd) =
      (configOf (some v)).filter fun e => !treeConfigKeys.contains e.1 := by
  generalize hk : "k" = key at h
  cases h with
  | text key s hkey =>
    rw [← hk] at hkey
    exact absurd hkey (by decide)
  | back n => exact absurd hk (by decide)
  | counters key ns hkey =>
    rw [← hk] at hkey
    exact absurd hkey (by decide)
  | action s => exact absurd hk (by decide)
  | actions list => exact absurd hk (by decide)
  | config fields hfields =>
    have hkept : (cloneFields dropped fields).filter (fun e => !treeConfigKeys.contains e.1) =
        fields.filter fun e => !treeConfigKeys.contains e.1 := by
      clear hk
      induction fields with
      | nil => rfl
      | cons e fields ih =>
        obtain ⟨he, hfields⟩ := List.forall_mem_cons.mp hfields
        rw [cloneFields_cons, List.filter_append, ih hfields, List.filter_cons]
        obtain htree | ⟨s, rfl⟩ := he
        · have hnone : ((cloneField dropped e).toList.filter fun e =>
              !treeConfigKeys.contains e.1) = [] := by
            refine List.filter_eq_nil_iff.mpr fun e' he' => ?_
            have hkey : e'.1 = e.1 := cloneField_key (Option.mem_toList.mp he')
            simpa [hkey] using htree
          rw [hnone, if_neg (by simpa using htree)]
          rfl
        · have hplain : (!treeConfigKeys.contains "pd_d") = true := by decide
          rw [cloneField_str (by decide), if_pos hplain, Option.toList_some, List.filter_cons,
            if_pos hplain]
          rfl
    have hclone : cloneField dropped ("k", .obj fields) =
        (keptConfig (cloneFields dropped fields)).map ("k", ·) := by
      simp [cloneField]
    rw [hclone, Option.map_map]
    have hid : (Prod.snd ∘ fun v : Json => ("k", v)) = id := rfl
    rw [hid, Option.map_id, id, keptConfig, hkept]
    generalize hl : fields.filter (fun e => !treeConfigKeys.contains e.1) = left
    cases left with
    | nil => exact hl.symm
    | cons e rest => exact hl.symm

/-- A string that is left outside the hooks was there. -/
theorem str_of_cloneField {key s : String} {v : Json} (h : key ∉ refFields)
    (hclone : cloneField dropped (key, v) = some (key, .str s)) : v = .str s := by
  match v with
  | .null | .bool _ | .num _ =>
    cases hclone
  | .str s' =>
    rw [cloneField_str h] at hclone
    obtain rfl := Json.str.inj (Prod.mk.inj (Option.some.inj hclone)).2
    rfl
  | .arr items =>
    rw [cloneField_arr h] at hclone
    cases hclone
  | .obj fields =>
    by_cases hk : key = "k"
    · subst hk
      have hkept : (keptConfig (cloneFields dropped fields)).map (("k", ·) : Json → String × Json) =
          some ("k", .str s) := by simpa [cloneField] using hclone
      obtain ⟨v, hv, heq⟩ := Option.map_eq_some_iff.mp hkept
      obtain rfl := (Prod.mk.inj heq).2
      unfold keptConfig at hv
      split at hv
      · cases hv
      · cases hv
    · rw [cloneField_obj hk] at hclone
      cases hclone

theorem fieldsNameRef_false {fields : Fields} (h : fieldsNameRef isRef fields = false) :
    ∀ e ∈ fields, fieldNamesRef isRef e = false := by
  induction fields with
  | nil => exact fun e he => absurd he List.not_mem_nil
  | cons e fields ih =>
    rw [fieldsNameRef, Bool.or_eq_false_iff] at h
    exact List.forall_mem_cons.mpr ⟨h.1, ih h.2⟩

theorem itemsNameRef_false {items : List Json} (h : itemsNameRef isRef items = false) :
    ∀ v ∈ items, namesRef isRef v = false := by
  induction items with
  | nil => exact fun v hv => absurd hv List.not_mem_nil
  | cons v items ih =>
    rw [itemsNameRef, Bool.or_eq_false_iff] at h
    exact List.forall_mem_cons.mpr ⟨h.1, ih h.2⟩

/-- **An alternate is kept.** -/
theorem keepsAlt_clone {a : AltSpec} (ha : a.Emitted) (href : namesRef isRef a.toValue = false) :
    KeepsAlt isRef dropped a (cloneRecognition dropped a.toValue) := by
  have hlookup := @lookup_cloneFields dropped _ ha.nodup
  have hshape : ∀ {key v}, a.get key = some v → EmittedField (key, v) := fun h =>
    ha.fields _ (Table.mem_of_lookup h)
  refine ⟨cloneFields dropped a.fields, rfl, fun key hkey => ?_, ?_, ?_, fun key s hkey hs => ?_⟩
  · rw [hlookup]
    cases hget : a.fields.lookup key with
    | none => exact hget.symm
    | some v =>
      rw [Option.bind_some, cloneField_structural hkey (hshape hget)]
      exact hget.symm
  · rw [hlookup, AltSpec.actions, AltSpec.get]
    cases hget : a.fields.lookup "a" with
    | none => rfl
    | some v => exact actionsOf_clone (hshape hget)
  · have hk : (a.k.getD []) = configOf (a.fields.lookup "k") := by
      rw [AltSpec.k, AltSpec.get]
      rcases a.fields.lookup "k" with _ | v
      · rfl
      · cases v <;> rfl
    rw [hlookup, hk]
    cases hget : a.fields.lookup "k" with
    | none => rfl
    | some v => exact configOf_clone (hshape hget)
  · rw [hlookup] at hs
    obtain ⟨v, hget, hclone⟩ := Option.bind_eq_some_iff.mp hs
    obtain ⟨⟨key', v'⟩, hclone, hv'⟩ := Option.map_eq_some_iff.mp hclone
    obtain rfl : v' = .str s := hv'
    obtain rfl : key' = key := cloneField_key hclone
    obtain rfl := str_of_cloneField hkey hclone
    have hnot := @fieldsNameRef_false isRef a.fields href _ (Table.mem_of_lookup hget)
    simpa [fieldNamesRef, hkey] using hnot

theorem keepsAlts_clone {alts : List AltSpec} (ha : ∀ a ∈ alts, a.Emitted)
    (href : itemsNameRef isRef (alts.map AltSpec.toValue) = false) :
    List.Forall₂ (KeepsAlt isRef dropped) alts
      (cloneItems dropped (alts.map AltSpec.toValue)) := by
  rw [cloneItems_map]
  refine List.forall₂_map_right_iff.mpr (List.forall₂_same.mpr fun a hmem => ?_)
  exact keepsAlt_clone (ha a hmem) (itemsNameRef_false href _ (List.mem_map_of_mem hmem))

/-- The fields of a rule. -/
theorem cloneFields_rule (opens : List Json) (close : Option (List Json)) :
    cloneFields dropped (("open", .arr opens) ::
        (close.map fun alts => ("close", Json.arr alts)).toList) =
      ("open", .arr (cloneItems dropped opens)) ::
        ((close.map (cloneItems dropped)).map fun alts => ("close", Json.arr alts)).toList := by
  rw [cloneFields_cons, cloneField_arr (by decide)]
  cases close with
  | none => rfl
  | some alts =>
    have hclose : cloneField dropped ("close", .arr alts) =
        some ("close", .arr (cloneItems dropped alts)) := cloneField_arr (by decide) alts
    show _ = [("open", Json.arr (cloneItems dropped opens)),
      ("close", Json.arr (cloneItems dropped alts))]
    rw [Option.map_some]
    show _ ++ cloneFields dropped [("close", Json.arr alts)] = _
    rw [cloneFields_cons, hclose]
    rfl

/-- A rule is no configuration: it has an `open`. -/
theorem cloneField_rule (name : String) (opens : List Json) (close : Option (List Json)) :
    cloneField dropped (name, .obj (("open", .arr opens) ::
        (close.map fun alts => ("close", Json.arr alts)).toList)) =
      some (name, .obj (("open", .arr (cloneItems dropped opens)) ::
        ((close.map (cloneItems dropped)).map fun alts => ("close", Json.arr alts)).toList)) := by
  by_cases hk : name = "k"
  · subst hk
    rw [cloneField, if_pos rfl, cloneFields_rule, keptConfig]
    cases close <;> rfl
  · rw [cloneField_obj hk, cloneFields_rule]

theorem RuleSpec.toValue_eq (rs : RuleSpec) :
    rs.toValue = .obj (("open", .arr (rs.opens.map AltSpec.toValue)) ::
      ((rs.close.map (List.map AltSpec.toValue)).map fun alts => ("close", Json.arr alts)).toList) := by
  rw [RuleSpec.toValue, Option.map_map]
  rfl

/-- **A rule is kept**, whatever its name. -/
theorem keepsRule_clone {name : String} {rs : Option RuleSpec}
    (ha : ∀ rule ∈ rs, ∀ a ∈ rule.opens ++ rule.close.getD [], a.Emitted)
    (href : namesRef isRef ((rs.map RuleSpec.toValue).getD .null) = false) :
    ∃ v, cloneField dropped (name, (rs.map RuleSpec.toValue).getD .null) = some (name, v) ∧
      KeepsRule isRef dropped rs v := by
  cases rs with
  | none => exact ⟨.null, rfl, rfl⟩
  | some rs =>
    have ha := ha rs rfl
    have href : namesRef isRef rs.toValue = false := href
    show ∃ v, cloneField dropped (name, rs.toValue) = some (name, v) ∧ _
    rw [RuleSpec.toValue_eq] at href ⊢
    have hrefs := fieldsNameRef_false href
    refine ⟨_, cloneField_rule name _ _, _, _, rfl, ?_, ?_⟩
    · exact keepsAlts_clone (fun a hmem => ha a (List.mem_append_left _ hmem))
        (hrefs _ List.mem_cons_self)
    · cases hclose : rs.close with
      | none => exact .none
      | some alts =>
        have hmem : ("close", Json.arr (alts.map AltSpec.toValue)) ∈
            ("open", Json.arr (rs.opens.map AltSpec.toValue)) ::
              ((rs.close.map (List.map AltSpec.toValue)).map
                fun alts => ("close", Json.arr alts)).toList := by
          rw [hclose]
          exact List.mem_cons_of_mem _ List.mem_cons_self
        refine .some (keepsAlts_clone (fun a ha' => ha a ?_) (hrefs _ hmem))
        rw [hclose]
        exact List.mem_append_right _ ha'

/-! ## The rules -/

/-- The rules are copied in order. -/
theorem keepsRules_clone {rules : List (String × Option RuleSpec)}
    (ha : ∀ name rs, (name, some rs) ∈ rules → ∀ a ∈ rs.opens ++ rs.close.getD [], a.Emitted)
    (href : ∀ e ∈ rulesValue rules, namesRef isRef e.2 = false) :
    List.Forall₂ (fun (e : String × Option RuleSpec) (e' : String × Json) =>
        e'.1 = e.1 ∧ KeepsRule isRef dropped e.2 e'.2) rules
      (cloneFields dropped (rulesValue rules)) := by
  induction rules with
  | nil => exact .nil
  | cons e rules ih =>
    obtain ⟨name, rs⟩ := e
    rw [rulesValue, List.map_cons] at href ⊢
    obtain ⟨hhead, htail⟩ := List.forall_mem_cons.mp href
    obtain ⟨v, hclone, hkeeps⟩ := @keepsRule_clone dropped isRef name rs
      (fun rule hrule => ha name rule (by
        obtain rfl := Option.mem_def.mp hrule
        exact List.mem_cons_self)) hhead
    rw [cloneFields_cons, hclone]
    exact .cons ⟨rfl, hkeeps⟩
      (ih (fun name rs hmem => ha name rs (List.mem_cons_of_mem _ hmem)) htail)

/-- Without an offender no rule names a reference. -/
theorem namesRef_of_isEmpty {rules : Fields} (h : (controlRefRules isRef rules).isEmpty = true) :
    ∀ e ∈ rules, namesRef isRef e.2 = false := by
  intro e he
  have hlength : (controlRefRules isRef rules).length = 0 := by
    rw [List.isEmpty_iff.mp h]
    rfl
  rw [controlRefRules, List.length_mergeSort, List.length_map] at hlength
  have hnot := List.filter_eq_nil_iff.mp (List.eq_nil_of_length_eq_zero hlength) e he
  simpa using hnot

/-! ## The options -/

theorem TokenName.notMem {name : String} (h : TokenName name) :
    name ∉ refFields ∧ name ≠ "k" := by
  constructor
  · intro hmem
    have hall : ∀ name ∈ refFields, name.toList.head? ≠ some '#' := by decide
    exact hall name hmem h
  · rintro rfl
    have hk : "k".toList.head? ≠ some '#' := by decide
    exact hk h

/-- What becomes of a token set: one that is named like a hook is taken for one. -/
theorem cloneField_set {key : String} {members : List String} :
    cloneField dropped (key, .arr (members.map Json.str)) =
        some (key, .arr (members.map Json.str)) ↔
      (key ∈ refFields → 2 ≤ members.length ∧ ∀ member ∈ members, dropped member = false) := by
  have hplain : cloneItems dropped (members.map Json.str) = members.map Json.str := cloneItems_map _ _
  by_cases hkey : key ∈ refFields
  · have hclone : cloneField dropped (key, .arr (members.map Json.str)) =
        (keptActions dropped (members.map Json.str)).map (key, ·) := by
      simp [cloneField, hkey]
    have hall : members.filter (!dropped ·) = members ↔
        ∀ member ∈ members, dropped member = false := by
      simp [List.filter_eq_self]
    rw [hclone, keptActions, filter_map_str, ← hall]
    have hinj : ∀ {l l' : List String}, l.map Json.str = l'.map Json.str → l = l' := fun h =>
      List.map_injective_iff.mpr (fun _ _ h => Json.str.inj h) h
    match hl : members.filter (!dropped ·) with
    | [] | [s] =>
      -- too few are left for an array
      refine iff_of_false (by simp) fun h => ?_
      obtain ⟨hlength, heq⟩ := h hkey
      rw [← heq] at hlength
      simp at hlength
    | s :: s' :: rest =>
      simp only [List.map_cons, Option.map_some, Option.some.injEq, Prod.mk.injEq, true_and,
        Json.arr.injEq]
      constructor
      · intro h _
        have heq : s :: s' :: rest = members := hinj h
        exact ⟨by rw [← heq]; simp, heq⟩
      · intro h
        rw [← (h hkey).2]
        rfl
  · rw [cloneField_arr hkey, hplain]
    exact iff_of_true rfl fun h => absurd h hkey

/-- The token sets are kept exactly when each of them is. -/
theorem cloneFields_sets {sets : List (String × List String)} :
    cloneFields dropped (sets.map fun e => (e.1, Json.arr (e.2.map Json.str))) =
        (sets.map fun e => (e.1, Json.arr (e.2.map Json.str))) ↔
      ∀ e ∈ sets, e.1 ∈ refFields → 2 ≤ e.2.length ∧ ∀ member ∈ e.2, dropped member = false := by
  constructor
  · intro h
    induction sets with
    | nil => exact fun e he => absurd he List.not_mem_nil
    | cons e sets ih =>
      rw [List.map_cons, cloneFields_cons] at h
      cases hclone : cloneField dropped (e.1, .arr (e.2.map Json.str)) with
      | none =>
        -- a set that is gone leaves fewer fields
        have hshort := @length_cloneFields dropped
          (sets.map fun e => (e.1, Json.arr (e.2.map Json.str)))
        rw [hclone] at h
        have hlength := congrArg List.length h
        rw [List.length_cons] at hlength
        simp only [Option.toList_none, List.nil_append] at hlength
        omega
      | some e' =>
        rw [hclone] at h
        obtain ⟨rfl, hrest⟩ := List.cons.inj h
        exact List.forall_mem_cons.mpr ⟨cloneField_set.mp hclone, ih hrest⟩
  · intro h
    refine cloneFields_eq fun e he => ?_
    obtain ⟨e, hmem, rfl⟩ := List.mem_map.mp he
    exact cloneField_set.mpr (h e hmem)

/-- Fields under token names are left as they are. -/
theorem cloneFields_tokens {α : Type} (f : α → String × Json) (l : List α)
    (hname : ∀ x ∈ l, TokenName (f x).1)
    (hleaf : ∀ x ∈ l, (f x).2 = .null ∨ ∃ s, (f x).2 = .str s) :
    cloneFields dropped (l.map f) = l.map f := by
  refine cloneFields_eq fun e he => ?_
  obtain ⟨x, hx, rfl⟩ := List.mem_map.mp he
  obtain ⟨href, -⟩ := (hname x hx).notMem
  have hleaf := hleaf x hx
  generalize f x = e at href hleaf
  obtain ⟨key, v⟩ := e
  obtain rfl | ⟨s, rfl⟩ : v = .null ∨ ∃ s, v = .str s := hleaf
  · rfl
  · exact cloneField_str href s

theorem cloneField_wrap {key inner : String} {fields : Fields} (hkey : key ≠ "k")
    (hinner : inner ≠ "k") (hfields : cloneFields dropped fields = fields) :
    cloneField dropped (key, .obj [(inner, .obj fields)]) =
      some (key, .obj [(inner, .obj fields)]) := by
  have hinner : cloneField dropped (inner, .obj fields) = some (inner, .obj fields) := by
    rw [cloneField_obj hinner, hfields]
  rw [cloneField_obj hkey, cloneFields_eq fun e he => ?_]
  obtain rfl := List.mem_singleton.mp he
  exact hinner

/-- **The options are kept exactly when the token sets are.** -/
theorem cloneFields_options {fixed : List (String × Option String)} {start : String}
    {empty : Bool} {patterns : List (String × String)} {sets : List (String × List String)}
    (hfixed : ∀ e ∈ fixed, TokenName e.1) (hpatterns : ∀ e ∈ patterns, TokenName e.1) :
    cloneFields dropped (emittedOptions fixed start empty patterns sets) =
        emittedOptions fixed start empty patterns sets ↔
      ∀ e ∈ sets, e.1 ∈ refFields → 2 ≤ e.2.length ∧ ∀ member ∈ e.2, dropped member = false := by
  have hhead : cloneFields dropped
      [("fixed", .obj [("token",
        .obj (fixed.map fun e => (e.1, (e.2.map Json.str).getD .null)))]),
        ("rule", .obj [("start", .str start)]), ("lex", .obj [("empty", .bool empty)])] =
      [("fixed", .obj [("token",
        .obj (fixed.map fun e => (e.1, (e.2.map Json.str).getD .null)))]),
        ("rule", .obj [("start", .str start)]), ("lex", .obj [("empty", .bool empty)])] := by
    have htokens := @cloneFields_tokens dropped _
      (fun e : String × Option String => (e.1, (e.2.map Json.str).getD .null)) fixed hfixed
      fun e _ => by
        cases e.2 with
        | none => exact .inl rfl
        | some src => exact .inr ⟨src, rfl⟩
    have hstart : cloneField dropped ("start", .str start) = some ("start", .str start) :=
      cloneField_str (by decide) start
    rw [cloneFields_cons, cloneField_wrap (by decide) (by decide) htokens, cloneFields_cons,
      cloneField_obj (by decide), cloneFields_cons, hstart]
    rfl
  have hmatch : cloneFields dropped (if patterns.isEmpty then []
      else [("match", .obj [("token", .obj (patterns.map fun e => (e.1, .str e.2)))])]) =
      if patterns.isEmpty then []
      else [("match", .obj [("token", .obj (patterns.map fun e => (e.1, .str e.2)))])] := by
    have htokens := @cloneFields_tokens dropped _
      (fun e : String × String => (e.1, Json.str e.2)) patterns hpatterns
      fun e _ => .inr ⟨e.2, rfl⟩
    split
    · rfl
    · rw [cloneFields_cons, cloneField_wrap (by decide) (by decide) htokens]
      rfl
  rw [emittedOptions, cloneFields_append, cloneFields_append, hhead, hmatch,
    List.append_cancel_left_eq, ← cloneFields_sets]
  cases sets with
  | nil => exact iff_of_true rfl rfl
  | cons e sets =>
    rw [if_neg (by simp), cloneFields_cons, cloneField_obj (by decide)]
    simp [cloneFields]

end

section

variable {σ ε : Type} {diag : String} {version : Int} {spec : GrammarSpec σ ε} {out : Fields}

/-- A spec whose rules name no reference outside the hooks is accepted. -/
theorem toRecognitionSpec_eq (diag : String) (version : Int)
    (h : ∀ e ∈ rulesValue spec.rule, namesRef spec.isRef e.2 = false) :
    toRecognitionSpec diag version spec =
      .ok (("options", .obj (cloneFields spec.isDropped spec.options)) ::
        ("rule", .obj (cloneFields spec.isDropped (rulesValue spec.rule))) ::
        ("v", .num version) :: (spec.metadata.map fun m => ("meta", m)).toList) := by
  have hnone : controlRefRules spec.isRef (rulesValue spec.rule) = [] := by
    have hfilter : (rulesValue spec.rule).filter (fun e => namesRef spec.isRef e.2) = [] :=
      List.filter_eq_nil_iff.mpr fun e he => by simp [h e he]
    rw [controlRefRules, hfilter, List.map_nil, List.mergeSort_nil]
  rw [toRecognitionSpec]
  simp only [hnone, List.isEmpty_nil, Bool.not_true, Bool.false_eq_true, if_false]
  rw [cloneFields_cons, cloneField_obj (by decide), cloneFields_cons, cloneField_obj (by decide)]
  rfl

/-- An accepted spec names no reference outside the hooks, and the copies of both blocks are its
result. -/
theorem toRecognitionSpec_ok (h : toRecognitionSpec diag version spec = .ok out) :
    (∀ e ∈ rulesValue spec.rule, namesRef spec.isRef e.2 = false) ∧
      out.lookup "options" = some (.obj (cloneFields spec.isDropped spec.options)) ∧
      out.lookup "rule" = some (.obj (cloneFields spec.isDropped (rulesValue spec.rule))) := by
  unfold toRecognitionSpec at h
  simp only at h
  split at h
  next => cases h
  next hno =>
    obtain rfl := Except.ok.inj h
    rw [cloneFields_cons, cloneField_obj (by decide), cloneFields_cons, cloneField_obj (by decide)]
    exact ⟨namesRef_of_isEmpty (by simpa using hno), rfl, rfl⟩

theorem EmittedSpec.keeps_iff {sets : List (String × List String)} (h : EmittedSpec spec sets)
    (hok : toRecognitionSpec diag version spec = .ok out) :
    Keeps spec out ↔ ∀ e ∈ sets, e.1 ∈ refFields →
      2 ≤ e.2.length ∧ ∀ member ∈ e.2, spec.isDropped member = false := by
  obtain ⟨hrefs, hoptions, hrule⟩ := toRecognitionSpec_ok hok
  obtain ⟨fixed, start, empty, patterns, hspec, hfixed, hpatterns⟩ := h.options
  rw [← @cloneFields_options _ _ start empty _ _ hfixed hpatterns, ← hspec]
  constructor
  · rintro ⟨hkept, -⟩
    rw [hoptions] at hkept
    exact Json.obj.inj (Option.some.inj hkept)
  · intro hkept
    exact ⟨hoptions.trans (by rw [hkept]), _, hrule, keepsRules_clone h.alts hrefs⟩

/-- **What is kept of an emitted spec**, with any actions attached: the rules always, the options
exactly when every token set that is named like a hook has two members and none of them is spelled
like a dropped action. -/
theorem toRecognitionSpec_keeps {spec₀ : GrammarSpec σ ε} {sets : List (String × List String)}
    (h₀ : spec₀.Emitted) (h : EmittedSpec spec₀ sets) {calls : List (ActionsMap σ ε)}
    (hattach : attachAll diag spec₀ calls = .ok spec)
    (hok : toRecognitionSpec diag version spec = .ok out) :
    Keeps spec out ↔ ∀ e ∈ sets, e.1 ∈ refFields →
      2 ≤ e.2.length ∧ ∀ member ∈ e.2, spec.isDropped member = false :=
  (h.attached (attachAll_attached h₀.nodup calls h₀.attached hattach)).keeps_iff hok

/-- What `node` gives an alternate in builtins mode. -/
def nodeFields (init : Bool) (rule kind : String) (nterms : Int) : Fields :=
  [("a", .str "@node$"), ("k", .obj [("node$", .obj
    [("init", .bool init), ("rule", .str rule), ("kind", .str kind), ("nterms", .num nterms)])])]

/-- `segment_to_alt` of terminals alone, at the head of a user's rule in builtins mode. -/
def terminalsAlt (tag rule : String) (terms : List String) : AltSpec where
  fields := [("g", .str tag), ("s", .str (" ".intercalate terms))] ++
    nodeFields true rule "user" terms.length

theorem emitted_terminalsAlt (tag rule : String) (terms : List String) :
    (terminalsAlt tag rule terms).Emitted := by
  refine ⟨?_, ?_⟩
  · simp [terminalsAlt, nodeFields]
  · rintro e (_ | ⟨_, _ | ⟨_, _ | ⟨_, _ | ⟨_, ⟨⟩⟩⟩⟩⟩)
    · exact .text "g" _ (by decide)
    · exact .text "s" _ (by decide)
    · exact .action _
    · refine .config _ fun e he => .inl ?_
      obtain rfl := List.mem_singleton.mp he
      exact List.mem_cons_self

/-- The token sets of `s = a "y"`, `a = "x" / "x"` with the token classes: a class of one token. -/
def oneMember : List (String × List String) := [("a", ["#X"])]

/-- What the grammar compiles to with the builtins and the token classes: the class is substituted
for the reference that `s` begins with, and keeps its rule. -/
def oneMemberSpec : GrammarSpec Unit Unit where
  refs := []
  options := emittedOptions [] "__start__" false [("#Y", "@~/^y/i"), ("#X", "@~/^x/i")] oneMember
  rule := [
    ("s", some { opens := [terminalsAlt "bnf" "s" ["#a", "#Y"]] }),
    ("a", some { opens := [terminalsAlt "bnf" "a" ["#X"], terminalsAlt "bnf" "a" ["#X"]] }),
    ("__start__", some
      { opens := [{ fields := [("p", .str "s"), ("g", .str "bnf")] }]
        close := some [{ fields := [("s", .str "#ZZ"), ("a", .str "@bubble$"),
          ("g", .str "bnf,end")] }] })]
  metadata := some (.obj [("provenance", .obj [("__start__", .str "s")])])

theorem oneMember_patterns :
    ∀ e ∈ [("#Y", "@~/^y/i"), ("#X", "@~/^x/i")], TokenName e.1 := by
  rintro e (_ | ⟨_, _ | ⟨_, ⟨⟩⟩⟩)
  · exact rfl
  · exact rfl

theorem oneMemberSpec_emitted : EmittedSpec oneMemberSpec oneMember := by
  refine ⟨⟨[], "__start__", false, [("#Y", "@~/^y/i"), ("#X", "@~/^x/i")], rfl,
    fun e he => absurd he List.not_mem_nil, ?_⟩, ?_⟩
  · exact oneMember_patterns
  · rintro name rs (_ | ⟨_, _ | ⟨_, _ | ⟨_, ⟨⟩⟩⟩⟩)
    · rintro a (_ | ⟨_, ⟨⟩⟩)
      exact emitted_terminalsAlt _ _ _
    · rintro a (_ | ⟨_, _ | ⟨_, ⟨⟩⟩⟩)
      · exact emitted_terminalsAlt _ _ _
      · exact emitted_terminalsAlt _ _ _
    · rintro a (_ | ⟨_, _ | ⟨_, ⟨⟩⟩⟩)
      · refine ⟨by simp, ?_⟩
        rintro e (_ | ⟨_, _ | ⟨_, ⟨⟩⟩⟩)
        · exact .text "p" _ (by decide)
        · exact .text "g" _ (by decide)
      · refine ⟨by simp, ?_⟩
        rintro e (_ | ⟨_, _ | ⟨_, _ | ⟨_, ⟨⟩⟩⟩⟩)
        · exact .text "s" _ (by decide)
        · exact .action _
        · exact .text "g" _ (by decide)

/-- The set comes back as a string. -/
theorem toRecognitionSpec_oneMember :
    ∃ out, toRecognitionSpec "bnf" 1 oneMemberSpec = .ok out ∧
      EmittedSpec oneMemberSpec oneMember ∧ ¬Keeps oneMemberSpec out := by
  refine ⟨_, toRecognitionSpec_eq "bnf" 1 ?_, oneMemberSpec_emitted, fun h => ?_⟩
  · decide
  · have hkept : cloneFields oneMemberSpec.isDropped oneMemberSpec.options =
        oneMemberSpec.options := Json.obj.inj (Option.some.inj h.1)
    have hsets := (@cloneFields_options _ [] "__start__" false
      [("#Y", "@~/^y/i"), ("#X", "@~/^x/i")] oneMember
      (fun e he => absurd he List.not_mem_nil) oneMember_patterns).mp hkept
    exact absurd (hsets _ List.mem_cons_self (by decide)).1 (by decide)

theorem toRecognitionSpec_keeps_oneMember :
    ∃ out, toRecognitionSpec "bnf" 1 oneMemberSpec = .ok out ∧
      (Keeps oneMemberSpec out ↔ ∀ e ∈ oneMember, e.1 ∈ refFields →
        2 ≤ e.2.length ∧ ∀ member ∈ e.2, oneMemberSpec.isDropped member = false) := by
  have hok := @toRecognitionSpec_eq _ _ oneMemberSpec "bnf" 1 (by decide)
  have hemitted : oneMemberSpec.Emitted := ⟨by decide, [], rfl⟩
  exact ⟨_, hok, @toRecognitionSpec_keeps _ _ _ _ _ _ _ _ hemitted oneMemberSpec_emitted [] rfl hok⟩

end

end TabnasBnf.Wire
