import TabnasBnf.Lib.Names
import TabnasBnf.WireSpec

/-!
# Attaching user actions

Model of `attach_actions` of `rs/src/spec.rs`. A key names a phase of a rule or the marked
alternates of one; an alternate is given a reference of its own for each attachment.

* `Attached` says what a spec is after a run of attachments: the `n`-th attachment to an alternate
  has the reference `@bnf_user<n>`.
* **`attachAll_spec`**: after any number of calls that succeed.
-/

namespace TabnasBnf.Wire

variable {σ ε : Type}

/-! ## Targets -/

/-- `PHASES`. -/
def phases : List String := ["bo", "ao", "bc", "ac"]

/-- `Target`. -/
inductive Target where
  | phase (phase : String)
  | alts (phase : String) (indices : List Nat)

/-- `split_once`. -/
def splitOnce (c : Char) (text : List Char) : Option (List Char × List Char) :=
  match text.dropWhile (· != c) with
  | [] => none
  | _ :: behind => some (text.takeWhile (· != c), behind)

/-- The indices of the alternates with a mark. -/
def markedAlts (rs : RuleSpec) (phase mark : String) : List Nat :=
  ((rs.alts phase).zipIdx.filter fun a => a.1.m == some mark).map Prod.snd

/-- The rule and the selector of a key, as `resolve_target` takes it apart. -/
def splitTarget (key : String) : Option (String × List Char) :=
  match key.toList with
  | '@' :: body =>
    match splitOnce ':' body with
    | some (rule, sel) =>
      if rule.isEmpty || sel.isEmpty then none else some (String.ofList rule, sel)
    | none => none
  | _ => none

/-- What a selector names in a rule. -/
def resolveIn (diag key rule : String) (rs : RuleSpec) (sel : List Char) :
    Except String (String × Target) :=
  let malformed := diag ++ ": malformed action ref '" ++ key ++ "'"
  if phases.contains (String.ofList sel) then .ok (rule, .phase (String.ofList sel))
  else match splitOnce ':' sel with
    | some (oc, mark) =>
      if (oc = ['o'] ∨ oc = ['c']) ∧ mark ≠ [] then
        let phase := if oc = ['o'] then "open" else "close"
        let indices := markedAlts rs phase (String.ofList mark)
        if indices.isEmpty then
          .error (diag ++ ": action ref '" ++ key ++ "' matches no " ++ phase ++
            " alt with mark '" ++ String.ofList mark ++ "' in rule '" ++ rule ++ "'")
        else .ok (rule, .alts phase indices)
      else .error malformed
    | none => .error malformed

/-- `resolve_target`. -/
def resolveTarget (diag : String) (spec : GrammarSpec σ ε) (key : String) :
    Except String (String × Target) :=
  if key.toList.contains '$' then
    .error (diag ++ ": '$' is reserved for engine builtins; user action ref '" ++ key ++
      "' may not contain '$'")
  else match splitTarget key with
    | none => .error (diag ++ ": malformed action ref '" ++ key ++
        "' (expected @rule:phase or @rule:o|c:mark)")
    | some (rule, sel) =>
      match spec.rule.lookup rule with
      | some (some rs) => resolveIn diag key rule rs sel
      | _ => .error (diag ++ ": action ref '" ++ key ++ "' targets unknown rule '" ++ rule ++ "'")

/-! ## Attaching -/

/-- `ActionsMap`. -/
abbrev ActionsMap (σ ε : Type) := List (String × List (ActionFn σ ε))

/-- The name of the `n`-th user action. -/
def userRef (n : Nat) : String := "@bnf_user" ++ toString n

/-- The name the engine installs a rule-phase hook under. -/
def hookRef (rule phase : String) : String := "@" ++ rule ++ "-" ++ phase

/-- The function an alternate's reference stands for. -/
def userAction : List (ActionFn σ ε) → ActionFn σ ε
  | [f] => f
  | fns => runActions fns

/-- Extend the hook of a phase, or install it. -/
def attachHook (spec : GrammarSpec σ ε) (rule phase : String) (fns : List (ActionFn σ ε)) :
    GrammarSpec σ ε :=
  let fkey := hookRef rule phase
  match spec.refs.lookup fkey with
  | some (.phase existing) =>
    { spec with refs := Table.insert spec.refs fkey (.phase (existing ++ fns)) }
  | _ => { spec with refs := Table.insert spec.refs fkey (.phase fns) }

/-- The spec with one rule changed. -/
def GrammarSpec.modifyRule (spec : GrammarSpec σ ε) (rule : String) (f : RuleSpec → RuleSpec) :
    GrammarSpec σ ε :=
  { spec with rule := spec.rule.map fun e => if e.1 = rule then (e.1, e.2.map f) else e }

/-- The loop body over the selected alternates. -/
def attachAlt (rule phase : String) (seq : ActionFn σ ε) (st : GrammarSpec σ ε × Nat) (i : Nat) :
    GrammarSpec σ ε × Nat :=
  let (spec, counter) := st
  let user := userRef counter
  let spec := { spec with refs := Table.insert spec.refs user (.user seq) }
  (spec.modifyRule rule fun rs => rs.modifyAlts phase fun alts =>
    alts.modify i fun a => a.appendAction user, counter + 1)

/-- The loop body of `attach_actions`. -/
def attachEntry (diag : String) (st : GrammarSpec σ ε × Nat)
    (entry : String × List (ActionFn σ ε)) : Except String (GrammarSpec σ ε × Nat) := do
  let (key, fns) := entry
  match ← resolveTarget diag st.1 key with
  | (rule, .phase phase) => return (attachHook st.1 rule phase fns, st.2)
  | (rule, .alts phase indices) => return indices.foldl (attachAlt rule phase (userAction fns)) st

/-- `attach_actions`. -/
def attachActions (diag : String) (spec : GrammarSpec σ ε) (actions : ActionsMap σ ε) :
    Except String (GrammarSpec σ ε) := do
  let counter := Names.freshIndex userRef (spec.refs.map Prod.fst) 0
  let (spec, _) ← actions.foldlM (attachEntry diag) (spec, counter)
  return spec

/-- One call after another. -/
def attachAll (diag : String) (spec : GrammarSpec σ ε) (calls : List (ActionsMap σ ε)) :
    Except String (GrammarSpec σ ε) :=
  calls.foldlM (attachActions diag) spec

/-! ## What was attached -/

/-- An attachment to an alternate. -/
structure Attachment (σ ε : Type) where
  rule : String
  phase : String
  index : Nat
  fns : List (ActionFn σ ε)

/-- An attachment to each of the selected alternates. -/
def selected (rule phase : String) (fns : List (ActionFn σ ε)) (indices : List Nat) :
    List (Attachment σ ε) := indices.map fun i => ⟨rule, phase, i, fns⟩

/-- What an entry attaches to alternates. -/
def altAttachments (diag : String) (spec : GrammarSpec σ ε)
    (entry : String × List (ActionFn σ ε)) : List (Attachment σ ε) :=
  match resolveTarget diag spec entry.1 with
  | .ok (rule, .alts phase indices) => selected rule phase entry.2 indices
  | _ => []

/-- The phase of a rule that an entry attaches to, with its functions. -/
def hookAttachments (diag : String) (spec : GrammarSpec σ ε)
    (entry : String × List (ActionFn σ ε)) : List ((String × String) × List (ActionFn σ ε)) :=
  match resolveTarget diag spec entry.1 with
  | .ok (rule, .phase phase) => [((rule, phase), entry.2)]
  | _ => []

/-- The references of the attachments to an alternate, in order. -/
def refsAt (atts : List (Attachment σ ε)) (rule phase : String) (i : Nat) : List String :=
  (atts.zipIdx.filter fun e => e.1.rule = rule ∧ e.1.phase = phase ∧ e.1.index = i).map
    fun e => userRef e.2

/-- The functions attached to a phase of a rule, in order. -/
def hooksAt (hooks : List ((String × String) × List (ActionFn σ ε))) (rule phase : String) :
    List (List (ActionFn σ ε)) :=
  (hooks.filter fun e => e.1 = (rule, phase)).map Prod.snd

/-- Alternates with their references appended. -/
def attachedAlts (refs : Nat → List String) (alts : List AltSpec) : List AltSpec :=
  alts.mapIdx fun i a => (refs i).foldl AltSpec.appendAction a

/-- A rule with the references of its attachments. -/
def attachedRule (atts : List (Attachment σ ε)) (rule : String) (rs : RuleSpec) : RuleSpec where
  opens := attachedAlts (refsAt atts rule "open") rs.opens
  close := rs.close.map (attachedAlts (refsAt atts rule "close"))

/-- `spec` is `spec₀` after the attachments. -/
structure Attached (spec₀ : GrammarSpec σ ε) (atts : List (Attachment σ ε))
    (hooks : List ((String × String) × List (ActionFn σ ε))) (spec : GrammarSpec σ ε) : Prop where
  options : spec.options = spec₀.options
  metadata : spec.metadata = spec₀.metadata
  clear : spec.clear = spec₀.clear
  rules : spec.rule = spec₀.rule.map fun e => (e.1, e.2.map (attachedRule atts e.1))
  user : ∀ n att, atts[n]? = some att →
    spec.refs.lookup (userRef n) = some (.user (userAction att.fns))
  fresh : ∀ n, atts.length ≤ n → userRef n ∉ spec.refs.map Prod.fst
  hook : ∀ rule, ∀ phase ∈ phases, spec.refs.lookup (hookRef rule phase) =
    if hooksAt hooks rule phase = [] then none
    else some (.phase (hooksAt hooks rule phase).flatten)
  other : ∀ key, (∀ n, key ≠ userRef n) → (∀ rule, ∀ phase ∈ phases, key ≠ hookRef rule phase) →
    spec.refs.lookup key = spec₀.refs.lookup key

/-! ## The names -/

theorem userRef_injective : Function.Injective userRef := fun _ _ h =>
  Names.toString_injective ((String.append_right_inj _).mp h)

/-- A name that ends in a number ends in a digit. -/
theorem getLast_append_toString (pre : String) (n : Nat) :
    ∃ d, (pre ++ toString n).toList.getLast? = some d ∧ d.isDigit = true := by
  have hne : (toString n).toList ≠ [] := by
    rw [show (toString n).toList = Nat.toDigits 10 n from Nat.toList_repr]
    exact Nat.toDigits_ne_nil
  refine ⟨(toString n).toList.getLast hne, ?_, ?_⟩
  · rw [String.toList_append, List.getLast?_append_of_ne_nil _ hne,
      List.getLast?_eq_some_getLast hne]
  · by_contra hnot
    exact Names.notMem_toString (Bool.eq_false_iff.mpr hnot) n (List.getLast_mem hne)

theorem hookRef_ne_append_toString {rule phase : String} (hphase : phase ∈ phases) (pre : String)
    (n : Nat) : hookRef rule phase ≠ pre ++ toString n := by
  intro heq
  obtain ⟨d, hd, hdigit⟩ := getLast_append_toString pre n
  have hlast : ∃ c, phase.toList.getLast? = some c ∧ c.isDigit = false := by
    have hall : ∀ phase ∈ phases, ∃ c, phase.toList.getLast? = some c ∧ c.isDigit = false := by
      simp [phases]
    exact hall phase hphase
  obtain ⟨c, hc, hnot⟩ := hlast
  have hne : phase.toList ≠ [] := by
    intro hnil
    rw [hnil] at hc
    cases hc
  rw [← heq, hookRef, String.toList_append, List.getLast?_append_of_ne_nil _ hne, hc] at hd
  obtain rfl := Option.some.inj hd
  rw [hdigit] at hnot
  cases hnot

theorem hookRef_ne_userRef {rule phase : String} (hphase : phase ∈ phases) (n : Nat) :
    hookRef rule phase ≠ userRef n := hookRef_ne_append_toString hphase _ n

theorem hookRef_ne_compilerRef {rule phase : String} (hphase : phase ∈ phases) (n : Nat) :
    hookRef rule phase ≠ compilerRef n := hookRef_ne_append_toString hphase _ n

theorem hookRef_inj {rule phase rule' phase' : String} (hphase : phase ∈ phases)
    (hphase' : phase' ∈ phases) (h : hookRef rule phase = hookRef rule' phase') :
    rule = rule' ∧ phase = phase' := by
  have hlength : ∀ phase ∈ phases, phase.toList.length = 2 := by decide
  have hlists : ("@" ++ rule ++ "-").toList ++ phase.toList =
      ("@" ++ rule' ++ "-").toList ++ phase'.toList := by
    rw [← String.toList_append, ← String.toList_append]
    exact congrArg String.toList h
  obtain ⟨hrule, hphase⟩ := List.append_inj' hlists
    ((hlength phase hphase).trans (hlength phase' hphase').symm)
  have hrule := (String.append_left_inj _).mp (String.toList_inj.mp hrule)
  exact ⟨(String.append_right_inj _).mp hrule, String.toList_inj.mp hphase⟩

theorem compilerRef_ne_userRef (m n : Nat) : compilerRef m ≠ userRef n := by
  intro h
  have hchars : (compilerRef m).toList[5]? = (userRef n).toList[5]? := by rw [h]
  rw [compilerRef, userRef, String.toList_append, String.toList_append,
    List.getElem?_append_left (by decide), List.getElem?_append_left (by decide)] at hchars
  exact absurd hchars (by decide)

/-! ## The rules -/

theorem refsAt_append (atts : List (Attachment σ ε)) (att : Attachment σ ε) (rule phase : String)
    (i : Nat) : refsAt (atts ++ [att]) rule phase i = refsAt atts rule phase i ++
      if att.rule = rule ∧ att.phase = phase ∧ att.index = i then [userRef atts.length] else [] := by
  unfold refsAt
  rw [List.zipIdx_append, List.filter_append, List.map_append]
  congr 1
  rw [List.zipIdx_singleton, List.filter_cons]
  split <;> simp_all

theorem getElem?_attachedAlts (refs : Nat → List String) (alts : List AltSpec) (i : Nat) :
    (attachedAlts refs alts)[i]? = alts[i]?.map ((refs i).foldl AltSpec.appendAction) := by
  rw [attachedAlts, List.getElem?_mapIdx]

theorem m_foldl_appendAction (refs : List String) (a : AltSpec) :
    (refs.foldl AltSpec.appendAction a).m = a.m := by
  induction refs generalizing a with
  | nil => rfl
  | cons ref refs ih => exact ih _

theorem get_foldl_appendAction (refs : List String) (a : AltSpec) {key : String} (h : key ≠ "a") :
    (refs.foldl AltSpec.appendAction a).get key = a.get key := by
  induction refs generalizing a with
  | nil => rfl
  | cons ref refs ih => rw [List.foldl_cons, ih, AltSpec.get_appendAction_of_ne a ref h]

theorem actions_foldl_appendAction (refs : List String) (a : AltSpec) :
    (refs.foldl AltSpec.appendAction a).actions = a.actions ++ refs := by
  induction refs generalizing a with
  | nil => exact (List.append_nil _).symm
  | cons ref refs ih =>
    rw [List.foldl_cons, ih, AltSpec.actions_appendAction, List.append_assoc]
    rfl

@[simp] theorem alts_attachedRule_open (atts : List (Attachment σ ε)) (rule : String)
    (rs : RuleSpec) : (attachedRule atts rule rs).alts "open" =
      attachedAlts (refsAt atts rule "open") (rs.alts "open") := rfl

@[simp] theorem alts_attachedRule_close (atts : List (Attachment σ ε)) (rule : String)
    (rs : RuleSpec) : (attachedRule atts rule rs).alts "close" =
      attachedAlts (refsAt atts rule "close") (rs.alts "close") := by
  cases hclose : rs.close <;> simp [RuleSpec.alts, attachedRule, hclose, attachedAlts]

theorem attachedAlts_nil (alts : List AltSpec) : attachedAlts (fun _ => []) alts = alts := by
  refine List.ext_getElem? fun i => ?_
  rw [getElem?_attachedAlts]
  simp

theorem attachedRule_nil (rule : String) (rs : RuleSpec) :
    attachedRule ([] : List (Attachment σ ε)) rule rs = rs := by
  have hrefs : ∀ phase, refsAt ([] : List (Attachment σ ε)) rule phase = fun _ => [] :=
    fun _ => rfl
  unfold attachedRule
  rw [hrefs, hrefs, attachedAlts_nil]
  cases hclose : rs.close with
  | none => rw [Option.map_none, ← hclose]
  | some alts => rw [Option.map_some, attachedAlts_nil, ← hclose]

/-- Appending one reference more. -/
theorem modify_attachedAlts (refs refs' : Nat → List String) (alts : List AltSpec) (i : Nat)
    (added : String) (hsame : ∀ j, j ≠ i → refs' j = refs j) (hadded : refs' i = refs i ++ [added]) :
    (attachedAlts refs alts).modify i (fun a => a.appendAction added) = attachedAlts refs' alts := by
  refine List.ext_getElem? fun j => ?_
  rw [List.getElem?_modify, getElem?_attachedAlts, getElem?_attachedAlts]
  by_cases hij : i = j
  · subst hij
    rw [hadded]
    cases alts[i]? <;> simp
  · rw [hsame j (Ne.symm hij)]
    cases alts[j]? <;> simp [hij]

/-- The marks stay, so a key selects what it selected. -/
theorem markedAlts_attachedRule (atts : List (Attachment σ ε)) (rule : String) (rs : RuleSpec)
    {phase : String} (hphase : phase = "open" ∨ phase = "close") (mark : String) :
    markedAlts (attachedRule atts rule rs) phase mark = markedAlts rs phase mark := by
  have hzip : ∀ (refs : Nat → List String) (alts : List AltSpec),
      (attachedAlts refs alts).zipIdx =
        alts.zipIdx.map fun e => ((refs e.2).foldl AltSpec.appendAction e.1, e.2) := by
    intro refs alts
    refine List.ext_getElem? fun i => ?_
    rw [List.getElem?_zipIdx, getElem?_attachedAlts, List.getElem?_map, List.getElem?_zipIdx]
    cases alts[i]? <;> simp
  have hmarked : ∀ (refs : Nat → List String) (alts : List AltSpec),
      ((attachedAlts refs alts).zipIdx.filter fun a => a.1.m == some mark).map Prod.snd =
        (alts.zipIdx.filter fun a => a.1.m == some mark).map Prod.snd := by
    intro refs alts
    rw [hzip, List.filter_map, List.map_map]
    congr 1
    refine List.filter_congr fun e _ => ?_
    simp [m_foldl_appendAction]
  unfold markedAlts
  obtain rfl | rfl := hphase
  · rw [alts_attachedRule_open]
    exact hmarked _ _
  · rw [alts_attachedRule_close]
    exact hmarked _ _

theorem lookup_attached (atts : List (Attachment σ ε)) (rules : List (String × Option RuleSpec))
    (name : String) :
    (rules.map fun e => (e.1, e.2.map (attachedRule atts e.1))).lookup name =
      (rules.lookup name).map (Option.map (attachedRule atts name)) := by
  induction rules with
  | nil => rfl
  | cons e rules ih =>
    rw [List.map_cons, List.lookup_cons, List.lookup_cons, ih]
    by_cases h : name = e.1
    · simp [h]
    · rw [beq_false_of_ne h]

/-! ## One attachment -/

section

variable {spec₀ spec : GrammarSpec σ ε} {atts : List (Attachment σ ε)}
  {hooks : List ((String × String) × List (ActionFn σ ε))}

theorem refsAt_append_of_ne {att : Attachment σ ε} {rule phase : String} {i : Nat}
    (h : ¬ (att.rule = rule ∧ att.phase = phase ∧ att.index = i)) :
    refsAt (atts ++ [att]) rule phase i = refsAt atts rule phase i := by
  rw [refsAt_append, if_neg h, List.append_nil]

theorem refsAt_append_self (att : Attachment σ ε) :
    refsAt (atts ++ [att]) att.rule att.phase att.index =
      refsAt atts att.rule att.phase att.index ++ [userRef atts.length] := by
  rw [refsAt_append, if_pos ⟨rfl, rfl, rfl⟩]

theorem modifyAlts_attachedRule (att : Attachment σ ε) (rs : RuleSpec)
    (hphase : att.phase = "open" ∨ att.phase = "close")
    (hi : att.index < (rs.alts att.phase).length) :
    (attachedRule atts att.rule rs).modifyAlts att.phase (fun alts =>
      alts.modify att.index fun a => a.appendAction (userRef atts.length)) =
    attachedRule (atts ++ [att]) att.rule rs := by
  have hmodify : ∀ alts, (attachedAlts (refsAt atts att.rule att.phase) alts).modify att.index
      (fun a => a.appendAction (userRef atts.length)) =
        attachedAlts (refsAt (atts ++ [att]) att.rule att.phase) alts := fun alts =>
    modify_attachedAlts _ _ alts att.index _
      (fun j hj => refsAt_append_of_ne fun hsame => hj hsame.2.2.symm) (refsAt_append_self att)
  have hother : ∀ phase, phase ≠ att.phase →
      refsAt (atts ++ [att]) att.rule phase = refsAt atts att.rule phase := fun phase hne =>
    funext fun j => refsAt_append_of_ne fun hsame => hne hsame.2.1.symm
  obtain ⟨rule, phase, index, fns⟩ := att
  dsimp only at hphase hi hmodify hother ⊢
  obtain rfl | rfl := hphase
  · unfold RuleSpec.modifyAlts attachedRule
    rw [if_pos rfl, hother "close" (by decide)]
    dsimp only
    rw [hmodify]
  · obtain ⟨alts, halts⟩ : ∃ alts, rs.close = some alts := by
      cases hclose : rs.close with
      | none => simp [RuleSpec.alts, hclose] at hi
      | some alts => exact ⟨alts, rfl⟩
    unfold RuleSpec.modifyAlts attachedRule
    rw [if_neg (by decide), hother "open" (by decide), halts, Option.map_some, Option.map_some,
      Option.getD_some]
    dsimp only
    rw [hmodify]

/-- An attachment to an alternate. -/
theorem Attached.alt (h : Attached spec₀ atts hooks spec) (hnodup : (spec₀.rule.map Prod.fst).Nodup)
    (att : Attachment σ ε) (hphase : att.phase = "open" ∨ att.phase = "close") {rs : RuleSpec}
    (hrule : spec₀.rule.lookup att.rule = some (some rs))
    (hi : att.index < (rs.alts att.phase).length) :
    Attached spec₀ (atts ++ [att]) hooks
      (attachAlt att.rule att.phase (userAction att.fns) (spec, atts.length) att.index).1 := by
  have hlookup : ∀ key, (Table.insert spec.refs (userRef atts.length)
      (.user (userAction att.fns))).lookup key =
        if key = userRef atts.length then some (.user (userAction att.fns))
        else spec.refs.lookup key := fun key => Table.lookup_insert ..
  constructor
  case options => exact h.options
  case metadata => exact h.metadata
  case clear => exact h.clear
  case rules =>
    refine Eq.trans (congrArg (List.map _) h.rules) ?_
    rw [List.map_map]
    refine List.map_congr_left fun e he => ?_
    by_cases hname : e.1 = att.rule
    · have hsome : e.2 = some rs := by
        have hfound := Table.lookup_of_mem hnodup he
        rw [hname, hrule] at hfound
        exact (Option.some.inj hfound).symm
      rw [Function.comp, if_pos hname, hsome, hname, Option.map_some, Option.map_some,
        Option.map_some, modifyAlts_attachedRule att rs hphase hi]
    · have hsame : attachedRule (atts ++ [att]) e.1 = attachedRule atts e.1 := by
        funext rs
        unfold attachedRule
        have hrefs : ∀ phase, refsAt (atts ++ [att]) e.1 phase = refsAt atts e.1 phase :=
          fun phase => funext fun j => refsAt_append_of_ne fun hsame => hname hsame.1.symm
        rw [hrefs, hrefs]
      rw [Function.comp, if_neg hname, hsame]
  case user =>
    intro n att' hatt
    refine (hlookup _).trans ?_
    by_cases hn : n = atts.length
    · rw [hn, if_pos rfl]
      rw [hn, List.getElem?_append_right (Nat.le_refl _), Nat.sub_self] at hatt
      obtain rfl := Option.some.inj hatt
      rfl
    · rw [if_neg fun heq => hn (userRef_injective heq)]
      have hlt : n < atts.length := by
        have hlt := (List.getElem?_eq_some_iff.mp hatt).1
        rw [List.length_append, List.length_singleton] at hlt
        omega
      rw [List.getElem?_append_left hlt] at hatt
      exact h.user n att' hatt
  case fresh =>
    intro n hn hmem
    rw [List.length_append, List.length_singleton] at hn
    obtain heq | hmem := Table.mem_keys_insert.mp hmem
    · have := userRef_injective heq
      omega
    · exact h.fresh n (by omega) hmem
  case hook =>
    intro rule phase hphase
    refine (hlookup _).trans ?_
    rw [if_neg (hookRef_ne_userRef hphase _)]
    exact h.hook rule phase hphase
  case other =>
    intro key huser hhook
    refine (hlookup _).trans ?_
    rw [if_neg (huser _)]
    exact h.other key huser hhook

theorem refs_attachHook (spec : GrammarSpec σ ε) (rule phase : String)
    (fns : List (ActionFn σ ε)) : ∃ all, (attachHook spec rule phase fns) =
      { spec with refs := Table.insert spec.refs (hookRef rule phase) (.phase all) } ∧
      ((∃ before, spec.refs.lookup (hookRef rule phase) = some (.phase before) ∧
        all = before ++ fns) ∨ (spec.refs.lookup (hookRef rule phase) = none ∧ all = fns) ∨
        ∃ other, spec.refs.lookup (hookRef rule phase) = some other ∧
          (∀ before, other ≠ .phase before)) := by
  unfold attachHook
  dsimp only
  generalize spec.refs.lookup (hookRef rule phase) = found
  match found with
  | none => exact ⟨fns, rfl, .inr (.inl ⟨rfl, rfl⟩)⟩
  | some (.phase before) => exact ⟨before ++ fns, rfl, .inl ⟨before, rfl, rfl⟩⟩
  | some (.node ..) | some (.capture ..) | some .bubble | some (.fold _) | some .probeInit
  | some (.probeDecide _) | some (.probePhase _) | some (.user _) =>
    exact ⟨fns, rfl, .inr (.inr ⟨_, rfl, fun _ => by simp⟩)⟩

/-- An attachment to a phase. -/
theorem Attached.hooked (h : Attached spec₀ atts hooks spec) {rule phase : String}
    (hphase : phase ∈ phases) (fns : List (ActionFn σ ε)) :
    Attached spec₀ atts (hooks ++ [((rule, phase), fns)]) (attachHook spec rule phase fns) := by
  obtain ⟨all, heq, hall⟩ := refs_attachHook spec rule phase fns
  rw [heq]
  have hlookup : ∀ key, (Table.insert spec.refs (hookRef rule phase) (.phase all)).lookup key =
        if key = hookRef rule phase then some (.phase all) else spec.refs.lookup key := fun key =>
    Table.lookup_insert ..
  have hself : all = (hooksAt hooks rule phase).flatten ++ fns := by
    have hbefore := h.hook rule phase hphase
    obtain ⟨before, hfound, rfl⟩ | ⟨hfound, rfl⟩ | ⟨other, hfound, hne⟩ := hall
    · rw [hfound] at hbefore
      split at hbefore
      · cases hbefore
      · obtain rfl := RefAction.phase.inj (Option.some.inj hbefore)
        rfl
    · rw [hfound] at hbefore
      split at hbefore
      · next hnil => rw [hnil]; rfl
      · cases hbefore
    · rw [hfound] at hbefore
      split at hbefore
      · cases hbefore
      · exact absurd (Option.some.inj hbefore) (hne _)
  constructor
  case options => exact h.options
  case metadata => exact h.metadata
  case clear => exact h.clear
  case rules => exact h.rules
  case user =>
    intro n att hatt
    refine (hlookup _).trans ?_
    rw [if_neg (hookRef_ne_userRef hphase _).symm]
    exact h.user n att hatt
  case fresh =>
    intro n hn hmem
    obtain heq | hmem := Table.mem_keys_insert.mp hmem
    · exact hookRef_ne_userRef hphase _ heq.symm
    · exact h.fresh n hn hmem
  case hook =>
    intro rule' phase' hphase'
    refine (hlookup _).trans ?_
    unfold hooksAt
    rw [List.filter_append, List.map_append]
    by_cases hsame : rule' = rule ∧ phase' = phase
    · obtain ⟨rfl, rfl⟩ := hsame
      rw [if_pos rfl, hself]
      simp [hooksAt]
    · rw [if_neg fun heq => hsame (hookRef_inj hphase' hphase heq)]
      have hnot : ¬ (rule, phase) = (rule', phase') := fun heq =>
        hsame ⟨(Prod.mk.inj heq).1.symm, (Prod.mk.inj heq).2.symm⟩
      simp only [List.filter_cons, decide_eq_true_eq, hnot, if_false, List.filter_nil, List.map_nil,
        List.append_nil]
      exact h.hook rule' phase' hphase'
  case other =>
    intro key huser hhook
    refine (hlookup _).trans ?_
    rw [if_neg (hhook rule phase hphase)]
    exact h.other key huser hhook

/-! ## A run -/

/-- Nothing is attached yet. -/
theorem GrammarSpec.Emitted.attached (h : spec.Emitted) : Attached spec [] [] spec := by
  constructor
  case options => rfl
  case metadata => rfl
  case clear => rfl
  case rules =>
    have hid : (fun e : String × Option RuleSpec =>
        (e.1, e.2.map (attachedRule ([] : List (Attachment σ ε)) e.1))) = id := by
      funext e
      obtain ⟨name, rs⟩ := e
      cases rs <;> simp [attachedRule_nil]
    rw [hid, List.map_id]
  case user => exact fun n att hatt => by cases hatt
  case fresh =>
    intro n _ hmem
    obtain ⟨m, heq⟩ := h.keys _ hmem
    exact compilerRef_ne_userRef m n heq.symm
  case hook =>
    intro rule phase hphase
    refine Table.lookup_eq_none fun hmem => ?_
    obtain ⟨m, heq⟩ := h.keys _ hmem
    exact hookRef_ne_compilerRef hphase m heq
  case other => exact fun _ _ _ => rfl

theorem mem_markedAlts {rs : RuleSpec} {phase mark : String} {i : Nat}
    (h : i ∈ markedAlts rs phase mark) : i < (rs.alts phase).length := by
  obtain ⟨e, he, rfl⟩ := List.mem_map.mp h
  exact List.snd_lt_of_mem_zipIdx (List.mem_filter.mp he).1

theorem resolveIn_ok {diag key rule : String} {rs : RuleSpec} {sel : List Char}
    {res : String × Target} (h : resolveIn diag key rule rs sel = .ok res) :
    res.1 = rule ∧ ((∃ phase ∈ phases, res.2 = .phase phase) ∨
      ∃ phase mark, (phase = "open" ∨ phase = "close") ∧
        res.2 = .alts phase (markedAlts rs phase mark)) := by
  unfold resolveIn at h
  dsimp only at h
  split at h
  · next hphase =>
    obtain rfl := Except.ok.inj h
    exact ⟨rfl, .inl ⟨_, by simpa using hphase, rfl⟩⟩
  · split at h
    · next oc mark _ =>
      have hphase : (if oc = ['o'] then "open" else "close") = "open" ∨
          (if oc = ['o'] then "open" else "close") = "close" := by
        split
        · exact .inl rfl
        · exact .inr rfl
      generalize (if oc = ['o'] then "open" else "close") = phase at h hphase
      split at h
      · split at h
        · cases h
        · obtain rfl := Except.ok.inj h
          exact ⟨rfl, .inr ⟨_, _, hphase, rfl⟩⟩
      · cases h
    · cases h

theorem resolveTarget_ok {diag key : String} {res : String × Target}
    (h : resolveTarget diag spec key = .ok res) :
    ∃ rs sel, spec.rule.lookup res.1 = some (some rs) ∧
      resolveIn diag key res.1 rs sel = .ok res := by
  unfold resolveTarget at h
  split at h
  · cases h
  · split at h
    · cases h
    · next rule sel _ =>
      split at h
      · next rs hrule =>
        have hsame : res.1 = rule := (resolveIn_ok h).1
        rw [hsame]
        exact ⟨rs, sel, hrule, h⟩
      · cases h

/-- What a key that resolves to alternates selects. -/
theorem resolveTarget_alts {diag key rule phase : String} {indices : List Nat}
    (h : resolveTarget diag spec key = .ok (rule, .alts phase indices)) :
    (phase = "open" ∨ phase = "close") ∧
      ∃ rs, spec.rule.lookup rule = some (some rs) ∧ ∀ i ∈ indices, i < (rs.alts phase).length := by
  obtain ⟨rs, sel, hrule, hin⟩ := resolveTarget_ok h
  obtain ⟨-, ⟨_, -, htarget⟩ | ⟨phase', mark, hphase, htarget⟩⟩ := resolveIn_ok hin
  · cases htarget
  · obtain ⟨rfl, rfl⟩ := Target.alts.inj htarget
    exact ⟨hphase, rs, hrule, fun i hi => mem_markedAlts hi⟩

theorem resolveTarget_phase {diag key rule phase : String}
    (h : resolveTarget diag spec key = .ok (rule, .phase phase)) : phase ∈ phases := by
  obtain ⟨rs, sel, -, hin⟩ := resolveTarget_ok h
  obtain ⟨-, ⟨phase', hphase, htarget⟩ | ⟨_, _, -, htarget⟩⟩ := resolveIn_ok hin
  · obtain rfl := Target.phase.inj htarget
    exact hphase
  · cases htarget

theorem resolveIn_attachedRule (diag key rule : String) (rs : RuleSpec) (sel : List Char) :
    resolveIn diag key rule (attachedRule atts rule rs) sel = resolveIn diag key rule rs sel := by
  unfold resolveIn
  have hmarked : ∀ (oc mark : List Char),
      markedAlts (attachedRule atts rule rs) (if oc = ['o'] then "open" else "close")
        (String.ofList mark) =
      markedAlts rs (if oc = ['o'] then "open" else "close") (String.ofList mark) := by
    intro oc mark
    refine markedAlts_attachedRule atts rule rs ?_ _
    split
    · exact .inl rfl
    · exact .inr rfl
  simp only [hmarked]

/-- A key resolves to what it did before anything was attached. -/
theorem Attached.resolveTarget_eq (h : Attached spec₀ atts hooks spec) (diag key : String) :
    resolveTarget diag spec key = resolveTarget diag spec₀ key := by
  unfold resolveTarget
  split
  · rfl
  · split
    · rfl
    · next rule sel _ =>
      rw [h.rules, lookup_attached]
      match spec₀.rule.lookup rule with
      | none | some none => rfl
      | some (some rs) => exact resolveIn_attachedRule diag key rule rs sel

/-- The loop over the selected alternates. -/
theorem Attached.foldAlts (hnodup : (spec₀.rule.map Prod.fst).Nodup) {rule phase : String}
    (fns : List (ActionFn σ ε)) (hphase : phase = "open" ∨ phase = "close") {rs : RuleSpec}
    (hrule : spec₀.rule.lookup rule = some (some rs)) : ∀ (indices : List Nat)
    {atts : List (Attachment σ ε)} {spec : GrammarSpec σ ε}, Attached spec₀ atts hooks spec →
    (∀ i ∈ indices, i < (rs.alts phase).length) →
      ∃ spec', indices.foldl (attachAlt rule phase (userAction fns)) (spec, atts.length) =
          (spec', (atts ++ selected rule phase fns indices).length) ∧
        Attached spec₀ (atts ++ selected rule phase fns indices) hooks spec'
  | [], atts, spec, h, _ => ⟨spec, by simp [selected], by simpa [selected] using h⟩
  | i :: indices, atts, spec, h, hindices => by
    obtain ⟨hi, hindices⟩ := List.forall_mem_cons.mp hindices
    have hstep := h.alt hnodup ⟨rule, phase, i, fns⟩ hphase hrule hi
    obtain ⟨spec', hfold, hspec'⟩ := Attached.foldAlts hnodup fns hphase hrule indices hstep hindices
    rw [List.append_assoc, List.singleton_append] at hfold hspec'
    refine ⟨spec', ?_, hspec'⟩
    have hnext : attachAlt rule phase (userAction fns) (spec, atts.length) i =
        ((attachAlt rule phase (userAction fns) (spec, atts.length) i).1,
          (atts ++ [(⟨rule, phase, i, fns⟩ : Attachment σ ε)]).length) := by
      simp [attachAlt]
    rw [List.foldl_cons, hnext]
    exact hfold

theorem Attached.entry (hnodup : (spec₀.rule.map Prod.fst).Nodup) {diag : String}
    (h : Attached spec₀ atts hooks spec) {entry : String × List (ActionFn σ ε)}
    {st : GrammarSpec σ ε × Nat}
    (hrun : attachEntry diag (spec, atts.length) entry = .ok st) :
    Attached spec₀ (atts ++ altAttachments diag spec₀ entry)
        (hooks ++ hookAttachments diag spec₀ entry) st.1 ∧
      st.2 = (atts ++ altAttachments diag spec₀ entry).length := by
  obtain ⟨⟨rule, target⟩, hresolve, hrun⟩ := bind_eq_ok hrun
  dsimp only at hresolve
  rw [h.resolveTarget_eq] at hresolve
  unfold altAttachments hookAttachments
  rw [hresolve]
  cases target with
  | phase phase =>
    obtain rfl := Except.ok.inj hrun
    simp only [List.append_nil, and_true]
    exact h.hooked (resolveTarget_phase hresolve) entry.2
  | alts phase indices =>
    obtain rfl := Except.ok.inj hrun
    obtain ⟨hphase, rs, hrule, hindices⟩ := resolveTarget_alts hresolve
    obtain ⟨spec', hfold, hspec'⟩ :=
      Attached.foldAlts hnodup entry.2 hphase hrule indices h hindices
    simp only [List.append_nil]
    rw [hfold]
    exact ⟨hspec', rfl⟩

theorem Attached.entries (hnodup : (spec₀.rule.map Prod.fst).Nodup) {diag : String} :
    ∀ (entries : ActionsMap σ ε) {atts : List (Attachment σ ε)}
      {hooks : List ((String × String) × List (ActionFn σ ε))} {spec : GrammarSpec σ ε}
      {st : GrammarSpec σ ε × Nat}, Attached spec₀ atts hooks spec →
      entries.foldlM (attachEntry diag) (spec, atts.length) = .ok st →
        Attached spec₀ (atts ++ entries.flatMap (altAttachments diag spec₀))
          (hooks ++ entries.flatMap (hookAttachments diag spec₀)) st.1
  | [], _, _, _, _, h, hrun => by
    obtain rfl := Except.ok.inj hrun
    simpa using h
  | entry :: entries, atts, hooks, spec, st, h, hrun => by
    rw [List.foldlM_cons] at hrun
    obtain ⟨⟨spec₁, n⟩, hentry, hrun⟩ := bind_eq_ok hrun
    obtain ⟨h₁, hn⟩ := h.entry hnodup hentry
    dsimp only at h₁ hn
    rw [hn] at hrun
    have hrest := Attached.entries hnodup entries h₁ hrun
    rwa [List.append_assoc, List.append_assoc, ← List.flatMap_cons, ← List.flatMap_cons] at hrest

/-- The counter starts past the references handed out. -/
theorem Attached.freshIndex_eq (h : Attached spec₀ atts hooks spec) :
    Names.freshIndex userRef (spec.refs.map Prod.fst) 0 = atts.length := by
  have hused : ∀ n < atts.length, userRef n ∈ spec.refs.map Prod.fst := by
    intro n hn
    have hfound := h.user n _ (List.getElem?_eq_getElem hn)
    exact List.mem_map.mpr ⟨_, Table.mem_of_lookup hfound, rfl⟩
  have hnot := @Names.mk_freshIndex_notMem _ _ _ (spec.refs.map Prod.fst) userRef_injective 0
  refine Nat.le_antisymm ?_ ?_
  · by_contra hlt
    exact h.fresh atts.length (Nat.le_refl _)
      (Names.mem_of_lt_freshIndex (Nat.zero_le _) (Nat.not_le.mp hlt))
  · by_contra hlt
    exact hnot (hused _ (Nat.not_le.mp hlt))

/-- **Any number of calls that succeed.** -/
theorem attachAll_attached {diag : String} (hnodup : (spec₀.rule.map Prod.fst).Nodup) :
    ∀ (calls : List (ActionsMap σ ε)) {atts : List (Attachment σ ε)}
      {hooks : List ((String × String) × List (ActionFn σ ε))} {spec spec' : GrammarSpec σ ε},
      Attached spec₀ atts hooks spec → attachAll diag spec calls = .ok spec' →
        Attached spec₀ (atts ++ calls.flatten.flatMap (altAttachments diag spec₀))
          (hooks ++ calls.flatten.flatMap (hookAttachments diag spec₀)) spec'
  | [], _, _, _, _, h, hrun => by
    obtain rfl := Except.ok.inj hrun
    simpa using h
  | actions :: calls, atts, hooks, spec, spec', h, hrun => by
    rw [attachAll, List.foldlM_cons] at hrun
    obtain ⟨spec₁, hcall, hrun⟩ := bind_eq_ok hrun
    obtain ⟨⟨spec₂, n⟩, hentries, hcall⟩ := bind_eq_ok hcall
    obtain rfl := Except.ok.inj hcall
    rw [h.freshIndex_eq] at hentries
    have hrest := attachAll_attached hnodup calls (h.entries hnodup actions hentries) hrun
    rwa [List.append_assoc, List.append_assoc, ← List.flatMap_append, ← List.flatMap_append,
      ← List.flatten_cons] at hrest

/-- **What a run of attachments leaves.** The `n`-th attachment to an alternate is a reference of
its own, which goes to the end of the alternate's list and stands for its functions; a hook holds
its functions in order; and nothing else changes. -/
theorem attachAll_spec {diag : String} {spec spec' : GrammarSpec σ ε} (h : spec.Emitted)
    {calls : List (ActionsMap σ ε)} (hrun : attachAll diag spec calls = .ok spec') :
    let atts := calls.flatten.flatMap (altAttachments diag spec)
    let hooks := calls.flatten.flatMap (hookAttachments diag spec)
    Function.Injective userRef ∧ (∀ n att, atts[n]? = some att →
        userRef n ∉ spec.refs.map Prod.fst ∧
          spec'.refs.lookup (userRef n) = some (.user (userAction att.fns))) ∧
      (∀ name rs, (name, some rs) ∈ spec.rule → ∃ rs', (name, some rs') ∈ spec'.rule ∧
        (rs'.close.isSome = rs.close.isSome) ∧
        ∀ phase ∈ ["open", "close"], (rs'.alts phase).length = (rs.alts phase).length ∧
          ∀ i a, (rs.alts phase)[i]? = some a → ∃ a', (rs'.alts phase)[i]? = some a' ∧
            a'.actions = a.actions ++ refsAt atts name phase i ∧ a'.m = a.m ∧
            ∀ key, key ≠ "a" → a'.get key = a.get key) ∧
      (∀ rule, ∀ phase ∈ phases, spec'.refs.lookup (hookRef rule phase) =
        if hooksAt hooks rule phase = [] then none
        else some (.phase (hooksAt hooks rule phase).flatten)) ∧
      (∀ key, (∀ n, key ≠ userRef n) → (∀ rule, ∀ phase ∈ phases, key ≠ hookRef rule phase) →
        spec'.refs.lookup key = spec.refs.lookup key) ∧
      (∀ n, atts.length ≤ n → spec'.refs.lookup (userRef n) = none) ∧
      spec'.rule.map (fun e => (e.1, e.2.isSome)) = spec.rule.map (fun e => (e.1, e.2.isSome)) ∧
      spec'.options = spec.options ∧ spec'.metadata = spec.metadata ∧ spec'.clear = spec.clear := by
  intro atts hooks
  have hspec : Attached spec atts hooks spec' := attachAll_attached h.nodup calls h.attached hrun
  refine ⟨userRef_injective, fun n att hatt => ⟨?_, hspec.user n att hatt⟩, fun name rs hrs => ?_,
    hspec.hook,
    hspec.other, fun n hn => Table.lookup_eq_none (hspec.fresh n hn), ?_, hspec.options,
    hspec.metadata, hspec.clear⟩
  · exact h.attached.fresh n (Nat.zero_le _)
  · refine ⟨attachedRule atts name rs, ?_, ?_, fun phase hphase => ?_⟩
    · rw [hspec.rules]
      exact List.mem_map.mpr ⟨_, hrs, rfl⟩
    · cases hclose : rs.close <;> simp [attachedRule, hclose]
    · have halts : (attachedRule atts name rs).alts phase =
          attachedAlts (refsAt atts name phase) (rs.alts phase) := by
        simp only [List.mem_cons, List.not_mem_nil, or_false] at hphase
        obtain rfl | rfl := hphase
        · exact alts_attachedRule_open atts name rs
        · exact alts_attachedRule_close atts name rs
      rw [halts]
      refine ⟨by simp [attachedAlts], fun i a ha => ?_⟩
      rw [getElem?_attachedAlts, ha]
      exact ⟨_, rfl, actions_foldl_appendAction _ a, m_foldl_appendAction _ a,
        fun key hkey => get_foldl_appendAction _ a hkey⟩
  · rw [hspec.rules, List.map_map]
    refine List.map_congr_left fun e _ => ?_
    simp

end

/-- A rule with one marked alternate. -/
def markedSpec : GrammarSpec (List String) String where
  refs := []
  options := []
  rule := [("r", some { opens := [{ fields := [], m := some "a" }] })]

/-- A function that notes its name. -/
def notes (name : String) : ActionFn (List String) String := fun log => (.ok (), log ++ [name])

/-- A function that fails. -/
def stops : ActionFn (List String) String := fun log => (.error "stop", log)

/-- Two calls that attach to the alternate, the second to a phase of the rule, too. -/
def markedCalls : List (ActionsMap (List String) String) :=
  [[("@r:o:a", [notes "first"])],
    [("@r:o:a", [notes "second", stops, notes "third"]), ("@r:bo", [notes "hook"])]]

theorem attachAll_spec_marked :
    ∃ spec', attachAll "bnf" markedSpec markedCalls = .ok spec' ∧
      spec'.refs.lookup (userRef 0) = some (.user (userAction [notes "first"])) ∧
      spec'.refs.lookup (userRef 1) =
        some (.user (userAction [notes "second", stops, notes "third"])) ∧
      userAction [notes "second", stops, notes "third"] [] = (.error "stop", ["second"]) ∧
      spec'.refs.lookup (hookRef "r" "bo") = some (.phase [notes "hook"]) ∧
      ∃ rs', ("r", some rs') ∈ spec'.rule ∧
        ∃ a', rs'.opens[0]? = some a' ∧ a'.actions = ["@bnf_user0", "@bnf_user1"] := by
  have hrun : ∃ spec', attachAll "bnf" markedSpec markedCalls = .ok spec' := ⟨_, rfl⟩
  obtain ⟨spec', hrun⟩ := hrun
  have hemitted : markedSpec.Emitted := ⟨by decide, [], rfl⟩
  obtain ⟨-, hrefs, hrules, hhooks, -⟩ := attachAll_spec hemitted hrun
  obtain ⟨rs', hrs', -, halts⟩ := hrules "r" _ List.mem_cons_self
  obtain ⟨a', ha', hactions, -⟩ := (halts "open" (by decide)).2 0 _ rfl
  refine ⟨spec', hrun, (hrefs 0 ⟨"r", "open", 0, [notes "first"]⟩ rfl).2,
    (hrefs 1 ⟨"r", "open", 0, [notes "second", stops, notes "third"]⟩ rfl).2, rfl,
    hhooks "r" "bo" (by decide), rs', hrs', a', ha', hactions⟩

end TabnasBnf.Wire
