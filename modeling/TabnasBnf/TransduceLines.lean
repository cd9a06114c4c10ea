import TabnasBnf.TransduceCarries

/-!
# The lines of a transducer part

What the text of a part says, read line by line: the lines that list a rule are those of the entries
that say something (`lines_partSource`, `mem_lines_iff`), and the container and the text a line
tells of are the entry's. So a line lists a rule with a container exactly when the rule begins it or
closes lead to it from one that does (`transduceAlc_lines`).
-/

namespace TabnasBnf.Wire

/-! ## Reading a line -/

/-- The lines of a text. -/
def linesOf (text : String) : List (List Char) := text.toList.splitOn '\n'

/-- What the line that lists a rule begins with. -/
def listed (rule : String) : List Char := ("      entry :" ++ rule ++ " (record ").toList

/-- What begins the record of a rule with a container. -/
def containerField (kind : Container) : List Char :=
  ("(entry :container :" ++ kind.word ++ ")").toList

/-- What ends the line of a rule whose member is its text. -/
def textField : List Char := "(entry :text true))".toList

/-- Two words up to their first separator. -/
theorem prefix_of_notMem {b a s t : List Char} {c : Char} (hb : c ∉ b) (ha : c ∉ a)
    (h : b ++ c :: s <+: a ++ c :: t) : b = a ∧ s <+: t := by
  induction b generalizing a with
  | nil =>
    cases a with
    | nil => exact ⟨rfl, (List.cons_prefix_cons.mp h).2⟩
    | cons x a => exact absurd (List.mem_cons.mpr (.inl (List.cons_prefix_cons.mp h).1)) ha
  | cons y b ih =>
    cases a with
    | nil => exact absurd (List.mem_cons.mpr (.inl (List.cons_prefix_cons.mp h).1.symm)) hb
    | cons x a =>
      obtain ⟨rfl, hrest⟩ := List.cons_prefix_cons.mp h
      obtain ⟨rfl, hst⟩ := ih (fun hc => hb (List.mem_cons_of_mem _ hc))
        (fun hc => ha (List.mem_cons_of_mem _ hc)) hrest
      exact ⟨rfl, hst⟩

/-- A symbol holds no white space. -/
theorem notMem_of_isSymbol {name : String} (h : isSymbol name) {c : Char}
    (hc : c = ' ' ∨ c = '\n') : c ∉ name.toList := by
  unfold isSymbol at h
  intro hmem
  cases hname : name.toList with
  | nil =>
    rw [hname] at hmem
    cases hmem
  | cons first rest =>
    rw [hname] at h hmem
    simp only [Bool.and_eq_true, List.all_eq_true] at h
    obtain ⟨⟨hfirst, hrest⟩, -⟩ := h
    obtain rfl | hmem := List.mem_cons.mp hmem
    · obtain rfl | rfl := hc <;> simp at hfirst
    · have hchar := hrest c hmem
      obtain rfl | rfl := hc <;> simp at hchar

/-- A quoted text is on one line. -/
theorem newline_notMem_quoted (text : String) : '\n' ∉ (quoted text).toList := by
  have hdigit : ∀ d < 16, Nat.digitChar d ≠ '\n' := by decide
  unfold quoted
  rw [String.toList_append, String.toList_append, String.toList_join]
  simp only [List.mem_append, List.mem_flatMap, List.mem_map, not_or, not_exists, not_and,
    forall_exists_index, and_imp, forall_apply_eq_imp_iff₂]
  refine ⟨⟨by decide, fun c hc => ?_⟩, by decide⟩
  split
  next hquote =>
    simp only [Bool.or_eq_true, decide_eq_true_eq] at hquote
    obtain rfl | rfl := hquote <;> decide
  next =>
    split
    next hcontrol =>
      have hhigh := hdigit (c.toNat / 16) (by omega)
      have hlow := hdigit (c.toNat % 16) (by omega)
      simp [hexByte, hhigh.symm, hlow.symm]
    next hplain =>
      simp only [String.toList_singleton, List.mem_singleton]
      rintro rfl
      exact hplain (by decide)

/-! ## The line of an entry -/

/-- The fields of the record of an entry. -/
def entryFields (e : Entry) : List String :=
  (e.container.map fun c => "(entry :container :" ++ c.word ++ ")").toList ++
    (e.member.map fun m => "(entry :member " ++ quoted m ++ ")").toList ++
    if e.fills = some .text then ["(entry :text true)"] else []

/-- An entry that says something has a line. -/
theorem mem_entryLine {e : String × Entry} {line : String} : line ∈ entryLine e ↔
    entryFields e.2 ≠ [] ∧
      line = "      entry :" ++ e.1 ++ " (record " ++ " ".intercalate (entryFields e.2) ++ ")" := by
  unfold entryLine
  show line ∈ (if (entryFields e.2).isEmpty then [] else
    ["      entry :" ++ e.1 ++ " (record " ++ " ".intercalate (entryFields e.2) ++ ")"]) ↔ _
  split
  next hempty => simp [List.isEmpty_iff.mp hempty]
  next hne => simp [List.isEmpty_iff.not.mp hne]

theorem toList_line {rule : String} {fields : List String} :
    ("      entry :" ++ rule ++ " (record " ++ " ".intercalate fields ++ ")").toList =
      listed rule ++ ((" ".intercalate fields).toList ++ [')']) := by
  simp [listed]

/-- What a list of words begins with. -/
theorem exists_toList_intercalate (field : String) (fields : List String) :
    ∃ rest, (" ".intercalate (field :: fields)).toList = field.toList ++ rest := by
  cases fields with
  | nil => exact ⟨[], by simp⟩
  | cons field' fields =>
    exact ⟨_, by rw [String.intercalate_cons_cons, String.toList_append, String.toList_append,
      List.append_assoc]⟩

/-- What a list of words ends with. -/
theorem exists_toList_intercalate_append (fields : List String) (field : String) :
    ∃ rest, (" ".intercalate (fields ++ [field])).toList = rest ++ field.toList := by
  cases fields with
  | nil => exact ⟨[], by simp⟩
  | cons first fields =>
    exact ⟨_, by rw [String.intercalate_append_of_ne_nil (List.cons_ne_nil _ _)
      (List.cons_ne_nil _ _), String.intercalate_singleton, String.toList_append]⟩

theorem prefix_take {a b t : List Char} (h : a <+: b ++ t) (n : Nat) (ha : n ≤ a.length)
    (hb : n ≤ b.length) : a.take n = b.take n := by
  obtain ⟨u, hu⟩ := h
  have htake := congrArg (List.take n) hu
  rwa [List.take_append_of_le_length ha, List.take_append_of_le_length hb] at htake

/-- The record of an entry begins with its container. -/
theorem containerField_prefix_iff {e : Entry} {kind : Container} :
    containerField kind <+: (" ".intercalate (entryFields e)).toList ++ [')'] ↔
      e.container = some kind := by
  unfold entryFields
  cases hcontainer : e.container with
  | some kind' =>
    obtain ⟨rest, hrest⟩ := exists_toList_intercalate ("(entry :container :" ++ kind'.word ++ ")")
      ((e.member.map fun m => "(entry :member " ++ quoted m ++ ")").toList ++
        if e.fills = some .text then ["(entry :text true)"] else [])
    simp only [Option.map_some, Option.toList_some, List.cons_append, List.nil_append, hrest,
      Option.some.injEq]
    rw [List.append_assoc]
    refine ⟨fun h => ?_, fun h => h ▸ List.prefix_append _ _⟩
    have htake := prefix_take h 20 (by cases kind <;> decide) (by cases kind' <;> decide)
    cases kind <;> cases kind' <;> first | rfl | exact absurd htake (by decide)
  | none =>
    simp only [Option.map_none, Option.toList_none, List.nil_append, reduceCtorEq, iff_false]
    intro h
    cases hmember : e.member with
    | some m =>
      obtain ⟨rest, hrest⟩ := exists_toList_intercalate ("(entry :member " ++ quoted m ++ ")")
        (if e.fills = some .text then ["(entry :text true)"] else [])
      simp only [hmember, Option.map_some, Option.toList_some, List.cons_append, List.nil_append,
        hrest] at h
      rw [String.toList_append, String.toList_append, List.append_assoc, List.append_assoc,
        List.append_assoc] at h
      exact absurd (prefix_take h 9 (by cases kind <;> decide) (by decide))
        (by cases kind <;> decide)
    | none =>
      simp only [hmember, Option.map_none, Option.toList_none, List.nil_append] at h
      split at h
      · rw [String.intercalate_singleton] at h
        exact absurd (prefix_take h 9 (by cases kind <;> decide) (by decide))
          (by cases kind <;> decide)
      · rw [String.intercalate_nil] at h
        exact absurd h.length_le (by cases kind <;> decide)

/-- A line that ends otherwise. -/
theorem textField_not_suffix {x rest : List Char} {c : Char} (hc : c ≠ 'e') :
    ¬ textField <:+ x ++ (rest ++ [c, ')', ')']) := by
  rintro ⟨u, hu⟩
  have htail : textField = "(entry :text tru".toList ++ ['e', ')', ')'] := rfl
  rw [htail, ← List.append_assoc, ← List.append_assoc] at hu
  obtain rfl := (List.cons.inj (List.append_inj_right' hu rfl)).1
  exact hc rfl

/-- The line of an entry ends with its text. -/
theorem textField_suffix_iff {e : Entry} (hfields : entryFields e ≠ []) (x : List Char) :
    textField <:+ x ++ ((" ".intercalate (entryFields e)).toList ++ [')']) ↔
      e.fills = some .text := by
  unfold entryFields at hfields ⊢
  split
  next htext =>
    obtain ⟨rest, hrest⟩ := exists_toList_intercalate_append
      ((e.container.map fun c => "(entry :container :" ++ c.word ++ ")").toList ++
        (e.member.map fun m => "(entry :member " ++ quoted m ++ ")").toList) "(entry :text true)"
    have hfield : textField = "(entry :text true)".toList ++ [')'] := rfl
    rw [hrest, hfield, List.append_assoc, ← List.append_assoc x rest]
    exact iff_of_true (List.suffix_append _ _) htext
  next htext =>
    rw [if_neg htext, List.append_nil] at hfields
    refine iff_of_false ?_ htext
    rw [List.append_nil]
    cases hmember : e.member with
    | some m =>
      obtain ⟨rest, hrest⟩ := exists_toList_intercalate_append
        (e.container.map fun c => "(entry :container :" ++ c.word ++ ")").toList
        ("(entry :member " ++ quoted m ++ ")")
      have hline : (rest ++ ("(entry :member " ++ quoted m ++ ")").toList) ++ [')'] =
          (rest ++ "(entry :member ".toList ++ '"' :: (String.join (m.toList.map fun c =>
            if c = '"' || c = '\\' then "\\" ++ String.singleton c
            else if c.toNat < 0x20 then "\\u00" ++ hexByte c.toNat
            else String.singleton c)).toList) ++ ['"', ')', ')'] := by
        simp [quoted]
      rw [Option.map_some, Option.toList_some, hrest, hline]
      exact textField_not_suffix (by decide)
    | none =>
      cases hcontainer : e.container with
      | some kind =>
        rw [Option.map_some, Option.map_none, Option.toList_some, Option.toList_none,
          List.append_nil, String.intercalate_singleton]
        cases kind with
        | object => exact @textField_not_suffix x "(entry :container :objec".toList 't' (by decide)
        | array => exact @textField_not_suffix x "(entry :container :arra".toList 'y' (by decide)
      | none =>
        rw [hmember, hcontainer] at hfields
        exact absurd rfl hfields

/-! ## The lines of the part -/

theorem newline_notMem_intercalate {fields : List String}
    (h : ∀ field ∈ fields, '\n' ∉ field.toList) : '\n' ∉ (" ".intercalate fields).toList := by
  induction fields with
  | nil => simp
  | cons field fields ih =>
    obtain ⟨hfield, hfields⟩ := List.forall_mem_cons.mp h
    cases fields with
    | nil => rwa [String.intercalate_singleton]
    | cons field' fields =>
      rw [String.intercalate_cons_cons, String.toList_append, String.toList_append]
      simp only [List.mem_append, not_or]
      exact ⟨⟨hfield, by decide⟩, ih hfields⟩

theorem newline_notMem_entryLine {e : String × Entry} (he : isSymbol e.1) {line : String}
    (h : line ∈ entryLine e) : '\n' ∉ line.toList := by
  obtain ⟨-, rfl⟩ := mem_entryLine.mp h
  have hrule := notMem_of_isSymbol he (.inr rfl)
  have hfields : ∀ field ∈ entryFields e.2, '\n' ∉ field.toList := by
    intro field hfield
    obtain (hfield | hfield) | hfield := List.mem_append.mp hfield |>.imp_left List.mem_append.mp
    · obtain ⟨kind, -, rfl⟩ := Option.map_eq_some_iff.mp (Option.mem_toList.mp hfield)
      cases kind <;> decide
    · obtain ⟨m, -, rfl⟩ := Option.map_eq_some_iff.mp (Option.mem_toList.mp hfield)
      simp only [String.toList_append, List.mem_append, not_or]
      exact ⟨⟨by decide, newline_notMem_quoted m⟩, by decide⟩
    · split at hfield
      · obtain rfl := List.mem_singleton.mp hfield
        decide
      · cases hfield
  have hrecord := newline_notMem_intercalate hfields
  rw [toList_line, listed]
  simp only [String.toList_append, List.mem_append, not_or]
  exact ⟨⟨⟨by decide, hrule⟩, by decide⟩, hrecord, by decide⟩

/-- What the part says before its rules. -/
def partHeader (name : String) : List String :=
  ["; The transducer part of the grammar " ++ name ++ ": the JSON events of the value",
    "; its @object and @array annotations build, from its rule passes, as",
    "; tabnas-bnf wrote them from the value actions those annotations attach.",
    "def " ++ name ++ "-transduce [input]",
    "  transduce-tree",
    "    record"]

/-- **The lines of a part**: those of its entries stand between its header and its end. -/
theorem lines_partSource {name : String} {entries : Entries} (hname : isSymbol name)
    (hentries : ∀ e ∈ entries, isSymbol e.1) :
    linesOf (partSource name entries) =
      (partHeader name ++ (inOrder entries).flatMap entryLine ++ ["    input", ""]).map
        String.toList := by
  have hsource : (partSource name entries).toList = ['\n'].intercalate
      ((partHeader name ++ (inOrder entries).flatMap entryLine ++ ["    input", ""]).map
        String.toList) := String.toList_intercalate
  have hplain := notMem_of_isSymbol hname (.inr rfl)
  have hheader : ∀ line ∈ partHeader name, '\n' ∉ line.toList := by
    simp [partHeader, hplain]
  have hend : ∀ line ∈ ["    input", ""], '\n' ∉ line.toList := by decide
  rw [linesOf, hsource]
  refine List.splitOn_intercalate '\n' (List.forall_mem_map.mpr fun line hline => ?_) (by simp)
  obtain (hline | hline) | hline := List.mem_append.mp hline |>.imp_left List.mem_append.mp
  · exact hheader line hline
  · obtain ⟨e, he, hline⟩ := List.mem_flatMap.mp hline
    exact newline_notMem_entryLine (hentries e (List.mem_mergeSort.mp he)) hline
  · exact hend line hline

theorem listed_eq (rule : String) : listed rule =
    "      entry :".toList ++ (rule.toList ++ ' ' :: "(record ".toList) := by
  rw [listed, String.toList_append, String.toList_append, List.append_assoc]
  rfl

/-- **Which line lists a rule**: that of its entry, where it says something. -/
theorem mem_lines_iff {name rule : String} {entries : Entries} (hname : isSymbol name)
    (hentries : ∀ e ∈ entries, isSymbol e.1) (hrule : isSymbol rule) {line : List Char} :
    line ∈ linesOf (partSource name entries) ∧ listed rule <+: line ↔
      ∃ e, (rule, e) ∈ entries ∧ entryFields e ≠ [] ∧
        line = listed rule ++ ((" ".intercalate (entryFields e)).toList ++ [')']) := by
  rw [lines_partSource hname hentries]
  constructor
  · rintro ⟨hline, hprefix⟩
    obtain ⟨text, htext, rfl⟩ := List.mem_map.mp hline
    have hsix : "      ".toList <+: text.toList := by
      refine List.IsPrefix.trans ?_ hprefix
      rw [listed_eq]
      exact List.IsPrefix.trans (by decide) (List.prefix_append _ _)
    have hheader : ∀ text ∈ partHeader name, ¬ "      ".toList <+: text.toList := by
      simp [partHeader]
    have hend : ∀ text ∈ ["    input", ""], ¬ "      ".toList <+: text.toList := by decide
    obtain (htext | htext) | htext := List.mem_append.mp htext |>.imp_left List.mem_append.mp
    · exact absurd hsix (hheader text htext)
    · obtain ⟨⟨rule', e⟩, he, htext⟩ := List.mem_flatMap.mp htext
      obtain ⟨hfields, rfl⟩ := mem_entryLine.mp htext
      have hmem := List.mem_mergeSort.mp he
      rw [toList_line, listed_eq, listed_eq, List.append_assoc, List.append_assoc,
        List.prefix_append_right_inj] at hprefix
      obtain ⟨hsame, -⟩ := prefix_of_notMem (notMem_of_isSymbol hrule (.inl rfl))
        (notMem_of_isSymbol (hentries _ hmem) (.inl rfl)) hprefix
      obtain rfl : rule = rule' := String.toList_inj.mp hsame
      exact ⟨e, hmem, hfields, toList_line⟩
    · exact absurd hsix (hend text htext)
  · rintro ⟨e, he, hfields, rfl⟩
    refine ⟨List.mem_map.mpr ⟨_, List.mem_append_left _ (List.mem_append_right _
      (List.mem_flatMap.mpr ⟨(rule, e), List.mem_mergeSort.mpr he,
        mem_entryLine.mpr ⟨hfields, rfl⟩⟩)), toList_line⟩, List.prefix_append _ _⟩

/-! ## What is listed -/

section

variable {σ ε : Type} {spec : GrammarSpec σ ε}

/-- What every step of a loop keeps. -/
theorem foldlM_keeps {α τ ε : Type} {P : τ → Prop} {f : τ → α → Except ε τ} {l : List α}
    (hf : ∀ st a st', P st → f st a = .ok st' → P st') {st st' : τ} (hst : P st)
    (h : l.foldlM f st = .ok st') : P st' := by
  induction l generalizing st with
  | nil =>
    obtain rfl := Except.ok.inj h
    exact hst
  | cons a l ih =>
    rw [List.foldlM_cons] at h
    obtain ⟨st₁, hstep, hrest⟩ := bind_eq_ok h
    exact ih (hf st a st₁ hst hstep) hrest

theorem nodup_handOn {name next : String} {kind : Container} {st st' : Entries × Bool}
    (hst : (st.1.map Prod.fst).Nodup) (h : handOn spec name kind st next = .ok st') :
    (st'.1.map Prod.fst).Nodup := by
  unfold handOn at h
  split at h
  next => cases h
  next =>
    dsimp only at h
    split at h
    next =>
      obtain rfl := Except.ok.inj h
      exact Table.nodup_keys_insert hst _ _
    next =>
      split at h
      next => cases h
      next =>
        split at h
        next => cases h
        next =>
          obtain rfl := Except.ok.inj h
          exact hst

theorem nodup_scan {entries : Entries} {st : Entries × Bool}
    (hentries : (entries.map Prod.fst).Nodup) (h : scan spec entries = .ok st) :
    (st.1.map Prod.fst).Nodup := by
  refine foldlM_keeps (P := fun st : Entries × Bool => (st.1.map Prod.fst).Nodup)
    (fun st name st' hst hrule => ?_) hentries h
  unfold handRule at hrule
  split at hrule
  next =>
    obtain rfl := Except.ok.inj hrule
    exact hst
  next =>
    exact foldlM_keeps (P := fun st : Entries × Bool => (st.1.map Prod.fst).Nodup)
      (fun _ _ _ hst h => nodup_handOn hst h) hst hrule

theorem nodup_handDown {scans : Nat} {entries entries' : Entries}
    (hentries : (entries.map Prod.fst).Nodup) (h : handDown spec scans entries = .ok entries') :
    (entries'.map Prod.fst).Nodup := by
  induction scans generalizing entries with
  | zero =>
    obtain rfl := Except.ok.inj h
    exact hentries
  | succ scans ih =>
    obtain ⟨st, hscan, h⟩ := bind_eq_ok h
    split at h
    · exact ih (nodup_scan hentries hscan) h
    · obtain rfl := Except.ok.inj h
      exact nodup_scan hentries hscan

theorem nodup_addEntry {entries entries' : Entries} {name : String}
    (hentries : (entries.map Prod.fst).Nodup) (h : addEntry spec entries name = .ok entries') :
    (entries'.map Prod.fst).Nodup := by
  unfold addEntry at h
  split at h
  · obtain rfl := Except.ok.inj h
    exact hentries
  · obtain ⟨e, -, h⟩ := bind_eq_ok h
    obtain rfl := Except.ok.inj h
    split
    · exact Table.nodup_keys_insert hentries _ _
    · exact hentries

/-- The entries of a part are of rules with different names, which are symbols. -/
theorem partEntries_names {entries : Entries} (h : partEntries spec = .ok entries) :
    (entries.map Prod.fst).Nodup ∧ ∀ e ∈ entries, isSymbol e.1 := by
  obtain ⟨entries₀, hentries, h⟩ := bind_eq_ok h
  obtain ⟨entries₁, hdown, h⟩ := bind_eq_ok h
  obtain ⟨⟨⟩, hsymbols, h⟩ := bind_eq_ok h
  obtain ⟨⟨⟩, -, h⟩ := bind_eq_ok h
  obtain ⟨⟨⟩, -, h⟩ := bind_eq_ok h
  obtain rfl := Except.ok.inj h
  refine ⟨nodup_handDown ?_ hdown, fun e he => ?_⟩
  · refine foldlM_keeps (P := fun entries : Entries => (entries.map Prod.fst).Nodup)
      (fun _ _ _ hentries h => nodup_addEntry hentries h) ?_ hentries
    exact List.nodup_nil
  · unfold checkSymbols at hsymbols
    split at hsymbols
    next hnone =>
      have hfound := List.find?_eq_none.mp hnone e (List.mem_mergeSort.mpr he)
      simpa using hfound
    next => cases hsymbols

theorem isSymbol_of_part {name entry source : String}
    (h : transduceAlc spec name = .part entry source) : isSymbol name := by
  unfold transduceAlc at h
  split at h
  next => cases h
  next hname => simpa using hname

/-- **What the lines of a part list.** A line lists a rule with a container exactly when the rule
begins it, or closes lead to the rule from one that does; and where a line lists a rule with a text,
no line lists a rule that can be reached from what that rule pushes. -/
theorem transduceAlc_lines {name entry source : String} (hemitted : spec.ClosesReplace)
    (h : transduceAlc spec name = .part entry source) {rule : String} (hrule : isSymbol rule) :
    (∀ kind, (∃ line ∈ linesOf source, listed rule ++ containerField kind <+: line) ↔
      Begins spec rule kind ∨ Reached spec kind rule) ∧
      ∀ line ∈ linesOf source, listed rule <+: line → textField <:+ line →
        ∀ side ∈ ["open", "close"], ∀ alt ∈ spec.altsOf rule side, ∀ pushed ∈ named alt.p,
          ∀ below, Search.Reaches (succOf spec) pushed below → isSymbol below →
            ∀ line' ∈ linesOf source, ¬ listed below <+: line' := by
  obtain ⟨entries, hentries, rfl, hcarries, -, -, htexts⟩ := transduceAlc_spec hemitted h
  obtain ⟨hnodup, hsymbols⟩ := partEntries_names hentries
  obtain ⟨hkept, -, -⟩ := partEntries_ok hentries
  have hname := isSymbol_of_part h
  have hlookup {rule : String} {e : Entry} (he : (rule, e) ∈ entries) :
      entries.lookup rule = some e := Table.lookup_of_mem hnodup he
  refine ⟨fun kind => ⟨?_, fun hcarrier => ?_⟩, ?_⟩
  · rintro ⟨line, hline, hprefix⟩
    obtain ⟨e, he, -, rfl⟩ := (mem_lines_iff hname hsymbols hrule).mp
      ⟨hline, (List.prefix_append _ _).trans hprefix⟩
    have hkind := containerField_prefix_iff.mp ((List.prefix_append_right_inj _).mp hprefix)
    cases hcont : e.continues with
    | false => exact .inl (hkept.own rule e kind (hlookup he) hkind hcont)
    | true => exact .inr ((hcarries rule kind).mp ⟨e, hlookup he, hkind, hcont⟩)
  · obtain ⟨e, he, hkind⟩ : ∃ e, entries.lookup rule = some e ∧ e.container = some kind := by
      obtain hbegins | hreached := hcarrier
      · obtain ⟨e, he, hkind, -⟩ := hkept.begins rule kind hbegins
        exact ⟨e, he, hkind⟩
      · obtain ⟨e, he, hkind, -⟩ := (hcarries rule kind).mpr hreached
        exact ⟨e, he, hkind⟩
    have hfields : entryFields e ≠ [] := by simp [entryFields, hkind]
    refine ⟨_, ((mem_lines_iff hname hsymbols hrule).mpr
      ⟨e, Table.mem_of_lookup he, hfields, rfl⟩).1, ?_⟩
    exact (List.prefix_append_right_inj _).mpr (containerField_prefix_iff.mpr hkind)
  · intro line hline hprefix htext side hside alt halt pushed hpushed below hreaches hbelow line'
      hline' hprefix'
    obtain ⟨e, he, hfields, rfl⟩ := (mem_lines_iff hname hsymbols hrule).mp ⟨hline, hprefix⟩
    have hfills := (textField_suffix_iff hfields _).mp htext
    obtain ⟨e', he', -, -⟩ := (mem_lines_iff hname hsymbols hbelow).mp ⟨hline', hprefix'⟩
    exact htexts rule e (hlookup he) hfills side hside alt halt pushed hpushed below hreaches
      (List.mem_map_of_mem he')

end

end TabnasBnf.Wire
