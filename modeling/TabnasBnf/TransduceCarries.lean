import TabnasBnf.Transduce
import TabnasBnf.AttachActions

/-!
# What the transducer part lists

* `ruleEntries_spec`: the entries the scans start from hold the containers that rules begin.
* `Kept` is what holds between two hand-overs; a scan that changes nothing has handed every
  container on (`handDown_spec`), and there are scans enough for one.
* **`transduceAlc_spec`**: a rule carries a container on exactly when closes lead to it from a rule
  that begins it, and nothing listed can be reached beneath a text.
-/

namespace TabnasBnf.Wire

open Relation

/-! ## What a rule's value actions do -/

theorem Container.action_injective : Function.Injective Container.action := by
  intro a b h
  cases a <;> cases b <;> first | rfl | exact absurd h (by decide)

theorem Container.action_mem (kind : Container) : kind.action ∈ valueActions := by
  cases kind <;> decide

/-- The names of an alternate's value actions. -/
theorem names_valueActs (alt : AltSpec) :
    (valueActs alt).map Prod.fst = alt.actions.filter valueActions.contains := by
  rw [valueActs, List.map_map]
  exact List.map_id _

theorem action_mem_valueActs {alt : AltSpec} {kind : Container} :
    kind.action ∈ (valueActs alt).map Prod.fst ↔ kind.action ∈ alt.actions := by
  rw [names_valueActs, List.mem_filter]
  exact and_iff_left (by simpa using kind.action_mem)

/-- An action that is accepted begins its container, which an open alternate's alone does. -/
theorem container_addAct {name side : String} {e e' : Entry} {act : String × Json}
    (h : addAct name side e act = .ok e') :
    e'.continues = e.continues ∧ (∀ kind, e'.container = some kind ↔
      e.container = some kind ∨ kind.action = act.1) ∧
      (side ≠ "open" → ∀ kind : Container, kind.action ≠ act.1) := by
  unfold addAct at h
  dsimp only at h
  split at h
  next hopen =>
    simp only [Bool.and_eq_true, Bool.or_eq_true, beq_iff_eq, Option.isNone_iff_eq_none] at hopen
    obtain ⟨⟨hact, hside⟩, hnone⟩ := hopen
    obtain rfl := Except.ok.inj h
    refine ⟨rfl, fun kind => ?_, fun hne => absurd hside hne⟩
    rw [hnone]
    obtain hact | hact := hact <;> rw [hact] <;> cases kind <;> simp [Container.action]
  next =>
    split at h
    next hkey =>
      simp only [Bool.and_eq_true, beq_iff_eq] at hkey
      obtain ⟨⟨⟨hact, hside⟩, -⟩, -⟩ := hkey
      obtain rfl := Except.ok.inj h
      refine ⟨rfl, fun kind => ?_, fun hne => absurd hside hne⟩
      rw [hact]
      cases kind <;> simp [Container.action]
    next =>
      split at h
      next hfill =>
        simp only [Bool.and_eq_true, Bool.or_eq_true, beq_iff_eq] at hfill
        obtain ⟨⟨hact, -⟩, -⟩ := hfill
        obtain rfl := Except.ok.inj h
        have hne : ∀ kind : Container, kind.action ≠ act.1 := by
          intro kind
          obtain hact | hact := hact <;> rw [hact] <;> cases kind <;> decide
        exact ⟨rfl, fun kind => by simp [hne kind], fun _ => hne⟩
      next => cases h

theorem container_addActs {name side : String} {acts : List (String × Json)} {e e' : Entry}
    (h : acts.foldlM (addAct name side) e = .ok e') :
    e'.continues = e.continues ∧ (∀ kind, e'.container = some kind ↔
      e.container = some kind ∨ kind.action ∈ acts.map Prod.fst) ∧
      (side ≠ "open" → ∀ kind : Container, kind.action ∉ acts.map Prod.fst) := by
  induction acts generalizing e with
  | nil =>
    obtain rfl := Except.ok.inj h
    exact ⟨rfl, fun kind => by simp, fun _ kind => by simp⟩
  | cons act acts ih =>
    rw [List.foldlM_cons] at h
    obtain ⟨e₁, hact, hrest⟩ := bind_eq_ok h
    obtain ⟨hcont, hkind, hside⟩ := container_addAct hact
    obtain ⟨hcont', hkind', hside'⟩ := ih hrest
    refine ⟨hcont'.trans hcont, fun kind => ?_, fun hne kind => ?_⟩
    · rw [hkind', hkind, List.map_cons, List.mem_cons, or_assoc]
    · rw [List.map_cons, List.mem_cons, not_or]
      exact ⟨hside hne kind, hside' hne kind⟩

/-- The actions of a side are those of its first alternate. -/
theorem sideActs_ok {name side : String} {alts : List AltSpec} {acts : List (String × Json)}
    (h : sideActs name side alts = .ok acts) : acts = (alts.head?.map valueActs).getD [] := by
  unfold sideActs at h
  split at h
  next => exact (Except.ok.inj h).symm
  next =>
    split at h
    next => exact (Except.ok.inj h).symm
    next => cases h

/-- The rule's first open alternate, whose value actions the others share, begins a container. -/
def BeginsIn (rs : RuleSpec) (kind : Container) : Prop :=
  ∃ alt ∈ rs.opens.head?, kind.action ∈ alt.actions

theorem ruleEntry_ok {name : String} {rs : RuleSpec} {e : Entry} (h : ruleEntry name rs = .ok e) :
    e.continues = false ∧ ∀ kind, e.container = some kind ↔ BeginsIn rs kind := by
  unfold ruleEntry at h
  rw [List.foldlM_cons] at h
  obtain ⟨e₁, hopen, h⟩ := bind_eq_ok h
  rw [List.foldlM_cons] at h
  obtain ⟨e₂, hclose, h⟩ := bind_eq_ok h
  obtain rfl := Except.ok.inj h
  obtain ⟨acts, hacts, hopen⟩ := bind_eq_ok hopen
  obtain ⟨acts', -, hclose⟩ := bind_eq_ok hclose
  obtain rfl := sideActs_ok hacts
  obtain ⟨hcont, hkind, -⟩ := container_addActs hopen
  obtain ⟨hcont', hkind', hnone⟩ := container_addActs hclose
  refine ⟨hcont'.trans hcont, fun kind => ?_⟩
  rw [hkind', hkind, or_iff_left (hnone (by decide) kind)]
  have hhead : rs.alts "open" = rs.opens := rfl
  rw [hhead, BeginsIn]
  cases rs.opens.head? with
  | none => simp
  | some alt => simp [action_mem_valueActs]

section

variable {σ ε : Type} (spec : GrammarSpec σ ε)

/-- A rule begins a container. -/
def Begins (name : String) (kind : Container) : Prop := ∃ rs ∈ spec.ruleOf name, BeginsIn rs kind

/-- A rule's close replaces it with another. -/
def Replaces (a b : String) : Prop := b ∈ replacements spec a

/-- A rule can be reached, by one close replacement or more, from one that begins the container. -/
def Reached (kind : Container) (name : String) : Prop :=
  ∃ b, Begins spec b kind ∧ TransGen (Replaces spec) b name

/-- A rule has the container, or can come to have it handed on. -/
def Carrier (kind : Container) (name : String) : Prop :=
  Begins spec name kind ∨ Reached spec kind name

/-- An entry carries on a container of the kind. -/
def Carries (entries : Entries) (name : String) (kind : Container) : Prop :=
  ∃ e, entries.lookup name = some e ∧ e.container = some kind ∧ e.continues = true

/-- What holds between two hand-overs. -/
structure Kept (entries : Entries) : Prop where
  begins : ∀ name kind, Begins spec name kind →
    ∃ e, entries.lookup name = some e ∧ e.container = some kind ∧ e.continues = false
  own : ∀ name e kind, entries.lookup name = some e → e.container = some kind →
    e.continues = false → Begins spec name kind
  reached : ∀ name e, entries.lookup name = some e → e.continues = true →
    ∃ kind, e.container = some kind ∧ Reached spec kind name
  defined : ∀ name ∈ entries.map Prod.fst, (spec.ruleOf name).isSome

variable {spec}

theorem mem_ruleNames {name : String} (h : (spec.ruleOf name).isSome) : name ∈ ruleNames spec := by
  obtain ⟨rs, hrs⟩ := Option.isSome_iff_exists.mp h
  have hmem := Table.mem_of_lookup (Option.join_eq_some_iff.mp hrs)
  rw [ruleNames, List.mem_mergeSort]
  exact List.mem_map.mpr ⟨_, List.mem_filter.mpr ⟨hmem, rfl⟩, rfl⟩

/-- The entries are those of rules. -/
def Own (spec : GrammarSpec σ ε) (entries : Entries) : Prop :=
  ∀ name e, entries.lookup name = some e → ∃ rs ∈ spec.ruleOf name, ruleEntry name rs = .ok e

theorem addEntry_ok {entries entries' : Entries} {name : String}
    (h : addEntry spec entries name = .ok entries') (hown : Own spec entries) :
    Own spec entries' ∧ (∀ n e, entries.lookup n = some e → entries'.lookup n = some e) ∧
      ∀ rs ∈ spec.ruleOf name, ∃ e, ruleEntry name rs = .ok e ∧
        (e.container.isSome → entries'.lookup name = some e) := by
  unfold addEntry at h
  split at h
  next hnone =>
    obtain rfl := Except.ok.inj h
    refine ⟨hown, fun _ _ he => he, fun rs hrs => ?_⟩
    rw [hnone] at hrs
    cases hrs
  next rs hrs =>
    obtain ⟨e, he, h⟩ := bind_eq_ok h
    obtain rfl := Except.ok.inj h
    have hrule : ∀ rs' ∈ spec.ruleOf name, rs' = rs := fun rs' h' => by
      rw [hrs] at h'
      exact (Option.some.inj h').symm
    split
    next =>
      refine ⟨fun n e' hn => ?_, fun n e' hn => ?_, fun rs' hrs' => ?_⟩
      · rw [Table.lookup_insert] at hn
        split at hn
        next heq =>
          subst heq
          obtain rfl := Option.some.inj hn
          exact ⟨rs, hrs, he⟩
        next => exact hown n e' hn
      · rw [Table.lookup_insert]
        split
        next heq =>
          -- the entry of a rule is the one it had
          subst heq
          obtain ⟨rs', hrs', he'⟩ := hown n e' hn
          obtain rfl := hrule rs' hrs'
          rw [he'] at he
          exact congrArg some (Except.ok.inj he).symm
        next => exact hn
      · obtain rfl := hrule rs' hrs'
        exact ⟨e, he, fun _ => by rw [Table.lookup_insert, if_pos rfl]⟩
    next hempty =>
      refine ⟨hown, fun _ _ hn => hn, fun rs' hrs' => ?_⟩
      obtain rfl := hrule rs' hrs'
      refine ⟨e, he, fun hcont => absurd ?_ hempty⟩
      simp [hcont]

theorem addEntries_ok {names : List String} {entries entries' : Entries}
    (h : names.foldlM (addEntry spec) entries = .ok entries') (hown : Own spec entries) :
    Own spec entries' ∧ (∀ n e, entries.lookup n = some e → entries'.lookup n = some e) ∧
      ∀ name ∈ names, ∀ rs ∈ spec.ruleOf name, ∃ e, ruleEntry name rs = .ok e ∧
        (e.container.isSome → entries'.lookup name = some e) := by
  induction names generalizing entries with
  | nil =>
    obtain rfl := Except.ok.inj h
    exact ⟨hown, fun _ _ he => he, fun name hname => absurd hname List.not_mem_nil⟩
  | cons name names ih =>
    rw [List.foldlM_cons] at h
    obtain ⟨entries₁, hadd, hrest⟩ := bind_eq_ok h
    obtain ⟨hown₁, hkeep, hname⟩ := addEntry_ok hadd hown
    obtain ⟨hown', hkeep', hnames⟩ := ih hrest hown₁
    refine ⟨hown', fun n e he => hkeep' n e (hkeep n e he), ?_⟩
    refine List.forall_mem_cons.mpr ⟨fun rs hrs => ?_, hnames⟩
    obtain ⟨e, he, hlookup⟩ := hname rs hrs
    exact ⟨e, he, fun hcont => hkeep' _ _ (hlookup hcont)⟩

/-- **What the scans start from.** -/
theorem ruleEntries_spec {entries : Entries} (h : ruleEntries spec = .ok entries) :
    Kept spec entries := by
  obtain ⟨hown, -, hall⟩ := addEntries_ok h fun name e he => by cases he
  constructor
  case begins =>
    rintro name kind ⟨rs, hrs, hbegins⟩
    have hname : name ∈ ruleNames spec := mem_ruleNames (by rw [Option.mem_def.mp hrs]; rfl)
    obtain ⟨e, he, hlookup⟩ := hall name hname rs hrs
    obtain ⟨hcont, hkind⟩ := ruleEntry_ok he
    have hcontainer := (hkind kind).mpr hbegins
    exact ⟨e, hlookup (by rw [hcontainer]; rfl), hcontainer, hcont⟩
  case own =>
    intro name e kind he hcontainer _
    obtain ⟨rs, hrs, hentry⟩ := hown name e he
    exact ⟨rs, hrs, ((ruleEntry_ok hentry).2 kind).mp hcontainer⟩
  case reached =>
    intro name e he hcont
    obtain ⟨rs, -, hentry⟩ := hown name e he
    rw [(ruleEntry_ok hentry).1] at hcont
    cases hcont
  case defined =>
    intro name hname
    obtain ⟨e, he⟩ := Table.exists_lookup hname
    obtain ⟨rs, hrs, -⟩ := hown name e he
    rw [Option.mem_def.mp hrs]
    rfl

/-! ## The scans -/

/-- The rules that have no container. -/
def missing (spec : GrammarSpec σ ε) (entries : Entries) : Nat :=
  ((ruleNames spec).filter fun name => ((entries.lookup name).bind Entry.container).isNone).length

/-- A part of a scan: it finds its business done, or gives a rule a container. -/
structure Goes (spec : GrammarSpec σ ε) (settled : Entries → Prop) (st st' : Entries × Bool) :
    Prop where
  kept : Kept spec st'.1
  progress : (st' = st ∧ settled st.1) ∨ (st'.2 = true ∧ missing spec st'.1 < missing spec st.1)

theorem Goes.trans {P Q : Entries → Prop} {st₁ st₂ st₃ : Entries × Bool} (h : Goes spec P st₁ st₂)
    (h' : Goes spec Q st₂ st₃) : Goes spec (fun entries => P entries ∧ Q entries) st₁ st₃ := by
  refine ⟨h'.kept, ?_⟩
  obtain ⟨rfl, hP⟩ | ⟨hch, hlt⟩ := h.progress
  · obtain ⟨rfl, hQ⟩ | hprogress := h'.progress
    · exact .inl ⟨rfl, hP, hQ⟩
    · exact .inr hprogress
  · obtain ⟨rfl, -⟩ | ⟨hch', hlt'⟩ := h'.progress
    · exact .inr ⟨hch, hlt⟩
    · exact .inr ⟨hch', hlt'.trans hlt⟩

theorem Goes.foldlM {α : Type} {f : Entries × Bool → α → Except String (Entries × Bool)}
    {P : α → Entries → Prop} {l : List α}
    (hf : ∀ a ∈ l, ∀ st st', Kept spec st.1 → f st a = .ok st' → Goes spec (P a) st st')
    {st st' : Entries × Bool} (hkept : Kept spec st.1) (h : l.foldlM f st = .ok st') :
    Goes spec (fun entries => ∀ a ∈ l, P a entries) st st' := by
  induction l generalizing st with
  | nil =>
    obtain rfl := Except.ok.inj h
    exact ⟨hkept, .inl ⟨rfl, fun a ha => absurd ha List.not_mem_nil⟩⟩
  | cons a l ih =>
    rw [List.foldlM_cons] at h
    obtain ⟨st₁, hstep, hrest⟩ := bind_eq_ok h
    obtain ⟨hhead, htail⟩ := List.forall_mem_cons.mp hf
    have hfirst := hhead st st₁ hkept hstep
    have hall := hfirst.trans (ih htail hfirst.kept hrest)
    refine ⟨hall.kept, hall.progress.imp_left fun ⟨heq, hsettled⟩ => ⟨heq, ?_⟩⟩
    exact List.forall_mem_cons.mpr hsettled

/-- A rule that had no container has one. -/
theorem missing_insert {entries : Entries} {next : String} {e : Entry}
    (hdefined : (spec.ruleOf next).isSome)
    (hnone : ((entries.lookup next).getD {}).container = none) (hsome : e.container.isSome) :
    missing spec (Table.insert entries next e) < missing spec entries := by
  have hlookup : ((entries.lookup next).bind Entry.container).isNone = true := by
    cases hfound : entries.lookup next with
    | none => rfl
    | some e' =>
      rw [hfound] at hnone
      exact Option.isNone_iff_eq_none.mpr hnone
  have hfilter : ((ruleNames spec).filter fun name =>
      (((Table.insert entries next e).lookup name).bind Entry.container).isNone) =
      ((ruleNames spec).filter fun name =>
        ((entries.lookup name).bind Entry.container).isNone).filter (· ≠ next) := by
    rw [List.filter_filter]
    refine List.filter_congr fun name _ => ?_
    rw [Table.lookup_insert]
    by_cases heq : name = next
    · obtain ⟨kind, hkind⟩ := Option.isSome_iff_exists.mp hsome
      simp [heq, hkind]
    · simp [heq]
  rw [missing, hfilter, missing, List.length_filter_lt_length_iff_exists]
  exact ⟨next, List.mem_filter.mpr ⟨mem_ruleNames hdefined, hlookup⟩, by simp⟩

/-- Reaching a rule from one that has the container. -/
theorem Carrier.next {kind : Container} {name next : String} (h : Carrier spec kind name)
    (hnext : next ∈ replacements spec name) : Reached spec kind next := by
  obtain hbegins | ⟨b, hb, hpath⟩ := h
  · exact ⟨name, hbegins, .single hnext⟩
  · exact ⟨b, hb, hpath.tail hnext⟩

theorem Kept.carrier {entries : Entries} (h : Kept spec entries) {name : String}
    {kind : Container} (hname : (entries.lookup name).bind Entry.container = some kind) :
    Carrier spec kind name := by
  obtain ⟨e, he, hkind⟩ := Option.bind_eq_some_iff.mp hname
  cases hcont : e.continues with
  | false => exact .inl (h.own name e kind he hkind hcont)
  | true =>
    obtain ⟨kind', hkind', hreached⟩ := h.reached name e he hcont
    obtain rfl := Option.some.inj (hkind.symm.trans hkind')
    exact .inr hreached

/-- **One hand-over.** -/
theorem handOn_goes {name next : String} {kind : Container} {st st' : Entries × Bool}
    (hcarrier : Carrier spec kind name) (hnext : next ∈ replacements spec name)
    (hkept : Kept spec st.1) (h : handOn spec name kind st next = .ok st') :
    Goes spec (fun entries => Carries entries next kind) st st' := by
  have hreached := hcarrier.next hnext
  unfold handOn at h
  split at h
  next => cases h
  next hrule =>
    have hdefined : (spec.ruleOf next).isSome := by simpa [Option.isSome_iff_ne_none] using hrule
    dsimp only at h
    split at h
    next hnone =>
      obtain rfl := Except.ok.inj h
      refine ⟨?_, .inr ⟨rfl, missing_insert hdefined hnone rfl⟩⟩
      constructor
      case begins =>
        intro n k hbegins
        obtain ⟨e, he, hkind, hcont⟩ := hkept.begins n k hbegins
        refine ⟨e, ?_, hkind, hcont⟩
        rw [Table.lookup_insert, if_neg ?_]
        · exact he
        · rintro rfl
          rw [he, Option.getD_some, hkind] at hnone
          cases hnone
      case own =>
        intro n e k he hkind hcont
        rw [Table.lookup_insert] at he
        split at he
        · obtain rfl := Option.some.inj he
          cases hcont
        · exact hkept.own n e k he hkind hcont
      case reached =>
        intro n e he hcont
        rw [Table.lookup_insert] at he
        split at he
        next heq =>
          subst heq
          obtain rfl := Option.some.inj he
          exact ⟨kind, rfl, hreached⟩
        next => exact hkept.reached n e he hcont
      case defined =>
        intro n hn
        obtain rfl | hn := Table.mem_keys_insert.mp hn
        · exact hdefined
        · exact hkept.defined n hn
    next kind' hkind' =>
      split at h
      next => cases h
      next hsame =>
        split at h
        next => cases h
        next hcont =>
          obtain rfl := Except.ok.inj h
          refine ⟨hkept, .inl ⟨rfl, ?_⟩⟩
          obtain rfl : kind' = kind := by simpa using hsame
          cases hfound : st.1.lookup next with
          | none =>
            rw [hfound] at hkind'
            cases hkind'
          | some e =>
            rw [hfound] at hkind' hcont
            exact ⟨e, hfound, hkind', by simpa using hcont⟩

/-- A rule has handed its container on. -/
def Settled (spec : GrammarSpec σ ε) (name : String) (entries : Entries) : Prop :=
  ∀ kind, (entries.lookup name).bind Entry.container = some kind →
    ∀ next ∈ replacements spec name, Carries entries next kind

theorem handRule_goes {name : String} {st st' : Entries × Bool} (hkept : Kept spec st.1)
    (h : handRule spec st name = .ok st') : Goes spec (Settled spec name) st st' := by
  unfold handRule at h
  split at h
  next hnone =>
    obtain rfl := Except.ok.inj h
    refine ⟨hkept, .inl ⟨rfl, fun kind hkind => ?_⟩⟩
    rw [hnone] at hkind
    cases hkind
  next kind hkind =>
    have hcarrier := hkept.carrier hkind
    have hgoes := Goes.foldlM (P := fun next entries => Carries entries next kind)
      (fun next hnext _ _ hkept h => handOn_goes hcarrier hnext hkept h) hkept h
    refine ⟨hgoes.kept, hgoes.progress.imp_left fun ⟨heq, hsettled⟩ => ⟨heq, fun kind' hkind' => ?_⟩⟩
    obtain rfl := Option.some.inj (hkind.symm.trans hkind')
    exact hsettled

theorem scan_goes {entries : Entries} {st : Entries × Bool} (hkept : Kept spec entries)
    (h : scan spec entries = .ok st) :
    Goes spec (fun entries => ∀ name ∈ ruleNames spec, Settled spec name entries)
      (entries, false) st :=
  Goes.foldlM (fun _ _ _ _ hkept h => handRule_goes hkept h) hkept h

/-- **The last scan changes nothing**: every container is handed on. -/
theorem handDown_spec {scans : Nat} {entries entries' : Entries} (hkept : Kept spec entries)
    (hscans : missing spec entries < scans) (h : handDown spec scans entries = .ok entries') :
    Kept spec entries' ∧ ∀ name ∈ ruleNames spec, Settled spec name entries' := by
  induction scans generalizing entries with
  | zero => exact absurd hscans (Nat.not_lt_zero _)
  | succ scans ih =>
    obtain ⟨st, hscan, h⟩ := bind_eq_ok h
    have hgoes := scan_goes hkept hscan
    obtain ⟨rfl, hsettled⟩ | ⟨hch, hlt⟩ := hgoes.progress
    · obtain rfl := Except.ok.inj h
      exact ⟨hkept, hsettled⟩
    · rw [if_pos hch] at h
      exact ih hgoes.kept (Nat.lt_of_lt_of_le hlt (Nat.lt_succ_iff.mp hscans)) h

/-! ## The part -/

theorem forM_ok {α ε : Type} {f : α → Except ε Unit} {l : List α} (h : l.forM f = .ok ()) :
    ∀ a ∈ l, f a = .ok () := by
  induction l with
  | nil => exact fun a ha => absurd ha List.not_mem_nil
  | cons a l ih =>
    obtain ⟨⟨⟩, ha, hl⟩ := bind_eq_ok h
    exact List.forall_mem_cons.mpr ⟨ha, ih hl⟩

/-- Nothing with an entry can be reached from what a rule with a text pushes. -/
theorem checkTexts_ok {entries : Entries} (hkept : Kept spec entries)
    (h : checkTexts spec entries = .ok ()) {name : String} {e : Entry}
    (he : entries.lookup name = some e) (htext : e.fills = some .text) :
    ∀ pushed ∈ pushes spec name, ∀ w, Search.Reaches (succOf spec) pushed w →
      w ∉ entries.map Prod.fst := by
  intro pushed hpushed w hreaches hw
  have hmem : (name, e) ∈ inOrder entries := List.mem_mergeSort.mpr (Table.mem_of_lookup he)
  have hentry := forM_ok h _ hmem
  rw [if_neg (by simp [htext])] at hentry
  have hbeneath := forM_ok hentry pushed hpushed
  split at hbeneath
  next hnone =>
    have hknown : ∀ v, succOf spec v ≠ none → v ∈ spec.rule.map Prod.fst := by
      intro v hv
      cases hlookup : spec.rule.lookup v with
      | none => exact absurd (by simp [succOf, GrammarSpec.ruleOf, hlookup]) hv
      | some rs => exact List.mem_map_of_mem (f := Prod.fst) (Table.mem_of_lookup hlookup)
    have hentry : succOf spec w ≠ none := by
      obtain ⟨rs, hrs⟩ := Option.isSome_iff_exists.mp (hkept.defined w hw)
      simp [succOf, hrs]
    have hstop := Search.search_none hknown hnone hreaches hentry
    simp [hw] at hstop
  next => cases hbeneath

/-- No close alternate pushes a rule, as the compiler writes them. -/
def GrammarSpec.ClosesReplace (spec : GrammarSpec σ ε) : Prop :=
  ∀ name, ∀ alt ∈ spec.altsOf name "close", alt.p = none

/-- The entries of the part. -/
theorem partEntries_ok {entries : Entries} (h : partEntries spec = .ok entries) :
    Kept spec entries ∧ (∀ name ∈ ruleNames spec, Settled spec name entries) ∧
      checkTexts spec entries = .ok () := by
  obtain ⟨entries₀, hentries, h⟩ := bind_eq_ok h
  obtain ⟨entries₁, hdown, h⟩ := bind_eq_ok h
  obtain ⟨⟨⟩, -, h⟩ := bind_eq_ok h
  obtain ⟨⟨⟩, -, h⟩ := bind_eq_ok h
  obtain ⟨⟨⟩, htexts, h⟩ := bind_eq_ok h
  obtain rfl := Except.ok.inj h
  have hmissing : missing spec entries₀ < (ruleNames spec).length + 1 :=
    Nat.lt_succ_of_le (List.length_filter_le _ _)
  obtain ⟨hkept, hsettled⟩ := handDown_spec (ruleEntries_spec hentries) hmissing hdown
  exact ⟨hkept, hsettled, htexts⟩

theorem transduceAlc_part {name entry source : String}
    (h : transduceAlc spec name = .part entry source) :
    ∃ entries, partEntries spec = .ok entries ∧ entry = name ++ "-transduce" ∧
      source = partSource name entries := by
  unfold transduceAlc at h
  split at h
  next => cases h
  next =>
    split at h
    next => cases h
    next entries hentries =>
      split at h
      next => cases h
      next =>
        split at h
        next =>
          obtain ⟨rfl, rfl⟩ := TransducePart.part.inj h
          exact ⟨entries, hentries, rfl, rfl⟩
        next => cases h

/-- Every container is carried where closes lead. -/
theorem carries_of_reached {entries : Entries} (hkept : Kept spec entries)
    (hsettled : ∀ name ∈ ruleNames spec, Settled spec name entries) {name : String}
    {kind : Container} (h : Reached spec kind name) : Carries entries name kind := by
  obtain ⟨b, hb, hpath⟩ := h
  induction hpath with
  | single hnext =>
    obtain ⟨e, he, hkind, -⟩ := hkept.begins b kind hb
    have hdefined := hkept.defined b (List.mem_map_of_mem (f := Prod.fst) (Table.mem_of_lookup he))
    exact hsettled b (mem_ruleNames hdefined) kind (by rw [he]; exact hkind) _ hnext
  | tail _ hnext ih =>
    obtain ⟨e, he, hkind, -⟩ := ih
    have hdefined := hkept.defined _ (List.mem_map_of_mem (f := Prod.fst) (Table.mem_of_lookup he))
    exact hsettled _ (mem_ruleNames hdefined) kind (by rw [he]; exact hkind) _ hnext

/-- **What a part lists.** A rule carries a container on exactly when closes lead to it from a rule
that begins it; such a rule is of one kind and begins none of its own; and beneath what a rule with
a text pushes there is no rule with an entry. -/
theorem transduceAlc_spec {name entry source : String} (hemitted : spec.ClosesReplace)
    (h : transduceAlc spec name = .part entry source) :
    ∃ entries, partEntries spec = .ok entries ∧ source = partSource name entries ∧
      (∀ rule kind, Carries entries rule kind ↔ Reached spec kind rule) ∧
      (∀ rule kind kind', Reached spec kind rule → Reached spec kind' rule → kind = kind') ∧
      (∀ rule kind kind', Reached spec kind rule → ¬Begins spec rule kind') ∧
      ∀ rule e, entries.lookup rule = some e → e.fills = some .text →
        ∀ side ∈ ["open", "close"], ∀ alt ∈ spec.altsOf rule side, ∀ pushed ∈ named alt.p,
          ∀ below, Search.Reaches (succOf spec) pushed below → below ∉ entries.map Prod.fst := by
  obtain ⟨entries, hentries, -, rfl⟩ := transduceAlc_part h
  obtain ⟨hkept, hsettled, htexts⟩ := partEntries_ok hentries
  have hcarries : ∀ {rule kind}, Reached spec kind rule → Carries entries rule kind :=
    fun h => carries_of_reached hkept hsettled h
  refine ⟨entries, hentries, rfl, fun rule kind => ⟨?_, hcarries⟩, ?_, ?_, ?_⟩
  · rintro ⟨e, he, hkind, hcont⟩
    obtain ⟨kind', hkind', hreached⟩ := hkept.reached rule e he hcont
    obtain rfl := Option.some.inj (hkind.symm.trans hkind')
    exact hreached
  · intro rule kind kind' hk hk'
    obtain ⟨e, he, hkind, -⟩ := hcarries hk
    obtain ⟨e', he', hkind', -⟩ := hcarries hk'
    obtain rfl := Option.some.inj (he.symm.trans he')
    exact Option.some.inj (hkind.symm.trans hkind')
  · intro rule kind kind' hk hbegins
    obtain ⟨e, he, -, hcont⟩ := hcarries hk
    obtain ⟨e', he', -, hcont'⟩ := hkept.begins rule kind' hbegins
    obtain rfl := Option.some.inj (he.symm.trans he')
    rw [hcont] at hcont'
    cases hcont'
  · intro rule e he htext side hside alt halt pushed hpushed
    simp only [List.mem_cons, List.not_mem_nil, or_false] at hside
    obtain rfl | rfl := hside
    · exact checkTexts_ok hkept htexts he htext pushed (List.mem_flatMap.mpr ⟨alt, halt, hpushed⟩)
    · rw [hemitted rule alt halt] at hpushed
      cases hpushed

end

/-- A rule that begins an object, whose member is the text of the rule it pushes, and a rule that
carries the object on. -/
def carriedSpec : GrammarSpec Unit Unit where
  refs := []
  options := [("rule", .obj [("start", .str "__start__")])]
  rule := [
    ("__start__", some { opens := [{ fields := [("p", .str "s")] }] }),
    ("s", some
      { opens := [{ fields :=
          [("p", .str "u"), ("a", .arr [.str "@object$", .str "@key$"]),
            ("k", .obj [("key$", .obj [("lit", .str "x")])])] }]
        close := some [{ fields :=
          [("r", .str "t"), ("a", .str "@setval$"),
            ("k", .obj [("setval$", .obj [("src", .bool true)])])] }] }),
    ("t", some { opens := [{ fields := [("s", .str "#X")] }] }),
    ("u", some { opens := [{ fields := [("s", .str "#Y")] }] })]

/-- The entry of the rule that begins it. -/
def beginningEntry : Entry :=
  { container := some .object, member := some "x", fills := some .text }

/-- Its entries. -/
def carriedEntries : Entries :=
  [("s", beginningEntry), ("t", { container := some .object, continues := true })]

theorem ruleNames_carried : ruleNames carriedSpec = ["__start__", "s", "t", "u"] :=
  List.mergeSort_of_pairwise (by decide)

theorem partEntries_carried : partEntries carriedSpec = .ok carriedEntries := by
  have hentries : ruleEntries carriedSpec = .ok [("s", beginningEntry)] := by
    rw [ruleEntries, ruleNames_carried]
    rfl
  have hscan : scan carriedSpec [("s", beginningEntry)] = .ok (carriedEntries, true) := by
    rw [scan, ruleNames_carried]
    rfl
  have hlast : scan carriedSpec carriedEntries = .ok (carriedEntries, false) := by
    rw [scan, ruleNames_carried]
    rfl
  have horder : inOrder carriedEntries = carriedEntries := List.mergeSort_of_pairwise (by decide)
  have hsymbols : checkSymbols carriedEntries = .ok () := by
    rw [checkSymbols, horder]
    rfl
  have hreplaced : checkReplaced carriedSpec carriedEntries = .ok () := by
    rw [checkReplaced, horder]
    rfl
  have htexts : checkTexts carriedSpec carriedEntries = .ok () := by
    rw [checkTexts, horder]
    rfl
  rw [partEntries, hentries, ruleNames_carried]
  show (handDown carriedSpec 5 _ >>= fun _ => _) = _
  rw [handDown, hscan]
  show (handDown carriedSpec 4 carriedEntries >>= fun _ => _) = _
  rw [handDown, hlast]
  show (checkSymbols carriedEntries >>= fun _ => _) = _
  rw [hsymbols]
  show (checkReplaced carriedSpec carriedEntries >>= fun _ => _) = _
  rw [hreplaced]
  show (checkTexts carriedSpec carriedEntries >>= fun _ => _) = _
  rw [htexts]
  rfl

theorem transduceAlc_carried :
    transduceAlc carriedSpec "g" = .part "g-transduce" (partSource "g" carriedEntries) := by
  rw [transduceAlc, partEntries_carried]
  rfl

/-- The rule `t` carries on the object that `s` begins, and nothing listed is beneath the rule `u`
whose text is its member. -/
theorem transduceAlc_spec_carried :
    transduceAlc carriedSpec "g" = .part "g-transduce" (partSource "g" carriedEntries) ∧
      (Carries carriedEntries "t" .object ↔ Reached carriedSpec .object "t") ∧
      ∀ below, Search.Reaches (succOf carriedSpec) "u" below →
        below ∉ carriedEntries.map Prod.fst := by
  have hcloses : carriedSpec.ClosesReplace := by
    intro name alt halt
    rw [GrammarSpec.altsOf] at halt
    cases hrule : carriedSpec.ruleOf name with
    | none =>
      rw [hrule] at halt
      cases halt
    | some rs =>
      rw [hrule] at halt
      have hmem := Table.mem_of_lookup (Option.join_eq_some_iff.mp hrule)
      have hall : ∀ e ∈ carriedSpec.rule, ∀ rs ∈ e.2, ∀ alt ∈ rs.alts "close", alt.p = none := by
        decide
      exact hall _ hmem rs rfl alt halt
  obtain ⟨entries, hentries, -, hcarries, -, -, htexts⟩ :=
    transduceAlc_spec hcloses transduceAlc_carried
  obtain rfl := Except.ok.inj (partEntries_carried.symm.trans hentries)
  exact ⟨transduceAlc_carried, hcarries "t" .object,
    htexts "s" beginningEntry rfl rfl "open" (by decide) _ List.mem_cons_self "u" (by decide)⟩

end TabnasBnf.Wire
