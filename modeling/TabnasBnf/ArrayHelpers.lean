import TabnasBnf.Annotate
import TabnasBnf.LeftRecOrder

/-!
# The helpers that fill an array

The walks of `plan_array_helpers` enter a helper by its references and go no further from what is
none (`OverHelpers`), so both pass along `HelperEdge`.

* `yieldsElements_iff`: a part yields elements when it leads, through helpers, to what is none.
* **`mem_planArrayHelpers`**: the helpers that fill an array are those that a part which collects
  elements leads to through helpers.
-/

namespace TabnasBnf

open Relation

section

variable {prods : List Production}

/-- The rule of that name is a generated helper. -/
def IsHelper (prods : List Production) (n : String) : Prop :=
  ∃ p, byName prods n = some p ∧ p.nodeKind = .helper

/-- A helper refers to a name. -/
def HelperEdge (prods : List Production) (n m : String) : Prop :=
  ∃ p, byName prods n = some p ∧ p.nodeKind = .helper ∧ m ∈ refNames p

/-- A rule leads, through helpers, to a reference to what is none: an element. -/
def Yields (prods : List Production) (n : String) : Prop :=
  ∃ p, byName prods n = some p ∧
    ∃ r ∈ refNames p, ∃ m, ReflTransGen (HelperEdge prods) r m ∧ ¬IsHelper prods m

/-- A walk that enters a helper by its references, and goes no further from what is none. -/
structure OverHelpers (prods : List Production) (move : String → Walk.Move String String Unit) :
    Prop where
  helper : ∀ {n p}, byName prods n = some p → p.nodeKind = .helper →
    move n = .enter n (refNames p)
  other : ∀ {n}, ¬IsHelper prods n → move n = .into [] ∨ move n = .found ()

theorem overHelpers_helperMove : OverHelpers prods (helperMove prods) where
  helper hp hkind := by simp [helperMove, hp, hkind]
  other {n} h := by
    refine .inl ?_
    cases hp : byName prods n with
    | none => simp [helperMove, hp]
    | some p =>
      have hkind : p.nodeKind ≠ .helper := fun hkind => h ⟨p, hp, hkind⟩
      simp [helperMove, hp, hkind]

theorem yieldsMove_of_not {n : String} (h : ¬IsHelper prods n) : yieldsMove prods n = .found () := by
  cases hp : byName prods n with
  | none => simp [yieldsMove, hp]
  | some p =>
    have hkind : p.nodeKind ≠ .helper := fun hkind => h ⟨p, hp, hkind⟩
    simp [yieldsMove, hp, hkind]

theorem overHelpers_yieldsMove : OverHelpers prods (yieldsMove prods) where
  helper hp hkind := by simp [yieldsMove, hp, hkind]
  other h := .inr (yieldsMove_of_not h)

variable {move : String → Walk.Move String String Unit}

theorem OverHelpers.enter (h : OverHelpers prods move) {n k : String} {items : List String}
    (hmove : move n = .enter k items) :
    n = k ∧ ∃ p, byName prods k = some p ∧ p.nodeKind = .helper ∧ items = refNames p := by
  by_cases hn : IsHelper prods n
  · obtain ⟨p, hp, hkind⟩ := hn
    obtain ⟨rfl, rfl⟩ := Walk.Move.enter.inj ((h.helper hp hkind).symm.trans hmove)
    exact ⟨rfl, p, hp, hkind, rfl⟩
  · rcases h.other hn with hnone | hnone
    · cases hnone.symm.trans hmove
    · cases hnone.symm.trans hmove

theorem OverHelpers.into (h : OverHelpers prods move) {n : String} {items : List String}
    (hmove : move n = .into items) : items = [] := by
  by_cases hn : IsHelper prods n
  · obtain ⟨p, hp, hkind⟩ := hn
    cases (h.helper hp hkind).symm.trans hmove
  · rcases h.other hn with hnone | hnone
    · exact (Walk.Move.into.inj (hnone.symm.trans hmove)).symm
    · cases hnone.symm.trans hmove

theorem OverHelpers.paid (h : OverHelpers prods move) :
    Walk.Paid move (fun _ => 1) (nameEntries prods) where
  pos _ := Nat.one_pos
  into n items hmove := by simp [h.into hmove, Walk.load]
  enter n k items hmove := by
    obtain ⟨-, p, hp, -, rfl⟩ := h.enter hmove
    obtain ⟨hmem, rfl⟩ := mem_of_byName hp
    exact List.mem_map.mpr ⟨p, hmem, rfl⟩
  key n n' k items items' hmove hmove' := by
    obtain ⟨-, p, hp, -, rfl⟩ := h.enter hmove
    obtain ⟨-, p', hp', -, rfl⟩ := h.enter hmove'
    rw [Option.some.inj (hp.symm.trans hp')]

/-- Such a walk passes along the references of helpers. -/
theorem OverHelpers.reaches (h : OverHelpers prods move) :
    Walk.Reaches move = ReflTransGen (HelperEdge prods) := by
  have hpasses : Walk.Passes move = HelperEdge prods := by
    funext n m
    refine propext ⟨fun hm => ?_, ?_⟩
    · by_cases hn : IsHelper prods n
      · obtain ⟨p, hp, hkind⟩ := hn
        rw [Walk.Passes, h.helper hp hkind] at hm
        exact ⟨p, hp, hkind, hm⟩
      · rcases h.other hn with hnone | hnone
        · simp [Walk.Passes, hnone, Walk.Move.items] at hm
        · simp [Walk.Passes, hnone, Walk.Move.items] at hm
    · rintro ⟨p, hp, hkind, hm⟩
      rw [Walk.Passes, h.helper hp hkind]
      exact hm
  rw [Walk.Reaches, hpasses]

/-- **The walk for elements finds one that can be reached.** -/
theorem yieldsElements_iff {n : String} : yieldsElements prods n = true ↔ Yields prods n := by
  unfold yieldsElements Yields
  cases hp : byName prods n with
  | none => simp
  | some p =>
    have hsettled : Walk.Settled (yieldsMove prods) [n] (refNames p) := by
      intro k hk x items hx y hy
      obtain rfl := List.mem_singleton.mp hk
      obtain ⟨-, p', hp', -, rfl⟩ := overHelpers_yieldsMove.enter hx
      rw [← Option.some.inj (hp.symm.trans hp')] at hy
      exact .stack hy
    have hfound : ∀ m, (∃ r, yieldsMove prods m = .found r) ↔ ¬IsHelper prods m := by
      intro m
      refine ⟨?_, fun hm => ⟨(), yieldsMove_of_not hm⟩⟩
      rintro ⟨r, hr⟩ ⟨p', hp', hkind⟩
      cases (overHelpers_yieldsMove.helper hp' hkind).symm.trans hr
    simp only [Option.some.injEq, exists_eq_left',
      Walk.answer_isSome_iff overHelpers_yieldsMove.paid hsettled, overHelpers_yieldsMove.reaches,
      exists_and_left, hfound]

theorem answer_walkHelpers (helpers : List String) (n : String) :
    (Walk.walk (helperMove prods) (fun _ => 1) (nameEntries prods) helpers [n]).answer = none := by
  cases hanswer : (Walk.walk (helperMove prods) (fun _ => 1) (nameEntries prods) helpers
      [n]).answer with
  | none => rfl
  | some r =>
    obtain ⟨x, -, y, -, hy⟩ := Walk.met_walk.answer r hanswer
    rw [helperMove] at hy
    cases hp : byName prods y with
    | none => simp [hp] at hy
    | some p => cases hkind : p.nodeKind <;> simp [hp, hkind] at hy

/-- **One walk** adds the helpers that a name leads to, and leaves them settled. -/
theorem walkHelpers_spec {helpers : List String} {n : String}
    (hsettled : Walk.Settled (helperMove prods) helpers []) :
    Walk.Settled (helperMove prods) (walkHelpers prods helpers n) [] ∧
      ∀ m, m ∈ walkHelpers prods helpers n ↔
        m ∈ helpers ∨ ReflTransGen (HelperEdge prods) n m ∧ IsHelper prods m := by
  have hstack : Walk.Settled (helperMove prods) helpers [n] := fun k hk x items hx y hy =>
    (hsettled k hk x items hx y hy).mono (List.Subset.refl _) fun _ hz => absurd hz List.not_mem_nil
  refine ⟨Walk.settled_walk overHelpers_helperMove.paid hstack (answer_walkHelpers helpers n),
    fun m => ?_⟩
  rw [walkHelpers, Walk.mem_seen_iff overHelpers_helperMove.paid hstack (answer_walkHelpers helpers n),
    overHelpers_helperMove.reaches]
  refine or_congr_right ?_
  constructor
  · rintro ⟨x, hx, y, items, hxy, hy⟩
    obtain rfl := List.mem_singleton.mp hx
    obtain ⟨rfl, p, hp, hkind, -⟩ := overHelpers_helperMove.enter hy
    exact ⟨hxy, p, hp, hkind⟩
  · rintro ⟨hnm, p, hp, hkind⟩
    exact ⟨n, List.mem_singleton_self n, m, refNames p, hnm, overHelpers_helperMove.helper hp hkind⟩

theorem mem_foldl_walkHelpers {seeds helpers : List String} {m : String}
    (hsettled : Walk.Settled (helperMove prods) helpers []) :
    m ∈ seeds.foldl (walkHelpers prods) helpers ↔
      m ∈ helpers ∨ ∃ n ∈ seeds, ReflTransGen (HelperEdge prods) n m ∧ IsHelper prods m := by
  induction seeds generalizing helpers with
  | nil => simp
  | cons n seeds ih =>
    obtain ⟨hkeep, hmem⟩ := walkHelpers_spec (n := n) hsettled
    rw [List.foldl_cons, ih hkeep, hmem, List.exists_mem_cons_iff, or_assoc]

/-- A part of an array that collects elements: its `k`-th reference, when the annotation was planned
with sugar there. -/
def CollectsPart (prods : List Production) (collect : List (String × List Bool)) (n : String) : Prop :=
  ∃ prod ∈ prods, prod.value.map ValueAnnotation.kind = some "array" ∧
    ∃ sugar, collect.lookup prod.originOf = some sugar ∧
      ∃ alt ∈ prod.alts, ∃ k : Nat, (alt.filterMap Element.refName)[k]? = some n ∧
        sugar[k]? = some true ∧ Yields prods n

theorem mem_collecting {sugar : List Bool} {alt : Sequence} {n : String} :
    n ∈ collecting prods sugar alt ↔ ∃ k : Nat, (alt.filterMap Element.refName)[k]? = some n ∧
      sugar[k]? = some true ∧ Yields prods n := by
  have hsugar : ∀ k : Nat, sugar.getD k false = true ↔ sugar[k]? = some true := by
    intro k
    rw [List.getD_eq_getElem?_getD]
    cases sugar[k]? <;> simp
  simp only [collecting, List.mem_map, List.mem_filter, Bool.and_eq_true, hsugar,
    yieldsElements_iff, List.mem_zipIdx_iff_getElem?, Prod.exists, exists_and_right, exists_eq_right]

theorem mem_arraySeeds {collect : List (String × List Bool)} {n : String} :
    n ∈ arraySeeds prods collect ↔ CollectsPart prods collect n := by
  unfold arraySeeds CollectsPart
  rw [List.mem_flatMap]
  refine exists_congr fun prod => and_congr_right fun _ => ?_
  by_cases harray : prod.value.map ValueAnnotation.kind = some "array"
  · rw [if_neg (by simp [harray])]
    cases hlookup : collect.lookup prod.originOf with
    | none => simp
    | some sugar => simp [harray, mem_collecting]
  · rw [if_pos (by simpa using harray)]
    simp [harray]

/-- **The helpers that fill an array**: those that a part which collects elements leads to through
helpers. -/
theorem mem_planArrayHelpers {grammar : Grammar} {collect : List (String × List Bool)} {m : String} :
    m ∈ planArrayHelpers grammar collect ↔
      ∃ n, CollectsPart grammar.productions collect n ∧
        ReflTransGen (HelperEdge grammar.productions) n m ∧ IsHelper grammar.productions m := by
  rw [planArrayHelpers, mem_foldl_walkHelpers fun _ hk => absurd hk List.not_mem_nil]
  simp [mem_arraySeeds]

end

end TabnasBnf
