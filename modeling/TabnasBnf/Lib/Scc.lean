import Mathlib.Data.List.Pairwise
import Mathlib.Logic.Function.Basic
import Mathlib.Logic.Relation
import Mathlib.Order.Nat

/-!
# Strongly connected components

A depth-first search that keeps its frames on a stack of its own (`next`), after Tarjan: the
vertices of unfinished components stand on a second stack, and a vertex whose lowlink is its own
index is the root of the component above it.

* `Inv` is what holds between two steps; `Inv.next` keeps it.
* **`Inv.mem_comps`**: once no frame is left, the vertices that were entered lie in the components
  found, each of which is one whole class of mutual reachability.
* `cyclic_iff`: the vertices on a cycle, by their components.
-/

namespace Scc

open Relation

variable {V : Type*} (succ : V → List V)

/-- The search: the next index, the index and lowlink of each vertex, the stack of the vertices
whose component is open, the frames with the edges still to be followed, and the components
found. -/
structure State (V : Type*) where
  index : Nat
  num : V → Option Nat
  low : V → Nat
  stack : List V
  frames : List (V × List V)
  comps : List (List V)

namespace State

/-- No vertex entered. -/
def empty : State V := ⟨0, fun _ => none, fun _ => 0, [], [], []⟩

/-- The index of a vertex. -/
def idx (s : State V) (v : V) : Nat := (s.num v).getD 0

/-- The vertex has an index. -/
def Visited (s : State V) (v : V) : Prop := (s.num v).isSome = true

/-- The vertices that have a frame, top first. -/
def active (s : State V) : List V := s.frames.map Prod.fst

/-- The edge from `v` to `w` is still to be followed. -/
def Pending (s : State V) (v w : V) : Prop := ∃ ws, (v, ws) ∈ s.frames ∧ w ∈ ws

variable [DecidableEq V]

/-- Enter a vertex. -/
def enter (s : State V) (v : V) : State V where
  index := s.index + 1
  num := Function.update s.num v (some s.index)
  low := Function.update s.low v s.index
  stack := v :: s.stack
  frames := (v, succ v) :: s.frames
  comps := s.comps

/-- Lower the lowlink of `v`. -/
def lower (s : State V) (v : V) (n : Nat) : State V :=
  { s with low := Function.update s.low v (min (s.low v) n) }

/-- Pop the component of `v`, if `v` is its root. -/
def close (s : State V) (v : V) : State V :=
  if s.low v = s.idx v then
    { s with
      stack := (s.stack.dropWhile (· ≠ v)).tail
      comps := s.comps ++ [s.stack.takeWhile (· ≠ v) ++ [v]] }
  else s

end State

open State

/-- One step of the search. -/
def next [DecidableEq V] (s : State V) : Option (State V) :=
  match s.frames with
  | [] => none
  | (v, w :: ws) :: fs =>
    let s := { s with frames := (v, ws) :: fs }
    if s.num w = none then some (s.enter succ w)
    else if w ∈ s.stack then some (s.lower v (s.idx w))
    else some s
  | (v, []) :: fs =>
    let s := { s with frames := fs }.close v
    match fs with
    | (u, _) :: _ => some (s.lower u (s.low v))
    | [] => some s

variable {succ} in
theorem next_follow [DecidableEq V] {s : State V} {v w : V} {ws : List V}
    {fs : List (V × List V)} (hfr : s.frames = (v, w :: ws) :: fs) :
    next succ s =
      if s.num w = none then some (({ s with frames := (v, ws) :: fs } : State V).enter succ w)
      else if w ∈ s.stack then
        some (({ s with frames := (v, ws) :: fs } : State V).lower v (s.idx w))
      else some { s with frames := (v, ws) :: fs } := by
  unfold next
  rw [hfr]
  rfl

variable {succ} in
theorem next_leave [DecidableEq V] {s : State V} {v : V} {fs : List (V × List V)} :
    s.frames = (v, []) :: fs → next succ s =
      match fs with
      | (u, _) :: _ => some ((({ s with frames := fs } : State V).close v).lower u
        ((({ s with frames := fs } : State V).close v).low v))
      | [] => some (({ s with frames := fs } : State V).close v) := by
  intro hfr
  unfold next
  rw [hfr]

/-- An edge. -/
def Edge (v w : V) : Prop := w ∈ succ v

/-- A path. -/
abbrev Reach : V → V → Prop := ReflTransGen (Edge succ)

/-- `g` has the last frame that was opened before `z` was. -/
def Owns (s : State V) (g z : V) : Prop :=
  s.idx g ≤ s.idx z ∧ ∀ h ∈ s.active, s.idx h ≤ s.idx z → s.idx h ≤ s.idx g

/-- What holds between two steps. -/
structure Inv (s : State V) : Prop where
  lt_index : ∀ v i, s.num v = some i → i < s.index
  visited : ∀ v ∈ s.stack, s.Visited v
  sorted : s.stack.Pairwise fun x y => s.idx y < s.idx x
  framed : ∀ g ∈ s.active, g ∈ s.stack
  nested : s.active.Pairwise fun x y => s.idx y < s.idx x
  targets : ∀ v w, s.Pending v w → Edge succ v w
  /-- An edge not followed yet is still to be followed. -/
  followed : ∀ v, s.Visited v → ∀ w, Edge succ v w → s.Visited w ∨ s.Pending v w
  /-- A frame's vertex reaches what was entered after it. -/
  down : ∀ g ∈ s.active, ∀ x ∈ s.stack, s.idx g ≤ s.idx x → Reach succ g x
  /-- What is on the stack reaches a frame's vertex entered no later. -/
  up : ∀ x ∈ s.stack, ∃ g ∈ s.active, s.idx g ≤ s.idx x ∧ Reach succ x g
  /-- No edge leaves the components found. -/
  closed : ∀ v, s.Visited v → v ∉ s.stack → ∀ w, Edge succ v w → s.Visited w ∧ w ∉ s.stack
  /-- A lowlink is the index of a vertex that is reached. -/
  low : ∀ g ∈ s.active, ∃ y ∈ s.stack, s.idx y = s.low g ∧ s.idx y ≤ s.idx g ∧ Reach succ g y
  /-- And no edge followed since leads below it. -/
  edges : ∀ g ∈ s.active, ∀ z ∈ s.stack, Owns s g z → ∀ y ∈ s.stack, Edge succ z y →
    s.Pending z y ∨ s.low g ≤ s.idx y
  comps : ∀ c ∈ s.comps, ∀ x ∈ c, ∀ y, y ∈ c ↔ Reach succ x y ∧ Reach succ y x
  nodup : ∀ c ∈ s.comps, c.Nodup
  found : ∀ v, s.Visited v ∧ v ∉ s.stack ↔ ∃ c ∈ s.comps, v ∈ c

variable {succ} {s : State V} {v w : V}

theorem Inv.empty : Inv succ (State.empty : State V) := by
  constructor <;> simp [State.empty, Visited, State.active, Pending]

/-- A vertex on the stack is known by its index. -/
theorem Inv.eq_of_idx (h : Inv succ s) {x y : V} (hx : x ∈ s.stack) (hy : y ∈ s.stack)
    (hxy : s.idx x = s.idx y) : x = y := by
  have hne : s.stack.Pairwise fun x y => s.idx x ≠ s.idx y := h.sorted.imp Nat.ne_of_gt
  have hsymm : Std.Symm fun x y => s.idx x ≠ s.idx y := ⟨fun _ _ => Ne.symm⟩
  by_contra hneq
  exact hne.forall hx hy hneq hxy

theorem Inv.idx_lt (h : Inv succ s) {x : V} (hx : s.Visited x) : s.idx x < s.index := by
  obtain ⟨i, hi⟩ := Option.isSome_iff_exists.mp hx
  unfold idx
  rw [hi]
  exact h.lt_index x i hi

/-- The frame on top is the last one opened. -/
theorem Inv.idx_le_top {ws : List V} {fs : List (V × List V)} (h : Inv succ s)
    (hfr : s.frames = (v, ws) :: fs) : ∀ g ∈ s.active, s.idx g ≤ s.idx v := by
  have hactive : s.active = v :: fs.map Prod.fst := by rw [active, hfr, List.map_cons]
  have hnested := h.nested
  rw [hactive] at hnested ⊢
  intro g hg
  obtain rfl | hg := List.mem_cons.mp hg
  · exact le_refl _
  · exact ((List.pairwise_cons.mp hnested).1 g hg).le

/-- The frames `fs'` are `fs` with one edge from `v` to `w` taken off. -/
structure Follows (v w : V) (fs fs' : List (V × List V)) : Prop where
  names : fs'.map Prod.fst = fs.map Prod.fst
  keeps : ∀ x y, (∃ ws, (x, ws) ∈ fs ∧ y ∈ ws) → (x = v ∧ y = w) ∨ ∃ ws, (x, ws) ∈ fs' ∧ y ∈ ws
  sub : ∀ x y, (∃ ws, (x, ws) ∈ fs' ∧ y ∈ ws) → ∃ ws, (x, ws) ∈ fs ∧ y ∈ ws

theorem follows_cons (v w : V) (ws : List V) (fs : List (V × List V)) :
    Follows v w ((v, w :: ws) :: fs) ((v, ws) :: fs) where
  names := rfl
  keeps := by
    rintro u y ⟨us, hmem, hy⟩
    obtain heq | hmem := List.mem_cons.mp hmem
    · obtain ⟨rfl, rfl⟩ := Prod.mk.inj heq
      exact (List.mem_cons.mp hy).imp (⟨rfl, ·⟩) fun hy => ⟨ws, List.mem_cons_self, hy⟩
    · exact .inr ⟨us, List.mem_cons_of_mem _ hmem, hy⟩
  sub := by
    rintro u y ⟨us, hmem, hy⟩
    obtain heq | hmem := List.mem_cons.mp hmem
    · obtain ⟨rfl, rfl⟩ := Prod.mk.inj heq
      exact ⟨w :: us, List.mem_cons_self, List.mem_cons_of_mem _ hy⟩
    · exact ⟨us, List.mem_cons_of_mem _ hmem, hy⟩

/-- An edge to a vertex that was entered is followed. -/
theorem Inv.follow (h : Inv succ s) {fs' : List (V × List V)} {low' : V → Nat}
    (hf : Follows v w s.frames fs') (hw : s.Visited w) (hle : ∀ g, low' g ≤ s.low g)
    (hlow : ∀ g ∈ s.active, ∃ y ∈ s.stack, s.idx y = low' g ∧ s.idx y ≤ s.idx g ∧ Reach succ g y)
    (hedge : w ∈ s.stack → ∀ g ∈ s.active, Owns s g v → low' g ≤ s.idx w) :
    Inv succ { s with frames := fs', low := low' } := by
  have hactive : ({ s with frames := fs', low := low' } : State V).active = s.active := hf.names
  constructor
  case lt_index => exact h.lt_index
  case visited => exact h.visited
  case sorted => exact h.sorted
  case framed => rw [hactive]; exact h.framed
  case nested => rw [hactive]; exact h.nested
  case targets => exact fun v y hp => h.targets v y (hf.sub v y hp)
  case followed =>
    intro v hv y hy
    obtain hvis | hp := h.followed v hv y hy
    · exact .inl hvis
    · obtain ⟨-, rfl⟩ | hp := hf.keeps v y hp
      · exact .inl hw
      · exact .inr hp
  case down => rw [hactive]; exact h.down
  case up => rw [hactive]; exact h.up
  case closed => exact h.closed
  case low => rw [hactive]; exact hlow
  case edges =>
    rw [hactive]
    intro g hg z hz howns y hy hzy
    have howns : Owns s g z := by
      refine ⟨howns.1, fun k hk => howns.2 k ?_⟩
      rw [hactive]
      exact hk
    obtain hp | hlt := h.edges g hg z hz howns y hy hzy
    · obtain ⟨rfl, rfl⟩ | hp := hf.keeps z y hp
      · exact .inr (hedge hy g hg howns)
      · exact .inl hp
    · exact .inr ((hle g).trans hlt)
  case comps => exact h.comps
  case nodup => exact h.nodup
  case found => exact h.found

section

variable [DecidableEq V]

@[simp] theorem idx_enter_self : (s.enter succ w).idx w = s.index := by simp [idx, enter]

theorem idx_enter_of_ne (h : v ≠ w) : (s.enter succ w).idx v = s.idx v := by
  simp [idx, enter, Function.update_of_ne h]

theorem visited_enter : (s.enter succ w).Visited v ↔ v = w ∨ s.Visited v := by
  unfold Visited enter
  by_cases h : v = w
  · simp [h]
  · simp [h]

omit [DecidableEq V] in
theorem ne_of_visited (hw : s.num w = none) (hv : s.Visited v) : v ≠ w := by
  rintro rfl
  rw [Visited, hw] at hv
  cases hv

/-- A vertex that every frame reaches is entered. -/
theorem Inv.enter (h : Inv succ s) {fs' : List (V × List V)} (hf : Follows v w s.frames fs')
    (hw : s.num w = none) (hreach : ∀ g ∈ s.active, Reach succ g w) :
    Inv succ (({ s with frames := fs' } : State V).enter succ w) := by
  obtain ⟨t, ht⟩ : ∃ t : State V, t = ({ s with frames := fs' } : State V).enter succ w := ⟨_, rfl⟩
  rw [← ht]
  have hactive : t.active = w :: s.active := by rw [ht]; exact congrArg (w :: ·) hf.names
  have hstack : t.stack = w :: s.stack := by rw [ht]; rfl
  have hcomps : t.comps = s.comps := by rw [ht]; rfl
  have hself : t.idx w = s.index := by rw [ht]; exact idx_enter_self
  have hother : ∀ {x}, x ≠ w → t.idx x = s.idx x := fun hx => by rw [ht]; exact idx_enter_of_ne hx
  have hvis : ∀ {x}, t.Visited x ↔ x = w ∨ s.Visited x := by rw [ht]; exact visited_enter
  have hlowself : t.low w = s.index := by rw [ht]; exact Function.update_self ..
  have hlowother : ∀ {x}, x ≠ w → t.low x = s.low x := fun hx => by
    rw [ht]
    exact Function.update_of_ne hx ..
  have hpending : ∀ {x y}, t.Pending x y ↔ (x = w ∧ Edge succ w y) ∨
      ∃ ws, (x, ws) ∈ fs' ∧ y ∈ ws := by
    intro x y
    rw [ht]
    simp [Pending, State.enter, Edge, or_and_right, exists_or, and_assoc]
  have hold : ∀ x ∈ s.stack, x ≠ w := fun x hx => ne_of_visited hw (h.visited x hx)
  have hlt : ∀ x ∈ s.stack, s.idx x < s.index := fun x hx => h.idx_lt (h.visited x hx)
  constructor
  case lt_index =>
    intro x i hi
    have hindex : t.index = s.index + 1 := by rw [ht]; rfl
    by_cases hx : x = w
    · have hnum : t.num w = some s.index := by rw [ht]; exact Function.update_self ..
      rw [hx, hnum] at hi
      obtain rfl := Option.some.inj hi
      omega
    · have hnum : t.num x = s.num x := by rw [ht]; exact Function.update_of_ne hx ..
      have := h.lt_index x i (hnum ▸ hi)
      omega
  case visited =>
    rw [hstack]
    exact List.forall_mem_cons.mpr ⟨hvis.mpr (.inl rfl), fun x hx => hvis.mpr (.inr (h.visited x hx))⟩
  case sorted =>
    rw [hstack]
    refine List.pairwise_cons.mpr ⟨fun x hx => ?_, h.sorted.imp_of_mem fun {x y} hx hy hxy => ?_⟩
    · rw [hself, hother (hold x hx)]
      exact hlt x hx
    · rwa [hother (hold x hx), hother (hold y hy)]
  case framed =>
    rw [hactive, hstack]
    exact List.forall_mem_cons.mpr
      ⟨List.mem_cons_self, fun g hg => List.mem_cons_of_mem _ (h.framed g hg)⟩
  case nested =>
    rw [hactive]
    refine List.pairwise_cons.mpr ⟨fun x hx => ?_, h.nested.imp_of_mem fun {x y} hx hy hxy => ?_⟩
    · rw [hself, hother (hold x (h.framed x hx))]
      exact hlt x (h.framed x hx)
    · rwa [hother (hold x (h.framed x hx)), hother (hold y (h.framed y hy))]
  case targets =>
    intro x y hp
    obtain ⟨rfl, hy⟩ | hp := hpending.mp hp
    · exact hy
    · exact h.targets x y (hf.sub x y hp)
  case followed =>
    intro x hx y hy
    obtain rfl | hx := hvis.mp hx
    · exact .inr (hpending.mpr (.inl ⟨rfl, hy⟩))
    · obtain hvisy | hp := h.followed x hx y hy
      · exact .inl (hvis.mpr (.inr hvisy))
      · obtain ⟨-, rfl⟩ | hp := hf.keeps x y hp
        · exact .inl (hvis.mpr (.inl rfl))
        · exact .inr (hpending.mpr (.inr hp))
  case down =>
    rw [hactive, hstack]
    intro g hg x hx hle
    obtain hgw | hgs := List.mem_cons.mp hg <;> obtain hxw | hxs := List.mem_cons.mp hx
    · rw [hgw, hxw]
    · rw [hgw, hself, hother (hold x hxs)] at hle
      exact absurd (hlt x hxs) (Nat.not_lt.mpr hle)
    · exact hxw ▸ hreach g hgs
    · rw [hother (hold g (h.framed g hgs)), hother (hold x hxs)] at hle
      exact h.down g hgs x hxs hle
  case up =>
    rw [hactive, hstack]
    intro x hx
    obtain rfl | hx := List.mem_cons.mp hx
    · exact ⟨x, List.mem_cons_self, Nat.le_refl _, .refl⟩
    · obtain ⟨g, hg, hle, hr⟩ := h.up x hx
      refine ⟨g, List.mem_cons_of_mem _ hg, ?_, hr⟩
      rwa [hother (hold g (h.framed g hg)), hother (hold x hx)]
  case closed =>
    rw [hstack]
    intro x hx hnot y hy
    have hne : x ≠ w := fun heq => hnot (heq ▸ List.mem_cons_self)
    obtain ⟨hvisy, hnoty⟩ := h.closed x ((hvis.mp hx).resolve_left hne)
      (fun hmem => hnot (List.mem_cons_of_mem _ hmem)) y hy
    refine ⟨hvis.mpr (.inr hvisy), fun hmem => ?_⟩
    exact (List.mem_cons.mp hmem).elim (ne_of_visited hw hvisy) hnoty
  case low =>
    rw [hactive, hstack]
    intro g hg
    obtain rfl | hg := List.mem_cons.mp hg
    · exact ⟨g, List.mem_cons_self, by rw [hself, hlowself], Nat.le_refl _, .refl⟩
    · obtain ⟨y, hy, heq, hle, hr⟩ := h.low g hg
      have hgne := hold g (h.framed g hg)
      refine ⟨y, List.mem_cons_of_mem _ hy, ?_, ?_, hr⟩
      · rw [hother (hold y hy), hlowother hgne, heq]
      · rwa [hother (hold y hy), hother hgne]
  case edges =>
    rw [hactive, hstack]
    intro g hg z hz howns y hy hzy
    obtain rfl | hzs := List.mem_cons.mp hz
    · exact .inl (hpending.mpr (.inl ⟨rfl, hzy⟩))
    have hzne : z ≠ w := hold z hzs
    obtain hgw | hgs := List.mem_cons.mp hg
    · have hle : s.index ≤ s.idx z := by
        have hle := howns.1
        rwa [hgw, hself, hother hzne] at hle
      exact absurd (hlt z hzs) (Nat.not_lt.mpr hle)
    have hgne : g ≠ w := hold g (h.framed g hgs)
    have hsowns : Owns s g z := by
      refine ⟨?_, fun k hk hkz => ?_⟩
      · have hle := howns.1
        rwa [hother hgne, hother hzne] at hle
      · have hkne : k ≠ w := hold k (h.framed k hk)
        have hkg := howns.2 k (hactive ▸ List.mem_cons_of_mem _ hk)
        rw [hother hkne, hother hzne, hother hgne] at hkg
        exact hkg hkz
    obtain hyw | hys := List.mem_cons.mp hy
    · obtain ⟨y₀, -, heq, hle, -⟩ := h.low g hgs
      have hglt : s.idx g < s.index := hlt g (h.framed g hgs)
      rw [hyw, hself, hlowother hgne]
      exact .inr (by omega)
    · obtain hp | hle := h.edges g hgs z hzs hsowns y hys hzy
      · obtain ⟨-, hyw⟩ | hp := hf.keeps z y hp
        · exact absurd hyw (hold y hys)
        · exact .inl (hpending.mpr (.inr hp))
      · rw [hother (hold y hys), hlowother hgne]
        exact .inr hle
  case comps => rw [hcomps]; exact h.comps
  case nodup => rw [hcomps]; exact h.nodup
  case found =>
    rw [hcomps, hstack]
    intro x
    rw [hvis, ← h.found x, List.mem_cons, not_or]
    constructor
    · rintro ⟨hx, hne, hnot⟩
      exact ⟨hx.resolve_left hne, hnot⟩
    · rintro ⟨hx, hnot⟩
      exact ⟨.inr hx, ne_of_visited hw hx, hnot⟩

omit [DecidableEq V] in
/-- The vertices below the top frame. -/
theorem Inv.below {fs : List (V × List V)} {ws : List V} (h : Inv succ s)
    (hfr : s.frames = (v, ws) :: fs) :
    s.active = v :: fs.map Prod.fst ∧ ∀ g ∈ fs.map Prod.fst, s.idx g < s.idx v := by
  have hactive : s.active = v :: fs.map Prod.fst := by rw [State.active, hfr, List.map_cons]
  exact ⟨hactive, (List.pairwise_cons.mp (hactive ▸ h.nested)).1⟩

omit [DecidableEq V] in
/-- What a vertex that is no root reaches below it. -/
theorem Inv.escapes {fs : List (V × List V)} {ws : List V} (h : Inv succ s)
    (hfr : s.frames = (v, ws) :: fs) (hne : s.low v ≠ s.idx v) :
    s.low v < s.idx v ∧ ∃ g ∈ fs.map Prod.fst, s.idx g ≤ s.low v ∧ Reach succ v g := by
  obtain ⟨hactive, -⟩ := h.below hfr
  obtain ⟨y, hy, heq, hle, hvy⟩ := h.low v (hactive ▸ List.mem_cons_self)
  obtain ⟨g, hg, hgy, hyg⟩ := h.up y hy
  have hlt : s.low v < s.idx v := by omega
  obtain rfl | hgs := List.mem_cons.mp (hactive ▸ hg)
  · omega
  · exact ⟨hlt, g, hgs, by omega, hvy.trans hyg⟩

/-- A frame that is done, of a vertex that is no root, hands its lowlink on. -/
theorem Inv.leave {u : V} {us : List V} {fs : List (V × List V)} (h : Inv succ s)
    (hfr : s.frames = (v, []) :: (u, us) :: fs) (hne : s.low v ≠ s.idx v) :
    Inv succ (({ s with frames := (u, us) :: fs } : State V).lower u (s.low v)) := by
  obtain ⟨hactive, hbelow⟩ := h.below hfr
  obtain ⟨hlowlt, g₀, hg₀, hg₀low, hvg₀⟩ := h.escapes hfr hne
  have hu : u ∈ s.active := by rw [hactive]; simp
  have huv : s.idx u < s.idx v := hbelow u List.mem_cons_self
  have hmem : ∀ {g}, g ∈ ((u, us) :: fs).map Prod.fst → g ∈ s.active := fun hg =>
    hactive ▸ List.mem_cons_of_mem _ hg
  have hutop : ∀ g ∈ ((u, us) :: fs).map Prod.fst, s.idx g ≤ s.idx u := by
    have hnested := (List.pairwise_cons.mp (List.pairwise_cons.mp (hactive ▸ h.nested)).2).1
    intro g hg
    obtain rfl | hg := List.mem_cons.mp hg
    · exact Nat.le_refl _
    · exact Nat.le_of_lt (hnested g hg)
  obtain ⟨low', hlow'⟩ : ∃ low', low' = Function.update s.low u (min (s.low u) (s.low v)) :=
    ⟨_, rfl⟩
  suffices hinv : Inv succ { s with frames := (u, us) :: fs, low := low' } by
    rw [hlow'] at hinv
    exact hinv
  have hself : low' u = min (s.low u) (s.low v) := by rw [hlow', Function.update_self]
  have hother : ∀ {g}, g ≠ u → low' g = s.low g := fun hgu => by
    rw [hlow', Function.update_of_ne hgu]
  have hlow : ∀ g, low' g ≤ s.low g := by
    intro g
    by_cases hgu : g = u
    · rw [hgu, hself]
      exact Nat.min_le_left _ _
    · rw [hother hgu]
  have hkeeps : ∀ {x y}, s.Pending x y → ∃ ws, (x, ws) ∈ (u, us) :: fs ∧ y ∈ ws := by
    rintro x y ⟨ws, hmem, hy⟩
    obtain heq | hmem := List.mem_cons.mp (hfr ▸ hmem)
    · obtain ⟨-, rfl⟩ := Prod.mk.inj heq
      cases hy
    · exact ⟨ws, hmem, hy⟩
  constructor
  case lt_index => exact h.lt_index
  case visited => exact h.visited
  case sorted => exact h.sorted
  case framed => exact fun g hg => h.framed g (hmem hg)
  case nested => exact (List.pairwise_cons.mp (hactive ▸ h.nested)).2
  case targets =>
    rintro x y ⟨ws, hmem, hy⟩
    exact h.targets x y ⟨ws, hfr ▸ List.mem_cons_of_mem _ hmem, hy⟩
  case followed => exact fun x hx y hy => (h.followed x hx y hy).imp id hkeeps
  case down => exact fun g hg => h.down g (hmem hg)
  case up =>
    intro x hx
    obtain ⟨g, hg, hle, hr⟩ := h.up x hx
    obtain rfl | hgs := List.mem_cons.mp (hactive ▸ hg)
    · exact ⟨g₀, hg₀, show s.idx g₀ ≤ s.idx x by omega, hr.trans hvg₀⟩
    · exact ⟨g, hgs, hle, hr⟩
  case closed => exact h.closed
  case low =>
    intro g hg
    by_cases hgu : g = u
    · obtain ⟨y, hy, heq, hle, hr⟩ := h.low u hu
      rw [hgu]
      dsimp only
      rw [hself]
      by_cases hmin : s.low u ≤ s.low v
      · exact ⟨y, hy, heq.trans (Nat.min_eq_left hmin).symm, hle, hr⟩
      · obtain ⟨y', hy', heq', -, hr'⟩ := h.low v (hactive ▸ List.mem_cons_self)
        have huv' : Reach succ u v :=
          h.down u hu v (h.framed v (hactive ▸ List.mem_cons_self)) (Nat.le_of_lt huv)
        exact ⟨y', hy', heq'.trans (Nat.min_eq_right (by omega)).symm,
          show s.idx y' ≤ s.idx u by omega, huv'.trans hr'⟩
    · obtain ⟨y, hy, heq, hle, hr⟩ := h.low g (hmem hg)
      exact ⟨y, hy, heq.trans (hother hgu).symm, hle, hr⟩
  case edges =>
    intro g hg z hz howns y hy hzy
    by_cases hvz : s.idx v ≤ s.idx z
    · -- what `v` owned, its parent owns now
      have hgu : g = u := by
        have huz : s.idx u ≤ s.idx g := howns.2 u List.mem_cons_self (show s.idx u ≤ s.idx z by omega)
        exact h.eq_of_idx (h.framed g (hmem hg)) (h.framed u hu) (Nat.le_antisymm (hutop g hg) huz)
      obtain hp | hle := h.edges v (hactive ▸ List.mem_cons_self) z hz
        ⟨hvz, fun k hk _ => h.idx_le_top hfr k hk⟩ y hy hzy
      · exact .inl (hkeeps hp)
      · refine .inr ?_
        rw [hgu]
        exact hself.le.trans ((Nat.min_le_right _ _).trans hle)
    · have hsowns : Owns s g z := by
        refine ⟨howns.1, fun k hk hkz => ?_⟩
        obtain rfl | hks := List.mem_cons.mp (hactive ▸ hk)
        · exact absurd hkz hvz
        · exact howns.2 k hks hkz
      obtain hp | hle := h.edges g (hmem hg) z hz hsowns y hy hzy
      · exact .inl (hkeeps hp)
      · exact .inr ((hlow g).trans hle)
  case comps => exact h.comps
  case nodup => exact h.nodup
  case found => exact h.found

/-- The stack, cut at the root of a component. -/
theorem Inv.cut {ws : List V} {fs : List (V × List V)} (h : Inv succ s)
    (hfr : s.frames = (v, ws) :: fs) :
    ∃ above below, s.stack = above ++ v :: below ∧
      s.stack.takeWhile (· ≠ v) = above ∧ (s.stack.dropWhile (· ≠ v)).tail = below ∧
      (∀ x ∈ above, s.idx v < s.idx x) ∧ ∀ x ∈ below, s.idx x < s.idx v := by
  have hv : v ∈ s.stack := h.framed v ((h.below hfr).1 ▸ List.mem_cons_self)
  obtain ⟨above, below, hstack⟩ := List.append_of_mem hv
  have hsorted := List.pairwise_append.mp (hstack ▸ h.sorted)
  have habove : ∀ x ∈ above, s.idx v < s.idx x := fun x hx =>
    hsorted.2.2 x hx v List.mem_cons_self
  have hne : ∀ x ∈ above, decide (x ≠ v) = true := fun x hx => by
    refine decide_eq_true fun heq => ?_
    exact absurd (heq ▸ habove x hx) (Nat.lt_irrefl _)
  refine ⟨above, below, hstack, ?_, ?_, habove, (List.pairwise_cons.mp hsorted.2.1).1⟩
  · rw [hstack, List.takeWhile_append_of_pos hne]
    simp
  · rw [hstack, List.dropWhile_append_of_pos hne]
    simp

/-- The component above a root is whole, and no edge leaves it but to components found. -/
theorem Inv.root {fs : List (V × List V)} {above below : List V} (h : Inv succ s)
    (hfr : s.frames = (v, []) :: fs) (hroot : s.low v = s.idx v)
    (hstack : s.stack = above ++ v :: below) (habove : ∀ x ∈ above, s.idx v < s.idx x)
    (hbelow : ∀ x ∈ below, s.idx x < s.idx v) :
    Inv succ { s with frames := fs, stack := below, comps := s.comps ++ [above ++ [v]] } := by
  obtain ⟨hactive, hframes⟩ := h.below hfr
  have hv : v ∈ s.active := hactive ▸ List.mem_cons_self
  have hcomp : ∀ {x}, x ∈ above ++ [v] ↔ x ∈ s.stack ∧ s.idx v ≤ s.idx x := by
    intro x
    rw [hstack]
    constructor
    · intro hx
      obtain hx | hx := List.mem_append.mp hx
      · exact ⟨List.mem_append_left _ hx, Nat.le_of_lt (habove x hx)⟩
      · obtain rfl := List.mem_singleton.mp hx
        exact ⟨by simp, Nat.le_refl _⟩
    · rintro ⟨hx, hle⟩
      obtain hx | hx := List.mem_append.mp hx
      · exact List.mem_append_left _ hx
      · obtain rfl | hx := List.mem_cons.mp hx
        · exact List.mem_append_right _ (List.mem_singleton_self _)
        · exact absurd (hbelow x hx) (Nat.not_lt.mpr hle)
  have hmem : ∀ {x}, x ∈ below ↔ x ∈ s.stack ∧ s.idx x < s.idx v := by
    intro x
    constructor
    · exact fun hx => ⟨hstack ▸ List.mem_append_right _ (List.mem_cons_of_mem _ hx), hbelow x hx⟩
    · rintro ⟨hx, hlt⟩
      obtain hx | hx := List.mem_append.mp (hstack ▸ hx)
      · exact absurd (habove x hx) (Nat.lt_asymm hlt)
      · obtain rfl | hx := List.mem_cons.mp hx
        · exact absurd hlt (Nat.lt_irrefl _)
        · exact hx
  have hsub : ∀ {g}, g ∈ fs.map Prod.fst → g ∈ s.active := fun hg =>
    hactive ▸ List.mem_cons_of_mem _ hg
  have hkeeps : ∀ {x y}, s.Pending x y → ∃ ws, (x, ws) ∈ fs ∧ y ∈ ws := by
    rintro x y ⟨ws, hmem, hy⟩
    obtain heq | hmem := List.mem_cons.mp (hfr ▸ hmem)
    · obtain ⟨-, rfl⟩ := Prod.mk.inj heq
      cases hy
    · exact ⟨ws, hmem, hy⟩
  -- an edge out of the component leads to it or to those found
  have hedge : ∀ {x y}, x ∈ above ++ [v] → Edge succ x y →
      s.Visited y ∧ (y ∈ above ++ [v] ∨ y ∉ s.stack) := by
    intro x y hx hxy
    obtain ⟨hxs, hle⟩ := hcomp.mp hx
    have hnot : ¬ s.Pending x y := by
      intro hp
      obtain ⟨ws, hws, -⟩ := hkeeps hp
      exact absurd (hframes x (List.mem_map_of_mem (f := Prod.fst) hws)) (Nat.not_lt.mpr hle)
    refine ⟨(h.followed x (h.visited x hxs) y hxy).resolve_right hnot, ?_⟩
    by_cases hy : y ∈ s.stack
    · have howns : Owns s v x := ⟨hle, fun k hk _ => h.idx_le_top hfr k hk⟩
      have hvy := (h.edges v hv x hxs howns y hy hxy).resolve_left hnot
      exact .inl (hcomp.mpr ⟨hy, hroot ▸ hvy⟩)
    · exact .inr hy
  have hfound : ∀ {x y}, s.Visited x → x ∉ s.stack → Reach succ x y → y ∉ s.stack := by
    intro x y hx hnot hxy
    have hboth : s.Visited y ∧ y ∉ s.stack := by
      induction hxy with
      | refl => exact ⟨hx, hnot⟩
      | tail _ hedge ih => exact h.closed _ ih.1 ih.2 _ hedge
    exact hboth.2
  have hstays : ∀ {x y}, x ∈ above ++ [v] → Reach succ x y →
      s.Visited y ∧ (y ∈ above ++ [v] ∨ y ∉ s.stack) := by
    intro x y hx hxy
    induction hxy with
    | refl => exact ⟨h.visited x (hcomp.mp hx).1, .inl hx⟩
    | tail _ hzy ih =>
      obtain hz | hz := ih.2
      · exact hedge hz hzy
      · obtain ⟨hvis, hnot⟩ := h.closed _ ih.1 hz _ hzy
        exact ⟨hvis, .inr hnot⟩
  have hto : ∀ {x}, x ∈ above ++ [v] → Reach succ x v := by
    intro x hx
    obtain ⟨g, hg, hle, hr⟩ := h.up x (hcomp.mp hx).1
    obtain hgc | hgc := (hstays hx hr).2
    · have hgv : s.idx g = s.idx v :=
        Nat.le_antisymm (h.idx_le_top hfr g hg) (hcomp.mp hgc).2
      exact h.eq_of_idx (h.framed g hg) (h.framed v hv) hgv ▸ hr
    · exact absurd (h.framed g hg) hgc
  have hfrom : ∀ {x}, x ∈ above ++ [v] → Reach succ v x := fun hx =>
    h.down v hv _ (hcomp.mp hx).1 (hcomp.mp hx).2
  constructor
  case lt_index => exact h.lt_index
  case visited => exact fun x hx => h.visited x (hmem.mp hx).1
  case sorted =>
    exact (List.pairwise_cons.mp (List.pairwise_append.mp (hstack ▸ h.sorted)).2.1).2
  case framed => exact fun g hg => hmem.mpr ⟨h.framed g (hsub hg), hframes g hg⟩
  case nested => exact (List.pairwise_cons.mp (hactive ▸ h.nested)).2
  case targets =>
    rintro x y ⟨ws, hws, hy⟩
    exact h.targets x y ⟨ws, hfr ▸ List.mem_cons_of_mem _ hws, hy⟩
  case followed => exact fun x hx y hy => (h.followed x hx y hy).imp id hkeeps
  case down => exact fun g hg x hx => h.down g (hsub hg) x (hmem.mp hx).1
  case up =>
    intro x hx
    obtain ⟨hxs, hlt⟩ := hmem.mp hx
    obtain ⟨g, hg, hle, hr⟩ := h.up x hxs
    obtain rfl | hgs := List.mem_cons.mp (hactive ▸ hg)
    · exact absurd hlt (Nat.not_lt.mpr hle)
    · exact ⟨g, hgs, hle, hr⟩
  case closed =>
    intro x hx hnot y hxy
    have hboth : s.Visited y ∧ (y ∈ above ++ [v] ∨ y ∉ s.stack) := by
      by_cases hxs : x ∈ s.stack
      · refine hedge (hcomp.mpr ⟨hxs, Nat.not_lt.mp fun hlt => hnot ?_⟩) hxy
        exact hmem.mpr ⟨hxs, hlt⟩
      · obtain ⟨hvis, hnot⟩ := h.closed x hx hxs y hxy
        exact ⟨hvis, .inr hnot⟩
    refine ⟨hboth.1, fun hy => ?_⟩
    obtain ⟨hys, hlt⟩ := hmem.mp hy
    obtain hyc | hyn := hboth.2
    · exact absurd hlt (Nat.not_lt.mpr (hcomp.mp hyc).2)
    · exact hyn hys
  case low =>
    intro g hg
    obtain ⟨y, hy, heq, hle, hr⟩ := h.low g (hsub hg)
    exact ⟨y, hmem.mpr ⟨hy, hle.trans_lt (hframes g hg)⟩, heq, hle, hr⟩
  case edges =>
    intro g hg z hz howns y hy hzy
    obtain ⟨hzs, hlt⟩ := hmem.mp hz
    have hsowns : Owns s g z := by
      refine ⟨howns.1, fun k hk hkz => ?_⟩
      obtain rfl | hks := List.mem_cons.mp (hactive ▸ hk)
      · exact absurd hlt (Nat.not_lt.mpr hkz)
      · exact howns.2 k hks hkz
    exact (h.edges g (hsub hg) z hzs hsowns y (hmem.mp hy).1 hzy).imp hkeeps id
  case comps =>
    intro c hc x hx y
    obtain hc | hc := List.mem_append.mp hc
    · exact h.comps c hc x hx y
    · obtain rfl := List.mem_singleton.mp hc
      constructor
      · exact fun hy => ⟨(hto hx).trans (hfrom hy), (hto hy).trans (hfrom hx)⟩
      · rintro ⟨hxy, hyx⟩
        obtain ⟨hvis, hy | hy⟩ := hstays hx hxy
        · exact hy
        · exact absurd (hcomp.mp hx).1 (hfound hvis hy hyx)
  case nodup =>
    intro c hc
    obtain hc | hc := List.mem_append.mp hc
    · exact h.nodup c hc
    · obtain rfl := List.mem_singleton.mp hc
      have hnodup : (above ++ v :: below).Nodup := hstack ▸ h.sorted.imp fun hlt heq => by
        rw [heq] at hlt
        exact Nat.lt_irrefl _ hlt
      exact hnodup.sublist (List.Sublist.append_left (List.singleton_sublist.mpr (by simp)) above)
  case found =>
    intro x
    constructor
    · rintro ⟨hx, hnot⟩
      by_cases hxs : x ∈ s.stack
      · refine ⟨_, List.mem_append_right _ (List.mem_singleton_self _), hcomp.mpr ⟨hxs, ?_⟩⟩
        exact Nat.not_lt.mp fun hlt => hnot (hmem.mpr ⟨hxs, hlt⟩)
      · obtain ⟨c, hc, hxc⟩ := (h.found x).mp ⟨hx, hxs⟩
        exact ⟨c, List.mem_append_left _ hc, hxc⟩
    · rintro ⟨c, hc, hxc⟩
      obtain hc | hc := List.mem_append.mp hc
      · obtain ⟨hx, hnot⟩ := (h.found x).mpr ⟨c, hc, hxc⟩
        exact ⟨hx, fun hxb => hnot (hmem.mp hxb).1⟩
      · obtain rfl := List.mem_singleton.mp hc
        obtain ⟨hxs, hle⟩ := hcomp.mp hxc
        exact ⟨h.visited x hxs, fun hxb => absurd (hmem.mp hxb).2 (Nat.not_lt.mpr hle)⟩

/-- An edge to the stack lowers the lowlink. -/
theorem Inv.lower {ws : List V} {fs : List (V × List V)} (h : Inv succ s)
    (hfr : s.frames = (v, w :: ws) :: fs) (hf : Follows v w s.frames ((v, ws) :: fs))
    (hvis : s.Visited w) (hw : w ∈ s.stack) (hvw : Edge succ v w) :
    Inv succ (({ s with frames := (v, ws) :: fs } : State V).lower v (s.idx w)) := by
  obtain ⟨hactive, -⟩ := h.below hfr
  have hv : v ∈ s.active := hactive ▸ List.mem_cons_self
  have hself : Function.update s.low v (min (s.low v) (s.idx w)) v = min (s.low v) (s.idx w) :=
    Function.update_self ..
  refine h.follow hf hvis (fun g => ?_) (fun g hg => ?_) fun _ g hg howns => ?_
  · by_cases hgv : g = v
    · exact hgv ▸ hself.le.trans (Nat.min_le_left _ _)
    · exact (Function.update_of_ne hgv ..).le
  · by_cases hgv : g = v
    · obtain ⟨y, hy, heq, hle, hr⟩ := h.low v hv
      rw [hgv]
      by_cases hmin : s.low v ≤ s.idx w
      · exact ⟨y, hy, heq.trans (hself.trans (Nat.min_eq_left hmin)).symm, hle, hr⟩
      · exact ⟨w, hw, (hself.trans (Nat.min_eq_right (by omega))).symm, by omega, .single hvw⟩
    · obtain ⟨y, hy, heq, hle, hr⟩ := h.low g hg
      exact ⟨y, hy, heq.trans (Function.update_of_ne hgv ..).symm, hle, hr⟩
  · have hgv : s.idx g = s.idx v :=
      Nat.le_antisymm howns.1 (howns.2 v hv (Nat.le_refl _))
    rw [h.eq_of_idx (h.framed g hg) (h.framed v hv) hgv]
    exact hself.le.trans (Nat.min_le_right _ _)

/-- **A step keeps the invariant.** -/
theorem Inv.next {s' : State V} (h : Inv succ s) (hs : Scc.next succ s = some s') :
    Inv succ s' := by
  unfold Scc.next at hs
  split at hs
  · cases hs
  · next v w ws fs hfr =>
    have hf : Follows v w s.frames ((v, ws) :: fs) := hfr ▸ follows_cons v w ws fs
    have hvw : Edge succ v w := h.targets v w ⟨w :: ws, hfr ▸ List.mem_cons_self, List.mem_cons_self⟩
    have hv : v ∈ s.active := (h.below hfr).1 ▸ List.mem_cons_self
    have hgv : ∀ g ∈ s.active, Reach succ g v := fun g hg =>
      h.down g hg v (h.framed v hv) (h.idx_le_top hfr g hg)
    dsimp only at hs
    split at hs
    · next hw =>
      obtain rfl := Option.some.inj hs
      exact h.enter hf hw fun g hg => (hgv g hg).tail hvw
    · next hw =>
      have hvis : s.Visited w := Option.isSome_iff_ne_none.mpr hw
      split at hs
      · next hmem =>
        obtain rfl := Option.some.inj hs
        exact h.lower hfr hf hvis hmem hvw
      · next hmem =>
        obtain rfl := Option.some.inj hs
        exact h.follow hf hvis (fun _ => Nat.le_refl _) h.low fun hws => absurd hws hmem
  · next v fs hfr =>
    by_cases hroot : s.low v = s.idx v
    · obtain ⟨above, below, hstack, htake, hdrop, habove, hbelow⟩ := h.cut hfr
      have hclose : ({ s with frames := fs } : State V).close v =
          { s with frames := fs, stack := below, comps := s.comps ++ [above ++ [v]] } := by
        refine (if_pos hroot).trans ?_
        dsimp only
        rw [htake, hdrop]
      have hinv := h.root hfr hroot hstack habove hbelow
      dsimp only at hs
      rw [hclose] at hs
      split at hs
      · next u us fs' =>
        obtain rfl := Option.some.inj hs
        -- the parent's lowlink is lower already
        have huv : s.low u ≤ s.low v := by
          have hu : u ∈ s.active := by rw [(h.below hfr).1]; simp
          obtain ⟨y, -, heq, hle, -⟩ := h.low u hu
          have hlt := (h.below hfr).2 u List.mem_cons_self
          omega
        have hsame : Function.update s.low u (min (s.low u) (s.low v)) = s.low := by
          rw [Nat.min_eq_left huv, Function.update_eq_self]
        unfold State.lower
        dsimp only
        rw [hsame]
        exact hinv
      · obtain rfl := Option.some.inj hs
        exact hinv
    · have hclose : ({ s with frames := fs } : State V).close v = { s with frames := fs } :=
        if_neg hroot
      dsimp only at hs
      rw [hclose] at hs
      split at hs
      · next u us fs' =>
        obtain rfl := Option.some.inj hs
        exact h.leave hfr hroot
      · obtain ⟨-, g, hg, -⟩ := h.escapes hfr hroot
        cases hg

end

/-! ## The components -/

/-- With no frame left, every vertex that was entered is in a component. -/
theorem Inv.mem_comps (h : Inv succ s) (hfr : s.frames = []) :
    s.stack = [] ∧ ∀ v, s.Visited v ↔ ∃ c ∈ s.comps, v ∈ c := by
  have hstack : s.stack = [] := by
    refine List.eq_nil_iff_forall_not_mem.mpr fun x hx => ?_
    obtain ⟨g, hg, -⟩ := h.up x hx
    rw [State.active, hfr] at hg
    cases hg
  refine ⟨hstack, fun v => ?_⟩
  rw [← h.found v, hstack]
  simp

/-- A new search starts at any vertex not entered. -/
theorem Inv.start [DecidableEq V] (h : Inv succ s) (hfr : s.frames = []) (hv : s.num v = none) :
    Inv succ (s.enter succ v) := by
  have hactive : s.active = [] := by rw [State.active, hfr]; rfl
  have hf : Follows v v s.frames s.frames := ⟨rfl, fun _ _ => .inr, fun _ _ => id⟩
  exact h.enter hf hv (by simp [hactive])

/-- The vertices of a component are on a cycle when there are two, or when it is a loop. -/
theorem Inv.cyclic_iff (h : Inv succ s) {c : List V} (hc : c ∈ s.comps) (hv : v ∈ c) :
    TransGen (Edge succ) v v ↔ c ≠ [v] ∨ Edge succ v v := by
  constructor
  · intro hvv
    obtain ⟨w, hvw, hwv⟩ := TransGen.head'_iff.mp hvv
    have hw : w ∈ c := (h.comps c hc v hv w).mpr ⟨.single hvw, hwv⟩
    by_cases hone : c = [v]
    · rw [hone] at hw
      exact .inr (List.mem_singleton.mp hw ▸ hvw)
    · exact .inl hone
  · rintro (hne | hvv)
    · obtain ⟨w, hw, hwv⟩ : ∃ w ∈ c, w ≠ v := by
        by_contra hall
        push Not at hall
        have hcount : c = List.replicate c.length v := List.eq_replicate_of_mem hall
        have hle : c.length ≤ 1 := by
          have hnodup := h.nodup c hc
          rw [hcount] at hnodup
          exact List.nodup_replicate.mp hnodup
        obtain hz | hz : c.length = 0 ∨ c.length = 1 := by omega
        · rw [List.length_eq_zero_iff.mp hz] at hv
          cases hv
        · exact hne (by rw [hcount, hz]; rfl)
      obtain ⟨hvw, hwv'⟩ := (h.comps c hc v hv w).mp hw
      obtain heq | hvw := reflTransGen_iff_eq_or_transGen.mp hvw
      · exact absurd heq hwv
      · exact hvw.trans_left hwv'
    · exact .single hvv

end Scc
