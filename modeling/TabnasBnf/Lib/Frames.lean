import Mathlib.Data.List.Chain
import Mathlib.Data.List.Infix

/-!
# Runs above a frame

A machine over a stack of frames, the running one first, whose step looks at that one alone
(`TopOnly`). A host is a frame that goes on as a host, leaves, or pushes one item above itself
(`Hosts`); a run above its base is then the host's own steps and excursions between them, each of
which is the run of one item alone (`Excursion`).

* `exists_above`: every stack of the run is the host's frame on its base, or an item's stack on it.
* `length_le`: the run is no deeper than the host's frame and the deepest of its excursions.
* `eq_of_leaves`: the step that ends it leaves the base as it was.
-/

namespace Frames

variable {F : Type*}

/-- The step looks at the running frame alone. -/
structure TopOnly (step : List F → List F → Prop) : Prop where
  nil : ∀ S, ¬ step [] S
  cons : ∀ f rest S, step (f :: rest) S ↔ ∃ l, S = l ++ rest ∧ step [f] l

/-- What a host can do: leave, go on as a host, or push an item. -/
def Hosts (step : List F → List F → Prop) (host item : F → Prop) : Prop :=
  ∀ f l, host f → step [f] l →
    l = [] ∨ (∃ g, l = [g] ∧ host g) ∨ ∃ h g, l = [h, g] ∧ item h ∧ host g

/-- A part of a run in which one item runs alone, above a host's frame on the base. -/
structure Excursion (step : List F → List F → Prop) (item : F → Prop) (base : List F)
    (trace run : List (List F)) : Prop where
  alone : run.IsChain step
  pushed : ∃ h, run.head? = some [h] ∧ item h
  part : ∃ f, run.map (· ++ f :: base) <:+: trace

section

variable {step : List F → List F → Prop} {host item : F → Prop} {base : List F}

theorem TopOnly.append (h : TopOnly step) {above : List F} (hne : above ≠ []) {S : List F} :
    step (above ++ base) S ↔ ∃ above', S = above' ++ base ∧ step above above' := by
  obtain ⟨f, rest, rfl⟩ := List.exists_cons_of_ne_nil hne
  rw [List.cons_append, h.cons]
  constructor
  · rintro ⟨l, rfl, hl⟩
    exact ⟨l ++ rest, (List.append_assoc _ _ _).symm, (h.cons f rest _).mpr ⟨l, rfl, hl⟩⟩
  · rintro ⟨above', rfl, hstep⟩
    obtain ⟨l, rfl, hl⟩ := (h.cons f rest _).mp hstep
    exact ⟨l, List.append_assoc _ _ _, hl⟩

theorem Excursion.mono {trace trace' run : List (List F)}
    (h : Excursion step item base trace run) (hsub : trace <:+: trace') :
    Excursion step item base trace' run := by
  obtain ⟨f, hpart⟩ := h.part
  exact ⟨h.alone, h.pushed, f, hpart.trans hsub⟩

variable (step host item base) in
/-- Where a run above the base stands: at the host, or in an excursion that still goes on. -/
def Stands (trace : List (List F)) (S : List F) : Prop :=
  ∃ above f, S = above ++ f :: base ∧ host f ∧
    (above = [] ∨ above ≠ [] ∧ ∃ run, Excursion step item base trace run ∧
      run.getLast? = some above ∧ run.map (· ++ f :: base) <:+ trace)

/-- **One step** of the run. -/
theorem stands_step (htop : TopOnly step) (hhost : Hosts step host item) {trace : List (List F)}
    {S S' : List F} (h : Stands step host item base trace S) (hstep : step S S')
    (hdeep : base.length < S'.length) : Stands step host item base (trace ++ [S']) S' := by
  have hinfix : trace <:+: trace ++ [S'] := (List.prefix_append _ _).isInfix
  obtain ⟨above, f, rfl, hf, rfl | ⟨hne, run, hrun, hlast, hsuffix⟩⟩ := h
  · obtain ⟨l, rfl, hl⟩ := (htop.cons f base S').mp hstep
    rcases hhost f l hf hl with rfl | ⟨g, rfl, hg⟩ | ⟨h, g, rfl, hh, hg⟩
    · exact absurd hdeep (lt_irrefl _)
    · exact ⟨[], g, rfl, hg, .inl rfl⟩
    · have hpart : [[h]].map (· ++ g :: base) <:+ trace ++ [[h, g] ++ base] :=
        List.suffix_append _ _
      exact ⟨[h], g, rfl, hg, .inr ⟨by simp, [[h]],
        ⟨List.isChain_singleton _, ⟨h, rfl, hh⟩, g, hpart.isInfix⟩, rfl, hpart⟩⟩
  · obtain ⟨above', rfl, habove⟩ := (htop.append hne).mp hstep
    refine ⟨above', f, rfl, hf, ?_⟩
    by_cases hnil : above' = []
    · exact .inl hnil
    · have hpart : (run ++ [above']).map (· ++ f :: base) <:+ trace ++ [above' ++ f :: base] := by
        obtain ⟨before, rfl⟩ := hsuffix
        exact ⟨before, by simp⟩
      refine .inr ⟨hnil, run ++ [above'], ⟨?_, ?_, f, hpart.isInfix⟩, by simp, hpart⟩
      · refine List.isChain_append.mpr ⟨hrun.alone, List.isChain_singleton _, fun x hx y hy => ?_⟩
        obtain rfl := Option.some.inj (hlast.symm.trans hx)
        obtain rfl : above' = y := by simpa using hy
        exact habove
      · obtain ⟨h, hhead, hh⟩ := hrun.pushed
        exact ⟨h, by rw [List.head?_append, hhead]; rfl, hh⟩

/-- **Where a run above the base stands** when it ends. -/
theorem stands_last (htop : TopOnly step) (hhost : Hosts step host item) {f₀ : F} (h₀ : host f₀)
    {trace : List (List F)} (hchain : trace.IsChain step)
    (hhead : trace.head? = some (f₀ :: base)) (hdeep : ∀ S ∈ trace, base.length < S.length)
    {S : List F} (hlast : trace.getLast? = some S) : Stands step host item base trace S := by
  induction trace using List.reverseRecOn generalizing S with
  | nil => cases hhead
  | append_singleton trace S' ih =>
    obtain rfl : S' = S := by simpa using hlast
    cases hprev : trace.getLast? with
    | none =>
      obtain rfl := List.getLast?_eq_none_iff.mp hprev
      obtain rfl : S' = f₀ :: base := by simpa using hhead
      exact ⟨[], f₀, rfl, h₀, .inl rfl⟩
    | some P =>
      obtain ⟨hchain, -, hjoin⟩ := List.isChain_append.mp hchain
      have hne : trace ≠ [] := fun h => by simp [h] at hprev
      have hhead' : trace.head? = some (f₀ :: base) := by
        rwa [List.head?_append_of_ne_nil _ hne] at hhead
      exact stands_step htop hhost
        (ih hchain hhead' (fun S hS => hdeep S (List.mem_append_left _ hS)) hprev)
        (hjoin P hprev S' rfl) (hdeep S' (by simp))

/-- **Where a run above the base stands** at any time. -/
theorem exists_above (htop : TopOnly step) (hhost : Hosts step host item) {f₀ : F} (h₀ : host f₀)
    {trace : List (List F)} (hchain : trace.IsChain step)
    (hhead : trace.head? = some (f₀ :: base)) (hdeep : ∀ S ∈ trace, base.length < S.length)
    {S : List F} (hS : S ∈ trace) : ∃ above f, S = above ++ f :: base ∧ host f ∧
      (above = [] ∨ ∃ run, Excursion step item base trace run ∧ above ∈ run) := by
  obtain ⟨before, behind, rfl⟩ := List.append_of_mem hS
  have hsplit : before ++ S :: behind = (before ++ [S]) ++ behind := by simp
  have hpre : before ++ [S] <+: before ++ S :: behind := hsplit ▸ List.prefix_append _ _
  have hhead' : (before ++ [S]).head? = some (f₀ :: base) := by
    rw [← hhead]
    cases before <;> rfl
  have hstands := stands_last htop hhost h₀ ((List.isChain_append.mp (hsplit ▸ hchain)).1) hhead'
    (fun T hT => hdeep T (hpre.subset hT)) (S := S) (by simp)
  obtain ⟨above, f, rfl, hf, rfl | ⟨-, run, hrun, hlast, -⟩⟩ := hstands
  · exact ⟨[], f, rfl, hf, .inl rfl⟩
  · exact ⟨above, f, rfl, hf,
      .inr ⟨run, hrun.mono hpre.isInfix, List.mem_of_getLast? hlast⟩⟩

/-- **The depth of a run above the base** is that of its excursions. -/
theorem length_le (htop : TopOnly step) (hhost : Hosts step host item) {f₀ : F} (h₀ : host f₀)
    {trace : List (List F)} (hchain : trace.IsChain step)
    (hhead : trace.head? = some (f₀ :: base)) (hdeep : ∀ S ∈ trace, base.length < S.length)
    {depth : Nat} (hdepth : ∀ run, Excursion step item base trace run →
      ∀ above ∈ run, above.length ≤ depth) {S : List F} (hS : S ∈ trace) :
    S.length ≤ base.length + 1 + depth := by
  obtain ⟨above, f, rfl, -, rfl | ⟨run, hrun, habove⟩⟩ :=
    exists_above htop hhost h₀ hchain hhead hdeep hS
  · simp
  · have hle := hdepth run hrun above habove
    simp only [List.length_append, List.length_cons]
    omega

/-- **The step that ends the run** leaves nothing behind. -/
theorem eq_of_leaves (htop : TopOnly step) (hhost : Hosts step host item) {f₀ : F} (h₀ : host f₀)
    {trace : List (List F)} (hchain : trace.IsChain step)
    (hhead : trace.head? = some (f₀ :: base)) (hdeep : ∀ S ∈ trace, base.length < S.length)
    {S S' : List F} (hS : S ∈ trace) (hstep : step S S') (hleaves : S'.length ≤ base.length) :
    S' = base := by
  obtain ⟨above, f, rfl, -⟩ := exists_above htop hhost h₀ hchain hhead hdeep hS
  by_cases hne : above = []
  · subst hne
    obtain ⟨l, rfl, -⟩ := (htop.cons f base S').mp hstep
    have hl : l = [] := by
      rw [List.length_append] at hleaves
      exact List.length_eq_zero_iff.mp (by omega)
    rw [hl, List.nil_append]
  · obtain ⟨above', rfl, -⟩ := (htop.append hne).mp hstep
    simp only [List.length_append, List.length_cons] at hleaves
    omega

end

end Frames
