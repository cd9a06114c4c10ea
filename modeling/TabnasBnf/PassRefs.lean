import TabnasBnf.PassElements

/-!
# What the passes refer to

No pass invents a reference but to a production it mints: what an alternative refers to after a
pass, an alternative referred to before it, or it is the name of a production of the result.

* **`eliminate_refs`**: left-recursion elimination refers to nothing the grammar did not refer to.
-/

namespace TabnasBnf

/-- Alternatives that refer to `R` alone. -/
def Within (R : List String) (alts : List Sequence) : Prop := ∀ α ∈ alts, refsIn α ⊆ R

section

variable {R R' : List String} {alts : List Sequence} {α β : Sequence}

theorem within_iff : Within R alts ↔ refsInAlts alts ⊆ R := by
  constructor
  · intro h n hn
    obtain ⟨α, hα, hn⟩ := mem_refsInAlts.mp hn
    exact h α hα hn
  · exact fun h α hα n hn => h (mem_refsInAlts.mpr ⟨α, hα, hn⟩)

theorem Within.mono (h : Within R alts) (hR : R ⊆ R') : Within R' alts :=
  fun α hα => List.Subset.trans (h α hα) hR

theorem refsIn_append_subset : refsIn (α ++ β) ⊆ R ↔ refsIn α ⊆ R ∧ refsIn β ⊆ R := by
  rw [refsIn_append, List.append_subset]

/-- What a production and those of a list refer to. -/
theorem within_of_mem_refs {g : Grammar} {p : Production} (hp : p ∈ g.productions) :
    Within g.refs p.alts :=
  within_iff.mpr fun _ hn => List.mem_flatMap.mpr ⟨p, hp, hn⟩

theorem refs_subset_iff {g : Grammar} :
    g.refs ⊆ R ↔ ∀ p ∈ g.productions, Within R p.alts := by
  simp only [within_iff]
  constructor
  · exact fun h p hp n hn => h (List.mem_flatMap.mpr ⟨p, hp, hn⟩)
  · intro h n hn
    obtain ⟨p, hp, hn⟩ := List.mem_flatMap.mp hn
    exact h p hp hn

end

/-! ## Elimination -/

/-- Referring to no other names goes along with what elimination makes of elements. -/
theorem inherited_refs (keep R : List String) : Inherited keep fun el => el.refs ⊆ R where
  nested el hel e he := by
    cases el with
    | opt | star | plus | rep =>
      obtain rfl := List.mem_singleton.mp he
      exact hel
    | group alts sp =>
      obtain ⟨α, hα, he⟩ := List.mem_flatten.mp he
      exact fun n hn => hel (mem_refsInAlts.mpr ⟨α, hα, mem_refsIn.mpr ⟨e, he, hn⟩⟩)
    | _ => cases he
  token _ _ _ := List.nil_subset _
  fewer _ _ hel := hel
  group alts halts n hn := by
    obtain ⟨α, hα, hn⟩ := mem_refsInAlts.mp hn
    obtain ⟨el, hel, hn⟩ := mem_refsIn.mp hn
    exact halts α hα el hel hn
  tail _ _ hel _ := hel

theorem made_refs_iff {R : List String} {alts : List Sequence} :
    Made (fun el => el.refs ⊆ R) alts ↔ Within R alts := by
  refine forall₂_congr fun α _ => ⟨fun h n hn => ?_, fun h el hel n hn => ?_⟩
  · obtain ⟨el, hel, hn⟩ := mem_refsIn.mp hn
    exact h el hel hn
  · exact h (mem_refsIn.mpr ⟨el, hel, hn⟩)

/-- **Elimination refers to what its input referred to.** -/
theorem eliminate_refs {diag : String} {keep : List String} {grammar g' : Grammar}
    (h : eliminateLeftRecursionKeeping diag grammar keep = .ok g') : g'.refs ⊆ grammar.refs := by
  refine refs_subset_iff.mpr fun p hp => made_refs_iff.mp ?_
  exact eliminate_made (inherited_refs keep grammar.refs)
    (fun _ hq => made_refs_iff.mpr (within_of_mem_refs hq)) h p hp

end TabnasBnf
