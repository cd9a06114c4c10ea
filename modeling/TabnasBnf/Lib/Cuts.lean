import Mathlib.Data.List.Sort
import Mathlib.Order.Basic

/-!
# Cuts of a line

`windows ps` are the consecutive pairs of a list of cuts, read as half-open intervals. When the
cuts rise strictly the windows lie one behind the other (`pairwise_windows`), no cut lies strictly
inside one (`le_or_le_of_mem_windows`), and every point between two cuts lies in one
(`exists_window`).
-/

namespace Cuts

variable {α : Type*}

/-- The consecutive pairs of a list. -/
def windows (ps : List α) : List (α × α) := ps.zip ps.tail

@[simp] theorem windows_nil : windows ([] : List α) = [] := rfl

@[simp] theorem windows_singleton (p : α) : windows [p] = [] := rfl

@[simp] theorem windows_cons_cons (p q : α) (ps : List α) :
    windows (p :: q :: ps) = (p, q) :: windows (q :: ps) := rfl

theorem mem_of_mem_windows {ps : List α} {w : α × α} (h : w ∈ windows ps) :
    w.1 ∈ ps ∧ w.2 ∈ ps := by
  unfold windows at h
  exact ⟨(List.of_mem_zip h).1, List.mem_of_mem_tail (List.of_mem_zip h).2⟩

variable [LinearOrder α] {ps : List α}

theorem lt_of_mem_windows (hps : ps.Pairwise (· < ·)) {w : α × α} (h : w ∈ windows ps) :
    w.1 < w.2 := by
  induction ps with
  | nil => cases h
  | cons p ps ih =>
    cases ps with
    | nil => cases h
    | cons q ps =>
      rw [windows_cons_cons] at h
      obtain ⟨hp, hrest⟩ := List.pairwise_cons.mp hps
      rcases List.mem_cons.mp h with rfl | h
      · exact hp q List.mem_cons_self
      · exact ih hrest h

/-- No cut lies strictly inside a window. -/
theorem le_or_le_of_mem_windows (hps : ps.Pairwise (· < ·)) {w : α × α} (h : w ∈ windows ps) :
    ∀ p ∈ ps, p ≤ w.1 ∨ w.2 ≤ p := by
  induction ps with
  | nil => cases h
  | cons p ps ih =>
    cases ps with
    | nil => cases h
    | cons q ps =>
      rw [windows_cons_cons] at h
      obtain ⟨hp, hrest⟩ := List.pairwise_cons.mp hps
      rcases List.mem_cons.mp h with rfl | hw
      · intro c hc
        rcases List.mem_cons.mp hc with rfl | hc
        · exact .inl le_rfl
        · rcases List.mem_cons.mp hc with rfl | hc
          · exact .inr le_rfl
          · exact .inr ((List.pairwise_cons.mp hrest).1 c hc).le
      · intro c hc
        rcases List.mem_cons.mp hc with rfl | hc
        · exact .inl (hp w.1 (mem_of_mem_windows hw).1).le
        · exact ih hrest hw c hc

/-- Each window ends before the next begins. -/
theorem pairwise_windows (hps : ps.Pairwise (· < ·)) :
    (windows ps).Pairwise fun x y => x.2 ≤ y.1 := by
  induction ps with
  | nil => exact .nil
  | cons p ps ih =>
    cases ps with
    | nil => exact .nil
    | cons q ps =>
      obtain ⟨-, hrest⟩ := List.pairwise_cons.mp hps
      rw [windows_cons_cons]
      refine List.pairwise_cons.mpr ⟨fun y hy => ?_, ih hrest⟩
      obtain ⟨hq, -⟩ := List.pairwise_cons.mp hrest
      rcases List.mem_cons.mp (mem_of_mem_windows hy).1 with heq | hmem
      · exact heq.ge
      · exact (hq y.1 hmem).le

/-- A point between two cuts lies in a window. -/
theorem exists_window (hps : ps.Pairwise (· < ·)) {p q c : α} (hp : p ∈ ps) (hq : q ∈ ps)
    (hpc : p ≤ c) (hcq : c < q) : ∃ w ∈ windows ps, w.1 ≤ c ∧ c < w.2 := by
  induction ps generalizing p with
  | nil => cases hp
  | cons first ps ih =>
    obtain ⟨hfirst, hrest⟩ := List.pairwise_cons.mp hps
    have hlow : first ≤ c := by
      rcases List.mem_cons.mp hp with rfl | hp
      · exact hpc
      · exact (hfirst p hp).le.trans hpc
    have hq : q ∈ ps := by
      rcases List.mem_cons.mp hq with rfl | hq
      · exact absurd hcq hlow.not_gt
      · exact hq
    cases ps with
    | nil => cases hq
    | cons second ps =>
      rw [windows_cons_cons]
      by_cases hc : c < second
      · exact ⟨_, List.mem_cons_self, hlow, hc⟩
      · obtain ⟨w, hw, hin⟩ := ih hrest List.mem_cons_self hq (not_lt.mp hc)
        exact ⟨w, List.mem_cons_of_mem _ hw, hin⟩

end Cuts
