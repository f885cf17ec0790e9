/-
  Bambu.Math.Runs

  The runs of a list of integers in ascending order: the intervals of consecutive elements.
-/

import Mathlib.Data.List.Sort

namespace Bambu.Math

/-- The runs of a list in ascending order, each by its first and its last element. -/
def runs : List Int → List (Int × Int)
  | [] => []
  | x :: rest =>
    match runs rest with
    | [] => [(x, x)]
    | (first, last) :: more =>
      if first ≤ x + 1 then (x, last) :: more else (x, x) :: (first, last) :: more

/-- The first run starts with the first element. -/
theorem runs_cons (x : Int) (rest : List Int) : ∃ last more, runs (x :: rest) = (x, last) :: more := by
  unfold runs
  split
  · exact ⟨x, [], rfl⟩
  · split
    · exact ⟨_, _, rfl⟩
    · exact ⟨_, _, rfl⟩

/-- The runs have the elements of the list, none of them is empty, and no two of them touch. -/
theorem runs_spec {l : List Int} (hl : l.Pairwise (· ≤ ·)) :
    (∀ y, y ∈ l ↔ ∃ r ∈ runs l, r.1 ≤ y ∧ y ≤ r.2) ∧ (∀ r ∈ runs l, r.1 ≤ r.2) ∧
      (runs l).Pairwise fun r s => r.2 + 1 < s.1 := by
  induction l with
  | nil => exact ⟨fun y => by simp [runs], fun r hr => absurd hr List.not_mem_nil,
    List.Pairwise.nil⟩
  | cons x rest ih =>
    obtain ⟨hx, hrest⟩ := List.pairwise_cons.mp hl
    obtain ⟨hmem, hle, hapart⟩ := ih hrest
    cases rest with
    | nil =>
      refine ⟨fun y => ?_, fun r hr => ?_, List.pairwise_singleton _ _⟩
      · simp only [runs, List.mem_singleton, exists_eq_left]
        omega
      · rw [List.mem_singleton.mp hr]
    | cons z rest =>
      obtain ⟨last, more, hruns⟩ := runs_cons z rest
      have hxz : x ≤ z := hx z List.mem_cons_self
      rw [hruns] at hmem hle hapart
      have hlast : z ≤ last := hle _ List.mem_cons_self
      have hcons : runs (x :: z :: rest) =
          if z ≤ x + 1 then (x, last) :: more else (x, x) :: (z, last) :: more := by
        rw [runs, hruns]
      obtain ⟨hfirst, hmore⟩ := List.pairwise_cons.mp hapart
      rw [hcons]
      split
      case isTrue htouch =>
        -- The run of `z` is made longer by one element.
        refine ⟨fun y => ?_, fun r hr => ?_, List.pairwise_cons.mpr ⟨hfirst, hmore⟩⟩
        · rw [List.mem_cons, hmem]
          simp only [List.mem_cons, exists_eq_or_imp]
          constructor
          · rintro (rfl | h | h)
            · exact Or.inl ⟨le_rfl, hxz.trans hlast⟩
            · exact Or.inl ⟨hxz.trans h.1, h.2⟩
            · exact Or.inr h
          · rintro (h | h)
            · rcases eq_or_lt_of_le h.1 with heq | hlt
              · exact Or.inl heq.symm
              · exact Or.inr (Or.inl ⟨by omega, h.2⟩)
            · exact Or.inr (Or.inr h)
        · rcases List.mem_cons.mp hr with rfl | hr
          · exact hxz.trans hlast
          · exact hle r (List.mem_cons_of_mem _ hr)
      case isFalse hgap =>
        refine ⟨fun y => ?_, fun r hr => ?_, List.pairwise_cons.mpr ⟨fun r hr => ?_, hapart⟩⟩
        · rw [List.mem_cons, hmem]
          simp only [List.mem_cons, exists_eq_or_imp]
          exact or_congr ⟨fun h => ⟨h.ge, h.le⟩, fun h => le_antisymm h.2 h.1⟩ Iff.rfl
        · rcases List.mem_cons.mp hr with rfl | hr
          · exact le_rfl
          · exact hle r hr
        · rcases List.mem_cons.mp hr with rfl | hr
          · exact Int.not_le.mp hgap
          · have h1 := hfirst r hr
            have h2 := Int.not_le.mp hgap
            show x + 1 < r.1
            omega

example : runs [-3, -2, -1, 4, 6, 7] = [(-3, -1), (4, 4), (6, 7)] := by decide

end Bambu.Math
