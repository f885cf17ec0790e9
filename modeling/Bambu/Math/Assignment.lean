/-
  Bambu.Math.Assignment

  Square assignment problems given by their arcs, and what a solver for them returns.
-/

import Mathlib.Data.Fintype.Sum
import Mathlib.Data.List.GetD
import Mathlib.Data.List.Permutation

namespace Bambu.Math

structure Arc where
  left : Nat
  right : Nat
  cost : Nat
  deriving DecidableEq

/-- The nodes of either side are the numbers up to the largest one in an arc. -/
def numNodes (arcs : List Arc) : Nat := arcs.foldr (fun a n => max n (max a.left a.right + 1)) 0

def Linked (arcs : List Arc) (i j : Nat) : Prop := ∃ a ∈ arcs, a.left = i ∧ a.right = j

instance (arcs : List Arc) (i j : Nat) : Decidable (Linked arcs i j) :=
  inferInstanceAs (Decidable (∃ a ∈ arcs, a.left = i ∧ a.right = j))

/-- Each left node has a mate of its own on the right. -/
structure IsPerfectMatching (arcs : List Arc) (mate : Nat → Nat) : Prop where
  linked : ∀ i < numNodes arcs, Linked arcs i (mate i)
  inj : ∀ i < numNodes arcs, ∀ j < numNodes arcs, mate i = mate j → i = j

/-- The solver returns a perfect matching when there is one, and nothing else. -/
structure IsAssignmentSolver (solve : List Arc → Option (Nat → Nat)) : Prop where
  sound : ∀ arcs mate, solve arcs = some mate → IsPerfectMatching arcs mate
  complete : ∀ arcs mate, IsPerfectMatching arcs mate → ∃ mate', solve arcs = some mate'

section

variable {arcs : List Arc} {mate : Nat → Nat} {n i j : Nat}

theorem lt_numNodes {a : Arc} (ha : a ∈ arcs) :
    a.left < numNodes arcs ∧ a.right < numNodes arcs := by
  induction arcs with
  | nil => exact absurd ha List.not_mem_nil
  | cons b arcs ih =>
    have hcons : numNodes (b :: arcs) = max (numNodes arcs) (max b.left b.right + 1) := rfl
    rw [hcons]
    obtain rfl | ha := List.mem_cons.mp ha
    · omega
    · obtain ⟨hl, hr⟩ := ih ha
      omega

theorem numNodes_le (h : ∀ a ∈ arcs, a.left < n ∧ a.right < n) : numNodes arcs ≤ n := by
  induction arcs with
  | nil => exact Nat.zero_le _
  | cons b arcs ih =>
    have hcons : numNodes (b :: arcs) = max (numNodes arcs) (max b.left b.right + 1) := rfl
    have hb := h b List.mem_cons_self
    have hle := ih fun a ha => h a (List.mem_cons_of_mem _ ha)
    rw [hcons]
    omega

theorem Linked.lt (h : Linked arcs i j) : i < numNodes arcs ∧ j < numNodes arcs := by
  obtain ⟨a, ha, rfl, rfl⟩ := h
  exact lt_numNodes ha

/-- Mates for the first nodes can be completed to mates for all. -/
theorem exists_extension {l : List Nat} (hnodup : l.Nodup) (hlt : ∀ y ∈ l, y < n) :
    ∃ g : Nat → Nat, (∀ i y, l[i]? = some y → g i = y) ∧ (∀ i < n, g i < n) ∧
      (∀ i < n, ∀ j < n, g i = g j → i = j) ∧ ∀ i < n, l.length ≤ i → g i ∉ l := by
  have hle : l.length ≤ n := by
    have hsub : l ⊆ List.range n := fun y hy => List.mem_range.mpr (hlt y hy)
    simpa using (List.subperm_of_subset hnodup hsub).length_le
  have hget : ∀ i (hi : i < l.length), l.getD i 0 = l[i] := fun i hi => List.getD_eq_getElem _ _ hi
  have hcard : Fintype.card (Fin n) = (Finset.range n).card := by simp
  obtain ⟨e, he⟩ := Finset.exists_equiv_extend_of_card_eq hcard
    (s := Finset.univ.filter fun i : Fin n => i.val < l.length) (f := fun i => l.getD i.val 0) (by
      intro y hy
      obtain ⟨i, hi, rfl⟩ := Finset.mem_image.mp hy
      rw [hget _ (Finset.mem_filter.mp hi).2]
      exact Finset.mem_range.mpr (hlt _ (List.getElem_mem _)))
    (by
      intro i hi j hj hij
      simp only [hget _ (Finset.mem_filter.mp hi).2, hget _ (Finset.mem_filter.mp hj).2] at hij
      exact Fin.ext (hnodup.getElem_inj_iff.mp hij))
  obtain ⟨g, hg⟩ : ∃ g : Nat → Nat, ∀ i (hi : i < n), g i = (e ⟨i, hi⟩).val :=
    ⟨fun i => if h : i < n then (e ⟨i, h⟩).val else 0, fun i hi => dif_pos hi⟩
  have hext : ∀ i (hi : i < l.length), g i = l[i] := by
    intro i hi
    rw [hg i (hi.trans_le hle), he _ (Finset.mem_filter.mpr ⟨Finset.mem_univ _, hi⟩), hget i hi]
  have hinj : ∀ i < n, ∀ j < n, g i = g j → i = j := by
    intro i hi j hj hij
    rw [hg i hi, hg j hj] at hij
    exact Fin.mk.inj (e.injective (Subtype.ext hij))
  refine ⟨g, fun i y hy => ?_, fun i hi => ?_, hinj, fun i hi hli hmem => ?_⟩
  · obtain ⟨hi, rfl⟩ := List.getElem?_eq_some_iff.mp hy
    exact hext i hi
  · rw [hg i hi]
    exact Finset.mem_range.mp (e ⟨i, hi⟩).2
  · obtain ⟨k, hk, hki⟩ := List.getElem_of_mem hmem
    rw [← hext k hk] at hki
    exact absurd (hinj k (hk.trans_le hle) i hi hki) (by omega)

/-! ## A solver that tries all permutations -/

def firstMatching (arcs : List Arc) : Option (Nat → Nat) :=
  ((List.range (numNodes arcs)).permutations'.find? fun l =>
    decide (∀ i < numNodes arcs, Linked arcs i (l.getD i 0))).map fun l i => l.getD i 0

theorem firstMatching_solver : IsAssignmentSolver firstMatching where
  sound arcs mate h := by
    obtain ⟨l, hl, rfl⟩ := Option.map_eq_some_iff.mp h
    have hlinked : ∀ i < numNodes arcs, Linked arcs i (l.getD i 0) := by
      simpa using List.find?_some hl
    have hperm := List.mem_permutations'.mp (List.mem_of_find?_eq_some hl)
    have hlen : l.length = numNodes arcs := by rw [hperm.length_eq, List.length_range]
    refine ⟨hlinked, fun i hi j hj hij => ?_⟩
    rw [← hlen] at hi hj
    simp only [List.getD_eq_getElem _ _ hi, List.getD_eq_getElem _ _ hj] at hij
    exact ((hperm.nodup_iff.mpr List.nodup_range).getElem_inj_iff).mp hij
  complete arcs mate h := by
    have hnodup : ((List.range (numNodes arcs)).map mate).Nodup := by
      refine List.Nodup.map_on (fun i hi j hj hij => ?_) List.nodup_range
      exact h.inj i (List.mem_range.mp hi) j (List.mem_range.mp hj) hij
    have hsub : (List.range (numNodes arcs)).map mate ⊆ List.range (numNodes arcs) := by
      intro y hy
      obtain ⟨i, hi, rfl⟩ := List.mem_map.mp hy
      exact List.mem_range.mpr (h.linked i (List.mem_range.mp hi)).lt.2
    have hperm := (List.subperm_of_subset hnodup hsub).perm_of_length_le (by simp)
    have hfind : (List.find? (fun l => decide (∀ i < numNodes arcs, Linked arcs i (l.getD i 0)))
        (List.range (numNodes arcs)).permutations').isSome := by
      refine List.find?_isSome.mpr ⟨_, List.mem_permutations'.mpr hperm, decide_eq_true ?_⟩
      intro i hi
      have hget : ((List.range (numNodes arcs)).map mate).getD i 0 = mate i := by
        rw [List.getD_eq_getElem _ _ (by simpa using hi)]
        simp
      rw [hget]
      exact h.linked i hi
    obtain ⟨l, hl⟩ := Option.isSome_iff_exists.mp hfind
    exact ⟨_, by rw [firstMatching, hl]; rfl⟩

end

end Bambu.Math
