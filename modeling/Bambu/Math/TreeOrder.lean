/-
  Bambu.Math.TreeOrder

  Elements at places in a tree, ordered by ancestry and, within one node, by a rank.

  The order is a strict weak one on a list exactly when what precedes another element of the list
  is related to every element of it.
-/

import Bambu.Math.DepthFirst
import Mathlib.Data.List.Perm.Basic
import Mathlib.Order.Lattice

namespace Bambu.Math

section StrictWeak

variable {α : Type}

/-- A strict weak order on the elements of a list. -/
structure StrictWeakOn (lt : α → α → Prop) (L : List α) : Prop where
  irrefl : ∀ x ∈ L, ¬ lt x x
  trans : ∀ x ∈ L, ∀ y ∈ L, ∀ z ∈ L, lt x y → lt y z → lt x z
  incomparable_trans : ∀ x ∈ L, ∀ y ∈ L, ∀ z ∈ L,
    (¬ lt x y ∧ ¬ lt y x) → (¬ lt y z ∧ ¬ lt z y) → ¬ lt x z ∧ ¬ lt z x

theorem StrictWeakOn.congr {lt lt' : α → α → Prop} {L : List α}
    (h : ∀ x ∈ L, ∀ y ∈ L, lt x y ↔ lt' x y) (hlt : StrictWeakOn lt L) : StrictWeakOn lt' L where
  irrefl x hx := fun hxx => hlt.irrefl x hx ((h x hx x hx).mpr hxx)
  trans x hx y hy z hz hxy hyz :=
    (h x hx z hz).mp (hlt.trans x hx y hy z hz ((h x hx y hy).mpr hxy) ((h y hy z hz).mpr hyz))
  incomparable_trans x hx y hy z hz hxy hyz := by
    rw [← h x hx z hz, ← h z hz x hx]
    rw [← h x hx y hy, ← h y hy x hx] at hxy
    rw [← h y hy z hz, ← h z hz y hy] at hyz
    exact hlt.incomparable_trans x hx y hy z hz hxy hyz

theorem pair_sublist_or {x y : α} {S : List α} (hx : x ∈ S) (hy : y ∈ S) (hne : x ≠ y) :
    List.Sublist [x, y] S ∨ List.Sublist [y, x] S := by
  induction S with
  | nil => exact absurd hx List.not_mem_nil
  | cons s S ih =>
    rw [List.mem_cons] at hx hy
    obtain rfl | hxS := hx <;> obtain rfl | hyS := hy
    · exact absurd rfl hne
    · exact Or.inl ((List.singleton_sublist.mpr hyS).cons_cons _)
    · exact Or.inr ((List.singleton_sublist.mpr hxS).cons_cons _)
    · exact (ih hxS hyS).imp (List.Sublist.cons s) (List.Sublist.cons s)

/-- In a list without inversions the smaller of two elements stands first. -/
theorem sublist_of_lt {lt : α → α → Prop} {x y : α} {S : List α}
    (hS : S.Pairwise fun a b => ¬ lt b a) (hx : x ∈ S) (hy : y ∈ S) (hne : x ≠ y) (hlt : lt x y) :
    List.Sublist [x, y] S :=
  (pair_sublist_or hx hy hne).resolve_right
    (fun h => List.rel_of_pairwise_cons (hS.sublist h) (List.mem_singleton_self x) hlt)

end StrictWeak

namespace Forest

variable {α β ρ : Type} [LinearOrder ρ] (f : Forest β) (place : α → β) (rank : α → ρ)

/-- The place of the first element is an ancestor of the place of the second one, or they are at
one place and the rank of the first element is smaller. -/
def PlaceLt (x y : α) : Prop :=
  f.Above (place x) (place y) ∨ (place x = place y ∧ rank x < rank y)

/-- Some element precedes another one, and its place is unrelated to the place of a third one. -/
def Scattered (L : List α) : Prop :=
  ∃ x ∈ L, ∃ y ∈ L, ∃ z ∈ L, f.PlaceLt place rank x y ∧ ¬ f.Related (place x) (place z)

instance [DecidableEq β] (x y : α) : Decidable (f.PlaceLt place rank x y) :=
  inferInstanceAs (Decidable (_ ∨ _))

instance [DecidableEq β] (L : List α) : Decidable (f.Scattered place rank L) :=
  inferInstanceAs (Decidable (∃ x ∈ L, ∃ y ∈ L, ∃ z ∈ L, _ ∧ ¬ (_ ∨ _ ∨ _)))

variable {f place rank}

theorem PlaceLt.irrefl (hf : f.nodes.Nodup) {x : α} (h : f.PlaceLt place rank x x) : False :=
  h.elim (Above.irrefl hf) (fun h => lt_irrefl _ h.2)

theorem PlaceLt.trans (hf : f.nodes.Nodup) {x y z : α} (hxy : f.PlaceLt place rank x y)
    (hyz : f.PlaceLt place rank y z) : f.PlaceLt place rank x z := by
  obtain hxy | ⟨hxy, hr⟩ := hxy <;> obtain hyz | ⟨hyz, hs⟩ := hyz
  · exact Or.inl (hxy.trans hf hyz)
  · exact Or.inl (hyz ▸ hxy)
  · exact Or.inl (hxy ▸ hyz)
  · exact Or.inr ⟨hxy.trans hyz, hr.trans hs⟩

/-- Elements that do not precede each other have one place and one rank, or unrelated places. -/
theorem not_placeLt_iff {x y : α} (hf : f.nodes.Nodup) :
    (¬ f.PlaceLt place rank x y ∧ ¬ f.PlaceLt place rank y x) ↔
      (place x = place y ∧ rank x = rank y) ∨ ¬ f.Related (place x) (place y) := by
  constructor
  · rintro ⟨hxy, hyx⟩
    by_cases hrel : f.Related (place x) (place y)
    · obtain heq | h | h := hrel
      · refine Or.inl ⟨heq, le_antisymm ?_ ?_⟩
        · exact not_lt.mp (fun h => hyx (Or.inr ⟨heq.symm, h⟩))
        · exact not_lt.mp (fun h => hxy (Or.inr ⟨heq, h⟩))
      · exact absurd (Or.inl h) hxy
      · exact absurd (Or.inl h) hyx
    · exact Or.inr hrel
  · rintro (⟨hp, hr⟩ | hrel)
    · refine ⟨fun h => ?_, fun h => ?_⟩
      · exact h.elim (fun h => (hp ▸ h).irrefl hf) (fun h => h.2.ne hr)
      · exact h.elim (fun h => (hp ▸ h).irrefl hf) (fun h => h.2.ne hr.symm)
    · refine ⟨fun h => hrel ?_, fun h => hrel ?_⟩
      · exact h.elim (fun h => Or.inr (Or.inl h)) (fun h => Or.inl h.1)
      · exact h.elim (fun h => Or.inr (Or.inr h)) (fun h => Or.inl h.1.symm)

/-- What is unrelated to an element is unrelated to what follows the element. -/
theorem PlaceLt.not_related (hf : f.nodes.Nodup) {x y z : α} (hxy : f.PlaceLt place rank x y)
    (hxz : ¬ f.Related (place x) (place z)) : ¬ f.Related (place y) (place z) := by
  intro hyz
  obtain hxy | ⟨hxy, -⟩ := hxy
  · obtain hyz | hyz | hyz := hyz
    · exact hxz (Or.inr (Or.inl (hyz ▸ hxy)))
    · exact hxz (Or.inr (Or.inl (hxy.trans hf hyz)))
    · exact hxz (hxy.related hf hyz)
  · exact hxz (hxy ▸ hyz)

/-- The order is a strict weak one exactly when the list is not scattered. -/
theorem strictWeakOn_iff (hf : f.nodes.Nodup) (L : List α) :
    StrictWeakOn (f.PlaceLt place rank) L ↔ ¬ f.Scattered place rank L := by
  constructor
  · rintro hlt ⟨x, hx, y, hy, z, hz, hxy, hxz⟩
    have hyz : ¬ f.Related (place y) (place z) := hxy.not_related hf hxz
    refine (hlt.incomparable_trans x hx z hz y hy ?_ ?_).1 hxy
    · exact (not_placeLt_iff hf).mpr (Or.inr hxz)
    · exact (not_placeLt_iff hf).mpr (Or.inr (fun h => hyz h.symm))
  · intro hL
    refine ⟨fun x _ h => h.irrefl hf, fun x _ y _ z _ hxy hyz => hxy.trans hf hyz, ?_⟩
    intro x hx y hy z hz hxy hyz
    rw [not_placeLt_iff hf] at hxy hyz
    -- A pair in order would have the third element unrelated to its first one.
    have step : ∀ {a c : α}, a ∈ L → c ∈ L →
        (place a = place y ∧ rank a = rank y) ∨ ¬ f.Related (place a) (place y) →
        (place y = place c ∧ rank y = rank c) ∨ ¬ f.Related (place y) (place c) →
        ¬ f.PlaceLt place rank a c := by
      rintro a c ha hc (⟨hp, hr⟩ | hay) hyc hac
      · refine ((not_placeLt_iff hf).mpr hyc).1 ?_
        exact hac.imp (fun h => hp ▸ h) (fun h => ⟨hp ▸ h.1, hr ▸ h.2⟩)
      · exact hL ⟨a, ha, c, hc, y, hy, hac, hay⟩
    refine ⟨step hx hz hxy hyz, step hz hx ?_ ?_⟩
    · exact hyz.imp (fun h => ⟨h.1.symm, h.2.symm⟩) (fun h h' => h h'.symm)
    · exact hxy.imp (fun h => ⟨h.1.symm, h.2.symm⟩) (fun h h' => h h'.symm)

/-- Between an element and one that it precedes, a sorted list has elements at the place of the
first one or below. -/
theorem between_placeLt {L S : List α} (hL : ¬ f.Scattered place rank L)
    (hSL : S.Perm L) (hS : S.Pairwise fun a b => ¬ f.PlaceLt place rank b a) {x y z : α}
    (hxz : f.PlaceLt place rank x z) (hsub : List.Sublist [x, y, z] S) :
    place x = place y ∨ f.Above (place x) (place y) := by
  have hmem : ∀ {a}, a ∈ [x, y, z] → a ∈ L := fun ha => hSL.subset (hsub.subset ha)
  have hx : x ∈ L := hmem List.mem_cons_self
  have hy : y ∈ L := hmem (List.mem_cons_of_mem _ List.mem_cons_self)
  have hz : z ∈ L := hmem (List.mem_cons_of_mem _ (List.mem_cons_of_mem _ List.mem_cons_self))
  have hyx : ¬ f.PlaceLt place rank y x :=
    List.rel_of_pairwise_cons (hS.sublist hsub) List.mem_cons_self
  have hrel : f.Related (place x) (place y) := by
    by_contra h
    exact hL ⟨x, hx, z, hz, y, hy, hxz, h⟩
  obtain h | h | h := hrel
  · exact Or.inl h
  · exact Or.inr h
  · exact absurd (Or.inl h) hyx

end Forest

end Bambu.Math
