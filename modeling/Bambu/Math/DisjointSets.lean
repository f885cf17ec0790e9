/-
  Bambu.Math.DisjointSets

  Disjoint sets by the representative of each element, and what a sequence of unions does to the
  sets of some representatives.
-/

import Mathlib.Data.Finset.Insert

namespace Bambu.Math

variable {α : Type} [DecidableEq α]

/-- The representatives, with the ranks that choose the one of a union. -/
structure DisjointSets (α : Type) where
  find_set : α → α
  rank : α → Nat

namespace DisjointSets

def init : DisjointSets α := ⟨fun v => v, fun _ => 0⟩

/-- All elements of one representative get another one. -/
def redirect (ds : DisjointSets α) (i j v : α) : α :=
  if ds.find_set v = i then j else ds.find_set v

/-- Union by rank: with equal ranks the second representative stays. -/
def union_set (ds : DisjointSets α) (x y : α) : DisjointSets α :=
  let i := ds.find_set x
  let j := ds.find_set y
  if i = j then ds
  else if ds.rank i > ds.rank j then { ds with find_set := ds.redirect j i }
  else
    { find_set := ds.redirect i j
      rank := if ds.rank i = ds.rank j then Function.update ds.rank j (ds.rank j + 1)
        else ds.rank }

/-- Each representative is its own. -/
def Flat (ds : DisjointSets α) : Prop := ∀ v, ds.find_set (ds.find_set v) = ds.find_set v

def Same (ds : DisjointSets α) (v w : α) : Prop := ds.find_set v = ds.find_set w

variable {ds ds' : DisjointSets α} {x y v w : α}

/-- One of the two representatives is that of both sets. -/
theorem find_union_set (ds : DisjointSets α) (x y : α) : ∃ r,
    (r = ds.find_set x ∨ r = ds.find_set y) ∧ ∀ v, (ds.union_set x y).find_set v =
      if ds.find_set v = ds.find_set x ∨ ds.find_set v = ds.find_set y then r
      else ds.find_set v := by
  unfold union_set
  by_cases hij : ds.find_set x = ds.find_set y
  · refine ⟨ds.find_set y, Or.inr rfl, fun v => ?_⟩
    rw [if_pos hij]
    split
    case isTrue h => exact h.elim (fun h => h.trans hij) id
    case isFalse => rfl
  simp only [if_neg hij]
  split
  · refine ⟨ds.find_set x, Or.inl rfl, fun v => ?_⟩
    simp only [redirect]
    by_cases hx : ds.find_set v = ds.find_set x <;> simp [hx, hij]
  · refine ⟨ds.find_set y, Or.inr rfl, fun v => ?_⟩
    simp only [redirect]
    by_cases hy : ds.find_set v = ds.find_set y <;> simp [hy, Ne.symm hij]

theorem same_union_set : (ds.union_set x y).Same v w ↔
    ds.Same v w ∨ ((ds.Same v x ∨ ds.Same v y) ∧ (ds.Same w x ∨ ds.Same w y)) := by
  obtain ⟨r, hr, hfind⟩ := ds.find_union_set x y
  simp only [Same, hfind]
  by_cases hv : ds.find_set v = ds.find_set x ∨ ds.find_set v = ds.find_set y <;>
    by_cases hw : ds.find_set w = ds.find_set x ∨ ds.find_set w = ds.find_set y <;>
      simp only [hv, hw, if_true, if_false, and_true, and_false, or_false, or_true]
  · constructor
    · rintro rfl
      exact absurd hr hw
    · intro h
      exact absurd (h ▸ hv) hw
  · constructor
    · rintro h
      exact absurd (h ▸ hr) hv
    · intro h
      exact absurd (h ▸ hw) hv

omit [DecidableEq α] in
theorem Flat.init : (DisjointSets.init : DisjointSets α).Flat := fun _ => rfl

theorem Flat.union_set (h : ds.Flat) (x y : α) : (ds.union_set x y).Flat := by
  obtain ⟨r, hr, hfind⟩ := ds.find_union_set x y
  have hroot : ds.find_set r = r := by
    obtain rfl | rfl := hr <;> exact h _
  intro v
  rw [hfind v]
  split
  · rw [hfind, hroot, if_pos hr]
  case isFalse hv => rw [hfind, h, if_neg hv]

/-! ## Merging sets of some representatives -/

/-- Sets of elements of `S` are merged as a whole, and what is merged is related. -/
structure Merges (R : α → α → Prop) (S : Finset α) (ds ds' : DisjointSets α) : Prop where
  flat : ds'.Flat
  factor : ∀ v, ds'.find_set v = ds'.find_set (ds.find_set v)
  mem : ∀ s ∈ S, ds'.find_set s ∈ S
  keep : ∀ v, ds.find_set v ∉ S → ds'.find_set v = ds.find_set v
  related : ∀ s ∈ S, ∀ t ∈ S, ds'.Same s t → s = t ∨ R s t

section Merges

variable {R R' : α → α → Prop} {S : Finset α}

omit [DecidableEq α] in
theorem Merges.refl (hflat : ds.Flat) (hroot : ∀ s ∈ S, ds.find_set s = s) :
    Merges R S ds ds where
  flat := hflat
  factor := fun v => (hflat v).symm
  mem := fun s hs => by rwa [hroot s hs]
  keep := fun _ _ => rfl
  related := fun s hs t ht h => by
    rw [Same, hroot s hs, hroot t ht] at h
    exact Or.inl h

theorem Merges.mono (h : Merges R S ds ds')
    (hR : ∀ s ∈ S, ∀ t ∈ S, s ≠ t → R s t → R' s t) : Merges R' S ds ds' :=
  { h with
    related := fun s hs t ht hsame => by
      by_cases hst : s = t
      · exact Or.inl hst
      · obtain heq | hrel := h.related s hs t ht hsame
        · exact Or.inl heq
        · exact Or.inr (hR s hs t ht hst hrel) }

/-- Two sets are merged whose elements are related. -/
theorem Merges.union_set (h : Merges R S ds ds') (hsymm : ∀ s t, R s t → R t s) (hx : x ∈ S)
    (hy : y ∈ S) (hcross : ∀ s ∈ S, ∀ t ∈ S, ds'.Same s x → ds'.Same t y → s = t ∨ R s t) :
    Merges R S ds (ds'.union_set x y) := by
  obtain ⟨r, hr, hfind⟩ := ds'.find_union_set x y
  have hrS : r ∈ S := by
    obtain rfl | rfl := hr
    · exact h.mem x hx
    · exact h.mem y hy
  refine ⟨h.flat.union_set x y, fun v => ?_, fun s hs => ?_, fun v hv => ?_,
    fun s hs t ht hsame => ?_⟩
  · rw [hfind v, hfind (ds.find_set v), ← h.factor v]
  · rw [hfind]
    split
    · exact hrS
    · exact h.mem s hs
  · rw [hfind, h.keep v hv, if_neg]
    rintro (heq | heq)
    · exact hv (heq ▸ h.mem x hx)
    · exact hv (heq ▸ h.mem y hy)
  · obtain hold | ⟨hs', ht'⟩ := same_union_set.mp hsame
    · exact h.related s hs t ht hold
    · obtain hsx | hsy := hs' <;> obtain htx | hty := ht'
      · exact h.related s hs t ht (hsx.trans htx.symm)
      · exact hcross s hs t ht hsx hty
      · exact (hcross t ht s hs htx hsy).imp Eq.symm (hsymm t s)
      · exact h.related s hs t ht (hsy.trans hty.symm)

/-- Elements of one set come from one set before, or from two whose representatives are
related. -/
theorem Merges.same_cases (h : Merges R S ds ds') (hflat : ds.Flat) {a b : α}
    (hab : ds'.Same a b) : ds.Same a b ∨ (ds.find_set a ∈ S ∧ ds.find_set b ∈ S ∧
      R (ds.find_set a) (ds.find_set b)) := by
  rw [Same, h.factor a, h.factor b] at hab
  have hmem : ∀ {a b}, ds'.find_set (ds.find_set a) = ds'.find_set (ds.find_set b) →
      ds.find_set a ∉ S → ds.Same a b := by
    intro a b hab ha
    have hka := h.keep (ds.find_set a) (by rwa [hflat])
    by_cases hb : ds.find_set b ∈ S
    · exact absurd (hab ▸ h.mem _ hb) (by rw [hka, hflat]; exact ha)
    · rw [hka, h.keep (ds.find_set b) (by rwa [hflat]), hflat, hflat] at hab
      exact hab
  by_cases ha : ds.find_set a ∈ S
  · by_cases hb : ds.find_set b ∈ S
    · obtain heq | hrel := h.related _ ha _ hb hab
      · exact Or.inl heq
      · exact Or.inr ⟨ha, hb, hrel⟩
    · exact Or.inl (hmem hab.symm hb).symm
  · exact Or.inl (hmem hab ha)

/-- A representative of a set of `S` is one of `S` before as well. -/
theorem Merges.find_mem (h : Merges R S ds ds') {a : α} (ha : ds'.find_set a ∈ S) :
    ds.find_set a ∈ S := by
  by_contra hnot
  exact hnot (h.keep a hnot ▸ ha)

end Merges

end DisjointSets

end Bambu.Math
