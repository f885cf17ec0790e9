/-
  Bambu.Math.StronglyConnected

  Strongly connected components of a relation, by sets that no step leads out of.
-/

import Mathlib.Data.Set.Basic

namespace Bambu.Math

variable {α : Type} {R : α → α → Prop}

/-- Each of the two elements reaches the other one. -/
def SameComponent (R : α → α → Prop) (x y : α) : Prop :=
  Relation.ReflTransGen R x y ∧ Relation.ReflTransGen R y x

theorem SameComponent.refl (x : α) : SameComponent R x x :=
  ⟨Relation.ReflTransGen.refl, Relation.ReflTransGen.refl⟩

theorem SameComponent.symm {x y : α} (h : SameComponent R x y) : SameComponent R y x := ⟨h.2, h.1⟩

theorem SameComponent.trans {x y z : α} (hxy : SameComponent R x y) (hyz : SameComponent R y z) :
    SameComponent R x z :=
  ⟨hxy.1.trans hyz.1, hyz.2.trans hxy.2⟩

/-- What is reached from a closed set is in the set. -/
theorem mem_of_reach {S : Set α} (hS : ∀ x ∈ S, ∀ y, R x y → y ∈ S) {x y : α} (hx : x ∈ S)
    (h : Relation.ReflTransGen R x y) : y ∈ S := by
  induction h with
  | refl => exact hx
  | tail _ hstep ih => exact hS _ ih _ hstep

/-- Elements that reach each other, and from which steps only lead to themselves and to a closed
set without them, are a component. -/
theorem component_of_closed {N B : Set α} {v : α} (hv : v ∈ N)
    (hN : ∀ x ∈ N, ∀ y, R x y → y ∈ N ∪ B) (hB : ∀ x ∈ B, ∀ y, R x y → y ∈ B) (hvB : v ∉ B)
    (hto : ∀ x ∈ N, Relation.ReflTransGen R v x) (hfrom : ∀ x ∈ N, Relation.ReflTransGen R x v)
    (y : α) : y ∈ N ↔ SameComponent R v y := by
  refine ⟨fun hy => ⟨hto y hy, hfrom y hy⟩, fun h => ?_⟩
  have hclosed : ∀ x ∈ N ∪ B, ∀ y, R x y → y ∈ N ∪ B := by
    rintro x (hx | hx) y hxy
    · exact hN x hx y hxy
    · exact Or.inr (hB x hx y hxy)
  obtain hy | hy := mem_of_reach hclosed (Or.inl hv) h.1
  · exact hy
  · exact absurd (mem_of_reach hB hy h.2) hvB

end Bambu.Math
