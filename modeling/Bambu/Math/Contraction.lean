/-
  Bambu.Math.Contraction

  Cycles of an acyclic relation after elements have been merged: each comes from a loop that takes
  turns between a merged pair and the relation.
-/

import Mathlib.Logic.Relation

namespace Bambu.Math

open Relation (TransGen ReflTransGen)

variable {α β : Type} {D S : α → α → Prop} {c : α → β}

/-- The relation between the images of a map. -/
def Contracted (D : α → α → Prop) (c : α → β) (a b : β) : Prop := ∃ x y, D x y ∧ c x = a ∧ c y = b

/-- From one element over to a shared one, and on from there. -/
def Turn (D S : α → α → Prop) (x y : α) : Prop := ∃ t, S x t ∧ TransGen D t y

theorem Turn.tail {x y z : α} (h : TransGen (Turn D S) x y) (hyz : D y z) :
    TransGen (Turn D S) x z := by
  cases h with
  | single hturn =>
    obtain ⟨t, hxt, hty⟩ := hturn
    exact .single ⟨t, hxt, hty.tail hyz⟩
  | tail hpre hturn =>
    obtain ⟨t, hst, hty⟩ := hturn
    exact .tail hpre ⟨t, hst, hty.tail hyz⟩

theorem Turn.append {x y z : α} (h : TransGen (Turn D S) x y) (hyz : ReflTransGen D y z) :
    TransGen (Turn D S) x z := by
  induction hyz with
  | refl => exact h
  | tail _ hstep ih => exact Turn.tail ih hstep

/-- A step between two images, by the element that the one before has led to. -/
def Merged (D S : α → α → Prop) (y z : α) : Prop := ∃ x, (y = x ∨ S y x) ∧ D x z

theorem merged_of_contracted (hc : ∀ x y, c x = c y → x = y ∨ S x y) {a b : β}
    (h : TransGen (Contracted D c) a b) :
    ∃ x y z, c x = a ∧ c z = b ∧ D x y ∧ ReflTransGen (Merged D S) y z := by
  induction h with
  | single hab =>
    obtain ⟨x, y, hxy, hx, hy⟩ := hab
    exact ⟨x, y, y, hx, hy, hxy, .refl⟩
  | tail _ hbc ih =>
    obtain ⟨x, y, z, hx, hz, hxy, hyz⟩ := ih
    obtain ⟨u, v, huv, hu, hv⟩ := hbc
    exact ⟨x, y, v, hx, hv, hxy, hyz.tail ⟨u, hc z u (hz.trans hu.symm), huv⟩⟩

/-- A way over merged elements is one in the relation, or takes turns from some element on. -/
theorem turns_of_merged {y z : α} (h : TransGen (Merged D S) y z) :
    TransGen D y z ∨ ∃ s, ReflTransGen D y s ∧ TransGen (Turn D S) s z := by
  induction h with
  | single hyz =>
    obtain ⟨x, rfl | hyx, hxz⟩ := hyz
    · exact .inl (.single hxz)
    · exact .inr ⟨y, .refl, .single ⟨x, hyx, .single hxz⟩⟩
  | tail _ hstep ih =>
    obtain ⟨x, rfl | hyx, hxz⟩ := hstep
    · obtain hyz | ⟨s, hys, hsz⟩ := ih
      · exact .inl (hyz.tail hxz)
      · exact .inr ⟨s, hys, Turn.tail hsz hxz⟩
    · have hturn : Turn D S _ _ := ⟨x, hyx, .single hxz⟩
      obtain hyz | ⟨s, hys, hsz⟩ := ih
      · exact .inr ⟨_, hyz.to_reflTransGen, .single hturn⟩
      · exact .inr ⟨s, hys, hsz.tail hturn⟩

/-- A cycle of the images of an acyclic relation comes from a loop of turns. -/
theorem exists_turns_of_cycle (hacyclic : ∀ x, ¬ TransGen D x x)
    (hc : ∀ x y, c x = c y → x = y ∨ S x y) {a : β} (h : TransGen (Contracted D c) a a) :
    ∃ s, TransGen (Turn D S) s s := by
  obtain ⟨x, y, z, hx, hz, hxy, hyz⟩ := merged_of_contracted hc h
  have hclosed : TransGen (Merged D S) y y :=
    .tail' hyz ⟨x, hc z x (hz.trans hx.symm), hxy⟩
  obtain hyy | ⟨s, hys, hsy⟩ := turns_of_merged hclosed
  · exact absurd hyy (hacyclic y)
  · exact ⟨s, Turn.append hsy hys⟩

end Bambu.Math
