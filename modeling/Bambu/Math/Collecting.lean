/-
  Bambu.Math.Collecting

  Equations between sets of values: a variable holds what it starts with, and what the
  operations with it as their sink make of the values of all variables.  The least solution
  collects the values that occur (`values`), and every family that is closed under the
  operations is above it.
-/

import Mathlib

namespace Bambu.Math

structure Equations (ι α Op : Type*) where
  ops : Set Op
  sink : Op → ι
  start : ι → Set α
  post : Op → (ι → Set α) →o Set α

namespace Equations

variable {ι α Op : Type*} (E : Equations ι α Op)

/-- One application of all operations. -/
def next : (ι → Set α) →o (ι → Set α) where
  toFun X i := E.start i ∪ {v | ∃ op ∈ E.ops, E.sink op = i ∧ v ∈ E.post op X}
  monotone' := by
    intro X Y hXY i
    apply Set.union_subset_union_right
    rintro v ⟨op, hop, hsink, hv⟩
    exact ⟨op, hop, hsink, (E.post op).monotone hXY hv⟩

/-- The least solution. -/
def values : ι → Set α := E.next.lfp

theorem values_subset {Y : ι → Set α} (hstart : ∀ i, E.start i ⊆ Y i)
    (hpost : ∀ op ∈ E.ops, E.post op Y ⊆ Y (E.sink op)) : ∀ i, E.values i ⊆ Y i := by
  have hclosed : E.next Y ≤ Y := by
    intro i
    apply Set.union_subset (hstart i)
    rintro v ⟨op, hop, rfl, hv⟩
    exact hpost op hop hv
  exact E.next.lfp_le hclosed

/-- A variable with one operation and nothing to start with has the values that the operation
makes of all others. -/
theorem values_sink_subset {op : Op} (hstart : E.start (E.sink op) = ∅)
    (hsingle : ∀ op' ∈ E.ops, E.sink op' = E.sink op → op' = op) :
    E.values (E.sink op) ⊆ E.post op E.values := by
  intro v hv
  have hfix : E.next E.values = E.values := E.next.map_lfp
  rw [← hfix] at hv
  rcases hv with hv | ⟨op', hop', hsink, hv⟩
  · rw [hstart] at hv
    exact hv.elim
  · rwa [hsingle op' hop' hsink] at hv

end Equations

end Bambu.Math
