/-
  Bambu.Math.Pages

  Aligned pages: where the next one starts.
-/

import Mathlib.Algebra.Order.Group.Nat
import Mathlib.Tactic.Common

namespace Bambu.Math

/-- The first start of a page from an address on; where a page starts there, the one behind it is
    taken if that is forced. -/
def nextPage (address page : Nat) (force : Bool) : Nat :=
  address + if address % page ≠ 0 then page - address % page else if force then page else 0

variable {address page s : Nat} {force : Bool}

theorem nextPage_of_dvd (h : page ∣ address) :
    nextPage address page force = address + if force then page else 0 := by
  unfold nextPage
  rw [if_neg (not_not.mpr (Nat.mod_eq_zero_of_dvd h))]

/-- Within a page the next one starts at its end. -/
theorem nextPage_of_between (hs : page ∣ s) (hlo : s < address) (hhi : address < s + page) :
    nextPage address page force = s + page := by
  have hmod : address % page = address - s := by
    obtain ⟨k, rfl⟩ := hs
    obtain ⟨r, rfl⟩ := Nat.exists_eq_add_of_lt hlo
    rw [Nat.add_assoc, Nat.mul_add_mod, Nat.mod_eq_of_lt (by omega), Nat.add_sub_cancel_left]
  unfold nextPage
  rw [hmod, if_pos (by omega)]
  omega

theorem dvd_nextPage (hpage : 0 < page) : page ∣ nextPage address page force := by
  by_cases h : page ∣ address
  · rw [nextPage_of_dvd h]
    split
    · exact Nat.dvd_add h (Nat.dvd_refl page)
    · exact h
  · have hpos : address % page ≠ 0 := fun h0 => h (Nat.dvd_of_mod_eq_zero h0)
    have hlt := Nat.mod_lt address hpage
    have hle := Nat.mod_le address page
    rw [nextPage_of_between (s := address - address % page) (Nat.dvd_sub_mod address) (by omega)
      (by omega)]
    exact Nat.dvd_add (Nat.dvd_sub_mod address) (Nat.dvd_refl page)

theorem le_nextPage : address ≤ nextPage address page force := Nat.le_add_right _ _

end Bambu.Math
