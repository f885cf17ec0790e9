/-
  Bambu.Math.Corner

  Quotients of two intervals lie between their corners.

  `Between s q` says that two elements of the list `s` enclose `q`.  A truncated
  quotient with a divisor that keeps its sign is monotone in each argument once
  the sign of the other is fixed, so the four corner quotients enclose all the
  others (`between_corners`).
-/

import Mathlib

namespace Bambu.Math

/-- Two elements of `s` enclose `q`. -/
def Between (s : List Int) (q : Int) : Prop := (∃ p ∈ s, p ≤ q) ∧ ∃ p ∈ s, q ≤ p

theorem Between.mono {s s' : List Int} {q : Int} (h : Between s q) (hs : s ⊆ s') :
    Between s' q := by
  obtain ⟨⟨p, hp, h1⟩, p', hp', h2⟩ := h
  exact ⟨⟨p, hs hp, h1⟩, p', hs hp', h2⟩

/-- A larger divisor makes the quotient of a nonnegative dividend smaller. -/
theorem tdiv_le_tdiv_of_nonneg {x y y' : Int} (hx : 0 ≤ x) (hy : 0 < y) (h : y ≤ y') :
    x.tdiv y' ≤ x.tdiv y := by
  rw [Int.tdiv_eq_ediv_of_nonneg hx, Int.tdiv_eq_ediv_of_nonneg hx]
  have hle := Int.ediv_mul_le x (b := y') (by omega)
  have hnn : 0 ≤ x / y' := Int.ediv_nonneg hx (by omega)
  exact (Int.le_ediv_iff_mul_le hy).mpr ((Int.mul_le_mul_of_nonneg_left h hnn).trans hle)

theorem tdiv_le_tdiv_of_nonpos {x y y' : Int} (hx : x ≤ 0) (hy : 0 < y) (h : y ≤ y') :
    x.tdiv y ≤ x.tdiv y' := by
  have hneg := tdiv_le_tdiv_of_nonneg (x := -x) (by omega) hy h
  rw [Int.neg_tdiv, Int.neg_tdiv] at hneg
  omega

/-- A quotient by a positive divisor between the ends of an interval. -/
theorem tdiv_le_end {x y c d : Int} (hc : 0 < c) (hcy : c ≤ y) (hyd : y ≤ d) :
    (x.tdiv c ≤ x.tdiv y ∧ x.tdiv y ≤ x.tdiv d) ∨ (x.tdiv d ≤ x.tdiv y ∧ x.tdiv y ≤ x.tdiv c) := by
  rcases Int.le_total 0 x with hx | hx
  · exact Or.inr ⟨tdiv_le_tdiv_of_nonneg hx (by omega) hyd, tdiv_le_tdiv_of_nonneg hx hc hcy⟩
  · exact Or.inl ⟨tdiv_le_tdiv_of_nonpos hx hc hcy, tdiv_le_tdiv_of_nonpos hx (by omega) hyd⟩

/-- The corner quotients, in the order in which they are computed. -/
def corners (a b c d : Int) : List Int := [a.tdiv c, a.tdiv d, b.tdiv c, b.tdiv d]

theorem between_corners_of_pos {a b c d x y : Int} (hax : a ≤ x) (hxb : x ≤ b) (hc : 0 < c)
    (hcy : c ≤ y) (hyd : y ≤ d) : Between (corners a b c d) (x.tdiv y) := by
  have hy : 0 < y := by omega
  have hlo : a.tdiv y ≤ x.tdiv y := Int.tdiv_le_tdiv hy hax
  have hhi : x.tdiv y ≤ b.tdiv y := Int.tdiv_le_tdiv hy hxb
  constructor
  · rcases tdiv_le_end (x := a) hc hcy hyd with h | h
    · exact ⟨a.tdiv c, by simp [corners], h.1.trans hlo⟩
    · exact ⟨a.tdiv d, by simp [corners], h.1.trans hlo⟩
  · rcases tdiv_le_end (x := b) hc hcy hyd with h | h
    · exact ⟨b.tdiv d, by simp [corners], hhi.trans h.2⟩
    · exact ⟨b.tdiv c, by simp [corners], hhi.trans h.2⟩

/-- The corner quotients enclose every quotient, if the divisors keep one sign. -/
theorem between_corners {a b c d x y : Int} (hax : a ≤ x) (hxb : x ≤ b) (hsign : 0 < c ∨ d < 0)
    (hcy : c ≤ y) (hyd : y ≤ d) : Between (corners a b c d) (x.tdiv y) := by
  rcases hsign with hc | hd
  · exact between_corners_of_pos hax hxb hc hcy hyd
  · -- negate the divisors, which negates and reverses the quotients
    obtain ⟨⟨p, hp, h1⟩, p', hp', h2⟩ := between_corners_of_pos hax hxb (c := -d) (d := -c)
      (y := -y) (by omega) (by omega) (by omega)
    simp only [corners, Int.tdiv_neg, List.mem_cons, List.not_mem_nil, or_false] at hp hp' h1 h2
    refine ⟨⟨-p', ?_, by omega⟩, -p, ?_, by omega⟩
    · rcases hp' with rfl | rfl | rfl | rfl <;> simp [corners]
    · rcases hp with rfl | rfl | rfl | rfl <;> simp [corners]

/-- A product with one factor between the ends of an interval. -/
theorem mul_between_ends {z y c d : Int} (hcy : c ≤ y) (hyd : y ≤ d) :
    (z * c ≤ z * y ∧ z * y ≤ z * d) ∨ (z * d ≤ z * y ∧ z * y ≤ z * c) := by
  rcases Int.le_total 0 z with hz | hz
  · exact Or.inl ⟨Int.mul_le_mul_of_nonneg_left hcy hz, Int.mul_le_mul_of_nonneg_left hyd hz⟩
  · exact Or.inr ⟨Int.mul_le_mul_of_nonpos_left hz hyd, Int.mul_le_mul_of_nonpos_left hz hcy⟩

/-- The corner products enclose every product. -/
theorem between_products {a b c d x y : Int} (hax : a ≤ x) (hxb : x ≤ b) (hcy : c ≤ y)
    (hyd : y ≤ d) : Between [a * c, a * d, b * c, b * d] (x * y) := by
  have hside : ∀ z : Int, (∃ p ∈ [z * c, z * d], p ≤ z * y) ∧ ∃ p ∈ [z * c, z * d], z * y ≤ p := by
    intro z
    rcases mul_between_ends (z := z) hcy hyd with h | h
    · exact ⟨⟨z * c, by simp, h.1⟩, z * d, by simp, h.2⟩
    · exact ⟨⟨z * d, by simp, h.1⟩, z * c, by simp, h.2⟩
  obtain ⟨⟨p, hp, h1⟩, p', hp', h2⟩ := hside a
  obtain ⟨⟨q, hq, h3⟩, q', hq', h4⟩ := hside b
  simp only [List.mem_cons, List.not_mem_nil, or_false] at hp hp' hq hq'
  rw [Int.mul_comm x y]
  rcases mul_between_ends (z := y) hax hxb with h | h <;>
    rw [Int.mul_comm y a, Int.mul_comm y b] at h
  · exact ⟨⟨p, by simp; tauto, h1.trans h.1⟩, q', by simp; tauto, h.2.trans h4⟩
  · exact ⟨⟨q, by simp; tauto, h3.trans h.1⟩, p', by simp; tauto, h.2.trans h2⟩

/-- A quotient is no larger than its dividend. -/
theorem abs_tdiv_le (x y : Int) : |x.tdiv y| ≤ |x| := by
  have h := Int.natAbs_tdiv_le_natAbs x y
  rw [Int.abs_eq_natAbs, Int.abs_eq_natAbs]
  omega

/-- A quotient by a divisor larger than the dividend is zero. -/
theorem tdiv_eq_zero_of_abs_lt {x y : Int} (h : |x| < |y|) : x.tdiv y = 0 := by
  rw [Int.abs_eq_natAbs, Int.abs_eq_natAbs] at h
  rw [← Int.natAbs_eq_zero, Int.natAbs_tdiv]
  exact Nat.div_eq_of_lt (by omega)

end Bambu.Math
