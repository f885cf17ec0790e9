/-
  Bambu.Math.Reciprocal

  Division by a fixed-point reciprocal.  A reciprocal `z` of `y` at scale `M` has the
  deficit `e` when `y * z + e = M`.  A truncated Newton step squares the relative
  deficit up to one `y`, and a quotient estimated with a deficit of at most `c * y` is
  at most `c` too small.
-/

import Mathlib.Tactic.Ring
import Mathlib.Tactic.Linarith

namespace Bambu.Math

/-- The truncated Newton step `z + ⌊z * (M - y * z) / M⌋`. -/
def newtonStep (M y z : Nat) : Nat := z + z * (M - y * z) / M

section Newton

variable {M y z e : Nat}

/-- A step neither raises the deficit nor squares it away to zero. -/
theorem newtonStep_spec (hM : 0 < M) (hy : 0 < y) (h : y * z + e = M) :
    ∃ e', y * newtonStep M y z + e' = M ∧ e' ≤ e ∧ e * e ≤ e' * M ∧ e' * M < e * e + y * M := by
  obtain ⟨d, hd⟩ : ∃ d, d = z * e / M := ⟨_, rfl⟩
  have hstep : newtonStep M y z = z + d := by
    rw [newtonStep, hd, show M - y * z = e by omega]
  have hlow : d * M ≤ z * e := hd ▸ Nat.div_mul_le_self _ _
  have hhigh : z * e < (d + 1) * M := by
    rw [hd]
    exact Nat.lt_mul_of_div_lt (Nat.lt_succ_self _) hM
  -- Multiplied by `y`, both bounds are about `(M - e) * e`.
  have hlow' : y * d * M + e * e ≤ M * e := by
    calc y * d * M + e * e = y * (d * M) + e * e := by ring
      _ ≤ y * (z * e) + e * e := Nat.add_le_add_right (Nat.mul_le_mul_left _ hlow) _
      _ = (y * z + e) * e := by ring
      _ = M * e := by rw [h]
  have hle : y * d ≤ e := by
    refine Nat.le_of_mul_le_mul_right ?_ hM
    rw [Nat.mul_comm e]
    omega
  obtain ⟨e', rfl⟩ := Nat.exists_eq_add_of_le hle
  refine ⟨e', by rw [hstep, Nat.mul_add]; omega, by omega, ?_, ?_⟩
  · have : (y * d + e') * (y * d + e') + y * d * M ≤ y * d * M + e' * M := by
      calc _ ≤ M * (y * d + e') := by omega
        _ = _ := by ring
    omega
  · have hmul : y * (z * (y * d + e')) < y * ((d + 1) * M) :=
      Nat.mul_lt_mul_of_pos_left hhigh hy
    have hsum : y * (z * (y * d + e')) + (y * d + e') * (y * d + e') =
        y * d * M + e' * M := by
      calc _ = (y * z + (y * d + e')) * (y * d + e') := by ring
        _ = M * (y * d + e') := by rw [h]
        _ = _ := by ring
    have hexp : y * ((d + 1) * M) = y * d * M + y * M := by ring
    omega

/-- Any number of steps keeps a positive deficit positive and does not raise it. -/
theorem newtonStep_iterate (hM : 0 < M) (hy : 0 < y) (he : 0 < e) (h : y * z + e = M) (n : Nat) :
    ∃ e', y * (newtonStep M y)^[n] z + e' = M ∧ e' ≤ e ∧ 0 < e' := by
  induction n with
  | zero => exact ⟨e, h, le_refl e, he⟩
  | succ n ih =>
    obtain ⟨e₁, h₁, hle₁, hpos₁⟩ := ih
    obtain ⟨e₂, h₂, hle₂, hsq, -⟩ := newtonStep_spec hM hy h₁
    rw [Function.iterate_succ_apply']
    refine ⟨e₂, h₂, hle₂.trans hle₁, Nat.pos_of_ne_zero ?_⟩
    rintro rfl
    rw [Nat.zero_mul] at hsq
    exact absurd hsq (Nat.not_le.mpr (Nat.mul_pos hpos₁ hpos₁))

/-- A reciprocal of positive deficit is below the scale. -/
theorem reciprocal_lt (hy : 0 < y) (he : 0 < e) (h : y * z + e = M) : z < M := by
  have hle : z ≤ y * z := Nat.le_mul_of_pos_left z hy
  omega

/-- The quotient estimated with a reciprocal is never too large, and its remainder is
below `c + 1` divisors. -/
theorem quotient_estimate {x c : Nat} (hM : 0 < M) (hx : x < M) (h : y * z + e = M)
    (hy : 0 < y) (he : e ≤ c * y) :
    y * (x * z / M) ≤ x ∧ x - y * (x * z / M) < (c + 1) * y := by
  obtain ⟨q, hq⟩ : ∃ q, q = x * z / M := ⟨_, rfl⟩
  have hlow : q * M ≤ x * z := hq ▸ Nat.div_mul_le_self _ _
  have hhigh : x * z < (q + 1) * M := by
    rw [hq]
    exact Nat.lt_mul_of_div_lt (Nat.lt_succ_self _) hM
  have hxz : y * (x * z) + x * e = x * M := by
    calc _ = x * (y * z + e) := by ring
      _ = x * M := by rw [h]
  rw [← hq]
  have hle : y * q ≤ x := by
    refine Nat.le_of_mul_le_mul_right ?_ hM
    have : y * (q * M) ≤ y * (x * z) := Nat.mul_le_mul_left _ hlow
    rw [Nat.mul_assoc]
    omega
  refine ⟨hle, ?_⟩
  obtain ⟨r, rfl⟩ := Nat.exists_eq_add_of_le hle
  rw [Nat.add_sub_cancel_left]
  refine Nat.lt_of_mul_lt_mul_right (a := M) ?_
  have hmul : y * ((y * q + r) * z) < y * ((q + 1) * M) := Nat.mul_lt_mul_of_pos_left hhigh hy
  have hxe : (y * q + r) * e ≤ M * (c * y) := Nat.mul_le_mul hx.le he
  have h1 : y * ((q + 1) * M) = y * q * M + y * M := by ring
  have h2 : (y * q + r) * M = y * q * M + r * M := by ring
  have h3 : (c + 1) * y * M = M * (c * y) + y * M := by ring
  omega

end Newton

end Bambu.Math
