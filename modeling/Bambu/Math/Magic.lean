/-
  Bambu.Math.Magic

  Division by a constant as multiplication by a rounded-up reciprocal.

  A multiplier `m` with `m * d = P + e` overshoots `P / d` by `e / d`.  The
  quotient `n * m / P` is `n / d` as long as `n * e` stays below the room `n`
  leaves up to its next multiple of `d` (`mul_div_eq_div`).  The numerators with
  the least room are those one below a multiple of `d`, so it is enough to check
  the greatest of them (`error_lt_room`).  Negative numerators ask for the next
  integer from above (`neg_mul_ediv`).

  The multiplier is found by doubling: `two_mul_add_div` and `two_mul_add_mod`
  are the step of a quotient and a remainder kept beside a growing power of two.
-/

import Mathlib.Data.Int.ModEq
import Mathlib.Tactic.Ring
import Mathlib.Tactic.Linarith

namespace Bambu
namespace Math

/-! ## Doubling -/

section Doubling

variable {x n b : Nat}

theorem two_mul_add_div_mod (hn : 0 < n) (hb : b < 2) :
    ((2 * x + b) / n = if n ≤ 2 * (x % n) + b then 2 * (x / n) + 1 else 2 * (x / n)) ∧
    ((2 * x + b) % n =
      if n ≤ 2 * (x % n) + b then 2 * (x % n) + b - n else 2 * (x % n) + b) := by
  have hx := Nat.div_add_mod x n
  have hr := Nat.mod_lt x hn
  split
  · rw [Nat.div_mod_unique hn, Nat.mul_add, Nat.mul_left_comm]
    omega
  · rw [Nat.div_mod_unique hn, Nat.mul_left_comm]
    omega

theorem two_mul_add_div (hn : 0 < n) (hb : b < 2) :
    (2 * x + b) / n = if n ≤ 2 * (x % n) + b then 2 * (x / n) + 1 else 2 * (x / n) :=
  (two_mul_add_div_mod hn hb).1

theorem two_mul_add_mod (hn : 0 < n) (hb : b < 2) :
    (2 * x + b) % n =
      if n ≤ 2 * (x % n) + b then 2 * (x % n) + b - n else 2 * (x % n) + b :=
  (two_mul_add_div_mod hn hb).2

end Doubling

/-! ## Multiplying by a rounded-up reciprocal -/

section Reciprocal

variable {n d m P e nc : Nat}

/-- The room of `n` is what it lacks to the next multiple of `d`. -/
theorem room_add_mul (hd : 0 < d) (n P : Nat) :
    (d - n % d) * P + n * P = (n / d + 1) * P * d := by
  have hn := Nat.div_add_mod n d
  have hr := Nat.mod_lt n hd
  have hnext : d - n % d + n = d * (n / d + 1) := by
    rw [Nat.mul_add]
    omega
  rw [← Nat.add_mul, hnext]
  ring

/-- The product stays below the next quotient when the error fits in the room. -/
theorem mul_div_eq_div (hd : 0 < d) (hm : m * d = P + e) (h : n * e < (d - n % d) * P) :
    n * m / P = n / d := by
  have hP : 0 < P := Nat.pos_of_ne_zero fun h0 => by
    rw [h0, Nat.mul_zero] at h
    exact absurd h (Nat.not_lt_zero _)
  have hn := Nat.div_add_mod n d
  have hr := Nat.mod_lt n hd
  have hprod : n * m * d = n * P + n * e := by rw [Nat.mul_assoc, hm, Nat.mul_add]
  have hroom := room_add_mul hd n P
  refine Nat.div_eq_of_lt_le ?_ ?_
  · refine Nat.le_of_mul_le_mul_right (c := d) ?_ hd
    calc n / d * P * d = d * (n / d) * P := by ring
      _ ≤ n * P := Nat.mul_le_mul_right P (Nat.mul_div_le n d)
      _ ≤ n * m * d := by omega
  · refine Nat.lt_of_mul_lt_mul_right (a := d) ?_
    omega

/-- The product of a positive numerator passes its quotient, and does not pass
    the next one. -/
theorem lt_mul_and_mul_le (hd : 0 < d) (hm : m * d = P + e) (hn0 : 0 < n) (he : 0 < e)
    (h : n * e ≤ (d - n % d) * P) : n / d * P < n * m ∧ n * m ≤ (n / d + 1) * P := by
  have hn := Nat.div_add_mod n d
  have hr := Nat.mod_lt n hd
  have hprod : n * m * d = n * P + n * e := by rw [Nat.mul_assoc, hm, Nat.mul_add]
  have hpos : 0 < n * e := Nat.mul_pos hn0 he
  have hroom := room_add_mul hd n P
  constructor
  · refine Nat.lt_of_mul_lt_mul_right (a := d) ?_
    calc n / d * P * d = d * (n / d) * P := by ring
      _ ≤ n * P := Nat.mul_le_mul_right P (Nat.mul_div_le n d)
      _ < n * m * d := by omega
  · refine Nat.le_of_mul_le_mul_right (c := d) ?_ hd
    omega

/-- What fits for the greatest numerator one below a multiple of `d` fits for
    all of them up to the next. -/
theorem error_lt_room (hd : 0 < d) (hnc : d ∣ nc + 1) (h : nc * e < P) (hn : n + 1 ≤ nc + d) :
    n * e < (d - n % d) * P := by
  obtain ⟨k, hk⟩ := hnc
  have hr := Nat.mod_lt n hd
  by_cases hle : n ≤ nc
  · calc n * e ≤ nc * e := Nat.mul_le_mul_right e hle
      _ < P := h
      _ ≤ (d - n % d) * P := Nat.le_mul_of_pos_left P (by omega)
  · -- past `nc` the remainder starts again from zero, and the room is two at least
    have hmod : n % d = n - (nc + 1) := by
      rw [show n = (n - (nc + 1)) + d * k by omega, Nat.add_mul_mod_self_left]
      rw [Nat.mod_eq_of_lt (by omega)]
      omega
    have hkpos : 0 < k := Nat.pos_of_ne_zero fun h0 => by
      rw [h0, Nat.mul_zero] at hk
      omega
    have hdk : d ≤ d * k := Nat.le_mul_of_pos_right d hkpos
    calc n * e ≤ 2 * nc * e := Nat.mul_le_mul_right e (by omega)
      _ = 2 * (nc * e) := Nat.mul_assoc 2 nc e
      _ < 2 * P := by omega
      _ ≤ (d - n % d) * P := Nat.mul_le_mul_right P (by omega)

/-- Numerators below the divisor, with a multiplier of a divisor no smaller. -/
theorem mul_roundUp_lt {c q : Nat} (hq : 0 < q) (hn : n < c) (hd : c ≤ d)
    (hm : (m - 1) * d < c * q) (hm0 : 0 < m) : n * m < c * q := by
  have hmq : m ≤ q := by
    by_contra hlt
    have h1 : q * c ≤ (m - 1) * d := Nat.mul_le_mul (by omega) hd
    rw [Nat.mul_comm q c] at h1
    omega
  calc n * m ≤ n * q := Nat.mul_le_mul_left n hmq
    _ < c * q := Nat.mul_lt_mul_of_pos_right hn hq

/-- The quotient of a negated product: the next integer down. -/
theorem neg_mul_ediv {a q : Nat} (hlt : q * P < a) (hle : a ≤ (q + 1) * P) :
    -(a : Int) / P = -q - 1 := by
  have hP : 0 < P := Nat.pos_of_ne_zero fun h0 => by
    rw [h0, Nat.mul_zero] at hle
    omega
  have hlt' : (q * P : Int) < a := by exact_mod_cast hlt
  have hle' : (a : Int) ≤ (q + 1) * P := by exact_mod_cast hle
  have hP' : (0 : Int) < P := by exact_mod_cast hP
  exact ((Int.ediv_emod_unique (r := (q + 1) * P - a) hP').mpr
    ⟨by ring, by omega, by linarith⟩).1

/-- A quotient rounded down, and raised by one when negative, is the quotient
    rounded towards zero: the room of a negative numerator may be used up. -/
theorem mul_ediv_add_sign {A : Nat} {x : Int} (hA : 0 < A) (hm : m * A = P + e) (he : 0 < e)
    (hpos : 0 ≤ x → x.natAbs * e < (A - x.natAbs % A) * P)
    (hneg : x < 0 → x.natAbs * e ≤ (A - x.natAbs % A) * P) :
    x * m / P + (if x * m / P < 0 then 1 else 0) = x.tdiv A := by
  by_cases hx : 0 ≤ x
  · obtain ⟨N, rfl⟩ := Int.eq_ofNat_of_zero_le hx
    have hq : (N : Int) * m / P = N / A := by
      have hdiv := mul_div_eq_div hA hm (hpos hx)
      rw [Int.natAbs_natCast] at hdiv
      exact_mod_cast congrArg (Nat.cast (R := Int)) hdiv
    have hq0 : (0 : Int) ≤ N / A := Int.ediv_nonneg hx (Int.natCast_nonneg A)
    rw [hq, if_neg (by omega), Int.add_zero, Int.tdiv_eq_ediv_of_nonneg hx]
  · obtain ⟨N, hN⟩ : ∃ N : Nat, x = -(N : Int) := ⟨x.natAbs, by omega⟩
    have hroom := hneg (by omega)
    rw [hN, Int.natAbs_neg, Int.natAbs_natCast] at hroom
    obtain ⟨hlt, hle⟩ := lt_mul_and_mul_le hA hm (show 0 < N by omega) he hroom
    have hq : x * m / P = -((N / A : Nat) : Int) - 1 := by
      rw [hN, Int.neg_mul, ← Nat.cast_mul]
      exact neg_mul_ediv hlt hle
    have hq0 := Int.natCast_nonneg (N / A)
    rw [hq, if_pos (by omega), hN, Int.neg_tdiv, Int.tdiv_eq_ediv_of_nonneg (Int.natCast_nonneg N)]
    push_cast
    ring

end Reciprocal

/-! ## A multiplier one bit too wide -/

/-- The halved difference keeps the sum of a numerator and a smaller product
    within the word. -/
theorem halved_sub_add {n q : Nat} (h : q ≤ n) : (n - q) / 2 + q = (n + q) / 2 := by omega

/-- Shifting the average leaves the product by the multiplier with its top bit. -/
theorem average_div {n m W k : Nat} (hW : 0 < W) :
    (n + n * m / W) / 2 / 2 ^ k = n * (W + m) / (W * 2 ^ (k + 1)) := by
  rw [Nat.mul_add, Nat.div_div_eq_div_mul, ← pow_succ', ← Nat.div_div_eq_div_mul,
    Nat.mul_comm n W, Nat.mul_add_div hW]

end Math
end Bambu
