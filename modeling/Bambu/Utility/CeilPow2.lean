/-
  Bambu.Utility.CeilPow2

  `ceil_pow2` of `math_function.hpp`: the decremented argument is smeared to the right and
  incremented again, on 64 bits.  From one to `2 ^ 63` the result is the next power of two; zero
  and what is larger wrap to zero.  Of two powers of two the smaller one divides the other.
-/

import Bambu.Utility.Common
import Mathlib.Data.Nat.Bitwise

namespace Bambu

/-- `x |= x >> k` -/
def smear (k x : Nat) : Nat := x ||| x >>> k

def ceilPow2 (x : Nat) : Nat :=
  let x := (x + 2 ^ 64 - 1) % 2 ^ 64
  (smear 32 (smear 16 (smear 8 (smear 4 (smear 2 (smear 1 x))))) + 1) % 2 ^ 64

/-! ## Smearing -/

/-- A bit is set where one of the next `k` bits of `x` is. -/
def Smeared (x k y : Nat) : Prop := ∀ i, y.testBit i = true ↔ ∃ j < k, x.testBit (i + j) = true

theorem smeared_one (x : Nat) : Smeared x 1 x := by
  intro i
  constructor
  · intro h
    exact ⟨0, Nat.one_pos, h⟩
  · rintro ⟨j, hj, h⟩
    rwa [Nat.lt_one_iff.mp hj] at h

theorem Smeared.smear {x k y : Nat} (h : Smeared x k y) : Smeared x (2 * k) (smear k y) := by
  intro i
  rw [Bambu.smear, Nat.testBit_or, Nat.testBit_shiftRight, Bool.or_eq_true, h i, h (k + i)]
  constructor
  · rintro (⟨j, hj, hbit⟩ | ⟨j, hj, hbit⟩)
    · exact ⟨j, by omega, hbit⟩
    · exact ⟨k + j, by omega, by rwa [← Nat.add_assoc, Nat.add_comm i k]⟩
  · rintro ⟨j, hj, hbit⟩
    by_cases hlow : j < k
    · exact Or.inl ⟨j, hlow, hbit⟩
    · refine Or.inr ⟨j - k, by omega, ?_⟩
      rwa [show k + i + (j - k) = i + j by omega]

/-- Below `2 ^ k` all bits from the highest one on are set. -/
theorem Smeared.eq {x k y n : Nat} (h : Smeared x k y) (hx : x < 2 ^ k) (hn : x.testBit n = true)
    (hhigh : ∀ j, n < j → x.testBit j = false) : y = 2 ^ (n + 1) - 1 := by
  have hk : n < k := by
    by_contra hge
    have hle : 2 ^ k ≤ 2 ^ n := Nat.pow_le_pow_right (by decide) (Nat.not_lt.mp hge)
    have := Nat.ge_two_pow_of_testBit hn
    omega
  apply Nat.eq_of_testBit_eq
  intro i
  rw [Nat.testBit_two_pow_sub_one, Bool.eq_iff_iff, h i, decide_eq_true_iff]
  constructor
  · rintro ⟨j, -, hbit⟩
    by_contra hi
    rw [hhigh (i + j) (by omega)] at hbit
    cases hbit
  · intro hi
    exact ⟨n - i, by omega, by rwa [show i + (n - i) = n by omega]⟩

/-- The five shifts reach all bits of a 64-bit value. -/
theorem smeared_all (x : Nat) :
    Smeared x 64 (smear 32 (smear 16 (smear 8 (smear 4 (smear 2 (smear 1 x)))))) :=
  (((((smeared_one x).smear).smear).smear).smear).smear.smear

/-! ## The next power of two -/

theorem ceilPow2_zero : ceilPow2 0 = 0 := by decide +kernel

/-- What is returned for a positive argument. -/
theorem ceilPow2_of_pos {x : Nat} (h0 : 0 < x) (hx : x < 2 ^ 64) :
    ∃ k, ceilPow2 x = 2 ^ k % 2 ^ 64 ∧ x ≤ 2 ^ k ∧ 2 ^ k < 2 * x := by
  have hpred : (x + 2 ^ 64 - 1) % 2 ^ 64 = x - 1 := by
    rw [show x + 2 ^ 64 - 1 = (x - 1) + 2 ^ 64 by omega, Nat.add_mod_right]
    exact Nat.mod_eq_of_lt (by omega)
  unfold ceilPow2
  dsimp only
  rw [hpred]
  by_cases hone : x = 1
  · rw [hone]
    exact ⟨0, by decide +kernel, le_rfl, by decide⟩
  obtain ⟨n, hn, hhigh⟩ := Nat.exists_most_significant_bit (show x - 1 ≠ 0 by omega)
  rw [(smeared_all (x - 1)).eq (by omega) hn hhigh, Nat.sub_add_cancel Nat.one_le_two_pow]
  have hle : 2 ^ n ≤ x - 1 := Nat.ge_two_pow_of_testBit hn
  have hlt : x - 1 < 2 ^ (n + 1) := Nat.lt_pow_two_of_testBit (x - 1) fun i hi => hhigh i (by omega)
  exact ⟨n + 1, rfl, by omega, by omega⟩

theorem ceilPow2_spec {x : Nat} (h0 : 0 < x) (hx : x ≤ 2 ^ 63) :
    ∃ k, k ≤ 63 ∧ ceilPow2 x = 2 ^ k ∧ x ≤ 2 ^ k := by
  obtain ⟨k, heq, hle, hlt⟩ := ceilPow2_of_pos h0 (by omega)
  have hk : k < 64 := (Nat.pow_lt_pow_iff_right (by decide : 1 < 2)).mp (by omega)
  exact ⟨k, by omega, heq.trans (Nat.mod_eq_of_lt (Nat.pow_lt_pow_right (by decide) hk)), hle⟩

/-- What is not a power of two is zero. -/
theorem ceilPow2_cases {x : Nat} (hx : x < 2 ^ 64) :
    ceilPow2 x = 0 ∨ ∃ k, k ≤ 63 ∧ ceilPow2 x = 2 ^ k ∧ x ≤ 2 ^ k := by
  rcases Nat.eq_zero_or_pos x with rfl | h0
  · exact Or.inl ceilPow2_zero
  obtain ⟨k, heq, hle, hlt⟩ := ceilPow2_of_pos h0 hx
  rcases Nat.lt_or_ge k 64 with hk | hk
  · exact Or.inr ⟨k, by omega, heq.trans (Nat.mod_eq_of_lt (Nat.pow_lt_pow_right (by decide) hk)),
      hle⟩
  · exact Or.inl (heq.trans (Nat.mod_eq_zero_of_dvd (Nat.pow_dvd_pow 2 hk)))

/-! ## Powers of two -/

theorem isPowerOfTwo_max {x y : Nat} (hx : x.isPowerOfTwo) (hy : y.isPowerOfTwo) :
    (max x y).isPowerOfTwo := by
  rcases max_choice x y with h | h
  · rwa [h]
  · rwa [h]

/-- The smaller one of two powers divides the other. -/
theorem dvd_of_isPowerOfTwo {x y : Nat} (hx : x.isPowerOfTwo) (hy : y.isPowerOfTwo) (h : x ≤ y) :
    x ∣ y := by
  obtain ⟨k, rfl⟩ := hx
  obtain ⟨l, rfl⟩ := hy
  exact Nat.pow_dvd_pow 2 ((Nat.pow_le_pow_iff_right (by decide)).mp h)

theorem ceilPow2_isPowerOfTwo {x : Nat} (hx : x < 2 ^ 64) (h : 0 < ceilPow2 x) :
    (ceilPow2 x).isPowerOfTwo ∧ x ≤ ceilPow2 x ∧ ceilPow2 x ≤ 2 ^ 63 := by
  rcases ceilPow2_cases hx with h0 | ⟨k, hk, heq, hle⟩
  · rw [h0] at h
    cases h
  · rw [heq]
    exact ⟨⟨k, rfl⟩, hle, Nat.pow_le_pow_right (by decide) hk⟩

/-- The logarithm of a page is kept instead of the page. -/
theorem ceilLog2_isPowerOfTwo {x : Nat} (hx : x.isPowerOfTwo) (hle : x ≤ 2 ^ 63) :
    ceilLog2 64 x < 64 ∧ 2 ^ ceilLog2 64 x = x := by
  obtain ⟨k, rfl⟩ := hx
  have hk : k ≤ 63 := (Nat.pow_le_pow_iff_right (by decide)).mp hle
  suffices h : ceilLog2 64 (2 ^ k) = k by
    rw [h]
    exact ⟨by omega, rfl⟩
  rcases Nat.eq_zero_or_pos k with rfl | hpos
  · decide +kernel
  · have htwo : 2 ^ 1 ≤ 2 ^ k := Nat.pow_le_pow_right (by decide) hpos
    rw [ceilLog2_eq htwo (Nat.pow_lt_pow_right (by decide) (by omega)) le_rfl]
    have hlog : Nat.log 2 (2 ^ k - 1) = k - 1 := by
      apply Nat.log_eq_of_pow_le_of_lt_pow
      · have : 2 ^ k = 2 * 2 ^ (k - 1) := by rw [← pow_succ', Nat.sub_add_cancel hpos]
        have : 0 < 2 ^ (k - 1) := Nat.two_pow_pos (k - 1)
        omega
      · rw [Nat.sub_add_cancel hpos]
        omega
    omega

end Bambu
