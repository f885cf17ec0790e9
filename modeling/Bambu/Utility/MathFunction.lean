/-
  Bambu.Utility.MathFunction

  The logarithm and power-of-two helpers of `math_function.hpp` on an unsigned type of `digits`
  bits.  All of them are exact except `get_aligned_bitsize`: where the next power of two does not
  fit the type, `ceil_pow2` gives zero, which is taken for a small size.
-/

import Bambu.Utility.CeilPow2

namespace Bambu

/-- The bits of the type that an operand is promoted to, `int` for the narrow ones. -/
def promoted (digits : Nat) : Nat := max digits 32

/-- `exact_log2<T>(x)`, with `-x` in the promoted type. -/
def exactLog2 (digits x : Nat) : Nat :=
  if x ≠ x &&& (2 ^ promoted digits - x) % 2 ^ promoted digits then 2 ^ digits - 1
  else floorLog2 digits x

/-- `ceil_pow2<T>(_x)`: the computation on 64 bits and the cast. -/
def ceilPow2Of (digits x : Nat) : Nat := ceilPow2 x % 2 ^ digits

/-- `get_aligned_bitsize<T>(bitsize)`. -/
def getAlignedBitsize (digits bitsize : Nat) : Nat :=
  let rbw := max 8 (ceilPow2Of digits bitsize)
  if rbw ≤ 128 then rbw else (bitsize + (32 - bitsize % 32 &&& 31)) % 2 ^ digits

variable {digits x : Nat}

/-! ## Logarithms -/

theorem isGreatest_floorLog2 (hd : digits ≤ 64) (h0 : 0 < x) (hx : x < 2 ^ digits) :
    IsGreatest {n | 2 ^ n ≤ x} (floorLog2 digits x) := by
  rw [floorLog2_eq h0 hx hd]
  refine ⟨Nat.pow_log_le_self 2 h0.ne', fun n hn => ?_⟩
  exact (Nat.le_log_iff_pow_le (by decide) h0.ne').mpr hn

/-- For one, `floor_log2` gives the greatest value of the type, and the sum wraps to zero. -/
theorem ceilLog2_one (digits : Nat) (hpos : 0 < digits) : ceilLog2 digits 1 = 0 := by
  have hpow : 2 ≤ 2 ^ digits := Nat.le_self_pow hpos.ne' 2
  unfold ceilLog2 floorLog2
  rw [if_neg Nat.one_ne_zero, Nat.sub_self, Nat.zero_mod, if_pos rfl, Nat.sub_add_cancel (by omega),
    Nat.mod_self]

theorem isLeast_ceilLog2 (hpos : 0 < digits) (hd : digits ≤ 64) (h0 : 0 < x) (hx : x < 2 ^ digits) :
    IsLeast {n | x ≤ 2 ^ n} (ceilLog2 digits x) := by
  rcases Nat.eq_or_lt_of_le (Nat.succ_le_of_lt h0) with rfl | htwo
  · rw [ceilLog2_one digits hpos]
    exact ⟨le_refl 1, fun n _ => Nat.zero_le n⟩
  · refine ⟨le_two_pow_ceilLog2 htwo hx hd, fun n hn => ?_⟩
    have hlt : 2 ^ (ceilLog2 digits x - 1) < 2 ^ n := (two_pow_ceilLog2_lt htwo hx hd).trans_le hn
    have := (Nat.pow_lt_pow_iff_right (by decide)).mp hlt
    omega

/-- A number is its lowest set bit exactly when it is a power of two. -/
theorem eq_and_neg_iff {w : Nat} (h0 : 0 < x) (hx : x < 2 ^ w) :
    x = x &&& (2 ^ w - x) % 2 ^ w ↔ x.isPowerOfTwo := by
  have hbit : ∀ i, (2 ^ w - x).testBit i = (decide (i < w) && !(x - 1).testBit i) := by
    intro i
    rw [← Nat.testBit_two_pow_sub_succ (by omega : x - 1 < 2 ^ w), Nat.sub_add_cancel h0]
  rw [Nat.mod_eq_of_lt (by omega), ← Nat.and_sub_one_eq_zero_iff_isPowerOfTwo h0.ne']
  constructor
  · intro heq
    apply Nat.eq_of_testBit_eq
    intro i
    have hi := congrArg (fun n => n.testBit i) heq
    simp only [Nat.testBit_and, hbit] at hi
    rw [Nat.testBit_and, Nat.zero_testBit, hi]
    cases (x - 1).testBit i <;> simp
  · intro hzero
    apply Nat.eq_of_testBit_eq
    intro i
    have hi := congrArg (fun n => n.testBit i) hzero
    simp only [Nat.testBit_and, Nat.zero_testBit] at hi
    rw [Nat.testBit_and, hbit]
    cases hxi : x.testBit i with
    | false => rfl
    | true =>
      have hiw : i < w := by
        by_contra hge
        have hle : 2 ^ w ≤ 2 ^ i := Nat.pow_le_pow_right (by decide) (Nat.not_lt.mp hge)
        have := Nat.ge_two_pow_of_testBit hxi
        omega
      rw [hxi] at hi
      simpa [hiw] using hi.symm

theorem lt_two_pow_promoted (hx : x < 2 ^ digits) : x < 2 ^ promoted digits :=
  hx.trans_le (Nat.pow_le_pow_right (by decide) (le_max_left digits 32))

theorem exactLog2_two_pow {n : Nat} (hd : digits ≤ 64) (hx : 2 ^ n < 2 ^ digits) :
    exactLog2 digits (2 ^ n) = n := by
  have hpos : 0 < 2 ^ n := Nat.two_pow_pos n
  have heq := (eq_and_neg_iff hpos (lt_two_pow_promoted hx)).mpr ⟨n, rfl⟩
  unfold exactLog2
  rw [if_neg (not_not.mpr heq), floorLog2_eq hpos hx hd]
  exact Nat.log_pow (by decide) n

theorem exactLog2_of_not (h0 : 0 < x) (hx : x < 2 ^ digits) (h : ¬ x.isPowerOfTwo) :
    exactLog2 digits x = 2 ^ digits - 1 :=
  if_pos (mt (eq_and_neg_iff h0 (lt_two_pow_promoted hx)).mp h)

/-! ## Powers of two -/

/-- The cast keeps the next power of two, or drops it. -/
theorem ceilPow2Of_eq (hd : digits ≤ 64) (h0 : 0 < x) (hx : x < 2 ^ digits) :
    ∃ k, ceilPow2Of digits x = 2 ^ k % 2 ^ digits ∧
      IsLeast {p | p.isPowerOfTwo ∧ x ≤ p} (2 ^ k) := by
  have h64 : 2 ^ digits ≤ 2 ^ 64 := Nat.pow_le_pow_right (by decide) hd
  obtain ⟨k, heq, hle, hlt⟩ := ceilPow2_of_pos h0 (hx.trans_le h64)
  refine ⟨k, ?_, ⟨⟨k, rfl⟩, hle⟩, ?_⟩
  · unfold ceilPow2Of
    rw [heq, Nat.mod_mod_of_dvd _ (Nat.pow_dvd_pow 2 hd)]
  · rintro p ⟨⟨n, rfl⟩, hp⟩
    have hkn : 2 ^ k < 2 ^ (n + 1) := by
      rw [Nat.pow_succ]
      omega
    have := (Nat.pow_lt_pow_iff_right (by decide)).mp hkn
    exact Nat.pow_le_pow_right (by decide) (by omega)

/-- The next power of two is in the type up to the greatest power in it. -/
theorem ceilPow2Of_cases (hpos : 0 < digits) (hd : digits ≤ 64) (h0 : 0 < x) (hx : x < 2 ^ digits) :
    (x ≤ 2 ^ (digits - 1) ∧ x ≤ ceilPow2Of digits x) ∨
      (2 ^ (digits - 1) < x ∧ ceilPow2Of digits x = 0) := by
  obtain ⟨k, heq, hleast⟩ := ceilPow2Of_eq hd h0 hx
  rcases Nat.lt_or_ge (2 ^ (digits - 1)) x with hgt | hle
  · have hk : digits - 1 < k :=
      (Nat.pow_lt_pow_iff_right (by decide)).mp (hgt.trans_le hleast.1.2)
    exact Or.inr ⟨hgt, heq.trans (Nat.mod_eq_zero_of_dvd (Nat.pow_dvd_pow 2 (by omega)))⟩
  · have hk : 2 ^ k ≤ 2 ^ (digits - 1) := hleast.2 ⟨⟨digits - 1, rfl⟩, hle⟩
    have hfits : 2 ^ k < 2 ^ digits :=
      hk.trans_lt (Nat.pow_lt_pow_right (by decide) (by omega))
    rw [heq, Nat.mod_eq_of_lt hfits]
    exact Or.inl ⟨hle, hleast.1.2⟩

/-- Rounding up to a multiple of 32. -/
theorem and_31_le (x : Nat) : (32 - x % 32 &&& 31) ≤ 31 := Nat.and_le_right

/-! ## All helpers of a type -/

/-- What the helpers should give for `x`. -/
structure HelpersExact (digits x : Nat) : Prop where
  floor : IsGreatest {n | 2 ^ n ≤ x} (floorLog2 digits x)
  ceil : IsLeast {n | x ≤ 2 ^ n} (ceilLog2 digits x)
  exact_pow : ∀ n, x = 2 ^ n → exactLog2 digits x = n
  exact_other : ¬ x.isPowerOfTwo → exactLog2 digits x = 2 ^ digits - 1
  pow : ∀ p, IsLeast {p | p.isPowerOfTwo ∧ x ≤ p} p → p < 2 ^ digits → ceilPow2Of digits x = p
  aligned : x + 31 < 2 ^ digits → x ≤ getAlignedBitsize digits x

theorem le_getAlignedBitsize_iff (hmin : 8 ≤ digits) (hd : digits ≤ 64) (h0 : 0 < x)
    (hfits : x + 31 < 2 ^ digits) :
    x ≤ getAlignedBitsize digits x ↔ x ≤ 2 ^ (digits - 1) := by
  have h128 : 2 ^ 7 ≤ 2 ^ (digits - 1) := Nat.pow_le_pow_right (by decide) (by omega)
  unfold getAlignedBitsize
  rcases ceilPow2Of_cases (by omega) hd h0 (by omega) with ⟨hle, hpow⟩ | ⟨hgt, hzero⟩
  · refine iff_of_true ?_ hle
    dsimp only
    split
    · omega
    · have := and_31_le x
      rw [Nat.mod_eq_of_lt (by omega)]
      omega
  · rw [hzero]
    refine iff_of_false ?_ (by omega)
    rw [if_pos (by decide)]
    omega

/-- The helpers are exact for all values but those between the greatest power of two in the type
and the last 31 values, where `get_aligned_bitsize` is eight. -/
theorem helpers_exact_iff (hmin : 8 ≤ digits) (hd : digits ≤ 64) (h0 : 0 < x)
    (hx : x < 2 ^ digits) :
    HelpersExact digits x ↔ x ≤ 2 ^ (digits - 1) ∨ 2 ^ digits ≤ x + 31 := by
  constructor
  · intro h
    rcases Nat.lt_or_ge (x + 31) (2 ^ digits) with hfits | hge
    · exact Or.inl ((le_getAlignedBitsize_iff hmin hd h0 hfits).mp (h.aligned hfits))
    · exact Or.inr hge
  · intro h
    refine ⟨isGreatest_floorLog2 hd h0 hx, isLeast_ceilLog2 (by omega) hd h0 hx, ?_,
      exactLog2_of_not h0 hx, ?_, fun hfits => ?_⟩
    · rintro n rfl
      exact exactLog2_two_pow hd hx
    · intro p hp hfits
      obtain ⟨k, heq, hleast⟩ := ceilPow2Of_eq hd h0 hx
      rw [heq, ← hp.unique hleast, Nat.mod_eq_of_lt hfits]
    · exact (le_getAlignedBitsize_iff hmin hd h0 hfits).mpr (h.resolve_right (by omega))

theorem helpers_exact_iff_byte : HelpersExact 8 128 :=
  (helpers_exact_iff (by decide) (by decide) (by decide) (by decide)).mpr (Or.inl (by decide))

theorem not_helpersExact : ¬ HelpersExact 32 (2 ^ 31 + 1) := by
  intro h
  have haligned := h.aligned (by decide)
  revert haligned
  decide +kernel

end Bambu
