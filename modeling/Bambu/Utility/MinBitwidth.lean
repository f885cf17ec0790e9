/-
  Bambu.Utility.MinBitwidth

  `minBitwidth` of `APInt.cpp`: it counts the leading zeros of the value at the capacity, or those
  of the complement of a negative one.  From the result on `extOrTrunc` keeps the value, and below
  it does not.
-/

import Bambu.Utility.APInt

namespace Bambu
namespace APInt

open Bambu.Math

/-- A result of the type `bw_t`. -/
def toBw_t (x : Int) : Nat := (x % 2 ^ 16).toNat

/-- `minBitwidth(sign)`. -/
def minBitwidth (v : APInt) (sign : Bool) : Except Error Nat :=
  if v < 0 then
    if !sign then .ok maxDigits
    else do
      let zeros ← (-v - 1).leadingZeros maxDigits
      .ok (toBw_t (maxDigits + 1 - zeros))
  else if v = 0 then .ok 1
  else do
    let zeros ← v.leadingZeros maxDigits
    .ok (toBw_t (maxDigits - zeros + sign.toNat))

/-! ## The values of a width -/

/-- The values of `w` bits. -/
def widthRange (w : Nat) (sign : Bool) : Set Int :=
  if sign then signedRange w else Set.Ico 0 (2 ^ w)

variable {bw w : Nat} {sign : Bool} {x y : Int} {v : APInt}

/-- Two values of a width that are congruent are equal. -/
theorem eq_of_modEq_of_mem (h0 : 0 < bw) (hx : x ∈ widthRange bw sign)
    (hy : y ∈ widthRange bw sign) (h : x ≡ y [ZMOD 2 ^ bw]) : x = y := by
  cases sign with
  | true => exact eq_of_modEq h0 hx hy h
  | false =>
    obtain ⟨hx0, hx1⟩ := hx
    obtain ⟨hy0, hy1⟩ := hy
    rw [← Int.emod_eq_of_lt hx0 hx1, ← Int.emod_eq_of_lt hy0 hy1]
    exact h

/-- `extOrTrunc` gives a value of the width that is congruent to the argument. -/
theorem extTrunc_spec (h0 : 0 < bw) (h : bw < maxDigits) (v : APInt) (sign : Bool) :
    (v.extTrunc bw sign).val ∈ widthRange bw sign ∧
      (v.extTrunc bw sign).val ≡ v.val [ZMOD 2 ^ bw] := by
  cases sign with
  | true =>
    rw [extTrunc_signed_val h0 h]
    exact ⟨signedResidue_mem h0 v.val, signedResidue_modEq bw v.val⟩
  | false =>
    have hpos : (0 : Int) < 2 ^ bw := by positivity
    rw [extTrunc_unsigned_val h0 h]
    exact ⟨⟨Int.emod_nonneg _ hpos.ne', Int.emod_lt_of_pos _ hpos⟩, Int.mod_modEq v.val _⟩

theorem extTrunc_eq_self_iff (h0 : 0 < bw) (h : bw < maxDigits) :
    v.extTrunc bw sign = v ↔ v.val ∈ widthRange bw sign := by
  obtain ⟨hmem, hmod⟩ := extTrunc_spec h0 h v sign
  constructor
  · intro heq
    rwa [heq] at hmem
  · intro hv
    exact SignMag.ext (eq_of_modEq_of_mem h0 hmem hv hmod)

/-! ## The least width -/

/-- The bits of a value, with the sign bit of a signed one. -/
def bitsOf (x : Int) (sign : Bool) : Nat :=
  if sign then Nat.size (if x < 0 then -x - 1 else x).natAbs + 1 else max 1 (Nat.size x.natAbs)

theorem bitsOf_pos (x : Int) (sign : Bool) : 0 < bitsOf x sign := by
  unfold bitsOf
  split <;> omega

/-- The widths that a value fits are those from its bits on. -/
theorem mem_widthRange_iff (hw : 0 < w) (h : 0 ≤ x ∨ sign = true) :
    x ∈ widthRange w sign ↔ bitsOf x sign ≤ w := by
  cases sign with
  | true =>
    have hhalf : half w = 2 ^ (w - 1) := rfl
    have hnn : 0 ≤ if x < 0 then -x - 1 else x := by split <;> omega
    have hsize := size_natAbs_le hnn (k := w - 1)
    rw [← hhalf] at hsize
    simp only [widthRange, bitsOf, if_true, mem_signedRange]
    rw [show ∀ n, n + 1 ≤ w ↔ n ≤ w - 1 by omega, hsize]
    split <;> omega
  | false =>
    have hnn : 0 ≤ x := h.resolve_right Bool.false_ne_true
    simp only [widthRange, bitsOf, Bool.false_eq_true, if_false, Set.mem_Ico]
    rw [max_le_iff, size_natAbs_le hnn]
    omega

theorem toBw_t_natCast {n : Nat} (h : n < 2 ^ 16) : toBw_t n = n := by
  unfold toBw_t
  omega

/-- The bits that are left of the capacity by the leading zeros. -/
theorem capacity_sub_leadingZeros (hnn : 0 ≤ v.val) :
    v.leadingZeros maxDigits = .ok (maxDigits - Nat.size v.val.natAbs) ∧
      Nat.size v.val.natAbs ≤ maxDigits :=
  ⟨leadingZeros_eq (by decide) hnn v.val_lt, (size_natAbs_le hnn).mpr v.val_lt⟩

theorem minBitwidth_eq (h : 0 ≤ v.val ∨ sign = true) :
    v.minBitwidth sign = .ok (bitsOf v.val sign) := by
  have hcap : maxDigits = 4096 := rfl
  unfold minBitwidth
  by_cases hneg : v.val < 0
  · -- The complement of a negative value.
    have hsign : sign = true := h.resolve_left (by omega)
    subst hsign
    have hval : (-v - 1).val = -v.val - 1 := by
      have hb := v.bounds
      rw [sub_val] <;> rw [SignMag.val_neg, one_val] <;> omega
    obtain ⟨hzeros, hsize⟩ := capacity_sub_leadingZeros (v := -v - 1) (by omega)
    rw [hval] at hzeros hsize
    rw [if_pos (by rwa [SignMag.lt_iff, SignMag.val_zero]), hzeros]
    simp only [Bool.not_true, Bool.false_eq_true, if_false, ok_bind, bitsOf, if_true, if_pos hneg]
    rw [← toBw_t_natCast (n := Nat.size (-v.val - 1).natAbs + 1) (by omega)]
    congr 2
    omega
  · rw [if_neg (by rwa [SignMag.lt_iff, SignMag.val_zero])]
    by_cases hzero : v = 0
    · rw [if_pos hzero, hzero, SignMag.val_zero]
      cases sign <;> rfl
    · obtain ⟨hzeros, hsize⟩ := capacity_sub_leadingZeros (v := v) (by omega)
      have hpos : 0 < Nat.size v.val.natAbs := by
        rw [SignMag.eq_iff, SignMag.val_zero] at hzero
        exact Nat.size_pos.mpr (by omega)
      have hbits : bitsOf v.val sign = Nat.size v.val.natAbs + sign.toNat := by
        cases sign with
        | true => simp only [bitsOf, if_true, if_neg hneg, Bool.toNat_true]
        | false => exact max_eq_right hpos
      have hbool := sign.toNat_le
      rw [if_neg hzero, hzeros, ok_bind, hbits,
        ← toBw_t_natCast (n := Nat.size v.val.natAbs + sign.toNat) (by omega)]
      congr 2
      omega

/-- The bits of a value that fits the capacity are the least width that keeps it. -/
theorem isLeast_bitsOf (h : 0 ≤ v.val ∨ sign = true) (hcap : v.val ∈ widthRange maxDigits sign) :
    IsLeast {w | 1 ≤ w ∧ v.extOrTrunc w sign = .ok v} (bitsOf v.val sign) := by
  have hle := (mem_widthRange_iff maxDigits_pos h).mp hcap
  have hpos := bitsOf_pos v.val sign
  constructor
  · refine ⟨hpos, ?_⟩
    rw [extOrTrunc_of_pos hpos]
    rcases Nat.lt_or_eq_of_le hle with hlt | heq
    · rw [(extTrunc_eq_self_iff hpos hlt).mpr ((mem_widthRange_iff hpos h).mpr le_rfl)]
    · rw [heq, extTrunc_maxDigits]
  · rintro w ⟨hw, hkeep⟩
    rw [extOrTrunc_of_pos hw] at hkeep
    by_contra hlt
    have hmem := (extTrunc_eq_self_iff hw (by omega)).mp (Except.ok.inj hkeep)
    exact hlt ((mem_widthRange_iff hw h).mp hmem)

/-- The helpers of a width below the capacity: `extOrTrunc` gives the one value of the width that
is congruent to the argument, `leadingZeros` what is left by the bit length, and `minBitwidth` the
least width that keeps the value. -/
theorem width_helpers_exact (h0 : 0 < bw) (h : bw < maxDigits) (v : APInt) :
    (∀ sign, ∃ r, v.extOrTrunc bw sign = .ok r ∧
      ∀ x, x ∈ widthRange bw sign ∧ x ≡ v.val [ZMOD 2 ^ bw] ↔ x = r.val) ∧
    (0 ≤ v.val → v.val < 2 ^ bw → v.leadingZeros bw = .ok (bw - Nat.size v.val.natAbs)) ∧
    ∀ sign, 0 ≤ v.val ∨ sign = true → v.val ∈ widthRange maxDigits sign →
      ∃ w, v.minBitwidth sign = .ok w ∧
        IsLeast {w | 1 ≤ w ∧ v.extOrTrunc w sign = .ok v} w := by
  have hbw : bw < 2 ^ 16 := h.trans (by decide)
  refine ⟨fun sign => ?_, leadingZeros_eq hbw, fun sign hsign hcap => ?_⟩
  · obtain ⟨hmem, hmod⟩ := extTrunc_spec h0 h v sign
    refine ⟨_, extOrTrunc_of_pos h0 v sign, fun x => ⟨fun hx => ?_, fun hx => ?_⟩⟩
    · exact eq_of_modEq_of_mem h0 hx.1 hmem (hx.2.trans hmod.symm)
    · rw [hx]
      exact ⟨hmem, hmod⟩
  · exact ⟨_, minBitwidth_eq hsign, isLeast_bitsOf hsign hcap⟩

/-- A value of two limbs, at a width that is not a multiple of the limb size. -/
theorem width_helpers_exact_two_limbs :
    leadingZeros ((1 : APInt) <<< 64) 70 = .ok 5 ∧
      ∃ w, minBitwidth ((1 : APInt) <<< 64) true = .ok w ∧
        IsLeast {w | 1 ≤ w ∧
          extOrTrunc ((1 : APInt) <<< 64) w true = .ok ((1 : APInt) <<< 64)} w := by
  have hval : ((1 : APInt) <<< 64).val = 2 ^ 64 := one_shl_val (by decide)
  have hsize : Nat.size ((1 : APInt) <<< 64).val.natAbs = 65 := by
    rw [hval]
    exact Nat.size_pow
  have hcap : (2 : Int) ^ 64 < half maxDigits := pow_lt_pow_right₀ (by decide) (by decide)
  obtain ⟨-, hzeros, hleast⟩ := width_helpers_exact (show 0 < 70 by decide)
    (show 70 < maxDigits by decide) ((1 : APInt) <<< 64)
  refine ⟨?_, hleast true (Or.inr rfl) ?_⟩
  · rw [hzeros (by rw [hval]; decide) (by rw [hval]; decide), hsize]
  · rw [hval]
    exact ⟨by have := half_pos maxDigits; omega, hcap⟩

end APInt
end Bambu
