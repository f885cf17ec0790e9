/-
  Bambu.Libbambu.Softfloat.IntRoundTrip

  An integer converted to a float and back, and a float that is an integer.  A magnitude
  that fits the significand is an encoding itself, so that nothing is rounded on the way
  there and nothing is truncated on the way back.
-/

import Bambu.Libbambu.Softfloat.FromInt
import Bambu.Libbambu.Softfloat.ToInt

namespace Bambu.Libbambu.Softfloat

open Bambu.Math

section RoundTrip

variable {e f r n : Nat} {a : Udatatype} {x : Tfloat} {rSign : Bool}

/-- The encoding of an integer that fits the significand: its top bit is the hidden one. -/
theorem exact_encoding (hbias : 0 < bias e) (hpos : 0 < n) (hfits : n < 2 ^ (f + 1)) :
    ∃ m, m / 2 ^ f = bias e + Nat.log 2 n ∧ (magValue f m : ℚ) = n / leastSubnormal e f := by
  have hlo : 2 ^ Nat.log 2 n ≤ n := Nat.pow_log_le_self 2 hpos.ne'
  have hhi : n < 2 ^ (Nat.log 2 n + 1) := Nat.lt_pow_succ_log_self (by decide) n
  have hlog : Nat.log 2 n < f + 1 := (Nat.log_lt_iff_lt_pow (by decide) hpos.ne').mpr hfits
  generalize Nat.log 2 n = l at *
  obtain ⟨d, rfl⟩ := Nat.exists_eq_add_of_le (Nat.le_of_lt_succ hlog)
  have hmin : 2 ^ (l + d) ≤ n * 2 ^ d := by
    rw [pow_add]
    exact Nat.mul_le_mul_right _ hlo
  have hmax : n * 2 ^ d < 2 * 2 ^ (l + d) := by
    rw [← pow_succ', Nat.add_right_comm, pow_add]
    exact Nat.mul_lt_mul_of_pos_right hhi (Nat.two_pow_pos d)
  have hs : n * 2 ^ d - 2 ^ (l + d) < 2 ^ (l + d) := by omega
  have hsum : 2 ^ (l + d) + (n * 2 ^ d - 2 ^ (l + d)) = n * 2 ^ d := by omega
  obtain ⟨hsig, hexp⟩ := magSig_packed (x := bias e + l) (by omega) hs
  refine ⟨(bias e + l) * 2 ^ (l + d) + (n * 2 ^ d - 2 ^ (l + d)), (packed_fields hs).1, ?_⟩
  rw [div_leastSubnormal n hbias, magValue, hsig, hexp, hsum, Nat.mul_assoc, ← pow_add,
    show d + (bias e + l - 1) = bias e + (l + d) - 1 by omega]

/-- An encoding whose value is an integer of the type converts to this integer. -/
theorem floatToInt_of_value (h : FormatBounds e f) (hb : r ≤ bias e) (h64 : r ≤ 64)
    (hn : (magValue f (magOf e f x) : ℚ) * leastSubnormal e f = n) (hpos : 0 < n)
    (hlt : n < 2 ^ (r - rSign.toNat)) (hneg : rSign = false → signOf e f x = false) :
    ∃ a : Udatatype, a.toNat = n ∧ magOf e f x < infMag e f ∧
      floatToInt x r rSign e f .nevn = if signOf e f x then -a else a := by
  have hbias := bias_ge h
  have htwo := two_pow_exp h
  have htrunc : truncatedMag e f (magOf e f x) = n := by
    rw [truncatedMag, hn, Nat.floor_natCast]
  obtain ⟨k, hk, hk0⟩ : ∃ k, magOf e f x / 2 ^ f + 1 = bias e + k ∧ 0 < k := by
    rcases Nat.lt_or_ge (bias e) (magOf e f x / 2 ^ f + 1) with hgt | hle
    · exact ⟨_, (Nat.add_sub_of_le hgt.le).symm, Nat.sub_pos_of_lt hgt⟩
    · rw [truncatedMag_of_le hle (by omega)] at htrunc
      omega
  have hkr : k ≤ r - rSign.toNat := by
    have hlo := (truncatedMag_bounds hk hk0 (by omega)).1.trans_lt (htrunc ▸ hlt)
    have := (Nat.pow_lt_pow_iff_right (by decide)).mp hlo
    omega
  refine ⟨_, ?_, (Nat.div_lt_iff_lt_mul (Nat.two_pow_pos f)).mp (by omega),
    floatToInt_eq h (by omega) h64 hk hkr fun h1 h2 => ?_⟩
  · rw [toNat_fixedPoint (x := x) h h64 (by omega) hkr, if_pos rfl,
      ← truncatedMag_of_pos hk hk0 (by omega), htrunc]
  · rw [hneg h1] at h2
    cases h2

theorem floatToInt_zero (h : FormatBounds e f) : floatToInt 0 r rSign e f .nevn = 0 := by
  have hbias := bias_ge h
  refine floatToInt_low h ?_
  rw [show magOf e f 0 = 0 from Nat.zero_mod _, Nat.zero_div]
  omega

variable (h : FormatBounds e f) (h2 : 2 ≤ r) (h64 : r ≤ 64) (hb : r ≤ bias e)

include h h2 h64 hb

/-- An integer that is the value of an encoding converts to this encoding. -/
theorem toNat_intToFloatImpl (hpos : 0 < a.toNat) (hlt : a.toNat < 2 ^ r) {m : Nat}
    (hm : m < infMag e f) (hvalue : (magValue f m : ℚ) = a.toNat / leastSubnormal e f)
    (s subnorm : Bool) :
    (intToFloatImpl a s r e f (-(bias e : Int)) .std subnorm (-1) .nearestEven).toNat =
      s.toNat * 2 ^ (e + f) + m := by
  obtain ⟨n, hy, hnear, -⟩ := intToFloatImpl_spec h h2 h64 hb hpos hlt s subnorm
  -- Nothing is nearer to the integer.
  obtain rfl : n = m := by
    refine hnear.unique (isNearestEven_down hm hvalue.le (.inl ?_))
    have hstep : (magValue f m : ℚ) < magValue f (m + 1) := by
      exact_mod_cast magValue_strictMono f (Nat.lt_succ_self m)
    linarith
  exact hy

/-- A magnitude on its way to a float and back. -/
theorem floatToInt_intToFloatImpl (hfits : a.toNat < 2 ^ (f + 1)) {s : Bool}
    (hlt : a.toNat < 2 ^ (r - rSign.toNat)) (hneg : rSign = false → s = false) (subnorm : Bool) :
    ((floatToInt (intToFloatImpl a s r e f (-(bias e : Int)) .std subnorm (-1) .nearestEven)
      r rSign e f .nevn).toNat : Int) % (2 ^ r : Nat) =
        (if s then -(a.toNat : Int) else a.toNat) % (2 ^ r : Nat) := by
  have hbias := bias_ge h
  have htwo := two_pow_exp h
  rcases Nat.eq_zero_or_pos a.toNat with hzero | hpos
  · obtain rfl : a = 0 := BitVec.eq_of_toNat_eq hzero
    change ((floatToInt 0 r rSign e f .nevn).toNat : Int) % _ = _
    rw [floatToInt_zero h, hzero, Nat.cast_zero, neg_zero, ite_self]
  obtain ⟨m, hexp, hvalue⟩ := exact_encoding (e := e) (by omega) hpos hfits
  have hlt' : a.toNat < 2 ^ r :=
    hlt.trans_le (Nat.pow_le_pow_right (by decide) (Nat.sub_le _ _))
  have hlog := (Nat.log_lt_iff_lt_pow (b := 2) (by decide) hpos.ne').mpr hlt'
  have hm : m < infMag e f :=
    (Nat.div_lt_iff_lt_mul (Nat.two_pow_pos f)).mp (by rw [hexp]; omega)
  have hy := toNat_intToFloatImpl h h2 h64 hb hpos hlt' hm hvalue s subnorm
  have hinf : infMag e f ≤ 2 ^ (e + f) := by
    rw [Nat.pow_add]
    exact Nat.mul_le_mul_right _ (Nat.sub_le _ _)
  obtain ⟨-, hmag, hsign⟩ := fields_of_toNat hy (hm.trans_le hinf)
  obtain ⟨b, hab, -, hback⟩ := floatToInt_of_value h hb h64 (by
    rw [hmag, hvalue]
    exact div_mul_cancel₀ _ (zpow_ne_zero _ two_ne_zero)) hpos hlt (fun h1 => hsign ▸ hneg h1)
  rw [hback, hsign, signed_mod h64, hab]

end RoundTrip

end Bambu.Libbambu.Softfloat
