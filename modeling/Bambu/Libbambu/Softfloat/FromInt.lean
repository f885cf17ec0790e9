/-
  Bambu.Libbambu.Softfloat.FromInt

  `__int_to_float_impl`.  The magnitude is shifted until its top bit is at the top of the
  integer width; a wide integer then goes to bit 62 and through the round-and-pack
  routine, a narrow one is shifted into the fraction as it is.
-/

import Bambu.Libbambu.Softfloat.RoundPack

namespace Bambu.Libbambu.Softfloat

open Bambu.Math

/-- `__int_to_float_impl`. -/
def intToFloatImpl (aAbs : Udatatype) (aSign : Bool) (aBits expBits fracBits : Nat) (expBias : Int)
    (exc : ExcMode) (subnorm : Bool) (sign : Int) (mode : RoundingMode) : Tfloat :=
  let expInt : Int := (aBits - 2) - expBias
  if aAbs = 0 then 0
  else if sign = 1 ∧ aSign = false then 0
  else if sign = 0 ∧ aSign = true then 0
  else
    let (shiftCount, zSig) := countLeadingZeroLshiftRuntime aBits aAbs
    if fracBits + 1 < aBits then
      let zSigShift :=
        if aBits ≥ 64 then (zSig >>> (aBits - 63)) ||| word ((zSig &&& ones (aBits - 63)) != 0)
        else zSig <<< (63 - aBits)
      roundAndPackFloat64 aSign (expInt - shiftCount) zSigShift expBits fracBits exc subnorm mode
    else
      packFloat64 aSign (expInt - shiftCount) (zSig <<< (fracBits + 1 - aBits)) expBits fracBits

/-- `__int_to_float`. -/
def intToFloat (a : BitVec 64) (aBits expBits fracBits : Nat) (expBias : Int) (exc : ExcMode)
    (subnorm : Bool) (sign : Int) (mode : RoundingMode) : Tfloat :=
  intToFloatImpl (if a.toInt < 0 then -a else a) (a.toInt < 0) aBits expBits fracBits expBias exc
    subnorm sign mode

/-- `__uint_to_float`. -/
def uintToFloat (a : BitVec 64) (aBits expBits fracBits : Nat) (expBias : Int) (exc : ExcMode)
    (subnorm : Bool) (sign : Int) (mode : RoundingMode) : Tfloat :=
  intToFloatImpl a false aBits expBits fracBits expBias exc subnorm sign mode

/-- `y` is the encoding of the integer `v`, rounded to nearest even. -/
structure IntRounded (e f : Nat) (v : Int) (y : Tfloat) : Prop where
  encoding : IsEncoding e f y
  finite : IsFinite e f y
  nearest : IsNearestEven e f (|(v : ℚ)| / leastSubnormal e f) (magOf e f y)
  sign : signOf e f y = decide (v < 0)
  zero : v = 0 → y = 0

/-! ## Magnitudes -/

section Magnitude

variable {e f r : Nat} {a : Udatatype}

theorem FormatBounds.packWidth (h : FormatBounds e f) : PackWidth 64 e f where
  dvd := by decide
  le := le_refl 64
  fits := by
    have := h.exp_le
    have := h.frac_le
    omega
  ext := by
    have := h.frac_le
    omega
  exp_ge := le_trans (by decide) h.exp_ge
  exp_le := h.exp_le

/-- An integer in units of the least subnormal. -/
theorem div_leastSubnormal (n : Nat) (hb : 0 < bias e) :
    (n : ℚ) / leastSubnormal e f = (n * 2 ^ (bias e + f - 1) : Nat) := by
  rw [leastSubnormal, div_eq_mul_inv, ← zpow_neg, Nat.cast_mul, Nat.cast_pow, Nat.cast_ofNat,
    ← zpow_natCast (2 : ℚ) (bias e + f - 1)]
  congr 2
  omega

/-- The right shift by one of a full word, jammed. -/
theorem toNat_jam_word (x : Udatatype) :
    ((x >>> (64 - 63)) ||| word ((x &&& ones (64 - 63)) != 0)).toNat = jam x.toNat 1 := by
  rw [BitVec.toNat_or, toNat_shiftRight, toNat_word, word_ne_zero_iff, toNat_and_ones _ (by decide)]
  rfl

theorem roundEven_zero (n : Nat) : roundEven n 0 = n := by
  unfold roundEven
  rw [Nat.pow_zero, Nat.div_one, Nat.mod_one, decide_eq_false (by omega), Bool.toNat_false,
    Nat.add_zero]

/-- A significand that is rounded under the exponent of an integer. -/
theorem nearest_of_scaled (h : FormatBounds e f) {n Z X ext k : Nat} (hn : Z = n * 2 ^ k)
    (hX : X + 4 ≤ 2 ^ e) (hexp : bias e + f - 1 + ext = k + X) (hlo : 2 ^ (f + ext) ≤ Z)
    (hlt : Z < 2 ^ (f + 1 + ext)) :
    IsNearestEven e f (n / leastSubnormal e f) (X * 2 ^ f + roundEven Z ext) ∧
      X * 2 ^ f + roundEven Z ext < infMag e f := by
  have hf := h.frac_ge
  have hfpos := Nat.two_pow_pos f
  have hq : Z / 2 ^ ext < 2 ^ (f + 1) := by
    refine Nat.div_lt_of_lt_mul ?_
    rw [← Nat.pow_add, Nat.add_comm ext]
    exact hlt
  have hinf : X * 2 ^ f + 3 * 2 ^ f ≤ infMag e f := by
    rw [← Nat.add_mul]
    exact Nat.mul_le_mul_right _ (by omega)
  have hround := roundEven_le Z ext
  rw [Nat.pow_succ] at hq
  have hone : 2 ^ 1 ≤ 2 ^ f := Nat.pow_le_pow_right (by decide) (by omega)
  refine ⟨isNearestEven_roundEven (by omega) (.inr hlo) hlt (by omega) ?_, by omega⟩
  have hb : 0 < bias e := lt_of_lt_of_le (by decide) (bias_ge h)
  rw [div_leastSubnormal n hb, hn]
  have hnat : n * 2 ^ (bias e + f - 1) * 2 ^ ext = n * 2 ^ k * 2 ^ X := by
    rw [Nat.mul_assoc, Nat.mul_assoc, ← Nat.pow_add, ← Nat.pow_add, hexp]
  exact_mod_cast hnat

/-- The conversion of a nonzero magnitude. -/
theorem intToFloatImpl_spec (h : FormatBounds e f) (h2 : 2 ≤ r) (h64 : r ≤ 64) (hb : r ≤ bias e)
    (hpos : 0 < a.toNat) (hlt : a.toNat < 2 ^ r) (s subnorm : Bool) :
    ∃ n, (intToFloatImpl a s r e f (-(bias e : Int)) .std subnorm (-1) .nearestEven).toNat =
        s.toNat * 2 ^ (e + f) + n ∧
      IsNearestEven e f (a.toNat / leastSubnormal e f) n ∧ n < infMag e f := by
  obtain ⟨hcount, hshift⟩ := countLeadingZeroLshiftRuntime_spec h2 h64 hlt hpos
  obtain ⟨hlo, hhi⟩ := shifted_bounds hpos hlt
  have hlog := (Nat.log_lt_iff_lt_pow (b := 2) (by decide) hpos.ne').mpr hlt
  obtain ⟨c, hc⟩ : ∃ c, c = r - 1 - Nat.log 2 a.toNat := ⟨_, rfl⟩
  rw [← hc] at hcount hshift hlo hhi
  obtain ⟨X, hX⟩ : ∃ X, X = bias e + r - 2 - c := ⟨_, rfl⟩
  have hXint : ((r : Int) - 2) - -(bias e : Int) - (c : Nat) = (X : Int) := by omega
  obtain ⟨hhalf, -, -⟩ := half_range h
  have hbias : bias e + 1 = 2 ^ (e - 1) := Nat.sub_add_cancel (Nat.two_pow_pos _)
  have hX4 : X + 4 ≤ 2 ^ e := by omega
  have hlim : X < packLimit false e := by
    unfold packLimit
    simp only [Bool.false_eq_true, if_false]
    omega
  have hne : a ≠ 0 := by
    intro h0
    rw [h0] at hpos
    exact absurd hpos (by decide)
  have hf := h.frac_le
  have hinf : infMag e f ≤ 2 ^ (e + f) := by
    rw [Nat.pow_add]
    exact Nat.mul_le_mul_right _ (Nat.sub_le _ _)
  unfold intToFloatImpl
  rw [if_neg hne, if_neg (fun hc => absurd hc.1 (by decide)),
    if_neg (fun hc => absurd hc.1 (by decide))]
  dsimp only
  rw [hcount, hXint]
  generalize (countLeadingZeroLshiftRuntime r a).2 = zSig at *
  split
  · rename_i hwide
    unfold roundAndPackFloat64
    have hstd : decide (ExcMode.std ≠ ExcMode.std) = false := by decide
    rw [hstd]
    split
    · -- A word of full width loses its last bit to the jamming shift.
      rename_i hr
      obtain rfl : r = 64 := by omega
      have hjam := toNat_jam_word zSig
      rw [hshift] at hjam
      have hj1 : 2 ^ 62 ≤ jam (a.toNat * 2 ^ c) 1 ∧ jam (a.toNat * 2 ^ c) 1 < 2 ^ 63 := by
        rcases jam_cases (a.toNat * 2 ^ c) 1 with ⟨hj, -⟩ | ⟨hj, -, heven⟩ <;> omega
      rw [roundAndPack_normal _ _ h.packWidth (by rw [hjam]; exact hj1.1) (by rw [hjam]; exact hj1.2)
        (.inl hlim), hjam, roundEven_jam _ _ (by omega)]
      refine ⟨_, rfl, nearest_of_scaled h (k := c) rfl hX4 (by omega) ?_ ?_⟩
      · rw [show f + (1 + (64 - 2 - f)) = 63 by omega]
        exact hlo
      · rw [show f + 1 + (1 + (64 - 2 - f)) = 64 by omega]
        exact hhi
    · rename_i hr
      have hZ : (zSig <<< (63 - r)).toNat = a.toNat * 2 ^ (c + (63 - r)) ∧
          2 ^ 62 ≤ a.toNat * 2 ^ (c + (63 - r)) ∧ a.toNat * 2 ^ (c + (63 - r)) < 2 ^ 63 := by
        have hk := Nat.two_pow_pos (63 - r)
        have h62 : (2 : Nat) ^ 62 = 2 ^ (r - 1) * 2 ^ (63 - r) := by
          rw [← Nat.pow_add]
          congr 1
          omega
        have h63 : (2 : Nat) ^ 63 = 2 ^ r * 2 ^ (63 - r) := by
          rw [← Nat.pow_add]
          congr 1
          omega
        rw [Nat.pow_add, ← Nat.mul_assoc, h62, h63]
        have hlt' := Nat.mul_lt_mul_of_pos_right hhi hk
        refine ⟨?_, Nat.mul_le_mul_right _ hlo, hlt'⟩
        rw [toNat_shiftLeft_of_lt, hshift]
        rw [hshift]
        rw [← h63] at hlt'
        omega
      rw [roundAndPack_normal _ _ h.packWidth (by rw [hZ.1]; exact hZ.2.1) (by rw [hZ.1]; exact hZ.2.2)
        (.inl hlim), hZ.1]
      refine ⟨_, rfl, nearest_of_scaled h (k := c + (63 - r)) rfl hX4 (by omega) ?_ ?_⟩
      · rw [show f + (64 - 2 - f) = 62 by omega]
        exact hZ.2.1
      · rw [show f + 1 + (64 - 2 - f) = 63 by omega]
        exact hZ.2.2
  · rename_i hnarrow
    have hk := Nat.two_pow_pos (f + 1 - r)
    have hfull : (2 : Nat) ^ f = 2 ^ (r - 1) * 2 ^ (f + 1 - r) ∧
        (2 : Nat) ^ (f + 1) = 2 ^ r * 2 ^ (f + 1 - r) := by
      constructor
      · rw [← Nat.pow_add]
        congr 1
        omega
      · rw [← Nat.pow_add]
        congr 1
        omega
    have hlt' := Nat.mul_lt_mul_of_pos_right hhi hk
    have hge' := Nat.mul_le_mul_right (2 ^ (f + 1 - r)) hlo
    rw [← hfull.2] at hlt'
    rw [← hfull.1] at hge'
    have hp64 : (2 : Nat) ^ (f + 1) ≤ 2 ^ 64 := Nat.pow_le_pow_right (by decide) (by omega)
    have hZ : (zSig <<< (f + 1 - r)).toNat = a.toNat * 2 ^ c * 2 ^ (f + 1 - r) := by
      rw [toNat_shiftLeft_of_lt, hshift]
      rw [hshift]
      omega
    obtain ⟨hnear, hn⟩ := nearest_of_scaled h
      (show a.toNat * 2 ^ c * 2 ^ (f + 1 - r) = a.toNat * 2 ^ (c + (f + 1 - r)) by
        rw [Nat.pow_add, Nat.mul_assoc]) hX4
      (show bias e + f - 1 + 0 = c + (f + 1 - r) + X by omega) hge' hlt'
    rw [roundEven_zero] at hnear hn
    refine ⟨_, ?_, hnear, hn⟩
    unfold packFloat64
    have hbound := packed_lt h.packWidth s (lt_of_lt_of_le hn hinf)
    rw [toNat_pack (by decide) s X _ e f (by rw [hZ, Nat.add_assoc]; exact hbound), hZ,
      Nat.add_assoc]

end Magnitude

/-! ## The conversions -/

theorem IntRounded.of_magnitude {e f : Nat} {v : Int} {y : Tfloat} {n : Nat}
    (hy : y.toNat = (decide (v < 0)).toNat * 2 ^ (e + f) + n) (hv : v ≠ 0)
    (hnear : IsNearestEven e f (v.natAbs / leastSubnormal e f) n) (hn : n < infMag e f) :
    IntRounded e f v y := by
  have hinf : infMag e f ≤ 2 ^ (e + f) := by
    rw [Nat.pow_add]
    exact Nat.mul_le_mul_right _ (Nat.sub_le _ _)
  obtain ⟨henc, hmag, hsign⟩ := fields_of_toNat hy (lt_of_lt_of_le hn hinf)
  refine ⟨henc, ?_, ?_, hsign, fun h0 => absurd h0 hv⟩
  · unfold IsFinite
    rw [hmag]
    exact hn
  · rw [hmag, ← Int.cast_abs, Int.abs_eq_natAbs, Int.cast_natCast]
    exact hnear

theorem IntRounded.of_zero (e f : Nat) (hpos : 0 < infMag e f) : IntRounded e f 0 0 := by
  have hzero : (0 : Tfloat).toNat = (decide ((0 : Int) < 0)).toNat * 2 ^ (e + f) + 0 := by
    rw [decide_eq_false (lt_irrefl _), Bool.toNat_false, Nat.zero_mul]
    rfl
  obtain ⟨henc, hmag, hsign⟩ := fields_of_toNat hzero (Nat.two_pow_pos _)
  have hinf : 0 < infMag e f := hpos
  refine ⟨henc, ?_, ?_, hsign, fun _ => rfl⟩
  · unfold IsFinite
    rw [hmag]
    exact hinf
  · rw [hmag, Int.cast_zero, abs_zero, zero_div]
    have hval : magValue f 0 = 0 := by
      rw [magValue, magSig_of_lt (Nat.two_pow_pos f), Nat.zero_mul]
    have hone : (magValue f 0 : ℚ) < magValue f (0 + 1) := by
      exact_mod_cast magValue_strictMono f (Nat.lt_succ_self 0)
    rw [hval] at hone
    refine isNearestEven_down hinf ?_ (.inl ?_)
    · rw [hval, Nat.cast_zero]
    · rw [hval, mul_zero]
      push_cast at hone ⊢
      linarith

/-- The conversions of signed and of unsigned integers are correctly rounded. -/
theorem intToFloat_rounded {e f r : Nat} (h : FormatBounds e f) (hr : IntWidth r) (hb : r ≤ bias e)
    (subnorm : Bool) :
    (∀ v : Int, -((2 ^ (r - 1) : Nat) : Int) ≤ v → v < (2 ^ (r - 1) : Nat) →
      IntRounded e f v (intToFloat (BitVec.ofInt 64 v) r e f (-(bias e : Int)) .std subnorm (-1)
        .nearestEven)) ∧
    (∀ v : Nat, v < 2 ^ r →
      IntRounded e f v (uintToFloat (BitVec.ofNat 64 v) r e f (-(bias e : Int)) .std subnorm (-1)
        .nearestEven)) := by
  have h2 : 2 ≤ r ∧ r ≤ 64 := by
    unfold IntWidth at hr
    omega
  have hpow : 2 ^ r = 2 * 2 ^ (r - 1) := by
    rw [← Nat.pow_succ']
    congr 1
    omega
  have h64 : 2 ^ r ≤ 2 ^ 64 := Nat.pow_le_pow_right (by decide) h2.2
  have hinf : 0 < infMag e f := by
    refine Nat.mul_pos ?_ (Nat.two_pow_pos f)
    obtain ⟨hhalf, h8, -⟩ := half_range h
    omega
  constructor
  · intro v hlo hhi
    have hint : (BitVec.ofInt 64 v).toInt = v := by
      rw [BitVec.toInt_ofInt]
      exact Int.bmod_eq_of_le (by omega) (by omega)
    unfold intToFloat
    rw [hint]
    rcases eq_or_ne v 0 with rfl | hv
    · exact IntRounded.of_zero e f hinf
    -- The magnitude of the least integer is the same word.
    obtain ⟨a, ha, hav⟩ : ∃ a, a = (if v < 0 then -BitVec.ofInt 64 v else BitVec.ofInt 64 v) ∧
        a.toNat = v.natAbs := by
      refine ⟨_, rfl, ?_⟩
      split
      · rw [← BitVec.ofInt_neg, BitVec.toNat_ofInt]
        omega
      · rw [BitVec.toNat_ofInt]
        omega
    rw [← ha]
    obtain ⟨n, hy, hnear, hn⟩ := intToFloatImpl_spec (a := a) h h2.1 h2.2 hb (by omega) (by omega)
      (decide (v < 0)) subnorm
    rw [hav] at hnear
    exact IntRounded.of_magnitude hy hv hnear hn
  · intro v hlt
    unfold uintToFloat
    rcases Nat.eq_zero_or_pos v with rfl | hv
    · exact IntRounded.of_zero e f hinf
    have ha : (BitVec.ofNat 64 v).toNat = v := by
      rw [BitVec.toNat_ofNat]
      exact Nat.mod_eq_of_lt (by omega)
    obtain ⟨n, hy, hnear, hn⟩ := intToFloatImpl_spec (a := BitVec.ofNat 64 v) h h2.1 h2.2 hb
      (by omega) (by omega) false subnorm
    have hsign : decide ((v : Int) < 0) = false := decide_eq_false (by omega)
    refine IntRounded.of_magnitude (by rw [hsign]; exact hy) (by omega) ?_ hn
    rw [ha] at hnear
    rw [Int.natAbs_natCast]
    exact hnear

/-- The least 16-bit integer and the largest one, rounded, in single precision. -/
theorem intToFloat_rounded_single :
    IntRounded 8 23 (-32768) (intToFloat (BitVec.ofInt 64 (-32768)) 16 8 23 (-127) .std true (-1)
        .nearestEven) ∧
      IntRounded 8 23 (2 ^ 32 - 1 : Nat) (uintToFloat (BitVec.ofNat 64 (2 ^ 32 - 1)) 32 8 23 (-127)
        .std true (-1) .nearestEven) :=
  ⟨(intToFloat_rounded ⟨by decide, by decide, by decide, by decide⟩ (.inr (.inl rfl)) (by decide)
      true).1 (-32768) (by decide) (by decide),
    (intToFloat_rounded ⟨by decide, by decide, by decide, by decide⟩ (.inr (.inr (.inl rfl)))
      (by decide) true).2 (2 ^ 32 - 1) (by decide)⟩

example : intToFloat (BitVec.ofInt 64 (-3)) 8 8 23 (-127) .std true (-1) .nearestEven = 0xc0400000 := by
  decide +kernel

end Bambu.Libbambu.Softfloat
