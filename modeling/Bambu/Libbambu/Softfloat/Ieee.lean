/-
  Bambu.Libbambu.Softfloat.Ieee

  The conversions between binary32 and binary64.  Widening moves the exponent by the
  difference of the biases and is exact.  Narrowing jams the significand into a word of 32
  bits and rounds it with `__roundAndPackFloat32`, which leaves the greatest exponent of
  the format to numbers and gives all ones on overflow: past `2 ^ 128 + 2 ^ 104` the result
  is a NaN and not the infinity.
-/

import Bambu.Libbambu.Softfloat.Cast
import Bambu.Libbambu.Softfloat.RoundPack

namespace Bambu.Libbambu.Softfloat

open Bambu.Math

/-- `__normalizeFloat32Subnormal`: `zExp` and `zSig`. -/
def normalizeFloat32Subnormal (aSig : BitVec 32) : Int × BitVec 32 :=
  let shiftCount : Nat := countLeadingZeroMacro 24 (aSig.setWidth 64) % 2 ^ 5
  (1 - shiftCount, aSig <<< shiftCount)

/-- `__float32_to_float64_ieee`. -/
def float32ToFloat64Ieee (a : BitVec 32) (exc : ExcMode) (subnorm : Bool) : BitVec 64 :=
  let aSig : BitVec 32 := (extractFloatFrac (a.setWidth 64) 23).setWidth 32
  let aExp : Int := (extractFloatExp (a.setWidth 64) 8 23).toNat
  let aSign := extractFloatSign (a.setWidth 64) 8 23 (-1)
  if aExp = 0xFF ∧ exc = .std then
    (word aSign <<< 63) ||| (word (aSig != 0) <<< (52 - 1)) ||| 0x7FF0000000000000
  else if aExp = 0 then
    if subnorm then
      if aSig = 0 then word aSign <<< 63
      else
        let (aExp, aSig) := normalizeFloat32Subnormal aSig
        packFloat64 aSign (aExp - 1 + 0x380) (aSig.setWidth 64 <<< 29) 11 52
    else word aSign <<< 63
  else packFloat64 aSign (aExp + 0x380) (aSig.setWidth 64 <<< 29) 11 52

/-- `__float64_to_float32_ieee`. -/
def float64ToFloat32Ieee (a : BitVec 64) (exc : ExcMode) (subnorm : Bool) (mode : RoundingMode) :
    BitVec 32 :=
  let aSig := extractFloatFrac a 52
  let aExp : Int := (extractFloatExp a 11 52).toNat
  let aSign := extractFloatSign a 11 52 (-1)
  if aExp = 0x7FF ∧ exc = .std then
    (flag 32 aSign <<< (8 + 23)) ||| (flag 32 (aSig != 0) <<< (23 - 1)) ||| 0x7F800000
  else
    let zSig : BitVec 32 := (shift64RightJamming aSig 22).setWidth 32
    if aExp ≠ 0 ∨ zSig ≠ 0 then
      roundAndPackFloat32 aSign (aExp - 0x381) (zSig ||| 0x40000000) 8 23 exc subnorm mode
    else roundAndPackFloat32 aSign aExp zSig 8 23 exc subnorm mode

/-! ## What the conversions should be -/

/-- `y` is the binary64 encoding `x` narrowed to binary32. -/
structure Narrowed (x y : Tfloat) : Prop where
  encoding : IsEncoding 8 23 y
  nan : IsNaN 11 52 x → IsNaN 8 23 y
  infinite : IsInf 11 52 x → IsInf 8 23 y
  nearest : IsFinite 11 52 x →
    IsNearestEven 8 23 (castValue 11 52 8 23 (magOf 11 52 x)) (magOf 8 23 y)
  sign : ¬ IsNaN 11 52 x → signOf 8 23 y = signOf 11 52 x

/-- `y` is the binary32 encoding `x` widened to binary64. -/
structure Widened (x y : Tfloat) : Prop where
  encoding : IsEncoding 11 52 y
  nan : IsNaN 8 23 x → IsNaN 11 52 y
  infinite : IsInf 8 23 x → IsInf 11 52 y
  finite : IsFinite 8 23 x → IsFinite 11 52 y
  value : IsFinite 8 23 x → (magValue 52 (magOf 11 52 y) : ℚ) * leastSubnormal 11 52 =
    magValue 23 (magOf 8 23 x) * leastSubnormal 8 23
  sign : ¬ IsNaN 8 23 x → signOf 11 52 y = signOf 8 23 x

/-- A NaN, an infinity or a magnitude of at most `2 ^ 128 + 2 ^ 104`. -/
def NarrowsInRange (x : Tfloat) : Prop :=
  infMag 11 52 ≤ magOf 11 52 x ∨ magOf 11 52 x ≤ 1151 * 2 ^ 52 + 2 ^ 28

instance (x : Tfloat) : Decidable (NarrowsInRange x) := inferInstanceAs (Decidable (_ ∨ _))

/-! ## Values -/

section Values

/-- The least subnormals of the two formats are this many binary places apart. -/
def unitGap : Nat := 925

/-- A binary64 value in units of the least binary32 subnormal. -/
theorem castValue_narrow (m : Nat) :
    castValue 11 52 8 23 m = (magValue 52 m : ℚ) / ((2 : ℚ) ^ unitGap) := by
  have hb11 : bias 11 = 1023 := by decide
  have hb8 : bias 8 = 127 := by decide
  have hexp : (1 - ((1023 : Nat) : ℤ) - (52 : Nat)) - (1 - ((127 : Nat) : ℤ) - (23 : Nat)) =
      -(unitGap : ℤ) := by decide
  rw [castValue, leastSubnormal, leastSubnormal, hb11, hb8, mul_div_assoc, ← zpow_sub₀ two_ne_zero,
    hexp, div_eq_mul_inv, ← zpow_natCast (2 : ℚ) unitGap, ← zpow_neg]

/-- The value of a significand under its exponent. -/
theorem castValue_narrow_scaled {m Z E X ext : Nat} (hm : magValue 52 m = Z * 2 ^ E)
    (hexp : E + ext = X + unitGap) : castValue 11 52 8 23 m * (2 ^ ext : Nat) = Z * 2 ^ X := by
  rw [castValue_narrow, hm, div_mul_eq_mul_div, div_eq_iff (pow_ne_zero _ two_ne_zero)]
  have hnat : Z * 2 ^ E * 2 ^ ext = Z * 2 ^ X * 2 ^ unitGap := by
    rw [Nat.mul_assoc, Nat.mul_assoc, ← Nat.pow_add, ← Nat.pow_add, hexp]
  exact_mod_cast hnat

/-- A significand far below the rounding position. -/
theorem roundEven_eq_zero {Z ext : Nat} (h : Z < 2 ^ (ext - 1)) (hext : 0 < ext) :
    roundEven Z ext = 0 := by
  have hpow : 2 ^ ext = 2 * 2 ^ (ext - 1) := by
    rw [← Nat.pow_succ']
    congr 1
    omega
  exact Nat.lt_one_iff.mp (roundEven_lt hext (by omega))

/-- A fraction with its implicit one, jammed. -/
theorem jam_add_two_pow {F : Nat} (hF : F < 2 ^ 52) :
    jam (2 ^ 52 + F) 22 = 2 ^ 30 + jam F 22 ∧ jam F 22 < 2 ^ 30 ∧ (jam F 22 = 0 ↔ F = 0) := by
  have h1 := jam_cases (2 ^ 52 + F) 22
  have h2 := jam_cases F 22
  omega

end Values

/-! ## Narrowing -/

section Narrowing

variable {x : BitVec 64}

theorem unitGap_eq : unitGap = 925 := rfl

theorem packWidth_single : PackWidth 32 8 23 :=
  ⟨by decide, by decide, by decide, by decide, by decide, by decide⟩

theorem roundAndPackFloat32_std (s : Bool) (zExp : Int) (Z : BitVec 32) :
    roundAndPackFloat32 s zExp Z 8 23 .std true .nearestEven =
      roundAndPack true s zExp Z 8 23 true .nearestEven := rfl

theorem packLimit_single : packLimit true 8 = 254 := by decide

/-- The significand that goes into the round-and-pack routine. -/
theorem toNat_narrowSig (x : BitVec 64) :
    ((shift64RightJamming (extractFloatFrac x 52) 22).setWidth 32).toNat =
        jam (magOf 11 52 x % 2 ^ 52) 22 ∧
      (((shift64RightJamming (extractFloatFrac x 52) 22).setWidth 32 ||| 0x40000000) : BitVec 32).toNat =
        jam (2 ^ 52 + magOf 11 52 x % 2 ^ 52) 22 := by
  have hF := Nat.mod_lt (magOf 11 52 x) (Nat.two_pow_pos 52)
  obtain ⟨hsum, hlt, -⟩ := jam_add_two_pow hF
  have hjam : (shift64RightJamming (extractFloatFrac x 52) 22).toNat =
      jam (magOf 11 52 x % 2 ^ 52) 22 := by
    have h := toNat_shiftRightJamming (w := 64) (by decide) (by decide) (extractFloatFrac x 52)
      (s := 22) (by decide)
    rw [toNat_extractFloatFrac (e := 11) x (by decide)] at h
    exact h
  have hset : ((shift64RightJamming (extractFloatFrac x 52) 22).setWidth 32).toNat =
      jam (magOf 11 52 x % 2 ^ 52) 22 := by
    rw [BitVec.toNat_setWidth, hjam]
    exact Nat.mod_eq_of_lt (by omega)
  refine ⟨hset, ?_⟩
  have hone : (0x40000000 : BitVec 32).toNat = 2 ^ 30 * 1 := by decide
  rw [BitVec.toNat_or, hset, hone, Nat.or_comm, ← Nat.two_pow_add_eq_or_of_lt hlt, hsum,
    Nat.mul_one]

/-- What the routine does with the fields of a finite number. -/
theorem float64ToFloat32_finite (hx : IsFinite 11 52 x) :
    ∃ Z : BitVec 32, Z.toNat = jam (2 ^ 52 + magOf 11 52 x % 2 ^ 52) 22 ∧
      float64ToFloat32Ieee x .std true .nearestEven =
        if magOf 11 52 x = 0 then
          roundAndPack true (signOf 11 52 x) 0 0 8 23 true .nearestEven
        else roundAndPack true (signOf 11 52 x) ((magOf 11 52 x / 2 ^ 52 : Nat) - 897) Z 8 23 true
          .nearestEven := by
  obtain ⟨hset, hor⟩ := toNat_narrowSig x
  have hF := Nat.mod_lt (magOf 11 52 x) (Nat.two_pow_pos 52)
  obtain ⟨-, -, hzero⟩ := jam_add_two_pow hF
  have hE := toNat_extractFloatExp (e := 11) (f := 52) x (by decide)
  have hmax : ((magOf 11 52 x / 2 ^ 52 : Nat) : Int) ≠ 0x7FF := by
    intro h
    unfold IsFinite infMag at hx
    omega
  refine ⟨_, hor, ?_⟩
  unfold float64ToFloat32Ieee
  simp only [hE, extractFloatSign_eq, roundAndPackFloat32_std]
  rw [if_neg (fun hc => hmax hc.1)]
  have hcond : (((magOf 11 52 x / 2 ^ 52 : Nat) : Int) ≠ 0 ∨
      (shift64RightJamming (extractFloatFrac x 52) 22).setWidth 32 ≠ 0) ↔ magOf 11 52 x ≠ 0 := by
    rw [ne_eq, ne_eq (BitVec.setWidth 32 _), ← BitVec.toNat_inj, hset, BitVec.ofNat_eq_ofNat,
      BitVec.toNat_ofNat, Nat.zero_mod, hzero]
    omega
  by_cases hm : magOf 11 52 x = 0
  · rw [if_neg (by rw [hcond]; exact not_not.mpr hm), if_pos hm, hm]
    have hz : (shift64RightJamming (extractFloatFrac x 52) 22).setWidth 32 = (0 : BitVec 32) := by
      apply BitVec.eq_of_toNat_eq
      rw [hset, hm, Nat.zero_mod]
      decide
    rw [hz]
    rfl
  · rw [if_pos (hcond.mpr hm), if_neg hm]

/-- A rounded result. -/
theorem Narrowed.of_finite {n : Nat} {y : BitVec 32} (hx : IsFinite 11 52 x)
    (hy : y.toNat = (signOf 11 52 x).toNat * 2 ^ (8 + 23) + n)
    (hn : IsNearestEven 8 23 (castValue 11 52 8 23 (magOf 11 52 x)) n) :
    Narrowed x (y.setWidth 64) := by
  have hy64 : (y.setWidth 64).toNat = (signOf 11 52 x).toNat * 2 ^ (8 + 23) + n := by
    rw [BitVec.toNat_setWidth, hy]
    refine Nat.mod_eq_of_lt ?_
    rw [← hy]
    exact lt_trans y.isLt (by decide)
  have hlt : n < 2 ^ (8 + 23) := lt_of_le_of_lt hn.le_inf (by decide)
  obtain ⟨henc, hmag, hsign⟩ := fields_of_toNat hy64 hlt
  have hfin : magOf 11 52 x < infMag 11 52 := hx
  refine ⟨henc, fun h => absurd (show infMag 11 52 < _ from h) hfin.not_gt,
    fun h => absurd h hfin.ne, fun _ => by rw [hmag]; exact hn, fun _ => hsign⟩

/-- A subnormal number is below every rounding position of the narrow format. -/
theorem nearest_of_subnormal {m : Nat} (hm : m < 2 ^ 52) :
    IsNearestEven 8 23 (castValue 11 52 8 23 m) 0 := by
  have hfar : ∀ k, 53 ≤ k → m < 2 ^ k := fun k hk =>
    lt_of_lt_of_le (show m < 2 ^ 53 by omega) (Nat.pow_le_pow_right (by decide) hk)
  have hval : magValue 52 m = m * 2 ^ 0 := by
    rw [magValue, magSig_of_lt hm, magExp_of_lt (by omega)]
  have hscaled := castValue_narrow_scaled hval (show 0 + unitGap = 0 + unitGap from rfl)
  have hnear := isNearestEven_roundEven (e := 8) (f := 23) (by decide) (.inl rfl)
    (hfar _ (by decide)) (by rw [Nat.div_eq_of_lt (hfar _ (by decide))]; decide) hscaled
  rwa [roundEven_eq_zero (hfar _ (by decide)) (by decide)] at hnear

/-- From the greatest exponent on the value is at least that of infinity. -/
theorem castValue_ge_inf {m M X : Nat} (hval : magValue 52 m = M * 2 ^ (X + 896)) (hM : 2 ^ 52 ≤ M)
    (hX : 254 ≤ X) : (magValue 23 (infMag 8 23) : ℚ) ≤ castValue 11 52 8 23 m := by
  have hscaled := castValue_narrow_scaled hval (show X + 896 + 29 = X + unitGap by rw [unitGap_eq])
  have hinf : magValue 23 (infMag 8 23) * 2 ^ 29 = 2 ^ 52 * 2 ^ 254 := by
    have hfields := magSig_packed (f := 23) (x := 255) (s := 0) (by decide) (by decide)
    rw [Nat.add_zero, Nat.add_zero] at hfields
    rw [magValue, show infMag 8 23 = 255 * 2 ^ 23 by decide, hfields.1, hfields.2]
    ring
  have hle : magValue 23 (infMag 8 23) * 2 ^ 29 ≤ M * 2 ^ X := by
    rw [hinf]
    exact Nat.mul_le_mul hM (Nat.pow_le_pow_right (by decide) hX)
  have hleq : (magValue 23 (infMag 8 23) : ℚ) * (2 ^ 29 : Nat) ≤
      castValue 11 52 8 23 m * (2 ^ 29 : Nat) := by
    rw [hscaled]
    exact_mod_cast hle
  exact le_of_mul_le_mul_right hleq (by positivity)

/-- A finite number of at most `2 ^ 128 + 2 ^ 104` is rounded. -/
theorem narrowed_of_finite (hx : IsFinite 11 52 x)
    (hle : magOf 11 52 x ≤ 1151 * 2 ^ 52 + 2 ^ 28) :
    Narrowed x ((float64ToFloat32Ieee x .std true .nearestEven).setWidth 64) := by
  obtain ⟨Z, hZ, heq⟩ := float64ToFloat32_finite hx
  rw [heq]
  have hF := Nat.mod_lt (magOf 11 52 x) (Nat.two_pow_pos 52)
  have hdecomp := Nat.div_add_mod (magOf 11 52 x) (2 ^ 52)
  obtain ⟨hsum, hjlt, -⟩ := jam_add_two_pow hF
  have hZlo : 2 ^ (32 - 2) ≤ Z.toNat := by omega
  have hZhi : Z.toNat < 2 ^ (32 - 1) := by omega
  obtain ⟨M, hM⟩ : ∃ M, M = 2 ^ 52 + magOf 11 52 x % 2 ^ 52 := ⟨_, rfl⟩
  rw [← hM] at hZ
  have hinf : infMag 8 23 = 255 * 2 ^ 23 := by decide
  split
  · -- Zero keeps its sign.
    rename_i hm
    have hzero : ∀ s, (roundAndPack true s 0 (0 : BitVec 32) 8 23 true .nearestEven).toNat =
        s.toNat * 2 ^ (8 + 23) + 0 := by decide
    exact Narrowed.of_finite hx (hzero _) (nearest_of_subnormal (by omega))
  rename_i hm
  rcases Nat.eq_zero_or_pos (magOf 11 52 x / 2 ^ 52) with hE | hE
  · obtain ⟨k, hk⟩ : ∃ k, k = 897 := ⟨_, rfl⟩
    have hround := roundAndPack_subnormal true (signOf 11 52 x) packWidth_single
      hZhi (k := k) (by omega) (by omega)
    have hzero : roundEven M (22 + (k + (32 - 2 - 23))) = 0 :=
      roundEven_eq_zero (lt_of_lt_of_le (show M < 2 ^ 53 by omega)
        (Nat.pow_le_pow_right (by decide) (by omega))) (by omega)
    rw [hZ, roundEven_jam _ _ (by omega), hzero] at hround
    rw [hE, show ((0 : Nat) : Int) - 897 = -(k : Int) by omega]
    exact Narrowed.of_finite hx hround (nearest_of_subnormal (by omega))
  -- A normal number.
  have hval : magValue 52 (magOf 11 52 x) = M * 2 ^ (magOf 11 52 x / 2 ^ 52 - 1) := by
    rw [magValue, magSig, if_neg (by omega), magExp, hM]
  rcases Nat.lt_or_ge (magOf 11 52 x / 2 ^ 52) 897 with hlow | hhigh
  · -- Below the normal numbers the significand is shifted first.
    obtain ⟨k, hk⟩ : ∃ k, k = 897 - magOf 11 52 x / 2 ^ 52 := ⟨_, rfl⟩
    have hround := roundAndPack_subnormal true (signOf 11 52 x) packWidth_single
      hZhi (k := k) (by omega) (by omega)
    rw [hZ, roundEven_jam _ _ (by omega)] at hround
    rw [show ((magOf 11 52 x / 2 ^ 52 : Nat) : Int) - 897 = -(k : Int) by omega]
    refine Narrowed.of_finite hx hround ?_
    have hpow : 2 ^ 53 ≤ 2 ^ (23 + 1 + (22 + (k + (32 - 2 - 23)))) :=
      Nat.pow_le_pow_right (by decide) (by omega)
    have hscaled := castValue_narrow_scaled hval (show magOf 11 52 x / 2 ^ 52 - 1 +
      (22 + (k + (32 - 2 - 23))) = 0 + unitGap by rw [unitGap_eq]; omega)
    have hnear := isNearestEven_roundEven (e := 8) (f := 23) (by decide) (.inl rfl) (by omega) ?_
      hscaled
    · rwa [Nat.zero_mul, Nat.zero_add] at hnear
    · have hq : M / 2 ^ (22 + (k + (32 - 2 - 23))) ≤ M / 2 ^ 29 :=
        Nat.div_le_div_left (Nat.pow_le_pow_right (by decide) (by omega)) (by decide)
      omega
  · obtain ⟨X, hX⟩ : ∃ X, magOf 11 52 x / 2 ^ 52 = X + 897 := ⟨_, (Nat.sub_add_cancel hhigh).symm⟩
    rw [show ((magOf 11 52 x / 2 ^ 52 : Nat) : Int) - 897 = (X : Int) by omega]
    have hcarry : 254 ≤ X → Z.toNat + 2 ^ (32 - 2 - 23 - 1) < 2 ^ (32 - 1) := by
      intro hX254
      have hjam := jam_cases M 22
      omega
    have hround := roundAndPack_normal true (signOf 11 52 x) packWidth_single hZlo
      hZhi (X := X) (by rw [packLimit_single]; omega) true
    rw [hZ, roundEven_jam _ _ (by decide)] at hround
    refine Narrowed.of_finite hx hround ?_
    rcases Nat.lt_or_ge X 254 with hX254 | hX254
    · exact isNearestEven_roundEven (by decide) (.inr (by omega)) (by omega) (by omega)
        (castValue_narrow_scaled hval (by rw [unitGap_eq]; omega))
    · -- The greatest exponent is that of infinity.
      have hX254' : X = 254 := by omega
      have hsmall : roundEven M (22 + (32 - 2 - 23)) = 2 ^ 23 := by
        unfold roundEven
        rw [decide_eq_false (by omega), Bool.toNat_false]
        omega
      rw [hX, show X + 897 - 1 = X + 896 by omega] at hval
      have hnear := isNearestEven_inf (castValue_ge_inf hval (by omega) hX254)
      rw [hsmall, hX254']
      exact hnear

/-- Past that the result is a NaN. -/
theorem not_narrowed_of_gt (hx : IsFinite 11 52 x)
    (hgt : 1151 * 2 ^ 52 + 2 ^ 28 < magOf 11 52 x) :
    IsNaN 8 23 ((float64ToFloat32Ieee x .std true .nearestEven).setWidth 64) := by
  obtain ⟨Z, hZ, heq⟩ := float64ToFloat32_finite hx
  have hF := Nat.mod_lt (magOf 11 52 x) (Nat.two_pow_pos 52)
  have hdecomp := Nat.div_add_mod (magOf 11 52 x) (2 ^ 52)
  obtain ⟨hsum, hjlt, -⟩ := jam_add_two_pow hF
  have hZlo : 2 ^ (32 - 2) ≤ Z.toNat := by omega
  have hZhi : Z.toNat < 2 ^ (32 - 1) := by omega
  obtain ⟨M, hM⟩ : ∃ M, M = 2 ^ 52 + magOf 11 52 x % 2 ^ 52 := ⟨_, rfl⟩
  rw [← hM] at hZ
  have hlt : magOf 11 52 x < infMag 11 52 := hx
  have hinf11 : infMag 11 52 = 2047 * 2 ^ 52 := by decide
  have hinf : infMag 8 23 = 255 * 2 ^ 23 := by decide
  obtain ⟨X, hX⟩ : ∃ X, magOf 11 52 x / 2 ^ 52 = X + 897 :=
    ⟨magOf 11 52 x / 2 ^ 52 - 897, by omega⟩
  rw [if_neg (by omega), show ((magOf 11 52 x / 2 ^ 52 : Nat) : Int) - 897 = (X : Int) by omega]
    at heq
  -- A magnitude above that of infinity.
  obtain ⟨n, hy, hn, hnlt⟩ : ∃ n, (float64ToFloat32Ieee x .std true .nearestEven).toNat =
      (signOf 11 52 x).toNat * 2 ^ (8 + 23) + n ∧ infMag 8 23 < n ∧ n < 2 ^ (8 + 23) := by
    rw [heq]
    by_cases hcarry : X = 254 ∧ Z.toNat + 2 ^ (32 - 2 - 23 - 1) < 2 ^ (32 - 1)
    · have hround := roundAndPack_normal true (signOf 11 52 x) packWidth_single
        hZlo hZhi (X := X) (.inr hcarry) true
      rw [hZ, roundEven_jam _ _ (by decide)] at hround
      refine ⟨_, hround, ?_, ?_⟩
      · have hup : 2 ^ 23 < roundEven M (22 + (32 - 2 - 23)) := by
          unfold roundEven
          rcases Nat.lt_or_ge (2 ^ 52 + 2 ^ 29) (M + 1) with h | h
          · have := Nat.zero_le (decide (2 ^ (22 + (32 - 2 - 23)) < 2 * (M % 2 ^ (22 + (32 - 2 - 23))) ∨
              2 ^ (22 + (32 - 2 - 23)) = 2 * (M % 2 ^ (22 + (32 - 2 - 23))) ∧
                M / 2 ^ (22 + (32 - 2 - 23)) % 2 = 1)).toNat
            omega
          · rw [decide_eq_true (.inl (by omega)), Bool.toNat_true]
            omega
        omega
      · -- Without a carry the significand keeps its width.
        have hfit : roundEven M (22 + (32 - 2 - 23)) < 2 ^ 24 := by
          have hjam := jam_cases M 22
          exact roundEven_lt (by decide) (by omega)
        rw [hcarry.1]
        calc 254 * 2 ^ 23 + roundEven M (22 + (32 - 2 - 23)) < 254 * 2 ^ 23 + 2 ^ 24 :=
              Nat.add_lt_add_left hfit _
          _ = 2 ^ (8 + 23) := by decide
    · refine ⟨_, roundAndPack_overflow _ _ packWidth_single hZhi (by omega) ?_ true, ?_, ?_⟩
      · rw [packLimit_single]
        omega
      · rw [if_pos rfl]
        exact Nat.lt_add_of_pos_right (by decide)
      · rw [if_pos rfl]
        decide
  have hy64 : ((float64ToFloat32Ieee x .std true .nearestEven).setWidth 64).toNat =
      (signOf 11 52 x).toNat * 2 ^ (8 + 23) + n := by
    rw [BitVec.toNat_setWidth, hy]
    refine Nat.mod_eq_of_lt ?_
    rw [← hy]
    exact lt_trans (BitVec.isLt _) (by decide)
  unfold IsNaN
  rw [(fields_of_toNat hy64 hnlt).2.1]
  exact hn

/-- An infinity stays one, and a NaN too. -/
theorem narrowed_of_special (hx : infMag 11 52 ≤ magOf 11 52 x) :
    Narrowed x ((float64ToFloat32Ieee x .std true .nearestEven).setWidth 64) := by
  have hlt := magOf_lt 11 52 x
  have hinf11 : infMag 11 52 = 2047 * 2 ^ 52 := by decide
  have hE : ((extractFloatExp x 11 52).toNat : Int) = 0x7FF := by
    rw [toNat_extractFloatExp (e := 11) (f := 52) x (by decide)]
    omega
  have hF : (extractFloatFrac x 52 != 0) = decide (infMag 11 52 < magOf 11 52 x) := by
    rw [word_ne_zero_iff, toNat_extractFloatFrac (e := 11) x (by decide), decide_eq_decide]
    omega
  have hword : ∀ s b : Bool, (((flag 32 s <<< (8 + 23)) ||| (flag 32 b <<< (23 - 1)) |||
      0x7F800000).setWidth 64).toNat = s.toNat * 2 ^ (8 + 23) +
        (infMag 8 23 + b.toNat * 2 ^ 22) := by decide
  unfold float64ToFloat32Ieee
  simp only [extractFloatSign_eq]
  rw [if_pos ⟨hE, trivial⟩, hF]
  have hy := hword (signOf 11 52 x) (decide (infMag 11 52 < magOf 11 52 x))
  have hbit := Bool.toNat_le (decide (infMag 11 52 < magOf 11 52 x))
  have hinf : infMag 8 23 = 255 * 2 ^ 23 := by decide
  obtain ⟨henc, hmag, hsign⟩ := fields_of_toNat hy (by omega)
  refine ⟨henc, fun hnan => ?_, fun hi => ?_, fun hfin => absurd hfin (Nat.not_lt.mpr hx),
    fun _ => hsign⟩
  · have hnan' : infMag 11 52 < magOf 11 52 x := hnan
    unfold IsNaN
    rw [hmag, decide_eq_true hnan', Bool.toNat_true]
    omega
  · have hi' : magOf 11 52 x = infMag 11 52 := hi
    unfold IsInf
    rw [hmag, decide_eq_false (by omega), Bool.toNat_false, Nat.zero_mul, Nat.add_zero]

/-- Narrowing is right exactly in its range. -/
theorem narrowed_iff (x : BitVec 64) :
    Narrowed x ((float64ToFloat32Ieee x .std true .nearestEven).setWidth 64) ↔
      NarrowsInRange x := by
  unfold NarrowsInRange
  rcases Nat.lt_or_ge (magOf 11 52 x) (infMag 11 52) with hfin | hspecial
  · rcases Nat.lt_or_ge (1151 * 2 ^ 52 + 2 ^ 28) (magOf 11 52 x) with hgt | hle
    · refine iff_of_false (fun hn => ?_) (by omega)
      have hnan : infMag 8 23 < _ := not_narrowed_of_gt hfin hgt
      exact absurd (hn.nearest hfin).le_inf (Nat.not_le.mpr hnan)
    · exact iff_of_true (narrowed_of_finite hfin hle) (.inr hle)
  · exact iff_of_true (narrowed_of_special hspecial) (.inl hspecial)

end Narrowing

/-! ## Widening -/

section Widening

variable {x : BitVec 32}

/-- A significand of 24 bits at the top of the wide fraction. -/
theorem widened_fields {s : Bool} {X S Y : Nat} {Z : BitVec 32}
    (hsum : Y * 2 ^ 23 + Z.toNat = X * 2 ^ 23 + S) (hlo : 2 ^ 23 ≤ S) (hhi : S < 2 ^ 24)
    (hX : X < 2000) :
    (packFloat64 s Y (Z.setWidth 64 <<< 29) 11 52).toNat =
        s.toNat * 2 ^ (11 + 52) + (X * 2 ^ 52 + S * 2 ^ 29) ∧
      X * 2 ^ 52 + S * 2 ^ 29 < infMag 11 52 ∧
      magValue 52 (X * 2 ^ 52 + S * 2 ^ 29) = S * 2 ^ (29 + X) := by
  have hZlt := Z.isLt
  have hword : (Z.setWidth 64 <<< 29).toNat = Z.toNat * 2 ^ 29 := by
    rw [toNat_shiftLeft_of_lt, BitVec.toNat_setWidth, Nat.mod_eq_of_lt (by omega)]
    rw [BitVec.toNat_setWidth, Nat.mod_eq_of_lt (by omega)]
    omega
  have hinf : infMag 11 52 = 2047 * 2 ^ 52 := by decide
  have hs := Bool.toNat_le s
  refine ⟨?_, by omega, ?_⟩
  · unfold packFloat64
    have hfields : Y * 2 ^ 52 + Z.toNat * 2 ^ 29 = X * 2 ^ 52 + S * 2 ^ 29 := by
      calc Y * 2 ^ 52 + Z.toNat * 2 ^ 29 = (Y * 2 ^ 23 + Z.toNat) * 2 ^ 29 := by ring
        _ = X * 2 ^ 52 + S * 2 ^ 29 := by rw [hsum]; ring
    have hbound : s.toNat * 2 ^ (11 + 52) + Y * 2 ^ 52 + Z.toNat * 2 ^ 29 < 2 ^ 64 := by
      rw [Nat.add_assoc, hfields]
      calc s.toNat * 2 ^ (11 + 52) + (X * 2 ^ 52 + S * 2 ^ 29)
          ≤ 1 * 2 ^ (11 + 52) + (X * 2 ^ 52 + S * 2 ^ 29) :=
            Nat.add_le_add_right (Nat.mul_le_mul_right _ hs) _
        _ < 2 ^ 64 := by omega
    rw [toNat_pack (by decide) s Y _ 11 52 (by rw [hword]; exact hbound), hword, Nat.add_assoc,
      hfields]
  · obtain ⟨t, ht⟩ : ∃ t, S * 2 ^ 29 = 2 ^ 52 + t := Nat.exists_eq_add_of_le (by omega)
    obtain ⟨hsig, hexp⟩ := magSig_packed (f := 52) (x := X + 1) (s := t) (by omega) (by omega)
    rw [Nat.succ_mul, Nat.add_assoc, ← ht] at hsig hexp
    rw [magValue, hsig, hexp, Nat.succ_sub_one, Nat.mul_assoc, ← Nat.pow_add]

/-- A finite number that is not zero, as the routine packs it. -/
theorem float32ToFloat64_finite (hx : IsFinite 8 23 (x.setWidth 64)) :
    ∃ n, (float32ToFloat64Ieee x .std true).toNat =
        (signOf 8 23 (x.setWidth 64)).toNat * 2 ^ (11 + 52) + n ∧ n < 1151 * 2 ^ 52 ∧
      magValue 52 n = magValue 23 (magOf 8 23 (x.setWidth 64)) * 2 ^ unitGap := by
  obtain ⟨m, hm⟩ : ∃ m, m = magOf 8 23 (x.setWidth 64) := ⟨_, rfl⟩
  have hF := Nat.mod_lt m (Nat.two_pow_pos 23)
  have hfin : m < infMag 8 23 := hm ▸ hx
  have hinf : infMag 8 23 = 255 * 2 ^ 23 := by decide
  have hE := toNat_extractFloatExp (e := 8) (f := 23) (x.setWidth 64) (by decide)
  have hsig : ((extractFloatFrac (x.setWidth 64) 23).setWidth 32).toNat = m % 2 ^ 23 := by
    rw [BitVec.toNat_setWidth, toNat_extractFloatFrac (e := 8) _ (by decide), ← hm]
    exact Nat.mod_eq_of_lt (by omega)
  have hzero : (extractFloatFrac (x.setWidth 64) 23).setWidth 32 = (0 : BitVec 32) ↔
      m % 2 ^ 23 = 0 := by
    rw [← BitVec.toNat_inj, hsig]
    rfl
  rw [← hm] at hE ⊢
  unfold float32ToFloat64Ieee
  simp only [hE, extractFloatSign_eq, hzero]
  rw [if_neg (by omega)]
  by_cases hE0 : m / 2 ^ 23 = 0
  · rw [if_pos (by omega), if_pos trivial]
    have hmlt : m < 2 ^ 23 := by omega
    split
    · rename_i hF0
      have hm0 : m = 0 := by omega
      have hword : ∀ s : Bool, (word s <<< 63).toNat = s.toNat * 2 ^ (11 + 52) + 0 := by decide
      refine ⟨0, hword _, by decide, ?_⟩
      rw [hm0, magValue, magValue, magSig_of_lt (by decide), magSig_of_lt (by decide), Nat.zero_mul,
        Nat.zero_mul, Nat.zero_mul]
    · rename_i hF0
      have hmpos : 0 < m := by omega
      have hsig' : ((extractFloatFrac (x.setWidth 64) 23).setWidth 32).toNat = m := by omega
      generalize (extractFloatFrac (x.setWidth 64) 23).setWidth 32 = Z at *
      have hlog := (Nat.log_lt_iff_lt_pow (b := 2) (by decide) hmpos.ne').mpr hmlt
      have hZ64 : (Z.setWidth 64).toNat = m := by
        rw [BitVec.toNat_setWidth, hsig']
        exact Nat.mod_eq_of_lt (by omega)
      obtain ⟨c, hc⟩ : ∃ c, c = 24 - 1 - Nat.log 2 m := ⟨_, rfl⟩
      have hcount : countLeadingZeroMacro 24 (Z.setWidth 64) % 2 ^ 5 = c := by
        rw [countLeadingZeroMacro_eq (by decide) (by rw [hZ64]; omega) (by rw [hZ64]; exact hmpos),
          hZ64, ← hc]
        exact Nat.mod_eq_of_lt (by omega)
      have hbounds := shifted_bounds hmpos (show m < 2 ^ 24 by omega)
      rw [← hc] at hbounds
      have hS : (Z <<< c).toNat = m * 2 ^ c := by
        rw [BitVec.toNat_shiftLeft, Nat.shiftLeft_eq, hsig']
        exact Nat.mod_eq_of_lt (by omega)
      obtain ⟨hword, hlt, hval⟩ := widened_fields (s := signOf 8 23 (x.setWidth 64)) (X := 896 - c)
        (congrArg _ hS) hbounds.1 hbounds.2 (by omega)
      unfold normalizeFloat32Subnormal
      dsimp only
      rw [hcount, show (1 - (c : Int) - 1 + 0x380) = ((896 - c : Nat) : Int) by omega]
      refine ⟨_, hword, by omega, ?_⟩
      rw [hval, magValue, magSig_of_lt hmlt, magExp_of_lt (by omega), Nat.pow_zero, Nat.mul_one,
        Nat.mul_assoc, ← Nat.pow_add, show c + (29 + (896 - c)) = unitGap by rw [unitGap_eq]; omega]
  · rw [if_neg (by omega)]
    generalize (extractFloatFrac (x.setWidth 64) 23).setWidth 32 = Z at *
    obtain ⟨E, hE'⟩ : ∃ E, m / 2 ^ 23 = E + 1 := ⟨_, (Nat.succ_pred hE0).symm⟩
    obtain ⟨hword, hlt, hval⟩ := widened_fields (s := signOf 8 23 (x.setWidth 64)) (X := E + 896)
      (S := 2 ^ 23 + m % 2 ^ 23) (Y := E + 897) (Z := Z) (by omega) (by omega) (by omega) (by omega)
    rw [show ((m / 2 ^ 23 : Nat) : Int) + 0x380 = ((E + 897 : Nat) : Int) by omega]
    refine ⟨_, hword, by omega, ?_⟩
    rw [hval, magValue, magSig, magExp, if_neg hE0, hE', Nat.mul_assoc, ← Nat.pow_add,
      show E + 1 - 1 + unitGap = 29 + (E + 896) by rw [unitGap_eq]; omega]

/-- A NaN or an infinity, widened. -/
theorem float32ToFloat64_special (hx : infMag 8 23 ≤ magOf 8 23 (x.setWidth 64)) :
    (float32ToFloat64Ieee x .std true).toNat = (signOf 8 23 (x.setWidth 64)).toNat * 2 ^ (11 + 52) +
      (infMag 11 52 + (decide (infMag 8 23 < magOf 8 23 (x.setWidth 64))).toNat * 2 ^ 51) := by
  have hlt := magOf_lt 8 23 (x.setWidth 64)
  have hinf : infMag 8 23 = 255 * 2 ^ 23 := by decide
  have hE : ((extractFloatExp (x.setWidth 64) 8 23).toNat : Int) = 0xFF := by
    rw [toNat_extractFloatExp (e := 8) (f := 23) _ (by decide)]
    omega
  have hF : ((extractFloatFrac (x.setWidth 64) 23).setWidth 32 != (0 : BitVec 32)) =
      decide (infMag 8 23 < magOf 8 23 (x.setWidth 64)) := by
    rw [Bool.eq_iff_iff, bne_iff_ne, decide_eq_true_eq, ne_eq, ← BitVec.toNat_inj,
      BitVec.toNat_setWidth, toNat_extractFloatFrac (e := 8) _ (by decide), BitVec.ofNat_eq_ofNat,
      BitVec.toNat_ofNat, Nat.zero_mod]
    omega
  have hword : ∀ s b : Bool, ((word s <<< 63) ||| (word b <<< (52 - 1)) |||
      0x7FF0000000000000).toNat = s.toNat * 2 ^ (11 + 52) + (infMag 11 52 + b.toNat * 2 ^ 51) := by
    decide
  unfold float32ToFloat64Ieee
  simp only [extractFloatSign_eq]
  rw [if_pos ⟨hE, trivial⟩, hF]
  exact hword _ _

/-- Widening keeps the class, the sign and the value. -/
theorem widened (x : BitVec 32) : Widened (x.setWidth 64) (float32ToFloat64Ieee x .std true) := by
  have hinf11 : infMag 11 52 = 2047 * 2 ^ 52 := by decide
  rcases Nat.lt_or_ge (magOf 8 23 (x.setWidth 64)) (infMag 8 23) with hfin | hspecial
  · obtain ⟨n, hy, hn, hval⟩ := float32ToFloat64_finite hfin
    obtain ⟨henc, hmag, hsign⟩ := fields_of_toNat hy (by omega)
    refine ⟨henc, fun h => absurd (show infMag 8 23 < _ from h) hfin.not_gt,
      fun h => absurd (show _ = infMag 8 23 from h) hfin.ne, fun _ => ?_, fun _ => ?_,
        fun _ => hsign⟩
    · unfold IsFinite
      rw [hmag]
      omega
    · have hcast := castValue_narrow n
      have hpos : leastSubnormal 8 23 ≠ 0 := zpow_ne_zero _ two_ne_zero
      rw [castValue, div_eq_iff hpos] at hcast
      rw [hmag, hcast, hval, Nat.cast_mul, Nat.cast_pow, Nat.cast_ofNat,
        mul_div_cancel_right₀ _ (pow_ne_zero _ two_ne_zero)]
  · have hy := float32ToFloat64_special hspecial
    have hbit := Bool.toNat_le (decide (infMag 8 23 < magOf 8 23 (x.setWidth 64)))
    obtain ⟨henc, hmag, hsign⟩ := fields_of_toNat hy (by omega)
    refine ⟨henc, fun h => ?_, fun h => ?_, fun h => absurd h (Nat.not_lt.mpr hspecial),
      fun h => absurd h (Nat.not_lt.mpr hspecial), fun _ => hsign⟩
    · have h' : infMag 8 23 < magOf 8 23 (x.setWidth 64) := h
      unfold IsNaN
      rw [hmag, decide_eq_true h', Bool.toNat_true]
      omega
    · have h' : magOf 8 23 (x.setWidth 64) = infMag 8 23 := h
      unfold IsInf
      rw [hmag, decide_eq_false (by omega), Bool.toNat_false, Nat.zero_mul, Nat.add_zero]

/-- What is widened narrows back to itself. -/
theorem narrow_widen (x : BitVec 32) (hx : ¬ IsNaN 8 23 (x.setWidth 64)) :
    float64ToFloat32Ieee (float32ToFloat64Ieee x .std true) .std true .nearestEven = x := by
  obtain ⟨y, hy⟩ : ∃ y, y = float32ToFloat64Ieee x .std true := ⟨_, rfl⟩
  have hw := widened x
  rw [← hy] at hw ⊢
  have henc : IsEncoding 8 23 (x.setWidth 64) := by
    unfold IsEncoding
    rw [BitVec.toNat_setWidth]
    exact lt_of_le_of_lt (Nat.mod_le _ _) x.isLt
  have hnan : ¬ IsNaN 11 52 y ∧ NarrowsInRange y ∧ ∀ n, Narrowed y n → magOf 8 23 n =
      magOf 8 23 (x.setWidth 64) := by
    rcases Nat.lt_or_eq_of_le (Nat.not_lt.mp hx) with hfin | hinf
    · -- The value is a magnitude of the narrow format, and so the nearest one.
      obtain ⟨n, hyn, hlt, hval⟩ := float32ToFloat64_finite hfin
      rw [← hy] at hyn
      have hinf11 : infMag 11 52 = 2047 * 2 ^ 52 := by decide
      obtain ⟨-, hmag, -⟩ := fields_of_toNat hyn (by omega)
      have hfin' : IsFinite 11 52 y := hw.finite hfin
      have hcast : castValue 11 52 8 23 (magOf 11 52 y) =
          magValue 23 (magOf 8 23 (x.setWidth 64)) := by
        rw [castValue_narrow, hmag, hval, Nat.cast_mul, Nat.cast_pow, Nat.cast_ofNat]
        exact mul_div_cancel_right₀ _ (pow_ne_zero _ two_ne_zero)
      have hstep : (magValue 23 (magOf 8 23 (x.setWidth 64)) : ℚ) <
          magValue 23 (magOf 8 23 (x.setWidth 64) + 1) := by
        exact_mod_cast magValue_strictMono 23 (Nat.lt_succ_self _)
      refine ⟨Nat.not_lt.mpr (Nat.le_of_lt hfin'), .inr (by omega), fun z hz => ?_⟩
      have hnear := hz.nearest hfin'
      rw [hcast] at hnear
      exact hnear.unique (isNearestEven_down hfin le_rfl (.inl (by linarith)))
    · have hinf' : magOf 11 52 y = infMag 11 52 := hw.infinite hinf
      refine ⟨Nat.not_lt.mpr hinf'.le, .inl hinf'.ge, fun z hz => ?_⟩
      rw [hinf]
      exact hz.infinite hinf'
  have hn := (narrowed_iff y).mpr hnan.2.1
  have hmag := hnan.2.2 _ hn
  have hsign := (hn.sign hnan.1).trans (hw.sign hx)
  have hword : ((float64ToFloat32Ieee y .std true .nearestEven).setWidth 64).toNat =
      (x.setWidth 64).toNat := by
    rw [signOf_eq hn.encoding, signOf_eq henc, hmag, hsign]
  rw [BitVec.toNat_setWidth, BitVec.toNat_setWidth, Nat.mod_eq_of_lt (lt_trans (BitVec.isLt _) (by decide)),
    Nat.mod_eq_of_lt (lt_trans (BitVec.isLt _) (by decide))] at hword
  exact BitVec.eq_of_toNat_eq hword

/-- Narrowing is right exactly in its range; widening is exact, and what is widened narrows
back to itself. -/
theorem float64_float32_iff (x : BitVec 64) (y : BitVec 32) :
    (Narrowed x ((float64ToFloat32Ieee x .std true .nearestEven).setWidth 64) ↔
      NarrowsInRange x) ∧
    Widened (y.setWidth 64) (float32ToFloat64Ieee y .std true) ∧
    (¬ IsNaN 8 23 (y.setWidth 64) →
      float64ToFloat32Ieee (float32ToFloat64Ieee y .std true) .std true .nearestEven = y) :=
  ⟨narrowed_iff x, widened y, narrow_widen y⟩

/-- Twice the greatest single-precision number becomes a NaN. -/
theorem float64ToFloat32_twice_max_nan :
    IsFinite 11 52 0x47ffffffe0000000 ∧
      float64ToFloat32Ieee 0x47ffffffe0000000 .std true .nearestEven = 0x7fffffff ∧
      ¬ Narrowed 0x47ffffffe0000000
        ((float64ToFloat32Ieee 0x47ffffffe0000000 .std true .nearestEven).setWidth 64) := by
  refine ⟨by decide, by decide +kernel, fun h => ?_⟩
  exact absurd ((narrowed_iff _).mp h) (by decide)

end Widening

end Bambu.Libbambu.Softfloat
