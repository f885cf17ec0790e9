/-
  Bambu.Libbambu.Softfloat.ToInt

  `__float_to_int_impl`.  The significand is shifted up by the number of integer bits of
  the value and down past the fraction.  Without rounding (`FLOAT_RND_NONE`) the shift up
  is missing, so that nothing but zero is left.
-/

import Bambu.Libbambu.Softfloat.Common
import Mathlib.Algebra.Order.Floor.Semifield
import Mathlib.Data.Rat.Floor

namespace Bambu.Libbambu.Softfloat

open Bambu.Math

/-- The low `n + 1` bits of an `__int32_t`, sign-extended by two shifts. -/
def signExtend32 (x : Int) (n : Nat) : Int :=
  ((BitVec.ofInt 32 x <<< (31 - n)).sshiftRight (31 - n)).toInt

/-- `aFixed` before it is cut to the target width. -/
def fixedPoint (aSigShift : Udatatype) (shiftCount rBits : Nat) (rSign : Bool) (fracBits : Nat)
    (rnd : RndMode) (mode : RoundingMode) (aSign : Bool) : Udatatype :=
  let width := rBits - rSign.toNat
  let increment := roundIncrement mode aSign fracBits
  let roundMask := ((1 : Udatatype) <<< (fracBits + 1)) - 1
  if rnd = .nevn then
    let (aFixed, roundBits) :=
      if fracBits + width < 64 then
        let shifted := aSigShift <<< shiftCount
        (((shifted >>> 1) + increment) >>> fracBits, shifted &&& roundMask)
      else
        let (aFixed, roundBits) :=
          if width < 64 then
            ((aSigShift <<< (62 - fracBits)) >>> (63 - shiftCount),
              (aSigShift <<< shiftCount) &&& roundMask)
          else
            (if shiftCount ≠ 0 then (aSigShift <<< (63 - fracBits)) >>> (64 - shiftCount) else 0,
              if shiftCount / 64 % 2 = 1 then 0 else (aSigShift <<< shiftCount) &&& roundMask)
        (aFixed + ((((roundBits >>> 1) + increment) >>> fracBits) &&& 1), roundBits)
    aFixed &&& ~~~word ((roundBits ^^^ ((1 : Udatatype) <<< fracBits)) == 0 && mode = .nearestEven)
  else aSigShift >>> (fracBits + 1)

/-- `__float_to_int_impl`. -/
def floatToIntImpl (a : Tfloat) (rBits : Nat) (rSign : Bool) (expBits fracBits : Nat)
    (expBias : Int) (rnd : RndMode) (one : Bool) (sign : Int) (mode : RoundingMode) : Udatatype :=
  let aSig := extractFloatFrac a fracBits
  let aExp := (extractFloatExp a expBits fracBits).toNat
  let aSign := extractFloatSign a expBits fracBits sign
  let notZero : Bool := aExp ≠ 0
  let expMax : Int := (2 ^ expBits - 1) + expBias
  let expMin : Int := expBias + 1
  let shiftCount := signExtend32 (aExp + expBias + 1) expBits
  let width : Int := rBits - rSign.toNat
  if expMax < 0 ∨ shiftCount < 0 then 0
  else if expMin > width ∨ shiftCount > width ∨
      (rSign = false ∧ aSign = true ∧ notZero = true ∧ shiftCount ≠ 0) then
    if rSign then (1 : Udatatype) <<< (rBits - 1) else ((1 : Udatatype) <<< rBits) - 1
  else
    let shiftCount := shiftCount.toNat % 128
    let aSigShift := aSig ||| (word (notZero && one) <<< fracBits)
    let aFixed := fixedPoint aSigShift shiftCount rBits rSign fracBits rnd mode aSign
    let aFixed :=
      if rBits < 64 then
        (aFixed &&& (((1 : Udatatype) <<< rBits) - 1)) |||
          (if (aFixed.sshiftRight rBits) &&& 1 ≠ 0 then ~~~0 else 0)
      else aFixed
    if aSign then -aFixed else aFixed

/-- The conversion in the format of this development and the mode `float_round_to_zero`. -/
def floatToInt (a : Tfloat) (rBits : Nat) (rSign : Bool) (expBits fracBits : Nat) (rnd : RndMode) :
    Udatatype :=
  floatToIntImpl a rBits rSign expBits fracBits (-(bias expBits : Int)) rnd true (-1) .toZero

/-! ## The truncated value -/

/-- The magnitude of an encoding, truncated to an integer. -/
def truncatedMag (e f n : Nat) : Nat := ⌊(magValue f n : ℚ) * leastSubnormal e f⌋₊

/-- The value of an encoding, truncated towards zero. -/
def truncatedValue (e f : Nat) (x : Tfloat) : Int :=
  if signOf e f x then -(truncatedMag e f (magOf e f x) : Int) else truncatedMag e f (magOf e f x)

/-- The range of a target type. -/
def InTarget (r : Nat) (sign : Bool) (t : Int) : Prop :=
  (if sign then -((2 ^ (r - 1) : Nat) : Int) else 0) ≤ t ∧ t < (2 ^ (r - sign.toNat) : Nat)

instance (r : Nat) (sign : Bool) (t : Int) : Decidable (InTarget r sign t) :=
  inferInstanceAs (Decidable (_ ∧ _))

/-! ## The shift count -/

theorem signExtend32_eq {x : Int} {n : Nat} (hn : n < 31) (hlo : -(2 ^ n : Nat) ≤ x)
    (hhi : x < (2 ^ n : Nat)) : signExtend32 x n = x := by
  obtain ⟨k, hk⟩ : ∃ k, k = 31 - n := ⟨_, rfl⟩
  have hpow : (2 ^ n : Nat) * 2 ^ k = 2 ^ 31 := by
    rw [← Nat.pow_add]
    congr 1
    omega
  have hpowZ : ((2 ^ n : Nat) : Int) * 2 ^ k = 2 ^ 31 := by exact_mod_cast hpow
  have hpos : (0 : Int) < 2 ^ k := by positivity
  -- The shift up fills the word, so that the sign bit is in place.
  have hlo' : -2 ^ 31 ≤ x * 2 ^ k := by
    rw [← hpowZ, ← Int.neg_mul]
    exact Int.mul_le_mul_of_nonneg_right hlo hpos.le
  have hhi' : x * 2 ^ k < 2 ^ 31 := by
    rw [← hpowZ]
    exact Int.mul_lt_mul_of_pos_right hhi hpos
  have hshift : (BitVec.ofInt 32 x <<< k).toInt = x * 2 ^ k := by
    have hword : BitVec.ofInt 32 x <<< k = BitVec.ofInt 32 (x * 2 ^ k) := by
      rw [BitVec.shiftLeft_eq_mul_twoPow, BitVec.ofInt_mul]
      congr 1
      apply BitVec.eq_of_toNat_eq
      rw [BitVec.toNat_twoPow, BitVec.toNat_ofInt, ← Nat.cast_ofNat, ← Nat.cast_pow]
      exact (Int.toNat_natCast _).symm
    rw [hword, BitVec.toInt_ofInt]
    exact Int.bmod_eq_of_le (by omega) (by omega)
  unfold signExtend32
  rw [← hk, BitVec.toInt_sshiftRight, hshift, Int.shiftRight_eq_div_pow]
  push_cast
  exact Int.mul_ediv_cancel _ hpos.ne'

/-! ## The truncated magnitude -/

section Truncated

variable {e f n k : Nat}

/-- The number of integer bits of a value is its shift count, where it is positive. -/
theorem truncatedMag_of_pos (hk : n / 2 ^ f + 1 = bias e + k) (hk0 : 0 < k) (hbias : 0 < bias e) :
    truncatedMag e f n = (2 ^ f + n % 2 ^ f) * 2 ^ k / 2 ^ (f + 1) := by
  have htwo : (2 : ℚ) ≠ 0 := two_ne_zero
  have hE : n / 2 ^ f ≠ 0 := by omega
  have hval : (magValue f n : ℚ) * leastSubnormal e f =
      (((2 ^ f + n % 2 ^ f) * 2 ^ k : Nat) : ℚ) / ((2 ^ (f + 1) : Nat) : ℚ) := by
    rw [magValue, magSig, if_neg hE, magExp, leastSubnormal, Nat.cast_mul, Nat.cast_mul,
      mul_div_assoc, mul_assoc]
    congr 1
    rw [Nat.cast_pow, Nat.cast_pow, Nat.cast_pow, Nat.cast_ofNat, ← zpow_natCast,
      ← zpow_natCast 2 k,
      ← zpow_natCast 2 (f + 1), ← zpow_add₀ htwo, ← zpow_sub₀ htwo]
    congr 1
    generalize n / 2 ^ f = E at *
    omega
  rw [truncatedMag, hval]
  exact Nat.floor_div_eq_div _ _

/-- A value without integer bits. -/
theorem truncatedMag_of_le (hk : n / 2 ^ f + 1 ≤ bias e) (hbias : 2 ≤ bias e) :
    truncatedMag e f n = 0 := by
  have htwo : (2 : ℚ) ≠ 0 := two_ne_zero
  have hsig := magSig_lt f n
  have hsigq : (magSig f n : ℚ) < 2 ^ (f + 1) := by exact_mod_cast hsig
  have hexp : (2 : ℚ) ^ (magExp f n) * leastSubnormal e f ≤ 2 ^ (-(f + 1 : Nat) : ℤ) := by
    rw [leastSubnormal, ← zpow_natCast, ← zpow_add₀ htwo]
    refine zpow_le_zpow_right₀ (by norm_num) ?_
    unfold magExp
    generalize n / 2 ^ f = E at *
    omega
  have hpos : (0 : ℚ) < 2 ^ (-(f + 1 : Nat) : ℤ) := zpow_pos two_pos _
  have hlt : (magValue f n : ℚ) * leastSubnormal e f < 1 := by
    calc (magValue f n : ℚ) * leastSubnormal e f
        = magSig f n * (2 ^ magExp f n * leastSubnormal e f) := by
          rw [magValue, Nat.cast_mul, Nat.cast_pow, Nat.cast_ofNat, mul_assoc]
      _ ≤ magSig f n * 2 ^ (-(f + 1 : Nat) : ℤ) :=
          mul_le_mul_of_nonneg_left hexp (Nat.cast_nonneg _)
      _ < 2 ^ (f + 1) * 2 ^ (-(f + 1 : Nat) : ℤ) := mul_lt_mul_of_pos_right hsigq hpos
      _ = 1 := by rw [← zpow_natCast, ← zpow_add₀ htwo, add_neg_cancel, zpow_zero]
  exact Nat.floor_eq_zero.mpr hlt

theorem truncatedMag_bounds (hk : n / 2 ^ f + 1 = bias e + k) (hk0 : 0 < k) (hbias : 0 < bias e) :
    2 ^ (k - 1) ≤ truncatedMag e f n ∧ truncatedMag e f n < 2 ^ k := by
  have hmod := Nat.mod_lt n (Nat.two_pow_pos f)
  obtain ⟨l, rfl⟩ : ∃ l, k = l + 1 := ⟨k - 1, by omega⟩
  rw [truncatedMag_of_pos hk hk0 hbias, Nat.add_sub_cancel]
  constructor
  · rw [Nat.le_div_iff_mul_le (Nat.two_pow_pos _)]
    calc 2 ^ l * 2 ^ (f + 1) = 2 ^ f * 2 ^ (l + 1) := by ring
      _ ≤ _ := Nat.mul_le_mul_right _ (Nat.le_add_right _ _)
  · refine Nat.div_lt_of_lt_mul (Nat.mul_lt_mul_of_pos_right ?_ (Nat.two_pow_pos _))
    rw [Nat.pow_succ]
    omega

end Truncated

/-! ## The fixed-point shift -/

section Fixed

variable {f k r : Nat} {S : Udatatype} {sign : Bool}

/-- With rounding, the shifted significand is the truncated one, in each of the three
ways to keep it in the word. -/
theorem toNat_fixedPoint_nevn (hf : f ≤ 52) (hr : r ≤ 64) (hS : S.toNat < 2 ^ (f + 1))
    (hk : k ≤ r - sign.toNat) (aSign : Bool) :
    (fixedPoint S k r sign f .nevn .toZero aSign).toNat = S.toNat * 2 ^ k / 2 ^ (f + 1) := by
  have hpos := Nat.two_pow_pos k
  have hadd : ∀ x : Udatatype, x + 0 = x := fun x => BitVec.add_zero x
  -- A significand shifted to the top of the word and down again.
  have htop : ∀ w, f ≤ w → w ≤ 63 → k ≤ w + 1 →
      ((S <<< (w - f)) >>> (w + 1 - k)).toNat = S.toNat * 2 ^ k / 2 ^ (f + 1) := by
    intro w hfw hw hkw
    have hfit : S.toNat * 2 ^ (w - f) < 2 ^ 64 := by
      calc S.toNat * 2 ^ (w - f) < 2 ^ (f + 1) * 2 ^ (w - f) :=
            Nat.mul_lt_mul_of_pos_right hS (Nat.two_pow_pos _)
        _ = 2 ^ (w + 1) := by rw [← Nat.pow_add]; congr 1; omega
        _ ≤ 2 ^ 64 := Nat.pow_le_pow_right (by decide) (by omega)
    rw [toNat_shiftRight, toNat_shiftLeft_of_lt hfit]
    have hnum : S.toNat * 2 ^ (w - f) * 2 ^ k = 2 ^ (w - f) * (S.toNat * 2 ^ k) := by ring
    have hden : 2 ^ (w + 1 - k) * 2 ^ k = 2 ^ (w - f) * 2 ^ (f + 1) := by
      rw [← Nat.pow_add, ← Nat.pow_add]
      congr 1
      omega
    rw [← Nat.mul_div_mul_right _ _ hpos, hnum, hden, Nat.mul_div_mul_left _ _ (Nat.two_pow_pos _)]
  have hzero : ∀ x : Udatatype, ((x &&& (((1 : Udatatype) <<< (f + 1)) - 1)) >>> 1 + 0) >>> f &&& 1 =
      0 := by
    intro x
    have hmask : ((1 : Udatatype) <<< (f + 1)) - 1 = ones (f + 1) := rfl
    apply BitVec.eq_of_toNat_eq
    rw [hmask, hadd, BitVec.toNat_and, toNat_shiftRight, toNat_shiftRight,
      toNat_and_ones _ (by omega), Nat.div_div_eq_div_mul, ← Nat.pow_add,
      Nat.div_eq_of_lt (by rw [Nat.add_comm 1 f]; exact Nat.mod_lt _ (Nat.two_pow_pos _))]
    rfl
  have hkeep : ∀ x : Udatatype, ∀ b : Bool,
      x &&& ~~~word (b && decide (RoundingMode.toZero = RoundingMode.nearestEven)) = x := by
    intro x b
    have hword : word (b && decide (RoundingMode.toZero = RoundingMode.nearestEven)) = 0 := by
      cases b <;> rfl
    rw [hword, show ~~~(0 : Udatatype) = BitVec.allOnes 64 by decide, BitVec.and_allOnes]
  unfold fixedPoint roundIncrement
  dsimp only
  rw [if_pos rfl, hkeep]
  split
  · rename_i hsmall
    dsimp only
    have hfit : S.toNat * 2 ^ k < 2 ^ 64 := by
      calc S.toNat * 2 ^ k < 2 ^ (f + 1) * 2 ^ k := Nat.mul_lt_mul_of_pos_right hS hpos
        _ = 2 ^ (f + 1 + k) := (Nat.pow_add _ _ _).symm
        _ ≤ 2 ^ 64 := Nat.pow_le_pow_right (by decide) (by omega)
    rw [hadd, toNat_shiftRight, toNat_shiftRight, toNat_shiftLeft_of_lt hfit,
      Nat.div_div_eq_div_mul, ← Nat.pow_add, Nat.add_comm 1 f]
  · split
    · rename_i hwide
      dsimp only
      rw [hzero, hadd]
      exact htop 62 (by omega) (by omega) (by omega)
    · dsimp only
      have hsum : ∀ c : Prop, [Decidable c] → ((((if c then (0 : Udatatype) else
          (S <<< k) &&& (((1 : Udatatype) <<< (f + 1)) - 1)) >>> 1 + 0) >>> f) &&& 1) = 0 := by
        intro c _
        split
        · have hz : ((0 : Udatatype) >>> 1 + 0) >>> f = 0 := by simp
          rw [hz]
          rfl
        · exact hzero _
      rw [hsum, hadd]
      rcases Nat.eq_zero_or_pos k with rfl | hk0
      · rw [if_neg (by simp), Nat.pow_zero, Nat.mul_one, Nat.div_eq_of_lt hS]
        rfl
      · rw [if_pos (by omega)]
        exact htop 63 (by omega) (by omega) (by omega)

/-- Without rounding nothing is left of the significand. -/
theorem toNat_fixedPoint_none (hS : S.toNat < 2 ^ (f + 1)) (aSign : Bool) :
    (fixedPoint S k r sign f .none .toZero aSign).toNat = 0 := by
  unfold fixedPoint
  dsimp only
  rw [if_neg (by decide), toNat_shiftRight]
  exact Nat.div_eq_of_lt hS

end Fixed

/-! ## The conversion -/

section Conversion

variable {e f r : Nat} {rSign : Bool} {rnd : RndMode} {x : Tfloat}

/-- A result that fits its width is not changed by the cut to that width. -/
theorem cut_width {y : Udatatype} (hy : y.toNat < 2 ^ r) :
    (if r < 64 then (y &&& (((1 : Udatatype) <<< r) - 1)) |||
      (if (y.sshiftRight r) &&& 1 ≠ 0 then ~~~0 else 0) else y) = y := by
  split
  · rename_i hr
    have hmask : y &&& (((1 : Udatatype) <<< r) - 1) = y := by
      apply BitVec.eq_of_toNat_eq
      rw [show ((1 : Udatatype) <<< r) - 1 = ones r by rfl, toNat_and_ones _ hr,
        Nat.mod_eq_of_lt hy]
    have hpow : 2 ^ r ≤ 2 ^ 63 := Nat.pow_le_pow_right (by decide) (by omega)
    have hmsb : y.msb = false := by
      rw [BitVec.msb_eq_decide]
      exact decide_eq_false (by omega)
    have htop : (y.sshiftRight r) &&& 1 = 0 := by
      rw [BitVec.sshiftRight_eq_of_msb_false hmsb]
      apply BitVec.eq_of_toNat_eq
      rw [BitVec.toNat_and, toNat_shiftRight, Nat.div_eq_of_lt hy, Nat.zero_and]
      rfl
    rw [hmask, htop, if_neg (by simp)]
    exact BitVec.or_zero
  · rfl

theorem two_pow_exp (h : FormatBounds e f) : 2 ^ e = 2 * (bias e + 1) := by
  have hge := h.exp_ge
  unfold bias
  rw [Nat.sub_add_cancel (Nat.two_pow_pos _), ← Nat.pow_succ']
  congr 1
  omega

/-- The shift count of an encoding. -/
theorem shiftCount_eq (h : FormatBounds e f) (x : Tfloat) :
    signExtend32 ((extractFloatExp x e f).toNat + -(bias e : Int) + 1) e =
      (magOf e f x / 2 ^ f : Nat) + 1 - (bias e : Int) := by
  have he := h.exp_le
  have hlt : magOf e f x / 2 ^ f < 2 ^ e :=
    Nat.div_lt_of_lt_mul (by rw [← Nat.pow_add, Nat.add_comm]; exact magOf_lt e f x)
  have hhalf := two_pow_exp h
  have hbias := bias_ge h
  rw [toNat_extractFloatExp x (by omega)]
  generalize magOf e f x / 2 ^ f = E at *
  rw [signExtend32_eq (by omega) (by omega) (by omega)]
  omega

/-- The significand with its implicit one. -/
def significand (x : Tfloat) (e f : Nat) : Udatatype :=
  extractFloatFrac x f ||| (word (decide ((extractFloatExp x e f).toNat ≠ 0) && true) <<< f)

theorem toNat_significand (h : FormatBounds e f) (hE : 0 < magOf e f x / 2 ^ f) :
    (significand x e f).toNat = 2 ^ f + magOf e f x % 2 ^ f := by
  unfold significand
  have he := h.exp_le
  have hf := h.frac_le
  have hpow : 2 ^ f ≤ 2 ^ 52 := Nat.pow_le_pow_right (by decide) hf
  have hmod := Nat.mod_lt (magOf e f x) (Nat.two_pow_pos f)
  have hfrac := toNat_extractFloatFrac (e := e) x (by omega : f < 64)
  rw [toNat_extractFloatExp x (by omega), decide_eq_true (by omega), Bool.and_true, BitVec.or_comm,
    toNat_shift_or_of_lt (by rw [hfrac]; exact hmod), hfrac, toNat_word, Bool.toNat_true,
      Nat.one_mul]
  rw [toNat_word, Bool.toNat_true]
  omega

theorem significand_lt (e f : Nat) (x : Tfloat) : 2 ^ f + magOf e f x % 2 ^ f < 2 ^ (f + 1) := by
  have hmod := Nat.mod_lt (magOf e f x) (Nat.two_pow_pos f)
  rw [Nat.pow_succ]
  omega

theorem toNat_fixedPoint (h : FormatBounds e f) (hr : r ≤ 64) (hE : 0 < magOf e f x / 2 ^ f)
    {k : Nat} (hkr : k ≤ r - rSign.toNat) (aSign : Bool) :
    (fixedPoint (significand x e f) k r rSign f rnd .toZero aSign).toNat =
      if rnd = .nevn then (2 ^ f + magOf e f x % 2 ^ f) * 2 ^ k / 2 ^ (f + 1) else 0 := by
  have hS := toNat_significand h hE
  have hSlt := significand_lt e f x
  cases rnd with
  | none => exact toNat_fixedPoint_none (by omega) aSign
  | nevn => rw [toNat_fixedPoint_nevn h.frac_le hr (by omega) hkr, hS, if_pos rfl]

/-- The conversion without an early return: a value with `k` integer bits that fit the
target. -/
theorem floatToInt_eq (h : FormatBounds e f) (hr0 : 0 < r) (hr : r ≤ 64) {k : Nat}
    (hk : magOf e f x / 2 ^ f + 1 = bias e + k) (hkr : k ≤ r - rSign.toNat)
    (hneg : rSign = false → signOf e f x = true → k = 0) :
    floatToInt x r rSign e f rnd =
      if signOf e f x then
        -fixedPoint (significand x e f) k r rSign f rnd .toZero (signOf e f x)
      else fixedPoint (significand x e f) k r rSign f rnd .toZero (signOf e f x) := by
  have hbias := bias_ge h
  have hcount : signExtend32 ((extractFloatExp x e f).toNat + -(bias e : Int) + 1) e = k := by
    rw [shiftCount_eq h x]
    omega
  have hhalf : (2 : Int) ^ e = 2 * (bias e + 1) := by exact_mod_cast two_pow_exp h
  have hsign := Bool.toNat_le rSign
  have hfix : (fixedPoint (significand x e f) k r rSign f rnd .toZero (signOf e f x)).toNat <
      2 ^ r := by
    rw [toNat_fixedPoint h hr (by omega) hkr]
    split
    · refine Nat.div_lt_of_lt_mul ?_
      calc (2 ^ f + magOf e f x % 2 ^ f) * 2 ^ k < 2 ^ (f + 1) * 2 ^ k :=
            Nat.mul_lt_mul_of_pos_right (significand_lt e f x) (Nat.two_pow_pos k)
        _ ≤ 2 ^ (f + 1) * 2 ^ r :=
            Nat.mul_le_mul_left _ (Nat.pow_le_pow_right (by decide) (by omega))
    · exact Nat.two_pow_pos r
  unfold significand at hfix ⊢
  unfold floatToInt floatToIntImpl
  dsimp only
  rw [extractFloatSign_eq, hcount, if_neg (by omega), if_neg]
  · rw [show (k : Int).toNat % 128 = k by rw [Int.toNat_natCast]; omega, cut_width hfix]
  · rintro (h1 | h1 | ⟨h1, h2, -, h3⟩)
    · omega
    · omega
    · exact h3 (by rw [hneg h1 h2]; rfl)

/-- The early returns: below one half, and above the target. -/
theorem floatToInt_low (h : FormatBounds e f)
    (hk : magOf e f x / 2 ^ f + 1 < bias e) : floatToInt x r rSign e f rnd = 0 := by
  have hcount := shiftCount_eq h x
  unfold floatToInt floatToIntImpl
  dsimp only
  rw [hcount, if_pos]
  right
  generalize magOf e f x / 2 ^ f = E at *
  omega

theorem floatToInt_high (h : FormatBounds e f) {k : Nat}
    (hk : magOf e f x / 2 ^ f + 1 = bias e + k) (hkr : r - rSign.toNat < k) :
    floatToInt x r rSign e f rnd =
      if rSign then (1 : Udatatype) <<< (r - 1) else ((1 : Udatatype) <<< r) - 1 := by
  have hcount : signExtend32 ((extractFloatExp x e f).toNat + -(bias e : Int) + 1) e = k := by
    rw [shiftCount_eq h x]
    omega
  have hhalf : (2 : Int) ^ e = 2 * (bias e + 1) := by exact_mod_cast two_pow_exp h
  have hsign := Bool.toNat_le rSign
  unfold floatToInt floatToIntImpl
  dsimp only
  rw [hcount, if_neg (by omega), if_pos (.inr (.inl (by omega)))]

/-- The low bits of a result with its sign. -/
theorem signed_mod {y : Udatatype} {r : Nat} (hr : r ≤ 64) (s : Bool) :
    ((if s then -y else y).toNat : Int) % (2 ^ r : Nat) =
      (if s then -(y.toNat : Int) else y.toNat) % (2 ^ r : Nat) := by
  cases s with
  | false => rfl
  | true =>
    rw [if_pos rfl, if_pos rfl, BitVec.toNat_neg]
    have hdvd : ((2 ^ r : Nat) : Int) ∣ ((2 ^ 64 : Nat) : Int) := by
      exact_mod_cast Nat.pow_dvd_pow 2 hr
    have hlt := y.isLt
    rw [Int.natCast_mod, Int.emod_emod_of_dvd _ hdvd, Int.natCast_sub hlt.le]
    obtain ⟨c, hc⟩ := hdvd
    rw [hc, Int.sub_eq_add_neg, Int.add_comm, Int.add_mul_emod_self_left]

/-- A value of at least one without rounding: the result is zero. -/
theorem floatToInt_inside (h : FormatBounds e f) (hr0 : 0 < r) (hr : r ≤ 64) {k : Nat}
    (hk : magOf e f x / 2 ^ f + 1 = bias e + k) (hk0 : 0 < k) (hkr : k ≤ r - rSign.toNat)
    (hneg : rSign = false → signOf e f x = true → k = 0) :
    ((floatToInt x r rSign e f rnd).toNat : Int) % (2 ^ r : Nat) =
      if rnd = .nevn then truncatedValue e f x % (2 ^ r : Nat) else 0 := by
  have hbias := bias_ge h
  rw [floatToInt_eq h hr0 hr hk hkr hneg, signed_mod hr, toNat_fixedPoint h hr (by omega) hkr]
  cases rnd with
  | nevn =>
    rw [if_pos rfl, if_pos rfl, truncatedValue, truncatedMag_of_pos hk hk0 (by omega)]
  | none =>
    rw [if_neg (show ¬ RndMode.none = RndMode.nevn by decide),
      if_neg (show ¬ RndMode.none = RndMode.nevn by decide)]
    split <;> rfl

/-- The conversion truncates towards zero with rounding always, and without it exactly
where nothing is left or the value is the least one of a signed target. -/
theorem floatToInt_truncates_iff (h : FormatBounds e f) (hr : IntWidth r)
    (htarget : InTarget r rSign (truncatedValue e f x)) :
    ((floatToInt x r rSign e f rnd).toNat : Int) % (2 ^ r : Nat) =
        truncatedValue e f x % (2 ^ r : Nat) ↔
      rnd = .nevn ∨ truncatedValue e f x = 0 ∨
        (rSign = true ∧ truncatedValue e f x = -(2 ^ (r - 1) : Nat)) := by
  have hbias := bias_ge h
  have hr8 : 8 ≤ r ∧ r ≤ 64 := by
    rcases hr with rfl | rfl | rfl | rfl <;> decide
  have hrpos := Nat.two_pow_pos r
  have hhalf : 2 ^ r = 2 * 2 ^ (r - 1) := by
    rw [← Nat.pow_succ']
    congr 1
    omega
  obtain ⟨hlo, hhi⟩ := htarget
  rcases Nat.lt_or_ge (magOf e f x / 2 ^ f + 1) (bias e) with hlow | hge
  · -- Below one half.
    have ht : truncatedValue e f x = 0 := by
      unfold truncatedValue
      rw [truncatedMag_of_le hlow.le (by omega)]
      split <;> rfl
    rw [floatToInt_low h hlow, ht]
    exact ⟨fun _ => .inr (.inl rfl), fun _ => rfl⟩
  obtain ⟨k, hk⟩ := Nat.exists_eq_add_of_le hge
  rcases Nat.eq_zero_or_pos k with rfl | hk0
  · -- From one half to one the shift leaves nothing.
    have ht : truncatedValue e f x = 0 := by
      unfold truncatedValue
      rw [truncatedMag_of_le hk.le (by omega)]
      split <;> rfl
    refine ⟨fun _ => .inr (.inl ht), fun _ => ?_⟩
    rw [floatToInt_eq h (by omega) hr8.2 hk (Nat.zero_le _) (fun _ _ => rfl), signed_mod hr8.2,
      toNat_fixedPoint h hr8.2 (by omega) (Nat.zero_le _), pow_zero, mul_one,
      Nat.div_eq_of_lt (significand_lt e f x), ite_self, ht]
    split <;> rfl
  obtain ⟨hTlo, hThi⟩ := truncatedMag_bounds hk hk0 (by omega)
  rcases Nat.lt_or_ge (r - rSign.toNat) k with hbig | hkr
  · -- Above the target only its least value is left.
    have hT : 2 ^ (r - rSign.toNat) ≤ truncatedMag e f (magOf e f x) :=
      le_trans (Nat.pow_le_pow_right (by decide) (by omega)) hTlo
    unfold truncatedValue at hlo hhi ⊢
    rw [floatToInt_high h hk hbig]
    cases rSign with
    | false =>
      rw [if_neg Bool.false_ne_true] at hlo
      rw [Bool.toNat_false, Nat.sub_zero] at hT hhi
      exfalso
      cases hs : signOf e f x with
      | false =>
        rw [hs, if_neg Bool.false_ne_true] at hhi
        omega
      | true =>
        rw [hs, if_pos rfl] at hlo
        omega
    | true =>
      rw [if_pos rfl] at hlo
      rw [Bool.toNat_true] at hT hhi
      cases hs : signOf e f x with
      | false =>
        rw [hs, if_neg Bool.false_ne_true] at hhi
        omega
      | true =>
        rw [hs, if_pos rfl] at hlo
        have hmin : truncatedMag e f (magOf e f x) = 2 ^ (r - 1) := by omega
        rw [if_pos rfl, if_pos rfl, hmin]
        refine ⟨fun _ => .inr (.inr ⟨rfl, rfl⟩), fun _ => ?_⟩
        have hone : ((1 : Udatatype) <<< (r - 1)).toNat = 2 ^ (r - 1) := by
          have hlt : 2 ^ (r - 1) < 2 ^ 64 := Nat.pow_lt_pow_right (by decide) (by omega)
          rw [toNat_shiftLeft_of_lt] <;> rw [show (1 : Udatatype).toNat = 1 by rfl, Nat.one_mul]
          exact hlt
        rw [hone, Int.emod_eq_emod_iff_emod_sub_eq_zero]
        have hsum : ((2 ^ (r - 1) : Nat) : Int) - -((2 ^ (r - 1) : Nat) : Int) = (2 ^ r : Nat) := by
          omega
        rw [hsum, Int.emod_self]
  · -- Inside the target.
    have hneg : rSign = false → signOf e f x = true → k = 0 := by
      intro h1 h2
      exfalso
      unfold truncatedValue at hlo
      rw [h1, h2, if_neg Bool.false_ne_true, if_pos rfl] at hlo
      have := Nat.two_pow_pos (k - 1)
      omega
    have hTr : truncatedMag e f (magOf e f x) < 2 ^ (r - rSign.toNat) :=
      lt_of_lt_of_le hThi (Nat.pow_le_pow_right (by decide) hkr)
    rw [floatToInt_inside h (by omega) hr8.2 hk hk0 hkr hneg]
    cases rnd with
    | nevn => exact ⟨fun _ => .inl rfl, fun _ => by rw [if_pos rfl]⟩
    | none =>
      rw [if_neg (by decide)]
      have hTr' : truncatedMag e f (magOf e f x) < 2 ^ r :=
        lt_of_lt_of_le hTr (Nat.pow_le_pow_right (by decide) (Nat.sub_le _ _))
      have hT1 := Nat.two_pow_pos (k - 1)
      have hne : truncatedValue e f x ≠ 0 := by
        unfold truncatedValue
        split <;> omega
      constructor
      · intro hmod
        have hdvd := Int.dvd_of_emod_eq_zero hmod.symm
        exfalso
        refine hne (Int.eq_zero_of_abs_lt_dvd hdvd ?_)
        unfold truncatedValue
        rw [abs_lt]
        split <;> constructor <;> omega
      · rintro (h1 | h1 | ⟨hs, h1⟩)
        · exact absurd h1 (by decide)
        · exact absurd h1 hne
        · rw [hs, Bool.toNat_true] at hTr
          unfold truncatedValue at h1
          split at h1 <;> omega

end Conversion

theorem truncatedValue_single_one : truncatedValue 8 23 0x3f800000 = 1 := by
  have hmag : magOf 8 23 0x3f800000 = 0x3f800000 := by decide
  have hsign : signOf 8 23 0x3f800000 = false := by decide
  rw [truncatedValue, hsign, hmag, truncatedMag_of_pos (k := 1) (by decide) (by decide) (by decide)]
  decide

/-- One in single precision, to a signed integer of 32 bits. -/
theorem floatToInt_truncates_single_one :
    ((floatToInt 0x3f800000 32 true 8 23 .nevn).toNat : Int) % (2 ^ 32 : Nat) =
      truncatedValue 8 23 0x3f800000 % (2 ^ 32 : Nat) :=
  (floatToInt_truncates_iff ⟨by decide, by decide, by decide, by decide⟩ (.inr (.inr (.inl rfl)))
    (by rw [truncatedValue_single_one]; decide)).mpr (.inl rfl)

/-- Without rounding one becomes zero. -/
theorem floatToInt_none_single_one_wrong :
    FormatBounds 8 23 ∧ IntWidth 32 ∧ IsEncoding 8 23 0x3f800000 ∧ IsFinite 8 23 0x3f800000 ∧
      InTarget 32 true (truncatedValue 8 23 0x3f800000) ∧
      ((floatToInt 0x3f800000 32 true 8 23 .none).toNat : Int) % (2 ^ 32 : Nat) ≠
        truncatedValue 8 23 0x3f800000 % (2 ^ 32 : Nat) := by
  refine ⟨⟨by decide, by decide, by decide, by decide⟩, .inr (.inr (.inl rfl)), by decide,
    by decide, ?_, ?_⟩
  · rw [truncatedValue_single_one]
    decide
  · rw [truncatedValue_single_one]
    decide +kernel

end Bambu.Libbambu.Softfloat
