/-
  Bambu.Utility.APInt

  `APInt.cpp`: integers of sign and 4096 magnitude bits, with the width helpers
  the range analysis uses (`extOrTrunc`, `leadingZeros`, `leadingOnes`, the
  extreme values of a width).

  Below the capacity the helpers mean what their names say.  At the capacity
  itself `APInt(1) << bw` drops its only bit, so `getMaxValue` is minus one and
  `extOrTrunc` keeps its argument; both facts are recorded beside the regular
  ones because a range of that width is one the code accepts.
-/

import Bambu.Math.SignMag
import Bambu.Math.Residue
import Bambu.Utility.Common

namespace Bambu

open Bambu.Math

/-- `std::numeric_limits<APInt::number>::digits`, also `Range::max_digits`. -/
def maxDigits : Nat := 4096

abbrev APInt := SignMag maxDigits

namespace APInt

/-! ## Values below the capacity -/

theorem maxDigits_pos : 0 < maxDigits := by decide

theorem two_mul_half_maxDigits : 2 * half maxDigits = 2 ^ maxDigits :=
  two_mul_half maxDigits_pos

/-- Every value lies strictly between minus and plus the capacity. -/
theorem bounds (a : APInt) : -(2 * half maxDigits) < a.val ∧ a.val < 2 * half maxDigits := by
  rw [two_mul_half_maxDigits]
  exact ⟨a.neg_lt_val, a.val_lt⟩

theorem val_of_fits {v : Int} (hlo : -(2 * half maxDigits) < v) (hhi : v < 2 * half maxDigits) :
    (SignMag.ofInt v : APInt).val = v := by
  rw [two_mul_half_maxDigits] at hlo hhi
  exact SignMag.val_ofInt hlo hhi

theorem add_val {a b : APInt} (hlo : -(2 * half maxDigits) < a.val + b.val)
    (hhi : a.val + b.val < 2 * half maxDigits) : (a + b).val = a.val + b.val :=
  val_of_fits hlo hhi

theorem sub_val {a b : APInt} (hlo : -(2 * half maxDigits) < a.val - b.val)
    (hhi : a.val - b.val < 2 * half maxDigits) : (a - b).val = a.val - b.val :=
  val_of_fits hlo hhi

theorem mul_val {a b : APInt} (hlo : -(2 * half maxDigits) < a.val * b.val)
    (hhi : a.val * b.val < 2 * half maxDigits) : (a * b).val = a.val * b.val :=
  val_of_fits hlo hhi

theorem div_val {a b : APInt} (hlo : -(2 * half maxDigits) < a.val.tdiv b.val)
    (hhi : a.val.tdiv b.val < 2 * half maxDigits) : (a / b).val = a.val.tdiv b.val :=
  val_of_fits hlo hhi

theorem shl_val {a : APInt} {s : Nat} (hlo : -(2 * half maxDigits) < a.val * 2 ^ s)
    (hhi : a.val * 2 ^ s < 2 * half maxDigits) : (a <<< s).val = a.val * 2 ^ s :=
  val_of_fits hlo hhi

theorem two_le_half_maxDigits : 2 ≤ half maxDigits := by
  have h : 2 * half 1 ≤ half maxDigits := two_mul_half_le (by decide) (by decide)
  simpa [half] using h

theorem ofNat_val {k : Nat} (hk : k < 4) : (OfNat.ofNat k : APInt).val = k := by
  have h2 := two_le_half_maxDigits
  exact val_of_fits (by omega) (by omega)

@[simp] theorem one_val : (1 : APInt).val = 1 := ofNat_val (by decide)

/-! ## The extreme values of a width -/

def getMaxValue (bw : Nat) : APInt := ((1 : APInt) <<< bw) - 1
def getMinValue (_bw : Nat) : APInt := 0
def getSignedMaxValue (bw : Nat) : APInt := ((1 : APInt) <<< (bw - 1)) - 1
def getSignedMinValue (bw : Nat) : APInt := -((1 : APInt) <<< (bw - 1))

theorem one_shl_val {k : Nat} (hk : k < maxDigits) : ((1 : APInt) <<< k).val = 2 ^ k := by
  have hpos : (0 : Int) < 2 ^ k := by positivity
  have hlt : (2 : Int) ^ k < 2 ^ maxDigits := pow_lt_pow_right₀ (by decide) hk
  have h2 := two_mul_half_maxDigits
  rw [shl_val] <;> rw [one_val, one_mul] <;> omega

/-- The bit shifted to the capacity is lost. -/
theorem one_shl_maxDigits_val : ((1 : APInt) <<< maxDigits).val = 0 := by
  rw [SignMag.val_shiftLeft, one_val, one_mul]
  exact SignMag.val_ofInt_two_pow

variable {bw : Nat}

@[simp] theorem getMinValue_val : (getMinValue bw).val = 0 := SignMag.val_zero

theorem getSignedMinValue_val (h0 : 0 < bw) (h : bw ≤ maxDigits) :
    (getSignedMinValue bw).val = -half bw := by
  unfold getSignedMinValue
  rw [SignMag.val_neg, one_shl_val (by omega)]
  rfl

theorem getSignedMaxValue_val (h0 : 0 < bw) (h : bw ≤ maxDigits) :
    (getSignedMaxValue bw).val = half bw - 1 := by
  have hpos := half_pos bw
  have hle := half_le_half h
  unfold getSignedMaxValue
  have hone : ((1 : APInt) <<< (bw - 1)).val = half bw := one_shl_val (by omega)
  rw [sub_val] <;> rw [hone, one_val] <;> omega

theorem getMaxValue_val (h0 : 0 < bw) (h : bw < maxDigits) :
    (getMaxValue bw).val = 2 * half bw - 1 := by
  have hpos := half_pos bw
  have hle := two_mul_half_le h0 h
  have h2 := two_mul_half h0
  unfold getMaxValue
  rw [sub_val] <;> rw [one_shl_val h, one_val] <;> omega

theorem getMaxValue_maxDigits : (getMaxValue maxDigits).val = -1 := by
  have h2 := two_le_half_maxDigits
  unfold getMaxValue
  rw [sub_val] <;> rw [one_shl_maxDigits_val, one_val] <;> omega

/-! ## Bits -/

/-- `bit_tst(i)`. -/
def bitTst (v : APInt) (i : Nat) : Bool := decide ((v >>> i) &&& (1 : APInt) ≠ 0)

theorem bitTst_iff {v : APInt} {i : Nat} : v.bitTst i = true ↔ v.val / 2 ^ i % 2 = 1 := by
  have hand : ((v >>> i) &&& (1 : APInt)).val = v.val / 2 ^ i % 2 := by
    rw [SignMag.val_land_mask _ _ (k := 1) maxDigits_pos (by rw [one_val]; rfl),
      SignMag.val_shiftRight, pow_one]
  rw [bitTst, decide_eq_true_iff, ne_eq, SignMag.eq_iff, hand, SignMag.val_zero]
  omega

/-! ## Extension and truncation -/

/-- The computation of `extOrTrunc`: keep the low `bw` bits, then subtract a
    turn when the sign bit of a signed value is set. -/
def extTrunc (v : APInt) (bw : Nat) (sign : Bool) : APInt :=
  let mask := ((1 : APInt) <<< bw) - 1
  let val := v &&& mask
  if sign && val.bitTst (bw - 1) then val + ((-1 : APInt) <<< bw) else val

/-- `extOrTrunc(bw, sign)` with its assertion. -/
def extOrTrunc (v : APInt) (bw : Nat) (sign : Bool) : Except Error APInt := do
  throwAssert (0 < bw) "Minimum bitwidth of 1 is required"
  .ok (v.extTrunc bw sign)

theorem extOrTrunc_of_pos (h0 : 0 < bw) (v : APInt) (sign : Bool) :
    v.extOrTrunc bw sign = .ok (v.extTrunc bw sign) := by
  simp [extOrTrunc, throwAssert_of h0]

theorem land_mask_val (h0 : 0 < bw) (h : bw < maxDigits) (v : APInt) :
    (v &&& (((1 : APInt) <<< bw) - 1)).val = v.val % 2 ^ bw :=
  SignMag.val_land_mask _ _ (by omega) ((getMaxValue_val h0 h).trans (by rw [two_mul_half h0]))

theorem extTrunc_unsigned_val (h0 : 0 < bw) (h : bw < maxDigits) (v : APInt) :
    (v.extTrunc bw false).val = v.val % 2 ^ bw := by
  simp only [extTrunc, Bool.false_and, Bool.false_eq_true, if_false]
  exact land_mask_val h0 h v

theorem neg_one_shl_val (h : bw < maxDigits) : ((-1 : APInt) <<< bw).val = -2 ^ bw := by
  have hpos : (0 : Int) < 2 ^ bw := by positivity
  have hlt : (2 : Int) ^ bw < 2 ^ maxDigits := pow_lt_pow_right₀ (by decide) h
  have h2 := two_mul_half_maxDigits
  rw [shl_val] <;> rw [SignMag.val_neg, one_val, neg_one_mul] <;> omega

/-- The sign bit of an unsigned `bw`-bit value is set in its upper half. -/
theorem sign_bit_iff {m : Int} (hnn : 0 ≤ m) (hlt : m < 2 * half bw) :
    m / 2 ^ (bw - 1) % 2 = 1 ↔ half bw ≤ m := by
  change m / half bw % 2 = 1 ↔ half bw ≤ m
  have hP := half_pos bw
  by_cases h : half bw ≤ m
  · have hge : 1 ≤ m / half bw := (Int.le_ediv_iff_mul_le hP).mpr (by omega)
    have hle : m / half bw < 2 := (Int.ediv_lt_iff_lt_mul hP).mpr (by omega)
    omega
  · rw [Int.ediv_eq_zero_of_lt hnn (by omega)]
    omega

theorem extTrunc_signed_val (h0 : 0 < bw) (h : bw < maxDigits) (v : APInt) :
    (v.extTrunc bw true).val = signedResidue bw v.val := by
  have h2 := two_mul_half h0
  have hcap := two_mul_half_le h0 h
  have hP := half_pos bw
  have hmask := land_mask_val h0 h v
  have hnn : 0 ≤ v.val % 2 ^ bw := Int.emod_nonneg _ (by positivity)
  have hlt : v.val % 2 ^ bw < 2 ^ bw := Int.emod_lt_of_pos _ (by positivity)
  have hbit := bitTst_iff (v := v &&& (((1 : APInt) <<< bw) - 1)) (i := bw - 1)
  rw [hmask, sign_bit_iff hnn (by omega)] at hbit
  simp only [extTrunc, Bool.true_and]
  rw [← signedResidue_emod]
  by_cases hge : half bw ≤ v.val % 2 ^ bw
  · rw [if_pos (hbit.mpr hge), ← signedResidue_sub_turn h0,
      signedResidue_of_mem h0 (by omega) (by omega)]
    rw [add_val] <;> rw [hmask, neg_one_shl_val h] <;> omega
  · rw [if_neg (mt hbit.mp hge), hmask]
    exact (signedResidue_of_mem h0 (by omega) (by omega)).symm

/-- At the capacity the mask is minus one and the subtracted turn is zero. -/
theorem extTrunc_maxDigits (v : APInt) (sign : Bool) : v.extTrunc maxDigits sign = v := by
  have hmask : v &&& (((1 : APInt) <<< maxDigits) - 1) = v :=
    SignMag.land_neg_one _ _ getMaxValue_maxDigits
  have hturn : ((-1 : APInt) <<< maxDigits).val = 0 := by
    rw [SignMag.val_shiftLeft, SignMag.val_neg, one_val, neg_one_mul]
    exact SignMag.val_ofInt_neg_two_pow
  have hb := v.bounds
  simp only [extTrunc, hmask]
  split
  · apply SignMag.ext
    rw [add_val] <;> rw [hturn] <;> omega
  · rfl

/-! ## Leading zeros and ones -/

/-- The limbs of the magnitude, least significant first; zero has one limb. -/
def limbs (v : APInt) : List Nat :=
  if v.val = 0 then [0] else Nat.digits (2 ^ 64) v.val.natAbs

/-- `__builtin_clzll` of a nonzero limb. -/
def clz (limb : Nat) : Nat := 64 - Nat.size limb

/-- The limb loop of `leadingZeros`, from the most significant limb down. -/
def scanLimbs (offset : Nat) : List Nat → Nat → Nat
  | [], lzc => lzc
  | limb :: rest, lzc =>
      if limb ≠ 0 then (((lzc + clz limb : Nat) - offset : Int) % 2 ^ 16).toNat
      else scanLimbs offset rest ((lzc + 64) % 2 ^ 16)

/-- `leadingZeros(bw)`. -/
def leadingZeros (v : APInt) (bw : Nat) : Except Error Nat :=
  if v < 0 then .ok 0
  else if v = 0 then .ok bw
  else do
    let size := v.limbs.length
    throwAssert (size > 0) "unexpected condition"
    let nchunks := bw / 64 + (if bw % 64 ≠ 0 then 1 else 0)
    throwAssert (size ≤ nchunks) "unexpected condition"
    let lzc := if size < nchunks then bw - size * 64 else 0
    let offset := if size < nchunks then 0 else if bw % 64 ≠ 0 then 64 - bw % 64 else 0
    .ok (scanLimbs offset v.limbs.reverse lzc)

/-- The loop of `leadingOnes`: how far down from `i` a clear bit is met. -/
def skipOnes (v : APInt) : Nat → Nat
  | 0 => 0
  | i + 1 => if v.bitTst i then skipOnes v i else i + 1

/-- `leadingOnes(bw)`. -/
def leadingOnes (v : APInt) (bw : Nat) : Nat := bw - skipOnes v bw

theorem skipOnes_le (v : APInt) (i : Nat) : skipOnes v i ≤ i := by
  induction i with
  | zero => exact Nat.le_refl 0
  | succ i ih =>
    simp only [skipOnes]
    split
    · omega
    · exact Nat.le_refl _

/-- Dropping the bits below the loop's stop leaves only ones. -/
theorem ediv_skipOnes (v : APInt) (i : Nat) (h : v.val / 2 ^ i = -1) :
    v.val / 2 ^ skipOnes v i = -1 := by
  induction i with
  | zero => exact h
  | succ i ih =>
    simp only [skipOnes]
    split
    · rename_i hbit
      rw [bitTst_iff] at hbit
      rw [pow_succ, ← Int.ediv_ediv_of_nonneg (by positivity)] at h
      exact ih (by omega)
    · exact h

/-- A negative value shifted by at most its leading ones stays above `-2 ^ bw`. -/
theorem neg_two_pow_le_mul_of_le_leadingOnes {v : APInt} {d : Nat} (hlo : -2 ^ bw ≤ v.val)
    (hneg : v.val < 0) (hd : d ≤ v.leadingOnes bw) : -2 ^ bw ≤ v.val * 2 ^ d := by
  have hdiv : v.val / 2 ^ bw = -1 := by
    have hpos : (0 : Int) < 2 ^ bw := by positivity
    have h1 : -1 ≤ v.val / 2 ^ bw := (Int.le_ediv_iff_mul_le hpos).mpr (by omega)
    have h2 : v.val / 2 ^ bw < 0 := Int.ediv_neg_of_neg_of_pos hneg hpos
    omega
  have hle := skipOnes_le v bw
  have hones := ediv_skipOnes v bw hdiv
  unfold leadingOnes at hd
  have hj : (0 : Int) < 2 ^ skipOnes v bw := by positivity
  have hv : -2 ^ skipOnes v bw ≤ v.val := by
    have := Int.ediv_mul_le v.val (ne_of_gt hj)
    rw [hones] at this
    omega
  calc -(2 : Int) ^ bw ≤ -2 ^ (skipOnes v bw + d) :=
        neg_le_neg (pow_le_pow_right₀ (by decide) (by omega))
    _ = -2 ^ skipOnes v bw * 2 ^ d := by rw [pow_add, neg_mul]
    _ ≤ v.val * 2 ^ d := mul_le_mul_of_nonneg_right hv (by positivity)

/-- The bit length of a positive value, read off its most significant limb. -/
theorem limbs_spec {v : APInt} (hv : 0 < v.val) :
    ∃ top rest, v.limbs.reverse = top :: rest ∧ top ≠ 0 ∧ Nat.size top ≤ 64 ∧
      Nat.size v.val.natAbs = 64 * (v.limbs.length - 1) + Nat.size top := by
  set m := v.val.natAbs with hm
  have hm0 : m ≠ 0 := by omega
  have hlimbs : v.limbs = Nat.digits (2 ^ 64) m := if_neg (by omega)
  have hne : Nat.digits (2 ^ 64) m ≠ [] := Nat.digits_ne_nil_iff_ne_zero.mpr hm0
  have hlast := Nat.getLast_digit_ne_zero (2 ^ 64) hm0
  have htop64 : (Nat.digits (2 ^ 64) m).getLast hne < 2 ^ 64 :=
    Nat.digits_lt_base (by decide) (List.getLast_mem hne)
  set top := (Nat.digits (2 ^ 64) m).getLast hne with htop
  set low := (Nat.digits (2 ^ 64) m).dropLast with hlow
  have hsplit : low ++ [top] = Nat.digits (2 ^ 64) m := List.dropLast_append_getLast hne
  have hlen : v.limbs.length - 1 = low.length := by rw [hlimbs, ← hsplit]; simp
  have hval : m = Nat.ofDigits (2 ^ 64) low + (2 ^ 64) ^ low.length * top := by
    conv_lhs => rw [← Nat.ofDigits_digits (2 ^ 64) m, ← hsplit, Nat.ofDigits_append]
    simp
  have hlowlt : Nat.ofDigits (2 ^ 64) low < (2 ^ 64) ^ low.length :=
    Nat.ofDigits_lt_base_pow_length (by decide) (fun x hx => Nat.digits_lt_base (by decide)
      (by rw [← hsplit]; exact List.mem_append_left _ hx))
  refine ⟨top, low.reverse, ?_, hlast, Nat.size_le.mpr htop64, ?_⟩
  · rw [hlimbs, ← hsplit, List.reverse_append]
    rfl
  · rw [hlen]
    rw [← pow_mul] at hval hlowlt
    have hsize := Nat.size_pos.mpr (Nat.pos_of_ne_zero hlast)
    have hub : top < 2 ^ Nat.size top := Nat.lt_size_self top
    have hlb : 2 ^ (Nat.size top - 1) ≤ top := Nat.lt_size.mp (by omega)
    apply Nat.le_antisymm
    · refine Nat.size_le.mpr ?_
      rw [pow_add]
      nlinarith
    · have : 64 * low.length + (Nat.size top - 1) < Nat.size m := by
        refine Nat.lt_size.mpr ?_
        rw [pow_add]
        have := Nat.mul_le_mul_left (2 ^ (64 * low.length)) hlb
        omega
      omega

/-- The bit length of a nonnegative integer. -/
theorem size_natAbs_le {v : Int} (hnn : 0 ≤ v) {k : Nat} :
    Nat.size v.natAbs ≤ k ↔ v < 2 ^ k := by
  lift v to Nat using hnn
  rw [Int.natAbs_natCast, Nat.size_le]
  exact_mod_cast Iff.rfl

/-- `leadingZeros` of a nonnegative `bw`-bit value is `bw` minus its bit length. -/
theorem leadingZeros_eq {v : APInt} (h : bw < 2 ^ 16) (hnn : 0 ≤ v.val) (hlt : v.val < 2 ^ bw) :
    v.leadingZeros bw = .ok (bw - Nat.size v.val.natAbs) := by
  unfold leadingZeros
  rw [if_neg (by rw [SignMag.lt_iff, SignMag.val_zero]; omega)]
  by_cases hz : v = 0
  · rw [if_pos hz, hz, SignMag.val_zero]
    rfl
  rw [if_neg hz]
  have hpos : 0 < v.val := by
    rw [SignMag.eq_iff, SignMag.val_zero] at hz
    omega
  obtain ⟨top, rest, hrev, htop, htop64, hsize⟩ := limbs_spec hpos
  have hbits := (size_natAbs_le hnn).mpr hlt
  have hlen : 0 < v.limbs.length := by
    have := congrArg List.length hrev
    simp only [List.length_reverse, List.length_cons] at this
    omega
  have htopsize := Nat.size_pos.mpr (Nat.pos_of_ne_zero htop)
  set nchunks := bw / 64 + (if bw % 64 ≠ 0 then 1 else 0) with hn
  have hchunks : v.limbs.length ≤ nchunks := by rw [hn]; split <;> omega
  simp only [throwAssert_of hlen, throwAssert_of hchunks, ok_bind, hrev, scanLimbs, clz]
  rw [if_pos htop]
  congr 1
  by_cases hlt : v.limbs.length < nchunks
  · rw [if_pos hlt, if_pos hlt]
    have : v.limbs.length * 64 ≤ bw := by rw [hn] at hlt; split at hlt <;> omega
    omega
  · rw [if_neg hlt, if_neg hlt]
    rw [hn] at hlt hchunks
    split at hlt <;> rename_i hmod
    · rw [if_pos hmod] at hchunks ⊢
      omega
    · rw [if_neg hmod] at hchunks ⊢
      omega

/-- A nonnegative value shifted by at most its leading zeros stays below `2 ^ bw`. -/
theorem mul_lt_two_pow_of_le_leadingZeros {v : APInt} {d n : Nat} (h : bw < 2 ^ 16)
    (hnn : 0 ≤ v.val) (hlt : v.val < 2 ^ bw) (hz : v.leadingZeros bw = .ok n) (hd : d ≤ n) :
    v.val * 2 ^ d < 2 ^ bw := by
  rw [leadingZeros_eq h hnn hlt] at hz
  injection hz with hz
  have hbits := (size_natAbs_le hnn).mpr hlt
  have habs := (size_natAbs_le hnn).mp (Nat.le_refl _)
  calc v.val * 2 ^ d < 2 ^ Nat.size v.val.natAbs * 2 ^ d :=
        mul_lt_mul_of_pos_right habs (by positivity)
    _ = 2 ^ (Nat.size v.val.natAbs + d) := (pow_add _ _ _).symm
    _ ≤ 2 ^ bw := pow_le_pow_right₀ (by decide) (by omega)

end APInt
end Bambu
