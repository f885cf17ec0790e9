/-
  Bambu.Libbambu.Softfloat.Common

  The words that `softfloat.c` works on: encodings and their fields, the masks, the
  leading-zero count with its shift from `bambu_macros.h`, and what an encoding means.
-/

import Bambu.Libbambu.Macros
import Bambu.Math.FloatFormat

namespace Bambu.Libbambu.Softfloat

open Bambu.Math

/-- `__tfloat_t`. -/
abbrev Tfloat := Udatatype

/-- `__exc_mode_t`. -/
inductive ExcMode
  | ovf
  | std
  | sat
  | nonan
  deriving DecidableEq, Repr

/-- `__rnd_mode_t`. -/
inductive RndMode
  | none
  | nevn
  deriving DecidableEq, Repr

/-- `__float_rounding_mode`. -/
inductive RoundingMode
  | nearestEven
  | toZero
  | down
  | up
  deriving DecidableEq, Repr

/-! ## Masks and flags -/

/-- `(1ULL << n) - 1`. -/
def ones (n : Nat) : Udatatype := ((1 : Udatatype) <<< n) - 1

/-- A `bool` in an expression of words. -/
def word (b : Bool) : Udatatype := (BitVec.ofBool b).setWidth 64

/-- `(__uint64_t)((((__int64_t)(cond)) << 63) >> 63)`. -/
def boolMask (cond : Bool) : Udatatype := (word cond <<< 63).sshiftRight 63

/-- `COND_EXPR_MACRO64(cond, a, b)`. -/
def condExprMacro64 (cond : Bool) (a b : Udatatype) : Udatatype :=
  (boolMask cond &&& a) ||| (~~~boolMask cond &&& b)

/-- `roundIncrement`. -/
def roundIncrement (mode : RoundingMode) (aSign : Bool) (fracBits : Nat) : Udatatype :=
  match mode with
  | .nearestEven => (1 : Udatatype) <<< (fracBits - 1)
  | .toZero => 0
  | .up => if aSign then 0 else ones fracBits
  | .down => if aSign then ones fracBits else 0

theorem toNat_ones {n : Nat} (h : n < 64) : (ones n).toNat = 2 ^ n - 1 := by
  have hlt : 2 ^ n < 2 ^ 64 := Nat.pow_lt_pow_right (by decide) h
  have hpos := Nat.two_pow_pos n
  have hone : ((1 : Udatatype) <<< n).toNat = 2 ^ n := by
    rw [BitVec.toNat_shiftLeft, Nat.shiftLeft_eq]
    simp only [BitVec.ofNat_eq_ofNat, BitVec.toNat_ofNat]
    omega
  unfold ones
  rw [BitVec.toNat_sub, hone]
  simp only [BitVec.ofNat_eq_ofNat, BitVec.toNat_ofNat]
  omega

theorem toNat_and_ones (v : Udatatype) {n : Nat} (h : n < 64) :
    (v &&& ones n).toNat = v.toNat % 2 ^ n := by
  rw [BitVec.toNat_and, toNat_ones h, Nat.and_two_pow_sub_one_eq_mod]

@[simp] theorem toNat_word (b : Bool) : (word b).toNat = b.toNat := by
  cases b <;> rfl

@[simp] theorem boolMask_false : boolMask false = 0 := by decide

@[simp] theorem boolMask_true : boolMask true = ~~~0 := by decide

theorem condExprMacro64_eq (cond : Bool) (a b : Udatatype) :
    condExprMacro64 cond a b = if cond then a else b := by
  have hall : ~~~(0 : Udatatype) = BitVec.allOnes 64 := by decide
  unfold condExprMacro64
  cases cond with
  | false =>
    rw [boolMask_false, hall, BitVec.allOnes_and]
    exact (congrArg (· ||| b) BitVec.zero_and).trans BitVec.zero_or
  | true =>
    rw [boolMask_true, BitVec.not_not, hall, BitVec.allOnes_and]
    exact (congrArg (a ||| ·) BitVec.zero_and).trans BitVec.or_zero

theorem toNat_shiftLeft_of_lt {v : Udatatype} {i : Nat} (h : v.toNat * 2 ^ i < 2 ^ 64) :
    (v <<< i).toNat = v.toNat * 2 ^ i := by
  rw [BitVec.toNat_shiftLeft, Nat.shiftLeft_eq, Nat.mod_eq_of_lt h]

theorem toNat_shiftRight (v : Udatatype) (i : Nat) : (v >>> i).toNat = v.toNat / 2 ^ i := by
  rw [BitVec.toNat_ushiftRight, Nat.shiftRight_eq_div_pow]

/-- A word put above a narrower one. -/
theorem toNat_shift_or_of_lt {v b : Udatatype} {i : Nat} (hb : b.toNat < 2 ^ i)
    (h : (v.toNat + 1) * 2 ^ i ≤ 2 ^ 64) : ((v <<< i) ||| b).toNat = v.toNat * 2 ^ i + b.toNat := by
  have hpos := Nat.two_pow_pos i
  have hi : i ≤ 64 := by
    refine (Nat.pow_le_pow_iff_right (by decide : 1 < 2)).mp ?_
    exact le_trans (Nat.le_mul_of_pos_left _ (Nat.succ_pos _)) h
  rw [Nat.succ_mul] at h
  rw [toNat_shift_or hi hb, Nat.mod_eq_of_lt (by omega)]

theorem word_eq_zero_iff (v : Udatatype) : (v == 0) = decide (v.toNat = 0) := by
  rw [Bool.eq_iff_iff, beq_iff_eq, decide_eq_true_eq, ← BitVec.toNat_inj]
  exact Iff.rfl

theorem word_ne_zero_iff (v : Udatatype) : (v != 0) = decide (v.toNat ≠ 0) := by
  rw [bne, word_eq_zero_iff, decide_not]

/-! ## Fields of an encoding -/

/-- `__extractFloatFrac`. -/
def extractFloatFrac (a : Tfloat) (fracBits : Nat) : Udatatype := a &&& ones fracBits

/-- `__extractFloatExp`. -/
def extractFloatExp (a : Tfloat) (expBits fracBits : Nat) : Udatatype :=
  (a >>> fracBits) &&& ones expBits

/-- `__extractFloatSign`; `sign = -1` reads the sign bit. -/
def extractFloatSign (a : Tfloat) (expBits fracBits : Nat) (sign : Int) : Bool :=
  if sign = -1 then a >>> (expBits + fracBits) != 0 else sign != 0

/-- The magnitude of an encoding. -/
def magOf (e f : Nat) (x : Tfloat) : Nat := x.toNat % 2 ^ (e + f)

/-- The sign of an encoding. -/
def signOf (e f : Nat) (x : Tfloat) : Bool := x.toNat / 2 ^ (e + f) != 0

/-- `x` has no bit above the sign bit. -/
def IsEncoding (e f : Nat) (x : Tfloat) : Prop := x.toNat < 2 ^ (e + f + 1)

def IsNaN (e f : Nat) (x : Tfloat) : Prop := infMag e f < magOf e f x

def IsInf (e f : Nat) (x : Tfloat) : Prop := magOf e f x = infMag e f

def IsFinite (e f : Nat) (x : Tfloat) : Prop := magOf e f x < infMag e f

instance (e f : Nat) (x : Tfloat) : Decidable (IsEncoding e f x) := Nat.decLt _ _

instance (e f : Nat) (x : Tfloat) : Decidable (IsNaN e f x) := Nat.decLt _ _

instance (e f : Nat) (x : Tfloat) : Decidable (IsInf e f x) := Nat.decEq _ _

instance (e f : Nat) (x : Tfloat) : Decidable (IsFinite e f x) := Nat.decLt _ _

def IsNormal (e f : Nat) (x : Tfloat) : Prop := 2 ^ f ≤ magOf e f x ∧ magOf e f x < infMag e f

instance (e f : Nat) (x : Tfloat) : Decidable (IsNormal e f x) :=
    inferInstanceAs (Decidable (_ ∧ _))

/-- The standard bias of the exponent. -/
def bias (e : Nat) : Nat := 2 ^ (e - 1) - 1

/-- The least subnormal, which is the unit of `magValue`. -/
def leastSubnormal (e f : Nat) : ℚ := 2 ^ (1 - (bias e : ℤ) - f)

/-- The value of a finite encoding, in units of the least subnormal. -/
def valueOf (e f : Nat) (x : Tfloat) : Int :=
  if signOf e f x then -(magValue f (magOf e f x) : Int) else magValue f (magOf e f x)

/-- The widths that the formats of this development have. -/
structure FormatBounds (e f : Nat) : Prop where
  exp_ge : 4 ≤ e
  exp_le : e ≤ 11
  frac_ge : 4 ≤ f
  frac_le : f ≤ 52

/-- The integer widths of the conversions. -/
def IntWidth (r : Nat) : Prop := r = 8 ∨ r = 16 ∨ r = 32 ∨ r = 64

/-- Half of the exponent range. -/
theorem half_range {e f : Nat} (h : FormatBounds e f) : 2 ^ e = 2 * 2 ^ (e - 1) ∧ 8 ≤ 2 ^ (e - 1) ∧
    2 ^ (e - 1) ≤ 1024 := by
  have hge := h.exp_ge
  have hle := h.exp_le
  refine ⟨?_, ?_, ?_⟩
  · rw [← Nat.pow_succ']
    congr 1
    omega
  · calc 8 = 2 ^ 3 := rfl
      _ ≤ 2 ^ (e - 1) := Nat.pow_le_pow_right (by decide) (by omega)
  · calc 2 ^ (e - 1) ≤ 2 ^ 10 := Nat.pow_le_pow_right (by decide) (by omega)
      _ = 1024 := rfl

theorem bias_ge {e f : Nat} (h : FormatBounds e f) : 7 ≤ bias e := by
  have hge : 2 ^ 3 ≤ 2 ^ (e - 1) := Nat.pow_le_pow_right (by decide) (by have := h.exp_ge; omega)
  unfold bias
  omega

section Fields

variable {e f : Nat} {x : Tfloat}

theorem signOf_eq (hx : IsEncoding e f x) :
    x.toNat = (signOf e f x).toNat * 2 ^ (e + f) + magOf e f x := by
  have hlt : x.toNat / 2 ^ (e + f) < 2 :=
    Nat.div_lt_of_lt_mul (by rw [← Nat.pow_succ]; exact hx)
  have hdiv : (signOf e f x).toNat = x.toNat / 2 ^ (e + f) := by
    unfold signOf
    rcases Nat.le_one_iff_eq_zero_or_eq_one.mp (Nat.le_of_lt_succ hlt) with h | h <;>
    · rw [h]
      rfl
  rw [hdiv, magOf, Nat.mul_comm]
  exact (Nat.div_add_mod _ _).symm

theorem magOf_lt (e f : Nat) (x : Tfloat) : magOf e f x < 2 ^ (e + f) :=
  Nat.mod_lt _ (Nat.two_pow_pos _)

theorem toNat_extractFloatFrac (x : Tfloat) (hf : f < 64) :
    (extractFloatFrac x f).toNat = magOf e f x % 2 ^ f := by
  unfold extractFloatFrac magOf
  rw [toNat_and_ones x hf, Nat.mod_mod_of_dvd _ (Nat.pow_dvd_pow 2 (Nat.le_add_left f e))]

theorem toNat_extractFloatExp (x : Tfloat) (he : e < 64) :
    (extractFloatExp x e f).toNat = magOf e f x / 2 ^ f := by
  unfold extractFloatExp magOf
  rw [toNat_and_ones _ he, toNat_shiftRight, Nat.add_comm e f, Nat.pow_add,
    Nat.mod_mul_right_div_self]

theorem extractFloatSign_eq (x : Tfloat) : extractFloatSign x e f (-1) = signOf e f x := by
  unfold extractFloatSign signOf
  rw [if_pos rfl, word_ne_zero_iff, toNat_shiftRight, decide_not, bne]
  rfl

end Fields

section Tests

variable {e f A : Nat}

/-- The test of the exponent field for all ones. -/
theorem expMax_iff {x : Udatatype} (he : e < 64) (hA : A < 2 ^ (e + f))
    (hx : x.toNat = A / 2 ^ f) : (x == ones e) = decide (infMag e f ≤ A) := by
  have hlt : A / 2 ^ f < 2 ^ e :=
    Nat.div_lt_of_lt_mul (by rw [← Nat.pow_add, Nat.add_comm]; exact hA)
  rw [Bool.eq_iff_iff, beq_iff_eq, decide_eq_true_eq, ← BitVec.toNat_inj, toNat_ones he, hx, infMag,
    ← Nat.le_div_iff_mul_le (Nat.two_pow_pos f)]
  omega

/-- The test of the fields for a NaN. -/
theorem nan_iff {x y : Udatatype} (he : e < 64) (hA : A < 2 ^ (e + f)) (hx : x.toNat = A / 2 ^ f)
    (hy : y.toNat = A % 2 ^ f) : (x == ones e && y != 0) = decide (infMag e f < A) := by
  have hfields := Nat.div_add_mod A (2 ^ f)
  have hlt : A / 2 ^ f < 2 ^ e :=
    Nat.div_lt_of_lt_mul (by rw [← Nat.pow_add, Nat.add_comm]; exact hA)
  rw [expMax_iff he hA hx, word_ne_zero_iff, hy, ← Bool.decide_and, decide_eq_decide]
  constructor
  · rintro ⟨hle, hmod⟩
    refine lt_of_le_of_ne hle fun heq => hmod ?_
    rw [← heq, infMag, Nat.mul_mod_left]
  · intro hgt
    refine ⟨hgt.le, fun hmod => ?_⟩
    have hdiv : 2 ^ e - 1 ≤ A / 2 ^ f := (Nat.le_div_iff_mul_le (Nat.two_pow_pos f)).mpr hgt.le
    have hA' : A = infMag e f := by
      rw [infMag, show 2 ^ e - 1 = A / 2 ^ f by omega, Nat.mul_comm]
      omega
    omega

end Tests

/-- A word by its sign and its magnitude. -/
theorem fields_of_toNat {e f n : Nat} {s : Bool} {x : Tfloat}
    (hx : x.toNat = s.toNat * 2 ^ (e + f) + n) (hn : n < 2 ^ (e + f)) :
    IsEncoding e f x ∧ magOf e f x = n ∧ signOf e f x = s := by
  obtain ⟨hdiv, hmod⟩ := packed_fields (x := s.toNat) hn
  refine ⟨?_, ?_, ?_⟩
  · unfold IsEncoding
    rw [hx, Nat.pow_succ]
    have : s.toNat * 2 ^ (e + f) ≤ 1 * 2 ^ (e + f) := Nat.mul_le_mul_right _ (Bool.toNat_le s)
    omega
  · unfold magOf
    rw [hx]
    exact hmod
  · unfold signOf
    rw [hx, hdiv]
    cases s <;> rfl

/-- The fields of a packed result. -/
theorem packed_spec {e f : Nat} (hef : e + f ≤ 63) (s : Bool) {x y : Udatatype}
    (hx : x.toNat < 2 ^ e) (hy : y.toNat < 2 ^ f) :
    IsEncoding e f ((word s <<< (e + f)) ||| (x <<< f) ||| y) ∧
      magOf e f ((word s <<< (e + f)) ||| (x <<< f) ||| y) = x.toNat * 2 ^ f + y.toNat ∧
      signOf e f ((word s <<< (e + f)) ||| (x <<< f) ||| y) = s := by
  have hpow : 2 ^ (e + f) ≤ 2 ^ 63 := Nat.pow_le_pow_right (by decide) hef
  have hx' : (x.toNat + 1) * 2 ^ f ≤ 2 ^ (e + f) := by
    rw [Nat.pow_add]
    exact Nat.mul_le_mul_right _ hx
  have hlow : ((x <<< f) ||| y).toNat = x.toNat * 2 ^ f + y.toNat :=
    toNat_shift_or_of_lt hy (by omega)
  have hlt : x.toNat * 2 ^ f + y.toNat < 2 ^ (e + f) := by
    rw [Nat.succ_mul] at hx'
    omega
  have hs := Bool.toNat_le s
  have hall : ((word s <<< (e + f)) ||| (x <<< f) ||| y).toNat =
      s.toNat * 2 ^ (e + f) + (x.toNat * 2 ^ f + y.toNat) := by
    rw [BitVec.or_assoc, toNat_shift_or_of_lt (by rw [hlow]; exact hlt), hlow, toNat_word]
    rw [toNat_word]
    calc (s.toNat + 1) * 2 ^ (e + f) ≤ 2 * 2 ^ 63 := Nat.mul_le_mul (by omega) hpow
      _ ≤ 2 ^ 64 := by decide
  exact fields_of_toNat hall hlt

/-! ## The leading-zero count with its shift -/

/-- One stage: the test of the top `amount` bits and the shift past them. -/
def lshiftStage (manBits amount : Nat) (v : Udatatype) : Bool × Udatatype :=
  let result : Bool := manBits ≥ amount && ((v >>> (manBits - amount)) &&& ones amount) == 0
  (result, if result then v <<< amount else v)

/-- `count_leading_zero_lshift64_runtime_macro(man_bits, MAN_IN_ORIG, COUNT, SHIFTED)`:
`COUNT` and `SHIFTED`. -/
def countLeadingZeroLshift64 (manBits : Nat) (manIn : Udatatype) : Udatatype × Udatatype :=
  let (result5, lshifted) := lshiftStage manBits 32 manIn
  let (result4, lshifted) := lshiftStage manBits 16 lshifted
  let (result3, lshifted) := lshiftStage manBits 8 lshifted
  let (result2, lshifted) := lshiftStage manBits 4 lshifted
  let (result1, lshifted) := lshiftStage manBits 2 lshifted
  let (result0, lshifted) := lshiftStage manBits 1 lshifted
  let count :=
    if manBits ≤ 1 then 0
    else if manBits ≤ 2 then vectorizeValue [result0]
    else if manBits ≤ 4 then vectorizeValue [result0, result1]
    else if manBits ≤ 8 then vectorizeValue [result0, result1, result2]
    else if manBits ≤ 16 then vectorizeValue [result0, result1, result2, result3]
    else if manBits ≤ 32 then vectorizeValue [result0, result1, result2, result3, result4]
    else vectorizeValue [result0, result1, result2, result3, result4, result5]
  (BitVec.ofNat 64 count, lshifted)

/-- `RUNTIME_CEIL_LOG2(var)`. -/
def runtimeCeilLog2 (var : Nat) : Nat :=
  if var ≤ 32 then
    if var ≤ 16 then
      if var ≤ 8 then
        if var ≤ 4 then
          if var ≤ 2 then
            if var ≤ 1 then 0 else 1
          else 2
        else 3
      else 4
    else 5
  else 6

section Stage

variable {m s : Nat} {v : Udatatype}

/-- A stage leaves fewer leading zeros than it looks at. -/
theorem lshiftStage_spec (hm : m < 64) (hs : s < 64) (hlt : v.toNat < 2 ^ m)
    (hzeros : 2 ^ m ≤ v.toNat * 2 ^ (2 * s)) :
    (lshiftStage m s v).2.toNat = v.toNat * 2 ^ ((lshiftStage m s v).1.toNat * s) ∧
      (lshiftStage m s v).2.toNat < 2 ^ m ∧ 2 ^ m ≤ (lshiftStage m s v).2.toNat * 2 ^ s := by
  unfold lshiftStage
  dsimp only
  cases htest : (decide (m ≥ s) && ((v >>> (m - s)) &&& ones s) == 0) with
  | true =>
    rw [Bool.and_eq_true, decide_eq_true_eq, word_eq_zero_iff, decide_eq_true_eq,
      toNat_and_ones _ hs, toNat_shiftRight] at htest
    obtain ⟨hsm, hzero⟩ := htest
    have hpow : 2 ^ m = 2 ^ s * 2 ^ (m - s) := by rw [← Nat.pow_add]; congr 1; omega
    have hquot : v.toNat / 2 ^ (m - s) < 2 ^ s :=
      Nat.div_lt_of_lt_mul (by rw [Nat.mul_comm, ← hpow]; exact hlt)
    rw [Nat.mod_eq_of_lt hquot] at hzero
    have hsmall : v.toNat < 2 ^ (m - s) := by
      rcases Nat.div_eq_zero_iff.mp hzero with h | h
      · exact absurd h (Nat.two_pow_pos _).ne'
      · exact h
    have hshift : v.toNat * 2 ^ s < 2 ^ m := by
      rw [hpow, Nat.mul_comm]
      exact Nat.mul_lt_mul_of_pos_left hsmall (Nat.two_pow_pos s)
    have hword : (v <<< s).toNat = v.toNat * 2 ^ s :=
      toNat_shiftLeft_of_lt (lt_trans hshift (Nat.pow_lt_pow_right (by decide) hm))
    rw [if_pos rfl, hword, Bool.toNat_true, Nat.one_mul]
    refine ⟨rfl, hshift, ?_⟩
    rw [Nat.mul_assoc, ← Nat.pow_add, ← Nat.two_mul]
    exact hzeros
  | false =>
    rw [if_neg Bool.false_ne_true, Bool.toNat_false, Nat.zero_mul, Nat.pow_zero, Nat.mul_one]
    refine ⟨rfl, hlt, ?_⟩
    by_contra hge
    rw [not_le] at hge
    have hvpos : 0 < v.toNat := by
      rcases Nat.eq_zero_or_pos v.toNat with h | h
      · rw [h, Nat.zero_mul] at hzeros
        exact absurd hzeros (Nat.not_le.mpr (Nat.two_pow_pos m))
      · exact h
    -- With fewer bits than the stage looks at there is nothing to shift past.
    have hsm : s ≤ m := by
      by_contra hlt'
      have hpow := Nat.pow_le_pow_right (n := 2) (by decide) (Nat.not_le.mp hlt').le
      exact absurd (lt_of_le_of_lt (Nat.le_mul_of_pos_left _ hvpos) hge) (Nat.not_lt.mpr hpow)
    have hpow : 2 ^ m = 2 ^ (m - s) * 2 ^ s := by rw [← Nat.pow_add]; congr 1; omega
    have hsmall : v.toNat < 2 ^ (m - s) := by
      rw [hpow] at hge
      exact Nat.lt_of_mul_lt_mul_right hge
    rw [decide_eq_true hsm, Bool.true_and, word_eq_zero_iff, decide_eq_false_iff_not,
      toNat_and_ones _ hs, toNat_shiftRight, Nat.div_eq_of_lt hsmall, Nat.zero_mod] at htest
    exact htest rfl

/-- A stage on zero bits finds them wherever it looks. -/
theorem lshiftStage_zero (m s : Nat) :
    lshiftStage m s (0 : Udatatype) = (decide (s ≤ m), 0) := by
  unfold lshiftStage
  have hzero : (((0 : Udatatype) >>> (m - s)) &&& ones s) == 0 := by simp
  simp only [hzero, Bool.and_true, ge_iff_le]
  split <;> simp

end Stage

/-- On a nonzero word of `m` bits: the shift that brings its top bit to the top. -/
theorem countLeadingZeroLshift64_spec {m : Nat} {v : Udatatype} (h2 : 2 ≤ m) (hm : m < 64)
    (hpos : 0 < v.toNat) (hlt : v.toNat < 2 ^ m) :
    (countLeadingZeroLshift64 m v).1.toNat < m ∧
      (countLeadingZeroLshift64 m v).2.toNat =
        v.toNat * 2 ^ (countLeadingZeroLshift64 m v).1.toNat ∧
      2 ^ (m - 1) ≤ (countLeadingZeroLshift64 m v).2.toNat ∧
      (countLeadingZeroLshift64 m v).2.toNat < 2 ^ m := by
  have hstart : 2 ^ m ≤ v.toNat * 2 ^ (2 * 32) :=
    le_trans (Nat.pow_le_pow_right (by decide) hm.le) (Nat.le_mul_of_pos_left _ hpos)
  unfold countLeadingZeroLshift64
  dsimp only
  obtain ⟨h5, l5, z5⟩ := lshiftStage_spec hm (by decide) hlt hstart
  generalize lshiftStage m 32 v = r5 at *
  obtain ⟨h4, l4, z4⟩ := lshiftStage_spec (s := 16) hm (by decide) l5 z5
  generalize lshiftStage m 16 r5.2 = r4 at *
  obtain ⟨h3, l3, z3⟩ := lshiftStage_spec (s := 8) hm (by decide) l4 z4
  generalize lshiftStage m 8 r4.2 = r3 at *
  obtain ⟨h2', l2, z2⟩ := lshiftStage_spec (s := 4) hm (by decide) l3 z3
  generalize lshiftStage m 4 r3.2 = r2 at *
  obtain ⟨h1, l1, z1⟩ := lshiftStage_spec (s := 2) hm (by decide) l2 z2
  generalize lshiftStage m 2 r2.2 = r1 at *
  obtain ⟨h0, l0, z0⟩ := lshiftStage_spec (s := 1) hm (by decide) l1 z1
  generalize lshiftStage m 1 r1.2 = r0 at *
  -- All stages together.
  obtain ⟨c, hc⟩ : ∃ c, c = r0.1.toNat + 2 * (r1.1.toNat + 2 * (r2.1.toNat + 2 * (r3.1.toNat +
    2 * (r4.1.toNat + 2 * r5.1.toNat)))) := ⟨_, rfl⟩
  have hall : r0.2.toNat = v.toNat * 2 ^ c := by
    rw [h0, h1, h2', h3, h4, h5, hc]
    simp only [Nat.mul_assoc, ← Nat.pow_add]
    congr 2
    ring
  have htop : 2 ^ (m - 1) ≤ r0.2.toNat := by
    rw [show m = m - 1 + 1 by omega, Nat.pow_succ, Nat.pow_one] at z0
    exact Nat.le_of_mul_le_mul_right z0 (by decide)
  have hcm : c < m := by
    refine (Nat.pow_lt_pow_iff_right (by decide : 1 < 2)).mp (lt_of_le_of_lt ?_ l0)
    rw [hall]
    exact Nat.le_mul_of_pos_left _ hpos
  -- The stages that the count leaves out have not shifted.
  have hcount : (if m ≤ 1 then 0 else if m ≤ 2 then vectorizeValue [r0.1]
      else if m ≤ 4 then vectorizeValue [r0.1, r1.1]
      else if m ≤ 8 then vectorizeValue [r0.1, r1.1, r2.1]
      else if m ≤ 16 then vectorizeValue [r0.1, r1.1, r2.1, r3.1]
      else if m ≤ 32 then vectorizeValue [r0.1, r1.1, r2.1, r3.1, r4.1]
      else vectorizeValue [r0.1, r1.1, r2.1, r3.1, r4.1, r5.1]) = c := by
    simp only [vectorizeValue]
    have b1 := Bool.toNat_le r1.1
    have b2 := Bool.toNat_le r2.1
    have b3 := Bool.toNat_le r3.1
    have b4 := Bool.toNat_le r4.1
    have b5 := Bool.toNat_le r5.1
    split
    · omega
    split
    · omega
    split
    · omega
    split
    · omega
    split
    · omega
    split <;> omega
  rw [hcount, BitVec.toNat_ofNat, Nat.mod_eq_of_lt (by omega)]
  exact ⟨hcm, hall, htop, l0⟩

/-- On zero the count is all ones. -/
theorem countLeadingZeroLshift64_zero {m : Nat} (h2 : 2 ≤ m) :
    countLeadingZeroLshift64 m 0 = (BitVec.ofNat 64 (2 ^ runtimeCeilLog2 m - 1), 0) := by
  unfold countLeadingZeroLshift64 runtimeCeilLog2
  simp only [lshiftStage_zero]
  refine Prod.ext (congrArg (BitVec.ofNat 64) ?_) rfl
  have hbit : ∀ k, k ≤ m → decide (k ≤ m) = true := fun k hk => decide_eq_true hk
  rw [if_neg (by omega : ¬ m ≤ 1)]
  rcases Nat.lt_or_ge 32 m with h | h
  · rw [if_neg (by omega), if_neg (by omega), if_neg (by omega), if_neg (by omega),
      if_neg (by omega), if_neg (by omega : ¬ m ≤ 32), hbit 1 (by omega), hbit 2 (by omega),
      hbit 4 (by omega), hbit 8 (by omega), hbit 16 (by omega), hbit 32 (by omega)]
    rfl
  rcases Nat.lt_or_ge 16 m with h16 | h16
  · rw [if_neg (by omega), if_neg (by omega), if_neg (by omega), if_neg (by omega), if_pos h,
      if_pos h, if_neg (by omega : ¬ m ≤ 16), hbit 1 (by omega), hbit 2 (by omega),
      hbit 4 (by omega), hbit 8 (by omega), hbit 16 (by omega)]
    rfl
  rcases Nat.lt_or_ge 8 m with h8 | h8
  · rw [if_neg (by omega), if_neg (by omega), if_neg (by omega), if_pos h16, if_pos h, if_pos h16,
      if_neg (by omega : ¬ m ≤ 8), hbit 1 (by omega), hbit 2 (by omega), hbit 4 (by omega),
      hbit 8 (by omega)]
    rfl
  rcases Nat.lt_or_ge 4 m with h4 | h4
  · rw [if_neg (by omega), if_neg (by omega), if_pos h8, if_pos h, if_pos h16, if_pos h8,
      if_neg (by omega : ¬ m ≤ 4), hbit 1 (by omega), hbit 2 (by omega), hbit 4 (by omega)]
    rfl
  rcases Nat.lt_or_ge 2 m with h2' | h2'
  · rw [if_neg (by omega), if_pos h4, if_pos h, if_pos h16, if_pos h8, if_pos h4,
      if_neg (by omega : ¬ m ≤ 2), hbit 1 (by omega), hbit 2 (by omega)]
    rfl
  · rw [if_pos h2', if_pos h, if_pos h16, if_pos h8, if_pos h4, if_pos h2',
      if_neg (by omega : ¬ m ≤ 1), hbit 1 (by omega)]
    rfl

end Bambu.Libbambu.Softfloat
