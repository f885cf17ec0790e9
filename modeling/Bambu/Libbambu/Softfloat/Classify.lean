/-
  Bambu.Libbambu.Softfloat.Classify

  The floating-point class test of `builtins.h`.  `__llvm_kernel_fpclassify` takes the sign
  from the parameter of the format instead of the encoding, so that a format with a sign bit
  has negative numbers only, and its quiet bit is any bit of the fraction but the top one.
-/

import Bambu.Libbambu.Softfloat.Common

namespace Bambu.Libbambu.Softfloat

open Bambu.Math

/-! ## The classes and their bits -/

/-- The classes that the `__FPCLASS_*` bits stand for. -/
inductive FpClass
  | snan
  | qnan
  | neginf
  | negnormal
  | negsubnormal
  | negzero
  | poszero
  | possubnormal
  | posnormal
  | posinf
  deriving DecidableEq, Repr

/-- `__FPCLASS_*`. -/
def FpClass.mask : FpClass → BitVec 32
  | .snan => 0x0001
  | .qnan => 0x0002
  | .neginf => 0x0004
  | .negnormal => 0x0008
  | .negsubnormal => 0x0010
  | .negzero => 0x0020
  | .poszero => 0x0040
  | .possubnormal => 0x0080
  | .posnormal => 0x0100
  | .posinf => 0x0200

/-- `mask & __FPCLASS_*`, in a condition. -/
def FpClass.inMask (c : FpClass) (mask : BitVec 32) : Bool := mask &&& c.mask != 0

/-- `__llvm_kernel_fpclassify`. -/
def llvmKernelFpclassify (x : Tfloat) (mask : BitVec 32) (expBits fracBits : Nat) (exc : ExcMode)
    (sign : Int) : Bool :=
  let xSig := x &&& ones fracBits
  let xExp := (x >>> fracBits) &&& ones expBits
  let signNeg : Bool := sign != 0
  let expZero := xExp == 0
  let fracZero := xSig == 0
  let expMax := exc == .std && xExp == ones expBits
  let quietBit := (xSig &&& ones (fracBits - 1)) != 0
  let isZero := expZero && fracZero
  let isSub := expZero && !fracZero
  let isNorm := !expZero && !expMax
  let isInf := expMax && fracZero
  let isNaN := expMax && !fracZero
  let isQNaN := isNaN && quietBit
  let isSNaN := isNaN && !quietBit
  (FpClass.snan.inMask mask && isSNaN)
    || (FpClass.qnan.inMask mask && isQNaN)
    || (FpClass.neginf.inMask mask && signNeg && isInf)
    || (FpClass.negnormal.inMask mask && signNeg && isNorm)
    || (FpClass.negsubnormal.inMask mask && signNeg && isSub)
    || (FpClass.negzero.inMask mask && signNeg && isZero)
    || (FpClass.poszero.inMask mask && !signNeg && isZero)
    || (FpClass.possubnormal.inMask mask && !signNeg && isSub)
    || (FpClass.posnormal.inMask mask && !signNeg && isNorm)
    || (FpClass.posinf.inMask mask && !signNeg && isInf)

/-! ## What the classes are -/

/-- The greatest exponent field is kept for the infinity and the NaNs. -/
def Special (e f : Nat) (exc : ExcMode) (x : Tfloat) : Prop := exc = .std ∧ infMag e f ≤ magOf e f x

instance (e f : Nat) (exc : ExcMode) (x : Tfloat) : Decidable (Special e f exc x) :=
  inferInstanceAs (Decidable (_ ∧ _))

/-- `x` is of the class. -/
def Belongs (e f : Nat) (exc : ExcMode) (x : Tfloat) : FpClass → Prop
  | .snan => Special e f exc x ∧ IsNaN e f x ∧ x.getLsbD (f - 1) = false
  | .qnan => Special e f exc x ∧ IsNaN e f x ∧ x.getLsbD (f - 1) = true
  | .neginf => Special e f exc x ∧ IsInf e f x ∧ signOf e f x = true
  | .negnormal => ¬ Special e f exc x ∧ 2 ^ f ≤ magOf e f x ∧ signOf e f x = true
  | .negsubnormal => 0 < magOf e f x ∧ magOf e f x < 2 ^ f ∧ signOf e f x = true
  | .negzero => magOf e f x = 0 ∧ signOf e f x = true
  | .poszero => magOf e f x = 0 ∧ signOf e f x = false
  | .possubnormal => 0 < magOf e f x ∧ magOf e f x < 2 ^ f ∧ signOf e f x = false
  | .posnormal => ¬ Special e f exc x ∧ 2 ^ f ≤ magOf e f x ∧ signOf e f x = false
  | .posinf => Special e f exc x ∧ IsInf e f x ∧ signOf e f x = false

/-- The other kind of NaN, and the same numbers with the other sign. -/
def FpClass.opposite : FpClass → FpClass
  | .snan => .qnan
  | .qnan => .snan
  | .neginf => .posinf
  | .negnormal => .posnormal
  | .negsubnormal => .possubnormal
  | .negzero => .poszero
  | .poszero => .negzero
  | .possubnormal => .negsubnormal
  | .posnormal => .negnormal
  | .posinf => .neginf

/-- A NaN with exactly one of the top fraction bit and the rest of the fraction set, or a
positive number. -/
def Misclassified (e f : Nat) (exc : ExcMode) (x : Tfloat) : Prop :=
  if Special e f exc x ∧ IsNaN e f x then
    x.getLsbD (f - 1) ≠ decide (magOf e f x % 2 ^ (f - 1) ≠ 0)
  else signOf e f x = false

instance (e f : Nat) (exc : ExcMode) (x : Tfloat) : Decidable (Misclassified e f exc x) := by
  unfold Misclassified
  infer_instance

/-! ## Classes by kind -/

/-- The classes without the distinction that a single bit makes. -/
inductive FpKind
  | nan
  | inf
  | normal
  | subnormal
  | zero
  deriving DecidableEq

/-- The kind of a magnitude. -/
def kindOf (e f : Nat) (exc : ExcMode) (x : Tfloat) : FpKind :=
  if Special e f exc x then if IsNaN e f x then .nan else .inf
  else if magOf e f x = 0 then .zero
  else if magOf e f x < 2 ^ f then .subnormal
  else .normal

/-- The class of a kind: `b` is the quiet bit of a NaN and the sign of a number. -/
def FpKind.classOf : FpKind → Bool → FpClass
  | .nan, false => .snan
  | .nan, true => .qnan
  | .inf, false => .posinf
  | .inf, true => .neginf
  | .normal, false => .posnormal
  | .normal, true => .negnormal
  | .subnormal, false => .possubnormal
  | .subnormal, true => .negsubnormal
  | .zero, false => .poszero
  | .zero, true => .negzero

/-- The bit that tells the classes of a kind apart. -/
def distinction (e f : Nat) (exc : ExcMode) (x : Tfloat) : Bool :=
  if kindOf e f exc x = .nan then x.getLsbD (f - 1) else signOf e f x

theorem FpKind.opposite_classOf (k : FpKind) (b : Bool) :
    (k.classOf b).opposite = k.classOf !b := by
  cases k <;> cases b <;> rfl

section Class

variable {e f : Nat} {exc : ExcMode} {x : Tfloat}

theorem kindOf_eq_nan_iff : kindOf e f exc x = .nan ↔ Special e f exc x ∧ IsNaN e f x := by
  unfold kindOf
  split_ifs with h1 h2 h3 h4 <;> simp [*]

theorem infMag_pos (he : 0 < e) : 2 ^ f ≤ infMag e f := by
  have h2 : 2 ^ 1 ≤ 2 ^ e := Nat.pow_le_pow_right (by decide) he
  unfold infMag
  exact Nat.le_mul_of_pos_left _ (by omega)

/-- The fraction of a NaN is not zero. -/
theorem frac_ne_zero_of_isNaN (hn : IsNaN e f x) : magOf e f x % 2 ^ f ≠ 0 := by
  intro hzero
  obtain ⟨k, hk⟩ := Nat.dvd_of_mod_eq_zero hzero
  have hlt := magOf_lt e f x
  rw [IsNaN, infMag, hk, Nat.mul_comm (2 ^ f)] at hn
  rw [hk, Nat.pow_add, Nat.mul_comm (2 ^ f)] at hlt
  have h1 := Nat.lt_of_mul_lt_mul_right hn
  have h2 := Nat.lt_of_mul_lt_mul_right hlt
  omega

theorem distinction_nan (hk : kindOf e f exc x = .nan) :
    distinction e f exc x = x.getLsbD (f - 1) := if_pos hk

theorem distinction_number {k : FpKind} (hk : kindOf e f exc x = k) (hne : k ≠ .nan) :
    distinction e f exc x = signOf e f x := if_neg (hk ▸ hne)

/-- Every encoding is of exactly one class. -/
theorem belongs_iff (he : 0 < e) (c : FpClass) :
    Belongs e f exc x c ↔ c = (kindOf e f exc x).classOf (distinction e f exc x) := by
  have hinf := infMag_pos (f := f) he
  have hf := Nat.two_pow_pos f
  -- The kinds are intervals of the magnitude, cut at 1, `2 ^ f` and the infinity.
  by_cases hs : Special e f exc x
  · have hge := hs.2
    by_cases hn : IsNaN e f x
    · have hk : kindOf e f exc x = .nan := kindOf_eq_nan_iff.mpr ⟨hs, hn⟩
      have hne : ¬ IsInf e f x := Nat.ne_of_gt hn
      rw [distinction_nan hk, hk]
      cases hb : x.getLsbD (f - 1) <;> cases c <;>
        simp [Belongs, FpKind.classOf, hs, hn, hne, hb] <;> omega
    · have hk : kindOf e f exc x = .inf := by simp [kindOf, hs, hn]
      have hi : IsInf e f x := Nat.le_antisymm (Nat.not_lt.mp hn) hge
      rw [distinction_number hk (by simp), hk]
      cases hb : signOf e f x <;> cases c <;>
        simp [Belongs, FpKind.classOf, hs, hn, hi, hb] <;> omega
  · by_cases hz : magOf e f x = 0
    · have hk : kindOf e f exc x = .zero := by simp [kindOf, hs, hz]
      rw [distinction_number hk (by simp), hk]
      cases hb : signOf e f x <;> cases c <;> simp [Belongs, FpKind.classOf, hs, hb, hz]
    · by_cases hlt : magOf e f x < 2 ^ f
      · have hk : kindOf e f exc x = .subnormal := by simp [kindOf, hs, hz, hlt]
        rw [distinction_number hk (by simp), hk]
        cases hb : signOf e f x <;> cases c <;>
          simp [Belongs, FpKind.classOf, hs, hb, hz, hlt] <;> omega
      · have hk : kindOf e f exc x = .normal := by simp [kindOf, hs, hz, hlt]
        rw [distinction_number hk (by simp), hk]
        cases hb : signOf e f x <;> cases c <;>
          simp [Belongs, FpKind.classOf, hs, hb, hz, hlt] <;> omega

/-! ## The test -/

/-- The bit that the test looks at in place of `distinction`. -/
def testedBit (e f : Nat) (exc : ExcMode) (sign : Int) (x : Tfloat) : Bool :=
  if kindOf e f exc x = .nan then decide (magOf e f x % 2 ^ (f - 1) ≠ 0) else sign != 0

theorem testedBit_nan (sign : Int) (hk : kindOf e f exc x = .nan) :
    testedBit e f exc sign x = decide (magOf e f x % 2 ^ (f - 1) ≠ 0) := if_pos hk

theorem testedBit_number (sign : Int) {k : FpKind} (hk : kindOf e f exc x = k) (hne : k ≠ .nan) :
    testedBit e f exc sign x = (sign != 0) := if_neg (hk ▸ hne)

/-- The fields of an encoding, as the test reads them. -/
theorem tested_fields (x : Tfloat) (exc : ExcMode) (he : e < 64) (hf : f < 64) :
    (((x >>> f) &&& ones e) == 0) = decide (magOf e f x < 2 ^ f) ∧
      ((x &&& ones f) == 0) = decide (magOf e f x % 2 ^ f = 0) ∧
      (exc == .std && ((x >>> f) &&& ones e) == ones e) = decide (Special e f exc x) ∧
      (((x &&& ones f) &&& ones (f - 1)) != 0) = decide (magOf e f x % 2 ^ (f - 1) ≠ 0) := by
  have hexp : ((x >>> f) &&& ones e).toNat = magOf e f x / 2 ^ f := toNat_extractFloatExp x he
  have hfrac : (x &&& ones f).toNat = magOf e f x % 2 ^ f := toNat_extractFloatFrac x hf
  refine ⟨?_, ?_, ?_, ?_⟩
  · rw [word_eq_zero_iff, hexp, decide_eq_decide, Nat.div_eq_zero_iff]
    exact or_iff_right (Nat.two_pow_pos f).ne'
  · rw [word_eq_zero_iff, hfrac]
  · have hstd : (exc == .std) = decide (exc = .std) := by cases exc <;> rfl
    rw [expMax_iff he (magOf_lt e f x) hexp, hstd, ← Bool.decide_and]
    rfl
  · rw [word_ne_zero_iff, toNat_and_ones _ (by omega), hfrac,
      Nat.mod_mod_of_dvd _ (Nat.pow_dvd_pow 2 (Nat.sub_le f 1))]

/-- The test asks for the class with the bit it looks at. -/
theorem llvmKernelFpclassify_eq (he0 : 0 < e) (he : e < 64) (hf : f < 64) (mask : BitVec 32)
    (sign : Int) : llvmKernelFpclassify x mask e f exc sign =
      ((kindOf e f exc x).classOf (testedBit e f exc sign x)).inMask mask := by
  obtain ⟨hexp, hfrac, hmax, hquiet⟩ := tested_fields x exc he hf
  have hinf := infMag_pos (f := f) he0
  unfold llvmKernelFpclassify
  dsimp only
  rw [hexp, hfrac, hmax, hquiet]
  by_cases hs : Special e f exc x
  · have hge := hs.2
    have hexp0 : ¬ magOf e f x < 2 ^ f := by omega
    by_cases hn : IsNaN e f x
    · have hk : kindOf e f exc x = .nan := kindOf_eq_nan_iff.mpr ⟨hs, hn⟩
      have hmod := frac_ne_zero_of_isNaN hn
      rw [testedBit_nan sign hk, hk]
      by_cases hq : magOf e f x % 2 ^ (f - 1) = 0 <;>
        simp [hs, hexp0, hmod, hq, FpKind.classOf]
    · have hk : kindOf e f exc x = .inf := by simp [kindOf, hs, hn]
      have hi : magOf e f x = infMag e f := Nat.le_antisymm (Nat.not_lt.mp hn) hge
      have hmod : magOf e f x % 2 ^ f = 0 := by
        rw [hi, infMag, Nat.mul_mod_left]
      rw [testedBit_number sign hk (by simp), hk]
      cases hb : (sign != 0) <;> simp [hs, hexp0, hmod, FpKind.classOf]
  · by_cases hlt : magOf e f x < 2 ^ f
    · by_cases hz : magOf e f x = 0
      · have hk : kindOf e f exc x = .zero := by simp [kindOf, hs, hz]
        rw [testedBit_number sign hk (by simp), hk]
        cases hb : (sign != 0) <;> simp [hs, hz, FpKind.classOf]
      · have hk : kindOf e f exc x = .subnormal := by simp [kindOf, hs, hz, hlt]
        have hmod : magOf e f x % 2 ^ f ≠ 0 := by rwa [Nat.mod_eq_of_lt hlt]
        rw [testedBit_number sign hk (by simp), hk]
        cases hb : (sign != 0) <;> simp [hs, hlt, hmod, FpKind.classOf]
    · have hz : magOf e f x ≠ 0 := by have := Nat.two_pow_pos f; omega
      have hk : kindOf e f exc x = .normal := by simp [kindOf, hs, hz, hlt]
      rw [testedBit_number sign hk (by simp), hk]
      cases hb : (sign != 0) <;> simp [hs, hlt, FpKind.classOf]

/-- With a sign bit the test goes wrong where it looks at a different bit. -/
theorem misclassified_iff :
    Misclassified e f exc x ↔ distinction e f exc x ≠ testedBit e f exc (-1) x := by
  unfold Misclassified
  split_ifs with hn
  · have hk := kindOf_eq_nan_iff.mpr hn
    rw [distinction_nan hk, testedBit_nan (-1) hk]
  · have hk : kindOf e f exc x ≠ .nan := fun h => hn (kindOf_eq_nan_iff.mp h)
    rw [distinction_number rfl hk, testedBit_number (-1) rfl hk]
    cases signOf e f x <;> simp

/-- A mask asks the same of two classes of a kind if they are the same, or if it has both or
neither. -/
theorem FpKind.inMask_iff (k : FpKind) (mask : BitVec 32) (b b' : Bool) :
    (((k.classOf b').inMask mask = true ↔ (k.classOf b).inMask mask = true) ↔
      ¬ b ≠ b' ∨ (k.classOf b).inMask mask = (k.classOf b).opposite.inMask mask) := by
  rw [k.opposite_classOf, ← Bool.eq_iff_iff]
  cases b <;> cases b' <;> simp [eq_comm]

/-- The class test is right exactly where it does not take the encoding for one of another
class that the mask tells apart. -/
theorem llvmKernelFpclassify_exact_iff (h : FormatBounds e f) (mask : BitVec 32) :
    ∃ c, (∀ c', Belongs e f exc x c' ↔ c' = c) ∧
      ((llvmKernelFpclassify x mask e f exc (-1) = true ↔ c.inMask mask = true) ↔
        ¬ Misclassified e f exc x ∨ c.inMask mask = c.opposite.inMask mask) := by
  have he4 := h.exp_ge
  have he := h.exp_le
  have hf := h.frac_le
  refine ⟨(kindOf e f exc x).classOf (distinction e f exc x), belongs_iff (by omega), ?_⟩
  rw [llvmKernelFpclassify_eq (by omega) (by omega) (by omega), misclassified_iff]
  exact FpKind.inMask_iff _ _ _ _

end Class

/-- Minus one in single precision, tested for the negative numbers. -/
theorem llvmKernelFpclassify_exact_minusOne :
    ∃ c, (∀ c', Belongs 8 23 .std 0xbf800000 c' ↔ c' = c) ∧
      (llvmKernelFpclassify 0xbf800000 0x003c 8 23 .std (-1) = true ↔
        c.inMask 0x003c = true) := by
  have h := @llvmKernelFpclassify_exact_iff 8 23 .std 0xbf800000
    ⟨by decide, by decide, by decide, by decide⟩ 0x003c
  exact h.imp fun c hc => ⟨hc.1, hc.2.mpr (.inl (by decide))⟩

/-- One in single precision is a positive normal number, and the test denies it; a quiet NaN
with the top fraction bit only is taken for a signaling one. -/
theorem llvmKernelFpclassify_wrong :
    FormatBounds 8 23 ∧
      (IsEncoding 8 23 0x3f800000 ∧ Belongs 8 23 .std 0x3f800000 .posnormal ∧
        llvmKernelFpclassify 0x3f800000 (FpClass.mask .posnormal) 8 23 .std (-1) = false) ∧
      (IsEncoding 8 23 0x7fc00000 ∧ Belongs 8 23 .std 0x7fc00000 .qnan ∧
        llvmKernelFpclassify 0x7fc00000 (FpClass.mask .qnan) 8 23 .std (-1) = false) := by
  refine ⟨⟨by decide, by decide, by decide, by decide⟩, ⟨by decide, ⟨?_, ?_, ?_⟩, by decide⟩,
    ⟨by decide, ⟨?_, ?_, ?_⟩, by decide⟩⟩ <;> decide

end Bambu.Libbambu.Softfloat
