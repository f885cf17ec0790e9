/-
  Bambu.IRAnalysis.Constdivmul.KcmConstmul

  `kcm_constmul.hpp`: multiplication by a constant through lookup tables, one table for
  each bit of the product of the constant with a chunk of the operand.

  `uint64_t` values are natural numbers below 2 ^ 64, `int64_t` values are integers; the
  negation of the coefficient is the one place where signed arithmetic may overflow, and
  has no value there.
-/

import Bambu.Math.BitTable
import Bambu.Math.Residue

namespace Bambu
namespace KcmConstmul

open Bambu.Math

/-! ## The source -/

def maskForWidth (width : Nat) : Nat :=
  if width ≥ 64 then 2 ^ 64 - 1 else if width = 0 then 0 else (1 <<< width) - 1

def truncUnsigned (value width : Nat) : Nat := value &&& maskForWidth width

/-- `static_cast<uint64_t>` of an `int64_t`. -/
def toUInt64 (value : Int) : Nat := (value % 2 ^ 64).toNat

/-- `static_cast<int64_t>` of a `uint64_t`. -/
def toInt64 (value : Nat) : Int := signedResidue 64 value

def truncSigned (value : Int) (width : Nat) : Int :=
  if width ≥ 64 then value
  else if width = 0 then 0
  else
    let mask := maskForWidth width
    let sign := 1 <<< (width - 1)
    let v := toUInt64 value &&& mask
    if v &&& sign ≠ 0 then toInt64 (v ||| (2 ^ 64 - 1 - mask)) else toInt64 v

/-- Bit `v` is bit `bit_index` of `coeff * v`. -/
def buildKcmLutConstant (coeff alpha bitIndex width : Nat) : Nat :=
  if alpha = 0 ∨ width = 0 then 0
  else
    let entries := 1 <<< alpha
    let mask := if width ≥ 64 then 2 ^ 64 - 1 else (1 <<< width) - 1
    (List.range entries).foldl (fun lutConst v =>
      let prod := coeff * v % 2 ^ 128
      let masked := prod &&& mask
      if (masked >>> bitIndex) &&& 1 ≠ 0 then lutConst ||| (1 <<< v) % 2 ^ 64 else lutConst) 0

/-- The loop over the bits of one partial product. -/
def lookupPartial (uc alpha width xi : Nat) : Nat :=
  (List.range width).foldl (fun product b =>
    let lutConst := buildKcmLutConstant uc alpha b width
    let bit := (lutConst >>> xi) &&& 1
    product ||| (bit <<< b) % 2 ^ 64) 0

def kcmMulUnsigned (x coeff width alpha : Nat) : Nat :=
  if alpha = 0 ∨ width = 0 then 0
  else
    let mask := maskForWidth width
    let ux := truncUnsigned x width
    let uc := truncUnsigned coeff width
    let q := (width + alpha - 1) / alpha
    let chunkMask := if alpha ≥ 64 then 2 ^ 64 - 1 else (1 <<< alpha) - 1
    let result := (List.range q).foldl (fun result chunk =>
      let baseBit := chunk * alpha
      let xi := (ux >>> baseBit) &&& chunkMask
      let product := lookupPartial uc alpha width xi
      if baseBit < 64 then
        let shifted := (product <<< baseBit) % 2 ^ 64 &&& mask
        (result + shifted) % 2 ^ 64 &&& mask
      else result) 0
    result &&& mask

/-- `-coeff`, which is no `int64_t` for the least value. -/
def negateInt64 (coeff : Int) : Option Int := if coeff = -2 ^ 63 then none else some (-coeff)

def kcmMulSigned (x coeff : Int) (width alpha : Nat) : Option Int :=
  if alpha = 0 ∨ width = 0 then some 0
  else
    let neg := coeff < 0
    (if neg then negateInt64 coeff else some coeff).map fun magnitude =>
      let absCoeff := truncUnsigned (toUInt64 magnitude) width
      let ux := truncUnsigned (toUInt64 (truncSigned x width)) width
      let res := kcmMulUnsigned ux absCoeff width alpha
      let res := if neg then truncUnsigned ((2 ^ 64 - 1 - res + 1) % 2 ^ 64) width else res
      truncSigned (toInt64 res) width

/-! ## Words -/

section Words

variable {width : Nat} (hpos : 1 ≤ width) (hle : width ≤ 64)
include hpos hle

theorem maskForWidth_eq : maskForWidth width = 2 ^ width - 1 := by
  unfold maskForWidth
  split
  · rw [show width = 64 by omega]
  · rw [if_neg (by omega), Nat.one_shiftLeft]

theorem truncUnsigned_eq (value : Nat) : truncUnsigned value width = value % 2 ^ width := by
  unfold truncUnsigned
  rw [maskForWidth_eq hpos hle, Nat.and_two_pow_sub_one_eq_mod]

end Words

/-! ## Tables -/

/-- `(x >> i) & 1`. -/
theorem shiftRight_and_one (x i : Nat) : (x >>> i) &&& 1 = (x.testBit i).toNat := by
  rw [Nat.and_one_is_mod, Nat.shiftRight_eq_div_pow, Nat.toNat_testBit]

/-- The table of a bit holds that bit of every product. -/
theorem testBit_buildKcmLutConstant {coeff alpha bitIndex width v : Nat} (hcoeff : coeff < 2 ^ 64)
    (halpha : 1 ≤ alpha) (halpha' : alpha ≤ 6) (hpos : 1 ≤ width) (hle : width ≤ 64)
    (hbit : bitIndex < width) (hv : v < 2 ^ alpha) :
    (buildKcmLutConstant coeff alpha bitIndex width).testBit v = (coeff * v).testBit bitIndex := by
  have hsix : 2 ^ alpha ≤ 2 ^ 6 := Nat.pow_le_pow_right (by decide) halpha'
  have hmask : (if width ≥ 64 then 2 ^ 64 - 1 else (1 <<< width) - 1) = 2 ^ width - 1 := by
    split
    · rw [show width = 64 by omega]
    · rw [Nat.one_shiftLeft]
  unfold buildKcmLutConstant
  rw [if_neg (by omega)]
  dsimp only
  rw [hmask, Nat.one_shiftLeft, testBit_foldl_or fun v => (coeff * v).testBit bitIndex]
  · simp [hv]
  · intro acc u hu
    have hprod : coeff * u < 2 ^ 128 := by
      have hmul : coeff * u ≤ 2 ^ 64 * 2 ^ 6 := Nat.mul_le_mul hcoeff.le (by omega)
      omega
    have hone : 1 <<< u < 2 ^ 64 := by
      rw [Nat.one_shiftLeft]
      exact Nat.pow_lt_pow_right (by decide) (by omega)
    rw [Nat.mod_eq_of_lt hprod, Nat.mod_eq_of_lt hone, shiftRight_and_one,
      Nat.and_two_pow_sub_one_eq_mod, Nat.testBit_mod_two_pow, Nat.one_shiftLeft]
    cases hset : (coeff * u).testBit bitIndex with
    | false => simp
    | true => simp [hbit]

/-- The lookups of one chunk put its product together. -/
theorem lookupPartial_eq {uc alpha width xi : Nat} (huc : uc < 2 ^ 64) (halpha : 1 ≤ alpha)
    (halpha' : alpha ≤ 6) (hpos : 1 ≤ width) (hle : width ≤ 64) (hxi : xi < 2 ^ alpha) :
    lookupPartial uc alpha width xi = uc * xi % 2 ^ width := by
  refine foldl_or_eq (Nat.mod_lt _ (Nat.two_pow_pos _)) fun acc b hb => ?_
  have hbit : ((uc * xi).testBit b).toNat <<< b < 2 ^ 64 := by
    have hpow : 2 ^ b < 2 ^ 64 := Nat.pow_lt_pow_right (by decide) (by omega)
    rw [Nat.shiftLeft_eq]
    cases (uc * xi).testBit b with
    | false => simp
    | true => simpa using hpow
  dsimp only
  rw [shiftRight_and_one, testBit_buildKcmLutConstant huc halpha halpha' hpos hle hb hxi,
    Nat.mod_eq_of_lt hbit, Nat.shiftLeft_eq, Nat.testBit_mod_two_pow, decide_eq_true hb,
    Bool.true_and]

/-! ## Chunks -/

/-- What the rounds have added up: the product with the chunks seen so far. -/
theorem kcmMulUnsigned_eq {x coeff width alpha : Nat} (hpos : 1 ≤ width) (hle : width ≤ 64)
    (halpha : 1 ≤ alpha) (halpha' : alpha ≤ 6) :
    kcmMulUnsigned x coeff width alpha = (x % 2 ^ width) * (coeff % 2 ^ width) % 2 ^ width := by
  have hpow : 2 ^ width ≤ 2 ^ 64 := Nat.pow_le_pow_right (by decide) hle
  have hmask : (if alpha ≥ 64 then 2 ^ 64 - 1 else (1 <<< alpha) - 1) = 2 ^ alpha - 1 := by
    rw [if_neg (by omega), Nat.one_shiftLeft]
  unfold kcmMulUnsigned
  rw [if_neg (by omega)]
  dsimp only
  rw [hmask, truncUnsigned_eq hpos hle, truncUnsigned_eq hpos hle, maskForWidth_eq hpos hle]
  have hx : x % 2 ^ width < 2 ^ width := Nat.mod_lt _ (Nat.two_pow_pos _)
  have hc : coeff % 2 ^ width < 2 ^ 64 := (Nat.mod_lt _ (Nat.two_pow_pos _)).trans_le hpow
  generalize x % 2 ^ width = ux at *
  generalize coeff % 2 ^ width = uc at *
  have hq : (width + alpha - 1) / alpha * alpha < width + alpha := by
    have hle := Nat.div_mul_le_self (width + alpha - 1) alpha
    omega
  have hcover : width ≤ (width + alpha - 1) / alpha * alpha := by
    have hlt := Nat.lt_div_mul_add (a := width + alpha - 1) (b := alpha) (by omega)
    omega
  generalize (width + alpha - 1) / alpha = q at *
  have hrun : ∀ n ≤ q, (List.range n).foldl (fun result chunk =>
      if chunk * alpha < 64 then
        (result + ((lookupPartial uc alpha width ((ux >>> (chunk * alpha)) &&& 2 ^ alpha - 1) <<<
          (chunk * alpha)) % 2 ^ 64 &&& 2 ^ width - 1)) % 2 ^ 64 &&& 2 ^ width - 1
      else result) 0 = ux % 2 ^ (n * alpha) * uc % 2 ^ width := by
    intro n
    induction n with
    | zero => simp [Nat.mod_one]
    | succ n ih =>
      intro hn
      have hbase : n * alpha < 64 := by
        have hmul := Nat.mul_le_mul_right alpha hn
        rw [Nat.succ_mul] at hmul
        omega
      have hxi : ux / 2 ^ (n * alpha) % 2 ^ alpha < 2 ^ alpha := Nat.mod_lt _ (Nat.two_pow_pos _)
      have hdvd : 2 ^ width ∣ 2 ^ 64 := pow_dvd_pow 2 hle
      rw [List.range_succ, List.foldl_append, ih (by omega), List.foldl_cons, List.foldl_nil,
        if_pos hbase, Nat.and_two_pow_sub_one_eq_mod, Nat.and_two_pow_sub_one_eq_mod,
        Nat.and_two_pow_sub_one_eq_mod, Nat.shiftRight_eq_div_pow,
        lookupPartial_eq hc halpha halpha' hpos hle hxi, Nat.shiftLeft_eq,
        Nat.mod_mod_of_dvd _ hdvd, Nat.mod_mod_of_dvd _ hdvd, Nat.mod_mul_mod, ← Nat.add_mod,
        mod_chunk_succ]
      congr 1
      ring
  rw [hrun q (le_refl q), Nat.and_two_pow_sub_one_eq_mod, Nat.mod_mod,
    Nat.mod_eq_of_lt (hx.trans_le (Nat.pow_le_pow_right (by decide) hcover))]

/-! ## Signed words -/

theorem toUInt64_modEq (value : Int) {width : Nat} (hle : width ≤ 64) :
    (toUInt64 value : Int) ≡ value [ZMOD 2 ^ width] := by
  have hdvd : (2 : Int) ^ width ∣ 2 ^ 64 := pow_dvd_pow 2 hle
  unfold toUInt64
  rw [Int.toNat_of_nonneg (Int.emod_nonneg _ (by decide))]
  exact (Int.mod_modEq value _).of_dvd hdvd

/-- The sign bit of a word of `width` bits. -/
theorem and_signBit {v width : Nat} (hpos : 1 ≤ width) (hv : v < 2 ^ width) :
    v &&& 1 <<< (width - 1) ≠ 0 ↔ 2 ^ (width - 1) ≤ v := by
  have hpow : 2 ^ width = 2 * 2 ^ (width - 1) := by
    rw [← pow_succ']
    congr 1
    omega
  have hhalf : 0 < 2 ^ (width - 1) := Nat.two_pow_pos _
  have hbit : v.testBit (width - 1) = decide (2 ^ (width - 1) ≤ v) := by
    rw [Nat.testBit_eq_decide_div_mod_eq]
    by_cases hge : 2 ^ (width - 1) ≤ v
    · have hdiv : v / 2 ^ (width - 1) = 1 :=
        Nat.div_eq_of_lt_le (by omega) (by omega)
      simp [hdiv, hge]
    · simp [Nat.div_eq_of_lt (not_le.mp hge), hge]
  rw [Nat.one_shiftLeft, Nat.and_two_pow, hbit]
  by_cases hge : 2 ^ (width - 1) ≤ v
  · simp [hge]
  · simp [hge]

/-- `truncSigned` reads the low bits in two's complement. -/
theorem truncSigned_eq {value : Int} {width : Nat} (hpos : 1 ≤ width) (hle : width ≤ 64)
    (hvalue : value ∈ signedRange 64) : truncSigned value width = signedResidue width value := by
  unfold truncSigned
  split
  · have hwidth : width = 64 := by omega
    subst hwidth
    exact (signedResidue_of_mem hpos hvalue.1 hvalue.2).symm
  rename_i hlt
  rw [if_neg (by omega), maskForWidth_eq hpos hle]
  dsimp only
  rw [Nat.and_two_pow_sub_one_eq_mod]
  have hv : toUInt64 value % 2 ^ width < 2 ^ width := Nat.mod_lt _ (Nat.two_pow_pos _)
  have hcongr : ((toUInt64 value % 2 ^ width : Nat) : Int) ≡ value [ZMOD 2 ^ width] := by
    push_cast
    exact (Int.mod_modEq _ _).trans (toUInt64_modEq value hle)
  generalize toUInt64 value % 2 ^ width = v at *
  have htwo := two_mul_half (w := width) hpos
  have hhalf : ((2 ^ (width - 1) : Nat) : Int) = half width := by
    unfold half
    push_cast
    rfl
  have hword : half width ≤ half 64 := half_le_half hle
  have hv' : (v : Int) < 2 * half width := by
    rw [htwo]
    exact_mod_cast hv
  symm
  split
  · rename_i hsign
    have hge := (and_signBit hpos hv).mp hsign
    have hge' : half width ≤ v := by
      rw [← hhalf]
      exact_mod_cast hge
    have hrange : (v : Int) - 2 * half width ∈ signedRange width := ⟨by omega, by omega⟩
    have hwide : (v : Int) - 2 * half width ∈ signedRange 64 :=
      ⟨le_trans (neg_le_neg hword) hrange.1, lt_of_lt_of_le hrange.2 hword⟩
    -- The bits above the width are set, which takes a turn off.
    have hhigh : 2 ^ 64 - 1 - (2 ^ width - 1) = 2 ^ width * (2 ^ (64 - width) - 1) := by
      rw [Nat.mul_sub, ← pow_add, Nat.mul_one, show width + (64 - width) = 64 by omega]
      have hpos := Nat.two_pow_pos width
      omega
    have hor : ((v ||| (2 ^ 64 - 1 - (2 ^ width - 1)) : Nat) : Int) =
        v - 2 * half width + 2 * half 64 := by
      have hone : 1 ≤ 2 ^ (64 - width) := Nat.one_le_two_pow
      have hpow : (2 : Int) ^ width * 2 ^ (64 - width) = 2 * half 64 := by
        rw [two_mul_half (by decide), ← pow_add, show width + (64 - width) = 64 by omega]
      rw [hhigh, Nat.or_comm, ← Nat.two_pow_add_eq_or_of_lt hv, htwo, ← hpow]
      push_cast [Nat.cast_sub hone]
      ring
    have hvalue : toInt64 (v ||| (2 ^ 64 - 1 - (2 ^ width - 1))) = v - 2 * half width := by
      rw [toInt64, hor, signedResidue_add_turn (by decide)]
      exact signedResidue_of_mem (by decide) hwide.1 hwide.2
    rw [hvalue]
    refine signedResidue_eq_of_modEq hpos hrange ?_
    rw [htwo]
    exact Int.sub_modulus_modEq_iff.mpr hcongr
  · rename_i hsign
    have hlt := mt (and_signBit hpos hv).mpr hsign
    have hvalue : toInt64 v = v := signedResidue_of_mem (by decide) (by omega) (by omega)
    rw [hvalue]
    exact signedResidue_eq_of_modEq hpos ⟨by omega, by omega⟩ hcongr

/-- Where the coefficient can be negated, the product is the signed residue. -/
theorem kcmMulSigned_eq {x c : Int} {width alpha : Nat} (hpos : 1 ≤ width) (hle : width ≤ 64)
    (halpha : 1 ≤ alpha) (halpha' : alpha ≤ 6) (hx : x ∈ signedRange 64) (hc : c ≠ -2 ^ 63) :
    kcmMulSigned x c width alpha = some (signedResidue width (x * c)) := by
  have hmagnitude : (if c < 0 then negateInt64 c else some c) = some (if c < 0 then -c else c) := by
    unfold negateInt64
    rw [if_neg hc]
    split <;> rfl
  unfold kcmMulSigned
  rw [if_neg (by omega)]
  dsimp only
  rw [hmagnitude, Option.map_some, truncSigned_eq hpos hle hx, truncUnsigned_eq hpos hle,
    truncUnsigned_eq hpos hle, truncUnsigned_eq hpos hle, kcmMulUnsigned_eq hpos hle halpha halpha']
  congr 1
  have hword : ∀ res : Nat, truncSigned (toInt64 res) width = signedResidue width res := by
    intro res
    unfold toInt64
    rw [truncSigned_eq hpos hle (signedResidue_mem (by decide) _), signedResidue_of_le hle]
  -- Both factors are reduced to the width before they are multiplied.
  have hux : ((toUInt64 (signedResidue width x) : Nat) : Int) ≡ x [ZMOD 2 ^ width] :=
    (toUInt64_modEq _ hle).trans (signedResidue_modEq width x)
  have huc := toUInt64_modEq (if c < 0 then -c else c) hle
  generalize toUInt64 (signedResidue width x) = ux at *
  generalize toUInt64 (if c < 0 then -c else c) = uc at *
  have hres : ((ux % 2 ^ width % 2 ^ width * (uc % 2 ^ width % 2 ^ width) % 2 ^ width : Nat) : Int) ≡
      x * (if c < 0 then -c else c) [ZMOD 2 ^ width] := by
    rw [Nat.mod_mod, Nat.mod_mod, ← Nat.mul_mod]
    push_cast
    exact (Int.mod_modEq _ _).trans (hux.mul huc)
  have hlt : ux % 2 ^ width % 2 ^ width * (uc % 2 ^ width % 2 ^ width) % 2 ^ width < 2 ^ 64 :=
    (Nat.mod_lt _ (Nat.two_pow_pos _)).trans_le (Nat.pow_le_pow_right (by decide) hle)
  generalize ux % 2 ^ width % 2 ^ width * (uc % 2 ^ width % 2 ^ width) % 2 ^ width = res at *
  rw [hword]
  refine signedResidue_congr ?_
  split
  · rename_i hneg
    rw [if_pos hneg] at hres
    have hdvd : 2 ^ width ∣ 2 ^ 64 := pow_dvd_pow 2 hle
    have hturn : ((2 ^ 64 - 1 - res + 1 : Nat) : Int) = -res + 2 ^ 64 := by omega
    rw [Nat.mod_mod_of_dvd _ hdvd]
    calc (((2 ^ 64 - 1 - res + 1) % 2 ^ width : Nat) : Int)
        ≡ ((2 ^ 64 - 1 - res + 1 : Nat) : Int) [ZMOD 2 ^ width] := by
          push_cast
          exact Int.mod_modEq _ _
      _ = -res + 2 ^ 64 := hturn
      _ ≡ -(res : Int) [ZMOD 2 ^ width] :=
          Int.add_modEq_right.of_dvd (pow_dvd_pow 2 hle)
      _ ≡ -(x * -c) [ZMOD 2 ^ width] := hres.neg
      _ = x * c := by ring
  · rename_i hneg
    rw [if_neg hneg] at hres
    exact hres

/-- The reference multipliers compute the product modulo `2 ^ w`, unless the signed one
has to negate -2 ^ 63. -/
theorem kcmMul_exact_iff (w alpha x c : Nat) (sx sc : Int) (hw : 1 ≤ w) (hw' : w ≤ 64)
    (halpha : 1 ≤ alpha) (halpha' : alpha ≤ 6) (hx : sx ∈ signedRange w)
    (hc : sc ∈ signedRange w) :
    (kcmMulUnsigned x c w alpha = (x % 2 ^ w) * (c % 2 ^ w) % 2 ^ w ∧
      kcmMulSigned sx sc w alpha = some (signedResidue w (sx * sc))) ↔ sc ≠ -2 ^ 63 := by
  constructor
  · rintro ⟨-, hsigned⟩ rfl
    unfold kcmMulSigned at hsigned
    rw [if_neg (by omega)] at hsigned
    cases hsigned
  · intro hne
    have hhalf := half_le_half hw'
    have hx' : sx ∈ signedRange 64 :=
      ⟨le_trans (neg_le_neg hhalf) hx.1, lt_of_lt_of_le hx.2 hhalf⟩
    exact ⟨kcmMulUnsigned_eq hw hw' halpha halpha',
      kcmMulSigned_eq hw hw' halpha halpha' hx' hne⟩

example : kcmMulUnsigned 13 11 6 4 = 13 * 11 % 2 ^ 6 := by decide +kernel

theorem kcmMul_exact_iff_eight : kcmMulUnsigned 200 3 8 3 = 200 % 2 ^ 8 * (3 % 2 ^ 8) % 2 ^ 8 ∧
    kcmMulSigned (-56) (-128) 8 3 = some (signedResidue 8 (-56 * -128)) :=
  (kcmMul_exact_iff 8 3 200 3 (-56) (-128) (by decide) (by decide) (by decide) (by decide)
    (by constructor <;> decide) (by constructor <;> decide)).mpr (by decide)

/-- The negated coefficient is 2 ^ 63, which is no `int64_t`. -/
theorem kcmMulSigned_not_exact :
    kcmMulSigned 1 (-2 ^ 63) 64 6 ≠ some (signedResidue 64 (1 * -2 ^ 63)) := by
  decide +kernel

end KcmConstmul
end Bambu
