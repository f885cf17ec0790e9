/-
  Bambu.Libbambu.Softfloat.Cast

  `__float_cast`.  The exponent is moved by the difference of the biases, with a range
  check where it can leave the output format, and the fraction is cut or padded.  The
  exponent biases are passed with their sign, `-127` for binary32.

  The rounding bit is joined to the fraction with an OR and does not look at the last bit
  of the fraction, and the range check also returns for the encodings that have no
  exponent to check (`CastLoses`).
-/

import Bambu.Libbambu.Softfloat.Common

namespace Bambu.Libbambu.Softfloat

open Bambu.Math

/-- The arguments that describe a format, in the order of `IEEE64_SPEC_ARGS`. -/
structure Spec where
  expBits : Nat
  fracBits : Nat
  expBias : Int
  rnd : RndMode
  exc : ExcMode
  hasOne : Bool
  hasSubnorm : Bool
  sign : Int

/-- `needed_bits(in, count)`. -/
def neededBits (x : Int) : Nat :=
  let i : BitVec 32 := BitVec.ofInt 32 (if x > 0 then x else -x)
  let lz := countLeadingZeroMacro 32 (BitVec.ofInt 64 x)
  let lz := if x > 0 then lz else lz + (if i &&& (i - 1) ≠ 0 then 1 else 0)
  32 - lz

/-- What the rebias leaves: `FExp`, `Frac` and `ExpOverflow`. -/
structure Rebiased where
  FExp : Udatatype
  Frac : Udatatype
  ExpOverflow : Bool

/-- The differences of the biases and of the exponent ranges. -/
def biasDiff (i o : Spec) : Int := i.expBias - o.expBias

def rangeDiff (i o : Spec) : Int :=
  ((2 ^ o.expBits : Nat) - if o.hasSubnorm then 0 else 1) -
    ((2 ^ i.expBits : Nat) - if i.hasSubnorm then 0 else 1)

/-- `__biasDiff < 0 || __biasDiff > __rangeDiff`: the exponent can leave the output format. -/
def rangeChecked (i o : Spec) : Bool := biasDiff i o < 0 || biasDiff i o > rangeDiff i o

/-- `__exp_type_size`. -/
def expTypeSize (i o : Spec) : Nat :=
  let expBitsDiff :=
    if i.expBits > o.expBits then i.expBits - o.expBits else o.expBits - i.expBits
  max (max i.expBits o.expBits + if expBitsDiff = 1 then 1 else 0)
    (max (neededBits i.expBias) (neededBits o.expBias))

/-- The rebias of the exponent; `none` is the return of zero on an invalid conversion. -/
def castRebias (bits Exp Frac : Udatatype) (i o : Spec) : Option Rebiased :=
  if i.expBits ≠ o.expBits ∨ i.expBias ≠ o.expBias then
    let FExp := Exp + BitVec.ofInt 64 (biasDiff i o)
    let size := expTypeSize i o
    let expOverflow := (FExp >>> o.expBits) &&& ones (size - o.expBits - 1)
    let ExpUnderflow := (FExp >>> (size - 1)) &&& 1 != 0
    let ExpOverflow := expOverflow != 0
    if rangeChecked i o && (ExpOverflow || ExpUnderflow) && bits != 0 then none
    else
      let r : Rebiased :=
        if rangeChecked i o then
          let ExExp := if ExpUnderflow then 0 else ones o.expBits
          let FExp := FExp &&& ones o.expBits
          { FExp := if ExpOverflow then ExExp else FExp
            Frac := if ExpUnderflow then 0 else Frac
            ExpOverflow := ExpOverflow ^^ ExpUnderflow }
        else { FExp, Frac, ExpOverflow := false }
      let FExp := r.FExp &&& ones o.expBits
      let inputZero := Exp == 0 && r.Frac == 0
      let inputZero := if rangeChecked i o then inputZero || ExpUnderflow else inputZero
      some { r with FExp := if inputZero then 0 else FExp }
  else
    let Frac := if i.hasSubnorm && !o.hasSubnorm then (if Exp == 0 then 0 else Frac) else Frac
    some { FExp := Exp, Frac, ExpOverflow := false }

/-- `SFrac`: the fraction cut to the output width with its rounding bit, or padded. -/
def castFraction (Frac : Udatatype) (inFracBits outFracBits : Nat) (rnd : RndMode) : Udatatype :=
  if inFracBits > outFracBits then
    let bitsDiff := inFracBits - outFracBits
    let SFrac := Frac >>> bitsDiff
    if rnd = .nevn then
      let GuardBit := (Frac >>> (bitsDiff - 1)) &&& 1 != 0
      let RoundBit := bitsDiff > 1 && (Frac >>> (bitsDiff - 2)) &&& 1 != 0
      let Sticky := bitsDiff > 2 && Frac &&& ones (bitsDiff - 2) != 0
      let LSB := RoundBit || Sticky
      SFrac ||| word (GuardBit && LSB)
    else SFrac
  else if inFracBits < outFracBits then Frac <<< (outFracBits - inFracBits)
  else Frac

/-- `__float_cast`. -/
def floatCast (bits : Tfloat) (i o : Spec) : Tfloat :=
  let Sign := bits >>> (i.expBits + i.fracBits)
  let Exp := (bits >>> i.fracBits) &&& ones i.expBits
  let Frac := bits &&& ones i.fracBits
  match castRebias bits Exp Frac i o with
  | none => 0
  | some r =>
    let SFrac := castFraction r.Frac i.fracBits o.fracBits o.rnd
    if o.sign ≠ -1 ∧ i.sign ≠ o.sign ∧ i.sign ≠ -1 then 0
    else
      let outNan := o.sign ≠ -1 && i.sign ≠ o.sign && Sign != (if o.sign = 1 then 1 else 0)
      let outNan := outNan || (i.exc = .std && Exp == ones i.expBits)
      let RExp := (if outNan then ones o.expBits else r.FExp) <<< o.fracBits
      let outNan := outNan || (rangeChecked i o && r.ExpOverflow)
      let NFrac :=
        if o.exc = .std then
          if i.exc = .std then
            if Exp == ones i.expBits && r.Frac != 0 then ones o.fracBits else 0
          else 0
        else ones o.fracBits
      let RFrac := if outNan then NFrac else SFrac
      let outVal := RExp ||| RFrac
      if o.sign = -1 then
        let FSign :=
          if i.sign ≠ -1 then
            (if i.sign = 1 then (1 : Udatatype) <<< (o.expBits + o.fracBits) else 0)
          else Sign <<< (o.expBits + o.fracBits)
        outVal ||| FSign
      else outVal

/-- A format with a sign bit, an implicit one and the standard bias. -/
def stdSpec (e f : Nat) (rnd : RndMode) (subnorm : Bool) : Spec :=
  { expBits := e, fracBits := f, expBias := -(2 ^ (e - 1) - 1 : Nat), rnd, exc := .std
    hasOne := true, hasSubnorm := subnorm, sign := -1 }

/-! ## The fraction -/

section Fraction

/-- The guard bit with a bit below it: more than half of the unit is dropped. -/
theorem guard_and_below_iff (Frac : Udatatype) {d : Nat} (hd : 0 < d) (hd64 : d < 64) :
    ((Frac >>> (d - 1)) &&& 1 != 0 && ((decide (d > 1) && (Frac >>> (d - 2)) &&& 1 != 0) ||
      (decide (d > 2) && Frac &&& ones (d - 2) != 0))) =
        decide (2 ^ d < 2 * (Frac.toNat % 2 ^ d)) := by
  have hbit : ∀ k, ((Frac >>> k) &&& 1 != 0) = decide (Frac.toNat / 2 ^ k % 2 ≠ 0) := by
    intro k
    have hselect := toNat_selectBit Frac k
    unfold selectBit at hselect
    rw [word_ne_zero_iff, hselect]
  rw [hbit, hbit, word_ne_zero_iff, toNat_and_ones _ (by omega)]
  rcases Nat.eq_or_lt_of_le (show 1 ≤ d from hd) with rfl | hd1
  · -- One dropped bit is at most half of the unit.
    have hmod := Nat.mod_lt Frac.toNat (show 0 < 2 ^ 1 by decide)
    rw [decide_eq_false (show ¬ 1 > 1 by decide), decide_eq_false (show ¬ 1 > 2 by decide),
      Bool.false_and, Bool.false_and, Bool.or_false, Bool.and_false,
      decide_eq_false (by omega)]
  obtain ⟨k, rfl⟩ : ∃ k, d = k + 2 := ⟨d - 2, by omega⟩
  have hpos := Nat.two_pow_pos k
  obtain ⟨P, hP⟩ : ∃ P, P = 2 ^ k := ⟨_, rfl⟩
  have hlow : (decide (k + 2 > 2) && decide (Frac.toNat % 2 ^ k ≠ 0)) =
      decide (Frac.toNat % 2 ^ k ≠ 0) := by
    rcases Nat.eq_zero_or_pos k with rfl | hk
    · simp [Nat.mod_one]
    · rw [decide_eq_true (show k + 2 > 2 by omega), Bool.true_and]
  have hsplit : Frac.toNat % 2 ^ (k + 2) = Frac.toNat % P + P * (Frac.toNat / P % 4) := by
    rw [Nat.pow_add, Nat.mod_mul, hP]
  have hguard : Frac.toNat / 2 ^ (k + 1) = Frac.toNat / P / 2 := by
    rw [Nat.pow_succ, Nat.div_div_eq_div_mul, hP]
  rw [show k + 2 - 1 = k + 1 by omega, show k + 2 - 2 = k by omega,
    decide_eq_true (show k + 2 > 1 by omega), Bool.true_and, hlow, hsplit, hguard, Nat.pow_add,
    ← hP, ← Bool.decide_or, ← Bool.decide_and, decide_eq_decide]
  rw [← hP] at hpos
  have hmod := Nat.mod_lt Frac.toNat hpos
  generalize Frac.toNat % P = s at *
  generalize Frac.toNat / P = u at *
  have hu := Nat.mod_lt u (show 0 < 4 by decide)
  have hu2 : u / 2 % 2 = u % 4 / 2 := by omega
  have hu1 : u % 2 = u % 4 % 2 := by omega
  rw [hu2, hu1]
  generalize u % 4 = c at *
  interval_cases c <;> simp <;> omega

/-- What the cut fraction is in numbers. -/
def roundedFraction (F fi fo : Nat) (rnd : RndMode) : Nat :=
  if fi ≤ fo then F * 2 ^ (fo - fi)
  else F / 2 ^ (fi - fo) |||
    (if rnd = .nevn ∧ 2 ^ (fi - fo) < 2 * (F % 2 ^ (fi - fo)) then 1 else 0)

theorem toNat_castFraction {Frac : Udatatype} {fi fo : Nat} (hfi : fi < 64) (hfo : fo < 64)
    (h : Frac.toNat < 2 ^ fi) (rnd : RndMode) :
    (castFraction Frac fi fo rnd).toNat = roundedFraction Frac.toNat fi fo rnd := by
  unfold castFraction roundedFraction
  by_cases hcut : fi > fo
  · rw [if_pos hcut, if_neg (show ¬ fi ≤ fo by omega)]
    dsimp only
    rw [guard_and_below_iff Frac (d := fi - fo) (by omega) (by omega)]
    cases rnd with
    | none =>
      rw [if_neg (by decide), if_neg (fun hc => absurd hc.1 (by decide)), Nat.or_zero,
        toNat_shiftRight]
    | nevn =>
      rw [if_pos rfl, BitVec.toNat_or, toNat_shiftRight, toNat_word]
      congr 1
      by_cases hup : 2 ^ (fi - fo) < 2 * (Frac.toNat % 2 ^ (fi - fo))
      · rw [decide_eq_true hup, if_pos ⟨rfl, hup⟩, Bool.toNat_true]
      · rw [decide_eq_false hup, if_neg (fun hc => hup hc.2), Bool.toNat_false]
  · rw [if_neg hcut, if_pos (show fi ≤ fo by omega)]
    split
    · refine toNat_shiftLeft_of_lt (lt_of_lt_of_le
        (Nat.mul_lt_mul_of_pos_right h (Nat.two_pow_pos _)) ?_)
      rw [← Nat.pow_add]
      exact Nat.pow_le_pow_right (by decide) (by omega)
    · rw [show fo - fi = 0 by omega, Nat.pow_zero, Nat.mul_one]

theorem roundedFraction_lt {F fi fo : Nat} (hfo : 0 < fo) (h : F < 2 ^ fi) (rnd : RndMode) :
    roundedFraction F fi fo rnd < 2 ^ fo := by
  unfold roundedFraction
  split
  · rename_i hle
    calc F * 2 ^ (fo - fi) < 2 ^ fi * 2 ^ (fo - fi) :=
          Nat.mul_lt_mul_of_pos_right h (Nat.two_pow_pos _)
      _ = 2 ^ fo := by rw [← Nat.pow_add]; congr 1; omega
  · rename_i hle
    refine Nat.or_lt_two_pow ?_ ?_
    · refine Nat.div_lt_of_lt_mul ?_
      rw [← Nat.pow_add, show fi - fo + fo = fi by omega]
      exact h
    · have htwo : 2 ^ 1 ≤ 2 ^ fo := Nat.pow_le_pow_right (by decide) hfo
      split <;> omega

end Fraction

/-! ## The exponent -/

section Exponent

variable {ei fi eo fo : Nat} {ri ro : RndMode} {si so : Bool} {bits Exp Frac : Udatatype}

theorem expTypeSize_std (hin : FormatBounds ei fi) (hout : FormatBounds eo fo) :
    expTypeSize (stdSpec ei fi ri si) (stdSpec eo fo ro so) = 31 := by
  have hneeded : ∀ e, 4 ≤ e → e ≤ 11 → neededBits (-(2 ^ (e - 1) - 1 : Nat)) = 31 := by
    intro e h4 h11
    interval_cases e <;> decide +kernel
  have hmax : max ei eo ≤ 11 := max_le hin.exp_le hout.exp_le
  unfold expTypeSize stdSpec
  dsimp only
  rw [hneeded ei hin.exp_ge hin.exp_le, hneeded eo hout.exp_ge hout.exp_le, max_self]
  refine max_eq_right ?_
  split <;> split <;> omega

theorem biasDiff_std (ei fi eo fo : Nat) (ri ro : RndMode) (si so : Bool) :
    biasDiff (stdSpec ei fi ri si) (stdSpec eo fo ro so) =
      (2 ^ (eo - 1) : Nat) - (2 ^ (ei - 1) : Nat) := by
  have hi := Nat.two_pow_pos (ei - 1)
  have ho := Nat.two_pow_pos (eo - 1)
  unfold biasDiff stdSpec
  dsimp only
  omega

/-- A wider exponent has at least twice the range. -/
theorem half_range_mono (hlt : ei < eo) (h : FormatBounds ei fi) :
    2 * 2 ^ (ei - 1) ≤ 2 ^ (eo - 1) := by
  rw [← (half_range h).1]
  exact Nat.pow_le_pow_right (by decide) (by omega)

/-- The rebiased exponent, where it is not negative. -/
theorem toNat_rebias {a b : Nat} (h : b ≤ Exp.toNat + a) (hlt : Exp.toNat + a < 2 ^ 64)
    (hb : b < 2 ^ 64) :
    (Exp + BitVec.ofInt 64 ((a : Int) - (b : Int))).toNat = Exp.toNat + a - b := by
  rw [BitVec.toNat_add, BitVec.toNat_ofInt]
  omega

/-- The rebiased exponent, where it is negative. -/
theorem toNat_rebias_neg {a b : Nat} (h : Exp.toNat + a < b) (hb : b < 2 ^ 64) :
    (Exp + BitVec.ofInt 64 ((a : Int) - (b : Int))).toNat = 2 ^ 64 - (b - (Exp.toNat + a)) := by
  rw [BitVec.toNat_add, BitVec.toNat_ofInt]
  omega

theorem castRebias_same : castRebias bits Exp Frac (stdSpec ei fi ri si) (stdSpec ei fo ro so) =
    some { FExp := Exp
           Frac := if si && !so then (if Exp == 0 then 0 else Frac) else Frac
           ExpOverflow := false } := by
  unfold castRebias stdSpec
  rw [if_neg (by simp)]

variable (ri ro si so bits Frac) in
/-- To a wider exponent nothing is checked. -/
theorem castRebias_widen (hin : FormatBounds ei fi) (hout : FormatBounds eo fo) (hlt : ei < eo)
    (hExp : Exp.toNat < 2 ^ ei) :
    ∃ FExp : Udatatype,
      castRebias bits Exp Frac (stdSpec ei fi ri si) (stdSpec eo fo ro so) =
        some { FExp, Frac, ExpOverflow := false } ∧
      FExp.toNat = if Exp.toNat = 0 ∧ Frac.toNat = 0 then 0
        else Exp.toNat + 2 ^ (eo - 1) - 2 ^ (ei - 1) := by
  obtain ⟨hi, hi8, -⟩ := half_range hin
  obtain ⟨ho, -, ho10⟩ := half_range hout
  have hoe := hout.exp_le
  have hmono := half_range_mono hlt hin
  have hchecked : rangeChecked (stdSpec ei fi ri si) (stdSpec eo fo ro so) = false := by
    have hrange : biasDiff (stdSpec ei fi ri si) (stdSpec eo fo ro so) ≤
        rangeDiff (stdSpec ei fi ri si) (stdSpec eo fo ro so) := by
      rw [biasDiff_std]
      unfold rangeDiff stdSpec
      dsimp only
      split <;> split <;> omega
    unfold rangeChecked
    rw [decide_eq_false (not_lt.mpr hrange), biasDiff_std, decide_eq_false (by omega),
      Bool.or_false]
  have hFExp : ((Exp + BitVec.ofInt 64 (biasDiff (stdSpec ei fi ri si) (stdSpec eo fo ro so))) &&&
      ones eo).toNat = Exp.toNat + 2 ^ (eo - 1) - 2 ^ (ei - 1) := by
    rw [biasDiff_std, toNat_and_ones _ (by omega), toNat_rebias (by omega) (by omega) (by omega)]
    exact Nat.mod_eq_of_lt (by omega)
  have hne : (stdSpec ei fi ri si).expBits ≠ (stdSpec eo fo ro so).expBits := hlt.ne
  unfold castRebias
  rw [if_pos (.inl hne)]
  simp only [hchecked, Bool.false_and, Bool.false_eq_true, if_false]
  refine ⟨_, rfl, ?_⟩
  simp only [word_eq_zero_iff, ← Bool.decide_and, decide_eq_true_eq]
  split
  · rfl
  · exact hFExp

/-- To a narrower exponent the range is checked. -/
theorem rangeChecked_narrow (hlt : eo < ei) (hout : FormatBounds eo fo) :
    rangeChecked (stdSpec ei fi ri si) (stdSpec eo fo ro so) = true := by
  have hmono := half_range_mono hlt hout
  obtain ⟨-, ho8, -⟩ := half_range hout
  unfold rangeChecked
  rw [biasDiff_std, decide_eq_true (by omega), Bool.true_or]

variable (eo) in
/-- The two tests of the range check. -/
theorem range_tests {x : Udatatype} (ho : eo ≤ 11) :
    ((x >>> eo) &&& ones (31 - eo - 1) != 0) = decide (x.toNat / 2 ^ eo % 2 ^ (30 - eo) ≠ 0) ∧
      ((x >>> (31 - 1)) &&& 1 != 0) = decide (x.toNat / 2 ^ 30 % 2 = 1) := by
  constructor
  · rw [word_ne_zero_iff, toNat_and_ones _ (by omega), toNat_shiftRight,
      show 31 - eo - 1 = 30 - eo by omega]
  · have hselect := toNat_selectBit x 30
    unfold selectBit at hselect
    rw [word_ne_zero_iff, show 31 - 1 = 30 by rfl, hselect, decide_eq_decide]
    omega

variable (ri ro si so bits Frac) in
/-- To a narrower exponent: an exponent that stays in range. -/
theorem castRebias_narrow (hin : FormatBounds ei fi) (hout : FormatBounds eo fo) (hlt : eo < ei)
    (hExp : Exp.toNat < 2 ^ ei) (hlo : 2 ^ (ei - 1) ≤ Exp.toNat + 2 ^ (eo - 1))
    (hhi : Exp.toNat + 2 ^ (eo - 1) < 2 ^ (ei - 1) + 2 ^ eo) :
    ∃ FExp : Udatatype,
      castRebias bits Exp Frac (stdSpec ei fi ri si) (stdSpec eo fo ro so) =
        some { FExp, Frac, ExpOverflow := false } ∧
      FExp.toNat = Exp.toNat + 2 ^ (eo - 1) - 2 ^ (ei - 1) := by
  obtain ⟨hi, -, hi10⟩ := half_range hin
  obtain ⟨ho, ho8, -⟩ := half_range hout
  have hoe := hout.exp_le
  have hmono := half_range_mono hlt hout
  have hsum : (Exp + BitVec.ofInt 64 (biasDiff (stdSpec ei fi ri si) (stdSpec eo fo ro so))).toNat =
      Exp.toNat + 2 ^ (eo - 1) - 2 ^ (ei - 1) := by
    rw [biasDiff_std]
    exact toNat_rebias hlo (by omega) (by omega)
  obtain ⟨hover, hunder⟩ := range_tests eo
    (x := Exp + BitVec.ofInt 64 (biasDiff (stdSpec ei fi ri si) (stdSpec eo fo ro so))) hoe
  rw [hsum, Nat.div_eq_of_lt (by omega), Nat.zero_mod, decide_eq_false (by simp)] at hover
  rw [hsum, Nat.div_eq_of_lt (by omega), decide_eq_false (by decide)] at hunder
  have hne : (stdSpec ei fi ri si).expBits ≠ (stdSpec eo fo ro so).expBits := hlt.ne'
  have hzero : (Exp == 0) = false := by
    rw [word_eq_zero_iff]
    exact decide_eq_false (by omega)
  unfold castRebias
  rw [if_pos (.inl hne), expTypeSize_std hin hout]
  dsimp only
  rw [rangeChecked_narrow hlt hout, show (stdSpec eo fo ro so).expBits = eo by rfl, hover, hunder]
  simp only [Bool.or_self, Bool.and_false, Bool.false_and, Bool.false_eq_true, if_false,
    if_true, hzero]
  refine ⟨_, rfl, ?_⟩
  rw [toNat_and_ones _ (by omega), toNat_and_ones _ (by omega), hsum, Nat.mod_mod]
  exact Nat.mod_eq_of_lt (by omega)

/-- To a narrower exponent: the return of zero. -/
theorem castRebias_none (hin : FormatBounds ei fi) (hout : FormatBounds eo fo) (hlt : eo < ei)
    (hExp : Exp.toNat < 2 ^ ei) (hbits : bits ≠ 0)
    (hout' : Exp.toNat + 2 ^ (eo - 1) < 2 ^ (ei - 1) ∨
      2 ^ (ei - 1) + 2 ^ eo ≤ Exp.toNat + 2 ^ (eo - 1)) :
    castRebias bits Exp Frac (stdSpec ei fi ri si) (stdSpec eo fo ro so) = none := by
  obtain ⟨hi, -, hi10⟩ := half_range hin
  obtain ⟨ho, ho8, -⟩ := half_range hout
  have hoe := hout.exp_le
  have hmono := half_range_mono hlt hout
  obtain ⟨hover, hunder⟩ := range_tests eo
    (x := Exp + BitVec.ofInt 64 (biasDiff (stdSpec ei fi ri si) (stdSpec eo fo ro so))) hoe
  have hne : (stdSpec ei fi ri si).expBits ≠ (stdSpec eo fo ro so).expBits := hlt.ne'
  have hflag : (((Exp + BitVec.ofInt 64 (biasDiff (stdSpec ei fi ri si)
      (stdSpec eo fo ro so))) >>> eo) &&& ones (31 - eo - 1) != 0 ||
        ((Exp + BitVec.ofInt 64 (biasDiff (stdSpec ei fi ri si)
      (stdSpec eo fo ro so))) >>> (31 - 1)) &&& 1 != 0) = true := by
    rw [hover, hunder, Bool.or_eq_true, decide_eq_true_eq, decide_eq_true_eq, biasDiff_std]
    rcases hout' with hneg | hbig
    · right
      rw [toNat_rebias_neg hneg (by omega)]
      omega
    · left
      rw [toNat_rebias (by omega) (by omega) (by omega)]
      have hquot : Exp.toNat + 2 ^ (eo - 1) - 2 ^ (ei - 1) < 2 ^ 30 := by omega
      have hge : 1 ≤ (Exp.toNat + 2 ^ (eo - 1) - 2 ^ (ei - 1)) / 2 ^ eo :=
        (Nat.le_div_iff_mul_le (Nat.two_pow_pos eo)).mpr (by omega)
      have hlt30 : (Exp.toNat + 2 ^ (eo - 1) - 2 ^ (ei - 1)) / 2 ^ eo < 2 ^ (30 - eo) := by
        refine Nat.div_lt_of_lt_mul ?_
        rw [← Nat.pow_add, show eo + (30 - eo) = 30 by omega]
        exact hquot
      rw [Nat.mod_eq_of_lt hlt30]
      omega
  unfold castRebias
  rw [if_pos (.inl hne), expTypeSize_std hin hout]
  dsimp only
  rw [rangeChecked_narrow hlt hout, show (stdSpec eo fo ro so).expBits = eo by rfl, hflag,
    bne_iff_ne.mpr hbits]
  rfl

variable (fi fo ri ro si so) in
/-- To a narrower exponent: positive zero. -/
theorem castRebias_zero (hin : FormatBounds ei fi) (hout : FormatBounds eo fo) (hlt : eo < ei) :
    castRebias 0 0 0 (stdSpec ei fi ri si) (stdSpec eo fo ro so) =
      some { FExp := 0, Frac := 0, ExpOverflow := false } := by
  obtain ⟨hi, -, hi10⟩ := half_range hin
  obtain ⟨ho, ho8, -⟩ := half_range hout
  have hoe := hout.exp_le
  have hmono := half_range_mono hlt hout
  obtain ⟨hover, hunder⟩ := range_tests eo
    (x := 0 + BitVec.ofInt 64 (biasDiff (stdSpec ei fi ri si) (stdSpec eo fo ro so))) hoe
  have hsum : (0 + BitVec.ofInt 64 (biasDiff (stdSpec ei fi ri si) (stdSpec eo fo ro so))).toNat =
      2 ^ 64 - (2 ^ (ei - 1) - 2 ^ (eo - 1)) := by
    have hlow : (0 : Udatatype).toNat + 2 ^ (eo - 1) < 2 ^ (ei - 1) := by
      simpa using (by omega : 2 ^ (eo - 1) < 2 ^ (ei - 1))
    rw [biasDiff_std, toNat_rebias_neg hlow (by omega)]
    simp
  -- The bits of a small negative number are all ones from the output exponent on.
  have hones : (2 ^ 64 - (2 ^ (ei - 1) - 2 ^ (eo - 1))) / 2 ^ eo % 2 ^ (30 - eo) ≠ 0 := by
    have hei := hin.exp_le
    have h4 := hout.exp_ge
    interval_cases eo <;> interval_cases ei <;> omega
  rw [hsum, decide_eq_true hones] at hover
  rw [hsum, decide_eq_true (by omega)] at hunder
  have hne : (stdSpec ei fi ri si).expBits ≠ (stdSpec eo fo ro so).expBits := hlt.ne'
  unfold castRebias
  rw [if_pos (.inl hne), expTypeSize_std hin hout]
  dsimp only
  rw [rangeChecked_narrow hlt hout, show (stdSpec eo fo ro so).expBits = eo by rfl, hover, hunder]
  simp

end Exponent

/-! ## The fields of the result -/

section Fields

variable {ei fi eo fo : Nat} {ri ro : RndMode} {si so : Bool} {x : Tfloat}

theorem sign_word (hx : IsEncoding ei fi x) : x >>> (ei + fi) = word (signOf ei fi x) := by
  apply BitVec.eq_of_toNat_eq
  rw [toNat_shiftRight, toNat_word, signOf_eq hx]
  exact (packed_fields (magOf_lt ei fi x)).1

/-- The result of a conversion that does not return early. -/
theorem floatCast_fields (hin : FormatBounds ei fi) (hout : FormatBounds eo fo)
    (hx : IsEncoding ei fi x) {r : Rebiased}
    (hr : castRebias x (extractFloatExp x ei fi) (extractFloatFrac x fi) (stdSpec ei fi ri si)
      (stdSpec eo fo ro so) = some r)
    (hover : r.ExpOverflow = false) (hExp : r.FExp.toNat < 2 ^ eo) (hFrac : r.Frac.toNat < 2 ^ fi) :
    IsEncoding eo fo (floatCast x (stdSpec ei fi ri si) (stdSpec eo fo ro so)) ∧
      signOf eo fo (floatCast x (stdSpec ei fi ri si) (stdSpec eo fo ro so)) = signOf ei fi x ∧
      magOf eo fo (floatCast x (stdSpec ei fi ri si) (stdSpec eo fo ro so)) =
        if infMag ei fi ≤ magOf ei fi x then
          infMag eo fo + if r.Frac.toNat ≠ 0 then 2 ^ fo - 1 else 0
        else r.FExp.toNat * 2 ^ fo + roundedFraction r.Frac.toNat fi fo ro := by
  have hei := hin.exp_le
  have hfi := hin.frac_le
  have heo := hout.exp_le
  have hfo := hout.frac_le
  have hfo4 := hout.frac_ge
  have hpos := Nat.two_pow_pos eo
  have hposf := Nat.two_pow_pos fo
  have hmax : (extractFloatExp x ei fi == ones ei) = decide (infMag ei fi ≤ magOf ei fi x) :=
    expMax_iff (by omega) (magOf_lt ei fi x) (toNat_extractFloatExp x (by omega))
  have heq : floatCast x (stdSpec ei fi ri si) (stdSpec eo fo ro so) =
      (word (signOf ei fi x) <<< (eo + fo)) |||
        ((if infMag ei fi ≤ magOf ei fi x then ones eo else r.FExp) <<< fo) |||
        (if infMag ei fi ≤ magOf ei fi x then (if r.Frac.toNat ≠ 0 then ones fo else 0)
          else castFraction r.Frac fi fo ro) := by
    unfold floatCast
    simp only [stdSpec] at hr ⊢
    have hrebias : castRebias x ((x >>> fi) &&& ones ei) (x &&& ones fi)
        (stdSpec ei fi ri si) (stdSpec eo fo ro so) = some r := hr
    simp only [stdSpec] at hrebias
    have hmax' : ((x >>> fi) &&& ones ei == ones ei) = decide (infMag ei fi ≤ magOf ei fi x) := hmax
    rw [hrebias]
    simp only [hmax', hover, sign_word hx, word_ne_zero_iff, Bool.and_false, Bool.or_false,
      ne_eq, not_true, false_and, if_false, decide_false, Bool.false_and, Bool.false_or,
      decide_true, Bool.true_and, decide_eq_true_eq, Bool.and_eq_true, if_true]
    rw [BitVec.or_comm, BitVec.or_assoc]
    congr 1
    split
    · rename_i hinf
      simp only [hinf, true_and]
    · rfl
  have hnat : (if infMag ei fi ≤ magOf ei fi x then (if r.Frac.toNat ≠ 0 then ones fo else 0)
      else castFraction r.Frac fi fo ro).toNat =
        if infMag ei fi ≤ magOf ei fi x then (if r.Frac.toNat ≠ 0 then 2 ^ fo - 1 else 0)
          else roundedFraction r.Frac.toNat fi fo ro := by
    split
    · split
      · exact toNat_ones (by omega)
      · rfl
    · exact toNat_castFraction (by omega) (by omega) hFrac ro
  have hnatE : (if infMag ei fi ≤ magOf ei fi x then ones eo else r.FExp).toNat =
      if infMag ei fi ≤ magOf ei fi x then 2 ^ eo - 1 else r.FExp.toNat := by
    split
    · exact toNat_ones (by omega)
    · rfl
  obtain ⟨henc, hmag, hsign⟩ := packed_spec (e := eo) (f := fo) (by omega) (signOf ei fi x)
    (x := if infMag ei fi ≤ magOf ei fi x then ones eo else r.FExp)
    (y := if infMag ei fi ≤ magOf ei fi x then (if r.Frac.toNat ≠ 0 then ones fo else 0)
      else castFraction r.Frac fi fo ro)
    (by
      rw [hnatE]
      split
      · omega
      · exact hExp)
    (by
      rw [hnat]
      split
      · split <;> omega
      · exact roundedFraction_lt (by omega) hFrac ro)
  rw [heq]
  refine ⟨henc, hsign, ?_⟩
  rw [hmag, hnat, hnatE]
  split <;> rfl

theorem floatCast_none (hr : castRebias x (extractFloatExp x ei fi) (extractFloatFrac x fi)
    (stdSpec ei fi ri si) (stdSpec eo fo ro so) = none) :
    floatCast x (stdSpec ei fi ri si) (stdSpec eo fo ro so) = 0 := by
  unfold floatCast
  have hrebias : castRebias x
      ((x >>> (stdSpec ei fi ri si).fracBits) &&& ones (stdSpec ei fi ri si).expBits)
      (x &&& ones (stdSpec ei fi ri si).fracBits) (stdSpec ei fi ri si) (stdSpec eo fo ro so) =
        none := hr
  simp only [hrebias]

end Fields

/-! ## The value in the output format -/

/-- The value of a magnitude in units of the least subnormal of another format. -/
def castValue (ei fi eo fo X : Nat) : ℚ :=
  magValue fi X * leastSubnormal ei fi / leastSubnormal eo fo

/-- The conversion of an encoding as it should be: classes and signs are
kept, and a normal number whose rounding is normal is rounded. -/
structure CastCorrect (ei fi eo fo : Nat) (rnd : RndMode) (x r : Tfloat) : Prop where
  encoding : IsEncoding eo fo r
  zero : magOf ei fi x = 0 → magOf eo fo r = 0 ∧ signOf eo fo r = signOf ei fi x
  infinite : IsInf ei fi x → IsInf eo fo r ∧ signOf eo fo r = signOf ei fi x
  nan : IsNaN ei fi x → IsNaN eo fo r
  nearest : IsNormal ei fi x → rnd = .nevn → ∀ n, 2 ^ fo ≤ n → n < infMag eo fo →
    IsNearestEven eo fo (castValue ei fi eo fo (magOf ei fi x)) n →
      magOf eo fo r = n ∧ signOf eo fo r = signOf ei fi x
  truncated : IsNormal ei fi x → rnd = .none → ∀ n, 2 ^ fo ≤ n → n < infMag eo fo →
    (magValue fo n : ℚ) ≤ castValue ei fi eo fo (magOf ei fi x) →
      castValue ei fi eo fo (magOf ei fi x) < magValue fo (n + 1) →
        magOf eo fo r = n ∧ signOf eo fo r = signOf ei fi x

/-- The last bit of the fraction that is kept and the guard bit below it are set. -/
def OddGuard (fi fo X : Nat) : Prop :=
  fo < fi ∧ X / 2 ^ (fi - fo) % 2 = 1 ∧ X / 2 ^ (fi - fo - 1) % 2 = 1

/-- Where the conversion goes wrong.  To a narrower exponent: a negative zero, an infinity
or a NaN.  With rounding: an odd fraction with its guard bit set, which should carry, or a
number just below the least normal one. -/
def CastLoses (ei fi eo fo : Nat) (rnd : RndMode) (x : Tfloat) : Prop :=
  (eo < ei ∧ (x.toNat = 2 ^ (ei + fi) ∨ infMag ei fi ≤ magOf ei fi x)) ∨
    (rnd = .nevn ∧ IsNormal ei fi x ∧
      ∃ t, magOf ei fi x / 2 ^ fi + 2 ^ (eo - 1) = t + 2 ^ (ei - 1) ∧
        ((0 < t ∧ OddGuard fi fo (magOf ei fi x) ∧
            t * 2 ^ fo + magOf ei fi x % 2 ^ fi / 2 ^ (fi - fo) + 1 < infMag eo fo) ∨
          (t = 0 ∧ fo ≤ fi ∧ magOf ei fi x % 2 ^ fi / 2 ^ (fi - fo) = 2 ^ fo - 1)))

section Value

variable {ei fi eo fo X t : Nat}

/-- The value of a normal magnitude by the exponent that it has in the output format. -/
theorem castValue_eq (hX : 2 ^ fi ≤ X) :
    castValue ei fi eo fo X = ((2 ^ fi + X % 2 ^ fi : Nat) : ℚ) *
      2 ^ ((X / 2 ^ fi : Nat) + (2 ^ (eo - 1) : Nat) - (2 ^ (ei - 1) : Nat) - 1 + fo - fi : ℤ) := by
  have hE : 0 < X / 2 ^ fi := Nat.div_pos hX (Nat.two_pow_pos fi)
  have hpi := Nat.two_pow_pos (ei - 1)
  have hpo := Nat.two_pow_pos (eo - 1)
  have htwo : (2 : ℚ) ≠ 0 := two_ne_zero
  unfold castValue magValue leastSubnormal bias
  rw [magSig, if_neg hE.ne', magExp, Nat.cast_mul, Nat.cast_pow, Nat.cast_ofNat, mul_div_assoc,
    ← zpow_sub₀ htwo, mul_assoc, ← zpow_natCast, ← zpow_add₀ htwo]
  congr 2
  omega

variable (fo) in
theorem castValue_scaled (hX : 2 ^ fi ≤ X)
    (ht : X / 2 ^ fi + 2 ^ (eo - 1) = t + 2 ^ (ei - 1)) :
    castValue ei fi eo fo X * 2 ^ (fi + 1) =
      ((2 ^ fi + X % 2 ^ fi : Nat) : ℚ) * 2 ^ (t + fo) := by
  have htwo : (2 : ℚ) ≠ 0 := two_ne_zero
  rw [castValue_eq hX, mul_assoc, ← zpow_natCast 2 (fi + 1), ← zpow_natCast 2 (t + fo),
    ← zpow_add₀ htwo]
  congr 2
  omega

variable (fo) in
/-- To a fraction that is not cut the value is a magnitude. -/
theorem castValue_exact (hX : 2 ^ fi ≤ X) (hf : fi ≤ fo)
    (ht : X / 2 ^ fi + 2 ^ (eo - 1) = t + 2 ^ (ei - 1)) (ht0 : 0 < t) :
    castValue ei fi eo fo X = magValue fo (t * 2 ^ fo + X % 2 ^ fi * 2 ^ (fo - fi)) := by
  have hlt : X % 2 ^ fi * 2 ^ (fo - fi) < 2 ^ fo := by
    calc X % 2 ^ fi * 2 ^ (fo - fi) < 2 ^ fi * 2 ^ (fo - fi) :=
          Nat.mul_lt_mul_of_pos_right (Nat.mod_lt _ (Nat.two_pow_pos fi)) (Nat.two_pow_pos _)
      _ = 2 ^ fo := by rw [← Nat.pow_add]; congr 1; omega
  obtain ⟨hs, he⟩ := magSig_packed ht0 hlt
  have hscaled := castValue_scaled fo hX ht
  have hpos : (0 : ℚ) < 2 ^ (fi + 1) := by positivity
  refine mul_right_cancel₀ hpos.ne' (hscaled.trans ?_)
  rw [magValue, hs, he]
  have hnat : (2 ^ fi + X % 2 ^ fi) * 2 ^ (t + fo) =
      (2 ^ fo + X % 2 ^ fi * 2 ^ (fo - fi)) * 2 ^ (t - 1) * 2 ^ (fi + 1) := by
    obtain ⟨k, rfl⟩ := Nat.exists_eq_add_of_le hf
    obtain ⟨u, rfl⟩ : ∃ u, t = u + 1 := ⟨t - 1, by omega⟩
    rw [Nat.add_sub_cancel_left, Nat.add_sub_cancel]
    ring
  exact_mod_cast hnat

variable (fo) in
/-- To a cut fraction the value is a multiple of the last place, with a remainder. -/
theorem castValue_cut (hX : 2 ^ fi ≤ X) (hf : fo < fi)
    (ht : X / 2 ^ fi + 2 ^ (eo - 1) = t + 2 ^ (ei - 1)) (ht0 : 0 < t) :
    castValue ei fi eo fo X * ((2 ^ (fi - fo) : Nat) : ℚ) =
      ((2 ^ fi + X % 2 ^ fi : Nat) : ℚ) * 2 ^ (t - 1) := by
  have hscaled := castValue_scaled fo hX ht
  have hpos : (0 : ℚ) < 2 ^ (fo + 1) := by positivity
  refine mul_right_cancel₀ hpos.ne' ?_
  obtain ⟨k, rfl⟩ := Nat.exists_eq_add_of_lt hf
  obtain ⟨u, rfl⟩ : ∃ u, t = u + 1 := ⟨t - 1, by omega⟩
  rw [show fo + k + 1 - fo = k + 1 by omega, Nat.add_sub_cancel, Nat.cast_pow, Nat.cast_ofNat]
  calc castValue ei (fo + k + 1) eo fo X * 2 ^ (k + 1) * 2 ^ (fo + 1)
      = castValue ei (fo + k + 1) eo fo X * 2 ^ (fo + k + 1 + 1) := by ring
    _ = _ := by
      rw [hscaled]
      ring

variable (fo) in
/-- A value is in the binade of its exponent. -/
theorem castValue_bounds (hX : 2 ^ fi ≤ X)
    (ht : X / 2 ^ fi + 2 ^ (eo - 1) = t + 2 ^ (ei - 1)) :
    castValue ei fi eo fo X < 2 ^ (t + fo) ∧ (2 : ℚ) ^ (t + fo) ≤ 2 * castValue ei fi eo fo X := by
  have hscaled := castValue_scaled fo hX ht
  have hmod := Nat.mod_lt X (Nat.two_pow_pos fi)
  have hpos : (0 : ℚ) < 2 ^ (fi + 1) := by positivity
  have hpos' : (0 : ℚ) < 2 ^ fi := by positivity
  have hW : ((2 ^ fi + X % 2 ^ fi : Nat) : ℚ) < 2 ^ (fi + 1) := by
    have hnat : 2 ^ fi + X % 2 ^ fi < 2 ^ (fi + 1) := by
      rw [Nat.pow_succ]
      omega
    exact_mod_cast hnat
  have hW' : (2 : ℚ) ^ fi ≤ ((2 ^ fi + X % 2 ^ fi : Nat) : ℚ) := by
    exact_mod_cast Nat.le_add_right (2 ^ fi) (X % 2 ^ fi)
  constructor
  · refine lt_of_mul_lt_mul_right (a := 2 ^ (fi + 1)) ?_ hpos.le
    rw [hscaled, mul_comm]
    exact mul_lt_mul_of_pos_left hW (by positivity)
  · refine le_of_mul_le_mul_right (a := 2 ^ fi) ?_ hpos'
    calc (2 : ℚ) ^ (t + fo) * 2 ^ fi ≤ 2 ^ (t + fo) * ((2 ^ fi + X % 2 ^ fi : Nat) : ℚ) :=
          mul_le_mul_of_nonneg_left hW' (by positivity)
      _ = castValue ei fi eo fo X * 2 ^ (fi + 1) := by rw [hscaled, mul_comm]
      _ = 2 * castValue ei fi eo fo X * 2 ^ fi := by ring

/-- Values of whole binades. -/
theorem magValue_binade (f : Nat) (ht : 0 < t) : 2 * magValue f (t * 2 ^ f) = 2 ^ (t + f) := by
  obtain ⟨hs, he⟩ := magSig_packed (f := f) (s := 0) ht (Nat.two_pow_pos f)
  rw [Nat.add_zero] at hs he
  obtain ⟨u, rfl⟩ : ∃ u, t = u + 1 := ⟨t - 1, by omega⟩
  rw [magValue, hs, he, Nat.add_zero, Nat.add_sub_cancel]
  ring

variable (fo) in
/-- From the exponent of infinity on, a value rounds to infinity. -/
theorem castValue_overflow (hX : 2 ^ fi ≤ X) (heo : 0 < eo)
    (ht : X / 2 ^ fi + 2 ^ (eo - 1) = t + 2 ^ (ei - 1)) (hbig : 2 ^ eo ≤ t + 1) :
    (magValue fo (infMag eo fo) : ℚ) ≤ castValue ei fi eo fo X := by
  have htwo : 2 ^ 1 ≤ 2 ^ eo := Nat.pow_le_pow_right (by decide) heo
  have hval : 2 * magValue fo (infMag eo fo) ≤ 2 ^ (t + fo) := by
    rw [infMag, magValue_binade fo (by omega)]
    exact Nat.pow_le_pow_right (by decide) (by omega)
  have hvalq : (2 : ℚ) * magValue fo (infMag eo fo) ≤ 2 ^ (t + fo) := by exact_mod_cast hval
  have hlow := (castValue_bounds fo hX ht).2
  linarith

end Value

/-! ## Rounding in the output format -/

section Rounding

variable {ei fi eo fo X t : Nat}

/-- The kept fraction and the dropped one. -/
theorem cut_fields (hf : fo < fi) (X : Nat) :
    X % 2 ^ fi / 2 ^ (fi - fo) = X / 2 ^ (fi - fo) % 2 ^ fo ∧
      X % 2 ^ fi % 2 ^ (fi - fo) = X % 2 ^ (fi - fo) ∧
      (2 ^ fi + X % 2 ^ fi) / 2 ^ (fi - fo) = 2 ^ fo + X % 2 ^ fi / 2 ^ (fi - fo) ∧
      (2 ^ fi + X % 2 ^ fi) % 2 ^ (fi - fo) = X % 2 ^ (fi - fo) := by
  have hsplit : 2 ^ fi = 2 ^ (fi - fo) * 2 ^ fo := by rw [← Nat.pow_add]; congr 1; omega
  have hpos := Nat.two_pow_pos (fi - fo)
  have hmod : X % 2 ^ fi % 2 ^ (fi - fo) = X % 2 ^ (fi - fo) :=
    Nat.mod_mod_of_dvd _ (Nat.pow_dvd_pow 2 (by omega))
  refine ⟨?_, hmod, ?_, ?_⟩
  · rw [hsplit, Nat.mod_mul_right_div_self]
  · rw [hsplit, Nat.mul_add_div hpos]
  · rw [← hmod]
    generalize X % 2 ^ fi = F
    rw [hsplit, Nat.mul_add_mod]

/-- The guard bit is set where at least half of the unit is dropped. -/
theorem guard_iff {d : Nat} (hd : 0 < d) (X : Nat) :
    X / 2 ^ (d - 1) % 2 = 1 ↔ 2 ^ d ≤ 2 * (X % 2 ^ d) := by
  obtain ⟨k, rfl⟩ : ∃ k, d = k + 1 := ⟨d - 1, by omega⟩
  have hpos := Nat.two_pow_pos k
  have hsplit : X % 2 ^ (k + 1) = X % 2 ^ k + 2 ^ k * (X / 2 ^ k % 2) := by
    rw [Nat.pow_succ, Nat.mod_mul]
  have hmod := Nat.mod_lt X hpos
  rw [Nat.add_sub_cancel, hsplit, Nat.pow_succ]
  rcases Nat.mod_two_eq_zero_or_one (X / 2 ^ k) with h | h <;> rw [h] <;> omega

/-- The magnitude that a value is cut to. -/
def cutMag (fi fo X t : Nat) : Nat := t * 2 ^ fo + X % 2 ^ fi / 2 ^ (fi - fo)

theorem cutFraction_lt (hf : fo < fi) (X : Nat) : X % 2 ^ fi / 2 ^ (fi - fo) < 2 ^ fo := by
  rw [(cut_fields hf X).1]
  exact Nat.mod_lt _ (Nat.two_pow_pos fo)

variable (fo) in
/-- A cut value is between its magnitude and the next one, and the dropped bits say which
is nearest. -/
theorem castNearest_cut (hX : 2 ^ fi ≤ X) (hf : fo < fi) (ht0 : 0 < t)
    (ht : X / 2 ^ fi + 2 ^ (eo - 1) = t + 2 ^ (ei - 1)) (hlt : cutMag fi fo X t < infMag eo fo) :
    IsNearestEven eo fo (castValue ei fi eo fo X) (cutMag fi fo X t +
      (decide (2 ^ (fi - fo) < 2 * (X % 2 ^ (fi - fo)) ∨
        (2 ^ (fi - fo) = 2 * (X % 2 ^ (fi - fo)) ∧ cutMag fi fo X t % 2 = 1))).toNat) := by
  obtain ⟨-, -, hdiv, hmod⟩ := cut_fields hf X
  obtain ⟨hs, he⟩ := magSig_packed (f := fo) ht0 (cutFraction_lt hf X)
  refine isNearestEven_of_scaled (W := 2 ^ fi + X % 2 ^ fi) (D := 2 ^ (fi - fo)) hlt
    (Nat.two_pow_pos _) ?_ ?_ ?_
  · rw [castValue_cut _ hX hf ht ht0, cutMag, he]
  · rw [hdiv, cutMag, hs]
  · rw [hmod, decide_eq_true_eq]

variable (fo) in
theorem castTruncated_cut (hX : 2 ^ fi ≤ X) (hf : fo < fi) (ht0 : 0 < t)
    (ht : X / 2 ^ fi + 2 ^ (eo - 1) = t + 2 ^ (ei - 1)) :
    (magValue fo (cutMag fi fo X t) : ℚ) ≤ castValue ei fi eo fo X ∧
      castValue ei fi eo fo X < magValue fo (cutMag fi fo X t + 1) := by
  obtain ⟨-, -, hdiv, hmod⟩ := cut_fields hf X
  obtain ⟨hs, he⟩ := magSig_packed (f := fo) ht0 (cutFraction_lt hf X)
  have hD : (0 : ℚ) < ((2 ^ (fi - fo) : Nat) : ℚ) := by exact_mod_cast Nat.two_pow_pos _
  have hfields := Nat.div_add_mod (2 ^ fi + X % 2 ^ fi) (2 ^ (fi - fo))
  have hrem := Nat.mod_lt (2 ^ fi + X % 2 ^ fi) (Nat.two_pow_pos (fi - fo))
  have hcut := castValue_cut fo hX hf ht ht0
  rw [hdiv] at hfields
  constructor
  · refine le_of_mul_le_mul_right ?_ hD
    rw [hcut, magValue, cutMag, hs, he]
    have hnat : (2 ^ fo + X % 2 ^ fi / 2 ^ (fi - fo)) * 2 ^ (t - 1) * 2 ^ (fi - fo) ≤
        (2 ^ fi + X % 2 ^ fi) * 2 ^ (t - 1) := by
      rw [Nat.mul_right_comm]
      refine Nat.mul_le_mul_right _ ?_
      rw [Nat.mul_comm]
      omega
    exact_mod_cast hnat
  · refine lt_of_mul_lt_mul_right ?_ hD.le
    rw [hcut, magValue_succ, magValue, cutMag, hs, he]
    have hnat : (2 ^ fi + X % 2 ^ fi) * 2 ^ (t - 1) <
        ((2 ^ fo + X % 2 ^ fi / 2 ^ (fi - fo)) * 2 ^ (t - 1) + 2 ^ (t - 1)) * 2 ^ (fi - fo) := by
      rw [← Nat.succ_mul, Nat.mul_right_comm]
      refine Nat.mul_lt_mul_of_pos_right ?_ (Nat.two_pow_pos _)
      rw [Nat.mul_comm, Nat.mul_succ]
      omega
    exact_mod_cast hnat

/-- The last bit of a cut magnitude. -/
theorem cutMag_mod_two (hfo : 0 < fo) (hf : fo < fi) :
    cutMag fi fo X t % 2 = X / 2 ^ (fi - fo) % 2 := by
  obtain ⟨g, rfl⟩ : ∃ g, fo = g + 1 := ⟨fo - 1, by omega⟩
  have hdvd : X / 2 ^ (fi - (g + 1)) % 2 ^ (g + 1) % 2 = X / 2 ^ (fi - (g + 1)) % 2 :=
    Nat.mod_mod_of_dvd _ (dvd_pow_self 2 (Nat.succ_ne_zero g))
  unfold cutMag
  rw [(cut_fields hf X).1, ← hdvd, Nat.pow_succ, ← Nat.mul_assoc]
  omega

/-- A value is between one pair of neighbours only. -/
theorem magnitude_unique {n m : Nat} {v : ℚ} (h1 : (magValue fo n : ℚ) ≤ v)
    (h2 : v < magValue fo (n + 1)) (h3 : (magValue fo m : ℚ) ≤ v) (h4 : v < magValue fo (m + 1)) :
    n = m := by
  have hmono := magValue_strictMono fo
  have hlt1 : n < m + 1 := hmono.lt_iff_lt.mp (by exact_mod_cast lt_of_le_of_lt h1 h4)
  have hlt2 : m < n + 1 := hmono.lt_iff_lt.mp (by exact_mod_cast lt_of_le_of_lt h3 h2)
  omega

/-- The code's rounding is the nearest one unless it meets an odd fraction with its guard
bit. -/
theorem roundedFraction_eq_iff (hf : fo < fi) (hfo : 0 < fo) (X t : Nat) :
    t * 2 ^ fo + roundedFraction (X % 2 ^ fi) fi fo .nevn = cutMag fi fo X t +
      (decide (2 ^ (fi - fo) < 2 * (X % 2 ^ (fi - fo)) ∨
        (2 ^ (fi - fo) = 2 * (X % 2 ^ (fi - fo)) ∧ cutMag fi fo X t % 2 = 1))).toNat ↔
      ¬ OddGuard fi fo X := by
  obtain ⟨hq, hr, -, -⟩ := cut_fields hf X
  have hcut := cutMag_mod_two (X := X) (t := t) hfo hf
  have hodd : X / 2 ^ (fi - fo) % 2 = X % 2 ^ fi / 2 ^ (fi - fo) % 2 := by
    rw [hq, Nat.mod_mod_of_dvd]
    exact dvd_pow_self 2 hfo.ne'
  unfold OddGuard roundedFraction
  rw [if_neg (by omega), hr, guard_iff (by omega), hcut, hodd]
  unfold cutMag
  generalize X % 2 ^ fi / 2 ^ (fi - fo) = q
  generalize X % 2 ^ (fi - fo) = r
  generalize 2 ^ (fi - fo) = D
  by_cases hup : D < 2 * r
  · rw [if_pos ⟨rfl, hup⟩, decide_eq_true (.inl hup), or_one, Bool.toNat_true]
    omega
  · rw [if_neg (fun h => hup h.2), Nat.or_zero]
    by_cases htie : D = 2 * r ∧ q % 2 = 1
    · rw [decide_eq_true (.inr htie), Bool.toNat_true]
      omega
    · rw [decide_eq_false (fun h => h.elim hup htie), Bool.toNat_false]
      omega

end Rounding

/-! ## The conversion -/

section Conversion

variable {ei fi eo fo t : Nat} {ri ro : RndMode} {si so : Bool} {x : Tfloat}

variable (ei fi) in
/-- The exponent field of an encoding. -/
theorem exp_lt (x : Tfloat) : magOf ei fi x / 2 ^ fi < 2 ^ ei := by
  refine Nat.div_lt_of_lt_mul ?_
  rw [← Nat.pow_add, Nat.add_comm]
  exact magOf_lt ei fi x

variable (ri ro si so) in
/-- The rebias of an encoding that stays in the exponent range of the output format: a
normal number, or any other encoding where the exponent is not narrowed. -/
theorem castRebias_encoding (hin : FormatBounds ei fi) (hout : FormatBounds eo fo)
    (ht : magOf ei fi x / 2 ^ fi + 2 ^ (eo - 1) = t + 2 ^ (ei - 1)) (htlt : t < 2 ^ eo)
    (hcase : ei ≤ eo ∨ 2 ^ fi ≤ magOf ei fi x) :
    ∃ r : Rebiased, castRebias x (extractFloatExp x ei fi) (extractFloatFrac x fi)
        (stdSpec ei fi ri si) (stdSpec eo fo ro so) = some r ∧
      r.ExpOverflow = false ∧ r.FExp.toNat < 2 ^ eo ∧
      (magOf ei fi x = 0 → r.FExp.toNat = 0) ∧
      (2 ^ fi ≤ magOf ei fi x → r.FExp.toNat = t ∧
        r.Frac.toNat = magOf ei fi x % 2 ^ fi) ∧
      r.Frac.toNat ≤ magOf ei fi x % 2 ^ fi := by
  have hei := hin.exp_le
  have hfi := hin.frac_le
  have hE := toNat_extractFloatExp (e := ei) (f := fi) x (by omega)
  have hF := toNat_extractFloatFrac (e := ei) (f := fi) x (by omega)
  have hElt := exp_lt ei fi x
  have hpos : 2 ^ fi ≤ magOf ei fi x → 0 < magOf ei fi x / 2 ^ fi :=
    fun h => Nat.div_pos h (Nat.two_pow_pos fi)
  rcases Nat.lt_trichotomy ei eo with hlt | rfl | hgt
  · obtain ⟨FExp, hr, hFExp⟩ := castRebias_widen ri ro si so x (extractFloatFrac x fi)
      hin hout hlt (hE ▸ hElt)
    rw [hE, hF] at hFExp
    refine ⟨_, hr, rfl, ?_, ?_, ?_, ?_⟩
    · dsimp only
      rw [hFExp]
      split <;> omega
    · intro hzero
      dsimp only
      rw [hFExp, if_pos (by rw [hzero]; exact ⟨Nat.zero_div _, Nat.zero_mod _⟩)]
    · intro hnorm
      have := hpos hnorm
      dsimp only
      rw [hFExp, if_neg (by omega)]
      exact ⟨by omega, hF⟩
    · exact hF.le
  · refine ⟨_, castRebias_same, rfl, hE ▸ hElt, ?_, ?_, ?_⟩
    · intro hzero
      dsimp only
      rw [hE, hzero, Nat.zero_div]
    · intro hnorm
      have hne : (extractFloatExp x ei fi == 0) = false := by
        rw [word_eq_zero_iff, hE]
        have := hpos hnorm
        exact decide_eq_false (by omega)
      dsimp only
      rw [hE, hne, if_neg Bool.false_ne_true, ite_self]
      exact ⟨by omega, hF⟩
    · dsimp only
      split
      · split
        · exact Nat.zero_le _
        · exact hF.le
      · exact hF.le
  · have hnorm : 2 ^ fi ≤ magOf ei fi x := hcase.resolve_left (by omega)
    obtain ⟨FExp, hr, hFExp⟩ := castRebias_narrow ri ro si so x (extractFloatFrac x fi)
      hin hout hgt (hE ▸ hElt) (by omega) (by omega)
    rw [hE] at hFExp
    have hFt : FExp.toNat = t := by omega
    refine ⟨_, hr, rfl, ?_, ?_, fun _ => ⟨hFt, hF⟩, hF.le⟩
    · dsimp only
      rw [hFt]
      exact htlt
    · intro hzero
      have := Nat.two_pow_pos fi
      omega

variable (ri ro si so) in
/-- A normal number that stays in the exponent range. -/
theorem floatCast_normal (hin : FormatBounds ei fi) (hout : FormatBounds eo fo)
    (hx : IsEncoding ei fi x) (hn : IsNormal ei fi x)
    (ht : magOf ei fi x / 2 ^ fi + 2 ^ (eo - 1) = t + 2 ^ (ei - 1)) (htlt : t < 2 ^ eo) :
    IsEncoding eo fo (floatCast x (stdSpec ei fi ri si) (stdSpec eo fo ro so)) ∧
      signOf eo fo (floatCast x (stdSpec ei fi ri si) (stdSpec eo fo ro so)) = signOf ei fi x ∧
      magOf eo fo (floatCast x (stdSpec ei fi ri si) (stdSpec eo fo ro so)) =
        t * 2 ^ fo + roundedFraction (magOf ei fi x % 2 ^ fi) fi fo ro := by
  obtain ⟨r, hr, hover, hFExp, -, hfields, hFrac⟩ :=
    castRebias_encoding ri ro si so hin hout ht htlt (.inr hn.1)
  have hmod := Nat.mod_lt (magOf ei fi x) (Nat.two_pow_pos fi)
  obtain ⟨henc, hsign, hmag⟩ := floatCast_fields hin hout hx hr hover hFExp (by omega)
  obtain ⟨hE, hF⟩ := hfields hn.1
  refine ⟨henc, hsign, ?_⟩
  rw [hmag, if_neg (Nat.not_le.mpr hn.2), hE, hF]

variable (ri ro si so) in
/-- A nonzero encoding that leaves the exponent range. -/
theorem floatCast_out (hin : FormatBounds ei fi) (hout : FormatBounds eo fo) (hlt : eo < ei)
    (hx : x ≠ 0) (hrange : magOf ei fi x / 2 ^ fi + 2 ^ (eo - 1) < 2 ^ (ei - 1) ∨
      2 ^ (ei - 1) + 2 ^ eo ≤ magOf ei fi x / 2 ^ fi + 2 ^ (eo - 1)) :
    floatCast x (stdSpec ei fi ri si) (stdSpec eo fo ro so) = 0 := by
  have hei := hin.exp_le
  have hE := toNat_extractFloatExp (e := ei) (f := fi) x (by omega)
  refine floatCast_none (castRebias_none hin hout hlt ?_ hx ?_)
  · rw [hE]
    exact exp_lt _ _ x
  · rw [hE]
    exact hrange

variable (ri ro si so) in
/-- Zeros, infinities and NaNs keep their class where the exponent is not narrowed. -/
theorem floatCast_classes (hin : FormatBounds ei fi) (hout : FormatBounds eo fo)
    (hx : IsEncoding ei fi x) (hle : ei ≤ eo) :
    IsEncoding eo fo (floatCast x (stdSpec ei fi ri si) (stdSpec eo fo ro so)) ∧
      signOf eo fo (floatCast x (stdSpec ei fi ri si) (stdSpec eo fo ro so)) = signOf ei fi x ∧
      (magOf ei fi x = 0 →
        magOf eo fo (floatCast x (stdSpec ei fi ri si) (stdSpec eo fo ro so)) = 0) ∧
      (IsInf ei fi x → IsInf eo fo (floatCast x (stdSpec ei fi ri si) (stdSpec eo fo ro so))) ∧
      (IsNaN ei fi x → IsNaN eo fo (floatCast x (stdSpec ei fi ri si) (stdSpec eo fo ro so))) := by
  obtain ⟨hi, hi8, -⟩ := half_range hin
  obtain ⟨ho, -, -⟩ := half_range hout
  have hElt := exp_lt ei fi x
  have hfo := hout.frac_ge
  have hmono : 2 ^ (ei - 1) ≤ 2 ^ (eo - 1) := Nat.pow_le_pow_right (by decide) (by omega)
  obtain ⟨t, ht, htlt⟩ : ∃ t, magOf ei fi x / 2 ^ fi + 2 ^ (eo - 1) = t + 2 ^ (ei - 1) ∧
      t < 2 ^ eo := by
    generalize magOf ei fi x / 2 ^ fi = E at *
    exact ⟨E + 2 ^ (eo - 1) - 2 ^ (ei - 1), by omega, by omega⟩
  obtain ⟨r, hr, hover, hFExp, hzero, hfields, hFrac⟩ :=
    castRebias_encoding ri ro si so hin hout ht htlt (.inl hle)
  have hmod := Nat.mod_lt (magOf ei fi x) (Nat.two_pow_pos fi)
  obtain ⟨henc, hsign, hmag⟩ := floatCast_fields hin hout hx hr hover hFExp (by omega)
  have hinf : 2 ^ fi ≤ infMag ei fi ∧ 0 < infMag ei fi := by
    have hpos := Nat.two_pow_pos fi
    have hmul : 1 * 2 ^ fi ≤ infMag ei fi := Nat.mul_le_mul_right _ (by omega)
    omega
  refine ⟨henc, hsign, fun h0 => ?_, fun hi' => ?_, fun hn => ?_⟩
  · rw [hmag, if_neg (by omega), hzero h0, Nat.zero_mul, Nat.zero_add]
    have hF0 : r.Frac.toNat = 0 := by
      rw [h0, Nat.zero_mod] at hFrac
      omega
    unfold roundedFraction
    rw [hF0]
    split
    · exact Nat.zero_mul _
    · rw [Nat.zero_div, Nat.zero_mod, if_neg (by simp)]
      rfl
  · have hX : magOf ei fi x = infMag ei fi := hi'
    obtain ⟨-, hF⟩ := hfields (by omega)
    have hF0 : r.Frac.toNat = 0 := by
      rw [hF, hX, infMag]
      exact Nat.mul_mod_left _ _
    unfold IsInf
    rw [hmag, if_pos hX.ge, hF0]
    rfl
  · have hX : infMag ei fi < magOf ei fi x := hn
    obtain ⟨-, hF⟩ := hfields (by omega)
    have hF0 : r.Frac.toNat ≠ 0 := by
      rw [hF]
      intro hz
      -- The fraction of a NaN is not zero.
      have hdiv : magOf ei fi x / 2 ^ fi ≤ 2 ^ ei - 1 := by omega
      have hfull := Nat.div_add_mod (magOf ei fi x) (2 ^ fi)
      have hmul := Nat.mul_le_mul_left (2 ^ fi) hdiv
      rw [Nat.mul_comm (2 ^ fi) (2 ^ ei - 1)] at hmul
      unfold infMag at hX
      omega
    have hone : 2 ^ 1 ≤ 2 ^ fo := Nat.pow_le_pow_right (by decide) (by omega)
    unfold IsNaN
    rw [hmag, if_pos hX.le, if_pos hF0]
    omega

theorem fields_zero (e f : Nat) :
    IsEncoding e f 0 ∧ magOf e f 0 = 0 ∧ signOf e f 0 = false := by
  refine ⟨Nat.two_pow_pos _, Nat.zero_mod _, ?_⟩
  unfold signOf
  rw [show (0 : Udatatype).toNat = 0 by rfl, Nat.zero_div]
  rfl

/-- To a narrower exponent positive zero is kept. -/
theorem floatCast_zero (hin : FormatBounds ei fi) (hout : FormatBounds eo fo) (hlt : eo < ei) :
    floatCast 0 (stdSpec ei fi ri si) (stdSpec eo fo ro so) = 0 := by
  obtain ⟨henc, hmag0, hsign0⟩ := fields_zero ei fi
  have hE : extractFloatExp 0 ei fi = 0 := by
    rw [← BitVec.toNat_inj, toNat_extractFloatExp (e := ei) (f := fi) 0 (by have := hin.exp_le; omega),
      hmag0]
    exact Nat.zero_div _
  have hF : extractFloatFrac 0 fi = 0 := by
    rw [← BitVec.toNat_inj, toNat_extractFloatFrac (e := ei) (f := fi) 0 (by have := hin.frac_le; omega),
      hmag0]
    exact Nat.zero_mod _
  have hr := castRebias_zero fi fo ri ro si so hin
    hout hlt
  have hr' : castRebias 0 (extractFloatExp 0 ei fi) (extractFloatFrac 0 fi) (stdSpec ei fi ri si)
      (stdSpec eo fo ro so) = some { FExp := 0, Frac := 0, ExpOverflow := false } := by
    rw [hE, hF]
    exact hr
  obtain ⟨henc', hsign, hmag⟩ := floatCast_fields hin hout henc hr' rfl (Nat.two_pow_pos eo)
    (Nat.two_pow_pos fi)
  have hinf : 0 < infMag ei fi := by
    have hge := (half_range hin).1
    have hge8 := (half_range hin).2.1
    exact Nat.mul_pos (by omega) (Nat.two_pow_pos fi)
  rw [← BitVec.toNat_inj, signOf_eq henc', hsign, hmag, hmag0, hsign0, if_neg (by omega)]
  unfold roundedFraction
  simp

/-- The conversion is right on the encodings that are not normal exactly where their class
survives. -/
theorem castCorrect_of_not_normal (hin : FormatBounds ei fi) (hout : FormatBounds eo fo)
    (hx : IsEncoding ei fi x) (hn : ¬ IsNormal ei fi x) :
    CastCorrect ei fi eo fo ro x (floatCast x (stdSpec ei fi ri si) (stdSpec eo fo ro so)) ↔
      ¬ CastLoses ei fi eo fo ro x := by
  obtain ⟨henc0, hmag0, hsign0⟩ := fields_zero eo fo
  obtain ⟨hi, hi8, -⟩ := half_range hin
  obtain ⟨ho, ho8, -⟩ := half_range hout
  have hinf : 0 < infMag eo fo := Nat.mul_pos (by omega) (Nat.two_pow_pos fo)
  rcases Nat.lt_or_ge eo ei with hlt | hle
  · have hmono := half_range_mono hlt hout
    by_cases hspecial : x.toNat = 2 ^ (ei + fi) ∨ infMag ei fi ≤ magOf ei fi x
    · -- The range check returns zero for them.
      have hne : x ≠ 0 := by
        rintro rfl
        obtain ⟨-, hmagi, -⟩ := fields_zero ei fi
        rw [hmagi] at hspecial
        rcases hspecial with h | h
        · exact (Nat.two_pow_pos (ei + fi)).ne h
        · exact absurd h (Nat.not_le.mpr (Nat.mul_pos (by omega) (Nat.two_pow_pos fi)))
      have hzero : x.toNat = 2 ^ (ei + fi) → magOf ei fi x = 0 ∧ signOf ei fi x = true := by
        intro h
        unfold magOf signOf
        rw [h, Nat.mod_self, Nat.div_self (Nat.two_pow_pos _)]
        exact ⟨rfl, rfl⟩
      have hr := floatCast_out ri ro si so hin hout hlt hne (by
        rcases hspecial with h | h
        · left
          rw [(hzero h).1, Nat.zero_div]
          omega
        · right
          have hE : 2 ^ ei - 1 ≤ magOf ei fi x / 2 ^ fi :=
            (Nat.le_div_iff_mul_le (Nat.two_pow_pos fi)).mpr h
          omega)
      rw [hr]
      refine ⟨fun hc => ?_, fun hc => absurd (.inl ⟨hlt, hspecial⟩) hc⟩
      rcases hspecial with h | h
      · obtain ⟨-, hs⟩ := hc.zero (hzero h).1
        rw [hsign0, (hzero h).2] at hs
        exact absurd hs Bool.false_ne_true
      · rcases Nat.eq_or_lt_of_le h with heq | hgt
        · have hinf' := (hc.infinite heq.symm).1
          unfold IsInf at hinf'
          omega
        · have hnan := hc.nan hgt
          unfold IsNaN at hnan
          omega
    · -- Positive zero and the subnormal numbers.
      have hnot : ¬ CastLoses ei fi eo fo ro x := by
        rintro (⟨-, hs⟩ | ⟨-, hnorm, -⟩)
        · exact hspecial hs
        · exact hn hnorm
      rw [not_or, Nat.not_le] at hspecial
      have hsub : magOf ei fi x < 2 ^ fi := by
        by_contra hge
        exact hn ⟨Nat.not_lt.mp hge, hspecial.2⟩
      have hr : floatCast x (stdSpec ei fi ri si) (stdSpec eo fo ro so) = 0 := by
        by_cases hx0 : x = 0
        · rw [hx0]
          exact floatCast_zero hin hout hlt
        · refine floatCast_out _ _ _ _ hin hout hlt hx0 (.inl ?_)
          rw [Nat.div_eq_of_lt hsub]
          omega
      rw [hr]
      refine ⟨fun _ => hnot, fun _ => ⟨henc0, fun h0 => ⟨hmag0, ?_⟩, fun hi' => ?_, fun hnan => ?_,
        fun hnorm => absurd hnorm hn, fun hnorm => absurd hnorm hn⟩⟩
      · have hval := signOf_eq hx
        rw [h0, Nat.add_zero] at hval
        rw [hsign0]
        cases hs : signOf ei fi x with
        | false => rfl
        | true =>
          rw [hs, Bool.toNat_true, Nat.one_mul] at hval
          exact absurd hval hspecial.1
      · exact absurd hi' hspecial.2.ne
      · exact absurd hnan (Nat.not_lt.mpr hspecial.2.le)
  · have hnot : ¬ CastLoses ei fi eo fo ro x := by
      rintro (⟨hlt, -⟩ | ⟨-, hnorm, -⟩)
      · omega
      · exact hn hnorm
    obtain ⟨henc, hsign, hzero, hinf', hnan⟩ :=
      floatCast_classes ri ro si so hin hout hx hle
    exact ⟨fun _ => hnot, fun _ => ⟨henc, fun h0 => ⟨hzero h0, hsign⟩,
      fun hi' => ⟨hinf' hi', hsign⟩, hnan, fun hnorm => absurd hnorm hn,
      fun hnorm => absurd hnorm hn⟩⟩

variable (fo) in
/-- Below the exponent of the least normal number a value rounds below it. -/
theorem castValue_below (hX : 2 ^ fi ≤ magOf ei fi x)
    (hlow : magOf ei fi x / 2 ^ fi + 2 ^ (eo - 1) < 2 ^ (ei - 1)) :
    2 * castValue ei fi eo fo (magOf ei fi x) < 2 ^ fo := by
  have hmod := Nat.mod_lt (magOf ei fi x) (Nat.two_pow_pos fi)
  have hW : ((2 ^ fi + magOf ei fi x % 2 ^ fi : Nat) : ℚ) < 2 ^ (fi + 1) := by
    have hnat : 2 ^ fi + magOf ei fi x % 2 ^ fi < 2 ^ (fi + 1) := by
      rw [Nat.pow_succ]
      omega
    exact_mod_cast hnat
  have hexp : (2 : ℚ) ^ ((magOf ei fi x / 2 ^ fi : Nat) + (2 ^ (eo - 1) : Nat) -
      (2 ^ (ei - 1) : Nat) - 1 + fo - fi : ℤ) ≤ 2 ^ ((fo : ℤ) - fi - 2) := by
    refine zpow_le_zpow_right₀ (by norm_num) ?_
    generalize magOf ei fi x / 2 ^ fi = E at *
    omega
  have hpow : (2 : ℚ) ^ (fi + 1) * 2 ^ ((fo : ℤ) - fi - 2) * 2 = 2 ^ fo := by
    have htwo : (2 : ℚ) ≠ 0 := two_ne_zero
    rw [← zpow_natCast, ← zpow_natCast 2 fo, ← zpow_add₀ htwo, ← zpow_add_one₀ htwo]
    congr 1
    omega
  have hpos : (0 : ℚ) < 2 ^ ((fo : ℤ) - fi - 2) := zpow_pos two_pos _
  rw [castValue_eq hX, ← hpow, mul_comm (2 : ℚ)]
  refine mul_lt_mul_of_pos_right ?_ two_pos
  calc ((2 ^ fi + magOf ei fi x % 2 ^ fi : Nat) : ℚ) * _
      ≤ ((2 ^ fi + magOf ei fi x % 2 ^ fi : Nat) : ℚ) * 2 ^ ((fo : ℤ) - fi - 2) :=
        mul_le_mul_of_nonneg_left hexp (Nat.cast_nonneg _)
    _ < 2 ^ (fi + 1) * 2 ^ ((fo : ℤ) - fi - 2) := mul_lt_mul_of_pos_right hW hpos

/-- A significand `F` above `A` units of `B`: all its units, against the middle of the last
step. -/
theorem all_ones_iff {A : Nat} (hA : 0 < A) (B F : Nat) :
    (2 * A - 1) * (A * B) ≤ (A * B + F) * A ↔ (A - 1) * B ≤ F := by
  obtain ⟨a, rfl⟩ : ∃ a, A = a + 1 := ⟨A - 1, by omega⟩
  have hleft : (2 * (a + 1) - 1) * ((a + 1) * B) = ((a + 1) * B + a * B) * (a + 1) := by
    rw [show 2 * (a + 1) - 1 = a + 1 + a by omega]
    ring
  rw [hleft, Nat.add_sub_cancel]
  constructor
  · intro h
    have := Nat.le_of_mul_le_mul_right h (Nat.succ_pos a)
    omega
  · intro h
    exact Nat.mul_le_mul_right _ (by omega)

variable (eo fo) in
/-- At the exponent below the least normal number, a value rounds up to it exactly where
all the kept bits are ones. -/
theorem castNearest_least (hX : 2 ^ fi ≤ magOf ei fi x) (heo : 2 ≤ 2 ^ eo)
    (ht : magOf ei fi x / 2 ^ fi + 2 ^ (eo - 1) = 0 + 2 ^ (ei - 1)) (hfo : 0 < fo) :
    if fo ≤ fi ∧ magOf ei fi x % 2 ^ fi / 2 ^ (fi - fo) = 2 ^ fo - 1 then
      IsNearestEven eo fo (castValue ei fi eo fo (magOf ei fi x)) (2 ^ fo)
    else 2 * castValue ei fi eo fo (magOf ei fi x) <
      magValue fo (2 ^ fo - 1) + magValue fo (2 ^ fo - 1 + 1) := by
  have hposo := Nat.two_pow_pos fo
  have hposi := Nat.two_pow_pos fi
  have hmod := Nat.mod_lt (magOf ei fi x) hposi
  have htwo : 2 ^ fo < 2 ^ (fo + 1) := by
    rw [Nat.pow_succ]
    omega
  have hvals : magValue fo (2 ^ fo - 1) = 2 ^ fo - 1 ∧ magValue fo (2 ^ fo - 1 + 1) = 2 ^ fo := by
    rw [Nat.sub_add_cancel hposo]
    constructor
    · rw [magValue, magSig_of_lt (by omega), magExp_of_lt (by omega), Nat.pow_zero, Nat.mul_one]
    · rw [magValue, magSig_of_lt_two htwo, magExp_of_lt htwo, Nat.pow_zero, Nat.mul_one]
  have hscaled := castValue_scaled fo hX ht
  rw [Nat.zero_add] at hscaled
  have hpos : (0 : ℚ) < 2 ^ fi := by positivity
  have hdouble : 2 * castValue ei fi eo fo (magOf ei fi x) * 2 ^ fi =
      ((2 ^ fi + magOf ei fi x % 2 ^ fi : Nat) : ℚ) * 2 ^ fo := by
    rw [← hscaled]
    ring
  have hsum : ((2 ^ fo - 1 : Nat) : ℚ) + ((2 ^ fo : Nat) : ℚ) = ((2 ^ (fo + 1) - 1 : Nat) : ℚ) := by
    rw [← Nat.cast_add]
    congr 1
    rw [Nat.pow_succ]
    omega
  rw [hvals.1, hvals.2, hsum]
  split
  · rename_i hall
    obtain ⟨hle, hq⟩ := hall
    -- The fraction is within one unit of the next binade.
    have hF : (2 ^ fo - 1) * 2 ^ (fi - fo) ≤ magOf ei fi x % 2 ^ fi := by
      rw [← hq]
      exact Nat.div_mul_le_self _ _
    have hsplit : 2 ^ fi = 2 ^ fo * 2 ^ (fi - fo) := by rw [← Nat.pow_add]; congr 1; omega
    have hmid : (2 ^ (fo + 1) - 1) * 2 ^ fi ≤ (2 ^ fi + magOf ei fi x % 2 ^ fi) * 2 ^ fo := by
      rw [Nat.pow_succ, hsplit, Nat.mul_comm (2 ^ fo) 2]
      rw [hsplit] at hF
      exact (all_ones_iff hposo (2 ^ (fi - fo)) _).mpr hF
    have hmidq : ((2 ^ (fo + 1) - 1 : Nat) : ℚ) ≤ 2 * castValue ei fi eo fo (magOf ei fi x) := by
      refine le_of_mul_le_mul_right ?_ hpos
      rw [hdouble]
      exact_mod_cast hmid
    have hupper := (castValue_bounds fo hX ht).1
    rw [Nat.zero_add] at hupper
    have hinf : 2 ^ fo - 1 < infMag eo fo := by
      have hmul : 1 * 2 ^ fo ≤ infMag eo fo := Nat.mul_le_mul_right _ (by omega)
      omega
    have hodd : (2 ^ fo - 1) % 2 = 1 := by
      obtain ⟨g, rfl⟩ : ∃ g, fo = g + 1 := ⟨fo - 1, by omega⟩
      rw [Nat.pow_succ]
      have := Nat.two_pow_pos g
      omega
    have hup := isNearestEven_up (v := castValue ei fi eo fo (magOf ei fi x)) hinf
      (by
        rw [hvals.2, Nat.cast_pow, Nat.cast_ofNat]
        exact hupper.le)
      (by
        rw [hvals.1, hvals.2, hsum]
        rcases eq_or_lt_of_le hmidq with heq | hlt
        · exact .inr ⟨heq.symm, hodd⟩
        · exact .inl hlt)
    rw [Nat.sub_add_cancel hposo] at hup
    exact hup
  · rename_i hnot
    refine lt_of_mul_lt_mul_right (a := 2 ^ fi) ?_ hpos.le
    rw [hdouble]
    have hnat : (2 ^ fi + magOf ei fi x % 2 ^ fi) * 2 ^ fo < (2 ^ (fo + 1) - 1) * 2 ^ fi := by
      rcases Nat.lt_or_ge fi fo with hlt | hle
      · -- A fraction that is padded ends in zeros.
        have hpow : 2 ^ fi * 2 ≤ 2 ^ fo := by
          rw [← Nat.pow_succ]
          exact Nat.pow_le_pow_right (by decide) hlt
        have hW : 2 ^ fi + magOf ei fi x % 2 ^ fi ≤ 2 ^ fi * 2 - 1 := by omega
        calc (2 ^ fi + magOf ei fi x % 2 ^ fi) * 2 ^ fo ≤ (2 ^ fi * 2 - 1) * 2 ^ fo :=
              Nat.mul_le_mul_right _ hW
          _ < (2 ^ (fo + 1) - 1) * 2 ^ fi := by
            rw [Nat.sub_mul, Nat.sub_mul, Nat.pow_succ, Nat.one_mul, Nat.one_mul]
            have hcomm : 2 ^ fi * 2 * 2 ^ fo = 2 ^ fo * 2 * 2 ^ fi := by ring
            rw [hcomm]
            have hbig : 2 ^ fo * 1 ≤ 2 ^ fo * (2 * 2 ^ fi) := Nat.mul_le_mul_left _ (by omega)
            rw [← Nat.mul_assoc] at hbig
            omega
      · have hq : magOf ei fi x % 2 ^ fi / 2 ^ (fi - fo) < 2 ^ fo - 1 := by
          have hne : magOf ei fi x % 2 ^ fi / 2 ^ (fi - fo) ≠ 2 ^ fo - 1 := fun h => hnot ⟨hle, h⟩
          have hlt : magOf ei fi x % 2 ^ fi / 2 ^ (fi - fo) < 2 ^ fo := by
            refine Nat.div_lt_of_lt_mul ?_
            rw [← Nat.pow_add, show fi - fo + fo = fi by omega]
            exact hmod
          omega
        have hF : magOf ei fi x % 2 ^ fi < (2 ^ fo - 1) * 2 ^ (fi - fo) :=
          (Nat.div_lt_iff_lt_mul (Nat.two_pow_pos _)).mp hq
        have hsplit : 2 ^ fi = 2 ^ fo * 2 ^ (fi - fo) := by rw [← Nat.pow_add]; congr 1; omega
        rw [hsplit] at hF
        rw [Nat.pow_succ, hsplit, Nat.mul_comm (2 ^ fo) 2]
        exact Nat.not_le.mp (mt (all_ones_iff hposo (2 ^ (fi - fo)) _).mp (Nat.not_le.mpr hF))
    exact_mod_cast hnat

/-- For a normal number only the rounding is at stake. -/
theorem CastCorrect.of_normal {rnd : RndMode} {r : Tfloat} (hn : IsNormal ei fi x)
    (henc : IsEncoding eo fo r)
    (hnear : rnd = .nevn → ∀ n, 2 ^ fo ≤ n → n < infMag eo fo →
      IsNearestEven eo fo (castValue ei fi eo fo (magOf ei fi x)) n →
        magOf eo fo r = n ∧ signOf eo fo r = signOf ei fi x)
    (htrunc : rnd = .none → ∀ n, 2 ^ fo ≤ n → n < infMag eo fo →
      (magValue fo n : ℚ) ≤ castValue ei fi eo fo (magOf ei fi x) →
        castValue ei fi eo fo (magOf ei fi x) < magValue fo (n + 1) →
          magOf eo fo r = n ∧ signOf eo fo r = signOf ei fi x) :
    CastCorrect ei fi eo fo rnd x r where
  encoding := henc
  zero := fun h0 => absurd hn.1 (Nat.not_le.mpr (h0 ▸ Nat.two_pow_pos fi))
  infinite := fun hi => absurd hi hn.2.ne
  nan := fun hnan => absurd hnan (Nat.not_lt.mpr hn.2.le)
  nearest := fun _ => hnear
  truncated := fun _ => htrunc

/-- A value below the least normal number has no truncation that is normal. -/
theorem not_truncated_of_lt {n : Nat} {v : ℚ} (hv : v < 2 ^ fo) (hn : 2 ^ fo ≤ n) :
    ¬ (magValue fo n : ℚ) ≤ v := by
  intro hle
  have htwo : 2 ^ fo < 2 ^ (fo + 1) := Nat.pow_lt_pow_right (by decide) (Nat.lt_succ_self fo)
  have hval : magValue fo (2 ^ fo) = 2 ^ fo := by
    rw [magValue, magSig_of_lt_two htwo, magExp_of_lt htwo, Nat.pow_zero, Nat.mul_one]
  have hmono : ((2 ^ fo : Nat) : ℚ) ≤ magValue fo n := by
    rw [← hval]
    exact_mod_cast (magValue_strictMono fo).monotone hn
  rw [Nat.cast_pow, Nat.cast_ofNat] at hmono
  linarith

theorem IsNormal.ne_zero (hn : IsNormal ei fi x) : x ≠ 0 := by
  rintro rfl
  have hzero := (fields_zero ei fi).2.1
  have hpos := Nat.two_pow_pos fi
  have hge := hn.1
  omega

/-- What can go wrong with a normal number. -/
theorem castLoses_iff_of_isNormal {rnd : RndMode} (hn : IsNormal ei fi x) :
    CastLoses ei fi eo fo rnd x ↔ rnd = .nevn ∧
      ∃ t, magOf ei fi x / 2 ^ fi + 2 ^ (eo - 1) = t + 2 ^ (ei - 1) ∧
        ((0 < t ∧ OddGuard fi fo (magOf ei fi x) ∧
            cutMag fi fo (magOf ei fi x) t + 1 < infMag eo fo) ∨
          (t = 0 ∧ fo ≤ fi ∧ magOf ei fi x % 2 ^ fi / 2 ^ (fi - fo) = 2 ^ fo - 1)) := by
  constructor
  · rintro (⟨-, h | h⟩ | ⟨hr, -, h⟩)
    · have hzero : magOf ei fi x = 0 := by
        unfold magOf
        rw [h, Nat.mod_self]
      have hpos := Nat.two_pow_pos fi
      have hge := hn.1
      omega
    · exact absurd hn.2 (Nat.not_lt.mpr h)
    · exact ⟨hr, h⟩
  · rintro ⟨hr, h⟩
    exact .inr ⟨hr, hn, h⟩

/-- Only a narrower exponent is left. -/
theorem narrow_of_range (hin : FormatBounds ei fi) (hout : FormatBounds eo fo)
    (h : 2 ^ fi ≤ magOf ei fi x)
    (hrange : magOf ei fi x / 2 ^ fi + 2 ^ (eo - 1) < 2 ^ (ei - 1) ∨
      2 ^ (ei - 1) + 2 ^ eo ≤ magOf ei fi x / 2 ^ fi + 2 ^ (eo - 1)) : eo < ei := by
  by_contra hle
  obtain ⟨hi, -, -⟩ := half_range hin
  obtain ⟨ho, -, -⟩ := half_range hout
  have hElt := exp_lt ei fi x
  have hE0 : 0 < magOf ei fi x / 2 ^ fi := Nat.div_pos h (Nat.two_pow_pos fi)
  have hmono : 2 ^ (ei - 1) ≤ 2 ^ (eo - 1) := Nat.pow_le_pow_right (by decide) (by omega)
  generalize magOf ei fi x / 2 ^ fi = E at *
  omega

/-- A normal number below the exponents of the output format. -/
theorem castCorrect_below (hin : FormatBounds ei fi) (hout : FormatBounds eo fo)
    (hn : IsNormal ei fi x)
    (hlow : magOf ei fi x / 2 ^ fi + 2 ^ (eo - 1) < 2 ^ (ei - 1)) :
    CastCorrect ei fi eo fo ro x (floatCast x (stdSpec ei fi ri si) (stdSpec eo fo ro so)) := by
  obtain ⟨henc0, -, -⟩ := fields_zero eo fo
  have heo := hout.exp_ge
  have hposo := Nat.two_pow_pos fo
  have hpos : (0 : ℚ) < 2 ^ fo := by positivity
  have hv := castValue_below fo hn.1 hlow
  rw [floatCast_out _ _ _ _ hin hout (narrow_of_range hin hout hn.1 (.inl hlow)) hn.ne_zero (.inl hlow)]
  refine CastCorrect.of_normal hn henc0 (fun _ n hn1 hn2 hnear => ?_)
    (fun _ n hn1 hn2 hle => absurd hle (not_truncated_of_lt (by linarith) hn1))
  -- Half of the least normal number is below the middle of the step under it.
  have hval : (2 : ℚ) ^ fo ≤ magValue fo (2 ^ fo - 1 + 1) := by
    have htwo : 2 ^ fo < 2 ^ (fo + 1) := Nat.pow_lt_pow_right (by decide) (Nat.lt_succ_self fo)
    rw [Nat.sub_add_cancel hposo, magValue, magSig_of_lt_two htwo, magExp_of_lt htwo,
      Nat.pow_zero, Nat.mul_one, Nat.cast_pow, Nat.cast_ofNat]
  have hnonneg : (0 : ℚ) ≤ magValue fo (2 ^ fo - 1) := Nat.cast_nonneg _
  have hle := hnear.le_of_two_mul_lt (k := 2 ^ fo - 1) (by omega) (by linarith)
  omega

/-- A normal number at or above the exponent of infinity. -/
theorem castCorrect_above (hin : FormatBounds ei fi) (hout : FormatBounds eo fo)
    (hx : IsEncoding ei fi x) (hn : IsNormal ei fi x)
    (ht : magOf ei fi x / 2 ^ fi + 2 ^ (eo - 1) = t + 2 ^ (ei - 1)) (hbig : 2 ^ eo ≤ t + 1) :
    CastCorrect ei fi eo fo ro x (floatCast x (stdSpec ei fi ri si) (stdSpec eo fo ro so)) := by
  have heo := hout.exp_ge
  have henc : IsEncoding eo fo (floatCast x (stdSpec ei fi ri si) (stdSpec eo fo ro so)) := by
    rcases Nat.lt_or_ge t (2 ^ eo) with h | h
    · exact (floatCast_normal _ _ _ _ hin hout hx hn ht h).1
    · have hrange : 2 ^ (ei - 1) + 2 ^ eo ≤ magOf ei fi x / 2 ^ fi + 2 ^ (eo - 1) := by omega
      rw [floatCast_out _ _ _ _ hin hout (narrow_of_range hin hout hn.1 (.inr hrange)) hn.ne_zero
        (.inr hrange)]
      exact (fields_zero eo fo).1
  have hv := castValue_overflow fo hn.1 (by omega) ht hbig
  refine CastCorrect.of_normal hn henc (fun _ n hn1 hn2 hnear => ?_) (fun _ n hn1 hn2 _ hlt => ?_)
  · exact absurd (hnear.unique (isNearestEven_inf hv)) hn2.ne
  · have hmono : (magValue fo (n + 1) : ℚ) ≤ magValue fo (infMag eo fo) := by
      exact_mod_cast (magValue_strictMono fo).monotone hn2
    linarith

/-- A normal number at the exponent just below the normal numbers of the output format. -/
theorem castCorrect_least_iff (hin : FormatBounds ei fi) (hout : FormatBounds eo fo)
    (hx : IsEncoding ei fi x) (hn : IsNormal ei fi x)
    (ht : magOf ei fi x / 2 ^ fi + 2 ^ (eo - 1) = 0 + 2 ^ (ei - 1)) :
    CastCorrect ei fi eo fo ro x (floatCast x (stdSpec ei fi ri si) (stdSpec eo fo ro so)) ↔
      ¬ (ro = .nevn ∧ fo ≤ fi ∧
        magOf ei fi x % 2 ^ fi / 2 ^ (fi - fo) = 2 ^ fo - 1) := by
  have hfo := hout.frac_ge
  have hposo := Nat.two_pow_pos fo
  obtain ⟨ho, ho8, -⟩ := half_range hout
  obtain ⟨henc, hsign, hmag⟩ := floatCast_normal ri ro si so
    hin hout hx hn ht (Nat.two_pow_pos eo)
  have hleast := castNearest_least eo fo hn.1 (by omega) ht (by omega)
  have hv := (castValue_bounds fo hn.1 ht).1
  rw [Nat.zero_add] at hv
  have hround := roundedFraction_lt (show 0 < fo by omega)
    (Nat.mod_lt (magOf ei fi x) (Nat.two_pow_pos fi)) ro
  have hinf : 2 * 2 ^ fo ≤ infMag eo fo := Nat.mul_le_mul_right _ (by omega)
  constructor
  · rintro hc ⟨hr, hcond⟩
    rw [if_pos hcond] at hleast
    have hm := (hc.nearest hn hr (2 ^ fo) le_rfl (by omega) hleast).1
    rw [hmag, Nat.zero_mul, Nat.zero_add] at hm
    omega
  · intro hcond
    refine CastCorrect.of_normal hn henc (fun hr n hn1 hn2 hnear => ?_)
      (fun _ n hn1 hn2 hle => absurd hle (not_truncated_of_lt hv hn1))
    rw [if_neg (fun h => hcond ⟨hr, h⟩)] at hleast
    have hle := hnear.le_of_two_mul_lt (k := 2 ^ fo - 1) (by omega) hleast
    omega

/-- A normal number with a normal exponent and a fraction that is cut. -/
theorem castCorrect_cut_iff (hin : FormatBounds ei fi) (hout : FormatBounds eo fo)
    (hx : IsEncoding ei fi x) (hn : IsNormal ei fi x) (hcut : fo < fi)
    (ht : magOf ei fi x / 2 ^ fi + 2 ^ (eo - 1) = t + 2 ^ (ei - 1)) (ht0 : 0 < t)
    (htlt : t + 1 < 2 ^ eo) :
    CastCorrect ei fi eo fo ro x (floatCast x (stdSpec ei fi ri si) (stdSpec eo fo ro so)) ↔
      ¬ (ro = .nevn ∧ OddGuard fi fo (magOf ei fi x) ∧
        cutMag fi fo (magOf ei fi x) t + 1 < infMag eo fo) := by
  have hfo := hout.frac_ge
  obtain ⟨henc, hsign, hmag⟩ := floatCast_normal ri ro si so
    hin hout hx hn ht (by omega)
  have hq := cutFraction_lt hcut (magOf ei fi x)
  have hT : cutMag fi fo (magOf ei fi x) t < infMag eo fo := by
    have hmul : (t + 1) * 2 ^ fo ≤ infMag eo fo := Nat.mul_le_mul_right _ (by omega)
    rw [Nat.succ_mul] at hmul
    unfold cutMag
    omega
  have hTnormal : 2 ^ fo ≤ cutMag fi fo (magOf ei fi x) t :=
    le_trans (Nat.le_mul_of_pos_left _ ht0) (Nat.le_add_right _ _)
  have hnear := castNearest_cut fo hn.1 hcut ht0 ht hT
  have hiff := roundedFraction_eq_iff hcut (by omega) (magOf ei fi x) t
  obtain ⟨htr1, htr2⟩ := castTruncated_cut fo hn.1 hcut ht0 ht
  constructor
  · rintro hc ⟨rfl, hodd, hlt⟩
    -- The rounding bit should have carried.
    refine (hiff.mp ?_) hodd
    rw [← hmag]
    refine (hc.nearest hn rfl _ ?_ ?_ hnear).1
    · omega
    · have hle := Bool.toNat_le (decide (2 ^ (fi - fo) < 2 * (magOf ei fi x % 2 ^ (fi - fo)) ∨
        (2 ^ (fi - fo) = 2 * (magOf ei fi x % 2 ^ (fi - fo)) ∧
          cutMag fi fo (magOf ei fi x) t % 2 = 1)))
      omega
  · intro hcond
    refine CastCorrect.of_normal hn henc (fun hr n hn1 hn2 hnear' => ⟨?_, hsign⟩)
      (fun hr n hn1 hn2 hle hlt => ⟨?_, hsign⟩)
    · subst hr
      have hn' := hnear'.unique hnear
      rw [hn'] at hn2 ⊢
      rw [hmag]
      by_cases hodd : OddGuard fi fo (magOf ei fi x)
      · -- An odd fraction with its guard bit rounds up, here to infinity.
        exfalso
        refine hcond ⟨rfl, hodd, ?_⟩
        obtain ⟨-, hq1, hg⟩ := hodd
        rw [guard_iff (by omega)] at hg
        have hup : 2 ^ (fi - fo) < 2 * (magOf ei fi x % 2 ^ (fi - fo)) ∨
            (2 ^ (fi - fo) = 2 * (magOf ei fi x % 2 ^ (fi - fo)) ∧
              cutMag fi fo (magOf ei fi x) t % 2 = 1) := by
          rcases Nat.lt_or_ge (2 ^ (fi - fo)) (2 * (magOf ei fi x % 2 ^ (fi - fo))) with h | h
          · exact .inl h
          · refine .inr ⟨by omega, ?_⟩
            rw [cutMag_mod_two (by omega) hcut]
            exact hq1
        rw [decide_eq_true hup] at hn2
        exact hn2
      · exact hiff.mpr hodd
    · subst hr
      have hround : roundedFraction (magOf ei fi x % 2 ^ fi) fi fo .none =
          magOf ei fi x % 2 ^ fi / 2 ^ (fi - fo) := by
        unfold roundedFraction
        rw [if_neg (by omega), if_neg (fun h => absurd h.1 (by decide)), Nat.or_zero]
      rw [hmag, hround]
      exact magnitude_unique htr1 htr2 hle hlt

/-- A normal number with a normal exponent and a fraction that is padded. -/
theorem castCorrect_padded (hin : FormatBounds ei fi) (hout : FormatBounds eo fo)
    (hx : IsEncoding ei fi x) (hn : IsNormal ei fi x) (hpad : fi ≤ fo)
    (ht : magOf ei fi x / 2 ^ fi + 2 ^ (eo - 1) = t + 2 ^ (ei - 1)) (ht0 : 0 < t)
    (htlt : t + 1 < 2 ^ eo) :
    CastCorrect ei fi eo fo ro x (floatCast x (stdSpec ei fi ri si) (stdSpec eo fo ro so)) := by
  obtain ⟨henc, hsign, hmag⟩ := floatCast_normal ri ro si so
    hin hout hx hn ht (by omega)
  have hexact := castValue_exact fo hn.1 hpad ht ht0
  have hmag' : magOf eo fo (floatCast x (stdSpec ei fi ri si) (stdSpec eo fo ro so)) =
      t * 2 ^ fo + magOf ei fi x % 2 ^ fi * 2 ^ (fo - fi) := by
    rw [hmag, roundedFraction, if_pos hpad]
  have hfrac : magOf ei fi x % 2 ^ fi * 2 ^ (fo - fi) < 2 ^ fo := by
    have hlt := roundedFraction_lt (lt_of_lt_of_le (by decide) hout.frac_ge)
      (Nat.mod_lt (magOf ei fi x) (Nat.two_pow_pos fi)) ro
    rwa [roundedFraction, if_pos hpad] at hlt
  have hT : t * 2 ^ fo + magOf ei fi x % 2 ^ fi * 2 ^ (fo - fi) < infMag eo fo := by
    have hmul : (t + 1) * 2 ^ fo ≤ infMag eo fo := Nat.mul_le_mul_right _ (by omega)
    rw [Nat.succ_mul] at hmul
    omega
  have hstep : ∀ k, (magValue fo k : ℚ) < magValue fo (k + 1) := fun k => by
    exact_mod_cast magValue_strictMono fo (Nat.lt_succ_self k)
  refine CastCorrect.of_normal hn henc (fun _ n hn1 hn2 hnear => ⟨?_, hsign⟩)
    (fun _ n hn1 hn2 hle hlt => ⟨?_, hsign⟩)
  · rw [hmag']
    refine IsNearestEven.unique ?_ hnear
    rw [hexact]
    refine isNearestEven_down hT le_rfl (.inl ?_)
    have := hstep (t * 2 ^ fo + magOf ei fi x % 2 ^ fi * 2 ^ (fo - fi))
    linarith
  · rw [hmag']
    rw [hexact] at hle hlt
    exact magnitude_unique le_rfl (hstep _) hle hlt

/-- The conversion of a normal number is right exactly outside its losses. -/
theorem castCorrect_of_isNormal (hin : FormatBounds ei fi) (hout : FormatBounds eo fo)
    (hx : IsEncoding ei fi x) (hn : IsNormal ei fi x) :
    CastCorrect ei fi eo fo ro x (floatCast x (stdSpec ei fi ri si) (stdSpec eo fo ro so)) ↔
      ¬ CastLoses ei fi eo fo ro x := by
  rw [castLoses_iff_of_isNormal hn]
  rcases Nat.lt_or_ge (magOf ei fi x / 2 ^ fi + 2 ^ (eo - 1)) (2 ^ (ei - 1)) with hlow | hge
  · refine ⟨fun _ => ?_, fun _ => castCorrect_below hin hout hn hlow⟩
    rintro ⟨-, t, ht, -⟩
    omega
  obtain ⟨t, ht⟩ : ∃ t, magOf ei fi x / 2 ^ fi + 2 ^ (eo - 1) = t + 2 ^ (ei - 1) :=
    ⟨_, (Nat.sub_add_cancel hge).symm⟩
  have hunique : ∀ u, magOf ei fi x / 2 ^ fi + 2 ^ (eo - 1) = u + 2 ^ (ei - 1) → u = t := by
    intro u hu
    omega
  rcases Nat.eq_zero_or_pos t with rfl | ht0
  · rw [castCorrect_least_iff hin hout hx hn ht]
    refine not_congr (and_congr_right fun _ => ⟨fun h => ⟨0, ht, .inr ⟨rfl, h⟩⟩, ?_⟩)
    rintro ⟨u, hu, ⟨hu0, -⟩ | ⟨-, h⟩⟩
    · rw [hunique u hu] at hu0
      exact absurd hu0 (lt_irrefl 0)
    · exact h
  rcases Nat.lt_or_ge (t + 1) (2 ^ eo) with htlt | hbig
  · rcases Nat.lt_or_ge fo fi with hcut | hpad
    · rw [castCorrect_cut_iff hin hout hx hn hcut ht ht0 htlt]
      refine not_congr (and_congr_right fun _ => ⟨fun h => ⟨t, ht, .inl ⟨ht0, h⟩⟩, ?_⟩)
      rintro ⟨u, hu, ⟨-, h⟩ | ⟨rfl, -⟩⟩
      · rw [hunique u hu] at h
        exact h
      · exact absurd (hunique 0 hu) ht0.ne
    · refine ⟨fun _ => ?_, fun _ => castCorrect_padded hin hout hx hn hpad ht ht0 htlt⟩
      rintro ⟨-, u, hu, ⟨-, hodd, -⟩ | ⟨rfl, -⟩⟩
      · exact absurd hodd.1 (Nat.not_lt.mpr hpad)
      · exact absurd (hunique 0 hu) ht0.ne
  · refine ⟨fun _ => ?_, fun _ => castCorrect_above hin hout hx hn ht hbig⟩
    rintro ⟨-, u, hu, ⟨-, -, hlt⟩ | ⟨rfl, -⟩⟩
    · rw [hunique u hu] at hlt
      have hmul : infMag eo fo ≤ t * 2 ^ fo := Nat.mul_le_mul_right _ (by omega)
      have hle : t * 2 ^ fo ≤ cutMag fi fo (magOf ei fi x) t := Nat.le_add_right _ _
      omega
    · exact absurd (hunique 0 hu) ht0.ne

/-- A normal number that is widened is exact, and narrowing it back gives the number. -/
theorem floatCast_floatCast (hin : FormatBounds ei fi) (hout : FormatBounds eo fo)
    (hx : IsEncoding ei fi x) (hn : IsNormal ei fi x) (hexp : ei ≤ eo) (hfrac : fi ≤ fo)
    (rb : RndMode) (sb : Bool) :
    floatCast (floatCast x (stdSpec ei fi ri si) (stdSpec eo fo ro so)) (stdSpec eo fo ro so)
      (stdSpec ei fi rb sb) = x := by
  obtain ⟨hi, hi8, -⟩ := half_range hin
  obtain ⟨ho, -, -⟩ := half_range hout
  have hposo := Nat.two_pow_pos fo
  have hElt := exp_lt ei fi x
  have hE0 : 0 < magOf ei fi x / 2 ^ fi := Nat.div_pos hn.1 (Nat.two_pow_pos fi)
  have hEinf : magOf ei fi x / 2 ^ fi < 2 ^ ei - 1 :=
    (Nat.div_lt_iff_lt_mul (Nat.two_pow_pos fi)).mpr hn.2
  have hmono : 2 ^ (ei - 1) ≤ 2 ^ (eo - 1) := Nat.pow_le_pow_right (by decide) (by omega)
  obtain ⟨t, ht, ht0, htlt⟩ : ∃ t, magOf ei fi x / 2 ^ fi + 2 ^ (eo - 1) = t + 2 ^ (ei - 1) ∧
      0 < t ∧ t + 1 < 2 ^ eo := by
    generalize magOf ei fi x / 2 ^ fi = E at *
    exact ⟨E + 2 ^ (eo - 1) - 2 ^ (ei - 1), by omega, by omega, by omega⟩
  obtain ⟨henc, hsign, hmag⟩ := floatCast_normal ri ro si so
    hin hout hx hn ht (by omega)
  have hround := roundedFraction_lt (lt_of_lt_of_le (by decide) hout.frac_ge)
    (Nat.mod_lt (magOf ei fi x) (Nat.two_pow_pos fi)) ro
  obtain ⟨hdiv, hmod⟩ := packed_fields (x := t) hround
  generalize floatCast x (stdSpec ei fi ri si) (stdSpec eo fo ro so) = y at *
  have hny : IsNormal eo fo y := by
    refine ⟨?_, ?_⟩
    · rw [hmag]
      exact le_trans (Nat.le_mul_of_pos_left _ ht0) (Nat.le_add_right _ _)
    · have hmul : (t + 1) * 2 ^ fo ≤ infMag eo fo := Nat.mul_le_mul_right _ (by omega)
      rw [Nat.succ_mul] at hmul
      rw [hmag]
      omega
  obtain ⟨henc', hsign', hmag'⟩ := floatCast_normal ro rb so sb hout hin henc hny
    (show magOf eo fo y / 2 ^ fo + 2 ^ (ei - 1) = magOf ei fi x / 2 ^ fi + 2 ^ (eo - 1) by
      rw [hmag, hdiv]; omega) hElt
  -- The padding is cut off again.
  have hback : roundedFraction (magOf eo fo y % 2 ^ fo) fo fi rb = magOf ei fi x % 2 ^ fi := by
    rw [hmag, hmod]
    unfold roundedFraction
    rw [if_pos hfrac]
    split
    · rename_i hle
      rw [show fi - fo = 0 by omega, show fo - fi = 0 by omega, Nat.pow_zero, Nat.mul_one,
        Nat.mul_one]
    · rw [Nat.mul_div_cancel _ (Nat.two_pow_pos _), Nat.mul_mod_left, Nat.mul_zero,
        if_neg (fun h => absurd h.2 (Nat.not_lt_zero _)), Nat.or_zero]
  rw [← BitVec.toNat_inj, signOf_eq henc', hsign', hsign, hmag', hback, Nat.div_add_mod',
    ← signOf_eq hx]

/-- The conversion between two formats is right exactly outside its losses; in particular
widening is exact, and what is widened narrows back to itself. -/
theorem floatCast_correct_iff (hin : FormatBounds ei fi) (hout : FormatBounds eo fo)
    (hx : IsEncoding ei fi x) (ri ro rb : RndMode) (si so sb : Bool) :
    (CastCorrect ei fi eo fo ro x (floatCast x (stdSpec ei fi ri si) (stdSpec eo fo ro so)) ↔
      ¬ CastLoses ei fi eo fo ro x) ∧
    (IsNormal ei fi x → ei ≤ eo → fi ≤ fo →
      floatCast (floatCast x (stdSpec ei fi ri si) (stdSpec eo fo ro so)) (stdSpec eo fo ro so)
        (stdSpec ei fi rb sb) = x) := by
  refine ⟨?_, fun hn hexp hfrac => floatCast_floatCast hin hout hx hn hexp hfrac rb sb⟩
  by_cases hn : IsNormal ei fi x
  · exact castCorrect_of_isNormal hin hout hx hn
  · exact castCorrect_of_not_normal hin hout hx hn

end Conversion

/-- One, from single to half precision and from half to single. -/
theorem floatCast_correct_one :
    CastCorrect 5 10 8 23 .nevn 0x3c00
      (floatCast 0x3c00 (stdSpec 5 10 .nevn true) (stdSpec 8 23 .nevn true)) := by
  refine ((floatCast_correct_iff ⟨by decide, by decide, by decide, by decide⟩
    ⟨by decide, by decide, by decide, by decide⟩ (show IsEncoding 5 10 0x3c00 by decide)
    .nevn .nevn .nevn true true true).1).mpr ?_
  rintro (⟨h, -⟩ | ⟨-, -, t, ht, ⟨-, h, -⟩ | ⟨rfl, -⟩⟩)
  · exact absurd h (by decide)
  · exact absurd h.1 (by decide)
  · exact absurd ht (by decide)

/-- `0x3f803000` is halfway between the halves `0x3c01` and `0x3c02`, and the conversion
gives the odd one; infinity becomes zero. -/
theorem floatCast_single_half_wrong :
    FormatBounds 8 23 ∧ FormatBounds 5 10 ∧
      (IsEncoding 8 23 0x3f803000 ∧ ¬ CastCorrect 8 23 5 10 .nevn 0x3f803000
        (floatCast 0x3f803000 (stdSpec 8 23 .nevn true) (stdSpec 5 10 .nevn true))) ∧
      IsInf 8 23 0x7f800000 ∧
        floatCast 0x7f800000 (stdSpec 8 23 .nevn true) (stdSpec 5 10 .nevn true) = 0 := by
  have hin : FormatBounds 8 23 := ⟨by decide, by decide, by decide, by decide⟩
  have hout : FormatBounds 5 10 := ⟨by decide, by decide, by decide, by decide⟩
  have hx : IsEncoding 8 23 0x3f803000 := by decide
  have hn : IsNormal 8 23 0x3f803000 := by decide
  refine ⟨hin, hout, ⟨hx, fun hc => ?_⟩, by decide, by decide +kernel⟩
  refine (castCorrect_of_isNormal hin hout hx hn).mp hc
    (.inr ⟨rfl, hn, 15, by decide, .inl ⟨by decide, ⟨by decide, by decide, by decide⟩, by decide⟩⟩)

end Bambu.Libbambu.Softfloat
