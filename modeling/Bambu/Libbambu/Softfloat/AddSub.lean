/-
  Bambu.Libbambu.Softfloat.AddSub

  `__float_addsub`.  The operand of larger magnitude comes first; the other one is
  shifted down to its exponent, keeping two more bits and a sticky bit, and the sum is
  normalized and rounded as a packed word.

  The shift distance is cut to `__exp_shift` bits.  Where that loses no distance that
  matters (`ShiftFits`), the result is the exact sum rounded to nearest, ties to even.
-/

import Bambu.Libbambu.Softfloat.Common

namespace Bambu.Libbambu.Softfloat

open Bambu.Math

/-- The fields of the operands after the swap. -/
structure Operands where
  aSign : Bool
  bSign : Bool
  aSig : Udatatype
  bSig : Udatatype
  aExp : Udatatype
  bExp : Udatatype

/-- The swap and the extraction of the fields. -/
def addsubOperands (a0 b0 : Tfloat) (sub : Bool) (expBits fracBits : Nat) (sign : Int) : Operands :=
  let absA := a0 &&& ones (expBits + fracBits)
  let absB := b0 &&& ones (expBits + fracBits)
  let swap : Bool := absA < absB
  let a := condExprMacro64 swap b0 a0
  let b := condExprMacro64 swap a0 b0
  { aSign := extractFloatSign a expBits fracBits sign ^^ (sub && swap)
    bSign := extractFloatSign b expBits fracBits sign ^^ (sub && !swap)
    aSig := extractFloatFrac a fracBits
    bSig := extractFloatFrac b fracBits
    aExp := extractFloatExp a expBits fracBits
    bExp := extractFloatExp b expBits fracBits }

/-- `expDiff` before it is cut. -/
def exponentDifference (o : Operands) (expBits : Nat) (subnorm : Bool) : Udatatype :=
  let subnormalExpCorrection := (o.aExp == 0 && o.aSig != 0) ^^ (o.bExp == 0 && o.bSig != 0)
  let expDiff :=
    if subnorm then o.aExp - o.bExp - word subnormalExpCorrection else o.aExp - o.bExp
  expDiff &&& ones expBits

/-- `__exp_shift`. -/
def expShift (fracBits : Nat) : Nat :=
  if fracBits > 1 then
    if fracBits > 2 then
      if fracBits > 4 then
        if fracBits > 8 then
          if fracBits > 16 then
            if fracBits > 32 then 6 else 5
          else 4
        else 3
      else 2
    else 1
  else 0

/-- `expDiff` cut to `__exp_shift` bits. -/
def clampedDifference (expDiff : Udatatype) (fracBits : Nat) : Udatatype :=
  let geFracBits := expDiff >>> expShift fracBits != 0
  let mask32 : BitVec 32 := ((BitVec.ofBool geFracBits).setWidth 32 <<< 31).sshiftRight 31
  (expDiff ||| mask32.setWidth 64) &&& ones (expShift fracBits)

/-- `fA` and `fB`: the significand with the implicit one, above `__frac_shift` zero bits. -/
def shiftedSignificand (sig : Udatatype) (normal : Bool) (fracBits fracShift : Nat) : Udatatype :=
  (sig ||| (word normal <<< fracBits)) <<< fracShift

/-- `fR0` and `sb`: the sum with the aligned operand and the sticky bit. -/
def alignedSum (fA fB expDiff : Udatatype) (sAB : Bool) (fracAlmost : Nat) (rnd : RndMode) :
    Udatatype × Bool :=
  let fracFull := fracAlmost + 1
  let fBShiftedLow := fB &&& ~~~((~~~(0 : Udatatype)) <<< expDiff.toNat)
  let sb := if rnd = .nevn then fBShiftedLow != 0 else false
  let fBShifted := fB >>> expDiff.toNat
  let fBShifted := fBShifted &&& ones fracAlmost
  let fBShifted1 := boolMask sAB ^^^ fBShifted
  let fBShifted1 := fBShifted1 &&& ones fracFull
  let fR0 := fA + fBShifted1 + word (sAB && !sb)
  (fR0 &&& ones fracFull, sb)

/-- What the normalization leaves: the exponent, the significand with its guard bits,
and whether the sum counts as zero. -/
structure Normalized where
  RExp0 : Udatatype
  RSig0 : Udatatype
  RCZero : Bool

/-- The leading-zero count and what it decides. -/
def normalizeSum (fR0 aExp bExp : Udatatype) (expBits fracFull : Nat) (subnorm : Bool) :
    Normalized :=
  let (nZeros, shift0) := countLeadingZeroLshift64 fracFull fR0
  let nzerosBits := runtimeCeilLog2 fracFull
  let RCZero := nZeros == ones nzerosBits
  let bothNull := aExp == 0 && bExp == 0
  let n : Normalized :=
    if subnorm then
      { RExp0 :=
          if RCZero || aExp < nZeros then word (bothNull && nZeros == 1) else aExp - nZeros + 1
        RSig0 := if aExp < nZeros then (if bothNull then fR0 <<< 1 else fR0 <<< aExp.toNat)
          else shift0
        RCZero }
    else
      let RCZero := RCZero || aExp < nZeros
      { RExp0 := if RCZero then 0 else aExp - nZeros + 1, RSig0 := shift0, RCZero }
  { n with RExp0 := n.RExp0 &&& ones expBits }

/-- `Rrounded`: exponent and significand packed, plus the rounding bit. -/
def packedRound (n : Normalized) (sb : Bool) (fracBits fracShift : Nat) (rnd : RndMode) :
    Udatatype :=
  let RSig1 := (n.RSig0 >>> (fracShift + 1)) &&& ones fracBits
  let RExp0RSig1 := (n.RExp0 <<< fracBits) ||| RSig1
  if rnd = .nevn then
    let LSBBit := selectBit n.RSig0 3 != 0
    let guardBit := selectBit n.RSig0 2 != 0
    let roundBit := selectBit n.RSig0 1 != 0
    let stickyBit := selectBit n.RSig0 0 != 0 || sb
    let round := guardBit && (LSBBit || roundBit || stickyBit)
    RExp0RSig1 + word round
  else RExp0RSig1

/-- `__float_addsub`. -/
def floatAddsub (a0 b0 : Tfloat) (sub : Bool) (expBits fracBits : Nat) (rnd : RndMode)
    (exc : ExcMode) (one subnorm : Bool) (sign : Int) : Tfloat :=
  let fracShift := if rnd = .nevn then 2 else 0
  let fracAlmost := fracBits + fracShift + 1
  let fracFull := fracAlmost + 1
  let o := addsubOperands a0 b0 sub expBits fracBits sign
  let aExpMax := o.aExp == ones expBits
  let bExpMax := o.bExp == ones expBits
  let aCNan := exc = .std && aExpMax && o.aSig != 0
  let bCNan := exc = .std && bExpMax && o.bSig != 0
  let sAB := o.aSign ^^ o.bSign
  let expDiff := clampedDifference (exponentDifference o expBits subnorm) fracBits
  let fA := shiftedSignificand o.aSig (one && o.aExp != 0) fracBits fracShift
  let fB := shiftedSignificand o.bSig (one && o.bExp != 0) fracBits fracShift
  let (fR0, sb) := alignedSum fA fB expDiff sAB fracAlmost rnd
  let n := normalizeSum fR0 o.aExp o.bExp expBits fracFull subnorm
  let overflowToInfinite := o.aExp == ((1 : Udatatype) <<< expBits) - (if exc = .std then 2 else 1) &&
    (fR0 >>> fracAlmost) &&& 1 != 0 && exc ≠ .ovf
  let Rrounded := packedRound n sb fracBits fracShift rnd
  let RExp1 :=
    if exc = .std then
      if aExpMax || bExpMax then ones expBits else (Rrounded >>> fracBits) &&& ones expBits
    else if overflowToInfinite then ones expBits
    else (Rrounded >>> fracBits) &&& ones expBits
  let RSig2 :=
    if exc = .std then
      if n.RCZero || aExpMax || bExpMax || overflowToInfinite then 0
      else Rrounded &&& ones fracBits
    else (if overflowToInfinite then boolMask (!n.RCZero) else Rrounded) &&& ones fracBits
  let aSign := o.aSign && (!n.RCZero || !sAB)
  let RSig3 :=
    if exc = .std then
      -- with `NO_SIGNALLING`, as the library is built
      (word (aCNan || bCNan || (sAB && aExpMax && bExpMax)) <<< (fracBits - 1)) ||| RSig2
    else RSig2
  (word aSign <<< (expBits + fracBits)) ||| (RExp1 <<< fracBits) ||| RSig3

/-- `__float_add` in the modes `FLOAT_RND_NEVN`, `FLOAT_EXC_STD`, with implicit one,
subnormals and sign bit. -/
def floatAdd (a b : Tfloat) (expBits fracBits : Nat) : Tfloat :=
  floatAddsub a b false expBits fracBits .nevn .std true true (-1)

/-- `__float_sub` in the same modes. -/
def floatSub (a b : Tfloat) (expBits fracBits : Nat) : Tfloat :=
  floatAddsub a b true expBits fracBits .nevn .std true true (-1)

/-! ## What a rounded sum is -/

/-- The value of a signed magnitude. -/
def signedMag (f : Nat) (sign : Bool) (n : Nat) : Int :=
  if sign then -(magValue f n : Int) else magValue f n

/-- `r` is the sum of two signed magnitudes as the format has it. -/
structure SumRounded (e f : Nat) (sA : Bool) (A : Nat) (sB : Bool) (B : Nat) (r : Tfloat) :
    Prop where
  encoding : IsEncoding e f r
  nan : IsNaN e f r ↔ infMag e f < A ∨ infMag e f < B ∨
    (A = infMag e f ∧ B = infMag e f ∧ sA ≠ sB)
  infinite_left : ¬ IsNaN e f r → A = infMag e f → IsInf e f r ∧ signOf e f r = sA
  infinite_right : ¬ IsNaN e f r → B = infMag e f → IsInf e f r ∧ signOf e f r = sB
  nearest : A < infMag e f → B < infMag e f →
    IsNearestEven e f |signedMag f sA A + signedMag f sB B| (magOf e f r)
  sign : A < infMag e f → B < infMag e f →
    signOf e f r = if signedMag f sA A + signedMag f sB B = 0 then sA && sB
      else decide (signedMag f sA A + signedMag f sB B < 0)

theorem SumRounded.symm {e f : Nat} {sA sB : Bool} {A B : Nat} {r : Tfloat}
    (h : SumRounded e f sA A sB B r) : SumRounded e f sB B sA A r where
  encoding := h.encoding
  nan := by
    rw [h.nan]
    constructor
    · rintro (hA | hB | ⟨hA, hB, hne⟩)
      · exact .inr (.inl hA)
      · exact .inl hB
      · exact .inr (.inr ⟨hB, hA, hne.symm⟩)
    · rintro (hB | hA | ⟨hB, hA, hne⟩)
      · exact .inr (.inl hB)
      · exact .inl hA
      · exact .inr (.inr ⟨hA, hB, hne.symm⟩)
  infinite_left := h.infinite_right
  infinite_right := h.infinite_left
  nearest := fun hB hA => by
    rw [add_comm]
    exact h.nearest hA hB
  sign := fun hB hA => by
    rw [add_comm, Bool.and_comm]
    exact h.sign hA hB

/-! ## The exact sum in quarter units -/

section Exact

variable {f A B : Nat}

/-- How far the smaller operand is shifted down. -/
def distance (f A B : Nat) : Nat := magExp f A - magExp f B

/-- Four times the sum of the significands at the exponent of the smaller operand. -/
def exactSum (f A B : Nat) (sAB : Bool) : Nat :=
  if sAB then 4 * (magSig f A * 2 ^ distance f A B - magSig f B)
  else 4 * (magSig f A * 2 ^ distance f A B + magSig f B)

theorem magExp_mono (h : B ≤ A) : magExp f B ≤ magExp f A :=
  Nat.sub_le_sub_right (Nat.div_le_div_right h) 1

/-- The smaller significand at its place is not above the larger one. -/
theorem magSig_le (h : B ≤ A) : magSig f B ≤ magSig f A * 2 ^ distance f A B := by
  have hval : magValue f B ≤ magValue f A := (magValue_strictMono f).monotone h
  have hexp := magExp_mono (f := f) h
  refine Nat.le_of_mul_le_mul_right ?_ (Nat.two_pow_pos (magExp f B))
  calc magSig f B * 2 ^ magExp f B ≤ magSig f A * 2 ^ magExp f A := hval
    _ = magSig f A * 2 ^ distance f A B * 2 ^ magExp f B := by
      rw [Nat.mul_assoc, ← Nat.pow_add, distance, Nat.sub_add_cancel hexp]

/-- A shifted-down difference, with a borrow for the bits that are lost. -/
theorem sub_div_pow {a c D : Nat} (hD : 0 < D) (h : c ≤ a * D) :
    (a * D - c) / D + c / D + (if c % D ≠ 0 then 1 else 0) = a ∧
      ((a * D - c) % D ≠ 0 ↔ c % D ≠ 0) := by
  obtain ⟨q, r, hr, rfl⟩ : ∃ q r, r < D ∧ c = D * q + r :=
    ⟨c / D, c % D, Nat.mod_lt c hD, (Nat.div_add_mod c D).symm⟩
  rw [Nat.mul_add_div hD, Nat.div_eq_of_lt hr, Nat.add_zero, Nat.mul_add_mod, Nat.mod_eq_of_lt hr]
  rcases Nat.eq_zero_or_pos r with rfl | hpos
  · have hq : q ≤ a := Nat.le_of_mul_le_mul_left (by rw [Nat.mul_comm D a]; exact h) hD
    have heq : a * D - (D * q + 0) = D * (a - q) := by
      rw [Nat.add_zero, Nat.mul_sub, Nat.mul_comm D a]
    rw [heq, Nat.mul_div_cancel_left _ hD, Nat.mul_mod_right]
    simp only [ne_eq, not_true, if_false]
    exact ⟨by omega, trivial⟩
  · have hq : q < a := by
      refine Nat.lt_of_mul_lt_mul_left (a := D) ?_
      rw [Nat.mul_comm D a]
      omega
    obtain ⟨b, rfl⟩ := Nat.exists_eq_add_of_lt hq
    have heq : (q + b + 1) * D - (D * q + r) = D * b + (D - r) := by
      have hexp : (q + b + 1) * D = D * q + (D * b + D) := by ring
      omega
    rw [heq, Nat.mul_add_div hD, Nat.mul_add_mod, Nat.div_eq_of_lt (by omega),
      Nat.mod_eq_of_lt (by omega)]
    refine ⟨?_, by omega⟩
    rw [if_pos (by omega)]
    omega

/-- The exact sum, shifted down. -/
theorem exactSum_div (h : B ≤ A) (sAB : Bool) :
    (if sAB then exactSum f A B sAB / 2 ^ distance f A B + 4 * magSig f B / 2 ^ distance f A B +
        (if 4 * magSig f B % 2 ^ distance f A B ≠ 0 then 1 else 0) = 4 * magSig f A
      else exactSum f A B sAB / 2 ^ distance f A B =
        4 * magSig f A + 4 * magSig f B / 2 ^ distance f A B) ∧
    (exactSum f A B sAB % 2 ^ distance f A B ≠ 0 ↔
      4 * magSig f B % 2 ^ distance f A B ≠ 0) := by
  have hD := Nat.two_pow_pos (distance f A B)
  have hle := magSig_le (f := f) h
  unfold exactSum
  cases sAB with
  | false =>
    rw [if_neg Bool.false_ne_true, if_neg Bool.false_ne_true, Nat.mul_add, ← Nat.mul_assoc,
      Nat.mul_comm (4 * magSig f A), Nat.mul_add_div hD, Nat.mul_add_mod]
    exact ⟨rfl, Iff.rfl⟩
  | true =>
    rw [if_pos rfl, if_pos rfl, Nat.mul_sub, ← Nat.mul_assoc]
    exact sub_div_pow hD (by rw [Nat.mul_assoc]; exact Nat.mul_le_mul_left 4 hle)

/-- The shifted-down sum fits its `f + 4` bits. -/
theorem exactSum_div_le (h : B ≤ A) (sAB : Bool) :
    exactSum f A B sAB / 2 ^ distance f A B ≤ 2 ^ (f + 4) - 8 := by
  obtain ⟨hdiv, -⟩ := exactSum_div (f := f) h sAB
  have hA := magSig_lt f A
  have hB := magSig_lt f B
  have hquot := Nat.div_le_self (4 * magSig f B) (2 ^ distance f A B)
  have hpow : 2 ^ (f + 4) = 8 * 2 ^ (f + 1) := by
    rw [show f + 4 = f + 1 + 3 by omega, Nat.pow_add, Nat.mul_comm]
  generalize 4 * magSig f B / 2 ^ distance f A B = q at *
  cases sAB with
  | false =>
    rw [if_neg Bool.false_ne_true] at hdiv
    omega
  | true =>
    rw [if_pos rfl] at hdiv
    omega

/-- Above its subnormals a magnitude has the implicit one. -/
theorem magSig_ge (h : 0 < magExp f A) : 2 ^ f ≤ magSig f A := by
  unfold magExp at h
  rw [magSig, if_neg (by omega)]
  exact Nat.le_add_right _ _

/-- At a distance of at least two, the sum keeps more than half of the larger operand. -/
theorem exactSum_div_ge (sAB : Bool) (hd : 2 ≤ distance f A B) :
    2 ^ (f + 1) ≤ exactSum f A B sAB / 2 ^ distance f A B := by
  have hA : 2 ^ f ≤ magSig f A := magSig_ge (by unfold distance at hd; omega)
  have hB := magSig_lt f B
  have hD := Nat.two_pow_pos (distance f A B)
  rw [Nat.le_div_iff_mul_le hD]
  obtain ⟨D, hDdef⟩ : ∃ D, D = 2 ^ distance f A B := ⟨_, rfl⟩
  have hD4 : 4 ≤ D := by
    rw [hDdef]
    exact Nat.pow_le_pow_right (n := 2) (by decide) hd
  have hmul : 2 ^ f * D ≤ magSig f A * D := Nat.mul_le_mul_right D hA
  have hmul4 : 2 ^ f * 4 ≤ 2 ^ f * D := Nat.mul_le_mul_left _ hD4
  rw [Nat.pow_succ] at hB ⊢
  unfold exactSum
  rw [← hDdef, Nat.mul_assoc, Nat.mul_comm 2 D, ← Nat.mul_assoc]
  cases sAB with
  | false =>
    rw [if_neg Bool.false_ne_true]
    omega
  | true =>
    rw [if_pos rfl]
    omega

/-- A sum that loses bits is not cancelled by more than one place. -/
theorem exactSum_div_ge_of_sticky (sAB : Bool)
    (hs : exactSum f A B sAB % 2 ^ distance f A B ≠ 0) :
    2 ^ (f + 1) ≤ exactSum f A B sAB / 2 ^ distance f A B := by
  refine exactSum_div_ge sAB ?_
  by_contra hd
  -- Two zero bits stand below the significands.
  have hdvd : 4 ∣ exactSum f A B sAB := by
    unfold exactSum
    split <;> exact Nat.dvd_mul_right 4 _
  have hpow : 2 ^ distance f A B ∣ 4 :=
    Nat.pow_dvd_pow 2 (show distance f A B ≤ 2 by omega)
  exact hs (Nat.mod_eq_zero_of_dvd (dvd_trans hpow hdvd))

/-- A sum that is not zero keeps at least its second bit. -/
theorem exactSum_div_two_le (sAB : Bool) (hne : exactSum f A B sAB ≠ 0) :
    2 ≤ exactSum f A B sAB / 2 ^ distance f A B := by
  rcases Nat.lt_or_ge (distance f A B) 2 with hd | hd
  · rw [Nat.le_div_iff_mul_le (Nat.two_pow_pos _)]
    have hpow : 2 ^ distance f A B ≤ 2 := by
      calc 2 ^ distance f A B ≤ 2 ^ 1 := Nat.pow_le_pow_right (by decide) (by omega)
        _ = 2 := rfl
    have hfour : 4 ≤ exactSum f A B sAB := by
      unfold exactSum at hne ⊢
      cases sAB with
      | false =>
        rw [if_neg Bool.false_ne_true] at hne ⊢
        omega
      | true =>
        rw [if_pos rfl] at hne ⊢
        omega
    omega
  · refine le_trans ?_ (exactSum_div_ge sAB hd)
    exact Nat.pow_le_pow_right (n := 2) (by decide) (show 1 ≤ f + 1 by omega)

/-- The value of the sum. -/
theorem natAbs_signedMag_add (h : B ≤ A) (sA sB : Bool) :
    4 * (signedMag f sA A + signedMag f sB B).natAbs =
      exactSum f A B (sA ^^ sB) * 2 ^ magExp f B := by
  have hval : magValue f A = magSig f A * 2 ^ distance f A B * 2 ^ magExp f B := by
    rw [magValue, Nat.mul_assoc, ← Nat.pow_add, distance, Nat.sub_add_cancel (magExp_mono h)]
  have hmono : magValue f B ≤ magValue f A := (magValue_strictMono f).monotone h
  have hadd : 4 * (magValue f A + magValue f B) =
      4 * (magSig f A * 2 ^ distance f A B + magSig f B) * 2 ^ magExp f B := by
    rw [hval, magValue]
    ring
  have hsub : 4 * (magValue f A - magValue f B) =
      4 * (magSig f A * 2 ^ distance f A B - magSig f B) * 2 ^ magExp f B := by
    rw [hval, magValue, ← Nat.sub_mul]
    ring
  unfold signedMag exactSum
  cases sA <;> cases sB <;> simp only [Bool.xor_false, Bool.xor_true, Bool.not_false,
    Bool.not_true, Bool.false_eq_true, if_false, if_true, ← hadd, ← hsub] <;> omega

/-- The sum takes the sign of the larger operand. -/
theorem signedMag_add_neg_iff (h : B ≤ A) (sA sB : Bool)
    (hne : signedMag f sA A + signedMag f sB B ≠ 0) :
    decide (signedMag f sA A + signedMag f sB B < 0) = sA := by
  have hmono : magValue f B ≤ magValue f A := (magValue_strictMono f).monotone h
  unfold signedMag at hne ⊢
  cases sA <;> cases sB <;> simp only [Bool.false_eq_true, if_false, if_true] at hne ⊢
  · exact decide_eq_false (by omega)
  · exact decide_eq_false (by omega)
  · exact decide_eq_true (by omega)
  · exact decide_eq_true (by omega)

end Exact

/-! ## The words of the alignment -/

section Alignment

variable {e f : Nat}

theorem expShift_le (f : Nat) : expShift f ≤ 6 := by
  unfold expShift
  repeat' split
  all_goals decide

/-- The exponents of the operands differ by the distance, unless the smaller is zero. -/
theorem toNat_exponentDifference {o : Operands} {A B : Nat} (he : e < 64) (h : B ≤ A)
    (hA : A < 2 ^ (e + f)) (haExp : o.aExp.toNat = A / 2 ^ f) (hbExp : o.bExp.toNat = B / 2 ^ f)
    (haSig : o.aSig.toNat = A % 2 ^ f) (hbSig : o.bSig.toNat = B % 2 ^ f) (hB : B ≠ 0) :
    (exponentDifference o e true).toNat = distance f A B := by
  have hle : B / 2 ^ f ≤ A / 2 ^ f := Nat.div_le_div_right h
  have hlt : A / 2 ^ f < 2 ^ e := Nat.div_lt_of_lt_mul (by rw [← Nat.pow_add, Nat.add_comm]; exact hA)
  have hpow : 2 ^ e < 2 ^ 64 := Nat.pow_lt_pow_right (by decide) he
  have hfields : ∀ n, n ≠ 0 → n / 2 ^ f = 0 → n % 2 ^ f ≠ 0 := by
    intro n hn hdiv hmod
    exact hn (by rw [← Nat.div_add_mod n (2 ^ f), hdiv, hmod, Nat.mul_zero])
  have hBfields := hfields B hB
  have hAfields := hfields A (by omega)
  unfold exponentDifference distance magExp
  dsimp only
  rw [if_pos rfl, toNat_and_ones _ he, BitVec.toNat_sub, BitVec.toNat_sub, toNat_word,
    word_eq_zero_iff, word_eq_zero_iff, word_ne_zero_iff, word_ne_zero_iff, haExp, hbExp, haSig,
    hbSig]
  generalize A / 2 ^ f = x at *
  generalize B / 2 ^ f = y at *
  -- The correction is there where one operand is subnormal and the other is not.
  have hcorrection : (((decide (x = 0) && decide (A % 2 ^ f ≠ 0)) ^^
      (decide (y = 0) && decide (B % 2 ^ f ≠ 0))) : Bool).toNat = if y = 0 ∧ x ≠ 0 then 1 else 0 := by
    by_cases hy : y = 0
    · by_cases hx : x = 0
      · simp [hx, hy, hAfields hx, hBfields hy]
      · simp [hx, hy, hBfields hy]
    · have hx : x ≠ 0 := by omega
      simp [hx, hy]
  rw [hcorrection]
  have hsub : (2 ^ 64 - (if y = 0 ∧ x ≠ 0 then 1 else 0) + (2 ^ 64 - y + x) % 2 ^ 64) % 2 ^ 64 =
      x - 1 - (y - 1) := by
    split <;> omega
  rw [hsub]
  exact Nat.mod_eq_of_lt (by omega)

/-- The cut keeps a distance that fits and makes the others the greatest that does. -/
theorem toNat_clampedDifference (x : Udatatype) (f : Nat) :
    (clampedDifference x f).toNat =
      if x.toNat < 2 ^ expShift f then x.toNat else 2 ^ expShift f - 1 := by
  have hs := expShift_le f
  have hdiv : x.toNat / 2 ^ expShift f ≠ 0 ↔ ¬ x.toNat < 2 ^ expShift f := by
    rw [ne_eq, Nat.div_eq_zero_iff]
    have hpos := Nat.two_pow_pos (expShift f)
    omega
  unfold clampedDifference
  dsimp only
  rw [word_ne_zero_iff, toNat_shiftRight, toNat_and_ones _ (by omega), BitVec.toNat_or]
  by_cases hlt : x.toNat < 2 ^ expShift f
  · rw [if_pos hlt, decide_eq_false (not_not.mpr (by simpa using mt hdiv.mp (not_not.mpr hlt)))]
    have hzero : (((BitVec.ofBool false).setWidth 32 <<< 31).sshiftRight 31).setWidth 64 =
      (0 : Udatatype) := by decide
    rw [hzero]
    simp only [BitVec.ofNat_eq_ofNat, BitVec.toNat_ofNat, Nat.zero_mod, Nat.or_zero]
    exact Nat.mod_eq_of_lt hlt
  · rw [if_neg hlt, decide_eq_true (hdiv.mpr hlt)]
    have hones : (((BitVec.ofBool true).setWidth 32 <<< 31).sshiftRight 31).setWidth 64 =
      BitVec.ofNat 64 (2 ^ 32 - 1) := by decide
    have hmask : (2 ^ 32 - 1) % 2 ^ expShift f = 2 ^ expShift f - 1 := by
      generalize expShift f = s at hs
      interval_cases s <;> rfl
    rw [hones, BitVec.toNat_ofNat, show (2 ^ 32 - 1) % 2 ^ 64 = 2 ^ 32 - 1 by decide,
      Nat.or_mod_two_pow, hmask]
    exact Nat.eq_of_le_of_lt_succ Nat.right_le_or
      (by
        rw [Nat.sub_add_cancel (Nat.two_pow_pos _)]
        exact Nat.or_lt_two_pow (Nat.mod_lt _ (Nat.two_pow_pos _))
          (Nat.sub_lt (Nat.two_pow_pos _) Nat.one_pos))

/-- A significand with its implicit one, above two zero bits. -/
theorem toNat_shiftedSignificand {sig exp : Udatatype} {A : Nat} (hf : f ≤ 52)
    (hsig : sig.toNat = A % 2 ^ f) (hexp : exp.toNat = A / 2 ^ f) :
    (shiftedSignificand sig (true && exp != 0) f 2).toNat = 4 * magSig f A := by
  have hmod : sig.toNat < 2 ^ f := hsig ▸ Nat.mod_lt _ (Nat.two_pow_pos f)
  have hpow : 2 ^ f ≤ 2 ^ 52 := Nat.pow_le_pow_right (by decide) hf
  have hcase : ((word (exp != 0) <<< f) ||| sig).toNat = magSig f A := by
    rw [toNat_shift_or_of_lt hmod, toNat_word, word_ne_zero_iff, hexp, hsig, magSig]
    · by_cases hx : A / 2 ^ f = 0
      · rw [if_pos hx, hx]
        simp
      · rw [if_neg hx, decide_eq_true hx, Bool.toNat_true, Nat.one_mul]
    · rw [toNat_word]
      have hle := Bool.toNat_le (exp != 0)
      calc ((exp != 0).toNat + 1) * 2 ^ f ≤ 2 * 2 ^ 52 := Nat.mul_le_mul (by omega) hpow
        _ ≤ 2 ^ 64 := by decide
  have hlt := magSig_lt f A
  have hbound : ((word (exp != 0) <<< f) ||| sig).toNat * 2 ^ 2 < 2 ^ 64 := by
    rw [hcase]
    rw [Nat.pow_succ] at hlt
    omega
  unfold shiftedSignificand
  rw [Bool.true_and, BitVec.or_comm, toNat_shiftLeft_of_lt hbound, hcase]
  omega

/-- The mask of the bits that a shift drops. -/
theorem dropped_mask {n : Nat} (hn : n < 64) : ~~~((~~~(0 : Udatatype)) <<< n) = ones n := by
  have hpos := Nat.two_pow_pos n
  have hlt : 2 ^ n < 2 ^ 64 := Nat.pow_lt_pow_right (by decide) hn
  have hall : (~~~(0 : Udatatype)).toNat = 2 ^ 64 - 1 := by decide
  apply BitVec.eq_of_toNat_eq
  rw [toNat_ones hn, BitVec.toNat_not, BitVec.toNat_shiftLeft, Nat.shiftLeft_eq, hall]
  have hmul : (2 ^ 64 - 1) * 2 ^ n = 2 ^ 64 * (2 ^ n - 1) + (2 ^ 64 - 2 ^ n) := by
    rw [Nat.sub_mul, Nat.mul_sub]
    have hle : 2 ^ 64 * 1 ≤ 2 ^ 64 * 2 ^ n := Nat.mul_le_mul_left _ hpos
    omega
  rw [hmul, Nat.mul_add_mod, Nat.mod_eq_of_lt (by omega)]
  omega

/-- The low bits of a complemented word. -/
theorem toNat_boolMask_xor (sAB : Bool) {x : Udatatype} {n : Nat} (hn : n < 64)
    (hx : x.toNat < 2 ^ n) :
    ((boolMask sAB ^^^ x) &&& ones n).toNat = if sAB then 2 ^ n - 1 - x.toNat else x.toNat := by
  have hlt : 2 ^ n < 2 ^ 64 := Nat.pow_lt_pow_right (by decide) hn
  rw [toNat_and_ones _ hn]
  cases sAB with
  | false =>
    rw [boolMask_false, if_neg Bool.false_ne_true]
    have hxor : (0 : Udatatype) ^^^ x = x := BitVec.zero_xor
    rw [hxor, Nat.mod_eq_of_lt hx]
  | true =>
    have hxor : ~~~(0 : Udatatype) ^^^ x = ~~~x := by
      rw [show ~~~(0 : Udatatype) = BitVec.allOnes 64 by decide, BitVec.allOnes_xor]
    obtain ⟨K, hK⟩ := Nat.pow_dvd_pow 2 hn.le
    have hKpos : 0 < K := by
      rcases Nat.eq_zero_or_pos K with rfl | h
      · rw [Nat.mul_zero] at hK
        exact absurd hK (by decide)
      · exact h
    obtain ⟨L, rfl⟩ := Nat.exists_eq_add_of_lt hKpos
    rw [boolMask_true, hxor, if_pos rfl, BitVec.toNat_not, hK]
    have hsplit : 2 ^ n * (0 + L + 1) - 1 - x.toNat = 2 ^ n * L + (2 ^ n - 1 - x.toNat) := by
      rw [Nat.zero_add, Nat.mul_succ]
      omega
    rw [hsplit, Nat.mul_add_mod]
    exact Nat.mod_eq_of_lt (by omega)

/-- The aligned sum is the exact one shifted down, and the sticky bit says whether a bit
was lost. -/
theorem alignedSum_spec {fA fB expDiff : Udatatype} {A B : Nat} (hf : f ≤ 52) (h : B ≤ A)
    (hfA : fA.toNat = 4 * magSig f A) (hfB : fB.toNat = 4 * magSig f B)
    (hdiff : expDiff.toNat < 64)
    (hquot : 4 * magSig f B / 2 ^ expDiff.toNat = 4 * magSig f B / 2 ^ distance f A B)
    (hrem : 4 * magSig f B % 2 ^ expDiff.toNat ≠ 0 ↔ 4 * magSig f B % 2 ^ distance f A B ≠ 0)
    (sAB : Bool) :
    (alignedSum fA fB expDiff sAB (f + 2 + 1) .nevn).1.toNat =
        exactSum f A B sAB / 2 ^ distance f A B ∧
      ((alignedSum fA fB expDiff sAB (f + 2 + 1) .nevn).2 = true ↔
        exactSum f A B sAB % 2 ^ distance f A B ≠ 0) := by
  obtain ⟨hdiv, hsticky⟩ := exactSum_div (f := f) h sAB
  have hA := magSig_lt f A
  have hB := magSig_lt f B
  have hle := exactSum_div_le (f := f) h sAB
  have hpow4 : 2 ^ (f + 4) = 8 * 2 ^ (f + 1) := by
    rw [show f + 4 = f + 1 + 3 by omega, Nat.pow_add, Nat.mul_comm]
  have hpow3 : 2 ^ (f + 3) = 4 * 2 ^ (f + 1) := by
    rw [show f + 3 = f + 1 + 2 by omega, Nat.pow_add, Nat.mul_comm]
  have hpow1 : 2 ^ (f + 1) ≤ 2 ^ 53 := Nat.pow_le_pow_right (by decide) (by omega)
  unfold alignedSum
  dsimp only
  rw [if_pos rfl, dropped_mask hdiff, show f + 2 + 1 + 1 = f + 4 by omega,
    show f + 2 + 1 = f + 3 by omega]
  -- The sticky bit.
  have hsb : (fB &&& ones expDiff.toNat != 0) =
      decide (4 * magSig f B % 2 ^ distance f A B ≠ 0) := by
    rw [word_ne_zero_iff, toNat_and_ones _ hdiff, hfB, decide_eq_decide]
    exact hrem
  rw [hsb]
  refine ⟨?_, by rw [decide_eq_true_eq]; exact hsticky.symm⟩
  -- The shifted operand.
  obtain ⟨q, hq⟩ : ∃ q, q = 4 * magSig f B / 2 ^ distance f A B := ⟨_, rfl⟩
  have hqle : q ≤ 4 * magSig f B := hq ▸ Nat.div_le_self _ _
  have hshift : ((fB >>> expDiff.toNat) &&& ones (f + 3)).toNat = q := by
    rw [toNat_and_ones _ (by omega), toNat_shiftRight, hfB, hquot, ← hq]
    exact Nat.mod_eq_of_lt (by omega)
  have hxor := toNat_boolMask_xor sAB (n := f + 4) (x := (fB >>> expDiff.toNat) &&& ones (f + 3))
    (by omega) (by rw [hshift]; omega)
  rw [hshift] at hxor
  rw [toNat_and_ones _ (by omega), BitVec.toNat_add, BitVec.toNat_add, hxor, hfA, toNat_word]
  rw [← hq] at hdiv
  generalize hR : exactSum f A B sAB / 2 ^ distance f A B = R at *
  have h64 : 2 ^ (f + 4) ≤ 2 ^ 64 := Nat.pow_le_pow_right (by decide) (by omega)
  cases sAB with
  | false =>
    rw [if_neg Bool.false_ne_true] at hdiv
    rw [if_neg Bool.false_ne_true, Bool.false_and, Bool.toNat_false, Nat.add_zero,
      Nat.mod_mod, Nat.mod_eq_of_lt (a := 4 * magSig f A + q) (by omega),
      Nat.mod_eq_of_lt (by omega)]
    exact hdiv.symm
  | true =>
    rw [if_pos rfl] at hdiv
    rw [if_pos rfl, Bool.true_and]
    -- The complement plus one, or without it where a bit was lost, subtracts modulo the width.
    have hflag : (!decide (4 * magSig f B % 2 ^ distance f A B ≠ 0)).toNat +
        (if 4 * magSig f B % 2 ^ distance f A B ≠ 0 then 1 else 0) = 1 := by
      split
      · rename_i hne
        rw [decide_eq_true hne]
        rfl
      · rename_i hne
        rw [decide_eq_false hne]
        rfl
    generalize (!decide (4 * magSig f B % 2 ^ distance f A B ≠ 0)).toNat = c at *
    generalize (if 4 * magSig f B % 2 ^ distance f A B ≠ 0 then 1 else 0) = b at *
    have hsum : (4 * magSig f A + (2 ^ (f + 4) - 1 - q)) % 2 ^ 64 + c = R + 2 ^ (f + 4) := by
      rw [Nat.mod_eq_of_lt (by omega)]
      omega
    rw [hsum, Nat.mod_eq_of_lt (a := R + 2 ^ (f + 4)) (by omega), Nat.add_mod_right]
    exact Nat.mod_eq_of_lt (by omega)

end Alignment

/-! ## The words of the normalization -/

section Normalization

variable {e f : Nat}

/-- The magnitude that a normalized sum packs to, before rounding. -/
def Normalized.truncated (n : Normalized) (f : Nat) : Nat :=
  n.RExp0.toNat * 2 ^ f + n.RSig0.toNat / 8 % 2 ^ f

theorem pow_sub_one_le {m : Nat} (hm : m < 64) : m ≤ 2 ^ runtimeCeilLog2 m := by
  unfold runtimeCeilLog2
  split <;> [(split <;> [(split <;> [(split <;> [(split <;> [(split <;> omega); omega]); omega]);
    omega]); omega]); omega]

/-- A sum of at least two does not count as zero. -/
theorem normalizeSum_RCZero {fR0 : Udatatype} (aExp bExp : Udatatype) (hf : f ≤ 52)
    (hlo : 2 ≤ fR0.toNat)
    (hhi : fR0.toNat < 2 ^ (f + 4)) :
    (normalizeSum fR0 aExp bExp e (f + 4) true).RCZero = false := by
  obtain ⟨-, hshift, -, htop⟩ := countLeadingZeroLshift64_spec (m := f + 4) (by omega) (by omega)
    (by omega : 0 < fR0.toNat) hhi
  have hceil := pow_sub_one_le (m := f + 4) (by omega)
  -- The top bit is above the lowest one, so the count is not all ones.
  have hcount : (countLeadingZeroLshift64 (f + 4) fR0).1.toNat < f + 3 := by
    rw [hshift] at htop
    have hle : 2 * 2 ^ (countLeadingZeroLshift64 (f + 4) fR0).1.toNat < 2 ^ (f + 4) :=
      lt_of_le_of_lt (Nat.mul_le_mul_right _ hlo) htop
    rw [← Nat.pow_succ'] at hle
    have := (Nat.pow_lt_pow_iff_right (by decide : 1 < 2)).mp hle
    omega
  have hceil6 : runtimeCeilLog2 (f + 4) < 64 := by
    unfold runtimeCeilLog2
    repeat' split
    all_goals decide
  unfold normalizeSum
  dsimp only
  rw [if_pos rfl]
  dsimp only
  rw [Bool.eq_false_iff]
  intro heq
  rw [beq_iff_eq] at heq
  rw [heq, toNat_ones hceil6] at hcount
  omega

/-- What normalization does to a sum `R` that is not zero: it shifts it up by `k`, and
the fields it leaves are those of the truncated magnitude. -/
theorem normalizeSum_spec {fR0 aExp bExp : Udatatype} {A B : Nat} (he : e < 64) (hf : f ≤ 52)
    (h : B ≤ A) (haExp : aExp.toNat = A / 2 ^ f) (hbExp : bExp.toNat = B / 2 ^ f)
    (hA : A / 2 ^ f + 1 < 2 ^ e) (hlo : 2 ≤ fR0.toNat) (hhi : fR0.toNat < 2 ^ (f + 4))
    (hsub : A / 2 ^ f = 0 → fR0.toNat < 2 ^ (f + 3)) (hfour : A / 2 ^ f = 0 → 4 ∣ fR0.toNat) :
    ∃ k, (normalizeSum fR0 aExp bExp e (f + 4) true).RSig0.toNat = fR0.toNat * 2 ^ k ∧
      (2 ^ (f + 1) ≤ fR0.toNat → k ≤ 2) ∧
      magSig f ((normalizeSum fR0 aExp bExp e (f + 4) true).truncated f) =
        (normalizeSum fR0 aExp bExp e (f + 4) true).RSig0.toNat / 8 ∧
      magExp f ((normalizeSum fR0 aExp bExp e (f + 4) true).truncated f) + k = magExp f A + 1 ∧
      (normalizeSum fR0 aExp bExp e (f + 4) true).RExp0.toNat ≤ A / 2 ^ f + 1 ∧
      (fR0.toNat < 2 ^ (f + 3) →
        (normalizeSum fR0 aExp bExp e (f + 4) true).RExp0.toNat ≤ max (A / 2 ^ f) 1) ∧
      (2 ^ (f + 3) ≤ fR0.toNat →
        (normalizeSum fR0 aExp bExp e (f + 4) true).RExp0.toNat = A / 2 ^ f + 1) := by
  have hzero := normalizeSum_RCZero (e := e) aExp bExp hf hlo hhi
  obtain ⟨hcount, hshift, hnorm, htop⟩ := countLeadingZeroLshift64_spec (m := f + 4) (by omega)
    (by omega) (by omega : 0 < fR0.toNat) hhi
  have hpowe : 2 ^ e < 2 ^ 64 := Nat.pow_lt_pow_right (by decide) he
  have hpow4 : 2 ^ (f + 4) = 8 * (2 * 2 ^ f) := by
    rw [show f + 4 = 1 + f + 3 by omega, Nat.pow_add, Nat.pow_add, Nat.pow_one, Nat.mul_comm]
  have hpow3 : 2 ^ (f + 3) = 8 * 2 ^ f := by rw [Nat.pow_add, Nat.mul_comm]
  have hpos := Nat.two_pow_pos f
  have h64 : 2 ^ (f + 4) < 2 ^ 64 := Nat.pow_lt_pow_right (by decide) (by omega)
  rw [show f + 4 - 1 = f + 3 by omega] at hnorm
  unfold normalizeSum at hzero ⊢
  dsimp only at hzero ⊢
  rw [if_pos rfl] at hzero ⊢
  dsimp only at hzero ⊢
  rw [hzero, Bool.false_or]
  generalize hz : (countLeadingZeroLshift64 (f + 4) fR0).1 = nZeros at *
  generalize (countLeadingZeroLshift64 (f + 4) fR0).2 = shift0 at *
  -- A sum with the top bit set is not shifted, the others are.
  have hbig : 2 ^ (f + 3) ≤ fR0.toNat → nZeros.toNat = 0 := by
    intro hge
    by_contra hne
    have hdouble : 2 ≤ 2 ^ nZeros.toNat := by
      calc 2 = 2 ^ 1 := rfl
        _ ≤ 2 ^ nZeros.toNat := Nat.pow_le_pow_right (by decide) (by omega)
    have hmul := Nat.mul_le_mul hge hdouble
    rw [← hshift] at hmul
    omega
  have hsmall : fR0.toNat < 2 ^ (f + 3) → 1 ≤ nZeros.toNat := by
    intro hlt
    by_contra hne
    rw [show nZeros.toNat = 0 by omega, Nat.pow_zero, Nat.mul_one] at hshift
    omega
  have hk2 : 2 ^ (f + 1) ≤ fR0.toNat → nZeros.toNat ≤ 2 := by
    intro hge
    by_contra hgt
    have height : 2 ^ 3 ≤ 2 ^ nZeros.toNat := Nat.pow_le_pow_right (by decide) (by omega)
    have hmul := Nat.mul_le_mul hge height
    rw [← hshift, ← Nat.pow_add] at hmul
    exact absurd (lt_of_le_of_lt hmul htop) (by rw [show f + 1 + 3 = f + 4 by omega]; exact lt_irrefl _)
  by_cases hlt : aExp < nZeros
  swap
  · -- The exponent is large enough for the whole shift.
    have hge : nZeros.toNat ≤ A / 2 ^ f := by
      rw [← haExp]
      exact Nat.not_lt.mp hlt
    have hApos : 0 < A / 2 ^ f := by
      by_contra hA0
      have hA0' : A / 2 ^ f = 0 := by omega
      have := hsmall (hsub hA0')
      omega
    have hexp : ((aExp - nZeros + 1) &&& ones e).toNat = A / 2 ^ f - nZeros.toNat + 1 := by
      have hone : (1 : Udatatype).toNat = 1 := rfl
      rw [toNat_and_ones _ he, BitVec.toNat_add, BitVec.toNat_sub, haExp, hone]
      have hword : (2 ^ 64 - nZeros.toNat + A / 2 ^ f) % 2 ^ 64 = A / 2 ^ f - nZeros.toNat := by
        omega
      rw [hword, Nat.mod_eq_of_lt (a := A / 2 ^ f - nZeros.toNat + 1) (by omega)]
      exact Nat.mod_eq_of_lt (by omega)
    rw [if_neg hlt, if_neg (show ¬ decide (aExp < nZeros) = true by rwa [decide_eq_true_eq])]
    unfold Normalized.truncated
    dsimp only
    rw [hexp]
    -- The significand has its top bit just above the fraction.
    obtain ⟨s, hs⟩ := Nat.exists_eq_add_of_le
      (show 2 ^ f ≤ shift0.toNat / 8 by
        rw [Nat.le_div_iff_mul_le (by decide)]
        omega)
    have hs' : s < 2 ^ f := by
      have : shift0.toNat / 8 < 2 * 2 ^ f := Nat.div_lt_of_lt_mul (by omega)
      omega
    have hmod : shift0.toNat / 8 % 2 ^ f = s := by
      rw [hs, Nat.add_mod_left, Nat.mod_eq_of_lt hs']
    obtain ⟨hsig, hexp'⟩ := magSig_packed (f := f) (x := A / 2 ^ f - nZeros.toNat + 1)
      (Nat.succ_pos _) hs'
    rw [hmod, hsig, hexp', ← hs]
    refine ⟨nZeros.toNat, hshift, hk2, rfl, ?_, by omega, fun hR => ?_, fun hR => ?_⟩
    · unfold magExp
      omega
    · have := hsmall hR
      omega
    · rw [hbig hR, Nat.sub_zero]
  · have hlt' : A / 2 ^ f < nZeros.toNat := by
      rw [← haExp]
      exact hlt
    have hR : fR0.toNat < 2 ^ (f + 3) := by
      by_contra hge
      have := hbig (Nat.not_lt.mp hge)
      omega
    rw [if_pos hlt, if_pos (decide_eq_true hlt)]
    have hbothNull : (aExp == 0 && bExp == 0) = decide (A / 2 ^ f = 0) := by
      rw [word_eq_zero_iff, word_eq_zero_iff, haExp, hbExp]
      have hle : B / 2 ^ f ≤ A / 2 ^ f := Nat.div_le_div_right h
      by_cases hA0 : A / 2 ^ f = 0
      · simp [hA0, show B / 2 ^ f = 0 by omega]
      · simp [hA0]
    rw [hbothNull]
    by_cases hA0 : A / 2 ^ f = 0
    · -- Both operands are subnormal, and the sum is exact.
      rw [decide_eq_true hA0, if_pos rfl, Bool.true_and]
      have hshift1 : (fR0 <<< 1).toNat = fR0.toNat * 2 ^ 1 := toNat_shiftLeft_of_lt (by omega)
      have hcarry : (word (nZeros == 1) &&& ones e).toNat = fR0.toNat * 2 ^ 1 / 8 / 2 ^ f := by
        have hle1 : (nZeros == 1).toNat ≤ 1 := Bool.toNat_le _
        have htwo : 2 ≤ 2 ^ e := by omega
        rw [toNat_and_ones _ he, toNat_word, Nat.mod_eq_of_lt (by omega)]
        -- The count is one where the carry bit of the subnormals is set.
        have hone : (nZeros == 1) = decide (nZeros.toNat = 1) := by
          rw [Bool.eq_iff_iff, beq_iff_eq, decide_eq_true_eq, ← BitVec.toNat_inj]
          exact Iff.rfl
        have hpos1 := hsmall hR
        rw [hone, Nat.div_div_eq_div_mul]
        by_cases h1 : nZeros.toNat = 1
        · rw [decide_eq_true h1, Bool.toNat_true]
          rw [h1] at hshift
          exact (Nat.div_eq_of_lt_le (by omega) (by omega)).symm
        · rw [decide_eq_false h1, Bool.toNat_false]
          refine (Nat.div_eq_of_lt ?_).symm
          have hfour2 : 2 ^ 2 ≤ 2 ^ nZeros.toNat := Nat.pow_le_pow_right (by decide) (by omega)
          have hmul := Nat.mul_le_mul_left fR0.toNat hfour2
          rw [← hshift] at hmul
          omega
      unfold Normalized.truncated
      dsimp only
      rw [hcarry, hshift1]
      obtain ⟨c, hc⟩ := hfour hA0
      have hval : fR0.toNat * 2 ^ 1 / 8 = c := by omega
      have hclt : c < 2 ^ (f + 1) := by
        rw [Nat.pow_succ]
        omega
      have hfields : c / 2 ^ f * 2 ^ f + c % 2 ^ f = c := Nat.div_add_mod' c (2 ^ f)
      rw [hval, hfields, magSig_of_lt_two hclt, magExp_of_lt hclt]
      have hle1 : c / 2 ^ f ≤ 1 := by
        refine Nat.le_of_lt_succ (Nat.div_lt_of_lt_mul ?_)
        rw [Nat.mul_comm, ← Nat.pow_succ']
        exact hclt
      refine ⟨1, rfl, fun _ => by omega, rfl, ?_, by omega, fun _ => by omega, fun hge => ?_⟩
      · unfold magExp
        omega
      · omega
    · -- The result is subnormal: the significand is put at the least exponent.
      rw [decide_eq_false hA0, Bool.false_and, if_neg Bool.false_ne_true, haExp]
      have hstep : fR0.toNat * 2 ^ (A / 2 ^ f) * 2 ≤ fR0.toNat * 2 ^ nZeros.toNat := by
        rw [Nat.mul_assoc, ← Nat.pow_succ]
        exact Nat.mul_le_mul_left _ (Nat.pow_le_pow_right (by decide) hlt')
      rw [← hshift] at hstep
      have hshiftA : (fR0 <<< (A / 2 ^ f)).toNat = fR0.toNat * 2 ^ (A / 2 ^ f) :=
        toNat_shiftLeft_of_lt (by omega)
      have hexp0 : (word false &&& ones e).toNat = 0 := by
        rw [toNat_and_ones _ he, toNat_word]
        exact Nat.zero_mod _
      unfold Normalized.truncated
      dsimp only
      rw [hshiftA, hexp0, Nat.zero_mul, Nat.zero_add]
      have hsig : fR0.toNat * 2 ^ (A / 2 ^ f) / 8 < 2 ^ f := Nat.div_lt_of_lt_mul (by omega)
      have hsig' : fR0.toNat * 2 ^ (A / 2 ^ f) / 8 < 2 ^ (f + 1) := by
        rw [Nat.pow_succ]
        omega
      rw [Nat.mod_eq_of_lt hsig, magSig_of_lt hsig, magExp_of_lt hsig']
      refine ⟨A / 2 ^ f, rfl, fun hge => ?_, rfl, ?_, by omega, fun _ => by omega, fun hge => ?_⟩
      · have := hk2 hge
        omega
      · unfold magExp
        omega
      · omega

/-- The packed word, rounded. -/
theorem packedRound_spec {n : Normalized} {sb : Bool} (hef : e + f ≤ 63)
    (hexp : n.RExp0.toNat < 2 ^ e) (hf : f ≤ 52) :
    (packedRound n sb f 2 .nevn).toNat = n.truncated f +
      (decide (4 ≤ n.RSig0.toNat % 8) && (decide (n.RSig0.toNat / 8 % 2 = 1) ||
        decide (n.RSig0.toNat % 4 ≠ 0) || sb)).toNat := by
  have hfrac : ((n.RSig0 >>> (2 + 1)) &&& ones f).toNat = n.RSig0.toNat / 8 % 2 ^ f := by
    rw [toNat_and_ones _ (by omega), toNat_shiftRight, show (2 : Nat) ^ (2 + 1) = 8 by rfl]
  have hmod := Nat.mod_lt (n.RSig0.toNat / 8) (Nat.two_pow_pos f)
  have htop : (n.RExp0.toNat + 1) * 2 ^ f ≤ 2 ^ 63 := by
    calc (n.RExp0.toNat + 1) * 2 ^ f ≤ 2 ^ e * 2 ^ f := Nat.mul_le_mul_right _ hexp
      _ = 2 ^ (e + f) := (Nat.pow_add _ _ _).symm
      _ ≤ 2 ^ 63 := Nat.pow_le_pow_right (by decide) hef
  have hbits : ∀ i, (selectBit n.RSig0 i != 0) = decide (n.RSig0.toNat / 2 ^ i % 2 = 1) := by
    intro i
    rw [word_ne_zero_iff, toNat_selectBit, decide_eq_decide]
    omega
  have hround : (selectBit n.RSig0 2 != 0 && (selectBit n.RSig0 3 != 0 ||
      selectBit n.RSig0 1 != 0 || (selectBit n.RSig0 0 != 0 || sb))) =
      (decide (4 ≤ n.RSig0.toNat % 8) && (decide (n.RSig0.toNat / 8 % 2 = 1) ||
        decide (n.RSig0.toNat % 4 ≠ 0) || sb)) := by
    rw [hbits, hbits, hbits, hbits]
    generalize n.RSig0.toNat = r
    rw [Bool.eq_iff_iff]
    simp only [Bool.and_eq_true, Bool.or_eq_true, decide_eq_true_eq]
    constructor
    · rintro ⟨hg, (hl | hr) | hs | hsb⟩
      · exact ⟨by omega, .inl (.inl (by omega))⟩
      · exact ⟨by omega, .inl (.inr (by omega))⟩
      · exact ⟨by omega, .inl (.inr (by omega))⟩
      · exact ⟨by omega, .inr hsb⟩
    · rintro ⟨hg, (hl | hr) | hsb⟩
      · exact ⟨by omega, .inl (.inl (by omega))⟩
      · rcases (by omega : r / 2 ^ 1 % 2 = 1 ∨ r / 2 ^ 0 % 2 = 1) with h1 | h0
        · exact ⟨by omega, .inl (.inr h1)⟩
        · exact ⟨by omega, .inr (.inl h0)⟩
      · exact ⟨by omega, .inr (.inr hsb)⟩
  unfold packedRound Normalized.truncated
  dsimp only
  rw [if_pos rfl, hround, BitVec.toNat_add, toNat_shift_or_of_lt (by rw [hfrac]; exact hmod)
    (le_trans htop (by decide)), hfrac, toNat_word]
  refine Nat.mod_eq_of_lt ?_
  have hle := Bool.toNat_le (decide (4 ≤ n.RSig0.toNat % 8) &&
    (decide (n.RSig0.toNat / 8 % 2 = 1) || decide (n.RSig0.toNat % 4 ≠ 0) || sb))
  rw [Nat.succ_mul] at htop
  omega

end Normalization

/-! ## The routine -/

/-- The operands after the swap stand for two signed magnitudes, the larger one first. -/
structure Operands.StandFor (o : Operands) (f : Nat) (sA : Bool) (A : Nat) (sB : Bool) (B : Nat) :
    Prop where
  le : B ≤ A
  aSign : o.aSign = sA
  bSign : o.bSign = sB
  aSig : o.aSig.toNat = A % 2 ^ f
  bSig : o.bSig.toNat = B % 2 ^ f
  aExp : o.aExp.toNat = A / 2 ^ f
  bExp : o.bExp.toNat = B / 2 ^ f

theorem addsubOperands_standFor {e f : Nat} (he : e < 64) (hf : f < 64) (hef : e + f < 64)
    (a b : Tfloat) (sub : Bool) :
    (addsubOperands a b sub e f (-1)).StandFor f (signOf e f a) (magOf e f a)
        (signOf e f b ^^ sub) (magOf e f b) ∨
      (addsubOperands a b sub e f (-1)).StandFor f (signOf e f b ^^ sub) (magOf e f b)
        (signOf e f a) (magOf e f a) := by
  have hmag : ∀ x : Tfloat, (x &&& ones (e + f)).toNat = magOf e f x :=
    fun x => toNat_and_ones x hef
  by_cases hlt : magOf e f a < magOf e f b
  · right
    have hswap : decide (a &&& ones (e + f) < b &&& ones (e + f)) = true := by
      rw [decide_eq_true_eq, BitVec.lt_def, hmag, hmag]
      exact hlt
    unfold addsubOperands
    simp only [hswap, condExprMacro64_eq, if_true, extractFloatSign_eq, Bool.and_true,
      Bool.not_true, Bool.and_false, Bool.xor_false]
    exact ⟨hlt.le, rfl, rfl, toNat_extractFloatFrac b hf, toNat_extractFloatFrac a hf,
      toNat_extractFloatExp b he, toNat_extractFloatExp a he⟩
  · left
    have hswap : decide (a &&& ones (e + f) < b &&& ones (e + f)) = false := by
      rw [decide_eq_false_iff_not, BitVec.lt_def, hmag, hmag]
      exact hlt
    unfold addsubOperands
    simp only [hswap, condExprMacro64_eq, Bool.false_eq_true, if_false, extractFloatSign_eq,
      Bool.and_false, Bool.not_false, Bool.and_true, Bool.xor_false]
    exact ⟨Nat.not_lt.mp hlt, rfl, rfl, toNat_extractFloatFrac a hf, toNat_extractFloatFrac b hf,
      toNat_extractFloatExp a he, toNat_extractFloatExp b he⟩

/-- The bits of the shift distance that are kept say enough about it: all distances of
the format fit, or the greatest one that fits shifts every bit out. -/
def ShiftFits (e f : Nat) : Prop := e ≤ expShift f ∨ f + 4 ≤ 2 ^ expShift f

instance (e f : Nat) : Decidable (ShiftFits e f) := inferInstanceAs (Decidable (_ ∨ _))

section Routine

variable {e f A B : Nat} {sA sB : Bool} {o : Operands}

/-- The cut distance shifts the smaller significand as the exact one does. -/
theorem clampedDifference_shift (h : FormatBounds e f) (hfit : ShiftFits e f)
    (ho : o.StandFor f sA A sB B) (hA : A < 2 ^ (e + f)) :
    (clampedDifference (exponentDifference o e true) f).toNat < 64 ∧
      4 * magSig f B / 2 ^ (clampedDifference (exponentDifference o e true) f).toNat =
        4 * magSig f B / 2 ^ distance f A B ∧
      (4 * magSig f B % 2 ^ (clampedDifference (exponentDifference o e true) f).toNat ≠ 0 ↔
        4 * magSig f B % 2 ^ distance f A B ≠ 0) := by
  have hs := expShift_le f
  have hexple := h.exp_le
  have hs64 : 2 ^ expShift f ≤ 64 := by
    calc 2 ^ expShift f ≤ 2 ^ 6 := Nat.pow_le_pow_right (by decide) hs
      _ = 64 := rfl
  have hpos := Nat.two_pow_pos (expShift f)
  have hclamp := toNat_clampedDifference (exponentDifference o e true) f
  have hlt64 : (clampedDifference (exponentDifference o e true) f).toNat < 64 := by
    rw [hclamp]
    split <;> omega
  refine ⟨hlt64, ?_⟩
  rcases Nat.eq_zero_or_pos B with rfl | hB
  · have hzero : magSig f 0 = 0 := magSig_of_lt (Nat.two_pow_pos f)
    rw [hzero]
    simp
  have hdist := toNat_exponentDifference (e := e) (by omega) ho.le hA ho.aExp ho.bExp ho.aSig
    ho.bSig (by omega)
  rw [hdist] at hclamp
  by_cases hd : distance f A B < 2 ^ expShift f
  · rw [if_pos hd] at hclamp
    rw [hclamp]
    exact ⟨rfl, Iff.rfl⟩
  · rw [if_neg hd] at hclamp
    -- The distance does not fit, so that both shifts drop every bit.
    have hfour : f + 4 ≤ 2 ^ expShift f := by
      refine hfit.resolve_left fun hexp => hd ?_
      have hA' : A / 2 ^ f < 2 ^ e :=
        Nat.div_lt_of_lt_mul (by rw [← Nat.pow_add, Nat.add_comm]; exact hA)
      have hpow : 2 ^ e ≤ 2 ^ expShift f := Nat.pow_le_pow_right (by decide) hexp
      unfold distance magExp
      omega
    have hsig : 4 * magSig f B < 2 ^ (f + 3) := by
      have hlt := magSig_lt f B
      rw [show f + 3 = f + 1 + 2 by omega, Nat.pow_add]
      omega
    have hsmall : ∀ n, f + 3 ≤ n → 4 * magSig f B < 2 ^ n :=
      fun n hn => lt_of_lt_of_le hsig (Nat.pow_le_pow_right (by decide) hn)
    have h1 := hsmall (2 ^ expShift f - 1) (by omega)
    have h2 := hsmall (distance f A B) (by omega)
    rw [hclamp, Nat.div_eq_of_lt h1, Nat.div_eq_of_lt h2, Nat.mod_eq_of_lt h1, Nat.mod_eq_of_lt h2]
    exact ⟨rfl, Iff.rfl⟩

/-- The aligned sum of the routine and its sticky bit. -/
def routineSum (o : Operands) (e f : Nat) : Udatatype × Bool :=
  alignedSum (shiftedSignificand o.aSig (true && o.aExp != 0) f 2)
    (shiftedSignificand o.bSig (true && o.bExp != 0) f 2)
    (clampedDifference (exponentDifference o e true) f) (o.aSign ^^ o.bSign) (f + 2 + 1) .nevn

theorem routineSum_spec (h : FormatBounds e f) (hfit : ShiftFits e f)
    (ho : o.StandFor f sA A sB B) (hA : A < 2 ^ (e + f)) :
    (routineSum o e f).1.toNat = exactSum f A B (sA ^^ sB) / 2 ^ distance f A B ∧
      ((routineSum o e f).2 = true ↔ exactSum f A B (sA ^^ sB) % 2 ^ distance f A B ≠ 0) := by
  obtain ⟨hlt, hquot, hrem⟩ := clampedDifference_shift h hfit ho hA
  unfold routineSum
  rw [ho.aSign, ho.bSign]
  exact alignedSum_spec h.frac_le ho.le (toNat_shiftedSignificand h.frac_le ho.aSig ho.aExp)
    (toNat_shiftedSignificand h.frac_le ho.bSig ho.bExp) hlt hquot hrem _

/-- The last bit of a truncated magnitude. -/
theorem Normalized.truncated_mod_two (n : Normalized) (hf : 0 < f) :
    n.truncated f % 2 = n.RSig0.toNat / 8 % 2 := by
  obtain ⟨g, rfl⟩ : ∃ g, f = g + 1 := ⟨f - 1, by omega⟩
  have hmod : n.RSig0.toNat / 8 % 2 ^ (g + 1) % 2 = n.RSig0.toNat / 8 % 2 :=
    Nat.mod_mod_of_dvd _ (Dvd.intro_left (2 ^ g) rfl)
  unfold Normalized.truncated
  rw [Nat.pow_succ, ← Nat.mul_assoc] at *
  omega

/-- The rounding bit in terms of the exact sum. -/
theorem round_iff {W r : Nat} {sb : Bool} {P : Prop} (hr : W = r) (hsb : sb = true ↔ P) :
    (decide (4 ≤ r % 8) && (decide (r / 8 % 2 = 1) || decide (r % 4 ≠ 0) || sb)) = true ↔
      (4 ≤ W % 8 ∧ (W % 4 ≠ 0 ∨ P)) ∨ ((W % 8 = 4 ∧ ¬ P) ∧ r / 8 % 2 = 1) := by
  subst hr
  rw [← hsb]
  simp only [Bool.and_eq_true, Bool.or_eq_true, decide_eq_true_eq]
  constructor
  · rintro ⟨hguard, (hodd | hlow) | hsticky⟩
    · by_cases hs : W % 4 ≠ 0 ∨ sb = true
      · exact .inl ⟨hguard, hs⟩
      · rw [not_or, not_not] at hs
        exact .inr ⟨⟨by omega, hs.2⟩, hodd⟩
    · exact .inl ⟨hguard, .inl hlow⟩
    · exact .inl ⟨hguard, .inr hsticky⟩
  · rintro (⟨hguard, hlow | hsticky⟩ | ⟨⟨hguard, -⟩, hodd⟩)
    · exact ⟨hguard, .inl (.inr hlow)⟩
    · exact ⟨hguard, .inr hsticky⟩
    · exact ⟨by omega, .inl (.inl hodd)⟩

/-- A sum whose top bit carries out of the greatest exponent is at least the bound of
the format, and its packed word keeps the exponent of infinity. -/
theorem packedRound_overflow {n : Normalized} {sb : Bool} (hef : e + f ≤ 63) (hf : f ≤ 52)
    (hexp : n.RExp0.toNat = 2 ^ e - 1) (hmax : n.RSig0.toNat ≤ 2 ^ (f + 4) - 8)
    (hmin : 2 ^ (f + 3) ≤ n.RSig0.toNat) :
    (packedRound n sb f 2 .nevn).toNat / 2 ^ f = 2 ^ e - 1 := by
  have hpe := Nat.two_pow_pos e
  have hpf := Nat.two_pow_pos f
  have hpow3 : 2 ^ (f + 3) = 8 * 2 ^ f := by rw [Nat.pow_add, Nat.mul_comm]
  have hpow4 : 2 ^ (f + 4) = 16 * 2 ^ f := by rw [Nat.pow_add, Nat.mul_comm]
  -- All ones leave no room for the rounding bit, but their guard bits are zero.
  have hfrac : n.RSig0.toNat / 8 % 2 ^ f = n.RSig0.toNat / 8 - 2 ^ f := by
    rw [Nat.mod_eq_sub_mod (by omega), Nat.mod_eq_of_lt (by omega)]
  rw [packedRound_spec hef (by omega) hf, Normalized.truncated, hexp, hfrac, Nat.add_assoc]
  refine (packed_fields ?_).1
  by_cases hguard : 4 ≤ n.RSig0.toNat % 8
  · have hle := Bool.toNat_le (decide (4 ≤ n.RSig0.toNat % 8) &&
      (decide (n.RSig0.toNat / 8 % 2 = 1) || decide (n.RSig0.toNat % 4 ≠ 0) || sb))
    omega
  · rw [decide_eq_false hguard, Bool.false_and, Bool.toNat_false]
    omega

/-- A finite sum that is not zero: the rounded packed word is the nearest magnitude,
unless the sum overflows. -/
theorem packedRound_nearest (h : FormatBounds e f) (hfit : ShiftFits e f)
    (ho : o.StandFor f sA A sB B) (hA : A < infMag e f)
    (hne : exactSum f A B (sA ^^ sB) ≠ 0) :
    let n := normalizeSum (routineSum o e f).1 o.aExp o.bExp e (f + 4) true
    let v : ℚ := |((signedMag f sA A + signedMag f sB B : Int) : ℚ)|
    n.RCZero = false ∧
      ((A / 2 ^ f + 2 = 2 ^ e ∧ 2 ^ (f + 3) ≤ (routineSum o e f).1.toNat) →
        IsNearestEven e f v (infMag e f) ∧
          (packedRound n (routineSum o e f).2 f 2 .nevn).toNat / 2 ^ f = 2 ^ e - 1) ∧
      (¬ (A / 2 ^ f + 2 = 2 ^ e ∧ 2 ^ (f + 3) ≤ (routineSum o e f).1.toNat) →
        IsNearestEven e f v (packedRound n (routineSum o e f).2 f 2 .nevn).toNat) := by
  have hexple := h.exp_le
  have hexpge := h.exp_ge
  have hfracle := h.frac_le
  have hfracge := h.frac_ge
  have hpe : 2 ^ 4 ≤ 2 ^ e := Nat.pow_le_pow_right (by decide) hexpge
  have hpf := Nat.two_pow_pos f
  have hexp : A / 2 ^ f + 1 < 2 ^ e := by
    have hdiv : A / 2 ^ f < 2 ^ e - 1 := Nat.div_lt_of_lt_mul (by
      rw [Nat.mul_comm]
      exact hA)
    omega
  have hinf : infMag e f < 2 ^ (e + f) := by
    unfold infMag
    rw [Nat.pow_add]
    exact Nat.mul_lt_mul_of_pos_right (by omega) hpf
  obtain ⟨hsum, hsticky⟩ := routineSum_spec h hfit ho (lt_trans hA hinf)
  have htwo := exactSum_div_two_le (sA ^^ sB) hne
  have hmax := exactSum_div_le (f := f) ho.le (sA ^^ sB)
  have hpow4 : 8 ≤ 2 ^ (f + 4) := by
    calc 8 = 2 ^ 3 := rfl
      _ ≤ 2 ^ (f + 4) := Nat.pow_le_pow_right (by decide) (by omega)
  have hmono : A / 2 ^ f = 0 → distance f A B = 0 ∧ magSig f A < 2 ^ f ∧ magSig f B < 2 ^ f := by
    intro hzero
    have hB : B / 2 ^ f = 0 := Nat.le_zero.mp (hzero ▸ Nat.div_le_div_right ho.le)
    refine ⟨by rw [distance, magExp, hzero, Nat.zero_sub], ?_, ?_⟩
    · rw [magSig, if_pos hzero]
      exact Nat.mod_lt _ hpf
    · rw [magSig, if_pos hB]
      exact Nat.mod_lt _ hpf
  have hexact0 : A / 2 ^ f = 0 → exactSum f A B (sA ^^ sB) / 2 ^ distance f A B =
      exactSum f A B (sA ^^ sB) := by
    intro hzero
    rw [(hmono hzero).1, Nat.pow_zero, Nat.div_one]
  obtain ⟨k, hk, hk2, hsig, hexpk, hle, hle', hge'⟩ := normalizeSum_spec (A := A) (B := B)
    (e := e) (f := f) (by omega) hfracle ho.le ho.aExp ho.bExp hexp
    (show 2 ≤ (routineSum o e f).1.toNat by rw [hsum]; exact htwo) (by rw [hsum]; omega)
    (by
      intro hzero
      obtain ⟨hd, h1, h2⟩ := hmono hzero
      rw [hsum, hexact0 hzero]
      unfold exactSum
      rw [hd, Nat.pow_zero, Nat.mul_one, Nat.pow_add]
      split <;> omega)
    (by
      intro hzero
      rw [hsum, hexact0 hzero]
      unfold exactSum
      split <;> exact Nat.dvd_mul_right 4 _)
  have hRC := normalizeSum_RCZero (e := e) (f := f) o.aExp o.bExp hfracle
    (show 2 ≤ (routineSum o e f).1.toNat by rw [hsum]; exact htwo) (by rw [hsum]; omega)
  dsimp only
  generalize normalizeSum (routineSum o e f).1 o.aExp o.bExp e (f + 4) true = n at *
  refine ⟨hRC, ?_⟩
  -- The value in eighths of the unit of the shifted sum.
  have hvalue : |((signedMag f sA A + signedMag f sB B : Int) : ℚ)| *
      ((8 * 2 ^ distance f A B : Nat) : ℚ) =
        ((exactSum f A B (sA ^^ sB) * 2 ^ k : Nat) : ℚ) * 2 ^ magExp f (n.truncated f) := by
    have hnat : (signedMag f sA A + signedMag f sB B).natAbs * (8 * 2 ^ distance f A B) =
        exactSum f A B (sA ^^ sB) * 2 ^ k * 2 ^ magExp f (n.truncated f) := by
      have h4 := natAbs_signedMag_add (f := f) ho.le sA sB
      have hmagA : magExp f A = distance f A B + magExp f B := by
        unfold distance
        rw [Nat.sub_add_cancel (magExp_mono ho.le)]
      calc (signedMag f sA A + signedMag f sB B).natAbs * (8 * 2 ^ distance f A B)
          = 4 * (signedMag f sA A + signedMag f sB B).natAbs * (2 * 2 ^ distance f A B) := by ring
        _ = exactSum f A B (sA ^^ sB) * 2 ^ (magExp f A + 1) := by
            rw [h4, hmagA, Nat.pow_succ, Nat.pow_add]
            ring
        _ = _ := by rw [← hexpk, Nat.pow_add]; ring
    have habs : |((signedMag f sA A + signedMag f sB B : Int) : ℚ)| =
        ((signedMag f sA A + signedMag f sB B).natAbs : ℚ) := by
      rw [Nat.cast_natAbs, Int.cast_abs]
    rw [habs]
    exact_mod_cast hnat
  have hD : 0 < 8 * 2 ^ distance f A B := Nat.mul_pos (by decide) (Nat.two_pow_pos _)
  constructor
  · rintro ⟨htop, hbig⟩
    have hRE : n.RExp0.toNat = 2 ^ e - 1 := by
      rw [hge' hbig]
      omega
    -- The packed exponent says that nothing was shifted.
    have hmagExp : magExp f (n.truncated f) = 2 ^ e - 2 := by
      have hdiv : n.truncated f / 2 ^ f = 2 ^ e - 1 := by
        unfold Normalized.truncated
        rw [(packed_fields (Nat.mod_lt _ hpf)).1, hRE]
      rw [magExp, hdiv, Nat.sub_sub]
    have hk0 : k = 0 := by
      have hA' : magExp f A = 2 ^ e - 3 := by
        unfold magExp
        omega
      omega
    rw [hk0, Nat.pow_zero, Nat.mul_one] at hk hvalue
    refine ⟨isNearestEven_inf ?_, packedRound_overflow (by omega) hfracle hRE ?_ ?_⟩
    · have hS : 2 ^ (f + 3) * 2 ^ distance f A B ≤ exactSum f A B (sA ^^ sB) := by
        rw [hsum] at hbig
        exact (Nat.le_div_iff_mul_le (Nat.two_pow_pos _)).mp hbig
      have hinfval : magValue f (infMag e f) = 2 ^ f * 2 ^ (2 ^ e - 2) := by
        obtain ⟨hs, hx⟩ := magSig_packed (f := f) (x := 2 ^ e - 1) (s := 0) (by omega) hpf
        rw [magValue, infMag, ← Nat.add_zero ((2 ^ e - 1) * 2 ^ f), hs, hx, Nat.add_zero,
          Nat.sub_sub]
      have hDq : (0 : ℚ) < (8 * 2 ^ distance f A B : Nat) := by exact_mod_cast hD
      refine le_of_mul_le_mul_right ?_ hDq
      rw [hvalue, hmagExp, hinfval]
      have hnat : 2 ^ f * 2 ^ (2 ^ e - 2) * (8 * 2 ^ distance f A B) ≤
          exactSum f A B (sA ^^ sB) * 2 ^ (2 ^ e - 2) := by
        calc 2 ^ f * 2 ^ (2 ^ e - 2) * (8 * 2 ^ distance f A B)
            = 2 ^ (f + 3) * 2 ^ distance f A B * 2 ^ (2 ^ e - 2) := by rw [Nat.pow_add 2 f 3]; ring
          _ ≤ _ := Nat.mul_le_mul_right _ hS
      exact_mod_cast hnat
    · rw [hk, hsum]
      exact hmax
    · rw [hk]
      exact hbig
  · intro hnot
    have hRE : n.RExp0.toNat ≤ 2 ^ e - 2 := by
      by_cases hbig : 2 ^ (f + 3) ≤ (routineSum o e f).1.toNat
      · have htop : A / 2 ^ f + 2 ≠ 2 ^ e := fun htop => hnot ⟨htop, hbig⟩
        omega
      · have hmaxle := hle' (Nat.not_le.mp hbig)
        omega
    have hlt : n.truncated f < infMag e f := by
      have hmod := Nat.mod_lt (n.RSig0.toNat / 8) hpf
      calc n.truncated f < (n.RExp0.toNat + 1) * 2 ^ f := by
            unfold Normalized.truncated
            rw [Nat.succ_mul]
            omega
        _ ≤ infMag e f := Nat.mul_le_mul_right _ (by omega)
    rw [packedRound_spec (e := e) (by omega) (by omega) hfracle]
    rw [hsum] at hk hk2
    -- A sum that lost bits is shifted by two places at most, so the lost bits stay below.
    obtain ⟨hquot, hup, htie⟩ := sticky_shift (k := k) (Nat.two_pow_pos (distance f A B))
      (fun hs => hk2 (exactSum_div_ge_of_sticky (sA ^^ sB) hs))
    refine isNearestEven_of_scaled hlt hD hvalue ?_ ?_
    · rw [hquot, hsig, hk]
    · rw [hup, htie, Normalized.truncated_mod_two n (by omega), round_iff hk.symm hsticky,
        not_not]

/-- A sum of zero counts as zero and packs to zero. -/
theorem normalizeSum_zero (aExp bExp : Udatatype) {sb : Bool} (hf4 : 4 ≤ f) (hf : f ≤ 52)
    (hsb : sb = false) :
    let n := normalizeSum 0 aExp bExp e (f + 4) true
    n.RCZero = true ∧ packedRound n sb f 2 .nevn = 0 := by
  have hceil3 : 3 ≤ runtimeCeilLog2 (f + 4) ∧ runtimeCeilLog2 (f + 4) ≤ 6 := by
    unfold runtimeCeilLog2
    repeat' split
    all_goals omega
  obtain ⟨hge3, hle6⟩ := hceil3
  have hcount : BitVec.ofNat 64 (2 ^ runtimeCeilLog2 (f + 4) - 1) = ones (runtimeCeilLog2 (f + 4)) := by
    apply BitVec.eq_of_toNat_eq
    have hlt : 2 ^ runtimeCeilLog2 (f + 4) < 2 ^ 64 := Nat.pow_lt_pow_right (by decide) (by omega)
    rw [toNat_ones (by omega), BitVec.toNat_ofNat, Nat.mod_eq_of_lt (by omega)]
  -- The count is at least seven.
  have hone : (ones (runtimeCeilLog2 (f + 4)) == 1) = false := by
    interval_cases runtimeCeilLog2 (f + 4) <;> decide
  subst hsb
  have hand : (0 : Udatatype) &&& ones e = 0 := BitVec.zero_and
  unfold normalizeSum
  simp only [countLeadingZeroLshift64_zero (by omega : 2 ≤ f + 4), hcount, hone, beq_self_eq_true,
    Bool.true_or, if_true, Bool.and_false]
  refine ⟨trivial, ?_⟩
  have hword : word false &&& ones e = 0 := hand
  rw [hword]
  unfold packedRound
  simp [selectBit, word]

/-- The tail of `__float_addsub` in the modes of the format. -/
def addsubResult (o : Operands) (e f : Nat) : Tfloat :=
  let sAB := o.aSign ^^ o.bSign
  let n := normalizeSum (routineSum o e f).1 o.aExp o.bExp e (f + 4) true
  let special := o.aExp == ones e || o.bExp == ones e
  let overflow := o.aExp == ((1 : Udatatype) <<< e) - 2 &&
    ((routineSum o e f).1 >>> (f + 3)) &&& 1 != 0
  let Rrounded := packedRound n (routineSum o e f).2 f 2 .nevn
  let nan := (o.aExp == ones e && o.aSig != 0) || (o.bExp == ones e && o.bSig != 0) ||
    (sAB && o.aExp == ones e && o.bExp == ones e)
  (word (o.aSign && (!n.RCZero || !sAB)) <<< (e + f)) |||
    ((if special then ones e else (Rrounded >>> f) &&& ones e) <<< f) |||
    ((word nan <<< (f - 1)) |||
      (if n.RCZero || special || overflow then 0 else Rrounded &&& ones f))

theorem floatAddsub_eq (a b : Tfloat) (sub : Bool) :
    floatAddsub a b sub e f .nevn .std true true (-1) =
      addsubResult (addsubOperands a b sub e f (-1)) e f := by
  unfold floatAddsub addsubResult routineSum
  simp only [if_true, decide_true, Bool.true_and, Bool.and_true, ne_eq, reduceCtorEq,
    not_false_eq_true,
    Bool.or_assoc]

/-- The test for a carry out of the greatest finite exponent. -/
theorem overflow_iff {x r : Udatatype} (he4 : 4 ≤ e) (he : e ≤ 11)
    (hx : x.toNat = A / 2 ^ f) (hr : r.toNat < 2 ^ (f + 4)) :
    (x == ((1 : Udatatype) <<< e) - 2 && (r >>> (f + 3)) &&& 1 != 0) =
      decide (A / 2 ^ f + 2 = 2 ^ e ∧ 2 ^ (f + 3) ≤ r.toNat) := by
  have hpow : 2 ^ 4 ≤ 2 ^ e := Nat.pow_le_pow_right (by decide) he4
  have hpow' : 2 ^ e ≤ 2 ^ 11 := Nat.pow_le_pow_right (by decide) he
  have hdiv : r.toNat / 2 ^ (f + 3) < 2 :=
    Nat.div_lt_of_lt_mul (by rw [← Nat.pow_succ]; exact hr)
  have hone : ((r >>> (f + 3)) &&& 1).toNat = r.toNat / 2 ^ (f + 3) := by
    rw [BitVec.toNat_and, toNat_shiftRight, show (1 : Udatatype).toNat = 2 ^ 1 - 1 by rfl,
      Nat.and_two_pow_sub_one_eq_mod, Nat.mod_eq_of_lt hdiv]
  have htwo : (((1 : Udatatype) <<< e) - 2).toNat = 2 ^ e - 2 := by
    have hshift : ((1 : Udatatype) <<< e).toNat = 2 ^ e := by
      rw [toNat_shiftLeft_of_lt] <;> rw [show (1 : Udatatype).toNat = 1 by rfl, Nat.one_mul]
      omega
    rw [BitVec.toNat_sub, hshift, show (2 : Udatatype).toNat = 2 by rfl]
    omega
  rw [Bool.eq_iff_iff, Bool.and_eq_true, beq_iff_eq, word_ne_zero_iff, hone, decide_eq_true_eq,
    decide_eq_true_eq, ← BitVec.toNat_inj, htwo, hx,
    ← Nat.one_mul (2 ^ (f + 3)), ← Nat.le_div_iff_mul_le (Nat.two_pow_pos _), Nat.one_mul]
  constructor <;> rintro ⟨h1, h2⟩ <;> constructor <;> omega

theorem exactSum_eq_zero_iff (h : B ≤ A) (sA sB : Bool) :
    exactSum f A B (sA ^^ sB) = 0 ↔ signedMag f sA A + signedMag f sB B = 0 := by
  have hval := natAbs_signedMag_add (f := f) h sA sB
  have hpos := Nat.two_pow_pos (magExp f B)
  constructor
  · intro hzero
    rw [hzero, Nat.zero_mul] at hval
    omega
  · intro hzero
    rw [hzero, Int.natAbs_zero, Nat.mul_zero] at hval
    exact (Nat.mul_eq_zero.mp hval.symm).resolve_right hpos.ne'

/-- A larger operand does not cancel. -/
theorem exactSum_ne_zero (h : B < A) (sAB : Bool) : exactSum f A B sAB ≠ 0 := by
  have hlt : magValue f B < magValue f A := magValue_strictMono f h
  intro hzero
  have hsum : signedMag f false A + signedMag f sAB B = 0 :=
    (exactSum_eq_zero_iff h.le false sAB).mp (by rw [Bool.false_xor]; exact hzero)
  unfold signedMag at hsum
  rw [if_neg Bool.false_ne_true] at hsum
  split at hsum <;> omega

/-- The fields of the result. -/
theorem addsubResult_fields (he : e < 64) (hf : f < 64) (hef : e + f ≤ 63) (hf4 : 4 ≤ f)
    (o : Operands) :
    let n := normalizeSum (routineSum o e f).1 o.aExp o.bExp e (f + 4) true
    let special := o.aExp == ones e || o.bExp == ones e
    let overflow := o.aExp == ((1 : Udatatype) <<< e) - 2 &&
      ((routineSum o e f).1 >>> (f + 3)) &&& 1 != 0
    let P := (packedRound n (routineSum o e f).2 f 2 .nevn).toNat
    let nan := (o.aExp == ones e && o.aSig != 0) || (o.bExp == ones e && o.bSig != 0) ||
      ((o.aSign ^^ o.bSign) && o.aExp == ones e && o.bExp == ones e)
    IsEncoding e f (addsubResult o e f) ∧
      signOf e f (addsubResult o e f) = (o.aSign && (!n.RCZero || !(o.aSign ^^ o.bSign))) ∧
      (special = true → magOf e f (addsubResult o e f) =
        infMag e f + nan.toNat * 2 ^ (f - 1)) ∧
      (special = false → nan = false → magOf e f (addsubResult o e f) =
        P / 2 ^ f % 2 ^ e * 2 ^ f + if n.RCZero || overflow then 0 else P % 2 ^ f) := by
  intro n special overflow P nan
  have hhalf : 2 ^ (f - 1) * 2 = 2 ^ f := by
    rw [← Nat.pow_succ]
    congr 1
    omega
  have hpow : 2 ^ f < 2 ^ 64 := Nat.pow_lt_pow_right (by decide) hf
  have hpe := Nat.two_pow_pos e
  have hnan : (word nan <<< (f - 1)).toNat = nan.toNat * 2 ^ (f - 1) := by
    have hle := Bool.toNat_le nan
    have hmul : nan.toNat * 2 ^ (f - 1) ≤ 1 * 2 ^ (f - 1) := Nat.mul_le_mul_right _ hle
    rw [toNat_shiftLeft_of_lt] <;> rw [toNat_word]
    omega
  have hexp : (if special then ones e else
      (packedRound n (routineSum o e f).2 f 2 .nevn >>> f) &&& ones e).toNat =
        if special then 2 ^ e - 1 else P / 2 ^ f % 2 ^ e := by
    split
    · exact toNat_ones he
    · rw [toNat_and_ones _ he, toNat_shiftRight]
  have hfrac : (if n.RCZero || special || overflow then 0 else
      packedRound n (routineSum o e f).2 f 2 .nevn &&& ones f).toNat =
        if n.RCZero || special || overflow then 0 else P % 2 ^ f := by
    split
    · rfl
    · exact toNat_and_ones _ hf
  have hexplt : (if special then 2 ^ e - 1 else P / 2 ^ f % 2 ^ e) < 2 ^ e := by
    split
    · omega
    · exact Nat.mod_lt _ hpe
  have hsiglt : ((word nan <<< (f - 1)) ||| (if n.RCZero || special || overflow then 0 else
      packedRound n (routineSum o e f).2 f 2 .nevn &&& ones f)).toNat < 2 ^ f := by
    rw [BitVec.toNat_or, hnan, hfrac]
    refine Nat.or_lt_two_pow ?_ ?_
    · have hmul : nan.toNat * 2 ^ (f - 1) ≤ 1 * 2 ^ (f - 1) :=
        Nat.mul_le_mul_right _ (Bool.toNat_le nan)
      have hpos := Nat.two_pow_pos (f - 1)
      omega
    · split
      · exact Nat.two_pow_pos f
      · exact Nat.mod_lt _ (Nat.two_pow_pos f)
  obtain ⟨henc, hmag, hsign⟩ := packed_spec hef
    (o.aSign && (!n.RCZero || !(o.aSign ^^ o.bSign))) (hexp ▸ hexplt) hsiglt
  refine ⟨henc, hsign, fun hs => ?_, fun hs hn => ?_⟩
  · refine hmag.trans ?_
    rw [hexp, BitVec.toNat_or, hnan, hfrac, hs, if_pos rfl, Bool.or_true, Bool.true_or, if_pos rfl,
      Nat.or_zero]
    rfl
  · refine hmag.trans ?_
    rw [hexp, BitVec.toNat_or, hnan, hfrac, hs, hn, if_neg Bool.false_ne_true, Bool.or_false,
      Bool.toNat_false, Nat.zero_mul, Nat.zero_or]

/-- A result whose magnitude is that of infinity. -/
theorem SumRounded.of_special {r : Tfloat} (henc : IsEncoding e f r) (hBA : B ≤ A)
    (hA : infMag e f ≤ A) (hmag : magOf e f r =
      infMag e f + (decide (infMag e f < A ∨ (infMag e f ≤ B ∧ sA ≠ sB))).toNat * 2 ^ (f - 1))
    (hsign : A = infMag e f → (B = infMag e f → sA = sB) → signOf e f r = sA) :
    SumRounded e f sA A sB B r := by
  have hpos := Nat.two_pow_pos (f - 1)
  have hnan : IsNaN e f r ↔ infMag e f < A ∨ (infMag e f ≤ B ∧ sA ≠ sB) := by
    unfold IsNaN
    rw [hmag]
    by_cases hcase : infMag e f < A ∨ (infMag e f ≤ B ∧ sA ≠ sB)
    · rw [decide_eq_true hcase, Bool.toNat_true]
      exact ⟨fun _ => hcase, fun _ => by omega⟩
    · rw [decide_eq_false hcase, Bool.toNat_false]
      exact ⟨fun hlt => by omega, fun hc => absurd hc hcase⟩
  have hinf : ¬ IsNaN e f r → IsInf e f r := by
    intro hn
    rw [hnan] at hn
    unfold IsInf
    rw [hmag, decide_eq_false hn, Bool.toNat_false, Nat.zero_mul, Nat.add_zero]
  have hsame : ¬ IsNaN e f r → B = infMag e f → sA = sB := by
    intro hn hB
    rw [hnan, not_or, not_and, not_not] at hn
    exact hn.2 hB.ge
  refine ⟨henc, ?_, fun hn hA' => ⟨hinf hn, hsign hA' (hsame hn)⟩, fun hn hB => ?_,
    fun hA' => absurd hA' (Nat.not_lt.mpr hA), fun hA' => absurd hA' (Nat.not_lt.mpr hA)⟩
  · rw [hnan]
    constructor
    · rintro (hgt | ⟨hB, hne⟩)
      · exact .inl hgt
      · rcases Nat.lt_or_ge (infMag e f) A with hgt | hle
        · exact .inl hgt
        · exact .inr (.inr ⟨by omega, by omega, hne⟩)
    · rintro (hgt | hgt | ⟨-, hB, hne⟩)
      · exact .inl hgt
      · exact .inl (by omega)
      · exact .inr ⟨hB.ge, hne⟩
  · have hA' : A = infMag e f := by
      rw [hnan, not_or] at hn
      omega
    refine ⟨hinf hn, ?_⟩
    rw [hsign hA' (hsame hn)]
    exact hsame hn hB

/-- The routine on operands that stand for two signed magnitudes rounds their sum. -/
theorem addsubResult_rounded (h : FormatBounds e f) (hfit : ShiftFits e f)
    (ho : o.StandFor f sA A sB B) (hA : A < 2 ^ (e + f)) :
    SumRounded e f sA A sB B (addsubResult o e f) := by
  have he := h.exp_le
  have he4 := h.exp_ge
  have hf := h.frac_le
  have hf4 := h.frac_ge
  obtain ⟨hsum, hsticky⟩ := routineSum_spec h hfit ho hA
  have hpow4 : 2 ^ 4 ≤ 2 ^ (f + 4) := Nat.pow_le_pow_right (by decide) (by omega)
  have hmax : (routineSum o e f).1.toNat < 2 ^ (f + 4) := by
    rw [hsum]
    have := exactSum_div_le (f := f) ho.le (sA ^^ sB)
    omega
  have hB : B < 2 ^ (e + f) := lt_of_le_of_lt ho.le hA
  obtain ⟨henc, hsign, hspecial, hfinite⟩ := addsubResult_fields (e := e) (f := f) (by omega)
    (by omega) (by omega) hf4 o
  rw [nan_iff (by omega) hA ho.aExp ho.aSig, nan_iff (by omega) hB ho.bExp ho.bSig,
    overflow_iff he4 he ho.aExp hmax] at hfinite
  rw [nan_iff (by omega) hA ho.aExp ho.aSig, nan_iff (by omega) hB ho.bExp ho.bSig] at hspecial
  simp only [expMax_iff (by omega) hA ho.aExp, expMax_iff (by omega) hB ho.bExp, ho.aSign,
    ho.bSign] at hsign hspecial hfinite
  rcases Nat.lt_or_ge A (infMag e f) with hlt | hge
  · -- Both operands are finite.
    have hBlt : B < infMag e f := lt_of_le_of_lt ho.le hlt
    simp only [decide_eq_false (Nat.not_le.mpr hlt), decide_eq_false (Nat.not_le.mpr hBlt),
      decide_eq_false (Nat.not_lt.mpr hlt.le), decide_eq_false (Nat.not_lt.mpr hBlt.le),
      Bool.and_false, Bool.or_false, true_implies] at hfinite
    have hnear : IsNearestEven e f |((signedMag f sA A + signedMag f sB B : Int) : ℚ)|
        (magOf e f (addsubResult o e f)) ∧ signOf e f (addsubResult o e f) =
          if signedMag f sA A + signedMag f sB B = 0 then sA && sB
            else decide (signedMag f sA A + signedMag f sB B < 0) := by
      by_cases hzero : exactSum f A B (sA ^^ sB) = 0
      · have hsb : (routineSum o e f).2 = false := by
          rw [Bool.eq_false_iff]
          intro hsb
          rw [hsticky, hzero, Nat.zero_mod] at hsb
          exact hsb rfl
        have hR : (routineSum o e f).1 = 0 := by
          rw [← BitVec.toNat_inj, hsum, hzero, Nat.zero_div]
          rfl
        obtain ⟨hRC, hP⟩ := normalizeSum_zero (e := e) (f := f) o.aExp o.bExp
          hf4 hf hsb
        rw [hR, hP, hRC] at hfinite
        rw [hR, hRC] at hsign
        have hv := (exactSum_eq_zero_iff (f := f) ho.le sA sB).mp hzero
        rw [hfinite, hsign, hv, if_pos rfl]
        constructor
        · have hval : ((0 : Int) : ℚ) = magValue f 0 := by
            rw [magValue, magSig_of_lt (Nat.two_pow_pos f), Nat.zero_mul]
            rfl
          have hinfpos : 0 < infMag e f := by omega
          have hzeroP : (0 : Udatatype).toNat / 2 ^ f % 2 ^ e * 2 ^ f = 0 := by
            rw [show (0 : Udatatype).toNat = 0 by rfl, Nat.zero_div, Nat.zero_mod, Nat.zero_mul]
          simp only [Bool.true_or, if_true, hzeroP, Nat.zero_add]
          rw [hval, abs_of_nonneg (by positivity)]
          refine isNearestEven_down hinfpos le_rfl (.inl ?_)
          have hup : (magValue f 0 : ℚ) < magValue f (0 + 1) := by
            exact_mod_cast magValue_strictMono f Nat.one_pos
          linarith
        · cases sA <;> cases sB <;> rfl
      · obtain ⟨hRC, hover, hround⟩ := packedRound_nearest h hfit ho hlt hzero
        rw [hRC] at hfinite hsign
        have hv : signedMag f sA A + signedMag f sB B ≠ 0 :=
          fun hv => hzero ((exactSum_eq_zero_iff (f := f) ho.le sA sB).mpr hv)
        rw [hfinite, hsign, if_neg hv, signedMag_add_neg_iff ho.le sA sB hv, Bool.not_false,
          Bool.true_or, Bool.and_true]
        refine ⟨?_, rfl⟩
        by_cases hcarry : A / 2 ^ f + 2 = 2 ^ e ∧ 2 ^ (f + 3) ≤ (routineSum o e f).1.toNat
        · obtain ⟨hinf, hdiv⟩ := hover hcarry
          rw [decide_eq_true hcarry, Bool.or_true, if_pos rfl, hdiv, Nat.add_zero,
            Nat.mod_eq_of_lt (Nat.sub_lt (Nat.two_pow_pos e) Nat.one_pos)]
          exact hinf
        · have hr := hround hcarry
          rw [decide_eq_false hcarry, Bool.or_false, if_neg Bool.false_ne_true]
          have hle := hr.le_inf
          generalize (packedRound _ _ f 2 .nevn).toNat = P at hle hr ⊢
          have hPlt : P / 2 ^ f < 2 ^ e := by
            refine Nat.div_lt_of_lt_mul (lt_of_le_of_lt hle ?_)
            rw [infMag, Nat.mul_comm]
            exact Nat.mul_lt_mul_of_pos_left (Nat.sub_lt (Nat.two_pow_pos e) Nat.one_pos)
              (Nat.two_pow_pos f)
          rw [Nat.mod_eq_of_lt hPlt, Nat.mul_comm, Nat.div_add_mod]
          exact hr
    have hle := hnear.1.le_inf
    refine ⟨henc, ?_, fun _ heq => absurd heq hlt.ne, fun _ heq => absurd heq hBlt.ne,
      fun _ _ => by rw [← Int.cast_add]; exact hnear.1, fun _ _ => hnear.2⟩
    unfold IsNaN
    constructor
    · intro hn
      exact absurd hn (Nat.not_lt.mpr hle)
    · rintro (hn | hn | ⟨heq, -, -⟩)
      · exact absurd hn (Nat.not_lt.mpr hlt.le)
      · exact absurd hn (Nat.not_lt.mpr hBlt.le)
      · exact absurd heq hlt.ne
  · -- The larger operand is an infinity or a NaN.
    simp only [decide_eq_true hge, Bool.true_or, Bool.and_true, true_implies] at hspecial
    refine SumRounded.of_special henc ho.le hge ?_ ?_
    · rw [hspecial]
      congr 3
      rw [Bool.eq_iff_iff]
      simp only [Bool.or_eq_true, Bool.and_eq_true, decide_eq_true_eq, bne_iff_ne, ne_eq]
      have hBA := ho.le
      constructor
      · rintro ((hlt | hlt) | ⟨hne, hB⟩)
        · exact .inl hlt
        · exact .inl (lt_of_lt_of_le hlt hBA)
        · exact .inr ⟨hB, hne⟩
      · rintro (hlt | ⟨hB, hne⟩)
        · exact .inl (.inl hlt)
        · exact .inr ⟨hne, hB⟩
    · intro hA' hsame
      rw [hsign]
      rcases eq_or_ne sA sB with heq | hne
      · rw [heq]
        cases sB <;> simp
      · -- The operands differ, so the sum does not cancel.
        have hBne : B ≠ infMag e f := fun hB => hne (hsame hB)
        have hcancel := exactSum_ne_zero (f := f) (show B < A by have := ho.le; omega) (sA ^^ sB)
        have hRC := normalizeSum_RCZero (e := e) (f := f) o.aExp o.bExp hf
          (show 2 ≤ (routineSum o e f).1.toNat by
            rw [hsum]
            exact exactSum_div_two_le _ hcancel) hmax
        rw [hRC, Bool.not_false, Bool.true_or, Bool.and_true]

/-- `__float_addsub` rounds the sum, with the sign of the second operand flipped to
subtract. -/
theorem floatAddsub_rounded (h : FormatBounds e f) (hfit : ShiftFits e f) (a b : Tfloat)
    (sub : Bool) :
    SumRounded e f (signOf e f a) (magOf e f a) (signOf e f b ^^ sub) (magOf e f b)
      (floatAddsub a b sub e f .nevn .std true true (-1)) := by
  have he := h.exp_le
  have hf := h.frac_le
  rw [floatAddsub_eq]
  rcases addsubOperands_standFor (e := e) (f := f) (by omega) (by omega) (by omega) a b sub with
    ho | ho
  · exact addsubResult_rounded h hfit ho (magOf_lt e f a)
  · exact (addsubResult_rounded h hfit ho (magOf_lt e f b)).symm

end Routine

/-! ## Where the cut distance is wrong -/

/-- A normal number whose shift distance to `cutSubtrahend` is cut by one. -/
def cutMinuend (f : Nat) : Tfloat := BitVec.ofNat 64 ((2 ^ expShift f + 1) * 2 ^ f)

/-- The greatest number of the least normal exponent. -/
def cutSubtrahend (f : Nat) : Tfloat := BitVec.ofNat 64 (2 ^ (f + 1) - 1)

/-- `r` is below `A - B` by more than half of the step to the next magnitude. -/
def LowByHalf (f A B r : Nat) : Prop :=
  magValue f B ≤ magValue f A ∧
    magValue f r + magValue f (r + 1) + 2 * magValue f B < 2 * magValue f A

instance (f A B r : Nat) : Decidable (LowByHalf f A B r) := inferInstanceAs (Decidable (_ ∧ _))

theorem cutOperands_finite : ∀ e : Fin 12, ∀ f : Fin 53, 4 ≤ e.val → 4 ≤ f.val →
    ¬ ShiftFits e f →
    (IsEncoding e f (cutMinuend f) ∧ signOf e f (cutMinuend f) = false ∧
      IsFinite e f (cutMinuend f)) ∧
    IsEncoding e f (cutSubtrahend f) ∧ signOf e f (cutSubtrahend f) = false ∧
      IsFinite e f (cutSubtrahend f) := by
  decide +kernel

theorem cut_difference_low : ∀ e : Fin 12, ∀ f : Fin 53, 4 ≤ e.val → 4 ≤ f.val →
    ¬ ShiftFits e f →
    IsFinite e f (floatSub (cutMinuend f) (cutSubtrahend f) e f) ∧
      LowByHalf f (magOf e f (cutMinuend f)) (magOf e f (cutSubtrahend f))
        (magOf e f (floatSub (cutMinuend f) (cutSubtrahend f) e f)) := by
  decide +kernel

theorem cut_difference_not_rounded {e f : Nat} (h : FormatBounds e f) (hfit : ¬ ShiftFits e f) :
    IsEncoding e f (cutMinuend f) ∧ IsEncoding e f (cutSubtrahend f) ∧
      ¬ SumRounded e f (signOf e f (cutMinuend f)) (magOf e f (cutMinuend f))
        (!signOf e f (cutSubtrahend f)) (magOf e f (cutSubtrahend f))
        (floatSub (cutMinuend f) (cutSubtrahend f) e f) := by
  have he : e < 12 := Nat.lt_succ_of_le h.exp_le
  have hf : f < 53 := Nat.lt_succ_of_le h.frac_le
  obtain ⟨⟨hea, hsa, hA⟩, heb, hsb, hB⟩ :=
    cutOperands_finite ⟨e, he⟩ ⟨f, hf⟩ h.exp_ge h.frac_ge hfit
  have hlow := cut_difference_low ⟨e, he⟩ ⟨f, hf⟩ h.exp_ge h.frac_ge hfit
  dsimp only at hea heb hsa hsb hA hB hlow
  refine ⟨hea, heb, fun hsum => ?_⟩
  have hnear := hsum.nearest hA hB
  obtain ⟨hr, hBA, hmid⟩ := hlow
  unfold IsFinite at hr
  rw [hsa, hsb, ← Int.cast_add] at hnear
  generalize magOf e f (floatSub (cutMinuend f) (cutSubtrahend f) e f) = r at *
  generalize magOf e f (cutMinuend f) = A at *
  generalize magOf e f (cutSubtrahend f) = B at *
  have hv : signedMag f false A + signedMag f (!false) B =
      ((magValue f A - magValue f B : Nat) : Int) := by
    unfold signedMag
    rw [if_neg Bool.false_ne_true, Bool.not_false, if_pos rfl]
    omega
  rw [hv, Int.cast_natCast, abs_of_nonneg (by positivity)] at hnear
  refine not_isNearestEven_of_succ hr ?_ hnear
  exact_mod_cast (by omega : magValue f r + magValue f (r + 1) <
    2 * (magValue f A - magValue f B))

end Bambu.Libbambu.Softfloat
