/-
  Bambu.Algorithms.RangeAnalysis.Evaluate

  `range_analysis::evaluate`, and the operations that first bring an operand to another width:
  `widen_mul`, `shl`, `shr` and `eq`.

  What is lost by them is lost by the operation on the resized operands (`MulLosesAt`), by the
  shift of one constant by another, which cuts the amount as a signed number where it is
  narrower than the shifter, or by the truncation of a shifted negative interval; `LosesAt` says
  so for each pair of values.  The second factor of an unsigned `widen_mul` is sign-extended,
  so that a value in the upper half of its width is taken for a negative one (`Misread`).
-/

import Bambu.Utility.Range.AbsNegate
import Bambu.Utility.Range.Bitwise
import Bambu.Utility.Range.Mul
import Bambu.Utility.Range.Rem
import Bambu.Utility.Range.Saturate

namespace Bambu

open Bambu.Math APInt

namespace RangeAnalysis

open Range

/-! ## The transfer functions of binary operations -/

/-- The kinds of nodes that `evaluate` handles. -/
inductive Kind where
  | gep_node
  | add_node
  | sub_node
  | mul_node
  | widen_mul_node
  | idiv_node
  | irem_node
  | shl_node
  | shr_node
  | and_node
  | or_node
  | xor_node
  | eq_node
  | ne_node
  | gt_node
  | ge_node
  | lt_node
  | le_node
  | min_node
  | max_node
  | add_sat_node
  | sub_sat_node
  deriving DecidableEq, Repr

/-- The signed remainder has both signs where it can be zero. -/
def signedRemainder (op1 op2 : Range) : Except Error Range := do
  let res ← op1.srem op2
  if ¬ res.isUnknown ∧ ¬ res.isEmpty then
    if (← res.getSignedMin) = 0 then res.unionWith (← res.negate) else .ok res
  else .ok res

def evaluate (opcode : Kind) (bw : Nat) (op1 op2 : Range) (opSigned : Bool) :
    Except Error Range :=
  match opcode with
  | .gep_node | .add_node => op1.add op2
  | .sub_node => op1.sub op2
  | .mul_node => op1.mul op2
  | .widen_mul_node =>
    if opSigned then do (← op1.sextOrTrunc bw).mul (← op2.sextOrTrunc bw)
    else do (← op1.zextOrTrunc bw).mul (← op2.sextOrTrunc bw)
  | .idiv_node => if opSigned then op1.sdiv op2 else op1.udiv op2
  | .irem_node => if opSigned then signedRemainder op1 op2 else op1.urem op2
  | .shl_node =>
    if opSigned then do (← op1.sextOrTrunc bw).shl op2 else do (← op1.zextOrTrunc bw).shl op2
  | .shr_node =>
    if opSigned then do (← op1.shr op2 true).sextOrTrunc bw
    else do (← op1.shr op2 false).zextOrTrunc bw
  | .and_node => op1.And op2
  | .or_node => op1.Or op2
  | .xor_node => op1.Xor op2
  | .eq_node =>
    if op1.bw < op2.bw then
      if opSigned then do (← op1.sextOrTrunc op2.bw).Eq op2 bw
      else do (← op1.zextOrTrunc op2.bw).Eq op2 bw
    else if op2.bw < op1.bw then
      if opSigned then do (← op2.sextOrTrunc op1.bw).Eq op1 bw
      else do (← op2.zextOrTrunc op1.bw).Eq op1 bw
    else op1.Eq op2 bw
  | .ne_node => op1.Ne op2 bw
  | .gt_node => if opSigned then op1.Sgt op2 bw else op1.Ugt op2 bw
  | .ge_node => if opSigned then op1.Sge op2 bw else op1.Uge op2 bw
  | .lt_node => if opSigned then op1.Slt op2 bw else op1.Ult op2 bw
  | .le_node => if opSigned then op1.Sle op2 bw else op1.Ule op2 bw
  | .min_node => if opSigned then op1.SMin op2 else op1.UMin op2
  | .max_node => if opSigned then op1.SMax op2 else op1.UMax op2
  | .add_sat_node => if opSigned then op1.satAdd op2 else op1.usatAdd op2
  | .sub_sat_node => if opSigned then op1.satSub op2 else op1.usatSub op2

/-! ## What the operations compute -/

/-- A value of `w` bits, read as `opSigned` says. -/
def reading (opSigned : Bool) (w : Nat) (v : Int) : Int := if opSigned then v else v % 2 ^ w

section Reading

variable (opSigned : Bool) {w : Nat} {x y : Int}

theorem reading_modEq : reading opSigned w x ≡ x [ZMOD 2 ^ w] := by
  cases opSigned
  · exact Int.mod_modEq x _
  · exact Int.ModEq.refl x

/-- A reading that is not negative is the unsigned one. -/
theorem reading_of_nonneg (h0 : 0 < w) (hx : x ∈ signedRange w) (hnn : 0 ≤ reading opSigned w x) :
    reading opSigned w x = x % 2 ^ w := by
  cases opSigned
  · rfl
  · have hP := half_pos w
    exact (emod_of_nonneg h0 hnn (by have := hx.2; change x < 2 * half w; omega)).symm

theorem reading_bounds (h0 : 0 < w) (hx : x ∈ signedRange w) :
    -half w ≤ reading opSigned w x ∧ reading opSigned w x < 2 * half w := by
  have hP := half_pos w
  cases opSigned
  · have h := emod_two_pow_bounds h0 x
    exact ⟨by change -half w ≤ x % 2 ^ w; omega, h.2⟩
  · obtain ⟨h1, h2⟩ := hx
    exact ⟨h1, by change x < 2 * half w; omega⟩

theorem reading_inj (h0 : 0 < w) (hx : x ∈ signedRange w) (hy : y ∈ signedRange w) :
    reading opSigned w x = reading opSigned w y ↔ x = y := by
  refine ⟨fun h => ?_, fun h => h ▸ rfl⟩
  have hmod : x ≡ y [ZMOD 2 ^ w] := by
    have h1 : reading opSigned w x ≡ x [ZMOD 2 ^ w] := reading_modEq opSigned
    rw [h] at h1
    exact h1.symm.trans (reading_modEq opSigned)
  rw [← signedResidue_of_mem h0 hx.1 hx.2, ← signedResidue_of_mem h0 hy.1 hy.2]
  exact signedResidue_congr hmod

end Reading

/-! ## Extension -/

/-- `sextOrTrunc` or `zextOrTrunc`. -/
def extend (opSigned : Bool) (r : Range) (bw : Nat) : Except Error Range :=
  if opSigned then r.sextOrTrunc bw else r.zextOrTrunc bw

section Extend

variable {a : Range} (opSigned : Bool) {v : Nat} {x : Int}

theorem exists_extend (hp : a.Proper) (hwf : a.WellFormed) (hv : a.bw ≤ v) (hcap : v ≤ maxDigits)
    (hx : x ∈ a.gamma) :
    ∃ r, extend opSigned a v = .ok r ∧ r.bw = v ∧ r.Proper ∧ r.WellFormed ∧
      ∀ y ∈ a.gamma, signedResidue v (reading opSigned a.bw y) ∈ r.gamma := by
  unfold extend
  rcases Nat.lt_or_eq_of_le hv with hlt | rfl
  · cases opSigned
    · obtain ⟨r, hr, rfl, hrp, hrwf, hin⟩ := exists_zext hp hwf hlt hcap hx
      refine ⟨r, hr, rfl, hrp, hrwf, fun y hy => ?_⟩
      have hmem := hin y hy
      change signedResidue r.bw (y % 2 ^ a.bw) ∈ r.gamma
      rwa [signedResidue_of_mem r.bw_valid.1 hmem.1.1 hmem.1.2]
    · obtain ⟨r, hr, rfl, hrp, hrwf, hin⟩ := exists_sext hp hwf hlt hcap
      refine ⟨r, hr, rfl, hrp, hrwf, fun y hy => ?_⟩
      have hmem := hin y hy
      change signedResidue r.bw y ∈ r.gamma
      rwa [signedResidue_of_mem r.bw_valid.1 hmem.1.1 hmem.1.2]
  · -- An operand of the width is returned as it is.
    have hself : (if opSigned then a.sextOrTrunc a.bw else a.zextOrTrunc a.bw) = .ok a := by
      cases opSigned
      · exact (zextOrTrunc_of_le le_rfl).trans (truncate_self hp)
      · exact (if_pos le_rfl).trans (truncate_self hp)
    refine ⟨a, hself, rfl, hp, hwf, fun y hy => ?_⟩
    rw [signedResidue_congr (reading_modEq opSigned),
      signedResidue_of_mem a.bw_valid.1 hy.1.1 hy.1.2]
    exact hy

end Extend

/-! ## Equality -/

section Equality

variable {a b : Range} (opSigned : Bool) {bw : Nat} {x y : Int}

theorem truth_congr {P Q : Prop} [Decidable P] [Decidable Q] (h : P ↔ Q) :
    truth bw P = truth bw Q := by
  unfold truth
  simp only [h]

/-- An extended value is equal to a value of the wider range when their readings are equal. -/
theorem extended_eq_iff (ha : 0 < a.bw) (hlt : a.bw < b.bw) (hx : x ∈ signedRange a.bw)
    (hy : y ∈ signedRange b.bw) :
    signedResidue b.bw (reading opSigned a.bw x) = y ↔
      reading opSigned a.bw x = reading opSigned b.bw y := by
  have hb : 0 < b.bw := ha.trans hlt
  obtain ⟨h1, h2⟩ := reading_bounds opSigned ha hx
  have hdouble : 2 * half a.bw ≤ half b.bw := by
    unfold half
    rw [← pow_succ']
    exact pow_le_pow_right₀ (by decide) (by omega)
  have hmem : reading opSigned a.bw x ∈ signedRange b.bw := ⟨by omega, by omega⟩
  rw [signedResidue_of_mem hb hmem.1 hmem.2, ← reading_inj opSigned hb hmem hy]
  -- The reading of a reading that has room is itself.
  have hself : reading opSigned b.bw (reading opSigned a.bw x) = reading opSigned a.bw x := by
    cases opSigned
    · have hnn := emod_two_pow_bounds ha x
      exact Int.emod_eq_of_lt hnn.1 (by rw [← two_mul_half hb]; change x % 2 ^ a.bw < _; omega)
    · rfl
  rw [hself]

theorem extended_eq_sound (ha : a.Proper) (hwa : a.WellFormed) (hwb : b.WellFormed)
    (hlt : a.bw < b.bw) (hbw : 0 < bw ∧ bw ≤ maxDigits) (hx : x ∈ a.gamma) (hy : y ∈ b.gamma) :
    Holds (extend opSigned a b.bw >>= fun r => r.Eq b bw) bw
      (truth bw (reading opSigned a.bw x = reading opSigned b.bw y)) := by
  obtain ⟨r, hr, hrbw, hrp, hrwf, hin⟩ :=
    exists_extend opSigned ha hwa hlt.le b.bw_valid.2 hx
  have h := Eq_holds hrwf hwb hrbw.symm hbw (hin x hx) hy
  rw [hr, ok_bind]
  rwa [← truth_congr (extended_eq_iff opSigned a.bw_valid.1 hlt hx.1 hy.1)]

theorem eq_sound (ha : a.Proper) (hb : b.Proper) (hwa : a.WellFormed) (hwb : b.WellFormed)
    (hbw : 0 < bw ∧ bw ≤ maxDigits) (hx : x ∈ a.gamma) (hy : y ∈ b.gamma) :
    Holds (evaluate .eq_node bw a b opSigned) bw
      (truth bw (reading opSigned a.bw x = reading opSigned b.bw y)) := by
  unfold evaluate
  dsimp only
  rcases Nat.lt_trichotomy a.bw b.bw with hlt | heq | hgt
  · rw [if_pos hlt]
    have h := extended_eq_sound opSigned ha hwa hwb hlt hbw hx hy
    cases opSigned <;> exact h
  · rw [if_neg (by omega), if_neg (by omega)]
    have h := Eq_holds hwa hwb heq.symm hbw hx hy
    have hinj := reading_inj opSigned a.bw_valid.1 hx.1 (heq ▸ hy.1)
    rwa [← heq, truth_congr hinj]
  · rw [if_neg (by omega), if_pos hgt]
    have h := extended_eq_sound opSigned hb hwb hwa hgt hbw hy hx
    rw [truth_congr (Q := reading opSigned b.bw y = reading opSigned a.bw x) eq_comm]
    cases opSigned <;> exact h

end Equality

/-! ## Multiplication of extended factors -/

section WidenMul

variable {a b : Range} {opSigned : Bool} {bw : Nat} {x y : Int}

/-- A second factor that its sign extension changes, and that counts. -/
def Misread (opSigned : Bool) (bw w1 w2 : Nat) (x y : Int) : Prop :=
  opSigned = false ∧ w2 < bw ∧ y < 0 ∧ reading opSigned w1 x ≠ 0

/-- The product is lost by the multiplication of the extended factors. -/
def WidenMulLosesAt (opSigned : Bool) (bw : Nat) (op1 op2 : Range) (x y : Int) : Prop :=
  ∃ r1 r2, extend opSigned op1 bw = .ok r1 ∧ extend true op2 bw = .ok r2 ∧
    MulLosesAt r1 r2 (signedResidue bw (reading opSigned op1.bw x)) y

theorem widenMul_holds_iff (ha : a.Proper) (hb : b.Proper) (hwa : a.WellFormed)
    (hwb : b.WellFormed) (haw : a.bw ≤ bw) (hbw : b.bw ≤ bw) (hcap : bw * 2 < maxDigits)
    (hread : ¬ Misread opSigned bw a.bw b.bw x y) (hx : x ∈ a.gamma) (hy : y ∈ b.gamma) :
    Holds (evaluate .widen_mul_node bw a b opSigned) bw
        (signedResidue bw (reading opSigned a.bw x * reading opSigned b.bw y)) ↔
      ¬ WidenMulLosesAt opSigned bw a b x y := by
  have hb0 := b.bw_valid.1
  obtain ⟨r1, hr1, hrw1, -, hrwf1, hin1⟩ :=
    exists_extend opSigned ha hwa haw (by omega) hx
  obtain ⟨r2, hr2, hrw2, -, hrwf2, hin2⟩ :=
    exists_extend true hb hwb hbw (by omega) hy
  have heval : evaluate .widen_mul_node bw a b opSigned = r1.mul r2 := by
    have hsame : evaluate .widen_mul_node bw a b opSigned =
        extend opSigned a bw >>= fun r1 => extend true b bw >>= fun r2 => r1.mul r2 := by
      cases opSigned <;> rfl
    rw [hsame, hr1, ok_bind, hr2, ok_bind]
  have hy2 : y ∈ r2.gamma := by
    have hmem := hin2 y hy
    have hroom : half b.bw ≤ half bw := half_le_half hbw
    obtain ⟨h1, h2⟩ := hy.1
    change signedResidue bw y ∈ r2.gamma at hmem
    rwa [signedResidue_of_mem (hb0.trans_le hbw) (by omega) (by omega)] at hmem
  -- The product that is computed is the exact one, modulo the width.
  have hres : signedResidue bw (reading opSigned a.bw x * reading opSigned b.bw y) =
      signedResidue bw (signedResidue bw (reading opSigned a.bw x) * y) := by
    refine signedResidue_congr ?_
    by_cases hzero : reading opSigned a.bw x = 0
    · rw [hzero, zero_mul, signedResidue_of_mem (hb0.trans_le hbw) (by have := half_pos bw; omega)
        (half_pos bw), zero_mul]
    refine (signedResidue_modEq bw _).symm.mul ?_
    cases hs : opSigned
    · by_cases hneg : y < 0
      · have hwide : b.bw = bw := by
          by_contra hne
          exact hread ⟨hs, by omega, hneg, hzero⟩
        rw [← hwide]
        exact Int.mod_modEq y _
      · change y % 2 ^ b.bw ≡ y [ZMOD 2 ^ bw]
        have hP := half_pos b.bw
        rw [emod_of_nonneg hb0 (by omega) (by have := hy.1.2; omega)]
    · exact Int.ModEq.refl y
  have hiff := holds_mul_iff (a := r1) (b := r2) (by rw [hrw1]; exact hcap) (hrw2.trans hrw1.symm)
    hrwf1 hrwf2 (hin1 x hx) hy2
  rw [hrw1] at hiff
  rw [heval, hres, hiff]
  refine not_congr ⟨fun h => ⟨r1, r2, hr1, hr2, h⟩, ?_⟩
  rintro ⟨s1, s2, hs1, hs2, h⟩
  rw [hr1] at hs1
  rw [hr2] at hs2
  cases hs1
  cases hs2
  exact h

end WidenMul

/-! ## Left shift of an extended operand -/

section Shl

variable {a b : Range} {opSigned : Bool} {bw : Nat} {x y : Int}

/-- The shift by a constant is lost: a bit has no shifter, and a negative amount that is narrower
than the shifter is cut as a signed number. -/
def ShlLosesAt (opSigned : Bool) (bw : Nat) (op1 op2 : Range) (x y : Int) : Prop :=
  ∃ r1, extend opSigned op1 bw = .ok r1 ∧
    ¬ (r1.IsFull ∨ op2.IsFull ∨ r1.type = .anti ∨ op2.type = .anti) ∧
      (bw = 1 ∨ (opSigned = false ∧ r1.isConstant = true ∧ op2.isConstant = true ∧ y < 0 ∧
        op2.bw < ceilLog2 16 bw ∧
        ¬ (2 : Int) ^ bw ∣ reading opSigned op1.bw x * 2 ^ (reading opSigned op2.bw y).toNat))

/-- What is left of the values of one bit is a constant. -/
theorem isConstant_of_bit (ht : a.type = .regular) (hwf : a.WellFormed) (hf : ¬ a.IsFull)
    (h1 : a.bw = 1) : a.isConstant = true := by
  have hlim := hwf.inLimits_of_not_full (Or.inl ht) hf
  obtain ⟨hl, hle, hu⟩ := hlim
  have hhalf : half a.bw = 1 := by rw [h1]; rfl
  rw [hhalf] at hl hu
  have hne : ¬ (a.l.val ≤ -1 ∧ 0 ≤ a.u.val) := fun h =>
    hf ⟨ht, by rw [hhalf]; exact h.1, by rw [hhalf]; exact h.2⟩
  exact isConstant_iff.mpr ⟨ht, SignMag.ext (by omega)⟩

/-- `ceil_log2(1)` is zero, and no value has so few bits. -/
theorem not_holds_shl_bit (ha : a.type = .regular) (hb : b.type = .regular) (hwa : a.WellFormed)
    (hwb : b.WellFormed) (hf : ¬ (a.IsFull ∨ b.IsFull)) (ha1 : a.bw = 1) (hb1 : b.bw = 1)
    {v : Int} :
    ¬ Holds (a.shl b) bw v := by
  obtain ⟨hfa, hfb⟩ := not_or.mp hf
  have hna : a.type ≠ .anti := by rw [ha]; decide
  have hnb : b.type ≠ .anti := by rw [hb]; decide
  have hnone : (b.l.extOrTrunc (ceilLog2 16 1) false) =
      .error (.assertion "Minimum bitwidth of 1 is required") := rfl
  unfold shl
  rw [onProper_of (Or.inl ha) (Or.inl hb), isFullSet_eq (Or.inl ha), ok_bind,
    isFullSet_eq (Or.inl hb), ok_bind, if_neg (by simp [hfa, hfb, hna, hnb]), getLower_eq hna,
    ok_bind, getUpper_eq hna, ok_bind,
    if_pos ⟨isConstant_of_bit ha hwa hfa ha1, isConstant_of_bit hb hwb hfb hb1⟩, getLower_eq hnb,
    ok_bind, ha1, hnone]
  exact not_holds_error

/-- A factor `2 ^ d - 1` does not count. -/
theorem two_pow_dvd_mul_iff {n d : Nat} (hd : 0 < d) {z : Int} :
    (2 : Int) ^ n ∣ z * (2 ^ d - 1) ↔ (2 : Int) ^ n ∣ z := by
  have hcop : IsCoprime ((2 : Int) ^ n) (2 ^ d - 1) := by
    refine IsCoprime.pow_left ⟨2 ^ (d - 1), -1, ?_⟩
    rw [← pow_succ, Nat.sub_add_cancel hd]
    ring
  exact ⟨hcop.dvd_of_dvd_mul_right, fun h => h.mul_right _⟩

theorem shl_modEq_iff {n s d : Nat} (hd : 0 < d) {z : Int} :
    z * 2 ^ s ≡ z * 2 ^ (s + d) [ZMOD 2 ^ n] ↔ (2 : Int) ^ n ∣ z * 2 ^ s := by
  rw [Int.modEq_iff_dvd, ← two_pow_dvd_mul_iff (z := z * 2 ^ s) hd,
    show z * 2 ^ (s + d) - z * 2 ^ s = z * 2 ^ s * (2 ^ d - 1) by rw [pow_add]; ring]

/-- The amount that the shifter takes of a value with the reading `s`. -/
theorem shiftAmount_eq {w : Nat} (hw : 0 < w) {k : Nat} (hk : k = ceilLog2 16 bw)
    (hy : y ∈ signedRange w) {s : Nat} (hs : y % 2 ^ w = s) (hfit : (s : Int) < 2 ^ k) :
    shiftAmount bw y = if y < 0 ∧ w < k then s + (2 ^ k - 2 ^ w) else s := by
  have hcast := shiftAmount_cast bw y
  rw [← hk] at hcast
  obtain ⟨h1, h2⟩ := hy
  have hP := half_pos w
  have hw2 := two_mul_half hw
  split_ifs with h
  · have hpow : (2 : Int) ^ w ≤ 2 ^ k := pow_le_pow_right₀ (by decide) (by omega)
    have hnat : (2 : Nat) ^ w ≤ 2 ^ k := Nat.pow_le_pow_right (by decide) (by omega)
    rw [emod_of_neg hw h.1 (by omega), hw2] at hs
    have hval : y % 2 ^ k = y + 2 ^ k := by
      rw [← Int.add_emod_right, Int.emod_eq_of_lt (by omega) (by omega)]
    rw [hval] at hcast
    zify [hnat]
    omega
  · have hval : y % 2 ^ k = s := by
      rcases Nat.lt_or_ge w k with hlt | hge
      · rw [emod_of_nonneg hw (by omega) (by omega)] at hs
        rw [hs, Int.emod_eq_of_lt (by omega) hfit]
      · rw [← Int.emod_emod_of_dvd y (pow_dvd_pow 2 hge), hs, Int.emod_eq_of_lt (by omega) hfit]
    rw [hval] at hcast
    exact_mod_cast hcast

theorem shl_holds_iff (ha : a.Proper) (hb : b.Proper) (hwa : a.WellFormed) (hwb : b.WellFormed)
    (haw : a.bw ≤ bw) (hbw : b.bw ≤ bw) (hcap : bw + 1 < maxDigits) (hx : x ∈ a.gamma)
    (hy : y ∈ b.gamma) (hnn : 0 ≤ reading opSigned b.bw y) (hlt : reading opSigned b.bw y < bw) :
    Holds (evaluate .shl_node bw a b opSigned) bw (signedResidue bw
        (reading opSigned a.bw x * 2 ^ (reading opSigned b.bw y).toNat)) ↔
      ¬ ShlLosesAt opSigned bw a b x y := by
  have hb0 := b.bw_valid.1
  obtain ⟨r1, hr1, hrw1, hrp1, hrwf1, hin1⟩ :=
    exists_extend opSigned ha hwa haw (by omega) hx
  have heval : evaluate .shl_node bw a b opSigned = r1.shl b := by
    have hsame : evaluate .shl_node bw a b opSigned =
        extend opSigned a bw >>= fun r1 => r1.shl b := by
      cases opSigned <;> rfl
    rw [hsame, hr1, ok_bind]
  obtain ⟨s, hs⟩ : ∃ s : Nat, (reading opSigned b.bw y) = s := ⟨_, (Int.toNat_of_nonneg hnn).symm⟩
  have hmod : y % 2 ^ b.bw = s := (reading_of_nonneg opSigned hb0 hy.1 hnn).symm.trans hs
  have hx' := hin1 x hx
  have hres : signedResidue bw (reading opSigned a.bw x * 2 ^ s) =
      signedResidue bw (signedResidue bw (reading opSigned a.bw x) * 2 ^ s) :=
    signedResidue_congr ((signedResidue_modEq bw _).symm.mul_right _)
  have hloses : ShlLosesAt opSigned bw a b x y ↔
      ¬ (r1.IsFull ∨ b.IsFull ∨ r1.type = .anti ∨ b.type = .anti) ∧
      (bw = 1 ∨ (opSigned = false ∧ r1.isConstant = true ∧ b.isConstant = true ∧ y < 0 ∧
        b.bw < ceilLog2 16 bw ∧ ¬ (2 : Int) ^ bw ∣ reading opSigned a.bw x * 2 ^ s)) := by
    unfold ShlLosesAt
    rw [hs, Int.toNat_natCast]
    constructor
    · rintro ⟨r, hr, h⟩
      rw [hr1] at hr
      cases hr
      exact h
    · exact fun h => ⟨r1, hr1, h⟩
  rw [heval, hs, Int.toNat_natCast, hloses, hres]
  by_cases hfull : r1.IsFull ∨ b.IsFull ∨ r1.type = .anti ∨ b.type = .anti
  · rw [shl_of_full hrp1 hb hfull, hrw1]
    exact iff_of_true (holds_full_residue ⟨by omega, by omega⟩ _) (fun h => h.1 hfull)
  rw [iff_true_intro hfull, true_and]
  obtain ⟨hfa, hfb, hna, hnb⟩ := by simpa only [not_or] using hfull
  have hf : ¬ (r1.IsFull ∨ b.IsFull) := not_or.mpr ⟨hfa, hfb⟩
  have hta := hrp1.resolve_right hna
  have htb := hb.resolve_right hnb
  by_cases hbit : bw = 1
  · exact iff_of_false (not_holds_shl_bit hta htb hrwf1 hwb hf (by omega) (by omega))
      (not_not_intro (.inl hbit))
  have h2 : 2 ≤ bw := by omega
  obtain ⟨hk0, hkw, hk16, -, hkge⟩ := ceilLog2_bounds h2 (by omega)
  have hfit : (s : Int) < 2 ^ ceilLog2 16 bw := by
    have hge : (bw : Int) ≤ 2 ^ ceilLog2 16 bw := by exact_mod_cast hkge
    omega
  rw [or_iff_right hbit]
  by_cases hconst : r1.isConstant = true ∧ b.isConstant = true
  · have hxl := ((mem_gamma_of_regular hta).mp hx').2
    have hyl := ((mem_gamma_of_regular htb).mp hy).2
    rw [← (isConstant_iff.mp hconst.1).2] at hxl
    rw [← (isConstant_iff.mp hconst.2).2] at hyl
    have hiff := shl_constant_holds_iff (a := r1) (b := b) (by rw [hrw1]; omega)
      (by rw [hrw1]; exact h2) hconst.1 hconst.2 hf
      (v := signedResidue bw (signedResidue bw (reading opSigned a.bw x) * 2 ^ s))
    rw [hrw1, Int.le_antisymm hxl.1 hxl.2, Int.le_antisymm hyl.1 hyl.2,
      shiftAmount_eq hb0 rfl hy.1 hmod hfit] at hiff
    rw [hiff, iff_true_intro hconst.1, iff_true_intro hconst.2, true_and, true_and]
    by_cases hcut : y < 0 ∧ b.bw < ceilLog2 16 bw
    · have hu : opSigned = false := by
        by_contra hsg
        rw [Bool.not_eq_false] at hsg
        rw [hsg] at hnn
        exact absurd hcut.1 (not_lt.mpr hnn)
      have hpow : (2 : Nat) ^ b.bw < 2 ^ ceilLog2 16 bw := Nat.pow_lt_pow_right (by decide) hcut.2
      rw [if_pos hcut, signedResidue_eq_iff, shl_modEq_iff (by omega), iff_true_intro hu,
        iff_true_intro hcut.1, iff_true_intro hcut.2, true_and, true_and, true_and, not_not]
      exact ((signedResidue_modEq bw _).mul_right _).dvd_iff
    · rw [if_neg hcut]
      exact iff_of_true rfl (fun h => hcut ⟨h.2.1, h.2.2.1⟩)
  · -- The shifts by the extreme amounts enclose the others.
    refine iff_of_true ?_ (fun h => hconst ⟨h.2.1, h.2.2.1⟩)
    obtain ⟨c, d, hull, hin⟩ := exists_amountHull hk0 (by omega) hb hwb hy
    obtain ⟨h1, h3⟩ := hin y hy (by rw [hmod]; exact hfit)
    rw [hmod] at h1 h3
    rw [← hrw1] at hull hcap
    have h := shl_sound_of_hull hcap hta htb hrwf1 hf hconst hull h1 h3 hx'
    rwa [hrw1] at h

end Shl

/-! ## Right shift, resized afterwards -/

section Shr

variable {a b r : Range} {opSigned : Bool} {bw : Nat} {x y v : Int} {c d : APInt}

/-- The right shift is lost: a bit has no shifter, and a negative interval that is truncated
keeps only its ends. -/
def ShrLosesAt (opSigned : Bool) (bw : Nat) (op1 op2 : Range) (x y : Int) : Prop :=
  op1.type = .regular ∧ op2.type = .regular ∧
    (op1.bw = 1 ∨ (bw < op1.bw ∧ ∃ c d, ShiftHull op2 (ceilLog2 16 op1.bw) c d ∧
      (opSigned = false → d.val = 0) ∧
      TruncateLoss bw (op1.l.val / 2 ^ c.toBw) (op1.u.val / 2 ^ d.toBw) ∧
      op1.l.val / 2 ^ c.toBw < x / 2 ^ (reading opSigned op2.bw y).toNat ∧
      x / 2 ^ (reading opSigned op2.bw y).toNat < op1.u.val / 2 ^ d.toBw))

theorem isFull_of_ofType {w : Nat} (h : ofType .regular w = .ok r) : r.IsFull := by
  unfold ofType at h
  split_ifs at h with hw
  have hr : r = ⟨Min, Max, w, .regular, hw⟩ := (Except.ok.inj h).symm
  exact isFull_of_infinite (by rw [hr]) (by rw [hr]) (by rw [hr])

theorem ofBounds_bw {w : Nat} {t : RangeType} {lb ub : APInt} (h : ofBounds t w lb ub = .ok r) :
    r.bw = w := by
  unfold ofBounds at h
  split_ifs at h
  cases hx : normalizeRange w lb ub 4 t lb ub with
  | error e =>
    rw [hx] at h
    cases h
  | ok d =>
    rw [hx] at h
    cases h
    rfl

/-- There is no range without bits. -/
theorem truncate_zero (hp : b.Proper) (hwf : b.WellFormed) {t : Range} : b.truncate 0 ≠ .ok t := by
  obtain ⟨lo, hi, hlo, hhi, -⟩ := exists_signedHull hp hwf
  have hb0 := b.bw_valid.1
  have hnone : ∀ e : APInt, e.extOrTrunc 0 true =
      .error (.assertion "Minimum bitwidth of 1 is required") := fun _ => rfl
  unfold truncate
  rw [if_neg hp.not_empty, if_neg hp.not_unknown, if_neg (by omega), hlo, hhi, isFullSet_eq hp]
  simp only [ok_bind]
  split
  · rw [ofType, dif_neg (fun h => absurd h.1 (lt_irrefl 0))]
    exact fun h => by cases h
  · unfold truncateExtrema
    rw [hnone]
    exact fun h => by cases h

theorem not_holds_shr_bit (ha : a.type = .regular) (hb : b.type = .regular) (hwb : b.WellFormed)
    (h1 : a.bw = 1) : ∀ t, a.shr b opSigned ≠ .ok t := by
  intro t ht
  unfold shr at ht
  have hk : ceilLog2 16 a.bw = 0 := by rw [h1]; rfl
  rw [onProper_of (Or.inl ha) (Or.inl hb), if_neg (by simp [ha, hb]), hk,
    zextOrTrunc_of_le (Nat.zero_le _)] at ht
  cases hcut : b.truncate 0 with
  | error e =>
    rw [hcut] at ht
    cases ht
  | ok fix => exact truncate_zero (.inl hb) hwb hcut

theorem ShiftHull.unique {k : Nat} {c' d' : APInt} (h : ShiftHull b k c d)
    (h' : ShiftHull b k c' d') : c' = c ∧ d' = d := by
  obtain ⟨fix, hfix, hc, hd, -⟩ := h
  obtain ⟨fix', hfix', hc', hd', -⟩ := h'
  rw [hfix] at hfix'
  cases hfix'
  rw [hc] at hc'
  rw [hd] at hd'
  cases hc'
  cases hd'
  exact ⟨rfl, rfl⟩

/-- Resizing upwards keeps the value that the range holds in its own width. -/
theorem holds_extend (hp : r.Proper) (hwf : r.WellFormed) (hv : r.bw ≤ bw) (hcap : bw ≤ maxDigits)
    (hmem : signedResidue r.bw v ∈ r.gamma)
    (hread : reading opSigned r.bw (signedResidue r.bw v) = v) :
    Holds (extend opSigned r bw) bw (signedResidue bw v) := by
  obtain ⟨t, ht, htw, -, -, hin⟩ := exists_extend opSigned hp hwf hv hcap hmem
  have h := hin _ hmem
  rw [hread] at h
  exact ⟨t, ht, htw, h⟩

theorem extend_of_le (hv : bw ≤ r.bw) : extend opSigned r bw = r.truncate bw := by
  cases opSigned
  · exact zextOrTrunc_of_le hv
  · exact if_pos hv

/-- The value that is shifted is in the range of its reading, and so is the result. -/
theorem reading_shifted (opSigned : Bool) (h0 : 0 < a.bw) (hx : x ∈ signedRange a.bw) (s : Nat) :
    reading opSigned a.bw (signedResidue a.bw (reading opSigned a.bw x / 2 ^ s)) =
      reading opSigned a.bw x / 2 ^ s := by
  cases opSigned
  · change signedResidue a.bw (x % 2 ^ a.bw / 2 ^ s) % 2 ^ a.bw = x % 2 ^ a.bw / 2 ^ s
    have hnn := (emod_two_pow_bounds h0 x).1
    have hlt := Int.emod_lt_of_pos x (b := 2 ^ a.bw) (by positivity)
    have hshift := (ediv_two_pow_bounds (x % 2 ^ a.bw) s).1 hnn
    rw [(signedResidue_modEq a.bw _).eq, Int.emod_eq_of_lt hshift.1 (hshift.2.trans_lt hlt)]
  · change signedResidue a.bw (x / 2 ^ s) = x / 2 ^ s
    obtain ⟨h1, h2⟩ := ediv_two_pow_mem hx s
    exact signedResidue_of_mem h0 h1 h2

/-- A wider range whose result is negative: what the truncation leaves of the signed shifts. -/
theorem truncated_signed_iff {lo : Int} (hi : Int) (hr : r.type = .regular) (hl : r.l.val = lo)
    (hu : r.u.val = hi) (hlo : -half r.bw ≤ lo) (hle : lo ≤ hi) (hhi : hi < half r.bw)
    (h0 : 0 < bw) (hlt : bw < r.bw) (h1 : lo ≤ v) (h2 : v ≤ hi) :
    Holds (r.truncate bw) bw (signedResidue bw v) ↔
      ¬ (TruncateLoss bw lo hi ∧ lo < v ∧ v < hi) := by
  subst hl
  subst hu
  have hlim : r.InLimits := ⟨hlo, hle, hhi⟩
  by_cases hloss : TruncateLoss bw r.l.val r.u.val
  · obtain ⟨hneg, hlen, hturn, hgt⟩ := hloss
    have hP := half_pos r.bw
    have hf : ¬ r.IsFull := fun h => by
      have := h.2.2
      omega
    rw [(cut_swapped hr hlim hf h0 hlt hneg hturn hgt).2 v h1 h2]
    have hl : TruncateLoss bw r.l.val r.u.val := ⟨hneg, hlen, hturn, hgt⟩
    rw [iff_true_intro hl, true_and]
    omega
  · exact iff_of_true (holds_truncate hr hlim h0 hlt hloss h1 h2) (fun h => hloss h.1)

theorem shr_holds_iff (ha : a.Proper) (hb : b.Proper) (hwa : a.WellFormed) (hwb : b.WellFormed)
    (h0 : 0 < bw) (hcap : bw ≤ maxDigits) (hwide : opSigned = true ∨ a.bw + 1 < maxDigits)
    (hx : x ∈ a.gamma) (hy : y ∈ b.gamma) (hnn : 0 ≤ reading opSigned b.bw y)
    (hlt : reading opSigned b.bw y < a.bw) :
    Holds (evaluate .shr_node bw a b opSigned) bw (signedResidue bw
        (reading opSigned a.bw x / 2 ^ (reading opSigned b.bw y).toNat)) ↔
      ¬ ShrLosesAt opSigned bw a b x y := by
  have ha0 := a.bw_valid.1
  have hb0 := b.bw_valid.1
  have heval : evaluate .shr_node bw a b opSigned =
      a.shr b opSigned >>= fun r => extend opSigned r bw := by
    cases opSigned <;> rfl
  obtain ⟨s, hs⟩ : ∃ s : Nat, (reading opSigned b.bw y) = s := ⟨_, (Int.toNat_of_nonneg hnn).symm⟩
  have hmod : y % 2 ^ b.bw = s := (reading_of_nonneg opSigned hb0 hy.1 hnn).symm.trans hs
  have hread := reading_shifted opSigned ha0 hx.1 s
  unfold ShrLosesAt
  rw [heval, hs, Int.toNat_natCast]
  set v := reading opSigned a.bw x / 2 ^ s with hv
  -- A range of the width of the operand with the result in it, resized.
  have hresized : ∀ r : Range, a.shr b opSigned = .ok r → r.bw = a.bw → r.Proper → r.WellFormed →
      signedResidue a.bw v ∈ r.gamma →
      (bw < a.bw → Holds (r.truncate bw) bw (signedResidue bw v)) →
      Holds (a.shr b opSigned >>= fun r => extend opSigned r bw) bw (signedResidue bw v) := by
    intro r hr hrw hrp hrwf hmem hcut
    rw [hr, ok_bind]
    rw [← hrw] at hmem hread hcut
    rcases Nat.lt_or_ge bw r.bw with hn | hw
    · rw [extend_of_le hn.le]
      exact hcut hn
    · exact holds_extend hrp hrwf hw hcap hmem hread
  by_cases hanti : a.type = .anti ∨ b.type = .anti
  · obtain ⟨f, hf, hfw, hfp, hfwf⟩ := returnsProper_full a.bw_valid
    have hmem := holds_full_residue a.bw_valid v
    rw [hf, holds_ok] at hmem
    refine iff_of_true (hresized f ((shr_of_anti ha hb hanti opSigned).trans hf) hfw hfp hfwf hmem.2
      fun hn => ?_) ?_
    · rw [← hfw] at hn hmem
      have hkept := (truncate_sound_iff hfp hfwf h0 hn.le).mpr
        (not_resizeLoss_of_full (.inl (isFull_of_ofType hf))) _ hmem.2
      rwa [signedResidue_congr ((signedResidue_modEq f.bw v).of_dvd (pow_dvd_pow 2 hn.le))] at hkept
    · rintro ⟨hta, htb, -⟩
      rw [hta, htb] at hanti
      rcases hanti with h | h <;> cases h
  obtain ⟨hna, hnb⟩ := not_or.mp hanti
  have hta := ha.resolve_right hna
  have htb := hb.resolve_right hnb
  rw [iff_true_intro hta, iff_true_intro htb, true_and, true_and]
  by_cases hbit : a.bw = 1
  · refine iff_of_false ?_ (not_not_intro (.inl hbit))
    rintro ⟨t, ht, -⟩
    cases hr : a.shr b opSigned with
    | error e =>
      rw [hr] at ht
      cases ht
    | ok r => exact not_holds_shr_bit hta htb hwb hbit r hr
  rw [or_iff_right hbit]
  have h2 : 2 ≤ a.bw := by omega
  obtain ⟨hk0, hkw, hk16, -, hkge⟩ := ceilLog2_bounds h2 a.bw_valid.2
  have hfit : (s : Int) < 2 ^ ceilLog2 16 a.bw := by
    have hge : (a.bw : Int) ≤ 2 ^ ceilLog2 16 a.bw := by exact_mod_cast hkge
    omega
  obtain ⟨c, d, hull, hin⟩ := exists_amountHull hk0 (hkw.trans_le a.bw_valid.2) hb hwb hy
  obtain ⟨hcs, hsd⟩ := hin y hy (by rw [hmod]; exact hfit)
  rw [hmod] at hcs hsd
  have hloses : (∃ c d, ShiftHull b (ceilLog2 16 a.bw) c d ∧ (opSigned = false → d.val = 0) ∧
      TruncateLoss bw (a.l.val / 2 ^ c.toBw) (a.u.val / 2 ^ d.toBw) ∧
      a.l.val / 2 ^ c.toBw < x / 2 ^ s ∧ x / 2 ^ s < a.u.val / 2 ^ d.toBw) ↔
      (opSigned = false → d.val = 0) ∧
      TruncateLoss bw (a.l.val / 2 ^ c.toBw) (a.u.val / 2 ^ d.toBw) ∧
      a.l.val / 2 ^ c.toBw < x / 2 ^ s ∧ x / 2 ^ s < a.u.val / 2 ^ d.toBw := by
    constructor
    · rintro ⟨c', d', hull', h⟩
      obtain ⟨rfl, rfl⟩ := ShiftHull.unique hull hull'
      exact h
    · exact fun h => ⟨c, d, hull, h⟩
  rw [hloses]
  -- A loss needs a negative operand.
  have hnegative : TruncateLoss bw (a.l.val / 2 ^ c.toBw) (a.u.val / 2 ^ d.toBw) →
      a.InLimits ∧ a.u.val < 0 := by
    intro h
    have hu : a.u.val < 0 := by
      by_contra hu
      have hge := ((ediv_two_pow_bounds a.u.val d.toBw).1 (by omega)).1
      have hneg := h.1
      omega
    refine ⟨(hwa.1 hta).resolve_left fun h => ?_, hu⟩
    rw [h.2, max_val] at hu
    have := half_pos maxDigits
    omega
  cases hsg : opSigned with
  | true =>
    rw [hsg] at hv hresized
    obtain ⟨lo, hi, ⟨r, hr, hrw, hrt, hrl, hru⟩, hlo, hle, hhi, hbetween, hneg, hends⟩ :=
      shr_signed_yields hta htb hwa hull hk16 (hcs.trans hsd)
    obtain ⟨hlv, hvh⟩ := hbetween x hx s hcs hsd
    have hvx : v = x / 2 ^ s := hv
    rw [hvx] at hresized ⊢
    rcases Nat.lt_or_ge bw a.bw with hn | hw
    · rw [iff_true_intro hn, true_and, hr, ok_bind, extend_of_le (by omega)]
      rw [truncated_signed_iff hi hrt hrl hru (by rw [hrw]; exact hlo) hle
        (by rw [hrw]; exact hhi) h0 (by rw [hrw]; exact hn) hlv hvh]
      refine not_congr ⟨fun h => ?_, fun h => ?_⟩
      · obtain ⟨hlim, hu⟩ := hneg h.1.1
        obtain ⟨rfl, rfl⟩ := hends hlim hu
        exact ⟨Bool.noConfusion, h⟩
      · obtain ⟨hlim, hu⟩ := hnegative h.2.1
        obtain ⟨rfl, rfl⟩ := hends hlim hu
        exact h.2
    · refine iff_of_true (hresized r hr hrw (.inl hrt) ⟨fun _ => .inr ⟨?_, ?_, ?_⟩, fun h => ?_⟩ ?_
        fun h => absurd hw (by omega)) (fun h => absurd hw (by omega))
      · rw [hrw]
        omega
      · omega
      · rw [hrw]
        omega
      · rw [hrt] at h
        cases h
      · rw [mem_gamma_of_regular hrt, hrw, signedResidue_of_mem ha0 (by omega) (by omega)]
        exact ⟨⟨by omega, by omega⟩, by omega, by omega⟩
  | false =>
    rw [hsg] at hv hresized hwide
    have hwd := hwide.resolve_left Bool.noConfusion
    obtain ⟨p, q, heq, hp0, hpq, hq, hbetween, hup, hends⟩ :=
      shr_unsigned_bounds hwd hta htb hwa hull hk16 (hcs.trans hsd)
    obtain ⟨hpv, hvq⟩ := hbetween x hx s hcs hsd
    have hvx : v = x % 2 ^ a.bw / 2 ^ s := hv
    rw [← hvx] at hpv hvq
    rcases Nat.lt_or_ge bw a.bw with hn | hw
    · have hcut : (ofBounds .regular a.bw p q >>= fun r => extend false r bw) =
          cutBounds a.bw bw p q := by
        unfold cutBounds
        cases hr : ofBounds .regular a.bw p q with
        | error e => rfl
        | ok r =>
          rw [ok_bind, ok_bind, extend_of_le (by rw [ofBounds_bw hr]; omega)]
      obtain ⟨hkeeps, hswaps⟩ := cutBounds_unsigned h0 hn hwd hp0 hpq hq
      rw [iff_true_intro hn, true_and, heq, hcut]
      by_cases hloss : half a.bw ≤ p.val ∧ TruncateLoss bw (p.val - 2 * half a.bw)
          (q.val - 2 * half a.bw)
      · -- Negative values that are not shifted.
        obtain ⟨hhalf, hneg, hlen, hturn, hgt⟩ := hloss
        obtain ⟨hd0, hlim, hu⟩ := hup hhalf
        obtain ⟨hpl, hqu⟩ := hends hd0 hlim hu
        have hs0 : s = 0 := by omega
        obtain ⟨hcv, hdv⟩ := hull.toBw_val hk16 (hcs.trans hsd)
        have hxm := (mem_gamma_of_regular hta).mp hx
        rw [signedResidue_sub_turn h0 hn, signedResidue_sub_turn h0 hn] at hgt
        rw [(hswaps hhalf (by omega) hgt).2 v hpv hvq, hs0, show c.toBw = 0 by omega,
          show d.toBw = 0 by omega, pow_zero, Int.ediv_one, Int.ediv_one, Int.ediv_one]
        have hvx' : v = x + 2 * half a.bw := by
          obtain ⟨hl1, -⟩ := hlim
          rw [hvx, hs0, pow_zero, Int.ediv_one, emod_of_neg ha0 (by omega) (by omega)]
        have hl : TruncateLoss bw a.l.val a.u.val := by
          rw [show a.l.val = p.val - 2 * half a.bw by omega,
            show a.u.val = q.val - 2 * half a.bw by omega]
          refine ⟨hneg, hlen, hturn, ?_⟩
          rwa [signedResidue_sub_turn h0 hn, signedResidue_sub_turn h0 hn]
        rw [iff_true_intro hl, true_and]
        constructor
        · rintro h ⟨-, h3, h4⟩
          omega
        · intro h
          have hd : false = false → d.val = 0 := fun _ => hd0
          by_contra hin
          exact h ⟨hd, by omega, by omega⟩
      · refine iff_of_true (hkeeps hloss v hpv hvq) ?_
        rintro ⟨hd0, hl, -⟩
        have hd0 := hd0 rfl
        obtain ⟨hlim, hu⟩ := hnegative hl
        obtain ⟨hpl, hqu⟩ := hends hd0 hlim hu
        obtain ⟨hcv, hdv⟩ := hull.toBw_val hk16 (hcs.trans hsd)
        rw [show c.toBw = 0 by omega, show d.toBw = 0 by omega, pow_zero, Int.ediv_one,
          Int.ediv_one] at hl
        refine hloss ⟨?_, ?_⟩
        · have h1 := hlim.1
          omega
        · rwa [hpl, hqu, add_sub_cancel_right, add_sub_cancel_right]
    · obtain ⟨r, hr, hrw, hmem⟩ := shr_unsigned_of_hull hwd hta htb hwa hull hk16 hcs hsd hx
      rw [← hvx] at hmem
      have hunk : r.type ≠ .unknown := ofBounds_type_ne_unknown (by decide) (heq.symm.trans hr)
      have hbuilt : Built r := builds_shr r hr
      exact iff_of_true (hresized r hr hrw (proper_of_mem hunk hmem) (hbuilt.wellFormed hmem) hmem
        fun h => absurd hw (by omega)) (fun h => absurd hw (by omega))

end Shr

/-! ## The operations together -/

/-- The operations that resize an operand. -/
inductive Resizing where
  | widen_mul
  | shl
  | shr
  | eq
  deriving DecidableEq, Repr

namespace Resizing

def node : Resizing → Kind
  | .widen_mul => .widen_mul_node
  | .shl => .shl_node
  | .shr => .shr_node
  | .eq => .eq_node

/-- The exact result on values `x` and `y` of `w1` and `w2` bits, where there is one: an amount
shifts within the width of what is shifted. -/
def exact (op : Resizing) (opSigned : Bool) (bw w1 w2 : Nat) (x y : Int) : Option Int :=
  let x := reading opSigned w1 x
  let y := reading opSigned w2 y
  match op with
  | .widen_mul => some (x * y)
  | .shl => if 0 ≤ y ∧ y < bw then some (x * 2 ^ y.toNat) else none
  | .shr => if 0 ≤ y ∧ y < w1 then some (x / 2 ^ y.toNat) else none
  | .eq => some (if x = y then 1 else 0)

/-- The operands that the code reads in another way: a factor in the upper half of its unsigned
width, and the unsigned values of a width whose greatest one is `Max` or more. -/
def Misreads (op : Resizing) (opSigned : Bool) (bw : Nat) (op1 op2 : Range) : Prop :=
  match op with
  | .widen_mul => ∃ x ∈ op1.gamma, ∃ y ∈ op2.gamma, Misread opSigned bw op1.bw op2.bw x y
  | .shr => opSigned = false ∧ maxDigits ≤ op1.bw + 1
  | .shl | .eq => False

/-- The result on `x` and `y` is lost. -/
def LosesAt (op : Resizing) (opSigned : Bool) (bw : Nat) (op1 op2 : Range) (x y : Int) : Prop :=
  match op with
  | .widen_mul => WidenMulLosesAt opSigned bw op1 op2 x y
  | .shl => (0 ≤ reading opSigned op2.bw y ∧ reading opSigned op2.bw y < bw) ∧
      ShlLosesAt opSigned bw op1 op2 x y
  | .shr => (0 ≤ reading opSigned op2.bw y ∧ reading opSigned op2.bw y < op1.bw) ∧
      ShrLosesAt opSigned bw op1 op2 x y
  | .eq => False

section Sound

variable {a b : Range} {opSigned : Bool} {bw : Nat} {x y v : Int}

theorem holds_iff (op : Resizing) (h0 : 0 < bw) (hbw : bw ≤ 64) (ha : a.Proper) (hb : b.Proper)
    (hwa : a.WellFormed) (hwb : b.WellFormed)
    (hwidths : op = .widen_mul ∨ op = .shl → a.bw ≤ bw ∧ b.bw ≤ bw)
    (hread : ¬ op.Misreads opSigned bw a b) (hx : x ∈ a.gamma) (hy : y ∈ b.gamma)
    (hv : op.exact opSigned bw a.bw b.bw x y = some v) :
    Holds (evaluate op.node bw a b opSigned) bw (signedResidue bw v) ↔
      ¬ op.LosesAt opSigned bw a b x y := by
  have hmax : maxDigits = 4096 := rfl
  unfold exact at hv
  cases op with
  | widen_mul =>
    obtain ⟨haw, hbw'⟩ := hwidths (.inl rfl)
    injection hv with hv
    rw [← hv]
    exact widenMul_holds_iff ha hb hwa hwb haw hbw' (by omega)
      (fun h => hread ⟨x, hx, y, hy, h⟩) hx hy
  | shl =>
    obtain ⟨haw, hbw'⟩ := hwidths (.inr rfl)
    dsimp only at hv
    split_ifs at hv with hdef
    injection hv with hv
    unfold LosesAt
    dsimp only
    rw [iff_true_intro hdef, true_and, ← hv]
    exact shl_holds_iff ha hb hwa hwb haw hbw' (by omega) hx hy hdef.1 hdef.2
  | shr =>
    dsimp only at hv
    split_ifs at hv with hdef
    injection hv with hv
    unfold LosesAt
    dsimp only
    rw [iff_true_intro hdef, true_and, ← hv]
    refine shr_holds_iff ha hb hwa hwb h0 (by omega) ?_ hx hy hdef.1 hdef.2
    by_contra hwide
    obtain ⟨hs, hw⟩ := not_or.mp hwide
    exact hread ⟨Bool.eq_false_of_not_eq_true hs, by omega⟩
  | eq =>
    injection hv with hv
    rw [← hv]
    exact iff_of_true (eq_sound opSigned ha hb hwa hwb ⟨h0, by omega⟩ hx hy) (fun h => h)

end Sound

/-- A losing pair of values has a result. -/
theorem LosesAt.exists_exact {op : Resizing} {opSigned : Bool} {bw : Nat} {a b : Range} {x y : Int}
    (h : op.LosesAt opSigned bw a b x y) : ∃ v, op.exact opSigned bw a.bw b.bw x y = some v := by
  cases op with
  | widen_mul => exact ⟨_, rfl⟩
  | shl => exact ⟨_, if_pos h.1⟩
  | shr => exact ⟨_, if_pos h.1⟩
  | eq => exact h.elim

/-- A factor of one and an unsigned factor of 200, which is taken for -56. -/
def misreadFactors : Range × Range :=
  (⟨1, 1, 8, .regular, bwValid_eight⟩, ⟨-56, -56, 8, .regular, bwValid_eight⟩)

end Resizing

end RangeAnalysis
end Bambu
