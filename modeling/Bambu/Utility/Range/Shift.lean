/-
  Bambu.Utility.Range.Shift

  `Range::shl` and `Range::shr` with the shift amount of the hardware: the low
  `ceil_log2(bw)` bits of the second operand.

  The amount's range is truncated to that many bits, and the unsigned extrema of
  the truncation bound the shifts.  Leading zeros and ones keep the bounds of a
  left shift less than a turn away from the limits, so below 4095 bits the only
  values lost are those the truncation loses; `AmountLoss` says when that hides a shift.
-/

import Bambu.Utility.Range.Div

namespace Bambu

open Bambu.Math

namespace APInt

/-- The conversion of a width. -/
def ofBw (k : Nat) : APInt := SignMag.ofInt k

/-- `static_cast<bw_t>`. -/
def toBw (v : APInt) : Nat := (v.val % 2 ^ 16).toNat

theorem ofBw_val {k : Nat} (hk : k ≤ maxDigits) : (ofBw k).val = k := by
  have h1 : (k : Int) < 2 ^ maxDigits := by exact_mod_cast hk.trans_lt Nat.lt_two_pow_self
  have h2 := two_mul_half_maxDigits
  exact val_of_fits (by omega) (by omega)

theorem toBw_eq {v : APInt} {k : Nat} (hv : v.val = k) (hk : k < 2 ^ 16) : v.toBw = k := by
  unfold toBw
  rw [hv]
  omega

end APInt

namespace Range

open APInt

/-! ## The operations -/

def shl (this other : Range) : Except Error Range :=
  onProper this other this.bw do
    let full ← this.isFullSet
    let ofull ← other.isFullSet
    if full ∨ ofull ∨ this.isAnti ∨ other.isAnti then ofType .regular this.bw
    else do
      let a ← this.getLower
      let b ← this.getUpper
      if this.isConstant ∧ other.isConstant then do
        let s ← (← other.getLower).extOrTrunc (ceilLog2 16 this.bw) false
        let c ← APInt.extOrTrunc (a <<< s.toBw) this.bw true
        ofBounds .regular this.bw c c
      else do
        let fix ← other.zextOrTrunc (ceilLog2 16 this.bw)
        let c ← fix.getUnsignedMin
        let d ← fix.getUnsignedMax
        if c ≥ ofBw this.bw then ofBounds .regular this.bw 0 0
        else if d ≥ ofBw this.bw then ofType .regular this.bw
        else if a < 0 ∧ b < 0 then
          if d > ofBw (a.leadingOnes this.bw) then ofType .regular this.bw
          else ofBounds .regular this.bw (a <<< d.toBw) (b <<< c.toBw)
        else do
          let zeros ← b.leadingZeros this.bw
          if a < 0 ∧ b ≥ 0 then
            if d > ofBw (min (a.leadingOnes this.bw) zeros) then ofType .regular this.bw
            else ofBounds .regular this.bw (a <<< d.toBw) (b <<< d.toBw)
          else if d > ofBw zeros then ofType .regular this.bw
          else ofBounds .regular this.bw (a <<< c.toBw) (b <<< d.toBw)

def shr (this other : Range) (sign : Bool) : Except Error Range :=
  onProper this other this.bw do
    if this.isAnti || other.isAnti then ofType .regular this.bw
    else do
      let fix ← other.zextOrTrunc (ceilLog2 16 this.bw)
      let c ← fix.getUnsignedMin
      let d ← fix.getUnsignedMax
      if sign then do
        let a ← this.getSignedMin
        let b ← this.getSignedMax
        ofBounds .regular this.bw (if a ≥ 0 then a >>> d.toBw else a >>> c.toBw)
          (if b ≥ 0 then b >>> c.toBw else b >>> d.toBw)
      else do
        let a ← this.getUnsignedMin
        let b ← this.getUnsignedMax
        ofBounds .regular this.bw (a >>> d.toBw) (b >>> c.toBw)

section Builds

variable {a b : Range}

theorem builds_shl : Builds (a.shl b) := by
  unfold shl
  refine builds_onProper (builds_bind fun _ _ => builds_bind fun _ _ => builds_ite builds_ofType
    (builds_bind fun _ _ => builds_bind fun _ _ => builds_ite ?_ ?_))
  · exact builds_bind fun _ _ => builds_bind fun _ _ => builds_bind fun _ _ => builds_ofBounds
  · refine builds_bind fun _ _ => builds_bind fun _ _ => builds_bind fun _ _ =>
      builds_ite builds_ofBounds (builds_ite builds_ofType
        (builds_ite (builds_ite builds_ofType builds_ofBounds) ?_))
    exact builds_bind fun _ _ => builds_ite (builds_ite builds_ofType builds_ofBounds)
      (builds_ite builds_ofType builds_ofBounds)

theorem builds_shr {sign : Bool} : Builds (a.shr b sign) := by
  unfold shr
  refine builds_onProper (builds_ite builds_ofType (builds_bind fun _ _ => builds_bind fun _ _ =>
    builds_bind fun _ _ => builds_ite ?_ ?_))
  · exact builds_bind fun _ _ => builds_bind fun _ _ => builds_ofBounds
  · exact builds_bind fun _ _ => builds_bind fun _ _ => builds_ofBounds

end Builds

/-! ## Shifted integers -/

section Monotone

variable {x y : Int} {s t : Nat}

theorem mul_two_pow_le (h : x ≤ y) : x * 2 ^ s ≤ y * 2 ^ s :=
  mul_le_mul_of_nonneg_right h (by positivity)

theorem mul_two_pow_le_of_nonneg (hx : 0 ≤ x) (h : s ≤ t) : x * 2 ^ s ≤ x * 2 ^ t :=
  mul_le_mul_of_nonneg_left (pow_le_pow_right₀ (by decide) h) hx

theorem mul_two_pow_le_of_nonpos (hx : x ≤ 0) (h : s ≤ t) : x * 2 ^ t ≤ x * 2 ^ s :=
  mul_le_mul_of_nonpos_left (pow_le_pow_right₀ (by decide) h) hx

theorem ediv_two_pow_le (h : x ≤ y) : x / 2 ^ s ≤ y / 2 ^ s :=
  Int.ediv_le_ediv (by positivity) h

theorem ediv_two_pow_le_of_nonneg (hx : 0 ≤ x) (h : s ≤ t) : x / 2 ^ t ≤ x / 2 ^ s := by
  have hnn : 0 ≤ x / 2 ^ t := Int.ediv_nonneg hx (by positivity)
  have hle : x / 2 ^ t * 2 ^ t ≤ x := Int.ediv_mul_le x (by positivity)
  exact (Int.le_ediv_iff_mul_le (by positivity)).mpr ((mul_two_pow_le_of_nonneg hnn h).trans hle)

theorem ediv_two_pow_le_of_neg (hx : x < 0) (h : s ≤ t) : x / 2 ^ s ≤ x / 2 ^ t := by
  have hneg : x / 2 ^ s < 0 := Int.ediv_neg_of_neg_of_pos hx (by positivity)
  have hle : x / 2 ^ s * 2 ^ s ≤ x := Int.ediv_mul_le x (by positivity)
  exact (Int.le_ediv_iff_mul_le (by positivity)).mpr
    ((mul_two_pow_le_of_nonpos hneg.le h).trans hle)

/-- Shifting right leaves a value between itself and zero. -/
theorem ediv_two_pow_bounds (x : Int) (s : Nat) :
    (0 ≤ x → 0 ≤ x / 2 ^ s ∧ x / 2 ^ s ≤ x) ∧ (x < 0 → x ≤ x / 2 ^ s ∧ x / 2 ^ s < 0) := by
  constructor
  · intro h
    have := ediv_two_pow_le_of_nonneg h (Nat.zero_le s)
    rw [pow_zero, Int.ediv_one] at this
    exact ⟨Int.ediv_nonneg h (by positivity), this⟩
  · intro h
    have := ediv_two_pow_le_of_neg h (Nat.zero_le s)
    rw [pow_zero, Int.ediv_one] at this
    exact ⟨this, Int.ediv_neg_of_neg_of_pos h (by positivity)⟩

end Monotone

/-! ## The shift amount -/

/-- The hardware's shift amount for the operand `y`. -/
def shiftAmount (w : Nat) (y : Int) : Nat := (y % 2 ^ ceilLog2 16 w).toNat

/-- The amounts whose truncation hides some of the shifts: the residues turn at
    a limit of the narrower width and both ends keep one sign. -/
def AmountLoss (b : Range) : Prop :=
  b.type = .regular ∧ TruncateLoss (ceilLog2 16 b.bw) b.l.val b.u.val ∧
    (signedResidue (ceilLog2 16 b.bw) b.u.val < 0 ↔ signedResidue (ceilLog2 16 b.bw) b.l.val < 0)

section Amount

variable {w k : Nat} {b fix c d : Range} {y : Int}

theorem lt_two_pow_sixteen (hw : w ≤ maxDigits) : w < 2 ^ 16 :=
  lt_of_le_of_lt hw (by decide)

/-- The width of a shift amount is smaller than the operand's. -/
theorem ceilLog2_bounds (h2 : 2 ≤ w) (hw : w ≤ maxDigits) :
    0 < ceilLog2 16 w ∧ ceilLog2 16 w < w ∧ ceilLog2 16 w < 16 ∧
      2 ^ (ceilLog2 16 w - 1) < w ∧ w ≤ 2 ^ ceilLog2 16 w := by
  have hlt := lt_two_pow_sixteen hw
  have hlow := two_pow_ceilLog2_lt h2 hlt (by decide)
  refine ⟨ceilLog2_pos h2 hlt (by decide), ceilLog2_lt h2 hlt (by decide), ?_, hlow,
    le_two_pow_ceilLog2 h2 hlt (by decide)⟩
  by_contra h
  have hpow : 2 ^ (16 - 1) ≤ 2 ^ (ceilLog2 16 w - 1) := Nat.pow_le_pow_right (by decide) (by omega)
  have hmax : w ≤ 2 ^ 12 := hw
  omega

theorem shiftAmount_cast (w : Nat) (y : Int) :
    (shiftAmount w y : Int) = y % 2 ^ ceilLog2 16 w :=
  Int.toNat_of_nonneg (Int.emod_nonneg _ (by positivity))

theorem zextOrTrunc_of_le (hk : k ≤ b.bw) : b.zextOrTrunc k = b.truncate k := if_pos hk

/-- `c` and `d` are the unsigned extrema of `b` cut to `k` bits. -/
def ShiftHull (b : Range) (k : Nat) (c d : APInt) : Prop :=
  ∃ fix, b.zextOrTrunc k = .ok fix ∧ fix.getUnsignedMin = .ok c ∧ fix.getUnsignedMax = .ok d ∧
    0 ≤ c.val ∧ d.val < 2 ^ k

/-- The extrema of the truncation enclose the amounts of the values it keeps. -/
theorem shiftHull_of_truncate (h0 : 0 < k) (hk : k ≤ b.bw) (hkd : k < maxDigits) (hp : b.Proper)
    (hwf : b.WellFormed) : ∃ c d, ShiftHull b k c d ∧
      ∀ y, Holds (b.truncate k) k (signedResidue k y) → c.val ≤ y % 2 ^ k ∧ y % 2 ^ k ≤ d.val := by
  obtain ⟨fix, hfix, rfl, hfp, hfwf⟩ := truncate_returnsProper hp hwf h0 hk
  obtain ⟨c, d, hmin, hmax, hc, hd, hull⟩ := exists_unsignedHull hkd hfp hfwf
  have h2 := two_mul_half h0
  refine ⟨c, d, ⟨fix, (zextOrTrunc_of_le hk).trans hfix, hmin, hmax, hc, by omega⟩, fun y hy => ?_⟩
  rw [hfix, holds_ok] at hy
  have hmod := hull _ hy.2
  rwa [(signedResidue_modEq fix.bw y).eq] at hmod

/-- A truncation that loses values returns what lies between the crossed ends. -/
theorem yields_truncate_of_loss (ht : b.type = .regular) (hwf : b.WellFormed) (h0 : 0 < k)
    (hk : k < b.bw) (hloss : TruncateLoss k b.l.val b.u.val) :
    Yields (b.truncate k) k .regular (signedResidue k b.u.val) (signedResidue k b.l.val) := by
  obtain ⟨hneg, hlen, hturn, hgt⟩ := hloss
  have h2 := two_le_half_maxDigits
  have hP := half_pos b.bw
  have hlim : b.InLimits := (hwf.1 ht).resolve_left fun h => by
    have hu : b.u.val = half maxDigits - 1 := by rw [h.2, max_val]
    omega
  have hnf : ¬ b.IsFull := fun h => by
    have := h.2.2
    omega
  rw [truncate_of_limits ht hlim hnf h0 hk, if_neg (by omega)]
  exact yields_truncateExtrema_of_neg h0 (hk.trans_le b.bw_valid.2) (by omega) hneg hgt

/-- Every amount lies between the extrema unless the truncation hides it. -/
theorem exists_shiftHull (h2 : 2 ≤ b.bw) (hp : b.Proper) (hwf : b.WellFormed)
    (hloss : ¬ AmountLoss b) : ∃ c d, ShiftHull b (ceilLog2 16 b.bw) c d ∧
      ∀ y ∈ b.gamma, c.val ≤ shiftAmount b.bw y ∧ (shiftAmount b.bw y : Int) ≤ d.val := by
  obtain ⟨h0, hlt, h16, -, -⟩ := ceilLog2_bounds h2 b.bw_valid.2
  have hkd : ceilLog2 16 b.bw < maxDigits := hlt.trans_le b.bw_valid.2
  obtain ⟨c, d, hull, hin⟩ := shiftHull_of_truncate h0 hlt.le hkd hp hwf
  refine ⟨c, d, hull, fun y hy => ?_⟩
  rw [shiftAmount_cast]
  by_cases hres : ResizeLoss b (ceilLog2 16 b.bw)
  · -- the ends lie on both sides of zero, so the extrema are those of the width
    obtain ⟨-, ht, htl⟩ := hres
    obtain ⟨hneg, hlen, hturn, hgt⟩ := htl
    have hsign : signedResidue (ceilLog2 16 b.bw) b.u.val < 0 ∧
        0 ≤ signedResidue (ceilLog2 16 b.bw) b.l.val := by
      have hne : ¬ (_ ↔ _) := fun h => hloss ⟨ht, ⟨hneg, hlen, hturn, hgt⟩, h⟩
      omega
    have hyields := yields_truncate_of_loss ht hwf h0 hlt ⟨hneg, hlen, hturn, hgt⟩
    have hP := half_pos (ceilLog2 16 b.bw)
    have hzero := hin 0 (by
      rw [hyields.holds_iff, signedResidue_of_mem h0 (by omega) (by omega)]
      exact ⟨⟨by omega, by omega⟩, by omega, by omega⟩)
    have hones := hin (-1) (by
      rw [hyields.holds_iff, signedResidue_of_mem h0 (by omega) (by omega)]
      exact ⟨⟨by omega, by omega⟩, by omega, by omega⟩)
    rw [emod_of_nonneg h0 (le_refl _) (by omega)] at hzero
    rw [emod_of_neg h0 (by omega) (by omega), two_mul_half h0] at hones
    have hlt' := Int.emod_lt_of_pos y (b := 2 ^ ceilLog2 16 b.bw) (by positivity)
    have hnn := Int.emod_nonneg y (b := 2 ^ ceilLog2 16 b.bw) (by positivity)
    omega
  · exact hin y ((truncate_sound_iff hp hwf h0 hlt.le).mpr hres y hy)

/-- The extrema of an operand of any width enclose the amounts that fit the shifter. -/
theorem exists_amountHull (h0 : 0 < k) (hkd : k < maxDigits) (hp : b.Proper) (hwf : b.WellFormed)
    (hy : y ∈ b.gamma) : ∃ c d, ShiftHull b k c d ∧ ∀ z ∈ b.gamma, z % 2 ^ b.bw < 2 ^ k →
      c.val ≤ z % 2 ^ b.bw ∧ z % 2 ^ b.bw ≤ d.val := by
  have hw0 := b.bw_valid.1
  have h2 := two_mul_half h0
  have hnn : ∀ z : Int, 0 ≤ z % 2 ^ b.bw := fun z => Int.emod_nonneg _ (by positivity)
  rcases Nat.lt_or_ge b.bw k with hlt | hge
  · obtain ⟨fix, hfix, rfl, hfp, hfwf, hin⟩ := exists_zext hp hwf hlt hkd.le hy
    obtain ⟨c, d, hmin, hmax, hc, hd, hull⟩ := exists_unsignedHull hkd hfp hfwf
    refine ⟨c, d, ⟨fix, hfix, hmin, hmax, hc, by omega⟩, fun z hz hzk => ?_⟩
    have hmem := hull _ (hin z hz)
    rwa [Int.emod_eq_of_lt (hnn z) hzk] at hmem
  · obtain ⟨c, d, hull, hin⟩ := shiftHull_of_truncate h0 hge hkd hp hwf
    refine ⟨c, d, hull, fun z hz hzk => ?_⟩
    have hmod : z % 2 ^ k = z % 2 ^ b.bw := by
      rw [← Int.emod_emod_of_dvd z (pow_dvd_pow 2 hge), Int.emod_eq_of_lt (hnn z) hzk]
    -- Where the truncation loses values all operands are negative, and fit no shifter.
    have hloss : ¬ ResizeLoss b k := by
      rintro ⟨hlt, ht, hneg, -⟩
      have hzu := ((mem_gamma_of_regular ht).mp hz)
      have hpow : (2 : Int) ^ k ≤ half b.bw := pow_le_pow_right₀ (by decide) (by omega)
      rw [emod_of_neg hw0 (by omega) (by omega)] at hzk
      omega
    have hmem := hin z ((truncate_sound_iff hp hwf h0 hge).mpr hloss z hz)
    rwa [hmod] at hmem

end Amount

/-! ## Left shift -/

section Shl

variable {a b : Range} {x y : Int} {c d lb ub : APInt} {w : Nat}

/-- Bounds less than a turn away from the limits, where a turn is far from the capacity. -/
theorem holds_regular_turn (h0 : 0 < w) (hw : w + 1 < maxDigits) (hlo : -(2 * half w) ≤ lb.val)
    (hhi : ub.val < 2 * half w) {k : Int} (hlk : lb.val ≤ k) (hku : k ≤ ub.val) :
    Holds (ofBounds .regular w lb ub) w (signedResidue w k) := by
  have hP := half_pos w
  have hcap := four_mul_half_le h0 hw
  refine RegularSound.holds h0 ?_ hlk hku
  rw [regularSound_iff_not_loss h0 (by omega) (by omega) (by omega) (by omega)]
  exact not_regularLoss_of_near h0 hlo hhi

theorem shl_of_full (ha : a.Proper) (hb : b.Proper)
    (h : a.IsFull ∨ b.IsFull ∨ a.type = .anti ∨ b.type = .anti) :
    a.shl b = ofType .regular a.bw := by
  unfold shl
  rw [onProper_of ha hb, isFullSet_eq ha, ok_bind, isFullSet_eq hb, ok_bind]
  simp only [decide_eq_true_eq, isAnti_iff]
  rw [if_pos h]

theorem shl_of_constant (ha : a.isConstant = true) (hb : b.isConstant = true)
    (h : ¬ (a.IsFull ∨ b.IsFull)) (hk : 0 < ceilLog2 16 a.bw) :
    a.shl b = ofBounds .regular a.bw
      (extTrunc (a.l <<< (b.l.extTrunc (ceilLog2 16 a.bw) false).toBw) a.bw true)
      (extTrunc (a.l <<< (b.l.extTrunc (ceilLog2 16 a.bw) false).toBw) a.bw true) := by
  obtain ⟨hfa, hfb⟩ := not_or.mp h
  have hta := (isConstant_iff.mp ha).1
  have htb := (isConstant_iff.mp hb).1
  have hna : a.type ≠ .anti := by rw [hta]; decide
  have hnb : b.type ≠ .anti := by rw [htb]; decide
  unfold shl
  rw [onProper_of (Or.inl hta) (Or.inl htb), isFullSet_eq (Or.inl hta), ok_bind,
    isFullSet_eq (Or.inl htb), ok_bind, if_neg (by simp [hfa, hfb, hna, hnb]), getLower_eq hna,
    ok_bind, getUpper_eq hna, ok_bind, if_pos ⟨ha, hb⟩, getLower_eq hnb, ok_bind,
    extOrTrunc_of_pos hk, ok_bind, extOrTrunc_of_pos a.bw_valid.1, ok_bind]

theorem shl_of_hull (ha : a.type = .regular) (hb : b.type = .regular)
    (h : ¬ (a.IsFull ∨ b.IsFull)) (hconst : ¬ (a.isConstant ∧ b.isConstant))
    (hull : ShiftHull b (ceilLog2 16 a.bw) c d) :
    a.shl b =
      if c ≥ ofBw a.bw then ofBounds .regular a.bw 0 0
      else if d ≥ ofBw a.bw then ofType .regular a.bw
      else if a.l < 0 ∧ a.u < 0 then
        if d > ofBw (a.l.leadingOnes a.bw) then ofType .regular a.bw
        else ofBounds .regular a.bw (a.l <<< d.toBw) (a.u <<< c.toBw)
      else (do
        let zeros ← a.u.leadingZeros a.bw
        if a.l < 0 ∧ a.u ≥ 0 then
          if d > ofBw (min (a.l.leadingOnes a.bw) zeros) then ofType .regular a.bw
          else ofBounds .regular a.bw (a.l <<< d.toBw) (a.u <<< d.toBw)
        else if d > ofBw zeros then ofType .regular a.bw
        else ofBounds .regular a.bw (a.l <<< c.toBw) (a.u <<< d.toBw)) := by
  obtain ⟨hfa, hfb⟩ := not_or.mp h
  obtain ⟨fix, hfix, hmin, hmax, -⟩ := hull
  have hna : a.type ≠ .anti := by rw [ha]; decide
  have hnb : b.type ≠ .anti := by rw [hb]; decide
  unfold shl
  rw [onProper_of (Or.inl ha) (Or.inl hb), isFullSet_eq (Or.inl ha), ok_bind,
    isFullSet_eq (Or.inl hb), ok_bind, if_neg (by simp [hfa, hfb, hna, hnb]), getLower_eq hna,
    ok_bind, getUpper_eq hna, ok_bind, if_neg hconst, hfix, ok_bind, hmin, ok_bind, hmax, ok_bind]

/-- A shift of a constant by a constant is computed exactly and cut to the width. -/
theorem shl_constant_holds_iff (hw : a.bw < maxDigits) (h2 : 2 ≤ a.bw) (ha : a.isConstant = true)
    (hb : b.isConstant = true) (h : ¬ (a.IsFull ∨ b.IsFull)) {v : Int} :
    Holds (a.shl b) a.bw v ↔ v = signedResidue a.bw (a.l.val * 2 ^ shiftAmount a.bw b.l.val) := by
  obtain ⟨hk0, hkw, hk16, -, -⟩ := ceilLog2_bounds h2 hw.le
  have h0 := a.bw_valid.1
  have hs : (b.l.extTrunc (ceilLog2 16 a.bw) false).toBw = shiftAmount a.bw b.l.val := by
    refine toBw_eq ?_ ?_
    · rw [extTrunc_unsigned_val hk0 (hkw.trans hw), shiftAmount_cast]
    · have hlt := Int.emod_lt_of_pos b.l.val (b := 2 ^ ceilLog2 16 a.bw) (by positivity)
      rw [← shiftAmount_cast] at hlt
      have hlt' : shiftAmount a.bw b.l.val < 2 ^ ceilLog2 16 a.bw := by exact_mod_cast hlt
      exact hlt'.trans (Nat.pow_lt_pow_right (by decide) hk16)
  have hv : (extTrunc (a.l <<< shiftAmount a.bw b.l.val) a.bw true).val
      = signedResidue a.bw (a.l.val * 2 ^ shiftAmount a.bw b.l.val) := by
    rw [extTrunc_signed_val h0 hw, SignMag.val_shiftLeft]
    exact signedResidue_congr (SignMag.val_ofInt_emod _ hw.le)
  have hmem := signedResidue_mem h0 (a.l.val * 2 ^ shiftAmount a.bw b.l.val)
  rw [shl_of_constant ha hb h hk0, hs,
    holds_regular_iff h0 hw.le (by rw [hv]; exact hmem.1) (le_refl _) (by rw [hv]; exact hmem.2), hv]
  constructor
  · rintro ⟨-, h1, h2⟩
    exact le_antisymm h2 h1
  · rintro rfl
    exact ⟨hmem, le_refl _, le_refl _⟩

theorem shl_constant_sound (hw : a.bw < maxDigits) (h2 : 2 ≤ a.bw) (ha : a.isConstant = true)
    (hb : b.isConstant = true) (h : ¬ (a.IsFull ∨ b.IsFull)) (hx : x ∈ a.gamma)
    (hy : y ∈ b.gamma) :
    Holds (a.shl b) a.bw (signedResidue a.bw (x * 2 ^ shiftAmount a.bw y)) := by
  have hxl := ((mem_gamma_of_regular (isConstant_iff.mp ha).1).mp hx).2
  have hyl := ((mem_gamma_of_regular (isConstant_iff.mp hb).1).mp hy).2
  rw [← (isConstant_iff.mp ha).2] at hxl
  rw [← (isConstant_iff.mp hb).2] at hyl
  rw [shl_constant_holds_iff hw h2 ha hb h, Int.le_antisymm hxl.2 hxl.1,
    Int.le_antisymm hyl.2 hyl.1]

/-- A left shift by the width or more leaves nothing. -/
theorem signedResidue_mul_two_pow_of_le (h0 : 0 < w) {s : Nat} (hs : w ≤ s) :
    signedResidue w (x * 2 ^ s) = 0 := by
  have hP := half_pos w
  have hdvd : (2 : Int) ^ w ∣ x * 2 ^ s := Dvd.dvd.mul_left (pow_dvd_pow 2 hs) x
  rw [signedResidue_congr (show x * 2 ^ s ≡ 0 [ZMOD 2 ^ w] from Int.emod_eq_zero_of_dvd hdvd),
    signedResidue_of_mem h0 (by omega) hP]

/-- Below 4095 bits a left shift is kept when its amount lies between the extrema. -/
theorem shl_sound_of_hull (hw : a.bw + 1 < maxDigits) (hta : a.type = .regular)
    (htb : b.type = .regular) (hwa : a.WellFormed) (hf : ¬ (a.IsFull ∨ b.IsFull))
    (hconst : ¬ (a.isConstant ∧ b.isConstant)) (hull : ShiftHull b (ceilLog2 16 a.bw) c d) {s : Nat}
    (hcs : c.val ≤ s) (hsd : (s : Int) ≤ d.val) (hx : x ∈ a.gamma) :
    Holds (a.shl b) a.bw (signedResidue a.bw (x * 2 ^ s)) := by
  have hw' : a.bw < maxDigits := by omega
  have h0 := a.bw_valid.1
  have hP := half_pos a.bw
  have hcap := four_mul_half_le h0 hw
  have h2P := two_mul_half h0
  have hfa := (not_or.mp hf).1
  rw [shl_of_hull hta htb hf hconst hull]
  obtain ⟨hl1, hl2, hl3⟩ : a.InLimits :=
    hwa.inLimits_of_not_full (Or.inl hta) hfa
  obtain ⟨-, hxl, hxu⟩ := (mem_gamma_of_regular hta).mp hx
  obtain ⟨-, -, -, -, hc0, -⟩ := hull
  obtain ⟨cn, hcn⟩ : ∃ n : Nat, c.val = n := ⟨c.val.toNat, by omega⟩
  obtain ⟨dn, hdn⟩ : ∃ n : Nat, d.val = n := ⟨d.val.toNat, by omega⟩
  have hbwv := ofBw_val hw'.le
  simp only [ge_iff_le, gt_iff_lt, SignMag.le_iff, SignMag.lt_iff, hbwv, SignMag.val_zero]
  -- the least amount is the width or more
  by_cases hcw : (a.bw : Int) ≤ c.val
  · rw [if_pos hcw, signedResidue_mul_two_pow_of_le h0 (by omega),
      holds_regular_iff h0 hw'.le (by rw [SignMag.val_zero]; omega) (le_refl _)
        (by rw [SignMag.val_zero]; exact hP), SignMag.val_zero]
    exact ⟨⟨by omega, hP⟩, le_refl _, le_refl _⟩
  rw [if_neg hcw]
  by_cases hdw : (a.bw : Int) ≤ d.val
  · rw [if_pos hdw]
    exact holds_full_residue a.bw_valid _
  rw [if_neg hdw, toBw_eq hcn (by have := lt_two_pow_sixteen hw'.le; omega),
    toBw_eq hdn (by have := lt_two_pow_sixteen hw'.le; omega)]
  have hones := ofBw_val (show a.l.leadingOnes a.bw ≤ maxDigits by unfold leadingOnes; omega)
  have hlow : a.l.val < 0 → dn ≤ a.l.leadingOnes a.bw → -(2 * half a.bw) ≤ a.l.val * 2 ^ dn := by
    intro hneg hd
    have : -2 ^ a.bw ≤ a.l.val * 2 ^ dn :=
      neg_two_pow_le_mul_of_le_leadingOnes (by omega) hneg hd
    omega
  have hdown : a.l.val < 0 → a.l.val * 2 ^ dn ≤ x * 2 ^ s := fun hneg =>
    (mul_two_pow_le_of_nonpos hneg.le (by omega)).trans (mul_two_pow_le hxl)
  by_cases hneg : a.l.val < 0 ∧ a.u.val < 0
  · rw [if_pos hneg, hones]
    split_ifs with hd
    · exact holds_full_residue a.bw_valid _
    have hlo := hlow hneg.1 (by omega)
    have hup := mul_two_pow_le_of_nonpos (s := 0) hneg.2.le (Nat.zero_le cn)
    have hle : x * 2 ^ s ≤ a.u.val * 2 ^ cn :=
      (mul_two_pow_le hxu).trans (mul_two_pow_le_of_nonpos hneg.2.le (by omega))
    have hlx := hdown hneg.1
    rw [pow_zero, mul_one] at hup
    have hlv : (a.l <<< dn).val = a.l.val * 2 ^ dn := shl_val (by omega) (by omega)
    have huv : (a.u <<< cn).val = a.u.val * 2 ^ cn := shl_val (by omega) (by omega)
    exact holds_regular_turn h0 hw (by omega) (by omega) (by omega) (by omega)
  rw [if_neg hneg]
  have hu0 : 0 ≤ a.u.val := by omega
  have hz := leadingZeros_eq (v := a.u) (lt_two_pow_sixteen hw'.le) hu0 (by omega)
  have hzeros := ofBw_val (show a.bw - Nat.size a.u.val.natAbs ≤ maxDigits by omega)
  have hmin := ofBw_val (show min (a.l.leadingOnes a.bw) (a.bw - Nat.size a.u.val.natAbs)
    ≤ maxDigits by omega)
  have hhigh : dn ≤ a.bw - Nat.size a.u.val.natAbs → a.u.val * 2 ^ dn < 2 * half a.bw := by
    intro hd
    have := mul_lt_two_pow_of_le_leadingZeros (lt_two_pow_sixteen hw'.le) hu0 (by omega) hz hd
    omega
  have hup : x * 2 ^ s ≤ a.u.val * 2 ^ dn :=
    (mul_two_pow_le hxu).trans (mul_two_pow_le_of_nonneg hu0 (by omega))
  have hunn : 0 ≤ a.u.val * 2 ^ dn := by positivity
  rw [hz, ok_bind]
  by_cases hneg' : a.l.val < 0 ∧ 0 ≤ a.u.val
  · rw [if_pos hneg', hmin]
    split_ifs with hd
    · exact holds_full_residue a.bw_valid _
    have hlo := hlow hneg'.1 (by omega)
    have hhi := hhigh (by omega)
    have hlx := hdown hneg'.1
    have hlnp := mul_two_pow_le_of_nonpos (s := 0) hneg'.1.le (Nat.zero_le dn)
    rw [pow_zero, mul_one] at hlnp
    have hlv : (a.l <<< dn).val = a.l.val * 2 ^ dn := shl_val (by omega) (by omega)
    have huv : (a.u <<< dn).val = a.u.val * 2 ^ dn := shl_val (by omega) (by omega)
    exact holds_regular_turn h0 hw (by omega) (by omega) (by omega) (by omega)
  rw [if_neg hneg', hzeros]
  split_ifs with hd
  · exact holds_full_residue a.bw_valid _
  have hl0 : 0 ≤ a.l.val := by omega
  have hhi := hhigh (by omega)
  have hlx : a.l.val * 2 ^ cn ≤ x * 2 ^ s :=
    (mul_two_pow_le hxl).trans (mul_two_pow_le_of_nonneg (by omega) (by omega))
  have hlnn : 0 ≤ a.l.val * 2 ^ cn := by positivity
  have hlv : (a.l <<< cn).val = a.l.val * 2 ^ cn := shl_val (by omega) (by omega)
  have huv : (a.u <<< dn).val = a.u.val * 2 ^ dn := shl_val (by omega) (by omega)
  exact holds_regular_turn h0 hw (by omega) (by omega) (by omega) (by omega)

/-- Below 4095 bits a left shift is lost only with its amount. -/
theorem shl_sound (hw : a.bw + 1 < maxDigits) (h2 : 2 ≤ a.bw) (hbw : b.bw = a.bw)
    (ha : a.Proper) (hb : b.Proper) (hwa : a.WellFormed) (hwb : b.WellFormed)
    (hloss : ¬ AmountLoss b) (hx : x ∈ a.gamma) (hy : y ∈ b.gamma) :
    Holds (a.shl b) a.bw (signedResidue a.bw (x * 2 ^ shiftAmount a.bw y)) := by
  by_cases hfull : a.IsFull ∨ b.IsFull ∨ a.type = .anti ∨ b.type = .anti
  · rw [shl_of_full ha hb hfull]
    exact holds_full_residue a.bw_valid _
  obtain ⟨hfa, hfb, hna, hnb⟩ := by simpa only [not_or] using hfull
  have hf : ¬ (a.IsFull ∨ b.IsFull) := not_or.mpr ⟨hfa, hfb⟩
  by_cases hconst : a.isConstant = true ∧ b.isConstant = true
  · exact shl_constant_sound (by omega) h2 hconst.1 hconst.2 hf hx hy
  obtain ⟨c, d, hull, hin⟩ := exists_shiftHull (hbw ▸ h2) hb hwb hloss
  rw [hbw] at hull hin
  exact shl_sound_of_hull hw (ha.resolve_right hna) (hb.resolve_right hnb) hwa hf hconst hull
    (hin y hy).1 (hin y hy).2 hx

end Shl

/-- Bounds of one sign are read modulo a turn. -/
theorem unsignedExtrema_of_sign {r : Range} (hw : r.bw < maxDigits) (ht : r.type = .regular)
    (hlim : r.InLimits) (hsign : r.u.val < 0 ↔ r.l.val < 0) :
    ∃ c d, r.getUnsignedMin = .ok c ∧ r.getUnsignedMax = .ok d ∧ c.val = r.l.val % 2 ^ r.bw ∧
      d.val = r.u.val % 2 ^ r.bw := by
  have hp : r.Proper := Or.inl ht
  have h0 := r.bw_valid.1
  obtain ⟨h1, h2, h3⟩ := hlim
  unfold getUnsignedMin getUnsignedMax
  simp only [throwAssert_of (⟨hp.not_unknown, hp.not_empty⟩ : ¬ _ ∧ ¬ _), ok_bind,
    if_neg (show ¬ r.isAnti = true by simp [ht]), zero_lt_iff, lt_zero_iff, zero_le_iff]
  refine ⟨_, _, rfl, rfl, ?_, ?_⟩
  · split_ifs with h
    · exact extTrunc_unsigned_val h0 hw _
    · have hz : r.l.val = 0 := by omega
      rw [hz, getMinValue_val, Int.zero_emod]
  · rw [if_pos (by omega)]
    exact extTrunc_unsigned_val h0 hw _

/-! ## Right shift -/

section Shr

variable {a b : Range} {x y : Int} {c d m n : APInt}

theorem shr_of_anti (ha : a.Proper) (hb : b.Proper) (h : a.type = .anti ∨ b.type = .anti)
    (sign : Bool) : a.shr b sign = ofType .regular a.bw := by
  unfold shr
  rw [onProper_of ha hb, if_pos (by simpa using h)]

theorem shr_of_hull (ha : a.type = .regular) (hb : b.type = .regular)
    (hull : ShiftHull b (ceilLog2 16 a.bw) c d) (sign : Bool) :
    a.shr b sign =
      if sign then (do
        let m ← a.getSignedMin
        let n ← a.getSignedMax
        ofBounds .regular a.bw (if m ≥ 0 then m >>> d.toBw else m >>> c.toBw)
          (if n ≥ 0 then n >>> c.toBw else n >>> d.toBw))
      else (do
        let m ← a.getUnsignedMin
        let n ← a.getUnsignedMax
        ofBounds .regular a.bw (m >>> d.toBw) (n >>> c.toBw)) := by
  obtain ⟨fix, hfix, hmin, hmax, -⟩ := hull
  unfold shr
  rw [onProper_of (Or.inl ha) (Or.inl hb), if_neg (by simp [ha, hb]), hfix, ok_bind, hmin,
    ok_bind, hmax, ok_bind]

/-- The extreme amounts as the numbers the bounds are shifted by. -/
theorem ShiftHull.toBw_val {k : Nat} (hk : k < 16) (hull : ShiftHull b k c d)
    (hcd : c.val ≤ d.val) :
    (c.toBw : Int) = c.val ∧ (d.toBw : Int) = d.val := by
  obtain ⟨-, -, -, -, hc0, hd⟩ := hull
  have hpow : (2 : Int) ^ k ≤ 2 ^ 15 := pow_le_pow_right₀ (by decide) (by omega)
  unfold APInt.toBw
  omega

theorem ShiftHull.toBw {k s : Nat} (hk : k < 16) (hull : ShiftHull b k c d) (hcs : c.val ≤ s)
    (hsd : (s : Int) ≤ d.val) : c.toBw ≤ s ∧ s ≤ d.toBw := by
  obtain ⟨-, -, -, -, hc0, hd⟩ := hull
  have hpow : (2 : Int) ^ k ≤ 2 ^ 15 := pow_le_pow_right₀ (by decide) (by omega)
  unfold APInt.toBw
  omega

/-- A shifted value of the width stays within it. -/
theorem ediv_two_pow_mem {w : Nat} (hx : x ∈ signedRange w) (s : Nat) :
    x / 2 ^ s ∈ signedRange w := by
  have hbounds := ediv_two_pow_bounds x s
  obtain ⟨hx1, hx2⟩ := hx
  have hP := half_pos w
  rcases Int.lt_or_le x 0 with h | h
  · have := hbounds.2 h
    exact ⟨by omega, by omega⟩
  · have := hbounds.1 h
    exact ⟨by omega, by omega⟩

/-- Signed: the bounds of the shifts enclose those by an amount between the extrema.  For negative
values they are the least value shifted least and the greatest one shifted most. -/
theorem shr_signed_yields (ha : a.type = .regular) (hb : b.type = .regular) (hwa : a.WellFormed)
    (hull : ShiftHull b (ceilLog2 16 a.bw) c d) (hk : ceilLog2 16 a.bw < 16) (hcd : c.val ≤ d.val) :
    ∃ lo hi : Int, Yields (a.shr b true) a.bw .regular lo hi ∧ -half a.bw ≤ lo ∧ lo ≤ hi ∧
      hi < half a.bw ∧
      (∀ x ∈ a.gamma, ∀ s : Nat, c.val ≤ s → (s : Int) ≤ d.val → lo ≤ x / 2 ^ s ∧ x / 2 ^ s ≤ hi) ∧
      (hi < 0 → a.InLimits ∧ a.u.val < 0) ∧
      (a.InLimits → a.u.val < 0 →
        lo = a.l.val / 2 ^ c.toBw ∧ hi = a.u.val / 2 ^ d.toBw) := by
  obtain ⟨m, n, hm, hn, hm1, hmn, hn2, hmem⟩ := exists_signedHull (.inl ha) hwa
  have hlo : ∀ p : APInt, (p = if m ≥ 0 then m >>> d.toBw else m >>> c.toBw) →
      -half a.bw ≤ p.val ∧ (m.val < 0 → p.val = m.val / 2 ^ c.toBw) ∧
        ∀ x s, m.val ≤ x → c.toBw ≤ s → s ≤ d.toBw → p.val ≤ x / 2 ^ s := by
    rintro p rfl
    simp only [zero_le_iff]
    split_ifs with h
    · rw [SignMag.val_shiftRight]
      have := ((ediv_two_pow_bounds m.val d.toBw).1 h).1
      exact ⟨by omega, fun hneg => absurd h (by omega), fun x s hx _ hs =>
        (ediv_two_pow_le_of_nonneg h hs).trans (ediv_two_pow_le hx)⟩
    · rw [SignMag.val_shiftRight]
      have := ((ediv_two_pow_bounds m.val c.toBw).2 (by omega)).1
      exact ⟨by omega, fun _ => rfl, fun x s hx hs _ =>
        (ediv_two_pow_le_of_neg (by omega) hs).trans (ediv_two_pow_le hx)⟩
  have hhi : ∀ q : APInt, (q = if n ≥ 0 then n >>> c.toBw else n >>> d.toBw) →
      q.val < half a.bw ∧ (n.val < 0 → q.val = n.val / 2 ^ d.toBw) ∧ (q.val < 0 → n.val < 0) ∧
        ∀ x s, x ≤ n.val → c.toBw ≤ s → s ≤ d.toBw → x / 2 ^ s ≤ q.val := by
    rintro q rfl
    simp only [zero_le_iff]
    split_ifs with h
    · rw [SignMag.val_shiftRight]
      have := (ediv_two_pow_bounds n.val c.toBw).1 h
      exact ⟨by omega, fun hneg => absurd h (by omega), fun hneg => by omega, fun x s hx hs _ =>
        (ediv_two_pow_le hx).trans (ediv_two_pow_le_of_nonneg h hs)⟩
    · rw [SignMag.val_shiftRight]
      have := ((ediv_two_pow_bounds n.val d.toBw).2 (by omega)).2
      exact ⟨by omega, fun _ => rfl, fun _ => by omega, fun x s hx _ hs =>
        (ediv_two_pow_le hx).trans (ediv_two_pow_le_of_neg (by omega) hs)⟩
  obtain ⟨hlo1, hlo2, hlo3⟩ := hlo _ rfl
  obtain ⟨hhi1, hhi2, hhi3, hhi4⟩ := hhi _ rfl
  obtain ⟨hcc, hcdw⟩ := hull.toBw hk (s := c.toBw) (hull.toBw_val hk hcd).1.ge
    (by rw [(hull.toBw_val hk hcd).1]; exact hcd)
  have hle := (hlo3 m.val c.toBw le_rfl le_rfl hcdw).trans (hhi4 m.val c.toBw hmn le_rfl hcdw)
  have hshr := shr_of_hull ha hb hull true
  rw [if_pos rfl, hm, ok_bind, hn, ok_bind] at hshr
  refine ⟨_, _, hshr ▸ ofBounds_regular_inside a.bw_valid hlo1 hle hhi1, hlo1, hle, hhi1,
    fun x hx s hcs hsd => ?_, fun hneg => ?_, fun hlim hneg => ?_⟩
  · obtain ⟨hmx, hxn⟩ := hmem x hx
    obtain ⟨hcs', hsd'⟩ := hull.toBw hk hcs hsd
    exact ⟨hlo3 x s hmx hcs' hsd', hhi4 x s hxn hcs' hsd'⟩
  · have hn0 := hhi3 hneg
    have hlim : a.InLimits := (hwa.1 ha).resolve_left fun h => by
      have hmax := (getSignedMax_of_infinite ha h.2)
      obtain ⟨hi, hhi', hhiv⟩ := hmax
      have hP := half_pos a.bw
      rw [hn] at hhi'
      cases hhi'
      omega
    have hnu := getSignedMax_of_limits ha hlim
    rw [hn] at hnu
    cases hnu
    exact ⟨hlim, hn0⟩
  · have hml := getSignedMin_of_limits ha hlim
    have hnu := getSignedMax_of_limits ha hlim
    rw [hm] at hml
    rw [hn] at hnu
    cases hml
    cases hnu
    exact ⟨hlo2 (by omega), hhi2 hneg⟩

theorem shr_signed_of_hull (ha : a.type = .regular) (hb : b.type = .regular) (hwa : a.WellFormed)
    (hull : ShiftHull b (ceilLog2 16 a.bw) c d) (hk : ceilLog2 16 a.bw < 16) {s : Nat}
    (hcs : c.val ≤ s) (hsd : (s : Int) ≤ d.val) (hx : x ∈ a.gamma) :
    Holds (a.shr b true) a.bw (x / 2 ^ s) := by
  obtain ⟨lo, hi, hy, -, -, -, hin, -⟩ := shr_signed_yields ha hb hwa hull hk (hcs.trans hsd)
  exact hy.holds_iff.mpr ⟨ediv_two_pow_mem hx.1 s, hin x hx s hcs hsd⟩

theorem shr_signed_sound (h2 : 2 ≤ a.bw) (hbw : b.bw = a.bw) (ha : a.Proper) (hb : b.Proper)
    (hwa : a.WellFormed) (hwb : b.WellFormed) (hloss : ¬ AmountLoss b) (hx : x ∈ a.gamma)
    (hy : y ∈ b.gamma) : Holds (a.shr b true) a.bw (x / 2 ^ shiftAmount a.bw y) := by
  by_cases hanti : a.type = .anti ∨ b.type = .anti
  · rw [shr_of_anti ha hb hanti]
    exact holds_full a.bw_valid (ediv_two_pow_mem hx.1 _)
  obtain ⟨hna, hnb⟩ := not_or.mp hanti
  obtain ⟨c, d, hull, hin⟩ := exists_shiftHull (hbw ▸ h2) hb hwb hloss
  rw [hbw] at hull hin
  exact shr_signed_of_hull (ha.resolve_right hna) (hb.resolve_right hnb) hwa hull
    (ceilLog2_bounds h2 a.bw_valid.2).2.2.1 (hin y hy).1 (hin y hy).2 hx

/-- Unsigned: the same below 4095 bits.  The bounds reach the upper half together only where
negative values are not shifted. -/
theorem shr_unsigned_bounds (hw : a.bw + 1 < maxDigits) (ha : a.type = .regular)
    (hb : b.type = .regular) (hwa : a.WellFormed) (hull : ShiftHull b (ceilLog2 16 a.bw) c d)
    (hk : ceilLog2 16 a.bw < 16) (hcd : c.val ≤ d.val) :
    ∃ p q : APInt, a.shr b false = ofBounds .regular a.bw p q ∧ 0 ≤ p.val ∧ p.val ≤ q.val ∧
      q.val < 2 * half a.bw ∧
      (∀ x ∈ a.gamma, ∀ s : Nat, c.val ≤ s → (s : Int) ≤ d.val →
        p.val ≤ x % 2 ^ a.bw / 2 ^ s ∧ x % 2 ^ a.bw / 2 ^ s ≤ q.val) ∧
      (half a.bw ≤ p.val → d.val = 0 ∧ a.InLimits ∧ a.u.val < 0) ∧
      (d.val = 0 → a.InLimits → a.u.val < 0 →
        p.val = a.l.val + 2 * half a.bw ∧ q.val = a.u.val + 2 * half a.bw) := by
  have h0 := a.bw_valid.1
  have hP := half_pos a.bw
  have hwd : a.bw < maxDigits := by omega
  obtain ⟨m, n, hma, hna, hm0, hn, hmem⟩ := exists_unsignedHull hwd (.inl ha) hwa
  obtain ⟨hcv, hdv⟩ := hull.toBw_val hk hcd
  have hc0 := hull.choose_spec.2.2.2.1
  have hcdw : c.toBw ≤ d.toBw := by omega
  have hlo := ediv_two_pow_bounds m.val d.toBw
  have hhi := ediv_two_pow_bounds n.val c.toBw
  have hshr := shr_of_hull ha hb hull false
  rw [if_neg Bool.false_ne_true, hma, ok_bind, hna, ok_bind] at hshr
  -- Some value lies between the extrema.
  obtain ⟨z, hz⟩ : ∃ z, z ∈ a.gamma := by
    rcases hwa.1 ha with h | h
    · refine ⟨0, (mem_gamma_of_regular ha).mpr ⟨⟨by omega, hP⟩, ?_, ?_⟩⟩
      · rw [h.1, min_val]
        have := half_pos maxDigits
        omega
      · rw [h.2, max_val]
        have := half_pos maxDigits
        omega
    · exact ⟨a.l.val, (mem_gamma_of_regular ha).mpr ⟨h.l_mem, le_rfl, h.2.1⟩⟩
  have hbetween : ∀ x ∈ a.gamma, ∀ s : Nat, c.val ≤ s → (s : Int) ≤ d.val →
      m.val / 2 ^ d.toBw ≤ x % 2 ^ a.bw / 2 ^ s ∧ x % 2 ^ a.bw / 2 ^ s ≤ n.val / 2 ^ c.toBw := by
    intro x hx s hcs hsd
    obtain ⟨hmx, hxn⟩ := hmem x hx
    obtain ⟨hcs', hsd'⟩ := hull.toBw hk hcs hsd
    exact ⟨(ediv_two_pow_le_of_nonneg hm0 hsd').trans (ediv_two_pow_le hmx),
      (ediv_two_pow_le hxn).trans (ediv_two_pow_le_of_nonneg (by omega) hcs')⟩
  have hle := hbetween z hz c.toBw (by omega) (by omega)
  refine ⟨_, _, hshr, ?_, ?_, ?_, ?_, fun hup => ?_, fun hd0 hlim hneg => ?_⟩
  · rw [SignMag.val_shiftRight]
    exact (hlo.1 hm0).1
  · rw [SignMag.val_shiftRight, SignMag.val_shiftRight]
    exact hle.1.trans hle.2
  · rw [SignMag.val_shiftRight]
    have hmz := hmem z hz
    have hn0 := hhi.1 (by omega)
    omega
  · rw [SignMag.val_shiftRight, SignMag.val_shiftRight]
    exact hbetween
  · rw [SignMag.val_shiftRight] at hup
    have hmlt : m.val < 2 * half a.bw := by
      have hmz := hmem z hz
      omega
    have hd0 : d.toBw = 0 := by
      by_contra hne
      have hhalf : m.val / 2 ^ d.toBw ≤ m.val / 2 ^ 1 := ediv_two_pow_le_of_nonneg hm0 (by omega)
      omega
    have hneg : ∀ x ∈ a.gamma, x < 0 := by
      intro x hx
      by_contra hx0
      have hmx := (hmem x hx).1
      have hxw := hx.1
      rw [emod_of_nonneg h0 (by omega) (by omega)] at hmx
      have hself := (hlo.1 hm0).2
      omega
    have hlim : a.InLimits := (hwa.1 ha).resolve_left fun h => by
      refine absurd (hneg 0 ((mem_gamma_of_regular ha).mpr ⟨⟨by omega, hP⟩, ?_, ?_⟩)) (lt_irrefl 0)
      · rw [h.1, min_val]
        have := half_pos maxDigits
        omega
      · rw [h.2, max_val]
        have := half_pos maxDigits
        omega
    exact ⟨by omega, hlim,
      hneg _ ((mem_gamma_of_regular ha).mpr ⟨hlim.u_mem, hlim.2.1, le_rfl⟩)⟩
  · obtain ⟨c', d', hc', hd', hcv', hdv'⟩ := unsignedExtrema_of_sign hwd ha hlim
      (iff_of_true hneg (lt_of_le_of_lt hlim.2.1 hneg))
    obtain rfl : m = c' := Except.ok.inj (hma.symm.trans hc')
    obtain rfl : n = d' := Except.ok.inj (hna.symm.trans hd')
    obtain ⟨h1, h2, -⟩ := hlim
    rw [emod_of_neg h0 (by omega) (by omega)] at hcv' hdv'
    rw [SignMag.val_shiftRight, SignMag.val_shiftRight, show d.toBw = 0 by omega,
      show c.toBw = 0 by omega, pow_zero, Int.ediv_one, Int.ediv_one]
    exact ⟨hcv', hdv'⟩

theorem shr_unsigned_of_hull (hw : a.bw + 1 < maxDigits) (ha : a.type = .regular)
    (hb : b.type = .regular) (hwa : a.WellFormed) (hull : ShiftHull b (ceilLog2 16 a.bw) c d)
    (hk : ceilLog2 16 a.bw < 16) {s : Nat} (hcs : c.val ≤ s) (hsd : (s : Int) ≤ d.val)
    (hx : x ∈ a.gamma) :
    Holds (a.shr b false) a.bw (signedResidue a.bw (x % 2 ^ a.bw / 2 ^ s)) := by
  have hP := half_pos a.bw
  obtain ⟨p, q, heq, hp0, -, hq, hin, -⟩ :=
    shr_unsigned_bounds hw ha hb hwa hull hk (hcs.trans hsd)
  obtain ⟨h1, h2⟩ := hin x hx s hcs hsd
  rw [heq]
  exact holds_regular_turn a.bw_valid.1 hw (by omega) hq h1 h2

theorem shr_unsigned_sound (hw : a.bw + 1 < maxDigits) (h2 : 2 ≤ a.bw) (hbw : b.bw = a.bw)
    (ha : a.Proper) (hb : b.Proper) (hwa : a.WellFormed) (hwb : b.WellFormed)
    (hloss : ¬ AmountLoss b) (hx : x ∈ a.gamma) (hy : y ∈ b.gamma) :
    Holds (a.shr b false) a.bw
      (signedResidue a.bw (x % 2 ^ a.bw / 2 ^ shiftAmount a.bw y)) := by
  by_cases hanti : a.type = .anti ∨ b.type = .anti
  · rw [shr_of_anti ha hb hanti]
    exact holds_full_residue a.bw_valid _
  obtain ⟨hna, hnb⟩ := not_or.mp hanti
  obtain ⟨c, d, hull, hin⟩ := exists_shiftHull (hbw ▸ h2) hb hwb hloss
  rw [hbw] at hull hin
  exact shr_unsigned_of_hull hw (ha.resolve_right hna) (hb.resolve_right hnb) hwa hull
    (ceilLog2_bounds h2 a.bw_valid.2).2.2.1 (hin y hy).1 (hin y hy).2 hx

end Shr

/-! ## Both shifts -/

/-- Every shift of a value by an amount is kept. -/
def ShiftSound (a b : Range) : Prop :=
  ∀ x ∈ a.gamma, ∀ y ∈ b.gamma,
    Holds (a.shl b) a.bw (signedResidue a.bw (x * 2 ^ shiftAmount a.bw y)) ∧
    Holds (a.shr b true) a.bw (x / 2 ^ shiftAmount a.bw y) ∧
    Holds (a.shr b false) a.bw (signedResidue a.bw (x % 2 ^ a.bw / 2 ^ shiftAmount a.bw y))

section Both

variable {a b : Range} {x y : Int} {k : Nat}

/-- A nonnegative constant shifted right stays between its extreme shifts. -/
theorem shr_constant_between {c d : APInt} (hlim : a.InLimits) (hat : a.type = .regular)
    (hlu : a.l = a.u) (h0 : 0 ≤ a.l.val) (hb : b.type = .regular)
    (hull : ShiftHull b (ceilLog2 16 a.bw) c d) (hcd : c.toBw ≤ d.toBw) {v : Int}
    (hv : Holds (a.shr b true) a.bw v) :
    a.l.val / 2 ^ d.toBw ≤ v ∧ v ≤ a.l.val / 2 ^ c.toBw := by
  have hlo := (ediv_two_pow_bounds a.l.val d.toBw).1 h0
  have hhi := (ediv_two_pow_bounds a.l.val c.toBw).1 h0
  have hle := ediv_two_pow_le_of_nonneg h0 hcd
  obtain ⟨h1, h2, h3⟩ := hlim
  rw [shr_of_hull hat hb hull, if_pos rfl, getSignedMin_of_limits hat ⟨h1, h2, h3⟩, ok_bind,
    getSignedMax_of_limits hat ⟨h1, h2, h3⟩, ok_bind, ← hlu, if_pos (zero_le_iff.mpr h0),
    if_pos (zero_le_iff.mpr h0), holds_regular_iff a.bw_valid.1 a.bw_valid.2] at hv
  · rw [← SignMag.val_shiftRight, ← SignMag.val_shiftRight]
    exact hv.2
  all_goals
    simp only [SignMag.val_shiftRight]
    omega

/-- A hidden amount shows on the value `2 ^ (w - 2)`: shifted right by nothing
    where zero is hidden, else shifted out where all ones are. -/
theorem AmountLoss.exists_lost (h2 : 2 ≤ b.bw) (hwf : b.WellFormed) (hloss : AmountLoss b) :
    ∃ a : Range, a.WellFormed ∧ a.bw = b.bw ∧ a.type = .regular ∧ ¬ ShiftSound a b := by
  obtain ⟨ht, hcut, hsign⟩ := hloss
  obtain ⟨hk0, hkw, hk16, hlow, hhigh⟩ := ceilLog2_bounds h2 b.bw_valid.2
  have hkd := hkw.trans_le b.bw_valid.2
  set w := b.bw with hw
  set k := ceilLog2 16 w with hk
  have hP : half w = 2 * 2 ^ (w - 2) := by
    unfold half
    rw [← pow_succ', show w - 2 + 1 = w - 1 by omega]
  have hpos : (0 : Int) < 2 ^ (w - 2) := by positivity
  have hhalf : half w ≤ half maxDigits := half_le_half b.bw_valid.2
  -- the truncated amounts
  obtain ⟨fix, hfix, hbw, htype, hfl, hfu⟩ := yields_truncate_of_loss ht hwf hk0 hkw hcut
  obtain ⟨hneg, hlen, hturn, hgt⟩ := hcut
  obtain ⟨hu1, hu2⟩ := signedResidue_mem hk0 b.u.val
  obtain ⟨hl1, hl2⟩ := signedResidue_mem hk0 b.l.val
  obtain ⟨c, d, hc, hd, hcv, hdv⟩ := unsignedExtrema_of_sign (hbw ▸ hkd) htype
    ⟨by rw [hfl, hbw]; exact hu1, by omega, by rw [hfu, hbw]; exact hl2⟩ (by rw [hfl, hfu]; omega)
  rw [hbw, hfl] at hcv
  rw [hbw, hfu] at hdv
  have hpow := two_mul_half hk0
  have hKP := half_pos k
  have hcd : 0 ≤ c.val ∧ c.val ≤ d.val ∧ d.val < 2 ^ k ∧
      (c.val = 0 → signedResidue k b.u.val = 0 ∧ d.val < half k) := by
    by_cases hn : signedResidue k b.l.val < 0
    · rw [emod_of_neg hk0 (by omega) (by omega)] at hcv
      rw [emod_of_neg hk0 hn (by omega)] at hdv
      omega
    · rw [emod_of_nonneg hk0 (by omega) (by omega)] at hcv
      rw [emod_of_nonneg hk0 (by omega) (by omega)] at hdv
      omega
  have hull : ShiftHull b k c d :=
    ⟨fix, (zextOrTrunc_of_le hkw.le).trans hfix, hc, hd, hcd.1, hcd.2.2.1⟩
  have hbnat : (2 : Int) ^ k ≤ 2 ^ 15 := pow_le_pow_right₀ (by decide) (by omega)
  have hcn : (c.toBw : Int) = c.val := by unfold APInt.toBw; omega
  have hdn : (d.toBw : Int) = d.val := by unfold APInt.toBw; omega
  have hp : (SignMag.ofInt (2 ^ (w - 2)) : APInt).val = 2 ^ (w - 2) :=
    val_of_fits (by omega) (by omega)
  -- every residue outside the crossed ends is an amount
  have hamount : ∀ r ∈ signedRange k, (r ≤ signedResidue k b.u.val ∨ signedResidue k b.l.val ≤ r) →
      ∃ y ∈ b.gamma, signedResidue k y = r := by
    intro r hr hout
    have himg : r ∈ signedResidue k '' Set.Icc b.l.val b.u.val := by
      rw [image_Icc_of_gt hk0 (by omega) hturn hgt]
      exact ⟨hr, hout⟩
    obtain ⟨y, hy, hyr⟩ := himg
    have hlim : b.InLimits := (hwf.1 ht).resolve_left fun h => by
      have hu : b.u.val = half maxDigits - 1 := by rw [h.2, max_val]
      have := two_le_half_maxDigits
      omega
    obtain ⟨b1, -, b3⟩ := hlim
    have hy1 := hy.1
    have hy2 := hy.2
    exact ⟨y, (mem_gamma_of_regular ht).mpr ⟨⟨by omega, by omega⟩, hy⟩, hyr⟩
  refine ⟨⟨SignMag.ofInt (2 ^ (w - 2)), SignMag.ofInt (2 ^ (w - 2)), w, .regular, b.bw_valid⟩,
    ⟨fun _ => Or.inr ⟨?_, le_refl _, ?_⟩, fun h => by cases h⟩, rfl, rfl, fun hs => ?_⟩
  · rw [hp]
    show -half w ≤ _
    omega
  · rw [hp]
    show _ < half w
    omega
  set a : Range := ⟨SignMag.ofInt (2 ^ (w - 2)), SignMag.ofInt (2 ^ (w - 2)), w, .regular,
    b.bw_valid⟩ with ha
  have hal : a.l.val = 2 ^ (w - 2) := hp
  have hlim : a.InLimits := by
    refine ⟨?_, le_refl _, ?_⟩
    · rw [hal]
      show -half w ≤ _
      omega
    · show a.l.val < half w
      omega
  have hmem : (2 : Int) ^ (w - 2) ∈ a.gamma := by
    refine (mem_gamma_of_regular rfl).mpr ⟨⟨?_, ?_⟩, hal.le, hal.ge⟩
    · show -half w ≤ _
      omega
    · show _ < half w
      omega
  have hbetween : ∀ y ∈ b.gamma,
      (2 : Int) ^ (w - 2) / 2 ^ d.toBw ≤ 2 ^ (w - 2) / 2 ^ shiftAmount w y ∧
        (2 : Int) ^ (w - 2) / 2 ^ shiftAmount w y ≤ 2 ^ (w - 2) / 2 ^ c.toBw := by
    intro y hy
    have hv := shr_constant_between hlim rfl rfl (by omega) ht hull (by omega) (hs _ hmem y hy).2.1
    rwa [hal] at hv
  by_cases hc0 : c.val = 0
  · -- all ones is hidden: the value is shifted out
    obtain ⟨hu0, hdlt⟩ := hcd.2.2.2 hc0
    obtain ⟨y, hy, hyr⟩ := hamount (-1) ⟨by omega, by omega⟩ (Or.inl (by omega))
    have hs : (shiftAmount w y : Int) = 2 ^ k - 1 := by
      rw [shiftAmount_cast, ← (signedResidue_modEq k y).eq, hyr,
        emod_of_neg hk0 (by omega) (by omega)]
      omega
    have hbetw := (hbetween y hy).1
    have hw2 : (w : Int) ≤ 2 ^ k := by exact_mod_cast hhigh
    have hlow' : half k < w := by
      unfold half
      exact_mod_cast hlow
    have hout : (2 : Int) ^ (w - 2) / 2 ^ shiftAmount w y = 0 :=
      Int.ediv_eq_zero_of_lt hpos.le (pow_lt_pow_right₀ (by decide) (by omega))
    rw [hout] at hbetw
    have hone : 1 ≤ (2 : Int) ^ (w - 2) / 2 ^ d.toBw := by
      rw [Int.le_ediv_iff_mul_le (by positivity), one_mul]
      exact pow_le_pow_right₀ (by decide) (by omega)
    omega
  · -- zero is hidden: the value is not shifted
    obtain ⟨y, hy, hyr⟩ := hamount 0 ⟨by omega, hKP⟩ (by omega)
    have hs : shiftAmount w y = 0 := by
      have : (shiftAmount w y : Int) = 0 := by
        rw [shiftAmount_cast, ← (signedResidue_modEq k y).eq, hyr, Int.zero_emod]
      exact_mod_cast this
    have hbetw := (hbetween y hy).2
    rw [hs, pow_zero, Int.ediv_one] at hbetw
    have hlt : (2 : Int) ^ (w - 2) / 2 ^ c.toBw < 2 ^ (w - 2) := by
      rw [Int.ediv_lt_iff_lt_mul (by positivity)]
      exact lt_mul_of_one_lt_right hpos (one_lt_pow₀ (by decide) (by omega))
    omega

/-- Operands next to the capacity and at it, whose unsigned right shifts are lost. -/
def lostRightShift : {p : (Range × Range) × Range × Range //
    (p.1.1.WellFormed ∧ p.1.2.WellFormed ∧ (-1 : Int) ∈ p.1.1.gamma ∧ (0 : Int) ∈ p.1.2.gamma ∧
      ¬ Holds (p.1.1.shr p.1.2 false) 4095
        (signedResidue 4095 (-1 % 2 ^ 4095 / 2 ^ shiftAmount 4095 0)) ∧
      ¬ 2 ≤ p.1.2.u.val - p.1.2.l.val) ∧
    p.2.1.WellFormed ∧ p.2.2.WellFormed ∧ (-1 : Int) ∈ p.2.1.gamma ∧ (1 : Int) ∈ p.2.2.gamma ∧
      ¬ Holds (p.2.1.shr p.2.2 false) maxDigits
        (signedResidue maxDigits (-1 % 2 ^ maxDigits / 2 ^ shiftAmount maxDigits 1)) ∧
      ¬ 2 ≤ p.2.2.u.val - p.2.2.l.val} :=
  ⟨((⟨-1, 0, 4095, .regular, bwValid_4095⟩, ⟨0, 0, 4095, .regular, bwValid_4095⟩),
    ⟨-1, -1, maxDigits, .regular, bwValid_maxDigits⟩, ⟨1, 1, maxDigits, .regular,
      bwValid_maxDigits⟩),
    by decide +kernel⟩

/-- At 4095 bits the greatest unsigned value is `Max`, at 4096 the unsigned
    extrema are signed. -/
theorem not_shiftSound_capacity :
    (¬ ShiftSound ⟨-1, 0, 4095, .regular, by decide⟩ ⟨0, 0, 4095, .regular, by decide⟩) ∧
      ¬ ShiftSound ⟨-1, -1, maxDigits, .regular, by decide⟩
        ⟨1, 1, maxDigits, .regular, by decide⟩ := by
  constructor
  · intro h
    obtain ⟨⟨-, -, hx, hy, hlost, -⟩, -⟩ := lostRightShift.property
    exact hlost (h (-1) hx 0 hy).2.2
  · intro h
    obtain ⟨-, -, -, hx, hy, hlost, -⟩ := lostRightShift.property
    exact hlost (h (-1) hx 1 hy).2.2

end Both

/-- One and a range of four bits with crossed amounts, whose left shift is lost. -/
def lostLeftShift : {p : Range × Range // p.1.WellFormed ∧ p.2.WellFormed ∧
    (1 : Int) ∈ p.1.gamma ∧ (-4 : Int) ∈ p.2.gamma ∧
    ¬ Holds (p.1.shl p.2) 4 (signedResidue 4 (1 * 2 ^ shiftAmount 4 (-4)))} :=
  ⟨(⟨1, 1, 4, .regular, bwValid_four⟩, ⟨-5, -2, 4, .regular, bwValid_four⟩), by decide +kernel⟩

end Range
end Bambu
