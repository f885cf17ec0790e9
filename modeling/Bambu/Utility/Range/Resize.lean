/-
  Bambu.Utility.Range.Resize

  `Range::truncate`, `Range::sextOrTrunc` and `Range::zextOrTrunc`.

  Truncation keeps the residues of an interval shorter than a turn.  They form
  an arc: an interval when the truncated bounds come in order, the complement of
  one when they cross.  `truncate` returns the interval between the crossed
  bounds, not its complement, when the interval it started from was negative;
  `resize_sound_iff` says that this is the only value lost.
-/

import Bambu.Utility.Range.AddSubSound

namespace Bambu
namespace Range

open Bambu.Math APInt

/-! ## The operations -/

/-- `truncate` past its test for the full set. -/
def truncateExtrema (bitwidth : Nat) (a b : APInt) : Except Error Range := do
  let stmin ← a.extOrTrunc bitwidth true
  let stmax ← b.extOrTrunc bitwidth true
  -- zero crossing: overflow, then underflow
  if a < 0 ∧ b ≥ 0 ∧ stmax < 0 then
    if stmax ≥ stmin then ofType .regular bitwidth
    else ofBounds .anti bitwidth (stmax + 1) ((if stmin < 0 then stmin else 0) - 1)
  else if a < 0 ∧ b ≥ 0 ∧ stmin > 0 then
    if stmax ≥ stmin then ofType .regular bitwidth
    else ofBounds .anti bitwidth (stmax + 1) (stmin - 1)
  else if stmin > stmax then
    if a < 0 then ofBounds .regular bitwidth stmax stmin
    else ofBounds .anti bitwidth (stmax + 1) (stmin - 1)
  else ofBounds .regular bitwidth stmin stmax

def truncate (this : Range) (bitwidth : Nat) : Except Error Range :=
  if this.isEmpty then ofType .empty bitwidth
  else if this.isUnknown then ofType .unknown bitwidth
  else if bitwidth = this.bw then .ok this
  else do
    let a ← this.getSignedMin
    let b ← this.getSignedMax
    let full ← this.isFullSet
    if full ∨ this.isAnti ∨ (b - a).abs > getMaxValue bitwidth then ofType .regular bitwidth
    else truncateExtrema bitwidth a b

def sextOrTrunc (this : Range) (bitwidth : Nat) : Except Error Range :=
  if bitwidth ≤ this.bw then this.truncate bitwidth
  else if this.isEmpty then ofType .empty bitwidth
  else if this.isUnknown then ofType .unknown bitwidth
  else do
    let this_min ← (← this.getSignedMin).extOrTrunc bitwidth true
    let this_max ← (← this.getSignedMax).extOrTrunc bitwidth true
    -- `std::minmax`
    let first := if this_max < this_min then this_max else this_min
    let second := if this_max < this_min then this_min else this_max
    let sextRes ← ofBounds .regular bitwidth first second
    if ← sextRes.isFullSet then ofType .regular bitwidth
    else .ok sextRes

def zextOrTrunc (this : Range) (bitwidth : Nat) : Except Error Range :=
  if bitwidth ≤ this.bw then this.truncate bitwidth
  else if this.isEmpty then ofType .empty bitwidth
  else if this.isUnknown then ofType .unknown bitwidth
  else if this.isAnti then do
    let umax ← this.getUnsignedMax
    if umax < getMaxValue this.bw then ofBounds .regular bitwidth (this.u + 1) umax
    else ofBounds .regular bitwidth 0 (getMaxValue this.bw)
  else do
    let smin ← this.getSignedMin
    let smax ← this.getSignedMax
    if smin < 0 ∧ smax ≥ 0 then ofBounds .regular bitwidth 0 (getMaxValue this.bw)
    else do
      let lb ← smin.extOrTrunc this.bw false
      let ub ← smax.extOrTrunc this.bw false
      ofBounds .regular bitwidth lb ub

section Builds

variable {a : Range} {v : Nat} {lo hi : APInt}

theorem builds_truncateExtrema : Builds (truncateExtrema v lo hi) := by
  unfold truncateExtrema
  exact builds_bind fun _ _ => builds_bind fun _ _ =>
    builds_ite (builds_ite builds_ofType builds_ofBounds)
      (builds_ite (builds_ite builds_ofType builds_ofBounds)
        (builds_ite (builds_ite builds_ofBounds builds_ofBounds) builds_ofBounds))

theorem builds_truncate (ha : Built a) : Builds (a.truncate v) := by
  unfold truncate
  refine builds_ite builds_ofType (builds_ite builds_ofType (builds_ite (builds_ok ha) ?_))
  exact builds_bind fun _ _ => builds_bind fun _ _ => builds_bind fun _ _ =>
    builds_ite builds_ofType builds_truncateExtrema

theorem builds_sextOrTrunc (ha : Built a) : Builds (a.sextOrTrunc v) := by
  unfold sextOrTrunc
  refine builds_ite (builds_truncate ha) (builds_ite builds_ofType (builds_ite builds_ofType ?_))
  refine builds_bind fun _ _ => builds_bind fun _ _ => builds_bind fun _ _ =>
    builds_bind fun _ _ => builds_bind fun res hres => builds_bind fun _ _ =>
      builds_ite builds_ofType (builds_ok (.ofBounds hres))

theorem builds_zextOrTrunc (ha : Built a) : Builds (a.zextOrTrunc v) := by
  unfold zextOrTrunc
  refine builds_ite (builds_truncate ha) (builds_ite builds_ofType (builds_ite builds_ofType
    (builds_ite (builds_bind fun _ _ => builds_ite builds_ofBounds builds_ofBounds) ?_)))
  exact builds_bind fun _ _ => builds_bind fun _ _ => builds_ite builds_ofBounds
    (builds_bind fun _ _ => builds_bind fun _ _ => builds_ofBounds)

end Builds

/-! ## Truncation of an interval shorter than a turn -/

section Extrema

variable {v : Nat} {a b lb ub : APInt} {y : Int}

/-- Two limits one turn apart at least leave room for the infinite bounds. -/
theorem half_lt_half_maxDigits (h0 : 0 < v) (hv : v < maxDigits) : half v < half maxDigits := by
  have hP := half_pos v
  have hcap := two_mul_half_le h0 hv
  omega

theorem holds_regular_iff (h0 : 0 < v) (hv : v ≤ maxDigits) (hlo : -half v ≤ lb.val)
    (hle : lb.val ≤ ub.val) (hhi : ub.val < half v) :
    Holds (ofBounds .regular v lb ub) v y ↔ y ∈ signedRange v ∧ lb.val ≤ y ∧ y ≤ ub.val :=
  (ofBounds_regular_inside ⟨h0, hv⟩ hlo hle hhi).holds_iff

/-- Crossed but adjacent Anti bounds exclude nothing. -/
theorem yields_anti_adjacent (h0 : 0 < v) (hv : v ≤ maxDigits) (hadj : lb.val = ub.val + 1)
    (hlo : -half maxDigits ≤ lb.val) (hhi : ub.val < half maxDigits) :
    Yields (ofBounds .anti v lb ub) v .regular (-half v) (half v - 1) := by
  have hP := half_pos v
  have h2 := two_le_half_maxDigits
  have hsucc : ub + MinDelta = lb := SignMag.ext (by rw [add_minDelta_val (by omega), hadj])
  have hpred : lb - MinDelta = ub := SignMag.ext (by rw [sub_minDelta_val (by omega), hadj]; omega)
  apply yields_of_normalizeRange ⟨h0, hv⟩
  simp only [normalizeRange]
  rw [if_pos (by rw [gt_iff_lt, SignMag.lt_iff]; omega), hsucc, hpred, if_pos rfl]
  have hmin := getSignedMinValue_val h0 hv
  have hmax := getSignedMaxValue_val h0 hv
  rw [repair_of_le (by omega)]
  exact yieldsBounds_ok hmin hmax

/-- An Anti range over a gap within the limits, which may be empty. -/
theorem holds_anti_gap_iff (h0 : 0 < v) (hv : v < maxDigits) (hlo : -half v ≤ lb.val)
    (hle : lb.val ≤ ub.val + 1) (hhi : ub.val < half v) :
    Holds (ofBounds .anti v lb ub) v y ↔ y ∈ signedRange v ∧ (y < lb.val ∨ ub.val < y) := by
  have hcap := half_lt_half_maxDigits h0 hv
  by_cases hadj : lb.val = ub.val + 1
  · rw [(yields_anti_adjacent h0 hv.le hadj (by omega) (by omega)).holds_iff, mem_signedRange]
    exact and_congr_right fun hy => iff_of_true ⟨by omega, by omega⟩ (by omega)
  · exact (yields_anti ⟨h0, hv.le⟩ (by omega) (by omega) (by omega)
      ((normalizeAnti_inside ⟨h0, hv.le⟩ hlo (by omega) hhi).repair (by omega))).holds_iff

/-- The interval between the truncated bounds. -/
theorem yields_truncateExtrema_of_le (h0 : 0 < v) (hv : v < maxDigits)
    (hle : signedResidue v a.val ≤ signedResidue v b.val)
    (hx : a.val < 0 → 0 ≤ b.val → signedResidue v a.val ≤ 0 ∧ 0 ≤ signedResidue v b.val) :
    Yields (truncateExtrema v a b) v .regular (signedResidue v a.val)
      (signedResidue v b.val) := by
  have ha := extTrunc_signed_val h0 hv a
  have hb := extTrunc_signed_val h0 hv b
  have hlo := neg_half_le_signedResidue h0 a.val
  have hhi := signedResidue_lt_half h0 b.val
  have hcross : ∀ h : a.val < 0 ∧ 0 ≤ b.val, _ := fun h => hx h.1 h.2
  unfold truncateExtrema
  simp only [extOrTrunc_of_pos h0, ok_bind, zero_le_iff, gt_iff_lt, SignMag.lt_iff, ha, hb,
    SignMag.val_zero]
  rw [if_neg (by omega), if_neg (by omega), if_neg (by omega), ← ha, ← hb]
  exact ofBounds_regular_inside ⟨h0, hv.le⟩ (by omega) (by omega) (by omega)

/-- A range that crosses zero and whose truncated bounds are in order on one
    side of zero has turned around at least once. -/
theorem truncateExtrema_of_turn (h0 : 0 < v) (hv : v < maxDigits) (ha : a.val < 0)
    (hb : 0 ≤ b.val) (hle : signedResidue v a.val ≤ signedResidue v b.val)
    (hside : signedResidue v b.val < 0 ∨ 0 < signedResidue v a.val) :
    truncateExtrema v a b = ofType .regular v := by
  have hs := extTrunc_signed_val h0 hv a
  have ht := extTrunc_signed_val h0 hv b
  unfold truncateExtrema
  simp only [extOrTrunc_of_pos h0, ok_bind, gt_iff_lt, ge_iff_le, SignMag.lt_iff,
    SignMag.le_iff, hs, ht, SignMag.val_zero]
  by_cases hneg : signedResidue v b.val < 0
  · rw [if_pos ⟨ha, hb, hneg⟩, if_pos hle]
  · rw [if_neg (by omega), if_pos ⟨ha, hb, by omega⟩, if_pos hle]

/-- The gap between crossed truncated bounds is excluded. -/
theorem holds_gap_iff (h0 : 0 < v) (hv : v < maxDigits)
    (hgt : signedResidue v b.val < signedResidue v a.val) :
    Holds (ofBounds .anti v (b.extTrunc v true + 1) (a.extTrunc v true - 1)) v y ↔
      y ∈ signedRange v ∧ (y ≤ signedResidue v b.val ∨ signedResidue v a.val ≤ y) := by
  have hlo := neg_half_le_signedResidue h0 b.val
  have hhi := signedResidue_lt_half h0 a.val
  have hsucc : (b.extTrunc v true + 1).val = _ := extTrunc_succ_val h0 hv b
  have hpred : (a.extTrunc v true - 1).val = _ := extTrunc_pred_val h0 hv a
  rw [holds_anti_gap_iff h0 hv (by omega) (by omega) (by omega), hsucc, hpred]
  exact and_congr_right fun _ => by omega

/-- Crossed bounds of a range that is not negative: the complement of the gap. -/
theorem holds_truncateExtrema_of_nonneg (h0 : 0 < v) (hv : v < maxDigits) (ha : 0 ≤ a.val)
    (hgt : signedResidue v b.val < signedResidue v a.val) :
    Holds (truncateExtrema v a b) v y ↔
      y ∈ signedRange v ∧ (y ≤ signedResidue v b.val ∨ signedResidue v a.val ≤ y) := by
  unfold truncateExtrema
  simp only [extOrTrunc_of_pos h0, ok_bind, zero_le_iff, gt_iff_lt, SignMag.lt_iff,
    extTrunc_signed_val h0 hv, SignMag.val_zero]
  rw [if_neg (by omega), if_neg (by omega), if_pos hgt, if_neg (by omega),
    holds_gap_iff h0 hv hgt]

/-- Crossed bounds of a range that crosses zero: no more than the gap is excluded. -/
theorem holds_truncateExtrema_of_crossing (h0 : 0 < v) (hv : v < maxDigits) (ha : a.val < 0)
    (hb : 0 ≤ b.val) (hgt : signedResidue v b.val < signedResidue v a.val)
    (hy : y ∈ signedRange v) (hgap : y ≤ signedResidue v b.val ∨ signedResidue v a.val ≤ y) :
    Holds (truncateExtrema v a b) v y := by
  have hs := extTrunc_signed_val h0 hv a
  have ht := extTrunc_signed_val h0 hv b
  have hlo := neg_half_le_signedResidue h0 b.val
  have hhi := signedResidue_lt_half h0 a.val
  have hP := half_pos v
  have hcap := half_lt_half_maxDigits h0 hv
  have hsucc : (b.extTrunc v true + 1).val = _ := extTrunc_succ_val h0 hv b
  unfold truncateExtrema
  simp only [extOrTrunc_of_pos h0, ok_bind, gt_iff_lt, ge_iff_le, SignMag.lt_iff,
    SignMag.le_iff, hs, ht, SignMag.val_zero]
  by_cases hneg : signedResidue v b.val < 0
  · -- overflow: the gap ends at zero at the latest
    rw [if_pos ⟨ha, hb, hneg⟩, if_neg (by omega)]
    split
    · exact (holds_gap_iff h0 hv hgt).mpr ⟨hy, hgap⟩
    · have hzero : ((0 : APInt) - 1).val = -1 := by
        rw [sub_val] <;> rw [SignMag.val_zero, one_val] <;> omega
      rw [holds_anti_gap_iff h0 hv (by omega) (by omega) (by omega), hsucc, hzero]
      exact ⟨hy, by omega⟩
  · rw [if_neg (by omega), if_pos ⟨ha, hb, by omega⟩, if_neg (by omega), holds_gap_iff h0 hv hgt]
    exact ⟨hy, hgap⟩

/-- Crossed bounds of a negative range come back swapped: the gap is kept and
    what surrounds it is lost. -/
theorem yields_truncateExtrema_of_neg (h0 : 0 < v) (hv : v < maxDigits) (ha : a.val < 0)
    (hb : b.val < 0) (hgt : signedResidue v b.val < signedResidue v a.val) :
    Yields (truncateExtrema v a b) v .regular (signedResidue v b.val)
      (signedResidue v a.val) := by
  have hs := extTrunc_signed_val h0 hv a
  have ht := extTrunc_signed_val h0 hv b
  have hlo := neg_half_le_signedResidue h0 b.val
  have hhi := signedResidue_lt_half h0 a.val
  unfold truncateExtrema
  simp only [extOrTrunc_of_pos h0, ok_bind, zero_le_iff, gt_iff_lt, SignMag.lt_iff, hs, ht,
    SignMag.val_zero]
  rw [if_neg (by omega), if_neg (by omega), if_pos hgt, if_pos ha, ← hs, ← ht]
  exact ofBounds_regular_inside ⟨h0, hv.le⟩ (by omega) (by omega) (by omega)

/-- The extrema `truncate` gets wrong: a negative interval of three or more
    integers whose residues cross the limits of the narrower width. -/
def TruncateLoss (v : Nat) (a b : Int) : Prop :=
  b < 0 ∧ 2 ≤ b - a ∧ b - a < 2 * half v ∧ signedResidue v b < signedResidue v a

theorem holds_truncateExtrema (h0 : 0 < v) (hv : v < maxDigits) (hab : a.val ≤ b.val)
    (hlen : b.val - a.val < 2 * half v) (hloss : ¬ TruncateLoss v a.val b.val) {x : Int}
    (hax : a.val ≤ x) (hxb : x ≤ b.val) : Holds (truncateExtrema v a b) v (signedResidue v x) := by
  have hx : signedResidue v x ∈ signedResidue v '' Set.Icc a.val b.val := ⟨x, ⟨hax, hxb⟩, rfl⟩
  have hmem := signedResidue_mem h0 x
  by_cases hle : signedResidue v a.val ≤ signedResidue v b.val
  · rw [image_Icc_of_le h0 hab hlen hle] at hx
    by_cases hturn : (a.val < 0 ∧ 0 ≤ b.val) ∧
        (signedResidue v b.val < 0 ∨ 0 < signedResidue v a.val)
    · rw [truncateExtrema_of_turn h0 hv hturn.1.1 hturn.1.2 hle hturn.2]
      exact holds_full ⟨h0, hv.le⟩ hmem
    · exact (yields_truncateExtrema_of_le h0 hv hle (by omega)).holds_iff.mpr ⟨hmem, hx⟩
  have hgt : signedResidue v b.val < signedResidue v a.val := by omega
  rw [image_Icc_of_gt h0 hab hlen hgt] at hx
  by_cases hb : 0 ≤ b.val
  · by_cases ha : 0 ≤ a.val
    · exact (holds_truncateExtrema_of_nonneg h0 hv ha hgt).mpr hx
    · exact holds_truncateExtrema_of_crossing h0 hv (by omega) hb hgt hmem hx.2
  · -- two integers at most: they are the ends, and swapping them does no harm
    have htwo : b.val - a.val < 2 := by
      by_contra h
      exact hloss ⟨by omega, by omega, hlen, hgt⟩
    rw [(yields_truncateExtrema_of_neg h0 hv (by omega) (by omega) hgt).holds_iff]
    have hends : x = a.val ∨ x = b.val := by omega
    rcases hends with rfl | rfl
    · exact ⟨hmem, hgt.le, le_refl _⟩
    · exact ⟨hmem, le_refl _, hgt.le⟩

/-- Some integer of an interval `truncate` gets wrong is lost. -/
theorem TruncateLoss.exists_lost (h0 : 0 < v) (hv : v < maxDigits)
    (hloss : TruncateLoss v a.val b.val) : ∃ x, (a.val ≤ x ∧ x ≤ b.val) ∧
      ¬ Holds (truncateExtrema v a b) v (signedResidue v x) := by
  obtain ⟨hb, htwo, hlen, hgt⟩ := hloss
  have himg := image_Icc_of_gt h0 (show a.val ≤ b.val by omega) hlen hgt
  have hends := signedResidue_of_le_of_lt h0 (show a.val ≤ b.val by omega) hlen
  have hlo := neg_half_le_signedResidue h0 b.val
  have hhi := signedResidue_lt_half h0 a.val
  -- the residue next to one of the ends, outside of the two
  have hy : ∃ y ∈ signedRange v, y < signedResidue v b.val ∨ signedResidue v a.val < y := by
    by_cases h : signedResidue v b.val = -half v
    · exact ⟨signedResidue v a.val + 1, ⟨by omega, by omega⟩, Or.inr (by omega)⟩
    · exact ⟨signedResidue v b.val - 1, ⟨by omega, by omega⟩, Or.inl (by omega)⟩
  obtain ⟨y, hy, hout⟩ := hy
  have hyi : y ∈ signedResidue v '' Set.Icc a.val b.val := by
    rw [himg]
    exact ⟨hy, by omega⟩
  obtain ⟨x, hx, rfl⟩ := hyi
  refine ⟨x, hx, fun h => ?_⟩
  rw [(yields_truncateExtrema_of_neg h0 hv (by omega) hb hgt).holds_iff] at h
  obtain ⟨-, h1, h2⟩ := h
  omega

end Extrema

/-! ## `truncate` -/

section Truncate

variable {a : Range} {v : Nat} {x : Int}

theorem getSignedMin_ok (hp : a.Proper) : ∃ m, a.getSignedMin = .ok m := by
  unfold getSignedMin
  rw [throwAssert_of ⟨hp.not_unknown, hp.not_empty⟩, ok_bind]
  simp only
  split <;> exact ⟨_, rfl⟩

theorem getSignedMax_ok (hp : a.Proper) : ∃ m, a.getSignedMax = .ok m := by
  unfold getSignedMax
  rw [throwAssert_of ⟨hp.not_unknown, hp.not_empty⟩, ok_bind]
  simp only
  split <;> exact ⟨_, rfl⟩

theorem truncate_self (hp : a.Proper) : a.truncate a.bw = .ok a := by
  unfold truncate
  rw [if_neg hp.not_empty, if_neg hp.not_unknown, if_pos rfl]

theorem truncate_of_full (hp : a.Proper) (hne : v ≠ a.bw) (h : a.IsFull ∨ a.type = .anti) :
    a.truncate v = ofType .regular v := by
  obtain ⟨lo, hlo⟩ := getSignedMin_ok hp
  obtain ⟨hi, hhi⟩ := getSignedMax_ok hp
  unfold truncate
  rw [if_neg hp.not_empty, if_neg hp.not_unknown, if_neg hne, hlo, hhi, isFullSet_eq hp]
  simp only [ok_bind, decide_eq_true_eq, isAnti_iff]
  rw [if_pos (by rw [← or_assoc]; exact Or.inl h)]

/-- The test for an interval of a turn or more. -/
theorem gt_maxValue_iff (h0 : 0 < v) (hv : v < maxDigits) {lb ub : APInt} (hle : lb.val ≤ ub.val)
    (hlen : ub.val - lb.val < 2 * half maxDigits) :
    (ub - lb).abs > getMaxValue v ↔ 2 * half v ≤ ub.val - lb.val := by
  rw [gt_iff_lt, SignMag.lt_iff, SignMag.val_abs, getMaxValue_val h0 hv, sub_val (by omega) hlen,
    abs_of_nonneg (by omega)]
  omega

theorem truncate_of_limits (ht : a.type = .regular) (hlim : a.InLimits) (hf : ¬ a.IsFull)
    (h0 : 0 < v) (hv : v < a.bw) :
    a.truncate v = if 2 * half v ≤ a.u.val - a.l.val then ofType .regular v
      else truncateExtrema v a.l a.u := by
  have hp : a.Proper := Or.inl ht
  have hcap := half_le_half a.bw_valid.2
  have hvw : v < maxDigits := by
    have := a.bw_valid.2
    omega
  have hspan := gt_maxValue_iff h0 hvw hlim.2.1 (by have := hlim.1; have := hlim.2.2; omega)
  have hna : a.type ≠ .anti := by rw [ht]; decide
  unfold truncate
  rw [if_neg hp.not_empty, if_neg hp.not_unknown, if_neg hv.ne, getSignedMin_of_limits ht hlim,
    getSignedMax_of_limits ht hlim, isFullSet_eq hp]
  simp only [ok_bind, decide_eq_true_eq, isAnti_iff, hspan, hf, hna, false_or]

/-- The ranges and widths for which `truncate` loses a value. -/
def ResizeLoss (a : Range) (v : Nat) : Prop :=
  v < a.bw ∧ a.type = .regular ∧ TruncateLoss v a.l.val a.u.val

theorem not_resizeLoss_of_full (h : a.IsFull ∨ a.type = .anti) : ¬ ResizeLoss a v := by
  rintro ⟨-, ht, hneg, -⟩
  have hP := half_pos a.bw
  rcases h with ⟨-, -, hu⟩ | h
  · omega
  · rw [ht] at h
    cases h

theorem truncate_sound_iff (hp : a.Proper) (hwf : a.WellFormed) (h0 : 0 < v) (hv : v ≤ a.bw) :
    (∀ x ∈ a.gamma, Holds (a.truncate v) v (signedResidue v x)) ↔ ¬ ResizeLoss a v := by
  rcases Nat.lt_or_eq_of_le hv with hlt | rfl
  swap
  · -- the width of the range itself
    refine iff_of_true (fun x hx => ?_) (fun h => absurd h.1 (lt_irrefl _))
    rw [truncate_self hp, holds_ok, signedResidue_of_mem h0 hx.1.1 hx.1.2]
    exact ⟨rfl, hx⟩
  have hvw : v < maxDigits := lt_of_lt_of_le hlt a.bw_valid.2
  by_cases hfull : a.IsFull ∨ a.type = .anti
  · refine iff_of_true (fun x _ => ?_) (not_resizeLoss_of_full hfull)
    rw [truncate_of_full hp hlt.ne hfull]
    exact holds_full_residue ⟨h0, hvw.le⟩ x
  obtain ⟨hf, hna⟩ := not_or.mp hfull
  have ht : a.type = .regular := hp.resolve_right hna
  have hlim : a.InLimits := hwf.inLimits_of_not_full (Or.inl ht) hf
  rw [truncate_of_limits ht hlim hf h0 hlt]
  by_cases hlong : 2 * half v ≤ a.u.val - a.l.val
  · rw [if_pos hlong]
    exact iff_of_true (fun x _ => holds_full_residue ⟨h0, hvw.le⟩ x)
      (fun h => by have := h.2.2.2.2.1; omega)
  rw [if_neg hlong]
  constructor
  · rintro hs ⟨-, -, hloss⟩
    obtain ⟨x, hx, hlost⟩ := hloss.exists_lost h0 hvw
    have h1 := hlim.1
    have h2 := hlim.2.2
    exact hlost (hs x ((mem_gamma_of_regular ht).mpr ⟨⟨by omega, by omega⟩, hx⟩))
  · intro hnl x hx
    have hx' := ((mem_gamma_of_regular ht).mp hx).2
    exact holds_truncateExtrema h0 hvw hlim.2.1 (by omega) (fun h => hnl ⟨hlt, ht, h⟩) hx'.1 hx'.2

end Truncate

/-! ## What truncation returns -/

/-- `x` returns a well-formed Regular or Anti range of width `v`. -/
def ReturnsProper (x : Except Error Range) (v : Nat) : Prop :=
  ∃ r, x = .ok r ∧ r.bw = v ∧ r.Proper ∧ r.WellFormed

section Returns

variable {x : Except Error Range} {v : Nat} {t : RangeType} {p q : Int} {a b : APInt}

theorem Yields.returnsProper (h : Yields x v t p q) (ht : t = .regular ∨ t = .anti)
    (hlo : -half v ≤ p) (hle : p ≤ q) (hhi : q < half v) : ReturnsProper x v := by
  obtain ⟨r, rfl, rfl, rfl, rfl, rfl⟩ := h
  have hlim : r.InLimits := ⟨hlo, hle, hhi⟩
  exact ⟨r, rfl, rfl, ht, fun _ => Or.inr hlim, fun _ => hlim⟩

theorem returnsProper_full (hv : 0 < v ∧ v ≤ maxDigits) : ReturnsProper (ofType .regular v) v := by
  rw [ofType, dif_pos hv]
  exact ⟨_, rfl, rfl, Or.inl rfl, fun _ => Or.inl ⟨rfl, rfl⟩, fun h => by cases h⟩

theorem returnsProper_regular (hv : 0 < v ∧ v ≤ maxDigits) (hlo : -half v ≤ a.val)
    (hle : a.val ≤ b.val) (hhi : b.val < half v) : ReturnsProper (ofBounds .regular v a b) v :=
  (ofBounds_regular_inside hv hlo hle hhi).returnsProper (Or.inl rfl) hlo hle hhi

theorem returnsProper_antiGap (h0 : 0 < v) (hv : v < maxDigits) (hlo : -half v ≤ a.val)
    (hle : a.val ≤ b.val + 1) (hhi : b.val < half v) : ReturnsProper (ofBounds .anti v a b) v := by
  have hcap := half_lt_half_maxDigits h0 hv
  have hP := half_pos v
  by_cases hadj : a.val = b.val + 1
  · exact (yields_anti_adjacent h0 hv.le hadj (by omega) (by omega)).returnsProper (Or.inl rfl)
      (le_refl _) (by omega) (by omega)
  · have hy : Yields (ofBounds .anti v a b) v _ _ _ := yields_anti ⟨h0, hv.le⟩ (by omega)
      (by omega) (by omega) ((normalizeAnti_inside ⟨h0, hv.le⟩ hlo (by omega) hhi).repair (by omega))
    exact hy.returnsProper (Or.inr rfl) hlo (by omega) hhi

theorem truncateExtrema_returnsProper (h0 : 0 < v) (hv : v < maxDigits) :
    ReturnsProper (truncateExtrema v a b) v := by
  have hs := extTrunc_signed_val h0 hv a
  have ht := extTrunc_signed_val h0 hv b
  obtain ⟨hs1, hs2⟩ := signedResidue_mem h0 a.val
  obtain ⟨ht1, ht2⟩ := signedResidue_mem h0 b.val
  have hP := half_pos v
  have hcap := half_lt_half_maxDigits h0 hv
  have hsucc : (b.extTrunc v true + 1).val = (b.extTrunc v true).val + 1 :=
    add_minDelta_val (by omega)
  have hpred : (a.extTrunc v true - 1).val = (a.extTrunc v true).val - 1 :=
    sub_minDelta_val (by omega)
  have hzero : ((0 : APInt) - 1).val = -1 := by
    rw [sub_val] <;> rw [SignMag.val_zero, one_val] <;> omega
  unfold truncateExtrema
  simp only [extOrTrunc_of_pos h0, ok_bind, gt_iff_lt, ge_iff_le, SignMag.lt_iff, SignMag.le_iff,
    hs, ht, SignMag.val_zero]
  split_ifs with h1 h2 h3 h4 h5 h6 h7
  · exact returnsProper_full ⟨h0, hv.le⟩
  · exact returnsProper_antiGap h0 hv (by omega) (by omega) (by omega)
  · exact returnsProper_antiGap h0 hv (by omega) (by omega) (by omega)
  · exact returnsProper_full ⟨h0, hv.le⟩
  · exact returnsProper_antiGap h0 hv (by omega) (by omega) (by omega)
  · exact returnsProper_regular ⟨h0, hv.le⟩ (by omega) (by omega) (by omega)
  · exact returnsProper_antiGap h0 hv (by omega) (by omega) (by omega)
  · exact returnsProper_regular ⟨h0, hv.le⟩ (by omega) (by omega) (by omega)

/-- Truncation of a well-formed range never throws. -/
theorem truncate_returnsProper {r : Range} (hp : r.Proper) (hwf : r.WellFormed) (h0 : 0 < v)
    (hv : v ≤ r.bw) : ReturnsProper (r.truncate v) v := by
  rcases Nat.lt_or_eq_of_le hv with hlt | rfl
  swap
  · exact ⟨r, truncate_self hp, rfl, hp, hwf⟩
  have hvw : v < maxDigits := lt_of_lt_of_le hlt r.bw_valid.2
  by_cases hfull : r.IsFull ∨ r.type = .anti
  · rw [truncate_of_full hp hlt.ne hfull]
    exact returnsProper_full ⟨h0, hvw.le⟩
  obtain ⟨hf, hna⟩ := not_or.mp hfull
  have ht : r.type = .regular := hp.resolve_right hna
  have hlim : r.InLimits := hwf.inLimits_of_not_full (Or.inl ht) hf
  rw [truncate_of_limits ht hlim hf h0 hlt]
  split
  · exact returnsProper_full ⟨h0, hvw.le⟩
  · exact truncateExtrema_returnsProper h0 hvw

end Returns

/-! ## Extension -/

section Extend

variable {a : Range} {v : Nat} {x : Int}

/-- A signed value of a narrower width is extended to itself, at the capacity too. -/
theorem extTrunc_signed_of_mem (h0 : 0 < v) (hv : v ≤ maxDigits) {y : APInt}
    (hlo : -half v ≤ y.val) (hhi : y.val < half v) : (y.extTrunc v true).val = y.val := by
  rcases Nat.lt_or_eq_of_le hv with hlt | rfl
  · rw [extTrunc_signed_val h0 hlt, signedResidue_of_mem h0 hlo hhi]
  · rw [extTrunc_maxDigits]

/-- The signed extrema of a range enclose its values. -/
theorem exists_signedHull (hp : a.Proper) (hwf : a.WellFormed) :
    ∃ lo hi, a.getSignedMin = .ok lo ∧ a.getSignedMax = .ok hi ∧ -half a.bw ≤ lo.val ∧
      lo.val ≤ hi.val ∧ hi.val < half a.bw ∧ ∀ x ∈ a.gamma, lo.val ≤ x ∧ x ≤ hi.val := by
  have hP := half_pos a.bw
  rcases hp with ht | ht
  · rcases hwf.1 ht with ⟨hl, hu⟩ | hlim
    · obtain ⟨lo, hlo, hlov⟩ := getSignedMin_of_infinite ht hl
      obtain ⟨hi, hhi, hhiv⟩ := getSignedMax_of_infinite ht hu
      refine ⟨lo, hi, hlo, hhi, by omega, by omega, by omega, fun x hx => ?_⟩
      have := hx.1
      omega
    · exact ⟨a.l, a.u, getSignedMin_of_limits ht hlim, getSignedMax_of_limits ht hlim, hlim.1,
        hlim.2.1, hlim.2.2, fun x hx => ((mem_gamma_of_regular ht).mp hx).2⟩
  · have hmin := getSignedMinValue_val a.bw_valid.1 a.bw_valid.2
    have hmax := getSignedMaxValue_val a.bw_valid.1 a.bw_valid.2
    refine ⟨_, _, getSignedMin_of_anti ht, getSignedMax_of_anti ht, by omega, by omega, by omega,
      fun x hx => ?_⟩
    have := hx.1
    omega

/-- A sign extension encloses the values, in a well-formed range. -/
theorem exists_sext (hp : a.Proper) (hwf : a.WellFormed) (hv : a.bw < v) (hcap : v ≤ maxDigits) :
    ∃ r, a.sextOrTrunc v = .ok r ∧ r.bw = v ∧ r.Proper ∧ r.WellFormed ∧
      ∀ x ∈ a.gamma, x ∈ r.gamma := by
  have h0 : 0 < v := by omega
  obtain ⟨lo, hi, hlo, hhi, h1, h2, h3, hin⟩ := exists_signedHull hp hwf
  have hP := half_pos a.bw
  have hdouble := two_mul_half_le a.bw_valid.1 hv
  have hlov := extTrunc_signed_of_mem (y := lo) h0 hcap (by omega) (by omega)
  have hhiv := extTrunc_signed_of_mem (y := hi) h0 hcap (by omega) (by omega)
  obtain ⟨r, hr, hrbw, hrt, hrl, hru⟩ :
      Yields (ofBounds .regular v (lo.extTrunc v true) (hi.extTrunc v true)) v .regular _ _ :=
    ofBounds_regular_inside ⟨h0, hcap⟩ (by omega) (by omega) (by omega)
  unfold sextOrTrunc
  rw [if_neg (by omega), if_neg hp.not_empty, if_neg hp.not_unknown, hlo, hhi]
  simp only [ok_bind, extOrTrunc_of_pos h0, SignMag.lt_iff]
  rw [if_neg (by omega), if_neg (by omega), hr, ok_bind, isFullSet_eq (Or.inl hrt), ok_bind]
  split
  · obtain ⟨f, hf, hfbw, hfp, hfwf⟩ := returnsProper_full (v := v) ⟨h0, hcap⟩
    refine ⟨f, hf, hfbw, hfp, hfwf, fun x hx => ?_⟩
    have hbetween := hin x hx
    have hholds := holds_full (v := x) ⟨h0, hcap⟩ ⟨by omega, by omega⟩
    rw [hf, holds_ok] at hholds
    exact hholds.2
  · refine ⟨r, rfl, hrbw, .inl hrt, ⟨fun _ => .inr ⟨?_, ?_, ?_⟩, fun h => ?_⟩, fun x hx => ?_⟩
    · rw [hrbw]
      omega
    · omega
    · rw [hrbw]
      omega
    · rw [hrt] at h
      cases h
    · have hbetween := hin x hx
      rw [mem_gamma_of_regular hrt, hrbw]
      exact ⟨⟨by omega, by omega⟩, by omega, by omega⟩

theorem sextOrTrunc_sound (hp : a.Proper) (hwf : a.WellFormed) (hv : a.bw < v)
    (hcap : v ≤ maxDigits) (hx : x ∈ a.gamma) : Holds (a.sextOrTrunc v) v x := by
  obtain ⟨r, hr, hbw, -, -, hin⟩ := exists_sext hp hwf hv hcap
  exact ⟨r, hr, hbw, hin x hx⟩

/-- A bounded unsigned maximum of an Anti range: minus one and zero are excluded. -/
theorem excludes_zero_of_unsignedMax_lt (ht : a.type = .anti) (hlim : a.InLimits) {umax : APInt}
    (hmax : a.getUnsignedMax = .ok umax) (hlt : umax < getMaxValue a.bw) :
    a.l.val ≤ 0 ∧ -1 ≤ a.u.val := by
  have hp : a.Proper := Or.inr ht
  have hcap := half_le_half a.bw_valid.2
  have h2 := two_le_half_maxDigits
  have h1 := hlim.l_mem
  have h3 := hlim.u_mem
  have hpred : (a.l - MinDelta).val = a.l.val - 1 := sub_minDelta_val (by omega)
  have hsucc : (a.u + MinDelta).val = a.u.val + 1 := add_minDelta_val (by omega)
  unfold getUnsignedMax at hmax
  rw [throwAssert_of ⟨hp.not_unknown, hp.not_empty⟩, ok_bind, if_pos (isAnti_iff.mpr ht)] at hmax
  simp only [zero_le_iff, lt_zero_iff, hpred, hsucc] at hmax
  by_contra hout
  rw [if_pos (by omega)] at hmax
  injection hmax with hmax
  rw [hmax, SignMag.lt_iff] at hlt
  omega

/-- The bounds of a zero extension enclose the unsigned readings. -/
theorem exists_zextHull (hp : a.Proper) (hwf : a.WellFormed) (hv : a.bw < v)
    (hcap : v ≤ maxDigits) : ∃ lb ub, a.zextOrTrunc v = ofBounds .regular v lb ub ∧ 0 ≤ lb.val ∧
      ub.val < 2 * half a.bw ∧ ∀ x ∈ a.gamma, lb.val ≤ x % 2 ^ a.bw ∧ x % 2 ^ a.bw ≤ ub.val := by
  have hw0 := a.bw_valid.1
  have hw : a.bw < maxDigits := by omega
  have hP := half_pos a.bw
  have hmaxV := getMaxValue_val hw0 hw
  have hbounds : ∀ x : Int, 0 ≤ x % 2 ^ a.bw ∧ x % 2 ^ a.bw < 2 * half a.bw := fun x => by
    rw [two_mul_half hw0]
    exact ⟨Int.emod_nonneg _ (by positivity), Int.emod_lt_of_pos _ (by positivity)⟩
  have hall : ∃ lb ub, ofBounds .regular v 0 (getMaxValue a.bw) = ofBounds .regular v lb ub ∧
      0 ≤ lb.val ∧ ub.val < 2 * half a.bw ∧
      ∀ x ∈ a.gamma, lb.val ≤ x % 2 ^ a.bw ∧ x % 2 ^ a.bw ≤ ub.val := by
    have hzero : (0 : APInt).val = 0 := SignMag.val_zero
    refine ⟨_, _, rfl, hzero.ge, by omega, fun x _ => ?_⟩
    have hx := hbounds x
    omega
  unfold zextOrTrunc
  rw [if_neg (by omega), if_neg hp.not_empty, if_neg hp.not_unknown]
  by_cases hanti : a.isAnti = true
  · have ht := isAnti_iff.mp hanti
    obtain ⟨hl1, hl2, hl3⟩ := hwf.2 ht
    have hcapw := half_le_half hw.le
    obtain ⟨umin, umax, hmin, hmax, -, hub, hull⟩ := exists_unsignedHull hw hp hwf
    rw [if_pos hanti, hmax, ok_bind]
    split
    · rename_i hsmall
      obtain ⟨hl0, hu0⟩ := excludes_zero_of_unsignedMax_lt ht (hwf.2 ht) hmax hsmall
      have hsucc : (a.u + 1).val = a.u.val + 1 := add_minDelta_val (by omega)
      refine ⟨_, _, rfl, by omega, hub, fun x hx => ⟨?_, (hull x hx).2⟩⟩
      have hx' := (mem_gamma_of_anti ht).mp hx
      by_cases hx0 : 0 ≤ x
      · rw [emod_of_nonneg hw0 hx0 (by omega)]
        omega
      · rw [emod_of_neg hw0 (by omega) (by omega)]
        omega
    · exact hall
  · obtain ⟨lo, hi, hlo, hhi, h1, h2, h3, hin⟩ := exists_signedHull hp hwf
    rw [if_neg hanti, hlo, hhi]
    simp only [ok_bind, lt_zero_iff, zero_le_iff, extOrTrunc_of_pos hw0]
    by_cases hcross : lo.val < 0 ∧ 0 ≤ hi.val
    · rw [if_pos hcross]
      exact hall
    · -- all values have one sign, and their unsigned readings keep their order
      rw [if_neg hcross]
      by_cases hneg : hi.val < 0
      · have hlov := extTrunc_unsigned_of_neg (v := lo) hw0 hw (by omega) (by omega)
        have hhiv := extTrunc_unsigned_of_neg (v := hi) hw0 hw hneg (by omega)
        refine ⟨_, _, rfl, by omega, by omega, fun x hx => ?_⟩
        have hx' := hin x hx
        have hxv := emod_of_neg hw0 (x := x) (by omega) (by omega)
        omega
      · have hlov := extTrunc_unsigned_of_nonneg (v := lo) hw0 hw (by omega) (by omega)
        have hhiv := extTrunc_unsigned_of_nonneg (v := hi) hw0 hw (by omega) (by omega)
        refine ⟨_, _, rfl, by omega, by omega, fun x hx => ?_⟩
        have hx' := hin x hx
        have hxv := emod_of_nonneg hw0 (x := x) (by omega) (by omega)
        omega

/-- A zero extension encloses the unsigned readings, in a well-formed range. -/
theorem exists_zext (hp : a.Proper) (hwf : a.WellFormed) (hv : a.bw < v) (hcap : v ≤ maxDigits)
    (hx : x ∈ a.gamma) :
    ∃ r, a.zextOrTrunc v = .ok r ∧ r.bw = v ∧ r.Proper ∧ r.WellFormed ∧
      ∀ y ∈ a.gamma, y % 2 ^ a.bw ∈ r.gamma := by
  have h0 : 0 < v := by omega
  have hP := half_pos a.bw
  have hdouble := two_mul_half_le a.bw_valid.1 hv
  obtain ⟨lb, ub, heq, hlb, hub, hull⟩ := exists_zextHull hp hwf hv hcap
  have hle := hull x hx
  obtain ⟨r, hr, hbw, ht, hl, hu⟩ := ofBounds_regular_inside ⟨h0, hcap⟩
    (show -half v ≤ lb.val by omega) (show lb.val ≤ ub.val by omega) (by omega)
  refine ⟨r, heq.trans hr, hbw, .inl ht, ⟨fun _ => .inr ⟨?_, ?_, ?_⟩, fun h => ?_⟩, fun y hy => ?_⟩
  · rw [hbw]
    omega
  · omega
  · rw [hbw]
    omega
  · rw [ht] at h
    cases h
  · have hbetween := hull y hy
    rw [mem_gamma_of_regular ht, hbw]
    exact ⟨⟨by omega, by omega⟩, by omega, by omega⟩

theorem zextOrTrunc_sound (hp : a.Proper) (hwf : a.WellFormed) (hv : a.bw < v)
    (hcap : v ≤ maxDigits) (hx : x ∈ a.gamma) :
    Holds (a.zextOrTrunc v) v (signedResidue v (x % 2 ^ a.bw)) := by
  obtain ⟨r, hr, rfl, -, -, hin⟩ := exists_zext hp hwf hv hcap hx
  have hmem := hin x hx
  rw [signedResidue_of_mem r.bw_valid.1 hmem.1.1 hmem.1.2]
  exact ⟨r, hr, rfl, hmem⟩

end Extend

/-! ## The three together -/

/-- Every value of `a` is kept by the resizing to `v` bits. -/
def ResizeSound (a : Range) (v : Nat) : Prop :=
  ∀ x ∈ a.gamma,
    (v ≤ a.bw → Holds (a.truncate v) v (signedResidue v x)) ∧
    (a.bw < v → Holds (a.sextOrTrunc v) v x ∧
      Holds (a.zextOrTrunc v) v (signedResidue v (x % 2 ^ a.bw)))

theorem Holds.width_le {x : Except Error Range} {v : Nat} {y : Int} (h : Holds x v y) :
    v ≤ maxDigits := by
  obtain ⟨r, -, rfl, -⟩ := h
  exact r.bw_valid.2

/-- The ranges and widths for which resizing keeps every value. -/
theorem resize_sound_iff (a : Range) (hp : a.Proper) (hwf : a.WellFormed) (v : Nat)
    (h0 : 0 < v) :
    ResizeSound a v ↔ a.gamma = ∅ ∨ (v ≤ maxDigits ∧ ¬ ResizeLoss a v) := by
  rcases Set.eq_empty_or_nonempty a.gamma with hemp | ⟨x0, hx0⟩
  · refine iff_of_true (fun x hx => ?_) (Or.inl hemp)
    rw [hemp] at hx
    exact hx.elim
  have hne : a.gamma ≠ ∅ := fun h => by
    rw [h] at hx0
    exact hx0
  rw [or_iff_right hne]
  rcases Nat.lt_or_ge a.bw v with hv | hv
  · constructor
    · intro hs
      exact ⟨((hs x0 hx0).2 hv).1.width_le, fun h => by have := h.1; omega⟩
    · rintro ⟨hcap, -⟩ x hx
      exact ⟨fun h => by omega, fun _ => ⟨sextOrTrunc_sound hp hwf hv hcap hx,
        zextOrTrunc_sound hp hwf hv hcap hx⟩⟩
  · have hiff := truncate_sound_iff hp hwf h0 hv
    constructor
    · intro hs
      exact ⟨hv.trans a.bw_valid.2, hiff.mp fun x hx => (hs x hx).1 hv⟩
    · rintro ⟨-, hnl⟩ x hx
      exact ⟨fun _ => hiff.mpr hnl x hx, fun h => by omega⟩

/-- An interval of eight bits, and one of four that loses a value to three. -/
def lostResidue : {p : Range × Range // p.1.WellFormed ∧ p.2.WellFormed ∧ (-5 : Int) ∈ p.2.gamma ∧
    ¬ Holds (p.2.truncate 3) 3 (signedResidue 3 (-5))} :=
  ⟨(⟨-20, -5, 8, .regular, bwValid_eight⟩, ⟨-6, -4, 4, .regular, bwValid_four⟩), by decide +kernel⟩

theorem resize_sound_iff_at_eight :
    ResizeSound ⟨-20, -5, 8, .regular, by decide⟩ 4 ↔
      (⟨-20, -5, 8, .regular, by decide⟩ : Range).gamma = ∅ ∨
        (4 ≤ maxDigits ∧ ¬ ResizeLoss ⟨-20, -5, 8, .regular, by decide⟩ 4) :=
  resize_sound_iff _ (Or.inl rfl) lostResidue.property.1 4 (by decide)

/-- Minus six to minus four are two, three and minus four in three bits;
    `truncate` returns what lies between minus four and two, so three is lost. -/
theorem resize_not_sound :
    ¬ ∀ a : Range, a.Proper → a.WellFormed → ∀ v : Nat, 0 < v → ResizeSound a v := by
  intro h
  obtain ⟨-, hwf, hx, hlost⟩ := lostResidue.property
  exact hlost ((h _ (Or.inl rfl) hwf 3 (by decide) (-5) hx).1 (by decide))

end Range
end Bambu
