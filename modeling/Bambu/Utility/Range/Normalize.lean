/-
  Bambu.Utility.Range.Normalize

  What the constructor `Range(rType, bw, lb, ub)` returns, position by position
  of the two bounds with respect to the signed limits of the width.

  `Yields x w t a b` says that `x` returns a range of width `w`, type `t` and
  bounds `a`, `b`; `Holds x w v` that it returns a range of width `w` with `v`
  in it.  The operations only ever need the second, which `Yields.holds_iff`
  reads off the first.
-/

import Bambu.Utility.Range.Basic

namespace Bambu
namespace Range

open Bambu.Math APInt

/-! ## Comparisons with the limits of the width -/

section Limits

variable {w : Nat} {a b : APInt}

theorem gt_signedMax_iff (hw : 0 < w ∧ w ≤ maxDigits) :
    a > getSignedMaxValue w ↔ half w ≤ a.val := by
  rw [gt_iff_lt, SignMag.lt_iff, getSignedMaxValue_val hw.1 hw.2]
  omega

theorem lt_signedMin_iff (hw : 0 < w ∧ w ≤ maxDigits) :
    a < getSignedMinValue w ↔ a.val < -half w := by
  rw [SignMag.lt_iff, getSignedMinValue_val hw.1 hw.2]

theorem eq_min_iff : a = Min ↔ a.val = -half maxDigits := by rw [SignMag.eq_iff, min_val]

theorem eq_max_iff : a = Max ↔ a.val = half maxDigits - 1 := by rw [SignMag.eq_iff, max_val]

/-- The span test, away from the capacity. -/
theorem span_lt_iff (h0 : 0 < w) (hw : w < maxDigits) (hab : a.val ≤ b.val)
    (hlen : b.val - a.val < 2 * half maxDigits) :
    (b - a).abs < getMaxValue w ↔ b.val - a.val < 2 * half w - 1 := by
  rw [SignMag.lt_iff, SignMag.val_abs, getMaxValue_val h0 hw, sub_val (by omega) hlen,
    abs_of_nonneg (by omega)]

theorem not_span_lt (h0 : 0 < w) (hw : w < maxDigits) (hlen : 2 * half w - 1 ≤ b.val - a.val)
    (hcap : b.val - a.val < 2 * half maxDigits) : ¬ (b - a).abs < getMaxValue w := by
  have hP := half_pos w
  rw [span_lt_iff h0 hw (by omega) hcap]
  omega

/-- At the capacity the span test never succeeds. -/
theorem not_span_lt_maxDigits : ¬ (b - a).abs < getMaxValue maxDigits := by
  rw [SignMag.lt_iff, SignMag.val_abs, getMaxValue_maxDigits]
  have := abs_nonneg (b - a).val
  omega

theorem sub_minDelta_val (h : -(2 * half maxDigits) + 1 < a.val) :
    (a - MinDelta).val = a.val - 1 := by
  have := a.bounds
  rw [sub_val] <;> rw [minDelta_val] <;> omega

theorem add_minDelta_val (h : a.val + 1 < 2 * half maxDigits) :
    (a + MinDelta).val = a.val + 1 := by
  have := a.bounds
  rw [add_val] <;> rw [minDelta_val] <;> omega

end Limits

/-! ## The finite bodies -/

/-- `x` returns a record of type `t` with bounds `a` and `b`. -/
def YieldsBounds (x : Except Error Bounds) (t : RangeType) (a b : Int) : Prop :=
  ∃ d, x = .ok d ∧ d.type = t ∧ d.l.val = a ∧ d.u.val = b

theorem yieldsBounds_ok {t : RangeType} {l u : APInt} {a b : Int} (hl : l.val = a)
    (hu : u.val = b) : YieldsBounds (.ok ⟨t, l, u⟩) t a b := ⟨_, rfl, rfl, hl, hu⟩

section Bodies

variable {w : Nat} {lb ub : APInt}

/-- The two limits, in the order a Regular range stores them. -/
theorem yieldsBounds_limits (hw : 0 < w ∧ w ≤ maxDigits) (t : RangeType) :
    YieldsBounds (.ok ⟨t, getSignedMinValue w, getSignedMaxValue w⟩) t (-half w) (half w - 1) :=
  yieldsBounds_ok (getSignedMinValue_val hw.1 hw.2) (getSignedMaxValue_val hw.1 hw.2)

/-- The two limits, crossed. -/
theorem yieldsBounds_crossed (hw : 0 < w ∧ w ≤ maxDigits) (t : RangeType) :
    YieldsBounds (.ok ⟨t, getSignedMaxValue w, getSignedMinValue w⟩) t (half w - 1) (-half w) :=
  yieldsBounds_ok (getSignedMaxValue_val hw.1 hw.2) (getSignedMinValue_val hw.1 hw.2)

/-- `normalizeRegular` on bounds in order, its tests read on the values. -/
theorem normalizeRegular_eq (hw : 0 < w ∧ w ≤ maxDigits) (hle : lb.val ≤ ub.val) :
    normalizeRegular w lb ub =
      if half w ≤ ub.val ∧ lb.val < -half w then
        .ok ⟨.regular, getSignedMaxValue w, getSignedMinValue w⟩
      else if half w ≤ lb.val then .ok ⟨.regular, lb.extTrunc w true, ub.extTrunc w true⟩
      else if ub.val < -half w then .ok ⟨.regular, ub.extTrunc w true, lb.extTrunc w true⟩
      else if half w ≤ ub.val then
        if (ub - lb).abs < getMaxValue w ∧ ub.extTrunc w true ≠ lb - MinDelta then
          .ok ⟨.anti, ub.extTrunc w true + MinDelta, lb - MinDelta⟩
        else .ok ⟨.regular, getSignedMaxValue w, getSignedMinValue w⟩
      else if lb.val < -half w then
        if (ub - lb).abs < getMaxValue w ∧ lb.extTrunc w true ≠ ub + MinDelta then
          .ok ⟨.anti, ub + MinDelta, lb.extTrunc w true - MinDelta⟩
        else .ok ⟨.regular, getSignedMaxValue w, getSignedMinValue w⟩
      else .ok ⟨.regular, lb, ub⟩ := by
  have hP := half_pos w
  unfold normalizeRegular
  simp only [throwAssert_of (SignMag.le_iff.mpr hle), ok_bind, gt_signedMax_iff hw,
    lt_signedMin_iff hw]
  refine if_ctx_congr Iff.rfl (fun _ => rfl) fun _ => if_ctx_congr (by omega) (fun _ => rfl)
    fun _ => if_ctx_congr (by omega) (fun _ => rfl) fun _ => ?_
  exact if_ctx_congr (by omega) (fun _ => rfl) fun _ => if_ctx_congr (by omega) (fun _ => rfl)
    fun _ => if_pos (by omega)

/-- `normalizeAnti` on bounds in order, its tests read on the values. -/
theorem normalizeAnti_eq (hw : 0 < w ∧ w ≤ maxDigits) (hle : lb.val ≤ ub.val) :
    normalizeAnti w lb ub =
      if half w ≤ lb.val then
        if (ub - lb).abs < getMaxValue w then
          .ok ⟨.anti, lb.extTrunc w true, ub.extTrunc w true⟩
        else .ok ⟨.regular, getSignedMinValue w, getSignedMaxValue w⟩
      else if ub.val < -half w then
        if (ub - lb).abs < getMaxValue w then
          .ok ⟨.anti, ub.extTrunc w true, lb.extTrunc w true⟩
        else .ok ⟨.regular, getSignedMinValue w, getSignedMaxValue w⟩
      else if ¬ lb.val < -half w ∧ half w ≤ ub.val then
        if (ub - lb).abs < getMaxValue w ∧ ub.extTrunc w true ≠ lb - MinDelta then
          .ok ⟨.regular, ub.extTrunc w true + MinDelta, lb - MinDelta⟩
        else .ok ⟨.regular, getSignedMinValue w, getSignedMaxValue w⟩
      else if lb.val < -half w ∧ ub.val < half w then
        if (ub - lb).abs < getMaxValue w ∧ lb.extTrunc w true ≠ ub + MinDelta then
          .ok ⟨.regular, ub + MinDelta, lb.extTrunc w true - MinDelta⟩
        else .ok ⟨.regular, getSignedMinValue w, getSignedMaxValue w⟩
      else if ¬ lb.val < -half w then .ok ⟨.anti, lb, ub⟩
      else .error (.unreachable "unexpected condition") := by
  have hP := half_pos w
  unfold normalizeAnti
  simp only [throwAssert_of (SignMag.le_iff.mpr hle), ok_bind, gt_signedMax_iff hw,
    lt_signedMin_iff hw]
  refine if_ctx_congr (by omega) (fun _ => rfl) fun _ => if_ctx_congr (by omega) (fun _ => rfl)
    fun _ => if_ctx_congr Iff.rfl (fun _ => rfl) fun _ => ?_
  exact if_ctx_congr (by omega) (fun _ => rfl) fun _ => if_congr (by omega) rfl rfl

theorem normalizeRegular_inside (hw : 0 < w ∧ w ≤ maxDigits) (hlo : -half w ≤ lb.val)
    (hle : lb.val ≤ ub.val) (hhi : ub.val < half w) :
    YieldsBounds (normalizeRegular w lb ub) .regular lb.val ub.val := by
  rw [normalizeRegular_eq hw hle, if_neg (by omega), if_neg (by omega), if_neg (by omega),
    if_neg (by omega), if_neg (by omega)]
  exact yieldsBounds_ok rfl rfl

theorem normalizeRegular_across (hw : 0 < w ∧ w ≤ maxDigits) (hlo : lb.val < -half w)
    (hhi : half w ≤ ub.val) :
    YieldsBounds (normalizeRegular w lb ub) .regular (half w - 1) (-half w) := by
  have hP := half_pos w
  rw [normalizeRegular_eq hw (by omega), if_pos ⟨hhi, hlo⟩]
  exact yieldsBounds_crossed hw _

theorem normalizeRegular_above (h0 : 0 < w) (hw : w < maxDigits) (hlo : half w ≤ lb.val)
    (hle : lb.val ≤ ub.val) :
    YieldsBounds (normalizeRegular w lb ub) .regular
      (signedResidue w lb.val) (signedResidue w ub.val) := by
  have hP := half_pos w
  rw [normalizeRegular_eq ⟨h0, hw.le⟩ hle, if_neg (by omega), if_pos hlo]
  exact yieldsBounds_ok (extTrunc_signed_val h0 hw lb) (extTrunc_signed_val h0 hw ub)

theorem normalizeRegular_below (h0 : 0 < w) (hw : w < maxDigits) (hle : lb.val ≤ ub.val)
    (hhi : ub.val < -half w) :
    YieldsBounds (normalizeRegular w lb ub) .regular
      (signedResidue w ub.val) (signedResidue w lb.val) := by
  have hP := half_pos w
  rw [normalizeRegular_eq ⟨h0, hw.le⟩ hle, if_neg (by omega), if_neg (by omega), if_pos hhi]
  exact yieldsBounds_ok (extTrunc_signed_val h0 hw ub) (extTrunc_signed_val h0 hw lb)

/-- A bound past the upper limit by less than a turn. -/
theorem signedResidue_past_upper (h0 : 0 < w) {y : Int} (hy : half w ≤ y)
    (hy' : y < 3 * half w) : signedResidue w y = y - 2 * half w := by
  rw [← signedResidue_sub_turn h0, signedResidue_of_mem h0 (by omega) (by omega)]

/-- A bound past the lower limit by less than a turn. -/
theorem signedResidue_past_lower (h0 : 0 < w) {x : Int} (hx : x < -half w)
    (hx' : -(3 * half w) ≤ x) : signedResidue w x = x + 2 * half w := by
  rw [← signedResidue_add_turn h0, signedResidue_of_mem h0 (by omega) (by omega)]

theorem extTrunc_past_upper (h0 : 0 < w) (hw : w < maxDigits) (hub : half w ≤ ub.val)
    (hlen : ub.val < 3 * half w) : (ub.extTrunc w true).val = ub.val - 2 * half w :=
  (extTrunc_signed_val h0 hw ub).trans (signedResidue_past_upper h0 hub hlen)

theorem extTrunc_past_lower (h0 : 0 < w) (hw : w < maxDigits) (hlb : lb.val < -half w)
    (hlen : -(3 * half w) ≤ lb.val) : (lb.extTrunc w true).val = lb.val + 2 * half w :=
  (extTrunc_signed_val h0 hw lb).trans (signedResidue_past_lower h0 hlb hlen)

theorem normalizeRegular_past_upper (h0 : 0 < w) (hw : w < maxDigits) (hlo : -half w ≤ lb.val)
    (hlb : lb.val < half w) (hub : half w ≤ ub.val) (hlen : ub.val - lb.val < 2 * half w - 1) :
    YieldsBounds (normalizeRegular w lb ub) .anti (ub.val - 2 * half w + 1) (lb.val - 1) := by
  have hcap := two_mul_half_le h0 hw
  have hsub : (lb - MinDelta).val = lb.val - 1 := sub_minDelta_val (by omega)
  have hext := extTrunc_past_upper h0 hw hub (by omega)
  simp only [normalizeRegular_eq ⟨h0, hw.le⟩ (hlb.le.trans hub),
    span_lt_iff h0 hw (hlb.le.trans hub) (by omega), SignMag.eq_iff, ne_eq, hsub, hext]
  rw [if_neg (by omega), if_neg (by omega), if_neg (by omega), if_pos hub,
    if_pos ⟨hlen, by omega⟩]
  exact yieldsBounds_ok (by rw [add_minDelta_val (by omega), hext]) hsub

theorem normalizeRegular_past_upper_long (h0 : 0 < w) (hw : w < maxDigits)
    (hlo : -half w ≤ lb.val) (hlb : lb.val < half w) (hub : half w ≤ ub.val)
    (hlen : 2 * half w - 1 ≤ ub.val - lb.val) (hcap : ub.val - lb.val < 2 * half maxDigits) :
    YieldsBounds (normalizeRegular w lb ub) .regular (half w - 1) (-half w) := by
  have hle : lb.val ≤ ub.val := hlb.le.trans hub
  rw [normalizeRegular_eq ⟨h0, hw.le⟩ hle, if_neg (by omega), if_neg (by omega),
    if_neg (by omega), if_pos hub,
    if_neg fun h => not_span_lt h0 hw hlen hcap h.1]
  exact yieldsBounds_crossed ⟨h0, hw.le⟩ _

theorem normalizeRegular_past_lower (h0 : 0 < w) (hw : w < maxDigits) (hlb : lb.val < -half w)
    (hlo : -half w ≤ ub.val) (hub : ub.val < half w) (hlen : ub.val - lb.val < 2 * half w - 1) :
    YieldsBounds (normalizeRegular w lb ub) .anti (ub.val + 1) (lb.val + 2 * half w - 1) := by
  have hcap := two_mul_half_le h0 hw
  have hle : lb.val ≤ ub.val := hlb.le.trans hlo
  have hadd : (ub + MinDelta).val = ub.val + 1 := add_minDelta_val (by omega)
  have hext := extTrunc_past_lower h0 hw hlb (by omega)
  simp only [normalizeRegular_eq ⟨h0, hw.le⟩ hle, span_lt_iff h0 hw hle (by omega),
    SignMag.eq_iff, ne_eq, hadd, hext]
  rw [if_neg (by omega), if_neg (by omega), if_neg (by omega), if_neg (by omega), if_pos hlb,
    if_pos ⟨hlen, by omega⟩]
  exact yieldsBounds_ok hadd (by rw [sub_minDelta_val (by omega), hext])

theorem normalizeRegular_past_lower_long (h0 : 0 < w) (hw : w < maxDigits)
    (hlb : lb.val < -half w) (hlo : -half w ≤ ub.val) (hub : ub.val < half w)
    (hlen : 2 * half w - 1 ≤ ub.val - lb.val) (hcap : ub.val - lb.val < 2 * half maxDigits) :
    YieldsBounds (normalizeRegular w lb ub) .regular (half w - 1) (-half w) := by
  have hle : lb.val ≤ ub.val := hlb.le.trans hlo
  rw [normalizeRegular_eq ⟨h0, hw.le⟩ hle, if_neg (by omega), if_neg (by omega),
    if_neg (by omega), if_neg (by omega), if_pos hlb,
    if_neg fun h => not_span_lt h0 hw hlen hcap h.1]
  exact yieldsBounds_crossed ⟨h0, hw.le⟩ _

theorem normalizeAnti_inside (hw : 0 < w ∧ w ≤ maxDigits) (hlo : -half w ≤ lb.val)
    (hle : lb.val ≤ ub.val) (hhi : ub.val < half w) :
    YieldsBounds (normalizeAnti w lb ub) .anti lb.val ub.val := by
  rw [normalizeAnti_eq hw hle, if_neg (by omega), if_neg (by omega), if_neg (by omega),
    if_neg (by omega), if_pos (by omega)]
  exact yieldsBounds_ok rfl rfl

theorem normalizeAnti_above (h0 : 0 < w) (hw : w < maxDigits) (hlo : half w ≤ lb.val)
    (hle : lb.val ≤ ub.val) (hlen : ub.val - lb.val < 2 * half w - 1) :
    YieldsBounds (normalizeAnti w lb ub) .anti
      (signedResidue w lb.val) (signedResidue w ub.val) := by
  have hcap := two_mul_half_le h0 hw
  rw [normalizeAnti_eq ⟨h0, hw.le⟩ hle, if_pos hlo,
    if_pos ((span_lt_iff h0 hw hle (by omega)).mpr hlen)]
  exact yieldsBounds_ok (extTrunc_signed_val h0 hw lb) (extTrunc_signed_val h0 hw ub)

theorem normalizeAnti_above_long (h0 : 0 < w) (hw : w < maxDigits) (hlo : half w ≤ lb.val)
    (hle : lb.val ≤ ub.val) (hlen : 2 * half w - 1 ≤ ub.val - lb.val) :
    YieldsBounds (normalizeAnti w lb ub) .regular (-half w) (half w - 1) := by
  have hP := half_pos w
  have hub := ub.bounds
  rw [normalizeAnti_eq ⟨h0, hw.le⟩ hle, if_pos hlo,
    if_neg (not_span_lt h0 hw hlen (by omega))]
  exact yieldsBounds_limits ⟨h0, hw.le⟩ _

/-- Both bounds below the limits: the residues are stored in the opposite order. -/
theorem normalizeAnti_below (h0 : 0 < w) (hw : w < maxDigits) (hle : lb.val ≤ ub.val)
    (hhi : ub.val < -half w) (hlen : ub.val - lb.val < 2 * half w - 1) :
    YieldsBounds (normalizeAnti w lb ub) .anti
      (signedResidue w ub.val) (signedResidue w lb.val) := by
  have hP := half_pos w
  have hcap := two_mul_half_le h0 hw
  rw [normalizeAnti_eq ⟨h0, hw.le⟩ hle, if_neg (by omega), if_pos hhi,
    if_pos ((span_lt_iff h0 hw hle (by omega)).mpr hlen)]
  exact yieldsBounds_ok (extTrunc_signed_val h0 hw ub) (extTrunc_signed_val h0 hw lb)

theorem normalizeAnti_below_long (h0 : 0 < w) (hw : w < maxDigits) (hle : lb.val ≤ ub.val)
    (hhi : ub.val < -half w) (hlen : 2 * half w - 1 ≤ ub.val - lb.val) :
    YieldsBounds (normalizeAnti w lb ub) .regular (-half w) (half w - 1) := by
  have hP := half_pos w
  have hlb := lb.bounds
  rw [normalizeAnti_eq ⟨h0, hw.le⟩ hle, if_neg (by omega), if_pos hhi,
    if_neg (not_span_lt h0 hw hlen (by omega))]
  exact yieldsBounds_limits ⟨h0, hw.le⟩ _

theorem normalizeAnti_past_upper (h0 : 0 < w) (hw : w < maxDigits) (hlo : -half w ≤ lb.val)
    (hlb : lb.val < half w) (hub : half w ≤ ub.val) (hlen : ub.val - lb.val < 2 * half w - 1) :
    YieldsBounds (normalizeAnti w lb ub) .regular (ub.val - 2 * half w + 1) (lb.val - 1) := by
  have hcap := two_mul_half_le h0 hw
  have hsub : (lb - MinDelta).val = lb.val - 1 := sub_minDelta_val (by omega)
  have hext := extTrunc_past_upper h0 hw hub (by omega)
  simp only [normalizeAnti_eq ⟨h0, hw.le⟩ (hlb.le.trans hub),
    span_lt_iff h0 hw (hlb.le.trans hub) (by omega), SignMag.eq_iff, ne_eq, hsub, hext]
  rw [if_neg (by omega), if_neg (by omega), if_pos ⟨by omega, hub⟩, if_pos ⟨hlen, by omega⟩]
  exact yieldsBounds_ok (by rw [add_minDelta_val (by omega), hext]) hsub

theorem normalizeAnti_past_lower (h0 : 0 < w) (hw : w < maxDigits) (hlb : lb.val < -half w)
    (hlo : -half w ≤ ub.val) (hub : ub.val < half w) (hlen : ub.val - lb.val < 2 * half w - 1) :
    YieldsBounds (normalizeAnti w lb ub) .regular (ub.val + 1) (lb.val + 2 * half w - 1) := by
  have hcap := two_mul_half_le h0 hw
  have hle : lb.val ≤ ub.val := hlb.le.trans hlo
  have hadd : (ub + MinDelta).val = ub.val + 1 := add_minDelta_val (by omega)
  have hext := extTrunc_past_lower h0 hw hlb (by omega)
  simp only [normalizeAnti_eq ⟨h0, hw.le⟩ hle, span_lt_iff h0 hw hle (by omega),
    SignMag.eq_iff, ne_eq, hadd, hext]
  rw [if_neg (by omega), if_neg (by omega), if_neg (by omega), if_pos ⟨hlb, hub⟩,
    if_pos ⟨hlen, by omega⟩]
  exact yieldsBounds_ok hadd (by rw [sub_minDelta_val (by omega), hext])

theorem normalizeAnti_past_upper_long (h0 : 0 < w) (hw : w < maxDigits) (hlo : -half w ≤ lb.val)
    (hlb : lb.val < half w) (hub : half w ≤ ub.val) (hlen : 2 * half w - 1 ≤ ub.val - lb.val)
    (hcap : ub.val - lb.val < 2 * half maxDigits) :
    YieldsBounds (normalizeAnti w lb ub) .regular (-half w) (half w - 1) := by
  have hle : lb.val ≤ ub.val := hlb.le.trans hub
  rw [normalizeAnti_eq ⟨h0, hw.le⟩ hle, if_neg (by omega), if_neg (by omega),
    if_pos ⟨by omega, hub⟩,
    if_neg fun h => not_span_lt h0 hw hlen hcap h.1]
  exact yieldsBounds_limits ⟨h0, hw.le⟩ _

theorem normalizeAnti_past_lower_long (h0 : 0 < w) (hw : w < maxDigits) (hlb : lb.val < -half w)
    (hlo : -half w ≤ ub.val) (hub : ub.val < half w) (hlen : 2 * half w - 1 ≤ ub.val - lb.val)
    (hcap : ub.val - lb.val < 2 * half maxDigits) :
    YieldsBounds (normalizeAnti w lb ub) .regular (-half w) (half w - 1) := by
  have hle : lb.val ≤ ub.val := hlb.le.trans hlo
  rw [normalizeAnti_eq ⟨h0, hw.le⟩ hle, if_neg (by omega), if_neg (by omega),
    if_neg (by omega), if_pos ⟨hlb, hub⟩,
    if_neg fun h => not_span_lt h0 hw hlen hcap h.1]
  exact yieldsBounds_limits ⟨h0, hw.le⟩ _

end Bodies

/-! ## What the constructor returns -/

/-- `x` returns a range of width `w`, type `t` and bounds `a`, `b`. -/
def Yields (x : Except Error Range) (w : Nat) (t : RangeType) (a b : Int) : Prop :=
  ∃ r, x = .ok r ∧ r.bw = w ∧ r.type = t ∧ r.l.val = a ∧ r.u.val = b

/-- `x` returns a range of width `w` that holds `v`. -/
def Holds (x : Except Error Range) (w : Nat) (v : Int) : Prop :=
  ∃ r, x = .ok r ∧ r.bw = w ∧ v ∈ r.gamma

theorem holds_ok {r : Range} {w : Nat} {v : Int} :
    Holds (.ok r) w v ↔ r.bw = w ∧ v ∈ r.gamma := by
  constructor
  · rintro ⟨r', h, hr⟩
    cases h
    exact hr
  · exact fun h => ⟨r, rfl, h⟩

theorem not_holds_error {e : Error} {w : Nat} {v : Int} : ¬ Holds (.error e) w v := by
  rintro ⟨r, h, -⟩
  cases h

instance (x : Except Error Range) (w : Nat) (v : Int) : Decidable (Holds x w v) :=
  match x with
  | .ok r => decidable_of_iff (r.bw = w ∧ v ∈ r.gamma) holds_ok.symm
  | .error _ => isFalse not_holds_error

theorem Yields.holds_iff {x : Except Error Range} {w : Nat} {t : RangeType} {a b v : Int}
    (h : Yields x w t a b) :
    Holds x w v ↔ (-half w ≤ v ∧ v < half w) ∧ TypeMem t a b v := by
  obtain ⟨r, rfl, rfl, rfl, rfl, rfl⟩ := h
  rw [holds_ok]
  exact ⟨fun hv => hv.2, fun hv => ⟨rfl, hv⟩⟩

@[simp] theorem repair_type (b : Bounds) : b.repair.type = b.type := by
  unfold Bounds.repair
  split <;> rfl

theorem repair_of_le {t : RangeType} {l u : APInt} (h : l.val ≤ u.val) :
    Bounds.repair ⟨t, l, u⟩ = ⟨t, l, u⟩ :=
  if_neg (fun hlt : u.val < l.val => by omega)

theorem repair_of_lt {t : RangeType} {l u : APInt} (h : u.val < l.val) :
    Bounds.repair ⟨t, l, u⟩ = ⟨t, Min, Max⟩ :=
  if_pos (SignMag.lt_iff.mpr h)

section OfBounds

variable {w : Nat} {t t' : RangeType} {lb ub : APInt} {a b : Int}

theorem ofBounds_eq (hw : 0 < w ∧ w ≤ maxDigits) :
    ofBounds t w lb ub =
      (normalizeRange w lb ub 4 t lb ub).map (fun d => ⟨d.l, d.u, w, d.type, hw⟩) :=
  dif_pos hw

theorem yields_of_normalizeRange (hw : 0 < w ∧ w ≤ maxDigits)
    (h : YieldsBounds (normalizeRange w lb ub 4 t lb ub) t' a b) :
    Yields (ofBounds t w lb ub) w t' a b := by
  obtain ⟨d, hd, ht, hl, hu⟩ := h
  rw [ofBounds_eq hw, hd]
  exact ⟨_, rfl, rfl, ht, hl, hu⟩

/-- Bounds in order pass the closing repair. -/
theorem YieldsBounds.repair {x : Except Error Bounds} (h : YieldsBounds x t a b) (hab : a ≤ b) :
    YieldsBounds (x.map Bounds.repair) t a b := by
  obtain ⟨⟨_, l, u⟩, rfl, rfl, rfl, rfl⟩ := h
  exact ⟨_, rfl, congrArg Bounds.type (repair_of_le hab), by rw [repair_of_le hab],
    by rw [repair_of_le hab]⟩

/-- Crossed bounds become the infinite ones. -/
theorem YieldsBounds.repair_crossed {x : Except Error Bounds} (h : YieldsBounds x t a b)
    (hab : b < a) :
    YieldsBounds (x.map Bounds.repair) t (-half maxDigits) (half maxDigits - 1) := by
  obtain ⟨⟨_, l, u⟩, rfl, rfl, rfl, rfl⟩ := h
  exact ⟨⟨_, Min, Max⟩, congrArg Except.ok (repair_of_lt hab), rfl, min_val, max_val⟩

/-- Finite Regular bounds in order reach `normalizeRegular`. -/
theorem normalizeRange_regular {l0 u0 : APInt} {n : Nat} (hle : lb.val ≤ ub.val)
    (hpred : lb - MinDelta ≠ ub) (hmin : lb ≠ Min) (hmax : ub ≠ Max) :
    normalizeRange w l0 u0 (n + 1) .regular lb ub =
      (normalizeRegular w lb ub).map Bounds.repair := by
  simp only [normalizeRange]
  rw [if_neg hpred, if_neg (by rw [gt_iff_lt, SignMag.lt_iff]; omega), if_neg (fun h => hmin h.1),
    if_neg hmax, if_neg hmin]

/-- Finite Anti bounds in order reach `normalizeAnti`. -/
theorem normalizeRange_anti {l0 u0 : APInt} {n : Nat} (hle : lb.val ≤ ub.val)
    (hmin : lb ≠ Min) (hmax : ub ≠ Max) :
    normalizeRange w l0 u0 (n + 1) .anti lb ub = (normalizeAnti w lb ub).map Bounds.repair := by
  simp only [normalizeRange]
  rw [if_neg (by rw [gt_iff_lt, SignMag.lt_iff]; omega), if_neg (fun h => hmin h.1), if_neg hmin,
    if_neg hmax]

theorem pred_ne_of_le (hlo : -(2 * half maxDigits) + 1 < lb.val) (hle : lb.val ≤ ub.val) :
    lb - MinDelta ≠ ub := by
  rw [ne_eq, SignMag.eq_iff, sub_minDelta_val hlo]
  omega

theorem yields_regular (hw : 0 < w ∧ w ≤ maxDigits) (hmin : -half maxDigits < lb.val)
    (hle : lb.val ≤ ub.val) (hmax : ub.val < half maxDigits - 1)
    (h : YieldsBounds ((normalizeRegular w lb ub).map Bounds.repair) t a b) :
    Yields (ofBounds .regular w lb ub) w t a b := by
  apply yields_of_normalizeRange hw
  rwa [normalizeRange_regular hle (pred_ne_of_le (by omega) hle)
    (by rw [ne_eq, eq_min_iff]; omega) (by rw [ne_eq, eq_max_iff]; omega)]

theorem yields_anti (hw : 0 < w ∧ w ≤ maxDigits) (hmin : -half maxDigits < lb.val)
    (hle : lb.val ≤ ub.val) (hmax : ub.val < half maxDigits - 1)
    (h : YieldsBounds ((normalizeAnti w lb ub).map Bounds.repair) t a b) :
    Yields (ofBounds .anti w lb ub) w t a b := by
  apply yields_of_normalizeRange hw
  rwa [normalizeRange_anti hle (by rw [ne_eq, eq_min_iff]; omega)
    (by rw [ne_eq, eq_max_iff]; omega)]

/-! ### Bounds within the limits -/

/-- A finite lower bound within the limits, and `Max`. -/
theorem normalizeToMax_inside (hw : 0 < w ∧ w ≤ maxDigits) (hlo : -half w ≤ lb.val)
    (hhi : lb.val < half w) :
    YieldsBounds (.ok (normalizeToMax w lb)) .regular lb.val (half w - 1) := by
  unfold normalizeToMax
  simp only [ge_iff_le, SignMag.lt_iff, SignMag.le_iff, getSignedMinValue_val hw.1 hw.2,
    getSignedMaxValue_val hw.1 hw.2, SignMag.val_zero]
  rw [if_neg (by omega)]
  have hmax := getSignedMaxValue_val hw.1 hw.2
  by_cases h : lb.val < 0
  · rw [if_pos ⟨hlo, h⟩]
    exact yieldsBounds_ok rfl hmax
  · rw [if_neg (fun hc => h hc.2), if_pos (by omega)]
    exact yieldsBounds_ok rfl hmax

/-- `Min`, and a finite upper bound within the limits. -/
theorem normalizeFromMin_inside (hw : 0 < w ∧ w ≤ maxDigits) (hlo : -half w ≤ ub.val)
    (hhi : ub.val < half w) :
    YieldsBounds (.ok (normalizeFromMin w ub)) .regular (-half w) ub.val := by
  unfold normalizeFromMin
  simp only [ge_iff_le, SignMag.lt_iff, SignMag.le_iff, getSignedMinValue_val hw.1 hw.2,
    getSignedMaxValue_val hw.1 hw.2, SignMag.val_zero]
  rw [if_neg (by omega)]
  have hmin := getSignedMinValue_val hw.1 hw.2
  by_cases h : ub.val < 0
  · rw [if_pos ⟨hlo, h⟩]
    exact yieldsBounds_ok hmin rfl
  · rw [if_neg (fun hc => h hc.2), if_pos (by omega)]
    exact yieldsBounds_ok hmin rfl

/-- Regular bounds within the limits are kept, also at the capacity where the
    limits are the infinite bounds. -/
theorem ofBounds_regular_inside (hw : 0 < w ∧ w ≤ maxDigits) (hlo : -half w ≤ lb.val)
    (hle : lb.val ≤ ub.val) (hhi : ub.val < half w) :
    Yields (ofBounds .regular w lb ub) w .regular lb.val ub.val := by
  have hP := half_le_half hw.2
  have h2 := two_le_half_maxDigits
  have hpred : lb - MinDelta ≠ ub := pred_ne_of_le (by omega) hle
  apply yields_of_normalizeRange hw
  simp only [normalizeRange]
  rw [if_neg hpred, if_neg (by rw [gt_iff_lt, SignMag.lt_iff]; omega)]
  by_cases hmax : ub = Max
  · have hub := eq_max_iff.mp hmax
    by_cases hmin : lb = Min
    · have hlb := eq_min_iff.mp hmin
      rw [if_pos ⟨hmin, hmax⟩]
      exact (yieldsBounds_ok (by rw [getSignedMinValue_val hw.1 hw.2]; omega)
        (by rw [getSignedMaxValue_val hw.1 hw.2]; omega)).repair hle
    · rw [if_neg (fun h => hmin h.1), if_pos hmax]
      have h := (normalizeToMax_inside hw hlo (by omega)).repair (by omega)
      rwa [show half w - 1 = ub.val by omega] at h
  · rw [if_neg (fun h => hmax h.2), if_neg hmax]
    by_cases hmin : lb = Min
    · have hlb := eq_min_iff.mp hmin
      rw [if_pos hmin]
      have h := (normalizeFromMin_inside hw (by omega) hhi).repair (by omega)
      rwa [show -half w = lb.val by omega] at h
    · rw [if_neg hmin]
      exact (normalizeRegular_inside hw hlo hle hhi).repair hle

/-! ### One infinite bound -/

theorem normalizeToMax_below (hw : 0 < w ∧ w ≤ maxDigits) (hlb : lb.val < -half w) :
    YieldsBounds (.ok (normalizeToMax w lb)) .regular (half w - 1) (-half w) := by
  unfold normalizeToMax
  rw [if_pos ((lt_signedMin_iff hw).mpr hlb)]
  exact yieldsBounds_crossed hw _

/-- A finite lower bound above the limits by less than a turn, and `Max`. -/
theorem normalizeToMax_above (h0 : 0 < w) (hw : w < maxDigits) (hlo : half w ≤ lb.val)
    (hhi : lb.val < 2 * half w) :
    YieldsBounds (.ok (normalizeToMax w lb)) .regular (lb.val - 2 * half w) (-1) := by
  have hP := half_pos w
  unfold normalizeToMax
  simp only [ge_iff_le, gt_iff_lt, SignMag.lt_iff, SignMag.le_iff, getSignedMinValue_val h0 hw.le,
    getSignedMaxValue_val h0 hw.le, getMaxValue_val h0 hw, SignMag.val_zero]
  rw [if_neg (by omega), if_neg (by omega), if_neg (by omega), if_pos (by omega)]
  exact yieldsBounds_ok (extTrunc_past_upper h0 hw hlo (by omega))
    (by rw [SignMag.val_neg, one_val])

theorem normalizeFromMin_below (hw : 0 < w ∧ w ≤ maxDigits) (hub : ub.val < -half w) :
    YieldsBounds (.ok (normalizeFromMin w ub)) .regular (half w - 1) (-half w) := by
  unfold normalizeFromMin
  rw [if_pos ((lt_signedMin_iff hw).mpr hub)]
  exact yieldsBounds_crossed hw _

/-- `Min`, and a finite upper bound above the limits by less than a turn. -/
theorem normalizeFromMin_above (h0 : 0 < w) (hw : w < maxDigits) (hlo : half w ≤ ub.val)
    (hhi : ub.val < 2 * half w - 1) :
    YieldsBounds (.ok (normalizeFromMin w ub)) .anti (ub.val - 2 * half w + 1) (-1) := by
  have hP := half_pos w
  have hcap := two_mul_half_le h0 hw
  have hext := extTrunc_past_upper h0 hw hlo (by omega)
  unfold normalizeFromMin
  simp only [ge_iff_le, gt_iff_lt, SignMag.lt_iff, SignMag.le_iff, getSignedMinValue_val h0 hw.le,
    getSignedMaxValue_val h0 hw.le, getMaxValue_val h0 hw, SignMag.val_zero]
  rw [if_neg (by omega), if_neg (by omega), if_neg (by omega), if_pos (by omega)]
  exact yieldsBounds_ok (by rw [add_minDelta_val (by omega), hext])
    (by rw [SignMag.val_neg, one_val])

/-- `Min`, and a finite upper bound a turn away or more. -/
theorem normalizeFromMin_far (h0 : 0 < w) (hw : w < maxDigits) (hlo : 2 * half w - 1 ≤ ub.val) :
    YieldsBounds (.ok (normalizeFromMin w ub)) .regular (half w - 1) (-half w) := by
  have hP := half_pos w
  unfold normalizeFromMin
  simp only [ge_iff_le, gt_iff_lt, SignMag.lt_iff, SignMag.le_iff, getSignedMinValue_val h0 hw.le,
    getSignedMaxValue_val h0 hw.le, getMaxValue_val h0 hw, SignMag.val_zero]
  rw [if_neg (by omega), if_neg (by omega), if_neg (by omega), if_neg (by omega)]
  exact yieldsBounds_crossed ⟨h0, hw.le⟩ _

/-- At the capacity there is no room between the limit and `getMaxValue`. -/
theorem normalizeFromMin_above_maxDigits (hlo : half maxDigits ≤ ub.val) :
    YieldsBounds (.ok (normalizeFromMin maxDigits ub)) .regular (half maxDigits - 1)
      (-half maxDigits) := by
  have hw : 0 < maxDigits ∧ maxDigits ≤ maxDigits := ⟨maxDigits_pos, le_refl _⟩
  have hP := half_pos maxDigits
  unfold normalizeFromMin
  simp only [ge_iff_le, gt_iff_lt, SignMag.lt_iff, SignMag.le_iff, getSignedMinValue_val hw.1 hw.2,
    getSignedMaxValue_val hw.1 hw.2, getMaxValue_maxDigits, SignMag.val_zero]
  rw [if_neg (by omega), if_neg (by omega), if_neg (by omega), if_neg (by omega)]
  exact yieldsBounds_crossed hw _

/-- Regular from `Min` to a finite bound. -/
theorem yields_regular_fromMin (hw : 0 < w ∧ w ≤ maxDigits) (hmin : lb.val = -half maxDigits)
    (hle : -half maxDigits ≤ ub.val) (hmax : ub.val ≠ half maxDigits - 1)
    (h : YieldsBounds (.ok (normalizeFromMin w ub).repair) t a b) :
    Yields (ofBounds .regular w lb ub) w t a b := by
  have h2 := two_le_half_maxDigits
  rw [ne_eq, ← eq_max_iff] at hmax
  have hpred : lb - MinDelta ≠ ub := pred_ne_of_le (by omega) (by omega)
  apply yields_of_normalizeRange hw
  simp only [normalizeRange]
  rwa [if_neg hpred, if_neg (by rw [gt_iff_lt, SignMag.lt_iff]; omega), if_neg (fun h => hmax h.2),
    if_neg hmax, if_pos (eq_min_iff.mpr hmin)]

/-- Regular from a finite bound to `Max`. -/
theorem yields_regular_toMax (hw : 0 < w ∧ w ≤ maxDigits)
    (hmin : -(2 * half maxDigits) + 1 < lb.val) (hne : lb.val ≠ -half maxDigits)
    (hle : lb.val < half maxDigits) (hmax : ub.val = half maxDigits - 1)
    (h : YieldsBounds (.ok (normalizeToMax w lb).repair) t a b) :
    Yields (ofBounds .regular w lb ub) w t a b := by
  have hpred : lb - MinDelta ≠ ub := pred_ne_of_le hmin (by omega)
  rw [ne_eq, ← eq_min_iff] at hne
  apply yields_of_normalizeRange hw
  simp only [normalizeRange]
  rwa [if_neg hpred, if_neg (by rw [gt_iff_lt, SignMag.lt_iff]; omega), if_neg (fun h => hne h.1),
    if_pos (eq_max_iff.mpr hmax)]

/-- Anti from `Min`: what is left goes from past the upper bound to `Max`. -/
theorem yields_anti_fromMin (hw : 0 < w ∧ w ≤ maxDigits) (hmin : lb.val = -half maxDigits)
    (hle : -half maxDigits ≤ ub.val) (hmax : ub.val < half maxDigits - 1)
    (h : YieldsBounds (.ok (normalizeToMax w (ub + MinDelta)).repair) t a b) :
    Yields (ofBounds .anti w lb ub) w t a b := by
  have hsucc : (ub + MinDelta).val = ub.val + 1 := add_minDelta_val (by omega)
  have hmaxv := max_val
  have hpred : ub + MinDelta - MinDelta ≠ Max := pred_ne_of_le (by omega) (by omega)
  have hne : ub ≠ Max := by rw [ne_eq, eq_max_iff]; omega
  apply yields_of_normalizeRange hw
  simp only [normalizeRange]
  rwa [if_neg (by rw [gt_iff_lt, SignMag.lt_iff]; omega), if_neg (fun h => hne h.2),
    if_pos (eq_min_iff.mpr hmin), if_neg hpred,
    if_neg (by rw [gt_iff_lt, SignMag.lt_iff]; omega),
    if_neg (fun h => by have := eq_min_iff.mp h.1; omega), if_pos trivial]

/-- Anti up to `Max`: what is left goes from `Min` to before the lower bound. -/
theorem yields_anti_toMax (hw : 0 < w ∧ w ≤ maxDigits) (hmin : -half maxDigits < lb.val)
    (hle : lb.val < half maxDigits) (hmax : ub.val = half maxDigits - 1)
    (h : YieldsBounds (.ok (normalizeFromMin w (lb - MinDelta)).repair) t a b) :
    Yields (ofBounds .anti w lb ub) w t a b := by
  have h2 := two_le_half_maxDigits
  have hpred : (lb - MinDelta).val = lb.val - 1 := sub_minDelta_val (by omega)
  have hminv := min_val
  have hne : lb ≠ Min := by rw [ne_eq, eq_min_iff]; omega
  have hne' : lb - MinDelta ≠ Max := by rw [ne_eq, eq_max_iff]; omega
  have hpred' : Min - MinDelta ≠ lb - MinDelta := pred_ne_of_le (by omega) (by omega)
  apply yields_of_normalizeRange hw
  simp only [normalizeRange]
  rwa [if_neg (by rw [gt_iff_lt, SignMag.lt_iff]; omega), if_neg (fun h => hne h.1), if_neg hne,
    if_pos (eq_max_iff.mpr hmax), if_neg hpred',
    if_neg (by rw [gt_iff_lt, SignMag.lt_iff]; omega), if_neg (fun h => hne' h.2), if_neg hne',
    if_pos trivial]

end OfBounds

end Range
end Bambu
