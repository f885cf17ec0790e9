/-
  Bambu.Utility.Range.Shape

  For which bounds the constructor `Range(rType, bw, lb, ub)` builds a
  well-formed range.

  The bounds are followed through `normalizeRange`: the two finite bodies first
  (`shaped_normalizeAnti_iff`, `shaped_normalizeRegular_iff`), then one call
  with bounds in order, then the swap of crossed bounds.  What goes wrong is
  always the same: an Anti range whose truncated bounds came back crossed is
  repaired to the infinite bounds and so excludes everything.
-/

import Bambu.Utility.Range.Constructor

namespace Bambu
namespace Range

open Bambu.Math APInt

/-- The bounds written make a well-formed range of width `w`. -/
def Bounds.WellFormed (w : Nat) (d : Bounds) : Prop :=
  (d.type = .regular → (d.l = Min ∧ d.u = Max) ∨
    (-half w ≤ d.l.val ∧ d.l.val ≤ d.u.val ∧ d.u.val < half w)) ∧
  (d.type = .anti → -half w ≤ d.l.val ∧ d.l.val ≤ d.u.val ∧ d.u.val < half w)

/-- Whatever bounds `x` returns are well formed. -/
def Shaped (w : Nat) (x : Except Error Bounds) : Prop := ∀ d, x = .ok d → d.WellFormed w

section Shaped

variable {w : Nat} {lb ub : APInt} {x : Except Error Bounds} {a b : Int}

theorem shaped_of_regular (h : YieldsBounds x .regular a b) (ha : -half w ≤ a)
    (hb : b < half w) : Shaped w (x.map Bounds.repair) := by
  intro d hd
  by_cases hab : a ≤ b
  · obtain ⟨d', hd', ht, hl, hu⟩ := h.repair hab
    rw [hd'] at hd
    cases hd
    exact ⟨fun _ => Or.inr ⟨by omega, by omega, by omega⟩, fun hc => by simp [ht] at hc⟩
  · obtain ⟨d', hd', ht, hl, hu⟩ := h.repair_crossed (by omega)
    rw [hd'] at hd
    cases hd
    exact ⟨fun _ => Or.inl ⟨eq_min_iff.mpr hl, eq_max_iff.mpr hu⟩, fun hc => by simp [ht] at hc⟩

theorem shaped_of_anti (h : YieldsBounds x .anti a b) (ha : -half w ≤ a) (hab : a ≤ b)
    (hb : b < half w) : Shaped w (x.map Bounds.repair) := by
  intro d hd
  obtain ⟨d', hd', ht, hl, hu⟩ := h.repair hab
  rw [hd'] at hd
  cases hd
  exact ⟨fun hc => by simp [ht] at hc, fun _ => ⟨by omega, by omega, by omega⟩⟩

/-- Crossed Anti bounds are repaired to the range that excludes everything. -/
theorem not_shaped_of_crossed (h0 : 0 < w) (hw : w < maxDigits) (h : YieldsBounds x .anti a b)
    (hab : b < a) : ¬ Shaped w (x.map Bounds.repair) := by
  intro hs
  have hP := half_pos w
  have hcap := two_mul_half_le h0 hw
  obtain ⟨d, hd, ht, hl, -⟩ := h.repair_crossed hab
  have := ((hs d hd).2 ht).1
  omega

theorem shaped_error (e : Error) : Shaped w (.error e) := fun _ h => by cases h

/-! ## The finite bodies -/

theorem extTrunc_succ_val (h0 : 0 < w) (hw : w < maxDigits) (v : APInt) :
    (v.extTrunc w true + MinDelta).val = signedResidue w v.val + 1 := by
  have hres := extTrunc_signed_val h0 hw v
  have hhi := signedResidue_lt_half h0 v.val
  have hcap := two_mul_half_le h0 hw
  have hP := half_pos w
  rw [add_minDelta_val (by omega), hres]

theorem extTrunc_pred_val (h0 : 0 < w) (hw : w < maxDigits) (v : APInt) :
    (v.extTrunc w true - MinDelta).val = signedResidue w v.val - 1 := by
  have hres := extTrunc_signed_val h0 hw v
  have hlo := neg_half_le_signedResidue h0 v.val
  have hcap := two_mul_half_le h0 hw
  have hP := half_pos w
  rw [sub_minDelta_val (by omega), hres]

/-- One bound past a limit of the width and the other within: the complement is
    Regular, whatever the span test says. -/
theorem shaped_normalizeAnti_past (hw : 0 < w ∧ w ≤ maxDigits) (hle : lb.val ≤ ub.val)
    (hlb : lb.val < half w) (hub : -half w ≤ ub.val)
    (hout : lb.val < -half w ∨ half w ≤ ub.val) :
    Shaped w ((normalizeAnti w lb ub).map Bounds.repair) := by
  have hP := half_pos w
  have hcap := half_le_half hw.2
  have h2 := two_le_half_maxDigits
  have hfull : Shaped w ((Except.ok
      ⟨.regular, getSignedMinValue w, getSignedMaxValue w⟩).map Bounds.repair) :=
    shaped_of_regular (yieldsBounds_limits hw _) (by omega) (by omega)
  rw [normalizeAnti_eq hw hle, if_neg (by omega), if_neg (by omega)]
  by_cases hlo : lb.val < -half w
  · rw [if_neg (by omega)]
    by_cases hhi : ub.val < half w
    · rw [if_pos (by omega)]
      split
      · rename_i hspan
        rcases Nat.lt_or_eq_of_le hw.2 with hlt | rfl
        · have := signedResidue_lt_half hw.1 lb.val
          have hadd : (ub + MinDelta).val = ub.val + 1 := add_minDelta_val (by omega)
          exact shaped_of_regular (yieldsBounds_ok hadd (extTrunc_pred_val hw.1 hlt lb))
            (by omega) (by omega)
        · exact absurd hspan.1 not_span_lt_maxDigits
      · exact hfull
    · rw [if_neg (by omega), if_neg (by omega)]
      exact shaped_error _
  · rw [if_pos (by omega)]
    split
    · rename_i hspan
      rcases Nat.lt_or_eq_of_le hw.2 with hlt | rfl
      · have := neg_half_le_signedResidue hw.1 ub.val
        have hsub : (lb - MinDelta).val = lb.val - 1 := sub_minDelta_val (by omega)
        exact shaped_of_regular (yieldsBounds_ok (extTrunc_succ_val hw.1 hlt ub) hsub)
          (by omega) (by omega)
      · exact absurd hspan.1 not_span_lt_maxDigits
    · exact hfull

/-- Two finite bounds on one side of the limits, excluding less than a turn,
    which `normalizeRange` stores in reverse order. -/
def AntiCrossed (w : Nat) (p q : Int) : Prop :=
  w < maxDigits ∧ p ≤ q ∧ q - p < 2 * half w - 1 ∧
    ((half w ≤ p ∧ signedResidue w q < signedResidue w p) ∨
      (q < -half w ∧ signedResidue w p < signedResidue w q))

theorem normalizeAnti_maxDigits_out (hle : lb.val ≤ ub.val)
    (hout : half maxDigits ≤ lb.val ∨ ub.val < -half maxDigits) :
    YieldsBounds (normalizeAnti maxDigits lb ub) .regular (-half maxDigits)
      (half maxDigits - 1) := by
  have hP := half_pos maxDigits
  rw [normalizeAnti_eq bwValid_maxDigits hle]
  rcases hout with h | h
  · rw [if_pos h, if_neg not_span_lt_maxDigits]
    exact yieldsBounds_limits bwValid_maxDigits _
  · rw [if_neg (by omega), if_pos h, if_neg not_span_lt_maxDigits]
    exact yieldsBounds_limits bwValid_maxDigits _

theorem shaped_normalizeAnti_iff (hw : 0 < w ∧ w ≤ maxDigits) (hle : lb.val ≤ ub.val) :
    Shaped w ((normalizeAnti w lb ub).map Bounds.repair) ↔ ¬ AntiCrossed w lb.val ub.val := by
  have hP := half_pos w
  obtain ⟨hl1, hl2⟩ := signedResidue_mem hw.1 lb.val
  obtain ⟨hu1, hu2⟩ := signedResidue_mem hw.1 ub.val
  by_cases hmeet : lb.val < half w ∧ -half w ≤ ub.val
  · refine iff_of_true ?_ ?_
    · by_cases hout : lb.val < -half w ∨ half w ≤ ub.val
      · exact shaped_normalizeAnti_past hw hle hmeet.1 hmeet.2 hout
      · exact shaped_of_anti (normalizeAnti_inside hw (by omega) hle (by omega)) (by omega) hle
          (by omega)
    · rintro ⟨-, -, -, ⟨h, -⟩ | ⟨h, -⟩⟩ <;> omega
  have hside : half w ≤ lb.val ∨ ub.val < -half w := by omega
  rcases Nat.lt_or_eq_of_le hw.2 with hlt | rfl
  · by_cases hlen : ub.val - lb.val < 2 * half w - 1
    · rcases hside with h | h
      · have hbody := normalizeAnti_above hw.1 hlt h hle hlen
        by_cases hord : signedResidue w lb.val ≤ signedResidue w ub.val
        · refine iff_of_true (shaped_of_anti hbody hl1 hord hu2) ?_
          rintro ⟨-, -, -, ⟨-, hc⟩ | ⟨hc, -⟩⟩ <;> omega
        · exact iff_of_false (not_shaped_of_crossed hw.1 hlt hbody (by omega))
            (not_not.mpr ⟨hlt, hle, hlen, Or.inl ⟨h, by omega⟩⟩)
      · have hbody := normalizeAnti_below hw.1 hlt hle h hlen
        by_cases hord : signedResidue w ub.val ≤ signedResidue w lb.val
        · refine iff_of_true (shaped_of_anti hbody hu1 hord hl2) ?_
          rintro ⟨-, -, -, ⟨hc, -⟩ | ⟨-, hc⟩⟩ <;> omega
        · exact iff_of_false (not_shaped_of_crossed hw.1 hlt hbody (by omega))
            (not_not.mpr ⟨hlt, hle, hlen, Or.inr ⟨h, by omega⟩⟩)
    · refine iff_of_true ?_ (fun h => hlen h.2.2.1)
      rcases hside with h | h
      · exact shaped_of_regular (normalizeAnti_above_long hw.1 hlt h hle (by omega)) (by omega)
          (by omega)
      · exact shaped_of_regular (normalizeAnti_below_long hw.1 hlt hle h (by omega)) (by omega)
          (by omega)
  · exact iff_of_true (shaped_of_regular (normalizeAnti_maxDigits_out hle hside) (by omega)
      (by omega)) (fun h => absurd h.1 (lt_irrefl _))

/-- In-order finite Regular bounds that break the shape: below the capacity, two
    bounds so far apart that their distance itself loses its top bit; at the
    capacity, an interval above the limits or a single value below. -/
def RegularBreaks (w : Nat) (p q : Int) : Prop :=
  p ≤ q ∧
    ((w < maxDigits ∧ 2 * half maxDigits ≤ q - p ∧ (-half w ≤ p ∨ q < half w)) ∨
      (w = maxDigits ∧ (half maxDigits ≤ p ∨ (p = q ∧ q < -half maxDigits))))

/-- The capacity is a whole number of turns of every width. -/
theorem signedResidue_sub_capacity (hw : w < maxDigits) (x : Int) :
    signedResidue w (x - 2 * half maxDigits) = signedResidue w x := by
  rw [two_mul_half_maxDigits]
  refine signedResidue_congr (Int.modEq_iff_dvd.mpr ?_)
  rw [sub_sub_cancel]
  exact pow_dvd_pow 2 hw.le

theorem signedResidue_add_capacity (hw : w < maxDigits) (x : Int) :
    signedResidue w (x + 2 * half maxDigits) = signedResidue w x := by
  rw [← signedResidue_sub_capacity hw, add_sub_cancel_right]

/-- The span test on two bounds whose distance loses its top bit. -/
theorem span_lt_of_far (h0 : 0 < w) (hw : w < maxDigits)
    (hfar : 2 * half maxDigits ≤ ub.val - lb.val)
    (hlen : ub.val - lb.val - 2 * half maxDigits < 2 * half w - 1) :
    (ub - lb).abs < getMaxValue w := by
  have hcap := two_mul_half_le h0 hw
  have hC := two_mul_half_maxDigits
  have hval : (ub - lb).val = ub.val - lb.val - 2 * half maxDigits := by
    rw [SignMag.val_sub, SignMag.val_ofInt_of_le (by omega) (by omega)]
    omega
  rw [SignMag.lt_iff, SignMag.val_abs, getMaxValue_val h0 hw, hval, abs_of_nonneg (by omega)]
  exact hlen

/-- Too far above: the repaired range excludes everything. -/
theorem not_shaped_normalizeRegular_far_above (h0 : 0 < w) (hw : w < maxDigits)
    (hlo : -half w ≤ lb.val) (hfar : 2 * half maxDigits ≤ ub.val - lb.val) :
    ¬ Shaped w ((normalizeRegular w lb ub).map Bounds.repair) := by
  have hP := half_pos w
  have hcap := two_mul_half_le h0 hw
  have hub := ub.bounds
  have hres : signedResidue w ub.val = ub.val - 2 * half maxDigits := by
    rw [← signedResidue_sub_capacity hw, signedResidue_of_mem h0 (by omega) (by omega)]
  have hsub : (lb - MinDelta).val = lb.val - 1 := sub_minDelta_val (by omega)
  have hext : (ub.extTrunc w true).val = ub.val - 2 * half maxDigits :=
    (extTrunc_signed_val h0 hw ub).trans hres
  refine not_shaped_of_crossed (a := signedResidue w ub.val + 1) (b := lb.val - 1) h0 hw ?_
    (by omega)
  simp only [normalizeRegular_eq ⟨h0, hw.le⟩ (by omega : lb.val ≤ ub.val), SignMag.eq_iff, ne_eq,
    hsub, hext]
  rw [if_neg (by omega), if_neg (by omega), if_neg (by omega), if_pos (by omega),
    if_pos ⟨span_lt_of_far h0 hw hfar (by omega), by omega⟩]
  exact yieldsBounds_ok (extTrunc_succ_val h0 hw ub) hsub

/-- Too far below: the repaired range excludes everything. -/
theorem not_shaped_normalizeRegular_far_below (h0 : 0 < w) (hw : w < maxDigits)
    (hhi : ub.val < half w) (hfar : 2 * half maxDigits ≤ ub.val - lb.val) :
    ¬ Shaped w ((normalizeRegular w lb ub).map Bounds.repair) := by
  have hP := half_pos w
  have hcap := two_mul_half_le h0 hw
  have hlb := lb.bounds
  have hres : signedResidue w lb.val = lb.val + 2 * half maxDigits := by
    rw [← signedResidue_add_capacity hw, signedResidue_of_mem h0 (by omega) (by omega)]
  have hadd : (ub + MinDelta).val = ub.val + 1 := add_minDelta_val (by omega)
  have hext : (lb.extTrunc w true).val = lb.val + 2 * half maxDigits :=
    (extTrunc_signed_val h0 hw lb).trans hres
  refine not_shaped_of_crossed (a := ub.val + 1) (b := signedResidue w lb.val - 1) h0 hw ?_
    (by omega)
  simp only [normalizeRegular_eq ⟨h0, hw.le⟩ (by omega : lb.val ≤ ub.val), SignMag.eq_iff, ne_eq,
    hadd, hext]
  rw [if_neg (by omega), if_neg (by omega), if_neg (by omega), if_neg (by omega),
    if_pos (by omega), if_pos ⟨span_lt_of_far h0 hw hfar (by omega), by omega⟩]
  exact yieldsBounds_ok hadd (extTrunc_pred_val h0 hw lb)

theorem shaped_normalizeRegular_iff_of_lt (h0 : 0 < w) (hw : w < maxDigits)
    (hle : lb.val ≤ ub.val) :
    Shaped w ((normalizeRegular w lb ub).map Bounds.repair) ↔ ¬ RegularBreaks w lb.val ub.val := by
  have hP := half_pos w
  have hcap := two_mul_half_le h0 hw
  have hlb := lb.bounds
  have hub := ub.bounds
  have hw' : 0 < w ∧ w ≤ maxDigits := ⟨h0, hw.le⟩
  by_cases hfar : 2 * half maxDigits ≤ ub.val - lb.val
  · by_cases hlo : -half w ≤ lb.val
    · exact iff_of_false (not_shaped_normalizeRegular_far_above h0 hw hlo hfar)
        (not_not.mpr ⟨hle, Or.inl ⟨hw, hfar, Or.inl hlo⟩⟩)
    by_cases hhi : ub.val < half w
    · exact iff_of_false (not_shaped_normalizeRegular_far_below h0 hw hhi hfar)
        (not_not.mpr ⟨hle, Or.inl ⟨hw, hfar, Or.inr hhi⟩⟩)
    · refine iff_of_true (shaped_of_regular (normalizeRegular_across hw' (by omega) (by omega))
        (by omega) (by omega)) ?_
      rintro ⟨-, ⟨-, -, h | h⟩ | ⟨h, -⟩⟩ <;> omega
  refine iff_of_true ?_ ?_
  swap
  · rintro ⟨-, ⟨-, h, -⟩ | ⟨h, -⟩⟩ <;> omega
  by_cases hlo : half w ≤ lb.val
  · exact shaped_of_regular (normalizeRegular_above h0 hw hlo hle)
      (neg_half_le_signedResidue h0 _) (signedResidue_lt_half h0 _)
  by_cases hhi : ub.val < -half w
  · exact shaped_of_regular (normalizeRegular_below h0 hw hle hhi)
      (neg_half_le_signedResidue h0 _) (signedResidue_lt_half h0 _)
  by_cases hl : -half w ≤ lb.val
  · by_cases hu : ub.val < half w
    · exact shaped_of_regular (normalizeRegular_inside hw' hl hle hu) hl hu
    by_cases hlen : ub.val - lb.val < 2 * half w - 1
    · exact shaped_of_anti (normalizeRegular_past_upper h0 hw hl (by omega) (by omega) hlen)
        (by omega) (by omega) (by omega)
    · exact shaped_of_regular (normalizeRegular_past_upper_long h0 hw hl (by omega) (by omega)
        (by omega) (by omega)) (by omega) (by omega)
  · by_cases hu : ub.val < half w
    · by_cases hlen : ub.val - lb.val < 2 * half w - 1
      · exact shaped_of_anti (normalizeRegular_past_lower h0 hw (by omega) (by omega) hu hlen)
          (by omega) (by omega) (by omega)
      · exact shaped_of_regular (normalizeRegular_past_lower_long h0 hw (by omega) (by omega) hu
          (by omega) (by omega)) (by omega) (by omega)
    · exact shaped_of_regular (normalizeRegular_across hw' (by omega) (by omega)) (by omega)
        (by omega)

/-- At the capacity truncation keeps the bounds. -/
theorem normalizeRegular_above_maxDigits (hlo : half maxDigits ≤ lb.val)
    (hle : lb.val ≤ ub.val) :
    YieldsBounds (normalizeRegular maxDigits lb ub) .regular lb.val ub.val := by
  have hP := half_pos maxDigits
  rw [normalizeRegular_eq bwValid_maxDigits hle, if_neg (by omega), if_pos hlo]
  simp only [extTrunc_maxDigits]
  exact yieldsBounds_ok rfl rfl

theorem normalizeRegular_below_maxDigits (hle : lb.val ≤ ub.val)
    (hhi : ub.val < -half maxDigits) :
    YieldsBounds (normalizeRegular maxDigits lb ub) .regular ub.val lb.val := by
  have hP := half_pos maxDigits
  rw [normalizeRegular_eq bwValid_maxDigits hle, if_neg (by omega), if_neg (by omega), if_pos hhi]
  simp only [extTrunc_maxDigits]
  exact yieldsBounds_ok rfl rfl

/-- An interval that meets the limits and sticks out: the span test fails. -/
theorem normalizeRegular_out_maxDigits (hle : lb.val ≤ ub.val) (hlo : lb.val < half maxDigits)
    (hhi : -half maxDigits ≤ ub.val)
    (hout : lb.val < -half maxDigits ∨ half maxDigits ≤ ub.val) :
    normalizeRegular maxDigits lb ub =
      .ok ⟨.regular, getSignedMaxValue maxDigits, getSignedMinValue maxDigits⟩ := by
  simp only [normalizeRegular_eq bwValid_maxDigits hle, not_span_lt_maxDigits, false_and,
    if_false]
  by_cases hboth : half maxDigits ≤ ub.val ∧ lb.val < -half maxDigits
  · rw [if_pos hboth]
  rw [if_neg hboth, if_neg (by omega), if_neg (by omega)]
  by_cases hup : half maxDigits ≤ ub.val
  · rw [if_pos hup]
  · rw [if_neg hup, if_pos (by omega)]

theorem shaped_normalizeRegular_iff_maxDigits (hle : lb.val ≤ ub.val) :
    Shaped maxDigits ((normalizeRegular maxDigits lb ub).map Bounds.repair) ↔
      ¬ RegularBreaks maxDigits lb.val ub.val := by
  have hP := half_pos maxDigits
  have hw := bwValid_maxDigits
  have hnone : Shaped maxDigits ((Except.ok ⟨.regular, getSignedMaxValue maxDigits,
      getSignedMinValue maxDigits⟩).map Bounds.repair) :=
    shaped_of_regular (yieldsBounds_crossed hw _) (by omega) (by omega)
  by_cases habove : half maxDigits ≤ lb.val
  · refine iff_of_false (fun hs => ?_) (not_not.mpr ⟨hle, Or.inr ⟨rfl, Or.inl habove⟩⟩)
    obtain ⟨d, hd, ht, hl, hu⟩ := (normalizeRegular_above_maxDigits habove hle).repair hle
    rcases (hs d hd).1 ht with ⟨hm, -⟩ | ⟨-, -, hm⟩
    · rw [eq_min_iff] at hm
      omega
    · omega
  by_cases hbelow : ub.val < -half maxDigits
  · have hy := normalizeRegular_below_maxDigits hle hbelow
    by_cases heq : lb.val = ub.val
    · refine iff_of_false (fun hs => ?_)
        (not_not.mpr ⟨hle, Or.inr ⟨rfl, Or.inr ⟨heq, hbelow⟩⟩⟩)
      obtain ⟨d, hd, ht, hl, hu⟩ := hy.repair (by omega)
      rcases (hs d hd).1 ht with ⟨-, hm⟩ | ⟨hm, -, -⟩
      · rw [eq_max_iff] at hm
        omega
      · omega
    · refine iff_of_true (fun d hd => ?_) ?_
      · obtain ⟨d', hd', ht, hl, hu⟩ := hy.repair_crossed (by omega)
        rw [hd'] at hd
        cases hd
        exact ⟨fun _ => Or.inl ⟨eq_min_iff.mpr hl, eq_max_iff.mpr hu⟩, fun hc => by simp [ht] at hc⟩
      · rintro ⟨-, ⟨h, -⟩ | ⟨-, h | ⟨h, -⟩⟩⟩ <;> omega
  refine iff_of_true ?_ ?_
  swap
  · rintro ⟨-, ⟨h, -⟩ | ⟨-, h | ⟨-, h⟩⟩⟩ <;> omega
  by_cases hin : -half maxDigits ≤ lb.val ∧ ub.val < half maxDigits
  · exact shaped_of_regular (normalizeRegular_inside hw hin.1 hle hin.2) hin.1 hin.2
  rw [normalizeRegular_out_maxDigits hle (by omega) (by omega) (by omega)]
  exact hnone

theorem shaped_normalizeRegular_iff (hw : 0 < w ∧ w ≤ maxDigits) (hle : lb.val ≤ ub.val) :
    Shaped w ((normalizeRegular w lb ub).map Bounds.repair) ↔ ¬ RegularBreaks w lb.val ub.val := by
  rcases Nat.lt_or_eq_of_le hw.2 with hlt | rfl
  · exact shaped_normalizeRegular_iff_of_lt hw.1 hlt hle
  · exact shaped_normalizeRegular_iff_maxDigits hle

/-! ## One infinite bound -/

theorem neg_one_val : (-1 : APInt).val = -1 := by rw [SignMag.val_neg, one_val]

theorem shaped_normalizeToMax (hw : 0 < w ∧ w ≤ maxDigits) :
    Shaped w (.ok (normalizeToMax w lb).repair) := by
  have hP := half_pos w
  have hmax := getSignedMaxValue_val hw.1 hw.2
  have hmin := getSignedMinValue_val hw.1 hw.2
  have hnone : Shaped w (.ok (Bounds.repair
      ⟨.regular, getSignedMaxValue w, getSignedMinValue w⟩)) :=
    shaped_of_regular (yieldsBounds_crossed hw _) (by omega) (by omega)
  by_cases hin : -half w ≤ lb.val ∧ lb.val < half w
  · exact shaped_of_regular (normalizeToMax_inside hw hin.1 hin.2) hin.1 (by omega)
  unfold normalizeToMax
  simp only [ge_iff_le, gt_iff_lt, SignMag.lt_iff, SignMag.le_iff, hmin, hmax, SignMag.val_zero]
  by_cases hlo : lb.val < -half w
  · rw [if_pos hlo]
    exact hnone
  rw [if_neg hlo, if_neg (by omega), if_neg (by omega)]
  split
  · rename_i h
    rcases Nat.lt_or_eq_of_le hw.2 with hlt | rfl
    · rw [getMaxValue_val hw.1 hlt] at h
      have hres : (lb.extTrunc w true).val = _ :=
        extTrunc_past_upper hw.1 hlt (by omega) (by omega)
      exact shaped_of_regular (yieldsBounds_ok hres neg_one_val) (by omega) (by omega)
    · rw [getMaxValue_maxDigits] at h
      omega
  · exact hnone

theorem shaped_normalizeFromMin (hw : 0 < w ∧ w ≤ maxDigits) :
    Shaped w (.ok (normalizeFromMin w ub).repair) := by
  have hP := half_pos w
  have hmax := getSignedMaxValue_val hw.1 hw.2
  have hmin := getSignedMinValue_val hw.1 hw.2
  have hnone : Shaped w (.ok (Bounds.repair
      ⟨.regular, getSignedMaxValue w, getSignedMinValue w⟩)) :=
    shaped_of_regular (yieldsBounds_crossed hw _) (by omega) (by omega)
  by_cases hin : -half w ≤ ub.val ∧ ub.val < half w
  · exact shaped_of_regular (normalizeFromMin_inside hw hin.1 hin.2) (by omega) hin.2
  unfold normalizeFromMin
  simp only [ge_iff_le, gt_iff_lt, SignMag.lt_iff, SignMag.le_iff, hmin, hmax, SignMag.val_zero]
  by_cases hlo : ub.val < -half w
  · rw [if_pos hlo]
    exact hnone
  rw [if_neg hlo, if_neg (by omega), if_neg (by omega)]
  split
  · rename_i h
    rcases Nat.lt_or_eq_of_le hw.2 with hlt | rfl
    · rw [getMaxValue_val hw.1 hlt] at h
      have hres := signedResidue_past_upper hw.1 (y := ub.val) (by omega) (by omega)
      exact shaped_of_anti (yieldsBounds_ok (extTrunc_succ_val hw.1 hlt ub) neg_one_val)
        (by omega) (by omega) (by omega)
    · rw [getMaxValue_maxDigits] at h
      omega
  · exact hnone

/-! ## Bounds in order -/

/-- The predecessor of the least 4096-bit value is zero. -/
theorem sub_minDelta_val_least (h : lb.val = -(2 * half maxDigits) + 1) :
    (lb - MinDelta).val = 0 := by
  rw [SignMag.val_sub, minDelta_val, show lb.val - 1 = -2 ^ maxDigits by
    rw [h, ← two_mul_half_maxDigits]; omega]
  exact SignMag.val_ofInt_neg_two_pow

/-- The successor of the greatest 4096-bit value is zero. -/
theorem add_minDelta_val_greatest (h : ub.val = 2 * half maxDigits - 1) :
    (ub + MinDelta).val = 0 := by
  rw [SignMag.val_add, minDelta_val, show ub.val + 1 = 2 ^ maxDigits by
    rw [h, ← two_mul_half_maxDigits]; omega]
  exact SignMag.val_ofInt_two_pow

theorem shaped_full (hw : 0 < w ∧ w ≤ maxDigits) :
    Shaped w (.ok (Bounds.repair ⟨.regular, getSignedMinValue w, getSignedMaxValue w⟩)) :=
  shaped_of_regular (yieldsBounds_limits hw _) (by omega) (by omega)

variable {l0 u0 : APInt} {n : Nat}

theorem shaped_regular_iff (hw : 0 < w ∧ w ≤ maxDigits) (hle : lb.val ≤ ub.val) :
    Shaped w (normalizeRange w l0 u0 (n + 1) .regular lb ub) ↔
      ¬ RegularBreaks w lb.val ub.val := by
  have hP := half_pos w
  have h2 := two_le_half_maxDigits
  have hcap : w < maxDigits → 2 * half w ≤ half maxDigits := two_mul_half_le hw.1
  have hlb := lb.bounds
  by_cases hpred : lb - MinDelta = ub
  · have hval : ub.val = (lb - MinDelta).val := by rw [hpred]
    have hleast : lb.val = -(2 * half maxDigits) + 1 := by
      by_contra hne
      rw [sub_minDelta_val (by omega)] at hval
      omega
    rw [sub_minDelta_val_least hleast] at hval
    simp only [normalizeRange, if_pos hpred]
    refine iff_of_true (shaped_full hw) ?_
    rintro ⟨-, ⟨-, h, -⟩ | ⟨-, h | ⟨h, -⟩⟩⟩ <;> omega
  by_cases hmin : lb = Min
  · have hlb' := eq_min_iff.mp hmin
    have hbr : ¬ RegularBreaks w lb.val ub.val := by
      rintro ⟨-, ⟨h, h', hc | hc⟩ | ⟨-, h | ⟨h, h'⟩⟩⟩ <;> omega
    refine iff_of_true ?_ hbr
    simp only [normalizeRange]
    rw [if_neg hpred, if_neg (by rw [gt_iff_lt, SignMag.lt_iff]; omega)]
    by_cases hmax : ub = Max
    · rw [if_pos ⟨hmin, hmax⟩]
      exact shaped_full hw
    · rw [if_neg (fun h => hmax h.2), if_neg hmax, if_pos hmin]
      exact shaped_normalizeFromMin hw
  by_cases hmax : ub = Max
  · have hub' := eq_max_iff.mp hmax
    have hbr : ¬ RegularBreaks w lb.val ub.val := by
      rintro ⟨-, ⟨h, h', hc | hc⟩ | ⟨-, h | ⟨h, h'⟩⟩⟩ <;> omega
    refine iff_of_true ?_ hbr
    simp only [normalizeRange]
    rw [if_neg hpred, if_neg (by rw [gt_iff_lt, SignMag.lt_iff]; omega), if_neg (fun h => hmin h.1),
      if_pos hmax]
    exact shaped_normalizeToMax hw
  rw [normalizeRange_regular hle hpred hmin hmax]
  exact shaped_normalizeRegular_iff hw hle

/-- In-order Anti bounds that break the shape.  An infinite bound is first
    exchanged for the bound on the other side of the excluded interval. -/
def AntiBreaks (w : Nat) (p q : Int) : Prop :=
  if p = -half maxDigits then AntiCrossed w (half maxDigits) q
  else if q = half maxDigits - 1 then AntiCrossed w p (-half maxDigits - 1)
  else AntiCrossed w p q

theorem shaped_anti_of_min (hw : 0 < w ∧ w ≤ maxDigits) (hmin : lb = Min) (hle : lb.val ≤ ub.val)
    (hmax : ub ≠ Max) :
    Shaped w (normalizeRange w l0 u0 (n + 3) .anti lb ub) ↔
      ¬ AntiCrossed w (half maxDigits) ub.val := by
  have hP := half_pos w
  have h2 := two_le_half_maxDigits
  have hcap : w < maxDigits → 2 * half w ≤ half maxDigits := two_mul_half_le hw.1
  have hlb := eq_min_iff.mp hmin
  have hub := ub.bounds
  have hmaxv := max_val
  have hstep : normalizeRange w l0 u0 (n + 3) .anti lb ub =
      normalizeRange w l0 u0 (n + 2) .regular (ub + MinDelta) Max := by
    rw [normalizeRange]
    rw [if_neg (by rw [gt_iff_lt, SignMag.lt_iff]; omega), if_neg (fun h => hmax h.2), if_pos hmin]
  rw [ne_eq, eq_max_iff] at hmax
  rw [hstep]
  by_cases hgreatest : ub.val = 2 * half maxDigits - 1
  · have hsucc := add_minDelta_val_greatest hgreatest
    rw [shaped_regular_iff hw (by omega), hsucc, hmaxv]
    refine iff_of_true ?_ ?_
    · rintro ⟨-, ⟨-, h, -⟩ | ⟨-, h | ⟨h, -⟩⟩⟩ <;> omega
    · rintro ⟨h, -, h', -⟩
      have := hcap h
      omega
  have hsucc : (ub + MinDelta).val = ub.val + 1 := add_minDelta_val (by omega)
  by_cases hle' : ub.val < half maxDigits
  · rw [shaped_regular_iff hw (by omega), hsucc, hmaxv]
    refine iff_of_true ?_ ?_
    · rintro ⟨-, ⟨-, h, -⟩ | ⟨-, h | ⟨-, h⟩⟩⟩ <;> omega
    · rintro ⟨-, h, -⟩
      omega
  · -- the swap of crossed bounds leads back to Anti
    have hc : (Max + MinDelta).val = half maxDigits := by
      rw [add_minDelta_val (by omega)]
      omega
    have hback : (ub + MinDelta - MinDelta).val = ub.val := by
      rw [sub_minDelta_val (by omega)]
      omega
    rw [normalizeRange]
    rw [if_neg (by rw [SignMag.eq_iff]; omega), if_pos (by rw [gt_iff_lt, SignMag.lt_iff]; omega),
      normalizeRange_anti (by omega) (by rw [ne_eq, eq_min_iff]; omega)
        (by rw [ne_eq, eq_max_iff]; omega),
      shaped_normalizeAnti_iff hw (by omega), hc, hback]

/-- The least value, excluded together with everything up to `Max`. -/
theorem not_antiCrossed_least (h0 : 0 < w) :
    ¬ AntiCrossed w (-(2 * half maxDigits) + 1) (-half maxDigits - 1) := by
  rintro ⟨hw, -, hlen, ⟨h, -⟩ | ⟨-, h⟩⟩
  · have hP := half_pos w
    have h2 := two_le_half_maxDigits
    omega
  have hP := half_pos w
  have hcap := two_mul_half_le h0 hw
  have hC : half maxDigits = 2 * half w := by omega
  have hq : signedResidue w (-half maxDigits - 1) = -1 := by
    rw [signedResidue_past_lower h0 (by omega) (by omega)]
    omega
  have hp : -1 ≤ signedResidue w (-(2 * half maxDigits) + 1) := by
    by_cases hone : 1 < half w
    · rw [← signedResidue_add_turn h0, signedResidue_past_lower h0 (by omega) (by omega)]
      omega
    · have := neg_half_le_signedResidue h0 (-(2 * half maxDigits) + 1)
      omega
  omega

theorem shaped_anti_of_max (hw : 0 < w ∧ w ≤ maxDigits) (hmin : lb ≠ Min) (hle : lb.val ≤ ub.val)
    (hmax : ub = Max) :
    Shaped w (normalizeRange w l0 u0 (n + 3) .anti lb ub) ↔
      ¬ AntiCrossed w lb.val (-half maxDigits - 1) := by
  have hP := half_pos w
  have h2 := two_le_half_maxDigits
  have hub := eq_max_iff.mp hmax
  have hlb := lb.bounds
  have hminv := min_val
  have hstep : normalizeRange w l0 u0 (n + 3) .anti lb ub =
      normalizeRange w l0 u0 (n + 2) .regular Min (lb - MinDelta) := by
    rw [normalizeRange]
    rw [if_neg (by rw [gt_iff_lt, SignMag.lt_iff]; omega), if_neg (fun h => hmin h.1),
      if_neg hmin, if_pos hmax]
  rw [ne_eq, eq_min_iff] at hmin
  rw [hstep]
  by_cases hleast : lb.val = -(2 * half maxDigits) + 1
  · have hpred := sub_minDelta_val_least hleast
    rw [shaped_regular_iff hw (by omega), hpred, hminv, hleast]
    refine iff_of_true ?_ (not_antiCrossed_least hw.1)
    rintro ⟨-, ⟨-, h, -⟩ | ⟨-, h | ⟨h, -⟩⟩⟩ <;> omega
  have hpred : (lb - MinDelta).val = lb.val - 1 := sub_minDelta_val (by omega)
  by_cases hle' : -half maxDigits < lb.val
  · rw [shaped_regular_iff hw (by omega), hpred, hminv]
    refine iff_of_true ?_ ?_
    · rintro ⟨-, ⟨-, h, -⟩ | ⟨-, h | ⟨-, h⟩⟩⟩ <;> omega
    · rintro ⟨-, h, -⟩
      omega
  · have hc : (Min - MinDelta).val = -half maxDigits - 1 := by
      rw [sub_minDelta_val (by omega)]
      omega
    have hback : (lb - MinDelta + MinDelta).val = lb.val := by
      rw [add_minDelta_val (by omega)]
      omega
    rw [normalizeRange]
    rw [if_neg (by rw [SignMag.eq_iff]; omega), if_pos (by rw [gt_iff_lt, SignMag.lt_iff]; omega),
      normalizeRange_anti (by omega) (by rw [ne_eq, eq_min_iff]; omega)
        (by rw [ne_eq, eq_max_iff]; omega),
      shaped_normalizeAnti_iff hw (by omega), hc, hback]

theorem shaped_anti_iff (hw : 0 < w ∧ w ≤ maxDigits) (hle : lb.val ≤ ub.val) :
    Shaped w (normalizeRange w l0 u0 (n + 3) .anti lb ub) ↔ ¬ AntiBreaks w lb.val ub.val := by
  unfold AntiBreaks
  by_cases hmin : lb = Min
  · rw [if_pos (eq_min_iff.mp hmin)]
    by_cases hmax : ub = Max
    · have hub := eq_max_iff.mp hmax
      rw [normalizeRange]
      rw [if_neg (by rw [gt_iff_lt, SignMag.lt_iff]; omega), if_pos ⟨hmin, hmax⟩]
      refine iff_of_true (fun d hd => ?_) (fun h => ?_)
      · cases hd
        exact ⟨fun h => RangeType.noConfusion h, fun h => RangeType.noConfusion h⟩
      · have := h.2.1
        omega
    · exact shaped_anti_of_min hw hmin hle hmax
  rw [if_neg (mt eq_min_iff.mpr hmin)]
  by_cases hmax : ub = Max
  · rw [if_pos (eq_max_iff.mp hmax)]
    exact shaped_anti_of_max hw hmin hle hmax
  · rw [if_neg (mt eq_max_iff.mpr hmax), normalizeRange_anti hle hmin hmax]
    exact shaped_normalizeAnti_iff hw hle

/-! ## The constructor -/

/-- The bounds for which the range built is not well formed. -/
def ConstructorBreaks (t : RangeType) (w : Nat) (lb ub : Int) : Prop :=
  match t with
  | .empty => False
  | .unknown => False
  | .regular => if lb ≤ ub then RegularBreaks w lb ub else AntiBreaks w (ub + 1) (lb - 1)
  | .anti => if lb ≤ ub then AntiBreaks w lb ub else RegularBreaks w (ub + 1) (lb - 1)

theorem shaped_of_improper {t : RangeType} (ht : t = .empty ∨ t = .unknown) :
    Shaped w (normalizeRange w l0 u0 (n + 1) t lb ub) := by
  rcases ht with rfl | rfl
  all_goals
    intro d hd
    rw [normalizeRange] at hd
    injection hd with hd
    subst hd
    exact ⟨fun h => by simp at h, fun h => by simp at h⟩

theorem shaped_regular_of_crossed (hw : 0 < w ∧ w ≤ maxDigits) (hgt : ub.val < lb.val) :
    Shaped w (normalizeRange w l0 u0 4 .regular lb ub) ↔
      ¬ AntiBreaks w (ub.val + 1) (lb.val - 1) := by
  have hlb := lb.bounds
  have hub := ub.bounds
  have hpred : (lb - MinDelta).val = lb.val - 1 := sub_minDelta_val (by omega)
  have hsucc : (ub + MinDelta).val = ub.val + 1 := add_minDelta_val (by omega)
  rw [normalizeRange]
  by_cases heq : lb - MinDelta = ub
  · rw [if_pos heq]
    rw [SignMag.eq_iff, hpred] at heq
    refine iff_of_true (shaped_full hw) ?_
    unfold AntiBreaks
    split
    · exact fun h => by have := h.2.1; omega
    · split <;> exact fun h => by have := h.2.1; omega
  · rw [if_neg heq, if_pos (SignMag.lt_iff.mpr hgt)]
    rw [SignMag.eq_iff, hpred] at heq
    rw [shaped_anti_iff hw (by omega), hpred, hsucc]

theorem shaped_anti_of_crossed (hw : 0 < w ∧ w ≤ maxDigits) (hgt : ub.val < lb.val) :
    Shaped w (normalizeRange w l0 u0 4 .anti lb ub) ↔
      ¬ RegularBreaks w (ub.val + 1) (lb.val - 1) := by
  have hlb := lb.bounds
  have hub := ub.bounds
  have hpred : (lb - MinDelta).val = lb.val - 1 := sub_minDelta_val (by omega)
  have hsucc : (ub + MinDelta).val = ub.val + 1 := add_minDelta_val (by omega)
  rw [normalizeRange]
  rw [if_pos (SignMag.lt_iff.mpr hgt)]
  by_cases hone : lb.val = ub.val + 1
  · have heq : ub + MinDelta - MinDelta = lb - MinDelta := by
      rw [show ub + MinDelta = lb from SignMag.ext (by rw [hsucc, hone])]
    rw [normalizeRange]
    rw [if_pos heq]
    exact iff_of_true (shaped_full hw) (fun h => by have := h.1; omega)
  · rw [shaped_regular_iff hw (by omega), hpred, hsucc]

end Shaped

/-- The bounds for which the constructor builds a well-formed range. -/
theorem constructor_wellFormed_iff (w : Nat) (h0 : 0 < w) (hw : w ≤ maxDigits) (t : RangeType)
    (lb ub : APInt) :
    (∀ r, ofBounds t w lb ub = .ok r → r.WellFormed) ↔ ¬ ConstructorBreaks t w lb.val ub.val := by
  have hw' : 0 < w ∧ w ≤ maxDigits := ⟨h0, hw⟩
  have hshape : (∀ r, ofBounds t w lb ub = .ok r → r.WellFormed) ↔
      Shaped w (normalizeRange w lb ub 4 t lb ub) := by
    rw [ofBounds_eq hw']
    constructor
    · intro h d hd
      rw [hd] at h
      exact h _ rfl
    · intro h r hr
      cases hd : normalizeRange w lb ub 4 t lb ub with
      | error e =>
        rw [hd] at hr
        cases hr
      | ok d =>
        rw [hd] at hr
        cases hr
        exact h d hd
  rw [hshape]
  unfold ConstructorBreaks
  cases t with
  | empty => exact iff_of_true (shaped_of_improper (Or.inl rfl)) id
  | unknown => exact iff_of_true (shaped_of_improper (Or.inr rfl)) id
  | regular =>
    by_cases hle : lb.val ≤ ub.val
    · simp only [if_pos hle]
      exact shaped_regular_iff hw' hle
    · simp only [if_neg hle]
      exact shaped_regular_of_crossed hw' (by omega)
  | anti =>
    by_cases hle : lb.val ≤ ub.val
    · simp only [if_pos hle]
      exact shaped_anti_iff hw' hle
    · simp only [if_neg hle]
      exact shaped_anti_of_crossed hw' (by omega)

theorem constructor_wellFormed_iff_at_eight :
    (∀ r, ofBounds .anti 8 (-200) (-190) = .ok r → r.WellFormed) ↔
      ¬ ConstructorBreaks .anti 8 (-200 : APInt).val (-190 : APInt).val :=
  constructor_wellFormed_iff 8 (by decide) (by decide) .anti (-200) (-190)

/-- What the constructor builds from two bounds below the limits. -/
def brokenRange : {r : Range // ofBounds .anti 8 (-200) (-190) = .ok r ∧ ¬ r.WellFormed} :=
  ⟨⟨Min, Max, 8, .anti, by decide⟩, by decide +kernel⟩

/-- The Anti range of two bounds below the limits of eight bits is repaired to
    the infinite bounds. -/
theorem constructor_not_wellFormed :
    ¬ ∀ (w : Nat) (t : RangeType) (lb ub : APInt), 0 < w → w ≤ maxDigits →
      ∀ r, ofBounds t w lb ub = .ok r → r.WellFormed := by
  intro h
  obtain ⟨hr, hbroken⟩ := brokenRange.property
  exact hbroken (h 8 .anti (-200) (-190) (by decide) (by decide) _ hr)

/-! ## Ranges built by the constructor -/

/-- The bounds of a Regular or an Anti range are the infinite ones or are within
    the limits. -/
def Bounds.Normalized (w : Nat) (d : Bounds) : Prop :=
  d.type = .regular ∨ d.type = .anti → (d.l = Min ∧ d.u = Max) ∨
    (-half w ≤ d.l.val ∧ d.l.val ≤ d.u.val ∧ d.u.val < half w)

theorem normalized_repair {w : Nat} {t : RangeType} {l u : APInt} (hl : -half w ≤ l.val)
    (hu : u.val < half w) : (Bounds.repair ⟨t, l, u⟩).Normalized w := by
  intro _
  by_cases h : l.val ≤ u.val
  · rw [repair_of_le h]
    exact Or.inr ⟨hl, h, hu⟩
  · rw [repair_of_lt (by omega)]
    exact Or.inl ⟨rfl, rfl⟩

section Normalized

variable {w : Nat} {lb ub l0 u0 : APInt} {d : Bounds}

theorem le_of_normalizeAnti (h : normalizeAnti w lb ub = .ok d) : lb.val ≤ ub.val := by
  unfold normalizeAnti at h
  exact SignMag.le_iff.mp (throwAssert_bind_ok h).1

theorem le_of_normalizeRegular (h : normalizeRegular w lb ub = .ok d) : lb.val ≤ ub.val := by
  unfold normalizeRegular at h
  exact SignMag.le_iff.mp (throwAssert_bind_ok h).1

theorem extTrunc_mem (h0 : 0 < w) (hw : w < maxDigits) (v : APInt) :
    -half w ≤ (v.extTrunc w true).val ∧ (v.extTrunc w true).val < half w := by
  rw [extTrunc_signed_val h0 hw]
  exact signedResidue_mem h0 v.val

theorem normalized_limits (hw : 0 < w ∧ w ≤ maxDigits) (t : RangeType) :
    (Bounds.repair ⟨t, getSignedMinValue w, getSignedMaxValue w⟩).Normalized w := by
  have hmax := getSignedMaxValue_val hw.1 hw.2
  have hmin := getSignedMinValue_val hw.1 hw.2
  exact normalized_repair (by omega) (by omega)

theorem normalized_crossed (hw : 0 < w ∧ w ≤ maxDigits) (t : RangeType) :
    (Bounds.repair ⟨t, getSignedMaxValue w, getSignedMinValue w⟩).Normalized w := by
  have hP := half_pos w
  have hmax := getSignedMaxValue_val hw.1 hw.2
  have hmin := getSignedMinValue_val hw.1 hw.2
  exact normalized_repair (by omega) (by omega)

/-- One bound truncated, the other within the limits, each moved by one. -/
theorem normalized_past_upper (h0 : 0 < w) (hw : w < maxDigits) (t : RangeType)
    (hlo : -half w ≤ lb.val) (hhi : lb.val < half w) :
    (Bounds.repair ⟨t, ub.extTrunc w true + MinDelta, lb - MinDelta⟩).Normalized w := by
  have hcap := two_mul_half_le h0 hw
  have hu := extTrunc_succ_val h0 hw ub
  have hres := neg_half_le_signedResidue h0 ub.val
  have hpred : (lb - MinDelta).val = lb.val - 1 := sub_minDelta_val (by omega)
  exact normalized_repair (by omega) (by omega)

theorem normalized_past_lower (h0 : 0 < w) (hw : w < maxDigits) (t : RangeType)
    (hlo : -half w ≤ ub.val) (hhi : ub.val < half w) :
    (Bounds.repair ⟨t, ub + MinDelta, lb.extTrunc w true - MinDelta⟩).Normalized w := by
  have hcap := two_mul_half_le h0 hw
  have hl := extTrunc_pred_val h0 hw lb
  have hres := signedResidue_lt_half h0 lb.val
  have hsucc : (ub + MinDelta).val = ub.val + 1 := add_minDelta_val (by omega)
  exact normalized_repair (by omega) (by omega)

theorem normalized_normalizeAnti (h0 : 0 < w) (hw : w < maxDigits)
    (h : normalizeAnti w lb ub = .ok d) : d.repair.Normalized w := by
  have hw' : 0 < w ∧ w ≤ maxDigits := ⟨h0, hw.le⟩
  have hl := extTrunc_mem h0 hw lb
  have hu := extTrunc_mem h0 hw ub
  rw [normalizeAnti_eq hw' (le_of_normalizeAnti h)] at h
  split_ifs at h <;> cases h
  · exact normalized_repair hl.1 hu.2
  · exact normalized_limits hw' _
  · exact normalized_repair hu.1 hl.2
  · exact normalized_limits hw' _
  · exact normalized_past_upper h0 hw _ (by omega) (by omega)
  · exact normalized_limits hw' _
  · exact normalized_past_lower h0 hw _ (by omega) (by omega)
  · exact normalized_limits hw' _
  · exact normalized_repair (by omega) (by omega)

theorem normalized_normalizeRegular (h0 : 0 < w) (hw : w < maxDigits)
    (h : normalizeRegular w lb ub = .ok d) : d.repair.Normalized w := by
  have hw' : 0 < w ∧ w ≤ maxDigits := ⟨h0, hw.le⟩
  have hl := extTrunc_mem h0 hw lb
  have hu := extTrunc_mem h0 hw ub
  rw [normalizeRegular_eq hw' (le_of_normalizeRegular h)] at h
  split_ifs at h <;> cases h
  · exact normalized_crossed hw' _
  · exact normalized_repair hl.1 hu.2
  · exact normalized_repair hu.1 hl.2
  · exact normalized_past_upper h0 hw _ (by omega) (by omega)
  · exact normalized_crossed hw' _
  · exact normalized_past_lower h0 hw _ (by omega) (by omega)
  · exact normalized_crossed hw' _
  · exact normalized_repair (by omega) (by omega)

theorem Bounds.WellFormed.normalized (h : d.WellFormed w) : d.Normalized w := by
  rintro (ht | ht)
  · exact h.1 ht
  · exact Or.inr (h.2 ht)

/-- The chain of swaps ends in one of the bodies: what holds of the bounds each
    of them leaves holds of the bounds `normalizeRange` returns. -/
theorem normalizeRange_induct {P : Bounds → Prop} {t : RangeType}
    (hrepaired : P (Bounds.repair ⟨.empty, Min, Max⟩))
    (hunknown : t = .unknown → P (Bounds.repair ⟨.unknown, Min, Max⟩))
    (hempty : P ⟨.empty, l0, u0⟩)
    (hfull : P (Bounds.repair ⟨.regular, getSignedMinValue w, getSignedMaxValue w⟩))
    (htoMax : ∀ lb, P (normalizeToMax w lb).repair)
    (hfromMin : ∀ ub, P (normalizeFromMin w ub).repair)
    (hanti : ∀ lb ub d, lb ≠ Min → ub ≠ Max → normalizeAnti w lb ub = .ok d → P d.repair)
    (hregular : ∀ lb ub d, normalizeRegular w lb ub = .ok d → P d.repair) (n : Nat)
    (h : normalizeRange w l0 u0 n t lb ub = .ok d) : P d := by
  have hmap : ∀ {x : Except Error Bounds}, (∀ b, x = .ok b → P b.repair) →
      x.map Bounds.repair = .ok d → P d := by
    intro x hx hd
    cases x with
    | error e => cases hd
    | ok b =>
      cases hd
      exact hx b rfl
  induction n generalizing t lb ub with
  | zero => cases h
  | succ n ih =>
    cases t with
    | empty =>
      rw [normalizeRange] at h
      exact Except.ok.inj h ▸ hrepaired
    | unknown =>
      rw [normalizeRange] at h
      exact Except.ok.inj h ▸ hunknown rfl
    | anti =>
      rw [normalizeRange] at h
      split_ifs at h with hgt hboth hmin hmax
      · exact ih (fun ht => RangeType.noConfusion ht) h
      · exact Except.ok.inj h ▸ hempty
      · exact ih (fun ht => RangeType.noConfusion ht) h
      · exact ih (fun ht => RangeType.noConfusion ht) h
      · exact hmap (fun b hb => hanti lb ub b hmin hmax hb) h
    | regular =>
      rw [normalizeRange] at h
      split_ifs at h
      · exact Except.ok.inj h ▸ hfull
      · exact ih (fun ht => RangeType.noConfusion ht) h
      · exact Except.ok.inj h ▸ hfull
      · exact Except.ok.inj h ▸ htoMax lb
      · exact Except.ok.inj h ▸ hfromMin ub
      · exact hmap (hregular lb ub) h

theorem normalized_normalizeRange (h0 : 0 < w) (hw : w < maxDigits) (n : Nat) (t : RangeType)
    (lb ub : APInt) (d : Bounds) (h : normalizeRange w l0 u0 n t lb ub = .ok d) :
    d.Normalized w := by
  have hw' : 0 < w ∧ w ≤ maxDigits := ⟨h0, hw.le⟩
  refine normalizeRange_induct ?_ (fun _ => ?_) ?_ (normalized_limits hw' _)
    (fun lb => (shaped_normalizeToMax hw' _ rfl).normalized)
    (fun ub => (shaped_normalizeFromMin hw' _ rfl).normalized)
    (fun _ _ _ _ _ h => normalized_normalizeAnti h0 hw h)
    (fun _ _ _ h => normalized_normalizeRegular h0 hw h) n h
  all_goals
    rintro (ht | ht)
    · simp at ht
    · simp at ht

end Normalized

/-! ### At the capacity -/

/-- At the capacity a Regular range may also lie wholly outside the limits, and
    an Anti range keeps clear of them. -/
def Bounds.NormalizedAtCapacity (d : Bounds) : Prop :=
  (d.type = .regular → (-half maxDigits ≤ d.l.val ∧ d.l.val ≤ d.u.val ∧ d.u.val < half maxDigits) ∨
    half maxDigits ≤ d.l.val ∨ d.u.val < -half maxDigits) ∧
  (d.type = .anti → (d.l = Min ∧ d.u = Max) ∨
    (-half maxDigits < d.l.val ∧ d.l.val ≤ d.u.val ∧ d.u.val < half maxDigits - 1))

section Capacity

variable {lb ub l0 u0 : APInt} {d : Bounds}

theorem normalizedAtCapacity_of_crossed {l u : APInt} (h : u.val < l.val) :
    (Bounds.repair ⟨.regular, l, u⟩).NormalizedAtCapacity := by
  have hmin := min_val
  have hmax := max_val
  have hP := half_pos maxDigits
  rw [repair_of_lt h]
  exact ⟨fun _ => Or.inl ⟨by rw [hmin], by rw [hmin, hmax]; omega, by rw [hmax]; omega⟩,
    fun h => by simp at h⟩

theorem normalizedAtCapacity_of_regular {l u : APInt} (hl : -half maxDigits ≤ l.val)
    (hu : u.val < half maxDigits) :
    (Bounds.repair ⟨.regular, l, u⟩).NormalizedAtCapacity := by
  by_cases h : l.val ≤ u.val
  · rw [repair_of_le h]
    exact ⟨fun _ => Or.inl ⟨hl, h, hu⟩, fun h => by simp at h⟩
  · exact normalizedAtCapacity_of_crossed (by omega)

theorem normalizedAtCapacity_limits : (Bounds.repair ⟨.regular, getSignedMinValue maxDigits,
    getSignedMaxValue maxDigits⟩).NormalizedAtCapacity :=
  normalizedAtCapacity_of_regular min_val.ge (by have := max_val; unfold Max at this; omega)

theorem normalizedAtCapacity_crossed : (Bounds.repair ⟨.regular, getSignedMaxValue maxDigits,
    getSignedMinValue maxDigits⟩).NormalizedAtCapacity := by
  have hmin := min_val
  have hmax := max_val
  have hP := half_pos maxDigits
  exact normalizedAtCapacity_of_crossed (l := Max) (u := Min) (by omega)

theorem normalizedAtCapacity_normalizeAnti (hmin : lb ≠ Min) (hmax : ub ≠ Max)
    (h : normalizeAnti maxDigits lb ub = .ok d) : d.repair.NormalizedAtCapacity := by
  have hle := le_of_normalizeAnti h
  rw [ne_eq, eq_min_iff] at hmin
  rw [ne_eq, eq_max_iff] at hmax
  simp only [normalizeAnti_eq bwValid_maxDigits hle, not_span_lt_maxDigits, false_and,
    if_false] at h
  split_ifs at h <;> cases h
  · exact normalizedAtCapacity_limits
  · exact normalizedAtCapacity_limits
  · exact normalizedAtCapacity_limits
  · exact normalizedAtCapacity_limits
  · rw [repair_of_le hle]
    exact ⟨(fun h => by simp at h), fun _ => Or.inr
      ⟨show -half maxDigits < lb.val by omega, hle, show ub.val < half maxDigits - 1 by omega⟩⟩

theorem normalizedAtCapacity_normalizeRegular
    (h : normalizeRegular maxDigits lb ub = .ok d) : d.repair.NormalizedAtCapacity := by
  have hle := le_of_normalizeRegular h
  simp only [normalizeRegular_eq bwValid_maxDigits hle, not_span_lt_maxDigits, false_and,
    if_false, extTrunc_maxDigits] at h
  split_ifs at h with h1 h2 h3 h4 h5 <;> cases h
  · exact normalizedAtCapacity_crossed
  · rw [repair_of_le hle]
    exact ⟨fun _ => Or.inr (Or.inl h2), fun h => by simp at h⟩
  · by_cases heq : ub.val ≤ lb.val
    · rw [repair_of_le heq]
      exact ⟨fun _ => Or.inr (Or.inr (show lb.val < -half maxDigits by omega)),
        fun h => by simp at h⟩
    · exact normalizedAtCapacity_of_crossed (by omega)
  · exact normalizedAtCapacity_crossed
  · exact normalizedAtCapacity_crossed
  · exact normalizedAtCapacity_of_regular (by omega) (by omega)

theorem normalizedAtCapacity_normalizeToMax :
    (normalizeToMax maxDigits lb).repair.NormalizedAtCapacity := by
  have hmaxS := getSignedMaxValue_val bwValid_maxDigits.1 le_rfl
  have hminS := getSignedMinValue_val bwValid_maxDigits.1 le_rfl
  unfold normalizeToMax
  simp only [ge_iff_le, gt_iff_lt, SignMag.lt_iff, SignMag.le_iff, hmaxS, hminS,
    getMaxValue_maxDigits, SignMag.val_zero]
  split_ifs
  · exact normalizedAtCapacity_crossed
  · exact normalizedAtCapacity_of_regular (by omega) (by omega)
  · exact normalizedAtCapacity_of_regular (by omega) (by omega)
  · omega
  · exact normalizedAtCapacity_crossed

theorem normalizedAtCapacity_normalizeFromMin :
    (normalizeFromMin maxDigits ub).repair.NormalizedAtCapacity := by
  have hmaxS := getSignedMaxValue_val bwValid_maxDigits.1 le_rfl
  have hminS := getSignedMinValue_val bwValid_maxDigits.1 le_rfl
  unfold normalizeFromMin
  simp only [ge_iff_le, gt_iff_lt, SignMag.lt_iff, SignMag.le_iff, hmaxS, hminS,
    getMaxValue_maxDigits, SignMag.val_zero]
  split_ifs
  · exact normalizedAtCapacity_crossed
  · exact normalizedAtCapacity_of_regular (by omega) (by omega)
  · exact normalizedAtCapacity_of_regular (by omega) (by omega)
  · omega
  · exact normalizedAtCapacity_crossed

theorem normalizedAtCapacity_normalizeRange (n : Nat) (t : RangeType) (lb ub : APInt) (d : Bounds)
    (h : normalizeRange maxDigits l0 u0 n t lb ub = .ok d) : d.NormalizedAtCapacity := by
  refine normalizeRange_induct ?_ (fun _ => ?_) ?_ normalizedAtCapacity_limits
    (fun _ => normalizedAtCapacity_normalizeToMax) (fun _ => normalizedAtCapacity_normalizeFromMin)
    (fun _ _ _ hmin hmax h => normalizedAtCapacity_normalizeAnti hmin hmax h)
    (fun _ _ _ h => normalizedAtCapacity_normalizeRegular h) n h
  all_goals exact ⟨fun ht => by simp at ht, fun ht => by simp at ht⟩

end Capacity

section Known

variable {w : Nat} {t : RangeType} {lb ub : APInt} {r : Range}

/-- The constructor makes no range Unknown. -/
theorem normalizeRange_type_ne_unknown {l0 u0 : APInt} (n : Nat) (ht : t ≠ .unknown) {d : Bounds}
    (h : normalizeRange w l0 u0 n t lb ub = .ok d) : d.type ≠ .unknown := by
  refine normalizeRange_induct (P := fun d => d.type ≠ .unknown) ?_ (fun h => absurd h ht)
    RangeType.noConfusion ?_ (fun lb => ?_) (fun ub => ?_) (fun lb ub d _ _ hd => ?_)
    (fun lb ub d hd => ?_) n h
  all_goals rw [repair_type]
  · exact RangeType.noConfusion
  · exact RangeType.noConfusion
  · unfold normalizeToMax
    dsimp only
    split_ifs <;> exact RangeType.noConfusion
  · unfold normalizeFromMin
    dsimp only
    split_ifs <;> exact RangeType.noConfusion
  · unfold normalizeAnti at hd
    obtain ⟨-, hd⟩ := throwAssert_bind_ok hd
    dsimp only at hd
    split_ifs at hd <;> injection hd with hd <;> rw [← hd] <;> exact RangeType.noConfusion
  · unfold normalizeRegular at hd
    obtain ⟨-, hd⟩ := throwAssert_bind_ok hd
    dsimp only at hd
    split_ifs at hd <;> injection hd with hd <;> rw [← hd] <;> exact RangeType.noConfusion

theorem ofBounds_type_ne_unknown (ht : t ≠ .unknown) (h : ofBounds t w lb ub = .ok r) :
    r.type ≠ .unknown := by
  unfold ofBounds at h
  split_ifs at h
  cases hx : normalizeRange w lb ub 4 t lb ub with
  | error e =>
    rw [hx] at h
    cases h
  | ok d =>
    rw [hx] at h
    injection h with h
    rw [← h]
    exact normalizeRange_type_ne_unknown 4 ht hx

end Known

/-- A range some call of the constructors returns. -/
inductive Built : Range → Prop where
  | ofType {t : RangeType} {w : Nat} {r : Range} (h : ofType t w = .ok r) : Built r
  | ofBounds {t : RangeType} {w : Nat} {lb ub : APInt} {r : Range}
      (h : ofBounds t w lb ub = .ok r) : Built r

theorem Built.exists_bounds {r : Range} (h : Built r) (ht : r.type = .regular ∨ r.type = .anti) :
    (r.l = Min ∧ r.u = Max) ∨
      ∃ t lb ub, normalizeRange r.bw lb ub 4 t lb ub = .ok ⟨r.type, r.l, r.u⟩ := by
  cases h with
  | @ofType t w _ h =>
    unfold Range.ofType at h
    split_ifs at h
    injection h with h
    subst h
    exact Or.inl ⟨rfl, rfl⟩
  | @ofBounds t w lb ub _ h =>
    unfold Range.ofBounds at h
    split_ifs at h with hv
    cases hx : normalizeRange w lb ub 4 t lb ub with
    | error e =>
      rw [hx] at h
      cases h
    | ok d =>
      rw [hx] at h
      injection h with h
      subst h
      exact Or.inr ⟨t, lb, ub, hx⟩

/-- Below the capacity a range built by the constructors is Empty, Unknown,
    infinite on both sides, or within the limits. -/
theorem Built.normalized {r : Range} (h : Built r) (hw : r.bw < maxDigits)
    (ht : r.type = .regular ∨ r.type = .anti) : (r.l = Min ∧ r.u = Max) ∨ r.InLimits := by
  rcases h.exists_bounds ht with h | ⟨t, lb, ub, h⟩
  · exact Or.inl h
  · exact normalized_normalizeRange r.bw_valid.1 hw 4 t lb ub _ h ht

/-- A Regular range built by the constructors with a value in it that is not
    infinite on both sides is within the limits. -/
theorem Built.inLimits_of_regular {r : Range} (h : Built r) (ht : r.type = .regular) {x : Int}
    (hx : x ∈ r.gamma) : (r.l = Min ∧ r.u = Max) ∨ r.InLimits := by
  rcases Nat.lt_or_eq_of_le r.bw_valid.2 with hlt | heq
  · exact h.normalized hlt (Or.inl ht)
  rcases h.exists_bounds (Or.inl ht) with h | ⟨t, lb, ub, h⟩
  · exact Or.inl h
  rw [heq] at h
  have hmem := hx.2
  have hxr := hx.1
  rw [ht] at hmem
  rcases (normalizedAtCapacity_normalizeRange 4 t lb ub _ h).1 ht with h | h | h
  · right
    unfold InLimits
    rwa [heq]
  · rw [heq] at hxr
    have : r.l.val ≤ x := hmem.1
    simp only at h
    omega
  · rw [heq] at hxr
    have : x ≤ r.u.val := hmem.2
    simp only at h
    omega

/-- An Anti range built by the constructors with a value in it is within the
    limits, and at the capacity clear of them. -/
theorem Built.inLimits_of_anti {r : Range} (h : Built r) (ht : r.type = .anti) {x : Int}
    (hx : x ∈ r.gamma) : r.InLimits ∧ (r.bw = maxDigits →
      -half maxDigits < r.l.val ∧ r.u.val < half maxDigits - 1) := by
  have hcap := half_le_half r.bw_valid.2
  have hmem := hx.2
  have hxr := hx.1
  rw [ht] at hmem
  have hne : ¬ (r.l = Min ∧ r.u = Max) := by
    rintro ⟨hl, hu⟩
    rw [hl, hu, min_val, max_val] at hmem
    rcases hmem with h | h <;> omega
  rcases Nat.lt_or_eq_of_le r.bw_valid.2 with hlt | heq
  · exact ⟨(h.normalized hlt (Or.inr ht)).resolve_left hne, fun h => by omega⟩
  obtain ⟨t, lb, ub, h⟩ := (h.exists_bounds (Or.inr ht)).resolve_left hne
  rw [heq] at h
  obtain ⟨h1, h2, h3⟩ :=
    ((normalizedAtCapacity_normalizeRange 4 t lb ub _ h).2 ht).resolve_left hne
  simp only at h1 h2 h3
  refine ⟨?_, fun _ => ⟨h1, h3⟩⟩
  unfold InLimits
  rw [heq]
  exact ⟨by omega, h2, by omega⟩

/-- A range built by the constructors with a value in it is well formed. -/
theorem Built.wellFormed {r : Range} (h : Built r) {x : Int} (hx : x ∈ r.gamma) : r.WellFormed :=
  ⟨fun ht => h.inLimits_of_regular ht hx, fun ht => (h.inLimits_of_anti ht hx).1⟩

end Range
end Bambu
