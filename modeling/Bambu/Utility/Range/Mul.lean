/-
  Bambu.Utility.Range.Mul

  `Range::mul`: the operands are read as unsigned and as signed, the products of the extrema are
  cut from twice the width to the width, and the smaller of the two ranges is returned.

  `truncate` swaps the ends of a negative interval whose residues turn at a limit, so that what
  lies between them is lost.  The signed products are such an interval where the operands have
  different signs, the unsigned ones where both operands are negative and their unsigned
  products reach the upper half of the double width; `MulLoss` says when the range that has lost
  its inside is also the one that is returned.
-/

import Bambu.Utility.Range.Compare
import Bambu.Utility.Range.Shift

namespace Bambu
namespace Range

open Bambu.Math APInt

/-! ## The operation -/

/-- `UR`: the operands as unsigned numbers. -/
def mulUnsigned (this other : Range) : Except Error Range := do
  let this_min ← this.getUnsignedMin
  let this_max ← this.getUnsignedMax
  let Other_min ← other.getUnsignedMin
  let Other_max ← other.getUnsignedMax
  let Result_zext ←
    ofBounds .regular (this.bw * 2) (this_min * Other_min) (this_max * Other_max)
  Result_zext.truncate this.bw

/-- `SR`: the operands as signed numbers. -/
def mulSigned (this other : Range) : Except Error Range := do
  let this_min ← this.getSignedMin
  let this_max ← this.getSignedMax
  let Other_min ← other.getSignedMin
  let Other_max ← other.getSignedMax
  let products := [this_min * Other_min, this_min * Other_max, this_max * Other_min,
    this_max * Other_max]
  let Result_sext ←
    ofBounds .regular (this.bw * 2) (minElement products) (maxElement products)
  Result_sext.truncate this.bw

def mul (this other : Range) : Except Error Range :=
  onProper this other this.bw do
    let full ← this.isFullSet <||> other.isFullSet
    if full ∨ this.isAnti ∨ other.isAnti then ofType .regular this.bw
    else do
      let UR ← mulUnsigned this other
      let SR ← mulSigned this other
      if (← UR.getSpan) < (← SR.getSpan) then .ok UR else .ok SR

/-! ## Cutting an interval of products -/

section Cut

variable {r : Range} {w W : Nat} {p q : APInt}

theorem two_mul_half_double (h0 : 0 < w) : 2 * half (w * 2) = 2 * half w * (2 * half w) := by
  rw [two_mul_half (by omega), two_mul_half h0, ← pow_add, mul_two]

/-- The number of values of a range, and that it is one. -/
def Spans (x : Except Error Range) (w : Nat) (n : Int) : Prop :=
  ∃ t s, x = .ok t ∧ t.bw = w ∧ t.getSpan = .ok s ∧ s.val = n

theorem getMaxValue_succ (h0 : 0 < w) (hw : w < maxDigits) :
    (getMaxValue w + 1).val = 2 * half w := by
  have hmax := getMaxValue_val h0 hw
  have hcap := two_mul_half_le h0 hw
  have hP := half_pos w
  have h2 := two_le_half_maxDigits
  rw [add_val] <;> rw [one_val, hmax] <;> omega

theorem spans_full (h0 : 0 < w) (hw : w < maxDigits) : Spans (ofType .regular w) w (2 * half w) := by
  have hcap := half_le_half hw.le
  have hfull : (⟨Min, Max, w, .regular, ⟨h0, hw.le⟩⟩ : Range).IsFull := by
    refine ⟨rfl, ?_, ?_⟩
    · show Min.val ≤ -half w
      rw [min_val]
      omega
    · show half w - 1 ≤ Max.val
      rw [max_val]
      omega
  refine ⟨⟨Min, Max, w, .regular, ⟨h0, hw.le⟩⟩, _, ?_, rfl, getSpan_of_full hfull,
    getMaxValue_succ h0 hw⟩
  rw [ofType, dif_pos ⟨h0, hw.le⟩]

/-- An interval within the limits has as many values as it encloses. -/
theorem Yields.spans_regular {x : Except Error Range} {a b : Int} (h0 : 0 < w)
    (hw : w < maxDigits) (h : Yields x w .regular a b) (hlo : -half w ≤ a) (hle : a ≤ b)
    (hhi : b < half w) : Spans x w (b - a + 1) := by
  obtain ⟨t, rfl, rfl, ht, rfl, rfl⟩ := h
  by_cases hf : t.IsFull
  · have h1 := hf.2.1
    have h2 := hf.2.2
    refine ⟨t, _, rfl, rfl, getSpan_of_full hf, ?_⟩
    rw [getMaxValue_succ h0 hw]
    omega
  · obtain ⟨s, hs, hsv⟩ := getSpan_of_limits ht ⟨hlo, hle, hhi⟩ hf
    exact ⟨t, s, rfl, rfl, hs, by omega⟩

theorem Yields.spans_anti {x : Except Error Range} {a b : Int} (h0 : 0 < w)
    (hw : w < maxDigits) (h : Yields x w .anti a b) (hlo : -half w ≤ a) (hle : a ≤ b)
    (hhi : b < half w) : Spans x w (2 * half w - (b - a + 1)) := by
  obtain ⟨t, rfl, rfl, ht, rfl, rfl⟩ := h
  have hcap := two_mul_half_le h0 hw
  have hmax := getMaxValue_val h0 hw
  refine ⟨t, _, rfl, rfl, getSpan_of_anti ht, ?_⟩
  have hdiff : (t.u - t.l).val = t.u.val - t.l.val := sub_val (by omega) (by omega)
  rw [sub_val] <;> rw [hmax, hdiff] <;> omega

/-- Crossed bounds of a range that is not negative: the gap is excluded. -/
theorem truncateExtrema_of_nonneg {a b : APInt} (h0 : 0 < w) (hw : w < maxDigits)
    (ha : 0 ≤ a.val) (hgt : signedResidue w b.val < signedResidue w a.val) :
    truncateExtrema w a b = ofBounds .anti w (b.extTrunc w true + 1) (a.extTrunc w true - 1) := by
  have hs := extTrunc_signed_val h0 hw a
  have ht := extTrunc_signed_val h0 hw b
  unfold truncateExtrema
  simp only [extOrTrunc_of_pos h0, ok_bind, zero_le_iff, gt_iff_lt, SignMag.lt_iff, hs, ht,
    SignMag.val_zero]
  rw [if_neg (by omega), if_neg (by omega), if_pos hgt, if_neg (by omega)]

theorem spans_truncateExtrema_of_nonneg {a b : APInt} (h0 : 0 < w) (hw : w < maxDigits)
    (ha : 0 ≤ a.val) (hgt : signedResidue w b.val < signedResidue w a.val) :
    Spans (truncateExtrema w a b) w
      (2 * half w - (signedResidue w a.val - signedResidue w b.val - 1)) := by
  obtain ⟨ha1, ha2⟩ := signedResidue_mem h0 a.val
  obtain ⟨hb1, hb2⟩ := signedResidue_mem h0 b.val
  have hP := half_pos w
  have hcap := half_lt_half_maxDigits h0 hw
  have hs := extTrunc_signed_val h0 hw a
  have hu := extTrunc_signed_val h0 hw b
  have hsucc : (b.extTrunc w true + 1).val = (b.extTrunc w true).val + 1 :=
    add_minDelta_val (by omega)
  have hpred : (a.extTrunc w true - 1).val = (a.extTrunc w true).val - 1 :=
    sub_minDelta_val (by omega)
  rw [truncateExtrema_of_nonneg h0 hw ha hgt]
  by_cases hadj : signedResidue w a.val = signedResidue w b.val + 1
  · have hspan := (@yields_anti_adjacent _ (b.extTrunc w true + 1) (a.extTrunc w true - 1) h0 hw.le
      (by omega) (by omega) (by omega)).spans_regular h0 hw
      le_rfl (by omega) (by omega)
    rwa [show half w - 1 - -half w + 1 =
      2 * half w - (signedResidue w a.val - signedResidue w b.val - 1) by omega] at hspan
  · have hy : Yields (ofBounds .anti w (b.extTrunc w true + 1) (a.extTrunc w true - 1)) w
        .anti _ _ := yields_anti ⟨h0, hw.le⟩ (by omega) (by omega) (by omega)
      ((normalizeAnti_inside ⟨h0, hw.le⟩ (by omega) (by omega) (by omega)).repair (by omega))
    have hspan := hy.spans_anti h0 hw (by omega) (by omega) (by omega)
    rwa [hsucc, hpred, hs, hu, show signedResidue w a.val - 1 - (signedResidue w b.val + 1) + 1 =
      signedResidue w a.val - signedResidue w b.val - 1 by omega] at hspan

section Limits

variable (ht : r.type = .regular) (hlim : r.InLimits) (hf : ¬ r.IsFull) (h0 : 0 < w)
  (hw : w < r.bw)

include ht hlim hf h0 hw

/-- What is not negative keeps its number of values, up to a turn. -/
theorem spans_cut_of_nonneg (hnn : 0 ≤ r.l.val) :
    Spans (r.truncate w) w (min (r.u.val - r.l.val + 1) (2 * half w)) := by
  have hwd : w < maxDigits := hw.trans_le r.bw_valid.2
  have hle := hlim.2.1
  rw [truncate_of_limits ht hlim hf h0 hw]
  by_cases hlong : 2 * half w ≤ r.u.val - r.l.val
  · rw [if_pos hlong, min_eq_right (by omega)]
    exact spans_full h0 hwd
  rw [if_neg hlong, min_eq_left (by omega)]
  have hres := signedResidue_of_le_of_lt h0 hle (by omega)
  obtain ⟨hl1, hl2⟩ := signedResidue_mem h0 r.l.val
  obtain ⟨hu1, hu2⟩ := signedResidue_mem h0 r.u.val
  by_cases hord : signedResidue w r.l.val ≤ signedResidue w r.u.val
  · have hspan := (yields_truncateExtrema_of_le h0 hwd hord (by omega)).spans_regular h0 hwd hl1
      hord hu2
    rwa [show signedResidue w r.u.val - signedResidue w r.l.val + 1 =
      r.u.val - r.l.val + 1 by omega] at hspan
  · have hspan := spans_truncateExtrema_of_nonneg h0 hwd hnn (b := r.u) (by omega)
    rwa [show 2 * half w - (signedResidue w r.l.val - signedResidue w r.u.val - 1) =
      r.u.val - r.l.val + 1 by omega] at hspan

/-- A negative interval whose residues turn comes back with its ends swapped: of its values only
the ends are left. -/
theorem cut_swapped (hneg : r.u.val < 0) (hlen : r.u.val - r.l.val < 2 * half w)
    (hgt : signedResidue w r.u.val < signedResidue w r.l.val) :
    Spans (r.truncate w) w (2 * half w - (r.u.val - r.l.val) + 1) ∧
      ∀ v, r.l.val ≤ v → v ≤ r.u.val →
        (Holds (r.truncate w) w (signedResidue w v) ↔ v = r.l.val ∨ v = r.u.val) := by
  have hwd : w < maxDigits := hw.trans_le r.bw_valid.2
  have hle := hlim.2.1
  have hres := signedResidue_of_le_of_lt h0 hle hlen
  obtain ⟨hl1, hl2⟩ := signedResidue_mem h0 r.l.val
  obtain ⟨hu1, hu2⟩ := signedResidue_mem h0 r.u.val
  rw [truncate_of_limits ht hlim hf h0 hw, if_neg (by omega)]
  have hy := yields_truncateExtrema_of_neg (a := r.l) (b := r.u) h0 hwd (by omega) hneg hgt
  constructor
  · have hspan := hy.spans_regular h0 hwd hu1 hgt.le hl2
    rwa [show signedResidue w r.l.val - signedResidue w r.u.val + 1 =
      2 * half w - (r.u.val - r.l.val) + 1 by omega] at hspan
  · intro v hlv hvu
    have hmem := signedResidue_mem h0 v
    have hv := signedResidue_of_le_of_lt h0 hlv (by omega)
    rw [hy.holds_iff]
    constructor
    · rintro ⟨-, h1, h2⟩
      omega
    · rintro (rfl | rfl)
      · exact ⟨hmem, hgt.le, le_rfl⟩
      · exact ⟨hmem, le_rfl, hgt.le⟩

end Limits

/-- The capacity is even. -/
theorem succ_double_lt (h : w * 2 < maxDigits) : w * 2 + 1 < maxDigits := by
  have hdef : maxDigits = 4096 := rfl
  omega

/-- An interval of a width, cut to a narrower one. -/
def cutBounds (W w : Nat) (p q : APInt) : Except Error Range :=
  ofBounds .regular W p q >>= fun r => r.truncate w

theorem cutBounds_of_yields (hwW : w < W) {x y : Int}
    (h : Yields (ofBounds .regular W p q) W .regular x y)
    (hlo : -half W ≤ x) (hle : x ≤ y) (hhi : y < half W)
    (hnf : -half W < x ∨ y < half W - 1) :
    ∃ r : Range, cutBounds W w p q = r.truncate w ∧ r.type = .regular ∧ r.InLimits ∧ ¬ r.IsFull ∧
      w < r.bw ∧ r.l.val = x ∧ r.u.val = y := by
  obtain ⟨r, hr, hbw, ht, rfl, rfl⟩ := h
  have hlim : r.InLimits := by
    unfold InLimits
    rw [hbw]
    exact ⟨hlo, hle, hhi⟩
  have hf : ¬ r.IsFull := fun hfull => by
    have hl := hfull.2
    rw [hbw] at hl
    omega
  refine ⟨r, ?_, ht, hlim, hf, by omega, rfl, rfl⟩
  unfold cutBounds
  rw [hr, ok_bind]

/-- Within the limits. -/
theorem cutBounds_inside (hwW : w < W) (hw : W ≤ maxDigits) (hlo : -half W < p.val)
    (hle : p.val ≤ q.val) (hhi : q.val < half W) :
    ∃ r : Range, cutBounds W w p q = r.truncate w ∧ r.type = .regular ∧ r.InLimits ∧ ¬ r.IsFull ∧
      w < r.bw ∧ r.l.val = p.val ∧ r.u.val = q.val :=
  cutBounds_of_yields hwW (ofBounds_regular_inside ⟨by omega, hw⟩ hlo.le hle hhi) hlo.le hle hhi
    (.inl hlo)

theorem holds_truncate (ht : r.type = .regular) (hlim : r.InLimits) (h0 : 0 < w) (hw : w < r.bw)
    (hloss : ¬ TruncateLoss w r.l.val r.u.val) {v : Int} (h1 : r.l.val ≤ v) (h2 : v ≤ r.u.val) :
    Holds (r.truncate w) w (signedResidue w v) := by
  obtain ⟨h3, h4, h5⟩ := hlim
  refine (truncate_sound_iff (.inl ht) ⟨fun _ => .inr ⟨h3, h4, h5⟩, fun h => ?_⟩ h0 hw.le).mpr
    (fun h => hloss h.2.2) v ?_
  · rw [ht] at h
    cases h
  · exact (mem_gamma_of_regular ht).mpr ⟨⟨by omega, by omega⟩, h1, h2⟩

/-- A turn of a wider width is a whole number of turns of the width. -/
theorem signedResidue_sub_turn (h0 : 0 < w) (hwW : w < W) (v : Int) :
    signedResidue w (v - 2 * half W) = signedResidue w v := by
  refine signedResidue_congr (Int.modEq_iff_dvd.mpr ?_)
  rw [sub_sub_cancel, two_mul_half (by omega)]
  exact pow_dvd_pow 2 (by omega)

/-- Bounds that are not negative, below the capacity: as signed numbers of their width they are
read modulo a turn where they reach the upper half. -/
theorem cutBounds_unsigned (h0 : 0 < w) (hwW : w < W) (hw : W + 1 < maxDigits) (hp : 0 ≤ p.val)
    (hle : p.val ≤ q.val) (hq : q.val < 2 * half W) :
    (¬ (half W ≤ p.val ∧ TruncateLoss w (p.val - 2 * half W)
        (q.val - 2 * half W)) → ∀ v, p.val ≤ v → v ≤ q.val →
          Holds (cutBounds W w p q) w (signedResidue w v)) ∧
    (half W ≤ p.val → q.val - p.val < 2 * half w →
      signedResidue w q.val < signedResidue w p.val →
        Spans (cutBounds W w p q) w (2 * half w - (q.val - p.val) + 1) ∧
          ∀ v, p.val ≤ v → v ≤ q.val →
            (Holds (cutBounds W w p q) w (signedResidue w v) ↔ v = p.val ∨ v = q.val)) := by
  have hd : 0 < W := by omega
  have hWd : W < maxDigits := by omega
  have hP := half_pos W
  have hroom : 2 * half W < half maxDigits := by
    have h1 := two_mul_half_le hd (Nat.lt_succ_self W)
    have h2 := two_mul_half_le (Nat.succ_pos W) hw
    have h3 := half_pos (W + 1)
    omega
  rcases Int.lt_or_le q.val (half W) with hin | hout
  · obtain ⟨r, hr, ht, hlim, -, hwr, hl, hu⟩ := cutBounds_inside hwW hWd.le (by omega) hle hin
    rw [hr, ← hl, ← hu]
    refine ⟨fun _ v h1 h2 => holds_truncate ht hlim h0 hwr (fun h => ?_) h1 h2, fun h => ?_⟩
    · have hneg := h.1
      omega
    · omega
  rcases Int.lt_or_le p.val (half W) with hacross | habove
  · -- What reaches both halves of the width is cut to the full range.
    refine ⟨fun _ v _ _ => ?_, fun h => by omega⟩
    have hfull : ∀ {t : RangeType} {x y : Int},
        YieldsBounds ((normalizeRegular W p q).map Bounds.repair) t x y →
        t = .anti ∨ (t = .regular ∧ x ≤ -half W ∧ half W - 1 ≤ y) →
        Holds (cutBounds W w p q) w (signedResidue w v) := by
      intro t x y hy hty
      obtain ⟨r, hr, hbw, ht, hl, hu⟩ : Yields (ofBounds .regular W p q) W t x y :=
        yields_regular ⟨hd, hWd.le⟩ (by omega) hle (by omega) hy
      have hcut : r.IsFull ∨ r.type = .anti := by
        rcases hty with h | ⟨h, h1, h2⟩
        · exact .inr (ht.trans h)
        · refine .inl ⟨ht.trans h, ?_, ?_⟩ <;> rw [hbw] <;> omega
      have hp : r.Proper := hcut.elim (fun h => .inl h.1) .inr
      unfold cutBounds
      rw [hr, ok_bind, truncate_of_full hp (by omega) hcut]
      exact holds_full_residue ⟨h0, by omega⟩ v
    by_cases hlen : q.val - p.val < 2 * half W - 1
    · exact hfull ((normalizeRegular_past_upper hd hWd (by omega) hacross hout hlen).repair
        (by omega)) (.inl rfl)
    · exact hfull ((normalizeRegular_past_upper_long hd hWd (by omega) hacross hout (by omega)
        (by omega)).repair_crossed (by omega)) (.inr ⟨rfl, by omega, by omega⟩)
  · have hpres : signedResidue W p.val = p.val - 2 * half W :=
      signedResidue_past_upper hd habove (by omega)
    have hqres : signedResidue W q.val = q.val - 2 * half W :=
      signedResidue_past_upper hd hout (by omega)
    have hy := yields_regular ⟨hd, hWd.le⟩ (by omega) hle (by omega)
      ((normalizeRegular_above hd hWd habove hle).repair (by omega))
    rw [hpres, hqres] at hy
    obtain ⟨r, hr, ht, hlim, hf, hwr, hl, hu⟩ :=
      cutBounds_of_yields hwW hy (by omega) (by omega) (by omega) (.inr (by omega))
    rw [hr]
    have hsub := signedResidue_sub_turn h0 hwW
    constructor
    · intro hloss v h1 h2
      rw [← hsub v]
      refine holds_truncate ht hlim h0 hwr (fun h => hloss ⟨habove, ?_⟩) (by omega) (by omega)
      rwa [hl, hu] at h
    · intro _ hlen hgt
      rw [← hsub q.val, ← hsub p.val, ← hl, ← hu] at hgt
      obtain ⟨hspan, hends⟩ := cut_swapped ht hlim hf h0 hwr (by omega) (by omega) hgt
      rw [show r.u.val - r.l.val = q.val - p.val by omega] at hspan
      refine ⟨hspan, fun v h1 h2 => ?_⟩
      rw [← hsub v, hends _ (by omega) (by omega)]
      omega

/-- At the capacity the upper half of the double width is out of reach: an interval that lies in
it keeps its lower bound, and gets the greatest signed value as its upper one. -/
theorem cutBounds_above (h0 : 0 < w) (hw : w * 2 = maxDigits) (hp : half maxDigits ≤ p.val)
    (hle : p.val ≤ q.val) : cutBounds (w * 2) w p q =
      if 2 * half w ≤ p.val - half maxDigits + 1 then ofType .regular w
      else truncateExtrema w p (getSignedMaxValue maxDigits) := by
  have hP := half_pos maxDigits
  have hpb := p.bounds
  have hwd : w < maxDigits := by omega
  obtain ⟨r, hr, hbw, ht, hl, hu⟩ := yields_above hp hle
  have hlp : r.l = p := SignMag.ext hl
  have hmaxv := getSignedMaxValue_val maxDigits_valid.1 maxDigits_valid.2
  have hproper : r.Proper := .inl ht
  have hna : ¬ r.isAnti = true := by
    rw [isAnti_iff, ht]
    exact RangeType.noConfusion
  have hf : ¬ r.IsFull := fun h => by
    have h1 := h.2.1
    rw [hbw] at h1
    omega
  have hmin : r.getSignedMin = .ok p := by
    unfold getSignedMin
    rw [throwAssert_of ⟨hproper.not_unknown, hproper.not_empty⟩, ok_bind]
    simp only [ht, if_true, lt_signedMin_iff r.bw_valid]
    rw [if_neg (by rw [hbw]; omega), hlp]
  have hmax : r.getSignedMax = .ok (getSignedMaxValue maxDigits) := by
    unfold getSignedMax
    rw [throwAssert_of ⟨hproper.not_unknown, hproper.not_empty⟩, ok_bind]
    simp only [ht, if_true, gt_signedMax_iff r.bw_valid]
    rw [if_pos (by rw [hbw]; omega), hbw]
  have hlong : (getSignedMaxValue maxDigits - p).abs > getMaxValue w ↔
      2 * half w ≤ p.val - half maxDigits + 1 := by
    rw [gt_iff_lt, SignMag.lt_iff, SignMag.val_abs, getMaxValue_val h0 hwd,
      sub_val (by omega) (by omega), hmaxv, abs_of_neg (by omega)]
    omega
  unfold cutBounds
  rw [hw, hr, ok_bind]
  unfold truncate
  rw [if_neg hproper.not_empty, if_neg hproper.not_unknown, if_neg (by omega), hmin, hmax,
    isFullSet_eq hproper]
  simp only [ok_bind, decide_eq_true_eq, hf, hna, false_or, hlong, Bool.false_eq_true]

theorem half_double (h0 : 0 < w) : half (w * 2) = half w * (2 * half w) := by
  have hdouble := two_mul_half_double h0
  rw [mul_assoc] at hdouble
  exact mul_left_cancel₀ (by decide) hdouble

/-- The lower half of the double width is a whole number of turns. -/
theorem signedResidue_sub_half_double (h0 : 0 < w) (v : Int) :
    signedResidue w (v - half (w * 2)) = signedResidue w v := by
  refine signedResidue_congr (Int.modEq_iff_dvd.mpr ?_)
  rw [sub_sub_cancel, half_double h0, two_mul_half h0]
  exact Dvd.intro_left _ rfl

theorem signedResidue_eq_emod (h0 : 0 < w) (v : Int) : signedResidue w v =
    if v % 2 ^ w < half w then v % 2 ^ w else v % 2 ^ w - 2 * half w := by
  have hnn : 0 ≤ v % 2 ^ w := Int.emod_nonneg _ (by positivity)
  have hlt : v % 2 ^ w < 2 * half w := by
    rw [two_mul_half h0]
    exact Int.emod_lt_of_pos _ (by positivity)
  split_ifs with h
  · exact signedResidue_eq_of_modEq h0 ⟨by omega, h⟩ (Int.mod_modEq v _)
  · refine signedResidue_eq_of_modEq h0 ⟨by omega, by omega⟩ ?_
    rw [two_mul_half h0]
    exact (Int.sub_modulus_modEq_iff.mpr (Int.mod_modEq v _))

theorem cutBounds_capacity (h0 : 0 < w) (hw : w * 2 = maxDigits) (hp : half maxDigits ≤ p.val)
    (hle : p.val ≤ q.val) (hnear : p.val - half maxDigits ≤ 2 * half w - 2) :
    Spans (cutBounds (w * 2) w p q) w (2 * half w - (p.val - half maxDigits)) ∧
      ∀ v, Holds (cutBounds (w * 2) w p q) w (signedResidue w v) ↔
        p.val - half maxDigits ≤ v % 2 ^ w := by
  have hwd : w < maxDigits := by omega
  have hP := half_pos w
  have hPm := half_pos maxDigits
  have hmaxv := getSignedMaxValue_val maxDigits_valid.1 maxDigits_valid.2
  have hsub := signedResidue_sub_half_double h0
  rw [hw] at hsub
  -- The residues of the two bounds.
  have hmax : signedResidue w (getSignedMaxValue maxDigits).val = -1 := by
    rw [hmaxv, ← hsub, show half maxDigits - 1 - half maxDigits = -1 by omega]
    exact signedResidue_of_mem h0 (by omega) (by omega)
  have hlow : signedResidue w p.val = if p.val - half maxDigits < half w then
      p.val - half maxDigits else p.val - half maxDigits - 2 * half w := by
    rw [← hsub, signedResidue_eq_emod h0, emod_of_nonneg h0 (by omega) (by omega)]
  have hall : ∀ v : Int, signedResidue w v ∈ signedRange w := signedResidue_mem h0
  have hmod : ∀ v : Int, 0 ≤ v % 2 ^ w ∧ v % 2 ^ w < 2 * half w := fun v => by
    rw [two_mul_half h0]
    exact ⟨Int.emod_nonneg _ (by positivity), Int.emod_lt_of_pos _ (by positivity)⟩
  rw [cutBounds_above h0 hw hp hle, if_neg (by omega)]
  by_cases hsmall : p.val - half maxDigits < half w
  · rw [if_pos hsmall] at hlow
    -- The gap from zero to the residue of the lower bound is excluded.
    have hgt : signedResidue w (getSignedMaxValue maxDigits).val < signedResidue w p.val := by omega
    refine ⟨?_, fun v => ?_⟩
    · have hspan := spans_truncateExtrema_of_nonneg h0 hwd (a := p) (by omega) hgt
      rwa [hmax, hlow, show 2 * half w - (p.val - half maxDigits - -1 - 1) =
        2 * half w - (p.val - half maxDigits) by omega] at hspan
    · rw [holds_truncateExtrema_of_nonneg h0 hwd (by omega) hgt, hmax, hlow]
      have hv := signedResidue_eq_emod h0 v
      have hmem := hall v
      obtain ⟨hnn, hlt⟩ := hmod v
      generalize v % 2 ^ w = m at hv hnn hlt ⊢
      constructor
      · rintro ⟨-, h⟩
        split_ifs at hv <;> omega
      · intro h
        refine ⟨hmem, ?_⟩
        split_ifs at hv <;> omega
  · rw [if_neg hsmall] at hlow
    have hy := yields_truncateExtrema_of_le (a := p) (b := getSignedMaxValue maxDigits) h0 hwd
      (by omega) (by omega)
    refine ⟨?_, fun v => ?_⟩
    · have hspan := hy.spans_regular h0 hwd (hall _).1 (by omega) (hall _).2
      rwa [hmax, hlow, show -1 - (p.val - half maxDigits - 2 * half w) + 1 =
        2 * half w - (p.val - half maxDigits) by omega] at hspan
    · rw [hy.holds_iff, hmax, hlow]
      have hv := signedResidue_eq_emod h0 v
      have hmem := hall v
      obtain ⟨hnn, hlt⟩ := hmod v
      generalize v % 2 ^ w = m at hv hnn hlt ⊢
      constructor
      · rintro ⟨-, h1, h2⟩
        split_ifs at hv <;> omega
      · intro h
        refine ⟨hmem, ?_⟩
        unfold TypeMem
        dsimp only
        split_ifs at hv <;> omega

theorem holds_cutBounds_capacity (h0 : 0 < w) (hw : w * 2 = maxDigits) (hp : 0 ≤ p.val)
    (hle : p.val ≤ q.val)
    (hfar : ¬ (half maxDigits ≤ p.val ∧ p.val - half maxDigits ≤ 2 * half w - 2)) {v : Int}
    (h1 : p.val ≤ v) (h2 : v ≤ q.val) : Holds (cutBounds (w * 2) w p q) w (signedResidue w v) := by
  have hP := half_pos maxDigits
  rcases Int.lt_or_le q.val (half maxDigits) with hin | hout
  · obtain ⟨r, hr, ht, hlim, -, hwr, hl, hu⟩ := cutBounds_inside (p := p) (q := q) (show w < w * 2 by omega) hw.le
      (by rw [hw]; omega) hle (by rw [hw]; exact hin)
    rw [hr]
    refine holds_truncate ht hlim h0 hwr (fun h => ?_) (by omega) (by omega)
    have hneg := h.1
    omega
  rcases Int.lt_or_le p.val (half maxDigits) with hacross | habove
  · obtain ⟨r, hr, hbw, ht, hl, hu⟩ :=
      yields_all_of_out hle hacross (by omega) (.inr hout)
    have hcut : r.IsFull ∨ r.type = .anti := .inl ⟨ht, by rw [hbw]; omega, by rw [hbw]; omega⟩
    unfold cutBounds
    rw [hw, hr, ok_bind, truncate_of_full (.inl ht) (by omega) hcut]
    exact holds_full_residue ⟨h0, by omega⟩ v
  · rw [cutBounds_above h0 hw habove hle, if_pos (by omega)]
    exact holds_full_residue ⟨h0, by omega⟩ v

end Cut

/-! ## The products of the extrema -/

section Products

variable {a b : Range} {w : Nat} {n m : Int}

/-- A Regular operand that is not full. -/
structure Segment (r : Range) : Prop where
  type : r.type = .regular
  limits : r.InLimits
  not_full : ¬ r.IsFull

theorem Segment.l_mem {r : Range} (h : Segment r) : r.l.val ∈ r.gamma :=
  (mem_gamma_of_regular h.type).mpr ⟨h.limits.l_mem, le_rfl, h.limits.2.1⟩

theorem Segment.u_mem {r : Range} (h : Segment r) : r.u.val ∈ r.gamma :=
  (mem_gamma_of_regular h.type).mpr ⟨h.limits.u_mem, h.limits.2.1, le_rfl⟩

theorem Segment.wellFormed {r : Range} (h : Segment r) : r.WellFormed :=
  ⟨fun _ => .inr h.limits, fun ht => by rw [h.type] at ht; cases ht⟩

/-- The unsigned reading of a value of the width. -/
theorem emod_two_pow_bounds (h0 : 0 < w) (x : Int) : 0 ≤ x % 2 ^ w ∧ x % 2 ^ w < 2 * half w := by
  rw [two_mul_half h0]
  exact ⟨Int.emod_nonneg _ (by positivity), Int.emod_lt_of_pos _ (by positivity)⟩

/-- The unsigned products lie between those of the unsigned extrema, which for bounds of one
sign are those of the bounds. -/
theorem mulUnsigned_spec (ha : Segment a) (hb : Segment b) (hbw : b.bw = a.bw)
    (hw : a.bw * 2 ≤ maxDigits) :
    ∃ p q : APInt, mulUnsigned a b = cutBounds (a.bw * 2) a.bw p q ∧ 0 ≤ p.val ∧
      q.val < 2 * half (a.bw * 2) ∧
      (∀ x ∈ a.gamma, ∀ y ∈ b.gamma, p.val ≤ x % 2 ^ a.bw * (y % 2 ^ a.bw) ∧
        x % 2 ^ a.bw * (y % 2 ^ a.bw) ≤ q.val) ∧
      ((a.u.val < 0 ↔ a.l.val < 0) → (b.u.val < 0 ↔ b.l.val < 0) →
        p.val = a.l.val % 2 ^ a.bw * (b.l.val % 2 ^ a.bw) ∧
          q.val = a.u.val % 2 ^ a.bw * (b.u.val % 2 ^ a.bw)) := by
  have h0 := a.bw_valid.1
  have hwd : a.bw < maxDigits := by omega
  obtain ⟨am, aM, ham, haM, ham0, haMlt, hina⟩ := exists_unsignedHull hwd (.inl ha.type) ha.wellFormed
  obtain ⟨bm, bM, hbm, hbM, hbm0, hbMlt, hinb⟩ :=
    exists_unsignedHull (r := b) (by omega) (.inl hb.type) hb.wellFormed
  rw [hbw] at hbMlt hinb
  have hal := hina _ ha.l_mem
  have hbl := hinb _ hb.l_mem
  have hdouble := two_mul_half_double h0
  have hcap : 2 * half (a.bw * 2) ≤ 2 * half maxDigits := by
    have hle := half_le_half hw
    omega
  have hpnn : 0 ≤ am.val * bm.val := mul_nonneg ham0 hbm0
  have hple : am.val * bm.val ≤ aM.val * bM.val :=
    mul_le_mul (by omega) (by omega) hbm0 (by omega)
  have hqlt : aM.val * bM.val < 2 * half (a.bw * 2) := by
    rw [hdouble]
    exact mul_lt_mul'' haMlt hbMlt (by omega) (by omega)
  have hp : (am * bm).val = am.val * bm.val := mul_val (by omega) (by omega)
  have hq : (aM * bM).val = aM.val * bM.val := mul_val (by omega) (by omega)
  refine ⟨am * bm, aM * bM, ?_, by omega, by omega, fun x hx y hy => ?_, fun hsa hsb => ?_⟩
  · unfold mulUnsigned cutBounds
    simp only [ham, haM, hbm, hbM, ok_bind]
  · obtain ⟨hx1, hx2⟩ := hina x hx
    obtain ⟨hy1, hy2⟩ := hinb y hy
    rw [hp, hq]
    exact ⟨mul_le_mul hx1 hy1 hbm0 (by omega), mul_le_mul hx2 hy2 (by omega) (by omega)⟩
  · obtain ⟨c, d, hc, hd, hcv, hdv⟩ := unsignedExtrema_of_sign hwd ha.type ha.limits hsa
    obtain ⟨e, f, he, hf, hev, hfv⟩ := unsignedExtrema_of_sign (r := b) (by omega) hb.type hb.limits hsb
    obtain rfl : am = c := Except.ok.inj (ham.symm.trans hc)
    obtain rfl : aM = d := Except.ok.inj (haM.symm.trans hd)
    obtain rfl : bm = e := Except.ok.inj (hbm.symm.trans he)
    obtain rfl : bM = f := Except.ok.inj (hbM.symm.trans hf)
    rw [hbw] at hev hfv
    rw [hp, hq, hcv, hdv, hev, hfv]
    exact ⟨rfl, rfl⟩

/-- The products of the ends. -/
def corners {α : Type} [Mul α] (l u c e : α) : List α := [l * c, l * e, u * c, u * e]

theorem forall_corners {α : Type} [Mul α] {P : α → Prop} {l u c e : α} :
    (∀ z ∈ corners l u c e, P z) ↔ P (l * c) ∧ P (l * e) ∧ P (u * c) ∧ P (u * e) := by
  simp only [corners, List.forall_mem_cons, List.not_mem_nil, false_implies, implies_true, and_true]

/-- The signed products lie between two of the corners. -/
theorem mulSigned_spec (ha : Segment a) (hb : Segment b) (hbw : b.bw = a.bw)
    (hw : a.bw * 2 ≤ maxDigits) :
    ∃ p q : APInt, mulSigned a b = cutBounds (a.bw * 2) a.bw p q ∧ -half (a.bw * 2) < p.val ∧
      p.val ≤ q.val ∧ q.val < half (a.bw * 2) ∧
      (∀ x ∈ a.gamma, ∀ y ∈ b.gamma, p.val ≤ x * y ∧ x * y ≤ q.val) ∧
      p.val ∈ corners a.l.val a.u.val b.l.val b.u.val ∧
      q.val ∈ corners a.l.val a.u.val b.l.val b.u.val := by
  have h0 := a.bw_valid.1
  have hP := half_pos a.bw
  have hdouble := half_double (w := a.bw) h0
  have hcap := half_le_half hw
  have hla := ha.limits.l_mem
  have hua := ha.limits.u_mem
  have hlb := hb.limits.l_mem
  have hub := hb.limits.u_mem
  rw [hbw] at hlb hub
  -- A product of two values of the width is within the limits of the double width.
  have hsmall : ∀ x y : Int, (-half a.bw ≤ x ∧ x < half a.bw) → (-half a.bw ≤ y ∧ y < half a.bw) →
      -half (a.bw * 2) < x * y ∧ x * y < half (a.bw * 2) := by
    intro x y hx hy
    have habs : |x * y| ≤ half a.bw * half a.bw := by
      rw [abs_mul]
      exact mul_le_mul (abs_le.mpr ⟨hx.1, hx.2.le⟩) (abs_le.mpr ⟨hy.1, hy.2.le⟩) (abs_nonneg y)
        (by omega)
    have hsq : 0 < half a.bw * half a.bw := mul_pos hP hP
    have hbounds := abs_le.mp habs
    rw [hdouble, mul_left_comm]
    omega
  have hval : ∀ x y : APInt, (-half a.bw ≤ x.val ∧ x.val < half a.bw) →
      (-half a.bw ≤ y.val ∧ y.val < half a.bw) → (x * y).val = x.val * y.val := by
    intro x y hx hy
    have hxy := hsmall x.val y.val hx hy
    exact mul_val (by omega) (by omega)
  have hvals : (corners a.l a.u b.l b.u).map SignMag.val =
      corners a.l.val a.u.val b.l.val b.u.val := by
    simp only [corners, List.map_cons, List.map_nil, hval _ _ hla hlb, hval _ _ hla hub,
      hval _ _ hua hlb, hval _ _ hua hub]
  have hne : corners a.l a.u b.l b.u ≠ [] := List.cons_ne_nil _ _
  obtain ⟨hminm, hminle⟩ := minElement_spec hne
  obtain ⟨hmaxm, hmaxle⟩ := maxElement_spec hne
  have hmin := List.mem_map_of_mem (f := SignMag.val) hminm
  have hmax := List.mem_map_of_mem (f := SignMag.val) hmaxm
  rw [hvals] at hmin hmax
  have hrange : ∀ z ∈ corners a.l.val a.u.val b.l.val b.u.val,
      -half (a.bw * 2) < z ∧ z < half (a.bw * 2) :=
    forall_corners.mpr ⟨hsmall _ _ hla hlb, hsmall _ _ hla hub, hsmall _ _ hua hlb,
      hsmall _ _ hua hub⟩
  have hcorner : ∀ z ∈ corners a.l.val a.u.val b.l.val b.u.val,
      (minElement (corners a.l a.u b.l b.u)).val ≤ z ∧
        z ≤ (maxElement (corners a.l a.u b.l b.u)).val := by
    rw [← hvals]
    intro z hz
    obtain ⟨z', hz', rfl⟩ := List.mem_map.mp hz
    exact ⟨hminle z' hz', hmaxle z' hz'⟩
  refine ⟨_, _, ?_, (hrange _ hmin).1, (hcorner _ hmin).2, (hrange _ hmax).2, fun x hx y hy => ?_,
    hmin, hmax⟩
  · unfold mulSigned cutBounds
    simp only [getSignedMin_of_limits ha.type ha.limits, getSignedMax_of_limits ha.type ha.limits,
      getSignedMin_of_limits hb.type hb.limits, getSignedMax_of_limits hb.type hb.limits, ok_bind]
    rfl
  · obtain ⟨-, hx1, hx2⟩ := (mem_gamma_of_regular ha.type).mp hx
    obtain ⟨-, hy1, hy2⟩ := (mem_gamma_of_regular hb.type).mp hy
    obtain ⟨⟨z, hz, h1⟩, z', hz', h2⟩ := between_products hx1 hx2 hy1 hy2
    have hzc := hcorner z hz
    have hzc' := hcorner z' hz'
    omega

end Products

/-! ## The choice between the two -/

section Choice

variable {a b UR SR x : Except Error Range} {w : Nat}

/-- What cutting the interval from `p` to `q` to the width returns. -/
structure Cut (x : Except Error Range) (w : Nat) (p q : Int) : Prop where
  holds : ¬ TruncateLoss w p q → ∀ v, p ≤ v → v ≤ q → Holds x w (signedResidue w v)
  kept : 0 ≤ p → Spans x w (min (q - p + 1) (2 * half w))
  swapped : q < 0 → q - p < 2 * half w → signedResidue w q < signedResidue w p →
    Spans x w (2 * half w - (q - p) + 1) ∧
      ∀ v, p ≤ v → v ≤ q → (Holds x w (signedResidue w v) ↔ v = p ∨ v = q)

theorem cut_cutBounds {p q : APInt} (h0 : 0 < w) (hw : w * 2 ≤ maxDigits)
    (hlo : -half (w * 2) < p.val) (hle : p.val ≤ q.val) (hhi : q.val < half (w * 2)) :
    Cut (cutBounds (w * 2) w p q) w p.val q.val := by
  obtain ⟨r, hr, ht, hlim, hf, hwr, hl, hu⟩ := cutBounds_inside (show w < w * 2 by omega) hw hlo hle hhi
  rw [hr, ← hl, ← hu]
  exact ⟨fun hloss v h1 h2 => holds_truncate ht hlim h0 hwr hloss h1 h2,
    spans_cut_of_nonneg ht hlim hf h0 hwr, cut_swapped ht hlim hf h0 hwr⟩

/-- The range with the smaller span, the second one if they have the same. -/
def Chosen (x UR SR : Except Error Range) (w : Nat) : Prop :=
  (∀ v v', Holds UR w v → Holds SR w v' → x = UR ∨ x = SR) ∧
    ∀ n m, Spans UR w n → Spans SR w m → x = if n < m then UR else SR

theorem chosen_of_eq (h : x = do
    let ur ← UR
    let sr ← SR
    if (← ur.getSpan) < (← sr.getSpan) then .ok ur else .ok sr) : Chosen x UR SR w := by
  subst h
  constructor
  · rintro v v' ⟨ur, rfl, -⟩ ⟨sr, rfl, -⟩
    obtain ⟨s, hs⟩ := ur.getSpan_ok
    obtain ⟨t, ht⟩ := sr.getSpan_ok
    simp only [ok_bind, hs, ht]
    split_ifs
    · exact .inl rfl
    · exact .inr rfl
  · rintro n m ⟨ur, s, rfl, -, hs, rfl⟩ ⟨sr, t, rfl, -, ht, rfl⟩
    simp only [ok_bind, hs, ht, SignMag.lt_iff]

end Choice

/-- The residues of the ends of an interval shorter than a turn are in the other order. -/
def Turns (w : Nat) (p q : Int) : Prop :=
  q - p < 2 * half w ∧ signedResidue w q < signedResidue w p

instance (w : Nat) (p q : Int) : Decidable (Turns w p q) := inferInstanceAs (Decidable (_ ∧ _))

/-- A negative first and a positive second operand: the signed products turn, and are not so
few that the unsigned ones, of a constant second operand, are fewer than what is left. -/
def MixedLoss (w : Nat) (l u c e : Int) : Prop :=
  u < 0 ∧ 0 < c ∧ Turns w (l * e) (u * c) ∧ ¬ (c = e ∧ c * (u - l) < half w)

/-- Two negative operands, below the capacity: the unsigned products turn in the upper half of
the double width. -/
def NegativeLoss (w : Nat) (l u c e : Int) : Prop :=
  u < 0 ∧ e < 0 ∧ w * 2 < maxDigits ∧
    half (w * 2) ≤ (l + 2 * half w) * (c + 2 * half w) ∧
    Turns w ((l + 2 * half w) * (c + 2 * half w)) ((u + 2 * half w) * (e + 2 * half w))

/-- Two negative operands at the capacity: of the unsigned products only the distance `d` of the
least one to the upper half is read, the residues from `d` on are fewer than the signed products,
and one of these lies below. -/
def CapacityLoss (w : Nat) (l u c e : Int) : Prop :=
  u < 0 ∧ e < 0 ∧ w * 2 = maxDigits ∧
    let d := (l + 2 * half w) * (c + 2 * half w) - half maxDigits
    0 ≤ d ∧ d ≤ 2 * half w - 2 ∧ 2 * half w - d < min (l * c - u * e + 1) (2 * half w) ∧
      ∃ x y, (l ≤ x ∧ x ≤ u) ∧ (c ≤ y ∧ y ≤ e) ∧ x * y % 2 ^ w < d

section Signs

variable {UR SR x : Except Error Range} {w : Nat} {l u c e s t : Int}

/-- Adding turns to the factors leaves the residue of the product. -/
theorem signedResidue_mul_turn (h0 : 0 < w) (s t : Int) :
    signedResidue w ((s + 2 * half w) * (t + 2 * half w)) = signedResidue w (s * t) := by
  rw [two_mul_half h0]
  have h : ∀ z : Int, z + 2 ^ w ≡ z [ZMOD 2 ^ w] := fun z => Int.add_modulus_modEq_iff.mpr rfl
  exact signedResidue_congr ((h s).mul (h t))

theorem signedResidue_mul_turn_left (h0 : 0 < w) (s t : Int) :
    signedResidue w ((s + 2 * half w) * t) = signedResidue w (s * t) := by
  rw [two_mul_half h0]
  exact signedResidue_congr (Int.ModEq.mul_right t (Int.add_modulus_modEq_iff.mpr rfl))

/-- Of an interval of products of nonnegative factors one lies strictly inside, unless the
factors are two at most. -/
theorem exists_product_inside {l u c e : Int} (hl : 0 < l) (hlu : l ≤ u) (hc : 0 < c) (hce : c ≤ e)
    (h2 : 2 ≤ (u - l) + (e - c)) :
    ∃ s t, (l ≤ s ∧ s ≤ u) ∧ (c ≤ t ∧ t ≤ e) ∧ l * c < s * t ∧ s * t < u * e := by
  rcases hlu.eq_or_lt with rfl | hlt
  · refine ⟨l, c + 1, ⟨le_rfl, le_rfl⟩, ⟨by omega, by omega⟩, ?_, ?_⟩
    · exact mul_lt_mul_of_pos_left (by omega) hl
    · exact mul_lt_mul_of_pos_left (by omega) hl
  rcases hce.eq_or_lt with rfl | hlt'
  · refine ⟨l + 1, c, ⟨by omega, by omega⟩, ⟨le_rfl, le_rfl⟩, ?_, ?_⟩
    · exact mul_lt_mul_of_pos_right (by omega) hc
    · exact mul_lt_mul_of_pos_right (by omega) hc
  · refine ⟨l, e, ⟨le_rfl, hlu⟩, ⟨hce, le_rfl⟩, ?_, ?_⟩
    · exact mul_lt_mul_of_pos_left hlt' hl
    · exact mul_lt_mul_of_pos_right hlt (by omega)

/-- Two factors at most: every product is an end. -/
theorem product_end {l u c e s t : Int} (h2 : (u - l) + (e - c) < 2) (hs : l ≤ s ∧ s ≤ u)
    (ht : c ≤ t ∧ t ≤ e) : s * t = l * c ∨ s * t = u * e := by
  by_cases hsu : s = u
  · by_cases hte : t = e
    · exact .inr (by rw [hsu, hte])
    · exact .inl (by rw [show s = l by omega, show t = c by omega])
  · exact .inl (by rw [show s = l by omega, show t = c by omega])

/-- A negative and a positive operand. -/
theorem mixed_holds_iff (hx : Chosen x UR SR w) (h0 : 0 < w)
    (hUR : Cut UR w ((l + 2 * half w) * c) ((u + 2 * half w) * e))
    (hSR : Cut SR w (l * e) (u * c)) (hlo : -half w ≤ l) (hlu : l ≤ u) (hu : u < 0) (hc : 0 < c)
    (hce : c ≤ e) (hs : l ≤ s ∧ s ≤ u) (ht : c ≤ t ∧ t ≤ e) :
    Holds x w (signedResidue w (s * t)) ↔
      ¬ (MixedLoss w l u c e ∧ s * t ≠ l * e ∧ s * t ≠ u * c) := by
  have hP := half_pos w
  have hnn : 0 ≤ (l + 2 * half w) * c := mul_nonneg (by omega) hc.le
  have hunsigned : Holds UR w (signedResidue w (s * t)) := by
    have hlow : (l + 2 * half w) * c ≤ (s + 2 * half w) * t :=
      mul_le_mul (by omega) ht.1 hc.le (by omega)
    have hhigh : (s + 2 * half w) * t ≤ (u + 2 * half w) * e :=
      mul_le_mul (by omega) ht.2 (by omega) (by omega)
    rw [← signedResidue_mul_turn_left h0]
    refine hUR.holds (fun h => ?_) _ hlow hhigh
    have hneg := h.1
    omega
  -- The products as those of the negated first operand, from the greatest down.
  have hsigned : ∀ s t, (l ≤ s ∧ s ≤ u) → (c ≤ t ∧ t ≤ e) → l * e ≤ s * t ∧ s * t ≤ u * c := by
    intro s t hs ht
    have h1 : -s * t ≤ -l * e := mul_le_mul (by omega) ht.2 (by omega) (by omega)
    have h2 : -u * c ≤ -s * t := mul_le_mul (by omega) ht.1 (by omega) (by omega)
    rw [neg_mul, neg_mul] at h1 h2
    omega
  have hneg : u * c < 0 := mul_neg_of_neg_of_pos hu hc
  by_cases hturn : Turns w (l * e) (u * c)
  swap
  · -- Neither range loses a product.
    refine iff_of_true ?_ (fun h => hturn h.1.2.2.1)
    have hall : Holds SR w (signedResidue w (s * t)) :=
      hSR.holds (fun h => hturn ⟨h.2.2.1, h.2.2.2⟩) _ (hsigned s t hs ht).1 (hsigned s t hs ht).2
    rcases hx.1 _ _ hunsigned hall with rfl | rfl
    · exact hunsigned
    · exact hall
  obtain ⟨hspan, hends⟩ := hSR.swapped hneg hturn.1 hturn.2
  have hlt : l * e < u * c := by
    rcases (hsigned l e ⟨le_rfl, hlu⟩ ⟨hce, le_rfl⟩).2.lt_or_eq with h | h
    · exact h
    · have hres := hturn.2
      rw [h] at hres
      exact absurd hres (lt_irrefl _)
  have hchoice := hx.2 _ _ (hUR.kept hnn) hspan
  -- The unsigned products are fewer only where the second operand is constant.
  have hfew : min ((u + 2 * half w) * e - (l + 2 * half w) * c + 1) (2 * half w) <
      2 * half w - (u * c - l * e) + 1 ↔ c = e ∧ c * (u - l) < half w := by
    have hdiff : (u + 2 * half w) * e - (l + 2 * half w) * c + 1 -
        (2 * half w - (u * c - l * e) + 1) = (u - l) * (c + e) + 2 * half w * (e - c - 1) := by
      ring
    rw [min_lt_iff, or_iff_left (by omega)]
    constructor
    · intro h
      have hsum : 0 ≤ (u - l) * (c + e) := mul_nonneg (by omega) (by omega)
      have heq : c = e := by
        by_contra hne
        have hturns : 0 ≤ 2 * half w * (e - c - 1) := mul_nonneg (by omega) (by omega)
        omega
      subst heq
      have hlin : (u - l) * (c + c) + 2 * half w * (c - c - 1) = 2 * (c * (u - l)) - 2 * half w := by
        ring
      exact ⟨rfl, by omega⟩
    · rintro ⟨rfl, h⟩
      have hlin : (u - l) * (c + c) + 2 * half w * (c - c - 1) = 2 * (c * (u - l)) - 2 * half w := by
        ring
      omega
  by_cases hsmall : c = e ∧ c * (u - l) < half w
  · rw [if_pos (hfew.mpr hsmall)] at hchoice
    subst hchoice
    exact iff_of_true hunsigned (fun h => h.1.2.2.2 hsmall)
  rw [if_neg (fun h => hsmall (hfew.mp h))] at hchoice
  subst hchoice
  rw [hends _ (hsigned s t hs ht).1 (hsigned s t hs ht).2]
  have hloss : MixedLoss w l u c e := ⟨hu, hc, hturn, hsmall⟩
  tauto

/-- The signed products of two negative operands are all held. -/
theorem Cut.holds_negative (hSR : Cut SR w (u * e) (l * c)) (hlu : l ≤ u) (hu : u < 0) (hce : c ≤ e)
    (he : e < 0) (hs : l ≤ s ∧ s ≤ u) (ht : c ≤ t ∧ t ≤ e) :
    Holds SR w (signedResidue w (s * t)) := by
  have h1 : -u * -e ≤ -s * -t := mul_le_mul (by omega) (by omega) (by omega) (by omega)
  have h2 : -s * -t ≤ -l * -c := mul_le_mul (by omega) (by omega) (by omega) (by omega)
  rw [neg_mul_neg, neg_mul_neg] at h1 h2
  refine hSR.holds (fun h => ?_) _ h1 h2
  have hneg := h.1
  have hpos : 0 < l * c := mul_pos_of_neg_of_neg (by omega) (by omega)
  omega

/-- Two negative operands, below the capacity. -/
theorem negative_holds_iff {p q : Int} (hp : p = (l + 2 * half w) * (c + 2 * half w))
    (hq : q = (u + 2 * half w) * (e + 2 * half w)) (hx : Chosen x UR SR w) (h0 : 0 < w)
    (hwd : w * 2 < maxDigits)
    (hUR : ¬ (half (w * 2) ≤ p ∧ Turns w p q) →
      ∀ v, p ≤ v → v ≤ q → Holds UR w (signedResidue w v))
    (hUR' : half (w * 2) ≤ p → Turns w p q → Spans UR w (2 * half w - (q - p) + 1) ∧
      ∀ v, p ≤ v → v ≤ q → (Holds UR w (signedResidue w v) ↔ v = p ∨ v = q))
    (hSR : Cut SR w (u * e) (l * c)) (hlo : -half w ≤ l) (hlu : l ≤ u) (hu : u < 0)
    (hlo' : -half w ≤ c) (hce : c ≤ e) (he : e < 0) (hs : l ≤ s ∧ s ≤ u) (ht : c ≤ t ∧ t ≤ e) :
    Holds x w (signedResidue w (s * t)) ↔ ¬ (NegativeLoss w l u c e ∧
      (s + 2 * half w) * (t + 2 * half w) ≠ p ∧ (s + 2 * half w) * (t + 2 * half w) ≠ q) := by
  have hP := half_pos w
  have hsigned := hSR.holds_negative hlu hu hce he hs ht
  have hlow : p ≤ (s + 2 * half w) * (t + 2 * half w) := by
    rw [hp]
    exact mul_le_mul (by omega) (by omega) (by omega) (by omega)
  have hhigh : (s + 2 * half w) * (t + 2 * half w) ≤ q := by
    rw [hq]
    exact mul_le_mul (by omega) (by omega) (by omega) (by omega)
  have hfew : (u - l) + (e - c) < 2 →
      (s + 2 * half w) * (t + 2 * half w) = p ∨ (s + 2 * half w) * (t + 2 * half w) = q := by
    intro h2
    rw [hp, hq]
    exact product_end (by omega) (by omega) (by omega)
  have hres := signedResidue_mul_turn h0 s t
  generalize (s + 2 * half w) * (t + 2 * half w) = z at *
  by_cases hturn : half (w * 2) ≤ p ∧ Turns w p q
  swap
  · refine iff_of_true ?_ (fun h => hturn (hp ▸ hq ▸ h.1.2.2.2))
    have hall := hUR hturn z hlow hhigh
    rw [hres] at hall
    rcases hx.1 _ _ hall hsigned with rfl | rfl
    · exact hall
    · exact hsigned
  obtain ⟨hspan, hends⟩ := hUR' hturn.1 hturn.2
  have hpoint := hends z hlow hhigh
  rw [hres] at hpoint
  by_cases hend : z = p ∨ z = q
  · refine iff_of_true ?_ (fun h => hend.elim h.2.1 h.2.2)
    rcases hx.1 _ _ (hpoint.mpr hend) hsigned with rfl | rfl
    · exact hpoint.mpr hend
    · exact hsigned
  · -- The signed products go all the way round, so what is left of the unsigned ones is chosen.
    have h2 : 2 ≤ (u - l) + (e - c) := by
      by_contra h2
      exact hend (hfew (by omega))
    have hchoice := hx.2 _ _ hspan (hSR.kept (mul_pos_of_neg_of_neg hu he).le)
    have hlen := hturn.2.1
    have hdiff : q - p = 2 * half w * ((u - l) + (e - c)) - (l * c - u * e) := by
      rw [hp, hq]
      ring
    have hturns : 2 * half w * 2 ≤ 2 * half w * ((u - l) + (e - c)) :=
      mul_le_mul_of_nonneg_left h2 (by omega)
    rw [if_pos (by omega)] at hchoice
    subst hchoice
    rw [hpoint]
    have hloss : NegativeLoss w l u c e := ⟨hu, he, hwd, hp ▸ hq ▸ hturn⟩
    tauto

/-- Two negative operands at the capacity. -/
theorem capacity_sound_iff {p q : Int} (hp : p = (l + 2 * half w) * (c + 2 * half w))
    (hq : q = (u + 2 * half w) * (e + 2 * half w)) (hx : Chosen x UR SR w) (h0 : 0 < w)
    (hwd : w * 2 = maxDigits)
    (hUR : ¬ (half maxDigits ≤ p ∧ p - half maxDigits ≤ 2 * half w - 2) →
      ∀ v, p ≤ v → v ≤ q → Holds UR w (signedResidue w v))
    (hUR' : half maxDigits ≤ p → p - half maxDigits ≤ 2 * half w - 2 →
      Spans UR w (2 * half w - (p - half maxDigits)) ∧
        ∀ v, Holds UR w (signedResidue w v) ↔ p - half maxDigits ≤ v % 2 ^ w)
    (hSR : Cut SR w (u * e) (l * c)) (hlo : -half w ≤ l) (hlu : l ≤ u) (hu : u < 0)
    (hlo' : -half w ≤ c) (hce : c ≤ e) (he : e < 0) :
    (∀ s t, (l ≤ s ∧ s ≤ u) → (c ≤ t ∧ t ≤ e) → Holds x w (signedResidue w (s * t))) ↔
      ¬ CapacityLoss w l u c e := by
  have hP := half_pos w
  have hsigned : ∀ s t, (l ≤ s ∧ s ≤ u) → (c ≤ t ∧ t ≤ e) →
      Holds SR w (signedResidue w (s * t)) := fun s t => hSR.holds_negative hlu hu hce he
  unfold CapacityLoss
  rw [← hp]
  by_cases hnear : half maxDigits ≤ p ∧ p - half maxDigits ≤ 2 * half w - 2
  swap
  · refine iff_of_true (fun s t hs ht => ?_) fun h => ?_
    · have hall := hUR hnear ((s + 2 * half w) * (t + 2 * half w))
        (hp ▸ mul_le_mul (by omega) (by omega) (by omega) (by omega))
        (hq ▸ mul_le_mul (by omega) (by omega) (by omega) (by omega))
      rw [signedResidue_mul_turn h0] at hall
      rcases hx.1 _ _ hall (hsigned s t hs ht) with rfl | rfl
      · exact hall
      · exact hsigned s t hs ht
    · obtain ⟨-, -, -, h1, h2, -⟩ := h
      omega
  obtain ⟨hspan, hends⟩ := hUR' hnear.1 hnear.2
  have hchoice := hx.2 _ _ hspan (hSR.kept (mul_pos_of_neg_of_neg hu he).le)
  split_ifs at hchoice with hfew
  · subst hchoice
    constructor
    · rintro h ⟨-, -, -, -, -, -, s, t, hs, ht, hlost⟩
      have hheld := (hends _).mp (h s t hs ht)
      omega
    · intro h s t hs ht
      rw [hends]
      by_contra hlost
      exact h ⟨hu, he, hwd, by omega, hnear.2, hfew, s, t, hs, ht, by omega⟩
  · subst hchoice
    exact iff_of_true hsigned (fun h => hfew h.2.2.2.2.2.1)

end Signs

/-! ## Soundness -/

section Sound

variable {a b : Range}

/-- The operands whose product loses values. -/
def MulLoss (a b : Range) : Prop :=
  (Segment a ∧ Segment b) ∧
    ((2 ≤ (a.u.val - a.l.val) + (b.u.val - b.l.val) ∧
        (MixedLoss a.bw a.l.val a.u.val b.l.val b.u.val ∨
          MixedLoss a.bw b.l.val b.u.val a.l.val a.u.val ∨
            NegativeLoss a.bw a.l.val a.u.val b.l.val b.u.val)) ∨
      CapacityLoss a.bw a.l.val a.u.val b.l.val b.u.val)

theorem mul_of_full (ha : a.Proper) (hb : b.Proper)
    (h : a.IsFull ∨ b.IsFull ∨ a.type = .anti ∨ b.type = .anti) :
    a.mul b = ofType .regular a.bw := by
  unfold mul
  rw [onProper_of ha hb, isFullSet_or_eq ha hb, ok_bind]
  simp only [decide_eq_true_eq, isAnti_iff]
  rw [if_pos (by rwa [or_assoc])]

theorem chosen_mul (ha : Segment a) (hb : Segment b) :
    Chosen (a.mul b) (mulUnsigned a b) (mulSigned a b) a.bw := by
  have hna : a.type ≠ .anti := by rw [ha.type]; decide
  have hnb : b.type ≠ .anti := by rw [hb.type]; decide
  have hf : ¬ (a.IsFull ∨ b.IsFull) := not_or.mpr ⟨ha.not_full, hb.not_full⟩
  refine chosen_of_eq ?_
  unfold mul
  rw [onProper_of (.inl ha.type) (.inl hb.type), isFullSet_or_eq (.inl ha.type) (.inl hb.type),
    ok_bind, if_neg (by simp [hf, hna, hnb])]

theorem Segment.mem_iff {r : Range} (h : Segment r) {x : Int} :
    x ∈ r.gamma ↔ r.l.val ≤ x ∧ x ≤ r.u.val := by
  obtain ⟨h1, -, h2⟩ := h.limits
  rw [mem_gamma_of_regular h.type]
  constructor
  · exact And.right
  · intro hx
    exact ⟨⟨by omega, by omega⟩, hx⟩

/-- The extrema of the signed products, from where they are attained. -/
theorem signed_ends {p q x y x' y' : Int} (hb : ∀ s ∈ a.gamma, ∀ t ∈ b.gamma, p ≤ s * t ∧ s * t ≤ q)
    (hp : p ∈ corners a.l.val a.u.val b.l.val b.u.val)
    (hq : q ∈ corners a.l.val a.u.val b.l.val b.u.val)
    (hx : x ∈ a.gamma) (hy : y ∈ b.gamma) (hx' : x' ∈ a.gamma) (hy' : y' ∈ b.gamma)
    (hmin : ∀ z ∈ corners a.l.val a.u.val b.l.val b.u.val, x * y ≤ z ∧ z ≤ x' * y') : p = x * y ∧ q = x' * y' :=
  ⟨le_antisymm (hb x hx y hy).1 (hmin p hp).1, le_antisymm (hmin q hq).2 (hb x' hx' y' hy').2⟩

/-- The unsigned products, where those of the extrema do not reach the upper half of the double
width. -/
theorem holds_mulUnsigned (ha : Segment a) (hb : Segment b) (hbw : b.bw = a.bw)
    (hw : a.bw * 2 ≤ maxDigits) (hnn : 0 ≤ a.u.val ∨ 0 ≤ b.u.val) {x y : Int} (hx : x ∈ a.gamma)
    (hy : y ∈ b.gamma) : Holds (mulUnsigned a b) a.bw (signedResidue a.bw (x * y)) := by
  have h0 := a.bw_valid.1
  have hP := half_pos a.bw
  obtain ⟨p, q, heq, hp0, hq, hbetween, -⟩ := mulUnsigned_spec ha hb hbw hw
  have hau := ha.limits.u_mem
  have hbu := hb.limits.u_mem
  rw [hbw] at hbu
  obtain ⟨hx0, hxM⟩ := emod_two_pow_bounds h0 x
  obtain ⟨hy0, hyM⟩ := emod_two_pow_bounds h0 y
  -- One factor of the least product is below half a turn.
  have hlow : p.val < half (a.bw * 2) := by
    rw [half_double h0]
    rcases hnn with h | h
    · have hle := (hbetween _ ha.u_mem y hy).1
      rw [emod_of_nonneg h0 h (by omega)] at hle
      exact hle.trans_lt (mul_lt_mul'' hau.2 hyM h hy0)
    · have hle := (hbetween x hx _ hb.u_mem).1
      rw [emod_of_nonneg h0 h (by omega)] at hle
      have hlt := mul_lt_mul'' hbu.2 hxM h hx0
      rw [mul_comm] at hle
      exact hle.trans_lt hlt
  obtain ⟨h1, h2⟩ := hbetween x hx y hy
  have hmod : signedResidue a.bw (x % 2 ^ a.bw * (y % 2 ^ a.bw)) = signedResidue a.bw (x * y) :=
    signedResidue_congr ((Int.mod_modEq x _).mul (Int.mod_modEq y _))
  rw [heq, ← hmod]
  rcases hw.lt_or_eq with hlt | hcap
  · exact (cutBounds_unsigned h0 (by omega) (succ_double_lt hlt) hp0 (h1.trans h2) hq).1 (fun h => by omega) _ h1 h2
  · rw [hcap] at hlow
    exact holds_cutBounds_capacity h0 hcap hp0 (h1.trans h2) (fun h => by omega) h1 h2

/-- The signed products, where the greatest of them is not negative. -/
theorem holds_mulSigned (ha : Segment a) (hb : Segment b) (hbw : b.bw = a.bw)
    (hw : a.bw * 2 ≤ maxDigits) {x y x' y' : Int} (hx' : x' ∈ a.gamma) (hy' : y' ∈ b.gamma)
    (hnn : 0 ≤ x' * y') (hx : x ∈ a.gamma) (hy : y ∈ b.gamma) :
    Holds (mulSigned a b) a.bw (signedResidue a.bw (x * y)) := by
  obtain ⟨p, q, heq, hlo, hle, hhi, hbetween, -⟩ := mulSigned_spec ha hb hbw hw
  rw [heq]
  have hq := (hbetween x' hx' y' hy').2
  refine (cut_cutBounds a.bw_valid.1 hw hlo hle hhi).holds (fun h => ?_) _ (hbetween x hx y hy).1
    (hbetween x hx y hy).2
  have hneg := h.1
  omega

/-- The signed products of a negative and a positive operand. -/
theorem cut_mulSigned_mixed (ha : Segment a) (hb : Segment b) (hbw : b.bw = a.bw)
    (hw : a.bw * 2 ≤ maxDigits) :
    (a.u.val < 0 → 0 < b.l.val →
      Cut (mulSigned a b) a.bw (a.l.val * b.u.val) (a.u.val * b.l.val)) ∧
    (b.u.val < 0 → 0 < a.l.val →
      Cut (mulSigned a b) a.bw (b.l.val * a.u.val) (b.u.val * a.l.val)) ∧
    (a.u.val < 0 → b.u.val < 0 →
      Cut (mulSigned a b) a.bw (a.u.val * b.u.val) (a.l.val * b.l.val)) := by
  obtain ⟨p, q, heq, hlo, hle, hhi, hbetween, hpm, hqm⟩ := mulSigned_spec ha hb hbw hw
  have hal := ha.limits.2.1
  have hbl := hb.limits.2.1
  have hcut := cut_cutBounds a.bw_valid.1 hw hlo hle hhi
  rw [← heq] at hcut
  refine ⟨fun hu hc => ?_, fun he hl => ?_, fun hu he => ?_⟩
  · obtain ⟨h1, h2⟩ := signed_ends hbetween hpm hqm ha.l_mem hb.u_mem ha.u_mem hb.l_mem (by
      have h1 := mul_le_mul_of_nonpos_left hbl (by omega : a.l.val ≤ 0)
      have h2 := mul_le_mul_of_nonpos_left hbl hu.le
      have h3 := mul_le_mul_of_nonneg_right hal hc.le
      have h4 := mul_le_mul_of_nonneg_right hal (by omega : 0 ≤ b.u.val)
      exact forall_corners.mpr ⟨⟨by omega, by omega⟩, ⟨by omega, by omega⟩,
        ⟨by omega, by omega⟩, by omega, by omega⟩)
    rwa [h1, h2] at hcut
  · obtain ⟨h1, h2⟩ := signed_ends hbetween hpm hqm ha.u_mem hb.l_mem ha.l_mem hb.u_mem (by
      have h1 := mul_le_mul_of_nonneg_left hbl hl.le
      have h2 := mul_le_mul_of_nonneg_left hbl (by omega : 0 ≤ a.u.val)
      have h3 := mul_le_mul_of_nonpos_right hal (by omega : b.l.val ≤ 0)
      have h4 := mul_le_mul_of_nonpos_right hal he.le
      exact forall_corners.mpr ⟨⟨by omega, by omega⟩, ⟨by omega, by omega⟩,
        ⟨by omega, by omega⟩, by omega, by omega⟩)
    rwa [h1, h2, mul_comm a.u.val, mul_comm a.l.val] at hcut
  · obtain ⟨h1, h2⟩ := signed_ends hbetween hpm hqm ha.u_mem hb.u_mem ha.l_mem hb.l_mem (by
      have h1 := mul_le_mul_of_nonpos_left hbl (by omega : a.l.val ≤ 0)
      have h2 := mul_le_mul_of_nonpos_left hbl hu.le
      have h3 := mul_le_mul_of_nonpos_right hal (by omega : b.l.val ≤ 0)
      have h4 := mul_le_mul_of_nonpos_right hal he.le
      exact forall_corners.mpr ⟨⟨by omega, by omega⟩, ⟨by omega, by omega⟩,
        ⟨by omega, by omega⟩, by omega, by omega⟩)
    rwa [h1, h2] at hcut

end Sound

section Claim

variable {a b : Range} {x y : Int}

/-- Every product of values of the operands is in the range. -/
def MulSound (a b : Range) : Prop :=
  ∀ x ∈ a.gamma, ∀ y ∈ b.gamma, Holds (a.mul b) a.bw (signedResidue a.bw (x * y))

theorem mulSound_segments (ha : Segment a) (hb : Segment b) : MulSound a b ↔
    ∀ s t, (a.l.val ≤ s ∧ s ≤ a.u.val) → (b.l.val ≤ t ∧ t ≤ b.u.val) →
      Holds (a.mul b) a.bw (signedResidue a.bw (s * t)) := by
  unfold MulSound
  simp only [ha.mem_iff, hb.mem_iff]
  exact ⟨fun h s t hs ht => h s hs t ht, fun h s hs t ht => h s t hs ht⟩

theorem holds_mul_of_both (ha : Segment a) (hb : Segment b)
    (hUR : Holds (mulUnsigned a b) a.bw (signedResidue a.bw (x * y)))
    (hSR : Holds (mulSigned a b) a.bw (signedResidue a.bw (x * y))) :
    Holds (a.mul b) a.bw (signedResidue a.bw (x * y)) := by
  rcases (chosen_mul ha hb).1 _ _ hUR hSR with h | h
  · rwa [h]
  · rwa [h]

/-- The lost products of a box of positive factors, where they are those inside. -/
theorem forall_ends_iff {P : Prop} {l u c e : Int} (hl : 0 < l) (hlu : l ≤ u) (hc : 0 < c)
    (hce : c ≤ e) :
    (∀ s t, (l ≤ s ∧ s ≤ u) → (c ≤ t ∧ t ≤ e) → ¬ (P ∧ s * t ≠ l * c ∧ s * t ≠ u * e)) ↔
      ¬ (2 ≤ (u - l) + (e - c) ∧ P) := by
  constructor
  · rintro h ⟨h2, hP⟩
    obtain ⟨s, t, hs, ht, h3, h4⟩ := exists_product_inside hl hlu hc hce h2
    exact h s t hs ht ⟨hP, h3.ne', h4.ne⟩
  · rintro h s t hs ht ⟨hP, h3, h4⟩
    have h2 : (u - l) + (e - c) < 2 := by
      by_contra h2
      exact h ⟨by omega, hP⟩
    exact (product_end h2 hs ht).elim h3 h4

/-- The same for a negative and a positive interval, -/
theorem forall_mixed_ends_iff {P : Prop} {l u c e : Int} (hlu : l ≤ u) (hu : u < 0) (hc : 0 < c)
    (hce : c ≤ e) :
    (∀ s t, (l ≤ s ∧ s ≤ u) → (c ≤ t ∧ t ≤ e) → ¬ (P ∧ s * t ≠ l * e ∧ s * t ≠ u * c)) ↔
      ¬ (2 ≤ (u - l) + (e - c) ∧ P) := by
  have hbox := @forall_ends_iff P (-u) (-l) c e (by omega) (by omega) hc hce
  rw [show -l - -u = u - l by omega] at hbox
  rw [← hbox]
  constructor
  · rintro h s t hs ht ⟨hP, h3, h4⟩
    refine h (-s) t (by omega) ht ⟨hP, fun h5 => h4 ?_, fun h5 => h3 ?_⟩
    · rw [neg_mul, ← h5, neg_mul, neg_neg]
    · rw [neg_mul, ← h5, neg_mul, neg_neg]
  · rintro h s t hs ht ⟨hP, h3, h4⟩
    refine h (-s) t (by omega) ht ⟨hP, fun h5 => h4 ?_, fun h5 => h3 ?_⟩
    · rwa [neg_mul, neg_mul, neg_inj] at h5
    · rwa [neg_mul, neg_mul, neg_inj] at h5

/-- and for two intervals that a turn makes positive. -/
theorem forall_turned_ends_iff {P : Prop} {l u c e m : Int} (hl : 0 < l + m) (hlu : l ≤ u)
    (hc : 0 < c + m) (hce : c ≤ e) :
    (∀ s t, (l ≤ s ∧ s ≤ u) → (c ≤ t ∧ t ≤ e) →
        ¬ (P ∧ (s + m) * (t + m) ≠ (l + m) * (c + m) ∧ (s + m) * (t + m) ≠ (u + m) * (e + m))) ↔
      ¬ (2 ≤ (u - l) + (e - c) ∧ P) := by
  have hbox := @forall_ends_iff P (l + m) (u + m) (c + m) (e + m) hl (by omega) hc (by omega)
  rw [show u + m - (l + m) + (e + m - (c + m)) = u - l + (e - c) by omega] at hbox
  rw [← hbox]
  constructor
  · intro h s t hs ht
    have hst := h (s - m) (t - m) (by omega) (by omega)
    rwa [sub_add_cancel, sub_add_cancel] at hst
  · intro h s t hs ht
    exact h (s + m) (t + m) (by omega) (by omega)

/-- A negative and a positive operand. -/
theorem holds_mul_mixed (ha : Segment a) (hb : Segment b) (hbw : b.bw = a.bw)
    (hw : a.bw * 2 ≤ maxDigits) (hx : x ∈ a.gamma) (hy : y ∈ b.gamma) :
    (a.u.val < 0 → 0 < b.l.val → (Holds (a.mul b) a.bw (signedResidue a.bw (x * y)) ↔
      ¬ (MixedLoss a.bw a.l.val a.u.val b.l.val b.u.val ∧ x * y ≠ a.l.val * b.u.val ∧
        x * y ≠ a.u.val * b.l.val))) ∧
    (b.u.val < 0 → 0 < a.l.val → (Holds (a.mul b) a.bw (signedResidue a.bw (x * y)) ↔
      ¬ (MixedLoss a.bw b.l.val b.u.val a.l.val a.u.val ∧ x * y ≠ a.l.val * b.u.val ∧
        x * y ≠ a.u.val * b.l.val))) := by
  have h0 := a.bw_valid.1
  have hP := half_pos a.bw
  obtain ⟨hal1, hal, hal2⟩ := ha.limits
  obtain ⟨hbl1, hbl, hbl2⟩ := hb.limits
  rw [hbw] at hbl1 hbl2
  have hdouble := half_double h0
  obtain ⟨p, q, heq, hp0, -, hbetween, hends⟩ := mulUnsigned_spec ha hb hbw hw
  obtain ⟨hmixed, hmixed', -⟩ := cut_mulSigned_mixed ha hb hbw hw
  have hcut : q.val < half (a.bw * 2) → Cut (mulUnsigned a b) a.bw p.val q.val := fun hq => by
    have hle := hbetween _ ha.l_mem _ hb.l_mem
    rw [heq]
    exact cut_cutBounds h0 hw (by have hpos := half_pos (a.bw * 2); omega) (by omega) hq
  constructor
  · intro hu hc
    obtain ⟨hp, hq⟩ := hends (by omega) (by omega)
    rw [emod_of_neg h0 (by omega) (by omega), emod_of_nonneg h0 hc.le (by omega)] at hp
    rw [emod_of_neg h0 (by omega) (by omega), emod_of_nonneg h0 (by omega) (by omega)] at hq
    have hqlt : q.val < half (a.bw * 2) := by
      rw [hq, hdouble, mul_comm]
      exact mul_lt_mul'' hbl2 (by omega) (by omega) (by omega)
    have hUR := hcut hqlt
    rw [hp, hq] at hUR
    exact mixed_holds_iff (chosen_mul ha hb) h0 hUR (hmixed hu hc) hal1 hal hu hc hbl
      (ha.mem_iff.mp hx) (hb.mem_iff.mp hy)
  · intro he hl
    obtain ⟨hp, hq⟩ := hends (by omega) (by omega)
    rw [emod_of_nonneg h0 hl.le (by omega), emod_of_neg h0 (by omega) (by omega)] at hp
    rw [emod_of_nonneg h0 (by omega) (by omega), emod_of_neg h0 (by omega) (by omega)] at hq
    have hqlt : q.val < half (a.bw * 2) := by
      rw [hq, hdouble]
      exact mul_lt_mul'' hal2 (by omega) (by omega) (by omega)
    have hUR := hcut hqlt
    rw [hp, hq, mul_comm, mul_comm a.u.val] at hUR
    have h := mixed_holds_iff (chosen_mul ha hb) h0 hUR (hmixed' he hl) hbl1 hbl he hl hal
      (hb.mem_iff.mp hy) (ha.mem_iff.mp hx)
    rw [mul_comm x y, h, mul_comm a.l.val, mul_comm a.u.val, and_comm (a := y * x ≠ _)]

/-- The unsigned products of two negative operands. -/
theorem mulUnsigned_negative (ha : Segment a) (hb : Segment b) (hbw : b.bw = a.bw)
    (hw : a.bw * 2 ≤ maxDigits) (hu : a.u.val < 0) (he : b.u.val < 0) :
    ∃ p q : APInt, mulUnsigned a b = cutBounds (a.bw * 2) a.bw p q ∧ 0 ≤ p.val ∧ p.val ≤ q.val ∧
      q.val < 2 * half (a.bw * 2) ∧
      p.val = (a.l.val + 2 * half a.bw) * (b.l.val + 2 * half a.bw) ∧
      q.val = (a.u.val + 2 * half a.bw) * (b.u.val + 2 * half a.bw) := by
  have h0 := a.bw_valid.1
  obtain ⟨hal1, hal, hal2⟩ := ha.limits
  obtain ⟨hbl1, hbl, hbl2⟩ := hb.limits
  rw [hbw] at hbl1 hbl2
  obtain ⟨p, q, heq, hp0, hqlt, hbetween, hends⟩ := mulUnsigned_spec ha hb hbw hw
  obtain ⟨hp, hq⟩ := hends (by omega) (by omega)
  rw [emod_of_neg h0 (by omega) (by omega), emod_of_neg h0 (by omega) (by omega)] at hp hq
  have hle := hbetween _ ha.l_mem _ hb.l_mem
  exact ⟨p, q, heq, hp0, by omega, hqlt, hp, hq⟩

/-- Two negative operands, below the capacity. -/
theorem holds_mul_negative (ha : Segment a) (hb : Segment b) (hbw : b.bw = a.bw)
    (hw : a.bw * 2 < maxDigits) (hu : a.u.val < 0) (he : b.u.val < 0) (hx : x ∈ a.gamma)
    (hy : y ∈ b.gamma) :
    Holds (a.mul b) a.bw (signedResidue a.bw (x * y)) ↔
      ¬ (NegativeLoss a.bw a.l.val a.u.val b.l.val b.u.val ∧
        (x + 2 * half a.bw) * (y + 2 * half a.bw) ≠
          (a.l.val + 2 * half a.bw) * (b.l.val + 2 * half a.bw) ∧
        (x + 2 * half a.bw) * (y + 2 * half a.bw) ≠
          (a.u.val + 2 * half a.bw) * (b.u.val + 2 * half a.bw)) := by
  have h0 := a.bw_valid.1
  obtain ⟨hal1, hal, -⟩ := ha.limits
  obtain ⟨hbl1, hbl, -⟩ := hb.limits
  rw [hbw] at hbl1
  obtain ⟨p, q, heq, hp0, hle, hqlt, hp, hq⟩ := mulUnsigned_negative ha hb hbw hw.le hu he
  have hSR := (cut_mulSigned_mixed ha hb hbw hw.le).2.2 hu he
  obtain ⟨hhold, hswap⟩ := cutBounds_unsigned h0 (by omega) (succ_double_lt hw) hp0 hle hqlt
  rw [← heq] at hhold hswap
  have hsub := signedResidue_sub_turn (W := a.bw * 2) h0 (by omega)
  rw [← hp, ← hq]
  refine negative_holds_iff hp hq (chosen_mul ha hb) h0 hw (fun h => hhold fun hl => h ?_)
    (fun h1 h2 => hswap h1 h2.1 h2.2) hSR hal1 hal hu hbl1 hbl he (ha.mem_iff.mp hx)
    (hb.mem_iff.mp hy)
  obtain ⟨habove, -, -, hlen, hgt⟩ := hl
  rw [hsub, hsub] at hgt
  exact ⟨habove, by omega, hgt⟩

/-- Two negative operands at the capacity. -/
theorem mulSound_capacity (ha : Segment a) (hb : Segment b) (hbw : b.bw = a.bw)
    (hw : a.bw * 2 = maxDigits) (hu : a.u.val < 0) (he : b.u.val < 0) :
    MulSound a b ↔ ¬ CapacityLoss a.bw a.l.val a.u.val b.l.val b.u.val := by
  have h0 := a.bw_valid.1
  obtain ⟨hal1, hal, -⟩ := ha.limits
  obtain ⟨hbl1, hbl, -⟩ := hb.limits
  rw [hbw] at hbl1
  obtain ⟨p, q, heq, hp0, hle, -, hp, hq⟩ := mulUnsigned_negative ha hb hbw hw.le hu he
  rw [mulSound_segments ha hb]
  refine capacity_sound_iff hp hq (chosen_mul ha hb) h0 hw (fun h v h1 h2 => ?_) (fun h1 h2 => ?_)
    ((cut_mulSigned_mixed ha hb hbw hw.le).2.2 hu he) hal1 hal hu hbl1 hbl he
  · rw [heq]
    exact holds_cutBounds_capacity h0 hw hp0 hle h h1 h2
  · rw [heq]
    exact cutBounds_capacity h0 hw h1 hle h2

/-- Operands of other signs: neither range loses a product. -/
theorem holds_mul_of_signs (ha : Segment a) (hb : Segment b) (hbw : b.bw = a.bw)
    (hw : a.bw * 2 ≤ maxDigits) (hmixed : ¬ (a.u.val < 0 ∧ 0 < b.l.val))
    (hmixed' : ¬ (b.u.val < 0 ∧ 0 < a.l.val)) (hneg : ¬ (a.u.val < 0 ∧ b.u.val < 0))
    (hx : x ∈ a.gamma) (hy : y ∈ b.gamma) :
    Holds (a.mul b) a.bw (signedResidue a.bw (x * y)) := by
  have hnn : ∃ x ∈ a.gamma, ∃ y ∈ b.gamma, 0 ≤ x * y := by
    by_cases hu : 0 ≤ a.u.val
    · by_cases he : 0 ≤ b.u.val
      · exact ⟨_, ha.u_mem, _, hb.u_mem, mul_nonneg hu he⟩
      · exact ⟨_, ha.l_mem, _, hb.u_mem, mul_nonneg_of_nonpos_of_nonpos (by omega) (by omega)⟩
    · exact ⟨_, ha.u_mem, _, hb.l_mem, mul_nonneg_of_nonpos_of_nonpos (by omega) (by omega)⟩
  obtain ⟨x', hx', y', hy', hxy⟩ := hnn
  exact holds_mul_of_both ha hb (holds_mulUnsigned ha hb hbw hw (by omega) hx hy)
    (holds_mulSigned ha hb hbw hw hx' hy' hxy hx hy)

/-- A product that is lost: not an end of the interval that has lost its inside. -/
def MulLosesAt (a b : Range) (x y : Int) : Prop :=
  (Segment a ∧ Segment b) ∧
    (((MixedLoss a.bw a.l.val a.u.val b.l.val b.u.val ∨
          MixedLoss a.bw b.l.val b.u.val a.l.val a.u.val) ∧
        x * y ≠ a.l.val * b.u.val ∧ x * y ≠ a.u.val * b.l.val) ∨
      (NegativeLoss a.bw a.l.val a.u.val b.l.val b.u.val ∧
        (x + 2 * half a.bw) * (y + 2 * half a.bw) ≠
          (a.l.val + 2 * half a.bw) * (b.l.val + 2 * half a.bw) ∧
        (x + 2 * half a.bw) * (y + 2 * half a.bw) ≠
          (a.u.val + 2 * half a.bw) * (b.u.val + 2 * half a.bw)))

/-- An operand that is not an interval gives the full range. -/
theorem holds_mul_of_not_segments (hwa : a.WellFormed) (hwb : b.WellFormed)
    (h : ¬ (Segment a ∧ Segment b)) (hx : x ∈ a.gamma) (hy : y ∈ b.gamma) :
    Holds (a.mul b) a.bw (signedResidue a.bw (x * y)) := by
  refine onProper_holds a.bw_valid (signedResidue_mem a.bw_valid.1 _) hx hy fun hpa hpb => ?_
  have hfull : a.IsFull ∨ b.IsFull ∨ a.type = .anti ∨ b.type = .anti := by
    by_contra hnone
    obtain ⟨hfa, hfb, hna, hnb⟩ := by simpa only [not_or] using hnone
    have hta := hpa.resolve_right hna
    have htb := hpb.resolve_right hnb
    exact h ⟨⟨hta, hwa.inLimits_of_not_full (Or.inl hta) hfa, hfa⟩,
      ⟨htb, hwb.inLimits_of_not_full (Or.inl htb) hfb, hfb⟩⟩
  change Holds (a.mul b) a.bw _
  rw [mul_of_full hpa hpb hfull]
  exact holds_full_residue a.bw_valid _

section Signs

variable {w : Nat} {l u c e : Int}

theorem not_mixedLoss_of_not (h : ¬ (u < 0 ∧ 0 < c)) : ¬ MixedLoss w l u c e :=
  fun hl => h ⟨hl.1, hl.2.1⟩

theorem not_negativeLoss_of_not (h : ¬ (u < 0 ∧ e < 0)) : ¬ NegativeLoss w l u c e :=
  fun hl => h ⟨hl.1, hl.2.1⟩

theorem not_capacityLoss_of_not (h : ¬ (u < 0 ∧ e < 0)) : ¬ CapacityLoss w l u c e :=
  fun hl => h ⟨hl.1, hl.2.1⟩

end Signs

/-- Below the capacity a product is lost exactly where `MulLosesAt` says so. -/
theorem holds_mul_iff (hw : a.bw * 2 < maxDigits) (hbw : b.bw = a.bw) (hwa : a.WellFormed)
    (hwb : b.WellFormed) (hx : x ∈ a.gamma) (hy : y ∈ b.gamma) :
    Holds (a.mul b) a.bw (signedResidue a.bw (x * y)) ↔ ¬ MulLosesAt a b x y := by
  by_cases hsegs : Segment a ∧ Segment b
  swap
  · exact iff_of_true (holds_mul_of_not_segments hwa hwb hsegs hx hy) (fun h => hsegs h.1)
  obtain ⟨ha, hb⟩ := hsegs
  have hal := ha.limits.2.1
  have hbl := hb.limits.2.1
  unfold MulLosesAt
  rw [iff_true_intro (And.intro ha hb), true_and]
  by_cases hmixed : a.u.val < 0 ∧ 0 < b.l.val
  · rw [(holds_mul_mixed ha hb hbw hw.le hx hy).1 hmixed.1 hmixed.2,
      or_iff_left (fun h => not_negativeLoss_of_not (by omega) h.1),
      or_iff_left (not_mixedLoss_of_not (by omega))]
  by_cases hmixed' : b.u.val < 0 ∧ 0 < a.l.val
  · rw [(holds_mul_mixed ha hb hbw hw.le hx hy).2 hmixed'.1 hmixed'.2,
      or_iff_left (fun h => not_negativeLoss_of_not (by omega) h.1),
      or_iff_right (not_mixedLoss_of_not (by omega))]
  rw [or_iff_right (fun h => h.1.elim (not_mixedLoss_of_not hmixed) (not_mixedLoss_of_not hmixed'))]
  by_cases hneg : a.u.val < 0 ∧ b.u.val < 0
  · exact holds_mul_negative ha hb hbw hw hneg.1 hneg.2 hx hy
  · exact iff_of_true (holds_mul_of_signs ha hb hbw hw.le hmixed hmixed' hneg hx hy)
      (fun h => not_negativeLoss_of_not hneg h.1)

/-- A product is lost exactly by the operands of `MulLoss`. -/
theorem mulSound_iff (hw : a.bw * 2 ≤ maxDigits) (hbw : b.bw = a.bw) (hwa : a.WellFormed)
    (hwb : b.WellFormed) : MulSound a b ↔ ¬ MulLoss a b := by
  have hP := half_pos a.bw
  by_cases hsegs : Segment a ∧ Segment b
  swap
  · exact iff_of_true (fun x hx y hy => holds_mul_of_not_segments hwa hwb hsegs hx hy)
      (fun h => hsegs h.1)
  obtain ⟨ha, hb⟩ := hsegs
  obtain ⟨hal1, hal, -⟩ := ha.limits
  obtain ⟨hbl1, hbl, -⟩ := hb.limits
  rw [hbw] at hbl1
  unfold MulLoss
  rw [iff_true_intro (And.intro ha hb), true_and]
  by_cases hmixed : a.u.val < 0 ∧ 0 < b.l.val
  · rw [or_iff_left (not_capacityLoss_of_not (by omega)), or_iff_left (not_or.mpr
      ⟨not_mixedLoss_of_not (by omega), not_negativeLoss_of_not (by omega)⟩),
      mulSound_segments ha hb, ← forall_mixed_ends_iff hal hmixed.1 hmixed.2 hbl]
    refine forall₂_congr fun s t => forall₂_congr fun hs ht => ?_
    exact (holds_mul_mixed ha hb hbw hw (ha.mem_iff.mpr hs) (hb.mem_iff.mpr ht)).1 hmixed.1 hmixed.2
  by_cases hmixed' : b.u.val < 0 ∧ 0 < a.l.val
  · rw [or_iff_left (not_capacityLoss_of_not (by omega)),
      or_iff_right (not_mixedLoss_of_not hmixed),
      or_iff_left (not_negativeLoss_of_not (by omega)), mulSound_segments ha hb, add_comm,
      ← forall_mixed_ends_iff hbl hmixed'.1 hmixed'.2 hal, forall_comm]
    refine forall₂_congr fun t s => forall_comm.trans (forall₂_congr fun ht hs => ?_)
    rw [(holds_mul_mixed ha hb hbw hw (ha.mem_iff.mpr hs) (hb.mem_iff.mpr ht)).2 hmixed'.1 hmixed'.2,
      mul_comm t s, mul_comm b.l.val, mul_comm b.u.val, and_comm (a := s * t ≠ _)]
  rw [or_iff_right (not_mixedLoss_of_not hmixed), or_iff_right (not_mixedLoss_of_not hmixed')]
  by_cases hneg : a.u.val < 0 ∧ b.u.val < 0
  · rcases hw.lt_or_eq with hlt | heq
    · rw [or_iff_left (fun h => hlt.ne h.2.2.1), mulSound_segments ha hb,
        ← forall_turned_ends_iff (m := 2 * half a.bw) (by omega) hal (by omega) hbl]
      refine forall₂_congr fun s t => forall₂_congr fun hs ht => ?_
      exact holds_mul_negative ha hb hbw hlt hneg.1 hneg.2 (ha.mem_iff.mpr hs) (hb.mem_iff.mpr ht)
    · rw [or_iff_right (fun h => h.2.2.2.1.ne heq)]
      exact mulSound_capacity ha hb hbw heq hneg.1 hneg.2
  · exact iff_of_true (fun x hx y hy => holds_mul_of_signs ha hb hbw hw hmixed hmixed' hneg hx hy)
      (not_or.mpr ⟨fun h => not_negativeLoss_of_not hneg h.2, not_capacityLoss_of_not hneg⟩)

end Claim

/-- `[-4, -3] * [1, 2]` in three bits: the signed products `[-8, -3]` are cut to `[-3, 0]`. -/
def turnedProducts : Range × Range :=
  (⟨-4, -3, 3, .regular, by decide⟩, ⟨1, 2, 3, .regular, by decide⟩)

/-- Multiplication keeps every product but those of `MulLoss`. -/
theorem multiplication_sound_iff (a b : Range) (hw : a.bw * 2 ≤ maxDigits) (hbw : b.bw = a.bw)
    (hwa : a.WellFormed) (hwb : b.WellFormed) :
    (∀ x ∈ a.gamma, ∀ y ∈ b.gamma, Holds (a.mul b) a.bw (signedResidue a.bw (x * y))) ↔
      ¬ MulLoss a b :=
  mulSound_iff hw hbw hwa hwb

theorem multiplication_sound_iff_turned :
    (∀ x ∈ turnedProducts.1.gamma, ∀ y ∈ turnedProducts.2.gamma,
      Holds (turnedProducts.1.mul turnedProducts.2) 3 (signedResidue 3 (x * y))) ↔
        ¬ MulLoss turnedProducts.1 turnedProducts.2 :=
  multiplication_sound_iff turnedProducts.1 turnedProducts.2 (by decide) rfl (by decide +kernel)
    (by decide +kernel)

theorem multiplication_not_sound :
    ¬ ∀ a b : Range, a.bw * 2 ≤ maxDigits → b.bw = a.bw → a.WellFormed → b.WellFormed →
      ∀ x ∈ a.gamma, ∀ y ∈ b.gamma, Holds (a.mul b) a.bw (signedResidue a.bw (x * y)) := by
  intro h
  have hlost : ¬ Holds (turnedProducts.1.mul turnedProducts.2) 3 (signedResidue 3 (-4 * 1)) := by
    decide +kernel
  exact hlost (h turnedProducts.1 turnedProducts.2 (by decide) rfl (by decide +kernel)
    (by decide +kernel) (-4) (by decide +kernel) 1 (by decide +kernel))

end Range
end Bambu
