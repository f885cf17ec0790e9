/-
  Bambu.Utility.Range.AbsNegate

  `Range::abs` and `Range::negate`.

  The signed minimum is its own negation, so that an interval which starts there comes back as the
  complement of one.  Its negation alone is past the limits: the constructor brings it back, except
  at the capacity.
-/

import Bambu.Utility.Range.Lattice

namespace Bambu
namespace Range

open Bambu.Math APInt

def abs (this : Range) : Except Error Range :=
  if this.isEmpty || this.isUnknown then .ok this
  else if this.isAnti then
    if this.u < 0 then
      if this.l = getSignedMinValue this.bw then
        ofBounds .regular this.bw 0 (getSignedMaxValue this.bw)
      else ofBounds .anti this.bw (getSignedMinValue this.bw + 1) (-1)
    else if this.l < 0 then
      if this.l = getSignedMinValue this.bw then
        ofBounds .regular this.bw (this.u + 1) (getSignedMaxValue this.bw)
      else ofBounds .anti this.bw (getSignedMinValue this.bw + 1) (min (-this.l) this.u)
    else ofBounds .anti this.bw (getSignedMinValue this.bw + 1) (if this.l = 0 then 0 else -1)
  else
    this.getSignedMin.bind fun smin => this.getSignedMax.bind fun smax =>
      if smax < 0 then
        if smin = getSignedMinValue this.bw then ofBounds .anti this.bw (smin + 1) (-smax - 1)
        else ofBounds .regular this.bw (-smax) (-smin)
      else if smin < 0 then
        if smin = getSignedMinValue this.bw then ofBounds .anti this.bw (smin + 1) (-1)
        else ofBounds .regular this.bw 0 (max smax (-smin))
      else .ok this

def negate (this : Range) : Except Error Range :=
  if this.isEmpty || this.isUnknown then .ok this
  else if this.isAnti then ofBounds .anti this.bw (-this.u) (-this.l)
  else ofBounds .regular this.bw (-this.u) (-this.l)

/-! ## Residues -/

section Residues

variable {w : Nat} {x : Int}

/-- The signed minimum is its own negation. -/
theorem signedResidue_neg (h0 : 0 < w) (hx : x ∈ signedRange w) :
    signedResidue w (-x) = if x = -half w then -half w else -x := by
  have hP := half_pos w
  obtain ⟨h1, h2⟩ := hx
  split
  · rw [signedResidue_past_upper h0 (by omega) (by omega)]
    omega
  · exact signedResidue_of_mem h0 (by omega) (by omega)

theorem signedResidue_abs (h0 : 0 < w) (hx : x ∈ signedRange w) :
    signedResidue w |x| = if x = -half w then -half w else |x| := by
  have hP := half_pos w
  obtain ⟨h1, h2⟩ := hx
  rcases Int.lt_or_le x 0 with hneg | hpos
  · rw [abs_of_neg hneg]
    exact signedResidue_neg h0 ⟨h1, h2⟩
  · rw [abs_of_nonneg hpos, if_neg (by omega)]
    exact signedResidue_of_mem h0 h1 h2

end Residues

section Sound

variable {w : Nat} {lb ub : APInt} {a : Range} {v x : Int}

theorem Denotes.holds {z : Except Error Range} {s : Set Int} (h : Denotes z w s) (hv : v ∈ s) :
    Holds z w v := by
  obtain ⟨r, hr, hbw, rfl⟩ := h
  exact ⟨r, hr, hbw, hv⟩

/-- The signed minimum and what lies above a bound; with one bit there may be nothing between. -/
theorem holds_anti_pastMin (hw : 0 < w ∧ w ≤ maxDigits) (hlb : lb.val = -half w + 1)
    (hub : -1 ≤ ub.val) (hub' : ub.val < half w) (hv : v ∈ signedRange w)
    (h : v = -half w ∨ ub.val < v) : Holds (ofBounds .anti w lb ub) w v := by
  have hP := half_pos w
  have hC := half_le_half hw.2
  by_cases hle : lb.val ≤ ub.val
  · exact (denotes_anti hw (by omega) hle hub').holds ⟨hv, by omega⟩
  · obtain ⟨hv1, hv2⟩ := hv
    rw [(yields_anti_adjacent hw.1 hw.2 (by omega) (by omega) (by omega)).holds_iff]
    exact ⟨⟨hv1, hv2⟩, hv1, by omega⟩

/-- The signed extrema of a Regular range, and its values between them. -/
theorem WellFormed.signed_extrema (h : a.WellFormed) (ht : a.type = .regular) :
    ∃ m n, a.getSignedMin = .ok m ∧ a.getSignedMax = .ok n ∧ -half a.bw ≤ m.val ∧
      m.val ≤ n.val ∧ n.val < half a.bw ∧ ∀ x ∈ a.gamma, m.val ≤ x ∧ x ≤ n.val := by
  have hP := half_pos a.bw
  obtain ⟨hl, hu⟩ | hlim := h.1 ht
  · obtain ⟨m, hm, hmv⟩ := getSignedMin_of_infinite ht hl
    obtain ⟨n, hn, hnv⟩ := getSignedMax_of_infinite ht hu
    refine ⟨m, n, hm, hn, by omega, by omega, by omega, fun x hx => ?_⟩
    obtain ⟨hx1, hx2⟩ := hx.1
    omega
  · refine ⟨a.l, a.u, getSignedMin_of_limits ht hlim, getSignedMax_of_limits ht hlim, hlim.1,
      hlim.2.1, hlim.2.2, fun x hx => ?_⟩
    rw [gamma_of_limits ht hlim] at hx
    exact hx

theorem getSignedMinValue_succ_val (hw : 0 < w ∧ w ≤ maxDigits) :
    (getSignedMinValue w + 1).val = -half w + 1 := by
  have hP := half_pos w
  have hC := half_le_half hw.2
  have hmin := getSignedMinValue_val hw.1 hw.2
  have hone := one_val
  rw [add_val (by omega) (by omega), hmin, hone]

theorem eq_signedMin_iff (hw : 0 < w ∧ w ≤ maxDigits) {p : APInt} :
    p = getSignedMinValue w ↔ p.val = -half w := by
  rw [SignMag.eq_iff, getSignedMinValue_val hw.1 hw.2]

/-- The absolute values of an Anti range. -/
theorem abs_holds_anti (ht : a.type = .anti) (hlim : a.InLimits) (hx : x ∈ a.gamma) :
    Holds a.abs a.bw (signedResidue a.bw |x|) := by
  have hw := a.bw_valid
  have hP := half_pos a.bw
  have hC := half_le_half hw.2
  have hmem := signedResidue_mem hw.1 |x|
  have hzero : (0 : APInt).val = 0 := SignMag.val_zero
  have hone : (1 : APInt).val = 1 := one_val
  have hmax := getSignedMaxValue_val hw.1 hw.2
  have hsucc := getSignedMinValue_succ_val hw
  have hmone : (-1 : APInt).val = -1 := neg_one_val
  have heq := signedResidue_abs hw.1 (show x ∈ signedRange a.bw from hx.1)
  obtain ⟨⟨hx1, hx2⟩, hout⟩ := (mem_gamma_of_anti ht).mp hx
  obtain ⟨hl, hlu, hu⟩ := hlim
  have habs : |x| = x ∨ |x| = -x := abs_choice x
  have hnonneg := abs_nonneg x
  unfold abs
  simp only [isEmpty, isUnknown, isAnti, ht, lt_zero_iff, eq_signedMin_iff hw]
  rw [if_neg (by decide), if_pos (by decide)]
  by_cases hu0 : a.u.val < 0
  · rw [if_pos hu0]
    by_cases hmin : a.l.val = -half a.bw
    · -- everything up to a negative bound is excluded
      rw [if_pos hmin]
      rw [if_neg (by omega)] at heq
      refine (denotes_regular hw (by omega) (by omega) (by omega)).holds ⟨by omega, ?_⟩
      rw [heq, hmax]
      omega
    · rw [if_neg hmin]
      refine holds_anti_pastMin hw hsucc (by omega) (by omega) hmem ?_
      split at heq <;> omega
  rw [if_neg hu0]
  by_cases hl0 : a.l.val < 0
  · rw [if_pos hl0]
    by_cases hmin : a.l.val = -half a.bw
    · rw [if_pos hmin]
      rw [if_neg (by omega)] at heq
      have hnext : (a.u + 1).val = a.u.val + 1 := by
        rw [add_val (by omega) (by omega), hone]
      refine (denotes_regular hw (by omega) (by omega) (by omega)).holds ⟨?_, ?_⟩
      · rw [heq, hnext]
        omega
      · rw [heq, hmax]
        omega
    · -- what is excluded on both sides of zero
      rw [if_neg hmin]
      have hbound : (min (-a.l) a.u).val = min (-a.l.val) a.u.val := by
        rw [SignMag.val_min, SignMag.val_neg]
      refine holds_anti_pastMin hw hsucc (by omega) (by omega) hmem ?_
      split at heq <;> omega
  · rw [if_neg hl0]
    by_cases hl1 : a.l.val = 0
    · rw [if_pos (SignMag.ext (hl1.trans hzero.symm))]
      refine holds_anti_pastMin hw hsucc (by omega) (by omega) hmem ?_
      split at heq <;> omega
    · rw [if_neg fun h => hl1 ((SignMag.eq_iff.mp h).trans hzero)]
      refine holds_anti_pastMin hw hsucc (by omega) (by omega) hmem ?_
      split at heq <;> omega

theorem abs_holds_regular (h : a.WellFormed) (ht : a.type = .regular) (hx : x ∈ a.gamma) :
    Holds a.abs a.bw (signedResidue a.bw |x|) := by
  have hw := a.bw_valid
  have hP := half_pos a.bw
  have hC := half_le_half hw.2
  have hmem := signedResidue_mem hw.1 |x|
  have hzero : (0 : APInt).val = 0 := SignMag.val_zero
  have hone : (1 : APInt).val = 1 := one_val
  have hmone : (-1 : APInt).val = -1 := neg_one_val
  have heq := signedResidue_abs hw.1 (show x ∈ signedRange a.bw from hx.1)
  obtain ⟨smin, smax, hsmin, hsmax, hlo, hle, hhi, hbounds⟩ := h.signed_extrema ht
  obtain ⟨hx1, hx2⟩ := hbounds x hx
  have habs : |x| = x ∨ |x| = -x := abs_choice x
  have hnonneg := abs_nonneg x
  have hnegmin : (-smin).val = -smin.val := SignMag.val_neg smin
  have hnegmax : (-smax).val = -smax.val := SignMag.val_neg smax
  have hop : a.abs = if smax < 0 then
        if smin = getSignedMinValue a.bw then ofBounds .anti a.bw (smin + 1) (-smax - 1)
        else ofBounds .regular a.bw (-smax) (-smin)
      else if smin < 0 then
        if smin = getSignedMinValue a.bw then ofBounds .anti a.bw (smin + 1) (-1)
        else ofBounds .regular a.bw 0 (max smax (-smin))
      else .ok a := by
    unfold abs
    rw [if_neg (by simp [isEmpty, isUnknown, ht]), if_neg (by simp [isAnti, ht]), hsmin, hsmax]
    rfl
  have hnext : smin.val = -half a.bw → (smin + 1).val = -half a.bw + 1 := by
    intro hmin
    rw [add_val (by omega) (by omega), hmin, hone]
  rw [hop]
  simp only [lt_zero_iff, eq_signedMin_iff hw]
  by_cases hneg : smax.val < 0
  · rw [if_pos hneg]
    by_cases hmin : smin.val = -half a.bw
    · rw [if_pos hmin]
      have hbound : (-smax - 1).val = -smax.val - 1 := by
        rw [sub_val (by omega) (by omega), hnegmax, hone]
      refine holds_anti_pastMin hw (hnext hmin) (by omega) (by omega) hmem ?_
      split at heq <;> omega
    · rw [if_neg hmin]
      rw [if_neg (by omega)] at heq
      refine (denotes_regular hw (by omega) (by omega) (by omega)).holds ⟨?_, ?_⟩ <;> omega
  rw [if_neg hneg]
  by_cases hcross : smin.val < 0
  · rw [if_pos hcross]
    by_cases hmin : smin.val = -half a.bw
    · rw [if_pos hmin]
      refine holds_anti_pastMin hw (hnext hmin) (by omega) (by omega) hmem ?_
      split at heq <;> omega
    · rw [if_neg hmin]
      rw [if_neg (by omega)] at heq
      have hbound : (max smax (-smin)).val = max smax.val (-smin.val) := by
        rw [SignMag.val_max, hnegmin]
      refine (denotes_regular hw (by omega) (by omega) (by omega)).holds ⟨?_, ?_⟩ <;> omega
  · -- no value is negative
    rw [if_neg hcross, holds_ok, heq, if_neg (by omega), abs_of_nonneg (by omega)]
    exact ⟨rfl, hx⟩

theorem abs_holds (h : a.WellFormed) (hp : a.Proper) (hx : x ∈ a.gamma) :
    Holds a.abs a.bw (signedResidue a.bw |x|) := by
  obtain ht | ht := hp
  · exact abs_holds_regular h ht hx
  · exact abs_holds_anti ht (h.2 ht) hx

/-! ## Negation -/

/-- Below the capacity there is room for the negation of the signed minimum. -/
theorem half_succ_lt (h0 : 0 < w) (hlt : w < maxDigits) : half w + 1 < half maxDigits := by
  have hcap := two_mul_half_le h0 hlt
  have hfour : half 3 ≤ half maxDigits := half_le_half (by decide)
  have hthree : half 3 = 4 := rfl
  have hP := half_pos w
  omega

theorem negate_holds_anti (ht : a.type = .anti) (hlim : a.InLimits) (hx : x ∈ a.gamma) :
    Holds a.negate a.bw (signedResidue a.bw (-x)) := by
  have hw := a.bw_valid
  have hP := half_pos a.bw
  have hC := half_le_half hw.2
  have h2 := two_le_half_maxDigits
  have hmem := signedResidue_mem hw.1 (-x)
  have heq := signedResidue_neg hw.1 (show x ∈ signedRange a.bw from hx.1)
  obtain ⟨⟨hx1, hx2⟩, hout⟩ := (mem_gamma_of_anti ht).mp hx
  obtain ⟨hl, hlu, hu⟩ := hlim
  have hnegl : (-a.l).val = -a.l.val := SignMag.val_neg a.l
  have hnegu : (-a.u).val = -a.u.val := SignMag.val_neg a.u
  have hop : a.negate = ofBounds .anti a.bw (-a.u) (-a.l) := by
    unfold negate
    rw [if_neg (by simp [isEmpty, isUnknown, ht]), if_pos (by simp [isAnti, ht])]
  rw [hop]
  by_cases hmin : a.l.val = -half a.bw
  · -- the upper bound is one past the limits
    rcases Nat.lt_or_eq_of_le hw.2 with hlt | hcap
    · have hroom := half_succ_lt hw.1 hlt
      have hsound : AntiSound a.bw (-a.u) (-a.l) := by
        rw [antiSound_iff_not_loss hw.1 hw.2 (by omega) (by omega) (by omega),
          antiLoss_iff_of_near hw.1 (by omega) (by omega) (by omega)]
        omega
      refine hsound _ hmem ?_
      rintro ⟨k, ⟨hk1, hk2⟩, hmod⟩
      have hxk : signedResidue a.bw (-x) = signedResidue a.bw k := by
        rw [← signedResidue_congr hmod, signedResidue_signedResidue]
      rw [heq, if_neg (by omega)] at hxk
      by_cases hk : k = half a.bw
      · rw [signedResidue_past_upper hw.1 (by omega) (by omega)] at hxk
        omega
      · rw [signedResidue_of_mem hw.1 (by omega) (by omega)] at hxk
        omega
    · have hy : Yields (ofBounds .anti a.bw (-a.u) (-a.l)) maxDigits .regular (-half maxDigits)
          (half maxDigits - 1) := by
        rw [hcap] at hl hu hmin ⊢
        apply yields_of_normalizeRange maxDigits_valid
        rw [normalizeRange_anti (by omega) (by rw [ne_eq, eq_min_iff]; omega)
          (by rw [ne_eq, eq_max_iff]; omega)]
        exact (yieldsBounds_anti_out (by omega) (by omega) (by omega)).repair (by omega)
      simp only [hcap] at hy ⊢
      exact holds_of_all hy (-x)
  · refine (denotes_anti hw (by omega) (by omega) (by omega)).holds ⟨hmem, ?_⟩
    split at heq <;> omega

/-- The negation of the signed minimum alone, at the capacity. -/
def NegatedAtCapacity (a : Range) : Prop :=
  a.bw = maxDigits ∧ a.type = .regular ∧ a.l.val = -half a.bw ∧ a.u.val = -half a.bw

theorem negate_holds_regular (h : a.WellFormed) (ht : a.type = .regular)
    (hne : ¬ NegatedAtCapacity a) (hx : x ∈ a.gamma) :
    Holds a.negate a.bw (signedResidue a.bw (-x)) := by
  have hw := a.bw_valid
  have hP := half_pos a.bw
  have hC := half_le_half hw.2
  have h2 := two_le_half_maxDigits
  have hmem := signedResidue_mem hw.1 (-x)
  obtain ⟨⟨hx1, hx2⟩, hlx, hxu⟩ := (mem_gamma_of_regular ht).mp hx
  have hnegl : (-a.l).val = -a.l.val := SignMag.val_neg a.l
  have hnegu : (-a.u).val = -a.u.val := SignMag.val_neg a.u
  have hop : a.negate = ofBounds .regular a.bw (-a.u) (-a.l) := by
    unfold negate
    rw [if_neg (by simp [isEmpty, isUnknown, ht]), if_neg (by simp [isAnti, ht])]
  rw [hop]
  rcases Nat.lt_or_eq_of_le hw.2 with hlt | hcap
  · have hroom := half_succ_lt hw.1 hlt
    obtain ⟨hl, hu⟩ | ⟨hl, hlu, hu⟩ := h.regular_bounds ht
    · -- the negated infinite bounds lie beyond both limits
      have hpred : -a.u - MinDelta ≠ -a.l := pred_ne_of_le (by omega) (by omega)
      have hy : Yields (ofBounds .regular a.bw (-a.u) (-a.l)) a.bw .regular (-half maxDigits)
          (half maxDigits - 1) := by
        apply yields_of_normalizeRange hw
        rw [normalizeRange_regular (by omega) hpred (by rw [ne_eq, eq_min_iff]; omega)
          (by rw [ne_eq, eq_max_iff]; omega)]
        exact (normalizeRegular_across hw (by omega) (by omega)).repair_crossed (by omega)
      obtain ⟨hm1, hm2⟩ := hmem
      rw [hy.holds_iff]
      exact ⟨⟨hm1, hm2⟩, by omega, by omega⟩
    · have hsound : RegularSound a.bw (-a.u) (-a.l) := by
        rw [regularSound_iff_not_loss hw.1 hw.2 (by omega) (by omega) (by omega)]
        exact not_regularLoss_of_near hw.1 (by omega) (by omega)
      exact hsound.holds hw.1 (by omega) (by omega)
  · -- at the capacity only one value past the limits stays there
    have hbounds : -half maxDigits ≤ a.l.val ∧ a.u.val < half maxDigits := by
      obtain ⟨hl, hu⟩ | ⟨hl, hlu, hu⟩ := h.regular_bounds ht <;> rw [hcap] at * <;> omega
    have hup : -half maxDigits < a.u.val := by
      by_contra hle
      rw [hcap] at hx1
      exact hne ⟨hcap, ht, by rw [hcap]; omega, by rw [hcap]; omega⟩
    simp only [hcap]
    exact holds_regular_maxDigits (by omega) (by omega) (by omega) (by omega) (by omega)

theorem negate_holds (h : a.WellFormed) (hp : a.Proper) (hne : ¬ NegatedAtCapacity a)
    (hx : x ∈ a.gamma) : Holds a.negate a.bw (signedResidue a.bw (-x)) := by
  obtain ht | ht := hp
  · exact negate_holds_regular h ht hne hx
  · exact negate_holds_anti ht (h.2 ht) hx

/-- There the result holds no value. -/
theorem not_negate_holds (hcap : NegatedAtCapacity a) (v : Int) : ¬ Holds a.negate a.bw v := by
  obtain ⟨hbw, ht, hl, hu⟩ := hcap
  have hP := half_pos maxDigits
  rw [hbw] at hl hu
  have hnegl : (-a.l).val = -a.l.val := SignMag.val_neg a.l
  have hnegu : (-a.u).val = -a.u.val := SignMag.val_neg a.u
  have hop : a.negate = ofBounds .regular a.bw (-a.u) (-a.l) := by
    unfold negate
    rw [if_neg (by simp [isEmpty, isUnknown, ht]), if_neg (by simp [isAnti, ht])]
  rw [hop, hbw, (yields_above (by omega) (by omega)).holds_iff]
  rintro ⟨⟨-, hv⟩, hv', -⟩
  omega

end Sound

/-- The absolute values and the negations of all values are kept, except for the negation of the
signed minimum alone at the capacity. -/
theorem abs_negate_sound_iff (a : Range) (h : a.WellFormed) (hp : a.Proper) :
    (∀ x ∈ a.gamma, Holds a.abs a.bw (signedResidue a.bw |x|) ∧
      Holds a.negate a.bw (signedResidue a.bw (-x))) ↔ ¬ NegatedAtCapacity a := by
  constructor
  · intro hsound hcap
    have hbw := hcap.1
    have hP := half_pos a.bw
    have hmem : -half a.bw ∈ a.gamma :=
      (mem_gamma_of_regular hcap.2.1).mpr ⟨⟨le_refl _, by omega⟩, hcap.2.2.1.le, hcap.2.2.2.ge⟩
    exact not_negate_holds hcap _ (hsound _ hmem).2
  · exact fun hne x hx => ⟨abs_holds h hp hx, negate_holds h hp hne hx⟩

/-- An interval of eight bits that starts at the signed minimum. -/
def fromMinEight : {r : Range // r.WellFormed ∧ r.Proper} :=
  ⟨⟨-128, 5, 8, .regular, bwValid_eight⟩, by decide +kernel, Or.inl rfl⟩

theorem abs_negate_sound_iff_eight :
    (∀ x ∈ fromMinEight.val.gamma,
      Holds fromMinEight.val.abs fromMinEight.val.bw (signedResidue fromMinEight.val.bw |x|) ∧
        Holds fromMinEight.val.negate fromMinEight.val.bw
          (signedResidue fromMinEight.val.bw (-x))) ↔ ¬ NegatedAtCapacity fromMinEight.val :=
  abs_negate_sound_iff fromMinEight.val fromMinEight.property.1 fromMinEight.property.2

/-- The signed minimum of the capacity. -/
def minAlone : Range := ⟨Min, Min, maxDigits, .regular, bwValid_maxDigits⟩

theorem negate_not_sound :
    minAlone.WellFormed ∧ -half maxDigits ∈ minAlone.gamma ∧
      ¬ Holds minAlone.negate maxDigits (signedResidue maxDigits (- -half maxDigits)) := by
  have hP := half_pos maxDigits
  have hmin := min_val
  have hcap : NegatedAtCapacity minAlone := ⟨rfl, rfl, hmin, hmin⟩
  refine ⟨⟨fun _ => Or.inr ⟨hmin.ge, le_refl _, ?_⟩, by rintro ⟨⟩⟩, ?_, not_negate_holds hcap _⟩
  · show Min.val < half maxDigits
    omega
  · have hlt : -half maxDigits < half maxDigits := by omega
    exact (mem_gamma_of_regular rfl).mpr ⟨⟨le_refl _, hlt⟩, hmin.le, hmin.ge⟩

end Range
end Bambu
