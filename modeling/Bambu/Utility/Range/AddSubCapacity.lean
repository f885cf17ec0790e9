/-
  Bambu.Utility.Range.AddSubCapacity

  `Range::add` and `Range::sub` at the capacity.

  At this width the limits are the infinite bounds, truncation keeps its
  argument and the span test of `normalizeRange` fails, so a Regular result that
  leaves the limits is either everything or stays where it is; what stays
  outside holds no value.
-/

import Bambu.Utility.Range.AddSub

namespace Bambu
namespace Range

open Bambu.Math APInt

/-! ## The constructor at the capacity -/

section Constructor

variable {lb ub : APInt} {v : Int}

theorem maxDigits_valid : 0 < maxDigits ∧ maxDigits ≤ maxDigits := ⟨maxDigits_pos, le_refl _⟩

theorem yieldsBounds_all :
    YieldsBounds (.ok (Bounds.repair ⟨.regular, getSignedMinValue maxDigits,
      getSignedMaxValue maxDigits⟩)) .regular (-half maxDigits) (half maxDigits - 1) :=
  (yieldsBounds_limits maxDigits_valid _).repair (by have := half_pos maxDigits; omega)

/-- An interval that meets the limits and sticks out becomes everything. -/
theorem yields_all_of_out (hle : lb.val ≤ ub.val) (hlo : lb.val < half maxDigits)
    (hhi : -half maxDigits ≤ ub.val)
    (hout : lb.val < -half maxDigits ∨ half maxDigits ≤ ub.val) :
    Yields (ofBounds .regular maxDigits lb ub) maxDigits .regular (-half maxDigits)
      (half maxDigits - 1) := by
  have hP := half_pos maxDigits
  apply yields_of_normalizeRange maxDigits_valid
  by_cases hpred : lb - MinDelta = ub
  · simp only [normalizeRange, if_pos hpred]
    exact yieldsBounds_all
  simp only [normalizeRange]
  rw [if_neg hpred, if_neg (by rw [gt_iff_lt, SignMag.lt_iff]; omega)]
  by_cases hmax : ub = Max
  · have hmaxv := eq_max_iff.mp hmax
    rw [if_neg (fun h => by have := eq_min_iff.mp h.1; omega), if_pos hmax]
    exact (normalizeToMax_below maxDigits_valid (by omega)).repair_crossed (by omega)
  rw [if_neg (fun h => hmax h.2), if_neg hmax]
  by_cases hmin : lb = Min
  · have hminv := eq_min_iff.mp hmin
    rw [if_pos hmin]
    exact (normalizeFromMin_above_maxDigits (by omega)).repair_crossed (by omega)
  rw [if_neg hmin]
  rw [normalizeRegular_out_maxDigits hle hlo hhi hout]
  exact (yieldsBounds_crossed maxDigits_valid _).repair_crossed (by omega)

/-- An interval above the limits stays there. -/
theorem yields_above (hlo : half maxDigits ≤ lb.val) (hle : lb.val ≤ ub.val) :
    Yields (ofBounds .regular maxDigits lb ub) maxDigits .regular lb.val ub.val := by
  have hP := half_pos maxDigits
  apply yields_of_normalizeRange maxDigits_valid
  rw [normalizeRange_regular hle (pred_ne_of_le (by omega) hle) (by rw [ne_eq, eq_min_iff]; omega)
    (by rw [ne_eq, eq_max_iff]; omega)]
  exact (normalizeRegular_above_maxDigits hlo hle).repair hle

/-- An interval below the limits is stored in reverse and becomes everything,
    unless it is a single value. -/
theorem yields_below (hlt : lb.val < ub.val) (hhi : ub.val < -half maxDigits) :
    Yields (ofBounds .regular maxDigits lb ub) maxDigits .regular (-half maxDigits)
      (half maxDigits - 1) := by
  have hlb := lb.bounds
  apply yields_of_normalizeRange maxDigits_valid
  by_cases hpred : lb - MinDelta = ub
  · simp only [normalizeRange, if_pos hpred]
    exact yieldsBounds_all
  rw [normalizeRange_regular hlt.le hpred (by rw [ne_eq, eq_min_iff]; omega)
    (by rw [ne_eq, eq_max_iff]; omega)]
  exact (normalizeRegular_below_maxDigits hlt.le hhi).repair_crossed hlt

theorem yields_below_constant (heq : lb.val = ub.val) (hhi : ub.val < -half maxDigits) :
    Yields (ofBounds .regular maxDigits lb ub) maxDigits .regular ub.val lb.val := by
  have hP := half_pos maxDigits
  have hpred : lb - MinDelta ≠ ub := by
    intro h
    rw [SignMag.eq_iff] at h
    by_cases hleast : lb.val = -(2 * half maxDigits) + 1
    · rw [sub_minDelta_val_least hleast] at h
      omega
    · have := lb.bounds
      rw [sub_minDelta_val (by omega)] at h
      omega
  apply yields_of_normalizeRange maxDigits_valid
  rw [normalizeRange_regular heq.le hpred (by rw [ne_eq, eq_min_iff]; omega)
    (by rw [ne_eq, eq_max_iff]; omega)]
  exact (normalizeRegular_below_maxDigits heq.le hhi).repair heq.ge

/-- Regular bounds in order keep the residues of the integers between them,
    unless they lie above the limits or are one value below. -/
theorem holds_regular_maxDigits (hle : lb.val ≤ ub.val) (hlo : lb.val < half maxDigits)
    (hhi : lb.val < ub.val ∨ -half maxDigits ≤ ub.val) {k : Int} (hk : lb.val ≤ k)
    (hk' : k ≤ ub.val) :
    Holds (ofBounds .regular maxDigits lb ub) maxDigits (signedResidue maxDigits k) := by
  by_cases hbelow : ub.val < -half maxDigits
  · exact holds_of_all (yields_below (by omega) hbelow) k
  by_cases hout : lb.val < -half maxDigits ∨ half maxDigits ≤ ub.val
  · exact holds_of_all (yields_all_of_out hle hlo (by omega) hout) k
  · rw [(ofBounds_regular_inside maxDigits_valid (by omega) hle (by omega)).holds_iff,
      signedResidue_of_mem maxDigits_pos (by omega) (by omega)]
    exact ⟨⟨by omega, by omega⟩, hk, hk'⟩

/-- Anti bounds on the two sides of nothing: the range becomes everything. -/
theorem yieldsBounds_anti_out (hle : lb.val ≤ ub.val)
    (hout : lb.val < -half maxDigits ∨ half maxDigits ≤ ub.val)
    (hacross : ¬ (lb.val < -half maxDigits ∧ half maxDigits ≤ ub.val)) :
    YieldsBounds (normalizeAnti maxDigits lb ub) .regular (-half maxDigits)
      (half maxDigits - 1) := by
  have hP := half_pos maxDigits
  by_cases hmeet : lb.val < half maxDigits ∧ -half maxDigits ≤ ub.val
  · simp only [normalizeAnti_eq maxDigits_valid hle, not_span_lt_maxDigits, false_and, if_false]
    rw [if_neg (by omega), if_neg (by omega)]
    by_cases hlow : lb.val < -half maxDigits
    · rw [if_neg (by omega), if_pos (by omega)]
      exact yieldsBounds_limits maxDigits_valid _
    · rw [if_pos (by omega)]
      exact yieldsBounds_limits maxDigits_valid _
  · exact normalizeAnti_maxDigits_out hle (by omega)

/-- Crossed bounds go on as the bounds of the values between them. -/
theorem yields_swapped (hgt : ub.val < lb.val) (hlo : -(2 * half maxDigits) + 1 < lb.val)
    (hhi : ub.val + 1 < 2 * half maxDigits) (hout : lb.val - 1 ≠ ub.val →
      (ub.val + 1 < -half maxDigits ∧ lb.val - 1 < half maxDigits - 1) ∨
        (half maxDigits ≤ lb.val - 1 ∧ -half maxDigits < ub.val + 1)) :
    Yields (ofBounds .regular maxDigits lb ub) maxDigits .regular (-half maxDigits)
      (half maxDigits - 1) := by
  have hP := half_pos maxDigits
  have hpred : (lb - MinDelta).val = lb.val - 1 := sub_minDelta_val hlo
  have hsucc : (ub + MinDelta).val = ub.val + 1 := add_minDelta_val hhi
  apply yields_of_normalizeRange maxDigits_valid
  by_cases heq : lb - MinDelta = ub
  · simp only [normalizeRange, if_pos heq]
    exact yieldsBounds_all
  rw [normalizeRange, if_neg heq, if_pos (by rw [gt_iff_lt, SignMag.lt_iff]; omega)]
  rw [SignMag.eq_iff, hpred] at heq
  rw [normalizeRange_anti (by omega) (by rw [ne_eq, eq_min_iff]; omega)
    (by rw [ne_eq, eq_max_iff]; omega)]
  exact (yieldsBounds_anti_out (by omega) (by omega) (by omega)).repair (by omega)

/-- Crossed bounds below `Min`: the complement is everything. -/
theorem yields_fromMin_crossed (hmin : lb.val = -half maxDigits)
    (hub : ub.val < -half maxDigits) :
    Yields (ofBounds .regular maxDigits lb ub) maxDigits .regular (-half maxDigits)
      (half maxDigits - 1) := by
  have h2 := two_le_half_maxDigits
  exact yields_swapped (by omega) (by omega) (by omega) (fun _ => Or.inl (by omega))

/-- Crossed bounds above `Max`: the complement is everything. -/
theorem yields_toMax_crossed (hlb : half maxDigits ≤ lb.val)
    (hmax : ub.val = half maxDigits - 1) :
    Yields (ofBounds .regular maxDigits lb ub) maxDigits .regular (-half maxDigits)
      (half maxDigits - 1) := by
  have h2 := two_le_half_maxDigits
  exact yields_swapped (by omega) (by omega) (by omega) (fun _ => Or.inr (by omega))

/-- Crossed bounds that start at zero: the complement of what lies between. -/
theorem holds_zero_crossed (hzero : lb.val = 0) (hub : ub.val < 0)
    (hv : v ∈ signedRange maxDigits) (hv' : v ≤ ub.val ∨ 0 ≤ v) :
    Holds (ofBounds .regular maxDigits lb ub) maxDigits v := by
  have hP := half_pos maxDigits
  have h2 := two_le_half_maxDigits
  have hubb := ub.bounds
  obtain ⟨hv1, hv2⟩ := hv
  have hpred : (lb - MinDelta).val = -1 := by rw [sub_minDelta_val (by omega), hzero]; rfl
  have hsucc : (ub + MinDelta).val = ub.val + 1 := add_minDelta_val (by omega)
  have hall : Yields (ofBounds .regular maxDigits lb ub) maxDigits .regular (-half maxDigits)
      (half maxDigits - 1) → Holds (ofBounds .regular maxDigits lb ub) maxDigits v := by
    intro h
    rw [h.holds_iff]
    exact ⟨⟨hv1, hv2⟩, hv1, by omega⟩
  by_cases heq : lb - MinDelta = ub
  · apply hall
    apply yields_of_normalizeRange maxDigits_valid
    simp only [normalizeRange, if_pos heq]
    exact yieldsBounds_all
  have hstep : ∀ {t a b}, YieldsBounds
      (normalizeRange maxDigits lb ub 3 .anti (ub + MinDelta) (lb - MinDelta)) t a b →
      Yields (ofBounds .regular maxDigits lb ub) maxDigits t a b := by
    intro t a b h
    apply yields_of_normalizeRange maxDigits_valid
    rwa [normalizeRange, if_neg heq, if_pos (by rw [gt_iff_lt, SignMag.lt_iff]; omega)]
  rw [SignMag.eq_iff, hpred] at heq
  have hmaxne : lb - MinDelta ≠ Max := by rw [ne_eq, eq_max_iff]; omega
  by_cases hout : ub.val + 1 < -half maxDigits
  · apply hall
    apply hstep
    rw [normalizeRange_anti (by omega) (by rw [ne_eq, eq_min_iff]; omega) hmaxne]
    exact (yieldsBounds_anti_out (by omega) (by omega) (by omega)).repair (by omega)
  by_cases hmin : ub.val + 1 = -half maxDigits
  · -- `Min` again: what is left goes from zero to `Max`
    have hzero' : (lb - MinDelta + MinDelta).val = 0 := by
      rw [add_minDelta_val (by omega), hpred]
      rfl
    have hmaxv := max_val
    have hminv : ub + MinDelta = Min := eq_min_iff.mpr (by omega)
    have hy : Yields (ofBounds .regular maxDigits lb ub) maxDigits .regular 0
        (half maxDigits - 1) := by
      apply hstep
      rw [← hzero']
      rw [normalizeRange, if_neg (by rw [gt_iff_lt, SignMag.lt_iff]; omega),
        if_neg (fun h => hmaxne h.2), if_pos hminv, normalizeRange,
        if_neg (pred_ne_of_le (by omega) (by omega)),
        if_neg (by rw [gt_iff_lt, SignMag.lt_iff]; omega),
        if_neg (fun h => by have := eq_min_iff.mp h.1; omega), if_pos rfl]
      exact (normalizeToMax_inside maxDigits_valid (by omega) (by omega)).repair (by omega)
    rw [hy.holds_iff]
    exact ⟨⟨hv1, hv2⟩, by omega, by omega⟩
  · have hy : Yields (ofBounds .regular maxDigits lb ub) maxDigits .anti (ub + MinDelta).val
        (lb - MinDelta).val := by
      apply hstep
      rw [normalizeRange_anti (by omega) (by rw [ne_eq, eq_min_iff]; omega) hmaxne]
      exact (normalizeAnti_inside maxDigits_valid (by omega) (by omega) (by omega)).repair
        (by omega)
    rw [hy.holds_iff]
    refine ⟨⟨hv1, hv2⟩, ?_⟩
    show _ ∨ _
    omega

/-- Anti bounds keep every value not congruent to an excluded one, as long as
    at most one of them leaves the finite values. -/
theorem antiSound_of_le (hle : lb.val ≤ ub.val)
    (hfin : ub.val < half maxDigits - 1 ∨ -half maxDigits < lb.val) :
    AntiSound maxDigits lb ub := by
  have hP := half_pos maxDigits
  have h2 := two_le_half_maxDigits
  have hex : ∀ v ∈ signedRange maxDigits,
      (¬ ∃ k ∈ Set.Icc lb.val ub.val, v ≡ k [ZMOD 2 ^ maxDigits]) → ¬ (lb.val ≤ v ∧ v ≤ ub.val) :=
    fun v _ hk h => hk ⟨v, h, Int.ModEq.refl v⟩
  by_cases hout : lb.val < -half maxDigits ∨ half maxDigits ≤ ub.val
  · have hy : Yields (ofBounds .anti maxDigits lb ub) maxDigits .regular (-half maxDigits)
        (half maxDigits - 1) := by
      apply yields_of_normalizeRange maxDigits_valid
      rw [normalizeRange_anti hle (by rw [ne_eq, eq_min_iff]; omega)
        (by rw [ne_eq, eq_max_iff]; omega)]
      exact (yieldsBounds_anti_out hle hout (by omega)).repair (by omega)
    rintro v ⟨hv1, hv2⟩ -
    rw [hy.holds_iff]
    exact ⟨⟨hv1, hv2⟩, hv1, by omega⟩
  by_cases hmin : lb.val = -half maxDigits
  · have hsucc : (ub + MinDelta).val = ub.val + 1 := add_minDelta_val (by omega)
    have hy : Yields (ofBounds .anti maxDigits lb ub) maxDigits .regular _ _ :=
      yields_anti_fromMin maxDigits_valid hmin (by omega) (by omega)
        ((normalizeToMax_inside maxDigits_valid (by omega) (by omega)).repair (by omega))
    rintro v hv hk
    have := hex v hv hk
    obtain ⟨hv1, hv2⟩ := hv
    rw [hy.holds_iff]
    exact ⟨⟨hv1, hv2⟩, by omega, by omega⟩
  by_cases hmax : ub.val = half maxDigits - 1
  · have hpred : (lb - MinDelta).val = lb.val - 1 := sub_minDelta_val (by omega)
    have hy : Yields (ofBounds .anti maxDigits lb ub) maxDigits .regular _ _ :=
      yields_anti_toMax maxDigits_valid (by omega) (by omega) hmax
        ((normalizeFromMin_inside maxDigits_valid (by omega) (by omega)).repair (by omega))
    rintro v hv hk
    have := hex v hv hk
    obtain ⟨hv1, hv2⟩ := hv
    rw [hy.holds_iff]
    exact ⟨⟨hv1, hv2⟩, by omega, by omega⟩
  · exact antiSound_maxDigits (by omega) hle (by omega)

end Constructor

/-! ## A Regular range moved by a constant -/

section Shift

variable {a : Range} {lb ub : APInt} {δ : Int}

theorem capacityShift_iff (hw : a.bw = maxDigits) (ha : a.type = .regular) (hla : a.InLimits)
    (hlb : lb.val = a.l.val + δ) (hub : ub.val = a.u.val + δ) :
    (∀ x ∈ a.gamma, Holds (ofBounds .regular maxDigits lb ub) maxDigits
      (signedResidue maxDigits (x + δ))) ↔
      ¬ (half maxDigits ≤ a.l.val + δ ∨
        (a.l.val = a.u.val ∧ a.u.val + δ < -half maxDigits)) := by
  have hP := half_pos maxDigits
  obtain ⟨h1, h2, h3⟩ := hla
  rw [hw] at h1 h3
  have hlmem : a.l.val ∈ a.gamma :=
    (mem_gamma_of_regular ha).mpr (by rw [hw]; exact ⟨⟨h1, by omega⟩, le_refl _, h2⟩)
  by_cases habove : half maxDigits ≤ a.l.val + δ
  · refine iff_of_false (fun hs => ?_) (not_not.mpr (Or.inl habove))
    have := hs _ hlmem
    rw [(yields_above (by omega) (by omega)).holds_iff] at this
    have h := this.2.1
    have := this.1.2
    omega
  by_cases hconst : a.l.val = a.u.val ∧ a.u.val + δ < -half maxDigits
  · refine iff_of_false (fun hs => ?_) (not_not.mpr (Or.inr hconst))
    have := hs _ hlmem
    rw [(yields_below_constant (by omega) (by omega)).holds_iff] at this
    have h := this.2.2
    have := this.1.1
    omega
  refine iff_of_true (fun x hx => ?_) (not_or.mpr ⟨habove, hconst⟩)
  obtain ⟨-, hx1, hx2⟩ := (mem_gamma_of_regular ha).mp hx
  exact holds_regular_maxDigits (by omega) (by omega) (by omega) (by omega) (by omega)

/-- A range that starts at `Min` keeps its lower bound: a move down is lost. -/
theorem capacityFromMin_iff (hw : a.bw = maxDigits) (ha : a.type = .regular) (hla : a.InLimits)
    (hl : a.l.val = -half maxDigits) (hu : a.u.val < half maxDigits - 1)
    (hδ : -half maxDigits ≤ δ) (hlb : lb.val = -half maxDigits) (hub : ub.val = a.u.val + δ) :
    (∀ x ∈ a.gamma, Holds (ofBounds .regular maxDigits lb ub) maxDigits
      (signedResidue maxDigits (x + δ))) ↔ ¬ (δ < 0 ∧ -half maxDigits ≤ a.u.val + δ) := by
  have hP := half_pos maxDigits
  obtain ⟨h1, h2, h3⟩ := hla
  by_cases hlow : a.u.val + δ < -half maxDigits
  · exact iff_of_true (fun x _ => holds_of_all (yields_fromMin_crossed hlb (by omega)) _) (by omega)
  by_cases hout : half maxDigits ≤ a.u.val + δ
  · exact iff_of_true (fun x _ => holds_of_all
      (yields_all_of_out (by omega) (by omega) (by omega) (by omega)) _) (by omega)
  have hy : Yields (ofBounds .regular maxDigits lb ub) maxDigits .regular _ _ :=
    ofBounds_regular_inside maxDigits_valid (by omega) (by omega) (by omega)
  by_cases hneg : δ < 0
  · refine iff_of_false (fun hs => ?_) (not_not.mpr ⟨hneg, by omega⟩)
    have hlmem : a.l.val ∈ a.gamma :=
      (mem_gamma_of_regular ha).mpr (by rw [hw]; exact ⟨⟨by omega, by omega⟩, le_refl _, h2⟩)
    have := hs _ hlmem
    rw [hy.holds_iff, signedResidue_past_lower maxDigits_pos (by omega) (by omega)] at this
    have := this.2.2
    omega
  · refine iff_of_true (fun x hx => ?_) (by omega)
    obtain ⟨-, hx1, hx2⟩ := (mem_gamma_of_regular ha).mp hx
    rw [hy.holds_iff, signedResidue_of_mem maxDigits_pos (by omega) (by omega)]
    exact ⟨⟨by omega, by omega⟩, by omega, by omega⟩

/-- A range that ends at `Max` keeps its upper bound: a move up is lost. -/
theorem capacityToMax_iff (hw : a.bw = maxDigits) (ha : a.type = .regular) (hla : a.InLimits)
    (hl : -half maxDigits < a.l.val) (hu : a.u.val = half maxDigits - 1)
    (hlb : lb.val = a.l.val + δ) (hub : ub.val = half maxDigits - 1) :
    (∀ x ∈ a.gamma, Holds (ofBounds .regular maxDigits lb ub) maxDigits
      (signedResidue maxDigits (x + δ))) ↔ ¬ (0 < δ ∧ a.l.val + δ < half maxDigits) := by
  have hP := half_pos maxDigits
  obtain ⟨h1, h2, h3⟩ := hla
  by_cases habove : half maxDigits ≤ a.l.val + δ
  · exact iff_of_true (fun x _ => holds_of_all (yields_toMax_crossed (by omega) hub) _) (by omega)
  by_cases hout : a.l.val + δ < -half maxDigits
  · exact iff_of_true (fun x _ => holds_of_all
      (yields_all_of_out (by omega) (by omega) (by omega) (by omega)) _) (by omega)
  have hy : Yields (ofBounds .regular maxDigits lb ub) maxDigits .regular _ _ :=
    ofBounds_regular_inside maxDigits_valid (by omega) (by omega) (by omega)
  by_cases hpos : 0 < δ
  · refine iff_of_false (fun hs => ?_) (not_not.mpr ⟨hpos, by omega⟩)
    have humem : a.u.val ∈ a.gamma :=
      (mem_gamma_of_regular ha).mpr (by rw [hw]; exact ⟨⟨by omega, by omega⟩, h2, le_refl _⟩)
    have := hs _ humem
    rw [hy.holds_iff, signedResidue_past_upper maxDigits_pos (by omega) (by omega)] at this
    have := this.2.1
    omega
  · refine iff_of_true (fun x hx => ?_) (by omega)
    obtain ⟨-, hx1, hx2⟩ := (mem_gamma_of_regular ha).mp hx
    rw [hy.holds_iff, signedResidue_of_mem maxDigits_pos (by omega) (by omega)]
    exact ⟨⟨by omega, by omega⟩, by omega, by omega⟩

end Shift

/-! ## The operations at the capacity -/

/-- The move by `δ` of a Regular range `l`, `u` that loses a value. -/
def ShiftLoss (l u δ : Int) : Prop :=
  if l = -half maxDigits then δ < 0 ∧ -half maxDigits ≤ u + δ
  else if u = half maxDigits - 1 then 0 < δ ∧ l + δ < half maxDigits
  else half maxDigits ≤ l + δ ∨ (l = u ∧ u + δ < -half maxDigits)

section Capacity

variable {a b : Range}

theorem addSound_anti_capacity (hw : a.bw = maxDigits) (hbw : b.bw = a.bw) (ha : a.type = .anti)
    (hla : a.InLimits) (hstrict : -half maxDigits < a.l.val ∧ a.u.val < half maxDigits - 1)
    (hb : b.isConstant = true) (hlb : b.InLimits) (hf : ¬ (a.IsFull ∨ b.IsFull)) :
    AddSound a b := by
  have hP := half_pos maxDigits
  by_cases hguard : b.l ≥ Max - a.u
  · exact sound_of_full (by rw [add_of_anti_constant ha hb hf, if_pos hguard])
  have hla' := hla
  obtain ⟨h1, h2, h3⟩ := hla'
  have hbl := hlb.l_mem
  rw [hbw, hw] at hbl
  have hl : (a.l + b.l).val = a.l.val + b.l.val := add_val (by omega) (by omega)
  have hu : (a.u + b.l).val = a.u.val + b.l.val := add_val (by omega) (by omega)
  have hlt : a.u.val + b.l.val < half maxDigits - 1 := by
    by_contra hge
    apply hguard
    rw [ge_iff_le, SignMag.le_iff, sub_val] <;> rw [max_val] <;> omega
  have hsound : AntiSound maxDigits (a.l + b.l) (a.u + b.l) :=
    antiSound_of_le (by omega) (Or.inl (by omega))
  unfold AddSound
  rw [forall_mem_constant hb hlb, add_of_anti_constant ha hb hf, if_neg hguard,
    antiShift_iff ha hla hl hu, hw]
  exact hsound

theorem subSound_anti_capacity (hw : a.bw = maxDigits) (hbw : b.bw = a.bw) (ha : a.type = .anti)
    (hla : a.InLimits) (hstrict : -half maxDigits < a.l.val ∧ a.u.val < half maxDigits - 1)
    (hb : b.isConstant = true) (hlb : b.InLimits) (hf : ¬ (a.IsFull ∨ b.IsFull)) :
    SubSound a b := by
  have hP := half_pos maxDigits
  by_cases hguard : a.l ≤ Min + b.l
  · exact sound_of_full (by rw [sub_of_anti_constant ha hb hf, if_pos hguard])
  have hla' := hla
  obtain ⟨h1, h2, h3⟩ := hla'
  have hbl := hlb.l_mem
  rw [hbw, hw] at hbl
  have hl : (a.l - b.l).val = a.l.val - b.l.val := sub_val (by omega) (by omega)
  have hu : (a.u - b.l).val = a.u.val - b.l.val := sub_val (by omega) (by omega)
  have hgt : -half maxDigits < a.l.val - b.l.val := by
    by_contra hge
    apply hguard
    by_cases hlow : b.l.val = -half maxDigits
    · omega
    · rw [SignMag.le_iff, add_val] <;> rw [min_val] <;> omega
  have hsound : AntiSound a.bw (a.l - b.l) (a.u - b.l) := by
    rw [hw]
    exact antiSound_of_le (by omega) (Or.inr (by omega))
  unfold SubSound
  rw [forall_mem_constant hb hlb, sub_of_anti_constant ha hb hf, if_neg hguard]
  exact (antiShift_iff (δ := -b.l.val) ha hla (by omega) (by omega)).mpr hsound

theorem addSound_constant_capacity_iff (hw : a.bw = maxDigits) (hbw : b.bw = a.bw)
    (ha : a.type = .regular) (hla : a.InLimits) (hb : b.isConstant = true) (hlb : b.InLimits)
    (hf : ¬ (a.IsFull ∨ b.IsFull)) :
    AddSound a b ↔ ¬ ShiftLoss a.l.val a.u.val b.l.val := by
  have hP := half_pos maxDigits
  have hla' := hla
  obtain ⟨h1, h2, h3⟩ := hla'
  have hbl := hlb.l_mem
  rw [hw] at h1 h3
  rw [hbw, hw] at hbl
  have hnf : ¬ (a.l.val ≤ -half maxDigits ∧ half maxDigits - 1 ≤ a.u.val) := fun h =>
    hf (Or.inl ⟨ha, by rw [hw]; exact h.1, by rw [hw]; exact h.2⟩)
  unfold AddSound ShiftLoss
  rw [forall_mem_constant hb hlb, add_of_constant ha hb hf, hw]
  by_cases hl : a.l.val = -half maxDigits
  · rw [if_pos (eq_min_iff.mpr hl), if_pos hl]
    by_cases hboth : a.u.val + b.l.val = -(2 * half maxDigits)
    · -- the one value whose double loses its top bit
      have hzero : (a.u + b.l).val = 0 := by
        rw [SignMag.val_add, hboth, two_mul_half_maxDigits]
        exact SignMag.val_ofInt_neg_two_pow
      refine iff_of_true (fun x hx => ?_) (by omega)
      obtain ⟨-, hx1, hx2⟩ := (mem_gamma_of_regular ha).mp hx
      rw [(ofBounds_regular_inside maxDigits_valid (by omega) (by omega) (by omega)).holds_iff,
        signedResidue_past_lower maxDigits_pos (by omega) (by omega)]
      exact ⟨⟨by omega, by omega⟩, by omega, by omega⟩
    · exact capacityFromMin_iff hw ha hla hl (by omega) (by omega) hl
        (add_val (by omega) (by omega))
  rw [if_neg (mt eq_min_iff.mp hl), if_neg hl]
  have hlb' : (a.l + b.l).val = a.l.val + b.l.val := add_val (by omega) (by omega)
  by_cases hu : a.u.val = half maxDigits - 1
  · rw [if_pos (eq_max_iff.mpr hu), if_pos hu]
    exact capacityToMax_iff hw ha hla (by omega) hu hlb' hu
  · rw [if_neg (mt eq_max_iff.mp hu), if_neg hu]
    exact capacityShift_iff hw ha hla hlb' (add_val (by omega) (by omega))

theorem subSound_constant_capacity_iff (hw : a.bw = maxDigits) (hbw : b.bw = a.bw)
    (ha : a.type = .regular) (hla : a.InLimits) (hb : b.isConstant = true) (hlb : b.InLimits)
    (hf : ¬ (a.IsFull ∨ b.IsFull)) :
    SubSound a b ↔ ¬ ShiftLoss a.l.val a.u.val (-b.l.val) := by
  have hP := half_pos maxDigits
  have hla' := hla
  obtain ⟨h1, h2, h3⟩ := hla'
  have hbl := hlb.l_mem
  rw [hw] at h1 h3
  rw [hbw, hw] at hbl
  have hnf : ¬ (a.l.val ≤ -half maxDigits ∧ half maxDigits - 1 ≤ a.u.val) := fun h =>
    hf (Or.inl ⟨ha, by rw [hw]; exact h.1, by rw [hw]; exact h.2⟩)
  have hlb' : (a.l - b.l).val = a.l.val + -b.l.val := by rw [sub_val] <;> omega
  have hub' : (a.u - b.l).val = a.u.val + -b.l.val := by rw [sub_val] <;> omega
  have hsub : ∀ x : Int, x - b.l.val = x + -b.l.val := fun x => by omega
  unfold SubSound ShiftLoss
  simp only [forall_mem_constant hb hlb, sub_of_constant ha hb hf, hw, hsub]
  by_cases hl : a.l.val = -half maxDigits
  · rw [if_pos (eq_min_iff.mpr hl), if_pos hl]
    by_cases hlow : a.u.val + -b.l.val < -half maxDigits
    · rw [if_pos (by rw [gt_iff_lt, lt_signedMin_iff maxDigits_valid]; omega)]
      exact iff_of_true (fun x _ => holds_full_residue maxDigits_valid _) (by omega)
    · rw [if_neg (by rw [gt_iff_lt, lt_signedMin_iff maxDigits_valid]; omega)]
      exact capacityFromMin_iff hw ha hla hl (by omega) (by omega) hl hub'
  rw [if_neg (mt eq_min_iff.mp hl), if_neg hl]
  by_cases hu : a.u.val = half maxDigits - 1
  · rw [if_pos (eq_max_iff.mpr hu), if_pos hu]
    have hgt : getSignedMaxValue maxDigits < a.l - b.l ↔ half maxDigits ≤ a.l.val + -b.l.val := by
      rw [← hlb']
      exact gt_signedMax_iff maxDigits_valid
    by_cases hhigh : half maxDigits ≤ a.l.val + -b.l.val
    · rw [if_pos (hgt.mpr hhigh)]
      exact iff_of_true (fun x _ => holds_full_residue maxDigits_valid _) (by omega)
    · rw [if_neg (mt hgt.mp hhigh)]
      exact capacityToMax_iff hw ha hla (by omega) hu hlb' hu
  · rw [if_neg (mt eq_max_iff.mp hu), if_neg hu]
    have hfin : subFinite a b.l = ofBounds .regular maxDigits (a.l - b.l) (a.u - b.l) := by
      unfold subFinite
      simp only [hw, extTrunc_maxDigits]
      rw [if_pos (by rw [SignMag.le_iff]; omega)]
    rw [hfin]
    exact capacityShift_iff hw ha hla hlb' hub'

theorem l_mem_gamma (ha : a.type = .regular) (hla : a.InLimits) : a.l.val ∈ a.gamma :=
  (mem_gamma_of_regular ha).mpr ⟨hla.l_mem, le_refl _, hla.2.1⟩

/-- A result above the limits holds no value, so the guard on its span decides
    for all operands at once. -/
theorem guarded_above_iff (hw : a.bw = maxDigits) (ha : a.type = .regular) (hla : a.InLimits)
    (hb : b.type = .regular) (hlb : b.InLimits) (hf : ¬ (a.IsFull ∨ b.IsFull)) (lb ub : APInt)
    (hlo : half maxDigits ≤ lb.val) (hle : lb.val ≤ ub.val) {short : APInt → APInt → Bool}
    {rel : Int → Int → Prop} (hrel : ∀ s t, short s t = true ↔ rel s.val t.val)
    (f : Int → Int → Int) :
    (∀ x ∈ a.gamma, ∀ y ∈ b.gamma, Holds (ofBounds .regular maxDigits lb ub >>=
        guardSpan a b short) maxDigits (signedResidue maxDigits (f x y))) ↔
      rel (1 + ub - lb).val (1 + a.u.val - a.l.val) ∨
        rel (1 + ub - lb).val (1 + b.u.val - b.l.val) := by
  obtain ⟨r, hr, hrw, hrt, hrl, hru⟩ := yields_above hlo hle
  have hP := half_pos maxDigits
  have hrf : ¬ r.IsFull := fun h => by
    have := h.2.1
    rw [hrw] at this
    omega
  have hk := getSpan_of_regular hrt hrf
  rw [if_neg (by rw [eq_max_iff]; omega), if_neg (by rw [eq_min_iff]; omega),
    SignMag.ext hrl, SignMag.ext hru] at hk
  have hiff : ∀ x y, Holds (guardSpan a b short r) maxDigits (signedResidue maxDigits (f x y)) ↔
      rel (1 + ub - lb).val (1 + a.u.val - a.l.val) ∨
        rel (1 + ub - lb).val (1 + b.u.val - b.l.val) := by
    intro x y
    have hv := signedResidue_mem maxDigits_pos (f x y)
    have hlt := hv.2
    rw [holds_guardSpan_iff hw hrel ha hla hb hlb hf hk hv, holds_ok, mem_gamma_of_regular hrt]
    exact or_iff_left (by omega)
  rw [hr]
  exact ⟨fun h => (hiff _ _).mp (h _ (l_mem_gamma ha hla) _ (l_mem_gamma hb hlb)),
    fun h x _ y _ => (hiff x y).mpr h⟩

theorem addSound_regular_capacity_iff (hw : a.bw = maxDigits) (hbw : b.bw = a.bw)
    (ha : a.type = .regular) (hla : a.InLimits) (hb : b.type = .regular) (hlb : b.InLimits)
    (hc : ¬ b.isConstant = true) (hf : ¬ (a.IsFull ∨ b.IsFull)) :
    AddSound a b ↔ ¬ (a.l.val < a.u.val ∧ half maxDigits ≤ a.l.val + b.l.val) := by
  have hP := half_pos maxDigits
  obtain ⟨hfa, hfb⟩ := not_or.mp hf
  have hmem := bounds_of_mem ha hb
  have hne : b.l.val ≠ b.u.val := fun h => hc (isConstant_iff.mpr ⟨hb, SignMag.ext h⟩)
  have hnf : ¬ (a.l.val ≤ -half maxDigits ∧ half maxDigits - 1 ≤ a.u.val) := fun h =>
    hfa ⟨ha, by rw [hw]; exact h.1, by rw [hw]; exact h.2⟩
  have hnf' : ¬ (b.l.val ≤ -half maxDigits ∧ half maxDigits - 1 ≤ b.u.val) := fun h =>
    hfb ⟨hb, by rw [hbw, hw]; exact h.1, by rw [hbw, hw]; exact h.2⟩
  have ⟨ha1, ha2, ha3⟩ := hla
  have ⟨hb1, hb2, hb3⟩ := hlb
  rw [hw] at ha1 ha3
  rw [hbw, hw] at hb1 hb3
  have hu : (a.u + b.u).val = a.u.val + b.u.val := add_val (by omega) (by omega)
  unfold AddSound
  rw [add_of_regular ha hb hc hf, hw]
  by_cases hboth : a.l.val + b.l.val = -(2 * half maxDigits)
  · -- the lower bound loses its top bit and becomes zero
    have hzero : (a.l + b.l).val = 0 := by
      rw [SignMag.val_add, hboth, two_mul_half_maxDigits]
      exact SignMag.val_ofInt_neg_two_pow
    refine iff_of_true (fun x hx y hy => ?_) (by omega)
    obtain ⟨hx1, hx2, hy1, hy2⟩ := hmem x hx y hy
    by_cases hneg : a.u.val + b.u.val < 0
    · refine holds_guardSpan hw (signedResidue_mem maxDigits_pos _) ?_
      refine holds_zero_crossed hzero (by omega) (signedResidue_mem maxDigits_pos _) ?_
      by_cases hlow : x + y < -half maxDigits
      · rw [signedResidue_past_lower maxDigits_pos hlow (by omega)]
        omega
      · rw [signedResidue_of_mem maxDigits_pos (by omega) (by omega)]
        omega
    by_cases hin : a.u.val + b.u.val < half maxDigits
    · -- the span guard sees a range no longer than the operands
      have hy : Yields (ofBounds .regular maxDigits (a.l + b.l) (a.u + b.u)) maxDigits .regular
          _ _ := ofBounds_regular_inside maxDigits_valid (by omega) (by omega) (by omega)
      obtain ⟨r, k, hr, hrw, hrt, hrl, hru, hk, hkv⟩ :=
        hy.span (by omega) (by omega) (by omega) (by omega)
      rw [hr, ok_bind, holds_guardSpan_iff hw decide_le_iff ha hla hb hlb hf hk
        (signedResidue_mem maxDigits_pos _)]
      exact Or.inl (Or.inl (by omega))
    · refine holds_guardSpan hw (signedResidue_mem maxDigits_pos _) ?_
      exact holds_of_all (yields_all_of_out (by omega) (by omega) (by omega) (by omega)) _
  have hl : (a.l + b.l).val = a.l.val + b.l.val := add_val (by omega) (by omega)
  by_cases habove : half maxDigits ≤ a.l.val + b.l.val
  · have hone : (1 + (a.u + b.u)).val = 1 + (a.u + b.u).val := by
      rw [add_val] <;> rw [one_val] <;> omega
    have hkv : (1 + (a.u + b.u) - (a.l + b.l)).val = 1 + (a.u + b.u).val - (a.l + b.l).val := by
      rw [sub_val] <;> omega
    rw [guarded_above_iff hw ha hla hb hlb hf _ _ (by omega) (by omega) decide_le_iff]
    omega
  · refine iff_of_true (fun x hx y hy => ?_) (by omega)
    obtain ⟨hx1, hx2, hy1, hy2⟩ := hmem x hx y hy
    refine holds_guardSpan hw (signedResidue_mem maxDigits_pos _) ?_
    exact holds_regular_maxDigits (by omega) (by omega) (by omega) (by omega) (by omega)

theorem subSound_regular_capacity_iff (hw : a.bw = maxDigits) (hbw : b.bw = a.bw)
    (ha : a.type = .regular) (hla : a.InLimits) (hb : b.type = .regular) (hlb : b.InLimits)
    (hc : ¬ b.isConstant = true) (hf : ¬ (a.IsFull ∨ b.IsFull)) :
    SubSound a b ↔ ¬ (half maxDigits ≤ a.l.val - b.u.val ∧
      ¬ (a.u.val = half maxDigits - 1 ∧ b.l.val = -half maxDigits)) := by
  have hP := half_pos maxDigits
  have h2 := two_le_half_maxDigits
  have hmem := bounds_of_mem ha hb
  have hne : b.l.val ≠ b.u.val := fun h => hc (isConstant_iff.mpr ⟨hb, SignMag.ext h⟩)
  have ⟨ha1, ha2, ha3⟩ := hla
  have ⟨hb1, hb2, hb3⟩ := hlb
  rw [hw] at ha1 ha3
  rw [hbw, hw] at hb1 hb3
  have hl : (a.l - b.u).val = a.l.val - b.u.val := sub_val (by omega) (by omega)
  have hu : (a.u - b.l).val = a.u.val - b.l.val := sub_val (by omega) (by omega)
  unfold SubSound
  rw [sub_of_regular ha hb hc hf, hw]
  by_cases habove : half maxDigits ≤ a.l.val - b.u.val
  · rw [guarded_above_iff hw ha hla hb hlb hf _ _ (by omega) (by omega) decide_lt_iff]
    by_cases hcorner : a.u.val = half maxDigits - 1 ∧ b.l.val = -half maxDigits
    · -- one plus the upper bound loses its top bit, so the span is negative
      have hone : (1 + (a.u - b.l)).val = 0 := by
        rw [SignMag.val_add, one_val, show (1 : Int) + (a.u - b.l).val = 2 ^ maxDigits by
          rw [← two_mul_half_maxDigits]; omega]
        exact SignMag.val_ofInt_two_pow
      have hkv : (1 + (a.u - b.l) - (a.l - b.u)).val = -(a.l - b.u).val := by
        rw [sub_val] <;> omega
      omega
    · have hone : (1 + (a.u - b.l)).val = 1 + (a.u - b.l).val := by
        rw [add_val] <;> rw [one_val] <;> omega
      have hkv : (1 + (a.u - b.l) - (a.l - b.u)).val =
          1 + (a.u - b.l).val - (a.l - b.u).val := by rw [sub_val] <;> omega
      omega
  · refine iff_of_true (fun x hx y hy => ?_) (by omega)
    obtain ⟨hx1, hx2, hy1, hy2⟩ := hmem x hx y hy
    refine holds_guardSpan hw (signedResidue_mem maxDigits_pos _) ?_
    exact holds_regular_maxDigits (by omega) (by omega) (by omega) (by omega) (by omega)

end Capacity

end Range
end Bambu
