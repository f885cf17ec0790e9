/-
  Bambu.Utility.Range.Constructor

  Soundness and shape of the constructor `Range(rType, bw, lb, ub)`.

  `constructor_sound_iff` says for which finite bounds the range built keeps
  every residue it should: all but two families of Regular bounds and two of
  Anti bounds, where `normalizeRange` stores the truncations of two bounds that
  lie on one side of the limits without looking at how they wrapped.
  `constructor_wellFormed_iff` says for which bounds the range built is well
  formed.
-/

import Bambu.Utility.Range.Normalize

namespace Bambu
namespace Range

open Bambu.Math APInt

/-! ## Soundness -/

/-- Every value congruent to an integer between the bounds is kept. -/
def RegularSound (w : Nat) (lb ub : APInt) : Prop :=
  ∀ v ∈ signedRange w, (∃ k ∈ Set.Icc lb.val ub.val, v ≡ k [ZMOD 2 ^ w]) →
    Holds (ofBounds .regular w lb ub) w v

/-- Every value congruent to no integer between the bounds is kept. -/
def AntiSound (w : Nat) (lb ub : APInt) : Prop :=
  ∀ v ∈ signedRange w, (¬ ∃ k ∈ Set.Icc lb.val ub.val, v ≡ k [ZMOD 2 ^ w]) →
    Holds (ofBounds .anti w lb ub) w v

/-- The residues `a` and `b` are not the two limits of the width. -/
def NotLimits (w : Nat) (a b : Int) : Prop := ¬ (a = -half w ∧ b = half w - 1)

/-- Regular bounds on one side of the limits whose truncations leave residues out:
    above, an interval of a turn or more whose truncations come in order; below,
    two bounds whose truncations come in reverse order. -/
def RegularLoss (w : Nat) (lb ub : Int) : Prop :=
  (half w ≤ lb ∧ 2 * half w ≤ ub - lb ∧ signedResidue w lb ≤ signedResidue w ub ∧
    NotLimits w (signedResidue w lb) (signedResidue w ub)) ∨
  (ub < -half w ∧ lb < ub ∧ signedResidue w ub ≤ signedResidue w lb ∧
    NotLimits w (signedResidue w ub) (signedResidue w lb))

/-- Anti bounds on one side of the limits, excluding less than a turn: above,
    when their truncations cross; below, always. -/
def AntiLoss (w : Nat) (lb ub : Int) : Prop :=
  ub - lb < 2 * half w - 1 ∧
    ((half w ≤ lb ∧ signedResidue w ub < signedResidue w lb) ∨ (ub < -half w ∧ lb < ub))

section Sound

variable {w : Nat} {t : RangeType} {lb ub : APInt} {a b : Int}

theorem regularSound_iff (h0 : 0 < w) (h : Yields (ofBounds .regular w lb ub) w t a b) :
    RegularSound w lb ub ↔
      ∀ v ∈ signedResidue w '' Set.Icc lb.val ub.val, TypeMem t a b v := by
  constructor
  · intro hs v hv
    rw [mem_image_Icc_iff h0] at hv
    exact (h.holds_iff.mp (hs v hv.1 hv.2)).2
  · intro hs v hv hk
    exact h.holds_iff.mpr ⟨hv, hs v ((mem_image_Icc_iff h0).mpr ⟨hv, hk⟩)⟩

theorem antiSound_iff (h0 : 0 < w) (h : Yields (ofBounds .anti w lb ub) w t a b) :
    AntiSound w lb ub ↔
      ∀ v ∈ signedRange w, v ∉ signedResidue w '' Set.Icc lb.val ub.val → TypeMem t a b v := by
  constructor
  · intro hs v hv hk
    rw [mem_image_Icc_iff h0] at hk
    exact (h.holds_iff.mp (hs v hv (fun hc => hk ⟨hv, hc⟩))).2
  · intro hs v hv hk
    refine h.holds_iff.mpr ⟨hv, hs v hv ?_⟩
    rw [mem_image_Icc_iff h0]
    exact fun hc => hk hc.2

/-- A range of all the values loses nothing. -/
theorem typeMem_full {v : Int} (hw : w ≤ maxDigits) (hv : v ∈ signedRange w) :
    TypeMem .regular (-half maxDigits) (half maxDigits - 1) v := by
  have hP := half_le_half hw
  obtain ⟨hlo, hhi⟩ := hv
  exact ⟨by omega, by omega⟩

/-! ### Regular bounds -/

theorem regularSound_of_full (h0 : 0 < w) (hw : w ≤ maxDigits)
    (h : Yields (ofBounds .regular w lb ub) w .regular (-half maxDigits) (half maxDigits - 1)) :
    RegularSound w lb ub := by
  rw [regularSound_iff h0 h]
  rintro v ⟨k, -, rfl⟩
  exact typeMem_full hw (signedResidue_mem h0 k)

theorem regularSound_above (h0 : 0 < w) (hw : w < maxDigits) (hlo : half w ≤ lb.val)
    (hle : lb.val ≤ ub.val) (hmax : ub.val < half maxDigits - 1) :
    RegularSound w lb ub ↔ ¬ RegularLoss w lb.val ub.val := by
  have hP := half_pos w
  have hcap := half_le_half hw.le
  have hbody := normalizeRegular_above h0 hw hlo hle
  by_cases hcross : signedResidue w ub.val < signedResidue w lb.val
  · refine iff_of_true (regularSound_of_full h0 hw.le (yields_regular ⟨h0, hw.le⟩ (by omega) hle
      hmax (hbody.repair_crossed hcross))) ?_
    rintro (⟨-, -, h, -⟩ | ⟨h, -⟩) <;> omega
  have hord : signedResidue w lb.val ≤ signedResidue w ub.val := by omega
  rw [regularSound_iff h0 (yields_regular ⟨h0, hw.le⟩ (by omega) hle hmax (hbody.repair hord))]
  by_cases hlen : ub.val - lb.val < 2 * half w
  · rw [image_Icc_of_le h0 hle hlen hord]
    refine iff_of_true (fun v hv => hv) ?_
    rintro (⟨-, h, -⟩ | ⟨h, -⟩) <;> omega
  · rw [image_Icc_of_long h0 (by omega)]
    have hlb := neg_half_le_signedResidue h0 lb.val
    have hub := signedResidue_lt_half h0 ub.val
    constructor
    · intro hs
      have h1 := hs (-half w) ⟨by omega, by omega⟩
      have h2 := hs (half w - 1) ⟨by omega, by omega⟩
      rintro (⟨-, -, -, h⟩ | ⟨h, -⟩)
      · exact h ⟨le_antisymm h1.1 hlb, le_antisymm (by omega) h2.2⟩
      · omega
    · intro hnl v ⟨hv1, hv2⟩
      have hlim : ¬ NotLimits w (signedResidue w lb.val) (signedResidue w ub.val) :=
        fun h => hnl (Or.inl ⟨hlo, by omega, hord, h⟩)
      obtain ⟨h1, h2⟩ := not_not.mp hlim
      exact ⟨by omega, by omega⟩

theorem regularSound_below (h0 : 0 < w) (hw : w < maxDigits) (hmin : -half maxDigits < lb.val)
    (hle : lb.val ≤ ub.val) (hhi : ub.val < -half w) :
    RegularSound w lb ub ↔ ¬ RegularLoss w lb.val ub.val := by
  have hP := half_pos w
  have hcap := half_le_half hw.le
  have hbody := normalizeRegular_below h0 hw hle hhi
  by_cases hcross : signedResidue w lb.val < signedResidue w ub.val
  · refine iff_of_true (regularSound_of_full h0 hw.le (yields_regular ⟨h0, hw.le⟩ hmin hle
      (by omega) (hbody.repair_crossed hcross))) ?_
    rintro (⟨h, -⟩ | ⟨-, -, h, -⟩) <;> omega
  have hord : signedResidue w ub.val ≤ signedResidue w lb.val := by omega
  have hub := neg_half_le_signedResidue h0 ub.val
  have hlb := signedResidue_lt_half h0 lb.val
  rw [regularSound_iff h0 (yields_regular ⟨h0, hw.le⟩ hmin hle (by omega) (hbody.repair hord))]
  by_cases heq : lb.val = ub.val
  · refine iff_of_true ?_ ?_
    · rintro v ⟨k, ⟨h1, h2⟩, rfl⟩
      rw [show k = lb.val by omega]
      exact ⟨hord, le_refl _⟩
    · rintro (⟨h, -⟩ | ⟨-, h, -⟩) <;> omega
  -- both signed limits are residues of the interval here
  have hends : -half w ∈ signedResidue w '' Set.Icc lb.val ub.val ∧
      half w - 1 ∈ signedResidue w '' Set.Icc lb.val ub.val := by
    by_cases hlen : ub.val - lb.val < 2 * half w
    · have hne := signedResidue_of_le_of_lt h0 hle hlen
      rw [image_Icc_of_gt h0 hle hlen (by omega)]
      exact ⟨⟨⟨by omega, by omega⟩, by omega⟩, ⟨⟨by omega, by omega⟩, by omega⟩⟩
    · rw [image_Icc_of_long h0 (by omega)]
      exact ⟨⟨by omega, by omega⟩, ⟨by omega, by omega⟩⟩
  constructor
  · intro hs
    have h1 := hs _ hends.1
    have h2 := hs _ hends.2
    rintro (⟨h, -⟩ | ⟨-, -, -, h⟩)
    · omega
    · exact h ⟨le_antisymm h1.1 hub, le_antisymm (by omega) h2.2⟩
  · rintro hnl v ⟨k, -, rfl⟩
    have hlim : ¬ NotLimits w (signedResidue w ub.val) (signedResidue w lb.val) :=
      fun h => hnl (Or.inr ⟨hhi, by omega, hord, h⟩)
    obtain ⟨h1, h2⟩ := not_not.mp hlim
    have hk := signedResidue_mem h0 k
    exact ⟨h1 ▸ hk.1, by have := hk.2; omega⟩

/-- An interval that meets the limits of the width keeps all its residues. -/
theorem regularSound_of_meets (h0 : 0 < w) (hw : w < maxDigits) (hmin : -half maxDigits < lb.val)
    (hle : lb.val ≤ ub.val) (hmax : ub.val < half maxDigits - 1) (hlb : lb.val < half w)
    (hub : -half w ≤ ub.val) : RegularSound w lb ub := by
  have hw' : 0 < w ∧ w ≤ maxDigits := ⟨h0, hw.le⟩
  have hP := half_pos w
  by_cases hlo : -half w ≤ lb.val
  · by_cases hhi : ub.val < half w
    · -- inside
      rw [regularSound_iff h0 (ofBounds_regular_inside hw' hlo hle hhi)]
      rintro v ⟨k, ⟨h1, h2⟩, rfl⟩
      rw [signedResidue_of_mem h0 (by omega) (by omega)]
      exact ⟨h1, h2⟩
    by_cases hlen : ub.val - lb.val < 2 * half w - 1
    · -- past the upper limit
      rw [regularSound_iff h0 (yields_regular hw' hmin hle hmax
        ((normalizeRegular_past_upper h0 hw hlo hlb (by omega) hlen).repair (by omega)))]
      rintro v ⟨k, ⟨h1, h2⟩, rfl⟩
      show _ ∨ _
      by_cases hk : k < half w
      · rw [signedResidue_of_mem h0 (by omega) hk]
        omega
      · rw [signedResidue_past_upper h0 (by omega) (by omega)]
        omega
    · exact regularSound_of_full h0 hw.le (yields_regular hw' hmin hle hmax
        ((normalizeRegular_past_upper_long h0 hw hlo hlb (by omega) (by omega)
          (by omega)).repair_crossed (by omega)))
  by_cases hhi : ub.val < half w
  · by_cases hlen : ub.val - lb.val < 2 * half w - 1
    · -- past the lower limit
      rw [regularSound_iff h0 (yields_regular hw' hmin hle hmax
        ((normalizeRegular_past_lower h0 hw (by omega) hub hhi hlen).repair (by omega)))]
      rintro v ⟨k, ⟨h1, h2⟩, rfl⟩
      show _ ∨ _
      by_cases hk : -half w ≤ k
      · rw [signedResidue_of_mem h0 hk (by omega)]
        omega
      · rw [signedResidue_past_lower h0 (by omega) (by omega)]
        omega
    · exact regularSound_of_full h0 hw.le (yields_regular hw' hmin hle hmax
        ((normalizeRegular_past_lower_long h0 hw (by omega) hub hhi (by omega)
          (by omega)).repair_crossed (by omega)))
  · -- across both limits
    exact regularSound_of_full h0 hw.le (yields_regular hw' hmin hle hmax
      ((normalizeRegular_across hw' (by omega) (by omega)).repair_crossed (by omega)))

/-! ### Anti bounds -/

theorem antiSound_of_full (h0 : 0 < w) (h : Yields (ofBounds .anti w lb ub) w .regular
    (-half w) (half w - 1)) : AntiSound w lb ub := by
  rw [antiSound_iff h0 h]
  exact fun v hv _ => ⟨hv.1, by have := hv.2; omega⟩

theorem antiSound_above (h0 : 0 < w) (hw : w < maxDigits) (hlo : half w ≤ lb.val)
    (hle : lb.val ≤ ub.val) (hmax : ub.val < half maxDigits - 1) :
    AntiSound w lb ub ↔ ¬ AntiLoss w lb.val ub.val := by
  have hw' : 0 < w ∧ w ≤ maxDigits := ⟨h0, hw.le⟩
  have hP := half_pos w
  have hcap := half_le_half hw.le
  by_cases hlen : ub.val - lb.val < 2 * half w - 1
  · have hbody := normalizeAnti_above h0 hw hlo hle hlen
    have hne := signedResidue_of_le_of_lt h0 hle (by omega)
    have hb := signedResidue_mem h0 ub.val
    have ha := signedResidue_mem h0 lb.val
    obtain ⟨hb1, hb2⟩ := hb
    obtain ⟨ha1, ha2⟩ := ha
    by_cases hord : signedResidue w lb.val ≤ signedResidue w ub.val
    · rw [antiSound_iff h0 (yields_anti hw' (by omega) hle hmax (hbody.repair hord)),
        image_Icc_of_le h0 hle (by omega) hord]
      refine iff_of_true (fun v hv hk => ?_) ?_
      · show _ ∨ _
        rw [Set.mem_Icc] at hk
        omega
      · rintro ⟨-, ⟨-, h⟩ | ⟨h, -⟩⟩ <;> omega
    · rw [antiSound_iff h0 (yields_anti hw' (by omega) hle hmax
        (hbody.repair_crossed (by omega))), image_Icc_of_gt h0 hle (by omega) (by omega)]
      -- a value strictly between the residues is congruent to no excluded integer
      refine iff_of_false (fun hs => ?_) (not_not.mpr ⟨hlen, Or.inl ⟨hlo, by omega⟩⟩)
      rcases hs (signedResidue w ub.val + 1) ⟨by omega, by omega⟩ (fun h => by
        rcases h.2 with h | h <;> omega) with h | h <;> omega
  · refine iff_of_true (antiSound_of_full h0 (yields_anti hw' (by omega) hle hmax
      ((normalizeAnti_above_long h0 hw hlo hle (by omega)).repair (by omega)))) ?_
    rintro ⟨h, -⟩
    omega

theorem antiSound_below (h0 : 0 < w) (hw : w < maxDigits) (hmin : -half maxDigits < lb.val)
    (hle : lb.val ≤ ub.val) (hhi : ub.val < -half w) :
    AntiSound w lb ub ↔ ¬ AntiLoss w lb.val ub.val := by
  have hw' : 0 < w ∧ w ≤ maxDigits := ⟨h0, hw.le⟩
  have hP := half_pos w
  have hcap := half_le_half hw.le
  by_cases hlen : ub.val - lb.val < 2 * half w - 1
  · have hbody := normalizeAnti_below h0 hw hle hhi hlen
    have hne := signedResidue_of_le_of_lt h0 hle (by omega)
    obtain ⟨hb1, hb2⟩ := signedResidue_mem h0 ub.val
    obtain ⟨ha1, ha2⟩ := signedResidue_mem h0 lb.val
    by_cases hcross : signedResidue w lb.val < signedResidue w ub.val
    · rw [antiSound_iff h0 (yields_anti hw' hmin hle (by omega) (hbody.repair_crossed hcross)),
        image_Icc_of_le h0 hle (by omega) hcross.le]
      refine iff_of_false (fun hs => ?_) (not_not.mpr ⟨hlen, Or.inr ⟨hhi, by omega⟩⟩)
      by_cases hlow : -half w < signedResidue w lb.val
      · rcases hs (-half w) ⟨by omega, by omega⟩ (fun h => by have := h.1; omega) with h | h <;>
          omega
      · rcases hs (half w - 1) ⟨by omega, by omega⟩ (fun h => by have := h.2; omega) with h | h <;>
          omega
    · rw [antiSound_iff h0 (yields_anti hw' hmin hle (by omega) (hbody.repair (by omega)))]
      by_cases heq : lb.val = ub.val
      · refine iff_of_true (fun v hv hk => ?_) ?_
        · show _ ∨ _
          have hv' : v ≠ signedResidue w lb.val :=
            fun hc => hk ⟨lb.val, ⟨le_refl _, hle⟩, hc.symm⟩
          rw [← heq]
          omega
        · rintro ⟨-, ⟨h, -⟩ | ⟨-, h⟩⟩ <;> omega
      · rw [image_Icc_of_gt h0 hle (by omega) (by omega)]
        refine iff_of_false (fun hs => ?_) (not_not.mpr ⟨hlen, Or.inr ⟨hhi, by omega⟩⟩)
        rcases hs (signedResidue w ub.val + 1) ⟨by omega, by omega⟩ (fun h => by
          rcases h.2 with h | h <;> omega) with h | h <;> omega
  · refine iff_of_true (antiSound_of_full h0 (yields_anti hw' hmin hle (by omega)
      ((normalizeAnti_below_long h0 hw hle hhi (by omega)).repair (by omega)))) ?_
    rintro ⟨h, -⟩
    omega

/-- An excluded interval that meets the limits of the width loses nothing. -/
theorem antiSound_of_meets (h0 : 0 < w) (hw : w < maxDigits) (hmin : -half maxDigits < lb.val)
    (hle : lb.val ≤ ub.val) (hmax : ub.val < half maxDigits - 1) (hlb : lb.val < half w)
    (hub : -half w ≤ ub.val) : AntiSound w lb ub := by
  have hw' : 0 < w ∧ w ≤ maxDigits := ⟨h0, hw.le⟩
  have hP := half_pos w
  by_cases hlo : -half w ≤ lb.val
  · by_cases hhi : ub.val < half w
    · -- inside
      rw [antiSound_iff h0 (yields_anti hw' hmin hle hmax
        ((normalizeAnti_inside hw' hlo hle hhi).repair hle))]
      intro v hv hk
      show _ ∨ _
      have hv' : ¬ (lb.val ≤ v ∧ v ≤ ub.val) :=
        fun h => hk ⟨v, h, signedResidue_of_mem h0 (by omega) (by omega)⟩
      omega
    by_cases hlen : ub.val - lb.val < 2 * half w - 1
    · -- past the upper limit
      have hy : Yields (ofBounds .anti w lb ub) w _ _ _ := yields_anti hw' hmin hle hmax
        ((normalizeAnti_past_upper h0 hw hlo hlb (by omega) hlen).repair (by omega))
      rw [antiSound_iff h0 hy]
      intro v ⟨hv1, hv2⟩ hk
      have hin : ¬ lb.val ≤ v :=
        fun h => hk ⟨v, ⟨h, by omega⟩, signedResidue_of_mem h0 (by omega) hv2⟩
      have hpast : ¬ v ≤ ub.val - 2 * half w := fun h => hk ⟨v + 2 * half w, ⟨by omega, by omega⟩,
        by rw [signedResidue_add_turn h0, signedResidue_of_mem h0 hv1 hv2]⟩
      exact ⟨by omega, by omega⟩
    · exact antiSound_of_full h0 (yields_anti hw' hmin hle hmax
        ((normalizeAnti_past_upper_long h0 hw hlo hlb (by omega) (by omega)
          (by omega)).repair (by omega)))
  by_cases hhi : ub.val < half w
  · by_cases hlen : ub.val - lb.val < 2 * half w - 1
    · -- past the lower limit
      have hy : Yields (ofBounds .anti w lb ub) w _ _ _ := yields_anti hw' hmin hle hmax
        ((normalizeAnti_past_lower h0 hw (by omega) hub hhi hlen).repair (by omega))
      rw [antiSound_iff h0 hy]
      intro v ⟨hv1, hv2⟩ hk
      have hin : ¬ v ≤ ub.val :=
        fun h => hk ⟨v, ⟨by omega, h⟩, signedResidue_of_mem h0 hv1 (by omega)⟩
      have hpast : ¬ lb.val + 2 * half w ≤ v := fun h => hk ⟨v - 2 * half w, ⟨by omega, by omega⟩,
        by rw [signedResidue_sub_turn h0, signedResidue_of_mem h0 hv1 hv2]⟩
      exact ⟨by omega, by omega⟩
    · exact antiSound_of_full h0 (yields_anti hw' hmin hle hmax
        ((normalizeAnti_past_lower_long h0 hw (by omega) hub hhi (by omega)
          (by omega)).repair (by omega)))
  · -- across both limits nothing is left to keep
    intro v hv hk
    have hv' : v ∈ signedResidue w '' Set.Icc lb.val ub.val := by
      rw [image_Icc_of_long h0 (by omega)]
      exact hv
    exact absurd ((mem_image_Icc_iff h0).mp hv').2 hk

/-! ### Both -/

theorem not_regularLoss_of_meets {lb ub : Int} (hlb : lb < half w) (hub : -half w ≤ ub) :
    ¬ RegularLoss w lb ub := by
  rintro (⟨h, -⟩ | ⟨h, -⟩) <;> omega

theorem not_antiLoss_of_meets {lb ub : Int} (hlb : lb < half w) (hub : -half w ≤ ub) :
    ¬ AntiLoss w lb ub := by
  rintro ⟨-, ⟨h, -⟩ | ⟨h, -⟩⟩ <;> omega

/-- Bounds less than a turn away from the limits. -/
theorem not_regularLoss_of_near (h0 : 0 < w) {lb ub : Int} (hlo : -(2 * half w) ≤ lb)
    (hhi : ub < 2 * half w) : ¬ RegularLoss w lb ub := by
  have hP := half_pos w
  rintro (⟨h, h', -⟩ | ⟨h, hlt, hord, -⟩)
  · omega
  · rw [signedResidue_past_lower h0 h (by omega),
      signedResidue_past_lower h0 (by omega) (by omega)] at hord
    omega

theorem antiLoss_iff_of_near (h0 : 0 < w) {lb ub : Int} (hlo : -(2 * half w) ≤ lb)
    (hle : lb ≤ ub) (hhi : ub < 2 * half w) :
    AntiLoss w lb ub ↔ ub < -half w ∧ lb < ub := by
  have hP := half_pos w
  constructor
  · rintro ⟨-, ⟨h, hcross⟩ | h⟩
    · rw [signedResidue_past_upper h0 h (by omega),
        signedResidue_past_upper h0 (by omega) (by omega)] at hcross
      omega
    · exact h
  · exact fun h => ⟨by omega, Or.inr h⟩

/-- A sound Regular range holds the residue of every integer between its bounds. -/
theorem RegularSound.holds (h0 : 0 < w) (h : RegularSound w lb ub) {k : Int} (hlo : lb.val ≤ k)
    (hhi : k ≤ ub.val) : Holds (ofBounds .regular w lb ub) w (signedResidue w k) :=
  h _ (signedResidue_mem h0 k) ⟨k, ⟨hlo, hhi⟩, signedResidue_modEq w k⟩

theorem regularSound_maxDigits (hmin : -half maxDigits < lb.val) (hle : lb.val ≤ ub.val)
    (hmax : ub.val < half maxDigits - 1) : RegularSound maxDigits lb ub := by
  rw [regularSound_iff maxDigits_pos (ofBounds_regular_inside ⟨maxDigits_pos, le_refl _⟩
    hmin.le hle (by omega))]
  rintro v ⟨k, ⟨h1, h2⟩, rfl⟩
  rw [signedResidue_of_mem maxDigits_pos (by omega) (by omega)]
  exact ⟨h1, h2⟩

theorem antiSound_maxDigits (hmin : -half maxDigits < lb.val) (hle : lb.val ≤ ub.val)
    (hmax : ub.val < half maxDigits - 1) : AntiSound maxDigits lb ub := by
  have hw : 0 < maxDigits ∧ maxDigits ≤ maxDigits := ⟨maxDigits_pos, le_refl _⟩
  rw [antiSound_iff maxDigits_pos (yields_anti hw hmin hle hmax
    ((normalizeAnti_inside hw hmin.le hle (by omega)).repair hle))]
  intro v hv hk
  show _ ∨ _
  have hv' : ¬ (lb.val ≤ v ∧ v ≤ ub.val) := fun h =>
    hk ⟨v, h, signedResidue_of_mem maxDigits_pos (by omega) (by omega)⟩
  omega

theorem regularSound_iff_not_loss (h0 : 0 < w) (hw : w ≤ maxDigits)
    (hmin : -half maxDigits < lb.val) (hle : lb.val ≤ ub.val) (hmax : ub.val < half maxDigits - 1) :
    RegularSound w lb ub ↔ ¬ RegularLoss w lb.val ub.val := by
  rcases Nat.lt_or_eq_of_le hw with hlt | rfl
  · by_cases hlo : half w ≤ lb.val
    · exact regularSound_above h0 hlt hlo hle hmax
    by_cases hhi : ub.val < -half w
    · exact regularSound_below h0 hlt hmin hle hhi
    · exact iff_of_true (regularSound_of_meets h0 hlt hmin hle hmax (by omega) (by omega))
        (not_regularLoss_of_meets (by omega) (by omega))
  · exact iff_of_true (regularSound_maxDigits hmin hle hmax)
      (not_regularLoss_of_meets (by omega) (by omega))

theorem antiSound_iff_not_loss (h0 : 0 < w) (hw : w ≤ maxDigits)
    (hmin : -half maxDigits < lb.val) (hle : lb.val ≤ ub.val) (hmax : ub.val < half maxDigits - 1) :
    AntiSound w lb ub ↔ ¬ AntiLoss w lb.val ub.val := by
  rcases Nat.lt_or_eq_of_le hw with hlt | rfl
  · by_cases hlo : half w ≤ lb.val
    · exact antiSound_above h0 hlt hlo hle hmax
    by_cases hhi : ub.val < -half w
    · exact antiSound_below h0 hlt hmin hle hhi
    · exact iff_of_true (antiSound_of_meets h0 hlt hmin hle hmax (by omega) (by omega))
        (not_antiLoss_of_meets (by omega) (by omega))
  · exact iff_of_true (antiSound_maxDigits hmin hle hmax)
      (not_antiLoss_of_meets (by omega) (by omega))

/-- The finite bounds for which the constructor keeps every value it should. -/
theorem constructor_sound_iff (w : Nat) (h0 : 0 < w) (hw : w ≤ maxDigits) (lb ub : APInt)
    (hmin : Min < lb) (hle : lb ≤ ub) (hmax : ub < Max) :
    (RegularSound w lb ub ↔ ¬ RegularLoss w lb.val ub.val) ∧
      (AntiSound w lb ub ↔ ¬ AntiLoss w lb.val ub.val) := by
  rw [SignMag.lt_iff, min_val] at hmin
  rw [SignMag.lt_iff, max_val] at hmax
  exact ⟨regularSound_iff_not_loss h0 hw hmin hle hmax, antiSound_iff_not_loss h0 hw hmin hle hmax⟩

/-- Two bounds below the limits of eight bits, whose anti range should hold zero. -/
def boundsBelow : {p : APInt × APInt // Min < p.1 ∧ p.1 ≤ p.2 ∧ p.2 < Max ∧ p.1.val = -200 ∧
    p.2.val = -190 ∧ ¬ Holds (ofBounds .anti 8 p.1 p.2) 8 0} :=
  ⟨(-200, -190), by decide +kernel⟩

theorem constructor_sound_iff_at_eight :
    (RegularSound 8 (-200) (-190) ↔ ¬ RegularLoss 8 (-200 : APInt).val (-190 : APInt).val) ∧
      (AntiSound 8 (-200) (-190) ↔ ¬ AntiLoss 8 (-200 : APInt).val (-190 : APInt).val) :=
  constructor_sound_iff 8 (by decide) (by decide) (-200) (-190) boundsBelow.property.1
    boundsBelow.property.2.1 boundsBelow.property.2.2.1

/-- Eleven excluded integers below the limits of eight bits come back as the
    Anti range that excludes everything: zero is lost. -/
theorem constructor_not_sound :
    ¬ ∀ (w : Nat) (lb ub : APInt), 0 < w → w ≤ maxDigits → Min < lb → lb ≤ ub → ub < Max →
      RegularSound w lb ub ∧ AntiSound w lb ub := by
  intro h
  obtain ⟨hmin, hle, hmax, hl, hu, hlost⟩ := boundsBelow.property
  obtain ⟨-, hs⟩ := h 8 _ _ (by decide) (by decide) hmin hle hmax
  refine hlost (hs 0 ⟨by decide, by decide⟩ ?_)
  rintro ⟨k, ⟨h1, h2⟩, hk⟩
  rw [hl] at h1
  rw [hu] at h2
  unfold Int.ModEq at hk
  omega

end Sound

end Range
end Bambu
