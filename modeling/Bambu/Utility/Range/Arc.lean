/-
  Bambu.Utility.Range.Arc

  What the constructor returns for bounds less than a turn away from the limits
  of the width: the residues of the integers between the bounds, with a span to
  match, or for Anti bounds the residues of none of them.

  The operations that saturate compare spans, so they need the exact values and
  the exact span of a result; two bounds below the limits are left out, the
  constructor swaps those.
-/

import Bambu.Utility.Range.Lattice

namespace Bambu
namespace Range

open Bambu.Math APInt

/-- The signed value `v` is the residue of an integer from `p` to `q`, for `p`
    and `q` less than a turn away from the limits. -/
def OnArc (w : Nat) (p q v : Int) : Prop :=
  (p ≤ v ∧ v ≤ q) ∨ (p ≤ v + 2 * half w ∧ v + 2 * half w ≤ q) ∨
    (p ≤ v - 2 * half w ∧ v - 2 * half w ≤ q)

instance (w : Nat) (p q v : Int) : Decidable (OnArc w p q v) := inferInstanceAs (Decidable (_ ∨ _))

/-- `x` returns the residues from `p` to `q` and a span that counts them. -/
def ReturnsArc (x : Except Error Range) (w : Nat) (p q : Int) : Prop :=
  ∃ r s, x = .ok r ∧ r.bw = w ∧ (∀ v, v ∈ r.gamma ↔ v ∈ signedRange w ∧ OnArc w p q v) ∧
    r.getSpan = .ok s ∧ s.val = min (q - p + 1) (2 * half w)

section Near

variable {w : Nat} {lb ub : APInt} {x : Except Error Range} {p q : Int}

/-- A Regular or Anti result within the limits that is not the full set. -/
theorem returnsArc_of_yields {t : RangeType} {a b : Int} (hw : w < maxDigits)
    (h : Yields x w t a b) (ha : -half w ≤ a) (hab : a ≤ b) (hb : b < half w)
    (hmem : ∀ v ∈ signedRange w, TypeMem t a b v ↔ OnArc w p q v)
    (hspan : (t = .regular ∧ b - a < 2 * half w - 1 ∧ b - a = q - p) ∨
      (t = .anti ∧ 2 * half w - 2 - (b - a) = q - p)) : ReturnsArc x w p q := by
  obtain ⟨r, rfl, rfl, rfl, rfl, rfl⟩ := h
  have h0 := r.bw_valid.1
  have hcap := two_mul_half_le h0 hw
  have hP := half_pos r.bw
  have hgamma : ∀ v, v ∈ r.gamma ↔ v ∈ signedRange r.bw ∧ OnArc r.bw p q v := fun v =>
    ⟨fun hv => ⟨hv.1, (hmem v hv.1).mp hv.2⟩, fun hv => ⟨hv.1, (hmem v hv.1).mpr hv.2⟩⟩
  rcases hspan with ⟨ht, hlen, hpq⟩ | ⟨ht, hpq⟩
  · obtain ⟨s, hs, hsv⟩ := getSpan_of_limits ht ⟨ha, hab, hb⟩ (fun hf => by
      have := hf.2
      omega)
    exact ⟨r, s, rfl, rfl, hgamma, hs, by omega⟩
  · have hmax := getMaxValue_val h0 hw
    have hsub : (r.u - r.l).val = r.u.val - r.l.val := sub_val (by omega) (by omega)
    refine ⟨r, _, rfl, rfl, hgamma, getSpan_of_anti ht, ?_⟩
    rw [sub_val] <;> rw [hmax, hsub] <;> omega

/-- The full set is an arc of a turn. -/
theorem returnsArc_of_full (hw : w < maxDigits) {a b : Int} (h : Yields x w .regular a b)
    (ha : a ≤ -half w) (hb : half w - 1 ≤ b) (hlen : 2 * half w - 1 ≤ q - p)
    (hnear : -(2 * half w) ≤ p ∧ q < 2 * half w) : ReturnsArc x w p q := by
  obtain ⟨r, rfl, rfl, ht, rfl, rfl⟩ := h
  have h0 := r.bw_valid.1
  have hcap := two_mul_half_le h0 hw
  have hP := half_pos r.bw
  have hmax := getMaxValue_val h0 hw
  have hcap2 := half_lt_half_maxDigits h0 hw
  refine ⟨r, _, rfl, rfl, fun v => ?_, getSpan_of_full ⟨ht, ha, hb⟩, ?_⟩
  · rw [mem_gamma_of_regular ht]
    constructor
    · rintro ⟨hv, -⟩
      obtain ⟨hv1, hv2⟩ := hv
      exact ⟨⟨hv1, hv2⟩, by unfold OnArc; omega⟩
    · rintro ⟨⟨hv1, hv2⟩, -⟩
      exact ⟨⟨hv1, hv2⟩, by omega, by omega⟩
  · rw [add_val] <;> rw [hmax, one_val] <;> omega

/-- Regular bounds less than a turn away from the limits, not both below unless
    they are equal. -/
theorem returnsArc_regular (h0 : 0 < w) (hw : w + 1 < maxDigits) (hlo : -(2 * half w) ≤ lb.val)
    (hle : lb.val ≤ ub.val) (hhi : ub.val < 2 * half w)
    (hmeet : -half w ≤ ub.val ∨ lb.val = ub.val) :
    ReturnsArc (ofBounds .regular w lb ub) w lb.val ub.val := by
  have hw' : w < maxDigits := by omega
  have hv : 0 < w ∧ w ≤ maxDigits := ⟨h0, hw'.le⟩
  have hP := half_pos w
  have hcap := four_mul_half_le h0 hw
  have hmin : -half maxDigits < lb.val := by omega
  have hmax : ub.val < half maxDigits - 1 := by omega
  have hlen : ub.val - lb.val < 2 * half maxDigits := by omega
  have hfull : ∀ {a b : Int}, YieldsBounds (normalizeRegular w lb ub) .regular a b → b < a →
      2 * half w - 1 ≤ ub.val - lb.val → ReturnsArc (ofBounds .regular w lb ub) w lb.val ub.val :=
    fun h hba hlong => returnsArc_of_full hw' (yields_regular hv hmin hle hmax (h.repair_crossed hba))
      (by omega) (by omega) hlong ⟨hlo, hhi⟩
  rcases Int.lt_or_le lb.val (-half w) with hlb | hlb
  · rcases Int.lt_or_le ub.val (-half w) with hub | hub
    · -- one integer below the limits
      have heq : lb.val = ub.val := by omega
      have hrl := signedResidue_past_lower h0 hlb (by omega)
      have hru := signedResidue_past_lower h0 hub (by omega)
      refine returnsArc_of_yields hw' (yields_regular hv hmin hle hmax
        ((normalizeRegular_below h0 hw' hle hub).repair (by omega))) (by omega) (by omega) (by omega)
        (fun v hv => ?_) (Or.inl ⟨rfl, by omega, by omega⟩)
      obtain ⟨hv1, hv2⟩ := hv
      unfold OnArc TypeMem
      simp only
      omega
    rcases Int.lt_or_le ub.val (half w) with hub' | hub'
    · -- past the lower limit
      by_cases hshort : ub.val - lb.val < 2 * half w - 1
      · refine returnsArc_of_yields hw' (yields_regular hv hmin hle hmax
          ((normalizeRegular_past_lower h0 hw' hlb hub hub' hshort).repair (by omega))) (by omega)
          (by omega) (by omega) (fun v hv => ?_) (Or.inr ⟨rfl, by omega⟩)
        obtain ⟨hv1, hv2⟩ := hv
        unfold OnArc TypeMem
        simp only
        omega
      · exact hfull (normalizeRegular_past_lower_long h0 hw' hlb hub hub' (by omega) hlen) (by omega)
          (by omega)
    · exact hfull (normalizeRegular_across hv hlb hub') (by omega) (by omega)
  · rcases Int.lt_or_le ub.val (half w) with hub | hub
    · -- within the limits
      by_cases hshort : ub.val - lb.val < 2 * half w - 1
      · refine returnsArc_of_yields hw' (ofBounds_regular_inside hv hlb hle hub) hlb hle hub
          (fun v hv => ?_) (Or.inl ⟨rfl, hshort, rfl⟩)
        obtain ⟨hv1, hv2⟩ := hv
        unfold OnArc TypeMem
        simp only
        omega
      · exact returnsArc_of_full hw' (ofBounds_regular_inside hv hlb hle hub) (by omega) (by omega)
          (by omega) ⟨hlo, hhi⟩
    rcases Int.lt_or_le lb.val (half w) with hlb' | hlb'
    · -- past the upper limit
      by_cases hshort : ub.val - lb.val < 2 * half w - 1
      · refine returnsArc_of_yields hw' (yields_regular hv hmin hle hmax
          ((normalizeRegular_past_upper h0 hw' hlb hlb' hub hshort).repair (by omega))) (by omega)
          (by omega) (by omega) (fun v hv => ?_) (Or.inr ⟨rfl, by omega⟩)
        obtain ⟨hv1, hv2⟩ := hv
        unfold OnArc TypeMem
        simp only
        omega
      · exact hfull (normalizeRegular_past_upper_long h0 hw' hlb hlb' hub (by omega) hlen) (by omega)
          (by omega)
    · -- both above the limits
      have hrl := signedResidue_past_upper h0 hlb' (by omega)
      have hru := signedResidue_past_upper h0 hub (by omega)
      refine returnsArc_of_yields hw' (yields_regular hv hmin hle hmax
        ((normalizeRegular_above h0 hw' hlb' hle).repair (by omega))) (by omega) (by omega) (by omega)
        (fun v hv => ?_) (Or.inl ⟨rfl, by omega, by omega⟩)
      obtain ⟨hv1, hv2⟩ := hv
      unfold OnArc TypeMem
      simp only
      omega

/-- Two different bounds below the limits come back crossed, and keep everything. -/
theorem holds_regular_below (h0 : 0 < w) (hw : w + 1 < maxDigits) (hlo : -(2 * half w) ≤ lb.val)
    (hlt : lb.val < ub.val) (hhi : ub.val < -half w) {v : Int} (hv : v ∈ signedRange w) :
    Holds (ofBounds .regular w lb ub) w v := by
  have hw' : w < maxDigits := by omega
  have hP := half_pos w
  have hcap := four_mul_half_le h0 hw
  have hrl := signedResidue_past_lower h0 (show lb.val < -half w by omega) (by omega)
  have hru := signedResidue_past_lower h0 hhi (by omega)
  have hy : Yields (ofBounds .regular w lb ub) w _ _ _ := yields_regular ⟨h0, hw'.le⟩ (by omega)
    hlt.le (by omega) ((normalizeRegular_below h0 hw' hlt.le hhi).repair_crossed (by omega))
  rw [hy.holds_iff]
  obtain ⟨hv1, hv2⟩ := hv
  exact ⟨⟨hv1, hv2⟩, by omega, by omega⟩

/-- Anti bounds less than a turn away from the limits keep the residues of no
    integer between them; two different bounds below the limits keep nothing. -/
theorem holds_anti_iff (h0 : 0 < w) (hw : w + 1 < maxDigits) (hlo : -(2 * half w) ≤ lb.val)
    (hle : lb.val ≤ ub.val) (hhi : ub.val < 2 * half w) (hlen : ub.val - lb.val < 2 * half w - 1)
    {v : Int} : Holds (ofBounds .anti w lb ub) w v ↔
      v ∈ signedRange w ∧ ¬ OnArc w lb.val ub.val v ∧ ¬ (ub.val < -half w ∧ lb.val < ub.val) := by
  have hw' : w < maxDigits := by omega
  have hv : 0 < w ∧ w ≤ maxDigits := ⟨h0, hw'.le⟩
  have hP := half_pos w
  have hcap := four_mul_half_le h0 hw
  have hmin : -half maxDigits < lb.val := by omega
  have hmax : ub.val < half maxDigits - 1 := by omega
  have hclose : ∀ {t : RangeType} {a b : Int}, Yields (ofBounds .anti w lb ub) w t a b →
      (∀ v ∈ signedRange w, TypeMem t a b v ↔
        ¬ OnArc w lb.val ub.val v ∧ ¬ (ub.val < -half w ∧ lb.val < ub.val)) →
      (Holds (ofBounds .anti w lb ub) w v ↔ v ∈ signedRange w ∧ ¬ OnArc w lb.val ub.val v ∧
        ¬ (ub.val < -half w ∧ lb.val < ub.val)) := by
    intro t a b hy hmem
    rw [hy.holds_iff]
    exact and_congr_right fun hv => hmem v hv
  rcases Int.lt_or_le lb.val (-half w) with hlb | hlb
  · rcases Int.lt_or_le ub.val (-half w) with hub | hub
    · have hrl := signedResidue_past_lower h0 hlb (by omega)
      have hru := signedResidue_past_lower h0 hub (by omega)
      rcases Int.lt_or_le lb.val ub.val with hlt | hge
      · -- stored in the opposite order, the bounds cross
        refine hclose (yields_anti hv hmin hle hmax
          ((normalizeAnti_below h0 hw' hle hub hlen).repair_crossed (by omega))) fun v hv => ?_
        obtain ⟨hv1, hv2⟩ := hv
        have hcap2 := half_lt_half_maxDigits h0 hw'
        unfold TypeMem
        simp only
        omega
      · refine hclose (yields_anti hv hmin hle hmax
          ((normalizeAnti_below h0 hw' hle hub hlen).repair (by omega))) fun v hv => ?_
        obtain ⟨hv1, hv2⟩ := hv
        unfold OnArc TypeMem
        simp only
        omega
    · refine hclose (yields_anti hv hmin hle hmax
        ((normalizeAnti_past_lower h0 hw' hlb hub (by omega) hlen).repair (by omega))) fun v hv => ?_
      obtain ⟨hv1, hv2⟩ := hv
      unfold OnArc TypeMem
      simp only
      omega
  · rcases Int.lt_or_le ub.val (half w) with hub | hub
    · refine hclose (yields_anti hv hmin hle hmax
        ((normalizeAnti_inside hv hlb hle hub).repair hle)) fun v hv => ?_
      obtain ⟨hv1, hv2⟩ := hv
      unfold OnArc TypeMem
      simp only
      omega
    rcases Int.lt_or_le lb.val (half w) with hlb' | hlb'
    · refine hclose (yields_anti hv hmin hle hmax
        ((normalizeAnti_past_upper h0 hw' hlb hlb' hub hlen).repair (by omega))) fun v hv => ?_
      obtain ⟨hv1, hv2⟩ := hv
      unfold OnArc TypeMem
      simp only
      omega
    · have hrl := signedResidue_past_upper h0 hlb' (by omega)
      have hru := signedResidue_past_upper h0 hub (by omega)
      refine hclose (yields_anti hv hmin hle hmax
        ((normalizeAnti_above h0 hw' hlb' hle hlen).repair (by omega))) fun v hv => ?_
      obtain ⟨hv1, hv2⟩ := hv
      unfold OnArc TypeMem
      simp only
      omega

end Near

end Range
end Bambu
