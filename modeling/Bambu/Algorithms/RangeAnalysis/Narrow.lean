/-
  Bambu.Algorithms.RangeAnalysis.Narrow

  `Meet::narrow` and `Meet::crop` as descending steps: a value of both the old and the newly
  evaluated range stays in the range that is stored.

  Cropping and the narrowing of intervals exchange one bound after the other, and a bound of
  the hull keeps both.  Of two holes `narrow` keeps what the jump-set leaves of both, but takes
  the new bound on one side and the old one on the other without asking whether they cross;
  where they do, the constructor builds the gap between the holes instead.
-/

import Bambu.Algorithms.RangeAnalysis.Widen

namespace Bambu

open Bambu.Math APInt

namespace Range

/-! ## Crossed bounds -/

section Crossed

variable {w : Nat} {lb ub : APInt}

/-- Bounds that meet the limits: what the range holds are the residues of what lies between. -/
theorem denotes_residues {x : Except Error Range} (hw : 0 < w ∧ w ≤ maxDigits)
    (hmin : -half maxDigits < lb.val) (hle : lb.val ≤ ub.val)
    (hmax : ub.val < half maxDigits - 1) (hlb : lb.val < half w) (hub : -half w ≤ ub.val)
    (h : ∀ {t : RangeType} {p q : Int},
      YieldsBounds ((normalizeRegular w lb ub).map Bounds.repair) t p q → Yields x w t p q) :
    Denotes x w (signedResidue w '' Set.Icc lb.val ub.val) := by
  have hP := half_pos w
  -- Bounds that leave no residue out come back crossed, as the full range.
  have hfull : YieldsBounds (normalizeRegular w lb ub) .regular (half w - 1) (-half w) →
      2 * half w ≤ ub.val - lb.val + 1 →
      Denotes x w (signedResidue w '' Set.Icc lb.val ub.val) := by
    intro hbody hlong
    rw [image_Icc_of_long hw.1 hlong]
    refine (h (hbody.repair_crossed (by omega))).denotes.congr fun v => ?_
    exact ⟨fun hv => hv.1, fun hv => ⟨hv, typeMem_full hw.2 hv⟩⟩
  by_cases hin : -half w ≤ lb.val ∧ ub.val < half w
  · have hbody := (normalizeRegular_inside hw hin.1 hle hin.2).repair hle
    rw [image_Icc_of_le hw.1 hle (by omega) (by
      rw [signedResidue_of_mem hw.1 hin.1 hlb, signedResidue_of_mem hw.1 hub hin.2]
      exact hle), signedResidue_of_mem hw.1 hin.1 hlb, signedResidue_of_mem hw.1 hub hin.2]
    refine (h hbody).denotes.congr fun v => ?_
    exact ⟨fun hv => hv.2, fun hv => ⟨⟨hin.1.trans hv.1, hv.2.trans_lt hin.2⟩, hv⟩⟩
  have hlt : w < maxDigits := by
    refine lt_of_le_of_ne hw.2 ?_
    rintro rfl
    omega
  by_cases hlo : -half w ≤ lb.val
  · by_cases hlen : ub.val - lb.val < 2 * half w - 1
    · -- past the upper limit
      have hbody := (normalizeRegular_past_upper hw.1 hlt hlo hlb (by omega) hlen).repair (by omega)
      have hres := signedResidue_past_upper hw.1 (y := ub.val) (by omega) (by omega)
      have hself := signedResidue_of_mem hw.1 hlo hlb
      rw [image_Icc_of_gt hw.1 hle (by omega) (by omega)]
      refine (h hbody).denotes.congr fun v => and_congr_right fun _ => ?_
      unfold TypeMem
      dsimp only
      omega
    · exact hfull (normalizeRegular_past_upper_long hw.1 hlt hlo hlb (by omega) (by omega)
        (by omega)) (by omega)
  by_cases hhi : ub.val < half w
  · by_cases hlen : ub.val - lb.val < 2 * half w - 1
    · -- past the lower limit
      have hbody := (normalizeRegular_past_lower hw.1 hlt (by omega) hub hhi hlen).repair (by omega)
      have hres := signedResidue_past_lower hw.1 (x := lb.val) (by omega) (by omega)
      have hself := signedResidue_of_mem hw.1 hub hhi
      rw [image_Icc_of_gt hw.1 hle (by omega) (by omega)]
      refine (h hbody).denotes.congr fun v => and_congr_right fun _ => ?_
      unfold TypeMem
      dsimp only
      omega
    · exact hfull (normalizeRegular_past_lower_long hw.1 hlt (by omega) hub hhi (by omega)
        (by omega)) (by omega)
  · exact hfull (normalizeRegular_across hw (by omega) (by omega)) (by omega)

/-- Crossed bounds of a hole build the interval between them. -/
theorem denotes_anti_crossed (hw : 0 < w ∧ w ≤ maxDigits) (hmin : -half maxDigits ≤ ub.val)
    (hcross : ub.val + 1 ≤ lb.val - 1) (hmax : lb.val ≤ half maxDigits - 1)
    (hub : ub.val + 1 < half w) (hlb : -half w ≤ lb.val - 1) :
    Denotes (ofBounds .anti w lb ub) w
      (signedResidue w '' Set.Icc (ub.val + 1) (lb.val - 1)) := by
  have hsucc : (ub + MinDelta).val = ub.val + 1 := add_minDelta_val (by omega)
  have hpred : (lb - MinDelta).val = lb.val - 1 := sub_minDelta_val (by omega)
  rw [← hsucc, ← hpred]
  refine denotes_residues hw (by omega) (by omega) (by omega) (by omega) (by omega) fun hy => ?_
  apply yields_of_normalizeRange hw
  rw [normalizeRange, if_pos (by rw [gt_iff_lt, SignMag.lt_iff]; omega)]
  rwa [normalizeRange_regular (by omega) (pred_ne_of_le (by omega) (by omega))
    (by rw [ne_eq, eq_min_iff]; omega) (by rw [ne_eq, eq_max_iff]; omega)]

/-- Nothing between the bounds: the full range. -/
theorem denotes_anti_adjacent (hw : 0 < w ∧ w ≤ maxDigits) (hmin : -half maxDigits ≤ ub.val)
    (hadj : lb.val = ub.val + 1) (hmax : lb.val ≤ half maxDigits - 1) :
    Denotes (ofBounds .anti w lb ub) w (signedRange w) := by
  have hP := half_pos w
  have hsucc : (ub + MinDelta).val = ub.val + 1 := add_minDelta_val (by omega)
  have hpred : (lb - MinDelta).val = lb.val - 1 := sub_minDelta_val (by omega)
  have hback : (ub + MinDelta - MinDelta).val = ub.val := by
    rw [sub_minDelta_val (by omega)]
    omega
  have hminv := getSignedMinValue_val hw.1 hw.2
  have hmaxv := getSignedMaxValue_val hw.1 hw.2
  have hy : Yields (ofBounds .anti w lb ub) w .regular (-half w) (half w - 1) := by
    apply yields_of_normalizeRange hw
    rw [normalizeRange, if_pos (by rw [gt_iff_lt, SignMag.lt_iff]; omega), normalizeRange,
      if_pos (SignMag.ext (by omega)), repair_of_le (by omega)]
    exact yieldsBounds_ok hminv hmaxv
  refine hy.denotes.congr fun v => ?_
  exact ⟨fun h => h.1, fun h => ⟨h, h.1, by have := h.2; omega⟩⟩

/-- Crossed bounds of an interval build the hole between them. -/
theorem denotes_regular_crossed (hw : 0 < w ∧ w ≤ maxDigits) (hlo : -half w ≤ ub.val)
    (hcross : ub.val < lb.val) (hhi : lb.val < half w) :
    Denotes (ofBounds .regular w lb ub) w
      {v | v ∈ signedRange w ∧ (v ≤ ub.val ∨ lb.val ≤ v)} := by
  have hP := half_pos w
  have hcap := half_le_half hw.2
  have hpred : (lb - MinDelta).val = lb.val - 1 := sub_minDelta_val (by omega)
  have hsucc : (ub + MinDelta).val = ub.val + 1 := add_minDelta_val (by omega)
  have hminv := getSignedMinValue_val hw.1 hw.2
  have hmaxv := getSignedMaxValue_val hw.1 hw.2
  by_cases hadj : lb - MinDelta = ub
  · have hy : Yields (ofBounds .regular w lb ub) w .regular (-half w) (half w - 1) := by
      apply yields_of_normalizeRange hw
      rw [normalizeRange, if_pos hadj, repair_of_le (by omega)]
      exact yieldsBounds_ok hminv hmaxv
    rw [SignMag.eq_iff, hpred] at hadj
    refine hy.denotes.congr fun v => and_congr_right fun hv => ?_
    have h2 := hv.2
    exact iff_of_true ⟨hv.1, by omega⟩ (by omega)
  · have hgap : lb.val - 1 ≠ ub.val := fun h => hadj (SignMag.ext (hpred.trans h))
    have hy : Yields (ofBounds .regular w lb ub) w .anti (ub.val + 1) (lb.val - 1) := by
      apply yields_of_normalizeRange hw
      rw [normalizeRange, if_neg hadj, if_pos (by rw [gt_iff_lt, SignMag.lt_iff]; omega),
        normalizeRange_anti (by omega) (by rw [ne_eq, eq_min_iff]; omega)
          (by rw [ne_eq, eq_max_iff]; omega), ← hsucc, ← hpred]
      exact (normalizeAnti_inside hw (by omega) (by omega) (by omega)).repair (by omega)
    refine hy.denotes.congr fun v => and_congr_right fun _ => ?_
    unfold TypeMem
    dsimp only
    omega

end Crossed

end Range

namespace Meet

open Range

/-! ## A bound from each range -/

section Mixed

variable {w : Nat} {lb ub : APInt}

/-- A lower bound of one range and an upper bound of another: what lies between them is kept. -/
theorem mixed_bounds (hw : 0 < w ∧ w ≤ maxDigits)
    (hlb : lb.val = -half maxDigits ∨ (-half w ≤ lb.val ∧ lb.val < half w))
    (hub : ub.val = half maxDigits - 1 ∨ (-half w ≤ ub.val ∧ ub.val < half w)) :
    ∃ r, ofBounds .regular w lb ub = .ok r ∧ r.bw = w ∧ r.Proper ∧ r.WellFormed ∧
      ∀ v ∈ signedRange w, lb.val ≤ v → (ub.val < lb.val ∨ v ≤ ub.val) → v ∈ r.gamma := by
  have hP := half_pos w
  have hcap := half_le_half hw.2
  have hleast : max lb.val (-half w) ∈ signedRange w := ⟨le_max_right _ _, by omega⟩
  have hproper : ∀ {r}, ofBounds .regular w lb ub = .ok r → max lb.val (-half w) ∈ r.gamma →
      r.Proper := fun hr hmem => proper_of_mem (ofBounds_type_ne_unknown (by decide) hr) hmem
  by_cases hle : lb.val ≤ ub.val
  · obtain ⟨r, hr, hbw, hwf, hmem⟩ := @ofBounds_regular_hull _ lb ub hw (by omega)
      (by omega) hle (by omega) (by omega)
    have hwraps : ∀ v, ¬ FromMinWraps w lb.val ub.val v := by
      rintro v ⟨-, h2, h3, -⟩
      rcases Nat.lt_or_eq_of_le hw.2 with hlt | rfl
      · have hroom := two_mul_half_le hw.1 hlt
        omega
      · omega
    refine ⟨r, hr, hbw, hproper hr ?_, hwf, fun v hv h1 h2 => ?_⟩
    · exact (hmem _ hleast (le_max_left _ _) (by omega)).mpr (hwraps _)
    · exact (hmem v hv h1 (by omega)).mpr (hwraps v)
  · obtain ⟨r, hr, hbw, hg⟩ := @denotes_regular_crossed _ lb ub hw (by omega)
      (by omega) (by omega)
    refine ⟨r, hr, hbw, hproper hr (hg ▸ ⟨hleast, .inr (le_max_left _ _)⟩), ?_,
      fun v hv h1 _ => hg ▸ ⟨hv, .inr h1⟩⟩
    refine (constructor_wellFormed_iff w hw.1 hw.2 .regular lb ub).mpr ?_ r hr
    unfold ConstructorBreaks
    dsimp only
    rw [if_neg hle]
    exact not_antiBreaks_inside hw.2 (by omega) (by omega)

end Mixed

/-! ## Cropping and narrowing -/

/-- The stored range holds the values of both. -/
def Retains (old new : Range) (x : Except Error Range) : Prop :=
  ∃ r, x = .ok r ∧ r.bw = old.bw ∧ old.gamma ∩ new.gamma ⊆ r.gamma

section Retains

variable {old new : Range}

theorem retains_old : Retains old new (.ok old) := ⟨old, rfl, rfl, Set.inter_subset_left⟩

theorem retains_new (hbw : new.bw = old.bw) : Retains old new (.ok new) :=
  ⟨new, rfl, hbw, Set.inter_subset_right⟩

/-- The bounds of an interval, or of nothing known, as bounds of their own. -/
theorem bound_cases {r : Range} (h : Canonical r) (ht : r.type = .regular ∨ r.type = .unknown) :
    (r.l.val = -half maxDigits ∨ (-half r.bw ≤ r.l.val ∧ r.l.val < half r.bw)) ∧
      (r.u.val = half maxDigits - 1 ∨ (-half r.bw ≤ r.u.val ∧ r.u.val < half r.bw)) := by
  have hb := bounds_of_canonical h ht
  omega

/-- A bound of each range. -/
theorem retains_mixed {lb ub : APInt}
    (hlb : lb.val = -half maxDigits ∨ (-half old.bw ≤ lb.val ∧ lb.val < half old.bw))
    (hub : ub.val = half maxDigits - 1 ∨ (-half old.bw ≤ ub.val ∧ ub.val < half old.bw))
    (hbetween : ∀ v ∈ old.gamma ∩ new.gamma, lb.val ≤ v ∧ v ≤ ub.val) :
    Retains old new (ofBounds .regular old.bw lb ub) := by
  obtain ⟨r, hr, hbw, -, -, hmem⟩ := mixed_bounds old.bw_valid hlb hub
  refine ⟨r, hr, hbw, fun v hv => ?_⟩
  obtain ⟨h1, h2⟩ := hbetween v hv
  exact hmem v hv.1.1 h1 (.inr h2)

/-- `crop` keeps what both ranges hold. -/
theorem retains_intervalCrop (ho : Canonical old) (hn : Canonical new) (hbw : new.bw = old.bw)
    (abstractState : AbstractState) : Retains old new (intervalCrop old new abstractState) := by
  unfold intervalCrop
  split
  case isTrue => exact retains_new hbw
  case isFalse hother =>
    simp only [Bool.or_eq_true, isAnti_iff, Range.isEmpty_iff, not_or] at hother
    obtain ⟨⟨⟨hoa, hna⟩, hoe⟩, hne⟩ := hother
    have hto : old.type = .regular ∨ old.type = .unknown := by
      cases h : old.type <;> simp_all
    have htn : new.type = .regular ∨ new.type = .unknown := by
      cases h : new.type <;> simp_all
    obtain ⟨hol, hou⟩ := bound_cases ho hto
    obtain ⟨hnl, hnu⟩ := bound_cases hn htn
    rw [hbw] at hnl hnu
    have hbetween : ∀ v ∈ old.gamma ∩ new.gamma,
        (old.l.val ≤ v ∧ v ≤ old.u.val) ∧ new.l.val ≤ v ∧ v ≤ new.u.val :=
      fun v hv => ⟨(between_of_mem ho hto hv.1).2, (between_of_mem hn htn hv.2).2⟩
    rw [getLower_eq hoa, getUpper_eq hoa, getLower_eq hna, getUpper_eq hna]
    simp only [ok_bind]
    split
    · exact retains_mixed hnl hou fun v hv => ⟨(hbetween v hv).2.1, (hbetween v hv).1.2⟩
    · split
      · exact retains_mixed hol hnu fun v hv => ⟨(hbetween v hv).1.1, (hbetween v hv).2.2⟩
      · exact retains_old

/-- The bounds of an interval as `narrow` reads them: infinite ones for a full interval. -/
def lowerBound (r : Range) : APInt := if r.IsFull then Range.Min else r.l
def upperBound (r : Range) : APInt := if r.IsFull then Range.Max else r.u

theorem bound_cases_of_full {r : Range} (h : Canonical r) (ht : r.type = .regular) :
    ((lowerBound r).val = -half maxDigits ∨
      (-half r.bw ≤ (lowerBound r).val ∧ (lowerBound r).val < half r.bw)) ∧
    ((upperBound r).val = half maxDigits - 1 ∨
      (-half r.bw ≤ (upperBound r).val ∧ (upperBound r).val < half r.bw)) := by
  unfold lowerBound upperBound
  split_ifs
  · exact ⟨.inl min_val, .inl max_val⟩
  · exact bound_cases h (.inl ht)

theorem between_bounds {r : Range} (ht : r.type = .regular) {v : Int} (hv : v ∈ r.gamma) :
    (lowerBound r).val ≤ v ∧ v ≤ (upperBound r).val := by
  have hcap := half_le_half r.bw_valid.2
  obtain ⟨⟨h1, h2⟩, h3⟩ := (mem_gamma_of_regular ht).mp hv
  unfold lowerBound upperBound
  split_ifs
  · rw [min_val, max_val]
    omega
  · exact h3

theorem narrowRegular_eq (ho : old.type = .regular) (hn : new.type = .regular) :
    narrowRegular old new = (if lowerBound old = Range.Min ∧ lowerBound new ≠ Range.Min then
        ofBounds .regular old.bw (lowerBound new) (upperBound old)
      else if lowerBound new < lowerBound old then
        ofBounds .regular old.bw (lowerBound new) (upperBound old)
      else .ok old) >>= fun sinkInterval =>
      if sinkInterval.isAnti then .ok sinkInterval
      else if upperBound old = Range.Max ∧ upperBound new ≠ Range.Max then
        sinkInterval.getLower >>= fun l => ofBounds .regular old.bw l (upperBound new)
      else if upperBound old < upperBound new then
        sinkInterval.getLower >>= fun l => ofBounds .regular old.bw l (upperBound new)
      else .ok sinkInterval := by
  have hoa : old.type ≠ .anti := by
    rw [ho]
    exact RangeType.noConfusion
  have hna : new.type ≠ .anti := by
    rw [hn]
    exact RangeType.noConfusion
  unfold narrowRegular lowerBound upperBound
  simp only [isFullSet_eq (.inl ho), isFullSet_eq (.inl hn), ok_bind, getLower_eq hoa,
    getLower_eq hna, getUpper_eq hoa, getUpper_eq hna, decide_eq_true_eq]
  have hoi : old.isAnti = false := Bool.eq_false_iff.mpr (mt isAnti_iff.mp hoa)
  by_cases hof : old.IsFull <;> by_cases hnf : new.IsFull <;>
    simp only [hof, hnf, hoi, if_true, if_false, Bool.false_eq_true] <;> split_ifs <;>
    first | rfl | simp [*, getLower_eq hoa]

/-- `narrow` of two intervals keeps what both hold. -/
theorem retains_narrowRegular (ho : Canonical old) (hn : Canonical new) (hbw : new.bw = old.bw)
    (hto : old.type = .regular) (htn : new.type = .regular) :
    Retains old new (narrowRegular old new) := by
  obtain ⟨hol, hou⟩ := bound_cases_of_full ho hto
  obtain ⟨hnl, hnu⟩ := bound_cases_of_full hn htn
  rw [hbw] at hnl hnu
  -- After the lower bound, the values of both are in the sink still.
  obtain ⟨sink, hsink, hsbw, hproper, hwf, hmem⟩ : ∃ sink,
      (if lowerBound old = Range.Min ∧ lowerBound new ≠ Range.Min then
          ofBounds .regular old.bw (lowerBound new) (upperBound old)
        else if lowerBound new < lowerBound old then
          ofBounds .regular old.bw (lowerBound new) (upperBound old)
        else .ok old) = .ok sink ∧ sink.bw = old.bw ∧ sink.Proper ∧ sink.WellFormed ∧
          old.gamma ∩ new.gamma ⊆ sink.gamma := by
    obtain ⟨r, hr, hrw, hproper, hwf, hmem⟩ := mixed_bounds old.bw_valid hnl hou
    have hsub : old.gamma ∩ new.gamma ⊆ r.gamma := fun v hv =>
      hmem v hv.1.1 (between_bounds htn hv.2).1 (.inr (between_bounds hto hv.1).2)
    split
    · exact ⟨r, hr, hrw, hproper, hwf, hsub⟩
    · split
      · exact ⟨r, hr, hrw, hproper, hwf, hsub⟩
      · exact ⟨old, rfl, rfl, .inl hto, ho.1, Set.inter_subset_left⟩
  rw [narrowRegular_eq hto htn, hsink, ok_bind]
  have hsame : Retains old new (.ok sink) := ⟨sink, rfl, hsbw, hmem⟩
  by_cases hanti : sink.type = .anti
  · rw [if_pos (isAnti_iff.mpr hanti)]
    exact hsame
  · have hreg : sink.type = .regular := hproper.resolve_right hanti
    have hb := (bound_cases (canonical_of_proper hwf hproper) (.inl hreg)).1
    rw [hsbw] at hb
    have hmixed : Retains old new (ofBounds .regular old.bw sink.l (upperBound new)) :=
      retains_mixed hb hnu fun v hv =>
        ⟨((mem_gamma_of_regular hreg).mp (hmem hv)).2.1, (between_bounds htn hv.2).2⟩
    rw [if_neg (mt isAnti_iff.mp hanti), getLower_eq hanti]
    split
    · exact hmixed
    · split
      · exact hmixed
      · exact hsame

theorem narrowAnti_eq {cv : List APInt} (ho : old.type = .anti) (hn : new.type = .anti)
    (hlo : old.InLimits) (hln : new.InLimits) : narrowAnti cv old new =
      if old.l < getFirstGreaterFromVector cv new.l ∧
          old.u > getFirstLessFromVector cv new.u then
        if getFirstGreaterFromVector cv new.l ≤ getFirstLessFromVector cv new.u then
          ofBounds .anti old.bw (getFirstGreaterFromVector cv new.l)
            (getFirstLessFromVector cv new.u)
        else ofType .regular old.bw
      else if old.l < getFirstGreaterFromVector cv new.l then
        ofBounds .anti old.bw (getFirstGreaterFromVector cv new.l) old.u
      else if old.u > getFirstLessFromVector cv new.u then
        ofBounds .anti old.bw old.l (getFirstLessFromVector cv new.u)
      else .ok old := by
  unfold narrowAnti
  rw [getAnti_of_anti ho hlo, getAnti_of_anti hn hln]
  rfl

end Retains

/-! ## The gap between two holes -/

/-- A common value that is none of the residues from `p` to `q`. -/
def GapLoses (old new : Range) (p q : Int) : Prop :=
  p ≤ q ∧ ∃ v ∈ old.gamma ∩ new.gamma, v ∉ signedResidue old.bw '' Set.Icc p q

/-- The inputs for which `narrow` loses a value. -/
def NarrowLoses (cv : List APInt) (old new : Range) : Prop :=
  match old.type, new.type with
  -- The gap between the holes, where the rounded bound of one has passed the other.
  | .anti, .anti => new ≠ old ∧
      ((old.l < getFirstGreaterFromVector cv new.l ∧ old.u ≤ getFirstLessFromVector cv new.u ∧
          GapLoses old new (old.u.val + 1) ((getFirstGreaterFromVector cv new.l).val - 1)) ∨
        (getFirstGreaterFromVector cv new.l ≤ old.l ∧ getFirstLessFromVector cv new.u < old.u ∧
          GapLoses old new ((getFirstLessFromVector cv new.u).val + 1) (old.l.val - 1)))
  -- `isFullSet` asserts that something is known.
  | .unknown, .regular => new.l ≠ new.u
  | .unknown, .unknown => True
  | .regular, .unknown => True
  | _, _ => False

section Gap

variable {J : JumpSet} {old new : Range}

/-- A hole of one bound of each, which keeps what both ranges hold if the bounds are in order,
and the gap between the bounds otherwise. -/
theorem retains_hole_iff {lb ub : APInt} (hmin : -half maxDigits ≤ ub.val)
    (hmax : lb.val ≤ half maxDigits - 1)
    (hin : lb.val ≤ ub.val → -half old.bw ≤ lb.val ∧ ub.val < half old.bw)
    (hgap : ub.val < lb.val → ub.val + 1 < half old.bw ∧ -half old.bw ≤ lb.val - 1)
    (hout : ∀ v ∈ old.gamma ∩ new.gamma, lb.val ≤ ub.val → v < lb.val ∨ ub.val < v) :
    Retains old new (ofBounds .anti old.bw lb ub) ↔
      ¬ GapLoses old new (ub.val + 1) (lb.val - 1) := by
  have hw := old.bw_valid
  rcases lt_trichotomy lb.val (ub.val + 1) with hlt | heq | hgt
  · refine iff_of_true ?_ fun h => by have := h.1; omega
    obtain ⟨h1, h2⟩ := hin (by omega)
    obtain ⟨r, hr, hrw, hg⟩ := @denotes_anti _ lb ub hw h1 (by omega) h2
    exact ⟨r, hr, hrw, fun v hv => hg ▸ ⟨hv.1.1, hout v hv (by omega)⟩⟩
  · refine iff_of_true ?_ fun h => by have := h.1; omega
    obtain ⟨r, hr, hrw, hg⟩ := @denotes_anti_adjacent _ lb ub hw hmin heq hmax
    exact ⟨r, hr, hrw, fun v hv => hg ▸ hv.1.1⟩
  · obtain ⟨h1, h2⟩ := hgap (by omega)
    obtain ⟨r, hr, hrw, hg⟩ := @denotes_anti_crossed _ lb ub hw hmin (by omega) hmax
      h1 h2
    constructor
    · rintro ⟨r', hr', -, hsub⟩ ⟨-, v, hv, hlost⟩
      obtain rfl : r' = r := Except.ok.inj (hr'.symm.trans hr)
      exact hlost (hg ▸ hsub hv)
    · intro hkept
      refine ⟨r, hr, hrw, fun v hv => ?_⟩
      by_contra hlost
      rw [hg] at hlost
      exact hkept ⟨by omega, v, hv, hlost⟩

/-- Two holes. -/
theorem retains_narrowAnti_iff (J : JumpSet) (ho : Canonical old) (hn : Canonical new)
    (hbw : new.bw = old.bw) (hto : old.type = .anti) (htn : new.type = .anti) (hne : new ≠ old) :
    Retains old new (narrowAnti J.constantvector old new) ↔
      ¬ NarrowLoses J.constantvector old new := by
  obtain ⟨h1, h2, h3⟩ := ho.1.2 hto
  obtain ⟨h4, h5, h6⟩ := hn.1.2 htn
  rw [hbw] at h4 h6
  have hw := old.bw_valid
  have hcap := half_le_half hw.2
  have hout : ∀ v ∈ old.gamma ∩ new.gamma, (v < old.l.val ∨ old.u.val < v) ∧
      (v < new.l.val ∨ new.u.val < v) := fun v hv =>
    ⟨((mem_gamma_of_anti hto).mp hv.1).2, ((mem_gamma_of_anti htn).mp hv.2).2⟩
  have hl := greater_bounds J new.l (by omega)
  have hu := less_bounds J new.u (by omega)
  -- A sorted vector has no constant between the lookups that both miss.
  have hsortl : ∀ c ∈ J.constantvector, new.l.val ≤ c.val →
      (getFirstGreaterFromVector J.constantvector new.l).val ≤ c.val := fun c hc h =>
    getFirstGreaterFromVector_le J.sorted hc h
  have hsortu : ∀ c ∈ J.constantvector, c.val ≤ new.u.val →
      c.val ≤ (getFirstLessFromVector J.constantvector new.u).val := fun c hc h =>
    le_getFirstLessFromVector J.sorted hc h
  have hgreater := getFirstGreaterFromVector_spec J.constantvector new.l
  have hless := getFirstLessFromVector_spec J.constantvector new.u
  rw [narrowAnti_eq hto htn (ho.1.2 hto) (hn.1.2 htn)]
  simp only [NarrowLoses, hto, htn, hne, ne_eq, not_false_eq_true, true_and]
  generalize getFirstGreaterFromVector J.constantvector new.l = nl at *
  generalize getFirstLessFromVector J.constantvector new.u = nu at *
  simp only [gt_iff_lt, SignMag.lt_iff, SignMag.le_iff] at *
  by_cases hboth : old.l.val < nl.val ∧ nu.val < old.u.val
  · rw [if_pos hboth]
    refine iff_of_true ?_ (by omega)
    split
    case isTrue hord =>
      obtain ⟨r, hr, hrw, hg⟩ := @denotes_anti _ nl nu hw (by omega) hord (by omega)
      refine ⟨r, hr, hrw, fun v hv => hg ▸ ⟨hv.1.1, ?_⟩⟩
      have hv' := hout v hv
      omega
    case isFalse =>
      obtain ⟨r, hr, hrw, -, -, hg⟩ := ofType_regular old.bw hw
      exact ⟨r, hr, hrw, fun v hv => hg ▸ hv.1.1⟩
  rw [if_neg hboth]
  by_cases hlow : old.l.val < nl.val
  · rw [if_pos hlow, retains_hole_iff (by omega) hl.2 (fun h => by omega) (fun h => ?_)
      fun v hv h => by have hv' := hout v hv; omega]
    · refine not_congr ⟨fun h => .inl ⟨hlow, by omega, h⟩, fun h => ?_⟩
      rcases h with ⟨-, -, h⟩ | ⟨h, -⟩
      · exact h
      · omega
    · refine ⟨?_, by omega⟩
      by_contra hlimit
      rcases hless with ⟨hmem, -⟩ | ⟨hmin, -⟩
      · have hcross := hsortl nu hmem (by omega)
        omega
      · rw [hmin, min_val] at hboth
        omega
  rw [if_neg hlow]
  by_cases hhigh : nu.val < old.u.val
  · rw [if_pos hhigh, retains_hole_iff hu.1 (by omega) (fun h => by omega) (fun h => ?_)
      fun v hv h => by have hv' := hout v hv; omega]
    · refine not_congr ⟨fun h => .inr ⟨by omega, hhigh, h⟩, fun h => ?_⟩
      rcases h with ⟨h, -⟩ | ⟨-, -, h⟩
      · omega
      · exact h
    · refine ⟨by omega, ?_⟩
      by_contra hlimit
      rcases hgreater with ⟨hmem, -⟩ | ⟨hmax, -⟩
      · have hcross := hsortu nl hmem (by omega)
        omega
      · rw [hmax, max_val] at hlow
        omega
  · rw [if_neg hhigh]
    exact iff_of_true retains_old (by omega)

end Gap

/-! ## The descending steps -/

section Descending

variable {J : JumpSet} {old new : Range}

/-- `isFullSet` of what is not known fails. -/
theorem isFullSet_of_unknown {r : Range} (h : r.type = .unknown) :
    ∃ e, r.isFullSet = .error e := by
  unfold isFullSet
  rw [throwAssert_of_not (not_not.mpr (isUnknown_iff.mpr h)), error_bind]
  exact ⟨_, rfl⟩

theorem narrowRegular_of_unknown (ho : old.type = .regular ∨ old.type = .unknown)
    (h : old.type = .unknown ∨ new.type = .unknown) : ∃ e, narrowRegular old new = .error e := by
  unfold narrowRegular
  rcases ho with ho | ho
  · have hoa : old.type ≠ .anti := by
      rw [ho]
      exact RangeType.noConfusion
    obtain ⟨e, he⟩ := isFullSet_of_unknown (h.resolve_left (by rw [ho]; exact RangeType.noConfusion))
    simp only [isFullSet_eq (.inl ho), he, ok_bind, error_bind, getLower_eq hoa, getUpper_eq hoa]
    refine ⟨e, ?_⟩
    split_ifs <;> rfl
  · obtain ⟨e, he⟩ := isFullSet_of_unknown ho
    rw [he]
    exact ⟨e, rfl⟩

/-- The branch of the ranges other than intervals. -/
theorem intervalNarrow_other {cv : List APInt} (hc : ¬ new.isConstant = true)
    (h : old.type = .anti ∨ new.type = .anti ∨ old.type = .empty ∨ new.type = .empty) :
    intervalNarrow cv old new =
      if old.type = .anti ∧ new.type = .anti ∧ new ≠ old then narrowAnti cv old new
      else if new.type = .unknown ∨ ¬ new.IsFull then .ok new else .ok old := by
  have hother : (old.isAnti || new.isAnti || old.isEmpty || new.isEmpty) = true := by
    simp only [Bool.or_eq_true, isAnti_iff, Range.isEmpty_iff, or_assoc]
    exact h
  unfold intervalNarrow
  rw [if_neg hc, if_pos hother]
  simp only [Bool.and_eq_true, isAnti_iff, different_iff, and_assoc]
  by_cases hu : new.type = .unknown
  · simp [hu]
  · simp only [if_neg (mt isUnknown_iff.mp hu), isFullSet_of_known hu, ok_bind, hu, false_or]
    by_cases hf : new.IsFull <;> simp [hf]

theorem retains_intervalNarrow_iff (J : JumpSet) (ho : Canonical old) (hn : Canonical new)
    (hbw : new.bw = old.bw) : Retains old new (intervalNarrow J.constantvector old new) ↔
      ¬ NarrowLoses J.constantvector old new := by
  by_cases hc : new.isConstant = true
  · -- A constant is handed on.
    obtain ⟨htn, hlu⟩ := isConstant_iff.mp hc
    have hnew : intervalNarrow J.constantvector old new = .ok new := by
      unfold intervalNarrow
      rw [if_pos hc]
    rw [hnew]
    refine iff_of_true (retains_new hbw) ?_
    unfold NarrowLoses
    rw [htn]
    cases old.type <;> simp [hlu]
  by_cases hother : old.type = .anti ∨ new.type = .anti ∨ old.type = .empty ∨ new.type = .empty
  · rw [intervalNarrow_other hc hother]
    by_cases hboth : old.type = .anti ∧ new.type = .anti ∧ new ≠ old
    · rw [if_pos hboth]
      exact retains_narrowAnti_iff J ho hn hbw hboth.1 hboth.2.1 hboth.2.2
    · have hloses : ¬ NarrowLoses J.constantvector old new := by
        unfold NarrowLoses
        cases hto : old.type <;> cases htn : new.type <;> simp_all
      rw [if_neg hboth]
      refine iff_of_true ?_ hloses
      split
      · exact retains_new hbw
      · exact retains_old
  have hto : old.type = .regular ∨ old.type = .unknown := by
    cases h : old.type <;> simp_all
  have htn : new.type = .regular ∨ new.type = .unknown := by
    cases h : new.type <;> simp_all
  have hregular : intervalNarrow J.constantvector old new = narrowRegular old new := by
    unfold intervalNarrow
    rw [if_neg hc, if_neg]
    simpa only [Bool.or_eq_true, isAnti_iff, Range.isEmpty_iff, or_assoc] using hother
  rw [hregular]
  by_cases hknown : old.type = .unknown ∨ new.type = .unknown
  · refine iff_of_false ?_ ?_
    · rintro ⟨r, hr, -⟩
      obtain ⟨e, he⟩ := narrowRegular_of_unknown hto hknown
      rw [he] at hr
      cases hr
    · rw [not_not]
      unfold NarrowLoses
      rw [isConstant_iff] at hc
      rcases hto with h1 | h1 <;> rcases htn with h2 | h2 <;> simp_all
  · obtain ⟨h1, h2⟩ := not_or.mp hknown
    have h3 := hto.resolve_right h1
    have h4 := htn.resolve_right h2
    refine iff_of_true (retains_narrowRegular ho hn hbw h3 h4) ?_
    unfold NarrowLoses
    rw [h3, h4]
    exact id

end Descending

/-- `narrow` keeps the common values of both ranges exactly where `NarrowLoses` does not hold,
and `crop` always. -/
theorem narrow_crop_retains_iff (J : JumpSet) (old new : Range) (ho : Canonical old)
    (hn : Canonical new) (hbw : new.bw = old.bw) :
    (Retains old new (intervalNarrow J.constantvector old new) ↔
      ¬ NarrowLoses J.constantvector old new) ∧
    ∀ abstractState, Retains old new (intervalCrop old new abstractState) :=
  ⟨retains_intervalNarrow_iff J ho hn hbw, retains_intervalCrop ho hn hbw⟩

/-- Two holes that overlap, and the gap `narrow` makes of them with the constant 10. -/
def nearHole : Range := ⟨1, 3, 8, .anti, bwValid_eight⟩
def farHole : Range := ⟨2, 20, 8, .anti, bwValid_eight⟩
def gap : Range := ⟨4, 9, 8, .regular, bwValid_eight⟩

theorem narrow_crop_retains_at_eight :
    (Retains nearHole farHole (intervalNarrow jumpSet.constantvector nearHole farHole) ↔
      ¬ NarrowLoses jumpSet.constantvector nearHole farHole) ∧
    ∀ abstractState, Retains nearHole farHole (intervalCrop nearHole farHole abstractState) :=
  narrow_crop_retains_iff jumpSet nearHole farHole (by decide +kernel) (by decide +kernel) rfl

/-- Zero is in neither hole, and it is gone. -/
theorem narrow_not_retaining :
    ¬ ∀ (J : JumpSet) (old new : Range), Canonical old → Canonical new → new.bw = old.bw →
      Retains old new (intervalNarrow J.constantvector old new) ∧
        ∀ abstractState, Retains old new (intervalCrop old new abstractState) := by
  intro h
  obtain ⟨⟨r, hr, -, hsub⟩, -⟩ := h jumpSet nearHole farHole (by decide +kernel)
    (by decide +kernel) rfl
  have hgap : intervalNarrow jumpSet.constantvector nearHole farHole = .ok gap := by
    decide +kernel
  obtain rfl : r = gap := Except.ok.inj (hr.symm.trans hgap)
  have hmem : (0 : Int) ∈ nearHole.gamma ∩ farHole.gamma :=
    ⟨by decide +kernel, by decide +kernel⟩
  have hnot : (0 : Int) ∉ gap.gamma := by decide +kernel
  exact hnot (hsub hmem)

end Meet

end Bambu
