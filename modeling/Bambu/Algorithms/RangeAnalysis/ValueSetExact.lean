/-
  Bambu.Algorithms.RangeAnalysis.ValueSetExact

  The conversions between value sets and ranges, in both directions.

  `tryGetRange` should succeed on intervals and on their complements, with a range that
  holds exactly the elements of the set, and `rangeToValueSet` should lead back
  (`Converts`).  It leads back from Regular ranges with bounds of the domain only: for an
  Anti range it asks for bounds that the accessors refuse, and for an unsigned variable it
  takes the signed bounds of a range for values (`converts_iff`).
-/

import Bambu.Algorithms.RangeAnalysis.ValueSet

namespace Bambu
namespace RangeAnalysis

open Bambu.Math APInt Range

/-! ## The source -/

section Source

variable {S : Type}

def clampToDomain (I : IntervalSets S) (set domain : S) : S := I.intersect set domain

def domainMinusClosed (I : IntervalSets S) (domain : S) (lb ub : APInt) : S :=
  if I.isEmpty domain then I.empty else I.subtract domain (I.closed lb ub)

/-- `rangeToValueSet` -/
def rangeToValueSet (I : IntervalSets S) (range : Range) (t : IntType) : Except Error S :=
  let domain := domainForVar I t
  if range.isUnknown then .ok domain
  else range.isFullSet.bind fun full =>
    if full then .ok domain
    else if range.isEmpty then .ok I.empty
    else range.getLower.bind fun lb => range.getUpper.bind fun ub =>
      if range.isRegular then .ok (clampToDomain I (I.add I.empty (I.closed lb ub)) domain)
      else .ok (clampToDomain I (domainMinusClosed I domain lb ub) domain)

end Source

/-! ## What is asked of a set -/

section Statement

variable {S : Type}

/-- `rangeToValueSet` leads back to the set. -/
def LeadsBack (I : IntervalSets S) (t : IntType) (set : S) (r : Range) : Prop :=
  ∃ set', rangeToValueSet I r t = .ok set' ∧ I.values set' = I.values set

/-- The set is one interval of the domain, or what an interval leaves of it. -/
def Convex (I : IntervalSets S) (t : IntType) (set : S) : Prop :=
  ∃ lo hi, I.values set = Set.Icc lo hi ∨ I.values set = t.values \ Set.Icc lo hi

/-- The range of a set has exactly its elements and leads back to it, and intervals and their
complements have one. -/
structure Converts (I : IntervalSets S) (t : IntType) (set : S) : Prop where
  exact : ∀ r, tryGetRange I set (domainForVar I t) t.bw = .ok (some r) →
    r.gamma = signedResidue t.bw '' I.values set
  back : ∀ r, tryGetRange I set (domainForVar I t) t.bw = .ok (some r) → LeadsBack I t set r
  succeeds : Convex I t set → ∃ r, tryGetRange I set (domainForVar I t) t.bw = .ok (some r)

theorem Interval.eq_iff {i j : Interval} :
    i = j ↔ i.first = j.first ∧ i.last = j.last ∧ i.isClosed = j.isClosed := by
  cases i
  cases j
  simp

instance : DecidableEq Interval := fun _ _ => decidable_of_iff _ Interval.eq_iff.symm

/-- The interval is the domain. -/
def IsDomain (t : IntType) (i : Interval) : Prop :=
  i.first = t.getDomainMin ∧ i.last = t.getDomainMax

instance (t : IntType) (i : Interval) : Decidable (IsDomain t i) :=
    inferInstanceAs (Decidable (_ ∧ _))

/-- The intervals that are converted as they should be.  Only one whose bounds are both stored
as closed becomes a Regular range by itself; with another one the domain is searched for the
hole that it leaves. -/
def RecoversOne (t : IntType) (i : Interval) : Prop :=
  if i.isClosed then i.last.val < half t.bw ∨ (IsDomain t i ∧ t.Bounded)
  else (IsDomain t i ∧ t.Bounded) ∨
    (t.isSigned = false ∧ t.Bounded ∧ i.first = t.getDomainMin ∧ i.last.val + 1 < half t.bw) ∨
    (t.isSigned = true ∧ t.bw = maxDigits ∧ (i.first = t.getDomainMin ∨ i.last = t.getDomainMax))

instance (t : IntType) (i : Interval) : Decidable (RecoversOne t i) := by
  unfold RecoversOne
  infer_instance

/-- The intervals of the sets that are converted as they should be: what has no range stays as
it is. -/
def Recovers (t : IntType) : List Interval → Prop
  | [i] => RecoversOne t i
  | [i, j] => ¬ (i.first = t.getDomainMin ∧ j.last = t.getDomainMax)
  | _ => True

instance (t : IntType) : ∀ l, Decidable (Recovers t l)
  | [] => isTrue trivial
  | [i] => inferInstanceAs (Decidable (RecoversOne t i))
  | [_, _] => inferInstanceAs (Decidable (¬ _))
  | _ :: _ :: _ :: _ => isTrue trivial

end Statement

/-! ## Domains -/

section Domain

variable {t : IntType} {x : Int}

theorem IntType.domain_val_of_lt (ht : t.isSigned = true ∨ t.bw < maxDigits) :
    t.getDomainMin.val = (if t.isSigned then -half t.bw else 0) ∧
      t.getDomainMax.val = (if t.isSigned then half t.bw else 2 * half t.bw) - 1 := by
  obtain ⟨h0, hw⟩ := t.bw_valid
  unfold IntType.getDomainMin IntType.getDomainMax
  cases hs : t.isSigned with
  | true => exact ⟨getSignedMinValue_val h0 hw, getSignedMaxValue_val h0 hw⟩
  | false =>
    have hlt : t.bw < maxDigits := ht.resolve_left (by rw [hs]; exact Bool.false_ne_true)
    exact ⟨SignMag.val_zero, getMaxValue_val h0 hlt⟩

/-- The greatest unsigned type has no values. -/
theorem IntType.lt_of_mem (hx : x ∈ t.values) : t.isSigned = true ∨ t.bw < maxDigits := by
  cases hs : t.isSigned with
  | true => exact .inl rfl
  | false =>
    refine .inr (Nat.lt_of_le_of_ne t.bw_valid.2 fun hw => ?_)
    have hmax : t.getDomainMax.val = -1 := by
      unfold IntType.getDomainMax
      rw [hs, if_neg Bool.false_ne_true, hw]
      exact getMaxValue_maxDigits
    have hmin : t.getDomainMin.val = 0 := by
      unfold IntType.getDomainMin
      rw [hs, if_neg Bool.false_ne_true]
      exact getMinValue_val
    have h1 := hx.1
    have h2 := hx.2
    omega

/-- A signed type by its limits, and an unsigned one. -/
theorem IntType.limits (ht : t.isSigned = true ∨ t.bw < maxDigits) :
    (t.isSigned = true ∧ t.getDomainMin.val = -half t.bw ∧ t.getDomainMax.val = half t.bw - 1 ∧
        t.Bounded) ∨
      (t.isSigned = false ∧ t.bw < maxDigits ∧ t.getDomainMin.val = 0 ∧
        t.getDomainMax.val = 2 * half t.bw - 1 ∧ 2 * half t.bw ≤ half maxDigits ∧
        (t.Bounded ↔ t.getDomainMax.val < half maxDigits - 1)) := by
  obtain ⟨h1, h2⟩ := IntType.domain_val_of_lt ht
  obtain ⟨h0, hw⟩ := t.bw_valid
  cases hs : t.isSigned with
  | true =>
    rw [hs, if_pos rfl] at h1 h2
    exact .inl ⟨rfl, h1, h2, .inl hs⟩
  | false =>
    rw [hs, if_neg Bool.false_ne_true] at h1 h2
    have hlt : t.bw < maxDigits := ht.resolve_left (by rw [hs]; exact Bool.false_ne_true)
    have hcap := two_mul_half_le h0 hlt
    refine .inr ⟨rfl, hlt, h1, h2, hcap, ?_⟩
    rw [h2]
    constructor
    · intro hb
      have hlt' : t.bw + 1 < maxDigits := hb.resolve_left (by rw [hs]; exact Bool.false_ne_true)
      have hroom := two_mul_half_le h0 (show t.bw < t.bw + 1 by omega)
      have hroom' := two_mul_half_le (show 0 < t.bw + 1 by omega) hlt'
      have hP := half_pos (t.bw + 1)
      omega
    · intro hlt'
      refine .inr (Nat.lt_of_le_of_ne hlt fun heq => ?_)
      -- One digit less than the capacity is half of it.
      have hhalf : half maxDigits = 2 * half t.bw := by
        rw [two_mul_half h0, ← heq]
        rfl
      omega

end Domain

/-! ## Leading back -/

section Back

variable {S : Type} {I : IntervalSets S} {t : IntType} {set : S} {r : Range}

theorem leadsBack_of_empty (hI : I.Lawful) (hr : r.type = .empty) (h : I.values set = ∅) :
    LeadsBack I t set r := by
  have hunknown : r.isUnknown = false := by unfold isUnknown; rw [hr]; rfl
  have hempty : r.isEmpty = true := by unfold isEmpty; rw [hr]; rfl
  have hfull : r.isFullSet = .ok false := by
    unfold isFullSet
    rw [throwAssert_of (by simp [hunknown]), ok_bind, hempty]
    rfl
  refine ⟨I.empty, ?_, hI.values_empty.trans h.symm⟩
  unfold rangeToValueSet
  rw [hunknown, hfull, hempty]
  rfl

/-- An Anti range never leads back. -/
theorem not_leadsBack_of_anti (hr : r.type = .anti) : ¬ LeadsBack I t set r := by
  have hunknown : r.isUnknown = false := by unfold isUnknown; rw [hr]; rfl
  have hempty : r.isEmpty = false := by unfold isEmpty; rw [hr]; rfl
  have hlower : r.getLower = .error (.assertion "Lower bound not valid for Anti range") := by
    unfold getLower
    rw [throwAssert_of_not (by simp [isAnti, hr])]
    rfl
  have hfull : r.isFullSet = .ok false := by
    rw [isFullSet_eq (.inr hr), decide_eq_false (by rw [IsFull, hr]; simp)]
  rintro ⟨set', h, -⟩
  unfold rangeToValueSet at h
  rw [hunknown, hfull, hempty, hlower] at h
  cases h

theorem leadsBack_of_regular (hI : I.Lawful) (hr : r.type = .regular) :
    LeadsBack I t set r ↔
      I.values set = if r.IsFull then t.values else Set.Icc r.l.val r.u.val ∩ t.values := by
  have hne : r.type ≠ .anti := by rw [hr]; decide
  have hunknown : r.isUnknown = false := by unfold isUnknown; rw [hr]; rfl
  have hempty : r.isEmpty = false := by unfold isEmpty; rw [hr]; rfl
  have hregular : r.isRegular = true := by unfold isRegular; rw [hr]; rfl
  have hrun : rangeToValueSet I r t = .ok (if r.IsFull then domainForVar I t
      else clampToDomain I (I.add I.empty (I.closed r.l r.u)) (domainForVar I t)) := by
    unfold rangeToValueSet
    rw [isFullSet_eq (.inl hr), getLower_eq hne, getUpper_eq hne, hunknown, hempty, hregular]
    by_cases hfull : r.IsFull <;> simp [hfull, Except.bind]
  have hvalues : I.values (if r.IsFull then domainForVar I t
      else clampToDomain I (I.add I.empty (I.closed r.l r.u)) (domainForVar I t)) =
      if r.IsFull then t.values else Set.Icc r.l.val r.u.val ∩ t.values := by
    by_cases hfull : r.IsFull
    · rw [if_pos hfull, if_pos hfull, values_domainForVar hI]
    · rw [if_neg hfull, if_neg hfull, clampToDomain, hI.values_intersect, hI.values_add,
        hI.values_empty, hI.values_closed, Set.empty_union, values_domainForVar hI]
  constructor
  · rintro ⟨set', hset', heq⟩
    rw [hrun] at hset'
    cases hset'
    rw [← heq, hvalues]
  · intro h
    exact ⟨_, hrun, hvalues.trans h.symm⟩

/-- The range that is built has exactly the elements of the set and leads back to it. -/
def Restores (I : IntervalSets S) (t : IntType) (set : S) (x : Except Error Range) : Prop :=
  ∃ r, x = .ok r ∧ r.gamma = signedResidue t.bw '' I.values set ∧ LeadsBack I t set r

variable {x : Except Error Range} {a b : Int}

theorem restores_of_regular (hI : I.Lawful) (hx : Yields x t.bw .regular a b) :
    Restores I t set x ↔
      (∀ v, v ∈ signedRange t.bw ∧ a ≤ v ∧ v ≤ b ↔ v ∈ signedResidue t.bw '' I.values set) ∧
        I.values set = if a ≤ -half t.bw ∧ half t.bw - 1 ≤ b then t.values
          else Set.Icc a b ∩ t.values := by
  obtain ⟨r, rfl, hw, hr, rfl, rfl⟩ := hx
  have hfull : r.IsFull ↔ r.l.val ≤ -half t.bw ∧ half t.bw - 1 ≤ r.u.val := by
    rw [IsFull, hw]
    exact and_iff_right hr
  have hgamma : r.gamma = signedResidue t.bw '' I.values set ↔
      ∀ v, v ∈ signedRange t.bw ∧ r.l.val ≤ v ∧ v ≤ r.u.val ↔
        v ∈ signedResidue t.bw '' I.values set := by
    rw [Set.ext_iff]
    refine forall_congr' fun v => ?_
    rw [mem_gamma_of_regular hr, hw]
    exact Iff.rfl
  rw [← hgamma, if_congr hfull.symm rfl rfl, ← leadsBack_of_regular hI hr]
  constructor
  · rintro ⟨r', hr', h⟩
    cases hr'
    exact h
  · exact fun h => ⟨r, rfl, h⟩

theorem not_restores_of_anti (hx : Yields x t.bw .anti a b) : ¬ Restores I t set x := by
  obtain ⟨r, rfl, -, hr, -⟩ := hx
  rintro ⟨r', hr', -, hback⟩
  cases hr'
  exact not_leadsBack_of_anti hr hback

end Back

/-! ## Which ranges do -/

section Shapes

variable {S : Type} {I : IntervalSets S} {t : IntType} {set : S} {lb ub : APInt}

/-- Residues of values that are signed ones. -/
theorem mem_residues_iff {s : Set Int} {w : Nat} (h0 : 0 < w) (hs : s ⊆ signedRange w) (v : Int) :
    v ∈ signedResidue w '' s ↔ v ∈ s := by
  constructor
  · rintro ⟨x, hx, rfl⟩
    rwa [signedResidue_of_mem h0 (hs hx).1 (hs hx).2]
  · intro hv
    exact ⟨v, hv, signedResidue_of_mem h0 (hs hv).1 (hs hv).2⟩

/-- One interval. -/
theorem restores_regular_iff (hI : I.Lawful) (hset : I.values set = Set.Icc lb.val ub.val)
    (hlb : lb.val ∈ t.values) (hub : ub.val ∈ t.values) (hle : lb.val ≤ ub.val) :
    Restores I t set (ofBounds .regular t.bw lb ub) ↔
      ub.val < half t.bw ∨ ((lb = t.getDomainMin ∧ ub = t.getDomainMax) ∧ t.Bounded) := by
  obtain ⟨h0, hw⟩ := t.bw_valid
  have hP := half_pos t.bw
  have hcap := half_le_half hw
  obtain ⟨hlb1, hlb2⟩ := hlb
  obtain ⟨hub1, hub2⟩ := hub
  rw [SignMag.eq_iff, SignMag.eq_iff]
  by_cases hhi : ub.val < half t.bw
  · -- The bounds are signed values, and kept.
    refine iff_of_true ?_ (.inl hhi)
    have hlo : -half t.bw ≤ lb.val := by
      rcases IntType.limits (IntType.lt_of_mem ⟨hlb1, hlb2⟩) with h | h <;> omega
    rw [restores_of_regular hI (ofBounds_regular_inside t.bw_valid hlo hle hhi), hset]
    refine ⟨fun v => ?_, ?_⟩
    · rw [mem_residues_iff h0 (fun x hx => ⟨hlo.trans hx.1, hx.2.trans_lt hhi⟩)]
      exact ⟨fun h => h.2, fun h => ⟨⟨hlo.trans h.1, h.2.trans_lt hhi⟩, h⟩⟩
    · unfold IntType.values
      split
      case isTrue hfull =>
        have h1 : t.getDomainMin.val = lb.val := by
          rcases IntType.limits (IntType.lt_of_mem ⟨hlb1, hlb2⟩) with h | h <;> omega
        have h2 : t.getDomainMax.val = ub.val := by
          rcases IntType.limits (IntType.lt_of_mem ⟨hlb1, hlb2⟩) with h | h <;> omega
        rw [h1, h2]
      case isFalse =>
        rw [Set.inter_eq_left.mpr (Set.Icc_subset_Icc hlb1 hub2)]
  · rw [or_iff_right hhi]
    rcases IntType.limits (IntType.lt_of_mem ⟨hlb1, hlb2⟩) with h | ⟨hs, hlt, hmin, hmax, hcap',
      hbounded⟩
    · omega
    rw [hbounded]
    have hubr : signedResidue t.bw ub.val = ub.val - 2 * half t.bw :=
      signedResidue_past_upper h0 (by omega) (by omega)
    by_cases hfin : ub.val < half maxDigits - 1
    · by_cases hlow : lb.val < half t.bw
      · by_cases hlen : ub.val - lb.val < 2 * half t.bw - 1
        · -- The hole between the bounds, read as signed values, is stored.
          refine iff_of_false (not_restores_of_anti (yields_regular t.bw_valid (by omega) hle hfin
            ((normalizeRegular_past_upper h0 hlt (by omega) hlow (by omega) hlen).repair
              (by omega)))) (by omega)
        · refine iff_of_true ?_ (by omega)
          rw [restores_of_regular hI (yields_regular t.bw_valid (by omega) hle hfin
            ((normalizeRegular_past_upper_long h0 hlt (by omega) hlow (by omega) (by omega)
              (by omega)).repair_crossed (by omega))), hset, if_pos (by omega),
            image_Icc_of_long h0 (by omega)]
          refine ⟨fun v => ⟨fun h => h.1, fun h => ⟨h, ?_⟩⟩, ?_⟩
          · obtain ⟨h1, h2⟩ := h
            omega
          · unfold IntType.values
            rw [show t.getDomainMin.val = lb.val by omega, show t.getDomainMax.val = ub.val by omega]
      · -- The signed bounds are not values of the domain.
        have hlbr : signedResidue t.bw lb.val = lb.val - 2 * half t.bw :=
          signedResidue_past_upper h0 (by omega) (by omega)
        refine iff_of_false ?_ (by omega)
        rw [restores_of_regular hI (yields_regular t.bw_valid (by omega) hle hfin
          ((normalizeRegular_above h0 hlt (by omega) hle).repair (by omega))), hset,
          if_neg (by omega)]
        rintro ⟨-, hback⟩
        have hmem : lb.val ∈ Set.Icc lb.val ub.val := ⟨le_rfl, hle⟩
        rw [hback] at hmem
        have h2 := hmem.1.2
        omega
    · -- The greatest value of one digit less than the capacity stands for infinity.
      refine iff_of_false ?_ (by omega)
      by_cases hlow : lb.val < half t.bw
      · rw [restores_of_regular hI (yields_regular_toMax t.bw_valid (by omega) (by omega) (by omega)
          (by omega) ((normalizeToMax_inside t.bw_valid (by omega) hlow).repair (by omega))), hset]
        rintro ⟨hexact, -⟩
        have hmem := (hexact _).mpr ⟨ub.val, ⟨hle, le_rfl⟩, rfl⟩
        have h2 := hmem.2.1
        omega
      · rw [restores_of_regular hI (yields_regular_toMax t.bw_valid (by omega) (by omega) (by omega)
          (by omega) ((normalizeToMax_above h0 hlt (by omega) (by omega)).repair (by omega))), hset,
          if_neg (by omega)]
        rintro ⟨-, hback⟩
        have hmem : lb.val ∈ Set.Icc lb.val ub.val := ⟨le_rfl, hle⟩
        rw [hback] at hmem
        have h2 := hmem.1.2
        omega

/-- All but one interval. -/
theorem restores_anti_iff (hI : I.Lawful) (hset : I.values set = t.values \ Set.Icc lb.val ub.val)
    (hlb : lb.val ∈ t.values) (hub : ub.val ∈ t.values) (hle : lb.val ≤ ub.val)
    (hne : ¬ (lb = t.getDomainMin ∧ ub = t.getDomainMax)) :
    Restores I t set (ofBounds .anti t.bw lb ub) ↔
      (t.isSigned = false ∧ t.Bounded ∧ ub = t.getDomainMax ∧ lb.val < half t.bw) ∨
        (t.isSigned = true ∧ t.bw = maxDigits ∧
          (lb = t.getDomainMin ∨ ub = t.getDomainMax)) := by
  obtain ⟨h0, hw⟩ := t.bw_valid
  have hP := half_pos t.bw
  have hcap := half_le_half hw
  obtain ⟨hlb1, hlb2⟩ := hlb
  obtain ⟨hub1, hub2⟩ := hub
  have hmem : ∀ v, v ∈ I.values set ↔
      (t.getDomainMin.val ≤ v ∧ v ≤ t.getDomainMax.val) ∧ ¬ (lb.val ≤ v ∧ v ≤ ub.val) := fun v => by
    rw [hset]
    exact Iff.rfl
  rw [SignMag.eq_iff, SignMag.eq_iff] at hne
  rw [SignMag.eq_iff, SignMag.eq_iff]
  rcases IntType.limits (IntType.lt_of_mem ⟨hlb1, hlb2⟩) with
    ⟨hs, hmin, hmax, -⟩ | ⟨hs, hlt, hmin, hmax, hcap', hbounded⟩
  · rw [hs]
    have hsigned : I.values set ⊆ signedRange t.bw := fun v hv => by
      obtain ⟨⟨h1, h2⟩, -⟩ := (hmem v).mp hv
      exact ⟨by omega, by omega⟩
    have hbw : t.bw = maxDigits ↔ half maxDigits = half t.bw := by
      refine ⟨fun h => by rw [h], fun h => ?_⟩
      rcases Nat.lt_or_eq_of_le hw with hlt | heq
      · have := two_mul_half_le h0 hlt
        omega
      · exact heq
    rw [hbw]
    simp only [Bool.true_eq_false, false_and, false_or, true_and]
    -- At the capacity the ends of the domain stand for infinity.
    by_cases hfrom : lb.val = -half maxDigits
    · refine iff_of_true ?_ (by omega)
      have hsucc : (ub + MinDelta).val = ub.val + 1 := add_minDelta_val (by omega)
      rw [restores_of_regular hI (yields_anti_fromMin t.bw_valid hfrom (by omega) (by omega)
        ((normalizeToMax_inside t.bw_valid (by omega) (by omega)).repair (by omega)))]
      refine ⟨fun v => ?_, ?_⟩
      · rw [mem_residues_iff h0 hsigned, hmem, mem_signedRange]
        omega
      · rw [if_neg (by omega)]
        ext v
        rw [hmem, IntType.values, Set.mem_inter_iff, Set.mem_Icc, Set.mem_Icc]
        omega
    by_cases hto : ub.val = half maxDigits - 1
    · refine iff_of_true ?_ (by omega)
      have hpred : (lb - MinDelta).val = lb.val - 1 := sub_minDelta_val (by omega)
      rw [restores_of_regular hI (yields_anti_toMax t.bw_valid (by omega) (by omega) hto
        ((normalizeFromMin_inside t.bw_valid (by omega) (by omega)).repair (by omega)))]
      refine ⟨fun v => ?_, ?_⟩
      · rw [mem_residues_iff h0 hsigned, hmem, mem_signedRange]
        omega
      · rw [if_neg (by omega)]
        ext v
        rw [hmem, IntType.values, Set.mem_inter_iff, Set.mem_Icc, Set.mem_Icc]
        omega
    refine iff_of_false (not_restores_of_anti (yields_anti t.bw_valid (by omega) hle (by omega)
      ((normalizeAnti_inside t.bw_valid (by omega) hle (by omega)).repair hle))) (by omega)
  · rw [hs, hbounded]
    simp only [Bool.false_eq_true, false_and, or_false, true_and]
    by_cases hfin : ub.val < half maxDigits - 1
    · by_cases hlow : lb.val < half t.bw
      · by_cases hhi : ub.val < half t.bw
        · exact iff_of_false (not_restores_of_anti (yields_anti t.bw_valid (by omega) hle hfin
            ((normalizeAnti_inside t.bw_valid (by omega) hle hhi).repair hle))) (by omega)
        · -- What is left is an interval around zero, and the domain has its upper part.
          rw [restores_of_regular hI (yields_anti t.bw_valid (by omega) hle hfin
            ((normalizeAnti_past_upper h0 hlt (by omega) hlow (by omega) (by omega)).repair
              (by omega))), if_neg (by omega)]
          by_cases hend : ub.val = t.getDomainMax.val
          · refine iff_of_true ⟨fun v => ?_, ?_⟩ (by omega)
            · rw [mem_residues_iff h0, hmem, mem_signedRange]
              · omega
              · intro x hx
                obtain ⟨⟨h1, h2⟩, h3⟩ := (hmem x).mp hx
                exact ⟨by omega, by omega⟩
            · ext v
              rw [hmem, IntType.values, Set.mem_inter_iff, Set.mem_Icc, Set.mem_Icc]
              omega
          · refine iff_of_false ?_ (by omega)
            rintro ⟨-, hback⟩
            have hin := (hmem (ub.val + 1)).mpr ⟨⟨by omega, by omega⟩, by omega⟩
            rw [hback] at hin
            have h2 := hin.1.2
            omega
      · have hlbr : signedResidue t.bw lb.val = lb.val - 2 * half t.bw :=
          signedResidue_past_upper h0 (by omega) (by omega)
        have hubr : signedResidue t.bw ub.val = ub.val - 2 * half t.bw :=
          signedResidue_past_upper h0 (by omega) (by omega)
        exact iff_of_false (not_restores_of_anti (yields_anti t.bw_valid (by omega) hle hfin
          ((normalizeAnti_above h0 hlt (by omega) hle (by omega)).repair (by omega)))) (by omega)
    · -- A hole up to the value that stands for infinity.
      refine iff_of_false ?_ (by omega)
      have hpred : (lb - MinDelta).val = lb.val - 1 := sub_minDelta_val (by omega)
      by_cases hlow : lb.val - 1 < half t.bw
      · rw [restores_of_regular hI (yields_anti_toMax t.bw_valid (by omega) (by omega) (by omega)
          ((normalizeFromMin_inside t.bw_valid (by omega) (by omega)).repair (by omega)))]
        rintro ⟨hexact, -⟩
        obtain ⟨x, hx, hres⟩ := (hexact (-half t.bw)).mp ⟨⟨le_rfl, by omega⟩, le_rfl, by omega⟩
        obtain ⟨⟨h1, h2⟩, h3⟩ := (hmem x).mp hx
        rw [signedResidue_of_mem h0 (by omega) (by omega)] at hres
        omega
      · exact not_restores_of_anti (yields_anti_toMax t.bw_valid (by omega) (by omega) (by omega)
          ((normalizeFromMin_above h0 hlt (by omega) (by omega)).repair (by omega)))

end Shapes

/-! ## What the search finds -/

section Search

variable {S : Type} {I : IntervalSets S} {t : IntType} {set : S}

/-- There is room for the neighbours of the values. -/
theorem IntType.room (ht : t.isSigned = true ∨ t.bw < maxDigits) :
    -(2 * half maxDigits) + 1 < t.getDomainMin.val ∧
      t.getDomainMax.val + 1 < 2 * half maxDigits := by
  have hcap := half_le_half t.bw_valid.2
  have h2 := two_le_half_maxDigits
  have hP := half_pos t.bw
  rcases IntType.limits ht with h | h <;> omega

/-- The step of the loop at an interval that is not behind the current value. -/
theorem findHole_cons {dm cur : APInt} {i : Interval} {rest : List Interval}
    {missing : Option (APInt × APInt)} (hcur : cur.val ≤ i.first.val)
    (hle : i.first.val ≤ i.last.val) (hlo : -(2 * half maxDigits) + 1 < i.first.val)
    (hhi : i.last.val + 1 < 2 * half maxDigits) :
    findHole dm (i :: rest) cur missing =
      if cur.val < i.first.val ∧ missing.isSome then none
      else
        let missing' := if cur.val < i.first.val then some (cur, i.first - MinDelta) else missing
        if dm.val ≤ i.last.val then some (i.last + MinDelta, missing')
        else findHole dm rest (i.last + MinDelta) missing' := by
  have hgap : (i.first - MinDelta).val = i.first.val - 1 := sub_minDelta_val hlo
  have hnext : (i.last + MinDelta).val = i.last.val + 1 := add_minDelta_val hhi
  have hadv : (if cur < i.last + MinDelta then i.last + MinDelta else cur) = i.last + MinDelta :=
    if_pos (by rw [SignMag.lt_iff]; omega)
  rw [findHole, if_neg (by rw [SignMag.lt_iff]; omega)]
  dsimp only
  rw [hadv]
  simp only [SignMag.lt_iff, SignMag.le_iff, hgap, hnext, Int.lt_add_one_iff]
  by_cases hlt : cur.val < i.first.val
  · rw [if_pos ⟨hlt, by omega⟩]
    cases missing <;> simp [hlt]
  · rw [if_neg (fun h => hlt h.1)]
    simp [hlt]

/-- What `tryGetRange` does with what the loop returns. -/
theorem tryGetRange_search (hI : I.Lawful) (hlist : I.intervals set ≠ [])
    (hone : singleClosedInterval I set = none) (hdom : t.getDomainMin.val ≤ t.getDomainMax.val) :
    tryGetRange I set (domainForVar I t) t.bw =
      match findHole t.getDomainMax (I.intervals set) t.getDomainMin none with
      | none => .ok none
      | some (current, missing) =>
        if current ≤ t.getDomainMax then
          if missing.isSome then .ok none
          else some <$> ofBounds .anti t.bw current t.getDomainMax
        else
          match missing with
          | none => some <$> ofBounds .regular t.bw t.getDomainMin t.getDomainMax
          | some (missingL, missingU) => some <$> ofBounds .anti t.bw missingL missingU := by
  have hset : I.isEmpty set = false := by
    rw [← Bool.not_eq_true, hI.isEmpty_iff]
    intro hempty
    obtain ⟨i, hi⟩ := List.exists_mem_of_ne_nil _ hlist
    have hmem := (hI.mem_iff set i.first.val).mpr ⟨i, hi, le_rfl, hI.first_le_last set i hi⟩
    rw [hempty] at hmem
    exact hmem
  have hdomain : I.isEmpty (domainForVar I t) = false := by
    rw [← Bool.not_eq_true, hI.isEmpty_iff, values_domainForVar hI]
    intro hempty
    have hmem : t.getDomainMin.val ∈ t.values := ⟨le_rfl, hdom⟩
    rw [hempty] at hmem
    exact hmem
  have hlower : I.lower (domainForVar I t) = t.getDomainMin := hI.lower_closed _ _ hdom
  have hupper : I.upper (domainForVar I t) = t.getDomainMax := hI.upper_closed _ _ hdom
  unfold tryGetRange
  rw [hset, hone, hdomain, hlower, hupper]
  rfl

/-- The bounds of the intervals of a set of values. -/
theorem interval_bounds (hI : I.Lawful) (hset : I.values set ⊆ t.values) {i : Interval}
    (hi : i ∈ I.intervals set) :
    i.first.val ∈ t.values ∧ i.last.val ∈ t.values ∧ i.first.val ≤ i.last.val := by
  have hle := hI.first_le_last set i hi
  exact ⟨hset ((hI.mem_iff set _).mpr ⟨i, hi, le_rfl, hle⟩),
    hset ((hI.mem_iff set _).mpr ⟨i, hi, hle, le_rfl⟩), hle⟩

/-- The search on one interval. -/
theorem tryGetRange_open (hI : I.Lawful) (hset : I.values set ⊆ t.values) {i : Interval}
    (hlist : I.intervals set = [i]) (hopen : i.isClosed = false) :
    tryGetRange I set (domainForVar I t) t.bw =
      if i.first = t.getDomainMin then
        if i.last = t.getDomainMax then
          some <$> ofBounds .regular t.bw t.getDomainMin t.getDomainMax
        else some <$> ofBounds .anti t.bw (i.last + MinDelta) t.getDomainMax
      else if i.last = t.getDomainMax then
        some <$> ofBounds .anti t.bw t.getDomainMin (i.first - MinDelta)
      else .ok none := by
  obtain ⟨⟨h1, h2⟩, ⟨h3, h4⟩, hle⟩ :=
    interval_bounds hI hset (i := i) (by rw [hlist]; exact List.mem_cons_self)
  have hroom := IntType.room (IntType.lt_of_mem ⟨h1, h2⟩)
  have hnext : (i.last + MinDelta).val = i.last.val + 1 := add_minDelta_val (by omega)
  have hone : singleClosedInterval I set = none := by
    unfold singleClosedInterval
    rw [hlist]
    exact if_neg (by rw [hopen]; exact Bool.false_ne_true)
  rw [tryGetRange_search hI (by rw [hlist]; exact List.cons_ne_nil _ _) hone (by omega), hlist,
    findHole_cons h1 hle (by omega) (by omega)]
  simp only [SignMag.eq_iff, Option.isSome_none, Bool.false_eq_true, and_false, if_false]
  by_cases hfirst : t.getDomainMin.val < i.first.val
  · by_cases hlast : t.getDomainMax.val ≤ i.last.val
    · simp only [if_pos hfirst, if_pos hlast, SignMag.le_iff, hnext]
      rw [if_neg (by omega), if_neg (by omega), if_pos (by omega)]
    · simp only [if_pos hfirst, if_neg hlast, findHole, SignMag.le_iff, hnext, Option.isSome_some,
        if_true]
      rw [if_pos (show i.last.val + 1 ≤ t.getDomainMax.val by omega), if_neg (by omega),
        if_neg (by omega)]
  · by_cases hlast : t.getDomainMax.val ≤ i.last.val
    · simp only [if_neg hfirst, if_pos hlast, SignMag.le_iff, hnext]
      rw [if_neg (by omega), if_pos (by omega), if_pos (by omega)]
    · simp only [if_neg hfirst, if_neg hlast, findHole, SignMag.le_iff, hnext, Option.isSome_none,
        Bool.false_eq_true, if_false]
      rw [if_pos (show i.last.val + 1 ≤ t.getDomainMax.val by omega), if_pos (by omega),
        if_neg (by omega)]

/-- The search on two intervals or more finds one hole only if the set is the domain but for
one interval inside. -/
theorem tryGetRange_two (hI : I.Lawful) (hset : I.values set ⊆ t.values) {i j : Interval}
    {rest : List Interval} (hlist : I.intervals set = i :: j :: rest) :
    tryGetRange I set (domainForVar I t) t.bw =
      if i.first = t.getDomainMin ∧ j.last = t.getDomainMax then
        some <$> ofBounds .anti t.bw (i.last + MinDelta) (j.first - MinDelta)
      else .ok none := by
  have hmem : ∀ k ∈ i :: j :: rest, k ∈ I.intervals set := fun k hk => hlist ▸ hk
  obtain ⟨⟨h1, h2⟩, ⟨h3, h4⟩, hle⟩ := interval_bounds hI hset (hmem i List.mem_cons_self)
  obtain ⟨⟨h5, h6⟩, ⟨h7, h8⟩, hle'⟩ :=
    interval_bounds hI hset (hmem j (List.mem_cons_of_mem _ List.mem_cons_self))
  have hroom := IntType.room (IntType.lt_of_mem ⟨h1, h2⟩)
  have happart := hI.apart set
  rw [hlist] at happart
  obtain ⟨hi, hrest⟩ := List.pairwise_cons.mp happart
  have hij := hi j List.mem_cons_self
  have hnext : (i.last + MinDelta).val = i.last.val + 1 := add_minDelta_val (by omega)
  have hnext' : (j.last + MinDelta).val = j.last.val + 1 := add_minDelta_val (by omega)
  have hone : singleClosedInterval I set = none := by
    unfold singleClosedInterval
    rw [hlist]
  rw [tryGetRange_search hI (by rw [hlist]; exact List.cons_ne_nil _ _) hone (by omega), hlist,
    findHole_cons h1 hle (by omega) (by omega)]
  simp only [SignMag.eq_iff, Option.isSome_none, Bool.false_eq_true, and_false, if_false]
  rw [if_neg (show ¬ t.getDomainMax.val ≤ i.last.val by omega),
    findHole_cons (by omega) hle' (by omega) (by omega)]
  -- The gap between the two is a hole.
  have hgap : (i.last + MinDelta).val < j.first.val := by omega
  by_cases hfirst : t.getDomainMin.val < i.first.val
  · simp only [if_pos hfirst, hgap, Option.isSome_some, and_self, if_true]
    rw [if_neg (by omega)]
  · simp only [if_neg hfirst, hgap, Option.isSome_none, Bool.false_eq_true, and_false, if_false,
      if_true]
    by_cases hlast : t.getDomainMax.val ≤ j.last.val
    · simp only [if_pos hlast, SignMag.le_iff, hnext']
      rw [if_neg (by omega), if_pos ⟨by omega, by omega⟩]
    · rw [if_neg hlast, if_neg (by omega)]
      cases rest with
      | nil =>
        simp only [findHole, SignMag.le_iff, hnext', Option.isSome_some, if_true]
        rw [if_pos (show j.last.val + 1 ≤ t.getDomainMax.val by omega)]
      | cons k rest =>
        have hjk := (List.pairwise_cons.mp hrest).1 k List.mem_cons_self
        obtain ⟨⟨h9, h10⟩, ⟨h11, h12⟩, hle''⟩ := interval_bounds hI hset
          (hmem k (List.mem_cons_of_mem _ (List.mem_cons_of_mem _ List.mem_cons_self)))
        rw [findHole_cons (by omega) hle'' (by omega) (by omega), if_pos ⟨by omega, rfl⟩]

end Search

/-! ## The sets that are converted as they should be -/

section Converts

variable {S : Type} {I : IntervalSets S} {t : IntType} {set : S} {x : Except Error Range}

theorem converts_iff_restores (hconv : Convex I t set)
    (h : tryGetRange I set (domainForVar I t) t.bw = some <$> x) :
    Converts I t set ↔ Restores I t set x := by
  constructor
  · intro hf
    obtain ⟨r, hr⟩ := hf.succeeds hconv
    exact ⟨r, map_some_ok (h ▸ hr), hf.exact r hr, hf.back r hr⟩
  · rintro ⟨r, rfl, hexact, hback⟩
    have hr : ∀ r', tryGetRange I set (domainForVar I t) t.bw = .ok (some r') → r' = r := by
      intro r' hr'
      rw [h] at hr'
      cases map_some_ok hr'
      rfl
    exact ⟨fun r' hr' => hr r' hr' ▸ hexact, fun r' hr' => hr r' hr' ▸ hback, fun _ => ⟨r, h⟩⟩

/-- A set that has no range is only asked not to be convex. -/
theorem converts_iff_not_convex (h : tryGetRange I set (domainForVar I t) t.bw = .ok none) :
    Converts I t set ↔ ¬ Convex I t set := by
  constructor
  · intro hf hconv
    obtain ⟨r, hr⟩ := hf.succeeds hconv
    rw [h] at hr
    cases hr
  · intro hconv
    have hnone : ∀ r, tryGetRange I set (domainForVar I t) t.bw ≠ .ok (some r) := by
      intro r hr
      rw [h] at hr
      cases hr
    exact ⟨fun r hr => absurd hr (hnone r), fun r hr => absurd hr (hnone r),
      fun hc => absurd hc hconv⟩

theorem converts_of_nil (hI : I.Lawful) (hlist : I.intervals set = []) : Converts I t set := by
  have hvalues : I.values set = ∅ := by
    ext y
    rw [hI.mem_iff, hlist]
    simp
  have hempty : I.isEmpty set = true := (hI.isEmpty_iff set).mpr hvalues
  have hconv : Convex I t set := ⟨1, 0, .inl (by rw [hvalues, Set.Icc_eq_empty (by omega)])⟩
  have hrun : tryGetRange I set (domainForVar I t) t.bw = some <$> ofType .empty t.bw := by
    unfold tryGetRange
    rw [hempty]
    rfl
  rw [converts_iff_restores hconv hrun, ofType, dif_pos t.bw_valid]
  refine ⟨_, rfl, ?_, leadsBack_of_empty hI rfl hvalues⟩
  rw [hvalues, Set.image_empty]
  exact gamma_of_empty rfl

theorem values_one (hI : I.Lawful) {i : Interval} (hlist : I.intervals set = [i]) :
    I.values set = Set.Icc i.first.val i.last.val := by
  ext y
  rw [hI.mem_iff, hlist]
  simp

theorem converts_one_iff (hI : I.Lawful) (hset : I.values set ⊆ t.values) {i : Interval}
    (hlist : I.intervals set = [i]) : Converts I t set ↔ RecoversOne t i := by
  obtain ⟨⟨h1, h2⟩, ⟨h3, h4⟩, hle⟩ :=
    interval_bounds hI hset (i := i) (by rw [hlist]; exact List.mem_cons_self)
  have hroom := IntType.room (IntType.lt_of_mem ⟨h1, h2⟩)
  have hvalues := values_one hI hlist
  have hconv : Convex I t set := ⟨_, _, .inl hvalues⟩
  unfold RecoversOne
  cases hclosed : i.isClosed with
  | true =>
    have hrun : tryGetRange I set (domainForVar I t) t.bw =
        some <$> ofBounds .regular t.bw i.first i.last := by
      have hempty : I.isEmpty set = false := by
        rw [← Bool.not_eq_true, hI.isEmpty_iff, hvalues]
        exact Set.nonempty_iff_ne_empty.mp ⟨i.first.val, le_rfl, hle⟩
      have hone : singleClosedInterval I set = some (i.first, i.last) := by
        unfold singleClosedInterval
        rw [hlist]
        exact if_pos hclosed
      unfold tryGetRange
      rw [hempty, hone]
      rfl
    rw [converts_iff_restores hconv hrun,
      restores_regular_iff hI hvalues ⟨h1, h2⟩ ⟨h3, h4⟩ hle, if_pos rfl]
    exact Iff.rfl
  | false =>
    have hrun := tryGetRange_open hI hset hlist hclosed
    rw [if_neg Bool.false_ne_true, IsDomain]
    by_cases hfirst : i.first = t.getDomainMin
    · by_cases hlast : i.last = t.getDomainMax
      · -- There is no hole.
        rw [if_pos hfirst, if_pos hlast] at hrun
        rw [converts_iff_restores hconv hrun, restores_regular_iff hI
          (by rw [hvalues, hfirst, hlast]) ⟨le_rfl, by omega⟩ ⟨by omega, le_rfl⟩ (by omega)]
        have hP := half_pos t.bw
        rcases IntType.limits (IntType.lt_of_mem ⟨h1, h2⟩) with
          ⟨hs, hmin, hmax, hb⟩ | ⟨hs, -, hmin, hmax, -⟩
        · exact iff_of_true (.inl (by omega)) (.inl ⟨⟨hfirst, hlast⟩, hb⟩)
        · have hend : ¬ t.getDomainMax.val < half t.bw := by omega
          have hend' : ¬ t.getDomainMax.val + 1 < half t.bw := by omega
          simp only [hs, hfirst, hlast, hend, hend', Bool.false_eq_true, false_and, and_false,
            or_false, false_or, and_self, true_and]
      · -- The hole is at the upper end.
        have hne : i.last.val ≠ t.getDomainMax.val := fun h => hlast (SignMag.eq_iff.mpr h)
        have hnext : (i.last + MinDelta).val = i.last.val + 1 := add_minDelta_val (by omega)
        have hset' : I.values set = t.values \ Set.Icc (i.last + MinDelta).val t.getDomainMax.val := by
          rw [SignMag.eq_iff] at hfirst
          ext y
          rw [hvalues, hnext, IntType.values, Set.mem_sdiff, Set.mem_Icc, Set.mem_Icc, Set.mem_Icc]
          omega
        rw [if_pos hfirst, if_neg hlast] at hrun
        rw [converts_iff_restores hconv hrun, restores_anti_iff hI hset' ⟨by omega, by omega⟩
          ⟨by omega, le_rfl⟩ (by omega) (by rw [SignMag.eq_iff]; omega), hnext]
        simp only [hfirst, hlast, and_false, false_and, false_or, true_or, or_true, and_true,
          true_and]
    · have hne : i.first.val ≠ t.getDomainMin.val := fun h => hfirst (SignMag.eq_iff.mpr h)
      by_cases hlast : i.last = t.getDomainMax
      · -- The hole is at the lower end.
        have hpred : (i.first - MinDelta).val = i.first.val - 1 := sub_minDelta_val (by omega)
        have hset' : I.values set = t.values \
            Set.Icc t.getDomainMin.val (i.first - MinDelta).val := by
          rw [SignMag.eq_iff] at hlast
          ext y
          rw [hvalues, hpred, IntType.values, Set.mem_sdiff, Set.mem_Icc, Set.mem_Icc, Set.mem_Icc]
          omega
        have hend : i.first - MinDelta ≠ t.getDomainMax := by
          intro h
          rw [SignMag.eq_iff] at h
          omega
        rw [if_neg hfirst, if_pos hlast] at hrun
        rw [converts_iff_restores hconv hrun, restores_anti_iff hI hset' ⟨le_rfl, by omega⟩
          ⟨by omega, by omega⟩ (by omega) (fun h => hend h.2)]
        simp only [hfirst, hlast, hend, and_false, false_and, false_or, true_or, or_true, and_true]
      · rw [if_neg hfirst, if_neg hlast] at hrun
        rw [converts_iff_not_convex hrun]
        simp [hconv, hfirst, hlast]

/-- Two intervals or more are convex only if they are the domain but for one gap. -/
theorem not_convex_of_two (hI : I.Lawful) (hset : I.values set ⊆ t.values) {i j : Interval}
    {rest : List Interval} (hlist : I.intervals set = i :: j :: rest)
    (h : ¬ (i.first = t.getDomainMin ∧ j.last = t.getDomainMax)) : ¬ Convex I t set := by
  have hmem : ∀ k ∈ i :: j :: rest, k ∈ I.intervals set := fun k hk => hlist ▸ hk
  have hj : j ∈ i :: j :: rest := List.mem_cons_of_mem _ List.mem_cons_self
  obtain ⟨⟨h1, h2⟩, ⟨h3, h4⟩, hle⟩ := interval_bounds hI hset (hmem i List.mem_cons_self)
  obtain ⟨⟨h5, h6⟩, ⟨h7, h8⟩, hle'⟩ := interval_bounds hI hset (hmem j hj)
  have happart := hI.apart set
  rw [hlist] at happart
  obtain ⟨hi, hrest⟩ := List.pairwise_cons.mp happart
  have hij := hi j List.mem_cons_self
  have hafter := (List.pairwise_cons.mp hrest).1
  have hvalues : ∀ y, y ∈ I.values set ↔ ∃ k ∈ i :: j :: rest, k.first.val ≤ y ∧ y ≤ k.last.val :=
    fun y => by rw [hI.mem_iff, hlist]
  have hfirst : i.first.val ∈ I.values set := (hvalues _).mpr ⟨i, List.mem_cons_self, le_rfl, hle⟩
  have hlast : j.last.val ∈ I.values set := (hvalues _).mpr ⟨j, hj, hle', le_rfl⟩
  -- Below the first interval, behind it and behind the second one there is no element.
  have hbelow : ∀ y < i.first.val, y ∉ I.values set := by
    intro y hy hin
    obtain ⟨k, hk, hk1, -⟩ := (hvalues y).mp hin
    rcases List.mem_cons.mp hk with rfl | hk
    · omega
    · have := hi k hk
      omega
  have hgap : i.last.val + 1 ∉ I.values set := by
    intro hin
    obtain ⟨k, hk, hk1, hk2⟩ := (hvalues _).mp hin
    rcases List.mem_cons.mp hk with rfl | hk
    · omega
    · have := hi k hk
      omega
  have hgap' : j.last.val + 1 ∉ I.values set := by
    intro hin
    obtain ⟨k, hk, hk1, hk2⟩ := (hvalues _).mp hin
    rcases List.mem_cons.mp hk with rfl | hk
    · omega
    rcases List.mem_cons.mp hk with rfl | hk
    · omega
    · have := hafter k hk
      omega
  rintro ⟨lo, hi', heq | heq⟩
  · rw [heq] at hfirst hlast hgap
    exact hgap ⟨by have := hfirst.1; omega, by have := hlast.2; omega⟩
  · rw [heq] at hfirst hlast hgap hgap'
    have hin : lo ≤ i.last.val + 1 ∧ i.last.val + 1 ≤ hi' := by
      by_contra hnot
      exact hgap ⟨⟨by omega, by omega⟩, hnot⟩
    have h9 : ¬ (lo ≤ i.first.val ∧ i.first.val ≤ hi') := hfirst.2
    have h10 : ¬ (lo ≤ j.last.val ∧ j.last.val ≤ hi') := hlast.2
    rw [SignMag.eq_iff, SignMag.eq_iff] at h
    by_cases hmin : i.first.val = t.getDomainMin.val
    · have hmax : j.last.val ≠ t.getDomainMax.val := fun hmax => h ⟨hmin, hmax⟩
      refine hgap' ⟨⟨by omega, by omega⟩, ?_⟩
      rintro ⟨-, h11⟩
      omega
    · have hout := hbelow t.getDomainMin.val (by omega)
      rw [heq] at hout
      refine hout ⟨⟨le_rfl, by omega⟩, ?_⟩
      rintro ⟨h11, -⟩
      omega

theorem converts_two_iff (hI : I.Lawful) (hset : I.values set ⊆ t.values) {i j : Interval}
    {rest : List Interval} (hlist : I.intervals set = i :: j :: rest) :
    Converts I t set ↔ ¬ (i.first = t.getDomainMin ∧ j.last = t.getDomainMax) := by
  have hrun := tryGetRange_two hI hset hlist
  by_cases hends : i.first = t.getDomainMin ∧ j.last = t.getDomainMax
  · have hmem : ∀ k ∈ i :: j :: rest, k ∈ I.intervals set := fun k hk => hlist ▸ hk
    obtain ⟨⟨h1, h2⟩, ⟨h3, h4⟩, hle⟩ := interval_bounds hI hset (hmem i List.mem_cons_self)
    obtain ⟨⟨h5, h6⟩, ⟨h7, h8⟩, hle'⟩ :=
      interval_bounds hI hset (hmem j (List.mem_cons_of_mem _ List.mem_cons_self))
    have happart := hI.apart set
    rw [hlist] at happart
    obtain ⟨hi, hrest⟩ := List.pairwise_cons.mp happart
    have hij := hi j List.mem_cons_self
    have hroom := IntType.room (IntType.lt_of_mem ⟨h1, h2⟩)
    have hnext : (i.last + MinDelta).val = i.last.val + 1 := add_minDelta_val (by omega)
    have hpred : (j.first - MinDelta).val = j.first.val - 1 := sub_minDelta_val (by omega)
    have hvalues : I.values set =
        t.values \ Set.Icc (i.last + MinDelta).val (j.first - MinDelta).val := by
      obtain ⟨hfirst, hlast⟩ := hends
      rw [SignMag.eq_iff] at hfirst hlast
      ext y
      rw [hI.mem_iff, hlist, hnext, hpred, IntType.values, Set.mem_sdiff, Set.mem_Icc, Set.mem_Icc]
      constructor
      · rintro ⟨k, hk, hk1, hk2⟩
        obtain ⟨⟨h9, h10⟩, ⟨h11, h12⟩, -⟩ := interval_bounds hI hset (hmem k hk)
        refine ⟨⟨by omega, by omega⟩, ?_⟩
        rcases List.mem_cons.mp hk with rfl | hk
        · omega
        rcases List.mem_cons.mp hk with rfl | hk
        · omega
        · have := (List.pairwise_cons.mp hrest).1 k hk
          omega
      · rintro ⟨hy, hout⟩
        by_cases hlow : y ≤ i.last.val
        · exact ⟨i, List.mem_cons_self, by omega, hlow⟩
        · exact ⟨j, List.mem_cons_of_mem _ List.mem_cons_self, by omega, by omega⟩
    rw [if_pos hends] at hrun
    refine iff_of_false ?_ (not_not.mpr hends)
    rw [converts_iff_restores ⟨_, _, .inr hvalues⟩ hrun, restores_anti_iff hI hvalues
      ⟨by omega, by omega⟩ ⟨by omega, by omega⟩ (by omega) (by rw [SignMag.eq_iff, hnext]; omega)]
    simp only [SignMag.eq_iff, hnext, hpred]
    omega
  · rw [if_neg hends] at hrun
    exact iff_of_true ((converts_iff_not_convex hrun).mpr (not_convex_of_two hI hset hlist hends))
      hends

/-- A set of values of a variable is converted to a range and back exactly if its intervals say
so. -/
theorem converts_iff (hI : I.Lawful) (hset : I.values set ⊆ t.values) :
    Converts I t set ↔ Recovers t (I.intervals set) := by
  rcases hlist : I.intervals set with _ | ⟨i, _ | ⟨j, _ | ⟨k, rest⟩⟩⟩
  · exact iff_of_true (converts_of_nil hI hlist) trivial
  · exact converts_one_iff hI hset hlist
  · exact converts_two_iff hI hset hlist
  · refine iff_of_true ((converts_two_iff hI hset hlist).mpr ?_) trivial
    -- The third interval is behind the second one.
    have hk : k ∈ I.intervals set := by simp [hlist]
    have hbounds := interval_bounds hI hset hk
    have happart := hI.apart set
    rw [hlist] at happart
    have hjk := (List.pairwise_cons.mp (List.pairwise_cons.mp happart).2).1 k List.mem_cons_self
    have hle := hbounds.1.2
    rintro ⟨-, hlast⟩
    rw [SignMag.eq_iff] at hlast
    omega

end Converts

/-- Small values of eight bits, unsigned. -/
theorem converts_small : Converts IntervalSets.list ⟨8, false, by decide⟩ [3, 4] := by
  refine (converts_iff IntervalSets.list_lawful ?_).mpr (by decide +kernel)
  rintro x ⟨a, ha, rfl⟩
  have hall : ∀ a ∈ [(3 : APInt), 4], (IntType.getDomainMin ⟨8, false, by decide⟩).val ≤ a.val ∧
      a.val ≤ (IntType.getDomainMax ⟨8, false, by decide⟩).val := by decide +kernel
  exact hall a ha

/-- The value 200 of eight bits, unsigned, and all values of two bits but zero, signed. -/
theorem not_converts : ¬ Converts IntervalSets.list ⟨8, false, by decide⟩ [200] ∧
    ¬ Converts IntervalSets.list ⟨2, true, by decide⟩ [-2, -1, 1] := by
  constructor
  · have hset : IntervalSets.list.values [200] ⊆ IntType.values ⟨8, false, by decide⟩ := by
      rintro x ⟨a, ha, rfl⟩
      have hall : ∀ a ∈ [(200 : APInt)], (IntType.getDomainMin ⟨8, false, by decide⟩).val ≤ a.val ∧
          a.val ≤ (IntType.getDomainMax ⟨8, false, by decide⟩).val := by decide +kernel
      exact hall a ha
    have hlist : IntervalSets.list.intervals [200] = [⟨200, 200, true⟩] := by decide +kernel
    rw [converts_one_iff IntervalSets.list_lawful hset hlist]
    decide +kernel
  · have hset : IntervalSets.list.values [-2, -1, 1] ⊆ IntType.values ⟨2, true, by decide⟩ := by
      rintro x ⟨a, ha, rfl⟩
      have hall : ∀ a ∈ [(-2 : APInt), -1, 1],
          (IntType.getDomainMin ⟨2, true, by decide⟩).val ≤ a.val ∧
            a.val ≤ (IntType.getDomainMax ⟨2, true, by decide⟩).val := by decide +kernel
      exact hall a ha
    have hlist : IntervalSets.list.intervals [-2, -1, 1] = [⟨-2, -1, true⟩, ⟨1, 1, true⟩] := by
      decide +kernel
    rw [converts_two_iff IntervalSets.list_lawful hset hlist]
    decide +kernel

end RangeAnalysis
end Bambu
