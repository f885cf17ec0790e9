/-
  Bambu.Utility.Range.Accessors

  What the accessors return on the ranges an operation computes with.

  After its Empty and Unknown returns an operation is left with Regular and Anti
  operands (`Proper`).  On those no accessor throws, and each one is an integer
  expression in the bounds; the unsigned extrema enclose the unsigned reading of
  every value of the range.
-/

import Bambu.Utility.Range.Shape

namespace Bambu
namespace Range

open Bambu.Math APInt

/-! ## Regular and Anti ranges -/

def Proper (r : Range) : Prop := r.type = .regular ∨ r.type = .anti

/-- A Regular range that reaches both limits of its width. -/
def IsFull (r : Range) : Prop :=
  r.type = .regular ∧ r.l.val ≤ -half r.bw ∧ half r.bw - 1 ≤ r.u.val

instance (r : Range) : Decidable r.IsFull := inferInstanceAs (Decidable (_ ∧ _))

section Proper

variable {r a b : Range} {x : Int}

@[simp] theorem isRegular_iff : r.isRegular = true ↔ r.type = .regular := decide_eq_true_iff
@[simp] theorem isAnti_iff : r.isAnti = true ↔ r.type = .anti := decide_eq_true_iff
@[simp] theorem isEmpty_iff : r.isEmpty = true ↔ r.type = .empty := decide_eq_true_iff
@[simp] theorem isUnknown_iff : r.isUnknown = true ↔ r.type = .unknown := decide_eq_true_iff

@[simp] theorem isConstant_iff : r.isConstant = true ↔ r.type = .regular ∧ r.l = r.u := by
  rw [isConstant, Bool.and_eq_true, isRegular_iff, decide_eq_true_iff]

/-- A range with a value in it is Regular or Anti, unless it is Unknown. -/
theorem proper_of_mem (hu : r.type ≠ .unknown) (hx : x ∈ r.gamma) : r.Proper := by
  have h := hx.2
  cases ht : r.type with
  | empty => rw [ht] at h; exact h.elim
  | unknown => exact absurd ht hu
  | regular => exact Or.inl ht
  | anti => exact Or.inr ht

theorem Proper.not_empty (h : r.Proper) : ¬ r.isEmpty = true := by
  rw [isEmpty_iff]
  rcases h with h | h <;> rw [h] <;> decide

theorem Proper.not_unknown (h : r.Proper) : ¬ r.isUnknown = true := by
  rw [isUnknown_iff]
  rcases h with h | h <;> rw [h] <;> decide

/-- On Regular and Anti operands an operation reaches its body. -/
theorem onProper_of (ha : a.Proper) (hb : b.Proper) (w : Nat) (body : Except Error Range) :
    onProper a b w body = body := by
  unfold onProper
  rw [if_neg, if_neg]
  · rw [Bool.or_eq_true]
    exact not_or.mpr ⟨ha.not_unknown, hb.not_unknown⟩
  · rw [Bool.or_eq_true]
    exact not_or.mpr ⟨ha.not_empty, hb.not_empty⟩

theorem mem_gamma_of_regular (h : r.type = .regular) :
    x ∈ r.gamma ↔ (-half r.bw ≤ x ∧ x < half r.bw) ∧ r.l.val ≤ x ∧ x ≤ r.u.val := by
  rw [mem_gamma, h]
  exact Iff.rfl

theorem mem_gamma_of_anti (h : r.type = .anti) :
    x ∈ r.gamma ↔ (-half r.bw ≤ x ∧ x < half r.bw) ∧ (x < r.l.val ∨ r.u.val < x) := by
  rw [mem_gamma, h]
  exact Iff.rfl

/-- The Regular range without finite bounds holds every value. -/
theorem holds_full {w : Nat} {v : Int} (hw : 0 < w ∧ w ≤ maxDigits) (hv : v ∈ signedRange w) :
    Holds (ofType .regular w) w v := by
  rw [ofType, dif_pos hw, holds_ok]
  refine ⟨rfl, hv, ?_⟩
  show Min.val ≤ v ∧ v ≤ Max.val
  rw [min_val, max_val]
  exact typeMem_full hw.2 hv

theorem holds_full_residue {w : Nat} (hw : 0 < w ∧ w ≤ maxDigits) (y : Int) :
    Holds (ofType .regular w) w (signedResidue w y) :=
  holds_full hw (signedResidue_mem hw.1 y)

/-! ## Bounds and span -/

theorem getLower_eq (h : r.type ≠ .anti) : r.getLower = .ok r.l := by
  unfold getLower
  rw [throwAssert_of (by rwa [isAnti_iff])]
  rfl

theorem getUpper_eq (h : r.type ≠ .anti) : r.getUpper = .ok r.u := by
  unfold getUpper
  rw [throwAssert_of (by rwa [isAnti_iff])]
  rfl

theorem isFullSet_eq (h : r.Proper) : r.isFullSet = .ok (decide r.IsFull) := by
  unfold isFullSet
  rw [throwAssert_of h.not_unknown, ok_bind]
  rcases h with h | h
  · have hne : r.type ≠ .anti := by rw [h]; decide
    rw [if_neg (by simp [h]), getUpper_eq hne, getLower_eq hne, ok_bind, ok_bind]
    congr 1
    rw [decide_eq_decide, ge_iff_le, SignMag.le_iff, SignMag.le_iff,
      getSignedMaxValue_val r.bw_valid.1 r.bw_valid.2,
      getSignedMinValue_val r.bw_valid.1 r.bw_valid.2, IsFull]
    tauto
  · rw [if_pos (by simp [h])]
    congr 1
    rw [eq_comm, decide_eq_false_iff_not, IsFull, h]
    simp

/-- `this->isFullSet() || other.isFullSet()`. -/
theorem isFullSet_or_eq (ha : a.Proper) (hb : b.Proper) :
    (a.isFullSet <||> b.isFullSet) = .ok (decide (a.IsFull ∨ b.IsFull)) := by
  rw [isFullSet_eq ha, isFullSet_eq hb]
  by_cases h : a.IsFull
  · simp only [h, true_or, decide_true]
    rfl
  · simp only [h, false_or, decide_false]
    rfl

/-- `getSpan()` never throws. -/
theorem getSpan_ok (r : Range) : ∃ s, r.getSpan = .ok s := by
  unfold getSpan
  by_cases he : r.isEmpty = true
  · exact ⟨_, if_pos he⟩
  by_cases hu : r.isUnknown = true
  · rw [if_neg he, if_pos hu]
    exact ⟨_, rfl⟩
  have hp : r.Proper := by
    rw [isEmpty_iff] at he
    rw [isUnknown_iff] at hu
    unfold Proper
    cases ht : r.type <;> simp_all
  rw [if_neg he, if_neg hu, isFullSet_eq hp, ok_bind]
  split
  · exact ⟨_, rfl⟩
  · split <;> exact ⟨_, rfl⟩

theorem getSpan_of_full (h : r.IsFull) : r.getSpan = .ok (getMaxValue r.bw + 1) := by
  have hp : r.Proper := Or.inl h.1
  unfold getSpan
  rw [if_neg hp.not_empty, if_neg hp.not_unknown, isFullSet_eq hp, ok_bind, decide_eq_true h,
    if_pos rfl]

/-- The span of a Regular range that is neither full nor infinite. -/
theorem getSpan_of_regular (ht : r.type = .regular) (hf : ¬ r.IsFull) :
    r.getSpan = .ok (1 + (if r.u = Max then getSignedMaxValue r.bw else r.u) -
      (if r.l = Min then getSignedMinValue r.bw else r.l)) := by
  have hp : r.Proper := Or.inl ht
  unfold getSpan
  rw [if_neg hp.not_empty, if_neg hp.not_unknown, isFullSet_eq hp, ok_bind,
    decide_eq_false hf, if_neg Bool.false_ne_true, if_neg (by simp [ht])]

theorem getSpan_of_anti (ht : r.type = .anti) :
    r.getSpan = .ok (getMaxValue r.bw - (r.u - r.l)) := by
  have hp : r.Proper := Or.inr ht
  have hf : ¬ r.IsFull := fun h => by
    have := h.1
    rw [ht] at this
    cases this
  unfold getSpan
  rw [if_neg hp.not_empty, if_neg hp.not_unknown, isFullSet_eq hp, ok_bind,
    decide_eq_false hf, if_neg Bool.false_ne_true, if_pos (by simp [ht])]

end Proper

/-! ## Signed extrema -/

theorem InLimits.l_mem {r : Range} (h : r.InLimits) : -half r.bw ≤ r.l.val ∧ r.l.val < half r.bw :=
  ⟨h.1, by have := h.2.1; have := h.2.2; omega⟩

theorem InLimits.u_mem {r : Range} (h : r.InLimits) : -half r.bw ≤ r.u.val ∧ r.u.val < half r.bw :=
  ⟨by have := h.1; have := h.2.1; omega, h.2.2⟩

section Extrema

variable {r : Range} {x : Int}

theorem getSignedMin_of_limits (ht : r.type = .regular) (h : r.InLimits) :
    r.getSignedMin = .ok r.l := by
  have hp : r.Proper := Or.inl ht
  unfold getSignedMin
  rw [throwAssert_of ⟨hp.not_unknown, hp.not_empty⟩, ok_bind]
  simp only [if_pos ht]
  rw [if_neg]
  rw [lt_signedMin_iff r.bw_valid]
  have := h.1
  omega

theorem getSignedMax_of_limits (ht : r.type = .regular) (h : r.InLimits) :
    r.getSignedMax = .ok r.u := by
  have hp : r.Proper := Or.inl ht
  unfold getSignedMax
  rw [throwAssert_of ⟨hp.not_unknown, hp.not_empty⟩, ok_bind]
  simp only [if_pos ht]
  rw [if_neg]
  rw [gt_signedMax_iff r.bw_valid]
  have := h.2.2
  omega

theorem getSignedMin_of_anti (ht : r.type = .anti) :
    r.getSignedMin = .ok (getSignedMinValue r.bw) := by
  have hp : r.Proper := Or.inr ht
  unfold getSignedMin
  rw [throwAssert_of ⟨hp.not_unknown, hp.not_empty⟩, ok_bind]
  simp [ht]

theorem getSignedMax_of_anti (ht : r.type = .anti) :
    r.getSignedMax = .ok (getSignedMaxValue r.bw) := by
  have hp : r.Proper := Or.inr ht
  unfold getSignedMax
  rw [throwAssert_of ⟨hp.not_unknown, hp.not_empty⟩, ok_bind]
  simp [ht]

/-- The signed extrema of the Regular range without finite bounds. -/
theorem getSignedMin_of_infinite (ht : r.type = .regular) (hl : r.l = Min) :
    ∃ m, r.getSignedMin = .ok m ∧ m.val = -half r.bw := by
  have hp : r.Proper := Or.inl ht
  have hcap := half_le_half r.bw_valid.2
  have hmin := getSignedMinValue_val r.bw_valid.1 r.bw_valid.2
  unfold getSignedMin
  rw [throwAssert_of ⟨hp.not_unknown, hp.not_empty⟩, ok_bind]
  simp only [if_pos ht]
  rw [hl]
  split
  · exact ⟨_, rfl, hmin⟩
  · rename_i h
    refine ⟨_, rfl, ?_⟩
    rw [lt_signedMin_iff r.bw_valid, min_val] at h
    rw [min_val]
    omega

theorem getSignedMax_of_infinite (ht : r.type = .regular) (hu : r.u = Max) :
    ∃ m, r.getSignedMax = .ok m ∧ m.val = half r.bw - 1 := by
  have hp : r.Proper := Or.inl ht
  have hcap := half_le_half r.bw_valid.2
  have hmax := getSignedMaxValue_val r.bw_valid.1 r.bw_valid.2
  unfold getSignedMax
  rw [throwAssert_of ⟨hp.not_unknown, hp.not_empty⟩, ok_bind]
  simp only [if_pos ht]
  rw [hu]
  split
  · exact ⟨_, rfl, hmax⟩
  · rename_i h
    refine ⟨_, rfl, ?_⟩
    rw [gt_signedMax_iff r.bw_valid, max_val] at h
    rw [max_val]
    omega

/-- The span of a Regular range within the limits. -/
theorem getSpan_of_limits (ht : r.type = .regular) (hlim : r.InLimits) (hf : ¬ r.IsFull) :
    ∃ s, r.getSpan = .ok s ∧ s.val = 1 + r.u.val - r.l.val := by
  have hcap := half_le_half r.bw_valid.2
  have hP := half_pos r.bw
  have h2 := two_le_half_maxDigits
  have hnf : ¬ (r.l.val ≤ -half r.bw ∧ half r.bw - 1 ≤ r.u.val) := fun h => hf ⟨ht, h.1, h.2⟩
  obtain ⟨h1, h2, h3⟩ := hlim
  refine ⟨_, getSpan_of_regular ht hf, ?_⟩
  -- an infinite bound within the limits is the limit
  have hu : (if r.u = Max then getSignedMaxValue r.bw else r.u).val = r.u.val := by
    split
    · rename_i h
      rw [getSignedMaxValue_val r.bw_valid.1 r.bw_valid.2]
      rw [eq_max_iff] at h
      omega
    · rfl
  have hl : (if r.l = Min then getSignedMinValue r.bw else r.l).val = r.l.val := by
    split
    · rename_i h
      rw [getSignedMinValue_val r.bw_valid.1 r.bw_valid.2]
      rw [eq_min_iff] at h
      omega
    · rfl
  have hadd : (1 + (if r.u = Max then getSignedMaxValue r.bw else r.u)).val = 1 + r.u.val := by
    rw [add_val] <;> rw [one_val, hu] <;> omega
  rw [sub_val] <;> rw [hadd, hl] <;> omega

/-! ## Unsigned extrema -/

theorem extTrunc_unsigned_of_nonneg {w : Nat} (h0 : 0 < w) (hw : w < maxDigits) {v : APInt}
    (h : 0 ≤ v.val) (h' : v.val < 2 * half w) : (v.extTrunc w false).val = v.val := by
  rw [extTrunc_unsigned_val h0 hw, emod_of_nonneg h0 h h']

theorem extTrunc_unsigned_of_neg {w : Nat} (h0 : 0 < w) (hw : w < maxDigits) {v : APInt}
    (h : v.val < 0) (h' : -(2 * half w) ≤ v.val) :
    (v.extTrunc w false).val = v.val + 2 * half w := by
  rw [extTrunc_unsigned_val h0 hw, emod_of_neg h0 h h']

/-- `a` and `b` enclose the unsigned readings of the values of `r`. -/
def UnsignedHull (r : Range) (a b : APInt) : Prop :=
  r.getUnsignedMin = .ok a ∧ r.getUnsignedMax = .ok b ∧ 0 ≤ a.val ∧ b.val < 2 * half r.bw ∧
    ∀ x ∈ r.gamma, a.val ≤ x % 2 ^ r.bw ∧ x % 2 ^ r.bw ≤ b.val

theorem zero_lt_iff {a : APInt} : a > 0 ↔ 0 < a.val := by
  rw [gt_iff_lt, SignMag.lt_iff, SignMag.val_zero]

theorem lt_zero_iff {a : APInt} : a < 0 ↔ a.val < 0 := by rw [SignMag.lt_iff, SignMag.val_zero]

theorem zero_le_iff {a : APInt} : a ≥ 0 ↔ 0 ≤ a.val := by
  rw [ge_iff_le, SignMag.le_iff, SignMag.val_zero]

theorem unsignedHull_of_infinite (hw : r.bw < maxDigits) (ht : r.type = .regular) (hl : r.l = Min)
    (hu : r.u = Max) : UnsignedHull r (getMinValue r.bw) (getMaxValue r.bw) := by
  have hp : r.Proper := Or.inl ht
  have hna : ¬ r.isAnti = true := by simp [ht]
  have h0 := r.bw_valid.1
  have hC := half_pos maxDigits
  have h2 := two_le_half_maxDigits
  have hmaxV := getMaxValue_val h0 hw
  refine ⟨?_, ?_, by rw [getMinValue_val], by omega, fun x hx => ?_⟩
  · unfold getUnsignedMin
    rw [throwAssert_of ⟨hp.not_unknown, hp.not_empty⟩, ok_bind, if_neg hna, if_neg]
    rw [zero_lt_iff, lt_zero_iff, hl, hu, min_val, max_val]
    omega
  · unfold getUnsignedMax
    rw [throwAssert_of ⟨hp.not_unknown, hp.not_empty⟩, ok_bind, if_neg hna, if_neg]
    rw [zero_le_iff, lt_zero_iff, hl, hu, min_val, max_val]
    omega
  · have hlt := Int.emod_lt_of_pos x (b := 2 ^ r.bw) (by positivity)
    have h2' := two_mul_half h0
    rw [getMinValue_val, hmaxV]
    exact ⟨Int.emod_nonneg _ (by positivity), by omega⟩

theorem unsignedHull_of_limits (hw : r.bw < maxDigits) (ht : r.type = .regular)
    (h : r.InLimits) : ∃ a b, UnsignedHull r a b := by
  have hp : r.Proper := Or.inl ht
  have hna : ¬ r.isAnti = true := by simp [ht]
  have h0 := r.bw_valid.1
  have hP := half_pos r.bw
  have hmaxV := getMaxValue_val h0 hw
  obtain ⟨h1, h2, h3⟩ := h
  unfold UnsignedHull getUnsignedMin getUnsignedMax
  simp only [throwAssert_of (⟨hp.not_unknown, hp.not_empty⟩ : ¬ _ ∧ ¬ _), ok_bind, if_neg hna,
    zero_lt_iff, lt_zero_iff, zero_le_iff]
  refine ⟨_, _, rfl, rfl, ?_⟩
  have hx : ∀ x ∈ r.gamma, (-half r.bw ≤ x ∧ x < half r.bw) ∧ r.l.val ≤ x ∧ x ≤ r.u.val :=
    fun x hx => (mem_gamma_of_regular ht).mp hx
  by_cases hneg : r.u.val < 0
  · -- both bounds negative
    rw [if_pos (Or.inr hneg), if_pos (Or.inl hneg),
      extTrunc_unsigned_of_neg h0 hw (by omega) (by omega),
      extTrunc_unsigned_of_neg h0 hw hneg (by omega)]
    refine ⟨by omega, by omega, fun x hxr => ?_⟩
    have := hx x hxr
    rw [emod_of_neg h0 (by omega) (by omega)]
    omega
  by_cases hpos : 0 ≤ r.l.val
  · -- both bounds nonnegative
    have hmin : (if 0 < r.l.val ∨ r.u.val < 0 then r.l.extTrunc r.bw false
        else getMinValue r.bw).val = r.l.val := by
      split
      · exact extTrunc_unsigned_of_nonneg h0 hw hpos (by omega)
      · rw [getMinValue_val]
        omega
    rw [hmin, if_pos (Or.inr hpos), extTrunc_unsigned_of_nonneg h0 hw (by omega) (by omega)]
    refine ⟨hpos, by omega, fun x hxr => ?_⟩
    have := hx x hxr
    rw [emod_of_nonneg h0 (by omega) (by omega)]
    omega
  · -- the range crosses zero
    have h2' := two_mul_half h0
    rw [if_neg (by omega), if_neg (by omega), getMinValue_val, hmaxV]
    refine ⟨le_refl _, by omega, fun x hxr => ?_⟩
    have hlt := Int.emod_lt_of_pos x (b := 2 ^ r.bw) (by positivity)
    exact ⟨Int.emod_nonneg _ (by positivity), by omega⟩

theorem unsignedHull_of_anti (hw : r.bw < maxDigits) (ht : r.type = .anti) (h : r.InLimits) :
    ∃ a b, UnsignedHull r a b := by
  have hp : r.Proper := Or.inr ht
  have ha : r.isAnti = true := by simp [ht]
  have h0 := r.bw_valid.1
  have hP := half_pos r.bw
  have hcap := two_mul_half_le h0 hw
  have h2' := two_mul_half h0
  have hmaxV := getMaxValue_val h0 hw
  obtain ⟨h1, h2, h3⟩ := h
  have hpred : (r.l - MinDelta).val = r.l.val - 1 := sub_minDelta_val (by omega)
  have hsucc : (r.u + MinDelta).val = r.u.val + 1 := add_minDelta_val (by omega)
  unfold UnsignedHull getUnsignedMin getUnsignedMax
  simp only [throwAssert_of (⟨hp.not_unknown, hp.not_empty⟩ : ¬ _ ∧ ¬ _), ok_bind, if_pos ha,
    zero_lt_iff, lt_zero_iff, zero_le_iff, hpred, hsucc]
  refine ⟨_, _, rfl, rfl, ?_⟩
  have hx : ∀ x ∈ r.gamma, (-half r.bw ≤ x ∧ x < half r.bw) ∧ (x < r.l.val ∨ r.u.val < x) :=
    fun x hx => (mem_gamma_of_anti ht).mp hx
  have hmin : ∀ x ∈ r.gamma, (if 0 < r.l.val ∨ r.u.val < 0 then getMinValue r.bw
      else r.u + MinDelta).val ≤ x % 2 ^ r.bw := by
    intro x hxr
    have := hx x hxr
    split
    · rw [getMinValue_val]
      exact Int.emod_nonneg _ (by positivity)
    · rw [hsucc]
      by_cases hx0 : 0 ≤ x
      · rw [emod_of_nonneg h0 hx0 (by omega)]
        omega
      · rw [emod_of_neg h0 (by omega) (by omega)]
        omega
  have hmin0 : 0 ≤ (if 0 < r.l.val ∨ r.u.val < 0 then getMinValue r.bw
      else r.u + MinDelta).val := by
    split
    · rw [getMinValue_val]
    · omega
  by_cases hwide : 0 ≤ r.l.val - 1 ∨ r.u.val + 1 < 0
  · rw [if_pos hwide, hmaxV]
    refine ⟨hmin0, by omega, fun x hxr => ⟨hmin x hxr, ?_⟩⟩
    have hlt := Int.emod_lt_of_pos x (b := 2 ^ r.bw) (by positivity)
    omega
  · rw [if_neg hwide, extTrunc_unsigned_of_neg h0 hw (by omega) (by omega), hpred]
    refine ⟨hmin0, by omega, fun x hxr => ⟨hmin x hxr, ?_⟩⟩
    have := hx x hxr
    by_cases hx0 : 0 ≤ x
    · rw [emod_of_nonneg h0 hx0 (by omega)]
      omega
    · rw [emod_of_neg h0 (by omega) (by omega)]
      omega

/-- The unsigned extrema of a well-formed range below the capacity. -/
theorem exists_unsignedHull (hw : r.bw < maxDigits) (hp : r.Proper) (hwf : r.WellFormed) :
    ∃ a b, UnsignedHull r a b := by
  rcases hp with ht | ht
  · rcases hwf.1 ht with ⟨hl, hu⟩ | hin
    · exact ⟨_, _, unsignedHull_of_infinite hw ht hl hu⟩
    · exact unsignedHull_of_limits hw ht hin
  · exact unsignedHull_of_anti hw ht (hwf.2 ht)

end Extrema

end Range
end Bambu
