/-
  Bambu.Utility.Range.Lattice

  `Range::intersectWith` and `Range::unionWith`.

  Both are stated over the sets of values: `Denotes x w s` says that `x` returns
  a range of width `w` whose values are exactly `s`.  Every result is built from
  bounds of the operands, which lie within the limits, so the constructor keeps
  them and the position cases of the source are inclusions of intervals.
-/

import Bambu.Utility.Range.Resize

namespace Bambu
namespace Range

open Bambu.Math APInt

/-! ## The operations -/

/-- The two branches of `intersectWith` on an Anti and a Regular range. -/
def intersectAntiRegular (bw : Nat) (anti regular : Range) : Except Error Range := do
  let antiRange ← anti.getAnti
  let antil ← antiRange.getLower
  let antiu ← antiRange.getUpper
  let l ← regular.getLower
  let u ← regular.getUpper
  if antil ≤ l then
    if u ≤ antiu then ofType .empty bw
    else ofBounds .regular bw (if l > antiu then l else antiu + 1) u
  else if antiu ≥ u then do
    throwAssert (l < antil) ""
    ofBounds .regular bw l (if u < antil then u else antil - 1)
  else if l = Min ∧ u = Max then .ok anti
  else if antil > u ∨ antiu < l then .ok regular
  else .ok regular

/-- The tail of `intersectWith` on two Anti ranges, after the swap that puts the
    smaller lower bound first. -/
def intersectAnti (bw : Nat) (antil_a antiu_a antil_b antiu_b : APInt) : Except Error Range :=
  if antil_b > antiu_a + 1 then ofBounds .anti bw antil_a antiu_a
  else
    let res_l := antil_a
    let res_u := if antiu_a > antiu_b then antiu_a else antiu_b
    if res_l = Min ∧ res_u = Max then ofType .empty bw
    else ofBounds .anti bw res_l res_u

def intersectWith (this other : Range) : Except Error Range :=
  onProper this other this.bw do
    if ¬ this.isAnti ∧ ¬ other.isAnti then do
      let l ← this.getLower
      let ol ← other.getLower
      let u ← this.getUpper
      let ou ← other.getUpper
      let res_l := if l > ol then l else ol
      let res_u := if u < ou then u else ou
      if res_u < res_l then ofType .empty this.bw
      else ofBounds .regular this.bw res_l res_u
    else if this.isAnti ∧ ¬ other.isAnti then intersectAntiRegular this.bw this other
    else if ¬ this.isAnti ∧ other.isAnti then intersectAntiRegular this.bw other this
    else do
      let antiRange_a ← this.getAnti
      let antiRange_b ← other.getAnti
      let antil_a ← antiRange_a.getLower
      let antiu_a ← antiRange_a.getUpper
      let antil_b ← antiRange_b.getLower
      let antiu_b ← antiRange_b.getUpper
      if antil_a > antil_b then intersectAnti this.bw antil_b antiu_b antil_a antiu_a
      else intersectAnti this.bw antil_a antiu_a antil_b antiu_b

/-- The two branches of `unionWith` on an Anti and a Regular range. -/
def unionAntiRegular (bw : Nat) (anti regular : Range) : Except Error Range := do
  let antiRange ← anti.getAnti
  let antil ← antiRange.getLower
  let antiu ← antiRange.getUpper
  throwAssert (antil ≠ Min) ""
  throwAssert (antiu ≠ Max) ""
  let l ← regular.getLower
  let u ← regular.getUpper
  if antil > u ∨ antiu < l then .ok anti
  else if antil > l ∧ antiu < u then ofType .regular bw
  else if antil ≥ l ∧ antiu > u then ofBounds .anti bw (u + 1) antiu
  else if antil < l ∧ antiu ≤ u then ofBounds .anti bw antil (l - 1)
  else ofType .regular bw

def unionWith (this other : Range) : Except Error Range :=
  if this.isEmpty || this.isUnknown then .ok other
  else if other.isEmpty || other.isUnknown then .ok this
  else if ¬ this.isAnti ∧ ¬ other.isAnti then do
    let l ← this.getLower
    let ol ← other.getLower
    let u ← this.getUpper
    let ou ← other.getUpper
    let res_l := if l < ol then l else ol
    let res_u := if u > ou then u else ou
    ofBounds .regular this.bw res_l res_u
  else if this.isAnti ∧ ¬ other.isAnti then unionAntiRegular this.bw this other
  else if ¬ this.isAnti ∧ other.isAnti then unionAntiRegular this.bw other this
  else do
    let antiRange_a ← this.getAnti
    let antiRange_b ← other.getAnti
    let antil_a ← antiRange_a.getLower
    let antiu_a ← antiRange_a.getUpper
    throwAssert (antil_a ≠ Min) ""
    throwAssert (antiu_a ≠ Max) ""
    let antil_b ← antiRange_b.getLower
    let antiu_b ← antiRange_b.getUpper
    throwAssert (antil_b ≠ Min) ""
    throwAssert (antiu_b ≠ Max) ""
    if antil_a > antiu_b ∨ antiu_a < antil_b then ofType .regular this.bw
    else if antil_a > antil_b ∧ antiu_a < antiu_b then .ok this
    -- the same operand is returned whichever excludes more
    else if antil_b > antil_a ∧ antiu_b < antiu_a then .ok this
    else if antil_a ≥ antil_b ∧ antiu_b ≤ antiu_a then ofBounds .anti this.bw antil_a antiu_b
    else if antil_b ≥ antil_a ∧ antiu_a ≤ antiu_b then ofBounds .anti this.bw antil_b antiu_a
    else .error (.unreachable "unsupported condition")

/-! ## Sets of values -/

/-- `x` returns a range of width `w` whose values are those of `s`. -/
def Denotes (x : Except Error Range) (w : Nat) (s : Set Int) : Prop :=
  ∃ r, x = .ok r ∧ r.bw = w ∧ r.gamma = s

section Denotes

variable {x : Except Error Range} {w : Nat} {t : RangeType} {a b : Int} {lb ub : APInt}
  {r : Range}

theorem denotes_ok : Denotes (.ok r) r.bw r.gamma := ⟨r, rfl, rfl, rfl⟩

theorem Yields.denotes (h : Yields x w t a b) :
    Denotes x w {v | v ∈ signedRange w ∧ TypeMem t a b v} := by
  obtain ⟨r, rfl, rfl, rfl, rfl, rfl⟩ := h
  exact ⟨r, rfl, rfl, rfl⟩

theorem Denotes.congr {s s' : Set Int} (h : Denotes x w s) (hs : ∀ v, v ∈ s ↔ v ∈ s') :
    Denotes x w s' := Set.ext hs ▸ h

theorem denotes_empty (hw : 0 < w ∧ w ≤ maxDigits) : Denotes (ofType .empty w) w ∅ := by
  rw [ofType, dif_pos hw]
  refine ⟨_, rfl, rfl, ?_⟩
  ext v
  exact ⟨fun h => h.2, fun h => h.elim⟩

theorem denotes_full (hw : 0 < w ∧ w ≤ maxDigits) :
    Denotes (ofType .regular w) w (signedRange w) := by
  rw [ofType, dif_pos hw]
  refine ⟨_, rfl, rfl, ?_⟩
  ext v
  refine ⟨fun h => h.1, fun h => ⟨h, ?_⟩⟩
  show Min.val ≤ v ∧ v ≤ Max.val
  rw [min_val, max_val]
  exact typeMem_full hw.2 h

theorem denotes_regular (hw : 0 < w ∧ w ≤ maxDigits) (hlo : -half w ≤ lb.val)
    (hle : lb.val ≤ ub.val) (hhi : ub.val < half w) :
    Denotes (ofBounds .regular w lb ub) w (Set.Icc lb.val ub.val) := by
  refine (ofBounds_regular_inside hw hlo hle hhi).denotes.congr fun v => ?_
  exact ⟨fun h => h.2, fun h => ⟨⟨hlo.trans h.1, h.2.trans_lt hhi⟩, h⟩⟩

/-- Infinite bounds become the limits. -/
theorem yields_infinite (hw : 0 < w ∧ w ≤ maxDigits) :
    Yields (ofBounds .regular w Min Max) w .regular (-half w) (half w - 1) := by
  have hminv := min_val
  have hmaxv := max_val
  have h2 := two_le_half_maxDigits
  have hpred : Min - MinDelta ≠ Max := pred_ne_of_le (by omega) (by omega)
  have hmin := getSignedMinValue_val hw.1 hw.2
  have hmax := getSignedMaxValue_val hw.1 hw.2
  have hP := half_pos w
  apply yields_of_normalizeRange hw
  simp only [normalizeRange]
  rw [if_neg hpred, if_neg (by rw [gt_iff_lt, SignMag.lt_iff]; omega), if_pos ⟨trivial, trivial⟩,
    repair_of_le (by omega)]
  exact yieldsBounds_ok hmin hmax

/-- The infinite bounds give all the values. -/
theorem denotes_infinite (hw : 0 < w ∧ w ≤ maxDigits) :
    Denotes (ofBounds .regular w Min Max) w (signedRange w) := by
  refine (yields_infinite hw).denotes.congr fun v => ?_
  exact ⟨fun h => h.1, fun h => ⟨h, h.1, by have := h.2; omega⟩⟩

/-- Anti bounds within the limits keep what is outside of them; at the capacity
    an infinite bound, or both, is no exception. -/
theorem denotes_anti (hw : 0 < w ∧ w ≤ maxDigits) (hlo : -half w ≤ lb.val)
    (hle : lb.val ≤ ub.val) (hhi : ub.val < half w) :
    Denotes (ofBounds .anti w lb ub) w {v | v ∈ signedRange w ∧ (v < lb.val ∨ ub.val < v)} := by
  have hcap := half_le_half hw.2
  by_cases hmin : lb = Min
  · have hlb := eq_min_iff.mp hmin
    by_cases hmax : ub = Max
    · have hub := eq_max_iff.mp hmax
      have hx : ofBounds .anti w lb ub = .ok ⟨lb, ub, w, .empty, hw⟩ := by
        rw [ofBounds_eq hw]
        simp only [normalizeRange]
        rw [if_neg (by rw [gt_iff_lt, SignMag.lt_iff]; omega), if_pos ⟨hmin, hmax⟩]
        rfl
      refine ⟨_, hx, rfl, ?_⟩
      ext v
      refine ⟨fun h => h.2.elim, ?_⟩
      rintro ⟨⟨h1, h2⟩, h⟩
      omega
    · have hub := mt eq_max_iff.mpr hmax
      have hsucc : (ub + MinDelta).val = ub.val + 1 := add_minDelta_val (by omega)
      have hy : Yields (ofBounds .anti w lb ub) w _ _ _ := yields_anti_fromMin hw hlb (by omega)
        (by omega) ((normalizeToMax_inside hw (by omega) (by omega)).repair (by omega))
      refine hy.denotes.congr fun v => and_congr_right ?_
      rintro ⟨hv1, hv2⟩
      show _ ∧ _ ↔ _
      omega
  · have hlb := mt eq_min_iff.mpr hmin
    by_cases hmax : ub = Max
    · have hub := eq_max_iff.mp hmax
      have hpred : (lb - MinDelta).val = lb.val - 1 := sub_minDelta_val (by omega)
      have hy : Yields (ofBounds .anti w lb ub) w _ _ _ := yields_anti_toMax hw (by omega)
        (by omega) hub ((normalizeFromMin_inside hw (by omega) (by omega)).repair (by omega))
      refine hy.denotes.congr fun v => and_congr_right ?_
      rintro ⟨hv1, hv2⟩
      show _ ∧ _ ↔ _
      omega
    · have hub := mt eq_max_iff.mpr hmax
      exact (yields_anti hw (by omega) hle (by omega)
        ((normalizeAnti_inside hw hlo hle hhi).repair hle)).denotes

end Denotes

/-! ## The complement of an Anti range -/

section Operands

variable {a b : Range} {x : Int}

/-- The complement of a well-formed Anti range is the Regular range of its bounds. -/
theorem getAnti_of_anti (ht : a.type = .anti) (h : a.InLimits) :
    a.getAnti = .ok ⟨a.l, a.u, a.bw, .regular, a.bw_valid⟩ := by
  obtain ⟨r, hr, hbw, hrt, hl, hu⟩ := ofBounds_regular_inside a.bw_valid h.1 h.2.1 h.2.2
  have hr' : r = ⟨a.l, a.u, a.bw, .regular, a.bw_valid⟩ := by
    obtain ⟨l, u, bw, t, hv⟩ := r
    obtain rfl : bw = a.bw := hbw
    obtain rfl : t = .regular := hrt
    obtain rfl : l = a.l := SignMag.ext hl
    obtain rfl : u = a.u := SignMag.ext hu
    rfl
  unfold getAnti
  rw [ht]
  exact hr.trans (congrArg Except.ok hr')

theorem proper_of_ne (he : a.type ≠ .empty) (hu : a.type ≠ .unknown) : a.Proper := by
  unfold Proper
  cases ht : a.type with
  | empty => exact absurd ht he
  | unknown => exact absurd ht hu
  | regular => exact Or.inl rfl
  | anti => exact Or.inr rfl

/-- The two shapes of a well-formed Regular range, in values. -/
theorem WellFormed.regular_bounds (h : a.WellFormed) (ht : a.type = .regular) :
    (a.l.val = -half maxDigits ∧ a.u.val = half maxDigits - 1) ∨
      (-half a.bw ≤ a.l.val ∧ a.l.val ≤ a.u.val ∧ a.u.val < half a.bw) := by
  rw [← eq_min_iff, ← eq_max_iff]
  exact h.1 ht

/-- The values of a Regular range lie between its bounds, infinite or not. -/
theorem gamma_of_limits (ht : a.type = .regular) (h : a.InLimits) :
    a.gamma = Set.Icc a.l.val a.u.val := by
  ext x
  rw [mem_gamma_of_regular ht]
  exact ⟨fun hx => hx.2, fun hx => ⟨⟨h.1.trans hx.1, hx.2.trans_lt h.2.2⟩, hx⟩⟩

theorem gamma_of_infinite (ht : a.type = .regular) (hl : a.l = Min) (hu : a.u = Max) :
    a.gamma = signedRange a.bw := by
  have hcap := half_le_half a.bw_valid.2
  ext x
  rw [mem_gamma_of_regular ht, hl, hu, min_val, max_val, mem_signedRange]
  exact ⟨fun hx => hx.1, fun hx => ⟨hx, by omega, by omega⟩⟩

end Operands

/-! ## Intersection -/

/-- No common value is lost, an empty result means that there is none, and two
    Regular ranges are intersected exactly. -/
def IntersectSound (a b : Range) : Prop :=
  ∃ r, a.intersectWith b = .ok r ∧ r.bw = a.bw ∧ a.gamma ∩ b.gamma ⊆ r.gamma ∧
    (r.type = .empty → a.gamma ∩ b.gamma = ∅) ∧
    (a.type = .regular → b.type = .regular → r.gamma = a.gamma ∩ b.gamma)

section Intersect

variable {a b : Range}

theorem gamma_of_empty (h : a.type = .empty) : a.gamma = ∅ := by
  ext x
  refine ⟨fun hx => ?_, fun hx => hx.elim⟩
  have := hx.2
  rw [h] at this
  exact this

theorem intersectSound_of_eq (h : Denotes (a.intersectWith b) a.bw (a.gamma ∩ b.gamma)) :
    IntersectSound a b := by
  obtain ⟨r, hr, hbw, hg⟩ := h
  refine ⟨r, hr, hbw, hg.ge, fun ht => ?_, fun _ _ => hg⟩
  rw [← hg, gamma_of_empty ht]

theorem intersectSound_of_subset {s : Set Int} (h : Denotes (a.intersectWith b) a.bw s)
    (hs : a.gamma ∩ b.gamma ⊆ s) (hanti : a.type = .anti ∨ b.type = .anti) :
    IntersectSound a b := by
  obtain ⟨r, hr, hbw, rfl⟩ := h
  refine ⟨r, hr, hbw, hs, fun ht => ?_, fun ha hb => ?_⟩
  · rw [gamma_of_empty ht] at hs
    exact Set.subset_eq_empty hs rfl
  · rcases hanti with h | h
    · rw [ha] at h
      cases h
    · rw [hb] at h
      cases h

theorem intersectWith_of_regular (ha : a.type = .regular) (hb : b.type = .regular) :
    a.intersectWith b = if (if a.u < b.u then a.u else b.u) < (if a.l > b.l then a.l else b.l)
      then ofType .empty a.bw
      else ofBounds .regular a.bw (if a.l > b.l then a.l else b.l)
        (if a.u < b.u then a.u else b.u) := by
  have hna : a.type ≠ .anti := by rw [ha]; decide
  have hnb : b.type ≠ .anti := by rw [hb]; decide
  unfold intersectWith
  rw [onProper_of (Or.inl ha) (Or.inl hb), if_pos (by simp [ha, hb]), getLower_eq hna,
    getLower_eq hnb, getUpper_eq hna, getUpper_eq hnb]
  rfl

/-- The greater of two bounds. -/
theorem ite_gt_val (p q : APInt) : (if p > q then p else q).val = max p.val q.val := by
  simp only [gt_iff_lt, SignMag.lt_iff]
  split <;> omega

/-- The smaller of two bounds. -/
theorem ite_lt_val (p q : APInt) : (if p < q then p else q).val = min p.val q.val := by
  simp only [SignMag.lt_iff]
  split <;> omega

theorem intersectWith_regular (ha : a.type = .regular) (hb : b.type = .regular)
    (hwa : a.WellFormed) (hwb : b.WellFormed) (hbw : b.bw = a.bw) :
    Denotes (a.intersectWith b) a.bw (a.gamma ∩ b.gamma) := by
  have hl := ite_gt_val a.l b.l
  have hu := ite_lt_val a.u b.u
  have hmem : ∀ v, v ∈ a.gamma ∩ b.gamma ↔ (-half a.bw ≤ v ∧ v < half a.bw) ∧
      max a.l.val b.l.val ≤ v ∧ v ≤ min a.u.val b.u.val := by
    intro v
    rw [Set.mem_inter_iff, mem_gamma_of_regular ha, mem_gamma_of_regular hb, hbw]
    omega
  rw [intersectWith_of_regular ha hb]
  by_cases hinf : (a.l = Min ∧ a.u = Max) ∧ b.l = Min ∧ b.u = Max
  · obtain ⟨⟨h1, h2⟩, h3, h4⟩ := hinf
    have hP := half_pos maxDigits
    have hminv := min_val
    have hmaxv := max_val
    have hall : a.gamma ∩ b.gamma = signedRange a.bw := by
      rw [gamma_of_infinite ha h1 h2, gamma_of_infinite hb h3 h4, hbw, Set.inter_self]
    rw [hall, h1, h2, h3, h4, ite_self, ite_self, if_neg (by rw [SignMag.lt_iff]; omega)]
    exact denotes_infinite a.bw_valid
  -- one operand is within the limits, and so are the bounds of the result
  have hcap := half_le_half a.bw_valid.2
  have hin : -half a.bw ≤ max a.l.val b.l.val ∧ min a.u.val b.u.val < half a.bw := by
    rcases hwa.1 ha with h | ⟨h1, -, h2⟩
    · rcases hwb.1 hb with h' | ⟨h1, -, h2⟩
      · exact absurd ⟨h, h'⟩ hinf
      · rw [hbw] at h1 h2
        omega
    · omega
  by_cases hcross : min a.u.val b.u.val < max a.l.val b.l.val
  · rw [if_pos (by rwa [SignMag.lt_iff, hl, hu])]
    refine (denotes_empty a.bw_valid).congr fun v => ?_
    rw [hmem]
    exact ⟨fun h => h.elim, fun h => by omega⟩
  · rw [if_neg (by rwa [SignMag.lt_iff, hl, hu])]
    refine (denotes_regular a.bw_valid (by omega) (by omega) (by omega)).congr fun v => ?_
    rw [hmem, hl, hu, Set.mem_Icc]
    omega

/-- What an Anti range has in common with a Regular one is kept; only where the
    excluded interval splits the Regular range is something else kept too. -/
theorem intersectAntiRegular_sound (ha : a.type = .anti) (hb : b.type = .regular)
    (hwa : a.WellFormed) (hwb : b.WellFormed) (hbw : b.bw = a.bw) {w : Nat} (hw : w = a.bw) :
    ∃ s, Denotes (intersectAntiRegular w a b) w s ∧ a.gamma ∩ b.gamma ⊆ s := by
  subst hw
  have hlim := hwa.2 ha
  have hnb : b.type ≠ .anti := by rw [hb]; decide
  have hcap := half_le_half a.bw_valid.2
  obtain ⟨h1, h2, h3⟩ := hlim
  have hmem : ∀ v ∈ a.gamma ∩ b.gamma, (-half a.bw ≤ v ∧ v < half a.bw) ∧
      (v < a.l.val ∨ a.u.val < v) ∧ b.l.val ≤ v ∧ v ≤ b.u.val := fun v hv =>
    ⟨hv.1.1, ((mem_gamma_of_anti ha).mp hv.1).2, ((mem_gamma_of_regular hb).mp hv.2).2⟩
  have hbounds := hwb.regular_bounds hb
  rw [hbw] at hbounds
  unfold intersectAntiRegular
  rw [getAnti_of_anti ha (hwa.2 ha), ok_bind, getLower_eq (by simp), getUpper_eq (by simp),
    getLower_eq hnb, getUpper_eq hnb]
  simp only [ok_bind, ge_iff_le, gt_iff_lt, SignMag.le_iff, SignMag.lt_iff]
  by_cases hleft : a.l.val ≤ b.l.val
  · rw [if_pos hleft]
    by_cases hright : b.u.val ≤ a.u.val
    · -- the Regular range is excluded
      rw [if_pos hright]
      refine ⟨∅, denotes_empty a.bw_valid, fun v hv => ?_⟩
      have := hmem v hv
      omega
    · -- the Regular range ends past the excluded interval
      rw [if_neg hright]
      have hsucc : (a.u + 1).val = a.u.val + 1 := add_minDelta_val (by omega)
      have hl : (if a.u.val < b.l.val then b.l else a.u + 1).val =
          max b.l.val (a.u.val + 1) := by split <;> omega
      refine ⟨_, denotes_regular a.bw_valid (by omega) (by omega) (by omega), fun v hv => ?_⟩
      have := hmem v hv
      rw [Set.mem_Icc, hl]
      omega
  · rw [if_neg hleft]
    by_cases hright : b.u.val ≤ a.u.val
    · -- the Regular range begins before the excluded interval
      rw [if_pos hright, throwAssert_of (by omega), ok_bind]
      have hpred : (a.l - 1).val = a.l.val - 1 := sub_minDelta_val (by omega)
      have hu : (if b.u.val < a.l.val then b.u else a.l - 1).val =
          min b.u.val (a.l.val - 1) := by split <;> omega
      refine ⟨_, denotes_regular a.bw_valid (by omega) (by omega) (by omega), fun v hv => ?_⟩
      have := hmem v hv
      rw [Set.mem_Icc, hu]
      omega
    · rw [if_neg hright]
      split
      · exact ⟨_, denotes_ok, fun v hv => hv.1⟩
      · rw [← hbw, ite_self]
        exact ⟨_, denotes_ok, fun v hv => hv.2⟩

/-- Of two excluded intervals, nothing outside of both is excluded. -/
theorem intersectAnti_sound {w : Nat} (hw : 0 < w ∧ w ≤ maxDigits) {la ua lb ub : APInt}
    (ha : -half w ≤ la.val ∧ la.val ≤ ua.val ∧ ua.val < half w)
    (hb : -half w ≤ lb.val ∧ lb.val ≤ ub.val ∧ ub.val < half w) :
    ∃ s, Denotes (intersectAnti w la ua lb ub) w s ∧
      ∀ v ∈ signedRange w, (v < la.val ∨ ua.val < v) → (v < lb.val ∨ ub.val < v) → v ∈ s := by
  have hcap := half_le_half hw.2
  have hsucc : (ua + 1).val = ua.val + 1 := add_minDelta_val (by omega)
  unfold intersectAnti
  simp only [gt_iff_lt, SignMag.lt_iff, hsucc]
  by_cases hgap : ua.val + 1 < lb.val
  · rw [if_pos hgap]
    exact ⟨_, denotes_anti hw ha.1 ha.2.1 ha.2.2, fun v hv h _ => ⟨hv, h⟩⟩
  rw [if_neg hgap]
  have hu : (if ub.val < ua.val then ua else ub).val = max ua.val ub.val := by split <;> omega
  by_cases hall : la = Min ∧ (if ub.val < ua.val then ua else ub) = Max
  · -- everything is excluded
    rw [if_pos hall]
    obtain ⟨hmin, hmax⟩ := hall
    rw [eq_min_iff] at hmin
    rw [eq_max_iff, hu] at hmax
    refine ⟨∅, denotes_empty hw, fun v hv h1 h2 => ?_⟩
    rw [mem_signedRange] at hv
    omega
  · rw [if_neg hall]
    refine ⟨_, denotes_anti hw ha.1 (by omega) (by omega), fun v hv h1 h2 => ⟨hv, ?_⟩⟩
    rw [hu]
    omega

theorem intersectWith_of_anti (ha : a.type = .anti) (hb : b.type = .anti) (hla : a.InLimits)
    (hlb : b.InLimits) :
    a.intersectWith b = if a.l > b.l then intersectAnti a.bw b.l b.u a.l a.u
      else intersectAnti a.bw a.l a.u b.l b.u := by
  unfold intersectWith
  rw [onProper_of (Or.inr ha) (Or.inr hb), if_neg (by simp [ha]), if_neg (by simp [hb]),
    if_neg (by simp [ha]), getAnti_of_anti ha hla, getAnti_of_anti hb hlb]
  rfl

theorem intersectWith_of_anti_regular (ha : a.type = .anti) (hb : b.type = .regular) :
    a.intersectWith b = intersectAntiRegular a.bw a b := by
  unfold intersectWith
  rw [onProper_of (Or.inr ha) (Or.inl hb), if_neg (by simp [ha]), if_pos (by simp [ha, hb])]

theorem intersectWith_of_regular_anti (ha : a.type = .regular) (hb : b.type = .anti) :
    a.intersectWith b = intersectAntiRegular a.bw b a := by
  unfold intersectWith
  rw [onProper_of (Or.inl ha) (Or.inr hb), if_neg (by simp [hb]), if_neg (by simp [ha]),
    if_pos (by simp [ha, hb])]

theorem intersectWith_of_empty (h : a.type = .empty ∨ b.type = .empty) :
    a.intersectWith b = ofType .empty a.bw := by
  unfold intersectWith onProper
  rw [if_pos (by rwa [Bool.or_eq_true, isEmpty_iff, isEmpty_iff])]

theorem intersectSound_of_wellFormed (hwa : a.WellFormed) (hwb : b.WellFormed)
    (hbw : b.bw = a.bw) (hua : a.type ≠ .unknown) (hub : b.type ≠ .unknown) :
    IntersectSound a b := by
  by_cases hemp : a.type = .empty ∨ b.type = .empty
  · have hg : a.gamma ∩ b.gamma = ∅ := by
      rcases hemp with h | h
      · rw [gamma_of_empty h, Set.empty_inter]
      · rw [gamma_of_empty h, Set.inter_empty]
    apply intersectSound_of_eq
    rw [intersectWith_of_empty hemp, hg]
    exact denotes_empty a.bw_valid
  obtain ⟨hea, heb⟩ := not_or.mp hemp
  have hpa : a.Proper := proper_of_ne hea hua
  have hpb : b.Proper := proper_of_ne heb hub
  rcases hpa with ha | ha <;> rcases hpb with hb | hb
  · exact intersectSound_of_eq (intersectWith_regular ha hb hwa hwb hbw)
  · obtain ⟨s, hs, hsub⟩ := intersectAntiRegular_sound hb ha hwb hwa hbw.symm hbw.symm
    rw [← intersectWith_of_regular_anti ha hb] at hs
    exact intersectSound_of_subset hs (by rwa [Set.inter_comm]) (Or.inr hb)
  · obtain ⟨s, hs, hsub⟩ := intersectAntiRegular_sound ha hb hwa hwb hbw rfl
    rw [← intersectWith_of_anti_regular ha hb] at hs
    exact intersectSound_of_subset hs hsub (Or.inl ha)
  · have hla := hwa.2 ha
    have hlb := hwb.2 hb
    have hlb' := hlb
    unfold InLimits at hlb'
    rw [hbw] at hlb'
    have hmem : ∀ v ∈ a.gamma ∩ b.gamma, v ∈ signedRange a.bw ∧
        (v < a.l.val ∨ a.u.val < v) ∧ (v < b.l.val ∨ b.u.val < v) := fun v hv =>
      ⟨hv.1.1, ((mem_gamma_of_anti ha).mp hv.1).2, ((mem_gamma_of_anti hb).mp hv.2).2⟩
    have hx := intersectWith_of_anti ha hb hla hlb
    by_cases hgt : a.l > b.l
    · rw [if_pos hgt] at hx
      obtain ⟨s, hs, hsub⟩ := intersectAnti_sound a.bw_valid hlb' hla
      rw [← hx] at hs
      exact intersectSound_of_subset hs (fun v hv => by
        obtain ⟨h1, h2, h3⟩ := hmem v hv
        exact hsub v h1 h3 h2) (Or.inl ha)
    · rw [if_neg hgt] at hx
      obtain ⟨s, hs, hsub⟩ := intersectAnti_sound a.bw_valid hla hlb'
      rw [← hx] at hs
      exact intersectSound_of_subset hs (fun v hv => by
        obtain ⟨h1, h2, h3⟩ := hmem v hv
        exact hsub v h1 h2 h3) (Or.inl ha)

/-- Intersection loses no common value, at any width. -/
theorem intersectWith_sound (a b : Range) (hwa : a.WellFormed) (hwb : b.WellFormed)
    (hbw : b.bw = a.bw) (hua : a.type ≠ .unknown) (hub : b.type ≠ .unknown) :
    IntersectSound a b :=
  intersectSound_of_wellFormed hwa hwb hbw hua hub

/-- An anti range and an interval of eight bits. -/
def meetOperands : {p : Range × Range // p.1.WellFormed ∧ p.2.WellFormed} :=
  ⟨(⟨-100, -90, 8, .anti, bwValid_eight⟩, ⟨-95, 7, 8, .regular, bwValid_eight⟩), by decide +kernel⟩

theorem intersectWith_sound_at_eight :
    IntersectSound ⟨-100, -90, 8, .anti, by decide⟩ ⟨-95, 7, 8, .regular, by decide⟩ :=
  intersectWith_sound _ _ meetOperands.property.1 meetOperands.property.2 rfl (by decide)
    (by decide)

end Intersect

/-! ## Union -/

/-- The union is a range that holds the values of both operands. -/
def UnionSound (a b : Range) : Prop :=
  ∃ r, a.unionWith b = .ok r ∧ r.bw = a.bw ∧ a.gamma ⊆ r.gamma ∧ b.gamma ⊆ r.gamma

/-- The operands whose union loses a value or is not computed: two Anti ranges
    of which the receiver excludes more on both sides, and an Anti range with an
    infinite bound, which only the capacity has room for. -/
def UnionLoss (a b : Range) : Prop :=
  (a.type = .anti ∧ b.type = .anti ∧ a.l.val < b.l.val ∧ b.u.val < a.u.val) ∨
  (a.type = .anti ∧ b.type ≠ .empty ∧ (a.l = Min ∨ a.u = Max)) ∨
  (b.type = .anti ∧ a.type ≠ .empty ∧ (b.l = Min ∨ b.u = Max))

section Union

variable {a b : Range}

theorem unionSound_of_denotes {s : Set Int} (h : Denotes (a.unionWith b) a.bw s)
    (ha : a.gamma ⊆ s) (hb : b.gamma ⊆ s) : UnionSound a b := by
  obtain ⟨r, hr, hbw, rfl⟩ := h
  exact ⟨r, hr, hbw, ha, hb⟩

theorem gamma_subset (a : Range) : a.gamma ⊆ signedRange a.bw := fun _ hx => hx.1

theorem unionWith_of_empty_left (h : a.type = .empty) : a.unionWith b = .ok b := by
  unfold unionWith
  rw [if_pos (by simp [h])]

theorem unionWith_of_empty_right (ha : a.Proper) (h : b.type = .empty) :
    a.unionWith b = .ok a := by
  unfold unionWith
  rw [if_neg, if_pos (by simp [h])]
  rw [Bool.or_eq_true]
  exact not_or.mpr ⟨ha.not_empty, ha.not_unknown⟩

/-- On Regular and Anti operands `unionWith` reaches its four cases. -/
theorem not_improper (ha : a.Proper) : ¬ (a.isEmpty || a.isUnknown) = true := by
  rw [Bool.or_eq_true]
  exact not_or.mpr ⟨ha.not_empty, ha.not_unknown⟩

theorem unionWith_of_regular (ha : a.type = .regular) (hb : b.type = .regular) :
    a.unionWith b = ofBounds .regular a.bw (if a.l < b.l then a.l else b.l)
      (if a.u > b.u then a.u else b.u) := by
  have hna : a.type ≠ .anti := by rw [ha]; decide
  have hnb : b.type ≠ .anti := by rw [hb]; decide
  unfold unionWith
  rw [if_neg (not_improper (Or.inl ha)), if_neg (not_improper (Or.inl hb)),
    if_pos (by simp [ha, hb]), getLower_eq hna, getLower_eq hnb, getUpper_eq hna, getUpper_eq hnb]
  rfl

theorem unionWith_of_anti_regular (ha : a.type = .anti) (hb : b.type = .regular) :
    a.unionWith b = unionAntiRegular a.bw a b := by
  unfold unionWith
  rw [if_neg (not_improper (Or.inr ha)), if_neg (not_improper (Or.inl hb)),
    if_neg (by simp [ha]), if_pos (by simp [ha, hb])]

theorem unionWith_of_regular_anti (ha : a.type = .regular) (hb : b.type = .anti) :
    a.unionWith b = unionAntiRegular a.bw b a := by
  unfold unionWith
  rw [if_neg (not_improper (Or.inl ha)), if_neg (not_improper (Or.inr hb)),
    if_neg (by simp [hb]), if_neg (by simp [ha]), if_pos (by simp [ha, hb])]

theorem unionWith_regular (ha : a.type = .regular) (hb : b.type = .regular)
    (hwa : a.WellFormed) (hwb : b.WellFormed) (hbw : b.bw = a.bw) : UnionSound a b := by
  have hl := ite_lt_val a.l b.l
  have hu := ite_gt_val a.u b.u
  have hx := unionWith_of_regular ha hb
  have hcap := half_le_half a.bw_valid.2
  have hga := gamma_subset a
  have hgb := gamma_subset b
  rw [hbw] at hgb
  by_cases hinf : (if a.l < b.l then a.l else b.l) = Min ∧ (if a.u > b.u then a.u else b.u) = Max
  · rw [hinf.1, hinf.2] at hx
    exact unionSound_of_denotes (hx ▸ denotes_infinite a.bw_valid) hga hgb
  rw [eq_min_iff, eq_max_iff, hl, hu] at hinf
  have hba := hwa.regular_bounds ha
  have hbb := hwb.regular_bounds hb
  rw [hbw] at hbb
  refine unionSound_of_denotes (hx ▸ denotes_regular a.bw_valid (by omega) (by omega)
    (by omega)) (fun v hv => ?_) (fun v hv => ?_)
  · have := ((mem_gamma_of_regular ha).mp hv).2
    rw [Set.mem_Icc]
    omega
  · have := ((mem_gamma_of_regular hb).mp hv).2
    rw [Set.mem_Icc]
    omega

/-- An Anti and a Regular range: what neither holds stays excluded if it is an
    interval. -/
theorem unionAntiRegular_sound (ha : a.type = .anti) (hb : b.type = .regular)
    (hwa : a.WellFormed) (hwb : b.WellFormed) (hbw : b.bw = a.bw) {w : Nat} (hw : w = a.bw)
    (hmin : a.l ≠ Min) (hmax : a.u ≠ Max) :
    ∃ s, Denotes (unionAntiRegular w a b) w s ∧ a.gamma ⊆ s ∧ b.gamma ⊆ s := by
  subst hw
  obtain ⟨h1, h2, h3⟩ := hwa.2 ha
  have hnb : b.type ≠ .anti := by rw [hb]; decide
  have hcap := half_le_half a.bw_valid.2
  have hbounds := hwb.regular_bounds hb
  rw [hbw] at hbounds
  have hma : ∀ v ∈ a.gamma, v ∈ signedRange a.bw ∧ (v < a.l.val ∨ a.u.val < v) :=
    fun v hv => (mem_gamma_of_anti ha).mp hv
  have hmb : ∀ v ∈ b.gamma, v ∈ signedRange a.bw ∧ b.l.val ≤ v ∧ v ≤ b.u.val := fun v hv => by
    have := (mem_gamma_of_regular hb).mp hv
    rwa [hbw] at this
  have hga := gamma_subset a
  have hgb := gamma_subset b
  rw [hbw] at hgb
  unfold unionAntiRegular
  rw [getAnti_of_anti ha (hwa.2 ha), ok_bind, getLower_eq (by simp), getUpper_eq (by simp),
    getLower_eq hnb, getUpper_eq hnb]
  simp only [ok_bind, throwAssert_of hmin, throwAssert_of hmax, ge_iff_le, gt_iff_lt,
    SignMag.le_iff, SignMag.lt_iff]
  rw [ne_eq, eq_min_iff] at hmin
  rw [ne_eq, eq_max_iff] at hmax
  by_cases hdisj : b.u.val < a.l.val ∨ a.u.val < b.l.val
  · -- nothing of the Regular range is excluded
    rw [if_pos hdisj]
    refine ⟨_, denotes_ok, subset_rfl, fun v hv => (mem_gamma_of_anti ha).mpr ?_⟩
    obtain ⟨hv, h⟩ := hmb v hv
    exact ⟨hv, by omega⟩
  rw [if_neg hdisj]
  by_cases hcover : b.l.val < a.l.val ∧ a.u.val < b.u.val
  · rw [if_pos hcover]
    exact ⟨_, denotes_full a.bw_valid, hga, hgb⟩
  rw [if_neg hcover]
  by_cases hleft : b.l.val ≤ a.l.val ∧ b.u.val < a.u.val
  · -- the lower part of the excluded interval is covered
    rw [if_pos hleft]
    have hsucc : (b.u + 1).val = b.u.val + 1 := add_minDelta_val (by omega)
    refine ⟨_, denotes_anti a.bw_valid (by omega) (by omega) h3, fun v hv => ?_, fun v hv => ?_⟩
    · obtain ⟨hv, h⟩ := hma v hv
      exact ⟨hv, by omega⟩
    · obtain ⟨hv, h⟩ := hmb v hv
      exact ⟨hv, by omega⟩
  rw [if_neg hleft]
  by_cases hright : a.l.val < b.l.val ∧ a.u.val ≤ b.u.val
  · -- the upper part of the excluded interval is covered
    rw [if_pos hright]
    have hpred : (b.l - 1).val = b.l.val - 1 := sub_minDelta_val (by omega)
    refine ⟨_, denotes_anti a.bw_valid h1 (by omega) (by omega), fun v hv => ?_, fun v hv => ?_⟩
    · obtain ⟨hv, h⟩ := hma v hv
      exact ⟨hv, by omega⟩
    · obtain ⟨hv, h⟩ := hmb v hv
      exact ⟨hv, by omega⟩
  · rw [if_neg hright]
    exact ⟨_, denotes_full a.bw_valid, hga, hgb⟩

/-- The lower and the upper assertion of an Anti operand of a mixed union. -/
theorem unionAntiRegular_error (ha : a.type = .anti) (hla : a.InLimits) {w : Nat}
    (h : a.l = Min ∨ a.u = Max) (r : Range) : unionAntiRegular w a b ≠ .ok r := by
  unfold unionAntiRegular
  rw [getAnti_of_anti ha hla, ok_bind, getLower_eq (by simp), getUpper_eq (by simp), ok_bind,
    ok_bind]
  intro hx
  obtain ⟨hmin, hx⟩ := throwAssert_bind_ok hx
  obtain ⟨hmax, -⟩ := throwAssert_bind_ok hx
  exact h.elim hmin hmax

/-- The comparisons of two Anti operands. -/
def unionAnti (a b : Range) : Except Error Range :=
  if a.l > b.u ∨ a.u < b.l then ofType .regular a.bw
  else if a.l > b.l ∧ a.u < b.u then .ok a
  else if b.l > a.l ∧ b.u < a.u then .ok a
  else if a.l ≥ b.l ∧ b.u ≤ a.u then ofBounds .anti a.bw a.l b.u
  else if b.l ≥ a.l ∧ a.u ≤ b.u then ofBounds .anti a.bw b.l a.u
  else .error (.unreachable "unsupported condition")

theorem unionWith_of_anti (ha : a.type = .anti) (hb : b.type = .anti) (hla : a.InLimits)
    (hlb : b.InLimits) :
    a.unionWith b = (throwAssert (a.l ≠ Min) "" >>= fun _ => throwAssert (a.u ≠ Max) "" >>= fun _ =>
      throwAssert (b.l ≠ Min) "" >>= fun _ => throwAssert (b.u ≠ Max) "" >>= fun _ =>
        unionAnti a b) := by
  unfold unionWith
  rw [if_neg (not_improper (Or.inr ha)), if_neg (not_improper (Or.inr hb)),
    if_neg (by simp [ha]), if_neg (by simp [hb]), if_neg (by simp [ha]), getAnti_of_anti ha hla,
    getAnti_of_anti hb hlb]
  rfl

theorem unionAnti_sound_iff (ha : a.type = .anti) (hb : b.type = .anti) (hla : a.InLimits)
    (hlb : b.InLimits) (hbw : b.bw = a.bw) :
    (∃ r, unionAnti a b = .ok r ∧ r.bw = a.bw ∧ a.gamma ⊆ r.gamma ∧ b.gamma ⊆ r.gamma) ↔
      ¬ (a.l.val < b.l.val ∧ b.u.val < a.u.val) := by
  obtain ⟨a1, a2, a3⟩ := hla
  obtain ⟨b1, b2, b3⟩ := hlb
  rw [hbw] at b1 b3
  have hma : ∀ v, v ∈ a.gamma ↔ v ∈ signedRange a.bw ∧ (v < a.l.val ∨ a.u.val < v) :=
    fun v => mem_gamma_of_anti ha
  have hmb : ∀ v, v ∈ b.gamma ↔ v ∈ signedRange a.bw ∧ (v < b.l.val ∨ b.u.val < v) := fun v => by
    rw [mem_gamma_of_anti hb, hbw]
    exact Iff.rfl
  have hga := gamma_subset a
  have hgb := gamma_subset b
  rw [hbw] at hgb
  unfold unionAnti
  simp only [ge_iff_le, gt_iff_lt, SignMag.le_iff, SignMag.lt_iff]
  by_cases hdisj : b.u.val < a.l.val ∨ a.u.val < b.l.val
  · rw [if_pos hdisj]
    refine iff_of_true ?_ (by omega)
    obtain ⟨r, hr, hw, hg⟩ := denotes_full a.bw_valid
    exact ⟨r, hr, hw, hg ▸ hga, hg ▸ hgb⟩
  rw [if_neg hdisj]
  by_cases hin : b.l.val < a.l.val ∧ a.u.val < b.u.val
  · rw [if_pos hin]
    refine iff_of_true ⟨a, rfl, rfl, subset_rfl, fun v hv => ?_⟩ (by omega)
    rw [hmb] at hv
    exact (hma v).mpr ⟨hv.1, by omega⟩
  rw [if_neg hin]
  by_cases hout : a.l.val < b.l.val ∧ b.u.val < a.u.val
  · -- the receiver's lower bound is a value of the other range only
    rw [if_pos hout]
    refine iff_of_false ?_ (not_not.mpr hout)
    rintro ⟨r, hr, -, -, hsub⟩
    cases hr
    have hmem := (hma _).mp (hsub ((hmb a.l.val).mpr ⟨⟨a1, by omega⟩, Or.inl hout.1⟩))
    omega
  rw [if_neg hout]
  refine iff_of_true ?_ hout
  -- the intervals overlap, and what they share stays excluded
  by_cases hleft : b.l.val ≤ a.l.val ∧ b.u.val ≤ a.u.val
  · rw [if_pos hleft]
    obtain ⟨r, hr, hw, hg⟩ : Denotes (ofBounds .anti a.bw a.l b.u) a.bw _ :=
      denotes_anti a.bw_valid a1 (by omega) b3
    refine ⟨r, hr, hw, fun v hv => ?_, fun v hv => ?_⟩
    · rw [hma] at hv
      exact hg ▸ ⟨hv.1, by omega⟩
    · rw [hmb] at hv
      exact hg ▸ ⟨hv.1, by omega⟩
  · rw [if_neg hleft, if_pos (by omega)]
    obtain ⟨r, hr, hw, hg⟩ : Denotes (ofBounds .anti a.bw b.l a.u) a.bw _ :=
      denotes_anti a.bw_valid b1 (by omega) a3
    refine ⟨r, hr, hw, fun v hv => ?_, fun v hv => ?_⟩
    · rw [hma] at hv
      exact hg ▸ ⟨hv.1, by omega⟩
    · rw [hmb] at hv
      exact hg ▸ ⟨hv.1, by omega⟩

theorem union_anti_regular_iff (ha : a.type = .anti) (hb : b.type = .regular)
    (hwa : a.WellFormed) (hwb : b.WellFormed) (hbw : b.bw = a.bw) {w : Nat} (hw : w = a.bw) :
    (∃ r, unionAntiRegular w a b = .ok r ∧ r.bw = w ∧ a.gamma ⊆ r.gamma ∧ b.gamma ⊆ r.gamma) ↔
      ¬ (a.l = Min ∨ a.u = Max) := by
  by_cases hinf : a.l = Min ∨ a.u = Max
  · refine iff_of_false ?_ (not_not.mpr hinf)
    rintro ⟨r, hr, -⟩
    exact unionAntiRegular_error ha (hwa.2 ha) hinf r hr
  · obtain ⟨hmin, hmax⟩ := not_or.mp hinf
    obtain ⟨s, ⟨r, hr, hrw, rfl⟩, h1, h2⟩ :=
      unionAntiRegular_sound ha hb hwa hwb hbw hw hmin hmax
    exact iff_of_true ⟨r, hr, hrw, h1, h2⟩ hinf

theorem union_anti_iff (ha : a.type = .anti) (hb : b.type = .anti) (hwa : a.WellFormed)
    (hwb : b.WellFormed) (hbw : b.bw = a.bw) : UnionSound a b ↔
      ¬ ((a.l.val < b.l.val ∧ b.u.val < a.u.val) ∨ (a.l = Min ∨ a.u = Max) ∨
        (b.l = Min ∨ b.u = Max)) := by
  have hx := unionWith_of_anti ha hb (hwa.2 ha) (hwb.2 hb)
  by_cases hinf : (a.l = Min ∨ a.u = Max) ∨ (b.l = Min ∨ b.u = Max)
  · -- one of the four assertions fails
    refine iff_of_false ?_ (not_not.mpr (Or.inr hinf))
    rintro ⟨r, hr, -⟩
    rw [hr] at hx
    obtain ⟨h1, hx⟩ := throwAssert_bind_ok hx.symm
    obtain ⟨h2, hx⟩ := throwAssert_bind_ok hx
    obtain ⟨h3, hx⟩ := throwAssert_bind_ok hx
    obtain ⟨h4, -⟩ := throwAssert_bind_ok hx
    exact hinf.elim (fun h => h.elim h1 h2) fun h => h.elim h3 h4
  · rw [UnionSound, hx]
    obtain ⟨⟨h1, h2⟩, h3, h4⟩ := (not_or.mp hinf).imp not_or.mp not_or.mp
    simp only [throwAssert_of h1, throwAssert_of h2, throwAssert_of h3, throwAssert_of h4, ok_bind]
    rw [unionAnti_sound_iff ha hb (hwa.2 ha) (hwb.2 hb) hbw]
    exact not_congr ⟨Or.inl, fun h => h.resolve_right hinf⟩

/-- The operands whose union holds the values of both. -/
theorem unionWith_sound_iff (a b : Range) (hwa : a.WellFormed) (hwb : b.WellFormed)
    (hbw : b.bw = a.bw) (hua : a.type ≠ .unknown) (hub : b.type ≠ .unknown) :
    UnionSound a b ↔ ¬ UnionLoss a b := by
  by_cases hea : a.type = .empty
  · refine iff_of_true ⟨b, unionWith_of_empty_left hea, hbw, ?_, subset_rfl⟩ ?_
    · rw [gamma_of_empty hea]
      exact Set.empty_subset _
    · simp [UnionLoss, hea]
  have hpa : a.Proper := proper_of_ne hea hua
  by_cases heb : b.type = .empty
  · refine iff_of_true ⟨a, unionWith_of_empty_right hpa heb, rfl, subset_rfl, ?_⟩ ?_
    · rw [gamma_of_empty heb]
      exact Set.empty_subset _
    · simp [UnionLoss, heb]
  have hpb : b.Proper := proper_of_ne heb hub
  rcases hpa with ha | ha <;> rcases hpb with hb | hb
  · refine iff_of_true (unionWith_regular ha hb hwa hwb hbw) ?_
    simp [UnionLoss, ha, hb]
  · have h := union_anti_regular_iff hb ha hwb hwa hbw.symm hbw.symm
    rw [← unionWith_of_regular_anti ha hb] at h
    simp only [UnionLoss, ha, hb, UnionSound, reduceCtorEq, false_and, false_or, true_and,
      ne_eq, not_false_eq_true, ← h]
    exact exists_congr fun r => and_congr_right fun _ => and_congr_right fun _ => and_comm
  · have h := union_anti_regular_iff ha hb hwa hwb hbw rfl
    rw [← unionWith_of_anti_regular ha hb] at h
    simp only [UnionLoss, ha, hb, UnionSound, reduceCtorEq, false_and, or_false, true_and,
      and_false, false_or, ne_eq, not_false_eq_true, ← h]
  · rw [union_anti_iff ha hb hwa hwb hbw]
    simp only [UnionLoss, ha, hb, true_and, ne_eq, reduceCtorEq, not_false_eq_true]

/-- Two overlapping anti ranges of eight bits. -/
def joinOperands : {p : Range × Range // p.1.WellFormed ∧ p.2.WellFormed} :=
  ⟨(⟨-100, -90, 8, .anti, bwValid_eight⟩, ⟨-95, 7, 8, .anti, bwValid_eight⟩), by decide +kernel⟩

/-- Two anti ranges, the second inside the first: the union answers the first, and
    loses a value of the second. -/
def lostUnion : {p : Range × Range // p.1.WellFormed ∧ p.2.WellFormed ∧
    unionWith p.1 p.2 = .ok p.1 ∧ (0 : Int) ∈ p.2.gamma ∧ (0 : Int) ∉ p.1.gamma} :=
  ⟨(⟨0, 9, 8, .anti, bwValid_eight⟩, ⟨3, 5, 8, .anti, bwValid_eight⟩), by decide +kernel⟩

theorem unionWith_sound_iff_at_eight :
    UnionSound ⟨-100, -90, 8, .anti, by decide⟩ ⟨-95, 7, 8, .anti, by decide⟩ ↔
      ¬ UnionLoss ⟨-100, -90, 8, .anti, by decide⟩ ⟨-95, 7, 8, .anti, by decide⟩ :=
  unionWith_sound_iff _ _ joinOperands.property.1 joinOperands.property.2 rfl (by decide)
    (by decide)

/-- All but zero to nine, joined with all but three to five: zero is a value of
    the second range and the first is returned. -/
theorem unionWith_not_sound :
    ¬ ∀ a b : Range, a.WellFormed → b.WellFormed → b.bw = a.bw → a.type ≠ .unknown →
      b.type ≠ .unknown → UnionSound a b := by
  intro h
  obtain ⟨hwa, hwb, hx, h0, h0'⟩ := lostUnion.property
  have hs := h _ _ hwa hwb (Eq.refl 8) (by decide) (by decide)
  unfold UnionSound at hs
  rw [hx] at hs
  obtain ⟨r, hr, -, -, hsub⟩ := hs
  injection hr with hr
  rw [← hr] at hsub
  exact h0' (hsub h0)

end Union

section Builds

variable {a b : Range} {w : Nat}

theorem builds_getAnti (ha : Built a) : Builds a.getAnti := by
  unfold getAnti
  split
  · exact builds_ofBounds
  · exact builds_ofBounds
  · exact builds_ofType
  · exact builds_ok ha

theorem builds_intersectAntiRegular (ha : Built a) (hb : Built b) :
    Builds (intersectAntiRegular w a b) := by
  unfold intersectAntiRegular
  exact builds_bind fun _ _ => builds_bind fun _ _ => builds_bind fun _ _ =>
    builds_bind fun _ _ => builds_bind fun _ _ =>
      builds_ite (builds_ite builds_ofType builds_ofBounds)
        (builds_ite (builds_bind fun _ _ => builds_ofBounds)
          (builds_ite (builds_ok ha) (builds_ite (builds_ok hb) (builds_ok hb))))

theorem builds_intersectAnti {la ua lb ub : APInt} : Builds (intersectAnti w la ua lb ub) := by
  unfold intersectAnti
  exact builds_ite builds_ofBounds (builds_ite builds_ofType builds_ofBounds)

theorem builds_intersectWith (ha : Built a) (hb : Built b) : Builds (a.intersectWith b) := by
  unfold intersectWith
  refine builds_onProper (builds_ite ?_ (builds_ite (builds_intersectAntiRegular ha hb)
    (builds_ite (builds_intersectAntiRegular hb ha) ?_)))
  · exact builds_bind fun _ _ => builds_bind fun _ _ => builds_bind fun _ _ =>
      builds_bind fun _ _ => builds_ite builds_ofType builds_ofBounds
  · exact builds_bind fun _ _ => builds_bind fun _ _ => builds_bind fun _ _ =>
      builds_bind fun _ _ => builds_bind fun _ _ => builds_bind fun _ _ =>
        builds_ite builds_intersectAnti builds_intersectAnti

theorem builds_unionAntiRegular (ha : Built a) : Builds (unionAntiRegular w a b) := by
  unfold unionAntiRegular
  exact builds_bind fun _ _ => builds_bind fun _ _ => builds_bind fun _ _ =>
    builds_bind fun _ _ => builds_bind fun _ _ => builds_bind fun _ _ => builds_bind fun _ _ =>
      builds_ite (builds_ok ha) (builds_ite builds_ofType
        (builds_ite builds_ofBounds (builds_ite builds_ofBounds builds_ofType)))

theorem builds_error {e : Error} : Builds (.error e) := fun _ h => by cases h

theorem builds_unionWith (ha : Built a) (hb : Built b) : Builds (a.unionWith b) := by
  unfold unionWith
  refine builds_ite (builds_ok hb) (builds_ite (builds_ok ha) (builds_ite ?_
    (builds_ite (builds_unionAntiRegular ha) (builds_ite (builds_unionAntiRegular hb) ?_))))
  · exact builds_bind fun _ _ => builds_bind fun _ _ => builds_bind fun _ _ =>
      builds_bind fun _ _ => builds_ofBounds
  · refine builds_bind fun _ _ => builds_bind fun _ _ => builds_bind fun _ _ =>
      builds_bind fun _ _ => builds_bind fun _ _ => builds_bind fun _ _ =>
        builds_bind fun _ _ => builds_bind fun _ _ => builds_bind fun _ _ =>
          builds_bind fun _ _ => ?_
    exact builds_ite builds_ofType (builds_ite (builds_ok ha) (builds_ite (builds_ok ha)
      (builds_ite builds_ofBounds (builds_ite builds_ofBounds builds_error))))

end Builds

end Range
end Bambu
