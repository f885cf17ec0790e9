/-
  Bambu.Utility.Range.Rem

  `Range::urem` and `Range::srem`.

  An unsigned remainder is below its dividend and below its divisor, which the
  eight candidates of `urem` enclose.  `srem` has three formulas; each keeps the
  sign of the dividend and stays below the larger of the two, so its bounds are
  within the limits at every width.
-/

import Bambu.Utility.Range.Div

namespace Bambu
namespace Range

open Bambu.Math APInt

/-! ## The operations -/

/-- The candidates of `urem`. -/
def uremCandidates (a b c d : APInt) : List APInt :=
  [if a < c then a else 0, if a < d then a else 0, if b < c then b else 0,
    if b < d then b else 0, if a < c then a else c - 1, if a < d then a else d - 1,
    if b < c then b else c - 1, if b < d then b else d - 1]

def urem (this other : Range) : Except Error Range :=
  onProper this other this.bw do
    if this.isAnti || other.isAnti then ofType .regular this.bw
    else do
      let l ← other.getLower
      let c ← other.getUnsignedMin
      if other.isConstant ∧ l = 0 then ofType .empty this.bw
      else if other.isConstant ∧ c = 1 then ofBounds .regular this.bw 0 0
      else do
        let a ← this.getUnsignedMin
        let b ← this.getUnsignedMax
        let d ← other.getUnsignedMax
        if c = 0 ∧ d = 0 then ofType .regular this.bw
        else ofCandidates this.bw (uremCandidates a b (if c = 0 then 1 else c) d)

def srem (this other : Range) : Except Error Range :=
  onProper this other this.bw do
    let full ← this.isFullSet
    if full ∨ this.isAnti ∨ other.isAnti then ofType .regular this.bw
    else do
      let a ← this.getLower
      let b ← this.getUpper
      let c ← other.getLower
      let d ← other.getUpper
      if c ≤ 0 ∧ d ≥ 0 then ofType .regular this.bw
      else
        let dmin := min c.abs d.abs
        let dmax := max c.abs d.abs
        let abs_min := min a.abs b.abs
        let abs_max := max a.abs b.abs
        if (abs_min < dmin ∧ dmin < abs_max) ∨ (abs_min < dmax ∧ dmax < abs_max) then
          ofBounds .regular this.bw
            (if a ≥ 0 then 0 else if a.abs < dmax then a else -(dmax - 1))
            (if b ≤ 0 then 0 else if b.abs < dmax then b else dmax - 1)
        else if abs_max < dmin then .ok this
        else
          ofBounds .regular this.bw (if a < 0 then -(dmax - 1) else 0)
            (if b > 0 then dmax - 1 else 0)

section Builds

variable {a b : Range}

theorem builds_urem : Builds (a.urem b) := by
  unfold urem
  refine builds_onProper (builds_ite builds_ofType (builds_bind fun _ _ => builds_bind fun _ _ =>
    builds_ite builds_ofType (builds_ite builds_ofBounds ?_)))
  exact builds_bind fun _ _ => builds_bind fun _ _ => builds_bind fun _ _ =>
    builds_ite builds_ofType builds_ofCandidates

theorem builds_srem (ha : Built a) : Builds (a.srem b) := by
  unfold srem
  refine builds_onProper (builds_bind fun _ _ => builds_ite builds_ofType ?_)
  exact builds_bind fun _ _ => builds_bind fun _ _ => builds_bind fun _ _ => builds_bind fun _ _ =>
    builds_ite builds_ofType (builds_ite builds_ofBounds
      (builds_ite (builds_ok ha) builds_ofBounds))

end Builds

/-! ## Unsigned remainder -/

section Urem

variable {a b : Range} {m n c d : APInt} {x y : Int}

theorem urem_of_anti (ha : a.Proper) (hb : b.Proper) (h : a.type = .anti ∨ b.type = .anti) :
    a.urem b = ofType .regular a.bw := by
  unfold urem
  rw [onProper_of ha hb, if_pos (by rwa [Bool.or_eq_true, isAnti_iff, isAnti_iff])]

theorem urem_of_regular (ha : a.type = .regular) (hb : b.type = .regular)
    (hma : UnsignedHull a m n) (hmb : UnsignedHull b c d) :
    a.urem b = if b.isConstant ∧ b.l = 0 then ofType .empty a.bw
      else if b.isConstant ∧ c = 1 then ofBounds .regular a.bw 0 0
      else if c = 0 ∧ d = 0 then ofType .regular a.bw
      else ofCandidates a.bw (uremCandidates m n (if c = 0 then 1 else c) d) := by
  have hnb : b.type ≠ .anti := by rw [hb]; decide
  unfold urem
  rw [onProper_of (Or.inl ha) (Or.inl hb), if_neg (by simp [ha, hb]), getLower_eq hnb,
    hma.1, hma.2.1, hmb.1, hmb.2.1]
  rfl

/-- A constant divisor with unsigned value one. -/
theorem emod_of_constant_one (hw : b.bw < maxDigits) (hc : b.isConstant = true)
    (hmin : b.getUnsignedMin = .ok 1) (hy : y ∈ b.gamma) (hy0 : y ≠ 0) : y % 2 ^ b.bw = 1 := by
  obtain ⟨ht, hlu⟩ := isConstant_iff.mp hc
  have hp : b.Proper := Or.inl ht
  have hyl := ((mem_gamma_of_regular ht).mp hy).2
  rw [← hlu] at hyl
  unfold getUnsignedMin at hmin
  rw [throwAssert_of ⟨hp.not_unknown, hp.not_empty⟩, ok_bind, if_neg (by simp [ht])] at hmin
  simp only [zero_lt_iff, lt_zero_iff, ← hlu] at hmin
  rw [if_pos (by omega)] at hmin
  injection hmin with hmin
  rw [show y = b.l.val by omega, ← extTrunc_unsigned_val b.bw_valid.1 hw, hmin, one_val]

theorem mem_uremCandidates_near {w : Nat} (h0 : 0 < w) (hw : w < maxDigits) (hm : 0 ≤ m.val)
    (hmn : m.val ≤ n.val) (hc : 1 ≤ c.val) (hcd : c.val ≤ d.val) (hd : d.val < 2 * half w)
    {p : APInt} (hp : p ∈ uremCandidates m n c d) :
    -half w ≤ p.val ∧ p.val < 2 * half w ∧ p.val < half maxDigits - 1 := by
  have hP := half_pos w
  have hcap := two_mul_half_le h0 hw
  have hcpred : (c - 1).val = c.val - 1 := sub_minDelta_val (by omega)
  have hdpred : (d - 1).val = d.val - 1 := sub_minDelta_val (by omega)
  have hite : ∀ e f g : APInt, 0 ≤ e.val → f.val ≤ d.val → 0 ≤ g.val → g.val < d.val →
      0 ≤ (if e < f then e else g).val ∧ (if e < f then e else g).val < d.val := by
    intro e f g he hf hg hg'
    simp only [SignMag.lt_iff]
    split
    · exact ⟨he, by omega⟩
    · exact ⟨hg, hg'⟩
  have hz : (0 : APInt).val = 0 := SignMag.val_zero
  have hp' : 0 ≤ p.val ∧ p.val < d.val := by
    simp only [uremCandidates, List.mem_cons, List.not_mem_nil, or_false] at hp
    rcases hp with rfl | rfl | rfl | rfl | rfl | rfl | rfl | rfl <;>
      exact hite _ _ _ (by omega) (by omega) (by omega) (by omega)
  omega

/-- The candidates enclose every remainder. -/
theorem between_uremCandidates (hd : -(2 * half maxDigits) + 1 < d.val) (hm : 0 ≤ m.val)
    (hx : m.val ≤ x ∧ x ≤ n.val) (hc : 1 ≤ c.val) (hy : c.val ≤ y ∧ y ≤ d.val) :
    Between ((uremCandidates m n c d).map SignMag.val) (x % y) := by
  have hypos : 0 < y := by omega
  have hnn : 0 ≤ x % y := Int.emod_nonneg _ hypos.ne'
  have hlt : x % y < y := Int.emod_lt_of_pos _ hypos
  have hz : (0 : APInt).val = 0 := SignMag.val_zero
  constructor
  · by_cases hsmall : x < y
    · -- the dividend is the remainder
      refine ⟨(if m < c then m else 0).val, by simp [uremCandidates], ?_⟩
      rw [Int.emod_eq_of_lt (by omega) hsmall]
      split <;> omega
    · by_cases hmc : m.val < c.val
      · refine ⟨(if n < c then n else 0).val, by simp [uremCandidates], ?_⟩
        rw [if_neg (by rw [SignMag.lt_iff]; omega), hz]
        exact hnn
      · refine ⟨(if m < c then m else 0).val, by simp [uremCandidates], ?_⟩
        rw [if_neg (by rw [SignMag.lt_iff]; omega), hz]
        exact hnn
  · refine ⟨(if n < d then n else d - 1).val, by simp [uremCandidates], ?_⟩
    have hle : x % y ≤ x := by
      rcases Int.lt_or_le x y with h | h
      · exact (Int.emod_eq_of_lt (by omega) h).le
      · omega
    have hdpred : (d - 1).val = d.val - 1 := sub_minDelta_val hd
    split <;> omega

/-- Below the capacity no unsigned remainder is lost. -/
theorem urem_sound (hw : a.bw < maxDigits) (hbw : b.bw = a.bw) (ha : a.Proper) (hb : b.Proper)
    (hwa : a.WellFormed) (hwb : b.WellFormed) (hx : x ∈ a.gamma) (hy : y ∈ b.gamma)
    (hy0 : y ≠ 0) :
    Holds (a.urem b) a.bw (signedResidue a.bw ((x % 2 ^ a.bw) % (y % 2 ^ a.bw))) := by
  have h0 := a.bw_valid.1
  have hcap := two_mul_half_le h0 hw
  by_cases hanti : a.type = .anti ∨ b.type = .anti
  · rw [urem_of_anti ha hb hanti]
    exact holds_full_residue a.bw_valid _
  obtain ⟨hna, hnb⟩ := not_or.mp hanti
  have hta : a.type = .regular := ha.resolve_right hna
  have htb : b.type = .regular := hb.resolve_right hnb
  obtain ⟨m, n, hma⟩ := exists_unsignedHull hw ha hwa
  obtain ⟨c, d, hmb⟩ := exists_unsignedHull (hbw ▸ hw) hb hwb
  have hxu := hma.2.2.2.2 x hx
  have hyu := hmb.2.2.2.2 y hy
  have hd := hmb.2.2.2.1
  have hcmin := ite_zero_val hmb.2.2.1
  rw [hbw] at hyu hd
  have hypos : y % 2 ^ a.bw ≠ 0 := by
    have h1 := hy.1.1
    have h2 := hy.1.2
    rw [hbw] at h1 h2
    rcases Int.lt_or_lt_of_ne hy0 with h | h
    · rw [emod_of_neg h0 h (by omega)]
      omega
    · rw [emod_of_nonneg h0 h.le (by omega)]
      exact hy0
  rw [urem_of_regular hta htb hma hmb]
  by_cases hzero : b.isConstant ∧ b.l = 0
  · -- a zero divisor is no value to divide by
    have hlu := (isConstant_iff.mp hzero.1).2
    have hyl := ((mem_gamma_of_regular htb).mp hy).2
    rw [← hlu, hzero.2, SignMag.val_zero] at hyl
    omega
  rw [if_neg hzero]
  by_cases hone : b.isConstant ∧ c = 1
  · rw [if_pos hone, show y % 2 ^ a.bw = 1 by
      rw [← hbw]
      exact emod_of_constant_one (hbw ▸ hw) hone.1 (hone.2 ▸ hmb.1) hy hy0, Int.emod_one]
    have hP := half_pos a.bw
    have hz : (0 : APInt).val = 0 := SignMag.val_zero
    exact holds_regular_near h0 hw (by omega) (by omega) (by omega) (by omega) (by omega)
  rw [if_neg hone, if_neg fun h => by
    have hd0 : d.val = 0 := by rw [h.2, SignMag.val_zero]
    have := hmb.2.2.1
    omega]
  refine holds_ofCandidates h0 hw (fun p hp => ?_) ?_
  · exact mem_uremCandidates_near h0 hw hma.2.2.1 (hxu.1.trans hxu.2) (by omega) (by omega) hd hp
  · have := hmb.2.2.1
    exact between_uremCandidates (by omega) hma.2.2.1 hxu (by omega) (by omega)

end Urem

/-! ## Signed remainder -/

section Srem

variable {a b : Range} {x y : Int}

/-- A remainder keeps the sign of its dividend and is smaller than both. -/
theorem tmod_bounds (x : Int) (hy : y ≠ 0) :
    |x.tmod y| ≤ |x| ∧ |x.tmod y| < |y| ∧ (0 ≤ x → 0 ≤ x.tmod y) ∧ (x ≤ 0 → x.tmod y ≤ 0) := by
  have habs := Int.natAbs_tmod x y
  have hlt : x.natAbs % y.natAbs < y.natAbs := Nat.mod_lt _ (by omega)
  have hle : x.natAbs % y.natAbs ≤ x.natAbs := Nat.mod_le _ _
  rw [Int.abs_eq_natAbs, Int.abs_eq_natAbs, Int.abs_eq_natAbs]
  refine ⟨by omega, by omega, fun h => Int.tmod_nonneg y h, fun h => ?_⟩
  have hneg := Int.tmod_nonneg (a := -x) y (by omega)
  rw [Int.neg_tmod] at hneg
  omega

theorem tmod_of_abs_lt (h : |x| < |y|) : x.tmod y = x := by
  rw [Int.tmod_def, tdiv_eq_zero_of_abs_lt h, mul_zero, sub_zero]

/-- A remainder lies between zero and its dividend. -/
theorem tmod_between (x : Int) (hy : y ≠ 0) : |x.tmod y| < |y| ∧
    (0 ≤ x → 0 ≤ x.tmod y ∧ x.tmod y ≤ x) ∧ (x ≤ 0 → x ≤ x.tmod y ∧ x.tmod y ≤ 0) := by
  obtain ⟨hle, hlt, hpos, hneg⟩ := tmod_bounds x hy
  refine ⟨hlt, fun h => ⟨hpos h, ?_⟩, fun h => ⟨?_, hneg h⟩⟩
  · rw [abs_of_nonneg h] at hle
    exact (le_abs_self _).trans hle
  · rw [abs_of_nonpos h] at hle
    exact neg_le_neg_iff.mp ((neg_le_abs _).trans hle)

/-- Values that keep one sign are at least as large as the smaller end. -/
theorem min_abs_le_abs {l u : Int} (hl : l ≤ y) (hu : y ≤ u) (h : ¬ (l ≤ 0 ∧ 0 ≤ u)) :
    min |l| |u| ≤ |y| := by
  rcases not_and_or.mp h with hl0 | hu0
  · rw [abs_of_pos (not_le.mp hl0), abs_of_pos ((not_le.mp hl0).trans_le hl)]
    exact (min_le_left _ _).trans hl
  · rw [abs_of_neg (not_le.mp hu0), abs_of_neg (hu.trans_lt (not_le.mp hu0))]
    exact (min_le_right _ _).trans (neg_le_neg hu)

theorem srem_of_full (ha : a.Proper) (hb : b.Proper)
    (h : a.IsFull ∨ a.type = .anti ∨ b.type = .anti) : a.srem b = ofType .regular a.bw := by
  unfold srem
  rw [onProper_of ha hb, isFullSet_eq ha, ok_bind]
  simp only [decide_eq_true_eq, isAnti_iff]
  rw [if_pos h]

theorem srem_of_zero (ha : a.type = .regular) (hb : b.type = .regular) (hf : ¬ a.IsFull)
    (h : b.l.val ≤ 0 ∧ 0 ≤ b.u.val) : a.srem b = ofType .regular a.bw := by
  have hna : a.type ≠ .anti := by rw [ha]; decide
  have hnb : b.type ≠ .anti := by rw [hb]; decide
  unfold srem
  rw [onProper_of (Or.inl ha) (Or.inl hb), isFullSet_eq (Or.inl ha), ok_bind,
    if_neg (by simp [hf, hna, hnb]), getLower_eq hna, ok_bind, getUpper_eq hna, ok_bind,
    getLower_eq hnb, ok_bind, getUpper_eq hnb, ok_bind, if_pos]
  rwa [SignMag.le_iff, ge_iff_le, SignMag.le_iff, SignMag.val_zero]

theorem srem_of_regular (ha : a.type = .regular) (hb : b.type = .regular) (hf : ¬ a.IsFull)
    (h : ¬ (b.l.val ≤ 0 ∧ 0 ≤ b.u.val)) {dmin dmax : APInt} (hmin : dmin = min b.l.abs b.u.abs)
    (hmax : dmax = max b.l.abs b.u.abs) :
    a.srem b =
      if (min a.l.abs a.u.abs < dmin ∧ dmin < max a.l.abs a.u.abs) ∨
          (min a.l.abs a.u.abs < dmax ∧ dmax < max a.l.abs a.u.abs) then
        ofBounds .regular a.bw
          (if a.l ≥ 0 then 0 else if a.l.abs < dmax then a.l else -(dmax - 1))
          (if a.u ≤ 0 then 0 else if a.u.abs < dmax then a.u else dmax - 1)
      else if max a.l.abs a.u.abs < dmin then .ok a
      else ofBounds .regular a.bw (if a.l < 0 then -(dmax - 1) else 0)
        (if a.u > 0 then dmax - 1 else 0) := by
  have hna : a.type ≠ .anti := by rw [ha]; decide
  have hnb : b.type ≠ .anti := by rw [hb]; decide
  unfold srem
  rw [onProper_of (Or.inl ha) (Or.inl hb), isFullSet_eq (Or.inl ha), ok_bind,
    if_neg (by simp [hf, hna, hnb]), getLower_eq hna, ok_bind, getUpper_eq hna, ok_bind,
    getLower_eq hnb, ok_bind, getUpper_eq hnb, ok_bind, if_neg, hmin, hmax]
  rwa [SignMag.le_iff, ge_iff_le, SignMag.le_iff, SignMag.val_zero]

/-- No signed remainder is lost, at the capacity either. -/
theorem srem_sound (hbw : b.bw = a.bw) (ha : a.Proper) (hb : b.Proper) (hwa : a.WellFormed)
    (hwb : b.WellFormed) (hx : x ∈ a.gamma) (hy : y ∈ b.gamma) (hy0 : y ≠ 0) :
    Holds (a.srem b) a.bw (x.tmod y) := by
  have hcap := half_le_half a.bw_valid.2
  have h4 := four_le_half_maxDigits
  obtain ⟨hlt, hpos, hneg⟩ := tmod_between x hy0
  have hr : x.tmod y ∈ signedRange a.bw := by
    obtain ⟨hx1, hx2⟩ := hx.1
    have hP := half_pos a.bw
    rcases Int.le_total 0 x with h | h
    · have := hpos h
      exact ⟨by omega, by omega⟩
    · have := hneg h
      exact ⟨by omega, by omega⟩
  by_cases hfull : a.IsFull ∨ a.type = .anti ∨ b.type = .anti
  · rw [srem_of_full ha hb hfull]
    exact holds_full a.bw_valid hr
  obtain ⟨hf, hna, hnb⟩ := by simpa only [not_or] using hfull
  have hta : a.type = .regular := ha.resolve_right hna
  have htb : b.type = .regular := hb.resolve_right hnb
  obtain ⟨hl1, hl2, hl3⟩ : a.InLimits :=
    hwa.inLimits_of_not_full (Or.inl hta) hf
  obtain ⟨hxl, hxu⟩ := ((mem_gamma_of_regular hta).mp hx).2
  obtain ⟨hyl, hyu⟩ := ((mem_gamma_of_regular htb).mp hy).2
  by_cases hz : b.l.val ≤ 0 ∧ 0 ≤ b.u.val
  · rw [srem_of_zero hta htb hf hz]
    exact holds_full a.bw_valid hr
  -- The divisors keep one sign and lie within the limits.
  obtain ⟨dmin, hmin⟩ : ∃ d, d = min b.l.abs b.u.abs := ⟨_, rfl⟩
  obtain ⟨dmax, hmax⟩ : ∃ d, d = max b.l.abs b.u.abs := ⟨_, rfl⟩
  have hminv : dmin.val ≤ |y| := by
    have hval : dmin.val = min |b.l.val| |b.u.val| := by rw [hmin]; simp
    rw [hval]
    exact min_abs_le_abs hyl hyu hz
  have hmaxv : |y| ≤ dmax.val ∧ dmax.val ≤ half a.bw := by
    have hval : dmax.val = max |b.l.val| |b.u.val| := by rw [hmax]; simp
    have hbounds := hwb.regular_bounds htb
    rw [hbw] at hbounds
    rw [hval]
    exact ⟨abs_le_max_abs_abs hyl hyu,
      max_le (abs_le.mpr ⟨by omega, by omega⟩) (abs_le.mpr ⟨by omega, by omega⟩)⟩
  have hone : 1 ≤ dmax.val := (Int.one_le_abs hy0).trans hmaxv.1
  -- Every remainder is within the divisors, and on the dividends' side of zero.
  obtain ⟨hin, hin'⟩ := abs_lt.mp (hlt.trans_le hmaxv.1)
  have hpred : (dmax - 1).val = dmax.val - 1 := sub_minDelta_val (by omega)
  have hnpred : (-(dmax - 1)).val = -(dmax.val - 1) := by rw [SignMag.val_neg, hpred]
  have hzero : (0 : APInt).val = 0 := SignMag.val_zero
  have hbox : ∀ p q : APInt, -half a.bw ≤ p.val ∧ p.val ≤ 0 ∧ p.val ≤ x.tmod y →
      0 ≤ q.val ∧ q.val < half a.bw ∧ x.tmod y ≤ q.val →
        Holds (ofBounds .regular a.bw p q) a.bw (x.tmod y) := by
    intro p q hp hq
    rw [holds_regular_iff a.bw_valid.1 a.bw_valid.2 hp.1 (hp.2.1.trans hq.1) hq.2.1]
    exact ⟨hr, hp.2.2, hq.2.2⟩
  rw [srem_of_regular hta htb hf hz hmin hmax]
  clear hmin hmax
  simp only [SignMag.lt_iff, SignMag.le_iff, ge_iff_le, gt_iff_lt, SignMag.val_min,
    SignMag.val_max, SignMag.val_abs, SignMag.val_zero]
  split
  · refine hbox _ _ ?_ ?_
    · have hle := neg_abs_le a.l.val
      split
      · omega
      · split <;> omega
    · have hge := le_abs_self a.u.val
      split
      · omega
      · split <;> omega
  · split
    · -- The dividends are smaller than the divisors.
      rename_i hsmall
      rw [tmod_of_abs_lt ((abs_le_max_abs_abs hxl hxu).trans_lt (hsmall.trans_le hminv)), holds_ok]
      exact ⟨rfl, hx⟩
    · refine hbox _ _ ?_ ?_
      · split <;> omega
      · split <;> omega

end Srem

/-! ## Both remainders -/

/-- Every remainder by a nonzero value is kept. -/
def RemainderSound (a b : Range) : Prop :=
  ∀ x ∈ a.gamma, ∀ y ∈ b.gamma, y ≠ 0 →
    Holds (a.srem b) a.bw (x.tmod y) ∧
    Holds (a.urem b) a.bw (signedResidue a.bw ((x % 2 ^ a.bw) % (y % 2 ^ a.bw)))

/-- Minus one and two at the capacity, whose unsigned remainder is lost. -/
def lostRemainder : {p : Range × Range // p.1.WellFormed ∧ p.2.WellFormed ∧
    (-1 : Int) ∈ p.1.gamma ∧ (2 : Int) ∈ p.2.gamma ∧
    ¬ Holds (p.1.urem p.2) maxDigits
      (signedResidue maxDigits ((-1 % 2 ^ maxDigits) % (2 % 2 ^ maxDigits)))} :=
  ⟨(⟨-1, -1, maxDigits, .regular, bwValid_maxDigits⟩, ⟨2, 2, maxDigits, .regular, bwValid_maxDigits⟩),
    by decide +kernel⟩

/-- At the capacity the unsigned extrema are the signed bounds: minus one modulo
    two stays minus one. -/
theorem not_remainderSound_capacity :
    ¬ RemainderSound ⟨-1, -1, maxDigits, .regular, by decide⟩
      ⟨2, 2, maxDigits, .regular, by decide⟩ := by
  intro h
  obtain ⟨-, -, hx, hy, hlost⟩ := lostRemainder.property
  exact hlost (h (-1) hx 2 hy (by decide)).2

/-- No remainder is lost, at every width but the capacity. -/
theorem remainder_sound_iff (w : Nat) (hw : w ≤ maxDigits) :
    (∀ a b : Range, a.WellFormed → b.WellFormed → a.bw = w → b.bw = w → a.type ≠ .unknown →
      b.type ≠ .unknown → RemainderSound a b) ↔ w < maxDigits := by
  constructor
  · intro h
    rcases Nat.lt_or_eq_of_le hw with hlt | rfl
    · exact hlt
    · exact absurd (h ⟨-1, -1, maxDigits, .regular, by decide⟩
        ⟨2, 2, maxDigits, .regular, by decide⟩ lostRemainder.property.1 lostRemainder.property.2.1
        (Eq.refl maxDigits) (Eq.refl maxDigits) (by decide) (by decide))
        not_remainderSound_capacity
  · rintro hlt a b hwa hwb rfl hbw hua hub x hx y hy hy0
    have ha := proper_of_mem hua hx
    have hb := proper_of_mem hub hy
    exact ⟨srem_sound hbw ha hb hwa hwb hx hy hy0, urem_sound hlt hbw ha hb hwa hwb hx hy hy0⟩

theorem remainder_sound_iff_at_eight :
    (∀ a b : Range, a.WellFormed → b.WellFormed → a.bw = 8 → b.bw = 8 → a.type ≠ .unknown →
      b.type ≠ .unknown → RemainderSound a b) ↔ 8 < maxDigits :=
  remainder_sound_iff 8 (by decide)

theorem remainder_not_sound :
    ¬ ∀ a b : Range, a.WellFormed → b.WellFormed → b.bw = a.bw → a.type ≠ .unknown →
      b.type ≠ .unknown → RemainderSound a b := fun h =>
  not_remainderSound_capacity (h ⟨-1, -1, maxDigits, .regular, by decide⟩
    ⟨2, 2, maxDigits, .regular, by decide⟩ lostRemainder.property.1 lostRemainder.property.2.1
    (Eq.refl maxDigits) (by decide) (by decide))

end Range
end Bambu
