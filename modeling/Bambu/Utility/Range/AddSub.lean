/-
  Bambu.Utility.Range.AddSub

  `Range::add` and `Range::sub`.
-/

import Bambu.Utility.Range.Dispatch

namespace Bambu
namespace Range

open Bambu.Math APInt

/-! ## The operations -/

def add (this other : Range) : Except Error Range :=
  onProper this other this.bw do
    if ← (this.isFullSet <||> other.isFullSet) then ofType .regular this.bw
    else if this.isAnti && other.isConstant then do
      let ol ← other.getLower
      if ol ≥ Max - this.u then ofType .regular this.bw
      else ofBounds .anti this.bw (this.l + ol) (this.u + ol)
    else if this.isAnti || other.isAnti then ofType .regular this.bw
    else if other.isConstant then do
      let ol ← other.getLower
      if this.l = Min then do
        throwAssert (this.u ≠ Max) ""
        ofBounds .regular this.bw this.l (this.u + ol)
      else if this.u = Max then do
        throwAssert (this.l ≠ Min) ""
        ofBounds .regular this.bw (this.l + ol) this.u
      else ofBounds .regular this.bw (this.l + ol) (this.u + ol)
    else do
      let min := (← this.getLower) + (← other.getLower)
      let max := (← this.getUpper) + (← other.getUpper)
      let res ← ofBounds .regular this.bw min max
      if (← res.getSpan) ≤ (← this.getSpan) ∨ (← res.getSpan) ≤ (← other.getSpan) then
        ofType .regular this.bw
      else .ok res

def sub (this other : Range) : Except Error Range :=
  onProper this other this.bw do
    if ← (this.isFullSet <||> other.isFullSet) then ofType .regular this.bw
    else if this.isAnti && other.isConstant then do
      let ol ← other.getLower
      if this.l ≤ Min + ol then ofType .regular this.bw
      else ofBounds .anti this.bw (this.l - ol) (this.u - ol)
    else if this.isAnti || other.isAnti then ofType .regular this.bw
    else if other.isConstant then do
      let ol ← other.getLower
      if this.l = Min then do
        throwAssert (this.u ≠ Max) ""
        let minValue := getSignedMinValue this.bw
        let upper := this.u - ol
        if minValue > upper then ofType .regular this.bw
        else ofBounds .regular this.bw this.l upper
      else if this.u = Max then do
        throwAssert (this.l ≠ Min) ""
        let maxValue := getSignedMaxValue this.bw
        let lower := this.l - ol
        if maxValue < lower then ofType .regular this.bw
        else ofBounds .regular this.bw (this.l - ol) this.u
      else
        let lower := (this.l - ol).extTrunc this.bw true
        let upper := (this.u - ol).extTrunc this.bw true
        if lower ≤ upper then ofBounds .regular this.bw lower upper
        else ofBounds .anti this.bw (upper + 1) (lower - 1)
    else do
      let min := (← this.getLower) - (← other.getUpper)
      let max := (← this.getUpper) - (← other.getLower)
      let res ← ofBounds .regular this.bw min max
      if (← res.getSpan) < (← this.getSpan) ∨ (← res.getSpan) < (← other.getSpan) then
        ofType .regular this.bw
      else .ok res

/-! ## The branches -/

section Branches

variable {a b : Range}

/-- A constant subtracted from a Regular range with both bounds finite. -/
def subFinite (a : Range) (ol : APInt) : Except Error Range :=
  let lower := (a.l - ol).extTrunc a.bw true
  let upper := (a.u - ol).extTrunc a.bw true
  if lower ≤ upper then ofBounds .regular a.bw lower upper
  else ofBounds .anti a.bw (upper + 1) (lower - 1)

theorem add_eq_saturating (a b : Range) : a.add b = saturating a b
    (fun ol => if ol ≥ Max - a.u then ofType .regular a.bw
      else ofBounds .anti a.bw (a.l + ol) (a.u + ol))
    (fun ol _ => atInfinity a (ofBounds .regular a.bw a.l (a.u + ol))
      (ofBounds .regular a.bw (a.l + ol) a.u) (ofBounds .regular a.bw (a.l + ol) (a.u + ol)))
    (do
      let min := (← a.getLower) + (← b.getLower)
      let max := (← a.getUpper) + (← b.getUpper)
      ofBounds .regular a.bw min max >>= guardSpan a b (fun s t => decide (s ≤ t))) := by
  unfold add saturating atInfinity guardSpan
  simp only [Bool.or_eq_true, decide_eq_true_eq]

theorem sub_eq_saturating (a b : Range) : a.sub b = saturating a b
    (fun ol => if a.l ≤ Min + ol then ofType .regular a.bw
      else ofBounds .anti a.bw (a.l - ol) (a.u - ol))
    (fun ol _ => atInfinity a
      (if getSignedMinValue a.bw > a.u - ol then ofType .regular a.bw
        else ofBounds .regular a.bw a.l (a.u - ol))
      (if getSignedMaxValue a.bw < a.l - ol then ofType .regular a.bw
        else ofBounds .regular a.bw (a.l - ol) a.u)
      (subFinite a ol))
    (do
      let min := (← a.getLower) - (← b.getUpper)
      let max := (← a.getUpper) - (← b.getLower)
      ofBounds .regular a.bw min max >>= guardSpan a b (fun s t => decide (s < t))) := by
  unfold sub saturating atInfinity guardSpan subFinite
  simp only [Bool.or_eq_true, decide_eq_true_eq]

theorem add_of_widens (ha : a.Proper) (hb : b.Proper) (h : Widens a b) :
    a.add b = ofType .regular a.bw := by
  rw [add_eq_saturating, saturating_of_widens ha hb h]

theorem add_of_anti_constant (ha : a.type = .anti) (hb : b.isConstant = true)
    (hf : ¬ (a.IsFull ∨ b.IsFull)) :
    a.add b = if b.l ≥ Max - a.u then ofType .regular a.bw
      else ofBounds .anti a.bw (a.l + b.l) (a.u + b.l) := by
  rw [add_eq_saturating, saturating_of_anti_constant ha hb hf]

theorem add_of_constant (ha : a.type = .regular) (hb : b.isConstant = true)
    (hf : ¬ (a.IsFull ∨ b.IsFull)) :
    a.add b = if a.l = Min then ofBounds .regular a.bw a.l (a.u + b.l)
      else if a.u = Max then ofBounds .regular a.bw (a.l + b.l) a.u
      else ofBounds .regular a.bw (a.l + b.l) (a.u + b.l) := by
  rw [add_eq_saturating, saturating_of_regular ha (isConstant_iff.mp hb).1 hf, if_pos hb,
    atInfinity_of_regular ha (fun h => hf (Or.inl h))]

theorem add_of_regular (ha : a.type = .regular) (hb : b.type = .regular)
    (hc : ¬ b.isConstant = true) (hf : ¬ (a.IsFull ∨ b.IsFull)) :
    a.add b = ofBounds .regular a.bw (a.l + b.l) (a.u + b.u) >>=
      guardSpan a b (fun s t => decide (s ≤ t)) := by
  have hna : a.type ≠ .anti := by rw [ha]; decide
  have hnb : b.type ≠ .anti := by rw [hb]; decide
  rw [add_eq_saturating, saturating_of_regular ha hb hf, if_neg hc]
  simp only [getLower_eq hna, getLower_eq hnb, getUpper_eq hna, getUpper_eq hnb, ok_bind]

theorem sub_of_widens (ha : a.Proper) (hb : b.Proper) (h : Widens a b) :
    a.sub b = ofType .regular a.bw := by
  rw [sub_eq_saturating, saturating_of_widens ha hb h]

theorem sub_of_anti_constant (ha : a.type = .anti) (hb : b.isConstant = true)
    (hf : ¬ (a.IsFull ∨ b.IsFull)) :
    a.sub b = if a.l ≤ Min + b.l then ofType .regular a.bw
      else ofBounds .anti a.bw (a.l - b.l) (a.u - b.l) := by
  rw [sub_eq_saturating, saturating_of_anti_constant ha hb hf]

theorem sub_of_constant (ha : a.type = .regular) (hb : b.isConstant = true)
    (hf : ¬ (a.IsFull ∨ b.IsFull)) :
    a.sub b =
      if a.l = Min then
        if getSignedMinValue a.bw > a.u - b.l then ofType .regular a.bw
        else ofBounds .regular a.bw a.l (a.u - b.l)
      else if a.u = Max then
        if getSignedMaxValue a.bw < a.l - b.l then ofType .regular a.bw
        else ofBounds .regular a.bw (a.l - b.l) a.u
      else subFinite a b.l := by
  rw [sub_eq_saturating, saturating_of_regular ha (isConstant_iff.mp hb).1 hf, if_pos hb,
    atInfinity_of_regular ha (fun h => hf (Or.inl h))]

theorem sub_of_regular (ha : a.type = .regular) (hb : b.type = .regular)
    (hc : ¬ b.isConstant = true) (hf : ¬ (a.IsFull ∨ b.IsFull)) :
    a.sub b = ofBounds .regular a.bw (a.l - b.u) (a.u - b.l) >>=
      guardSpan a b (fun s t => decide (s < t)) := by
  have hna : a.type ≠ .anti := by rw [ha]; decide
  have hnb : b.type ≠ .anti := by rw [hb]; decide
  rw [sub_eq_saturating, saturating_of_regular ha hb hf, if_neg hc]
  simp only [getLower_eq hna, getLower_eq hnb, getUpper_eq hna, getUpper_eq hnb, ok_bind]

end Branches

/-! ## Soundness -/

/-- The sum of a value of `a` and a value of `b` is in `a.add(b)`. -/
def AddSound (a b : Range) : Prop :=
  ∀ x ∈ a.gamma, ∀ y ∈ b.gamma, Holds (a.add b) a.bw (signedResidue a.bw (x + y))

/-- The difference of a value of `a` and a value of `b` is in `a.sub(b)`. -/
def SubSound (a b : Range) : Prop :=
  ∀ x ∈ a.gamma, ∀ y ∈ b.gamma, Holds (a.sub b) a.bw (signedResidue a.bw (x - y))

section Shift

variable {a b : Range} {lb ub : APInt} {δ : Int}

theorem mem_gamma_of_constant (hb : b.isConstant = true) (hlim : b.InLimits) {y : Int} :
    y ∈ b.gamma ↔ y = b.l.val := by
  obtain ⟨hr, hlu⟩ := isConstant_iff.mp hb
  rw [mem_gamma_of_regular hr, ← hlu]
  obtain ⟨h1, h2, h3⟩ := hlim
  rw [← hlu] at h2 h3
  omega

/-- The values of an Anti range, moved by a constant, are kept exactly when the
    constructor is sound for the moved bounds. -/
theorem antiShift_iff (ha : a.type = .anti) (hlim : a.InLimits) (hlb : lb.val = a.l.val + δ)
    (hub : ub.val = a.u.val + δ) :
    (∀ x ∈ a.gamma, Holds (ofBounds .anti a.bw lb ub) a.bw (signedResidue a.bw (x + δ))) ↔
      AntiSound a.bw lb ub := by
  have h0 := a.bw_valid.1
  obtain ⟨h1, h2, h3⟩ := hlim
  constructor
  · intro h v hv hk
    have hcong := signedResidue_modEq a.bw (v - δ)
    have hx : signedResidue a.bw (v - δ) ∈ a.gamma := by
      refine (mem_gamma_of_anti ha).mpr ⟨signedResidue_mem h0 _, ?_⟩
      by_contra hin
      refine hk ⟨signedResidue a.bw (v - δ) + δ, ⟨by omega, by omega⟩, ?_⟩
      have := (hcong.add_right δ).symm
      rwa [sub_add_cancel] at this
    have hres := h _ hx
    have hcong' := hcong.add_right δ
    rw [sub_add_cancel] at hcong'
    rwa [signedResidue_congr hcong', signedResidue_of_mem h0 hv.1 hv.2] at hres
  · intro h x hx
    obtain ⟨hxr, hout⟩ := (mem_gamma_of_anti ha).mp hx
    refine h _ (signedResidue_mem h0 _) ?_
    rintro ⟨k, ⟨hk1, hk2⟩, hk⟩
    have hcong : x + δ ≡ k [ZMOD 2 ^ a.bw] := (signedResidue_modEq a.bw (x + δ)).symm.trans hk
    have hback := hcong.sub_right δ
    rw [add_sub_cancel_right] at hback
    have hmem : k - δ ∈ signedRange a.bw := ⟨by omega, by omega⟩
    have := eq_of_modEq h0 hxr hmem hback
    omega

theorem forall_mem_constant (hb : b.isConstant = true) (hlb : b.InLimits) {P : Int → Int → Prop} :
    (∀ x ∈ a.gamma, ∀ y ∈ b.gamma, P x y) ↔ ∀ x ∈ a.gamma, P x b.l.val := by
  constructor
  · exact fun h x hx => h x hx _ ((mem_gamma_of_constant hb hlb).mpr rfl)
  · intro h x hx y hy
    rw [(mem_gamma_of_constant hb hlb).mp hy]
    exact h x hx

theorem bounds_of_mem (ha : a.type = .regular) (hb : b.type = .regular) :
    ∀ x ∈ a.gamma, ∀ y ∈ b.gamma, a.l.val ≤ x ∧ x ≤ a.u.val ∧ b.l.val ≤ y ∧ y ≤ b.u.val := by
  intro x hx y hy
  obtain ⟨-, hx1, hx2⟩ := (mem_gamma_of_regular ha).mp hx
  obtain ⟨-, hy1, hy2⟩ := (mem_gamma_of_regular hb).mp hy
  exact ⟨hx1, hx2, hy1, hy2⟩

/-- Values of Regular ranges within the limits, as a box. -/
theorem forall_mem_iff (ha : a.type = .regular) (hla : a.InLimits) (hb : b.type = .regular)
    (hlb : b.InLimits) {P : Int → Int → Prop} : (∀ x ∈ a.gamma, ∀ y ∈ b.gamma, P x y) ↔
      ∀ x y, a.l.val ≤ x → x ≤ a.u.val → b.l.val ≤ y → y ≤ b.u.val → P x y := by
  have hmem : ∀ {r : Range}, r.type = .regular → r.InLimits → ∀ z, r.l.val ≤ z → z ≤ r.u.val →
      z ∈ r.gamma := by
    rintro r hr ⟨h1, h2, h3⟩ z hz hz'
    exact (mem_gamma_of_regular hr).mpr ⟨⟨by omega, by omega⟩, hz, hz'⟩
  constructor
  · exact fun h x y hx hx' hy hy' => h x (hmem ha hla x hx hx') y (hmem hb hlb y hy hy')
  · intro h x hx y hy
    obtain ⟨hx1, hx2, hy1, hy2⟩ := bounds_of_mem ha hb x hx y hy
    exact h x y hx1 hx2 hy1 hy2

/-- Bounds that cover the limits of every width. -/
theorem holds_of_all {z : Except Error Range} {w : Nat}
    (h : Yields z w .regular (-half maxDigits) (half maxDigits - 1)) (y : Int) :
    Holds z w (signedResidue w y) := by
  have hiff := h.holds_iff (v := signedResidue w y)
  obtain ⟨r, -, rfl, -⟩ := h
  have hmem := signedResidue_mem r.bw_valid.1 y
  exact hiff.mpr ⟨hmem, typeMem_full r.bw_valid.2 hmem⟩

/-- A result widened to every value keeps whatever the operation computes. -/
theorem sound_of_full {z : Except Error Range} {f : Int → Int → Int}
    (h : z = ofType .regular a.bw) :
    ∀ x ∈ a.gamma, ∀ y ∈ b.gamma, Holds z a.bw (signedResidue a.bw (f x y)) := by
  intro x _ y _
  rw [h]
  exact holds_full_residue a.bw_valid _

end Shift

/-! ## Finite bounds

Below the capacity, as long as no bound meets an infinite one. -/

section Finite

variable {a b : Range}

/-- Moved by less than half a turn, an Anti range loses a value once it lies
    below the lower limit. -/
theorem antiSound_moved_iff {lb ub : APInt} {δ : Int} (h0 : 0 < a.bw) (hla : a.InLimits)
    (hlb : lb.val = a.l.val + δ) (hub : ub.val = a.u.val + δ) (hδ : -half a.bw ≤ δ ∧ δ ≤ half a.bw)
    (hmin : -half maxDigits < lb.val) (hmax : ub.val < half maxDigits - 1) :
    AntiSound a.bw lb ub ↔ ¬ (a.l.val < a.u.val ∧ a.u.val + δ < -half a.bw) := by
  obtain ⟨h1, h2, h3⟩ := hla
  rw [antiSound_iff_not_loss h0 a.bw_valid.2 (by omega) (by omega) (by omega),
    antiLoss_iff_of_near h0 (by omega) (by omega) (by omega)]
  omega

theorem addSound_anti_iff (hw : a.bw < maxDigits) (hbw : b.bw = a.bw) (ha : a.type = .anti)
    (hla : a.InLimits) (hb : b.isConstant = true) (hlb : b.InLimits) (hf : ¬ b.IsFull)
    (hmin : -half maxDigits < a.l.val + b.l.val) :
    AddSound a b ↔ ¬ (a.l.val < a.u.val ∧ a.u.val + b.l.val < -half a.bw) := by
  have h0 := a.bw_valid.1
  have hcap := two_mul_half_le h0 hw
  have hP := half_pos a.bw
  have ⟨ha1, ha2, ha3⟩ := hla
  have hbl := hlb.l_mem
  rw [hbw] at hbl
  have hl : (a.l + b.l).val = a.l.val + b.l.val := add_val (by omega) (by omega)
  have hu : (a.u + b.l).val = a.u.val + b.l.val := add_val (by omega) (by omega)
  have hguard : ¬ b.l ≥ Max - a.u := by
    rw [ge_iff_le, SignMag.le_iff, sub_val] <;> rw [max_val] <;> omega
  unfold AddSound
  rw [forall_mem_constant hb hlb, add_of_anti_constant ha hb (not_full_of_anti ha hf),
    if_neg hguard, antiShift_iff ha hla hl hu]
  exact antiSound_moved_iff h0 hla hl hu (by omega) (by omega) (by omega)

theorem subSound_anti_iff (hw : a.bw < maxDigits) (hbw : b.bw = a.bw) (ha : a.type = .anti)
    (hla : a.InLimits) (hb : b.isConstant = true) (hlb : b.InLimits) (hf : ¬ b.IsFull)
    (hmax : a.u.val - b.l.val < half maxDigits - 1) :
    SubSound a b ↔ ¬ (a.l.val < a.u.val ∧ a.u.val - b.l.val < -half a.bw) := by
  have h0 := a.bw_valid.1
  have hcap := two_mul_half_le h0 hw
  have hP := half_pos a.bw
  have ⟨ha1, ha2, ha3⟩ := hla
  have hbl := hlb.l_mem
  rw [hbw] at hbl
  have hl : (a.l - b.l).val = a.l.val + -b.l.val := sub_val (by omega) (by omega)
  have hu : (a.u - b.l).val = a.u.val + -b.l.val := sub_val (by omega) (by omega)
  have hguard : ¬ a.l ≤ Min + b.l := by
    rw [SignMag.le_iff, add_val] <;> rw [min_val] <;> omega
  unfold SubSound
  rw [forall_mem_constant hb hlb, sub_of_anti_constant ha hb (not_full_of_anti ha hf),
    if_neg hguard]
  exact (antiShift_iff ha hla hl hu).trans
    (antiSound_moved_iff h0 hla hl hu (by omega) (by omega) (by omega))

/-- Two Regular ranges within the limits. -/
theorem addSound_regular (hw : a.bw < maxDigits) (hbw : b.bw = a.bw)
    (ha : a.type = .regular) (hla : a.InLimits) (hb : b.type = .regular) (hlb : b.InLimits)
    (hf : ¬ (a.IsFull ∨ b.IsFull)) (hmin : -half maxDigits < a.l.val + b.l.val) :
    AddSound a b := by
  have h0 := a.bw_valid.1
  have hcap := two_mul_half_le h0 hw
  have hP := half_pos a.bw
  intro x hx y hy
  obtain ⟨hx1, hx2, hy1, hy2⟩ := bounds_of_mem ha hb x hx y hy
  obtain ⟨ha1, ha2, ha3⟩ := hla
  obtain ⟨hb1, hb2, hb3⟩ := hlb
  rw [hbw] at hb1 hb3
  have hl : (a.l + b.l).val = a.l.val + b.l.val := add_val (by omega) (by omega)
  have hu : (a.u + b.u).val = a.u.val + b.u.val := add_val (by omega) (by omega)
  have hsound : RegularSound a.bw (a.l + b.l) (a.u + b.u) := by
    rw [regularSound_iff_not_loss h0 a.bw_valid.2 (by omega) (by omega) (by omega)]
    exact not_regularLoss_of_near h0 (by omega) (by omega)
  have hholds := hsound.holds h0 (k := x + y) (by omega) (by omega)
  by_cases hc : b.isConstant = true
  · have hlu := (isConstant_iff.mp hc).2
    rw [add_of_constant ha hc hf, if_neg (by rw [eq_min_iff]; omega),
      if_neg (by rw [eq_max_iff]; omega)]
    rwa [← hlu] at hholds
  · rw [add_of_regular ha hb hc hf]
    exact holds_guardSpan rfl (signedResidue_mem h0 _) hholds

theorem subFinite_holds (hw : a.bw < maxDigits) (hla : a.InLimits) {ol : APInt}
    (hf : ¬ (a.l.val = -half a.bw ∧ a.u.val = half a.bw - 1))
    (hol : -half a.bw ≤ ol.val ∧ ol.val < half a.bw) {x : Int} (hx : a.l.val ≤ x)
    (hx' : x ≤ a.u.val) : Holds (subFinite a ol) a.bw (signedResidue a.bw (x - ol.val)) := by
  have h0 := a.bw_valid.1
  have hcap := two_mul_half_le h0 hw
  have hP := half_pos a.bw
  obtain ⟨ha1, ha2, ha3⟩ := hla
  have hl : ((a.l - ol).extTrunc a.bw true).val = signedResidue a.bw (a.l.val - ol.val) := by
    rw [extTrunc_signed_val h0 hw, sub_val (by omega) (by omega)]
  have hu : ((a.u - ol).extTrunc a.bw true).val = signedResidue a.bw (a.u.val - ol.val) := by
    rw [extTrunc_signed_val h0 hw, sub_val (by omega) (by omega)]
  have hll := neg_half_le_signedResidue h0 (a.l.val - ol.val)
  have hul := signedResidue_lt_half h0 (a.u.val - ol.val)
  have hll' := signedResidue_lt_half h0 (a.l.val - ol.val)
  have hul' := neg_half_le_signedResidue h0 (a.u.val - ol.val)
  have hmem : signedResidue a.bw (x - ol.val) ∈ signedResidue a.bw ''
      Set.Icc (a.l.val - ol.val) (a.u.val - ol.val) := ⟨_, ⟨by omega, by omega⟩, rfl⟩
  unfold subFinite
  simp only
  by_cases hle : signedResidue a.bw (a.l.val - ol.val) ≤ signedResidue a.bw (a.u.val - ol.val)
  · rw [image_Icc_of_le h0 (by omega) (by omega) hle] at hmem
    rw [if_pos (by rw [SignMag.le_iff, hl, hu]; exact hle)]
    rw [(ofBounds_regular_inside a.bw_valid (by omega) (by omega) (by omega)).holds_iff, hl, hu]
    exact ⟨signedResidue_mem h0 _, hmem⟩
  · have hstep := signedResidue_of_le_of_lt h0 (show a.l.val - ol.val ≤ a.u.val - ol.val by omega)
      (by omega)
    rw [image_Icc_of_gt h0 (by omega) (by omega) (by omega)] at hmem
    have hsucc : ((a.u - ol).extTrunc a.bw true + 1).val =
        signedResidue a.bw (a.u.val - ol.val) + 1 := by
      rw [add_val] <;> rw [hu, one_val] <;> omega
    have hpred : ((a.l - ol).extTrunc a.bw true - 1).val =
        signedResidue a.bw (a.l.val - ol.val) - 1 := by
      rw [sub_val] <;> rw [hl, one_val] <;> omega
    rw [if_neg (by rw [SignMag.le_iff, hl, hu]; exact hle)]
    have hy : Yields (ofBounds .anti a.bw ((a.u - ol).extTrunc a.bw true + 1)
        ((a.l - ol).extTrunc a.bw true - 1)) a.bw .anti _ _ :=
      yields_anti a.bw_valid (by omega) (by omega) (by omega)
        ((normalizeAnti_inside a.bw_valid (by omega) (by omega) (by omega)).repair (by omega))
    rw [hy.holds_iff, hsucc, hpred]
    exact ⟨signedResidue_mem h0 _, by
      show _ ∨ _
      have := hmem.2
      omega⟩

theorem subSound_regular (hw : a.bw < maxDigits) (hbw : b.bw = a.bw)
    (ha : a.type = .regular) (hla : a.InLimits) (hb : b.type = .regular) (hlb : b.InLimits)
    (hf : ¬ (a.IsFull ∨ b.IsFull))
    (hmax : b.isConstant = true ∨ a.u.val - b.l.val < half maxDigits - 1) : SubSound a b := by
  have h0 := a.bw_valid.1
  have hcap := two_mul_half_le h0 hw
  have hP := half_pos a.bw
  intro x hx y hy
  obtain ⟨hx1, hx2, hy1, hy2⟩ := bounds_of_mem ha hb x hx y hy
  have ⟨ha1, ha2, ha3⟩ := hla
  obtain ⟨hb1, hb2, hb3⟩ := hlb
  rw [hbw] at hb1 hb3
  by_cases hc : b.isConstant = true
  · have hlu := congrArg SignMag.val (isConstant_iff.mp hc).2
    rw [sub_of_constant ha hc hf, if_neg (by rw [eq_min_iff]; omega),
      if_neg (by rw [eq_max_iff]; omega), show y = b.l.val by omega]
    refine subFinite_holds hw hla (fun h => hf (Or.inl ⟨ha, ?_, ?_⟩)) (by omega) hx1 hx2 <;>
      omega
  · have hmax := hmax.resolve_left hc
    have hl : (a.l - b.u).val = a.l.val - b.u.val := sub_val (by omega) (by omega)
    have hu : (a.u - b.l).val = a.u.val - b.l.val := sub_val (by omega) (by omega)
    have hsound : RegularSound a.bw (a.l - b.u) (a.u - b.l) := by
      rw [regularSound_iff_not_loss h0 a.bw_valid.2 (by omega) (by omega) (by omega)]
      exact not_regularLoss_of_near h0 (by omega) (by omega)
    rw [sub_of_regular ha hb hc hf]
    exact holds_guardSpan rfl (signedResidue_mem h0 _) (hsound.holds h0 (by omega) (by omega))

end Finite

/-! ## One bit below the capacity

Twice the lower limit of the width is `Min` and twice the upper limit, plus one,
is `Max`: a bound that lands there is taken for an infinite one. -/

section Near

variable {a b : Range}

theorem half_of_succ {w : Nat} (h0 : 0 < w) (hw : w + 1 = maxDigits) :
    half maxDigits = 2 * half w := by
  rw [two_mul_half h0, ← hw]
  rfl

/-- A finite range that is not the full one has the number of its values for a span. -/
theorem Yields.span {x : Except Error Range} {w : Nat} {l u : Int} (h : Yields x w .regular l u)
    (hlo : -half w ≤ l) (hle : l ≤ u) (hhi : u < half w) (hf : -half w < l ∨ u < half w - 1) :
    ∃ r k, x = .ok r ∧ r.bw = w ∧ r.type = .regular ∧ r.l.val = l ∧ r.u.val = u ∧
      r.getSpan = .ok k ∧ k.val = 1 + u - l := by
  obtain ⟨r, hr, rfl, hrt, rfl, rfl⟩ := h
  have hfull : ¬ r.IsFull := fun h => by
    have hl := h.2.1
    have hu := h.2.2
    omega
  obtain ⟨k, hk, hkv⟩ := getSpan_of_limits hrt ⟨hlo, hle, hhi⟩ hfull
  exact ⟨r, k, hr, rfl, hrt, rfl, rfl, hk, hkv⟩

theorem addSound_anti_corner (hw : a.bw + 1 = maxDigits) (ha : a.type = .anti)
    (hla : a.InLimits) (hb : b.isConstant = true) (hlb : b.InLimits) (hf : ¬ b.IsFull)
    (hl1 : a.l.val = -half a.bw) (hl2 : b.l.val = -half a.bw) : AddSound a b := by
  have h0 := a.bw_valid.1
  have hC := half_of_succ h0 hw
  have hP := half_pos a.bw
  have hfa := not_full_of_anti ha hf
  obtain ⟨ha1, ha2, ha3⟩ := hla
  have hl : (a.l + b.l).val = -half maxDigits := by rw [add_val] <;> omega
  have hu : (a.u + b.l).val = a.u.val - half a.bw := by rw [add_val] <;> omega
  have hsucc : (a.u + b.l + MinDelta).val = a.u.val - half a.bw + 1 := by
    rw [add_minDelta_val (by omega), hu]
  have hguard : ¬ b.l ≥ Max - a.u := by
    rw [ge_iff_le, SignMag.le_iff, sub_val] <;> rw [max_val] <;> omega
  intro x hx y hy
  obtain ⟨hxr, hx⟩ := (mem_gamma_of_anti ha).mp hx
  rw [(mem_gamma_of_constant hb hlb).mp hy, hl2, add_of_anti_constant ha hb hfa, if_neg hguard]
  by_cases hout : a.u.val - half a.bw + 1 < -half a.bw
  · have hy : Yields (ofBounds .anti a.bw (a.l + b.l) (a.u + b.l)) a.bw _ _ _ :=
      yields_anti_fromMin a.bw_valid hl (by omega) (by omega)
        ((normalizeToMax_below a.bw_valid (by omega)).repair_crossed (by omega))
    exact holds_of_all hy _
  · have hy : Yields (ofBounds .anti a.bw (a.l + b.l) (a.u + b.l)) a.bw _ _ _ :=
      yields_anti_fromMin a.bw_valid hl (by omega) (by omega)
        ((normalizeToMax_inside a.bw_valid (by omega) (by omega)).repair (by omega))
    rw [hy.holds_iff, hsucc]
    refine ⟨signedResidue_mem h0 _, ?_⟩
    rw [signedResidue_of_mem h0 (by omega) (by omega)]
    exact ⟨by omega, by omega⟩

/-- Both Regular ranges start at the lower limit. -/
theorem addSound_constant_corner (hw : a.bw + 1 = maxDigits) (ha : a.type = .regular)
    (hla : a.InLimits) (hb : b.isConstant = true) (hlb : b.InLimits)
    (hf : ¬ (a.IsFull ∨ b.IsFull)) (hl1 : a.l.val = -half a.bw) (hl2 : b.l.val = -half a.bw) :
    AddSound a b ↔ a.u.val < 0 := by
  have h0 := a.bw_valid.1
  have hC := half_of_succ h0 hw
  have hP := half_pos a.bw
  obtain ⟨ha1, ha2, ha3⟩ := hla
  have hl : (a.l + b.l).val = -half maxDigits := by rw [add_val] <;> omega
  have hu : (a.u + b.l).val = a.u.val - half a.bw := by rw [add_val] <;> omega
  have hadd : a.add b = ofBounds .regular a.bw (a.l + b.l) (a.u + b.l) := by
    rw [add_of_constant ha hb hf, if_neg (by rw [eq_min_iff]; omega),
      if_neg (by rw [eq_max_iff]; omega)]
  have hbmem := (mem_gamma_of_constant hb hlb).mpr rfl
  by_cases hneg : a.u.val < 0
  · refine iff_of_true (fun x hx y hy => ?_) hneg
    have hy : Yields (ofBounds .regular a.bw (a.l + b.l) (a.u + b.l)) a.bw _ _ _ :=
      yields_regular_fromMin a.bw_valid hl (by omega) (by omega)
        ((normalizeFromMin_below a.bw_valid (by omega)).repair_crossed (by omega))
    rw [hadd]
    exact holds_of_all hy _
  · refine iff_of_false (fun hs => ?_) hneg
    -- minus one and the lower limit add up to the upper limit
    have hone : -1 ∈ a.gamma := (mem_gamma_of_regular ha).mpr ⟨⟨by omega, by omega⟩, by omega⟩
    have hres := hs _ hone _ hbmem
    have hy : Yields (ofBounds .regular a.bw (a.l + b.l) (a.u + b.l)) a.bw _ _ _ :=
      yields_regular_fromMin a.bw_valid hl (by omega) (by omega)
        ((normalizeFromMin_inside a.bw_valid (by omega) (by omega)).repair (by omega))
    rw [hadd, hy.holds_iff, hl2, signedResidue_past_lower h0 (by omega) (by omega)] at hres
    have := hres.2.2
    have hnf : ¬ half a.bw - 1 ≤ a.u.val := fun h => hf (Or.inl ⟨ha, by omega, h⟩)
    omega

theorem addSound_regular_corner (hw : a.bw + 1 = maxDigits) (hbw : b.bw = a.bw)
    (ha : a.type = .regular) (hla : a.InLimits) (hb : b.type = .regular) (hlb : b.InLimits)
    (hc : ¬ b.isConstant = true) (hf : ¬ (a.IsFull ∨ b.IsFull)) (hl1 : a.l.val = -half a.bw)
    (hl2 : b.l.val = -half a.bw) :
    AddSound a b ↔ ¬ (0 < a.u.val ∧ 0 < b.u.val ∧ a.u.val + b.u.val < half a.bw - 1) := by
  have h0 := a.bw_valid.1
  have hlt : a.bw < maxDigits := by omega
  have hC := half_of_succ h0 hw
  have hP := half_pos a.bw
  obtain ⟨hfa, hfb⟩ := not_or.mp hf
  have hnfa : ¬ half a.bw - 1 ≤ a.u.val := fun h => hfa ⟨ha, by omega, h⟩
  have hnfb : ¬ half a.bw - 1 ≤ b.u.val := fun h => hfb ⟨hb, by rw [hbw]; omega, by rwa [hbw]⟩
  have heq := add_of_regular ha hb hc hf
  have ⟨ha1, ha2, ha3⟩ := hla
  have ⟨hb1, hb2, hb3⟩ := hlb
  rw [hbw] at hb1 hb3
  have hl : (a.l + b.l).val = -half maxDigits := by rw [add_val] <;> omega
  have hu : (a.u + b.u).val = a.u.val + b.u.val := add_val (by omega) (by omega)
  by_cases hlow : a.u.val + b.u.val < -half a.bw
  · refine iff_of_true (fun x _ y _ => ?_) (by omega)
    have hy : Yields (ofBounds .regular a.bw (a.l + b.l) (a.u + b.u)) a.bw _ _ _ :=
      yields_regular_fromMin a.bw_valid hl (by omega) (by omega)
        ((normalizeFromMin_below a.bw_valid (by omega)).repair_crossed (by omega))
    rw [heq]
    exact holds_guardSpan rfl (signedResidue_mem h0 _) (holds_of_all hy _)
  by_cases hmid : a.u.val + b.u.val < half a.bw
  · have hy : Yields (ofBounds .regular a.bw (a.l + b.l) (a.u + b.u)) a.bw _ _ _ :=
      yields_regular_fromMin a.bw_valid hl (by omega) (by omega)
        ((normalizeFromMin_inside a.bw_valid (by omega) (by omega)).repair (by omega))
    by_cases hall : a.u.val + b.u.val = half a.bw - 1
    · refine iff_of_true (fun x _ y _ => ?_) (by omega)
      rw [heq]
      refine holds_guardSpan rfl (signedResidue_mem h0 _) (hy.holds_iff.mpr ?_)
      have := signedResidue_mem h0 (x + y)
      exact ⟨this, this.1, by have := this.2; omega⟩
    obtain ⟨r, k, hr, hrw, hrt, hrl, hru, hk, hkv⟩ :=
      hy.span (by omega) (by omega) (by omega) (by omega)
    have hguard : ∀ v ∈ signedRange a.bw, (Holds (a.add b) a.bw v ↔
        (k.val ≤ 1 + a.u.val - a.l.val ∨ k.val ≤ 1 + b.u.val - b.l.val) ∨
          Holds (.ok r) a.bw v) := by
      intro v hv
      rw [heq, hr, ok_bind]
      exact holds_guardSpan_iff rfl decide_le_iff ha hla hb hlb hf hk hv
    have hspan : (k.val ≤ 1 + a.u.val - a.l.val ∨ k.val ≤ 1 + b.u.val - b.l.val) ↔
        ¬ (0 < a.u.val ∧ 0 < b.u.val) := by
      omega
    by_cases hpos : 0 < a.u.val ∧ 0 < b.u.val
    · refine iff_of_false (fun hsound => ?_) (not_not.mpr ⟨hpos.1, hpos.2, by omega⟩)
      have hx : -half a.bw ∈ a.gamma :=
        (mem_gamma_of_regular ha).mpr ⟨⟨by omega, by omega⟩, by omega, by omega⟩
      have hy' : -1 ∈ b.gamma := by
        refine (mem_gamma_of_regular hb).mpr ⟨⟨?_, ?_⟩, by omega, by omega⟩ <;> rw [hbw] <;> omega
      have hres := hsound _ hx _ hy'
      rw [hguard _ (signedResidue_mem h0 _), hspan, holds_ok] at hres
      rcases hres with hres | ⟨-, hres⟩
      · exact hres hpos
      · rw [mem_gamma_of_regular hrt, signedResidue_past_lower h0 (by omega) (by omega)] at hres
        have := hres.2.2
        omega
    · refine iff_of_true (fun x _ y _ => ?_) (by omega)
      rw [hguard _ (signedResidue_mem h0 _)]
      exact Or.inl (hspan.mpr hpos)
  · -- past the upper limit the span guard always gives up
    refine iff_of_true (fun x _ y _ => ?_) (by omega)
    have hy : Yields (ofBounds .regular a.bw (a.l + b.l) (a.u + b.u)) a.bw _ _ _ :=
      yields_regular_fromMin a.bw_valid hl (by omega) (by omega)
        ((normalizeFromMin_above h0 hlt (by omega) (by omega)).repair (by omega))
    obtain ⟨r, hr, hrw, hrt, hrl, hru⟩ := hy
    have hmaxV := getMaxValue_val h0 hlt
    have hdiff : (r.u - r.l).val = r.u.val - r.l.val := sub_val (by omega) (by omega)
    have hk : (getMaxValue r.bw - (r.u - r.l)).val = a.u.val + b.u.val + 1 := by
      rw [hrw, sub_val] <;> omega
    rw [heq, hr, ok_bind, holds_guardSpan_iff rfl decide_le_iff ha hla hb hlb hf (getSpan_of_anti hrt)
      (signedResidue_mem h0 _)]
    exact Or.inl (Or.inl (by omega))

theorem subSound_anti_corner (hw : a.bw + 1 = maxDigits) (ha : a.type = .anti)
    (hla : a.InLimits) (hb : b.isConstant = true) (hlb : b.InLimits) (hf : ¬ b.IsFull)
    (hu1 : a.u.val = half a.bw - 1) (hl2 : b.l.val = -half a.bw) : SubSound a b := by
  have h0 := a.bw_valid.1
  have hlt : a.bw < maxDigits := by omega
  have hC := half_of_succ h0 hw
  have hP := half_pos a.bw
  have hfa := not_full_of_anti ha hf
  obtain ⟨ha1, ha2, ha3⟩ := hla
  have hl : (a.l - b.l).val = a.l.val + half a.bw := by rw [sub_val] <;> omega
  have hu : (a.u - b.l).val = half maxDigits - 1 := by rw [sub_val] <;> omega
  have hpred : (a.l - b.l - MinDelta).val = a.l.val + half a.bw - 1 := by
    rw [sub_minDelta_val (by omega), hl]
  have hguard : ¬ a.l ≤ Min + b.l := by
    rw [SignMag.le_iff, add_val] <;> rw [min_val] <;> omega
  intro x hx y hy
  obtain ⟨hxr, hx⟩ := (mem_gamma_of_anti ha).mp hx
  rw [(mem_gamma_of_constant hb hlb).mp hy, hl2, sub_of_anti_constant ha hb hfa, if_neg hguard]
  by_cases hin : a.l.val ≤ 0
  · have hy : Yields (ofBounds .anti a.bw (a.l - b.l) (a.u - b.l)) a.bw _ _ _ :=
      yields_anti_toMax a.bw_valid (by omega) (by omega) hu
        ((normalizeFromMin_inside a.bw_valid (by omega) (by omega)).repair (by omega))
    rw [hy.holds_iff, hpred, signedResidue_of_mem h0 (by omega) (by omega)]
    exact ⟨⟨by omega, by omega⟩, by omega, by omega⟩
  · have hy : Yields (ofBounds .anti a.bw (a.l - b.l) (a.u - b.l)) a.bw _ _ _ :=
      yields_anti_toMax a.bw_valid (by omega) (by omega) hu
        ((normalizeFromMin_above h0 hlt (by omega) (by omega)).repair (by omega))
    rw [hy.holds_iff, hpred]
    refine ⟨signedResidue_mem h0 _, ?_⟩
    show _ ∨ _
    by_cases hneg : x < 0
    · rw [signedResidue_of_mem h0 (by omega) (by omega)]
      omega
    · rw [signedResidue_past_upper h0 (by omega) (by omega)]
      omega

theorem subSound_regular_corner (hw : a.bw + 1 = maxDigits) (hbw : b.bw = a.bw)
    (ha : a.type = .regular) (hla : a.InLimits) (hb : b.type = .regular) (hlb : b.InLimits)
    (hc : ¬ b.isConstant = true) (hf : ¬ (a.IsFull ∨ b.IsFull)) (hu1 : a.u.val = half a.bw - 1)
    (hl2 : b.l.val = -half a.bw) :
    SubSound a b ↔ ¬ (0 ≤ b.u.val ∧ a.l.val < 0 ∧ -half a.bw < a.l.val - b.u.val) := by
  have h0 := a.bw_valid.1
  have hlt : a.bw < maxDigits := by omega
  have hC := half_of_succ h0 hw
  have hP := half_pos a.bw
  obtain ⟨hfa, hfb⟩ := not_or.mp hf
  have hnfa : ¬ a.l.val ≤ -half a.bw := fun h => hfa ⟨ha, h, by omega⟩
  have hnfb : ¬ half a.bw - 1 ≤ b.u.val := fun h => hfb ⟨hb, by rw [hbw]; omega, by rwa [hbw]⟩
  have heq := sub_of_regular ha hb hc hf
  have ⟨ha1, ha2, ha3⟩ := hla
  have ⟨hb1, hb2, hb3⟩ := hlb
  rw [hbw] at hb1 hb3
  have hl : (a.l - b.u).val = a.l.val - b.u.val := sub_val (by omega) (by omega)
  have hu : (a.u - b.l).val = half maxDigits - 1 := by rw [sub_val] <;> omega
  by_cases hlow : a.l.val - b.u.val < -half a.bw
  · refine iff_of_true (fun x _ y _ => ?_) (by omega)
    have hy : Yields (ofBounds .regular a.bw (a.l - b.u) (a.u - b.l)) a.bw _ _ _ :=
      yields_regular_toMax a.bw_valid (by omega) (by omega) (by omega) hu
        ((normalizeToMax_below a.bw_valid (by omega)).repair_crossed (by omega))
    rw [heq]
    exact holds_guardSpan rfl (signedResidue_mem h0 _) (holds_of_all hy _)
  by_cases hmid : a.l.val - b.u.val < half a.bw
  · have hy : Yields (ofBounds .regular a.bw (a.l - b.u) (a.u - b.l)) a.bw _ _ _ :=
      yields_regular_toMax a.bw_valid (by omega) (by omega) (by omega) hu
        ((normalizeToMax_inside a.bw_valid (by omega) (by omega)).repair (by omega))
    by_cases hall : a.l.val - b.u.val = -half a.bw
    · refine iff_of_true (fun x _ y _ => ?_) (by omega)
      rw [heq]
      refine holds_guardSpan rfl (signedResidue_mem h0 _) (hy.holds_iff.mpr ?_)
      have := signedResidue_mem h0 (x - y)
      exact ⟨this, by have := this.1; omega, by have := this.2; omega⟩
    obtain ⟨r, k, hr, hrw, hrt, hrl, hru, hk, hkv⟩ :=
      hy.span (by omega) (by omega) (by omega) (by omega)
    have hguard : ∀ v ∈ signedRange a.bw, (Holds (a.sub b) a.bw v ↔
        (k.val < 1 + a.u.val - a.l.val ∨ k.val < 1 + b.u.val - b.l.val) ∨
          Holds (.ok r) a.bw v) := by
      intro v hv
      rw [heq, hr, ok_bind]
      exact holds_guardSpan_iff rfl decide_lt_iff ha hla hb hlb hf hk hv
    have hspan : (k.val < 1 + a.u.val - a.l.val ∨ k.val < 1 + b.u.val - b.l.val) ↔
        ¬ (0 ≤ b.u.val ∧ a.l.val < 0) := by
      omega
    by_cases hpos : 0 ≤ b.u.val ∧ a.l.val < 0
    · refine iff_of_false (fun hsound => ?_) (not_not.mpr ⟨hpos.1, hpos.2, by omega⟩)
      have hx : half a.bw - 1 ∈ a.gamma :=
        (mem_gamma_of_regular ha).mpr ⟨⟨by omega, by omega⟩, by omega, by omega⟩
      have hy' : -1 ∈ b.gamma := by
        refine (mem_gamma_of_regular hb).mpr ⟨⟨?_, ?_⟩, by omega, by omega⟩ <;> rw [hbw] <;> omega
      have hres := hsound _ hx _ hy'
      rw [hguard _ (signedResidue_mem h0 _), hspan, holds_ok] at hres
      rcases hres with hres | ⟨-, hres⟩
      · exact hres hpos
      · rw [mem_gamma_of_regular hrt, signedResidue_past_upper h0 (by omega) (by omega)] at hres
        have := hres.2.1
        omega
    · refine iff_of_true (fun x _ y _ => ?_) (by omega)
      rw [hguard _ (signedResidue_mem h0 _)]
      exact Or.inl (hspan.mpr hpos)
  · refine iff_of_true (fun x hx y hy => ?_) (by omega)
    obtain ⟨hx1, hx2, hy1, hy2⟩ := bounds_of_mem ha hb x hx y hy
    have hy : Yields (ofBounds .regular a.bw (a.l - b.u) (a.u - b.l)) a.bw _ _ _ :=
      yields_regular_toMax a.bw_valid (by omega) (by omega) (by omega) hu
        ((normalizeToMax_above h0 hlt (by omega) (by omega)).repair (by omega))
    rw [heq]
    refine holds_guardSpan rfl (signedResidue_mem h0 _) (hy.holds_iff.mpr ?_)
    rw [signedResidue_past_upper h0 (by omega) (by omega)]
    exact ⟨⟨by omega, by omega⟩, by omega, by omega⟩

end Near

end Range
end Bambu
