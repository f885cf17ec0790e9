/-
  Bambu.Utility.Range.Saturate

  `Range::sat_add`, `sat_sub`, `usat_add` and `usat_sub`.

  The four dispatch on their operands and close with a span test as `add` and
  `sub` do (`saturating`, `guardSpan`).  The signed two clamp the bounds and are sound, but for the
  branch of `sat_sub` that builds an Anti range where its mirror in `sat_add`
  builds a Regular one.  The unsigned two do their arithmetic on the bounds as
  they are stored, in signed form: `UsatAddLoss` and `UsatSubLoss` are the
  operands for which that misses an unsigned result.
-/

import Bambu.Utility.Range.Arc

namespace Bambu
namespace Range

open Bambu.Math APInt

/-! ## The operations -/

def satAdd (this other : Range) : Except Error Range :=
  let minS := getSignedMinValue this.bw
  let maxS := getSignedMaxValue this.bw
  saturating this other
    (fun ol =>
      if ol = 0 then .ok this
      else if ol > 0 then ofBounds .regular this.bw (minS + ol) maxS
      else ofBounds .regular this.bw minS (maxS + ol))
    (fun ol rest =>
      if ol = 0 then .ok this
      else atInfinity this
        (if ol > 0 then ofBounds .regular this.bw (minS + ol) (min maxS (this.u + ol))
          else ofBounds .regular this.bw minS (max minS (this.u + ol)))
        (if ol > 0 then ofBounds .regular this.bw (min maxS (this.l + ol)) maxS
          else ofBounds .regular this.bw (max minS (this.l + ol)) (maxS + ol))
        rest)
    (do
      let lb := max minS (min maxS ((← this.getLower) + (← other.getLower)))
      let ub := max minS (min maxS ((← this.getUpper) + (← other.getUpper)))
      let res ← ofBounds .regular this.bw lb ub
      guardSpan this other (fun s t => decide (s ≤ t)) res)

def usatAdd (this other : Range) : Except Error Range :=
  let maxV := getMaxValue this.bw
  saturating this other
    (fun ol =>
      if this.l + ol ≥ maxV then ofBounds .anti this.bw 0 (this.u + ol)
      else ofBounds .anti this.bw (this.l + ol) (this.u + ol))
    (fun ol _ =>
      -- no constant falls through to the span test here
      atInfinity this
        (ofBounds .regular this.bw 0 (min maxV (this.u + ol)))
        (ofBounds .regular this.bw (min maxV (this.l + ol)) maxV)
        (ofBounds .regular this.bw (this.l + ol) (min maxV (this.u + ol))))
    (do
      let lb := min maxV ((← this.getLower) + (← other.getLower))
      let ub := min maxV ((← this.getUpper) + (← other.getUpper))
      let res ← ofBounds .regular this.bw lb ub
      guardSpan this other (fun s t => decide (s ≤ t)) res)

def satSub (this other : Range) : Except Error Range :=
  let minS := getSignedMinValue this.bw
  let maxS := getSignedMaxValue this.bw
  saturating this other
    (fun ol =>
      if ol = 0 then .ok this
      else if ol < 0 then ofBounds .regular this.bw (minS - ol) maxS
      else ofBounds .anti this.bw minS (maxS - ol))
    (fun ol rest =>
      if ol = 0 then .ok this
      else atInfinity this
        (if ol < 0 then ofBounds .regular this.bw (minS - ol) (min maxS (this.u - ol))
          else ofBounds .regular this.bw minS (max minS (this.u - ol)))
        (if ol < 0 then ofBounds .regular this.bw (min maxS (this.l - ol)) maxS
          else ofBounds .regular this.bw (max minS (this.l - ol)) (maxS - ol))
        rest)
    (do
      let lb := max minS (min maxS ((← this.getLower) - (← other.getUpper)))
      let ub := max minS (min maxS ((← this.getUpper) - (← other.getLower)))
      let res ← ofBounds .regular this.bw lb ub
      guardSpan this other (fun s t => decide (s < t)) res)

def usatSub (this other : Range) : Except Error Range :=
  let maxV := getMaxValue this.bw
  saturating this other
    (fun ol =>
      if ol = 0 then .ok this
      else if ol < 0 then ofBounds .regular this.bw (0 - ol) maxV
      else ofBounds .regular this.bw 0 (maxV - ol))
    (fun ol rest =>
      if ol = 0 then .ok this
      else atInfinity this
        (if ol < 0 then ofBounds .regular this.bw (0 - ol) (min maxV (this.u - ol))
          else ofBounds .regular this.bw 0 (max 0 (this.u - ol)))
        (if ol < 0 then ofBounds .regular this.bw (min maxV (this.l - ol)) maxV
          else ofBounds .regular this.bw (max 0 (this.l - ol)) (maxV - ol))
        rest)
    (do
      let lb := max 0 (min maxV ((← this.getLower) - (← other.getUpper)))
      let ub := max 0 (min maxV ((← this.getUpper) - (← other.getLower)))
      let res ← ofBounds .regular this.bw lb ub
      guardSpan this other (fun s t => decide (s < t)) res)

/-! ## Signed saturation -/

/-- The signed value of the width closest to `v`. -/
def clamp (w : Nat) (v : Int) : Int := max (-half w) (min (half w - 1) v)

/-- Every saturated sum is kept. -/
def SatAddSound (a b : Range) : Prop :=
  ∀ x ∈ a.gamma, ∀ y ∈ b.gamma, Holds (a.satAdd b) a.bw (clamp a.bw (x + y))

/-- Every saturated difference is kept. -/
def SatSubSound (a b : Range) : Prop :=
  ∀ x ∈ a.gamma, ∀ y ∈ b.gamma, Holds (a.satSub b) a.bw (clamp a.bw (x - y))

/-- The operands of the Anti branch of `sat_sub` that excludes what it should keep. -/
def SatSubLoss (a b : Range) : Prop :=
  a.type = .anti ∧ b.isConstant = true ∧ 0 < b.l.val ∧ a.gamma.Nonempty

section Signed

variable {a b : Range} {x y v : Int} {w : Nat} {lb ub : APInt}

theorem clamp_mem (w : Nat) (v : Int) : clamp w v ∈ signedRange w := by
  have hP := half_pos w
  unfold clamp
  exact ⟨by omega, by omega⟩

theorem clamp_of_mem (hv : v ∈ signedRange w) : clamp w v = v := by
  obtain ⟨h1, h2⟩ := hv
  unfold clamp
  omega

theorem holds_limits (hw : 0 < w ∧ w ≤ maxDigits) (hlo : -half w ≤ lb.val) (hlv : lb.val ≤ v)
    (hvu : v ≤ ub.val) (hhi : ub.val < half w) : Holds (ofBounds .regular w lb ub) w v := by
  rw [holds_regular_iff hw.1 hw.2 hlo (by omega) hhi]
  exact ⟨⟨by omega, by omega⟩, hlv, hvu⟩

/-- Crossed Regular bounds are the gap of an Anti range. -/
theorem holds_regular_crossed (hw : 0 < w ∧ w ≤ maxDigits) (hlo : -half w ≤ ub.val)
    (hlt : ub.val < lb.val) (hhi : lb.val < half w) (hv : v ∈ signedRange w)
    (hout : v ≤ ub.val ∨ lb.val ≤ v) : Holds (ofBounds .regular w lb ub) w v := by
  have hcap := half_le_half hw.2
  have hP := half_pos w
  have h2 := two_le_half_maxDigits
  have hpred : (lb - MinDelta).val = lb.val - 1 := sub_minDelta_val (by omega)
  have hsucc : (ub + MinDelta).val = ub.val + 1 := add_minDelta_val (by omega)
  by_cases hadj : lb.val = ub.val + 1
  · have hy : Yields (ofBounds .regular w lb ub) w .regular (-half w) (half w - 1) := by
      apply yields_of_normalizeRange hw
      simp only [normalizeRange]
      rw [if_pos (by rw [SignMag.eq_iff]; omega), repair_of_le]
      · exact yieldsBounds_ok (getSignedMinValue_val hw.1 hw.2) (getSignedMaxValue_val hw.1 hw.2)
      · rw [getSignedMinValue_val hw.1 hw.2, getSignedMaxValue_val hw.1 hw.2]
        omega
    rw [hy.holds_iff]
    obtain ⟨h1, h2⟩ := hv
    exact ⟨⟨h1, h2⟩, h1, by omega⟩
  · have hy : Yields (ofBounds .regular w lb ub) w .anti (ub + MinDelta).val (lb - MinDelta).val := by
      apply yields_of_normalizeRange hw
      simp only [normalizeRange]
      rw [if_neg (by rw [SignMag.eq_iff]; omega), if_pos (by rw [gt_iff_lt, SignMag.lt_iff]; omega),
        if_neg (by rw [gt_iff_lt, SignMag.lt_iff]; omega),
        if_neg (fun h => by have := eq_min_iff.mp h.1; omega),
        if_neg (fun h => by have := eq_min_iff.mp h; omega),
        if_neg (fun h => by have := eq_max_iff.mp h; omega)]
      exact (normalizeAnti_inside hw (by omega) (by omega) (by omega)).repair (by omega)
    rw [hy.holds_iff]
    refine ⟨hv, ?_⟩
    unfold TypeMem
    simp only
    omega

/-- The extreme sums, clamped; only `Min + Min` leaves the capacity. -/
theorem clampBounds_val (hw : 0 < w ∧ w ≤ maxDigits) (z : APInt) :
    (max (getSignedMinValue w) (min (getSignedMaxValue w) z)).val = clamp w z.val := by
  rw [SignMag.val_max, SignMag.val_min, getSignedMinValue_val hw.1 hw.2,
    getSignedMaxValue_val hw.1 hw.2]
  rfl

/-- The general case of `sat_add`. -/
theorem holds_satAdd_general (hbw : b.bw = a.bw) (ha : a.type = .regular) (hb : b.type = .regular)
    (hla : a.InLimits) (hlb : b.InLimits) (hf : ¬ (a.IsFull ∨ b.IsFull))
    (hexact : a.l ≠ Min ∨ b.l.val < b.u.val) (hx : x ∈ a.gamma) (hy : y ∈ b.gamma) :
    Holds (ofBounds .regular a.bw
        (max (getSignedMinValue a.bw) (min (getSignedMaxValue a.bw) (a.l + b.l)))
        (max (getSignedMinValue a.bw) (min (getSignedMaxValue a.bw) (a.u + b.u))) >>=
      guardSpan a b (fun s t => decide (s ≤ t))) a.bw (clamp a.bw (x + y)) := by
  have hcap := half_le_half a.bw_valid.2
  have hP := half_pos a.bw
  have hlv := clampBounds_val a.bw_valid (a.l + b.l)
  have huv := clampBounds_val a.bw_valid (a.u + b.u)
  obtain ⟨hx1, hx2, hy1, hy2⟩ := bounds_of_mem ha hb x hx y hy
  have ⟨ha1, ha2, ha3⟩ := hla
  have ⟨hb1, hb2, hb3⟩ := hlb
  rw [hbw] at hb1 hb3
  rw [ne_eq, eq_min_iff] at hexact
  have hu : (a.u + b.u).val = a.u.val + b.u.val := add_val (by omega) (by omega)
  rw [hu] at huv
  by_cases hover : -(2 * half maxDigits) < a.l.val + b.l.val
  · have hl : (a.l + b.l).val = a.l.val + b.l.val := add_val hover (by omega)
    rw [hl] at hlv
    refine holds_guardSpan rfl (clamp_mem _ _) (holds_limits a.bw_valid ?_ ?_ ?_ ?_) <;>
      simp only [hlv, huv, clamp] <;> omega
  -- two infinite lower bounds: their sum is dropped to zero
  have hl : (a.l + b.l).val = 0 := by
    rw [SignMag.val_add, show a.l.val + b.l.val = -(2 : Int) ^ maxDigits by
      rw [← two_mul_half_maxDigits]; omega]
    exact SignMag.val_ofInt_neg_two_pow
  rw [hl, clamp_of_mem ⟨by omega, hP⟩] at hlv
  by_cases hneg : a.u.val + b.u.val < 0
  · refine holds_guardSpan rfl (clamp_mem _ _) (holds_regular_crossed a.bw_valid ?_ ?_ ?_
      (clamp_mem _ _) (Or.inl ?_)) <;> simp only [hlv, huv, clamp] <;> omega
  · -- the result is shorter than the first operand
    have hyields : Yields (ofBounds .regular a.bw
        (max (getSignedMinValue a.bw) (min (getSignedMaxValue a.bw) (a.l + b.l)))
        (max (getSignedMinValue a.bw) (min (getSignedMaxValue a.bw) (a.u + b.u)))) a.bw .regular _ _ :=
      ofBounds_regular_inside a.bw_valid (by rw [hlv]; omega) (by rw [hlv, huv, clamp]; omega)
        (by rw [huv, clamp]; omega)
    rw [hlv, huv, clamp] at hyields
    obtain ⟨r, k, hr, -, -, -, -, hk, hkv⟩ :=
      hyields.span (by omega) (by omega) (by omega) (by omega)
    rw [hr, ok_bind, holds_guardSpan_iff rfl decide_le_iff ha hla hb hlb hf hk (clamp_mem _ _)]
    exact Or.inl (Or.inl (by omega))

/-- The general case of `sat_sub`; a difference of bounds fits the capacity. -/
theorem holds_satSub_general (hbw : b.bw = a.bw) (ha : a.type = .regular) (hb : b.type = .regular)
    (hla : a.InLimits) (hlb : b.InLimits) (hx : x ∈ a.gamma) (hy : y ∈ b.gamma) :
    Holds (ofBounds .regular a.bw
        (max (getSignedMinValue a.bw) (min (getSignedMaxValue a.bw) (a.l - b.u)))
        (max (getSignedMinValue a.bw) (min (getSignedMaxValue a.bw) (a.u - b.l))) >>=
      guardSpan a b (fun s t => decide (s < t))) a.bw (clamp a.bw (x - y)) := by
  have hcap := half_le_half a.bw_valid.2
  have hP := half_pos a.bw
  have hlv := clampBounds_val a.bw_valid (a.l - b.u)
  have huv := clampBounds_val a.bw_valid (a.u - b.l)
  obtain ⟨hx1, hx2, hy1, hy2⟩ := bounds_of_mem ha hb x hx y hy
  obtain ⟨ha1, ha2, ha3⟩ := hla
  obtain ⟨hb1, hb2, hb3⟩ := hlb
  rw [hbw] at hb1 hb3
  have hl : (a.l - b.u).val = a.l.val - b.u.val := sub_val (by omega) (by omega)
  have hu : (a.u - b.l).val = a.u.val - b.l.val := sub_val (by omega) (by omega)
  rw [hl] at hlv
  rw [hu] at huv
  refine holds_guardSpan rfl (clamp_mem _ _) (holds_limits a.bw_valid ?_ ?_ ?_ ?_) <;>
    simp only [hlv, huv, clamp] <;> omega

/-- A Regular range moved by a constant: one bound moves up to the limit, or the
    other down to it, and an infinite bound is read as the limit that moves. -/
theorem holds_atInfinity {p : Prop} [Decidable p] {δ : Int} {mn mx lo up : APInt}
    {rest : Except Error Range} (hp : p ↔ 0 < δ) (hδ : -half a.bw ≤ δ ∧ δ ≤ half a.bw)
    (ha : a.type = .regular) (hla : a.InLimits) (hf : ¬ a.IsFull) (hx : x ∈ a.gamma)
    (hmn : 0 < δ → mn.val = -half a.bw + δ) (hmx : mx.val = half a.bw - 1 + δ)
    (hlo : a.l ≠ Min → lo.val = a.l.val + δ)
    (hup : up.val = a.u.val + δ ∨ (a.u.val + δ ≤ 0 ∧ up.val = 0 ∧ δ ≤ 0))
    (hrest : a.l ≠ Min → Holds rest a.bw (clamp a.bw (x + δ))) :
    Holds (atInfinity a
      (if p then ofBounds .regular a.bw mn (min (getSignedMaxValue a.bw) up)
        else ofBounds .regular a.bw (getSignedMinValue a.bw) (max (getSignedMinValue a.bw) up))
      (if p then ofBounds .regular a.bw (min (getSignedMaxValue a.bw) lo) (getSignedMaxValue a.bw)
        else ofBounds .regular a.bw (max (getSignedMinValue a.bw) lo) mx) rest)
      a.bw (clamp a.bw (x + δ)) := by
  have hcap := half_le_half a.bw_valid.2
  have hP := half_pos a.bw
  have hmin := getSignedMinValue_val a.bw_valid.1 a.bw_valid.2
  have hmax := getSignedMaxValue_val a.bw_valid.1 a.bw_valid.2
  obtain ⟨-, hx1, hx2⟩ := (mem_gamma_of_regular ha).mp hx
  obtain ⟨ha1, ha2, ha3⟩ := hla
  rw [atInfinity_of_regular ha hf]
  by_cases hl : a.l = Min
  · rw [if_pos hl]
    rw [eq_min_iff] at hl
    split_ifs with hpos <;> rw [hp] at hpos
    · have hmn := hmn hpos
      refine holds_limits a.bw_valid ?_ ?_ ?_ ?_ <;>
        simp only [hmn, hmax, clamp, SignMag.val_min] <;> omega
    · refine holds_limits a.bw_valid ?_ ?_ ?_ ?_ <;>
        simp only [hmin, clamp, SignMag.val_max] <;> omega
  have hlv := hlo hl
  rw [if_neg hl]
  by_cases hu : a.u = Max
  · rw [if_pos hu]
    rw [eq_max_iff] at hu
    split_ifs with hpos <;> rw [hp] at hpos
    · refine holds_limits a.bw_valid ?_ ?_ ?_ ?_ <;>
        simp only [hlv, hmax, clamp, SignMag.val_min] <;> omega
    · refine holds_limits a.bw_valid ?_ ?_ ?_ ?_ <;>
        simp only [hlv, hmx, hmin, clamp, SignMag.val_max] <;> omega
  · rw [if_neg hu]
    exact hrest hl

/-- No saturated sum is lost, at any width. -/
theorem satAdd_sound (hbw : b.bw = a.bw) (hua : a.type ≠ .unknown) (hub : b.type ≠ .unknown)
    (hwa : a.WellFormed) (hwb : b.WellFormed) : SatAddSound a b := by
  have hcap := half_le_half a.bw_valid.2
  have hP := half_pos a.bw
  have h2 := two_le_half_maxDigits
  have hmin := getSignedMinValue_val a.bw_valid.1 a.bw_valid.2
  have hmax := getSignedMaxValue_val a.bw_valid.1 a.bw_valid.2
  unfold SatAddSound satAdd
  simp only
  refine sound_of_operands hua hub
    (fun hpa hpb h _ _ _ _ => holds_of_widens hpa hpb h (clamp_mem _ _)) ?_
  intro x hx y hy hf ho
  obtain ⟨hfa, hfb⟩ := not_or.mp hf
  have htb : b.type = .regular := ho.elim (fun h => (isConstant_iff.mp h.2).1) And.right
  have hlb := hwb.inLimits_of_not_full (Or.inl htb) hfb
  have hbl := hlb.l_mem
  rw [hbw] at hbl
  have haddmin : 0 < b.l.val → (getSignedMinValue a.bw + b.l).val = -half a.bw + b.l.val := by
    intro hpos
    rw [add_val] <;> rw [hmin] <;> omega
  have haddmax : (getSignedMaxValue a.bw + b.l).val = half a.bw - 1 + b.l.val := by
    rw [add_val] <;> rw [hmax] <;> omega
  rcases ho with ⟨hta, hbc⟩ | ⟨hta, -⟩
  · -- the constant moves both limits
    obtain ⟨hxr1, hxr2⟩ := hx.1
    rw [saturating_of_anti_constant hta hbc hf, (mem_gamma_of_constant hbc hlb).mp hy]
    split_ifs with hz hpos
    · rw [hz, SignMag.val_zero, add_zero, clamp_of_mem hx.1]
      exact holds_ok.mpr ⟨rfl, hx⟩
    · rw [zero_lt_iff] at hpos
      have hadd := haddmin hpos
      refine holds_limits a.bw_valid ?_ ?_ ?_ ?_ <;> simp only [hadd, hmax, clamp] <;> omega
    · rw [zero_lt_iff] at hpos
      refine holds_limits a.bw_valid ?_ ?_ ?_ ?_ <;> simp only [haddmax, hmin, clamp] <;> omega
  have hla := hwa.inLimits_of_not_full (Or.inl hta) hfa
  have hna : a.type ≠ .anti := by rw [hta]; decide
  have hnb : b.type ≠ .anti := by rw [htb]; decide
  rw [saturating_of_regular hta htb hf]
  simp only [getLower_eq hna, getLower_eq hnb, getUpper_eq hna, getUpper_eq hnb, ok_bind]
  by_cases hbc : b.isConstant = true
  · have hyl := (mem_gamma_of_constant hbc hlb).mp hy
    rw [if_pos hbc, hyl]
    by_cases hz : b.l = 0
    · rw [if_pos hz, hz, SignMag.val_zero, add_zero, clamp_of_mem hx.1]
      exact holds_ok.mpr ⟨rfl, hx⟩
    rw [if_neg hz]
    have hll := hla.l_mem
    have hlu := hla.u_mem
    -- a sum out of the capacity is zero, which is still an upper bound
    have hup : (a.u + b.l).val = a.u.val + b.l.val ∨
        (a.u.val + b.l.val ≤ 0 ∧ (a.u + b.l).val = 0 ∧ b.l.val ≤ 0) := by
      by_cases hover : -(2 * half maxDigits) < a.u.val + b.l.val
      · exact Or.inl (add_val hover (by omega))
      · refine Or.inr ⟨by omega, ?_, by omega⟩
        rw [SignMag.val_add, show a.u.val + b.l.val = -(2 : Int) ^ maxDigits by
          rw [← two_mul_half_maxDigits]; omega]
        exact SignMag.val_ofInt_neg_two_pow
    refine holds_atInfinity zero_lt_iff (by omega) hta hla hfa hx haddmin haddmax
      (fun hl => ?_) hup (fun hl => ?_)
    · rw [ne_eq, eq_min_iff] at hl
      exact add_val (by omega) (by omega)
    · rw [← hyl]
      exact holds_satAdd_general hbw hta htb hla hlb hf (Or.inl hl) hx hy
  · rw [if_neg hbc]
    refine holds_satAdd_general hbw hta htb hla hlb hf (Or.inr ?_) hx hy
    obtain ⟨-, hle, -⟩ := hlb
    by_contra hge
    exact hbc (isConstant_iff.mpr ⟨htb, SignMag.ext (by omega)⟩)

/-- The Anti branch of `sat_sub`. -/
theorem satSub_anti_iff (hbw : b.bw = a.bw) (hta : a.type = .anti) (hbc : b.isConstant = true)
    (hlb : b.InLimits) (hf : ¬ (a.IsFull ∨ b.IsFull)) : SatSubSound a b ↔ ¬ SatSubLoss a b := by
  have hcap := half_le_half a.bw_valid.2
  have hP := half_pos a.bw
  have h2 := two_le_half_maxDigits
  have hmin := getSignedMinValue_val a.bw_valid.1 a.bw_valid.2
  have hmax := getSignedMaxValue_val a.bw_valid.1 a.bw_valid.2
  have hbl := hlb.l_mem
  rw [hbw] at hbl
  unfold SatSubSound satSub SatSubLoss
  simp only
  rw [forall_mem_constant hbc hlb, saturating_of_anti_constant hta hbc hf]
  constructor
  · rintro hs ⟨-, -, hpos, x, hx⟩
    have hv := hs x hx
    have hsub : (getSignedMaxValue a.bw - b.l).val = half a.bw - 1 - b.l.val := by
      rw [sub_val] <;> rw [hmax] <;> omega
    rw [if_neg (by rw [SignMag.eq_iff, SignMag.val_zero]; omega),
      if_neg (by rw [lt_zero_iff]; omega)] at hv
    have hd : Denotes (ofBounds .anti a.bw (getSignedMinValue a.bw) (getSignedMaxValue a.bw - b.l))
        a.bw _ := denotes_anti a.bw_valid (by omega) (by omega) (by omega)
    obtain ⟨r, hr, hrbw, hrg⟩ := hd
    rw [hr, holds_ok, hrg] at hv
    obtain ⟨-, hvr, hvo⟩ := hv
    obtain ⟨hx1, hx2⟩ := hx.1
    rw [hmin, hsub] at hvo
    unfold clamp at hvo
    omega
  · intro hloss x hx
    obtain ⟨hxr1, hxr2⟩ := hx.1
    have hnpos : ¬ 0 < b.l.val := fun h => hloss ⟨hta, hbc, h, x, hx⟩
    have hsub : (getSignedMinValue a.bw - b.l).val = -half a.bw - b.l.val := by
      rw [sub_val] <;> rw [hmin] <;> omega
    split_ifs with hz hneg
    · rw [hz, SignMag.val_zero, sub_zero, clamp_of_mem hx.1]
      exact holds_ok.mpr ⟨rfl, hx⟩
    · refine holds_limits a.bw_valid ?_ ?_ ?_ ?_ <;> simp only [hsub, hmax, clamp] <;> omega
    · rw [SignMag.eq_iff, SignMag.val_zero] at hz
      rw [lt_zero_iff] at hneg
      omega

/-- A saturated difference is lost exactly in the Anti branch for a positive constant. -/
theorem satSub_sound_iff (hbw : b.bw = a.bw) (hua : a.type ≠ .unknown) (hub : b.type ≠ .unknown)
    (hwa : a.WellFormed) (hwb : b.WellFormed) : SatSubSound a b ↔ ¬ SatSubLoss a b := by
  have hcap := half_le_half a.bw_valid.2
  have hP := half_pos a.bw
  have h2 := two_le_half_maxDigits
  refine sound_iff_of_operands hua hub (fun hpa hpb h _ _ _ _ => ?_) (fun _ _ hf => hf)
    (fun h => ⟨?_, Or.inl ⟨h.1, h.2.1⟩⟩) (fun hf hta hbc => ?_) (fun hf hta htb => ?_)
  · unfold satSub
    exact holds_of_widens hpa hpb h (clamp_mem _ _)
  · obtain ⟨hta, hbc, hpos, -⟩ := h
    refine not_full_of_anti hta fun hfb => ?_
    have hlu := (isConstant_iff.mp hbc).2
    have h1 := hfb.2.1
    have hPb := half_pos b.bw
    omega
  · obtain ⟨-, hfb⟩ := not_or.mp hf
    have htb := (isConstant_iff.mp hbc).1
    exact satSub_anti_iff hbw hta hbc (hwb.inLimits_of_not_full (Or.inl htb) hfb) hf
  refine iff_of_true (fun x hx y hy => ?_) (fun h => by have := h.1; rw [hta] at this; cases this)
  obtain ⟨hfa, hfb⟩ := not_or.mp hf
  have hla := hwa.inLimits_of_not_full (Or.inl hta) hfa
  have hlb := hwb.inLimits_of_not_full (Or.inl htb) hfb
  have hmin := getSignedMinValue_val a.bw_valid.1 a.bw_valid.2
  have hmax := getSignedMaxValue_val a.bw_valid.1 a.bw_valid.2
  have hna : a.type ≠ .anti := by rw [hta]; decide
  have hnb : b.type ≠ .anti := by rw [htb]; decide
  unfold satSub
  simp only
  rw [saturating_of_regular hta htb hf]
  simp only [getLower_eq hna, getLower_eq hnb, getUpper_eq hna, getUpper_eq hnb, ok_bind]
  by_cases hbc : b.isConstant = true
  · have hyl := (mem_gamma_of_constant hbc hlb).mp hy
    have hbl := hlb.l_mem
    have hll := hla.l_mem
    have hlu := hla.u_mem
    rw [hbw] at hbl
    rw [if_pos hbc, hyl]
    by_cases hz : b.l = 0
    · rw [if_pos hz, hz, SignMag.val_zero, sub_zero, clamp_of_mem hx.1]
      exact holds_ok.mpr ⟨rfl, hx⟩
    rw [if_neg hz]
    refine holds_atInfinity (δ := -b.l.val) (by rw [lt_zero_iff]; omega) (by omega) hta hla hfa hx
      (fun _ => ?_) ?_ (fun _ => sub_val (by omega) (by omega))
      (Or.inl (sub_val (by omega) (by omega))) (fun _ => ?_)
    · rw [sub_val] <;> rw [hmin] <;> omega
    · rw [sub_val] <;> rw [hmax] <;> omega
    · have h := holds_satSub_general hbw hta htb hla hlb hx hy
      rwa [hyl] at h
  · rw [if_neg hbc]
    exact holds_satSub_general hbw hta htb hla hlb hx hy

end Signed

/-! ## Unsigned saturation -/

/-- The encoding of the saturated sum of the unsigned readings. -/
def usatSum (w : Nat) (x y : Int) : Int :=
  signedResidue w (min (x % 2 ^ w + y % 2 ^ w) (2 ^ w - 1))

/-- The encoding of the saturated difference of the unsigned readings. -/
def usatDiff (w : Nat) (x y : Int) : Int := signedResidue w (max (x % 2 ^ w - y % 2 ^ w) 0)

/-- Every saturated sum of unsigned readings is kept. -/
def UsatAddSound (a b : Range) : Prop :=
  ∀ x ∈ a.gamma, ∀ y ∈ b.gamma, Holds (a.usatAdd b) a.bw (usatSum a.bw x y)

/-- Every saturated difference of unsigned readings is kept. -/
def UsatSubSound (a b : Range) : Prop :=
  ∀ x ∈ a.gamma, ∀ y ∈ b.gamma, Holds (a.usatSub b) a.bw (usatDiff a.bw x y)

/-- Regular bounds whose sums miss minus one, the encoding of a saturated sum. -/
def UsatSumLoss (w : Nat) (l u c e : Int) : Prop :=
  (0 ≤ l + c ∧ (l < 0 ∨ c < 0)) ∨
    (l < 0 ∧ c < 0 ∧ u + e ≤ -2 ∧ (-half w ≤ u + e ∨ (l = u ∧ c = e)))

/-- Anti bounds whose sums with a constant exclude what they should keep: the
    branch below the limits, or minus one. -/
def UsatAntiLoss (w : Nat) (l u c : Int) : Prop :=
  (u + c < -half w ∧ l < u) ∨ (l + c ≤ -1 ∧ -1 ≤ u + c ∧ (c < 0 ∨ (0 < c ∧ u ≤ -2)))

/-- The operands for which `usat_add` loses a value; a constant and a Regular
    range that is none are widened by the span test. -/
def UsatAddLoss (a b : Range) : Prop :=
  ¬ a.IsFull ∧ ¬ b.IsFull ∧
    ((a.type = .anti ∧ b.isConstant = true ∧ a.gamma.Nonempty ∧
        UsatAntiLoss a.bw a.l.val a.u.val b.l.val) ∨
      (a.type = .regular ∧ b.type = .regular ∧ (b.isConstant = true ∨ ¬ a.isConstant = true) ∧
        UsatSumLoss a.bw a.l.val a.u.val b.l.val b.u.val))

section UsatAdd

variable {a b : Range} {x y v l u c e : Int} {w : Nat} {lb ub : APInt}

/-- The saturated sum by the signs of the operands. -/
theorem usatSum_cases (h0 : 0 < w) (hx : x ∈ signedRange w) (hy : y ∈ signedRange w) :
    (0 ≤ x ∧ 0 ≤ y ∧
      ((x + y < half w ∧ usatSum w x y = x + y) ∨
        (half w ≤ x + y ∧ usatSum w x y = x + y - 2 * half w))) ∨
    ((x < 0 ∨ y < 0) ∧ (0 ≤ x ∨ 0 ≤ y) ∧ x + y < 0 ∧ usatSum w x y = x + y) ∨
    ((x < 0 ∨ y < 0) ∧ ((x < 0 ∧ y < 0) ∨ 0 ≤ x + y) ∧ usatSum w x y = -1) := by
  obtain ⟨hx1, hx2⟩ := hx
  obtain ⟨hy1, hy2⟩ := hy
  have hP := half_pos w
  have h2 := two_mul_half h0
  have hones : signedResidue w (2 * half w - 1) = -1 := by
    rw [signedResidue_past_upper h0 (by omega) (by omega)]
    omega
  unfold usatSum
  rcases Int.lt_or_le x 0 with hx0 | hx0 <;> rcases Int.lt_or_le y 0 with hy0 | hy0
  · rw [emod_of_neg h0 hx0 (by omega), emod_of_neg h0 hy0 (by omega), ← h2,
      min_eq_right (by omega), hones]
    omega
  · rw [emod_of_neg h0 hx0 (by omega), emod_of_nonneg h0 hy0 (by omega), ← h2]
    rcases Int.lt_or_le (x + y) 0 with hs | hs
    · rw [min_eq_left (by omega), signedResidue_past_upper h0 (by omega) (by omega)]
      omega
    · rw [min_eq_right (by omega), hones]
      omega
  · rw [emod_of_nonneg h0 hx0 (by omega), emod_of_neg h0 hy0 (by omega), ← h2]
    rcases Int.lt_or_le (x + y) 0 with hs | hs
    · rw [min_eq_left (by omega), signedResidue_past_upper h0 (by omega) (by omega)]
      omega
    · rw [min_eq_right (by omega), hones]
      omega
  · rw [emod_of_nonneg h0 hx0 (by omega), emod_of_nonneg h0 hy0 (by omega), ← h2,
      min_eq_left (by omega)]
    rcases Int.lt_or_le (x + y) (half w) with hs | hs
    · rw [signedResidue_of_mem h0 (by omega) hs]
      omega
    · rw [signedResidue_past_upper h0 hs (by omega)]
      omega

/-- The sums of the stored bounds enclose the saturated sums unless they miss
    the saturated one; the least operands show it. -/
theorem usatSum_onArc_iff (h0 : 0 < w) (hl : -half w ≤ l) (hlu : l ≤ u) (hu : u < half w)
    (hc : -half w ≤ c) (hce : c ≤ e) (he : e < half w)
    (hmeet : -half w ≤ u + e ∨ l + c = u + e) :
    (∀ x y, l ≤ x → x ≤ u → c ≤ y → y ≤ e → OnArc w (l + c) (u + e) (usatSum w x y)) ↔
      ¬ UsatSumLoss w l u c e := by
  constructor
  · intro h hloss
    have harc := h l c (le_refl _) hlu (le_refl _) hce
    have hv := usatSum_cases h0 (show l ∈ signedRange w from ⟨hl, by omega⟩)
      (show c ∈ signedRange w from ⟨hc, by omega⟩)
    unfold OnArc at harc
    unfold UsatSumLoss at hloss
    omega
  · intro hloss x y hx hx' hy hy'
    have hv := usatSum_cases h0 (show x ∈ signedRange w from ⟨by omega, by omega⟩)
      (show y ∈ signedRange w from ⟨by omega, by omega⟩)
    unfold UsatSumLoss at hloss
    unfold OnArc
    omega

/-- Adding a constant to an Anti range: what the moved gap excludes. -/
theorem usatSum_not_onArc_iff (h0 : 0 < w) (hl : -half w ≤ l) (hlu : l ≤ u) (hu : u < half w)
    (hc : -half w ≤ c) (hc' : c < half w)
    (hne : ∃ x ∈ signedRange w, x < l ∨ u < x) :
    (∀ x ∈ signedRange w, x < l ∨ u < x → ¬ OnArc w (l + c) (u + c) (usatSum w x c) ∧
        ¬ (u + c < -half w ∧ l + c < u + c)) ↔ ¬ UsatAntiLoss w l u c := by
  have hP := half_pos w
  constructor
  · rintro h (⟨h1, h2⟩ | ⟨h1, h2, h3⟩)
    · obtain ⟨x, hx, hout⟩ := hne
      exact (h x hx hout).2 ⟨h1, by omega⟩
    · -- a saturated sum is minus one, which the moved gap excludes
      have hex : ∃ x ∈ signedRange w, (x < l ∨ u < x) ∧ usatSum w x c = -1 := by
        rcases h3 with hneg | ⟨hpos, hu2⟩
        · obtain ⟨x, ⟨hx1, hx2⟩, hout⟩ := hne
          rcases hout with hout | hout
          · refine ⟨-half w, ⟨by omega, by omega⟩, Or.inl (by omega), ?_⟩
            have hv := usatSum_cases h0 (show -half w ∈ signedRange w from ⟨by omega, by omega⟩)
              (show c ∈ signedRange w from ⟨hc, hc'⟩)
            omega
          · refine ⟨x, ⟨hx1, hx2⟩, Or.inr hout, ?_⟩
            have hv := usatSum_cases h0 (show x ∈ signedRange w from ⟨hx1, hx2⟩)
              (show c ∈ signedRange w from ⟨hc, hc'⟩)
            omega
        · refine ⟨-1, ⟨by omega, by omega⟩, Or.inr (by omega), ?_⟩
          have hv := usatSum_cases h0 (show (-1 : Int) ∈ signedRange w from ⟨by omega, by omega⟩)
            (show c ∈ signedRange w from ⟨hc, hc'⟩)
          omega
      obtain ⟨x, hx, hout, hv⟩ := hex
      have hmiss := (h x hx hout).1
      rw [hv] at hmiss
      unfold OnArc at hmiss
      omega
  · intro hloss x hx hout
    have hv := usatSum_cases h0 hx (show c ∈ signedRange w from ⟨hc, hc'⟩)
    obtain ⟨hx1, hx2⟩ := hx
    unfold UsatAntiLoss at hloss
    unfold OnArc
    omega

theorem usatAdd_anti_iff (hw : a.bw + 1 < maxDigits) (hbw : b.bw = a.bw) (ha : a.type = .anti)
    (hla : a.InLimits) (hb : b.isConstant = true) (hlb : b.InLimits)
    (hf : ¬ (a.IsFull ∨ b.IsFull)) (hne : a.gamma.Nonempty) :
    UsatAddSound a b ↔ ¬ UsatAntiLoss a.bw a.l.val a.u.val b.l.val := by
  have h0 := a.bw_valid.1
  have hP := half_pos a.bw
  have hcap := four_mul_half_le h0 hw
  have hbl := hlb.l_mem
  rw [hbw] at hbl
  obtain ⟨ha1, ha2, ha3⟩ := hla
  have hl : (a.l + b.l).val = a.l.val + b.l.val := add_val (by omega) (by omega)
  have hu : (a.u + b.l).val = a.u.val + b.l.val := add_val (by omega) (by omega)
  have hgap : ∃ x ∈ signedRange a.bw, x < a.l.val ∨ a.u.val < x := by
    obtain ⟨x, hx⟩ := hne
    exact ⟨x, (mem_gamma_of_anti ha).mp hx⟩
  rw [← usatSum_not_onArc_iff h0 ha1 ha2 ha3 hbl.1 hbl.2 hgap]
  have hlen : a.u.val - a.l.val < 2 * half a.bw - 1 := by
    obtain ⟨x, ⟨hx1, hx2⟩, hout⟩ := hgap
    omega
  have hop : a.usatAdd b = ofBounds .anti a.bw (a.l + b.l) (a.u + b.l) := by
    unfold usatAdd
    simp only
    rw [saturating_of_anti_constant ha hb hf, if_neg]
    rw [ge_iff_le, SignMag.le_iff, getMaxValue_val h0 (by omega)]
    omega
  have hiff : ∀ v, Holds (ofBounds .anti a.bw (a.l + b.l) (a.u + b.l)) a.bw v ↔ _ := fun v =>
    holds_anti_iff h0 hw (by omega) (by omega) (by omega) (by omega)
  unfold UsatAddSound
  rw [hop, forall_mem_constant hb hlb]
  simp only [hiff, hl, hu]
  constructor
  · exact fun h x hx hout => (h x ((mem_gamma_of_anti ha).mpr ⟨hx, hout⟩)).2
  · intro h x hx
    obtain ⟨hxr, hout⟩ := (mem_gamma_of_anti ha).mp hx
    exact ⟨signedResidue_mem h0 _, h x hxr hout⟩

/-- The span test triggers on an arc when it is no longer than an operand. -/
theorem holds_guarded_arc {p q : Int} {z : Except Error Range} {rel : Int → Int → Prop}
    {short : APInt → APInt → Bool} (hz : ReturnsArc z a.bw p q)
    (hrel : ∀ s t, short s t = true ↔ rel s.val t.val) (ha : a.type = .regular)
    (hla : a.InLimits) (hb : b.type = .regular) (hlb : b.InLimits)
    (hf : ¬ (a.IsFull ∨ b.IsFull)) (hv : v ∈ signedRange a.bw) :
    Holds (z >>= guardSpan a b short) a.bw v ↔
      (rel (min (q - p + 1) (2 * half a.bw)) (1 + a.u.val - a.l.val) ∨
        rel (min (q - p + 1) (2 * half a.bw)) (1 + b.u.val - b.l.val)) ∨ OnArc a.bw p q v := by
  obtain ⟨r, k, rfl, hbw, hmem, hk, hkv⟩ := hz
  rw [ok_bind, holds_guardSpan_iff rfl hrel ha hla hb hlb hf hk hv, hkv, holds_ok, hmem]
  exact or_congr_right ⟨fun h => h.2.2, fun h => ⟨hbw, hv, h⟩⟩

theorem isConstant_iff_val (ht : a.type = .regular) : a.isConstant = true ↔ a.l.val = a.u.val := by
  rw [isConstant_iff, SignMag.eq_iff]
  exact and_iff_right ht

/-- Below the capacity bounds within the limits are no infinite ones. -/
theorem atInfinity_of_finite {p q rest : Except Error Range} (hw : a.bw < maxDigits)
    (ha : a.type = .regular) (hla : a.InLimits) (hf : ¬ a.IsFull) :
    atInfinity a p q rest = rest := by
  have hP := half_pos a.bw
  have hcap := two_mul_half_le a.bw_valid.1 hw
  obtain ⟨h1, h2, h3⟩ := hla
  rw [atInfinity_of_regular ha hf, if_neg (by rw [eq_min_iff]; omega),
    if_neg (by rw [eq_max_iff]; omega)]

theorem usatAdd_regular_iff (hw : a.bw + 1 < maxDigits) (hbw : b.bw = a.bw)
    (ha : a.type = .regular) (hb : b.type = .regular) (hla : a.InLimits) (hlb : b.InLimits)
    (hf : ¬ (a.IsFull ∨ b.IsFull)) :
    UsatAddSound a b ↔ ¬ ((b.isConstant = true ∨ ¬ a.isConstant = true) ∧
      UsatSumLoss a.bw a.l.val a.u.val b.l.val b.u.val) := by
  have h0 := a.bw_valid.1
  have hP := half_pos a.bw
  have hcap := four_mul_half_le h0 hw
  have hmaxV := getMaxValue_val h0 (show a.bw < maxDigits by omega)
  obtain ⟨hfa, hfb⟩ := not_or.mp hf
  have hna : a.type ≠ .anti := by rw [ha]; decide
  have hnb : b.type ≠ .anti := by rw [hb]; decide
  have hnfa : a.u.val - a.l.val < 2 * half a.bw - 1 := by
    by_contra h
    obtain ⟨h1, h2, h3⟩ := hla
    exact hfa ⟨ha, by omega, by omega⟩
  have hnfb : b.u.val - b.l.val < 2 * half a.bw - 1 := by
    by_contra h
    obtain ⟨h1, h2, h3⟩ := hlb
    rw [hbw] at h1 h3
    exact hfb ⟨hb, by rw [hbw]; omega, by rw [hbw]; omega⟩
  have ⟨ha1, ha2, ha3⟩ := hla
  have ⟨hb1, hb2, hb3⟩ := hlb
  rw [hbw] at hb1 hb3
  have hlv : (a.l + b.l).val = a.l.val + b.l.val := add_val (by omega) (by omega)
  have huv : (a.u + b.u).val = a.u.val + b.u.val := add_val (by omega) (by omega)
  have hbounds : a.usatAdd b = if b.isConstant = true then
      ofBounds .regular a.bw (a.l + b.l) (a.u + b.u)
    else ofBounds .regular a.bw (a.l + b.l) (a.u + b.u) >>=
      guardSpan a b (fun s t => decide (s ≤ t)) := by
    unfold usatAdd
    simp only
    rw [saturating_of_regular ha hb hf, atInfinity_of_finite (by omega) ha hla hfa]
    simp only [getLower_eq hna, getLower_eq hnb, getUpper_eq hna, getUpper_eq hnb, ok_bind]
    -- no sum reaches the greatest unsigned value
    have hminl : min (getMaxValue a.bw) (a.l + b.l) = a.l + b.l := by
      rw [SignMag.eq_iff, SignMag.val_min, hmaxV, hlv]
      omega
    have hminu : min (getMaxValue a.bw) (a.u + b.u) = a.u + b.u := by
      rw [SignMag.eq_iff, SignMag.val_min, hmaxV, huv]
      omega
    rw [hminl, hminu]
    split_ifs with hc
    · rw [(isConstant_iff.mp hc).2, hminu]
    · rfl
  unfold UsatAddSound
  rw [forall_mem_iff ha hla hb hlb, hbounds]
  simp only [isConstant_iff_val ha, isConstant_iff_val hb]
  by_cases hbelow : a.u.val + b.u.val < -half a.bw ∧ a.l.val + b.l.val < a.u.val + b.u.val
  · -- both bounds below the limits: the constructor keeps everything
    have hall : ∀ v ∈ signedRange a.bw,
        Holds (ofBounds .regular a.bw (a.l + b.l) (a.u + b.u)) a.bw v := fun v hv =>
      holds_regular_below h0 hw (by omega) (by omega) (by omega) hv
    refine iff_of_true (fun x y _ _ _ _ => ?_) (fun h => ?_)
    · split_ifs with hc
      · exact hall _ (signedResidue_mem h0 _)
      · exact holds_guardSpan rfl (signedResidue_mem h0 _) (hall _ (signedResidue_mem h0 _))
    · have hloss := h.2
      unfold UsatSumLoss at hloss
      omega
  have harc : ReturnsArc (ofBounds .regular a.bw (a.l + b.l) (a.u + b.u)) a.bw
      (a.l + b.l).val (a.u + b.u).val :=
    returnsArc_regular h0 hw (by omega) (by omega) (by omega) (by omega)
  rw [hlv, huv] at harc
  have hcore := usatSum_onArc_iff h0 ha1 ha2 ha3 hb1 hb2 hb3 (show
    -half a.bw ≤ a.u.val + b.u.val ∨ a.l.val + b.l.val = a.u.val + b.u.val by omega)
  by_cases hc : b.l.val = b.u.val
  · rw [if_pos hc, and_iff_right (Or.inl hc), ← hcore]
    obtain ⟨r, k, hr, hrbw, hmem, -⟩ := harc
    simp only [hr, holds_ok, hrbw, hmem, true_and]
    exact ⟨fun h x y hx hx' hy hy' => (h x y hx hx' hy hy').2,
      fun h x y hx hx' hy hy' => ⟨signedResidue_mem h0 _, h x y hx hx' hy hy'⟩⟩
  · rw [if_neg hc, or_iff_right hc]
    have hguard : ∀ x y, Holds (ofBounds .regular a.bw (a.l + b.l) (a.u + b.u) >>=
        guardSpan a b (fun s t => decide (s ≤ t))) a.bw (usatSum a.bw x y) ↔
        a.l.val = a.u.val ∨ OnArc a.bw (a.l.val + b.l.val) (a.u.val + b.u.val)
          (usatSum a.bw x y) := by
      intro x y
      have hmem : usatSum a.bw x y ∈ signedRange a.bw := signedResidue_mem h0 _
      refine (holds_guarded_arc harc decide_le_iff ha hla hb hlb hf hmem).trans (or_congr_left ?_)
      omega
    simp only [hguard]
    by_cases hca : a.l.val = a.u.val
    · exact iff_of_true (fun _ _ _ _ _ _ => Or.inl hca) (fun h => h.1 hca)
    · rw [and_iff_right hca, ← hcore]
      exact ⟨fun h x y hx hx' hy hy' => (h x y hx hx' hy hy').resolve_left hca,
        fun h x y hx hx' hy hy' => Or.inr (h x y hx hx' hy hy')⟩

/-- Below 4095 bits, `UsatAddLoss` is all that `usat_add` loses. -/
theorem usatAdd_sound_iff (hw : a.bw + 1 < maxDigits) (hbw : b.bw = a.bw)
    (hua : a.type ≠ .unknown) (hub : b.type ≠ .unknown) (hwa : a.WellFormed) (hwb : b.WellFormed) :
    UsatAddSound a b ↔ ¬ UsatAddLoss a b := by
  refine sound_iff_of_losses hua hub (fun hpa hpb h _ _ _ _ => ?_) hwa hwb
    (fun hf hta hbc hlb => usatAdd_anti_iff hw hbw hta (hwa.2 hta) hbc hlb hf)
    (fun hf hta htb hla hlb => usatAdd_regular_iff hw hbw hta htb hla hlb hf)
  unfold usatAdd
  exact holds_of_widens hpa hpb h (signedResidue_mem a.bw_valid.1 _)

end UsatAdd

/-- Bounds whose differences miss one of operands of different signs: the
    greatest, or zero. -/
def UsatDiffLoss (w : Nat) (l u c e : Int) : Prop :=
  (l < 0 ∧ 0 ≤ e ∧ max 0 (u - c) < 2 * half w + min u (-1) - max c 0) ∨ (0 ≤ u ∧ c < 0 ∧ e < l)

/-- The operands for which `usat_sub` loses a value: a negative constant taken
    from an Anti range, or Regular ranges the span test does not widen. -/
def UsatSubLoss (a b : Range) : Prop :=
  ¬ a.IsFull ∧ ¬ b.IsFull ∧
    ((a.type = .anti ∧ b.isConstant = true ∧ a.gamma.Nonempty ∧ b.l.val < 0) ∨
      (a.type = .regular ∧ b.type = .regular ∧ ¬ (b.l.val = 0 ∧ b.u.val = 0) ∧
        a.u.val - a.l.val ≤ max 0 (a.u.val - b.l.val) - max 0 (a.l.val - b.u.val) ∧
        b.u.val - b.l.val ≤ max 0 (a.u.val - b.l.val) - max 0 (a.l.val - b.u.val) ∧
        UsatDiffLoss a.bw a.l.val a.u.val b.l.val b.u.val))

section UsatSub

variable {a b : Range} {x y v l u c e : Int} {w : Nat} {lb ub : APInt}

/-- The saturated difference by the signs of the operands. -/
theorem usatDiff_cases (h0 : 0 < w) (hx : x ∈ signedRange w) (hy : y ∈ signedRange w) :
    ∃ D, usatDiff w x y = signedResidue w D ∧ 0 ≤ D ∧ D < 2 * half w ∧
      (((0 ≤ x ↔ 0 ≤ y) ∧ D = max (x - y) 0) ∨ (x < 0 ∧ 0 ≤ y ∧ D = x - y + 2 * half w) ∨
        (0 ≤ x ∧ y < 0 ∧ D = 0)) := by
  obtain ⟨hx1, hx2⟩ := hx
  obtain ⟨hy1, hy2⟩ := hy
  have hP := half_pos w
  refine ⟨_, rfl, ?_⟩
  rcases Int.lt_or_le x 0 with hx0 | hx0 <;> rcases Int.lt_or_le y 0 with hy0 | hy0
  · rw [emod_of_neg h0 hx0 (by omega), emod_of_neg h0 hy0 (by omega)]
    omega
  · rw [emod_of_neg h0 hx0 (by omega), emod_of_nonneg h0 hy0 (by omega)]
    omega
  · rw [emod_of_nonneg h0 hx0 (by omega), emod_of_neg h0 hy0 (by omega)]
    omega
  · rw [emod_of_nonneg h0 hx0 (by omega), emod_of_nonneg h0 hy0 (by omega)]
    omega

/-- An arc of unsigned readings holds the encodings of what is between its ends. -/
theorem onArc_residue_iff (h0 : 0 < w) (hl : 0 ≤ l) (hu : u < 2 * half w) (hv : 0 ≤ v)
    (hv' : v < 2 * half w) : OnArc w l u (signedResidue w v) ↔ l ≤ v ∧ v ≤ u := by
  unfold OnArc
  rcases Int.lt_or_le v (half w) with h | h
  · rw [signedResidue_of_mem h0 (by omega) h]
    omega
  · rw [signedResidue_past_upper h0 h (by omega)]
    omega

/-- The differences of the stored bounds enclose the saturated differences of
    operands of one sign; two pairs of different signs show what is missed. -/
theorem usatDiff_onArc_iff (h0 : 0 < w) (hl : -half w ≤ l) (hlu : l ≤ u) (hu : u < half w)
    (hc : -half w ≤ c) (hce : c ≤ e) (he : e < half w) :
    (∀ x y, l ≤ x → x ≤ u → c ≤ y → y ≤ e →
        OnArc w (max 0 (l - e)) (max 0 (u - c)) (usatDiff w x y)) ↔ ¬ UsatDiffLoss w l u c e := by
  have hP := half_pos w
  constructor
  · rintro h (⟨h1, h2, h3⟩ | ⟨h1, h2, h3⟩)
    · have harc := h (min u (-1)) (max c 0) (by omega) (by omega) (by omega) (by omega)
      obtain ⟨D, hD, hD0, hD1, hcase⟩ := usatDiff_cases h0
        (show min u (-1) ∈ signedRange w from ⟨by omega, by omega⟩)
        (show max c 0 ∈ signedRange w from ⟨by omega, by omega⟩)
      rw [hD, onArc_residue_iff h0 (by omega) (by omega) hD0 hD1] at harc
      omega
    · have harc := h u c hlu (le_refl _) (le_refl _) hce
      obtain ⟨D, hD, hD0, hD1, hcase⟩ := usatDiff_cases h0
        (show u ∈ signedRange w from ⟨by omega, hu⟩) (show c ∈ signedRange w from ⟨hc, by omega⟩)
      rw [hD, onArc_residue_iff h0 (by omega) (by omega) hD0 hD1] at harc
      omega
  · intro hloss x y hx hx' hy hy'
    obtain ⟨D, hD, hD0, hD1, hcase⟩ := usatDiff_cases h0
      (show x ∈ signedRange w from ⟨by omega, by omega⟩)
      (show y ∈ signedRange w from ⟨by omega, by omega⟩)
    rw [hD, onArc_residue_iff h0 (by omega) (by omega) hD0 hD1]
    unfold UsatDiffLoss at hloss
    omega

theorem usatDiff_zero (h0 : 0 < w) (hx : x ∈ signedRange w) : usatDiff w x 0 = x := by
  have hnn := Int.emod_nonneg x (b := 2 ^ w) (by positivity)
  unfold usatDiff
  rw [Int.zero_emod, sub_zero, max_eq_left hnn, signedResidue_emod,
    signedResidue_of_mem h0 hx.1 hx.2]

theorem usatSub_anti_iff (hw : a.bw + 1 < maxDigits) (hbw : b.bw = a.bw) (ha : a.type = .anti)
    (hb : b.isConstant = true) (hlb : b.InLimits) (hf : ¬ (a.IsFull ∨ b.IsFull))
    (hne : a.gamma.Nonempty) : UsatSubSound a b ↔ ¬ b.l.val < 0 := by
  have h0 := a.bw_valid.1
  have hP := half_pos a.bw
  have hcap := four_mul_half_le h0 hw
  have hmaxV := getMaxValue_val h0 (show a.bw < maxDigits by omega)
  have hbl := hlb.l_mem
  rw [hbw] at hbl
  have hop : a.usatSub b = if b.l = 0 then .ok a
      else if b.l < 0 then ofBounds .regular a.bw (0 - b.l) (getMaxValue a.bw)
      else ofBounds .regular a.bw 0 (getMaxValue a.bw - b.l) := by
    unfold usatSub
    exact saturating_of_anti_constant ha hb hf
  have hz : (0 : APInt).val = 0 := SignMag.val_zero
  have hneg : (0 - b.l).val = -b.l.val := by rw [sub_val] <;> rw [hz] <;> omega
  have hsub : (getMaxValue a.bw - b.l).val = 2 * half a.bw - 1 - b.l.val := by
    rw [sub_val] <;> rw [hmaxV] <;> omega
  constructor
  · intro h hlt
    obtain ⟨x, hx⟩ := hne
    have hv := h x hx _ ((mem_gamma_of_constant hb hlb).mpr rfl)
    have harc : ReturnsArc (ofBounds .regular a.bw (0 - b.l) (getMaxValue a.bw)) a.bw _ _ :=
      returnsArc_regular h0 hw (by omega) (by omega) (by omega) (by omega)
    obtain ⟨r, k, hr, hrbw, hmem, -⟩ := harc
    obtain ⟨D, hD, hD0, hD1, hcase⟩ := usatDiff_cases h0 hx.1
      (show b.l.val ∈ signedRange a.bw from hbl)
    obtain ⟨hx1, hx2⟩ := hx.1
    rw [hop, if_neg (by rw [SignMag.eq_iff, hz]; omega),
      if_pos (by rw [lt_zero_iff]; exact hlt), hr,
      holds_ok, hmem, hD, onArc_residue_iff h0 (by omega) (by omega) hD0 hD1] at hv
    omega
  · intro hpos x hx y hy
    rw [hop, (mem_gamma_of_constant hb hlb).mp hy]
    obtain ⟨hx1, hx2⟩ := hx.1
    by_cases hzero : b.l = 0
    · rw [if_pos hzero, hzero, hz, usatDiff_zero h0 hx.1, holds_ok]
      exact ⟨rfl, hx⟩
    have harc : ReturnsArc (ofBounds .regular a.bw 0 (getMaxValue a.bw - b.l)) a.bw _ _ :=
      returnsArc_regular h0 hw (by omega) (by omega) (by omega) (by omega)
    obtain ⟨r, k, hr, hrbw, hmem, -⟩ := harc
    obtain ⟨D, hD, hD0, hD1, hcase⟩ := usatDiff_cases h0 hx.1
      (show b.l.val ∈ signedRange a.bw from hbl)
    have hmem' := signedResidue_mem h0 D
    rw [if_neg hzero, if_neg (by rw [lt_zero_iff]; exact hpos), hr, holds_ok, hmem, hD,
      onArc_residue_iff h0 (by omega) (by omega) hD0 hD1]
    exact ⟨hrbw, hmem', by omega, by omega⟩

theorem usatSub_regular_iff (hw : a.bw + 1 < maxDigits) (hbw : b.bw = a.bw)
    (ha : a.type = .regular) (hb : b.type = .regular) (hla : a.InLimits) (hlb : b.InLimits)
    (hf : ¬ (a.IsFull ∨ b.IsFull)) :
    UsatSubSound a b ↔ ¬ (¬ (b.l.val = 0 ∧ b.u.val = 0) ∧
      a.u.val - a.l.val ≤ max 0 (a.u.val - b.l.val) - max 0 (a.l.val - b.u.val) ∧
      b.u.val - b.l.val ≤ max 0 (a.u.val - b.l.val) - max 0 (a.l.val - b.u.val) ∧
      UsatDiffLoss a.bw a.l.val a.u.val b.l.val b.u.val) := by
  have h0 := a.bw_valid.1
  have hP := half_pos a.bw
  have hcap := four_mul_half_le h0 hw
  have hmaxV := getMaxValue_val h0 (show a.bw < maxDigits by omega)
  obtain ⟨hfa, hfb⟩ := not_or.mp hf
  have hna : a.type ≠ .anti := by rw [ha]; decide
  have hnb : b.type ≠ .anti := by rw [hb]; decide
  have ⟨ha1, ha2, ha3⟩ := hla
  have ⟨hb1, hb2, hb3⟩ := hlb
  rw [hbw] at hb1 hb3
  have hz : (0 : APInt).val = 0 := SignMag.val_zero
  have hlv : (a.l - b.u).val = a.l.val - b.u.val := sub_val (by omega) (by omega)
  have huv : (a.u - b.l).val = a.u.val - b.l.val := sub_val (by omega) (by omega)
  have hpv : (max 0 (min (getMaxValue a.bw) (a.l - b.u))).val = max 0 (a.l.val - b.u.val) := by
    rw [SignMag.val_max, SignMag.val_min, hmaxV, hlv, hz]
    omega
  have hqv : (max 0 (min (getMaxValue a.bw) (a.u - b.l))).val = max 0 (a.u.val - b.l.val) := by
    rw [SignMag.val_max, SignMag.val_min, hmaxV, huv, hz]
    omega
  have hop : a.usatSub b = if b.l.val = 0 ∧ b.u.val = 0 then .ok a
      else ofBounds .regular a.bw (max 0 (min (getMaxValue a.bw) (a.l - b.u)))
        (max 0 (min (getMaxValue a.bw) (a.u - b.l))) >>=
        guardSpan a b (fun s t => decide (s < t)) := by
    unfold usatSub
    simp only
    rw [saturating_of_regular ha hb hf, atInfinity_of_finite (by omega) ha hla hfa]
    simp only [getLower_eq hna, getLower_eq hnb, getUpper_eq hna, getUpper_eq hnb, ok_bind]
    simp only [isConstant_iff_val hb, SignMag.eq_iff, hz]
    by_cases hzero : b.l.val = 0 ∧ b.u.val = 0
    · rw [if_pos hzero, if_pos (by omega), if_pos hzero.1]
    · rw [if_neg hzero]
      split_ifs with h1 h2
      · exact absurd ⟨h2, by omega⟩ hzero
      · rfl
      · rfl
  unfold UsatSubSound
  rw [forall_mem_iff ha hla hb hlb, hop]
  by_cases hzero : b.l.val = 0 ∧ b.u.val = 0
  · refine iff_of_true (fun x y hx hx' hy hy' => ?_) (fun h => h.1 hzero)
    rw [if_pos hzero, show y = 0 by omega, usatDiff_zero h0 ⟨by omega, by omega⟩, holds_ok]
    exact ⟨rfl, (mem_gamma_of_regular ha).mpr ⟨⟨by omega, by omega⟩, hx, hx'⟩⟩
  rw [if_neg hzero, and_iff_right hzero]
  have harc : ReturnsArc (ofBounds .regular a.bw (max 0 (min (getMaxValue a.bw) (a.l - b.u)))
      (max 0 (min (getMaxValue a.bw) (a.u - b.l)))) a.bw _ _ :=
    returnsArc_regular h0 hw (by omega) (by omega) (by omega) (by omega)
  rw [hpv, hqv] at harc
  have hcore := usatDiff_onArc_iff h0 ha1 ha2 ha3 hb1 hb2 hb3
  have hguard : ∀ x y, Holds (ofBounds .regular a.bw
      (max 0 (min (getMaxValue a.bw) (a.l - b.u))) (max 0 (min (getMaxValue a.bw) (a.u - b.l))) >>=
      guardSpan a b (fun s t => decide (s < t))) a.bw (usatDiff a.bw x y) ↔
      ¬ (a.u.val - a.l.val ≤ max 0 (a.u.val - b.l.val) - max 0 (a.l.val - b.u.val) ∧
        b.u.val - b.l.val ≤ max 0 (a.u.val - b.l.val) - max 0 (a.l.val - b.u.val)) ∨
      OnArc a.bw (max 0 (a.l.val - b.u.val)) (max 0 (a.u.val - b.l.val)) (usatDiff a.bw x y) := by
    intro x y
    have hmem : usatDiff a.bw x y ∈ signedRange a.bw := signedResidue_mem h0 _
    refine (holds_guarded_arc harc decide_lt_iff ha hla hb hlb hf hmem).trans (or_congr_left ?_)
    omega
  simp only [hguard]
  by_cases hwide : a.u.val - a.l.val ≤ max 0 (a.u.val - b.l.val) - max 0 (a.l.val - b.u.val) ∧
      b.u.val - b.l.val ≤ max 0 (a.u.val - b.l.val) - max 0 (a.l.val - b.u.val)
  · constructor
    · exact fun h hloss => hcore.mp (fun x y hx hx' hy hy' =>
        (h x y hx hx' hy hy').resolve_left (fun hn => hn hwide)) hloss.2.2
    · exact fun h x y hx hx' hy hy' =>
        Or.inr (hcore.mpr (fun hloss => h ⟨hwide.1, hwide.2, hloss⟩) x y hx hx' hy hy')
  · exact iff_of_true (fun _ _ _ _ _ _ => Or.inl hwide) (fun h => hwide ⟨h.1, h.2.1⟩)

theorem usatSub_sound_iff (hw : a.bw + 1 < maxDigits) (hbw : b.bw = a.bw)
    (hua : a.type ≠ .unknown) (hub : b.type ≠ .unknown) (hwa : a.WellFormed) (hwb : b.WellFormed) :
    UsatSubSound a b ↔ ¬ UsatSubLoss a b := by
  refine sound_iff_of_losses hua hub (fun hpa hpb h _ _ _ _ => ?_) hwa hwb
    (fun hf hta hbc hlb => usatSub_anti_iff hw hbw hta hbc hlb hf)
    (fun hf hta htb hla hlb => usatSub_regular_iff hw hbw hta htb hla hlb hf)
  unfold usatSub
  exact holds_of_widens hpa hpb h (signedResidue_mem a.bw_valid.1 _)

end UsatSub

/-! ## All four operations -/

section All

variable {a b : Range}

/-- The least value one bit below the capacity, alone. -/
def leastValue : {r : Range // r.WellFormed ∧ r.l.val = -half 4095 ∧ r.u.val = -half 4095 ∧
    Holds (r.usatAdd r) 4095 (usatSum 4095 (-half 4095) (-half 4095)) ∧ UsatAddLoss r r} :=
  ⟨⟨getSignedMinValue 4095, getSignedMinValue 4095, 4095, .regular, by decide⟩,
    by decide +kernel, by decide +kernel, by decide +kernel, by decide +kernel,
    by decide +kernel, by decide +kernel, Or.inr ⟨Eq.refl _, Eq.refl _,
      Or.inl (by decide +kernel), Or.inr ⟨by decide +kernel, by decide +kernel, by decide +kernel,
        Or.inr ⟨Eq.refl _, Eq.refl _⟩⟩⟩⟩

/-- Three and one at the capacity, whose saturated difference is lost. -/
def lostDifference : {p : Range × Range // p.1.WellFormed ∧ p.2.WellFormed ∧
    (3 : Int) ∈ p.1.gamma ∧ (1 : Int) ∈ p.2.gamma ∧
    ¬ Holds (p.1.usatSub p.2) maxDigits (usatDiff maxDigits 3 1) ∧ ¬ p.1.l.val < 0 ∧
    ¬ p.2.l.val < 0} :=
  ⟨(⟨3, 3, maxDigits, .regular, bwValid_maxDigits⟩, ⟨1, 1, maxDigits, .regular, bwValid_maxDigits⟩),
    by decide +kernel⟩

/-- At 4095 bits the least value added to itself is kept although it makes the
    bound `Min`; at 4096 the greatest unsigned value is minus one, and the
    difference of two constants is cut down to zero. -/
theorem usat_capacity :
    (UsatAddSound ⟨getSignedMinValue 4095, getSignedMinValue 4095, 4095, .regular, by decide⟩
        ⟨getSignedMinValue 4095, getSignedMinValue 4095, 4095, .regular, by decide⟩ ∧
      UsatAddLoss ⟨getSignedMinValue 4095, getSignedMinValue 4095, 4095, .regular, by decide⟩
        ⟨getSignedMinValue 4095, getSignedMinValue 4095, 4095, .regular, by decide⟩) ∧
    ¬ UsatSubSound ⟨3, 3, maxDigits, .regular, by decide⟩
        ⟨1, 1, maxDigits, .regular, by decide⟩ := by
  refine ⟨⟨?_, ?_⟩, ?_⟩
  · have hleast : ∀ z ∈ (⟨getSignedMinValue 4095, getSignedMinValue 4095, 4095, .regular,
        by decide⟩ : Range).gamma, z = -half 4095 := by
      intro z hz
      have hv : (getSignedMinValue 4095).val = -half 4095 := leastValue.property.2.1
      have h := (mem_gamma_of_regular (Eq.refl RangeType.regular)).mp hz
      have h1 : (getSignedMinValue 4095).val ≤ z := h.2.1
      have h2 : z ≤ (getSignedMinValue 4095).val := h.2.2
      omega
    intro x hx y hy
    rw [hleast x hx, hleast y hy]
    exact leastValue.property.2.2.2.1
  · exact leastValue.property.2.2.2.2
  · intro h
    obtain ⟨-, -, hx, hy, hlost, -⟩ := lostDifference.property
    exact hlost (h 3 hx 1 hy)

end All

/-- `sat_add` keeps every sum and `sat_sub` every difference but those of its
    Anti branch; below 4095 bits the unsigned operations lose a value exactly
    on the losses above, from there on the losses are others. -/
theorem saturating_sound_iff (w : Nat) (h0 : 0 < w) (hw : w ≤ maxDigits) :
    (∀ a b : Range, a.WellFormed → b.WellFormed → a.bw = w → b.bw = w → a.type ≠ .unknown →
      b.type ≠ .unknown → SatAddSound a b ∧ (SatSubSound a b ↔ ¬ SatSubLoss a b)) ∧
    ((∀ a b : Range, a.WellFormed → b.WellFormed → a.bw = w → b.bw = w → a.type ≠ .unknown →
      b.type ≠ .unknown →
        (UsatAddSound a b ↔ ¬ UsatAddLoss a b) ∧ (UsatSubSound a b ↔ ¬ UsatSubLoss a b)) ↔
      w + 1 < maxDigits) := by
  constructor
  · rintro a b hwa hwb rfl hbw hua hub
    exact ⟨satAdd_sound hbw hua hub hwa hwb, satSub_sound_iff hbw hua hub hwa hwb⟩
  · constructor
    · intro h
      by_contra hcap
      have hcases : w = 4095 ∨ w = maxDigits := by
        have : maxDigits = 4096 := rfl
        omega
      obtain ⟨⟨hkept, hloss⟩, hlost⟩ := usat_capacity
      rcases hcases with rfl | rfl
      · exact ((h _ _ leastValue.property.1 leastValue.property.1 (Eq.refl 4095) (Eq.refl 4095)
          (by decide) (by decide)).1.mp hkept) hloss
      · refine hlost ((h ⟨3, 3, maxDigits, .regular, by decide⟩ ⟨1, 1, maxDigits, .regular, by decide⟩
          lostDifference.property.1 lostDifference.property.2.1
          (Eq.refl maxDigits) (Eq.refl maxDigits) (by decide) (by decide)).2.mpr ?_)
        rintro ⟨-, -, hl | hl⟩
        · exact absurd hl.1 (by decide)
        · rcases hl.2.2.2.2.2 with h' | h'
          · exact absurd h'.1 lostDifference.property.2.2.2.2.2.1
          · exact absurd h'.2.1 lostDifference.property.2.2.2.2.2.2
    · rintro hlt a b hwa hwb rfl hbw hua hub
      exact ⟨usatAdd_sound_iff hlt hbw hua hub hwa hwb, usatSub_sound_iff hlt hbw hua hub hwa hwb⟩

theorem saturating_sound_iff_at_eight :
    (∀ a b : Range, a.WellFormed → b.WellFormed → a.bw = 8 → b.bw = 8 → a.type ≠ .unknown →
      b.type ≠ .unknown → SatAddSound a b ∧ (SatSubSound a b ↔ ¬ SatSubLoss a b)) ∧
    ((∀ a b : Range, a.WellFormed → b.WellFormed → a.bw = 8 → b.bw = 8 → a.type ≠ .unknown →
      b.type ≠ .unknown →
        (UsatAddSound a b ↔ ¬ UsatAddLoss a b) ∧ (UsatSubSound a b ↔ ¬ UsatSubLoss a b)) ↔
      8 + 1 < maxDigits) :=
  saturating_sound_iff 8 (by decide) (by decide)

/-- Minus one and one of eight bits, whose unsigned saturated sum is lost. -/
def lostUsat : {p : Range × Range // p.1.WellFormed ∧ p.2.WellFormed ∧
    (-1 : Int) ∈ p.1.gamma ∧ (1 : Int) ∈ p.2.gamma ∧
    ¬ Holds (p.1.usatAdd p.2) 8 (usatSum 8 (-1) 1)} :=
  ⟨(⟨-1, -1, 8, .regular, bwValid_eight⟩, ⟨1, 1, 8, .regular, bwValid_eight⟩), by decide +kernel⟩

/-- An anti range and one of eight bits, whose saturated difference is lost. -/
def lostSat : {p : Range × Range // p.1.WellFormed ∧ p.2.WellFormed ∧
    (0 : Int) ∈ p.1.gamma ∧ (1 : Int) ∈ p.2.gamma ∧
    ¬ Holds (p.1.satSub p.2) 8 (clamp 8 (0 - 1))} :=
  ⟨(⟨5, 6, 8, .anti, bwValid_eight⟩, ⟨1, 1, 8, .regular, bwValid_eight⟩), by decide +kernel⟩

/-- Eight bits: the unsigned sum of minus one and one saturates, but `usat_add`
    adds the stored bounds to zero; less one, an Anti range comes back as the
    Anti range that keeps the greatest value only. -/
theorem saturating_not_sound :
    (¬ ∀ a b : Range, a.WellFormed → b.WellFormed → b.bw = a.bw → a.type ≠ .unknown →
      b.type ≠ .unknown → UsatAddSound a b) ∧
    ¬ ∀ a b : Range, a.WellFormed → b.WellFormed → b.bw = a.bw → a.type ≠ .unknown →
      b.type ≠ .unknown → SatSubSound a b := by
  constructor
  · intro h
    obtain ⟨hwa, hwb, hx, hy, hlost⟩ := lostUsat.property
    exact hlost (h _ _ hwa hwb (Eq.refl 8) (by decide) (by decide) (-1) hx 1 hy)
  · intro h
    obtain ⟨hwa, hwb, hx, hy, hlost⟩ := lostSat.property
    exact hlost (h _ _ hwa hwb (Eq.refl 8) (by decide) (by decide) 0 hx 1 hy)

end Range
end Bambu
