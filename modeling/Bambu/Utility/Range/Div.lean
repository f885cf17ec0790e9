/-
  Bambu.Utility.Range.Div

  `Range::udiv` and `Range::sdiv`.

  Both bound a quotient by quotients of bounds.  For signed division these are
  the corners of one or two intervals of divisors without zero; an infinite end
  of such an interval needs no case of its own, because a quotient by it is zero
  either way.  The bounds so found lie less than a turn away from the limits,
  which is where the constructor is exact.
-/

import Bambu.Utility.Range.Lattice
import Bambu.Math.Corner

namespace Bambu

open Bambu.Math

namespace APInt

/-- Division with the exception of a zero divisor. -/
def quot (x y : APInt) : Except Error APInt :=
  if y = 0 then .error .divisionByZero else .ok (x / y)

/-- The first result of `std::minmax_element`. -/
def minElement : List APInt → APInt
  | [] => 0
  | x :: xs => xs.foldl (fun m y => if y < m then y else m) x

/-- The second result of `std::minmax_element`. -/
def maxElement : List APInt → APInt
  | [] => 0
  | x :: xs => xs.foldl (fun m y => if y < m then m else y) x

/-- A fold that keeps one of two elements each time ends at an element that
    relates to all of them. -/
theorem foldl_pick_spec {α : Type} {R : α → α → Prop} {f : α → α → α} (hrefl : ∀ x, R x x)
    (htrans : ∀ x y z, R x y → R y z → R x z)
    (hf : ∀ m y, (f m y = m ∨ f m y = y) ∧ R (f m y) m ∧ R (f m y) y) (xs : List α) (x : α) :
    xs.foldl f x ∈ x :: xs ∧ ∀ y ∈ x :: xs, R (xs.foldl f x) y := by
  induction xs generalizing x with
  | nil => exact ⟨List.mem_singleton_self x, fun y hy => List.mem_singleton.mp hy ▸ hrefl x⟩
  | cons z xs ih =>
    rw [List.foldl_cons]
    obtain ⟨hpick, hx, hz⟩ := hf x z
    obtain ⟨hmem, hle⟩ := ih (f x z)
    have hhead := hle _ List.mem_cons_self
    refine ⟨?_, fun y hy => ?_⟩
    · rcases List.mem_cons.mp hmem with h | h
      · rcases hpick with hp | hp <;> rw [h, hp] <;> simp
      · exact List.mem_cons_of_mem x (List.mem_cons_of_mem z h)
    · rcases List.mem_cons.mp hy with rfl | hy
      · exact htrans _ _ _ hhead hx
      · rcases List.mem_cons.mp hy with rfl | hy
        · exact htrans _ _ _ hhead hz
        · exact hle y (List.mem_cons_of_mem _ hy)

theorem minElement_spec {l : List APInt} (hl : l ≠ []) :
    minElement l ∈ l ∧ ∀ y ∈ l, (minElement l).val ≤ y.val := by
  cases l with
  | nil => exact absurd rfl hl
  | cons x xs =>
    refine foldl_pick_spec (R := fun a b : APInt => a.val ≤ b.val) (fun _ => le_refl _)
      (fun _ _ _ => le_trans) (fun m y => ?_) xs x
    simp only [SignMag.lt_iff]
    split
    · exact ⟨Or.inr rfl, by omega, le_refl _⟩
    · exact ⟨Or.inl rfl, le_refl _, by omega⟩

theorem maxElement_spec {l : List APInt} (hl : l ≠ []) :
    maxElement l ∈ l ∧ ∀ y ∈ l, y.val ≤ (maxElement l).val := by
  cases l with
  | nil => exact absurd rfl hl
  | cons x xs =>
    refine foldl_pick_spec (R := fun a b : APInt => b.val ≤ a.val) (fun _ => le_refl _)
      (fun _ _ _ h h' => le_trans h' h) (fun m y => ?_) xs x
    simp only [SignMag.lt_iff]
    split
    · exact ⟨Or.inl rfl, le_refl _, by omega⟩
    · exact ⟨Or.inr rfl, by omega, le_refl _⟩

end APInt

namespace Range

open APInt

/-! ## The operations -/

def udiv (this other : Range) : Except Error Range :=
  onProper this other this.bw do
    if ← this.isFullSet then ofType .regular this.bw
    else do
      let a ← this.getUnsignedMin
      let b ← this.getUnsignedMax
      let c ← other.getUnsignedMin
      let d ← other.getUnsignedMax
      if c = 0 ∧ d = 0 then ofType .regular this.bw
      else do
        let lb ← quot a d
        let ub ← quot b (if c = 0 then 1 else c)
        ofBounds .regular this.bw lb ub

/-- `DIV_HELPER(x, y)`. -/
def divHelper (x y : APInt) : Except Error APInt :=
  if x = Max then .ok (if y < 0 then Min else if y = 0 then 0 else Max)
  else if y = Max then .ok 0
  else if x = Min then .ok (if y < 0 then Max else if y = 0 then 0 else Min)
  else if y = Min then .ok 0
  else quot x y

/-- Four of the candidates of `sdiv`. -/
def sdivCandidates (a b c d : APInt) : Except Error (List APInt) := do
  let q0 ← divHelper a c
  let q1 ← divHelper a d
  let q2 ← divHelper b c
  let q3 ← divHelper b d
  .ok [q0, q1, q2, q3]

/-- The range between the extreme candidates. -/
def ofCandidates (bw : Nat) (candidates : List APInt) : Except Error Range :=
  ofBounds .regular bw (minElement candidates) (maxElement candidates)

def sdiv (this other : Range) : Except Error Range :=
  onProper this other this.bw do
    let full ← this.isFullSet
    if full ∨ this.isAnti then ofType .regular this.bw
    else do
      let a ← this.getLower
      let b ← this.getUpper
      if other.isAnti then do
        let antiRange ← other.getAnti
        let d1 := (← antiRange.getLower) - 1
        let c2 := (← antiRange.getUpper) + 1
        if d1 ≠ 0 ∧ d1 > 0 then ofType .regular this.bw
        else if c2 ≠ 0 ∧ c2 < 0 then ofType .regular this.bw
        else do
          let candidates ← sdivCandidates a b Min (if d1 = 0 then -1 else d1)
          let more ← sdivCandidates a b (if c2 = 0 then 1 else c2) Max
          ofCandidates this.bw (candidates ++ more)
      else do
        let c1 ← other.getLower
        let d1 ← other.getUpper
        if c1 = 0 ∧ d1 = 0 then ofType .regular this.bw
        else if c1 < 0 ∧ d1 > 0 then do
          -- zero is in the divisor: the two intervals around it
          let candidates ← sdivCandidates a b c1 (-1)
          let more ← sdivCandidates a b 1 d1
          ofCandidates this.bw (candidates ++ more)
        else do
          let candidates ← sdivCandidates a b (if c1 = 0 then 1 else c1) (if d1 = 0 then -1 else d1)
          ofCandidates this.bw candidates

section Builds

variable {a b : Range} {w : Nat} {l : List APInt}

theorem builds_udiv : Builds (a.udiv b) := by
  unfold udiv
  refine builds_onProper (builds_bind fun _ _ => builds_ite builds_ofType ?_)
  exact builds_bind fun _ _ => builds_bind fun _ _ => builds_bind fun _ _ =>
    builds_bind fun _ _ => builds_ite builds_ofType
      (builds_bind fun _ _ => builds_bind fun _ _ => builds_ofBounds)

theorem builds_ofCandidates : Builds (ofCandidates w l) := builds_ofBounds

theorem builds_sdiv : Builds (a.sdiv b) := by
  unfold sdiv
  refine builds_onProper (builds_bind fun _ _ => builds_ite builds_ofType
    (builds_bind fun _ _ => builds_bind fun _ _ => builds_ite ?_ ?_))
  · exact builds_bind fun _ _ => builds_bind fun _ _ => builds_bind fun _ _ =>
      builds_ite builds_ofType (builds_ite builds_ofType
        (builds_bind fun _ _ => builds_bind fun _ _ => builds_ofCandidates))
  · exact builds_bind fun _ _ => builds_bind fun _ _ => builds_ite builds_ofType
      (builds_ite (builds_bind fun _ _ => builds_bind fun _ _ => builds_ofCandidates)
        (builds_bind fun _ _ => builds_ofCandidates))

end Builds

/-! ## Bounds near the limits -/

section Near

variable {w : Nat} {lb ub : APInt} {l : List APInt} {k : Int}

/-- Below the capacity a Regular range less than a turn away from the limits
    holds the residue of every integer between its bounds. -/
theorem holds_regular_near (h0 : 0 < w) (hw : w < maxDigits) (hlo : -half w ≤ lb.val)
    (hhi : ub.val < 2 * half w) (hmax : ub.val < half maxDigits - 1) (hlk : lb.val ≤ k)
    (hku : k ≤ ub.val) : Holds (ofBounds .regular w lb ub) w (signedResidue w k) := by
  have hP := half_pos w
  have hcap := two_mul_half_le h0 hw
  refine RegularSound.holds h0 ?_ hlk hku
  rw [regularSound_iff_not_loss h0 hw.le (by omega) (by omega) hmax]
  exact not_regularLoss_of_near h0 (by omega) hhi

/-- The range between the extreme candidates holds what two of them enclose. -/
theorem holds_ofCandidates (h0 : 0 < w) (hw : w < maxDigits)
    (hl : ∀ p ∈ l, -half w ≤ p.val ∧ p.val < 2 * half w ∧ p.val < half maxDigits - 1)
    (hk : Between (l.map SignMag.val) k) : Holds (ofCandidates w l) w (signedResidue w k) := by
  obtain ⟨⟨p, hp, hpk⟩, p', hp', hkp⟩ := hk
  rw [List.mem_map] at hp hp'
  obtain ⟨p, hp, rfl⟩ := hp
  obtain ⟨p', hp', rfl⟩ := hp'
  obtain ⟨hmin, hminle⟩ := minElement_spec (List.ne_nil_of_mem hp)
  obtain ⟨hmax, hmaxle⟩ := maxElement_spec (List.ne_nil_of_mem hp)
  exact holds_regular_near h0 hw (hl _ hmin).1 (hl _ hmax).2.1 (hl _ hmax).2.2
    ((hminle p hp).trans hpk) (hkp.trans (hmaxle p' hp'))

end Near

/-! ## Unsigned division -/

section Udiv

variable {a b : Range} {m n c d : APInt}

theorem quot_of_ne {x y : APInt} (h : y.val ≠ 0) : quot x y = .ok (x / y) :=
  if_neg fun hy => h (by rw [hy, SignMag.val_zero])

theorem udiv_of_full (ha : a.Proper) (hb : b.Proper) (hf : a.IsFull) :
    a.udiv b = ofType .regular a.bw := by
  unfold udiv
  rw [onProper_of ha hb, isFullSet_eq ha, ok_bind, decide_eq_true hf, if_pos rfl]

/-- A zero bound replaced. -/
theorem ite_eq_zero_val (p q : APInt) :
    (if p = 0 then q else p).val = if p.val = 0 then q.val else p.val := by
  have hz : p = 0 ↔ p.val = 0 := by rw [SignMag.eq_iff, SignMag.val_zero]
  by_cases h : p.val = 0
  · rw [if_pos h, if_pos (hz.mpr h)]
  · rw [if_neg h, if_neg (mt hz.mp h)]

/-- The least divisor once zero is out. -/
theorem ite_zero_val (hc : 0 ≤ c.val) : (if c = 0 then 1 else c).val = max c.val 1 := by
  rw [ite_eq_zero_val, one_val]
  split <;> omega

theorem udiv_of_hull (ha : a.Proper) (hb : b.Proper) (hf : ¬ a.IsFull) (hma : UnsignedHull a m n)
    (hmb : UnsignedHull b c d) (hd : 0 < d.val) :
    a.udiv b = ofBounds .regular a.bw (m / d) (n / (if c = 0 then 1 else c)) := by
  have hc := ite_zero_val hmb.2.2.1
  have hne : ¬ (c = 0 ∧ d = 0) := fun h => by
    rw [h.2, SignMag.val_zero] at hd
    exact absurd hd (lt_irrefl _)
  unfold udiv
  rw [onProper_of ha hb, isFullSet_eq ha, ok_bind, decide_eq_false hf, if_neg Bool.false_ne_true,
    hma.1, hma.2.1, hmb.1, hmb.2.1]
  simp only [ok_bind]
  rw [if_neg hne, quot_of_ne (by omega), quot_of_ne (by omega)]
  rfl

/-- The bounds of an unsigned quotient, and that they enclose it. -/
theorem udiv_bounds (hw : a.bw < maxDigits) (hbw : b.bw = a.bw) (hma : UnsignedHull a m n)
    (hmb : UnsignedHull b c d) {x y : Int} (hx : x ∈ a.gamma) (hy : y ∈ b.gamma) (hy0 : y ≠ 0) :
    0 < d.val ∧ 0 ≤ (m / d).val ∧ (m / d).val ≤ (x % 2 ^ a.bw) / (y % 2 ^ a.bw) ∧
      (x % 2 ^ a.bw) / (y % 2 ^ a.bw) ≤ (n / (if c = 0 then 1 else c)).val ∧
      (n / (if c = 0 then 1 else c)).val = n.val / max c.val 1 ∧
      (n / (if c = 0 then 1 else c)).val < 2 * half a.bw := by
  have hcap := two_mul_half_le a.bw_valid.1 hw
  have hP := half_pos a.bw
  have hc := ite_zero_val hmb.2.2.1
  obtain ⟨-, -, hm0, hn, hxs⟩ := hma
  obtain ⟨-, -, hc0, hd, hys⟩ := hmb
  rw [hbw] at hd hys
  have hxu := hxs x hx
  have hyu := hys y hy
  have hypos : 0 < y % 2 ^ a.bw := by
    have h1 := hy.1.1
    have h2 := hy.1.2
    rw [hbw] at h1 h2
    rcases Int.lt_or_lt_of_ne hy0 with h | h
    · rw [emod_of_neg a.bw_valid.1 h (by omega)]
      omega
    · rw [emod_of_nonneg a.bw_valid.1 h.le (by omega)]
      exact h
  have hmd := abs_le.mp (abs_tdiv_le m.val d.val)
  have hnc := abs_le.mp (abs_tdiv_le n.val (max c.val 1))
  rw [abs_of_nonneg (by omega)] at hmd hnc
  have hlo : (m / d).val = m.val.tdiv d.val := div_val (by omega) (by omega)
  have hhi : (n / (if c = 0 then 1 else c)).val = n.val.tdiv (max c.val 1) := by
    rw [← hc] at hnc ⊢
    exact div_val (by omega) (by omega)
  rw [hlo, hhi, Int.tdiv_eq_ediv_of_nonneg (show 0 ≤ n.val by omega),
    ← Int.tdiv_eq_ediv_of_nonneg (show 0 ≤ x % 2 ^ a.bw by omega)]
  refine ⟨by omega, Int.tdiv_nonneg hm0 (by omega), ?_, ?_, rfl, ?_⟩
  · exact (Int.tdiv_le_tdiv (by omega) hxu.1).trans
      (tdiv_le_tdiv_of_nonneg (by omega) hypos hyu.2)
  · rw [← Int.tdiv_eq_ediv_of_nonneg (show 0 ≤ n.val by omega)]
    exact (Int.tdiv_le_tdiv hypos hxu.2).trans
      (tdiv_le_tdiv_of_nonneg (by omega) (by omega) (by omega))
  · rw [← Int.tdiv_eq_ediv_of_nonneg (show 0 ≤ n.val by omega)]
    omega

/-- One bit below the capacity the greatest unsigned value is `Max`: an upper
    bound of that value is taken for infinite, and a quotient by one of a
    negative dividend is lost when smaller quotients keep the lower bound
    within the limits. -/
def UdivLoss (a b : Range) : Prop :=
  a.bw + 1 = maxDigits ∧ ¬ a.IsFull ∧ a.getUnsignedMax = .ok (getMaxValue a.bw) ∧
    (∃ m d, a.getUnsignedMin = .ok m ∧ b.getUnsignedMax = .ok d ∧ (m / d).val < half a.bw) ∧
    1 ∈ b.gamma ∧ ∃ x ∈ a.gamma, x < 0

def UdivSound (a b : Range) : Prop :=
  ∀ x ∈ a.gamma, ∀ y ∈ b.gamma, y ≠ 0 →
    Holds (a.udiv b) a.bw (signedResidue a.bw ((x % 2 ^ a.bw) / (y % 2 ^ a.bw)))

theorem four_le_half_maxDigits : 4 ≤ half maxDigits := by
  have h : half 3 ≤ half maxDigits := half_le_half (by decide)
  simpa [half] using h

/-- Only one bit below the capacity do two halves make up the capacity's. -/
theorem succ_eq_maxDigits {w : Nat} (h0 : 0 < w) (hw : w < maxDigits)
    (h : half maxDigits ≤ 2 * half w) : w + 1 = maxDigits := by
  by_contra hne
  have h4 := four_mul_half_le h0 (show w + 1 < maxDigits by omega)
  have hP := half_pos w
  omega

/-- An upper bound equal to `Max` cuts the range at the signed limit. -/
theorem yields_cut {w : Nat} (hw : 0 < w ∧ w ≤ maxDigits) {lb ub : APInt} (hlo : 0 ≤ lb.val)
    (hhi : lb.val < half w) (hmax : ub.val = half maxDigits - 1) :
    Yields (ofBounds .regular w lb ub) w .regular lb.val (half w - 1) := by
  have hcap := half_le_half hw.2
  have hP := half_pos w
  exact yields_regular_toMax hw (by omega) (by omega) (by omega) hmax
    ((normalizeToMax_inside hw (by omega) hhi).repair (by omega))

theorem udiv_holds (hw : a.bw < maxDigits) (hbw : b.bw = a.bw) (ha : a.Proper) (hb : b.Proper)
    (hf : ¬ a.IsFull) (hma : UnsignedHull a m n) (hmb : UnsignedHull b c d)
    (hloss : ¬ UdivLoss a b) : UdivSound a b := by
  intro x hx y hy hy0
  have h0 := a.bw_valid.1
  have hP := half_pos a.bw
  have hcap := two_mul_half_le h0 hw
  obtain ⟨hd, hlo, hlq, hqu, hub, hnear⟩ := udiv_bounds hw hbw hma hmb hx hy hy0
  rw [udiv_of_hull ha hb hf hma hmb hd]
  by_cases hmax : (n / (if c = 0 then 1 else c)).val < half maxDigits - 1
  · exact holds_regular_near h0 hw (by omega) hnear hmax hlq hqu
  -- the upper bound is `Max`, the quotient of the greatest value by one
  have htop := succ_eq_maxDigits h0 hw (by omega)
  have hhalf := half_of_succ h0 htop
  have h4 := four_le_half_maxDigits
  have hn := hma.2.2.2.1
  have hmaxV := getMaxValue_val h0 hw
  have hdiv := Int.ediv_mul_le n.val (b := max c.val 1) (by omega)
  rw [← hub] at hdiv
  have hone : max c.val 1 = 1 := by
    by_contra hne
    have := mul_le_mul_of_nonneg_left (show 2 ≤ max c.val 1 by omega)
      (show 0 ≤ (n / (if c = 0 then 1 else c)).val by omega)
    omega
  rw [hone, Int.ediv_one] at hub
  by_cases hcut : (m / d).val < half a.bw
  · rw [(yields_cut ⟨h0, hw.le⟩ hlo hcut (by omega)).holds_iff]
    by_cases hq : (x % 2 ^ a.bw) / (y % 2 ^ a.bw) < half a.bw
    · rw [signedResidue_of_mem h0 (by omega) hq]
      exact ⟨⟨by omega, hq⟩, hlq, by omega⟩
    -- a quotient past the limit is that of a negative value by one
    have hy1 := hmb.2.2.2.2 y hy
    rw [hbw] at hy1
    have hxu := (hma.2.2.2.2 x hx).2
    have hypos : 0 < y % 2 ^ a.bw := by
      rcases Int.lt_or_le 0 (y % 2 ^ a.bw) with h | h
      · exact h
      · have hzero : y % 2 ^ a.bw = 0 := by have := hmb.2.2.1; omega
        rw [hzero, Int.ediv_zero] at hq
        omega
    have hmul := (Int.le_ediv_iff_mul_le hypos).mp (Int.not_lt.mp hq)
    have hyu : y % 2 ^ a.bw = 1 := by
      by_contra hne
      have := mul_le_mul_of_nonneg_left (show 2 ≤ y % 2 ^ a.bw by omega) hP.le
      omega
    refine absurd ⟨htop, hf, ?_, ⟨m, d, hma.1, hmb.2.1, hcut⟩, ?_, x, hx, ?_⟩ hloss
    · rw [hma.2.1, show n = getMaxValue a.bw from SignMag.ext (by omega)]
    · have h1 := hy.1.1
      have h2 := hy.1.2
      rw [hbw] at h1 h2
      rcases Int.lt_or_lt_of_ne hy0 with h | h
      · rw [emod_of_neg h0 h (by omega)] at hyu
        omega
      · rw [emod_of_nonneg h0 h.le (by omega)] at hyu
        rwa [hyu] at hy
    · rw [hyu, Int.ediv_one] at hq
      by_contra hneg
      have h2 := hx.1.2
      rw [emod_of_nonneg h0 (by omega) (by omega)] at hq
      exact hq h2
  · have hy : Yields (ofBounds .regular a.bw (m / d) (n / (if c = 0 then 1 else c))) a.bw .regular
        ((m / d).val - 2 * half a.bw) (-1) :=
      yields_regular_toMax ⟨h0, hw.le⟩ (by omega) (by omega) (by omega) (by omega)
        ((normalizeToMax_above h0 hw (by omega) (by omega)).repair (by omega))
    rw [hy.holds_iff, signedResidue_past_upper h0 (by omega) (by omega)]
    exact ⟨⟨by omega, by omega⟩, by omega, by omega⟩

theorem not_udivSound_of_loss (hw : a.bw < maxDigits) (hbw : b.bw = a.bw) (ha : a.Proper)
    (hb : b.Proper) (hma : UnsignedHull a m n) (hmb : UnsignedHull b c d)
    (hloss : UdivLoss a b) : ¬ UdivSound a b := by
  obtain ⟨htop, hf, hmaxeq, ⟨m', d', hm', hd', hcut⟩, hone, x, hx, hneg⟩ := hloss
  have h0 := a.bw_valid.1
  have hP := half_pos a.bw
  have hhalf := half_of_succ h0 htop
  have h4 := four_le_half_maxDigits
  have hmaxV := getMaxValue_val h0 hw
  obtain rfl : m' = m := by injection hm'.symm.trans hma.1
  obtain rfl : d' = d := by injection hd'.symm.trans hmb.2.1
  have hn : n = getMaxValue a.bw := by injection hma.2.1.symm.trans hmaxeq
  obtain ⟨hd, hlo, hlq, hqu, hub, hnear⟩ := udiv_bounds hw hbw hma hmb hx hone (by decide)
  intro hs
  have hx1 := hx.1.1
  have h1 : (1 : Int) % 2 ^ a.bw = 1 := emod_of_nonneg h0 (by decide) (by omega)
  have hc := (hmb.2.2.2.2 1 hone).1
  rw [hbw, h1] at hc
  have hnv : n.val = 2 * half a.bw - 1 := by rw [hn, hmaxV]
  rw [show max c.val 1 = 1 by omega, Int.ediv_one, hnv] at hub
  have hh := hs x hx 1 hone (by decide)
  -- the residue of the quotient by one is the negative value itself
  rw [h1, Int.ediv_one, signedResidue_emod, signedResidue_of_mem h0 hx1 (by omega),
    udiv_of_hull ha hb hf hma hmb hd, (yields_cut ⟨h0, hw.le⟩ hlo hcut (by omega)).holds_iff] at hh
  have := hh.2.1
  omega

/-- The operands below the capacity whose unsigned quotients are all kept. -/
theorem udivSound_iff (hw : a.bw < maxDigits) (hbw : b.bw = a.bw) (ha : a.Proper) (hb : b.Proper)
    (hwa : a.WellFormed) (hwb : b.WellFormed) : UdivSound a b ↔ ¬ UdivLoss a b := by
  by_cases hf : a.IsFull
  · refine iff_of_true (fun x _ y _ _ => ?_) (fun h => h.2.1 hf)
    rw [udiv_of_full ha hb hf]
    exact holds_full_residue a.bw_valid _
  obtain ⟨m, n, hma⟩ := exists_unsignedHull hw ha hwa
  obtain ⟨c, d, hmb⟩ := exists_unsignedHull (hbw ▸ hw) hb hwb
  exact ⟨fun hs hl => not_udivSound_of_loss hw hbw ha hb hma hmb hl hs,
    udiv_holds hw hbw ha hb hf hma hmb⟩

end Udiv

/-! ## Signed division -/

section Sdiv

variable {a b : Range} {lb ub c d : APInt} {x y : Int} {w : Nat}

/-- A finite dividend makes the infinite divisors of `DIV_HELPER` ordinary ones. -/
theorem divHelper_val {p q : APInt} (hlo : -half maxDigits + 1 < p.val)
    (hhi : p.val < half maxDigits - 1) (hq : q.val ≠ 0) :
    ∃ v, divHelper p q = .ok v ∧ v.val = p.val.tdiv q.val := by
  have hmax : p ≠ Max := by rw [ne_eq, eq_max_iff]; omega
  have hmin : p ≠ Min := by rw [ne_eq, eq_min_iff]; omega
  have habs : |p.val| < half maxDigits - 1 := abs_lt.mpr ⟨by omega, hhi⟩
  have hdiv := abs_le.mp (abs_tdiv_le p.val q.val)
  unfold divHelper
  rw [if_neg hmax]
  by_cases hqmax : q = Max
  · rw [if_pos hqmax]
    refine ⟨0, rfl, ?_⟩
    rw [SignMag.val_zero, eq_max_iff.mp hqmax, tdiv_eq_zero_of_abs_lt]
    rw [abs_of_nonneg (a := half maxDigits - 1) (by omega)]
    exact habs
  rw [if_neg hqmax, if_neg hmin]
  by_cases hqmin : q = Min
  · rw [if_pos hqmin]
    refine ⟨0, rfl, ?_⟩
    rw [SignMag.val_zero, eq_min_iff.mp hqmin, tdiv_eq_zero_of_abs_lt]
    rw [abs_neg, abs_of_nonneg (a := half maxDigits) (by omega)]
    omega
  · rw [if_neg hqmin, quot_of_ne hq]
    exact ⟨_, rfl, div_val (by omega) (by omega)⟩

/-- The candidates of one interval of divisors are its corner quotients. -/
theorem sdivCandidates_val (hlb : -half maxDigits + 1 < lb.val ∧ lb.val < half maxDigits - 1)
    (hub : -half maxDigits + 1 < ub.val ∧ ub.val < half maxDigits - 1) (hc : c.val ≠ 0)
    (hd : d.val ≠ 0) : ∃ l, sdivCandidates lb ub c d = .ok l ∧
      l.map SignMag.val = corners lb.val ub.val c.val d.val := by
  obtain ⟨q0, h0, e0⟩ := divHelper_val hlb.1 hlb.2 hc
  obtain ⟨q1, h1, e1⟩ := divHelper_val hlb.1 hlb.2 hd
  obtain ⟨q2, h2, e2⟩ := divHelper_val hub.1 hub.2 hc
  obtain ⟨q3, h3, e3⟩ := divHelper_val hub.1 hub.2 hd
  unfold sdivCandidates
  rw [h0, h1, h2, h3]
  exact ⟨[q0, q1, q2, q3], rfl, by simp [corners, e0, e1, e2, e3]⟩

/-- The corner quotients of dividends within the limits. -/
theorem corners_near (hw : w < maxDigits) (h0 : 0 < w) (hlb : -half w ≤ lb.val ∧ lb.val < half w)
    (hub : -half w ≤ ub.val ∧ ub.val < half w) {p : Int}
    (hp : p ∈ corners lb.val ub.val c.val d.val) :
    -half w ≤ p ∧ p < 2 * half w ∧ p < half maxDigits - 1 := by
  have hP := half_pos w
  have hcap := two_mul_half_le h0 hw
  have h4 := four_le_half_maxDigits
  have hbound : ∀ e q : Int, -half w ≤ e → e < half w → -half w ≤ e.tdiv q ∧ e.tdiv q ≤ half w := by
    intro e q h1 h2
    have habs : |e| ≤ half w := abs_le.mpr ⟨h1, h2.le⟩
    have h := abs_le.mp ((abs_tdiv_le e q).trans habs)
    exact h
  have hp' : -half w ≤ p ∧ p ≤ half w := by
    simp only [corners, List.mem_cons, List.not_mem_nil, or_false] at hp
    rcases hp with rfl | rfl | rfl | rfl
    · exact hbound _ _ hlb.1 hlb.2
    · exact hbound _ _ hlb.1 hlb.2
    · exact hbound _ _ hub.1 hub.2
    · exact hbound _ _ hub.1 hub.2
  omega

/-- One interval of divisors. -/
theorem sdiv_one (hw : w < maxDigits) (h0 : 0 < w) (hlb : -half w ≤ lb.val ∧ lb.val < half w)
    (hub : -half w ≤ ub.val ∧ ub.val < half w) (hsign : 0 < c.val ∨ d.val < 0)
    (hx : lb.val ≤ x ∧ x ≤ ub.val) (hy : c.val ≤ y ∧ y ≤ d.val) :
    Holds (sdivCandidates lb ub c d >>= fun l => ofCandidates w l) w
      (signedResidue w (x.tdiv y)) := by
  have hcap := two_mul_half_le h0 hw
  have hP := half_pos w
  have h4 := four_le_half_maxDigits
  obtain ⟨l, hl, hmap⟩ : ∃ l, sdivCandidates lb ub c d = .ok l ∧
      l.map SignMag.val = corners lb.val ub.val c.val d.val :=
    sdivCandidates_val (by omega) (by omega) (by omega) (by omega)
  rw [hl, ok_bind]
  refine holds_ofCandidates h0 hw (fun p hp => ?_) ?_
  · exact corners_near hw h0 hlb hub (hmap ▸ List.mem_map_of_mem hp)
  · rw [hmap]
    exact between_corners hx.1 hx.2 hsign hy.1 hy.2

/-- Two intervals of divisors, one on each side of zero. -/
theorem sdiv_two (hw : w < maxDigits) (h0 : 0 < w) (hlb : -half w ≤ lb.val ∧ lb.val < half w)
    (hub : -half w ≤ ub.val ∧ ub.val < half w) {c1 d1 c2 d2 : APInt} (hc1 : c1.val < 0)
    (hd1 : d1.val < 0) (hc2 : 0 < c2.val) (hd2 : 0 < d2.val) (hx : lb.val ≤ x ∧ x ≤ ub.val)
    (hy : (c1.val ≤ y ∧ y ≤ d1.val) ∨ (c2.val ≤ y ∧ y ≤ d2.val)) :
    Holds (sdivCandidates lb ub c1 d1 >>= fun l => sdivCandidates lb ub c2 d2 >>= fun l' =>
      ofCandidates w (l ++ l')) w (signedResidue w (x.tdiv y)) := by
  have hcap := two_mul_half_le h0 hw
  have hP := half_pos w
  have h4 := four_le_half_maxDigits
  obtain ⟨l, hl, hmap⟩ : ∃ l, sdivCandidates lb ub c1 d1 = .ok l ∧
      l.map SignMag.val = corners lb.val ub.val c1.val d1.val :=
    sdivCandidates_val (by omega) (by omega) (by omega) (by omega)
  obtain ⟨l', hl', hmap'⟩ : ∃ l, sdivCandidates lb ub c2 d2 = .ok l ∧
      l.map SignMag.val = corners lb.val ub.val c2.val d2.val :=
    sdivCandidates_val (by omega) (by omega) (by omega) (by omega)
  rw [hl, ok_bind, hl', ok_bind]
  refine holds_ofCandidates h0 hw (fun p hp => ?_) ?_
  · rcases List.mem_append.mp hp with hp | hp
    · exact corners_near hw h0 hlb hub (hmap ▸ List.mem_map_of_mem hp)
    · exact corners_near hw h0 hlb hub (hmap' ▸ List.mem_map_of_mem hp)
  · rw [List.map_append, hmap, hmap']
    rcases hy with hy | hy
    · exact (between_corners hx.1 hx.2 (Or.inr hd1) hy.1 hy.2).mono
        (List.subset_append_left _ _)
    · exact (between_corners hx.1 hx.2 (Or.inl hc2) hy.1 hy.2).mono
        (List.subset_append_right _ _)

theorem sdiv_of_full (ha : a.Proper) (hb : b.Proper) (h : a.IsFull ∨ a.type = .anti) :
    a.sdiv b = ofType .regular a.bw := by
  unfold sdiv
  rw [onProper_of ha hb, isFullSet_eq ha, ok_bind]
  simp only [decide_eq_true_eq, isAnti_iff]
  rw [if_pos h]

/-- An Anti divisor: its values below and above the excluded interval. -/
theorem sdiv_of_anti (ha : a.type = .regular) (hf : ¬ a.IsFull) (hb : b.type = .anti)
    (hlb : b.InLimits) :
    a.sdiv b = if b.l - 1 ≠ 0 ∧ b.l - 1 > 0 then ofType .regular a.bw
      else if b.u + 1 ≠ 0 ∧ b.u + 1 < 0 then ofType .regular a.bw
      else sdivCandidates a.l a.u Min (if b.l - 1 = 0 then -1 else b.l - 1) >>= fun l =>
        sdivCandidates a.l a.u (if b.u + 1 = 0 then 1 else b.u + 1) Max >>= fun l' =>
          ofCandidates a.bw (l ++ l') := by
  have hna : a.type ≠ .anti := by rw [ha]; decide
  unfold sdiv
  rw [onProper_of (Or.inl ha) (Or.inr hb), isFullSet_eq (Or.inl ha), ok_bind,
    if_neg (by simp [hf, hna]), getLower_eq hna, ok_bind, getUpper_eq hna, ok_bind,
    if_pos (isAnti_iff.mpr hb), getAnti_of_anti hb hlb]
  rfl

theorem sdiv_of_regular (ha : a.type = .regular) (hf : ¬ a.IsFull) (hb : b.type = .regular) :
    a.sdiv b = if b.l = 0 ∧ b.u = 0 then ofType .regular a.bw
      else if b.l < 0 ∧ b.u > 0 then
        sdivCandidates a.l a.u b.l (-1) >>= fun l => sdivCandidates a.l a.u 1 b.u >>= fun l' =>
          ofCandidates a.bw (l ++ l')
      else sdivCandidates a.l a.u (if b.l = 0 then 1 else b.l) (if b.u = 0 then -1 else b.u) >>=
        fun l => ofCandidates a.bw l := by
  have hna : a.type ≠ .anti := by rw [ha]; decide
  have hnb : b.type ≠ .anti := by rw [hb]; decide
  unfold sdiv
  rw [onProper_of (Or.inl ha) (Or.inl hb), isFullSet_eq (Or.inl ha), ok_bind,
    if_neg (by simp [hf, hna]), getLower_eq hna, ok_bind, getUpper_eq hna, ok_bind,
    if_neg (by simp [hb]), getLower_eq hnb, ok_bind, getUpper_eq hnb, ok_bind]

/-- Below the capacity no signed quotient is lost. -/
theorem sdiv_sound (hw : a.bw < maxDigits) (hbw : b.bw = a.bw) (ha : a.Proper) (hb : b.Proper)
    (hwa : a.WellFormed) (hwb : b.WellFormed) (hx : x ∈ a.gamma) (hy : y ∈ b.gamma)
    (hy0 : y ≠ 0) : Holds (a.sdiv b) a.bw (signedResidue a.bw (x.tdiv y)) := by
  have h0 := a.bw_valid.1
  have hcap := two_mul_half_le h0 hw
  have hP := half_pos a.bw
  have h4 := four_le_half_maxDigits
  by_cases hfull : a.IsFull ∨ a.type = .anti
  · rw [sdiv_of_full ha hb hfull]
    exact holds_full_residue a.bw_valid _
  obtain ⟨hf, hna⟩ := not_or.mp hfull
  have ha : a.type = .regular := ha.resolve_right hna
  have hla : a.InLimits := hwa.inLimits_of_not_full (Or.inl ha) hf
  have hx' := ((mem_gamma_of_regular ha).mp hx).2
  have hneg : (-1 : APInt).val = -1 := neg_one_val
  have hone : (1 : APInt).val = 1 := one_val
  rcases hb with hb | hb
  · have hy' := ((mem_gamma_of_regular hb).mp hy).2
    have hnz : ¬ (b.l = 0 ∧ b.u = 0) := by
      rw [SignMag.eq_iff, SignMag.eq_iff, SignMag.val_zero]
      omega
    rw [sdiv_of_regular ha hf hb, if_neg hnz]
    simp only [lt_zero_iff, zero_lt_iff]
    by_cases hcross : b.l.val < 0 ∧ 0 < b.u.val
    · rw [if_pos hcross]
      exact sdiv_two hw h0 hla.l_mem hla.u_mem hcross.1 (by omega) (by omega) hcross.2 hx' (by omega)
    · rw [if_neg hcross]
      have hc := ite_eq_zero_val b.l 1
      have hd := ite_eq_zero_val b.u (-1)
      exact sdiv_one hw h0 hla.l_mem hla.u_mem (by omega) hx' (by omega)
  · have hlb := hwb.2 hb
    have hy' := (mem_gamma_of_anti hb).mp hy
    have h1 := hlb.l_mem
    have h2 := hlb.u_mem
    rw [hbw] at h1 h2 hy'
    have hd : (b.l - 1).val = b.l.val - 1 := sub_minDelta_val (by omega)
    have hc : (b.u + 1).val = b.u.val + 1 := add_minDelta_val (by omega)
    rw [sdiv_of_anti ha hf hb hlb]
    simp only [zero_lt_iff, lt_zero_iff, hc, hd]
    split
    · exact holds_full_residue a.bw_valid _
    · split
      · exact holds_full_residue a.bw_valid _
      · rename_i hpos hnegu
        rw [ne_eq, SignMag.eq_iff, SignMag.val_zero, hd] at hpos
        rw [ne_eq, SignMag.eq_iff, SignMag.val_zero, hc] at hnegu
        have hmin := min_val
        have hmax := max_val
        have hd' := ite_eq_zero_val (b.l - 1) (-1)
        have hc' := ite_eq_zero_val (b.u + 1) 1
        rw [hd] at hd'
        rw [hc] at hc'
        exact sdiv_two hw h0 hla.l_mem hla.u_mem (by omega) (by omega) (by omega) (by omega) hx'
          (by omega)

end Sdiv

/-! ## Both divisions -/

/-- Every quotient by a nonzero value is kept. -/
def DivisionSound (a b : Range) : Prop :=
  ∀ x ∈ a.gamma, ∀ y ∈ b.gamma, y ≠ 0 →
    Holds (a.sdiv b) a.bw (signedResidue a.bw (x.tdiv y)) ∧
    Holds (a.udiv b) a.bw (signedResidue a.bw ((x % 2 ^ a.bw) / (y % 2 ^ a.bw)))

section Division

variable {a b : Range}

theorem divisionSound_iff (hwa : a.WellFormed) (hwb : b.WellFormed) (hbw : b.bw = a.bw)
    (hua : a.type ≠ .unknown) (hub : b.type ≠ .unknown) (hw : a.bw < maxDigits) :
    DivisionSound a b ↔ ¬ UdivLoss a b := by
  by_cases hpa : a.Proper
  swap
  · exact iff_of_true (fun x hx => absurd (proper_of_mem hua hx) hpa)
      (fun ⟨_, _, _, _, _, x, hx, _⟩ => hpa (proper_of_mem hua hx))
  by_cases hpb : b.Proper
  swap
  · exact iff_of_true (fun x _ y hy => absurd (proper_of_mem hub hy) hpb)
      (fun ⟨_, _, _, _, h1, _⟩ => hpb (proper_of_mem hub h1))
  rw [← udivSound_iff hw hbw hpa hpb hwa hwb]
  exact ⟨fun h x hx y hy hy0 => (h x hx y hy hy0).2, fun h x hx y hy hy0 =>
    ⟨sdiv_sound hw hbw hpa hpb hwa hwb hx hy hy0, h x hx y hy hy0⟩⟩

/-- Minus one and two at the capacity, whose unsigned quotient is lost. -/
def lostQuotient : {p : Range × Range // p.1.WellFormed ∧ p.2.WellFormed ∧
    (-1 : Int) ∈ p.1.gamma ∧ (2 : Int) ∈ p.2.gamma ∧
    ¬ Holds (p.1.udiv p.2) maxDigits
      (signedResidue maxDigits ((-1 % 2 ^ maxDigits) / (2 % 2 ^ maxDigits)))} :=
  ⟨(⟨-1, -1, maxDigits, .regular, bwValid_maxDigits⟩, ⟨2, 2, maxDigits, .regular, bwValid_maxDigits⟩),
    by decide +kernel⟩

/-- At the capacity the unsigned extrema are the signed bounds: minus one
    divided by two is zero, where the greatest value divided by two is meant. -/
theorem not_divisionSound_capacity :
    ¬ DivisionSound ⟨-1, -1, maxDigits, .regular, by decide⟩
      ⟨2, 2, maxDigits, .regular, by decide⟩ := by
  intro h
  obtain ⟨-, -, hx, hy, hlost⟩ := lostQuotient.property
  exact hlost (h (-1) hx 2 hy (by decide)).2

/-- The operands whose quotients are all kept, at every width but the capacity. -/
theorem division_sound_iff (w : Nat) (hw : w ≤ maxDigits) :
    (∀ a b : Range, a.WellFormed → b.WellFormed → a.bw = w → b.bw = w → a.type ≠ .unknown →
      b.type ≠ .unknown → (DivisionSound a b ↔ ¬ UdivLoss a b)) ↔ w < maxDigits := by
  constructor
  · intro h
    rcases Nat.lt_or_eq_of_le hw with hlt | rfl
    · exact hlt
    · have hiff := h ⟨-1, -1, maxDigits, .regular, by decide⟩
        ⟨2, 2, maxDigits, .regular, by decide⟩ lostQuotient.property.1 lostQuotient.property.2.1
        (Eq.refl maxDigits) (Eq.refl maxDigits) (by decide) (by decide)
      exact absurd (hiff.mpr fun hl => absurd hl.1 (by decide)) not_divisionSound_capacity
  · rintro hlt a b hwa hwb rfl hbw hua hub
    exact divisionSound_iff hwa hwb hbw hua hub hlt

theorem division_sound_iff_at_eight :
    (∀ a b : Range, a.WellFormed → b.WellFormed → a.bw = 8 → b.bw = 8 → a.type ≠ .unknown →
      b.type ≠ .unknown → (DivisionSound a b ↔ ¬ UdivLoss a b)) ↔ 8 < maxDigits :=
  division_sound_iff 8 (by decide)

theorem division_not_sound :
    ¬ ∀ a b : Range, a.WellFormed → b.WellFormed → b.bw = a.bw → a.type ≠ .unknown →
      b.type ≠ .unknown → DivisionSound a b := fun h =>
  not_divisionSound_capacity (h ⟨-1, -1, maxDigits, .regular, by decide⟩
    ⟨2, 2, maxDigits, .regular, by decide⟩ lostQuotient.property.1 lostQuotient.property.2.1
    (Eq.refl maxDigits) (by decide) (by decide))

end Division

end Range
end Bambu
