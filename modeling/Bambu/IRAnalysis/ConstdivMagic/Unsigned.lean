/-
  Bambu.IRAnalysis.ConstdivMagic.Unsigned

  `computeUDivMagic64`.

  The loop keeps the quotients and remainders of `2 ^ p` by `nc` and of
  `2 ^ p - 1` by the divisor (`Tracks`), and stops at an exponent whose rounded-up
  reciprocal is precise enough (`Runs`).  A divisor among the numerators always
  gets a magic number (`udivMagic_exact`).  One above all of them is compared
  through a wrapped `nc`, and may be rejected (`UDivRejected`).
-/

import Bambu.Math.Magic
import Bambu.IRAnalysis.ConstdivMagic.Basic

namespace Bambu
namespace ConstdivMagic

open Bambu.Math

/-! ## The unsigned loop -/

/-- What `2 ^ p` lacks to the next multiple of `d`. -/
def excess (d p : Nat) : Nat := d - 1 - (2 ^ p - 1) % d

/-- `2 ^ p / d` rounded up: the multiplier of `p`. -/
def roundUp (d p : Nat) : Nat := (2 ^ p - 1) / d + 1

/-- The loop goes on after `p`: with the quotient by `nc` as a `w`-bit word. -/
def Pending (w nc d p : Nat) : Prop :=
  2 ^ p / nc % 2 ^ w < excess d p ∨ (2 ^ p / nc % 2 ^ w = excess d p ∧ 2 ^ p % nc = 0)

instance (w nc d p : Nat) : Decidable (Pending w nc d p) := inferInstanceAs (Decidable (_ ∨ _))

/-- The variables of the loop at `p`. -/
def Tracks (w nc d p : Nat) (s : UDivState) : Prop :=
  s.p = p ∧ s.q1.toNat = 2 ^ p / nc % 2 ^ w ∧ s.r1.toNat = 2 ^ p % nc ∧
    s.q2.toNat = (2 ^ p - 1) / d % 2 ^ w ∧ s.r2.toNat = (2 ^ p - 1) % d ∧
    (s.is_add = true ↔ 2 ^ w ≤ roundUp d p)

section UnsignedLoop

variable {w p : Nat} {d nc : UInt64} {s : UDivState}

theorem two_pow_succ_sub_one (p : Nat) : 2 ^ (p + 1) - 1 = 2 * (2 ^ p - 1) + 1 := by
  have := Nat.two_pow_pos p
  rw [pow_succ]
  omega

theorem two_mul_mod_add (x m b : Nat) : (2 * (x % m) + b) % m = (2 * x + b) % m := by
  rw [Nat.add_mod, Nat.mul_mod, Nat.mod_mod, ← Nat.mul_mod, ← Nat.add_mod]

section Step

variable {signed_min signed_max : UInt64}

/-- The first block of a step doubles the quotient and remainder by `nc`. -/
theorem udivStep_first (signed_min signed_max : UInt64) (hw : w ≤ 64) (hnc : 0 < nc.toNat)
    (hnc' : nc.toNat < 2 ^ w)
    (h : Tracks w nc.toNat d.toNat p s) :
    (udivStep d nc signed_min signed_max w s).q1.toNat = 2 ^ (p + 1) / nc.toNat % 2 ^ w ∧
      (udivStep d nc signed_min signed_max w s).r1.toNat = 2 ^ (p + 1) % nc.toNat := by
  obtain ⟨-, hq1, hr1, -⟩ := h
  have hr1lt := Nat.mod_lt (2 ^ p) hnc
  have hM := Nat.two_pow_pos w
  have hdiv := two_mul_add_div (x := 2 ^ p) (b := 0) hnc (by decide)
  have hmod := two_mul_add_mod (x := 2 ^ p) (b := 0) hnc (by decide)
  simp only [Nat.add_zero, ← pow_succ'] at hdiv hmod
  have hdiff : (subMod nc s.r1 w).toNat = nc.toNat - s.r1.toNat :=
    subMod_toNat_of_le hw hnc' (by omega)
  have hcond : s.r1 ≥ subMod nc s.r1 w ↔ nc.toNat ≤ 2 * (2 ^ p % nc.toNat) := by
    rw [ge_iff_le, UInt64.le_iff_toNat_le, hdiff]
    omega
  unfold udivStep
  by_cases hc : nc.toNat ≤ 2 * (2 ^ p % nc.toNat)
  · rw [if_pos hc] at hdiv hmod
    simp only [hcond.mpr hc, if_true]
    refine ⟨?_, ?_⟩
    · rw [shl1Mod_succ_toNat hw, hq1, two_mul_mod_add, hdiv]
    · rw [subMod_toNat hw (by rw [shl1Mod_toNat hw]; exact Nat.mod_lt _ hM) hnc'.le,
        shl1Mod_toNat hw, hr1, Nat.mod_add_mod, hmod,
        show 2 * (2 ^ p % nc.toNat) + (2 ^ w - nc.toNat) =
          2 * (2 ^ p % nc.toNat) - nc.toNat + 2 ^ w by omega, Nat.add_mod_right,
        Nat.mod_eq_of_lt (by omega)]
  · rw [if_neg hc] at hdiv hmod
    simp only [mt hcond.mp hc, if_false]
    refine ⟨?_, ?_⟩
    · rw [shl1Mod_toNat hw, hq1, ← Nat.add_zero (2 * _), two_mul_mod_add, Nat.add_zero, hdiv]
    · rw [shl1Mod_toNat hw, hr1, hmod, Nat.mod_eq_of_lt (by omega)]

/-- The second block doubles those by `d`, and sets the flag where the multiplier
    stops fitting in a word. -/
theorem udivStep_second (hw : 2 ≤ w ∧ w ≤ 64) (hd : 0 < d.toNat) (hd' : d.toNat < 2 ^ w)
    (hmin : signed_min.toNat = 2 ^ (w - 1)) (hmax : signed_max.toNat = 2 ^ (w - 1) - 1)
    (h : Tracks w nc.toNat d.toNat p s) :
    (udivStep d nc signed_min signed_max w s).q2.toNat =
        (2 ^ (p + 1) - 1) / d.toNat % 2 ^ w ∧
      (udivStep d nc signed_min signed_max w s).r2.toNat = (2 ^ (p + 1) - 1) % d.toNat ∧
      ((udivStep d nc signed_min signed_max w s).is_add = true ↔
        2 ^ w ≤ roundUp d.toNat (p + 1)) := by
  obtain ⟨-, -, -, hq2, hr2, hadd⟩ := h
  obtain ⟨H, hH⟩ : ∃ H, H = 2 ^ (w - 1) := ⟨_, rfl⟩
  have hhalf : 2 ^ w = 2 * H := by
    rw [hH, ← pow_succ']
    congr 1
    omega
  rw [← hH] at hmin hmax
  have hr2lt := Nat.mod_lt (2 ^ p - 1) hd
  have hM := Nat.two_pow_pos w
  have hdiv := two_mul_add_div (x := 2 ^ p - 1) (b := 1) hd (by decide)
  have hmod := two_mul_add_mod (x := 2 ^ p - 1) (b := 1) hd (by decide)
  rw [← two_pow_succ_sub_one] at hdiv hmod
  have hdiff : (subMod d s.r2 w).toNat = d.toNat - s.r2.toNat :=
    subMod_toNat_of_le hw.2 hd' (by omega)
  have hsucc : (addMod s.r2 1 w).toNat = s.r2.toNat + 1 := by
    rw [addMod_toNat hw.2, UInt64.toNat_one, Nat.mod_eq_of_lt (by omega)]
  have hcond : addMod s.r2 1 w ≥ subMod d s.r2 w ↔
      d.toNat ≤ 2 * ((2 ^ p - 1) % d.toNat) + 1 := by
    rw [ge_iff_le, UInt64.le_iff_toNat_le, hdiff, hsucc]
    omega
  -- as long as the flag is clear the quotient is not reduced
  have hwrap : ∀ x, (2 ^ p - 1) / d.toNat + 1 < 2 ^ w →
      (x ≤ s.q2.toNat ↔ x ≤ (2 ^ p - 1) / d.toNat) := fun x hlt => by
    rw [hq2, Nat.mod_eq_of_lt (by omega)]
  unfold udivStep
  unfold roundUp at hadd ⊢
  by_cases hc : d.toNat ≤ 2 * ((2 ^ p - 1) % d.toNat) + 1
  · rw [if_pos hc] at hdiv hmod
    simp only [hcond.mpr hc, if_true]
    refine ⟨?_, ?_, ?_⟩
    · rw [shl1Mod_succ_toNat hw.2, hq2, two_mul_mod_add, hdiv]
    · rw [subMod_toNat hw.2 (by rw [shl1Mod_succ_toNat hw.2]; exact Nat.mod_lt _ hM) hd'.le,
        shl1Mod_succ_toNat hw.2, hr2, Nat.mod_add_mod, hmod,
        show 2 * ((2 ^ p - 1) % d.toNat) + 1 + (2 ^ w - d.toNat) =
          2 * ((2 ^ p - 1) % d.toNat) + 1 - d.toNat + 2 ^ w by omega, Nat.add_mod_right,
        Nat.mod_eq_of_lt (by omega)]
    · rw [hdiv]
      by_cases hlt : (2 ^ p - 1) / d.toNat + 1 < 2 ^ w
      · have hx := hwrap (H - 1) hlt
        have hno : ¬ s.is_add = true := fun h => absurd (hadd.mp h) (by omega)
        simp only [ge_iff_le, UInt64.le_iff_toNat_le, hmax, hx]
        split <;> simp only [hno, Bool.false_eq_true, true_iff, false_iff] <;> omega
      · rw [hadd.mpr (by omega), ite_self]
        exact iff_of_true rfl (by omega)
  · rw [if_neg hc] at hdiv hmod
    simp only [mt hcond.mp hc, if_false]
    refine ⟨?_, ?_, ?_⟩
    · rw [shl1Mod_toNat hw.2, hq2, ← Nat.add_zero (2 * _), two_mul_mod_add, Nat.add_zero, hdiv]
    · rw [shl1Mod_succ_toNat hw.2, hr2, hmod, Nat.mod_eq_of_lt (by omega)]
    · rw [hdiv]
      by_cases hlt : (2 ^ p - 1) / d.toNat + 1 < 2 ^ w
      · have hx := hwrap H hlt
        have hno : ¬ s.is_add = true := fun h => absurd (hadd.mp h) (by omega)
        simp only [ge_iff_le, UInt64.le_iff_toNat_le, hmin, hx]
        split <;> simp only [hno, Bool.false_eq_true, true_iff, false_iff] <;> omega
      · rw [hadd.mpr (by omega), ite_self]
        exact iff_of_true rfl (by omega)

/-- A step of the loop leads from `p` to `p + 1`. -/
theorem udivStep_tracks (hw : 2 ≤ w ∧ w ≤ 64) (hnc : 0 < nc.toNat ∧ nc.toNat < 2 ^ w)
    (hd : 0 < d.toNat ∧ d.toNat < 2 ^ w) (hmin : signed_min.toNat = 2 ^ (w - 1))
    (hmax : signed_max.toNat = 2 ^ (w - 1) - 1) (h : Tracks w nc.toNat d.toNat p s) :
    Tracks w nc.toNat d.toNat (p + 1) (udivStep d nc signed_min signed_max w s) ∧
      (udivStep d nc signed_min signed_max w s).delta.toNat = excess d.toNat (p + 1) := by
  obtain ⟨hq1, hr1⟩ := udivStep_first signed_min signed_max hw.2 hnc.1 hnc.2 h
  obtain ⟨hq2, hr2, hadd⟩ := udivStep_second hw hd.1 hd.2 hmin hmax h
  refine ⟨⟨congrArg (· + 1) h.1, hq1, hr1, hq2, hr2, hadd⟩, ?_⟩
  have hrlt := Nat.mod_lt (2 ^ (p + 1) - 1) hd.1
  have hpred : (subMod d 1 w).toNat = d.toNat - 1 :=
    subMod_toNat_of_le hw.2 hd.2 (by rw [UInt64.toNat_one]; omega)
  show (subMod (subMod d 1 w) (udivStep d nc signed_min signed_max w s).r2 w).toNat = _
  rw [subMod_toNat_of_le hw.2 (by omega) (by rw [hr2, hpred]; omega), hpred, hr2]
  rfl

/-- The loop stops at the first exponent that is not pending, `2 * w` at the
    latest. -/
theorem udivLoop_spec (hw : 2 ≤ w ∧ w ≤ 64) (hnc : 0 < nc.toNat ∧ nc.toNat < 2 ^ w)
    (hd : 0 < d.toNat ∧ d.toNat < 2 ^ w) (hmin : signed_min.toNat = 2 ^ (w - 1))
    (hmax : signed_max.toNat = 2 ^ (w - 1) - 1) (fuel : Nat) (hp : p < 2 * w)
    (hfuel : 2 * w ≤ p + fuel) (h : Tracks w nc.toNat d.toNat p s) :
    ∃ s' p', udivLoop d nc signed_min signed_max w fuel s = .ok s' ∧
      Tracks w nc.toNat d.toNat p' s' ∧ p < p' ∧ p' ≤ 2 * w ∧
      (∀ i, p < i → i < p' → Pending w nc.toNat d.toNat i) ∧
      (p' < 2 * w → ¬ Pending w nc.toNat d.toNat p') := by
  induction fuel generalizing p s with
  | zero => omega
  | succ fuel ih =>
    obtain ⟨hstep, hdelta⟩ := udivStep_tracks hw hnc hd hmin hmax h
    unfold udivLoop
    -- the test of the loop, in values
    have hcond : ((udivStep d nc signed_min signed_max w s).p < w * 2 ∧
        ((udivStep d nc signed_min signed_max w s).q1 <
            (udivStep d nc signed_min signed_max w s).delta ∨
          ((udivStep d nc signed_min signed_max w s).q1 =
              (udivStep d nc signed_min signed_max w s).delta ∧
            (udivStep d nc signed_min signed_max w s).r1 = 0))) ↔
        p + 1 < 2 * w ∧ Pending w nc.toNat d.toNat (p + 1) := by
      obtain ⟨hp', hq1, hr1, -⟩ := hstep
      rw [UInt64.lt_iff_toNat_lt, ← UInt64.toNat_inj, eq_zero_iff_toNat, hdelta, hp', hq1, hr1,
        Nat.mul_comm]
      exact Iff.rfl
    simp only [hcond]
    by_cases hc : p + 1 < 2 * w ∧ Pending w nc.toNat d.toNat (p + 1)
    · rw [if_pos hc]
      obtain ⟨s', p', hrun, htr, hlt, hle, hall, hstop⟩ := ih hc.1 (by omega) hstep
      refine ⟨s', p', hrun, htr, by omega, hle, fun i hi hi' => ?_, hstop⟩
      rcases Nat.lt_or_eq_of_le (show p + 1 ≤ i by omega) with h' | rfl
      · exact hall i h' hi'
      · exact hc.2
    · rw [if_neg hc]
      exact ⟨_, p + 1, rfl, hstep, by omega, by omega, fun i hi hi' => absurd hi' (by omega),
        fun hlt hpend => hc ⟨hlt, hpend⟩⟩

end Step

end UnsignedLoop

/-! ## The exponent the loop stops at -/

section Exponent

variable {w p d nc n : Nat}

theorem excess_lt (hd : 0 < d) : excess d p < d := by
  unfold excess
  omega

theorem roundUp_mul (hd : 0 < d) : roundUp d p * d = 2 ^ p + excess d p := by
  have hdiv := Nat.div_add_mod (2 ^ p - 1) d
  have hr := Nat.mod_lt (2 ^ p - 1) hd
  have hpos := Nat.two_pow_pos p
  unfold roundUp excess
  rw [Nat.add_mul, Nat.one_mul, Nat.mul_comm]
  omega

/-- Stopping means that the error of the multiplier fits. -/
theorem error_lt_of_not_pending (hnc : 0 < nc) (h : ¬ Pending w nc d p) :
    nc * excess d p < 2 ^ p := by
  obtain ⟨h1, h2⟩ := not_or.mp h
  have hdiv := Nat.div_add_mod (2 ^ p) nc
  have hle : 2 ^ p / nc % 2 ^ w ≤ 2 ^ p / nc := Nat.mod_le _ _
  rcases Nat.lt_or_eq_of_le (show excess d p ≤ 2 ^ p / nc by omega) with hlt | heq
  · have hmul : nc * (excess d p + 1) ≤ nc * (2 ^ p / nc) := Nat.mul_le_mul_left nc hlt
    rw [Nat.mul_succ] at hmul
    omega
  · have hr : 2 ^ p % nc ≠ 0 := fun h0 => h2 ⟨by omega, h0⟩
    rw [heq]
    omega

/-- As long as the quotient by `nc` is a word the converse holds. -/
theorem not_pending_of_error_lt (hnc : 0 < nc) (hword : 2 ^ p / nc < 2 ^ w)
    (h : nc * excess d p < 2 ^ p) : ¬ Pending w nc d p := by
  have hdiv := Nat.div_add_mod (2 ^ p) nc
  have hle : excess d p ≤ 2 ^ p / nc := (Nat.le_div_iff_mul_le hnc).mpr (by
    rw [Nat.mul_comm]
    exact h.le)
  unfold Pending
  rw [Nat.mod_eq_of_lt hword]
  rintro (hlt | ⟨heq, hr⟩)
  · omega
  · rw [← heq] at h
    omega

/-- The multiplier stops fitting in `w` bits at `w` more than the length of the
    divisor. -/
theorem two_pow_le_roundUp_iff (hd : 2 ≤ d) (hd' : d < 2 ^ w) :
    2 ^ w ≤ roundUp d p ↔ w + Nat.clog 2 d ≤ p := by
  have hup : d ≤ 2 ^ Nat.clog 2 d := Nat.le_pow_clog (by decide) d
  have hlow : 2 ^ (Nat.clog 2 d).pred < d := Nat.pow_pred_clog_lt_self (by decide) hd
  have hpos : 0 < Nat.clog 2 d := Nat.clog_pos (by decide) hd
  have hp := Nat.two_pow_pos p
  have hw := Nat.two_pow_pos w
  unfold roundUp
  constructor
  · intro h
    by_contra hlt
    have hpow : 2 ^ p ≤ 2 ^ w * (d - 1) :=
      calc 2 ^ p ≤ 2 ^ (w + (Nat.clog 2 d).pred) := Nat.pow_le_pow_right (by decide) (by
            rw [Nat.pred_eq_sub_one]
            omega)
        _ = 2 ^ w * 2 ^ (Nat.clog 2 d).pred := pow_add 2 _ _
        _ ≤ 2 ^ w * (d - 1) := Nat.mul_le_mul_left _ (by omega)
    have hle : (2 ^ w - 1) * d ≤ 2 ^ p - 1 :=
      (Nat.le_div_iff_mul_le (by omega)).mp (by omega)
    have hexp : 2 ^ w * (d - 1) + 2 ^ w = 2 ^ w * d := by
      rw [← Nat.mul_succ, Nat.succ_eq_add_one, Nat.sub_add_cancel (by omega)]
    rw [Nat.sub_mul, Nat.one_mul] at hle
    omega
  · intro h
    have hpow : 2 ^ w * d ≤ 2 ^ p :=
      calc 2 ^ w * d ≤ 2 ^ w * 2 ^ Nat.clog 2 d := Nat.mul_le_mul_left _ hup
        _ = 2 ^ (w + Nat.clog 2 d) := (pow_add 2 _ _).symm
        _ ≤ 2 ^ p := Nat.pow_le_pow_right (by decide) h
    have hle : 2 ^ w - 1 ≤ (2 ^ p - 1) / d := (Nat.le_div_iff_mul_le (by omega)).mpr (by
      rw [Nat.sub_mul, Nat.one_mul]
      omega)
    omega

/-- `p` is the exponent the loop returns with. -/
structure Runs (w nc d p : Nat) : Prop where
  ge : w ≤ p
  le : p ≤ 2 * w
  pending : ∀ i, w ≤ i → i < p → Pending w nc d i
  stop : p < 2 * w → ¬ Pending w nc d p

theorem Runs.error_lt (h : Runs w nc d p) (hnc : 0 < nc) (hnc' : nc < 2 ^ w) (hd : 0 < d)
    (hd' : d < 2 ^ w) : nc * excess d p < 2 ^ p := by
  rcases Nat.lt_or_eq_of_le h.le with hlt | rfl
  · exact error_lt_of_not_pending hnc (h.stop hlt)
  · rw [two_mul, pow_add]
    exact Nat.mul_lt_mul'' hnc' ((excess_lt hd).trans hd')

/-- A divisor of at most half a word keeps the quotient by `nc` a word: while the
    loop goes on it is below the divisor. -/
theorem Runs.quotient_lt (h : Runs w nc d p) (hnc : 2 ≤ nc) (hd : 0 < d) (hd' : 2 * d ≤ 2 ^ w)
    (i : Nat) (hi : w ≤ i) (hip : i ≤ p) : 2 ^ i / nc < 2 ^ w := by
  induction i, hi using Nat.le_induction with
  | base => exact Nat.div_lt_self (Nat.two_pow_pos w) hnc
  | succ i hi ih =>
    have hlt := ih (by omega)
    have hle : 2 ^ i / nc ≤ excess d i := by
      have hpend := h.pending i hi (by omega)
      unfold Pending at hpend
      rw [Nat.mod_eq_of_lt hlt] at hpend
      omega
    have hex := excess_lt (p := i) hd
    have hdouble := two_mul_add_div (x := 2 ^ i) (b := 0) (show 0 < nc by omega) (by decide)
    rw [Nat.add_zero, ← pow_succ'] at hdouble
    rw [hdouble]
    split <;> omega

/-- The loop returns before the multiplier has grown two bits too wide. -/
theorem Runs.le_add_clog (h : Runs w nc d p) (hnc : 2 ≤ nc) (hnc' : nc < 2 ^ w) (hd : 2 ≤ d)
    (hd' : d < 2 ^ w) : p ≤ w + Nat.clog 2 d := by
  have hup : d ≤ 2 ^ Nat.clog 2 d := Nat.le_pow_clog (by decide) d
  have hle : Nat.clog 2 d ≤ w := Nat.clog_le_of_le_pow hd'.le
  rcases Nat.lt_or_eq_of_le hle with hlt | heq
  · by_contra hp
    have hhalf : 2 * d ≤ 2 ^ w :=
      calc 2 * d ≤ 2 * 2 ^ Nat.clog 2 d := Nat.mul_le_mul_left 2 hup
        _ = 2 ^ (Nat.clog 2 d + 1) := (pow_succ' 2 _).symm
        _ ≤ 2 ^ w := Nat.pow_le_pow_right (by decide) hlt
    refine not_pending_of_error_lt (by omega)
      (h.quotient_lt hnc (by omega) hhalf (w + Nat.clog 2 d) (by omega) (by omega)) ?_
      (h.pending (w + Nat.clog 2 d) (by omega) (by omega))
    rw [pow_add]
    exact Nat.mul_lt_mul_of_lt_of_le hnc' ((excess_lt (by omega)).le.trans hup)
      (Nat.two_pow_pos _)
  · have := h.le
    omega

end Exponent

/-! ## The sequence of a magic number -/

/-- What the loop's exponent is turned into. -/
def magicAt (w d p : Nat) : UDivMagic64 :=
  ⟨UInt64.ofNat (roundUp d p % 2 ^ w), 0,
    if 2 ^ w ≤ roundUp d p then p - w - 1 else p - w, decide (2 ^ w ≤ roundUp d p)⟩

section Sequence

variable {w p d : Nat} {m : UDivMagic64} {n : BitVec w}

theorem mulHighU_toNat (hw : m.magic.toNat < 2 ^ w) :
    (mulHighU n (BitVec.ofNat w m.magic.toNat)).toNat = n.toNat * m.magic.toNat / 2 ^ w ∧
      n.toNat * m.magic.toNat / 2 ^ w ≤ n.toNat := by
  have hle : n.toNat * m.magic.toNat / 2 ^ w ≤ n.toNat := by
    rw [Nat.div_le_iff_le_mul_add_pred (Nat.two_pow_pos w)]
    have := Nat.mul_le_mul_left n.toNat hw.le
    rw [Nat.mul_comm (2 ^ w)]
    omega
  refine ⟨?_, hle⟩
  rw [mulHighU, BitVec.toNat_ofNat, BitVec.toNat_ofNat, Nat.mod_eq_of_lt hw,
    Nat.mod_eq_of_lt (by have := n.isLt; omega)]

theorem ite_shift_toNat (n : BitVec w) (k : Nat) :
    (if k ≠ 0 then n >>> k else n).toNat = n.toNat / 2 ^ k := by
  split
  · rw [BitVec.toNat_ushiftRight, Nat.shiftRight_eq_div_pow]
  · rename_i h
    rw [not_not.mp h, pow_zero, Nat.div_one]

/-- Without the add step: a shift, a product and a shift. -/
theorem udivSequence_toNat_of_mul (hw : m.magic.toNat < 2 ^ w) (hadd : m.isAdd = false) :
    (udivSequence m n).toNat =
      n.toNat / 2 ^ m.preShift * m.magic.toNat / 2 ^ (w + m.postShift) := by
  unfold udivSequence
  simp only [hadd, Bool.false_eq_true, if_false]
  rw [ite_shift_toNat, (mulHighU_toNat hw).1, ite_shift_toNat, Nat.div_div_eq_div_mul, ← pow_add]

/-- With the add step the product is by the multiplier with its top bit. -/
theorem udivSequence_toNat_of_add (hw : m.magic.toNat < 2 ^ w) (hadd : m.isAdd = true)
    (hpre : m.preShift = 0) :
    (udivSequence m n).toNat =
      n.toNat * (2 ^ w + m.magic.toNat) / 2 ^ (w + (m.postShift + 1)) := by
  obtain ⟨hmul, hle⟩ := mulHighU_toNat (n := n) hw
  have hn := n.isLt
  unfold udivSequence
  simp only [hadd, if_true]
  rw [if_neg (not_not.mpr hpre)]
  refine (ite_shift_toNat _ _).trans ?_
  rw [BitVec.toNat_add, BitVec.toNat_ushiftRight, BitVec.toNat_sub_of_le (by
    rw [BitVec.le_def, hmul]
    exact hle), hmul, Nat.shiftRight_eq_div_pow, pow_one, halved_sub_add hle,
    Nat.mod_eq_of_lt (by omega), average_div (Nat.two_pow_pos w), ← pow_add]

/-- The multiplier a magic number stands for. -/
def effective (w d p : Nat) : Nat :=
  if 2 ^ w ≤ roundUp d p then 2 ^ w + roundUp d p % 2 ^ w else roundUp d p

theorem magicAt_magic_toNat (hw : w ≤ 64) : (magicAt w d p).magic.toNat = roundUp d p % 2 ^ w := by
  have hlt := Nat.mod_lt (roundUp d p) (Nat.two_pow_pos w)
  have hle : 2 ^ w ≤ 2 ^ 64 := Nat.pow_le_pow_right (by decide) hw
  rw [magicAt, UInt64.toNat_ofNat', Nat.mod_eq_of_lt (by omega)]

theorem udivSequence_magicAt (hw : w ≤ 64) (hp : w ≤ p) (hadd : 2 ^ w ≤ roundUp d p → w < p) :
    (udivSequence (magicAt w d p) n).toNat = n.toNat * effective w d p / 2 ^ p := by
  have hmagic := magicAt_magic_toNat (d := d) (p := p) hw
  have hlt := Nat.mod_lt (roundUp d p) (Nat.two_pow_pos w)
  unfold effective
  by_cases h : 2 ^ w ≤ roundUp d p
  · have hwp := hadd h
    have hpost : (magicAt w d p).postShift = p - w - 1 := if_pos h
    rw [if_pos h, udivSequence_toNat_of_add (by omega) (decide_eq_true h) rfl, hmagic, hpost,
      show w + (p - w - 1 + 1) = p by omega]
  · rw [if_neg h, udivSequence_toNat_of_mul (by omega) (decide_eq_false h), hmagic,
      Nat.mod_eq_of_lt (by omega)]
    have hpost : (magicAt w d p).postShift = p - w := if_neg h
    rw [hpost, show (magicAt w d p).preShift = 0 from rfl, pow_zero, Nat.div_one,
      show w + (p - w) = p by omega]

end Sequence

/-! ## The unsigned computation -/

/-- `nc` for numerators of `k` bits, with the wrap-around of the words: what is
    left of the greatest numerator below a multiple of `d`. -/
def magicNc (w k d : Nat) : Nat :=
  (2 ^ k - 1 + (2 ^ w - (2 ^ k % 2 ^ w + (2 ^ w - d)) % 2 ^ w % d)) % 2 ^ w

section Compute

variable {w lz depth p : Nat} {divisor : UInt64} {allow : Bool}

theorem and_mask_eq (hw : w ≤ 64) (hd : divisor.toNat < 2 ^ w) :
    divisor &&& maskForWidth w = divisor := by
  rw [← UInt64.toNat_inj, and_mask_toNat hw, Nat.mod_eq_of_lt hd]

theorem and_one_eq_zero_iff {a : UInt64} : a &&& 1 = 0 ↔ a.toNat % 2 = 0 := by
  rw [eq_zero_iff_toNat, UInt64.toNat_and, UInt64.toNat_one, Nat.and_one_is_mod]

/-- The word `nc` of the computation. -/
theorem nc_toNat (hw : w ≤ 64) (hlz : lz < w) (hd : 0 < divisor.toNat)
    (hd' : divisor.toNat < 2 ^ w) :
    (subMod (lowBitsSet (w - lz))
      (subMod (addMod (lowBitsSet (w - lz)) 1 w) divisor w % divisor) w).toNat =
      magicNc w (w - lz) divisor.toNat := by
  have hM := Nat.two_pow_pos w
  have hL := Nat.two_pow_pos (w - lz)
  have hle : 2 ^ (w - lz) ≤ 2 ^ w := Nat.pow_le_pow_right (by decide) (by omega)
  have hones := lowBitsSet_toNat (w := w - lz) (by omega)
  have hadd : (addMod (lowBitsSet (w - lz)) 1 w).toNat = 2 ^ (w - lz) % 2 ^ w := by
    rw [addMod_toNat hw, hones, UInt64.toNat_one, Nat.sub_add_cancel hL]
  have htmp : (subMod (addMod (lowBitsSet (w - lz)) 1 w) divisor w).toNat =
      (2 ^ (w - lz) % 2 ^ w + (2 ^ w - divisor.toNat)) % 2 ^ w := by
    rw [subMod_toNat hw (by rw [hadd]; exact Nat.mod_lt _ hM) hd'.le, hadd]
  have hrem := Nat.mod_lt ((2 ^ (w - lz) % 2 ^ w + (2 ^ w - divisor.toNat)) % 2 ^ w) hd
  rw [subMod_toNat hw (by omega) (by rw [UInt64.toNat_mod, htmp]; omega), UInt64.toNat_mod, htmp,
    hones]
  rfl

/-- The tail of the computation after the loop has returned at `p`. -/
theorem magicAt_eq {s : UDivState} {nc d : Nat} (hw : w ≤ 64) (h : Tracks w nc d p s) (post : Nat)
    (hpost : post = if 2 ^ w ≤ roundUp d p then p - w - 1 else p - w) :
    (⟨addMod s.q2 1 w, 0, post, s.is_add⟩ : UDivMagic64) = magicAt w d p := by
  obtain ⟨-, -, -, hq2, -, hadd⟩ := h
  have hmagic : addMod s.q2 1 w = UInt64.ofNat (roundUp d p % 2 ^ w) := by
    rw [← UInt64.toNat_inj, addMod_toNat hw, hq2, UInt64.toNat_one, Nat.mod_add_mod]
    exact (magicAt_magic_toNat hw).symm
  have hflag : s.is_add = decide (2 ^ w ≤ roundUp d p) := by
    rw [Bool.eq_iff_iff, hadd, decide_eq_true_iff]
  rw [magicAt, hmagic, hflag, hpost]

/-- A zero `nc` is divided by before the loop. -/
theorem computeUDivMagic64Rec_of_zero (hw : 2 ≤ w ∧ w ≤ 64) (hlz : lz < w)
    (hd : 2 ≤ divisor.toNat) (hd' : divisor.toNat < 2 ^ w)
    (hnc : magicNc w (w - lz) divisor.toNat = 0) :
    computeUDivMagic64Rec (depth + 1) divisor w lz allow = .error .divisionByZero := by
  have hzero := nc_toNat hw.2 hlz (by omega) hd'
  rw [hnc, ← eq_zero_iff_toNat] at hzero
  have hne : divisor ≠ 0 ∧ divisor ≠ 1 := by
    rw [ne_eq, ne_eq, eq_zero_iff_toNat, eq_one_iff_toNat]
    omega
  rw [computeUDivMagic64Rec, throwAssert_of (by omega), ok_bind, throwAssert_of hlz, ok_bind,
    and_mask_eq hw.2 hd']
  dsimp only
  rw [throwAssert_of hne, ok_bind]
  simp only [hzero]
  rfl

/-- Otherwise the loop runs, and the result is the magic number of its exponent
    or the one of the odd part of an even divisor. -/
theorem computeUDivMagic64Rec_of_ne (depth : Nat) (divisor : UInt64) (allow : Bool)
    (hw : 2 ≤ w ∧ w ≤ 64) (hlz : lz < w) (hd : 2 ≤ divisor.toNat) (hd' : divisor.toNat < 2 ^ w)
    (hnc : magicNc w (w - lz) divisor.toNat ≠ 0) :
    ∃ p, Runs w (magicNc w (w - lz) divisor.toNat) divisor.toNat p ∧
      computeUDivMagic64Rec (depth + 1) divisor w lz allow =
        if 2 ^ w ≤ roundUp divisor.toNat p ∧ divisor.toNat % 2 = 0 ∧ allow = true then (do
          let inner ← computeUDivMagic64Rec depth (divisor >>> UInt64.ofNat (ctzll 64 divisor)) w
            (lz + ctzll 64 divisor) true
          throwAssert (¬ inner.isAdd = true ∧ inner.preShift = 0)
            "Unexpected even-divisor optimization state"
          .ok { inner with preShift := ctzll 64 divisor })
        else .ok (magicAt w divisor.toNat p) := by
  have hncv := nc_toNat hw.2 hlz (by omega) hd'
  have hne : divisor ≠ 0 ∧ divisor ≠ 1 := by
    rw [ne_eq, ne_eq, eq_zero_iff_toNat, eq_one_iff_toNat]
    omega
  have hnclt : magicNc w (w - lz) divisor.toNat < 2 ^ w := Nat.mod_lt _ (Nat.two_pow_pos w)
  have hmin : ((1 : UInt64) <<< UInt64.ofNat (w - 1)).toNat = 2 ^ (w - 1) :=
    one_shiftLeft_toNat (by omega)
  have hmax : ((1 : UInt64) <<< UInt64.ofNat (w - 1) - 1).toNat = 2 ^ (w - 1) - 1 :=
    ones_toNat (by omega)
  have hhalf : 2 ^ (w - 1) < 2 ^ w := Nat.pow_lt_pow_right (by decide) (by omega)
  generalize hN : subMod (lowBitsSet (w - lz))
    (subMod (addMod (lowBitsSet (w - lz)) 1 w) divisor w % divisor) w = nc at hncv
  rw [← hncv] at hnclt hnc ⊢
  obtain ⟨q1, r1, h1, hq1, hr1⟩ := udivremU64_of_ne (a := 1 <<< UInt64.ofNat (w - 1)) hnc
  obtain ⟨q2, r2, h2, hq2, hr2⟩ := udivremU64_of_ne (a := 1 <<< UInt64.ofNat (w - 1) - 1)
    (b := divisor) (by omega)
  rw [hmin] at hq1 hr1
  rw [hmax] at hq2 hr2
  -- the divisions before the loop make its invariant hold at `w - 1`
  have hinit : Tracks w nc.toNat divisor.toNat (w - 1) ⟨w - 1, q1, r1, q2, r2, 0, false⟩ := by
    have hle1 : 2 ^ (w - 1) / nc.toNat ≤ 2 ^ (w - 1) := Nat.div_le_self _ _
    have hle2 : (2 ^ (w - 1) - 1) / divisor.toNat ≤ 2 ^ (w - 1) - 1 := Nat.div_le_self _ _
    refine ⟨rfl, ?_, hr1, ?_, hr2, ?_⟩
    · rw [hq1, Nat.mod_eq_of_lt (by omega)]
    · rw [hq2, Nat.mod_eq_of_lt (by omega)]
    · have := Nat.two_pow_pos (w - 1)
      unfold roundUp
      exact iff_of_false Bool.false_ne_true (by omega)
  obtain ⟨s, p, hrun, htr, hlt, hle, hpend, hstop⟩ := udivLoop_spec hw ⟨by omega, hnclt⟩
    ⟨by omega, hd'⟩ hmin hmax (2 * w) (by omega) (by omega) hinit
  have hruns : Runs w nc.toNat divisor.toNat p :=
    ⟨by omega, hle, fun i hi hip => hpend i (by omega) hip, hstop⟩
  refine ⟨p, hruns, ?_⟩
  rw [computeUDivMagic64Rec, throwAssert_of (by omega), ok_bind, throwAssert_of hlz, ok_bind,
    and_mask_eq hw.2 hd']
  dsimp only
  rw [throwAssert_of hne, ok_bind]
  simp only [hN, h1, h2, hrun, ok_bind, and_one_eq_zero_iff, htr.2.2.2.2.2, htr.1]
  by_cases heven : 2 ^ w ≤ roundUp divisor.toNat p ∧ divisor.toNat % 2 = 0 ∧ allow = true
  · rw [if_pos heven, if_pos heven]
  · rw [if_neg heven, if_neg heven]
    by_cases hadd : 2 ^ w ≤ roundUp divisor.toNat p
    · have hlow := (two_pow_le_roundUp_iff hd hd').mp hadd
      have hpos : 0 < Nat.clog 2 divisor.toNat := Nat.clog_pos (by decide) hd
      rw [if_pos hadd, throwAssert_of (by omega), ok_bind,
        magicAt_eq hw.2 htr _ (by rw [if_pos hadd])]
    · rw [if_neg hadd, magicAt_eq hw.2 htr _ (by rw [if_neg hadd])]

end Compute

/-! ### Divisors among the numerators -/

section Within

variable {w k d p n : Nat}

/-- No wrap-around when the divisor is a numerator. -/
theorem magicNc_of_lt (hk : k ≤ w) (hd : 0 < d) (hd' : d < 2 ^ k) :
    magicNc w k d = 2 ^ k - 1 - 2 ^ k % d := by
  have hle : 2 ^ k ≤ 2 ^ w := Nat.pow_le_pow_right (by decide) hk
  have hr := Nat.mod_lt (2 ^ k) hd
  have htmp : (2 ^ k % 2 ^ w + (2 ^ w - d)) % 2 ^ w = 2 ^ k - d := by
    rcases Nat.lt_or_eq_of_le hle with hlt | heq
    · rw [Nat.mod_eq_of_lt hlt, show 2 ^ k + (2 ^ w - d) = 2 ^ k - d + 2 ^ w by omega,
        Nat.add_mod_right, Nat.mod_eq_of_lt (by omega)]
    · rw [heq, Nat.mod_self, Nat.zero_add, Nat.mod_eq_of_lt (by omega)]
  have hrem : (2 ^ k - d) % d = 2 ^ k % d := by
    rw [← Nat.add_mod_right (2 ^ k - d) d, Nat.sub_add_cancel hd'.le]
  unfold magicNc
  rw [htmp, hrem, show 2 ^ k - 1 + (2 ^ w - 2 ^ k % d) = 2 ^ k - 1 - 2 ^ k % d + 2 ^ w by omega,
    Nat.add_mod_right, Nat.mod_eq_of_lt (by omega)]

/-- `nc` is one less than a multiple of the divisor, the last one the numerators
    reach. -/
theorem magicNc_spec (hk : k ≤ w) (hd : 2 ≤ d) (hd' : d < 2 ^ k) :
    d ∣ magicNc w k d + 1 ∧ 2 ≤ magicNc w k d ∧ magicNc w k d < 2 ^ k ∧
      2 ^ k ≤ magicNc w k d + d := by
  have hdiv := Nat.div_add_mod (2 ^ k) d
  have hr := Nat.mod_lt (2 ^ k) (show 0 < d by omega)
  have hq : 0 < 2 ^ k / d := Nat.div_pos hd'.le (by omega)
  have hnc := magicNc_of_lt hk (by omega) hd'
  have hmul : magicNc w k d + 1 = d * (2 ^ k / d) := by omega
  refine ⟨⟨_, hmul⟩, ?_, by omega, by omega⟩
  rcases Nat.lt_or_eq_of_le hd with hlt | rfl
  · have : d * 1 ≤ d * (2 ^ k / d) := Nat.mul_le_mul_left d hq
    omega
  · -- twice an odd number of at least three
    have hk2 : 2 ≤ k := by
      by_contra h
      have : 2 ^ k ≤ 2 ^ 1 := Nat.pow_le_pow_right (by decide) (by omega)
      omega
    have : 2 ^ 2 ≤ 2 ^ k := Nat.pow_le_pow_right (by decide) hk2
    omega

/-- The sequence multiplies by the whole multiplier. -/
theorem effective_eq (hd : 2 ≤ d) (hd' : d < 2 ^ w) (hp : p ≤ w + Nat.clog 2 d) :
    effective w d p = roundUp d p := by
  have hwide := two_pow_le_roundUp_iff (p := p) hd
    (hd'.trans_le (Nat.pow_le_pow_right (by decide) (Nat.le_succ w)))
  rw [pow_succ] at hwide
  unfold effective
  split
  · rename_i h
    rw [Nat.mod_eq_sub_mod h, Nat.mod_eq_of_lt (by omega)]
    omega
  · rfl

theorem Runs.mul_effective_div (h : Runs w (magicNc w k d) d p) (hk : k ≤ w) (hd : 2 ≤ d)
    (hd' : d < 2 ^ k) (hn : n < 2 ^ k) : n * effective w d p / 2 ^ p = n / d := by
  obtain ⟨hdvd, hnc2, hnclt, hlast⟩ := magicNc_spec hk hd hd'
  have hle : 2 ^ k ≤ 2 ^ w := Nat.pow_le_pow_right (by decide) hk
  rw [effective_eq hd (by omega) (h.le_add_clog hnc2 (by omega) hd (by omega))]
  exact mul_div_eq_div (by omega) (roundUp_mul (by omega)) (error_lt_room (by omega) hdvd
    (h.error_lt (by omega) (by omega) (by omega) (by omega)) (by omega))

/-- For numerators shorter than a word by a bit the multiplier fits in the word. -/
theorem Runs.roundUp_lt (h : Runs w (magicNc w k d) d p) (hk : k < w) (hd : 2 ≤ d)
    (hd' : d < 2 ^ k) : roundUp d p < 2 ^ w := by
  obtain ⟨-, hnc2, hnclt, -⟩ := magicNc_spec hk.le hd hd'
  have hhalf : 2 * 2 ^ k ≤ 2 ^ w := by
    rw [← pow_succ']
    exact Nat.pow_le_pow_right (by decide) hk
  have hpos : 0 < Nat.clog 2 d := Nat.clog_pos (by decide) hd
  by_contra hwide
  have hp := (two_pow_le_roundUp_iff hd (by omega)).mp (Nat.le_of_not_lt hwide)
  refine not_pending_of_error_lt (by omega) (h.quotient_lt hnc2 (by omega) (by omega)
    (w + Nat.clog 2 d - 1) (by omega) (by omega)) ?_
    (h.pending (w + Nat.clog 2 d - 1) (by omega) (by omega))
  calc magicNc w k d * excess d (w + Nat.clog 2 d - 1)
      < 2 ^ k * 2 ^ Nat.clog 2 d := Nat.mul_lt_mul_of_lt_of_le hnclt
        ((excess_lt (by omega)).le.trans (Nat.le_pow_clog (by decide) d)) (Nat.two_pow_pos _)
    _ = 2 ^ (k + Nat.clog 2 d) := (pow_add 2 _ _).symm
    _ ≤ 2 ^ (w + Nat.clog 2 d - 1) := Nat.pow_le_pow_right (by decide) (by omega)

/-- A power of two has no error at all: the loop stops at once. -/
theorem Runs.not_wide_of_two_pow {j : Nat} (h : Runs w (magicNc w k (2 ^ j)) (2 ^ j) p)
    (hk : k ≤ w) (hd : 2 ≤ 2 ^ j) (hd' : 2 ^ j < 2 ^ k) : ¬ 2 ^ w ≤ roundUp (2 ^ j) p := by
  obtain ⟨-, hnc2, hnclt, -⟩ := magicNc_spec hk hd hd'
  have hle : 2 ^ k ≤ 2 ^ w := Nat.pow_le_pow_right (by decide) hk
  have hj : j ≤ w := ((Nat.pow_lt_pow_iff_right (by decide)).mp hd').le.trans hk
  have hex : excess (2 ^ j) w = 0 := by
    have hsplit : 2 ^ w - 1 = 2 ^ j - 1 + 2 ^ j * (2 ^ (w - j) - 1) := by
      have hpow : 2 ^ w = 2 ^ j * 2 ^ (w - j) := by
        rw [← pow_add]
        congr 1
        omega
      rw [Nat.mul_sub, Nat.mul_one, hpow]
      have := Nat.le_mul_of_pos_right (2 ^ j) (Nat.two_pow_pos (w - j))
      omega
    unfold excess
    rw [hsplit, Nat.add_mul_mod_self_left, Nat.mod_eq_of_lt (by omega)]
    omega
  have hstop : ¬ Pending w (magicNc w k (2 ^ j)) (2 ^ j) w :=
    not_pending_of_error_lt (by omega) (Nat.div_lt_self (Nat.two_pow_pos w) hnc2) (by
      rw [hex, Nat.mul_zero]
      exact Nat.two_pow_pos w)
  have hpos : 0 < Nat.clog 2 (2 ^ j) := Nat.clog_pos (by decide) hd
  rw [two_pow_le_roundUp_iff hd (by omega)]
  intro hp
  exact hstop (h.pending w le_rfl (by omega))

end Within

/-! ### The odd part of a divisor -/

theorem ctzll_spec (bits : Nat) (a : UInt64) (h0 : 0 < a.toNat) (h : a.toNat < 2 ^ bits) :
    ∃ j, a.toNat = 2 ^ ctzll bits a * (2 * j + 1) := by
  induction bits generalizing a with
  | zero => omega
  | succ bits ih =>
    have hone : a &&& 1 = 1 ↔ a.toNat % 2 = 1 := by
      rw [eq_one_iff_toNat, UInt64.toNat_and, UInt64.toNat_one, Nat.and_one_is_mod]
    have hhalf : (a >>> 1).toNat = a.toNat / 2 := by
      rw [UInt64.toNat_shiftRight, UInt64.toNat_one, show 1 % 64 = 1 from rfl,
        Nat.shiftRight_eq_div_pow, pow_one]
    unfold ctzll
    by_cases hodd : a.toNat % 2 = 1
    · rw [if_pos (hone.mpr hodd)]
      exact ⟨a.toNat / 2, by rw [pow_zero, Nat.one_mul]; omega⟩
    · rw [if_neg (mt hone.mp hodd)]
      obtain ⟨j, hj⟩ := ih (a >>> 1) (by omega) (by rw [pow_succ] at h; omega)
      refine ⟨j, ?_⟩
      rw [pow_succ, Nat.mul_right_comm, ← hj]
      omega

/-- The shifted divisor of the recursive call. -/
theorem shifted_toNat {a : UInt64} (h0 : 0 < a.toNat) :
    ∃ j, a.toNat = 2 ^ ctzll 64 a * (2 * j + 1) ∧
      (a >>> UInt64.ofNat (ctzll 64 a)).toNat = 2 * j + 1 := by
  obtain ⟨j, hj⟩ := ctzll_spec 64 a h0 a.toNat_lt
  have hlt : ctzll 64 a < 64 := by
    have hle : 2 ^ ctzll 64 a ≤ a.toNat := by
      rw [hj]
      exact Nat.le_mul_of_pos_right _ (by omega)
    exact (Nat.pow_lt_pow_iff_right (by decide)).mp (hle.trans_lt a.toNat_lt)
  refine ⟨j, hj, ?_⟩
  rw [UInt64.toNat_shiftRight, UInt64.toNat_ofNat',
    Nat.mod_eq_of_lt (by omega : ctzll 64 a < 2 ^ 64), Nat.mod_eq_of_lt hlt,
    Nat.shiftRight_eq_div_pow]
  conv_lhs => rw [hj]
  exact Nat.mul_div_cancel_left _ (Nat.two_pow_pos _)

/-! ### Exactness -/

/-- The computation returns a magic number whose sequence divides every numerator
    of `w - lz` bits. -/
def UDivMagicSafe (w lz : Nat) (d : UInt64) : Prop :=
  ∃ m, computeUDivMagic64 d w lz true = .ok m ∧
    ∀ n : BitVec w, n.toNat < 2 ^ (w - lz) → (udivSequence m n).toNat = n.toNat / d.toNat

section Exact

variable {w lz p : Nat} {d : UInt64}

/-- An inner magic number, without an add step, divides the shifted numerator. -/
theorem udivSequence_shifted {m : UDivMagic64} {n : BitVec w} (hw : w ≤ 64) {d s : Nat}
    (hp : w ≤ p) (hm : m = { magicAt w d p with preShift := s }) (hlt : roundUp d p < 2 ^ w) :
    (udivSequence m n).toNat = n.toNat / 2 ^ s * effective w d p / 2 ^ p := by
  have hmagic := magicAt_magic_toNat (d := d) (p := p) hw
  rw [Nat.mod_eq_of_lt hlt] at hmagic
  have hpost : (magicAt w d p).postShift = p - w := if_neg (by omega)
  subst hm
  rw [udivSequence_toNat_of_mul (by rw [hmagic]; exact hlt) (decide_eq_false (by omega)), hmagic,
    hpost, effective, if_neg (by omega), show w + (p - w) = p by omega]

theorem udivMagicSafe_of_lt (hw : 2 ≤ w ∧ w ≤ 64) (hlz : lz < w) (hd : 2 ≤ d.toNat)
    (hd' : d.toNat < 2 ^ (w - lz)) : UDivMagicSafe w lz d := by
  have hle : 2 ^ (w - lz) ≤ 2 ^ w := Nat.pow_le_pow_right (by decide) (by omega)
  obtain ⟨-, hnc2, hnclt, -⟩ := magicNc_spec (Nat.sub_le w lz) hd hd'
  obtain ⟨p, hrun, hres⟩ := computeUDivMagic64Rec_of_ne 1 d true hw hlz hd (by omega)
    (by omega)
  have hpos : 0 < Nat.clog 2 d.toNat := Nat.clog_pos (by decide) hd
  unfold UDivMagicSafe computeUDivMagic64
  rw [hres]
  by_cases heven : 2 ^ w ≤ roundUp d.toNat p ∧ d.toNat % 2 = 0 ∧ true = true
  swap
  · rw [if_neg heven]
    refine ⟨_, rfl, fun n hn => ?_⟩
    rw [udivSequence_magicAt hw.2 hrun.ge fun hwide => by
      have := (two_pow_le_roundUp_iff hd (by omega)).mp hwide
      omega]
    exact hrun.mul_effective_div (Nat.sub_le w lz) hd hd' hn
  -- an even divisor whose multiplier is too wide: the call for its odd part
  obtain ⟨j, hj, hshift⟩ := shifted_toNat (a := d) (by omega)
  rw [if_pos heven]
  generalize hs : ctzll 64 d = s at hj hshift ⊢
  generalize hd2 : d >>> UInt64.ofNat s = d2 at hshift ⊢
  have hs0 : s ≠ 0 := fun h0 => by
    rw [h0, pow_zero, Nat.one_mul] at hj
    omega
  have hj0 : j ≠ 0 := fun h0 => by
    rw [h0, Nat.mul_zero, Nat.zero_add, Nat.mul_one] at hj
    rw [hj] at hrun heven hd hd'
    exact hrun.not_wide_of_two_pow (Nat.sub_le w lz) hd hd' heven.1
  have hslt : s < w - lz := by
    refine (Nat.pow_lt_pow_iff_right (a := 2) (by decide)).mp (lt_of_le_of_lt ?_ hd')
    rw [hj]
    exact Nat.le_mul_of_pos_right _ (by omega)
  have hd2lt : d2.toNat < 2 ^ (w - (lz + s)) := by
    refine Nat.lt_of_mul_lt_mul_left (a := 2 ^ s) ?_
    rw [← pow_add, show s + (w - (lz + s)) = w - lz by omega, hshift, ← hj]
    exact hd'
  have hle2 : 2 ^ (w - (lz + s)) ≤ 2 ^ w := Nat.pow_le_pow_right (by decide) (by omega)
  obtain ⟨-, hnc2', hnclt', -⟩ := magicNc_spec (Nat.sub_le w (lz + s)) (by omega) hd2lt
  obtain ⟨p2, hrun2, hres2⟩ := computeUDivMagic64Rec_of_ne 0 d2 true hw
    (show lz + s < w by omega) (by omega) (by omega) (by omega)
  have hnarrow := hrun2.roundUp_lt (by omega) (by omega) hd2lt
  rw [hres2, if_neg (fun h => by omega), ok_bind, throwAssert_of ⟨by
    rw [magicAt, decide_eq_true_iff]
    omega, rfl⟩, ok_bind]
  refine ⟨_, rfl, fun n hn => ?_⟩
  rw [udivSequence_shifted hw.2 hrun2.ge rfl hnarrow,
    hrun2.mul_effective_div (Nat.sub_le w (lz + s)) (by omega) hd2lt (by
      rw [Nat.div_lt_iff_lt_mul (Nat.two_pow_pos s), ← pow_add,
        show w - (lz + s) + s = w - lz by omega]
      exact hn), Nat.div_div_eq_div_mul, hshift, ← hj]

/-- A divisor that is itself a numerator always gets an exact magic number. -/
theorem udivMagic_exact (w lz : Nat) (d : UInt64) (hw : 2 ≤ w ∧ w ≤ 64) (hlz : lz < w)
    (hd : 2 ≤ d.toNat) (hd' : d.toNat < 2 ^ (w - lz)) : UDivMagicSafe w lz d :=
  udivMagicSafe_of_lt hw hlz hd hd'

theorem udivMagic_exact_seven : UDivMagicSafe 32 0 7 :=
  udivMagic_exact 32 0 7 (by decide) (by decide) (by decide) (by decide)

end Exact

/-! ### Divisors above the numerators -/

/-- `nc` for a divisor above the numerators. -/
def wrappedNc (w k d : Nat) : Nat :=
  if 2 ^ w % d + 2 ^ k < d then 2 ^ w - 1 - 2 ^ w % d else d - 1 - 2 ^ w % d

/-- No exponent below the one whose multiplier is too wide is precise enough for
    the wrapped `nc`. -/
def TooWide (w k d : Nat) : Prop :=
  ∀ p, w ≤ p → p < w + Nat.clog 2 d → Pending w (wrappedNc w k d) d p

/-- What goes wrong for a divisor no smaller than `2 ^ k`: the wrapped `nc` is
    zero, or the divisor is even, too wide, and its odd part has no leading zeros
    left, a zero `nc`, or is too wide again. -/
def UDivRejected (w k d : Nat) : Prop :=
  2 ^ k ≤ d ∧ (d ∣ 2 ^ w + 1 ∨ ∃ s e, d = 2 ^ s * e ∧ 0 < s ∧ e % 2 = 1 ∧ TooWide w k d ∧
    (k ≤ s ∨ e ∣ 2 ^ w + 1 ∨ TooWide w (k - s) e))

section Above

variable {w lz k d p n : Nat}

theorem magicNc_of_ge (hk : k < w) (hd : 2 ^ k ≤ d) (hd' : d < 2 ^ w) :
    magicNc w k d = wrappedNc w k d := by
  have hL := Nat.two_pow_pos k
  have hlt : 2 ^ k < 2 ^ w := Nat.pow_lt_pow_right (by decide) hk
  have hr := Nat.mod_lt (2 ^ w) (show 0 < d by omega)
  have hrem : (2 ^ k % 2 ^ w + (2 ^ w - d)) % 2 ^ w % d = (2 ^ w % d + 2 ^ k) % d := by
    rw [Nat.mod_eq_of_lt hlt, Nat.mod_add_mod]
    rcases Nat.lt_or_eq_of_le hd with h | h
    · rw [Nat.mod_eq_of_lt (by omega : 2 ^ k + (2 ^ w - d) < 2 ^ w),
        ← Nat.add_mod_right (2 ^ k + (2 ^ w - d)) d]
      congr 1
      omega
    · rw [h, Nat.add_sub_cancel' hd'.le, Nat.mod_self, Nat.zero_mod, Nat.add_mod_right, ← h,
        Nat.mod_eq_zero_of_dvd (pow_dvd_pow 2 hk.le)]
  unfold magicNc wrappedNc
  rw [hrem]
  split
  · rename_i h
    rw [Nat.mod_eq_of_lt h, Nat.mod_eq_of_lt (by omega)]
    omega
  · rw [Nat.mod_eq_sub_mod (by omega : 2 ^ w % d + 2 ^ k ≥ d),
      Nat.mod_eq_of_lt (by omega : 2 ^ w % d + 2 ^ k - d < d),
      show 2 ^ k - 1 + (2 ^ w - (2 ^ w % d + 2 ^ k - d)) = d - 1 - 2 ^ w % d + 2 ^ w by omega,
      Nat.add_mod_right, Nat.mod_eq_of_lt (by omega)]

theorem magicNc_eq_zero_iff (hk : k < w) (hd : 2 ^ k ≤ d) (hd' : d < 2 ^ w) :
    magicNc w k d = 0 ↔ d ∣ 2 ^ w + 1 := by
  have hL := Nat.two_pow_pos k
  have hr := Nat.mod_lt (2 ^ w) (show 0 < d by omega)
  have hsucc : d ∣ 2 ^ w + 1 ↔ 2 ^ w % d + 1 = d := by
    have hdiv := Nat.div_add_mod (2 ^ w) d
    rw [← hdiv, Nat.add_assoc, Nat.dvd_add_right (Nat.dvd_mul_right _ _), hdiv]
    exact ⟨fun h => le_antisymm hr (Nat.le_of_dvd (Nat.succ_pos _) h),
      fun h => ⟨1, by rw [Nat.mul_one]; exact h⟩⟩
  rw [magicNc_of_ge hk hd hd', hsucc]
  unfold wrappedNc
  split <;> omega

/-- The multiplier is too wide exactly when every narrower one is passed by. -/
theorem Runs.wide_iff {nc : Nat} (h : Runs w nc d p) (hd : 2 ≤ d) (hd' : d < 2 ^ w) :
    2 ^ w ≤ roundUp d p ↔ ∀ i, w ≤ i → i < w + Nat.clog 2 d → Pending w nc d i := by
  have hle : Nat.clog 2 d ≤ w := Nat.clog_le_of_le_pow hd'.le
  rw [two_pow_le_roundUp_iff hd hd']
  constructor
  · exact fun hp i hi hilt => h.pending i hi (by omega)
  · intro hall
    by_contra hp
    exact h.stop (by omega) (hall p h.ge (by omega))

theorem effective_le : effective w d p ≤ roundUp d p := by
  unfold effective
  split
  · rename_i h
    rw [Nat.mod_eq_sub_mod h]
    have := Nat.mod_le (roundUp d p - 2 ^ w) (2 ^ w)
    omega
  · exact le_rfl

/-- Whatever the exponent, numerators below the divisor have quotient zero. -/
theorem mul_effective_div_of_ge (hk : k ≤ p) (hd : 2 ^ k ≤ d) (hn : n < 2 ^ k) :
    n * effective w d p / 2 ^ p = n / d := by
  have hsplit : 2 ^ p = 2 ^ k * 2 ^ (p - k) := by
    rw [← pow_add]
    congr 1
    omega
  have hlt : n * roundUp d p < 2 ^ p := by
    have hpos := Nat.two_pow_pos p
    have hle : (2 ^ p - 1) / d * d ≤ 2 ^ p - 1 := Nat.div_mul_le_self _ _
    rw [hsplit]
    refine mul_roundUp_lt (Nat.two_pow_pos _) hn hd ?_ (Nat.succ_pos _)
    rw [roundUp, Nat.add_sub_cancel, ← hsplit]
    omega
  rw [Nat.div_eq_of_lt ((Nat.mul_le_mul_left n effective_le).trans_lt hlt),
    Nat.div_eq_of_lt (by omega)]

/-- The odd part of a number is unique. -/
theorem odd_part_unique {s t a b : Nat} (ha : a % 2 = 1) (hb : b % 2 = 1)
    (h : 2 ^ s * a = 2 ^ t * b) : s = t ∧ a = b := by
  induction s generalizing t with
  | zero =>
    cases t with
    | zero => exact ⟨rfl, by simpa using h⟩
    | succ t =>
      rw [pow_succ', Nat.mul_assoc, pow_zero, Nat.one_mul] at h
      omega
  | succ s ih =>
    cases t with
    | zero =>
      rw [pow_succ', Nat.mul_assoc, pow_zero, Nat.one_mul] at h
      omega
    | succ t =>
      rw [pow_succ', pow_succ', Nat.mul_assoc, Nat.mul_assoc] at h
      obtain ⟨hst, hab⟩ := ih (Nat.eq_of_mul_eq_mul_left (by decide) h)
      exact ⟨congrArg (· + 1) hst, hab⟩

/-- The even branch, for a divisor no smaller than `2 ^ k`. -/
theorem udivMagic_odd_part_iff {s : Nat} {d d2 : UInt64} (hw : 2 ≤ w ∧ w ≤ 64) (hlz : lz < w)
    (hd : 2 ^ (w - lz) ≤ d.toNat) (hd' : d.toNat < 2 ^ w) (hs : d.toNat = 2 ^ s * d2.toNat)
    (hs0 : 0 < s) (hodd : d2.toNat % 2 = 1) :
    (∃ m, (do
        let inner ← computeUDivMagic64Rec 1 d2 w (lz + s) true
        throwAssert (¬ inner.isAdd = true ∧ inner.preShift = 0)
          "Unexpected even-divisor optimization state"
        .ok { inner with preShift := s }) = (.ok m : Except Error UDivMagic64) ∧
      ∀ n : BitVec w, n.toNat < 2 ^ (w - lz) → (udivSequence m n).toNat = n.toNat / d.toNat) ↔
    ¬ (w - lz ≤ s ∨ d2.toNat ∣ 2 ^ w + 1 ∨ TooWide w (w - lz - s) d2.toNat) := by
  by_cases hks : w - lz ≤ s
  · have hrej : computeUDivMagic64Rec 1 d2 w (lz + s) true =
        .error (.assertion "Invalid leading zeros for unsigned magic computation") := by
      rw [computeUDivMagic64Rec, throwAssert_of (by omega), ok_bind,
        throwAssert_of_not (by omega)]
      rfl
    rw [hrej]
    exact iff_of_false (fun ⟨m, hm, _⟩ => by cases hm) (fun h => h (Or.inl hks))
  have hge : 2 ^ (w - lz - s) ≤ d2.toNat := by
    refine Nat.le_of_mul_le_mul_left (c := 2 ^ s) ?_ (Nat.two_pow_pos s)
    rw [← pow_add, ← hs, show s + (w - lz - s) = w - lz by omega]
    exact hd
  have hlt : d2.toNat < 2 ^ w :=
    (Nat.le_mul_of_pos_left _ (Nat.two_pow_pos s)).trans_lt (hs ▸ hd')
  have htwo : 2 ≤ d2.toNat := by
    have : 2 ^ 1 ≤ 2 ^ (w - lz - s) := Nat.pow_le_pow_right (by decide) (by omega)
    omega
  have hsub : w - (lz + s) = w - lz - s := by omega
  have hnc := magicNc_of_ge (show w - lz - s < w by omega) hge hlt
  have hzero := magicNc_eq_zero_iff (show w - lz - s < w by omega) hge hlt
  by_cases hdvd : d2.toNat ∣ 2 ^ w + 1
  · rw [computeUDivMagic64Rec_of_zero hw (by omega) htwo hlt (by
      rw [hsub]
      exact hzero.mpr hdvd)]
    exact iff_of_false (fun ⟨m, hm, _⟩ => by cases hm) (fun h => h (Or.inr (Or.inl hdvd)))
  obtain ⟨p, hrun, hres⟩ := computeUDivMagic64Rec_of_ne 0 d2 true hw (show lz + s < w by omega)
    htwo hlt (by
      rw [hsub]
      exact mt hzero.mp hdvd)
  rw [hsub, hnc] at hrun
  have hwide := hrun.wide_iff htwo hlt
  rw [hres, if_neg (fun h => by omega), ok_bind]
  by_cases hadd : 2 ^ w ≤ roundUp d2.toNat p
  · rw [throwAssert_of_not (fun h => h.1 (decide_eq_true hadd))]
    exact iff_of_false (fun ⟨m, hm, _⟩ => by cases hm)
      (fun h => h (Or.inr (Or.inr (hwide.mp hadd))))
  · rw [throwAssert_of ⟨fun h => hadd (of_decide_eq_true h), rfl⟩, ok_bind]
    refine iff_of_true ⟨_, rfl, fun n hn => ?_⟩ (fun h => ?_)
    · rw [udivSequence_shifted hw.2 hrun.ge rfl (by omega),
        mul_effective_div_of_ge (k := w - lz - s) (by have := hrun.ge; omega) hge (by
          rw [Nat.div_lt_iff_lt_mul (Nat.two_pow_pos s), ← pow_add,
            show w - lz - s + s = w - lz by omega]
          exact hn), Nat.div_div_eq_div_mul, ← hs]
    · rcases h with h | h | h
      · exact hks h
      · exact hdvd h
      · exact hadd (hwide.mpr h)

/-- The requests that are answered, and answered exactly. -/
theorem udivMagicSafe_iff (w lz : Nat) (d : UInt64) (hw : 2 ≤ w ∧ w ≤ 64) (hlz : lz < w)
    (hd : 2 ≤ d.toNat) (hd' : d.toNat < 2 ^ w) :
    UDivMagicSafe w lz d ↔ ¬ UDivRejected w (w - lz) d.toNat := by
  by_cases hlt : d.toNat < 2 ^ (w - lz)
  · exact iff_of_true (udivMagicSafe_of_lt hw hlz hd hlt)
      (fun h => absurd h.1 (Nat.not_le_of_lt hlt))
  have hge := Nat.le_of_not_lt hlt
  have hk : w - lz < w := (Nat.pow_lt_pow_iff_right (by decide)).mp (hge.trans_lt hd')
  have hnc := magicNc_of_ge hk hge hd'
  have hzero := magicNc_eq_zero_iff hk hge hd'
  by_cases hdvd : d.toNat ∣ 2 ^ w + 1
  · refine iff_of_false (fun ⟨m, hm, _⟩ => ?_) (fun h => h ⟨hge, Or.inl hdvd⟩)
    rw [computeUDivMagic64, computeUDivMagic64Rec_of_zero hw hlz hd hd' (hzero.mpr hdvd)] at hm
    cases hm
  obtain ⟨p, hrun, hres⟩ := computeUDivMagic64Rec_of_ne 1 d true hw hlz hd hd'
    (mt hzero.mp hdvd)
  rw [hnc] at hrun
  have hwide := hrun.wide_iff hd hd'
  have hpos : 0 < Nat.clog 2 d.toNat := Nat.clog_pos (by decide) hd
  obtain ⟨j, hj, hshift⟩ := shifted_toNat (a := d) (by omega)
  unfold UDivMagicSafe computeUDivMagic64
  rw [hres]
  by_cases heven : 2 ^ w ≤ roundUp d.toNat p ∧ d.toNat % 2 = 0 ∧ true = true
  · have hs0 : 0 < ctzll 64 d := Nat.pos_of_ne_zero fun h0 => by
      rw [h0, pow_zero, Nat.one_mul] at hj
      omega
    rw [if_pos heven, udivMagic_odd_part_iff hw hlz hge hd' (by rw [hshift, ← hj]) hs0
      (by omega), hshift, not_iff_not]
    constructor
    · exact fun h => ⟨hge, Or.inr ⟨_, _, hj, hs0, by omega, hwide.mp heven.1, h⟩⟩
    · rintro ⟨-, h | ⟨s, e, hse, -, hodd, -, h⟩⟩
      · exact absurd h hdvd
      · obtain ⟨rfl, rfl⟩ := odd_part_unique (by omega) hodd (hj.symm.trans hse)
        exact h
  · rw [if_neg heven]
    refine iff_of_true ⟨_, rfl, fun n hn => ?_⟩ ?_
    · rw [udivSequence_magicAt hw.2 hrun.ge fun h => by
          have := (two_pow_le_roundUp_iff hd hd').mp h
          omega]
      exact mul_effective_div_of_ge (by have := hrun.ge; omega) hge hn
    · rintro ⟨-, h | ⟨s, e, hse, hs0, -, htoo, -⟩⟩
      · exact hdvd h
      · refine heven ⟨hwide.mpr htoo, ?_, rfl⟩
        obtain ⟨t, rfl⟩ : ∃ t, s = t + 1 := ⟨s - 1, by omega⟩
        rw [hse, pow_succ', Nat.mul_assoc, Nat.mul_mod_right]

theorem udivMagicSafe_iff_at_three : UDivMagicSafe 3 2 3 ↔ ¬ UDivRejected 3 1 3 :=
  udivMagicSafe_iff 3 2 3 (by decide) (by decide) (by decide) (by decide)

/-- Three divides `2 ^ 3 + 1`, so for one-bit numerators its `nc` is zero. -/
theorem udivMagic_not_safe : ¬ ∀ (w lz : Nat) (d : UInt64), 2 ≤ w ∧ w ≤ 64 → lz < w →
    2 ≤ d.toNat → d.toNat < 2 ^ w → UDivMagicSafe w lz d := by
  intro h
  obtain ⟨m, hm, -⟩ := h 3 2 3 (by decide) (by decide) (by decide) (by decide)
  have hrun : computeUDivMagic64 3 3 2 true = .error .divisionByZero := by decide
  rw [hrun] at hm
  cases hm

end Above

end ConstdivMagic
end Bambu
