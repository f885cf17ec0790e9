/-
  Bambu.IRAnalysis.ConstdivMagic.Signed

  `computeSDivMagic64`.

  The loop keeps the quotients and remainders of `2 ^ p` by `anc` and by the
  magnitude `ad` of the divisor (`SignedTracks`).  It goes on as long as
  `2 ^ p ≤ anc * error ad p`, which bounds both quotients of the next exponent by a
  word and the exponent itself (`SignedBase.next`).  The multiplier is carried
  as a word of the width, with a wrong sign where it needs its top bit: the
  numerator is added or subtracted once to make up for that (`effective_magic`).
-/

import Bambu.Math.Magic
import Bambu.IRAnalysis.ConstdivMagic.Basic

namespace Bambu
namespace ConstdivMagic

open Bambu.Math

/-! ## Signed words -/

section SignedWords

variable {w : Nat}

theorem toInt64_toInt (v : UInt64) : v.toInt64.toInt = (v.toNat : Int).bmod (2 ^ 64) :=
  BitVec.toInt_eq_toNat_bmod v.toBitVec

/-- The source flips the sign bit before it takes it away. -/
theorem xor_sign_bit {x k : Nat} (hx : x < 2 ^ (k + 1)) :
    x ^^^ 2 ^ k = if x < 2 ^ k then x + 2 ^ k else x - 2 ^ k := by
  have hpos := Nat.two_pow_pos k
  have hlow : (x ^^^ 2 ^ k) % 2 ^ k = x % 2 ^ k := by
    rw [Nat.xor_mod_two_pow, Nat.mod_self, Nat.xor_zero]
  have hhigh : (x ^^^ 2 ^ k) / 2 ^ k = x / 2 ^ k ^^^ 1 := by
    rw [Nat.xor_div_two_pow, Nat.div_self hpos]
  have hdiv := Nat.div_add_mod (x ^^^ 2 ^ k) (2 ^ k)
  rw [hlow, hhigh] at hdiv
  rw [pow_succ] at hx
  split
  · rename_i h
    rw [Nat.div_eq_of_lt h, Nat.mod_eq_of_lt h, Nat.zero_xor, Nat.mul_one] at hdiv
    omega
  · have hone : x / 2 ^ k = 1 := Nat.div_eq_of_lt_le (by omega) (by omega)
    have hmod := Nat.div_add_mod x (2 ^ k)
    rw [hone, Nat.mul_one] at hmod
    rw [hone, Nat.xor_self, Nat.mul_zero] at hdiv
    omega

theorem bmod_eq_ite {x k : Nat} (hx : x < 2 ^ (k + 1)) :
    (x : Int).bmod (2 ^ (k + 1)) = if x < 2 ^ k then (x : Int) else x - 2 ^ (k + 1) := by
  have hmod : (x : Int) % ((2 ^ (k + 1) : Nat) : Int) = x :=
    Int.emod_eq_of_lt (by omega) (by exact_mod_cast hx)
  have hhalf : (((2 ^ (k + 1) : Nat) : Int) + 1) / 2 = 2 ^ k := by
    rw [pow_succ]
    push_cast
    omega
  rw [Int.bmod_def, hmod, hhalf]
  push_cast
  by_cases h : x < 2 ^ k
  · rw [if_pos h, if_pos (by exact_mod_cast h)]
  · rw [if_neg h, if_neg (by exact_mod_cast h)]

theorem signExtend_toInt (v : UInt64) (hw : 1 ≤ w ∧ w ≤ 64) :
    (signExtend v w).toInt = (v.toNat : Int).bmod (2 ^ w) := by
  unfold signExtend
  by_cases h64 : w ≥ 64
  · rw [if_pos h64, toInt64_toInt, show w = 64 by omega]
  obtain ⟨k, rfl⟩ : ∃ k, w = k + 1 := ⟨w - 1, by omega⟩
  have hM : 2 ^ (k + 1) ≤ 2 ^ 63 := Nat.pow_le_pow_right (by decide) (by omega)
  have hx := Nat.mod_lt v.toNat (Nat.two_pow_pos (k + 1))
  have hpow : 2 ^ (k + 1) = 2 ^ k * 2 := pow_succ 2 k
  have hmask : (v &&& ((1 : UInt64) <<< UInt64.ofNat (k + 1) - 1)).toNat =
      v.toNat % 2 ^ (k + 1) := by
    rw [UInt64.toNat_and, ones_toNat (by omega), Nat.and_two_pow_sub_one_eq_mod]
  rw [if_neg h64]
  dsimp only
  rw [toInt64_toInt, UInt64.toNat_sub, UInt64.toNat_xor, hmask, Nat.add_sub_cancel,
    one_shiftLeft_toNat (by omega), xor_sign_bit hx]
  rw [← Int.emod_bmod (x := (v.toNat : Int)), ← Int.natCast_emod, bmod_eq_ite hx,
    show (2 ^ 64 : Nat) = 2 ^ (63 + 1) from rfl, bmod_eq_ite (Nat.mod_lt _ (by decide))]
  generalize v.toNat % 2 ^ (k + 1) = x at hx ⊢
  by_cases h : x < 2 ^ k
  · rw [if_pos h, if_pos h, show 2 ^ (63 + 1) - 2 ^ k + (x + 2 ^ k) = x + 2 ^ (63 + 1) by omega,
      Nat.add_mod_right, Nat.mod_eq_of_lt (by omega), if_pos (by omega)]
  · rw [if_neg h, if_neg h, show 2 ^ (63 + 1) - 2 ^ k + (x - 2 ^ k) =
      2 ^ (63 + 1) - 2 ^ (k + 1) + x by omega, Nat.mod_eq_of_lt (by omega), if_neg (by omega)]
    rw [Nat.cast_add, Nat.cast_sub (by omega)]
    push_cast
    ring

end SignedWords

/-! ## The signed loop -/

/-- What the next multiple of `ad` after `2 ^ p` has more than `2 ^ p`. -/
def overshoot (ad p : Nat) : Nat := ad - 2 ^ p % ad

/-- The loop goes on after `p`. -/
def SignedPending (ad anc p : Nat) : Prop := 2 ^ p ≤ anc * overshoot ad p

instance (ad anc p : Nat) : Decidable (SignedPending ad anc p) :=
    inferInstanceAs (Decidable (_ ≤ _))

/-- The variables of the loop at `p`. -/
def SignedTracks (w ad anc p : Nat) (s : SDivState) : Prop :=
  s.p = p ∧ s.q1.toNat = 2 ^ p / anc % 2 ^ w ∧ s.r1.toNat = 2 ^ p % anc ∧
    s.q2.toNat = 2 ^ p / ad % 2 ^ w ∧ s.r2.toNat = 2 ^ p % ad

/-- The magnitude of the divisor, and one below one of its multiples. -/
structure SignedBase (w ad anc : Nat) : Prop where
  two_le_ad : 2 ≤ ad
  ad_le : 2 * ad ≤ 2 ^ w
  two_le_anc : 2 ≤ anc
  anc_le : 2 * anc ≤ 2 ^ w
  dvd : ad ∣ anc + 1

section SignedLoop

variable {w p : Nat} {ad anc : UInt64} {s : SDivState}

theorem doubled_toNat {q r den : UInt64} (hw : w ≤ 64) (hden : 0 < den.toNat)
    (hden' : 2 * den.toNat ≤ 2 ^ w) (hq : q.toNat = 2 ^ p / den.toNat % 2 ^ w)
    (hr : r.toNat = 2 ^ p % den.toNat) :
    (doubled q r den w).1.toNat = 2 ^ (p + 1) / den.toNat % 2 ^ w ∧
      (doubled q r den w).2.toNat = 2 ^ (p + 1) % den.toNat := by
  have hrlt := Nat.mod_lt (2 ^ p) hden
  have hdiv := two_mul_add_div (x := 2 ^ p) (b := 0) hden (by decide)
  have hmod := two_mul_add_mod (x := 2 ^ p) (b := 0) hden (by decide)
  simp only [Nat.add_zero, ← pow_succ'] at hdiv hmod
  have hr2 : (shl1Mod r w).toNat = 2 * (2 ^ p % den.toNat) := by
    rw [shl1Mod_toNat hw, hr, Nat.mod_eq_of_lt (by omega)]
  have hcond : shl1Mod r w ≥ den ↔ den.toNat ≤ 2 * (2 ^ p % den.toNat) := by
    rw [ge_iff_le, UInt64.le_iff_toNat_le, hr2]
  unfold doubled
  by_cases hc : den.toNat ≤ 2 * (2 ^ p % den.toNat)
  · rw [if_pos hc] at hdiv hmod
    simp only [hcond.mpr hc, if_true]
    refine ⟨?_, ?_⟩
    · rw [addMod_toNat hw, shl1Mod_toNat hw, hq, UInt64.toNat_one, Nat.mod_add_mod, hdiv,
        Nat.add_mod, Nat.mul_mod, Nat.mod_mod, ← Nat.mul_mod, ← Nat.add_mod]
    · rw [subMod_toNat_of_le hw (by rw [hr2]; omega) (by rw [hr2]; exact hc), hr2, hmod]
  · rw [if_neg hc] at hdiv hmod
    simp only [mt hcond.mp hc, if_false]
    refine ⟨?_, ?_⟩
    · rw [shl1Mod_toNat hw, hq, hdiv, Nat.mul_mod, Nat.mod_mod, ← Nat.mul_mod]
    · rw [hr2, hmod]

/-- A step of the loop leads from `p` to `p + 1`. -/
theorem sdivStep_tracks (hw : w ≤ 64) (hb : SignedBase w ad.toNat anc.toNat)
    (h : SignedTracks w ad.toNat anc.toNat p s) :
    SignedTracks w ad.toNat anc.toNat (p + 1) (sdivStep ad anc w s) ∧
      (sdivStep ad anc w s).delta.toNat = overshoot ad.toNat (p + 1) := by
  obtain ⟨hp, hq1, hr1, hq2, hr2⟩ := h
  have had := hb.two_le_ad
  have had' := hb.ad_le
  have hanc := hb.two_le_anc
  obtain ⟨hq1', hr1'⟩ := doubled_toNat hw (by omega) hb.anc_le hq1 hr1
  obtain ⟨hq2', hr2'⟩ := doubled_toNat hw (by omega) hb.ad_le hq2 hr2
  refine ⟨⟨congrArg (· + 1) hp, hq1', hr1', hq2', hr2'⟩, ?_⟩
  have hrlt := Nat.mod_lt (2 ^ (p + 1)) (show 0 < ad.toNat by omega)
  show (subMod ad (doubled s.q2 s.r2 ad w).2 w).toNat = _
  rw [subMod_toNat_of_le hw (by omega) (by rw [hr2']; exact hrlt.le), hr2']
  rfl

theorem overshoot_le (d p : Nat) : overshoot d p ≤ d := Nat.sub_le _ _

theorem signedPending_iff {d nc : Nat} (hnc : 0 < nc) :
    SignedPending d nc p ↔ 2 ^ p / nc < overshoot d p ∨
      (2 ^ p / nc = overshoot d p ∧ 2 ^ p % nc = 0) := by
  have hdiv := Nat.div_add_mod (2 ^ p) nc
  have hr := Nat.mod_lt (2 ^ p) hnc
  unfold SignedPending
  rcases Nat.lt_trichotomy (2 ^ p / nc) (overshoot d p) with h | h | h
  · have hmul : nc * (2 ^ p / nc + 1) ≤ nc * overshoot d p := Nat.mul_le_mul_left nc h
    rw [Nat.mul_succ] at hmul
    exact iff_of_true (by omega) (Or.inl h)
  · rw [← h]
    omega
  · have hmul : nc * (overshoot d p + 1) ≤ nc * (2 ^ p / nc) := Nat.mul_le_mul_left nc h
    rw [Nat.mul_succ] at hmul
    omega

/-- Going on bounds the exponent and the next quotients. -/
theorem SignedBase.next {d nc : Nat} (hb : SignedBase w d nc) (hw : 3 ≤ w)
    (hp : SignedPending d nc p) :
    p + 2 ≤ 2 * w ∧ 2 ^ (p + 1) / nc < 2 ^ w ∧ 2 ^ (p + 1) / d + 1 < 2 ^ w := by
  obtain ⟨H, hH⟩ : ∃ H, H = 2 ^ (w - 1) := ⟨_, rfl⟩
  have hhalf : 2 ^ w = 2 * H := by
    rw [hH, ← pow_succ']
    congr 1
    omega
  have h4 : 4 ≤ H := by
    rw [hH]
    exact Nat.pow_le_pow_right (n := 2) (i := 2) (by decide) (by omega)
  obtain ⟨hd2, hdH, hnc2, hncH, hdvd⟩ := hb
  rw [hhalf] at hdH hncH ⊢
  unfold SignedPending at hp
  have hover := overshoot_le d p
  have hpow := pow_succ 2 p
  have hmul : nc * overshoot d p ≤ nc * d := Nat.mul_le_mul_left nc hover
  have hsq : nc * d ≤ H * H := Nat.mul_le_mul (by omega) (by omega)
  refine ⟨?_, ?_, ?_⟩
  · have hle : 2 ^ p ≤ 2 ^ (2 * w - 2) := by
      calc 2 ^ p ≤ H * H := hp.trans (hmul.trans hsq)
        _ = 2 ^ (2 * w - 2) := by
          rw [hH, ← pow_add]
          congr 1
          omega
    have := (Nat.pow_le_pow_iff_right (by decide)).mp hle
    omega
  · rw [Nat.div_lt_iff_lt_mul (by omega)]
    rcases Nat.lt_or_eq_of_le (show d ≤ H by omega) with hlt | heq
    · have : nc * d ≤ nc * (H - 1) := Nat.mul_le_mul_left nc (by omega)
      have hsplit : nc * (H - 1) + nc = H * nc := by
        rw [← Nat.mul_succ, Nat.succ_eq_add_one, Nat.sub_add_cancel (by omega), Nat.mul_comm]
      rw [Nat.mul_assoc]
      omega
    · -- the magnitude of the least value: `anc` is one less, no power of two
      have hnc : nc = H - 1 := by
        obtain ⟨m, hm⟩ := hdvd
        rw [heq] at hm
        have hm1 : m = 1 := by
          rcases Nat.lt_trichotomy m 1 with h | h | h
          · rw [Nat.lt_one_iff.mp h, Nat.mul_zero] at hm
            omega
          · exact h
          · have : H * 2 ≤ H * m := Nat.mul_le_mul_left H h
            omega
        rw [hm1, Nat.mul_one] at hm
        omega
      have hsub : (H - 1) * H + H = H * H := by
        rw [← Nat.succ_mul, Nat.succ_eq_add_one, Nat.sub_add_cancel (by omega)]
      have hle : 2 ^ (p + 1) ≤ H * H := by
        have hlt : 2 ^ p < 2 ^ (2 * w - 2) := by
          rw [show 2 * w - 2 = w - 1 + (w - 1) by omega, pow_add, ← hH]
          rw [hnc, heq] at hmul
          rw [hnc, heq] at hp
          omega
        calc 2 ^ (p + 1) ≤ 2 ^ (2 * w - 2) :=
              Nat.pow_le_pow_right (by decide) ((Nat.pow_lt_pow_iff_right (by decide)).mp hlt)
          _ = H * H := by
              rw [hH, ← pow_add]
              congr 1
              omega
      have h4H : 4 * H ≤ H * H := Nat.mul_le_mul_right H h4
      rw [hnc, Nat.mul_assoc, Nat.mul_comm H]
      omega
  · have hstep : 2 ^ (p + 1) < (2 * H - 1) * d := by
      have hsub : (2 * H - 1) * d + d = 2 * (H * d) := by
        rw [← Nat.succ_mul, Nat.succ_eq_add_one, Nat.sub_add_cancel (by omega), Nat.mul_assoc]
      rcases Nat.lt_or_eq_of_le (show nc ≤ H by omega) with hlt | heq
      · have hsucc : (nc + 1) * d ≤ H * d := Nat.mul_le_mul_right d hlt
        rw [Nat.succ_mul] at hsucc
        omega
      · -- an odd divisor of `2 ^ (w - 1) + 1` leaves a remainder
        have hne : 2 ^ p % d ≠ 0 := fun h0 => by
          have hodd : Nat.Coprime (nc + 1) 2 := by
            rw [Nat.coprime_two_right, heq, hH]
            exact Even.add_one ((Nat.even_pow.mpr ⟨even_two, by omega⟩))
          have hcop := (Nat.Coprime.coprime_dvd_left hdvd hodd).pow_right p
          have hone := Nat.Coprime.eq_one_of_dvd hcop (Nat.dvd_of_mod_eq_zero h0)
          omega
        have hpred : overshoot d p ≤ d - 1 := by
          unfold overshoot
          omega
        have hmul' : nc * overshoot d p ≤ nc * (d - 1) := Nat.mul_le_mul_left nc hpred
        have hsucc : H * (d - 1) + H = H * d := by
          rw [← Nat.mul_succ, Nat.succ_eq_add_one, Nat.sub_add_cancel (by omega)]
        rw [heq] at hmul' hp
        omega
    have := (Nat.div_lt_iff_lt_mul (show 0 < d by omega)).mpr hstep
    omega

/-- The loop stops, with both quotients within a word. -/
theorem sdivLoop_spec (hw : 3 ≤ w ∧ w ≤ 64) (hb : SignedBase w ad.toNat anc.toNat) (fuel : Nat)
    (hp : p < 2 * w) (hfuel : 2 * w ≤ p + fuel) (hq1 : 2 ^ (p + 1) / anc.toNat < 2 ^ w)
    (hq2 : 2 ^ (p + 1) / ad.toNat + 1 < 2 ^ w) (h : SignedTracks w ad.toNat anc.toNat p s) :
    ∃ s' p', sdivLoop ad anc w fuel s = .ok s' ∧ SignedTracks w ad.toNat anc.toNat p' s' ∧
      p < p' ∧ ¬ SignedPending ad.toNat anc.toNat p' ∧ 2 ^ p' / ad.toNat + 1 < 2 ^ w := by
  induction fuel generalizing p s with
  | zero => omega
  | succ fuel ih =>
    obtain ⟨hstep, hdelta⟩ := sdivStep_tracks hw.2 hb h
    -- the test of the loop, in values
    have hcond : ((sdivStep ad anc w s).q1 < (sdivStep ad anc w s).delta ∨
        ((sdivStep ad anc w s).q1 = (sdivStep ad anc w s).delta ∧
          (sdivStep ad anc w s).r1 = 0)) ↔ SignedPending ad.toNat anc.toNat (p + 1) := by
      obtain ⟨-, hq1', hr1', -⟩ := hstep
      rw [Nat.mod_eq_of_lt hq1] at hq1'
      rw [signedPending_iff (by have := hb.two_le_anc; omega), UInt64.lt_iff_toNat_lt,
        ← UInt64.toNat_inj, eq_zero_iff_toNat, hdelta, hq1', hr1']
    unfold sdivLoop
    simp only [hcond]
    by_cases hc : SignedPending ad.toNat anc.toNat (p + 1)
    · obtain ⟨hlt, hn1, hn2⟩ := hb.next hw.1 hc
      rw [if_pos hc]
      obtain ⟨s', p', hrun, htr, hpp, hstop, hM⟩ := ih (by omega) (by omega) hn1 hn2 hstep
      exact ⟨s', p', hrun, htr, by omega, hstop, hM⟩
    · rw [if_neg hc]
      exact ⟨_, p + 1, rfl, hstep, by omega, hc, hq2⟩

end SignedLoop

/-! ## The signed computation -/

/-- `anc` for a divisor of magnitude `A`: one below its last multiple up to `t`. -/
def signedNc (A t : Nat) : Nat := t - 1 - t % A

section SignedCompute

variable {w A t : Nat} {d : Int64}

theorem signedBase_of (hw : 3 ≤ w) (hA : 2 ≤ A) (hAt : A ≤ t - 1) (hAH : 2 * A ≤ 2 ^ w)
    (ht : 2 ^ (w - 1) ≤ t) (ht' : t ≤ 2 ^ (w - 1) + 1) : SignedBase w A (signedNc A t) := by
  have hhalf : 2 ^ w = 2 * 2 ^ (w - 1) := by
    rw [← pow_succ']
    congr 1
    omega
  have h4 : 4 ≤ 2 ^ (w - 1) := Nat.pow_le_pow_right (n := 2) (i := 2) (by decide) (by omega)
  have hdiv := Nat.div_add_mod t A
  have hr := Nat.mod_lt t (show 0 < A by omega)
  have hmul : A * 1 ≤ A * (t / A) :=
    Nat.mul_le_mul_left A (Nat.div_pos (by omega) (by omega))
  unfold signedNc
  refine ⟨hA, hAH, ?_, by omega, ⟨t / A, by omega⟩⟩
  rcases Nat.lt_or_eq_of_le hA with h | rfl
  · omega
  · omega

theorem signExtend_self (hw : 1 ≤ w ∧ w ≤ 64) (hlo : -2 ^ (w - 1) ≤ d.toInt)
    (hhi : d.toInt < 2 ^ (w - 1)) : signExtend d.toUInt64 w = d := by
  have hd : d.toInt = (d.toUInt64.toNat : Int).bmod (2 ^ 64) := toInt64_toInt d.toUInt64
  have hhalf : (2 ^ w : Nat) = 2 * 2 ^ (w - 1) := by
    rw [← pow_succ']
    congr 1
    omega
  rw [← Int64.toInt_inj, signExtend_toInt _ hw, ← Int.bmod_bmod_of_dvd (two_pow_dvd hw.2), ← hd]
  have hcast : ((2 ^ (w - 1) : Nat) : Int) = 2 ^ (w - 1) := by push_cast; rfl
  refine Int.bmod_eq_of_le ?_ ?_ <;> omega

/-- The magnitude of the divisor as a word. -/
theorem magnitude_toNat :
    (if d < 0 then UInt64.ofInt (-d.toInt) else d.toUInt64).toNat = d.toInt.natAbs := by
  have hd : d.toInt = (d.toUInt64.toNat : Int).bmod (2 ^ 64) := toInt64_toInt d.toUInt64
  have hlt := d.toUInt64.toNat_lt
  rw [show (2 ^ 64 : Nat) = 2 ^ (63 + 1) from rfl, bmod_eq_ite hlt] at hd
  have hneg : d < 0 ↔ d.toInt < 0 := Int64.lt_iff_toInt_lt
  by_cases h : d.toInt < 0
  · rw [if_pos (hneg.mpr h)]
    obtain ⟨m, hm⟩ : ∃ m : Nat, -d.toInt = m := ⟨d.toInt.natAbs, by omega⟩
    have hof : (UInt64.ofInt (m : Int)).toNat = m % 2 ^ 64 := by
      unfold UInt64.ofInt
      rw [UInt64.toNat_ofNat']
      omega
    rw [hm, hof, Nat.mod_eq_of_lt (by split at hd <;> omega)]
    omega
  · rw [if_neg (mt hneg.mp h)]
    split at hd <;> omega

/-- The magic word and the correction by the numerator, from the multiplier. -/
theorem signed_magic_effective {m : UInt64} {M : Nat} (hw : 1 ≤ w ∧ w ≤ 64) (hM : 0 < M)
    (hM' : M < 2 ^ w) (hd : d.toInt ≠ 0)
    (hm : m.toNat = if d.toInt < 0 then 2 ^ w - M else M) :
    (signExtend m w).toInt + (if d > 0 ∧ signExtend m w < 0 then 1
        else if d < 0 ∧ signExtend m w > 0 then -1 else 0) * 2 ^ w = d.toInt.sign * M := by
  obtain ⟨k, rfl⟩ : ∃ k, w = k + 1 := ⟨w - 1, by omega⟩
  have hpow : (2 ^ (k + 1) : Int) = 2 * 2 ^ k := by rw [pow_succ']
  have hpow' : 2 ^ (k + 1) = 2 * 2 ^ k := by rw [pow_succ']
  have hcast : ((2 ^ k : Nat) : Int) = 2 ^ k := by push_cast; rfl
  have hneg : d < 0 ↔ d.toInt < 0 := Int64.lt_iff_toInt_lt
  have hpos : d > 0 ↔ 0 < d.toInt := Int64.lt_iff_toInt_lt
  have hmneg : signExtend m (k + 1) < 0 ↔ (signExtend m (k + 1)).toInt < 0 :=
    Int64.lt_iff_toInt_lt
  have hmpos : signExtend m (k + 1) > 0 ↔ 0 < (signExtend m (k + 1)).toInt :=
    Int64.lt_iff_toInt_lt
  simp only [hneg, hpos, hmneg, hmpos]
  rcases Int.lt_or_gt_of_ne hd with h | h
  · rw [if_pos h] at hm
    rw [signExtend_toInt _ hw, hm, bmod_eq_ite (by omega), Int.sign_eq_neg_one_of_neg h]
    rw [Nat.cast_sub hM'.le]
    push_cast
    split <;> split <;> (try split) <;> omega
  · rw [if_neg (by omega)] at hm
    rw [signExtend_toInt _ hw, hm, bmod_eq_ite (by omega), Int.sign_eq_one_of_pos h]
    split <;> split <;> (try split) <;> omega

/-- The computation returns; its multiplier is the rounded-up `2 ^ p / ad` with
    the sign of the divisor. -/
theorem computeSDivMagic64_spec (hw : 3 ≤ w ∧ w ≤ 64) (hlo : -2 ^ (w - 1) ≤ d.toInt)
    (hhi : d.toInt < 2 ^ (w - 1)) (h2 : 2 ≤ d.toInt.natAbs)
    (ht : t = 2 ^ (w - 1) + (if d.toInt < 0 then 1 else 0)) :
    ∃ m p M, computeSDivMagic64 d w = .ok m ∧ w ≤ p ∧ m.shift = p - w ∧ m.shiftMask = -1 ∧
      M * d.toInt.natAbs = 2 ^ p + overshoot d.toInt.natAbs p ∧
      signedNc d.toInt.natAbs t * overshoot d.toInt.natAbs p < 2 ^ p ∧ M < 2 ^ w ∧
      -1 ≤ m.numeratorFactor ∧ m.numeratorFactor ≤ 1 ∧
      (signExtend m.magic w).toInt + m.numeratorFactor * 2 ^ w = d.toInt.sign * M := by
  obtain ⟨H, hH⟩ : ∃ H, H = 2 ^ (w - 1) := ⟨_, rfl⟩
  have hhalf : 2 ^ w = 2 * H := by
    rw [hH, ← pow_succ']
    congr 1
    omega
  have h4 : 4 ≤ H := by
    rw [hH]
    exact Nat.pow_le_pow_right (n := 2) (i := 2) (by decide) (by omega)
  have hcast : ((H : Nat) : Int) = 2 ^ (w - 1) := by
    rw [hH]
    push_cast
    rfl
  have hA : d.toInt.natAbs ≤ H := by omega
  have hneg : d < 0 ↔ d.toInt < 0 := Int64.lt_iff_toInt_lt
  have hAt : d.toInt.natAbs ≤ t - 1 := by
    rw [ht, ← hH]
    split <;> omega
  have hb : SignedBase w d.toInt.natAbs (signedNc d.toInt.natAbs t) :=
    signedBase_of hw.1 h2 hAt (by omega) (by omega) (by rw [ht]; split <;> omega)
  -- the words of the computation
  have hself := signExtend_self (w := w) (by omega) hlo hhi
  have hmag : (if d < 0 then UInt64.ofInt (-d.toInt) else d.toUInt64).toNat = d.toInt.natAbs :=
    magnitude_toNat
  have hmin : ((1 : UInt64) <<< UInt64.ofNat (w - 1)).toNat = H := by
    rw [one_shiftLeft_toNat (by omega), hH]
  have hsign : (if d < 0 then (1 : UInt64) else 0).toNat = if d.toInt < 0 then 1 else 0 := by
    simp only [hneg]
    split <;> rfl
  have htw : (addMod (1 <<< UInt64.ofNat (w - 1)) (if d < 0 then 1 else 0) w).toNat = t := by
    rw [addMod_toNat hw.2, hmin, hsign, ht, ← hH, Nat.mod_eq_of_lt (by split <;> omega)]
  unfold computeSDivMagic64
  rw [throwAssert_of (by omega), ok_bind]
  dsimp only
  have hne0 : d ≠ 0 := fun h => by
    rw [h] at h2
    exact absurd h2 (by decide)
  have hne1 : ¬ (d = 1 ∨ d = -1) := by
    rintro (h | h) <;>
    · rw [h] at h2
      exact absurd h2 (by decide)
  rw [hself, throwAssert_of hne0, ok_bind, if_neg hne1]
  generalize addMod (1 <<< UInt64.ofNat (w - 1)) (if d < 0 then 1 else 0) w = tw at htw ⊢
  generalize (if d < 0 then UInt64.ofInt (-d.toInt) else d.toUInt64) = ad at hmag ⊢
  have htlt : tw.toNat < 2 ^ w := by
    rw [htw, ht, ← hH]
    split <;> omega
  have hpred : (subMod tw 1 w).toNat = t - 1 := by
    rw [subMod_toNat_of_le hw.2 htlt (by rw [UInt64.toNat_one]; omega), htw, UInt64.toNat_one]
  have hrem : (tw % ad).toNat = t % d.toInt.natAbs := by rw [UInt64.toNat_mod, htw, hmag]
  have hremlt := Nat.mod_lt t (show 0 < d.toInt.natAbs by omega)
  have hanc : (subMod (subMod tw 1 w) (tw % ad) w).toNat = signedNc d.toInt.natAbs t := by
    rw [subMod_toNat_of_le hw.2 (by omega) (by omega), hpred, hrem]
    rfl
  generalize subMod (subMod tw 1 w) (tw % ad) w = anc at hanc ⊢
  rw [← hanc, ← hmag] at hb
  have hanc2 := hb.two_le_anc
  have had2 := hb.two_le_ad
  obtain ⟨q1, r1, h1, hq1, hr1⟩ := udivremU64_of_ne (a := 1 <<< UInt64.ofNat (w - 1))
    (b := anc) (by omega)
  obtain ⟨q2, r2, h3, hq2, hr2⟩ := udivremU64_of_ne (a := 1 <<< UInt64.ofNat (w - 1))
    (b := ad) (by omega)
  rw [hmin, hH] at hq1 hr1 hq2 hr2
  have hinit : SignedTracks w ad.toNat anc.toNat (w - 1) ⟨w - 1, q1, r1, q2, r2, 0⟩ := by
    have hle1 : 2 ^ (w - 1) / anc.toNat ≤ 2 ^ (w - 1) := Nat.div_le_self _ _
    have hle2 : 2 ^ (w - 1) / ad.toNat ≤ 2 ^ (w - 1) := Nat.div_le_self _ _
    refine ⟨rfl, ?_, hr1, ?_, hr2⟩
    · rw [hq1, Nat.mod_eq_of_lt (by omega)]
    · rw [hq2, Nat.mod_eq_of_lt (by omega)]
  have hfirst : 2 ^ (w - 1 + 1) = 2 * H := by
    rw [hH, ← pow_succ']
  have hhalf_div : 2 * H / ad.toNat ≤ H := by
    rw [Nat.div_le_iff_le_mul_add_pred (by omega)]
    have : 2 * H ≤ ad.toNat * H := Nat.mul_le_mul_right H had2
    omega
  obtain ⟨s, p, hrun, ⟨hp, -, -, hsq2, -⟩, hlt, hstop, hM⟩ := sdivLoop_spec hw hb (2 * w)
    (by omega) (by omega)
    (by rw [hfirst, hhalf]; exact Nat.div_lt_self (by omega) hanc2)
    (by rw [hfirst, hhalf]; omega) hinit
  rw [h1, ok_bind, h3, ok_bind]
  dsimp only
  rw [hrun, ok_bind]
  rw [Nat.mod_eq_of_lt (by omega)] at hsq2
  have hmagic : (addMod s.q2 1 w).toNat = 2 ^ p / ad.toNat + 1 := by
    rw [addMod_toNat hw.2, hsq2, UInt64.toNat_one, Nat.mod_eq_of_lt hM]
  have hfinal : (if d < 0 then negateMod (addMod s.q2 1 w) w else addMod s.q2 1 w).toNat =
      if d.toInt < 0 then 2 ^ w - (2 ^ p / ad.toNat + 1) else 2 ^ p / ad.toNat + 1 := by
    simp only [hneg]
    split
    · rw [negateMod_toNat hw.2 (by rw [hmagic]; exact Nat.succ_pos _) (by rw [hmagic]; exact hM),
        hmagic]
    · exact hmagic
  have hover : (2 ^ p / ad.toNat + 1) * ad.toNat = 2 ^ p + overshoot ad.toNat p := by
    have hdiv := Nat.div_add_mod (2 ^ p) ad.toNat
    have hr := Nat.mod_lt (2 ^ p) (show 0 < ad.toNat by omega)
    rw [Nat.succ_mul, Nat.mul_comm]
    unfold overshoot
    omega
  have heff := signed_magic_effective (w := w) (M := 2 ^ p / ad.toNat + 1) (by omega)
    (Nat.succ_pos _) hM (by omega) hfinal
  refine ⟨_, p, 2 ^ p / ad.toNat + 1, rfl, by omega, by rw [hp], rfl, ?_, ?_, hM, ?_, ?_, heff⟩
  · rw [← hmag]
    exact hover
  · rw [← hanc, ← hmag]
    exact Nat.lt_of_not_le hstop
  · dsimp only
    split <;> (try split) <;> omega
  · dsimp only
    split <;> (try split) <;> omega

end SignedCompute

/-! ## The sequence of a magic number -/

section SignedSequence

variable {w : Nat} {m : SDivMagic64} {n : BitVec w}

theorem ofInt_toInt_of_range {x : Int} (hw : 0 < w) (hlo : -2 ^ (w - 1) ≤ x)
    (hhi : x < 2 ^ (w - 1)) : (BitVec.ofInt w x).toInt = x := by
  have hhalf : (2 ^ w : Nat) = 2 * 2 ^ (w - 1) := by
    rw [← pow_succ']
    congr 1
    omega
  have hcast : ((2 ^ (w - 1) : Nat) : Int) = 2 ^ (w - 1) := by push_cast; rfl
  rw [BitVec.toInt_ofInt]
  refine Int.bmod_eq_of_le ?_ ?_ <;> omega

/-- The high product with its correction is the high product by the multiplier. -/
theorem corrected_mulHighS (hw : 1 ≤ w ∧ w ≤ 64) (hlo : -1 ≤ m.numeratorFactor)
    (hhi : m.numeratorFactor ≤ 1) :
    (if m.numeratorFactor ≠ 0 then
      if m.numeratorFactor > 0 then
        mulHighS n (BitVec.ofInt w (signExtend m.magic w).toInt) + n
      else mulHighS n (BitVec.ofInt w (signExtend m.magic w).toInt) - n
    else mulHighS n (BitVec.ofInt w (signExtend m.magic w).toInt)) =
      BitVec.ofInt w
        (n.toInt * ((signExtend m.magic w).toInt + m.numeratorFactor * 2 ^ w) / 2 ^ w) := by
  have hpow : (2 ^ w : Int) ≠ 0 := by positivity
  have hconst : (BitVec.ofInt w (signExtend m.magic w).toInt).toInt =
      (signExtend m.magic w).toInt := by
    rw [BitVec.toInt_ofInt, signExtend_toInt _ hw, Int.bmod_bmod_of_dvd dvd_rfl]
  have hsplit : n.toInt * ((signExtend m.magic w).toInt + m.numeratorFactor * 2 ^ w) / 2 ^ w =
      n.toInt * (signExtend m.magic w).toInt / 2 ^ w + n.toInt * m.numeratorFactor := by
    rw [Int.mul_add, ← Int.mul_assoc, Int.add_mul_ediv_right _ _ hpow]
  unfold mulHighS
  rw [hconst, hsplit, BitVec.ofInt_add]
  obtain h | h | h : m.numeratorFactor = -1 ∨ m.numeratorFactor = 0 ∨ m.numeratorFactor = 1 := by
    omega
  · rw [h, if_pos (by decide), if_neg (by decide), Int.mul_neg_one, BitVec.ofInt_neg,
      BitVec.ofInt_toInt, BitVec.sub_eq_add_neg]
  · rw [h, if_neg (by decide), Int.mul_zero]
    simp
  · rw [h, if_pos (by decide), if_pos (by decide), Int.mul_one, BitVec.ofInt_toInt]

/-- A logical shift leaves the sign bit alone. -/
theorem sign_bit_eq (hw : 0 < w) (q : BitVec w) :
    (q >>> (w - 1)) &&& BitVec.ofInt w (-1) = BitVec.ofInt w (if q.toInt < 0 then 1 else 0) := by
  have hofOne : BitVec.ofInt w 1 = 1#w := BitVec.ofInt_natCast w 1
  have hofZero : BitVec.ofInt w 0 = 0#w := BitVec.ofInt_natCast w 0
  have hones : BitVec.ofInt w (-1) = BitVec.allOnes w := by
    rw [BitVec.ofInt_neg, hofOne, BitVec.neg_one_eq_allOnes]
  have hlt := q.isLt
  have hhalf : 2 ^ w = 2 * 2 ^ (w - 1) := by
    rw [← pow_succ']
    congr 1
    omega
  have hone : 1 < 2 ^ w := Nat.one_lt_two_pow (by omega)
  rw [hones, BitVec.and_allOnes]
  refine BitVec.eq_of_toNat_eq ?_
  rw [BitVec.toNat_ushiftRight, Nat.shiftRight_eq_div_pow]
  by_cases hneg : q.toInt < 0
  · have hge := BitVec.toInt_neg_iff.mp hneg
    rw [if_pos hneg, hofOne, BitVec.toNat_ofNat, Nat.mod_eq_of_lt hone]
    exact Nat.div_eq_of_lt_le (by omega) (by omega)
  · have hge := mt BitVec.toInt_neg_iff.mpr hneg
    rw [if_neg hneg, hofZero, BitVec.toNat_ofNat, Nat.zero_mod]
    exact Nat.div_eq_of_lt (by omega)

theorem ite_sshiftRight_toInt (q : BitVec w) (k : Nat) :
    (if k ≠ 0 then q.sshiftRight k else q).toInt = q.toInt / 2 ^ k := by
  split
  · rw [BitVec.toInt_sshiftRight, Int.shiftRight_eq_div_pow]
    push_cast
    rfl
  · rename_i h
    rw [not_not.mp h, pow_zero, Int.ediv_one]

/-- The product by a multiplier of less than `w` bits has its high part in range. -/
theorem mul_ediv_range {x K : Int} (hlo : -2 ^ (w - 1) ≤ x) (hhi : x < 2 ^ (w - 1))
    (hK : K.natAbs < 2 ^ w) :
    -2 ^ (w - 1) ≤ x * K / 2 ^ w ∧ x * K / 2 ^ w < 2 ^ (w - 1) := by
  have hcast : ((2 ^ (w - 1) : Nat) : Int) = 2 ^ (w - 1) := by push_cast; rfl
  have hM : (0 : Int) < 2 ^ w := by positivity
  have habs : (x * K).natAbs ≤ 2 ^ (w - 1) * (2 ^ w - 1) := by
    rw [Int.natAbs_mul]
    exact Nat.mul_le_mul (by omega) (by omega)
  have hroom : 2 ^ (w - 1) * (2 ^ w - 1) < 2 ^ (w - 1) * 2 ^ w :=
    Nat.mul_lt_mul_of_pos_left (Nat.sub_lt (Nat.two_pow_pos w) Nat.one_pos) (Nat.two_pow_pos _)
  have hprod : ((2 ^ (w - 1) * 2 ^ w : Nat) : Int) = 2 ^ (w - 1) * 2 ^ w := by push_cast; rfl
  constructor
  · refine (Int.le_ediv_iff_mul_le hM).mpr ?_
    rw [Int.neg_mul]
    omega
  · refine (Int.ediv_lt_iff_lt_mul hM).mpr ?_
    omega

/-- The quotient of the sequence is the one by the multiplier `K`, raised by one
    when it is negative. -/
theorem sdivSequence_toInt {K : Int} (hw : 1 ≤ w ∧ w ≤ 64) (hlo : -1 ≤ m.numeratorFactor)
    (hhi : m.numeratorFactor ≤ 1) (hmask : m.shiftMask = -1)
    (hK : (signExtend m.magic w).toInt + m.numeratorFactor * 2 ^ w = K)
    (hK' : K.natAbs < 2 ^ w) :
    (sdivSequence m n).toInt = n.toInt * K / 2 ^ (w + m.shift) +
      (if n.toInt * K / 2 ^ (w + m.shift) < 0 then 1 else 0) := by
  obtain ⟨hlo', hhi'⟩ := mul_ediv_range (BitVec.le_toInt n) BitVec.toInt_lt hK'
  have hdiv : ∀ x : Int, x / 2 ^ w / 2 ^ m.shift = x / 2 ^ (w + m.shift) := fun x => by
    rw [Int.ediv_ediv_of_nonneg (by positivity), ← pow_add]
  unfold sdivSequence
  dsimp only
  rw [corrected_mulHighS hw hlo hhi, hK, hmask, sign_bit_eq (by omega)]
  generalize hq : (if m.shift ≠ 0 then
    (BitVec.ofInt w (n.toInt * K / 2 ^ w)).sshiftRight m.shift
    else BitVec.ofInt w (n.toInt * K / 2 ^ w)) = q
  have hqv : q.toInt = n.toInt * K / 2 ^ (w + m.shift) := by
    rw [← hq, ite_sshiftRight_toInt, ofInt_toInt_of_range (by omega) hlo' hhi', hdiv]
  have hqlo := BitVec.le_toInt q
  have hqhi := BitVec.toInt_lt (x := q)
  have hpos : (0 : Int) < 2 ^ (w - 1) := by positivity
  have hsum : q + BitVec.ofInt w (if q.toInt < 0 then 1 else 0) =
      BitVec.ofInt w (q.toInt + if q.toInt < 0 then 1 else 0) := by
    rw [BitVec.ofInt_add, BitVec.ofInt_toInt]
  rw [hsum, ofInt_toInt_of_range (by omega) (by split <;> omega) (by split <;> omega), hqv]

end SignedSequence

/-! ## Exactness -/

section SignedExact

variable {w : Nat} {A t p N : Nat}

theorem overshoot_pos (hA : 0 < A) : 0 < overshoot A p := by
  have := Nat.mod_lt (2 ^ p) hA
  unfold overshoot
  omega

/-- The overshoot at most doubles. -/
theorem overshoot_add_le (hA : 0 < A) (j : Nat) :
    overshoot A (p + j) ≤ 2 ^ j * overshoot A p := by
  induction j with
  | zero => exact (Nat.one_mul _).ge
  | succ j ih =>
    have hr := Nat.mod_lt (2 ^ (p + j)) hA
    have hmod := two_mul_add_mod (x := 2 ^ (p + j)) (b := 0) hA (by decide)
    rw [Nat.add_zero, Nat.add_zero, ← pow_succ'] at hmod
    have hstep : overshoot A (p + j + 1) ≤ 2 * overshoot A (p + j) := by
      unfold overshoot
      rw [hmod]
      split <;> omega
    calc overshoot A (p + (j + 1)) ≤ 2 * overshoot A (p + j) := hstep
      _ ≤ 2 * (2 ^ j * overshoot A p) := Nat.mul_le_mul_left 2 ih
      _ = 2 ^ (j + 1) * overshoot A p := by rw [pow_succ', Nat.mul_assoc]

/-- Every numerator below `t` has room for the error. -/
theorem signed_room (hA : 2 ≤ A) (hAt : A ≤ t) (he : signedNc A t * overshoot A p < 2 ^ p)
    (hN : N < t) : N * overshoot A p < (A - N % A) * 2 ^ p := by
  have hr := Nat.mod_lt t (show 0 < A by omega)
  have hdiv := Nat.div_add_mod t A
  have hmul : A * 1 ≤ A * (t / A) :=
    Nat.mul_le_mul_left A (Nat.div_pos hAt (by omega))
  have hdvd : A ∣ signedNc A t + 1 := ⟨t / A, by unfold signedNc; omega⟩
  refine error_lt_room (by omega) hdvd he ?_
  unfold signedNc
  omega

/-- The least value by a positive divisor may use up its room. -/
theorem signed_room_min (hw : 1 ≤ w) (hwp : w ≤ p) (hA : 2 ≤ A) (hAt : A ≤ 2 ^ (w - 1))
    (he : signedNc A (2 ^ (w - 1)) * overshoot A p < 2 ^ p) :
    2 ^ (w - 1) * overshoot A p ≤ (A - 2 ^ (w - 1) % A) * 2 ^ p := by
  have hr := Nat.mod_lt (2 ^ (w - 1)) (show 0 < A by omega)
  have hdiv := Nat.div_add_mod (2 ^ (w - 1)) A
  have hmul : A * 1 ≤ A * (2 ^ (w - 1) / A) :=
    Nat.mul_le_mul_left A (Nat.div_pos hAt (by omega))
  by_cases hlast : 2 ^ (w - 1) % A = A - 1
  · -- the next multiple is one away, and the error starts from one
    have hfirst : overshoot A (w - 1) = 1 := by
      unfold overshoot
      omega
    have hgrow := overshoot_add_le (A := A) (p := w - 1) (by omega) (p - (w - 1))
    rw [hfirst, Nat.mul_one, show w - 1 + (p - (w - 1)) = p by omega] at hgrow
    have hpow : 2 ^ (w - 1) * 2 ^ (p - (w - 1)) = 2 ^ p := by
      rw [← pow_add]
      congr 1
      omega
    rw [hlast, show A - (A - 1) = 1 by omega, Nat.one_mul, ← hpow]
    exact Nat.mul_le_mul_left _ hgrow
  · have hdvd : A ∣ signedNc A (2 ^ (w - 1)) + 1 :=
      ⟨2 ^ (w - 1) / A, by unfold signedNc; omega⟩
    refine (error_lt_room (by omega) hdvd he ?_).le
    unfold signedNc
    omega

/-- The signed sequence divides every numerator by every divisor but zero and the
    units. -/
theorem sdivMagic_exact (w : Nat) (d : Int64) (hw : 3 ≤ w ∧ w ≤ 64)
    (hlo : -2 ^ (w - 1) ≤ d.toInt) (hhi : d.toInt < 2 ^ (w - 1)) (h0 : d.toInt ≠ 0)
    (h1 : d.toInt ≠ 1) (h1' : d.toInt ≠ -1) :
    ∃ m, computeSDivMagic64 d w = .ok m ∧
      ∀ n : BitVec w, (sdivSequence m n).toInt = n.toInt.tdiv d.toInt := by
  have hcast : ((2 ^ (w - 1) : Nat) : Int) = 2 ^ (w - 1) := by push_cast; rfl
  obtain ⟨m, p, M, hm, hwp, hshift, hmask, hM, he, hMlt, hnlo, hnhi, hK⟩ :=
    computeSDivMagic64_spec hw hlo hhi (by omega) rfl
  refine ⟨m, hm, fun n => ?_⟩
  have hnlo' := BitVec.le_toInt n
  have hnhi' := BitVec.toInt_lt (x := n)
  have hsign : d.toInt.sign = -1 ∧ d.toInt < 0 ∨ d.toInt.sign = 1 ∧ 0 < d.toInt := by
    rcases Int.lt_or_gt_of_ne h0 with h | h
    · exact Or.inl ⟨Int.sign_eq_neg_one_of_neg h, h⟩
    · exact Or.inr ⟨Int.sign_eq_one_of_pos h, h⟩
  rw [sdivSequence_toInt (by omega) hnlo hnhi hmask hK (by
      rw [Int.natAbs_mul, Int.natAbs_natCast]
      rcases hsign with ⟨h, -⟩ | ⟨h, -⟩ <;> rw [h] <;> simpa using hMlt),
    hshift, show w + (p - w) = p by omega, ← Int.mul_assoc]
  have htdiv : n.toInt.tdiv d.toInt = (n.toInt * d.toInt.sign).tdiv d.toInt.natAbs := by
    rcases hsign with ⟨h, hneg⟩ | ⟨h, hpos⟩
    · rw [h, Int.mul_neg_one, show ((d.toInt.natAbs : Nat) : Int) = -d.toInt by omega,
        Int.neg_tdiv_neg]
    · rw [h, Int.mul_one, show ((d.toInt.natAbs : Nat) : Int) = d.toInt by omega]
  have hpow : (2 ^ p : Int) = ((2 ^ p : Nat) : Int) := by push_cast; rfl
  rw [htdiv, hpow]
  refine mul_ediv_add_sign (by omega) hM (overshoot_pos (by omega)) (fun hx => ?_) (fun hx => ?_)
  · refine signed_room (by omega) ?_ he ?_
    · split <;> omega
    · rcases hsign with ⟨h, hneg⟩ | ⟨h, hpos⟩
      · rw [h] at hx ⊢
        rw [if_pos hneg]
        omega
      · rw [h] at hx ⊢
        rw [if_neg (by omega)]
        omega
  · rcases hsign with ⟨h, hneg⟩ | ⟨h, hpos⟩
    · rw [h] at hx ⊢
      refine (signed_room (by omega) ?_ he ?_).le
      · rw [if_pos hneg]
        omega
      · rw [if_pos hneg]
        omega
    · rw [h, Int.mul_one] at hx ⊢
      rw [if_neg (by omega), Nat.add_zero] at he
      by_cases hmin : n.toInt.natAbs = 2 ^ (w - 1)
      · rw [hmin]
        exact signed_room_min (by omega) hwp (by omega) (by omega) he
      · exact (signed_room (by omega) (by omega) he (by omega)).le

theorem sdivMagic_exact_neg_seven : ∃ m, computeSDivMagic64 (-7) 8 = .ok m ∧
    ∀ n : BitVec 8, (sdivSequence m n).toInt = n.toInt.tdiv (-7 : Int64).toInt :=
  sdivMagic_exact 8 (-7) (by decide) (by decide) (by decide) (by decide) (by decide) (by decide)

end SignedExact

end ConstdivMagic
end Bambu
