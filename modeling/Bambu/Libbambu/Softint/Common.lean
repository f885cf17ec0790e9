/-
  Bambu.Libbambu.Softint.Common

  What the software dividers of `softint` share: the leading-zero counts of
  `softint.h` and the signed entry points, which divide magnitudes and put the
  signs back.  Negation is taken modulo the width, as in the minimum value's case.
-/

import Bambu.Libbambu.Macros

namespace Bambu.Libbambu.Softint

variable {w : Nat}

/-! ## Leading zeros -/

/-- `clz(v)`; the count is kept in five bits. -/
def clz (v : BitVec 32) : Nat := countLeadingZeroMacro 32 (v.setWidth 64) % 2 ^ 5

/-- `clzll(v)`; the count is kept in six bits. -/
def clzll (v : BitVec 64) : Nat := countLeadingZeroMacro 64 v % 2 ^ 6

theorem clz_eq {v : BitVec 32} (hv : 0 < v.toNat) : clz v = 31 - Nat.log 2 v.toNat := by
  have hval : (v.setWidth 64).toNat = v.toNat := by
    rw [BitVec.toNat_setWidth, Nat.mod_eq_of_lt (by have := v.isLt; omega)]
  unfold clz
  rw [countLeadingZeroMacro_eq (by decide) (hval ▸ v.isLt) (hval ▸ hv), hval]
  exact Nat.mod_eq_of_lt (by omega)

theorem clzll_eq {v : BitVec 64} (hv : 0 < v.toNat) : clzll v = 63 - Nat.log 2 v.toNat := by
  unfold clzll
  rw [countLeadingZeroMacro_eq (le_refl 64) v.isLt hv]
  exact Nat.mod_eq_of_lt (by omega)

example : clz 1 = 31 ∧ clz 0 = 31 ∧ clzll 0x100000000 = 31 := by decide

theorem toNat_pos {y : BitVec w} (hy : y ≠ 0) : 0 < y.toNat :=
  Nat.pos_of_ne_zero fun h => hy (BitVec.eq_of_toNat_eq h)

theorem log_lt_width {y : BitVec w} (hy : 0 < y.toNat) : Nat.log 2 y.toNat < w :=
  (Nat.log_lt_iff_lt_pow (by decide) (by omega)).mpr y.isLt

/-! ## Signed entry points -/

/-- An unsigned divider: the quotient and what it stores through `res`. -/
abbrev Udivmod (w : Nat) := BitVec w → BitVec w → BitVec w × BitVec w

/-- What an exact divider returns on a dividend and a divisor. -/
def Udivmod.ExactAt (udivmod : Udivmod w) (x y : BitVec w) : Prop :=
  (udivmod x y).1.toNat = x.toNat / y.toNat ∧ (udivmod x y).2.toNat = x.toNat % y.toNat

theorem Udivmod.exactAt_iff {udivmod : Udivmod w} {x y : BitVec w} :
    udivmod.ExactAt x y ↔ udivmod x y = (x / y, x % y) := by
  unfold Udivmod.ExactAt
  rw [Prod.ext_iff, ← BitVec.toNat_inj, ← BitVec.toNat_inj, BitVec.toNat_udiv,
    BitVec.toNat_umod]

/-- The body of the `__div*` functions.  `vNeg` is the test `v < 0`, and `v` is
the divisor that is passed on, its sign already removed. -/
def signedDiv (udivmod : Udivmod w) (u : BitVec w) (vNeg : Bool) (v : BitVec w) : BitVec w :=
  let c := false
  let c := if u.slt 0 then !c else c
  let u := if u.slt 0 then -u else u
  let c := if vNeg then !c else c
  let w := (udivmod u v).1
  if c then -w else w

/-- The body of the `__mod*` functions: only the dividend's sign is put back. -/
def signedMod (udivmod : Udivmod w) (u v : BitVec w) : BitVec w :=
  let c := false
  let c := if u.slt 0 then !c else c
  let u := if u.slt 0 then -u else u
  let w := (udivmod u v).2
  if c then -w else w

/-- `if(v < 0) v = -v`. -/
def magnitude (v : BitVec w) : BitVec w := if v.slt 0 then -v else v

theorem slt_zero (v : BitVec w) : v.slt 0 = v.msb := BitVec.slt_zero_eq_msb

theorem magnitude_eq_zero_iff (v : BitVec w) : magnitude v = 0 ↔ v = 0 := by
  unfold magnitude
  split
  · exact BitVec.neg_eq_zero_iff
  · exact Iff.rfl

/-- The quotient of the magnitudes, signed, is the truncated quotient; `s` is the
signed divisor that `vNeg` and `v` stand for. -/
theorem signedDiv_eq_sdiv {udivmod : Udivmod w} {u v s : BitVec w} {vNeg : Bool}
    (hneg : vNeg = s.slt 0)
    (h : udivmod (magnitude u) v = (magnitude u / magnitude s, magnitude u % magnitude s)) :
    signedDiv udivmod u vNeg v = u.sdiv s := by
  unfold signedDiv
  dsimp only
  rw [show (if u.slt 0 then -u else u) = magnitude u from rfl, h, hneg, BitVec.sdiv_eq]
  unfold magnitude
  simp only [slt_zero]
  cases u.msb <;> cases s.msb <;> rfl

/-- The remainder of the magnitudes, with the dividend's sign, is the remainder. -/
theorem signedMod_eq_srem {udivmod : Udivmod w} {u v s : BitVec w}
    (h : udivmod (magnitude u) v = (magnitude u / magnitude s, magnitude u % magnitude s)) :
    signedMod udivmod u v = u.srem s := by
  unfold signedMod
  dsimp only
  rw [show (if u.slt 0 then -u else u) = magnitude u from rfl, h, BitVec.srem_eq]
  unfold magnitude
  simp only [slt_zero]
  cases u.msb <;> cases s.msb <;> rfl

/-- The magnitude of a short divisor is the same taken before or after it is
widened, once the widened word is cut back. -/
theorem magnitude_signExtend (v : BitVec 32) :
    valResize ((magnitude v).signExtend 64) 32 = magnitude (v.signExtend 64) := by
  have hv := v.isLt
  have hmsb : (v.signExtend 64).msb = v.msb := by
    rw [BitVec.msb_signExtend]
    simp
  apply BitVec.eq_of_toNat_eq
  rw [toNat_valResize, BitVec.toNat_signExtend, BitVec.toNat_setWidth]
  unfold magnitude
  simp only [slt_zero, hmsb]
  cases hm : v.msb with
  | false =>
    simp only [Bool.false_eq_true, if_false, hm, BitVec.toNat_signExtend, BitVec.toNat_setWidth]
    omega
  | true =>
    have hge : 2 ^ 31 ≤ v.toNat := BitVec.toNat_ge_of_msb_true hm
    simp only [if_true, hm, BitVec.toNat_neg, BitVec.toNat_signExtend, BitVec.toNat_setWidth]
    split <;> omega

theorem signExtend_ne_zero {v : BitVec 32} (hv : v ≠ 0) : v.signExtend 64 ≠ 0 := by
  intro h
  apply hv
  have hnat := congrArg BitVec.toNat h
  have hlt := v.isLt
  rw [BitVec.toNat_signExtend, BitVec.toNat_setWidth, Nat.mod_eq_of_lt (by omega)] at hnat
  exact BitVec.eq_of_toNat_eq (Nat.eq_zero_of_add_eq_zero_right hnat)


/-! ## The quotient and the remainder of the language -/

theorem sdiv_eq_ofInt (u v : BitVec w) : u.sdiv v = BitVec.ofInt w (u.toInt.tdiv v.toInt) := by
  apply BitVec.eq_of_toInt_eq
  rw [BitVec.toInt_sdiv, BitVec.toInt_ofInt]

theorem srem_eq_ofInt (u v : BitVec w) : u.srem v = BitVec.ofInt w (u.toInt.tmod v.toInt) := by
  rw [← BitVec.toInt_srem, BitVec.ofInt_toInt]

/-- A signed entry point over an exact divider. -/
theorem signed_exact {udivmod : Udivmod w} (h : ∀ x y, y ≠ 0 → udivmod.ExactAt x y)
    (u : BitVec w) {v : BitVec w} (hv : v ≠ 0) :
    signedDiv udivmod u (v.slt 0) (magnitude v) = BitVec.ofInt w (u.toInt.tdiv v.toInt) ∧
      signedMod udivmod u (magnitude v) = BitVec.ofInt w (u.toInt.tmod v.toInt) := by
  have hexact := h (magnitude u) (magnitude v) (mt (magnitude_eq_zero_iff v).mp hv)
  rw [Udivmod.exactAt_iff] at hexact
  rw [signedDiv_eq_sdiv rfl hexact, signedMod_eq_srem hexact, sdiv_eq_ofInt, srem_eq_ofInt]
  exact ⟨rfl, rfl⟩

/-- A short divisor is passed on unchanged. -/
theorem valResize_setWidth (y : BitVec 32) : valResize (y.setWidth 64) 32 = y.setWidth 64 := by
  have hy := y.isLt
  apply BitVec.eq_of_toNat_eq
  rw [toNat_valResize, BitVec.toNat_setWidth]
  omega

theorem setWidth_ne_zero {y : BitVec 32} (hy : y ≠ 0) : y.setWidth 64 ≠ 0 := by
  intro h
  apply hy
  have hnat := congrArg BitVec.toNat h
  rw [BitVec.toNat_setWidth, Nat.mod_eq_of_lt (by have := y.isLt; omega)] at hnat
  exact BitVec.eq_of_toNat_eq hnat

end Bambu.Libbambu.Softint
