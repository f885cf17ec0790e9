/-
  Bambu.Libbambu.Softfloat.RoundPack

  The jamming shifts, `__packFloat32` and `__packFloat64`, and the round-and-pack
  routines.  The 32-bit and the 64-bit version are one definition with the width of the
  word as a parameter; they read the exception mode in opposite ways, so that what they
  take from it is a parameter too.  The exception flags are not kept.
-/

import Bambu.Libbambu.Softfloat.Common

namespace Bambu.Libbambu.Softfloat

open Bambu.Math

/-- A `bool` in an expression of `w` bits. -/
def flag (w : Nat) (b : Bool) : BitVec w := (BitVec.ofBool b).setWidth w

/-- The jamming shift of a word; `count` is an `__int16_t`. -/
def shiftRightJamming {w : Nat} (a : BitVec w) (count : BitVec 16) : BitVec w :=
  if count = 0 then a
  else if count.toInt < w then
    (a >>> count.toNat) ||| flag w (a <<< ((-count).toNat % w) != 0)
  else flag w (a != 0)

/-- `__shift32RightJamming`. -/
def shift32RightJamming (a : BitVec 32) (count : BitVec 16) : BitVec 32 := shiftRightJamming a count

/-- `__shift64RightJamming`. -/
def shift64RightJamming (a : BitVec 64) (count : BitVec 16) : BitVec 64 := shiftRightJamming a count

/-- The sum of the three fields. -/
def pack {w : Nat} (zSign : Bool) (zExp : Int) (zSig : BitVec w) (expBits fracBits : Nat) :
    BitVec w :=
  (flag w zSign <<< (expBits + fracBits)) + (BitVec.ofInt w zExp <<< fracBits) + zSig

/-- `__packFloat32`. -/
def packFloat32 (zSign : Bool) (zExp : Int) (zSig : BitVec 32) (expBits fracBits : Nat) :
    BitVec 32 :=
  pack zSign zExp zSig expBits fracBits

/-- `__packFloat64`. -/
def packFloat64 (zSign : Bool) (zExp : Int) (zSig : BitVec 64) (expBits fracBits : Nat) :
    BitVec 64 :=
  pack zSign zExp zSig expBits fracBits

/-- The rounded significand. -/
def roundSig {w : Nat} (zSig : BitVec w) (zSign : Bool) (extBits : Nat) (mode : RoundingMode) :
    BitVec w :=
  let roundIncrement := (roundIncrement mode zSign extBits).setWidth w
  let roundBits := zSig &&& (ones extBits).setWidth w
  ((zSig + roundIncrement) >>> extBits) &&&
    ~~~flag w ((roundBits ^^^ ((1 : BitVec w) <<< (extBits - 1))) == 0 && mode = .nearestEven)

/-- The round-and-pack routine on words of `w` bits.  With `finite` the greatest exponent
holds numbers, and overflow gives the greatest magnitude of all. -/
def roundAndPack {w : Nat} (finite zSign : Bool) (zExp : Int) (zSig : BitVec w)
    (expBits fracBits : Nat) (subnorm : Bool) (mode : RoundingMode) : BitVec w :=
  let extBits := w - 2 - fracBits
  let expMax : Int := 2 ^ expBits - 1
  let limit := expMax - (if finite then 1 else 2)
  let increment := (roundIncrement mode zSign extBits).setWidth w
  let special := limit ≤ zExp % 2 ^ 32
  if special ∧ (limit < zExp ∨ (zExp = limit ∧ (zSig + increment).msb = true)) then
    ((flag w zSign <<< (expBits + fracBits)) ||| (BitVec.ofInt w expMax <<< fracBits) |||
      ((flag w finite <<< fracBits) - flag w finite)) - flag w (increment == 0)
  else if special ∧ zExp < 0 then
    if subnorm then
      let zSig := shiftRightJamming zSig (BitVec.ofInt 16 (-zExp))
      pack zSign 0 (roundSig zSig zSign extBits mode) expBits fracBits
    else flag w zSign <<< (expBits + fracBits)
  else
    let zSig := roundSig zSig zSign extBits mode
    pack zSign (if zSig = 0 then 0 else zExp) zSig expBits fracBits

/-- `__roundAndPackFloat32`; here it is `FLOAT_EXC_STD` that leaves the greatest exponent
to numbers. -/
def roundAndPackFloat32 (zSign : Bool) (zExp : Int) (zSig : BitVec 32) (expBits fracBits : Nat)
    (exc : ExcMode) (subnorm : Bool) (mode : RoundingMode) : BitVec 32 :=
  roundAndPack (exc = .std) zSign zExp zSig expBits fracBits subnorm mode

/-- `__roundAndPackFloat64`. -/
def roundAndPackFloat64 (zSign : Bool) (zExp : Int) (zSig : BitVec 64) (expBits fracBits : Nat)
    (exc : ExcMode) (subnorm : Bool) (mode : RoundingMode) : BitVec 64 :=
  roundAndPack (exc ≠ .std) zSign zExp zSig expBits fracBits subnorm mode

/-! ## Words -/

section Words

variable {w : Nat}

theorem toNat_flag (hw : 0 < w) (b : Bool) : (flag w b).toNat = b.toNat := by
  unfold flag
  rw [BitVec.toNat_setWidth, BitVec.toNat_ofBool]
  have hle := Bool.toNat_le b
  have hpow : 2 ^ 1 ≤ 2 ^ w := Nat.pow_le_pow_right (by decide) hw
  exact Nat.mod_eq_of_lt (by omega)

/-- The last bit is cleared under a flag. -/
theorem toNat_and_not_flag (hw : 0 < w) (x : BitVec w) (b : Bool) :
    (x &&& ~~~flag w b).toNat = if b then x.toNat / 2 * 2 else x.toNat := by
  cases b with
  | false =>
    have hflag : flag w false = 0 := BitVec.eq_of_toNat_eq (by rw [toNat_flag hw]; simp)
    rw [hflag, if_neg Bool.false_ne_true, BitVec.ofNat_eq_ofNat, BitVec.not_zero,
      BitVec.and_allOnes]
  | true =>
    have hclear : x &&& ~~~flag w true = (x >>> 1) <<< 1 := by
      apply BitVec.eq_of_getLsbD_eq
      intro i hi
      have hbit : (flag w true).getLsbD i = decide (i = 0) := by
        rw [← BitVec.testBit_toNat, toNat_flag hw, Bool.toNat_true]
        rw [Bool.eq_iff_iff, Nat.testBit_one_eq_true_iff_self_eq_zero, decide_eq_true_eq]
      rw [BitVec.getLsbD_and, BitVec.getLsbD_not, hbit, BitVec.getLsbD_shiftLeft,
        BitVec.getLsbD_ushiftRight]
      cases i with
      | zero => simp
      | succ i => simp [hi, Nat.add_comm]
    have hlt := x.isLt
    rw [hclear, if_pos rfl, BitVec.toNat_shiftLeft, BitVec.toNat_ushiftRight, Nat.shiftLeft_eq,
      Nat.shiftRight_eq_div_pow, Nat.pow_one]
    exact Nat.mod_eq_of_lt (by omega)

/-- A jamming shift of a word. -/
theorem toNat_shiftRightJamming (hw : 0 < w) (hdvd : w ∣ 2 ^ 16) (a : BitVec w) {s : Nat}
    (hs : s < 2 ^ 15) : (shiftRightJamming a (BitVec.ofInt 16 s)).toNat = jam a.toNat s := by
  have hnat : (BitVec.ofInt 16 (s : Int)).toNat = s := by
    rw [BitVec.toNat_ofInt]
    omega
  have hint : (BitVec.ofInt 16 (s : Int)).toInt = s := by
    rw [BitVec.toInt_ofInt]
    exact Int.bmod_eq_of_le (by omega) (by omega)
  have hzero : BitVec.ofInt 16 (s : Int) = 0 ↔ s = 0 := by
    rw [← BitVec.toNat_inj, hnat]
    rfl
  have hbool : ∀ x : BitVec w, (x != 0) = decide (x.toNat ≠ 0) := by
    intro x
    have hnot : (0 : BitVec w).toNat = 0 := by simp
    rw [Bool.eq_iff_iff, bne_iff_ne, decide_eq_true_eq, ne_eq, ← BitVec.toNat_inj, hnot]
  unfold shiftRightJamming
  simp only [hzero, hint, Nat.cast_lt]
  rcases Nat.eq_zero_or_pos s with rfl | hs0
  · rw [if_pos rfl]
    unfold jam
    rw [Nat.pow_zero, Nat.div_one, Nat.mod_one, decide_eq_false (by simp), Bool.toNat_false,
      Nat.or_zero]
  rw [if_neg (show ¬ s = 0 by omega)]
  by_cases hsw : s < w
  · -- The bits shifted out are shifted to the top.
    have hneg : (-BitVec.ofInt 16 (s : Int)).toNat % w = w - s := by
      rw [BitVec.toNat_neg, hnat]
      obtain ⟨k, hk⟩ := hdvd
      obtain ⟨l, rfl⟩ : ∃ l, k = l + 1 := ⟨k - 1, by
        rcases Nat.eq_zero_or_pos k with rfl | h
        · omega
        · omega⟩
      rw [Nat.mul_succ] at hk
      rw [Nat.mod_eq_of_lt (show 2 ^ 16 - s < 2 ^ 16 by omega),
        show 2 ^ 16 - s = w - s + w * l by omega, Nat.add_mul_mod_self_left]
      exact Nat.mod_eq_of_lt (by omega)
    have hout : (a <<< (w - s)).toNat = a.toNat % 2 ^ s * 2 ^ (w - s) := by
      rw [BitVec.toNat_shiftLeft, Nat.shiftLeft_eq]
      conv_lhs => rw [show (2 : Nat) ^ w = 2 ^ s * 2 ^ (w - s) by
        rw [← Nat.pow_add]; congr 1; omega]
      exact Nat.mul_mod_mul_right _ _ _
    have hiff : (a <<< (w - s)).toNat ≠ 0 ↔ a.toNat % 2 ^ s ≠ 0 := by
      rw [hout, ne_eq, Nat.mul_eq_zero]
      have hpos := (Nat.two_pow_pos (w - s)).ne'
      tauto
    rw [if_pos hsw, hneg, hnat, BitVec.toNat_or, toNat_flag hw, BitVec.toNat_ushiftRight,
      Nat.shiftRight_eq_div_pow, hbool, decide_eq_decide.mpr hiff]
    rfl
  · have hlt : a.toNat < 2 ^ s :=
      lt_of_lt_of_le a.isLt (Nat.pow_le_pow_right (by decide) (Nat.not_lt.mp hsw))
    rw [if_neg hsw, toNat_flag hw, hbool]
    unfold jam
    rw [Nat.div_eq_of_lt hlt, Nat.mod_eq_of_lt hlt, Nat.zero_or]

/-- The packed fields, where they do not overflow the word. -/
theorem toNat_pack (hw : 0 < w) (s : Bool) (X : Nat) (Z : BitVec w) (e f : Nat)
    (h : s.toNat * 2 ^ (e + f) + X * 2 ^ f + Z.toNat < 2 ^ w) :
    (pack s X Z e f).toNat = s.toNat * 2 ^ (e + f) + X * 2 ^ f + Z.toNat := by
  unfold pack
  rw [BitVec.ofInt_natCast, BitVec.toNat_add, BitVec.toNat_add, BitVec.toNat_shiftLeft,
    BitVec.toNat_shiftLeft, toNat_flag hw, BitVec.toNat_ofNat, Nat.shiftLeft_eq, Nat.shiftLeft_eq,
    Nat.mod_mul_mod, Nat.mod_eq_of_lt (show X * 2 ^ f < 2 ^ w by omega),
    Nat.mod_eq_of_lt (show s.toNat * 2 ^ (e + f) < 2 ^ w by omega),
    Nat.mod_eq_of_lt (show s.toNat * 2 ^ (e + f) + X * 2 ^ f < 2 ^ w by omega)]
  exact Nat.mod_eq_of_lt h

/-- The increment of the nearest-even mode. -/
theorem toNat_roundIncrement (w : Nat) (s : Bool) {ext : Nat} (hext : ext < w) (h64 : ext < 64) :
    ((roundIncrement .nearestEven s ext).setWidth w).toNat = 2 ^ (ext - 1) := by
  have hlt : 2 ^ (ext - 1) < 2 ^ w := Nat.pow_lt_pow_right (by decide) (by omega)
  have hone : (1 : Udatatype).toNat * 2 ^ (ext - 1) = 2 ^ (ext - 1) := Nat.one_mul _
  unfold roundIncrement
  dsimp only
  rw [BitVec.toNat_setWidth, toNat_shiftLeft_of_lt, hone, Nat.mod_eq_of_lt hlt]
  rw [hone]
  exact Nat.pow_lt_pow_right (by decide) (by omega)

/-- The rounded significand in the nearest-even mode. -/
theorem toNat_roundSig (Z : BitVec w) (s : Bool) {ext : Nat} (hext0 : 0 < ext) (hext : ext < w)
    (h64 : ext < 64) (hfit : Z.toNat + 2 ^ (ext - 1) < 2 ^ w) :
    (roundSig Z s ext .nearestEven).toNat = roundEven Z.toNat ext := by
  obtain ⟨H, hH⟩ : ∃ H, H = 2 ^ (ext - 1) := ⟨_, rfl⟩
  have hpow : 2 ^ ext = H + H := by
    rw [hH, ← Nat.two_mul, ← Nat.pow_succ']
    congr 1
    omega
  have hHpos : 0 < H := hH ▸ Nat.two_pow_pos _
  have hHlt : H < 2 ^ w := hH ▸ Nat.pow_lt_pow_right (by decide) (by omega)
  have hsum : ((Z + (roundIncrement .nearestEven s ext).setWidth w) >>> ext).toNat =
      (Z.toNat + H) / (H + H) := by
    rw [BitVec.toNat_ushiftRight, Nat.shiftRight_eq_div_pow, BitVec.toNat_add,
      toNat_roundIncrement w s hext h64, Nat.mod_eq_of_lt hfit, ← hH, hpow]
  have hbits : (Z &&& (ones ext).setWidth w).toNat = Z.toNat % (H + H) := by
    have hlt : 2 ^ ext - 1 < 2 ^ w := by
      have := Nat.pow_lt_pow_right (a := 2) (by decide) hext
      omega
    rw [BitVec.toNat_and, BitVec.toNat_setWidth, toNat_ones h64, Nat.mod_eq_of_lt hlt,
      Nat.and_two_pow_sub_one_eq_mod, hpow]
  have hhalf : ((1 : BitVec w) <<< (ext - 1)).toNat = H := by
    have hone : (1 : BitVec w).toNat = 1 := by
      rw [BitVec.ofNat_eq_ofNat, BitVec.toNat_ofNat]
      exact Nat.mod_eq_of_lt (Nat.one_lt_two_pow (by omega))
    rw [BitVec.toNat_shiftLeft, Nat.shiftLeft_eq, hone, Nat.one_mul, ← hH, Nat.mod_eq_of_lt hHlt]
  have htie : ((Z &&& (ones ext).setWidth w) ^^^ ((1 : BitVec w) <<< (ext - 1)) == 0) =
      decide (Z.toNat % (H + H) = H) := by
    rw [Bool.eq_iff_iff, beq_iff_eq, decide_eq_true_eq, ← hbits, ← hhalf, BitVec.toNat_inj]
    exact BitVec.xor_eq_zero_iff
  unfold roundSig roundEven
  dsimp only
  rw [htie, decide_eq_true rfl, Bool.and_true, toNat_and_not_flag (by omega), hsum, hpow]
  obtain ⟨q, hq⟩ : ∃ q, q = Z.toNat / (H + H) := ⟨_, rfl⟩
  obtain ⟨r, hr⟩ : ∃ r, r = Z.toNat % (H + H) := ⟨_, rfl⟩
  have hrlt : r < H + H := hr ▸ Nat.mod_lt _ (by omega)
  have hZ : Z.toNat = (H + H) * q + r := by
    rw [hq, hr]
    exact (Nat.div_add_mod _ _).symm
  have hdiv : (Z.toNat + H) / (H + H) = q + (r + H) / (H + H) := by
    rw [hZ, Nat.add_assoc, Nat.mul_add_div (by omega)]
  rw [hdiv, ← hq, ← hr]
  rcases Nat.lt_trichotomy r H with hlt | heq | hgt
  · have hzero : (r + H) / (H + H) = 0 := Nat.div_eq_of_lt (by omega)
    rw [hzero, decide_eq_false (show ¬ r = H by omega), decide_eq_false (by omega)]
    rfl
  · rw [heq, Nat.div_self (by omega), decide_eq_true rfl, if_pos rfl]
    rcases Nat.mod_two_eq_zero_or_one q with h0 | h1
    · rw [decide_eq_false (by omega), Bool.toNat_false]
      omega
    · rw [decide_eq_true (.inr ⟨by omega, h1⟩), Bool.toNat_true]
      omega
  · have hone : (r + H) / (H + H) = 1 := by
      rw [Nat.div_eq_iff (by omega)]
      omega
    rw [hone, decide_eq_false (show ¬ r = H by omega), decide_eq_true (.inl (by omega))]
    rfl

end Words

/-! ## The routine -/

section Routine

variable {w e f : Nat} {Z : BitVec w} {s : Bool}

/-- The exponent from which on the routine looks for overflow. -/
def packLimit (finite : Bool) (e : Nat) : Nat := 2 ^ e - 1 - (if finite then 1 else 2)

/-- The word is wide enough for the format, with two bits to round. -/
structure PackWidth (w e f : Nat) : Prop where
  dvd : w ∣ 2 ^ 16
  le : w ≤ 64
  fits : e + f < w
  ext : f + 4 ≤ w
  exp_ge : 2 ≤ e
  exp_le : e ≤ 11

theorem packLimit_cast (h : PackWidth w e f) (finite : Bool) :
    (2 ^ e - 1 - (if finite then 1 else 2) : Int) = packLimit finite e := by
  have hge : 2 ^ 2 ≤ 2 ^ e := Nat.pow_le_pow_right (by decide) h.exp_ge
  have hcast : (2 : Int) ^ e = (2 ^ e : Nat) := by push_cast; rfl
  unfold packLimit
  rw [hcast]
  cases finite
  · simp only [Bool.false_eq_true, if_false]
    omega
  · simp only [if_true]
    omega

theorem packLimit_lt (h : PackWidth w e f) (finite : Bool) :
    packLimit finite e + 2 ≤ 2 ^ e ∧ 2 ^ e ≤ 2 ^ 11 ∧ 4 ≤ 2 ^ e := by
  have hge : 2 ^ 2 ≤ 2 ^ e := Nat.pow_le_pow_right (by decide) h.exp_ge
  have hle : 2 ^ e ≤ 2 ^ 11 := Nat.pow_le_pow_right (by decide) h.exp_le
  unfold packLimit
  cases finite
  · simp only [Bool.false_eq_true, if_false]
    omega
  · simp only [if_true]
    omega

/-- The significand after the increment, as the overflow test reads it. -/
theorem msb_add_increment (h : PackWidth w e f) (hZ : Z.toNat < 2 ^ (w - 1)) :
    (Z + (roundIncrement .nearestEven s (w - 2 - f)).setWidth w).toNat =
        Z.toNat + 2 ^ (w - 2 - f - 1) ∧
      Z.toNat + 2 ^ (w - 2 - f - 1) < 2 ^ w ∧
      ((Z + (roundIncrement .nearestEven s (w - 2 - f)).setWidth w).msb =
        decide (2 ^ (w - 1) ≤ Z.toNat + 2 ^ (w - 2 - f - 1))) := by
  have hext := h.ext
  have hpow : 2 ^ w = 2 * 2 ^ (w - 1) := by
    rw [← Nat.pow_succ']
    congr 1
    omega
  have hle : 2 ^ (w - 2 - f - 1) ≤ 2 ^ (w - 1) := Nat.pow_le_pow_right (by decide) (by omega)
  have hsum : (Z + (roundIncrement .nearestEven s (w - 2 - f)).setWidth w).toNat =
      Z.toNat + 2 ^ (w - 2 - f - 1) := by
    rw [BitVec.toNat_add, toNat_roundIncrement w s (by omega) (by have := h.le; omega)]
    exact Nat.mod_eq_of_lt (by omega)
  refine ⟨hsum, by omega, ?_⟩
  rw [BitVec.msb_eq_decide, hsum]

/-- The fields of a result fit the word. -/
theorem packed_lt (h : PackWidth w e f) (s : Bool) {n : Nat} (hn : n < 2 ^ (e + f)) :
    s.toNat * 2 ^ (e + f) + n < 2 ^ w := by
  have hs : s.toNat * 2 ^ (e + f) ≤ 1 * 2 ^ (e + f) := Nat.mul_le_mul_right _ (Bool.toNat_le s)
  have hw : 2 ^ (e + f + 1) ≤ 2 ^ w := Nat.pow_le_pow_right (by decide) (by have := h.fits; omega)
  rw [Nat.pow_succ] at hw
  omega

/-- A significand of full width under an exponent that does not overflow. -/
theorem roundAndPack_normal (finite s : Bool) (h : PackWidth w e f) (hlo : 2 ^ (w - 2) ≤ Z.toNat)
    (hZ : Z.toNat < 2 ^ (w - 1)) {X : Nat}
    (hX : X < packLimit finite e ∨
      (X = packLimit finite e ∧ Z.toNat + 2 ^ (w - 2 - f - 1) < 2 ^ (w - 1))) (subnorm : Bool) :
    (roundAndPack finite s X Z e f subnorm .nearestEven).toNat =
      s.toNat * 2 ^ (e + f) + (X * 2 ^ f + roundEven Z.toNat (w - 2 - f)) := by
  have hext := h.ext
  have hle64 := h.le
  obtain ⟨hsum, hfit, hmsb⟩ := msb_add_increment (s := s) h hZ
  obtain ⟨hlim, h11, -⟩ := packLimit_lt h finite
  have hround := toNat_roundSig Z s (show 0 < w - 2 - f by omega) (by omega) (by omega) hfit
  have hq : Z.toNat / 2 ^ (w - 2 - f) < 2 ^ (f + 1) := by
    refine Nat.div_lt_of_lt_mul ?_
    rw [← Nat.pow_add, show w - 2 - f + (f + 1) = w - 1 by omega]
    exact hZ
  have hqge : 2 ^ f ≤ Z.toNat / 2 ^ (w - 2 - f) := by
    rw [Nat.le_div_iff_mul_le (Nat.two_pow_pos _), ← Nat.pow_add,
      show f + (w - 2 - f) = w - 2 by omega]
    exact hlo
  have hr1 := roundEven_le Z.toNat (w - 2 - f)
  have hr2 := roundEven_ge Z.toNat (w - 2 - f)
  have hfpos := Nat.two_pow_pos f
  have hfield : X * 2 ^ f + roundEven Z.toNat (w - 2 - f) < 2 ^ (e + f) := by
    rw [Nat.pow_succ] at hq
    rcases hX with hlt | ⟨heq, hcarry⟩
    · have hXf : (X + 3) * 2 ^ f ≤ 2 ^ e * 2 ^ f := Nat.mul_le_mul_right _ (by omega)
      rw [Nat.add_mul, ← Nat.pow_add] at hXf
      omega
    · -- Without a carry the significand keeps its width.
      have hXf : (X + 2) * 2 ^ f ≤ 2 ^ e * 2 ^ f := Nat.mul_le_mul_right _ (by omega)
      have hlt : roundEven Z.toNat (w - 2 - f) < 2 ^ (f + 1) := by
        refine roundEven_lt (by omega) ?_
        rw [← Nat.pow_add, show f + 1 + (w - 2 - f) = w - 1 by omega]
        exact hcarry
      rw [Nat.add_mul, ← Nat.pow_add] at hXf
      rw [Nat.pow_succ] at hlt
      omega
  have hbound := packed_lt h s hfield
  have hne : roundSig Z s (w - 2 - f) .nearestEven ≠ 0 := by
    intro h0
    rw [h0] at hround
    have hz : (0 : BitVec w).toNat = 0 := by simp
    omega
  unfold roundAndPack
  simp only [packLimit_cast h finite]
  have hspecial : ¬ ((packLimit finite e : Int) ≤ (X : Int) % 2 ^ 32 ∧
      ((packLimit finite e : Int) < X ∨ ((X : Int) = packLimit finite e ∧
        (Z + (roundIncrement .nearestEven s (w - 2 - f)).setWidth w).msb = true))) := by
    rintro ⟨-, hgt | ⟨heq, hm⟩⟩
    · omega
    · rw [hmsb, decide_eq_true_eq] at hm
      omega
  rw [if_neg hspecial, if_neg (fun hc => by omega), if_neg hne]
  rw [toNat_pack (by omega) s X _ e f (by rw [hround, Nat.add_assoc]; exact hbound), hround,
    Nat.add_assoc]

/-- Under a negative exponent the significand is shifted before it is rounded. -/
theorem roundAndPack_subnormal (finite s : Bool) (h : PackWidth w e f) (hZ : Z.toNat < 2 ^ (w - 1))
    {k : Nat}
    (hk0 : 0 < k) (hk : k < 2 ^ 15) :
    (roundAndPack finite s (-(k : Int)) Z e f true .nearestEven).toNat =
      s.toNat * 2 ^ (e + f) + roundEven Z.toNat (k + (w - 2 - f)) := by
  have hext := h.ext
  have hle64 := h.le
  obtain ⟨hlim, h11, h4⟩ := packLimit_lt h finite
  have hjam : (shiftRightJamming Z (BitVec.ofInt 16 (k : Int))).toNat = jam Z.toNat k :=
    toNat_shiftRightJamming (by omega) h.dvd Z hk
  have hjamlt : jam Z.toNat k < 2 ^ (w - 1) := by
    have hhalf : Z.toNat / 2 ^ k ≤ Z.toNat / 2 ^ 1 :=
      Nat.div_le_div_left (Nat.pow_le_pow_right (by decide) hk0) (by decide)
    have hpow : 2 ^ 1 ≤ 2 ^ (w - 1) := Nat.pow_le_pow_right (by decide) (by omega)
    rcases jam_cases Z.toNat k with ⟨hj, -⟩ | ⟨hj, -⟩ <;> omega
  obtain ⟨-, hfit, -⟩ := msb_add_increment (s := s) (Z := shiftRightJamming Z (BitVec.ofInt 16 k)) h
    (hjam ▸ hjamlt)
  have hround := toNat_roundSig _ s (show 0 < w - 2 - f by omega) (by omega) (by omega) hfit
  rw [hjam, roundEven_jam _ _ (by omega)] at hround
  have hfield : roundEven Z.toNat (k + (w - 2 - f)) < 2 ^ (e + f) := by
    have hq : Z.toNat / 2 ^ (k + (w - 2 - f)) < 2 ^ f := by
      refine Nat.div_lt_of_lt_mul (lt_of_lt_of_le hZ ?_)
      rw [← Nat.pow_add]
      exact Nat.pow_le_pow_right (by decide) (by omega)
    have hfpos := Nat.two_pow_pos f
    have hr := roundEven_le Z.toNat (k + (w - 2 - f))
    have hpow : 4 * 2 ^ f ≤ 2 ^ (e + f) := by
      rw [Nat.pow_add]
      exact Nat.mul_le_mul_right _ h4
    omega
  have hbound := packed_lt h s hfield
  unfold roundAndPack
  simp only [packLimit_cast h finite]
  have hmod : (-(k : Int)) % 2 ^ 32 = 2 ^ 32 - k := by omega
  rw [hmod, if_neg (by omega), if_pos ⟨by omega, by omega⟩, if_pos trivial, neg_neg]
  have hpack := toNat_pack (w := w) (by omega) s 0
    (roundSig (shiftRightJamming Z (BitVec.ofInt 16 k)) s (w - 2 - f) .nearestEven) e f
  rw [hround, Nat.zero_mul, Nat.add_zero] at hpack
  exact hpack hbound

/-- Overflow: infinity, or all ones where the greatest exponent holds numbers. -/
theorem roundAndPack_overflow (finite s : Bool) (h : PackWidth w e f) (hZ : Z.toNat < 2 ^ (w - 1))
    {X : Nat}
    (hX31 : X < 2 ^ 31)
    (hX : packLimit finite e < X ∨
      (X = packLimit finite e ∧ 2 ^ (w - 1) ≤ Z.toNat + 2 ^ (w - 2 - f - 1))) (subnorm : Bool) :
    (roundAndPack finite s X Z e f subnorm .nearestEven).toNat = s.toNat * 2 ^ (e + f) +
      (infMag e f + if finite then 2 ^ f - 1 else 0) := by
  have hext := h.ext
  have hle64 := h.le
  have hfits := h.fits
  have hfpos := Nat.two_pow_pos f
  have hepos := Nat.two_pow_pos e
  obtain ⟨hsum, -, hmsb⟩ := msb_add_increment (s := s) h hZ
  have hspecial : (packLimit finite e : Int) ≤ (X : Int) % 2 ^ 32 ∧
      ((packLimit finite e : Int) < X ∨ ((X : Int) = packLimit finite e ∧
        (Z + (roundIncrement .nearestEven s (w - 2 - f)).setWidth w).msb = true)) := by
    refine ⟨by omega, ?_⟩
    rcases hX with hgt | ⟨heq, hcarry⟩
    · exact .inl (by omega)
    · exact .inr ⟨by omega, by rw [hmsb]; exact decide_eq_true hcarry⟩
  have hinc : ((roundIncrement .nearestEven s (w - 2 - f)).setWidth w == 0) = false := by
    rw [beq_eq_false_iff_ne]
    intro h0
    have hval := toNat_roundIncrement w s (show w - 2 - f < w by omega) (by omega)
    rw [h0] at hval
    have hz : (0 : BitVec w).toNat = 0 := by simp
    have hpos := Nat.two_pow_pos (w - 2 - f - 1)
    omega
  have hcast : (2 ^ e - 1 : Int) = (2 ^ e - 1 : Nat) := by
    rw [Nat.cast_sub (by omega)]
    push_cast
    rfl
  have htop : (2 ^ e - 1) * 2 ^ f + 2 ^ f = 2 ^ (e + f) := by
    rw [← Nat.succ_mul, Nat.succ_eq_add_one, Nat.sub_add_cancel hepos, Nat.pow_add]
  have hw : 2 ^ (e + f + 1) ≤ 2 ^ w := Nat.pow_le_pow_right (by decide) (by omega)
  rw [Nat.pow_succ] at hw
  have hsle := Bool.toNat_le s
  have hs : s.toNat * 2 ^ (e + f) ≤ 1 * 2 ^ (e + f) := Nat.mul_le_mul_right _ hsle
  have hfrac : ((flag w finite <<< f) - flag w finite).toNat = if finite then 2 ^ f - 1 else 0 := by
    have hflag := toNat_flag (w := w) (by omega) finite
    rw [BitVec.toNat_sub, BitVec.toNat_shiftLeft, hflag, Nat.shiftLeft_eq]
    cases finite
    · simp only [Bool.toNat_false, Bool.false_eq_true, if_false]
      rw [Nat.zero_mul, Nat.zero_mod, Nat.sub_zero, Nat.add_zero, Nat.mod_self]
    · simp only [Bool.toNat_true, if_true, Nat.one_mul]
      rw [Nat.mod_eq_of_lt (show 2 ^ f < 2 ^ w by omega), show 2 ^ w - 1 + 2 ^ f =
        2 ^ f - 1 + 2 ^ w by omega, Nat.add_mod_right]
      exact Nat.mod_eq_of_lt (by omega)
  have hfraclt : (if finite then 2 ^ f - 1 else 0) < 2 ^ f := by
    split <;> omega
  have hexp : (BitVec.ofInt w (2 ^ e - 1) <<< f).toNat = (2 ^ e - 1) * 2 ^ f := by
    rw [hcast, BitVec.ofInt_natCast, BitVec.toNat_shiftLeft, BitVec.toNat_ofNat, Nat.shiftLeft_eq,
      Nat.mod_mul_mod]
    exact Nat.mod_eq_of_lt (by omega)
  have hsign : (flag w s <<< (e + f)).toNat = s.toNat * 2 ^ (e + f) := by
    rw [BitVec.toNat_shiftLeft, toNat_flag (by omega), Nat.shiftLeft_eq]
    exact Nat.mod_eq_of_lt (by omega)
  have hzero : ∀ x : BitVec w, x - flag w false = x := by
    intro x
    have hflag : flag w false = 0 :=
      BitVec.eq_of_toNat_eq (by rw [toNat_flag (by omega)]; simp)
    rw [hflag]
    exact BitVec.sub_zero x
  unfold roundAndPack
  simp only [packLimit_cast h finite]
  rw [if_pos hspecial, hinc, hzero, BitVec.toNat_or, BitVec.toNat_or, hsign, hexp, hfrac,
    Nat.or_assoc, Nat.mul_comm (2 ^ e - 1), ← Nat.two_pow_add_eq_or_of_lt hfraclt,
      Nat.mul_comm s.toNat,
    ← Nat.two_pow_add_eq_or_of_lt (by rw [Nat.mul_comm]; omega), infMag, Nat.mul_comm (2 ^ f)]

end Routine

end Bambu.Libbambu.Softfloat
