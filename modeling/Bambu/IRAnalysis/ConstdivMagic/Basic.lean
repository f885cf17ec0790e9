/-
  Bambu.IRAnalysis.ConstdivMagic.Basic

  `constdiv_magic.hpp`: the magic numbers division by a constant is lowered
  with, computed on 64-bit words reduced to the width of the operands.

  Words are `UInt64`, as in the source; the counts `width`, `p` and the shift
  amounts are natural numbers.  The loops have no bound in the source: here they
  run on fuel, and a run that returns has not used it up.

  Every word operation has one lemma about its value, after which the proofs are
  about quotients and remainders of powers of two.
-/

import Bambu.Math.Residue
import Bambu.Utility.Common

namespace Bambu
namespace ConstdivMagic

open Bambu.Math

/-! ## The source -/

structure SDivMagic64 where
  magic : UInt64
  shift : Nat
  numeratorFactor : Int
  shiftMask : Int
deriving DecidableEq, Repr

structure UDivMagic64 where
  magic : UInt64
  preShift : Nat
  postShift : Nat
  isAdd : Bool
deriving DecidableEq, Repr

def maskForWidth (width : Nat) : UInt64 :=
  if width ≥ 64 then ~~~0 else (1 <<< UInt64.ofNat width) - 1

def truncToWidth (value : UInt64) (width : Nat) : UInt64 := value &&& maskForWidth width

def addMod (a b : UInt64) (width : Nat) : UInt64 := truncToWidth (a + b) width
def subMod (a b : UInt64) (width : Nat) : UInt64 := truncToWidth (a - b) width
def shl1Mod (value : UInt64) (width : Nat) : UInt64 := truncToWidth (value <<< 1) width

def lowBitsSet (bits : Nat) : UInt64 :=
  if bits = 0 then 0 else if bits ≥ 64 then ~~~0 else (1 <<< UInt64.ofNat bits) - 1

def signExtend (value : UInt64) (width : Nat) : Int64 :=
  if width ≥ 64 then value.toInt64
  else
    let sign_bit : UInt64 := 1 <<< UInt64.ofNat (width - 1)
    let mask : UInt64 := (1 <<< UInt64.ofNat width) - 1
    (((value &&& mask) ^^^ sign_bit) - sign_bit).toInt64

def negateMod (value : UInt64) (width : Nat) : UInt64 := addMod (~~~value) 1 width

/-- `udivremU64`; a zero denominator traps. -/
def udivremU64 (num den : UInt64) : Except Error (UInt64 × UInt64) :=
  if den = 0 then .error .divisionByZero else .ok (num / den, num - num / den * den)

/-- `__builtin_ctzll` on a word of at most `bits` bits. -/
def ctzll : Nat → UInt64 → Nat
  | 0, _ => 0
  | bits + 1, value => if value &&& 1 = 1 then 0 else ctzll bits (value >>> 1) + 1

/-! ### Signed -/

/-- The variables of the signed loop. -/
structure SDivState where
  p : Nat
  q1 : UInt64
  r1 : UInt64
  q2 : UInt64
  r2 : UInt64
  delta : UInt64
deriving DecidableEq

/-- One of the two blocks of the signed loop: a quotient and a remainder by `den`
    are doubled. -/
def doubled (q r den : UInt64) (width : Nat) : UInt64 × UInt64 :=
  let q := shl1Mod q width
  let r := shl1Mod r width
  if r ≥ den then (addMod q 1 width, subMod r den width) else (q, r)

def sdivStep (ad anc : UInt64) (width : Nat) (s : SDivState) : SDivState :=
  let (q1, r1) := doubled s.q1 s.r1 anc width
  let (q2, r2) := doubled s.q2 s.r2 ad width
  ⟨s.p + 1, q1, r1, q2, r2, subMod ad r2 width⟩

/-- The `do … while` of `computeSDivMagic64`. -/
def sdivLoop (ad anc : UInt64) (width : Nat) : Nat → SDivState → Except Error SDivState
  | 0, _ => .error .outOfFuel
  | fuel + 1, s =>
    let s := sdivStep ad anc width s
    if s.q1 < s.delta ∨ (s.q1 = s.delta ∧ s.r1 = 0) then sdivLoop ad anc width fuel s else .ok s

def computeSDivMagic64 (divisor : Int64) (width : Nat) : Except Error SDivMagic64 := do
  throwAssert (width ≥ 3 ∧ width ≤ 64) "Invalid bitwidth for signed magic computation"
  let d := signExtend divisor.toUInt64 width
  throwAssert (d ≠ 0) "Division by zero is not supported"
  if d = 1 ∨ d = -1 then .ok ⟨0, 0, if d > 0 then 1 else -1, 0⟩
  else do
    let signed_min : UInt64 := 1 <<< UInt64.ofNat (width - 1)
    let ad : UInt64 := if d < 0 then UInt64.ofInt (-d.toInt) else d.toUInt64
    let sign : UInt64 := if d < 0 then 1 else 0
    let t := addMod signed_min sign width
    let anc := subMod (subMod t 1 width) (t % ad) width
    let (q1, r1) ← udivremU64 signed_min anc
    let (q2, r2) ← udivremU64 signed_min ad
    let s ← sdivLoop ad anc width (2 * width) ⟨width - 1, q1, r1, q2, r2, 0⟩
    let magic := addMod s.q2 1 width
    let magic := if d < 0 then negateMod magic width else magic
    let shift := s.p - width
    let magic_signed := signExtend magic width
    let numerator_factor : Int :=
      if d > 0 ∧ magic_signed < 0 then 1 else if d < 0 ∧ magic_signed > 0 then -1 else 0
    .ok ⟨magic, shift, numerator_factor, -1⟩

/-! ### Unsigned -/

/-- The variables of the unsigned loop. -/
structure UDivState where
  p : Nat
  q1 : UInt64
  r1 : UInt64
  q2 : UInt64
  r2 : UInt64
  delta : UInt64
  is_add : Bool
deriving DecidableEq

def udivStep (d nc signed_min signed_max : UInt64) (width : Nat) (s : UDivState) : UDivState :=
  let nc_minus_r1 := subMod nc s.r1 width
  let (q1, r1) :=
    if s.r1 ≥ nc_minus_r1 then
      (addMod (shl1Mod s.q1 width) 1 width, subMod (shl1Mod s.r1 width) nc width)
    else (shl1Mod s.q1 width, shl1Mod s.r1 width)
  let d_minus_r2 := subMod d s.r2 width
  let (is_add, q2, r2) :=
    if addMod s.r2 1 width ≥ d_minus_r2 then
      (if s.q2 ≥ signed_max then true else s.is_add,
        addMod (shl1Mod s.q2 width) 1 width,
        subMod (addMod (shl1Mod s.r2 width) 1 width) d width)
    else
      (if s.q2 ≥ signed_min then true else s.is_add,
        shl1Mod s.q2 width,
        addMod (shl1Mod s.r2 width) 1 width)
  ⟨s.p + 1, q1, r1, q2, r2, subMod (subMod d 1 width) r2 width, is_add⟩

/-- The `do … while` of `computeUDivMagic64`. -/
def udivLoop (d nc signed_min signed_max : UInt64) (width : Nat) :
    Nat → UDivState → Except Error UDivState
  | 0, _ => .error .outOfFuel
  | fuel + 1, s =>
    let s := udivStep d nc signed_min signed_max width s
    if s.p < width * 2 ∧ (s.q1 < s.delta ∨ (s.q1 = s.delta ∧ s.r1 = 0)) then
      udivLoop d nc signed_min signed_max width fuel s
    else .ok s

/-- `computeUDivMagic64` with `depth` calls of its own left. -/
def computeUDivMagic64Rec : Nat → UInt64 → Nat → Nat → Bool → Except Error UDivMagic64
  | 0, _, _, _, _ => .error .outOfFuel
  | depth + 1, divisor, width, leading_zeros, allow_even_divisor_optimization => do
    throwAssert (width > 1 ∧ width ≤ 64) "Invalid bitwidth for unsigned magic computation"
    throwAssert (leading_zeros < width) "Invalid leading zeros for unsigned magic computation"
    let d := divisor &&& maskForWidth width
    throwAssert (d ≠ 0 ∧ d ≠ 1) "Division by zero/one is not supported"
    let all_ones := lowBitsSet (width - leading_zeros)
    let signed_min : UInt64 := 1 <<< UInt64.ofNat (width - 1)
    let signed_max := signed_min - 1
    let tmp := subMod (addMod all_ones 1 width) d width
    let rem := tmp % d
    let nc := subMod all_ones rem width
    let (q1, r1) ← udivremU64 signed_min nc
    let (q2, r2) ← udivremU64 signed_max d
    let s ← udivLoop d nc signed_min signed_max width (2 * width)
      ⟨width - 1, q1, r1, q2, r2, 0, false⟩
    if s.is_add = true ∧ d &&& 1 = 0 ∧ allow_even_divisor_optimization = true then do
      let pre_shift := ctzll 64 d
      let shifted_d := d >>> UInt64.ofNat pre_shift
      let inner ← computeUDivMagic64Rec depth shifted_d width (leading_zeros + pre_shift) true
      throwAssert (¬ inner.isAdd = true ∧ inner.preShift = 0)
        "Unexpected even-divisor optimization state"
      .ok { inner with preShift := pre_shift }
    else do
      let magic := addMod s.q2 1 width
      let post_shift := s.p - width
      if s.is_add = true then do
        throwAssert (post_shift > 0) "Unexpected shift"
        .ok ⟨magic, 0, post_shift - 1, s.is_add⟩
      else .ok ⟨magic, 0, post_shift, s.is_add⟩

/-- A recursive call is for the odd part of its divisor, so two calls are all. -/
def computeUDivMagic64 (divisor : UInt64) (width leading_zeros : Nat)
    (allow_even_divisor_optimization : Bool) : Except Error UDivMagic64 :=
  computeUDivMagic64Rec 2 divisor width leading_zeros allow_even_divisor_optimization

/-! ### The lowered sequences -/

/-- The high part of an unsigned product. -/
def mulHighU {w : Nat} (u v : BitVec w) : BitVec w := BitVec.ofNat w (u.toNat * v.toNat / 2 ^ w)

/-- The high part of a signed product. -/
def mulHighS {w : Nat} (u v : BitVec w) : BitVec w := BitVec.ofInt w (u.toInt * v.toInt / 2 ^ w)

/-- The quotient `lowerUnsignedTruncDivModByConstant` emits from a magic number. -/
def udivSequence {w : Nat} (magic : UDivMagic64) (op0 : BitVec w) : BitVec w :=
  let q := if magic.preShift ≠ 0 then op0 >>> magic.preShift else op0
  let q := mulHighU q (BitVec.ofNat w magic.magic.toNat)
  let q := if magic.isAdd then ((op0 - q) >>> 1) + q else q
  if magic.postShift ≠ 0 then q >>> magic.postShift else q

/-- The quotient `lowerSignedTruncDivModByConstant` emits from a magic number. -/
def sdivSequence {w : Nat} (magic : SDivMagic64) (op0 : BitVec w) : BitVec w :=
  let q := mulHighS op0 (BitVec.ofInt w (signExtend magic.magic w).toInt)
  let q :=
    if magic.numeratorFactor ≠ 0 then
      if magic.numeratorFactor > 0 then q + op0 else q - op0
    else q
  let q := if magic.shift ≠ 0 then q.sshiftRight magic.shift else q
  let t := (q >>> (w - 1)) &&& BitVec.ofInt w magic.shiftMask
  q + t

/-! ## Word operations -/

section Words

variable {w : Nat} {a b : UInt64}

theorem two_pow_dvd (hw : w ≤ 64) : 2 ^ w ∣ 2 ^ 64 := pow_dvd_pow 2 hw

theorem one_shiftLeft_toNat {k : Nat} (hk : k < 64) :
    ((1 : UInt64) <<< UInt64.ofNat k).toNat = 2 ^ k := by
  have hlt : 2 ^ k < 2 ^ 64 := Nat.pow_lt_pow_right (by decide) hk
  rw [UInt64.toNat_shiftLeft, UInt64.toNat_ofNat', Nat.mod_eq_of_lt (by omega : k < 2 ^ 64),
    Nat.mod_eq_of_lt hk, UInt64.toNat_one, Nat.one_shiftLeft, Nat.mod_eq_of_lt hlt]

theorem ones_toNat {k : Nat} (hk : k < 64) :
    ((1 : UInt64) <<< UInt64.ofNat k - 1).toNat = 2 ^ k - 1 := by
  have hlt : 2 ^ k < 2 ^ 64 := Nat.pow_lt_pow_right (by decide) hk
  have hpos : 0 < 2 ^ k := Nat.two_pow_pos k
  rw [UInt64.toNat_sub, one_shiftLeft_toNat hk, UInt64.toNat_one]
  omega

theorem maskForWidth_toNat (hw : w ≤ 64) : (maskForWidth w).toNat = 2 ^ w - 1 := by
  unfold maskForWidth
  split
  · rw [show w = 64 by omega]
    decide
  · exact ones_toNat (by omega)

theorem lowBitsSet_toNat (hw : w ≤ 64) : (lowBitsSet w).toNat = 2 ^ w - 1 := by
  unfold lowBitsSet
  split
  · rename_i h
    rw [h]
    decide
  · split
    · rw [show w = 64 by omega]
      decide
    · exact ones_toNat (by omega)

theorem and_mask_toNat (hw : w ≤ 64) : (a &&& maskForWidth w).toNat = a.toNat % 2 ^ w := by
  rw [UInt64.toNat_and, maskForWidth_toNat hw, Nat.and_two_pow_sub_one_eq_mod]

theorem addMod_toNat (hw : w ≤ 64) : (addMod a b w).toNat = (a.toNat + b.toNat) % 2 ^ w := by
  unfold addMod truncToWidth
  rw [and_mask_toNat hw, UInt64.toNat_add, Nat.mod_mod_of_dvd _ (two_pow_dvd hw)]

theorem subMod_toNat (hw : w ≤ 64) (ha : a.toNat < 2 ^ w) (hb : b.toNat ≤ 2 ^ w) :
    (subMod a b w).toNat = (a.toNat + (2 ^ w - b.toNat)) % 2 ^ w := by
  have hle : 2 ^ w ≤ 2 ^ 64 := Nat.pow_le_pow_right (by decide) hw
  obtain ⟨k, hk⟩ := two_pow_dvd hw
  have hkpos : 0 < k := Nat.pos_of_ne_zero fun h0 => by
    rw [h0, Nat.mul_zero] at hk
    exact absurd hk (by decide)
  unfold subMod truncToWidth
  rw [and_mask_toNat hw, UInt64.toNat_sub, Nat.mod_mod_of_dvd _ (two_pow_dvd hw), hk]
  have hsplit : 2 ^ w * k - b.toNat + a.toNat = a.toNat + (2 ^ w - b.toNat) + 2 ^ w * (k - 1) := by
    have hsucc : 2 ^ w * k = 2 ^ w * (k - 1) + 2 ^ w := by
      rw [← Nat.mul_succ, Nat.succ_eq_add_one, Nat.sub_add_cancel hkpos]
    omega
  rw [hsplit, Nat.add_mul_mod_self_left]

/-- No borrow: the difference is the one of the values. -/
theorem subMod_toNat_of_le (hw : w ≤ 64) (ha : a.toNat < 2 ^ w) (hba : b.toNat ≤ a.toNat) :
    (subMod a b w).toNat = a.toNat - b.toNat := by
  rw [subMod_toNat hw ha (by omega), show a.toNat + (2 ^ w - b.toNat) =
    a.toNat - b.toNat + 2 ^ w by omega, Nat.add_mod_right, Nat.mod_eq_of_lt (by omega)]

theorem shl1Mod_toNat (hw : w ≤ 64) : (shl1Mod a w).toNat = 2 * a.toNat % 2 ^ w := by
  unfold shl1Mod truncToWidth
  rw [and_mask_toNat hw, UInt64.toNat_shiftLeft, UInt64.toNat_one, Nat.mod_mod_of_dvd _
    (two_pow_dvd hw), show 1 % 64 = 1 from rfl, Nat.shiftLeft_eq, pow_one, Nat.mul_comm]

theorem negateMod_toNat (hw : w ≤ 64) (ha : 0 < a.toNat) (ha' : a.toNat < 2 ^ w) :
    (negateMod a w).toNat = 2 ^ w - a.toNat := by
  have hle : 2 ^ w ≤ 2 ^ 64 := Nat.pow_le_pow_right (by decide) hw
  have hmod : 2 ^ w % 2 ^ w = 2 ^ 64 % 2 ^ w := by
    rw [Nat.mod_self, Nat.mod_eq_zero_of_dvd (two_pow_dvd hw)]
  have hcancel : (2 ^ 64 - a.toNat + a.toNat) % 2 ^ w = (2 ^ w - a.toNat + a.toNat) % 2 ^ w := by
    rw [Nat.sub_add_cancel (by omega), Nat.sub_add_cancel ha'.le, hmod]
  rw [negateMod, addMod_toNat hw, UInt64.toNat_not, UInt64.toNat_one,
    show UInt64.size - 1 - a.toNat + 1 = 2 ^ 64 - a.toNat by
      rw [show UInt64.size = 2 ^ 64 from rfl]
      omega]
  have hmodEq : 2 ^ 64 - a.toNat ≡ 2 ^ w - a.toNat [MOD 2 ^ w] :=
    Nat.ModEq.add_right_cancel' a.toNat hcancel
  exact Eq.trans hmodEq (Nat.mod_eq_of_lt (by omega))

theorem shl1Mod_succ_toNat (hw : w ≤ 64) :
    (addMod (shl1Mod a w) 1 w).toNat = (2 * a.toNat + 1) % 2 ^ w := by
  rw [addMod_toNat hw, shl1Mod_toNat hw, UInt64.toNat_one, Nat.mod_add_mod]

theorem eq_zero_iff_toNat : a = 0 ↔ a.toNat = 0 := by
  rw [← UInt64.toNat_inj]
  rfl

theorem eq_one_iff_toNat : a = 1 ↔ a.toNat = 1 := by
  rw [← UInt64.toNat_inj]
  rfl

theorem udivremU64_of_ne (hb : b.toNat ≠ 0) :
    ∃ q r, udivremU64 a b = .ok (q, r) ∧ q.toNat = a.toNat / b.toNat ∧
      r.toNat = a.toNat % b.toNat := by
  refine ⟨_, _, if_neg fun h => hb (eq_zero_iff_toNat.mp h), UInt64.toNat_div a b, ?_⟩
  have hle : a.toNat / b.toNat * b.toNat ≤ a.toNat := Nat.div_mul_le_self _ _
  have hlt := a.toNat_lt
  have hmod := Nat.div_add_mod a.toNat b.toNat
  rw [Nat.mul_comm] at hmod
  rw [UInt64.toNat_sub, UInt64.toNat_mul, UInt64.toNat_div,
    Nat.mod_eq_of_lt (by omega : a.toNat / b.toNat * b.toNat < 2 ^ 64)]
  omega

end Words

end ConstdivMagic
end Bambu
