/-
  Bambu.Utility.Range.Bitwise

  `Range::Or`, `And`, `Xor` and `Not`, and the bounds `minOR` ... `maxXOR` they
  dispatch to by the signs of the operands' bounds.

  The loops compute the bounds of `Bambu.Math.Bitwise` (`minOR_val`, ...).  An
  operand that is Anti or full comes in with the bounds `Min` and `Max`: those
  may lie outside the bits the loop walks, and the result is then wide enough
  for every value of the width.
-/

import Bambu.Utility.Range.Lattice

namespace Bambu
namespace Range

open Bambu.Math APInt

/-! ## The bounds -/

/-- The loop of `minOR`, from bit `i - 1` down; leaving it early is `break`. -/
def minORLoop (b d : APInt) : Nat → APInt → APInt → APInt → APInt → APInt
  | 0, a, c, _, _ => a ||| c
  | i + 1, a, c, m, nm =>
    if ~~~a &&& c &&& m ≠ 0 then
      let temp := (a ||| m) &&& nm
      if temp ≤ b then temp ||| c else minORLoop b d i a c (m >>> 1) (nm >>> 1)
    else if a &&& ~~~c &&& m ≠ 0 then
      let temp := (c ||| m) &&& nm
      if temp ≤ d then a ||| temp else minORLoop b d i a c (m >>> 1) (nm >>> 1)
    else minORLoop b d i a c (m >>> 1) (nm >>> 1)

def minOR (bw : Nat) (a b c d : APInt) : APInt :=
  minORLoop b d bw a c ((1 : APInt) <<< (bw - 1)) ((-1 : APInt) <<< (bw - 1))

def maxORLoop (a c : APInt) : Nat → APInt → APInt → APInt → APInt → APInt
  | 0, b, d, _, _ => b ||| d
  | i + 1, b, d, m, mm =>
    if b &&& d &&& m ≠ 0 then
      let temp := (b - m) ||| mm
      if temp ≥ a then temp ||| d
      else
        let temp := (d - m) ||| mm
        if temp ≥ c then b ||| temp else maxORLoop a c i b d (m >>> 1) (mm >>> 1)
    else maxORLoop a c i b d (m >>> 1) (mm >>> 1)

def maxOR (bw : Nat) (a b c d : APInt) : APInt :=
  let m := (1 : APInt) <<< (bw - 1)
  maxORLoop a c bw b d m (m - 1)

def minANDLoop (b d : APInt) : Nat → APInt → APInt → APInt → APInt → APInt
  | 0, a, c, _, _ => a &&& c
  | i + 1, a, c, m, nm =>
    if ~~~a &&& ~~~c &&& m ≠ 0 then
      let temp := (a ||| m) &&& nm
      if temp ≤ b then temp &&& c
      else
        let temp := (c ||| m) &&& nm
        if temp ≤ d then a &&& temp else minANDLoop b d i a c (m >>> 1) (nm >>> 1)
    else minANDLoop b d i a c (m >>> 1) (nm >>> 1)

def minAND (bw : Nat) (a b c d : APInt) : APInt :=
  minANDLoop b d bw a c ((1 : APInt) <<< (bw - 1)) ((-1 : APInt) <<< (bw - 1))

def maxANDLoop (a c : APInt) : Nat → APInt → APInt → APInt → APInt → APInt
  | 0, b, d, _, _ => b &&& d
  | i + 1, b, d, m, mm =>
    if b &&& ~~~d &&& m ≠ 0 then
      let temp := (b &&& ~~~m) ||| mm
      if temp ≥ a then temp &&& d else maxANDLoop a c i b d (m >>> 1) (mm >>> 1)
    else if ~~~b &&& d &&& m ≠ 0 then
      let temp := (d &&& ~~~m) ||| mm
      if temp ≥ c then b &&& temp else maxANDLoop a c i b d (m >>> 1) (mm >>> 1)
    else maxANDLoop a c i b d (m >>> 1) (mm >>> 1)

def maxAND (bw : Nat) (a b c d : APInt) : APInt :=
  let m := (1 : APInt) <<< (bw - 1)
  maxANDLoop a c bw b d m (m - 1)

def minXORLoop (b d : APInt) : Nat → APInt → APInt → APInt → APInt → APInt
  | 0, a, c, _, _ => a ^^^ c
  | i + 1, a, c, m, nm =>
    if ~~~a &&& c &&& m ≠ 0 then
      let temp := (a ||| m) &&& nm
      if temp ≤ b then minXORLoop b d i temp c (m >>> 1) (nm >>> 1)
      else minXORLoop b d i a c (m >>> 1) (nm >>> 1)
    else if a &&& ~~~c &&& m ≠ 0 then
      let temp := (c ||| m) &&& nm
      if temp ≤ d then minXORLoop b d i a temp (m >>> 1) (nm >>> 1)
      else minXORLoop b d i a c (m >>> 1) (nm >>> 1)
    else minXORLoop b d i a c (m >>> 1) (nm >>> 1)

def minXOR (bw : Nat) (a b c d : APInt) : APInt :=
  minXORLoop b d bw a c ((1 : APInt) <<< (bw - 1)) ((-1 : APInt) <<< (bw - 1))

def maxXORLoop (a c : APInt) : Nat → APInt → APInt → APInt → APInt → APInt
  | 0, b, d, _, _ => b ^^^ d
  | i + 1, b, d, m, mm =>
    if b &&& d &&& m ≠ 0 then
      let temp := (b - m) ||| mm
      if temp ≥ a then maxXORLoop a c i temp d (m >>> 1) (mm >>> 1)
      else
        let temp := (d - m) ||| mm
        if temp ≥ c then maxXORLoop a c i b temp (m >>> 1) (mm >>> 1)
        else maxXORLoop a c i b d (m >>> 1) (mm >>> 1)
    else maxXORLoop a c i b d (m >>> 1) (mm >>> 1)

def maxXOR (bw : Nat) (a b c d : APInt) : APInt :=
  let m := (1 : APInt) <<< (bw - 1)
  maxXORLoop a c bw b d m (m - 1)

/-! ## The sign tables -/

/-- `abcd`: which of the four bounds are nonnegative. -/
def signs (a b c d : APInt) : Nat :=
  (decide (a ≥ 0)).toNat <<< 3 ||| (decide (b ≥ 0)).toNat <<< 2 ||| (decide (c ≥ 0)).toNat <<< 1 |||
    (decide (d ≥ 0)).toNat

def OR (bw : Nat) (a b c d : APInt) : Except Error (APInt × APInt) :=
  match signs a b c d with
  | 0 | 3 | 12 | 15 => .ok (minOR bw a b c d, maxOR bw a b c d)
  | 1 => .ok (a, -1)
  | 4 => .ok (c, -1)
  | 5 => .ok (min a c, maxOR bw 0 b 0 d)
  | 7 => .ok (minOR bw a (-1) c d, maxOR bw 0 b c d)
  | 13 => .ok (minOR bw a b c (-1), maxOR bw a b 0 d)
  | abcd => .error (.unreachable ("OR unreachable state " ++ toString abcd))

def AND (bw : Nat) (a b c d : APInt) : Except Error (APInt × APInt) :=
  match signs a b c d with
  | 0 | 3 | 12 | 15 => .ok (minAND bw a b c d, maxAND bw a b c d)
  | 1 => .ok (minAND bw a b c (-1), maxAND bw a b 0 d)
  | 4 => .ok (minAND bw a (-1) c d, maxAND bw 0 b c d)
  | 5 => .ok (minAND bw a (-1) c (-1), max b d)
  | 7 => .ok (0, d)
  | 13 => .ok (0, b)
  | abcd => .error (.unreachable ("AND unreachable state " ++ toString abcd))

def uXOR (bw : Nat) (a b c d : APInt) : APInt × APInt :=
  (minXOR bw a b c d, maxXOR bw a b c d)

/-! ## The operations -/

/-- The bounds an operand is read with: those of an Anti range are infinite. -/
def bitwiseLower (r : Range) : Except Error APInt := if r.isAnti then .ok Min else r.getLower
def bitwiseUpper (r : Range) : Except Error APInt := if r.isAnti then .ok Max else r.getUpper

/-- `this->isConstant() && this->getSignedMax() == v`. -/
def isConstantOf (r : Range) (v : APInt) : Except Error Bool :=
  if r.isConstant then do .ok (decide ((← r.getSignedMax) = v)) else .ok false

def Or (this other : Range) : Except Error Range :=
  onProper this other this.bw do
    if ← this.isConstantOf 0 then .ok other
    else if ← other.isConstantOf 0 then .ok this
    else do
      let res ← OR this.bw (← this.bitwiseLower) (← this.bitwiseUpper) (← other.bitwiseLower)
        (← other.bitwiseUpper)
      ofBounds .regular this.bw res.1 res.2

def And (this other : Range) : Except Error Range :=
  onProper this other this.bw do
    if ← this.isConstantOf (-1) then .ok other
    else if ← other.isConstantOf (-1) then .ok this
    else do
      let res ← AND this.bw (← this.bitwiseLower) (← this.bitwiseUpper) (← other.bitwiseLower)
        (← other.bitwiseUpper)
      ofBounds .regular this.bw res.1 res.2

def Xor (this other : Range) : Except Error Range :=
  onProper this other this.bw do
    let a ← this.bitwiseLower
    let b ← this.bitwiseUpper
    let c ← other.bitwiseLower
    let d ← other.bitwiseUpper
    if a ≥ 0 ∧ b ≥ 0 ∧ c ≥ 0 ∧ d ≥ 0 then
      let res := uXOR this.bw a b c d
      ofBounds .regular this.bw res.1 res.2
    else if a = -1 ∧ b = -1 ∧ c ≥ 0 ∧ d ≥ 0 then this.sub other
    else if c = -1 ∧ d = -1 ∧ a ≥ 0 ∧ b ≥ 0 then other.sub this
    else ofType .regular this.bw

def Not (this : Range) : Except Error Range :=
  if this.isEmpty || this.isUnknown then ofType this.type this.bw
  else ofBounds this.type this.bw (~~~this.u) (~~~this.l)

/-! ## The loops -/

/-- A value of the capacity's bits, sign included. -/
def Small (a : APInt) : Prop := -half maxDigits ≤ a.val ∧ a.val < half maxDigits

section Loops

variable {a b c d p q m : APInt} {i : Nat}

theorem half_maxDigits_lt : half maxDigits < 2 ^ maxDigits := by
  have h := half_pos maxDigits
  rw [← two_mul_half_maxDigits]
  omega

theorem two_pow_le_half_maxDigits (hi : i < maxDigits) : (2 : Int) ^ i ≤ half maxDigits :=
  pow_le_pow_right₀ (by decide) (by omega)

theorem small_of_bitwise {op g : Int → Int → Int} (h : BitwiseOp op g)
    (hs : ∀ x y, x = 0 ∨ x = -1 → y = 0 ∨ y = -1 → op x y = 0 ∨ op x y = -1) (hp : Small p)
    (hq : Small q) : -half maxDigits ≤ op p.val q.val ∧ op p.val q.val < half maxDigits :=
  h.mem_of_mem hs hp hq

theorem Small.land_val (hp : Small p) (hq : Small q) :
    (p &&& q).val = Int.land p.val q.val := by
  have h := (small_of_bitwise bitwiseOp_land land_sign hp hq).1
  have hlt := half_maxDigits_lt
  exact SignMag.val_land (by omega)

theorem Small.lor_val (hp : Small p) (hq : Small q) : (p ||| q).val = Int.lor p.val q.val := by
  have h := (small_of_bitwise bitwiseOp_lor lor_sign hp hq).1
  have hlt := half_maxDigits_lt
  exact SignMag.val_lor (by omega)

theorem Small.xor_val (hp : Small p) (hq : Small q) : (p ^^^ q).val = Int.xor p.val q.val := by
  have h := (small_of_bitwise bitwiseOp_xor xor_sign hp hq).1
  have hlt := half_maxDigits_lt
  exact SignMag.val_xor (by omega)

theorem Small.complement_val (hp : Small p) : (~~~p).val = Int.lnot p.val := by
  obtain ⟨-, h⟩ := hp
  have hlt := half_maxDigits_lt
  exact SignMag.val_complement (by omega)

theorem Small.complement (hp : Small p) : Small (~~~p) := by
  unfold Small
  rw [hp.complement_val, lnot_eq]
  obtain ⟨h1, h2⟩ := hp
  omega

/-- The test of a bit set in both operands. -/
theorem land_bit_ne_zero (hp : Small p) (hq : Small q) (hm : m.val = 2 ^ i) :
    p &&& q &&& m ≠ 0 ↔ p.val / 2 ^ i % 2 = 1 ∧ q.val / 2 ^ i % 2 = 1 := by
  have hpos : (0 : Int) < 2 ^ i := by positivity
  have hbit : Int.land (p &&& q).val m.val =
      min (p.val / 2 ^ i % 2) (q.val / 2 ^ i % 2) * 2 ^ i := by
    rw [hm, land_two_pow, hp.land_val hq, bitwiseOp_land.ediv_two_pow, bitwiseOp_land.parity]
  have h0 : 0 ≤ min (p.val / 2 ^ i % 2) (q.val / 2 ^ i % 2) := by omega
  have hval : (p &&& q &&& m).val = _ :=
    (SignMag.val_land (by
      rw [hbit]
      have := mul_nonneg h0 hpos.le
      have : (0 : Int) < 2 ^ maxDigits := by positivity
      omega)).trans hbit
  rw [ne_eq, SignMag.eq_iff, hval, SignMag.val_zero, mul_eq_zero, or_iff_left hpos.ne']
  omega

/-- `(a | m) & nm` raises `a` to its clear bit. -/
theorem raise_val {nm : APInt} (ha : Small a) (hi : i < maxDigits) (hm : m.val = 2 ^ i)
    (hnm : nm.val = -2 ^ i) (hbit : a.val / 2 ^ i % 2 = 0) :
    ((a ||| m) &&& nm).val = raise a.val i := by
  have hle := two_pow_le_half_maxDigits hi
  have hpos : (0 : Int) < 2 ^ i := by positivity
  have hlt := half_maxDigits_lt
  obtain ⟨ha1, ha2⟩ := ha
  have hor := lor_two_pow a.val i hbit
  have hval : (a ||| m).val = a.val + 2 ^ i := by
    rw [← hor, ← hm]
    exact SignMag.val_lor (by rw [hm, hor]; omega)
  have hand : Int.land (a ||| m).val nm.val = raise a.val i := by
    rw [hval, hnm, land_neg_two_pow, Int.add_ediv_of_dvd_right (dvd_refl _),
      Int.ediv_self hpos.ne']
    rfl
  have hraise := le_raise a.val i
  rw [← hand]
  exact SignMag.val_land (by rw [hand]; omega)

/-- Lowering `b` below its set bit stays within the capacity, except for `Min`
    at the topmost bit. -/
theorem lower_fits (hb : Small b) (hi : i < maxDigits)
    (hne : i + 1 < maxDigits ∨ -half maxDigits < b.val) :
    -(2 * half maxDigits) < b.val - 2 ^ i := by
  obtain ⟨hb1, hb2⟩ := hb
  have hle := two_pow_le_half_maxDigits hi
  rcases hne with h | h
  · have hle' := two_pow_le_half_maxDigits h
    rw [pow_succ] at hle'
    have hpos := half_pos maxDigits
    omega
  · omega

theorem mask_val {mm : APInt} (hm : m.val = b.val - 2 ^ i)
    (hmm : mm.val = 2 ^ i - 1) (hfit : -(2 * half maxDigits) < b.val - 2 ^ i) :
    (m ||| mm).val = lower b.val i := by
  have hpos : (0 : Int) < 2 ^ i := by positivity
  have hor : Int.lor m.val mm.val = lower b.val i := by
    rw [hm, hmm, lor_mask, Int.sub_ediv_of_dvd _ (dvd_refl _), Int.ediv_self hpos.ne']
    unfold lower
    ring
  have hlow := Int.lt_ediv_add_one_mul_self b.val hpos
  rw [← hor]
  refine SignMag.val_lor ?_
  rw [hor, ← two_mul_half_maxDigits]
  unfold lower
  linarith

/-- `(b - m) | mm` lowers `b`. -/
theorem lower_val {mm : APInt} (hb : Small b) (hi : i < maxDigits) (hm : m.val = 2 ^ i)
    (hmm : mm.val = 2 ^ i - 1) (hne : i + 1 < maxDigits ∨ -half maxDigits < b.val) :
    ((b - m) ||| mm).val = lower b.val i := by
  have hfit := lower_fits hb hi hne
  obtain ⟨hb1, hb2⟩ := hb
  have hpos : (0 : Int) < 2 ^ i := by positivity
  refine mask_val ?_ hmm hfit
  rw [← hm] at hfit hpos ⊢
  exact sub_val hfit (by omega)

/-- So does `(b & ~m) | mm`. -/
theorem lower_val' {mm : APInt} (hb : Small b) (hi : i < maxDigits) (hm : m.val = 2 ^ i)
    (hmm : mm.val = 2 ^ i - 1) (hbit : b.val / 2 ^ i % 2 = 1)
    (hne : i + 1 < maxDigits ∨ -half maxDigits < b.val) :
    ((b &&& ~~~m) ||| mm).val = lower b.val i := by
  have hfit := lower_fits hb hi hne
  have hle := two_pow_le_half_maxDigits hi
  have h2 := two_mul_half_maxDigits
  have htwo := two_le_half_maxDigits
  have hnot : (~~~m).val = Int.lnot (2 ^ i) := by
    rw [← hm]
    exact SignMag.val_complement (by omega)
  have hland := land_lnot_two_pow b.val i hbit
  rw [← hnot] at hland
  refine mask_val ?_ hmm hfit
  rw [← hland]
  exact SignMag.val_land (by rw [hland]; omega)

/-- The masks of a loop with `i` bits left. -/
def UpMasks (i : Nat) (m nm : APInt) : Prop :=
  0 < i → m.val = 2 ^ (i - 1) ∧ nm.val = -2 ^ (i - 1)

def DownMasks (i : Nat) (m mm : APInt) : Prop :=
  0 < i → m.val = 2 ^ (i - 1) ∧ mm.val = 2 ^ (i - 1) - 1

theorem UpMasks.shift {nm : APInt} (h : UpMasks (i + 1) m nm) :
    UpMasks i (m >>> 1) (nm >>> 1) := by
  intro h0
  obtain ⟨hm, hnm⟩ := h (Nat.succ_pos i)
  obtain ⟨j, rfl⟩ := Nat.exists_eq_add_of_lt h0
  rw [SignMag.val_shiftRight, SignMag.val_shiftRight, hm, hnm]
  simp only [zero_add, Nat.add_sub_cancel, pow_one]
  rw [pow_succ]
  constructor <;> omega

theorem DownMasks.shift {mm : APInt} (h : DownMasks (i + 1) m mm) :
    DownMasks i (m >>> 1) (mm >>> 1) := by
  intro h0
  obtain ⟨hm, hmm⟩ := h (Nat.succ_pos i)
  obtain ⟨j, rfl⟩ := Nat.exists_eq_add_of_lt h0
  rw [SignMag.val_shiftRight, SignMag.val_shiftRight, hm, hmm]
  simp only [zero_add, Nat.add_sub_cancel, pow_one]
  rw [pow_succ]
  constructor <;> omega

theorem upMasks_start {bw : Nat} (hw : 0 < bw ∧ bw ≤ maxDigits) :
    UpMasks bw ((1 : APInt) <<< (bw - 1)) ((-1 : APInt) <<< (bw - 1)) := by
  intro h0
  have hone : ((1 : APInt) <<< (bw - 1)).val = 2 ^ (bw - 1) := one_shl_val (by omega)
  have hle := two_pow_le_half_maxDigits (show bw - 1 < maxDigits by omega)
  have hneg : (-1 : APInt).val = -1 := by rw [SignMag.val_neg, one_val]
  have hpos : (0 : Int) < 2 ^ (bw - 1) := by positivity
  refine ⟨hone, ?_⟩
  rw [shl_val] <;> rw [hneg] <;> omega

theorem downMasks_start {bw : Nat} (hw : 0 < bw ∧ bw ≤ maxDigits) :
    DownMasks bw ((1 : APInt) <<< (bw - 1)) ((1 : APInt) <<< (bw - 1) - 1) := by
  intro h0
  have hone : ((1 : APInt) <<< (bw - 1)).val = 2 ^ (bw - 1) := one_shl_val (by omega)
  have hle := two_pow_le_half_maxDigits (show bw - 1 < maxDigits by omega)
  have hpos : (0 : Int) < 2 ^ (bw - 1) := by positivity
  refine ⟨hone, ?_⟩
  rw [sub_val] <;> rw [hone, one_val] <;> omega

theorem Small.of_between {s t r : APInt} (hs : Small s) (ht : Small t) (h1 : s.val ≤ r.val)
    (h2 : r.val ≤ t.val) : Small r :=
  ⟨hs.1.trans h1, lt_of_le_of_lt h2 ht.2⟩

/-- The step of a loop upwards: a raised bound is taken where it fits. -/
theorem raised_val {s x y : APInt} {v v' : Int} (ha : Small a) (hb : Small b)
    (hs : s.val = raise a.val i) (hx : Small s → x.val = v) (hy : y.val = v') :
    (if s.val ≤ b.val then x else y).val = if raise a.val i ≤ b.val then v else v' := by
  rw [hs]
  split
  case isTrue h => exact hx (ha.of_between hb (hs ▸ le_raise _ _) (hs ▸ h))
  case isFalse => exact hy

/-- The step of a loop downwards. -/
theorem lowered_val {s x y : APInt} {v v' : Int} (ha : Small a) (hb : Small b)
    (hs : s.val = lower b.val i) (hx : Small s → x.val = v) (hy : y.val = v') :
    (if a.val ≤ s.val then x else y).val = if a.val ≤ lower b.val i then v else v' := by
  rw [hs]
  split
  case isTrue h => exact hx (ha.of_between hb (hs ▸ h) (hs ▸ lower_le _ _))
  case isFalse => exact hy

theorem minORLoop_val (hb : Small b) (hd : Small d) {nm : APInt} (hi : i ≤ maxDigits)
    (ha : Small a) (hc : Small c) (hmask : UpMasks i m nm) :
    (minORLoop b d i a c m nm).val = minOr b.val d.val i a.val c.val := by
  induction i generalizing m nm with
  | zero => exact ha.lor_val hc
  | succ i ih =>
    have hrec := ih (by omega) hmask.shift
    obtain ⟨hm, hnm⟩ := hmask (Nat.succ_pos i)
    rw [Nat.add_sub_cancel] at hm hnm
    unfold minORLoop minOr
    simp only [land_bit_ne_zero ha.complement hc hm, land_bit_ne_zero ha hc.complement hm,
      ha.complement_val, hc.complement_val, lnot_bit_eq, SignMag.le_iff]
    by_cases h1 : a.val / 2 ^ i % 2 = 0 ∧ c.val / 2 ^ i % 2 = 1
    · have hval := raise_val ha (by omega) hm hnm h1.1
      rw [if_pos h1, if_pos (by omega)]
      exact raised_val ha hb hval (fun hs => by rw [hs.lor_val hc, hval]) hrec
    · rw [if_neg h1, if_neg (by omega)]
      by_cases h3 : a.val / 2 ^ i % 2 = 1 ∧ c.val / 2 ^ i % 2 = 0
      · have hval := raise_val hc (by omega) hm hnm h3.2
        rw [if_pos h3, if_pos (by omega)]
        exact raised_val hc hd hval (fun hs => by rw [ha.lor_val hs, hval]) hrec
      · rw [if_neg h3, if_neg (by omega), hrec]

theorem minANDLoop_val (hb : Small b) (hd : Small d) {nm : APInt} (hi : i ≤ maxDigits)
    (ha : Small a) (hc : Small c) (hmask : UpMasks i m nm) :
    (minANDLoop b d i a c m nm).val = minAnd b.val d.val i a.val c.val := by
  induction i generalizing m nm with
  | zero => exact ha.land_val hc
  | succ i ih =>
    have hrec := ih (by omega) hmask.shift
    obtain ⟨hm, hnm⟩ := hmask (Nat.succ_pos i)
    rw [Nat.add_sub_cancel] at hm hnm
    unfold minANDLoop minAnd
    simp only [land_bit_ne_zero ha.complement hc.complement hm, ha.complement_val,
      hc.complement_val, lnot_bit_eq, SignMag.le_iff]
    by_cases h1 : a.val / 2 ^ i % 2 = 0 ∧ c.val / 2 ^ i % 2 = 0
    · have hval := raise_val ha (by omega) hm hnm h1.1
      have hval' := raise_val hc (by omega) hm hnm h1.2
      rw [if_pos h1, if_pos (by omega)]
      refine raised_val ha hb hval (fun hs => by rw [hs.land_val hc, hval]) ?_
      exact raised_val hc hd hval' (fun hs => by rw [ha.land_val hs, hval']) hrec
    · rw [if_neg h1, if_neg (by omega), hrec]

theorem minXORLoop_val (hb : Small b) (hd : Small d) {nm : APInt} (hi : i ≤ maxDigits)
    (ha : Small a) (hc : Small c) (hmask : UpMasks i m nm) :
    (minXORLoop b d i a c m nm).val = minXor b.val d.val i a.val c.val := by
  induction i generalizing a c m nm with
  | zero => exact ha.xor_val hc
  | succ i ih =>
    have hrec := fun {s t : APInt} (hs : Small s) (ht : Small t) =>
      ih (by omega) hs ht hmask.shift
    obtain ⟨hm, hnm⟩ := hmask (Nat.succ_pos i)
    rw [Nat.add_sub_cancel] at hm hnm
    unfold minXORLoop minXor
    simp only [land_bit_ne_zero ha.complement hc hm, land_bit_ne_zero ha hc.complement hm,
      ha.complement_val, hc.complement_val, lnot_bit_eq, SignMag.le_iff]
    by_cases h1 : a.val / 2 ^ i % 2 = 0 ∧ c.val / 2 ^ i % 2 = 1
    · have hval := raise_val ha (by omega) hm hnm h1.1
      rw [if_pos h1, if_pos (by omega)]
      exact raised_val ha hb hval (fun hs => by rw [hrec hs hc, hval]) (hrec ha hc)
    · rw [if_neg h1, if_neg (by omega)]
      by_cases h3 : a.val / 2 ^ i % 2 = 1 ∧ c.val / 2 ^ i % 2 = 0
      · have hval := raise_val hc (by omega) hm hnm h3.2
        rw [if_pos h3, if_pos (by omega)]
        exact raised_val hc hd hval (fun hs => by rw [hrec ha hs, hval]) (hrec ha hc)
      · rw [if_neg h3, if_neg (by omega), hrec ha hc]

/-- The topmost bit of the capacity is the sign. -/
theorem top_bit (hi : i + 1 = maxDigits) (hp : Small p) :
    p.val / 2 ^ i % 2 = 1 ↔ p.val < 0 := by
  have hpos : (0 : Int) < 2 ^ i := by positivity
  have hhalf : half maxDigits = 2 ^ i := by
    unfold half
    rw [← hi, Nat.add_sub_cancel]
  obtain ⟨h1, h2⟩ := hp
  rcases Int.lt_or_le p.val 0 with h | h
  · have hq : p.val / 2 ^ i = -1 := by
      rw [Int.ediv_eq_iff_of_pos hpos]
      omega
    rw [hq]
    exact iff_of_true rfl h
  · rw [Int.ediv_eq_zero_of_lt h (by omega)]
    omega

/-- The loop away from the one place where lowering leaves the capacity, `Min`
    at the topmost bit. -/
theorem maxORLoop_val (ha : Small a) (hc : Small c) {mm : APInt} (hi : i ≤ maxDigits)
    (hb : Small b) (hd : Small d)
    (hne : i < maxDigits ∨ (b.val < 0 → d.val < 0 →
      -half maxDigits < b.val ∧ -half maxDigits < d.val))
    (hmask : DownMasks i m mm) :
    (maxORLoop a c i b d m mm).val = maxOr a.val c.val i b.val d.val := by
  induction i generalizing m mm with
  | zero => exact hb.lor_val hd
  | succ i ih =>
    have hrec := ih (by omega) (Or.inl (by omega)) hmask.shift
    obtain ⟨hm, hmm⟩ := hmask (Nat.succ_pos i)
    rw [Nat.add_sub_cancel] at hm hmm
    unfold maxORLoop maxOr
    simp only [land_bit_ne_zero hb hd hm, ge_iff_le, SignMag.le_iff]
    by_cases h1 : b.val / 2 ^ i % 2 = 1 ∧ d.val / 2 ^ i % 2 = 1
    · have hne' : i + 1 < maxDigits ∨ (-half maxDigits < b.val ∧ -half maxDigits < d.val) := by
        rcases hne with h | h
        · exact Or.inl h
        rcases Nat.lt_or_eq_of_le hi with h' | h'
        · exact Or.inl h'
        · exact Or.inr (h ((top_bit h' hb).mp h1.1) ((top_bit h' hd).mp h1.2))
      have hval := lower_val hb (by omega) hm hmm (hne'.imp_right And.left)
      have hval' := lower_val hd (by omega) hm hmm (hne'.imp_right And.right)
      rw [if_pos h1, if_pos h1]
      refine lowered_val ha hb hval (fun hs => by rw [hs.lor_val hd, hval]) ?_
      exact lowered_val hc hd hval' (fun hs => by rw [hb.lor_val hs, hval']) hrec
    · rw [if_neg h1, if_neg h1, hrec]

theorem maxANDLoop_val (ha : Small a) (hc : Small c) {mm : APInt} (hi : i ≤ maxDigits)
    (hb : Small b) (hd : Small d)
    (hne : i < maxDigits ∨ ((b.val < 0 → 0 ≤ d.val → -half maxDigits < b.val) ∧
      (d.val < 0 → 0 ≤ b.val → -half maxDigits < d.val)))
    (hmask : DownMasks i m mm) :
    (maxANDLoop a c i b d m mm).val = maxAnd a.val c.val i b.val d.val := by
  induction i generalizing m mm with
  | zero => exact hb.land_val hd
  | succ i ih =>
    have hrec := ih (by omega) (Or.inl (by omega)) hmask.shift
    have htop : i + 1 < maxDigits ∨ i + 1 = maxDigits := Nat.lt_or_eq_of_le hi
    obtain ⟨hm, hmm⟩ := hmask (Nat.succ_pos i)
    rw [Nat.add_sub_cancel] at hm hmm
    unfold maxANDLoop maxAnd
    simp only [land_bit_ne_zero hb hd.complement hm, land_bit_ne_zero hb.complement hd hm,
      hb.complement_val, hd.complement_val, lnot_bit_eq, ge_iff_le, SignMag.le_iff]
    by_cases h1 : b.val / 2 ^ i % 2 = 1 ∧ d.val / 2 ^ i % 2 = 0
    · have hne' : i + 1 < maxDigits ∨ -half maxDigits < b.val := by
        rcases hne with h | h
        · exact Or.inl h
        rcases htop with h' | h'
        · exact Or.inl h'
        · have hd0 := top_bit h' hd
          exact Or.inr (h.1 ((top_bit h' hb).mp h1.1) (by omega))
      have hval := lower_val' hb (by omega) hm hmm h1.1 hne'
      rw [if_pos h1, if_pos (by omega)]
      exact lowered_val ha hb hval (fun hs => by rw [hs.land_val hd, hval]) hrec
    · rw [if_neg h1, if_neg (by omega)]
      by_cases h3 : b.val / 2 ^ i % 2 = 0 ∧ d.val / 2 ^ i % 2 = 1
      · have hne' : i + 1 < maxDigits ∨ -half maxDigits < d.val := by
          rcases hne with h | h
          · exact Or.inl h
          rcases htop with h' | h'
          · exact Or.inl h'
          · have hb0 := top_bit h' hb
            exact Or.inr (h.2 ((top_bit h' hd).mp h3.2) (by omega))
        have hval := lower_val' hd (by omega) hm hmm h3.2 hne'
        rw [if_pos h3, if_pos (by omega)]
        exact lowered_val hc hd hval (fun hs => by rw [hb.land_val hs, hval]) hrec
      · rw [if_neg h3, if_neg (by omega), hrec]

theorem maxXORLoop_val (ha : Small a) (hc : Small c) {mm : APInt} (hi : i ≤ maxDigits)
    (hb : Small b) (hd : Small d)
    (hne : i < maxDigits ∨ (-half maxDigits < b.val ∧ -half maxDigits < d.val))
    (hmask : DownMasks i m mm) :
    (maxXORLoop a c i b d m mm).val = maxXor a.val c.val i b.val d.val := by
  induction i generalizing b d m mm with
  | zero => exact hb.xor_val hd
  | succ i ih =>
    have hrec := fun {s t : APInt} (hs : Small s) (ht : Small t) =>
      ih (by omega) hs ht (Or.inl (by omega)) hmask.shift
    obtain ⟨hm, hmm⟩ := hmask (Nat.succ_pos i)
    rw [Nat.add_sub_cancel] at hm hmm
    have hval := lower_val hb (by omega) hm hmm (hne.imp_right And.left)
    have hval' := lower_val hd (by omega) hm hmm (hne.imp_right And.right)
    unfold maxXORLoop maxXor
    simp only [land_bit_ne_zero hb hd hm, ge_iff_le, SignMag.le_iff]
    by_cases h1 : b.val / 2 ^ i % 2 = 1 ∧ d.val / 2 ^ i % 2 = 1
    · rw [if_pos h1, if_pos h1]
      refine lowered_val ha hb hval (fun hs => by rw [hrec hs hd, hval]) ?_
      exact lowered_val hc hd hval' (fun hs => by rw [hrec hb hs, hval']) (hrec hb hd)
    · rw [if_neg h1, if_neg h1, hrec hb hd]

end Loops

/-! ## Bounds of an operand -/

/-- The bounds the tables read for an operand, and a value of it. -/
structure Operand (w : Nat) (a b x : Int) : Prop where
  shape : (a = -half maxDigits ∧ b = half maxDigits - 1) ∨ (-half w ≤ a ∧ b < half w)
  lower_le : a ≤ x
  le_upper : x ≤ b
  mem : x ∈ signedRange w

/-- Bounds around `v` that the constructor does not turn against it: from `Min`
    to a finite bound above the limits, it keeps what `normalizeFromMin` keeps. -/
def Encloses (w : Nat) (lb ub v : Int) : Prop :=
  -half maxDigits ≤ lb ∧ lb ≤ v ∧ v ≤ ub ∧ ub < half maxDigits ∧
    (w < maxDigits → lb = -half maxDigits → half w ≤ ub → ub < 2 * half w - 1 →
      v ≤ ub - 2 * half w ∨ 0 ≤ v)

section Encloses

variable {w : Nat} {lb ub : APInt} {v : Int}

theorem encloses_of_limits {l u : Int} (hw : w ≤ maxDigits) (hlo : -half w ≤ l) (hlv : l ≤ v)
    (hvu : v ≤ u) (hhi : u < half w) : Encloses w l u v := by
  have hcap := half_le_half hw
  refine ⟨by omega, hlv, hvu, by omega, fun hlt _ hub _ => ?_⟩
  omega

theorem holds_of_encloses (hw : 0 < w ∧ w ≤ maxDigits) (hv : v ∈ signedRange w)
    (h : Encloses w lb.val ub.val v) : Holds (ofBounds .regular w lb ub) w v := by
  obtain ⟨hmin, hlv, hvu, hmax, hgap⟩ := h
  obtain ⟨hv1, hv2⟩ := hv
  have h0 := hw.1
  have hP := half_pos w
  rcases Nat.lt_or_eq_of_le hw.2 with hlt | rfl
  swap
  · rw [(ofBounds_regular_inside hw hmin (by omega) hmax).holds_iff]
    exact ⟨⟨hv1, hv2⟩, hlv, hvu⟩
  have hcap := two_mul_half_le h0 hlt
  by_cases hlo : lb.val = -half maxDigits
  · by_cases hhi : ub.val = half maxDigits - 1
    · obtain ⟨r, hr, hbw, hg⟩ := denotes_infinite hw
      rw [eq_min_iff.mpr hlo, eq_max_iff.mpr hhi]
      exact ⟨r, hr, hbw, hg ▸ ⟨hv1, hv2⟩⟩
    · by_cases hin : ub.val < half w
      · have hy := yields_regular_fromMin hw hlo (by omega) hhi
          ((normalizeFromMin_inside hw (by omega) hin).repair (by omega))
        rw [hy.holds_iff]
        exact ⟨⟨hv1, hv2⟩, hv1, hvu⟩
      by_cases habove : ub.val < 2 * half w - 1
      · have hy := yields_regular_fromMin hw hlo (by omega) hhi
          ((normalizeFromMin_above h0 hlt (by omega) habove).repair (by omega))
        rw [hy.holds_iff]
        refine ⟨⟨hv1, hv2⟩, ?_⟩
        have hg := hgap hlt hlo (by omega) habove
        show v < _ ∨ _ < v
        omega
      · have hy := yields_regular_fromMin hw hlo (by omega) hhi
          ((normalizeFromMin_far h0 hlt (by omega)).repair_crossed (by omega))
        rw [hy.holds_iff]
        exact ⟨⟨hv1, hv2⟩, by omega, by omega⟩
  · by_cases hhi : ub.val = half maxDigits - 1
    · by_cases hin : -half w ≤ lb.val
      · have hy := yields_regular_toMax hw (by omega) hlo (by omega) hhi
          ((normalizeToMax_inside hw hin (by omega)).repair (by omega))
        rw [hy.holds_iff]
        exact ⟨⟨hv1, hv2⟩, hlv, by omega⟩
      · have hy := yields_regular_toMax hw (by omega) hlo (by omega) hhi
          ((normalizeToMax_below hw (by omega)).repair_crossed (by omega))
        rw [hy.holds_iff]
        exact ⟨⟨hv1, hv2⟩, by omega, by omega⟩
    · have hsound : RegularSound w lb ub :=
        regularSound_of_meets h0 hlt (by omega) (by omega) (by omega) (by omega) (by omega)
      exact hsound v ⟨hv1, hv2⟩ ⟨v, ⟨hlv, hvu⟩, rfl⟩

end Encloses

/-! ## The bounds of operands -/

section Operands

variable {w : Nat} {a b c d x y z a' c' : Int}

theorem half_eq_two_pow (w : Nat) : half w = 2 ^ (w - 1) := rfl

theorem lor_mem (hx : x ∈ signedRange w) (hy : y ∈ signedRange w) :
    Int.lor x y ∈ signedRange w := bitwiseOp_lor.mem_of_mem lor_sign hx hy

theorem land_mem (hx : x ∈ signedRange w) (hy : y ∈ signedRange w) :
    Int.land x y ∈ signedRange w := bitwiseOp_land.mem_of_mem land_sign hx hy

theorem xor_mem (hx : x ∈ signedRange w) (hy : y ∈ signedRange w) :
    Int.xor x y ∈ signedRange w := bitwiseOp_xor.mem_of_mem xor_sign hx hy

theorem ediv_two_pow_neg (z : Int) (n : Nat) : z / 2 ^ n < 0 ↔ z < 0 := by
  rw [Int.ediv_lt_iff_lt_mul (by positivity), zero_mul]

/-- The bits above a width are the sign of its values. -/
theorem ediv_of_mem (h0 : 0 < w) (hx : x ∈ signedRange w) :
    x / 2 ^ w = if x < 0 then -1 else 0 := by
  obtain ⟨h1, h2⟩ := hx
  have hP := half_pos w
  rw [← two_mul_half h0, Int.ediv_eq_iff_of_pos (by omega)]
  split_ifs <;> omega

theorem mem_of_Icc (hb : z ∈ Set.Icc a b) (ha : -half w ≤ a) (hb' : b < half w) :
    z ∈ signedRange w := ⟨ha.trans hb.1, lt_of_le_of_lt hb.2 hb'⟩

theorem Operand.le (h : Operand w a b x) : a ≤ b := h.lower_le.trans h.le_upper

/-- An operand whose bounds have one sign is finite. -/
theorem Operand.finite (h : Operand w a b x) (hab : a < 0 ↔ b < 0) :
    -half w ≤ a ∧ b < half w := by
  have hP := two_le_half_maxDigits
  rcases h.shape with ⟨h1, h2⟩ | h
  · omega
  · exact h

theorem Operand.small (h : Operand w a b x) (hw : w ≤ maxDigits) :
    -half maxDigits ≤ a ∧ b < half maxDigits := by
  have hP := half_le_half hw
  rcases h.shape with ⟨h1, h2⟩ | ⟨h1, h2⟩ <;> omega

/-- The value and either bound have the same sign bits. -/
theorem Operand.ediv_eq (h : Operand w a b x) (h0 : 0 < w) (hab : a < 0 ↔ b < 0) :
    x / 2 ^ w = a / 2 ^ w ∧ x / 2 ^ w = b / 2 ^ w := by
  obtain ⟨h1, h2⟩ := h.finite hab
  have hle := h.lower_le
  have hge := h.le_upper
  rw [ediv_of_mem h0 h.mem, ediv_of_mem h0 (show a ∈ signedRange w from ⟨h1, by omega⟩),
    ediv_of_mem h0 (show b ∈ signedRange w from ⟨by omega, h2⟩)]
  constructor
  · split_ifs <;> omega
  · split_ifs <;> omega

/-- Operands of one sign each: bounds that are results, and that bound the
    results of operands with their corners' sign bits, are within the limits. -/
theorem bounds_finite {op : Int → Int → Int} {lo hi : Int} (h0 : 0 < w)
    (hop : ∀ {x y}, x ∈ signedRange w → y ∈ signedRange w → op x y ∈ signedRange w)
    (ha : Operand w a b x) (hc : Operand w c d y) (hab : a < 0 ↔ b < 0) (hcd : c < 0 ↔ d < 0)
    (hlo : ∃ p ∈ Set.Icc a b, ∃ q ∈ Set.Icc c d, lo = op p q)
    (hhi : ∃ p ∈ Set.Icc a b, ∃ q ∈ Set.Icc c d, hi = op p q)
    (hmin : x / 2 ^ w = a / 2 ^ w → y / 2 ^ w = c / 2 ^ w → lo ≤ op x y)
    (hmax : x / 2 ^ w = b / 2 ^ w → y / 2 ^ w = d / 2 ^ w → op x y ≤ hi) :
    (lo ∈ signedRange w ∧ lo ≤ op x y) ∧ hi ∈ signedRange w ∧ op x y ≤ hi := by
  obtain ⟨ha1, ha2⟩ := ha.finite hab
  obtain ⟨hc1, hc2⟩ := hc.finite hcd
  obtain ⟨p, hp, q, hq, rfl⟩ := hlo
  obtain ⟨p', hp', q', hq', rfl⟩ := hhi
  obtain ⟨hxa, hxb⟩ := ha.ediv_eq h0 hab
  obtain ⟨hyc, hyd⟩ := hc.ediv_eq h0 hcd
  exact ⟨⟨hop (mem_of_Icc hp ha1 ha2) (mem_of_Icc hq hc1 hc2), hmin hxa hyc⟩,
    hop (mem_of_Icc hp' ha1 ha2) (mem_of_Icc hq' hc1 hc2), hmax hxb hyd⟩

theorem or_finite (h0 : 0 < w) (ha : Operand w a b x) (hc : Operand w c d y)
    (hab : a < 0 ↔ b < 0) (hcd : c < 0 ↔ d < 0) :
    (minOr b d w a c ∈ signedRange w ∧ minOr b d w a c ≤ Int.lor x y) ∧
      maxOr a c w b d ∈ signedRange w ∧ Int.lor x y ≤ maxOr a c w b d :=
  bounds_finite h0 lor_mem ha hc hab hcd (minOr_attained ha.le hc.le w)
    (maxOr_attained ha.le hc.le w)
    (minOr_le ha.lower_le ha.le_upper hc.lower_le hc.le_upper)
    (le_maxOr ha.lower_le ha.le_upper hc.lower_le hc.le_upper)

/-- An operand across zero and one of nonnegative bounds: the least disjunction
    is found among the negative values of the first. -/
theorem minOr_le_of_across (h0 : 0 < w) (ha : Operand w a b x) (hc : Operand w c d y)
    (ha0 : a < 0) (hc0 : 0 ≤ c) : minOr (-1) d w a c ≤ Int.lor x y := by
  have hyc := (hc.ediv_eq h0 (by have := hc.lower_le; have := hc.le_upper; omega)).1
  have hy : y / 2 ^ w = 0 := by
    rw [ediv_of_mem h0 hc.mem, if_neg (by have := hc.lower_le; omega)]
  have hxa := Int.ediv_le_ediv (show (0 : Int) < 2 ^ w by positivity) ha.lower_le
  by_cases hx : x < 0 ∧ x / 2 ^ w = a / 2 ^ w
  · exact minOr_le ha.lower_le (by omega) hc.lower_le hc.le_upper hx.2 hyc
  · apply minOr_le_of_ediv
    rw [← hyc, hy, lor_comm, zero_lor, lor_comm, zero_lor]
    have hneg := (ediv_two_pow_neg a w).mpr ha0
    have hx' := ediv_of_mem h0 ha.mem
    split_ifs at hx' <;> omega

theorem le_minOr (ha0 : a < 0) (hcd : c ≤ d) : a ≤ minOr (-1) d w a c := by
  obtain ⟨p, ⟨hp1, hp2⟩, q, hq, hatt⟩ := minOr_attained (show a ≤ -1 by omega) hcd w
  have hpq := (le_lor_of_neg q (show p < 0 by omega)).1
  rw [hatt]
  omega

/-- Upper bounds that are nonnegative: the greatest disjunction is found among
    the nonnegative values. -/
theorem lor_le_maxOr (h0 : 0 < w) (ha : Operand w a b x) (hc : Operand w c d y) (hb : 0 ≤ b)
    (hd : 0 ≤ d) (ha' : 0 ≤ x → a' ≤ x) (hc' : 0 ≤ y → c' ≤ y) :
    Int.lor x y ≤ maxOr a' c' w b d := by
  have hb' : 0 ≤ b / 2 ^ w := Int.ediv_nonneg hb (by positivity)
  have hd' : 0 ≤ d / 2 ^ w := Int.ediv_nonneg hd (by positivity)
  have hx := ediv_of_mem h0 ha.mem
  have hy := ediv_of_mem h0 hc.mem
  have hbound := le_lor_of_nonneg hb' hd'
  have hbound' := le_lor_of_nonneg hd' hb'
  rw [lor_comm] at hbound'
  by_cases hneg : x < 0 ∨ y < 0
  · apply le_maxOr_of_ediv
    have hlor : Int.lor (x / 2 ^ w) (y / 2 ^ w) = -1 := by
      rcases hneg with h | h
      · rw [hx, if_pos h, neg_one_lor]
      · rw [hy, if_pos h, lor_comm, neg_one_lor]
    omega
  · rw [not_or, not_lt, not_lt] at hneg
    rw [if_neg (by omega)] at hx
    rw [if_neg (by omega)] at hy
    by_cases hzero : b / 2 ^ w = 0 ∧ d / 2 ^ w = 0
    · exact le_maxOr (ha' hneg.1) ha.le_upper (hc' hneg.2) hc.le_upper (by omega) (by omega)
    · apply le_maxOr_of_ediv
      rw [hx, hy, zero_lor]
      omega

/-- With an infinite operand the greatest disjunction is `Max`. -/
theorem maxOr_of_infinite (hb : 0 ≤ b ∧ b < half maxDigits) (hd : 0 ≤ d ∧ d < half maxDigits)
    (ha' : 0 ≤ a' ∧ a' ≤ b) (hc' : 0 ≤ c' ∧ c' ≤ d) :
    maxOr a' c' w b d < half maxDigits ∧ 0 ≤ maxOr a' c' w b d ∧
      (b = half maxDigits - 1 ∨ d = half maxDigits - 1 →
        maxOr a' c' w b d = half maxDigits - 1) := by
  obtain ⟨p, hp, q, hq, h⟩ := maxOr_attained ha'.2 hc'.2 w
  have hmem : maxOr a' c' w b d ∈ signedRange maxDigits := by
    have hp1 := hp.1
    have hp2 := hp.2
    have hq1 := hq.1
    have hq2 := hq.2
    rw [h]
    exact lor_mem ⟨by omega, by omega⟩ ⟨by omega, by omega⟩
  have hge : Int.lor b d ≤ maxOr a' c' w b d :=
    le_maxOr ha'.2 (le_refl _) hc'.2 (le_refl _) rfl rfl
  have hb1 := le_lor_of_nonneg hb.1 hd.1
  have hd1 := le_lor_of_nonneg hd.1 hb.1
  rw [lor_comm] at hd1
  have hlt := hmem.2
  refine ⟨hlt, by omega, fun hinf => ?_⟩
  omega

theorem and_finite (h0 : 0 < w) (ha : Operand w a b x) (hc : Operand w c d y)
    (hab : a < 0 ↔ b < 0) (hcd : c < 0 ↔ d < 0) :
    (minAnd b d w a c ∈ signedRange w ∧ minAnd b d w a c ≤ Int.land x y) ∧
      maxAnd a c w b d ∈ signedRange w ∧ Int.land x y ≤ maxAnd a c w b d :=
  bounds_finite h0 land_mem ha hc hab hcd (minAnd_attained ha.le hc.le w)
    (maxAnd_attained ha.le hc.le w)
    (minAnd_le ha.lower_le ha.le_upper hc.lower_le hc.le_upper)
    (le_maxAnd ha.lower_le ha.le_upper hc.lower_le hc.le_upper)

/-- Negative lower bounds: the least conjunction is found among the negative
    values. -/
theorem minAnd_le_land (h0 : 0 < w) (ha : Operand w a b x) (hc : Operand w c d y) (ha0 : a < 0)
    (hc0 : c < 0) {b' d' : Int} (hb' : x < 0 → x ≤ b') (hd' : y < 0 → y ≤ d') :
    minAnd b' d' w a c ≤ Int.land x y := by
  have hA := (ediv_two_pow_neg a w).mpr ha0
  have hC := (ediv_two_pow_neg c w).mpr hc0
  have hx := ediv_of_mem h0 ha.mem
  have hy := ediv_of_mem h0 hc.mem
  have hbound := land_le_of_neg hA hC
  have hbound' := land_le_of_neg hC hA
  rw [land_comm] at hbound'
  by_cases hneg : x < 0 ∧ y < 0
  · rw [if_pos hneg.1] at hx
    rw [if_pos hneg.2] at hy
    by_cases hones : a / 2 ^ w = -1 ∧ c / 2 ^ w = -1
    · exact minAnd_le ha.lower_le (hb' hneg.1) hc.lower_le (hd' hneg.2) (by omega) (by omega)
    · apply minAnd_le_of_ediv
      rw [hx, hy, land_neg_one]
      omega
  · apply minAnd_le_of_ediv
    have hland : Int.land (x / 2 ^ w) (y / 2 ^ w) = 0 := by
      by_cases hx0 : x < 0
      · rw [hy, if_neg (fun h => hneg ⟨hx0, h⟩), land_comm, zero_land]
      · rw [hx, if_neg hx0, zero_land]
    omega

/-- A negative operand and one that reaches up to `d`: the greatest conjunction
    is found among the nonnegative values of the second. -/
theorem land_le_maxAnd (h0 : 0 < w) (ha : Operand w a b x) (hab : a < 0 ↔ b < 0) (hb : b < 0)
    (hd : 0 ≤ d) (hy : 0 ≤ y) (hy' : y < 2 ^ w) (hc' : c' ≤ y) (hyd : y ≤ d) :
    Int.land x y ≤ maxAnd a c' w b d := by
  have hx := (ha.ediv_eq h0 hab).2
  have hones : x / 2 ^ w = -1 := by
    rw [ediv_of_mem h0 ha.mem, if_pos (by have := ha.le_upper; omega)]
  have hd' : 0 ≤ d / 2 ^ w := Int.ediv_nonneg hd (by positivity)
  have hyw : y / 2 ^ w = 0 := Int.ediv_eq_zero_of_lt hy hy'
  by_cases hzero : d / 2 ^ w = 0
  · exact le_maxAnd ha.lower_le ha.le_upper hc' hyd hx (by omega)
  · apply le_maxAnd_of_ediv
    rw [← hx, hones, land_comm, land_neg_one, hyw, land_comm, land_neg_one]
    omega

theorem maxAnd_nonneg (hd : 0 ≤ d) : 0 ≤ maxAnd a c' w b d := by
  by_contra h
  rw [not_le, ← ediv_two_pow_neg _ w, maxAnd_ediv, land_comm] at h
  exact absurd (land_le_of_nonneg (b / 2 ^ w) (Int.ediv_nonneg hd (by positivity))).1
    (not_le.mpr h)

/-- The least conjunction of negative values leaves neither the capacity nor,
    for finite operands, the limits. -/
theorem minAnd_small (ha : Operand w a b x) (hc : Operand w c d y) (hw : w ≤ maxDigits)
    (b' d' : Int) (hb' : a ≤ b' ∧ b' < 0) (hd' : c ≤ d' ∧ d' < 0) :
    -half maxDigits ≤ minAnd b' d' w a c ∧
      (-half w ≤ a → -half w ≤ c → -half w ≤ minAnd b' d' w a c) := by
  obtain ⟨p, ⟨hp1, hp2⟩, q, ⟨hq1, hq2⟩, h⟩ := minAnd_attained hb'.1 hd'.1 w
  have ha1 := (ha.small hw).1
  have hc1 := (hc.small hw).1
  have hP := half_pos w
  have hC := half_pos maxDigits
  rw [h]
  constructor
  · exact (land_mem (w := maxDigits) ⟨by omega, by omega⟩ ⟨by omega, by omega⟩).1
  · exact fun hfa hfc => (land_mem (w := w) ⟨by omega, by omega⟩ ⟨by omega, by omega⟩).1

theorem maxAnd_small (hab : a ≤ b) (hd : 0 ≤ d) (hd' : d < half maxDigits) :
    maxAnd a 0 w b d < half maxDigits := by
  obtain ⟨p, hp, q, ⟨hq1, hq2⟩, h⟩ := maxAnd_attained hab hd w
  have hpq := land_le_of_nonneg p hq1
  rw [land_comm] at hpq
  rw [h]
  omega

/-- The conjunction of two negative values, moved up by a turn. -/
theorem land_add_turn (h0 : 0 < w) (hx : x ∈ signedRange w) (hy : y ∈ signedRange w) (hx0 : x < 0)
    (hy0 : y < 0) : Int.land x (y + 2 ^ w) = Int.land x y + 2 ^ w := by
  have hpos : (0 : Int) < 2 ^ w := by positivity
  have hxq : x / 2 ^ w = -1 := by rw [ediv_of_mem h0 hx, if_pos hx0]
  have hyq : y / 2 ^ w = -1 := by rw [ediv_of_mem h0 hy, if_pos hy0]
  apply eq_of_ediv_emod (n := w)
  · rw [bitwiseOp_land.ediv_two_pow, Int.add_ediv_of_dvd_right (dvd_refl _),
      Int.add_ediv_of_dvd_right (dvd_refl _), bitwiseOp_land.ediv_two_pow,
      Int.ediv_self hpos.ne', hxq, hyq, land_neg_one]
    rw [show (-1 : Int) + 1 = 0 by decide, land_comm, zero_land]
  · rw [bitwiseOp_land.emod_two_pow, Int.add_emod_right, Int.add_emod_right,
      bitwiseOp_land.emod_two_pow]

theorem xor_finite (h0 : 0 < w) (ha : Operand w a b x) (hc : Operand w c d y)
    (hab : a < 0 ↔ b < 0) (hcd : c < 0 ↔ d < 0) :
    (minXor b d w a c ∈ signedRange w ∧ minXor b d w a c ≤ Int.xor x y) ∧
      maxXor a c w b d ∈ signedRange w ∧ Int.xor x y ≤ maxXor a c w b d :=
  bounds_finite h0 xor_mem ha hc hab hcd (minXor_attained ha.le hc.le w)
    (maxXor_attained ha.le hc.le w)
    (minXor_le ha.lower_le ha.le_upper hc.lower_le hc.le_upper)
    (le_maxXor ha.lower_le ha.le_upper hc.lower_le hc.le_upper)

end Operands

/-! ## The tables are sound -/

section Tables

variable {w : Nat} {a b c d : APInt} {x y : Int}

theorem nonneg_iff {a : APInt} : a ≥ 0 ↔ 0 ≤ a.val := by
  rw [ge_iff_le, SignMag.le_iff, SignMag.val_zero]

theorem signs_of {p q r s : Bool} (ha : decide (a ≥ 0) = p) (hb : decide (b ≥ 0) = q)
    (hc : decide (c ≥ 0) = r) (hd : decide (d ≥ 0) = s) :
    signs a b c d = p.toNat <<< 3 ||| q.toNat <<< 2 ||| r.toNat <<< 1 ||| s.toNat := by
  rw [signs, ha, hb, hc, hd]

theorem decide_nonneg {a : APInt} (h : 0 ≤ a.val) : decide (a ≥ 0) = true :=
  decide_eq_true (nonneg_iff.mpr h)

theorem decide_neg {a : APInt} (h : a.val < 0) : decide (a ≥ 0) = false :=
  decide_eq_false fun h' => by have := nonneg_iff.mp h'; omega

theorem small_zero : Small 0 := by
  have := half_pos maxDigits
  unfold Small
  rw [SignMag.val_zero]
  omega

theorem small_neg_one : Small (-1) := by
  have := two_le_half_maxDigits
  unfold Small
  rw [neg_one_val]
  omega

theorem minOR_val (hw : 0 < w ∧ w ≤ maxDigits) (ha : Small a) (hb : Small b) (hc : Small c)
    (hd : Small d) : (minOR w a b c d).val = minOr b.val d.val w a.val c.val :=
  minORLoop_val hb hd hw.2 ha hc (upMasks_start hw)

theorem minAND_val (hw : 0 < w ∧ w ≤ maxDigits) (ha : Small a) (hb : Small b) (hc : Small c)
    (hd : Small d) : (minAND w a b c d).val = minAnd b.val d.val w a.val c.val :=
  minANDLoop_val hb hd hw.2 ha hc (upMasks_start hw)

theorem minXOR_val (hw : 0 < w ∧ w ≤ maxDigits) (ha : Small a) (hb : Small b) (hc : Small c)
    (hd : Small d) : (minXOR w a b c d).val = minXor b.val d.val w a.val c.val :=
  minXORLoop_val hb hd hw.2 ha hc (upMasks_start hw)

theorem maxOR_val (hw : 0 < w ∧ w ≤ maxDigits) (ha : Small a) (hb : Small b) (hc : Small c)
    (hd : Small d) (hne : w < maxDigits ∨ (b.val < 0 → d.val < 0 →
      -half maxDigits < b.val ∧ -half maxDigits < d.val)) :
    (maxOR w a b c d).val = maxOr a.val c.val w b.val d.val :=
  maxORLoop_val ha hc hw.2 hb hd hne (downMasks_start hw)

theorem maxAND_val (hw : 0 < w ∧ w ≤ maxDigits) (ha : Small a) (hb : Small b) (hc : Small c)
    (hd : Small d) (hne : w < maxDigits ∨ ((b.val < 0 → 0 ≤ d.val → -half maxDigits < b.val) ∧
      (d.val < 0 → 0 ≤ b.val → -half maxDigits < d.val))) :
    (maxAND w a b c d).val = maxAnd a.val c.val w b.val d.val :=
  maxANDLoop_val ha hc hw.2 hb hd hne (downMasks_start hw)

theorem maxXOR_val (hw : 0 < w ∧ w ≤ maxDigits) (ha : Small a) (hb : Small b) (hc : Small c)
    (hd : Small d) (hne : w < maxDigits ∨ (-half maxDigits < b.val ∧ -half maxDigits < d.val)) :
    (maxXOR w a b c d).val = maxXor a.val c.val w b.val d.val :=
  maxXORLoop_val ha hc hw.2 hb hd hne (downMasks_start hw)

section Top

variable {i : Nat} {m mm : APInt}

theorem half_eq_of_top (hi : i + 1 = maxDigits) : half maxDigits = 2 ^ i := by
  rw [half_eq_two_pow, ← hi, Nat.add_sub_cancel]

/-- `Min` less its own bit is dropped: masked, it is `Max`. -/
theorem mask_min_val (hi : i + 1 = maxDigits) (hm : m.val = 0) (hmm : mm.val = 2 ^ i - 1) :
    (m ||| mm).val = half maxDigits - 1 := by
  have hP := half_pos maxDigits
  have htop := half_eq_of_top hi
  have hs : Small mm := ⟨by omega, by omega⟩
  have hs' : Small m := ⟨by omega, by omega⟩
  rw [hs'.lor_val hs, hm, zero_lor, hmm, htop]

theorem min_sub_val (hi : i + 1 = maxDigits) (hb : b.val = -half maxDigits) (hm : m.val = 2 ^ i) :
    (b - m).val = 0 := by
  have htwo : -half maxDigits - 2 ^ i = -2 ^ maxDigits := by
    rw [half_eq_of_top hi, ← hi, pow_succ]
    ring
  rw [SignMag.val_sub, hb, hm, htwo]
  exact SignMag.val_ofInt_neg_two_pow

theorem min_land_val (hi : i + 1 = maxDigits) (hb : b.val = -half maxDigits) (hm : m.val = 2 ^ i) :
    (b &&& ~~~m).val = 0 := by
  have hpos : (0 : Int) < 2 ^ i := by positivity
  have h2 := two_mul_half_maxDigits
  have htwo := two_le_half_maxDigits
  have htop := half_eq_of_top hi
  have hnot : (~~~m).val = Int.lnot (2 ^ i) := by
    rw [← hm]
    exact SignMag.val_complement (by omega)
  have hbit : b.val / 2 ^ i % 2 = 1 := by
    rw [hb, htop, Int.neg_ediv_of_dvd (dvd_refl _), Int.ediv_self hpos.ne']
    decide
  rw [SignMag.land_eq, hnot, land_lnot_two_pow _ _ hbit,
    show b.val - 2 ^ i = -2 ^ maxDigits by omega]
  exact SignMag.val_ofInt_neg_two_pow

/-- A negative value of the capacity with all bits below its sign set. -/
theorem lor_max_val {p q : APInt} (hi : i + 1 = maxDigits) (hp : Small p) (hp0 : p.val < 0)
    (hq : q.val = half maxDigits - 1) : Int.lor p.val q.val = -1 := by
  have hpos : (0 : Int) < 2 ^ i := by positivity
  have htop := half_eq_of_top hi
  obtain ⟨h1, h2⟩ := hp
  have hquot : p.val / 2 ^ i = -1 := by
    rw [Int.ediv_eq_iff_of_pos hpos]
    omega
  rw [hq, htop, lor_mask, hquot]
  ring

theorem maxORLoop_top (hi : i + 1 = maxDigits) (hmask : DownMasks (i + 1) m mm) (hb : Small b)
    (hd : Small d) (ha : Small a) (hab : a.val ≤ b.val) (hcd : c.val ≤ d.val)
    (hb0 : b.val < 0) (hd0 : d.val < 0)
    (hmin : b.val = -half maxDigits ∨ d.val = -half maxDigits) :
    (maxORLoop a c (i + 1) b d m mm).val = -1 := by
  have hP := half_pos maxDigits
  have htop := half_eq_of_top hi
  have hpos : (0 : Int) < 2 ^ i := by positivity
  obtain ⟨hm, hmm⟩ := hmask (Nat.succ_pos i)
  rw [Nat.add_sub_cancel] at hm hmm
  have hquot : ∀ p : APInt, Small p → p.val < 0 → p.val / 2 ^ i = -1 := by
    intro p hp hp0
    obtain ⟨h1, h2⟩ := hp
    rw [Int.ediv_eq_iff_of_pos hpos]
    omega
  unfold maxORLoop
  simp only [land_bit_ne_zero hb hd hm, hquot b hb hb0, hquot d hd hd0, ge_iff_le, SignMag.le_iff]
  rw [if_pos (by decide)]
  by_cases hbm : b.val = -half maxDigits
  · have hval := mask_min_val hi (min_sub_val hi hbm hm) hmm
    have hs : Small ((b - m) ||| mm) := ⟨by omega, by omega⟩
    rw [if_pos (by omega), hs.lor_val hd, lor_comm]
    exact lor_max_val hi hd hd0 hval
  · have hdm := hmin.resolve_left hbm
    have hval := mask_min_val hi (min_sub_val hi hdm hm) hmm
    have hs : Small ((d - m) ||| mm) := ⟨by omega, by omega⟩
    have hlow : ((b - m) ||| mm).val = lower b.val i :=
      lower_val hb (by omega) hm hmm (Or.inr (by have := hb.1; omega))
    have hlow' : lower b.val i = -half maxDigits - 1 := by
      unfold lower
      rw [hquot b hb hb0, htop]
      ring
    have ha1 := ha.1
    rw [if_neg (by omega), if_pos (by omega), hb.lor_val hs]
    exact lor_max_val hi hb hb0 hval

theorem land_max_val {p q : APInt} (hi : i + 1 = maxDigits) (hp : p.val = half maxDigits - 1)
    (hq : Small q) (hq0 : 0 ≤ q.val) : (p &&& q).val = q.val := by
  have hP := half_pos maxDigits
  have htop := half_eq_of_top hi
  have hs : Small p := ⟨by omega, by omega⟩
  have hlt := hq.2
  rw [hs.land_val hq, land_comm, ← hq.land_val hs,
    SignMag.val_land_mask q p (show i ≤ maxDigits by omega) (by omega),
    Int.emod_eq_of_lt hq0 (by omega)]

theorem maxANDLoop_top (hi : i + 1 = maxDigits) (hmask : DownMasks (i + 1) m mm)
    (hd : Small d) (hab : a.val ≤ b.val) (hd0 : 0 ≤ d.val) (hmin : b.val = -half maxDigits) :
    (maxANDLoop a c (i + 1) b d m mm).val = d.val := by
  have hP := half_pos maxDigits
  have htop := half_eq_of_top hi
  have hpos : (0 : Int) < 2 ^ i := by positivity
  obtain ⟨hm, hmm⟩ := hmask (Nat.succ_pos i)
  rw [Nat.add_sub_cancel] at hm hmm
  have hb : Small b := ⟨by omega, by omega⟩
  have hlt := hd.2
  have hbq : b.val / 2 ^ i = -1 := by
    rw [Int.ediv_eq_iff_of_pos hpos]
    omega
  have hdq : d.val / 2 ^ i = 0 := Int.ediv_eq_zero_of_lt hd0 (by omega)
  have hval := mask_min_val hi (min_land_val hi hmin hm) hmm
  unfold maxANDLoop
  simp only [land_bit_ne_zero hb hd.complement hm, hd.complement_val, lnot_bit_eq, hbq, hdq,
    ge_iff_le, SignMag.le_iff]
  rw [if_pos (by decide), if_pos (by omega)]
  exact land_max_val hi hval hd hd0

theorem maxANDLoop_top' (hi : i + 1 = maxDigits) (hmask : DownMasks (i + 1) m mm) (hb : Small b)
    (hcd : c.val ≤ d.val) (hb0 : 0 ≤ b.val) (hmin : d.val = -half maxDigits) :
    (maxANDLoop a c (i + 1) b d m mm).val = b.val := by
  have hP := half_pos maxDigits
  have htop := half_eq_of_top hi
  have hpos : (0 : Int) < 2 ^ i := by positivity
  obtain ⟨hm, hmm⟩ := hmask (Nat.succ_pos i)
  rw [Nat.add_sub_cancel] at hm hmm
  have hd : Small d := ⟨by omega, by omega⟩
  have hlt := hb.2
  have hdq : d.val / 2 ^ i = -1 := by
    rw [Int.ediv_eq_iff_of_pos hpos]
    omega
  have hbq : b.val / 2 ^ i = 0 := Int.ediv_eq_zero_of_lt hb0 (by omega)
  have hval := mask_min_val hi (min_land_val hi hmin hm) hmm
  have hs : Small ((d &&& ~~~m) ||| mm) := ⟨by omega, by omega⟩
  unfold maxANDLoop
  simp only [land_bit_ne_zero hb hd.complement hm, land_bit_ne_zero hb.complement hd hm,
    hb.complement_val, hd.complement_val, lnot_bit_eq, hbq, hdq, ge_iff_le, SignMag.le_iff]
  rw [if_neg (by decide), if_pos (by decide), if_pos (by omega), hb.land_val hs, land_comm,
    ← hs.land_val hb]
  exact land_max_val hi hval hb hb0

end Top

/-- At the capacity `Min` less its own bit is zero: the first step of `maxOR`
    makes the bound `Max`, and the result is all ones. -/
theorem maxOR_min (ha : Small a) (hb : Small b) (hd : Small d)
    (hab : a.val ≤ b.val) (hcd : c.val ≤ d.val) (hb0 : b.val < 0) (hd0 : d.val < 0)
    (hmin : b.val = -half maxDigits ∨ d.val = -half maxDigits) :
    (maxOR maxDigits a b c d).val = -1 :=
  maxORLoop_top (i := 4095) rfl (downMasks_start ⟨maxDigits_pos, le_refl _⟩) hb hd ha hab hcd
    hb0 hd0 hmin

/-- Likewise for `maxAND`, where the bound `Max` keeps the other operand. -/
theorem maxAND_min (hd : Small d) (hab : a.val ≤ b.val) (hd0 : 0 ≤ d.val)
    (hmin : b.val = -half maxDigits) : (maxAND maxDigits a b c d).val = d.val :=
  maxANDLoop_top (i := 4095) rfl (downMasks_start ⟨maxDigits_pos, le_refl _⟩) hd hab hd0 hmin

theorem maxAND_min' (hb : Small b) (hcd : c.val ≤ d.val) (hb0 : 0 ≤ b.val)
    (hmin : d.val = -half maxDigits) : (maxAND maxDigits a b c d).val = b.val :=
  maxANDLoop_top' (i := 4095) rfl (downMasks_start ⟨maxDigits_pos, le_refl _⟩) hb hcd hb0 hmin

theorem Operand.smalls (h : Operand w a.val b.val x) (hw : w ≤ maxDigits) : Small a ∧ Small b := by
  obtain ⟨h1, h2⟩ := h.small hw
  have hle := h.le
  exact ⟨⟨h1, by omega⟩, by omega, h2⟩

theorem OR_finite (hw : 0 < w ∧ w ≤ maxDigits) (ha : Operand w a.val b.val x)
    (hc : Operand w c.val d.val y) (hab : a.val < 0 ↔ b.val < 0) (hcd : c.val < 0 ↔ d.val < 0) :
    Encloses w (minOR w a b c d).val (maxOR w a b c d).val (Int.lor x y) := by
  obtain ⟨hsa, hsb⟩ := ha.smalls hw.2
  obtain ⟨hsc, hsd⟩ := hc.smalls hw.2
  obtain ⟨⟨hmin, hmin'⟩, hmax, hmax'⟩ := or_finite hw.1 ha hc hab hcd
  have hP := half_pos w
  rw [minOR_val hw hsa hsb hsc hsd]
  by_cases hne : w < maxDigits ∨ (b.val < 0 → d.val < 0 →
      -half maxDigits < b.val ∧ -half maxDigits < d.val)
  · rw [maxOR_val hw hsa hsb hsc hsd hne]
    exact encloses_of_limits hw.2 hmin.1 hmin' hmax' hmax.2
  · -- two negative bounds, one of them `Min`, at the capacity
    have hwm : w = maxDigits := by omega
    have hle := ha.lower_le.trans ha.le_upper
    have hle' := hc.lower_le.trans hc.le_upper
    have hb1 := hsb.1
    have hd1 := hsd.1
    have hval : (maxOR w a b c d).val = -1 := by
      subst hwm
      exact maxOR_min hsa hsb hsd hle hle' (by omega) (by omega) (by omega)
    have hv := (le_lor_of_neg y (show x < 0 by have := ha.le_upper; omega)).2
    rw [hval]
    exact encloses_of_limits hw.2 hmin.1 hmin' (by omega) (by omega)

/-- Upper bounds that are both nonnegative, and a lower bound that is finite
    unless an operand is infinite. -/
theorem OR_across (hw : 0 < w ∧ w ≤ maxDigits) (ha : Operand w a.val b.val x)
    (hc : Operand w c.val d.val y) (hb : 0 ≤ b.val) (hd : 0 ≤ d.val) {lb s t : APInt}
    (hs : 0 ≤ s.val ∧ s.val ≤ b.val) (ht : 0 ≤ t.val ∧ t.val ≤ d.val) (hs' : 0 ≤ x → s.val ≤ x)
    (ht' : 0 ≤ y → t.val ≤ y) (hmin : -half maxDigits ≤ lb.val) (hlb : lb.val ≤ Int.lor x y)
    (hfin : -half w ≤ a.val → -half w ≤ c.val → -half w ≤ lb.val) :
    Encloses w lb.val (maxOR w s b t d).val (Int.lor x y) := by
  obtain ⟨hsa, hsb⟩ := ha.smalls hw.2
  obtain ⟨hsc, hsd⟩ := hc.smalls hw.2
  have hP := half_pos w
  obtain ⟨hlt, h0, hinf⟩ := maxOr_of_infinite (w := w) ⟨hb, hsb.2⟩ ⟨hd, hsd.2⟩ hs ht
  rw [maxOR_val hw ⟨by omega, by have := hsb.2; omega⟩ hsb ⟨by omega, by have := hsd.2; omega⟩ hsd
    (Or.inr (by omega))]
  refine ⟨hmin, hlb, lor_le_maxOr hw.1 ha hc hb hd hs' ht', hlt, fun hw' hlo hhi hgap => ?_⟩
  have hcap := two_mul_half_le hw.1 hw'
  rcases ha.shape with h | h
  · have := hinf (Or.inl h.2)
    omega
  · rcases hc.shape with h' | h'
    · have := hinf (Or.inr h'.2)
      omega
    · have := hfin h.1 h'.1
      omega

/-- The sign patterns of ordered bounds: the nine arms of the tables. -/
theorem signs_cases (hab : a.val ≤ b.val) (hcd : c.val ≤ d.val) :
    ((signs a b c d = 0 ∨ signs a b c d = 3 ∨ signs a b c d = 12 ∨ signs a b c d = 15) ∧
      (a.val < 0 ↔ b.val < 0) ∧ (c.val < 0 ↔ d.val < 0)) ∨
    (signs a b c d = 1 ∧ b.val < 0 ∧ c.val < 0 ∧ 0 ≤ d.val) ∨
    (signs a b c d = 4 ∧ a.val < 0 ∧ 0 ≤ b.val ∧ d.val < 0) ∨
    (signs a b c d = 5 ∧ a.val < 0 ∧ 0 ≤ b.val ∧ c.val < 0 ∧ 0 ≤ d.val) ∨
    (signs a b c d = 7 ∧ a.val < 0 ∧ 0 ≤ b.val ∧ 0 ≤ c.val) ∨
    (signs a b c d = 13 ∧ 0 ≤ a.val ∧ c.val < 0 ∧ 0 ≤ d.val) := by
  have hsigns : ∀ p q r s : Bool, decide (a ≥ 0) = p → decide (b ≥ 0) = q → decide (c ≥ 0) = r →
      decide (d ≥ 0) = s → signs a b c d =
        p.toNat <<< 3 ||| q.toNat <<< 2 ||| r.toNat <<< 1 ||| s.toNat :=
    fun _ _ _ _ => signs_of
  rcases Int.lt_or_le b.val 0 with hb | hb
  · have hs := hsigns false false
    rcases Int.lt_or_le d.val 0 with hd | hd
    · exact Or.inl ⟨Or.inl (hs false false (decide_neg (by omega)) (decide_neg hb)
        (decide_neg (by omega)) (decide_neg hd)), by omega, by omega⟩
    rcases Int.lt_or_le c.val 0 with hc | hc
    · exact Or.inr (Or.inl ⟨hs false true (decide_neg (by omega)) (decide_neg hb)
        (decide_neg hc) (decide_nonneg hd), hb, hc, hd⟩)
    · exact Or.inl ⟨Or.inr (Or.inl (hs true true (decide_neg (by omega)) (decide_neg hb)
        (decide_nonneg hc) (decide_nonneg hd))), by omega, by omega⟩
  rcases Int.lt_or_le a.val 0 with ha | ha
  · have hs := hsigns false true
    rcases Int.lt_or_le d.val 0 with hd | hd
    · exact Or.inr (Or.inr (Or.inl ⟨hs false false (decide_neg ha) (decide_nonneg hb)
        (decide_neg (by omega)) (decide_neg hd), ha, hb, hd⟩))
    rcases Int.lt_or_le c.val 0 with hc | hc
    · exact Or.inr (Or.inr (Or.inr (Or.inl ⟨hs false true (decide_neg ha) (decide_nonneg hb)
        (decide_neg hc) (decide_nonneg hd), ha, hb, hc, hd⟩)))
    · exact Or.inr (Or.inr (Or.inr (Or.inr (Or.inl ⟨hs true true (decide_neg ha)
        (decide_nonneg hb) (decide_nonneg hc) (decide_nonneg hd), ha, hb, hc⟩))))
  · have hs := hsigns true true
    rcases Int.lt_or_le d.val 0 with hd | hd
    · exact Or.inl ⟨Or.inr (Or.inr (Or.inl (hs false false (decide_nonneg ha) (decide_nonneg hb)
        (decide_neg (by omega)) (decide_neg hd)))), by omega, by omega⟩
    rcases Int.lt_or_le c.val 0 with hc | hc
    · exact Or.inr (Or.inr (Or.inr (Or.inr (Or.inr ⟨hs false true (decide_nonneg ha)
        (decide_nonneg hb) (decide_neg hc) (decide_nonneg hd), ha, hc, hd⟩))))
    · exact Or.inl ⟨Or.inr (Or.inr (Or.inr (hs true true (decide_nonneg ha) (decide_nonneg hb)
        (decide_nonneg hc) (decide_nonneg hd)))), by omega, by omega⟩

/-- No sign pattern of ordered bounds is left out of the table of `OR`, and its
    bounds enclose the disjunction. -/
theorem OR_encloses (hw : 0 < w ∧ w ≤ maxDigits) (ha : Operand w a.val b.val x)
    (hc : Operand w c.val d.val y) :
    ∃ res, OR w a b c d = .ok res ∧ Encloses w res.1.val res.2.val (Int.lor x y) := by
  have hax := ha.lower_le
  have hxb := ha.le_upper
  have hcy := hc.lower_le
  have hyd := hc.le_upper
  have hP := half_pos w
  obtain ⟨hsa, hsb⟩ := ha.smalls hw.2
  obtain ⟨hsc, hsd⟩ := hc.smalls hw.2
  have hz : (0 : APInt).val = 0 := SignMag.val_zero
  have ha1 := hsa.1
  have hc1 := hsc.1
  unfold OR
  rcases signs_cases (hax.trans hxb) (hcy.trans hyd) with
    ⟨hs, hab, hcd⟩ | ⟨hs, hb0, hc0, hd0⟩ | ⟨hs, ha0, hb0, hd0⟩ | ⟨hs, ha0, hb0, hc0, hd0⟩ |
    ⟨hs, ha0, hb0, hc0⟩ | ⟨hs, ha0, hc0, hd0⟩
  · have henc := OR_finite hw ha hc hab hcd
    rcases hs with hs | hs | hs | hs <;> rw [hs] <;> exact ⟨_, rfl, henc⟩
  · -- all of `x` negative
    rw [hs]
    refine ⟨_, rfl, ?_⟩
    obtain ⟨h1, h2⟩ := le_lor_of_neg y (show x < 0 by omega)
    have hfin := ha.finite (by omega)
    show Encloses w a.val (-1 : APInt).val _
    rw [neg_one_val]
    exact encloses_of_limits hw.2 hfin.1 (by omega) (by omega) (by omega)
  · rw [hs]
    refine ⟨_, rfl, ?_⟩
    obtain ⟨h1, h2⟩ := le_lor_of_neg x (show y < 0 by omega)
    have hfin := hc.finite (by omega)
    rw [lor_comm] at h1 h2
    show Encloses w c.val (-1 : APInt).val _
    rw [neg_one_val]
    exact encloses_of_limits hw.2 hfin.1 (by omega) (by omega) (by omega)
  · -- both across zero
    rw [hs]
    refine ⟨_, rfl, OR_across hw ha hc hb0 hd0 (by omega) (by omega) (by omega) (by omega) ?_ ?_ ?_⟩
    · rw [SignMag.val_min]
      omega
    · rw [SignMag.val_min]
      by_cases hx0 : x < 0
      · have := (le_lor_of_neg y hx0).1
        omega
      by_cases hy0 : y < 0
      · have := (le_lor_of_neg x hy0).1
        rw [lor_comm] at this
        omega
      · have := le_lor_of_nonneg (not_lt.mp hx0) (not_lt.mp hy0)
        omega
    · rw [SignMag.val_min]
      omega
  · -- only the first across zero
    rw [hs]
    have hval := minOR_val hw hsa small_neg_one hsc hsd
    rw [neg_one_val] at hval
    have hle := le_minOr (w := w) ha0 (hcy.trans hyd)
    refine ⟨_, rfl, OR_across hw ha hc hb0 (by omega) (by omega) (by omega) (by omega) (by omega)
      ?_ ?_ ?_⟩
    · rw [hval]
      omega
    · rw [hval]
      exact minOr_le_of_across hw.1 ha hc ha0 hc0
    · rw [hval]
      omega
  · rw [hs]
    have hval := minOR_val hw hsa hsb hsc small_neg_one
    rw [neg_one_val, minOr_comm] at hval
    have hle := le_minOr (w := w) hc0 (hax.trans hxb)
    refine ⟨_, rfl, OR_across hw ha hc (by omega) hd0 (by omega) (by omega) (by omega) (by omega)
      ?_ ?_ ?_⟩
    · rw [hval]
      omega
    · rw [hval, lor_comm]
      exact minOr_le_of_across hw.1 hc ha hc0 ha0
    · rw [hval]
      omega

theorem AND_finite (hw : 0 < w ∧ w ≤ maxDigits) (ha : Operand w a.val b.val x)
    (hc : Operand w c.val d.val y) (hab : a.val < 0 ↔ b.val < 0) (hcd : c.val < 0 ↔ d.val < 0) :
    Encloses w (minAND w a b c d).val (maxAND w a b c d).val (Int.land x y) := by
  obtain ⟨hsa, hsb⟩ := ha.smalls hw.2
  obtain ⟨hsc, hsd⟩ := hc.smalls hw.2
  obtain ⟨⟨hmin, hmin'⟩, hmax, hmax'⟩ := and_finite hw.1 ha hc hab hcd
  have hax := ha.lower_le
  have hxb := ha.le_upper
  have hcy := hc.lower_le
  have hyd := hc.le_upper
  have hb1 := hsb.1
  have hd1 := hsd.1
  rw [minAND_val hw hsa hsb hsc hsd]
  by_cases hne : w < maxDigits ∨ ((b.val < 0 → 0 ≤ d.val → -half maxDigits < b.val) ∧
      (d.val < 0 → 0 ≤ b.val → -half maxDigits < d.val))
  · rw [maxAND_val hw hsa hsb hsc hsd hne]
    exact encloses_of_limits hw.2 hmin.1 hmin' hmax' hmax.2
  -- `Min` and a nonnegative bound, at the capacity
  have hwm : w = maxDigits := by omega
  by_cases hb : b.val < 0
  · have hval : (maxAND w a b c d).val = d.val := by
      subst hwm
      exact maxAND_min hsd (hax.trans hxb) (by omega) (by omega)
    have hv := land_le_of_nonneg x (show 0 ≤ y by omega)
    rw [land_comm] at hv
    rw [hval]
    exact encloses_of_limits hw.2 hmin.1 hmin' (by omega) (hc.finite hcd).2
  · have hval : (maxAND w a b c d).val = b.val := by
      subst hwm
      exact maxAND_min' hsb (hcy.trans hyd) (by omega) (by omega)
    have hv := land_le_of_nonneg y (show 0 ≤ x by omega)
    rw [hval]
    exact encloses_of_limits hw.2 hmin.1 hmin' (by omega) (ha.finite hab).2

/-- A negative operand and one across zero: `l` and `u` are the least and the
    greatest conjunction. -/
theorem AND_across (hw : 0 < w ∧ w ≤ maxDigits) (ha : Operand w a.val b.val x)
    (hc : Operand w c.val d.val y) (hb0 : b.val < 0) (hd0 : 0 ≤ d.val) {l u : Int}
    (hmin : -half maxDigits ≤ l) (hlv : l ≤ Int.land x y)
    (hfin : -half w ≤ a.val → -half w ≤ c.val → -half w ≤ l)
    (hu : u = maxAnd a.val 0 w b.val d.val ∨ (w = maxDigits ∧ u = d.val)) :
    Encloses w l u (Int.land x y) := by
  have hax := ha.lower_le
  have hxb := ha.le_upper
  have hyd := hc.le_upper
  obtain ⟨hy1, hy2⟩ := hc.mem
  have hP := half_pos w
  have h2 := two_mul_half hw.1
  have hdC := (hc.small hw.2).2
  have hnonneg : 0 ≤ y → 0 ≤ Int.land x y ∧ Int.land x y ≤ y := fun h => by
    rw [land_comm]
    exact land_le_of_nonneg x h
  have hneg : y < 0 → Int.land x y < 0 := fun h => by
    have := land_le_of_neg (show x < 0 by omega) h
    omega
  rcases hu with rfl | ⟨rfl, rfl⟩
  · have hmax0 : 0 ≤ maxAnd a.val 0 w b.val d.val := maxAnd_nonneg hd0
    refine ⟨hmin, hlv, ?_, maxAnd_small (hax.trans hxb) hd0 hdC, fun hw' hlo hhi hgap => ?_⟩
    · rcases Int.lt_or_le y 0 with hy0 | hy0
      · have := hneg hy0
        omega
      · exact land_le_maxAnd hw.1 ha (by omega) hb0 hd0 hy0 (by omega) hy0 hyd
    · rcases Int.lt_or_le y 0 with hy0 | hy0
      · -- the second operand is infinite: it has the value a turn above `y`
        have hcap := two_mul_half_le hw.1 hw'
        have hinf : d.val = half maxDigits - 1 := by
          rcases hc.shape with h | h
          · exact h.2
          · have := hfin (ha.finite (by omega)).1 h.1
            omega
        have hturn := land_le_maxAnd hw.1 ha (by omega) hb0 hd0 (show 0 ≤ y + 2 ^ w by omega)
          (by omega) (show 0 ≤ y + 2 ^ w by omega) (by omega)
        rw [land_add_turn hw.1 ha.mem hc.mem (by omega) hy0] at hturn
        exact Or.inl (by omega)
      · exact Or.inr (hnonneg hy0).1
  · refine ⟨hmin, hlv, ?_, hdC, fun hw' => absurd hw' (lt_irrefl _)⟩
    rcases Int.lt_or_le y 0 with hy0 | hy0
    · have := hneg hy0
      omega
    · have := hnonneg hy0
      omega

/-- No sign pattern of ordered bounds is left out of the table of `AND`, and its
    bounds enclose the conjunction. -/
theorem AND_encloses (hw : 0 < w ∧ w ≤ maxDigits) (ha : Operand w a.val b.val x)
    (hc : Operand w c.val d.val y) :
    ∃ res, AND w a b c d = .ok res ∧ Encloses w res.1.val res.2.val (Int.land x y) := by
  have hax := ha.lower_le
  have hxb := ha.le_upper
  have hcy := hc.lower_le
  have hyd := hc.le_upper
  obtain ⟨hsa, hsb⟩ := ha.smalls hw.2
  obtain ⟨hsc, hsd⟩ := hc.smalls hw.2
  have hz : (0 : APInt).val = 0 := SignMag.val_zero
  have hb1 := hsb.1
  have hd1 := hsd.1
  unfold AND
  rcases signs_cases (hax.trans hxb) (hcy.trans hyd) with
    ⟨hs, hab, hcd⟩ | ⟨hs, hb0, hc0, hd0⟩ | ⟨hs, ha0, hb0, hd0⟩ | ⟨hs, ha0, hb0, hc0, hd0⟩ |
    ⟨hs, ha0, hb0, hc0⟩ | ⟨hs, ha0, hc0, hd0⟩
  · have henc := AND_finite hw ha hc hab hcd
    rcases hs with hs | hs | hs | hs <;> rw [hs] <;> exact ⟨_, rfl, henc⟩
  · rw [hs]
    have hval := minAND_val hw hsa hsb hsc small_neg_one
    rw [neg_one_val] at hval
    have hsmall := minAnd_small ha hc hw.2 b.val (-1) (by omega) (by omega)
    refine ⟨_, rfl, AND_across hw ha hc hb0 hd0 ?_ ?_ ?_ ?_⟩
    · exact hval ▸ hsmall.1
    · rw [hval]
      exact minAnd_le_land hw.1 ha hc (by omega) hc0 (by omega) (by omega)
    · exact hval ▸ hsmall.2
    · by_cases hne : w < maxDigits ∨ -half maxDigits < b.val
      · left
        rw [maxAND_val hw hsa hsb small_zero hsd (hne.imp_right (by omega)), hz]
      · right
        obtain rfl : w = maxDigits := by omega
        have htop : (maxAND maxDigits a b 0 d).val = d.val :=
          maxAND_min hsd (hax.trans hxb) hd0 (by omega)
        exact ⟨rfl, htop⟩
  · rw [hs]
    have hval := minAND_val hw hsa small_neg_one hsc hsd
    rw [neg_one_val] at hval
    have hsmall := minAnd_small ha hc hw.2 (-1) d.val (by omega) (by omega)
    rw [land_comm]
    refine ⟨_, rfl, AND_across hw hc ha hd0 hb0 ?_ ?_ ?_ ?_⟩
    · exact hval ▸ hsmall.1
    · rw [hval, land_comm]
      exact minAnd_le_land hw.1 ha hc ha0 (by omega) (by omega) (by omega)
    · exact fun hfc hfa => hval ▸ hsmall.2 hfa hfc
    · by_cases hne : w < maxDigits ∨ -half maxDigits < d.val
      · left
        rw [maxAND_val hw small_zero hsb hsc hsd (hne.imp_right (by omega)), hz, maxAnd_comm]
      · right
        obtain rfl : w = maxDigits := by omega
        have htop : (maxAND maxDigits 0 b c d).val = b.val :=
          maxAND_min' hsb (hcy.trans hyd) hb0 (by omega)
        exact ⟨rfl, htop⟩
  · -- both across zero
    rw [hs]
    have hval := minAND_val hw hsa small_neg_one hsc small_neg_one
    rw [neg_one_val] at hval
    have hsmall := minAnd_small ha hc hw.2 (-1) (-1) (by omega) (by omega)
    refine ⟨_, rfl, hval ▸ hsmall.1, ?_, ?_, ?_, fun hw' hlo hhi hgap => ?_⟩
    · rw [hval]
      exact minAnd_le_land hw.1 ha hc ha0 hc0 (by omega) (by omega)
    · rw [SignMag.val_max]
      by_cases hx0 : x < 0
      · by_cases hy0 : y < 0
        · have := land_le_of_neg hx0 hy0
          omega
        · have := land_le_of_nonneg x (not_lt.mp hy0)
          rw [land_comm] at this
          omega
      · have := land_le_of_nonneg y (not_lt.mp hx0)
        omega
    · rw [SignMag.val_max]
      have := hsb.2
      have := hsd.2
      omega
    · have hcap := two_mul_half_le hw.1 hw'
      have hP := half_pos w
      rw [SignMag.val_max] at hhi hgap
      rcases ha.shape with h | h
      · omega
      · rcases hc.shape with h' | h'
        · omega
        · have := hval ▸ hsmall.2 h.1 h'.1
          omega
  · rw [hs]
    refine ⟨_, rfl, ?_⟩
    have hv := land_le_of_nonneg x (show 0 ≤ y by omega)
    have hfin := hc.finite (by omega)
    have hP := half_pos w
    rw [land_comm] at hv
    show Encloses w (0 : APInt).val d.val _
    exact encloses_of_limits hw.2 (by omega) (by omega) (by omega) hfin.2
  · rw [hs]
    refine ⟨_, rfl, ?_⟩
    have hv := land_le_of_nonneg y (show 0 ≤ x by omega)
    have hfin := ha.finite (by omega)
    have hP := half_pos w
    show Encloses w (0 : APInt).val b.val _
    exact encloses_of_limits hw.2 (by omega) (by omega) (by omega) hfin.2

end Tables

/-! ## The operations are sound -/

section Sound

variable {a b r : Range} {x y : Int}

/-- The bounds the tables read for a well-formed range. -/
theorem WellFormed.exists_bounds (h : r.WellFormed) (hp : r.Proper) :
    ∃ l u, r.bitwiseLower = .ok l ∧ r.bitwiseUpper = .ok u ∧
      (∃ x, Operand r.bw l.val u.val x) ∧ ∀ x ∈ r.gamma, Operand r.bw l.val u.val x := by
  have hP := half_pos r.bw
  have hcap := half_le_half r.bw_valid.2
  have hmin := min_val
  have hmax := max_val
  have hzero : (0 : Int) ∈ signedRange r.bw := ⟨by omega, hP⟩
  unfold bitwiseLower bitwiseUpper
  rcases hp with ht | ht
  · have hanti : r.isAnti = false := by simp [isAnti, ht]
    rw [hanti, getLower_eq (by rw [ht]; decide), getUpper_eq (by rw [ht]; decide)]
    refine ⟨r.l, r.u, rfl, rfl, ?_, fun x hx => ?_⟩
    · rcases h.regular_bounds ht with h' | ⟨h1, h2, h3⟩
      · exact ⟨0, Or.inl h', by omega, by omega, hzero⟩
      · exact ⟨r.l.val, Or.inr ⟨h1, h3⟩, le_refl _, h2, h1, by omega⟩
    · obtain ⟨hmem, hlx, hxu⟩ := (mem_gamma_of_regular ht).mp hx
      refine ⟨?_, hlx, hxu, hmem⟩
      exact (h.regular_bounds ht).imp_right fun h' => ⟨h'.1, h'.2.2⟩
  · have hanti : r.isAnti = true := by simp [isAnti, ht]
    rw [hanti]
    refine ⟨Min, Max, rfl, rfl, ⟨0, Or.inl ⟨hmin, hmax⟩, by omega, by omega, hzero⟩, fun x hx => ?_⟩
    obtain ⟨hx1, hx2⟩ := hx.1
    exact ⟨Or.inl ⟨hmin, hmax⟩, by omega, by omega, hx1, hx2⟩

theorem WellFormed.isConstantOf_ok (h : r.WellFormed) (v : APInt) :
    ∃ t, r.isConstantOf v = .ok t ∧ (t = true → ∀ x ∈ r.gamma, x = v.val) := by
  unfold isConstantOf
  by_cases hc : r.isConstant = true
  · obtain ⟨ht, hlu⟩ := isConstant_iff.mp hc
    have hlim : r.InLimits := (h.1 ht).resolve_left fun ⟨hl, hu⟩ => by
      have := two_le_half_maxDigits
      have := eq_min_iff.mp hl
      have := eq_max_iff.mp hu
      have := congrArg SignMag.val hlu
      omega
    rw [if_pos hc, getSignedMax_of_limits ht hlim]
    refine ⟨_, rfl, fun hv x hx => ?_⟩
    obtain ⟨-, h1, h2⟩ := (mem_gamma_of_regular ht).mp hx
    rw [← of_decide_eq_true hv]
    rw [hlu] at h1
    omega
  · rw [if_neg hc]
    exact ⟨false, rfl, fun h => absurd h (by decide)⟩

/-- The bounds of a table become a range of every enclosed value. -/
theorem holds_table {z : Except Error (APInt × APInt)} {w : Nat} {v : Int}
    (hw : 0 < w ∧ w ≤ maxDigits) (hv : v ∈ signedRange w)
    (h : ∃ res, z = .ok res ∧ Encloses w res.1.val res.2.val v) :
    Holds (z >>= fun res => ofBounds .regular w res.1 res.2) w v := by
  obtain ⟨res, rfl, henc⟩ := h
  exact holds_of_encloses hw hv henc

/-- An operation that returns the other operand on a neutral constant, and
    otherwise the bounds of its table. -/
theorem holds_of_table {f : Int → Int → Int} {e : APInt} {z : Except Error Range}
    {T : APInt → APInt → APInt → APInt → Except Error (APInt × APInt)} (hbw : b.bw = a.bw)
    (ha : a.Proper) (hb : b.Proper) (hwa : a.WellFormed) (hwb : b.WellFormed)
    (hz : ∀ {t t' l u l' u'}, a.isConstantOf e = .ok t → b.isConstantOf e = .ok t' →
      a.bitwiseLower = .ok l → a.bitwiseUpper = .ok u → b.bitwiseLower = .ok l' →
      b.bitwiseUpper = .ok u' → z = if t then .ok b else if t' then .ok a else
        T l u l' u' >>= fun res => ofBounds .regular a.bw res.1 res.2)
    (hleft : ∀ y, f e.val y = y) (hright : ∀ x, f x e.val = x)
    (hmem : ∀ {x y}, x ∈ signedRange a.bw → y ∈ signedRange a.bw → f x y ∈ signedRange a.bw)
    (hT : ∀ {l u l' u' : APInt} {x y}, Operand a.bw l.val u.val x →
      Operand a.bw l'.val u'.val y →
      ∃ res, T l u l' u' = .ok res ∧ Encloses a.bw res.1.val res.2.val (f x y)) :
    (∃ r, z = .ok r) ∧ ∀ x ∈ a.gamma, ∀ y ∈ b.gamma, Holds z a.bw (f x y) := by
  obtain ⟨l, u, hl, hu, ⟨x0, hx0⟩, hx⟩ := hwa.exists_bounds ha
  obtain ⟨l', u', hl', hu', ⟨y0, hy0⟩, hy⟩ := hwb.exists_bounds hb
  obtain ⟨t, ht, hconst⟩ := hwa.isConstantOf_ok e
  obtain ⟨t', ht', hconst'⟩ := hwb.isConstantOf_ok e
  rw [hbw] at hy0 hy
  have htable : ∀ x y, Operand a.bw l.val u.val x → Operand a.bw l'.val u'.val y →
      Holds (T l u l' u' >>= fun res => ofBounds .regular a.bw res.1 res.2) a.bw (f x y) :=
    fun x y hx hy => holds_table a.bw_valid (hmem hx.mem hy.mem) (hT hx hy)
  rw [hz ht ht' hl hu hl' hu']
  cases t with
  | true =>
    refine ⟨⟨b, rfl⟩, fun x hx y hy => ?_⟩
    rw [if_pos rfl, hconst rfl x hx, hleft, holds_ok]
    exact ⟨hbw, hy⟩
  | false =>
    cases t' with
    | true =>
      refine ⟨⟨a, rfl⟩, fun x hx y hy => ?_⟩
      rw [if_neg (by decide), if_pos rfl, hconst' rfl y hy, hright, holds_ok]
      exact ⟨rfl, hx⟩
    | false =>
      rw [if_neg (by decide), if_neg (by decide)]
      obtain ⟨r, hr, -⟩ := htable x0 y0 hx0 hy0
      exact ⟨⟨r, hr⟩, fun x hxa y hyb => htable x y (hx x hxa) (hy y hyb)⟩

theorem Or_holds (hbw : b.bw = a.bw) (ha : a.Proper) (hb : b.Proper) (hwa : a.WellFormed)
    (hwb : b.WellFormed) :
    (∃ r, a.Or b = .ok r) ∧
      ∀ x ∈ a.gamma, ∀ y ∈ b.gamma, Holds (a.Or b) a.bw (Int.lor x y) := by
  have hz : (0 : APInt).val = 0 := SignMag.val_zero
  refine holds_of_table (e := 0) hbw ha hb hwa hwb (fun ht ht' hl hu hl' hu' => ?_)
    (fun y => ?_) (fun x => ?_) lor_mem (OR_encloses a.bw_valid)
  · unfold Or
    rw [onProper_of ha hb, ht, ht', hl, hu, hl', hu']
    rfl
  · rw [hz, zero_lor]
  · rw [hz, lor_comm, zero_lor]

theorem And_holds (hbw : b.bw = a.bw) (ha : a.Proper) (hb : b.Proper) (hwa : a.WellFormed)
    (hwb : b.WellFormed) :
    (∃ r, a.And b = .ok r) ∧
      ∀ x ∈ a.gamma, ∀ y ∈ b.gamma, Holds (a.And b) a.bw (Int.land x y) := by
  refine holds_of_table (e := -1) hbw ha hb hwa hwb (fun ht ht' hl hu hl' hu' => ?_)
    (fun y => ?_) (fun x => ?_) land_mem (AND_encloses a.bw_valid)
  · unfold And
    rw [onProper_of ha hb, ht, ht', hl, hu, hl', hu']
    rfl
  · rw [neg_one_val, land_comm, land_neg_one]
  · rw [neg_one_val, land_neg_one]

/-- A well-formed Regular range is one the constructors build. -/
theorem WellFormed.built (h : r.WellFormed) (ht : r.type = .regular) : Built r := by
  obtain ⟨l, u, bw, t, hv⟩ := r
  obtain rfl : t = .regular := ht
  rcases h.1 rfl with ⟨hl, hu⟩ | ⟨h1, h2, h3⟩
  · obtain rfl : l = Min := hl
    obtain rfl : u = Max := hu
    exact .ofType (t := .regular) (w := bw) (dif_pos hv)
  · obtain ⟨r, hr, hbw, hrt, hrl, hru⟩ := ofBounds_regular_inside hv h1 h2 h3
    refine .ofBounds (hr.trans (congrArg Except.ok ?_))
    obtain ⟨l', u', bw', t', hv'⟩ := r
    obtain rfl : bw' = bw := hbw
    obtain rfl : t' = .regular := hrt
    obtain rfl : l' = l := SignMag.ext hrl
    obtain rfl : u' = u := SignMag.ext hru
    rfl

/-- `-1 - y` is the complement of a nonnegative `y`, and `sub` keeps it. -/
theorem sub_holds_lnot (hbw : b.bw = a.bw) (hwa : a.WellFormed) (hwb : b.WellFormed)
    (hta : a.type = .regular) (htb : b.type = .regular) (hl : a.l.val = -1) (hu : a.u.val = -1)
    (hb0 : 0 ≤ b.l.val) (hx : x ∈ a.gamma) (hy : y ∈ b.gamma) :
    Holds (a.sub b) a.bw (Int.xor x y) := by
  have hP := half_pos a.bw
  have hC := two_le_half_maxDigits
  obtain ⟨-, hx1, hx2⟩ := (mem_gamma_of_regular hta).mp hx
  obtain ⟨⟨hy1, hy2⟩, hby, -⟩ := (mem_gamma_of_regular htb).mp hy
  rw [hbw] at hy1 hy2
  have hsound : SubSound a b := by
    rw [subSound_iff (hwa.built hta) (hwb.built htb) hbw (by rw [hta]; decide)
      (by rw [htb]; decide)]
    rintro ⟨⟨⟨-, hlb⟩, -⟩, ⟨h, -⟩ | ⟨-, -, -, -, h, -⟩ | ⟨-, -, hw, h⟩⟩
    · rw [hta] at h
      exact absurd h (by decide)
    · omega
    · have hbu := hlb.2.2
      have hbl := hlb.2.1
      rw [hbw, hw] at hbu
      unfold ShiftLoss at h
      rw [hl, hu] at h
      split_ifs at h <;> omega
  obtain rfl : x = -1 := by omega
  have hval : signedResidue a.bw (-1 - y) = Int.xor (-1) y := by
    rw [signedResidue_of_mem a.bw_valid.1 (by omega) (by omega), neg_one_xor, lnot_eq]
    ring
  exact hval ▸ hsound _ hx _ hy

theorem Xor_holds (hbw : b.bw = a.bw) (ha : a.Proper) (hb : b.Proper) (hwa : a.WellFormed)
    (hwb : b.WellFormed) :
    ∀ x ∈ a.gamma, ∀ y ∈ b.gamma, Holds (a.Xor b) a.bw (Int.xor x y) := by
  intro x hx y hy
  obtain ⟨l, u, hl, hu, -, hop⟩ := hwa.exists_bounds ha
  obtain ⟨l', u', hl', hu', -, hop'⟩ := hwb.exists_bounds hb
  have hxo := hop x hx
  have hyo := hop' y hy
  rw [hbw] at hyo
  obtain ⟨hsl, hsu⟩ := hxo.smalls a.bw_valid.2
  obtain ⟨hsl', hsu'⟩ := hyo.smalls a.bw_valid.2
  have hmem := xor_mem hxo.mem hyo.mem
  have hC := half_pos maxDigits
  -- a nonnegative or constant bound is not the one of an Anti range
  have hreg : ∀ {r : Range} {p : APInt}, r.Proper → r.bitwiseLower = .ok p → -1 ≤ p.val →
      r.type = .regular ∧ p = r.l := by
    intro r p hp hr hge
    unfold bitwiseLower at hr
    rcases hp with ht | ht
    · rw [if_neg (by simp [isAnti, ht]), getLower_eq (by rw [ht]; decide)] at hr
      injection hr with hr
      exact ⟨ht, hr.symm⟩
    · rw [if_pos (by simp [isAnti, ht])] at hr
      injection hr with hr
      have hmin := min_val
      have h2 := two_le_half_maxDigits
      rw [← hr] at hge
      omega
  have hupper : ∀ {r : Range} {p : APInt}, r.type = .regular → r.bitwiseUpper = .ok p →
      p = r.u := by
    intro r p ht hr
    unfold bitwiseUpper at hr
    rw [if_neg (by simp [isAnti, ht]), getUpper_eq (by rw [ht]; decide)] at hr
    injection hr with hr
    exact hr.symm
  have heq : a.Xor b = if l ≥ 0 ∧ u ≥ 0 ∧ l' ≥ 0 ∧ u' ≥ 0 then
        ofBounds .regular a.bw (uXOR a.bw l u l' u').1 (uXOR a.bw l u l' u').2
      else if l = -1 ∧ u = -1 ∧ l' ≥ 0 ∧ u' ≥ 0 then a.sub b
      else if l' = -1 ∧ u' = -1 ∧ l ≥ 0 ∧ u ≥ 0 then b.sub a
      else ofType .regular a.bw := by
    unfold Xor
    rw [onProper_of ha hb, hl, hu, hl', hu']
    rfl
  rw [heq]
  simp only [nonneg_iff, SignMag.eq_iff, neg_one_val]
  by_cases h1 : 0 ≤ l.val ∧ 0 ≤ u.val ∧ 0 ≤ l'.val ∧ 0 ≤ u'.val
  · rw [if_pos h1]
    obtain ⟨⟨hmin, hmin'⟩, hmax, hmax'⟩ :=
      xor_finite a.bw_valid.1 hxo hyo (by omega) (by omega)
    refine holds_of_encloses a.bw_valid hmem ?_
    show Encloses _ (minXOR a.bw l u l' u').val (maxXOR a.bw l u l' u').val _
    rw [minXOR_val a.bw_valid hsl hsu hsl' hsu',
      maxXOR_val a.bw_valid hsl hsu hsl' hsu' (Or.inr (by omega))]
    exact encloses_of_limits a.bw_valid.2 hmin.1 hmin' hmax' hmax.2
  rw [if_neg h1]
  by_cases h2 : l.val = -1 ∧ u.val = -1 ∧ 0 ≤ l'.val ∧ 0 ≤ u'.val
  · rw [if_pos h2]
    obtain ⟨hta, hla⟩ := hreg ha hl (by omega)
    obtain ⟨htb, hlb⟩ := hreg hb hl' (by omega)
    exact sub_holds_lnot hbw hwa hwb hta htb (hla ▸ h2.1) (hupper hta hu ▸ h2.2.1)
      (hlb ▸ h2.2.2.1) hx hy
  rw [if_neg h2]
  by_cases h3 : l'.val = -1 ∧ u'.val = -1 ∧ 0 ≤ l.val ∧ 0 ≤ u.val
  · rw [if_pos h3, Math.xor_comm, ← hbw]
    obtain ⟨hta, hla⟩ := hreg ha hl (by omega)
    obtain ⟨htb, hlb⟩ := hreg hb hl' (by omega)
    exact sub_holds_lnot hbw.symm hwb hwa htb hta (hlb ▸ h3.1) (hupper htb hu' ▸ h3.2.1)
      (hla ▸ h3.2.2.1) hy hx
  · rw [if_neg h3]
    exact holds_full a.bw_valid hmem

theorem Not_holds (hp : r.Proper) (h : r.WellFormed) (hx : x ∈ r.gamma) :
    Holds r.Not r.bw (Int.lnot x) := by
  have hcap := half_le_half r.bw_valid.2
  have hmem : Int.lnot x ∈ signedRange r.bw := by
    obtain ⟨h1, h2⟩ := hx.1
    rw [lnot_eq]
    exact ⟨by omega, by omega⟩
  have heq : r.Not = ofBounds r.type r.bw (~~~r.u) (~~~r.l) := by
    unfold Not
    rw [if_neg]
    rcases hp with ht | ht <;> simp [isEmpty, isUnknown, ht]
  have hshape : (r.type = .regular ∧ r.l.val = -half maxDigits ∧ r.u.val = half maxDigits - 1) ∨
      r.InLimits := by
    rcases hp with ht | ht
    · exact (h.regular_bounds ht).imp_left fun h' => ⟨ht, h'⟩
    · exact Or.inr (h.2 ht)
  have hC := half_pos maxDigits
  have hsl : Small r.l := by
    rcases hshape with h' | h' <;> constructor <;> obtain ⟨h1, h2, h3⟩ := h' <;> omega
  have hsu : Small r.u := by
    rcases hshape with h' | h' <;> constructor <;> obtain ⟨h1, h2, h3⟩ := h' <;> omega
  have hl := hsl.complement_val
  have hu := hsu.complement_val
  rw [lnot_eq] at hl hu
  rw [heq]
  rcases hp with ht | ht
  · obtain ⟨-, hlx, hxu⟩ := (mem_gamma_of_regular ht).mp hx
    rw [ht]
    refine holds_of_encloses r.bw_valid hmem ?_
    have hlnot := lnot_eq x
    rcases h.regular_bounds ht with h' | h'
    · refine ⟨by omega, by omega, by omega, by omega, fun hw' _ _ hgap => ?_⟩
      have := two_mul_half_le r.bw_valid.1 hw'
      omega
    · exact encloses_of_limits r.bw_valid.2 (by omega) (by omega) (by omega) (by omega)
  · obtain ⟨-, hout⟩ := (mem_gamma_of_anti ht).mp hx
    obtain ⟨h1, h2, h3⟩ := h.2 ht
    rw [ht]
    obtain ⟨s, hs, hbw, hg⟩ : Denotes (ofBounds .anti r.bw (~~~r.u) (~~~r.l)) r.bw _ :=
      denotes_anti r.bw_valid (by omega) (by omega) (by omega)
    refine ⟨s, hs, hbw, hg ▸ ⟨hmem, ?_⟩⟩
    have hlnot := lnot_eq x
    omega

end Sound

/-- The bitwise operation on the two's complement words of two values. -/
def andBits (w : Nat) (x y : Int) : Int := (BitVec.ofInt w x &&& BitVec.ofInt w y).toInt
def orBits (w : Nat) (x y : Int) : Int := (BitVec.ofInt w x ||| BitVec.ofInt w y).toInt
def xorBits (w : Nat) (x y : Int) : Int := (BitVec.ofInt w x ^^^ BitVec.ofInt w y).toInt
def notBits (w : Nat) (x : Int) : Int := (~~~ BitVec.ofInt w x).toInt

theorem toInt_ofInt_mem {w : Nat} {v : Int} (h0 : 0 < w) (hv : v ∈ signedRange w) :
    (BitVec.ofInt w v).toInt = v := BitVec.toInt_ofInt_eq_self h0 hv.1 hv.2

/-- The bitwise operations keep every value, and no arm of their sign tables is
    missing. -/
theorem bitwise_sound (a b : Range) (hwa : a.WellFormed) (hwb : b.WellFormed) (hbw : b.bw = a.bw)
    (hua : a.type ≠ .unknown) (hub : b.type ≠ .unknown) :
    (∀ x ∈ a.gamma, ∀ y ∈ b.gamma,
      Holds (a.And b) a.bw (andBits a.bw x y) ∧ Holds (a.Or b) a.bw (orBits a.bw x y) ∧
        Holds (a.Xor b) a.bw (xorBits a.bw x y)) ∧
    (∀ x ∈ a.gamma, Holds a.Not a.bw (notBits a.bw x)) ∧
    (∃ r, a.And b = .ok r) ∧ ∃ r, a.Or b = .ok r := by
  have h0 := a.bw_valid.1
  refine ⟨fun x hx y hy => ?_, fun x hx => ?_, ?_⟩
  · have ha := proper_of_mem hua hx
    have hb := proper_of_mem hub hy
    have hx' : x ∈ signedRange a.bw := hx.1
    have hy' : y ∈ signedRange a.bw := hbw ▸ hy.1
    refine ⟨?_, ?_, ?_⟩
    · rw [andBits, ofInt_land, toInt_ofInt_mem h0 (land_mem hx' hy')]
      exact (And_holds hbw ha hb hwa hwb).2 x hx y hy
    · rw [orBits, ofInt_lor, toInt_ofInt_mem h0 (lor_mem hx' hy')]
      exact (Or_holds hbw ha hb hwa hwb).2 x hx y hy
    · rw [xorBits, ofInt_xor, toInt_ofInt_mem h0 (xor_mem hx' hy')]
      exact Xor_holds hbw ha hb hwa hwb x hx y hy
  · have hmem : Int.lnot x ∈ signedRange a.bw := by
      obtain ⟨h1, h2⟩ := hx.1
      rw [lnot_eq]
      exact ⟨by omega, by omega⟩
    rw [notBits, ofInt_lnot, toInt_ofInt_mem h0 hmem]
    exact Not_holds (proper_of_mem hua hx) hwa hx
  · by_cases hp : a.Proper ∧ b.Proper
    · exact ⟨(And_holds hbw hp.1 hp.2 hwa hwb).1, (Or_holds hbw hp.1 hp.2 hwa hwb).1⟩
    · -- an Empty operand gives an Empty range
      have hempty : a.isEmpty || b.isEmpty := by
        by_contra h
        simp only [isEmpty, Bool.or_eq_true, decide_eq_true_eq, not_or] at h
        exact hp ⟨proper_of_ne h.1 hua, proper_of_ne h.2 hub⟩
      have hok : ∀ body, ∃ r, onProper a b a.bw body = .ok r := fun body => by
        unfold onProper
        rw [if_pos hempty, ofType, dif_pos a.bw_valid]
        exact ⟨_, rfl⟩
      exact ⟨hok _, hok _⟩

/-- An interval and an anti range of eight bits. -/
def bitwiseOperands : {p : Range × Range // p.1.WellFormed ∧ p.2.WellFormed} :=
  ⟨(⟨-3, 5, 8, .regular, bwValid_eight⟩, ⟨-2, 1, 8, .anti, bwValid_eight⟩), by decide +kernel⟩

theorem bitwise_sound_at_eight :
    (∀ x ∈ gamma ⟨-3, 5, 8, .regular, by decide⟩, ∀ y ∈ gamma ⟨-2, 1, 8, .anti, by decide⟩,
      Holds (And ⟨-3, 5, 8, .regular, by decide⟩ ⟨-2, 1, 8, .anti, by decide⟩) 8 (andBits 8 x y) ∧
        Holds (Or ⟨-3, 5, 8, .regular, by decide⟩ ⟨-2, 1, 8, .anti, by decide⟩) 8 (orBits 8 x y) ∧
        Holds (Xor ⟨-3, 5, 8, .regular, by decide⟩ ⟨-2, 1, 8, .anti, by decide⟩) 8
          (xorBits 8 x y)) ∧
    (∀ x ∈ gamma ⟨-3, 5, 8, .regular, by decide⟩,
      Holds (Not ⟨-3, 5, 8, .regular, by decide⟩) 8 (notBits 8 x)) ∧
    (∃ r, And ⟨-3, 5, 8, .regular, by decide⟩ ⟨-2, 1, 8, .anti, by decide⟩ = .ok r) ∧
    ∃ r, Or ⟨-3, 5, 8, .regular, by decide⟩ ⟨-2, 1, 8, .anti, by decide⟩ = .ok r :=
  bitwise_sound ⟨-3, 5, 8, .regular, by decide⟩ ⟨-2, 1, 8, .anti, by decide⟩
    bitwiseOperands.property.1 bitwiseOperands.property.2 (Eq.refl 8) (by decide) (by decide)

end Range
end Bambu
