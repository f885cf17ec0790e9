/-
  Bambu.Libbambu.Softint.AlignSubtract

  The align-and-subtract dividers: `divsi3as.c`, `divdi3as.c` and
  `divdi3as6432.c`.  The divisor is shifted until its top bit meets the
  dividend's; after a special first step the loop keeps the running remainder
  and the quotient digits in one word, the digits below.
-/

import Bambu.Libbambu.Softint.Common

namespace Bambu.Libbambu.Softint

variable {w : Nat}

/-- `tsubsh(a, b)`, and `tsubsh64(a, b)` at the wide type. -/
def tsubsh (a b : BitVec w) : BitVec w := if a ≥ b then ((a - b) <<< 1) + 1 else a <<< 1

/-- The loop: `i` iterations of `r = tsubsh(r, y)`. -/
def tsubshLoop (y : BitVec w) : Nat → BitVec w → BitVec w
  | 0, r => r
  | i + 1, r => tsubshLoop y i (tsubsh r y)

/-- The remainder after the special first iteration, for an aligned divisor. -/
def firstRemainder (x y : BitVec w) : BitVec w := if x ≥ y then x - y else x

/-- The quotient after the special first iteration. -/
def firstQuotient (x y : BitVec w) (k : Nat) : BitVec w := if x ≥ y then (1 : BitVec w) <<< k else 0

/-- The body under `if(y <= r)`, for the distance `k`. -/
def alignSubtract (x y : BitVec w) (k : Nat) : BitVec w × BitVec w :=
  let y := y <<< k
  let q := firstQuotient x y k
  let r := firstRemainder x y
  if k ≠ 0 then
    let y := y >>> 1
    let r := tsubshLoop y k r
    let q := q + r
    let r := r >>> k
    let q := q - r <<< k
    (q, r)
  else (q, r)

/-- `k`: a difference of two counts, as an `unsigned char` cut to six bits. -/
def alignDistance (cy cr : Nat) : Nat := (((cy : Int) - cr) % 2 ^ 8).toNat % 2 ^ 6

/-- `__udivmodsi4` of `divsi3as.c`. -/
def udivmodsi4As : Udivmod 32 := fun x y =>
  if y ≤ x then alignSubtract x y (alignDistance (clz y) (clz x)) else (0, x)

/-- `__udivmoddi4` of `divdi3as.c`. -/
def udivmoddi4As : Udivmod 64 := fun x y =>
  if y ≤ x then alignSubtract x y (alignDistance (clzll y) (clzll x)) else (0, x)

/-- `__udivmoddi4` of `divdi3as6432.c`: the divisor is cut to 32 bits. -/
def udivmoddi4As6432 : Udivmod 64 := fun x y =>
  let y := valResize y 32
  if y ≤ x then
    alignSubtract x y (alignDistance (1 <<< 5 ||| clz (y.setWidth 32)) (clzll x))
  else (0, x)

/-- `__divsi3` of `divsi3as.c`. -/
def divsi3As (u v : BitVec 32) : BitVec 32 := signedDiv udivmodsi4As u (v.slt 0) (magnitude v)

/-- `__modsi3` of `divsi3as.c`. -/
def modsi3As (u v : BitVec 32) : BitVec 32 := signedMod udivmodsi4As u (magnitude v)

/-- `__divdi3` of `divdi3as.c`. -/
def divdi3As (u v : BitVec 64) : BitVec 64 := signedDiv udivmoddi4As u (v.slt 0) (magnitude v)

/-- `__moddi3` of `divdi3as.c`. -/
def moddi3As (u v : BitVec 64) : BitVec 64 := signedMod udivmoddi4As u (magnitude v)

/-- `__divdi36432` of `divdi3as6432.c`: `v` is negated as a 32-bit value and
sign-extended when it is passed on. -/
def divdi36432As (u : BitVec 64) (v : BitVec 32) : BitVec 64 :=
  signedDiv udivmoddi4As6432 u (v.slt 0) ((magnitude v).signExtend 64)

/-- `__moddi36432` of `divdi3as6432.c`. -/
def moddi36432As (u : BitVec 64) (v : BitVec 32) : BitVec 64 :=
  signedMod udivmoddi4As6432 u ((magnitude v).signExtend 64)

/-! ## The word of the loop -/

/-- What the alignment establishes: `y * 2 ^ k` fits the word and the dividend is
below twice that. -/
structure Aligned (x y : BitVec w) (k : Nat) : Prop where
  pos : 0 < y.toNat
  fits : y.toNat * 2 ^ k < 2 ^ w
  lt_double : x.toNat < 2 * (y.toNat * 2 ^ k)

/-- `r` after `i` iterations. -/
def wordAt (x y : BitVec w) (k i : Nat) : BitVec w :=
  tsubshLoop ((y <<< k) >>> 1) i (firstRemainder x (y <<< k))

theorem tsubshLoop_succ (y r : BitVec w) (i : Nat) :
    tsubshLoop y (i + 1) r = tsubsh (tsubshLoop y i r) y := by
  induction i generalizing r with
  | zero => rfl
  | succ i ih => exact ih (tsubsh r y)

theorem wordAt_succ (x y : BitVec w) (k i : Nat) :
    wordAt x y k (i + 1) = tsubsh (wordAt x y k i) ((y <<< k) >>> 1) :=
  tsubshLoop_succ _ _ i

/-- The remainder of the division by the divisor still `j` places up, above the
`i` quotient digits found so far. -/
def packed (X D i : Nat) : Nat := 2 ^ i * (X % D) + X / D % 2 ^ i

theorem packed_zero (X D : Nat) : packed X D 0 = X % D := by
  simp [packed, Nat.mod_one]

/-- The digits do not disturb the comparison. -/
theorem le_packed_iff (X D d i : Nat) : 2 ^ i * d ≤ packed X D i ↔ d ≤ X % D := by
  have hdig : X / D % 2 ^ i < 2 ^ i := Nat.mod_lt _ (Nat.two_pow_pos i)
  unfold packed
  constructor
  · intro h
    by_contra hlt
    have hle : 2 ^ i * (X % D + 1) ≤ 2 ^ i * d := Nat.mul_le_mul_left _ (by omega)
    rw [Nat.mul_add, Nat.mul_one] at hle
    omega
  · intro h
    exact (Nat.mul_le_mul_left _ h).trans (Nat.le_add_right _ _)

/-- Halving the divisor moves one digit from the remainder to the quotient. -/
theorem packed_half {X d i : Nat} (hd : 0 < d) :
    packed X d (i + 1) = if d ≤ X % (d * 2)
      then 2 * (packed X (d * 2) i - 2 ^ i * d) + 1 else 2 * packed X (d * 2) i := by
  obtain ⟨Q, hQ⟩ : ∃ Q, Q = X / (d * 2) := ⟨_, rfl⟩
  obtain ⟨R, hR⟩ : ∃ R, R = X % (d * 2) := ⟨_, rfl⟩
  have hRlt : R < d * 2 := hR ▸ Nat.mod_lt _ (by omega)
  have hX : X = d * (2 * Q) + R := by
    rw [hQ, hR, ← Nat.mul_assoc]
    exact (Nat.div_add_mod X (d * 2)).symm
  have hdiv : X / d = 2 * Q + R / d := by rw [hX, Nat.mul_add_div hd]
  have hmod : X % d = R % d := by rw [hX, Nat.mul_add_mod]
  have hdigits : ∀ b, b < 2 → (2 * Q + b) % 2 ^ (i + 1) = b + 2 * (Q % 2 ^ i) := by
    intro b hb
    rw [Nat.pow_succ', Nat.mod_mul]
    have h1 : (2 * Q + b) % 2 = b := by omega
    have h2 : (2 * Q + b) / 2 = Q := by omega
    rw [h1, h2]
  unfold packed
  rw [hdiv, hmod, ← hQ, ← hR]
  split
  · rename_i hle
    have hone : R / d = 1 := Nat.div_eq_of_lt_le (by omega) (by omega)
    have hrem : R % d = R - d := by rw [Nat.mod_eq_sub_mod hle, Nat.mod_eq_of_lt (by omega)]
    obtain ⟨s, rfl⟩ : ∃ s, R = d + s := ⟨R - d, by omega⟩
    rw [hone, hrem, hdigits 1 (by decide), Nat.add_sub_cancel_left, Nat.mul_add, Nat.pow_succ']
    have : 2 * 2 ^ i * s = 2 * (2 ^ i * s) := by ring
    omega
  · have hzero : R / d = 0 := Nat.div_eq_of_lt (by omega)
    rw [hzero, Nat.mod_eq_of_lt (by omega), hdigits 0 (by decide), Nat.pow_succ']
    ring

theorem packed_lt {X D : Nat} (hD : 0 < D) (i : Nat) : packed X D i < 2 ^ i * D := by
  have hdig : X / D % 2 ^ i < 2 ^ i := Nat.mod_lt _ (Nat.two_pow_pos i)
  have hrem : 2 ^ i * (X % D + 1) ≤ 2 ^ i * D := Nat.mul_le_mul_left _ (Nat.mod_lt _ hD)
  rw [Nat.mul_add, Nat.mul_one] at hrem
  unfold packed
  omega

theorem packed_div (X D i : Nat) : packed X D i / 2 ^ i = X % D := by
  have hdig : X / D % 2 ^ i < 2 ^ i := Nat.mod_lt _ (Nat.two_pow_pos i)
  unfold packed
  rw [Nat.mul_add_div (Nat.two_pow_pos i), Nat.div_eq_of_lt hdig, Nat.add_zero]

namespace Aligned

variable {x y : BitVec w} {k : Nat}

theorem toNat_shift (h : Aligned x y k) : (y <<< k).toNat = y.toNat * 2 ^ k := by
  rw [BitVec.toNat_shiftLeft, Nat.shiftLeft_eq, Nat.mod_eq_of_lt h.fits]

theorem lt_width (h : Aligned x y k) : k < w := by
  have hle : 2 ^ k ≤ y.toNat * 2 ^ k := Nat.le_mul_of_pos_left _ h.pos
  exact (Nat.pow_lt_pow_iff_right (by decide)).mp (lt_of_le_of_lt hle h.fits)

/-- `half(y)` while `i` iterations are done, as the divisor the digits see. -/
theorem toNat_half (h : Aligned x y k) {i : Nat} (hi : i < k) :
    ((y <<< k) >>> 1).toNat = 2 ^ i * (y.toNat * 2 ^ (k - (i + 1))) := by
  have hk : k = i + (k - (i + 1)) + 1 := by omega
  rw [BitVec.toNat_ushiftRight, h.toNat_shift, Nat.shiftRight_eq_div_pow, Nat.pow_one]
  conv_lhs => rw [hk, Nat.pow_succ, Nat.pow_add]
  rw [← Nat.mul_assoc, Nat.mul_div_cancel _ (by decide)]
  ring

/-- The divisor seen by the digits doubles back to the one of the step before. -/
theorem divisor_double (y : BitVec w) {i : Nat} (hi : i < k) :
    y.toNat * 2 ^ (k - i) = y.toNat * 2 ^ (k - (i + 1)) * 2 := by
  rw [show k - i = k - (i + 1) + 1 by omega, Nat.pow_succ, Nat.mul_assoc]

theorem toNat_firstRemainder (h : Aligned x y k) :
    (firstRemainder x (y <<< k)).toNat = x.toNat % (y.toNat * 2 ^ k) := by
  have hlt := h.lt_double
  unfold firstRemainder
  simp only [ge_iff_le, BitVec.le_def, h.toNat_shift]
  split
  · rename_i hle
    rw [BitVec.toNat_sub_of_le (by rwa [BitVec.le_def, h.toNat_shift]), h.toNat_shift,
      Nat.mod_eq_sub_mod hle, Nat.mod_eq_of_lt (by omega)]
  · rename_i hle
    exact (Nat.mod_eq_of_lt (by omega)).symm

/-- The invariant of the loop: remainder above, digits below, and no carry out. -/
theorem toNat_wordAt (h : Aligned x y k) {i : Nat} (hi : i ≤ k) :
    (wordAt x y k i).toNat = packed x.toNat (y.toNat * 2 ^ (k - i)) i := by
  induction i with
  | zero => rw [packed_zero, Nat.sub_zero]; exact h.toNat_firstRemainder
  | succ i ih =>
    have ihw := ih (by omega)
    have hhalf := h.toNat_half (i := i) (by omega)
    have hdouble := divisor_double y (Nat.lt_of_succ_le hi)
    obtain ⟨d, hd⟩ : ∃ d, d = y.toNat * 2 ^ (k - (i + 1)) := ⟨_, rfl⟩
    have hdpos : 0 < d := hd ▸ Nat.mul_pos h.pos (Nat.two_pow_pos _)
    rw [hdouble, ← hd] at ihw
    rw [← hd] at hhalf ⊢
    -- The next word is below the aligned divisor, which fits.
    have hnext : packed x.toNat d (i + 1) < 2 ^ w := by
      refine (packed_lt hdpos (i + 1)).trans_le (le_of_eq_of_le ?_ h.fits.le)
      rw [hd, Nat.mul_left_comm, ← Nat.pow_add, show i + 1 + (k - (i + 1)) = k by omega]
    rw [packed_half hdpos] at hnext ⊢
    rw [wordAt_succ]
    unfold tsubsh
    simp only [ge_iff_le, BitVec.le_def, hhalf, ihw, le_packed_iff]
    split
    · rename_i hle
      rw [if_pos hle] at hnext
      have hge : 2 ^ i * d ≤ packed x.toNat (d * 2) i := (le_packed_iff _ _ _ _).mpr hle
      have hsub : (wordAt x y k i - (y <<< k) >>> 1).toNat =
          packed x.toNat (d * 2) i - 2 ^ i * d := by
        rw [BitVec.toNat_sub_of_le (by rwa [BitVec.le_def, hhalf, ihw]), hhalf, ihw]
      have hone : (1 : BitVec w).toNat = 1 := BitVec.toNat_one (by have := h.lt_width; omega)
      rw [BitVec.toNat_add, BitVec.toNat_shiftLeft, hsub, hone, Nat.shiftLeft_eq, Nat.pow_one,
        Nat.mul_comm _ 2, Nat.mod_eq_of_lt (a := 2 * _) (by omega), Nat.mod_eq_of_lt hnext]
    · rename_i hle
      rw [if_neg hle] at hnext
      rw [BitVec.toNat_shiftLeft, ihw, Nat.shiftLeft_eq, Nat.pow_one, Nat.mul_comm,
        Nat.mod_eq_of_lt hnext]

/-- The special first iteration finds the digit of weight `2 ^ k`. -/
theorem toNat_firstQuotient (h : Aligned x y k) :
    (firstQuotient x (y <<< k) k).toNat = 2 ^ k * (x.toNat / (y.toNat * 2 ^ k)) := by
  have hlt := h.lt_double
  have hpos : 0 < y.toNat * 2 ^ k := Nat.mul_pos h.pos (Nat.two_pow_pos k)
  unfold firstQuotient
  simp only [ge_iff_le, BitVec.le_def, h.toNat_shift]
  split
  · rename_i hle
    have hone : x.toNat / (y.toNat * 2 ^ k) = 1 := Nat.div_eq_of_lt_le (by omega) (by omega)
    have h1 : (1 : BitVec w).toNat = 1 := BitVec.toNat_one (by have := h.lt_width; omega)
    rw [hone, BitVec.toNat_shiftLeft, h1, Nat.shiftLeft_eq, Nat.one_mul, Nat.mul_one]
    exact Nat.mod_eq_of_lt (Nat.pow_lt_pow_right (by decide) h.lt_width)
  · rename_i hle
    rw [Nat.div_eq_of_lt (by omega), Nat.mul_zero]
    rfl

/-- The first digit and the packed ones make up the quotient. -/
theorem quotient_digits (x y : BitVec w) (k : Nat) :
    2 ^ k * (x.toNat / (y.toNat * 2 ^ k)) + x.toNat / y.toNat % 2 ^ k = x.toNat / y.toNat := by
  rw [← Nat.div_div_eq_div_mul]
  exact Nat.div_add_mod _ _

theorem toNat_wordAt_last (h : Aligned x y k) :
    (wordAt x y k k).toNat = packed x.toNat y.toNat k := by
  have hw := h.toNat_wordAt (Nat.le_refl k)
  rwa [Nat.sub_self, Nat.pow_zero, Nat.mul_one] at hw

theorem extract_remainder (h : Aligned x y k) : wordAt x y k k >>> k = x % y := by
  apply BitVec.eq_of_toNat_eq
  rw [BitVec.toNat_ushiftRight, Nat.shiftRight_eq_div_pow, h.toNat_wordAt_last, packed_div,
    BitVec.toNat_umod]

/-- `rem << k` loses no bit. -/
theorem toNat_remainder_shift (h : Aligned x y k) :
    ((x % y) <<< k).toNat = 2 ^ k * (x.toNat % y.toNat) := by
  have hlt : x.toNat % y.toNat < y.toNat := Nat.mod_lt _ h.pos
  have hle : (x.toNat % y.toNat) * 2 ^ k ≤ y.toNat * 2 ^ k := Nat.mul_le_mul_right _ hlt.le
  rw [BitVec.toNat_shiftLeft, BitVec.toNat_umod, Nat.shiftLeft_eq, Nat.mul_comm (2 ^ k)]
  exact Nat.mod_eq_of_lt (lt_of_le_of_lt hle h.fits)

/-- `q + r` does not carry out of the word. -/
theorem toNat_combine (h : Aligned x y k) :
    (firstQuotient x (y <<< k) k + wordAt x y k k).toNat =
      2 ^ k * (x.toNat % y.toNat) + x.toNat / y.toNat := by
  have hsum := quotient_digits x y k
  have hle : 2 ^ k * (x.toNat % y.toNat) + x.toNat / y.toNat < 2 ^ w := by
    have hrem : 2 ^ k * (x.toNat % y.toNat + 1) ≤ 2 ^ k * y.toNat :=
      Nat.mul_le_mul_left _ (Nat.mod_lt _ h.pos)
    have hfits := h.fits
    rw [Nat.mul_add, Nat.mul_one] at hrem
    rw [Nat.mul_comm] at hfits
    by_cases hQ : x.toNat / y.toNat < 2 ^ k
    · omega
    · -- The dividend holds the aligned divisor and the digits below it.
      obtain ⟨s, hs⟩ : ∃ s, x.toNat / y.toNat = 2 ^ k + s :=
        ⟨x.toNat / y.toNat - 2 ^ k, by omega⟩
      have hx := Nat.div_add_mod x.toNat y.toNat
      have hsle : s ≤ y.toNat * s := Nat.le_mul_of_pos_left _ h.pos
      have hxlt := x.isLt
      rw [hs, Nat.mul_add, Nat.mul_comm y.toNat (2 ^ k)] at hx
      omega
  rw [BitVec.toNat_add, h.toNat_firstQuotient, h.toNat_wordAt_last]
  unfold packed
  rw [Nat.add_left_comm, hsum]
  exact Nat.mod_eq_of_lt hle

theorem extract_quotient (h : Aligned x y k) :
    firstQuotient x (y <<< k) k + wordAt x y k k - (x % y) <<< k = x / y := by
  apply BitVec.eq_of_toNat_eq
  have hle : ((x % y) <<< k).toNat ≤ (firstQuotient x (y <<< k) k + wordAt x y k k).toNat := by
    rw [h.toNat_combine, h.toNat_remainder_shift]
    exact Nat.le_add_right _ _
  rw [BitVec.toNat_sub_of_le hle, h.toNat_combine, h.toNat_remainder_shift,
    Nat.add_sub_cancel_left, BitVec.toNat_udiv]

/-- The body divides exactly, with and without iterations. -/
theorem alignSubtract_eq (h : Aligned x y k) : alignSubtract x y k = (x / y, x % y) := by
  have hq := h.extract_quotient
  have hr := h.extract_remainder
  unfold alignSubtract
  by_cases hk : k = 0
  · -- Nothing is packed: the word is the remainder and its shift by zero cancels it.
    subst hk
    have hword : firstRemainder x (y <<< 0) = x % y := by
      rwa [BitVec.ushiftRight_zero] at hr
    have hquot : firstQuotient x (y <<< 0) 0 = x / y := by
      rw [← hq, BitVec.shiftLeft_zero (x % y), ← hword]
      exact (BitVec.add_sub_cancel _ _).symm
    exact Prod.ext hquot hword
  · simp only [ne_eq, hk, not_false_eq_true, if_true]
    exact Prod.ext (by rw [← hq, ← hr]; rfl) hr

end Aligned

/-! ## The alignment of the three dividers -/

theorem alignDistance_eq {cy cr : Nat} (hle : cr ≤ cy) (hlt : cy < 64) :
    alignDistance cy cr = cy - cr := by
  unfold alignDistance
  have hcast : ((cy : Int) - cr) = ((cy - cr : Nat) : Int) := by omega
  rw [hcast]
  omega

/-- The distance of the top bits aligns. -/
theorem aligned_of_log {x y : BitVec w} {k : Nat} (hy : 0 < y.toNat) (hle : y.toNat ≤ x.toNat)
    (hk : k = Nat.log 2 x.toNat - Nat.log 2 y.toNat) : Aligned x y k := by
  have hmono : Nat.log 2 y.toNat ≤ Nat.log 2 x.toNat := Nat.log_mono_right hle
  have hxlow : 2 ^ Nat.log 2 x.toNat ≤ x.toNat := Nat.pow_log_le_self 2 (by omega)
  have hxhigh : x.toNat < 2 ^ (Nat.log 2 x.toNat + 1) := Nat.lt_pow_succ_log_self (by decide) _
  have hylow : 2 ^ Nat.log 2 y.toNat ≤ y.toNat := Nat.pow_log_le_self 2 (by omega)
  have hyhigh : y.toNat < 2 ^ (Nat.log 2 y.toNat + 1) := Nat.lt_pow_succ_log_self (by decide) _
  have hsum : Nat.log 2 y.toNat + k = Nat.log 2 x.toNat := by omega
  have hbit : Nat.log 2 x.toNat < w :=
    (Nat.log_lt_iff_lt_pow (by decide) (by omega)).mpr x.isLt
  refine ⟨hy, ?_, ?_⟩
  · calc y.toNat * 2 ^ k < 2 ^ (Nat.log 2 y.toNat + 1) * 2 ^ k :=
          Nat.mul_lt_mul_of_pos_right hyhigh (Nat.two_pow_pos k)
      _ = 2 ^ (Nat.log 2 x.toNat + 1) := by
          rw [← Nat.pow_add, Nat.add_right_comm, hsum]
      _ ≤ 2 ^ w := Nat.pow_le_pow_right (by decide) hbit
  · have hdouble : 2 ^ (Nat.log 2 x.toNat + 1) ≤ 2 * (y.toNat * 2 ^ k) := by
      rw [Nat.pow_succ', ← hsum, Nat.pow_add]
      exact Nat.mul_le_mul_left _ (Nat.mul_le_mul_right _ hylow)
    exact lt_of_lt_of_le hxhigh hdouble

/-- Counts from the same end of the word give the distance of the top bits. -/
theorem aligned_of_counts {x y : BitVec w} {c cy cr : Nat} (hy : y ≠ 0) (hle : y ≤ x)
    (hc : c < 64) (hw : w ≤ c + 1) (hcy : cy = c - Nat.log 2 y.toNat)
    (hcr : cr = c - Nat.log 2 x.toNat) : Aligned x y (alignDistance cy cr) := by
  have hpos := toNat_pos hy
  have hnat : y.toNat ≤ x.toNat := hle
  have hmono : Nat.log 2 y.toNat ≤ Nat.log 2 x.toNat := Nat.log_mono_right hnat
  have hbit := log_lt_width (lt_of_lt_of_le hpos hnat)
  apply aligned_of_log hpos hnat
  rw [alignDistance_eq (by omega) (by omega)]
  omega

theorem toNat_pos_of_le {x y : BitVec w} (hy : y ≠ 0) (hle : y ≤ x) : 0 < x.toNat :=
  lt_of_lt_of_le (toNat_pos hy) hle

theorem aligned_clz {x y : BitVec 32} (hy : y ≠ 0) (hle : y ≤ x) :
    Aligned x y (alignDistance (clz y) (clz x)) :=
  aligned_of_counts hy hle (c := 31) (by decide) (by decide) (clz_eq (toNat_pos hy))
    (clz_eq (toNat_pos_of_le hy hle))

theorem aligned_clzll {x y : BitVec 64} (hy : y ≠ 0) (hle : y ≤ x) :
    Aligned x y (alignDistance (clzll y) (clzll x)) :=
  aligned_of_counts hy hle (c := 63) (by decide) (by decide) (clzll_eq (toNat_pos hy))
    (clzll_eq (toNat_pos_of_le hy hle))

/-- The 32 zeros above a short divisor are counted by the set bit. -/
theorem aligned_clz_clzll {x y : BitVec 64} (hy : y ≠ 0) (hlt : y.toNat < 2 ^ 32)
    (hle : y ≤ x) :
    Aligned x y (alignDistance (1 <<< 5 ||| clz (y.setWidth 32)) (clzll x)) := by
  have hpos := toNat_pos hy
  have hlow : Nat.log 2 y.toNat < 32 := (Nat.log_lt_iff_lt_pow (by decide) (by omega)).mpr hlt
  have hval : (y.setWidth 32).toNat = y.toNat := by
    rw [BitVec.toNat_setWidth, Nat.mod_eq_of_lt hlt]
  have hcount : 1 <<< 5 ||| clz (y.setWidth 32) = 63 - Nat.log 2 y.toNat := by
    rw [clz_eq (hval ▸ hpos), hval, Nat.shiftLeft_eq, Nat.one_mul, ← Nat.mul_one (2 ^ 5),
      ← Nat.two_pow_add_eq_or_of_lt (by omega)]
    omega
  exact aligned_of_counts hy hle (c := 63) (by decide) (by decide) hcount
    (clzll_eq (toNat_pos_of_le hy hle))

/-! ## Exactness -/

/-- A divisor above the dividend is answered without a step. -/
theorem zero_eq_udiv_of_lt {x y : BitVec w} (h : ¬ y ≤ x) : (0, x) = (x / y, x % y) := by
  have hlt : x.toNat < y.toNat := Nat.not_le.mp h
  refine Prod.ext (BitVec.eq_of_toNat_eq ?_) (BitVec.eq_of_toNat_eq ?_)
  · rw [BitVec.toNat_udiv, Nat.div_eq_of_lt hlt]
    rfl
  · rw [BitVec.toNat_umod, Nat.mod_eq_of_lt hlt]

theorem udivmodsi4As_exact (x : BitVec 32) {y : BitVec 32} (hy : y ≠ 0) :
    udivmodsi4As.ExactAt x y := by
  rw [Udivmod.exactAt_iff]
  unfold udivmodsi4As
  split
  · rename_i hle
    exact (aligned_clz hy hle).alignSubtract_eq
  · rename_i hgt
    exact zero_eq_udiv_of_lt hgt

theorem udivmoddi4As_exact (x : BitVec 64) {y : BitVec 64} (hy : y ≠ 0) :
    udivmoddi4As.ExactAt x y := by
  rw [Udivmod.exactAt_iff]
  unfold udivmoddi4As
  split
  · rename_i hle
    exact (aligned_clzll hy hle).alignSubtract_eq
  · rename_i hgt
    exact zero_eq_udiv_of_lt hgt

/-- The mixed divider divides by the low word of what it is passed. -/
theorem udivmoddi4As6432_eq (x y : BitVec 64) (hy : valResize y 32 ≠ 0) :
    udivmoddi4As6432 x y = (x / valResize y 32, x % valResize y 32) := by
  have hlt : (valResize y 32).toNat < 2 ^ 32 := by
    rw [toNat_valResize]
    exact Nat.mod_lt _ (by decide)
  unfold udivmoddi4As6432
  dsimp only
  split
  · rename_i hle
    exact (aligned_clz_clzll hy hlt hle).alignSubtract_eq
  · rename_i hgt
    exact zero_eq_udiv_of_lt hgt

namespace Aligned

variable {x y : BitVec w} {k : Nat}

theorem compare_cleared (h : Aligned x y k) {i : Nat} (hi : i < k) :
    (y <<< k) >>> 1 ≤ wordAt x y k i ↔ (y <<< k) >>> 1 ≤ (wordAt x y k i >>> i) <<< i := by
  have hw := h.toNat_wordAt hi.le
  have hhalf := h.toNat_half hi
  have hle : 2 ^ i * (x.toNat % (y.toNat * 2 ^ (k - i))) ≤ (wordAt x y k i).toNat := by
    rw [hw]
    exact Nat.le_add_right _ _
  have hclear : ((wordAt x y k i >>> i) <<< i).toNat =
      2 ^ i * (x.toNat % (y.toNat * 2 ^ (k - i))) := by
    rw [BitVec.toNat_shiftLeft, BitVec.toNat_ushiftRight, Nat.shiftRight_eq_div_pow, hw,
      packed_div, Nat.shiftLeft_eq, Nat.mul_comm]
    exact Nat.mod_eq_of_lt (lt_of_le_of_lt hle (BitVec.isLt _))
  rw [BitVec.le_def, BitVec.le_def, hhalf, hw, hclear, le_packed_iff]
  exact (Nat.mul_le_mul_left_iff (Nat.two_pow_pos i)).symm

theorem double_lt (h : Aligned x y k) {i : Nat} (hi : i < k) :
    2 * (firstRemainder (wordAt x y k i) ((y <<< k) >>> 1)).toNat + 1 < 2 ^ w := by
  have hw := h.toNat_wordAt hi.le
  have hhalf := h.toNat_half hi
  have hdpos : 0 < y.toNat * 2 ^ (k - (i + 1)) := Nat.mul_pos h.pos (Nat.two_pow_pos _)
  have hnext := (wordAt x y k (i + 1)).isLt
  have heven : 2 ^ w = 2 * 2 ^ (w - 1) := by
    rw [← Nat.pow_succ', Nat.succ_eq_add_one, Nat.sub_add_cancel (Nat.one_le_of_lt h.lt_width)]
  rw [h.toNat_wordAt hi, packed_half hdpos, ← divisor_double y hi] at hnext
  unfold firstRemainder
  simp only [ge_iff_le, BitVec.le_def, hhalf, hw, le_packed_iff]
  split
  · rename_i hle
    rw [if_pos hle] at hnext
    have hge := (le_packed_iff x.toNat (y.toNat * 2 ^ (k - i)) _ i).mpr hle
    rwa [BitVec.toNat_sub_of_le (by rwa [BitVec.le_def, hhalf, hw]), hhalf, hw]
  · rename_i hle
    rw [if_neg hle] at hnext
    rw [hw]
    omega

end Aligned

/-- What makes sharing the word sound, for one run with `k` iterations. -/
structure WordExact (x y : BitVec w) (k : Nat) : Prop where
  distance : k < w
  /-- The remainder stands above the `i` quotient digits found so far. -/
  word : ∀ i ≤ k, (wordAt x y k i).toNat =
    2 ^ i * (x.toNat % (y.toNat * 2 ^ (k - i))) + x.toNat / (y.toNat * 2 ^ (k - i)) % 2 ^ i
  /-- Clearing the digits does not change the comparison. -/
  compare : ∀ i < k, (y <<< k) >>> 1 ≤ wordAt x y k i ↔
    (y <<< k) >>> 1 ≤ (wordAt x y k i >>> i) <<< i
  /-- Doubling, with the new digit, stays in the word. -/
  double : ∀ i < k, 2 * (firstRemainder (wordAt x y k i) ((y <<< k) >>> 1)).toNat + 1 < 2 ^ w
  /-- `q + r` does not carry out. -/
  combine : (firstQuotient x (y <<< k) k + wordAt x y k k).toNat =
    (firstQuotient x (y <<< k) k).toNat + (wordAt x y k k).toNat
  remainder : (wordAt x y k k >>> k).toNat = x.toNat % y.toNat
  quotient : (firstQuotient x (y <<< k) k + wordAt x y k k -
    (wordAt x y k k >>> k) <<< k).toNat = x.toNat / y.toNat

theorem Aligned.wordExact {x y : BitVec w} {k : Nat} (h : Aligned x y k) : WordExact x y k where
  distance := h.lt_width
  word := fun i hi => h.toNat_wordAt hi
  compare := fun i hi => h.compare_cleared hi
  double := fun i hi => h.double_lt hi
  combine := by
    rw [h.toNat_combine, h.toNat_firstQuotient, h.toNat_wordAt_last, packed, Nat.add_left_comm,
      quotient_digits x y k]
  remainder := by rw [h.extract_remainder, BitVec.toNat_umod]
  quotient := by rw [h.extract_remainder, h.extract_quotient, BitVec.toNat_udiv]

theorem udivmoddi4As6432_exact (x : BitVec 64) {y : BitVec 32} (hy : y ≠ 0) :
    udivmoddi4As6432.ExactAt x (y.setWidth 64) := by
  rw [Udivmod.exactAt_iff]
  have heq := udivmoddi4As6432_eq x (y.setWidth 64)
  rw [valResize_setWidth] at heq
  exact heq (setWidth_ne_zero hy)

theorem wordExact_6432 (x : BitVec 64) {y : BitVec 32} (hy : y ≠ 0) (hle : y.setWidth 64 ≤ x) :
    WordExact x (y.setWidth 64) (alignDistance (1 <<< 5 ||| clz y) (clzll x)) := by
  have hlt : (y.setWidth 64).toNat < 2 ^ 32 := by
    rw [BitVec.toNat_setWidth]
    exact lt_of_le_of_lt (Nat.mod_le _ _) y.isLt
  have halign := aligned_clz_clzll (setWidth_ne_zero hy) hlt hle
  rw [BitVec.setWidth_setWidth_of_le y (by decide), BitVec.setWidth_eq] at halign
  exact halign.wordExact

theorem signed_exact_6432 (u : BitVec 64) {v : BitVec 32} (hv : v ≠ 0) :
    divdi36432As u v = BitVec.ofInt 64 (u.toInt.tdiv v.toInt) ∧
      moddi36432As u v = BitVec.ofInt 64 (u.toInt.tmod v.toInt) := by
  have heq := udivmoddi4As6432_eq (magnitude u) ((magnitude v).signExtend 64)
  have hne := mt (magnitude_eq_zero_iff (v.signExtend 64)).mp (signExtend_ne_zero hv)
  have hneg : v.slt 0 = (v.signExtend 64).slt 0 := by
    rw [slt_zero, slt_zero, BitVec.msb_signExtend]
    simp
  have hint : (v.signExtend 64).toInt = v.toInt := BitVec.toInt_signExtend_of_le (by decide)
  rw [magnitude_signExtend] at heq
  unfold divdi36432As moddi36432As
  rw [signedDiv_eq_sdiv hneg (heq hne), signedMod_eq_srem (heq hne), sdiv_eq_ofInt,
    srem_eq_ofInt, hint]
  exact ⟨rfl, rfl⟩

example : alignSubtract (27 : BitVec 8) 4 2 = (6, 3) := by decide

/-- The align-and-subtract dividers are exact, and so is each step of the word they
share; the signed entry points return the truncated quotient and the remainder with
the dividend's sign. -/
theorem alignSubtract_exact :
    (∀ x y : BitVec 32, y ≠ 0 → udivmodsi4As.ExactAt x y ∧
      (y ≤ x → WordExact x y (alignDistance (clz y) (clz x)))) ∧
    (∀ x y : BitVec 64, y ≠ 0 → udivmoddi4As.ExactAt x y ∧
      (y ≤ x → WordExact x y (alignDistance (clzll y) (clzll x)))) ∧
    (∀ (x : BitVec 64) (y : BitVec 32), y ≠ 0 →
      udivmoddi4As6432.ExactAt x (y.setWidth 64) ∧
      (y.setWidth 64 ≤ x →
        WordExact x (y.setWidth 64) (alignDistance (1 <<< 5 ||| clz y) (clzll x)))) ∧
    (∀ u v : BitVec 32, v ≠ 0 →
      divsi3As u v = BitVec.ofInt 32 (u.toInt.tdiv v.toInt) ∧
      modsi3As u v = BitVec.ofInt 32 (u.toInt.tmod v.toInt)) ∧
    (∀ u v : BitVec 64, v ≠ 0 →
      divdi3As u v = BitVec.ofInt 64 (u.toInt.tdiv v.toInt) ∧
      moddi3As u v = BitVec.ofInt 64 (u.toInt.tmod v.toInt)) ∧
    (∀ (u : BitVec 64) (v : BitVec 32), v ≠ 0 →
      divdi36432As u v = BitVec.ofInt 64 (u.toInt.tdiv v.toInt) ∧
      moddi36432As u v = BitVec.ofInt 64 (u.toInt.tmod v.toInt)) := by
  refine ⟨?_, ?_, ?_, ?_, ?_, fun u v hv => signed_exact_6432 u hv⟩
  · intro x y hy
    exact ⟨udivmodsi4As_exact x hy, fun hle => (aligned_clz hy hle).wordExact⟩
  · intro x y hy
    exact ⟨udivmoddi4As_exact x hy, fun hle => (aligned_clzll hy hle).wordExact⟩
  · intro x y hy
    exact ⟨udivmoddi4As6432_exact x hy, fun hle => wordExact_6432 x hy hle⟩
  · intro u v hv
    exact signed_exact (fun x y hy => udivmodsi4As_exact x hy) u hv
  · intro u v hv
    exact signed_exact (fun x y hy => udivmoddi4As_exact x hy) u hv

end Bambu.Libbambu.Softint
