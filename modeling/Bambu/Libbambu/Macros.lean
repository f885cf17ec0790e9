/-
  Bambu.Libbambu.Macros

  The bit-selection macros of `bambu_macros.h` and the leading-zero count built
  on them.  `UDATATYPE` is `unsigned long long`; the macros that assign to a
  variable are functions returning its new value.
-/

import Mathlib.Data.Nat.Log
import Mathlib.Tactic.Ring

namespace Bambu.Libbambu

/-- `UDATATYPE`. -/
abbrev Udatatype := BitVec 64

/-- `VAL_RESIZE(VAR, nbit)`, also what `BIT_RESIZE` assigns. -/
def valResize (v : Udatatype) (nbit : Nat) : Udatatype :=
  if nbit < 64 then v &&& (BitVec.ofNat 64 (2 ^ nbit) - 1) else v

/-- `SELECT_BIT(VAR, bit)`. -/
def selectBit (v : Udatatype) (bit : Nat) : Udatatype := (v >>> bit) &&& 1

/-- `SELECT_RANGE(var, high, low)`. -/
def selectRange (v : Udatatype) (high low : Nat) : Udatatype :=
  valResize (v >>> low) (high - low + 1)

theorem toNat_valResize (v : Udatatype) (nbit : Nat) :
    (valResize v nbit).toNat = v.toNat % 2 ^ nbit := by
  unfold valResize
  have hv : v.toNat < 2 ^ 64 := v.isLt
  by_cases h : nbit < 64
  · have hlt : 2 ^ nbit < 2 ^ 64 := Nat.pow_lt_pow_right (by decide) h
    have hpos : 0 < 2 ^ nbit := Nat.two_pow_pos nbit
    have hmask : (BitVec.ofNat 64 (2 ^ nbit) - 1).toNat = 2 ^ nbit - 1 := by
      rw [BitVec.toNat_sub, BitVec.toNat_ofNat, Nat.mod_eq_of_lt hlt]
      simp only [BitVec.ofNat_eq_ofNat, BitVec.toNat_ofNat]
      omega
    rw [if_pos h, BitVec.toNat_and, hmask, Nat.and_two_pow_sub_one_eq_mod]
  · have hle : 2 ^ 64 ≤ 2 ^ nbit := Nat.pow_le_pow_right (by decide) (Nat.not_lt.mp h)
    rw [if_neg h, Nat.mod_eq_of_lt (lt_of_lt_of_le hv hle)]

theorem toNat_selectRange (v : Udatatype) (high low : Nat) :
    (selectRange v high low).toNat = v.toNat / 2 ^ low % 2 ^ (high - low + 1) := by
  unfold selectRange
  rw [toNat_valResize, BitVec.toNat_ushiftRight, Nat.shiftRight_eq_div_pow]

theorem toNat_selectBit (v : Udatatype) (bit : Nat) :
    (selectBit v bit).toNat = v.toNat / 2 ^ bit % 2 := by
  unfold selectBit
  have h1 : (1 : Udatatype).toNat = 2 ^ 1 - 1 := by decide
  rw [BitVec.toNat_and, h1, Nat.and_two_pow_sub_one_eq_mod, BitVec.toNat_ushiftRight,
    Nat.shiftRight_eq_div_pow, Nat.pow_one]

/-- A shifted word with a narrower one put below it. -/
theorem toNat_shift_or {v b : Udatatype} {i : Nat} (hi : i ≤ 64) (hb : b.toNat < 2 ^ i) :
    ((v <<< i) ||| b).toNat = (v.toNat * 2 ^ i) % 2 ^ 64 + b.toNat := by
  have hmul : (v.toNat * 2 ^ i) % 2 ^ 64 = 2 ^ i * (v.toNat % 2 ^ (64 - i)) := by
    rw [Nat.mul_comm, show (2 : Nat) ^ 64 = 2 ^ i * 2 ^ (64 - i) by
      rw [← Nat.pow_add, Nat.add_sub_cancel' hi], Nat.mul_mod_mul_left]
  rw [BitVec.toNat_or, BitVec.toNat_shiftLeft, Nat.shiftLeft_eq, hmul]
  exact (Nat.two_pow_add_eq_or_of_lt hb _).symm

/-! ## Leading zeros -/

/-- `VECTORIZE_VALUE(_result, nbits)` on the result bits, bit zero first. -/
def vectorizeValue : List Bool → Nat
  | [] => 0
  | b :: rest => b.toNat + 2 * vectorizeValue rest

/-- `count_leading_zero_macro(man_bits, MAN_IN_ORIG, SHIFT)` before `SHIFT` is
cut to its width. -/
def countLeadingZeroMacro (manBits : Nat) (manInOrig : Udatatype) : Nat :=
  let manIn := if manBits ≤ 32 then valResize (manInOrig <<< (32 - manBits)) 32
    else manInOrig <<< (64 - manBits)
  let result5 : Bool := manBits ≤ 32 || selectRange manIn 63 32 == 0
  let result4 : Bool :=
    (if result5 then selectRange manIn 31 16 else selectRange manIn 63 48) == 0
  let result3 : Bool :=
    (if result4 then
      (if result5 then selectRange manIn 15 8 else selectRange manIn 47 40)
    else
      (if result5 then selectRange manIn 31 24 else selectRange manIn 63 56)) == 0
  let result2 : Bool :=
    (if result3 then
      (if result4 then
        (if result5 then selectRange manIn 7 4 else selectRange manIn 39 36)
      else
        (if result5 then selectRange manIn 23 20 else selectRange manIn 55 52))
    else
      (if result4 then
        (if result5 then selectRange manIn 15 12 else selectRange manIn 47 44)
      else
        (if result5 then selectRange manIn 31 28 else selectRange manIn 63 60))) == 0
  let val8 :=
    if result3 then
      (if result4 then
        (if result5 then selectRange manIn 7 0 else selectRange manIn 39 32)
      else
        (if result5 then selectRange manIn 23 16 else selectRange manIn 55 48))
    else
      (if result4 then
        (if result5 then selectRange manIn 15 8 else selectRange manIn 47 40)
      else
        (if result5 then selectRange manIn 31 24 else selectRange manIn 63 56))
  let val4 := if result2 then val8 &&& 15 else (val8 >>> 4) &&& 15
  let result1 : Bool := val4 >>> 2 == 0
  let result0 : Bool :=
    if result1 then (~~~((val4 &&& 2) >>> 1)) &&& 1 == 1
    else (~~~((val4 &&& 8) >>> 3)) &&& 1 == 1
  if manBits ≤ 32 then vectorizeValue [result0, result1, result2, result3, result4]
  else vectorizeValue [result0, result1, result2, result3, result4, result5]

/-- The base of the window the next test looks at. -/
def clzBase (zero : Bool) (b s : Nat) : Nat := if zero then b else b + s

/-- A test on the upper half of a window halves the candidates for the top bit. -/
theorem clzBase_spec {v : Udatatype} {b s : Nat} {zero : Bool} (hv : 0 < v.toNat)
    (hzero : zero = (selectRange v (b + s + s - 1) (b + s) == 0)) (hs : 0 < s)
    (hlo : b ≤ Nat.log 2 v.toNat) (hhi : Nat.log 2 v.toNat < b + s + s) :
    clzBase zero b s ≤ Nat.log 2 v.toNat ∧ Nat.log 2 v.toNat < clzBase zero b s + s := by
  have hlt : v.toNat < 2 ^ (b + s) * 2 ^ s := by
    rw [← Nat.pow_add]
    exact (Nat.log_lt_iff_lt_pow (by decide) (by omega)).mp hhi
  -- The window ends at the top bit, so its upper half is a plain quotient.
  have hrange : (selectRange v (b + s + s - 1) (b + s)).toNat = v.toNat / 2 ^ (b + s) := by
    rw [toNat_selectRange, show b + s + s - 1 - (b + s) + 1 = s by have := hs; omega]
    exact Nat.mod_eq_of_lt (Nat.div_lt_of_lt_mul hlt)
  have hiff : zero = true ↔ Nat.log 2 v.toNat < b + s := by
    rw [hzero, beq_iff_eq, ← BitVec.toNat_inj, hrange,
      Nat.log_lt_iff_lt_pow (by decide) (by omega)]
    exact Nat.div_eq_zero_iff_lt (Nat.two_pow_pos _)
  unfold clzBase
  cases zero with
  | true =>
    have := hiff.mp rfl
    simp only [if_true]
    omega
  | false =>
    have := mt hiff.mpr (by decide)
    simp only [Bool.false_eq_true, if_false]
    omega

theorem selectRange_eq_zero_iff (v : Udatatype) (high low : Nat) :
    (selectRange v high low == 0) = decide (v.toNat / 2 ^ low % 2 ^ (high - low + 1) = 0) := by
  rw [← toNat_selectRange, Bool.eq_iff_iff, beq_iff_eq, decide_eq_true_eq, ← BitVec.toNat_inj]
  rfl

/-- The two tests on the last nibble, for each of its values. -/
theorem nibble_tests (n : Fin 16) :
    ((BitVec.ofNat 64 n.val >>> 2 == 0) = decide (n.val / 4 = 0)) ∧
      (((~~~((BitVec.ofNat 64 n.val &&& 2) >>> 1)) &&& 1 == 1) =
        decide (n.val / 2 % 2 = 0)) ∧
      (((~~~((BitVec.ofNat 64 n.val &&& 8) >>> 3)) &&& 1 == 1) =
        decide (n.val / 8 % 2 = 0)) := by
  revert n
  decide

/-- The tests on the nibble at `b` are window tests like the ones before. -/
theorem nibble_windows (v : Udatatype) (b : Nat) :
    let val4 := selectRange v (b + 3) b
    ((val4 >>> 2 == 0) = (selectRange v (b + 2 + 2 - 1) (b + 2) == 0)) ∧
      (((~~~((val4 &&& 2) >>> 1)) &&& 1 == 1) = (selectRange v (b + 1 + 1 - 1) (b + 1) == 0)) ∧
      (((~~~((val4 &&& 8) >>> 3)) &&& 1 == 1) =
        (selectRange v (b + 2 + 1 + 1 - 1) (b + 2 + 1) == 0)) := by
  intro val4
  obtain ⟨n, hn⟩ : ∃ n, n = v.toNat / 2 ^ b := ⟨_, rfl⟩
  have hval : val4 = BitVec.ofNat 64 (n % 16) := by
    apply BitVec.eq_of_toNat_eq
    rw [toNat_selectRange, ← hn, BitVec.toNat_ofNat, show b + 3 - b + 1 = 4 by omega]
    omega
  have hdiv : ∀ k, v.toNat / 2 ^ (b + k) = n / 2 ^ k := by
    intro k
    rw [hn, Nat.div_div_eq_div_mul, Nat.pow_add]
  obtain ⟨h4, h2, h8⟩ := nibble_tests ⟨n % 16, Nat.mod_lt _ (by decide)⟩
  have e2 : b + 2 + 2 - 1 - (b + 2) + 1 = 2 := by omega
  have e1 : b + 1 + 1 - 1 - (b + 1) + 1 = 1 := by omega
  have e3 : b + 2 + 1 + 1 - 1 - (b + 2 + 1) + 1 = 1 := by omega
  simp only [selectRange_eq_zero_iff, hval, e1, e2, e3]
  rw [h4, h2, h8, Nat.add_assoc b 2 1, hdiv, hdiv, hdiv]
  simp only [Nat.reducePow, Nat.reduceAdd]
  refine ⟨decide_eq_decide.mpr ?_, decide_eq_decide.mpr ?_, decide_eq_decide.mpr ?_⟩ <;> omega

/-- A nibble of a byte is a nibble of the word. -/
theorem selectRange_shift_and_15 (v : Udatatype) (b s : Nat) (hs : s ≤ 4) :
    (selectRange v (b + 7) b >>> s) &&& 15 = selectRange v (b + s + 3) (b + s) := by
  apply BitVec.eq_of_toNat_eq
  have h15 : (15 : Udatatype).toNat = 2 ^ 4 - 1 := by decide
  rw [BitVec.toNat_and, h15, Nat.and_two_pow_sub_one_eq_mod, BitVec.toNat_ushiftRight,
    Nat.shiftRight_eq_div_pow, toNat_selectRange, toNat_selectRange,
    show b + 7 - b + 1 = s + (8 - s) by omega, show b + s + 3 - (b + s) + 1 = 4 by omega,
    Nat.pow_add 2 s, Nat.mod_mul_right_div_self, Nat.div_div_eq_div_mul, ← Nat.pow_add]
  exact Nat.mod_mod_of_dvd _ (Nat.pow_dvd_pow 2 (by omega))

/-- The six tests on a word locate its top bit. -/
theorem clzTests_count {v val8 val4 : Udatatype} {r5 r4 r3 r2 r1 r0 : Bool} (hv : 0 < v.toNat)
    (hr5 : r5 = (selectRange v 63 32 == 0))
    (hr4 : r4 = ((if r5 then selectRange v 31 16 else selectRange v 63 48) == 0))
    (hr3 : r3 = ((if r4 then (if r5 then selectRange v 15 8 else selectRange v 47 40)
      else (if r5 then selectRange v 31 24 else selectRange v 63 56)) == 0))
    (hr2 : r2 = ((if r3 then
        (if r4 then (if r5 then selectRange v 7 4 else selectRange v 39 36)
        else (if r5 then selectRange v 23 20 else selectRange v 55 52))
      else
        (if r4 then (if r5 then selectRange v 15 12 else selectRange v 47 44)
        else (if r5 then selectRange v 31 28 else selectRange v 63 60))) == 0))
    (hval8 : val8 = if r3 then
        (if r4 then (if r5 then selectRange v 7 0 else selectRange v 39 32)
        else (if r5 then selectRange v 23 16 else selectRange v 55 48))
      else
        (if r4 then (if r5 then selectRange v 15 8 else selectRange v 47 40)
        else (if r5 then selectRange v 31 24 else selectRange v 63 56)))
    (hval4 : val4 = if r2 then val8 &&& 15 else (val8 >>> 4) &&& 15)
    (hr1 : r1 = (val4 >>> 2 == 0))
    (hr0 : r0 = if r1 then (~~~((val4 &&& 2) >>> 1)) &&& 1 == 1
      else (~~~((val4 &&& 8) >>> 3)) &&& 1 == 1) :
    Nat.log 2 v.toNat + vectorizeValue [r0, r1, r2, r3, r4, r5] = 63 := by
  have hlog := (Nat.log_lt_iff_lt_pow (b := 2) (by decide) (by omega)).mpr v.isLt
  have h5 : clzBase r5 0 32 ≤ Nat.log 2 v.toNat ∧
      Nat.log 2 v.toNat < clzBase r5 0 32 + 16 + 16 :=
    clzBase_spec hv hr5 (by decide) (Nat.zero_le _) hlog
  -- Each test reads the upper half of the window that the tests before left.
  generalize hb5 : clzBase r5 0 32 = b5 at h5
  have e4 : (if r5 = true then selectRange v 31 16 else selectRange v 63 48) =
      selectRange v (b5 + 16 + 16 - 1) (b5 + 16) := by
    rw [← hb5]; cases r5 <;> rfl
  rw [e4] at hr4
  have h4 := clzBase_spec hv hr4 (by decide) h5.1 h5.2
  generalize hb4 : clzBase r4 b5 16 = b4 at h4
  have e3 : (if r4 = true then if r5 = true then selectRange v 15 8 else selectRange v 47 40
      else if r5 = true then selectRange v 31 24 else selectRange v 63 56) =
      selectRange v (b4 + 8 + 8 - 1) (b4 + 8) := by
    rw [← hb4, ← hb5]; cases r5 <;> cases r4 <;> rfl
  rw [e3] at hr3
  have h3 := clzBase_spec (s := 8) hv hr3 (by decide) h4.1 h4.2
  generalize hb3 : clzBase r3 b4 8 = b3 at h3
  have e2 : (if r3 = true then
        if r4 = true then if r5 = true then selectRange v 7 4 else selectRange v 39 36
        else if r5 = true then selectRange v 23 20 else selectRange v 55 52
      else
        if r4 = true then if r5 = true then selectRange v 15 12 else selectRange v 47 44
        else if r5 = true then selectRange v 31 28 else selectRange v 63 60) =
      selectRange v (b3 + 4 + 4 - 1) (b3 + 4) := by
    rw [← hb3, ← hb4, ← hb5]; cases r5 <;> cases r4 <;> cases r3 <;> rfl
  rw [e2] at hr2
  have e8 : val8 = selectRange v (b3 + 7) b3 := by
    rw [hval8, ← hb3, ← hb4, ← hb5]; cases r5 <;> cases r4 <;> cases r3 <;> rfl
  have h2 := clzBase_spec (s := 4) hv hr2 (by decide) h3.1 h3.2
  generalize hb2 : clzBase r2 b3 4 = b2 at h2
  have eval4 : val4 = selectRange v (b2 + 3) b2 := by
    have h0 := selectRange_shift_and_15 v b3 0 (by decide)
    have h4' := selectRange_shift_and_15 v b3 4 (by decide)
    rw [BitVec.ushiftRight_zero] at h0
    rw [hval4, e8, ← hb2, h0, h4']
    cases r2 <;> rfl
  -- The last nibble is read by masks; they are window tests too.
  obtain ⟨w1, w0, w0'⟩ := nibble_windows v b2
  rw [eval4, w1] at hr1
  rw [eval4, w0, w0'] at hr0
  have h1 := clzBase_spec (s := 2) hv hr1 (by decide) h2.1 h2.2
  generalize hb1 : clzBase r1 b2 2 = b1 at h1
  have e0 : (if r1 = true then selectRange v (b2 + 1 + 1 - 1) (b2 + 1) == 0
      else selectRange v (b2 + 2 + 1 + 1 - 1) (b2 + 2 + 1) == 0) =
      (selectRange v (b1 + 1 + 1 - 1) (b1 + 1) == 0) := by
    rw [← hb1]; cases r1 <;> rfl
  rw [e0] at hr0
  have h0 := clzBase_spec (s := 1) hv hr0 (by decide) h1.1 h1.2
  have hsum : clzBase r0 b1 1 + vectorizeValue [r0, r1, r2, r3, r4, r5] = 63 := by
    rw [← hb1, ← hb2, ← hb3, ← hb4, ← hb5]
    cases r5 <;> cases r4 <;> cases r3 <;> cases r2 <;> cases r1 <;> cases r0 <;> rfl
  omega

/-- A window above all the bits of a word is empty. -/
theorem selectRange_eq_zero_of_lt {v : Udatatype} {low : Nat} (high : Nat) (h : v.toNat < 2 ^ low) :
    (selectRange v high low == 0) = true := by
  rw [selectRange_eq_zero_iff, Nat.div_eq_of_lt h, Nat.zero_mod, decide_eq_true rfl]

/-- A shift moves the top bit. -/
theorem log_mul_two_pow {n : Nat} (hn : 0 < n) (k : Nat) :
    Nat.log 2 (n * 2 ^ k) = Nat.log 2 n + k := by
  induction k with
  | zero => rw [Nat.pow_zero, Nat.mul_one, Nat.add_zero]
  | succ k ih =>
    have hne : n * 2 ^ k ≠ 0 := (Nat.mul_pos hn (Nat.two_pow_pos k)).ne'
    rw [Nat.pow_succ, ← Nat.mul_assoc, Nat.log_mul_base (by decide) hne, ih, Nat.add_assoc]

/-- A number with its top bit moved to the top of `r` bits. -/
theorem shifted_bounds {n r : Nat} (hpos : 0 < n) (hlt : n < 2 ^ r) :
    2 ^ (r - 1) ≤ n * 2 ^ (r - 1 - Nat.log 2 n) ∧
      n * 2 ^ (r - 1 - Nat.log 2 n) < 2 ^ r := by
  have hlog := (Nat.log_lt_iff_lt_pow (b := 2) (by decide) hpos.ne').mpr hlt
  have hpow := (Nat.log_eq_iff (b := 2) (m := Nat.log 2 n) (n := n)
    (.inr ⟨by decide, hpos.ne'⟩)).mp rfl
  have hk := Nat.two_pow_pos (r - 1 - Nat.log 2 n)
  constructor
  · calc 2 ^ (r - 1) = 2 ^ Nat.log 2 n * 2 ^ (r - 1 - Nat.log 2 n) := by
          rw [← Nat.pow_add]; congr 1; omega
      _ ≤ _ := Nat.mul_le_mul_right _ hpow.1
  · calc n * 2 ^ (r - 1 - Nat.log 2 n)
        < 2 ^ (Nat.log 2 n + 1) * 2 ^ (r - 1 - Nat.log 2 n) :=
          Nat.mul_lt_mul_of_pos_right hpow.2 hk
      _ = 2 ^ r := by rw [← Nat.pow_add]; congr 1; omega

/-- The word that the tests look at: the operand at the top of its container of `n` bits. -/
theorem toNat_manIn {manBits n : Nat} {v : Udatatype} (hlt : v.toNat < 2 ^ manBits)
    (hn : manBits ≤ n) (hn64 : n ≤ 64) :
    (valResize (v <<< (n - manBits)) n).toNat = v.toNat * 2 ^ (n - manBits) ∧
      v.toNat * 2 ^ (n - manBits) < 2 ^ n := by
  have hfit : v.toNat * 2 ^ (n - manBits) < 2 ^ n := by
    calc v.toNat * 2 ^ (n - manBits) < 2 ^ manBits * 2 ^ (n - manBits) :=
          Nat.mul_lt_mul_of_pos_right hlt (Nat.two_pow_pos _)
      _ = 2 ^ n := by rw [← Nat.pow_add, Nat.add_sub_cancel' hn]
  have hfit64 : v.toNat * 2 ^ (n - manBits) < 2 ^ 64 :=
    lt_of_lt_of_le hfit (Nat.pow_le_pow_right (by decide) hn64)
  refine ⟨?_, hfit⟩
  rw [toNat_valResize, BitVec.toNat_shiftLeft, Nat.shiftLeft_eq, Nat.mod_eq_of_lt hfit64,
    Nat.mod_eq_of_lt hfit]

theorem valResize_64 (v : Udatatype) : valResize v 64 = v := by
  unfold valResize
  rw [if_neg (by decide)]

/-- The count is the distance of the top bit from the top of the word. -/
theorem countLeadingZeroMacro_eq {manBits : Nat} {v : Udatatype} (hbits : manBits ≤ 64)
    (hlt : v.toNat < 2 ^ manBits) (hv : 0 < v.toNat) :
    countLeadingZeroMacro manBits v = manBits - 1 - Nat.log 2 v.toNat := by
  have hlog := (Nat.log_lt_iff_lt_pow (b := 2) (by decide) (by omega)).mpr hlt
  unfold countLeadingZeroMacro
  dsimp only
  rcases Nat.lt_or_ge 32 manBits with h | h
  · obtain ⟨hin, -⟩ := toNat_manIn hlt hbits (le_refl 64)
    rw [valResize_64] at hin
    have hpos : 0 < (v <<< (64 - manBits)).toNat := by
      rw [hin]
      exact Nat.mul_pos hv (Nat.two_pow_pos _)
    have hcount := clzTests_count hpos rfl rfl rfl rfl rfl rfl rfl rfl
    rw [hin, log_mul_two_pow hv] at hcount
    simp only [if_neg (show ¬ manBits ≤ 32 by omega), decide_eq_false (show ¬ manBits ≤ 32 by omega),
      Bool.false_or]
    omega
  · obtain ⟨hin, hfit⟩ := toNat_manIn hlt h (by decide)
    have hpos : 0 < (valResize (v <<< (32 - manBits)) 32).toNat := by
      rw [hin]
      exact Nat.mul_pos hv (Nat.two_pow_pos _)
    have htop := selectRange_eq_zero_of_lt 63 (lt_of_eq_of_lt hin hfit)
    have hcount := clzTests_count hpos htop.symm rfl rfl rfl rfl rfl rfl rfl
    rw [hin, log_mul_two_pow hv] at hcount
    simp only [if_pos h, decide_eq_true h, Bool.true_or]
    simp only [vectorizeValue, Bool.toNat_true] at hcount ⊢
    omega

/-- `count_leading_zero_lshift_runtime_macro(man_bits, MAN_IN_ORIG, COUNT, SHIFTED)`: `COUNT`,
which has no more bits than it is cut to, and `SHIFTED`. -/
def countLeadingZeroLshiftRuntime (manBits : Nat) (manInOrig : Udatatype) : Nat × Udatatype :=
  let manIn :=
    if manBits ≤ 1 then valResize (manInOrig <<< (1 - manBits)) 1
    else if manBits ≤ 2 then valResize (manInOrig <<< (2 - manBits)) 2
    else if manBits ≤ 4 then valResize (manInOrig <<< (4 - manBits)) 4
    else if manBits ≤ 8 then valResize (manInOrig <<< (8 - manBits)) 8
    else if manBits ≤ 16 then valResize (manInOrig <<< (16 - manBits)) 16
    else if manBits ≤ 32 then valResize (manInOrig <<< (32 - manBits)) 32
    else manInOrig <<< (64 - manBits)
  let resultLshifted := manIn
  let result5 : Bool := manBits ≤ 32 || selectRange manIn 63 32 == 0
  let resultLshifted := if result5 then resultLshifted <<< 32 else resultLshifted
  let result4 : Bool := manBits ≤ 16 ||
    (if result5 then selectRange manIn 31 16 else selectRange manIn 63 48) == 0
  let resultLshifted := if result4 then resultLshifted <<< 16 else resultLshifted
  let result3 : Bool := manBits ≤ 8 ||
    (if result4 then
      (if result5 then selectRange manIn 15 8 else selectRange manIn 47 40)
    else
      (if result5 then selectRange manIn 31 24 else selectRange manIn 63 56)) == 0
  let resultLshifted := if result3 then resultLshifted <<< 8 else resultLshifted
  let result2 : Bool := manBits ≤ 4 ||
    (if result3 then
      (if result4 then
        (if result5 then selectRange manIn 7 4 else selectRange manIn 39 36)
      else
        (if result5 then selectRange manIn 23 20 else selectRange manIn 55 52))
    else
      (if result4 then
        (if result5 then selectRange manIn 15 12 else selectRange manIn 47 44)
      else
        (if result5 then selectRange manIn 31 28 else selectRange manIn 63 60))) == 0
  let resultLshifted := if result2 then resultLshifted <<< 4 else resultLshifted
  let val8 :=
    if result3 then
      (if result4 then
        (if result5 then selectRange manIn 7 0 else selectRange manIn 39 32)
      else
        (if result5 then selectRange manIn 23 16 else selectRange manIn 55 48))
    else
      (if result4 then
        (if result5 then selectRange manIn 15 8 else selectRange manIn 47 40)
      else
        (if result5 then selectRange manIn 31 24 else selectRange manIn 63 56))
  let val4 := if result2 then val8 &&& 15 else (val8 >>> 4) &&& 15
  let result1 : Bool := manBits ≤ 2 || val4 >>> 2 == 0
  let resultLshifted := if result1 then resultLshifted <<< 2 else resultLshifted
  let result0 : Bool :=
    if manBits ≤ 1 || result1 then (~~~((val4 &&& 2) >>> 1)) &&& 1 == 1
    else (~~~((val4 &&& 8) >>> 3)) &&& 1 == 1
  let resultLshifted := if result0 then resultLshifted <<< 1 else resultLshifted
  let count :=
    if manBits ≤ 1 then 0
    else if manBits ≤ 2 then vectorizeValue [result0]
    else if manBits ≤ 4 then vectorizeValue [result0, result1]
    else if manBits ≤ 8 then vectorizeValue [result0, result1, result2]
    else if manBits ≤ 16 then vectorizeValue [result0, result1, result2, result3]
    else if manBits ≤ 32 then vectorizeValue [result0, result1, result2, result3, result4]
    else vectorizeValue [result0, result1, result2, result3, result4, result5]
  (count, resultLshifted >>> (64 - manBits))

/-- The container of an operand: the least power of two from two on. -/
theorem exists_container {manBits : Nat} (h2 : 2 ≤ manBits) (h64 : manBits ≤ 64) {v : Udatatype}
    (hlt : v.toNat < 2 ^ manBits) :
    ∃ n, manBits ≤ n ∧ n ≤ 64 ∧ (manBits ≤ 2 → n = 2) ∧ (2 < manBits → manBits ≤ 4 → n = 4) ∧
      (4 < manBits → manBits ≤ 8 → n = 8) ∧ (8 < manBits → manBits ≤ 16 → n = 16) ∧
      (16 < manBits → manBits ≤ 32 → n = 32) ∧ (32 < manBits → n = 64) ∧
      (if manBits ≤ 1 then valResize (v <<< (1 - manBits)) 1
        else if manBits ≤ 2 then valResize (v <<< (2 - manBits)) 2
        else if manBits ≤ 4 then valResize (v <<< (4 - manBits)) 4
        else if manBits ≤ 8 then valResize (v <<< (8 - manBits)) 8
        else if manBits ≤ 16 then valResize (v <<< (16 - manBits)) 16
        else if manBits ≤ 32 then valResize (v <<< (32 - manBits)) 32
        else v <<< (64 - manBits)).toNat = v.toNat * 2 ^ (n - manBits) ∧
      v.toNat * 2 ^ (n - manBits) < 2 ^ n := by
  rw [if_neg (show ¬ manBits ≤ 1 by omega)]
  split
  · exact ⟨2, by omega, by omega, by omega, by omega, by omega, by omega, by omega, by omega,
      toNat_manIn hlt (by omega) (by omega)⟩
  split
  · exact ⟨4, by omega, by omega, by omega, by omega, by omega, by omega, by omega, by omega,
      toNat_manIn hlt (by omega) (by omega)⟩
  split
  · exact ⟨8, by omega, by omega, by omega, by omega, by omega, by omega, by omega, by omega,
      toNat_manIn hlt (by omega) (by omega)⟩
  split
  · exact ⟨16, by omega, by omega, by omega, by omega, by omega, by omega, by omega, by omega,
      toNat_manIn hlt (by omega) (by omega)⟩
  split
  · exact ⟨32, by omega, by omega, by omega, by omega, by omega, by omega, by omega, by omega,
      toNat_manIn hlt (by omega) (by omega)⟩
  · obtain ⟨hin, hfit⟩ := toNat_manIn hlt h64 (le_refl 64)
    rw [valResize_64] at hin
    exact ⟨64, by omega, by omega, by omega, by omega, by omega, by omega, by omega, by omega, hin,
      hfit⟩

/-- A test that the width forces agrees with the test. -/
theorem forced_test {p : Prop} [Decidable p] {t : Bool} (h : p → t = true) :
    (decide p || t) = t := by
  by_cases hp : p
  · rw [h hp, Bool.or_true]
  · rw [decide_eq_false hp, Bool.false_or]

theorem cond_shiftLeft (r : Bool) (v : Udatatype) (s : Nat) :
    (if r then v <<< s else v) = v <<< (r.toNat * s) := by
  cases r with
  | false => rw [Bool.toNat_false, Nat.zero_mul, BitVec.shiftLeft_zero]; rfl
  | true => rw [Bool.toNat_true, Nat.one_mul, if_pos rfl]

/-- The shifts past the six windows, in one. -/
theorem windowShifts_eq (w : Udatatype) (r5 r4 r3 r2 r1 r0 : Bool) :
    (let w5 := if r5 then w <<< 32 else w
    let w4 := if r4 then w5 <<< 16 else w5
    let w3 := if r3 then w4 <<< 8 else w4
    let w2 := if r2 then w3 <<< 4 else w3
    let w1 := if r1 then w2 <<< 2 else w2
    if r0 then w1 <<< 1 else w1) = w <<< vectorizeValue [r0, r1, r2, r3, r4, r5] := by
  dsimp only
  rw [cond_shiftLeft, cond_shiftLeft, cond_shiftLeft, cond_shiftLeft, cond_shiftLeft,
    cond_shiftLeft, ← BitVec.shiftLeft_add, ← BitVec.shiftLeft_add, ← BitVec.shiftLeft_add,
    ← BitVec.shiftLeft_add, ← BitVec.shiftLeft_add]
  congr 1
  simp only [vectorizeValue]
  ring

/-- The tests of the macro: those that the width decides hold, and all of them locate
the top bit. -/
theorem runtimeTests {manBits n : Nat} {w : Udatatype} (hn2 : manBits ≤ 2 → n = 2)
    (hn : ∀ k, k ∈ [2, 4, 8, 16, 32] → manBits ≤ k → n ≤ k) (hfit : w.toNat < 2 ^ n)
    (hw : 0 < w.toNat) {r5 r4 r3 r2 r1 r0 : Bool} {val8 val4 : Udatatype}
    (hr5 : r5 = (decide (manBits ≤ 32) || selectRange w 63 32 == 0))
    (hr4 : r4 = (decide (manBits ≤ 16) ||
      (if r5 then selectRange w 31 16 else selectRange w 63 48) == 0))
    (hr3 : r3 = (decide (manBits ≤ 8) ||
      (if r4 then (if r5 then selectRange w 15 8 else selectRange w 47 40)
      else (if r5 then selectRange w 31 24 else selectRange w 63 56)) == 0))
    (hr2 : r2 = (decide (manBits ≤ 4) || (if r3 then
        (if r4 then (if r5 then selectRange w 7 4 else selectRange w 39 36)
        else (if r5 then selectRange w 23 20 else selectRange w 55 52))
      else
        (if r4 then (if r5 then selectRange w 15 12 else selectRange w 47 44)
        else (if r5 then selectRange w 31 28 else selectRange w 63 60))) == 0))
    (hval8 : val8 = if r3 then
        (if r4 then (if r5 then selectRange w 7 0 else selectRange w 39 32)
        else (if r5 then selectRange w 23 16 else selectRange w 55 48))
      else
        (if r4 then (if r5 then selectRange w 15 8 else selectRange w 47 40)
        else (if r5 then selectRange w 31 24 else selectRange w 63 56)))
    (hval4 : val4 = if r2 then val8 &&& 15 else (val8 >>> 4) &&& 15)
    (hr1 : r1 = (decide (manBits ≤ 2) || val4 >>> 2 == 0))
    (hr0 : r0 = if r1 then (~~~((val4 &&& 2) >>> 1)) &&& 1 == 1
      else (~~~((val4 &&& 8) >>> 3)) &&& 1 == 1) :
    Nat.log 2 w.toNat + vectorizeValue [r0, r1, r2, r3, r4, r5] = 63 ∧
      (manBits ≤ 32 → r5 = true) ∧ (manBits ≤ 16 → r4 = true) ∧ (manBits ≤ 8 → r3 = true) ∧
      (manBits ≤ 4 → r2 = true) ∧ (manBits ≤ 2 → r1 = true) := by
  have hempty : ∀ k high, n ≤ k → (selectRange w high k == 0) = true := by
    intro k high hk
    exact selectRange_eq_zero_of_lt high
      (lt_of_lt_of_le hfit (Nat.pow_le_pow_right (by decide) hk))
  have forced : ∀ {k r} {t : Bool}, r = (decide (manBits ≤ k) || t) → manBits ≤ k → r = true := by
    intro k r t h hk
    rw [h, decide_eq_true hk, Bool.true_or]
  have t5 := forced hr5
  have t4 := forced hr4
  have t3 := forced hr3
  have t2 := forced hr2
  have t1 := forced hr1
  -- Where the width decides a test, the windows that the test looks at are empty.
  rw [forced_test fun h => hempty 32 63 (hn 32 (by decide) h)] at hr5
  rw [forced_test fun h => by
    rw [if_pos (t5 (by omega))]
    exact hempty 16 31 (hn 16 (by decide) h)] at hr4
  rw [forced_test fun h => by
    rw [if_pos (t4 (by omega)), if_pos (t5 (by omega))]
    exact hempty 8 15 (hn 8 (by decide) h)] at hr3
  rw [forced_test fun h => by
    rw [if_pos (t3 (by omega)), if_pos (t4 (by omega)), if_pos (t5 (by omega))]
    exact hempty 4 7 (hn 4 (by decide) h)] at hr2
  have hnibble : manBits ≤ 2 → (val4 >>> 2 == 0) = true := by
    intro h
    have hwlt : w.toNat < 4 := by
      rw [hn2 h] at hfit
      exact hfit
    rw [hval4, if_pos (t2 (by omega)), hval8, if_pos (t3 (by omega)), if_pos (t4 (by omega)),
      if_pos (t5 (by omega)), beq_iff_eq, ← BitVec.toNat_inj, BitVec.toNat_ushiftRight,
      Nat.shiftRight_eq_div_pow]
    refine Nat.div_eq_of_lt (lt_of_le_of_lt ?_ hwlt)
    rw [BitVec.toNat_and, toNat_selectRange]
    refine le_trans Nat.and_le_left (le_trans (Nat.mod_le _ _) ?_)
    rw [Nat.pow_zero, Nat.div_one]
  rw [forced_test hnibble] at hr1
  exact ⟨clzTests_count hw hr5 hr4 hr3 hr2 hval8 hval4 hr1 hr0, t5, t4, t3, t2, t1⟩

/-- The count and the operand with its top bit shifted to the top of its width. -/
theorem countLeadingZeroLshiftRuntime_spec {manBits : Nat} {v : Udatatype} (h2 : 2 ≤ manBits)
    (h64 : manBits ≤ 64) (hlt : v.toNat < 2 ^ manBits) (hv : 0 < v.toNat) :
    (countLeadingZeroLshiftRuntime manBits v).1 = manBits - 1 - Nat.log 2 v.toNat ∧
      (countLeadingZeroLshiftRuntime manBits v).2.toNat =
        v.toNat * 2 ^ (manBits - 1 - Nat.log 2 v.toNat) := by
  have hlog := (Nat.log_lt_iff_lt_pow (b := 2) (by decide) (by omega)).mpr hlt
  obtain ⟨n, hmn, hn64, hn2, hn4, hn8, hn16, hn32, hn64', hin, hfit⟩ :=
    exists_container h2 h64 hlt
  unfold countLeadingZeroLshiftRuntime
  dsimp only
  generalize (if manBits ≤ 1 then valResize (v <<< (1 - manBits)) 1
    else if manBits ≤ 2 then valResize (v <<< (2 - manBits)) 2
    else if manBits ≤ 4 then valResize (v <<< (4 - manBits)) 4
    else if manBits ≤ 8 then valResize (v <<< (8 - manBits)) 8
    else if manBits ≤ 16 then valResize (v <<< (16 - manBits)) 16
    else if manBits ≤ 32 then valResize (v <<< (32 - manBits)) 32
    else v <<< (64 - manBits)) = w at *
  have hw : 0 < w.toNat := hin ▸ Nat.mul_pos hv (Nat.two_pow_pos _)
  have hwlog : Nat.log 2 w.toNat = Nat.log 2 v.toNat + (n - manBits) := by
    rw [hin, log_mul_two_pow hv]
  have hle : ∀ k, k ∈ [2, 4, 8, 16, 32] → manBits ≤ k → n ≤ k := by
    intro k hk
    simp only [List.mem_cons, List.not_mem_nil, or_false] at hk
    omega
  generalize hr5 : (decide (manBits ≤ 32) || selectRange w 63 32 == 0) = r5
  generalize hr4 : (decide (manBits ≤ 16) ||
    (if r5 = true then selectRange w 31 16 else selectRange w 63 48) == 0) = r4
  generalize hr3 : (decide (manBits ≤ 8) ||
    (if r4 = true then if r5 = true then selectRange w 15 8 else selectRange w 47 40
    else if r5 = true then selectRange w 31 24 else selectRange w 63 56) == 0) = r3
  generalize hr2 : (decide (manBits ≤ 4) || (if r3 = true then
      if r4 = true then if r5 = true then selectRange w 7 4 else selectRange w 39 36
      else if r5 = true then selectRange w 23 20 else selectRange w 55 52
    else
      if r4 = true then if r5 = true then selectRange w 15 12 else selectRange w 47 44
      else if r5 = true then selectRange w 31 28 else selectRange w 63 60) == 0) = r2
  generalize hval8 : (if r3 = true then
      if r4 = true then if r5 = true then selectRange w 7 0 else selectRange w 39 32
      else if r5 = true then selectRange w 23 16 else selectRange w 55 48
    else
      if r4 = true then if r5 = true then selectRange w 15 8 else selectRange w 47 40
      else if r5 = true then selectRange w 31 24 else selectRange w 63 56) = val8
  generalize hval4 : (if r2 = true then val8 &&& 15 else val8 >>> 4 &&& 15) = val4
  generalize hr1 : (decide (manBits ≤ 2) || val4 >>> 2 == 0) = r1
  rw [decide_eq_false (show ¬ manBits ≤ 1 by omega), Bool.false_or]
  generalize hr0 : (if r1 = true then (~~~((val4 &&& 2) >>> 1)) &&& 1 == 1
    else (~~~((val4 &&& 8) >>> 3)) &&& 1 == 1) = r0
  obtain ⟨hcount, t5, t4, t3, t2, t1⟩ := runtimeTests hn2 hle (lt_of_eq_of_lt hin hfit) hw hr5.symm
    hr4.symm hr3.symm hr2.symm hval8.symm hval4.symm hr1.symm hr0.symm
  rw [hwlog] at hcount
  clear hr5 hr4 hr3 hr2 hval8 hval4 hr1 hr0
  constructor
  · -- The tests that the count leaves out are those that the width decides.
    rw [if_neg (show ¬ manBits ≤ 1 by omega)]
    simp only [vectorizeValue] at hcount ⊢
    split
    · rename_i h2'
      have hn := hn2 h2'
      clear hn2 hn4 hn8 hn16 hn32 hn64'
      rw [t1 (by omega), t2 (by omega), t3 (by omega), t4 (by omega), t5 (by omega)] at hcount
      simp only [Bool.toNat_true] at hcount
      omega
    split
    · rename_i h2' h4
      have hn := hn4 (not_le.mp h2') h4
      clear hn2 hn4 hn8 hn16 hn32 hn64'
      rw [t2 (by omega), t3 (by omega), t4 (by omega), t5 (by omega)] at hcount
      simp only [Bool.toNat_true] at hcount
      omega
    split
    · rename_i h2' h4 h8
      have hn := hn8 (not_le.mp h4) h8
      clear hn2 hn4 hn8 hn16 hn32 hn64'
      rw [t3 (by omega), t4 (by omega), t5 (by omega)] at hcount
      simp only [Bool.toNat_true] at hcount
      omega
    split
    · rename_i h2' h4 h8 h16
      have hn := hn16 (not_le.mp h8) h16
      clear hn2 hn4 hn8 hn16 hn32 hn64'
      rw [t4 (by omega), t5 (by omega)] at hcount
      simp only [Bool.toNat_true] at hcount
      omega
    split
    · rename_i h2' h4 h8 h16 h32
      have hn := hn32 (not_le.mp h16) h32
      clear hn2 hn4 hn8 hn16 hn32 hn64'
      rw [t5 (by omega)] at hcount
      simp only [Bool.toNat_true] at hcount
      omega
    · rename_i h32
      have hn := hn64' (not_le.mp h32)
      clear hn2 hn4 hn8 hn16 hn32 hn64'
      omega
  · clear hn2 hn4 hn8 hn16 hn32 hn64'
    obtain ⟨c, hc⟩ : ∃ c, c = vectorizeValue [r0, r1, r2, r3, r4, r5] := ⟨_, rfl⟩
    have hshift := windowShifts_eq w r5 r4 r3 r2 r1 r0
    dsimp only at hshift
    rw [← hc] at hcount hshift
    have hpow := (Nat.log_eq_iff (b := 2) (m := Nat.log 2 w.toNat) (n := w.toNat)
      (.inr ⟨by decide, hw.ne'⟩)).mp rfl
    have hfit64 : w.toNat * 2 ^ c < 2 ^ 64 := by
      calc w.toNat * 2 ^ c < 2 ^ (Nat.log 2 w.toNat + 1) * 2 ^ c :=
            Nat.mul_lt_mul_of_pos_right hpow.2 (Nat.two_pow_pos _)
        _ = 2 ^ 64 := by rw [← Nat.pow_add, hwlog]; congr 1; omega
    rw [hshift, BitVec.toNat_ushiftRight, Nat.shiftRight_eq_div_pow, BitVec.toNat_shiftLeft,
      Nat.shiftLeft_eq, Nat.mod_eq_of_lt hfit64, hin]
    refine Nat.div_eq_of_eq_mul_left (Nat.two_pow_pos _) ?_
    rw [Nat.mul_assoc, Nat.mul_assoc, ← Nat.pow_add, ← Nat.pow_add]
    congr 2
    omega

end Bambu.Libbambu
