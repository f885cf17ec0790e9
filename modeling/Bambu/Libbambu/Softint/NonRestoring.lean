/-
  Bambu.Libbambu.Softint.NonRestoring

  The non-restoring divider of `common_core_nonrestoring_sdiv.h`.  The partial
  remainder is a word of `DIV_NUM_BIT` bits with a separate sign bit; each pass
  of the loop shifts in one bit of the dividend and adds or subtracts the divisor,
  and a last correction gives the remainder the sign of the dividend.
-/

import Bambu.Libbambu.Softint.Common
import Mathlib.Data.Int.ModEq
import Mathlib.Tactic.Linarith
import Mathlib.Tactic.LinearCombination

namespace Bambu.Libbambu.Softint

/-- A `bool` that is assigned a selected bit. -/
def selectBool (v : Udatatype) (bit : Nat) : Bool := selectBit v bit == 1

/-- A `bool` used as a word. -/
def boolWord (b : Bool) : Udatatype := (BitVec.ofBool b).setWidth 64

/-- The divisor and its complement, each a word with a separate sign. -/
structure Divisor where
  plusDivisor : Udatatype
  plusDivisorSign : Bool
  minusDivisor : Udatatype
  minusDivisorSign : Bool

/-- The variables the loop carries from one pass to the next. -/
structure DivState where
  partialRemainderSign : Bool
  partialRemainderH : Udatatype
  partialRemainderL : Udatatype
  res : Udatatype

/-- The adder of `LOOP_BODY`, for `DIV_NUM_BIT = n`: the sum of two words of `n`
bits with separate signs, as the new sign and the new word. -/
def signedSum (n : Nat) (w : Udatatype) (wSign : Bool) (h : Udatatype) (hSign : Bool)
    (carryInput : Bool) : Bool × Udatatype :=
  let m1 := n - 1
  let sumResult := valResize w m1 + valResize h m1 + boolWord carryInput
  let sumResultMsb := selectBool sumResult m1 ^^ selectBool w m1 ^^ selectBool h m1
  let sumResultCarry :=
    (selectBool sumResult m1 && selectBool w m1) || (selectBool w m1 && selectBool h m1) ||
      (selectBool sumResult m1 && selectBool h m1)
  let sumResultSign := wSign ^^ hSign ^^ sumResultCarry
  (sumResultSign, (boolWord sumResultMsb <<< m1) ||| valResize sumResult m1)

/-- `LOOP_BODY`. -/
def loopBody (n : Nat) (d : Divisor) (s : DivState) : DivState :=
  let m1 := n - 1
  let divisorSelect := s.partialRemainderSign ^^ d.plusDivisorSign
  let carryInput := !divisorSelect
  let w := if divisorSelect then d.plusDivisor else d.minusDivisor
  let wSign := if divisorSelect then d.plusDivisorSign else d.minusDivisorSign
  let partialRemainderSign := selectBool s.partialRemainderH m1
  let partialRemainderH :=
    (valResize s.partialRemainderH m1 <<< 1) ||| selectBit s.partialRemainderL m1
  let partialRemainderL := valResize (s.partialRemainderL <<< 1) n
  let sum := signedSum n w wSign partialRemainderH partialRemainderSign carryInput
  { partialRemainderSign := sum.1
    partialRemainderH := sum.2
    partialRemainderL := partialRemainderL
    res := valResize ((s.res <<< 1) ||| boolWord (sum.1 ^^ d.minusDivisorSign)) n }

/-- The words the loop starts from: `a` with its sign extension in the upper word. -/
def initialState (n : Nat) (a : BitVec 64) (signedDiv : Bool) : DivState :=
  let partialRemainderSign :=
    if n < 64 then a.slt 0 && signedDiv else selectBool a (n - 1) && signedDiv
  { partialRemainderSign := partialRemainderSign
    partialRemainderH :=
      if n < 64 then valResize (a.sshiftRight n) n
      else (boolWord partialRemainderSign <<< (n - 1)).sshiftRight (n - 1)
    partialRemainderL := valResize a n
    res := 0 }

/-- `plus_divisor`, `minus_divisor` and their signs. -/
def divisorOf (n : Nat) (b : BitVec 64) (signedDiv : Bool) : Divisor :=
  let plusDivisor := valResize b n
  let minusDivisor := valResize (~~~b) n
  { plusDivisor := plusDivisor
    plusDivisorSign := selectBool plusDivisor (n - 1) && signedDiv
    minusDivisor := minusDivisor
    minusDivisorSign := selectBool minusDivisor (n - 1) || !signedDiv }

/-- What follows the loop: the quotient's last increment and the remainder's
correction, from the loop's words and the dividend's sign. -/
def finalCorrection (n : Nat) (d : Divisor) (signA : Bool) (s : DivState) :
    BitVec 64 × BitVec 64 :=
  let prSign := s.partialRemainderSign
  let divisorSelect :=
    if signA && prSign then d.minusDivisorSign else d.minusDivisorSign ^^ signA
  let carryInput := !divisorSelect
  let w := if divisorSelect then d.plusDivisor else d.minusDivisor
  let partialRemainder := valResize (s.partialRemainderH + w + boolWord carryInput) n
  let remNul := s.partialRemainderH == 0
  let remNulAfter := partialRemainder == 0
  let plusOne :=
    (d.plusDivisorSign && !signA) || (!prSign && d.plusDivisorSign && remNul) ||
      (!prSign && !d.plusDivisorSign && signA && !remNul) ||
      (!d.plusDivisorSign && signA && !remNul && !remNulAfter) ||
      (prSign && d.plusDivisorSign && signA && !remNul && remNulAfter)
  let remCorrection := (!remNul && (prSign ^^ signA)) || (prSign && signA && remNulAfter)
  let partialRemainderH := if remCorrection then partialRemainder else s.partialRemainderH
  (s.res + boolWord plusOne, partialRemainderH)

/-- `non_restoring_sdiv(a, b, rem, signed_div)` for `DIV_NUM_BIT = n` and
`UNROLL_FACTOR = unroll`: the result and what is left in `rem`. -/
def nonRestoringSdiv (n unroll : Nat) (a b : BitVec 64) (signedDiv : Bool) :
    BitVec 64 × BitVec 64 :=
  let s := initialState n a signedDiv
  let d := divisorOf n b signedDiv
  let signA := s.partialRemainderSign
  -- Each pass of the loop holds `unroll` copies of the body.
  let s := ((loopBody n d)^[unroll])^[n / unroll] s
  finalCorrection n d signA s

/-! ## Bits and words as numbers -/

@[simp] theorem toNat_boolWord (b : Bool) : (boolWord b).toNat = b.toNat := by
  cases b <;> rfl

theorem toNat_selectBool (v : Udatatype) (bit : Nat) :
    (selectBool v bit).toNat = v.toNat / 2 ^ bit % 2 := by
  have hbit := toNat_selectBit v bit
  unfold selectBool
  rcases Nat.mod_two_eq_zero_or_one (v.toNat / 2 ^ bit) with h | h
  · rw [h] at hbit ⊢
    rw [BitVec.eq_of_toNat_eq (y := 0) hbit]
    rfl
  · rw [h] at hbit ⊢
    rw [BitVec.eq_of_toNat_eq (y := 1) hbit]
    rfl

/-- A word of `n` bits with a sign above them, in two's complement. -/
def signedValue (n : Nat) (sign : Bool) (v : Udatatype) : Int :=
  v.toNat - sign.toNat * 2 ^ n

/-- The hand-written adder: `T` is the weight of the top bit of the words `w` and
`h`, and the sum of their lower parts leaves its carry in the place of that bit. -/
theorem adder_spec {T w h ci : Nat} (hT : 0 < T) (hw : w < T * 2) (hh : h < T * 2) (hci : ci ≤ 1)
    {st wt ht : Bool} (hst : st.toNat = (w % T + h % T + ci) / T % 2) (hwt : wt.toNat = w / T % 2)
    (hht : ht.toNat = h / T % 2) :
    (st ^^ wt ^^ ht).toNat * T + (w % T + h % T + ci) % T +
      T * 2 * ((st && wt) || (wt && ht) || (st && ht)).toNat = w + h + ci := by
  have hwl : w % T < T := Nat.mod_lt _ hT
  have hhl : h % T < T := Nat.mod_lt _ hT
  have hwdiv : w / T < 2 := Nat.div_lt_of_lt_mul hw
  have hhdiv : h / T < 2 := Nat.div_lt_of_lt_mul hh
  have hsdiv : (w % T + h % T + ci) / T < 2 := Nat.div_lt_of_lt_mul (by omega)
  rw [Nat.mod_eq_of_lt hwdiv] at hwt
  rw [Nat.mod_eq_of_lt hhdiv] at hht
  rw [Nat.mod_eq_of_lt hsdiv] at hst
  have ew := Nat.div_add_mod w T
  have eh := Nat.div_add_mod h T
  have es := Nat.div_add_mod (w % T + h % T + ci) T
  rw [← hwt] at ew
  rw [← hht] at eh
  rw [← hst] at es
  cases st <;> cases wt <;> cases ht <;>
    simp only [Bool.toNat_false, Bool.toNat_true, Nat.mul_zero, Nat.mul_one, Bool.xor_false,
      Bool.xor_true, Bool.not_false, Bool.not_true, Bool.and_true, Bool.and_false, Bool.or_false,
      Bool.or_true] at ew eh es ⊢ <;> omega

theorem pow_eq_double {n : Nat} (hn : 0 < n) : 2 ^ n = 2 ^ (n - 1) * 2 := by
  rw [← Nat.pow_succ, Nat.succ_eq_add_one, Nat.sub_add_cancel hn]

/-- The adder adds, modulo the width with its sign. -/
theorem signedSum_spec {n : Nat} (hn : 0 < n) (h64 : n ≤ 64) {w h : Udatatype}
    (hw : w.toNat < 2 ^ n) (hh : h.toNat < 2 ^ n) (ws hs ci : Bool) :
    (signedSum n w ws h hs ci).2.toNat < 2 ^ n ∧
      ∃ k : Int, signedValue n (signedSum n w ws h hs ci).1 (signedSum n w ws h hs ci).2 =
        signedValue n hs h + signedValue n ws w + ci.toNat + k * (2 * 2 ^ n) := by
  have hdouble := pow_eq_double hn
  have hle64 : 2 ^ n ≤ 2 ^ 64 := Nat.pow_le_pow_right (by decide) h64
  obtain ⟨T, hT⟩ : ∃ T, T = 2 ^ (n - 1) := ⟨_, rfl⟩
  have hTpos : 0 < T := hT ▸ Nat.two_pow_pos _
  rw [← hT] at hdouble
  have hci : ci.toNat ≤ 1 := Bool.toNat_le ci
  have hwl : w.toNat % T < T := Nat.mod_lt _ hTpos
  have hhl : h.toNat % T < T := Nat.mod_lt _ hTpos
  have hsum : (valResize w (n - 1) + valResize h (n - 1) + boolWord ci).toNat =
      w.toNat % T + h.toNat % T + ci.toNat := by
    rw [BitVec.toNat_add, BitVec.toNat_add, toNat_valResize, toNat_valResize, toNat_boolWord,
      ← hT, Nat.mod_eq_of_lt (a := w.toNat % T + h.toNat % T) (by omega)]
    exact Nat.mod_eq_of_lt (by omega)
  have hst := toNat_selectBool (valResize w (n - 1) + valResize h (n - 1) + boolWord ci) (n - 1)
  have hwt := toNat_selectBool w (n - 1)
  have hht := toNat_selectBool h (n - 1)
  rw [hsum, ← hT] at hst
  rw [← hT] at hwt hht
  have hadd := adder_spec hTpos (by omega) (by omega) hci hst hwt hht
  have hres : (signedSum n w ws h hs ci).2.toNat =
      (selectBool (valResize w (n - 1) + valResize h (n - 1) + boolWord ci) (n - 1) ^^
        selectBool w (n - 1) ^^ selectBool h (n - 1)).toNat * T +
        (w.toNat % T + h.toNat % T + ci.toNat) % T := by
    have hlow : (w.toNat % T + h.toNat % T + ci.toNat) % T < T := Nat.mod_lt _ hTpos
    have hmsb := Bool.toNat_le (selectBool (valResize w (n - 1) + valResize h (n - 1) +
      boolWord ci) (n - 1) ^^ selectBool w (n - 1) ^^ selectBool h (n - 1))
    have htop := Nat.mul_le_mul_right T hmsb
    unfold signedSum
    dsimp only
    rw [toNat_shift_or (by omega) (by rw [toNat_valResize]; exact Nat.mod_lt _ (Nat.two_pow_pos _)),
      toNat_valResize, hsum, toNat_boolWord, ← hT, Nat.mod_eq_of_lt (by omega)]
  rw [← hres] at hadd
  refine ⟨?_, ?_⟩
  · have hlow : (w.toNat % T + h.toNat % T + ci.toNat) % T < T := Nat.mod_lt _ hTpos
    have hmsb := Bool.toNat_le (selectBool (valResize w (n - 1) + valResize h (n - 1) +
      boolWord ci) (n - 1) ^^ selectBool w (n - 1) ^^ selectBool h (n - 1))
    have htop := Nat.mul_le_mul_right T hmsb
    rw [hres]
    omega
  · -- The sign is the parity of the carry and the two signs.
    have hsign : (signedSum n w ws h hs ci).1 = (ws ^^ hs ^^
        ((selectBool (valResize w (n - 1) + valResize h (n - 1) + boolWord ci) (n - 1) &&
          selectBool w (n - 1)) || (selectBool w (n - 1) && selectBool h (n - 1)) ||
          (selectBool (valResize w (n - 1) + valResize h (n - 1) + boolWord ci) (n - 1) &&
          selectBool h (n - 1)))) := rfl
    unfold signedValue
    rw [hsign]
    generalize ((selectBool (valResize w (n - 1) + valResize h (n - 1) + boolWord ci) (n - 1) &&
      selectBool w (n - 1)) || (selectBool w (n - 1) && selectBool h (n - 1)) ||
      (selectBool (valResize w (n - 1) + valResize h (n - 1) + boolWord ci) (n - 1) &&
      selectBool h (n - 1))) = carry at *
    generalize (signedSum n w ws h hs ci).2.toNat = H at *
    refine ⟨((hs.toNat + ws.toNat : Int) - carry.toNat - (ws ^^ hs ^^ carry).toNat) / 2, ?_⟩
    have hpow : ((2 : Int) ^ n) = T * 2 := by
      have := congrArg (Nat.cast (R := Int)) hdouble
      push_cast at this
      exact this
    rw [hpow]
    cases ws <;> cases hs <;> cases carry <;> simp at hadd ⊢ <;> omega

theorem signedValue_bounds {n : Nat} (sign : Bool) {v : Udatatype} (hv : v.toNat < 2 ^ n) :
    -(2 : Int) ^ n ≤ signedValue n sign v ∧ signedValue n sign v < 2 ^ n := by
  have hcast : ((v.toNat : Nat) : Int) < 2 ^ n := by exact_mod_cast hv
  unfold signedValue
  cases sign <;> simp <;> omega

/-! ## One pass -/

/-- What the two divisor words stand for: `b`, and its complement `-b - 1`. -/
structure Divisor.Stands (d : Divisor) (n : Nat) (b : Int) : Prop where
  plus_lt : d.plusDivisor.toNat < 2 ^ n
  minus_lt : d.minusDivisor.toNat < 2 ^ n
  plus_value : signedValue n d.plusDivisorSign d.plusDivisor = b
  minus_value : signedValue n d.minusDivisorSign d.minusDivisor = -b - 1
  minus_sign : d.minusDivisorSign = !d.plusDivisorSign

/-- The word a pass adds, with its carry: the divisor or its negation. -/
theorem Divisor.Stands.select {d : Divisor} {n : Nat} {b : Int} (h : d.Stands n b) (plus : Bool) :
    (if plus then d.plusDivisor else d.minusDivisor).toNat < 2 ^ n ∧
      signedValue n (if plus then d.plusDivisorSign else d.minusDivisorSign)
        (if plus then d.plusDivisor else d.minusDivisor) + (!plus).toNat =
        if plus then b else -b := by
  cases plus with
  | true => exact ⟨h.plus_lt, by simp [h.plus_value]⟩
  | false => exact ⟨h.minus_lt, by simp [h.minus_value]⟩

theorem toNat_shifted {n : Nat} (hn : 0 < n) (h64 : n ≤ 64) (H L : Udatatype) :
    ((valResize H (n - 1) <<< 1) ||| selectBit L (n - 1)).toNat =
      2 * (H.toNat % 2 ^ (n - 1)) + L.toNat / 2 ^ (n - 1) % 2 := by
  have hbit := toNat_selectBit L (n - 1)
  have hlow : H.toNat % 2 ^ (n - 1) < 2 ^ (n - 1) := Nat.mod_lt _ (Nat.two_pow_pos _)
  have hpow : 2 ^ (n - 1) * 2 ≤ 2 ^ 64 := by
    rw [← pow_eq_double hn]
    exact Nat.pow_le_pow_right (by decide) h64
  rw [toNat_shift_or (by decide) (by rw [hbit]; exact Nat.mod_lt _ (by decide)), hbit,
    toNat_valResize, Nat.mod_eq_of_lt (by omega), Nat.mul_comm, Nat.pow_one]

/-- The partial remainder of a state. -/
def DivState.partialRemainder (n : Nat) (s : DivState) : Int :=
  signedValue n s.partialRemainderSign s.partialRemainderH

section Pass

variable {n : Nat} {d : Divisor} {s : DivState} {b : Int}

/-- A pass doubles the partial remainder, shifts in the next bit of the dividend
and adds the selected divisor, modulo the width with its sign. -/
theorem loopBody_value (hn : 0 < n) (h64 : n ≤ 64) (hd : d.Stands n b)
    (hH : s.partialRemainderH.toNat < 2 ^ n) :
    (loopBody n d s).partialRemainderH.toNat < 2 ^ n ∧
      ∃ k : Int, (loopBody n d s).partialRemainder n =
        2 * s.partialRemainder n + (s.partialRemainderL.toNat / 2 ^ (n - 1) % 2 : Nat) +
          (if s.partialRemainderSign ^^ d.plusDivisorSign then b else -b) + k * (2 * 2 ^ n) := by
  obtain ⟨hwlt, hwval⟩ := hd.select (s.partialRemainderSign ^^ d.plusDivisorSign)
  have hdouble := pow_eq_double hn
  have hshift := toNat_shifted hn h64 s.partialRemainderH s.partialRemainderL
  have hlow : s.partialRemainderH.toNat % 2 ^ (n - 1) < 2 ^ (n - 1) :=
    Nat.mod_lt _ (Nat.two_pow_pos _)
  have hht := toNat_selectBool s.partialRemainderH (n - 1)
  rw [Nat.mod_eq_of_lt (Nat.div_lt_of_lt_mul (by omega))] at hht
  have hsplit := Nat.div_add_mod s.partialRemainderH.toNat (2 ^ (n - 1))
  rw [← hht] at hsplit
  obtain ⟨hlt, k, hk⟩ := signedSum_spec hn h64 hwlt (h := (valResize s.partialRemainderH (n - 1)
      <<< 1) ||| selectBit s.partialRemainderL (n - 1)) (by rw [hshift]; omega)
    (if s.partialRemainderSign ^^ d.plusDivisorSign then d.plusDivisorSign
      else d.minusDivisorSign) (selectBool s.partialRemainderH (n - 1))
    (!(s.partialRemainderSign ^^ d.plusDivisorSign))
  refine ⟨hlt, k + s.partialRemainderSign.toNat - (selectBool s.partialRemainderH (n - 1)).toNat,
    ?_⟩
  -- The bit that leaves the word has the weight of the sign that it replaces.
  have hdrop : signedValue n (selectBool s.partialRemainderH (n - 1))
      ((valResize s.partialRemainderH (n - 1) <<< 1) ||| selectBit s.partialRemainderL (n - 1)) =
      2 * s.partialRemainder n + (s.partialRemainderL.toNat / 2 ^ (n - 1) % 2 : Nat) +
        (s.partialRemainderSign.toNat - (selectBool s.partialRemainderH (n - 1)).toNat) *
          (2 * 2 ^ n) := by
    have hpow := congrArg (Nat.cast (R := Int)) hdouble
    have hcast := congrArg (Nat.cast (R := Int)) hsplit
    unfold DivState.partialRemainder signedValue
    rw [hshift]
    push_cast at hpow hcast ⊢
    linear_combination 2 * hcast + (selectBool s.partialRemainderH (n - 1)).toNat * hpow
  calc (loopBody n d s).partialRemainder n = _ := hk
    _ = _ := by rw [hdrop, add_assoc _ (signedValue n _ _), hwval]; ring

theorem loopBody_res (h64 : n ≤ 64) (d : Divisor) (s : DivState) :
    (loopBody n d s).res.toNat = (2 * s.res.toNat +
      ((loopBody n d s).partialRemainderSign ^^ d.minusDivisorSign).toNat) % 2 ^ n := by
  have hbit := Bool.toNat_lt ((loopBody n d s).partialRemainderSign ^^ d.minusDivisorSign)
  show (valResize ((s.res <<< 1) |||
    boolWord ((loopBody n d s).partialRemainderSign ^^ d.minusDivisorSign)) n).toNat = _
  rw [toNat_valResize, toNat_shift_or (by decide) (by rwa [toNat_boolWord]), toNat_boolWord,
    Nat.pow_one, Nat.add_mod, Nat.mod_mod_of_dvd _ (Nat.pow_dvd_pow 2 h64), ← Nat.add_mod,
    Nat.mul_comm]

theorem loopBody_low (h64 : n ≤ 64) (d : Divisor) (s : DivState) :
    (loopBody n d s).partialRemainderL.toNat = 2 * s.partialRemainderL.toNat % 2 ^ n := by
  show (valResize (s.partialRemainderL <<< 1) n).toNat = _
  rw [toNat_valResize, BitVec.toNat_shiftLeft, Nat.shiftLeft_eq,
    Nat.mod_mod_of_dvd _ (Nat.pow_dvd_pow 2 h64), Nat.pow_one, Nat.mul_comm]

/-- The sign bit is the sign. -/
theorem sign_iff {sign : Bool} {v : Udatatype} (hv : v.toNat < 2 ^ n) :
    sign = true ↔ signedValue n sign v < 0 := by
  have hcast : ((v.toNat : Nat) : Int) < 2 ^ n := by exact_mod_cast hv
  unfold signedValue
  cases sign with
  | false => simp
  | true =>
    simp only [Bool.toNat_true, Nat.cast_one, one_mul, true_iff]
    omega

/-- The selected addend opposes the partial remainder. -/
theorem addend_eq (hd : d.Stands n b) (hH : s.partialRemainderH.toNat < 2 ^ n) :
    (if s.partialRemainderSign ^^ d.plusDivisorSign then b else -b) =
      if s.partialRemainder n < 0 then |b| else -|b| := by
  have hs := @sign_iff n s.partialRemainderSign _ hH
  have hp := @sign_iff n d.plusDivisorSign _ hd.plus_lt
  rw [hd.plus_value] at hp
  have habs : |b| = if d.plusDivisorSign then -b else b := by
    split
    · rename_i h
      exact abs_of_neg (hp.mp h)
    · rename_i h
      exact abs_of_nonneg (not_lt.mp (mt hp.mpr h))
  have hsplit : s.partialRemainder n < 0 ↔ s.partialRemainderSign = true := hs.symm
  simp only [hsplit, habs]
  cases s.partialRemainderSign <;> cases d.plusDivisorSign <;> simp

/-- Two values in one window that differ by a multiple of its width are equal. -/
theorem eq_of_window {M x y k : Int} (h : x = y + k * (2 * M)) (hx : -M ≤ x ∧ x < M)
    (hy : -M ≤ y ∧ y < M) : x = y := by
  have hk : k = 0 := by
    rcases lt_trichotomy k 0 with hneg | hzero | hpos
    · nlinarith
    · exact hzero
    · nlinarith
  rw [h, hk]
  ring

/-- A partial remainder within the divisor's magnitude stays within it: the pass
then adds exactly. -/
theorem loopBody_bounded (hn : 0 < n) (h64 : n ≤ 64) (hd : d.Stands n b)
    (hb : |b| < 2 ^ n) (hH : s.partialRemainderH.toNat < 2 ^ n)
    (hlo : -|b| ≤ s.partialRemainder n) (hhi : s.partialRemainder n < |b|) :
    (loopBody n d s).partialRemainder n =
        2 * s.partialRemainder n + (s.partialRemainderL.toNat / 2 ^ (n - 1) % 2 : Nat) +
          (if s.partialRemainderSign ^^ d.plusDivisorSign then b else -b) ∧
      -|b| ≤ (loopBody n d s).partialRemainder n ∧ (loopBody n d s).partialRemainder n < |b| := by
  obtain ⟨hlt, k, hk⟩ := loopBody_value hn h64 hd hH
  have hbit : s.partialRemainderL.toNat / 2 ^ (n - 1) % 2 < 2 := Nat.mod_lt _ (by decide)
  have hwin := signedValue_bounds (loopBody n d s).partialRemainderSign hlt
  rw [addend_eq hd hH] at hk ⊢
  generalize s.partialRemainderL.toNat / 2 ^ (n - 1) % 2 = bit at *
  have hexact := eq_of_window hk hwin (by split <;> omega)
  refine ⟨hexact, ?_⟩
  rw [hexact]
  split <;> omega

end Pass

/-! ## The loop -/

/-- The bit of the dividend `a` that pass `i` shifts in is the one below `a / 2 ^ (n - i)`. -/
theorem next_prefix {n i : Nat} (a : Int) (hi : i < n) {L : Nat}
    (hL : (L : Int) = a * 2 ^ i % 2 ^ n) :
    a / 2 ^ (n - (i + 1)) = 2 * (a / 2 ^ (n - i)) + (L / 2 ^ (n - 1) % 2 : Nat) := by
  obtain ⟨m, rfl⟩ : ∃ m, n = i + m + 1 := ⟨n - (i + 1), by omega⟩
  have hpos : ∀ k : Nat, (0 : Int) < 2 ^ k := fun k => by positivity
  rw [show i + m + 1 - (i + 1) = m by omega, show i + m + 1 - i = m + 1 by omega,
    show i + m + 1 - 1 = i + m by omega]
  have hhalf : a / 2 ^ (m + 1) = a / 2 ^ m / 2 := by
    rw [pow_succ, Int.ediv_ediv_of_nonneg (hpos m).le]
  have hlow : (L : Int) = 2 ^ i * (a % 2 ^ (m + 1)) := by
    rw [hL, show i + m + 1 = i + (m + 1) by omega, pow_add, mul_comm a,
      Int.mul_emod_mul_of_pos _ _ (hpos i)]
  -- The prefix's last bit stands above the part that is not shifted in yet.
  obtain ⟨x, hx⟩ : ∃ x, x = a / 2 ^ m := ⟨_, rfl⟩
  obtain ⟨y, hy⟩ : ∃ y, y = a % 2 ^ m := ⟨_, rfl⟩
  have hy0 : 0 ≤ y := hy ▸ Int.emod_nonneg a (hpos m).ne'
  have hylt : y < 2 ^ m := hy ▸ Int.emod_lt_of_pos a (hpos m)
  have ha : a = 2 ^ m * (x % 2) + y + 2 ^ (m + 1) * (x / 2) := by
    have hdiv := Int.mul_ediv_add_emod a (2 ^ m)
    have hx2 := Int.mul_ediv_add_emod x 2
    rw [← hx, ← hy] at hdiv
    linear_combination (-1 : Int) * hdiv - 2 ^ m * hx2
  have hmod : a % 2 ^ (m + 1) = 2 ^ m * (x % 2) + y := by
    have hx2 : x % 2 = 0 ∨ x % 2 = 1 := Int.emod_two_eq_zero_or_one x
    have hp : (2 : Int) ^ (m + 1) = 2 ^ m * 2 := pow_succ 2 m
    rw [ha, Int.add_mul_emod_self_left]
    refine Int.emod_eq_of_lt ?_ ?_ <;> rcases hx2 with h | h <;> rw [h] <;> omega
  have hbit : (L : Int) / 2 ^ (i + m) = a / 2 ^ m % 2 := by
    rw [hlow, hmod, pow_add, Int.mul_ediv_mul_of_pos _ _ (hpos i),
      Int.mul_add_ediv_left _ _ (hpos m).ne', Int.ediv_eq_zero_of_lt hy0 hylt, add_zero, hx]
  push_cast
  rw [hbit, hhalf]
  omega

/-- The state after `i` passes over the dividend `a` and the divisor `b`: the
prefix of `a` is the signed quotient digits times `b` plus the partial remainder.
`c0` tells whether `a` and `b` have the same sign. -/
structure LoopInvariant (n : Nat) (d : Divisor) (a b : Int) (c0 : Bool) (i : Nat)
    (s : DivState) : Prop where
  word_lt : s.partialRemainderH.toNat < 2 ^ n
  lower : -|b| ≤ s.partialRemainder n
  upper : s.partialRemainder n < |b|
  low : (s.partialRemainderL.toNat : Int) = a * 2 ^ i % 2 ^ n
  quotient : ∃ q : Int, a / 2 ^ (n - i) = q * b + s.partialRemainder n ∧
    (s.res.toNat : Int) ≡
      q + (s.partialRemainderSign ^^ d.minusDivisorSign).toNat - 1 + 2 ^ i * (!c0).toNat
      [ZMOD 2 ^ n]

section Loop

variable {n : Nat} {d : Divisor} {a b : Int} {c0 : Bool} {i : Nat} {s : DivState}

/-- One pass keeps the invariant. -/
theorem LoopInvariant.step (hn : 0 < n) (h64 : n ≤ 64) (hd : d.Stands n b) (hb : |b| < 2 ^ n)
    (h : LoopInvariant n d a b c0 i s) (hi : i < n) :
    LoopInvariant n d a b c0 (i + 1) (loopBody n d s) := by
  obtain ⟨hexact, hlo, hhi⟩ := loopBody_bounded hn h64 hd hb h.word_lt h.lower h.upper
  obtain ⟨q, hq, hres⟩ := h.quotient
  have hhead := next_prefix a hi h.low
  refine ⟨(loopBody_value hn h64 hd h.word_lt).1, hlo, hhi, ?_, ?_⟩
  · have hlow := congrArg (Nat.cast (R := Int)) (loopBody_low h64 d s)
    push_cast at hlow
    rw [hlow, h.low, Int.mul_emod, Int.emod_emod_of_dvd _ (dvd_refl _), ← Int.mul_emod, pow_succ]
    congr 1
    ring
  · -- The digit is one where the divisor was subtracted and minus one where it was added.
    obtain ⟨c, hc⟩ : ∃ c, c = (s.partialRemainderSign ^^ d.minusDivisorSign) := ⟨_, rfl⟩
    have hadd : (if s.partialRemainderSign ^^ d.plusDivisorSign then b else -b) =
        -((2 * c.toNat - 1) * b) := by
      rw [hc, hd.minus_sign]
      cases s.partialRemainderSign <;> cases d.plusDivisorSign <;> simp
    refine ⟨2 * q + (2 * c.toNat - 1), ?_, ?_⟩
    · rw [hhead, hq, hexact, hadd]
      ring
    · have hnext := congrArg (Nat.cast (R := Int)) (loopBody_res h64 d s)
      push_cast at hnext
      calc ((loopBody n d s).res.toNat : Int) = _ := hnext
        _ ≡ 2 * s.res.toNat +
            ((loopBody n d s).partialRemainderSign ^^ d.minusDivisorSign).toNat [ZMOD 2 ^ n] :=
          Int.mod_modEq _ _
        _ ≡ 2 * (q + c.toNat - 1 + 2 ^ i * (!c0).toNat) +
            ((loopBody n d s).partialRemainderSign ^^ d.minusDivisorSign).toNat [ZMOD 2 ^ n] :=
          ((hc ▸ hres).mul_left 2).add_right _
        _ = _ := by rw [pow_succ]; ring

/-- The whole loop. -/
theorem LoopInvariant.run (hn : 0 < n) (h64 : n ≤ 64) (hd : d.Stands n b) (hb : |b| < 2 ^ n)
    (h : LoopInvariant n d a b c0 0 s) (hi : i ≤ n) :
    LoopInvariant n d a b c0 i ((loopBody n d)^[i] s) := by
  induction i with
  | zero => exact h
  | succ i ih =>
    rw [Function.iterate_succ_apply']
    exact (ih (by omega)).step hn h64 hd hb (by omega)

end Loop

/-! ## The correction -/

/-- The formulas of the correction, in numbers: `m` is the divisor's magnitude and
`digit` what the last quotient increment adds to the signed digits.  Each sign and
zero combination leaves a remainder below `m` with the sign of the dividend. -/
theorem correction_core {p b m digit : Int} {signA sign plus remNul remNulAfter : Bool}
    (hm : m = if plus then -b else b) (hm0 : 0 < m) (hlo : -m ≤ p) (hhi : p < m)
    (hsign : sign = true ↔ p < 0) (hnul : remNul = true ↔ p = 0)
    (hafter : signA = true → sign = true → (remNulAfter = true ↔ p + m = 0))
    (hdigit : digit = ((plus && !signA) || (!sign && plus && remNul) ||
      (!sign && !plus && signA && !remNul) || (!plus && signA && !remNul && !remNulAfter) ||
      (sign && plus && signA && !remNul && remNulAfter)).toNat + (sign ^^ !plus).toNat - 1) :
    (p - digit * b = if (!remNul && (sign ^^ signA)) || (sign && signA && remNulAfter) then
        p + (if signA && !sign then -m else m) else p) ∧
      (signA = false → 0 ≤ p - digit * b) ∧ (signA = true → p - digit * b ≤ 0) ∧
      -m < p - digit * b ∧ p - digit * b < m := by
  cases signA <;> cases sign <;> cases plus <;> cases remNul <;> cases remNulAfter <;>
    simp at hsign hnul hafter hm hdigit ⊢ <;> subst hdigit <;> omega

/-- A remainder of the dividend's sign below the divisor's magnitude is the one of
the truncated division. -/
theorem tdiv_tmod_of_remainder {a b q r : Int} (hb : b ≠ 0) (ha : a = q * b + r)
    (hnonneg : 0 ≤ a → 0 ≤ r) (hneg : a < 0 → r ≤ 0) (hlo : -|b| < r) (hhi : r < |b|) :
    a.tdiv b = q ∧ a.tmod b = r := by
  rcases lt_or_ge a 0 with h | h
  · have hr := hneg h
    refine (Int.tdiv_tmod_unique' h.le hb).mpr ⟨by rw [ha]; ring, ?_, hr⟩
    rwa [Int.natCast_natAbs]
  · have hr := hnonneg h
    refine (Int.tdiv_tmod_unique h hb).mpr ⟨by rw [ha]; ring, hr, ?_⟩
    rwa [Int.natCast_natAbs]

section Correction

variable {n : Nat} {d : Divisor} {a b q : Int} {s : DivState} {signA : Bool}

/-- The word of the corrected remainder, before it is known to be needed. -/
theorem corrected_modEq (h64 : n ≤ 64) (hd : d.Stands n b) (s : DivState) (ds : Bool) :
    ((valResize (s.partialRemainderH + (if ds then d.plusDivisor else d.minusDivisor) +
      boolWord (!ds)) n).toNat : Int) ≡ s.partialRemainder n + (if ds then b else -b)
      [ZMOD 2 ^ n] := by
  obtain ⟨-, hwval⟩ := hd.select ds
  generalize (if ds then d.plusDivisor else d.minusDivisor) = w at *
  generalize (if ds then d.plusDivisorSign else d.minusDivisorSign) = ws at *
  have hsum : (valResize (s.partialRemainderH + w + boolWord (!ds)) n).toNat =
      (s.partialRemainderH.toNat + w.toNat + (!ds).toNat) % 2 ^ n := by
    rw [toNat_valResize, BitVec.toNat_add, BitVec.toNat_add, toNat_boolWord, Nat.mod_add_mod,
      Nat.mod_mod_of_dvd _ (Nat.pow_dvd_pow 2 h64)]
  rw [hsum, ← hwval]
  push_cast
  refine (Int.mod_modEq _ _).trans
    (Int.modEq_iff_dvd.mpr ⟨-(s.partialRemainderSign.toNat + ws.toNat), ?_⟩)
  unfold DivState.partialRemainder signedValue
  ring

theorem plus_sign_iff (hd : d.Stands n b) : d.plusDivisorSign = true ↔ b < 0 := by
  rw [sign_iff hd.plus_lt, hd.plus_value]

theorem abs_eq_of_stands (hd : d.Stands n b) : |b| = if d.plusDivisorSign then -b else b := by
  split
  · rename_i h
    exact abs_of_neg ((plus_sign_iff hd).mp h)
  · rename_i h
    exact abs_of_nonneg (not_lt.mp (mt (plus_sign_iff hd).mpr h))

/-- `rem_nul` tells that the partial remainder is zero. -/
theorem remNul_iff (hH : s.partialRemainderH.toNat < 2 ^ n) (hb : |b| < 2 ^ n)
    (hlo : -|b| ≤ s.partialRemainder n) :
    (s.partialRemainderH == 0) = true ↔ s.partialRemainder n = 0 := by
  have hzero : s.partialRemainderH = 0 ↔ s.partialRemainderH.toNat = 0 :=
    BitVec.toNat_inj.symm
  have hcast : ((s.partialRemainderH.toNat : Nat) : Int) < 2 ^ n := by exact_mod_cast hH
  rw [beq_iff_eq, hzero]
  unfold DivState.partialRemainder signedValue at *
  generalize s.partialRemainderH.toNat = H at *
  generalize s.partialRemainderSign = sign at *
  cases sign with
  | false => simp
  | true =>
    simp only [Bool.toNat_true, Nat.cast_one, one_mul] at hlo ⊢
    omega

/-- Congruent words below the modulus are equal numbers. -/
theorem eq_of_modEq {v : Udatatype} {x : Int} (h : (v.toNat : Int) ≡ x [ZMOD 2 ^ n])
    (hv : v.toNat < 2 ^ n) (h0 : 0 ≤ x) (hx : x < 2 ^ n) : (v.toNat : Int) = x := by
  have hcast : ((v.toNat : Nat) : Int) < 2 ^ n := by exact_mod_cast hv
  unfold Int.ModEq at h
  rwa [Int.emod_eq_of_lt (by omega) hcast, Int.emod_eq_of_lt h0 hx] at h

/-- The word of the partial remainder without its sign. -/
theorem word_modEq (s : DivState) :
    (s.partialRemainderH.toNat : Int) ≡ s.partialRemainder n [ZMOD 2 ^ n] := by
  unfold DivState.partialRemainder signedValue
  exact Int.modEq_iff_dvd.mpr ⟨-s.partialRemainderSign.toNat, by ring⟩

theorem finalCorrection_spec (h64 : n ≤ 64) (hd : d.Stands n b) (hb0 : b ≠ 0) (hb : |b| < 2 ^ n)
    (hH : s.partialRemainderH.toNat < 2 ^ n) (hlo : -|b| ≤ s.partialRemainder n)
    (hhi : s.partialRemainder n < |b|) (hsign : signA = true ↔ a < 0)
    (ha : a = q * b + s.partialRemainder n)
    (hres : (s.res.toNat : Int) ≡
      q + (s.partialRemainderSign ^^ d.minusDivisorSign).toNat - 1 [ZMOD 2 ^ n]) :
    ((finalCorrection n d signA s).1.toNat : Int) ≡ a.tdiv b [ZMOD 2 ^ n] ∧
      ((finalCorrection n d signA s).2.toNat : Int) ≡ a.tmod b [ZMOD 2 ^ n] := by
  have hm := abs_eq_of_stands hd
  obtain ⟨ds, hds⟩ : ∃ ds, ds = (if signA && s.partialRemainderSign then d.minusDivisorSign
    else d.minusDivisorSign ^^ signA) := ⟨_, rfl⟩
  have hX : (if ds then b else -b) =
      if signA && !s.partialRemainderSign then -|b| else |b| := by
    rw [hds, hd.minus_sign, hm]
    cases signA <;> cases s.partialRemainderSign <;> cases d.plusDivisorSign <;> simp
  have hpr := corrected_modEq h64 hd s ds
  rw [hX] at hpr
  have hprlt : (valResize (s.partialRemainderH + (if ds then d.plusDivisor else d.minusDivisor) +
      boolWord (!ds)) n).toNat < 2 ^ n := by
    rw [toNat_valResize]
    exact Nat.mod_lt _ (Nat.two_pow_pos n)
  unfold finalCorrection
  dsimp only
  rw [← hds]
  generalize valResize (s.partialRemainderH + (if ds then d.plusDivisor else d.minusDivisor) +
      boolWord (!ds)) n = pr at *
  have hnul := remNul_iff hH hb hlo
  have hafter : signA = true → s.partialRemainderSign = true →
      ((pr == 0) = true ↔ s.partialRemainder n + |b| = 0) := by
    intro h1 h2
    rw [h1, h2] at hpr
    have hneg := (sign_iff hH).mp h2
    have hval := eq_of_modEq hpr hprlt (by simp; omega)
      (by simp; change s.partialRemainder n < 0 at hneg; omega)
    simp at hval
    rw [beq_iff_eq, ← BitVec.toNat_inj]
    simp
    omega
  generalize (s.partialRemainderH == 0) = remNul at *
  generalize (pr == 0) = remNulAfter at *
  obtain ⟨digit, hdigit⟩ : ∃ digit : Int, digit =
      ((d.plusDivisorSign && !signA) || (!s.partialRemainderSign && d.plusDivisorSign && remNul) ||
      (!s.partialRemainderSign && !d.plusDivisorSign && signA && !remNul) ||
      (!d.plusDivisorSign && signA && !remNul && !remNulAfter) ||
      (s.partialRemainderSign && d.plusDivisorSign && signA && !remNul && remNulAfter)).toNat +
      (s.partialRemainderSign ^^ !d.plusDivisorSign).toNat - 1 := ⟨_, rfl⟩
  obtain ⟨hr, hnonneg, hneg, hrlo, hrhi⟩ := correction_core hm (abs_pos.mpr hb0) hlo hhi
    (sign_iff hH) hnul hafter hdigit
  obtain ⟨hdiv, hmod⟩ := tdiv_tmod_of_remainder (q := q + digit)
    (r := s.partialRemainder n - digit * b) hb0 (by rw [ha]; ring)
    (fun h => hnonneg (by rw [Bool.eq_false_iff]; exact mt hsign.mp (not_lt.mpr h)))
    (fun h => hneg (hsign.mpr h)) hrlo hrhi
  rw [hdiv, hmod]
  constructor
  · have hword : ∀ plusOne : Bool, ((s.res + boolWord plusOne).toNat : Int) ≡
        s.res.toNat + plusOne.toNat [ZMOD 2 ^ n] := by
      intro plusOne
      rw [BitVec.toNat_add, toNat_boolWord]
      push_cast
      exact (Int.mod_modEq _ _).of_dvd (pow_dvd_pow 2 h64)
    refine (hword _).trans ((hres.add_right _).trans (congrArg (· % (2 : Int) ^ n) ?_))
    rw [hdigit, hd.minus_sign]
    ring
  · rw [hr]
    split
    · exact hpr
    · exact word_modEq s

end Correction

/-! ## The operands -/

section Operands

variable {n : Nat}

/-- An operand of `n` bits as the callers pass it: extended by its sign in signed
mode and by zeros otherwise. -/
def operand (signedDiv : Bool) (x : BitVec n) : BitVec 64 :=
  if signedDiv then x.signExtend 64 else x.setWidth 64

/-- The number an operand stands for. -/
def operandValue (signedDiv : Bool) (x : BitVec n) : Int :=
  if signedDiv then x.toInt else x.toNat

theorem toNat_operand (h64 : n ≤ 64) (signedDiv : Bool) (x : BitVec n) :
    (operand signedDiv x).toNat % 2 ^ n = x.toNat := by
  have hx := x.isLt
  have hdvd : 2 ^ n ∣ 2 ^ 64 := Nat.pow_dvd_pow 2 h64
  have hle : 2 ^ n ≤ 2 ^ 64 := Nat.pow_le_pow_right (by decide) h64
  unfold operand
  split
  · rw [BitVec.toNat_signExtend, BitVec.toNat_setWidth, Nat.mod_eq_of_lt (a := x.toNat) (by omega)]
    split
    · obtain ⟨k, hk⟩ := hdvd
      have : 2 ^ 64 - 2 ^ n = 2 ^ n * (k - 1) := by rw [Nat.mul_sub, ← hk, Nat.mul_one]
      rw [this, Nat.add_mul_mod_self_left, Nat.mod_eq_of_lt hx]
    · exact Nat.mod_eq_of_lt hx
  · rw [BitVec.toNat_setWidth, Nat.mod_eq_of_lt (a := x.toNat) (by omega), Nat.mod_eq_of_lt hx]

/-- A word of the operand's bits with the sign that the mode gives it. -/
theorem signedValue_operand (signedDiv : Bool) (x : BitVec n) {v : Udatatype}
    (hv : v.toNat = x.toNat) :
    signedValue n (x.msb && signedDiv) v = operandValue signedDiv x := by
  have hint := BitVec.toInt_eq_msb_cond x
  unfold signedValue operandValue
  rw [hv, hint]
  cases x.msb <;> cases signedDiv <;> simp

theorem selectBool_msb (hn : 0 < n) {x : BitVec n} {v : Udatatype}
    (hv : v.toNat % 2 ^ n = x.toNat) : selectBool v (n - 1) = x.msb := by
  have hx := x.isLt
  have hsel := toNat_selectBool v (n - 1)
  rw [pow_eq_double hn] at hv hx
  rw [← Nat.mod_mul_right_div_self, hv] at hsel
  rw [BitVec.msb_eq_decide]
  by_cases hle : 2 ^ (n - 1) ≤ x.toNat
  · rw [Nat.div_eq_of_lt_le (by omega) (by omega) (k := 1)] at hsel
    rw [decide_eq_true hle]
    cases hb : selectBool v (n - 1) with
    | true => rfl
    | false => rw [hb] at hsel; cases hsel
  · rw [Nat.div_eq_of_lt (by omega)] at hsel
    rw [decide_eq_false hle]
    cases hb : selectBool v (n - 1) with
    | true => rw [hb] at hsel; cases hsel
    | false => rfl

/-- The complement's low bits. -/
theorem toNat_not_mod (h64 : n ≤ 64) (v : Udatatype) :
    (~~~v).toNat % 2 ^ n = 2 ^ n - 1 - v.toNat % 2 ^ n := by
  have hsum : (~~~v).toNat + v.toNat + 1 = 2 ^ 64 := by
    have := v.isLt
    rw [BitVec.toNat_not]
    omega
  have hzero : ((~~~v).toNat % 2 ^ n + v.toNat % 2 ^ n + 1) % 2 ^ n = 0 := by
    rw [Nat.add_mod, ← Nat.add_mod (~~~v).toNat, ← Nat.add_mod, hsum]
    exact Nat.mod_eq_zero_of_dvd (Nat.pow_dvd_pow 2 h64)
  have h1 : (~~~v).toNat % 2 ^ n < 2 ^ n := Nat.mod_lt _ (Nat.two_pow_pos n)
  have h2 : v.toNat % 2 ^ n < 2 ^ n := Nat.mod_lt _ (Nat.two_pow_pos n)
  obtain ⟨k, hk⟩ := Nat.dvd_of_mod_eq_zero hzero
  have hk1 : k = 1 := by
    rcases k with _ | _ | k
    · rw [Nat.mul_zero] at hk
      omega
    · rfl
    · have := Nat.mul_le_mul_left (2 ^ n) (show 2 ≤ k + 1 + 1 by omega)
      omega
  rw [hk1] at hk
  omega

theorem divisorOf_stands (hn : 0 < n) (h64 : n ≤ 64) (signedDiv : Bool) (y : BitVec n) :
    (divisorOf n (operand signedDiv y) signedDiv).Stands n (operandValue signedDiv y) := by
  have hv := toNat_operand h64 signedDiv y
  have hplus : (valResize (operand signedDiv y) n).toNat = y.toNat := by
    rw [toNat_valResize, hv]
  have hminus : (valResize (~~~operand signedDiv y) n).toNat = (~~~y).toNat := by
    rw [toNat_valResize, toNat_not_mod h64, hv, BitVec.toNat_not]
  have hpsign : selectBool (valResize (operand signedDiv y) n) (n - 1) = y.msb :=
    selectBool_msb hn (by rw [hplus, Nat.mod_eq_of_lt y.isLt])
  have hmsign : selectBool (valResize (~~~operand signedDiv y) n) (n - 1) = !y.msb := by
    rw [selectBool_msb hn (x := ~~~y) (by rw [hminus, Nat.mod_eq_of_lt (BitVec.isLt _)]),
      BitVec.msb_not]
    simp [hn]
  have hval := signedValue_operand signedDiv y hplus
  unfold divisorOf
  constructor
  · rw [hplus]
    exact y.isLt
  · rw [hminus]
    exact BitVec.isLt _
  · dsimp only
    rw [hpsign, hval]
  · dsimp only
    have hy := y.isLt
    rw [← hval]
    unfold signedValue
    rw [hmsign, hminus, hplus, BitVec.toNat_not]
    push_cast [Nat.sub_sub, Nat.cast_sub (by omega : 1 + y.toNat ≤ 2 ^ n)]
    cases y.msb <;> cases signedDiv <;> simp <;> ring
  · dsimp only
    rw [hmsign, hpsign]
    cases y.msb <;> cases signedDiv <;> rfl

theorem operandValue_neg_iff (signedDiv : Bool) (x : BitVec n) :
    (x.msb && signedDiv) = decide (operandValue signedDiv x < 0) := by
  unfold operandValue
  rw [BitVec.msb_eq_toInt]
  cases signedDiv <;> simp

theorem operandValue_bounds (signedDiv : Bool) (x : BitVec n) :
    -(2 : Int) ^ n ≤ operandValue signedDiv x ∧ operandValue signedDiv x < 2 ^ n := by
  have hx : ((x.toNat : Nat) : Int) < 2 ^ n := by exact_mod_cast x.isLt
  unfold operandValue
  split
  · rw [BitVec.toInt_eq_msb_cond]
    push_cast
    split <;> omega
  · omega

theorem operandValue_emod (signedDiv : Bool) (x : BitVec n) :
    operandValue signedDiv x % 2 ^ n = x.toNat := by
  have hx : ((x.toNat : Nat) : Int) < 2 ^ n := by exact_mod_cast x.isLt
  have hlow : (x.toNat : Int) % 2 ^ n = x.toNat := Int.emod_eq_of_lt (by omega) hx
  unfold operandValue
  split
  · rw [BitVec.toInt_eq_msb_cond]
    push_cast
    split
    · rw [Int.sub_emod_right, hlow]
    · exact hlow
  · exact hlow

/-- Below 64 bits the extended operand reads as the number it stands for. -/
theorem toInt_operand (h64 : n < 64) (signedDiv : Bool) (x : BitVec n) :
    (operand signedDiv x).toInt = operandValue signedDiv x := by
  unfold operand operandValue
  split
  · exact BitVec.toInt_signExtend_of_le h64.le
  · have hx := x.isLt
    have hle : 2 ^ n ≤ 2 ^ 63 := Nat.pow_le_pow_right (by decide) (by omega)
    rw [BitVec.toInt_setWidth]
    exact Int.bmod_eq_of_le (by omega) (by omega)

/-- A dividend's sign extension is the quotient of its prefix of no bits. -/
theorem operandValue_ediv (signedDiv : Bool) (x : BitVec n) :
    operandValue signedDiv x / 2 ^ n = if operandValue signedDiv x < 0 then -1 else 0 := by
  obtain ⟨hlo, hhi⟩ := operandValue_bounds signedDiv x
  have hpos : (0 : Int) < 2 ^ n := by positivity
  split
  · rw [Int.ediv_eq_iff_of_pos hpos]
    omega
  · exact Int.ediv_eq_zero_of_lt (by omega) hhi

/-- The upper word: all ones for a negative dividend, zero otherwise. -/
theorem toNat_upper (hn : 0 < n) (h64 : n ≤ 64) (signedDiv : Bool) (x : BitVec n) :
    (initialState n (operand signedDiv x) signedDiv).partialRemainderH.toNat =
      if operandValue signedDiv x < 0 then 2 ^ n - 1 else 0 := by
  have hones : ∀ v : Udatatype, v = ~~~0 → v.toNat % 2 ^ n = 2 ^ n - 1 := by
    rintro v rfl
    rw [toNat_not_mod h64]
    simp
  unfold initialState
  dsimp only
  by_cases h : n < 64
  · have hshift : ((operand signedDiv x).sshiftRight n).toInt = operandValue signedDiv x / 2 ^ n := by
      rw [BitVec.toInt_sshiftRight, toInt_operand h, Int.shiftRight_eq_div_pow]
      push_cast
      rfl
    rw [operandValue_ediv] at hshift
    rw [if_pos h, toNat_valResize]
    split
    · rename_i hneg
      rw [if_pos hneg] at hshift
      exact hones _ (BitVec.eq_of_toInt_eq hshift)
    · rename_i hneg
      rw [if_neg hneg] at hshift
      rw [BitVec.eq_of_toInt_eq (y := 0) hshift]
      exact Nat.zero_mod _
  · obtain rfl : n = 64 := by omega
    rw [if_neg h, if_neg h, selectBool_msb hn (toNat_operand h64 signedDiv x),
      operandValue_neg_iff]
    by_cases hneg : operandValue signedDiv x < 0
    · rw [if_pos hneg, decide_eq_true hneg]
      decide
    · rw [if_neg hneg, decide_eq_false hneg]
      decide

/-- The sign the loop starts from. -/
theorem initialState_sign (hn : 0 < n) (h64 : n ≤ 64) (signedDiv : Bool) (x : BitVec n) :
    (initialState n (operand signedDiv x) signedDiv).partialRemainderSign =
      decide (operandValue signedDiv x < 0) := by
  unfold initialState
  dsimp only
  by_cases h : n < 64
  · rw [if_pos h, ← operandValue_neg_iff]
    cases signedDiv with
    | false => rw [Bool.and_false, Bool.and_false]
    | true =>
      rw [Bool.and_true, Bool.and_true, slt_zero, BitVec.msb_eq_toInt, BitVec.msb_eq_toInt,
        toInt_operand h]
      rfl
  · rw [if_neg h, selectBool_msb hn (toNat_operand h64 signedDiv x), operandValue_neg_iff]

/-- The invariant before the first pass. -/
theorem loopInvariant_initial (hn : 0 < n) (h64 : n ≤ 64) (signedDiv : Bool) (x y : BitVec n)
    (hy : operandValue signedDiv y ≠ 0) :
    LoopInvariant n (divisorOf n (operand signedDiv y) signedDiv) (operandValue signedDiv x)
      (operandValue signedDiv y)
      ((initialState n (operand signedDiv x) signedDiv).partialRemainderSign ^^
        (divisorOf n (operand signedDiv y) signedDiv).minusDivisorSign) 0
      (initialState n (operand signedDiv x) signedDiv) := by
  obtain ⟨hlo, hhi⟩ := operandValue_bounds signedDiv x
  have hsign := initialState_sign hn h64 signedDiv x
  have hH := toNat_upper hn h64 signedDiv x
  have hL : (initialState n (operand signedDiv x) signedDiv).partialRemainderL.toNat = x.toNat := by
    show (valResize (operand signedDiv x) n).toNat = _
    rw [toNat_valResize, toNat_operand h64]
  have hy1 : 1 ≤ |operandValue signedDiv y| := Int.one_le_abs hy
  have hpos : 0 < 2 ^ n := Nat.two_pow_pos n
  have hhead : operandValue signedDiv x / 2 ^ n =
      (initialState n (operand signedDiv x) signedDiv).partialRemainder n := by
    rw [operandValue_ediv]
    unfold DivState.partialRemainder signedValue
    rw [hsign, hH]
    by_cases hneg : operandValue signedDiv x < 0
    · rw [if_pos hneg, if_pos hneg, decide_eq_true hneg]
      push_cast [Nat.cast_sub hpos]
      simp
    · rw [if_neg hneg, if_neg hneg, decide_eq_false hneg]
      simp
  rw [operandValue_ediv] at hhead
  refine ⟨?_, ?_, ?_, ?_, 0, ?_, ?_⟩
  · rw [hH]
    split <;> omega
  · rw [← hhead]
    split <;> omega
  · rw [← hhead]
    split <;> omega
  · rw [hL, pow_zero, mul_one, operandValue_emod]
  · rw [Nat.sub_zero, operandValue_ediv, hhead]
    ring
  · show ((0 : Udatatype).toNat : Int) ≡ _ [ZMOD 2 ^ n]
    generalize ((initialState n (operand signedDiv x) signedDiv).partialRemainderSign ^^
      (divisorOf n (operand signedDiv y) signedDiv).minusDivisorSign) = c0
    cases c0 <;> rfl

theorem abs_operandValue_lt (signedDiv : Bool) (y : BitVec n) (hn : 0 < n) :
    |operandValue signedDiv y| < 2 ^ n := by
  have hy : ((y.toNat : Nat) : Int) < 2 ^ n := by exact_mod_cast y.isLt
  unfold operandValue
  split
  · have hlo := BitVec.le_toInt y
    have hhi := BitVec.toInt_lt (x := y)
    have hdouble : (2 : Int) ^ n = 2 ^ (n - 1) * 2 := by exact_mod_cast pow_eq_double hn
    have hpos : (0 : Int) < 2 ^ (n - 1) := by positivity
    rw [abs_lt]
    omega
  · rw [abs_lt]
    omega

theorem operandValue_ne_zero (signedDiv : Bool) {y : BitVec n} (hy : y ≠ 0) :
    operandValue signedDiv y ≠ 0 := by
  unfold operandValue
  split
  · exact fun h => hy (BitVec.eq_of_toInt_eq (h.trans BitVec.toInt_zero.symm))
  · exact fun h => hy (BitVec.eq_of_toNat_eq (by exact_mod_cast h))

/-- The divider on operands of `n` bits: quotient and remainder of the truncated
division of the numbers they stand for, modulo `2 ^ n`. -/
theorem nonRestoringSdiv_modEq (hn : 0 < n) (h64 : n ≤ 64) {unroll : Nat} (hu : unroll ∣ n)
    (signedDiv : Bool) (x : BitVec n) {y : BitVec n} (hy : y ≠ 0) :
    ((nonRestoringSdiv n unroll (operand signedDiv x) (operand signedDiv y) signedDiv).1.toNat :
        Int) ≡ (operandValue signedDiv x).tdiv (operandValue signedDiv y) [ZMOD 2 ^ n] ∧
      ((nonRestoringSdiv n unroll (operand signedDiv x) (operand signedDiv y) signedDiv).2.toNat :
        Int) ≡ (operandValue signedDiv x).tmod (operandValue signedDiv y) [ZMOD 2 ^ n] := by
  have hy0 := operandValue_ne_zero signedDiv hy
  have hb := abs_operandValue_lt signedDiv y hn
  have hd := divisorOf_stands hn h64 signedDiv y
  have hrun := (loopInvariant_initial hn h64 signedDiv x y hy0).run hn h64 hd hb (Nat.le_refl n)
  obtain ⟨q, hq, hres⟩ := hrun.quotient
  unfold nonRestoringSdiv
  dsimp only
  rw [← Function.iterate_mul, Nat.mul_div_cancel' hu]
  refine finalCorrection_spec (q := q) h64 hd hy0 hb hrun.word_lt hrun.lower hrun.upper ?_ ?_ ?_
  · rw [initialState_sign hn h64, decide_eq_true_iff]
  · rwa [Nat.sub_self, pow_zero, Int.ediv_one] at hq
  · refine hres.trans ?_
    conv_rhs => rw [← add_zero (_ - 1 : Int)]
    refine Int.ModEq.add_left _ ?_
    exact (Int.modEq_zero_iff_dvd.mpr (Dvd.intro _ rfl))

/-- Congruent words cut to the width are equal. -/
theorem setWidth_of_modEq {v : BitVec 64} {z : Int} (h : (v.toNat : Int) ≡ z [ZMOD 2 ^ n]) :
    v.setWidth n = BitVec.ofInt n z := by
  apply BitVec.eq_of_toNat_eq
  rw [BitVec.toNat_setWidth, BitVec.toNat_ofInt]
  unfold Int.ModEq at h
  push_cast
  rw [← h]
  norm_cast

/-- In signed mode the result is the language's quotient and remainder. -/
theorem nonRestoringSdiv_signed (hn : 0 < n) (h64 : n ≤ 64) {unroll : Nat} (hu : unroll ∣ n)
    (x : BitVec n) {y : BitVec n} (hy : y ≠ 0) :
    (nonRestoringSdiv n unroll (x.signExtend 64) (y.signExtend 64) true).1.setWidth n =
        BitVec.ofInt n (x.toInt.tdiv y.toInt) ∧
      (nonRestoringSdiv n unroll (x.signExtend 64) (y.signExtend 64) true).2.setWidth n =
        BitVec.ofInt n (x.toInt.tmod y.toInt) := by
  obtain ⟨hq, hr⟩ := nonRestoringSdiv_modEq hn h64 hu true x hy
  exact ⟨setWidth_of_modEq hq, setWidth_of_modEq hr⟩

/-- In unsigned mode it is the quotient and remainder of the unsigned words. -/
theorem nonRestoringSdiv_unsigned (hn : 0 < n) (h64 : n ≤ 64) {unroll : Nat} (hu : unroll ∣ n)
    (x : BitVec n) {y : BitVec n} (hy : y ≠ 0) :
    (nonRestoringSdiv n unroll (x.setWidth 64) (y.setWidth 64) false).1.setWidth n = x / y ∧
      (nonRestoringSdiv n unroll (x.setWidth 64) (y.setWidth 64) false).2.setWidth n = x % y := by
  obtain ⟨hq, hr⟩ := nonRestoringSdiv_modEq hn h64 hu false x hy
  have hdiv : BitVec.ofInt n ((x.toNat : Int).tdiv y.toNat) = x / y := by
    rw [← Int.ofNat_tdiv, BitVec.ofInt_natCast, ← BitVec.toNat_udiv, BitVec.ofNat_toNat,
      BitVec.setWidth_eq]
  have hmod : BitVec.ofInt n ((x.toNat : Int).tmod y.toNat) = x % y := by
    rw [← Int.ofNat_tmod, BitVec.ofInt_natCast, ← BitVec.toNat_umod, BitVec.ofNat_toNat,
      BitVec.setWidth_eq]
  exact ⟨(setWidth_of_modEq hq).trans hdiv, (setWidth_of_modEq hr).trans hmod⟩

end Operands

example : nonRestoringSdiv 4 2 (-7) 2 true = (0xD, 0xF) := by decide

/-! ## The entry points, with the default unrolling -/

/-- `__divsi3` of `divsi3nr.c`. -/
def divsi3Nr (u v : BitVec 32) : BitVec 32 :=
  (nonRestoringSdiv 32 1 (u.signExtend 64) (v.signExtend 64) true).1.setWidth 32

/-- `__modsi3` of `divsi3nr.c`. -/
def modsi3Nr (u v : BitVec 32) : BitVec 32 :=
  (nonRestoringSdiv 32 1 (u.signExtend 64) (v.signExtend 64) true).2.setWidth 32

/-- `__udivsi3` of `divsi3nr.c`. -/
def udivsi3Nr (u v : BitVec 32) : BitVec 32 :=
  (nonRestoringSdiv 32 1 (u.setWidth 64) (v.setWidth 64) false).1.setWidth 32

/-- `__umodsi3` of `divsi3nr.c`. -/
def umodsi3Nr (u v : BitVec 32) : BitVec 32 :=
  (nonRestoringSdiv 32 1 (u.setWidth 64) (v.setWidth 64) false).2.setWidth 32

/-- `__divdi36432` of `divdi3nr6432.c`. -/
def divdi36432Nr (u : BitVec 64) (v : BitVec 32) : BitVec 64 :=
  (nonRestoringSdiv 64 1 u (v.signExtend 64) true).1

/-- `__moddi36432` of `divdi3nr6432.c`. -/
def moddi36432Nr (u : BitVec 64) (v : BitVec 32) : BitVec 64 :=
  (nonRestoringSdiv 64 1 u (v.signExtend 64) true).2

/-- `__udivdi36432` of `divdi3nr6432.c`. -/
def udivdi36432Nr (u : BitVec 64) (v : BitVec 32) : BitVec 64 :=
  (nonRestoringSdiv 64 1 u (v.setWidth 64) false).1

/-- `__umoddi36432` of `divdi3nr6432.c`. -/
def umoddi36432Nr (u : BitVec 64) (v : BitVec 32) : BitVec 64 :=
  (nonRestoringSdiv 64 1 u (v.setWidth 64) false).2

/-- The 32-bit entry points. -/
theorem entry_si3 (u : BitVec 32) {v : BitVec 32} (hv : v ≠ 0) :
    divsi3Nr u v = BitVec.ofInt 32 (u.toInt.tdiv v.toInt) ∧
      modsi3Nr u v = BitVec.ofInt 32 (u.toInt.tmod v.toInt) ∧
      udivsi3Nr u v = u / v ∧ umodsi3Nr u v = u % v := by
  obtain ⟨h1, h2⟩ := nonRestoringSdiv_signed (by decide) (by decide) (one_dvd 32) u hv
  obtain ⟨h3, h4⟩ := nonRestoringSdiv_unsigned (by decide) (by decide) (one_dvd 32) u hv
  exact ⟨h1, h2, h3, h4⟩

/-- The mixed entry points divide by the widened divisor. -/
theorem entry_di36432 (u : BitVec 64) {v : BitVec 32} (hv : v ≠ 0) :
    divdi36432Nr u v = BitVec.ofInt 64 (u.toInt.tdiv v.toInt) ∧
      moddi36432Nr u v = BitVec.ofInt 64 (u.toInt.tmod v.toInt) ∧
      udivdi36432Nr u v = u / v.setWidth 64 ∧ umoddi36432Nr u v = u % v.setWidth 64 := by
  obtain ⟨h1, h2⟩ := nonRestoringSdiv_signed (by decide) (by decide) (one_dvd 64) u
    (signExtend_ne_zero hv)
  obtain ⟨h3, h4⟩ := nonRestoringSdiv_unsigned (by decide) (by decide) (one_dvd 64) u
    (setWidth_ne_zero hv)
  have hint : (v.signExtend 64).toInt = v.toInt := BitVec.toInt_signExtend_of_le (by decide)
  rw [hint, BitVec.signExtend_eq, BitVec.signExtend_eq, BitVec.setWidth_eq] at h1 h2
  rw [BitVec.setWidth_eq, BitVec.setWidth_eq, BitVec.setWidth_eq] at h3 h4
  exact ⟨h1, h2, h3, h4⟩

/-- The non-restoring divider is exact on operands of the width, in both modes and
for every unrolling; with the default unrolling so are the entry points. -/
theorem nonRestoringSdiv_exact {n unroll : Nat} (hn : n = 32 ∨ n = 64) (hu : unroll ∣ n) :
    (∀ x y : BitVec n, y ≠ 0 →
      (nonRestoringSdiv n unroll (x.signExtend 64) (y.signExtend 64) true).1.setWidth n =
          BitVec.ofInt n (x.toInt.tdiv y.toInt) ∧
        (nonRestoringSdiv n unroll (x.signExtend 64) (y.signExtend 64) true).2.setWidth n =
          BitVec.ofInt n (x.toInt.tmod y.toInt) ∧
        (nonRestoringSdiv n unroll (x.setWidth 64) (y.setWidth 64) false).1.setWidth n = x / y ∧
        (nonRestoringSdiv n unroll (x.setWidth 64) (y.setWidth 64) false).2.setWidth n = x % y) ∧
    (∀ u v : BitVec 32, v ≠ 0 →
      divsi3Nr u v = BitVec.ofInt 32 (u.toInt.tdiv v.toInt) ∧
        modsi3Nr u v = BitVec.ofInt 32 (u.toInt.tmod v.toInt) ∧
        udivsi3Nr u v = u / v ∧ umodsi3Nr u v = u % v) ∧
    (∀ (u : BitVec 64) (v : BitVec 32), v ≠ 0 →
      divdi36432Nr u v = BitVec.ofInt 64 (u.toInt.tdiv v.toInt) ∧
        moddi36432Nr u v = BitVec.ofInt 64 (u.toInt.tmod v.toInt) ∧
        udivdi36432Nr u v = u / v.setWidth 64 ∧ umoddi36432Nr u v = u % v.setWidth 64) := by
  have h0 : 0 < n := by omega
  have h64 : n ≤ 64 := by omega
  refine ⟨?_, fun u v hv => entry_si3 u hv, fun u v hv => entry_di36432 u hv⟩
  intro x y hy
  obtain ⟨hq, hr⟩ := nonRestoringSdiv_signed h0 h64 hu x hy
  exact ⟨hq, hr, nonRestoringSdiv_unsigned h0 h64 hu x hy⟩

theorem nonRestoringSdiv_exact_unrolled_four :
    (32 = 32 ∨ 32 = 64) ∧ 4 ∣ 32 ∧
      (nonRestoringSdiv 32 4 ((5 : BitVec 32).signExtend 64) ((3 : BitVec 32).signExtend 64)
        true).1.setWidth 32 = BitVec.ofInt 32 ((5 : BitVec 32).toInt.tdiv (3 : BitVec 32).toInt) :=
  ⟨.inl rfl, by decide,
    ((@nonRestoringSdiv_exact 32 4 (.inl rfl) (by decide)).1 5 3 (by decide)).1⟩

end Bambu.Libbambu.Softint
