/-
  Bambu.Math.BitSerial

  The bits of an integer in two's complement of unbounded width, the number a word of
  fixed width is read as, and bit-serial addition and subtraction.

  A bit-serial machine is a step from two digits and a carry to a carry and a digit
  (`carryAt`, `sumAt`).  Run on bits, the full adder and the full subtractor compute
  the bits of the sum and of the difference (`sumAt_fullAdder`, `sumAt_fullSubtractor`);
  a machine on any other digits that simulates one of them in each step simulates it in
  a run (`sumAt_simulates`).
-/

import Bambu.Math.Bitwise
import Bambu.Math.Residue

namespace Bambu.Math

/-! ## Bits -/

/-- Bit `i` of `x`. -/
def bitAt (x : Int) (i : Nat) : Bool := decide (x / 2 ^ i % 2 = 1)

theorem toNat_bitAt (x : Int) (i : Nat) : ((bitAt x i).toNat : Int) = x / 2 ^ i % 2 := by
  unfold bitAt
  by_cases h : x / 2 ^ i % 2 = 1
  · rw [decide_eq_true h, h]
    rfl
  · rw [decide_eq_false h]
    change (0 : Int) = _
    omega

theorem toNat_injective {p q : Bool} (h : (p.toNat : Int) = q.toNat) : p = q := by
  revert p q
  decide

theorem bitAt_eq_iff {x y : Int} {i j : Nat} :
    bitAt x i = bitAt y j ↔ x / 2 ^ i % 2 = y / 2 ^ j % 2 := by
  rw [← toNat_bitAt, ← toNat_bitAt]
  exact ⟨fun h => by rw [h], toNat_injective⟩

theorem bitAt_ediv (x : Int) (n i : Nat) : bitAt (x / 2 ^ n) i = bitAt x (n + i) := by
  rw [bitAt_eq_iff, pow_add, Int.ediv_ediv_of_nonneg (by positivity)]

theorem bitAt_congr {x y : Int} {n i : Nat} (h : x ≡ y [ZMOD 2 ^ n]) (hi : i < n) :
    bitAt x i = bitAt y i := by
  -- The residue modulo `2 ^ (i + 1)` is the bit above the residue modulo `2 ^ i`.
  have hsucc : x % 2 ^ (i + 1) = y % 2 ^ (i + 1) := h.of_dvd (pow_dvd_pow 2 hi)
  have hlow : x % 2 ^ i = y % 2 ^ i := h.of_dvd (pow_dvd_pow 2 hi.le)
  rw [emod_two_pow_succ', emod_two_pow_succ', hlow] at hsucc
  rw [bitAt_eq_iff]
  have hpos : (0 : Int) < 2 ^ i := by positivity
  nlinarith [hsucc]

/-- The low bits are those of the residue. -/
theorem bitAt_emod {x : Int} {n i : Nat} (h : i < n) : bitAt (x % 2 ^ n) i = bitAt x i :=
  bitAt_congr (Int.mod_modEq x _) h

theorem bitAt_of_nonneg {x : Int} {n i : Nat} (h0 : 0 ≤ x) (h : x < 2 ^ n) (hi : n ≤ i) :
    bitAt x i = false := by
  have hlt : x < 2 ^ i := h.trans_le (pow_le_pow_right₀ (by decide) hi)
  unfold bitAt
  rw [Int.ediv_eq_zero_of_lt h0 hlt]
  rfl

theorem bitAt_of_neg {x : Int} {n i : Nat} (h0 : x < 0) (h : -2 ^ n ≤ x) (hi : n ≤ i) :
    bitAt x i = true := by
  have hle : (2 : Int) ^ n ≤ 2 ^ i := pow_le_pow_right₀ (by decide) hi
  have hq : x / 2 ^ i = -1 :=
    Int.ediv_eq_neg_one_of_neg_of_le h0 (by omega)
  unfold bitAt
  rw [hq]
  rfl

theorem bitAt_mul_two_pow_lt {x : Int} {n i : Nat} (h : i < n) : bitAt (x * 2 ^ n) i = false := by
  obtain ⟨d, rfl⟩ := Nat.exists_eq_add_of_lt h
  unfold bitAt
  have hx : x * 2 ^ (i + d + 1) / 2 ^ i = 2 * (x * 2 ^ d) := by
    rw [show x * 2 ^ (i + d + 1) = 2 * (x * 2 ^ d) * 2 ^ i by ring]
    exact Int.mul_ediv_cancel _ (by positivity)
  rw [hx]
  simp

theorem bitAt_mul_two_pow (x : Int) (n i : Nat) : bitAt (x * 2 ^ n) (n + i) = bitAt x i := by
  rw [← bitAt_ediv, Int.mul_ediv_cancel _ (by positivity)]

theorem bitAt_zero (i : Nat) : bitAt 0 i = false := by
  unfold bitAt
  rw [Int.zero_ediv]
  rfl

theorem bitAt_neg_sub_one (x : Int) (i : Nat) : bitAt (-x - 1) i = !bitAt x i := by
  have h := lnot_bit_eq x i
  rw [lnot_eq] at h
  unfold bitAt
  rw [h]
  by_cases hx : x / 2 ^ i % 2 = 1
  · rw [hx]
    rfl
  · have h0 : x / 2 ^ i % 2 = 0 := by omega
    rw [h0]
    rfl

/-- Only zero has all bits clear. -/
theorem eq_zero_of_bitAt {x : Int} (h : ∀ i, bitAt x i = false) : x = 0 := by
  -- Half of such a number is another one, and closer to zero.
  induction hn : x.natAbs using Nat.strong_induction_on generalizing x with
  | _ n ih =>
    have heven : x / 2 ^ 0 % 2 = 0 := by
      have h0 := toNat_bitAt x 0
      rw [h 0] at h0
      exact h0.symm
    rw [pow_zero, Int.ediv_one] at heven
    by_contra hx
    have hhalf : x / 2 = 0 := by
      refine ih (x / 2).natAbs (by omega) (fun i => ?_) rfl
      rw [← pow_one (2 : Int), bitAt_ediv]
      exact h _
    omega

theorem eq_neg_one_of_bitAt {x : Int} (h : ∀ i, bitAt x i = true) : x = -1 := by
  have hnot : -x - 1 = 0 := eq_zero_of_bitAt fun i => by rw [bitAt_neg_sub_one, h i]; rfl
  omega

/-- The bits determine the number. -/
theorem eq_of_bitAt {x y : Int} (h : ∀ i, bitAt x i = bitAt y i) : x = y := by
  -- The halves have equal bits too, and are closer to zero.
  induction hn : x.natAbs + y.natAbs using Nat.strong_induction_on generalizing x y with
  | _ n ih =>
    have hlast : x % 2 = y % 2 := by
      have h0 := bitAt_eq_iff.mp (h 0)
      rwa [pow_zero, Int.ediv_one, Int.ediv_one] at h0
    by_cases hsmall : (x / 2).natAbs + (y / 2).natAbs < n
    · have hhalf : x / 2 = y / 2 := by
        refine ih _ hsmall (fun i => ?_) rfl
        rw [← pow_one (2 : Int), bitAt_ediv, bitAt_ediv]
        exact h _
      omega
    · omega

/-- Bits can be chosen. -/
theorem exists_bitAt_eq (f : Nat → Bool) (n : Nat) :
    ∃ x : Int, 0 ≤ x ∧ x < 2 ^ n ∧ ∀ i < n, bitAt x i = f i := by
  induction n with
  | zero => exact ⟨0, le_rfl, by decide, fun i hi => absurd hi (Nat.not_lt_zero i)⟩
  | succ n ih =>
    obtain ⟨x, h0, hlt, hbits⟩ := ih
    have hc : ((f n).toNat : Int) ≤ 1 := by exact_mod_cast Bool.toNat_le (f n)
    have hp : (0 : Int) < 2 ^ n := by positivity
    have hmul : ((f n).toNat : Int) * 2 ^ n ≤ 1 * 2 ^ n := mul_le_mul_of_nonneg_right hc hp.le
    refine ⟨x + (f n).toNat * 2 ^ n, by positivity, by rw [pow_succ]; linarith, fun i hi => ?_⟩
    rcases Nat.lt_or_eq_of_le (Nat.le_of_lt_succ hi) with hlt' | rfl
    · rw [← hbits i hlt']
      exact bitAt_congr (Int.add_mul_modulus_modEq_iff.mpr rfl) hlt'
    · apply toNat_injective
      rw [toNat_bitAt, Int.add_mul_ediv_right _ _ hp.ne', Int.ediv_eq_zero_of_lt h0 hlt, zero_add]
      exact Int.emod_eq_of_lt (by positivity) (by omega)

/-! ## Words -/

/-- The number that the low `w` bits of `x` are read as. -/
def readWord (signed : Bool) (w : Nat) (x : Int) : Int :=
  if signed then signedResidue w x else x % 2 ^ w

theorem readWord_modEq (signed : Bool) (w : Nat) (x : Int) :
    readWord signed w x ≡ x [ZMOD 2 ^ w] := by
  unfold readWord
  split
  · exact signedResidue_modEq w x
  · exact Int.mod_modEq x _

theorem readWord_congr {signed : Bool} {w : Nat} {x y : Int} (h : x ≡ y [ZMOD 2 ^ w]) :
    readWord signed w x = readWord signed w y := by
  unfold readWord
  rw [signedResidue_congr h, h]

/-- Above the word a signed number repeats its top bit, an unsigned one has zeros. -/
theorem bitAt_readWord {signed : Bool} {w : Nat} (hw : 0 < w) (x : Int) (i : Nat) :
    bitAt (readWord signed w x) i =
      if i < w then bitAt x i else signed && bitAt x (w - 1) := by
  split
  case isTrue hi => exact bitAt_congr (readWord_modEq signed w x) hi
  case isFalse hi =>
    have htop : bitAt (readWord signed w x) (w - 1) = bitAt x (w - 1) :=
      bitAt_congr (readWord_modEq signed w x) (by omega)
    rw [← htop]
    cases signed with
    | false =>
      exact bitAt_of_nonneg (Int.emod_nonneg _ (by positivity))
        (Int.emod_lt_of_pos _ (by positivity)) (Nat.not_lt.mp hi)
    | true =>
      rw [Bool.true_and]
      obtain ⟨hlo, hhi⟩ := signedResidue_mem hw x
      change -half w ≤ readWord true w x at hlo
      change readWord true w x < half w at hhi
      unfold half at hlo hhi
      rcases lt_or_ge (readWord true w x) 0 with h0 | h0
      · rw [bitAt_of_neg h0 hlo (by omega), bitAt_of_neg h0 hlo le_rfl]
      · rw [bitAt_of_nonneg h0 hhi (by omega), bitAt_of_nonneg h0 hhi le_rfl]

/-! ## Bit-serial machines -/

section Machine

variable {D C D' C' : Type}

/-- The carry into digit `i`. -/
def carryAt (step : D → D → C → C × D) (a b : Nat → D) (c : C) : Nat → C
  | 0 => c
  | i + 1 => (step (a i) (b i) (carryAt step a b c i)).1

/-- Digit `i` of the result. -/
def sumAt (step : D → D → C → C × D) (a b : Nat → D) (c : C) (i : Nat) : D :=
  (step (a i) (b i) (carryAt step a b c i)).2

variable {step : D → D → C → C × D} {step' : D' → D' → C' → C' × D'}
variable {RD : D → D' → Prop} {RC : C → C' → Prop}
variable {a b : Nat → D} {a' b' : Nat → D'} {c : C} {c' : C'}

/-- A machine whose steps follow those of another. -/
def Simulates (RD : D → D' → Prop) (RC : C → C' → Prop) (step : D → D → C → C × D)
    (step' : D' → D' → C' → C' × D') : Prop :=
  ∀ a b c a' b' c', RD a a' → RD b b' → RC c c' →
    RC (step a b c).1 (step' a' b' c').1 ∧ RD (step a b c).2 (step' a' b' c').2

theorem Simulates.carry (h : Simulates RD RC step step') (ha : ∀ i, RD (a i) (a' i))
    (hb : ∀ i, RD (b i) (b' i)) (hc : RC c c') (i : Nat) :
    RC (carryAt step a b c i) (carryAt step' a' b' c' i) := by
  induction i with
  | zero => exact hc
  | succ i ih => exact (h _ _ _ _ _ _ (ha i) (hb i) ih).1

theorem Simulates.sum (h : Simulates RD RC step step') (ha : ∀ i, RD (a i) (a' i))
    (hb : ∀ i, RD (b i) (b' i)) (hc : RC c c') (i : Nat) :
    RD (sumAt step a b c i) (sumAt step' a' b' c' i) :=
  (h _ _ _ _ _ _ (ha i) (hb i) (h.carry ha hb hc i)).2

/-- A carry that a pair of digits passes on, the same pair passes on again. -/
def Settles (step : D → D → C → C × D) : Prop :=
  ∀ a b c, (step a b (step a b c).1).1 = (step a b c).1

/-- Where both operands repeat their digit `n`, the carry does not change after it. -/
theorem Settles.carry_eq (h : Settles step) {n : Nat} (ha : ∀ i, n ≤ i → a i = a n)
    (hb : ∀ i, n ≤ i → b i = b n) (d : Nat) :
    carryAt step a b c (n + 1 + d) = carryAt step a b c (n + 1) := by
  induction d with
  | zero => rfl
  | succ d ih =>
    calc carryAt step a b c (n + 1 + (d + 1))
        = (step (a (n + 1 + d)) (b (n + 1 + d)) (carryAt step a b c (n + 1 + d))).1 := rfl
      _ = (step (a n) (b n) (step (a n) (b n) (carryAt step a b c n)).1).1 := by
          rw [ha _ (by omega), hb _ (by omega), ih]; rfl
      _ = carryAt step a b c (n + 1) := h _ _ _

theorem Settles.sum_eq (h : Settles step) {n : Nat} (ha : ∀ i, n ≤ i → a i = a n)
    (hb : ∀ i, n ≤ i → b i = b n) {i : Nat} (hi : n + 1 ≤ i) :
    sumAt step a b c i = sumAt step a b c (n + 1) := by
  obtain ⟨d, rfl⟩ := Nat.exists_eq_add_of_le hi
  unfold sumAt
  rw [h.carry_eq ha hb, ha _ (by omega), hb _ (by omega), ha (n + 1) (by omega),
    hb (n + 1) (by omega)]

end Machine

/-! ## Addition and subtraction -/

/-- One digit of `a + b + c`. -/
def fullAdder (a b c : Bool) : Bool × Bool := (a && b || c && (a || b), a ^^ b ^^ c)

/-- One digit of `a - b - c`. -/
def fullSubtractor (a b c : Bool) : Bool × Bool := (!a && b || c && (!a || b), a ^^ b ^^ c)

theorem fullAdder_digits (a b c : Bool) :
    (a.toNat + b.toNat + c.toNat : Int) =
      (fullAdder a b c).2.toNat + 2 * (fullAdder a b c).1.toNat := by
  revert a b c
  decide

theorem fullSubtractor_digits (a b c : Bool) :
    (a.toNat - b.toNat - c.toNat : Int) =
      (fullSubtractor a b c).2.toNat - 2 * (fullSubtractor a b c).1.toNat := by
  revert a b c
  decide

/-- The carry is what the high parts miss of the sum. -/
theorem add_ediv_two_pow (x y : Int) (i : Nat) :
    (x + y) / 2 ^ i = x / 2 ^ i + y / 2 ^ i +
      (carryAt fullAdder (bitAt x) (bitAt y) false i).toNat := by
  induction i with
  | zero => simp [carryAt]
  | succ i ih =>
    have hd := fullAdder_digits (bitAt x i) (bitAt y i)
      (carryAt fullAdder (bitAt x) (bitAt y) false i)
    have hs := Bool.toNat_le (fullAdder (bitAt x i) (bitAt y i)
      (carryAt fullAdder (bitAt x) (bitAt y) false i)).2
    rw [toNat_bitAt, toNat_bitAt] at hd
    rw [ediv_two_pow_succ, ediv_two_pow_succ, ediv_two_pow_succ, ih, carryAt]
    omega

theorem sub_ediv_two_pow (x y : Int) (i : Nat) :
    (x - y) / 2 ^ i = x / 2 ^ i - y / 2 ^ i -
      (carryAt fullSubtractor (bitAt x) (bitAt y) false i).toNat := by
  induction i with
  | zero => simp [carryAt]
  | succ i ih =>
    have hd := fullSubtractor_digits (bitAt x i) (bitAt y i)
      (carryAt fullSubtractor (bitAt x) (bitAt y) false i)
    have hs := Bool.toNat_le (fullSubtractor (bitAt x i) (bitAt y i)
      (carryAt fullSubtractor (bitAt x) (bitAt y) false i)).2
    rw [toNat_bitAt, toNat_bitAt] at hd
    rw [ediv_two_pow_succ, ediv_two_pow_succ, ediv_two_pow_succ, ih, carryAt]
    omega

theorem sumAt_fullAdder (x y : Int) (i : Nat) :
    sumAt fullAdder (bitAt x) (bitAt y) false i = bitAt (x + y) i := by
  have hd := fullAdder_digits (bitAt x i) (bitAt y i)
    (carryAt fullAdder (bitAt x) (bitAt y) false i)
  have hs := Bool.toNat_le (sumAt fullAdder (bitAt x) (bitAt y) false i)
  have hbit := toNat_bitAt (x + y) i
  rw [toNat_bitAt, toNat_bitAt] at hd
  rw [add_ediv_two_pow] at hbit
  apply toNat_injective
  unfold sumAt at hs ⊢
  omega

theorem sumAt_fullSubtractor (x y : Int) (i : Nat) :
    sumAt fullSubtractor (bitAt x) (bitAt y) false i = bitAt (x - y) i := by
  have hd := fullSubtractor_digits (bitAt x i) (bitAt y i)
    (carryAt fullSubtractor (bitAt x) (bitAt y) false i)
  have hs := Bool.toNat_le (sumAt fullSubtractor (bitAt x) (bitAt y) false i)
  have hbit := toNat_bitAt (x - y) i
  rw [toNat_bitAt, toNat_bitAt] at hd
  rw [sub_ediv_two_pow] at hbit
  apply toNat_injective
  unfold sumAt at hs ⊢
  omega

end Bambu.Math
