/-
  Bambu.IRAnalysis.Constdivmul.Naf

  `computeNAF`: the non-adjacent form of the coefficient of a multiplication by a
  constant.

  The loop reads a digit off the two low bits and halves what is left.  Words are
  natural numbers below 2 ^ 64; the subtraction of the digit is made on `long long` and
  has no value where it overflows.  `Represents` is what one round after the other
  builds, from the last one backwards.
-/

import Mathlib.Data.Int.ModEq
import Mathlib.Tactic.Ring

namespace Bambu.Constdivmul

/-- `MCShiftAddOp`: the operand shifted by `shamt`, added or subtracted. -/
structure MCShiftAddOp where
  isAdd : Bool
  shamt : Nat
  deriving DecidableEq, Repr

/-- What an operation contributes to the coefficient. -/
def MCShiftAddOp.weight (op : MCShiftAddOp) : Int :=
  if op.isAdd then 2 ^ op.shamt else -2 ^ op.shamt

/-- The coefficient that a list of operations stands for. -/
def signedSum (ops : List MCShiftAddOp) : Int := (ops.map MCShiftAddOp.weight).sum

/-- `static_cast<long long>(e) - static_cast<long long>(z)`, which must not overflow. -/
def subSigned (e : Nat) (z : Int) : Option Int :=
  let difference := (e : Int).bmod (2 ^ 64) - z
  if -2 ^ 63 ≤ difference ∧ difference < 2 ^ 63 then some difference else none

/-- The `while` loop of `computeNAF`: `remaining` is `bitWidth - i`. -/
def nafLoop : Nat → Nat → Nat → Option (List MCShiftAddOp)
  | 0, _, _ => some []
  | remaining + 1, e, i =>
    if e = 0 then some []
    else if e % 2 = 1 then
      let z : Int := if e % 4 = 1 then 1 else -1
      (subSigned e z).bind fun eSigned =>
        (nafLoop remaining ((eSigned % 2 ^ 64).toNat / 2) (i + 1)).map
          fun ops => ⟨z = 1, i⟩ :: ops
    else nafLoop remaining (e / 2) (i + 1)

/-- `computeNAF`; no list where a signed subtraction overflows. -/
def computeNAF (coeff bitWidth : Nat) : Option (List MCShiftAddOp) :=
  if coeff = 0 then some [] else nafLoop bitWidth coeff 0

/-! ## Digits -/

@[simp] theorem signedSum_nil : signedSum [] = 0 := rfl

@[simp] theorem signedSum_cons (op : MCShiftAddOp) (ops : List MCShiftAddOp) :
    signedSum (op :: ops) = op.weight + signedSum ops := List.sum_cons

theorem weight_digit (e i : Nat) :
    (MCShiftAddOp.mk ((if e % 4 = 1 then 1 else -1 : Int) = 1) i).weight =
      (if e % 4 = 1 then 1 else -1) * 2 ^ i := by
  unfold MCShiftAddOp.weight
  split <;> simp_all

/-- The operations `ops` are the digits of `e` from position `i` on, up to a multiple of
`2 ^ remaining`, and no two of them are adjacent. -/
structure Represents (remaining e i : Nat) (ops : List MCShiftAddOp) : Prop where
  /-- An even number has no digit at the first position. -/
  le_shamt : ∀ op ∈ ops, i + (1 - e % 2) ≤ op.shamt
  apart : ops.Pairwise fun a b => a.shamt + 2 ≤ b.shamt
  congr : signedSum ops ≡ e * 2 ^ i [ZMOD 2 ^ (i + remaining)]

theorem Represents.zero (e i : Nat) : Represents 0 e i [] where
  le_shamt := fun _ h => absurd h List.not_mem_nil
  apart := .nil
  congr := ((Int.modEq_zero_iff_dvd).mpr (Dvd.intro_left _ rfl)).symm

theorem Represents.nothing (remaining i : Nat) : Represents remaining 0 i [] where
  le_shamt := fun _ h => absurd h List.not_mem_nil
  apart := .nil
  congr := by
    rw [Nat.cast_zero, zero_mul]
    rfl

/-- The digits of half of an even number are its own. -/
theorem Represents.even {remaining e i : Nat} {ops : List MCShiftAddOp} (heven : e % 2 = 0)
    (h : Represents remaining (e / 2) (i + 1) ops) : Represents (remaining + 1) e i ops where
  le_shamt := by
    intro op hop
    have hle := h.le_shamt op hop
    omega
  apart := h.apart
  congr := by
    have htwice : (e : Int) * 2 ^ i = (e / 2 : Nat) * 2 ^ (i + 1) := by
      rw [pow_succ', ← mul_assoc]
      congr 1
      omega
    rw [htwice, show i + (remaining + 1) = i + 1 + remaining by omega]
    exact h.congr

/-- A digit that leaves a multiple of four, before the digits of what is left. -/
theorem Represents.odd {remaining e i rest : Nat} {ops : List MCShiftAddOp} {z : Int}
    (hz : (MCShiftAddOp.mk (z = 1) i).weight = z * 2 ^ i) (hodd : e % 2 = 1) (hrest : rest % 2 = 0)
    (hcongr : 2 * (rest : Int) ≡ e - z [ZMOD 2 ^ (remaining + 1)])
    (h : Represents remaining rest (i + 1) ops) :
    Represents (remaining + 1) e i (⟨z = 1, i⟩ :: ops) where
  le_shamt := by
    intro op hop
    rcases List.mem_cons.mp hop with rfl | hin
    · show i + (1 - e % 2) ≤ i
      omega
    · have hle := h.le_shamt op hin
      omega
  apart := by
    refine List.pairwise_cons.mpr ⟨fun op hop => ?_, h.apart⟩
    have hle := h.le_shamt op hop
    show i + 2 ≤ op.shamt
    omega
  congr := by
    have htail := h.congr
    rw [show i + 1 + remaining = i + (remaining + 1) by omega] at htail
    have hhead := hcongr.mul_right' (c := 2 ^ i)
    rw [← pow_add, Nat.add_comm (remaining + 1) i] at hhead
    rw [signedSum_cons, hz]
    calc z * 2 ^ i + signedSum ops
        ≡ z * 2 ^ i + rest * 2 ^ (i + 1) [ZMOD 2 ^ (i + (remaining + 1))] := htail.add_left _
      _ = z * 2 ^ i + 2 * rest * 2 ^ i := by ring
      _ ≡ z * 2 ^ i + (e - z) * 2 ^ i [ZMOD 2 ^ (i + (remaining + 1))] := hhead.add_left _
      _ = e * 2 ^ i := by ring

/-! ## The loop -/

/-- One round on an odd number whose digit can be subtracted. -/
theorem nafLoop_odd {e : Nat} (remaining i : Nat) {eSigned : Int} (hodd : e % 2 = 1)
    (hsub : subSigned e (if e % 4 = 1 then 1 else -1) = some eSigned) :
    nafLoop (remaining + 1) e i =
      (nafLoop remaining ((eSigned % 2 ^ 64).toNat / 2) (i + 1)).map fun ops =>
        ⟨(if e % 4 = 1 then 1 else -1 : Int) = 1, i⟩ :: ops := by
  have hne : e ≠ 0 := by omega
  conv_lhs => unfold nafLoop
  rw [if_neg hne, if_pos hodd]
  dsimp only
  rw [hsub]
  rfl

theorem nafLoop_even {remaining e i : Nat} (hne : e ≠ 0) (heven : e % 2 = 0) :
    nafLoop (remaining + 1) e i = nafLoop remaining (e / 2) (i + 1) := by
  conv_lhs => unfold nafLoop
  rw [if_neg hne, if_neg (by omega)]

/-- The digit of an odd number can be subtracted unless that gives 2 ^ 63. -/
theorem subSigned_digit {e : Nat} (he : e < 2 ^ 64) (hodd : e % 2 = 1) (hne : e ≠ 2 ^ 63 - 1) :
    subSigned e (if e % 4 = 1 then 1 else -1) =
      some ((e : Int).bmod (2 ^ 64) - if e % 4 = 1 then 1 else -1) := by
  unfold subSigned
  dsimp only
  rw [if_pos]
  rw [Int.bmod_def]
  split <;> split <;> omega

/-- One round on an odd number: what it leaves is even and below 2 ^ 63 - 1, and the
digits of that give the digits of the number. -/
theorem nafLoop_round {remaining e : Nat} (i : Nat) (hremaining : remaining < 64) (he : e < 2 ^ 64)
    (hodd : e % 2 = 1) (hne : e ≠ 2 ^ 63 - 1) :
    ∃ rest < 2 ^ 63 - 1, ∀ ops, nafLoop remaining rest (i + 1) = some ops →
      Represents remaining rest (i + 1) ops →
      ∃ ops', nafLoop (remaining + 1) e i = some ops' ∧ Represents (remaining + 1) e i ops' := by
  have hloop := nafLoop_odd remaining i hodd (subSigned_digit he hodd hne)
  have hweight := weight_digit e i
  generalize hz : (if e % 4 = 1 then 1 else -1 : Int) = z at *
  generalize hleft : (((e : Int).bmod (2 ^ 64) - z) % 2 ^ 64).toNat = left at *
  -- The digit leaves a multiple of four, which may have wrapped around to zero.
  have hfour : left % 4 = 0 ∧ left < 2 ^ 64 := by
    rw [Int.bmod_def] at hleft
    split at hz <;> split at hleft <;> omega
  have hwrap : (left : Int) ≡ e - z [ZMOD 2 ^ 64] := by
    have hbmod : (e : Int).bmod (2 ^ 64) ≡ e [ZMOD 2 ^ 64] := Int.bmod_emod
    rw [← hleft, Int.toNat_of_nonneg (Int.emod_nonneg _ (by decide))]
    exact (Int.mod_modEq _ _).trans (hbmod.sub_right z)
  have hdvd : (2 : Int) ^ (remaining + 1) ∣ 2 ^ 64 := pow_dvd_pow 2 hremaining
  refine ⟨left / 2, by omega, fun ops hrest hops => ⟨_, by rw [hloop, hrest]; rfl, ?_⟩⟩
  refine hops.odd hweight hodd (by omega) ?_
  rw [show 2 * ((left / 2 : Nat) : Int) = left by omega]
  exact hwrap.of_dvd hdvd

/-- Run lemma: unless a subtraction gives 2 ^ 63, the loop finds the digits. -/
theorem nafLoop_spec (remaining : Nat) : ∀ e i, remaining ≤ 64 → e < 2 ^ 64 →
    (1 ≤ remaining → e ≠ 2 ^ 63 - 1) → (2 ≤ remaining → e ≠ 2 ^ 64 - 2) →
    ∃ ops, nafLoop remaining e i = some ops ∧ Represents remaining e i ops := by
  induction remaining with
  | zero => exact fun e i _ _ _ _ => ⟨[], rfl, .zero e i⟩
  | succ remaining ih =>
    intro e i hremaining he hone htwo
    by_cases hzero : e = 0
    · subst hzero
      exact ⟨[], rfl, .nothing _ i⟩
    by_cases hodd : e % 2 = 1
    · obtain ⟨rest, hrest, hround⟩ :=
        nafLoop_round i hremaining he hodd (hone (Nat.le_add_left _ _))
      obtain ⟨ops, hloop, hops⟩ :=
        ih rest (i + 1) (by omega) (by omega) (fun _ => by omega) (fun _ => by omega)
      exact hround ops hloop hops
    · have heven : e % 2 = 0 := by omega
      obtain ⟨ops, hloop, hops⟩ :=
        ih (e / 2) (i + 1) (by omega) (by omega) (fun _ => by omega) (fun _ => by omega)
      exact ⟨ops, (nafLoop_even hzero heven).trans hloop, hops.even heven⟩

/-- The digits of `c` are found without an overflow of `long long`, no two of them
adjacent, and stand for `c` modulo `2 ^ w`. -/
def YieldsNAF (c w : Nat) : Prop :=
  ∃ ops, computeNAF c w = some ops ∧ ops.Pairwise (fun a b => a.shamt + 2 ≤ b.shamt) ∧
    signedSum ops ≡ c [ZMOD 2 ^ w]

/-- `computeNAF` yields the non-adjacent form of every coefficient but two: from
2 ^ 63 - 1 the first round subtracts -1, and from 2 ^ 64 - 2 the second one does. -/
theorem computeNAF_iff (c w : Nat) (hc : c < 2 ^ 64) (hw : w ≤ 64) :
    YieldsNAF c w ↔ ¬ (c = 2 ^ 63 - 1 ∧ 1 ≤ w ∨ c = 2 ^ 64 - 2 ∧ 2 ≤ w) := by
  constructor
  · rintro ⟨ops, hrun, -, -⟩ hcase
    have hnone : ∀ remaining i, nafLoop (remaining + 1) (2 ^ 63 - 1) i = none := fun _ _ => rfl
    rcases hcase with ⟨rfl, hone⟩ | ⟨rfl, htwo⟩
    · obtain ⟨remaining, rfl⟩ := Nat.exists_eq_add_of_le' hone
      rw [computeNAF, if_neg (by decide), hnone] at hrun
      cases hrun
    · obtain ⟨remaining, rfl⟩ := Nat.exists_eq_add_of_le' htwo
      rw [computeNAF, if_neg (by decide), nafLoop_even (by decide) (by decide),
        show (2 ^ 64 - 2) / 2 = 2 ^ 63 - 1 from rfl, hnone] at hrun
      cases hrun
  · intro hcase
    obtain ⟨ops, hloop, hops⟩ := nafLoop_spec w c 0 hw hc (fun h heq => hcase (.inl ⟨heq, h⟩))
      (fun h heq => hcase (.inr ⟨heq, h⟩))
    by_cases hzero : c = 0
    · subst hzero
      exact ⟨[], rfl, .nil, rfl⟩
    · refine ⟨ops, (if_neg hzero).trans hloop, hops.apart, ?_⟩
      have hcongr := hops.congr
      rw [Nat.zero_add, pow_zero, mul_one] at hcongr
      exact hcongr

/-- A run of ones becomes one subtraction and one addition above it. -/
example : computeNAF 60 8 = some [⟨false, 2⟩, ⟨true, 6⟩] := by decide +kernel

theorem computeNAF_iff_seven : YieldsNAF 7 8 :=
  (computeNAF_iff 7 8 (by decide) (by decide)).mpr (by decide)

/-- Subtracting -1 from 2 ^ 63 - 1 is not a `long long`. -/
theorem not_yieldsNAF_max : ¬ YieldsNAF (2 ^ 63 - 1) 64 := by
  rintro ⟨ops, hrun, -⟩
  cases hrun

end Bambu.Constdivmul
