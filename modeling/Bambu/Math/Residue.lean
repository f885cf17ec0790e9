/-
  Bambu.Math.Residue

  Signed residues modulo `2 ^ w` and the sets of residues of an interval.

  `signedResidue w x` is the `w`-bit two's complement reading of `x`.  The
  residues of an interval of integers form an arc of the circle `Z / 2 ^ w`:
  seen in `[-2^(w-1), 2^(w-1))` the arc is an interval when it does not cross
  the signed limits (`image_Icc_of_le`), the complement of one when it does
  (`image_Icc_of_gt`), and everything when the interval is long enough
  (`image_Icc_of_long`).  `signedResidue_add` is the step all three rest on: it
  says where the residue moves when the integer moves by less than a full turn.
-/

import Mathlib

namespace Bambu.Math

/-! ## Half a turn -/

/-- Half the number of `w`-bit values. -/
def half (w : Nat) : Int := 2 ^ (w - 1)

theorem half_pos (w : Nat) : 0 < half w := by unfold half; positivity

theorem two_mul_half {w : Nat} (hw : 0 < w) : 2 * half w = 2 ^ w := by
  unfold half
  rw [← pow_succ']
  congr 1
  omega

theorem half_le_half {w w' : Nat} (h : w ≤ w') : half w ≤ half w' :=
  pow_le_pow_right₀ (by decide) (by omega)

theorem two_mul_half_le {w w' : Nat} (hw : 0 < w) (h : w < w') : 2 * half w ≤ half w' := by
  rw [two_mul_half hw]
  exact pow_le_pow_right₀ (by decide) (by omega)

/-- The signed `w`-bit values. -/
def signedRange (w : Nat) : Set Int := Set.Ico (-half w) (half w)

theorem mem_signedRange {w : Nat} {v : Int} : v ∈ signedRange w ↔ -half w ≤ v ∧ v < half w :=
  Iff.rfl

/-! ## The signed residue -/

/-- The signed `w`-bit value congruent to `x`. -/
def signedResidue (w : Nat) (x : Int) : Int := x.bmod (2 ^ w)

variable {w : Nat}

theorem signedResidue_mem (hw : 0 < w) (x : Int) : signedResidue w x ∈ signedRange w := by
  have hlo := Int.le_bmod (x := x) (Nat.two_pow_pos w)
  have hhi := Int.bmod_lt (x := x) (Nat.two_pow_pos w)
  have h2 := two_mul_half hw
  push_cast at hlo hhi
  rw [← h2] at hlo hhi
  exact ⟨by unfold signedResidue; omega, by unfold signedResidue; omega⟩

theorem neg_half_le_signedResidue (hw : 0 < w) (x : Int) : -half w ≤ signedResidue w x :=
  (signedResidue_mem hw x).1

theorem signedResidue_lt_half (hw : 0 < w) (x : Int) : signedResidue w x < half w :=
  (signedResidue_mem hw x).2

theorem signedResidue_modEq (w : Nat) (x : Int) : signedResidue w x ≡ x [ZMOD 2 ^ w] := by
  have h := Int.bmod_emod (x := x) (m := 2 ^ w)
  push_cast at h
  exact h

/-- The signed value congruent to `x` is unique. -/
theorem signedResidue_eq_of_modEq (hw : 0 < w) {x v : Int} (hv : v ∈ signedRange w)
    (h : v ≡ x [ZMOD 2 ^ w]) : signedResidue w x = v := by
  have h2 := two_mul_half hw
  obtain ⟨hlo, hhi⟩ := hv
  unfold signedResidue
  refine (Int.bmod_eq_iff (Nat.two_pow_pos w)).mpr ⟨?_, ?_, ?_⟩
  · push_cast; rw [← h2]; omega
  · push_cast; rw [← h2]; omega
  · push_cast; exact h.symm.dvd

theorem signedResidue_of_mem (hw : 0 < w) {x : Int} (hlo : -half w ≤ x) (hhi : x < half w) :
    signedResidue w x = x :=
  signedResidue_eq_of_modEq hw ⟨hlo, hhi⟩ (Int.ModEq.refl x)

/-- Two signed values that are congruent are equal. -/
theorem eq_of_modEq (hw : 0 < w) {x y : Int} (hx : x ∈ signedRange w) (hy : y ∈ signedRange w)
    (h : x ≡ y [ZMOD 2 ^ w]) : x = y :=
  (signedResidue_eq_of_modEq hw hx h).symm.trans
    (signedResidue_of_mem hw hy.1 hy.2)

theorem signedResidue_congr {x y : Int} (h : x ≡ y [ZMOD 2 ^ w]) :
    signedResidue w x = signedResidue w y := by
  unfold signedResidue
  rw [← Int.emod_bmod x, ← Int.emod_bmod y]
  push_cast
  rw [h]

theorem signedResidue_eq_iff {x y : Int} :
    signedResidue w x = signedResidue w y ↔ x ≡ y [ZMOD 2 ^ w] :=
  ⟨fun h => (signedResidue_modEq w x).symm.trans (h ▸ signedResidue_modEq w y),
    signedResidue_congr⟩

@[simp] theorem signedResidue_emod (w : Nat) (x : Int) :
    signedResidue w (x % 2 ^ w) = signedResidue w x :=
  signedResidue_congr (Int.mod_modEq x _)

@[simp] theorem signedResidue_signedResidue (w : Nat) (x : Int) :
    signedResidue w (signedResidue w x) = signedResidue w x :=
  signedResidue_congr (signedResidue_modEq w x)

theorem signedResidue_add_turn (hw : 0 < w) (x : Int) :
    signedResidue w (x + 2 * half w) = signedResidue w x := by
  rw [two_mul_half hw]
  exact signedResidue_congr (Int.add_modEq_right)

theorem signedResidue_sub_turn (hw : 0 < w) (x : Int) :
    signedResidue w (x - 2 * half w) = signedResidue w x := by
  rw [← signedResidue_add_turn hw (x - 2 * half w), sub_add_cancel]

/-- The unsigned reading of a signed value. -/
theorem emod_of_nonneg (hw : 0 < w) {x : Int} (h0 : 0 ≤ x) (hx : x < 2 * half w) :
    x % 2 ^ w = x := by
  rw [← two_mul_half hw]
  exact Int.emod_eq_of_lt h0 hx

theorem emod_of_neg (hw : 0 < w) {x : Int} (h0 : x < 0) (hx : -(2 * half w) ≤ x) :
    x % 2 ^ w = x + 2 * half w := by
  rw [← two_mul_half hw, ← Int.add_emod_right]
  exact Int.emod_eq_of_lt (by omega) (by omega)

/-- A narrower residue only depends on the wider one. -/
theorem signedResidue_of_le {v : Nat} (h : v ≤ w) (x : Int) :
    signedResidue v (signedResidue w x) = signedResidue v x :=
  signedResidue_congr ((signedResidue_modEq w x).of_dvd (pow_dvd_pow 2 h))

/-- Moving the integer by less than a turn moves its residue by the same
    amount, or takes it once across the upper limit. -/
theorem signedResidue_add (hw : 0 < w) (x : Int) {d : Int} (hd : 0 ≤ d) (hd' : d < 2 * half w) :
    (signedResidue w (x + d) = signedResidue w x + d ∧ signedResidue w x + d < half w) ∨
    (signedResidue w (x + d) = signedResidue w x + d - 2 * half w
      ∧ half w ≤ signedResidue w x + d) := by
  have hlo := neg_half_le_signedResidue hw x
  have hhi := signedResidue_lt_half hw x
  have hcong : signedResidue w x + d ≡ x + d [ZMOD 2 ^ w] :=
    (signedResidue_modEq w x).add_right d
  rcases Int.lt_or_le (signedResidue w x + d) (half w) with h | h
  · exact Or.inl ⟨signedResidue_eq_of_modEq hw ⟨by omega, h⟩ hcong, h⟩
  · refine Or.inr ⟨signedResidue_eq_of_modEq hw ⟨by omega, by omega⟩ ?_, h⟩
    rw [two_mul_half hw]
    exact (Int.sub_modulus_modEq_iff).mpr hcong

/-- The same step written for two integers less than a turn apart. -/
theorem signedResidue_of_le_of_lt (hw : 0 < w) {x y : Int} (hxy : x ≤ y)
    (hlen : y - x < 2 * half w) :
    (signedResidue w y = signedResidue w x + (y - x) ∧ signedResidue w x + (y - x) < half w) ∨
    (signedResidue w y = signedResidue w x + (y - x) - 2 * half w
      ∧ half w ≤ signedResidue w x + (y - x)) := by
  have h := signedResidue_add hw x (d := y - x) (by omega) hlen
  rwa [show x + (y - x) = y by omega] at h

/-! ## The residues of an interval -/

/-- Membership in the residues of an interval, in terms of congruence. -/
theorem mem_image_Icc_iff (hw : 0 < w) {a b v : Int} :
    v ∈ signedResidue w '' Set.Icc a b ↔
      v ∈ signedRange w ∧ ∃ k ∈ Set.Icc a b, v ≡ k [ZMOD 2 ^ w] := by
  constructor
  · rintro ⟨k, hk, rfl⟩
    exact ⟨signedResidue_mem hw k, k, hk, signedResidue_modEq w k⟩
  · rintro ⟨hv, k, hk, hcong⟩
    exact ⟨k, hk, signedResidue_eq_of_modEq hw hv hcong⟩

/-- The step from an integer to a residue, -/
theorem signedResidue_step (hw : 0 < w) (a : Int) {v : Int} (hv : v ∈ signedRange w) :
    signedResidue w (a + (v - signedResidue w a)) = v := by
  refine signedResidue_eq_of_modEq hw hv ?_
  have h := (signedResidue_modEq w a).add_right (v - signedResidue w a)
  rwa [show signedResidue w a + (v - signedResidue w a) = v by omega] at h

/-- and with one more turn. -/
theorem signedResidue_step_turn (hw : 0 < w) (a : Int) {v : Int} (hv : v ∈ signedRange w) :
    signedResidue w (a + (v - signedResidue w a + 2 * half w)) = v := by
  rw [← Int.add_assoc, signedResidue_add_turn hw, signedResidue_step hw a hv]

/-- An arc that stays between the signed limits is an interval. -/
theorem image_Icc_of_le (hw : 0 < w) {a b : Int} (hab : a ≤ b) (hlen : b - a < 2 * half w)
    (hle : signedResidue w a ≤ signedResidue w b) :
    signedResidue w '' Set.Icc a b = Set.Icc (signedResidue w a) (signedResidue w b) := by
  have hb := signedResidue_of_le_of_lt hw hab hlen
  ext v
  constructor
  · rintro ⟨k, ⟨hak, hkb⟩, rfl⟩
    have hk := signedResidue_of_le_of_lt hw hak (by omega)
    exact ⟨by omega, by omega⟩
  · rintro ⟨hav, hvb⟩
    have hlo := neg_half_le_signedResidue hw a
    have hlt := signedResidue_lt_half hw b
    exact ⟨a + (v - signedResidue w a), ⟨by omega, by omega⟩,
      signedResidue_step hw a ⟨by omega, by omega⟩⟩

/-- An arc that crosses the limits is the complement of an open interval. -/
theorem image_Icc_of_gt (hw : 0 < w) {a b : Int} (hab : a ≤ b) (hlen : b - a < 2 * half w)
    (hgt : signedResidue w b < signedResidue w a) :
    signedResidue w '' Set.Icc a b =
      {v | v ∈ signedRange w ∧ (v ≤ signedResidue w b ∨ signedResidue w a ≤ v)} := by
  have hb := signedResidue_of_le_of_lt hw hab hlen
  have hlo := neg_half_le_signedResidue hw a
  have hhi := signedResidue_lt_half hw a
  ext v
  constructor
  · rintro ⟨k, ⟨hak, hkb⟩, rfl⟩
    have hk := signedResidue_of_le_of_lt hw hak (by omega)
    exact ⟨signedResidue_mem hw k, by omega⟩
  · rintro ⟨hmem, hv | hv⟩ <;> obtain ⟨hvlo, hvhi⟩ := mem_signedRange.mp hmem
    · exact ⟨_, ⟨by omega, by omega⟩, signedResidue_step_turn hw a hmem⟩
    · exact ⟨_, ⟨by omega, by omega⟩, signedResidue_step hw a hmem⟩

/-- An interval of a full turn or more has every residue. -/
theorem image_Icc_of_long (hw : 0 < w) {a b : Int} (hlen : 2 * half w ≤ b - a + 1) :
    signedResidue w '' Set.Icc a b = signedRange w := by
  have hlo := neg_half_le_signedResidue hw a
  have hhi := signedResidue_lt_half hw a
  ext v
  constructor
  · rintro ⟨k, -, rfl⟩
    exact signedResidue_mem hw k
  · intro hmem
    obtain ⟨hvlo, hvhi⟩ := mem_signedRange.mp hmem
    rcases Int.lt_or_le v (signedResidue w a) with hv | hv
    · exact ⟨_, ⟨by omega, by omega⟩, signedResidue_step_turn hw a hmem⟩
    · exact ⟨_, ⟨by omega, by omega⟩, signedResidue_step hw a hmem⟩

end Bambu.Math
