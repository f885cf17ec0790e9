/-
  Bambu.Math.FloatFormat

  Binary floating-point magnitudes with `e` exponent and `f` fraction bits, as the
  integers that encode them, and rounding to nearest, ties to even.

  Values are counted in units of the least subnormal.  Infinity takes part as the power
  of two after the greatest finite magnitude, which is what decides overflow in this
  rounding mode.  The next magnitude is always one unit in the last place away
  (`magValue_succ`), so that the magnitude below a value and the remainder that it
  leaves decide the rounding (`isNearestEven_of_scaled`).  A significand may be shifted
  with its low bit jammed before it is rounded by two places or more (`roundEven_jam`).
-/

import Mathlib.Tactic.IntervalCases
import Mathlib.Tactic.LinearCombination
import Mathlib.Tactic.Linarith
import Mathlib.Tactic.Positivity
import Mathlib.Tactic.Ring

namespace Bambu.Math

/-- The significand of a magnitude: the implicit one is there in normal magnitudes. -/
def magSig (f n : Nat) : Nat := if n / 2 ^ f = 0 then n % 2 ^ f else 2 ^ f + n % 2 ^ f

/-- The exponent of a magnitude over that of the subnormals. -/
def magExp (f n : Nat) : Nat := n / 2 ^ f - 1

/-- The value of a magnitude. -/
def magValue (f n : Nat) : Nat := magSig f n * 2 ^ magExp f n

/-- The magnitude of infinity. -/
def infMag (e f : Nat) : Nat := (2 ^ e - 1) * 2 ^ f

theorem magSig_of_lt {f n : Nat} (h : n < 2 ^ f) : magSig f n = n := by
  rw [magSig, if_pos (Nat.div_eq_of_lt h), Nat.mod_eq_of_lt h]

theorem magSig_lt (f n : Nat) : magSig f n < 2 ^ (f + 1) := by
  have hmod := Nat.mod_lt n (Nat.two_pow_pos f)
  rw [magSig, Nat.pow_succ]
  split <;> omega

/-- The fields of a packed magnitude. -/
theorem packed_fields {f x s : Nat} (hs : s < 2 ^ f) :
    (x * 2 ^ f + s) / 2 ^ f = x ∧ (x * 2 ^ f + s) % 2 ^ f = s := by
  rw [Nat.add_comm]
  exact ⟨by rw [Nat.add_mul_div_right _ _ (Nat.two_pow_pos f), Nat.div_eq_of_lt hs, Nat.zero_add],
    by rw [Nat.add_mul_mod_self_right, Nat.mod_eq_of_lt hs]⟩

/-- A normal magnitude by its exponent field and its significand. -/
theorem magSig_packed {f x s : Nat} (hx : 0 < x) (hs : s < 2 ^ f) :
    magSig f (x * 2 ^ f + s) = 2 ^ f + s ∧ magExp f (x * 2 ^ f + s) = x - 1 := by
  obtain ⟨hdiv, hmod⟩ := packed_fields (x := x) hs
  rw [magSig, magExp, hdiv, hmod, if_neg (Nat.pos_iff_ne_zero.mp hx)]
  exact ⟨rfl, rfl⟩

theorem magExp_of_lt {f n : Nat} (h : n < 2 ^ (f + 1)) : magExp f n = 0 := by
  rw [Nat.pow_succ] at h
  have hdiv := Nat.div_lt_of_lt_mul h
  rw [magExp]
  omega

/-- Below twice the least normal magnitude a magnitude is its own value. -/
theorem magSig_of_lt_two {f n : Nat} (h : n < 2 ^ (f + 1)) : magSig f n = n := by
  rw [Nat.pow_succ] at h
  rcases Nat.lt_or_ge n (2 ^ f) with hlt | hge
  · exact magSig_of_lt hlt
  · obtain ⟨s, rfl⟩ := Nat.exists_eq_add_of_le hge
    have hs : s < 2 ^ f := by omega
    have hone := (magSig_packed (f := f) Nat.one_pos hs).1
    rwa [Nat.one_mul] at hone

/-- The next magnitude is one unit in the last place away. -/
theorem magValue_succ (f n : Nat) : magValue f (n + 1) = magValue f n + 2 ^ magExp f n := by
  have hpos := Nat.two_pow_pos f
  obtain ⟨x, s, hs, rfl⟩ : ∃ x s, s < 2 ^ f ∧ n = x * 2 ^ f + s :=
    ⟨n / 2 ^ f, n % 2 ^ f, Nat.mod_lt _ hpos, by rw [Nat.mul_comm]; exact (Nat.div_add_mod _ _).symm⟩
  rcases Nat.lt_or_ge (s + 1) (2 ^ f) with hlt | hge
  · -- The exponent field stays.
    rcases Nat.eq_zero_or_pos x with rfl | hx
    · rw [Nat.zero_mul, Nat.zero_add]
      have h1 : s + 1 < 2 ^ (f + 1) := by rw [Nat.pow_succ]; omega
      have h2 : s < 2 ^ (f + 1) := by omega
      rw [magValue, magValue, magSig_of_lt hlt, magSig_of_lt hs, magExp_of_lt h1, magExp_of_lt h2]
      omega
    · obtain ⟨hsig, hexp⟩ := magSig_packed hx hs
      obtain ⟨hsig', hexp'⟩ := magSig_packed hx hlt
      rw [← Nat.add_assoc] at hsig' hexp'
      rw [magValue, magValue, hsig, hexp, hsig', hexp', ← Nat.add_assoc, Nat.succ_mul]
  · -- The significand carries into the exponent field.
    have hs' : s + 1 = 2 ^ f := by omega
    have hnext : x * 2 ^ f + s + 1 = (x + 1) * 2 ^ f + 0 := by rw [Nat.succ_mul]; omega
    obtain ⟨hsig', hexp'⟩ := magSig_packed (x := x + 1) (Nat.succ_pos x) hpos
    rw [hnext, magValue, magValue, hsig', hexp', Nat.add_zero, Nat.add_sub_cancel]
    rcases Nat.eq_zero_or_pos x with rfl | hx
    · rw [Nat.zero_mul, Nat.zero_add]
      have h2 : s < 2 ^ (f + 1) := by rw [Nat.pow_succ]; omega
      rw [magSig_of_lt hs, magExp_of_lt h2]
      omega
    · obtain ⟨hsig, hexp⟩ := magSig_packed hx hs
      obtain ⟨y, rfl⟩ := Nat.exists_eq_add_of_lt hx
      rw [hsig, hexp, Nat.zero_add, Nat.add_sub_cancel, Nat.pow_succ]
      have hdouble : 2 ^ f * (2 ^ y * 2) = (2 ^ f + (s + 1)) * 2 ^ y := by
        rw [hs']
        ring
      rw [hdouble]
      ring

theorem magValue_strictMono (f : Nat) : StrictMono (magValue f) := by
  refine strictMono_nat_of_lt_succ fun n => ?_
  rw [magValue_succ]
  exact Nat.lt_add_of_pos_right (Nat.two_pow_pos _)

/-! ## Rounding -/

/-- `n` is the magnitude nearest to `v`, the even one where two are. -/
structure IsNearestEven (e f : Nat) (v : ℚ) (n : Nat) : Prop where
  le_inf : n ≤ infMag e f
  nearest : ∀ m ≤ infMag e f, m ≠ n → |v - magValue f n| < |v - magValue f m| ∨
    (|v - magValue f n| = |v - magValue f m| ∧ n % 2 = 0)

section Rounding

variable {e f n : Nat} {v : ℚ}

/-- A value in the lower half of its interval rounds down. -/
theorem isNearestEven_down (hn : n < infMag e f) (hlo : (magValue f n : ℚ) ≤ v)
    (hmid : 2 * v < magValue f n + magValue f (n + 1) ∨
      (2 * v = magValue f n + magValue f (n + 1) ∧ n % 2 = 0)) : IsNearestEven e f v n := by
  have hmono := magValue_strictMono f
  refine ⟨hn.le, fun m _ hne => ?_⟩
  rw [abs_of_nonneg (sub_nonneg.mpr hlo)]
  rcases lt_or_gt_of_ne hne with hlt | hgt
  · have hm : (magValue f m : ℚ) < magValue f n := by exact_mod_cast hmono hlt
    left
    rw [abs_of_nonneg (by linarith)]
    linarith
  · have hm : (magValue f (n + 1) : ℚ) ≤ magValue f m := by
      exact_mod_cast hmono.monotone (Nat.succ_le_of_lt hgt)
    have hup : (magValue f n : ℚ) < magValue f (n + 1) := by exact_mod_cast hmono (Nat.lt_succ_self n)
    rw [abs_of_nonpos (by rcases hmid with h | ⟨h, -⟩ <;> linarith)]
    rcases hmid with hlt | ⟨heq, heven⟩
    · left
      linarith
    · rcases eq_or_lt_of_le hm with heq' | hlt'
      · right
        exact ⟨by linarith, heven⟩
      · left
        linarith

/-- A value in the upper half of its interval rounds up. -/
theorem isNearestEven_up (hn : n < infMag e f) (hhi : v ≤ magValue f (n + 1))
    (hmid : (magValue f n + magValue f (n + 1) : ℚ) < 2 * v ∨
      (2 * v = magValue f n + magValue f (n + 1) ∧ n % 2 = 1)) : IsNearestEven e f v (n + 1) := by
  have hmono := magValue_strictMono f
  refine ⟨hn, fun m _ hne => ?_⟩
  rw [abs_of_nonpos (sub_nonpos.mpr hhi)]
  rcases lt_or_gt_of_ne hne with hlt | hgt
  · have hm : (magValue f m : ℚ) ≤ magValue f n := by
      exact_mod_cast hmono.monotone (Nat.le_of_lt_succ hlt)
    have hup : (magValue f n : ℚ) < magValue f (n + 1) := by exact_mod_cast hmono (Nat.lt_succ_self n)
    rw [abs_of_nonneg (by rcases hmid with h | ⟨h, -⟩ <;> linarith)]
    rcases hmid with hlt' | ⟨heq, hodd⟩
    · left
      linarith
    · rcases eq_or_lt_of_le hm with heq' | hlt'
      · right
        exact ⟨by linarith, by omega⟩
      · left
        linarith
  · have hm : (magValue f (n + 1) : ℚ) < magValue f m := by exact_mod_cast hmono hgt
    left
    rw [abs_of_nonpos (by linarith)]
    linarith

/-- From the value of infinity on, a value rounds to infinity. -/
theorem isNearestEven_inf (hv : (magValue f (infMag e f) : ℚ) ≤ v) :
    IsNearestEven e f v (infMag e f) := by
  refine ⟨le_refl _, fun m hm hne => .inl ?_⟩
  have hlt : (magValue f m : ℚ) < magValue f (infMag e f) := by
    exact_mod_cast magValue_strictMono f (lt_of_le_of_ne hm hne)
  rw [abs_of_nonneg (sub_nonneg.mpr hv), abs_of_nonneg (by linarith)]
  linarith

/-- A magnitude that is not nearest: its successor is strictly nearer. -/
theorem not_isNearestEven_of_succ (hn : n < infMag e f)
    (hmid : (magValue f n + magValue f (n + 1) : ℚ) < 2 * v) : ¬ IsNearestEven e f v n := by
  intro h
  have hup : (magValue f n : ℚ) < magValue f (n + 1) := by
    exact_mod_cast magValue_strictMono f (Nat.lt_succ_self n)
  have habs : |v - magValue f n| = v - magValue f n := abs_of_nonneg (by linarith)
  have hcloser : |v - magValue f (n + 1)| < v - magValue f n :=
    abs_lt.mpr ⟨by linarith, by linarith⟩
  rcases h.nearest (n + 1) hn (Nat.succ_ne_self n) with hlt | ⟨heq, -⟩
  · rw [habs] at hlt
    linarith
  · rw [habs] at heq
    linarith

/-- A value below the middle of a step rounds to its lower end at most. -/
theorem IsNearestEven.le_of_two_mul_lt {k : Nat} (h : IsNearestEven e f v n)
    (hk : k ≤ infMag e f) (hv : 2 * v < magValue f k + magValue f (k + 1)) : n ≤ k := by
  by_contra hlt
  have hup : (magValue f (k + 1) : ℚ) ≤ magValue f n := by
    exact_mod_cast (magValue_strictMono f).monotone (show k + 1 ≤ n by omega)
  have hstep : (magValue f k : ℚ) < magValue f (k + 1) := by
    exact_mod_cast magValue_strictMono f (Nat.lt_succ_self k)
  have hfar : |v - magValue f k| < magValue f n - v := abs_lt.mpr ⟨by linarith, by linarith⟩
  have habs : |v - magValue f n| = magValue f n - v := by
    rw [abs_of_nonpos (by linarith)]
    ring
  rcases h.nearest k hk (by omega) with hlt' | ⟨heq, -⟩
  · rw [habs] at hlt'
    linarith
  · rw [habs] at heq
    linarith

/-- No two magnitudes are nearest. -/
theorem IsNearestEven.not_lt {m : Nat} (hn : IsNearestEven e f v n) (hm : IsNearestEven e f v m) :
    ¬ n < m := by
  intro hlt
  have hval : (magValue f n : ℚ) < magValue f m := by
    exact_mod_cast magValue_strictMono f hlt
  have hstep : (magValue f n : ℚ) < magValue f (n + 1) := by
    exact_mod_cast magValue_strictMono f (Nat.lt_succ_self n)
  have hsucc : (magValue f (n + 1) : ℚ) ≤ magValue f m := by
    exact_mod_cast (magValue_strictMono f).monotone (show n + 1 ≤ m by omega)
  -- Both are at the same distance, so that both are even and not neighbours.
  have hle1 : |v - magValue f n| ≤ |v - magValue f m| := by
    rcases hn.nearest m hm.le_inf (by omega) with h | ⟨h, -⟩
    · exact h.le
    · exact h.le
  have hle2 : |v - magValue f m| ≤ |v - magValue f n| := by
    rcases hm.nearest n hn.le_inf (by omega) with h | ⟨h, -⟩
    · exact h.le
    · exact h.le
  have heq := le_antisymm hle1 hle2
  have hmid : v - magValue f n = -(v - magValue f m) := by
    rcases abs_eq_abs.mp heq with h | h
    · linarith
    · exact h
  have heven : n % 2 = 0 ∧ m % 2 = 0 := by
    refine ⟨?_, ?_⟩
    · rcases hn.nearest m hm.le_inf (by omega) with h | ⟨-, h⟩
      · exact absurd heq h.ne
      · exact h
    · rcases hm.nearest n hn.le_inf (by omega) with h | ⟨-, h⟩
      · exact absurd heq h.ne'
      · exact h
  have hsucc' : (magValue f (n + 1) : ℚ) < magValue f m := by
    exact_mod_cast magValue_strictMono f (show n + 1 < m by omega)
  have hcloser : |v - magValue f (n + 1)| < v - magValue f n :=
    abs_lt.mpr ⟨by linarith, by linarith⟩
  have habs : |v - magValue f n| = v - magValue f n := abs_of_nonneg (by linarith)
  have hinf := hm.le_inf
  rcases hn.nearest (n + 1) (by omega) (Nat.succ_ne_self n) with h | ⟨h, -⟩
  · rw [habs] at h
    linarith
  · rw [habs] at h
    linarith

theorem IsNearestEven.unique {m : Nat} (hn : IsNearestEven e f v n) (hm : IsNearestEven e f v m) :
    n = m :=
  le_antisymm (Nat.not_lt.mp (hm.not_lt hn)) (Nat.not_lt.mp (hn.not_lt hm))

/-- The magnitude below a value and the remainder that it leaves decide the rounding:
the value is `W / D` units in the last place of `n`. -/
theorem isNearestEven_of_scaled {W D : Nat} {up : Bool} (hn : n < infMag e f) (hD : 0 < D)
    (hv : v * D = W * 2 ^ magExp f n) (hsig : W / D = magSig f n)
    (hup : up = true ↔ D < 2 * (W % D) ∨ (D = 2 * (W % D) ∧ n % 2 = 1)) :
    IsNearestEven e f v (n + up.toNat) := by
  have hDq : (0 : ℚ) < D := by exact_mod_cast hD
  obtain ⟨u, hu⟩ : ∃ u : ℚ, u = 2 ^ magExp f n := ⟨_, rfl⟩
  have hupos : 0 < u := hu ▸ by positivity
  have hsucc : (magValue f (n + 1) : ℚ) = magValue f n + u := by
    rw [magValue_succ, hu]
    push_cast
    ring
  have hval : (magValue f n : ℚ) = magSig f n * u := by
    rw [magValue, hu]
    push_cast
    ring
  have hdiv : (W : ℚ) = D * magSig f n + (W % D : Nat) := by
    rw [← hsig]
    exact_mod_cast (Nat.div_add_mod W D).symm
  have hrem : ((W % D : Nat) : ℚ) < D := by exact_mod_cast Nat.mod_lt W hD
  have hexcess : (v - magValue f n) * D = (W % D : Nat) * u := by
    rw [sub_mul, hv, hval, hdiv, hu]
    ring
  have hr : (0 : ℚ) ≤ (W % D : Nat) := Nat.cast_nonneg _
  have hlo : (magValue f n : ℚ) ≤ v := by
    by_contra hlt
    have : (v - magValue f n) * D < 0 := mul_neg_of_neg_of_pos (by linarith) hDq
    nlinarith
  have hhi : v ≤ magValue f (n + 1) := by
    by_contra hgt
    have : u * D < (v - magValue f n) * D := mul_lt_mul_of_pos_right (by linarith) hDq
    nlinarith
  -- Twice the excess against one unit is twice the remainder against the divisor.
  have htwice : (2 * v - (magValue f n + magValue f (n + 1))) * D =
      (2 * (W % D : Nat) - D) * u := by
    rw [hsucc]
    linear_combination 2 * hexcess
  cases up with
  | false =>
    rw [Bool.toNat_false, Nat.add_zero]
    refine isNearestEven_down hn hlo ?_
    have hnot : ¬ (D < 2 * (W % D) ∨ (D = 2 * (W % D) ∧ n % 2 = 1)) := by
      rw [← hup]
      exact Bool.false_ne_true
    rw [not_or] at hnot
    rcases Nat.lt_or_eq_of_le (Nat.not_lt.mp hnot.1) with hlt | heq
    · left
      have hlt' : (2 * (W % D : Nat) : ℚ) < D := by exact_mod_cast hlt
      by_contra hge
      have : 0 ≤ (2 * v - (magValue f n + magValue f (n + 1))) * D :=
        mul_nonneg (by linarith) hDq.le
      nlinarith
    · right
      have heq' : (2 * (W % D : Nat) : ℚ) = D := by exact_mod_cast heq
      rw [heq', sub_self, zero_mul] at htwice
      have hzero := (mul_eq_zero.mp htwice).resolve_right hDq.ne'
      exact ⟨by linarith, by omega⟩
  | true =>
    rw [Bool.toNat_true]
    refine isNearestEven_up hn hhi ?_
    rcases hup.mp rfl with hlt | ⟨heq, hodd⟩
    · left
      have hlt' : (D : ℚ) < 2 * (W % D : Nat) := by exact_mod_cast hlt
      by_contra hge
      have : (2 * v - (magValue f n + magValue f (n + 1))) * D ≤ 0 :=
        mul_nonpos_of_nonpos_of_nonneg (by linarith) hDq.le
      nlinarith
    · right
      have heq' : (D : ℚ) = 2 * (W % D : Nat) := by exact_mod_cast heq
      rw [← heq', sub_self, zero_mul] at htwice
      have hzero := (mul_eq_zero.mp htwice).resolve_right hDq.ne'
      exact ⟨by linarith, hodd⟩

end Rounding

/-! ## Guard, round and sticky bits -/

/-- A quotient with a sticky bit, shifted up by at most two places when the bit is set,
decides the rounding at its third place as the exact value does. -/
theorem sticky_shift {N D k : Nat} (hD : 0 < D) (hk : N % D ≠ 0 → k ≤ 2) :
    N * 2 ^ k / (8 * D) = N / D * 2 ^ k / 8 ∧
      (8 * D < 2 * (N * 2 ^ k % (8 * D)) ↔
        4 ≤ N / D * 2 ^ k % 8 ∧ (N / D * 2 ^ k % 4 ≠ 0 ∨ N % D ≠ 0)) ∧
      (8 * D = 2 * (N * 2 ^ k % (8 * D)) ↔ N / D * 2 ^ k % 8 = 4 ∧ N % D = 0) := by
  obtain ⟨Q, hQ⟩ : ∃ Q, Q = N / D * 2 ^ k := ⟨_, rfl⟩
  obtain ⟨c, hc⟩ : ∃ c, c = Q % 8 := ⟨_, rfl⟩
  obtain ⟨q, hq⟩ : ∃ q, q = Q / 8 := ⟨_, rfl⟩
  have hQc : Q = 8 * q + c := by omega
  have hc8 : c < 8 := by omega
  -- What the exact value has beyond the shifted quotient.
  obtain ⟨t, ht⟩ : ∃ t, t = N % D * 2 ^ k := ⟨_, rfl⟩
  have hW : N * 2 ^ k = D * Q + t := by
    rw [hQ, ht]
    conv_lhs => rw [← Nat.div_add_mod N D]
    ring
  have hzero : N % D = 0 ↔ t = 0 := by
    rw [ht]
    constructor
    · intro h
      rw [h, Nat.zero_mul]
    · intro h
      exact (Nat.mul_eq_zero.mp h).resolve_right (Nat.two_pow_pos k).ne'
  -- It stays below the step of the quotient's places.
  have hstep : (t = 0 ∨ (t < 4 * D ∧ c % 4 = 0) ∨ (t < 2 * D ∧ c % 2 = 0) ∨ t < D) := by
    by_cases hr : N % D = 0
    · exact .inl (hzero.mp hr)
    · right
      have hlt := Nat.mod_lt N hD
      have hk2 := hk hr
      have hmul : N / D * 2 ^ k % 2 ^ k = 0 := Nat.mul_mod_left _ _
      rw [← hQ] at hmul
      interval_cases k
      · right
        right
        omega
      · right
        left
        omega
      · left
        omega
  have hdecomp : N * 2 ^ k = 8 * D * q + (D * c + t) := by
    rw [hW, hQc]
    ring
  have hsmall : D * c + t < 8 * D := by
    have hmulc : D * c ≤ D * 7 := Nat.mul_le_mul_left D (by omega)
    rcases hstep with h | ⟨h, h4⟩ | ⟨h, h2⟩ | h
    · omega
    · have hmul4 : D * c ≤ D * 4 := Nat.mul_le_mul_left D (by omega)
      omega
    · have hmul6 : D * c ≤ D * 6 := Nat.mul_le_mul_left D (by omega)
      omega
    · omega
  have hdiv : N * 2 ^ k / (8 * D) = q := by
    rw [hdecomp, Nat.mul_add_div (by omega), Nat.div_eq_of_lt hsmall, Nat.add_zero]
  have hmod : N * 2 ^ k % (8 * D) = D * c + t := by
    rw [hdecomp, Nat.mul_add_mod, Nat.mod_eq_of_lt hsmall]
  rw [hdiv, hmod, ← hQ, ← hq, ← hc, show Q % 4 = c % 4 by omega, hzero]
  refine ⟨rfl, ?_, ?_⟩
  · interval_cases c <;> omega
  · interval_cases c <;> omega

/-! ## Rounding a significand -/

/-- `Z` in units of `2 ^ ext`, rounded to nearest, ties to even. -/
def roundEven (Z ext : Nat) : Nat :=
  Z / 2 ^ ext + (decide (2 ^ ext < 2 * (Z % 2 ^ ext) ∨
    (2 ^ ext = 2 * (Z % 2 ^ ext) ∧ Z / 2 ^ ext % 2 = 1))).toNat

/-- `Z` shifted to the right, its low bit joined by what is shifted out. -/
def jam (Z s : Nat) : Nat := Z / 2 ^ s ||| (decide (Z % 2 ^ s ≠ 0)).toNat

theorem or_one (q : Nat) : q ||| 1 = q + 1 - q % 2 := by
  have hdiv : (q ||| 1) / 2 ^ 1 = q / 2 ^ 1 ||| 1 / 2 ^ 1 := Nat.or_div_two_pow
  have hmod : (q ||| 1) % 2 ^ 1 = q % 2 ^ 1 ||| 1 % 2 ^ 1 := Nat.or_mod_two_pow
  rw [show 1 / 2 ^ 1 = 0 by rfl, Nat.or_zero] at hdiv
  have hone : q % 2 ^ 1 ||| 1 % 2 ^ 1 = 1 := by
    rcases Nat.mod_two_eq_zero_or_one q with h | h <;> rw [Nat.pow_one, h] <;> rfl
  rw [hone] at hmod
  omega

theorem roundEven_le (Z ext : Nat) : roundEven Z ext ≤ Z / 2 ^ ext + 1 :=
  Nat.add_le_add_left (Bool.toNat_le _) _

theorem roundEven_ge (Z ext : Nat) : Z / 2 ^ ext ≤ roundEven Z ext := Nat.le_add_right _ _

/-- Rounding stays below a bound that the value stays below with half a unit added. -/
theorem roundEven_lt {Z ext k : Nat} (hext : 0 < ext) (h : Z + 2 ^ (ext - 1) < k * 2 ^ ext) :
    roundEven Z ext < k := by
  obtain ⟨H, hH⟩ : ∃ H, H = 2 ^ (ext - 1) := ⟨_, rfl⟩
  have hpow : 2 ^ ext = 2 * H := by
    rw [hH, ← Nat.pow_succ']
    congr 1
    omega
  have hHpos : 0 < H := hH ▸ Nat.two_pow_pos _
  have hdecomp := Nat.div_add_mod Z (2 * H)
  rw [← hH, hpow] at h
  unfold roundEven
  rw [hpow]
  generalize Z / (2 * H) = q at *
  generalize Z % (2 * H) = r at *
  cases hup : decide (2 * H < 2 * r ∨ 2 * H = 2 * r ∧ q % 2 = 1) with
  | false =>
    rw [Bool.toNat_false, Nat.add_zero]
    refine Nat.lt_of_mul_lt_mul_right (a := 2 * H) (lt_of_le_of_lt ?_ h)
    rw [Nat.mul_comm]
    omega
  | true =>
    rw [decide_eq_true_eq] at hup
    rw [Bool.toNat_true]
    refine Nat.lt_of_mul_lt_mul_right (a := 2 * H) (lt_of_le_of_lt ?_ h)
    rw [Nat.succ_mul, Nat.mul_comm]
    omega

/-- A jammed value is the quotient or its odd successor. -/
theorem jam_cases (Z s : Nat) : (jam Z s = Z / 2 ^ s ∧ (Z % 2 ^ s = 0 ∨ Z / 2 ^ s % 2 = 1)) ∨
    (jam Z s = Z / 2 ^ s + 1 ∧ Z % 2 ^ s ≠ 0 ∧ Z / 2 ^ s % 2 = 0) := by
  unfold jam
  by_cases h : Z % 2 ^ s = 0
  · left
    rw [decide_eq_false (not_not.mpr h), Bool.toNat_false, Nat.or_zero]
    exact ⟨rfl, .inl h⟩
  · rw [decide_eq_true h, Bool.toNat_true, or_one]
    rcases Nat.mod_two_eq_zero_or_one (Z / 2 ^ s) with h0 | h1
    · right
      exact ⟨by rw [h0, Nat.sub_zero], h, h0⟩
    · left
      exact ⟨by rw [h1, Nat.add_sub_cancel], .inr h1⟩

/-- Rounding by two places or more sees no difference after a jamming shift. -/
theorem roundEven_jam (Z s : Nat) {ext : Nat} (hext : 2 ≤ ext) :
    roundEven (jam Z s) ext = roundEven Z (s + ext) := by
  obtain ⟨k, rfl⟩ : ∃ k, ext = k + 2 := ⟨ext - 2, by omega⟩
  obtain ⟨P, hP⟩ : ∃ P, P = 2 ^ k := ⟨_, rfl⟩
  have hpow : 2 ^ (k + 2) = 4 * P := by rw [hP, Nat.pow_add, Nat.mul_comm]
  obtain ⟨D, hD⟩ : ∃ D, D = 2 ^ s := ⟨_, rfl⟩
  have hDpos : 0 < D := hD ▸ Nat.two_pow_pos s
  have hPpos : 0 < P := hP ▸ Nat.two_pow_pos k
  obtain ⟨q, hq⟩ : ∃ q, q = Z / D := ⟨_, rfl⟩
  obtain ⟨t, ht⟩ : ∃ t, t = Z % D := ⟨_, rfl⟩
  obtain ⟨Q, hQ⟩ : ∃ Q, Q = q / (4 * P) := ⟨_, rfl⟩
  obtain ⟨r, hr⟩ : ∃ r, r = q % (4 * P) := ⟨_, rfl⟩
  have hqr : q = 4 * P * Q + r := by rw [hQ, hr]; exact (Nat.div_add_mod _ _).symm
  have hrlt : r < 4 * P := hr ▸ Nat.mod_lt _ (by omega)
  have htlt : t < D := ht ▸ Nat.mod_lt _ hDpos
  have hpar : q % 2 = r % 2 := by rw [hqr, show 4 * P * Q = 2 * (2 * P * Q) by ring]; omega
  -- The long remainder is the short one and what was jammed.
  have hdiv : Z / 2 ^ (s + (k + 2)) = Q := by
    rw [Nat.pow_add, hpow, ← hD, ← Nat.div_div_eq_div_mul, ← hq, hQ]
  have hmod : Z % 2 ^ (s + (k + 2)) = t + D * r := by
    rw [Nat.pow_add, hpow, ← hD, Nat.mod_mul, ← ht, ← hq, hr]
  obtain ⟨b, hjam, hb⟩ : ∃ b, jam Z s = 4 * P * Q + (r + b) ∧
      (b = 0 ∧ (t = 0 ∨ r % 2 = 1) ∨ b = 1 ∧ t ≠ 0 ∧ r % 2 = 0) := by
    rcases jam_cases Z s with ⟨h, hc⟩ | ⟨h, hc⟩
    · refine ⟨0, ?_, .inl ⟨rfl, ?_⟩⟩
      · rw [h, ← hD, ← hq, hqr, Nat.add_zero]
      · rwa [← hD, ← ht, ← hq, hpar] at hc
    · refine ⟨1, ?_, .inr ⟨rfl, ?_⟩⟩
      · rw [h, ← hD, ← hq, hqr, Nat.add_assoc]
      · rwa [← hD, ← ht, ← hq, hpar] at hc
  have hlt : r + b < 4 * P := by omega
  have hdiv' : (4 * P * Q + (r + b)) / (4 * P) = Q := by
    rw [Nat.mul_add_div (by omega), Nat.div_eq_of_lt hlt, Nat.add_zero]
  have hmod' : (4 * P * Q + (r + b)) % (4 * P) = r + b := by
    rw [Nat.mul_add_mod, Nat.mod_eq_of_lt hlt]
  unfold roundEven
  rw [hjam, hpow, hdiv', hmod', hdiv, hmod, Nat.pow_add, hpow, ← hD]
  congr 2
  rw [decide_eq_decide]
  -- Below, at and above the middle of the step.
  rcases Nat.lt_trichotomy r (2 * P) with hlt | heq | hgt
  · have hmul : D * (r + 1) ≤ D * (2 * P) := Nat.mul_le_mul_left D hlt
    have e : D * (4 * P) = 2 * (D * (2 * P)) := by ring
    rw [Nat.mul_succ] at hmul
    rw [e]
    omega
  · have e : D * (4 * P) = 2 * (D * r) := by rw [heq]; ring
    rw [e]
    omega
  · have hmul : D * (2 * P + 1) ≤ D * r := Nat.mul_le_mul_left D hgt
    have e : D * (4 * P) = 2 * (D * (2 * P)) := by ring
    rw [Nat.mul_succ] at hmul
    rw [e]
    omega

/-- A significand that is rounded and packed under its exponent. -/
theorem isNearestEven_roundEven {e f X Z ext : Nat} {v : ℚ} (hf : 0 < f)
    (hZ : X = 0 ∨ 2 ^ (f + ext) ≤ Z) (hlt : Z < 2 ^ (f + 1 + ext))
    (hinf : X * 2 ^ f + Z / 2 ^ ext < infMag e f) (hv : v * (2 ^ ext : Nat) = Z * 2 ^ X) :
    IsNearestEven e f v (X * 2 ^ f + roundEven Z ext) := by
  obtain ⟨q, hq⟩ : ∃ q, q = Z / 2 ^ ext := ⟨_, rfl⟩
  have hqlt : q < 2 ^ f + 2 ^ f := by
    rw [hq, ← Nat.two_mul, ← Nat.pow_succ']
    exact Nat.div_lt_of_lt_mul (by rw [Nat.mul_comm, ← Nat.pow_add]; exact hlt)
  have hfields : magSig f (X * 2 ^ f + q) = q ∧ magExp f (X * 2 ^ f + q) = X := by
    rcases hZ with rfl | hge
    · rw [Nat.zero_mul, Nat.zero_add]
      have hq' : q < 2 ^ (f + 1) := by rw [Nat.pow_succ]; omega
      exact ⟨magSig_of_lt_two hq', magExp_of_lt hq'⟩
    · have hqge : 2 ^ f ≤ q := by
        rw [hq, Nat.le_div_iff_mul_le (Nat.two_pow_pos ext), ← Nat.pow_add]
        exact hge
      obtain ⟨s, hs⟩ := Nat.exists_eq_add_of_le hqge
      obtain ⟨hsig, hexp⟩ := magSig_packed (f := f) (x := X + 1) (s := s) (Nat.succ_pos X) (by omega)
      rw [Nat.succ_mul, Nat.add_assoc, ← hs] at hsig hexp
      exact ⟨hsig, hexp⟩
  have heven : (X * 2 ^ f + q) % 2 = q % 2 := by
    obtain ⟨k, rfl⟩ : ∃ k, f = k + 1 := ⟨f - 1, by omega⟩
    rw [Nat.pow_succ, show X * (2 ^ k * 2) = 2 * (X * 2 ^ k) by ring]
    omega
  unfold roundEven
  rw [← hq, ← Nat.add_assoc]
  refine isNearestEven_of_scaled (W := Z) (by rw [hq]; exact hinf) (Nat.two_pow_pos ext) ?_ ?_ ?_
  · rw [hfields.2, hv]
  · rw [hfields.1, hq]
  · rw [decide_eq_true_eq, heven]

end Bambu.Math
