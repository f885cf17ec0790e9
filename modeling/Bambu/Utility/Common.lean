/-
  Bambu.Utility.Common

  What the utility classes share: the exceptions of `exceptions.hpp` and the
  logarithm helpers of `math_function.hpp`.

  `THROW_ASSERT` is modelled as the build with assertions has it: a failed
  condition is an error of its own, next to `THROW_UNREACHABLE`, which throws in
  every build, and to the division-by-zero exception of the big integers.
-/

import Mathlib.Data.Int.ConditionallyCompleteOrder
import Mathlib.Data.Nat.Log
import Mathlib.Tactic.Ring
import Mathlib.Tactic.Linarith

namespace Bambu

/-! ## Exceptions -/

inductive Error where
  /-- `THROW_ASSERT` with its message. -/
  | assertion (msg : String)
  /-- `THROW_UNREACHABLE` with its message. -/
  | unreachable (msg : String)
  /-- The exception a big integer throws on a zero divisor. -/
  | divisionByZero
  /-- Not an exception of the source: the recursion bound of a model was hit. -/
  | outOfFuel
deriving DecidableEq, Repr

/-- `THROW_ASSERT(cond, msg)`. -/
def throwAssert (cond : Prop) [Decidable cond] (msg : String) : Except Error Unit :=
  if cond then .ok () else .error (.assertion msg)

theorem throwAssert_of {cond : Prop} [Decidable cond] (h : cond) (msg : String) :
    throwAssert cond msg = .ok () := if_pos h

theorem throwAssert_of_not {cond : Prop} [Decidable cond] (h : ¬ cond) (msg : String) :
    throwAssert cond msg = .error (.assertion msg) := if_neg h

/-- A run that returns has passed its assertions. -/
theorem throwAssert_bind_ok {α : Type} {cond : Prop} [Decidable cond] {msg : String}
    {f : Unit → Except Error α} {r : α} (h : (throwAssert cond msg >>= f) = .ok r) :
    cond ∧ f () = .ok r := by
  unfold throwAssert at h
  split at h
  · rename_i hc
    exact ⟨hc, h⟩
  · cases h

@[simp] theorem ok_bind {α β : Type} (a : α) (f : α → Except Error β) :
    (Except.ok a >>= f) = f a := rfl

@[simp] theorem error_bind {α β : Type} (e : Error) (f : α → Except Error β) :
    (Except.error e >>= f) = .error e := rfl

/-- A sequence that returns has returned from its first part. -/
theorem bind_ok {α β : Type} {x : Except Error α} {f : α → Except Error β} {r : β}
    (h : (x >>= f) = .ok r) : ∃ a, x = .ok a ∧ f a = .ok r := by
  cases x with
  | error e => cases h
  | ok a => exact ⟨a, rfl, h⟩

/-! ## Logarithms

`T` is an unsigned type of `digits` bits; a cast to `T` is a remainder. -/

/-- One test of `floor_log2`: `if(x >= 1ULL << (t + s)) t += s`. -/
def log2Probe (x s t : Nat) : Nat := if x ≥ 2 ^ (t + s) then t + s else t

/-- `floor_log2<T>(x)`: binary search on the exponent, `T(-1)` at zero. -/
def floorLog2 (digits x : Nat) : Nat :=
  if x = 0 then 2 ^ digits - 1
  else
    log2Probe x 1 (log2Probe x 2 (log2Probe x 4 (log2Probe x 8
      (log2Probe x 16 (log2Probe x 32 0))))) % 2 ^ digits

/-- `ceil_log2<T>(x)`; for `x = 1` the sum wraps from `T(-1)` to zero. -/
def ceilLog2 (digits x : Nat) : Nat :=
  if x = 0 then 2 ^ digits - 1
  else (floorLog2 digits ((x - 1) % 2 ^ digits) + 1) % 2 ^ digits

/-- A test halves the candidates for the exponent. -/
theorem log2Probe_spec {x t s : Nat} (hx : 0 < x) (hlo : t ≤ Nat.log 2 x)
    (hhi : Nat.log 2 x < t + 2 * s) :
    log2Probe x s t ≤ Nat.log 2 x ∧ Nat.log 2 x < log2Probe x s t + s := by
  have hiff := Nat.le_log_iff_pow_le (b := 2) (x := t + s) (by decide) (Nat.pos_iff_ne_zero.mp hx)
  unfold log2Probe
  by_cases h : x ≥ 2 ^ (t + s)
  · rw [if_pos h]
    have := hiff.mpr h
    omega
  · rw [if_neg h]
    have := mt hiff.mp h
    omega

/-- Below `2 ^ 64` the search finds the logarithm. -/
theorem floorLog2_eq {digits x : Nat} (hx : 0 < x) (hlt : x < 2 ^ digits) (hd : digits ≤ 64) :
    floorLog2 digits x = Nat.log 2 x := by
  have hlog : Nat.log 2 x < digits := (Nat.log_lt_iff_lt_pow (by decide) (by omega)).mpr hlt
  have hlt' : Nat.log 2 x < 2 ^ digits := hlog.trans Nat.lt_two_pow_self
  obtain ⟨l1, h1⟩ := log2Probe_spec (t := 0) (s := 32) hx (Nat.zero_le _) (by omega)
  obtain ⟨l2, h2⟩ := log2Probe_spec (s := 16) hx l1 (by omega)
  obtain ⟨l3, h3⟩ := log2Probe_spec (s := 8) hx l2 (by omega)
  obtain ⟨l4, h4⟩ := log2Probe_spec (s := 4) hx l3 (by omega)
  obtain ⟨l5, h5⟩ := log2Probe_spec (s := 2) hx l4 (by omega)
  obtain ⟨l6, h6⟩ := log2Probe_spec (s := 1) hx l5 (by omega)
  unfold floorLog2
  rw [if_neg (by omega), Nat.le_antisymm l6 (by omega)]
  exact Nat.mod_eq_of_lt hlt'

/-- From two on, `ceil_log2` is the least exponent that reaches `x`. -/
theorem ceilLog2_eq {digits x : Nat} (hx : 2 ≤ x) (hlt : x < 2 ^ digits) (hd : digits ≤ 64) :
    ceilLog2 digits x = Nat.log 2 (x - 1) + 1 := by
  have hlog : Nat.log 2 (x - 1) < digits :=
    (Nat.log_lt_iff_lt_pow (by decide) (by omega)).mpr (by omega)
  have hpow : digits < 2 ^ digits := Nat.lt_two_pow_self
  unfold ceilLog2
  rw [if_neg (by omega), Nat.mod_eq_of_lt (by omega : x - 1 < 2 ^ digits),
    floorLog2_eq (by omega) (by omega) hd]
  exact Nat.mod_eq_of_lt (by omega)

theorem le_two_pow_ceilLog2 {digits x : Nat} (hx : 2 ≤ x) (hlt : x < 2 ^ digits)
    (hd : digits ≤ 64) : x ≤ 2 ^ ceilLog2 digits x := by
  rw [ceilLog2_eq hx hlt hd]
  have := Nat.lt_pow_succ_log_self (b := 2) (by decide) (x - 1)
  omega

theorem two_pow_ceilLog2_lt {digits x : Nat} (hx : 2 ≤ x) (hlt : x < 2 ^ digits)
    (hd : digits ≤ 64) : 2 ^ (ceilLog2 digits x - 1) < x := by
  rw [ceilLog2_eq hx hlt hd, Nat.add_sub_cancel]
  have := Nat.pow_log_le_self 2 (x := x - 1) (by omega)
  omega

theorem ceilLog2_pos {digits x : Nat} (hx : 2 ≤ x) (hlt : x < 2 ^ digits) (hd : digits ≤ 64) :
    0 < ceilLog2 digits x := by
  rw [ceilLog2_eq hx hlt hd]
  exact Nat.succ_pos _

theorem ceilLog2_lt {digits x : Nat} (hx : 2 ≤ x) (hlt : x < 2 ^ digits) (hd : digits ≤ 64) :
    ceilLog2 digits x < x := by
  have h := two_pow_ceilLog2_lt hx hlt hd
  have hself : ceilLog2 digits x - 1 < 2 ^ (ceilLog2 digits x - 1) := Nat.lt_two_pow_self
  omega

end Bambu
