/-
  Bambu.Math.BitTable

  Numbers put together from parts of their binary expansion: bit by bit, with an
  or for each bit that is set, and chunk by chunk from the low end.
-/

import Mathlib.Data.Nat.Bitwise

namespace Bambu.Math

/-- The bits of a number whose set bits are or-ed in one after the other. -/
theorem testBit_foldl_or {set : Nat → Nat → Nat} (bit : Nat → Bool) {n : Nat}
    (hset : ∀ acc, ∀ i < n, set acc i = acc ||| (bit i).toNat * 2 ^ i) (i : Nat) :
    ((List.range n).foldl set 0).testBit i = (decide (i < n) && bit i) := by
  induction n with
  | zero => simp
  | succ n ih =>
    have hone : ((bit n).toNat * 2 ^ n).testBit i = (decide (i = n) && bit n) := by
      cases bit n with
      | false => simp
      | true => simp [Nat.testBit_two_pow, eq_comm]
    rw [List.range_succ, List.foldl_append, List.foldl_cons, List.foldl_nil,
      hset _ n (Nat.lt_succ_self n), Nat.testBit_or,
      ih (fun acc j hj => hset acc j (Nat.lt_succ_of_lt hj)), hone]
    rcases Nat.lt_trichotomy i n with hlt | rfl | hgt
    · simp [hlt, Nat.lt_succ_of_lt hlt, hlt.ne]
    · simp
    · simp [hgt.ne', Nat.not_lt.mpr hgt.le, Nat.not_lt.mpr (Nat.succ_le_of_lt hgt)]

/-- A number below `2 ^ n` whose bits are set one after the other. -/
theorem foldl_or_eq {set : Nat → Nat → Nat} {n x : Nat} (hx : x < 2 ^ n)
    (hset : ∀ acc, ∀ i < n, set acc i = acc ||| (x.testBit i).toNat * 2 ^ i) :
    (List.range n).foldl set 0 = x := by
  refine Nat.eq_of_testBit_eq fun i => ?_
  rw [testBit_foldl_or x.testBit hset]
  by_cases hi : i < n
  · simp [hi]
  · have hlow := Nat.testBit_lt_two_pow (lt_of_lt_of_le hx (Nat.pow_le_pow_right (by decide)
      (Nat.not_lt.mp hi)))
    simp [hi, hlow]

/-- The chunks of `α` bits below chunk `n + 1`. -/
theorem mod_chunk_succ (x α n : Nat) :
    x % 2 ^ ((n + 1) * α) = x % 2 ^ (n * α) + x / 2 ^ (n * α) % 2 ^ α * 2 ^ (n * α) := by
  rw [Nat.add_mul, Nat.one_mul, pow_add, Nat.mod_mul, Nat.mul_comm (2 ^ (n * α))]

end Bambu.Math
