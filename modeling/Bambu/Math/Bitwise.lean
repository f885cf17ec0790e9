/-
  Bambu.Math.Bitwise

  Bitwise operations on integers in two's complement of unbounded width, and the
  tight bounds of `x | y`, `x & y` and `x ^ y` over a box `[a, b] × [c, d]`.

  An operation acts on the quotient and on the remainder by `2 ^ n` separately
  (`BitwiseOp.ediv_two_pow`, `BitwiseOp.emod_two_pow`), and on the residues of a
  width as the `BitVec` operation does (`BitwiseOp.ofBits`).  The bounds walk down
  the bits of two corners: above the bit they have reached, operands that agree
  with the corners bound the result as claimed (`minOr_le`, `le_maxOr`, ...), and
  the bits already passed are those of the corners (`minOr_ediv`, ...).
-/

import Mathlib.Data.Int.Bitwise
import Mathlib.Data.Int.ConditionallyCompleteOrder
import Mathlib.Tactic.Ring
import Mathlib.Tactic.Linarith
import Mathlib.Tactic.LinearCombination
import Mathlib.Tactic.Positivity

namespace Bambu.Math

/-! ## Quotient and remainder by a power of two -/

theorem ediv_two_pow_succ (x : Int) (n : Nat) : x / 2 ^ (n + 1) = x / 2 ^ n / 2 := by
  rw [pow_succ, Int.ediv_ediv_of_nonneg (by positivity)]

theorem ediv_two_pow_succ' (x : Int) (n : Nat) : x / 2 ^ (n + 1) = x / 2 / 2 ^ n := by
  rw [pow_succ', Int.ediv_ediv_of_nonneg (by decide)]

/-- The low bits of `x`, its last one apart. -/
theorem emod_two_pow_succ (x : Int) (n : Nat) :
    x % 2 ^ (n + 1) = 2 * (x / 2 % 2 ^ n) + x % 2 := by
  have h := Int.mul_ediv_add_emod x (2 ^ (n + 1))
  have h' := Int.mul_ediv_add_emod (x / 2) (2 ^ n)
  have h'' := Int.mul_ediv_add_emod x 2
  rw [ediv_two_pow_succ', pow_succ'] at h
  rw [pow_succ']
  linarith

/-- The low bits of `x`, its first one apart. -/
theorem emod_two_pow_succ' (x : Int) (n : Nat) :
    x % 2 ^ (n + 1) = x / 2 ^ n % 2 * 2 ^ n + x % 2 ^ n := by
  have h := Int.mul_ediv_add_emod x (2 ^ (n + 1))
  have h' := Int.mul_ediv_add_emod x (2 ^ n)
  have h'' := Int.mul_ediv_add_emod (x / 2 ^ n) 2
  rw [ediv_two_pow_succ, pow_succ] at h
  rw [pow_succ]
  linear_combination h - h' - 2 ^ n * h''

theorem lt_of_ediv_two_pow_lt {x y : Int} {n : Nat} (h : x / 2 ^ n < y / 2 ^ n) : x < y := by
  by_contra hle
  exact absurd (Int.ediv_le_ediv (by positivity) (not_lt.mp hle)) (not_le.mpr h)

theorem le_of_ediv_emod {x y : Int} {n : Nat} (h : x / 2 ^ n = y / 2 ^ n)
    (hm : x % 2 ^ n ≤ y % 2 ^ n) : x ≤ y := by
  have hx := Int.mul_ediv_add_emod x (2 ^ n)
  have hy := Int.mul_ediv_add_emod y (2 ^ n)
  rw [h] at hx
  omega

theorem eq_of_ediv_emod {x y : Int} {n : Nat} (h : x / 2 ^ n = y / 2 ^ n)
    (hm : x % 2 ^ n = y % 2 ^ n) : x = y :=
  le_antisymm (le_of_ediv_emod h hm.le) (le_of_ediv_emod h.symm hm.ge)

/-! ## Bitwise operations -/

/-- An operation on each bit by itself, `g` giving the result's bit, zero on
    two zeros. -/
structure BitwiseOp (op g : Int → Int → Int) : Prop where
  half : ∀ x y, op x y / 2 = op (x / 2) (y / 2)
  parity : ∀ x y, op x y % 2 = g (x % 2) (y % 2)
  zero : op 0 0 = 0

namespace BitwiseOp

variable {op g : Int → Int → Int}

theorem ediv_two_pow (h : BitwiseOp op g) (x y : Int) (n : Nat) :
    op x y / 2 ^ n = op (x / 2 ^ n) (y / 2 ^ n) := by
  induction n with
  | zero => simp only [pow_zero, Int.ediv_one]
  | succ n ih => rw [ediv_two_pow_succ, ih, h.half, ← ediv_two_pow_succ, ← ediv_two_pow_succ]

theorem half_eq (h : BitwiseOp op g) {p q p' q' : Int} (hp : p / 2 = p' / 2)
    (hq : q / 2 = q' / 2) : op p q / 2 = op p' q' / 2 := by
  rw [h.half, h.half, hp, hq]

theorem emod_two_pow (h : BitwiseOp op g) (x y : Int) (n : Nat) :
    op x y % 2 ^ n = op (x % 2 ^ n) (y % 2 ^ n) := by
  induction n generalizing x y with
  | zero => simp only [pow_zero, Int.emod_one, h.zero]
  | succ n ih =>
    have hx := emod_two_pow_succ x n
    have hy := emod_two_pow_succ y n
    have hop := emod_two_pow_succ (op x y) n
    have hsplit := Int.mul_ediv_add_emod (op (x % 2 ^ (n + 1)) (y % 2 ^ (n + 1))) 2
    rw [h.half, h.parity, show x % 2 ^ (n + 1) / 2 = x / 2 % 2 ^ n by omega,
      show y % 2 ^ (n + 1) / 2 = y / 2 % 2 ^ n by omega,
      show x % 2 ^ (n + 1) % 2 = x % 2 by omega, show y % 2 ^ (n + 1) % 2 = y % 2 by omega,
      ← ih] at hsplit
    rw [hop, h.half, h.parity, ← hsplit]

/-- Operands of `n` bits and a sign have a result of `n` bits and a sign. -/
theorem mem_of_mem (h : BitwiseOp op g) (hs : ∀ x y, x = 0 ∨ x = -1 → y = 0 ∨ y = -1 →
    op x y = 0 ∨ op x y = -1) {x y : Int} {n : Nat} (hx : -2 ^ n ≤ x ∧ x < 2 ^ n)
    (hy : -2 ^ n ≤ y ∧ y < 2 ^ n) : -2 ^ n ≤ op x y ∧ op x y < 2 ^ n := by
  have hpos : (0 : Int) < 2 ^ n := by positivity
  have hsign : ∀ z : Int, -2 ^ n ≤ z ∧ z < 2 ^ n ↔ z / 2 ^ n = 0 ∨ z / 2 ^ n = -1 := by
    intro z
    rw [Int.ediv_eq_iff_of_pos hpos, Int.ediv_eq_iff_of_pos hpos]
    omega
  rw [hsign, h.ediv_two_pow]
  exact hs _ _ ((hsign x).mp hx) ((hsign y).mp hy)

end BitwiseOp

section Operations

variable {x y : Int} {n : Nat}

theorem bodd_emod (x : Int) : x % 2 = cond x.bodd 1 0 := by
  have h := Int.bodd_add_div2 x
  rw [Int.div2_val] at h
  omega

/-- Any operation on bits, from the two halves of its result. -/
theorem bitwise_halves (f : Bool → Bool → Bool) (x y : Int) :
    Int.bitwise f x y / 2 = Int.bitwise f (x / 2) (y / 2) ∧
      Int.bitwise f x y % 2 = cond (f x.bodd y.bodd) 1 0 := by
  have h := Int.bitwise_bit f x.bodd x.div2 y.bodd y.div2
  rw [Int.bit_decomp, Int.bit_decomp, Int.bit_val, Int.div2_val, Int.div2_val] at h
  rw [h]
  cases f x.bodd y.bodd <;> simp only [cond_true, cond_false] <;> omega

theorem bitwiseOp_of {op g : Int → Int → Int} {f : Bool → Bool → Bool} (hop : Int.bitwise f = op)
    (hg : ∀ s t : Bool, cond (f s t) (1 : Int) 0 = g (cond s 1 0) (cond t 1 0))
    (hzero : op 0 0 = 0) : BitwiseOp op g where
  half x y := by rw [← hop, (bitwise_halves f x y).1]
  parity x y := by rw [← hop, (bitwise_halves f x y).2, bodd_emod x, bodd_emod y, hg]
  zero := hzero

theorem bitwiseOp_lor : BitwiseOp Int.lor max := bitwiseOp_of Int.bitwise_or (by decide) rfl

theorem bitwiseOp_land : BitwiseOp Int.land min := bitwiseOp_of Int.bitwise_and (by decide) rfl

theorem bitwiseOp_xor : BitwiseOp Int.xor (fun s t => (s + t) % 2) :=
  bitwiseOp_of Int.bitwise_xor (by decide) rfl

theorem lnot_eq (x : Int) : Int.lnot x = -x - 1 := by
  cases x with
  | ofNat m => simp only [Int.lnot, Int.negSucc_eq, Int.ofNat_eq_natCast]; omega
  | negSucc m => simp only [Int.lnot, Int.negSucc_eq]; omega

theorem lnot_lor (x y : Int) : Int.lnot (Int.lor x y) = Int.land (Int.lnot x) (Int.lnot y) := by
  cases x <;> cases y <;> rfl

theorem lnot_lnot (z : Int) : Int.lnot (Int.lnot z) = z := by
  rw [lnot_eq, lnot_eq]
  ring

theorem lnot_land (x y : Int) : Int.lnot (Int.land x y) = Int.lor (Int.lnot x) (Int.lnot y) := by
  cases x <;> cases y <;> rfl

theorem lnot_ediv (z : Int) (n : Nat) : Int.lnot z / 2 ^ n = Int.lnot (z / 2 ^ n) := by
  rw [lnot_eq, lnot_eq, Int.ediv_eq_iff_of_pos (by positivity)]
  have hz := Int.mul_ediv_add_emod z (2 ^ n)
  have hm := Int.emod_nonneg z (show (2 : Int) ^ n ≠ 0 by positivity)
  have hm' := Int.emod_lt_of_pos z (show (0 : Int) < 2 ^ n by positivity)
  constructor <;> nlinarith

theorem lnot_bit_eq (z : Int) (n : Nat) : Int.lnot z / 2 ^ n % 2 = 1 - z / 2 ^ n % 2 := by
  rw [lnot_ediv, lnot_eq]
  omega

theorem lor_emod_ge (x y : Int) (n : Nat) : y % 2 ^ n ≤ Int.lor x y % 2 ^ n := by
  rw [bitwiseOp_lor.emod_two_pow]
  have hx := Int.emod_nonneg x (show (2 : Int) ^ n ≠ 0 by positivity)
  have hy := Int.emod_nonneg y (show (2 : Int) ^ n ≠ 0 by positivity)
  lift x % 2 ^ n to Nat using hx with u
  lift y % 2 ^ n to Nat using hy with v
  show (v : Int) ≤ ((u ||| v : Nat) : Int)
  exact_mod_cast Nat.right_le_or

theorem lor_comm (x y : Int) : Int.lor x y = Int.lor y x := by
  cases x <;> cases y <;> simp only [Int.lor, Nat.lor_comm, Nat.land_comm]

theorem land_comm (x y : Int) : Int.land x y = Int.land y x := by
  cases x <;> cases y <;> simp only [Int.land, Nat.lor_comm, Nat.land_comm]

theorem xor_comm (x y : Int) : Int.xor x y = Int.xor y x := by
  cases x <;> cases y <;> simp only [Int.xor, Nat.xor_comm]

theorem zero_lor (x : Int) : Int.lor 0 x = x := by
  cases x with
  | ofNat m => exact congrArg Int.ofNat (Nat.zero_or m)
  | negSucc m => simp [Int.lor, Nat.ldiff]

theorem zero_land (x : Int) : Int.land 0 x = 0 := by
  cases x <;> simp [Int.land, Nat.ldiff]

theorem land_neg_one (x : Int) : Int.land x (-1) = x := by
  have h := lnot_lor (Int.lnot x) 0
  rw [lor_comm, zero_lor, lnot_lnot] at h
  exact h.symm

theorem neg_one_lor (x : Int) : Int.lor (-1) x = -1 := by
  have h := lnot_land 0 (Int.lnot x)
  rw [zero_land, lnot_lnot] at h
  exact h.symm

theorem neg_one_xor (x : Int) : Int.xor (-1) x = Int.lnot x := by
  cases x with
  | ofNat m => exact congrArg Int.negSucc (Nat.zero_xor m)
  | negSucc m => exact congrArg Int.ofNat (Nat.zero_xor m)

/-- The operations on sign words. -/
theorem land_sign (x y : Int) (hx : x = 0 ∨ x = -1) (hy : y = 0 ∨ y = -1) :
    Int.land x y = 0 ∨ Int.land x y = -1 := by
  rcases hx with rfl | rfl
  · exact Or.inl (zero_land y)
  · rwa [land_comm, land_neg_one]

theorem lor_sign (x y : Int) (hx : x = 0 ∨ x = -1) (hy : y = 0 ∨ y = -1) :
    Int.lor x y = 0 ∨ Int.lor x y = -1 := by
  rcases hx with rfl | rfl
  · rwa [zero_lor]
  · exact Or.inr (neg_one_lor y)

theorem xor_sign (x y : Int) (hx : x = 0 ∨ x = -1) (hy : y = 0 ∨ y = -1) :
    Int.xor x y = 0 ∨ Int.xor x y = -1 := by
  rcases hx with rfl | rfl <;> rcases hy with rfl | rfl <;> decide

theorem land_one (x : Int) : Int.land x 1 = x % 2 := by
  have hhalf := bitwiseOp_land.half x 1
  have hpar := bitwiseOp_land.parity x 1
  rw [show (1 : Int) / 2 = 0 by decide, land_comm _ 0, zero_land] at hhalf
  omega

theorem lor_one (x : Int) (h : x % 2 = 0) : Int.lor x 1 = x + 1 := by
  have hhalf := bitwiseOp_lor.half x 1
  have hpar := bitwiseOp_lor.parity x 1
  rw [show (1 : Int) / 2 = 0 by decide, lor_comm _ 0, zero_lor] at hhalf
  omega

theorem land_le_of_nonneg {x : Int} (y : Int) (hx : 0 ≤ x) :
    0 ≤ Int.land x y ∧ Int.land x y ≤ x := by
  lift x to Nat using hx
  cases y with
  | ofNat v =>
    show (0 : Int) ≤ ((x &&& v : Nat) : Int) ∧ ((x &&& v : Nat) : Int) ≤ x
    exact ⟨by positivity, by exact_mod_cast Nat.and_le_left⟩
  | negSucc v =>
    have hsub : Nat.ldiff x v ≤ x := by
      refine Nat.le_of_testBit (fun i hi => ?_)
      rw [Nat.testBit_ldiff] at hi
      exact (Bool.and_eq_true _ _ ▸ hi).1
    show (0 : Int) ≤ ((Nat.ldiff x v : Nat) : Int) ∧ ((Nat.ldiff x v : Nat) : Int) ≤ x
    exact ⟨by positivity, by exact_mod_cast hsub⟩

/-- Clearing bits of a negative number lowers it. -/
theorem land_le_of_neg {x y : Int} (hx : x < 0) (hy : y < 0) : Int.land x y ≤ x := by
  obtain ⟨u, rfl⟩ := Int.eq_negSucc_of_lt_zero hx
  obtain ⟨v, rfl⟩ := Int.eq_negSucc_of_lt_zero hy
  have h : u ≤ u ||| v := Nat.left_le_or
  show Int.negSucc (u ||| v) ≤ Int.negSucc u
  omega

/-- A disjunction with a negative number is negative and no less. -/
theorem le_lor_of_neg {x : Int} (y : Int) (hx : x < 0) : x ≤ Int.lor x y ∧ Int.lor x y < 0 := by
  have h := land_le_of_nonneg (Int.lnot y) (show 0 ≤ Int.lnot x by rw [lnot_eq]; omega)
  rw [← lnot_lor, lnot_eq, lnot_eq x] at h
  omega

theorem le_lor_of_nonneg {x y : Int} (hx : 0 ≤ x) (hy : 0 ≤ y) : x ≤ Int.lor x y := by
  lift x to Nat using hx
  lift y to Nat using hy
  show (x : Int) ≤ ((x ||| y : Nat) : Int)
  exact_mod_cast Nat.left_le_or

/-! ### Masks -/

/-- A single bit. -/
theorem land_two_pow (x : Int) (n : Nat) : Int.land x (2 ^ n) = x / 2 ^ n % 2 * 2 ^ n := by
  have hpos : (0 : Int) < 2 ^ n := by positivity
  apply eq_of_ediv_emod (n := n)
  · rw [bitwiseOp_land.ediv_two_pow, Int.ediv_self hpos.ne', land_one,
      Int.mul_ediv_cancel _ hpos.ne']
  · rw [bitwiseOp_land.emod_two_pow, Int.emod_self, land_comm, zero_land, Int.mul_emod_left]

/-- The bits below `n`. -/
theorem land_mask (x : Int) (n : Nat) : Int.land x (2 ^ n - 1) = x % 2 ^ n := by
  induction n generalizing x with
  | zero => rw [pow_zero, sub_self, land_comm, zero_land, Int.emod_one]
  | succ n ih =>
    have hhalf : ((2 : Int) ^ (n + 1) - 1) / 2 = 2 ^ n - 1 := by
      rw [pow_succ]
      omega
    have hparity : ((2 : Int) ^ (n + 1) - 1) % 2 = 1 := by
      rw [pow_succ]
      omega
    have h := bitwiseOp_land.half x (2 ^ (n + 1) - 1)
    have h' := bitwiseOp_land.parity x (2 ^ (n + 1) - 1)
    rw [hhalf, ih] at h
    rw [hparity] at h'
    rw [emod_two_pow_succ]
    omega

/-- The bits from `n` on. -/
theorem land_neg_two_pow (x : Int) (n : Nat) : Int.land x (-2 ^ n) = x / 2 ^ n * 2 ^ n := by
  have hpos : (0 : Int) < 2 ^ n := by positivity
  apply eq_of_ediv_emod (n := n)
  · rw [bitwiseOp_land.ediv_two_pow, Int.neg_ediv_of_dvd (dvd_refl _), Int.ediv_self hpos.ne',
      land_neg_one, Int.mul_ediv_cancel _ hpos.ne']
  · rw [bitwiseOp_land.emod_two_pow, Int.neg_emod_self, land_comm, zero_land, Int.mul_emod_left]

/-- The bits below `n` all set. -/
theorem lor_mask (x : Int) (n : Nat) :
    Int.lor x (2 ^ n - 1) = x / 2 ^ n * 2 ^ n + (2 ^ n - 1) := by
  have h := lnot_lor x (2 ^ n - 1)
  rw [lnot_eq (2 ^ n - 1), show -(2 ^ n - 1) - 1 = -(2 : Int) ^ n by ring, land_neg_two_pow,
    lnot_ediv, lnot_eq, lnot_eq] at h
  linarith

/-- A clear bit set. -/
theorem lor_two_pow (x : Int) (n : Nat) (h : x / 2 ^ n % 2 = 0) :
    Int.lor x (2 ^ n) = x + 2 ^ n := by
  have hpos : (0 : Int) < 2 ^ n := by positivity
  apply eq_of_ediv_emod (n := n)
  · rw [bitwiseOp_lor.ediv_two_pow, Int.ediv_self hpos.ne', lor_one _ h,
      Int.add_ediv_of_dvd_right (dvd_refl _), Int.ediv_self hpos.ne']
  · rw [bitwiseOp_lor.emod_two_pow, Int.emod_self, lor_comm, zero_lor, Int.add_emod_right]

/-- A set bit cleared. -/
theorem land_lnot_two_pow (x : Int) (n : Nat) (h : x / 2 ^ n % 2 = 1) :
    Int.land x (Int.lnot (2 ^ n)) = x - 2 ^ n := by
  have hneg : Int.land x (Int.lnot (2 ^ n)) = Int.lnot (Int.lor (Int.lnot x) (2 ^ n)) := by
    rw [lnot_lor, lnot_lnot]
  rw [hneg, lor_two_pow _ _ (by rw [lnot_bit_eq]; omega), lnot_eq, lnot_eq]
  ring

/-! ### On the residues of a width -/

theorem bitVec_ofInt_emod (w : Nat) (x : Int) : (BitVec.ofInt w x).toNat = (x % 2 ^ w).toNat := by
  rw [BitVec.toNat_ofInt]
  norm_cast

theorem BitwiseOp.ofInt {op g : Int → Int → Int} (h : BitwiseOp op g) {w : Nat}
    {f : BitVec w → BitVec w → BitVec w} {k : Nat → Nat → Nat}
    (hf : ∀ p q, (f p q).toNat = k p.toNat q.toNat) (hk : ∀ u v : Nat, op u v = k u v) (x y : Int) :
    f (BitVec.ofInt w x) (BitVec.ofInt w y) = BitVec.ofInt w (op x y) := by
  apply BitVec.eq_of_toNat_eq
  rw [hf, bitVec_ofInt_emod, bitVec_ofInt_emod, bitVec_ofInt_emod, h.emod_two_pow]
  lift x % 2 ^ w to Nat using Int.emod_nonneg x (by positivity) with u
  lift y % 2 ^ w to Nat using Int.emod_nonneg y (by positivity) with v
  rw [hk]
  rfl

theorem ofInt_land (w : Nat) (x y : Int) :
    BitVec.ofInt w x &&& BitVec.ofInt w y = BitVec.ofInt w (Int.land x y) :=
  bitwiseOp_land.ofInt BitVec.toNat_and (fun _ _ => rfl) x y

theorem ofInt_lor (w : Nat) (x y : Int) :
    BitVec.ofInt w x ||| BitVec.ofInt w y = BitVec.ofInt w (Int.lor x y) :=
  bitwiseOp_lor.ofInt BitVec.toNat_or (fun _ _ => rfl) x y

theorem ofInt_xor (w : Nat) (x y : Int) :
    BitVec.ofInt w x ^^^ BitVec.ofInt w y = BitVec.ofInt w (Int.xor x y) :=
  bitwiseOp_xor.ofInt BitVec.toNat_xor (fun _ _ => rfl) x y

theorem ofInt_lnot (w : Nat) (x : Int) : ~~~ BitVec.ofInt w x = BitVec.ofInt w (Int.lnot x) := by
  cases x with
  | ofNat m =>
    show ~~~ BitVec.ofInt w (m : Int) = BitVec.ofInt w (Int.negSucc m)
    rw [BitVec.ofInt_natCast, BitVec.ofInt_negSucc_eq_not_ofNat]
  | negSucc m =>
    show _ = BitVec.ofInt w (m : Int)
    rw [BitVec.ofInt_natCast, BitVec.ofInt_negSucc_eq_not_ofNat, BitVec.not_not]

end Operations

/-! ## Raising and lowering a corner -/

/-- The least integer above `a` whose quotient by `2 ^ n` is greater. -/
def raise (a : Int) (n : Nat) : Int := (a / 2 ^ n + 1) * 2 ^ n

/-- The greatest integer below `b` whose quotient by `2 ^ n` is smaller. -/
def lower (b : Int) (n : Nat) : Int := b / 2 ^ n * 2 ^ n - 1

section Corner

variable {a b x : Int} {n : Nat}

theorem raise_ediv (a : Int) (n : Nat) : raise a n / 2 ^ n = a / 2 ^ n + 1 :=
  Int.mul_ediv_cancel _ (by positivity)

theorem raise_emod (a : Int) (n : Nat) : raise a n % 2 ^ n = 0 := Int.mul_emod_left _ _

theorem raise_le_iff : raise a n ≤ b ↔ a / 2 ^ n < b / 2 ^ n := by
  unfold raise
  rw [← Int.le_ediv_iff_mul_le (by positivity)]
  omega

theorem le_raise (a : Int) (n : Nat) : a ≤ raise a n := by
  have h := Int.lt_ediv_add_one_mul_self a (show (0 : Int) < 2 ^ n by positivity)
  exact h.le

theorem lower_le (b : Int) (n : Nat) : lower b n ≤ b := by
  have h := Int.ediv_mul_le b (show (2 : Int) ^ n ≠ 0 by positivity)
  unfold lower
  omega

theorem lower_ediv (b : Int) (n : Nat) : lower b n / 2 ^ n = b / 2 ^ n - 1 := by
  have hpos : (0 : Int) < 2 ^ n := by positivity
  unfold lower
  rw [Int.ediv_eq_iff_of_pos hpos]
  constructor <;> linarith

theorem le_lower_iff : a ≤ lower b n ↔ a / 2 ^ n < b / 2 ^ n := by
  unfold lower
  rw [Int.ediv_lt_iff_lt_mul (by positivity)]
  omega

/-- The quotient of a corner by `2 ^ (n + 1)` survives a move at bit `n`. -/
theorem raise_ediv_succ (h : a / 2 ^ n % 2 = 0) : raise a n / 2 ^ (n + 1) = a / 2 ^ (n + 1) := by
  rw [ediv_two_pow_succ, raise_ediv, ediv_two_pow_succ]
  omega

theorem lower_ediv_succ (h : b / 2 ^ n % 2 = 1) : lower b n / 2 ^ (n + 1) = b / 2 ^ (n + 1) := by
  rw [ediv_two_pow_succ, lower_ediv, ediv_two_pow_succ]
  omega

theorem raise_mem_Icc (h : raise a n ≤ b) : raise a n ∈ Set.Icc a b := ⟨le_raise a n, h⟩

/-- The quotients of a value between two bounds. -/
theorem ediv_bounds (hx : a ≤ x) (hx' : x ≤ b) (n : Nat) :
    a / 2 ^ n ≤ x / 2 ^ n ∧ x / 2 ^ n ≤ b / 2 ^ n :=
  ⟨Int.ediv_le_ediv (by positivity) hx, Int.ediv_le_ediv (by positivity) hx'⟩

/-- The complement of a raised corner is the lowered complement. -/
theorem lnot_raise (b : Int) (n : Nat) : Int.lnot (raise (Int.lnot b) n) = lower b n := by
  unfold raise lower
  rw [lnot_ediv, lnot_eq, lnot_eq]
  ring

end Corner

/-! ## Disjunction and conjunction -/

/-- The least `x | y` over the box, from the corner `(a, c)`: at the highest bit
    where raising one corner to it costs nothing, the corner is raised. -/
def minOr (b d : Int) : Nat → Int → Int → Int
  | 0, a, c => Int.lor a c
  | n + 1, a, c =>
    if a / 2 ^ n % 2 = 0 ∧ c / 2 ^ n % 2 = 1 then
      if raise a n ≤ b then Int.lor (raise a n) c else minOr b d n a c
    else if a / 2 ^ n % 2 = 1 ∧ c / 2 ^ n % 2 = 0 then
      if raise c n ≤ d then Int.lor a (raise c n) else minOr b d n a c
    else minOr b d n a c

/-- The least `x & y` over the box, from the corner `(a, c)`. -/
def minAnd (b d : Int) : Nat → Int → Int → Int
  | 0, a, c => Int.land a c
  | n + 1, a, c =>
    if a / 2 ^ n % 2 = 0 ∧ c / 2 ^ n % 2 = 0 then
      if raise a n ≤ b then Int.land (raise a n) c
      else if raise c n ≤ d then Int.land a (raise c n)
      else minAnd b d n a c
    else minAnd b d n a c

/-- The greatest `x | y` over the box, from the corner `(b, d)`. -/
def maxOr (a c : Int) : Nat → Int → Int → Int
  | 0, b, d => Int.lor b d
  | n + 1, b, d =>
    if b / 2 ^ n % 2 = 1 ∧ d / 2 ^ n % 2 = 1 then
      if a ≤ lower b n then Int.lor (lower b n) d
      else if c ≤ lower d n then Int.lor b (lower d n)
      else maxOr a c n b d
    else maxOr a c n b d

/-- The greatest `x & y` over the box, from the corner `(b, d)`. -/
def maxAnd (a c : Int) : Nat → Int → Int → Int
  | 0, b, d => Int.land b d
  | n + 1, b, d =>
    if b / 2 ^ n % 2 = 1 ∧ d / 2 ^ n % 2 = 0 then
      if a ≤ lower b n then Int.land (lower b n) d else maxAnd a c n b d
    else if b / 2 ^ n % 2 = 0 ∧ d / 2 ^ n % 2 = 1 then
      if c ≤ lower d n then Int.land b (lower d n) else maxAnd a c n b d
    else maxAnd a c n b d

section OrAnd

variable {a b c d x y : Int} {n : Nat}

/-- The bits from `n` on are those of the corner. -/
theorem minOr_ediv (b d : Int) (n : Nat) (a c : Int) :
    minOr b d n a c / 2 ^ n = Int.lor (a / 2 ^ n) (c / 2 ^ n) := by
  induction n with
  | zero => simp only [minOr, pow_zero, Int.ediv_one]
  | succ n ih =>
    have hrec : minOr b d n a c / 2 ^ (n + 1) = Int.lor (a / 2 ^ (n + 1)) (c / 2 ^ (n + 1)) := by
      rw [ediv_two_pow_succ, ih, bitwiseOp_lor.half, ← ediv_two_pow_succ, ← ediv_two_pow_succ]
    unfold minOr
    split_ifs with h1 h2 h3 h4
    · rw [bitwiseOp_lor.ediv_two_pow, raise_ediv_succ h1.1]
    · exact hrec
    · rw [bitwiseOp_lor.ediv_two_pow, raise_ediv_succ h3.2]
    · exact hrec
    · exact hrec

theorem minAnd_ediv (b d : Int) (n : Nat) (a c : Int) :
    minAnd b d n a c / 2 ^ n = Int.land (a / 2 ^ n) (c / 2 ^ n) := by
  induction n with
  | zero => simp only [minAnd, pow_zero, Int.ediv_one]
  | succ n ih =>
    have hrec : minAnd b d n a c / 2 ^ (n + 1) = Int.land (a / 2 ^ (n + 1)) (c / 2 ^ (n + 1)) := by
      rw [ediv_two_pow_succ, ih, bitwiseOp_land.half, ← ediv_two_pow_succ, ← ediv_two_pow_succ]
    unfold minAnd
    split_ifs with h1 h2 h3
    · rw [bitwiseOp_land.ediv_two_pow, raise_ediv_succ h1.1]
    · rw [bitwiseOp_land.ediv_two_pow, raise_ediv_succ h1.2]
    · exact hrec
    · exact hrec

/-- A corner whose bits from `n` on are smaller. -/
theorem minOr_le_of_ediv (h : Int.lor (a / 2 ^ n) (c / 2 ^ n) < Int.lor (x / 2 ^ n) (y / 2 ^ n)) :
    minOr b d n a c ≤ Int.lor x y := by
  refine (lt_of_ediv_two_pow_lt (n := n) ?_).le
  rwa [minOr_ediv, bitwiseOp_lor.ediv_two_pow]

theorem minAnd_le_of_ediv
    (h : Int.land (a / 2 ^ n) (c / 2 ^ n) < Int.land (x / 2 ^ n) (y / 2 ^ n)) :
    minAnd b d n a c ≤ Int.land x y := by
  refine (lt_of_ediv_two_pow_lt (n := n) ?_).le
  rwa [minAnd_ediv, bitwiseOp_land.ediv_two_pow]

/-- Raising `a` to a bit that `c` has costs nothing. -/
theorem lor_raise_le (ha : a / 2 ^ n % 2 = 0) (hc : c / 2 ^ n % 2 = 1)
    (hx : x / 2 ^ n / 2 = a / 2 ^ n / 2) (hy : c ≤ y) (hyc : y / 2 ^ n = c / 2 ^ n) :
    Int.lor (raise a n) c ≤ Int.lor x y := by
  have hquot : Int.lor (raise a n) c / 2 ^ n = Int.lor x y / 2 ^ n := by
    rw [bitwiseOp_lor.ediv_two_pow, bitwiseOp_lor.ediv_two_pow, raise_ediv, hyc]
    have hhalf := bitwiseOp_lor.half_eq (show (a / 2 ^ n + 1) / 2 = x / 2 ^ n / 2 by omega)
      (Eq.refl (c / 2 ^ n / 2))
    have h1 := bitwiseOp_lor.parity (a / 2 ^ n + 1) (c / 2 ^ n)
    have h2 := bitwiseOp_lor.parity (x / 2 ^ n) (c / 2 ^ n)
    omega
  refine le_of_ediv_emod hquot ?_
  calc Int.lor (raise a n) c % 2 ^ n
      = c % 2 ^ n := by
        rw [bitwiseOp_lor.emod_two_pow, raise_emod, zero_lor]
    _ ≤ y % 2 ^ n := by
        have h1 := Int.mul_ediv_add_emod c (2 ^ n)
        have h2 := Int.mul_ediv_add_emod y (2 ^ n)
        rw [hyc] at h2
        omega
    _ ≤ Int.lor x y % 2 ^ n := lor_emod_ge x y n

theorem minOr_comm (b d : Int) (n : Nat) (a c : Int) : minOr b d n a c = minOr d b n c a := by
  induction n with
  | zero => exact lor_comm a c
  | succ n ih =>
    unfold minOr
    rw [ih, lor_comm (raise a n), lor_comm a]
    split_ifs <;> first | rfl | omega

/-- A conjunction where one of two zero bits is raised ends in zeros. -/
theorem land_raise_le (ha : a / 2 ^ n % 2 = 0) (hc : c / 2 ^ n % 2 = 0)
    (hx : x / 2 ^ n / 2 = a / 2 ^ n / 2) (hy : y / 2 ^ n / 2 = c / 2 ^ n / 2) :
    Int.land (raise a n) c ≤ Int.land x y := by
  have hzero : Int.land (raise a n) c % 2 ^ n = 0 := by
    rw [bitwiseOp_land.emod_two_pow, raise_emod, zero_land]
  have hle : Int.land (raise a n) c / 2 ^ n ≤ Int.land x y / 2 ^ n := by
    rw [bitwiseOp_land.ediv_two_pow, bitwiseOp_land.ediv_two_pow, raise_ediv]
    have hhalf := bitwiseOp_land.half_eq (show (a / 2 ^ n + 1) / 2 = x / 2 ^ n / 2 by omega) hy.symm
    have h1 := bitwiseOp_land.parity (a / 2 ^ n + 1) (c / 2 ^ n)
    omega
  rcases hle.lt_or_eq with h | h
  · exact (lt_of_ediv_two_pow_lt h).le
  · exact le_of_ediv_emod h (hzero ▸ Int.emod_nonneg _ (by positivity))

/-- Above bit `n` the operands are the corner's: the loop from `n` on bounds them. -/
theorem minOr_le (hx : a ≤ x) (hx' : x ≤ b) (hy : c ≤ y) (hy' : y ≤ d)
    (hxa : x / 2 ^ n = a / 2 ^ n) (hyc : y / 2 ^ n = c / 2 ^ n) :
    minOr b d n a c ≤ Int.lor x y := by
  induction n with
  | zero =>
    simp only [pow_zero, Int.ediv_one] at hxa hyc
    rw [minOr, hxa, hyc]
  | succ n ih =>
    rw [ediv_two_pow_succ, ediv_two_pow_succ] at hxa hyc
    obtain ⟨hX, hX'⟩ := ediv_bounds hx hx' n
    obtain ⟨hY, hY'⟩ := ediv_bounds hy hy' n
    unfold minOr
    simp only [raise_le_iff]
    split_ifs with h1 h2 h3 h4
    · exact lor_raise_le h1.1 h1.2 hxa hy (by omega)
    · exact ih (by omega) (by omega)
    · rw [lor_comm a, lor_comm x]
      exact lor_raise_le h3.2 h3.1 hyc hx (by omega)
    · exact ih (by omega) (by omega)
    · by_cases hsame : x / 2 ^ n = a / 2 ^ n ∧ y / 2 ^ n = c / 2 ^ n
      · exact ih hsame.1 hsame.2
      -- two zero bits of the corner, one of them set in the operands
      have hhalf := bitwiseOp_lor.half_eq hxa hyc
      have h1 := bitwiseOp_lor.parity (a / 2 ^ n) (c / 2 ^ n)
      have h2 := bitwiseOp_lor.parity (x / 2 ^ n) (y / 2 ^ n)
      exact minOr_le_of_ediv (by omega)

theorem minAnd_le (hx : a ≤ x) (hx' : x ≤ b) (hy : c ≤ y) (hy' : y ≤ d)
    (hxa : x / 2 ^ n = a / 2 ^ n) (hyc : y / 2 ^ n = c / 2 ^ n) :
    minAnd b d n a c ≤ Int.land x y := by
  induction n with
  | zero =>
    simp only [pow_zero, Int.ediv_one] at hxa hyc
    rw [minAnd, hxa, hyc]
  | succ n ih =>
    rw [ediv_two_pow_succ, ediv_two_pow_succ] at hxa hyc
    obtain ⟨hX, hX'⟩ := ediv_bounds hx hx' n
    obtain ⟨hY, hY'⟩ := ediv_bounds hy hy' n
    unfold minAnd
    simp only [raise_le_iff]
    split_ifs with h1 h2 h3
    · exact land_raise_le h1.1 h1.2 hxa hyc
    · rw [land_comm a, land_comm x]
      exact land_raise_le h1.2 h1.1 hyc hxa
    · exact ih (by omega) (by omega)
    · by_cases hsame : x / 2 ^ n = a / 2 ^ n ∧ y / 2 ^ n = c / 2 ^ n
      · exact ih hsame.1 hsame.2
      -- one bit of the corner is set, and the operands set the other
      have hhalf := bitwiseOp_land.half_eq hxa hyc
      have h1 := bitwiseOp_land.parity (a / 2 ^ n) (c / 2 ^ n)
      have h2 := bitwiseOp_land.parity (x / 2 ^ n) (y / 2 ^ n)
      exact minAnd_le_of_ediv (by omega)

theorem raise_lnot_le_iff : raise (Int.lnot b) n ≤ Int.lnot a ↔ a ≤ lower b n := by
  have h1 := lnot_eq a
  have h2 := lnot_eq (raise (Int.lnot b) n)
  rw [← lnot_raise]
  omega

/-- The greatest disjunction is the complement of the least conjunction of the
    complements. -/
theorem maxOr_eq (a c : Int) (n : Nat) (b d : Int) :
    maxOr a c n b d = Int.lnot (minAnd (Int.lnot a) (Int.lnot c) n (Int.lnot b) (Int.lnot d)) := by
  induction n with
  | zero => simp only [maxOr, minAnd, lnot_land, lnot_lnot]
  | succ n ih =>
    unfold maxOr minAnd
    simp only [raise_lnot_le_iff, lnot_bit_eq]
    by_cases h : b / 2 ^ n % 2 = 1 ∧ d / 2 ^ n % 2 = 1
    · rw [if_pos h, if_pos (show 1 - b / 2 ^ n % 2 = 0 ∧ 1 - d / 2 ^ n % 2 = 0 by omega)]
      split_ifs
      · rw [lnot_land, lnot_raise, lnot_lnot]
      · rw [lnot_land, lnot_raise, lnot_lnot]
      · exact ih
    · rw [if_neg h, if_neg (by omega), ih]

theorem maxAnd_eq (a c : Int) (n : Nat) (b d : Int) :
    maxAnd a c n b d = Int.lnot (minOr (Int.lnot a) (Int.lnot c) n (Int.lnot b) (Int.lnot d)) := by
  induction n with
  | zero => simp only [maxAnd, minOr, lnot_lor, lnot_lnot]
  | succ n ih =>
    unfold maxAnd minOr
    simp only [raise_lnot_le_iff, lnot_bit_eq]
    by_cases h : b / 2 ^ n % 2 = 1 ∧ d / 2 ^ n % 2 = 0
    · rw [if_pos h, if_pos (show 1 - b / 2 ^ n % 2 = 0 ∧ 1 - d / 2 ^ n % 2 = 1 by omega)]
      split_ifs
      · rw [lnot_lor, lnot_raise, lnot_lnot]
      · exact ih
    · rw [if_neg h, if_neg (show ¬ (1 - b / 2 ^ n % 2 = 0 ∧ 1 - d / 2 ^ n % 2 = 1) by omega)]
      by_cases h' : b / 2 ^ n % 2 = 0 ∧ d / 2 ^ n % 2 = 1
      · rw [if_pos h', if_pos (show 1 - b / 2 ^ n % 2 = 1 ∧ 1 - d / 2 ^ n % 2 = 0 by omega)]
        split_ifs
        · rw [lnot_lor, lnot_raise, lnot_lnot]
        · exact ih
      · rw [if_neg h', if_neg (by omega), ih]

/-- The bounds are values of the operation at a point of the box. -/
theorem minOr_attained (ha : a ≤ b) (hc : c ≤ d) (n : Nat) :
    ∃ x ∈ Set.Icc a b, ∃ y ∈ Set.Icc c d, minOr b d n a c = Int.lor x y := by
  have haa := Set.left_mem_Icc.mpr ha
  have hcc := Set.left_mem_Icc.mpr hc
  induction n with
  | zero => exact ⟨a, haa, c, hcc, rfl⟩
  | succ n ih =>
    unfold minOr
    split_ifs with h1 h2 h3 h4
    · exact ⟨_, raise_mem_Icc h2, c, hcc, rfl⟩
    · exact ih
    · exact ⟨a, haa, _, raise_mem_Icc h4, rfl⟩
    · exact ih
    · exact ih

theorem minAnd_attained (ha : a ≤ b) (hc : c ≤ d) (n : Nat) :
    ∃ x ∈ Set.Icc a b, ∃ y ∈ Set.Icc c d, minAnd b d n a c = Int.land x y := by
  have haa := Set.left_mem_Icc.mpr ha
  have hcc := Set.left_mem_Icc.mpr hc
  induction n with
  | zero => exact ⟨a, haa, c, hcc, rfl⟩
  | succ n ih =>
    unfold minAnd
    split_ifs with h1 h2 h3
    · exact ⟨_, raise_mem_Icc h2, c, hcc, rfl⟩
    · exact ⟨a, haa, _, raise_mem_Icc h3, rfl⟩
    · exact ih
    · exact ih

theorem mem_Icc_lnot {s t z : Int} (h : z ∈ Set.Icc (Int.lnot t) (Int.lnot s)) :
    Int.lnot z ∈ Set.Icc s t := by
  obtain ⟨h1, h2⟩ := h
  rw [lnot_eq] at h1 h2
  rw [lnot_eq]
  exact ⟨by omega, by omega⟩

theorem lnot_le_lnot {s t : Int} (h : s ≤ t) : Int.lnot t ≤ Int.lnot s := by
  rw [lnot_eq, lnot_eq]
  omega

theorem maxOr_ediv (a c : Int) (n : Nat) (b d : Int) :
    maxOr a c n b d / 2 ^ n = Int.lor (b / 2 ^ n) (d / 2 ^ n) := by
  rw [maxOr_eq, lnot_ediv, minAnd_ediv, lnot_ediv, lnot_ediv, lnot_land, lnot_lnot, lnot_lnot]

theorem maxAnd_ediv (a c : Int) (n : Nat) (b d : Int) :
    maxAnd a c n b d / 2 ^ n = Int.land (b / 2 ^ n) (d / 2 ^ n) := by
  rw [maxAnd_eq, lnot_ediv, minOr_ediv, lnot_ediv, lnot_ediv, lnot_lor, lnot_lnot, lnot_lnot]

theorem le_maxOr_of_ediv (h : Int.lor (x / 2 ^ n) (y / 2 ^ n) < Int.lor (b / 2 ^ n) (d / 2 ^ n)) :
    Int.lor x y ≤ maxOr a c n b d := by
  refine (lt_of_ediv_two_pow_lt (n := n) ?_).le
  rwa [maxOr_ediv, bitwiseOp_lor.ediv_two_pow]

theorem le_maxAnd_of_ediv
    (h : Int.land (x / 2 ^ n) (y / 2 ^ n) < Int.land (b / 2 ^ n) (d / 2 ^ n)) :
    Int.land x y ≤ maxAnd a c n b d := by
  refine (lt_of_ediv_two_pow_lt (n := n) ?_).le
  rwa [maxAnd_ediv, bitwiseOp_land.ediv_two_pow]

theorem maxOr_attained (ha : a ≤ b) (hc : c ≤ d) (n : Nat) :
    ∃ x ∈ Set.Icc a b, ∃ y ∈ Set.Icc c d, maxOr a c n b d = Int.lor x y := by
  obtain ⟨x, hx, y, hy, h⟩ := minAnd_attained (lnot_le_lnot ha) (lnot_le_lnot hc) n
  exact ⟨_, mem_Icc_lnot hx, _, mem_Icc_lnot hy, by rw [maxOr_eq, h, lnot_land]⟩

theorem maxAnd_attained (ha : a ≤ b) (hc : c ≤ d) (n : Nat) :
    ∃ x ∈ Set.Icc a b, ∃ y ∈ Set.Icc c d, maxAnd a c n b d = Int.land x y := by
  obtain ⟨x, hx, y, hy, h⟩ := minOr_attained (lnot_le_lnot ha) (lnot_le_lnot hc) n
  exact ⟨_, mem_Icc_lnot hx, _, mem_Icc_lnot hy, by rw [maxAnd_eq, h, lnot_lor]⟩

theorem maxAnd_comm (a c : Int) (n : Nat) (b d : Int) :
    maxAnd a c n b d = maxAnd c a n d b := by
  rw [maxAnd_eq, maxAnd_eq, minOr_comm]

theorem le_maxOr (hx : a ≤ x) (hx' : x ≤ b) (hy : c ≤ y) (hy' : y ≤ d)
    (hxb : x / 2 ^ n = b / 2 ^ n) (hyd : y / 2 ^ n = d / 2 ^ n) :
    Int.lor x y ≤ maxOr a c n b d := by
  have h : minAnd (Int.lnot a) (Int.lnot c) n (Int.lnot b) (Int.lnot d) ≤
      Int.land (Int.lnot x) (Int.lnot y) := by
    refine minAnd_le (lnot_le_lnot hx') (lnot_le_lnot hx) (lnot_le_lnot hy') (lnot_le_lnot hy) ?_ ?_
    · rw [lnot_ediv, lnot_ediv, hxb]
    · rw [lnot_ediv, lnot_ediv, hyd]
  rw [← lnot_lor, lnot_eq (Int.lor x y)] at h
  rw [maxOr_eq, lnot_eq]
  omega

theorem le_maxAnd (hx : a ≤ x) (hx' : x ≤ b) (hy : c ≤ y) (hy' : y ≤ d)
    (hxb : x / 2 ^ n = b / 2 ^ n) (hyd : y / 2 ^ n = d / 2 ^ n) :
    Int.land x y ≤ maxAnd a c n b d := by
  have h : minOr (Int.lnot a) (Int.lnot c) n (Int.lnot b) (Int.lnot d) ≤
      Int.lor (Int.lnot x) (Int.lnot y) := by
    refine minOr_le (lnot_le_lnot hx') (lnot_le_lnot hx) (lnot_le_lnot hy') (lnot_le_lnot hy) ?_ ?_
    · rw [lnot_ediv, lnot_ediv, hxb]
    · rw [lnot_ediv, lnot_ediv, hyd]
  rw [← lnot_land, lnot_eq (Int.land x y)] at h
  rw [maxAnd_eq, lnot_eq]
  omega

end OrAnd

/-! ## Exclusive disjunction -/

/-- The least `x ^ y` over the box, from the corner `(a, c)`: wherever the bits
    differ the clear one is raised, and the walk goes on. -/
def minXor (b d : Int) : Nat → Int → Int → Int
  | 0, a, c => Int.xor a c
  | n + 1, a, c =>
    if a / 2 ^ n % 2 = 0 ∧ c / 2 ^ n % 2 = 1 then
      if raise a n ≤ b then minXor b d n (raise a n) c else minXor b d n a c
    else if a / 2 ^ n % 2 = 1 ∧ c / 2 ^ n % 2 = 0 then
      if raise c n ≤ d then minXor b d n a (raise c n) else minXor b d n a c
    else minXor b d n a c

/-- The greatest `x ^ y` over the box, from the corner `(b, d)`: wherever both
    bits are set one corner is lowered. -/
def maxXor (a c : Int) : Nat → Int → Int → Int
  | 0, b, d => Int.xor b d
  | n + 1, b, d =>
    if b / 2 ^ n % 2 = 1 ∧ d / 2 ^ n % 2 = 1 then
      if a ≤ lower b n then maxXor a c n (lower b n) d
      else if c ≤ lower d n then maxXor a c n b (lower d n)
      else maxXor a c n b d
    else maxXor a c n b d

section Xor

variable {a b c d x y : Int} {n : Nat}

theorem lower_emod (b : Int) (n : Nat) : lower b n % 2 ^ n = 2 ^ n - 1 := by
  have hdiv := Int.mul_ediv_add_emod (lower b n) (2 ^ n)
  rw [lower_ediv] at hdiv
  unfold lower at hdiv ⊢
  linarith

theorem minXor_ediv (b d : Int) (n : Nat) (a c : Int) :
    minXor b d n a c / 2 ^ n = Int.xor (a / 2 ^ n) (c / 2 ^ n) := by
  induction n generalizing a c with
  | zero => simp only [minXor, pow_zero, Int.ediv_one]
  | succ n ih =>
    have hrec : ∀ s t, minXor b d n s t / 2 ^ (n + 1) =
        Int.xor (s / 2 ^ (n + 1)) (t / 2 ^ (n + 1)) := by
      intro s t
      rw [ediv_two_pow_succ, ih, bitwiseOp_xor.half, ← ediv_two_pow_succ, ← ediv_two_pow_succ]
    unfold minXor
    split_ifs with h1 h2 h3 h4
    · rw [hrec, raise_ediv_succ h1.1]
    · exact hrec a c
    · rw [hrec, raise_ediv_succ h3.2]
    · exact hrec a c
    · exact hrec a c

theorem maxXor_ediv (a c : Int) (n : Nat) (b d : Int) :
    maxXor a c n b d / 2 ^ n = Int.xor (b / 2 ^ n) (d / 2 ^ n) := by
  induction n generalizing b d with
  | zero => simp only [maxXor, pow_zero, Int.ediv_one]
  | succ n ih =>
    have hrec : ∀ s t, maxXor a c n s t / 2 ^ (n + 1) =
        Int.xor (s / 2 ^ (n + 1)) (t / 2 ^ (n + 1)) := by
      intro s t
      rw [ediv_two_pow_succ, ih, bitwiseOp_xor.half, ← ediv_two_pow_succ, ← ediv_two_pow_succ]
    unfold maxXor
    split_ifs with h1 h2 h3
    · rw [hrec, lower_ediv_succ h1.1]
    · rw [hrec, lower_ediv_succ h1.2]
    · exact hrec b d
    · exact hrec b d

/-- Where both corners can be raised past bit `n`, the bits below it agree. -/
theorem minXor_emod (ha : a / 2 ^ n < b / 2 ^ n) (hc : c / 2 ^ n < d / 2 ^ n) :
    minXor b d n a c % 2 ^ n = 0 := by
  induction n generalizing a c with
  | zero => simp only [pow_zero, Int.emod_one]
  | succ n ih =>
    rw [ediv_two_pow_succ, ediv_two_pow_succ] at ha hc
    have hdouble : ∀ s t : Int, s / 2 ^ n < b / 2 ^ n → t / 2 ^ n < d / 2 ^ n →
        s / 2 ^ n % 2 = t / 2 ^ n % 2 → minXor b d n s t % 2 ^ (n + 1) = 0 := by
      intro s t hs ht hst
      have hq := minXor_ediv b d n s t
      have hpar := bitwiseOp_xor.parity (s / 2 ^ n) (t / 2 ^ n)
      have hr := ih hs ht
      have heven : minXor b d n s t / 2 ^ n % 2 = 0 := by omega
      rw [emod_two_pow_succ', heven, hr, zero_mul, add_zero]
    unfold minXor
    simp only [raise_le_iff]
    split_ifs with h1 h2 h3 h4
    · exact hdouble _ _ (by rw [raise_ediv]; omega) (by omega) (by rw [raise_ediv]; omega)
    · omega
    · exact hdouble _ _ (by omega) (by rw [raise_ediv]; omega) (by rw [raise_ediv]; omega)
    · omega
    · exact hdouble _ _ (by omega) (by omega) (by omega)

theorem minXor_attained (ha : a ≤ b) (hc : c ≤ d) (n : Nat) :
    ∃ x ∈ Set.Icc a b, ∃ y ∈ Set.Icc c d, minXor b d n a c = Int.xor x y := by
  have hmono : ∀ {s t z : Int} {n : Nat}, z ∈ Set.Icc (raise s n) t → z ∈ Set.Icc s t :=
    fun h => ⟨(le_raise _ _).trans h.1, h.2⟩
  induction n generalizing a c with
  | zero => exact ⟨a, ⟨le_refl _, ha⟩, c, ⟨le_refl _, hc⟩, rfl⟩
  | succ n ih =>
    unfold minXor
    split_ifs with h1 h2 h3 h4
    · obtain ⟨x, hx, hy⟩ := ih h2 hc
      exact ⟨x, hmono hx, hy⟩
    · exact ih ha hc
    · obtain ⟨x, hx, y, hy, h⟩ := ih ha h4
      exact ⟨x, hx, y, hmono hy, h⟩
    · exact ih ha hc
    · exact ih ha hc

theorem maxXor_attained (ha : a ≤ b) (hc : c ≤ d) (n : Nat) :
    ∃ x ∈ Set.Icc a b, ∃ y ∈ Set.Icc c d, maxXor a c n b d = Int.xor x y := by
  have hmono : ∀ {s t z : Int} {n : Nat}, z ∈ Set.Icc s (lower t n) → z ∈ Set.Icc s t :=
    fun h => ⟨h.1, h.2.trans (lower_le _ _)⟩
  induction n generalizing b d with
  | zero => exact ⟨b, ⟨ha, le_refl _⟩, d, ⟨hc, le_refl _⟩, rfl⟩
  | succ n ih =>
    unfold maxXor
    split_ifs with h1 h2 h3
    · obtain ⟨x, hx, hy⟩ := ih h2 hc
      exact ⟨x, hmono hx, hy⟩
    · obtain ⟨x, hx, y, hy, h⟩ := ih ha h3
      exact ⟨x, hx, y, hmono hy, h⟩
    · exact ih ha hc
    · exact ih ha hc

theorem minXor_le (hx : a ≤ x) (hx' : x ≤ b) (hy : c ≤ y) (hy' : y ≤ d)
    (hxa : x / 2 ^ n = a / 2 ^ n) (hyc : y / 2 ^ n = c / 2 ^ n) :
    minXor b d n a c ≤ Int.xor x y := by
  induction n generalizing a c with
  | zero =>
    simp only [pow_zero, Int.ediv_one] at hxa hyc
    rw [minXor, hxa, hyc]
  | succ n ih =>
    rw [ediv_two_pow_succ, ediv_two_pow_succ] at hxa hyc
    obtain ⟨hX, hX'⟩ := ediv_bounds hx hx' n
    obtain ⟨hY, hY'⟩ := ediv_bounds hy hy' n
    have hxy := bitwiseOp_xor.ediv_two_pow x y n
    have hpar := bitwiseOp_xor.parity (x / 2 ^ n) (y / 2 ^ n)
    -- operands whose bits differ where those of the corner agree
    have hdiffer : ∀ s t : Int, s / 2 ^ n / 2 = a / 2 ^ n / 2 → t / 2 ^ n / 2 = c / 2 ^ n / 2 →
        s / 2 ^ n % 2 = t / 2 ^ n % 2 → x / 2 ^ n % 2 ≠ y / 2 ^ n % 2 →
        minXor b d n s t ≤ Int.xor x y := by
      intro s t hs ht hst hne
      have hpre := minXor_ediv b d n s t
      have hhalf := bitwiseOp_xor.half_eq (hs.trans hxa.symm) (ht.trans hyc.symm)
      have hpar' := bitwiseOp_xor.parity (s / 2 ^ n) (t / 2 ^ n)
      exact (lt_of_ediv_two_pow_lt (n := n) (by omega)).le
    have hraise : ∀ s z : Int, z / 2 ^ n = s / 2 ^ n + 1 → raise s n ≤ z := by
      intro s z hz
      rw [raise_le_iff]
      omega
    unfold minXor
    simp only [raise_le_iff]
    split_ifs with h1 h2 h3 h4
    · by_cases hset : x / 2 ^ n = a / 2 ^ n
      · exact hdiffer _ _ (by rw [raise_ediv]; omega) rfl (by rw [raise_ediv]; omega) (by omega)
      · exact ih (hraise a x (by omega)) hy (by rw [raise_ediv]; omega) (by omega)
    · exact ih hx hy (by omega) (by omega)
    · by_cases hset : y / 2 ^ n = c / 2 ^ n
      · exact hdiffer _ _ rfl (by rw [raise_ediv]; omega) (by rw [raise_ediv]; omega) (by omega)
      · exact ih hx (hraise c y (by omega)) (by omega) (by rw [raise_ediv]; omega)
    · exact ih hx hy (by omega) (by omega)
    · by_cases hsame : x / 2 ^ n = a / 2 ^ n ∧ y / 2 ^ n = c / 2 ^ n
      · exact ih hx hy hsame.1 hsame.2
      by_cases hne : x / 2 ^ n % 2 = y / 2 ^ n % 2
      · -- both operands have left their corners behind
        have hzero := minXor_emod (b := b) (d := d) (n := n) (a := a) (c := c) (by omega) (by omega)
        have hpre := minXor_ediv b d n a c
        have hhalf := bitwiseOp_xor.half_eq hxa hyc
        have hpar' := bitwiseOp_xor.parity (a / 2 ^ n) (c / 2 ^ n)
        exact le_of_ediv_emod (n := n) (by omega) (hzero ▸ Int.emod_nonneg _ (by positivity))
      · exact hdiffer _ _ rfl rfl (by omega) hne

/-- One corner lowered to a run of ones, the other with room below its quotient:
    the bits of the result are all ones. -/
theorem maxXor_emod (ha : a ≤ b) (hb : b % 2 ^ n = 2 ^ n - 1) (hc : c / 2 ^ n < d / 2 ^ n) :
    maxXor a c n b d % 2 ^ n = 2 ^ n - 1 := by
  induction n generalizing b d with
  | zero => simp only [pow_zero, Int.emod_one, sub_self]
  | succ n ih =>
    have hpos : (0 : Int) < 2 ^ n := by positivity
    have hmod := Int.emod_lt_of_pos b hpos
    have hA := Int.ediv_le_ediv hpos ha
    rw [ediv_two_pow_succ, ediv_two_pow_succ] at hc
    rw [emod_two_pow_succ', pow_succ] at hb
    have hbit : b / 2 ^ n % 2 = 1 := by
      rcases Int.emod_two_eq (b / 2 ^ n) with h | h
      · rw [h] at hb; omega
      · exact h
    rw [hbit] at hb
    have hdouble : ∀ s t : Int, a ≤ s → s % 2 ^ n = 2 ^ n - 1 → c / 2 ^ n < t / 2 ^ n →
        s / 2 ^ n % 2 ≠ t / 2 ^ n % 2 → maxXor a c n s t % 2 ^ (n + 1) = 2 ^ (n + 1) - 1 := by
      intro s t has hs ht hst
      have hq := maxXor_ediv a c n s t
      have hpar := bitwiseOp_xor.parity (s / 2 ^ n) (t / 2 ^ n)
      have hodd : maxXor a c n s t / 2 ^ n % 2 = 1 := by omega
      rw [emod_two_pow_succ', hodd, ih has hs ht, pow_succ]
      ring
    unfold maxXor
    split_ifs with h1 h2 h3
    · exact hdouble _ _ h2 (lower_emod b n) (by omega) (by rw [lower_ediv]; omega)
    · exact hdouble _ _ ha (by omega) (by rw [lower_ediv]; omega) (by rw [lower_ediv]; omega)
    · exact absurd (le_lower_iff.mpr (show c / 2 ^ n < d / 2 ^ n by omega)) h3
    · exact hdouble _ _ ha (by omega) (by omega) (by omega)

theorem le_maxXor (hx : a ≤ x) (hx' : x ≤ b) (hy : c ≤ y) (hy' : y ≤ d)
    (hxb : x / 2 ^ n = b / 2 ^ n) (hyd : y / 2 ^ n = d / 2 ^ n) :
    Int.xor x y ≤ maxXor a c n b d := by
  induction n generalizing b d with
  | zero =>
    simp only [pow_zero, Int.ediv_one] at hxb hyd
    rw [maxXor, hxb, hyd]
  | succ n ih =>
    rw [ediv_two_pow_succ, ediv_two_pow_succ] at hxb hyd
    have hpos : (0 : Int) < 2 ^ n := by positivity
    obtain ⟨hX, hX'⟩ := ediv_bounds hx hx' n
    obtain ⟨hY, hY'⟩ := ediv_bounds hy hy' n
    have hxy := bitwiseOp_xor.ediv_two_pow x y n
    have hpar := bitwiseOp_xor.parity (x / 2 ^ n) (y / 2 ^ n)
    -- operands whose bits agree where those of the corner differ
    have hagree : ∀ s t : Int, s / 2 ^ n / 2 = b / 2 ^ n / 2 → t / 2 ^ n / 2 = d / 2 ^ n / 2 →
        s / 2 ^ n % 2 ≠ t / 2 ^ n % 2 → x / 2 ^ n % 2 = y / 2 ^ n % 2 →
        Int.xor x y ≤ maxXor a c n s t := by
      intro s t hs ht hst heq
      have hpre := maxXor_ediv a c n s t
      have hhalf := bitwiseOp_xor.half_eq (hs.trans hxb.symm) (ht.trans hyd.symm)
      have hpar' := bitwiseOp_xor.parity (s / 2 ^ n) (t / 2 ^ n)
      exact (lt_of_ediv_two_pow_lt (n := n) (by omega)).le
    have hlower : ∀ s z : Int, z / 2 ^ n = s / 2 ^ n - 1 → z ≤ lower s n := by
      intro s z hz
      rw [le_lower_iff]
      omega
    unfold maxXor
    simp only [le_lower_iff]
    split_ifs with h1 h2 h3
    · by_cases heq : x / 2 ^ n % 2 = y / 2 ^ n % 2
      · exact hagree _ _ (by rw [lower_ediv]; omega) rfl (by rw [lower_ediv]; omega) heq
      by_cases hset : x / 2 ^ n = b / 2 ^ n
      · -- the other operand left its corner, so the rest of the result is ones
        have hones := maxXor_emod (a := a) (b := lower b n) (c := c) (d := d) (n := n)
          (by rw [le_lower_iff]; omega) (lower_emod b n) (by omega)
        have hpre := maxXor_ediv a c n (lower b n) d
        have hhalf := bitwiseOp_xor.half_eq (show lower b n / 2 ^ n / 2 = x / 2 ^ n / 2 by
          rw [lower_ediv]; omega) hyd.symm
        have hpar' := bitwiseOp_xor.parity (lower b n / 2 ^ n) (d / 2 ^ n)
        have hl := lower_ediv b n
        have hmod := Int.emod_lt_of_pos (Int.xor x y) hpos
        exact le_of_ediv_emod (n := n) (by omega) (by omega)
      · exact ih (hlower b x (by omega)) hy' (by rw [lower_ediv]; omega) (by omega)
    · by_cases hset : y / 2 ^ n = d / 2 ^ n
      · exact hagree _ _ rfl (by rw [lower_ediv]; omega) (by rw [lower_ediv]; omega) (by omega)
      · exact ih hx' (hlower d y (by omega)) (by omega) (by rw [lower_ediv]; omega)
    · exact ih hx' hy' (by omega) (by omega)
    · by_cases hsame : x / 2 ^ n = b / 2 ^ n ∧ y / 2 ^ n = d / 2 ^ n
      · exact ih hx' hy' hsame.1 hsame.2
      · exact hagree _ _ rfl rfl (by omega) (by omega)

end Xor
end Bambu.Math
