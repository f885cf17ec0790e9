/-
  Bambu.Math.SignMag

  Integers kept as a sign and a magnitude of at most `n` bits, the arithmetic
  of a fixed-capacity multiprecision type that does not check for overflow:
  every operation is carried out exactly and the bits of the magnitude above
  position `n` are then dropped (`ofInt`).

  Each operation comes with one lemma saying what it does to the value
  (`val_add`, `val_mul`, ...).  All of them read `ofInt` of the exact result,
  and `val_ofInt` removes `ofInt` as soon as the exact result fits, so a proof
  about code over `SignMag n` becomes a proof about `Int` once the bounds of
  the intermediate values are known.
-/

import Bambu.Math.Bitwise

namespace Bambu.Math

/-- A sign-magnitude integer with `n` magnitude bits. -/
structure SignMag (n : Nat) where
  val : Int
  fits : val.natAbs < 2 ^ n
deriving DecidableEq

namespace SignMag

variable {n : Nat}

@[ext] theorem ext {a b : SignMag n} (h : a.val = b.val) : a = b := by
  cases a; cases b; cases h; rfl

theorem eq_iff {a b : SignMag n} : a = b ↔ a.val = b.val :=
  ⟨fun h => h ▸ rfl, ext⟩

theorem neg_lt_val (a : SignMag n) : -(2 : Int) ^ n < a.val := by
  have h : (a.val.natAbs : Int) < 2 ^ n := by exact_mod_cast a.fits
  omega

theorem val_lt (a : SignMag n) : a.val < (2 : Int) ^ n := by
  have h : (a.val.natAbs : Int) < 2 ^ n := by exact_mod_cast a.fits
  omega

/-! ## Dropping the bits that do not fit -/

/-- The magnitude of `v` modulo `2 ^ n`, under the sign of `v`. -/
def ofInt (v : Int) : SignMag n where
  val := v.sign * (v.natAbs % 2 ^ n : Nat)
  fits := by
    have hlt : v.natAbs % 2 ^ n < 2 ^ n := Nat.mod_lt _ (Nat.two_pow_pos n)
    rw [Int.natAbs_mul, Int.natAbs_natCast, Int.natAbs_sign]
    split
    · simp
    · simpa using hlt

/-- A value that fits is kept. -/
theorem val_ofInt {v : Int} (hlo : -(2 : Int) ^ n < v) (hhi : v < 2 ^ n) :
    (ofInt v : SignMag n).val = v := by
  have habs : v.natAbs < 2 ^ n := by
    have h : |v| < (2 : Int) ^ n := abs_lt.mpr ⟨hlo, hhi⟩
    rw [← Int.natCast_natAbs] at h
    exact_mod_cast h
  simp only [ofInt, Nat.mod_eq_of_lt habs, Int.sign_mul_natAbs]

/-- The one magnitude just out of reach becomes zero. -/
theorem val_ofInt_two_pow : (ofInt (2 ^ n) : SignMag n).val = 0 := by
  have habs : ((2 : Int) ^ n).natAbs = 2 ^ n := by rw [Int.natAbs_pow]; rfl
  simp only [ofInt, habs, Nat.mod_self, Nat.cast_zero, mul_zero]

theorem val_ofInt_neg_two_pow : (ofInt (-2 ^ n) : SignMag n).val = 0 := by
  have habs : (-(2 : Int) ^ n).natAbs = 2 ^ n := by
    rw [Int.natAbs_neg, Int.natAbs_pow]; rfl
  simp only [ofInt, habs, Nat.mod_self, Nat.cast_zero, mul_zero]

/-- One bit too many, and it is dropped. -/
theorem val_ofInt_of_le {v : Int} (hlo : (2 : Int) ^ n ≤ v) (hhi : v < 2 * 2 ^ n) :
    (ofInt v : SignMag n).val = v - 2 ^ n := by
  have hpos : (0 : Int) < 2 ^ n := by positivity
  lift v to Nat using by omega
  have hlo' : 2 ^ n ≤ v := by exact_mod_cast hlo
  have hhi' : v < 2 * 2 ^ n := by exact_mod_cast hhi
  have hmod : v % 2 ^ n = v - 2 ^ n := by
    rw [Nat.mod_eq_sub_mod hlo', Nat.mod_eq_of_lt (by omega)]
  simp only [ofInt, Int.natAbs_natCast, hmod, Int.sign_eq_one_of_pos (show (0 : Int) < v by omega),
    one_mul]
  push_cast [Nat.cast_sub hlo']
  rfl

/-- Dropping high bits of the magnitude does not change the residue modulo a
    smaller power of two. -/
theorem val_ofInt_emod (v : Int) {k : Nat} (hk : k ≤ n) :
    (ofInt v : SignMag n).val % 2 ^ k = v % 2 ^ k := by
  have hmod : ((v.natAbs % 2 ^ n : Nat) : Int) = v.natAbs - 2 ^ n * (v.natAbs / 2 ^ n : Nat) := by
    have h := Nat.div_add_mod v.natAbs (2 ^ n)
    have h' : ((2 ^ n * (v.natAbs / 2 ^ n) + v.natAbs % 2 ^ n : Nat) : Int) = v.natAbs := by
      rw [h]
    push_cast at h' ⊢
    omega
  have hdvd : (2 : Int) ^ k ∣ v.sign * (2 ^ n * (v.natAbs / 2 ^ n : Nat)) :=
    Dvd.dvd.mul_left (Dvd.dvd.mul_right (pow_dvd_pow 2 hk) _) _
  have hval : (ofInt v : SignMag n).val = v - v.sign * (2 ^ n * (v.natAbs / 2 ^ n : Nat)) := by
    simp only [ofInt, hmod, mul_sub, Int.sign_mul_natAbs]
  rw [hval, Int.sub_emod, Int.emod_eq_zero_of_dvd hdvd, sub_zero, Int.emod_emod_of_dvd _ dvd_rfl]

/-! ## Order -/

instance : LT (SignMag n) := ⟨fun a b => a.val < b.val⟩
instance : LE (SignMag n) := ⟨fun a b => a.val ≤ b.val⟩
instance : DecidableLT (SignMag n) := fun a b => inferInstanceAs (Decidable (a.val < b.val))
instance : DecidableLE (SignMag n) := fun a b => inferInstanceAs (Decidable (a.val ≤ b.val))

theorem lt_iff {a b : SignMag n} : a < b ↔ a.val < b.val := Iff.rfl
theorem le_iff {a b : SignMag n} : a ≤ b ↔ a.val ≤ b.val := Iff.rfl

instance : Min (SignMag n) := ⟨fun a b => if b < a then b else a⟩
instance : Max (SignMag n) := ⟨fun a b => if a < b then b else a⟩

@[simp] theorem val_min (a b : SignMag n) : (min a b).val = min a.val b.val := by
  show (if b < a then b else a).val = _
  split <;> rename_i h <;> rw [lt_iff] at h <;> omega

@[simp] theorem val_max (a b : SignMag n) : (max a b).val = max a.val b.val := by
  show (if a < b then b else a).val = _
  split <;> rename_i h <;> rw [lt_iff] at h <;> omega

/-! ## Arithmetic -/

instance (k : Nat) : OfNat (SignMag n) k := ⟨ofInt k⟩
instance : Neg (SignMag n) := ⟨fun a => ⟨-a.val, by simpa using a.fits⟩⟩
instance : Add (SignMag n) := ⟨fun a b => ofInt (a.val + b.val)⟩
instance : Sub (SignMag n) := ⟨fun a b => ofInt (a.val - b.val)⟩
instance : Mul (SignMag n) := ⟨fun a b => ofInt (a.val * b.val)⟩
/-- Division truncates toward zero; the caller rules out a zero divisor. -/
instance : Div (SignMag n) := ⟨fun a b => ofInt (a.val.tdiv b.val)⟩
instance : HShiftLeft (SignMag n) Nat (SignMag n) := ⟨fun a s => ofInt (a.val * 2 ^ s)⟩
/-- Shifting right rounds toward minus infinity. -/
instance : HShiftRight (SignMag n) Nat (SignMag n) := ⟨fun a s => ofInt (a.val / 2 ^ s)⟩
/-- The bitwise operations read their operands in two's complement. -/
instance : AndOp (SignMag n) :=
  ⟨fun a b => ofInt (BitVec.ofInt (n + 1) a.val &&& BitVec.ofInt (n + 1) b.val).toInt⟩
instance : OrOp (SignMag n) :=
  ⟨fun a b => ofInt (BitVec.ofInt (n + 1) a.val ||| BitVec.ofInt (n + 1) b.val).toInt⟩
instance : XorOp (SignMag n) :=
  ⟨fun a b => ofInt (BitVec.ofInt (n + 1) a.val ^^^ BitVec.ofInt (n + 1) b.val).toInt⟩
instance : Complement (SignMag n) := ⟨fun a => ofInt (-a.val - 1)⟩

def abs (a : SignMag n) : SignMag n :=
  ⟨a.val.natAbs, by rw [Int.natAbs_natCast]; exact a.fits⟩

theorem val_ofNat (k : Nat) : (OfNat.ofNat k : SignMag n).val = (ofInt k : SignMag n).val := rfl
@[simp] theorem val_neg (a : SignMag n) : (-a).val = -a.val := rfl
theorem val_add (a b : SignMag n) : (a + b).val = (ofInt (a.val + b.val) : SignMag n).val := rfl
theorem val_sub (a b : SignMag n) : (a - b).val = (ofInt (a.val - b.val) : SignMag n).val := rfl
theorem val_shiftLeft (a : SignMag n) (s : Nat) :
    (a <<< s).val = (ofInt (a.val * 2 ^ s) : SignMag n).val := rfl
@[simp] theorem val_abs (a : SignMag n) : a.abs.val = |a.val| := by
  simp only [abs, Int.natCast_natAbs]

@[simp] theorem val_zero : (0 : SignMag n).val = 0 := by
  rw [val_ofNat]; simp [ofInt]

/-- A right shift never leaves the capacity. -/
theorem val_shiftRight (a : SignMag n) (s : Nat) : (a >>> s).val = a.val / 2 ^ s := by
  have hs : (0 : Int) < 2 ^ s := by positivity
  have hlo := a.neg_lt_val
  have hhi := a.val_lt
  refine val_ofInt ?_ ?_
  · have h : (-(2 : Int) ^ n + 1) * 2 ^ s ≤ a.val := by
      rcases Int.lt_or_le a.val 0 with h0 | h0
      · nlinarith
      · nlinarith [one_le_pow₀ (n := n) (show (1 : Int) ≤ 2 by decide)]
    have := (Int.le_ediv_iff_mul_le hs).mpr h
    omega
  · refine (Int.ediv_lt_iff_lt_mul hs).mpr ?_
    nlinarith [one_le_pow₀ (n := n) (show (1 : Int) ≤ 2 by decide)]

/-- Masking with `2 ^ k - 1` keeps the residue modulo `2 ^ k`. -/
theorem val_land_mask (a m : SignMag n) {k : Nat} (hk : k ≤ n) (hm : m.val = 2 ^ k - 1) :
    (a &&& m).val = a.val % 2 ^ k := by
  have hkn : (2 : Nat) ^ k ≤ 2 ^ n := Nat.pow_le_pow_right (by decide) hk
  have hpos : (0 : Int) < 2 ^ k := by positivity
  have hmask : (BitVec.ofInt (n + 1) m.val).toNat = 2 ^ k - 1 := by
    have hcast : (m.val : Int) = ((2 ^ k - 1 : Nat) : Int) := by
      rw [hm, Nat.cast_sub (Nat.one_le_two_pow)]; push_cast; rfl
    rw [hcast, BitVec.ofInt_natCast, BitVec.toNat_ofNat]
    have hkpos := Nat.two_pow_pos k
    exact Nat.mod_eq_of_lt (by rw [Nat.pow_succ]; omega)
  have hand : (BitVec.ofInt (n + 1) a.val &&& BitVec.ofInt (n + 1) m.val).toNat
      = (a.val % 2 ^ k).toNat := by
    rw [BitVec.toNat_and, hmask, Nat.and_two_pow_sub_one_eq_mod]
    apply Int.ofNat.inj
    have hdvd : ((2 ^ k : Nat) : Int) ∣ ((2 ^ (n + 1) : Nat) : Int) :=
      Int.natCast_dvd_natCast.mpr (Nat.pow_dvd_pow 2 (by omega))
    have hnn := Int.emod_nonneg a.val (ne_of_gt hpos)
    simp only [Int.ofNat_eq_natCast, Int.natCast_emod, BitVec.toNat_ofInt]
    rw [Int.toNat_of_nonneg (Int.emod_nonneg _ (by positivity)), Int.toNat_of_nonneg hnn,
      Int.emod_emod_of_dvd _ hdvd]
    push_cast
    rfl
  have hlt := Int.emod_lt_of_pos a.val hpos
  have hnn := Int.emod_nonneg a.val (ne_of_gt hpos)
  have hkn' : (2 : Int) ^ k ≤ 2 ^ n := by exact_mod_cast hkn
  have htoInt : (BitVec.ofInt (n + 1) a.val &&& BitVec.ofInt (n + 1) m.val).toInt
      = a.val % 2 ^ k := by
    rw [BitVec.toInt_eq_toNat_of_lt]
    · rw [hand]; omega
    · rw [hand, Nat.pow_succ]
      have : ((a.val % 2 ^ k).toNat : Int) < 2 ^ n := by omega
      have : (a.val % 2 ^ k).toNat < 2 ^ n := by exact_mod_cast this
      omega
  show (ofInt _ : SignMag n).val = _
  rw [htoInt]
  exact val_ofInt (by omega) (by omega)

/-- Masking with minus one keeps the value. -/
theorem land_neg_one (a m : SignMag n) (hm : m.val = -1) : a &&& m = a := by
  have hlo := a.neg_lt_val
  have hhi := a.val_lt
  apply ext
  show (ofInt _ : SignMag n).val = _
  have hones : BitVec.ofInt (n + 1) m.val = BitVec.allOnes (n + 1) := by
    rw [hm, ← BitVec.neg_one_eq_allOnes, BitVec.ofInt_neg]; rfl
  rw [hones, BitVec.and_allOnes, BitVec.toInt_ofInt,
    Int.bmod_eq_of_le_mul_two (by push_cast; rw [pow_succ]; linarith)
      (by push_cast; rw [pow_succ]; linarith)]
  exact val_ofInt hlo hhi

/-! ## Bitwise operations on the values

Each is exact unless its result is `-2 ^ n`, the one value of `n` bits and a
sign without a magnitude of `n` bits. -/

section Bitwise

variable {a b : SignMag n}

theorem ofInt_bitwise {op g : Int → Int → Int} (h : BitwiseOp op g)
    (hs : ∀ x y, x = 0 ∨ x = -1 → y = 0 ∨ y = -1 → op x y = 0 ∨ op x y = -1) :
    (ofInt (BitVec.ofInt (n + 1) (op a.val b.val)).toInt : SignMag n) = ofInt (op a.val b.val) := by
  have hmem := h.mem_of_mem hs ⟨a.neg_lt_val.le, a.val_lt⟩ ⟨b.neg_lt_val.le, b.val_lt⟩
  rw [BitVec.toInt_ofInt_eq_self (Nat.succ_pos n) hmem.1 hmem.2]

theorem land_eq (a b : SignMag n) : a &&& b = ofInt (Int.land a.val b.val) := by
  rw [← ofInt_bitwise bitwiseOp_land land_sign, ← ofInt_land]
  rfl

theorem lor_eq (a b : SignMag n) : a ||| b = ofInt (Int.lor a.val b.val) := by
  rw [← ofInt_bitwise bitwiseOp_lor lor_sign, ← ofInt_lor]
  rfl

theorem xor_eq (a b : SignMag n) : a ^^^ b = ofInt (Int.xor a.val b.val) := by
  rw [← ofInt_bitwise bitwiseOp_xor xor_sign, ← ofInt_xor]
  rfl

theorem val_land (h : -2 ^ n < Int.land a.val b.val) : (a &&& b).val = Int.land a.val b.val := by
  have hmem := bitwiseOp_land.mem_of_mem land_sign ⟨a.neg_lt_val.le, a.val_lt⟩
    ⟨b.neg_lt_val.le, b.val_lt⟩
  rw [land_eq, val_ofInt h hmem.2]

theorem val_lor (h : -2 ^ n < Int.lor a.val b.val) : (a ||| b).val = Int.lor a.val b.val := by
  have hmem := bitwiseOp_lor.mem_of_mem lor_sign ⟨a.neg_lt_val.le, a.val_lt⟩
    ⟨b.neg_lt_val.le, b.val_lt⟩
  rw [lor_eq, val_ofInt h hmem.2]

theorem val_xor (h : -2 ^ n < Int.xor a.val b.val) : (a ^^^ b).val = Int.xor a.val b.val := by
  have hmem := bitwiseOp_xor.mem_of_mem xor_sign ⟨a.neg_lt_val.le, a.val_lt⟩
    ⟨b.neg_lt_val.le, b.val_lt⟩
  rw [xor_eq, val_ofInt h hmem.2]

theorem val_complement (h : a.val + 1 < 2 ^ n) : (~~~a).val = Int.lnot a.val := by
  rw [lnot_eq]
  have hlo := a.neg_lt_val
  exact val_ofInt (by omega) (by omega)

end Bitwise

end SignMag
end Bambu.Math
