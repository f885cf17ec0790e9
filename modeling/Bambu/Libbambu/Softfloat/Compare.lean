/-
  Bambu.Libbambu.Softfloat.Compare

  The comparisons of encodings.  `__FloatEQ`, `__FloatLE` and `__FloatLT` test the sign
  first and compare the magnitudes under it.  The relational kernels of `builtins.h`
  compare the whole encodings with the sign bit flipped, as one unsigned number; that is
  the order of the values only where no two distinct negative numbers and no two zeros
  meet.
-/

import Bambu.Libbambu.Softfloat.Common
import Mathlib.Data.Int.ConditionallyCompleteOrder

namespace Bambu.Libbambu.Softfloat

open Bambu.Math

/-! ## The predicates -/

/-- `BIT_MASK64(var, msbpp)`. -/
def bitMask64 (var : Udatatype) (msbpp : Nat) : Udatatype :=
  var &&& ((BitVec.allOnes 64) >>> (64 - msbpp))

/-- The test for a NaN operand, in the mode `FLOAT_EXC_STD`. -/
def nanOperand (a b : Tfloat) (expBits fracBits : Nat) (exc : ExcMode) : Bool :=
  exc = .std &&
    ((extractFloatExp a expBits fracBits == ones expBits && extractFloatFrac a fracBits != 0) ||
      (extractFloatExp b expBits fracBits == ones expBits && extractFloatFrac b fracBits != 0))

/-- `__FloatEQ`. -/
def floatEQ (a b : Tfloat) (expBits fracBits : Nat) (exc : ExcMode) (sign : Int) : Bool :=
  if nanOperand a b expBits fracBits exc then false
  else if sign = -1 then
    bitMask64 a (expBits + fracBits + 1) == bitMask64 b (expBits + fracBits + 1) ||
      bitMask64 (a ||| b) (expBits + fracBits) == 0
  else bitMask64 a (expBits + fracBits + 1) == bitMask64 b (expBits + fracBits + 1)

/-- `__FloatLE`. -/
def floatLE (a b : Tfloat) (expBits fracBits : Nat) (exc : ExcMode) (sign : Int) : Bool :=
  if nanOperand a b expBits fracBits exc then false
  else
    let aSign := extractFloatSign a expBits fracBits sign
    let bSign := extractFloatSign b expBits fracBits sign
    let width := expBits + fracBits + if sign = -1 then 1 else 0
    if aSign != bSign then aSign || bitMask64 (a ||| b) (expBits + fracBits) == 0
    else bitMask64 a width == bitMask64 b width ||
      (aSign ^^ decide (bitMask64 a width < bitMask64 b width))

/-- `__FloatLT`. -/
def floatLT (a b : Tfloat) (expBits fracBits : Nat) (exc : ExcMode) (sign : Int) : Bool :=
  if nanOperand a b expBits fracBits exc then false
  else
    let aSign := extractFloatSign a expBits fracBits sign
    let bSign := extractFloatSign b expBits fracBits sign
    let width := expBits + fracBits + if sign = -1 then 1 else 0
    if aSign != bSign then aSign && bitMask64 (a ||| b) (expBits + fracBits) != 0
    else bitMask64 a width != bitMask64 b width &&
      (aSign ^^ decide (bitMask64 a width < bitMask64 b width))

/-! ## The relational kernels -/

/-- The encoding with its sign bit flipped. -/
def flipSign (x : Tfloat) (expBits fracBits : Nat) : Udatatype :=
  x ^^^ ((1 : Udatatype) <<< (fracBits + expBits))

/-- `__kernel_isgreater`. -/
def kernelIsgreater (x y : Tfloat) (expBits fracBits : Nat) (exc : ExcMode) : Bool :=
  !nanOperand x y expBits fracBits exc &&
    decide (flipSign x expBits fracBits > flipSign y expBits fracBits)

/-- `__kernel_isgreaterequal`. -/
def kernelIsgreaterequal (x y : Tfloat) (expBits fracBits : Nat) (exc : ExcMode) : Bool :=
  !nanOperand x y expBits fracBits exc &&
    decide (flipSign x expBits fracBits ≥ flipSign y expBits fracBits)

/-- `__kernel_isless`. -/
def kernelIsless (x y : Tfloat) (expBits fracBits : Nat) (exc : ExcMode) : Bool :=
  !nanOperand x y expBits fracBits exc &&
    decide (flipSign x expBits fracBits < flipSign y expBits fracBits)

/-- `__kernel_islessequal`. -/
def kernelIslessequal (x y : Tfloat) (expBits fracBits : Nat) (exc : ExcMode) : Bool :=
  !nanOperand x y expBits fracBits exc &&
    decide (flipSign x expBits fracBits ≤ flipSign y expBits fracBits)

/-- `__kernel_islessgreater`. -/
def kernelIslessgreater (x y : Tfloat) (expBits fracBits : Nat) (exc : ExcMode) : Bool :=
  !nanOperand x y expBits fracBits exc && x != y

/-! ## The extended value of an encoding -/

/-- The value of an encoding with the infinities at the ends of the order; a NaN has
none. -/
def extValue (e f : Nat) (x : Tfloat) : Option (WithBot (WithTop Int)) :=
  if IsNaN e f x then none
  else if IsInf e f x then if signOf e f x then some ⊥ else some ⊤
  else some ((valueOf e f x : WithTop Int) : WithBot (WithTop Int))

/-- Both operands have a value, and `r` relates them. -/
def Related (e f : Nat) (r : WithBot (WithTop Int) → WithBot (WithTop Int) → Prop)
    (a b : Tfloat) : Prop :=
  ∃ u v, extValue e f a = some u ∧ extValue e f b = some v ∧ r u v

/-- The three predicates are those of the extended values. -/
structure PredicatesExact (e f : Nat) (a b : Tfloat) : Prop where
  eq : floatEQ a b e f .std (-1) = true ↔ Related e f (· = ·) a b
  le : floatLE a b e f .std (-1) = true ↔ Related e f (· ≤ ·) a b
  lt : floatLT a b e f .std (-1) = true ↔ Related e f (· < ·) a b

/-- The relational kernels give the verdicts of the predicates. -/
structure KernelsAgree (e f : Nat) (a b : Tfloat) : Prop where
  greater : kernelIsgreater a b e f .std = floatLT b a e f .std (-1)
  greaterequal : kernelIsgreaterequal a b e f .std = floatLE b a e f .std (-1)
  less : kernelIsless a b e f .std = floatLT a b e f .std (-1)
  lessequal : kernelIslessequal a b e f .std = floatLE a b e f .std (-1)
  lessgreater : kernelIslessgreater a b e f .std =
    (floatLT a b e f .std (-1) || floatLT b a e f .std (-1))

/-- Two distinct encodings, none of them a NaN, whose order as unsigned numbers is not
that of their values: two negative ones, or two zeros. -/
def KernelMisorders (e f : Nat) (a b : Tfloat) : Prop :=
  ¬ IsNaN e f a ∧ ¬ IsNaN e f b ∧ a ≠ b ∧
    ((signOf e f a = true ∧ signOf e f b = true) ∨ (magOf e f a = 0 ∧ magOf e f b = 0))

/-! ## The words of the comparisons -/

section Words

variable {e f : Nat} {a b : Tfloat}

theorem toNat_bitMask64 (v : Udatatype) {n : Nat} (h : n ≤ 64) :
    (bitMask64 v n).toNat = v.toNat % 2 ^ n := by
  have hmask : ((BitVec.allOnes 64) >>> (64 - n)).toNat = 2 ^ n - 1 := by
    have hsplit : 2 ^ 64 = 2 ^ n * 2 ^ (64 - n) := by rw [← Nat.pow_add]; congr 1; omega
    have hpos := Nat.two_pow_pos (64 - n)
    have hposn := Nat.two_pow_pos n
    rw [BitVec.toNat_ushiftRight, Nat.shiftRight_eq_div_pow, BitVec.toNat_allOnes, hsplit]
    have heq : 2 ^ n * 2 ^ (64 - n) - 1 = 2 ^ (64 - n) * (2 ^ n - 1) + (2 ^ (64 - n) - 1) := by
      rw [Nat.mul_sub, Nat.mul_one, Nat.mul_comm (2 ^ n)]
      have hle : 2 ^ (64 - n) * 1 ≤ 2 ^ (64 - n) * 2 ^ n := Nat.mul_le_mul_left _ hposn
      omega
    rw [heq, Nat.mul_add_div hpos, Nat.div_eq_of_lt (by omega), Nat.add_zero]
  unfold bitMask64
  rw [BitVec.toNat_and, hmask, Nat.and_two_pow_sub_one_eq_mod]

theorem nanOperand_std (he : e < 64) (hf : f < 64) (a b : Tfloat) :
    nanOperand a b e f .std = decide (IsNaN e f a ∨ IsNaN e f b) := by
  have hnan : ∀ x : Tfloat,
      (extractFloatExp x e f == ones e && extractFloatFrac x f != 0) = decide (IsNaN e f x) :=
    fun x => nan_iff he (magOf_lt e f x) (toNat_extractFloatExp x he) (toNat_extractFloatFrac x hf)
  unfold nanOperand
  rw [hnan, hnan, Bool.decide_or]
  rfl

/-- The mask of the whole encoding keeps it. -/
theorem toNat_bitMask64_encoding (hef : e + f ≤ 63) (ha : IsEncoding e f a) :
    (bitMask64 a (e + f + 1)).toNat = a.toNat := by
  rw [toNat_bitMask64 a (by omega), Nat.mod_eq_of_lt ha]

/-- The test for two zeros. -/
theorem bothZero_iff (hef : e + f ≤ 63) (a b : Tfloat) :
    (bitMask64 (a ||| b) (e + f) == 0) = decide (magOf e f a = 0 ∧ magOf e f b = 0) := by
  rw [word_eq_zero_iff, toNat_bitMask64 _ (by omega), BitVec.toNat_or, Nat.or_mod_two_pow,
    decide_eq_decide, Nat.or_eq_zero_iff]
  rfl

/-- Flipping the sign bit puts the negative encodings below the others. -/
theorem toNat_flipSign (hef : e + f ≤ 63) (ha : IsEncoding e f a) :
    (flipSign a e f).toNat = (!signOf e f a).toNat * 2 ^ (e + f) + magOf e f a := by
  have hbit : ((1 : Udatatype) <<< (f + e)).toNat = 2 ^ (e + f) := by
    have hlt : 2 ^ (e + f) < 2 ^ 64 := Nat.pow_lt_pow_right (by decide) (by omega)
    rw [Nat.add_comm f e, toNat_shiftLeft_of_lt] <;>
      rw [show (1 : Udatatype).toNat = 1 by rfl, Nat.one_mul]
    exact hlt
  have hsign : a.toNat / 2 ^ (e + f) = (signOf e f a).toNat := by
    rw [signOf_eq ha]
    exact (packed_fields (magOf_lt e f a)).1
  have hdiv : (flipSign a e f).toNat / 2 ^ (e + f) = (!signOf e f a).toNat := by
    unfold flipSign
    rw [BitVec.toNat_xor, hbit, Nat.xor_div_two_pow, hsign, Nat.div_self (Nat.two_pow_pos _)]
    cases signOf e f a <;> rfl
  have hmod : (flipSign a e f).toNat % 2 ^ (e + f) = magOf e f a := by
    unfold flipSign
    rw [BitVec.toNat_xor, hbit, Nat.xor_mod_two_pow, Nat.mod_self, Nat.xor_zero]
    rfl
  rw [← hdiv, ← hmod, Nat.mul_comm]
  exact (Nat.div_add_mod _ _).symm

end Words

/-! ## The order of the values -/

section Order

variable {e f : Nat}

/-- The magnitude of an encoding with its sign. -/
def orderKey (e f : Nat) (x : Tfloat) : Int :=
  if signOf e f x then -(magOf e f x : Int) else magOf e f x

/-- The value of a signed magnitude that is not infinite. -/
def keyValue (f : Nat) (k : Int) : Int :=
  if k < 0 then -(magValue f k.natAbs : Int) else magValue f k.natAbs

/-- The extended value of a signed magnitude. -/
def keyExtValue (e f : Nat) (k : Int) : WithBot (WithTop Int) :=
  if k ≤ -(infMag e f : Int) then ⊥
  else if (infMag e f : Int) ≤ k then ⊤
  else ((keyValue f k : WithTop Int) : WithBot (WithTop Int))

theorem keyValue_strictMono (f : Nat) : StrictMono (keyValue f) := by
  intro k l hlt
  have hzero : magValue f 0 = 0 := by
    rw [magValue, magSig_of_lt (Nat.two_pow_pos f), Nat.zero_mul]
  have hmono := magValue_strictMono f
  unfold keyValue
  split
  · rename_i hk
    have hpos : 0 < magValue f k.natAbs := by
      rw [← hzero]
      exact hmono (by omega)
    split
    · have hval : magValue f l.natAbs < magValue f k.natAbs := hmono (by omega)
      omega
    · omega
  · rw [if_neg (by omega)]
    have hval : magValue f k.natAbs < magValue f l.natAbs := hmono (by omega)
    omega

theorem keyExtValue_strictMonoOn (e f : Nat) :
    StrictMonoOn (keyExtValue e f) (Set.Icc (-(infMag e f : Int)) (infMag e f)) := by
  intro k hk l hl hlt
  obtain ⟨hk1, hk2⟩ := hk
  obtain ⟨hl1, hl2⟩ := hl
  unfold keyExtValue
  rw [if_neg (show ¬ l ≤ -(infMag e f : Int) by omega),
    if_neg (show ¬ (infMag e f : Int) ≤ k by omega)]
  split
  · split
    · exact WithBot.bot_lt_coe _
    · exact WithBot.bot_lt_coe _
  · split
    · exact WithBot.coe_lt_coe.mpr (WithTop.coe_lt_top _)
    · exact WithBot.coe_lt_coe.mpr (WithTop.coe_lt_coe.mpr (keyValue_strictMono f hlt))

/-- A value that is not a NaN by its signed magnitude. -/
theorem extValue_eq (he : 0 < e) {x : Tfloat} (hx : ¬ IsNaN e f x) :
    extValue e f x = some (keyExtValue e f (orderKey e f x)) ∧
      orderKey e f x ∈ Set.Icc (-(infMag e f : Int)) (infMag e f) := by
  have hle : magOf e f x ≤ infMag e f := Nat.not_lt.mp hx
  have hinf : 0 < infMag e f := by
    have htwo : 2 ^ 1 ≤ 2 ^ e := Nat.pow_le_pow_right (by decide) he
    exact Nat.mul_pos (by omega) (Nat.two_pow_pos f)
  have hzero : magValue f 0 = 0 := by
    rw [magValue, magSig_of_lt (Nat.two_pow_pos f), Nat.zero_mul]
  refine ⟨?_, ?_⟩
  · unfold extValue orderKey keyExtValue keyValue valueOf
    rw [if_neg hx]
    by_cases hA : IsInf e f x
    · have hA' : magOf e f x = infMag e f := hA
      rw [if_pos hA, hA']
      cases signOf e f x with
      | true => rw [if_pos rfl, if_pos rfl, if_pos le_rfl]
      | false =>
        rw [if_neg Bool.false_ne_true, if_neg Bool.false_ne_true, if_neg (by omega),
          if_pos le_rfl]
    · have hA' : magOf e f x ≠ infMag e f := hA
      rw [if_neg hA]
      cases signOf e f x with
      | true =>
        rw [if_pos rfl, if_pos rfl, if_neg (by omega), if_neg (by omega)]
        rcases Nat.eq_zero_or_pos (magOf e f x) with hz | hpos
        · rw [hz, if_neg (by omega), Int.natCast_zero, Int.neg_zero, Int.natAbs_zero, hzero]
          rfl
        · rw [if_pos (by omega), Int.natAbs_neg, Int.natAbs_natCast]
      | false =>
        rw [if_neg Bool.false_ne_true, if_neg Bool.false_ne_true, if_neg (by omega),
          if_neg (by omega), if_neg (by omega), Int.natAbs_natCast]
  · unfold orderKey
    constructor <;> split <;> omega

/-- A relation of values is one of signed magnitudes, where those are related alike. -/
theorem related_iff (he : 0 < e) {r : WithBot (WithTop Int) → WithBot (WithTop Int) → Prop}
    {s : Int → Int → Prop} (a b : Tfloat)
    (hrel : ∀ k ∈ Set.Icc (-(infMag e f : Int)) (infMag e f),
      ∀ l ∈ Set.Icc (-(infMag e f : Int)) (infMag e f),
        (r (keyExtValue e f k) (keyExtValue e f l) ↔ s k l)) :
    Related e f r a b ↔ ¬ IsNaN e f a ∧ ¬ IsNaN e f b ∧ s (orderKey e f a) (orderKey e f b) := by
  constructor
  · rintro ⟨u, v, hu, hv, huv⟩
    have hnan : ∀ x w, extValue e f x = some w → ¬ IsNaN e f x := by
      intro x w hw hx
      rw [extValue, if_pos hx] at hw
      exact absurd hw (by simp)
    have ha := hnan a u hu
    have hb := hnan b v hv
    obtain ⟨hua, hka⟩ := extValue_eq he ha
    obtain ⟨hvb, hkb⟩ := extValue_eq he hb
    rw [hua, Option.some.injEq] at hu
    rw [hvb, Option.some.injEq] at hv
    refine ⟨ha, hb, (hrel _ hka _ hkb).mp ?_⟩
    rw [hu, hv]
    exact huv
  · rintro ⟨ha, hb, hs⟩
    obtain ⟨hua, hka⟩ := extValue_eq he ha
    obtain ⟨hvb, hkb⟩ := extValue_eq he hb
    exact ⟨_, _, hua, hvb, (hrel _ hka _ hkb).mpr hs⟩

end Order

/-! ## The comparisons by sign and magnitude -/

section Verdicts

variable {e f : Nat} {a b : Tfloat}

theorem floatEQ_iff (hef : e + f ≤ 63) (he : e < 64) (hf : f < 64) (ha : IsEncoding e f a)
    (hb : IsEncoding e f b) :
    floatEQ a b e f .std (-1) = true ↔
      ¬ IsNaN e f a ∧ ¬ IsNaN e f b ∧ orderKey e f a = orderKey e f b := by
  have hA := magOf_lt e f a
  have hB := magOf_lt e f b
  unfold floatEQ orderKey
  rw [nanOperand_std he hf, if_pos rfl]
  by_cases hn : IsNaN e f a ∨ IsNaN e f b
  · rw [decide_eq_true hn, if_pos rfl]
    exact ⟨fun h => absurd h Bool.false_ne_true, fun ⟨ha', hb', _⟩ => absurd hn (by tauto)⟩
  · rw [decide_eq_false hn, if_neg Bool.false_ne_true, bothZero_iff hef, Bool.or_eq_true,
      decide_eq_true_eq, beq_iff_eq, ← BitVec.toNat_inj, toNat_bitMask64_encoding hef ha,
      toNat_bitMask64_encoding hef hb, signOf_eq ha, signOf_eq hb]
    rw [not_or] at hn
    generalize 2 ^ (e + f) = P at *
    cases signOf e f a <;> cases signOf e f b <;>
      simp only [Bool.toNat_true, Bool.toNat_false, if_true, Bool.false_eq_true, if_false, hn,
        not_false_eq_true, true_and] <;> omega

theorem floatLE_iff (hef : e + f ≤ 63) (he : e < 64) (hf : f < 64) (ha : IsEncoding e f a)
    (hb : IsEncoding e f b) :
    floatLE a b e f .std (-1) = true ↔
      ¬ IsNaN e f a ∧ ¬ IsNaN e f b ∧ orderKey e f a ≤ orderKey e f b := by
  have hA := magOf_lt e f a
  have hB := magOf_lt e f b
  unfold floatLE orderKey
  dsimp only
  rw [nanOperand_std he hf, if_pos rfl, extractFloatSign_eq, extractFloatSign_eq]
  by_cases hn : IsNaN e f a ∨ IsNaN e f b
  · rw [decide_eq_true hn, if_pos rfl]
    exact ⟨fun h => absurd h Bool.false_ne_true, fun ⟨ha', hb', _⟩ => absurd hn (by tauto)⟩
  · rw [decide_eq_false hn, if_neg Bool.false_ne_true, bothZero_iff hef]
    simp only [beq_eq_decide, BitVec.lt_def, ← BitVec.toNat_inj, toNat_bitMask64_encoding hef ha,
      toNat_bitMask64_encoding hef hb, signOf_eq ha, signOf_eq hb]
    rw [not_or] at hn
    generalize 2 ^ (e + f) = P at *
    cases signOf e f a <;> cases signOf e f b <;>
      simp [hn] <;> omega

theorem floatLT_iff (hef : e + f ≤ 63) (he : e < 64) (hf : f < 64) (ha : IsEncoding e f a)
    (hb : IsEncoding e f b) :
    floatLT a b e f .std (-1) = true ↔
      ¬ IsNaN e f a ∧ ¬ IsNaN e f b ∧ orderKey e f a < orderKey e f b := by
  have hA := magOf_lt e f a
  have hB := magOf_lt e f b
  unfold floatLT orderKey
  dsimp only
  rw [nanOperand_std he hf, if_pos rfl, extractFloatSign_eq, extractFloatSign_eq]
  by_cases hn : IsNaN e f a ∨ IsNaN e f b
  · rw [decide_eq_true hn, if_pos rfl]
    exact ⟨fun h => absurd h Bool.false_ne_true, fun ⟨ha', hb', _⟩ => absurd hn (by tauto)⟩
  · have hzero : (bitMask64 (a ||| b) (e + f) != 0) =
        !decide (magOf e f a = 0 ∧ magOf e f b = 0) := by rw [bne, bothZero_iff hef]
    rw [decide_eq_false hn, if_neg Bool.false_ne_true, hzero]
    simp only [bne, beq_eq_decide, BitVec.lt_def, ← BitVec.toNat_inj,
      toNat_bitMask64_encoding hef ha, toNat_bitMask64_encoding hef hb, signOf_eq ha, signOf_eq hb]
    rw [not_or] at hn
    generalize 2 ^ (e + f) = P at *
    cases signOf e f a <;> cases signOf e f b <;>
      simp [hn] <;> omega

/-- The place of an encoding in the order of the kernels. -/
def flippedKey (e f : Nat) (x : Tfloat) : Nat :=
  (!signOf e f x).toNat * 2 ^ (e + f) + magOf e f x

/-- A kernel that compares the flipped words. -/
theorem flipped_iff (hef : e + f ≤ 63) (he : e < 64) (hf : f < 64) (ha : IsEncoding e f a)
    (hb : IsEncoding e f b) :
    (kernelIsgreater a b e f .std = true ↔
      ¬ IsNaN e f a ∧ ¬ IsNaN e f b ∧ flippedKey e f b < flippedKey e f a) ∧
    (kernelIsgreaterequal a b e f .std = true ↔
      ¬ IsNaN e f a ∧ ¬ IsNaN e f b ∧ flippedKey e f b ≤ flippedKey e f a) ∧
    (kernelIsless a b e f .std = true ↔
      ¬ IsNaN e f a ∧ ¬ IsNaN e f b ∧ flippedKey e f a < flippedKey e f b) ∧
    (kernelIslessequal a b e f .std = true ↔
      ¬ IsNaN e f a ∧ ¬ IsNaN e f b ∧ flippedKey e f a ≤ flippedKey e f b) ∧
    (kernelIslessgreater a b e f .std = true ↔
      ¬ IsNaN e f a ∧ ¬ IsNaN e f b ∧ flippedKey e f a ≠ flippedKey e f b) := by
  have hflip : ∀ x, IsEncoding e f x → (flipSign x e f).toNat = flippedKey e f x :=
    fun x hx => toNat_flipSign hef hx
  have hne : a ≠ b ↔ flippedKey e f a ≠ flippedKey e f b := by
    have hA := magOf_lt e f a
    have hB := magOf_lt e f b
    rw [ne_eq, ← BitVec.toNat_inj, signOf_eq ha, signOf_eq hb]
    unfold flippedKey
    generalize 2 ^ (e + f) = P at *
    cases signOf e f a <;> cases signOf e f b <;>
      simp only [Bool.not_true, Bool.not_false, Bool.toNat_true, Bool.toNat_false] <;> omega
  unfold kernelIsgreater kernelIsgreaterequal kernelIsless kernelIslessequal kernelIslessgreater
  simp only [nanOperand_std he hf, Bool.and_eq_true, Bool.not_eq_true', decide_eq_false_iff_not,
    not_or, decide_eq_true_eq, bne_iff_ne, gt_iff_lt, ge_iff_le, BitVec.lt_def, BitVec.le_def,
    hflip a ha, hflip b hb, hne, and_assoc, and_self]

/-- The order of the flipped encodings, for all signs, against that of the signed
magnitudes. -/
theorem flipped_order {P A B : Nat} (hA : A < P) (hB : B < P) (sa sb : Bool) :
    ((!sa).toNat * P + A < (!sb).toNat * P + B ↔
        (if sa then -(A : Int) else A) < if sb then -(B : Int) else B) ∧
      ((!sb).toNat * P + B < (!sa).toNat * P + A ↔
        (if sb then -(B : Int) else B) < if sa then -(A : Int) else A) ↔
    (sa = sb ∧ A = B) ∨ ¬ ((sa = true ∧ sb = true) ∨ (A = 0 ∧ B = 0)) := by
  cases sa <;> cases sb <;> simp <;> omega

/-- The verdicts of the kernels are those of the predicates exactly where the operands are
not misordered. -/
theorem kernelsAgree_iff (hef : e + f ≤ 63) (he : e < 64) (hf : f < 64) (ha : IsEncoding e f a)
    (hb : IsEncoding e f b) : KernelsAgree e f a b ↔ ¬ KernelMisorders e f a b := by
  obtain ⟨hgt, hge, hlt, hle, hne⟩ := flipped_iff hef he hf ha hb
  have hLTab := floatLT_iff hef he hf ha hb
  have hLTba := floatLT_iff hef he hf hb ha
  have hLEab := floatLE_iff hef he hf ha hb
  have hLEba := floatLE_iff hef he hf hb ha
  have heq : a = b ↔ signOf e f a = signOf e f b ∧ magOf e f a = magOf e f b := by
    constructor
    · rintro rfl
      exact ⟨rfl, rfl⟩
    · rintro ⟨hs, hm⟩
      rw [← BitVec.toNat_inj, signOf_eq ha, signOf_eq hb, hs, hm]
  -- Outside the misordered pairs both orders are one.
  have horder : (flippedKey e f a < flippedKey e f b ↔ orderKey e f a < orderKey e f b) ∧
      (flippedKey e f b < flippedKey e f a ↔ orderKey e f b < orderKey e f a) ↔
        a = b ∨ ¬ ((signOf e f a = true ∧ signOf e f b = true) ∨
          (magOf e f a = 0 ∧ magOf e f b = 0)) := by
    rw [heq]
    exact flipped_order (magOf_lt e f a) (magOf_lt e f b) (signOf e f a) (signOf e f b)
  constructor
  · rintro hagree ⟨hna, hnb, hab, hcase⟩
    have hless := hagree.less
    have hgreater := hagree.greater
    rw [Bool.eq_iff_iff, hlt, hLTab] at hless
    rw [Bool.eq_iff_iff, hgt, hLTba] at hgreater
    have h1 : flippedKey e f a < flippedKey e f b ↔ orderKey e f a < orderKey e f b :=
      ⟨fun h => (hless.mp ⟨hna, hnb, h⟩).2.2, fun h => (hless.mpr ⟨hna, hnb, h⟩).2.2⟩
    have h2 : flippedKey e f b < flippedKey e f a ↔ orderKey e f b < orderKey e f a :=
      ⟨fun h => (hgreater.mp ⟨hna, hnb, h⟩).2.2, fun h => (hgreater.mpr ⟨hnb, hna, h⟩).2.2⟩
    rcases horder.mp ⟨h1, h2⟩ with heq' | hnot
    · exact hab heq'
    · exact hnot hcase
  · intro hmis
    by_cases hnan : IsNaN e f a ∨ IsNaN e f b
    · -- Every verdict on a NaN is false.
      have hfalse : ∀ P : Prop, ¬ (¬ IsNaN e f a ∧ ¬ IsNaN e f b ∧ P) :=
        fun P h => hnan.elim h.1 h.2.1
      have hfalse' : ∀ P : Prop, ¬ (¬ IsNaN e f b ∧ ¬ IsNaN e f a ∧ P) :=
        fun P h => hnan.elim h.2.1 h.1
      constructor <;> rw [Bool.eq_iff_iff] <;>
        simp only [hgt, hge, hlt, hle, hne, Bool.or_eq_true, hLTab, hLTba, hLEab, hLEba, hfalse,
          hfalse', or_self]
    rw [not_or] at hnan
    obtain ⟨hna, hnb⟩ := hnan
    obtain ⟨h1, h2⟩ := horder.mpr (by
      by_cases hab : a = b
      · exact .inl hab
      · exact .inr fun hcase => hmis ⟨hna, hnb, hab, hcase⟩)
    refine ⟨?_, ?_, ?_, ?_, ?_⟩
    · rw [Bool.eq_iff_iff, hgt, hLTba, h2, and_left_comm]
    · rw [Bool.eq_iff_iff, hge, hLEba, ← not_lt, ← not_lt, h1, and_left_comm]
    · rw [Bool.eq_iff_iff, hlt, hLTab, h1]
    · rw [Bool.eq_iff_iff, hle, hLEab, ← not_lt, ← not_lt, h2]
    · rw [Bool.eq_iff_iff, hne, Bool.or_eq_true, hLTab, hLTba]
      constructor
      · rintro ⟨-, -, hkey⟩
        rcases Nat.lt_or_gt_of_ne hkey with h | h
        · exact .inl ⟨hna, hnb, h1.mp h⟩
        · exact .inr ⟨hnb, hna, h2.mp h⟩
      · rintro (⟨-, -, h⟩ | ⟨-, -, h⟩)
        · exact ⟨hna, hnb, (h1.mpr h).ne⟩
        · exact ⟨hna, hnb, (h2.mpr h).ne'⟩

/-- The predicates are those of the extended values. -/
theorem predicatesExact (he0 : 0 < e) (hef : e + f ≤ 63) (he : e < 64) (hf : f < 64)
    (ha : IsEncoding e f a) (hb : IsEncoding e f b) : PredicatesExact e f a b := by
  have hmono := keyExtValue_strictMonoOn e f
  refine ⟨?_, ?_, ?_⟩
  · rw [floatEQ_iff hef he hf ha hb,
      related_iff he0 a b (fun k hk l hl => hmono.injOn.eq_iff hk hl)]
  · rw [floatLE_iff hef he hf ha hb, related_iff he0 a b (fun k hk l hl => hmono.le_iff_le hk hl)]
  · rw [floatLT_iff hef he hf ha hb, related_iff he0 a b (fun k hk l hl => hmono.lt_iff_lt hk hl)]

/-- The predicates are exact on every pair of encodings, and the kernels agree with them
exactly on the pairs that they do not misorder. -/
theorem comparisons_agree_iff (h : FormatBounds e f) (ha : IsEncoding e f a)
    (hb : IsEncoding e f b) :
    PredicatesExact e f a b ∧
      ((PredicatesExact e f a b ∧ KernelsAgree e f a b) ↔ ¬ KernelMisorders e f a b) := by
  have he4 := h.exp_ge
  have he := h.exp_le
  have hf := h.frac_le
  have hpred := predicatesExact (e := e) (f := f) (by omega) (by omega) (by omega) (by omega) ha hb
  refine ⟨hpred, ?_⟩
  rw [← kernelsAgree_iff (by omega) (by omega) (by omega) ha hb]
  exact ⟨fun hboth => hboth.2, fun hagree => ⟨hpred, hagree⟩⟩

end Verdicts

/-- One and minus two in half precision. -/
theorem comparisons_agree_half : KernelsAgree 5 10 0x3c00 0xc000 :=
  ((comparisons_agree_iff ⟨by decide, by decide, by decide, by decide⟩
    (show IsEncoding 5 10 0x3c00 by decide) (show IsEncoding 5 10 0xc000 by decide)).2.mpr
    (fun h => by
      rcases h.2.2.2 with ⟨h1, -⟩ | ⟨h1, -⟩ <;> exact absurd h1 (by decide))).2

/-- Minus one and minus two in half precision: `__kernel_isless` holds, `-1 < -2` does
not. -/
theorem kernelIsless_negative_wrong :
    FormatBounds 5 10 ∧ IsEncoding 5 10 0xbc00 ∧ IsEncoding 5 10 0xc000 ∧
      kernelIsless 0xbc00 0xc000 5 10 .std ≠ floatLT 0xbc00 0xc000 5 10 .std (-1) :=
  ⟨⟨by decide, by decide, by decide, by decide⟩, by decide, by decide, by decide⟩

end Bambu.Libbambu.Softfloat
