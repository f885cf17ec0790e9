/-
  Bambu.IRAnalysis.Constdivmul.SignedPow2

  Signed division and remainder by a constant whose magnitude is a power of two:
  `handleTrivialDivByConstant` and the first two paths of
  `lowerSignedTruncDivModByConstant`.
-/

import Bambu.IRAnalysis.Constdivmul.Emission
import Bambu.Utility.Common

namespace Bambu.Constdivmul

open Bambu.Math Bambu.Math.StraightLine

/-! ## The source -/

/-- `IR_lowering::expand_smod_pow2`. -/
def expandSmodPow2 (op0 : Operand) (d : Nat) (type : IRType) :
    Except String (Builder Expr Expr) :=
  let logd := floorLog2 64 d
  let size := type.size
  if logd > 63 ∨ size < logd then .error "unexpected condition"
  else .ok do
    let const0 := .cst 0 type
    let constm1 := .cst (-1) type
    let signmask ← createAssign (.binary .boolean .lt op0 const0)
    let signmaskSelect ← createAssign (.select type signmask constm1 const0)
    let masklow : Int := 2 ^ logd - 1
    let constMasklow := .cst masklow type
    let signmaskVar ←
      if !type.isUnsigned then do
        let unsignedType := type.unsigned
        let constshift := .cst (size - logd : Nat) unsignedType
        let nopVd ← createAssign (.unary unsignedType .nop signmaskSelect)
        let temp ← createAssign (.binary unsignedType .shr nopVd constshift)
        createAssign (.unary type .nop temp)
      else
        createAssign (.binary type .shr signmaskSelect (.cst (size - logd : Nat) type))
    let temp ← createAssign (.binary type .add op0 signmaskVar)
    let temp ← createAssign (.binary type .bitAnd temp constMasklow)
    pure (.binary type .sub temp signmaskVar)

/-- `IR_lowering::expand_sdiv_pow2`. -/
def expandSdivPow2 (op0 : Operand) (d : Nat) (type : IRType) : Builder Expr Expr := do
  let logd := floorLog2 64 d
  let const0 := .cst 0 type
  let condOp0 ← createAssign (.binary .boolean .lt op0 const0)
  let t2 ←
    if d = 2 then do
      let cond ← createAssign (.select type condOp0 (.cst 1 type) const0)
      createAssign (.binary type .add op0 cond)
    else do
      let t ← createAssign (.binary type .add op0 (.cst (d - 1) type))
      createAssign (.select type condOp0 t op0)
  pure (.binary type .shr t2 (.cst logd type))

/-- `IR_lowering::handleTrivialDivByConstant`. -/
def handleTrivialDivByConstant (op0 : Operand) (type : IRType) (extOp1 : Int)
    (unsignedp remFlag : Bool) : Option Expr :=
  if extOp1 = 1 then some (if remFlag then .operand (.cst 0 type) else .operand op0)
  else if !unsignedp ∧ extOp1 = -1 then
    some (if remFlag then .operand (.cst 0 type) else .unary type .neg op0)
  else none

/-- `absD`, computed on `unsigned long long`. -/
def absoluteDivisor (d : Int) : Nat :=
  if d ≥ 0 then d.toNat else ((0 - d % 2 ^ 64) % 2 ^ 64).toNat

/-- The least value of the type as the divisor: the quotient is one only where the
dividend is that value as well. -/
def expandSignedMin (op0 op1 : Operand) (type : IRType) (remFlag : Bool) : Builder Expr Expr := do
  let quotient ← createAssign (.binary .boolean .eq op0 op1)
  if remFlag then do
    let quotientNop ← createAssign (.unary type .nop quotient)
    let product ← createAssign (.binary type .mul quotientNop op1)
    pure (.binary type .sub op0 product)
  else pure (.unary type .nop quotient)

/-- `lowerSignedTruncDivModByConstant` on a magnitude that is a power of two; `none` where
it goes on to other divisors. -/
def lowerSignedTruncDivModByConstant (op0 op1 : Operand) (type : IRType) (extOp1 : Int)
    (remFlag : Bool) : Option (Except String (Builder Expr Expr)) :=
  let d := extOp1
  let absD := absoluteDivisor d
  let size := type.size
  if absD = (1 <<< (size - 1)) % 2 ^ 64 then some (.ok (expandSignedMin op0 op1 type remFlag))
  else if absD &&& (absD - 1) = 0 then
    if remFlag then some (expandSmodPow2 op0 absD type)
    else some (.ok do
      let quotient ← expandSdivPow2 op0 absD type
      if d < 0 then do
        let sdivPow2 ← createAssign quotient
        pure (.unary type .neg sdivPow2)
      else pure quotient)
  else none

/-- `decomposeDivisionByConstant` on a signed type, as far as the divisors above. -/
def decomposeDivisionByConstant (op0 op1 : Operand) (type : IRType) (extOp1 : Int)
    (remFlag : Bool) : Option (Except String (Builder Expr Expr)) :=
  match handleTrivialDivByConstant op0 type extOp1 type.isUnsigned remFlag with
  | some e => some (.ok (pure e))
  | none =>
    if extOp1 = 0 ∨ type.isUnsigned then none
    else lowerSignedTruncDivModByConstant op0 op1 type extOp1 remFlag

/-! ## Truncating division -/

/-- What a dividend is raised by before a division by `n` that rounds down. -/
def bias (x n : Int) : Int := if x < 0 then n - 1 else 0

theorem tdiv_eq_ediv_add (x : Int) {n : Int} (hn : 0 < n) : x.tdiv n = (x + bias x n) / n := by
  unfold bias
  split
  · rename_i hneg
    obtain ⟨y, rfl⟩ : ∃ y, x = -y := ⟨-x, (neg_neg x).symm⟩
    rw [Int.neg_tdiv, Int.tdiv_eq_ediv_of_nonneg (by omega)]
    have hy := Int.mul_ediv_add_emod y n
    have hr := Int.emod_nonneg y hn.ne'
    have hr' := Int.emod_lt_of_pos y hn
    refine (Int.ediv_emod_unique hn (r := n - 1 - y % n) |>.mpr ⟨?_, ?_, ?_⟩).1.symm
    · linear_combination -hy
    · omega
    · omega
  · rename_i hnonneg
    rw [Int.add_zero, Int.tdiv_eq_ediv_of_nonneg (not_lt.mp hnonneg)]

/-- The remainder, as the low part of the raised dividend. -/
theorem sub_mul_tdiv_eq (x : Int) {n : Int} (hn : 0 < n) :
    x - n * x.tdiv n = (x + bias x n) % n - bias x n := by
  have h := Int.mul_ediv_add_emod (x + bias x n) n
  rw [tdiv_eq_ediv_add x hn]
  linarith

/-! ## What is emitted -/

section Signed

variable {w : Nat} {x : Int} {k : Nat}

/-- A signed type keeps the values in its range. -/
theorem wrap_signed (hw : 2 ≤ w) {v : Int} (hlo : -half w ≤ v) (hhi : v < half w) :
    (IRType.integer true w).wrap v = v := signedResidue_of_mem (by omega) hlo hhi

theorem half_ge_two (hw : 2 ≤ w) : 2 ≤ half w := by
  have h : (2 : Int) ^ 1 ≤ 2 ^ (w - 1) := pow_le_pow_right₀ (by decide) (by omega)
  exact h

theorem wrap_signed_zero (hw : 2 ≤ w) : (IRType.integer true w).wrap 0 = 0 :=
  wrap_signed hw (neg_nonpos.mpr (half_pos w).le) (half_pos w)

theorem wrap_signed_one (hw : 2 ≤ w) : (IRType.integer true w).wrap 1 = 1 := by
  have hhalf := half_ge_two hw
  exact wrap_signed hw (by omega) (by omega)

/-- The bias, the shift amount and the raised dividend are signed values. -/
theorem bias_range (hx : x ∈ signedRange w) (hk : 1 ≤ k) (hkw : k < w) :
    0 ≤ bias x (2 ^ k) ∧ bias x (2 ^ k) < 2 ^ k ∧ (2 : Int) ^ k ≤ half w ∧ (k : Int) < half w ∧
      -half w ≤ x + bias x (2 ^ k) ∧ x + bias x (2 ^ k) < half w := by
  have hpow : (2 : Int) ^ k ≤ half w := pow_le_pow_right₀ (by decide) (by omega)
  have hpos : (0 : Int) < 2 ^ k := by positivity
  have hamount : (k : Int) < 2 ^ k := by exact_mod_cast Nat.lt_two_pow_self
  obtain ⟨hlo, hhi⟩ := hx
  unfold bias
  split <;> omega

theorem floorLog2_two_pow (hkw : k < w) (hle : w ≤ 64) : floorLog2 64 (2 ^ k) = k := by
  rw [floorLog2_eq (Nat.two_pow_pos k) (Nat.pow_lt_pow_right (by decide) (by omega)) (le_refl _),
    Nat.log_pow (by decide)]

/-- The sign of the dividend, as a condition. -/
def signFlag (x : Int) : Int := if x < 0 then 1 else 0

theorem signFlag_ne_zero (x : Int) : signFlag x ≠ 0 ↔ x < 0 := by
  unfold signFlag
  split <;> simp_all

theorem eval_sign (hw : 2 ≤ w) {env : List Int} :
    (Expr.binary .boolean .lt .input (.cst 0 (.integer true w))).eval x env =
      some (signFlag x) := by
  rw [Expr.eval_binary rfl rfl, wrap_signed_zero hw]
  rfl

/-- A shift by a constant is a division by a power of two. -/
theorem eval_shr {env : List Int} {a : Operand} {va : Int} {type type' : IRType} {n : Nat}
    (ha : a.value x env = some va) (hn : n < type.size) (hcst : type'.wrap n = n) :
    (Expr.binary type .shr a (.cst n type')).eval x env = some (type.wrap (va / 2 ^ n)) := by
  rw [Expr.eval_binary ha rfl, hcst, BinaryKind.eval, Int.toNat_natCast]
  exact if_pos ⟨Int.natCast_nonneg n, by exact_mod_cast hn⟩

/-- Shifting a signed value gives a signed value. -/
theorem wrap_shr (hw : 2 ≤ w) {a n : Int} (hlo : -half w ≤ a) (hhi : a < half w) (hn : 0 < n) :
    (IRType.integer true w).wrap (a / n) = a / n := by
  have habs := Int.natAbs_ediv_le_natAbs a n
  have hhalf := half_ge_two hw
  rcases lt_or_ge a 0 with hneg | hnonneg
  · have hquotient := Int.ediv_neg_of_neg_of_pos hneg hn
    exact wrap_signed hw (by omega) (by omega)
  · have hquotient := Int.ediv_nonneg hnonneg hn.le
    exact wrap_signed hw (by omega) (by omega)

theorem expandSdivPow2_computes (hw : 2 ≤ w) (hle : w ≤ 64) (hx : x ∈ signedRange w) (hk : 1 ≤ k)
    (hkw : k < w) :
    Computes x [] (expandSdivPow2 .input (2 ^ k) (.integer true w)) (x.tdiv (2 ^ k)) := by
  obtain ⟨hnonneg, hlt, hpow, hamount, hlo, hhi⟩ := bias_range hx hk hkw
  have hhalf := half_ge_two hw
  have hpos : (0 : Int) < 2 ^ k := by positivity
  have hflag := signFlag_ne_zero x
  have hcst : (IRType.integer true w).wrap k = k := wrap_signed hw (by omega) hamount
  have hquotient : (IRType.integer true w).wrap ((x + bias x (2 ^ k)) / 2 ^ k) =
      x.tdiv (2 ^ k) := by
    rw [wrap_shr hw hlo hhi hpos, tdiv_eq_ediv_add x hpos]
  unfold expandSdivPow2
  dsimp only
  rw [floorLog2_two_pow hkw hle]
  refine .assign (fun env _ => eval_sign hw) fun cond => ?_
  by_cases htwo : 2 ^ k = 2
  · -- The sign is added as it is.
    rw [if_pos htwo]
    have htwo' : (2 : Int) ^ k = 2 := by exact_mod_cast htwo
    have hbias : (if signFlag x ≠ 0 then 1 else 0) = bias x (2 ^ k) := by
      unfold bias
      rw [htwo']
      exact if_congr hflag rfl rfl
    refine .assign (u := bias x (2 ^ k)) (fun env henv => ?_) fun raise => ?_
    · rw [Expr.eval_select (henv.value (.head _)) rfl rfl, wrap_signed_one hw, wrap_signed_zero hw,
        hbias, wrap_signed hw (by omega) (by omega)]
    · refine .assign (u := x + bias x (2 ^ k)) (fun env henv => ?_) fun t2 => ?_
      · rw [Expr.eval_binary rfl (henv.value (.head _)), BinaryKind.eval, wrap_signed hw hlo hhi]
      · refine .pure fun env henv => ?_
        rw [eval_shr (henv.value (.head _)) hkw hcst, hquotient]
  · -- The raised dividend is chosen over the dividend.
    rw [if_neg htwo]
    have hraise : (IRType.integer true w).wrap ((2 ^ k : Nat) - 1) = 2 ^ k - 1 := by
      push_cast
      exact wrap_signed hw (by omega) (by omega)
    refine .assign (u := signedResidue w (x + (2 ^ k - 1))) (fun env henv => ?_) fun t => ?_
    · rw [Expr.eval_binary rfl rfl, hraise]
      rfl
    · refine .assign (u := x + bias x (2 ^ k)) (fun env henv => ?_) fun t2 => ?_
      · rw [Expr.eval_select (henv.value (.tail _ (.head _))) (henv.value (.head _)) rfl]
        have hchoice : (if signFlag x ≠ 0 then signedResidue w (x + (2 ^ k - 1)) else x) =
            x + bias x (2 ^ k) := by
          by_cases hneg : x < 0
          · have hbias : bias x (2 ^ k) = 2 ^ k - 1 := if_pos hneg
            rw [if_pos (hflag.mpr hneg), ← hbias]
            exact wrap_signed hw hlo hhi
          · have hbias : bias x (2 ^ k) = 0 := if_neg hneg
            rw [if_neg (mt hflag.mp hneg), hbias, Int.add_zero]
        rw [hchoice, wrap_signed hw hlo hhi]
      · refine .pure fun env henv => ?_
        rw [eval_shr (henv.value (.head _)) hkw hcst, hquotient]

/-- The first `k` of `w` ones. -/
theorem high_bits (hkw : k ≤ w) : ((2 : Int) ^ w - 1) / 2 ^ (w - k) = 2 ^ k - 1 := by
  have hpos : (0 : Int) < 2 ^ (w - k) := by positivity
  have hpow : (2 : Int) ^ w = 2 ^ (w - k) * 2 ^ k := by
    rw [← pow_add, Nat.sub_add_cancel hkw]
  have hsplit : (2 : Int) ^ w - 1 = 2 ^ (w - k) - 1 + 2 ^ (w - k) * (2 ^ k - 1) := by
    rw [hpow]
    ring
  rw [hsplit, Int.add_mul_ediv_left _ _ hpos.ne', Int.ediv_eq_zero_of_lt (by omega) (by omega),
    Int.zero_add]

theorem expandSmodPow2_computes (hw : 2 ≤ w) (hle : w ≤ 64) (hx : x ∈ signedRange w)
    (hk : 1 ≤ k) (hkw : k < w) :
    ∃ m, expandSmodPow2 .input (2 ^ k) (.integer true w) = .ok m ∧
      Computes x [] m (x - 2 ^ k * x.tdiv (2 ^ k)) := by
  obtain ⟨hnonneg, hlt, hpow, hamount, hlo, hhi⟩ := bias_range hx hk hkw
  have hpos : (0 : Int) < 2 ^ k := by positivity
  have hflag := signFlag_ne_zero x
  have hmask : (IRType.integer true w).wrap (2 ^ k - 1) = 2 ^ k - 1 :=
    wrap_signed hw (by omega) (by omega)
  have hwidth := two_mul_half (show 0 < w by omega)
  have hrem := Int.emod_nonneg (x + bias x (2 ^ k)) hpos.ne'
  have hrem' := Int.emod_lt_of_pos (x + bias x (2 ^ k)) hpos
  have hhalf := half_ge_two hw
  have hshift : (IRType.integer false w).wrap ((w - k : Nat) : Int) = ((w - k : Nat) : Int) := by
    have hlt : ((w - k : Nat) : Int) < 2 ^ w := by
      have hpow : w - k < 2 ^ w := lt_of_le_of_lt (Nat.sub_le w k) Nat.lt_two_pow_self
      exact_mod_cast hpow
    exact Int.emod_eq_of_lt (Int.natCast_nonneg _) hlt
  unfold expandSmodPow2
  dsimp only [IRType.size, IRType.isUnsigned, IRType.unsigned]
  rw [floorLog2_two_pow hkw hle, if_neg (by omega)]
  simp only [Bool.not_not, if_true]
  refine ⟨_, rfl, ?_⟩
  refine .assign (fun env _ => eval_sign hw) fun signmask => ?_
  -- All ones or zero, as a signed value and as an unsigned one.
  refine .assign (u := if x < 0 then -1 else 0) (fun env henv => ?_) fun ones => ?_
  · have hminus : (IRType.integer true w).wrap (-1) = -1 := wrap_signed hw (by omega) (by omega)
    rw [Expr.eval_select (henv.value (.head _)) rfl rfl, hminus, wrap_signed_zero hw,
      if_congr hflag rfl rfl]
    split
    · rw [hminus]
    · rw [wrap_signed_zero hw]
  refine .assign (u := if x < 0 then 2 ^ w - 1 else 0) (fun env henv => ?_) fun nopVd => ?_
  · rw [Expr.eval_unary (henv.value (.head _))]
    show some ((if x < 0 then (-1 : Int) else 0) % 2 ^ w) = _
    split
    · rw [emod_of_neg (by omega) (by decide) (by omega), ← two_mul_half (by omega : 0 < w),
        Int.add_comm, ← sub_eq_add_neg]
    · rfl
  refine .assign (u := bias x (2 ^ k)) (fun env henv => ?_) fun low => ?_
  · rw [eval_shr (henv.value (.head _)) (show w - k < w by omega) hshift]
    congr 1
    show (if x < 0 then (2 : Int) ^ w - 1 else 0) / 2 ^ (w - k) % 2 ^ w = bias x (2 ^ k)
    unfold bias
    split
    · rw [high_bits hkw.le, Int.emod_eq_of_lt (by omega) (by omega)]
    · simp
  refine .assign (u := bias x (2 ^ k)) (fun env henv => ?_) fun raise => ?_
  · rw [Expr.eval_unary (henv.value (.head _)), UnaryKind.eval,
      wrap_signed hw (by omega) (by omega)]
  refine .assign (u := x + bias x (2 ^ k)) (fun env henv => ?_) fun raised => ?_
  · rw [Expr.eval_binary rfl (henv.value (.head _)), BinaryKind.eval, wrap_signed hw hlo hhi]
  refine .assign (u := (x + bias x (2 ^ k)) % 2 ^ k) (fun env henv => ?_) fun masked => ?_
  · rw [Expr.eval_binary (henv.value (.head _)) rfl, hmask, BinaryKind.eval, land_mask,
      wrap_signed hw (by omega) (by omega)]
  refine .pure fun env henv => ?_
  rw [Expr.eval_binary (henv.value (.head _)) (henv.value (.tail _ (.tail _ (.head _)))),
    BinaryKind.eval, sub_mul_tdiv_eq x hpos, wrap_signed hw (by omega) (by omega)]

/-- The least value divides only itself. -/
theorem tdiv_neg_half (hw : 2 ≤ w) (hx : x ∈ signedRange w) :
    x.tdiv (-half w) = if x = -half w then 1 else 0 := by
  have hhalf := half_ge_two hw
  obtain ⟨hlo, hhi⟩ := hx
  split
  · rename_i heq
    rw [heq]
    exact Int.tdiv_self (by omega)
  · rename_i hne
    have hzero : (x.tdiv (half w)).natAbs = 0 := by
      rw [Int.natAbs_tdiv]
      exact Nat.div_eq_of_lt (by omega)
    rw [Int.tdiv_neg, Int.natAbs_eq_zero.mp hzero, neg_zero]

theorem expandSignedMin_computes (hw : 2 ≤ w) (hx : x ∈ signedRange w) (remFlag : Bool) :
    Computes x [] (expandSignedMin .input (.cst (-half w) (.integer true w)) (.integer true w)
        remFlag)
      (if remFlag then x - -half w * x.tdiv (-half w) else x.tdiv (-half w)) := by
  have hhalf := half_ge_two hw
  have hmin : (IRType.integer true w).wrap (-half w) = -half w :=
    wrap_signed hw (le_refl _) (by omega)
  have hquotient := tdiv_neg_half hw hx
  obtain ⟨hlo, hhi⟩ := hx
  have hflag : (IRType.integer true w).wrap (if x = -half w then 1 else 0) =
      x.tdiv (-half w) := by
    rw [hquotient]
    split
    · exact wrap_signed_one hw
    · exact wrap_signed_zero hw
  unfold expandSignedMin
  refine .assign (u := if x = -half w then 1 else 0) (fun env henv => ?_) fun quotient => ?_
  · rw [Expr.eval_binary rfl rfl, hmin]
    rfl
  cases remFlag with
  | false =>
    refine .pure fun env henv => ?_
    rw [Expr.eval_unary (henv.value (.head _)), UnaryKind.eval, hflag]
    rfl
  | true =>
    refine .assign (u := x.tdiv (-half w)) (fun env henv => ?_) fun quotientNop => ?_
    · rw [Expr.eval_unary (henv.value (.head _)), UnaryKind.eval, hflag]
    refine .assign (u := x.tdiv (-half w) * -half w) (fun env henv => ?_) fun product => ?_
    · rw [Expr.eval_binary (henv.value (.head _)) rfl, hmin, BinaryKind.eval, hquotient]
      congr 1
      split
      · rw [one_mul, hmin]
      · rw [zero_mul, wrap_signed_zero hw]
    refine .pure fun env henv => ?_
    rw [Expr.eval_binary rfl (henv.value (.head _)), BinaryKind.eval, if_pos rfl,
      mul_comm (-half w), hquotient]
    congr 1
    split
    · refine wrap_signed hw ?_ ?_ <;> omega
    · refine wrap_signed hw ?_ ?_ <;> omega

theorem absoluteDivisor_eq {d : Int} (hle : w ≤ 64) (hd : d ∈ signedRange w) :
    absoluteDivisor d = d.natAbs := by
  have hrange : -(2 ^ 63) ≤ d ∧ d < 2 ^ 63 :=
    ⟨le_trans (neg_le_neg (half_le_half hle)) hd.1, lt_of_lt_of_le hd.2 (half_le_half hle)⟩
  unfold absoluteDivisor
  split <;> omega

/-- What is emitted for a divisor whose magnitude is a power of two has the truncated
quotient or its remainder as its value. -/
theorem lowering_computes {d : Int} (remFlag : Bool) (hw : 2 ≤ w) (hle : w ≤ 64)
    (hx : x ∈ signedRange w) (hd : d ∈ signedRange w) (hk : 1 ≤ k) (hpow : d.natAbs = 2 ^ k) :
    ∃ m, lowerSignedTruncDivModByConstant .input (.cst d (.integer true w)) (.integer true w) d
        remFlag = some (.ok m) ∧
      Computes x [] m (if remFlag then x - d * x.tdiv d else x.tdiv d) := by
  have hhalf : ((2 ^ (w - 1) : Nat) : Int) = half w := by
    unfold half
    push_cast
    rfl
  have hword : 2 ^ (w - 1) < 2 ^ 64 := Nat.pow_lt_pow_right (by decide) (by omega)
  unfold lowerSignedTruncDivModByConstant
  dsimp only [IRType.size]
  rw [absoluteDivisor_eq hle hd, hpow, Nat.one_shiftLeft, Nat.mod_eq_of_lt hword]
  by_cases hmin : 2 ^ k = 2 ^ (w - 1)
  · -- The magnitude of the least value, which no greater value has.
    rw [if_pos hmin]
    have hd' : d = -half w := by
      have hhi := hd.2
      omega
    subst hd'
    exact ⟨_, rfl, expandSignedMin_computes hw hx remFlag⟩
  rw [if_neg hmin, Nat.and_two_pow_sub_one_eq_mod, Nat.mod_self, if_pos rfl]
  have hkw : k < w := by
    have hle : 2 ^ k ≤ 2 ^ (w - 1) := by
      obtain ⟨hlo, hhi⟩ := hd
      omega
    have hexp := (Nat.pow_le_pow_iff_right (by decide : 1 < 2)).mp hle
    omega
  have hcast : ((2 ^ k : Nat) : Int) = 2 ^ k := by push_cast; rfl
  cases remFlag with
  | true =>
    rw [if_pos rfl, if_pos rfl]
    obtain ⟨m, hm, hcomputes⟩ := expandSmodPow2_computes hw hle hx hk hkw
    refine ⟨m, congrArg some hm, ?_⟩
    rcases Int.natAbs_eq d with heq | heq
    · rw [heq, hpow, hcast]
      exact hcomputes
    · rw [heq, hpow, hcast, Int.tdiv_neg, neg_mul_neg]
      exact hcomputes
  | false =>
    refine ⟨_, rfl, ?_⟩
    have hquotient := expandSdivPow2_computes hw hle hx hk hkw
    refine hquotient.bind fun e => ?_
    by_cases hneg : d < 0
    · -- The quotient by the magnitude is negated.
      rw [if_pos hneg]
      have hd' : d = -2 ^ k := by omega
      -- It is at most half of the dividend, so its negation is a signed value.
      have hsmall : (x.tdiv (2 ^ k)).natAbs ≤ x.natAbs / 2 := by
        have hge : 2 ^ 1 ≤ 2 ^ k := Nat.pow_le_pow_right (by decide) hk
        rw [Int.natAbs_tdiv, Int.natAbs_pow]
        exact Nat.div_le_div_left hge (by decide)
      have hpositive := half_pos w
      obtain ⟨hlo, hhi⟩ := hx
      refine (emits_createAssign fun env h => h.2).bind
        ((Known.stable x []).and ((emission x).stable_step e _)) fun quotient => ?_
      refine .pure fun env henv => ?_
      rw [Expr.eval_unary henv.2, UnaryKind.eval, hd', Int.tdiv_neg]
      exact congrArg some (wrap_signed hw (by omega) (by omega))
    · rw [if_neg hneg]
      have hd' : d = 2 ^ k := by omega
      refine .pure fun env henv => ?_
      rw [henv.2, hd']
      rfl

end Signed

/-- For every divisor whose magnitude is a power of two, the emitted code computes the
quotient truncated toward zero, and the remainder that goes with it; no shift amount
reaches the width. -/
theorem signedPow2_exact (w : Nat) (x d : Int) (remFlag : Bool) (hw : 2 ≤ w) (hle : w ≤ 64)
    (hx : x ∈ signedRange w) (hd : d ∈ signedRange w) (hpow : ∃ k, d.natAbs = 2 ^ k)
    (htwo : 2 ≤ d.natAbs) :
    ∃ m, decomposeDivisionByConstant .input (.cst d (.integer true w)) (.integer true w) d
        remFlag = some (.ok m) ∧
      ∃ env, (emission x).exec [] (m.run []).2 = some env ∧
        (m.run []).1.eval x env = some (if remFlag then x - d * x.tdiv d else x.tdiv d) := by
  obtain ⟨k, hk⟩ := hpow
  have hk' : 1 ≤ k := by
    rcases Nat.eq_zero_or_pos k with rfl | hpos
    · omega
    · exact hpos
  obtain ⟨m, hm, hcomputes⟩ := lowering_computes remFlag hw hle hx hd hk' hk
  refine ⟨m, ?_, ?_⟩
  · have htrivial : handleTrivialDivByConstant .input (.integer true w) d false remFlag = none := by
      unfold handleTrivialDivByConstant
      rw [if_neg (by omega), if_neg (by omega)]
    unfold decomposeDivisionByConstant
    rw [show (IRType.integer true w).isUnsigned = false from rfl, htrivial]
    dsimp only
    rw [if_neg (by simp; omega), hm]
  · obtain ⟨env, hrun, -, hvalue⟩ := hcomputes [] [] rfl fun _ h => absurd h List.not_mem_nil
    exact ⟨env, hrun, hvalue⟩

theorem signedPow2_exact_eight : ∃ m,
    decomposeDivisionByConstant .input (.cst (-4) (.integer true 8)) (.integer true 8) (-4) true =
        some (.ok m) ∧
      ∃ env, (emission (-7)).exec [] (m.run []).2 = some env ∧
        (m.run []).1.eval (-7) env = some (-3) :=
  signedPow2_exact 8 (-7) (-4) true (by decide) (by decide) (by constructor <;> decide)
    (by constructor <;> decide) ⟨2, rfl⟩ (by decide)

end Bambu.Constdivmul
