/-
  Bambu.IRAnalysis.BitValue.Shift

  Forward transfer of `shl` and `shr`.

  By a constant, the positions move with the bits (`forwardShl_constant_sound`,
  `forwardShr_constant_sound`).  By a variable, only a length is estimated; that of a
  left shift takes `2 ^ n` for the greatest amount an `n`-position bitstring holds, and
  computes it by a machine shift that is too long when `n` is 64.  `Misses` says which
  operands get a result that is too short.
-/

import Bambu.IRAnalysis.BitValue.Mul

namespace Bambu.BitValue

open Bambu.Math BitLattice

/-! ## The source -/

/-- The second operand: `ssa_node`, with the signedness and the size of its type and its
bitstring, or `constant_int_val_node`. -/
inductive Amount where
  | ssa (signed : Bool) (size : Nat) (op1 : Bitstring)
  | constant (cst_val : Int)

/-- `1ULL << n`: the machine takes the count modulo the width of the word. -/
def oneShl (n : Nat) : Nat := 2 ^ (n % 64)

/-- One turn of the loop that moves a bitstring to the left. -/
def shlStep (lhs_size : Nat) (res : Bitstring) : Bitstring :=
  let res := res ++ [.ZERO]
  if lhs_size < res.length then res.drop 1 else res

def shlLoop (lhs_size : Nat) : Nat → Bitstring → Bitstring
  | 0, res => res
  | count + 1, res => shlLoop lhs_size count (shlStep lhs_size res)

/-- `shl_node`; sums of lengths are taken in 64 bits, and the length of a new bitstring in 32. -/
def forwardShl (lhs_size op0_bitsize : Nat) (op0 : Bitstring) : Amount → Bitstring
  | .ssa _ _ op1 =>
    let bsize_elev2 := oneShl op1.length
    if lhs_size < bsize_elev2 ∨ lhs_size < (bsize_elev2 + op0.length) % 2 ^ 64 then
      createUBitstring lhs_size
    else createUBitstring ((op0.length + bsize_elev2) % 2 ^ 64 % 2 ^ 32)
  | .constant cst_val =>
    if cst_val < 0 then [.X]
    else if lhs_size ≤ cst_val.toNat then [.ZERO]
    else shlLoop lhs_size cst_val.toNat (truncateTo op0 op0_bitsize)

/-- `shr_node` -/
def forwardShr (op0_signed : Bool) (op0 : Bitstring) : Amount → Bitstring
  | .ssa _ _ _ => createUBitstring (op0.length % 2 ^ 32)
  | .constant cst_val =>
    if cst_val < 0 then [.X]
    else if op0.length ≤ cst_val.toNat then
      if op0_signed then [op0.headD .X] else [.ZERO]
    else op0.take (op0.length - cst_val.toNat)

inductive Shift where
  | shl
  | shr

/-- `Bit_Value::forward_transfer` on a shift whose result has the type of its first operand. -/
def Shift.forwardTransfer (signed : Bool) (lhs_size : Nat) (op0 : Bitstring) (amount : Amount) :
    Shift → Bitstring
  | .shl => forwardShl lhs_size lhs_size op0 amount
  | .shr => forwardShr signed op0 amount

/-- What the shift computes, before it is cut to the type of its result. -/
def Shift.value (x : Int) (a : Nat) : Shift → Int
  | .shl => x * 2 ^ a
  | .shr => x / 2 ^ a

/-- The amounts the second operand may have. -/
def Amount.Takes (a : Nat) : Amount → Prop
  | .ssa signed size op1 => Describes signed op1 a ∧ Fits signed size a
  | .constant cst_val => cst_val = a

/-! ## Constant amounts -/

section Constant

variable {signed : Bool} {lhs_size : Nat} {op0 res : Bitstring} {x : Int}

/-- The digits of a number moved to the left. -/
def shiftAt (f : Nat → BitLattice) (k i : Nat) : BitLattice :=
  if i < k then .ZERO else f (i - k)

theorem position_append_zero {i : Nat} (hi : i < res.length + 1) :
    position false (res ++ [.ZERO]) i = if i = 0 then .ZERO else position false res (i - 1) := by
  induction res generalizing i with
  | nil =>
    have h0 : i = 0 := by
      rw [List.length_nil] at hi
      omega
    rw [h0]
    rfl
  | cons front rest ih =>
    rw [List.length_cons] at hi
    have hlen : (rest ++ [BitLattice.ZERO]).length = rest.length + 1 := List.length_append
    rw [List.cons_append]
    rcases Nat.lt_or_ge i (rest.length + 1) with hlt | hge
    · rw [position_cons_lt (by omega), ih hlt]
      split
      case isTrue => rfl
      case isFalse => rw [position_cons_lt (by omega)]
    · have htop : i = rest.length + 1 := by omega
      subst htop
      rw [← hlen, position_cons_length, hlen, if_neg (by omega), Nat.add_sub_cancel,
        position_cons_length]

theorem Holds.shlStep {f : Nat → BitLattice} {k : Nat} (h : Holds (shiftAt f k) res)
    (hle : res.length ≤ lhs_size) :
    Holds (shiftAt f (k + 1)) (shlStep lhs_size res) ∧
      (BitValue.shlStep lhs_size res).length = min (res.length + 1) lhs_size := by
  have hlen : (res ++ [BitLattice.ZERO]).length = res.length + 1 := List.length_append
  have happ : Holds (shiftAt f (k + 1)) (res ++ [.ZERO]) := fun i hi => by
    rw [hlen] at hi
    rw [position_append_zero hi]
    unfold shiftAt
    rcases Nat.eq_zero_or_pos i with rfl | hpos
    · rw [if_pos rfl, if_pos (Nat.zero_lt_succ k)]
    · rw [if_neg (by omega), h _ (by omega)]
      unfold shiftAt
      rw [show i - 1 - k = i - (k + 1) by omega]
      exact if_congr (by omega) rfl rfl
  unfold BitValue.shlStep
  dsimp only
  rw [hlen]
  split
  case isTrue hlt =>
    refine ⟨fun i hi => ?_, by rw [List.length_drop, hlen]; omega⟩
    rw [position_drop 1 hi]
    rw [List.length_drop] at hi
    exact happ i (by omega)
  case isFalse hge => exact ⟨happ, by omega⟩

theorem shlLoop_holds {f : Nat → BitLattice} (count : Nat) {k : Nat} (h : Holds (shiftAt f k) res)
    (hle : res.length ≤ lhs_size) :
    Holds (shiftAt f (k + count)) (shlLoop lhs_size count res) ∧
      (shlLoop lhs_size count res).length = min (res.length + count) lhs_size := by
  induction count generalizing res k with
  | zero => exact ⟨h, by unfold shlLoop; omega⟩
  | succ count ih =>
    obtain ⟨hstep, hlen⟩ := h.shlStep hle
    obtain ⟨hres, hl⟩ := ih hstep (by omega)
    unfold shlLoop
    rw [show k + (count + 1) = k + 1 + count by omega]
    exact ⟨hres, by omega⟩

/-- Moving the positions to the left moves the bits. -/
theorem forwardShl_constant_sound (hsize : 0 < lhs_size) (hle : op0.length ≤ lhs_size)
    (h : Describes signed op0 x) {a : Nat} (ha : a < lhs_size) :
    Describes signed (forwardShl lhs_size lhs_size op0 (.constant a))
      (readWord signed lhs_size (x * 2 ^ a)) := by
  have hpos := h.length_pos
  have htrunc : truncateTo op0 lhs_size = op0 := by
    unfold truncateTo
    rw [show op0.length - lhs_size = 0 by omega]
    rfl
  have hstart : Holds (shiftAt (position signed op0) 0) op0 := fun i hi => by
    unfold shiftAt
    rw [if_neg (Nat.not_lt_zero i), Nat.sub_zero]
    exact position_of_lt false signed hi
  obtain ⟨hres, hlen⟩ := shlLoop_holds a hstart hle
  rw [Nat.zero_add] at hres
  unfold forwardShl
  dsimp only
  rw [if_neg (by omega), Int.toNat_natCast, if_neg (by omega), htrunc]
  refine describes_readWord hsize (hres.word (by omega) (by omega) fun i hi hlt => ?_) fun i _ => ?_
  · -- Above the result both positions repeat the front.
    unfold shiftAt
    rw [if_neg (by omega), if_neg (by omega)]
    cases signed with
    | true =>
      rw [position_true_of_ge (by omega)]
      exact (position_true_of_ge (by omega)).symm
    | false => exact position_false_of_ge h.ne_nil (by omega)
  · unfold shiftAt
    split
    case isTrue hi => exact bitAt_mul_two_pow_lt hi
    case isFalse hi =>
      obtain ⟨d, rfl⟩ := Nat.exists_eq_add_of_le (Nat.not_lt.mp hi)
      rw [Nat.add_sub_cancel_left, bitAt_mul_two_pow]
      exact h d

theorem position_take {k : Nat} (hk : k < op0.length) (i : Nat) :
    position signed (op0.take (op0.length - k)) i = position signed op0 (i + k) := by
  have hlen : (op0.take (op0.length - k)).length = op0.length - k :=
    List.length_take_of_le (Nat.sub_le _ _)
  have hne : op0 ≠ [] := List.length_pos_iff.mp (by omega)
  rcases Nat.lt_or_ge i (op0.length - k) with hi | hi
  · rw [position_eq_getElem_reverse signed (by rw [List.length_reverse]; omega),
      position_eq_getElem_reverse signed (by rw [List.length_reverse]; omega)]
    simp only [List.reverse_take, List.getElem_drop]
    congr 1
    omega
  · cases signed with
    | true =>
      rw [position_true_of_ge (by omega), position_true_of_ge (by omega)]
      obtain ⟨front, rest, rfl⟩ := List.exists_cons_of_ne_nil hne
      obtain ⟨d, hd⟩ := Nat.exists_eq_succ_of_ne_zero (Nat.sub_ne_zero_of_lt hk)
      rw [hd]
      rfl
    | false =>
      rw [position_false_of_ge (List.length_pos_iff.mp (by omega)) (by omega),
        position_false_of_ge hne (by omega)]

/-- Moving the positions to the right moves the bits; when none is left the front stands for
all of them. -/
theorem forwardShr_constant_sound (hsize : 0 < lhs_size) (hle : op0.length ≤ lhs_size)
    (h : Describes signed op0 x) (a : Nat) :
    Describes signed (forwardShr signed op0 (.constant a))
      (readWord signed lhs_size (x / 2 ^ a)) := by
  have hpos := h.length_pos
  have hall : ∀ i, position signed (forwardShr signed op0 (.constant a)) i =
      position signed op0 (i + a) := by
    intro i
    unfold forwardShr
    dsimp only
    rw [if_neg (by omega), Int.toNat_natCast]
    split
    case isTrue hshort =>
      cases signed with
      | true =>
        rw [if_pos rfl, position_true_of_ge (by omega : op0.length - 1 ≤ i + a)]
        exact position_true_of_ge (Nat.zero_le i)
      | false =>
        rw [if_neg Bool.false_ne_true, position_false_of_ge h.ne_nil (by omega)]
        exact position_cons_ge (Nat.zero_le i) rfl
    case isFalse hlong => exact position_take (by omega) i
  refine describes_readWord (f := fun i => position signed op0 (i + a)) hsize (fun i => ?_)
    fun i _ => ?_
  · rw [hall]
    unfold wordPosition
    split
    case isTrue => rfl
    case isFalse hi =>
      cases signed with
      | true =>
        rw [position_true_of_ge (by omega)]
        exact (position_true_of_ge (by omega)).symm
      | false => exact position_false_of_ge h.ne_nil (by omega)
  · rw [bitAt_ediv, Nat.add_comm a i]
    exact h _

end Constant

/-! ## Variable amounts -/

section Variable

variable {signed : Bool} {lhs_size : Nat} {op0 : Bitstring} {x : Int}

/-- A bitstring of unknown positions restricts an unsigned number to its length. -/
theorem describes_createUBitstring {n : Nat} (hn : 0 < n)
    (hx : signed = false → ∀ i, n ≤ i → bitAt x i = false) :
    Describes signed (createUBitstring n) x := by
  have hlen : (createUBitstring n).length = n := List.length_replicate
  have hne : createUBitstring n ≠ [] := List.length_pos_iff.mp (by omega)
  intro i
  rcases Nat.lt_or_ge i n with hi | hi
  · rw [position_eq_getElem_reverse signed (by rw [List.length_reverse]; omega)]
    simp only [createUBitstring, List.reverse_replicate, List.getElem_replicate]
    trivial
  · cases signed with
    | true =>
      obtain ⟨k, rfl⟩ := Nat.exists_eq_succ_of_ne_zero hn.ne'
      rw [position_true_of_ge (by omega)]
      trivial
    | false =>
      rw [position_false_of_ge hne (by omega)]
      exact hx rfl i hi

theorem forwardShr_variable_sound (hsize : 0 < lhs_size) (hle : op0.length ≤ lhs_size)
    (hmax : lhs_size ≤ 64) (h : Describes signed op0 x) (a : Nat) (s1 : Bool) (n1 : Nat)
    (op1 : Bitstring) :
    Describes signed (forwardShr signed op0 (.ssa s1 n1 op1))
      (readWord signed lhs_size (x / 2 ^ a)) := by
  unfold forwardShr
  dsimp only
  rw [Nat.mod_eq_of_lt (by omega)]
  refine describes_createUBitstring h.length_pos fun hs i hi => ?_
  subst hs
  rw [bitAt_readWord hsize]
  split
  case isTrue =>
    have hbit := h (a + i)
    rw [position_false_of_ge h.ne_nil (by omega)] at hbit
    rw [bitAt_ediv]
    exact hbit
  case isFalse => rfl

/-! ### Left shifts -/

/-- A bit that the value may have set is shifted past the estimated length and stays in the
word. -/
def Misses (signed : Bool) (lhs_size : Nat) (op0 : Bitstring) : Amount → Prop
  | .ssa s1 n1 op1 =>
    signed = false ∧ oneShl op1.length + op0.length ≤ lhs_size ∧
      ∃ i < op0.length, ∃ a < lhs_size, position false op0 i ≠ .ZERO ∧
        (Amount.ssa s1 n1 op1).Takes a ∧
        oneShl op1.length + op0.length ≤ i + a ∧ i + a < lhs_size
  | .constant _ => False

theorem oneShl_pos (n : Nat) : 0 < oneShl n := Nat.two_pow_pos _

theorem forwardShl_variable_eq (hle : op0.length ≤ lhs_size) (hmax : lhs_size ≤ 64) (s1 : Bool)
    (n1 : Nat) (op1 : Bitstring) :
    forwardShl lhs_size lhs_size op0 (.ssa s1 n1 op1) =
      if oneShl op1.length + op0.length ≤ lhs_size then
        createUBitstring (oneShl op1.length + op0.length)
      else createUBitstring lhs_size := by
  have hpos := oneShl_pos op1.length
  have hlt : oneShl op1.length ≤ 2 ^ 63 :=
    Nat.pow_le_pow_right (by decide) (Nat.le_of_lt_succ (Nat.mod_lt _ (by decide)))
  unfold forwardShl
  dsimp only
  rw [Nat.mod_eq_of_lt (by omega : oneShl op1.length + op0.length < 2 ^ 64)]
  by_cases hshort : oneShl op1.length + op0.length ≤ lhs_size
  · rw [if_neg (by omega), if_pos hshort, Nat.add_comm op0.length,
      Nat.mod_eq_of_lt (by omega : oneShl op1.length + op0.length < 2 ^ 64),
      Nat.mod_eq_of_lt (by omega)]
  · rw [if_pos (by omega), if_neg hshort]

/-- A bitstring describes a number that has a bit set wherever its position is not zero. -/
theorem exists_describes_bit (hX : BitLattice.X ∉ op0) (hne : op0 ≠ []) :
    ∃ x, Describes false op0 x ∧ Fits false op0.length x ∧
      ∀ i < op0.length, position false op0 i ≠ .ZERO → bitAt x i = true := by
  obtain ⟨x, h0, hlt, hbits⟩ :=
    exists_bitAt_eq (fun i => decide (position false op0 i ≠ .ZERO)) op0.length
  have hfits : Fits false op0.length x := ⟨h0, hlt⟩
  refine ⟨x, hfits.describes hne fun i hi => ?_, hfits, fun i hi hz => ?_⟩
  · rw [hbits i hi]
    have hmem : position false op0 i ∈ op0 := by
      rw [position_eq_getElem_reverse false (by rwa [List.length_reverse])]
      exact List.mem_reverse.mp (List.getElem_mem _)
    cases hp : position false op0 i with
    | U => trivial
    | ZERO => rfl
    | ONE => rfl
    | X => exact absurd (hp ▸ hmem) hX
  · rw [hbits i hi]
    exact decide_eq_true hz

/-- Only an amount of 64 positions, or a signed one of unknown sign, goes past the estimate. -/
theorem Misses.amount {s1 : Bool} {n1 : Nat} {op1 : Bitstring}
    (h : Misses signed lhs_size op0 (.ssa s1 n1 op1)) (hlen : op1.length ≤ 64) :
    op1.length = 64 ∨ s1 = true ∧ op1.headD .X = .U := by
  obtain ⟨-, -, i, hi, a, -, -, ⟨hdesc, -⟩, hpast, -⟩ := h
  by_contra hno
  rw [not_or] at hno
  have hshl : oneShl op1.length = 2 ^ op1.length := by
    unfold oneShl
    rw [Nat.mod_eq_of_lt (by omega)]
  have ha : a < 2 ^ op1.length := by
    have hfits := hdesc.fits.resolve_right hno.2
    cases s1 with
    | false => exact_mod_cast hfits.2
    | true =>
      have hle : (2 : Int) ^ (op1.length - 1) ≤ 2 ^ op1.length :=
        pow_le_pow_right₀ (by decide) (Nat.sub_le _ _)
      exact_mod_cast hfits.2.trans_le hle
  omega

/-- A left shift by a variable amount is sound unless its length misses a bit. -/
theorem forwardShl_variable_iff (hsize : 0 < lhs_size) (hmax : lhs_size ≤ 64)
    (hX : BitLattice.X ∉ op0) (hle : op0.length ≤ lhs_size) (s1 : Bool) (n1 : Nat)
    (op1 : Bitstring) :
    (∀ (x : Int) (a : Nat), Describes signed op0 x → Fits signed lhs_size x →
      (Amount.ssa s1 n1 op1).Takes a → a < lhs_size →
        Describes signed (forwardShl lhs_size lhs_size op0 (.ssa s1 n1 op1))
          (readWord signed lhs_size (x * 2 ^ a))) ↔
      ¬ Misses signed lhs_size op0 (.ssa s1 n1 op1) := by
  have hpos := oneShl_pos op1.length
  rw [forwardShl_variable_eq hle hmax]
  constructor
  · rintro hall ⟨rfl, hshort, i, hi, a, ha, hz, htakes, hlen, hword⟩
    have hne : op0 ≠ [] := List.length_pos_iff.mp (by omega)
    obtain ⟨x, hx, ⟨hx0, hxlt⟩, hbits⟩ := exists_describes_bit hX hne
    have hfits : Fits false lhs_size x :=
      ⟨hx0, hxlt.trans_le (pow_le_pow_right₀ (by decide) hle)⟩
    have hres := hall x a hx hfits htakes ha (a + i)
    rw [if_pos hshort, position_false_of_ge (List.length_pos_iff.mp (by
      unfold createUBitstring
      rw [List.length_replicate]
      omega)) (by
      unfold createUBitstring
      rw [List.length_replicate]
      omega), bitAt_readWord hsize, if_pos (by omega), bitAt_mul_two_pow, hbits i hi hz] at hres
    exact Bool.noConfusion hres
  · intro hno x a hx _ htakes ha
    split
    case isFalse =>
      refine describes_createUBitstring hsize fun hs i hi => ?_
      rw [hs, bitAt_readWord hsize, if_neg (by omega)]
      rfl
    case isTrue hshort =>
      refine describes_createUBitstring (by omega) fun hs k hk => ?_
      subst hs
      rw [bitAt_readWord hsize]
      split
      case isFalse => rfl
      case isTrue hword =>
        rcases Nat.lt_or_ge k a with hka | hka
        · exact bitAt_mul_two_pow_lt hka
        · obtain ⟨i, rfl⟩ := Nat.exists_eq_add_of_le hka
          rw [bitAt_mul_two_pow]
          have hbit := hx i
          by_contra hset
          rw [Bool.not_eq_false] at hset
          rw [hset] at hbit
          have hz : position false op0 i ≠ .ZERO := fun hz => by
            rw [hz] at hbit
            exact Bool.noConfusion hbit
          refine hno ⟨rfl, hshort, i, ?_, a, ha, hz, htakes, by omega, by omega⟩
          by_contra hi
          exact hz (position_false_of_ge hx.ne_nil (Nat.not_lt.mp hi))

end Variable

/-- Forward transfer of every shift is sound for the operands that the length of a left shift
does not miss, and for no others. -/
theorem forward_shift_sound_iff {signed : Bool} {lhs_size : Nat} {op0 : Bitstring}
    (hsize : 0 < lhs_size) (hmax : lhs_size ≤ 64) (hX : BitLattice.X ∉ op0)
    (hle : op0.length ≤ lhs_size) (amount : Amount) (shift : Shift) :
    (∀ (x : Int) (a : Nat), Describes signed op0 x → Fits signed lhs_size x →
      amount.Takes a → a < lhs_size →
        Describes signed (shift.forwardTransfer signed lhs_size op0 amount)
          (readWord signed lhs_size (shift.value x a))) ↔
      ¬ (shift = .shl ∧ Misses signed lhs_size op0 amount) := by
  cases shift with
  | shr =>
    refine ⟨fun _ h => Shift.noConfusion h.1, fun _ x a hx _ htakes ha => ?_⟩
    cases amount with
    | ssa s1 n1 op1 => exact forwardShr_variable_sound hsize hle hmax hx a s1 n1 op1
    | constant cst_val =>
      cases htakes
      exact forwardShr_constant_sound hsize hle hx a
  | shl =>
    rw [and_iff_right rfl]
    cases amount with
    | ssa s1 n1 op1 => exact forwardShl_variable_iff hsize hmax hX hle s1 n1 op1
    | constant cst_val =>
      refine ⟨fun _ h => h, fun _ x a hx _ htakes ha => ?_⟩
      cases htakes
      exact forwardShl_constant_sound hsize hle hx ha

/-- `1 << 3` in eight bits, by an amount of two unknown positions. -/
theorem forward_shift_sound_shl :
    Describes false (Shift.shl.forwardTransfer false 8 [.ONE] (.ssa false 8 [.U, .U]))
      (readWord false 8 (1 * 2 ^ 3)) :=
  (@forward_shift_sound_iff false 8 [.ONE] (by decide) (by decide) (by decide) (by decide)
    (.ssa false 8 [.U, .U]) .shl).mpr
    (fun h => (h.2.amount (by decide)).elim (fun h => absurd h (by decide))
      fun h => Bool.false_ne_true h.1)
    1 3 (by decide) ⟨by decide, by decide⟩ ⟨by decide, by decide, by decide⟩ (by decide)

/-- By an amount of 64 positions, of which nothing is known, a bit gets two positions; but
`1 << 5` is 32. -/
theorem forwardShl_unknown_amount :
    Describes false [.ONE] 1 ∧ (Amount.ssa false 64 (createUBitstring 64)).Takes 5 ∧
      forwardShl 64 64 [.ONE] (.ssa false 64 (createUBitstring 64)) = [.U, .U] ∧
      ¬ Describes false (forwardShl 64 64 [.ONE] (.ssa false 64 (createUBitstring 64)))
        (readWord false 64 (1 * 2 ^ 5)) := by
  refine ⟨by decide, ⟨?_, by decide, by decide⟩, by decide, by decide⟩
  exact describes_createUBitstring (by decide) fun _ i hi =>
    bitAt_of_nonneg (by decide) (by decide : (5 : Int) < 2 ^ 64) hi

end Bambu.BitValue
