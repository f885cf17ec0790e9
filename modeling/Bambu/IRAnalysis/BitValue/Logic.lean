/-
  Bambu.IRAnalysis.BitValue.Logic

  Forward transfer of the bitwise operations and of the comparisons.

  The bitwise operations go through a table position by position.  The comparisons scan
  both bitstrings from the front until a position decides; the fronts weigh negatively
  when the operands are signed.  The six loops of the source differ in what they return
  when the first operand is greater, when it is less and when no position differs, so
  that they are one loop with these as parameters (`compareLoop`).
-/

import Bambu.IRAnalysis.BitValue.Additive

namespace Bambu.BitValue

open Bambu.Math BitLattice

/-! ## The source -/

def orNodeMap : BitLattice → BitLattice → BitLattice
  | .ZERO, .ZERO => .ZERO
  | .ZERO, .ONE => .ONE
  | .ZERO, .U => .U
  | .ZERO, .X => .X
  | .ONE, .ZERO => .ONE
  | .ONE, .ONE => .ONE
  | .ONE, .U => .ONE
  | .ONE, .X => .ONE
  | .U, .ZERO => .U
  | .U, .ONE => .ONE
  | .U, .U => .U
  | .U, .X => .X
  | .X, .ZERO => .X
  | .X, .ONE => .ONE
  | .X, .U => .X
  | .X, .X => .X

def xorNodeMap : BitLattice → BitLattice → BitLattice
  | .ZERO, .ZERO => .ZERO
  | .ZERO, .ONE => .ONE
  | .ZERO, .U => .U
  | .ZERO, .X => .X
  | .ONE, .ZERO => .ONE
  | .ONE, .ONE => .ZERO
  | .ONE, .U => .U
  | .ONE, .X => .X
  | .U, .ZERO => .U
  | .U, .ONE => .U
  | .U, .U => .U
  | .U, .X => .X
  | .X, .ZERO => .X
  | .X, .ONE => .X
  | .X, .U => .X
  | .X, .X => .X

/-- A table that carries nothing, for the loop over two bitstrings. -/
def pointwise (nodeMap : BitLattice → BitLattice → BitLattice) : NodeMap :=
  fun op0 op1 carry => (carry, nodeMap op0 op1)

/-- A lone `X` that is neither signed nor boolean gets a zero in front. -/
def padX (boolean signed : Bool) (op : Bitstring) : Bitstring :=
  if op = [.X] ∧ ¬ boolean ∧ ¬ signed then [.ZERO, .X] else op

/-- The bitwise operations on operands that are long enough. -/
def forwardBitwise (nodeMap : BitLattice → BitLattice → BitLattice) (lhs_size : Nat)
    (op0_signed op1_signed : Bool) (op0 op1 : Bitstring) : Bitstring :=
  (ripple (pointwise nodeMap) lhs_size (extendTo op0 op0_signed lhs_size)
    (extendTo op1 op1_signed lhs_size)).1

/-- What the transfer of a bitwise operation reads of an operand. -/
structure BitwiseOperand extends Operand where
  boolean : Bool

/-- `and_node` -/
def forwardAnd (lhs_size : Nat) (op0 op1 : BitwiseOperand) : Bitstring :=
  forwardBitwise andNodeMap lhs_size op0.signed op1.signed op0.bitstring op1.bitstring

/-- `or_node` -/
def forwardOr (lhs_size : Nat) (op0 op1 : BitwiseOperand) : Bitstring :=
  forwardBitwise orNodeMap lhs_size op0.signed op1.signed
    (padX op0.boolean op0.signed op0.bitstring) (padX op1.boolean op1.signed op1.bitstring)

/-- `xor_node` -/
def forwardXor (lhs_size : Nat) (op0 op1 : BitwiseOperand) : Bitstring :=
  forwardBitwise xorNodeMap lhs_size op0.signed op1.signed
    (padX op0.boolean op0.signed op0.bitstring) (padX op1.boolean op1.signed op1.bitstring)

/-- `not_node`: every position against `ONE`. -/
def forwardNot (lhs_size : Nat) (op : BitwiseOperand) : Bitstring :=
  let op_bitstring := extendTo (padX op.boolean op.signed op.bitstring) op.signed lhs_size
  (ripple (pointwise xorNodeMap) lhs_size op_bitstring
    (List.replicate op_bitstring.length .ONE)).1

/-- The scan from the front.  `first` says that no position has been compared yet. -/
def compareLoop (greater less equal : BitLattice) (is_signed_var : Bool) :
    Bool → Bitstring → Bitstring → BitLattice
  | first, op0 :: op0s, op1 :: op1s =>
    if op0 = .U ∨ op1 = .U then .U
    else if op0 = .ONE ∧ op1 = .ZERO then (if first ∧ is_signed_var then less else greater)
    else if op0 = .ZERO ∧ op1 = .ONE then (if first ∧ is_signed_var then greater else less)
    else compareLoop greater less equal is_signed_var false op0s op1s
  | _, _, _ => equal

/-- A comparison whose operands are brought to one length first. -/
def forwardCompare (greater less equal : BitLattice) (op0 op1 : Operand) : Bitstring :=
  let op1_bitstring := extendTo op1.bitstring op1.signed op0.bitstring.length
  let op0_bitstring := extendTo op0.bitstring op0.signed op1_bitstring.length
  [compareLoop greater less equal (op0.signed || op1.signed) true op0_bitstring op1_bitstring]

/-- `eq_node` -/
def forwardEq (op0 op1 : Operand) : Bitstring := forwardCompare .ZERO .ZERO .ONE op0 op1

/-- `ne_node` -/
def forwardNe (op0 op1 : Operand) : Bitstring := forwardCompare .ONE .ONE .ZERO op0 op1

/-- `ge_node` -/
def forwardGe (op0 op1 : Operand) : Bitstring := forwardCompare .ONE .ZERO .ONE op0 op1

/-- `gt_node` -/
def forwardGt (op0 op1 : Operand) : Bitstring := forwardCompare .ONE .ZERO .ZERO op0 op1

/-- `le_node` -/
def forwardLe (op0 op1 : Operand) : Bitstring := forwardCompare .ZERO .ONE .ONE op0 op1

/-- `lt_node` -/
def forwardLt (op0 op1 : Operand) : Bitstring := forwardCompare .ZERO .ONE .ZERO op0 op1

/-! ## Bitwise operations -/

section Bitwise

variable {nodeMap : BitLattice → BitLattice → BitLattice} {combine : Bool → Bool → Bool}

/-- The table follows an operation on bits. -/
def Combines (nodeMap : BitLattice → BitLattice → BitLattice) (combine : Bool → Bool → Bool) :
    Prop :=
  ∀ {a b : BitLattice} {a' b' : Bool}, a.Agrees a' → b.Agrees b' →
    (nodeMap a b).Agrees (combine a' b')

theorem combines_andNodeMap : Combines andNodeMap and := agrees_andNodeMap

theorem combines_orNodeMap : Combines orNodeMap or := by
  intro a b a' b'
  revert a' b'
  cases a <;> cases b <;> decide

theorem combines_xorNodeMap : Combines xorNodeMap xor := by
  intro a b a' b'
  revert a' b'
  cases a <;> cases b <;> decide

/-- Nothing is carried. -/
theorem sumAt_pointwise (nodeMap : BitLattice → BitLattice → BitLattice) (a b : Nat → BitLattice)
    (i : Nat) : sumAt (pointwise nodeMap) a b .ZERO i = nodeMap (a i) (b i) := rfl

/-- The loop on two bitstrings that reach the end of the word. -/
theorem describes_pointwise (signed : Bool) {lhs_signed : Bool} {lhs_size : Nat}
    {op0 op1 : Bitstring}
    {x y z : Int} (hmap : Combines nodeMap combine) (hsize : 0 < lhs_size)
    (h0 : ∀ i < lhs_size, (position signed op0 i).Agrees (bitAt x i))
    (h1 : ∀ i < lhs_size, (position signed op1 i).Agrees (bitAt y i))
    (hl0 : lhs_size ≤ op0.length) (hl1 : lhs_size ≤ op1.length)
    (hz : ∀ i, bitAt z i = combine (bitAt x i) (bitAt y i)) :
    Describes lhs_signed (ripple (pointwise nodeMap) lhs_size op0 op1).1
      (readWord lhs_signed lhs_size z) := by
  obtain ⟨hrun, hlen⟩ := ripple_spec (pointwise nodeMap) signed lhs_size op0 op1
  have hword : (ripple (pointwise nodeMap) lhs_size op0 op1).1.length = lhs_size := by omega
  refine describes_readWord hsize (hrun.1.word_full hsize hword) fun i hi => ?_
  rw [sumAt_pointwise, hz]
  exact hmap (h0 i hi) (h1 i hi)

theorem padX_of_describes {signed : Bool} {b : Bitstring} {x : Int} (h : Describes signed b x)
    (boolean : Bool) : padX boolean signed b = b := by
  unfold padX
  rw [if_neg]
  rintro ⟨rfl, -, -⟩
  exact h.not_mem_X List.mem_cons_self

theorem forwardBitwise_sound {lhs_signed s0 s1 : Bool} {lhs_size : Nat} {op0 op1 : Bitstring}
    {x y z : Int} (hmap : Combines nodeMap combine) (hsize : 0 < lhs_size)
    (h0 : Describes s0 op0 x) (h1 : Describes s1 op1 y)
    (hz : ∀ i, bitAt z i = combine (bitAt x i) (bitAt y i)) :
    Describes lhs_signed (forwardBitwise nodeMap lhs_size s0 s1 op0 op1)
      (readWord lhs_signed lhs_size z) := by
  have hl0 := length_extendTo s0 h0.ne_nil lhs_size
  have hl1 := length_extendTo s1 h1.ne_nil lhs_size
  refine describes_pointwise false hmap hsize (fun i hi => ?_) (fun i hi => ?_)
    (by omega) (by omega) hz
  · rw [position_of_lt false s0 (by omega)]
    exact Describes.extendTo h0 lhs_size i
  · rw [position_of_lt false s1 (by omega)]
    exact Describes.extendTo h1 lhs_size i

theorem forwardNot_sound {lhs_signed : Bool} {lhs_size : Nat} {op : BitwiseOperand} {x : Int}
    (hsize : 0 < lhs_size) (h : Describes op.signed op.bitstring x) :
    Describes lhs_signed (forwardNot lhs_size op) (readWord lhs_signed lhs_size (-x - 1)) := by
  unfold forwardNot
  dsimp only
  rw [padX_of_describes h]
  have hlen := length_extendTo op.signed h.ne_nil lhs_size
  have hrep : (List.replicate (extendTo op.bitstring op.signed lhs_size).length
      BitLattice.ONE).length = (extendTo op.bitstring op.signed lhs_size).length :=
    List.length_replicate
  have hones : ∀ i, bitAt (-1) i = true := fun i =>
    bitAt_of_neg (n := 0) (by decide) (by decide) (Nat.zero_le i)
  refine describes_pointwise op.signed (y := -1) combines_xorNodeMap hsize
    (fun i _ => Describes.extendTo h lhs_size i) (fun i hi => ?_) (by omega) (by omega) fun i => ?_
  · rw [position_eq_getElem_reverse op.signed (by rw [List.length_reverse]; omega)]
    simp only [List.reverse_replicate, List.getElem_replicate]
    exact hones i
  · rw [bitAt_neg_sub_one, hones i, Bool.xor_true]

end Bitwise

/-! ## Bits of the integers' own operations -/

theorem bitAt_natCast (m i : Nat) : bitAt m i = m.testBit i := by
  unfold bitAt
  rw [Nat.testBit_eq_decide_div_mod_eq]
  congr 1
  norm_cast

theorem bitAt_eq_testBit (x : Int) (i : Nat) : bitAt x i = x.testBit i := by
  cases x with
  | ofNat m => exact bitAt_natCast m i
  | negSucc m =>
    have hneg : Int.negSucc m = -(m : Int) - 1 := by omega
    rw [hneg, bitAt_neg_sub_one, bitAt_natCast, ← hneg]
    rfl

theorem bitAt_land (x y : Int) (i : Nat) :
    bitAt (Int.land x y) i = (bitAt x i && bitAt y i) := by
  simp only [bitAt_eq_testBit, Int.testBit_land]

theorem bitAt_lor (x y : Int) (i : Nat) :
    bitAt (Int.lor x y) i = (bitAt x i || bitAt y i) := by
  simp only [bitAt_eq_testBit, Int.testBit_lor]

theorem bitAt_lxor (x y : Int) (i : Nat) :
    bitAt (Int.xor x y) i = (bitAt x i ^^ bitAt y i) := by
  simp only [bitAt_eq_testBit, Int.testBit_lxor]

/-! ## Comparisons -/

section Compare

variable {greater less equal : BitLattice} {x y : Int}

/-- What the loop returns for each order of the operands. -/
def outcome (greater less equal : BitLattice) : Ordering → BitLattice
  | .gt => greater
  | .lt => less
  | .eq => equal

/-- A quotient by a power of two and its next bit. -/
theorem ediv_two_pow_eq (x : Int) (n : Nat) :
    x / 2 ^ n = 2 * (x / 2 ^ (n + 1)) + (bitAt x n).toNat := by
  have hdiv : x / 2 ^ (n + 1) = x / 2 ^ n / 2 := by
    rw [pow_succ, Int.ediv_ediv_of_nonneg (by positivity)]
  rw [toNat_bitAt, hdiv]
  exact (Int.mul_ediv_add_emod _ _).symm

theorem lt_of_ediv_lt {n : Nat} (h : x / 2 ^ n < y / 2 ^ n) : x < y := by
  by_contra hle
  have hmono := Int.ediv_le_ediv (by positivity : (0 : Int) < 2 ^ n) (Int.not_lt.mp hle)
  omega

theorem compare_of_ediv_lt {n : Nat} (h : x / 2 ^ n < y / 2 ^ n) : compare x y = .lt :=
  compare_lt_iff_lt.mpr (lt_of_ediv_lt h)

theorem compare_of_ediv_gt {n : Nat} (h : y / 2 ^ n < x / 2 ^ n) : compare x y = .gt :=
  compare_gt_iff_gt.mpr (lt_of_ediv_lt h)

/-- The scan over the positions that are left, on numbers that agree above them. -/
theorem compareLoop_rest (is_signed_var : Bool) {op0s op1s : Bitstring}
    (hlen : op0s.length = op1s.length)
    (h0 : ∀ i < op0s.length, (position false op0s i).Agrees (bitAt x i))
    (h1 : ∀ i < op1s.length, (position false op1s i).Agrees (bitAt y i))
    (hxy : x / 2 ^ op0s.length = y / 2 ^ op0s.length) :
    compareLoop greater less equal is_signed_var false op0s op1s = .U ∨
      compareLoop greater less equal is_signed_var false op0s op1s =
        outcome greater less equal (compare x y) := by
  induction op0s generalizing op1s with
  | nil =>
    rw [List.length_nil, pow_zero, Int.ediv_one, Int.ediv_one] at hxy
    right
    rw [hxy, compare_eq_iff_eq.mpr rfl]
    rfl
  | cons op0 op0s ih =>
    cases op1s with
    | nil => exact absurd hlen (Nat.succ_ne_zero _)
    | cons op1 op1s =>
      have hlen' : op0s.length = op1s.length := Nat.succ.inj hlen
      have hf0 := h0 op0s.length (Nat.lt_succ_self _)
      have hf1 := h1 op1s.length (Nat.lt_succ_self _)
      rw [position_cons_length] at hf0 hf1
      rw [← hlen'] at hf1
      have hrest0 : ∀ i < op0s.length, (position false op0s i).Agrees (bitAt x i) := fun i hi => by
        have hbit := h0 i (Nat.lt_succ_of_lt hi)
        rwa [position_cons_lt hi] at hbit
      have hrest1 : ∀ i < op1s.length, (position false op1s i).Agrees (bitAt y i) := fun i hi => by
        have hbit := h1 i (Nat.lt_succ_of_lt hi)
        rwa [position_cons_lt hi] at hbit
      have hx := ediv_two_pow_eq x op0s.length
      have hy := ediv_two_pow_eq y op0s.length
      rw [List.length_cons] at hxy
      rw [hxy] at hx
      unfold compareLoop
      -- Two known positions decide, or the numbers agree in them too.
      cases op0 <;> cases op1
      case U.U | U.ZERO | U.ONE | U.X | ZERO.U | ONE.U | X.U => exact .inl (by simp)
      case X.X | X.ZERO | X.ONE => exact hf0.elim
      case ZERO.X | ONE.X => exact hf1.elim
      case ZERO.ZERO | ONE.ONE =>
        have hnext : x / 2 ^ op0s.length = y / 2 ^ op0s.length := by rw [hx, hy, hf0, hf1]
        simpa using ih hlen' hrest0 hrest1 hnext
      case ONE.ZERO =>
        right
        rw [hf0, Bool.toNat_true] at hx
        rw [hf1, Bool.toNat_false] at hy
        rw [compare_of_ediv_gt (n := op0s.length) (by omega)]
        simp [outcome]
      case ZERO.ONE =>
        right
        rw [hf0, Bool.toNat_false] at hx
        rw [hf1, Bool.toNat_true] at hy
        rw [compare_of_ediv_lt (n := op0s.length) (by omega)]
        simp [outcome]

/-- The whole scan: the fronts of signed operands are read first. -/
theorem compareLoop_spec (greater less equal : BitLattice) {signed : Bool} {op0s op1s : Bitstring}
    (hlen : op0s.length = op1s.length) (h0 : Describes signed op0s x)
    (h1 : Describes signed op1s y) :
    compareLoop greater less equal signed true op0s op1s = .U ∨
      compareLoop greater less equal signed true op0s op1s =
        outcome greater less equal (compare x y) := by
  have hlow0 : ∀ i < op0s.length, (position false op0s i).Agrees (bitAt x i) := fun i hi => by
    rw [position_of_lt false signed hi]
    exact h0 i
  have hlow1 : ∀ i < op1s.length, (position false op1s i).Agrees (bitAt y i) := fun i hi => by
    rw [position_of_lt false signed hi]
    exact h1 i
  cases signed with
  | false =>
    have hq0 : x / 2 ^ op0s.length = 0 := by
      obtain ⟨hx0, hx1⟩ := h0.fits.resolve_right fun h => Bool.false_ne_true h.1
      exact Int.ediv_eq_zero_of_lt hx0 hx1
    have hq1 : y / 2 ^ op0s.length = 0 := by
      obtain ⟨hy0, hy1⟩ := h1.fits.resolve_right fun h => Bool.false_ne_true h.1
      rw [hlen]
      exact Int.ediv_eq_zero_of_lt hy0 hy1
    have hfirst : compareLoop greater less equal false true op0s op1s =
        compareLoop greater less equal false false op0s op1s := by
      cases op0s <;> cases op1s <;> simp [compareLoop]
    rw [hfirst]
    exact compareLoop_rest false hlen hlow0 hlow1 (hq0.trans hq1.symm)
  | true =>
    obtain ⟨op0, op0s, rfl⟩ := List.exists_cons_of_ne_nil h0.ne_nil
    obtain ⟨op1, op1s, rfl⟩ := List.exists_cons_of_ne_nil h1.ne_nil
    have hlen' : op0s.length = op1s.length := Nat.succ.inj hlen
    -- From the front on the bits repeat, so that it stands for the sign.
    have hrep0 : Repeats op0 (x / 2 ^ op0s.length) := repeats_iff.mpr fun i => by
      have hbit := h0 (op0s.length + i)
      rw [position_cons_ge (Nat.le_add_right _ i) rfl] at hbit
      rw [bitAt_ediv]
      exact hbit
    have hrep1 : Repeats op1 (y / 2 ^ op0s.length) := repeats_iff.mpr fun i => by
      have hbit := h1 (op1s.length + i)
      rw [position_cons_ge (Nat.le_add_right _ i) rfl] at hbit
      rw [hlen', bitAt_ediv]
      exact hbit
    have hrest0 : ∀ i < op0s.length, (position false op0s i).Agrees (bitAt x i) := fun i hi => by
      have hbit := hlow0 i (Nat.lt_succ_of_lt hi)
      rwa [position_cons_lt hi] at hbit
    have hrest1 : ∀ i < op1s.length, (position false op1s i).Agrees (bitAt y i) := fun i hi => by
      have hbit := hlow1 i (Nat.lt_succ_of_lt hi)
      rwa [position_cons_lt hi] at hbit
    unfold compareLoop
    cases op0 <;> cases op1
    case U.U | U.ZERO | U.ONE | U.X | ZERO.U | ONE.U | X.U => exact .inl (by simp)
    case X.X | X.ZERO | X.ONE => exact hrep0.elim
    case ZERO.X | ONE.X => exact hrep1.elim
    case ZERO.ZERO | ONE.ONE =>
      simpa using compareLoop_rest true hlen' hrest0 hrest1 (hrep0.trans hrep1.symm)
    case ONE.ZERO =>
      right
      have hx : x / 2 ^ op0s.length = -1 := hrep0
      have hy : y / 2 ^ op0s.length = 0 := hrep1
      rw [compare_of_ediv_lt (n := op0s.length) (by omega)]
      simp [outcome]
    case ZERO.ONE =>
      right
      have hx : x / 2 ^ op0s.length = 0 := hrep0
      have hy : y / 2 ^ op0s.length = -1 := hrep1
      rw [compare_of_ediv_gt (n := op0s.length) (by omega)]
      simp [outcome]

/-- A comparison describes the bit that its outcomes agree with in every order. -/
theorem forwardCompare_sound {op0 op1 : Operand} {b : Bool} (hsigned : op0.signed = op1.signed)
    (h0 : Describes op0.signed op0.bitstring x) (h1 : Describes op1.signed op1.bitstring y)
    (hb : (outcome greater less equal (compare x y)).Agrees b) :
    Describes false (forwardCompare greater less equal op0 op1) b.toNat := by
  have hdesc : ∀ t : BitLattice, t.Agrees b → Describes false [t] b.toNat := by
    intro t ht
    revert ht
    cases t <;> cases b <;> decide
  have hl1 := length_extendTo op1.signed h1.ne_nil op0.bitstring.length
  have hl0 := length_extendTo op0.signed h0.ne_nil
    (extendTo op1.bitstring op1.signed op0.bitstring.length).length
  have hE1 := Describes.extendTo h1 op0.bitstring.length
  have hE0 := Describes.extendTo h0 (extendTo op1.bitstring op1.signed op0.bitstring.length).length
  rw [← hsigned] at hE1
  unfold forwardCompare
  dsimp only
  rw [← hsigned] at hl0 hl1 hE0 ⊢
  rw [Bool.or_self]
  rcases compareLoop_spec greater less equal (by omega) hE0 hE1
    with hU | hres
  · rw [hU]
    exact hdesc .U trivial
  · rw [hres]
    exact hdesc _ hb

end Compare

/-! ## Statements -/

inductive Comparison where
  | eq
  | ne
  | lt
  | le
  | gt
  | ge
  deriving DecidableEq, Repr

/-- Whether the comparison holds. -/
def Comparison.holds (x y : Int) : Comparison → Bool
  | .eq => x = y
  | .ne => x ≠ y
  | .lt => x < y
  | .le => x ≤ y
  | .gt => x > y
  | .ge => x ≥ y

def Comparison.forwardTransfer (op0 op1 : Operand) : Comparison → Bitstring
  | .eq => forwardEq op0 op1
  | .ne => forwardNe op0 op1
  | .lt => forwardLt op0 op1
  | .le => forwardLe op0 op1
  | .gt => forwardGt op0 op1
  | .ge => forwardGe op0 op1

theorem Comparison.forwardTransfer_sound (rel : Comparison) {op0 op1 : Operand} {x y : Int}
    (hsigned : op0.signed = op1.signed) (h0 : Describes op0.signed op0.bitstring x)
    (h1 : Describes op1.signed op1.bitstring y) :
    Describes false (rel.forwardTransfer op0 op1) (rel.holds x y).toNat := by
  cases rel
  all_goals
    refine forwardCompare_sound hsigned h0 h1 ?_
    rcases lt_trichotomy x y with hlt | heq | hgt
  case eq.inl | ne.inl | lt.inl | le.inl | gt.inl | ge.inl =>
    rw [compare_lt_iff_lt.mpr hlt]
    simp [outcome, Agrees, holds, hlt, hlt.le, hlt.ne, hlt.not_gt, hlt.not_ge]
  case eq.inr.inl | ne.inr.inl | lt.inr.inl | le.inr.inl | gt.inr.inl | ge.inr.inl =>
    rw [compare_eq_iff_eq.mpr heq]
    simp [outcome, Agrees, holds, heq]
  case eq.inr.inr | ne.inr.inr | lt.inr.inr | le.inr.inr | gt.inr.inr | ge.inr.inr =>
    rw [compare_gt_iff_gt.mpr hgt]
    simp [outcome, Agrees, holds, hgt, hgt.le, hgt.ne', hgt.not_gt, hgt.not_ge]

/-- The comparisons and the bitwise operations, over their operands. -/
inductive Logic (α : Type) where
  | compare (rel : Comparison) (op0 op1 : α)
  | and (op0 op1 : α)
  | or (op0 op1 : α)
  | xor (op0 op1 : α)
  | not (op : α)

namespace Logic

variable {α β : Type}

def operands : Logic α → List α
  | .compare _ op0 op1 | .and op0 op1 | .or op0 op1 | .xor op0 op1 => [op0, op1]
  | .not op => [op]

def map (f : α → β) : Logic α → Logic β
  | .compare rel op0 op1 => .compare rel (f op0) (f op1)
  | .and op0 op1 => .and (f op0) (f op1)
  | .or op0 op1 => .or (f op0) (f op1)
  | .xor op0 op1 => .xor (f op0) (f op1)
  | .not op => .not (f op)

/-- What the statement computes; the result of a comparison is boolean. -/
def value (lhs_signed : Bool) (lhs_size : Nat) : Logic Int → Int
  | .compare rel op0 op1 => (rel.holds op0 op1).toNat
  | .and op0 op1 => readWord lhs_signed lhs_size (Int.land op0 op1)
  | .or op0 op1 => readWord lhs_signed lhs_size (Int.lor op0 op1)
  | .xor op0 op1 => readWord lhs_signed lhs_size (Int.xor op0 op1)
  | .not op => readWord lhs_signed lhs_size (-op - 1)

/-- The signedness the result is read with. -/
def resultSigned (lhs_signed : Bool) : Logic α → Bool
  | .compare _ _ _ => false
  | _ => lhs_signed

/-- `Bit_Value::forward_transfer` on these statements. -/
def forwardTransfer (lhs_size : Nat) : Logic BitwiseOperand → Bitstring
  | .compare rel op0 op1 => rel.forwardTransfer op0.toOperand op1.toOperand
  | .and op0 op1 => forwardAnd lhs_size op0 op1
  | .or op0 op1 => forwardOr lhs_size op0 op1
  | .xor op0 op1 => forwardXor lhs_size op0 op1
  | .not op => forwardNot lhs_size op

end Logic

/-- Forward transfer of comparisons and bitwise operations is sound. -/
theorem forward_logic_sound {signed lhs_signed : Bool} {lhs_size : Nat} (hsize : 0 < lhs_size)
    (stmt : Logic (BitwiseOperand × Int))
    (h : ∀ o ∈ stmt.operands, o.1.signed = signed ∧ Describes signed o.1.bitstring o.2) :
    Describes (stmt.resultSigned lhs_signed) ((stmt.map Prod.fst).forwardTransfer lhs_size)
      ((stmt.map Prod.snd).value lhs_signed lhs_size) := by
  have hdesc : ∀ o ∈ stmt.operands, Describes o.1.signed o.1.bitstring o.2 := fun o ho => by
    rw [(h o ho).1]
    exact (h o ho).2
  cases stmt
  all_goals simp only [Logic.operands, List.forall_mem_cons] at h hdesc
  all_goals simp only [Logic.map, Logic.forwardTransfer, Logic.value, Logic.resultSigned]
  case compare rel op0 op1 =>
    exact rel.forwardTransfer_sound (h.1.1.trans h.2.1.1.symm) hdesc.1 hdesc.2.1
  case and op0 op1 =>
    exact forwardBitwise_sound combines_andNodeMap hsize hdesc.1 hdesc.2.1 (bitAt_land _ _)
  case or op0 op1 =>
    unfold forwardOr
    rw [padX_of_describes hdesc.1, padX_of_describes hdesc.2.1]
    exact forwardBitwise_sound combines_orNodeMap hsize hdesc.1 hdesc.2.1 (bitAt_lor _ _)
  case xor op0 op1 =>
    unfold forwardXor
    rw [padX_of_describes hdesc.1, padX_of_describes hdesc.2.1]
    exact forwardBitwise_sound combines_xorNodeMap hsize hdesc.1 hdesc.2.1 (bitAt_lxor _ _)
  case not op => exact forwardNot_sound hsize hdesc.1

/-- `-3 < 2`, from the signs alone. -/
theorem forward_logic_sound_lt :
    Describes false ((Logic.compare .lt ⟨⟨true, [.ONE, .U, .U]⟩, false⟩
      ⟨⟨true, [.ZERO, .U]⟩, false⟩).forwardTransfer 1)
      ((Logic.compare .lt (-3) 1).value false 1) :=
  @forward_logic_sound true false _ (by decide)
    (.compare .lt (⟨⟨true, [.ONE, .U, .U]⟩, false⟩, -3) (⟨⟨true, [.ZERO, .U]⟩, false⟩, 1))
    (by decide)

end Bambu.BitValue
