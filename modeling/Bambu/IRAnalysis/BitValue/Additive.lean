/-
  Bambu.IRAnalysis.BitValue.Additive

  Forward transfer of sums and differences: `neg`, `add`, `gep`, `sub` and the
  three-operand forms.

  The result holds the positions that the table gives on the extended operands, cut to
  the word of the result (`additive_position`); where it stops short of the word the
  carry has settled, or is written out.
-/

import Bambu.IRAnalysis.BitValue.NodeMaps

namespace Bambu.BitValue

open Bambu.Math BitLattice

/-! ## The source -/

/-- What the front of both operands gives after the loop. -/
def frontPosition (nodeMap : NodeMap) (op0 op1 : Bitstring) (carry : Carry) : BitLattice :=
  (nodeMap (op0.headD .X) (op1.headD .X) carry).2

/-- One sum or difference: the loop, then one more position when the result is signed,
and all the others when it is not. -/
def additive (nodeMap : NodeMap) (lhs_signed : Bool) (lhs_size : Nat) (op0 op1 : Bitstring) :
    Bitstring :=
  let (res, carry) := ripple nodeMap lhs_size op0 op1
  if lhs_signed ∧ res.length < lhs_size then frontPosition nodeMap op0 op1 carry :: res
  else if ¬ lhs_signed then fillLoop nodeMap (lhs_size - res.length) carry res
  else res

/-- `neg_node`: zero minus the operand, which is extended first when the result is unsigned. -/
def forwardNeg (lhs_signed : Bool) (lhs_size : Nat) (op : Bitstring) : Bitstring :=
  let op := if ¬ lhs_signed ∧ op.length < lhs_size then signExtend op lhs_signed lhs_size else op
  let zeros := List.replicate op.length .ZERO
  let (res, borrow) := ripple subNodeMap lhs_size zeros op
  if lhs_signed ∧ res.length < lhs_size then
    (subNodeMap .ZERO (op.headD .X) borrow).2 :: res
  else res

/-- `add_node` and `gep_node` -/
def forwardAdd (lhs_signed : Bool) (lhs_size : Nat) (op0_signed op1_signed : Bool)
    (op0 op1 : Bitstring) : Bitstring :=
  let op1 := extendTo op1 op1_signed op0.length
  let op0 := extendTo op0 op0_signed op1.length
  additive addNodeMap lhs_signed lhs_size op0 op1

/-- `sub_node`, which repeats the last borrow instead of reading the table again. -/
def forwardSub (lhs_signed : Bool) (lhs_size : Nat) (op0_signed op1_signed : Bool)
    (op0 op1 : Bitstring) : Bitstring :=
  let arg_size_max := max op0.length op1.length
  let op1 := extendTo op1 op1_signed arg_size_max
  let op0 := extendTo op0 op0_signed arg_size_max
  let (res, borrow) := ripple subNodeMap lhs_size op0 op1
  if lhs_signed ∧ res.length < lhs_size then frontPosition subNodeMap op0 op1 borrow :: res
  else if ¬ lhs_signed then List.replicate (lhs_size - res.length) borrow.toBit ++ res
  else res

/-- `ternary_add_node`, `ternary_as_node`, `ternary_sa_node` and `ternary_ss_node`: the
table of the first operation is applied to the first two operands, that of the second to
the intermediate result and the third. -/
def forwardTernary (first second : NodeMap) (lhs_signed : Bool) (lhs_size : Nat)
    (op0_signed op1_signed op2_signed : Bool) (op0 op1 op2 : Bitstring) : Bitstring :=
  let arg_size_max := max op0.length (max op1.length op2.length)
  let op0 := extendTo op0 op0_signed arg_size_max
  let op1 := extendTo op1 op1_signed arg_size_max
  let op2 := extendTo op2 op2_signed arg_size_max
  let res_int := additive first lhs_signed lhs_size op0 op1
  let op2 := extendTo op2 op2_signed res_int.length
  additive second lhs_signed lhs_size res_int op2

/-- The additive statements, over their operands. -/
inductive Additive (α : Type) where
  | neg (op : α)
  | add (op0 op1 : α)
  | gep (op0 op1 : α)
  | sub (op0 op1 : α)
  | ternary_add (op0 op1 op2 : α)
  | ternary_as (op0 op1 op2 : α)
  | ternary_sa (op0 op1 op2 : α)
  | ternary_ss (op0 op1 op2 : α)

/-- What the transfer reads of an operand. -/
structure Operand where
  signed : Bool
  bitstring : Bitstring

namespace Additive

variable {α β : Type}

def operands : Additive α → List α
  | .neg op => [op]
  | .add op0 op1 | .gep op0 op1 | .sub op0 op1 => [op0, op1]
  | .ternary_add op0 op1 op2 | .ternary_as op0 op1 op2 | .ternary_sa op0 op1 op2
  | .ternary_ss op0 op1 op2 => [op0, op1, op2]

def map (f : α → β) : Additive α → Additive β
  | .neg op => .neg (f op)
  | .add op0 op1 => .add (f op0) (f op1)
  | .gep op0 op1 => .gep (f op0) (f op1)
  | .sub op0 op1 => .sub (f op0) (f op1)
  | .ternary_add op0 op1 op2 => .ternary_add (f op0) (f op1) (f op2)
  | .ternary_as op0 op1 op2 => .ternary_as (f op0) (f op1) (f op2)
  | .ternary_sa op0 op1 op2 => .ternary_sa (f op0) (f op1) (f op2)
  | .ternary_ss op0 op1 op2 => .ternary_ss (f op0) (f op1) (f op2)

/-- What the statement computes, before it is cut to the type of its result. -/
def value : Additive Int → Int
  | .neg op => -op
  | .add op0 op1 | .gep op0 op1 => op0 + op1
  | .sub op0 op1 => op0 - op1
  | .ternary_add op0 op1 op2 => op0 + op1 + op2
  | .ternary_as op0 op1 op2 => op0 + op1 - op2
  | .ternary_sa op0 op1 op2 => op0 - op1 + op2
  | .ternary_ss op0 op1 op2 => op0 - op1 - op2

/-- `Bit_Value::forward_transfer` on these statements. -/
def forwardTransfer (lhs_signed : Bool) (lhs_size : Nat) : Additive Operand → Bitstring
  | .neg op => forwardNeg lhs_signed lhs_size op.bitstring
  | .add op0 op1 | .gep op0 op1 =>
    forwardAdd lhs_signed lhs_size op0.signed op1.signed op0.bitstring op1.bitstring
  | .sub op0 op1 =>
    forwardSub lhs_signed lhs_size op0.signed op1.signed op0.bitstring op1.bitstring
  | .ternary_add op0 op1 op2 =>
    forwardTernary addNodeMap addNodeMap lhs_signed lhs_size op0.signed op1.signed op2.signed
      op0.bitstring op1.bitstring op2.bitstring
  | .ternary_as op0 op1 op2 =>
    forwardTernary addNodeMap subNodeMap lhs_signed lhs_size op0.signed op1.signed op2.signed
      op0.bitstring op1.bitstring op2.bitstring
  | .ternary_sa op0 op1 op2 =>
    forwardTernary subNodeMap addNodeMap lhs_signed lhs_size op0.signed op1.signed op2.signed
      op0.bitstring op1.bitstring op2.bitstring
  | .ternary_ss op0 op1 op2 =>
    forwardTernary subNodeMap subNodeMap lhs_signed lhs_size op0.signed op1.signed op2.signed
      op0.bitstring op1.bitstring op2.bitstring

end Additive

/-! ## One operation -/

section Step

variable {nodeMap : NodeMap} {signed : Bool} {lhs_size : Nat} {op0 op1 : Bitstring}
variable {op : Int → Int → Int} {x y : Int}

/-- After the last position of the operands the digits repeat and the carry has settled. -/
theorem Running.word_signed (hset : Settles nodeMap) (h0 : op0 ≠ [])
    (hlen : op0.length = op1.length) {res : Bitstring} {carry : Carry}
    (hrun : Running nodeMap (position true op0) (position true op1) (res, carry))
    (hl : res.length = op0.length) (hlt : res.length < lhs_size) (i : Nat) :
    position true (frontPosition nodeMap op0 op1 carry :: res) i =
      wordPosition true lhs_size
        (sumAt nodeMap (position true op0) (position true op1) .ZERO) i := by
  have hp := List.length_pos_iff.mpr h0
  have ha : ∀ j, res.length - 1 ≤ j → position true op0 j = op0.headD .X :=
    fun j hj => position_true_of_ge (by omega)
  have hb : ∀ j, res.length - 1 ≤ j → position true op1 j = op1.headD .X :=
    fun j hj => position_true_of_ge (by omega)
  have hstep := hrun.step
  rw [ha _ (by omega), hb _ (by omega)] at hstep
  refine hstep.1.word (Nat.succ_pos _) hlt (fun j hj _ => ?_) i
  rw [List.length_cons] at hj ⊢
  have hrep := hset.sum_eq (c := Carry.ZERO) (n := res.length - 1)
    (fun j hj => (ha j hj).trans (ha _ le_rfl).symm)
    (fun j hj => (hb j hj).trans (hb _ le_rfl).symm) (i := j) (by omega)
  rw [hrep, Nat.add_sub_cancel, Nat.sub_add_cancel (by omega)]
  rfl

/-- What one operation returns. -/
theorem position_additive (hset : Settles nodeMap) (hsize : 0 < lhs_size) (h0 : op0 ≠ [])
    (h1 : op1 ≠ []) (hlen : op0.length = op1.length ∨
      lhs_size ≤ op0.length ∧ lhs_size ≤ op1.length) (i : Nat) :
    position signed (additive nodeMap signed lhs_size op0 op1) i =
      wordPosition signed lhs_size
        (sumAt nodeMap (position signed op0) (position signed op1) .ZERO) i := by
  obtain ⟨hrun, hl⟩ := ripple_spec nodeMap signed lhs_size op0 op1
  unfold additive
  generalize ripple nodeMap lhs_size op0 op1 = s at hrun hl ⊢
  obtain ⟨res, carry⟩ := s
  dsimp only at hl ⊢
  rcases Nat.lt_or_ge res.length lhs_size with hlt | hge
  · have heq : op0.length = op1.length := by omega
    cases signed with
    | true =>
      rw [if_pos ⟨rfl, hlt⟩]
      exact hrun.word_signed hset h0 heq (by omega) hlt i
    | false =>
      rw [if_neg (fun h => Bool.false_ne_true h.1), if_pos Bool.false_ne_true]
      have hfill := fillLoop_holds (lhs_size - res.length)
        (fun j hj => position_false_of_ge h0 (by omega))
        (fun j hj => position_false_of_ge h1 (by omega)) hrun
      exact hfill.word_full hsize (by rw [length_fillLoop]; omega) i
  · have hfull : res.length = lhs_size := by omega
    have hkeep : fillLoop nodeMap (lhs_size - res.length) carry res = res := by
      rw [hfull, Nat.sub_self]
      rfl
    rw [if_neg (fun h => absurd h.2 (Nat.not_lt.mpr hge)), hkeep, ite_self]
    exact hrun.1.word_full hsize hfull i

theorem Carry.agrees_zero : Carry.ZERO.Agrees false := rfl

/-- A table that computes the operation `op` on what is known of its operands. -/
structure Implements (nodeMap : NodeMap) (op : Int → Int → Int) : Prop where
  agrees : ∀ {a b : Nat → BitLattice} {x y : Int}, (∀ i, (a i).Agrees (bitAt x i)) →
    (∀ i, (b i).Agrees (bitAt y i)) → ∀ i, (sumAt nodeMap a b .ZERO i).Agrees (bitAt (op x y) i)
  settles : Settles nodeMap
  congr : ∀ {n x x' y : Int}, x ≡ x' [ZMOD n] → op x y ≡ op x' y [ZMOD n]

theorem implements_addNodeMap : Implements addNodeMap (· + ·) where
  agrees ha hb i := by
    rw [← sumAt_fullAdder]
    exact simulates_addNodeMap.sum ha hb Carry.agrees_zero i
  settles := settles_addNodeMap
  congr h := h.add_right _

theorem implements_subNodeMap : Implements subNodeMap (· - ·) where
  agrees ha hb i := by
    rw [← sumAt_fullSubtractor]
    exact simulates_subNodeMap.sum ha hb Carry.agrees_zero i
  settles := settles_subNodeMap
  congr h := h.sub_right _

/-- One operation keeps the description. -/
theorem Describes.additive (hop : Implements nodeMap op) (hsize : 0 < lhs_size)
    (hlen : op0.length = op1.length ∨ lhs_size ≤ op0.length ∧ lhs_size ≤ op1.length)
    (h0 : Describes signed op0 x) (h1 : Describes signed op1 y) :
    Describes signed (additive nodeMap signed lhs_size op0 op1)
      (readWord signed lhs_size (op x y)) :=
  describes_readWord hsize (position_additive hop.settles hsize h0.ne_nil h1.ne_nil hlen)
    fun i _ => hop.agrees h0 h1 i

end Step

/-! ## The statements -/

section Statement

variable {signed : Bool} {lhs_size : Nat} {op0 op1 op2 : Bitstring} {x y z : Int}

theorem forwardAdd_sound (hsize : 0 < lhs_size) (h0 : Describes signed op0 x)
    (h1 : Describes signed op1 y) :
    Describes signed (forwardAdd signed lhs_size signed signed op0 op1)
      (readWord signed lhs_size (x + y)) := by
  have h1' := Describes.extendTo h1 op0.length
  have h0' := Describes.extendTo h0 (extendTo op1 signed op0.length).length
  refine Describes.additive implements_addNodeMap hsize (.inl ?_) h0' h1'
  rw [length_extendTo _ h0.ne_nil, length_extendTo _ h1.ne_nil]
  omega

/-- Repeating the borrow is what the table gives on zeros. -/
theorem fillLoop_subNodeMap (count : Nat) (borrow : Carry) (res : Bitstring) :
    fillLoop subNodeMap count borrow res = List.replicate count borrow.toBit ++ res := by
  induction count generalizing res with
  | zero => rfl
  | succ count ih =>
    unfold fillLoop
    rw [subNodeMap_zero_zero, ih, List.replicate_succ', List.append_assoc]
    rfl

theorem forwardSub_eq (lhs_size : Nat) (op0 op1 : Bitstring) :
    forwardSub signed lhs_size signed signed op0 op1 =
      additive subNodeMap signed lhs_size (extendTo op0 signed (max op0.length op1.length))
        (extendTo op1 signed (max op0.length op1.length)) := by
  unfold forwardSub additive
  dsimp only
  rw [fillLoop_subNodeMap]

theorem forwardSub_sound (hsize : 0 < lhs_size) (h0 : Describes signed op0 x)
    (h1 : Describes signed op1 y) :
    Describes signed (forwardSub signed lhs_size signed signed op0 op1)
      (readWord signed lhs_size (x - y)) := by
  rw [forwardSub_eq]
  refine Describes.additive implements_subNodeMap hsize (.inl ?_) (Describes.extendTo h0 _)
    (Describes.extendTo h1 _)
  rw [length_extendTo _ h0.ne_nil, length_extendTo _ h1.ne_nil]
  omega

theorem describes_zeros {n : Nat} (hn : 0 < n) :
    Describes signed (List.replicate n .ZERO) 0 := fun i => by
  rw [position_replicate_zero hn, bitAt_zero]
  rfl

/-- Negation is a difference from zeros: when the result is unsigned the operand fills the
word, and there is nothing to add after the loop. -/
theorem forwardNeg_eq (signed : Bool) (lhs_size : Nat) (h : op0 ≠ []) :
    ∃ op, (op = op0 ∨ op = signExtend op0 signed lhs_size) ∧
      forwardNeg signed lhs_size op0 =
        additive subNodeMap signed lhs_size (List.replicate op.length .ZERO) op := by
  have hcons : ∀ {b : Bitstring}, b ≠ [] → (List.replicate b.length BitLattice.ZERO).headD .X = .ZERO :=
    fun hb => by
      obtain ⟨front, rest, rfl⟩ := List.exists_cons_of_ne_nil hb
      rfl
  cases signed with
  | true =>
    refine ⟨op0, .inl rfl, ?_⟩
    unfold forwardNeg additive frontPosition
    rw [if_neg (fun hs => hs.1 rfl), hcons h]
    simp
  | false =>
    -- The extended operand covers the word, so the loop writes all of it.
    obtain ⟨op, hop, hle, hdef⟩ : ∃ op, (op = op0 ∨ op = signExtend op0 false lhs_size) ∧
        lhs_size ≤ op.length ∧ op = (if ¬ (false = true) ∧ op0.length < lhs_size then
          signExtend op0 false lhs_size else op0) := by
      by_cases hlt : op0.length < lhs_size
      · refine ⟨_, .inr rfl, ?_, (if_pos ⟨Bool.false_ne_true, hlt⟩).symm⟩
        rw [length_signExtend _ h]
        omega
      · exact ⟨op0, .inl rfl, Nat.not_lt.mp hlt, (if_neg fun hs => hlt hs.2).symm⟩
    refine ⟨op, hop, ?_⟩
    obtain ⟨-, hl⟩ := ripple_spec subNodeMap false lhs_size
      (List.replicate op.length .ZERO) op
    rw [List.length_replicate] at hl
    unfold forwardNeg additive
    rw [← hdef]
    dsimp only
    generalize ripple subNodeMap lhs_size (List.replicate op.length .ZERO) op = s at hl ⊢
    obtain ⟨res, borrow⟩ := s
    dsimp only at hl ⊢
    have hfull : lhs_size - res.length = 0 := by omega
    rw [hfull]
    simp [fillLoop]

theorem forwardNeg_sound (hsize : 0 < lhs_size) (h : Describes signed op0 x) :
    Describes signed (forwardNeg signed lhs_size op0) (readWord signed lhs_size (-x)) := by
  obtain ⟨op, hop, heq⟩ := forwardNeg_eq signed lhs_size h.ne_nil
  have hdesc : Describes signed op x := by
    rcases hop with rfl | rfl
    · exact h
    · exact h.signExtend lhs_size
  rw [heq, ← zero_sub]
  exact Describes.additive implements_subNodeMap hsize (.inl List.length_replicate)
    (describes_zeros hdesc.length_pos) hdesc

theorem min_le_length_additive (nodeMap : NodeMap) (signed : Bool) (lhs_size : Nat)
    (op0 op1 : Bitstring) :
    min lhs_size (min op0.length op1.length) ≤
      (additive nodeMap signed lhs_size op0 op1).length := by
  obtain ⟨-, hl⟩ := ripple_spec nodeMap signed lhs_size op0 op1
  rw [← hl]
  unfold additive
  generalize ripple nodeMap lhs_size op0 op1 = s
  obtain ⟨res, carry⟩ := s
  dsimp only
  split_ifs
  · exact Nat.le_succ _
  · exact le_rfl
  · rw [length_fillLoop]
    exact Nat.le_add_right _ _

theorem forwardTernary_sound {first second : NodeMap} {op op' : Int → Int → Int}
    (hfirst : Implements first op) (hsecond : Implements second op') (hsize : 0 < lhs_size)
    (h0 : Describes signed op0 x) (h1 : Describes signed op1 y) (h2 : Describes signed op2 z) :
    Describes signed
      (forwardTernary first second signed lhs_size signed signed signed op0 op1 op2)
      (readWord signed lhs_size (op' (op x y) z)) := by
  unfold forwardTernary
  dsimp only
  obtain ⟨n, hn⟩ : ∃ n, n = max op0.length (max op1.length op2.length) := ⟨_, rfl⟩
  rw [← hn]
  have hlen : ∀ {b : Bitstring}, b ≠ [] → b.length ≤ n → (extendTo b signed n).length = n :=
    fun hb hle => by rw [length_extendTo _ hb]; omega
  have hl0 := hlen h0.ne_nil (by omega)
  have hl1 := hlen h1.ne_nil (by omega)
  have hl2 := hlen h2.ne_nil (by omega)
  have hint := Describes.additive hfirst hsize (.inl (hl0.trans hl1.symm))
    (Describes.extendTo h0 n) (Describes.extendTo h1 n)
  have hle := min_le_length_additive first signed lhs_size
    (extendTo op0 signed n) (extendTo op1 signed n)
  rw [hl0, hl1, min_self] at hle
  generalize additive first signed lhs_size (extendTo op0 signed n) (extendTo op1 signed n) =
    res_int at hint hle ⊢
  have h2' := Describes.extendTo h2 n
  have hl2' : (extendTo (extendTo op2 signed n) signed res_int.length).length =
      max n res_int.length := by
    rw [length_extendTo _ h2'.ne_nil, hl2]
  -- The intermediate result is as long as the third operand, or fills the word.
  have hfit : res_int.length = (extendTo (extendTo op2 signed n) signed res_int.length).length ∨
      lhs_size ≤ res_int.length ∧
        lhs_size ≤ (extendTo (extendTo op2 signed n) signed res_int.length).length := by
    rw [hl2']
    omega
  rw [← readWord_congr (hsecond.congr (readWord_modEq signed lhs_size (op x y)))]
  exact Describes.additive hsecond hsize hfit hint (Describes.extendTo h2' _)

end Statement

/-- Forward transfer of every additive statement is sound. -/
theorem forward_additive_sound {signed : Bool} {lhs_size : Nat} (hsize : 0 < lhs_size)
    (stmt : Additive (Operand × Int))
    (h : ∀ o ∈ stmt.operands, o.1.signed = signed ∧ Describes signed o.1.bitstring o.2) :
    Describes signed
      (reduceCurrent signed ((stmt.map Prod.fst).forwardTransfer signed lhs_size))
      (readWord signed lhs_size (stmt.map Prod.snd).value) := by
  apply Describes.reduceCurrent
  cases stmt
  all_goals simp only [Additive.operands, List.forall_mem_cons] at h
  all_goals simp only [Additive.map, Additive.forwardTransfer, Additive.value]
  case neg op => exact forwardNeg_sound hsize h.1.2
  case add op0 op1 =>
    rw [h.1.1, h.2.1.1]
    exact forwardAdd_sound hsize h.1.2 h.2.1.2
  case gep op0 op1 =>
    rw [h.1.1, h.2.1.1]
    exact forwardAdd_sound hsize h.1.2 h.2.1.2
  case sub op0 op1 =>
    rw [h.1.1, h.2.1.1]
    exact forwardSub_sound hsize h.1.2 h.2.1.2
  all_goals rw [h.1.1, h.2.1.1, h.2.2.1.1]
  case ternary_add op0 op1 op2 =>
    exact forwardTernary_sound implements_addNodeMap implements_addNodeMap hsize
      h.1.2 h.2.1.2 h.2.2.1.2
  case ternary_as op0 op1 op2 =>
    exact forwardTernary_sound implements_addNodeMap implements_subNodeMap hsize
      h.1.2 h.2.1.2 h.2.2.1.2
  case ternary_sa op0 op1 op2 =>
    exact forwardTernary_sound implements_subNodeMap implements_addNodeMap hsize
      h.1.2 h.2.1.2 h.2.2.1.2
  case ternary_ss op0 op1 op2 =>
    exact forwardTernary_sound implements_subNodeMap implements_subNodeMap hsize
      h.1.2 h.2.1.2 h.2.2.1.2

/-- `-1 + 3 - 5` in a word of four bits, from what is known of `-1`, `3` and `5`. -/
theorem forward_additive_sound_ternary_as :
    Describes true
      (reduceCurrent true ((Additive.ternary_as ⟨true, [.ONE, .U]⟩ ⟨true, [.ZERO, .U, .ONE]⟩
        ⟨true, [.U, .U, .ONE]⟩).forwardTransfer true 4)) (readWord true 4 (-1 + 3 - 5)) :=
  forward_additive_sound (by decide) (.ternary_as (⟨true, [.ONE, .U]⟩, -1)
    (⟨true, [.ZERO, .U, .ONE]⟩, 3) (⟨true, [.U, .U, .ONE]⟩, 5)) (by decide)

end Bambu.BitValue
