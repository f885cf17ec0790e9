/-
  Bambu.IRAnalysis.BitValue.Select

  Forward transfer of the statements that hand an operand on: conversions, `abs`, `max`,
  `min` and `select`.

  A bitstring is an abbreviation: above its front it says what its own type says.
  Conversions extend the operand with its signedness before the result's takes over;
  `abs`, `max` and `min` have one type throughout.  `select` returns an arm, or what both
  arms say up to the length of the longer one, and leaves the rest to the signedness of
  its result: it is sound exactly where that rest is right (`Move.Covers`).
-/

import Bambu.IRAnalysis.BitValue.Logic
import Bambu.IRAnalysis.BitValue.Slice

namespace Bambu.BitValue

open Bambu.Math BitLattice

/-! ## The source -/

/-- `nop_node` and `bitcast_node`: the operand in the width of the result. -/
def forwardNop (lhs_signed : Bool) (lhs_size : Nat) (op : BitwiseOperand) : Bitstring :=
  let do_not_extend := lhs_signed ∧ lhs_size = 1 ∧ op.boolean
  let res := if lhs_signed ≠ op.signed ∧ ¬ do_not_extend then
    extendTo op.bitstring op.signed lhs_size else op.bitstring
  truncateTo res lhs_size

/-- The loop of `abs_node` that subtracts the operand from zero. -/
def negated (op_size : Nat) (op : Bitstring) : Bitstring :=
  let zeros := List.replicate op.length .ZERO
  let (res, borrow) := ripple subNodeMap op.length zeros op
  if res.length < op_size then (subNodeMap .ZERO (op.headD .X) borrow).2 :: res else res

/-- `abs_node`, by what is known of the sign. -/
def forwardAbs (lhs_signed lhs_bool : Bool) (lhs_size op_size : Nat) (op : Bitstring) : Bitstring :=
  match op.headD .X with
  | .ZERO => op
  | .ONE => negated op_size op
  | .X | .U => inf op (negated op_size op) lhs_size lhs_signed lhs_bool

/-- `max_node` and `min_node`, which merge the operands under the type of the first. -/
def forwardExtremum (op0_size : Nat) (op0 op1 : BitwiseOperand) : Bitstring :=
  let op1_bitstring := extendTo op1.bitstring op1.signed op0.bitstring.length
  let op0_bitstring := extendTo op0.bitstring op0.signed op1_bitstring.length
  inf op0_bitstring op1_bitstring op0_size op0.signed op0.boolean

/-- The loop of `select_node` over the condition. -/
def conditionLoop (arg_cond : BitLattice) : Bitstring → BitLattice
  | [] => arg_cond
  | .ONE :: _ => .ONE
  | .U :: rest => conditionLoop .U rest
  | _ :: rest => conditionLoop arg_cond rest

/-- `select_node` -/
def forwardSelect (lhs_signed lhs_bool : Bool) (lhs_size : Nat) (op0 op1 op2 : Operand) :
    Bitstring :=
  match conditionLoop .ZERO op0.bitstring with
  | .ZERO => op2.bitstring
  | .ONE => op1.bitstring
  | _ =>
    let inf_size := max op1.bitstring.length op2.bitstring.length
    inf (extendTo op1.bitstring op1.signed inf_size) (extendTo op2.bitstring op2.signed inf_size)
      lhs_size lhs_signed lhs_bool

/-- The statements, over their operands. -/
inductive Move (α : Type) where
  | nop (op : α)
  | bitcast (op : α)
  | abs (op : α)
  | max (op0 op1 : α)
  | min (op0 op1 : α)
  | select (op0 op1 op2 : α)

namespace Move

variable {α β : Type}

def operands : Move α → List α
  | .nop op | .bitcast op | .abs op => [op]
  | .max op0 op1 | .min op0 op1 => [op0, op1]
  | .select op0 op1 op2 => [op0, op1, op2]

def map (f : α → β) : Move α → Move β
  | .nop op => .nop (f op)
  | .bitcast op => .bitcast (f op)
  | .abs op => .abs (f op)
  | .max op0 op1 => .max (f op0) (f op1)
  | .min op0 op1 => .min (f op0) (f op1)
  | .select op0 op1 op2 => .select (f op0) (f op1) (f op2)

/-- What the statement computes, before it is cut to the type of its result. -/
def value : Move Int → Int
  | .nop op | .bitcast op => op
  | .abs op => |op|
  | .max op0 op1 => Max.max op0 op1
  | .min op0 op1 => Min.min op0 op1
  | .select op0 op1 op2 => if op0 ≠ 0 then op1 else op2

/-- `Bit_Value::forward_transfer` on these statements.  The operands of `abs`, `max` and
`min` have the type of the result. -/
def forwardTransfer (lhs_signed lhs_bool : Bool) (lhs_size : Nat) :
    Move BitwiseOperand → Bitstring
  | .nop op | .bitcast op => forwardNop lhs_signed lhs_size op
  | .abs op => forwardAbs lhs_signed lhs_bool lhs_size lhs_size op.bitstring
  | .max op0 op1 | .min op0 op1 => forwardExtremum lhs_size op0 op1
  | .select op0 op1 op2 =>
    forwardSelect lhs_signed lhs_bool lhs_size op0.toOperand op1.toOperand op2.toOperand

/-- The operand has the type of the result. -/
structure SameType (lhs_signed lhs_bool : Bool) (lhs_size : Nat) (op : BitwiseOperand) : Prop where
  signed : op.signed = lhs_signed
  boolean : op.boolean = lhs_bool
  length : op.bitstring.length ≤ lhs_size

/-- What the types of the intermediate representation promise: conversions convert between
any two types, the arms of a `select` are no wider than its result, and all the others
keep the type, which is a signed one for `abs`. -/
def WellTyped (lhs_signed lhs_bool : Bool) (lhs_size : Nat) : Move BitwiseOperand → Prop
  | .nop _ | .bitcast _ => True
  | .abs op => lhs_signed ∧ SameType lhs_signed lhs_bool lhs_size op
  | .max op0 op1 | .min op0 op1 =>
    SameType lhs_signed lhs_bool lhs_size op0 ∧ SameType lhs_signed lhs_bool lhs_size op1
  | .select _ op1 op2 => op1.bitstring.length ≤ lhs_size ∧ op2.bitstring.length ≤ lhs_size

end Move

/-! ## One type throughout -/

section Plain

variable {lhs_signed lhs_bool : Bool} {w : Nat} {op0 op1 : BitwiseOperand} {x y : Int}

theorem wordPosition_congr {signed : Bool} {f g : Nat → BitLattice} (hw : 0 < w)
    (h : ∀ i < w, f i = g i) (i : Nat) : wordPosition signed w f i = wordPosition signed w g i := by
  unfold wordPosition
  rw [h (w - 1) (by omega)]
  split
  case isTrue hi => exact h i hi
  case isFalse => rfl

/-- A bitstring no longer than the word goes on describing what is cut to it. -/
theorem describes_readWord_self {signed : Bool} {b : Bitstring} (hw : 0 < w)
    (hle : b.length ≤ w) (h : Describes signed b x) : Describes signed b (readWord signed w x) :=
  describes_readWord hw (position_eq_wordPosition hw h.ne_nil hle) fun i _ => h i

/-- A conversion fills the word, or leaves the operand as it is under the same signedness. -/
theorem position_forwardNop (h : op0.toOperand.IsKnown) {i : Nat} (hi : i < w) :
    position lhs_signed (forwardNop lhs_signed w op0) i =
      position op0.signed op0.bitstring i := by
  have hE := length_extendTo op0.signed h.ne_nil w
  have hpos := List.length_pos_iff.mpr h.ne_nil
  unfold forwardNop
  dsimp only
  split
  case isTrue =>
    have hcut : i < (truncateTo (extendTo op0.bitstring op0.signed w) w).length := by
      rw [length_truncateTo]
      omega
    rw [position_of_lt lhs_signed op0.signed hcut, position_truncateTo hcut,
      position_extendTo h.not_X h.ne_nil]
  case isFalse hkeep =>
    by_cases hcut : i < (truncateTo op0.bitstring w).length
    · rw [position_of_lt lhs_signed op0.signed hcut, position_truncateTo hcut]
    · rw [length_truncateTo] at hcut
      -- The operand is shorter than a word that is wider than one bit.
      have hsame : lhs_signed = op0.signed := by
        by_contra hne
        exact hkeep ⟨hne, fun hbool => by omega⟩
      rw [truncateTo_of_le (by omega), hsame]

theorem forwardNop_sound (hw : 0 < w) (hx : Describes op0.signed op0.bitstring x) :
    Describes lhs_signed (forwardNop lhs_signed w op0) (readWord lhs_signed w x) := by
  have h : op0.toOperand.IsKnown := ⟨hx.not_mem_X, hx.ne_nil⟩
  have hE := length_extendTo op0.signed h.ne_nil w
  have hpos := hx.length_pos
  have hlen : 0 < (forwardNop lhs_signed w op0).length ∧
      (forwardNop lhs_signed w op0).length ≤ w := by
    unfold forwardNop
    dsimp only
    rw [length_truncateTo]
    split <;> omega
  refine describes_readWord (f := position op0.signed op0.bitstring) hw (fun i => ?_)
    fun i _ => hx i
  rw [position_eq_wordPosition hw (List.length_pos_iff.mp hlen.1) hlen.2]
  exact wordPosition_congr hw (fun j hj => position_forwardNop h hj) i

/-- The loop reads no further than its operands reach. -/
theorem rippleLoop_size (nodeMap : NodeMap) {size : Nat} {op0s op1s : Bitstring}
    (h : op1s.length ≤ size) (carry : Carry) (res : Bitstring) :
    rippleLoop nodeMap size op0s op1s carry res =
      rippleLoop nodeMap op1s.length op0s op1s carry res := by
  induction op1s generalizing size op0s carry res with
  | nil => cases size <;> cases op0s <;> rfl
  | cons op1 op1s ih =>
    obtain ⟨n, rfl⟩ := Nat.exists_eq_succ_of_ne_zero (by
      rw [List.length_cons] at h
      omega : size ≠ 0)
    cases op0s with
    | nil => rfl
    | cons op0 op0s => exact ih (Nat.le_of_succ_le_succ h) _ _

/-- The loop of `abs_node` is that of `neg_node`. -/
theorem negated_eq {op : Bitstring} (h : op.length ≤ w) : negated w op = forwardNeg true w op := by
  have hloop : ripple subNodeMap w (List.replicate op.length .ZERO) op =
      ripple subNodeMap op.length (List.replicate op.length .ZERO) op := by
    unfold ripple
    rw [rippleLoop_size subNodeMap (by rwa [List.length_reverse]), List.length_reverse]
  unfold negated forwardNeg
  rw [if_neg (fun hs => hs.1 rfl)]
  dsimp only
  rw [hloop]
  simp only [true_and]

theorem length_negated_le {op : Bitstring} (h : op.length ≤ w) : (negated w op).length ≤ w := by
  obtain ⟨-, hlen⟩ := ripple_spec subNodeMap true op.length (List.replicate op.length .ZERO) op
  rw [List.length_replicate] at hlen
  unfold negated
  dsimp only
  split
  case isTrue hlt => exact hlt
  case isFalse => omega

/-- The front of a signed bitstring is its sign. -/
theorem sign_of_headD {op : Bitstring} (h : Describes true op x) :
    (op.headD .X = .ZERO → 0 ≤ x) ∧ (op.headD .X = .ONE → x < 0) := by
  obtain ⟨front, rest, rfl⟩ := List.exists_cons_of_ne_nil h.ne_nil
  have hrep : Repeats front (x / 2 ^ (rest.length + 1)) := (describes_cons_iff.mp h).2
  have hpow : (0 : Int) < 2 ^ (rest.length + 1) := by positivity
  constructor
  · rintro rfl
    have hq : x / 2 ^ (rest.length + 1) = 0 := hrep
    have hbounds := bounds_of_ediv hq
    linarith [hbounds.1]
  · rintro rfl
    have hq : x / 2 ^ (rest.length + 1) = -1 := hrep
    have hbounds := bounds_of_ediv hq
    linarith [hbounds.2]

theorem forwardAbs_sound {op : Bitstring} (hw : 0 < w) (hbool : lhs_bool = true → w = 1)
    (hle : op.length ≤ w) (hx : Describes true op x) :
    Describes true (forwardAbs true lhs_bool w w op) (readWord true w |x|) := by
  have hneg : Describes true (negated w op) (readWord true w (-x)) := by
    rw [negated_eq hle]
    exact forwardNeg_sound hw hx
  have hself := describes_readWord_self hw hle hx
  have hlen := length_negated_le hle
  have hsign := sign_of_headD hx
  unfold forwardAbs
  cases hfront : op.headD .X with
  | ZERO =>
    rw [abs_of_nonneg (hsign.1 hfront)]
    exact hself
  | ONE =>
    rw [abs_of_neg (hsign.2 hfront)]
    exact hneg
  | X => exact absurd hfront (headD_ne_X hx.not_mem_X hx.ne_nil)
  | U =>
    -- Both signs are possible, and each has its operand of the merge.
    rcases le_or_gt 0 x with h0 | h0
    · rw [abs_of_nonneg h0]
      exact (describes_inf_left lhs_bool hself hneg.not_mem_X hneg.ne_nil hle hlen hbool).1
    · rw [abs_of_neg h0]
      dsimp only
      rw [inf_comm hx.ne_nil hneg.ne_nil hle hlen]
      exact (describes_inf_left lhs_bool hneg hx.not_mem_X hx.ne_nil hlen hle hbool).1

theorem forwardExtremum_sound {z : Int} (hw : 0 < w) (hbool : lhs_bool = true → w = 1)
    (ht0 : Move.SameType lhs_signed lhs_bool w op0) (ht1 : Move.SameType lhs_signed lhs_bool w op1)
    (hx : Describes op0.signed op0.bitstring x) (hy : Describes op1.signed op1.bitstring y)
    (hz : z = x ∨ z = y) :
    Describes lhs_signed (forwardExtremum w op0 op1) (readWord lhs_signed w z) := by
  have hE1 := length_extendTo op1.signed hy.ne_nil op0.bitstring.length
  have hE0 := length_extendTo op0.signed hx.ne_nil
    (extendTo op1.bitstring op1.signed op0.bitstring.length).length
  have hle0 := ht0.length
  have hle1 := ht1.length
  have hdx := hx.extendTo (extendTo op1.bitstring op1.signed op0.bitstring.length).length
  have hdy := hy.extendTo op0.bitstring.length
  unfold forwardExtremum
  dsimp only
  rw [ht0.boolean]
  rw [ht1.signed] at hE1 hdy ⊢
  rw [ht0.signed, ht1.signed] at hE0 hdx
  rw [ht0.signed]
  refine describes_readWord_self hw (length_inf_le _ _ hbool) ?_
  rcases hz with rfl | rfl
  · exact (describes_inf_left lhs_bool hdx hdy.not_mem_X hdy.ne_nil (by omega) (by omega) hbool).1
  · rw [inf_comm hdx.ne_nil hdy.ne_nil (by omega) (by omega)]
    exact (describes_inf_left lhs_bool hdy hdx.not_mem_X hdx.ne_nil (by omega) (by omega) hbool).1

end Plain

/-! ## `select` -/

/-- What is known of the value, by what is known of the condition. -/
def selectPosition (op0 op1 op2 : Operand) (i : Nat) : BitLattice :=
  match conditionLoop .ZERO op0.bitstring with
  | .ZERO => position op2.signed op2.bitstring i
  | .ONE => position op1.signed op1.bitstring i
  | _ => bitInf (position op1.signed op1.bitstring i) (position op2.signed op2.bitstring i)

/-- How many positions the transfer takes over. -/
def selectLength (op0 op1 op2 : Operand) : Nat :=
  match conditionLoop .ZERO op0.bitstring with
  | .ZERO => op2.bitstring.length
  | .ONE => op1.bitstring.length
  | _ => max op1.bitstring.length op2.bitstring.length

section Select

variable {lhs_signed lhs_bool : Bool} {w : Nat} {op0 op1 op2 : Operand} {x y : Int}

/-- One position of the condition that is, or may be, set decides. -/
theorem conditionLoop_eq (arg_cond : BitLattice) (b : Bitstring) :
    conditionLoop arg_cond b =
      if BitLattice.ONE ∈ b then .ONE else if BitLattice.U ∈ b then .U else arg_cond := by
  induction b generalizing arg_cond with
  | nil => rfl
  | cons t b ih =>
    unfold conditionLoop
    cases t <;> simp only [ih, List.mem_cons, reduceCtorEq, false_or, true_or, if_true, ite_self]

/-- The condition has the truth value that its bitstring says, if it says one. -/
theorem conditionLoop_agrees (hx : Describes op0.signed op0.bitstring x) :
    (conditionLoop .ZERO op0.bitstring).Agrees (decide (x ≠ 0)) := by
  rw [conditionLoop_eq]
  split
  case isTrue hone =>
    obtain ⟨i, -, hi⟩ := exists_position_of_mem op0.signed hone
    have hbit := hx i
    rw [hi] at hbit
    refine decide_eq_true fun h0 => ?_
    rw [h0, bitAt_zero] at hbit
    exact Bool.false_ne_true hbit
  case isFalse hone =>
    split
    case isTrue => trivial
    case isFalse hU =>
      refine decide_eq_false (not_not_intro (eq_zero_of_bitAt fun i => ?_))
      have hbit := hx i
      rcases position_mem_or_zero op0.signed hx.ne_nil i with hmem | hzero
      · have hX := hx.not_mem_X
        generalize position op0.signed op0.bitstring i = t at hmem hbit
        cases t with
        | U => exact absurd hmem hU
        | ZERO => exact hbit
        | ONE => exact absurd hmem hone
        | X => exact absurd hmem hX
      · rw [hzero] at hbit
        exact hbit

/-- Every truth value that the bitstring allows occurs. -/
theorem exists_condition (h : op0.IsKnown) {c : Bool}
    (hc : (conditionLoop .ZERO op0.bitstring).Agrees c) :
    ∃ x, Describes op0.signed op0.bitstring x ∧ (x ≠ 0 ↔ c = true) := by
  obtain ⟨x, hx, -, hbits⟩ := exists_describes_bitAt op0.signed h.not_X h.ne_nil c
  refine ⟨x, hx, ?_⟩
  have hagrees := conditionLoop_agrees hx
  rw [conditionLoop_eq] at hc hagrees
  split at hc
  case isTrue hone =>
    rw [if_pos hone] at hagrees
    exact iff_of_true (of_decide_eq_true hagrees) hc
  case isFalse hone =>
    split at hc
    case isTrue hU =>
      cases c with
      | true =>
        obtain ⟨i, -, hi⟩ := exists_position_of_mem op0.signed hU
        have hbit := hbits i (by rw [hi]; trivial)
        refine iff_of_true (fun h0 => ?_) rfl
        rw [h0, bitAt_zero] at hbit
        exact Bool.false_ne_true hbit
      | false =>
        refine iff_of_false (not_not_intro (eq_zero_of_bitAt fun i => hbits i ?_))
          Bool.false_ne_true
        -- No position is known to be set, so that all may be clear.
        rcases position_mem_or_zero op0.signed h.ne_nil i with hmem | hzero
        · generalize position op0.signed op0.bitstring i = t at hmem
          cases t with
          | U => trivial
          | ZERO => rfl
          | ONE => exact absurd hmem hone
          | X => exact absurd hmem h.not_X
        · rw [hzero]
          rfl
    case isFalse hU =>
      rw [if_neg hone, if_neg hU] at hagrees
      have hfalse : c = false := hc
      rw [hfalse]
      exact iff_of_false (of_decide_eq_false hagrees) Bool.false_ne_true

/-- The condition is never left without a value. -/
theorem conditionLoop_ne_X (b : Bitstring) : conditionLoop .ZERO b ≠ .X := by
  rw [conditionLoop_eq]
  split_ifs <;> exact BitLattice.noConfusion

theorem selectPosition_ne_X (h1 : op1.IsKnown) (h2 : op2.IsKnown) (i : Nat) :
    selectPosition op0 op1 op2 i ≠ .X := by
  have hX1 : position op1.signed op1.bitstring i ≠ .X := position_ne_X h1.not_X h1.ne_nil i
  have hX2 : position op2.signed op2.bitstring i ≠ .X := position_ne_X h2.not_X h2.ne_nil i
  unfold selectPosition
  split
  · exact hX2
  · exact hX1
  · exact bitInf_ne_X hX1 hX2

/-- An arm that is extended with its own signedness, under that of the result. -/
theorem position_extended (h : op1.IsKnown) {n : Nat} (hle : op1.bitstring.length ≤ n) (i : Nat) :
    position lhs_signed (extendTo op1.bitstring op1.signed n) i =
      wordPosition lhs_signed n (position op1.signed op1.bitstring) i := by
  have hpos := List.length_pos_iff.mpr h.ne_nil
  have hlen : (extendTo op1.bitstring op1.signed n).length = n := by
    rw [length_extendTo _ h.ne_nil]
    omega
  have hn : 0 < n := by omega
  rw [position_eq_wordPosition hn (extendTo_ne_nil h.ne_nil) hlen.le]
  refine wordPosition_congr hn (fun j hj => ?_) i
  rw [position_of_lt lhs_signed op1.signed (by omega), position_extendTo h.not_X h.ne_nil]

theorem agrees_of_bitInf {s t : BitLattice} {b : Bool} (hs : s ≠ .X) (ht : t ≠ .X)
    (h : (bitInf s t).Agrees b) : s.Agrees b ∨ t.Agrees b := by
  revert hs ht h
  cases s <;> cases t <;> cases b <;> decide

theorem bitInf_wordPosition {signed : Bool} {n : Nat} (f g : Nat → BitLattice) (i : Nat) :
    bitInf (wordPosition signed n f i) (wordPosition signed n g i) =
      wordPosition signed n (fun j => bitInf (f j) (g j)) i := by
  unfold wordPosition
  split
  case isTrue => rfl
  case isFalse => cases signed <;> rfl

/-- The transfer takes over the positions of the value, and repeats the last of them. -/
theorem forwardSelect_spec (lhs_signed : Bool) (op0 : Operand)
    (hbool : lhs_bool = true → w = 1) (h1 : op1.IsKnown) (h2 : op2.IsKnown)
    (hl1 : op1.bitstring.length ≤ w) (hl2 : op2.bitstring.length ≤ w) :
    forwardSelect lhs_signed lhs_bool w op0 op1 op2 ≠ [] ∧
      (forwardSelect lhs_signed lhs_bool w op0 op1 op2).length ≤ w ∧
      ∀ i, position lhs_signed (forwardSelect lhs_signed lhs_bool w op0 op1 op2) i =
        wordPosition lhs_signed (selectLength op0 op1 op2) (selectPosition op0 op1 op2) i := by
  have hpos1 := List.length_pos_iff.mpr h1.ne_nil
  have hpos2 := List.length_pos_iff.mpr h2.ne_nil
  have harm : ∀ op : Operand, op.IsKnown → ∀ i, position lhs_signed op.bitstring i =
      wordPosition lhs_signed op.bitstring.length (position op.signed op.bitstring) i := by
    intro op h i
    rw [← position_extended h le_rfl, show extendTo op.bitstring op.signed op.bitstring.length =
      op.bitstring from if_neg (lt_irrefl _)]
  unfold forwardSelect selectLength selectPosition
  cases hcond : conditionLoop .ZERO op0.bitstring with
  | ZERO => exact ⟨h2.ne_nil, hl2, harm op2 h2⟩
  | ONE => exact ⟨h1.ne_nil, hl1, harm op1 h1⟩
  | X => exact absurd hcond (conditionLoop_ne_X _)
  | U =>
    dsimp only
    obtain ⟨n, hn⟩ : ∃ n, n = max op1.bitstring.length op2.bitstring.length := ⟨_, rfl⟩
    rw [← hn]
    have hn0 : 0 < n := by omega
    have hE1 : (extendTo op1.bitstring op1.signed n).length = n := by
      rw [length_extendTo _ h1.ne_nil]
      omega
    have hE2 : (extendTo op2.bitstring op2.signed n).length = n := by
      rw [length_extendTo _ h2.ne_nil]
      omega
    have hne1 : extendTo op1.bitstring op1.signed n ≠ [] := extendTo_ne_nil h1.ne_nil
    have hne2 : extendTo op2.bitstring op2.signed n ≠ [] := extendTo_ne_nil h2.ne_nil
    have hpos : ∀ i, position lhs_signed
        (inf (extendTo op1.bitstring op1.signed n) (extendTo op2.bitstring op2.signed n)
          w lhs_signed lhs_bool) i =
        wordPosition lhs_signed n (fun i => bitInf (position op1.signed op1.bitstring i)
          (position op2.signed op2.bitstring i)) i := by
      intro i
      rw [position_inf hne1 hne2 (not_mem_X_extendTo h1.not_X h1.ne_nil)
        (not_mem_X_extendTo h2.not_X h2.ne_nil) (by omega) (by omega) hbool,
        position_extended h1 (by omega), position_extended h2 (by omega), bitInf_wordPosition]
    refine ⟨?_, length_inf_le _ _ hbool, hpos⟩
    intro hnil
    have h0 := hpos 0
    rw [hnil] at h0
    unfold wordPosition at h0
    rw [if_pos hn0] at h0
    exact bitInf_ne_X (position_ne_X h1.not_X h1.ne_nil 0) (position_ne_X h2.not_X h2.ne_nil 0)
      h0.symm

/-- The transfer is sound exactly where the last position it takes over allows all those
above. -/
theorem forwardSelect_iff (lhs_signed : Bool) (hw : 0 < w) (hbool : lhs_bool = true → w = 1)
    (h0 : op0.IsKnown) (h1 : op1.IsKnown) (h2 : op2.IsKnown) (hl1 : op1.bitstring.length ≤ w)
    (hl2 : op2.bitstring.length ≤ w) :
    (∀ c x y, Describes op0.signed op0.bitstring c → Describes op1.signed op1.bitstring x →
        Describes op2.signed op2.bitstring y →
          Describes lhs_signed (forwardSelect lhs_signed lhs_bool w op0 op1 op2)
            (readWord lhs_signed w (if c ≠ 0 then x else y))) ↔
      ∀ i < w, Allows
        (wordPosition lhs_signed (selectLength op0 op1 op2) (selectPosition op0 op1 op2) i)
        (selectPosition op0 op1 op2 i) := by
  obtain ⟨hne, hle, hpos⟩ := forwardSelect_spec lhs_signed op0 hbool h1 h2 hl1 hl2
  simp only [← hpos]
  rw [← describes_iff_allows (P := fun v : Int × Int × Int =>
    Describes op0.signed op0.bitstring v.1 ∧ Describes op1.signed op1.bitstring v.2.1 ∧
      Describes op2.signed op2.bitstring v.2.2)
    (z := fun v => if v.1 ≠ 0 then v.2.1 else v.2.2) hw hne hle (selectPosition_ne_X h1 h2)
    (fun v hv i _ => ?_) (fun b i _ hb => ?_)]
  · exact ⟨fun hall v hv => hall v.1 v.2.1 v.2.2 hv.1 hv.2.1 hv.2.2,
      fun hall c x y hc hx hy => hall (c, x, y) ⟨hc, hx, hy⟩⟩
  · -- The value is one of the arms, and the right one when the condition is known.
    have hc := conditionLoop_agrees hv.1
    unfold selectPosition
    cases hcond : conditionLoop .ZERO op0.bitstring with
    | ZERO =>
      rw [hcond] at hc
      rw [if_neg (of_decide_eq_false hc)]
      exact hv.2.2 i
    | ONE =>
      rw [hcond] at hc
      rw [if_pos (of_decide_eq_true hc)]
      exact hv.2.1 i
    | X => exact absurd hcond (conditionLoop_ne_X _)
    | U =>
      dsimp only
      split
      · exact agrees_bitInf_left (hv.2.1 i) (position_ne_X h2.not_X h2.ne_nil i)
      · rw [bitInf_comm]
        exact agrees_bitInf_left (hv.2.2 i) (position_ne_X h1.not_X h1.ne_nil i)
  · obtain ⟨x, hx, -, hbx⟩ := exists_describes_bitAt op1.signed h1.not_X h1.ne_nil b
    obtain ⟨y, hy, -, hby⟩ := exists_describes_bitAt op2.signed h2.not_X h2.ne_nil b
    -- A condition that selects the arm with the bit.
    have hpick : ∀ t : Bool, (conditionLoop .ZERO op0.bitstring).Agrees t →
        bitAt (if t = true then x else y) i = b →
          ∃ v : Int × Int × Int, (Describes op0.signed op0.bitstring v.1 ∧
            Describes op1.signed op1.bitstring v.2.1 ∧ Describes op2.signed op2.bitstring v.2.2) ∧
              bitAt (if v.1 ≠ 0 then v.2.1 else v.2.2) i = b := by
      intro t ht hbit
      obtain ⟨c, hc, hct⟩ := exists_condition h0 ht
      refine ⟨(c, x, y), ⟨hc, hx, hy⟩, ?_⟩
      simp only [hct]
      exact hbit
    unfold selectPosition at hb
    cases hcond : conditionLoop .ZERO op0.bitstring with
    | ZERO =>
      rw [hcond] at hb hpick
      exact hpick false rfl (hby i hb)
    | ONE =>
      rw [hcond] at hb hpick
      exact hpick true rfl (hbx i hb)
    | X => exact absurd hcond (conditionLoop_ne_X _)
    | U =>
      rw [hcond] at hb hpick
      rcases agrees_of_bitInf (position_ne_X h1.not_X h1.ne_nil i)
        (position_ne_X h2.not_X h2.ne_nil i) hb with hb | hb
      · exact hpick true trivial (hbx i hb)
      · exact hpick false trivial (hby i hb)

end Select

/-- The statements whose result the transfer gets right: all but a `select` whose result stops
short of the word, and repeats there what the operands do not have. -/
def Move.Covers (lhs_signed : Bool) (lhs_size : Nat) : Move BitwiseOperand → Prop
  | .select op0 op1 op2 =>
    let selected := selectPosition op0.toOperand op1.toOperand op2.toOperand
    let length := selectLength op0.toOperand op1.toOperand op2.toOperand
    ∀ i, length ≤ i → i < lhs_size →
      Allows (signBit lhs_signed (selected (length - 1))) (selected i)
  | _ => True

/-- Forward transfer of conversions, `abs`, `max`, `min` and `select` is sound for the statements
that it covers, and for no others. -/
theorem forward_move_sound_iff (lhs_signed : Bool) {lhs_bool : Bool} {lhs_size : Nat}
    (hsize : 0 < lhs_size) (hbool : lhs_bool = true → lhs_size = 1) (stmt : Move BitwiseOperand)
    (hknown : ∀ o ∈ stmt.operands, o.toOperand.IsKnown)
    (htyped : stmt.WellTyped lhs_signed lhs_bool lhs_size) :
    (∀ run : Move (BitwiseOperand × Int), run.map Prod.fst = stmt →
        (∀ o ∈ run.operands, Describes o.1.signed o.1.bitstring o.2) →
          Describes lhs_signed (stmt.forwardTransfer lhs_signed lhs_bool lhs_size)
            (readWord lhs_signed lhs_size (run.map Prod.snd).value)) ↔
      stmt.Covers lhs_signed lhs_size := by
  cases stmt
  case select op0 op1 op2 =>
    simp only [Move.operands, List.forall_mem_cons] at hknown
    obtain ⟨h0, h1, h2, -⟩ := hknown
    refine Iff.trans ?_ ((forwardSelect_iff lhs_signed hsize hbool h0 h1 h2
      htyped.1 htyped.2).trans ?_)
    · constructor
      · intro hall c x y hc hx hy
        exact hall (.select (op0, c) (op1, x) (op2, y)) rfl (by
          simp only [Move.operands, List.forall_mem_cons]
          exact ⟨hc, hx, hy, List.forall_mem_nil _⟩)
      · intro hall run hrun hdesc
        cases run <;> simp only [Move.map, reduceCtorEq, Move.select.injEq] at hrun
        obtain ⟨rfl, rfl, rfl⟩ := hrun
        simp only [Move.operands, List.forall_mem_cons] at hdesc
        exact hall _ _ _ hdesc.1 hdesc.2.1 hdesc.2.2.1
    · unfold Move.Covers wordPosition
      dsimp only
      constructor
      · intro hall i hi hiw
        have hpos := hall i hiw
        rwa [if_neg (by omega)] at hpos
      · intro hall i hiw
        split
        case isTrue => exact .inr rfl
        case isFalse hi => exact hall i (Nat.not_lt.mp hi) hiw
  all_goals
    refine iff_of_true (fun run hrun hdesc => ?_) trivial
    cases run <;> simp only [Move.map, reduceCtorEq, Move.nop.injEq, Move.bitcast.injEq,
      Move.abs.injEq, Move.max.injEq, Move.min.injEq] at hrun
    simp only [Move.operands, List.forall_mem_cons] at hdesc
  case nop op =>
    subst hrun
    exact forwardNop_sound hsize hdesc.1
  case bitcast op =>
    subst hrun
    exact forwardNop_sound hsize hdesc.1
  case abs op =>
    subst hrun
    obtain ⟨rfl, hsame⟩ := htyped
    have hx := hdesc.1
    rw [hsame.signed] at hx
    exact forwardAbs_sound hsize hbool hsame.length hx
  case max op0 op1 =>
    obtain ⟨rfl, rfl⟩ := hrun
    exact forwardExtremum_sound hsize hbool htyped.1 htyped.2 hdesc.1 hdesc.2.1 (max_choice _ _)
  case min op0 op1 =>
    obtain ⟨rfl, rfl⟩ := hrun
    exact forwardExtremum_sound hsize hbool htyped.1 htyped.2 hdesc.1 hdesc.2.1 (min_choice _ _)

/-- An unknown condition selects from `-1` and `3` in a signed word. -/
theorem forward_move_sound_select :
    Describes true ((Move.select ⟨⟨false, [.U]⟩, true⟩ ⟨⟨true, [.ONE]⟩, false⟩
      ⟨⟨false, [.ZERO, .ONE, .ONE]⟩, false⟩).forwardTransfer true false 8) (readWord true 8 3) :=
  (forward_move_sound_iff true (by decide) (by decide) (.select
    ⟨⟨false, [.U]⟩, true⟩ ⟨⟨true, [.ONE]⟩, false⟩ ⟨⟨false, [.ZERO, .ONE, .ONE]⟩, false⟩)
    (by
      simp only [Move.operands, List.forall_mem_cons]
      exact ⟨⟨by decide, by decide⟩, ⟨by decide, by decide⟩, ⟨by decide, by decide⟩,
        List.forall_mem_nil _⟩)
    ⟨by decide, by decide⟩).mpr
    (fun _ _ _ => .inl (by decide))
    (.select (⟨⟨false, [.U]⟩, true⟩, 0) (⟨⟨true, [.ONE]⟩, false⟩, -1)
      (⟨⟨false, [.ZERO, .ONE, .ONE]⟩, false⟩, 3)) rfl (by decide)

/-- A condition that holds selects `-1`, which is 255 in an unsigned word of eight bits; its
bitstring says 1 there. -/
theorem forward_move_unsound :
    Describes false [.ONE] 1 ∧ Describes true [.ONE] (-1) ∧ Describes false [.ZERO] 0 ∧
      readWord false 8 (Move.select 1 (-1) 0).value = 255 ∧
      (Move.select ⟨⟨false, [.ONE]⟩, true⟩ ⟨⟨true, [.ONE]⟩, false⟩
        ⟨⟨false, [.ZERO]⟩, false⟩).forwardTransfer false false 8 = [.ONE] ∧
      ¬ Describes false ((Move.select ⟨⟨false, [.ONE]⟩, true⟩ ⟨⟨true, [.ONE]⟩, false⟩
        ⟨⟨false, [.ZERO]⟩, false⟩).forwardTransfer false false 8)
          (readWord false 8 (Move.select 1 (-1) 0).value) := by decide

end Bambu.BitValue
