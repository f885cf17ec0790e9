/-
  Bambu.IRAnalysis.BitValue.NodeMaps

  The tables of `Bit_Value_forward.cpp` and the loop that runs two bitstrings through
  one of them, from the last position to the front.

  Each table follows a full adder or a full subtractor in every row without `X`
  (`simulates_addNodeMap`, `simulates_subNodeMap`), so that the loop keeps what is known
  of the bits of the sum or of the difference.
-/

import Bambu.Utility.BitLattice

namespace Bambu.BitValue

open Bambu.Math BitLattice

/-! ## Tables -/

/-- The keys under which the tables of sums and differences are read last, and what is
carried to the next position: `X` is neither. -/
inductive Carry where
  | ZERO
  | ONE
  | U
  deriving DecidableEq, Repr

def Carry.toBit : Carry → BitLattice
  | .ZERO => .ZERO
  | .ONE => .ONE
  | .U => .U

/-- From two positions and the carry to the next carry and the position of the result. -/
abbrev NodeMap := BitLattice → BitLattice → Carry → Carry × BitLattice

def addNodeMap : NodeMap
  | .X, .X, .ZERO => (.ZERO, .X)
  | .X, .X, .ONE => (.ZERO, .X)
  | .X, .X, .U => (.ZERO, .X)
  | .X, .ZERO, .ZERO => (.ZERO, .ZERO)
  | .X, .ZERO, .ONE => (.ZERO, .ONE)
  | .X, .ZERO, .U => (.ZERO, .U)
  | .X, .ONE, .ZERO => (.ZERO, .ONE)
  | .X, .ONE, .ONE => (.ONE, .ZERO)
  | .X, .ONE, .U => (.U, .U)
  | .X, .U, .ZERO => (.ZERO, .U)
  | .X, .U, .ONE => (.U, .U)
  | .X, .U, .U => (.U, .U)
  | .ZERO, .X, .ZERO => (.ZERO, .ZERO)
  | .ZERO, .X, .ONE => (.ZERO, .ONE)
  | .ZERO, .X, .U => (.ZERO, .U)
  | .ZERO, .ZERO, .ZERO => (.ZERO, .ZERO)
  | .ZERO, .ZERO, .ONE => (.ZERO, .ONE)
  | .ZERO, .ZERO, .U => (.ZERO, .U)
  | .ZERO, .ONE, .ZERO => (.ZERO, .ONE)
  | .ZERO, .ONE, .ONE => (.ONE, .ZERO)
  | .ZERO, .ONE, .U => (.U, .U)
  | .ZERO, .U, .ZERO => (.ZERO, .U)
  | .ZERO, .U, .ONE => (.U, .U)
  | .ZERO, .U, .U => (.U, .U)
  | .ONE, .X, .ZERO => (.ZERO, .ONE)
  | .ONE, .X, .ONE => (.ONE, .ZERO)
  | .ONE, .X, .U => (.U, .U)
  | .ONE, .ZERO, .ZERO => (.ZERO, .ONE)
  | .ONE, .ZERO, .ONE => (.ONE, .ZERO)
  | .ONE, .ZERO, .U => (.U, .U)
  | .ONE, .ONE, .ZERO => (.ONE, .ZERO)
  | .ONE, .ONE, .ONE => (.ONE, .ONE)
  | .ONE, .ONE, .U => (.ONE, .U)
  | .ONE, .U, .ZERO => (.U, .U)
  | .ONE, .U, .ONE => (.ONE, .U)
  | .ONE, .U, .U => (.U, .U)
  | .U, .X, .ZERO => (.ZERO, .U)
  | .U, .X, .ONE => (.U, .U)
  | .U, .X, .U => (.U, .U)
  | .U, .ZERO, .ZERO => (.ZERO, .U)
  | .U, .ZERO, .ONE => (.U, .U)
  | .U, .ZERO, .U => (.U, .U)
  | .U, .ONE, .ZERO => (.U, .U)
  | .U, .ONE, .ONE => (.ONE, .U)
  | .U, .ONE, .U => (.U, .U)
  | .U, .U, .ZERO => (.U, .U)
  | .U, .U, .ONE => (.U, .U)
  | .U, .U, .U => (.U, .U)

def subNodeMap : NodeMap
  | .X, .X, .ZERO => (.ZERO, .X)
  | .X, .X, .ONE => (.ZERO, .X)
  | .X, .X, .U => (.ZERO, .X)
  | .X, .ZERO, .ZERO => (.ZERO, .ZERO)
  | .X, .ZERO, .ONE => (.ZERO, .ZERO)
  | .X, .ZERO, .U => (.ZERO, .ZERO)
  | .X, .ONE, .ZERO => (.ZERO, .ZERO)
  | .X, .ONE, .ONE => (.ONE, .ZERO)
  | .X, .ONE, .U => (.U, .U)
  | .X, .U, .ZERO => (.ZERO, .ZERO)
  | .X, .U, .ONE => (.ZERO, .U)
  | .X, .U, .U => (.U, .U)
  | .ZERO, .X, .ZERO => (.ZERO, .ZERO)
  | .ZERO, .X, .ONE => (.ZERO, .ONE)
  | .ZERO, .X, .U => (.U, .U)
  | .ZERO, .ZERO, .ZERO => (.ZERO, .ZERO)
  | .ZERO, .ZERO, .ONE => (.ONE, .ONE)
  | .ZERO, .ZERO, .U => (.U, .U)
  | .ZERO, .ONE, .ZERO => (.ONE, .ONE)
  | .ZERO, .ONE, .ONE => (.ONE, .ZERO)
  | .ZERO, .ONE, .U => (.ONE, .U)
  | .ZERO, .U, .ZERO => (.U, .U)
  | .ZERO, .U, .ONE => (.ONE, .U)
  | .ZERO, .U, .U => (.U, .U)
  | .ONE, .X, .ZERO => (.ZERO, .ZERO)
  | .ONE, .X, .ONE => (.ZERO, .ZERO)
  | .ONE, .X, .U => (.ZERO, .U)
  | .ONE, .ZERO, .ZERO => (.ZERO, .ONE)
  | .ONE, .ZERO, .ONE => (.ZERO, .ZERO)
  | .ONE, .ZERO, .U => (.ZERO, .U)
  | .ONE, .ONE, .ZERO => (.ZERO, .ZERO)
  | .ONE, .ONE, .ONE => (.ONE, .ONE)
  | .ONE, .ONE, .U => (.U, .U)
  | .ONE, .U, .ZERO => (.ZERO, .U)
  | .ONE, .U, .ONE => (.U, .U)
  | .ONE, .U, .U => (.U, .U)
  | .U, .X, .ZERO => (.ZERO, .U)
  | .U, .X, .ONE => (.U, .U)
  | .U, .X, .U => (.U, .U)
  | .U, .ZERO, .ZERO => (.ZERO, .U)
  | .U, .ZERO, .ONE => (.U, .U)
  | .U, .ZERO, .U => (.U, .U)
  | .U, .ONE, .ZERO => (.U, .U)
  | .U, .ONE, .ONE => (.ONE, .U)
  | .U, .ONE, .U => (.U, .U)
  | .U, .U, .ZERO => (.U, .U)
  | .U, .U, .ONE => (.U, .U)
  | .U, .U, .U => (.U, .U)

def andNodeMap : BitLattice → BitLattice → BitLattice
  | .ZERO, .ZERO => .ZERO
  | .ZERO, .ONE => .ZERO
  | .ZERO, .U => .ZERO
  | .ZERO, .X => .ZERO
  | .ONE, .ZERO => .ZERO
  | .ONE, .ONE => .ONE
  | .ONE, .U => .U
  | .ONE, .X => .X
  | .U, .ZERO => .ZERO
  | .U, .ONE => .U
  | .U, .U => .U
  | .U, .X => .X
  | .X, .ZERO => .ZERO
  | .X, .ONE => .X
  | .X, .U => .X
  | .X, .X => .X

/-- The carry may be `b`. -/
def Carry.Agrees (c : Carry) (b : Bool) : Prop := c.toBit.Agrees b

instance (c : Carry) (b : Bool) : Decidable (c.Agrees b) :=
  inferInstanceAs (Decidable (c.toBit.Agrees b))

theorem simulates_addNodeMap :
    Simulates BitLattice.Agrees Carry.Agrees addNodeMap fullAdder := by
  intro a b c
  cases a <;> cases b <;> cases c <;> decide

theorem simulates_subNodeMap :
    Simulates BitLattice.Agrees Carry.Agrees subNodeMap fullSubtractor := by
  intro a b c
  cases a <;> cases b <;> cases c <;> decide

/-- A table in which a carry that a pair passes on is passed on again settles in each row. -/
theorem settles_addNodeMap : Settles addNodeMap := by
  intro a b c
  cases a <;> cases b <;> cases c <;> rfl

theorem settles_subNodeMap : Settles subNodeMap := by
  intro a b c
  cases a <;> cases b <;> cases c <;> rfl

theorem agrees_andNodeMap {a b : BitLattice} {a' b' : Bool} (ha : a.Agrees a') (hb : b.Agrees b') :
    (andNodeMap a b).Agrees (a' && b') := by
  revert a' b'
  cases a <;> cases b <;> decide

theorem subNodeMap_zero_zero (c : Carry) : subNodeMap .ZERO .ZERO c = (c, c.toBit) := by
  cases c <;> rfl

/-! ## The loop -/

/-- The loop over two bitstrings read from the last position, for at most `size` positions. -/
def rippleLoop (nodeMap : NodeMap) : Nat → Bitstring → Bitstring → Carry → Bitstring →
    Bitstring × Carry
  | size + 1, op0 :: op0s, op1 :: op1s, carry, res =>
    rippleLoop nodeMap size op0s op1s (nodeMap op0 op1 carry).1 ((nodeMap op0 op1 carry).2 :: res)
  | _, _, _, carry, res => (res, carry)

def ripple (nodeMap : NodeMap) (size : Nat) (op0 op1 : Bitstring) : Bitstring × Carry :=
  rippleLoop nodeMap size op0.reverse op1.reverse .ZERO []

/-- `while(res.size() < lhs_size)`: the carry goes on through positions where both operands
are zero. -/
def fillLoop (nodeMap : NodeMap) : Nat → Carry → Bitstring → Bitstring
  | 0, _, res => res
  | count + 1, carry, res =>
    fillLoop nodeMap count (nodeMap .ZERO .ZERO carry).1 ((nodeMap .ZERO .ZERO carry).2 :: res)

/-- `res` holds the positions that `f` gives. -/
def Holds (f : Nat → BitLattice) (res : Bitstring) : Prop :=
  ∀ i < res.length, position false res i = f i

theorem Holds.push {f : Nat → BitLattice} {res : Bitstring} (h : Holds f res) {t : BitLattice}
    (ht : t = f res.length) : Holds f (t :: res) := by
  intro i hi
  rcases Nat.lt_or_eq_of_le (Nat.le_of_lt_succ hi) with hlt | rfl
  · rw [position_cons_lt hlt]
    exact h i hlt
  · rw [position_cons_length, ht]

section Loop

variable {nodeMap : NodeMap} {a b : Nat → BitLattice}

/-- The state of the loop after some positions: what it has written, and the carry. -/
def Running (nodeMap : NodeMap) (a b : Nat → BitLattice) (s : Bitstring × Carry) : Prop :=
  Holds (sumAt nodeMap a b .ZERO) s.1 ∧ s.2 = carryAt nodeMap a b .ZERO s.1.length

theorem Running.step {res : Bitstring} {carry : Carry} (h : Running nodeMap a b (res, carry)) :
    Running nodeMap a b ((nodeMap (a res.length) (b res.length) carry).2 :: res,
      (nodeMap (a res.length) (b res.length) carry).1) := by
  obtain ⟨hres, hcarry⟩ := h
  dsimp only at hcarry
  subst hcarry
  exact ⟨hres.push rfl, rfl⟩

theorem rippleLoop_spec (size : Nat) {op0s op1s res : Bitstring} {carry : Carry}
    (h0 : ∀ (j : Nat) (hj : j < op0s.length), op0s[j] = a (res.length + j))
    (h1 : ∀ (j : Nat) (hj : j < op1s.length), op1s[j] = b (res.length + j))
    (h : Running nodeMap a b (res, carry)) :
    Running nodeMap a b (rippleLoop nodeMap size op0s op1s carry res) ∧
      (rippleLoop nodeMap size op0s op1s carry res).1.length =
        res.length + min size (min op0s.length op1s.length) := by
  induction size generalizing op0s op1s res carry with
  | zero => exact ⟨h, by simp [rippleLoop]⟩
  | succ size ih =>
    cases op0s with
    | nil => exact ⟨h, by simp [rippleLoop]⟩
    | cons op0 op0s =>
      cases op1s with
      | nil => exact ⟨h, by simp [rippleLoop]⟩
      | cons op1 op1s =>
        have ha : op0 = a res.length := h0 0 (Nat.zero_lt_succ _)
        have hb : op1 = b res.length := h1 0 (Nat.zero_lt_succ _)
        have hstep := h.step
        rw [← ha, ← hb] at hstep
        obtain ⟨hrun, hlen⟩ := ih
          (fun j hj => by
            rw [List.length_cons, Nat.add_right_comm]
            exact h0 (j + 1) (Nat.succ_lt_succ hj))
          (fun j hj => by
            rw [List.length_cons, Nat.add_right_comm]
            exact h1 (j + 1) (Nat.succ_lt_succ hj)) hstep
        refine ⟨hrun, hlen.trans ?_⟩
        simp only [List.length_cons]
        omega

theorem ripple_spec (nodeMap : NodeMap) (signed : Bool) (size : Nat) (op0 op1 : Bitstring) :
    Running nodeMap (position signed op0) (position signed op1) (ripple nodeMap size op0 op1) ∧
      (ripple nodeMap size op0 op1).1.length = min size (min op0.length op1.length) := by
  have hget : ∀ (op : Bitstring) (j : Nat) (hj : j < op.reverse.length),
      op.reverse[j] = position signed op (([] : Bitstring).length + j) := fun op j hj => by
    rw [List.length_nil, Nat.zero_add]
    exact (position_eq_getElem_reverse signed hj).symm
  have hempty : Running nodeMap (position signed op0) (position signed op1) ([], .ZERO) :=
    ⟨fun i hi => absurd hi (Nat.not_lt_zero i), rfl⟩
  obtain ⟨hrun, hlen⟩ := rippleLoop_spec size (hget op0) (hget op1) hempty
  refine ⟨hrun, hlen.trans ?_⟩
  rw [List.length_nil, Nat.zero_add, List.length_reverse, List.length_reverse]

theorem length_fillLoop (nodeMap : NodeMap) (count : Nat) (carry : Carry) (res : Bitstring) :
    (fillLoop nodeMap count carry res).length = res.length + count := by
  induction count generalizing carry res with
  | zero => rfl
  | succ count ih =>
    unfold fillLoop
    rw [ih, List.length_cons]
    omega

theorem fillLoop_holds (count : Nat) {carry : Carry} {res : Bitstring}
    (ha : ∀ i, res.length ≤ i → a i = .ZERO) (hb : ∀ i, res.length ≤ i → b i = .ZERO)
    (h : Running nodeMap a b (res, carry)) :
    Holds (sumAt nodeMap a b .ZERO) (fillLoop nodeMap count carry res) := by
  induction count generalizing carry res with
  | zero => exact h.1
  | succ count ih =>
    have hstep := h.step
    rw [ha _ le_rfl, hb _ le_rfl] at hstep
    have hnext : res.length ≤ ((nodeMap .ZERO .ZERO carry).2 :: res).length := Nat.le_succ _
    exact ih (fun i hi => ha i (hnext.trans hi)) (fun i hi => hb i (hnext.trans hi)) hstep

end Loop

/-- The positions above `res` are those of the word if the digits repeat there. -/
theorem Holds.word {signed : Bool} {w : Nat} {f : Nat → BitLattice} {res : Bitstring}
    (h : Holds f res) (hpos : 0 < res.length) (hle : res.length ≤ w)
    (hrep : ∀ i, res.length ≤ i → i < w → f i = signBit signed (f (res.length - 1))) (i : Nat) :
    position signed res i = wordPosition signed w f i := by
  unfold wordPosition
  cases res with
  | nil => exact absurd hpos (Nat.lt_irrefl 0)
  | cons front rest =>
    have hfront : front = f rest.length := by
      rw [← h rest.length (Nat.lt_succ_self _), position_cons_length]
    rw [List.length_cons, Nat.add_sub_cancel, ← hfront] at hrep
    rw [List.length_cons] at hle
    by_cases hi : i < (front :: rest).length
    · rw [position_of_lt signed false hi, h i hi, if_pos (lt_of_lt_of_le hi hle)]
    · rw [position_cons_gt (Nat.not_lt.mp hi)]
      split
      case isTrue hw => exact (hrep i (Nat.not_lt.mp hi) hw).symm
      case isFalse =>
        rcases Nat.eq_or_lt_of_le hle with rfl | hlt
        · rw [Nat.add_sub_cancel, hfront]
        · rw [hrep (w - 1) (by omega) (by omega)]
          cases signed <;> rfl

/-- A result that is cut to the word holds its positions, whatever the operands. -/
theorem Holds.word_full {signed : Bool} {w : Nat} {f : Nat → BitLattice} {res : Bitstring}
    (h : Holds f res) (hw : 0 < w) (hlen : res.length = w) (i : Nat) :
    position signed res i = wordPosition signed w f i :=
  h.word (by omega) hlen.le (fun _ hi hlt => absurd hlt (by omega)) i

end Bambu.BitValue
