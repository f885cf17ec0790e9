/-
  Bambu.IRAnalysis.BitValue.Mul

  Forward transfer of `mul` and `widen_mul`: shift and add, on as many positions as the
  two operands have together, or as the word has.

  The loop computes the product modulo its width (`mulLoop_spec`).  The width is enough
  for the product of two operands that fit their bitstrings (`fits_mul`); an operand of
  unknown sign makes the front of the result unknown, unless the product is zero
  (`mulLoop_top`).
-/

import Bambu.IRAnalysis.BitValue.Additive

namespace Bambu.BitValue

open Bambu.Math BitLattice

/-! ## The source -/

/-- The partial product of `op0` and position `pos` of the other operand: zeros, and on them
the positions of `op0` that are left. -/
def partialProduct (res_bitsize : Nat) (op0 : Bitstring) (pos : Nat) (bit : BitLattice) :
    Bitstring :=
  (op0.reverse.take (res_bitsize - pos)).foldl (fun temp_op1 t => andNodeMap t bit :: temp_op1)
    (List.replicate pos .ZERO)

/-- The loop over the second operand, read from its last position. -/
def mulLoop (res_bitsize : Nat) (op0 : Bitstring) : Bitstring → Nat → Bitstring → Bitstring
  | [], _, res => res
  | bit :: op1s, pos, res =>
    if pos < res_bitsize then
      mulLoop res_bitsize op0 op1s (pos + 1)
        (ripple addNodeMap res_bitsize (partialProduct res_bitsize op0 pos bit) res).1
    else res

/-- `mul_node` and `widen_mul_node` -/
def forwardMul (lhs_size : Nat) (op0_signed op1_signed : Bool) (op0 op1 : Bitstring) : Bitstring :=
  let res_bitsize := min (op0.length + op1.length) lhs_size
  let op0 := truncateTo (extendTo op0 op0_signed res_bitsize) res_bitsize
  let op1 := truncateTo (extendTo op1 op1_signed res_bitsize) res_bitsize
  mulLoop res_bitsize op0 op1.reverse 0 (List.replicate res_bitsize .ZERO)

example : forwardMul 8 false false [.ONE, .ONE] [.ONE, .U] = [.U, .U, .U, .U] := by decide

/-! ## Operands of the loop -/

section Operand

variable {signed : Bool} {b : Bitstring} {x : Int}

/-- An operand brought to the width of the result. -/
theorem resize_spec (h : Describes signed b x) (size : Nat) :
    (truncateTo (extendTo b signed size) size).length = size ∧
      ∀ i < size, position signed (truncateTo (extendTo b signed size) size) i =
        position signed b i := by
  have hl : (truncateTo (extendTo b signed size) size).length = size := by
    unfold truncateTo
    rw [List.length_drop, length_extendTo _ h.ne_nil]
    omega
  refine ⟨hl, fun i hi => ?_⟩
  rw [← hl] at hi
  unfold truncateTo at hi ⊢
  rw [position_drop _ hi]
  exact position_extendTo h.not_mem_X h.ne_nil size i

end Operand

/-! ## Partial products -/

theorem Holds.foldl_push {f : Nat → BitLattice} {g : BitLattice → BitLattice} (ts : Bitstring)
    {res : Bitstring} (h : Holds f res)
    (hts : ∀ (j : Nat) (hj : j < ts.length), g ts[j] = f (res.length + j)) :
    Holds f (ts.foldl (fun temp t => g t :: temp) res) ∧
      (ts.foldl (fun temp t => g t :: temp) res).length = res.length + ts.length := by
  induction ts generalizing res with
  | nil => exact ⟨h, rfl⟩
  | cons t ts ih =>
    have ht : g t = f res.length := hts 0 (Nat.zero_lt_succ _)
    obtain ⟨hres, hlen⟩ := ih (h.push ht) fun j hj => by
      rw [List.length_cons, Nat.add_right_comm]
      exact hts (j + 1) (Nat.succ_lt_succ hj)
    refine ⟨hres, hlen.trans ?_⟩
    simp only [List.length_cons]
    omega

/-- The digits of a partial product. -/
def productAt (a : Nat → BitLattice) (pos : Nat) (bit : BitLattice) (i : Nat) : BitLattice :=
  if i < pos then .ZERO else andNodeMap (a (i - pos)) bit

theorem partialProduct_spec (signed : Bool) {size pos : Nat} {op0 : Bitstring}
    (hl : op0.length = size) (hpos : pos ≤ size) (bit : BitLattice) :
    Holds (productAt (position signed op0) pos bit) (partialProduct size op0 pos bit) ∧
      (partialProduct size op0 pos bit).length = size := by
  have hzeros : Holds (productAt (position signed op0) pos bit) (List.replicate pos .ZERO) := by
    intro i hi
    rw [List.length_replicate] at hi
    unfold productAt
    rw [if_pos hi]
    exact position_replicate_zero (by omega) i
  obtain ⟨hres, hlen⟩ := hzeros.foldl_push (g := fun t => andNodeMap t bit)
    (op0.reverse.take (size - pos)) fun j hj => by
      rw [List.length_take, List.length_reverse] at hj
      rw [List.length_replicate, List.getElem_take,
        ← position_eq_getElem_reverse signed (by rw [List.length_reverse]; omega)]
      unfold productAt
      rw [if_neg (by omega), Nat.add_sub_cancel_left]
  refine ⟨hres, hlen.trans ?_⟩
  rw [List.length_take, List.length_reverse, List.length_replicate]
  omega

/-- They are digits of the shifted number, or of zero. -/
theorem agrees_productAt {a : Nat → BitLattice} {x : Int} {bit : BitLattice} {c : Bool}
    (pos i : Nat)
    (ha : ∀ j < i + 1, (a j).Agrees (bitAt x j)) (hbit : bit.Agrees c) :
    (productAt a pos bit i).Agrees (bitAt (x * c.toNat * 2 ^ pos) i) := by
  unfold productAt
  split
  case isTrue hi => exact bitAt_mul_two_pow_lt hi
  case isFalse hi =>
    obtain ⟨d, rfl⟩ := Nat.exists_eq_add_of_le (Nat.not_lt.mp hi)
    rw [Nat.add_sub_cancel_left, bitAt_mul_two_pow]
    have hand := agrees_andNodeMap (ha d (by omega)) hbit
    cases c with
    | false =>
      rw [Bool.and_false] at hand
      rw [Bool.toNat_false, Nat.cast_zero, mul_zero, bitAt_zero]
      exact hand
    | true =>
      rw [Bool.and_true] at hand
      rw [Bool.toNat_true, Nat.cast_one, mul_one]
      exact hand

theorem Describes.partialProduct {signed : Bool} {size pos : Nat} {op0 : Bitstring} {x : Int}
    {bit : BitLattice} {c : Bool} (hsize : 0 < size) (hl : op0.length = size) (hpos : pos ≤ size)
    (h : ∀ i < size, (position signed op0 i).Agrees (bitAt x i)) (hbit : bit.Agrees c) :
    Describes false (partialProduct size op0 pos bit)
      (readWord false size (x * c.toNat * 2 ^ pos)) := by
  obtain ⟨hholds, hlen⟩ := partialProduct_spec signed hl hpos bit
  exact describes_readWord hsize (hholds.word_full hsize hlen) fun i hi =>
    agrees_productAt pos i (fun j hj => h j (by omega)) hbit

/-! ## The loop -/

section Loop

variable {signed : Bool} {size pos : Nat} {op0 op1s res : Bitstring} {x y : Int}

/-- On operands that fill the word the sum is what the loop over them writes. -/
theorem ripple_eq_additive (nodeMap : NodeMap) {op1 : Bitstring} (h0 : op0.length = size)
    (h1 : op1.length = size) :
    (ripple nodeMap size op0 op1).1 = additive nodeMap false size op0 op1 ∧
      (ripple nodeMap size op0 op1).1.length = size := by
  obtain ⟨-, hl⟩ := ripple_spec nodeMap false size op0 op1
  rw [h0, h1, min_self, min_self] at hl
  refine ⟨?_, hl⟩
  unfold additive
  generalize ripple nodeMap size op0 op1 = s at hl ⊢
  obtain ⟨res, carry⟩ := s
  dsimp only at hl ⊢
  rw [if_neg (fun h => Bool.false_ne_true h.1), if_pos Bool.false_ne_true, hl, Nat.sub_self]
  rfl

/-- After `pos` positions the result is the product with as many bits of the other operand. -/
theorem mulLoop_spec (signed : Bool) (hsize : 0 < size) (hl : op0.length = size)
    (h0 : ∀ i < size, (position signed op0 i).Agrees (bitAt x i))
    (hcount : pos + op1s.length = size)
    (h1 : ∀ (j : Nat) (hj : j < op1s.length), op1s[j].Agrees (bitAt y (pos + j)))
    (hres : Describes false res (readWord false size (x * (y % 2 ^ pos))))
    (hlen : res.length = size) :
    Describes false (mulLoop size op0 op1s pos res) (readWord false size (x * (y % 2 ^ size))) ∧
      (mulLoop size op0 op1s pos res).length = size := by
  induction op1s generalizing pos res with
  | nil =>
    rw [List.length_nil, Nat.add_zero] at hcount
    subst hcount
    exact ⟨hres, hlen⟩
  | cons bit op1s ih =>
    rw [List.length_cons] at hcount
    have hbit := h1 0 (Nat.zero_lt_succ _)
    have hpart := Describes.partialProduct hsize hl (by omega : pos ≤ size) h0 hbit
    obtain ⟨-, hplen⟩ := partialProduct_spec signed hl (by omega : pos ≤ size) bit
    obtain ⟨hadd, hrlen⟩ := ripple_eq_additive addNodeMap hplen hlen
    have hsum := Describes.additive implements_addNodeMap hsize (.inl (hplen.trans hlen.symm))
      hpart hres
    unfold mulLoop
    rw [if_pos (by omega)]
    refine ih (by omega) (fun j hj => ?_) ?_ hrlen
    · rw [Nat.add_assoc, Nat.add_comm 1 j]
      exact h1 (j + 1) (Nat.succ_lt_succ hj)
    · rw [hadd]
      have hmod : x * ((bitAt y pos).toNat : Int) * 2 ^ pos + x * (y % 2 ^ pos) =
          x * (y % 2 ^ (pos + 1)) := by
        rw [emod_two_pow_succ', toNat_bitAt]
        ring
      rw [← hmod, ← readWord_congr ((readWord_modEq false size _).add (readWord_modEq false size _))]
      exact hsum

theorem addNodeMap_U_left (b : BitLattice) (c : Carry) : (addNodeMap .U b c).2 = .U := by
  cases b <;> cases c <;> rfl

theorem addNodeMap_U_right (a : BitLattice) (c : Carry) : (addNodeMap a .U c).2 = .U := by
  cases a <;> cases c <;> rfl

/-- A position of the sum is unknown where one of the operands is. -/
theorem position_ripple_U {op1 : Bitstring} {i : Nat} (h0 : op0.length = size)
    (h1 : op1.length = size) (hi : i < size)
    (hU : position false op0 i = .U ∨ position false op1 i = .U) :
    position false (ripple addNodeMap size op0 op1).1 i = .U := by
  obtain ⟨⟨hholds, -⟩, hl⟩ := ripple_spec addNodeMap false size op0 op1
  rw [hholds i (by omega)]
  unfold sumAt
  rcases hU with hU | hU
  · rw [hU, addNodeMap_U_left]
  · rw [hU, addNodeMap_U_right]

/-- The front of the product is unknown as soon as that of one partial product is. -/
theorem mulLoop_top (signed : Bool) (hsize : 0 < size) (hl : op0.length = size)
    (hcount : pos + op1s.length = size) (hlen : res.length = size)
    (hU : position false res (size - 1) = .U ∨
      ∃ (j : Nat) (hj : j < op1s.length),
        andNodeMap (position signed op0 (size - 1 - (pos + j))) op1s[j] = .U) :
    position false (mulLoop size op0 op1s pos res) (size - 1) = .U := by
  induction op1s generalizing pos res with
  | nil =>
    rcases hU with hU | ⟨j, hj, -⟩
    · exact hU
    · exact absurd hj (Nat.not_lt_zero j)
  | cons bit op1s ih =>
    rw [List.length_cons] at hcount
    obtain ⟨hpart, hplen⟩ := partialProduct_spec signed hl (by omega : pos ≤ size) bit
    obtain ⟨-, hrlen⟩ := ripple_eq_additive addNodeMap hplen hlen
    unfold mulLoop
    rw [if_pos (by omega)]
    refine ih (by omega) hrlen ?_
    rcases hU with hU | ⟨j, hj, hU⟩
    · exact .inl (position_ripple_U hplen hlen (by omega) (.inr hU))
    · cases j with
      | zero =>
        refine .inl (position_ripple_U hplen hlen (by omega) (.inl ?_))
        rw [hpart _ (by omega)]
        unfold productAt
        rw [if_neg (by omega)]
        exact hU
      | succ j =>
        refine .inr ⟨j, Nat.lt_of_succ_lt_succ hj, ?_⟩
        rw [Nat.add_assoc, Nat.add_comm 1 j]
        exact hU

end Loop

/-! ## The product -/

section Product

variable {lhs_signed s0 s1 : Bool} {lhs_size n0 n1 : Nat} {op0 op1 : Bitstring} {x y : Int}

/-- The product of two numbers fits their lengths together, signed if one of them is. -/
theorem fits_mul (hn0 : 0 < n0) (hn1 : 0 < n1) (hx : Fits s0 n0 x) (hy : Fits s1 n1 y) :
    Fits (s0 || s1) (n0 + n1) (x * y) := by
  obtain ⟨k0, rfl⟩ := Nat.exists_eq_add_of_lt hn0
  obtain ⟨k1, rfl⟩ := Nat.exists_eq_add_of_lt hn1
  have hp0 : (0 : Int) < 2 ^ k0 := by positivity
  have hp1 : (0 : Int) < 2 ^ k1 := by positivity
  have hlen : 0 + k0 + 1 + (0 + k1 + 1) = k0 + k1 + 1 + 1 := by omega
  rw [hlen]
  unfold Fits at *
  simp only [zero_add, Nat.add_sub_cancel, pow_succ, pow_add] at hx hy ⊢
  generalize (2 : Int) ^ k0 = p at *
  generalize (2 : Int) ^ k1 = q at *
  have hpq := mul_pos hp0 hp1
  cases s0 <;> cases s1
  · -- Neither is signed.
    obtain ⟨⟨hx0, hx1⟩, hy0, hy1⟩ := And.intro hx hy
    have h := mul_lt_mul'' hx1 hy1 hx0 hy0
    exact ⟨mul_nonneg hx0 hy0, by linarith⟩
  · obtain ⟨⟨hx0, hx1⟩, hy0, hy1⟩ := And.intro hx hy
    have hq := mul_pos (sub_pos.mpr hx1) hp1
    have hlo := mul_nonneg hx0 (neg_le_iff_add_nonneg.mp hy0)
    have hhi := mul_nonneg hx0 (sub_nonneg.mpr hy1.le)
    exact ⟨by linarith, by linarith⟩
  · obtain ⟨⟨hx0, hx1⟩, hy0, hy1⟩ := And.intro hx hy
    have hp := mul_pos hp0 (sub_pos.mpr hy1)
    have hlo := mul_nonneg (neg_le_iff_add_nonneg.mp hx0) hy0
    have hhi := mul_nonneg (sub_nonneg.mpr hx1.le) hy0
    exact ⟨by linarith, by linarith⟩
  · -- Both are signed.
    obtain ⟨⟨hx0, hx1⟩, hy0, hy1⟩ := And.intro hx hy
    have hx2 := neg_le_iff_add_nonneg.mp hx0
    have hy2 := neg_le_iff_add_nonneg.mp hy0
    have h1 := mul_nonneg (sub_nonneg.mpr hx1.le) hy2
    have h2 := mul_nonneg hx2 (sub_nonneg.mpr hy1.le)
    have h3 := mul_nonneg (sub_nonneg.mpr hx1.le) (sub_nonneg.mpr hy1.le)
    have h4 := mul_nonneg hx2 hy2
    exact ⟨by linarith, by linarith⟩

/-- An unknown position of one operand meets a known one of the other. -/
theorem andNodeMap_U {t : BitLattice} (hX : t ≠ .X) (hz : t ≠ .ZERO) :
    andNodeMap .U t = .U ∧ andNodeMap t .U = .U := by
  cases t with
  | U => exact ⟨rfl, rfl⟩
  | ZERO => exact absurd rfl hz
  | ONE => exact ⟨rfl, rfl⟩
  | X => exact absurd rfl hX

/-- The loop of a product writes its low bits. -/
theorem forwardMul_low (hsize : 0 < lhs_size) (h0 : Describes s0 op0 x) (h1 : Describes s1 op1 y) :
    (forwardMul lhs_size s0 s1 op0 op1).length = min (op0.length + op1.length) lhs_size ∧
      Describes false (forwardMul lhs_size s0 s1 op0 op1)
        (readWord false (min (op0.length + op1.length) lhs_size) (x * y)) := by
  have hpos := h0.length_pos
  obtain ⟨size, hs⟩ : ∃ size, size = min (op0.length + op1.length) lhs_size := ⟨_, rfl⟩
  have hsize' : 0 < size := by omega
  obtain ⟨hl0, hp0⟩ := resize_spec h0 size
  obtain ⟨hl1, hp1⟩ := resize_spec h1 size
  have hzero : Describes false (List.replicate size .ZERO)
      (readWord false size (x * (y % 2 ^ 0))) := by
    rw [pow_zero, Int.emod_one, mul_zero, show readWord false size 0 = 0 from Int.zero_emod _]
    exact describes_zeros hsize'
  obtain ⟨hdesc, hlen⟩ := mulLoop_spec s0 hsize' hl0
    (fun i hi => by rw [hp0 i hi]; exact h0 i)
    (by rw [List.length_reverse, hl1, Nat.zero_add])
    (fun j hj => by
      rw [← position_eq_getElem_reverse s1 hj, Nat.zero_add]
      rw [List.length_reverse, hl1] at hj
      rw [hp1 j hj]
      exact h1 j) hzero List.length_replicate
  have hmod : x * (y % 2 ^ size) ≡ x * y [ZMOD 2 ^ size] := (Int.mod_modEq y _).mul_left x
  rw [readWord_congr hmod] at hdesc
  unfold forwardMul
  rw [← hs]
  exact ⟨hlen, hdesc⟩

theorem fits_zero (s : Bool) (n : Nat) : Fits s n 0 := by
  cases s with
  | false => exact ⟨le_rfl, show (0 : Int) < 2 ^ n by positivity⟩
  | true =>
    have hp : (0 : Int) < 2 ^ (n - 1) := by positivity
    exact ⟨show -2 ^ (n - 1) ≤ (0 : Int) by linarith, hp⟩

/-- With all of its positions in the word, the product fits them or the sign is unknown. -/
theorem forwardMul_top (h0 : Describes s0 op0 x) (h1 : Describes s1 op1 y)
    (hle : op0.length + op1.length ≤ lhs_size) :
    Fits (s0 || s1) (op0.length + op1.length) (x * y) ∨
      (s0 || s1) = true ∧ position false (forwardMul lhs_size s0 s1 op0 op1)
        (op0.length + op1.length - 1) = .U := by
  have hn0 := h0.length_pos
  have hn1 := h1.length_pos
  obtain ⟨size, hs⟩ : ∃ size, size = op0.length + op1.length := ⟨_, rfl⟩
  have hne0 : ∀ i, position s0 op0 i ≠ .X := fun i => (h0 i).ne_X
  have hne1 : ∀ i, position s1 op1 i ≠ .X := fun i => (h1 i).ne_X
  by_cases hU : s0 = true ∧ op0.headD .X = .U ∨ s1 = true ∧ op1.headD .X = .U
  case neg =>
    rw [not_or] at hU
    exact .inl (fits_mul hn0 hn1 (h0.fits.resolve_right hU.1) (h1.fits.resolve_right hU.2))
  -- An unknown sign meets every position of the other operand below the front of the product.
  have hsigned : (s0 || s1) = true := by
    rcases hU with ⟨rfl, -⟩ | ⟨rfl, -⟩
    · rfl
    · exact Bool.or_true s0
  by_cases hmeet : ∃ j < size,
      andNodeMap (position s0 op0 (size - 1 - j)) (position s1 op1 j) = .U
  · right
    refine ⟨hsigned, ?_⟩
    obtain ⟨j, hj, hand⟩ := hmeet
    obtain ⟨hl0, hp0⟩ := resize_spec h0 size
    obtain ⟨hl1, hp1⟩ := resize_spec h1 size
    unfold forwardMul
    rw [← hs, Nat.min_eq_left (hs ▸ hle)]
    refine mulLoop_top s0 (by omega) hl0 (by rw [List.length_reverse, hl1, Nat.zero_add])
      List.length_replicate (.inr ⟨j, by rw [List.length_reverse, hl1]; exact hj, ?_⟩)
    rw [hp0 _ (by omega), Nat.zero_add,
      ← position_eq_getElem_reverse s1 (by rw [List.length_reverse]; omega), hp1 j hj]
    exact hand
  · left
    have hzero : x * y = 0 := by
      rcases hU with ⟨rfl, hU⟩ | ⟨rfl, hU⟩
      · rw [h1.eq_zero fun i hi => ?_, mul_zero]
        by_contra hz
        refine hmeet ⟨i, by omega, ?_⟩
        rw [position_true_of_ge (by omega), hU]
        exact (andNodeMap_U (hne1 i) hz).1
      · rw [h0.eq_zero fun i hi => ?_, zero_mul]
        by_contra hz
        refine hmeet ⟨size - 1 - i, by omega, ?_⟩
        rw [position_true_of_ge (b := op1) (by omega), hU,
          show size - 1 - (size - 1 - i) = i by omega]
        exact (andNodeMap_U (hne0 i) hz).2
    rw [hzero]
    exact fits_zero _ _

/-- Forward transfer of a product is sound where the result is signed exactly if one of the
operands is, and where it fills the word. -/
theorem forwardMul_sound (hsize : 0 < lhs_size)
    (hsign : lhs_signed = (s0 || s1) ∨ lhs_size ≤ op0.length + op1.length)
    (h0 : Describes s0 op0 x) (h1 : Describes s1 op1 y) :
    Describes lhs_signed (forwardMul lhs_size s0 s1 op0 op1)
      (readWord lhs_signed lhs_size (x * y)) := by
  obtain ⟨hlen, hlow⟩ := forwardMul_low hsize h0 h1
  have hne : forwardMul lhs_size s0 s1 op0 op1 ≠ [] := hlow.ne_nil
  have hagree : ∀ i < (forwardMul lhs_size s0 s1 op0 op1).length,
      (position lhs_signed (forwardMul lhs_size s0 s1 op0 op1) i).Agrees
        (bitAt (readWord lhs_signed lhs_size (x * y)) i) := fun i hi => by
    have hbit := hlow i
    rw [bitAt_readWord (by have := h0.length_pos; omega), if_pos (by omega)] at hbit
    rw [position_of_lt lhs_signed false hi, bitAt_readWord hsize, if_pos (by omega)]
    exact hbit
  rcases Nat.lt_or_ge (op0.length + op1.length) lhs_size with hlt | hge
  · have hs := hsign.resolve_right (by omega)
    subst hs
    rw [Nat.min_eq_left hlt.le] at hlen
    have hpos := h0.length_pos
    rcases forwardMul_top h0 h1 hlt.le with hfits | ⟨hs, hU⟩
    · rw [← hlen] at hfits
      rw [hfits.readWord (by omega) (by omega)] at hagree ⊢
      exact hfits.describes hne hagree
    · intro i
      rcases Nat.lt_or_ge i (forwardMul lhs_size s0 s1 op0 op1).length with hi | hi
      · exact hagree i hi
      · rw [hs, position_true_of_ge (by omega),
          ← position_true_of_ge (b := forwardMul lhs_size s0 s1 op0 op1) le_rfl,
          position_of_lt true false (by omega), hlen, hU]
        trivial
  · -- The result fills the word.
    rw [Nat.min_eq_right hge] at hlen
    refine Fits.describes ?_ hne hagree
    rw [hlen]
    exact fits_readWord hsize _

/-- `3 * -2` in eight bits. -/
theorem forwardMul_sound_signed :
    Describes true (forwardMul 8 false true [.ONE, .U] [.ONE, .ZERO]) (readWord true 8 (3 * -2)) :=
  forwardMul_sound (by decide) (.inl rfl) (by decide) (by decide)

/-- A signed result of two unsigned operands that is wider than both: `3 * 3` gives `1001`. -/
theorem forwardMul_unsigned_signed :
    Describes false [.ONE, .ONE] 3 ∧
      forwardMul 8 false false [.ONE, .ONE] [.ONE, .ONE] = [.ONE, .ZERO, .ZERO, .ONE] ∧
      ¬ Describes true (forwardMul 8 false false [.ONE, .ONE] [.ONE, .ONE])
        (readWord true 8 (3 * 3)) := by
  refine ⟨by decide, by decide, by decide⟩

end Product

end Bambu.BitValue
