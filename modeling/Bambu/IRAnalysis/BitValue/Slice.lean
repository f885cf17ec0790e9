/-
  Bambu.IRAnalysis.BitValue.Slice

  Forward transfer of the statements that cut words and put the pieces together: funnel
  shifts, the extraction of a bit and the concatenation of two words at a bit.

  Each result takes every position from one position of an operand, and each value every
  bit from one bit.  The transfer is sound exactly where the position it takes allows
  what the right one does (`describes_iff_allows`).  For `fshl` and `extract_bit` they are the
  same; `fshr` takes the positions of `fshl`; `concat_bit` repeats the front of a result
  that it leaves shorter than the word.
-/

import Bambu.IRAnalysis.BitValue.Shift
import Bambu.Utility.SupInf

namespace Bambu.BitValue

open Bambu.Math BitLattice

/-! ## The source -/

/-- A funnel shift: all the positions of the first operand but the `offset` in front, and
the `offset` in front of the second. -/
def forwardFunnel (lhs_size : Nat) (op0 op1 : Operand) : Amount → Bitstring
  | .ssa _ _ _ => createUBitstring lhs_size
  | .constant cst_val =>
    let offset := (cst_val % lhs_size).toNat
    (extendTo op0.bitstring op0.signed lhs_size).drop offset ++
      (extendTo op1.bitstring op1.signed lhs_size).take offset

/-- `fshl_node` -/
def forwardFshl (lhs_size : Nat) (op0 op1 : Operand) (op2 : Amount) : Bitstring :=
  forwardFunnel lhs_size op0 op1 op2

/-- `fshr_node`, whose code is that of `fshl_node`. -/
def forwardFshr (lhs_size : Nat) (op0 op1 : Operand) (op2 : Amount) : Bitstring :=
  forwardFunnel lhs_size op0 op1 op2

/-- `extract_bit_node`, which asserts that the position is a constant and not negative. -/
def forwardExtractBit (op0 : Operand) (cst_val : Nat) : Bitstring :=
  if op0.bitstring.length ≤ cst_val then
    if op0.signed then [op0.bitstring.headD .X] else [.ZERO]
  else truncateTo (op0.bitstring.take (op0.bitstring.length - cst_val)) 1

/-- The loop of `concat_bit_node` over two bitstrings read from the last position. -/
def concatLoop (offset : Nat) : Nat → Bitstring → Bitstring → Bitstring → Bitstring
  | index, op0 :: op0s, op1 :: op1s, res =>
    concatLoop offset (index + 1) op0s op1s ((if index < offset then op1 else op0) :: res)
  | _, _, _, res => res

/-- `concat_bit_node` -/
def forwardConcatBit (op0 op1 : Operand) (offset : Nat) : Bitstring :=
  let op1_bitstring := extendTo op1.bitstring op1.signed op0.bitstring.length
  let op0_bitstring := extendTo op0.bitstring op0.signed op1_bitstring.length
  concatLoop offset 0 op0_bitstring.reverse op1_bitstring.reverse []

/-- The statements with their constant operand. -/
inductive Slice where
  | fshl (amount : Nat)
  | fshr (amount : Nat)
  | extract_bit (position : Nat)
  | concat_bit (offset : Nat)

/-- The word that a funnel shift shifts. -/
def doubleWord (w : Nat) (op0 op1 : Int) : Int := op0 % 2 ^ w * 2 ^ w + op1 % 2 ^ w

namespace Slice

/-- `Bit_Value::forward_transfer` on these statements. -/
def forwardTransfer (lhs_size : Nat) (op0 op1 : Operand) : Slice → Bitstring
  | .fshl amount => forwardFshl lhs_size op0 op1 (.constant amount)
  | .fshr amount => forwardFshr lhs_size op0 op1 (.constant amount)
  | .extract_bit position => forwardExtractBit op0 position
  | .concat_bit offset => forwardConcatBit op0 op1 offset

/-- The width of the result; a bit is extracted into one of width one. -/
def resultSize (lhs_size : Nat) : Slice → Nat
  | .extract_bit _ => 1
  | _ => lhs_size

/-- What the statement computes, before it is cut to the type of its result. -/
def value (lhs_size : Nat) (op0 op1 : Int) : Slice → Int
  | .fshl amount => doubleWord lhs_size op0 op1 * 2 ^ (amount % lhs_size) / 2 ^ lhs_size
  | .fshr amount => doubleWord lhs_size op0 op1 / 2 ^ (amount % lhs_size)
  | .extract_bit position => op0 / 2 ^ position
  | .concat_bit offset => op0 / 2 ^ offset * 2 ^ offset + op1 % 2 ^ offset

end Slice

/-! ## Positions and bits -/

section Bits

variable {op0 op1 : Operand} {x y : Int}

/-- What is known of the double word. -/
def pairPosition (w : Nat) (op0 op1 : Operand) (i : Nat) : BitLattice :=
  if i < w then position op1.signed op1.bitstring i
  else position op0.signed op0.bitstring (i - w)

/-- What is known of a concatenation. -/
def pickPosition (offset : Nat) (op0 op1 : Operand) (i : Nat) : BitLattice :=
  if i < offset then position op1.signed op1.bitstring i
  else position op0.signed op0.bitstring i

theorem bitAt_append_lt {k i : Nat} (x y : Int) (hi : i < k) :
    bitAt (x * 2 ^ k + y % 2 ^ k) i = bitAt y i := by
  have hmod : x * 2 ^ k + y % 2 ^ k ≡ y [ZMOD 2 ^ k] := by
    unfold Int.ModEq
    rw [Int.add_emod, Int.mul_emod_left, zero_add, Int.emod_emod_of_dvd _ (dvd_refl _),
      Int.emod_emod_of_dvd _ (dvd_refl _)]
  exact bitAt_congr hmod hi

theorem bitAt_append_ge (k i : Nat) (x y : Int) :
    bitAt (x * 2 ^ k + y % 2 ^ k) (k + i) = bitAt x i := by
  have hpos : (0 : Int) < 2 ^ k := by positivity
  have hquot : (x * 2 ^ k + y % 2 ^ k) / 2 ^ k = x := by
    rw [Int.add_comm, Int.add_mul_ediv_right _ _ hpos.ne',
      Int.ediv_eq_zero_of_lt (Int.emod_nonneg _ hpos.ne') (Int.emod_lt_of_pos _ hpos), zero_add]
  rw [← bitAt_ediv, hquot]

theorem bitAt_doubleWord {w i : Nat} (x y : Int) (hi : i < w + w) :
    bitAt (doubleWord w x y) i = if i < w then bitAt y i else bitAt x (i - w) := by
  unfold doubleWord
  split
  case isTrue hlt => exact bitAt_append_lt _ _ hlt
  case isFalse hge =>
    obtain ⟨d, rfl⟩ := Nat.exists_eq_add_of_le (Nat.not_lt.mp hge)
    rw [bitAt_append_ge, Nat.add_sub_cancel_left, bitAt_emod (by omega)]

theorem bitAt_concat (offset i : Nat) (x y : Int) :
    bitAt (x / 2 ^ offset * 2 ^ offset + y % 2 ^ offset) i =
      if i < offset then bitAt y i else bitAt x i := by
  split
  case isTrue hlt => exact bitAt_append_lt _ _ hlt
  case isFalse hge =>
    obtain ⟨d, rfl⟩ := Nat.exists_eq_add_of_le (Nat.not_lt.mp hge)
    rw [bitAt_append_ge, bitAt_ediv]

theorem position_append {signed : Bool} {a b : Bitstring} {i : Nat}
    (hi : i < (a ++ b).length) :
    position signed (a ++ b) i =
      if i < b.length then position signed b i else position signed a (i - b.length) := by
  rw [position_eq_getElem_reverse signed (by rwa [List.length_reverse])]
  simp only [List.reverse_append]
  rw [List.length_append] at hi
  split
  case isTrue hlt =>
    rw [position_eq_getElem_reverse signed (by rwa [List.length_reverse]),
      List.getElem_append_left]
  case isFalse hge =>
    rw [position_eq_getElem_reverse signed (by rw [List.length_reverse]; omega),
      List.getElem_append_right (by rw [List.length_reverse]; omega)]
    simp only [List.length_reverse]

/-- Some described number has a given bit, if the position allows it, and fits the bitstring. -/
theorem exists_describes_bitAt (signed : Bool) {b : Bitstring} (hX : BitLattice.X ∉ b)
    (hb : b ≠ []) (c : Bool) :
    ∃ x, Describes signed b x ∧ Fits signed b.length x ∧
      ∀ j, (position signed b j).Agrees c → bitAt x j = c := by
  have hpos := List.length_pos_iff.mpr hb
  -- Known positions give their bit, and all the others `c`.
  obtain ⟨z, -, -, hz⟩ := exists_bitAt_eq
    (fun i => if position signed b i = .U then c else decide (position signed b i = .ONE)) b.length
  have hfits : Fits signed b.length (readWord signed b.length z) := fits_readWord hpos z
  have hagrees : ∀ i < b.length, (position signed b i).Agrees
      (bitAt (readWord signed b.length z) i) := fun i hi => by
    rw [bitAt_readWord hpos, if_pos hi, hz i hi]
    have hne : position signed b i ≠ .X := position_ne_X hX hb i
    revert hne
    cases position signed b i <;> simp [Agrees]
  have hdesc := hfits.describes hb hagrees
  refine ⟨_, hdesc, hfits, fun j hj => ?_⟩
  have hbit := hdesc j
  cases hp : position signed b j with
  | U =>
    -- The unknown bit is one of the bitstring's own, or repeats its front.
    have hlow : ∀ i < b.length, position signed b i = .U →
        bitAt (readWord signed b.length z) i = c := fun i hi hU => by
      rw [bitAt_readWord hpos, if_pos hi, hz i hi, if_pos hU]
    rcases Nat.lt_or_ge j b.length with hlt | hge
    · exact hlow j hlt hp
    · cases signed with
      | false =>
        rw [position_false_of_ge hb hge] at hp
        exact BitLattice.noConfusion hp
      | true =>
        rw [position_true_of_ge (by omega), ← position_true_of_ge (b := b) le_rfl] at hp
        rw [hfits.bitAt hpos hge, Bool.true_and]
        exact hlow _ (by omega) hp
  | ZERO =>
    rw [hp] at hj hbit
    exact hbit.trans hj.symm
  | ONE =>
    rw [hp] at hj hbit
    exact hbit.trans hj.symm
  | X => exact absurd hp (position_ne_X hX hb j)

end Bits

/-! ## Soundness by positions -/

section Allows

variable {op0 op1 : Operand} {lhs_signed : Bool} {w : Nat} {res : Bitstring}

/-- The operands that the transfers get. -/
structure Operand.IsKnown (o : Operand) : Prop where
  not_X : BitLattice.X ∉ o.bitstring
  ne_nil : o.bitstring ≠ []

/-- The position allows whatever another one allows. -/
def Allows (t e : BitLattice) : Prop := t = .U ∨ t = e

theorem Allows.agrees {t e : BitLattice} (h : Allows t e) {c : Bool} (he : e.Agrees c) :
    t.Agrees c := by
  rcases h with rfl | rfl
  · trivial
  · exact he

theorem allows_of_agrees {t e : BitLattice} (he : e ≠ .X)
    (h : ∀ c, e.Agrees c → t.Agrees c) : Allows t e := by
  have hf := h false
  have ht := h true
  unfold Allows
  revert he hf ht
  cases t <;> cases e <;> simp [Agrees]

/-- A word as long as the result at least repeats the front of the result. -/
theorem position_eq_wordPosition (hw : 0 < w) (hres : res ≠ []) (hlen : res.length ≤ w) (i : Nat) :
    position lhs_signed res i = wordPosition lhs_signed w (position lhs_signed res) i := by
  unfold wordPosition
  split
  case isTrue => rfl
  case isFalse hi =>
    cases lhs_signed with
    | false => exact position_false_of_ge hres (by omega)
    | true =>
      rw [position_true_of_ge (by omega)]
      exact (position_true_of_ge (by omega)).symm

/-- A result is sound exactly where each position allows what the bits of the value may be:
`e` says what they may be, and both bits that an unknown position stands for occur. -/
theorem describes_iff_allows {α : Type} {P : α → Prop} {z : α → Int} {e : Nat → BitLattice}
    (hw : 0 < w) (hres : res ≠ []) (hlen : res.length ≤ w) (hX : ∀ i, e i ≠ .X)
    (hagrees : ∀ v, P v → ∀ i < w, (e i).Agrees (bitAt (z v) i))
    (hoccurs : ∀ c, ∀ i < w, (e i).Agrees c → ∃ v, P v ∧ bitAt (z v) i = c) :
    (∀ v, P v → Describes lhs_signed res (readWord lhs_signed w (z v))) ↔
      ∀ i < w, Allows (position lhs_signed res i) (e i) := by
  constructor
  · intro hall i hi
    refine allows_of_agrees (hX i) fun c hc => ?_
    obtain ⟨v, hv, hvbit⟩ := hoccurs c i hi hc
    have hbit := hall v hv i
    rwa [bitAt_readWord hw, if_pos hi, hvbit] at hbit
  · intro hall v hv
    exact describes_readWord hw (position_eq_wordPosition hw hres hlen) fun i hi =>
      (hall i hi).agrees (hagrees v hv i hi)

/-- The same for the values of two operands. -/
theorem describes_iff_allows_pair {z : Int → Int → Int} {e : Nat → BitLattice} (hw : 0 < w)
    (hres : res ≠ []) (hlen : res.length ≤ w) (hX : ∀ i, e i ≠ .X)
    (hagrees : ∀ x y, Describes op0.signed op0.bitstring x → Describes op1.signed op1.bitstring y →
      ∀ i < w, (e i).Agrees (bitAt (z x y) i))
    (hoccurs : ∀ c, ∃ x y, Describes op0.signed op0.bitstring x ∧
      Describes op1.signed op1.bitstring y ∧ ∀ i < w, (e i).Agrees c → bitAt (z x y) i = c) :
    (∀ x y, Describes op0.signed op0.bitstring x → Describes op1.signed op1.bitstring y →
        Describes lhs_signed res (readWord lhs_signed w (z x y))) ↔
      ∀ i < w, Allows (position lhs_signed res i) (e i) := by
  rw [← describes_iff_allows (P := fun v : Int × Int => Describes op0.signed op0.bitstring v.1 ∧
    Describes op1.signed op1.bitstring v.2) (z := fun v => z v.1 v.2) hw hres hlen hX
    (fun v hv => hagrees v.1 v.2 hv.1 hv.2) (fun c i hi hc => ?_)]
  · exact ⟨fun hall v hv => hall v.1 v.2 hv.1 hv.2, fun hall x y hx hy => hall (x, y) ⟨hx, hy⟩⟩
  · obtain ⟨x, y, hx, hy, hbits⟩ := hoccurs c
    exact ⟨(x, y), ⟨hx, hy⟩, hbits i hi hc⟩

/-- Operands that have a given bit wherever they may. -/
theorem exists_operands (h0 : op0.IsKnown) (h1 : op1.IsKnown) (c : Bool) :
    ∃ x y, Describes op0.signed op0.bitstring x ∧ Describes op1.signed op1.bitstring y ∧
      (∀ j, (position op0.signed op0.bitstring j).Agrees c → bitAt x j = c) ∧
      ∀ j, (position op1.signed op1.bitstring j).Agrees c → bitAt y j = c := by
  obtain ⟨x, hx, -, hbx⟩ := exists_describes_bitAt op0.signed h0.not_X h0.ne_nil c
  obtain ⟨y, hy, -, hby⟩ := exists_describes_bitAt op1.signed h1.not_X h1.ne_nil c
  exact ⟨x, y, hx, hy, hbx, hby⟩

theorem pairPosition_ne_X (h0 : op0.IsKnown) (h1 : op1.IsKnown) (i : Nat) :
    pairPosition w op0 op1 i ≠ .X := by
  unfold pairPosition
  split
  · exact position_ne_X h1.not_X h1.ne_nil i
  · exact position_ne_X h0.not_X h0.ne_nil _

theorem pickPosition_ne_X {offset : Nat} (h0 : op0.IsKnown) (h1 : op1.IsKnown) (i : Nat) :
    pickPosition offset op0 op1 i ≠ .X := by
  unfold pickPosition
  split
  · exact position_ne_X h1.not_X h1.ne_nil i
  · exact position_ne_X h0.not_X h0.ne_nil i

/-- A transfer to a value whose bits are bits of the double word. -/
theorem describes_iff_pair {z : Int → Int → Int} (index : Nat → Nat) (hw : 0 < w)
    (hres : res ≠ []) (hlen : res.length ≤ w) (h0 : op0.IsKnown) (h1 : op1.IsKnown)
    (hindex : ∀ i < w, index i < w + w)
    (hz : ∀ x y, ∀ i < w, bitAt (z x y) i = bitAt (doubleWord w x y) (index i)) :
    (∀ x y, Describes op0.signed op0.bitstring x → Describes op1.signed op1.bitstring y →
        Describes lhs_signed res (readWord lhs_signed w (z x y))) ↔
      ∀ i < w, Allows (position lhs_signed res i) (pairPosition w op0 op1 (index i)) := by
  refine describes_iff_allows_pair hw hres hlen (fun i => pairPosition_ne_X h0 h1 _)
    (fun x y hx hy i hi => ?_) (fun c => ?_)
  · rw [hz x y i hi, bitAt_doubleWord x y (hindex i hi)]
    unfold pairPosition
    split
    · exact hy _
    · exact hx _
  · obtain ⟨x, y, hx, hy, hbx, hby⟩ := exists_operands h0 h1 c
    refine ⟨x, y, hx, hy, fun i hi hc => ?_⟩
    rw [hz x y i hi, bitAt_doubleWord x y (hindex i hi)]
    unfold pairPosition at hc
    split at hc
    case isTrue hlt => exact (if_pos hlt).trans (hby _ hc)
    case isFalse hge => exact (if_neg hge).trans (hbx _ hc)

end Allows

/-! ## The statements -/

section Statement

variable {op0 op1 : Operand} {lhs_signed : Bool} {w : Nat}

/-- The positions that both funnel shifts take. -/
theorem forwardFunnel_spec (lhs_signed : Bool) (hw : 0 < w) (h0 : op0.IsKnown) (h1 : op1.IsKnown)
    (hl0 : op0.bitstring.length ≤ w) (hl1 : op1.bitstring.length ≤ w) (amount : Nat) :
    (forwardFunnel w op0 op1 (.constant amount)).length = w ∧
      ∀ i < w, position lhs_signed (forwardFunnel w op0 op1 (.constant amount)) i =
        pairPosition w op0 op1 (i + w - amount % w) := by
  have hlt := Nat.mod_lt amount hw
  have hoffset : ((amount : Int) % (w : Int)).toNat = amount % w := by
    rw [← Int.natCast_emod, Int.toNat_natCast]
  have hE0 : (extendTo op0.bitstring op0.signed w).length = w := by
    rw [length_extendTo _ h0.ne_nil, Nat.max_eq_right hl0]
  have hE1 : (extendTo op1.bitstring op1.signed w).length = w := by
    rw [length_extendTo _ h1.ne_nil, Nat.max_eq_right hl1]
  have hlen : (forwardFunnel w op0 op1 (.constant amount)).length = w := by
    unfold forwardFunnel
    dsimp only
    rw [hoffset, List.length_append, List.length_drop, List.length_take, hE0, hE1]
    omega
  refine ⟨hlen, fun i hi => ?_⟩
  have htake : ((extendTo op1.bitstring op1.signed w).take (amount % w)).length = amount % w := by
    rw [List.length_take, hE1]
    omega
  rw [position_of_lt lhs_signed op1.signed (by omega)]
  unfold forwardFunnel pairPosition at *
  dsimp only at hlen ⊢
  rw [hoffset] at hlen ⊢
  rw [position_append (by omega), htake]
  split
  case isTrue hlow =>
    -- The positions in front of the second operand.
    have hk : w - amount % w < (extendTo op1.bitstring op1.signed w).length := by omega
    have htop : position op1.signed _ i = _ := position_take hk i
    rw [hE1, show w - (w - amount % w) = amount % w by omega] at htop
    rw [htop, if_pos (by omega), position_extendTo h1.not_X h1.ne_nil]
    congr 1
    omega
  case isFalse hhigh =>
    have hdrop : i - amount % w <
        ((extendTo op0.bitstring op0.signed w).drop (amount % w)).length := by
      rw [List.length_drop, hE0]
      omega
    rw [position_of_lt op1.signed op0.signed hdrop, position_drop _ hdrop, if_neg (by omega),
      position_extendTo h0.not_X h0.ne_nil]
    congr 1
    omega

/-- Bit `i` of a word that is shifted to the left out of its lower half. -/
theorem bitAt_funnel_left {i k : Nat} (d : Int) (hk : k < w) :
    bitAt (d * 2 ^ k / 2 ^ w) i = bitAt d (i + w - k) := by
  rw [bitAt_ediv, show w + i = k + (i + w - k) by omega, bitAt_mul_two_pow]

theorem forwardFshl_sound (hw : 0 < w) (h0 : op0.IsKnown) (h1 : op1.IsKnown)
    (hl0 : op0.bitstring.length ≤ w) (hl1 : op1.bitstring.length ≤ w) (amount : Nat) :
    ∀ x y, Describes op0.signed op0.bitstring x → Describes op1.signed op1.bitstring y →
      Describes lhs_signed (forwardFshl w op0 op1 (.constant amount))
        (readWord lhs_signed w (Slice.value w x y (.fshl amount))) := by
  obtain ⟨hlen, hpos⟩ := forwardFunnel_spec lhs_signed hw h0 h1 hl0 hl1 amount
  have hlt := Nat.mod_lt amount hw
  refine (describes_iff_pair (fun i => i + w - amount % w) hw
    (List.length_pos_iff.mp (hlen.symm ▸ hw)) hlen.le h0 h1
    (fun i hi => by omega) (fun x y i _ => bitAt_funnel_left _ hlt)).mpr fun i hi => ?_
  exact .inr (hpos i hi)

/-- The shift to the right is sound only where the positions of the shift to the left allow its
own. -/
theorem forwardFshr_iff (hw : 0 < w) (h0 : op0.IsKnown) (h1 : op1.IsKnown)
    (hl0 : op0.bitstring.length ≤ w) (hl1 : op1.bitstring.length ≤ w) (amount : Nat) :
    (∀ x y, Describes op0.signed op0.bitstring x → Describes op1.signed op1.bitstring y →
        Describes lhs_signed (forwardFshr w op0 op1 (.constant amount))
          (readWord lhs_signed w (Slice.value w x y (.fshr amount)))) ↔
      ∀ i < w, Allows (pairPosition w op0 op1 (i + w - amount % w))
        (pairPosition w op0 op1 (i + amount % w)) := by
  obtain ⟨hlen, hpos⟩ := forwardFunnel_spec lhs_signed hw h0 h1 hl0 hl1 amount
  have hlt := Nat.mod_lt amount hw
  refine (describes_iff_pair (fun i => i + amount % w) hw
    (List.length_pos_iff.mp (hlen.symm ▸ hw)) hlen.le h0 h1
    (fun i hi => by omega) (fun x y i _ => ?_)).trans ?_
  · rw [Nat.add_comm i, ← bitAt_ediv]
    rfl
  · refine forall₂_congr fun i hi => ?_
    rw [← hpos i hi]

theorem forwardExtractBit_sound (h0 : op0.IsKnown) (k : Nat) {x : Int}
    (hx : Describes op0.signed op0.bitstring x) :
    Describes lhs_signed (forwardExtractBit op0 k) (readWord lhs_signed 1 (x / 2 ^ k)) := by
  have hres : forwardExtractBit op0 k = [position op0.signed op0.bitstring k] := by
    unfold forwardExtractBit
    split
    case isTrue hshort =>
      split
      case isTrue hs => rw [hs, position_true_of_ge (by omega)]
      case isFalse hs =>
        rw [Bool.not_eq_true] at hs
        rw [hs, position_false_of_ge h0.ne_nil hshort]
    case isFalse hlong =>
      -- The last of the positions from `k` on.
      have hlen : (op0.bitstring.take (op0.bitstring.length - k)).length =
          op0.bitstring.length - k := List.length_take_of_le (Nat.sub_le _ _)
      have hone : (truncateTo (op0.bitstring.take (op0.bitstring.length - k)) 1).length = 1 := by
        rw [length_truncateTo]
        omega
      obtain ⟨t, ht⟩ := List.length_eq_one_iff.mp hone
      have hlast : position op0.signed _ 0 = _ := position_truncateTo (by rw [hone]; omega :
        0 < (truncateTo (op0.bitstring.take (op0.bitstring.length - k)) 1).length)
      rw [position_take (by omega), Nat.zero_add, ht] at hlast
      rw [ht, ← hlast]
      rfl
  rw [hres]
  refine describes_readWord (f := fun _ => position op0.signed op0.bitstring k) Nat.one_pos
    (fun i => position_eq_wordPosition Nat.one_pos (List.cons_ne_nil _ _) le_rfl i |>.trans ?_)
    fun i hi => ?_
  · unfold wordPosition
    split
    case isTrue hi =>
      rw [show i = 0 by omega]
      rfl
    case isFalse => rfl
  · rw [show i = 0 by omega, bitAt_ediv]
    exact hx _

/-- The loop holds the positions it has picked. -/
theorem concatLoop_holds {f : Nat → BitLattice} {offset : Nat} (op0s op1s res : Bitstring)
    (h : Holds f res)
    (h0 : ∀ (j : Nat) (hj : j < op0s.length), ¬ res.length + j < offset →
      op0s[j] = f (res.length + j))
    (h1 : ∀ (j : Nat) (hj : j < op1s.length), res.length + j < offset →
      op1s[j] = f (res.length + j)) :
    Holds f (concatLoop offset res.length op0s op1s res) ∧
      (concatLoop offset res.length op0s op1s res).length =
        res.length + min op0s.length op1s.length := by
  induction op0s generalizing op1s res with
  | nil => exact ⟨h, by simp [concatLoop]⟩
  | cons t op0s ih =>
    cases op1s with
    | nil => exact ⟨h, by simp [concatLoop]⟩
    | cons s op1s =>
      have hpush : (if res.length < offset then s else t) = f res.length := by
        split
        case isTrue hlt => exact h1 0 (Nat.zero_lt_succ _) hlt
        case isFalse hge => exact h0 0 (Nat.zero_lt_succ _) hge
      obtain ⟨hres, hlen⟩ := ih op1s _ (h.push hpush)
        (fun j hj hge => by
          rw [List.length_cons, Nat.add_right_comm] at hge ⊢
          exact h0 (j + 1) (Nat.succ_lt_succ hj) hge)
        (fun j hj hlt => by
          rw [List.length_cons, Nat.add_right_comm] at hlt ⊢
          exact h1 (j + 1) (Nat.succ_lt_succ hj) hlt)
      unfold concatLoop
      refine ⟨hres, hlen.trans ?_⟩
      simp only [List.length_cons]
      omega

/-- The length of a concatenation. -/
def concatLength (op0 op1 : Operand) : Nat := max op0.bitstring.length op1.bitstring.length

theorem forwardConcatBit_spec (lhs_signed : Bool) (h0 : op0.IsKnown) (h1 : op1.IsKnown)
    (offset : Nat) :
    (forwardConcatBit op0 op1 offset).length = concatLength op0 op1 ∧
      ∀ i < concatLength op0 op1, position lhs_signed (forwardConcatBit op0 op1 offset) i =
        pickPosition offset op0 op1 i := by
  have hE1 := length_extendTo op1.signed h1.ne_nil op0.bitstring.length
  have hE0 := length_extendTo op0.signed h0.ne_nil
    (extendTo op1.bitstring op1.signed op0.bitstring.length).length
  obtain ⟨hres, hlen⟩ := concatLoop_holds (f := pickPosition offset op0 op1)
    (extendTo op0.bitstring op0.signed
      (extendTo op1.bitstring op1.signed op0.bitstring.length).length).reverse
    (extendTo op1.bitstring op1.signed op0.bitstring.length).reverse []
    (fun i hi => absurd hi (Nat.not_lt_zero i))
    (fun j hj hge => by
      rw [List.length_nil, Nat.zero_add] at hge ⊢
      rw [← position_eq_getElem_reverse op0.signed hj, position_extendTo h0.not_X h0.ne_nil]
      exact (if_neg hge).symm)
    (fun j hj hlt => by
      rw [List.length_nil, Nat.zero_add] at hlt ⊢
      rw [← position_eq_getElem_reverse op1.signed hj, position_extendTo h1.not_X h1.ne_nil]
      exact (if_pos hlt).symm)
  have hall : (forwardConcatBit op0 op1 offset).length = concatLength op0 op1 := by
    refine hlen.trans ?_
    rw [List.length_nil, List.length_reverse, List.length_reverse]
    unfold concatLength
    omega
  refine ⟨hall, fun i hi => ?_⟩
  rw [position_of_lt lhs_signed false (by omega)]
  exact hres i (by rw [← hall] at hi; exact hi)

theorem forwardConcatBit_iff (hw : 0 < w) (h0 : op0.IsKnown) (h1 : op1.IsKnown)
    (hl0 : op0.bitstring.length ≤ w) (hl1 : op1.bitstring.length ≤ w) (offset : Nat) :
    (∀ x y, Describes op0.signed op0.bitstring x → Describes op1.signed op1.bitstring y →
        Describes lhs_signed (forwardConcatBit op0 op1 offset)
          (readWord lhs_signed w (Slice.value w x y (.concat_bit offset)))) ↔
      ∀ i, concatLength op0 op1 ≤ i → i < w →
        Allows (signBit lhs_signed (pickPosition offset op0 op1 (concatLength op0 op1 - 1)))
          (pickPosition offset op0 op1 i) := by
  obtain ⟨hlen, hpos⟩ := forwardConcatBit_spec lhs_signed h0 h1 offset
  have hlenpos : 0 < concatLength op0 op1 := by
    have hpos0 := List.length_pos_iff.mpr h0.ne_nil
    unfold concatLength
    omega
  have hle : concatLength op0 op1 ≤ w := Nat.max_le.mpr ⟨hl0, hl1⟩
  have hne : forwardConcatBit op0 op1 offset ≠ [] := List.length_pos_iff.mp (by omega)
  -- Above the result its front is repeated.
  have habove : ∀ i, concatLength op0 op1 ≤ i →
      position lhs_signed (forwardConcatBit op0 op1 offset) i =
        signBit lhs_signed (pickPosition offset op0 op1 (concatLength op0 op1 - 1)) := by
    intro i hi
    cases lhs_signed with
    | false => exact position_false_of_ge hne (by omega)
    | true =>
      rw [position_true_of_ge (by omega), ← position_true_of_ge (b := forwardConcatBit op0 op1 offset)
        le_rfl, hlen, hpos _ (by omega)]
      rfl
  refine (describes_iff_allows_pair (e := pickPosition offset op0 op1) hw hne (by omega)
    (pickPosition_ne_X h0 h1) (fun x y hx hy i _ => ?_) (fun c => ?_)).trans ?_
  · unfold Slice.value
    dsimp only
    rw [bitAt_concat]
    unfold pickPosition
    split
    · exact hy i
    · exact hx i
  · obtain ⟨x, y, hx, hy, hbx, hby⟩ := exists_operands h0 h1 c
    refine ⟨x, y, hx, hy, fun i _ hc => ?_⟩
    unfold Slice.value
    dsimp only
    rw [bitAt_concat]
    unfold pickPosition at hc
    split at hc
    case isTrue hlt => exact (if_pos hlt).trans (hby _ hc)
    case isFalse hge => exact (if_neg hge).trans (hbx _ hc)
  · constructor
    · intro hall i hi hiw
      rw [← habove i hi]
      exact hall i hiw
    · intro hall i hiw
      rcases Nat.lt_or_ge i (concatLength op0 op1) with hi | hi
      · exact .inr (hpos i hi)
      · rw [habove i hi]
        exact hall i hi hiw

end Statement

/-- The operands whose result the transfer gets right: a funnel shift to the right wants the
positions of the one to the left to allow its own, a concatenation wants the repeated front
of a short result to allow what the operands have there. -/
def Slice.Covers (lhs_signed : Bool) (lhs_size : Nat) (op0 op1 : Operand) : Slice → Prop
  | .fshl _ => True
  | .fshr amount => ∀ i < lhs_size,
      Allows (pairPosition lhs_size op0 op1 (i + lhs_size - amount % lhs_size))
        (pairPosition lhs_size op0 op1 (i + amount % lhs_size))
  | .extract_bit _ => True
  | .concat_bit offset => ∀ i, concatLength op0 op1 ≤ i → i < lhs_size →
      Allows (signBit lhs_signed (pickPosition offset op0 op1 (concatLength op0 op1 - 1)))
        (pickPosition offset op0 op1 i)

/-- Forward transfer of funnel shifts, extraction and concatenation is sound for the operands
that it covers, and for no others. -/
theorem forward_slice_sound_iff (lhs_signed : Bool) {lhs_size : Nat} {op0 op1 : Operand}
    (hsize : 0 < lhs_size) (hX0 : BitLattice.X ∉ op0.bitstring) (hX1 : BitLattice.X ∉ op1.bitstring)
    (hne0 : op0.bitstring ≠ []) (hne1 : op1.bitstring ≠ [])
    (hl0 : op0.bitstring.length ≤ lhs_size) (hl1 : op1.bitstring.length ≤ lhs_size)
    (slice : Slice) :
    (∀ x y, Describes op0.signed op0.bitstring x → Describes op1.signed op1.bitstring y →
        Describes lhs_signed (slice.forwardTransfer lhs_size op0 op1)
          (readWord lhs_signed (slice.resultSize lhs_size) (slice.value lhs_size x y))) ↔
      slice.Covers lhs_signed lhs_size op0 op1 := by
  have h0 : op0.IsKnown := ⟨hX0, hne0⟩
  have h1 : op1.IsKnown := ⟨hX1, hne1⟩
  cases slice with
  | fshl amount =>
    exact iff_of_true (forwardFshl_sound hsize h0 h1 hl0 hl1 amount) trivial
  | fshr amount => exact forwardFshr_iff hsize h0 h1 hl0 hl1 amount
  | extract_bit k =>
    exact iff_of_true (fun x _ hx _ => forwardExtractBit_sound h0 k hx) trivial
  | concat_bit offset => exact forwardConcatBit_iff hsize h0 h1 hl0 hl1 offset

/-- A rotation by half of the word is the same in both directions. -/
theorem forward_slice_sound_half :
    Describes false ((Slice.fshr 2).forwardTransfer 4 ⟨false, [.ONE, .U]⟩ ⟨false, [.U, .ZERO, .ONE]⟩)
      (readWord false 4 ((Slice.fshr 2).value 4 3 1)) :=
  (@forward_slice_sound_iff false 4 ⟨false, [.ONE, .U]⟩ ⟨false, [.U, .ZERO, .ONE]⟩ (by decide)
    (by decide) (by decide) (by decide) (by decide) (by decide) (by decide) (.fshr 2)).mpr
    (fun i hi => .inr (by rw [show i + 4 - 2 % 4 = i + 2 % 4 by omega])) 3 1 (by decide) (by decide)

/-- `1:0` shifted right by one is 128 in eight bits, where the bitstring says 2; and four bits of
`-1` on zeros are 15, where the bitstring says `-1`. -/
theorem forward_slice_unsound :
    (Describes false [.ONE] 1 ∧ Describes false [.ZERO] 0 ∧
      (Slice.fshr 1).value 8 1 0 = 128 ∧
      ¬ Describes false ((Slice.fshr 1).forwardTransfer 8 ⟨false, [.ONE]⟩ ⟨false, [.ZERO]⟩)
        (readWord false 8 ((Slice.fshr 1).value 8 1 0))) ∧
    (Describes true [.ZERO] 0 ∧ Describes true [.ONE] (-1) ∧
      (Slice.concat_bit 4).value 8 0 (-1) = 15 ∧
      ¬ Describes true ((Slice.concat_bit 4).forwardTransfer 8 ⟨true, [.ZERO]⟩ ⟨true, [.ONE]⟩)
        (readWord true 8 ((Slice.concat_bit 4).value 8 0 (-1)))) := by decide

end Bambu.BitValue
