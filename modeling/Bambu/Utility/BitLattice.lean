/-
  Bambu.Utility.BitLattice

  `utility/bit_lattice`: bitstrings, what is known of each bit of an integer.  The front
  of a bitstring is its most significant position.

  Positions are counted from the other end, and go on above the front with what the
  bitstring leaves out (`position`).  A bitstring describes the integers whose bits
  agree with it in every position (`Describes`).
-/

import Bambu.Math.BitSerial

namespace Bambu

/-- `enum class bit_lattice`: anything, known, and nothing. -/
inductive BitLattice where
  | U
  | ZERO
  | ONE
  | X
  deriving DecidableEq, Repr

abbrev Bitstring := List BitLattice

namespace BitLattice

/-- The bit may be `b`. -/
def Agrees : BitLattice → Bool → Prop
  | .U, _ => True
  | .ZERO, b => b = false
  | .ONE, b => b = true
  | .X, _ => False

instance : ∀ t b, Decidable (Agrees t b)
  | .U, _ => inferInstanceAs (Decidable True)
  | .ZERO, b => inferInstanceAs (Decidable (b = false))
  | .ONE, b => inferInstanceAs (Decidable (b = true))
  | .X, _ => inferInstanceAs (Decidable False)

theorem Agrees.ne_X {t : BitLattice} {b : Bool} (h : t.Agrees b) : t ≠ .X := by
  rintro rfl
  exact h

end BitLattice

open BitLattice Bambu.Math

/-! ## Bitstrings -/

def createUBitstring (lenght : Nat) : Bitstring := List.replicate lenght .U

/-- The position a bitstring repeats above its front `sign`. -/
def signBit (signed : Bool) (sign : BitLattice) : BitLattice := if signed then sign else .ZERO

/-- `sign_extend_bitstring`, which asserts that `final_size` exceeds the length. -/
def signExtend (bitstring : Bitstring) (signed : Bool) (final_size : Nat) : Bitstring :=
  let res := if bitstring = [] then [.X] else bitstring
  let front := res.headD .X
  let sign_bit := if signed ∨ front = .X then front else .ZERO
  List.replicate (final_size - res.length) sign_bit ++ res

/-- `if(size > bitstring.size()) bitstring = sign_extend_bitstring(bitstring, signed, size)` -/
def extendTo (bitstring : Bitstring) (signed : Bool) (size : Nat) : Bitstring :=
  if bitstring.length < size then signExtend bitstring signed size else bitstring

/-- `while(bitstring.size() > size) bitstring.pop_front();` -/
def truncateTo (bitstring : Bitstring) (size : Nat) : Bitstring :=
  bitstring.drop (bitstring.length - size)

/-- The loop of `sign_reduce_bitstring` on a bitstring with front `front`. -/
def signReduceLoop (signed : Bool) : BitLattice → Bitstring → Bitstring
  | front, [] => [front]
  | front, next :: rest =>
    if signed then
      if front ≠ .U ∧ front = next then signReduceLoop signed next rest
      else front :: next :: rest
    else if (front = .X ∧ next = .X) ∨ (front = .ZERO ∧ next ≠ .X) then
      signReduceLoop signed next rest
    else if front = .ZERO ∧ next = .X then signReduceLoop signed .ZERO rest
    else front :: next :: rest

/-- `sign_reduce_bitstring`, which asserts that the bitstring is not empty. -/
def signReduce (signed : Bool) : Bitstring → Bitstring
  | [] => []
  | front :: rest => signReduceLoop signed front rest

/-- What `BitLatticeManipulator::update_current` first does to a result. -/
def reduceCurrent (signed : Bool) (res : Bitstring) : Bitstring :=
  match signReduce signed res with
  | [] => []
  | front :: rest => (if signed ∧ front = .X then .ZERO else front) :: rest

/-! ## Positions -/

/-- What is known of bit `i`. -/
def position (signed : Bool) : Bitstring → Nat → BitLattice
  | [], _ => .X
  | front :: rest, i =>
    if i < rest.length then position signed rest i
    else if i = rest.length then front
    else signBit signed front

/-- The integers whose bits agree with the bitstring. -/
def Describes (signed : Bool) (b : Bitstring) (x : Int) : Prop :=
  ∀ i, (position signed b i).Agrees (bitAt x i)

section Position

variable {signed : Bool} {front : BitLattice} {b : Bitstring} {i : Nat}

theorem position_cons_lt (h : i < b.length) :
    position signed (front :: b) i = position signed b i := if_pos h

theorem position_cons_length : position signed (front :: b) b.length = front := by
  unfold position
  rw [if_neg (lt_irrefl _), if_pos rfl]

theorem position_cons_gt (h : b.length < i) :
    position signed (front :: b) i = signBit signed front := by
  unfold position
  rw [if_neg (by omega), if_neg (by omega)]

theorem position_cons_ge (h : b.length ≤ i) (hs : signBit signed front = front) :
    position signed (front :: b) i = front := by
  rcases Nat.eq_or_lt_of_le h with rfl | hlt
  · exact position_cons_length
  · rw [position_cons_gt hlt, hs]

theorem position_true_of_ge (h : b.length - 1 ≤ i) :
    position true b i = b.headD .X := by
  cases b with
  | nil => rfl
  | cons front rest => exact position_cons_ge h rfl

theorem position_false_of_ge (hb : b ≠ []) (h : b.length ≤ i) :
    position false b i = .ZERO := by
  cases b with
  | nil => exact absurd rfl hb
  | cons front rest => exact position_cons_gt h

/-- The signedness matters above the front only. -/
theorem position_of_lt (signed signed' : Bool) (h : i < b.length) :
    position signed b i = position signed' b i := by
  induction b with
  | nil => exact absurd h (Nat.not_lt_zero _)
  | cons front rest ih =>
    by_cases hi : i < rest.length
    · rw [position_cons_lt hi, position_cons_lt hi, ih hi]
    · have hlen : i = rest.length := by
        rw [List.length_cons] at h
        omega
      rw [hlen, position_cons_length, position_cons_length]

theorem position_eq_getElem_reverse (signed : Bool) (h : i < b.reverse.length) :
    position signed b i = b.reverse[i] := by
  induction b with
  | nil => exact absurd h (Nat.not_lt_zero _)
  | cons front rest ih =>
    simp only [List.reverse_cons]
    rw [List.length_reverse, List.length_cons] at h
    by_cases hi : i < rest.length
    · rw [position_cons_lt hi, ih (by rwa [List.length_reverse]), List.getElem_append_left]
    · have hlen : i = rest.length := by omega
      subst hlen
      rw [position_cons_length, List.getElem_append_right (by simp)]
      simp

/-- A front that repeats what is below adds nothing. -/
theorem position_cons_signBit {next : BitLattice} (h : front = signBit signed next) (i : Nat) :
    position signed (front :: next :: b) i = position signed (next :: b) i := by
  by_cases hi : i < (next :: b).length
  · exact position_cons_lt hi
  · have hidem : signBit signed front = front := by
      rw [h]
      cases signed <;> rfl
    rw [position_cons_ge (Nat.not_lt.mp hi) hidem, h, position_cons_gt]
    exact Nat.not_lt.mp hi

theorem exists_position_of_mem (signed : Bool) {t : BitLattice} (h : t ∈ b) :
    ∃ i < b.length, position signed b i = t := by
  induction b with
  | nil => exact absurd h List.not_mem_nil
  | cons front rest ih =>
    rcases List.mem_cons.mp h with rfl | hmem
    · exact ⟨rest.length, Nat.lt_succ_self _, position_cons_length⟩
    · obtain ⟨i, hi, hp⟩ := ih hmem
      exact ⟨i, Nat.lt_succ_of_lt hi, (position_cons_lt hi).trans hp⟩

end Position

section Describes

variable {signed : Bool} {b : Bitstring} {x : Int}

/-- The integers all of whose bits agree with `t`. -/
def Repeats : BitLattice → Int → Prop
  | .U, _ => True
  | .ZERO, q => q = 0
  | .ONE, q => q = -1
  | .X, _ => False

instance : ∀ t q, Decidable (Repeats t q)
  | .U, _ => inferInstanceAs (Decidable True)
  | .ZERO, q => inferInstanceAs (Decidable (q = 0))
  | .ONE, q => inferInstanceAs (Decidable (q = -1))
  | .X, _ => inferInstanceAs (Decidable False)

theorem repeats_iff {t : BitLattice} {q : Int} : Repeats t q ↔ ∀ i, t.Agrees (bitAt q i) := by
  cases t with
  | U => exact ⟨fun _ _ => trivial, fun _ => trivial⟩
  | ZERO =>
    refine ⟨?_, eq_zero_of_bitAt⟩
    rintro rfl i
    exact bitAt_zero i
  | ONE =>
    refine ⟨?_, eq_neg_one_of_bitAt⟩
    rintro rfl i
    exact bitAt_of_neg (n := 0) (by decide) (by decide) (Nat.zero_le i)
  | X => exact ⟨False.elim, fun h => h 0⟩

/-- A bitstring restricts its own positions, and the number above them through its front. -/
theorem describes_cons_iff {front : BitLattice} {rest : Bitstring} :
    Describes signed (front :: rest) x ↔
      (∀ i < rest.length + 1, (position signed (front :: rest) i).Agrees (bitAt x i)) ∧
        Repeats (signBit signed front) (x / 2 ^ (rest.length + 1)) := by
  rw [repeats_iff]
  constructor
  · intro h
    refine ⟨fun i _ => h i, fun i => ?_⟩
    rw [bitAt_ediv, ← position_cons_gt (b := rest) (by omega : rest.length < rest.length + 1 + i)]
    exact h _
  · rintro ⟨hlow, hhigh⟩ i
    rcases Nat.lt_or_ge i (rest.length + 1) with hi | hi
    · exact hlow i hi
    · obtain ⟨d, rfl⟩ := Nat.exists_eq_add_of_le hi
      rw [position_cons_gt (by omega), ← bitAt_ediv]
      exact hhigh d

instance : ∀ (signed : Bool) (b : Bitstring) (x : Int), Decidable (Describes signed b x)
  | _, [], _ => isFalse fun h => h 0
  | _, _ :: _, _ => decidable_of_iff _ describes_cons_iff.symm

example : Describes true [.U, .ONE] (-3) ∧ Describes true [.ONE, .U] (-2) ∧
    ¬ Describes false [.ONE, .U] 4 := by decide

theorem Describes.not_mem_X (h : Describes signed b x) : BitLattice.X ∉ b := by
  intro hX
  obtain ⟨i, -, hi⟩ := exists_position_of_mem signed hX
  have hbit := h i
  rw [hi] at hbit
  exact hbit

theorem Describes.ne_nil (h : Describes signed b x) : b ≠ [] := by
  rintro rfl
  exact h 0

theorem Describes.length_pos (h : Describes signed b x) : 0 < b.length :=
  List.length_pos_iff.mpr h.ne_nil

end Describes

/-! ## Ranges -/

/-- The numbers of an `n`-bit word. -/
def Fits (signed : Bool) (n : Nat) (x : Int) : Prop :=
  if signed then -2 ^ (n - 1) ≤ x ∧ x < 2 ^ (n - 1) else 0 ≤ x ∧ x < 2 ^ n

section Fits

variable {signed : Bool} {b : Bitstring} {x : Int} {n : Nat}

theorem Fits.bitAt (h : Fits signed n x) (hn : 0 < n) {i : Nat} (hi : n ≤ i) :
    bitAt x i = (signed && bitAt x (n - 1)) := by
  cases signed with
  | false => exact bitAt_of_nonneg h.1 h.2 hi
  | true =>
    rw [Bool.true_and]
    rcases lt_or_ge x 0 with h0 | h0
    · rw [bitAt_of_neg h0 h.1 le_rfl, bitAt_of_neg h0 h.1 (by omega)]
    · rw [bitAt_of_nonneg h0 h.2 le_rfl, bitAt_of_nonneg h0 h.2 (by omega)]

theorem Fits.readWord {w : Nat} (h : Fits signed n x) (hn : 0 < n) (hw : n ≤ w) :
    readWord signed w x = x := by
  cases signed with
  | false => exact Int.emod_eq_of_lt h.1 (h.2.trans_le (pow_le_pow_right₀ (by decide) hw))
  | true =>
    have hle : (2 : Int) ^ (n - 1) ≤ 2 ^ (w - 1) := pow_le_pow_right₀ (by decide) (by omega)
    exact signedResidue_of_mem (by omega) ((neg_le_neg hle).trans h.1) (h.2.trans_le hle)

theorem fits_readWord {w : Nat} (hw : 0 < w) (x : Int) :
    Fits signed w (Math.readWord signed w x) := by
  cases signed with
  | false => exact ⟨Int.emod_nonneg _ (by positivity), Int.emod_lt_of_pos _ (by positivity)⟩
  | true => exact signedResidue_mem hw x

/-- A number that fits the bitstring is described as soon as its own positions agree. -/
theorem Fits.describes (h : Fits signed b.length x) (hb : b ≠ [])
    (hlow : ∀ i < b.length, (position signed b i).Agrees (Bambu.Math.bitAt x i)) :
    Describes signed b x := by
  intro i
  rcases Nat.lt_or_ge i b.length with hi | hi
  · exact hlow i hi
  · have hpos := List.length_pos_iff.mpr hb
    rw [h.bitAt hpos hi]
    cases signed with
    | false =>
      rw [position_false_of_ge hb hi]
      rfl
    | true =>
      rw [position_true_of_ge (by omega), ← position_true_of_ge (b := b) le_rfl]
      exact hlow _ (by omega)

/-- A quotient of `0` or `-1` bounds a number. -/
theorem bounds_of_ediv {q : Int} (h : x / 2 ^ n = q) : q * 2 ^ n ≤ x ∧ x < (q + 1) * 2 ^ n := by
  have hx := Int.mul_ediv_add_emod x (2 ^ n)
  have hr0 : 0 ≤ x % 2 ^ n := Int.emod_nonneg x (by positivity)
  have hr1 : x % 2 ^ n < 2 ^ n := Int.emod_lt_of_pos x (by positivity)
  rw [h] at hx
  constructor <;> linarith

/-- A bitstring of zeros describes only zero. -/
theorem Describes.eq_zero (h : Describes signed b x)
    (hz : ∀ i < b.length, position signed b i = .ZERO) : x = 0 := by
  refine eq_zero_of_bitAt fun i => ?_
  have hi := h i
  rcases Nat.lt_or_ge i b.length with hlt | hge
  · rw [hz i hlt] at hi
    exact hi
  · cases signed with
    | false =>
      rw [position_false_of_ge h.ne_nil hge] at hi
      exact hi
    | true =>
      have hpos := h.length_pos
      rw [position_true_of_ge (by omega), ← position_true_of_ge le_rfl,
        hz _ (by omega)] at hi
      exact hi

/-- What is described fits, unless the sign is unknown. -/
theorem Describes.fits (h : Describes signed b x) :
    Fits signed b.length x ∨ signed = true ∧ b.headD .X = .U := by
  cases signed with
  | false =>
    left
    have hq : x / 2 ^ b.length = 0 := eq_zero_of_bitAt fun i => by
      have hi := h (b.length + i)
      rw [position_false_of_ge h.ne_nil (Nat.le_add_right _ _)] at hi
      rw [bitAt_ediv]
      exact hi
    have hx := bounds_of_ediv hq
    rw [zero_mul, zero_add, one_mul] at hx
    exact hx
  | true =>
    have hrep : Repeats (b.headD .X) (x / 2 ^ (b.length - 1)) := repeats_iff.mpr fun i => by
      rw [bitAt_ediv, ← position_true_of_ge (Nat.le_add_right (b.length - 1) i)]
      exact h _
    have hp : (0 : Int) < 2 ^ (b.length - 1) := by positivity
    cases hfront : b.headD .X with
    | U => exact .inr ⟨rfl, rfl⟩
    | ZERO =>
      rw [hfront] at hrep
      have hx := bounds_of_ediv hrep
      exact .inl ⟨by linarith, by linarith⟩
    | ONE =>
      rw [hfront] at hrep
      have hx := bounds_of_ediv hrep
      exact .inl ⟨by linarith, by linarith⟩
    | X =>
      rw [hfront] at hrep
      exact hrep.elim

end Fits

/-! ## Extension and reduction -/

section Resize

variable {signed : Bool} {b : Bitstring}

theorem position_replicate_append (signed : Bool) (k : Nat) (front : BitLattice)
    (rest : Bitstring) (i : Nat) :
    position signed (List.replicate k (signBit signed front) ++ front :: rest) i =
      position signed (front :: rest) i := by
  induction k with
  | zero => rfl
  | succ k ih =>
    rw [← ih, List.replicate_succ, List.cons_append]
    -- The position below the new one is the front or one of its copies.
    cases k with
    | zero => exact position_cons_signBit rfl i
    | succ k =>
      refine position_cons_signBit ?_ i
      cases signed <;> rfl

theorem position_replicate_zero {n : Nat} (hn : 0 < n) (i : Nat) :
    position signed (List.replicate n .ZERO) i = .ZERO := by
  obtain ⟨k, rfl⟩ := Nat.exists_eq_add_of_lt hn
  have hzero : signBit signed .ZERO = .ZERO := by cases signed <;> rfl
  have hrep := position_replicate_append signed k .ZERO [] i
  rw [hzero, ← List.replicate_succ'] at hrep
  rw [Nat.zero_add, hrep, position_cons_ge (Nat.zero_le i) hzero]

theorem signExtend_eq {front : BitLattice} {rest : Bitstring} (hX : front ≠ .X) (n : Nat) :
    signExtend (front :: rest) signed n =
      List.replicate (n - (rest.length + 1)) (signBit signed front) ++ front :: rest := by
  unfold signExtend signBit
  simp [hX]

theorem length_signExtend (n : Nat) (h : b ≠ []) :
    (signExtend b signed n).length = max b.length n := by
  unfold signExtend
  rw [if_neg h, List.length_append, List.length_replicate]
  omega

/-- Extension changes no position. -/
theorem position_signExtend (hX : BitLattice.X ∉ b) (h : b ≠ []) (n i : Nat) :
    position signed (signExtend b signed n) i = position signed b i := by
  cases b with
  | nil => exact absurd rfl h
  | cons front rest =>
    rw [signExtend_eq (fun he => hX (he ▸ List.mem_cons_self))]
    exact position_replicate_append signed _ front rest i

theorem position_signReduceLoop (rest : Bitstring) {front : BitLattice}
    (hX : BitLattice.X ∉ front :: rest) (i : Nat) :
    position signed (signReduceLoop signed front rest) i = position signed (front :: rest) i := by
  induction rest generalizing front with
  | nil => rfl
  | cons next rest ih =>
    have hrest : BitLattice.X ∉ next :: rest := fun h => hX (List.mem_cons_of_mem _ h)
    have hfront : front ≠ .X := fun h => hX (h ▸ List.mem_cons_self)
    have hnext : next ≠ .X := fun h => hrest (h ▸ List.mem_cons_self)
    have hdrop : front = signBit signed next →
        position signed (signReduceLoop signed next rest) i =
          position signed (front :: next :: rest) i :=
      fun h => (ih hrest).trans (position_cons_signBit h i).symm
    unfold signReduceLoop
    cases signed with
    | true =>
      rw [if_pos rfl]
      split
      case isTrue h => exact hdrop h.2
      case isFalse => rfl
    | false =>
      rw [if_neg Bool.false_ne_true, if_neg (fun h => hnext h.2 : ¬ (front = .ZERO ∧ next = .X))]
      split
      case isTrue h => exact hdrop (h.resolve_left fun h => hfront h.1).1
      case isFalse => rfl

/-- Neither does reduction. -/
theorem position_signReduce (hX : BitLattice.X ∉ b) (i : Nat) :
    position signed (signReduce signed b) i = position signed b i := by
  cases b with
  | nil => rfl
  | cons front rest => exact position_signReduceLoop rest hX i

theorem Describes.signExtend {x : Int} (h : Describes signed b x) (n : Nat) :
    Describes signed (signExtend b signed n) x := fun i => by
  rw [position_signExtend h.not_mem_X h.ne_nil]
  exact h i

theorem position_drop (k : Nat) {i : Nat} (hi : i < (b.drop k).length) :
    position signed (b.drop k) i = position signed b i := by
  induction k generalizing b with
  | zero => rfl
  | succ k ih =>
    cases b with
    | nil => rfl
    | cons front rest =>
      rw [List.drop_succ_cons] at hi ⊢
      rw [ih hi, position_cons_lt]
      rw [List.length_drop] at hi
      omega

theorem length_truncateTo (b : Bitstring) (n : Nat) :
    (truncateTo b n).length = min b.length n := by
  unfold truncateTo
  rw [List.length_drop]
  omega

theorem truncateTo_of_le {n : Nat} (h : b.length ≤ n) : truncateTo b n = b := by
  unfold truncateTo
  rw [Nat.sub_eq_zero_of_le h, List.drop_zero]

theorem position_truncateTo {n i : Nat} (hi : i < (truncateTo b n).length) :
    position signed (truncateTo b n) i = position signed b i := position_drop _ hi

theorem length_extendTo (signed : Bool) (h : b ≠ []) (size : Nat) :
    (extendTo b signed size).length = max b.length size := by
  unfold extendTo
  split
  case isTrue => exact length_signExtend size h
  case isFalse => omega

theorem position_extendTo (hX : BitLattice.X ∉ b) (h : b ≠ []) (size i : Nat) :
    position signed (extendTo b signed size) i = position signed b i := by
  unfold extendTo
  split
  case isTrue => exact position_signExtend hX h size i
  case isFalse => rfl

theorem Describes.extendTo {x : Int} (h : Describes signed b x) (size : Nat) :
    Describes signed (extendTo b signed size) x := fun i => by
  rw [position_extendTo h.not_mem_X h.ne_nil]
  exact h i

theorem Describes.signReduce {x : Int} (h : Describes signed b x) :
    Describes signed (signReduce signed b) x := fun i => by
  rw [position_signReduce h.not_mem_X]
  exact h i

theorem Describes.reduceCurrent {x : Int} (h : Describes signed b x) :
    Describes signed (reduceCurrent signed b) x := by
  have hred := h.signReduce
  unfold Bambu.reduceCurrent
  split
  case h_1 hnil => exact absurd hnil hred.ne_nil
  case h_2 front rest heq =>
    have hX : front ≠ .X := fun hX => hred.not_mem_X (by rw [heq, hX]; exact List.mem_cons_self)
    rw [if_neg (fun hs => hX hs.2), ← heq]
    exact hred

end Resize

/-! ## Words -/

/-- The positions of a `w`-bit word whose bits are known as `f` says. -/
def wordPosition (signed : Bool) (w : Nat) (f : Nat → BitLattice) (i : Nat) : BitLattice :=
  if i < w then f i else signBit signed (f (w - 1))

/-- A bitstring of the low bits of `z` describes the number they are read as. -/
theorem describes_readWord {signed : Bool} {w : Nat} {b : Bitstring} {f : Nat → BitLattice}
    {z : Int} (hw : 0 < w) (hb : ∀ i, position signed b i = wordPosition signed w f i)
    (hf : ∀ i < w, (f i).Agrees (bitAt z i)) : Describes signed b (readWord signed w z) := by
  intro i
  rw [hb, bitAt_readWord hw]
  unfold wordPosition
  split
  case isTrue hi => exact hf i hi
  case isFalse =>
    cases signed with
    | false => rfl
    | true => exact hf (w - 1) (by omega)

end Bambu
