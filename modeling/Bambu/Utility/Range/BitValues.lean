/-
  Bambu.Utility.Range.BitValues

  `Range::fromBitValues` and `Range::getBitValues`, through which the analysis of bits and the
  analysis of ranges exchange what they know.

  Both are right because numbers are ordered as their bits are: a number with more bits set below
  the sign is larger (`fits_le_of_bits`), and the numbers between two that agree from some position
  on agree with them from there on (`bitAt_of_between`).
-/

import Bambu.Utility.Range.Div
import Bambu.Utility.SupInf

namespace Bambu

open Bambu.Math BitLattice

/-! ## Order and bits -/

section Order

variable {signed : Bool} {n : Nat} {x y : Int}

/-- More bits give a larger number. -/
theorem emod_le_of_bits (h : ∀ i < n, bitAt x i = true → bitAt y i = true) :
    x % 2 ^ n ≤ y % 2 ^ n := by
  induction n with
  | zero => simp
  | succ n ih =>
    have hlow := ih fun i hi => h i (Nat.lt_succ_of_lt hi)
    have htop : (x / 2 ^ n % 2) ≤ y / 2 ^ n % 2 := by
      rw [← toNat_bitAt, ← toNat_bitAt]
      have hbit := h n (Nat.lt_succ_self n)
      cases hx : bitAt x n with
      | false => exact Int.natCast_nonneg _
      | true => rw [hbit hx]
    have hmul := mul_le_mul_of_nonneg_right htop (show (0 : Int) ≤ 2 ^ n by positivity)
    rw [emod_two_pow_succ', emod_two_pow_succ' y]
    linarith

/-- The part of a word above its top position. -/
theorem fits_ediv_top (h : Fits signed n x) (hn : 0 < n) :
    x / 2 ^ (n - 1) = if signed then -((bitAt x (n - 1)).toNat : Int)
      else (bitAt x (n - 1)).toNat := by
  have hp : (0 : Int) < 2 ^ (n - 1) := by positivity
  rw [toNat_bitAt]
  cases signed with
  | true =>
    obtain ⟨hlo, hhi⟩ := h
    rcases lt_or_ge x 0 with hneg | hnonneg
    · rw [Int.ediv_eq_neg_one_of_neg_of_le hneg (by linarith)]
      rfl
    · rw [Int.ediv_eq_zero_of_lt hnonneg hhi]
      rfl
  | false =>
    obtain ⟨hlo, hhi⟩ := h
    have hpow : (2 : Int) ^ n = 2 * 2 ^ (n - 1) := by
      rw [← pow_succ']
      congr 1
      omega
    have hq : 0 ≤ x / 2 ^ (n - 1) := Int.ediv_nonneg hlo hp.le
    have hq' : x / 2 ^ (n - 1) < 2 := Int.ediv_lt_of_lt_mul hp (by linarith)
    rw [if_neg Bool.false_ne_true]
    omega

/-- Words are ordered as their bits are; the top bit of a signed one counts the other way. -/
theorem fits_le_of_bits (hn : 0 < n) (hx : Fits signed n x) (hy : Fits signed n y)
    (hlow : ∀ i < n - 1, bitAt x i = true → bitAt y i = true)
    (htop : if signed then bitAt y (n - 1) = true → bitAt x (n - 1) = true
      else bitAt x (n - 1) = true → bitAt y (n - 1) = true) : x ≤ y := by
  have hquotient : x / 2 ^ (n - 1) ≤ y / 2 ^ (n - 1) := by
    rw [fits_ediv_top hx hn, fits_ediv_top hy hn]
    cases signed with
    | true =>
      cases hbit : bitAt y (n - 1) with
      | false => simp
      | true => simp [htop hbit]
    | false =>
      cases hbit : bitAt x (n - 1) with
      | false => simp
      | true => simp [htop hbit]
  rcases lt_or_eq_of_le hquotient with hlt | heq
  · exact (lt_of_ediv_two_pow_lt hlt).le
  · exact le_of_ediv_emod heq (emod_le_of_bits hlow)

/-- Bits that agree from a position on give equal quotients. -/
theorem ediv_eq_of_bits (h : ∀ i, n ≤ i → bitAt x i = bitAt y i) : x / 2 ^ n = y / 2 ^ n := by
  refine eq_of_bitAt fun i => ?_
  rw [bitAt_ediv, bitAt_ediv]
  exact h _ (Nat.le_add_right _ _)

/-- Between two numbers whose bits agree from a position on. -/
theorem bitAt_of_between {z : Int} (h : ∀ i, n ≤ i → bitAt x i = bitAt y i) (hxz : x ≤ z)
    (hzy : z ≤ y) : bitAt z n = bitAt x n := by
  have hp : (0 : Int) < 2 ^ n := by positivity
  have heq := ediv_eq_of_bits h
  have hlo := Int.ediv_le_ediv hp hxz
  have hhi := Int.ediv_le_ediv hp hzy
  rw [bitAt_eq_iff, show z / 2 ^ n = x / 2 ^ n by omega]

theorem Fits.between (hx : Fits signed n x) (hy : Fits signed n y) {z : Int} (hxz : x ≤ z)
    (hzy : z ≤ y) : Fits signed n z := by
  cases signed with
  | true => exact ⟨hx.1.trans hxz, lt_of_le_of_lt hzy hy.2⟩
  | false => exact ⟨hx.1.trans hxz, lt_of_le_of_lt hzy hy.2⟩

end Order

/-- The low `w` bits of `x` agree with the bitstring extended to `w` positions. -/
def Matches (signed : Bool) (w : Nat) (b : Bitstring) (x : Int) : Prop :=
  ∀ i < w, (position signed (extendTo b signed w) i).Agrees (bitAt x i)

namespace Range

open APInt

/-! ## The source -/

/-- The loop of `bitstring_to_int`, from the back of the bitstring. -/
def bitstringLoop : Bitstring → Nat → BitVec 64 → BitVec 64
  | [], _, out => out
  | t :: rest, i, out =>
    bitstringLoop rest (i + 1) (if t = .ONE then out ||| 1#64 <<< i else out &&& ~~~(1#64 <<< i))

/-- `bitstring_to_int`; `long long` has 64 bits. -/
def bitstringToInt (isSigned : Bool) (bvIn : Bitstring) : Int :=
  let out := if isSigned ∧ bvIn.headD .X = .ONE then BitVec.intMin 64 else 0
  (bitstringLoop bvIn.reverse 0 out).toInt

/-- `manip` -/
def manip (bitwidth : Nat) (isSigned : Bool) (bvIn : Bitstring) : Except Error APInt :=
  extOrTrunc (SignMag.ofInt (bitstringToInt isSigned (extendTo bvIn isSigned bitwidth))) bitwidth
    isSigned

/-- `bv_out`: what is not known is filled in, differently at the front. -/
def fillUnknown (frontFill fill : BitLattice) : Bitstring → Bitstring
  | [] => []
  | front :: rest =>
    (if front = .U ∨ front = .X then frontFill else front) ::
      rest.map fun t => if t = .U ∨ t = .X then fill else t

def fromBitValues (bv : Bitstring) (bitwidth : Nat) (isSigned : Bool) : Except Error Range := do
  throwAssert (bv.length ≤ bitwidth) "BitValues size not appropriate"
  let max ← manip bitwidth isSigned (fillUnknown (if isSigned then .ZERO else .ONE) .ONE bv)
  let min ← manip bitwidth isSigned (fillUnknown (if isSigned then .ONE else .ZERO) .ZERO bv)
  throwAssert (min ≤ max) ""
  ofBounds .regular bitwidth min max

/-- The loop over both bitstrings up to their first difference. -/
def commonPrefix : Bitstring → Bitstring → Bitstring
  | s :: shorter, l :: longer => if s = l then s :: commonPrefix shorter longer else []
  | _, _ => []

/-- `isSigned ? getSignedMin() : getUnsignedMin()` -/
def leastReading (this : Range) (isSigned : Bool) : Except Error APInt :=
  if isSigned then this.getSignedMin else this.getUnsignedMin

/-- `isSigned ? getSignedMax() : getUnsignedMax()` -/
def greatestReading (this : Range) (isSigned : Bool) : Except Error APInt :=
  if isSigned then this.getSignedMax else this.getUnsignedMax

def getBitValues (this : Range) (isSigned : Bool) : Except Error Bitstring :=
  if this.isEmpty || this.isAnti || this.isUnknown then .ok (createUBitstring this.bw)
  else if this.isConstant then do
    let value ← this.leastReading isSigned
    .ok (createBitstringFromConstant value.val this.bw isSigned)
  else do
    let minValue ← this.leastReading isSigned
    let maxValue ← this.greatestReading isSigned
    let min := createBitstringFromConstant minValue.val this.bw isSigned
    let max := createBitstringFromConstant maxValue.val this.bw isSigned
    let longer := if min.length ≥ max.length then min else max
    let shorter := if min.length ≥ max.length then max else min
    let shorter := extendTo shorter isSigned longer.length
    let range_bv := commonPrefix shorter longer
    .ok (signReduce isSigned
      (range_bv ++ List.replicate (longer.length - range_bv.length) .U))

/-! ## From a range to bits -/

section GetBitValues

variable {signed : Bool} {s l : Bitstring} {i : Nat}

theorem position_replicate_U {n : Nat} (hi : i < n) :
    position signed (List.replicate n .U) i = .U := by
  rw [position_eq_getElem_reverse signed (by simpa using hi)]
  simp

theorem length_commonPrefix_le (s l : Bitstring) : (commonPrefix s l).length ≤ l.length := by
  induction s generalizing l with
  | nil => exact Nat.zero_le _
  | cons front s ih =>
    cases l with
    | nil => exact Nat.zero_le _
    | cons front' l =>
      rw [commonPrefix]
      split
      · exact Nat.succ_le_succ (ih l)
      · exact Nat.zero_le _

/-- The common prefix is filled up with unknown positions. -/
def padPrefix (s l : Bitstring) : Bitstring :=
  commonPrefix s l ++ List.replicate (l.length - (commonPrefix s l).length) .U

theorem length_padPrefix (s l : Bitstring) : (padPrefix s l).length = l.length := by
  have hle := length_commonPrefix_le s l
  unfold padPrefix
  rw [List.length_append, List.length_replicate]
  omega

/-- A position is kept only where both bitstrings agree from it on. -/
theorem position_padPrefix (hlen : s.length = l.length) (hi : i < l.length) :
    position signed (padPrefix s l) i = .U ∨
      position signed (padPrefix s l) i = position signed s i ∧
        ∀ j, i ≤ j → j < l.length → position signed s j = position signed l j := by
  induction s generalizing l with
  | nil =>
    rw [← hlen] at hi
    exact absurd hi (Nat.not_lt_zero i)
  | cons front s ih =>
    cases l with
    | nil => exact absurd hi (Nat.not_lt_zero i)
    | cons front' l =>
      have hlen' : s.length = l.length := Nat.succ.inj hlen
      by_cases hfront : front = front'
      · subst hfront
        have hpad : padPrefix (front :: s) (front :: l) = front :: padPrefix s l := by
          simp [padPrefix, commonPrefix]
        have hpadlen := length_padPrefix s l
        rw [hpad]
        have htop : position signed (front :: s) l.length = position signed (front :: l) l.length := by
          rw [position_cons_length, ← hlen', position_cons_length]
        rcases Nat.lt_or_eq_of_le (Nat.le_of_lt_succ hi) with hlt | rfl
        · rw [position_cons_lt (by omega), position_cons_lt (by omega)]
          refine (ih hlen' hlt).imp_right fun ⟨hsame, hagree⟩ => ⟨hsame, fun j hij hj => ?_⟩
          rcases Nat.lt_or_eq_of_le (Nat.le_of_lt_succ hj) with hj' | rfl
          · rw [position_cons_lt (by omega), position_cons_lt hj']
            exact hagree j hij hj'
          · exact htop
        · refine .inr ⟨?_, fun j hij hj => ?_⟩
          · rw [← hpadlen, position_cons_length, hpadlen, ← hlen', position_cons_length]
          · obtain rfl : j = l.length := by
              rw [List.length_cons] at hj
              omega
            exact htop
      · have hpad : padPrefix (front :: s) (front' :: l) = List.replicate (l.length + 1) .U := by
          simp [padPrefix, commonPrefix, hfront]
        rw [hpad]
        exact .inl (position_replicate_U hi)

/-- The bitstring of a constant, extended: its positions are the bits. -/
theorem constant_positions {w size : Nat} {v : Int} (hw : 0 < w) (h : Fits signed w v) (i : Nat) :
    position signed (extendTo (createBitstringFromConstant v w signed) signed size) i =
      ofBool (bitAt v i) := by
  have hdescribes := (describes_createBitstringFromConstant (x := v) hw h).mpr rfl
  rw [position_extendTo hdescribes.not_mem_X hdescribes.ne_nil,
    position_createBitstringFromConstant hw h]

/-- A constant fits its bitstring. -/
theorem constant_fits {w : Nat} {v : Int} (hw : 0 < w) (h : Fits signed w v) :
    Fits signed (createBitstringFromConstant v w signed).length v := by
  have hdescribes := (describes_createBitstringFromConstant (x := v) hw h).mpr rfl
  refine hdescribes.fits.resolve_right fun ⟨hsigned, hU⟩ => ?_
  subst hsigned
  rw [← position_true_of_ge (Nat.le_refl _), position_createBitstringFromConstant hw h] at hU
  revert hU
  cases bitAt v _ <;> exact BitLattice.noConfusion

/-- What two constants have in common describes the numbers between them. -/
theorem describes_padPrefix {w : Nat} {p q z : Int} (hw : 0 < w) (hp : Fits signed w p)
    (hq : Fits signed w q) (hz : p ≤ z ∧ z ≤ q ∨ q ≤ z ∧ z ≤ p)
    (hle : (createBitstringFromConstant p w signed).length ≤
      (createBitstringFromConstant q w signed).length) :
    Describes signed (padPrefix (extendTo (createBitstringFromConstant p w signed) signed
      (createBitstringFromConstant q w signed).length)
        (createBitstringFromConstant q w signed)) z := by
  have hpfits := (constant_fits hw hp).mono hle
  have hqfits := constant_fits hw hq
  have hqpos : 0 < (createBitstringFromConstant q w signed).length :=
    ((describes_createBitstringFromConstant hw hq).mpr rfl).length_pos
  have hpne : createBitstringFromConstant p w signed ≠ [] :=
    ((describes_createBitstringFromConstant hw hp).mpr rfl).ne_nil
  have hpbits := @constant_positions signed w (createBitstringFromConstant q w signed).length p hw hp
  have hlen := (length_extendTo signed hpne
    (createBitstringFromConstant q w signed).length).trans (max_eq_right hle)
  have hqbits := position_createBitstringFromConstant hw hq
  generalize extendTo (createBitstringFromConstant p w signed) signed _ = s at *
  generalize createBitstringFromConstant q w signed = l at *
  have hzfits : Fits signed l.length z := by
    rcases hz with ⟨hpz, hzq⟩ | ⟨hqz, hzp⟩
    · exact hpfits.between hqfits hpz hzq
    · exact hqfits.between hpfits hqz hzp
  have hpad := length_padPrefix s l
  refine Fits.describes (hpad ▸ hzfits) (List.ne_nil_of_length_pos (hpad ▸ hqpos)) fun i hi => ?_
  rw [hpad] at hi
  rcases @position_padPrefix signed s l i hlen hi with hU | ⟨hsame, hagree⟩
  · rw [hU]
    trivial
  · -- Above the bitstrings both numbers repeat their top bit.
    have hsame' : ∀ j, i ≤ j → bitAt p j = bitAt q j := by
      have hbits : ∀ j, i ≤ j → j < l.length → bitAt p j = bitAt q j := by
        intro j hij hj
        have h := hagree j hij hj
        rw [hpbits, hqbits] at h
        exact agrees_ofBool.mp (h ▸ agrees_ofBool.mpr rfl)
      intro j hij
      rcases Nat.lt_or_ge j l.length with hj | hj
      · exact hbits j hij hj
      · rw [hpfits.bitAt hqpos hj, hqfits.bitAt hqpos hj, hbits _ (by omega) (by omega)]
    rw [hsame, hpbits, agrees_ofBool]
    rcases hz with ⟨hpz, hzq⟩ | ⟨hqz, hzp⟩
    · exact bitAt_of_between hsame' hpz hzq
    · rw [hsame' i (Nat.le_refl i)]
      exact bitAt_of_between (fun j hj => (hsame' j hj).symm) hqz hzp

end GetBitValues

theorem unknown_not_empty {a : Range} (ht : a.type = .regular) :
    ¬ a.isUnknown = true ∧ ¬ a.isEmpty = true := by
  have hp : a.Proper := .inl ht
  exact ⟨hp.not_unknown, hp.not_empty⟩

/-- The extrema that `getBitValues` asks for enclose the reading of every value. -/
theorem exists_hull {a : Range} (hw : a.bw < maxDigits) (ht : a.type = .regular)
    (hwf : a.WellFormed) (signed : Bool) : ∃ m n, a.leastReading signed = .ok m ∧
      a.greatestReading signed = .ok n ∧ Fits signed a.bw m.val ∧ Fits signed a.bw n.val ∧
      ∀ x ∈ a.gamma, m.val ≤ readWord signed a.bw x ∧ readWord signed a.bw x ≤ n.val := by
  have hp : a.Proper := .inl ht
  cases signed with
  | true =>
    obtain ⟨m, n, hm, hn, hlo, hle, hhi, hbounds⟩ := exists_signedHull hp hwf
    refine ⟨m, n, hm, hn, ⟨hlo, lt_of_le_of_lt hle hhi⟩, ⟨le_trans hlo hle, hhi⟩, fun x hx => ?_⟩
    rw [readWord, if_pos rfl, signedResidue_of_mem a.bw_valid.1 hx.1.1 hx.1.2]
    exact hbounds x hx
  | false =>
    obtain ⟨m, n, hm, hn, hlo, hhi, hbounds⟩ := exists_unsignedHull hw hp hwf
    rw [two_mul_half a.bw_valid.1] at hhi
    -- A Regular range is not empty, so the extrema are in order.
    have hle : m.val ≤ n.val := by
      have hP := half_pos a.bw
      rcases hwf.1 ht with ⟨hl, hu⟩ | hlim
      · have hC := half_le_half hw.le
        have hmem : -half a.bw ∈ a.gamma := by
          rw [mem_gamma_of_regular ht, hl, hu, min_val, max_val]
          omega
        exact (hbounds _ hmem).1.trans (hbounds _ hmem).2
      · have hmem : a.l.val ∈ a.gamma := by
          obtain ⟨h1, h2, h3⟩ := hlim
          rw [mem_gamma_of_regular ht]
          omega
        exact (hbounds _ hmem).1.trans (hbounds _ hmem).2
    exact ⟨m, n, hm, hn, ⟨hlo, lt_of_le_of_lt hle hhi⟩, ⟨hlo.trans hle, hhi⟩, hbounds⟩

/-- The least value of a constant is its reading. -/
theorem leastReading_of_constant {a : Range} (hw : a.bw < maxDigits) (ht : a.type = .regular)
    (hlim : a.InLimits) (heq : a.l = a.u) (signed : Bool) :
    ∃ m, a.leastReading signed = .ok m ∧ m.val = readWord signed a.bw a.l.val := by
  have h0 := a.bw_valid.1
  have hmin := getSignedMin_of_limits ht hlim
  obtain ⟨hlo, hle, hhi⟩ := hlim
  rw [← heq] at hhi
  cases signed with
  | true =>
    refine ⟨a.l, hmin, ?_⟩
    exact (signedResidue_of_mem h0 hlo hhi).symm
  | false =>
    unfold leastReading getUnsignedMin
    rw [if_neg Bool.false_ne_true, throwAssert_of (unknown_not_empty ht), ok_bind,
      if_neg (by simp [ht])]
    refine ⟨_, rfl, ?_⟩
    simp only [zero_lt_iff, lt_zero_iff, ← heq]
    split
    · exact extTrunc_unsigned_val h0 hw a.l
    · rw [getMinValue_val, show a.l.val = 0 by omega]
      exact (Int.zero_emod _).symm

/-- Every value of a range agrees with its bit values. -/
theorem getBitValues_matches {a : Range} (hw : a.bw < maxDigits) (hp : a.Proper)
    (hwf : a.WellFormed) (signed : Bool) : ∃ b, a.getBitValues signed = .ok b ∧
      ∀ x ∈ a.gamma, Matches signed a.bw b x := by
  have h0 := a.bw_valid.1
  -- What describes the reading of a word matches the word.
  have hmatches : ∀ {b : Bitstring} {x : Int}, Describes signed b (readWord signed a.bw x) →
      Matches signed a.bw b x := by
    intro b x h i hi
    have hbit := (h.extendTo a.bw) i
    rw [bitAt_readWord h0, if_pos hi] at hbit
    exact hbit
  unfold getBitValues
  split
  · -- Nothing is known of the bits.
    refine ⟨_, rfl, fun x _ i hi => ?_⟩
    have hlen : (createUBitstring a.bw).length = a.bw := List.length_replicate
    rw [extendTo, if_neg (by omega), createUBitstring, position_replicate_U hi]
    trivial
  rename_i hregular
  have ht : a.type = .regular := by
    refine hp.resolve_right fun hanti => hregular ?_
    simp [hanti]
  obtain ⟨m, n, hm, hn, hmfits, hnfits, hbounds⟩ := exists_hull hw ht hwf signed
  split
  · rename_i hconstant
    have heq := (isConstant_iff.mp hconstant).2
    have hlim : a.InLimits := by
      refine (hwf.1 ht).resolve_left fun ⟨hl, hu⟩ => ?_
      rw [hl, hu] at heq
      have hval := congrArg SignMag.val heq
      have hC := half_pos maxDigits
      rw [min_val, max_val] at hval
      omega
    obtain ⟨v, hv, hval⟩ := leastReading_of_constant hw ht hlim heq signed
    rw [hm] at hv
    injection hv with hv
    subst hv
    rw [hm]
    refine ⟨_, rfl, fun x hx => hmatches ?_⟩
    rw [describes_createBitstringFromConstant h0 hmfits, hval]
    obtain ⟨-, hxl, hxu⟩ := (mem_gamma_of_regular ht).mp hx
    rw [← heq] at hxu
    rw [le_antisymm hxu hxl]
  rw [hm, hn]
  refine ⟨_, rfl, fun x hx => hmatches (Describes.signReduce ?_)⟩
  obtain ⟨hlo, hhi⟩ := hbounds x hx
  split
  · rename_i hlen
    exact describes_padPrefix h0 hnfits hmfits (.inr ⟨hlo, hhi⟩) hlen
  · rename_i hlen
    exact describes_padPrefix h0 hmfits hnfits (.inl ⟨hlo, hhi⟩) (not_le.mp hlen).le

/-! ## From bits to a range -/

section FromBitValues

variable {signed : Bool} {w : Nat} {bv : Bitstring} {x y : Int}

/-- The loop writes one position a bit from `i` on, and keeps the others. -/
theorem getLsbD_bitstringLoop (b : Bitstring) (i : Nat) (out : BitVec 64) {j : Nat} (hj : j < 64) :
    (bitstringLoop b i out).getLsbD j =
      if i ≤ j ∧ j < i + b.length then decide (b.getD (j - i) .X = .ONE) else out.getLsbD j := by
  induction b generalizing i out with
  | nil =>
    rw [bitstringLoop, if_neg]
    rintro ⟨hle, hlt⟩
    exact absurd hlt (not_lt.mpr hle)
  | cons t rest ih =>
    have hbit : (if t = .ONE then out ||| 1#64 <<< i else out &&& ~~~(1#64 <<< i)).getLsbD j =
        if j = i then decide (t = .ONE) else out.getLsbD j := by
      by_cases hji : j = i
      · subst hji
        split <;> rename_i ht <;> simp [hj, ht]
      · have hone : (1#64 <<< i).getLsbD j = false := by
          simp only [BitVec.getLsbD_shiftLeft, BitVec.getLsbD_one]
          simp
          omega
        rw [if_neg hji]
        split
        · rw [BitVec.getLsbD_or, hone, Bool.or_false]
        · rw [BitVec.getLsbD_and, BitVec.getLsbD_not, hone]
          simp [hj]
    rw [bitstringLoop, ih, hbit, List.length_cons]
    rcases Nat.lt_trichotomy j i with hlt | rfl | hgt
    · rw [if_neg (by omega), if_neg (by omega), if_neg (by omega)]
    · rw [if_neg (by omega), if_pos rfl, if_pos (by omega), Nat.sub_self, List.getD_cons_zero]
    · obtain ⟨d, rfl⟩ : ∃ d, j = i + 1 + d := ⟨j - (i + 1), by omega⟩
      have hsub : i + 1 + d - i = d + 1 := by omega
      rw [if_neg (show ¬ i + 1 + d = i by omega), hsub, List.getD_cons_succ,
        Nat.add_sub_cancel_left]
      congr 1
      simp only [eq_iff_iff]
      omega

/-- The bits of a signed word. -/
theorem bitAt_toInt (v : BitVec 64) {j : Nat} (hj : j < 64) : bitAt v.toInt j = v.getLsbD j := by
  have hmod : v.toInt ≡ (v.toNat : Int) [ZMOD 2 ^ 64] := by
    rw [BitVec.toInt_eq_toNat_bmod]
    exact Int.bmod_emod
  rw [bitAt_congr hmod hj, BitVec.getLsbD, Nat.testBit_eq_decide_div_mod_eq, bitAt]
  congr 1
  rw [eq_iff_iff]
  norm_cast

/-- The number read from a bitstring has a bit set where the bitstring has a one. -/
theorem bitAt_bitstringToInt (signed : Bool) {b : Bitstring} (hb : b.length ≤ 64) {i : Nat}
    (hi : i < b.length) :
    bitAt (bitstringToInt signed b) i = decide (position signed b i = .ONE) := by
  have hrev : i < b.reverse.length := by rwa [List.length_reverse]
  unfold bitstringToInt
  rw [bitAt_toInt _ (by omega), getLsbD_bitstringLoop _ _ _ (by omega), if_pos (by simpa using hi),
    position_eq_getElem_reverse signed hrev, Nat.sub_zero, List.getD_eq_getElem _ _ hrev]

/-- `fillUnknown` replaces the unknown positions. -/
theorem position_fillUnknown {c d : Bool} (hX : BitLattice.X ∉ bv) {i : Nat} (hi : i < bv.length) :
    position signed (fillUnknown (ofBool c) (ofBool d) bv) i =
      if position signed bv i = .U then ofBool (if i + 1 = bv.length then c else d)
      else position signed bv i := by
  cases bv with
  | nil => exact absurd hi (Nat.not_lt_zero i)
  | cons front rest =>
    have hlen : (rest.map fun t => if t = .U ∨ t = .X then ofBool d else t).length = rest.length :=
      List.length_map _
    obtain ⟨hfront, hrest⟩ := not_or.mp (mt List.mem_cons.mpr hX)
    rw [fillUnknown, List.length_cons]
    rcases Nat.lt_or_eq_of_le (Nat.le_of_lt_succ hi) with hlt | rfl
    · have hrev : i < rest.reverse.length := by rwa [List.length_reverse]
      have hne : rest.reverse[i] ≠ .X := fun h =>
        hrest (List.mem_reverse.mp (h ▸ List.getElem_mem hrev))
      rw [position_cons_lt (by omega), position_cons_lt hlt,
        if_neg (show ¬ i + 1 = rest.length + 1 by omega),
        position_eq_getElem_reverse signed (by simpa using hlt),
        position_eq_getElem_reverse signed hrev]
      simp only [← List.map_reverse, List.getElem_map, hne, or_false]
    · rw [show rest.length = _ from hlen.symm, position_cons_length, hlen, position_cons_length,
        if_pos rfl]
      simp only [Ne.symm hfront, or_false]

/-- What `fillUnknown` describes has the bits it was told to, and otherwise those of what the
    bitstring describes. -/
theorem bitAt_fillUnknown {c d : Bool} (hX : BitLattice.X ∉ bv) (hx : Describes signed bv x)
    (hy : Describes signed (fillUnknown (ofBool c) (ofBool d) bv) y) {i : Nat}
    (hi : i < bv.length) :
    bitAt y i = if position signed bv i = .U then (if i + 1 = bv.length then c else d)
      else bitAt x i := by
  have hbit := hy i
  have hown := hx i
  rw [position_fillUnknown hX hi] at hbit
  split at hbit
  · rename_i hU
    rw [if_pos hU]
    exact agrees_ofBool.mp hbit
  · rename_i hU
    rw [if_neg hU]
    cases hpos : position signed bv i <;> rw [hpos] at hbit hown hU
    · exact absurd rfl hU
    · exact hbit.trans hown.symm
    · exact hbit.trans hown.symm
    · exact hown.elim

theorem length_fillUnknown (s t : BitLattice) (b : Bitstring) :
    (fillUnknown s t b).length = b.length := by
  cases b with
  | nil => rfl
  | cons front rest => simp [fillUnknown]

/-- No position of a filled bitstring is unknown. -/
theorem known_of_mem_fillUnknown {c d : Bool} {b : Bitstring} {t : BitLattice}
    (ht : t ∈ fillUnknown (ofBool c) (ofBool d) b) : t = .ZERO ∨ t = .ONE := by
  have hfill : ∀ s : BitLattice, ∀ e : Bool, (if s = .U ∨ s = .X then ofBool e else s) = .ZERO ∨
      (if s = .U ∨ s = .X then ofBool e else s) = .ONE := by
    intro s
    cases s <;> decide
  cases b with
  | nil => cases ht
  | cons front rest =>
    rcases List.mem_cons.mp ht with rfl | ht
    · exact hfill front c
    · obtain ⟨s, -, rfl⟩ := List.mem_map.mp ht
      exact hfill s d

/-- `manip` returns the number that a bitstring without unknown positions describes. -/
theorem manip_spec (signed : Bool) {b : Bitstring} (hb : b ≠ []) (hw : w ≤ 64)
    (hlen : b.length ≤ w) (hknown : ∀ t ∈ b, t = .ZERO ∨ t = .ONE) :
    ∃ m, manip w signed b = .ok m ∧ Fits signed b.length m.val ∧ Describes signed b m.val := by
  have hpos := List.length_pos_iff.mpr hb
  have h0 : 0 < w := by omega
  have hdigits : w < maxDigits := lt_of_le_of_lt hw (by decide)
  have hX : BitLattice.X ∉ b := fun h => by rcases hknown _ h with h | h <;> cases h
  have hext := length_extendTo signed hb w
  rw [max_eq_right hlen] at hext
  refine ⟨_, extOrTrunc_of_pos h0 _ _, ?_⟩
  -- The number read before it is cut off is a 64-bit one.
  set z := bitstringToInt signed (extendTo b signed w) with hz
  have hzval : (SignMag.ofInt z : APInt).val = z := by
    have hlo := BitVec.le_toInt (bitstringLoop (extendTo b signed w).reverse 0
      (if signed ∧ (extendTo b signed w).headD .X = .ONE then BitVec.intMin 64 else 0))
    have hhi := BitVec.toInt_lt (x := bitstringLoop (extendTo b signed w).reverse 0
      (if signed ∧ (extendTo b signed w).headD .X = .ONE then BitVec.intMin 64 else 0))
    have hcap : (2 : Int) ^ (64 - 1) ≤ half maxDigits := pow_le_pow_right₀ (by decide) (by decide)
    refine val_of_fits ?_ ?_ <;> unfold bitstringToInt at hz <;> rw [hz] <;> linarith
  have hval : (extTrunc (SignMag.ofInt z) w signed).val = readWord signed w z := by
    cases signed with
    | true => rw [extTrunc_signed_val h0 hdigits, hzval]; rfl
    | false => rw [extTrunc_unsigned_val h0 hdigits, hzval]; rfl
  have hdescribes : Describes signed b (readWord signed w z) := by
    have hext' : Describes signed (extendTo b signed w) (readWord signed w z) := by
      refine Fits.describes (by rw [hext]; exact fits_readWord h0 z)
        (List.ne_nil_of_length_pos (by omega)) fun i hi => ?_
      rw [hext] at hi
      rw [bitAt_readWord h0, if_pos hi, hz, bitAt_bitstringToInt signed (by omega) (by omega),
        position_extendTo hX hb]
      rcases position_mem_or_zero signed hb i with hmem | hzero
      · rcases hknown _ hmem with h | h <;> rw [h] <;> rfl
      · rw [hzero]
        rfl
    intro i
    rw [← position_extendTo hX hb w]
    exact hext' i
  rw [hval]
  refine ⟨hdescribes.fits.resolve_right fun ⟨_, hU⟩ => ?_, hdescribes⟩
  cases b with
  | nil => exact hb rfl
  | cons front rest =>
    rw [List.headD_cons] at hU
    subst hU
    rcases hknown .U (List.mem_cons_self ..) with h | h <;> cases h

/-- The number with the most bits, the sign apart, is the greatest. -/
theorem le_of_fill_max (hX : BitLattice.X ∉ bv) (hb : bv ≠ []) (hx : Describes signed bv x)
    (hfits : Fits signed bv.length x)
    (hy : Describes signed (fillUnknown (ofBool !signed) (ofBool true) bv) y)
    (hyfits : Fits signed bv.length y) : x ≤ y := by
  have hpos := List.length_pos_iff.mpr hb
  have hbit := fun i hi => @bitAt_fillUnknown _ _ _ _ _ _ hX hx hy i hi
  refine fits_le_of_bits hpos hfits hyfits (fun i hi hone => ?_) ?_
  · rw [hbit i (by omega), hone]
    split
    · rw [if_neg (by omega)]
    · rfl
  · rw [hbit _ (by omega), if_pos (show bv.length - 1 + 1 = bv.length by omega)]
    cases signed with
    | true =>
      rw [if_pos rfl]
      split <;> simp
    | false =>
      rw [if_neg Bool.false_ne_true]
      split <;> simp

/-- The number with the fewest bits, the sign apart, is the least. -/
theorem le_of_fill_min (hX : BitLattice.X ∉ bv) (hb : bv ≠ []) (hx : Describes signed bv x)
    (hfits : Fits signed bv.length x)
    (hy : Describes signed (fillUnknown (ofBool signed) (ofBool false) bv) y)
    (hyfits : Fits signed bv.length y) : y ≤ x := by
  have hpos := List.length_pos_iff.mpr hb
  have hbit := fun i hi => @bitAt_fillUnknown _ _ _ _ _ _ hX hx hy i hi
  refine fits_le_of_bits hpos hyfits hfits (fun i hi hone => ?_) ?_
  · rw [hbit i (by omega)] at hone
    split at hone
    · rw [if_neg (by omega)] at hone
      cases hone
    · exact hone
  · rw [hbit _ (by omega), if_pos (show bv.length - 1 + 1 = bv.length by omega)]
    cases signed with
    | true =>
      rw [if_pos rfl]
      split <;> simp
    | false =>
      rw [if_neg Bool.false_ne_true]
      split <;> simp

/-- A bitstring describes what the filled one does. -/
theorem describes_of_fill {c d : Bool} (hX : BitLattice.X ∉ bv) (hb : bv ≠ [])
    (hy : Describes signed (fillUnknown (ofBool c) (ofBool d) bv) y)
    (hyfits : Fits signed bv.length y) : Describes signed bv y := by
  have hfits : Fits signed bv.length y := hyfits
  refine hfits.describes hb fun i hi => ?_
  have hbit := hy i
  rw [position_fillUnknown hX hi] at hbit
  split at hbit
  · rename_i hU
    rw [hU]
    trivial
  · exact hbit

/-- A word whose bits match is described by the bitstring. -/
theorem describes_of_matches (hX : BitLattice.X ∉ bv) (hb : bv ≠ []) (hlen : bv.length ≤ w)
    (h : Matches signed w bv x) : Describes signed bv (readWord signed w x) := by
  have hpos := List.length_pos_iff.mpr hb
  have hext := length_extendTo signed hb w
  rw [max_eq_right hlen] at hext
  have hdescribes : Describes signed (extendTo bv signed w) (readWord signed w x) := by
    refine Fits.describes (by rw [hext]; exact fits_readWord (by omega) x)
      (List.ne_nil_of_length_pos (by omega)) fun i hi => ?_
    rw [hext] at hi
    rw [bitAt_readWord (by omega), if_pos hi]
    exact h i hi
  intro i
  rw [← position_extendTo hX hb w]
  exact hdescribes i

/-- `fromBitValues` returns a range with every word whose bits match, the ones
    that an unknown sign does not repeat in apart. -/
theorem fromBitValues_holds (hw : w ≤ 64) (hb : bv ≠ []) (hlen : bv.length ≤ w)
    (hX : BitLattice.X ∉ bv) : ∃ r, fromBitValues bv w signed = .ok r ∧ r.bw = w ∧
      ∀ x ∈ signedRange w, Matches signed w bv x →
        (signed = true → bv.headD .X = .U → x ∈ signedRange bv.length) → x ∈ r.gamma := by
  have hpos := List.length_pos_iff.mpr hb
  have h0 : 0 < w := by omega
  have hdigits : w < maxDigits := lt_of_le_of_lt hw (by decide)
  have hfilled : ∀ c d : Bool, ∃ m, manip w signed (fillUnknown (ofBool c) (ofBool d) bv) = .ok m ∧
      Fits signed bv.length m.val ∧ Describes signed (fillUnknown (ofBool c) (ofBool d) bv) m.val := by
    intro c d
    have hfill := length_fillUnknown (ofBool c) (ofBool d) bv
    obtain ⟨m, hm, hfits, hdescribes⟩ := manip_spec signed
      (List.ne_nil_of_length_pos (hfill ▸ hpos)) hw (hfill ▸ hlen) fun t => known_of_mem_fillUnknown
    exact ⟨m, hm, hfill ▸ hfits, hdescribes⟩
  obtain ⟨p, hp, hpfits, hpdesc⟩ := hfilled (!signed) true
  obtain ⟨m, hm, hmfits, hmdesc⟩ := hfilled signed false
  have hmle := le_of_fill_max hX hb (describes_of_fill hX hb hmdesc hmfits) hmfits hpdesc hpfits
  have heq : fromBitValues bv w signed = ofBounds .regular w m p := by
    have hfront : (if signed then BitLattice.ZERO else .ONE) = ofBool !signed := by
      cases signed <;> rfl
    have hfront' : (if signed then BitLattice.ONE else .ZERO) = ofBool signed := by
      cases signed <;> rfl
    unfold fromBitValues
    rw [throwAssert_of hlen, ok_bind, hfront, hfront', show BitLattice.ONE = ofBool true from rfl,
      hp, ok_bind,
      show BitLattice.ZERO = ofBool false from rfl, hm, ok_bind,
        throwAssert_of (show m ≤ p from hmle), ok_bind]
  have hwm := hmfits.mono hlen
  have hwp := hpfits.mono hlen
  have hholds : ∀ k, m.val ≤ k → k ≤ p.val →
      Holds (fromBitValues bv w signed) w (signedResidue w k) := by
    intro k hmk hkp
    have h2 := two_mul_half h0
    have hP := half_pos w
    have hcap : 2 * half w < half maxDigits - 1 := by
      have hle : (2 : Int) ^ w ≤ 2 ^ 64 := pow_le_pow_right₀ (by decide) hw
      have hle' : (2 : Int) ^ 65 ≤ half maxDigits := pow_le_pow_right₀ (by decide) (by decide)
      linarith
    have hbounds : ∀ z, Fits signed w z → -half w ≤ z ∧ z < 2 * half w := by
      intro z hz
      cases signed with
      | true => exact ⟨hz.1, (show z < half w from hz.2).trans (by linarith)⟩
      | false => exact ⟨by linarith [hz.1], h2 ▸ hz.2⟩
    rw [heq]
    exact holds_regular_near h0 hdigits (hbounds _ hwm).1 (hbounds _ hwp).2
      ((hbounds _ hwp).2.trans hcap) hmk hkp
  obtain ⟨r, hr, hbw, -⟩ := hholds m.val le_rfl hmle
  refine ⟨r, hr, hbw, fun x hx hmatch hsign => ?_⟩
  have hdesc := describes_of_matches hX hb hlen hmatch
  have hfits : Fits signed bv.length (readWord signed w x) := by
    rcases hdesc.fits with hfits | ⟨rfl, hU⟩
    · exact hfits
    · rw [readWord, if_pos rfl, signedResidue_of_mem h0 hx.1 hx.2]
      exact hsign rfl hU
  obtain ⟨r', hr', -, hmem⟩ := hholds _ (le_of_fill_min hX hb hdesc hfits hmdesc hmfits)
    (le_of_fill_max hX hb hdesc hfits hpdesc hpfits)
  rw [hr] at hr'
  injection hr' with hr'
  subst hr'
  rwa [signedResidue_congr (readWord_modEq signed w x), signedResidue_of_mem h0 hx.1 hx.2] at hmem

end FromBitValues

/-- Bits and ranges are exchanged without losing a value, for widths up to 64. -/
theorem bitValues_sound (w : Nat) (hw : w ≤ 64) (signed : Bool) :
    (∀ bv : Bitstring, bv ≠ [] → bv.length ≤ w → BitLattice.X ∉ bv →
      ∃ r, fromBitValues bv w signed = .ok r ∧ r.bw = w ∧
        ∀ x ∈ signedRange w, Matches signed w bv x →
          (signed = true → bv.headD .X = .U → x ∈ signedRange bv.length) → x ∈ r.gamma) ∧
    ∀ a : Range, a.bw = w → a.Proper → a.WellFormed →
      ∃ b, a.getBitValues signed = .ok b ∧ ∀ x ∈ a.gamma, Matches signed w b x := by
  constructor
  · intro bv hb hlen hX
    exact fromBitValues_holds hw hb hlen hX
  · rintro a rfl hp hwf
    exact getBitValues_matches (lt_of_le_of_lt hw (by decide)) hp hwf signed

theorem bitValues_sound_eight :
    (∀ bv : Bitstring, bv ≠ [] → bv.length ≤ 8 → BitLattice.X ∉ bv →
      ∃ r, fromBitValues bv 8 true = .ok r ∧ r.bw = 8 ∧
        ∀ x ∈ signedRange 8, Matches true 8 bv x →
          (true = true → bv.headD .X = .U → x ∈ signedRange bv.length) → x ∈ r.gamma) ∧
    ∀ a : Range, a.bw = 8 → a.Proper → a.WellFormed →
      ∃ b, a.getBitValues true = .ok b ∧ ∀ x ∈ a.gamma, Matches true 8 b x :=
  bitValues_sound 8 (by decide) true

/-- An unknown sign is repeated: the range of a single unknown bit has `0` and `-1`, although
    every word agrees with the extended bitstring, which is unknown throughout. -/
theorem fromBitValues_unknown_sign :
    ¬ ∀ (w : Nat) (signed : Bool) (bv : Bitstring), w ≤ 64 → bv ≠ [] → bv.length ≤ w →
      BitLattice.X ∉ bv → ∀ x ∈ signedRange w, Matches signed w bv x →
        Holds (fromBitValues bv w signed) w x := by
  intro h
  have hlost : ¬ Holds (fromBitValues [.U] 8 true) 8 5 := by decide +kernel
  refine hlost (h 8 true [.U] (by decide) (by decide) (by decide) (by decide) 5 ?_ fun i hi => ?_)
  · exact ⟨by decide, by decide⟩
  · have hU : position true (extendTo [.U] true 8) i = .U := by
      rw [position_extendTo (by decide) (by decide), position_true_of_ge (Nat.zero_le i)]
      rfl
    rw [hU]
    trivial

end Range
end Bambu
