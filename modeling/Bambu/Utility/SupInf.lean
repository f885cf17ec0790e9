/-
  Bambu.Utility.SupInf

  `sup` and `inf` of two bitstrings, which refine a fact and merge two facts, and the
  bitstring of a constant.

  Both work position by position on operands brought to one length (`position_zipBack`).
  `inf` drops no position that says anything.  `sup` cuts its result to the length of the
  shorter operand, so that it keeps the numbers of that length: a leading `U` of a signed
  bitstring stands for a sign, and its copies above for the same sign (`Means`).  A fact
  into which others are merged and that is then refined with itself is back (`Absorbs`).
-/

import Bambu.Utility.BitLattice

namespace Bambu

open BitLattice Bambu.Math

/-! ## The source -/

def bitSup (a b : BitLattice) : BitLattice :=
  if a = b then a
  else if a = .X ∨ b = .X then .X
  else if a = .U then b
  else if b = .U then a
  else .X

def bitInf (a b : BitLattice) : BitLattice :=
  if a = b then a
  else if a = .U ∨ b = .U then .U
  else if a = .X then b
  else if b = .X then a
  else .U

/-- The loop over two bitstrings from the last position of both. -/
def zipBack (f : BitLattice → BitLattice → BitLattice) (a b : Bitstring) : Bitstring :=
  (List.zipWith f a.reverse b.reverse).reverse

/-- `if(res.empty()) res.push_front(bit_lattice::X);` -/
def orX (res : Bitstring) : Bitstring := if res = [] then [.X] else res

/-- The position is known. -/
def BitLattice.Known (t : BitLattice) : Prop := t = .ZERO ∨ t = .ONE

instance (t : BitLattice) : Decidable t.Known := inferInstanceAs (Decidable (_ ∨ _))

/-- How many positions of the result `sup` keeps. -/
def supFinalSize (a b : Bitstring) (out_type_size : Nat) (out_is_signed : Bool) : Nat :=
  let a_sign_is_x : Bool := a.headD .X = .X
  let b_sign_is_x : Bool := b.headD .X = .X
  if out_is_signed then
    min out_type_size
      (if a_sign_is_x = b_sign_is_x ∨ ((a.headD .X).Known ∧ a.length < b.length) ∨
          ((b.headD .X).Known ∧ b.length < a.length) then min a.length b.length
        else if a_sign_is_x then a.length else b.length)
  else
    min out_type_size
      (if a_sign_is_x = b_sign_is_x then min a.length b.length
        else if a_sign_is_x then (if a.length < b.length then a.length else 1 + b.length)
        else if a.length < b.length then 1 + a.length else b.length)

/-- What `sup` puts for an `X` in front. -/
def supSignBit (a b : Bitstring) (out_is_signed : Bool) (front : BitLattice) : BitLattice :=
  let a_sign_is_x : Bool := a.headD .X = .X
  let b_sign_is_x : Bool := b.headD .X = .X
  if out_is_signed ∨ a_sign_is_x = b_sign_is_x then front
  else if a_sign_is_x then (if a.length < b.length then front else .ZERO)
  else if a.length < b.length then .ZERO else front

def sup (a b : Bitstring) (out_type_size : Nat) (out_is_signed out_is_bool : Bool) : Bitstring :=
  if out_is_bool then [bitSup (a.getLastD .X) (b.getLastD .X)]
  else
    let longer := if b.length ≤ a.length then a else b
    let shorter := if b.length ≤ a.length then b else a
    let longer := extendTo (truncateTo longer out_type_size) out_is_signed out_type_size
    let shorter := extendTo (truncateTo shorter out_type_size) out_is_signed out_type_size
    let res := signReduce out_is_signed (orX (zipBack bitSup longer shorter))
    let final_size := supFinalSize a b out_type_size out_is_signed
    let sign_bit := supSignBit a b out_is_signed (res.headD .X)
    let res := truncateTo res final_size
    let res := if sign_bit ≠ .X ∧ res.headD .X = .X then sign_bit :: res.tail else res
    if out_is_signed then res else signReduce out_is_signed res

def inf (a b : Bitstring) (out_type_size : Nat) (out_is_signed out_is_bool : Bool) : Bitstring :=
  if out_is_bool then [bitInf (a.getLastD .X) (b.getLastD .X)]
  else
    let a_copy := signReduce out_is_signed a
    let b_copy := signReduce out_is_signed b
    let a_tmp := if b_copy.length ≤ a_copy.length then a_copy else b_copy
    let b_tmp := if b_copy.length ≤ a_copy.length then b_copy else a_copy
    let b_tmp := extendTo b_tmp out_is_signed a_tmp.length
    truncateTo (signReduce out_is_signed (orX (zipBack bitInf a_tmp b_tmp))) out_type_size

/-- The loop of `create_bitstring_from_constant`: the bitstring and the positions that
are left. -/
def constantLoop : Nat → Int → Bitstring → Bitstring × Nat
  | 0, _, res => (res, 0)
  | left + 1, value, res =>
    if value = 0 then (res, left + 1)
    else constantLoop left (value / 2) ((if value % 2 = 1 then .ONE else .ZERO) :: res)

/-- `create_bitstring_from_constant` -/
def createBitstringFromConstant (value : Int) (len : Nat) (signed_value : Bool) : Bitstring :=
  if value = 0 then [.ZERO]
  else
    let (res, left) := constantLoop len value []
    if 0 < left ∧ signed_value then .ZERO :: res else res

/-- `bitstring_constant` -/
def bitstringConstant (a : Bitstring) : Bool := a.all fun i => !(i = .U ∨ i = .X)

example : createBitstringFromConstant (-3) 4 true = [.ONE, .ONE, .ZERO, .ONE] ∧
    createBitstringFromConstant 5 8 true = [.ZERO, .ONE, .ZERO, .ONE] ∧
    inf [.ZERO, .ONE] [.ZERO, .ONE, .ONE] 8 true false = [.ZERO, .U, .ONE] ∧
    sup [.U, .ONE] [.ZERO, .U, .U] 8 false false = [.U, .ONE] := by decide

/-! ## Positions -/

section Position

variable {signed : Bool} {a b : Bitstring} {x : Int}

theorem agrees_bitSup {s t : BitLattice} {c : Bool} (hs : s.Agrees c) (ht : t.Agrees c) :
    (bitSup s t).Agrees c := by
  revert hs ht
  cases s <;> cases t <;> cases c <;> decide

theorem agrees_bitInf_left {s t : BitLattice} {c : Bool} (hs : s.Agrees c) (ht : t ≠ .X) :
    (bitInf s t).Agrees c := by
  revert hs ht
  cases s <;> cases t <;> cases c <;> decide

theorem bitInf_comm (s t : BitLattice) : bitInf s t = bitInf t s := by
  cases s <;> cases t <;> rfl

/-- A position is one of the bitstring's own, or a zero above them. -/
theorem position_mem_or_zero (signed : Bool) (hb : b ≠ []) (i : Nat) :
    position signed b i ∈ b ∨ position signed b i = .ZERO := by
  obtain ⟨front, rest, rfl⟩ := List.exists_cons_of_ne_nil hb
  by_cases hlt : i < (front :: rest).length
  · left
    rw [position_eq_getElem_reverse signed (by rwa [List.length_reverse])]
    exact List.mem_reverse.mp (List.getElem_mem _)
  · rw [position_cons_gt (Nat.not_lt.mp hlt)]
    cases signed with
    | true => exact .inl List.mem_cons_self
    | false => exact .inr rfl

theorem position_ne_X (hX : BitLattice.X ∉ b) (hb : b ≠ []) (i : Nat) :
    position signed b i ≠ .X := by
  intro hi
  rcases position_mem_or_zero signed hb i with hmem | hzero
  · exact hX (hi ▸ hmem)
  · exact BitLattice.noConfusion (hi.symm.trans hzero)

/-- Two bitstrings of one length, position by position. -/
theorem position_zipBack {f : BitLattice → BitLattice → BitLattice} (hf : f .ZERO .ZERO = .ZERO)
    (hlen : a.length = b.length) (ha : a ≠ []) (i : Nat) :
    position signed (zipBack f a b) i = f (position signed a i) (position signed b i) := by
  have hzip : zipBack f a b = List.zipWith f a b := by
    unfold zipBack
    rw [← List.reverse_zipWith hlen, List.reverse_reverse]
  rw [hzip]
  clear hzip
  induction a generalizing b with
  | nil => exact absurd rfl ha
  | cons s a ih =>
    cases b with
    | nil => exact absurd hlen (Nat.succ_ne_zero _)
    | cons t b =>
      have hlen' : a.length = b.length := Nat.succ.inj hlen
      have hz : (List.zipWith f a b).length = a.length := by
        rw [List.length_zipWith]
        omega
      rw [List.zipWith_cons_cons]
      rcases Nat.lt_trichotomy i a.length with hlt | heq | hgt
      · rw [position_cons_lt (by omega), position_cons_lt hlt, position_cons_lt (by omega)]
        refine ih hlen' ?_
        rintro rfl
        exact absurd hlt (Nat.not_lt_zero i)
      · subst heq
        conv_lhs => rw [← hz]
        rw [position_cons_length, position_cons_length, hlen', position_cons_length]
      · rw [position_cons_gt (by omega), position_cons_gt hgt, position_cons_gt (by omega)]
        cases signed with
        | true => rfl
        | false => exact hf.symm

theorem length_zipBack (f : BitLattice → BitLattice → BitLattice) (a b : Bitstring) :
    (zipBack f a b).length = min a.length b.length := by
  unfold zipBack
  rw [List.length_reverse, List.length_zipWith, List.length_reverse, List.length_reverse]

theorem length_signReduceLoop (signed : Bool) (front : BitLattice) (rest : Bitstring) :
    0 < (signReduceLoop signed front rest).length ∧
      (signReduceLoop signed front rest).length ≤ rest.length + 1 := by
  induction rest generalizing front with
  | nil => exact ⟨Nat.one_pos, le_rfl⟩
  | cons next rest ih =>
    have hdrop : ∀ t, 0 < (signReduceLoop signed t rest).length ∧
        (signReduceLoop signed t rest).length ≤ (next :: rest).length + 1 := fun t =>
      ⟨(ih t).1, (ih t).2.trans (Nat.le_succ _)⟩
    have hkeep : 0 < (front :: next :: rest).length ∧
        (front :: next :: rest).length ≤ (next :: rest).length + 1 := ⟨Nat.succ_pos _, le_rfl⟩
    unfold signReduceLoop
    split
    · split
      · exact hdrop next
      · exact hkeep
    · split
      · exact hdrop next
      · split
        · exact hdrop .ZERO
        · exact hkeep

theorem length_signReduce_le (signed : Bool) (b : Bitstring) :
    (signReduce signed b).length ≤ b.length := by
  cases b with
  | nil => exact le_rfl
  | cons front rest => exact (length_signReduceLoop signed front rest).2

theorem orX_of_ne_nil (hb : b ≠ []) : orX b = b := if_neg hb

end Position

/-! ## What a bitstring means -/

/-- The numbers of the bitstring's own length among those it describes: a leading `U` of a
signed bitstring stands for one sign. -/
def Means (signed : Bool) (b : Bitstring) (x : Int) : Prop :=
  Describes signed b x ∧ Fits signed b.length x

instance (signed : Bool) (n : Nat) (x : Int) : Decidable (Fits signed n x) :=
  inferInstanceAs (Decidable (if signed = true then _ ∧ _ else _ ∧ _))

section Means

variable {signed : Bool} {a b : Bitstring} {x : Int} {n : Nat}

theorem Fits.mono {m : Nat} (h : Fits signed n x) (hle : n ≤ m) : Fits signed m x := by
  cases signed with
  | false => exact ⟨h.1, h.2.trans_le (pow_le_pow_right₀ (by decide) hle)⟩
  | true =>
    have hpow : (2 : Int) ^ (n - 1) ≤ 2 ^ (m - 1) := pow_le_pow_right₀ (by decide) (by omega)
    exact ⟨(neg_le_neg hpow).trans h.1, h.2.trans_le hpow⟩

theorem Fits.both {m : Nat} (hn : Fits signed n x) (hm : Fits signed m x) :
    Fits signed (min n m) x := by
  rcases Nat.le_total n m with h | h
  · rwa [Nat.min_eq_left h]
  · rwa [Nat.min_eq_right h]

/-- Where the front is known or the bitstring unsigned, nothing else is described. -/
theorem Describes.means (h : Describes signed b x) (hU : signed = true → b.headD .X ≠ .U) :
    Means signed b x :=
  ⟨h, h.fits.resolve_right fun hs => hU hs.1 hs.2⟩

/-- Reduction keeps the numbers of the length. -/
theorem Means.signReduce (h : Means signed b x) : Means signed (signReduce signed b) x := by
  refine ⟨h.1.signReduce, ?_⟩
  obtain ⟨front, rest, rfl⟩ := List.exists_cons_of_ne_nil h.1.ne_nil
  by_cases hU : signed = true ∧ front = .U
  · obtain ⟨rfl, rfl⟩ := hU
    have hsame : Bambu.signReduce true (.U :: rest) = .U :: rest := by
      cases rest <;> simp [Bambu.signReduce, signReduceLoop]
    rw [hsame]
    exact h.2
  · -- What is dropped repeats a known front, so that the front stays known.
    have hfront : ∀ (rest : Bitstring) (front : BitLattice), signed = true → front ≠ .U →
        (signReduceLoop signed front rest).headD .X ≠ .U := by
      intro rest
      induction rest with
      | nil => exact fun front _ hne => hne
      | cons next rest ih =>
        intro front hs hne
        unfold signReduceLoop
        rw [if_pos hs]
        split
        case isTrue heq => exact ih next hs (heq.2 ▸ hne)
        case isFalse => exact hne
    exact (h.1.signReduce.means fun hs =>
      hfront rest front hs fun hf => hU ⟨hs, hf⟩).2

/-- Cutting keeps the numbers of the length it cuts to. -/
theorem Describes.truncateTo (h : Describes signed b x) (hn : 0 < n) (hfits : Fits signed n x)
    (hb : Fits signed b.length x) : Means signed (truncateTo b n) x := by
  have hlen := length_truncateTo b n
  have hpos := h.length_pos
  have hmin : Fits signed (Bambu.truncateTo b n).length x := by
    rw [hlen]
    exact hb.both hfits
  refine ⟨hmin.describes (List.length_pos_iff.mp (by omega)) fun i hi => ?_, hmin⟩
  rw [position_truncateTo hi]
  exact h i

end Means

/-! ## Merging -/

section Inf

variable {signed : Bool} {a b : Bitstring} {x : Int} {n : Nat}

/-- The loop of `inf` on an operand that describes the number and on another one. -/
theorem Describes.zipInf (ha : Describes signed a x) (hX : BitLattice.X ∉ b) (hb : b ≠ [])
    (hlen : a.length = b.length) : Describes signed (zipBack bitInf a b) x := fun i => by
  rw [position_zipBack rfl hlen ha.ne_nil]
  exact agrees_bitInf_left (ha i) (position_ne_X hX hb i)

theorem zipBack_comm {f : BitLattice → BitLattice → BitLattice} (hf : ∀ s t, f s t = f t s)
    (a b : Bitstring) : zipBack f a b = zipBack f b a := by
  unfold zipBack
  rw [List.zipWith_comm]
  simp only [hf]

theorem not_mem_X_signReduce (signed : Bool) (hX : BitLattice.X ∉ b) (hb : b ≠ []) :
    BitLattice.X ∉ signReduce signed b := by
  intro hmem
  obtain ⟨i, -, hi⟩ := exists_position_of_mem signed hmem
  rw [position_signReduce hX] at hi
  exact position_ne_X hX hb i hi

theorem not_mem_X_extendTo (hX : BitLattice.X ∉ b) (hb : b ≠ []) :
    BitLattice.X ∉ extendTo b signed n := by
  intro hmem
  obtain ⟨i, -, hi⟩ := exists_position_of_mem signed hmem
  rw [position_extendTo hX hb] at hi
  exact position_ne_X hX hb i hi

theorem signReduce_ne_nil (signed : Bool) (hb : b ≠ []) : signReduce signed b ≠ [] := by
  obtain ⟨front, rest, rfl⟩ := List.exists_cons_of_ne_nil hb
  exact List.length_pos_iff.mp (length_signReduceLoop signed front rest).1

theorem extendTo_ne_nil (hb : b ≠ []) : extendTo b signed n ≠ [] := by
  refine List.length_pos_iff.mp ?_
  have hpos := List.length_pos_iff.mpr hb
  rw [length_extendTo _ hb]
  omega

/-- The loop of `inf`, on the operands reduced and extended to one length. -/
theorem inf_loop (a b : Bitstring) {size : Nat} (ha : a ≠ []) (hb : b ≠ []) :
    inf a b size signed false =
      truncateTo (signReduce signed (zipBack bitInf
        (extendTo (signReduce signed a) signed (signReduce signed b).length)
        (extendTo (signReduce signed b) signed (signReduce signed a).length))) size := by
  obtain ⟨a', ha'⟩ : ∃ a', a' = signReduce signed a := ⟨_, rfl⟩
  obtain ⟨b', hb'⟩ : ∃ b', b' = signReduce signed b := ⟨_, rfl⟩
  have hane : a' ≠ [] := ha' ▸ signReduce_ne_nil _ ha
  have hbne : b' ≠ [] := hb' ▸ signReduce_ne_nil _ hb
  have hla' := length_extendTo signed hane b'.length
  have hlb' := length_extendTo signed hbne a'.length
  have hzip := length_zipBack bitInf (extendTo a' signed b'.length) (extendTo b' signed a'.length)
  have hapos := List.length_pos_iff.mpr hane
  have hloop : orX (zipBack bitInf (if b'.length ≤ a'.length then a' else b')
      (extendTo (if b'.length ≤ a'.length then b' else a') signed
        (if b'.length ≤ a'.length then a' else b').length)) =
      zipBack bitInf (extendTo a' signed b'.length) (extendTo b' signed a'.length) := by
    split
    case isTrue hle =>
      have hsame : extendTo a' signed b'.length = a' := if_neg (by omega)
      rw [hsame] at hzip ⊢
      exact orX_of_ne_nil (List.length_pos_iff.mp (by omega))
    case isFalse hgt =>
      have hsame : extendTo b' signed a'.length = b' := if_neg (by omega)
      rw [hsame] at hzip ⊢
      rw [zipBack_comm bitInf_comm]
      exact orX_of_ne_nil (List.length_pos_iff.mp (by omega))
  unfold inf
  rw [if_neg Bool.false_ne_true]
  dsimp only
  rw [← ha', ← hb', hloop]

/-- Operands of the type's size are not cut. -/
theorem inf_eq (a b : Bitstring) {out_type_size : Nat} (ha : a ≠ []) (hb : b ≠ [])
    (hla : a.length ≤ out_type_size) (hlb : b.length ≤ out_type_size) :
    inf a b out_type_size signed false =
      signReduce signed (zipBack bitInf
        (extendTo (signReduce signed a) signed (signReduce signed b).length)
        (extendTo (signReduce signed b) signed (signReduce signed a).length)) := by
  have hal := length_signReduce_le signed a
  have hbl := length_signReduce_le signed b
  have hla' := length_extendTo signed (signReduce_ne_nil signed ha) (signReduce signed b).length
  have hzip := length_zipBack bitInf
    (extendTo (signReduce signed a) signed (signReduce signed b).length)
    (extendTo (signReduce signed b) signed (signReduce signed a).length)
  have hred := length_signReduce_le signed (zipBack bitInf
    (extendTo (signReduce signed a) signed (signReduce signed b).length)
    (extendTo (signReduce signed b) signed (signReduce signed a).length))
  rw [inf_loop a b ha hb, truncateTo_of_le (by omega)]

theorem bitInf_ne_X {s t : BitLattice} (hs : s ≠ .X) (ht : t ≠ .X) : bitInf s t ≠ .X := by
  revert hs ht
  cases s <;> cases t <;> decide

/-- Merging works position by position, on the repeated fronts too. -/
theorem position_inf {out_is_bool : Bool} {out_type_size : Nat} (ha : a ≠ []) (hb : b ≠ [])
    (hXa : BitLattice.X ∉ a) (hXb : BitLattice.X ∉ b) (hla : a.length ≤ out_type_size)
    (hlb : b.length ≤ out_type_size) (hbool : out_is_bool = true → out_type_size = 1) (i : Nat) :
    position signed (inf a b out_type_size signed out_is_bool) i =
      bitInf (position signed a i) (position signed b i) := by
  have hapos := List.length_pos_iff.mpr ha
  have hbpos := List.length_pos_iff.mpr hb
  cases out_is_bool with
  | true =>
    have hone := hbool rfl
    obtain ⟨s, rfl⟩ := List.length_eq_one_iff.mp (by omega : a.length = 1)
    obtain ⟨t, rfl⟩ := List.length_eq_one_iff.mp (by omega : b.length = 1)
    exact position_zipBack (f := bitInf) (a := [s]) (b := [t]) rfl rfl ha i
  | false =>
    have hXa' := not_mem_X_signReduce signed hXa ha
    have hXb' := not_mem_X_signReduce signed hXb hb
    have hane := signReduce_ne_nil signed ha
    have hbne := signReduce_ne_nil signed hb
    have hlen : (extendTo (signReduce signed a) signed (signReduce signed b).length).length =
        (extendTo (signReduce signed b) signed (signReduce signed a).length).length := by
      rw [length_extendTo _ hane, length_extendTo _ hbne, Nat.max_comm]
    have hpos : ∀ j, position signed (zipBack bitInf
        (extendTo (signReduce signed a) signed (signReduce signed b).length)
        (extendTo (signReduce signed b) signed (signReduce signed a).length)) j =
        bitInf (position signed a j) (position signed b j) := fun j => by
      rw [position_zipBack rfl hlen (extendTo_ne_nil hane), position_extendTo hXa' hane,
        position_extendTo hXb' hbne, position_signReduce hXa, position_signReduce hXb]
    have hX : BitLattice.X ∉ zipBack bitInf
        (extendTo (signReduce signed a) signed (signReduce signed b).length)
        (extendTo (signReduce signed b) signed (signReduce signed a).length) := fun hmem => by
      obtain ⟨j, -, hj⟩ := exists_position_of_mem signed hmem
      rw [hpos] at hj
      exact bitInf_ne_X (position_ne_X hXa ha j) (position_ne_X hXb hb j) hj
    rw [inf_eq a b ha hb hla hlb, position_signReduce hX, hpos]

theorem length_inf_le (a b : Bitstring) {out_is_bool : Bool} {out_type_size : Nat}
    (hbool : out_is_bool = true → out_type_size = 1) :
    (inf a b out_type_size signed out_is_bool).length ≤ out_type_size := by
  unfold inf
  split
  case isTrue h => exact (hbool h).ge
  case isFalse =>
    dsimp only
    rw [length_truncateTo]
    exact Nat.min_le_right _ _

/-- Merging loses nothing that the first operand describes. -/
theorem describes_inf_left (out_is_bool : Bool) {out_type_size : Nat} (h : Describes signed a x)
    (hX : BitLattice.X ∉ b) (hb : b ≠ []) (hla : a.length ≤ out_type_size)
    (hlb : b.length ≤ out_type_size) (hbool : out_is_bool = true → out_type_size = 1) :
    Describes signed (inf a b out_type_size signed out_is_bool) x ∧
      (Fits signed a.length x →
        Fits signed (inf a b out_type_size signed out_is_bool).length x) := by
  have hapos := h.length_pos
  have hbpos := List.length_pos_iff.mpr hb
  cases out_is_bool with
  | true =>
    have hone := hbool rfl
    obtain ⟨s, rfl⟩ := List.length_eq_one_iff.mp (by omega : a.length = 1)
    obtain ⟨t, rfl⟩ := List.length_eq_one_iff.mp (by omega : b.length = 1)
    exact ⟨h.zipInf hX hb rfl, fun hfits => hfits⟩
  | false =>
    rw [inf_eq a b h.ne_nil hb hla hlb]
    have hred := h.signReduce
    have hXb := not_mem_X_signReduce signed hX hb
    have hneb := signReduce_ne_nil signed hb
    have hlen : (extendTo (signReduce signed a) signed (signReduce signed b).length).length =
        (extendTo (signReduce signed b) signed (signReduce signed a).length).length := by
      rw [length_extendTo _ hred.ne_nil, length_extendTo _ hneb, Nat.max_comm]
    have hzip := (hred.extendTo (signReduce signed b).length).zipInf
      (not_mem_X_extendTo hXb hneb) (extendTo_ne_nil hneb) hlen
    refine ⟨hzip.signReduce, fun hfits => (Means.signReduce ⟨hzip, ?_⟩).2⟩
    rw [length_zipBack, ← hlen, Nat.min_self, length_extendTo _ hred.ne_nil]
    exact (Means.signReduce ⟨h, hfits⟩).2.mono (Nat.le_max_left _ _)

theorem inf_comm {out_type_size : Nat} {out_is_bool : Bool} (ha : a ≠ []) (hb : b ≠ [])
    (hla : a.length ≤ out_type_size) (hlb : b.length ≤ out_type_size) :
    inf a b out_type_size signed out_is_bool = inf b a out_type_size signed out_is_bool := by
  cases out_is_bool with
  | true =>
    unfold inf
    rw [if_pos rfl, if_pos rfl, bitInf_comm]
  | false => rw [inf_eq a b ha hb hla hlb, inf_eq b a hb ha hlb hla, zipBack_comm bitInf_comm]

end Inf

/-! ## Refining -/

section Sup

variable {signed : Bool} {a b : Bitstring} {x : Int} {n : Nat}

theorem Describes.zipSup (ha : Describes signed a x) (hb : Describes signed b x)
    (hlen : a.length = b.length) : Describes signed (zipBack bitSup a b) x := fun i => by
  rw [position_zipBack rfl hlen ha.ne_nil]
  exact agrees_bitSup (ha i) (hb i)

theorem headD_ne_X (hX : BitLattice.X ∉ b) (hb : b ≠ []) : b.headD .X ≠ .X := by
  obtain ⟨front, rest, rfl⟩ := List.exists_cons_of_ne_nil hb
  exact fun h => hX (h ▸ List.mem_cons_self)

/-- Without an `X` in front the result gets the length of the shorter operand. -/
theorem supFinalSize_eq (ha : a.headD .X ≠ .X) (hb : b.headD .X ≠ .X)
    (hla : a.length ≤ n) : supFinalSize a b n signed = min a.length b.length := by
  unfold supFinalSize
  rw [decide_eq_false ha, decide_eq_false hb]
  simp only [true_or, if_pos]
  split <;> omega

/-- Refining keeps every number of the shorter operand's length that both operands describe. -/
theorem means_sup (out_is_bool : Bool) {out_type_size : Nat} (ha : Describes signed a x)
    (hb : Describes signed b x) (hla : a.length ≤ out_type_size)
    (hlb : b.length ≤ out_type_size) (hbool : out_is_bool = true → out_type_size = 1)
    (hfits : Fits signed (min a.length b.length) x) :
    Means signed (sup a b out_type_size signed out_is_bool) x := by
  have hapos := ha.length_pos
  have hbpos := hb.length_pos
  cases out_is_bool with
  | true =>
    have hone := hbool rfl
    obtain ⟨s, rfl⟩ := List.length_eq_one_iff.mp (by omega : a.length = 1)
    obtain ⟨t, rfl⟩ := List.length_eq_one_iff.mp (by omega : b.length = 1)
    exact ⟨ha.zipSup hb rfl, hfits⟩
  | false =>
    obtain ⟨longer, hlonger⟩ : ∃ l, l = if b.length ≤ a.length then a else b := ⟨_, rfl⟩
    obtain ⟨shorter, hshorter⟩ : ∃ l, l = if b.length ≤ a.length then b else a := ⟨_, rfl⟩
    have hdl : Describes signed longer x ∧ longer.length ≤ out_type_size := by
      rw [hlonger]
      split
      · exact ⟨ha, hla⟩
      · exact ⟨hb, hlb⟩
    have hds : Describes signed shorter x ∧ shorter.length ≤ out_type_size := by
      rw [hshorter]
      split
      · exact ⟨hb, hlb⟩
      · exact ⟨ha, hla⟩
    have hll := length_extendTo signed hdl.1.ne_nil out_type_size
    have hls := length_extendTo signed hds.1.ne_nil out_type_size
    have hlen : (extendTo longer signed out_type_size).length =
        (extendTo shorter signed out_type_size).length := by omega
    have hzip := (hdl.1.extendTo out_type_size).zipSup (hds.1.extendTo out_type_size) hlen
    have hziplen := length_zipBack bitSup (extendTo longer signed out_type_size)
      (extendTo shorter signed out_type_size)
    have hmeans : Means signed (zipBack bitSup (extendTo longer signed out_type_size)
        (extendTo shorter signed out_type_size)) x := ⟨hzip, hfits.mono (by omega)⟩
    have hred := hmeans.signReduce
    have hcut := hred.1.truncateTo (n := min a.length b.length) (by omega) hfits hred.2
    have hfront := headD_ne_X hcut.1.not_mem_X hcut.1.ne_nil
    unfold sup
    rw [if_neg Bool.false_ne_true]
    dsimp only
    rw [← hlonger, ← hshorter, truncateTo_of_le hdl.2, truncateTo_of_le hds.2,
      orX_of_ne_nil hzip.ne_nil, supFinalSize_eq (headD_ne_X ha.not_mem_X ha.ne_nil)
        (headD_ne_X hb.not_mem_X hb.ne_nil) hla]
    simp only [hfront, and_false, if_false]
    cases signed with
    | true => exact hcut
    | false => exact hcut.signReduce

end Sup

/-! ## Absorption -/

section Absorption

variable {signed : Bool} {a b c : Bitstring} {size k : Nat}

/-- Every position of `c` is that of `b`, or restricts nothing. -/
def Covers (signed : Bool) (c b : Bitstring) : Prop :=
  ∀ i, position signed c i = position signed b i ∨ position signed c i = .U

/-- From `k` on `b` repeats its position below. -/
def Steady (signed : Bool) (b : Bitstring) (k : Nat) : Prop :=
  ∀ i, k ≤ i → position signed b i = signBit signed (position signed b (k - 1))

theorem steady_length (signed : Bool) (hb : b ≠ []) : Steady signed b b.length := by
  intro i hi
  obtain ⟨front, rest, rfl⟩ := List.exists_cons_of_ne_nil hb
  have hlast : (front :: rest).length - 1 = rest.length := rfl
  rw [position_cons_gt hi, hlast, position_cons_length]

theorem signBit_signBit (s : BitLattice) : signBit signed (signBit signed s) = signBit signed s := by
  cases signed <;> rfl

theorem Steady.mono {m : Nat} (h : Steady signed b k) (hle : k ≤ m) : Steady signed b m := by
  intro i hi
  rcases Nat.lt_or_eq_of_le hle with hlt | rfl
  · rw [h i (hle.trans hi), h (m - 1) (by omega), signBit_signBit]
  · exact h i hi

theorem Covers.not_mem_X (h : Covers signed c b) (hX : BitLattice.X ∉ b) (hb : b ≠ []) :
    BitLattice.X ∉ c := by
  intro hmem
  obtain ⟨i, -, hi⟩ := exists_position_of_mem signed hmem
  rcases h i with heq | hU
  · exact position_ne_X hX hb i (heq.symm.trans hi)
  · exact BitLattice.noConfusion (hU.symm.trans hi)

/-- What a reduction drops is known in both bitstrings. -/
theorem Covers.steady_signReduce (h : Covers signed c b) (hX : BitLattice.X ∉ c)
    (hs : Steady signed b c.length) : Steady signed b (signReduce signed c).length := by
  cases c with
  | nil => exact hs
  | cons front rest =>
    change Steady signed b (signReduceLoop signed front rest).length
    induction rest generalizing front with
    | nil => exact hs
    | cons next rest ih =>
      have hnext : BitLattice.X ≠ next := fun heq => hX (heq ▸ .tail _ List.mem_cons_self)
      have hrest : BitLattice.X ∉ next :: rest := fun hmem => hX (.tail _ hmem)
      -- A front that is dropped is a known one, and so it is that of `b`.
      have hdrop : front ≠ .U → front = signBit signed next →
          Covers signed (next :: rest) b ∧ Steady signed b (next :: rest).length := by
        intro hU hsame
        have hcov : Covers signed (next :: rest) b := fun i => by
          rw [← position_cons_signBit hsame]
          exact h i
        refine ⟨hcov, ?_⟩
        have hknown : ∀ i, (next :: rest).length ≤ i → position signed b i = front := by
          intro i hi
          have hpos : position signed (front :: next :: rest) i = front :=
            position_cons_ge hi (by rw [hsame, signBit_signBit])
          rcases h i with heq | hu
          · exact heq.symm.trans hpos
          · exact absurd (hpos.symm.trans hu) hU
        intro i hi
        rw [hknown i hi]
        cases signed with
        | false => exact hsame
        | true =>
          have hlast : position true (next :: rest) ((next :: rest).length - 1) = front :=
            (position_true_of_ge le_rfl).trans hsame.symm
          rcases hcov ((next :: rest).length - 1) with heq | hu
          · exact hlast.symm.trans heq
          · exact absurd (hlast.symm.trans hu) hU
      unfold signReduceLoop
      split
      case isTrue hsigned =>
        split
        case isTrue hdrops =>
          obtain ⟨hcov, hsteady⟩ := hdrop hdrops.1 (by rw [hsigned]; exact hdrops.2)
          exact ih next hcov hrest hsteady
        case isFalse => exact hs
      case isFalse hunsigned =>
        have hkeep : ¬ (front = .ZERO ∧ next = .X) := fun hx => hnext hx.2.symm
        split
        case isTrue hdrops =>
          obtain ⟨hzero, -⟩ := hdrops.resolve_left fun hx => hnext hx.2.symm
          obtain ⟨hcov, hsteady⟩ := hdrop (by rw [hzero]; decide) (by
            rw [hzero, Bool.eq_false_of_not_eq_true hunsigned]
            rfl)
          exact ih next hcov hrest hsteady
        case isFalse => exact hs

/-- What a fact that has been merged into others still says: at least what `b` says, where `b`
says it. -/
structure Absorbs (signed : Bool) (size : Nat) (b c : Bitstring) : Prop where
  ne_nil : c ≠ []
  length_le : c.length ≤ size
  covers : Covers signed c b
  steady : Steady signed b c.length

theorem Absorbs.refl (hb : b ≠ []) (hlen : b.length ≤ size) : Absorbs signed size b b :=
  ⟨hb, hlen, fun _ => .inl rfl, steady_length signed hb⟩

theorem bitInf_right (s : BitLattice) {t : BitLattice} (ht : t ≠ .X) :
    bitInf s t = t ∨ bitInf s t = .U := by
  revert ht
  cases s <;> cases t <;> decide

/-- Cutting to the type keeps what `b` says, as `b` has no more positions. -/
theorem Absorbs.truncateTo {d : Bitstring} (hsize : 0 < size) (hb : b ≠ []) (hlen : b.length ≤ size)
    (hd : d ≠ []) (hcov : Covers signed d b) (hsteady : Steady signed b d.length) :
    Absorbs signed size b (truncateTo d size) := by
  have hpos := List.length_pos_iff.mpr hd
  have hcut := length_truncateTo d size
  rcases Nat.lt_or_ge size d.length with hgt | hle
  · have hfull : (Bambu.truncateTo d size).length = size := by omega
    have hne : Bambu.truncateTo d size ≠ [] := List.length_pos_iff.mp (by omega)
    have hbsteady := (steady_length signed hb).mono hlen
    refine ⟨hne, hfull.le, fun i => ?_, by rwa [hfull]⟩
    rcases Nat.lt_or_ge i size with hi | hi
    · rw [position_truncateTo (by omega)]
      exact hcov i
    · -- Above the cut the position below it is repeated.
      have hrep := steady_length signed hne i (by omega)
      rw [hfull, position_truncateTo (i := size - 1) (by omega)] at hrep
      rw [hrep, hbsteady i hi]
      rcases hcov (size - 1) with heq | hu
      · exact .inl (congrArg _ heq)
      · rw [hu]
        cases signed with
        | true => exact .inr rfl
        | false => exact .inl rfl
  · rw [truncateTo_of_le hle]
    exact ⟨hd, hle, hcov, hsteady⟩

/-- Merging another fact into it keeps what `b` says. -/
theorem Absorbs.inf (h : Absorbs signed size b c) (hb : b ≠ []) (hX : BitLattice.X ∉ b)
    (hlen : b.length ≤ size) (ha : a ≠ []) {out_is_bool : Bool}
    (hbool : out_is_bool = true → size = 1) :
    Absorbs signed size b (inf a c size signed out_is_bool) := by
  have hpos := List.length_pos_iff.mpr hb
  have hcX := h.covers.not_mem_X hX hb
  cases out_is_bool with
  | true =>
    have hone := hbool rfl
    have hcpos := List.length_pos_iff.mpr h.ne_nil
    have hclen := h.length_le
    obtain ⟨t, rfl⟩ := List.length_eq_one_iff.mp (by omega : c.length = 1)
    refine ⟨List.cons_ne_nil _ _, hone.ge, fun i => ?_, h.steady⟩
    have ht := bitInf_right (a.getLastD .X) (fun ht => hcX (ht ▸ List.mem_cons_self))
    have hinf : Bambu.inf a [t] size signed true = [bitInf (a.getLastD .X) t] := rfl
    rw [hinf]
    rcases ht with heq | hu
    · rw [heq]
      exact h.covers i
    · rw [hu]
      rcases Nat.eq_zero_or_pos i with rfl | hi
      · exact .inr rfl
      · have hrep := steady_length signed hb i (by omega)
        rw [hrep, position_cons_gt (b := []) hi]
        cases signed with
        | true => exact .inr rfl
        | false => exact .inl rfl
  | false =>
    have hc' := signReduce_ne_nil signed h.ne_nil
    have ha' := signReduce_ne_nil signed ha
    have hcX' := not_mem_X_signReduce signed hcX h.ne_nil
    have hzlen := length_zipBack bitInf
      (extendTo (signReduce signed a) signed (signReduce signed c).length)
      (extendTo (signReduce signed c) signed (signReduce signed a).length)
    have hla := length_extendTo signed ha' (signReduce signed c).length
    have hlc := length_extendTo signed hc' (signReduce signed a).length
    have hcov : Covers signed (zipBack bitInf
        (extendTo (signReduce signed a) signed (signReduce signed c).length)
        (extendTo (signReduce signed c) signed (signReduce signed a).length)) b := fun i => by
      rw [position_zipBack rfl (by omega) (extendTo_ne_nil ha'), position_extendTo hcX' hc',
        position_signReduce hcX]
      rcases bitInf_right _ (position_ne_X hcX h.ne_nil i) with heq | hu
      · rw [heq]
        exact h.covers i
      · exact .inr hu
    have hzX := hcov.not_mem_X hX hb
    have hcpos := List.length_pos_iff.mpr hc'
    have hzne : zipBack bitInf
        (extendTo (signReduce signed a) signed (signReduce signed c).length)
        (extendTo (signReduce signed c) signed (signReduce signed a).length) ≠ [] :=
      List.length_pos_iff.mp (by omega)
    -- The loop is at least as long as the reduced fact.
    have hsteady : Steady signed b (zipBack bitInf
        (extendTo (signReduce signed a) signed (signReduce signed c).length)
        (extendTo (signReduce signed c) signed (signReduce signed a).length)).length :=
      (h.covers.steady_signReduce hcX h.steady).mono (by omega)
    rw [inf_loop a c ha h.ne_nil]
    refine Absorbs.truncateTo (by omega) hb hlen (signReduce_ne_nil signed hzne) (fun i => ?_)
      (hcov.steady_signReduce hzX hsteady)
    rw [position_signReduce hzX]
    exact hcov i

theorem bitSup_covered {s t : BitLattice} (h : s = t ∨ s = .U) (ht : t ≠ .X) :
    bitSup s t = t ∧ bitSup t s = t := by
  revert h ht
  cases s <;> cases t <;> decide

theorem reduceCurrent_eq (hX : BitLattice.X ∉ c) (hc : c ≠ []) :
    reduceCurrent signed c = signReduce signed c := by
  have hne := signReduce_ne_nil signed hc
  have hX' := not_mem_X_signReduce signed hX hc
  unfold reduceCurrent
  cases hr : signReduce signed c with
  | nil => exact absurd hr hne
  | cons front rest =>
    have hfront : front ≠ .X := fun h => hX' (hr ▸ h ▸ List.mem_cons_self)
    simp only [hfront, and_false, if_false]

/-- Cutting where `b` only repeats itself changes nothing. -/
theorem position_truncateTo_steady {d : Bitstring} (hd : ∀ i, position signed d i = position signed b i)
    (hdne : d ≠ []) (hk : 0 < k) (hs : Steady signed b k) (i : Nat) :
    position signed (truncateTo d k) i = position signed b i := by
  have hcut := length_truncateTo d k
  have hpos := List.length_pos_iff.mpr hdne
  rcases Nat.lt_or_ge i (truncateTo d k).length with hi | hi
  · rw [position_truncateTo hi, hd]
  rcases Nat.lt_or_ge k d.length with hgt | hle
  · have hne : truncateTo d k ≠ [] := List.length_pos_iff.mp (by omega)
    have hlen : (truncateTo d k).length = k := by omega
    have hrep := steady_length signed hne i hi
    rw [hlen, position_truncateTo (i := k - 1) (by omega), hd] at hrep
    rw [hrep, hs i (by omega)]
  · rw [truncateTo_of_le hle, hd]

/-- Refining with `b` what absorbs `b` gives `b` back. -/
theorem Absorbs.sup (h : Absorbs signed size b c) (hb : b ≠ []) (hX : BitLattice.X ∉ b)
    (hlen : b.length ≤ size) {out_is_bool : Bool} (hbool : out_is_bool = true → size = 1)
    (i : Nat) :
    position signed (sup c b size signed out_is_bool) i = position signed b i := by
  have hbpos := List.length_pos_iff.mpr hb
  have hcpos := List.length_pos_iff.mpr h.ne_nil
  have hcX := h.covers.not_mem_X hX hb
  have hclen := h.length_le
  have hcovered := fun j => bitSup_covered (h.covers j) (position_ne_X hX hb j)
  cases out_is_bool with
  | true =>
    have hone := hbool rfl
    obtain ⟨s, rfl⟩ := List.length_eq_one_iff.mp (by omega : c.length = 1)
    obtain ⟨t, rfl⟩ := List.length_eq_one_iff.mp (by omega : b.length = 1)
    have hsup : Bambu.sup [s] [t] size signed true = zipBack bitSup [s] [t] := rfl
    rw [hsup]
    exact (position_zipBack (f := bitSup) (a := [s]) (b := [t]) rfl rfl h.ne_nil i).trans
      (hcovered i).1
  | false =>
    obtain ⟨longer, hlonger⟩ : ∃ l, l = if b.length ≤ c.length then c else b := ⟨_, rfl⟩
    obtain ⟨shorter, hshorter⟩ : ∃ l, l = if b.length ≤ c.length then b else c := ⟨_, rfl⟩
    have hl : longer ≠ [] ∧ BitLattice.X ∉ longer ∧ longer.length ≤ size := by
      rw [hlonger]
      split
      · exact ⟨h.ne_nil, hcX, hclen⟩
      · exact ⟨hb, hX, hlen⟩
    have hs : shorter ≠ [] ∧ BitLattice.X ∉ shorter ∧ shorter.length ≤ size := by
      rw [hshorter]
      split
      · exact ⟨hb, hX, hlen⟩
      · exact ⟨h.ne_nil, hcX, hclen⟩
    have hll := length_extendTo signed hl.1 size
    have hls := length_extendTo signed hs.1 size
    obtain ⟨z, hz⟩ : ∃ z, z = zipBack bitSup (extendTo longer signed size)
      (extendTo shorter signed size) := ⟨_, rfl⟩
    have hzpos : ∀ j, position signed z j = position signed b j := fun j => by
      rw [hz, position_zipBack rfl (by omega) (extendTo_ne_nil hl.1), position_extendTo hl.2.1 hl.1,
        position_extendTo hs.2.1 hs.1, hlonger, hshorter]
      split
      · exact (hcovered j).1
      · exact (hcovered j).2
    have hzlen : z.length = min (extendTo longer signed size).length
        (extendTo shorter signed size).length := hz ▸ length_zipBack bitSup _ _
    have hzne : z ≠ [] := List.length_pos_iff.mp (by omega)
    have hfree : ∀ {d : Bitstring}, (∀ j, position signed d j = position signed b j) →
        BitLattice.X ∉ d := fun {d} hd =>
      have hsame : Covers signed d b := fun j => .inl (hd j)
      hsame.not_mem_X hX hb
    have hzr : ∀ j, position signed (signReduce signed z) j = position signed b j := fun j => by
      rw [position_signReduce (hfree hzpos), hzpos]
    have hzrne := signReduce_ne_nil signed hzne
    -- The shorter of the two still has all positions of `b` that differ.
    have hk : Steady signed b (min c.length b.length) := by
      rcases Nat.le_total c.length b.length with hle | hle
      · rw [Nat.min_eq_left hle]
        exact h.steady
      · rw [Nat.min_eq_right hle]
        exact steady_length signed hb
    have hcut := position_truncateTo_steady hzr hzrne (by omega) hk
    have hcutne : Bambu.truncateTo (signReduce signed z) (min c.length b.length) ≠ [] := by
      have hl1 := length_truncateTo (signReduce signed z) (min c.length b.length)
      have hl2 := List.length_pos_iff.mpr hzrne
      exact List.length_pos_iff.mp (by omega)
    have hfront := headD_ne_X (hfree hcut) hcutne
    unfold Bambu.sup
    rw [if_neg Bool.false_ne_true]
    dsimp only
    rw [← hlonger, ← hshorter, truncateTo_of_le hl.2.2, truncateTo_of_le hs.2.2, ← hz,
      orX_of_ne_nil hzne, supFinalSize_eq (headD_ne_X hcX h.ne_nil) (headD_ne_X hX hb) hclen]
    simp only [hfront, and_false, if_false]
    cases signed with
    | true => exact hcut i
    | false =>
      change position false (signReduce false (Bambu.truncateTo (signReduce false z) _)) i = _
      rw [position_signReduce (hfree hcut), hcut]

/-- Reducing, and refining where something is unknown: `b` is back. -/
theorem Absorbs.refine (h : Absorbs signed size b c) (hb : b ≠ []) (hX : BitLattice.X ∉ b)
    (hlen : b.length ≤ size) {out_is_bool : Bool} (hbool : out_is_bool = true → size = 1)
    (i : Nat) :
    position signed (if bitstringConstant (reduceCurrent signed c) then reduceCurrent signed c
      else Bambu.sup (reduceCurrent signed c) b size signed out_is_bool) i = position signed b i := by
  have hcX := h.covers.not_mem_X hX hb
  have hne := signReduce_ne_nil signed h.ne_nil
  have hred : Absorbs signed size b (signReduce signed c) :=
    ⟨hne, (length_signReduce_le signed c).trans h.length_le,
      fun j => by rw [position_signReduce hcX]; exact h.covers j,
      h.covers.steady_signReduce hcX h.steady⟩
  rw [reduceCurrent_eq hcX h.ne_nil]
  split
  case isTrue hconst =>
    refine (hred.covers i).resolve_right fun hu => ?_
    rcases position_mem_or_zero signed hne i with hmem | hzero
    · have hall := List.all_eq_true.mp hconst _ hmem
      rw [hu] at hall
      exact absurd hall (by decide)
    · exact BitLattice.noConfusion (hu.symm.trans hzero)
  case isFalse => exact hred.sup hb hX hlen hbool i

end Absorption

/-! ## Constants -/

section Constant

variable {signed : Bool} {value x : Int} {len : Nat}

/-- What is known of a known bit. -/
def ofBool (c : Bool) : BitLattice := if c then .ONE else .ZERO

theorem agrees_ofBool {c d : Bool} : (ofBool c).Agrees d ↔ d = c := by
  cases c <;> rfl

/-- The loop writes the low bits, and stops early at zero only. -/
theorem constantLoop_spec (value : Int) (left : Nat) (rest : Int) (res : Bitstring)
    (hres : ∀ i < res.length, position false res i = ofBool (bitAt value i))
    (hrest : rest = value / 2 ^ res.length) :
    (∀ i < (constantLoop left rest res).1.length,
        position false (constantLoop left rest res).1 i = ofBool (bitAt value i)) ∧
      (constantLoop left rest res).1.length + (constantLoop left rest res).2 =
        res.length + left ∧
      (0 < (constantLoop left rest res).2 →
        value / 2 ^ (constantLoop left rest res).1.length = 0) ∧
      res.length ≤ (constantLoop left rest res).1.length ∧
      (0 < left → rest ≠ 0 → res.length < (constantLoop left rest res).1.length) := by
  induction left generalizing rest res with
  | zero => exact ⟨hres, rfl, fun h => absurd h (Nat.lt_irrefl 0), le_rfl,
      fun h => absurd h (Nat.lt_irrefl 0)⟩
  | succ left ih =>
    unfold constantLoop
    split
    case isTrue hzero =>
      exact ⟨hres, rfl, fun _ => hrest ▸ hzero, le_rfl, fun _ h => absurd hzero h⟩
    case isFalse hne =>
      have hbit : (if rest % 2 = 1 then BitLattice.ONE else .ZERO) =
          ofBool (bitAt value res.length) := by
        unfold ofBool bitAt
        rw [hrest]
        by_cases h : value / 2 ^ res.length % 2 = 1
        · rw [if_pos h, decide_eq_true h]
          rfl
        · rw [if_neg h, decide_eq_false h]
          rfl
      have hhalf : rest / 2 = value / 2 ^ (res.length + 1) := by
        rw [hrest, pow_succ, Int.ediv_ediv_of_nonneg (by positivity)]
      obtain ⟨h1, h2, h3, h4, -⟩ := ih (rest / 2)
        ((if rest % 2 = 1 then BitLattice.ONE else .ZERO) :: res) (fun i hi => by
          rcases Nat.lt_or_eq_of_le (Nat.le_of_lt_succ hi) with hlt | rfl
          · rw [position_cons_lt hlt]
            exact hres i hlt
          · rw [position_cons_length, hbit]) hhalf
      rw [List.length_cons] at h2 h4
      exact ⟨h1, by omega, h3, by omega, fun _ _ => by omega⟩

/-- All positions of the bitstring of a constant are its bits. -/
theorem position_createBitstringFromConstant (hlen : 0 < len) (h : Fits signed len value)
    (i : Nat) :
    position signed (createBitstringFromConstant value len signed) i =
      ofBool (bitAt value i) := by
  unfold createBitstringFromConstant
  split
  case isTrue hzero =>
    rw [hzero, bitAt_zero, position_cons_ge (Nat.zero_le i) (by cases signed <;> rfl)]
    rfl
  case isFalse hne =>
    obtain ⟨hbits, hsum, hstop, -, hpos⟩ := constantLoop_spec value len value
      [] (fun i hi => absurd hi (Nat.not_lt_zero i)) (by simp)
    have hpos' := hpos hlen hne
    rw [List.length_nil] at hsum hpos'
    dsimp only
    generalize (constantLoop len value []).1 = res at *
    generalize (constantLoop len value []).2 = left at *
    have hresne : res ≠ [] := List.length_pos_iff.mp hpos'
    -- Bits above the bitstring.
    have hhigh : 0 < left → ∀ i, res.length ≤ i → bitAt value i = false := by
      intro hleft i hi
      obtain ⟨d, rfl⟩ := Nat.exists_eq_add_of_le hi
      rw [← bitAt_ediv, hstop hleft, bitAt_zero]
    split
    case isTrue hs =>
      obtain ⟨hleft, rfl⟩ := hs
      rcases Nat.lt_or_ge i res.length with hi | hi
      · rw [position_cons_lt hi, position_of_lt true false hi]
        exact hbits i hi
      · rw [position_cons_ge hi rfl, hhigh hleft i hi]
        rfl
    case isFalse hs =>
      rcases Nat.lt_or_ge i res.length with hi | hi
      · rw [position_of_lt signed false hi]
        exact hbits i hi
      · cases signed with
        | false =>
          rw [position_false_of_ge hresne hi]
          rcases Nat.eq_zero_or_pos left with hl | hl
          · rw [h.bitAt hlen (by omega)]
            rfl
          · rw [hhigh hl i hi]
            rfl
        | true =>
          have hl : left = 0 := by
            by_contra hl
            exact hs ⟨Nat.pos_of_ne_zero hl, rfl⟩
          rw [position_true_of_ge (by omega), ← position_true_of_ge (b := res) le_rfl,
            position_of_lt true false (by omega), hbits _ (by omega),
              h.bitAt hlen (i := i) (by omega),
            show len - 1 = res.length - 1 by omega, Bool.true_and]

/-- The bitstring of a constant describes the constant and nothing else. -/
theorem describes_createBitstringFromConstant (hlen : 0 < len) (h : Fits signed len value) :
    Describes signed (createBitstringFromConstant value len signed) x ↔ x = value := by
  unfold Describes
  simp only [position_createBitstringFromConstant hlen h, agrees_ofBool]
  exact ⟨eq_of_bitAt, fun h i => by rw [h]⟩

end Constant

/-! ## Both at once -/

/-- Merging and refining two facts without `X` under one type. -/
theorem merge_refine_sound (signed out_is_bool : Bool) {out_type_size : Nat} {a b : Bitstring}
    (ha : a ≠ []) (hb : b ≠ []) (hXa : BitLattice.X ∉ a) (hXb : BitLattice.X ∉ b)
    (hla : a.length ≤ out_type_size) (hlb : b.length ≤ out_type_size)
    (hbool : out_is_bool = true → out_type_size = 1) :
    (∀ x, Describes signed a x ∨ Describes signed b x →
        Describes signed (inf a b out_type_size signed out_is_bool) x) ∧
      (∀ x, Means signed a x ∨ Means signed b x →
        Means signed (inf a b out_type_size signed out_is_bool) x) ∧
      (∀ x, Describes signed a x → Describes signed b x →
        Fits signed (min a.length b.length) x →
          Means signed (sup a b out_type_size signed out_is_bool) x) ∧
      (∀ x, Describes signed (extendTo (signReduce signed a) signed a.length) x ↔
        Describes signed a x) ∧
      (∀ x, Means signed (signReduce signed a) x ↔ Means signed a x) ∧
      ∀ len value, 0 < len → Fits signed len value →
        ∀ x, Describes signed (createBitstringFromConstant value len signed) x ↔ x = value := by
  have hleft := fun x (h : Describes signed a x) =>
    describes_inf_left out_is_bool h hXb hb hla hlb hbool
  have hright := fun x (h : Describes signed b x) =>
    describes_inf_left out_is_bool h hXa ha hlb hla hbool
  rw [inf_comm hb ha hlb hla] at hright
  refine ⟨?_, ?_, ?_, ?_, ?_, ?_⟩
  · rintro x (h | h)
    · exact (hleft x h).1
    · exact (hright x h).1
  · rintro x (h | h)
    · exact ⟨(hleft x h.1).1, (hleft x h.1).2 h.2⟩
    · exact ⟨(hright x h.1).1, (hright x h.1).2 h.2⟩
  · exact fun x h0 h1 hfits => means_sup out_is_bool h0 h1 hla hlb hbool hfits
  · intro x
    unfold Describes
    simp only [position_extendTo (not_mem_X_signReduce _ hXa ha) (signReduce_ne_nil _ ha),
      position_signReduce hXa]
  · intro x
    refine ⟨fun h => ⟨fun i => ?_, h.2.mono (length_signReduce_le signed a)⟩, Means.signReduce⟩
    rw [← position_signReduce hXa]
    exact h.1 i
  · exact fun len value hlen hfits x => describes_createBitstringFromConstant hlen hfits

/-- `1` in two facts that are merged, and in two that are refined. -/
theorem merge_refine_sound_one :
    Describes true (inf [.ZERO, .ONE] [.ONE, .U] 4 true false) 1 ∧
      Means true (sup [.ZERO, .ONE] [.U, .ONE] 4 true false) 1 :=
  ⟨(merge_refine_sound true false (by decide) (by decide) (by decide) (by decide) (by decide)
      (by decide) (by decide)).1 1 (.inl (by decide)),
    (merge_refine_sound true false (by decide) (by decide) (by decide) (by decide) (by decide)
      (by decide) (by decide)).2.2.1 1 (by decide) (by decide) (by decide)⟩

/-- Extended to two positions an unknown sign describes `1`, but refined by what is known of
`1` it becomes `-1`. -/
theorem sup_unknown_sign :
    Describes true (extendTo [.U] true 2) 1 ∧ Describes true [.ZERO, .ONE] 1 ∧
      sup [.U] [.ZERO, .ONE] 2 true false = [.ONE] ∧
      ¬ Describes true (sup [.U] [.ZERO, .ONE] 2 true false) 1 := by decide

end Bambu
