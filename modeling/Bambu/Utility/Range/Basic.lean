/-
  Bambu.Utility.Range.Basic

  `Range.cpp`: the data of a range, its constructors with `normalizeRange`, and
  the accessors every operation is written with.

  A range of width `bw` is Empty, Unknown, Regular (`l ≤ v ≤ u`) or Anti
  (`v < l` or `v > u`) over the signed `bw`-bit values.  The widths the
  constructor asserts are the only ones a `Range` can carry (`bw_valid`).
  `Min` and `Max` are the infinite bounds; they are ordinary values of the
  4096-bit integers, so at width 4096 they coincide with the signed limits.
-/

import Bambu.Utility.APInt

namespace Bambu

open Bambu.Math APInt

inductive RangeType where
  | empty
  | unknown
  | regular
  | anti
deriving DecidableEq, Repr

structure Range where
  l : APInt
  u : APInt
  bw : Nat
  type : RangeType
  bw_valid : 0 < bw ∧ bw ≤ maxDigits
deriving DecidableEq

namespace Range

/-! Widths of the operands that examples are built from. -/

theorem bwValid_four : 0 < 4 ∧ 4 ≤ maxDigits := by decide

theorem bwValid_eight : 0 < 8 ∧ 8 ≤ maxDigits := by decide

theorem bwValid_4095 : 0 < 4095 ∧ 4095 ≤ maxDigits := by decide

theorem bwValid_maxDigits : 0 < maxDigits ∧ maxDigits ≤ maxDigits := by decide

def Min : APInt := getSignedMinValue maxDigits
def Max : APInt := getSignedMaxValue maxDigits
def MinDelta : APInt := 1

theorem min_val : Min.val = -half maxDigits :=
  getSignedMinValue_val maxDigits_pos (Nat.le_refl _)

theorem max_val : Max.val = half maxDigits - 1 :=
  getSignedMaxValue_val maxDigits_pos (Nat.le_refl _)

@[simp] theorem minDelta_val : MinDelta.val = 1 := one_val

/-! ## `normalizeRange` -/

/-- The fields `normalizeRange` writes. -/
structure Bounds where
  type : RangeType
  l : APInt
  u : APInt
deriving DecidableEq

/-- The closing `if(u < l)`: crossed bounds become the infinite ones. -/
def Bounds.repair (b : Bounds) : Bounds := if b.u < b.l then ⟨b.type, Min, Max⟩ else b

/-- Anti, both bounds finite and in order. -/
def normalizeAnti (bw : Nat) (lb ub : APInt) : Except Error Bounds := do
  throwAssert (ub ≥ lb) ""
  let maxS := getSignedMaxValue bw
  let minS := getSignedMinValue bw
  if lb > maxS ∧ ub > maxS then
    if (ub - lb).abs < getMaxValue bw then
      .ok ⟨.anti, lb.extTrunc bw true, ub.extTrunc bw true⟩
    else .ok ⟨.regular, minS, maxS⟩
  else if lb < minS ∧ ub < minS then
    -- the truncated bounds are stored in the opposite order here
    if (ub - lb).abs < getMaxValue bw then
      .ok ⟨.anti, ub.extTrunc bw true, lb.extTrunc bw true⟩
    else .ok ⟨.regular, minS, maxS⟩
  else if ¬ lb < minS ∧ ub > maxS then
    let ubnew := ub.extTrunc bw true
    if (ub - lb).abs < getMaxValue bw ∧ ubnew ≠ lb - MinDelta then
      .ok ⟨.regular, ubnew + MinDelta, lb - MinDelta⟩
    else .ok ⟨.regular, minS, maxS⟩
  else if lb < minS ∧ ¬ ub > maxS then
    let lbnew := lb.extTrunc bw true
    if (ub - lb).abs < getMaxValue bw ∧ lbnew ≠ ub + MinDelta then
      .ok ⟨.regular, ub + MinDelta, lbnew - MinDelta⟩
    else .ok ⟨.regular, minS, maxS⟩
  else if ¬ lb < minS ∧ ¬ ub > maxS then .ok ⟨.anti, lb, ub⟩
  else .error (.unreachable "unexpected condition")

/-- Regular from a finite bound to `Max`. -/
def normalizeToMax (bw : Nat) (lb : APInt) : Bounds :=
  let maxS := getSignedMaxValue bw
  let minS := getSignedMinValue bw
  if lb < minS then ⟨.regular, maxS, minS⟩
  else if lb ≥ minS ∧ lb < 0 then ⟨.regular, lb, maxS⟩
  else if lb ≥ 0 ∧ lb ≤ maxS then ⟨.regular, lb, maxS⟩
  else if lb > maxS ∧ lb ≤ getMaxValue bw then ⟨.regular, lb.extTrunc bw true, -1⟩
  else ⟨.regular, maxS, minS⟩

/-- Regular from `Min` to a finite bound. -/
def normalizeFromMin (bw : Nat) (ub : APInt) : Bounds :=
  let maxS := getSignedMaxValue bw
  let minS := getSignedMinValue bw
  if ub < minS then ⟨.regular, maxS, minS⟩
  else if ub ≥ minS ∧ ub < 0 then ⟨.regular, minS, ub⟩
  else if ub ≥ 0 ∧ ub ≤ maxS then ⟨.regular, minS, ub⟩
  else if ub > maxS ∧ ub < getMaxValue bw then ⟨.anti, ub.extTrunc bw true + MinDelta, -1⟩
  else ⟨.regular, maxS, minS⟩

/-- Regular, both bounds finite and in order. -/
def normalizeRegular (bw : Nat) (lb ub : APInt) : Except Error Bounds := do
  throwAssert (ub ≥ lb) ""
  let maxS := getSignedMaxValue bw
  let minS := getSignedMinValue bw
  if ub > maxS ∧ lb < minS then .ok ⟨.regular, maxS, minS⟩
  else if lb > maxS ∧ ub > maxS then
    .ok ⟨.regular, lb.extTrunc bw true, ub.extTrunc bw true⟩
  else if lb < minS ∧ ub < minS then
    .ok ⟨.regular, ub.extTrunc bw true, lb.extTrunc bw true⟩
  else if ¬ lb < minS ∧ ub > maxS then
    let ubnew := ub.extTrunc bw true
    if (ub - lb).abs < getMaxValue bw ∧ ubnew ≠ lb - MinDelta then
      .ok ⟨.anti, ubnew + MinDelta, lb - MinDelta⟩
    else .ok ⟨.regular, maxS, minS⟩
  else if lb < minS ∧ ¬ ub > maxS then
    let lbnew := lb.extTrunc bw true
    if (ub - lb).abs < getMaxValue bw ∧ lbnew ≠ ub + MinDelta then
      .ok ⟨.anti, ub + MinDelta, lbnew - MinDelta⟩
    else .ok ⟨.regular, maxS, minS⟩
  else if ¬ lb < minS ∧ ¬ ub > maxS then .ok ⟨.regular, lb, ub⟩
  else .error (.unreachable "unexpected condition")

/-- `normalizeRange(lb, ub, rType)`.  The swaps of crossed and infinite bounds
    call it again; `l0` and `u0` are the bounds the constructor started from,
    which an Empty range keeps. -/
def normalizeRange (bw : Nat) (l0 u0 : APInt) :
    Nat → RangeType → APInt → APInt → Except Error Bounds
  | 0, _, _, _ => .error .outOfFuel
  | fuel + 1, rType, lb, ub =>
    match rType with
    | .empty => .ok (Bounds.repair ⟨.empty, Min, Max⟩)
    | .unknown => .ok (Bounds.repair ⟨.unknown, Min, Max⟩)
    | .anti =>
      if lb > ub then normalizeRange bw l0 u0 fuel .regular (ub + MinDelta) (lb - MinDelta)
      else if lb = Min ∧ ub = Max then .ok ⟨.empty, l0, u0⟩
      else if lb = Min then normalizeRange bw l0 u0 fuel .regular (ub + MinDelta) Max
      else if ub = Max then normalizeRange bw l0 u0 fuel .regular Min (lb - MinDelta)
      else (normalizeAnti bw lb ub).map Bounds.repair
    | .regular =>
      if lb - MinDelta = ub then
        .ok (Bounds.repair ⟨.regular, getSignedMinValue bw, getSignedMaxValue bw⟩)
      else if lb > ub then normalizeRange bw l0 u0 fuel .anti (ub + MinDelta) (lb - MinDelta)
      else if lb = Min ∧ ub = Max then
        .ok (Bounds.repair ⟨.regular, getSignedMinValue bw, getSignedMaxValue bw⟩)
      else if ub = Max then .ok (normalizeToMax bw lb).repair
      else if lb = Min then .ok (normalizeFromMin bw ub).repair
      else (normalizeRegular bw lb ub).map Bounds.repair

/-! ## Constructors -/

/-- The width assertion of both constructors. -/
def invalidBitwidth (rbw : Nat) : Error :=
  .assertion ("Invalid bitwidth for range (bw = " ++ toString rbw ++ ")")

/-- `Range(rType, rbw)`. -/
def ofType (rType : RangeType) (rbw : Nat) : Except Error Range :=
  if h : 0 < rbw ∧ rbw ≤ maxDigits then .ok ⟨Min, Max, rbw, rType, h⟩
  else .error (invalidBitwidth rbw)

/-- `Range(rType, rbw, lb, ub)`; no chain of swaps is longer than four. -/
def ofBounds (rType : RangeType) (rbw : Nat) (lb ub : APInt) : Except Error Range :=
  if h : 0 < rbw ∧ rbw ≤ maxDigits then
    (normalizeRange rbw lb ub 4 rType lb ub).map (fun b => ⟨b.l, b.u, rbw, b.type, h⟩)
  else .error (invalidBitwidth rbw)

/-! ## Accessors -/

def isUnknown (r : Range) : Bool := r.type = .unknown
def isRegular (r : Range) : Bool := r.type = .regular
def isAnti (r : Range) : Bool := r.type = .anti
def isEmpty (r : Range) : Bool := r.type = .empty
def isConstant (r : Range) : Bool := r.isRegular && decide (r.l = r.u)

def getLower (r : Range) : Except Error APInt := do
  throwAssert (¬ r.isAnti) "Lower bound not valid for Anti range"
  .ok r.l

def getUpper (r : Range) : Except Error APInt := do
  throwAssert (¬ r.isAnti) "Upper bound not valid for Anti range"
  .ok r.u

def getSignedMax (r : Range) : Except Error APInt := do
  throwAssert (¬ r.isUnknown ∧ ¬ r.isEmpty) "Max not valid for Unknown/Empty range"
  let maxS := getSignedMaxValue r.bw
  if r.type = .regular then .ok (if r.u > maxS then maxS else r.u) else .ok maxS

def getSignedMin (r : Range) : Except Error APInt := do
  throwAssert (¬ r.isUnknown ∧ ¬ r.isEmpty) "Min not valid for Unknown/Empty range"
  let minS := getSignedMinValue r.bw
  if r.type = .regular then .ok (if r.l < minS then minS else r.l) else .ok minS

def getUnsignedMax (r : Range) : Except Error APInt := do
  throwAssert (¬ r.isUnknown ∧ ¬ r.isEmpty) "UMax not valid for Unknown/Empty range"
  if r.isAnti then
    let lb := r.l - MinDelta
    let ub := r.u + MinDelta
    .ok (if lb ≥ 0 ∨ ub < 0 then getMaxValue r.bw else lb.extTrunc r.bw false)
  else .ok (if r.u < 0 ∨ r.l ≥ 0 then r.u.extTrunc r.bw false else getMaxValue r.bw)

def getUnsignedMin (r : Range) : Except Error APInt := do
  throwAssert (¬ r.isUnknown ∧ ¬ r.isEmpty) "UMin not valid for Unknown/Empty range"
  if r.isAnti then .ok (if r.l > 0 ∨ r.u < 0 then getMinValue r.bw else r.u + MinDelta)
  else .ok (if r.l > 0 ∨ r.u < 0 then r.l.extTrunc r.bw false else getMinValue r.bw)

def isFullSet (r : Range) : Except Error Bool := do
  throwAssert (¬ r.isUnknown) ""
  if r.isEmpty || r.isAnti then .ok false
  else do
    let u ← r.getUpper
    let l ← r.getLower
    .ok (decide (getSignedMaxValue r.bw ≤ u ∧ getSignedMinValue r.bw ≥ l))

def getSpan (r : Range) : Except Error APInt :=
  if r.isEmpty then .ok 0
  else if r.isUnknown then .ok (getMaxValue r.bw + 1)
  else do
    if ← r.isFullSet then .ok (getMaxValue r.bw + 1)
    else if r.isAnti then .ok (getMaxValue r.bw - (r.u - r.l))
    else
      let uLimit := if r.u = Max then getSignedMaxValue r.bw else r.u
      let lLimit := if r.l = Min then getSignedMinValue r.bw else r.l
      .ok (1 + uLimit - lLimit)

/-- `getAnti()`: the complement. -/
def getAnti (r : Range) : Except Error Range :=
  match r.type with
  | .anti => ofBounds .regular r.bw r.l r.u
  | .regular => ofBounds .anti r.bw r.l r.u
  | .empty => ofType .regular r.bw
  | .unknown => .ok r

/-- `RETURN_EMPTY_ON_EMPTY(b); RETURN_UNKNOWN_ON_UNKNOWN(b);` before `body`. -/
def onProper (this other : Range) (b : Nat) (body : Except Error Range) : Except Error Range :=
  if this.isEmpty || other.isEmpty then ofType .empty b
  else if this.isUnknown || other.isUnknown then ofType .unknown b
  else body

/-! ## Concretisation and well-formedness -/

/-- Membership of a value between the bounds `l` and `u` of a range of a type. -/
def TypeMem (t : RangeType) (l u v : Int) : Prop :=
  match t with
  | .empty => False
  | .unknown => True
  | .regular => l ≤ v ∧ v ≤ u
  | .anti => v < l ∨ u < v

instance (t : RangeType) (l u v : Int) : Decidable (TypeMem t l u v) :=
  match t with
  | .empty => inferInstanceAs (Decidable False)
  | .unknown => inferInstanceAs (Decidable True)
  | .regular => inferInstanceAs (Decidable (l ≤ v ∧ v ≤ u))
  | .anti => inferInstanceAs (Decidable (v < l ∨ u < v))

/-- `v` is one of the signed `bw`-bit values the range stands for. -/
def Mem (r : Range) (v : Int) : Prop :=
  (-half r.bw ≤ v ∧ v < half r.bw) ∧ TypeMem r.type r.l.val r.u.val v

instance (r : Range) (v : Int) : Decidable (r.Mem v) := inferInstanceAs (Decidable (_ ∧ _))

/-- The set of values of a range. -/
def gamma (r : Range) : Set Int := {v | r.Mem v}

instance (r : Range) (v : Int) : Decidable (v ∈ r.gamma) := inferInstanceAs (Decidable (r.Mem v))

theorem mem_gamma {r : Range} {v : Int} :
    v ∈ r.gamma ↔ (-half r.bw ≤ v ∧ v < half r.bw) ∧ TypeMem r.type r.l.val r.u.val v := Iff.rfl

/-- Both bounds are signed values of the width, in order. -/
def InLimits (r : Range) : Prop :=
  -half r.bw ≤ r.l.val ∧ r.l.val ≤ r.u.val ∧ r.u.val < half r.bw

instance (r : Range) : Decidable r.InLimits := inferInstanceAs (Decidable (_ ∧ _))

/-- A Regular range is infinite on both sides or within the limits, an Anti
    range is within the limits. -/
def WellFormed (r : Range) : Prop :=
  (r.type = .regular → (r.l = Min ∧ r.u = Max) ∨ r.InLimits) ∧ (r.type = .anti → r.InLimits)

instance (r : Range) : Decidable r.WellFormed := inferInstanceAs (Decidable (_ ∧ _))

end Range
end Bambu
