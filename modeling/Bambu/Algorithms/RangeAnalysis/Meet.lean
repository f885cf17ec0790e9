/-
  Bambu.Algorithms.RangeAnalysis.Meet

  `Meet.cpp`: the operators that move the range of a sink up (`widen`) and down again
  (`narrow`, `crop`), and the loop of `ConstraintGraph::update` that applies one of them to
  the operations of a component until nothing changes.

  Bounds that do not settle jump to the next constant of the jump-set, a sorted vector of
  constants from the program.
-/

import Bambu.Math.Worklist
import Bambu.Utility.Range.Compare

namespace Bambu

open Bambu.Math APInt

/-! ## The source -/

/-- The constants of a component.  The builder of the vector cuts each of them to the width of
a variable. -/
structure JumpSet where
  constantvector : List APInt
  sorted : constantvector.Pairwise (· ≤ ·)
  within : ∀ c ∈ constantvector, Range.Min ≤ c ∧ c ≤ Range.Max

namespace Meet

/-- `getFirstGreaterFromVector` -/
def getFirstGreaterFromVector : List APInt → APInt → APInt
  | [], _ => Range.Max
  | vapint :: rest, val => if vapint ≥ val then vapint else getFirstGreaterFromVector rest val

/-- The loop of `getFirstLessFromVector` over the reversed vector. -/
def firstLessLoop : List APInt → APInt → APInt
  | [], _ => Range.Min
  | vapint :: rest, val => if vapint ≤ val then vapint else firstLessLoop rest val

/-- `getFirstLessFromVector` -/
def getFirstLessFromVector (constantvector : List APInt) (val : APInt) : APInt :=
  firstLessLoop constantvector.reverse val

/-- Two holes under `widen`: they shrink to what the jump-set leaves of both. -/
def widenAnti (constantvector : List APInt) (oldInterval newInterval : Range) :
    Except Error Range := do
  let bw := oldInterval.bw
  let oldAnti ← oldInterval.getAnti
  let newAnti ← newInterval.getAnti
  let oldLower ← oldAnti.getLower
  let oldUpper ← oldAnti.getUpper
  let newLower ← newAnti.getLower
  let newUpper ← newAnti.getUpper
  let nlconstant := getFirstGreaterFromVector constantvector newLower
  let nuconstant := getFirstLessFromVector constantvector newUpper
  if newLower > oldLower ∨ newUpper < oldUpper then
    let l := if newLower > oldLower then nlconstant else oldLower
    let u := if newUpper < oldUpper then nuconstant else oldUpper
    if l > u then Range.ofType .regular bw else Range.ofBounds .anti bw l u
  else .ok oldInterval

/-- The lambda `intervalWiden` of `Meet::widen`. -/
def intervalWiden (constantvector : List APInt) (oldInterval newInterval : Range) :
    Except Error Range := do
  let bw := oldInterval.bw
  if oldInterval.isUnknown || oldInterval.isEmpty || oldInterval.isAnti || newInterval.isEmpty ||
      newInterval.isAnti then
    if oldInterval.isAnti && newInterval.isAnti && !newInterval.isSameRange oldInterval then
      widenAnti constantvector oldInterval newInterval
    else do
      let full ← if oldInterval.isUnknown then .ok false else oldInterval.isFullSet
      if full && newInterval.isAnti then .ok oldInterval
      else if oldInterval.isRegular && newInterval.isAnti then oldInterval.unionWith newInterval
      else .ok newInterval
  else do
    let oldLower ← oldInterval.getLower
    let oldUpper ← oldInterval.getUpper
    let newLower ← newInterval.getLower
    let newUpper ← newInterval.getUpper
    let nlconstant := getFirstLessFromVector constantvector newLower
    let nuconstant := getFirstGreaterFromVector constantvector newUpper
    if newLower < oldLower ∨ newUpper > oldUpper then
      Range.ofBounds .regular bw (if newLower < oldLower then nlconstant else oldLower)
        (if newUpper > oldUpper then nuconstant else oldUpper)
    else .ok oldInterval

/-- Two holes under `narrow`. -/
def narrowAnti (constantvector : List APInt) (oldInterval newInterval : Range) :
    Except Error Range := do
  let bw := oldInterval.bw
  let oldAnti ← oldInterval.getAnti
  let newAnti ← newInterval.getAnti
  let oldLower ← oldAnti.getLower
  let oldUpper ← oldAnti.getUpper
  let newLower ← newAnti.getLower
  let newUpper ← newAnti.getUpper
  let nlconstant := getFirstGreaterFromVector constantvector newLower
  let nuconstant := getFirstLessFromVector constantvector newUpper
  if oldLower < nlconstant ∧ oldUpper > nuconstant then
    if nlconstant ≤ nuconstant then Range.ofBounds .anti bw nlconstant nuconstant
    else Range.ofType .regular bw
  else if oldLower < nlconstant then Range.ofBounds .anti bw nlconstant oldUpper
  else if oldUpper > nuconstant then Range.ofBounds .anti bw oldLower nuconstant
  else .ok oldInterval

/-- Two intervals under `narrow`, one bound after the other. -/
def narrowRegular (oldInterval newInterval : Range) : Except Error Range := do
  let bw := oldInterval.bw
  let oLower ← if ← oldInterval.isFullSet then .ok Range.Min else oldInterval.getLower
  let oUpper ← if ← oldInterval.isFullSet then .ok Range.Max else oldInterval.getUpper
  let nLower ← if ← newInterval.isFullSet then .ok Range.Min else newInterval.getLower
  let nUpper ← if ← newInterval.isFullSet then .ok Range.Max else newInterval.getUpper
  let sinkInterval ←
    if oLower = Range.Min ∧ nLower ≠ Range.Min then Range.ofBounds .regular bw nLower oUpper
    else if nLower < oLower then Range.ofBounds .regular bw nLower oUpper
    else .ok oldInterval
  if sinkInterval.isAnti then .ok sinkInterval
  else if oUpper = Range.Max ∧ nUpper ≠ Range.Max then do
    Range.ofBounds .regular bw (← sinkInterval.getLower) nUpper
  else if oUpper < nUpper then do
    Range.ofBounds .regular bw (← sinkInterval.getLower) nUpper
  else .ok sinkInterval

/-- The lambda `intervalNarrow` of `Meet::narrow`. -/
def intervalNarrow (constantvector : List APInt) (oldInterval newInterval : Range) :
    Except Error Range := do
  if newInterval.isConstant then .ok newInterval
  else if oldInterval.isAnti || newInterval.isAnti || oldInterval.isEmpty ||
      newInterval.isEmpty then
    if oldInterval.isAnti && newInterval.isAnti && !newInterval.isSameRange oldInterval then
      narrowAnti constantvector oldInterval newInterval
    else do
      let keep ← if newInterval.isUnknown then .ok true else do
        let full ← newInterval.isFullSet
        .ok !full
      if keep then .ok newInterval else .ok oldInterval
  else narrowRegular oldInterval newInterval

/-- The abstract states of a sink. -/
inductive AbstractState where
  | zero
  | plus
  | minus
  | question
deriving DecidableEq

/-- The lambda `intervalCrop` of `Meet::crop`. -/
def intervalCrop (oldInterval newInterval : Range) (abstractState : AbstractState) :
    Except Error Range := do
  if oldInterval.isAnti || newInterval.isAnti || oldInterval.isEmpty || newInterval.isEmpty then
    .ok newInterval
  else do
    let bw := oldInterval.bw
    let oldLower ← oldInterval.getLower
    let oldUpper ← oldInterval.getUpper
    let newLower ← newInterval.getLower
    let newUpper ← newInterval.getUpper
    if (abstractState = .minus ∨ abstractState = .question) ∧ newLower > oldLower then
      Range.ofBounds .regular bw newLower oldUpper
    else if (abstractState = .plus ∨ abstractState = .question) ∧ newUpper < oldUpper then
      Range.ofBounds .regular bw oldLower newUpper
    else .ok oldInterval

/-- An operation of the graph: its sink, and the range it evaluates to. -/
structure OpNode (ι : Type) where
  sink : ι
  eval : (ι → Range) → Range

/-- `Meet::widen(op, constantvector)`: the range it stores in the sink, and whether that is
another one. -/
def widen {ι : Type} (constantvector : List APInt) (op : OpNode ι) (getRange : ι → Range) :
    Except Error (Range × Bool) := do
  let widen ← intervalWiden constantvector (getRange op.sink) (op.eval getRange)
  .ok (widen, !(getRange op.sink).isSameRange widen)

/-- `ConstraintGraph::update(compUseMap, actv, Meet::widen)` -/
def preUpdate {ι : Type} (constantvector : List APInt) (compUseMap : ι → List (OpNode ι)) :
    Worklist ι Range (OpNode ι) Error where
  uses := compUseMap
  sink := OpNode.sink
  meet := widen constantvector

/-! ## Lookups -/

section Lookup

variable {cv : List APInt} {val : APInt}

theorem getFirstGreaterFromVector_spec (cv : List APInt) (val : APInt) :
    (getFirstGreaterFromVector cv val ∈ cv ∧ val ≤ getFirstGreaterFromVector cv val) ∨
      (getFirstGreaterFromVector cv val = Range.Max ∧ ∀ c ∈ cv, c < val) := by
  induction cv with
  | nil => exact .inr ⟨rfl, fun c hc => absurd hc List.not_mem_nil⟩
  | cons vapint rest ih =>
    unfold getFirstGreaterFromVector
    split
    case isTrue hge => exact .inl ⟨List.mem_cons_self, hge⟩
    case isFalse hlt =>
      refine ih.imp (fun h => ⟨List.mem_cons_of_mem _ h.1, h.2⟩) fun h => ⟨h.1, ?_⟩
      intro c hc
      rcases List.mem_cons.mp hc with rfl | hmem
      · rw [ge_iff_le, SignMag.le_iff] at hlt
        rw [SignMag.lt_iff]
        omega
      · exact h.2 c hmem

/-- In a sorted vector the first constant is the least. -/
theorem getFirstGreaterFromVector_le (hsorted : cv.Pairwise (· ≤ ·)) {c : APInt} (hc : c ∈ cv)
    (hle : val ≤ c) : getFirstGreaterFromVector cv val ≤ c := by
  induction cv with
  | nil => exact absurd hc List.not_mem_nil
  | cons vapint rest ih =>
    obtain ⟨hfirst, hrest⟩ := List.pairwise_cons.mp hsorted
    unfold getFirstGreaterFromVector
    rcases List.mem_cons.mp hc with rfl | hmem
    · rw [if_pos hle]
      exact le_refl c.val
    · split
      · exact hfirst c hmem
      · exact ih hrest hmem

theorem firstLessLoop_spec (cv : List APInt) (val : APInt) :
    (firstLessLoop cv val ∈ cv ∧ firstLessLoop cv val ≤ val) ∨
      (firstLessLoop cv val = Range.Min ∧ ∀ c ∈ cv, val < c) := by
  induction cv with
  | nil => exact .inr ⟨rfl, fun c hc => absurd hc List.not_mem_nil⟩
  | cons vapint rest ih =>
    unfold firstLessLoop
    split
    case isTrue hle => exact .inl ⟨List.mem_cons_self, hle⟩
    case isFalse hgt =>
      refine ih.imp (fun h => ⟨List.mem_cons_of_mem _ h.1, h.2⟩) fun h => ⟨h.1, ?_⟩
      intro c hc
      rcases List.mem_cons.mp hc with rfl | hmem
      · rw [SignMag.le_iff] at hgt
        rw [SignMag.lt_iff]
        omega
      · exact h.2 c hmem

theorem getFirstLessFromVector_spec (cv : List APInt) (val : APInt) :
    (getFirstLessFromVector cv val ∈ cv ∧ getFirstLessFromVector cv val ≤ val) ∨
      (getFirstLessFromVector cv val = Range.Min ∧ ∀ c ∈ cv, val < c) := by
  have h := firstLessLoop_spec cv.reverse val
  simp only [List.mem_reverse] at h
  exact h

theorem le_firstLessLoop (hsorted : cv.Pairwise (· ≥ ·)) {c : APInt} (hc : c ∈ cv)
    (hle : c ≤ val) : c ≤ firstLessLoop cv val := by
  induction cv with
  | nil => exact absurd hc List.not_mem_nil
  | cons vapint rest ih =>
    obtain ⟨hfirst, hrest⟩ := List.pairwise_cons.mp hsorted
    unfold firstLessLoop
    rcases List.mem_cons.mp hc with rfl | hmem
    · rw [if_pos hle]
      exact le_refl c.val
    · split
      · exact hfirst c hmem
      · exact ih hrest hmem

/-- In a sorted vector the last constant is the greatest. -/
theorem le_getFirstLessFromVector (hsorted : cv.Pairwise (· ≤ ·)) {c : APInt} (hc : c ∈ cv)
    (hle : c ≤ val) : c ≤ getFirstLessFromVector cv val :=
  le_firstLessLoop (List.pairwise_reverse.mpr hsorted) (List.mem_reverse.mpr hc) hle

end Lookup

section JumpSet

variable (J : JumpSet) (val : APInt)

/-- The bound a lower bound jumps to. -/
theorem less_bounds (h : -half maxDigits ≤ val.val) :
    -half maxDigits ≤ (getFirstLessFromVector J.constantvector val).val ∧
      (getFirstLessFromVector J.constantvector val).val ≤ val.val := by
  rcases getFirstLessFromVector_spec J.constantvector val with ⟨hmem, hle⟩ | ⟨hmin, -⟩
  · have hwithin := (J.within _ hmem).1
    rw [SignMag.le_iff, Range.min_val] at hwithin
    exact ⟨hwithin, hle⟩
  · rw [hmin, Range.min_val]
    exact ⟨le_rfl, h⟩

/-- The bound an upper bound jumps to. -/
theorem greater_bounds (h : val.val ≤ half maxDigits - 1) :
    val.val ≤ (getFirstGreaterFromVector J.constantvector val).val ∧
      (getFirstGreaterFromVector J.constantvector val).val ≤ half maxDigits - 1 := by
  rcases getFirstGreaterFromVector_spec J.constantvector val with ⟨hmem, hle⟩ | ⟨hmax, -⟩
  · have hwithin := (J.within _ hmem).2
    rw [SignMag.le_iff, Range.max_val] at hwithin
    exact ⟨hle, hwithin⟩
  · rw [hmax, Range.max_val]
    exact ⟨h, le_rfl⟩

end JumpSet

end Meet

end Bambu
