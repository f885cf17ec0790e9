/-
  Bambu.Algorithms.RangeAnalysis.MultiWayIf

  `IRVisitor::processMultiWayIf`: what the conditions of a multi-way if say of the variable that
  they compare, on the edge to each target.

  The sets of the edges are what the conditions take of what remains from the conditions before
  them.  A condition is parsed for what it says of the constrained variable
  (`parseSimpleCond_spec`) unless it has its constant on the left, the predicate of which is not
  swapped, or the conversions between the compared variable and the constrained one change the
  value.
-/

import Bambu.Algorithms.RangeAnalysis.Evaluate
import Bambu.Algorithms.RangeAnalysis.ValueSet
import Bambu.Math.BitSerial

namespace Bambu
namespace RangeAnalysis

open Bambu.Math APInt Range

/-! ## The program around the statement -/

/-- A node that stands for a value. -/
inductive Node where
  | ssa_node (index : Nat)
  | constant_int_val_node (index : Nat) (value : APInt)
  /-- Any other constant. -/
  | constant_node (index : Nat)
  deriving DecidableEq

namespace Node

def index : Node → Nat
  | ssa_node index | constant_int_val_node index _ | constant_node index => index

/-- `ir_helper::IsConstant` -/
def IsConstant : Node → Bool
  | ssa_node _ => false
  | constant_int_val_node _ _ | constant_node _ => true

end Node

/-- What an assignment computes. -/
inductive Expression where
  | node (op : Node)
  /-- A conversion. -/
  | nop_node (op : Node)
  | binary_node (kind : Kind) (op0 op1 : Node)
  | other

/-- The statement that defines an SSA variable; a parameter has a `nop_stmt`. -/
inductive DefStmt where
  | assign_stmt (op1 : Expression)
  | phi_stmt (first : Node) (rest : List Node)
  | nop_stmt

/-- The types of the variables of a function, and their definitions. -/
structure Function where
  type : Nat → IntType
  GetDefStmt : Nat → DefStmt

/-- What `castTraverse` ends at: the definition of a variable, or another node. -/
inductive Traversed where
  | def_node (index : Nat)
  | op (op : Node)

/-- `castTraverse`, with a bound on the length of the chain. -/
def castTraverse (f : Function) : Nat → Node → Except Error Traversed
  | 0, _ => .error .outOfFuel
  | fuel + 1, .ssa_node i =>
    match f.GetDefStmt i with
    | .assign_stmt (.node (.ssa_node j)) => castTraverse f fuel (.ssa_node j)
    | .assign_stmt (.nop_node op) => castTraverse f fuel op
    | .phi_stmt first rest =>
      if ∀ var ∈ rest, first.index = var.index then castTraverse f fuel first else .ok (.def_node i)
    | _ => .ok (.def_node i)
  | _ + 1, op => .ok (.op op)

def castTraverseSSA (f : Function) (fuel : Nat) (op : Node) : Except Error Node := do
  match ← castTraverse f fuel op with
  | .def_node i =>
    match f.GetDefStmt i with
    | .assign_stmt _ | .phi_stmt _ _ => .ok (.ssa_node i)
    | .nop_stmt => .ok op
  | .op _ => .ok op

/-! ## Conditions -/

/-- `SimpleCond::Op` -/
inductive Op where
  | EQ
  | NE
  | LT
  | LE
  | GT
  | GE
  deriving DecidableEq

namespace Op

def ofKind : Kind → Option Op
  | .eq_node => some EQ
  | .ne_node => some NE
  | .lt_node => some LT
  | .le_node => some LE
  | .gt_node => some GT
  | .ge_node => some GE
  | _ => none

/-- What the predicate says of two values. -/
def Holds (x y : Int) : Op → Prop
  | EQ => x = y
  | NE => x ≠ y
  | LT => x < y
  | LE => x ≤ y
  | GT => y < x
  | GE => y ≤ x

instance (x y : Int) : (op : Op) → Decidable (op.Holds x y)
  | EQ => inferInstanceAs (Decidable (x = y))
  | NE => inferInstanceAs (Decidable (x ≠ y))
  | LT => inferInstanceAs (Decidable (x < y))
  | LE => inferInstanceAs (Decidable (x ≤ y))
  | GT => inferInstanceAs (Decidable (y < x))
  | GE => inferInstanceAs (Decidable (y ≤ x))

end Op

structure SimpleCond where
  var : Nat
  op : Op
  cst : APInt
  isSigned : Bool
  bw : Nat
  deriving DecidableEq

/-- The comparison that a condition is defined by, if it is one. -/
def comparison (f : Function) (fuel : Nat) (cond : Node) :
    Except Error (Option (Op × Node × Node)) :=
  match cond with
  | .ssa_node _ => do
    match ← castTraverse f fuel cond with
    | .def_node i =>
      match f.GetDefStmt i with
      | .assign_stmt (.binary_node kind op0 op1) => .ok ((Op.ofKind kind).map (·, op0, op1))
      | _ => .ok none
    | .op _ => .ok none
  | _ => .ok none

/-- The variable and the constant of a comparison. -/
def varAndConstant (op0 op1 : Node) : Option (Nat × APInt) :=
  let c0 := op0.IsConstant
  let c1 := op1.IsConstant
  if c0 = c1 then none
  else
    match if c0 then op1 else op0, if c0 then op0 else op1 with
    | .ssa_node varOp, .constant_int_val_node _ value => some (varOp, value)
    | _, _ => none

/-- The variable that a comparison of `varOp` constrains. -/
def canonVar (f : Function) (fuel : Nat) (varOp : Nat) : Except Error (Option Nat) := do
  match ← castTraverseSSA f fuel (.ssa_node varOp) with
  | .ssa_node canon =>
    if (f.type varOp).bw ≠ (f.type canon).bw ∨ (f.type varOp).isSigned ≠ (f.type canon).isSigned then
      .ok (some varOp)
    else .ok (some canon)
  | _ => .ok none

def parseSimpleCond (f : Function) (fuel : Nat) (cond : Node) :
    Except Error (Option SimpleCond) := do
  match ← comparison f fuel cond with
  | none => .ok none
  | some (op, op0, op1) =>
    match varAndConstant op0 op1 with
    | none => .ok none
    | some (varOp, cstVal) => do
      match ← canonVar f fuel varOp with
      | none => .ok none
      | some var =>
        let isSigned := (f.type var).isSigned
        let cst ← cstVal.extOrTrunc (f.type var).bw isSigned
        .ok (some ⟨var, op, cst, isSigned, (f.type var).bw⟩)

/-! ## The statement -/

/-- The conditions of the statement with their targets; the default has none. -/
abbrev MultiWayIf := List (Option Node × Nat)

structure CaseEntry where
  cond : SimpleCond
  targetBBI : Nat

/-- The first loop: the cases and the target of the default, or nothing where the predicates are
skipped. -/
def collectCases (f : Function) (fuel : Nat) (switchVar : Option (Nat × Nat)) :
    MultiWayIf → Except Error (Option (List CaseEntry × Option Nat))
  | [] => .ok (some ([], none))
  | (none, targetBBI) :: rest =>
    .ok (if rest.isEmpty then some ([], some targetBBI) else none)
  | (some cond, targetBBI) :: rest => do
    match ← parseSimpleCond f fuel cond with
    | none => .ok none
    | some parsed =>
      if ∀ s ∈ switchVar, parsed.var = s.1 ∧ parsed.bw = s.2 then do
        match ← collectCases f fuel (switchVar.or (some (parsed.var, parsed.bw))) rest with
        | none => .ok none
        | some (cases, defaultBBI) => .ok (some (⟨parsed, targetBBI⟩ :: cases, defaultBBI))
      else .ok none

section Sets

variable {S : Type} (I : IntervalSets S) (max_disjoint_intervals : Nat)

def buildClosed (lb ub : APInt) : S := if ub < lb then I.empty else I.add I.empty (I.closed lb ub)

def clampIntervals (domain set : S) : S :=
  if 0 < max_disjoint_intervals ∧ max_disjoint_intervals < I.iterative_size set then domain else set

/-- The set of a condition, before it is clamped. -/
def condSet (domain : S) (c : SimpleCond) : S :=
  let minV := if c.isSigned then getSignedMinValue c.bw else getMinValue c.bw
  let maxV := if c.isSigned then getSignedMaxValue c.bw else getMaxValue c.bw
  match c.op with
  | .EQ => singletonSet I c.cst
  | .NE => I.subtract domain (singletonSet I c.cst)
  | .LT => if c.cst ≤ minV then I.empty else buildClosed I minV (c.cst - MinDelta)
  | .LE => if c.cst < minV then I.empty else buildClosed I minV c.cst
  | .GT => if c.cst ≥ maxV then I.empty else buildClosed I (c.cst + MinDelta) maxV
  | .GE => if c.cst > maxV then I.empty else buildClosed I c.cst maxV

def condToSet (domain : S) (c : SimpleCond) : S :=
  clampIntervals I max_disjoint_intervals domain (I.intersect (condSet I domain c) domain)

/-- Inserts a set for a target, or adds to the one that is there. -/
def orConstraint (domain : S) (target : Nat) (set : S) : List (Nat × S) → List (Nat × S)
  | [] => [(target, set)]
  | (key, old) :: rest =>
    if target = key then (key, clampIntervals I max_disjoint_intervals domain (I.add old set)) :: rest
    else (key, old) :: orConstraint domain target set rest

def addOrConstraint (domain : S) (target : Nat) (set : S) (edgeSets : List (Nat × S)) :
    List (Nat × S) :=
  if I.isEmpty set then edgeSets else orConstraint I max_disjoint_intervals domain target set edgeSets

/-- The loop over the cases: what remains, and the sets of the edges. -/
def edgeLoop (domain : S) : List CaseEntry → S → List (Nat × S) → S × List (Nat × S)
  | [], remaining, edgeSets => (remaining, edgeSets)
  | c :: cases, remaining, edgeSets =>
    let set := condToSet I max_disjoint_intervals domain c.cond
    let pathSet := I.intersect remaining set
    edgeLoop domain cases
      (clampIntervals I max_disjoint_intervals domain (I.subtract remaining set))
      (addOrConstraint I max_disjoint_intervals domain c.targetBBI pathSet edgeSets)

/-- What remains after the loop is for the default. -/
def addDefault (domain : S) (defaultBBI : Option Nat) : S × List (Nat × S) → List (Nat × S)
  | (remaining, edgeSets) =>
    match defaultBBI with
    | some target => addOrConstraint I max_disjoint_intervals domain target remaining edgeSets
    | none => edgeSets

/-- What is attached to each edge. -/
def attach (t : IntType) : List (Nat × S) → Except Error (List (Nat × ValueRange S))
  | [] => .ok []
  | (target, set) :: rest => do
    let vr ← toValueRange I t set max_disjoint_intervals true
    let edges ← attach t rest
    .ok ((target, vr) :: edges)

/-- The variable that is constrained, with the sets attached to the edges; nothing where the
predicates are skipped. -/
def processMultiWayIf (f : Function) (fuel : Nat) (gmw : MultiWayIf) :
    Except Error (Option (Nat × List (Nat × ValueRange S))) := do
  match ← collectCases f fuel none gmw with
  | none | some ([], _) => .ok none
  | some (c :: cases, defaultBBI) =>
    let t := f.type c.cond.var
    let domain := domainForVar I t
    if I.isEmpty domain then .ok none
    else do
      let edges ← attach I max_disjoint_intervals t
        (addDefault I max_disjoint_intervals domain defaultBBI
          (edgeLoop I max_disjoint_intervals domain (c :: cases) domain []))
      .ok (some (c.cond.var, edges))

end Sets

/-! ## Executions -/

/-- The value of a node, where `env` has the values of the variables and of the constants that are
not integers. -/
def valueOf (env : Nat → Int) : Node → Int
  | .ssa_node i | .constant_node i => env i
  | .constant_int_val_node _ value => value.val

/-- The values of the variables are those of their types, and follow from the definitions that
`castTraverse` goes through; the result of a comparison is a truth value. -/
structure Consistent (f : Function) (env : Nat → Int) : Prop where
  mem : ∀ i, env i ∈ (f.type i).values
  node : ∀ i op, f.GetDefStmt i = .assign_stmt (.node op) →
    env i = readWord (f.type i).isSigned (f.type i).bw (valueOf env op)
  nop_node : ∀ i op, f.GetDefStmt i = .assign_stmt (.nop_node op) →
    env i = readWord (f.type i).isSigned (f.type i).bw (valueOf env op)
  phi_stmt : ∀ i first rest, f.GetDefStmt i = .phi_stmt first rest →
    (∀ var ∈ rest, first.index = var.index) →
    env i = readWord (f.type i).isSigned (f.type i).bw (valueOf env first)
  binary_node : ∀ i kind op op0 op1, f.GetDefStmt i = .assign_stmt (.binary_node kind op0 op1) →
    Op.ofKind kind = some op →
    env i = readWord (f.type i).isSigned (f.type i).bw
      (if op.Holds (valueOf env op0) (valueOf env op1) then 1 else 0)

/-- The target that the statement jumps to: of the first condition that holds, or the default. -/
def jumpTarget (env : Nat → Int) : MultiWayIf → Option Nat
  | [] => none
  | (none, targetBBI) :: rest => some ((jumpTarget env rest).getD targetBBI)
  | (some cond, targetBBI) :: rest =>
    if valueOf env cond ≠ 0 then some targetBBI else jumpTarget env rest

/-! ## What a condition says -/

/-- A condition is parsed for what it says: its constant, which is of the type of the variable it
is compared with, is on the right or the predicate has no direction, and the variable that is
constrained has the value of the one that is compared. -/
def Faithful (f : Function) (fuel : Nat) (env : Nat → Int) (cond : Node) : Prop :=
  ∀ op op0 op1 varOp cst, comparison f fuel cond = .ok (some (op, op0, op1)) →
    varAndConstant op0 op1 = some (varOp, cst) →
    cst.val ∈ (f.type varOp).values ∧ (op0.IsConstant = true → op = .EQ ∨ op = .NE) ∧
      ∀ canon, canonVar f fuel varOp = .ok (some canon) → env canon = env varOp

section Parse

variable {f : Function} {fuel : Nat} {env : Nat → Int} {cond : Node}

theorem odd_readWord {signed : Bool} {w : Nat} (hw : 0 < w) (x : Int) :
    readWord signed w x % 2 = x % 2 := by
  obtain ⟨n, rfl⟩ : ∃ n, w = n + 1 := ⟨w - 1, by omega⟩
  have h := readWord_modEq signed (n + 1) x
  rw [pow_succ'] at h
  exact h.of_mul_right _

theorem readWord_zero {signed : Bool} {w : Nat} (hw : 0 < w) : readWord signed w 0 = 0 := by
  unfold readWord
  split
  · exact signedResidue_of_mem hw (by have := half_pos w; omega) (half_pos w)
  · exact Int.zero_emod _

/-- A conversion keeps zero, and keeps odd numbers odd. -/
theorem castTraverse_truth (hc : Consistent f env) {op : Node} {i : Nat}
    (h : castTraverse f fuel op = .ok (.def_node i)) :
    (env i = 0 → valueOf env op = 0) ∧ valueOf env op % 2 = env i % 2 := by
  induction fuel generalizing op with
  | zero => cases h
  | succ fuel ih =>
    have hconv : ∀ {j : Nat} {src : Node},
        env j = readWord (f.type j).isSigned (f.type j).bw (valueOf env src) →
        castTraverse f fuel src = .ok (.def_node i) →
        (env i = 0 → env j = 0) ∧ env j % 2 = env i % 2 := by
      intro j src hval hsrc
      obtain ⟨hzero, hodd⟩ := ih hsrc
      rw [hval, odd_readWord (f.type j).bw_valid.1]
      refine ⟨fun h0 => ?_, hodd⟩
      rw [hzero h0, readWord_zero (f.type j).bw_valid.1]
    cases op with
    | constant_int_val_node index value => cases h
    | constant_node index => cases h
    | ssa_node j =>
      unfold castTraverse at h
      split at h
      case h_1 k hk => exact hconv (hc.node j _ hk) h
      case h_2 src hk => exact hconv (hc.nop_node j _ hk) h
      case h_3 first rest hk =>
        split at h
        case isTrue hall => exact hconv (hc.phi_stmt j first rest hk hall) h
        case isFalse =>
          cases h
          exact ⟨id, rfl⟩
      case h_4 =>
        cases h
        exact ⟨id, rfl⟩

/-- A condition is not zero where its comparison holds. -/
theorem comparison_holds (hc : Consistent f env) {op : Op} {op0 op1 : Node}
    (h : comparison f fuel cond = .ok (some (op, op0, op1))) :
    valueOf env cond ≠ 0 ↔ op.Holds (valueOf env op0) (valueOf env op1) := by
  cases cond with
  | constant_int_val_node index value => cases h
  | constant_node index => cases h
  | ssa_node j =>
    obtain ⟨traversed, htr, h⟩ := bind_ok h
    cases traversed with
    | op op => cases h
    | def_node i =>
      dsimp only at h
      split at h
      case h_2 => cases h
      case h_1 kind op0' op1' hdef =>
        cases hkind : Op.ofKind kind with
        | none =>
          rw [hkind] at h
          cases h
        | some op' =>
          rw [hkind] at h
          cases h
          obtain ⟨hzero, hodd⟩ := castTraverse_truth hc htr
          have hval := hc.binary_node i kind op op0 op1 hdef hkind
          have hw := (f.type i).bw_valid.1
          split at hval
          case isTrue hholds =>
            have hone : env i % 2 = 1 := by rw [hval, odd_readWord hw]; rfl
            exact iff_of_true (fun h0 => by rw [h0] at hodd; omega) hholds
          case isFalse hnot =>
            rw [readWord_zero hw] at hval
            exact iff_of_false (fun hne => hne (hzero hval)) hnot

theorem varAndConstant_eq (env : Nat → Int) {op0 op1 : Node} {varOp : Nat} {cst : APInt}
    (h : varAndConstant op0 op1 = some (varOp, cst)) :
    (op0.IsConstant = false ∧ valueOf env op0 = env varOp ∧ valueOf env op1 = cst.val) ∨
      (op0.IsConstant = true ∧ valueOf env op1 = env varOp ∧ valueOf env op0 = cst.val) := by
  cases op0 <;> cases op1 <;> cases h
  · exact Or.inl ⟨rfl, rfl, rfl⟩
  · exact Or.inr ⟨rfl, rfl, rfl⟩

theorem canonVar_type {varOp canon : Nat} (h : canonVar f fuel varOp = .ok (some canon)) :
    f.type canon = f.type varOp := by
  obtain ⟨op, -, h⟩ := bind_ok h
  cases op with
  | constant_int_val_node index value => cases h
  | constant_node index => cases h
  | ssa_node c =>
    dsimp only at h
    split at h
    case isTrue =>
      cases h
      rfl
    case isFalse hsame =>
      cases h
      obtain ⟨hbw, hsigned⟩ := not_or.mp hsame
      revert hbw hsigned
      rcases f.type varOp with ⟨w, s, hw⟩
      rcases f.type canon with ⟨w', s', hw'⟩
      rintro hbw hsigned
      cases not_not.mp hbw
      cases not_not.mp hsigned
      rfl

/-- A constant of a type is not changed by the extension to it. -/
theorem extOrTrunc_values {t : IntType} (ht : t.Bounded) {v r : APInt} (hv : v.val ∈ t.values)
    (h : v.extOrTrunc t.bw t.isSigned = .ok r) : r.val = v.val := by
  obtain ⟨h0, hw⟩ := t.bw_valid
  rw [extOrTrunc_of_pos h0] at h
  obtain rfl := Except.ok.inj h
  rw [IntType.mem_values_iff ht] at hv
  cases hs : t.isSigned with
  | true =>
    rw [hs] at hv
    simp only [if_true] at hv
    rcases Nat.lt_or_eq_of_le hw with hlt | heq
    · rw [extTrunc_signed_val h0 hlt]
      exact signedResidue_of_mem h0 hv.1 hv.2
    · rw [heq, extTrunc_maxDigits]
  | false =>
    rw [hs] at hv
    simp only [Bool.false_eq_true, if_false] at hv
    have hlt : t.bw + 1 < maxDigits := ht.resolve_left (by rw [hs]; exact Bool.false_ne_true)
    rw [extTrunc_unsigned_val h0 (by omega)]
    exact Int.emod_eq_of_lt hv.1 (by rw [← two_mul_half h0]; exact hv.2)

/-- A condition of a type, with a constant of it. -/
structure SimpleCond.Fits (c : SimpleCond) (t : IntType) : Prop where
  bw : c.bw = t.bw
  isSigned : c.isSigned = t.isSigned
  cst : c.cst.val ∈ t.values

/-- What is parsed says of the constrained variable when the condition holds. -/
theorem parseSimpleCond_spec (hc : Consistent f env) (hfaithful : Faithful f fuel env cond)
    {c : SimpleCond} (ht : (f.type c.var).Bounded)
    (h : parseSimpleCond f fuel cond = .ok (some c)) :
    c.Fits (f.type c.var) ∧ (valueOf env cond ≠ 0 ↔ c.op.Holds (env c.var) c.cst.val) := by
  obtain ⟨found, hcomparison, h⟩ := bind_ok h
  cases found with
  | none => cases h
  | some found =>
    obtain ⟨op, op0, op1⟩ := found
    dsimp only at h
    cases hvar : varAndConstant op0 op1 with
    | none =>
      rw [hvar] at h
      cases h
    | some found =>
      obtain ⟨varOp, cstVal⟩ := found
      rw [hvar] at h
      obtain ⟨canon, hcanon, h⟩ := bind_ok h
      cases canon with
      | none => cases h
      | some var =>
        obtain ⟨cst, hcst, h⟩ := bind_ok h
        cases h
        obtain ⟨hmem, hside, hvalue⟩ := hfaithful op op0 op1 varOp cstVal hcomparison hvar
        have htype := canonVar_type hcanon
        have hcstVal := extOrTrunc_values ht (by rw [htype]; exact hmem) hcst
        refine ⟨⟨rfl, rfl, ?_⟩, ?_⟩
        · rw [hcstVal, htype]
          exact hmem
        rw [comparison_holds hc hcomparison]
        dsimp only
        rw [hcstVal, hvalue var hcanon]
        rcases varAndConstant_eq env hvar with ⟨-, h0, h1⟩ | ⟨hconst, h1, h0⟩
        · rw [h0, h1]
        · rw [h0, h1]
          -- The predicate is not swapped, so that it must be symmetric.
          rcases hside hconst with rfl | rfl
          · exact eq_comm
          · exact ne_comm

end Parse

end RangeAnalysis
end Bambu
