/-
  Bambu.IRAnalysis.BitValue.Forward

  `Bit_Value::forward`: the work list of assignments, phis and returns, and the fact that is
  kept for the result of the function.

  The loop starts from `clear_current`, so that the fact of the function starts as the best one
  known.  A return that is visited is merged into it, and in the end it is refined with the
  best one: it says in the end what it said before (`forward_result_fact`), whichever returns
  are visited, and in whatever order.
-/

import Bambu.Math.Worklist
import Bambu.Utility.Common
import Bambu.Utility.SupInf

namespace Bambu

open Bambu.Math

namespace BitValue

/-! ## The nodes of a function -/

/-- `ir_node::get_kind()`, as far as the analysis tells nodes apart. -/
inductive NodeKind where
  | ssa_node
  | argument_val_node
  | constant_int_val_node
  | constant_fp_val_node
  | function_val_node
  | other
  deriving DecidableEq, Repr

/-- What the analysis reads of a node: its type, whether its variable is a parameter, and for
an ssa its definition and its uses. -/
structure Node where
  kind : NodeKind
  typeSize : Nat
  isSigned : Bool
  isBoolean : Bool
  isHandled : Bool
  isParameter : Bool
  defStmt : Nat
  useStmts : List Nat

inductive Stmt where
  | assign_stmt (op0 : Nat) (required_values : List Nat)
  | phi_stmt (virtual_flag : Bool) (res : Nat) (defEdges : List Nat)
  | return_stmt (op : Option Nat)
  | nop_stmt
  | other

/-- The bitstrings of nodes: `current` and `best`. -/
abbrev Facts := Nat → Option Bitstring

structure Block where
  phiList : List Nat
  stmtList : List Nat

/-- A function and what is known of it; `forward_transfer` evaluates an assignment. -/
structure FunctionBody where
  function_id : Nat
  is_root_function : Bool
  arguments : List Nat
  bb_topological : List Block
  node : Nat → Node
  stmt : Nat → Stmt
  forwardTransfer : Nat → Facts → Facts → Except Error Bitstring

namespace Node

/-- The kinds of nodes that have a type to merge under. -/
def hasValueType (out_node : Node) : Bool :=
  out_node.kind = .ssa_node ∨ out_node.kind = .argument_val_node ∨
    out_node.kind = .constant_int_val_node ∨ out_node.kind = .function_val_node

/-- The checks of the type of the result. -/
def checkType (out_node : Node) : Except Error Unit := do
  if ¬ out_node.hasValueType then .error (.unreachable "unexpected sup for") else
  throwAssert (out_node.typeSize ≠ 0) ""
  throwAssert (¬ out_node.isBoolean ∨ out_node.typeSize = 1) "boolean with type size != 1"

/-- `BitLatticeManipulator::sup` -/
def sup (out_node : Node) (a b : Bitstring) : Except Error Bitstring := do
  throwAssert (a ≠ [] ∧ b ≠ [])
    ("a.size() = " ++ toString a.length ++ " b.size() = " ++ toString b.length)
  out_node.checkType
  .ok (Bambu.sup a b out_node.typeSize out_node.isSigned out_node.isBoolean)

/-- `BitLatticeManipulator::inf` -/
def inf (out_node : Node) (a b : Bitstring) : Except Error Bitstring := do
  throwAssert (¬ (a = [] ∧ b = []))
    ("a.size() = " ++ toString a.length ++ " b.size() = " ++ toString b.length)
  out_node.checkType
  .ok (Bambu.inf a b out_node.typeSize out_node.isSigned out_node.isBoolean)

end Node

namespace Facts

/-- `insert`, which keeps a fact that is there. -/
def insert (facts : Facts) (id : Nat) (b : Bitstring) : Facts :=
  if (facts id).isSome then facts else Function.update facts id (some b)

/-- `at` -/
def lookup (facts : Facts) (id : Nat) : Except Error Bitstring :=
  match facts id with
  | some b => .ok b
  | none => .error (.assertion "")

end Facts

namespace FunctionBody

/-! ## The visits -/

def getCurrent (F : FunctionBody) (best current : Facts) (tn : Nat) : Except Error Bitstring :=
  match (F.node tn).kind with
  | .ssa_node | .argument_val_node => current.lookup tn
  | .constant_int_val_node | .constant_fp_val_node => best.lookup tn
  | _ => .error (.unreachable "Unexpected node kind: ")

/-- What `update_current` makes of a reduced result: a constant stays as it is. -/
def refined (F : FunctionBody) (best_lattice res : Bitstring) (tn : Nat) :
    Except Error Bitstring :=
  if bitstringConstant res then .ok res else (F.node tn).sup res best_lattice

/-- `update_current`, and whether the fact has changed. -/
def updateCurrent (F : FunctionBody) (best current : Facts) (res : Bitstring) (tn : Nat) :
    Except Error (Facts × Bool) :=
  if res = [] then .ok (current, false)
  else do
    let best_lattice ← best.lookup tn
    let sup_lattice ← F.refined best_lattice (reduceCurrent (F.node tn).isSigned res) tn
    .ok (Function.update current tn (some sup_lattice), current tn ≠ some sup_lattice)

/-- The bitstring of an ssa without a value. -/
def uninitialized (F : FunctionBody) (id : Nat) : Bitstring :=
  createBitstringFromConstant 0 (F.node id).typeSize (F.node id).isSigned

/-- The ssa is defined by no statement. -/
def definedByNop (F : FunctionBody) (id : Nat) : Bool :=
  match F.stmt (F.node id).defStmt with
  | .nop_stmt => true
  | _ => false

/-- The values an assignment reads: the definitions that must come first. -/
def require (F : FunctionBody) : List Nat → Facts → Except Error (Facts × List Nat)
  | [], current => .ok (current, [])
  | id :: rest, current =>
    if id = 0 ∨ (F.node id).isHandled = false ∨ (F.node id).kind ≠ .ssa_node ∨
        (current id).isSome then
      F.require rest current
    else if F.definedByNop id then do
      throwAssert ((F.node id).isParameter = false)
        "Function parameter bitvalue must be defined before"
      F.require rest (current.insert id (F.uninitialized id))
    else do
      let (current, next) ← F.require rest current
      .ok (current, (F.node id).defStmt :: next)

/-- What a phi has collected: the merged fact, whether there was one, and the definitions that
are still missing. -/
structure Merge where
  current : Facts
  res : Bitstring
  atLeastOne : Bool
  missing : List Nat

/-- The definitions of a phi. -/
def mergeEdges (F : FunctionBody) (best : Facts) (output : Nat) :
    List Nat → Merge → Except Error Merge
  | [], m => .ok m
  | def_id :: rest, m =>
    if def_id = output then F.mergeEdges best output rest m
    else
      -- The fact of the definition, with what is first put in for it.
      let merge (current : Facts) : Except Error Merge := do
        throwAssert ((F.node def_id).isSigned = (F.node output).isSigned) ""
        let b ← current.lookup def_id
        let res ← (F.node output).inf m.res b
        F.mergeEdges best output rest { m with current, res, atLeastOne := true }
      if (m.current def_id).isSome then merge m.current
      else if (F.node def_id).kind = .ssa_node then
        if F.definedByNop def_id then do
          throwAssert ((F.node def_id).isParameter = false)
            "Function parameter bitvalue must be defined before"
          merge (m.current.insert def_id (F.uninitialized def_id))
        else
          F.mergeEdges best output rest
            { m with missing := m.missing ++ [(F.node def_id).defStmt] }
      else do
        let b ← best.lookup def_id
        merge (m.current.insert def_id b)

def visitAssign (F : FunctionBody) (best : Facts) (i op0 : Nat) (required_values : List Nat)
    (current : Facts) : Except Error (Facts × List Nat) :=
  if (F.node op0).kind ≠ .ssa_node ∨ (F.node op0).isHandled = false ∨ (F.node op0).useStmts = []
  then .ok (current, [])
  else do
    let (current, next) ← F.require required_values current
    if next = [] then
      let res ← F.forwardTransfer i best current
      let start ← best.lookup op0
      let (current, updated) ← F.updateCurrent best (current.insert op0 start) res op0
      .ok (current, if updated then (F.node op0).useStmts else [])
    else .ok (current, next ++ [i])

/-- The fact of a phi; one that is new counts as a change. -/
def updatePhi (F : FunctionBody) (best : Facts) (res : Nat) (m : Merge) :
    Except Error (Facts × Bool) :=
  if m.atLeastOne = false then .ok (m.current, false)
  else if (m.current res).isNone then .ok (m.current.insert res m.res, true)
  else F.updateCurrent best m.current m.res res

def visitPhi (F : FunctionBody) (best : Facts) (i : Nat) (virtual_flag : Bool) (res : Nat)
    (defEdges : List Nat) (current : Facts) : Except Error (Facts × List Nat) := do
  throwAssert (virtual_flag = false) "unexpected case"
  if (F.node res).isHandled = false ∨ (F.node res).useStmts = [] then .ok (current, [])
  else do
    let m ← F.mergeEdges best res defEdges ⟨current, [.X], false, []⟩
    let (current, updated) ← F.updatePhi best res m
    .ok (current, m.missing ++ (if updated then (F.node res).useStmts else []) ++
      (if m.missing = [] then [] else [i]))

/-- A returned fact is merged into that of the function, if there is one. -/
def mergeReturn (F : FunctionBody) (output_current res : Bitstring) : Except Error Bitstring :=
  if output_current ≠ [] then (F.node F.function_id).inf res output_current else .ok res

def visitReturn (F : FunctionBody) (best : Facts) (op : Option Nat) (current : Facts) :
    Except Error (Facts × List Nat) :=
  if F.is_root_function then .ok (current, [])
  else
    match op with
    | none => .error (.assertion "Empty return should not be a use of any ssa")
    | some op =>
      if (F.node op).kind = .ssa_node ∧ (F.node op).isHandled = true then do
        let res ← F.getCurrent best current op
        throwAssert (res ≠ []) ""
        let output_current ← F.mergeReturn ((current F.function_id).getD []) res
        .ok (Function.update current F.function_id (some output_current), [])
      else .ok (current, [])

/-- The statements that `push_back` takes. -/
def isPushed (F : FunctionBody) (i : Nat) : Bool :=
  match F.stmt i with
  | .assign_stmt .. | .phi_stmt .. | .return_stmt .. => true
  | _ => false

/-- One turn of the loop: the new facts, and the statements that are pushed. -/
def visit (F : FunctionBody) (best : Facts) (i : Nat) (current : Facts) :
    Except Error (Facts × List Nat) := do
  let (current, next) ← match F.stmt i with
    | .assign_stmt op0 required_values => F.visitAssign best i op0 required_values current
    | .phi_stmt virtual_flag res defEdges => F.visitPhi best i virtual_flag res defEdges current
    | .return_stmt op => F.visitReturn best op current
    | .nop_stmt | .other => .error (.unreachable "Unhandled statement: ")
  .ok (current, next.filter F.isPushed)

/-! ## The loop -/

/-- The statements that the loop starts from. -/
def workingList (F : FunctionBody) : List Nat :=
  (F.bb_topological.flatMap fun bb =>
    bb.phiList.filter (fun phi => match F.stmt phi with
      | .phi_stmt virtual_flag res _ => !virtual_flag && (F.node res).isHandled
      | _ => false) ++
    bb.stmtList.filter fun stmt => match F.stmt stmt with
      | .assign_stmt op0 _ => (F.node op0).isHandled
      | _ => false).foldl Fifo.pushBack []

/-- `return_list`, which nothing reads. -/
def returnList (F : FunctionBody) : List Nat :=
  F.bb_topological.flatMap fun bb => bb.stmtList.filter fun stmt => match F.stmt stmt with
    | .return_stmt _ => true
    | _ => false

def clearCurrent (F : FunctionBody) (best current : Facts) : Facts := fun idx =>
  match best idx with
  | some bv => if idx ∈ F.arguments ∨ idx = F.function_id then some bv else none
  | none => current idx

/-- `forward()`, when the work list is empty after `n` visits. -/
def forward (F : FunctionBody) (best : Facts) (n : Nat) (current : Facts) :
    Except Error (Option Facts) := do
  let (current, working_list) ← Fifo.run (F.visit best) n (current, F.workingList)
  if working_list ≠ [] then .ok none
  else
    match current F.function_id with
    | none => .ok (some current)
    | some res =>
      let (current, _) ← F.updateCurrent best current res F.function_id
      .ok (some current)

/-! ## The fact of the function -/

/-- What the IR guarantees: the function is no ssa, a phi defines one, and a Boolean result
has one bit. -/
structure Valid (F : FunctionBody) : Prop where
  function : (F.node F.function_id).kind = .function_val_node
  phi : ∀ i virtual_flag res defEdges, F.stmt i = .phi_stmt virtual_flag res defEdges →
    (F.node res).kind = .ssa_node
  boolean : (F.node F.function_id).isBoolean = true → (F.node F.function_id).typeSize = 1

/-- The function has a fact, and it is `b` with other facts merged into it. -/
def KeepsResult (F : FunctionBody) (b : Bitstring) (current : Facts) : Prop :=
  ∃ c, current F.function_id = some c ∧
    Absorbs (F.node F.function_id).isSigned (F.node F.function_id).typeSize b c

section Keeps

variable {F : FunctionBody} {b : Bitstring} {best current current' : Facts}

theorem KeepsResult.insert (h : F.KeepsResult b current) (id : Nat) (c : Bitstring) :
    F.KeepsResult b (current.insert id c) := by
  obtain ⟨r, hr, habs⟩ := h
  refine ⟨r, ?_, habs⟩
  unfold Facts.insert
  split
  case isTrue => exact hr
  case isFalse hnone =>
    -- The function has its fact, so it is not the node that gets one.
    have hne : F.function_id ≠ id := by
      rintro rfl
      rw [hr] at hnone
      exact hnone rfl
    rw [Function.update_of_ne hne, hr]

theorem KeepsResult.update (h : F.KeepsResult b current) {id : Nat} (hne : F.function_id ≠ id)
    (c : Option Bitstring) : F.KeepsResult b (Function.update current id c) := by
  obtain ⟨r, hr, habs⟩ := h
  exact ⟨r, (Function.update_of_ne hne _ _).trans hr, habs⟩

theorem KeepsResult.updateCurrent (h : F.KeepsResult b current) {id : Nat}
    (hne : F.function_id ≠ id) {res : Bitstring} {updated : Bool}
    (hupd : F.updateCurrent best current res id = .ok (current', updated)) :
    F.KeepsResult b current' := by
  unfold FunctionBody.updateCurrent at hupd
  split at hupd
  · cases hupd
    exact h
  · obtain ⟨best_lattice, -, hupd⟩ := bind_ok hupd
    obtain ⟨sup_lattice, -, hupd⟩ := bind_ok hupd
    cases hupd
    exact h.update hne _

theorem KeepsResult.require (required_values : List Nat) (h : F.KeepsResult b current)
    {next : List Nat} (hreq : F.require required_values current = .ok (current', next)) :
    F.KeepsResult b current' := by
  induction required_values generalizing current next with
  | nil =>
    cases hreq
    exact h
  | cons id rest ih =>
    unfold FunctionBody.require at hreq
    split at hreq
    · exact ih h hreq
    · split at hreq
      · obtain ⟨-, hreq⟩ := throwAssert_bind_ok hreq
        exact ih (h.insert id _) hreq
      · obtain ⟨⟨current₁, next₁⟩, hrest, hreq⟩ := bind_ok hreq
        cases hreq
        exact ih h hrest

theorem KeepsResult.mergeEdges (output : Nat) (defEdges : List Nat) {m m' : Merge}
    (h : F.KeepsResult b m.current) (hm : F.mergeEdges best output defEdges m = .ok m') :
    F.KeepsResult b m'.current := by
  induction defEdges generalizing m with
  | nil =>
    cases hm
    exact h
  | cons def_id rest ih =>
    -- Whatever is put in for the definition, its fact is merged and the others follow.
    have hmerge : ∀ current : Facts, F.KeepsResult b current →
        (do
          throwAssert ((F.node def_id).isSigned = (F.node output).isSigned) ""
          let c ← current.lookup def_id
          let res ← (F.node output).inf m.res c
          F.mergeEdges best output rest { m with current, res, atLeastOne := true }) = .ok m' →
        F.KeepsResult b m'.current := by
      intro current hc hok
      obtain ⟨-, hok⟩ := throwAssert_bind_ok hok
      obtain ⟨c, -, hok⟩ := bind_ok hok
      obtain ⟨res, -, hok⟩ := bind_ok hok
      exact ih (m := { m with current, res, atLeastOne := true }) hc hok
    unfold FunctionBody.mergeEdges at hm
    dsimp only at hm
    split at hm
    · exact ih h hm
    split at hm
    · exact hmerge _ h hm
    split at hm
    · split at hm
      · obtain ⟨-, hm⟩ := throwAssert_bind_ok hm
        exact hmerge _ (h.insert def_id _) hm
      · exact ih (m := { m with missing := m.missing ++ [(F.node def_id).defStmt] }) h hm
    · obtain ⟨c, -, hm⟩ := bind_ok hm
      exact hmerge _ (h.insert def_id c) hm

theorem KeepsResult.updatePhi {res : Nat} {m : Merge} (h : F.KeepsResult b m.current)
    (hne : F.function_id ≠ res) {updated : Bool}
    (hupd : F.updatePhi best res m = .ok (current', updated)) : F.KeepsResult b current' := by
  unfold FunctionBody.updatePhi at hupd
  split at hupd
  · cases hupd
    exact h
  split at hupd
  · cases hupd
    exact h.insert res _
  · exact h.updateCurrent hne hupd

/-- A returned fact is merged into the one of the function. -/
theorem KeepsResult.mergeReturn (hF : F.Valid) (hb : b ≠ []) (hX : BitLattice.X ∉ b)
    (hlen : b.length ≤ (F.node F.function_id).typeSize) (h : F.KeepsResult b current)
    {res output_current : Bitstring} (hres : res ≠ [])
    (hmerge : F.mergeReturn ((current F.function_id).getD []) res = .ok output_current) :
    F.KeepsResult b (Function.update current F.function_id (some output_current)) := by
  obtain ⟨c, hc, habs⟩ := h
  unfold FunctionBody.mergeReturn at hmerge
  rw [hc, Option.getD_some, if_pos habs.ne_nil] at hmerge
  unfold Node.inf at hmerge
  obtain ⟨-, hmerge⟩ := throwAssert_bind_ok hmerge
  obtain ⟨-, -, hmerge⟩ := bind_ok hmerge
  cases hmerge
  exact ⟨_, Function.update_self _ _ _, habs.inf hb hX hlen hres hF.boolean⟩

theorem KeepsResult.visitAssign (hF : F.Valid) (i op0 : Nat) (required_values : List Nat)
    (h : F.KeepsResult b current) {next : List Nat}
    (hvisit : F.visitAssign best i op0 required_values current = .ok (current', next)) :
    F.KeepsResult b current' := by
  unfold FunctionBody.visitAssign at hvisit
  split at hvisit
  · cases hvisit
    exact h
  case isFalse hssa =>
    have hne : F.function_id ≠ op0 := by
      rintro rfl
      rw [hF.function] at hssa
      exact hssa (.inl (by decide))
    obtain ⟨⟨current₁, next₁⟩, hreq, hvisit⟩ := bind_ok hvisit
    have h₁ := h.require required_values hreq
    dsimp only at hvisit
    split at hvisit
    · obtain ⟨res, -, hvisit⟩ := bind_ok hvisit
      obtain ⟨start, -, hvisit⟩ := bind_ok hvisit
      obtain ⟨⟨current₂, updated⟩, hupd, hvisit⟩ := bind_ok hvisit
      cases hvisit
      exact (h₁.insert op0 start).updateCurrent hne hupd
    · cases hvisit
      exact h₁

theorem KeepsResult.visitPhi (i : Nat) (virtual_flag : Bool) {res : Nat} (defEdges : List Nat)
    (hne : F.function_id ≠ res) (h : F.KeepsResult b current) {next : List Nat}
    (hvisit : F.visitPhi best i virtual_flag res defEdges current = .ok (current', next)) :
    F.KeepsResult b current' := by
  unfold FunctionBody.visitPhi at hvisit
  obtain ⟨-, hvisit⟩ := throwAssert_bind_ok hvisit
  split at hvisit
  · cases hvisit
    exact h
  · obtain ⟨m, hm, hvisit⟩ := bind_ok hvisit
    obtain ⟨⟨current₁, updated⟩, hupd, hvisit⟩ := bind_ok hvisit
    cases hvisit
    exact (KeepsResult.mergeEdges res defEdges (m := ⟨current, [.X], false, []⟩) h hm).updatePhi
      hne hupd

theorem KeepsResult.visitReturn (hF : F.Valid) (hb : b ≠ []) (hX : BitLattice.X ∉ b)
    (hlen : b.length ≤ (F.node F.function_id).typeSize) (op : Option Nat)
    (h : F.KeepsResult b current) {next : List Nat}
    (hvisit : F.visitReturn best op current = .ok (current', next)) :
    F.KeepsResult b current' := by
  unfold FunctionBody.visitReturn at hvisit
  split at hvisit
  · cases hvisit
    exact h
  split at hvisit
  · cases hvisit
  split at hvisit
  · obtain ⟨res, -, hvisit⟩ := bind_ok hvisit
    obtain ⟨hres, hvisit⟩ := throwAssert_bind_ok hvisit
    obtain ⟨output_current, hmerge, hvisit⟩ := bind_ok hvisit
    cases hvisit
    exact h.mergeReturn hF hb hX hlen hres hmerge
  · cases hvisit
    exact h

/-- No visit takes anything from the fact of the function. -/
theorem KeepsResult.visit (hF : F.Valid) (hb : b ≠ []) (hX : BitLattice.X ∉ b)
    (hlen : b.length ≤ (F.node F.function_id).typeSize) (i : Nat)
    (h : F.KeepsResult b current) {next : List Nat}
    (hvisit : F.visit best i current = .ok (current', next)) : F.KeepsResult b current' := by
  unfold FunctionBody.visit at hvisit
  cases hstmt : F.stmt i with
  | assign_stmt op0 required_values =>
    rw [hstmt] at hvisit
    obtain ⟨⟨current₁, next₁⟩, hassign, hvisit⟩ := bind_ok hvisit
    cases hvisit
    exact h.visitAssign hF i op0 required_values hassign
  | phi_stmt virtual_flag res defEdges =>
    rw [hstmt] at hvisit
    obtain ⟨⟨current₁, next₁⟩, hphi, hvisit⟩ := bind_ok hvisit
    cases hvisit
    have hne : F.function_id ≠ res := by
      rintro rfl
      have hkind := hF.phi i virtual_flag F.function_id defEdges hstmt
      rw [hF.function] at hkind
      exact NodeKind.noConfusion hkind
    exact h.visitPhi i virtual_flag defEdges hne hphi
  | return_stmt op =>
    rw [hstmt] at hvisit
    obtain ⟨⟨current₁, next₁⟩, hret, hvisit⟩ := bind_ok hvisit
    cases hvisit
    exact h.visitReturn hF hb hX hlen op hret
  | nop_stmt =>
    rw [hstmt] at hvisit
    cases hvisit
  | other =>
    rw [hstmt] at hvisit
    cases hvisit

end Keeps

/-- The operands that are returned. -/
def returned (F : FunctionBody) : List Nat :=
  F.returnList.filterMap fun i => match F.stmt i with
    | .return_stmt op => op
    | _ => none

section Result

variable {F : FunctionBody} {b c : Bitstring} {best current : Facts}

/-- The last step of `forward` gives the best fact back. -/
theorem position_refined (hF : F.Valid) (hb : b ≠ []) (hX : BitLattice.X ∉ b)
    (hlen : b.length ≤ (F.node F.function_id).typeSize)
    (h : Absorbs (F.node F.function_id).isSigned (F.node F.function_id).typeSize b c)
    {r : Bitstring}
    (hr : F.refined b (reduceCurrent (F.node F.function_id).isSigned c) F.function_id = .ok r)
    (i : Nat) :
    position (F.node F.function_id).isSigned r i =
      position (F.node F.function_id).isSigned b i := by
  have hback := h.refine hb hX hlen hF.boolean i
  unfold refined at hr
  split at hr
  case isTrue hconst =>
    cases hr
    rwa [if_pos hconst] at hback
  case isFalse hconst =>
    rw [if_neg hconst] at hback
    unfold Node.sup at hr
    obtain ⟨-, hr⟩ := throwAssert_bind_ok hr
    obtain ⟨-, -, hr⟩ := bind_ok hr
    cases hr
    exact hback

theorem keepsResult_clearCurrent (hbest : best F.function_id = some b) (hb : b ≠ [])
    (hlen : b.length ≤ (F.node F.function_id).typeSize) :
    F.KeepsResult b (F.clearCurrent best current) := by
  refine ⟨b, ?_, Absorbs.refl hb hlen⟩
  unfold clearCurrent
  rw [hbest]
  exact if_pos (.inr rfl)

end Result

end FunctionBody

/-- What is returned is in the final fact of the function just when it was in the best one. -/
theorem forward_result_fact (F : FunctionBody) (hF : F.Valid) (best current : Facts)
    (b : Bitstring) (hbest : best F.function_id = some b) (hb : b ≠ [])
    (hX : BitLattice.X ∉ b) (hlen : b.length ≤ (F.node F.function_id).typeSize) (n : Nat)
    (final : Facts)
    (hrun : F.forward best n (F.clearCurrent best current) = .ok (some final)) :
    ∃ r, final F.function_id = some r ∧
      ∀ op ∈ F.returned, ∀ c, F.getCurrent best final op = .ok c →
        ∀ x, Describes (F.node op).isSigned c x →
          (Describes (F.node F.function_id).isSigned r x ↔
            Describes (F.node F.function_id).isSigned b x) := by
  unfold FunctionBody.forward at hrun
  obtain ⟨⟨current₁, work⟩, hloop, hrun⟩ := bind_ok hrun
  obtain ⟨c, hc, habs⟩ : F.KeepsResult b current₁ :=
    Fifo.run_invariant (fun i s s' next hs hvisit => hs.visit hF hb hX hlen i hvisit)
      (FunctionBody.keepsResult_clearCurrent hbest hb hlen) hloop
  dsimp only at hrun
  split at hrun
  · cases hrun
  rw [hc] at hrun
  obtain ⟨⟨current₂, updated⟩, hupd, hrun⟩ := bind_ok hrun
  cases hrun
  unfold FunctionBody.updateCurrent at hupd
  rw [if_neg habs.ne_nil] at hupd
  obtain ⟨best_lattice, hlookup, hupd⟩ := bind_ok hupd
  obtain ⟨r, hr, hupd⟩ := bind_ok hupd
  cases hupd
  have hsame : best_lattice = b := by
    unfold Facts.lookup at hlookup
    rw [hbest] at hlookup
    exact (Except.ok.inj hlookup).symm
  rw [hsame] at hr
  have hpos := FunctionBody.position_refined hF hb hX hlen habs hr
  refine ⟨r, Function.update_self _ _ _, fun op _ c' _ x _ => ?_⟩
  unfold Describes
  simp only [hpos]

/-- A function that returns an unknown two-bit number, or zero: its range says that what is
returned is below two. -/
def belowTwo : FunctionBody where
  function_id := 0
  is_root_function := false
  arguments := [1]
  bb_topological := [⟨[], [10, 11]⟩, ⟨[], [12]⟩]
  node
    | 0 => ⟨.function_val_node, 8, false, false, true, false, 0, []⟩
    | 1 => ⟨.ssa_node, 8, false, false, true, true, 0, [10]⟩
    | 2 => ⟨.ssa_node, 8, false, false, true, false, 10, [11]⟩
    | _ => ⟨.constant_int_val_node, 8, false, false, true, false, 0, []⟩
  stmt
    | 10 => .assign_stmt 2 [1]
    | 11 => .return_stmt (some 2)
    | 12 => .return_stmt (some 3)
    | _ => .nop_stmt
  forwardTransfer _ _ _ := .ok [.U, .U]

/-- What is known of its nodes before. -/
def belowTwoBest : Facts
  | 0 => some [.U]
  | 1 | 2 => some (createUBitstring 8)
  | 3 => some [.ZERO]
  | _ => none

theorem belowTwo_valid : belowTwo.Valid where
  function := rfl
  phi i virtual_flag res defEdges h := by
    unfold belowTwo at h
    dsimp only at h
    split at h <;> cases h
  boolean := Bool.noConfusion

theorem forward_result_fact_belowTwo :
    ∃ final r, final 0 = some r ∧
      ∀ op ∈ belowTwo.returned, ∀ c, belowTwo.getCurrent belowTwoBest final op = .ok c →
        ∀ x, Describes (belowTwo.node op).isSigned c x →
          (Describes false r x ↔ Describes false [.U] x) :=
  ⟨_, forward_result_fact belowTwo belowTwo_valid belowTwoBest (fun _ => none) [.U] rfl
    (by decide) (by decide) (by decide) 2 _ rfl⟩

/-- Two is described by what is known of the operand, and not by the fact of the function. -/
theorem forward_result_excludes :
    ¬ ∀ (F : FunctionBody), F.Valid → ∀ (best current : Facts) (b : Bitstring),
      best F.function_id = some b → b ≠ [] → BitLattice.X ∉ b →
      b.length ≤ (F.node F.function_id).typeSize → ∀ n final,
      F.forward best n (F.clearCurrent best current) = .ok (some final) →
        ∀ r, final F.function_id = some r → ∀ op ∈ F.returned, ∀ c,
          F.getCurrent best final op = .ok c → ∀ x, Describes (F.node op).isSigned c x →
            Describes (F.node F.function_id).isSigned r x := by
  intro h
  have hnot : ¬ Describes false [.U] 2 := by decide
  exact hnot (h belowTwo belowTwo_valid belowTwoBest (fun _ => none) [.U] rfl (by decide)
    (by decide) (by decide) 2 _ rfl [.U] rfl 2 (by decide) [.U, .U] rfl 2 (by decide))

end BitValue
end Bambu
