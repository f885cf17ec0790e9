/-
  Bambu.Algorithms.RangeAnalysis.Rename

  The renaming of the uses of a variable in `buildGraph`: a stack of copies along the sorted uses,
  and the sigma operations that are made of the copies on it.

  A copy that is first in its block is for the blocks that its target dominates, and the edge is
  the only way there.  A copy of an edge is on the stack for the phi uses that follow it and have
  its source in the first def edge of the variable (`Stretch`): which edge of the phi the use
  comes along is not asked for, and the sink is one of the variable and the target only.
-/

import Bambu.Algorithms.RangeAnalysis.RenameOrder
import Bambu.Math.Walk
import Bambu.Utility.Range.Accessors

namespace Bambu
namespace RangeAnalysis

open Bambu.Math

/-! ## The renaming stack -/

/-- The block that the sink is a node of, with the variable. -/
def SigmaOpNode.getSink (op : SigmaOpNode) : Nat := op.PInfo.To

def ValueDFS.PInfo (VD : ValueDFS) : Option PredicateWithEdge :=
  match VD.content with
  | .copy PInfo _ => some PInfo
  | .use _ => none

def ValueDFS.Def (VD : ValueDFS) : Option SigmaOpNode :=
  match VD.content with
  | .copy _ Def => Def
  | .use _ => none

/-- The back of the stack is the head of the list. -/
def stackIsInScope (Stack : List ValueDFS) (VDUse : ValueDFS) (OI : OrderedInstructions) :
    Except Error Bool :=
  match Stack with
  | [] => .ok false
  | back :: _ =>
    if back.EdgeOnly then
      match VDUse.content, back.content with
      | .use U, .copy PInfo _ =>
        match U.inst.CGetDefEdgesList with
        | none => .ok false
        | some def_edges =>
          match def_edges.find? fun de => de.1 = U.var with
          | none => .error (.assertion "Unable to find assumed use")
          | some de_it =>
            if de_it.2 ≠ PInfo.From then .ok false
            else if U.inst.bb_index = PInfo.To ∧ de_it.2 = PInfo.From then .ok true
            else .ok (OI.dominatesBlock PInfo.From de_it.2)
      | _, _ => .ok false
    else .ok (back.DIndex.le VDUse.DIndex)

def popStackUntilDFSScope (Stack : List ValueDFS) (VD : ValueDFS) (OI : OrderedInstructions) :
    Except Error (List ValueDFS) :=
  match Stack with
  | [] => .ok []
  | back :: rest => do
    let inScope ← stackIsInScope (back :: rest) VD OI
    if inScope then .ok (back :: rest) else popStackUntilDFSScope rest VD OI

/-- What is on the stack from the last `Def` on is made real; the new operations are in order. -/
def materializeStack : List ValueDFS → Except Error (List ValueDFS × List SigmaOpNode)
  | [] => .ok ([], [])
  | Result :: rest =>
    match Result.content with
    | .copy ValInfo none => do
      let (rest, ops) ← materializeStack rest
      let source := rest.head?.bind fun previous => previous.Def.map SigmaOpNode.getSink
      throwAssert (source ≠ some ValInfo.To) "unexpected condition"
      let Def : SigmaOpNode := ⟨ValInfo, source⟩
      .ok ({ Result with content := .copy ValInfo (some Def) } :: rest, ops ++ [Def])
    | _ => .ok (Result :: rest, [])

/-! ## The loop over the sorted uses -/

/-- A use that has been replaced by the sink of a sigma operation; for a phi with the index of
the operand and the block that the operand comes from. -/
structure Replacement where
  inst : node_stmt
  operand : Option (Nat × Nat)
  sink : Nat
  deriving DecidableEq

structure RenameState where
  RenameStack : List ValueDFS
  sigmas : List SigmaOpNode
  replaced : List Replacement

/-- The operands of a phi that are replaced. -/
def replacedOperands (OI : OrderedInstructions) (VD : ValueDFS) (U : VarUse)
    (edges : List (Nat × Nat)) (sink : Nat) : List Replacement :=
  (edges.zipIdx.filter fun e => e.1.1 = U.var ∧ VD.DIndex.le (OI.info e.1.2)).map
    fun e => ⟨U.inst, some (e.2, e.1.2), sink⟩

/-- What a use with a copy on the stack is replaced by. -/
def replaceUse (OI : OrderedInstructions) (VD : ValueDFS) (U : VarUse)
    (PInfo : PredicateWithEdge) : List Replacement :=
  match U.inst.CGetDefEdgesList with
  | some edges => replacedOperands OI VD U edges PInfo.To
  | none =>
    match PInfo.intersect with
    -- Skip set-based replacement in non-phi use (unmappable predicate)
    | none => []
    -- Skip anti-range replacement in non-phi use
    | some aux => if aux.isAnti then [] else [⟨U.inst, none, PInfo.To⟩]

/-- Sync to our current scope. -/
def syncScope (OI : OrderedInstructions) (Stack : List ValueDFS) (VD : ValueDFS) :
    Except Error (List ValueDFS) := do
  let inScope ← stackIsInScope Stack VD OI
  if !inScope || VD.isCopy then popStackUntilDFSScope Stack VD OI else .ok Stack

/-- One iteration of the loop over `OrderedUses`. -/
def renameStep (OI : OrderedInstructions) (st : RenameState) (VD : ValueDFS) :
    Except Error RenameState := do
  let RenameStack ← syncScope OI st.RenameStack VD
  match VD.content with
  | .copy _ _ => .ok { st with RenameStack := VD :: RenameStack }
  | .use U =>
    match RenameStack with
    -- Current use needs no renaming
    | [] => .ok { st with RenameStack := [] }
    | Result :: rest => do
      let made ←
        (if Result.Def.isNone then materializeStack (Result :: rest)
        else .ok (Result :: rest, []))
      match Result.PInfo with
      | none => .error (.assertion "")
      | some PInfo =>
        .ok ⟨made.1, st.sigmas ++ made.2, st.replaced ++ replaceUse OI VD U PInfo⟩

/-- The renaming of one operand of `OpsToRename`, with its uses as they have been sorted. -/
def renameUses (OI : OrderedInstructions) (st : RenameState) (OrderedUses : List ValueDFS) :
    Except Error RenameState :=
  OrderedUses.foldlM (renameStep OI) { st with RenameStack := [] }

/-- A variable is in `OpsToRename` once for each of its edges. -/
def renameVariable (OI : OrderedInstructions) (passes : List (List ValueDFS)) :
    Except Error RenameState :=
  passes.foldlM (renameUses OI) ⟨[], [], []⟩

/-! ## Soundness -/

section Definitions

variable (preds : Nat → List Nat) (entry : Nat) (DT : Forest Nat) (D : Nat)

/-- The edges of the control flow graph, by `list_of_pred` of its blocks. -/
def Edge (a b : Nat) : Prop := a ∈ preds b

/-- The tree is the dominator tree of the graph, which has no unreachable blocks. -/
structure IsDominatorTree : Prop where
  nodup : DT.nodes.Nodup
  entry_preds : preds entry = []
  mem_nodes : ∀ a b, Edge preds a b → a ∈ DT.nodes ∧ b ∈ DT.nodes
  reachable : ∀ b ∈ DT.nodes, ∃ w, Walk (Edge preds) entry b w
  dominates : ∀ a ∈ DT.nodes, ∀ b ∈ DT.nodes,
    (a = b ∨ DT.Above a b) ↔ Dominates (Edge preds) entry a b

/-- A copy or a use of a variable that is defined in block `D`: the copy is for an edge of the
graph, and one that can only handle phi uses where the target has other predecessors. -/
structure Inserted (blocks : Nat → Option bloc) (VD : ValueDFS) : Prop where
  placed : Placed blocks DT VD
  copy : ∀ PInfo Def, VD.content = .copy PInfo Def → Edge preds PInfo.From PInfo.To ∧
    Dominates (Edge preds) entry D PInfo.From ∧
    (VD.EdgeOnly = true ↔ 1 < (preds PInfo.To).length)
  phi : ∀ U edges, VD.content = .use U → U.inst.CGetDefEdgesList = some edges →
    (∃ e ∈ edges, e.1 = U.var) ∧ ∀ e ∈ edges, Edge preds e.2 U.inst.bb_index

/-- The block at the end of which, or in which, the value is read. -/
def Replacement.block (r : Replacement) : Nat :=
  match r.operand with
  | some (_, edge_bbi) => edge_bbi
  | none => r.inst.bb_index

/-- The last step to a phi operand is the edge that it comes along. -/
def Replacement.along (r : Replacement) : List Nat :=
  match r.operand with
  | some _ => [r.inst.bb_index]
  | none => []

/-- The predicates that hold of a sink: that of an operation it is the sink of, and those that hold
of the source of the operation. -/
inductive Applies (sigmas : List SigmaOpNode) : Nat → PredicateWithEdge → Prop where
  | here {op : SigmaOpNode} (hop : op ∈ sigmas) : Applies sigmas op.getSink op.PInfo
  | ofSource {op : SigmaOpNode} {source : Nat} {PInfo : PredicateWithEdge} (hop : op ∈ sigmas)
    (hsource : op.source = some source) (h : Applies sigmas source PInfo) :
    Applies sigmas op.getSink PInfo

/-- Every way to a replaced use passes the edges of all predicates that are taken to hold of the
value, after its definition. -/
def RenamingSound (st : RenameState) : Prop :=
  ∀ r ∈ st.replaced, ∀ PInfo, Applies st.sigmas r.sink PInfo →
    ∀ w, Walk (Edge preds) entry r.block w → LastThrough D PInfo.From PInfo.To (w ++ r.along)

/-- What is checked of a use when the copy of an edge is at the back of the stack: that it is one
of a phi, the first def edge of which with the variable comes from the source of the edge. -/
def Accepts (PInfo : PredicateWithEdge) (VD : ValueDFS) : Bool :=
  match VD.content with
  | .copy _ _ => false
  | .use U =>
    match U.inst.CGetDefEdgesList with
    | none => false
    | some edges => (edges.find? fun de => de.1 = U.var).any fun de => de.2 = PInfo.From

/-- The list ends with the copy of an edge and uses that it accepts. -/
def Stretch (done : List ValueDFS) (PInfo : PredicateWithEdge) : Prop :=
  ∃ pre c mid, done = pre ++ c :: mid ∧ c.PInfo = some PInfo ∧ c.EdgeOnly = true ∧
    ∀ VD ∈ mid, Accepts PInfo VD = true

/-- The use is in the list where the copy of an edge and uses that it accepts stand before it, and
is accepted. -/
def OnTop (S : List ValueDFS) (PInfo : PredicateWithEdge) (VD : ValueDFS) : Prop :=
  ∃ pre post, S = pre ++ VD :: post ∧ Stretch pre PInfo ∧ Accepts PInfo VD = true

/-- The second edge is the first one, or below a target that has no other way into it. -/
def EdgeDominates (PInfo : PredicateWithEdge) (source target : Nat) : Prop :=
  (source = PInfo.From ∧ target = PInfo.To) ∨
    ((PInfo.To = source ∨ DT.Above PInfo.To source) ∧
      ∀ c ∈ preds PInfo.To, c ≠ PInfo.From → PInfo.To = c ∨ DT.Above PInfo.To c)

/-- Where a phi use meets the copy of an edge, every operand with the variable that comes from
below the use comes along an edge that the edge dominates, and so do the edges of other copies with
the same target that meet a use. -/
def EdgeUsesApart (passes : List (List ValueDFS)) : Prop :=
  ∀ S ∈ passes, ∀ PInfo VD, OnTop S PInfo VD →
    ∀ S' ∈ passes, ∀ PInfo' VD', OnTop S' PInfo' VD' → PInfo'.To = PInfo.To →
      ∀ U edges, VD.content = .use U → U.inst.CGetDefEdgesList = some edges →
        ∀ e ∈ edges, e.1 = U.var →
          VD.DIndex.le (infoOf (compute_dominator_vector DT) e.2) = true →
          EdgeDominates preds DT PInfo' e.2 U.inst.bb_index

end Definitions

section Run

variable {preds : Nat → List Nat} {entry : Nat} {DT : Forest Nat} {D : Nat}
  {blocks : Nat → Option bloc} {OI : OrderedInstructions}

/-! ## The scope of a copy -/

/-- The copy is in scope for the element. -/
def ValueDFS.inScope (back VD : ValueDFS) : Bool :=
  if back.EdgeOnly then back.PInfo.any fun PInfo => Accepts PInfo VD
  else back.DIndex.le VD.DIndex

theorem DFSInfo.le_trans {a b c : DFSInfo} (hab : a.le b = true) (hbc : b.le c = true) :
    a.le c = true := by
  simp only [DFSInfo.le, Bool.and_eq_true, decide_eq_true_eq] at *
  omega

/-- The test of the back of the stack: any edge dominates its own source. -/
theorem stackIsInScope_eq {Stack : List ValueDFS} {VD : ValueDFS}
    (hStack : ∀ x ∈ Stack, x.PInfo.isSome = true)
    (hVD : Inserted preds entry DT D blocks VD) :
    stackIsInScope Stack VD OI = .ok (Stack.head?.any fun back => back.inScope VD) := by
  cases Stack with
  | nil => rfl
  | cons back rest =>
    have hback := hStack back List.mem_cons_self
    simp only [stackIsInScope, List.head?_cons, Option.any_some, ValueDFS.inScope]
    split
    case isFalse => rfl
    case isTrue =>
      cases hVc : VD.content with
      | copy P d =>
        cases hbc : back.content with
        | copy P' d' => simp [ValueDFS.PInfo, hbc, Accepts, hVc]
        | use U => simp [ValueDFS.PInfo, hbc] at hback
      | use U =>
        cases hbc : back.content with
        | use U' => simp [ValueDFS.PInfo, hbc] at hback
        | copy P d =>
          simp only [ValueDFS.PInfo, hbc, Accepts, hVc, Option.any_some]
          cases hphi : U.inst.CGetDefEdgesList with
          | none => rfl
          | some edges =>
            obtain ⟨⟨e, he, hvar⟩, -⟩ := hVD.phi U edges hVc hphi
            cases hfind : edges.find? (fun de => de.1 = U.var) with
            | none => exact absurd (decide_eq_true hvar) (List.find?_eq_none.mp hfind e he)
            | some de =>
              by_cases hde : de.2 = P.From
              · simp [hfind, hde, OrderedInstructions.dominatesBlock]
              · simp [hfind, hde]

theorem popStackUntilDFSScope_eq {Stack : List ValueDFS} {VD : ValueDFS}
    (hStack : ∀ x ∈ Stack, x.PInfo.isSome = true)
    (hVD : Inserted preds entry DT D blocks VD) :
    popStackUntilDFSScope Stack VD OI = .ok (Stack.dropWhile fun back => !back.inScope VD) := by
  induction Stack with
  | nil => rfl
  | cons back rest ih =>
    rw [popStackUntilDFSScope, stackIsInScope_eq hStack hVD, ok_bind, List.head?_cons,
      Option.any_some, List.dropWhile_cons]
    cases hscope : back.inScope VD with
    | true => rfl
    | false => exact ih fun x hx => hStack x (List.mem_cons_of_mem _ hx)

/-! ## What materializing keeps -/

/-- The parts of a copy that do not change when it is materialized. -/
def ValueDFS.key (VD : ValueDFS) : DFSInfo × Bool × Option PredicateWithEdge :=
  (VD.DIndex, VD.EdgeOnly, VD.PInfo)

theorem key_eq_iff {x y : ValueDFS} :
    x.key = y.key ↔ x.DIndex = y.DIndex ∧ x.EdgeOnly = y.EdgeOnly ∧ x.PInfo = y.PInfo := by
  simp [ValueDFS.key]

/-- The block that a copy is placed at: its source where the target has other predecessors. -/
def scopeOf (preds : Nat → List Nat) (PInfo : PredicateWithEdge) : Nat :=
  if 1 < (preds PInfo.To).length then PInfo.From else PInfo.To

/-- An entry of the stack is a copy for an edge of the graph. -/
structure EntryOk (preds : Nat → List Nat) (entry : Nat) (DT : Forest Nat) (D : Nat)
    (x : ValueDFS) (PInfo : PredicateWithEdge) : Prop where
  PInfo_eq : x.PInfo = some PInfo
  DIndex_eq : x.DIndex = infoOf (compute_dominator_vector DT) (scopeOf preds PInfo)
  edgeOnly : x.EdgeOnly = true ↔ 1 < (preds PInfo.To).length
  edge : Edge preds PInfo.From PInfo.To
  dominates : Dominates (Edge preds) entry D PInfo.From

/-- The source of an operation is the sink for a block with one predecessor, at the block of the
copy or above. -/
structure OpOk (preds : Nat → List Nat) (entry : Nat) (DT : Forest Nat) (D : Nat)
    (op : SigmaOpNode) : Prop where
  edge : Edge preds op.PInfo.From op.PInfo.To
  dominates : Dominates (Edge preds) entry D op.PInfo.From
  source : ∀ k, op.source = some k → ¬ 1 < (preds k).length ∧
    (k = scopeOf preds op.PInfo ∨ DT.Above k (scopeOf preds op.PInfo))

structure StackOk (preds : Nat → List Nat) (entry : Nat) (DT : Forest Nat) (D : Nat)
    (sigmas : List SigmaOpNode) (Stack : List ValueDFS) : Prop where
  entries : ∀ x ∈ Stack, ∃ PInfo, EntryOk preds entry DT D x PInfo
  defs : ∀ x ∈ Stack, ∀ op, x.Def = some op → op ∈ sigmas ∧ x.PInfo = some op.PInfo
  nested : Stack.Pairwise fun upper lower =>
    lower.EdgeOnly = false ∧ lower.DIndex.le upper.DIndex = true

theorem EntryOk.congr {x y : ValueDFS} {PInfo : PredicateWithEdge} (h : x.key = y.key)
    (hx : EntryOk preds entry DT D x PInfo) : EntryOk preds entry DT D y PInfo := by
  obtain ⟨hD, hE, hP⟩ := key_eq_iff.mp h
  exact ⟨hP ▸ hx.PInfo_eq, hD ▸ hx.DIndex_eq, hE ▸ hx.edgeOnly, hx.edge, hx.dominates⟩

theorem scopeOf_mem (hDT : IsDominatorTree preds entry DT) {PInfo : PredicateWithEdge}
    (h : Edge preds PInfo.From PInfo.To) : scopeOf preds PInfo ∈ DT.nodes := by
  obtain ⟨hFrom, hTo⟩ := hDT.mem_nodes _ _ h
  unfold scopeOf
  split
  · exact hFrom
  · exact hTo

theorem materializeStack_spec (hDT : IsDominatorTree preds entry DT) {sigmas : List SigmaOpNode}
    {Stack Stack' : List ValueDFS} {ops : List SigmaOpNode}
    (hStack : StackOk preds entry DT D sigmas Stack)
    (h : materializeStack Stack = .ok (Stack', ops)) :
    Stack'.map ValueDFS.key = Stack.map ValueDFS.key ∧
      (∀ x ∈ Stack', ∀ op, x.Def = some op → op ∈ sigmas ++ ops ∧ x.PInfo = some op.PInfo) ∧
      (∀ op ∈ ops, OpOk preds entry DT D op ∧ ∃ x ∈ Stack, x.PInfo = some op.PInfo) ∧
      ∀ x, Stack'.head? = some x → x.Def.isSome = true := by
  induction Stack generalizing Stack' ops with
  | nil =>
    cases h
    exact ⟨rfl, fun x hx => absurd hx List.not_mem_nil, fun op hop => absurd hop List.not_mem_nil,
      fun x hx => absurd hx (by simp)⟩
  | cons Result rest ih =>
    obtain ⟨PInfo, hentry⟩ := hStack.entries Result List.mem_cons_self
    have hrest : StackOk preds entry DT D sigmas rest :=
      ⟨fun x hx => hStack.entries x (List.mem_cons_of_mem _ hx),
        fun x hx => hStack.defs x (List.mem_cons_of_mem _ hx), hStack.nested.of_cons⟩
    rw [materializeStack] at h
    split at h
    case h_1 ValInfo hcontent =>
      obtain rfl : ValInfo = PInfo := by
        have := hentry.PInfo_eq
        rw [ValueDFS.PInfo, hcontent] at this
        exact Option.some.inj this
      cases hrun : materializeStack rest with
      | error e => rw [hrun] at h; cases h
      | ok r =>
        obtain ⟨rest', ops'⟩ := r
        obtain ⟨hkey, hdefs, hops, -⟩ := ih hrest hrun
        rw [hrun, ok_bind] at h
        obtain ⟨-, h⟩ := throwAssert_bind_ok h
        cases h
        refine ⟨?_, ?_, ?_, ?_⟩
        · rw [List.map_cons, List.map_cons, hkey]
          simp [ValueDFS.key, ValueDFS.PInfo, hcontent]
        · intro x hx op hop
          obtain rfl | hx := List.mem_cons.mp hx
          · cases hop
            exact ⟨by simp, rfl⟩
          · obtain ⟨hmem, hP⟩ := hdefs x hx op hop
            rw [← List.append_assoc]
            exact ⟨List.mem_append_left _ hmem, hP⟩
        · intro op hop
          obtain hop | hop := List.mem_append.mp hop
          · obtain ⟨hok, x, hx, hP⟩ := hops op hop
            exact ⟨hok, x, List.mem_cons_of_mem _ hx, hP⟩
          obtain rfl := List.mem_singleton.mp hop
          refine ⟨⟨hentry.edge, hentry.dominates, fun k hk => ?_⟩, Result, List.mem_cons_self,
            hentry.PInfo_eq⟩
          -- The source is the sink of the copy below, which is not one of an edge.
          obtain ⟨previous, hhead, hsink⟩ := Option.bind_eq_some_iff.mp hk
          obtain ⟨op', hDef, rfl⟩ := Option.map_eq_some_iff.mp hsink
          have hprev : previous ∈ rest' := List.mem_of_head? hhead
          obtain ⟨y, hy, hyk⟩ : ∃ y ∈ rest, y.key = previous.key := by
            have := List.mem_map_of_mem (f := ValueDFS.key) hprev
            rw [hkey] at this
            exact List.mem_map.mp this
          obtain ⟨P, hPy⟩ := hrest.entries y hy
          have hP := hPy.congr hyk
          obtain rfl : P = op'.PInfo :=
            Option.some.inj (hP.PInfo_eq.symm.trans (hdefs previous hprev op' hDef).2)
          obtain ⟨hfalse, hle⟩ := List.rel_of_pairwise_cons hStack.nested hy
          have hnarrow : ¬ 1 < (preds op'.PInfo.To).length :=
            fun hw => Bool.false_ne_true (hfalse.symm.trans (hPy.edgeOnly.mpr hw))
          refine ⟨hnarrow, ?_⟩
          rw [hPy.DIndex_eq, hentry.DIndex_eq, le_infoOf hDT.nodup (scopeOf_mem hDT hPy.edge)
            (scopeOf_mem hDT hentry.edge)] at hle
          rw [scopeOf, if_neg hnarrow] at hle
          exact hle
        · intro x hx
          cases hx
          rfl
    case h_2 hcontent =>
      cases h
      refine ⟨rfl, ?_, fun op hop => absurd hop List.not_mem_nil, ?_⟩
      · rw [List.append_nil]
        exact hStack.defs
      · intro x hx
        cases hx
        cases hc : Result.content with
        | copy P d =>
          cases d with
          | none => exact absurd hc (hcontent P)
          | some op => simp [ValueDFS.Def, hc]
        | use U =>
          have hP := hentry.PInfo_eq
          simp [ValueDFS.PInfo, hc] at hP

/-! ## Stretches of the sorted list -/

theorem not_stretch_nil {PInfo : PredicateWithEdge} : ¬ Stretch [] PInfo := by
  rintro ⟨pre, c, mid, h, -⟩
  exact absurd h (by simp)

/-- The list ends with a new copy of an edge, or a stretch goes on. -/
theorem stretch_snoc_iff {done : List ValueDFS} {VD : ValueDFS} {PInfo : PredicateWithEdge} :
    Stretch (done ++ [VD]) PInfo ↔
      (VD.PInfo = some PInfo ∧ VD.EdgeOnly = true) ∨
        (Stretch done PInfo ∧ Accepts PInfo VD = true) := by
  constructor
  · rintro ⟨pre, c, mid, h, hP, hE, hmid⟩
    obtain rfl | ⟨mid', y, rfl⟩ := List.eq_nil_or_concat mid
    · obtain ⟨-, h⟩ := List.append_inj' h rfl
      cases h
      exact Or.inl ⟨hP, hE⟩
    · rw [List.concat_eq_append, ← List.cons_append, ← List.append_assoc] at h
      obtain ⟨hdone, hlast⟩ := List.append_inj' h rfl
      cases hlast
      subst hdone
      rw [List.concat_eq_append] at hmid
      refine Or.inr ⟨⟨pre, c, mid', rfl, hP, hE, fun x hx => ?_⟩, ?_⟩
      · exact hmid x (List.mem_append_left _ hx)
      · exact hmid VD (by simp)
  · rintro (⟨hP, hE⟩ | ⟨⟨pre, c, mid, rfl, hP, hE, hmid⟩, hV⟩)
    · exact ⟨done, VD, [], rfl, hP, hE, fun x hx => absurd hx List.not_mem_nil⟩
    · refine ⟨pre, c, mid ++ [VD], by simp, hP, hE, fun x hx => ?_⟩
      obtain hx | hx := List.mem_append.mp hx
      · exact hmid x hx
      · rw [List.mem_singleton.mp hx]
        exact hV

theorem onTop_snoc_iff {done : List ValueDFS} {VD u : ValueDFS} {PInfo : PredicateWithEdge} :
    OnTop (done ++ [VD]) PInfo u ↔
      OnTop done PInfo u ∨ (u = VD ∧ Stretch done PInfo ∧ Accepts PInfo VD = true) := by
  constructor
  · rintro ⟨pre, post, h, hS, hA⟩
    obtain rfl | ⟨post', y, rfl⟩ := List.eq_nil_or_concat post
    · obtain ⟨hdone, hlast⟩ := List.append_inj' h rfl
      cases hlast
      subst hdone
      exact Or.inr ⟨rfl, hS, hA⟩
    · rw [List.concat_eq_append, ← List.cons_append, ← List.append_assoc] at h
      obtain ⟨rfl, -⟩ := List.append_inj' h rfl
      exact Or.inl ⟨pre, post', rfl, hS, hA⟩
  · rintro (⟨pre, post, rfl, hS, hA⟩ | ⟨rfl, hS, hA⟩)
    · exact ⟨pre, post ++ [VD], by simp, hS, hA⟩
    · exact ⟨done, [], rfl, hS, hA⟩

theorem accepts_copy {VD : ValueDFS} (h : VD.isCopy = true) (PInfo : PredicateWithEdge) :
    Accepts PInfo VD = false := by
  unfold ValueDFS.isCopy at h
  unfold Accepts
  cases hcontent : VD.content with
  | copy PInfo' Def => rfl
  | use U =>
    rw [hcontent] at h
    cases h

/-! ## The invariant of the loop -/

/-- The copy at the back of the stack is one of an edge exactly at the end of a stretch. -/
def BackOk (done Stack : List ValueDFS) : Prop :=
  ∀ PInfo, (∃ x, Stack.head? = some x ∧ x.EdgeOnly = true ∧ x.PInfo = some PInfo) ↔
    Stretch done PInfo

/-- The use is where only the target of a block with one predecessor leads to. -/
def Behind (preds : Nat → List Nat) (DT : Forest Nat) (r : Replacement) : Prop :=
  ¬ 1 < (preds r.sink).length ∧ r.sink ∈ DT.nodes ∧ r.block ∈ DT.nodes ∧
    (r.sink = r.block ∨ DT.Above r.sink r.block)

/-- What has been made and replaced, where `T` are the copies of edges with the uses that they
were at the back of the stack for. -/
structure Recorded (preds : Nat → List Nat) (entry : Nat) (DT : Forest Nat) (D : Nat)
    (OI : OrderedInstructions) (T : PredicateWithEdge → ValueDFS → Prop)
    (sigmas : List SigmaOpNode) (replaced : List Replacement) : Prop where
  ops : ∀ op ∈ sigmas, OpOk preds entry DT D op ∧
    (1 < (preds op.PInfo.To).length → ∃ VD, T op.PInfo VD)
  made : ∀ PInfo VD, T PInfo VD → ∃ op ∈ sigmas, op.PInfo = PInfo
  origin : ∀ r ∈ replaced, Behind preds DT r ∨
    ∃ PInfo VD U, T PInfo VD ∧ VD.content = .use U ∧ r ∈ replaceUse OI VD U PInfo
  kept : ∀ PInfo VD U, T PInfo VD → VD.content = .use U →
    ∀ r ∈ replaceUse OI VD U PInfo, r ∈ replaced

theorem StackOk.dropWhile {sigmas : List SigmaOpNode} {Stack : List ValueDFS}
    (h : StackOk preds entry DT D sigmas Stack) (p : ValueDFS → Bool) :
    StackOk preds entry DT D sigmas (Stack.dropWhile p) := by
  have hsub := List.dropWhile_sublist p (l := Stack)
  exact ⟨fun x hx => h.entries x (hsub.subset hx), fun x hx => h.defs x (hsub.subset hx),
    h.nested.sublist hsub⟩

theorem StackOk.isSome {sigmas : List SigmaOpNode} {Stack : List ValueDFS}
    (h : StackOk preds entry DT D sigmas Stack) : ∀ x ∈ Stack, x.PInfo.isSome = true := by
  intro x hx
  obtain ⟨PInfo, hP⟩ := h.entries x hx
  rw [hP.PInfo_eq]
  rfl

/-- The head of what is left after popping is in scope. -/
theorem inScope_of_head {Stack : List ValueDFS} {VD x : ValueDFS}
    (h : (Stack.dropWhile fun back => !back.inScope VD).head? = some x) :
    x.inScope VD = true := by
  have := List.head?_dropWhile_not (fun back => !ValueDFS.inScope back VD) Stack
  rw [h] at this
  simpa using this

/-- A copy of an edge is at the back of the stack after popping when it was there before and
accepts the use. -/
theorem BackOk.use {sigmas : List SigmaOpNode} {done Stack : List ValueDFS} {VD : ValueDFS}
    (hStack : StackOk preds entry DT D sigmas Stack) (hback : BackOk done Stack)
    (hVD : VD.PInfo = none) :
    BackOk (done ++ [VD]) (Stack.dropWhile fun back => !back.inScope VD) := by
  intro PInfo
  rw [stretch_snoc_iff, hVD, ← hback PInfo]
  constructor
  · rintro ⟨x, hx, hE, hP⟩
    have hscope := inScope_of_head hx
    rw [ValueDFS.inScope, if_pos hE, hP, Option.any_some] at hscope
    refine Or.inr ⟨⟨x, ?_, hE, hP⟩, hscope⟩
    -- Only the back of the stack may be a copy of an edge.
    cases Stack with
    | nil => cases hx
    | cons back rest =>
      rw [List.dropWhile_cons] at hx
      split at hx
      case isTrue =>
        have hmem := (List.dropWhile_sublist _).subset (List.mem_of_head? hx)
        have hfalse := (List.rel_of_pairwise_cons hStack.nested hmem).1
        exact absurd (hfalse.symm.trans hE) Bool.false_ne_true
      case isFalse => exact hx
  · rintro (⟨h, -⟩ | ⟨⟨x, hx, hE, hP⟩, hA⟩)
    · cases h
    · refine ⟨x, ?_, hE, hP⟩
      cases Stack with
      | nil => cases hx
      | cons back rest =>
        obtain rfl : back = x := Option.some.inj hx
        have hscope : back.inScope VD = true := by
          rw [ValueDFS.inScope, if_pos hE, hP, Option.any_some]
          exact hA
        rw [List.dropWhile_cons, hscope]
        rfl

/-- What stays on the stack for a new copy is above it. -/
theorem below_copy {sigmas : List SigmaOpNode} {Stack : List ValueDFS} {VD : ValueDFS}
    (hStack : StackOk preds entry DT D sigmas Stack) (hVD : VD.isCopy = true) {x : ValueDFS}
    (hx : x ∈ Stack.dropWhile fun back => !back.inScope VD) :
    x.EdgeOnly = false ∧ x.DIndex.le VD.DIndex = true := by
  have hnested := (hStack.dropWhile fun back => !back.inScope VD).nested
  cases hdrop : Stack.dropWhile (fun back => !back.inScope VD) with
  | nil => rw [hdrop] at hx; exact absurd hx List.not_mem_nil
  | cons back rest =>
    rw [hdrop] at hx hnested
    have hhead : (Stack.dropWhile fun back => !back.inScope VD).head? = some back := by
      rw [hdrop, List.head?_cons]
    have hscope := inScope_of_head hhead
    have hfirst : back.EdgeOnly = false ∧ back.DIndex.le VD.DIndex = true := by
      unfold ValueDFS.inScope at hscope
      split at hscope
      case isTrue =>
        simp [accepts_copy hVD] at hscope
      case isFalse hE => exact ⟨Bool.eq_false_iff.mpr hE, hscope⟩
    obtain rfl | hx := List.mem_cons.mp hx
    · exact hfirst
    · obtain ⟨hE, hle⟩ := List.rel_of_pairwise_cons hnested hx
      exact ⟨hE, DFSInfo.le_trans hle hfirst.2⟩

theorem mem_replacedOperands {VD : ValueDFS} {U : VarUse} {edges : List (Nat × Nat)} {sink : Nat}
    {r : Replacement} : r ∈ replacedOperands OI VD U edges sink ↔
      ∃ e i, (e, i) ∈ edges.zipIdx ∧ e.1 = U.var ∧ VD.DIndex.le (OI.info e.2) = true ∧
        r = ⟨U.inst, some (i, e.2), sink⟩ := by
  simp only [replacedOperands, List.mem_map, List.mem_filter, decide_eq_true_eq]
  constructor
  · rintro ⟨⟨e, i⟩, ⟨he, hvar, hle⟩, rfl⟩
    exact ⟨e, i, he, hvar, hle, rfl⟩
  · rintro ⟨e, i, he, hvar, hle, rfl⟩
    exact ⟨(e, i), ⟨he, hvar, hle⟩, rfl⟩

/-- What is replaced with a copy at the back of the stack that is first in its block. -/
theorem behind_of_replaceUse (hDT : IsDominatorTree preds entry DT) (hOI : OI.Ready blocks DT)
    {VD Result : ValueDFS} {U : VarUse} {PInfo : PredicateWithEdge}
    (hVD : Inserted preds entry DT D blocks VD) (hU : VD.content = .use U)
    (hResult : EntryOk preds entry DT D Result PInfo) (hE : Result.EdgeOnly = false)
    (hscope : Result.inScope VD = true) {r : Replacement} (hr : r ∈ replaceUse OI VD U PInfo) :
    Behind preds DT r := by
  have hnarrow : ¬ 1 < (preds PInfo.To).length :=
    fun hw => Bool.false_ne_true (hE.symm.trans (hResult.edgeOnly.mpr hw))
  have hTo : PInfo.To ∈ DT.nodes := (hDT.mem_nodes _ _ hResult.edge).2
  have hle : (infoOf (compute_dominator_vector DT) PInfo.To).le VD.DIndex = true := by
    rw [ValueDFS.inScope, hE] at hscope
    have hD := hResult.DIndex_eq
    rw [scopeOf, if_neg hnarrow] at hD
    exact hD ▸ hscope
  unfold replaceUse at hr
  split at hr
  case h_1 edges hphi =>
    obtain ⟨e, i, he, -, hle', rfl⟩ := mem_replacedOperands.mp hr
    have hsource : e.2 ∈ DT.nodes :=
      (hDT.mem_nodes _ _ ((hVD.phi U edges hU hphi).2 e (List.fst_mem_of_mem_zipIdx he))).1
    refine ⟨hnarrow, hTo, hsource, (le_infoOf hDT.nodup hTo hsource).mp ?_⟩
    rw [OrderedInstructions.info, hOI.dominators_eq] at hle'
    exact DFSInfo.le_trans hle hle'
  case h_2 hphi =>
    have hbb : VD.DIndex = infoOf (compute_dominator_vector DT) U.inst.bb_index ∧
        U.inst.bb_index ∈ DT.nodes := by
      cases hVD.placed with
      | copy _ _ _ => cases hU
      | edgeCopy _ _ _ => cases hU
      | phiUse _ U' edges _ hphi' _ _ _ =>
        cases hU
        cases hphi.symm.trans hphi'
      | use _ _ hinst =>
        cases hU
        exact ⟨rfl, hinst.1⟩
    rw [hbb.1, le_infoOf hDT.nodup hTo hbb.2] at hle
    split at hr
    · exact absurd hr List.not_mem_nil
    · split at hr
      · exact absurd hr List.not_mem_nil
      · obtain rfl := List.mem_singleton.mp hr
        exact ⟨hnarrow, hTo, hbb.2, hle⟩

/-- Materializing changes nothing that the scope or the order of the stack depends on. -/
theorem StackOk.of_key {sigmas sigmas' : List SigmaOpNode} {Stack Stack' : List ValueDFS}
    (h : StackOk preds entry DT D sigmas Stack)
    (hkey : Stack'.map ValueDFS.key = Stack.map ValueDFS.key)
    (hdefs : ∀ x ∈ Stack', ∀ op, x.Def = some op → op ∈ sigmas' ∧ x.PInfo = some op.PInfo) :
    StackOk preds entry DT D sigmas' Stack' where
  entries x hx := by
    have hmem : x.key ∈ Stack.map ValueDFS.key := hkey ▸ List.mem_map_of_mem hx
    obtain ⟨y, hy, hyx⟩ := List.mem_map.mp hmem
    obtain ⟨PInfo, hP⟩ := h.entries y hy
    exact ⟨PInfo, hP.congr hyx⟩
  defs := hdefs
  nested := by
    have hpair : (Stack.map ValueDFS.key).Pairwise
        fun upper lower => lower.2.1 = false ∧ lower.1.le upper.1 = true :=
      List.pairwise_map.mpr h.nested
    rw [← hkey] at hpair
    exact List.pairwise_map.mp hpair

theorem BackOk.of_key {done Stack Stack' : List ValueDFS} (h : BackOk done Stack)
    (hkey : Stack'.map ValueDFS.key = Stack.map ValueDFS.key) : BackOk done Stack' := by
  have hhead : ∀ {S S' : List ValueDFS}, S'.map ValueDFS.key = S.map ValueDFS.key →
      ∀ {x}, S.head? = some x → ∃ y, S'.head? = some y ∧ y.key = x.key := by
    intro S S' hk x hx
    have hx' : (S'.map ValueDFS.key).head? = some x.key := by
      rw [hk, List.head?_map, hx, Option.map_some]
    rw [List.head?_map, Option.map_eq_some_iff] at hx'
    exact hx'
  intro PInfo
  rw [← h PInfo]
  constructor
  · rintro ⟨x, hx, hE, hP⟩
    obtain ⟨y, hy, hyx⟩ := hhead hkey.symm hx
    obtain ⟨-, hyE, hyP⟩ := key_eq_iff.mp hyx
    exact ⟨y, hy, hyE ▸ hE, hyP ▸ hP⟩
  · rintro ⟨x, hx, hE, hP⟩
    obtain ⟨y, hy, hyx⟩ := hhead hkey hx
    obtain ⟨-, hyE, hyP⟩ := key_eq_iff.mp hyx
    exact ⟨y, hy, hyE ▸ hE, hyP ▸ hP⟩

/-- A new copy is an entry for the stack. -/
theorem entryOk_of_placed {VD : ValueDFS} {PInfo : PredicateWithEdge} {Def : Option SigmaOpNode}
    (hVD : Inserted preds entry DT D blocks VD) (hcopy : VD.content = .copy PInfo Def) :
    EntryOk preds entry DT D VD PInfo ∧ Def = none := by
  obtain ⟨hedge, hD, hE⟩ := hVD.copy PInfo Def hcopy
  have hP : VD.PInfo = some PInfo := by rw [ValueDFS.PInfo, hcopy]
  cases hVD.placed with
  | copy address P _ =>
    cases hcopy
    have hnarrow : ¬ 1 < (preds PInfo.To).length := fun h => Bool.false_ne_true (hE.mpr h)
    exact ⟨⟨hP, by rw [scopeOf, if_neg hnarrow], hE, hedge, hD⟩, rfl⟩
  | edgeCopy address P _ =>
    cases hcopy
    exact ⟨⟨hP, by rw [scopeOf, if_pos (hE.mp rfl)], hE, hedge, hD⟩, rfl⟩
  | phiUse _ _ _ _ _ _ _ _ => cases hcopy
  | use _ _ _ => cases hcopy

/-- The back of the stack has its operation after it has been materialized where it had none. -/
theorem materialized_spec (hDT : IsDominatorTree preds entry DT) {sigmas : List SigmaOpNode}
    {Result : ValueDFS} {rest Stack' : List ValueDFS} {ops : List SigmaOpNode}
    (hStack : StackOk preds entry DT D sigmas (Result :: rest))
    (h : (if Result.Def.isNone then materializeStack (Result :: rest)
      else .ok (Result :: rest, [])) = .ok (Stack', ops)) :
    Stack'.map ValueDFS.key = (Result :: rest).map ValueDFS.key ∧
      (∀ x ∈ Stack', ∀ op, x.Def = some op → op ∈ sigmas ++ ops ∧ x.PInfo = some op.PInfo) ∧
      (∀ op ∈ ops, OpOk preds entry DT D op ∧
        ∃ x ∈ Result :: rest, x.PInfo = some op.PInfo) ∧
      ∃ op ∈ sigmas ++ ops, Result.PInfo = some op.PInfo := by
  have hspec : Stack'.map ValueDFS.key = (Result :: rest).map ValueDFS.key ∧
      (∀ x ∈ Stack', ∀ op, x.Def = some op → op ∈ sigmas ++ ops ∧ x.PInfo = some op.PInfo) ∧
      (∀ op ∈ ops, OpOk preds entry DT D op ∧
        ∃ x ∈ Result :: rest, x.PInfo = some op.PInfo) ∧
      ∀ x, Stack'.head? = some x → x.Def.isSome = true := by
    split at h
    case isTrue => exact materializeStack_spec hDT hStack h
    case isFalse hDef =>
      cases h
      refine ⟨rfl, ?_, fun op hop => absurd hop List.not_mem_nil, fun x hx => ?_⟩
      · rw [List.append_nil]
        exact hStack.defs
      · cases hx
        cases hD : Result.Def with
        | none => exact absurd (by rw [hD]; rfl) hDef
        | some op => rfl
  obtain ⟨hkey, hdefs, hops, hhead⟩ := hspec
  refine ⟨hkey, hdefs, hops, ?_⟩
  cases Stack' with
  | nil => cases hkey
  | cons x rest' =>
    obtain ⟨op, hop⟩ := Option.isSome_iff_exists.mp (hhead x rfl)
    obtain ⟨hmem, hP⟩ := hdefs x List.mem_cons_self op hop
    rw [List.map_cons, List.map_cons, List.cons.injEq, key_eq_iff] at hkey
    exact ⟨op, hmem, hkey.1.2.2 ▸ hP⟩

/-- One iteration of the loop keeps the invariant. -/
theorem renameStep_spec (hDT : IsDominatorTree preds entry DT) (hOI : OI.Ready blocks DT)
    {T : PredicateWithEdge → ValueDFS → Prop} {done : List ValueDFS} {st st' : RenameState}
    {VD : ValueDFS} (hVD : Inserted preds entry DT D blocks VD)
    (hrec : Recorded preds entry DT D OI T st.sigmas st.replaced)
    (hStack : StackOk preds entry DT D st.sigmas st.RenameStack)
    (hback : BackOk done st.RenameStack) (h : renameStep OI st VD = .ok st') :
    Recorded preds entry DT D OI
        (fun PInfo u => T PInfo u ∨ (u = VD ∧ Stretch done PInfo ∧ Accepts PInfo VD = true))
        st'.sigmas st'.replaced ∧
      StackOk preds entry DT D st'.sigmas st'.RenameStack ∧
      BackOk (done ++ [VD]) st'.RenameStack := by
  -- Popping is the same whether the back was found to be out of scope or not.
  have hpop : syncScope OI st.RenameStack VD =
      .ok (st.RenameStack.dropWhile fun back => !back.inScope VD) := by
    rw [syncScope, stackIsInScope_eq hStack.isSome hVD, ok_bind]
    split
    case isTrue => exact popStackUntilDFSScope_eq hStack.isSome hVD
    case isFalse hin =>
      cases hS : st.RenameStack with
      | nil => rfl
      | cons back rest =>
        rw [hS] at hin
        have hscope : back.inScope VD = true := by simp_all
        rw [List.dropWhile_cons, hscope]
        rfl
  rw [renameStep, hpop, ok_bind] at h
  have hStack₁ := hStack.dropWhile fun back => !back.inScope VD
  cases hcontent : VD.content with
  | copy P d =>
    have hcopy : VD.isCopy = true := by simp [ValueDFS.isCopy, hcontent]
    obtain ⟨hentry, rfl⟩ := entryOk_of_placed hVD hcontent
    simp only [hcontent, Except.ok.injEq] at h
    subst h
    refine ⟨⟨?_, ?_, ?_, ?_⟩, ⟨?_, ?_, ?_⟩, ?_⟩
    · exact fun op hop => ⟨(hrec.ops op hop).1,
        fun hw => ((hrec.ops op hop).2 hw).imp fun u hu => Or.inl hu⟩
    · rintro p u (hT | ⟨-, -, hA⟩)
      · exact hrec.made p u hT
      · exact absurd ((accepts_copy hcopy p).symm.trans hA) Bool.false_ne_true
    · intro r hr
      refine (hrec.origin r hr).imp_right ?_
      rintro ⟨p, u, U, hT, hrest⟩
      exact ⟨p, u, U, Or.inl hT, hrest⟩
    · rintro p u U (hT | ⟨-, -, hA⟩) hU
      · exact hrec.kept p u U hT hU
      · exact absurd ((accepts_copy hcopy p).symm.trans hA) Bool.false_ne_true
    · intro x hx
      obtain rfl | hx := List.mem_cons.mp hx
      · exact ⟨P, hentry⟩
      · exact hStack₁.entries x hx
    · intro x hx op hop
      obtain rfl | hx := List.mem_cons.mp hx
      · rw [ValueDFS.Def, hcontent] at hop
        cases hop
      · exact hStack₁.defs x hx op hop
    · exact List.pairwise_cons.mpr ⟨fun x hx => below_copy hStack hcopy hx, hStack₁.nested⟩
    · intro p
      rw [stretch_snoc_iff, accepts_copy hcopy]
      simp [and_comm]
  | use U =>
    have hnone : VD.PInfo = none := by rw [ValueDFS.PInfo, hcontent]
    have hback₁ := hback.use hStack hnone
    simp only [hcontent] at h
    -- A copy of an edge at the back after popping is a new one that a use has met.
    have hnew : ∀ p, (∃ x, (st.RenameStack.dropWhile fun back => !back.inScope VD).head? = some x ∧
        x.EdgeOnly = true ∧ x.PInfo = some p) ↔ Stretch done p ∧ Accepts p VD = true := by
      intro p
      rw [hback₁ p, stretch_snoc_iff, hnone]
      simp
    cases hdrop : st.RenameStack.dropWhile (fun back => !back.inScope VD) with
    | nil =>
      rw [hdrop] at h hback₁ hStack₁ hnew
      simp only [Except.ok.injEq] at h
      subst h
      have hno : ∀ p, ¬ (Stretch done p ∧ Accepts p VD = true) := by
        intro p hp
        obtain ⟨x, hx, -⟩ := (hnew p).mpr hp
        cases hx
      refine ⟨⟨?_, ?_, ?_, ?_⟩, hStack₁, hback₁⟩
      · exact fun op hop => ⟨(hrec.ops op hop).1,
          fun hw => ((hrec.ops op hop).2 hw).imp fun u hu => Or.inl hu⟩
      · rintro p u (hT | ⟨-, hp⟩)
        · exact hrec.made p u hT
        · exact absurd hp (hno p)
      · intro r hr
        refine (hrec.origin r hr).imp_right ?_
        rintro ⟨p, u, V, hT, hrest⟩
        exact ⟨p, u, V, Or.inl hT, hrest⟩
      · rintro p u V (hT | ⟨-, hp⟩) hV
        · exact hrec.kept p u V hT hV
        · exact absurd hp (hno p)
    | cons Result rest =>
      have hscope : Result.inScope VD = true := by
        have hhead : (st.RenameStack.dropWhile fun back => !back.inScope VD).head? =
            some Result := by rw [hdrop, List.head?_cons]
        exact inScope_of_head hhead
      rw [hdrop] at h hback₁ hStack₁ hnew
      obtain ⟨P, hP⟩ := hStack₁.entries Result List.mem_cons_self
      simp only at h
      cases hmat : (if Result.Def.isNone then materializeStack (Result :: rest)
          else .ok (Result :: rest, []) : Except Error (List ValueDFS × List SigmaOpNode)) with
      | error e => rw [hmat] at h; cases h
      | ok m =>
        obtain ⟨Stack', ops⟩ := m
        rw [hmat, ok_bind] at h
        simp only [hP.PInfo_eq, Except.ok.injEq] at h
        subst h
        obtain ⟨hkey, hdefs, hops, op₀, hop₀, hPop₀⟩ := materialized_spec hDT hStack₁ hmat
        have hPonly : ∀ p, Stretch done p ∧ Accepts p VD = true →
          Result.EdgeOnly = true ∧ p = P := by
          intro p hp
          obtain ⟨x, hx, hE, hxP⟩ := (hnew p).mpr hp
          obtain rfl : Result = x := Option.some.inj hx
          exact ⟨hE, Option.some.inj (hxP.symm.trans hP.PInfo_eq)⟩
        have hPedge : Result.EdgeOnly = true → Stretch done P ∧ Accepts P VD = true :=
          fun hE => (hnew P).mp ⟨Result, rfl, hE, hP.PInfo_eq⟩
        refine ⟨⟨?_, ?_, ?_, ?_⟩, hStack₁.of_key hkey hdefs, hback₁.of_key hkey⟩
        · intro op hop
          obtain hop | hop := List.mem_append.mp hop
          · exact ⟨(hrec.ops op hop).1,
              fun hw => ((hrec.ops op hop).2 hw).imp fun u hu => Or.inl hu⟩
          obtain ⟨hok, x, hx, hxP⟩ := hops op hop
          refine ⟨hok, fun hw => ⟨VD, Or.inr ⟨rfl, ?_⟩⟩⟩
          obtain ⟨Px, hPx⟩ := hStack₁.entries x hx
          obtain rfl : Px = op.PInfo := Option.some.inj (hPx.PInfo_eq.symm.trans hxP)
          have hE := hPx.edgeOnly.mpr hw
          obtain rfl | hx := List.mem_cons.mp hx
          · exact (hnew op.PInfo).mp ⟨x, rfl, hE, hxP⟩
          · have hfalse := (List.rel_of_pairwise_cons hStack₁.nested hx).1
            exact absurd (hfalse.symm.trans hE) Bool.false_ne_true
        · rintro p u (hT | ⟨-, hp⟩)
          · obtain ⟨op, hop, hpe⟩ := hrec.made p u hT
            exact ⟨op, List.mem_append_left _ hop, hpe⟩
          · obtain ⟨-, rfl⟩ := hPonly p hp
            exact ⟨op₀, hop₀, Option.some.inj (hPop₀.symm.trans hP.PInfo_eq)⟩
        · intro r hr
          obtain hr | hr := List.mem_append.mp hr
          · refine (hrec.origin r hr).imp_right ?_
            rintro ⟨p, u, V, hT, hrest⟩
            exact ⟨p, u, V, Or.inl hT, hrest⟩
          cases hE : Result.EdgeOnly with
          | true => exact Or.inr ⟨P, VD, U, Or.inr ⟨rfl, hPedge hE⟩, hcontent, hr⟩
          | false => exact Or.inl (behind_of_replaceUse hDT hOI hVD hcontent hP hE hscope hr)
        · rintro p u V (hT | ⟨rfl, hp⟩) hV r hr
          · exact List.mem_append_left _ (hrec.kept p u V hT hV r hr)
          · obtain ⟨-, rfl⟩ := hPonly p hp
            cases hcontent.symm.trans hV
            exact List.mem_append_right _ hr

theorem Recorded.congr {T T' : PredicateWithEdge → ValueDFS → Prop} {sigmas : List SigmaOpNode}
    {replaced : List Replacement} (hT : ∀ p u, T p u ↔ T' p u)
    (h : Recorded preds entry DT D OI T sigmas replaced) :
    Recorded preds entry DT D OI T' sigmas replaced := by
  obtain rfl : T = T' := funext fun p => funext fun u => propext (hT p u)
  exact h

theorem foldlM_renameStep (st : RenameState) {st' : RenameState}
    (hDT : IsDominatorTree preds entry DT) (hOI : OI.Ready blocks DT)
    {T : PredicateWithEdge → ValueDFS → Prop} {done todo : List ValueDFS}
    (htodo : ∀ VD ∈ todo, Inserted preds entry DT D blocks VD)
    (hrec : Recorded preds entry DT D OI (fun p u => T p u ∨ OnTop done p u) st.sigmas
      st.replaced)
    (hStack : StackOk preds entry DT D st.sigmas st.RenameStack)
    (hback : BackOk done st.RenameStack) (h : todo.foldlM (renameStep OI) st = .ok st') :
    Recorded preds entry DT D OI (fun p u => T p u ∨ OnTop (done ++ todo) p u) st'.sigmas
      st'.replaced := by
  induction todo generalizing done st with
  | nil =>
    cases h
    rw [List.append_nil]
    exact hrec
  | cons VD todo ih =>
    rw [List.foldlM_cons] at h
    cases hstep : renameStep OI st VD with
    | error e => rw [hstep] at h; cases h
    | ok st₁ =>
      rw [hstep] at h
      obtain ⟨hrec₁, hStack₁, hback₁⟩ :=
        renameStep_spec hDT hOI (htodo VD List.mem_cons_self) hrec hStack hback hstep
      rw [List.append_cons]
      refine ih _ (fun x hx => htodo x (List.mem_cons_of_mem _ hx)) ?_ hStack₁ hback₁ h
      exact hrec₁.congr fun p u => by rw [onTop_snoc_iff, or_assoc]

theorem renameUses_spec (hDT : IsDominatorTree preds entry DT) (hOI : OI.Ready blocks DT)
    {T : PredicateWithEdge → ValueDFS → Prop} {S : List ValueDFS} {st st' : RenameState}
    (hS : ∀ VD ∈ S, Inserted preds entry DT D blocks VD)
    (hrec : Recorded preds entry DT D OI T st.sigmas st.replaced)
    (h : renameUses OI st S = .ok st') :
    Recorded preds entry DT D OI (fun p u => T p u ∨ OnTop S p u) st'.sigmas st'.replaced := by
  have hno : ∀ p u, ¬ OnTop [] p u := by
    rintro p u ⟨pre, post, h, -⟩
    exact absurd h (by simp)
  have hrec₀ : Recorded preds entry DT D OI (fun p u => T p u ∨ OnTop [] p u) st.sigmas
      st.replaced := hrec.congr fun p u => ⟨Or.inl, fun h => h.resolve_right (hno p u)⟩
  have hStack₀ : StackOk preds entry DT D st.sigmas [] :=
    ⟨fun x hx => absurd hx List.not_mem_nil, fun x hx => absurd hx List.not_mem_nil,
      List.Pairwise.nil⟩
  have hback₀ : BackOk [] [] := by
    intro p
    refine ⟨?_, fun h => absurd h not_stretch_nil⟩
    rintro ⟨x, hx, -⟩
    cases hx
  rw [renameUses] at h
  exact foldlM_renameStep { st with RenameStack := [] } hDT hOI hS hrec₀ hStack₀ hback₀ h

theorem renameVariable_spec (hDT : IsDominatorTree preds entry DT) (hOI : OI.Ready blocks DT)
    {passes : List (List ValueDFS)} {st : RenameState}
    (hpasses : ∀ S ∈ passes, ∀ VD ∈ S, Inserted preds entry DT D blocks VD)
    (h : renameVariable OI passes = .ok st) :
    Recorded preds entry DT D OI (fun p u => ∃ S ∈ passes, OnTop S p u) st.sigmas
      st.replaced := by
  have run : ∀ (done todo : List (List ValueDFS)) (st₀ : RenameState),
      (∀ S ∈ todo, ∀ VD ∈ S, Inserted preds entry DT D blocks VD) →
      Recorded preds entry DT D OI (fun p u => ∃ S ∈ done, OnTop S p u) st₀.sigmas
        st₀.replaced →
      todo.foldlM (renameUses OI) st₀ = .ok st →
      Recorded preds entry DT D OI (fun p u => ∃ S ∈ done ++ todo, OnTop S p u) st.sigmas
        st.replaced := by
    intro done todo
    induction todo generalizing done with
    | nil =>
      intro st₀ _ hrec h
      cases h
      rw [List.append_nil]
      exact hrec
    | cons S todo ih =>
      intro st₀ htodo hrec h
      rw [List.foldlM_cons] at h
      cases hpass : renameUses OI st₀ S with
      | error e => rw [hpass] at h; cases h
      | ok st₁ =>
        rw [hpass] at h
        have hrec₁ := renameUses_spec hDT hOI (htodo S List.mem_cons_self) hrec hpass
        rw [List.append_cons]
        refine ih _ _ (fun S hS => htodo S (List.mem_cons_of_mem _ hS)) (hrec₁.congr ?_) h
        intro p u
        simp only [List.mem_append, List.mem_singleton, or_and_right, exists_or, exists_eq_left]
  refine run [] passes ⟨[], [], []⟩ hpasses ⟨?_, ?_, ?_, ?_⟩ h
  · exact fun op hop => absurd hop List.not_mem_nil
  · rintro p u ⟨S, hS, -⟩
    exact absurd hS List.not_mem_nil
  · exact fun r hr => absurd hr List.not_mem_nil
  · rintro p u U ⟨S, hS, -⟩
    exact absurd hS List.not_mem_nil

/-! ## Paths -/

theorem dominates_of_edgeOrder (hDT : IsDominatorTree preds entry DT) {a b : Nat}
    (ha : a ∈ DT.nodes) (hb : b ∈ DT.nodes) (h : a = b ∨ DT.Above a b) :
    Dominates (Edge preds) entry a b := (hDT.dominates a ha b hb).mp h

/-- A target of an edge is not the entry, and it can be reached. -/
theorem target_spec (hDT : IsDominatorTree preds entry DT) {a b : Nat} (h : Edge preds a b) :
    entry ≠ b ∧ ∃ w, Walk (Edge preds) entry b w := by
  refine ⟨?_, hDT.reachable b (hDT.mem_nodes a b h).2⟩
  rintro rfl
  rw [Edge, hDT.entry_preds] at h
  exact absurd h List.not_mem_nil

/-- The edge is passed after the definition on the way to what is behind its target, when there is
no other way into the target. -/
theorem lastThrough_behind (hDT : IsDominatorTree preds entry DT) {PInfo : PredicateWithEdge}
    (hedge : Edge preds PInfo.From PInfo.To) (hD : Dominates (Edge preds) entry D PInfo.From)
    (honly : ∀ c ∈ preds PInfo.To, c ≠ PInfo.From → PInfo.To = c ∨ DT.Above PInfo.To c) {b : Nat}
    (hb : b ∈ DT.nodes) (hbelow : PInfo.To = b ∨ DT.Above PInfo.To b) {w : List Nat}
    (hw : Walk (Edge preds) entry b w) :
    ∃ p q, w = p ++ PInfo.From :: PInfo.To :: q ∧ D ∈ p ++ [PInfo.From] ∧ D ∉ PInfo.To :: q := by
  obtain ⟨hentry, hreach⟩ := target_spec hDT hedge
  have hTo : PInfo.To ∈ DT.nodes := (hDT.mem_nodes _ _ hedge).2
  refine lastThrough_of_only hreach hentry (fun c hc hne => ?_) hD
    (dominates_of_edgeOrder hDT hTo hb hbelow) hw
  exact dominates_of_edgeOrder hDT hTo (hDT.mem_nodes _ _ hc).1 (honly c hc hne)

theorem only_of_narrow {PInfo : PredicateWithEdge} (hedge : Edge preds PInfo.From PInfo.To)
    (hnarrow : ¬ 1 < (preds PInfo.To).length) : ∀ c ∈ preds PInfo.To, c ≠ PInfo.From →
      PInfo.To = c ∨ DT.Above PInfo.To c := by
  intro c hc hne
  rw [Edge] at hedge
  match hp : preds PInfo.To with
  | [] => rw [hp] at hc; exact absurd hc List.not_mem_nil
  | [x] =>
    rw [hp, List.mem_singleton] at hc hedge
    exact absurd (hc.trans hedge.symm) hne
  | x :: y :: l =>
    rw [hp] at hnarrow
    exact absurd (by simp) hnarrow

theorem lastThrough_append {a b : Nat} {w along : List Nat}
    (h : ∃ p q, w = p ++ a :: b :: q ∧ D ∈ p ++ [a] ∧ D ∉ b :: q)
    (halong : along.length ≤ 1) : LastThrough D a b (w ++ along) := by
  obtain ⟨p, q, rfl, hp, hq⟩ := h
  refine ⟨p, q ++ along, by simp, hp, fun hmem => hq ?_⟩
  rw [← List.cons_append] at hmem
  match along, halong with
  | [], _ =>
    rw [List.append_nil] at hmem
    exact List.mem_of_mem_dropLast hmem
  | [x], _ =>
    rw [List.dropLast_concat] at hmem
    exact hmem

theorem along_length (r : Replacement) : r.along.length ≤ 1 := by
  unfold Replacement.along
  split
  · exact Nat.le_refl 1
  · exact Nat.zero_le 1

/-- An edge that dominates another one is passed last on the way along that one. -/
theorem EdgeDominates.lastThrough (hDT : IsDominatorTree preds entry DT)
    {PInfo : PredicateWithEdge} (hedge : Edge preds PInfo.From PInfo.To)
    (hD : Dominates (Edge preds) entry D PInfo.From) {source target : Nat}
    (hsource : source ∈ DT.nodes) (h : EdgeDominates preds DT PInfo source target) {w : List Nat}
    (hw : Walk (Edge preds) entry source w) :
    LastThrough D PInfo.From PInfo.To (w ++ [target]) := by
  obtain ⟨rfl, rfl⟩ | ⟨hbelow, honly⟩ := h
  · have hmem := hD w hw
    obtain ⟨w', rfl⟩ := List.getLast?_eq_some_iff.mp hw.last
    exact ⟨w', [], by simp, hmem, by simp⟩
  · exact lastThrough_append (lastThrough_behind hDT hedge hD honly hsource hbelow hw)
      (Nat.le_refl 1)

/-- What is passed last before the source of an edge is passed last before the edge. -/
theorem lastThrough_upper (hDT : IsDominatorTree preds entry DT) {upper lower : PredicateWithEdge}
    (hupper : Edge preds upper.From upper.To) (hlower : Edge preds lower.From lower.To)
    (hD : Dominates (Edge preds) entry D lower.From) (hnarrow : ¬ 1 < (preds lower.To).length)
    (hbelow : lower.To = upper.From ∨ DT.Above lower.To upper.From) {t : Nat} {w : List Nat}
    (hw : Walk (Edge preds) entry t w) (h : LastThrough D upper.From upper.To w) :
    LastThrough D lower.From lower.To w := by
  obtain ⟨p, q, rfl, -, hq⟩ := h
  obtain ⟨hfrom, -⟩ := walk_split.mp hw
  obtain ⟨p', q', hp', hD', hq'⟩ := lastThrough_behind hDT hlower hD (only_of_narrow hlower hnarrow)
    (hDT.mem_nodes _ _ hupper).1 hbelow hfrom
  refine ⟨p', q' ++ upper.To :: q, ?_, hD', ?_⟩
  · rw [List.append_cons, hp']
    simp
  · rw [← List.cons_append, List.dropLast_append_cons]
    exact fun hmem => (List.mem_append.mp hmem).elim hq' hq

theorem edgeOrder_trans (hDT : IsDominatorTree preds entry DT) {a b c : Nat}
    (hab : a = b ∨ DT.Above a b) (hbc : b = c ∨ DT.Above b c) : a = c ∨ DT.Above a c := by
  obtain rfl | hab := hab
  · exact hbc
  · obtain rfl | hbc := hbc
    · exact Or.inr hab
    · exact Or.inr (hab.trans hDT.nodup hbc)

/-- What holds of the sink for a block with one predecessor is for blocks above it, with one
predecessor as well. -/
theorem Applies.narrow (hDT : IsDominatorTree preds entry DT) {sigmas : List SigmaOpNode}
    (hops : ∀ op ∈ sigmas, OpOk preds entry DT D op) {k : Nat} {PInfo : PredicateWithEdge}
    (h : Applies sigmas k PInfo) (hk : ¬ 1 < (preds k).length) :
    Edge preds PInfo.From PInfo.To ∧ Dominates (Edge preds) entry D PInfo.From ∧
      ¬ 1 < (preds PInfo.To).length ∧ (PInfo.To = k ∨ DT.Above PInfo.To k) := by
  induction h with
  | here hop => exact ⟨(hops _ hop).edge, (hops _ hop).dominates, hk, Or.inl rfl⟩
  | @ofSource op source _ hop hsource _ ih =>
    obtain ⟨hs, hbelow⟩ := (hops op hop).source source hsource
    obtain ⟨hedge, hD, hn, hle⟩ := ih hs
    have hsink : ¬ 1 < (preds op.PInfo.To).length := hk
    rw [scopeOf, if_neg hsink] at hbelow
    exact ⟨hedge, hD, hn, edgeOrder_trans hDT hle hbelow⟩

/-- The copy of an edge is at the back of the stack where its target has other predecessors. -/
theorem OnTop.wide {S : List ValueDFS} {PInfo : PredicateWithEdge} {VD : ValueDFS}
    (hS : ∀ VD ∈ S, Inserted preds entry DT D blocks VD) (h : OnTop S PInfo VD) :
    1 < (preds PInfo.To).length := by
  obtain ⟨pre, post, rfl, ⟨pre', c, mid, rfl, hP, hE, -⟩, -⟩ := h
  have hc : c ∈ (pre' ++ c :: mid) ++ VD :: post := by simp
  cases hcontent : c.content with
  | use U => rw [ValueDFS.PInfo, hcontent] at hP; cases hP
  | copy P d =>
    rw [ValueDFS.PInfo, hcontent] at hP
    cases hP
    exact ((hS c hc).copy PInfo d hcontent).2.2.mp hE

/-- A use that the copy of an edge accepts is one of a phi. -/
theorem replaceUse_of_accepts (OI : OrderedInstructions) {VD : ValueDFS} {U : VarUse}
    {PInfo : PredicateWithEdge}
    (hU : VD.content = .use U) (hA : Accepts PInfo VD = true) :
    ∃ edges, U.inst.CGetDefEdgesList = some edges ∧
      replaceUse OI VD U PInfo = replacedOperands OI VD U edges PInfo.To := by
  rw [Accepts, hU] at hA
  cases hphi : U.inst.CGetDefEdgesList with
  | none => simp [hphi] at hA
  | some edges => exact ⟨edges, rfl, by rw [replaceUse, hphi]⟩

/-- Where copies of edges only meet uses of their own edge, all that is taken to hold of a replaced
use holds of it. -/
theorem sound_of_apart (hDT : IsDominatorTree preds entry DT) (hOI : OI.Ready blocks DT)
    {passes : List (List ValueDFS)} {st : RenameState}
    (hpasses : ∀ S ∈ passes, ∀ VD ∈ S, Inserted preds entry DT D blocks VD)
    (hrec : Recorded preds entry DT D OI (fun p u => ∃ S ∈ passes, OnTop S p u) st.sigmas
      st.replaced)
    (hapart : EdgeUsesApart preds DT passes) : RenamingSound preds entry D st := by
  intro r hr PInfo happlies w hw
  have hops : ∀ op ∈ st.sigmas, OpOk preds entry DT D op := fun op hop => (hrec.ops op hop).1
  obtain ⟨hnarrow, -, hblock, hbelow⟩ | ⟨P, VD, U, ⟨S, hS, hTop⟩, hU, hrU⟩ := hrec.origin r hr
  · obtain ⟨hedge, hD, hn, hle⟩ := happlies.narrow hDT hops hnarrow
    refine lastThrough_append ?_ (along_length r)
    exact lastThrough_behind hDT hedge hD (only_of_narrow hedge hn) hblock
      (edgeOrder_trans hDT hle hbelow) hw
  · obtain ⟨edges, hphi, hreplace⟩ := replaceUse_of_accepts OI hU hTop.choose_spec.choose_spec.2.2
    rw [hreplace] at hrU
    obtain ⟨e, i, he, hvar, hle, rfl⟩ := mem_replacedOperands.mp hrU
    have he' : e ∈ edges := List.fst_mem_of_mem_zipIdx he
    obtain ⟨pre, post, hSeq, -⟩ := id hTop
    have hVD : Inserted preds entry DT D blocks VD := hpasses S hS VD (by rw [hSeq]; simp)
    have hlast : Edge preds e.2 U.inst.bb_index := (hVD.phi U edges hU hphi).2 e he'
    have hsource : e.2 ∈ DT.nodes := (hDT.mem_nodes _ _ hlast).1
    rw [OrderedInstructions.info, hOI.dominators_eq] at hle
    -- Every operation with this sink is for an edge that the edge of the operand is behind.
    have hpassed : ∀ op ∈ st.sigmas, op.PInfo.To = P.To →
        LastThrough D op.PInfo.From op.PInfo.To (w ++ [U.inst.bb_index]) := by
      intro op hop hsink
      have hwide : 1 < (preds op.PInfo.To).length := hsink ▸ hTop.wide (hpasses S hS)
      obtain ⟨VD', S', hS', hTop'⟩ := (hrec.ops op hop).2 hwide
      have hdom := hapart S hS P VD hTop S' hS' op.PInfo VD' hTop' hsink U edges hU hphi e he' hvar
        hle
      exact hdom.lastThrough hDT (hops op hop).edge (hops op hop).dominates hsource hw
    generalize hk : (⟨U.inst, some (i, e.2), P.To⟩ : Replacement).sink = k at happlies
    cases happlies with
    | @here op hop => exact hpassed op hop hk.symm
    | @ofSource op source _ hop hsrc hbelow =>
      have hwide : 1 < (preds op.PInfo.To).length := by
        have hsink : P.To = op.PInfo.To := hk
        exact hsink ▸ hTop.wide (hpasses S hS)
      obtain ⟨hn, hle'⟩ := (hops op hop).source source hsrc
      rw [scopeOf, if_pos hwide] at hle'
      obtain ⟨hedge, hD, hn', hle''⟩ := hbelow.narrow hDT hops hn
      exact lastThrough_upper hDT (hops op hop).edge hedge hD hn'
        (edgeOrder_trans hDT hle'' hle') (hw.snoc hlast) (hpassed op hop hk.symm)

/-- A replaced operand has a way around an edge that its own edge is not behind. -/
theorem apart_of_sound (hDT : IsDominatorTree preds entry DT) (hOI : OI.Ready blocks DT)
    {passes : List (List ValueDFS)} {st : RenameState}
    (hpasses : ∀ S ∈ passes, ∀ VD ∈ S, Inserted preds entry DT D blocks VD)
    (hrec : Recorded preds entry DT D OI (fun p u => ∃ S ∈ passes, OnTop S p u) st.sigmas
      st.replaced)
    (hsound : RenamingSound preds entry D st) : EdgeUsesApart preds DT passes := by
  intro S hS P VD hTop S' hS' P' VD' hTop' hsink U edges hU hphi e he hvar hle
  have hVD : Inserted preds entry DT D blocks VD := by
    obtain ⟨pre, post, rfl, -⟩ := id hTop
    exact hpasses _ hS VD (by simp)
  have hlast : Edge preds e.2 U.inst.bb_index := (hVD.phi U edges hU hphi).2 e he
  have hsource : e.2 ∈ DT.nodes := (hDT.mem_nodes _ _ hlast).1
  obtain ⟨i, hi⟩ : ∃ i, (e, i) ∈ edges.zipIdx := by
    obtain ⟨i, hi⟩ := List.mem_iff_getElem?.mp he
    exact ⟨i, List.mem_zipIdx_iff_getElem?.mpr hi⟩
  have hr : (⟨U.inst, some (i, e.2), P.To⟩ : Replacement) ∈ st.replaced := by
    refine hrec.kept P VD U ⟨S, hS, hTop⟩ hU _ ?_
    obtain ⟨edges', hphi', hreplace⟩ :=
      replaceUse_of_accepts OI hU hTop.choose_spec.choose_spec.2.2
    obtain rfl : edges = edges' := Option.some.inj (hphi.symm.trans hphi')
    rw [hreplace, mem_replacedOperands]
    refine ⟨e, i, hi, hvar, ?_, rfl⟩
    rw [OrderedInstructions.info, hOI.dominators_eq]
    exact hle
  obtain ⟨op, hop, rfl⟩ := hrec.made P' VD' ⟨S', hS', hTop'⟩
  have happlies : Applies st.sigmas P.To op.PInfo := hsink ▸ Applies.here hop
  by_contra hno
  have hnot : ¬ (Dominates (Edge preds) entry op.PInfo.To e.2 ∧ ∀ c, Edge preds c op.PInfo.To →
      c ≠ op.PInfo.From → Dominates (Edge preds) entry op.PInfo.To c) := by
    have hTo : op.PInfo.To ∈ DT.nodes := (hDT.mem_nodes _ _ (hrec.ops op hop).1.edge).2
    rintro ⟨hdom, honly⟩
    refine hno (Or.inr ⟨(hDT.dominates _ hTo _ hsource).mpr hdom, fun c hc hne => ?_⟩)
    exact (hDT.dominates _ hTo _ (hDT.mem_nodes _ _ hc).1).mpr (honly c hc hne)
  obtain ⟨w, hw, haround⟩ := exists_around (hDT.reachable _ hsource) hnot
  exact (haround.snoc hw fun h => hno (Or.inl h)).not_lastThrough
    (hsound _ hr op.PInfo happlies w hw)

end Run

/-- The renaming of a variable is sound exactly when no phi use that meets the copy of an edge has
an operand that comes along an edge around it. -/
theorem renamingSound_iff (preds : Nat → List Nat) (entry : Nat) (DT : Forest Nat) (D : Nat)
    (blocks : Nat → Option bloc) (OI : OrderedInstructions) (passes : List (List ValueDFS))
    (st : RenameState) (hDT : IsDominatorTree preds entry DT) (hOI : OI.Ready blocks DT)
    (hpasses : ∀ S ∈ passes, ∀ VD ∈ S, Inserted preds entry DT D blocks VD)
    (h : renameVariable OI passes = .ok st) :
    RenamingSound preds entry D st ↔ EdgeUsesApart preds DT passes := by
  have hrec := renameVariable_spec hDT hOI hpasses h
  exact ⟨apart_of_sound hDT hOI hpasses hrec, sound_of_apart hDT hOI hpasses hrec⟩

/-! ## A loop beside a critical edge -/

/-- Block 1 branches to the loop of block 2, and to block 3 behind the loop. -/
def loopPreds : Nat → List Nat
  | 1 => [0]
  | 2 => [1, 2]
  | 3 => [1, 2]
  | _ => []

def loopTree : Forest Nat :=
  .node 0 (.node 1 (.node 2 .nil (.node 3 .nil .nil)) .nil) .nil

/-- Block 3 has one phi. -/
def loopBlocks (number : Nat) : Option bloc :=
  if number = 3 then some ⟨[30], []⟩ else none

/-- The copy of variable 5 for the edge from block 1. -/
def loopCopy (To : Nat) : ValueDFS :=
  ⟨To, infoOf (compute_dominator_vector loopTree) 1, .LN_Last, .copy ⟨1, To, none⟩ none, true⟩

/-- The use of variable 5 along the edge from a block, by a phi with a second operand. -/
def loopUse (source second : Nat) : ValueDFS :=
  ⟨10 + source, infoOf (compute_dominator_vector loopTree) source, .LN_Last,
    .use ⟨5, ⟨30, 3, some [(5, 1), (second, 2)]⟩⟩, true⟩

theorem loop_isDominatorTree : IsDominatorTree loopPreds 0 loopTree := by
  have hedge : ∀ {a b}, Edge loopPreds a b →
      (a = 0 ∧ b = 1) ∨ (a = 1 ∧ b = 2) ∨ (a = 2 ∧ b = 2) ∨ (a = 1 ∧ b = 3) ∨ (a = 2 ∧ b = 3) := by
    intro a b h
    unfold Edge loopPreds at h
    split at h <;> simp at h <;> omega
  -- What is not the entry is reached through block 1.
  have hone : ∀ {b}, b ≠ 0 → Dominates (Edge loopPreds) 0 1 b := by
    rintro b hb w hw
    match w, hw with
    | [], ⟨_, hhead, _⟩ => cases hhead
    | [x], ⟨_, hhead, hlast⟩ =>
      cases hhead
      exact absurd (Option.some.inj hlast).symm hb
    | x :: y :: w, ⟨hchain, hhead, _⟩ =>
      cases hhead
      have h01 := hedge (List.isChain_cons_cons.mp hchain).1
      have hy : y = 1 := by omega
      simp [hy]
  have hzero : ∀ {b}, Dominates (Edge loopPreds) 0 0 b :=
    fun w hw => List.mem_of_head? hw.head
  have hself : ∀ {b}, Dominates (Edge loopPreds) 0 b b := fun w hw => List.mem_of_getLast? hw.last
  have hwalk : ∀ b ∈ loopTree.nodes, Walk (Edge loopPreds) 0 b (if b = 0 then [0] else
      if b = 1 then [0, 1] else [0, 1, b]) := by
    intro b hb
    have : b = 0 ∨ b = 1 ∨ b = 2 ∨ b = 3 := by simpa [loopTree, Forest.nodes] using hb
    rcases this with rfl | rfl | rfl | rfl <;>
      exact ⟨by simp [Edge, loopPreds], rfl, rfl⟩
  refine ⟨by decide, rfl, ?_, fun b hb => ⟨_, hwalk b hb⟩, ?_⟩
  · intro a b h
    rcases hedge h with ⟨rfl, rfl⟩ | ⟨rfl, rfl⟩ | ⟨rfl, rfl⟩ | ⟨rfl, rfl⟩ | ⟨rfl, rfl⟩ <;> decide
  · intro a ha b hb
    have hw := hwalk b hb
    have ha' : a = 0 ∨ a = 1 ∨ a = 2 ∨ a = 3 := by simpa [loopTree, Forest.nodes] using ha
    have hb' : b = 0 ∨ b = 1 ∨ b = 2 ∨ b = 3 := by simpa [loopTree, Forest.nodes] using hb
    constructor
    · rintro (rfl | habove)
      · exact hself
      · obtain rfl | rfl : a = 0 ∨ a = 1 := by
          simp [loopTree, Forest.Above, Forest.nodes] at habove
          omega
        · exact hzero
        · refine hone ?_
          simp [loopTree, Forest.Above, Forest.nodes] at habove
          omega
    · intro hdom
      have hmem := hdom _ hw
      rcases ha' with rfl | rfl | rfl | rfl <;> rcases hb' with rfl | rfl | rfl | rfl <;>
        first | exact absurd hmem (by decide) | decide

theorem inserted_loopCopy {To : Nat} (h : To = 2 ∨ To = 3) :
    Inserted loopPreds 0 loopTree 0 loopBlocks (loopCopy To) where
  placed := Placed.edgeCopy To ⟨1, To, none⟩ (show 1 ∈ loopTree.nodes by decide)
  copy := by
    rintro PInfo Def hcopy
    cases hcopy
    refine ⟨?_, fun w hw => List.mem_of_head? hw.head, ?_⟩
    · rcases h with rfl | rfl <;> exact List.mem_cons_self
    · rcases h with rfl | rfl <;> decide
  phi := by
    rintro U edges hU
    cases hU

theorem inserted_loopUse {source second : Nat} (h : (5, source) ∈ [(5, 1), (second, 2)]) :
    Inserted loopPreds 0 loopTree 0 loopBlocks (loopUse source second) where
  placed := by
    refine Placed.phiUse _ ⟨5, ⟨30, 3, some [(5, 1), (second, 2)]⟩⟩ [(5, 1), (second, 2)] source rfl
      h ?_ ⟨show 3 ∈ loopTree.nodes by decide, ⟨[30], []⟩, rfl, List.mem_singleton_self 30⟩
    simp only [List.mem_cons, Prod.mk.injEq, List.not_mem_nil, or_false] at h
    obtain ⟨-, rfl⟩ | ⟨-, rfl⟩ := h <;> decide
  copy := by
    rintro PInfo Def hcopy
    cases hcopy
  phi := by
    rintro U edges hU hphi
    cases hU
    cases hphi
    exact ⟨⟨(5, 1), by simp⟩, by simp [Edge, loopPreds]⟩

theorem loopBlocks_distinct : OrderedInstructions.Distinct loopBlocks := by
  intro number BB hBB
  unfold loopBlocks at hBB
  split at hBB
  · cases hBB
    decide
  · cases hBB

/-- What meets the copy of an edge is accepted by it. -/
theorem OnTop.mem {S : List ValueDFS} {PInfo : PredicateWithEdge} {VD : ValueDFS}
    (h : OnTop S PInfo VD) :
    VD ∈ S ∧ Accepts PInfo VD = true ∧ ∃ c ∈ S, c.PInfo = some PInfo := by
  obtain ⟨pre, post, rfl, ⟨pre', c, mid, rfl, hP, -⟩, hA⟩ := h
  exact ⟨by simp, hA, c, by simp, hP⟩

/-- One operand along the edge is replaced. -/
theorem renamingSound_loop : ∃ st,
    renameVariable (.create loopBlocks loopTree) [[loopCopy 3, loopUse 1 6]] = .ok st ∧
      RenamingSound loopPreds 0 0 st := by
  have hInserted : ∀ S ∈ [[loopCopy 3, loopUse 1 6]], ∀ VD ∈ S,
      Inserted loopPreds 0 loopTree 0 loopBlocks VD := by
    simp only [forall_eq, List.mem_cons, List.not_mem_nil, or_false, forall_eq_or_imp]
    exact ⟨inserted_loopCopy (Or.inr rfl), inserted_loopUse (by simp)⟩
  refine ⟨_, rfl, (renamingSound_iff loopPreds 0 loopTree 0 loopBlocks (.create loopBlocks loopTree)
    [[loopCopy 3, loopUse 1 6]] _ loop_isDominatorTree
    (OrderedInstructions.ready_create loopBlocks_distinct) hInserted rfl).mpr ?_⟩
  intro S hS P VD hTop S' hS' P' VD' hTop' hsink U edges hU hphi e he hvar hle
  obtain rfl := List.mem_singleton.mp hS
  obtain rfl := List.mem_singleton.mp hS'
  obtain ⟨hVD, hA, -⟩ := hTop.mem
  obtain ⟨-, -, c, hc, hP'⟩ := hTop'.mem
  obtain rfl : VD = loopUse 1 6 := by
    obtain rfl | hVD := List.mem_cons.mp hVD
    · cases hA
    · exact List.mem_singleton.mp hVD
  obtain rfl : c = loopCopy 3 := by
    obtain rfl | hc := List.mem_cons.mp hc
    · rfl
    · obtain rfl := List.mem_singleton.mp hc
      cases hP'
  cases hU
  cases hphi
  cases hP'
  obtain rfl | rfl := by simpa using he
  · exact Or.inl ⟨rfl, rfl⟩
  · cases hvar

/-- With the variable in both operands the one that comes out of the loop is replaced as well, and
the way through the loop does not pass the edge. -/
theorem not_renamingSound_loop :
    IsDominatorTree loopPreds 0 loopTree ∧
      (∀ VD ∈ [loopCopy 2, loopCopy 3, loopUse 1 5, loopUse 2 5],
        Inserted loopPreds 0 loopTree 0 loopBlocks VD) ∧
      ∃ st, renameVariable (.create loopBlocks loopTree)
          [[loopCopy 2, loopCopy 3, loopUse 1 5, loopUse 2 5], [loopCopy 2, loopCopy 3]] = .ok st ∧
        ¬ RenamingSound loopPreds 0 0 st := by
  refine ⟨loop_isDominatorTree, ?_, _, rfl, fun hsound => ?_⟩
  · simp only [List.mem_cons, List.not_mem_nil, or_false, forall_eq_or_imp, forall_eq]
    exact ⟨inserted_loopCopy (Or.inl rfl), inserted_loopCopy (Or.inr rfl),
      inserted_loopUse (by simp), inserted_loopUse (by simp)⟩
  · have haround : Around 1 3 [0, 1, 2, 3] := by
      simp [Around]
    refine haround.not_lastThrough (D := 0) ?_
    refine hsound ⟨⟨30, 3, some [(5, 1), (5, 2)]⟩, some (1, 2), 3⟩ (by decide) ⟨1, 3, none⟩ ?_
      [0, 1, 2] ⟨by simp [Edge, loopPreds], rfl, rfl⟩
    exact Applies.here (List.mem_singleton_self (⟨⟨1, 3, none⟩, none⟩ : SigmaOpNode))

end RangeAnalysis
end Bambu
