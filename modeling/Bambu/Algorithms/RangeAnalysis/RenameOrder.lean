/-
  Bambu.Algorithms.RangeAnalysis.RenameOrder

  `ValueDFS_Compare`: the order in which copies and uses of a variable are renamed.

  Within a block the order is total up to uses of one statement (`ValueDFS.rank`).  Between blocks
  it is the inclusion of subtrees of the dominator tree, so that it is a strict weak order only
  where no subtree is left between two elements in order (`Forest.Scattered`).
-/

import Bambu.Behavior.OrderedInstructions
import Bambu.Utility.Range.Basic

namespace Bambu
namespace RangeAnalysis

open Bambu.Math

/-! ## Copies and uses -/

/-- The predicate of an edge; the range is what `tryGetRange` gives for the intersection. -/
structure PredicateWithEdge where
  From : Nat
  To : Nat
  intersect : Option Range
  deriving DecidableEq

/-- A use of a variable by a statement. -/
structure VarUse where
  var : Nat
  inst : node_stmt
  deriving DecidableEq

inductive LocalNum where
  /-- Operations that must appear first in the block. -/
  | LN_First
  /-- Operations that are somewhere in the middle of the block. -/
  | LN_Middle
  /-- Operations that must appear last in a block, like successor phi node uses. -/
  | LN_Last
  deriving DecidableEq

def LocalNum.toNat : LocalNum → Nat
  | LN_First => 0
  | LN_Middle => 1
  | LN_Last => 2

/-- A sigma operation of the variable for an edge.  Its source is the sink of another one, by the
block of that sink, or the variable itself. -/
structure SigmaOpNode where
  PInfo : PredicateWithEdge
  source : Option Nat
  deriving DecidableEq

/-- Only one of `Def` and `U` is set: a possible copy, with its sigma operation when it has been
materialized, or a use. -/
inductive DefOrUse where
  | copy (PInfo : PredicateWithEdge) (Def : Option SigmaOpNode)
  | use (U : VarUse)
  deriving DecidableEq

structure ValueDFS where
  /-- Where the object is stored. -/
  address : Nat
  DIndex : DFSInfo
  LocalNum : LocalNum
  content : DefOrUse
  EdgeOnly : Bool
  deriving DecidableEq

/-- `getDefOrUser`: a sigma operation has no instruction. -/
def getDefOrUser (VD : ValueDFS) : Option node_stmt :=
  match VD.content with
  | .copy _ _ => none
  | .use U => some U.inst

/-- For a phi use, or a non-materialized def, the edge it represents. -/
def getBlockEdge_local (VD : ValueDFS) : Except Error (Nat × Nat) :=
  match VD.content with
  | .copy PInfo _ => .ok (PInfo.From, PInfo.To)
  | .use U =>
    match U.inst.CGetDefEdgesList with
    | none => .error (.assertion "")
    | some edges =>
      match edges.find? fun de => de.1 = U.var with
      | none => .error (.assertion "Unable to find variable in phi definitions")
      | some de => .ok (de.2, U.inst.bb_index)

/-- `ValueDFS_Compare` -/
def Compare (A B : ValueDFS) (OI : OrderedInstructions) :
    Except Error (Bool × OrderedInstructions) :=
  if A.address = B.address then .ok (false, OI)
  else if A.DIndex = B.DIndex ∧ A.LocalNum = .LN_Last ∧ B.LocalNum = .LN_Last then do
    let edgeA ← getBlockEdge_local A
    let edgeB ← getBlockEdge_local B
    -- Now sort by block edge and then defs before uses.
    if edgeA.2 ≠ edgeB.2 then .ok (decide (edgeA.2 < edgeB.2), OI)
    else match getDefOrUser A, getDefOrUser B with
      | none, none => .error (.assertion
          "Two sigma operations in the same basic block must have different predicate edges.")
      | some defUseA, some defUseB => OI.dominates defUseA defUseB
      | none, some _ => .ok (true, OI)
      | some _, none => .ok (false, OI)
  else if A.DIndex ≠ B.DIndex then .ok (A.DIndex.lt B.DIndex, OI)
  else if A.LocalNum ≠ B.LocalNum then .ok (decide (A.LocalNum.toNat < B.LocalNum.toNat), OI)
  else match getDefOrUser A, getDefOrUser B with
    | some defUseA, some defUseB => OI.dominates defUseA defUseB
    | _, _ => .error (.assertion "Non-materialized sigma operations are not expected here.")

/-- The order in which `OpsToRename` is sorted. -/
def CompareOps (A B : VarUse) (OI : OrderedInstructions) :
    Except Error (Bool × OrderedInstructions) :=
  OI.dominates A.inst B.inst

/-! ## Elements placed on a dominator tree -/

variable (blocks : Nat → Option bloc) (DT : Forest Nat)

/-- What `buildGraph` makes of the copies of a variable, and `convertUsesToDFSOrdered` of its
uses. -/
inductive Placed : ValueDFS → Prop where
  | copy (address : Nat) (PInfo : PredicateWithEdge) (hTo : PInfo.To ∈ DT.nodes) :
    Placed ⟨address, infoOf (compute_dominator_vector DT) PInfo.To, .LN_First, .copy PInfo none,
      false⟩
  /-- The edge can only handle phi uses. -/
  | edgeCopy (address : Nat) (PInfo : PredicateWithEdge) (hFrom : PInfo.From ∈ DT.nodes) :
    Placed ⟨address, infoOf (compute_dominator_vector DT) PInfo.From, .LN_Last, .copy PInfo none,
      true⟩
  | phiUse (address : Nat) (U : VarUse) (edges : List (Nat × Nat)) (source_bbi : Nat)
    (hphi : U.inst.CGetDefEdgesList = some edges) (hedge : (U.var, source_bbi) ∈ edges)
    (hsource : source_bbi ∈ DT.nodes) (hinst : OrderedInstructions.Located blocks DT U.inst) :
    Placed ⟨address, infoOf (compute_dominator_vector DT) source_bbi, .LN_Last, .use U, true⟩
  | use (address : Nat) (U : VarUse) (hinst : OrderedInstructions.Located blocks DT U.inst) :
    Placed ⟨address, infoOf (compute_dominator_vector DT) U.inst.bb_index, .LN_Middle, .use U,
      false⟩

namespace ValueDFS

variable (VD : ValueDFS)

/-- The block that has the depth-first numbers of the element. -/
def block : Nat :=
  match (compute_dominator_vector DT).find? fun e => e.2 = VD.DIndex with
  | some e => e.1
  | none => 0

/-- The target of the edge for what comes last in a block. -/
def target : Nat :=
  if VD.LocalNum = .LN_Last then
    match VD.content with
    | .copy PInfo _ => PInfo.To
    | .use U => U.inst.bb_index
  else 0

def isCopy : Bool :=
  match VD.content with
  | .copy _ _ => true
  | .use _ => false

/-- Where an element stands in its block: by its kind of position, its edge, copies before uses,
and the place of the using statement. -/
def rank : Nat ×ₗ Nat ×ₗ Nat ×ₗ Nat ×ₗ Nat :=
  toLex (VD.LocalNum.toNat, toLex (VD.target,
    match VD.content with
    | .copy _ _ => toLex (0, toLex (0, 0))
    | .use U => toLex (1, OrderedInstructions.place blocks U.inst)))

/-- The copy is for the other element: one that is first in its block for the subtree of the block,
one of an edge for the phi uses along the edge. -/
def Governs (c x : ValueDFS) : Prop :=
  c.isCopy = true ∧ c ≠ x ∧
    if c.LocalNum = .LN_First then c.block DT = x.block DT ∨ DT.Above (c.block DT) (x.block DT)
    else x.isCopy = false ∧ x.LocalNum = .LN_Last ∧ c.block DT = x.block DT ∧ c.target = x.target

end ValueDFS

/-! ## What the renaming relies on -/

section Ordered

variable {α : Type} (compare : α → α → OrderedInstructions →
    Except Error (Bool × OrderedInstructions)) (Reached : OrderedInstructions → Prop)

/-- Some comparison answers that the first element is before the second one. -/
def Less (A B : α) : Prop :=
  ∃ OI OI', Reached OI ∧ compare A B OI = .ok (true, OI')

/-- Comparisons do not fail, they answer the same in every state, and they are a strict weak
order. -/
structure WellOrdered (L : List α) : Prop where
  answers : ∀ OI, Reached OI → ∀ A ∈ L, ∀ B ∈ L, ∃ answer OI',
    compare A B OI = .ok (answer, OI') ∧ (answer = true ↔ Less compare Reached A B)
  weak : StrictWeakOn (Less compare Reached) L

end Ordered

/-- The states that the comparisons of the two sorts lead to. -/
inductive Reached (OrderedUses : List ValueDFS) (OpsToRename : List VarUse) :
    OrderedInstructions → Prop where
  | create : Reached OrderedUses OpsToRename (.create blocks DT)
  | compare {OI OI' : OrderedInstructions} {A B : ValueDFS} {answer : Bool}
    (h : Reached OrderedUses OpsToRename OI) (hA : A ∈ OrderedUses) (hB : B ∈ OrderedUses)
    (hrun : Compare A B OI = .ok (answer, OI')) : Reached OrderedUses OpsToRename OI'
  | compareOps {OI OI' : OrderedInstructions} {A B : VarUse} {answer : Bool}
    (h : Reached OrderedUses OpsToRename OI) (hA : A ∈ OpsToRename) (hB : B ∈ OpsToRename)
    (hrun : CompareOps A B OI = .ok (answer, OI')) : Reached OrderedUses OpsToRename OI'

/-- Both orders are strict weak ones, and a sorted sequence has every copy before what it governs,
only elements of its subtree in between, and the innermost of the copies of an element last. -/
structure RenamingOrdered (OrderedUses : List ValueDFS) (OpsToRename : List VarUse) : Prop where
  uses : WellOrdered Compare (Reached blocks DT OrderedUses OpsToRename) OrderedUses
  ops : WellOrdered CompareOps (Reached blocks DT OrderedUses OpsToRename) OpsToRename
  sorted : ∀ S : List ValueDFS, S.Perm OrderedUses →
    (S.Pairwise fun A B =>
      ¬ Less Compare (Reached blocks DT OrderedUses OpsToRename) B A) →
    ∀ c ∈ S, ∀ x ∈ S, c.Governs DT x →
      List.Sublist [c, x] S ∧
      (∀ y, List.Sublist [c, y, x] S →
        c.block DT = y.block DT ∨ DT.Above (c.block DT) (y.block DT)) ∧
      ∀ d, d.Governs DT x → List.Sublist [c, d, x] S → c.Governs DT d

/-- No two copies stand at one place of a block. -/
def EdgesApart (OrderedUses : List ValueDFS) : Prop :=
  ∀ A ∈ OrderedUses, ∀ B ∈ OrderedUses, A.isCopy = true → B.isCopy = true →
    A.block DT = B.block DT → A.LocalNum = B.LocalNum → A.target = B.target → A = B

/-! ## The comparison by blocks and ranks -/

section Lemmas

variable {blocks : Nat → Option bloc} {DT : Forest Nat} {OI : OrderedInstructions}

theorem block_eq (hDT : DT.nodes.Nodup) {VD : ValueDFS} {b : Nat} (hb : b ∈ DT.nodes)
    (hVD : VD.DIndex = infoOf (compute_dominator_vector DT) b) : VD.block DT = b := by
  unfold ValueDFS.block
  split
  case h_1 e hfind =>
    obtain ⟨hmem, hinfo⟩ := infoOf_of_mem hDT (List.mem_of_find?_eq_some hfind)
    have hdec := List.find?_some hfind
    have he : e.2 = VD.DIndex := of_decide_eq_true hdec
    exact (infoOf_inj hDT hmem hb).mp (hinfo.trans (he.trans hVD))
  case h_2 hnone =>
    obtain ⟨e, he, rfl, hlookup⟩ := lookup_dominators hDT hb
    have hne := List.find?_eq_none.mp hnone (e.1, ⟨e.2.1, e.2.2⟩) (List.mem_map_of_mem he)
    rw [infoOf, hlookup, Option.getD_some] at hVD
    exact absurd (decide_eq_true hVD.symm) hne

/-- A placed element stands in a block of the tree. -/
theorem Placed.block_spec (hDT : DT.nodes.Nodup) {VD : ValueDFS} (h : Placed blocks DT VD) :
    VD.block DT ∈ DT.nodes ∧
      VD.DIndex = infoOf (compute_dominator_vector DT) (VD.block DT) := by
  have spec : ∀ {b}, b ∈ DT.nodes → VD.DIndex = infoOf (compute_dominator_vector DT) b →
      VD.block DT ∈ DT.nodes ∧
        VD.DIndex = infoOf (compute_dominator_vector DT) (VD.block DT) := by
    intro b hb hVD
    rw [block_eq hDT hb hVD]
    exact ⟨hb, hVD⟩
  cases h with
  | copy _ _ hTo => exact spec hTo rfl
  | edgeCopy _ _ hFrom => exact spec hFrom rfl
  | phiUse _ _ _ _ _ _ hsource _ => exact spec hsource rfl
  | use _ _ hinst => exact spec hinst.1 rfl

/-- What comes last in a block is for an edge. -/
theorem Placed.getBlockEdge_local {VD : ValueDFS} (h : Placed blocks DT VD)
    (hlast : VD.LocalNum = .LN_Last) :
    ∃ source, RangeAnalysis.getBlockEdge_local VD = .ok (source, VD.target) := by
  cases h with
  | copy _ _ _ => cases hlast
  | edgeCopy _ PInfo _ => exact ⟨PInfo.From, rfl⟩
  | phiUse _ U edges source_bbi hphi hedge _ _ =>
    cases hfind : edges.find? (fun de => de.1 = U.var) with
    | none =>
      have hne := List.find?_eq_none.mp hfind _ hedge
      exact absurd (decide_eq_true rfl) hne
    | some de =>
      refine ⟨de.2, ?_⟩
      simp only [RangeAnalysis.getBlockEdge_local, hphi, hfind]
      rfl
  | use _ _ _ => cases hlast

/-- A use has its instruction, which is one of its block when it is in the middle. -/
theorem Placed.use_spec {VD : ValueDFS} (h : Placed blocks DT VD) (hDT : DT.nodes.Nodup)
    {U : VarUse} (hU : VD.content = .use U) :
    OrderedInstructions.Located blocks DT U.inst ∧
      (VD.LocalNum = .LN_Middle ∧ VD.block DT = U.inst.bb_index ∨
        VD.LocalNum = .LN_Last ∧ VD.target = U.inst.bb_index) := by
  cases h with
  | copy _ _ _ => cases hU
  | edgeCopy _ _ _ => cases hU
  | phiUse _ _ _ _ _ _ _ hinst =>
    cases hU
    exact ⟨hinst, Or.inr ⟨rfl, rfl⟩⟩
  | use _ _ hinst =>
    cases hU
    exact ⟨hinst, Or.inl ⟨rfl, block_eq hDT hinst.1 rfl⟩⟩

/-- A copy is first or last. -/
theorem Placed.copy_spec {VD : ValueDFS} (h : Placed blocks DT VD) {PInfo : PredicateWithEdge}
    {Def : Option SigmaOpNode} (hcopy : VD.content = .copy PInfo Def) :
    VD.LocalNum ≠ .LN_Middle := by
  cases h with
  | copy _ _ _ => exact LocalNum.noConfusion
  | edgeCopy _ _ _ => exact LocalNum.noConfusion
  | phiUse _ _ _ _ _ _ _ _ => cases hcopy
  | use _ _ _ => cases hcopy

theorem placeLt_of_block_eq (hDT : DT.nodes.Nodup) {A B : ValueDFS}
    (h : A.block DT = B.block DT) :
    DT.PlaceLt (ValueDFS.block DT) (ValueDFS.rank blocks) A B ↔ A.rank blocks < B.rank blocks := by
  have hirrefl : ¬ DT.Above (A.block DT) (B.block DT) :=
    fun habove => (h ▸ habove : DT.Above (B.block DT) (B.block DT)).irrefl hDT
  rw [Forest.PlaceLt, or_iff_right hirrefl, and_iff_right h]

theorem rank_lt_of_target {A B : ValueDFS} (hnum : A.LocalNum = B.LocalNum)
    (htarget : A.target ≠ B.target) :
    A.rank blocks < B.rank blocks ↔ A.target < B.target := by
  simp [ValueDFS.rank, Prod.Lex.toLex_lt_toLex, hnum, htarget]

theorem rank_lt_of_LocalNum {A B : ValueDFS} (hnum : A.LocalNum ≠ B.LocalNum) :
    A.rank blocks < B.rank blocks ↔ A.LocalNum.toNat < B.LocalNum.toNat := by
  have hne : A.LocalNum.toNat ≠ B.LocalNum.toNat := by
    intro h
    apply hnum
    cases hA : A.LocalNum <;> cases hB : B.LocalNum <;> simp [hA, hB, LocalNum.toNat] at h <;> rfl
  simp [ValueDFS.rank, Prod.Lex.toLex_lt_toLex, hne]

/-- Uses of one kind of position and one target are ordered as their statements. -/
theorem compare_uses (hDT : DT.nodes.Nodup) (hOI : OI.Ready blocks DT) {A B : ValueDFS}
    (hA : Placed blocks DT A) (hB : Placed blocks DT B) {U V : VarUse} (hU : A.content = .use U)
    (hV : B.content = .use V) (hblock : A.block DT = B.block DT) (hnum : A.LocalNum = B.LocalNum)
    (htarget : A.target = B.target) :
    ∃ answer OI', OI.dominates U.inst V.inst = .ok (answer, OI') ∧ OI'.Ready blocks DT ∧
      (answer = true ↔ DT.PlaceLt (ValueDFS.block DT) (ValueDFS.rank blocks) A B) := by
  obtain ⟨hUin, hUplace⟩ := hA.use_spec hDT hU
  obtain ⟨hVin, hVplace⟩ := hB.use_spec hDT hV
  obtain ⟨answer, OI', hrun, hready, hanswer⟩ :=
    OrderedInstructions.dominates_spec hOI hDT hUin hVin
  refine ⟨answer, OI', hrun, hready, hanswer.trans ?_⟩
  have hbb : U.inst.bb_index = V.inst.bb_index := by
    obtain ⟨hUn, hUb⟩ | ⟨hUn, hUb⟩ := hUplace <;> obtain ⟨hVn, hVb⟩ | ⟨hVn, hVb⟩ := hVplace
    · exact hUb.symm.trans (hblock.trans hVb)
    · exact absurd (hUn.symm.trans (hnum.trans hVn)) LocalNum.noConfusion
    · exact absurd (hUn.symm.trans (hnum.trans hVn)) LocalNum.noConfusion
    · exact hUb.symm.trans (htarget.trans hVb)
  have hirrefl : ¬ DT.Above U.inst.bb_index V.inst.bb_index :=
    fun habove => (hbb ▸ habove : DT.Above V.inst.bb_index V.inst.bb_index).irrefl hDT
  rw [placeLt_of_block_eq hDT hblock, Forest.PlaceLt, or_iff_right hirrefl, and_iff_right hbb]
  simp [ValueDFS.rank, Prod.Lex.toLex_lt_toLex, hnum, htarget, hU, hV]

theorem target_of_not_last {A : ValueDFS} (h : A.LocalNum ≠ .LN_Last) : A.target = 0 := if_neg h

/-- The comparison of two elements that are not copies at one place. -/
theorem compare_spec (hDT : DT.nodes.Nodup) (hOI : OI.Ready blocks DT) {A B : ValueDFS}
    (hA : Placed blocks DT A) (hB : Placed blocks DT B) (haddress : A.address = B.address → A = B)
    (hapart : A.isCopy = true → B.isCopy = true → A.block DT = B.block DT →
      A.LocalNum = B.LocalNum → A.target = B.target → A = B) :
    ∃ answer OI', Compare A B OI = .ok (answer, OI') ∧ OI'.Ready blocks DT ∧
      (answer = true ↔ DT.PlaceLt (ValueDFS.block DT) (ValueDFS.rank blocks) A B) := by
  obtain ⟨hAin, hAinfo⟩ := hA.block_spec hDT
  obtain ⟨hBin, hBinfo⟩ := hB.block_spec hDT
  have hsame : A.DIndex = B.DIndex ↔ A.block DT = B.block DT := by
    rw [hAinfo, hBinfo]
    exact infoOf_inj hDT hAin hBin
  unfold Compare
  by_cases heq : A.address = B.address
  · obtain rfl := haddress heq
    rw [if_pos rfl]
    exact ⟨false, OI, rfl, hOI, iff_of_false Bool.false_ne_true fun h => h.irrefl hDT⟩
  have hne : A ≠ B := fun h => heq (h ▸ rfl)
  rw [if_neg heq]
  by_cases hlast : A.DIndex = B.DIndex ∧ A.LocalNum = .LN_Last ∧ B.LocalNum = .LN_Last
  · rw [if_pos hlast]
    have hblock := hsame.mp hlast.1
    have hnum : A.LocalNum = B.LocalNum := hlast.2.1.trans hlast.2.2.symm
    obtain ⟨srcA, hedgeA⟩ := hA.getBlockEdge_local hlast.2.1
    obtain ⟨srcB, hedgeB⟩ := hB.getBlockEdge_local hlast.2.2
    rw [hedgeA, ok_bind, hedgeB, ok_bind]
    dsimp only
    by_cases htarget : A.target = B.target
    · rw [if_neg (not_not.mpr htarget)]
      cases hcA : A.content with
      | copy PA DA =>
        cases hcB : B.content with
        | copy PB DB =>
          -- Only here the comparison would fail.
          refine absurd (hapart ?_ ?_ hblock hnum htarget) hne
          · simp [ValueDFS.isCopy, hcA]
          · simp [ValueDFS.isCopy, hcB]
        | use V =>
          simp only [getDefOrUser, hcA, hcB]
          refine ⟨true, OI, rfl, hOI, iff_of_true rfl ?_⟩
          rw [placeLt_of_block_eq hDT hblock]
          simp [ValueDFS.rank, Prod.Lex.toLex_lt_toLex, hnum, htarget, hcA, hcB]
      | use U =>
        cases hcB : B.content with
        | copy PB DB =>
          simp only [getDefOrUser, hcA, hcB]
          refine ⟨false, OI, rfl, hOI, iff_of_false Bool.false_ne_true ?_⟩
          rw [placeLt_of_block_eq hDT hblock]
          simp [ValueDFS.rank, Prod.Lex.toLex_lt_toLex, hnum, htarget, hcA, hcB]
        | use V =>
          simp only [getDefOrUser, hcA, hcB]
          exact compare_uses hDT hOI hA hB hcA hcB hblock hnum htarget
    · rw [if_pos htarget]
      refine ⟨_, OI, rfl, hOI, ?_⟩
      rw [decide_eq_true_iff, placeLt_of_block_eq hDT hblock, rank_lt_of_target hnum htarget]
  rw [if_neg hlast]
  by_cases hDIndex : A.DIndex = B.DIndex
  · rw [if_neg (not_not.mpr hDIndex)]
    have hblock := hsame.mp hDIndex
    by_cases hnum : A.LocalNum = B.LocalNum
    · rw [if_neg (not_not.mpr hnum)]
      have hlastA : A.LocalNum ≠ .LN_Last := fun h => hlast ⟨hDIndex, h, hnum ▸ h⟩
      have htarget : A.target = B.target := by
        rw [target_of_not_last hlastA, target_of_not_last (hnum ▸ hlastA)]
      cases hcA : A.content with
      | copy PA DA =>
        -- What stands first in a block is a copy.
        have hfirst : A.LocalNum = .LN_First := by
          have := hA.copy_spec hcA
          cases h : A.LocalNum <;> simp_all
        cases hcB : B.content with
        | copy PB DB =>
          refine absurd (hapart ?_ ?_ hblock hnum htarget) hne
          · simp [ValueDFS.isCopy, hcA]
          · simp [ValueDFS.isCopy, hcB]
        | use V =>
          obtain ⟨h, -⟩ | ⟨h, -⟩ := (hB.use_spec hDT hcB).2
          · exact absurd (hfirst.symm.trans (hnum.trans h)) LocalNum.noConfusion
          · exact absurd (hfirst.symm.trans (hnum.trans h)) LocalNum.noConfusion
      | use U =>
        have hmiddle : A.LocalNum = .LN_Middle :=
          (hA.use_spec hDT hcA).2.elim (fun h => h.1) (fun h => absurd h.1 hlastA)
        cases hcB : B.content with
        | copy PB DB => exact absurd (hnum.symm.trans hmiddle) (hB.copy_spec hcB)
        | use V =>
          simp only [getDefOrUser, hcA, hcB]
          exact compare_uses hDT hOI hA hB hcA hcB hblock hnum htarget
    · rw [if_pos hnum]
      refine ⟨_, OI, rfl, hOI, ?_⟩
      rw [decide_eq_true_iff, placeLt_of_block_eq hDT hblock, rank_lt_of_LocalNum hnum]
  · rw [if_pos hDIndex]
    refine ⟨_, OI, rfl, hOI, ?_⟩
    have hblock := mt hsame.mpr hDIndex
    rw [hAinfo, hBinfo, lt_infoOf hDT hAin hBin, Forest.PlaceLt]
    exact ⟨Or.inl, fun h => h.resolve_right fun h => hblock h.1⟩

/-- Two copies at one place of a block cannot be compared. -/
theorem compare_clash (OI : OrderedInstructions) {A B : ValueDFS} (hDT : DT.nodes.Nodup)
    (hA : Placed blocks DT A)
    (hB : Placed blocks DT B) (haddress : A.address ≠ B.address) (hcA : A.isCopy = true)
    (hcB : B.isCopy = true) (hblock : A.block DT = B.block DT) (hnum : A.LocalNum = B.LocalNum)
    (htarget : A.target = B.target) : ∃ e, Compare A B OI = .error e := by
  have hDIndex : A.DIndex = B.DIndex := by
    rw [(hA.block_spec hDT).2, (hB.block_spec hDT).2, hblock]
  obtain ⟨PA, DA, hPA⟩ : ∃ P D, A.content = .copy P D := by
    cases h : A.content with
    | copy P D => exact ⟨P, D, rfl⟩
    | use U => simp [ValueDFS.isCopy, h] at hcA
  obtain ⟨PB, DB, hPB⟩ : ∃ P D, B.content = .copy P D := by
    cases h : B.content with
    | copy P D => exact ⟨P, D, rfl⟩
    | use U => simp [ValueDFS.isCopy, h] at hcB
  unfold Compare
  rw [if_neg haddress]
  by_cases hlast : A.LocalNum = .LN_Last
  · obtain ⟨srcA, hedgeA⟩ := hA.getBlockEdge_local hlast
    obtain ⟨srcB, hedgeB⟩ := hB.getBlockEdge_local (hnum ▸ hlast)
    rw [if_pos ⟨hDIndex, hlast, hnum ▸ hlast⟩, hedgeA, ok_bind, hedgeB, ok_bind]
    dsimp only
    rw [if_neg (not_not.mpr htarget)]
    simp only [getDefOrUser, hPA, hPB]
    exact ⟨_, rfl⟩
  · rw [if_neg (fun h => hlast h.2.1), if_neg (not_not.mpr hDIndex), if_neg (not_not.mpr hnum)]
    simp only [getDefOrUser, hPA, hPB]
    exact ⟨_, rfl⟩

end Lemmas

section Orders

variable {α : Type} {compare : α → α → OrderedInstructions →
    Except Error (Bool × OrderedInstructions)} {Reached : OrderedInstructions → Prop}
  {lt : α → α → Prop} {L : List α}

/-- Comparisons that answer for a relation do so by the answers of any state. -/
theorem less_iff {OI : OrderedInstructions} (hOI : Reached OI)
    (h : ∀ OI, Reached OI → ∀ A ∈ L, ∀ B ∈ L, ∃ answer OI',
      compare A B OI = .ok (answer, OI') ∧ (answer = true ↔ lt A B)) {A B : α} (hA : A ∈ L)
    (hB : B ∈ L) : Less compare Reached A B ↔ lt A B := by
  constructor
  · rintro ⟨OI, OI', hOI, hrun⟩
    obtain ⟨answer, OI₂, hrun₂, hanswer⟩ := h OI hOI A hA B hB
    cases hrun.symm.trans hrun₂
    exact hanswer.mp rfl
  · intro hlt
    obtain ⟨answer, OI₂, hrun₂, hanswer⟩ := h OI hOI A hA B hB
    exact ⟨OI, OI₂, hOI, (hanswer.mpr hlt) ▸ hrun₂⟩

theorem wellOrdered_iff {OI : OrderedInstructions} (hOI : Reached OI)
    (h : ∀ OI, Reached OI → ∀ A ∈ L, ∀ B ∈ L, ∃ answer OI',
      compare A B OI = .ok (answer, OI') ∧ (answer = true ↔ lt A B)) :
    WellOrdered compare Reached L ↔ StrictWeakOn lt L := by
  have hless : ∀ A ∈ L, ∀ B ∈ L, Less compare Reached A B ↔ lt A B :=
    fun A hA B hB => less_iff hOI h hA hB
  refine ⟨fun hw => hw.weak.congr hless, fun hlt => ⟨?_, ?_⟩⟩
  · intro OI' hOI' A hA B hB
    obtain ⟨answer, OI₂, hrun, hanswer⟩ := h OI' hOI' A hA B hB
    exact ⟨answer, OI₂, hrun, hanswer.trans (hless A hA B hB).symm⟩
  · exact hlt.congr fun A hA B hB => (hless A hA B hB).symm

end Orders

section Collection

variable {blocks : Nat → Option bloc} {DT : Forest Nat} {L : List ValueDFS} {R : List VarUse}
  (hDT : DT.nodes.Nodup) (hblocks : OrderedInstructions.Distinct blocks)
  (hL : ∀ VD ∈ L, Placed blocks DT VD)
  (haddress : ∀ A ∈ L, ∀ B ∈ L, A.address = B.address → A = B)
  (hR : ∀ U ∈ R, OrderedInstructions.Located blocks DT U.inst)

include hDT hL haddress in
theorem compare_collection (hapart : EdgesApart DT L) {OI : OrderedInstructions}
    (hOI : OI.Ready blocks DT) {A B : ValueDFS} (hA : A ∈ L) (hB : B ∈ L) :
    ∃ answer OI', Compare A B OI = .ok (answer, OI') ∧ OI'.Ready blocks DT ∧
      (answer = true ↔ DT.PlaceLt (ValueDFS.block DT) (ValueDFS.rank blocks) A B) :=
  compare_spec hDT hOI (hL A hA) (hL B hB) (haddress A hA B hB) (hapart A hA B hB)

include hDT hblocks hL haddress hR in
theorem Reached.ready (hapart : EdgesApart DT L) {OI : OrderedInstructions}
    (h : Reached blocks DT L R OI) : OI.Ready blocks DT := by
  induction h with
  | create => exact OrderedInstructions.ready_create hblocks
  | compare _ hA hB hrun ih =>
    obtain ⟨answer, OI', hrun', hready, -⟩ :=
      compare_collection hDT hL haddress hapart ih hA hB
    cases hrun.symm.trans hrun'
    exact hready
  | compareOps _ hA hB hrun ih =>
    obtain ⟨answer, OI', hrun', hready, -⟩ :=
      OrderedInstructions.dominates_spec ih hDT (hR _ hA) (hR _ hB)
    cases hrun.symm.trans hrun'
    exact hready

include hDT hblocks hL haddress hR in
theorem compare_answers (hapart : EdgesApart DT L) (OI : OrderedInstructions)
    (hOI : Reached blocks DT L R OI) (A : ValueDFS) (hA : A ∈ L) (B : ValueDFS) (hB : B ∈ L) :
    ∃ answer OI', Compare A B OI = .ok (answer, OI') ∧
      (answer = true ↔ DT.PlaceLt (ValueDFS.block DT) (ValueDFS.rank blocks) A B) := by
  have hready := hOI.ready hDT hblocks hL haddress hR hapart
  obtain ⟨answer, OI', hrun, -, hanswer⟩ :=
    compare_collection hDT hL haddress hapart hready hA hB
  exact ⟨answer, OI', hrun, hanswer⟩

include hDT hblocks hL haddress hR in
theorem compareOps_answers (hapart : EdgesApart DT L) (OI : OrderedInstructions)
    (hOI : Reached blocks DT L R OI) (A : VarUse) (hA : A ∈ R) (B : VarUse) (hB : B ∈ R) :
    ∃ answer OI', CompareOps A B OI = .ok (answer, OI') ∧
      (answer = true ↔ DT.PlaceLt (fun U => U.inst.bb_index)
        (fun U => OrderedInstructions.place blocks U.inst) A B) := by
  have hready := hOI.ready hDT hblocks hL haddress hR hapart
  obtain ⟨answer, OI', hrun, -, hanswer⟩ :=
    OrderedInstructions.dominates_spec hready hDT (hR A hA) (hR B hB)
  exact ⟨answer, OI', hrun, hanswer⟩

include hDT hL haddress in
/-- A collection the comparisons of which do not fail has its copies apart. -/
theorem edgesApart_of_answers (h : ∀ A ∈ L, ∀ B ∈ L, ∃ answer OI',
    Compare A B (.create blocks DT) = .ok (answer, OI')) : EdgesApart DT L := by
  intro A hA B hB hcA hcB hblock hnum htarget
  by_contra hne
  obtain ⟨answer, OI', hrun⟩ := h A hA B hB
  obtain ⟨e, herror⟩ := compare_clash (.create blocks DT) hDT (hL A hA) (hL B hB)
    (fun heq => hne (haddress A hA B hB heq)) hcA hcB hblock hnum htarget
  cases hrun.symm.trans herror

include hDT hL in
/-- A copy is before what it governs. -/
theorem Governs.placeLt (hapart : EdgesApart DT L) {c x : ValueDFS} (hc : c ∈ L) (hx : x ∈ L)
    (h : c.Governs DT x) : DT.PlaceLt (ValueDFS.block DT) (ValueDFS.rank blocks) c x := by
  have hPc := hL c hc
  have hPx := hL x hx
  obtain ⟨hcopy, hne, h⟩ := h
  split at h
  case isTrue hfirst =>
    obtain hblock | habove := h
    · rw [placeLt_of_block_eq hDT hblock]
      by_cases hnum : c.LocalNum = x.LocalNum
      · -- What else is first in the block would be a copy at the same place.
        have htarget : c.target = x.target := by
          rw [ValueDFS.target, ValueDFS.target, if_neg (by simp [hfirst]),
            if_neg (by simp [← hnum, hfirst])]
        have hcopyx : x.isCopy = true := by
          cases hxc : x.content with
          | copy P D => simp [ValueDFS.isCopy, hxc]
          | use U =>
            obtain ⟨hn, -⟩ | ⟨hn, -⟩ := (hPx.use_spec hDT hxc).2
            · exact absurd (hfirst.symm.trans (hnum.trans hn)) LocalNum.noConfusion
            · exact absurd (hfirst.symm.trans (hnum.trans hn)) LocalNum.noConfusion
        exact absurd (hapart c hc x hx hcopy hcopyx hblock hnum htarget) hne
      · rw [rank_lt_of_LocalNum hnum, hfirst]
        cases hx : x.LocalNum with
        | LN_First => exact absurd (hfirst.trans hx.symm) hnum
        | LN_Middle => exact Nat.zero_lt_one
        | LN_Last => exact Nat.zero_lt_two
    · exact Or.inl habove
  case isFalse hfirst =>
    obtain ⟨huse, hlast, hblock, htarget⟩ := h
    rw [placeLt_of_block_eq hDT hblock]
    cases hcc : c.content with
    | use U => simp [ValueDFS.isCopy, hcc] at hcopy
    | copy P D =>
      have hnum : c.LocalNum = x.LocalNum := by
        have := hPc.copy_spec hcc
        rw [hlast]
        cases h : c.LocalNum <;> simp_all
      cases hxc : x.content with
      | copy P D => simp [ValueDFS.isCopy, hxc] at huse
      | use U => simp [ValueDFS.rank, Prod.Lex.toLex_lt_toLex, hnum, htarget, hcc, hxc]

include hDT hL in
/-- A sorted sequence of a collection that is not scattered. -/
theorem sorted_spec (hapart : EdgesApart DT L) (hnodup : L.Nodup)
    (hscattered : ¬ DT.Scattered (ValueDFS.block DT) (ValueDFS.rank blocks) L) {S : List ValueDFS}
    (hSL : S.Perm L)
    (hS : S.Pairwise fun A B =>
      ¬ DT.PlaceLt (ValueDFS.block DT) (ValueDFS.rank blocks) B A)
    {c x : ValueDFS} (hc : c ∈ S) (hx : x ∈ S) (h : c.Governs DT x) :
    List.Sublist [c, x] S ∧
      (∀ y, List.Sublist [c, y, x] S →
        c.block DT = y.block DT ∨ DT.Above (c.block DT) (y.block DT)) ∧
      ∀ d, d.Governs DT x → List.Sublist [c, d, x] S → c.Governs DT d := by
  have hlt := Governs.placeLt hDT hL hapart (hSL.subset hc) (hSL.subset hx) h
  have hbetween : ∀ y, List.Sublist [c, y, x] S →
      c.block DT = y.block DT ∨ DT.Above (c.block DT) (y.block DT) :=
    fun y hy => Forest.between_placeLt hscattered hSL hS hlt hy
  refine ⟨sublist_of_lt hS hc hx h.2.1 hlt, hbetween, fun d hd hcdx => ?_⟩
  have hdS : d ∈ S := hcdx.subset (List.mem_cons_of_mem _ List.mem_cons_self)
  have hcd : c ≠ d := by
    have hnd := ((hSL.nodup_iff.mpr hnodup).sublist hcdx)
    exact fun heq => (List.nodup_cons.mp hnd).1 (heq ▸ List.mem_cons_self)
  obtain ⟨hcopy, -, hgov⟩ := h
  refine ⟨hcopy, hcd, ?_⟩
  split at hgov
  case isTrue hfirst =>
    rw [if_pos hfirst]
    exact hbetween d hcdx
  case isFalse hfirst =>
    -- A copy of an edge has no other copy between itself and the phi uses along its edge.
    exfalso
    obtain ⟨-, hlast, hblock, htarget⟩ := hgov
    have hdx := Governs.placeLt hDT hL hapart (hSL.subset hdS) (hSL.subset hx) hd
    have hdc : ¬ DT.PlaceLt (ValueDFS.block DT) (ValueDFS.rank blocks) d c :=
      List.rel_of_pairwise_cons (hS.sublist hcdx) List.mem_cons_self
    have hsame : c.block DT = d.block DT := by
      refine (hbetween d hcdx).resolve_right fun habove => ?_
      rw [hblock] at habove
      obtain hab | ⟨hab, -⟩ := hdx
      · exact (habove.trans hDT hab).irrefl hDT
      · exact (hab ▸ habove : DT.Above (x.block DT) (x.block DT)).irrefl hDT
    have hcLast : c.LocalNum = .LN_Last := by
      cases hcc : c.content with
      | use U => simp [ValueDFS.isCopy, hcc] at hcopy
      | copy P D =>
        have := (hL c (hSL.subset hc)).copy_spec hcc
        cases hn : c.LocalNum <;> simp_all
    obtain ⟨hdcopy, -, hdgov⟩ := hd
    split at hdgov
    case isTrue hdfirst =>
      refine hdc ((placeLt_of_block_eq hDT hsame.symm).mpr ?_)
      rw [rank_lt_of_LocalNum (by simp [hdfirst, hcLast]), hdfirst, hcLast]
      exact Nat.zero_lt_two
    case isFalse hdfirst =>
      have hdLast : d.LocalNum = .LN_Last := by
        cases hdd : d.content with
        | use U => simp [ValueDFS.isCopy, hdd] at hdcopy
        | copy P D =>
          have := (hL d (hSL.subset hdS)).copy_spec hdd
          cases hn : d.LocalNum <;> simp_all
      exact hcd (hapart c (hSL.subset hc) d (hSL.subset hdS) hcopy hdcopy hsame
        (hcLast.trans hdLast.symm) (htarget.trans hdgov.2.2.2.symm))

end Collection

/-- The renaming order is well defined exactly when no two copies stand at one place and neither
list has two elements in order with an element in a subtree unrelated to the first one. -/
theorem renamingOrdered_iff (blocks : Nat → Option bloc) (DT : Forest Nat) (L : List ValueDFS)
    (R : List VarUse) (hDT : DT.nodes.Nodup) (hblocks : OrderedInstructions.Distinct blocks)
    (hL : ∀ VD ∈ L, Placed blocks DT VD) (haddress : (L.map ValueDFS.address).Nodup)
    (hR : ∀ U ∈ R, OrderedInstructions.Located blocks DT U.inst) :
    RenamingOrdered blocks DT L R ↔
      EdgesApart DT L ∧ ¬ DT.Scattered (ValueDFS.block DT) (ValueDFS.rank blocks) L ∧
        ¬ DT.Scattered (fun U : VarUse => U.inst.bb_index)
          (fun U => OrderedInstructions.place blocks U.inst) R := by
  have hinj : ∀ A ∈ L, ∀ B ∈ L, A.address = B.address → A = B :=
    fun A hA B hB h => List.inj_on_of_nodup_map haddress hA hB h
  have hcreate : Reached blocks DT L R (.create blocks DT) := Reached.create
  constructor
  · intro h
    have hapart : EdgesApart DT L := by
      refine edgesApart_of_answers hDT hL hinj fun A hA B hB => ?_
      obtain ⟨answer, OI', hrun, -⟩ := h.uses.answers _ hcreate A hA B hB
      exact ⟨answer, OI', hrun⟩
    have huses := compare_answers hDT hblocks hL hinj hR hapart
    have hops := compareOps_answers hDT hblocks hL hinj hR hapart
    refine ⟨hapart, ?_, ?_⟩
    · exact (Forest.strictWeakOn_iff hDT L).mp ((wellOrdered_iff hcreate huses).mp h.uses)
    · exact (Forest.strictWeakOn_iff hDT R).mp ((wellOrdered_iff hcreate hops).mp h.ops)
  · rintro ⟨hapart, hLs, hRs⟩
    have huses := compare_answers hDT hblocks hL hinj hR hapart
    have hops := compareOps_answers hDT hblocks hL hinj hR hapart
    refine ⟨?_, ?_, fun S hSL hS c hc x hx hgov => ?_⟩
    · exact (wellOrdered_iff hcreate huses).mpr ((Forest.strictWeakOn_iff hDT L).mpr hLs)
    · exact (wellOrdered_iff hcreate hops).mpr ((Forest.strictWeakOn_iff hDT R).mpr hRs)
    · refine sorted_spec hDT hL hapart haddress.of_map hLs hSL ?_ hc hx hgov
      refine hS.imp_of_mem fun {A B} hA hB h hlt => h ?_
      exact (less_iff hcreate huses (hSL.subset hB) (hSL.subset hA)).mpr hlt

/-- Block 1 with block 2 and block 3 below, and block 4 below block 2. -/
def forkTree : Forest Nat :=
  .node 0 (.node 1 (.node 2 (.node 4 .nil .nil) (.node 3 .nil .nil)) .nil) .nil

/-- One statement in each block, of its number. -/
def forkBlocks (number : Nat) : Option bloc :=
  if number < 5 then some ⟨[], [number]⟩ else none

def forkUse (number : Nat) : ValueDFS :=
  ⟨number, infoOf (compute_dominator_vector forkTree) number, .LN_Middle,
    .use ⟨5, ⟨number, number, none⟩⟩, false⟩

def forkCopy (To : Nat) : ValueDFS :=
  ⟨10 + To, infoOf (compute_dominator_vector forkTree) To, .LN_First, .copy ⟨1, To, none⟩ none,
    false⟩

theorem forkBlocks_distinct : OrderedInstructions.Distinct forkBlocks := by
  intro number BB hBB
  unfold forkBlocks at hBB
  split at hBB
  · cases hBB
    exact List.nodup_singleton number
  · cases hBB

theorem placed_forkUse {number : Nat} (h : number < 5) :
    Placed forkBlocks forkTree (forkUse number) := by
  refine Placed.use number ⟨5, ⟨number, number, none⟩⟩ ⟨?_, ⟨[], [number]⟩, if_pos h, ?_⟩
  · have : ∀ n < 5, n ∈ forkTree.nodes := by decide
    exact this number h
  · exact List.mem_singleton_self number

theorem placed_forkCopy {To : Nat} (h : To ∈ forkTree.nodes) :
    Placed forkBlocks forkTree (forkCopy To) :=
  Placed.copy (10 + To) ⟨1, To, none⟩ h

/-- A copy at block 2 and a use below it are in order. -/
theorem renamingOrdered_chain :
    RenamingOrdered forkBlocks forkTree [forkUse 4, forkCopy 2] [⟨5, ⟨1, 1, none⟩⟩] := by
  refine (renamingOrdered_iff forkBlocks forkTree [forkUse 4, forkCopy 2] [⟨5, ⟨1, 1, none⟩⟩]
    (by decide) forkBlocks_distinct ?_ (by decide) ?_).mpr ⟨?_, by decide, by decide⟩
  · simp only [List.mem_cons, List.not_mem_nil, or_false, forall_eq_or_imp, forall_eq]
    exact ⟨placed_forkUse (by decide), placed_forkCopy (by decide)⟩
  · simp only [List.mem_singleton, forall_eq]
    exact ⟨by decide, ⟨[], [1]⟩, rfl, List.mem_singleton_self 1⟩
  · unfold EdgesApart
    decide

/-- With a use at block 3 as well, that use is incomparable to the copy and to the use below the
copy, which are in order. -/
theorem not_renamingOrdered_fork :
    ¬ RenamingOrdered forkBlocks forkTree [forkUse 4, forkUse 3, forkCopy 2] [] := by
  intro h
  have hDT : forkTree.nodes.Nodup := by decide
  have hL : ∀ VD ∈ [forkUse 4, forkUse 3, forkCopy 2], Placed forkBlocks forkTree VD := by
    simp only [List.mem_cons, List.not_mem_nil, or_false, forall_eq_or_imp, forall_eq]
    exact ⟨placed_forkUse (by decide), placed_forkUse (by decide), placed_forkCopy (by decide)⟩
  have hapart : EdgesApart forkTree [forkUse 4, forkUse 3, forkCopy 2] := by
    unfold EdgesApart
    decide
  have hanswers := compare_answers hDT forkBlocks_distinct hL (by decide)
    (fun U hU => absurd hU List.not_mem_nil) hapart
  have hweak := (wellOrdered_iff Reached.create hanswers).mp h.uses
  exact (Forest.strictWeakOn_iff hDT _).mp hweak (by decide)

end RangeAnalysis
end Bambu
