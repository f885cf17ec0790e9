/-
  Bambu.Behavior.OrderedInstructions

  `OrderedInstructions`: the depth-first numbers of the dominator tree, and the order of the
  instructions of one block.

  The statements of a block are numbered when they are first asked for, so that every question
  returns the numbers that the next one starts from.  The answers are those of the places of the
  instructions, whatever has been numbered (`OrderedBasicBlock.dominates_spec`), in every
  sequence of questions (`OrderedBasicBlock.dominatesAll_create`).
-/

import Bambu.Math.TreeOrder
import Bambu.Utility.Common
import Mathlib.Data.Prod.Lex

namespace Bambu

open Bambu.Math

/-! ## Instructions and blocks -/

/-- A statement, with the def edges of a `phi_stmt`: a variable and the block it comes from. -/
structure node_stmt where
  index : Nat
  bb_index : Nat
  CGetDefEdgesList : Option (List (Nat × Nat))
  deriving DecidableEq

/-- `get_kind() == phi_stmt_K` -/
def node_stmt.isPhi (stmt : node_stmt) : Bool := stmt.CGetDefEdgesList.isSome

/-- A basic block, by the indices of its statements. -/
structure bloc where
  CGetPhiList : List Nat
  CGetStmtList : List Nat

/-- Where a statement stands: phis come first. -/
def bloc.place (BB : bloc) (stmt : node_stmt) : Nat ×ₗ Nat :=
  if stmt.isPhi then toLex (0, BB.CGetPhiList.idxOf stmt.index)
  else toLex (1, BB.CGetStmtList.idxOf stmt.index)

/-- The block has the statement. -/
def bloc.Has (BB : bloc) (stmt : node_stmt) : Prop :=
  stmt.index ∈ if stmt.isPhi then BB.CGetPhiList else BB.CGetStmtList

instance (BB : bloc) (stmt : node_stmt) : Decidable (BB.Has stmt) :=
  inferInstanceAs (Decidable (_ ∈ _))

/-! ## The order within a block -/

structure OrderedBasicBlock where
  number : Nat
  NumberedInsts : List (Nat × Nat)
  NextInstPos : Nat
  /-- The statements after `LastInstFound`. -/
  remaining : List Nat

namespace OrderedBasicBlock

def create (number : Nat) (BB : bloc) : OrderedBasicBlock where
  number := number
  NumberedInsts := BB.CGetPhiList.zipIdx
  NextInstPos := 0
  remaining := BB.CGetStmtList

/-- The loop of `instComesBefore`, over the statements from `II` on. -/
def comesBeforeFrom (A B : Nat) :
    List Nat → OrderedBasicBlock → Except Error (Bool × OrderedBasicBlock)
  | [], _ => .error (.assertion "Instruction not found?")
  | idx :: rest, obb =>
    let obb := { obb with
      NumberedInsts := (idx, obb.NextInstPos) :: obb.NumberedInsts
      NextInstPos := obb.NextInstPos + 1
      remaining := rest }
    if idx = A ∨ idx = B then .ok (decide (idx ≠ B), obb) else comesBeforeFrom A B rest obb

def instComesBefore (obb : OrderedBasicBlock) (A B : node_stmt) :
    Except Error (Bool × OrderedBasicBlock) :=
  comesBeforeFrom A.index B.index obb.remaining obb

def dominates (obb : OrderedBasicBlock) (A B : node_stmt) :
    Except Error (Bool × OrderedBasicBlock) := do
  throwAssert (A.bb_index = B.bb_index) "Instructions must be in the same basic block!"
  throwAssert (A.bb_index = obb.number) "Instructions must be in the tracked block!"
  if A.isPhi && !B.isPhi then .ok (true, obb)
  else if !A.isPhi && B.isPhi then .ok (false, obb)
  else match obb.NumberedInsts.lookup A.index, obb.NumberedInsts.lookup B.index with
    | some NA, some NB => .ok (decide (NA < NB), obb)
    | some _, none => .ok (!B.isPhi, obb)
    | none, some _ => .ok (false, obb)
    | none, none =>
      throwAssert (¬ A.isPhi)
        "Non dato, not given, nicht gegeben, pas donné, no dado, non detur"
      instComesBefore obb A B

/-- The phis and a first part of the statements have been numbered. -/
structure Ready (obb : OrderedBasicBlock) (number : Nat) (BB : bloc) : Prop where
  number_eq : obb.number = number
  nodup : (BB.CGetPhiList ++ BB.CGetStmtList).Nodup
  numbered : ∃ walked, BB.CGetStmtList = walked ++ obb.remaining ∧
    obb.NextInstPos = walked.length ∧
    ∀ i, obb.NumberedInsts.lookup i =
      if i ∈ BB.CGetPhiList then some (BB.CGetPhiList.idxOf i)
      else if i ∈ walked then some (walked.idxOf i) else none

theorem lookup_zipIdx (l : List Nat) (n i : Nat) :
    (l.zipIdx n).lookup i = if i ∈ l then some (n + l.idxOf i) else none := by
  induction l generalizing n with
  | nil => rfl
  | cons x l ih =>
    rw [List.zipIdx_cons, List.lookup_cons]
    by_cases hx : i = x
    · subst hx
      simp
    · have hne : (i == x) = false := beq_false_of_ne hx
      rw [hne, ih, List.idxOf_cons_ne _ (Ne.symm hx)]
      simp only [List.mem_cons, hx, false_or, Nat.succ_eq_add_one]
      split
      · exact congrArg some (by omega)
      · rfl

theorem ready_create (number : Nat) {BB : bloc}
    (h : (BB.CGetPhiList ++ BB.CGetStmtList).Nodup) : (create number BB).Ready number BB where
  number_eq := rfl
  nodup := h
  numbered := ⟨[], rfl, rfl, fun i => by simp [create, lookup_zipIdx]⟩

variable {obb : OrderedBasicBlock} {number : Nat} {BB : bloc}

/-- A statement that has not been numbered stands behind the ones that have been. -/
theorem Ready.idxOf_eq (h : obb.Ready number BB) {i : Nat} (hi : i ∈ obb.remaining) :
    BB.CGetStmtList.idxOf i = obb.NextInstPos + obb.remaining.idxOf i := by
  obtain ⟨walked, hlist, hpos, -⟩ := h.numbered
  have hnodup := (List.nodup_append.mp h.nodup).2.1
  rw [hlist, List.nodup_append] at hnodup
  rw [hlist, hpos, List.idxOf_append_of_notMem (fun hw => hnodup.2.2 i hw i hi rfl)]

/-- The next statement is numbered. -/
theorem Ready.next (h : obb.Ready number BB) {idx : Nat} {rest : List Nat}
    (hrest : obb.remaining = idx :: rest) :
    Ready { obb with
      NumberedInsts := (idx, obb.NextInstPos) :: obb.NumberedInsts
      NextInstPos := obb.NextInstPos + 1
      remaining := rest } number BB := by
  obtain ⟨walked, hlist, hpos, hlookup⟩ := h.numbered
  have hidx : idx ∈ BB.CGetStmtList := by simp [hlist, hrest]
  have hphi : idx ∉ BB.CGetPhiList :=
    fun hphi => (List.nodup_append.mp h.nodup).2.2 idx hphi idx hidx rfl
  have hwalked : idx ∉ walked := by
    have hnodup := (List.nodup_append.mp h.nodup).2.1
    rw [hlist, hrest, List.nodup_append] at hnodup
    exact fun hw => hnodup.2.2 idx hw idx List.mem_cons_self rfl
  refine ⟨h.number_eq, h.nodup, walked ++ [idx], ?_, ?_, fun i => ?_⟩
  · rw [hlist, hrest, List.append_assoc, List.singleton_append]
  · rw [List.length_append, List.length_singleton, hpos]
  · by_cases hi : i = idx
    · subst hi
      rw [List.lookup_cons_self, if_neg hphi, if_pos (by simp),
        List.idxOf_append_of_notMem hwalked, List.idxOf_cons_self, hpos, Nat.add_zero]
    · simp only [List.lookup_cons, beq_false_of_ne hi, hlookup]
      by_cases hw : i ∈ walked
      · simp [hw, List.idxOf_append_of_mem hw]
      · simp [hw, hi]

/-- The walk stops at the first of the two statements. -/
theorem comesBeforeFrom_spec {A B : Nat} (h : obb.Ready number BB) (hA : A ∈ obb.remaining)
    (hB : B ∈ obb.remaining) :
    ∃ obb' : OrderedBasicBlock, obb'.Ready number BB ∧
      comesBeforeFrom A B obb.remaining obb =
        .ok (decide (BB.CGetStmtList.idxOf A < BB.CGetStmtList.idxOf B), obb') := by
  rw [h.idxOf_eq hA, h.idxOf_eq hB]
  simp only [Nat.add_lt_add_iff_left]
  -- The numbers that are left only depend on the statements that are left.
  generalize hr : obb.remaining = r at hA hB
  induction r generalizing obb with
  | nil => exact absurd hA List.not_mem_nil
  | cons idx rest ih =>
    rw [comesBeforeFrom]
    have hnext := h.next hr
    by_cases hfound : idx = A ∨ idx = B
    · refine ⟨_, hnext, ?_⟩
      simp only [if_pos hfound]
      congr 3
      by_cases hidx : idx = B
      · simp [hidx]
      · have hidxA : idx = A := hfound.resolve_right hidx
        subst hidxA
        simp [hidx, List.idxOf_cons_ne]
    · simp only [if_neg hfound]
      rw [not_or] at hfound
      have hA' : A ∈ rest := (List.mem_cons.mp hA).resolve_left (Ne.symm hfound.1)
      have hB' : B ∈ rest := (List.mem_cons.mp hB).resolve_left (Ne.symm hfound.2)
      obtain ⟨obb', hready, hrun⟩ := ih hnext rfl hA' hB'
      refine ⟨obb', hready, ?_⟩
      rw [List.idxOf_cons_ne _ hfound.1, List.idxOf_cons_ne _ hfound.2]
      simp only [Nat.succ_lt_succ_iff]
      exact hrun

/-- The answer is that of the places of the two statements. -/
theorem dominates_spec (h : obb.Ready number BB) {A B : node_stmt} (hA : A.bb_index = number)
    (hB : B.bb_index = number) (hAin : BB.Has A) (hBin : BB.Has B) :
    ∃ obb' : OrderedBasicBlock, obb'.Ready number BB ∧
      obb.dominates A B = .ok (decide (BB.place A < BB.place B), obb') := by
  rw [dominates, throwAssert_of (hA.trans hB.symm), ok_bind,
    throwAssert_of (hA.trans h.number_eq.symm), ok_bind]
  rw [bloc.Has] at hAin hBin
  obtain ⟨walked, hlist, -, hlookup⟩ := h.numbered
  have hapart := (List.nodup_append.mp h.nodup).2.2
  cases hpA : A.isPhi <;> cases hpB : B.isPhi
  case false.true => exact ⟨obb, h, by simp [bloc.place, hpA, hpB, Prod.Lex.toLex_lt_toLex]⟩
  case true.false => exact ⟨obb, h, by simp [bloc.place, hpA, hpB, Prod.Lex.toLex_lt_toLex]⟩
  case true.true =>
    rw [hpA, if_pos rfl] at hAin
    rw [hpB, if_pos rfl] at hBin
    refine ⟨obb, h, ?_⟩
    simp [bloc.place, hpA, hpB, Prod.Lex.toLex_lt_toLex, hlookup, hAin, hBin]
  case false.false =>
    rw [hpA, if_neg Bool.false_ne_true] at hAin
    rw [hpB, if_neg Bool.false_ne_true] at hBin
    have hphiA : A.index ∉ BB.CGetPhiList := fun hphi => hapart _ hphi _ hAin rfl
    have hphiB : B.index ∉ BB.CGetPhiList := fun hphi => hapart _ hphi _ hBin rfl
    have hplace : decide (BB.place A < BB.place B) =
        decide (BB.CGetStmtList.idxOf A.index < BB.CGetStmtList.idxOf B.index) := by
      simp [bloc.place, hpA, hpB, Prod.Lex.toLex_lt_toLex]
    rw [hplace]
    have hAl := hlookup A.index
    have hBl := hlookup B.index
    rw [if_neg hphiA] at hAl
    rw [if_neg hphiB] at hBl
    rw [hlist, List.mem_append] at hAin hBin
    have hpast : ∀ {i}, i ∈ walked → BB.CGetStmtList.idxOf i = walked.idxOf i ∧
        walked.idxOf i < walked.length := by
      intro i hi
      rw [hlist, List.idxOf_append_of_mem hi]
      exact ⟨rfl, List.idxOf_lt_length_of_mem hi⟩
    have hahead : ∀ {i}, i ∉ walked → BB.CGetStmtList.idxOf i =
        walked.length + obb.remaining.idxOf i := by
      intro i hi
      rw [hlist, List.idxOf_append_of_notMem hi]
    by_cases hwA : A.index ∈ walked <;> by_cases hwB : B.index ∈ walked
    · refine ⟨obb, h, ?_⟩
      simp [hAl, hBl, hwA, hwB, hpast]
    · refine ⟨obb, h, ?_⟩
      have := hpast hwA
      have := hahead hwB
      simp [hAl, hBl, hwA, hwB]
      omega
    · refine ⟨obb, h, ?_⟩
      have := hpast hwB
      have := hahead hwA
      simp [hAl, hBl, hwA, hwB]
      omega
    · obtain ⟨obb', hready, hrun⟩ := comesBeforeFrom_spec h (hAin.resolve_left hwA)
        (hBin.resolve_left hwB)
      refine ⟨obb', hready, ?_⟩
      simp only [hAl, hBl, hwA, hwB]
      exact hrun

/-! ### Sequences of questions -/

/-- Several questions in a row, each with the numbers that the ones before it left. -/
def dominatesAll : OrderedBasicBlock → List (node_stmt × node_stmt) →
    Except Error (List Bool × OrderedBasicBlock)
  | obb, [] => .ok ([], obb)
  | obb, (A, B) :: queries =>
    (obb.dominates A B).bind fun r =>
      (dominatesAll r.2 queries).bind fun rs => .ok (r.1 :: rs.1, rs.2)

/-- `A` is a phi and `B` is not, or they stand in the same list and `A` comes first. -/
def Precedes (BB : bloc) (A B : node_stmt) : Prop :=
  (A.isPhi ∧ ¬ B.isPhi) ∨
    (A.isPhi ∧ B.isPhi ∧ BB.CGetPhiList.idxOf A.index < BB.CGetPhiList.idxOf B.index) ∨
    (¬ A.isPhi ∧ ¬ B.isPhi ∧ BB.CGetStmtList.idxOf A.index < BB.CGetStmtList.idxOf B.index)

instance (BB : bloc) (A B : node_stmt) : Decidable (Precedes BB A B) :=
  inferInstanceAs (Decidable (_ ∨ _ ∨ _))

theorem place_lt_iff (BB : bloc) (A B : node_stmt) :
    BB.place A < BB.place B ↔ Precedes BB A B := by
  unfold bloc.place Precedes
  cases A.isPhi <;> cases B.isPhi <;> simp [Prod.Lex.toLex_lt_toLex]

theorem dominatesAll_of_ready (queries : List (node_stmt × node_stmt)) (h : obb.Ready number BB)
    (hq : ∀ q ∈ queries, (q.1.bb_index = number ∧ BB.Has q.1) ∧
      (q.2.bb_index = number ∧ BB.Has q.2)) :
    ∃ obb' : OrderedBasicBlock, obb'.Ready number BB ∧
      obb.dominatesAll queries =
        .ok (queries.map fun q => decide (Precedes BB q.1 q.2), obb') := by
  induction queries generalizing obb with
  | nil => exact ⟨obb, h, rfl⟩
  | cons q queries ih =>
    obtain ⟨⟨hA, hAin⟩, hB, hBin⟩ := hq q List.mem_cons_self
    obtain ⟨obb₁, h₁, hrun⟩ := dominates_spec h hA hB hAin hBin
    obtain ⟨obb', h', hrest⟩ := ih h₁ fun q hmem => hq q (List.mem_cons_of_mem _ hmem)
    refine ⟨obb', h', ?_⟩
    unfold dominatesAll
    rw [hrun, Except.bind, hrest]
    simp only [Except.bind, place_lt_iff, List.map_cons]

/-- Every answer is the order of the two statements in the block, whatever was asked before,
and no question walks past the end. -/
theorem dominatesAll_create (number : Nat) (BB : bloc)
    (hBB : (BB.CGetPhiList ++ BB.CGetStmtList).Nodup) (queries : List (node_stmt × node_stmt))
    (hq : ∀ q ∈ queries, (q.1.bb_index = number ∧ BB.Has q.1) ∧
      (q.2.bb_index = number ∧ BB.Has q.2)) :
    ∃ obb' : OrderedBasicBlock, obb'.Ready number BB ∧
      (create number BB).dominatesAll queries =
        .ok (queries.map fun q => decide (Precedes BB q.1 q.2), obb') :=
  dominatesAll_of_ready queries (ready_create number hBB) hq

/-- A phi and two statements, asked for in an order that numbers only a part of them first. -/
theorem dominatesAll_create_three :
    ∃ obb' : OrderedBasicBlock, obb'.Ready 2 ⟨[7], [4, 9]⟩ ∧
      (create 2 ⟨[7], [4, 9]⟩).dominatesAll
          [(⟨4, 2, none⟩, ⟨4, 2, none⟩), (⟨9, 2, none⟩, ⟨4, 2, none⟩),
            (⟨7, 2, some []⟩, ⟨9, 2, none⟩), (⟨4, 2, none⟩, ⟨9, 2, none⟩)] =
        .ok ([false, false, true, true], obb') :=
  dominatesAll_create 2 ⟨[7], [4, 9]⟩ (by decide) _ (by decide)

end OrderedBasicBlock

/-! ## The numbers of the dominator tree -/

structure DFSInfo where
  DFSIn : Nat
  DFSOut : Nat
  deriving DecidableEq

namespace DFSInfo

/-- `operator<` -/
def lt (this other : DFSInfo) : Bool := this.DFSIn < other.DFSIn && other.DFSOut < this.DFSOut

/-- `operator<=` -/
def le (this other : DFSInfo) : Bool := this.DFSIn ≤ other.DFSIn && other.DFSOut ≤ this.DFSOut

end DFSInfo

/-- The numbers that a depth-first visit of the dominator tree leaves. -/
def compute_dominator_vector (DT : Forest Nat) : List (Nat × DFSInfo) :=
  (DT.number 0).1.map fun e => (e.1, ⟨e.2.1, e.2.2⟩)

/-- `DFSInfos.at`, and `OrderedInstructions::info`: an unreachable block has the default. -/
def infoOf (dominators : List (Nat × DFSInfo)) (BBI : Nat) : DFSInfo :=
  (dominators.lookup BBI).getD ⟨0, 0⟩

section Numbers

variable {DT : Forest Nat} {a b : Nat}

theorem lookup_dominators (hDT : DT.nodes.Nodup) (ha : a ∈ DT.nodes) :
    ∃ e ∈ (DT.number 0).1, e.1 = a ∧
      (compute_dominator_vector DT).lookup a = some ⟨e.2.1, e.2.2⟩ := by
  have hnodup := hDT
  rw [← Forest.number_nodes DT 0] at ha hnodup
  unfold compute_dominator_vector
  generalize (DT.number 0).1 = l at ha hnodup ⊢
  induction l with
  | nil => exact absurd ha List.not_mem_nil
  | cons e l ih =>
    rw [List.map_cons, List.nodup_cons] at hnodup
    rw [List.map_cons, List.mem_cons] at ha
    obtain rfl | ha := ha
    · exact ⟨e, List.mem_cons_self, rfl, List.lookup_cons_self⟩
    · obtain ⟨d, hd, hda, hlookup⟩ := ih ha hnodup.2
      refine ⟨d, List.mem_cons_of_mem _ hd, hda, ?_⟩
      rw [List.map_cons, List.lookup_cons, beq_false_of_ne, hlookup]
      rintro rfl
      exact hnodup.1 ha

theorem lt_infoOf (hDT : DT.nodes.Nodup) (ha : a ∈ DT.nodes) (hb : b ∈ DT.nodes) :
    (infoOf (compute_dominator_vector DT) a).lt (infoOf (compute_dominator_vector DT) b) = true ↔
      DT.Above a b := by
  obtain ⟨d, hd, rfl, hda⟩ := lookup_dominators hDT ha
  obtain ⟨e, he, rfl, heb⟩ := lookup_dominators hDT hb
  rw [← Forest.number_inside_iff hDT hd he]
  simp [infoOf, hda, heb, DFSInfo.lt]

theorem infoOf_inj (hDT : DT.nodes.Nodup) (ha : a ∈ DT.nodes) (hb : b ∈ DT.nodes) :
    infoOf (compute_dominator_vector DT) a = infoOf (compute_dominator_vector DT) b ↔ a = b := by
  refine ⟨fun h => ?_, fun h => h ▸ rfl⟩
  obtain ⟨d, hd, rfl, hda⟩ := lookup_dominators hDT ha
  obtain ⟨e, he, rfl, heb⟩ := lookup_dominators hDT hb
  simp only [infoOf, hda, heb, Option.getD_some, DFSInfo.mk.injEq] at h
  rw [Forest.number_injective hDT hd he (Or.inl h.1)]

theorem le_infoOf (hDT : DT.nodes.Nodup) (ha : a ∈ DT.nodes) (hb : b ∈ DT.nodes) :
    (infoOf (compute_dominator_vector DT) a).le (infoOf (compute_dominator_vector DT) b) = true ↔
      a = b ∨ DT.Above a b := by
  obtain ⟨d, hd, rfl, hda⟩ := lookup_dominators hDT ha
  obtain ⟨e, he, rfl, heb⟩ := lookup_dominators hDT hb
  rw [← Forest.number_inside_iff hDT hd he]
  simp only [infoOf, hda, heb, DFSInfo.le, Option.getD_some, Bool.and_eq_true, decide_eq_true_eq]
  constructor
  · rintro ⟨hin, hout⟩
    by_cases hde : d = e
    · exact Or.inl (congrArg Prod.fst hde)
    · have hne : d.2.1 ≠ e.2.1 := fun h => hde (Forest.number_injective hDT hd he (Or.inl h))
      have hne' : d.2.2 ≠ e.2.2 := fun h => hde (Forest.number_injective hDT hd he (Or.inr h))
      exact Or.inr ⟨Nat.lt_of_le_of_ne hin hne, Nat.lt_of_le_of_ne hout (Ne.symm hne')⟩
  · rintro (hde | ⟨hin, hout⟩)
    · have hmem := (infoOf_inj hDT ha hb).mpr hde
      simp only [infoOf, hda, heb, Option.getD_some, DFSInfo.mk.injEq] at hmem
      exact ⟨hmem.1.le, hmem.2.ge⟩
    · exact ⟨hin.le, hout.le⟩

theorem infoOf_of_mem (hDT : DT.nodes.Nodup) {e : Nat × DFSInfo}
    (he : e ∈ compute_dominator_vector DT) :
    e.1 ∈ DT.nodes ∧ infoOf (compute_dominator_vector DT) e.1 = e.2 := by
  obtain ⟨d, hd, rfl⟩ := List.mem_map.mp he
  have hmem := Forest.mem_nodes_of_number hd
  obtain ⟨d', hd', hname, hlookup⟩ := lookup_dominators hDT hmem
  rw [← Forest.number_nodes DT 0] at hDT
  obtain rfl := List.inj_on_of_nodup_map hDT hd' hd hname
  exact ⟨hmem, by rw [infoOf, hlookup, Option.getD_some]⟩

end Numbers

/-! ## The order of instructions -/

structure OrderedInstructions where
  OBBMap : Nat → Option OrderedBasicBlock
  dominators : List (Nat × DFSInfo)

namespace OrderedInstructions

def create (blocks : Nat → Option bloc) (DT : Forest Nat) : OrderedInstructions where
  OBBMap number := (blocks number).map (OrderedBasicBlock.create number)
  dominators := compute_dominator_vector DT

def info (OI : OrderedInstructions) (BBI : Nat) : DFSInfo := infoOf OI.dominators BBI

/-- `dominates` of blocks -/
def dominatesBlock (OI : OrderedInstructions) (BBIA BBIB : Nat) : Bool :=
  if BBIA = BBIB then true
  else match OI.dominators.lookup BBIA, OI.dominators.lookup BBIB with
    -- An unreachable block is dominated by anything.
    | _, none => true
    -- And dominates nothing.
    | none, some _ => false
    | some a, some b => a.lt b

def dominates (OI : OrderedInstructions) (InstA InstB : node_stmt) :
    Except Error (Bool × OrderedInstructions) :=
  if InstA.bb_index = InstB.bb_index then
    match OI.OBBMap InstA.bb_index with
    | none => .error (.assertion ("BB" ++ toString InstA.bb_index ++ " not found"))
    | some OBB => do
      let (answer, OBB) ← OBB.dominates InstA InstB
      .ok (answer, { OI with OBBMap := Function.update OI.OBBMap InstA.bb_index (some OBB) })
  else .ok (OI.dominatesBlock InstA.bb_index InstB.bb_index, OI)

/-- The statement is one of a block of the tree. -/
def Located (blocks : Nat → Option bloc) (DT : Forest Nat) (stmt : node_stmt) : Prop :=
  stmt.bb_index ∈ DT.nodes ∧ ∃ BB, blocks stmt.bb_index = some BB ∧ BB.Has stmt

/-- Where a statement stands in its block. -/
def place (blocks : Nat → Option bloc) (stmt : node_stmt) : Nat ×ₗ Nat :=
  match blocks stmt.bb_index with
  | some BB => BB.place stmt
  | none => toLex (0, 0)

/-- Every block has been numbered up to some statement. -/
structure Ready (OI : OrderedInstructions) (blocks : Nat → Option bloc) (DT : Forest Nat) :
    Prop where
  dominators_eq : OI.dominators = compute_dominator_vector DT
  ready : ∀ number BB, blocks number = some BB →
    ∃ OBB, OI.OBBMap number = some OBB ∧ OBB.Ready number BB

/-- No statement stands twice in a block. -/
def Distinct (blocks : Nat → Option bloc) : Prop :=
  ∀ number BB, blocks number = some BB → (BB.CGetPhiList ++ BB.CGetStmtList).Nodup

variable {blocks : Nat → Option bloc} {DT : Forest Nat} {OI : OrderedInstructions}

theorem ready_create (hblocks : Distinct blocks) : (create blocks DT).Ready blocks DT where
  dominators_eq := rfl
  ready number BB hBB := by
    refine ⟨OrderedBasicBlock.create number BB, ?_, ?_⟩
    · simp only [create, hBB, Option.map_some]
    · exact OrderedBasicBlock.ready_create number (hblocks number BB hBB)

theorem dominatesBlock_iff (h : OI.Ready blocks DT) (hDT : DT.nodes.Nodup) {a b : Nat}
    (ha : a ∈ DT.nodes) (hb : b ∈ DT.nodes) :
    OI.dominatesBlock a b = true ↔ a = b ∨ DT.Above a b := by
  rw [dominatesBlock, h.dominators_eq]
  split
  case isTrue hab => exact iff_of_true rfl (Or.inl hab)
  case isFalse hab =>
    obtain ⟨d, -, -, hda⟩ := lookup_dominators hDT ha
    obtain ⟨e, -, -, heb⟩ := lookup_dominators hDT hb
    have hlt := lt_infoOf hDT ha hb
    rw [infoOf, infoOf, hda, heb, Option.getD_some, Option.getD_some] at hlt
    rw [hda, heb, or_iff_right hab]
    exact hlt

/-- Instructions are ordered by the tree and by their places, whatever has been numbered. -/
theorem dominates_spec (h : OI.Ready blocks DT) (hDT : DT.nodes.Nodup) {A B : node_stmt}
    (hA : Located blocks DT A) (hB : Located blocks DT B) :
    ∃ answer OI', OI.dominates A B = .ok (answer, OI') ∧ OI'.Ready blocks DT ∧
      (answer = true ↔ DT.PlaceLt node_stmt.bb_index (place blocks) A B) := by
  unfold dominates
  obtain ⟨hAtree, BBA, hBBA, hAin⟩ := hA
  obtain ⟨hBtree, BBB, hBBB, hBin⟩ := hB
  by_cases hsame : A.bb_index = B.bb_index
  case pos =>
    rw [if_pos hsame]
    obtain ⟨OBB, hOBB, hready⟩ := h.ready _ _ hBBA
    obtain rfl : BBA = BBB := Option.some.inj (hBBA.symm.trans (hsame ▸ hBBB))
    obtain ⟨OBB', hready', hrun⟩ := OrderedBasicBlock.dominates_spec hready rfl hsame.symm hAin hBin
    refine ⟨decide (BBA.place A < BBA.place B),
      { OI with OBBMap := Function.update OI.OBBMap A.bb_index (some OBB') }, ?_,
      ⟨h.dominators_eq, ?_⟩, ?_⟩
    · simp only [hOBB, hrun, ok_bind]
    · intro number BB hBB
      by_cases hn : number = A.bb_index
      · subst hn
        obtain rfl : BB = BBA := Option.some.inj (hBB.symm.trans hBBA)
        exact ⟨OBB', Function.update_self .., hready'⟩
      · obtain ⟨OBB₂, hOBB₂, hready₂⟩ := h.ready number BB hBB
        exact ⟨OBB₂, (Function.update_of_ne hn ..).trans hOBB₂, hready₂⟩
    · rw [decide_eq_true_iff, Forest.PlaceLt, place, place, hBBA, hBBB]
      have hirrefl : ¬ DT.Above A.bb_index B.bb_index :=
        fun habove => (hsame ▸ habove : DT.Above B.bb_index B.bb_index).irrefl hDT
      rw [or_iff_right hirrefl, and_iff_right hsame]
  case neg =>
    rw [if_neg hsame]
    refine ⟨_, _, rfl, h, ?_⟩
    rw [dominatesBlock_iff h hDT hAtree hBtree, Forest.PlaceLt]
    exact ⟨fun hor => Or.inl (hor.resolve_left hsame),
      fun hor => Or.inr (hor.resolve_right fun hp => hsame hp.1)⟩

end OrderedInstructions

end Bambu
