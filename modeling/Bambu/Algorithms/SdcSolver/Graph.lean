/-
  Bambu.Algorithms.SdcSolver.Graph

  The constraint map of `sdc_solver` and the graph that `build_solver_graph` makes of
  it: the edges without self constraints, grouped by source in one adjacency vector
  (`build_adjacency`), either under the original ids or under compact ones.

  A vector is a function from its indices; a `std::map` is the list of its entries in
  key order.
-/

import Bambu.Math.DifferenceSystem
import Mathlib.Data.List.Sort
import Mathlib.Data.Finset.Card

namespace Bambu.SdcSolver

open Bambu.Math

/-- `Edge`; also an entry `((source, target), weight)` of the constraint map. -/
abbrev Edge := DiffConstraint Nat

/-- `AdjEdge`. -/
structure AdjEdge where
  target : Nat
  weight : Int
  deriving DecidableEq, Repr, Inhabited

/-- The edge as its source's adjacency stores it. -/
def toAdjEdge (edge : Edge) : AdjEdge := ⟨edge.target, edge.weight⟩

/-- The key order of `std::pair`. -/
def keyLt (a b : Nat × Nat) : Bool := a.1 < b.1 || (a.1 = b.1 && a.2 < b.2)

/-- `sdc_solver::add_constraint`, on the entries in key order. -/
def addConstraint : List Edge → Nat → Nat → Int → List Edge
  | [], i, j, weight => [⟨i, j, weight⟩]
  | entry :: rest, i, j, weight =>
    if entry.source = i ∧ entry.target = j then
      if entry.weight > weight then ⟨i, j, weight⟩ :: rest else entry :: rest
    else if keyLt (i, j) (entry.source, entry.target) then ⟨i, j, weight⟩ :: entry :: rest
    else entry :: addConstraint rest i j weight

/-- A call's constraint is added to those that the map already stands for. -/
theorem satisfies_addConstraint (constraints : List Edge) (i j : Nat) (weight : Int)
    (V : Nat → Int) :
    Satisfies (addConstraint constraints i j weight) V ↔
      Satisfies constraints V ∧ V j - V i ≤ weight := by
  unfold Satisfies
  induction constraints with
  | nil => simp [addConstraint]
  | cons entry rest ih =>
    unfold addConstraint
    split
    · rename_i hkey
      obtain ⟨rfl, rfl⟩ := hkey
      split
      · simp only [List.forall_mem_cons]
        constructor
        · rintro ⟨hnew, hrest⟩
          exact ⟨⟨by omega, hrest⟩, hnew⟩
        · rintro ⟨⟨-, hrest⟩, hnew⟩
          exact ⟨hnew, hrest⟩
      · simp only [List.forall_mem_cons]
        constructor
        · rintro ⟨hold, hrest⟩
          exact ⟨⟨hold, hrest⟩, by omega⟩
        · rintro ⟨hold, -⟩
          exact hold
    · split
      · simp only [List.forall_mem_cons]
        constructor
        · rintro ⟨hnew, hold⟩
          exact ⟨hold, hnew⟩
        · rintro ⟨hold, hnew⟩
          exact ⟨hnew, hold⟩
      · simp only [List.forall_mem_cons, ih]
        rw [and_assoc]

/-- The weights stored are among those of the calls. -/
theorem totalWeight_addConstraint (constraints : List Edge) (i j : Nat) (weight : Int) :
    totalWeight (addConstraint constraints i j weight) ≤
      weight.natAbs + totalWeight constraints := by
  induction constraints with
  | nil => exact le_refl _
  | cons entry rest ih =>
    unfold addConstraint
    split
    · split
      · simp only [totalWeight_cons]
        omega
      · exact Nat.le_add_left _ _
    · split
      · simp only [totalWeight_cons]
        exact le_refl _
      · simp only [totalWeight_cons]
        omega

/-! ## The adjacency vector -/

/-- The first loop of `build_adjacency`: how many edges leave each vertex, one slot up. -/
def countOffsets (edges : List Edge) : Nat → Nat :=
  edges.foldl (fun offsets edge =>
    Function.update offsets (edge.source + 1) (offsets (edge.source + 1) + 1)) fun _ => 0

/-- The second loop of `build_adjacency`: the prefix sums. -/
def sumOffsets (vertexCount : Nat) (offsets : Nat → Nat) : Nat → Nat :=
  (List.range' 1 vertexCount).foldl (fun offsets vertex =>
    Function.update offsets vertex (offsets vertex + offsets (vertex - 1))) offsets

/-- One edge stored at its source's cursor. -/
def placeEdge (state : (Nat → Nat) × (Nat → AdjEdge)) (edge : Edge) :
    (Nat → Nat) × (Nat → AdjEdge) :=
  let (cursor, adjacency) := state
  (Function.update cursor edge.source (cursor edge.source + 1),
    Function.update adjacency (cursor edge.source) (toAdjEdge edge))

/-- `build_adjacency`: the offsets and the adjacency vector. -/
def buildAdjacency (vertexCount : Nat) (edges : List Edge) : (Nat → Nat) × (Nat → AdjEdge) :=
  let offsets := sumOffsets vertexCount (countOffsets edges)
  (offsets, (edges.foldl placeEdge (offsets, fun _ => default)).2)

/-- How many edges leave `vertex`. -/
def outDegree (edges : List Edge) (vertex : Nat) : Nat :=
  edges.countP fun edge => edge.source = vertex

/-- How many edges leave a vertex below `vertex`. -/
def degreeBelow (edges : List Edge) (vertex : Nat) : Nat :=
  edges.countP fun edge => edge.source < vertex

theorem degreeBelow_succ (edges : List Edge) (vertex : Nat) :
    degreeBelow edges (vertex + 1) = degreeBelow edges vertex + outDegree edges vertex := by
  induction edges with
  | nil => rfl
  | cons edge rest ih =>
    unfold degreeBelow outDegree at ih ⊢
    simp only [List.countP_cons, decide_eq_true_eq, Nat.lt_succ_iff] at ih ⊢
    split <;> split <;> split <;> omega

theorem degreeBelow_mono (edges : List Edge) {a b : Nat} (h : a ≤ b) :
    degreeBelow edges a ≤ degreeBelow edges b := by
  refine List.countP_mono_left fun edge _ hlt => ?_
  simp only [decide_eq_true_eq] at hlt ⊢
  exact lt_of_lt_of_le hlt h

theorem countOffsets_eq (edges : List Edge) :
    countOffsets edges 0 = 0 ∧ ∀ vertex, countOffsets edges (vertex + 1) = outDegree edges vertex := by
  -- From any start, the loop adds the degree.
  have hrun : ∀ (edges : List Edge) (start : Nat → Nat),
      let result := edges.foldl (fun offsets edge =>
        Function.update offsets (edge.source + 1) (offsets (edge.source + 1) + 1)) start
      result 0 = start 0 ∧
        ∀ vertex, result (vertex + 1) = start (vertex + 1) + outDegree edges vertex := by
    intro edges
    induction edges with
    | nil => exact fun start => ⟨rfl, fun vertex => rfl⟩
    | cons edge rest ih =>
      intro start
      obtain ⟨hzero, hsucc⟩ := ih (Function.update start (edge.source + 1)
        (start (edge.source + 1) + 1))
      refine ⟨hzero.trans ?_, fun vertex => (hsucc vertex).trans ?_⟩
      · rw [Function.update_of_ne (Nat.succ_ne_zero _).symm]
      · unfold outDegree
        rw [List.countP_cons, Function.update_apply]
        by_cases hv : edge.source = vertex
        · subst hv
          simp only [if_true, decide_true]
          omega
        · have hslot : vertex + 1 ≠ edge.source + 1 := fun h => hv (Nat.succ_injective h).symm
          rw [if_neg hslot]
          simp [hv]
  obtain ⟨hzero, hsucc⟩ := hrun edges fun _ => 0
  exact ⟨hzero, fun vertex => (hsucc vertex).trans (Nat.zero_add _)⟩

/-- The prefix sums are the offsets of the groups. -/
theorem sumOffsets_countOffsets (vertexCount : Nat) (edges : List Edge) {vertex : Nat}
    (h : vertex ≤ vertexCount) :
    sumOffsets vertexCount (countOffsets edges) vertex = degreeBelow edges vertex := by
  obtain ⟨hzero, hsucc⟩ := countOffsets_eq edges
  -- After `n` rounds the first `n + 1` entries are sums and the others still counts.
  have hrun : ∀ n, ∀ v, sumOffsets n (countOffsets edges) v =
      if v ≤ n then degreeBelow edges v else countOffsets edges v := by
    intro n
    induction n with
    | zero =>
      intro v
      rcases Nat.eq_zero_or_pos v with rfl | hpos
      · rw [if_pos (le_refl 0)]
        have hbelow : degreeBelow edges 0 = 0 := List.countP_eq_zero.mpr (by simp)
        rw [hbelow]
        exact hzero
      · rw [if_neg (by omega)]
        rfl
    | succ n ih =>
      intro v
      unfold sumOffsets at ih ⊢
      rw [List.range'_1_concat, List.foldl_append, List.foldl_cons, List.foldl_nil,
        Function.update_apply]
      split
      · rename_i hv
        rw [ih, ih, if_neg (by omega), if_pos (by omega), hv, if_pos (by omega), Nat.add_comm 1 n,
          hsucc, Nat.add_sub_cancel, degreeBelow_succ, Nat.add_comm]
      · rename_i hv
        rw [ih]
        split
        · rw [if_pos (by omega)]
        · rw [if_neg (by omega)]
  rw [hrun, if_pos h]

/-- Updating outside a range of indices does not change the values there. -/
theorem map_update_range' (f : Nat → AdjEdge) {start len index : Nat} (value : AdjEdge)
    (h : index < start ∨ start + len ≤ index) :
    (List.range' start len).map (Function.update f index value) =
      (List.range' start len).map f := by
  refine List.map_congr_left fun i hi => ?_
  have hmem := List.mem_range'_1.mp hi
  exact Function.update_of_ne (by omega) _ _

/-- The third loop: with the cursors at the ends of what is stored so far, each group
receives the edges of its vertex in order. -/
theorem placeEdges_spec (all : List Edge) (rest : List Edge) :
    ∀ (placed : List Edge) (cursor : Nat → Nat) (adjacency : Nat → AdjEdge),
      placed ++ rest = all →
      (∀ edge ∈ rest, cursor edge.source =
        degreeBelow all edge.source + outDegree placed edge.source) →
      (∀ v, (List.range' (degreeBelow all v) (outDegree placed v)).map adjacency =
        (placed.filter fun edge => edge.source = v).map toAdjEdge) →
      ∀ v, (List.range' (degreeBelow all v) (outDegree all v)).map
          (rest.foldl placeEdge (cursor, adjacency)).2 =
        (all.filter fun edge => edge.source = v).map toAdjEdge := by
  induction rest with
  | nil =>
    intro placed cursor adjacency hall _ hadj v
    rw [List.append_nil] at hall
    subst hall
    exact hadj v
  | cons edge rest ih =>
    intro placed cursor adjacency hall hcursor hadj v
    have hslot := hcursor edge List.mem_cons_self
    have hdegree : ∀ u, outDegree (placed ++ [edge]) u =
        outDegree placed u + if edge.source = u then 1 else 0 := by
      intro u
      unfold outDegree
      rw [List.countP_append, List.countP_singleton]
      simp only [decide_eq_true_eq]
    have hle : ∀ u, outDegree (placed ++ [edge]) u ≤ outDegree all u := by
      intro u
      unfold outDegree
      rw [← hall]
      exact ((List.Sublist.refl placed).append
        (List.singleton_sublist.mpr List.mem_cons_self)).countP_le
    rw [List.foldl_cons]
    refine ih (placed ++ [edge]) _ _ (by rw [← hall, List.append_assoc]; rfl) ?_ ?_ v
    · intro other hother
      have hold := hcursor other (List.mem_cons_of_mem _ hother)
      rw [hdegree, Function.update_apply]
      by_cases hs : other.source = edge.source
      · rw [if_pos hs, if_pos hs.symm, hs, hslot, Nat.add_assoc]
      · rw [if_neg hs, if_neg (Ne.symm hs), hold, Nat.add_zero]
    · intro u
      rw [hdegree, List.filter_append, List.map_append, hslot]
      have hnew := hle edge.source
      rw [hdegree, if_pos rfl] at hnew
      by_cases hu : edge.source = u
      · -- The edge's own group grows by the slot at its end.
        subst hu
        rw [if_pos rfl, List.range'_1_concat, List.map_append,
          map_update_range' adjacency _ (.inr (le_refl _)), hadj]
        simp
      · -- The slot lies in no other group.
        have hgroup := hle u
        rw [hdegree, if_neg hu] at hgroup
        have houtside : degreeBelow all edge.source + outDegree placed edge.source <
              degreeBelow all u ∨
            degreeBelow all u + outDegree placed u ≤
              degreeBelow all edge.source + outDegree placed edge.source := by
          rcases Nat.lt_or_gt_of_ne hu with hlt | hgt
          · have hmono := degreeBelow_mono all (Nat.succ_le_of_lt hlt)
            rw [Nat.succ_eq_add_one, degreeBelow_succ] at hmono
            exact .inl (by omega)
          · have hmono := degreeBelow_mono all (Nat.succ_le_of_lt hgt)
            rw [Nat.succ_eq_add_one, degreeBelow_succ] at hmono
            exact .inr (by omega)
        rw [if_neg hu, Nat.add_zero, map_update_range' adjacency _ houtside, hadj]
        simp [hu]

/-- The slice of a vertex holds its edges, in the order of the map. -/
theorem buildAdjacency_slice {vertexCount : Nat} {edges : List Edge}
    (hedges : ∀ edge ∈ edges, edge.source < vertexCount) {vertex : Nat} (h : vertex < vertexCount) :
    (List.range' ((buildAdjacency vertexCount edges).1 vertex)
        ((buildAdjacency vertexCount edges).1 (vertex + 1) -
          (buildAdjacency vertexCount edges).1 vertex)).map (buildAdjacency vertexCount edges).2 =
      (edges.filter fun edge => edge.source = vertex).map toAdjEdge := by
  have hoffset : ∀ v, v ≤ vertexCount →
      (buildAdjacency vertexCount edges).1 v = degreeBelow edges v :=
    fun v hv => sumOffsets_countOffsets vertexCount edges hv
  rw [hoffset _ h.le, hoffset _ h, degreeBelow_succ, Nat.add_sub_cancel_left]
  refine placeEdges_spec edges edges [] _ _ rfl ?_ (fun v => rfl) vertex
  intro edge hedge
  exact sumOffsets_countOffsets vertexCount edges (hedges edge hedge).le

/-! ## The two representations -/

/-- `SolverGraph`. -/
structure SolverGraph where
  vertexCount : Nat
  activeVertexCount : Nat
  maxOriginalId : Nat
  compactIds : Bool
  originalIds : List Nat
  active : Nat → Bool
  offsets : Nat → Nat
  adjacency : Nat → AdjEdge
  hasNegativeOutgoingEdge : Nat → Bool

/-- `SolverGraph{}`. -/
def SolverGraph.empty : SolverGraph where
  vertexCount := 0
  activeVertexCount := 0
  maxOriginalId := 0
  compactIds := false
  originalIds := []
  active := fun _ => false
  offsets := fun _ => 0
  adjacency := fun _ => default
  hasNegativeOutgoingEdge := fun _ => false

/-- `if(!graph.active[v]) { graph.active[v] = 1; ++graph.active_vertex_count; }`. -/
def markActive (state : (Nat → Bool) × Nat) (v : Nat) : (Nat → Bool) × Nat :=
  if state.1 v then state else (Function.update state.1 v true, state.2 + 1)

/-- The flags and the number of the vertices that occur in a constraint. -/
def markAll (constraints : List Edge) : (Nat → Bool) × Nat :=
  constraints.foldl (fun state entry => markActive (markActive state entry.source) entry.target)
    (fun _ => false, 0)

/-- The edges of a graph: self constraints are skipped. -/
def properEdges (edges : List Edge) : List Edge := edges.filter fun edge => edge.source ≠ edge.target

/-- `has_negative_outgoing_edge`, set along the edges. -/
def markNegative (edges : List Edge) : Nat → Bool :=
  edges.foldl (fun flags edge =>
    if edge.weight < 0 then Function.update flags edge.source true else flags) fun _ => false

/-- `build_direct_graph`. -/
def buildDirectGraph (constraints : List Edge) (maxOriginalId : Nat) : SolverGraph :=
  let vertexCount := maxOriginalId + 1
  let (active, activeVertexCount) := markAll constraints
  let edges := properEdges constraints
  let (offsets, adjacency) := buildAdjacency vertexCount edges
  { vertexCount, activeVertexCount, maxOriginalId, compactIds := false, originalIds := [], active,
    offsets, adjacency, hasNegativeOutgoingEdge := markNegative edges }

/-- `std::unique`: only the first of equal neighbours is kept. -/
def unique : List Nat → List Nat
  | a :: b :: rest => if a = b then unique (b :: rest) else a :: unique (b :: rest)
  | short => short

/-- `original_ids`, sorted and without duplicates. -/
def originalIdsOf (constraints : List Edge) : List Nat :=
  unique ((constraints.flatMap fun entry => [entry.source, entry.target]).mergeSort
    fun a b => decide (a ≤ b))

/-- `build_compact_graph`: `compact_id` is the position in `original_ids`. -/
def buildCompactGraph (constraints : List Edge) (maxOriginalId : Nat) : SolverGraph :=
  let originalIds := originalIdsOf constraints
  let vertexCount := originalIds.length
  let edges := properEdges (constraints.map (DiffConstraint.map fun id => originalIds.idxOf id))
  let (offsets, adjacency) := buildAdjacency vertexCount edges
  { vertexCount, activeVertexCount := vertexCount, maxOriginalId, compactIds := true, originalIds,
    active := fun _ => false, offsets, adjacency, hasNegativeOutgoingEdge := markNegative edges }

/-- `invalid_vertex`. -/
def invalidVertex : Nat := 2 ^ 32 - 1

/-- `max_original_id`, as the first loop of `build_solver_graph` finds it. -/
def maxOriginalIdOf (constraints : List Edge) : Nat :=
  constraints.foldl (fun id entry => max (max id entry.source) entry.target) 0

/-- `source == target && weight < 0` for some constraint. -/
def hasNegativeSelf (constraints : List Edge) : Bool :=
  constraints.any fun entry => entry.source = entry.target && entry.weight < 0

/-- `build_solver_graph`: no graph where a self constraint cannot hold. -/
def buildSolverGraph (constraints : List Edge) : Option SolverGraph :=
  if constraints.isEmpty then some SolverGraph.empty
  else
    let maxOriginalId := maxOriginalIdOf constraints
    if hasNegativeSelf constraints then none
    else
      let denseLimit := constraints.length * 4 + 1024
      if maxOriginalId ≤ denseLimit ∧ maxOriginalId ≠ invalidVertex then
        some (buildDirectGraph constraints maxOriginalId)
      else some (buildCompactGraph constraints maxOriginalId)

/-! ## What the solver needs of a graph -/

/-- The out-edges of a vertex, as the loop over the adjacency vector meets them. -/
def SolverGraph.outEdges (graph : SolverGraph) (vertex : Nat) : List AdjEdge :=
  (List.range' (graph.offsets vertex) (graph.offsets (vertex + 1) - graph.offsets vertex)).map
    graph.adjacency

/-- `graph` stores the edges `edges`, and `activeVertexCount` counts the vertices they
use, and maybe more. -/
structure SolverGraph.Stores (graph : SolverGraph) (edges : List Edge) (used : Finset Nat) :
    Prop where
  outEdges : ∀ v < graph.vertexCount,
    graph.outEdges v = (edges.filter fun edge => edge.source = v).map toAdjEdge
  source_ne : ∀ edge ∈ edges, edge.source ≠ edge.target
  source_used : ∀ edge ∈ edges, edge.source ∈ used
  target_used : ∀ edge ∈ edges, edge.target ∈ used
  used_lt : ∀ v ∈ used, v < graph.vertexCount
  card_used : used.card = graph.activeVertexCount
  negative : ∀ v, graph.hasNegativeOutgoingEdge v = true ↔
    ∃ edge ∈ edges, edge.source = v ∧ edge.weight < 0

theorem markNegative_iff (edges : List Edge) (v : Nat) :
    markNegative edges v = true ↔ ∃ edge ∈ edges, edge.source = v ∧ edge.weight < 0 := by
  have hrun : ∀ (edges : List Edge) (start : Nat → Bool),
      edges.foldl (fun flags edge =>
        if edge.weight < 0 then Function.update flags edge.source true else flags) start v = true ↔
      start v = true ∨ ∃ edge ∈ edges, edge.source = v ∧ edge.weight < 0 := by
    intro edges
    induction edges with
    | nil => exact fun start => by simp
    | cons edge rest ih =>
      intro start
      rw [List.foldl_cons, ih]
      simp only [List.exists_mem_cons_iff]
      by_cases hw : edge.weight < 0
      · rw [if_pos hw, Function.update_apply]
        by_cases hv : edge.source = v
        · rw [if_pos hv.symm]
          simp [hv, hw]
        · rw [if_neg (Ne.symm hv)]
          simp [hv]
      · rw [if_neg hw]
        simp [hw]
  rw [markNegative, hrun]
  simp

/-- The flags mark the vertices of the constraints, and the count is their number. -/
theorem markAll_spec (constraints : List Edge) : ∃ used : Finset Nat,
    (∀ v, (markAll constraints).1 v = true ↔ v ∈ used) ∧
      used.card = (markAll constraints).2 ∧
      ∀ v, v ∈ used ↔ ∃ entry ∈ constraints, v = entry.source ∨ v = entry.target := by
  have hone : ∀ (state : (Nat → Bool) × Nat) (used : Finset Nat) (v : Nat),
      (∀ u, state.1 u = true ↔ u ∈ used) → used.card = state.2 →
      (∀ u, (markActive state v).1 u = true ↔ u ∈ insert v used) ∧
        (insert v used).card = (markActive state v).2 := by
    intro state used v hflags hcard
    unfold markActive
    split
    · rename_i hv
      rw [Finset.insert_eq_of_mem ((hflags v).mp hv)]
      exact ⟨hflags, hcard⟩
    · rename_i hv
      rw [Finset.card_insert_of_notMem (mt (hflags v).mpr hv), hcard]
      refine ⟨fun u => ?_, rfl⟩
      simp only [Function.update_apply, Finset.mem_insert]
      by_cases hu : u = v
      · simp [hu]
      · simp [hu, hflags u]
  have hrun : ∀ (constraints : List Edge) (state : (Nat → Bool) × Nat) (used : Finset Nat),
      (∀ u, state.1 u = true ↔ u ∈ used) → used.card = state.2 →
      ∃ used' : Finset Nat,
        (∀ v, (constraints.foldl (fun state entry =>
          markActive (markActive state entry.source) entry.target) state).1 v = true ↔ v ∈ used') ∧
        used'.card = (constraints.foldl (fun state entry =>
          markActive (markActive state entry.source) entry.target) state).2 ∧
        ∀ v, v ∈ used' ↔ v ∈ used ∨ ∃ entry ∈ constraints, v = entry.source ∨ v = entry.target := by
    intro constraints
    induction constraints with
    | nil => exact fun state used hflags hcard => ⟨used, hflags, hcard, by simp⟩
    | cons entry rest ih =>
      intro state used hflags hcard
      obtain ⟨hflags₁, hcard₁⟩ := hone state used entry.source hflags hcard
      obtain ⟨hflags₂, hcard₂⟩ := hone _ _ entry.target hflags₁ hcard₁
      obtain ⟨used', hflags', hcard', hmem⟩ := ih _ _ hflags₂ hcard₂
      refine ⟨used', hflags', hcard', fun v => (hmem v).trans ?_⟩
      simp only [Finset.mem_insert, List.exists_mem_cons_iff]
      generalize (∃ other ∈ rest, v = other.source ∨ v = other.target) = later
      tauto
  obtain ⟨used, hflags, hcard, hmem⟩ := hrun constraints (fun _ => false, 0) ∅ (by simp) rfl
  exact ⟨used, hflags, hcard, fun v => (hmem v).trans (by simp)⟩

theorem le_maxOriginalIdOf {constraints : List Edge} {entry : Edge} (h : entry ∈ constraints) :
    entry.source ≤ maxOriginalIdOf constraints ∧ entry.target ≤ maxOriginalIdOf constraints := by
  have hrun : ∀ (constraints : List Edge) (start : Nat),
      start ≤ constraints.foldl (fun id entry => max (max id entry.source) entry.target) start ∧
      ∀ entry ∈ constraints,
        entry.source ≤ constraints.foldl
          (fun id entry => max (max id entry.source) entry.target) start ∧
        entry.target ≤ constraints.foldl
          (fun id entry => max (max id entry.source) entry.target) start := by
    intro constraints
    induction constraints with
    | nil => exact fun start => ⟨le_refl _, fun entry h => absurd h List.not_mem_nil⟩
    | cons first rest ih =>
      intro start
      obtain ⟨hstart, hrest⟩ := ih (max (max start first.source) first.target)
      rw [List.foldl_cons]
      refine ⟨by omega, fun entry h => ?_⟩
      rcases List.mem_cons.mp h with rfl | hmem
      · constructor <;> omega
      · exact hrest entry hmem
  exact (hrun constraints 0).2 entry h

theorem mem_properEdges {edges : List Edge} {edge : Edge} :
    edge ∈ properEdges edges ↔ edge ∈ edges ∧ edge.source ≠ edge.target := by
  unfold properEdges
  rw [List.mem_filter, decide_eq_true_eq]

/-- Without negative self constraints the proper edges say the same. -/
theorem satisfies_properEdges {edges : List Edge} (h : hasNegativeSelf edges = false)
    (V : Nat → Int) : Satisfies (properEdges edges) V ↔ Satisfies edges V := by
  constructor
  · intro hV edge hedge
    by_cases hself : edge.source = edge.target
    · have hw : ¬ edge.weight < 0 := by
        intro hlt
        have htrue : hasNegativeSelf edges = true :=
          List.any_eq_true.mpr ⟨edge, hedge, by simp [hself, hlt]⟩
        exact Bool.false_ne_true (h.symm.trans htrue)
      rw [hself]
      omega
    · exact hV edge (mem_properEdges.mpr ⟨hedge, hself⟩)
  · intro hV edge hedge
    exact hV edge (mem_properEdges.mp hedge).1

/-- A negative self constraint has no solution. -/
theorem not_feasible_of_hasNegativeSelf {edges : List Edge} (h : hasNegativeSelf edges = true) :
    ¬ Feasible edges := by
  rintro ⟨V, hV⟩
  obtain ⟨edge, hedge, htest⟩ := List.any_eq_true.mp h
  simp only [Bool.and_eq_true, decide_eq_true_eq] at htest
  obtain ⟨hself, hw⟩ := htest
  have hle := hV edge hedge
  rw [hself] at hle
  omega

theorem totalWeight_properEdges (edges : List Edge) :
    totalWeight (properEdges edges) ≤ totalWeight edges := by
  induction edges with
  | nil => exact le_refl _
  | cons edge rest ih =>
    unfold properEdges at ih ⊢
    rw [List.filter_cons, totalWeight_cons]
    split
    · rw [totalWeight_cons]
      exact Nat.add_le_add_left ih _
    · exact le_trans ih (Nat.le_add_left _ _)

/-- The direct graph stores the proper edges under their own ids. -/
theorem buildDirectGraph_stores (constraints : List Edge) : ∃ used : Finset Nat,
    (buildDirectGraph constraints (maxOriginalIdOf constraints)).Stores
      (properEdges constraints) used ∧
    ∀ v, (buildDirectGraph constraints (maxOriginalIdOf constraints)).active v = true ↔
      v ∈ used := by
  obtain ⟨used, hflags, hcard, hmem⟩ := markAll_spec constraints
  have hlt : ∀ edge ∈ properEdges constraints, edge.source < maxOriginalIdOf constraints + 1 :=
    fun edge hedge =>
      Nat.lt_succ_of_le (le_maxOriginalIdOf (mem_properEdges.mp hedge).1).1
  refine ⟨used, ?_, hflags⟩
  exact
    { outEdges := fun v hv => buildAdjacency_slice hlt hv
      source_ne := fun edge hedge => (mem_properEdges.mp hedge).2
      source_used := fun edge hedge =>
        (hmem _).mpr ⟨edge, (mem_properEdges.mp hedge).1, .inl rfl⟩
      target_used := fun edge hedge =>
        (hmem _).mpr ⟨edge, (mem_properEdges.mp hedge).1, .inr rfl⟩
      used_lt := by
        intro v hv
        obtain ⟨entry, hentry, hends⟩ := (hmem v).mp hv
        obtain ⟨hs, ht⟩ := le_maxOriginalIdOf hentry
        refine Nat.lt_succ_of_le ?_
        rcases hends with rfl | rfl
        · exact hs
        · exact ht
      card_used := hcard
      negative := markNegative_iff _ }

/-! ## Compact ids -/

theorem mem_unique (l : List Nat) (v : Nat) : v ∈ unique l ↔ v ∈ l := by
  induction l using unique.induct with
  | case1 b rest ih =>
    rw [unique, if_pos rfl, ih]
    simp
  | case2 a b rest hne ih =>
    rw [unique, if_neg hne]
    simp only [List.mem_cons] at ih ⊢
    rw [ih]
  | case3 short hshort =>
    rw [unique]
    exact hshort

/-- Sorted neighbours that differ are increasing. -/
theorem unique_pairwise {l : List Nat} (h : l.Pairwise (· ≤ ·)) : (unique l).Pairwise (· < ·) := by
  induction l using unique.induct with
  | case1 b rest ih =>
    rw [unique, if_pos rfl]
    exact ih (List.pairwise_cons.mp h).2
  | case2 a b rest hne ih =>
    obtain ⟨ha, hrest⟩ := List.pairwise_cons.mp h
    rw [unique, if_neg hne]
    refine List.pairwise_cons.mpr ⟨fun v hv => ?_, ih hrest⟩
    have hb : a < b := lt_of_le_of_ne (ha b List.mem_cons_self) hne
    rcases List.mem_cons.mp ((mem_unique _ v).mp hv) with rfl | hmem
    · exact hb
    · exact lt_of_lt_of_le hb ((List.pairwise_cons.mp hrest).1 v hmem)
  | case3 short hshort =>
    rw [unique]
    · match short, hshort with
      | [], _ => exact List.Pairwise.nil
      | [a], _ => exact List.pairwise_singleton _ _
      | a :: b :: rest, hshort => exact absurd rfl (hshort a b rest)
    · exact hshort

theorem mem_originalIdsOf (constraints : List Edge) (v : Nat) :
    v ∈ originalIdsOf constraints ↔ ∃ entry ∈ constraints, v = entry.source ∨ v = entry.target := by
  unfold originalIdsOf
  rw [mem_unique, List.mem_mergeSort, List.mem_flatMap]
  simp

theorem originalIdsOf_pairwise (constraints : List Edge) :
    (originalIdsOf constraints).Pairwise (· < ·) := by
  refine unique_pairwise ?_
  have hsorted := @List.pairwise_mergeSort Nat (fun a b => decide (a ≤ b))
    (fun a b c hab hbc => by
      simp only [decide_eq_true_eq] at hab hbc ⊢
      exact le_trans hab hbc)
    (fun a b => by
      simp only [Bool.or_eq_true, decide_eq_true_eq]
      exact le_total a b)
    (constraints.flatMap fun entry => [entry.source, entry.target])
  exact hsorted.imp fun h => of_decide_eq_true h

/-- The original id behind a compact one. -/
theorem getD_idxOf {l : List Nat} {v : Nat} (h : v ∈ l) : l.getD (l.idxOf v) 0 = v := by
  have hlt := List.idxOf_lt_length_of_mem h
  rw [List.getD_eq_getElem?_getD, List.getElem?_eq_getElem hlt, Option.getD_some]
  exact List.getElem_idxOf hlt

theorem properEdges_map (constraints : List Edge) (f g : Nat → Nat)
    (hg : ∀ e ∈ constraints, g (f e.source) = e.source ∧ g (f e.target) = e.target) :
    properEdges (constraints.map (DiffConstraint.map f)) =
      (properEdges constraints).map (DiffConstraint.map f) := by
  induction constraints with
  | nil => rfl
  | cons entry rest ih =>
    obtain ⟨hs, ht⟩ := hg entry List.mem_cons_self
    have hrest := ih fun e he => hg e (List.mem_cons_of_mem _ he)
    have hiff : f entry.source = f entry.target ↔ entry.source = entry.target := by
      constructor
      · intro h
        rw [← hs, h, ht]
      · intro h
        rw [h]
    unfold properEdges at hrest ⊢
    rw [List.map_cons, List.filter_cons, List.filter_cons, hrest]
    simp only [DiffConstraint.map, ne_eq, hiff]
    split
    · rfl
    · rfl

theorem originalIds_inverse (constraints : List Edge) : ∀ e ∈ constraints,
    (originalIdsOf constraints).getD ((originalIdsOf constraints).idxOf e.source) 0 = e.source ∧
      (originalIdsOf constraints).getD ((originalIdsOf constraints).idxOf e.target) 0 =
        e.target := by
  intro e he
  exact ⟨getD_idxOf ((mem_originalIdsOf _ _).mpr ⟨e, he, .inl rfl⟩),
    getD_idxOf ((mem_originalIdsOf _ _).mpr ⟨e, he, .inr rfl⟩)⟩

/-- The compact graph stores the proper edges between positions in `original_ids`. -/
theorem buildCompactGraph_stores (constraints : List Edge) (maxOriginalId : Nat) :
    (buildCompactGraph constraints maxOriginalId).Stores
      ((properEdges constraints).map
        (DiffConstraint.map fun id => (originalIdsOf constraints).idxOf id))
      (Finset.range (originalIdsOf constraints).length) := by
  rw [← properEdges_map constraints _ (fun i => (originalIdsOf constraints).getD i 0)
    (originalIds_inverse constraints)]
  have hpos : ∀ v, (∃ entry ∈ constraints, v = entry.source ∨ v = entry.target) →
      (originalIdsOf constraints).idxOf v < (originalIdsOf constraints).length :=
    fun v hv => List.idxOf_lt_length_of_mem ((mem_originalIdsOf constraints v).mpr hv)
  have hlt : ∀ edge ∈ properEdges (constraints.map
      (DiffConstraint.map fun id => (originalIdsOf constraints).idxOf id)),
      edge.source < (originalIdsOf constraints).length ∧
        edge.target < (originalIdsOf constraints).length := by
    intro edge hedge
    obtain ⟨entry, hentry, rfl⟩ := List.mem_map.mp (mem_properEdges.mp hedge).1
    exact ⟨hpos _ ⟨entry, hentry, .inl rfl⟩, hpos _ ⟨entry, hentry, .inr rfl⟩⟩
  exact
    { outEdges := fun v hv => buildAdjacency_slice (fun edge hedge => (hlt edge hedge).1) hv
      source_ne := fun edge hedge => (mem_properEdges.mp hedge).2
      source_used := fun edge hedge => Finset.mem_range.mpr (hlt edge hedge).1
      target_used := fun edge hedge => Finset.mem_range.mpr (hlt edge hedge).2
      used_lt := fun v hv => Finset.mem_range.mp hv
      card_used := Finset.card_range _
      negative := markNegative_iff _ }

end Bambu.SdcSolver
