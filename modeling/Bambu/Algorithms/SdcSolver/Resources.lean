/-
  Bambu.Algorithms.SdcSolver.Resources

  What `solve_graph` needs while it runs: rounds, room in the circular queue, and steps
  of the predecessor walks.  `Reached` follows the loops edge by edge, so that its
  positions are those between two relaxations as well, and also those of runs that end
  without labels.
-/

import Bambu.Algorithms.SdcSolver.Solve

namespace Bambu.SdcSolver

open Bambu.Math

/-- Where `solve_graph` is: `rest` are the out-edges of `source` still to be looked at. -/
structure Position where
  source : Nat
  sourceDistance : Int
  rest : List AdjEdge
  state : SolverState

/-- `queue.pop_front()`, and all out-edges are still to be looked at. -/
def Position.pop (graph : SolverGraph) (position : Position) : Position :=
  let (source, queue) := position.state.queue.popFront
  { source
    sourceDistance := position.state.distances source
    rest := graph.outEdges source
    state :=
      { position.state with
        queue
        inQueue := Function.update position.state.inQueue source false } }

/-- The positions of the run of `solve_graph` on `graph`, from its first round on. -/
inductive Reached (graph : SolverGraph) : Position → Prop
  | seeded : graph.vertexCount ≠ 0 → graph.activeVertexCount ≠ 0 →
      Reached graph ⟨0, 0, [], initialState (seedQueue graph).1 (seedQueue graph).2⟩
  | popped {position : Position} : Reached graph position → position.rest = [] →
      position.state.queue.empty = false → Reached graph (position.pop graph)
  | relaxed {position : Position} {edge : AdjEdge} {rest : List AdjEdge} {state : SolverState} :
      Reached graph position → position.rest = edge :: rest →
      relaxEdge graph position.source position.sourceDistance position.state edge = .ok state →
      Reached graph { position with rest, state }

/-! ## The loops pass through reached positions -/

section Loops

variable {graph : SolverGraph}

theorem relaxEdges_reached {source : Nat} {sourceDistance : Int} {rest : List AdjEdge} :
    ∀ {state state' : SolverState}, Reached graph ⟨source, sourceDistance, rest, state⟩ →
      rest.foldlM (relaxEdge graph source sourceDistance) state = .ok state' →
      Reached graph ⟨source, sourceDistance, [], state'⟩ := by
  induction rest with
  | nil =>
    intro state state' h hrun
    injection hrun with hrun
    rw [← hrun]
    exact h
  | cons edge rest ih =>
    intro state state' h hrun
    rw [List.foldlM_cons] at hrun
    cases hstep : relaxEdge graph source sourceDistance state edge with
    | error stop =>
      rw [hstep] at hrun
      cases hrun
    | ok next =>
      rw [hstep] at hrun
      exact ih (h.relaxed rfl hstep) hrun

/-- A run of the main loop that ends with labels ends at a reached position. -/
theorem relaxLoop_reached (fuel : Nat) :
    ∀ {source : Nat} {sourceDistance : Int} {state state' : SolverState},
      Reached graph ⟨source, sourceDistance, [], state⟩ →
      relaxLoop graph fuel state = .ok state' →
      ∃ source' sourceDistance', Reached graph ⟨source', sourceDistance', [], state'⟩ := by
  induction fuel with
  | zero =>
    intro _ _ _ _ _ hrun
    cases hrun
  | succ fuel ih =>
    intro source sourceDistance state state' h hrun
    unfold relaxLoop at hrun
    split at hrun
    · injection hrun with hrun
      rw [← hrun]
      exact ⟨source, sourceDistance, h⟩
    · rename_i hempty
      dsimp only at hrun
      split at hrun
      · cases hrun
      · rename_i next hround
        have hpopped := h.popped rfl (Bool.eq_false_iff.mpr hempty)
        exact ih (relaxEdges_reached hpopped hround) hrun

end Loops

/-! ## The invariant at every position -/

variable {graph : SolverGraph} {edges : List Edge} {used : Finset Nat}

/-- The edges still to be looked at belong to the vertex being processed, whose label has
not changed since. -/
structure Position.Kept (graph : SolverGraph) (edges : List Edge) (used : Finset Nat)
    (position : Position) (pending : List Edge) (l : List Nat) : Prop where
  invariant : Invariant graph edges used pending l position.state
  rest : position.rest = pending.map toAdjEdge
  pending : ∀ e ∈ pending, e ∈ edges ∧ e.source = position.source ∧
    position.state.distances e.source = position.sourceDistance

/-- Every reached position keeps the invariant of the run. -/
theorem Reached.kept (hg : graph.Stores edges used) {position : Position}
    (h : Reached graph position) : ∃ pending l, position.Kept graph edges used pending l := by
  induction h with
  | seeded _ hactive =>
    obtain ⟨l, -, -, hinv⟩ := initial_invariant hg hactive
    exact ⟨[], l, hinv, rfl, fun e he => absurd he List.not_mem_nil⟩
  | @popped position _ hrest hempty ih =>
    obtain ⟨pending, l, hinv, hpending, -⟩ := ih
    have hnil : pending = [] := List.map_eq_nil_iff.mp (hpending.symm.trans hrest)
    subst hnil
    cases l with
    | nil =>
      rw [hinv.queue.empty_iff.mpr rfl] at hempty
      cases hempty
    | cons v l =>
      obtain ⟨hfront, -⟩ := hinv.queue.popFront
      have hv : v < graph.vertexCount := hg.used_lt v (hinv.queued_used v List.mem_cons_self)
      refine ⟨edges.filter fun e => e.source = v, l, ?_, ?_, ?_⟩
      · unfold Position.pop
        dsimp only
        rw [hfront]
        exact hinv.pop
      · show graph.outEdges position.state.queue.popFront.1 = _
        rw [hfront]
        exact hg.outEdges v hv
      · intro e he
        obtain ⟨hmem, hsource⟩ := List.mem_filter.mp he
        have hv : e.source = position.state.queue.popFront.1 :=
          (of_decide_eq_true hsource).trans hfront.symm
        exact ⟨hmem, hv, congrArg position.state.distances hv⟩
  | @relaxed position edge rest state _ hrest hstep ih =>
    obtain ⟨pending, l, hinv, hmap, hpending⟩ := ih
    rw [hrest] at hmap
    obtain ⟨e, pending', rfl, rfl, rfl⟩ := List.map_eq_cons_iff.mp hmap.symm
    obtain ⟨he, hsource, hdistance⟩ := hpending e List.mem_cons_self
    rw [← hsource, ← hdistance] at hstep
    rcases relaxEdge_spec hg he hinv with ⟨hfail, -⟩ | ⟨next, l', hok, hinv', hsame, -⟩
    · rw [hfail] at hstep
      cases hstep
    · rw [hok] at hstep
      injection hstep with hnext
      subst hnext
      refine ⟨pending', l', hinv', rfl, fun e' he' => ?_⟩
      obtain ⟨hmem, hsource', -⟩ := hpending e' (List.mem_cons_of_mem _ he')
      refine ⟨hmem, hsource', ?_⟩
      -- The target of the edge is another vertex, so the label of the source stays.
      show next.distances e'.source = position.sourceDistance
      rw [hsource', ← hsource, hsame]
      exact hdistance

/-- The graphs that `build_solver_graph` makes store the edges they are made of. -/
theorem buildSolverGraph_stores {constraints : List Edge} {graph : SolverGraph}
    (h : buildSolverGraph constraints = some graph) : ∃ edges used, graph.Stores edges used := by
  unfold buildSolverGraph at h
  split at h
  · -- Without constraints there is no vertex.
    injection h with h
    refine ⟨[], ∅, ?_⟩
    rw [← h]
    exact
      { outEdges := fun v hv => absurd hv (Nat.not_lt_zero v)
        source_ne := fun e he => absurd he List.not_mem_nil
        source_used := fun e he => absurd he List.not_mem_nil
        target_used := fun e he => absurd he List.not_mem_nil
        used_lt := fun v hv => absurd hv (Finset.notMem_empty v)
        card_used := rfl
        negative := fun v => by simp [SolverGraph.empty] }
  · dsimp only at h
    split at h
    · cases h
    split at h
    · injection h with h
      obtain ⟨used, hstores, -⟩ := buildDirectGraph_stores constraints
      exact ⟨_, used, h ▸ hstores⟩
    · injection h with h
      exact ⟨_, _, h ▸ buildCompactGraph_stores constraints (maxOriginalIdOf constraints)⟩

/-- `solve_graph` ends on every graph of constraints; at every position of the run the
queue has room for what it holds, and a predecessor walk from any vertex ends. -/
theorem solveGraph_resources (constraints : List Edge) (graph : SolverGraph)
    (hgraph : buildSolverGraph constraints = some graph) :
    (∃ bound, ∀ fuel, bound ≤ fuel → solveGraph fuel graph ≠ .error .outOfFuel) ∧
      ∀ position, Reached graph position →
        position.state.queue.count ≤ graph.activeVertexCount ∧
          ∀ target source weight, source < graph.vertexCount →
            ∃ closes state, closesNegativePredecessorCycle graph.vertexCount target source weight
              position.state = .ok (closes, state) := by
  obtain ⟨edges, used, hg⟩ := buildSolverGraph_stores hgraph
  refine ⟨?_, fun position hposition => ?_⟩
  · obtain ⟨bound, h⟩ := solveGraph_spec hg
    refine ⟨bound, fun fuel hfuel hrun => ?_⟩
    rcases h fuel hfuel with ⟨hno, -⟩ | ⟨d, hd, -⟩
    · rw [hno] at hrun
      cases hrun
    · rw [hd] at hrun
      cases hrun
  · obtain ⟨pending, l, hkept⟩ := hposition.kept hg
    refine ⟨?_, fun target source weight hsource => ?_⟩
    · have hle := hkept.invariant.queue.count_le
      rw [hkept.invariant.size, hg.card_used] at hle
      exact hle
    · obtain ⟨closes, seen, epoch, -, hwalk, -⟩ :=
        hkept.invariant.walk_ends hg target weight hsource
      exact ⟨closes, _, hwalk⟩

theorem solveGraph_resources_cycle : ∃ graph,
    buildSolverGraph [⟨0, 1, -2⟩, ⟨1, 2, -3⟩, ⟨2, 0, 4⟩] = some graph ∧
      ∃ bound, ∀ fuel, bound ≤ fuel → solveGraph fuel graph ≠ .error .outOfFuel :=
  ⟨_, rfl, (solveGraph_resources [⟨0, 1, -2⟩, ⟨1, 2, -3⟩, ⟨2, 0, 4⟩] _ rfl).1⟩

end Bambu.SdcSolver
