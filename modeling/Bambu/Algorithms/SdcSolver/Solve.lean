/-
  Bambu.Algorithms.SdcSolver.Solve

  `solve_graph`: labels are lowered along the edges of queued vertices until no queued
  vertex is left, or until a path of relaxations is as long as there are active
  vertices, or a predecessor walk closes a negative cycle.

  What a run keeps is `Invariant`:
    * the queue holds each vertex once, and the edges of the others hold;
    * every label has a trace, of the length that `path_edge_count` stores;
    * every predecessor is the source of an edge.
  Each relaxation lowers a label that the trace bounds from below, which gives the
  number of rounds; both early tests fire only where the system has no solution.
-/

import Bambu.Algorithms.SdcSolver.Graph
import Bambu.Algorithms.SdcSolver.Queue
import Mathlib.Algebra.Order.BigOperators.Group.Finset

namespace Bambu.SdcSolver

open Bambu.Math

/-- How the solver ends without labels. -/
inductive Stop
  /-- `feasible = false`. -/
  | infeasible
  /-- A loop was cut before its end. -/
  | outOfFuel
  deriving DecidableEq, Repr

/-- The local variables of `solve_graph`. -/
structure SolverState where
  distances : Nat → Int
  inQueue : Nat → Bool
  queue : CircularQueue
  predecessor : Nat → Nat
  predecessorWeight : Nat → Int
  pathEdgeCount : Nat → Nat
  seen : Nat → Nat
  epoch : Nat

/-- The `while` loop of `closes_negative_predecessor_cycle`. -/
def predecessorWalk (target : Nat) (predecessor : Nat → Nat) (predecessorWeight : Nat → Int)
    (epoch : Nat) : Nat → Nat → Int → (Nat → Nat) → Except Stop (Bool × (Nat → Nat))
  | 0, _, _, _ => .error .outOfFuel
  | fuel + 1, vertex, cycleWeight, seen =>
    if vertex = invalidVertex then .ok (false, seen)
    else if vertex = target then .ok (decide (cycleWeight < 0), seen)
    else if seen vertex = epoch then .ok (false, seen)
    else
      let seen := Function.update seen vertex epoch
      let parent := predecessor vertex
      if parent = invalidVertex then .ok (false, seen)
      else predecessorWalk target predecessor predecessorWeight epoch fuel parent
        (cycleWeight + predecessorWeight vertex) seen

/-- `closes_negative_predecessor_cycle`: its answer and the state with the new `seen`
and `epoch`.  The walk visits a vertex at most once. -/
def closesNegativePredecessorCycle (vertexCount target source : Nat) (edgeWeight : Int)
    (state : SolverState) : Except Stop (Bool × SolverState) :=
  let epoch := (state.epoch + 1) % 2 ^ 32
  let seen := if epoch = 0 then fun _ => 0 else state.seen
  let epoch := if epoch = 0 then 1 else epoch
  (predecessorWalk target state.predecessor state.predecessorWeight epoch (vertexCount + 1) source
    edgeWeight seen).map fun result => (result.1, { state with seen := result.2, epoch })

/-- The lambda `push`. -/
def push (state : SolverState) (vertex : Nat) : SolverState :=
  if state.inQueue vertex then state
  else
    let queue :=
      if !state.queue.empty ∧ state.distances vertex < state.distances state.queue.front then
        state.queue.pushFront vertex
      else state.queue.pushBack vertex
    { state with queue, inQueue := Function.update state.inQueue vertex true }

/-- The new label of `edge.target`. -/
def improve (state : SolverState) (source : Nat) (candidate : Int) (edge : AdjEdge) : SolverState :=
  { state with
    distances := Function.update state.distances edge.target candidate
    predecessor := Function.update state.predecessor edge.target source
    predecessorWeight := Function.update state.predecessorWeight edge.target edge.weight
    pathEdgeCount :=
      Function.update state.pathEdgeCount edge.target (state.pathEdgeCount source + 1) }

/-- The body of the loop over the out-edges of `source`. -/
def relaxEdge (graph : SolverGraph) (source : Nat) (sourceDistance : Int) (state : SolverState)
    (edge : AdjEdge) : Except Stop SolverState :=
  let candidate := sourceDistance + edge.weight
  if candidate < state.distances edge.target then
    let candidateEdgeCount := state.pathEdgeCount source + 1
    if candidateEdgeCount ≥ graph.activeVertexCount then .error .infeasible
    else
      match closesNegativePredecessorCycle graph.vertexCount edge.target source edge.weight state with
      | .error stop => .error stop
      | .ok (true, _) => .error .infeasible
      | .ok (false, state) => .ok (push (improve state source candidate edge) edge.target)
  else .ok state

/-- `while(!queue.empty())`. -/
def relaxLoop (graph : SolverGraph) : Nat → SolverState → Except Stop SolverState
  | 0, _ => .error .outOfFuel
  | fuel + 1, state =>
    if state.queue.empty then .ok state
    else
      let (source, queue) := state.queue.popFront
      let state := { state with queue, inQueue := Function.update state.inQueue source false }
      match (graph.outEdges source).foldlM (relaxEdge graph source (state.distances source)) state with
      | .error stop => .error stop
      | .ok state => relaxLoop graph fuel state

/-- The queue is seeded with the sources of negative edges. -/
def seedQueue (graph : SolverGraph) : CircularQueue × (Nat → Bool) :=
  (List.range graph.vertexCount).foldl (fun (queue, inQueue) vertex =>
    if graph.hasNegativeOutgoingEdge vertex then
      (queue.pushBack vertex, Function.update inQueue vertex true)
    else (queue, inQueue)) (CircularQueue.new graph.activeVertexCount, fun _ => false)

/-- The state before the first round. -/
def initialState (queue : CircularQueue) (inQueue : Nat → Bool) : SolverState where
  distances := fun _ => 0
  inQueue := inQueue
  queue := queue
  predecessor := fun _ => invalidVertex
  predecessorWeight := fun _ => 0
  pathEdgeCount := fun _ => 0
  seen := fun _ => 0
  epoch := 0

/-- `solve_graph`; `fuel` bounds the rounds of its main loop. -/
def solveGraph (fuel : Nat) (graph : SolverGraph) : Except Stop (Nat → Int) :=
  if graph.vertexCount = 0 ∨ graph.activeVertexCount = 0 then .ok fun _ => 0
  else
    let (queue, inQueue) := seedQueue graph
    if queue.empty then .ok fun _ => 0
    else (relaxLoop graph fuel (initialState queue inQueue)).map SolverState.distances

/-! ## The predecessor walk -/

/-- The vertices that a walk of `epoch` may still visit. -/
def unseen (vertexCount epoch : Nat) (seen : Nat → Nat) : Finset Nat :=
  (Finset.range vertexCount).filter fun v => seen v ≠ epoch

theorem card_unseen_update {vertexCount epoch : Nat} {seen : Nat → Nat} {v : Nat}
    (hv : v < vertexCount) (hseen : seen v ≠ epoch) :
    (unseen vertexCount epoch (Function.update seen v epoch)).card <
      (unseen vertexCount epoch seen).card := by
  refine Finset.card_lt_card (Finset.ssubset_iff_subset_ne.mpr ⟨?_, ?_⟩)
  · intro u hu
    obtain ⟨hlt, hne⟩ := Finset.mem_filter.mp hu
    refine Finset.mem_filter.mpr ⟨hlt, ?_⟩
    rw [Function.update_apply] at hne
    split at hne
    · exact absurd rfl hne
    · exact hne
  · intro heq
    have hmem : v ∈ unseen vertexCount epoch seen :=
      Finset.mem_filter.mpr ⟨Finset.mem_range.mpr hv, hseen⟩
    rw [← heq] at hmem
    exact (Finset.mem_filter.mp hmem).2 (Function.update_self ..)

section Walk

variable {edges : List Edge} {target vertexCount epoch : Nat} {predecessor : Nat → Nat}
  {predecessorWeight : Nat → Int}

/-- A walk over predecessors ends before it has visited a vertex twice. -/
theorem predecessorWalk_ends
    (hpred : ∀ v, predecessor v ≠ invalidVertex → predecessor v < vertexCount) :
    ∀ (fuel vertex : Nat) (cycleWeight : Int) (seen : Nat → Nat),
      (unseen vertexCount epoch seen).card < fuel →
      (vertex ≠ invalidVertex → vertex < vertexCount) →
      ∃ result, predecessorWalk target predecessor predecessorWeight epoch fuel vertex cycleWeight
        seen = .ok result := by
  intro fuel
  induction fuel with
  | zero => exact fun _ _ _ h => absurd h (Nat.not_lt_zero _)
  | succ fuel ih =>
    intro vertex cycleWeight seen hfuel hvertex
    unfold predecessorWalk
    by_cases hinv : vertex = invalidVertex
    · exact ⟨_, if_pos hinv⟩
    rw [if_neg hinv]
    by_cases htarget : vertex = target
    · exact ⟨_, if_pos htarget⟩
    rw [if_neg htarget]
    by_cases hseen : seen vertex = epoch
    · exact ⟨_, if_pos hseen⟩
    rw [if_neg hseen]
    dsimp only
    by_cases hparent : predecessor vertex = invalidVertex
    · exact ⟨_, if_pos hparent⟩
    rw [if_neg hparent]
    have hcard := card_unseen_update (hvertex hinv) hseen
    exact ih _ _ _ (by omega) (fun _ => hpred vertex hparent)

/-- With a solution of the system, no cycle that a walk closes is negative. -/
theorem predecessorWalk_not_negative {V : Nat → Int} (hV : Satisfies edges V)
    (hpred : ∀ v, predecessor v ≠ invalidVertex →
      (⟨predecessor v, v, predecessorWeight v⟩ : Edge) ∈ edges) :
    ∀ (fuel vertex : Nat) (cycleWeight : Int) (seen seen' : Nat → Nat),
      V target - V vertex ≤ cycleWeight →
      predecessorWalk target predecessor predecessorWeight epoch fuel vertex cycleWeight seen ≠
        .ok (true, seen') := by
  intro fuel
  induction fuel with
  | zero =>
    intro vertex cycleWeight seen seen' _ h
    cases h
  | succ fuel ih =>
    intro vertex cycleWeight seen seen' hcycle h
    unfold predecessorWalk at h
    split at h
    · cases h
    split at h
    · rename_i htarget
      injection h with h
      injection h with hneg _
      rw [decide_eq_true_eq] at hneg
      rw [htarget] at hcycle
      omega
    split at h
    · cases h
    dsimp only at h
    split at h
    · cases h
    rename_i hparent
    refine ih _ _ _ _ ?_ h
    have hedge := hV _ (hpred vertex hparent)
    dsimp only at hedge
    omega

end Walk

/-! ## The invariant -/

/-- A run so far: `l` is the queue, `pending` are the edges of the vertex being
processed that are still to be looked at. -/
structure Invariant (graph : SolverGraph) (edges : List Edge) (used : Finset Nat)
    (pending : List Edge) (l : List Nat) (state : SolverState) : Prop where
  queue : state.queue.Holds l
  nodup : l.Nodup
  queued_used : ∀ v ∈ l, v ∈ used
  size : state.queue.size = used.card
  inQueue : ∀ v, state.inQueue v = true ↔ v ∈ l
  trace : ∀ v, ∃ t, Trace edges state.distances v t (state.distances v) ∧
    t.length = state.pathEdgeCount v ∧ (Feasible edges → (v :: t).Nodup)
  count_lt : ∀ v, state.pathEdgeCount v < graph.activeVertexCount
  nonpos : ∀ v, state.distances v ≤ 0
  holds : ∀ e ∈ edges, e ∉ pending → e.source ∉ l →
    state.distances e.target - state.distances e.source ≤ e.weight
  predecessor : ∀ v, state.predecessor v ≠ invalidVertex →
    (⟨state.predecessor v, v, state.predecessorWeight v⟩ : Edge) ∈ edges

variable {graph : SolverGraph} {edges : List Edge} {used : Finset Nat} {pending : List Edge}
  {l : List Nat} {state : SolverState}

/-- A predecessor walk from a vertex ends, whatever the predecessors look like so far. -/
theorem Invariant.walk_ends (h : Invariant graph edges used pending l state)
    (hg : graph.Stores edges used) (target : Nat) {source : Nat} (weight : Int)
    (hsource : source < graph.vertexCount) :
    ∃ closes seen epoch marks,
      closesNegativePredecessorCycle graph.vertexCount target source weight state =
        .ok (closes, { state with seen, epoch }) ∧
      predecessorWalk target state.predecessor state.predecessorWeight epoch
        (graph.vertexCount + 1) source weight marks = .ok (closes, seen) := by
  unfold closesNegativePredecessorCycle
  dsimp only
  generalize (if (state.epoch + 1) % 2 ^ 32 = 0 then fun _ => 0 else state.seen) = marks
  generalize (if (state.epoch + 1) % 2 ^ 32 = 0 then 1 else (state.epoch + 1) % 2 ^ 32) = epoch
  have hcard : (unseen graph.vertexCount epoch marks).card < graph.vertexCount + 1 := by
    refine Nat.lt_succ_of_le (le_trans (Finset.card_filter_le _ _) ?_)
    rw [Finset.card_range]
  have hpred : ∀ v, state.predecessor v ≠ invalidVertex →
      state.predecessor v < graph.vertexCount :=
    fun v hv => hg.used_lt _ (hg.source_used _ (h.predecessor v hv))
  have hends : ∃ result, predecessorWalk target state.predecessor state.predecessorWeight epoch
      (graph.vertexCount + 1) source weight marks = .ok result :=
    predecessorWalk_ends hpred _ _ _ _ hcard (fun _ => hsource)
  obtain ⟨⟨closes, seen⟩, hwalk⟩ := hends
  exact ⟨closes, seen, epoch, marks, by rw [hwalk]; rfl, hwalk⟩

/-- The predecessor test answers, and answers yes only where there is no solution. -/
theorem Invariant.closes (h : Invariant graph edges used pending l state)
    (hg : graph.Stores edges used) {edge : Edge} (hedge : edge ∈ edges) :
    ∃ closes seen epoch,
      closesNegativePredecessorCycle graph.vertexCount edge.target edge.source edge.weight state =
        .ok (closes, { state with seen, epoch }) ∧ (closes = true → ¬ Feasible edges) := by
  obtain ⟨closes, seen, epoch, marks, htest, hwalk⟩ :=
    h.walk_ends hg edge.target edge.weight (hg.used_lt _ (hg.source_used edge hedge))
  refine ⟨closes, seen, epoch, htest, ?_⟩
  rintro rfl ⟨V, hV⟩
  exact predecessorWalk_not_negative hV h.predecessor _ _ _ _ _ (hV edge hedge) hwalk

/-! ## One relaxation -/

/-- A vertex outside the queue finds room in it. -/
theorem Invariant.room (h : Invariant graph edges used pending l state) {v : Nat} (hv : v ∈ used)
    (hnot : v ∉ l) : l.length < state.queue.size := by
  rw [h.size]
  have hsub : (v :: l).toFinset ⊆ used := by
    intro x hx
    rcases List.mem_cons.mp (List.mem_toFinset.mp hx) with rfl | hmem
    · exact hv
    · exact h.queued_used x hmem
  have hcard := Finset.card_le_card hsub
  rw [List.toFinset_card_of_nodup (List.nodup_cons.mpr ⟨hnot, h.nodup⟩)] at hcard
  exact hcard

/-- What `push` does to the queue: the vertex joins it unless it is there. -/
theorem push_queue {v : Nat} (hqueue : state.queue.Holds l)
    (hin : ∀ u, state.inQueue u = true ↔ u ∈ l)
    (hnodup : l.Nodup) (hroom : v ∉ l → l.length < state.queue.size) :
    ∃ l', (push state v).queue.Holds l' ∧ l'.Nodup ∧ (∀ u, u ∈ l' ↔ u = v ∨ u ∈ l) ∧
      l'.length ≤ l.length + 1 ∧ (∀ u, (push state v).inQueue u = true ↔ u ∈ l') ∧
      (push state v).queue.size = state.queue.size := by
  unfold push
  split
  · rename_i hmem
    have hv := (hin v).mp hmem
    refine ⟨l, hqueue, hnodup, fun u => ?_, Nat.le_succ _, hin, rfl⟩
    exact ⟨.inr, fun h => h.elim (fun heq => heq ▸ hv) id⟩
  · rename_i hmem
    have hv : v ∉ l := mt (hin v).mpr hmem
    have hflags : ∀ u, Function.update state.inQueue v true u = true ↔ u = v ∨ u ∈ l := by
      intro u
      rw [Function.update_apply]
      by_cases hu : u = v
      · simp [hu]
      · simp [hu, hin u]
    dsimp only
    split
    · refine ⟨v :: l, hqueue.pushFront v (hroom hv), List.nodup_cons.mpr ⟨hv, hnodup⟩,
        fun u => List.mem_cons, le_refl _, fun u => (hflags u).trans List.mem_cons.symm, rfl⟩
    · refine ⟨l ++ [v], hqueue.pushBack v (hroom hv), ?_, ?_, ?_, ?_, rfl⟩
      · exact List.nodup_append.mpr ⟨hnodup, List.nodup_singleton v, by
          intro a ha b hb
          rw [List.mem_singleton.mp hb]
          exact fun heq => hv (heq ▸ ha)⟩
      · intro u
        simp [or_comm]
      · simp
      · intro u
        rw [hflags]
        simp [or_comm]

/-- `push` touches nothing but the queue. -/
theorem push_frame (state : SolverState) (v : Nat) :
    (push state v).distances = state.distances ∧
      (push state v).predecessor = state.predecessor ∧
      (push state v).predecessorWeight = state.predecessorWeight ∧
      (push state v).pathEdgeCount = state.pathEdgeCount := by
  unfold push
  split <;> exact ⟨rfl, rfl, rfl, rfl⟩

/-- The trace of an improved label. -/
theorem Invariant.improved_trace (h : Invariant graph edges used pending l state) {e : Edge}
    (he : e ∈ edges) (hself : e.source ≠ e.target)
    (hlt : state.distances e.source + e.weight < state.distances e.target) :
    ∀ v, ∃ t,
      Trace edges (Function.update state.distances e.target (state.distances e.source + e.weight))
        v t (Function.update state.distances e.target (state.distances e.source + e.weight) v) ∧
      t.length =
        Function.update state.pathEdgeCount e.target (state.pathEdgeCount e.source + 1) v ∧
      (Feasible edges → (v :: t).Nodup) := by
  have hle : ∀ x, Function.update state.distances e.target (state.distances e.source + e.weight) x ≤
      state.distances x := by
    intro x
    rw [Function.update_apply]
    split
    · rename_i hx
      rw [hx]
      exact hlt.le
    · exact le_refl _
  intro v
  by_cases hv : v = e.target
  · subst hv
    obtain ⟨t, ht, hlen, hnodup⟩ := h.trace e.source
    refine ⟨e.source :: t, ?_, ?_, ?_⟩
    · rw [Function.update_self]
      refine .step e he (ht.mono hle) ?_
      rw [Function.update_self]
    · rw [Function.update_self, List.length_cons, hlen]
    · rintro ⟨V, hV⟩
      exact List.nodup_cons.mpr ⟨ht.fresh hV he hself hlt, hnodup ⟨V, hV⟩⟩
  · obtain ⟨t, ht, hlen, hnodup⟩ := h.trace v
    rw [Function.update_of_ne hv, Function.update_of_ne hv]
    exact ⟨t, ht.mono hle, hlen, hnodup⟩

/-- A path of relaxations as long as there are active vertices repeats one, so the
system has no solution. -/
theorem Invariant.not_feasible_of_count (h : Invariant graph edges used pending l state)
    (hg : graph.Stores edges used) {e : Edge} (he : e ∈ edges)
    (hlt : state.distances e.source + e.weight < state.distances e.target)
    (hcount : state.pathEdgeCount e.source + 1 ≥ graph.activeVertexCount) : ¬ Feasible edges := by
  rintro ⟨V, hV⟩
  obtain ⟨t, ht, hlen, hnodup⟩ := h.trace e.source
  have hfresh := ht.fresh hV he (hg.source_ne e he) hlt
  have hsub : (e.target :: e.source :: t).toFinset ⊆ used := by
    intro x hx
    rw [List.mem_toFinset, List.mem_cons, List.mem_cons] at hx
    rcases hx with rfl | rfl | hmem
    · exact hg.target_used e he
    · exact hg.source_used e he
    · obtain ⟨e', he', rfl⟩ := ht.mem_source x hmem
      exact hg.source_used e' he'
  have hcard := Finset.card_le_card hsub
  rw [List.toFinset_card_of_nodup (List.nodup_cons.mpr ⟨hfresh, hnodup ⟨V, hV⟩⟩), hg.card_used,
    List.length_cons, List.length_cons, hlen] at hcard
  omega

/-- How far the labels are above the bound that their traces give. -/
def potential (graph : SolverGraph) (edges : List Edge) (distances : Nat → Int) : Nat :=
  ∑ v ∈ Finset.range graph.vertexCount,
    (distances v + graph.activeVertexCount * totalWeight edges).toNat

theorem Invariant.lower (h : Invariant graph edges used pending l state) (v : Nat) :
    0 ≤ state.distances v + graph.activeVertexCount * totalWeight edges := by
  obtain ⟨t, ht, hlen, -⟩ := h.trace v
  have hlow := ht.lower
  have hle : t.length * totalWeight edges ≤ graph.activeVertexCount * totalWeight edges :=
    Nat.mul_le_mul_right _ (hlen ▸ (h.count_lt v).le)
  have hcast : ((t.length * totalWeight edges : Nat) : Int) ≤
      graph.activeVertexCount * totalWeight edges := by exact_mod_cast hle
  omega

/-- Lowering one label lowers the potential. -/
theorem potential_update_lt {distances : Nat → Int} {v : Nat} {c : Int}
    (hv : v < graph.vertexCount) (hlt : c < distances v)
    (hc : 0 ≤ c + graph.activeVertexCount * totalWeight edges) :
    potential graph edges (Function.update distances v c) < potential graph edges distances := by
  refine Finset.sum_lt_sum (fun x _ => ?_) ⟨v, Finset.mem_range.mpr hv, ?_⟩
  · rw [Function.update_apply]
    split
    · rename_i hx
      rw [hx]
      omega
    · exact le_refl _
  · rw [Function.update_self]
    omega

/-- Step lemma: looking at one edge keeps the invariant and does not raise twice the
potential plus the length of the queue, or else there is no solution. -/
theorem relaxEdge_spec {e : Edge} (hg : graph.Stores edges used) (he : e ∈ edges)
    (h : Invariant graph edges used (e :: pending) l state) :
    (relaxEdge graph e.source (state.distances e.source) state (toAdjEdge e) =
        .error .infeasible ∧ ¬ Feasible edges) ∨
      ∃ state' l', relaxEdge graph e.source (state.distances e.source) state (toAdjEdge e) =
          .ok state' ∧
        Invariant graph edges used pending l' state' ∧
        state'.distances e.source = state.distances e.source ∧
        2 * potential graph edges state'.distances + l'.length ≤
          2 * potential graph edges state.distances + l.length := by
  unfold relaxEdge toAdjEdge
  dsimp only
  by_cases hlt : state.distances e.source + e.weight < state.distances e.target
  swap
  · -- Nothing is improved: the edge holds as it is.
    rw [if_neg hlt]
    refine .inr ⟨state, l, rfl, ?_, rfl, le_refl _⟩
    refine { h with holds := fun e' he' hpending hsource => ?_ }
    by_cases heq : e' = e
    · rw [heq]
      omega
    · exact h.holds e' he' (fun hmem => (List.mem_cons.mp hmem).elim heq hpending) hsource
  rw [if_pos hlt]
  by_cases hcount : state.pathEdgeCount e.source + 1 ≥ graph.activeVertexCount
  · rw [if_pos hcount]
    exact .inl ⟨rfl, h.not_feasible_of_count hg he hlt hcount⟩
  rw [if_neg hcount]
  obtain ⟨closes, seen, epoch, hcloses, hyes⟩ := h.closes hg he
  rw [hcloses]
  cases closes with
  | true => exact .inl ⟨rfl, hyes rfl⟩
  | false =>
    dsimp only
    have hself := hg.source_ne e he
    have htarget := hg.target_used e he
    generalize hs : improve { state with seen, epoch } e.source
      (state.distances e.source + e.weight) ⟨e.target, e.weight⟩ = improved
    -- The queue of the improved state is still the old one.
    have hqueue : improved.queue = state.queue := by rw [← hs]; rfl
    have hin : improved.inQueue = state.inQueue := by rw [← hs]; rfl
    obtain ⟨l', hholds', hnodup', hmem', hlen', hin', hsize'⟩ :=
      push_queue (v := e.target) (hqueue ▸ h.queue) (hin ▸ h.inQueue) h.nodup
        (fun hnot => hqueue ▸ h.room htarget hnot)
    obtain ⟨hd', hp', hw', hc'⟩ := push_frame improved e.target
    have hd : (push improved e.target).distances = Function.update state.distances e.target
        (state.distances e.source + e.weight) := by rw [hd', ← hs]; rfl
    have htrace := h.improved_trace he hself hlt
    have hinv : Invariant graph edges used pending l' (push improved e.target) := by
      refine
        { queue := hholds'
          nodup := hnodup'
          queued_used := ?_
          size := ?_
          inQueue := hin'
          trace := ?_
          count_lt := ?_
          nonpos := ?_
          holds := ?_
          predecessor := ?_ }
      · intro v hv
        rcases (hmem' v).mp hv with rfl | hold
        · exact htarget
        · exact h.queued_used v hold
      · rw [hsize', hqueue]
        exact h.size
      · rw [hd, hc', ← hs]
        exact htrace
      · intro v
        rw [hc', ← hs]
        show Function.update state.pathEdgeCount e.target (state.pathEdgeCount e.source + 1) v < _
        rw [Function.update_apply]
        split
        · omega
        · exact h.count_lt v
      · intro v
        rw [hd, Function.update_apply]
        split
        · have := h.nonpos e.target
          omega
        · exact h.nonpos v
      · intro e' he' hpending hsource
        rw [hmem', not_or] at hsource
        rw [hd, Function.update_of_ne hsource.1]
        by_cases heq : e' = e
        · rw [heq, Function.update_self]
          omega
        · have hold := h.holds e' he'
            (fun hmem => (List.mem_cons.mp hmem).elim heq hpending) hsource.2
          rw [Function.update_apply]
          split
          · rename_i ht
            rw [ht] at hold
            omega
          · exact hold
      · intro v
        rw [hp', hw', ← hs]
        show Function.update state.predecessor e.target e.source v ≠ invalidVertex →
          (⟨Function.update state.predecessor e.target e.source v, v,
            Function.update state.predecessorWeight e.target e.weight v⟩ : Edge) ∈ edges
        by_cases hv : v = e.target
        · subst hv
          rw [Function.update_self, Function.update_self]
          exact fun _ => he
        · rw [Function.update_of_ne hv, Function.update_of_ne hv]
          exact h.predecessor v
    refine .inr ⟨push improved e.target, l', rfl, hinv, ?_, ?_⟩
    · rw [hd, Function.update_of_ne hself]
    · have hlow := hinv.lower e.target
      rw [hd, Function.update_self] at hlow
      have hless := potential_update_lt (hg.used_lt _ htarget) hlt hlow
      rw [hd]
      omega

/-! ## Runs -/

/-- Run lemma of the loop over the out-edges of `source`. -/
theorem relaxEdges_spec (hg : graph.Stores edges used) {source : Nat} (pending : List Edge) :
    ∀ (l : List Nat) (state : SolverState), (∀ e ∈ pending, e ∈ edges ∧ e.source = source) →
      Invariant graph edges used pending l state →
      ((pending.map toAdjEdge).foldlM (relaxEdge graph source (state.distances source)) state =
          .error .infeasible ∧ ¬ Feasible edges) ∨
        ∃ state' l',
          (pending.map toAdjEdge).foldlM (relaxEdge graph source (state.distances source)) state =
            .ok state' ∧
          Invariant graph edges used [] l' state' ∧
          2 * potential graph edges state'.distances + l'.length ≤
            2 * potential graph edges state.distances + l.length := by
  induction pending with
  | nil => exact fun l state _ h => .inr ⟨state, l, rfl, h, le_refl _⟩
  | cons e rest ih =>
    intro l state hpending h
    obtain ⟨he, rfl⟩ := hpending e List.mem_cons_self
    rw [List.map_cons, List.foldlM_cons]
    rcases relaxEdge_spec hg he h with ⟨hstep, hno⟩ | ⟨state₁, l₁, hstep, hinv₁, hsource, hle₁⟩
    · rw [hstep]
      exact .inl ⟨rfl, hno⟩
    · rw [hstep, ← hsource]
      rcases ih l₁ state₁ (fun e' he' => hpending e' (List.mem_cons_of_mem _ he')) hinv₁ with
        ⟨hrun, hno⟩ | ⟨state₂, l₂, hrun, hinv₂, hle₂⟩
      · exact .inl ⟨hrun, hno⟩
      · exact .inr ⟨state₂, l₂, hrun, hinv₂, le_trans hle₂ hle₁⟩

/-- Taking the front of the queue makes its out-edges pending. -/
theorem Invariant.pop {v : Nat} (h : Invariant graph edges used [] (v :: l) state) :
    Invariant graph edges used (edges.filter fun e => e.source = v) l
      { state with
        queue := state.queue.popFront.2
        inQueue := Function.update state.inQueue v false } := by
  obtain ⟨hv, hrest⟩ := List.nodup_cons.mp h.nodup
  refine
    { queue := h.queue.popFront.2
      nodup := hrest
      queued_used := fun u hu => h.queued_used u (List.mem_cons_of_mem _ hu)
      size := h.size
      inQueue := ?_
      trace := h.trace
      count_lt := h.count_lt
      nonpos := h.nonpos
      holds := ?_
      predecessor := h.predecessor }
  · intro u
    dsimp only
    rw [Function.update_apply]
    by_cases hu : u = v
    · subst hu
      simp [hv]
    · rw [if_neg hu, h.inQueue, List.mem_cons]
      simp [hu]
  · intro e he hpending hsource
    refine h.holds e he List.not_mem_nil (fun hmem => ?_)
    rcases List.mem_cons.mp hmem with heq | hin
    · exact hpending (List.mem_filter.mpr ⟨he, decide_eq_true heq⟩)
    · exact hsource hin

/-- Run lemma of the main loop: with fuel above the measure it ends, with an empty queue
or without a solution. -/
theorem relaxLoop_spec (hg : graph.Stores edges used) (fuel : Nat) :
    ∀ (l : List Nat) (state : SolverState), Invariant graph edges used [] l state →
      2 * potential graph edges state.distances + l.length < fuel →
      (relaxLoop graph fuel state = .error .infeasible ∧ ¬ Feasible edges) ∨
        ∃ state', relaxLoop graph fuel state = .ok state' ∧
          Invariant graph edges used [] [] state' := by
  induction fuel with
  | zero => exact fun _ _ _ h => absurd h (Nat.not_lt_zero _)
  | succ fuel ih =>
    intro l state h hfuel
    unfold relaxLoop
    cases l with
    | nil =>
      rw [if_pos (h.queue.empty_iff.mpr rfl)]
      exact .inr ⟨state, rfl, h⟩
    | cons v l =>
      rw [if_neg (fun hempty => List.cons_ne_nil v l (h.queue.empty_iff.mp hempty))]
      obtain ⟨hfront, -⟩ := h.queue.popFront
      have hv := hg.used_lt v (h.queued_used v List.mem_cons_self)
      dsimp only
      rw [hfront, hg.outEdges v hv]
      rcases relaxEdges_spec hg (edges.filter fun e => e.source = v) l _
        (fun e he => ⟨(List.mem_filter.mp he).1, of_decide_eq_true (List.mem_filter.mp he).2⟩)
        h.pop with ⟨hrun, hno⟩ | ⟨state', l', hrun, hinv, hle⟩
      · dsimp only at hrun
        rw [hrun]
        exact .inl ⟨rfl, hno⟩
      · dsimp only at hrun hle
        rw [hrun]
        refine ih l' state' hinv ?_
        rw [List.length_cons] at hfuel
        omega

/-- The seeds are the sources of negative edges, each once. -/
theorem seedQueue_spec (hg : graph.Stores edges used) (hactive : graph.activeVertexCount ≠ 0) :
    ∃ l, (seedQueue graph).1.Holds l ∧ l.Nodup ∧ (seedQueue graph).1.size = used.card ∧
      (∀ v, (seedQueue graph).2 v = true ↔ v ∈ l) ∧
      ∀ v, v ∈ l ↔ ∃ e ∈ edges, e.source = v ∧ e.weight < 0 := by
  have hseed : ∀ v, graph.hasNegativeOutgoingEdge v = true → v ∈ used := by
    intro v hv
    obtain ⟨e, he, rfl, -⟩ := (hg.negative v).mp hv
    exact hg.source_used e he
  have hrun : ∀ n, ∃ queue inQueue, (List.range n).foldl (fun (state : CircularQueue × (Nat → Bool))
        vertex => if graph.hasNegativeOutgoingEdge vertex then
          (state.1.pushBack vertex, Function.update state.2 vertex true) else (state.1, state.2))
        (CircularQueue.new graph.activeVertexCount, fun _ => false) = (queue, inQueue) ∧
      queue.Holds ((List.range n).filter graph.hasNegativeOutgoingEdge) ∧
      queue.size = used.card ∧
      ∀ v, inQueue v = true ↔ v ∈ (List.range n).filter graph.hasNegativeOutgoingEdge := by
    intro n
    induction n with
    | zero =>
      refine ⟨_, _, rfl, CircularQueue.new_holds _, ?_, by simp⟩
      rw [hg.card_used]
      exact if_neg hactive
    | succ n ih =>
      obtain ⟨queue, inQueue, hfold, hholds, hsize, hin⟩ := ih
      rw [List.range_succ, List.foldl_append, hfold, List.foldl_cons, List.foldl_nil,
        List.filter_append]
      dsimp only
      split
      · rename_i hneg
        have hroom : ((List.range n).filter graph.hasNegativeOutgoingEdge).length < queue.size := by
          have hsub : ((List.range (n + 1)).filter graph.hasNegativeOutgoingEdge).toFinset ⊆ used := by
            intro v hv
            exact hseed v (List.mem_filter.mp (List.mem_toFinset.mp hv)).2
          have hcard := Finset.card_le_card hsub
          rw [List.toFinset_card_of_nodup (List.nodup_range.filter _), List.range_succ,
            List.filter_append, List.length_append, List.filter_cons, if_pos hneg] at hcard
          rw [hsize]
          exact hcard
        refine ⟨_, _, rfl, ?_, hsize, fun v => ?_⟩
        · rw [List.filter_cons, if_pos hneg]
          exact hholds.pushBack n hroom
        · rw [Function.update_apply, List.filter_cons, if_pos hneg, List.mem_append,
            List.filter_nil, List.mem_singleton]
          split
          · rename_i hv
            simp [hv]
          · rename_i hv
            rw [hin]
            simp [hv]
      · rename_i hneg
        rw [List.filter_cons, if_neg hneg, List.filter_nil, List.append_nil]
        exact ⟨queue, inQueue, rfl, hholds, hsize, hin⟩
  obtain ⟨queue, inQueue, hfold, hholds, hsize, hin⟩ := hrun graph.vertexCount
  have heq : seedQueue graph = (queue, inQueue) := hfold
  rw [heq]
  refine ⟨_, hholds, List.nodup_range.filter _, hsize, hin, fun v => ?_⟩
  rw [List.mem_filter, List.mem_range]
  refine ⟨fun h => (hg.negative v).mp h.2, fun h => ?_⟩
  have hneg := (hg.negative v).mpr h
  exact ⟨hg.used_lt v (hseed v hneg), hneg⟩

/-- Before the first round every label is zero. -/
theorem initial_invariant (hg : graph.Stores edges used) (hactive : graph.activeVertexCount ≠ 0) :
    ∃ l, (seedQueue graph).1.Holds l ∧ (∀ v, v ∈ l ↔ ∃ e ∈ edges, e.source = v ∧ e.weight < 0) ∧
      Invariant graph edges used [] l (initialState (seedQueue graph).1 (seedQueue graph).2) := by
  obtain ⟨l, hholds, hnodup, hsize, hin, hmem⟩ := seedQueue_spec hg hactive
  refine ⟨l, hholds, hmem, ?_⟩
  refine
    { queue := hholds
      nodup := hnodup
      queued_used := ?_
      size := hsize
      inQueue := hin
      trace := fun v => ⟨[], .start (le_refl 0), rfl, fun _ => List.nodup_singleton v⟩
      count_lt := fun v => Nat.pos_of_ne_zero hactive
      nonpos := fun v => le_refl 0
      holds := ?_
      predecessor := fun v hv => absurd rfl hv }
  · intro v hv
    obtain ⟨e, he, rfl, -⟩ := (hmem v).mp hv
    exact hg.source_used e he
  · intro e he _ hsource
    have hweight : ¬ e.weight < 0 := fun hlt => hsource ((hmem _).mpr ⟨e, he, rfl, hlt⟩)
    show (0 : Int) - 0 ≤ e.weight
    omega

/-- With all labels zero and no negative edge there is nothing to do. -/
theorem zero_isGreatest (h : ∀ e ∈ edges, 0 ≤ e.weight) :
    IsGreatest (Nonpositive edges) fun _ => 0 :=
  ⟨⟨fun e he => by simpa using h e he, fun _ => le_refl 0⟩, fun _ hV v => hV.2 v⟩

/-- `solve_graph` ends, and it finds the greatest solution below zero, no label of which
is larger than all weights together, or there is no solution. -/
theorem solveGraph_spec (hg : graph.Stores edges used) : ∃ bound, ∀ fuel, bound ≤ fuel →
    (solveGraph fuel graph = .error .infeasible ∧ ¬ Feasible edges) ∨
      ∃ d, solveGraph fuel graph = .ok d ∧ IsGreatest (Nonpositive edges) d ∧
        ∀ v, (d v).natAbs ≤ totalWeight edges := by
  by_cases hempty : graph.vertexCount = 0 ∨ graph.activeVertexCount = 0
  · -- No vertex is used, so there is no edge.
    have hused : ∀ v, v ∉ used := by
      intro v hv
      rcases hempty with hzero | hzero
      · have := hg.used_lt v hv
        omega
      · rw [Finset.card_eq_zero.mp (hg.card_used.trans hzero)] at hv
        exact Finset.notMem_empty v hv
    refine ⟨0, fun fuel _ => .inr ⟨fun _ => 0, if_pos hempty, ?_, fun _ => Nat.zero_le _⟩⟩
    exact zero_isGreatest fun e he => absurd (hg.source_used e he) (hused _)
  obtain ⟨l, hholds, hmem, hinv⟩ := initial_invariant hg (fun h => hempty (.inr h))
  refine ⟨2 * potential graph edges (fun _ => 0) + l.length + 1, fun fuel hfuel => ?_⟩
  unfold solveGraph
  rw [if_neg hempty]
  dsimp only
  by_cases hqueue : (seedQueue graph).1.empty = true
  · rw [if_pos hqueue]
    refine .inr ⟨fun _ => 0, rfl, zero_isGreatest fun e he => ?_, fun _ => Nat.zero_le _⟩
    by_contra hneg
    have hin := (hmem e.source).mpr ⟨e, he, rfl, not_le.mp hneg⟩
    rw [hholds.empty_iff.mp hqueue] at hin
    exact List.not_mem_nil hin
  · rw [if_neg hqueue]
    rcases relaxLoop_spec hg fuel l _ hinv hfuel with ⟨hrun, hno⟩ | ⟨state', hrun, hend⟩
    · rw [hrun]
      exact .inl ⟨rfl, hno⟩
    · rw [hrun]
      have hsat : Satisfies edges state'.distances :=
        fun e he => hend.holds e he List.not_mem_nil List.not_mem_nil
      refine .inr ⟨state'.distances, rfl, ?_, fun v => ?_⟩
      · exact isGreatest_of_trace hsat hend.nonpos
          fun v => (hend.trace v).imp fun t ht => ht.1
      · obtain ⟨t, ht, -, hnodup⟩ := hend.trace v
        exact le_trans (ht.natAbs_le (hnodup ⟨_, hsat⟩)) (weightInto_le _ _)

end Bambu.SdcSolver
